import FolderClient.Engine.Effects
import FolderClient.Engine.Orderly
import FolderClient.Engine.Play
import FolderClient.Storage.Collisions
import FolderClient.Storage.Listings
import Mathlib.Data.List.Dedup

namespace FolderClient.Engine.TruncationRuns

open FolderClient.Net.Access
open FolderClient.Core.Namespace FolderClient.Core.Changes FolderClient.Core.Listing
open FolderClient.Core.Filename FolderClient.Library.Json
open FolderClient.Library.Programs FolderClient.Library.Programs.Program
open FolderClient.Library.Programs.Contract FolderClient.Library.Pools
open FolderClient.Storage.Basic FolderClient.Storage.Tree FolderClient.Storage.Effects
open FolderClient.Storage.TreeRuns FolderClient.Storage.Listings FolderClient.Storage.Collisions
open FolderClient.Engine.Port FolderClient.Engine.Reconcile FolderClient.Engine.System
open FolderClient.Engine.Effects FolderClient.Engine.Orderly

/-- How the rows of the listings are read. -/
structure RowReaders where
  basket : Value → ContainerItem .basket
  archive : Value → ContainerItem .archive
  case : Value → ContainerItem .case
  search : Value → ContainerItem .search
  document : Value → DocumentItem

def asTruncation (state : TruncationState) : Truncation := ⟨state.displayUpperLimit, state.refineUrl⟩

section Rows

variable (readers : RowReaders) (setting : Setting)

def documentsAt (location : Location) (rows : List Value) (truncation : Option TruncationState) :
    List Entry :=
  documentEntries setting.texts setting.language setting.unicode location
    (rows.map readers.document) (truncation.map asTruncation)

/-- The entries built from the rows of a listing, for every kind of container. -/
def listedEntries : Container → List Value → Option TruncationState → List Entry
  | .baskets, rows, _ => basketsEntries setting.unicode (rows.map readers.basket)
  | .archives, rows, _ => archivesEntries setting.unicode (rows.map readers.archive)
  | .archive a, rows, _ => casesEntries setting.unicode a (rows.map readers.case)
  | .searches, rows, _ => searchesEntries setting.unicode (rows.map readers.search)
  | .case a c, rows, truncation => documentsAt readers setting (.case a c) rows truncation
  | .search s, rows, truncation => documentsAt readers setting (.search s) rows truncation
  | .root, _, _ | .basket _, _, _ => []

/-- The workstation whose entries are built from rows read this way. -/
def reading : Setting := { setting with entries := listedEntries readers setting }

/-- The identifiers the rows of a listing carry. -/
def named (container : Container) (rows : List Value) : List EntryIdentifier :=
  match container with
  | .baskets => rows.map fun row ↦ .container (.basket (readers.basket row).identifier)
  | .archives => rows.map fun row ↦ .container (.archive (readers.archive row).identifier)
  | .archive a => rows.map fun row ↦ .container (.case a (readers.case row).identifier)
  | .searches => rows.map fun row ↦ .container (.search (readers.search row).identifier)
  | .case a c => rows.map fun row ↦ .document (.case a c) (readers.document row).document
  | .search s => rows.map fun row ↦ .document (.search s) (readers.document row).document
  | .root | .basket _ => []

/-- The different documents of a listing that no effective tombstone keeps out. -/
def live (s : Store) (fetched : Timestamp) (container : Container) (rows : List Value) :
    List EntryIdentifier :=
  (named readers container rows).dedup.filter fun i ↦
    i.document?.all (· ∉ s.effectiveErasure fetched)

end Rows

section Entries

variable {readers : RowReaders} {setting : Setting}

theorem mem_unique {d : DocumentIdentifier} (seen : List DocumentIdentifier)
    (items : List DocumentItem) :
    d ∈ (unique seen items).map DocumentItem.document ↔
      d ∈ items.map DocumentItem.document ∧ d ∉ seen := by
  induction items generalizing seen with
  | nil => simp [unique]
  | cons item items ih =>
    rw [unique]
    split
    · rename_i hs
      rw [ih, List.map_cons, List.mem_cons]
      constructor
      · rintro ⟨hd, hn⟩
        exact ⟨.inr hd, hn⟩
      · rintro ⟨rfl | hd, hn⟩
        · exact absurd hs hn
        · exact ⟨hd, hn⟩
    · rename_i hs
      rw [List.map_cons, List.mem_cons, ih, List.map_cons, List.mem_cons, List.mem_cons]
      by_cases hd : d = item.document
      · simp [hd, hs]
      · simp [hd]

theorem identifiers_documentsAt (location : Location) (rows : List Value)
    (truncation : Option TruncationState) :
    (documentsAt readers setting location rows truncation).map Entry.identifier =
      (unique [] (rows.map readers.document)).map
          (fun item ↦ EntryIdentifier.document location item.document) ++
        (truncation.map fun _ ↦ EntryIdentifier.hint (.ofLocation location) .truncated).toList := by
  have hzip : ∀ taken : List String,
      (List.zipWith (fun (item : DocumentItem) name ↦ item.entry location name)
        (unique [] (rows.map readers.document))
        (name setting.unicode ((unique [] (rows.map readers.document)).map DocumentItem.rawName)
          taken)).map Entry.identifier =
      (unique [] (rows.map readers.document)).map
        fun item ↦ EntryIdentifier.document location item.document := by
    intro taken
    apply map_zipWith_fst
    · intro item name
      rfl
    · rw [length_name, List.length_map]
  cases truncation with
  | none => simp [documentsAt, documentEntries, hzip]
  | some t => simp [documentsAt, documentEntries, hzip, hint]

theorem mem_named {location : Location} {rows : List Value} {i : EntryIdentifier} :
    i ∈ named readers (.ofLocation location) rows ↔
      ∃ d ∈ (rows.map readers.document).map DocumentItem.document, i = .document location d := by
  cases location <;> simp [named, Container.ofLocation, eq_comm]

/-- The documents among the entries are those of the rows. -/
theorem mem_documentsAt (setting : Setting) {location : Location} {rows : List Value}
    (truncation : Option TruncationState) {i : EntryIdentifier} :
    i ∈ (documentsAt readers setting location rows truncation).map Entry.identifier ∧
      i.document?.isSome = true ↔ i ∈ named readers (.ofLocation location) rows := by
  rw [identifiers_documentsAt, mem_named, List.mem_append, List.mem_map]
  constructor
  · rintro ⟨⟨item, hitem, rfl⟩ | hhint, hd⟩
    · refine ⟨item.document, ?_, rfl⟩
      exact ((mem_unique [] _).mp (List.mem_map_of_mem hitem)).1
    · obtain ⟨_, rfl⟩ : truncation.isSome = true ∧
          EntryIdentifier.hint (.ofLocation location) .truncated = i := by
        cases truncation <;> simp_all
      cases hd
  · rintro ⟨d, hd, rfl⟩
    obtain ⟨item, hitem, rfl⟩ := List.mem_map.mp ((mem_unique [] _).mpr ⟨hd, by simp⟩)
    exact ⟨.inl ⟨item, hitem, rfl⟩, rfl⟩

theorem listedEntries_ofLocation (location : Location) (rows : List Value)
    (truncation : Option TruncationState) :
    listedEntries readers setting (.ofLocation location) rows truncation =
      documentsAt readers setting location rows truncation := by
  cases location <;> rfl

theorem holdsDocuments_ofLocation (location : Location) :
    holdsDocuments (.ofLocation location) = true := by
  cases location <;> rfl

theorem exists_location {container : Container} (h : holdsDocuments container = true) :
    ∃ location, container = .ofLocation location := by
  cases container with
  | case a c => exact ⟨.case a c, rfl⟩
  | search s => exact ⟨.search s, rfl⟩
  | _ => cases h

end Entries

/-- What the listings come to, of which the engine itself keeps no account: what the server lists
below each container, the pages each activity has gathered with what the last of them says about
the next, the listing the children of each container were built from, and the entries reported as
removed although the server lists them past the limit of pages. -/
structure Ledger where
  lists : Container → List EntryIdentifier
  gathered : ℕ → Listing × Option String
  built : Container → Option Listing
  cut : List EntryIdentifier

namespace Ledger

variable (readers : RowReaders) (l : Ledger)

/-- The listing an activity has gathered: a continuation is left where the limit was reached. -/
def finished (i : ℕ) : Listing :=
  { (l.gathered i).1 with
    limitReached := (l.gathered i).1.limitReached || (l.gathered i).2.isSome }

/-- The root and the baskets are not listed by the server. -/
def listing (i : ℕ) : Container → Option Listing
  | .root | .basket _ => none
  | _ => some (l.finished i)

/-- The entries below a container reported as removed because the pages read do not have them,
although the server lists them. -/
def past (container : Container) (list : Listing) (out : List JournalEntry) :
    List EntryIdentifier :=
  if list.limitReached then
    (out.filterMap fun entry ↦
      match entry.change with
      | .removed e => some e.identifier
      | _ => none).filter fun i ↦
        i.parent = some container && decide (i ∈ l.lists container) &&
          decide (i ∉ named readers container list.rows)
  else []

end Ledger

/-- What a request leaves in the ledger. -/
def note (readers : RowReaders) (i : ℕ) : (r : Request) → Answer r → World → Ledger → Ledger
  | .command (.reconcile (.listPage _ cursor _)), (.success page, _), _, l =>
    { l with
      gathered := Function.update l.gathered i
        ((if cursor.isNone then Listing.empty else (l.gathered i).1).add page, page.continuation) }
  | .command (.reconcile (.replaceContainer container _ _ _)), .ok out, _, l =>
    { l with
      built := Function.update l.built container (l.listing i container)
      cut := l.cut ++ ((l.listing i container).map
        fun list ↦ l.past readers container list out).getD [] }
  | _, _, _, l => l

/-- What the server lists may change at any time. -/
def drifts (l l' : Ledger) : Prop := ∃ lists, l' = { l with lists := lists }

/-- Whether a listing is shorter than what the server has. -/
def short (container : Container) (list : Listing) : Bool :=
  list.limitReached || (holdsDocuments container && list.totalCapped)

/-- The number a cut listing states. -/
def stated (list : Listing) : ℕ :=
  if list.totalCapped then list.displayLimit.toNat else list.rows.length % 2 ^ 64

def isDocument (e : Entry) : Bool := e.identifier.document?.isSome

/-- The hint of a cut listing. -/
def hintOf (setting : Setting) (container : Container) (state : TruncationState) : Entry :=
  hint setting.language container .truncated
    (hintTextTruncated setting.texts setting.language (asTruncation state))

/-- A folder whose listing is cut shows the hint, and the number it states is that of the documents
shown. -/
def Visible (setting : Setting) (o : World × Ledger) : Prop :=
  ∀ container state list, o.1.store.containerStateOf container = some state →
    o.2.built container = some list → short container list = true →
    ∃ t, state.truncation = some t ∧
      hintOf setting container t ∈ oldListing o.1.store container ∧
      t.displayUpperLimit.toNat = ((oldListing o.1.store container).filter isDocument).length

/-- A cut listing is one of documents, whose number is that of the different documents it has
alive; and no stored entry stands past the limit of pages. A listing is confirmed with the
truncation that stands, and no document of a cut listing is erased. -/
def Heeds (readers : RowReaders) (i : ℕ) : Request → World × Ledger → Prop
  | .command (.reconcile (.replaceContainer container _ state _)), o =>
    ∀ list, o.2.listing i container = some list →
      (short container list = true → holdsDocuments container = true ∧
        stated list = (live readers o.1.store state.fetched container list.rows).length) ∧
      (list.limitReached = true → ∀ e ∈ oldListing o.1.store container,
        e.identifier ∈ o.2.lists container → e.identifier ∈ named readers container list.rows)
  | .command (.reconcile (.updateContainerState container state _)), o =>
    ∀ list, o.2.built container = some list → short container list = true →
      ∃ before, o.1.store.containerStateOf container = some before ∧
        before.truncation = state.truncation
  | .command (.removeDocumentEverywhere document _), o =>
    ∀ container list, o.2.built container = some list → short container list = true →
      ∀ e ∈ oldListing o.1.store container, e.identifier.document? ≠ some document
  | _, _ => True

/-- A listing is written as it was gathered. -/
def InOrder (setting : Setting) (i : ℕ) : Request → World × Ledger → Prop
  | .command (.reconcile (.replaceContainer container entries state _)), o =>
    ∀ list, o.2.listing i container = some list → entries = entriesOf setting container list ∧
      state.truncation = if holdsDocuments container then list.truncation else none
  | _, _ => True

def discipline (setting : Setting) : Discipline Request Answer (World × Ledger) where
  invariant o := WellFormed setting.unicode o.1.store ∧ Visible setting o ∧ o.2.cut = []
  ok i r o := InOrder setting i r o
  rely i o o' := o'.2.gathered i = o.2.gathered i
  ends _ _ := True

/-- The runs of the engine, the ledger kept beside it. -/
def ledgerRules (readers : RowReaders) (setting : Setting) (fails : Prop)
    (heeds : ℕ → Request → World × Ledger → Prop) : Rules Request Answer (World × Ledger) :=
  (rules setting fails {}).beside (note readers) drifts heeds

/-- A freshly set-up device and an empty ledger. -/
def FreshLedger (setting : Setting) (o : World × Ledger) : Prop :=
  Fresh setting o.1 ∧ (∀ container, o.2.built container = none) ∧ o.2.cut = []

def Observed (readers : RowReaders) (setting : Setting) (fails : Prop)
    (heeds : ℕ → Request → World × Ledger → Prop) (c : Pool Request Answer (World × Ledger)) :
    Prop :=
  (ledgerRules readers setting fails heeds).Run (FreshLedger setting) c

/-- The ledger is kept beside runs of the engine. -/
theorem runs_of_observed {readers : RowReaders} {setting : Setting} {fails : Prop}
    {heeds : ℕ → Request → World × Ledger → Prop} {c : Pool Request Answer (World × Ledger)}
    (h : Observed readers setting fails heeds c) :
    Runs setting fails {} ⟨c.state.1, c.running⟩ :=
  Rules.run_of_beside (fun _ hf ↦ hf.1) h

section Fetches

variable {readers : RowReaders} {setting : Setting} {fails : Prop}
  {heeds : ℕ → Request → World × Ledger → Prop} {i : ℕ}

abbrev contract (readers : RowReaders) (setting : Setting) (fails : Prop)
    (heeds : ℕ → Request → World × Ledger → Prop) (i : ℕ) : Contract Request Answer (World × Ledger) :=
  (discipline setting).contract (ledgerRules readers setting fails heeds) i

theorem sound_readPages (container : Container) (known : Option String) (n : ℕ)
    (list : Listing) (cursor : Option String) (tokens : List TokenResponse) {o : World × Ledger}
    (hn : list.pages + n = maxPage)
    (hl : (cursor = none ∧ list = .empty) ∨
      ∃ next, cursor = some next ∧ o.2.gathered i = (list, some next)) :
    (reconciles (contract readers setting fails heeds i)).Sound
      (readPages container known n list cursor tokens)
      (fun x o' ↦ ∀ l, x.1 = .success l → o'.2.finished i = l) o := by
  induction n generalizing list cursor tokens o with
  | zero =>
    intro l hx
    obtain rfl := ApiResult.success.inj hx
    obtain ⟨-, rfl⟩ | ⟨next, -, hg⟩ := hl
    · simp [Listing.empty, maxPage] at hn
    · simp [Ledger.finished, hg]
  | succ n ih =>
    unfold readPages
    refine sound_call_bind trivial fun x o' o'' hserve hrely ↦ ?_
    obtain ⟨result, token⟩ := x
    cases result with
    | success page =>
      have hgathered : o''.2.gathered i = (list.add page, page.continuation) := by
        have hnote : o'.2 = note readers i
            (.command (.reconcile (.listPage container cursor
              (if list.pages = 0 then known else none)))) (.success page, token) o.1 o.2 :=
          hserve.1.2
        have hstays : o''.2.gathered i = o'.2.gathered i := hrely.1
        rw [hstays, hnote]
        obtain ⟨rfl, rfl⟩ | ⟨next, rfl, hg⟩ := hl
        · simp [note]
        · simp [note, hg]
      dsimp only
      split
      · rename_i hcont
        intro l hx
        obtain rfl := ApiResult.success.inj hx
        simp [Ledger.finished, hgathered, hcont]
      · rename_i next hcont
        refine ih (list.add page) (some next) _ ?_ (.inr ⟨next, rfl, hcont ▸ hgathered⟩)
        have hp : (list.add page).pages = list.pages + 1 := rfl
        omega
    | _ =>
      intro l hx
      cases hx

theorem inOrder_of_harmless {r : Request} (h : Harmless r) (o : World × Ledger) :
    InOrder setting i r o := by
  unfold InOrder
  split
  · exact absurd h id
  · trivial

theorem fine_of_harmless {α : Type} {p : ReconcileActivity α} (h : p.Asks HarmlessReconcile) :
    (reconciles (contract readers setting fails heeds i)).Fine p :=
  fine_of_asks h fun r o hr ↦ inOrder_of_harmless (r := .command (.reconcile r)) hr o

theorem sound_adopt {container : Container} {entries : List Entry} {etag : Option String}
    {truncation : Option TruncationState} {tokens : List TokenResponse} {o : World × Ledger}
    (h : ∀ list, o.2.listing i container = some list →
      entries = entriesOf setting container list ∧
        truncation = if holdsDocuments container then list.truncation else none) :
    (reconciles (contract readers setting fails heeds i)).Sound
      (adopt container entries etag truncation tokens).run (fun _ _ ↦ True) o := by
  refine sound_fallible_bind ⟨trivial, fun time o' o'' hserve hrely ↦ ?_⟩
  have hnote : o'.2 = o.2 := hserve.1.2
  have hgathered : o''.2.gathered i = o.2.gathered i := by
    rw [← hnote]
    exact hrely.1
  refine Contract.Sound.fine_bind (Q := fun _ _ ↦ True) ?_ fun result ↦ ?_
  · refine ⟨?_, fun _ _ _ _ _ ↦ trivial⟩
    intro list hlist
    refine h list ?_
    rw [← hlist]
    cases container <;> simp [Ledger.listing, Ledger.finished, hgathered]
  · cases result with
    | error e => exact fine_done _
    | ok journal =>
      refine fine_of_harmless ?_
      change (if journal.isEmpty = true then pure () else registerWithPlatform journal :
        ReconcileFallible Unit).run.Asks HarmlessReconcile
      split
      · trivial
      · exact asks_lift (asks_registerWithPlatform journal)

theorem fine_fetchAndAdopt (container : Container) :
    (reconciles (contract readers setting fails heeds i)).Fine
      (fetchAndAdopt setting container).run := by
  refine fine_fallible_bind (fine_store (fine_call fun _ ↦ trivial)) fun before ↦ ?_
  split
  · exact fun o ↦ sound_adopt fun list hlist ↦ nomatch hlist
  · exact fun o ↦ sound_adopt fun list hlist ↦ nomatch hlist
  · rename_i hroot hbasket
    intro o
    have hread : (reconciles (contract readers setting fails heeds i)).Sound
        (readPages container (before.bind (·.etag)) maxPage .empty none [])
        (fun x o' ↦ ∀ l, x.1 = .success l → o'.2.finished i = l) o :=
      sound_readPages container _ maxPage .empty none [] rfl (.inl ⟨rfl, rfl⟩)
    refine sound_fallible_bind (sound_bind.mpr (sound_mono ?_ hread))
    intro ⟨result, tokens⟩ o' hfinished
    have hadopt : (reconciles (contract readers setting fails heeds i)).Sound
        (do let list ← raise (result.valueFrom (listingName container))
            adopt container (entriesOf setting container list) list.etag
              (if holdsDocuments container then list.truncation else none) tokens :
          ReconcileFallible Unit).run (fun _ _ ↦ True) o' := by
      refine sound_fallible_bind ?_
      cases hvalue : result.valueFrom (listingName container) with
      | error e => trivial
      | ok list =>
        refine sound_adopt fun list' hlist ↦ ?_
        have heq : o'.2.finished i = list := hfinished list (ApiResult.valueFrom_eq_ok hvalue)
        have hsame : list' = list := by
          rw [← heq]
          cases container with
          | root => exact absurd rfl hroot
          | basket b => exact absurd rfl (hbasket b)
          | _ => exact (Option.some.inj hlist).symm
        rw [hsame]
        exact ⟨rfl, rfl⟩
    cases result with
    | unchanged etag => exact fine_of_harmless (asks_confirmed container etag tokens) o'
    | _ => exact hadopt

theorem orderly (readers : RowReaders) (setting : Setting) (fails : Prop)
    (heeds : ℕ → Request → World × Ledger → Prop) (i : ℕ) :
    Orderly setting (contract readers setting fails heeds i) where
  harmless _ o h _ := inOrder_of_harmless h o
  ensureForToken := fine_of_all (fun _ _ ↦ trivial) _
  forceRefresh := fine_of_all (fun _ _ ↦ trivial) _
  signIn := fine_of_all (fun _ _ ↦ trivial) _
  signOut := fine_of_all (fun _ _ ↦ trivial) _
  clearAfterSignOut := fine_of_all (fun _ _ ↦ trivial) _
  root := fun _ ↦ sound_adopt fun _ he ↦ nomatch he
  fetchAndAdopt := fine_fetchAndAdopt

end Fetches

section Stores

variable {readers : RowReaders} {setting : Setting} {s s' : Store} {container : Container}

/-- Two listings with the same entries show the same number of documents. -/
theorem length_documents (h : ∀ e, e ∈ oldListing s' container ↔ e ∈ oldListing s container) :
    ((oldListing s' container).filter isDocument).length =
      ((oldListing s container).filter isDocument).length := by
  have hnodup : ∀ t : Store, (oldListing t container).Nodup := fun t ↦
    .of_map _ (identifiers_oldListing t container)
  have hperm : (oldListing s' container).Perm (oldListing s container) :=
    (List.perm_ext_iff_of_nodup (hnodup s') (hnodup s)).mpr h
  exact (hperm.filter isDocument).length_eq

theorem displayUpperLimit_of_truncation {list : Listing} {t : TruncationState}
    (h : list.truncation = some t) : t.displayUpperLimit.toNat = stated list := by
  unfold Listing.truncation at h
  split at h
  · rw [← Option.some.inj h, stated]
    dsimp only
    split
    · rfl
    · simp
  · cases h

theorem exists_truncation {location : Location} {list : Listing}
    (h : short (.ofLocation location) list = true) : ∃ t, list.truncation = some t := by
  simp only [short, holdsDocuments_ofLocation, Bool.true_and] at h
  rw [Bool.or_comm] at h
  simp [Listing.truncation, h]

section Replaced

variable {location : Location} {list : Listing} {state : ContainerState} {gone : List Entry}
  {t : TruncationState}

theorem entriesOf_cut (hlist : list.truncation = some t) :
    entriesOf (reading readers setting) (.ofLocation location) list =
      documentsAt readers setting location list.rows (some t) := by
  rw [entriesOf, holdsDocuments_ofLocation, if_pos rfl, hlist]
  exact listedEntries_ofLocation _ _ _

/-- The documents stored from a listing are the different ones of its rows that are alive. -/
theorem length_documents_replaced (hlist : list.truncation = some t)
    (hr : Replaced setting.unicode s s' (.ofLocation location) (withoutErased s
      (entriesOf (reading readers setting) (.ofLocation location) list) state.fetched) state gone) :
    ((oldListing s' (.ofLocation location)).filter isDocument).length =
      (live readers s state.fetched (.ofLocation location) list.rows).length := by
  rw [entriesOf_cut hlist] at hr
  have hnodup : (((oldListing s' (.ofLocation location)).filter isDocument).map
      Entry.identifier).Nodup :=
    (identifiers_oldListing s' _).sublist (List.filter_sublist.map _)
  have hlive : (live readers s state.fetched (.ofLocation location) list.rows).Nodup :=
    (List.nodup_dedup _).filter _
  have hperm := (List.perm_ext_iff_of_nodup hnodup hlive).mpr fun i ↦ by
    rw [live, List.mem_filter, List.mem_dedup, ← mem_documentsAt setting (some t)]
    constructor
    · intro hi
      obtain ⟨e, he, rfl⟩ := List.mem_map.mp hi
      obtain ⟨he, hd⟩ := List.mem_filter.mp he
      obtain ⟨he, hlives⟩ := List.mem_filter.mp ((mem_replaced hr).mp he)
      exact ⟨⟨List.mem_map_of_mem he, hd⟩, hlives⟩
    · rintro ⟨⟨hi, hd⟩, hlives⟩
      obtain ⟨e, he, rfl⟩ := List.mem_map.mp hi
      refine List.mem_map_of_mem (List.mem_filter.mpr ⟨?_, hd⟩)
      exact (mem_replaced hr).mpr (List.mem_filter.mpr ⟨he, hlives⟩)
  simpa using hperm.length_eq

/-- The hint of a cut listing is stored with it. -/
theorem hint_replaced (hlist : list.truncation = some t)
    (hr : Replaced setting.unicode s s' (.ofLocation location) (withoutErased s
      (entriesOf (reading readers setting) (.ofLocation location) list) state.fetched) state gone) :
    hintOf setting (.ofLocation location) t ∈ oldListing s' (.ofLocation location) := by
  refine (mem_replaced hr).mpr (List.mem_filter.mpr ⟨?_, rfl⟩)
  rw [entriesOf_cut hlist]
  exact List.mem_append_right _ List.mem_cons_self

end Replaced

/-- What a fresh listing reports as removed directly below its container is missing in it. -/
theorem missing_of_gone {unicode : Unicode} {fresh gone : List Entry} {state : ContainerState}
    (ht : Rooted s) (hr : Replaced unicode s s' container fresh state gone) {e : Entry}
    (he : e ∈ gone) (hp : e.identifier.parent = some container) :
    ∃ old ∈ oldListing s container, old.identifier = e.identifier := by
  obtain ⟨r, -, hd, rfl⟩ := (hr.mem_gone e).mp he
  obtain ⟨old, hold, hw⟩ := List.any_eq_true.mp hd
  have hm := ((mem_missing (identifiers_oldListing s container)
    hr.checked.identifiers).mp hold).1
  obtain hi | hw := within_parent hw hp
  · exact ⟨old, hm, hi.symm⟩
  · have hdropped : dropped s container fresh (.container container) = true :=
      List.any_eq_true.mpr ⟨old, hold, hw⟩
    rw [not_dropped_container ht hr.checked.identifiers] at hdropped
    cases hdropped

theorem change_mem_of_numbered {last : ℕ} {changes : List Change} {entry : JournalEntry}
    (h : entry ∈ numbered last changes) : entry.change ∈ changes := by
  induction changes generalizing last with
  | nil => cases h
  | cons c changes ih =>
    rw [numbered, List.mem_cons] at h
    obtain rfl | h := h
    · exact List.mem_cons_self
    · exact List.mem_cons_of_mem _ (ih h)

theorem removed_mem_gone {fresh gone : List Entry} {e : Entry}
    (hf : (fresh.map Entry.identifier).Nodup)
    (h : Change.removed e ∈ gone.map .removed ++ puts s container fresh) : e ∈ gone := by
  obtain h | h := List.mem_append.mp h
  · simpa using h
  · obtain ⟨e', -, hafter, -⟩ := after_puts hf h
    cases hafter

/-- Where no stored entry stands past the limit of pages, none is reported as removed for it. -/
theorem past_eq_nil {unicode : Unicode} {new gone : List Entry} {state : ContainerState}
    {l : Ledger} {list : Listing} (ht : Rooted s)
    (hr : Replaced unicode s s' container (withoutErased s new state.fetched) state gone)
    (h : list.limitReached = true → ∀ e ∈ oldListing s container,
      e.identifier ∈ l.lists container → e.identifier ∈ named readers container list.rows) :
    l.past readers container list (numbered s.journalState.last (gone.map .removed ++
      puts s container (withoutErased s new state.fetched))) = [] := by
  unfold Ledger.past
  split
  · rename_i hlimit
    refine List.filter_eq_nil_iff.mpr fun i hi ↦ ?_
    obtain ⟨entry, hentry, hchange⟩ := List.mem_filterMap.mp hi
    have hmem := change_mem_of_numbered hentry
    cases hc : entry.change with
    | removed e =>
      simp only [hc, Option.some.injEq] at hchange
      rw [hc] at hmem
      have hgone := removed_mem_gone hr.checked.identifiers hmem
      intro hpast
      simp only [Bool.and_eq_true, decide_eq_true_eq] at hpast
      obtain ⟨⟨hparent, hlists⟩, hnamed⟩ := hpast
      rw [← hchange] at hparent hlists hnamed
      obtain ⟨old, hold, hsame⟩ := missing_of_gone ht hr hgone hparent
      rw [← hsame] at hlists hnamed
      exact hnamed (h hlimit old hold hlists)
    | new e => simp [hc] at hchange
    | changed e e' => simp [hc] at hchange
  · rfl

end Stores

section Kept

variable {readers : RowReaders} {setting : Setting} {fails : Prop} {o o' : World × Ledger}

theorem Visible.of_same (h : Visible setting o)
    (hs : SameNamespace o.1.store o'.1.store) (hb : o'.2.built = o.2.built) :
    Visible setting o' := by
  intro container state list hstate hbuilt hshort
  rw [Store.containerStateOf, hs.containerState] at hstate
  rw [hb] at hbuilt
  have hold : oldListing o'.1.store container = oldListing o.1.store container := by
    unfold oldListing Store.readChildren
    rw [hs.entry]
  rw [hold]
  exact h container state list hstate hbuilt hshort

theorem visible_replaceContainer {container : Container} {entries gone : List Entry}
    {state : ContainerState} {built : Option Listing}
    (ht : Rooted o.1.store) (h : Visible setting o)
    (hb : o'.2.built = Function.update o.2.built container built)
    (hok : ∀ list, built = some list →
      entries = entriesOf (reading readers setting) container list ∧
        state.truncation = if holdsDocuments container then list.truncation else none)
    (hheeds : ∀ list, built = some list → short container list = true →
      holdsDocuments container = true ∧
        stated list = (live readers o.1.store state.fetched container list.rows).length)
    (hr : Replaced setting.unicode o.1.store o'.1.store container
      (withoutErased o.1.store entries state.fetched) state gone) : Visible setting o' := by
  intro c st list hst hbuilt hshort
  rw [containerStateOf_of_replaced hr] at hst
  rw [hb] at hbuilt
  by_cases hc : c = container
  · subst hc
    rw [if_pos rfl] at hst
    obtain rfl := Option.some.inj hst
    rw [Function.update_self] at hbuilt
    obtain ⟨hholds, hstated⟩ := hheeds list hbuilt hshort
    obtain ⟨location, rfl⟩ := exists_location hholds
    obtain ⟨hentries, htruncation⟩ := hok list hbuilt
    obtain ⟨t, hlist⟩ := exists_truncation hshort
    rw [hentries] at hr
    refine ⟨t, ?_, hint_replaced hlist hr, ?_⟩
    · rw [htruncation, if_pos hholds, hlist]
    · rw [displayUpperLimit_of_truncation hlist, length_documents_replaced hlist hr, hstated]
  · rw [if_neg hc] at hst
    rw [Function.update_of_ne hc] at hbuilt
    split at hst
    · cases hst
    · rename_i hd
      have hmem : ∀ e, e ∈ oldListing o'.1.store c ↔ e ∈ oldListing o.1.store c := fun e ↦
        mem_replaced_of_ne ht hr hc (by simpa using hd)
      obtain ⟨t, htr, hhint, hnumber⟩ := h c st list hst hbuilt hshort
      refine ⟨t, htr, (hmem _).mpr hhint, ?_⟩
      rw [length_documents hmem, hnumber]

theorem visible_updateContainerState {container : Container} {state : ContainerState}
    (h : Visible setting o) (hb : o'.2.built = o.2.built)
    (hheeds : ∀ list, o.2.built container = some list → short container list = true →
      ∃ before, o.1.store.containerStateOf container = some before ∧
        before.truncation = state.truncation)
    (hu : o.1.store.updateContainerState container state = .ok o'.1.store) :
    Visible setting o' := by
  obtain ⟨-, hs⟩ := updateContainerState_eq_ok hu
  have hold : ∀ c, oldListing o'.1.store c = oldListing o.1.store c := by
    intro c
    rw [hs]
    rfl
  intro c st list hst hbuilt hshort
  rw [hs, Store.containerStateOf, containerStateOf_upsert] at hst
  rw [hb] at hbuilt
  rw [hold]
  split at hst
  · rename_i hc
    subst hc
    obtain rfl := Option.some.inj hst
    obtain ⟨before, hbefore, htr⟩ := hheeds list hbuilt hshort
    rw [← htr]
    exact h c before list hbefore hbuilt hshort
  · exact h c st list hst hbuilt hshort

theorem visible_removeDocumentEverywhere {document : DocumentIdentifier} {now : Timestamp}
    {out : List JournalEntry} (ht : Rooted o.1.store) (h : Visible setting o)
    (hb : o'.2.built = o.2.built)
    (hheeds : ∀ container list, o.2.built container = some list → short container list = true →
      ∀ e ∈ oldListing o.1.store container, e.identifier.document? ≠ some document)
    (he : o.1.store.removeDocumentEverywhere document now = .ok (out, o'.1.store)) :
    Visible setting o' := by
  intro c st list hst hbuilt hshort
  rw [(removeDocumentEverywhere_eq_ok he).2.1] at hst
  rw [hb] at hbuilt
  have hmem : ∀ e, e ∈ oldListing o'.1.store c ↔ e ∈ oldListing o.1.store c := by
    intro e
    rw [mem_erased ht he]
    constructor
    · exact fun hm ↦ hm.1
    · exact fun hm ↦ ⟨hm, hheeds c list hbuilt hshort e hm⟩
  obtain ⟨t, htr, hhint, hnumber⟩ := h c st list hst hbuilt hshort
  refine ⟨t, htr, (hmem _).mpr hhint, ?_⟩
  rw [length_documents hmem, hnumber]

theorem note_of_ne {i : ℕ} {r : Request} {a : Answer r} {w : World} {l : Ledger}
    (h : ∀ container entries state tokens,
      r ≠ .command (.reconcile (.replaceContainer container entries state tokens))) :
    (note readers i r a w l).built = l.built ∧ (note readers i r a w l).cut = l.cut := by
  unfold note
  split
  · exact ⟨rfl, rfl⟩
  · exact absurd rfl (h _ _ _ _)
  · exact ⟨rfl, rfl⟩

theorem note_gathered_of_ne {i j : ℕ} {r : Request} {a : Answer r} {w : World} {l : Ledger}
    (h : j ≠ i) : (note readers i r a w l).gathered j = l.gathered j := by
  unfold note
  split
  · exact Function.update_of_ne h _ _
  · rfl
  · rfl

/-- A listing that heeds the condition is written with its hint, and nothing is lost past the
limit of pages. -/
theorem kept_replaceContainer {i : ℕ} {container : Container} {entries : List Entry}
    {state : ContainerState} {tokens : List TokenResponse} {a : Except StoreError (List JournalEntry)}
    (hi : (discipline (reading readers setting)).invariant o)
    (hok : InOrder (reading readers setting) i
      (.command (.reconcile (.replaceContainer container entries state tokens))) o)
    (hheeds : Heeds readers i
      (.command (.reconcile (.replaceContainer container entries state tokens))) o)
    (hserve : serve (reading readers setting) fails i
      (.command (.reconcile (.replaceContainer container entries state tokens))) o.1 a o'.1)
    (hnote : o'.2 = note readers i
      (.command (.reconcile (.replaceContainer container entries state tokens))) a o.1 o.2) :
    Visible setting o' ∧ o'.2.cut = [] := by
  obtain ⟨hw, hvisible, hcut⟩ := hi
  simp only [Port.serve, serveCommand, serveReconcile] at hserve
  obtain ⟨hworld, e, rfl⟩ | ⟨out, s, hop, rfl, hworld⟩ := storedNoting_cases hserve
  · have hvisible' : Visible (reading readers setting) o' :=
      hvisible.of_same (hworld ▸ .refl _) (hnote ▸ rfl)
    refine ⟨hvisible', ?_⟩
    rw [hnote]
    exact hcut
  · obtain ⟨gone, rfl, hr⟩ := replaceContainer_eq_ok hw.rooted hop
    have hstore : o'.1.store = s := by
      rw [hworld]
    rw [← hstore] at hr
    constructor
    · refine visible_replaceContainer hw.rooted hvisible (by rw [hnote]; rfl) hok ?_ hr
      exact fun list hlist ↦ (hheeds list hlist).1
    · rw [hnote]
      change o.2.cut ++ _ = []
      rw [hcut, List.nil_append]
      cases hlist : o.2.listing i container with
      | none => rfl
      | some list => exact past_eq_nil hw.rooted hr (hheeds list hlist).2

theorem kept_serve {i : ℕ} {r : Request} {a : Answer r}
    (hi : (discipline (reading readers setting)).invariant o)
    (hok : InOrder (reading readers setting) i r o) (hheeds : Heeds readers i r o)
    (hserve : serve (reading readers setting) fails i r o.1 a o'.1)
    (hnote : o'.2 = note readers i r a o.1 o.2) :
    (discipline (reading readers setting)).invariant o' := by
  refine ⟨wellFormed_serve hi.1 hserve, ?_⟩
  by_cases hreplace : ∀ container entries state tokens,
      r ≠ .command (.reconcile (.replaceContainer container entries state tokens))
  · obtain ⟨hb, hc⟩ : o'.2.built = o.2.built ∧ o'.2.cut = o.2.cut := by
      rw [hnote]
      exact note_of_ne hreplace
    refine ⟨?_, hc.trans hi.2.2⟩
    have hvisible : Visible (reading readers setting) o := hi.2.1
    obtain hs | hs := store_serve hserve
    · exact hvisible.of_same (hs ▸ .refl _) hb
    · cases hop : operationOf r with
      | none => exact hvisible.of_same (sameNamespace_of_operationOf hop hs) hb
      | some operation =>
        unfold operationOf at hop
        split at hop
        · exact absurd rfl (hreplace _ _ _ _)
        · exact visible_updateContainerState hvisible hb hheeds hs
        · obtain ⟨out, hs⟩ := map_snd_eq_ok hs
          exact visible_removeDocumentEverywhere hi.1.rooted hvisible hb hheeds hs
        · obtain ⟨new, hs⟩ := map_snd_eq_ok hs
          obtain ⟨-, hs⟩ := emptyNamespace_eq_ok hs
          intro container state list hstate
          rw [hs] at hstate
          cases hstate
        · cases hop
  · push Not at hreplace
    obtain ⟨container, entries, state, tokens, rfl⟩ := hreplace
    exact kept_replaceContainer hi hok hheeds hserve hnote

theorem kept_of_same (hi : (discipline setting).invariant o) (hs : o'.1.store = o.1.store)
    (hg : o'.2.gathered = o.2.gathered) (hb : o'.2.built = o.2.built) (hc : o'.2.cut = o.2.cut) :
    (discipline setting).invariant o' ∧ ∀ j, (discipline setting).rely j o o' := by
  refine ⟨⟨?_, hi.2.1.of_same (hs ▸ .refl _) hb, hc.trans hi.2.2⟩, fun j ↦ congrFun hg j⟩
  rw [hs]
  exact hi.1

theorem kept_of_store (hi : (discipline setting).invariant o) (hs : o'.1.store = o.1.store)
    (hl : o'.2 = o.2) :
    (discipline setting).invariant o' ∧ ∀ j, (discipline setting).rely j o o' :=
  kept_of_same hi hs (hl ▸ rfl) (hl ▸ rfl) (hl ▸ rfl)

theorem kept (readers : RowReaders) (setting : Setting) (fails : Prop) :
    (discipline (reading readers setting)).Kept
      (ledgerRules readers (reading readers setting) fails (Heeds readers))
      (FreshLedger (reading readers setting)) where
  refl _ _ := rfl
  trans _ _ _ _ h h' := h'.trans h
  enter o := by
    intro ⟨⟨n, limit, hw⟩, hb, hc⟩
    refine ⟨?_, ?_, hc⟩
    · rw [hw]
      exact SameNamespace.wellFormed (wellFormed_setUp _ n limit) ⟨rfl, rfl, rfl, rfl⟩
    · intro container state list _ hbuilt
      rw [hb] at hbuilt
      cases hbuilt
  start i p o hi := by
    intro ⟨job, hp, _⟩ o' _ _
    rw [hp]
    have horder := orderly readers (reading readers setting) fails (Heeds readers) i
    exact fine_program horder (fine_process horder fun _ _ _ ↦ trivial)
      (fine_content horder fun _ _ ↦ trivial) job o'
  serve i r o a o' hi hok hserve :=
    ⟨kept_serve hi hok hserve.2 hserve.1.1.1 hserve.1.2, fun j hj ↦ by
      change o'.2.gathered j = o.2.gathered j
      rw [hserve.1.2]
      exact note_gathered_of_ne hj⟩
  finish i o o' hi _ ho := by
    obtain ⟨hw, hl⟩ := ho
    have hs := sameRecord_ended i o.1
    rw [← show o'.1 = ended i o.1 from hw] at hs
    obtain ⟨hi, hr⟩ := kept_of_store hi hs.store hl
    exact ⟨hi, fun j _ ↦ hr j⟩
  abort i o o' hi ho := by
    obtain ⟨⟨-, hw⟩, hl⟩ := ho
    have hs := sameRecord_aborted i o.1
    rw [← hw] at hs
    obtain ⟨hi, hr⟩ := kept_of_store hi hs.store hl
    exact ⟨hi, fun j _ ↦ hr j⟩
  restart o o' hi ho := by
    obtain ⟨⟨-, fingerprint, hw⟩, hl⟩ := ho
    exact (kept_of_store hi (hw ▸ rfl) hl).1
  outside o o' hi ho := by
    obtain ⟨⟨-, hw⟩, hl⟩ | ⟨hw, lists, hl⟩ := ho
    · exact kept_of_store hi (hw ▸ rfl) hl
    · exact kept_of_same hi (hw ▸ rfl) (hl ▸ rfl) (hl ▸ rfl) (hl ▸ rfl)

/-- In every run in which a cut listing is one of documents and states their number, and no entry
stands past the limit of pages, every cut listing is seen to be cut, and no entry is reported as
removed because the paging stopped. -/
theorem truncation_of_run {c : Pool Request Answer (World × Ledger)}
    (h : Observed readers (reading readers setting) fails (Heeds readers) c) :
    Visible (reading readers setting) c.state ∧ c.state.2.cut = [] :=
  (Discipline.run_kept (kept readers setting fails) h).1.2

end Kept

section Played

open FolderClient.Engine.Play

/-- Rows of a name each; the identifier is the length of the name. -/
def plainItem {kind : IdKind} (row : Value) : ContainerItem kind :=
  ⟨⟨Fin.ofNat (2 ^ 128) (row.asStr.getD "").length⟩, row.asStr.getD ""⟩

def plainReaders : RowReaders where
  basket := plainItem
  archive := plainItem
  case := plainItem
  search := plainItem
  document row :=
    ⟨(plainItem row : ContainerItem .document).identifier, row.asStr.getD "", "text/plain", 1, ⟨0⟩,
      "1", .null, .null⟩

/-- A fresh device, and a server that lists one archive. -/
def freshLedger : Pool Request Answer (World × Ledger) where
  state := (.setUp plain.device 0 1000,
    { lists := fun _ ↦ [.container (.archive ⟨1⟩)]
      gathered := fun _ ↦ (.empty, none)
      built := fun _ ↦ none
      cut := [] })
  running _ := none

theorem observed_freshLedger {heeds : ℕ → Request → World × Ledger → Prop} :
    Observed plainReaders (reading plainReaders plain) False heeds freshLedger :=
  .first ⟨⟨0, 1000, rfl⟩, fun _ ↦ rfl, rfl⟩

/-- Requests that heed the condition whatever stands stored. -/
def careful (i : ℕ) : Request → World × Ledger → Bool
  | .command (.reconcile (.replaceContainer container _ state _)), o =>
    (o.2.listing i container).all fun list ↦ !list.limitReached &&
      (!short container list || holdsDocuments container && decide (stated list =
        (live plainReaders o.1.store state.fetched container list.rows).length))
  | .command (.reconcile (.updateContainerState _ _ _)), _ => false
  | .command (.removeDocumentEverywhere _ _), _ => false
  | _, _ => true

theorem heeds_of_careful {i : ℕ} {r : Request} {o : World × Ledger} (h : careful i r o = true) :
    Heeds plainReaders i r o := by
  unfold careful at h
  split at h
  · intro list hlist
    simp only [hlist, Option.all_some, Bool.and_eq_true, Bool.not_eq_true', Bool.or_eq_true,
      decide_eq_true_eq] at h
    obtain ⟨hlimit, hshort⟩ := h
    refine ⟨fun hs ↦ hshort.resolve_left ?_, fun hl ↦ ?_⟩
    · simp [hs]
    · rw [hlimit] at hl
      cases hl
  · cases h
  · cases h
  · rename_i hreplace hupdate hremove
    unfold Heeds
    split
    · exact (hreplace _ _ _ _ rfl).elim
    · exact (hupdate _ _ _ rfl).elim
    · exact (hremove _ _ rfl).elim
    · trivial

/-- A search the server has capped at two hits is fetched. -/
def cappedSearch : List Move :=
  whole 63 1 .signIn (welcoming (plainPage ["x"] "L")) ++
  whole 9 1 (.reconcile (.search ⟨1⟩))
    (welcoming (.success ⟨["ab", "abc"].map .string, none, some "E", true, 2, none⟩))

theorem truncation_cappedSearch : ∃ c,
    Observed plainReaders (reading plainReaders plain) False (Heeds plainReaders) c ∧
    (c.state.2.built (.search ⟨1⟩)).any (short (.search ⟨1⟩)) = true ∧
    Visible (reading plainReaders plain) c.state ∧ c.state.2.cut = [] := by
  obtain ⟨c, hplay, hshort⟩ := (Option.any_eq_true
    (fun c : Pool Request Answer (World × Ledger) ↦
      (c.state.2.built (.search ⟨1⟩)).any (short (.search ⟨1⟩)))
    (playBeside (reading plainReaders plain) (note plainReaders) careful freshLedger
      cappedSearch)).mp (by decide +kernel)
  have hrun : Observed plainReaders (reading plainReaders plain) False (Heeds plainReaders) c :=
    runs_of_playBeside (fun i r o ↦ heeds_of_careful) observed_freshLedger hplay
  exact ⟨c, hrun, hshort, truncation_of_run hrun⟩

/-- The listing of the archives goes on and on without an archive. -/
def endlessArchives : List Move :=
  whole 63 1 .signIn (welcoming (plainPage ["x"] "L")) ++
  whole 108 1 (.reconcile .archives)
    (welcoming (.success ⟨[], some "next", some "E", false, 0, none⟩))

/-- The stored listing of the archives is cut, but nothing says so. -/
def isSilent (o : World × Ledger) : Bool :=
  (o.1.store.containerStateOf .archives).any (·.truncation.isNone) &&
    (o.2.built .archives).any (short .archives)

theorem not_visible_of_isSilent {setting : Setting} {o : World × Ledger}
    (h : isSilent o = true) : ¬ Visible setting o := by
  simp only [isSilent, Bool.and_eq_true, Option.any_eq_true, Option.isNone_iff_eq_none] at h
  obtain ⟨⟨state, hstate, hnone⟩, list, hlist, hshort⟩ := h
  intro hvisible
  obtain ⟨t, ht, -⟩ := hvisible .archives state list hstate hlist hshort
  rw [hnone] at ht
  cases ht

/-- At the limit of pages the archives are cut in silence, and the archive that the server still
lists is reported as removed. -/
theorem silent_endlessArchives : ∃ c,
    Observed plainReaders (reading plainReaders plain) False (fun _ _ _ ↦ True) c ∧
    ¬ Visible (reading plainReaders plain) c.state ∧
    c.state.2.cut = [.container (.archive ⟨1⟩)] := by
  obtain ⟨c, hplay, hsilent⟩ := (Option.any_eq_true
    (fun c : Pool Request Answer (World × Ledger) ↦
      isSilent c.state && decide (c.state.2.cut = [.container (.archive ⟨1⟩)]))
    (playBeside (reading plainReaders plain) (note plainReaders) (fun _ _ _ ↦ true) freshLedger
      endlessArchives)).mp (by decide +kernel)
  rw [Bool.and_eq_true, decide_eq_true_eq] at hsilent
  have hrun : Observed plainReaders (reading plainReaders plain) False (fun _ _ _ ↦ True) c :=
    runs_of_playBeside (fun _ _ _ _ ↦ trivial) observed_freshLedger hplay
  exact ⟨c, hrun, not_visible_of_isSilent hsilent.1, hsilent.2⟩

end Played

end FolderClient.Engine.TruncationRuns
