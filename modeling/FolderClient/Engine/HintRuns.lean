import FolderClient.Engine.TruncationRuns
import FolderClient.Library.Oracles

namespace FolderClient.Engine.HintRuns

open FolderClient.Net.Access
open FolderClient.Core.Namespace FolderClient.Core.Changes FolderClient.Core.Listing
open FolderClient.Core.Filename
open FolderClient.Library.Json FolderClient.Library.Texts FolderClient.Library.Oracles
open FolderClient.Library.Programs FolderClient.Library.Programs.Program
open FolderClient.Library.Programs.Contract FolderClient.Library.Pools
open FolderClient.Library.Transcripts
open FolderClient.Storage.Basic FolderClient.Storage.Tree FolderClient.Storage.Effects
open FolderClient.Storage.TreeRuns FolderClient.Storage.Listings
open FolderClient.Engine.Port FolderClient.Engine.Reconcile FolderClient.Engine.System
open FolderClient.Engine.Effects FolderClient.Engine.Orderly FolderClient.Engine.TruncationRuns

/-- The text of a hint for a truncation of its container. -/
def textOf (texts : HintTexts) (language : Language) (truncation : Option TruncationState) :
    HintKind → String
  | .readMe => hintTextReadMe texts language
  | .truncated => hintTextTruncated texts language ((truncation.map asTruncation).getD ⟨0, none⟩)

def truncationOf (s : Store) (container : Container) : Option TruncationState :=
  (s.containerStateOf container).bind (·.truncation)

section Deliveries

/-- Surroundings that answer as the store stands, and a sink that takes everything. -/
structure Answering (s : Store) (o : Oracle Request Answer) : Prop where
  containerState : ∀ n c, o n (.source (.containerState c)) = .ok (s.containerStateOf c)
  write : ∀ n offset data, o n (.source (.write offset data)) = .ok ()

/-- What is written into the sink, with where it goes. -/
def handed (asked : List (Exchange Request Answer)) : List (ℕ × List UInt8) :=
  asked.filterMap fun
    | ⟨.source (.write offset data), _⟩ => some (offset, data)
    | _ => none

/-- Whoever hydrates the entry now receives the text and nothing else. -/
def Delivers (setting : Setting) (s : Store) (identifier : EntryIdentifier) (text : String) :
    Prop :=
  ∀ o, Answering s o → ∀ request,
    o.result 0 (Hydration.hydrate setting identifier request).run =
      .ok ⟨(utf8 text).length, none⟩ ∧
    handed (o.asked 0 (Hydration.hydrate setting identifier request).run) = [(0, utf8 text)]

/-- The delivery of a hint once its text is known. -/
def deliver (text : String) : Hydration.Delivery Transfers.ContentReceipt := do
  Hydration.callSource (.progress 0 (utf8 text).length)
  match ← Hydration.callSource (.write 0 (utf8 text)) with
  | .error reason => Hydration.raise (.error (.sink reason))
  | .ok () => return ⟨(utf8 text).length, none⟩

theorem hint_eq (setting : Setting) (container : Container) (kind : HintKind) :
    Hydration.hint setting container kind =
      Hydration.hintText setting container kind >>= deliver := by
  unfold Hydration.hint deliver
  congr 1
  funext text
  refine congrArg (_ >>= ·) (funext fun _ ↦ ?_)
  refine congrArg (_ >>= ·) (funext fun written ↦ ?_)
  cases written <;> rfl

variable {s : Store} {o : Oracle Request Answer}

theorem result_deliver (ho : Answering s o) (n : ℕ) (text : String) :
    o.result n (deliver text).run = .ok ⟨(utf8 text).length, none⟩ := by
  have hwrite := ho.write (n + 1) 0 (utf8 text)
  change o.result _ ((match o (n + 1) (.source (.write 0 (utf8 text))) with
    | .error reason => Hydration.raise (.error (.sink reason))
    | .ok () => pure ⟨(utf8 text).length, none⟩ :
      Hydration.Delivery Transfers.ContentReceipt).run) = _
  rw [hwrite]
  rfl

theorem handed_deliver (ho : Answering s o) (n : ℕ) (text : String) :
    handed (o.asked n (deliver text).run) = [(0, utf8 text)] := by
  have hwrite := ho.write (n + 1) 0 (utf8 text)
  change (0, utf8 text) :: handed (o.asked _
    ((match o (n + 1) (.source (.write 0 (utf8 text))) with
    | .error reason => Hydration.raise (.error (.sink reason))
    | .ok () => pure ⟨(utf8 text).length, none⟩ :
      Hydration.Delivery Transfers.ContentReceipt).run)) = _
  rw [hwrite]
  rfl

theorem result_hintText (ho : Answering s o) (setting : Setting) (n : ℕ) (container : Container)
    (kind : HintKind) : o.result n (Hydration.hintText setting container kind).run =
      .ok (textOf setting.texts setting.language (truncationOf s container) kind) := by
  cases kind with
  | readMe => rfl
  | truncated =>
    have hstate := ho.containerState n container
    change o.result _ (((Hydration.raise
      ((o n (.source (.containerState container))).mapError fun e ↦
        .internal (setting.describe (.store e)))) >>= fun state ↦ pure _ :
      Hydration.Delivery String).run) = _
    rw [hstate]
    rw [truncationOf]
    cases s.containerStateOf container with
    | none => rfl
    | some state =>
      obtain ⟨etag, fetched, truncation⟩ := state
      cases truncation <;> rfl

theorem handed_hintText (ho : Answering s o) (setting : Setting) (n : ℕ) (container : Container)
    (kind : HintKind) : handed (o.asked n (Hydration.hintText setting container kind).run) = [] := by
  cases kind with
  | readMe => rfl
  | truncated =>
    have hstate := ho.containerState n container
    change handed (o.asked _ (((Hydration.raise
      ((o n (.source (.containerState container))).mapError fun e ↦
        .internal (setting.describe (.store e)))) >>= fun state ↦ pure _ :
      Hydration.Delivery String).run)) = _
    rw [hstate]
    rfl

theorem delivers_hint (setting : Setting) (s : Store) (container : Container) (kind : HintKind) :
    Delivers setting s (.hint container kind)
      (textOf setting.texts setting.language (truncationOf s container) kind) := by
  intro o ho request
  have htext := result_hintText ho setting 0 container kind
  rw [Hydration.hydrate, hint_eq]
  constructor
  · rw [Oracle.result_of_ok htext, result_deliver ho]
  · rw [Oracle.asked_of_ok htext, handed, List.filterMap_append]
    change handed _ ++ handed _ = _
    rw [handed_hintText ho, handed_deliver ho, List.nil_append]

end Deliveries

/-- A text written as a hint, with the version it was given. -/
structure Issued where
  identifier : EntryIdentifier
  version : String
  text : String
deriving DecidableEq

/-- The language the running process speaks, and the hints written so far. -/
structure Hints where
  language : Language
  issued : List Issued

/-- The hints among the entries of a listing. -/
def issuedBy (texts : HintTexts) (language : Language) (entries : List Entry)
    (truncation : Option TruncationState) : List Issued :=
  entries.filterMap fun e ↦
    match e.identifier, e.file with
    | .hint _ kind, some details =>
      some ⟨e.identifier, details.version, textOf texts language truncation kind⟩
    | _, _ => none

/-- With every listing stored its hints are written down. -/
def note (texts : HintTexts) (_ : ℕ) : (r : Request) → Answer r → World → Hints → Hints
  | .command (.reconcile (.replaceContainer _ entries state _)), .ok _, _, h =>
    { h with issued := h.issued ++ issuedBy texts h.language entries state.truncation }
  | _, _, _, h => h

/-- The entry announces the length of the text, and its version stands for this text alone. -/
structure StandsFor (issued : List Issued) (e : Entry) (text : String) : Prop where
  size : e.file.map (·.size) = some (UInt64.ofNat (utf8 text).length)
  written : ∃ details, e.file = some details ∧ ⟨e.identifier, details.version, text⟩ ∈ issued
  alone : ∀ i ∈ issued, i.identifier = e.identifier →
    some i.version = e.file.map (·.version) → i.text = text

section Systems

variable (readers : RowReaders) (setting : Setting)

/-- The workstation with a process that speaks a language. -/
def speaking (language : Language) : Setting :=
  reading readers { setting with language := language }

/-- Every stored hint is hydrated with the text it announces. -/
def Announced (o : World × Hints) : Prop :=
  ∀ container e place kind, e ∈ oldListing o.1.store container → e.identifier = .hint place kind →
    ∃ text, Delivers (speaking readers setting o.2.language) o.1.store e.identifier text ∧
      StandsFor o.2.issued e text

/-- A hint is written under a version only if every earlier one of that version has the same text,
and a listing is confirmed with a truncation of which its hint reads as before. -/
def Heeds (texts : HintTexts) (_ : ℕ) : Request → World × Hints → Prop
  | .command (.reconcile (.replaceContainer _ entries state _)), o =>
    ∀ new ∈ issuedBy texts o.2.language entries state.truncation, ∀ old ∈ o.2.issued,
      old.identifier = new.identifier → old.version = new.version → old.text = new.text
  | .command (.reconcile (.updateContainerState container state _)), o =>
    ∀ e ∈ oldListing o.1.store container, ∀ kind, e.identifier = .hint container kind →
      textOf texts o.2.language state.truncation kind =
        textOf texts o.2.language (truncationOf o.1.store container) kind
  | _, _ => True

/-- A process speaks a language only if every stored hint reads in it as before. -/
def Understands (texts : HintTexts) (o : World × Hints) (language : Language) : Prop :=
  ∀ container, ∀ e ∈ oldListing o.1.store container, ∀ kind, e.identifier = .hint container kind →
    textOf texts language (truncationOf o.1.store container) kind =
      textOf texts o.2.language (truncationOf o.1.store container) kind

/-- The runs of the engine; a restart may change the language. -/
def hintRules (fails : Prop) (heeds : ℕ → Request → World × Hints → Prop)
    (understands : World × Hints → Language → Prop) : Rules Request Answer (World × Hints) where
  start i p o := (rules (speaking readers setting o.2.language) fails {}).start i p o.1
  serve i r o a o' :=
    ((rules (speaking readers setting o.2.language) fails {}).serve i r o.1 a o'.1 ∧
      o'.2 = note setting.texts i r a o.1 o.2) ∧ heeds i r o
  finish i o o' := o'.1 = ended i o.1 ∧ o'.2 = o.2
  abort i o o' :=
    (rules (speaking readers setting o.2.language) fails {}).abort i o.1 o'.1 ∧ o'.2 = o.2
  restart o o' := (∃ fingerprint, o'.1 = o.1.restart fingerprint) ∧
    o'.2.issued = o.2.issued ∧ understands o o'.2.language
  outside o o' := o'.1 = stopped o.1 ∧ o'.2 = o.2

/-- A freshly set-up device, on which no hint has been written. -/
def FreshHints (o : World × Hints) : Prop := Fresh setting o.1 ∧ o.2.issued = []

def Spoken (fails : Prop) (heeds : ℕ → Request → World × Hints → Prop)
    (understands : World × Hints → Language → Prop) (c : Pool Request Answer (World × Hints)) :
    Prop :=
  (hintRules readers setting fails heeds understands).Run (FreshHints setting) c

/-- A listing is written with the entries built from its rows in the language of the process. -/
def InOrder (language : Language) : Request → Prop
  | .command (.reconcile (.replaceContainer .root entries state _)) =>
    entries = (speaking readers setting language).rootEntries ∧ state.truncation = none
  | .command (.reconcile (.replaceContainer container entries state _)) =>
    (∃ rows, entries =
      (speaking readers setting language).entries container rows state.truncation) ∧
      (holdsDocuments container = false → state.truncation = none)
  | _ => True

/-- Every stored hint announces the text that is read for it now. -/
def Reads (texts : HintTexts) (o : World × Hints) : Prop :=
  ∀ container kind e, e ∈ oldListing o.1.store container → e.identifier = .hint container kind →
    StandsFor o.2.issued e
      (textOf texts o.2.language (truncationOf o.1.store container) kind)

def discipline : Discipline Request Answer (World × Hints) where
  invariant o := WellFormed setting.unicode o.1.store ∧ Reads setting.texts o
  ok _ r o := InOrder readers setting o.2.language r
  rely _ o o' := o'.2.language = o.2.language
  ends _ _ := True

end Systems

section Entries

variable {readers : RowReaders} {setting : Setting} {language : Language}
  {container place : Container} {kind : HintKind} {e : Entry} {i : Issued}

theorem length_utf8 (text : String) : (utf8 text).length = utf8Length text.toList := by
  rw [utf8, utf8Length, List.length_flatMap]
  exact congrArg List.sum (List.map_congr_left fun c _ ↦ String.length_utf8EncodeChar c)

theorem exists_of_mem_zipWith {α β : Type} {f : α → β → Entry} {l : List α} {l' : List β}
    (h : e ∈ List.zipWith f l l') : ∃ a b, e = f a b := by
  induction l generalizing l' with
  | nil => cases h
  | cons a l ih =>
    cases l' with
    | nil => cases h
    | cons b l' =>
      obtain rfl | h := List.mem_cons.mp h
      · exact ⟨a, b, rfl⟩
      · exact ih h

theorem not_hint_of_mem_containerEntries {unicode : Unicode}
    {idKind : IdKind} {items : List (ContainerItem idKind)}
    {f : Identifier idKind → Container}
    (h : e ∈ containerEntries unicode items f) : e.identifier ≠ .hint place kind := by
  obtain ⟨item, name, rfl⟩ := exists_of_mem_zipWith h
  exact nofun

theorem hint_of_mem_documentsAt {location : Location} {rows : List Value}
    {truncation : Option TruncationState} (h : e ∈ documentsAt readers setting location rows truncation)
    (hi : e.identifier = .hint place kind) : place = .ofLocation location ∧
      e = hint setting.language (.ofLocation location) kind
        (textOf setting.texts setting.language truncation kind) := by
  cases truncation with
  | none =>
    obtain ⟨item, name, rfl⟩ := exists_of_mem_zipWith h
    cases hi
  | some t =>
    obtain h | h := List.mem_append.mp h
    · obtain ⟨item, name, rfl⟩ := exists_of_mem_zipWith h
      cases hi
    · obtain rfl := List.mem_singleton.mp h
      obtain ⟨rfl, rfl⟩ := EntryIdentifier.hint.inj hi
      exact ⟨rfl, rfl⟩

/-- The hint of a listing is that of its container, with the text for its truncation. -/
theorem hint_of_inOrder {entries : List Entry} {state : ContainerState}
    {tokens : List TokenResponse}
    (h : InOrder readers setting language
      (.command (.reconcile (.replaceContainer container entries state tokens))))
    (he : e ∈ entries) (hi : e.identifier = .hint place kind) : place = container ∧
      e = hint language container kind (textOf setting.texts language state.truncation kind) := by
  cases container with
  | root =>
    obtain ⟨rfl, -⟩ := h
    simp only [Setting.rootEntries, Core.Listing.rootEntries, List.mem_cons, List.not_mem_nil,
      or_false] at he
    obtain rfl | rfl | rfl | rfl := he
    · cases hi
    · cases hi
    · cases hi
    · obtain ⟨rfl, rfl⟩ := EntryIdentifier.hint.inj hi
      exact ⟨rfl, rfl⟩
  | basket b =>
    obtain ⟨⟨rows, rfl⟩, -⟩ := h
    cases he
  | case a c =>
    obtain ⟨⟨rows, rfl⟩, -⟩ := h
    exact hint_of_mem_documentsAt he hi
  | search s =>
    obtain ⟨⟨rows, rfl⟩, -⟩ := h
    exact hint_of_mem_documentsAt he hi
  | _ =>
    obtain ⟨⟨rows, rfl⟩, -⟩ := h
    exact absurd hi (not_hint_of_mem_containerEntries he)

theorem mem_issuedBy {texts : HintTexts} {entries : List Entry}
    {truncation : Option TruncationState} :
    i ∈ issuedBy texts language entries truncation ↔
      ∃ e ∈ entries, ∃ place kind details, e.identifier = .hint place kind ∧
        e.file = some details ∧
        i = ⟨e.identifier, details.version, textOf texts language truncation kind⟩ := by
  rw [issuedBy, List.mem_filterMap]
  constructor
  · rintro ⟨e, he, hi⟩
    split at hi
    · rename_i place kind details hid hfile
      exact ⟨e, he, place, kind, details, hid, hfile, (Option.some.inj hi).symm⟩
    · cases hi
  · rintro ⟨e, he, place, kind, details, hid, hfile, rfl⟩
    exact ⟨e, he, by simp [hid, hfile]⟩

end Entries

section Fetches

variable (readers : RowReaders) (setting : Setting) (language : Language)

/-- Whatever is answered, a process writes the listings in its own language. -/
def writing : Contract Request Answer (World × Hints) where
  serve _ _ _ _ := True
  rely _ _ := True
  ok r _ := InOrder readers setting language r

variable {readers setting language}

theorem inOrder_of_harmless {r : Request} (h : Harmless r) :
    InOrder readers setting language r := by
  unfold InOrder
  split
  · exact absurd h id
  · exact absurd h id
  · trivial

theorem fine_of_harmless {α : Type} {p : ReconcileActivity α} (h : p.Asks HarmlessReconcile) :
    (reconciles (writing readers setting language)).Fine p :=
  fine_of_asks h fun r _ hr ↦ inOrder_of_harmless (r := .command (.reconcile r)) hr

theorem fine_adopt {container : Container} {entries : List Entry} {etag : Option String}
    {truncation : Option TruncationState} {tokens : List TokenResponse}
    (h : ∀ time, InOrder readers setting language
      (.command (.reconcile (.replaceContainer container entries ⟨etag, time, truncation⟩ tokens)))) :
    (reconciles (writing readers setting language)).Fine
      (adopt container entries etag truncation tokens).run := by
  refine fine_fallible_bind (fine_lift (fine_of_harmless (asks_call trivial))) fun time ↦ ?_
  refine fine_fallible_bind (fine_store (fine_call fun _ ↦ h time)) fun journal ↦ ?_
  split
  · exact fine_done _
  · exact fine_lift (fine_of_harmless (asks_registerWithPlatform journal))

theorem fine_fetchAndAdopt (container : Container) :
    (reconciles (writing readers setting language)).Fine
      (fetchAndAdopt (speaking readers setting language) container).run := by
  refine fine_fallible_bind (fine_store (fine_call fun _ ↦ trivial)) fun before ↦ ?_
  split
  · exact fine_adopt fun _ ↦ ⟨rfl, rfl⟩
  · exact fine_adopt fun _ ↦ ⟨⟨[], rfl⟩, fun _ ↦ rfl⟩
  · rename_i hroot hbasket
    refine fine_fallible_bind (fine_lift (fine_of_harmless (asks_readPages ..))) fun x ↦ ?_
    obtain ⟨result, tokens⟩ := x
    have hadopt : (reconciles (writing readers setting language)).Fine
        (do let list ← raise (result.valueFrom (listingName container))
            adopt container (entriesOf (speaking readers setting language) container list) list.etag
              (if holdsDocuments container then list.truncation else none) tokens :
          ReconcileFallible Unit).run := by
      refine fine_fallible_bind (fine_raise _) fun list ↦ fine_adopt fun time ↦ ?_
      have hfalse : holdsDocuments container = false →
          (if holdsDocuments container then list.truncation else none) = none :=
        fun hh ↦ if_neg (by simp [hh])
      cases container with
      | root => exact absurd rfl hroot
      | _ => exact ⟨⟨list.rows, rfl⟩, hfalse⟩
    cases result with
    | unchanged etag => exact fine_of_harmless (asks_confirmed container etag tokens)
    | _ => exact hadopt

theorem orderly : Orderly (speaking readers setting language) (writing readers setting language) where
  harmless _ _ h _ := inOrder_of_harmless h
  ensureForToken := fine_of_all (fun _ _ ↦ trivial) _
  forceRefresh := fine_of_all (fun _ _ ↦ trivial) _
  signIn := fine_of_all (fun _ _ ↦ trivial) _
  signOut := fine_of_all (fun _ _ ↦ trivial) _
  clearAfterSignOut := fine_of_all (fun _ _ ↦ trivial) _
  root := fine_adopt fun _ ↦ ⟨rfl, rfl⟩
  fetchAndAdopt := fine_fetchAndAdopt

end Fetches

section Kept

variable {readers : RowReaders} {setting : Setting} {fails : Prop} {o o' : World × Hints}
  {container : Container} {kind : HintKind} {e : Entry}

theorem Reads.of_same {texts : HintTexts} (h : Reads texts o)
    (hs : SameNamespace o.1.store o'.1.store) (hl : o'.2 = o.2) : Reads texts o' := by
  intro container kind e he hi
  have hold : oldListing o'.1.store container = oldListing o.1.store container := by
    unfold oldListing Store.readChildren
    rw [hs.entry]
  rw [hold] at he
  rw [hl, truncationOf, Store.containerStateOf, hs.containerState]
  exact h container kind e he hi

/-- A hint stands among the children of its container. -/
theorem place_of_mem {s : Store} {place : Container} (ht : Rooted s)
    (he : e ∈ oldListing s container) (hi : e.identifier = .hint place kind) :
    place = container := by
  obtain ⟨r, hr, rfl, rfl⟩ := mem_readChildren.mp he
  have hplaced := ht.placed r hr
  rw [hi] at hplaced
  exact Option.some.inj hplaced

/-- With a container everything below it is dropped. -/
theorem not_dropped_of_mem {s s' : Store} {unicode : Unicode} {c : Container}
    {fresh gone : List Entry} {state : ContainerState} (ht : Rooted s)
    (hr : Replaced unicode s s' container fresh state gone) (hc : c ≠ container)
    (he : e ∈ oldListing s' c) : dropped s container fresh (.container c) = false := by
  rw [← Bool.not_eq_true]
  intro hd
  obtain ⟨r, hrow, rfl, rfl⟩ := mem_readChildren.mp he
  obtain ⟨hrow, -⟩ | hrow := (hr.rows r).mp hrow
  · obtain ⟨hrow, hkept⟩ := mem_prune_entry.mp hrow
    obtain ⟨m, hm, hw⟩ := List.any_eq_true.mp hd
    have hplaced := EntryIdentifier.ancestors_of_parent (ht.placed r hrow)
    have hgone : dropped s container fresh r.entry.identifier = true := by
      refine List.any_eq_true.mpr ⟨m, hm, within_iff.mpr (.inr ?_)⟩
      obtain hi | ⟨b, hb, hmem⟩ := within_iff.mp hw
      · exact ⟨r.parent, hi.symm, hplaced ▸ List.mem_cons_self⟩
      · rw [EntryIdentifier.ancestors_container] at hmem
        exact ⟨b, hb, hplaced ▸ List.mem_cons_of_mem _ hmem⟩
    rw [hkept] at hgone
    cases hgone
  · exact absurd (mem_freshRows hrow).1 hc

theorem StandsFor.append {issued new : List Issued} {text : String} (h : StandsFor issued e text)
    (hnew : ∀ i ∈ new, i.identifier ≠ e.identifier) : StandsFor (issued ++ new) e text where
  size := h.size
  written := by
    obtain ⟨details, hfile, hmem⟩ := h.written
    exact ⟨details, hfile, List.mem_append_left _ hmem⟩
  alone i hi hid hv := by
    obtain hi | hi := List.mem_append.mp hi
    · exact h.alone i hi hid hv
    · exact absurd hid (hnew i hi)

theorem reads_replaceContainer {entries gone : List Entry} {state : ContainerState}
    {tokens : List TokenResponse} (ht : Rooted o.1.store) (h : Reads setting.texts o)
    (hok : InOrder readers setting o.2.language
      (.command (.reconcile (.replaceContainer container entries state tokens))))
    (hheeds : ∀ new ∈ issuedBy setting.texts o.2.language entries state.truncation,
      ∀ old ∈ o.2.issued, old.identifier = new.identifier → old.version = new.version →
        old.text = new.text)
    (hl : o'.2 = { o.2 with
      issued := o.2.issued ++ issuedBy setting.texts o.2.language entries state.truncation })
    (hr : Replaced setting.unicode o.1.store o'.1.store container
      (withoutErased o.1.store entries state.fetched) state gone) : Reads setting.texts o' := by
  intro c kind e he hi
  have hstate := containerStateOf_of_replaced hr c
  by_cases hc : c = container
  · subst hc
    rw [if_pos rfl] at hstate
    have hmem : e ∈ entries := List.mem_of_mem_filter ((mem_replaced hr).mp he)
    obtain ⟨-, rfl⟩ := hint_of_inOrder hok hmem hi
    have hissued : ⟨_, _, textOf setting.texts o.2.language state.truncation kind⟩ ∈
        issuedBy setting.texts o.2.language entries state.truncation :=
      mem_issuedBy.mpr ⟨_, hmem, c, kind, _, rfl, rfl, rfl⟩
    have htext : truncationOf o'.1.store c = state.truncation := by
      rw [truncationOf, hstate]
      rfl
    rw [hl, htext]
    refine ⟨?_, ⟨_, rfl, List.mem_append_right _ hissued⟩, fun i hmem' hid hv ↦ ?_⟩
    · rw [length_utf8]
      rfl
    · obtain hold | hnew := List.mem_append.mp hmem'
      · exact hheeds _ hissued i hold hid (Option.some.inj hv)
      · obtain ⟨e, -, place, kind', details, hi', -, rfl⟩ := mem_issuedBy.mp hnew
        have hkind : EntryIdentifier.hint place kind' = .hint c kind := hi'.symm.trans hid
        obtain ⟨-, rfl⟩ := EntryIdentifier.hint.inj hkind
        rfl
  · have hd := not_dropped_of_mem ht hr hc he
    rw [if_neg hc, hd] at hstate
    have hold := h c kind e ((mem_replaced_of_ne ht hr hc hd).mp he) hi
    have htext : truncationOf o'.1.store c = truncationOf o.1.store c := by
      rw [truncationOf, hstate]
      rfl
    rw [hl, htext]
    refine hold.append fun i hnew hid ↦ ?_
    obtain ⟨e', hmem, place, kind', details, hi', -, rfl⟩ := mem_issuedBy.mp hnew
    obtain ⟨rfl, -⟩ := hint_of_inOrder hok hmem hi'
    exact hc (EntryIdentifier.hint.inj ((hi'.symm.trans hid).trans hi)).1.symm

theorem reads_updateContainerState {state : ContainerState} (h : Reads setting.texts o)
    (hheeds : ∀ e ∈ oldListing o.1.store container, ∀ kind, e.identifier = .hint container kind →
      textOf setting.texts o.2.language state.truncation kind =
        textOf setting.texts o.2.language (truncationOf o.1.store container) kind)
    (hl : o'.2 = o.2)
    (hu : o.1.store.updateContainerState container state = .ok o'.1.store) :
    Reads setting.texts o' := by
  obtain ⟨-, hs⟩ := updateContainerState_eq_ok hu
  intro c kind e he hi
  have hold : oldListing o'.1.store c = oldListing o.1.store c := by
    rw [hs]
    rfl
  rw [hold] at he
  have hbefore := h c kind e he hi
  rw [hl, truncationOf, hs, Store.containerStateOf, containerStateOf_upsert]
  split
  · rename_i hc
    subst hc
    rw [← hheeds e he kind hi] at hbefore
    exact hbefore
  · exact hbefore

theorem reads_removeDocumentEverywhere {texts : HintTexts} {document : DocumentIdentifier}
    {now : Timestamp} {out : List JournalEntry} (ht : Rooted o.1.store) (h : Reads texts o)
    (hl : o'.2 = o.2)
    (he : o.1.store.removeDocumentEverywhere document now = .ok (out, o'.1.store)) :
    Reads texts o' := by
  intro c kind e hmem hi
  have hstate : truncationOf o'.1.store c = truncationOf o.1.store c := by
    rw [(removeDocumentEverywhere_eq_ok he).2.1]
    rfl
  rw [hl, hstate]
  exact h c kind e ((mem_erased ht he).mp hmem).1 hi

theorem note_of_ne {texts : HintTexts} {i : ℕ} {r : Request} {a : Answer r} {w : World} {l : Hints}
    (h : ∀ container entries state tokens,
      r ≠ .command (.reconcile (.replaceContainer container entries state tokens))) :
    note texts i r a w l = l := by
  unfold note
  split
  · exact absurd rfl (h _ _ _ _)
  · rfl

theorem language_note {texts : HintTexts} {i : ℕ} {r : Request} {a : Answer r} {w : World}
    {l : Hints} : (note texts i r a w l).language = l.language := by
  unfold note
  split <;> rfl

theorem reads_serve {i : ℕ} {r : Request} {a : Answer r}
    (hw : WellFormed setting.unicode o.1.store) (h : Reads setting.texts o)
    (hok : InOrder readers setting o.2.language r) (hheeds : Heeds setting.texts i r o)
    (hserve : serve (speaking readers setting o.2.language) fails i r o.1 a o'.1)
    (hnote : o'.2 = note setting.texts i r a o.1 o.2) : Reads setting.texts o' := by
  by_cases hreplace : ∀ container entries state tokens,
      r ≠ .command (.reconcile (.replaceContainer container entries state tokens))
  · have hl : o'.2 = o.2 := hnote.trans (note_of_ne hreplace)
    obtain hs | hs := store_serve hserve
    · exact h.of_same (hs ▸ .refl _) hl
    · cases hop : operationOf r with
      | none => exact h.of_same (sameNamespace_of_operationOf hop hs) hl
      | some operation =>
        unfold operationOf at hop
        split at hop
        · exact absurd rfl (hreplace _ _ _ _)
        · exact reads_updateContainerState h hheeds hl hs
        · obtain ⟨out, hs⟩ := map_snd_eq_ok hs
          exact reads_removeDocumentEverywhere hw.rooted h hl hs
        · obtain ⟨new, hs⟩ := map_snd_eq_ok hs
          obtain ⟨-, hs⟩ := emptyNamespace_eq_ok hs
          intro container kind e he
          rw [hs] at he
          cases he
        · cases hop
  · push Not at hreplace
    obtain ⟨container, entries, state, tokens, rfl⟩ := hreplace
    simp only [Port.serve, serveCommand, serveReconcile] at hserve
    obtain ⟨hworld, e, rfl⟩ | ⟨out, s, hop, rfl, hworld⟩ := storedNoting_cases hserve
    · exact h.of_same (hworld ▸ .refl _) hnote
    · obtain ⟨gone, rfl, hr⟩ := replaceContainer_eq_ok hw.rooted hop
      have hstore : o'.1.store = s := by
        rw [hworld]
      rw [← hstore] at hr
      exact reads_replaceContainer hw.rooted h hok hheeds hnote hr

theorem kept_of_store (hi : (discipline readers setting).invariant o)
    (hs : o'.1.store = o.1.store) (hl : o'.2 = o.2) :
    (discipline readers setting).invariant o' ∧
      ∀ j, (discipline readers setting).rely j o o' := by
  refine ⟨⟨?_, hi.2.of_same (hs ▸ .refl _) hl⟩, fun j ↦ congrArg Hints.language hl⟩
  rw [hs]
  exact hi.1

theorem kept (readers : RowReaders) (setting : Setting) (fails : Prop) :
    (discipline readers setting).Kept
      (hintRules readers setting fails (Heeds setting.texts) (Understands setting.texts))
      (FreshHints setting) where
  refl _ _ := rfl
  trans _ _ _ _ h h' := h'.trans h
  enter o := by
    intro ⟨⟨n, limit, hw⟩, _⟩
    change WellFormed setting.unicode o.1.store ∧ Reads setting.texts o
    rw [Reads, hw]
    refine ⟨SameNamespace.wellFormed (wellFormed_setUp _ n limit) ⟨rfl, rfl, rfl, rfl⟩, ?_⟩
    intro container kind e he
    cases he
  start i p o hi := by
    intro ⟨job, hp, _⟩ o' hlanguage _
    have hfine : (writing readers setting o.2.language).Fine p := by
      rw [hp]
      exact fine_program orderly (fine_process orderly fun _ _ _ ↦ trivial)
        (fine_content orderly fun _ _ ↦ trivial) job
    have hsame : o'.2.language = o.2.language := hlanguage
    refine sound_within (I := fun s ↦ s.2.language = o.2.language) ?_ ?_ hsame (hfine o')
    · intro r s hs hok
      change InOrder readers setting s.2.language r
      rw [hs]
      exact hok
    · intro r s a s' s'' hs hserve hrely
      refine ⟨hrely.1.trans ?_, trivial, trivial⟩
      rw [hserve.1.2, language_note]
      exact hs
  serve i r o a o' hi hok hserve := by
    refine ⟨⟨wellFormed_serve hi.1 hserve.1.1.1, ?_⟩, fun j _ ↦ ?_⟩
    · exact reads_serve hi.1 hi.2 hok hserve.2 hserve.1.1.1 hserve.1.2
    · change o'.2.language = o.2.language
      rw [hserve.1.2, language_note]
  finish i o o' hi _ ho := by
    obtain ⟨hi, hr⟩ := kept_of_store hi (ho.1 ▸ (sameRecord_ended i o.1).store) ho.2
    exact ⟨hi, fun j _ ↦ hr j⟩
  abort i o o' hi ho := by
    obtain ⟨⟨-, hw⟩, hl⟩ := ho
    obtain ⟨hi, hr⟩ := kept_of_store hi (hw ▸ (sameRecord_aborted i o.1).store) hl
    exact ⟨hi, fun j _ ↦ hr j⟩
  restart o o' hi ho := by
    obtain ⟨⟨fingerprint, hw⟩, hissued, hunderstands⟩ := ho
    have hs : o'.1.store = o.1.store := by
      rw [hw]
      rfl
    refine ⟨hs ▸ hi.1, fun container kind e he hid ↦ ?_⟩
    rw [hs] at he
    rw [hs, hissued, hunderstands container e he kind hid]
    exact hi.2 container kind e he hid
  outside o o' hi ho := kept_of_store hi (ho.1 ▸ rfl) ho.2

/-- In every run in which no version is given to two texts, a listing is confirmed with what its
hint says, and no process reads the stored hints otherwise than the one before, every stored hint
is hydrated with the text it announces. -/
theorem announced_of_run {c : Pool Request Answer (World × Hints)}
    (h : Spoken readers setting fails (Heeds setting.texts) (Understands setting.texts) c) :
    Announced readers setting c.state := by
  obtain ⟨hw, hreads⟩ := (Discipline.run_kept (kept readers setting fails) h).1
  intro container e place kind he hi
  obtain rfl := place_of_mem hw.rooted he hi
  refine ⟨_, ?_, hreads place kind e he hi⟩
  rw [hi]
  exact delivers_hint (speaking readers setting c.state.2.language) c.state.1.store place kind

end Kept

theorem understands_self (texts : HintTexts) (o : World × Hints) :
    Understands texts o o.2.language :=
  fun _ _ _ _ _ ↦ rfl

section Played

open FolderClient.Engine.Play

section Fixed

variable {readers : RowReaders} {setting : Setting} {fails : Prop} {language : Language}
  {heeds : ℕ → Request → World × Hints → Prop} {understands : World × Hints → Language → Prop}

/-- The runs of a process that never changes its language. -/
def Fixed (readers : RowReaders) (setting : Setting) (fails : Prop) (language : Language)
    (heeds : ℕ → Request → World × Hints → Prop) (c : Pool Request Answer (World × Hints)) : Prop :=
  ((rules (speaking readers setting language) fails {}).beside (note setting.texts)
    (fun _ _ ↦ False) heeds).Run (fun o ↦ FreshHints setting o ∧ o.2.language = language) c

theorem spoken_of_fixed (hu : ∀ o, understands o o.2.language)
    {c : Pool Request Answer (World × Hints)} (h : Fixed readers setting fails language heeds c) :
    Spoken readers setting fails heeds understands c ∧ c.state.2.language = language := by
  induction h with
  | first hf => exact ⟨.first hf.1, hf.2⟩
  | step _ hstep ih =>
    obtain ⟨hrun, hl⟩ := ih
    subst hl
    cases hstep with
    | start hn hs => exact ⟨.step hrun (.start hn hs), rfl⟩
    | ask hr hs =>
      refine ⟨.step hrun (.ask hr hs), ?_⟩
      rw [hs.1.2, language_note]
    | finish hr hs => exact ⟨.step hrun (.finish hr hs), by rw [hs.2]⟩
    | abort hr hs => exact ⟨.step hrun (.abort hr hs), by rw [hs.2]⟩
    | restart hs =>
      refine ⟨.step hrun (.restart ⟨hs.1.2, by rw [hs.2], ?_⟩), by rw [hs.2]⟩
      rw [hs.2]
      exact hu _
    | outside ho =>
      obtain ⟨ho, hl⟩ | ⟨-, hfalse⟩ := ho
      · exact ⟨.step hrun (.outside ⟨ho.2, hl⟩), by rw [hl]⟩
      · cases hfalse

end Fixed

/-- A workstation whose hint states the number of hits. -/
def counting : Setting :=
  { Play.plain with texts := ⟨fun _ ↦ "read me", fun _ n ↦ toString n.toNat ++ " hits"⟩ }

/-- A fresh device that speaks German. -/
def freshHints : Pool Request Answer (World × Hints) where
  state := (.setUp counting.device 0 1000, ⟨.de, []⟩)
  running _ := none

theorem fixed_freshHints {heeds : ℕ → Request → World × Hints → Prop} :
    Fixed plainReaders counting False .de heeds freshHints :=
  .first ⟨⟨⟨0, 1000, rfl⟩, rfl⟩, rfl⟩

/-- Requests that heed the condition whatever stands stored. -/
def attentive (_ : ℕ) : Request → World × Hints → Bool
  | .command (.reconcile (.replaceContainer _ entries state _)), o =>
    (issuedBy counting.texts o.2.language entries state.truncation).all fun new ↦
      o.2.issued.all fun old ↦ old.identifier ≠ new.identifier || old.version ≠ new.version ||
        old.text = new.text
  | .command (.reconcile (.updateContainerState _ _ _)), _ => false
  | _, _ => true

theorem heeds_of_attentive {i : ℕ} {r : Request} {o : World × Hints}
    (h : attentive i r o = true) : Heeds counting.texts i r o := by
  unfold attentive at h
  split at h
  · intro new hnew old hold hid hv
    have hsame := List.all_eq_true.mp (List.all_eq_true.mp h new hnew) old hold
    simpa [hid, hv] using hsame
  · cases h
  · rename_i hreplace hupdate
    unfold Heeds
    split
    · exact (hreplace _ _ _ _ rfl).elim
    · exact (hupdate _ _ _ rfl).elim
    · trivial

/-- A search the server has capped is fetched, with as many hits as it may show. -/
def capped (names : List String) (limit : UInt64) (etag : String) : List Move :=
  whole 9 1 (.reconcile (.search ⟨1⟩))
    (welcoming (.success ⟨names.map .string, none, some etag, true, limit, none⟩))

def signedIn : List Move := whole 63 1 .signIn (welcoming (plainPage ["x"] "L"))

def hasHint (o : World × Hints) : Bool :=
  (oldListing o.1.store (.search ⟨1⟩)).any (·.identifier = .hint (.search ⟨1⟩) .truncated)

theorem announced_capped : ∃ c,
    Spoken plainReaders counting False (Heeds counting.texts) (Understands counting.texts) c ∧
    hasHint c.state = true ∧ Announced plainReaders counting c.state := by
  obtain ⟨c, hplay, hhint⟩ := (Option.any_eq_true
    (fun c : Pool Request Answer (World × Hints) ↦ hasHint c.state)
    (playBeside (speaking plainReaders counting .de) (note counting.texts) attentive freshHints
      (signedIn ++ capped ["ab", "abc"] 2 "E"))).mp (by decide +kernel)
  have hfixed : Fixed plainReaders counting False .de (Heeds counting.texts) c :=
    runs_of_playBeside (fun _ _ _ ↦ heeds_of_attentive) fixed_freshHints hplay
  obtain ⟨hrun, -⟩ := spoken_of_fixed (understands_self counting.texts) hfixed
  exact ⟨c, hrun, hhint, announced_of_run hrun⟩

/-- Two texts were written under the version of the hint. -/
def isAmbiguous (o : World × Hints) : Bool :=
  (oldListing o.1.store (.search ⟨1⟩)).any fun e ↦
    e.identifier = .hint (.search ⟨1⟩) .truncated &&
      o.2.issued.any fun i ↦ i.identifier = e.identifier && some i.version = e.file.map (·.version) &&
        o.2.issued.any fun j ↦ j.identifier = e.identifier &&
          some j.version = e.file.map (·.version) && i.text ≠ j.text

theorem not_announced_of_isAmbiguous {o : World × Hints} (h : isAmbiguous o = true) :
    ¬ Announced plainReaders counting o := by
  simp only [isAmbiguous, List.any_eq_true, Bool.and_eq_true, decide_eq_true_eq] at h
  obtain ⟨e, he, hi, i, hmem, ⟨hid, hv⟩, j, hmem', ⟨hid', hv'⟩, hne⟩ := h
  intro hannounced
  obtain ⟨text, -, hstands⟩ := hannounced _ e _ _ he hi
  exact hne ((hstands.alone i hmem hid hv).trans (hstands.alone j hmem' hid' hv').symm)

/-- The server raises its cap from two hits to three: the hint says so under its old version. -/
theorem ambiguous_capped : ∃ c,
    Spoken plainReaders counting False (fun _ _ _ ↦ True) (fun _ _ ↦ True) c ∧
    ¬ Announced plainReaders counting c.state := by
  obtain ⟨c, hplay, hambiguous⟩ := (Option.any_eq_true
    (fun c : Pool Request Answer (World × Hints) ↦ isAmbiguous c.state)
    (playBeside (speaking plainReaders counting .de) (note counting.texts) (fun _ _ _ ↦ true)
      freshHints (signedIn ++ capped ["ab", "abc"] 2 "E" ++
        capped ["ab", "abc", "abcd"] 3 "F"))).mp (by decide +kernel)
  have hfixed : Fixed plainReaders counting False .de (fun _ _ _ ↦ True) c :=
    runs_of_playBeside (fun _ _ _ _ ↦ trivial) fixed_freshHints hplay
  exact ⟨c, (spoken_of_fixed (fun _ ↦ trivial) hfixed).1, not_announced_of_isAmbiguous hambiguous⟩

end Played

end FolderClient.Engine.HintRuns
