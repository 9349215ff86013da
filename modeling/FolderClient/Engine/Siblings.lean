import FolderClient.Engine.TruncationRuns
import FolderClient.Storage.Replacement

namespace FolderClient.Engine.Siblings

open FolderClient.Core.Namespace FolderClient.Core.Changes FolderClient.Core.Listing
open FolderClient.Core.Filename FolderClient.Library.Json FolderClient.Library.Results
open FolderClient.Library.Tables
open FolderClient.Storage.Basic FolderClient.Storage.Namespace FolderClient.Storage.Tree
open FolderClient.Storage.Effects FolderClient.Storage.Replacement FolderClient.Storage.Collisions
open FolderClient.Engine.Port FolderClient.Engine.Reconcile FolderClient.Engine.TruncationRuns

section Unique

variable {d : DocumentIdentifier}

theorem unique_congr {seen seen' : List DocumentIdentifier} {items : List DocumentItem}
    (h : ∀ item ∈ items, item.document ∈ seen ↔ item.document ∈ seen') :
    unique seen items = unique seen' items := by
  induction items generalizing seen seen' with
  | nil => rfl
  | cons item items ih =>
    obtain ⟨hitem, hrest⟩ := List.forall_mem_cons.mp h
    by_cases hseen : item.document ∈ seen
    · rw [unique, unique, if_pos hseen, if_pos (hitem.mp hseen)]
      exact ih hrest
    · rw [unique, unique, if_neg hseen, if_neg (mt hitem.mpr hseen)]
      refine congrArg _ (ih fun other hother ↦ ?_)
      rw [List.mem_cons, List.mem_cons, hrest other hother]

/-- The items of the other documents. -/
def without (d : DocumentIdentifier) (items : List DocumentItem) : List DocumentItem :=
  items.filter fun item ↦ item.document ≠ d

theorem mem_without {items : List DocumentItem} {item : DocumentItem} :
    item ∈ without d items ↔ item ∈ items ∧ item.document ≠ d := by
  rw [without, List.mem_filter, decide_eq_true_iff]

theorem without_cons_of_eq {item : DocumentItem} {items : List DocumentItem}
    (h : item.document = d) : without d (item :: items) = without d items :=
  List.filter_cons_of_neg (by simp [h])

theorem without_cons_of_ne {item : DocumentItem} {items : List DocumentItem}
    (h : item.document ≠ d) : without d (item :: items) = item :: without d items :=
  List.filter_cons_of_pos (by simp [h])

/-- Leaving a document out before or after the duplicates are left out comes to the same. -/
theorem unique_without (seen : List DocumentIdentifier) (items : List DocumentItem) :
    unique seen (without d items) = without d (unique seen items) := by
  induction items generalizing seen with
  | nil => rfl
  | cons item items ih =>
    by_cases hd : item.document = d
    · rw [without_cons_of_eq hd]
      by_cases hseen : item.document ∈ seen
      · rw [unique, if_pos hseen]
        exact ih seen
      · have hsame : unique (item.document :: seen) (without d items) =
            unique seen (without d items) := by
          refine unique_congr fun other hother ↦ ?_
          rw [List.mem_cons, hd]
          exact or_iff_right (mem_without.mp hother).2
        rw [unique, if_neg hseen, without_cons_of_eq hd, ← ih, hsame]
    · rw [without_cons_of_ne hd]
      by_cases hseen : item.document ∈ seen
      · rw [unique, unique, if_pos hseen, if_pos hseen]
        exact ih seen
      · rw [unique, unique, if_neg hseen, if_neg hseen, without_cons_of_ne hd]
        exact congrArg _ (ih _)

/-- A listed document, and the others. -/
theorem perm_without {items : List DocumentItem} {gone : DocumentItem}
    (hgone : gone ∈ unique [] items) (hd : gone.document = d) :
    (unique [] items).Perm (gone :: unique [] (without d items)) := by
  have hnodup := (nodup_unique [] items).1
  obtain ⟨before, after, hsplit⟩ := List.append_of_mem hgone
  have hothers : without d (unique [] items) = before ++ after := by
    rw [hsplit, List.map_append, List.map_cons, List.nodup_append, List.nodup_cons] at hnodup
    obtain ⟨-, ⟨hafter, -⟩, hbefore⟩ := hnodup
    have hall : ∀ item ∈ before ++ after, item.document ≠ d := by
      intro item hitem
      rcases List.mem_append.mp hitem with hitem | hitem
      · rw [← hd]
        exact hbefore _ (List.mem_map_of_mem hitem) _ List.mem_cons_self
      · intro heq
        exact hafter (hd ▸ heq ▸ List.mem_map_of_mem hitem)
    have hkeeps : without d (before ++ after) = before ++ after :=
      List.filter_eq_self.mpr fun item hitem ↦ decide_eq_true (hall item hitem)
    have hgap : without d (before ++ gone :: after) = without d (before ++ after) := by
      rw [without, List.filter_append, ← without, ← without, without_cons_of_eq hd, without,
        without, ← List.filter_append]
      rfl
    rw [hsplit, hgap, hkeeps]
  rw [unique_without, hothers, hsplit]
  exact List.perm_middle

end Unique

section Names

variable {unicode : Unicode} {d : DocumentIdentifier} {items : List DocumentItem}
  {taken : List String}

/-- The name one item gets among its siblings. -/
def nameAmong (unicode : Unicode) (items : List DocumentItem) (taken : List String)
    (item : DocumentItem) : String :=
  if 1 < count unicode (rawDocuments items) taken (plain unicode item.rawName) then
    distinguished unicode item.rawName
  else plain unicode item.rawName

/-- The plain names of two items count as equal. -/
def SameName (unicode : Unicode) (item item' : DocumentItem) : Prop :=
  comparisonForm unicode (plain unicode item.rawName) =
    comparisonForm unicode (plain unicode item'.rawName)

theorem distinguished_ne_plain (r : RawName) : distinguished unicode r ≠ plain unicode r := by
  intro h
  have hlength := congrArg String.length h
  have hopen : " (".length = 2 := rfl
  obtain ⟨title, extension, short⟩ := r
  cases extension with
  | none =>
    simp only [distinguished, plain, assemble, String.length_append] at hlength
    omega
  | some e =>
    simp only [distinguished, plain, assemble, String.length_append] at hlength
    omega

theorem count_with {gone : DocumentItem} (hgone : gone ∈ unique [] items)
    (hd : gone.document = d) (n : String) :
    count unicode (rawDocuments items) taken n =
      count unicode (rawDocuments (without d items)) taken n +
        if comparisonForm unicode (plain unicode gone.rawName) = comparisonForm unicode n then 1
        else 0 := by
  have hperm := (perm_without hgone hd).map DocumentItem.rawName
  rw [rawDocuments, count_of_perm hperm, List.map_cons, count, List.map_cons, List.cons_append,
    List.map_cons, List.count_cons]
  simp only [beq_iff_eq]
  rfl

theorem count_pos {item : DocumentItem} (hitem : item ∈ unique [] items) :
    0 < count unicode (rawDocuments items) taken (plain unicode item.rawName) := by
  refine List.count_pos_iff.mpr (List.mem_map_of_mem (List.mem_append_left _ ?_))
  exact List.mem_map_of_mem (List.mem_map_of_mem hitem)

/-- The document leaves an item its name unless it is the only one to bear its name. -/
theorem nameAmong_eq_iff {gone item : DocumentItem} (hgone : gone ∈ unique [] items)
    (hd : gone.document = d) (hitem : item ∈ unique [] (without d items)) :
    nameAmong unicode items taken item = nameAmong unicode (without d items) taken item ↔
      (SameName unicode gone item →
        Collides unicode (rawDocuments (without d items)) taken item.rawName) := by
  have hpos := @count_pos unicode _ taken _ hitem
  rw [nameAmong, nameAmong, count_with hgone hd]
  by_cases hsame : SameName unicode gone item
  · rw [if_pos (c := comparisonForm _ _ = _) hsame, if_pos (by omega)]
    constructor
    · intro h _
      by_contra hnot
      rw [name_of_not_collides hnot] at h
      exact distinguished_ne_plain _ h
    · intro h
      rw [name_of_collides (h hsame)]
  · rw [if_neg (c := comparisonForm _ _ = _) hsame, Nat.add_zero]
    exact iff_of_true rfl fun h ↦ absurd h hsame

end Names

section Entries

variable {texts : HintTexts} {language : Language} {unicode : Unicode} {location : Location}
  {d : DocumentIdentifier} {items : List DocumentItem} {truncated truncated' : Option Truncation}
  {erased : List DocumentIdentifier}

/-- The hint of a truncated listing. -/
def hintsOf (texts : HintTexts) (language : Language) (location : Location)
    (truncated : Option Truncation) : List Entry :=
  (truncated.map fun truncation ↦ hint language (.ofLocation location) .truncated
    (hintTextTruncated texts language truncation)).toList

theorem documentEntries_eq : documentEntries texts language unicode location items truncated =
    (unique [] items).map (fun item ↦ item.entry location
      (nameAmong unicode items (Core.Listing.taken language truncated) item)) ++
      hintsOf texts language location truncated := by
  have hzip : ∀ taken : List String, List.zipWith
      (fun (item : DocumentItem) name ↦ item.entry location name) (unique [] items)
      (name unicode ((unique [] items).map DocumentItem.rawName) taken) =
      (unique [] items).map fun item ↦ item.entry location (nameAmong unicode items taken item) := by
    intro taken
    rw [name, List.map_map, List.zipWith_map_right, List.zipWith_self]
    rfl
  cases truncated with
  | none =>
    rw [documentEntries, hzip]
    exact (List.append_nil _).symm
  | some truncation =>
    rw [documentEntries, hzip]
    rfl

/-- What the tombstones leave of a list of entries. -/
def living (erased : List DocumentIdentifier) (entries : List Entry) : List Entry :=
  entries.filter fun e ↦ e.identifier.document?.all (· ∉ erased)

theorem living_documentEntries :
    living erased (documentEntries texts language unicode location items truncated) =
      ((unique [] items).filter (·.document ∉ erased)).map (fun item ↦ item.entry location
        (nameAmong unicode items (Core.Listing.taken language truncated) item)) ++
        hintsOf texts language location truncated := by
  have hhints : living erased (hintsOf texts language location truncated) =
      hintsOf texts language location truncated := by
    cases truncated <;> rfl
  rw [documentEntries_eq, living, List.filter_append, List.filter_map, ← living, hhints]
  rfl

/-- Of an erased document and its siblings the tombstones leave the siblings. -/
theorem filter_without (hd : d ∈ erased) :
    (unique [] (without d items)).filter (·.document ∉ erased) =
      (unique [] items).filter (·.document ∉ erased) := by
  rw [unique_without, without, List.filter_filter]
  refine List.filter_congr fun item _ ↦ ?_
  by_cases hitem : item.document ∈ erased
  · simp [hitem]
  · have hne : item.document ≠ d := fun heq ↦ hitem (heq ▸ hd)
    simp [hitem, hne]

/-- The names of the living siblings and the hint decide whether the same is left. -/
theorem living_eq_iff (hd : d ∈ erased) (hcut : truncated.isSome = truncated'.isSome) :
    living erased (documentEntries texts language unicode location items truncated) =
        living erased (documentEntries texts language unicode location (without d items)
          truncated') ↔
      (∀ item ∈ unique [] (without d items), item.document ∉ erased →
        nameAmong unicode items (Core.Listing.taken language truncated) item =
          nameAmong unicode (without d items) (Core.Listing.taken language truncated) item) ∧
        hintsOf texts language location truncated = hintsOf texts language location truncated' := by
  have htaken : Core.Listing.taken language truncated' = Core.Listing.taken language truncated := by
    rw [Core.Listing.taken, Core.Listing.taken, hcut]
  have hmem : ∀ item, item ∈ (unique [] items).filter (·.document ∉ erased) ↔
      item ∈ unique [] (without d items) ∧ item.document ∉ erased := by
    intro item
    rw [← filter_without hd, List.mem_filter, decide_eq_true_iff]
  rw [living_documentEntries, living_documentEntries, filter_without hd, htaken]
  constructor
  · intro h
    obtain ⟨hmap, hhints⟩ := List.append_inj h (by rw [List.length_map, List.length_map])
    refine ⟨fun item hitem hlives ↦ ?_, hhints⟩
    have hentry := List.map_inj_left.mp hmap item ((hmem item).mpr ⟨hitem, hlives⟩)
    exact congrArg Entry.name hentry
  · rintro ⟨hnames, hhints⟩
    rw [hhints]
    refine congrArg (· ++ _) (List.map_congr_left fun item hitem ↦ ?_)
    obtain ⟨hsibling, hlives⟩ := (hmem item).mp hitem
    rw [hnames item hsibling hlives]

end Entries

section Storing

variable {unicode : Unicode} {s s' : Store} {container : Container} {new new' : List Entry}
  {state state' : ContainerState} {out : List JournalEntry}

/-- The same entries are stored and the same changes are reported, or both are refused. -/
def Agree : Except StoreError (List JournalEntry × Store) →
    Except StoreError (List JournalEntry × Store) → Prop
  | .ok (out, s), .ok (out', s') => out = out' ∧ s.entry = s'.entry
  | .error _, .error _ => True
  | _, _ => False

theorem Agree.refl (r : Except StoreError (List JournalEntry × Store)) : Agree r r := by
  cases r with
  | error error => exact trivial
  | ok done => exact ⟨rfl, rfl⟩

/-- What is left to do once the listing is checked. -/
def written (s : Store) (container : Container) (fresh : List Entry) (state : ContainerState) :
    Except StoreError (List JournalEntry × Store) := do
  let (changes, s') := (Core.Changes.compare (oldListing s container) fresh).foldl
    Store.applyChange ([], s)
  let s' ← Store.writeFresh container
    ((s.readChildren container).map fun (entry, rank) ↦ (entry.identifier, rank))
    (changes.filterMap fun change ↦ change.after.map (·.identifier)) 0 fresh s'
  let s' ← s'.writeState container state
  s'.appendJournal changes state.fetched .complete

def adopted (s : Store) (container : Container) (fresh : List Entry) (state : ContainerState) :
    Except StoreError (List JournalEntry × Store) :=
  if ¬ s.containerKnown container then .error (.containerUnknown container)
  else written s container fresh state

theorem replaceContainer_eq (unicode : Unicode) (s : Store) (container : Container)
    (new : List Entry) (state : ContainerState) :
    s.replaceContainer unicode container new state =
      (checkList unicode container new >>= fun _ ↦
        adopted s container (living (s.effectiveErasure state.fetched) new) state) := rfl

/-- Only the fetch time of a state matters for the entries and the changes, as long as its
truncation can be stored. -/
def Storable (state : ContainerState) : Prop :=
  ∀ t, state.truncation = some t → t.displayUpperLimit.toNat < 2 ^ 63

theorem writeState_of_storable (h : Storable state) : s.writeState container state =
    .ok { s with containerState := s.containerState.upsert ⟨container, state⟩ } := by
  rw [Store.writeState]
  cases htruncation : state.truncation with
  | none => rfl
  | some t =>
    dsimp only
    rw [Store.fromU64, if_pos (h t htruncation)]
    rfl

theorem writeState_of_not_storable (h : ¬ Storable state) :
    ∃ error, s.writeState container state = .error error := by
  rw [Store.writeState]
  cases htruncation : state.truncation with
  | none =>
    refine absurd (fun t ht ↦ ?_) h
    rw [htruncation] at ht
    cases ht
  | some t =>
    dsimp only
    have hlarge : ¬ t.displayUpperLimit.toNat < 2 ^ 63 := by
      intro hlt
      refine h fun t' ht ↦ ?_
      rw [htruncation] at ht
      exact Option.some.inj ht ▸ hlt
    rw [Store.fromU64, if_neg hlarge]
    exact ⟨_, rfl⟩

/-- Putting changes into the journal has nothing to do with the states of the containers. -/
theorem appendJournal_agree (states states' : Table Container StateRow (·.container))
    (changes : List Change) (time : Timestamp) (form : JournalForm) :
    Agree ({ s with containerState := states }.appendJournal changes time form)
      ({ s with containerState := states' }.appendJournal changes time form) := by
  unfold Store.appendJournal
  split
  · exact ⟨rfl, rfl⟩
  · dsimp only
    cases Store.insertChanges time form changes s.journalState.last s.journal with
    | error error => exact trivial
    | ok inserted =>
      obtain ⟨out, last, journal⟩ := inserted
      dsimp only [bind, Except.bind]
      cases Store.truncateJournal journal ⟨last, s.journalState.lowerLimit⟩ s.limit with
      | error error => exact trivial
      | ok cut =>
        dsimp only [Store.writeJournalState, bind, Except.bind]
        cases Store.fromU64 last "sequence" with
        | error error => exact trivial
        | ok number =>
          dsimp only
          cases Store.fromU64 cut.1 "sequence" with
          | error error => exact trivial
          | ok bound => exact ⟨rfl, rfl⟩

theorem adopted_agree (s : Store) (container : Container) (fresh : List Entry)
    (hfetched : state.fetched = state'.fetched) (hstorable : Storable state ↔ Storable state') :
    Agree (adopted s container fresh state) (adopted s container fresh state') := by
  rw [adopted, adopted]
  split
  · exact trivial
  · rw [written, written, hfetched]
    obtain ⟨changes, s'⟩ := (Core.Changes.compare (oldListing s container) fresh).foldl
      Store.applyChange ([], s)
    dsimp only [bind, Except.bind, pure, Except.pure]
    cases Store.writeFresh container _ _ 0 fresh s' with
    | error error => exact trivial
    | ok done =>
      dsimp only
      by_cases hs : Storable state
      · rw [writeState_of_storable hs, writeState_of_storable (hstorable.mp hs)]
        exact appendJournal_agree _ _ _ _ _
      · obtain ⟨error, herror⟩ := @writeState_of_not_storable done container _ hs
        obtain ⟨error', herror'⟩ :=
          @writeState_of_not_storable done container _ (mt hstorable.mpr hs)
        rw [herror, herror']
        exact trivial

end Storing

section Reconciling

variable (readers : RowReaders) (setting : Setting)

/-- What reconciling the listing of a location does to a stored state. -/
def reconciled (s : Store) (location : Location) (list : Listing) (fetched : Timestamp) :
    Except StoreError (List JournalEntry × Store) :=
  s.replaceContainer setting.unicode (.ofLocation location)
    (entriesOf (reading readers setting) (.ofLocation location) list)
    ⟨list.etag, fetched, list.truncation⟩

/-- The same listing without a document. -/
def leaveOut (d : DocumentIdentifier) (list : Listing) : Listing :=
  { list with rows := list.rows.filter fun row ↦ (readers.document row).document ≠ d }

abbrev itemsOf (list : Listing) : List DocumentItem := list.rows.map readers.document

/-- The names taken in a listing, that of its hint. -/
abbrev takenIn (list : Listing) : List String :=
  Core.Listing.taken setting.language (list.truncation.map asTruncation)

abbrev hintsIn (location : Location) (list : Listing) : List Entry :=
  hintsOf setting.texts setting.language location (list.truncation.map asTruncation)

/-- Of the living siblings none bears the document's name, as names are compared, that would bear it
alone without it; the names of both listings are kept apart or those of neither; and where the limit
of pages cuts the listing short, its hint has the same size for both numbers of rows. -/
structure Unnoticed (s : Store) (location : Location) (list : Listing) (fetched : Timestamp)
    (d : DocumentIdentifier) : Prop where
  named : ∀ gone ∈ unique [] (itemsOf readers list), gone.document = d →
    ∀ item ∈ unique [] (without d (itemsOf readers list)),
      item.document ∉ s.effectiveErasure fetched → SameName setting.unicode gone item →
        Collides setting.unicode (rawDocuments (without d (itemsOf readers list)))
          (takenIn setting list) item.rawName
  checked : Distinguishable setting.unicode (rawDocuments (itemsOf readers list))
      (takenIn setting list) ↔
    Distinguishable setting.unicode (rawDocuments (without d (itemsOf readers list)))
      (takenIn setting list)
  hinted : hintsIn setting location list = hintsIn setting location (leaveOut readers d list)

variable {readers setting} {s : Store} {location : Location} {list : Listing}
  {fetched : Timestamp} {d : DocumentIdentifier}

theorem itemsOf_leaveOut : itemsOf readers (leaveOut readers d list) =
    without d (itemsOf readers list) := by
  rw [itemsOf, itemsOf, leaveOut, without, List.filter_map]
  rfl

theorem entriesOf_reading : entriesOf (reading readers setting) (.ofLocation location) list =
    documentEntries setting.texts setting.language setting.unicode location
      (itemsOf readers list) (list.truncation.map asTruncation) := by
  rw [entriesOf, holdsDocuments_ofLocation, if_pos rfl]
  exact listedEntries_ofLocation _ _ _

theorem isSome_truncation : (list.truncation.map asTruncation).isSome =
    ((leaveOut readers d list).truncation.map asTruncation).isSome := by
  rw [Option.isSome_map, Option.isSome_map, Listing.truncation, Listing.truncation, leaveOut]
  split
  · rfl
  · rfl

theorem takenIn_leaveOut : takenIn setting (leaveOut readers d list) = takenIn setting list := by
  rw [takenIn, takenIn, Core.Listing.taken, Core.Listing.taken, ← isSome_truncation]

/-- A number of rows is always small enough for the hint. -/
theorem storable_iff (hrows : list.rows.length < 2 ^ 63) :
    Storable ⟨list.etag, fetched, list.truncation⟩ ↔
      Storable ⟨(leaveOut readers d list).etag, fetched, (leaveOut readers d list).truncation⟩ := by
  have hless : (leaveOut readers d list).rows.length < 2 ^ 63 :=
    Nat.lt_of_le_of_lt (List.length_filter_le _ _) hrows
  have hsmall : ∀ n : ℕ, n < 2 ^ 63 → (UInt64.ofNat n).toNat < 2 ^ 63 := by
    intro n hn
    rw [UInt64.toNat_ofNat']
    exact Nat.lt_of_le_of_lt (Nat.mod_le _ _) hn
  rw [Storable, Storable, Listing.truncation, Listing.truncation]
  change (∀ t, (if list.totalCapped || list.limitReached then _ else _) = some t → _) ↔
    ∀ t, (if list.totalCapped || list.limitReached then _ else _) = some t → _
  by_cases hcut : (list.totalCapped || list.limitReached) = true
  · rw [if_pos hcut, if_pos hcut]
    by_cases hcapped : list.totalCapped = true
    · have hsame : (leaveOut readers d list).totalCapped = true := hcapped
      rw [if_pos hcapped, if_pos hsame]
      rfl
    · have hsame : ¬ (leaveOut readers d list).totalCapped = true := hcapped
      rw [if_neg hcapped, if_neg hsame]
      refine iff_of_true (fun t ht ↦ ?_) fun t ht ↦ ?_
      · obtain rfl := Option.some.inj ht
        exact hsmall _ hrows
      · obtain rfl := Option.some.inj ht
        exact hsmall _ hless
  · rw [if_neg hcut, if_neg hcut]

theorem names_iff (hlisted : ∃ row ∈ list.rows, (readers.document row).document = d)
    {erased : List DocumentIdentifier} {taken : List String} :
    (∀ item ∈ unique [] (without d (itemsOf readers list)), item.document ∉ erased →
      nameAmong setting.unicode (itemsOf readers list) taken item =
        nameAmong setting.unicode (without d (itemsOf readers list)) taken item) ↔
    ∀ gone ∈ unique [] (itemsOf readers list), gone.document = d →
      ∀ item ∈ unique [] (without d (itemsOf readers list)), item.document ∉ erased →
        SameName setting.unicode gone item →
          Collides setting.unicode (rawDocuments (without d (itemsOf readers list))) taken
            item.rawName := by
  obtain ⟨row, hrow, hd⟩ := hlisted
  have hin : d ∈ (unique [] (itemsOf readers list)).map DocumentItem.document := by
    refine (mem_unique [] _).mpr ⟨?_, List.not_mem_nil⟩
    exact List.mem_map.mpr ⟨_, List.mem_map_of_mem hrow, hd⟩
  obtain ⟨gone, hgone, hdoc⟩ := List.mem_map.mp hin
  constructor
  · intro h gone hgone hdoc item hitem hlives
    exact (nameAmong_eq_iff hgone hdoc hitem).mp (h item hitem hlives)
  · intro h item hitem hlives
    exact (nameAmong_eq_iff hgone hdoc hitem).mpr (h gone hgone hdoc item hitem hlives)

/-- The same is left of both listings exactly if no living sibling is named otherwise and the hint
is the same. -/
theorem living_iff (hlisted : ∃ row ∈ list.rows, (readers.document row).document = d)
    (herased : d ∈ s.effectiveErasure fetched) :
    living (s.effectiveErasure fetched)
        (entriesOf (reading readers setting) (.ofLocation location) list) =
      living (s.effectiveErasure fetched)
        (entriesOf (reading readers setting) (.ofLocation location) (leaveOut readers d list)) ↔
      (∀ gone ∈ unique [] (itemsOf readers list), gone.document = d →
        ∀ item ∈ unique [] (without d (itemsOf readers list)),
          item.document ∉ s.effectiveErasure fetched → SameName setting.unicode gone item →
            Collides setting.unicode (rawDocuments (without d (itemsOf readers list)))
              (takenIn setting list) item.rawName) ∧
        hintsIn setting location list = hintsIn setting location (leaveOut readers d list) := by
  rw [entriesOf_reading, entriesOf_reading, itemsOf_leaveOut,
    living_eq_iff herased isSome_truncation, names_iff hlisted]

theorem check_iff (list : Listing) : checkList setting.unicode (.ofLocation location)
      (entriesOf (reading readers setting) (.ofLocation location) list) = .ok () ↔
    Distinguishable setting.unicode (rawDocuments (itemsOf readers list))
      (takenIn setting list) := by
  rw [entriesOf_reading]
  exact checkList_documentEntries _ _ _ _ _

theorem reconciled_of_check (h : checkList setting.unicode (.ofLocation location)
      (entriesOf (reading readers setting) (.ofLocation location) list) = .ok ()) :
    reconciled readers setting s location list fetched =
      adopted s (.ofLocation location) (living (s.effectiveErasure fetched)
        (entriesOf (reading readers setting) (.ofLocation location) list))
        ⟨list.etag, fetched, list.truncation⟩ := by
  rw [reconciled, replaceContainer_eq, h]
  rfl

theorem reconciled_of_not_check (h : ¬ checkList setting.unicode (.ofLocation location)
      (entriesOf (reading readers setting) (.ofLocation location) list) = .ok ()) :
    ∃ error, reconciled readers setting s location list fetched = .error error := by
  rw [reconciled, replaceContainer_eq]
  cases hcheck : checkList setting.unicode (.ofLocation location)
      (entriesOf (reading readers setting) (.ofLocation location) list) with
  | error error => exact ⟨error, rfl⟩
  | ok _ => exact absurd hcheck h

theorem check_of_reconciled {out : List JournalEntry} {s' : Store}
    (h : reconciled readers setting s location list fetched = .ok (out, s')) :
    checkList setting.unicode (.ofLocation location)
      (entriesOf (reading readers setting) (.ofLocation location) list) = .ok () := by
  by_contra hcheck
  obtain ⟨error, herror⟩ := @reconciled_of_not_check _ _ s _ _ fetched hcheck
  cases herror.symm.trans h

/-- What stands at the location afterwards. -/
theorem listing_of_reconciled (hs : Rooted s) {out : List JournalEntry} {s' : Store}
    (h : reconciled readers setting s location list fetched = .ok (out, s')) :
    oldListing s' (.ofLocation location) = living (s.effectiveErasure fetched)
      (entriesOf (reading readers setting) (.ofLocation location) list) := by
  obtain ⟨gone, -, hreplaced⟩ := replaceContainer_eq_ok hs h
  exact oldListing_replaced hreplaced

theorem check_leaveOut : checkList setting.unicode (.ofLocation location)
      (entriesOf (reading readers setting) (.ofLocation location) (leaveOut readers d list)) =
        .ok () ↔
    Distinguishable setting.unicode (rawDocuments (without d (itemsOf readers list)))
      (takenIn setting list) := by
  rw [check_iff, itemsOf_leaveOut, takenIn_leaveOut]

theorem agree_of_unnoticed (hlisted : ∃ row ∈ list.rows, (readers.document row).document = d)
    (hrows : list.rows.length < 2 ^ 63) (herased : d ∈ s.effectiveErasure fetched)
    (h : Unnoticed readers setting s location list fetched d) :
    Agree (reconciled readers setting s location list fetched)
      (reconciled readers setting s location (leaveOut readers d list) fetched) := by
  by_cases hcheck : Distinguishable setting.unicode (rawDocuments (itemsOf readers list))
      (takenIn setting list)
  · have hsame := (living_iff hlisted herased).mpr ⟨h.named, h.hinted⟩
    rw [reconciled_of_check ((check_iff list).mpr hcheck),
      reconciled_of_check (check_leaveOut.mpr (h.checked.mp hcheck)), hsame]
    exact adopted_agree _ _ _ rfl (storable_iff hrows)
  · obtain ⟨error, herror⟩ :=
      @reconciled_of_not_check _ _ s _ _ fetched (mt (check_iff list).mp hcheck)
    obtain ⟨error', herror'⟩ := @reconciled_of_not_check _ _ s _ _ fetched
      (mt check_leaveOut.mp (mt h.checked.mpr hcheck))
    rw [herror, herror']
    exact trivial

theorem unnoticed_of_agree (hlisted : ∃ row ∈ list.rows, (readers.document row).document = d)
    (hs : Rooted s) (herased : d ∈ s.effectiveErasure fetched) {out : List JournalEntry}
    {s' : Store}
    (hok : reconciled readers setting s location (leaveOut readers d list) fetched = .ok (out, s'))
    (h : Agree (reconciled readers setting s location list fetched)
      (reconciled readers setting s location (leaveOut readers d list) fetched)) :
    Unnoticed readers setting s location list fetched d := by
  cases hwith : reconciled readers setting s location list fetched with
  | error error =>
    rw [hwith, hok] at h
    exact absurd h id
  | ok done =>
    obtain ⟨out', s''⟩ := done
    rw [hwith, hok] at h
    have hlisting : oldListing s'' (.ofLocation location) = oldListing s' (.ofLocation location) := by
      rw [oldListing, oldListing, Store.readChildren, Store.readChildren, h.2]
    rw [listing_of_reconciled hs hwith, listing_of_reconciled hs hok] at hlisting
    obtain ⟨hnamed, hhinted⟩ := (living_iff hlisted herased).mp hlisting
    refine ⟨hnamed, ?_, hhinted⟩
    exact iff_of_true ((check_iff list).mp (check_of_reconciled hwith))
      (check_leaveOut.mp (check_of_reconciled hok))

end Reconciling

/-- An erased document leaves no trace of itself in its siblings if it is unnoticed, and only then
wherever the listing without it is adopted. -/
theorem traceless (readers : RowReaders) (setting : Setting) (s : Store) (hs : Rooted s)
    (location : Location) (list : Listing) (hrows : list.rows.length < 2 ^ 63)
    (fetched : Timestamp) (d : DocumentIdentifier)
    (hlisted : ∃ row ∈ list.rows, (readers.document row).document = d)
    (herased : d ∈ s.effectiveErasure fetched) :
    (Unnoticed readers setting s location list fetched d →
      Agree (reconciled readers setting s location list fetched)
        (reconciled readers setting s location (leaveOut readers d list) fetched)) ∧
    ((∃ out s', reconciled readers setting s location (leaveOut readers d list) fetched =
        .ok (out, s')) →
      Agree (reconciled readers setting s location list fetched)
        (reconciled readers setting s location (leaveOut readers d list) fetched) →
      Unnoticed readers setting s location list fetched d) := by
  refine ⟨agree_of_unnoticed hlisted hrows herased, ?_⟩
  rintro ⟨out, s', hok⟩ h
  exact unnoticed_of_agree hlisted hs herased hok h

section Letters

open FolderClient.Storage.Runs FolderClient.Storage.TreeRuns FolderClient.Engine.Play

theorem lower_millis (millis : Fin 1000) : -2 ^ 63 ≤ (millis.val : ℤ) := by omega

theorem millis_upper (millis : Fin 1000) : (millis.val : ℤ) < 2 ^ 63 := by omega

def time (millis : Fin 1000) : Timestamp := ⟨millis.val, lower_millis millis, millis_upper millis⟩

/-- A search is known, and a document has been erased. -/
def stored : Store := run plain.unicode (Store.setUp 0 100)
  [.replaceContainer .root [folder (.container .searches) "Suchen"] ⟨none, .null, none⟩,
    .replaceContainer .searches [folder (.container (.search ⟨1⟩)) "Eingang"] ⟨none, .null, none⟩,
    .removeDocumentEverywhere ⟨6⟩ (time 5)]

theorem rooted_stored : Rooted stored :=
  (wellFormed_run (wellFormed_setUp plain.unicode 0 100) _).rooted

/-- Two documents of one name, of which the second has been erased. -/
def letters : Listing := { Listing.empty with rows := [.string "Brief", .string "Brief "] }

theorem erased_stored : (⟨6⟩ : DocumentIdentifier) ∈ stored.effectiveErasure .null := by
  decide +kernel

theorem traceless_letters :
    (Unnoticed plainReaders plain stored (.search ⟨1⟩) letters .null ⟨6⟩ →
      Agree (reconciled plainReaders plain stored (.search ⟨1⟩) letters .null)
        (reconciled plainReaders plain stored (.search ⟨1⟩)
          (leaveOut plainReaders ⟨6⟩ letters) .null)) ∧
    ((∃ out s', reconciled plainReaders plain stored (.search ⟨1⟩)
        (leaveOut plainReaders ⟨6⟩ letters) .null = .ok (out, s')) →
      Agree (reconciled plainReaders plain stored (.search ⟨1⟩) letters .null)
        (reconciled plainReaders plain stored (.search ⟨1⟩)
          (leaveOut plainReaders ⟨6⟩ letters) .null) →
      Unnoticed plainReaders plain stored (.search ⟨1⟩) letters .null ⟨6⟩) :=
  traceless plainReaders plain stored rooted_stored (.search ⟨1⟩) letters (by decide) .null ⟨6⟩
    ⟨_, List.mem_cons_of_mem _ List.mem_cons_self, rfl⟩ erased_stored

/-- The names that are stored. -/
def namesStored (r : Except StoreError (List JournalEntry × Store)) : Option (List String) :=
  r.toOption.map fun done ↦ done.2.entry.rows.map (·.entry.name)

theorem namesStored_of_agree {r r' : Except StoreError (List JournalEntry × Store)}
    (h : Agree r r') : namesStored r = namesStored r' := by
  cases r with
  | error error =>
    cases r' with
    | error error' => rfl
    | ok done => exact absurd h id
  | ok done =>
    cases r' with
    | error error' => exact absurd h id
    | ok done' =>
      have hentry : done.2.entry = done'.2.entry := h.2
      exact congrArg (fun entry ↦ some (entry.rows.map fun r : EntryRow ↦ r.entry.name)) hentry

/-- The letter that is left carries a short form because of the erased one. -/
theorem trace_left : ¬ ∀ (readers : RowReaders) (setting : Setting) (s : Store), Rooted s →
    ∀ (location : Location) (list : Listing), list.rows.length < 2 ^ 63 →
    ∀ (fetched : Timestamp) (d : DocumentIdentifier),
      (∃ row ∈ list.rows, (readers.document row).document = d) →
      d ∈ s.effectiveErasure fetched →
      Agree (reconciled readers setting s location list fetched)
        (reconciled readers setting s location (leaveOut readers d list) fetched) := by
  intro h
  have hnames := namesStored_of_agree (h plainReaders plain stored rooted_stored (.search ⟨1⟩)
    letters (by decide) .null ⟨6⟩ ⟨_, List.mem_cons_of_mem _ List.mem_cons_self, rfl⟩
    erased_stored)
  have hdiffer : namesStored (reconciled plainReaders plain stored (.search ⟨1⟩) letters .null) ≠
      namesStored (reconciled plainReaders plain stored (.search ⟨1⟩)
        (leaveOut plainReaders ⟨6⟩ letters) .null) := by
    decide +kernel
  exact hdiffer hnames

end Letters

end FolderClient.Engine.Siblings
