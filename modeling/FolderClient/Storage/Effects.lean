import FolderClient.Library.Results
import FolderClient.Storage.Tree

namespace FolderClient.Storage.Effects

open FolderClient.Core.Namespace FolderClient.Core.Changes FolderClient.Storage.Basic
open FolderClient.Library.Tables FolderClient.Library.Results FolderClient.Library.Ordered
open FolderClient.Storage.Namespace FolderClient.Storage.Tree

theorem fromU64_eq_ok {n m : ℕ} {field : String} (h : Store.fromU64 n field = .ok m) :
    m = n ∧ n < 2 ^ 63 := by
  unfold Store.fromU64 at h
  split at h
  · rename_i hn
    exact ⟨(Except.ok.inj h).symm, hn⟩
  · cases h

/-- What the check of a listing establishes. -/
structure Checked (unicode : Unicode) (container : Container) (l : List Entry) : Prop where
  parent : ∀ e ∈ l, e.identifier.parent = some container
  kind : ∀ e ∈ l, e.identifier.container?.isSome = e.isFolder
  identifiers : (l.map Entry.identifier).Nodup
  names : (l.map fun e ↦ comparisonForm unicode e.name).Nodup

theorem checked_from {unicode : Unicode} {container : Container} {identifiers : List EntryIdentifier}
    {names : List String} {l : List Entry}
    (h : checkListFrom unicode container identifiers names l = .ok ()) :
    Checked unicode container l ∧ (∀ e ∈ l, e.identifier ∉ identifiers) ∧
      ∀ e ∈ l, comparisonForm unicode e.name ∉ names := by
  induction l generalizing identifiers names with
  | nil => exact ⟨⟨by simp, by simp, .nil, .nil⟩, by simp, by simp⟩
  | cons e l ih =>
    simp only [checkListFrom, ite_error_eq_ok, Decidable.not_not] at h
    obtain ⟨hp, hk, -, hi, hf, h⟩ := h
    obtain ⟨hc, hids, hnames⟩ := ih h
    refine ⟨⟨?_, ?_, ?_, ?_⟩, ?_, ?_⟩
    · exact List.forall_mem_cons.mpr ⟨hp, hc.parent⟩
    · exact List.forall_mem_cons.mpr ⟨hk, hc.kind⟩
    · refine List.nodup_cons.mpr ⟨fun hm ↦ ?_, hc.identifiers⟩
      obtain ⟨e', he', heq⟩ := List.mem_map.mp hm
      exact hids e' he' (heq ▸ List.mem_cons_self)
    · refine List.nodup_cons.mpr ⟨fun hm ↦ ?_, hc.names⟩
      obtain ⟨e', he', heq⟩ := List.mem_map.mp hm
      exact hnames e' he' (heq ▸ List.mem_cons_self)
    · exact List.forall_mem_cons.mpr
        ⟨hi, fun e' he' hm ↦ hids e' he' (List.mem_cons_of_mem _ hm)⟩
    · exact List.forall_mem_cons.mpr
        ⟨hf, fun e' he' hm ↦ hnames e' he' (List.mem_cons_of_mem _ hm)⟩

theorem Checked.filter {unicode : Unicode} {container : Container} {l : List Entry}
    (h : Checked unicode container l) (p : Entry → Bool) :
    Checked unicode container (l.filter p) where
  parent e he := h.parent e (List.mem_filter.mp he).1
  kind e he := h.kind e (List.mem_filter.mp he).1
  identifiers := h.identifiers.sublist (List.filter_sublist.map _)
  names := h.names.sublist (List.filter_sublist.map _)

theorem writeEntry_eq_ok {s s' : Store} {container : Container} {rank : ℕ} {e : Entry}
    (h : s.writeEntry container rank e = .ok s') :
    s' = { s with entry := s.entry.upsert ⟨container, rank, e, e.identifier.document?⟩ } := by
  unfold Store.writeEntry at h
  cases hc : e.content with
  | folder =>
    simp only [hc, ite_throw_eq_ok, pure_eq_ok] at h
    exact h.2.2.symm
  | file d =>
    simp only [hc, bind_eq_ok, ite_throw_eq_ok, pure_eq_ok] at h
    obtain ⟨-, -, h⟩ := h
    exact h.2.2.symm

/-- The rows of a freshly written listing: its entries in order, numbered from `place`. -/
def freshRows (container : Container) : ℕ → List Entry → List EntryRow
  | _, [] => []
  | place, e :: rest =>
    ⟨container, place, e, e.identifier.document?⟩ :: freshRows container (place + 1) rest

theorem mem_freshRows {container : Container} {place : ℕ} {l : List Entry} {r : EntryRow}
    (h : r ∈ freshRows container place l) :
    r.parent = container ∧ r.entry ∈ l ∧ r.document = r.entry.identifier.document? := by
  induction l generalizing place with
  | nil => cases h
  | cons e l ih =>
    rcases List.mem_cons.mp h with rfl | h
    · exact ⟨rfl, List.mem_cons_self, rfl⟩
    · obtain ⟨hc, he, hd⟩ := ih h
      exact ⟨hc, List.mem_cons_of_mem _ he, hd⟩

theorem map_entry_freshRows (container : Container) (place : ℕ) (l : List Entry) :
    (freshRows container place l).map (·.entry) = l := by
  induction l generalizing place with
  | nil => rfl
  | cons e l ih => rw [freshRows, List.map_cons, ih]

/-- An entry that need not be written stands in the store as it is, under its known rank. -/
def Standing (s : Store) (container : Container) (oldRanks : List (EntryIdentifier × ℕ))
    (e : Entry) : Prop :=
  ∃ rank, (⟨container, rank, e, e.identifier.document?⟩ : EntryRow) ∈ s.entry.rows ∧
    oldRanks.lookup e.identifier = some rank

theorem writeFresh_spec {container : Container} {oldRanks : List (EntryIdentifier × ℕ)}
    {toWrite : List EntryIdentifier} {place : ℕ} {l : List Entry} {s s' : Store}
    (h : Store.writeFresh container oldRanks toWrite place l s = .ok s')
    (hn : (l.map Entry.identifier).Nodup)
    (hs : ∀ e ∈ l, e.identifier ∉ toWrite → Standing s container oldRanks e) :
    s' = { s with entry := s'.entry } ∧ ∀ r, r ∈ s'.entry.rows ↔
      (r ∈ s.entry.rows ∧ ∀ e ∈ l, e.identifier ≠ r.entry.identifier) ∨
        r ∈ freshRows container place l := by
  induction l generalizing place s with
  | nil =>
    obtain rfl := Except.ok.inj h
    simp [freshRows]
  | cons e l ih =>
    obtain ⟨hne, hn⟩ := List.nodup_cons.mp (by simpa only [List.map_cons] using hn)
    have hne' : ∀ e' ∈ l, e'.identifier ≠ e.identifier := fun e' he' heq ↦
      hne (List.mem_map.mpr ⟨e', he', heq⟩)
    -- Whatever the branch, the row of `e` is the fresh one and all others stay.
    have hstep : ∀ s₁ : Store, s₁ = { s with entry := s₁.entry } →
        (∀ r, r ∈ s₁.entry.rows ↔ (r ∈ s.entry.rows ∧ e.identifier ≠ r.entry.identifier) ∨
          r = ⟨container, place, e, e.identifier.document?⟩) →
        Store.writeFresh container oldRanks toWrite (place + 1) l s₁ = .ok s' →
        s' = { s with entry := s'.entry } ∧ ∀ r, r ∈ s'.entry.rows ↔
          (r ∈ s.entry.rows ∧ ∀ e' ∈ e :: l, e'.identifier ≠ r.entry.identifier) ∨
            r ∈ freshRows container place (e :: l) := by
      intro s₁ hs₁ hrows hw
      obtain ⟨hs', hr'⟩ := ih hw hn fun e' he' hnw ↦ by
        obtain ⟨rank, hr, hl⟩ := hs e' (List.mem_cons_of_mem _ he') hnw
        exact ⟨rank, (hrows _).mpr (.inl ⟨hr, (hne' e' he').symm⟩), hl⟩
      refine ⟨by rw [hs', hs₁], fun r ↦ ?_⟩
      rw [hr', hrows, freshRows, List.forall_mem_cons, List.mem_cons]
      constructor
      · rintro (⟨⟨hr, he⟩ | rfl, hl⟩ | hr)
        · exact .inl ⟨hr, he, hl⟩
        · exact .inr (.inl rfl)
        · exact .inr (.inr hr)
      · rintro (⟨hr, he, hl⟩ | rfl | hr)
        · exact .inl ⟨.inl ⟨hr, he⟩, hl⟩
        · exact .inl ⟨.inr rfl, hne'⟩
        · exact .inr hr
    unfold Store.writeFresh at h
    obtain ⟨rank, hrank, h⟩ := bind_eq_ok.mp h
    obtain ⟨rfl, -⟩ := fromU64_eq_ok hrank
    split at h
    · obtain ⟨s₁, hs₁, h⟩ := bind_eq_ok.mp h
      have he := writeEntry_eq_ok hs₁
      refine hstep s₁ (by rw [he]) (fun r ↦ ?_) h
      rw [he, Table.mem_upsert, or_comm]
      exact or_congr_left (and_congr_right fun _ ↦ ne_comm)
    · rename_i hnw
      obtain ⟨old, hold, hl⟩ := hs e List.mem_cons_self hnw
      split at h
      · refine hstep _ rfl (fun r ↦ ?_) h
        simp only [Store.setRank, Table.mem_update]
        constructor
        · rintro ⟨r', hr', rfl⟩
          split
          · rename_i hi
            refine .inr ?_
            rw [s.entry.eq_of_key_eq hr' hold hi]
          · rename_i hi
            exact .inl ⟨hr', Ne.symm hi⟩
        · rintro (⟨hr, hi⟩ | rfl)
          · exact ⟨r, hr, if_neg (Ne.symm hi)⟩
          · exact ⟨_, hold, if_pos rfl⟩
      · rename_i hrank'
        rw [Decidable.not_not, hl, Option.some.injEq] at hrank'
        subst hrank'
        refine hstep s rfl (fun r ↦ ?_) h
        constructor
        · intro hr
          by_cases hi : e.identifier = r.entry.identifier
          · exact .inr (s.entry.eq_of_key_eq hr hold hi.symm)
          · exact .inl ⟨hr, hi⟩
        · rintro (⟨hr, -⟩ | rfl)
          · exact hr
          · exact hold

theorem writeState_eq_ok {s s' : Store} {container : Container} {state : ContainerState}
    (h : s.writeState container state = .ok s') :
    s' = { s with containerState := s.containerState.upsert ⟨container, state⟩ } := by
  unfold Store.writeState at h
  split at h
  · obtain ⟨-, -, h⟩ := bind_eq_ok.mp h
    exact (Except.ok.inj h).symm
  · exact (Except.ok.inj h).symm

/-- What a stored form keeps of a change. -/
def stored (form : JournalForm) (change : Change) : Change :=
  match form with
  | .complete => change
  | .redacted => redactedRemoval change.identifier

/-- The journal rows of consecutive changes after the number `last`. -/
def rowsAfter (time : Timestamp) (form : JournalForm) : ℕ → List Change → List JournalRow
  | _, [] => []
  | last, c :: rest =>
    ⟨last + 1, stored form c, time, c.identifier.document?⟩ :: rowsAfter time form (last + 1) rest

/-- The changes with their consecutive numbers after `last`. -/
def numbered : ℕ → List Change → List JournalEntry
  | _, [] => []
  | last, c :: rest => ⟨last + 1, c⟩ :: numbered (last + 1) rest

theorem insertChanges_eq_ok {time : Timestamp} {form : JournalForm} {changes : List Change}
    {last last' : ℕ} {journal journal' : Table ℕ JournalRow (·.sequence)}
    {out : List JournalEntry}
    (h : Store.insertChanges time form changes last journal = .ok (out, last', journal')) :
    out = numbered last changes ∧ last' = last + changes.length ∧
      journal'.rows = journal.rows ++ rowsAfter time form last changes := by
  induction changes generalizing last journal out with
  | nil =>
    obtain ⟨rfl, rfl, rfl⟩ := by simpa [Store.insertChanges] using h
    simp [numbered, rowsAfter]
  | cons c changes ih =>
    unfold Store.insertChanges at h
    obtain ⟨sequence, hnext, h⟩ := bind_eq_ok.mp h
    obtain ⟨number, hnumber, h⟩ := bind_eq_ok.mp h
    obtain ⟨rfl, -⟩ := fromU64_eq_ok hnumber
    obtain rfl : number = last + 1 := by
      unfold next at hnext
      split at hnext
      · exact (Except.ok.inj hnext).symm
      · cases hnext
    split at h
    · cases h
    · rename_i j hj
      obtain ⟨⟨out', last'', journal''⟩, hrest, h⟩ := bind_eq_ok.mp h
      obtain ⟨rfl, rfl, rfl⟩ := by simpa using h
      obtain ⟨hout, hlast, hrows⟩ := ih hrest
      refine ⟨by rw [numbered, hout], by rw [hlast, List.length_cons]; omega, ?_⟩
      rw [hrows, Table.insert?_rows hj, rowsAfter, List.append_assoc]
      cases form <;> rfl

theorem writeJournalState_eq_ok {s s' : Store} {state : JournalState}
    (h : s.writeJournalState state = .ok s') :
    s' = { s with journalState := state } ∧ state.last < 2 ^ 63 := by
  unfold Store.writeJournalState at h
  obtain ⟨last, hlast, h⟩ := bind_eq_ok.mp h
  obtain ⟨lower, hlower, h⟩ := bind_eq_ok.mp h
  obtain ⟨rfl, hbound⟩ := fromU64_eq_ok hlast
  obtain ⟨rfl, -⟩ := fromU64_eq_ok hlower
  exact ⟨(Except.ok.inj h).symm, hbound⟩

/-- The effect of appending changes to the journal: the numbers run on, and beyond the limit the
oldest rows go. -/
structure Appended (s s' : Store) (changes : List Change) (time : Timestamp)
    (form : JournalForm) : Prop where
  last : s'.journalState.last = s.journalState.last + changes.length
  bounded : changes = [] ∨ s'.journalState.last < 2 ^ 63
  rows : (s'.journalState.lowerLimit = s.journalState.lowerLimit ∧
      s'.journal.rows = s.journal.rows ++ rowsAfter time form s.journalState.last changes) ∨
    (s.journalState.lowerLimit < s'.journalState.lowerLimit ∧
      s'.journalState.lowerLimit ≤ s'.journalState.last ∧
      s'.journal.rows =
        (s.journal.rows ++ rowsAfter time form s.journalState.last changes).filter
          fun r ↦ s'.journalState.lowerLimit < r.sequence)
  limited : changes = [] ∨ s'.journalState.last - s'.journalState.lowerLimit ≤ s.limit

theorem appendJournal_eq_ok {s s' : Store} {changes : List Change} {time : Timestamp}
    {form : JournalForm} {out : List JournalEntry}
    (h : s.appendJournal changes time form = .ok (out, s')) :
    out = numbered s.journalState.last changes ∧
      s' = { s with journal := s'.journal, journalState := s'.journalState } ∧
      Appended s s' changes time form := by
  unfold Store.appendJournal at h
  split at h
  · rename_i he
    obtain rfl := List.isEmpty_iff.mp he
    obtain ⟨rfl, rfl⟩ := by simpa using h
    exact ⟨rfl, rfl, rfl, .inl rfl, .inl ⟨rfl, by simp [rowsAfter]⟩, .inl rfl⟩
  · obtain ⟨⟨out', last, journal⟩, hins, h⟩ := bind_eq_ok.mp h
    obtain ⟨⟨lower, journal'⟩, htrim, h⟩ := bind_eq_ok.mp h
    obtain ⟨s'', hwrite, h⟩ := bind_eq_ok.mp h
    obtain ⟨rfl, rfl⟩ := by simpa using h
    obtain ⟨hout, hlast, hrows⟩ := insertChanges_eq_ok hins
    obtain ⟨rfl, hbound⟩ := writeJournalState_eq_ok hwrite
    have htrim : (lower = s.journalState.lowerLimit ∧ journal' = journal ∧
          last - s.journalState.lowerLimit ≤ s.limit) ∨
        (s.limit < last - s.journalState.lowerLimit ∧ lower = last - s.limit ∧
          journal' = journal.deleteWhere (·.sequence ≤ lower)) := by
      unfold Store.truncateJournal at htrim
      split at htrim
      · rename_i hlimit
        obtain ⟨rfl, rfl⟩ := by simpa using htrim
        exact .inl ⟨rfl, rfl, hlimit⟩
      · rename_i hlimit
        obtain ⟨bound, hbound, htrim⟩ := bind_eq_ok.mp htrim
        obtain ⟨rfl, -⟩ := fromU64_eq_ok hbound
        obtain ⟨rfl, rfl⟩ := by simpa using htrim
        exact .inr ⟨Nat.lt_of_not_le hlimit, rfl, rfl⟩
    refine ⟨hout, rfl, hlast, .inr hbound, ?_, .inr ?_⟩
    · rcases htrim with ⟨rfl, rfl, -⟩ | ⟨hlimit, rfl, rfl⟩
      · exact .inl ⟨rfl, hrows⟩
      · refine .inr ⟨by dsimp only; omega, Nat.sub_le _ _, ?_⟩
        simp only [Table.deleteWhere, hrows]
        refine List.filter_congr fun r _ ↦ ?_
        simp only [← decide_not, Nat.not_le]
    · dsimp only
      rcases htrim with ⟨rfl, -, hlimit⟩ | ⟨hlimit, rfl, -⟩
      · exact hlimit
      · omega

/-- The listing without the documents under a tombstone. -/
def withoutErased (s : Store) (new : List Entry) (fetched : Timestamp) : List Entry :=
  new.filter fun e ↦ e.identifier.document?.all (· ∉ s.effectiveErasure fetched)

def oldListing (s : Store) (container : Container) : List Entry :=
  (s.readChildren container).map Prod.fst

/-- The subtrees of the children that a fresh listing no longer has. -/
def dropped (s : Store) (container : Container) (fresh : List Entry) (j : EntryIdentifier) : Bool :=
  (missing (byIdentifier (oldListing s container)) (byIdentifier fresh)).any
    fun e ↦ within e.identifier j

/-- The changes that put an entry: the different ones and the new ones. -/
def puts (s : Store) (container : Container) (fresh : List Entry) : List Change :=
  (differing (byIdentifier (oldListing s container)) (byIdentifier fresh)).map
      (fun p ↦ Change.changed p.1 p.2) ++
    (missing (byIdentifier fresh) (byIdentifier (oldListing s container))).map Change.new

/-- The effect of replacing a listing. -/
structure Replaced (unicode : Unicode) (s s' : Store) (container : Container)
    (fresh : List Entry) (state : ContainerState) (gone : List Entry) : Prop where
  checked : Checked unicode container fresh
  known : s.containerKnown container = true
  mem_gone : ∀ e, e ∈ gone ↔
    ∃ r ∈ s.entry.rows, dropped s container fresh r.entry.identifier = true ∧ r.entry = e
  rows : ∀ r, r ∈ s'.entry.rows ↔
    (r ∈ (prune (dropped s container fresh) s).entry.rows ∧
      ∀ e ∈ fresh, e.identifier ≠ r.entry.identifier) ∨ r ∈ freshRows container 0 fresh
  states : s'.containerState =
    (prune (dropped s container fresh) s).containerState.upsert ⟨container, state⟩
  frame : s' = { s with
    entry := s'.entry, containerState := s'.containerState,
    journal := s'.journal, journalState := s'.journalState }
  appended : Appended s s' (gone.map .removed ++ puts s container fresh) state.fetched .complete

theorem applyChange_removed (a : List Change × Store) (e : Entry) :
    Store.applyChange a (.removed e) =
      (a.1 ++ (removeWith Store.treeDepth a.2 e).1, (removeWith Store.treeDepth a.2 e).2) := by
  cases h : e.identifier.container? with
  | none => simp [Store.applyChange, removeWith, h]
  | some b => simp [Store.applyChange, removeWith, h]

theorem foldl_applyChange_puts (changes : List Change) (a : List Change × Store)
    (h : ∀ c ∈ changes, c.after.isSome) :
    changes.foldl Store.applyChange a = (a.1 ++ changes, a.2) := by
  induction changes generalizing a with
  | nil => simp
  | cons c changes ih =>
    obtain ⟨hc, h⟩ := List.forall_mem_cons.mp h
    have happ : Store.applyChange a c = (a.1 ++ [c], a.2) := by
      cases c with
      | removed e => cases hc
      | new e => rfl
      | changed e e' => rfl
    rw [List.foldl_cons, happ, ih _ h, List.append_assoc, List.singleton_append]

theorem identifiers_oldListing (s : Store) (container : Container) :
    ((oldListing s container).map Entry.identifier).Nodup :=
  (siblings_readChildren s container).1

theorem after_puts {s : Store} {container : Container} {fresh : List Entry}
    (hf : (fresh.map Entry.identifier).Nodup) {c : Change} (h : c ∈ puts s container fresh) :
    ∃ e ∈ fresh, c.after = some e ∧ e ∉ oldListing s container := by
  have ho := identifiers_oldListing s container
  rcases List.mem_append.mp h with h | h
  · obtain ⟨p, hp, rfl⟩ := List.mem_map.mp h
    obtain ⟨h₁, h₂, hi, hne⟩ := (mem_differing ho hf).mp hp
    refine ⟨p.2, h₂, rfl, fun hm ↦ hne ?_⟩
    exact List.inj_on_of_nodup_map ho hm h₁ hi
  · obtain ⟨e, he, rfl⟩ := List.mem_map.mp h
    obtain ⟨hm, hne⟩ := (mem_missing hf ho).mp he
    exact ⟨e, hm, rfl, fun hm' ↦ hne e hm' rfl⟩

theorem exists_put {s : Store} {container : Container} {fresh : List Entry}
    (hf : (fresh.map Entry.identifier).Nodup) {e : Entry} (he : e ∈ fresh)
    (hne : e ∉ oldListing s container) : ∃ c ∈ puts s container fresh, c.after = some e := by
  have ho := identifiers_oldListing s container
  by_cases hex : ∃ e' ∈ oldListing s container, e.identifier = e'.identifier
  · obtain ⟨e', he', hi⟩ := hex
    refine ⟨.changed e' e, List.mem_append_left _ (List.mem_map.mpr ⟨(e', e), ?_, rfl⟩), rfl⟩
    refine (mem_differing ho hf).mpr ⟨he', he, hi, fun h ↦ hne ?_⟩
    exact (show e = e' from h) ▸ he'
  · refine ⟨.new e, List.mem_append_right _ (List.mem_map.mpr ⟨e, ?_, rfl⟩), rfl⟩
    exact (mem_missing hf ho).mpr ⟨he, fun e' he' hi ↦ hex ⟨e', he', hi.symm⟩⟩

theorem identifiers_puts {s : Store} {container : Container} {fresh : List Entry}
    (hf : (fresh.map Entry.identifier).Nodup) :
    ((puts s container fresh).map Change.identifier).Nodup := by
  have ho := identifiers_oldListing s container
  have hdiff : ((differing (byIdentifier (oldListing s container)) (byIdentifier fresh)).map
      fun p ↦ Change.changed p.1 p.2).map Change.identifier =
        (differing (byIdentifier (oldListing s container)) (byIdentifier fresh)).map
          fun p ↦ p.1.identifier := by
    rw [List.map_map]
    exact List.map_congr_left fun p hp ↦ ((mem_differing ho hf).mp hp).2.2.1
  rw [puts, List.map_append, hdiff, List.map_map, List.nodup_append]
  refine ⟨nodup_differing ho _, nodup_missing hf _, ?_⟩
  intro i hi j hj
  obtain ⟨p, hp, rfl⟩ := List.mem_map.mp hi
  obtain ⟨e, he, rfl⟩ := List.mem_map.mp hj
  exact ((mem_missing hf ho).mp he).2 _ ((mem_differing ho hf).mp hp).1

/-- A child the fresh listing keeps is not in a dropped subtree. -/
theorem not_dropped_of_parent {s : Store} (ht : Rooted s) {container : Container}
    {fresh : List Entry} (hf : (fresh.map Entry.identifier).Nodup) {j : EntryIdentifier}
    (hj : j.parent = some container) (hm : ∃ e ∈ fresh, e.identifier = j) :
    dropped s container fresh j = false := by
  rw [← Bool.not_eq_true, dropped, List.any_eq_true]
  rintro ⟨e, he, hw⟩
  obtain ⟨ho, hne⟩ := (mem_missing (identifiers_oldListing s container) hf).mp he
  obtain ⟨r, hr, rfl, rfl⟩ := mem_readChildren.mp ho
  by_cases hi : j = r.entry.identifier
  · obtain ⟨e', he', hi'⟩ := hm
    exact hne e' he' (hi'.trans hi)
  · rw [not_within_sibling (ht.placed r hr) hj hi] at hw
    cases hw

theorem not_dropped_container {s : Store} (ht : Rooted s) {container : Container}
    {fresh : List Entry} (hf : (fresh.map Entry.identifier).Nodup) :
    dropped s container fresh (.container container) = false := by
  rw [← Bool.not_eq_true, dropped, List.any_eq_true]
  rintro ⟨e, he, hw⟩
  obtain ⟨ho, -⟩ := (mem_missing (identifiers_oldListing s container) hf).mp he
  obtain ⟨r, hr, rfl, rfl⟩ := mem_readChildren.mp ho
  have hp := ht.placed r hr
  rcases within_iff.mp hw with hi | ⟨b, hb, hm⟩
  · rw [← hi] at hp
    have h := Container.depth_of_parent hp
    omega
  · rw [hb] at hp
    rw [EntryIdentifier.ancestors_container] at hm
    have h := Container.depth_of_parent hp
    have h' := Container.depth_lt_of_mem_ancestors hm
    omega

theorem removes_missing {s : Store} (ht : Rooted s) (container : Container) {fresh : List Entry}
    (hf : (fresh.map Entry.identifier).Nodup) :
    Removes (dropped s container fresh) s []
      (((missing (byIdentifier (oldListing s container)) (byIdentifier fresh)).map
        Change.removed).foldl Store.applyChange ([], s)) := by
  have ho := identifiers_oldListing s container
  simp only [List.foldl_map, applyChange_removed]
  refine removes_fold (c := container)
    (fun s e ht ⟨r, hr, he, _⟩ ↦ removes_subtree ht ⟨r, hr, he⟩) _ s ht ⟨?_, ?_⟩ []
  · exact nodup_missing ho _
  · intro e he
    exact mem_readChildren.mp ((mem_missing ho hf).mp he).1

/-- A fresh entry that needs no writing stands unchanged in the store. -/
theorem standing_of_not_put {s : Store} (ht : Rooted s) {container : Container}
    {fresh : List Entry} (hc : ∀ e ∈ fresh, e.identifier.parent = some container)
    (hf : (fresh.map Entry.identifier).Nodup) {e : Entry} (he : e ∈ fresh)
    (hw : e.identifier ∉ (puts s container fresh).filterMap
      fun c ↦ c.after.map (·.identifier)) :
    Standing (prune (dropped s container fresh) s) container
      ((s.readChildren container).map fun p ↦ (p.1.identifier, p.2)) e := by
  have ho : e ∈ oldListing s container := by
    by_contra hne
    obtain ⟨c, hput, hafter⟩ := exists_put hf he hne
    exact hw (List.mem_filterMap.mpr ⟨c, hput, by rw [hafter]; rfl⟩)
  obtain ⟨p, hp, rfl⟩ := List.mem_map.mp ho
  obtain ⟨r, hr, rfl⟩ := List.mem_map.mp hp
  obtain ⟨hr, hpar⟩ := (Table.mem_select _).mp ((List.mem_insertionSort rowLe).mp hr)
  have hpar : r.parent = container := by simpa using hpar
  refine ⟨r.rank, mem_prune_entry.mpr ⟨?_, ?_⟩, ?_⟩
  · rw [← ht.document r hr, ← hpar]
    exact hr
  · exact not_dropped_of_parent ht hf (hc _ he) ⟨_, he, rfl⟩
  · have hn : (((s.readChildren container).map fun p ↦ (p.1.identifier, p.2)).map
        Prod.fst).Nodup := by
      have h := identifiers_oldListing s container
      simpa only [oldListing, List.map_map, Function.comp_def] using h
    exact (OrderedMap.lookup_eq_some_of_nodup hn).mpr (List.mem_map.mpr ⟨_, hp, rfl⟩)

theorem replaceContainer_eq_ok {unicode : Unicode} {s s' : Store} {container : Container}
    {new : List Entry} {state : ContainerState} {out : List JournalEntry} (ht : Rooted s)
    (h : s.replaceContainer unicode container new state = .ok (out, s')) :
    ∃ gone, out = numbered s.journalState.last (gone.map .removed ++
        puts s container (withoutErased s new state.fetched)) ∧
      Replaced unicode s s' container (withoutErased s new state.fetched) state gone := by
  unfold Store.replaceContainer at h
  obtain ⟨_, hcheck, h⟩ := bind_eq_ok.mp h
  rw [ite_throw_eq_ok] at h
  obtain ⟨hknown, h⟩ := h
  have hchecked : Checked unicode container (withoutErased s new state.fetched) :=
    (checked_from hcheck).1.filter _
  have hf := hchecked.identifiers
  obtain ⟨gone, hgone, hmem⟩ := removes_missing ht container hf
  have hputs : ∀ c ∈ puts s container (withoutErased s new state.fetched), c.after.isSome := by
    intro c hc
    obtain ⟨e, -, he, -⟩ := after_puts hf hc
    rw [he]
    rfl
  have hfold : (Core.Changes.compare (oldListing s container)
        (withoutErased s new state.fetched)).foldl
      Store.applyChange ([], s) = (gone.map .removed ++ puts s container
        (withoutErased s new state.fetched),
          prune (dropped s container (withoutErased s new state.fetched)) s) := by
    rw [compare_eq, List.foldl_append]
    rw [hgone, List.nil_append]
    exact foldl_applyChange_puts _ _ hputs
  simp only [oldListing, withoutErased] at hfold
  simp only [hfold] at h
  obtain ⟨s₂, hwrite, h⟩ := bind_eq_ok.mp h
  obtain ⟨s₃, hstate, h⟩ := bind_eq_ok.mp h
  obtain ⟨hframe₂, hrows₂⟩ := writeFresh_spec hwrite hf fun e he hnw ↦ by
    refine standing_of_not_put ht hchecked.parent hf he fun hm ↦ hnw ?_
    rw [List.filterMap_append]
    exact List.mem_append_right _ hm
  obtain rfl := writeState_eq_ok hstate
  obtain ⟨hout, hframe, happended⟩ := appendJournal_eq_ok h
  refine ⟨gone, ?_, hchecked, by simpa using hknown, hmem, ?_, ?_, ?_, ?_⟩
  · rw [hout, hframe₂]
    rfl
  · rw [hframe]
    exact hrows₂
  · rw [hframe, hframe₂]
    rfl
  · rw [hframe, hframe₂]
    rfl
  · refine ⟨?_, happended.bounded, ?_, ?_⟩
    · rw [happended.last, hframe₂]
      rfl
    · have hrows := happended.rows
      rw [hframe₂] at hrows
      exact hrows
    · have hlimited := happended.limited
      rw [hframe₂] at hlimited
      exact hlimited

theorem updateContainerState_eq_ok {s s' : Store} {container : Container} {state : ContainerState}
    (h : s.updateContainerState container state = .ok s') :
    s.containerKnown container = true ∧
      s' = { s with containerState := s.containerState.upsert ⟨container, state⟩ } := by
  unfold Store.updateContainerState at h
  rw [ite_throw_eq_ok] at h
  exact ⟨by simpa using h.1, writeState_eq_ok h.2⟩

theorem removeDocumentEverywhere_eq_ok {s s' : Store} {document : DocumentIdentifier}
    {now : Timestamp} {out : List JournalEntry}
    (h : s.removeDocumentEverywhere document now = .ok (out, s')) :
    out = numbered s.journalState.last ((s.readPlaced document).map .removed) ∧
    s' = { s with
      entry := s.entry.deleteWhere (·.document = some document)
      erased := s'.erased, journal := s'.journal, journalState := s'.journalState } ∧
    Appended (s.redactJournal document) s' ((s.readPlaced document).map .removed) now .redacted := by
  obtain ⟨hout, hframe, happended⟩ := appendJournal_eq_ok h
  refine ⟨hout, ?_, happended.last, happended.bounded, happended.rows, happended.limited⟩
  rw [hframe]
  rfl

theorem emptyNamespace_eq_ok {s s' : Store} {new : ℕ} (h : s.emptyNamespace = .ok (new, s')) :
    new = s.journalState.last + 1 ∧
      s' = { s with
        entry := .empty, containerState := .empty, journal := .empty
        journalState := ⟨new, new⟩ } := by
  unfold Store.emptyNamespace at h
  obtain ⟨n, hnext, h⟩ := bind_eq_ok.mp h
  obtain ⟨s₁, hwrite, h⟩ := bind_eq_ok.mp h
  obtain ⟨rfl, rfl⟩ := by simpa using h
  obtain ⟨rfl, -⟩ := writeJournalState_eq_ok hwrite
  unfold next at hnext
  split at hnext
  · exact ⟨(Except.ok.inj hnext).symm, rfl⟩
  · cases hnext

section Frame

/-- Nothing but the listings, the container states and the journal differs. -/
def OnlyNamespace (s s' : Store) : Prop :=
  s' = { s with
    entry := s'.entry, containerState := s'.containerState
    journal := s'.journal, journalState := s'.journalState }

theorem OnlyNamespace.refl (s : Store) : OnlyNamespace s s := rfl

theorem OnlyNamespace.trans {s s' s'' : Store} (h : OnlyNamespace s s')
    (h' : OnlyNamespace s' s'') : OnlyNamespace s s'' := by
  unfold OnlyNamespace at h h' ⊢
  rw [h', h]

theorem OnlyNamespace.deleteEntry (s : Store) (i : EntryIdentifier) :
    OnlyNamespace s (s.deleteEntry i) := rfl

theorem onlyNamespace_foldl {α β : Type} {f : β × Store → α → β × Store}
    (hf : ∀ b s a, OnlyNamespace s (f (b, s) a).2) (l : List α) (b : β) (s : Store) :
    OnlyNamespace s (l.foldl f (b, s)).2 := by
  induction l generalizing b s with
  | nil => exact .refl s
  | cons a l ih => exact (hf b s a).trans (ih _ _)

theorem onlyNamespace_removeDescendant (depth : ℕ) (s : Store) (container : Container) :
    OnlyNamespace s (Store.removeDescendant depth s container).2 := by
  induction depth generalizing s container with
  | zero => exact .refl s
  | succ depth ih =>
    refine OnlyNamespace.trans (onlyNamespace_foldl ?_ (s.readChildren container) [] s) rfl
    intro out s child
    dsimp only
    split
    · exact (ih _ _).trans rfl
    · exact rfl

theorem onlyNamespace_applyChange (changes : List Change) (s : Store) (change : Change) :
    OnlyNamespace s (Store.applyChange (changes, s) change).2 := by
  cases change with
  | removed entry =>
    rw [applyChange_removed, removeWith]
    cases entry.identifier.container? with
    | none => exact .deleteEntry _ _
    | some below => exact (onlyNamespace_removeDescendant _ _ _).trans (.deleteEntry _ _)
  | new entry => exact .refl s
  | changed entry entry' => exact .refl s

theorem onlyNamespace_writeFresh {container : Container} {oldRanks : List (EntryIdentifier × ℕ)}
    {toWrite : List EntryIdentifier} {place : ℕ} {l : List Entry} {s s' : Store}
    (h : Store.writeFresh container oldRanks toWrite place l s = .ok s') : OnlyNamespace s s' := by
  induction l generalizing place s with
  | nil =>
    obtain rfl := Except.ok.inj h
    exact .refl s
  | cons e l ih =>
    unfold Store.writeFresh at h
    obtain ⟨rank, -, h⟩ := bind_eq_ok.mp h
    split at h
    · obtain ⟨s₁, hs₁, h⟩ := bind_eq_ok.mp h
      refine OnlyNamespace.trans ?_ (ih h)
      rw [writeEntry_eq_ok hs₁]
      rfl
    · split at h
      · have hrank : OnlyNamespace s (s.setRank e.identifier rank) := rfl
        exact hrank.trans (ih h)
      · exact ih h

theorem onlyNamespace_appendJournal {s s' : Store} {changes : List Change} {time : Timestamp}
    {form : JournalForm} {out : List JournalEntry}
    (h : s.appendJournal changes time form = .ok (out, s')) : OnlyNamespace s s' := by
  have hframe := (appendJournal_eq_ok h).2.1
  unfold OnlyNamespace
  rw [hframe]

theorem onlyNamespace_replaceContainer {unicode : Unicode} {s s' : Store} {container : Container}
    {new : List Entry} {state : ContainerState} {out : List JournalEntry}
    (h : s.replaceContainer unicode container new state = .ok (out, s')) : OnlyNamespace s s' := by
  unfold Store.replaceContainer at h
  obtain ⟨_, -, h⟩ := bind_eq_ok.mp h
  rw [ite_throw_eq_ok] at h
  obtain ⟨-, h⟩ := h
  obtain ⟨s₂, hwrite, h⟩ := bind_eq_ok.mp h
  obtain ⟨s₃, hstate, h⟩ := bind_eq_ok.mp h
  have hfold := onlyNamespace_foldl onlyNamespace_applyChange
    (Core.Changes.compare ((s.readChildren container).map Prod.fst)
      (withoutErased s new state.fetched)) [] s
  refine (hfold.trans (onlyNamespace_writeFresh hwrite)).trans ?_
  refine OnlyNamespace.trans ?_ (onlyNamespace_appendJournal h)
  rw [writeState_eq_ok hstate]
  rfl

end Frame

end FolderClient.Storage.Effects
