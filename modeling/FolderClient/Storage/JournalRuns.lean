import FolderClient.Storage.Paging
import FolderClient.Storage.TreeRuns

namespace FolderClient.Storage.JournalRuns

open FolderClient.Core.Namespace FolderClient.Core.Changes FolderClient.Storage.Basic
open FolderClient.Library.Tables FolderClient.Library.EditLog FolderClient.Storage.Namespace
open FolderClient.Storage.Tree FolderClient.Storage.Effects FolderClient.Storage.Runs
open FolderClient.Storage.Paging FolderClient.Storage.TreeRuns

variable {unicode : Unicode} {s s' : Store}

/-- The entries of the store by their identifiers. -/
def entryMap (s : Store) : Snapshot EntryIdentifier Entry :=
  fun i ↦ (s.entry.find? i).map (·.entry)

theorem entryMap_eq_some {i : EntryIdentifier} {e : Entry} :
    entryMap s i = some e ↔ ∃ r ∈ s.entry.rows, r.entry = e ∧ e.identifier = i := by
  simp only [entryMap, Option.map_eq_some_iff, Table.find?_eq_some_iff]
  constructor
  · rintro ⟨r, ⟨hr, hi⟩, rfl⟩
    exact ⟨r, hr, rfl, hi⟩
  · rintro ⟨r, hr, rfl, hi⟩
    exact ⟨r, ⟨hr, hi⟩, rfl⟩

theorem entryMap_ne_none {i : EntryIdentifier} :
    entryMap s i ≠ none ↔ ∃ r ∈ s.entry.rows, r.entry.identifier = i := by
  rw [Option.ne_none_iff_exists']
  constructor
  · rintro ⟨e, he⟩
    obtain ⟨r, hr, rfl, hi⟩ := entryMap_eq_some.mp he
    exact ⟨r, hr, hi⟩
  · rintro ⟨r, hr, hi⟩
    exact ⟨r.entry, entryMap_eq_some.mpr ⟨r, hr, rfl, hi⟩⟩

theorem entryMap_prune (p : EntryIdentifier → Bool) (s : Store) (i : EntryIdentifier) :
    entryMap (prune p s) i = if p i = true then none else entryMap s i := by
  ext e
  rw [entryMap_eq_some]
  split
  · rename_i hp
    simp only [mem_prune_entry, reduceCtorEq, iff_false]
    rintro ⟨r, ⟨-, hn⟩, rfl, rfl⟩
    exact Bool.false_ne_true (hn.symm.trans hp)
  · rename_i hp
    rw [entryMap_eq_some]
    simp only [mem_prune_entry]
    constructor
    · rintro ⟨r, ⟨hr, -⟩, he, hi⟩
      exact ⟨r, hr, he, hi⟩
    · rintro ⟨r, hr, rfl, rfl⟩
      exact ⟨r, ⟨hr, by simpa using hp⟩, rfl, rfl⟩

/-- Puts under distinct keys: each key holds what was put there. -/
theorem replay_puts_of_mem {m : Snapshot EntryIdentifier Entry} {changes : List Change}
    (hn : (changes.map Change.identifier).Nodup) {c : Change} (hc : c ∈ changes) {e : Entry}
    (he : c.after = some e) :
    replay m (changes.map Change.edit) c.identifier = some e := by
  have hkeys : ((changes.map Change.edit).map Edit.key).Nodup := by
    rwa [Change.map_edit_key]
  rw [← c.edit_key, replay_of_nodup hkeys (List.mem_map_of_mem hc), c.edit_value, he]

/-- The changes of a replaced listing lead from the old entries to the new ones. -/
theorem replay_replaced (ht : Rooted s) {container : Container} {fresh gone : List Entry}
    {state : ContainerState} (h : Replaced unicode s s' container fresh state gone) :
    replay (entryMap s)
      ((gone.map Change.removed ++ puts s container fresh).map Change.edit) = entryMap s' := by
  have hf := h.checked.identifiers
  have hgone : (gone.map Change.removed).map Change.edit =
      (gone.map Entry.identifier).map Edit.delete := by
    simp [Function.comp_def]
  have hpruned : replay (entryMap s) ((gone.map Change.removed).map Change.edit) =
      entryMap (prune (dropped s container fresh) s) := by
    funext i
    rw [hgone, replay_deletes, entryMap_prune]
    have hmem : i ∈ gone.map Entry.identifier ↔
        dropped s container fresh i = true ∧ entryMap s i ≠ none := by
      rw [List.mem_map, entryMap_ne_none]
      constructor
      · rintro ⟨e, he, rfl⟩
        obtain ⟨r, hr, hd, rfl⟩ := (h.mem_gone e).mp he
        exact ⟨hd, r, hr, rfl⟩
      · rintro ⟨hd, r, hr, rfl⟩
        exact ⟨r.entry, (h.mem_gone _).mpr ⟨r, hr, hd, rfl⟩, rfl⟩
    by_cases hd : dropped s container fresh i = true
    · rw [if_pos hd]
      split
      · rfl
      · rename_i hn
        by_contra hne
        exact hn (hmem.mpr ⟨hd, hne⟩)
    · rw [if_neg hd, if_neg fun hm ↦ hd (hmem.mp hm).1]
  rw [List.map_append, replay_append, hpruned]
  funext i
  by_cases hi : ∃ e ∈ fresh, e.identifier = i
  · obtain ⟨e, he, rfl⟩ := hi
    have hs' : entryMap s' e.identifier = some e := by
      have hrow := he
      rw [← map_entry_freshRows container 0 fresh] at hrow
      obtain ⟨r, hr, hre⟩ := List.mem_map.mp hrow
      exact entryMap_eq_some.mpr ⟨r, (h.rows r).mpr (.inr hr), hre, rfl⟩
    rw [hs']
    by_cases hput : ∃ c ∈ puts s container fresh, c.after = some e
    · obtain ⟨c, hc, hafter⟩ := hput
      rw [← Change.identifier_of_after hafter]
      exact replay_puts_of_mem (identifiers_puts hf) hc hafter
    · -- An unchanged entry: no put touches it, and it outlives the removals.
      rw [replay_of_forall_ne, entryMap_prune, if_neg]
      · have ho : e ∈ oldListing s container := by
          by_contra hne
          exact hput (exists_put hf he hne)
        obtain ⟨r, hr, hre, -⟩ := mem_readChildren.mp ho
        exact entryMap_eq_some.mpr ⟨r, hr, hre, rfl⟩
      · rw [not_dropped_of_parent ht hf (h.checked.parent e he) ⟨e, he, rfl⟩]
        exact Bool.false_ne_true
      · intro f hm heq
        obtain ⟨c, hc, rfl⟩ := List.mem_map.mp hm
        obtain ⟨e', he', hafter, -⟩ := after_puts hf hc
        rw [Change.edit_key, Change.identifier_of_after hafter] at heq
        rw [List.inj_on_of_nodup_map hf he' he heq.symm] at hafter
        exact hput ⟨c, hc, hafter⟩
  · rw [replay_of_forall_ne]
    · ext e
      rw [entryMap_eq_some, entryMap_eq_some]
      refine exists_congr fun r ↦ ?_
      rw [h.rows]
      constructor
      · rintro ⟨hr, rfl, rfl⟩
        exact ⟨.inl ⟨hr, fun e he heq ↦ hi ⟨e, he, heq⟩⟩, rfl, rfl⟩
      · rintro ⟨⟨hr, -⟩ | hr, rfl, rfl⟩
        · exact ⟨hr, rfl, rfl⟩
        · exact absurd ⟨r.entry, (mem_freshRows hr).2.1, rfl⟩ hi
    · intro f hm heq
      obtain ⟨c, hc, rfl⟩ := List.mem_map.mp hm
      obtain ⟨e', he', hafter, -⟩ := after_puts hf hc
      rw [Change.edit_key, Change.identifier_of_after hafter] at heq
      exact hi ⟨e', he', heq.symm⟩

/-- The journal as a log of edits: consecutive numbers above the lower bound, each row indexed by
the document it is about. -/
structure Logged (s : Store) (lower : ℕ) (edits : List (Edit EntryIdentifier Entry)) : Prop where
  lower_eq : s.journalState.lowerLimit = lower
  last_eq : s.journalState.last = lower + edits.length
  sequences : s.journal.rows.map (·.sequence) = List.range' (lower + 1) edits.length
  edits_eq : s.journal.rows.map (·.change.edit) = edits
  documents : ∀ r ∈ s.journal.rows, r.document = r.change.identifier.document?
  bounded : edits.length < 2 ^ 63

theorem Logged.consecutive {lower : ℕ} {edits : List (Edit EntryIdentifier Entry)}
    (h : Logged s lower edits) : Consecutive s where
  lower_le := by
    rw [h.lower_eq, h.last_eq]
    exact Nat.le_add_right _ _
  sequences := by
    rw [h.lower_eq, h.last_eq, Nat.add_sub_cancel_left]
    exact h.sequences
  bounded := by
    have hl : s.journal.rows.length = edits.length := by
      simpa using congrArg List.length h.edits_eq
    exact hl ▸ h.bounded

section Appending

variable {time : Timestamp} {form : JournalForm}

theorem sequences_rowsAfter (last : ℕ) (changes : List Change) :
    (rowsAfter time form last changes).map (·.sequence) =
      List.range' (last + 1) changes.length := by
  induction changes generalizing last with
  | nil => rfl
  | cons c changes ih => rw [rowsAfter, List.map_cons, ih, List.length_cons, List.range'_succ]

theorem edits_rowsAfter (last : ℕ) (changes : List Change)
    (h : ∀ c ∈ changes, (stored form c).edit = c.edit) :
    (rowsAfter time form last changes).map (·.change.edit) = changes.map Change.edit := by
  induction changes generalizing last with
  | nil => rfl
  | cons c changes ih =>
    obtain ⟨hc, h⟩ := List.forall_mem_cons.mp h
    rw [rowsAfter, List.map_cons, ih _ h, List.map_cons, hc]

theorem identifier_stored (form : JournalForm) (c : Change) :
    (stored form c).identifier = c.identifier := by
  cases form <;> rfl

theorem documents_rowsAfter (last : ℕ) (changes : List Change) :
    ∀ r ∈ rowsAfter time form last changes, r.document = r.change.identifier.document? := by
  induction changes generalizing last with
  | nil => exact fun r hr ↦ by cases hr
  | cons c changes ih =>
    refine List.forall_mem_cons.mpr ⟨?_, ih _⟩
    rw [identifier_stored]

/-- Appending extends the log and then drops some of its oldest edits. -/
theorem logged_appended {lower : ℕ} {edits : List (Edit EntryIdentifier Entry)}
    {changes : List Change} (h : Logged s lower edits)
    (ha : Appended s s' changes time form)
    (hform : ∀ c ∈ changes, (stored form c).edit = c.edit) :
    ∃ n ≤ (edits ++ changes.map Change.edit).length,
      Logged s' (lower + n) ((edits ++ changes.map Change.edit).drop n) := by
  have hseq : (s.journal.rows ++ rowsAfter time form s.journalState.last changes).map
      (·.sequence) = List.range' (lower + 1) (edits ++ changes.map Change.edit).length := by
    rw [List.map_append, h.sequences, sequences_rowsAfter, h.last_eq, List.length_append,
      List.length_map, ← List.range'_append_1]
    congr 2
    omega
  have hedits : (s.journal.rows ++ rowsAfter time form s.journalState.last changes).map
      (·.change.edit) = edits ++ changes.map Change.edit := by
    rw [List.map_append, h.edits_eq, edits_rowsAfter _ _ hform]
  have hdocs : ∀ r ∈ s.journal.rows ++ rowsAfter time form s.journalState.last changes,
      r.document = r.change.identifier.document? := by
    intro r hr
    rcases List.mem_append.mp hr with hr | hr
    · exact h.documents r hr
    · exact documents_rowsAfter _ _ r hr
  have hlast : s'.journalState.last = lower + (edits ++ changes.map Change.edit).length := by
    rw [ha.last, h.last_eq, List.length_append, List.length_map, Nat.add_assoc]
  have hbound : changes = [] ∨ (edits ++ changes.map Change.edit).length < 2 ^ 63 := by
    refine ha.bounded.imp_right fun hb ↦ ?_
    omega
  have hlen : (edits ++ changes.map Change.edit).length < 2 ^ 63 := by
    rcases hbound with rfl | hb
    · simpa using h.bounded
    · exact hb
  rcases ha.rows with ⟨hlower, hrows⟩ | ⟨hlt, hle, hrows⟩
  · refine ⟨0, Nat.zero_le _, ?_⟩
    rw [Nat.add_zero, List.drop_zero]
    exact ⟨hlower.trans h.lower_eq, hlast, hrows ▸ hseq, hrows ▸ hedits, hrows ▸ hdocs, hlen⟩
  · have hlow := h.lower_eq
    rw [hlow] at hlt
    have hdrop : s'.journalState.lowerLimit + 1 - (lower + 1) =
        s'.journalState.lowerLimit - lower := by omega
    rw [filter_consecutive hseq, hdrop] at hrows
    refine ⟨s'.journalState.lowerLimit - lower, by omega, ?_⟩
    refine ⟨by omega, by rw [List.length_drop]; omega, ?_, ?_, ?_, ?_⟩
    · rw [hrows, List.map_drop, hseq, List.drop_range', List.length_drop]
      congr 1
      omega
    · rw [hrows, List.map_drop, hedits]
    · exact fun r hr ↦ hdocs r (List.mem_of_mem_drop (hrows ▸ hr))
    · rw [List.length_drop]
      omega

/-- Whether an entry is a place of the document. -/
def placed (document : DocumentIdentifier) (i : EntryIdentifier) : Prop :=
  i.document? = some document

instance (document : DocumentIdentifier) : DecidablePred (placed document) :=
  fun _ ↦ inferInstanceAs (Decidable (_ = _))

theorem logged_redacted {lower : ℕ} {edits : List (Edit EntryIdentifier Entry)}
    (h : Logged s lower edits) (document : DocumentIdentifier) :
    Logged (s.redactJournal document) lower (edits.map (Edit.redact (placed document))) := by
  refine ⟨h.lower_eq, by rw [List.length_map]; exact h.last_eq, ?_, ?_, ?_, ?_⟩
  · rw [List.length_map, ← h.sequences]
    simp only [Store.redactJournal, Table.update, List.map_map]
    refine List.map_congr_left fun r _ ↦ ?_
    simp only [Function.comp_apply]
    split <;> rfl
  · rw [← h.edits_eq, List.map_map]
    simp only [Store.redactJournal, Table.update, List.map_map]
    refine List.map_congr_left fun r hr ↦ ?_
    have hd := h.documents r hr
    simp only [Function.comp_apply, Edit.redact, Change.edit_key, placed, hd]
    split <;> rfl
  · intro r hr
    simp only [Store.redactJournal, Table.mem_update] at hr
    obtain ⟨r', hr', rfl⟩ := hr
    have hd := h.documents r' hr'
    split
    · exact hd
    · exact hd
  · rw [List.length_map]
    exact h.bounded

end Appending

/-- Which entries stood at which number: at the number an operation ends with, those of the store
after it; at a number inside its transaction, those before it with the changes up to there. -/
def record (stood : ℕ → Snapshot EntryIdentifier Entry) (s : Store)
    (outcome : List JournalEntry × Store) (f : ℕ) : Snapshot EntryIdentifier Entry :=
  if f ≤ s.journalState.last then stood f
  else if f < outcome.2.journalState.last then
    replay (entryMap s) ((outcome.1.filter (·.sequence ≤ f)).map (·.change.edit))
  else entryMap outcome.2

abbrev Recording := Store × (ℕ → Snapshot EntryIdentifier Entry)

def performRecorded (unicode : Unicode) (r : Recording) (operation : Operation) : Recording :=
  let o := outcome unicode r.1 operation
  (o.2, record r.2 r.1 o)

def runRecorded (unicode : Unicode) (r : Recording) (operations : List Operation) : Recording :=
  operations.foldl (performRecorded unicode) r

theorem runRecorded_store (unicode : Unicode) (r : Recording) (operations : List Operation) :
    (runRecorded unicode r operations).1 = run unicode r.1 operations := by
  induction operations generalizing r with
  | nil => rfl
  | cons operation operations ih => exact ih (performRecorded unicode r operation)

/-- A chronicle stands for a store together with the record of its past. -/
structure Represents (r : Recording) (c : Chronicle EntryIdentifier Entry) : Prop where
  logged : Logged r.1 c.lower c.edits
  now : c.now = entryMap r.1
  stood : ∀ f ≤ r.1.journalState.last, r.2 f = c.stood f

theorem take_numbered (last f : ℕ) (changes : List Change) :
    ((numbered last changes).filter (·.sequence ≤ f)).map (·.change.edit) =
      (changes.map Change.edit).take (f - last) := by
  induction changes generalizing last with
  | nil => simp [numbered]
  | cons c changes ih =>
    by_cases hf : last + 1 ≤ f
    · have hs : f - last = (f - (last + 1)) + 1 := by omega
      rw [numbered, List.filter_cons_of_pos (by simpa using hf), List.map_cons, ih, hs,
        List.map_cons, List.take_succ_cons]
    · have hs : f - last = 0 := by omega
      have hs' : f - (last + 1) = 0 := by omega
      rw [numbered, List.filter_cons_of_neg (by simpa using hf), ih, hs, hs', List.take_zero,
        List.take_zero]

theorem Represents.last_eq {r : Recording} {c : Chronicle EntryIdentifier Entry}
    (h : Represents r c) : r.1.journalState.last = c.last := h.logged.last_eq

/-- Where the chronicle keeps its past and agrees inside the transaction, it represents the
store after it. -/
theorem represents_record {stood : ℕ → Snapshot EntryIdentifier Entry} {out : List JournalEntry}
    {c c' : Chronicle EntryIdentifier Entry} (h : Represents (s, stood) c)
    (hlogged : Logged s' c'.lower c'.edits) (hnow : c'.now = entryMap s')
    (hpast : ∀ f ≤ c.last, c'.stood f = c.stood f)
    (hinside : ∀ f, c.last < f → f < c'.last →
      c'.stood f = replay c.now ((out.filter (·.sequence ≤ f)).map (·.change.edit))) :
    Represents (s', record stood s (out, s')) c' := by
  refine ⟨hlogged, hnow, fun f hf ↦ ?_⟩
  have hlast : s.journalState.last = c.last := h.last_eq
  have hlast' : s'.journalState.last = c'.last := hlogged.last_eq
  simp only [record, hlast, hlast'] at hf ⊢
  split
  · rename_i hle
    rw [hpast f hle]
    exact h.stood f (hlast ▸ hle)
  · rename_i hnle
    split
    · rename_i hlt
      rw [hinside f (by omega) hlt, h.now]
    · obtain rfl : f = c'.last := by omega
      rw [c'.stood_last, hnow]

theorem represents_replaced {stood : ℕ → Snapshot EntryIdentifier Entry}
    {c : Chronicle EntryIdentifier Entry} (h : Represents (s, stood) c) (ht : Rooted s)
    {container : Container} {fresh gone : List Entry} {state : ContainerState}
    (hr : Replaced unicode s s' container fresh state gone) :
    ∃ c', Represents (s', record stood s (numbered s.journalState.last
      (gone.map .removed ++ puts s container fresh), s')) c' := by
  obtain ⟨n, hn, hlogged⟩ := logged_appended h.logged hr.appended fun _ _ ↦ rfl
  refine ⟨(c.append _).trim n hn, represents_record h hlogged ?_ ?_ ?_⟩
  · show replay c.now _ = _
    rw [h.now]
    exact replay_replaced ht hr
  · intro f hf
    exact if_pos hf
  · intro f hf _
    have hlast : s.journalState.last = c.last := h.last_eq
    rw [take_numbered, hlast]
    exact if_neg (by omega)

theorem mem_readPlaced {document : DocumentIdentifier} (ht : Rooted s) (k : EntryIdentifier) :
    k ∈ (s.readPlaced document).map Entry.identifier ↔
      placed document k ∧ entryMap s k ≠ none := by
  rw [entryMap_ne_none, placed]
  simp only [Store.readPlaced, List.map_map, List.mem_map, List.mem_insertionSort,
    Table.mem_select, decide_eq_true_eq, Function.comp_apply]
  constructor
  · rintro ⟨r, ⟨hr, hd⟩, rfl⟩
    exact ⟨(ht.document r hr).symm.trans hd, r, hr, rfl⟩
  · rintro ⟨hd, r, hr, rfl⟩
    exact ⟨r, ⟨hr, (ht.document r hr).trans hd⟩, rfl⟩

theorem entryMap_erased (ht : Rooted s) {document : DocumentIdentifier}
    (h : s'.entry = s.entry.deleteWhere (·.document = some document)) :
    entryMap s' = fun k ↦ if placed document k then none else entryMap s k := by
  funext k
  rw [entryMap, h, Table.find?_deleteWhere, entryMap]
  cases hfind : s.entry.find? k with
  | none => simp
  | some r =>
    obtain ⟨hr, rfl⟩ := (Table.find?_eq_some_iff _).mp hfind
    have hd := ht.document r hr
    by_cases hp : r.entry.identifier.document? = some document <;>
      simp [Option.filter, placed, hd, hp]

theorem represents_erased {stood : ℕ → Snapshot EntryIdentifier Entry}
    {c : Chronicle EntryIdentifier Entry} (h : Represents (s, stood) c) (ht : Rooted s)
    {document : DocumentIdentifier} {now : Timestamp}
    (hentry : s'.entry = s.entry.deleteWhere (·.document = some document))
    (ha : Appended (s.redactJournal document) s' ((s.readPlaced document).map .removed) now
      .redacted) :
    ∃ c', Represents (s', record stood s (numbered s.journalState.last
      ((s.readPlaced document).map .removed), s')) c' := by
  have hks : ∀ k, k ∈ (s.readPlaced document).map Entry.identifier ↔
      placed document k ∧ c.now k ≠ none := by
    intro k
    rw [h.now]
    exact mem_readPlaced ht k
  have hedits : ((s.readPlaced document).map Change.removed).map Change.edit =
      ((s.readPlaced document).map Entry.identifier).map Edit.delete := by
    simp [Function.comp_def]
  obtain ⟨n, hn, hlogged⟩ := logged_appended (logged_redacted h.logged document) ha fun e he ↦ by
    obtain ⟨e, -, rfl⟩ := List.mem_map.mp he
    rfl
  rw [hedits] at hn hlogged
  refine ⟨(c.erase (placed document) _ hks).trim n hn, represents_record h hlogged ?_ ?_ ?_⟩
  · rw [entryMap_erased ht hentry, ← h.now]
    rfl
  · intro f hf
    exact if_pos hf
  · intro f hf _
    have hlast : s.journalState.last = c.last := h.last_eq
    rw [take_numbered, hlast, hedits, ← List.map_take]
    refine (if_neg (by omega)).trans ?_
    funext k
    rw [replay_deletes]

/-- An operation that leaves entries and journal alone is represented as before. -/
theorem represents_unchanged {stood : ℕ → Snapshot EntryIdentifier Entry}
    {c : Chronicle EntryIdentifier Entry} (h : Represents (s, stood) c)
    (hentry : s'.entry = s.entry) (hjournal : s'.journal = s.journal)
    (hstate : s'.journalState = s.journalState) :
    ∃ c', Represents (s', record stood s ([], s')) c' := by
  have hl := h.logged
  have hnow : c.now = entryMap s' := by
    rw [h.now]
    funext i
    simp only [entryMap, hentry]
  have hlogged : Logged s' c.lower c.edits :=
    ⟨hstate ▸ hl.lower_eq, hstate ▸ hl.last_eq, hjournal ▸ hl.sequences, hjournal ▸ hl.edits_eq,
      hjournal ▸ hl.documents, hl.bounded⟩
  exact ⟨c, represents_record h hlogged hnow (fun _ _ ↦ rfl) fun f hf hf' ↦ by omega⟩

theorem represents_emptied {stood : ℕ → Snapshot EntryIdentifier Entry}
    {c : Chronicle EntryIdentifier Entry} (h : Represents (s, stood) c)
    (hentry : s'.entry.rows = []) (hjournal : s'.journal.rows = [])
    (hstate : s'.journalState = ⟨s.journalState.last + 1, s.journalState.last + 1⟩) :
    ∃ c', Represents (s', record stood s ([], s')) c' := by
  have hlast : s.journalState.last = c.last := h.last_eq
  refine ⟨c.reset, represents_record h ⟨?_, ?_, ?_, ?_, ?_, ?_⟩ ?_ ?_ ?_⟩
  · rw [hstate, hlast]
    rfl
  · rw [hstate, hlast]
    rfl
  · rw [hjournal]
    rfl
  · rw [hjournal]
    rfl
  · simp [hjournal]
  · exact Nat.two_pow_pos 63
  · funext i
    simp [entryMap, Table.find?, hentry, Chronicle.reset]
  · intro f hf
    exact if_pos hf
  · intro f hf hf'
    have hlast' : c.reset.last = c.last + 1 := rfl
    omega

theorem represents_performRecorded (unicode : Unicode) {r : Recording} {c : Chronicle EntryIdentifier Entry}
    (h : Represents r c) (ht : Rooted r.1) (operation : Operation) :
    ∃ c', Represents (performRecorded unicode r operation) c' := by
  obtain ⟨s, stood⟩ := r
  show ∃ c', Represents (_, record stood s (outcome unicode s operation)) c'
  rcases outcome_cases unicode ht operation with ho | ho
  · rw [ho]
    exact represents_unchanged h rfl rfl rfl
  · revert ho
    generalize outcome unicode s operation = o
    intro ho
    cases ho with
    | replaceContainer gone hr => exact represents_replaced h ht hr
    | updateContainerState _ => exact represents_unchanged h rfl rfl rfl
    | removeDocumentEverywhere hs ha => exact represents_erased h ht (by rw [hs]) ha
    | emptyNamespace => exact represents_emptied h rfl rfl rfl
    | clearErasure => exact represents_unchanged h rfl rfl rfl
    | reopen => exact represents_unchanged h rfl rfl rfl

/-- The record of a fresh database: nothing ever stood in it. -/
def startRecording (n limit : ℕ) : Recording := (Store.setUp n limit, fun _ _ ↦ none)

theorem represents_runRecorded (unicode : Unicode) {r : Recording}
    {c : Chronicle EntryIdentifier Entry} (h : Represents r c) (hw : WellFormed unicode r.1)
    (operations : List Operation) : ∃ c', Represents (runRecorded unicode r operations) c' := by
  induction operations generalizing r c with
  | nil => exact ⟨c, h⟩
  | cons operation operations ih =>
    obtain ⟨c', h'⟩ := represents_performRecorded unicode h hw.rooted operation
    exact ih h' (wellFormed_perform hw operation)

theorem represents_start (n limit : ℕ) :
    Represents (startRecording n limit) (.start n fun _ ↦ none) :=
  ⟨⟨rfl, rfl, rfl, rfl, fun _ hr ↦ (List.not_mem_nil hr).elim, Nat.two_pow_pos 63⟩, rfl,
    fun _ _ ↦ rfl⟩

theorem edits_after {lower : ℕ} {edits : List (Edit EntryIdentifier Entry)}
    (h : Logged s lower edits) (f : ℕ) :
    (after s f).map (·.change.edit) = edits.drop (f - lower) := by
  rw [after, List.map_map, ← h.edits_eq, ← h.lower_eq, List.map_drop]
  rfl

theorem last_le_performed {operation : Operation} {out : List JournalEntry}
    (h : Performed unicode s operation (out, s')) :
    s.journalState.last ≤ s'.journalState.last := by
  cases h with
  | replaceContainer gone h => exact h.appended.last ▸ Nat.le_add_right _ _
  | removeDocumentEverywhere _ ha =>
    have hl : s'.journalState.last = s.journalState.last + _ := ha.last
    omega
  | emptyNamespace => exact Nat.le_succ _
  | updateContainerState _ => exact Nat.le_refl _
  | clearErasure => exact Nat.le_refl _
  | reopen => exact Nat.le_refl _

/-- Later operations do not touch the record of a number once passed. -/
theorem runRecorded_past {r : Recording} (hw : WellFormed unicode r.1) {f : ℕ}
    (hf : f ≤ r.1.journalState.last) (operations : List Operation) :
    (runRecorded unicode r operations).2 f = r.2 f := by
  induction operations generalizing r with
  | nil => rfl
  | cons operation operations ih =>
    have hle : r.1.journalState.last ≤ (perform unicode r.1 operation).journalState.last := by
      rcases outcome_cases unicode hw.rooted operation with h | h
      · rw [perform, h]
      · exact last_le_performed h
    have hi := ih (r := performRecorded unicode r operation)
      (wellFormed_perform hw operation) (hf.trans hle)
    exact hi.trans (if_pos hf)

/-- Journal replay: the record of a run holds the entries of every store of the run under its
number, and in the store reached the pages from any valid anchor lead from the entries that
stood at the anchor to the present ones. -/
theorem replay_of_every_anchor (unicode : Unicode) (n limit : ℕ) (operations : List Operation) :
    let s := run unicode (Store.setUp n limit) operations
    let stood := (runRecorded unicode (startRecording n limit) operations).2
    (∀ k, let t := run unicode (Store.setUp n limit) (operations.take k)
      stood t.journalState.last = entryMap t) ∧
    ∀ f max, s.journalState.lowerLimit ≤ f → f ≤ s.journalState.last → 1 ≤ max →
      (∃ changes, Collected s max f changes) ∧
      ∀ changes, Collected s max f changes →
        replay (stood f) (changes.map (·.change.edit)) = entryMap s := by
  intro s stood
  have hrep : ∀ ops : List Operation, ∃ c,
      Represents (runRecorded unicode (startRecording n limit) ops) c := fun ops ↦
    represents_runRecorded unicode (represents_start n limit) (wellFormed_setUp unicode n limit) ops
  refine ⟨fun k ↦ ?_, fun f max hl hf hmax ↦ ?_⟩
  · obtain ⟨c, hc⟩ := hrep (operations.take k)
    have hstore := runRecorded_store unicode (startRecording n limit) (operations.take k)
    have hw : WellFormed unicode
        (runRecorded unicode (startRecording n limit) (operations.take k)).1 :=
      hstore ▸ wellFormed_run (wellFormed_setUp unicode n limit) _
    have hpast := runRecorded_past hw (Nat.le_refl _) (operations.drop k)
    have hsplit : runRecorded unicode
        (runRecorded unicode (startRecording n limit) (operations.take k)) (operations.drop k) =
          runRecorded unicode (startRecording n limit) operations := by
      rw [runRecorded, runRecorded, ← List.foldl_append, List.take_append_drop]
      rfl
    rw [hsplit, hc.stood _ (Nat.le_refl _), hc.last_eq, c.stood_last, hc.now, ← hc.last_eq,
      hstore] at hpast
    exact hpast
  · obtain ⟨c, hc⟩ := hrep operations
    have hstore : (runRecorded unicode (startRecording n limit) operations).1 = s :=
      runRecorded_store unicode _ operations
    have hlogged := hstore ▸ hc.logged
    refine ⟨exists_collected hlogged.consecutive hl hf hmax, fun changes hchanges ↦ ?_⟩
    have hstood : stood f = c.stood f := hc.stood f (hstore ▸ hf)
    rw [collected_unique hlogged.consecutive hl hf hmax hchanges, edits_after hlogged, hstood,
      c.replay_since (hlogged.lower_eq ▸ hl) (hf.trans_eq hlogged.last_eq), hc.now, hstore]

end FolderClient.Storage.JournalRuns
