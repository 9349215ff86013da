import FolderClient.Storage.Effects

namespace FolderClient.Storage.Paging

open FolderClient.Core.Changes FolderClient.Storage.Basic
open FolderClient.Library.Tables FolderClient.Library.Results

variable {s : Store}

/-- The journal holds exactly the numbers above its lower bound up to the last one, in order. -/
structure Consecutive (s : Store) : Prop where
  lower_le : s.journalState.lowerLimit ≤ s.journalState.last
  sequences : s.journal.rows.map (·.sequence) = List.range' (s.journalState.lowerLimit + 1)
    (s.journalState.last - s.journalState.lowerLimit)
  bounded : s.journal.rows.length < 2 ^ 63

def toEntry (r : JournalRow) : JournalEntry := ⟨r.sequence, r.change⟩

/-- Everything the journal retains after the number `f`. -/
def after (s : Store) (f : ℕ) : List JournalEntry :=
  (s.journal.rows.drop (f - s.journalState.lowerLimit)).map toEntry

theorem filter_consecutive {rows : List JournalRow} {start n : ℕ}
    (h : rows.map (·.sequence) = List.range' start n) (f : ℕ) :
    rows.filter (fun r ↦ f < r.sequence) = rows.drop (f + 1 - start) := by
  induction rows generalizing start n with
  | nil => simp
  | cons r rows ih =>
    cases n with
    | zero => cases h
    | succ n =>
      rw [List.map_cons, List.range'_succ] at h
      obtain ⟨hr, hrows⟩ := List.cons.inj h
      have hi := ih hrows
      by_cases hf : f < r.sequence
      · have hd : f + 1 - start = 0 := by omega
        have hd' : f + 1 - (start + 1) = 0 := by omega
        rw [List.filter_cons_of_pos (by simpa using hf), hi, hd, hd', List.drop_zero,
          List.drop_zero]
      · have hd : f + 1 - start = (f + 1 - (start + 1)) + 1 := by omega
        rw [List.filter_cons_of_neg (by simpa using hf), hi, hd, List.drop_succ_cons]

theorem readRows_consecutive {rows : List JournalRow} {expected n : ℕ}
    (h : rows.map (·.sequence) = List.range' (expected + 1) n) :
    Store.readRows expected rows = .ok (rows.map toEntry) := by
  induction rows generalizing expected n with
  | nil => rfl
  | cons r rows ih =>
    cases n with
    | zero => cases h
    | succ n =>
      rw [List.map_cons, List.range'_succ] at h
      obtain ⟨hr, hrows⟩ := List.cons.inj h
      simp [Store.readRows, hr, ih hrows, Except.map, toEntry]

theorem Consecutive.length (h : Consecutive s) :
    s.journal.rows.length = s.journalState.last - s.journalState.lowerLimit := by
  simpa using congrArg List.length h.sequences

theorem Consecutive.length_after (h : Consecutive s) {f : ℕ}
    (hl : s.journalState.lowerLimit ≤ f) : (after s f).length = s.journalState.last - f := by
  have hlen := h.length
  simp only [after, List.length_map, List.length_drop]
  omega

theorem last_consecutive {l : List JournalEntry} {f n : ℕ}
    (h : l.map (·.sequence) = List.range' (f + 1) n) :
    (l.getLast?.map (·.sequence)).getD f = f + n := by
  rw [← List.getLast?_map, h]
  cases n with
  | zero => rfl
  | succ n =>
    rw [List.range'_concat, List.getLast?_concat, Option.getD_some]
    omega

/-- One page is the next stretch of the journal, as long as `max` allows. -/
theorem changesSince_eq (h : Consecutive s) {f max : ℕ} (hl : s.journalState.lowerLimit ≤ f)
    (hf : f ≤ s.journalState.last) (hmax : 1 ≤ max) :
    s.changesSince f max = .ok
      { changes := (after s f).take max
        untilSequence := min (f + max) s.journalState.last
        more := decide (f + max < s.journalState.last) } := by
  have hdrop : f + 1 - (s.journalState.lowerLimit + 1) = f - s.journalState.lowerLimit := by omega
  have hselect : s.journal.select (fun r ↦ f < r.sequence) =
      s.journal.rows.drop (f - s.journalState.lowerLimit) := by
    rw [Table.select, filter_consecutive h.sequences, hdrop]
  have hseq : (s.journal.rows.drop (f - s.journalState.lowerLimit)).map (·.sequence) =
      List.range' (f + 1) (s.journalState.last - f) := by
    rw [List.map_drop, h.sequences, List.drop_range']
    congr 1 <;> omega
  have hsorted : (s.journal.rows.drop (f - s.journalState.lowerLimit)).Pairwise
      (fun r r' ↦ r.sequence ≤ r'.sequence) := by
    have hp := List.pairwise_map.mp (hseq ▸ List.pairwise_le_range')
    exact hp
  have hlen : (s.journal.rows.drop (f - s.journalState.lowerLimit)).length =
      s.journalState.last - f := by
    simpa using congrArg List.length hseq
  have hpage : (s.journal.rows.drop (f - s.journalState.lowerLimit)).take (min max (2 ^ 63 - 1)) =
      (s.journal.rows.drop (f - s.journalState.lowerLimit)).take max := by
    rw [List.take_eq_take_iff, hlen]
    have hb := h.bounded
    rw [h.length] at hb
    omega
  have htaken : ((s.journal.rows.drop (f - s.journalState.lowerLimit)).take max).map
      (·.sequence) = List.range' (f + 1) (min max (s.journalState.last - f)) := by
    rw [List.map_take, hseq]
    rcases Nat.le_total (s.journalState.last - f) max with hle | hle
    · rw [List.take_range'_of_length_le hle, Nat.min_eq_right hle]
    · rw [List.take_range'_of_length_ge hle, Nat.min_eq_left hle]
  have hread := readRows_consecutive htaken
  have hchanges : ((s.journal.rows.drop (f - s.journalState.lowerLimit)).take max).map toEntry =
      (after s f).take max := by
    rw [after, List.map_take]
  have huntil : (((after s f).take max).getLast?.map (·.sequence)).getD f =
      min (f + max) s.journalState.last := by
    rw [last_consecutive (n := min max (s.journalState.last - f))]
    · omega
    · rw [← hchanges, List.map_map]
      exact htaken
  have hcount : ((after s f).take max).length = min max (s.journalState.last - f) := by
    rw [List.length_take, h.length_after hl]
  unfold Store.changesSince
  rw [if_neg (by omega), if_neg (by omega), if_neg (by omega)]
  simp only [hselect, List.Pairwise.insertionSort_eq hsorted, hpage, hread, hchanges]
  rw [bind_eq_ok]
  refine ⟨_, rfl, ?_⟩
  simp only [huntil, hcount]
  rw [if_neg]
  · simp only [pure_eq_ok, ChangeState.mk.injEq, true_and, decide_eq_decide]
    omega
  · simp only [decide_eq_true_eq]
    omega

/-- What page after page of the journal yields, from an anchor on, while there is more. -/
inductive Collected (s : Store) (max : ℕ) : ℕ → List JournalEntry → Prop
  | last {f : ℕ} {page : ChangeState} :
      s.changesSince f max = .ok page → page.more = false → Collected s max f page.changes
  | more {f : ℕ} {page : ChangeState} {rest : List JournalEntry} :
      s.changesSince f max = .ok page → page.more = true →
      Collected s max page.untilSequence rest → Collected s max f (page.changes ++ rest)

theorem collected_unique (h : Consecutive s) {f max : ℕ} (hl : s.journalState.lowerLimit ≤ f)
    (hf : f ≤ s.journalState.last) (hmax : 1 ≤ max) {changes : List JournalEntry}
    (hc : Collected s max f changes) : changes = after s f := by
  induction hc with
  | @last f page hpage hmore =>
    rw [changesSince_eq h hl hf hmax] at hpage
    obtain rfl := Except.ok.inj hpage
    have hle : ¬ f + max < s.journalState.last := by simpa using hmore
    refine List.take_of_length_le ?_
    rw [h.length_after hl]
    omega
  | @more f page rest hpage hmore _ ih =>
    rw [changesSince_eq h hl hf hmax] at hpage
    obtain rfl := Except.ok.inj hpage
    have hlt : f + max < s.journalState.last := by simpa using hmore
    rw [ih (by dsimp only; omega) (by dsimp only; omega)]
    have hrest : after s (min (f + max) s.journalState.last) = (after s f).drop max := by
      rw [after, after, ← List.map_drop, List.drop_drop]
      congr 2
      omega
    rw [hrest, List.take_append_drop]

theorem exists_collected (h : Consecutive s) {f max : ℕ} (hl : s.journalState.lowerLimit ≤ f)
    (hf : f ≤ s.journalState.last) (hmax : 1 ≤ max) : ∃ changes, Collected s max f changes := by
  induction hn : s.journalState.last - f using Nat.strong_induction_on generalizing f with
  | _ n ih =>
    have hpage := changesSince_eq h hl hf hmax
    by_cases hlt : f + max < s.journalState.last
    · obtain ⟨rest, hrest⟩ := ih (s.journalState.last - min (f + max) s.journalState.last)
        (by omega) (by omega) (Nat.min_le_right _ _) rfl
      exact ⟨_, .more hpage (by simpa using hlt) hrest⟩
    · exact ⟨_, .last hpage (by simpa using hlt)⟩

end FolderClient.Storage.Paging
