import FolderClient.Storage.JournalRuns

namespace FolderClient.Storage.Basic.Store

/-- The highest sequence number handed out. -/
def currentSequence (s : Store) : ℕ := s.journalState.last

/-- The smallest sequence number the journal can still deliver. -/
def oldestSequence (s : Store) : ℕ := s.journalState.lowerLimit + 1

end FolderClient.Storage.Basic.Store

namespace FolderClient.Storage.AnchorRuns

open FolderClient.Core.Namespace FolderClient.Core.Changes FolderClient.Storage.Basic
open FolderClient.Library.Results FolderClient.Storage.Namespace FolderClient.Storage.Tree
open FolderClient.Storage.Effects FolderClient.Storage.Runs FolderClient.Storage.Paging
open FolderClient.Storage.TreeRuns FolderClient.Storage.JournalRuns

variable {unicode : Unicode} {s s' : Store} {operation : Operation}

/-- How an operation moves the bounds of the journal: the last number and the lower bound only
rise, and beyond the limit the journal grows no further. -/
structure Advanced (s s' : Store) : Prop where
  last : s.journalState.last ≤ s'.journalState.last
  lowerLimit : s.journalState.lowerLimit ≤ s'.journalState.lowerLimit
  limited : s'.journalState.last - s'.journalState.lowerLimit ≤
    max (s.journalState.last - s.journalState.lowerLimit) s.limit

theorem advanced_appended {changes : List Change} {time : Timestamp} {form : JournalForm}
    (h : Appended s s' changes time form) : Advanced s s' := by
  have hlower : s.journalState.lowerLimit ≤ s'.journalState.lowerLimit := by
    rcases h.rows with ⟨hl, -⟩ | ⟨hl, -⟩
    · exact hl.ge
    · exact hl.le
  refine ⟨h.last ▸ Nat.le_add_right _ _, hlower, ?_⟩
  rcases h.limited with rfl | hlimited
  · have hlast : s'.journalState.last = s.journalState.last := h.last
    omega
  · exact hlimited.trans (Nat.le_max_right _ _)

theorem advanced_of_eq (h : s'.journalState = s.journalState) : Advanced s s' := by
  refine ⟨h ▸ Nat.le_refl _, h ▸ Nat.le_refl _, ?_⟩
  rw [h]
  exact Nat.le_max_left _ _

theorem advanced_perform (hw : WellFormed unicode s) (hc : Consecutive s) (operation : Operation) :
    Advanced s (perform unicode s operation) := by
  rcases outcome_cases unicode hw.rooted operation with ho | ho
  · rw [perform, ho]
    exact advanced_of_eq rfl
  · rw [perform]
    generalize outcome unicode s operation = result at ho
    cases ho with
    | replaceContainer gone h => exact advanced_appended h.appended
    | removeDocumentEverywhere _ ha =>
      have h := advanced_appended ha
      exact ⟨h.last, h.lowerLimit, h.limited⟩
    | emptyNamespace =>
      exact ⟨Nat.le_succ _, hc.lower_le.trans (Nat.le_succ _), by simp⟩
    | updateContainerState _ => exact advanced_of_eq rfl
    | clearErasure => exact advanced_of_eq rfl
    | reopen => exact advanced_of_eq rfl

theorem limit_perform (hw : WellFormed unicode s) {limit : ℕ} (hlimit : s.limit ≤ limit)
    (hreopen : ∀ l, operation = .reopen l → l ≤ limit) :
    (perform unicode s operation).limit ≤ limit := by
  rcases outcome_cases unicode hw.rooted operation with ho | ho
  · rw [perform, ho]
    exact hlimit
  · rw [perform]
    generalize outcome unicode s operation = result at ho
    cases ho with
    | replaceContainer gone h => exact (congrArg Store.limit h.frame).trans_le hlimit
    | removeDocumentEverywhere hs _ => exact (congrArg Store.limit hs).trans_le hlimit
    | emptyNamespace => exact hlimit
    | updateContainerState _ => exact hlimit
    | clearErasure => exact hlimit
    | reopen => exact hreopen _ rfl

theorem consecutive_run (unicode : Unicode) (n limit : ℕ) (operations : List Operation) :
    Consecutive (run unicode (Store.setUp n limit) operations) := by
  obtain ⟨c, hc⟩ := represents_runRecorded unicode (represents_start n limit)
    (wellFormed_setUp unicode n limit) operations
  have hstore := runRecorded_store unicode (startRecording n limit) operations
  exact hstore ▸ hc.logged.consecutive

theorem run_append (unicode : Unicode) (s : Store) (operations later : List Operation) :
    run unicode s (operations ++ later) = run unicode (run unicode s operations) later :=
  List.foldl_append

theorem advanced_run (unicode : Unicode) (n limit : ℕ) (operations later : List Operation) :
    (run unicode (Store.setUp n limit) operations).journalState.last ≤
        (run unicode (Store.setUp n limit) (operations ++ later)).journalState.last ∧
      (run unicode (Store.setUp n limit) operations).journalState.lowerLimit ≤
        (run unicode (Store.setUp n limit) (operations ++ later)).journalState.lowerLimit := by
  induction later generalizing operations with
  | nil =>
    rw [List.append_nil]
    exact ⟨Nat.le_refl _, Nat.le_refl _⟩
  | cons operation later ih =>
    have hw := wellFormed_run (wellFormed_setUp unicode n limit) operations
    have ha := advanced_perform hw (consecutive_run unicode n limit operations) operation
    have hi := ih (operations ++ [operation])
    rw [List.append_assoc, List.singleton_append, run_append unicode _ operations [operation]] at hi
    exact ⟨ha.last.trans hi.1, ha.lowerLimit.trans hi.2⟩

/-- The journal holds at most as many rows as the largest limit the store was opened with. -/
theorem limited_run (unicode : Unicode) (n : ℕ) {limit : ℕ} {operations : List Operation}
    (hreopen : ∀ l, .reopen l ∈ operations → l ≤ limit) :
    (run unicode (Store.setUp n limit) operations).limit ≤ limit ∧
      (run unicode (Store.setUp n limit) operations).journal.rows.length ≤ limit := by
  induction operations using List.reverseRecOn with
  | nil => exact ⟨Nat.le_refl _, Nat.zero_le _⟩
  | append_singleton operations operation ih =>
    obtain ⟨hl, hlen⟩ := ih fun l h ↦ hreopen l (List.mem_append_left _ h)
    have hw := wellFormed_run (wellFormed_setUp unicode n limit) operations
    have hc := consecutive_run unicode n limit operations
    have ha := advanced_perform hw hc operation
    refine ⟨?_, ?_⟩
    · rw [run_append]
      exact limit_perform hw hl fun l h ↦ hreopen l (by simp [h])
    · rw [(consecutive_run unicode n limit (operations ++ [operation])).length, run_append]
      refine ha.limited.trans ?_
      rw [← hc.length]
      exact Nat.max_le.mpr ⟨hlen, hl⟩

/-- The anchors a store hands out: its current number, and the ends of the pages it delivers. -/
inductive HandsOut (s : Store) : ℕ → Prop
  | current : HandsOut s s.currentSequence
  | page {f max : ℕ} {page : ChangeState} :
      s.changesSince f max = .ok page → HandsOut s page.untilSequence

theorem inRange_of_changesSince {f max : ℕ} {page : ChangeState}
    (h : s.changesSince f max = .ok page) :
    s.journalState.lowerLimit ≤ f ∧ f ≤ s.journalState.last ∧ 1 ≤ max := by
  unfold Store.changesSince at h
  simp only [ite_throw_eq_ok] at h
  obtain ⟨hmax, hl, hf, -⟩ := h
  exact ⟨Nat.le_of_not_lt hl, Nat.le_of_not_lt hf, Nat.one_le_iff_ne_zero.mpr hmax⟩

theorem le_of_handsOut (hc : Consecutive s) {f : ℕ} (h : HandsOut s f) :
    f ≤ s.journalState.last := by
  cases h with
  | current => exact Nat.le_refl _
  | page hpage =>
    obtain ⟨hl, hf, hmax⟩ := inRange_of_changesSince hpage
    rw [changesSince_eq hc hl hf hmax] at hpage
    obtain rfl := Except.ok.inj hpage
    exact Nat.min_le_right _ _

theorem changesSince_expired {f max : ℕ} (h : f < s.journalState.lowerLimit) (hmax : 1 ≤ max) :
    s.changesSince f max = .error (.anchorExpired f s.oldestSequence) := by
  unfold Store.changesSince
  rw [if_neg (by omega), if_pos h]
  rfl

theorem changesSince_unknown {f max : ℕ} (hl : s.journalState.lowerLimit ≤ f)
    (h : s.journalState.last < f) (hmax : 1 ≤ max) :
    s.changesSince f max = .error (.anchorUnknown f s.currentSequence) := by
  unfold Store.changesSince
  rw [if_neg (by omega), if_neg (by omega), if_pos h]
  rfl

theorem sequences_after (hc : Consecutive s) {f : ℕ} (hl : s.journalState.lowerLimit ≤ f)
    (hf : f ≤ s.journalState.last) :
    (after s f).map (·.sequence) = List.range' (f + 1) (s.journalState.last - f) := by
  rw [after, List.map_map, List.map_drop]
  have hseq := hc.sequences
  have hcomp : (fun x : JournalEntry ↦ x.sequence) ∘ toEntry = JournalRow.sequence := rfl
  rw [hcomp, hseq, List.drop_range']
  congr 1 <;> omega

/-- A page of no entries is refused, whatever the anchor. -/
theorem changesSince_zero (s : Store) (f : ℕ) : s.changesSince f 0 = .error .emptyPage := rfl

/-- The journal of every reachable store: which numbers it holds, that they only rise, which
anchors an emptied namespace expires, and what pages lead through it. -/
theorem journal_of_run (unicode : Unicode) (n limit : ℕ) (operations : List Operation)
    (hreopen : ∀ l, .reopen l ∈ operations → l ≤ limit) :
    let s := run unicode (Store.setUp n limit) operations
    (s.journal.rows.map (·.sequence) = List.range' (s.journalState.lowerLimit + 1)
        (s.journalState.last - s.journalState.lowerLimit) ∧
      s.journalState.lowerLimit ≤ s.journalState.last ∧ s.journal.rows.length ≤ limit) ∧
    (∀ operation, s.currentSequence ≤ (perform unicode s operation).currentSequence) ∧
    (∀ before between later emptied f max,
      operations = before ++ between ++ .emptyNamespace :: later →
      HandsOut (run unicode (Store.setUp n limit) before) f →
      (run unicode (Store.setUp n limit) (before ++ between)).emptyNamespace = .ok emptied →
      1 ≤ max → s.changesSince f max = .error (.anchorExpired f s.oldestSequence)) ∧
    ∀ f max, s.journalState.lowerLimit ≤ f → f ≤ s.journalState.last → 1 ≤ max →
      (∃ page, s.changesSince f max = .ok page ∧
        (page.more = true ↔ page.untilSequence < s.currentSequence)) ∧
      (∃ changes, Collected s max f changes) ∧
      ∀ changes, Collected s max f changes →
        changes.map (·.sequence) = List.range' (f + 1) (s.journalState.last - f) := by
  intro s
  have hc : Consecutive s := consecutive_run unicode n limit operations
  have hw : WellFormed unicode s := wellFormed_run (wellFormed_setUp unicode n limit) operations
  refine ⟨⟨hc.sequences, hc.lower_le, (limited_run unicode n hreopen).2⟩,
    fun operation ↦ (advanced_perform hw hc operation).last, ?_, ?_⟩
  · intro before between later emptied f max hops hf hempty hmax
    refine changesSince_expired ?_ hmax
    have hle := (le_of_handsOut (consecutive_run unicode n limit before) hf).trans
      (advanced_run unicode n limit before between).1
    obtain ⟨new, s₁⟩ := emptied
    have hafter : run unicode (Store.setUp n limit) (before ++ between ++ [.emptyNamespace]) =
        s₁ := by
      rw [run_append]
      change (committed _ (Except.map _ _)).2 = s₁
      rw [hempty]
      rfl
    have hlater := (advanced_run unicode n limit (before ++ between ++ [.emptyNamespace]) later).2
    obtain ⟨rfl, hs₁⟩ := emptyNamespace_eq_ok hempty
    rw [hafter, List.append_assoc, List.singleton_append, ← hops, hs₁] at hlater
    exact (Nat.lt_succ_of_le hle).trans_le hlater
  · intro f max hl hf hmax
    refine ⟨⟨_, changesSince_eq hc hl hf hmax, ?_⟩, exists_collected hc hl hf hmax,
      fun changes hchanges ↦ ?_⟩
    · simp only [decide_eq_true_eq, Store.currentSequence]
      omega
    · rw [collected_unique hc hl hf hmax hchanges, sequences_after hc hl hf]

theorem expired_after_emptyNamespace :
    (run ⟨id, id⟩ (Store.setUp 0 10000) [.emptyNamespace]).changesSince 0 5 =
      .error (.anchorExpired 0 2) :=
  (journal_of_run ⟨id, id⟩ 0 10000 [.emptyNamespace] (by simp)).2.2.1 [] [] [] _ 0 5 rfl .current
    rfl (by decide)

/-- An anchor in range with a page of no entries. -/
theorem emptyPage_of_setUp : ¬ ∀ (unicode : Unicode) (n limit : ℕ) (operations : List Operation)
    (f max : ℕ), (run unicode (Store.setUp n limit) operations).journalState.lowerLimit ≤ f →
      f ≤ (run unicode (Store.setUp n limit) operations).journalState.last →
      ∃ page, (run unicode (Store.setUp n limit) operations).changesSince f max = .ok page := by
  intro h
  obtain ⟨page, hpage⟩ := h ⟨id, id⟩ 0 10000 [] 0 0 (Nat.le_refl 0) (Nat.le_refl 0)
  rw [changesSince_zero] at hpage
  cases hpage

end FolderClient.Storage.AnchorRuns
