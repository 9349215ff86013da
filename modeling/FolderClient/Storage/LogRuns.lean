import FolderClient.Library.Results
import FolderClient.Storage.Log
import Mathlib

namespace FolderClient.Storage.LogRuns

open FolderClient.Core.Log FolderClient.Core.Namespace FolderClient.Library.Results
open FolderClient.Storage.Basic

/-- One page of the log, newest row first, and the number before which the next page begins. -/
structure LogPage where
  rows : List LogRow
  moreBefore : Option ℕ

/-- The rows of an account before a number, newest first. -/
def rowsBefore (s : Store) (account : Option Account) (before : Option ℕ) : List LogRow :=
  (s.log.filter fun row ↦ row.account = account ∧ ∀ b ∈ before, row.number < b).mergeSort
    fun row row' ↦ row'.number ≤ row.number

/-- One page of an account's rows; one row more is read, to know whether it goes on. -/
def logPage (s : Store) (account : Option Account) (before : Option ℕ) (max : ℕ) :
    Except StoreError LogPage :=
  if max = 0 then .error .emptyPage
  else do
    let before ← before.mapM (Store.fromU64 · "before")
    let limit := min (max + 1) (2 ^ 63 - 1)
    let rows := (rowsBefore s account before).take limit
    if max < rows.length then
      return ⟨rows.take max, (rows.take max).getLast?.map LogRow.number⟩
    else return ⟨rows, none⟩

/-- What page after page of the log shows, from a number on, while there is more. -/
inductive Read (s : Store) (account : Option Account) (max : ℕ) : Option ℕ → List LogRow → Prop
  | last {before : Option ℕ} {page : LogPage} : logPage s account before max = .ok page →
      page.moreBefore = none → Read s account max before page.rows
  | more {before : Option ℕ} {page : LogPage} {b : ℕ} {rest : List LogRow} :
      logPage s account before max = .ok page → page.moreBefore = some b →
      Read s account max (some b) rest → Read s account max before (page.rows ++ rest)

/-- Rows carry rising numbers, none above the last one handed out, which is a signed number of 64
bits. -/
structure Numbered (s : Store) : Prop where
  rising : s.log.Pairwise fun row row' ↦ row.number < row'.number
  range : ∀ row ∈ s.log, 1 ≤ row.number ∧ row.number ≤ s.lastLog
  last : s.lastLog < 2 ^ 63

section Pages

variable {s : Store} {account : Option Account} {before : Option ℕ} {max : ℕ}

theorem perm_rowsBefore : (rowsBefore s account before).Perm
    (s.log.filter fun row ↦ row.account = account ∧ ∀ b ∈ before, row.number < b) :=
  List.mergeSort_perm _ _

theorem mem_rowsBefore {row : LogRow} : row ∈ rowsBefore s account before ↔
    row ∈ s.log ∧ row.account = account ∧ ∀ b ∈ before, row.number < b := by
  rw [perm_rowsBefore.mem_iff, List.mem_filter, decide_eq_true_eq]

/-- The rows come newest first, each once. -/
theorem falling_rowsBefore (h : Numbered s) :
    (rowsBefore s account before).Pairwise fun row row' ↦ row'.number < row.number := by
  have hsorted : (rowsBefore s account before).Pairwise fun row row' ↦
      decide (row'.number ≤ row.number) = true := by
    refine List.pairwise_mergeSort (fun a b c hab hbc ↦ ?_) (fun a b ↦ ?_) _
    · rw [decide_eq_true_eq] at *
      exact hbc.trans hab
    · rw [Bool.or_eq_true, decide_eq_true_eq, decide_eq_true_eq]
      exact Nat.le_total _ _
  have hdistinct : (rowsBefore s account before).Pairwise fun row row' ↦
      row.number ≠ row'.number := by
    refine (perm_rowsBefore.pairwise_iff fun h ↦ h.symm).mpr ?_
    exact (h.rising.imp fun hlt ↦ hlt.ne).filter _
  refine (hsorted.and hdistinct).imp fun hrows ↦ ?_
  exact (of_decide_eq_true hrows.1).lt_of_ne hrows.2.symm

theorem length_rowsBefore (h : Numbered s) :
    (rowsBefore s account before).length ≤ 2 ^ 63 - 1 := by
  have hnodup : (s.log.map LogRow.number).Nodup :=
    List.pairwise_map.mpr (h.rising.imp fun hlt ↦ hlt.ne)
  have hsub : (s.log.map LogRow.number).toFinset ⊆ Finset.Icc 1 s.lastLog := by
    intro number hmem
    obtain ⟨row, hrow, rfl⟩ := List.mem_map.mp (List.mem_toFinset.mp hmem)
    exact Finset.mem_Icc.mpr (h.range row hrow)
  have hcard := Finset.card_le_card hsub
  rw [List.toFinset_card_of_nodup hnodup, List.length_map, Nat.card_Icc] at hcard
  have hfilter := (@perm_rowsBefore s account before).length_eq
  have hle := List.length_filter_le
    (fun row ↦ decide (row.account = account ∧ ∀ b ∈ before, row.number < b)) s.log
  have hlast := h.last
  omega

/-- The rows before a number are those of the whole log that are before it, in the same order. -/
theorem rowsBefore_some (h : Numbered s) (b : ℕ) : rowsBefore s account (some b) =
    (rowsBefore s account none).filter (·.number < b) := by
  refine List.Perm.eq_of_pairwise (fun row row' _ _ hlt hlt' ↦ absurd hlt hlt'.asymm)
    (falling_rowsBefore h) ((falling_rowsBefore h).filter _) ?_
  refine perm_rowsBefore.trans (.trans ?_ (perm_rowsBefore.filter _).symm)
  rw [List.filter_filter]
  refine .of_eq (List.filter_congr fun row _ ↦ ?_)
  simp [Bool.and_comm]

/-- In falling rows, those before the number of one of them are those behind it. -/
theorem filter_behind {front rest : List LogRow} {row : LogRow}
    (h : (front ++ row :: rest).Pairwise fun row row' ↦ row'.number < row.number) :
    (front ++ row :: rest).filter (·.number < row.number) = rest := by
  obtain ⟨-, hrest, hfront⟩ := List.pairwise_append.mp h
  have hdrop : front.filter (·.number < row.number) = [] := by
    refine List.filter_eq_nil_iff.mpr fun r hr ↦ ?_
    have hlt := hfront r hr row List.mem_cons_self
    simpa using hlt.le
  have hkeep : rest.filter (·.number < row.number) = rest :=
    List.filter_eq_self.mpr fun r hr ↦ decide_eq_true (List.rel_of_pairwise_cons hrest hr)
  rw [List.filter_append, hdrop, List.filter_cons_of_neg (by simp), hkeep, List.nil_append]

theorem logPage_eq (h : Numbered s) (hbefore : ∀ b ∈ before, b < 2 ^ 63) (hmax : 0 < max) :
    logPage s account before max =
      .ok (if max < (rowsBefore s account before).length then
        ⟨(rowsBefore s account before).take max,
          ((rowsBefore s account before).take max).getLast?.map LogRow.number⟩
      else ⟨rowsBefore s account before, none⟩) := by
  have hread : before.mapM (Store.fromU64 · "before") = .ok before := by
    cases before with
    | none => rfl
    | some b =>
      change (Store.fromU64 b "before" >>= fun b ↦ pure (some b)) = _
      rw [Store.fromU64, if_pos (hbefore b rfl)]
      rfl
  have hlength := @length_rowsBefore s account before h
  unfold logPage
  rw [if_neg hmax.ne', hread]
  change (if max < ((rowsBefore s account before).take (min (max + 1) (2 ^ 63 - 1))).length then
    pure _ else pure _) = _
  rw [List.length_take]
  by_cases hmore : max < (rowsBefore s account before).length
  · rw [if_pos (by omega), if_pos hmore, List.take_take, Nat.min_eq_left (by omega)]
    rfl
  · rw [if_neg (by omega), if_neg hmore, List.take_of_length_le (by omega)]
    rfl

/-- A page that is not the last ends with the row before which the next one begins. -/
theorem rowsBefore_next (h : Numbered s) (hmax : 0 < max)
    (hmore : max < (rowsBefore s account before).length) :
    ∃ row, ((rowsBefore s account before).take max).getLast? = some row ∧ row.number < 2 ^ 63 ∧
      rowsBefore s account (some row.number) = (rowsBefore s account before).drop max := by
  have hne : (rowsBefore s account before).take max ≠ [] := by
    rw [Ne, List.take_eq_nil_iff]
    rintro (hzero | hnil)
    · omega
    · rw [hnil] at hmore
      exact absurd hmore (Nat.not_lt_zero _)
  obtain ⟨front, row, hfront⟩ := List.eq_nil_or_concat' _ |>.resolve_left hne
  have hsplit : rowsBefore s account before =
      front ++ row :: (rowsBefore s account before).drop max := by
    rw [List.append_cons, ← hfront, List.take_append_drop]
  have hmem : row ∈ rowsBefore s account before := by
    rw [hsplit]
    exact List.mem_append_right _ List.mem_cons_self
  obtain ⟨hrow, -, hbefore⟩ := mem_rowsBefore.mp hmem
  refine ⟨row, by rw [hfront, List.getLast?_concat], ?_, ?_⟩
  · exact (h.range row hrow).2.trans_lt h.last
  · have hfalling := @falling_rowsBefore s account before h
    rw [hsplit] at hfalling
    have hbehind := filter_behind hfalling
    rw [← hsplit] at hbehind
    rw [← hbehind]
    cases before with
    | none => exact rowsBefore_some h row.number
    | some b =>
      rw [rowsBefore_some h, rowsBefore_some h b, List.filter_filter]
      refine List.filter_congr fun r _ ↦ ?_
      have hb : row.number < b := hbefore b rfl
      by_cases hr : r.number < row.number
      · simp [hr, hr.trans hb]
      · simp [hr]

theorem read_unique (h : Numbered s) (hmax : 0 < max) (hbefore : ∀ b ∈ before, b < 2 ^ 63)
    {rows : List LogRow} (hread : Read s account max before rows) :
    rows = rowsBefore s account before := by
  induction hread with
  | last hpage hend =>
    rw [logPage_eq h hbefore hmax] at hpage
    cases hpage
    split at hend
    · rename_i hmore
      obtain ⟨row, hrow, -⟩ := rowsBefore_next h hmax hmore
      rw [hrow] at hend
      cases hend
    · rename_i hmore
      rw [if_neg hmore]
  | more hpage hnext _ ih =>
    rw [logPage_eq h hbefore hmax] at hpage
    cases hpage
    split at hnext
    · rename_i hmore
      obtain ⟨row, hrow, hlt, hrest⟩ := rowsBefore_next h hmax hmore
      rw [hrow] at hnext
      cases hnext
      rw [ih fun b hb ↦ Option.some.inj hb ▸ hlt, hrest, if_pos hmore, List.take_append_drop]
    · cases hnext

theorem exists_read (h : Numbered s) (hmax : 0 < max) (hbefore : ∀ b ∈ before, b < 2 ^ 63) :
    ∃ rows, Read s account max before rows := by
  induction hn : (rowsBefore s account before).length using Nat.strong_induction_on
    generalizing before with
  | _ n ih =>
    have hpage := @logPage_eq s account before max h hbefore hmax
    by_cases hmore : max < (rowsBefore s account before).length
    · obtain ⟨row, hrow, hlt, hrest⟩ := rowsBefore_next h hmax hmore
      have hshorter : (rowsBefore s account (some row.number)).length < n := by
        rw [hrest, List.length_drop]
        omega
      obtain ⟨rest, hread⟩ := ih _ hshorter (fun b hb ↦ Option.some.inj hb ▸ hlt) rfl
      rw [if_pos hmore, hrow] at hpage
      exact ⟨_, .more hpage rfl hread⟩
    · rw [if_neg hmore] at hpage
      exact ⟨_, .last hpage rfl⟩

end Pages

section Appends

variable {s : Store} {account a : Option Account} {entry : LogEntry}

/-- A row that is refused leaves the store as it is. -/
def append (s : Store) (row : Option Account × LogEntry) : Store :=
  match s.appendLog row.1 row.2 with
  | .ok (_, s) => s
  | .error _ => s

/-- The rows that are accepted, with the numbers they get. -/
def accepted (s : Store) : List (Option Account × LogEntry) → List LogRow
  | [] => []
  | row :: rest =>
    match s.appendLog row.1 row.2 with
    | .ok (number, s) => ⟨number, row.1, row.2⟩ :: accepted s rest
    | .error _ => accepted s rest

def of (account : Option Account) (rows : List LogRow) : List LogRow :=
  rows.filter fun row ↦ row.account = account

/-- No account has more rows than are kept. -/
def Trimmed (s : Store) : Prop := ∀ account, (of account s.log).length ≤ s.logPerAccount

theorem of_append (account : Option Account) (rows rows' : List LogRow) :
    of account (rows ++ rows') = of account rows ++ of account rows' := List.filter_append ..

/-- Of rows that are all different, those among the newest are the newest. -/
theorem filter_newest {rows : List LogRow} (h : rows.Nodup) (n : ℕ) :
    rows.filter (· ∈ rows.reverse.take n) = rows.rtake n := by
  have hmem : ∀ row, row ∈ rows.reverse.take n ↔ row ∈ rows.rtake n := by
    intro row
    rw [List.rtake_eq_reverse_take_reverse, List.mem_reverse]
  simp only [hmem]
  rw [List.rtake]
  generalize rows.length - n = k
  have hsplit := List.take_append_drop k rows
  have hnodup := h
  rw [← hsplit] at hnodup
  have hapart := List.disjoint_of_nodup_append hnodup
  have htake : (rows.take k).filter (· ∈ rows.drop k) = [] :=
    List.filter_eq_nil_iff.mpr fun row hrow hin ↦ hapart hrow (of_decide_eq_true hin)
  have hdrop : (rows.drop k).filter (· ∈ rows.drop k) = rows.drop k :=
    List.filter_eq_self.mpr fun row hrow ↦ decide_eq_true hrow
  calc rows.filter (· ∈ rows.drop k)
      = (rows.take k ++ rows.drop k).filter (· ∈ rows.drop k) := by rw [hsplit]
    _ = rows.drop k := by rw [List.filter_append, htake, hdrop, List.nil_append]

theorem of_trimLog (h : s.log.Nodup) : of a (s.trimLog account).log =
    if a = account then (of a s.log).rtake s.logPerAccount else of a s.log := by
  unfold Store.trimLog of
  rw [List.filter_filter]
  split
  · rename_i heq
    subst heq
    rw [← filter_newest (h.filter _), List.filter_filter]
    refine List.filter_congr fun row _ ↦ ?_
    by_cases hrow : row.account = a
    · simp [hrow]
    · simp [hrow]
  · rename_i hne
    refine List.filter_congr fun row _ ↦ ?_
    by_cases hrow : row.account = a
    · simp [hrow, hne]
    · simp [hrow]

theorem rtake_append (rows rows' : List LogRow) (n : ℕ) :
    (rows.rtake n ++ rows').rtake n = (rows ++ rows').rtake n := by
  simp only [List.rtake_eq_reverse_take_reverse, List.reverse_append, List.reverse_reverse]
  rw [List.take_append, List.take_append, List.take_take, Nat.min_eq_left (Nat.sub_le _ _)]

theorem nodup_log (h : s.log.Pairwise fun row row' ↦ row.number < row'.number) : s.log.Nodup :=
  h.imp fun hlt heq ↦ hlt.ne (congrArg LogRow.number heq)

theorem rtake_of_length_le {rows : List LogRow} {n : ℕ} (h : rows.length ≤ n) :
    rows.rtake n = rows := by
  rw [List.rtake, Nat.sub_eq_zero_of_le h]
  rfl

/-- The numbers rise, and the last one is the largest. -/
def Rising (s : Store) : Prop :=
  (s.log.Pairwise fun row row' ↦ row.number < row'.number) ∧ ∀ row ∈ s.log, row.number ≤ s.lastLog

/-- An accepted row is put behind the others, and only its account is trimmed. -/
theorem appendLog_step (hr : Rising s) (ht : Trimmed s) {number : ℕ} {s' : Store}
    (h : s.appendLog account entry = .ok (number, s')) :
    number = s.lastLog + 1 ∧ Rising s' ∧ s'.logPerAccount = s.logPerAccount ∧ ∀ a,
      of a s'.log = (of a (s.log ++ [⟨number, account, entry⟩])).rtake s.logPerAccount := by
  obtain rfl : number = s.lastLog + 1 := by
    unfold Store.appendLog at h
    rw [ite_error_eq_ok] at h
    exact (Prod.mk.inj (Except.ok.inj h.2)).1.symm
  obtain rfl := Storage.Log.appendLog_eq_ok h
  have hgrown : (s.log ++ [(⟨s.lastLog + 1, account, entry⟩ : LogRow)]).Pairwise
      fun row row' ↦ row.number < row'.number := by
    apply List.pairwise_append.mpr
    refine ⟨hr.1, List.pairwise_singleton _ _, fun row hrow row' hrow' ↦ ?_⟩
    rw [List.mem_singleton.mp hrow']
    exact Nat.lt_succ_of_le (hr.2 row hrow)
  refine ⟨rfl, ⟨hgrown.filter _, fun row hrow ↦ ?_⟩, rfl, fun a ↦ ?_⟩
  · rcases List.mem_append.mp (List.mem_filter.mp hrow).1 with hold | hnew
    · exact (hr.2 row hold).trans (Nat.le_succ _)
    · rw [List.mem_singleton.mp hnew]
      exact Nat.le_refl _
  · rw [of_trimLog (nodup_log hgrown)]
    split
    · rfl
    · rename_i hne
      have hnone : of a [(⟨s.lastLog + 1, account, entry⟩ : LogRow)] = [] :=
        List.filter_eq_nil_iff.mpr fun row hrow ↦ by
          rw [List.mem_singleton.mp hrow, decide_eq_true_eq]
          exact fun heq ↦ hne heq.symm
      dsimp only
      rw [of_append, hnone, List.append_nil, rtake_of_length_le (ht a)]

theorem length_rtake_le (rows : List LogRow) (n : ℕ) : (rows.rtake n).length ≤ n := by
  rw [List.rtake, List.length_drop]
  omega

/-- After any appends each account has the newest of its rows, as many as are kept. -/
theorem of_appends (appends : List (Option Account × LogEntry)) (s : Store) (hr : Rising s)
    (ht : Trimmed s) : Rising (appends.foldl append s) ∧ ∀ a, of a (appends.foldl append s).log =
      (of a (s.log ++ accepted s appends)).rtake s.logPerAccount := by
  induction appends generalizing s with
  | nil =>
    refine ⟨hr, fun a ↦ ?_⟩
    rw [accepted, List.append_nil, rtake_of_length_le (ht a)]
    rfl
  | cons row rest ih =>
    obtain ⟨account, entry⟩ := row
    rw [List.foldl_cons, append, accepted]
    cases happend : s.appendLog account entry with
    | error error => exact ih s hr ht
    | ok outcome =>
      obtain ⟨number, s'⟩ := outcome
      obtain ⟨-, hr', hlimit, hrows⟩ := appendLog_step hr ht happend
      have ht' : Trimmed s' := by
        intro a
        rw [hrows, hlimit]
        exact length_rtake_le _ _
      obtain ⟨hrising, hrest⟩ := ih s' hr' ht'
      refine ⟨hrising, fun a ↦ ?_⟩
      dsimp only
      rw [hrest, hlimit, of_append, hrows, rtake_append, ← of_append, List.append_assoc]
      rfl

end Appends

/-- The log shown page after page is every row of the account, once each, newest first; and after
any appends each account has the newest of its rows, as many as are kept. -/
theorem log_pages (s : Store) (h : Numbered s) :
    (∀ account max, 0 < max → (∃ rows, Read s account max none rows) ∧
      ∀ rows, Read s account max none rows → rows.Perm (of account s.log) ∧
        rows.Pairwise fun row row' ↦ row'.number < row.number) ∧
    (∀ account before, logPage s account before 0 = .error .emptyPage) ∧
    (Trimmed s → ∀ appends account, of account (appends.foldl append s).log =
      (of account (s.log ++ accepted s appends)).rtake s.logPerAccount) := by
  have hnone : ∀ b ∈ (none : Option ℕ), b < 2 ^ 63 := by simp
  refine ⟨fun account max hmax ↦ ⟨exists_read h hmax hnone, fun rows hread ↦ ?_⟩,
    fun account before ↦ rfl, fun ht appends account ↦ ?_⟩
  · rw [read_unique h hmax hnone hread]
    refine ⟨perm_rowsBefore.trans (.of_eq (List.filter_congr fun row _ ↦ ?_)), falling_rowsBefore h⟩
    simp
  · exact (of_appends appends s ⟨h.rising, fun row hrow ↦ (h.range row hrow).2⟩ ht).2 account

theorem numbered_setUp (n limit : ℕ) : Numbered (Store.setUp n limit) :=
  ⟨.nil, fun _ h ↦ absurd h List.not_mem_nil, Nat.two_pow_pos 63⟩

/-- Rows of two accounts and of the device, of which two per account are kept. -/
theorem log_pages_mixed :
    let entry : LogEntry := ⟨.null, .signedIn, none, none, nofun⟩
    let empty : Store := { Store.setUp 0 10 with logPerAccount := 2 }
    let appends := [(none, entry), (some ⟨"a", rfl⟩, entry), (none, entry), (none, entry)]
    (of none (appends.foldl append empty).log).map LogRow.number = [3, 4] := by
  intro entry empty appends
  have hnumbered : Numbered empty := ⟨.nil, fun _ h ↦ absurd h List.not_mem_nil, Nat.two_pow_pos 63⟩
  have htrimmed : Trimmed empty := fun account ↦ Nat.zero_le _
  rw [(log_pages empty hnumbered).2.2 htrimmed appends none]
  rfl

/-- A page without rows is refused, so that no row is shown. -/
theorem no_page : ¬ ∀ s, Numbered s → ∀ account max, ∃ rows, Read s account max none rows := by
  intro h
  obtain ⟨rows, hread⟩ := h _ (numbered_setUp 0 0) none 0
  cases hread with
  | last hpage => cases hpage
  | more hpage => cases hpage

end FolderClient.Storage.LogRuns
