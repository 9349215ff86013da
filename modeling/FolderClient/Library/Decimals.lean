import Mathlib.Data.List.DropRight
import Mathlib.Tactic.Linarith
import Mathlib.Tactic.Ring
import FolderClient.Library.JsonText

namespace FolderClient.Library.Decimals

open FolderClient.Library.JsonText

variable {s s' i : ℕ} {j j' : ℤ}

theorem digits_toDigits (n : ℕ) : Digits (Nat.toDigits 10 n) :=
  ⟨Nat.toDigits_ne_nil, fun _ ↦ Nat.isDigit_of_mem_toDigits (by decide) (by decide)⟩

theorem naturalOf_toDigits (n : ℕ) : naturalOf (Nat.toDigits 10 n) = n :=
  Nat.ofDigitChars_ten_toDigits

theorem toDigits_shift (hs : 0 < s) (i : ℕ) :
    Nat.toDigits 10 (s * 10 ^ i) = Nat.toDigits 10 s ++ List.replicate i '0' := by
  induction i with
  | zero => rw [Nat.pow_zero, Nat.mul_one, List.replicate_zero, List.append_nil]
  | succ i ih =>
    have hpos : 0 < s * 10 ^ i := Nat.mul_pos hs (Nat.pow_pos (by decide))
    have hstep := Nat.toDigits_append_toDigits (by decide : 1 < 10) hpos (by decide : 0 < 10)
    rw [Nat.add_zero, ih, Nat.toDigits_zero] at hstep
    rw [Nat.pow_succ', Nat.mul_left_comm, ← hstep, List.append_assoc, ← List.replicate_succ']

theorem naturalOf_append (l m : List Char) :
    naturalOf (l ++ m) = Nat.ofDigitChars 10 m (naturalOf l) :=
  Nat.ofDigitChars_append 0

theorem naturalOf_shift (l : List Char) (i : ℕ) :
    naturalOf (l ++ List.replicate i '0') = naturalOf l * 10 ^ i := by
  induction i with
  | zero => rw [Nat.pow_zero, Nat.mul_one, List.replicate_zero, List.append_nil]
  | succ i ih =>
    have hzero : Nat.ofDigitChars 10 ['0'] (naturalOf l * 10 ^ i) = 10 * (naturalOf l * 10 ^ i) :=
      rfl
    rw [List.replicate_succ', ← List.append_assoc, naturalOf_append, ih, hzero]
    ring

theorem naturalOf_zeroes (i : ℕ) (l : List Char) :
    naturalOf (List.replicate i '0' ++ l) = naturalOf l := by
  induction i with
  | zero => rfl
  | succ i ih => exact ih

theorem digitChar_ne_zero : ∀ n < 10, n ≠ 0 → Nat.digitChar n ≠ '0' := by decide

theorem head_toDigits (n : ℕ) : 0 < n → (Nat.toDigits 10 n).head? ≠ some '0' := by
  induction n using Nat.strong_induction_on with
  | h n ih =>
    intro hn
    rw [Nat.toDigits_eq_if (by decide)]
    split
    · rename_i hlt
      exact fun heq ↦ digitChar_ne_zero n hlt hn.ne' (Option.some.inj heq)
    · rename_i hge
      have hdiv : 0 < n / 10 := Nat.div_pos (not_lt.mp hge) (by decide)
      have hhead := ih (n / 10) (Nat.div_lt_self hn (by decide)) hdiv
      rwa [List.head?_append_of_ne_nil _ Nat.toDigits_ne_nil]

/-- Without zeroes at the end, the digits of a number stay. -/
theorem trim_toDigits (hs : 0 < s) (h : ¬ 10 ∣ s) (i : ℕ) :
    (Nat.toDigits 10 (s * 10 ^ i)).rdropWhile (· = '0') = Nat.toDigits 10 s := by
  have hlast : (Nat.toDigits 10 s).rdropWhile (· = '0') = Nat.toDigits 10 s := by
    rw [Nat.toDigits_eq_if (by decide)]
    split
    · rename_i hlt
      rw [← List.nil_append [Nat.digitChar s], List.rdropWhile_concat_neg]
      simpa using digitChar_ne_zero s hlt hs.ne'
    · rw [List.rdropWhile_concat_neg]
      simpa using digitChar_ne_zero (s % 10) (Nat.mod_lt _ (by decide))
        fun h0 ↦ h (Nat.dvd_of_mod_eq_zero h0)
  rw [toDigits_shift hs]
  induction i with
  | zero => rwa [List.replicate_zero, List.append_nil]
  | succ i ih =>
    rw [List.replicate_succ', ← List.append_assoc, List.rdropWhile_concat_pos _ _ _ (by decide)]
    exact ih

theorem length_toDigits_shift (hs : 0 < s) (i : ℕ) :
    (Nat.toDigits 10 (s * 10 ^ i)).length = (Nat.toDigits 10 s).length + i := by
  rw [toDigits_shift hs, List.length_append, List.length_replicate]

/-- A positive number is a number without zeroes at the end, shifted. -/
theorem exists_trimmed {m : ℕ} (hm : 0 < m) : ∃ s i, 0 < s ∧ ¬ 10 ∣ s ∧ m = s * 10 ^ i := by
  induction m using Nat.strong_induction_on with
  | h m ih =>
    by_cases hdvd : 10 ∣ m
    · obtain ⟨n, rfl⟩ := hdvd
      obtain ⟨s, i, hs, hnot, rfl⟩ := ih n (by omega) (by omega)
      exact ⟨s, i + 1, hs, hnot, by ring⟩
    · exact ⟨m, 0, hm, hdvd, by ring⟩

/-- Without zeroes at the end, the digits and the power of ten are those of the number alone. -/
theorem trimmed_unique (hs : ¬ 10 ∣ s) (hs' : ¬ 10 ∣ s')
    (h : (s : ℚ) * 10 ^ j = s' * 10 ^ j') : s = s' ∧ j = j' := by
  wlog hle : j ≤ j' generalizing s s' j j'
  · obtain ⟨rfl, rfl⟩ := this hs' hs h.symm (by omega)
    exact ⟨rfl, rfl⟩
  obtain ⟨i, hi⟩ := Int.eq_ofNat_of_zero_le (sub_nonneg.mpr hle)
  have hj : j' = i + j := by omega
  have hpos : (0 : ℚ) < 10 ^ j := zpow_pos (by decide) j
  rw [hj, zpow_add₀ (by decide), zpow_natCast, ← mul_assoc] at h
  have heq : s = s' * 10 ^ i := by exact_mod_cast mul_right_cancel₀ hpos.ne' h
  cases i with
  | zero => exact ⟨by rw [heq, Nat.pow_zero, Nat.mul_one], by omega⟩
  | succ i => exact absurd ⟨s' * 10 ^ i, by rw [heq]; ring⟩ hs

end FolderClient.Library.Decimals
