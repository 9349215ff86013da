import Mathlib.Algebra.Order.Floor.Div
import Mathlib.Algebra.Ring.Int.Parity
import Mathlib.Data.Int.Log
import Mathlib.Data.Rat.Floor
import Mathlib.Tactic.Linarith
import Mathlib.Tactic.Positivity
import Mathlib.Tactic.FieldSimp
import Mathlib.Tactic.Ring

namespace FolderClient.Library.Doubles

/-- The bits of infinity; below them are those of the finite magnitudes, in their order. -/
def infinity : ℕ := 2047 * 2 ^ 52

/-- A magnitude in units of the smallest one. From infinity on the exponents just go on. -/
def units (b : ℕ) : ℕ :=
  if b < 2 ^ 52 then b else (2 ^ 52 + b % 2 ^ 52) * 2 ^ (b / 2 ^ 52 - 1)

/-- How many units the next magnitude is away. -/
def gap (b : ℕ) : ℕ := 2 ^ (b / 2 ^ 52 - 1)

/-- The smallest magnitude is two to the minus this. -/
def places : ℕ := 1074

def scale : ℚ := 2 ^ places

def value (b : ℕ) : ℚ := units b / scale

/-- Where the magnitudes begin that are rounded to this one. -/
def lower : ℕ → ℚ
  | 0 => 0
  | b + 1 => (value b + value (b + 1)) / 2

/-- The nearest magnitude is this one; in the middle between two it is the even one. -/
def Reads (q : ℚ) (b : ℕ) : Prop :=
  (lower b < q ∨ lower b = q ∧ Even b) ∧ (q < lower (b + 1) ∨ q = lower (b + 1) ∧ Even b)

instance (q : ℚ) (b : ℕ) : Decidable (Reads q b) := inferInstanceAs (Decidable (_ ∧ _))

section Order

variable {a b c : ℕ} {q r : ℚ}

theorem units_succ (b : ℕ) : units (b + 1) = units b + gap b := by
  rw [units, units, gap]
  split
  · rw [if_pos (by omega), Nat.div_eq_of_lt (by omega), Nat.zero_sub, Nat.pow_zero]
  · split
    · have hb : b + 1 = 2 ^ 52 := by omega
      rw [hb, Nat.div_eq_of_lt (by omega : b < 2 ^ 52)]
      omega
    · by_cases hf : b % 2 ^ 52 = 2 ^ 52 - 1
      · have hdiv : (b + 1) / 2 ^ 52 = b / 2 ^ 52 + 1 := by omega
        have hmod : (b + 1) % 2 ^ 52 = 0 := by omega
        have hpow : 2 ^ (b / 2 ^ 52 + 1 - 1) = 2 * 2 ^ (b / 2 ^ 52 - 1) := by
          rw [← Nat.pow_succ']
          congr 1
          omega
        rw [hdiv, hmod, hf, hpow]
        ring
      · have hdiv : (b + 1) / 2 ^ 52 = b / 2 ^ 52 := by omega
        have hmod : (b + 1) % 2 ^ 52 = b % 2 ^ 52 + 1 := by omega
        rw [hdiv, hmod]
        ring

theorem scale_pos : 0 < scale := pow_pos (by decide) _

theorem gap_pos (b : ℕ) : 0 < gap b := Nat.two_pow_pos _

theorem gap_mono : Monotone gap := fun _ _ h ↦
  Nat.pow_le_pow_right (by decide) (Nat.sub_le_sub_right (Nat.div_le_div_right h) 1)

theorem value_succ (b : ℕ) : value (b + 1) = value b + gap b / scale := by
  rw [value, value, units_succ]
  push_cast
  ring

theorem value_strictMono : StrictMono value := strictMono_nat_of_lt_succ fun b ↦ by
  have hgap : (0 : ℚ) < gap b := by exact_mod_cast gap_pos b
  rw [value_succ]
  exact lt_add_of_pos_right _ (div_pos hgap scale_pos)

theorem value_zero : value 0 = 0 := by
  simp [value, units]

theorem value_pos (h : 0 < b) : 0 < value b := value_zero ▸ value_strictMono h

theorem lower_succ (b : ℕ) : lower (b + 1) = value b + gap b / scale / 2 := by
  rw [lower, value_succ]
  ring

theorem value_lt_lower (b : ℕ) : value b < lower (b + 1) := by
  have h := value_strictMono (Nat.lt_succ_self b)
  rw [lower]
  linarith

theorem lower_le_value (b : ℕ) : lower b ≤ value b := by
  cases b with
  | zero => exact value_zero.ge
  | succ b =>
    have h := value_strictMono (Nat.lt_succ_self b)
    rw [lower]
    linarith

theorem lower_lt_value (h : 0 < b) : lower b < value b := by
  obtain ⟨b, rfl⟩ := Nat.exists_eq_succ_of_ne_zero h.ne'
  have h := value_strictMono (Nat.lt_succ_self b)
  rw [lower]
  linarith

theorem lower_strictMono : StrictMono lower := strictMono_nat_of_lt_succ fun b ↦
  (lower_le_value b).trans_lt (value_lt_lower b)

theorem Reads.lower_le (h : Reads q b) : lower b ≤ q := h.1.elim le_of_lt fun h ↦ h.1.le

theorem Reads.le_lower (h : Reads q b) : q ≤ lower (b + 1) := h.2.elim le_of_lt fun h ↦ h.1.le

theorem reads_of_lt (hl : lower b < q) (hu : q < lower (b + 1)) : Reads q b := ⟨.inl hl, .inl hu⟩

theorem reads_value (b : ℕ) : Reads (value b) b := by
  refine ⟨?_, .inl (value_lt_lower b)⟩
  cases b with
  | zero => exact .inr ⟨value_zero.symm, by decide⟩
  | succ b => exact .inl (lower_lt_value (Nat.succ_pos b))

/-- What is rounded to one magnitude lies without holes. -/
theorem Reads.between {m : ℚ} (hq : Reads q b) (hr : Reads r b) (hm : q ≤ m) (hm' : m ≤ r) :
    Reads m b := by
  constructor
  · obtain h | h := hq.1
    · exact .inl (h.trans_le hm)
    · obtain hm | rfl := hm.lt_or_eq
      · exact .inl (h.1.trans_lt hm)
      · exact .inr h
  · obtain h | h := hr.2
    · exact .inl (hm'.trans_lt h)
    · obtain hm' | rfl := hm'.lt_or_eq
      · exact .inl (hm'.trans_eq h.1)
      · exact .inr h

theorem Reads.mono (hq : Reads q a) (hr : Reads r b) (h : q ≤ r) : a ≤ b := by
  by_contra hlt
  have hle : lower (b + 1) ≤ lower a := lower_strictMono.monotone (Nat.lt_of_not_le hlt)
  have heq : lower (b + 1) = lower a :=
    le_antisymm hle (hq.lower_le.trans (h.trans hr.le_lower))
  have hsucc : b + 1 = a := lower_strictMono.injective heq
  have hqe : lower a = q := le_antisymm hq.lower_le (h.trans (hr.le_lower.trans_eq heq))
  have hre : r = lower (b + 1) := le_antisymm hr.le_lower ((heq.trans hqe).trans_le h)
  have ha : Even a := hq.1.elim (fun hlt ↦ absurd hqe hlt.ne) And.right
  have hb : Even b := hr.2.elim (fun hlt ↦ absurd hre hlt.ne) And.right
  rw [← hsucc] at ha
  exact (Nat.even_add_one.mp ha) hb

theorem Reads.unique (ha : Reads q a) (hb : Reads q b) : a = b :=
  le_antisymm (ha.mono hb le_rfl) (hb.mono ha le_rfl)

theorem Reads.nonneg (h : Reads q b) : 0 ≤ q :=
  (lower_strictMono.monotone (Nat.zero_le b)).trans h.lower_le

end Order

section Nearest

/-- The last number, from a first one on and below `2 ^ n` more, of which `p` holds. -/
def search (p : ℕ → Bool) : ℕ → ℕ → ℕ
  | 0, b => b
  | n + 1, b => search p n (if p (b + 2 ^ n) then b + 2 ^ n else b)

theorem search_spec {p : ℕ → Bool} (hp : ∀ a b, a ≤ b → p b = true → p a = true) {n b : ℕ}
    (hb : p b = true) : p (search p n b) = true ∧ b ≤ search p n b ∧ search p n b < b + 2 ^ n ∧
      ∀ c, search p n b < c → c < b + 2 ^ n → p c = false := by
  induction n generalizing b with
  | zero =>
    refine ⟨hb, le_rfl, by simp [search], fun c hc hc' ↦ ?_⟩
    simp only [search, Nat.pow_zero] at hc hc'
    omega
  | succ n ih =>
    have hpow : 2 ^ (n + 1) = 2 ^ n + 2 ^ n := by ring
    rw [search]
    split
    · rename_i hstep
      obtain ⟨hr, hle, hlt, hlast⟩ := ih hstep
      exact ⟨hr, by omega, by omega, fun c hc hc' ↦ hlast c hc (by omega)⟩
    · rename_i hstep
      obtain ⟨hr, hle, hlt, hlast⟩ := ih hb
      refine ⟨hr, hle, by omega, fun c hc hc' ↦ ?_⟩
      by_cases hin : c < b + 2 ^ n
      · exact hlast c hc hin
      · rw [← Bool.not_eq_true]
        exact fun hc ↦ hstep (hp _ _ (Nat.le_of_not_lt hin) hc)

/-- The finite magnitude a number is rounded to. -/
def nearest (q : ℚ) : Option ℕ :=
  let b := search (fun b ↦ lower b ≤ q) 63 0
  let b := if Reads q b then b else b - 1
  if b < infinity then some b else none

variable {q : ℚ} {b : ℕ}

/-- The last magnitude that begins no later is the nearest, or the one after it. -/
theorem reads_or_reads {b : ℕ} (hl : lower b ≤ q) (hu : q < lower (b + 1)) :
    Reads q b ∨ 0 < b ∧ ¬ Reads q b ∧ Reads q (b - 1) := by
  obtain hl | hl := hl.lt_or_eq
  · exact .inl (reads_of_lt hl hu)
  · by_cases he : Even b
    · exact .inl ⟨.inr ⟨hl, he⟩, .inl hu⟩
    · cases b with
      | zero => exact absurd (by decide) he
      | succ b =>
        refine .inr ⟨Nat.succ_pos b, fun h ↦ ?_, ?_⟩
        · exact h.1.elim (fun hlt ↦ hlt.ne hl) fun h ↦ he h.2
        · refine ⟨.inl ?_, .inr ⟨hl.symm, ?_⟩⟩
          · exact hl ▸ lower_strictMono (Nat.lt_succ_self b)
          · rwa [Nat.even_add_one, not_not] at he

theorem nearest_eq_some_iff (hq : 0 ≤ q) :
    nearest q = some b ↔ b < infinity ∧ Reads q b := by
  have hinf : infinity + 2 < 2 ^ 63 := by decide
  obtain ⟨hr, -, hlt, hlast⟩ := @search_spec (fun b ↦ lower b ≤ q)
    (fun a b hab hb ↦ by
      simp only [decide_eq_true_eq] at hb ⊢
      exact (lower_strictMono.monotone hab).trans hb) 63 0 (decide_eq_true hq)
  rw [nearest]
  generalize search (fun b ↦ lower b ≤ q) 63 0 = r at hr hlt hlast
  simp only [decide_eq_true_eq, Nat.zero_add, decide_eq_false_iff_not, not_le] at hr hlt hlast
  by_cases hend : r + 1 < 2 ^ 63
  · have hreads : Reads q (if Reads q r then r else r - 1) := by
      obtain h | ⟨-, hn, h⟩ := reads_or_reads hr (hlast (r + 1) (Nat.lt_succ_self r) hend)
      · rwa [if_pos h]
      · rwa [if_neg hn]
    generalize (if Reads q r then r else r - 1) = c at hreads
    constructor
    · intro h
      split at h
      · rename_i hc
        obtain rfl := Option.some.inj h
        exact ⟨hc, hreads⟩
      · cases h
    · rintro ⟨hb, h⟩
      obtain rfl := hreads.unique h
      exact if_pos hb
  · have hlarge : ¬ (if Reads q r then r else r - 1) < infinity := by
      split <;> omega
    rw [if_neg hlarge]
    refine ⟨nofun, fun ⟨hb, h⟩ ↦ ?_⟩
    have hle : lower (b + 1) < lower r := lower_strictMono (by omega)
    exact absurd h.le_lower (not_le_of_gt (hle.trans_le hr))

theorem nearest_value (h : b < infinity) : nearest (value b) = some b :=
  (nearest_eq_some_iff (reads_value b).nonneg).mpr ⟨h, reads_value b⟩

end Nearest

section Digits

/-- Exact rounding to a whole number; in the middle to the even one. -/
def roundEven (q : ℚ) : ℤ :=
  if q - ⌊q⌋ < 1 / 2 ∨ q - ⌊q⌋ = 1 / 2 ∧ Even ⌊q⌋ then ⌊q⌋ else ⌊q⌋ + 1

theorem abs_sub_roundEven (q : ℚ) : |q - roundEven q| ≤ 1 / 2 := by
  have hl := Int.floor_le q
  have hu := Int.lt_floor_add_one q
  rw [roundEven, abs_le]
  split
  · rename_i h
    have hle : q - ⌊q⌋ ≤ 1 / 2 := h.elim le_of_lt fun h ↦ h.1.le
    constructor <;> linarith
  · rename_i h
    have hle : 1 / 2 ≤ q - ⌊q⌋ := not_lt.mp fun hlt ↦ h (.inl hlt)
    push_cast
    constructor <;> linarith

/-- No whole number is nearer. -/
theorem abs_sub_roundEven_le (q : ℚ) (m : ℤ) : |q - roundEven q| ≤ |q - m| := by
  by_cases h : m = roundEven q
  · rw [h]
  · have hfar : (1 : ℚ) ≤ |(m : ℚ) - roundEven q| := by
      exact_mod_cast Int.one_le_abs (sub_ne_zero.mpr h)
    have hsum := abs_sub_le (m : ℚ) q (roundEven q)
    rw [abs_sub_comm (m : ℚ) q] at hsum
    linarith [abs_sub_roundEven q]

theorem roundEven_eq {q : ℚ} {m : ℤ} (h : |q - m| < 1 / 2) : roundEven q = m := by
  by_contra hne
  have hfar : (1 : ℚ) ≤ |(roundEven q : ℚ) - m| := by
    exact_mod_cast Int.one_le_abs (sub_ne_zero.mpr hne)
  have hsum := abs_sub_le (roundEven q : ℚ) q m
  rw [abs_sub_comm (roundEven q : ℚ) q] at hsum
  linarith [abs_sub_roundEven q]

/-- The decimal exponent of the leading digit. -/
def decade (b : ℕ) : ℤ := Int.log 10 (value b)

/-- What the last of `k` digits stands for. -/
def quantum (b k : ℕ) : ℚ := 10 ^ (decade b - k + 1)

/-- Some `k` digits read back as the magnitude. -/
def Suffices (b k : ℕ) : Prop :=
  Reads (⌊value b / quantum b k⌋ * quantum b k) b ∨
    Reads ((⌊value b / quantum b k⌋ + 1) * quantum b k) b

instance (b k : ℕ) : Decidable (Suffices b k) := inferInstanceAs (Decidable (_ ∨ _))

/-- How many digits it takes at least. -/
def shortest (b : ℕ) : ℕ :=
  ((List.range (decade b + places + 1).toNat).find? fun k ↦ Suffices b (k + 1)).getD 0 + 1

/-- The magnitude rounded to that many digits, as a whole number of its last digit. -/
def rounded (b : ℕ) : ℤ := roundEven (value b / quantum b (shortest b))

def decimal (b : ℕ) : ℚ := rounded b * quantum b (shortest b)

variable {b k : ℕ}

theorem quantum_pos (b k : ℕ) : 0 < quantum b k := zpow_pos (by decide) _

theorem suffices_iff : Suffices b k ↔ ∃ m : ℤ, Reads (m * quantum b k) b := by
  have hpos := quantum_pos b k
  constructor
  · rintro (h | h)
    · exact ⟨_, h⟩
    · exact ⟨⌊value b / quantum b k⌋ + 1, by push_cast; exact h⟩
  · rintro ⟨m, h⟩
    have hfloor : ⌊value b / quantum b k⌋ * quantum b k ≤ value b :=
      (le_div_iff₀ hpos).mp (Int.floor_le _)
    have hnext : value b ≤ (⌊value b / quantum b k⌋ + 1) * quantum b k :=
      ((div_lt_iff₀ hpos).mp (Int.lt_floor_add_one _)).le
    obtain hm | hm := le_or_gt m ⌊value b / quantum b k⌋
    · refine .inl (h.between (reads_value b) ?_ hfloor)
      exact mul_le_mul_of_nonneg_right (by exact_mod_cast hm) hpos.le
    · refine .inr ((reads_value b).between h hnext ?_)
      exact mul_le_mul_of_nonneg_right (by exact_mod_cast hm) hpos.le

theorem zpow_decade_le (h : 0 < b) : 10 ^ decade b ≤ value b :=
  Int.zpow_log_le_self (by decide) (value_pos h)

theorem lt_zpow_decade (b : ℕ) : value b < 10 ^ (decade b + 1) :=
  Int.lt_zpow_succ_log_self (by decide) _

theorem pow_ten (n : ℕ) : (10 : ℚ) ^ n = 2 ^ n * 5 ^ n := by
  rw [← mul_pow]
  norm_num

/-- With all its digits every magnitude reads back. -/
theorem suffices_all (h : 0 < b) :
    ∃ n : ℕ, n + 1 = decade b + places + 1 ∧ Suffices b (n + 1) := by
  have hunits : (1 : ℚ) ≤ units b := by
    have hpos : 0 < (units b : ℚ) / scale := value_pos h
    have hpos : (0 : ℚ) < units b := (div_pos_iff_of_pos_right scale_pos).mp hpos
    exact_mod_cast hpos
  have hdecade : -(places : ℤ) ≤ decade b := by
    rw [decade, ← Int.zpow_le_iff_le_log (by decide) (value_pos h), value,
      le_div_iff₀ scale_pos, scale, zpow_neg]
    refine le_trans ?_ hunits
    rw [inv_mul_le_one₀ (zpow_pos (by decide) _)]
    exact pow_le_pow_left₀ (by decide) (by decide) places
  obtain ⟨n, hn⟩ := Int.eq_ofNat_of_zero_le (by omega : 0 ≤ decade b + places)
  refine ⟨n, by omega, suffices_iff.mpr ⟨units b * 5 ^ places, ?_⟩⟩
  have hq : quantum b (n + 1) = (10 ^ places : ℚ)⁻¹ := by
    have he : decade b - ((n + 1 : ℕ) : ℤ) + 1 = -(places : ℤ) := by
      push_cast
      omega
    rw [quantum, he, zpow_neg]
    rfl
  have hv : ((units b * 5 ^ places : ℤ) : ℚ) * quantum b (n + 1) = value b := by
    have hfive : (5 ^ places : ℚ) ≠ 0 := pow_ne_zero _ (by decide)
    rw [hq, pow_ten, ← scale, mul_inv, mul_comm scale⁻¹, value, div_eq_mul_inv]
    push_cast
    rw [mul_assoc, mul_inv_cancel_left₀ hfive]
  rw [hv]
  exact reads_value b

theorem shortest_spec (h : 0 < b) :
    Suffices b (shortest b) ∧ ∀ k, 1 ≤ k → Suffices b k → shortest b ≤ k := by
  obtain ⟨n, hn, hall⟩ := suffices_all h
  have hlen : (decade b + places + 1).toNat = n + 1 := by omega
  obtain ⟨m, hm⟩ : ∃ m, (List.range (n + 1)).find? (fun k ↦ Suffices b (k + 1)) = some m := by
    rw [← Option.isSome_iff_exists, List.find?_isSome]
    exact ⟨n, by simp, by simpa using hall⟩
  rw [shortest, hlen, hm, Option.getD_some]
  rw [List.find?_range_eq_some] at hm
  obtain ⟨hsuff, hmem, hfirst⟩ := hm
  refine ⟨by simpa using hsuff, fun k hk hs ↦ ?_⟩
  by_contra hlt
  have hno := hfirst (k - 1) (by omega)
  rw [Nat.sub_add_cancel hk] at hno
  simp [hs] at hno

end Digits

section Decimals

variable {b p k : ℕ} {q : ℚ}

theorem abs_mul_sub {S : ℚ} (hS : 0 < S) (m : ℤ) (x : ℚ) : |m * S - x| = |x / S - m| * S := by
  have h : x - m * S = (x / S - m) * S := by
    rw [sub_mul, div_mul_cancel₀ _ hS.ne']
  rw [abs_sub_comm, h, abs_mul, abs_of_pos hS]

theorem abs_decimal_sub (b : ℕ) : |decimal b - value b| ≤ quantum b (shortest b) / 2 := by
  have hpos := quantum_pos b (shortest b)
  have h := abs_sub_roundEven (value b / quantum b (shortest b))
  rw [decimal, abs_mul_sub hpos, rounded]
  linarith [mul_le_mul_of_nonneg_right h hpos.le]

/-- No other multiple of the last digit is nearer. -/
theorem abs_decimal_sub_le (b : ℕ) (m : ℤ) :
    |decimal b - value b| ≤ |m * quantum b (shortest b) - value b| := by
  have hpos := quantum_pos b (shortest b)
  rw [decimal, abs_mul_sub hpos, abs_mul_sub hpos, rounded]
  exact mul_le_mul_of_nonneg_right (abs_sub_roundEven_le _ m) hpos.le

theorem decimal_eq {m : ℤ}
    (h : |m * quantum b (shortest b) - value b| < quantum b (shortest b) / 2) :
    decimal b = m * quantum b (shortest b) := by
  have hpos := quantum_pos b (shortest b)
  rw [abs_mul_sub hpos] at h
  have hround : rounded b = m := roundEven_eq (lt_of_mul_lt_mul_right (by linarith) hpos.le)
  rw [decimal, hround]

/-- The one multiple of a power of ten that reads back is what the magnitude is rounded to. -/
theorem decimal_eq_of_only {j n : ℤ} (hp : 0 < p) (hj : (10 : ℚ) ^ j ≤ value p)
    (hread : Reads (n * 10 ^ j) p) (hnear : |n * 10 ^ j - value p| < (10 : ℚ) ^ j / 2)
    (honly : ∀ n' : ℤ, Reads (n' * 10 ^ j) p → n' = n) : decimal p = n * 10 ^ j := by
  have hle : j ≤ decade p := (Int.zpow_le_iff_le_log (by decide) (value_pos hp)).mp hj
  obtain ⟨k, hk⟩ := Int.eq_ofNat_of_zero_le (by omega : 0 ≤ decade p - j)
  have hq : quantum p (k + 1) = 10 ^ j := by
    rw [quantum]
    congr 1
    push_cast
    omega
  obtain ⟨hsuff, hfirst⟩ := shortest_spec hp
  have hshort : shortest p ≤ k + 1 :=
    hfirst (k + 1) (Nat.succ_pos k) (suffices_iff.mpr ⟨n, by rwa [hq]⟩)
  obtain ⟨i, hi⟩ := Nat.exists_eq_add_of_le hshort
  have hquantum : quantum p (shortest p) = 10 ^ i * 10 ^ j := by
    rw [quantum, ← zpow_natCast, ← zpow_add₀ (by decide)]
    congr 1
    omega
  obtain ⟨m, hm⟩ := suffices_iff.mp hsuff
  have hmn : m * 10 ^ i = n := by
    refine honly _ ?_
    rw [hquantum, ← mul_assoc] at hm
    push_cast
    exact hm
  have hmul : (n : ℚ) * 10 ^ j = m * quantum p (shortest p) := by
    rw [hquantum, ← hmn, ← mul_assoc]
    push_cast
    rfl
  rw [hmul]
  refine decimal_eq ?_
  rw [← hmul]
  refine hnear.trans_le ?_
  have hone : (1 : ℚ) ≤ 10 ^ i := one_le_pow₀ (by decide)
  have hpos : (0 : ℚ) < 10 ^ j := zpow_pos (by decide) j
  rw [hquantum]
  linarith [mul_le_mul_of_nonneg_right hone hpos.le]

theorem gap_lt (h : gap p < gap (p + 1)) :
    (p + 1) % 2 ^ 52 = 0 ∧ 2 ≤ (p + 1) / 2 ^ 52 ∧ gap (p + 1) = 2 * gap p := by
  rw [gap, gap] at h ⊢
  have hlt := (Nat.pow_lt_pow_iff_right (by decide)).mp h
  have hdiv : (p + 1) / 2 ^ 52 = p / 2 ^ 52 + 1 := by omega
  refine ⟨by omega, by omega, ?_⟩
  rw [← Nat.pow_succ']
  congr 1
  omega

theorem lower_gaps (p : ℕ) : lower (p + 1) = value (p + 1) - gap p / scale / 2 ∧
    lower (p + 1 + 1) = value (p + 1) + gap (p + 1) / scale / 2 ∧
    (gap p : ℚ) / scale ≤ gap (p + 1) / scale := by
  refine ⟨?_, lower_succ _, ?_⟩
  · rw [lower_succ, value_succ]
    ring
  · exact div_le_div_of_nonneg_right (by exact_mod_cast gap_mono (Nat.le_succ p)) scale_pos.le

/-- What is no farther away than a number that reads back, but does not read back itself, lies
below, where the magnitudes are closer. -/
theorem narrow_of_not_reads {c d : ℚ} (hc : Reads c (p + 1))
    (hnear : |d - value (p + 1)| ≤ |c - value (p + 1)|) (h : ¬ Reads d (p + 1)) :
    gap p < gap (p + 1) ∧ d < lower (p + 1) ∧ value (p + 1) < c := by
  obtain ⟨hl, hu, hgap⟩ := lower_gaps p
  have hx := reads_value (p + 1)
  have hlx := lower_lt_value (Nat.succ_pos p)
  have habove : value (p + 1) < c := by
    by_contra hle
    rw [abs_of_nonpos (sub_nonpos.mpr (not_lt.mp hle))] at hnear
    obtain ⟨hd, hd'⟩ := abs_le.mp hnear
    obtain hd'' | hd'' := le_or_gt d (value (p + 1))
    · exact h (hc.between hx (by linarith) hd'')
    · have hcl := hc.lower_le
      obtain hlt | hge := lt_or_ge d (lower (p + 1 + 1))
      · exact h (reads_of_lt (hlx.trans hd'') hlt)
      · have hcl' : c = lower (p + 1) := by linarith
        have he : Even (p + 1) := hc.1.elim (fun hlt ↦ absurd hcl'.symm hlt.ne) And.right
        exact h ⟨.inl (hlx.trans hd''), .inr ⟨by linarith, he⟩⟩
  rw [abs_of_pos (sub_pos.mpr habove)] at hnear
  obtain ⟨hd, hd'⟩ := abs_le.mp hnear
  have hbelow : d < value (p + 1) := by
    by_contra hle
    exact h (hx.between hc (not_lt.mp hle) (by linarith))
  have hdl : d ≤ lower (p + 1) := by
    by_contra hlt
    exact h (reads_of_lt (not_le.mp hlt) (hbelow.trans (value_lt_lower (p + 1))))
  have hcu := hc.le_lower
  have hwide : gap p < gap (p + 1) := by
    refine lt_of_le_of_ne (gap_mono (Nat.le_succ p)) fun heq ↦ ?_
    rw [← heq] at hu
    have hcu' : c = lower (p + 1 + 1) := by linarith
    have he : Even (p + 1) := hc.2.elim (fun hlt ↦ absurd hcu' hlt.ne) And.right
    exact h ⟨.inr ⟨by linarith, he⟩, .inl (hbelow.trans (value_lt_lower (p + 1)))⟩
  refine ⟨hwide, lt_of_le_of_ne hdl fun heq ↦ h ⟨.inr ⟨heq.symm, ?_⟩, ?_⟩, habove⟩
  · exact (Nat.even_iff.mpr (by have := (gap_lt hwide).1; omega))
  · exact .inl (hbelow.trans (value_lt_lower (p + 1)))

/-- Where the nearest number of so many digits is not read back, the magnitude is a power of two,
below which the others lie closer; the number is then read as the one before, which is rounded to
it as well. -/
theorem predecessor_of_not_reads (h : ¬ Reads (decimal (p + 1)) (p + 1)) :
    (p + 1) % 2 ^ 52 = 0 ∧ 2 ≤ (p + 1) / 2 ^ 52 ∧ Reads (decimal (p + 1)) p ∧
      decimal p = decimal (p + 1) := by
  obtain ⟨hsuff, -⟩ := shortest_spec (Nat.succ_pos p)
  obtain ⟨m, hm⟩ := suffices_iff.mp hsuff
  have hnear := abs_decimal_sub_le (p + 1) m
  have hhalf := abs_decimal_sub (p + 1)
  obtain ⟨hwide, hdl, habove⟩ := narrow_of_not_reads hm hnear h
  obtain ⟨hmod, hdiv, hdouble⟩ := gap_lt hwide
  obtain ⟨hl, hu, -⟩ := lower_gaps p
  have hv := value_succ p
  rw [hdouble] at hu
  push_cast at hu
  have hg : (0 : ℚ) < gap p / scale := div_pos (by exact_mod_cast gap_pos p) scale_pos
  generalize hgdef : (gap p : ℚ) / scale = g at *
  have hu' : lower (p + 1 + 1) = value (p + 1) + g := by
    rw [hu, mul_div_assoc, hgdef]
    ring
  have hcu := hm.le_lower
  rw [abs_of_pos (sub_pos.mpr habove)] at hnear
  have hfar := (abs_le.mp hnear).1
  have hhalf' := (abs_le.mp hhalf).1
  have hp : 0 < p := by omega
  have hlp := lower_lt_value hp
  have hS := quantum_pos (p + 1) (shortest (p + 1))
  have hd : value p ≤ decimal (p + 1) := by linarith
  have hread : Reads (decimal (p + 1)) p := reads_of_lt (by linarith) hdl
  have hwideS : g < quantum (p + 1) (shortest (p + 1)) := by linarith
  have hstep : quantum (p + 1) (shortest (p + 1)) ≤ 2 * g := by
    have hlt : (rounded (p + 1) : ℚ) < m := by
      refine lt_of_mul_lt_mul_right (lt_trans ?_ habove) hS.le
      exact hdl.trans (lower_lt_value (Nat.succ_pos p))
    have hone : (rounded (p + 1) : ℚ) + 1 ≤ m := by exact_mod_cast hlt
    have hmul := mul_le_mul_of_nonneg_right hone hS.le
    rw [add_mul, one_mul] at hmul
    rw [decimal] at hfar
    linarith
  have hvalue : value (p + 1) = 2 ^ 53 * g := by
    have hunits : units (p + 1) = 2 ^ 53 * gap p := by
      rw [units, if_neg (by omega), hmod, Nat.add_zero, ← gap, hdouble]
      ring
    rw [value, hunits, ← hgdef]
    push_cast
    ring
  refine ⟨hmod, hdiv, hread, ?_⟩
  refine decimal_eq_of_only hp ?_ hread ?_ fun n hn ↦ ?_
  · change quantum (p + 1) (shortest (p + 1)) ≤ value p
    linarith
  · change |decimal (p + 1) - value p| < quantum (p + 1) (shortest (p + 1)) / 2
    rw [abs_of_nonneg (by linarith)]
    linarith
  · change Reads (n * quantum (p + 1) (shortest (p + 1))) p at hn
    by_contra hne
    have hfar' : quantum (p + 1) (shortest (p + 1)) ≤
        |n * quantum (p + 1) (shortest (p + 1)) - decimal (p + 1)| := by
      have hone : (1 : ℚ) ≤ |(n : ℚ) - rounded (p + 1)| := by
        exact_mod_cast Int.one_le_abs (sub_ne_zero.mpr hne)
      rw [decimal, ← sub_mul, abs_mul, abs_of_pos hS]
      linarith [mul_le_mul_of_nonneg_right hone hS.le]
    have hnl := hn.lower_le
    have hnu := hn.le_lower
    have hlow : value p - g / 2 ≤ lower p := by
      obtain ⟨p', rfl⟩ := Nat.exists_eq_succ_of_ne_zero hp.ne'
      obtain ⟨hl', -, hgap'⟩ := lower_gaps p'
      rw [hgdef] at hgap'
      linarith
    obtain h' | h' := abs_cases (n * quantum (p + 1) (shortest (p + 1)) - decimal (p + 1))
    · linarith
    · linarith

/-- A magnitude whose digits are read back. -/
def Faithful (b : ℕ) : Prop := Reads (decimal b) b

instance (b : ℕ) : Decidable (Faithful b) := inferInstanceAs (Decidable (Reads _ _))

theorem decimal_zero : decimal 0 = 0 := by
  simp [decimal, rounded, value_zero, roundEven]

/-- The digits of a magnitude are read as itself or as the one before. -/
theorem reads_decimal (b : ℕ) : Faithful b ∨
    0 < b ∧ ¬ Faithful b ∧ b % 2 ^ 52 = 0 ∧ 2 ≤ b / 2 ^ 52 ∧ Reads (decimal b) (b - 1) ∧
      decimal (b - 1) = decimal b := by
  by_cases h : Faithful b
  · exact .inl h
  · cases b with
    | zero =>
      refine absurd ?_ h
      rw [Faithful, decimal_zero, ← value_zero]
      exact reads_value 0
    | succ p => exact .inr ⟨Nat.succ_pos p, h, predecessor_of_not_reads h⟩

/-- Two magnitudes have the same digits only if they are the same, or the one is next to the other
and not read back. -/
theorem eq_or_of_decimal_eq {a b : ℕ} (h : decimal a = decimal b) :
    a = b ∨ (a = b + 1 ∧ ¬ Faithful a) ∨ (b = a + 1 ∧ ¬ Faithful b) := by
  obtain ha | ⟨hpos, hna, -, -, ha, -⟩ := reads_decimal a
  · obtain hb | ⟨hpos, hnb, -, -, hb, -⟩ := reads_decimal b
    · rw [Faithful, ← h] at hb
      exact .inl (Reads.unique ha hb)
    · rw [← h] at hb
      have heq := Reads.unique ha hb
      exact .inr (.inr ⟨by omega, hnb⟩)
  · obtain hb | ⟨hpos', hnb, -, -, hb, -⟩ := reads_decimal b
    · rw [Faithful, ← h] at hb
      have heq := ha.unique hb
      exact .inr (.inl ⟨by omega, hna⟩)
    · rw [← h] at hb
      have heq := ha.unique hb
      exact .inl (by omega)

theorem decimal_pos (h : 0 < b) : 0 < decimal b := by
  obtain hr | ⟨-, -, -, hdiv, hr, -⟩ := reads_decimal b
  · obtain ⟨p, rfl⟩ := Nat.exists_eq_succ_of_ne_zero h.ne'
    exact (lower_strictMono (Nat.succ_pos p)).trans_le hr.lower_le
  · exact (lower_strictMono (by omega : 0 < b - 1)).trans_le hr.lower_le

/-- No digits that read back are fewer. -/
theorem shortest_le {s : ℕ} {j : ℤ} (hb : 0 < b) (hk : 1 ≤ k) (hs : s < 10 ^ k)
    (hread : Reads (s * 10 ^ j) b) : shortest b ≤ k := by
  have hpos : 0 < (s : ℚ) * 10 ^ j := by
    obtain ⟨p, rfl⟩ := Nat.exists_eq_succ_of_ne_zero hb.ne'
    exact (lower_strictMono (Nat.succ_pos p)).trans_le hread.lower_le
  have hfirst := (shortest_spec hb).2
  -- a power of ten between the number and the magnitude has one digit
  have hten : ∀ i : ℕ, Reads ((10 : ℚ) ^ (decade b + i)) b → shortest b ≤ k := by
    intro i hi
    refine (hfirst 1 le_rfl (suffices_iff.mpr ⟨10 ^ i, ?_⟩)).trans hk
    have hq : quantum b 1 = 10 ^ decade b := by
      rw [quantum]
      congr 1
      push_cast
      omega
    rw [hq]
    push_cast
    rwa [← zpow_natCast, ← zpow_add₀ (by decide), add_comm]
  obtain hlt | hge := lt_or_ge ((s : ℚ) * 10 ^ j) (10 ^ decade b)
  · refine hten 0 ?_
    rw [Int.natCast_zero, add_zero]
    exact hread.between (reads_value b) hlt.le (zpow_decade_le hb)
  · obtain hlt' | hge' := lt_or_ge ((s : ℚ) * 10 ^ j) (10 ^ (decade b + 1))
    · have hj : decade b - k + 1 ≤ j := by
        have hsk : (s : ℚ) < 10 ^ (k : ℤ) := by
          rw [zpow_natCast]
          exact_mod_cast hs
        have hlt'' : (10 : ℚ) ^ decade b < 10 ^ (k + j) := by
          rw [zpow_add₀ (by decide)]
          exact hge.trans_lt (mul_lt_mul_of_pos_right hsk (zpow_pos (by decide) j))
        have := (zpow_lt_zpow_iff_right₀ (by decide : (1 : ℚ) < 10)).mp hlt''
        omega
      obtain ⟨i, hi⟩ := Int.eq_ofNat_of_zero_le (sub_nonneg.mpr hj)
      refine hfirst k hk (suffices_iff.mpr ⟨s * 10 ^ i, ?_⟩)
      have hq : (10 : ℚ) ^ j = 10 ^ i * quantum b k := by
        rw [quantum, ← zpow_natCast, ← zpow_add₀ (by decide)]
        congr 1
        omega
      rw [hq, ← mul_assoc] at hread
      push_cast
      exact hread
    · refine hten 1 ?_
      exact (reads_value b).between hread (lt_zpow_decade b).le hge'

end Decimals

section Landmarks

/-- The bits of a power of two. -/
def power (e : ℕ) : ℕ := (1023 + e) * 2 ^ 52

theorem value_power (e : ℕ) : value (power e) = 2 ^ e := by
  have hunits : units (power e) = 2 ^ e * 2 ^ places := by
    have hplaces : places = 1074 := rfl
    have hdiv : power e / 2 ^ 52 = 1023 + e := Nat.mul_div_cancel _ (Nat.two_pow_pos 52)
    have hmod : power e % 2 ^ 52 = 0 := Nat.mul_mod_left _ _
    have hlarge : ¬ power e < 2 ^ 52 := by
      rw [power]
      omega
    rw [units, if_neg hlarge, hdiv, hmod, Nat.add_zero, ← Nat.pow_add, ← Nat.pow_add]
    congr 1
    omega
  rw [value, hunits, div_eq_iff scale_pos.ne']
  push_cast
  rfl

variable {a b e : ℕ}

/-- What lies below a magnitude is rounded to digits below it. -/
theorem decimal_lt (h : b < a) : decimal b < value a := by
  by_contra hle
  obtain hr | ⟨-, -, -, -, hr, -⟩ := reads_decimal b
  · exact absurd ((reads_value a).mono hr (not_lt.mp hle)) (by omega)
  · exact absurd ((reads_value a).mono hr (not_lt.mp hle)) (by omega)

/-- What lies above a power of two is rounded to digits above it. -/
theorem lt_decimal (h : power e < b) : 2 ^ e < decimal b := by
  rw [← value_power]
  by_contra hle
  obtain hr | ⟨-, -, hmod, -, hr, -⟩ := reads_decimal b
  · exact absurd (hr.mono (reads_value (power e)) (not_lt.mp hle)) (by omega)
  · have hpred := hr.mono (reads_value (power e)) (not_lt.mp hle)
    have heq : b = power e + 1 := by omega
    rw [heq, power] at hmod
    omega

theorem value_le_iff : value a ≤ value b ↔ a ≤ b := value_strictMono.le_iff_le

/-- A whole magnitude keeps its digits, or loses some before the point. -/
theorem whole_cases {n : ℕ} (h : value b = n) :
    decimal b = n ∨ ∃ j : ℕ, quantum b (shortest b) = 10 ^ (j + 1) := by
  obtain hj | hj := le_or_gt (decade b - shortest b + 1) 0
  · obtain ⟨i, hi⟩ := Int.eq_ofNat_of_zero_le (neg_nonneg.mpr hj)
    have hq : (10 : ℚ) ^ i * quantum b (shortest b) = 1 := by
      have hzero : (i : ℤ) + (decade b - shortest b + 1) = 0 := by omega
      rw [quantum, ← zpow_natCast, ← zpow_add₀ (by decide), hzero, zpow_zero]
    have hmul : ((n * 10 ^ i : ℤ) : ℚ) * quantum b (shortest b) = n := by
      push_cast
      rw [mul_assoc, hq, mul_one]
    refine .inl ((decimal_eq ?_).trans hmul)
    rw [hmul, h, sub_self, abs_zero]
    exact half_pos (quantum_pos b _)
  · obtain ⟨i, hi⟩ := Int.eq_succ_of_zero_lt hj
    refine .inr ⟨i, ?_⟩
    rw [quantum, hi, ← Nat.cast_succ, zpow_natCast]

/-- Up to 2^53 the next magnitude is at most two away, below it at most one. -/
theorem gap_le (h : b ≤ power 53) :
    (gap b : ℚ) / scale ≤ 2 ∧ (b < power 53 → (gap b : ℚ) / scale ≤ 1) := by
  have hplaces : places = 1074 := rfl
  rw [power] at h ⊢
  rw [div_le_iff₀ scale_pos, div_le_iff₀ scale_pos, scale, one_mul, ← pow_succ']
  refine ⟨?_, fun hlt ↦ ?_⟩
  · exact_mod_cast Nat.pow_le_pow_right (by decide) (by omega : b / 2 ^ 52 - 1 ≤ places + 1)
  · exact_mod_cast Nat.pow_le_pow_right (by decide) (by omega : b / 2 ^ 52 - 1 ≤ places)

/-- Whole magnitudes up to 2^53 are written as they are. -/
theorem decimal_of_whole {n : ℕ} (h : value b = n) (hn : n ≤ 2 ^ 53) : decimal b = n := by
  obtain hd | ⟨j, hq⟩ := whole_cases h
  · exact hd
  cases b with
  | zero => rw [decimal_zero, ← h, value_zero]
  | succ p =>
    obtain ⟨m, hm⟩ := suffices_iff.mp (shortest_spec (Nat.succ_pos p)).1
    have hle : p + 1 ≤ power 53 := by
      rw [← value_le_iff, h, value_power]
      exact_mod_cast hn
    obtain ⟨hwide, hclose⟩ := gap_le hle
    obtain ⟨hl, hu, hgap⟩ := lower_gaps p
    have hml := hm.lower_le
    have hmu := hm.le_lower
    rw [hl, h] at hml
    rw [hu, h] at hmu
    have hcast : (m : ℚ) * quantum (p + 1) (shortest (p + 1)) = ((m * 10 ^ j * 10 : ℤ) : ℚ) := by
      rw [hq]
      push_cast
      ring
    rw [hcast] at hml hmu
    obtain hlt | rfl := hn.lt_or_eq
    · have hlt' : p + 1 < power 53 := by
        rw [← value_strictMono.lt_iff_lt, h, value_power]
        exact_mod_cast hlt
      have hone := hclose hlt'
      have heq : m * 10 ^ j * 10 = (n : ℤ) := by
        have hl' : ((n : ℤ) : ℚ) - 1 < ((m * 10 ^ j * 10 : ℤ) : ℚ) := by
          push_cast at hml ⊢
          linarith
        have hu' : ((m * 10 ^ j * 10 : ℤ) : ℚ) < ((n : ℤ) : ℚ) + 1 := by
          push_cast at hmu ⊢
          linarith
        have hl'' : (n : ℤ) - 1 < m * 10 ^ j * 10 := by exact_mod_cast hl'
        have hu'' : m * 10 ^ j * 10 < (n : ℤ) + 1 := by exact_mod_cast hu'
        omega
      rw [heq] at hcast
      refine (decimal_eq ?_).trans hcast
      rw [hcast, h]
      simpa using half_pos (quantum_pos (p + 1) _)
    · exfalso
      have hl' : ((2 ^ 53 : ℤ) : ℚ) - 1 ≤ ((m * 10 ^ j * 10 : ℤ) : ℚ) := by
        push_cast at hml ⊢
        linarith
      have hu' : ((m * 10 ^ j * 10 : ℤ) : ℚ) ≤ ((2 ^ 53 : ℤ) : ℚ) + 1 := by
        push_cast at hmu ⊢
        linarith
      have hl'' : (2 ^ 53 : ℤ) - 1 ≤ m * 10 ^ j * 10 := by exact_mod_cast hl'
      have hu'' : m * 10 ^ j * 10 ≤ (2 ^ 53 : ℤ) + 1 := by exact_mod_cast hu'
      omega

/-- Every whole number up to 2^53 is a magnitude. -/
theorem exists_value {n : ℕ} (h : n ≤ 2 ^ 53) : ∃ b ≤ power 53, value b = n := by
  obtain rfl | hpos := Nat.eq_zero_or_pos n
  · exact ⟨0, Nat.zero_le _, value_zero.trans Nat.cast_zero.symm⟩
  obtain hlt | rfl := h.lt_or_eq
  · have hlog := (Nat.log2_lt hpos.ne').mpr hlt
    have hself := Nat.log2_self_le hpos.ne'
    have hnext := Nat.lt_log2_self (n := n)
    generalize n.log2 = e at *
    have hmul : 2 ^ e * 2 ^ (52 - e) = 2 ^ 52 := by
      rw [← Nat.pow_add]
      congr 1
      omega
    have hge : 2 ^ 52 ≤ n * 2 ^ (52 - e) := hmul ▸ Nat.mul_le_mul_right _ hself
    have hlt' : n * 2 ^ (52 - e) < 2 * 2 ^ 52 := by
      rw [← hmul, ← mul_assoc, ← Nat.pow_succ']
      exact Nat.mul_lt_mul_of_pos_right hnext (Nat.two_pow_pos _)
    refine ⟨power e + (n * 2 ^ (52 - e) - 2 ^ 52), ?_, ?_⟩
    · rw [power, power]
      omega
    · have hdiv : (power e + (n * 2 ^ (52 - e) - 2 ^ 52)) / 2 ^ 52 = 1023 + e := by
        rw [power]
        omega
      have hmod : (power e + (n * 2 ^ (52 - e) - 2 ^ 52)) % 2 ^ 52 =
          n * 2 ^ (52 - e) - 2 ^ 52 := by
        rw [power]
        omega
      have hlarge : ¬ power e + (n * 2 ^ (52 - e) - 2 ^ 52) < 2 ^ 52 := by
        rw [power]
        omega
      have hunits : units (power e + (n * 2 ^ (52 - e) - 2 ^ 52)) = n * 2 ^ places := by
        have hexp : 52 - e + (1023 + e - 1) = places := by
          rw [places]
          omega
        rw [units, if_neg hlarge, hdiv, hmod, Nat.add_sub_cancel' hge, mul_assoc, ← Nat.pow_add,
          hexp]
      rw [value, hunits, div_eq_iff scale_pos.ne']
      push_cast
      rfl
  · refine ⟨power 53, le_rfl, ?_⟩
    rw [value_power]
    norm_num

/-- Up to 2^53 only whole magnitudes have whole digits. -/
theorem value_of_decimal {n : ℕ} (h : decimal b = n) (hb : b ≤ power 53) : value b = n := by
  have hn : n ≤ 2 ^ 53 := by
    obtain hlt | rfl := hb.lt_or_eq
    · have hd := decimal_lt hlt
      rw [h, value_power] at hd
      exact_mod_cast hd.le
    · have hd : decimal (power 53) = (2 ^ 53 : ℕ) := by
        refine decimal_of_whole ?_ le_rfl
        rw [value_power]
        norm_num
      rw [h] at hd
      exact_mod_cast hd.le
  obtain ⟨c, hc, hv⟩ := exists_value hn
  obtain hr | ⟨hpos, hnot, hmod, hdiv, hr, -⟩ := reads_decimal b
  · rw [Faithful, h, ← hv] at hr
    rw [hr.unique (reads_value c), hv]
  · exfalso
    obtain hlt | hge := lt_or_ge b (power 0)
    · have hd := decimal_lt hlt
      have hd' := decimal_pos hpos
      rw [h, value_power] at hd
      rw [h] at hd'
      norm_num at hd hd'
      omega
    · obtain ⟨e, he⟩ : ∃ e, b = power e := by
        refine ⟨b / 2 ^ 52 - 1023, ?_⟩
        rw [power] at hge ⊢
        omega
      have hwhole : value b = (2 ^ e : ℕ) := by
        rw [he, value_power]
        norm_num
      have hle : 2 ^ e ≤ 2 ^ 53 := by
        rw [← value_le_iff, hwhole, value_power] at hb
        exact_mod_cast hb
      refine hnot ?_
      rw [Faithful, decimal_of_whole hwhole hle, ← hwhole]
      exact reads_value b

/-- Beyond 2^53 every magnitude is written without digits behind the point. -/
theorem decimal_whole (h : power 53 < b) : ∃ n : ℕ, decimal b = n := by
  have hplaces : places = 1074 := rfl
  obtain ⟨n, hn⟩ : ∃ n : ℕ, value b = n := by
    have hlarge : 1076 * 2 ^ 52 ≤ b := h.le
    obtain ⟨i, hi⟩ := Nat.exists_eq_add_of_le (by omega : places ≤ b / 2 ^ 52 - 1)
    refine ⟨(2 ^ 52 + b % 2 ^ 52) * 2 ^ i, ?_⟩
    rw [value, units, if_neg (by omega), hi, Nat.pow_add, div_eq_iff scale_pos.ne', scale]
    push_cast
    ring
  obtain hd | ⟨j, hq⟩ := whole_cases hn
  · exact ⟨n, hd⟩
  · have hpos := decimal_pos (Nat.zero_lt_of_lt h)
    have hround : 0 < rounded b := by
      have hmul : 0 < (rounded b : ℚ) * quantum b (shortest b) := hpos
      exact_mod_cast (pos_iff_pos_of_mul_pos hmul).mpr (quantum_pos b _)
    obtain ⟨m, hm⟩ := Int.eq_ofNat_of_zero_le hround.le
    refine ⟨m * 10 ^ (j + 1), ?_⟩
    rw [decimal, hq, hm]
    push_cast
    rfl

end Landmarks

end FolderClient.Library.Doubles
