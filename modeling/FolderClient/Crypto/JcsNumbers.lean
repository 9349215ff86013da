import FolderClient.Crypto.Jcs
import FolderClient.Library.Decimals

namespace FolderClient.Crypto.JcsNumbers

open FolderClient.Library FolderClient.Library.Json FolderClient.Library.JsonText
open FolderClient.Library.Decimals FolderClient.Crypto.Jcs

section Tokens

def exponentText : Option (Bool × List Char) → List Char
  | none => []
  | some (negative, digits) => 'e' :: (if negative then '-' else '+') :: digits

/-- The one way a canonical text writes a number. -/
def numberText (t : NumberToken) : List Char :=
  signText t.negative ++ t.whole ++ fractionText t.fraction ++ exponentText t.exponent

def Proper (t : NumberToken) : Prop :=
  Digits t.whole ∧ (t.whole.head? = some '0' → t.whole = ['0']) ∧
    (∀ c ∈ t.fraction, c.isDigit = true) ∧ ∀ e ∈ t.exponent, Digits e.2

theorem spells_numberText {t : NumberToken} (h : Proper t) : SpellsNumber t (numberText t) := by
  obtain ⟨hwhole, hzero, hfraction, hexponent⟩ := h
  refine ⟨hwhole, hzero, hfraction, exponentText t.exponent, ?_, rfl⟩
  cases he : t.exponent with
  | none => rfl
  | some e =>
    obtain ⟨negative, digits⟩ := e
    exact ⟨hexponent _ he, 'e', [if negative then '-' else '+'], .inl rfl, .inl rfl, rfl⟩

/-- The token of `s * 10^j`. -/
def layout (negative : Bool) (s : ℕ) (j : ℤ) : NumberToken :=
  let digits := Nat.toDigits 10 s
  let k : ℤ := digits.length
  let n := j + k
  if k ≤ n ∧ n ≤ fixedPointTop then ⟨negative, digits ++ zeroes (n - k), [], none⟩
  else if 0 < n ∧ n ≤ fixedPointTop then
    ⟨negative, digits.take n.toNat, digits.drop n.toNat, none⟩
  else if fixedPointBottom < n ∧ n ≤ 0 then ⟨negative, ['0'], zeroes (-n) ++ digits, none⟩
  else ⟨negative, digits.take 1, digits.drop 1,
    some (decide (n - 1 < 0), Nat.toDigits 10 (n - 1).natAbs)⟩

def zero : NumberToken := ⟨false, ['0'], [], none⟩

variable {negative : Bool} {s : ℕ} {j : ℤ}

/-- The four shapes of a token: whole, with the point inside the digits, with the point before
them, and with an exponent. -/
theorem layout_cases (negative : Bool) (hs : 0 < s) (j : ℤ) :
    (∃ i : ℕ, j = i ∧ ((Nat.toDigits 10 s).length + i : ℤ) ≤ 21 ∧
      layout negative s j = ⟨negative, Nat.toDigits 10 (s * 10 ^ i), [], none⟩) ∨
    (∃ n : ℕ, 0 < n ∧ n < (Nat.toDigits 10 s).length ∧ j = n - (Nat.toDigits 10 s).length ∧
      layout negative s j =
        ⟨negative, (Nat.toDigits 10 s).take n, (Nat.toDigits 10 s).drop n, none⟩) ∨
    (∃ i : ℕ, j = -i - (Nat.toDigits 10 s).length ∧ layout negative s j =
      ⟨negative, ['0'], List.replicate i '0' ++ Nat.toDigits 10 s, none⟩) ∨
    ∃ e : ℤ, j = e + 1 - (Nat.toDigits 10 s).length ∧
      (21 < j + (Nat.toDigits 10 s).length ∨ j + (Nat.toDigits 10 s).length ≤ 0) ∧
      layout negative s j = ⟨negative, (Nat.toDigits 10 s).take 1, (Nat.toDigits 10 s).drop 1,
        some (decide (e < 0), Nat.toDigits 10 e.natAbs)⟩ := by
  have htop : fixedPointTop = 21 := rfl
  have hbottom : fixedPointBottom = -6 := rfl
  rw [layout]
  split
  · rename_i h
    obtain ⟨i, rfl⟩ := Int.eq_ofNat_of_zero_le (by omega : 0 ≤ j)
    refine .inl ⟨i, rfl, by omega, ?_⟩
    rw [zeroes, add_sub_cancel_right, Int.toNat_natCast, toDigits_shift hs]
  · rename_i hwhole
    split
    · rename_i h
      obtain ⟨n, hn⟩ := Int.eq_ofNat_of_zero_le h.1.le
      refine .inr (.inl ⟨n, by omega, by omega, by omega, ?_⟩)
      rw [hn, Int.toNat_natCast]
    · rename_i hinside
      split
      · rename_i h
        obtain ⟨i, hi⟩ := Int.eq_ofNat_of_zero_le (neg_nonneg.mpr h.2)
        refine .inr (.inr (.inl ⟨i, by omega, ?_⟩))
        rw [zeroes, hi, Int.toNat_natCast]
      · rename_i hbefore
        exact .inr (.inr (.inr ⟨j + (Nat.toDigits 10 s).length - 1, by omega, by omega, rfl⟩))

theorem head_take {l : List Char} (h : l.head? ≠ some '0') {n : ℕ} (hn : 0 < n) :
    (l.take n).head? ≠ some '0' := by
  rwa [List.head?_take, if_neg hn.ne']

theorem proper_layout (hs : 0 < s) : Proper (layout negative s j) := by
  have hdigits := digits_toDigits s
  have hhead := head_toDigits s hs
  have hpart : ∀ n, 0 < n → Digits ((Nat.toDigits 10 s).take n) := fun n hn ↦
    ⟨fun h ↦ (List.take_eq_nil_iff.mp h).elim hn.ne' hdigits.1,
      fun c hc ↦ hdigits.2 c (List.mem_of_mem_take hc)⟩
  obtain ⟨i, -, -, h⟩ | ⟨n, hn, -, -, h⟩ | ⟨i, -, h⟩ | ⟨e, -, -, h⟩ := layout_cases negative hs j
  · rw [h]
    have hpos : 0 < s * 10 ^ i := Nat.mul_pos hs (Nat.pow_pos (by decide))
    exact ⟨digits_toDigits _, fun h0 ↦ absurd h0 (head_toDigits _ hpos), by simp, nofun⟩
  · rw [h]
    exact ⟨hpart n hn, fun h0 ↦ absurd h0 (head_take hhead hn),
      fun c hc ↦ hdigits.2 c (List.mem_of_mem_drop hc), nofun⟩
  · rw [h]
    refine ⟨⟨List.cons_ne_nil _ _, by simp⟩, fun _ ↦ rfl, fun c hc ↦ ?_, nofun⟩
    obtain hc | hc := List.mem_append.mp hc
    · rw [(List.mem_replicate.mp hc).2]
      decide
    · exact hdigits.2 c hc
  · rw [h]
    refine ⟨hpart 1 Nat.one_pos, fun h0 ↦ absurd h0 (head_take hhead Nat.one_pos),
      fun c hc ↦ hdigits.2 c (List.mem_of_mem_drop hc), ?_⟩
    rintro _ ⟨⟩
    exact digits_toDigits _

theorem negative_layout : (layout negative s j).negative = negative := by
  rw [layout]
  split
  · rfl
  · split
    · rfl
    · split <;> rfl

theorem absolute_layout (hs : 0 < s) : (layout negative s j).absolute = s * 10 ^ j := by
  obtain ⟨i, rfl, -, h⟩ | ⟨n, hn, hlen, rfl, h⟩ | ⟨i, rfl, h⟩ | ⟨e, rfl, -, h⟩ :=
    layout_cases negative hs j
  · rw [h, NumberToken.absolute, NumberToken.significand, NumberToken.power]
    simp [naturalOf_toDigits]
  · have hdrop : ((Nat.toDigits 10 s).drop n).length = (Nat.toDigits 10 s).length - n :=
      List.length_drop
    rw [h, NumberToken.absolute, NumberToken.significand, NumberToken.power]
    simp only [List.take_append_drop, naturalOf_toDigits, hdrop]
    congr 2
    omega
  · rw [h, NumberToken.absolute, NumberToken.significand, NumberToken.power]
    simp only [← List.append_assoc, ← List.replicate_one, List.replicate_append_replicate,
      naturalOf_zeroes, naturalOf_toDigits, List.length_append, List.length_replicate]
    congr 2
    omega
  · have hdrop : ((Nat.toDigits 10 s).drop 1).length = (Nat.toDigits 10 s).length - 1 :=
      List.length_drop
    have hpos := List.length_pos_of_ne_nil (digits_toDigits s).1
    rw [h, NumberToken.absolute, NumberToken.significand, NumberToken.power]
    simp only [List.take_append_drop, naturalOf_toDigits, hdrop]
    congr 2
    by_cases he : e < 0
    · simp only [he, decide_true, naturalOf_toDigits]
      omega
    · simp only [he, decide_false, naturalOf_toDigits]
      omega

theorem ecmaText_toDigits :
    signText negative ++ ecmaText (Nat.toDigits 10 s) (j + (Nat.toDigits 10 s).length) =
      numberText (layout negative s j) := by
  have hne := (digits_toDigits s).1
  rw [ecmaText, layout, numberText]
  split
  · simp [fractionText, exponentText]
  · rename_i hwhole
    split
    · rename_i h
      have hdrop : (Nat.toDigits 10 s).drop (j + (Nat.toDigits 10 s).length).toNat ≠ [] := by
        rw [Ne, List.drop_eq_nil_iff]
        omega
      simp [fractionText, exponentText, hdrop]
    · split
      · simp [fractionText, exponentText, hne]
      · have hsign : (if 0 ≤ j + (Nat.toDigits 10 s).length - 1 then '+' else '-') =
            if j + (Nat.toDigits 10 s).length - 1 < 0 then '-' else '+' := by
          split
          · rw [if_neg (by omega)]
          · rw [if_pos (by omega)]
        dsimp only
        rw [hsign]
        split
        · rename_i hrest
          simp [fractionText, exponentText, hrest]
        · rename_i hrest
          rw [List.drop_one] at hrest
          simp [fractionText, exponentText, hrest]

/-- The token of a number as it stands in a canonical text. -/
inductive Stands : NumberToken → ℚ → Prop
  | zero : Stands zero 0
  | digits (negative : Bool) (s : ℕ) (j : ℤ) (hs : 0 < s) (h : ¬ 10 ∣ s) :
      Stands (layout negative s j) ((if negative then -1 else 1) * (s * 10 ^ j))

theorem Stands.proper {t : NumberToken} {q : ℚ} (h : Stands t q) : Proper t := by
  cases h with
  | zero => exact ⟨⟨List.cons_ne_nil _ _, by simp [JcsNumbers.zero]⟩, fun _ ↦ rfl, nofun, nofun⟩
  | digits negative s j hs h => exact proper_layout hs

/-- What a token says, with its sign. -/
def signed (negative : Bool) (q : ℚ) : ℚ := (if negative then -1 else 1) * q

theorem Stands.eq_signed {t : NumberToken} {q : ℚ} (h : Stands t q) :
    q = signed t.negative t.absolute := by
  cases h with
  | zero =>
    have hsig : JcsNumbers.zero.significand = 0 := by decide
    rw [NumberToken.absolute, hsig, signed]
    simp
  | digits negative s j hs h => rw [absolute_layout hs, negative_layout, signed]

theorem signed_pos {s : ℕ} (hs : 0 < s) (j : ℤ) : (0 : ℚ) < s * 10 ^ j :=
  mul_pos (by exact_mod_cast hs) (zpow_pos (by decide) j)

theorem signed_inj {n n' : Bool} {q q' : ℚ} (hq : 0 < q) (hq' : 0 < q')
    (h : signed n q = signed n' q') : n = n' ∧ q = q' := by
  cases n with
  | true =>
    cases n' with
    | true => exact ⟨rfl, by simpa [signed] using h⟩
    | false =>
      simp only [signed, if_true, Bool.false_eq_true, if_false] at h
      linarith
  | false =>
    cases n' with
    | true =>
      simp only [signed, if_true, Bool.false_eq_true, if_false] at h
      linarith
    | false => exact ⟨rfl, by simpa [signed] using h⟩

theorem Stands.unique {t t' : NumberToken} {q : ℚ} (h : Stands t q) (h' : Stands t' q) :
    t = t' := by
  have hnonzero : ∀ (negative : Bool) {s : ℕ} (j : ℤ), 0 < s →
      (if negative then -1 else 1) * ((s : ℚ) * 10 ^ j) ≠ 0 := by
    intro negative s j hs
    refine mul_ne_zero ?_ (signed_pos hs j).ne'
    cases negative <;> simp
  generalize hq : q = q' at h'
  cases h with
  | zero =>
    cases h' with
    | zero => rfl
    | digits negative s j hs h => exact absurd hq.symm (hnonzero negative j hs)
  | digits negative s j hs h =>
    cases h' with
    | zero => exact absurd hq (hnonzero negative j hs)
    | digits negative' s' j' hs' h' =>
      obtain ⟨rfl, heq⟩ := signed_inj (signed_pos hs j) (signed_pos hs' j') hq
      obtain ⟨rfl, rfl⟩ := trimmed_unique h h' heq
      rfl

end Tokens

section Written

/-- What the text of a number stands for. -/
def shown : Number → ℚ
  | .posInt n => n.toNat
  | .negInt n => n.toInt
  | .float bits => signed (isNegative bits) (Doubles.decimal (magnitude bits))

def Accepted : Number → Prop
  | .posInt n => n.toNat ≤ maxExactInteger
  | .negInt n => n.toInt.natAbs ≤ maxExactInteger
  | .float bits => magnitude bits < Doubles.infinity

theorem stands_whole {i : ℤ} (h : i.natAbs ≤ maxExactInteger) :
    ∃ t, Stands t i ∧ wholeText i = numberText t := by
  obtain rfl | hne := eq_or_ne i 0
  · exact ⟨zero, by exact_mod_cast Stands.zero, by decide⟩
  · obtain ⟨s, e, hs, hnot, habs⟩ := exists_trimmed (Int.natAbs_pos.mpr hne)
    have hlen : (Nat.toDigits 10 (s * 10 ^ e)).length ≤ 21 := by
      rw [Nat.length_toDigits_le_iff (by decide) (by decide), ← habs]
      exact h.trans_lt (by decide)
    rw [length_toDigits_shift hs] at hlen
    have hq : (if i < 0 then -1 else 1) * ((s : ℚ) * 10 ^ (e : ℤ)) = i := by
      have hcast : (s : ℚ) * 10 ^ (e : ℤ) = (i.natAbs : ℤ) := by
        rw [habs, zpow_natCast]
        push_cast
        rfl
      rw [hcast]
      split
      · rw [Int.ofNat_natAbs_of_nonpos (by omega)]
        push_cast
        ring
      · rw [Int.natAbs_of_nonneg (by omega), one_mul]
    have hstands := Stands.digits (i < 0) s e hs hnot
    simp only [decide_eq_true_eq, hq] at hstands
    refine ⟨_, hstands, ?_⟩
    obtain ⟨i', hi, -, hl⟩ | ⟨n, -, hn, hi, -⟩ | ⟨i', hi, -⟩ | ⟨e', hi, hn, -⟩ :=
      layout_cases (decide (i < 0)) hs e
    · obtain rfl := Int.ofNat.inj hi
      rw [hl, numberText, wholeText, habs]
      simp [fractionText, exponentText]
    · omega
    · have hpos := List.length_pos_of_ne_nil (digits_toDigits s).1
      omega
    · have hpos := List.length_pos_of_ne_nil (digits_toDigits s).1
      omega

theorem le_roundEven {q : ℚ} {n : ℤ} (h : n ≤ q) : n ≤ Doubles.roundEven q := by
  have hfloor := Int.le_floor.mpr h
  rw [Doubles.roundEven]
  split <;> omega

theorem roundEven_le {q : ℚ} {n : ℤ} (h : q ≤ n) : Doubles.roundEven q ≤ n := by
  have hfloor : ⌊q⌋ ≤ n := by exact_mod_cast (Int.floor_le q).trans h
  rw [Doubles.roundEven]
  split
  · exact hfloor
  · rename_i hnot
    refine lt_of_le_of_ne hfloor fun heq ↦ hnot (.inl ?_)
    rw [heq]
    linarith

/-- The rounded digits of a magnitude are as many as its shortest, or one more where the rounding
carries. -/
theorem rounded_bounds {b : ℕ} (hb : 0 < b) : ∃ k m : ℕ, Doubles.shortest b = k + 1 ∧
    Doubles.rounded b = m ∧ 10 ^ k ≤ m ∧ m ≤ 10 ^ (k + 1) := by
  obtain ⟨k, hk⟩ : ∃ k, Doubles.shortest b = k + 1 := ⟨_, rfl⟩
  have hpos := Doubles.quantum_pos b (k + 1)
  have hq : Doubles.quantum b (k + 1) = 10 ^ Doubles.decade b / 10 ^ k := by
    rw [Doubles.quantum, ← zpow_natCast, ← zpow_sub₀ (by decide)]
    congr 1
    push_cast
    omega
  have hten : (10 : ℚ) ^ Doubles.decade b = 10 ^ k * Doubles.quantum b (k + 1) := by
    rw [hq, mul_div_cancel₀ _ (pow_ne_zero k (by decide))]
  have hlow : ((10 ^ k : ℤ) : ℚ) ≤ Doubles.value b / Doubles.quantum b (k + 1) := by
    rw [le_div_iff₀ hpos]
    push_cast
    exact hten ▸ Doubles.zpow_decade_le hb
  have hhigh : Doubles.value b / Doubles.quantum b (k + 1) ≤ ((10 ^ (k + 1) : ℤ) : ℚ) := by
    rw [div_le_iff₀ hpos]
    push_cast
    refine (Doubles.lt_zpow_decade b).le.trans_eq ?_
    rw [zpow_add_one₀ (by decide), hten]
    ring
  have hl := le_roundEven hlow
  have hh := roundEven_le hhigh
  obtain ⟨m, hm⟩ := Int.eq_ofNat_of_zero_le ((by positivity : (0 : ℤ) ≤ 10 ^ k).trans hl)
  rw [hm] at hl hh
  refine ⟨k, m, hk, by rw [Doubles.rounded, hk, hm], by exact_mod_cast hl, by exact_mod_cast hh⟩

theorem stands_positive {b : ℕ} (hb : 0 < b) (negative : Bool) :
    ∃ t, Stands t (signed negative (Doubles.decimal b)) ∧
      signText negative ++ positive b = numberText t := by
  obtain ⟨k, m, hk, hm, hlow, hhigh⟩ := rounded_bounds hb
  have hround : Doubles.roundEven (Doubles.value b / Doubles.quantum b (k + 1)) = m := by
    rw [← hm, Doubles.rounded, hk]
  have hdecimal : Doubles.decimal b = m * 10 ^ (Doubles.decade b - k) := by
    rw [Doubles.decimal, hm, hk, Doubles.quantum]
    push_cast
    congr 2
    omega
  obtain hlt | rfl := hhigh.lt_or_eq
  · obtain ⟨s, i, hs, hnot, rfl⟩ := exists_trimmed ((Nat.pow_pos (by decide)).trans_le hlow)
    have hlen : (Nat.toDigits 10 (s * 10 ^ i)).length = k + 1 := by
      refine le_antisymm ((Nat.length_toDigits_le_iff (by decide) (Nat.succ_pos k)).mpr hlt) ?_
      obtain rfl | hk0 := Nat.eq_zero_or_pos k
      · exact Nat.length_toDigits_pos
      · refine Nat.succ_le_of_lt (not_le.mp fun hle ↦ ?_)
        have := (Nat.length_toDigits_le_iff (by decide) hk0).mp hle
        omega
    have hj : Doubles.decade b + 1 =
        (Doubles.decade b - k + i) + (Nat.toDigits 10 s).length := by
      rw [length_toDigits_shift hs] at hlen
      omega
    refine ⟨layout negative s (Doubles.decade b - k + i), ?_, ?_⟩
    · have hstands := Stands.digits negative s (Doubles.decade b - k + i) hs hnot
      rw [zpow_add₀ (by decide), zpow_natCast] at hstands
      rw [hdecimal, signed]
      push_cast
      convert hstands using 2
      ring
    · rw [positive, exponentialForm, hk, hround, Int.toNat_natCast, if_pos hlt]
      dsimp only
      rw [trimEnd, trim_toDigits hs hnot, hj, ecmaText_toDigits]
  · refine ⟨layout negative 1 (Doubles.decade b + 1), ?_, ?_⟩
    · have hstands := Stands.digits negative 1 (Doubles.decade b + 1) Nat.one_pos (by decide)
      rw [hdecimal, signed]
      convert hstands using 2
      push_cast
      rw [← zpow_natCast, ← zpow_add₀ (by decide), one_mul]
      congr 1
      push_cast
      omega
    · have hdiv : 10 ^ (k + 1) / 10 = 1 * 10 ^ k := by
        rw [Nat.pow_succ, Nat.mul_div_cancel _ (by decide), Nat.one_mul]
      have hone : (Nat.toDigits 10 1).length = 1 := by decide
      rw [positive, exponentialForm, hk, hround, Int.toNat_natCast, if_neg (lt_irrefl _), hdiv]
      dsimp only
      rw [trimEnd, trim_toDigits Nat.one_pos (by decide), ← ecmaText_toDigits, hone]
      rfl

theorem numberFromJson_eq_ok {n : Number} (h : Accepted n) :
    ∃ t, Stands t (shown n) ∧ numberFromJson n = .ok (numberText t) := by
  cases n with
  | posInt n =>
    have hle : (n.toNat : ℤ).natAbs ≤ maxExactInteger := h
    obtain ⟨t, ht, htext⟩ := stands_whole hle
    exact ⟨t, by exact_mod_cast ht, by rw [numberFromJson, wholeNumber, if_pos hle, htext]⟩
  | negInt n =>
    have hle : n.toInt.natAbs ≤ maxExactInteger := h
    obtain ⟨t, ht, htext⟩ := stands_whole hle
    exact ⟨t, ht, by rw [numberFromJson, wholeNumber, if_pos hle, htext]⟩
  | float bits =>
    have hfinite : ¬ Doubles.infinity < magnitude bits := not_lt_of_gt h
    rw [numberFromJson, number, if_neg hfinite, if_neg (ne_of_lt h), shown]
    obtain h0 | hpos := Nat.eq_zero_or_pos (magnitude bits)
    · refine ⟨zero, ?_, by rw [if_pos h0]; rfl⟩
      rw [h0, Doubles.decimal_zero, signed, mul_zero]
      exact .zero
    · obtain ⟨t, ht, htext⟩ := stands_positive hpos (isNegative bits)
      exact ⟨t, ht, by rw [if_neg hpos.ne', htext]⟩

theorem accepted_of_ok {n : Number} {text : List Char} (h : numberFromJson n = .ok text) :
    Accepted n := by
  cases n with
  | posInt n =>
    rw [numberFromJson, wholeNumber] at h
    split at h
    · assumption
    · cases h
  | negInt n =>
    rw [numberFromJson, wholeNumber] at h
    split at h
    · assumption
    · cases h
  | float bits =>
    rw [numberFromJson, number] at h
    split at h
    · cases h
    · split at h
      · cases h
      · rename_i hnan hinf
        exact lt_of_le_of_ne (not_lt.mp hnan) hinf

end Written

section Reread

variable {b s : ℕ} {j : ℤ} {negative : Bool}

/-- A double beyond 2^53 whose text is read as a whole number of 64 bits. -/
def Beyond : Number → Prop
  | .float bits => 2 ^ 53 < Doubles.value (magnitude bits) ∧
      Doubles.value (magnitude bits) < if isNegative bits then 2 ^ 63 else 2 ^ 64
  | _ => False

theorem decimal_exact : Doubles.decimal (Doubles.power 53) = 2 ^ 53 := by
  have hv : Doubles.value (Doubles.power 53) = (2 ^ 53 : ℕ) := by
    rw [Doubles.value_power]
    norm_num
  rw [Doubles.decimal_of_whole hv le_rfl]
  norm_num

theorem exact_lt_iff : 2 ^ 53 < Doubles.value b ↔ 2 ^ 53 < Doubles.decimal b := by
  rw [← Doubles.value_power, Doubles.value_strictMono.lt_iff_lt]
  refine ⟨fun h ↦ Doubles.value_power 53 ▸ Doubles.lt_decimal h, fun h ↦ not_le.mp fun hle ↦ ?_⟩
  rw [Doubles.value_power] at h
  obtain hlt | rfl := hle.lt_or_eq
  · have hd := Doubles.decimal_lt hlt
    rw [Doubles.value_power] at hd
    exact lt_asymm hd h
  · exact h.ne decimal_exact.symm

/-- Where the digits of a power of two lie above it, no magnitude is rounded across it. -/
theorem power_lt_iff {e : ℕ} (he : 2 ^ e < Doubles.decimal (Doubles.power e)) :
    (Doubles.value b < 2 ^ e → Doubles.decimal b < 2 ^ e) ∧
      (¬ Doubles.value b < 2 ^ e → 2 ^ e < Doubles.decimal b) := by
  rw [← Doubles.value_power, Doubles.value_strictMono.lt_iff_lt]
  refine ⟨Doubles.decimal_lt, fun h ↦ ?_⟩
  rw [Doubles.value_power]
  obtain hlt | rfl := (not_lt.mp h).lt_or_eq
  · exact Doubles.lt_decimal hlt
  · exact he

theorem decimal_signed : (2 ^ 63 : ℚ) < Doubles.decimal (Doubles.power 63) := by decide +kernel

theorem decimal_unsigned : (2 ^ 64 : ℚ) < Doubles.decimal (Doubles.power 64) := by
  decide +kernel

theorem double_spec (negative : Bool) {b : ℕ} (hb : b < Doubles.infinity) :
    magnitude (double negative b) = b ∧ isNegative (double negative b) = negative := by
  have hsize : b < 2 ^ 63 := hb.trans (by decide)
  rw [magnitude, isNegative, double]
  cases negative with
  | true =>
    have hnat : (UInt64.ofNat (2 ^ 63 + b)).toNat = 2 ^ 63 + b :=
      UInt64.toNat_ofNat_of_lt' (by rw [UInt64.size]; omega)
    rw [if_pos rfl, hnat]
    exact ⟨by omega, decide_eq_true (by omega)⟩
  | false =>
    have hnat : (UInt64.ofNat b).toNat = b :=
      UInt64.toNat_ofNat_of_lt' (by rw [UInt64.size]; omega)
    rw [if_neg Bool.false_ne_true, hnat]
    exact ⟨by omega, decide_eq_false (by omega)⟩

theorem nearest_decimal (hb : b < Doubles.infinity) : ∃ b', b' < Doubles.infinity ∧
    Doubles.nearest (Doubles.decimal b) = some b' ∧ Doubles.decimal b' = Doubles.decimal b := by
  obtain h | ⟨-, -, -, -, h, heq⟩ := Doubles.reads_decimal b
  · exact ⟨b, hb, (Doubles.nearest_eq_some_iff h.nonneg).mpr ⟨hb, h⟩, rfl⟩
  · have hlt : b - 1 < Doubles.infinity := (Nat.sub_le b 1).trans_lt hb
    exact ⟨b - 1, hlt, (Doubles.nearest_eq_some_iff h.nonneg).mpr ⟨hlt, h⟩, heq⟩

theorem lower_one_le (hb : 0 < b) : Doubles.lower 1 ≤ Doubles.decimal b := by
  obtain h | ⟨-, -, -, hdiv, h, -⟩ := Doubles.reads_decimal b
  · exact (Doubles.lower_strictMono.monotone hb).trans h.lower_le
  · exact (Doubles.lower_strictMono.monotone (by omega : 1 ≤ b - 1)).trans h.lower_le

/-- The exponents of doubles are small. -/
theorem exponent_le (hb : 0 < b) (hfin : b < Doubles.infinity) (hs : 0 < s)
    (h : Doubles.decimal b = s * 10 ^ j) :
    (j + (Nat.toDigits 10 s).length - 1).natAbs ≤ maxExponent := by
  have hplaces : Doubles.places = 1074 := rfl
  obtain ⟨k, hk⟩ := Nat.exists_eq_succ_of_ne_zero
    (List.length_pos_of_ne_nil (digits_toDigits s).1).ne'
  have hhigh : s < 10 ^ (k + 1) := (Nat.length_toDigits_le_iff (by decide) (Nat.succ_pos k)).mp hk.le
  have hpos : (0 : ℚ) < 10 ^ j := zpow_pos (by decide) j
  have hlow : 10 ^ k ≤ s := by
    obtain rfl | hk0 := Nat.eq_zero_or_pos k
    · exact hs
    · refine not_lt.mp fun hlt ↦ ?_
      have hle := (Nat.length_toDigits_le_iff (by decide) hk0).mpr hlt
      omega
  have htop : (10 : ℚ) ^ (k + j) < 10 ^ (1024 : ℤ) := by
    have hinf : Doubles.decimal b < Doubles.value (Doubles.power 1024) := Doubles.decimal_lt hfin
    have hle : (10 : ℚ) ^ (k + j) ≤ s * 10 ^ j := by
      rw [zpow_add₀ (by decide)]
      refine mul_le_mul_of_nonneg_right ?_ hpos.le
      exact_mod_cast hlow
    rw [Doubles.value_power, h] at hinf
    exact (hle.trans_lt hinf).trans_le (pow_le_pow_left₀ (by decide) (by decide) 1024)
  have hbottom : (10 : ℚ) ^ (-(Doubles.places + 1) : ℤ) < 10 ^ (k + 1 + j) := by
    have hlow := lower_one_le hb
    have hunits : Doubles.units 1 = 1 := by decide
    have hlower : Doubles.lower 1 = (2 ^ (Doubles.places + 1) : ℚ)⁻¹ := by
      rw [Doubles.lower, Doubles.value_zero, Doubles.value, hunits, Doubles.scale, pow_succ,
        mul_inv, zero_add, Nat.cast_one, one_div, div_eq_mul_inv]
    have hlt : Doubles.decimal b < 10 ^ (k + 1 + j) := by
      rw [h, zpow_add₀ (by decide)]
      refine mul_lt_mul_of_pos_right ?_ hpos
      exact_mod_cast hhigh
    refine lt_of_le_of_lt ?_ (hlow.trans_lt hlt)
    rw [hlower, zpow_neg]
    refine inv_anti₀ (pow_pos (by decide) _) ?_
    exact pow_le_pow_left₀ (by decide) (by decide) (Doubles.places + 1)
  have htop' := (zpow_lt_zpow_iff_right₀ (by decide : (1 : ℚ) < 10)).mp htop
  have hbottom' := (zpow_lt_zpow_iff_right₀ (by decide : (1 : ℚ) < 10)).mp hbottom
  have hmax : maxExponent = 2147483647 := by decide
  rw [hk, hmax]
  push_cast
  omega

/-- A token of digits without a point and an exponent. -/
def Whole (t : NumberToken) : Prop := t.fraction = [] ∧ t.exponent = none

instance (t : NumberToken) : Decidable (Whole t) := inferInstanceAs (Decidable (_ ∧ _))

theorem whole_layout (hs : 0 < s) (h : Whole (layout negative s j)) :
    ∃ m : ℕ, 0 < m ∧ (m : ℚ) = s * 10 ^ j ∧ (layout negative s j).significand = m := by
  obtain ⟨i, rfl, -, hl⟩ | ⟨n, -, hn, -, hl⟩ | ⟨i, -, hl⟩ | ⟨e, -, -, hl⟩ :=
    layout_cases negative hs j
  · refine ⟨s * 10 ^ i, Nat.mul_pos hs (Nat.pow_pos (by decide)), by push_cast; rfl, ?_⟩
    rw [hl, NumberToken.significand, List.append_nil, naturalOf_toDigits]
  · rw [hl] at h
    have hle := List.drop_eq_nil_iff.mp h.1
    omega
  · rw [hl] at h
    exact absurd (List.append_eq_nil_iff.mp h.1).2 (digits_toDigits s).1
  · rw [hl] at h
    cases h.2

theorem whole_of_lt (hs : 0 < s) (hnot : ¬ 10 ∣ s) {m : ℕ} (h : (s : ℚ) * 10 ^ j = m)
    (hm : m < 10 ^ 21) : Whole (layout negative s j) := by
  have hpos : 0 < m := by exact_mod_cast h ▸ signed_pos hs j
  obtain ⟨s', i, hs', hnot', rfl⟩ := exists_trimmed hpos
  have hcast : ((s' * 10 ^ i : ℕ) : ℚ) = s' * 10 ^ (i : ℤ) := by
    push_cast
    rfl
  rw [hcast] at h
  obtain ⟨rfl, rfl⟩ := trimmed_unique hnot hnot' h
  have hlen := (Nat.length_toDigits_le_iff (by decide : 1 < 10) (by decide)).mpr hm
  rw [length_toDigits_shift hs] at hlen
  have hne := List.length_pos_of_ne_nil (digits_toDigits s).1
  obtain ⟨_, -, -, hl⟩ | ⟨n, -, hn, hi, -⟩ | ⟨i', hi, -⟩ | ⟨e, hi, hn, -⟩ :=
    layout_cases negative hs (i : ℤ)
  · rw [hl]
    exact ⟨rfl, rfl⟩
  · omega
  · omega
  · omega

/-- A whole token within 64 bits is read as it stands. -/
theorem parseNumber_whole {m : ℕ} (hm : 0 < m) {t : NumberToken} (hw : Whole t)
    (hsig : t.significand = m) (hlimit : if t.negative then m ≤ 2 ^ 63 else m < 2 ^ 64) :
    ∃ n, parseNumber t = some n ∧ shown n = signed t.negative m ∧ ¬ Beyond n ∧
      (Accepted n ↔ m ≤ maxExactInteger) := by
  have hnot : ¬ (t.fraction ≠ [] ∨ t.exponent ≠ none) := not_or.mpr ⟨not_not.mpr hw.1, not_not.mpr hw.2⟩
  rw [parseNumber, if_neg hnot, hsig]
  cases hn : t.negative with
  | true =>
    rw [hn] at hlimit
    simp only [if_true] at hlimit
    have hint : (Int64.ofInt (-m)).toInt = -m := Int64.toInt_ofInt_of_le (by omega) (by omega)
    refine ⟨.negInt (Int64.ofInt (-m)), by rw [if_pos rfl, if_pos ⟨hm, hlimit⟩], ?_, id, ?_⟩
    · rw [shown, hint, signed]
      push_cast
      simp
    · rw [Accepted, hint, Int.natAbs_neg, Int.natAbs_natCast]
  | false =>
    rw [hn] at hlimit
    simp only [Bool.false_eq_true, if_false] at hlimit
    have hnat : (UInt64.ofNat m).toNat = m := UInt64.toNat_ofNat_of_lt' hlimit
    refine ⟨.posInt (UInt64.ofNat m), by rw [if_neg Bool.false_ne_true, if_pos hlimit], ?_, id, ?_⟩
    · rw [shown, hnat, signed]
      simp
    · rw [Accepted, hnat]

theorem parseNumber_zero : ∃ n, parseNumber zero = some n ∧ shown n = 0 ∧ Accepted n := by
  refine ⟨.posInt 0, by decide, ?_, Nat.zero_le _⟩
  rw [shown]
  rfl

/-- A token that is not read as it stands is read as a double of the same digits. -/
theorem floatOf_layout (hb : 0 < b) (hfin : b < Doubles.infinity) (hs : 0 < s)
    (h : Doubles.decimal b = s * 10 ^ j) : ∃ n, floatOf (layout negative s j) = some n ∧
      shown n = signed negative (Doubles.decimal b) ∧ Accepted n := by
  obtain ⟨b', hfin', hnear, heq⟩ := nearest_decimal hfin
  have hnearest : nearestOf (layout negative s j) = some b' := by
    have habs : Doubles.nearest (layout negative s j).absolute = some b' := by
      rw [absolute_layout hs, ← h, hnear]
    have hbound := exponent_le hb hfin hs h
    rw [nearestOf]
    obtain ⟨i, -, -, hl⟩ | ⟨n, -, -, -, hl⟩ | ⟨i, -, hl⟩ | ⟨e, he, -, hl⟩ :=
      layout_cases negative hs j
    · rw [hl] at habs ⊢
      exact habs
    · rw [hl] at habs ⊢
      exact habs
    · rw [hl] at habs ⊢
      exact habs
    · have hexp : ¬ maxExponent < naturalOf (Nat.toDigits 10 e.natAbs) := by
        have he' : e = j + (Nat.toDigits 10 s).length - 1 := by omega
        rw [naturalOf_toDigits, he']
        exact not_lt.mpr hbound
      rw [hl] at habs ⊢
      simp only [if_neg hexp, habs]
  refine ⟨_, by rw [floatOf, hnearest]; rfl, ?_⟩
  obtain ⟨hmag, hneg⟩ := double_spec negative hfin'
  rw [negative_layout, shown, Accepted, hmag, hneg, heq]
  exact ⟨rfl, hfin'⟩

/-- Whole numbers up to 2^53 are read back as they are. -/
theorem parseNumber_exact {i : ℤ} (hi : i.natAbs ≤ maxExactInteger) {t : NumberToken}
    (ht : Stands t i) : ∃ n, parseNumber t = some n ∧ shown n = i ∧ Accepted n := by
  generalize hq : (i : ℚ) = q at ht
  cases ht with
  | zero => exact parseNumber_zero
  | digits negative s j hs hnot =>
    have habs : (s : ℚ) * 10 ^ j = i.natAbs := by
      have hpos := signed_pos hs j
      rw [Nat.cast_natAbs, Int.cast_abs, hq, abs_mul, abs_of_pos hpos]
      cases negative <;> simp
    have hw := @whole_of_lt s j negative hs hnot _ habs (hi.trans_lt (by decide))
    obtain ⟨m, hm, hmq, hsig⟩ := whole_layout hs hw
    have hmi : m = i.natAbs := by exact_mod_cast hmq.trans habs
    have hmax : maxExactInteger = 9007199254740992 := by decide
    obtain ⟨n', hn', hshown, -, hacc⟩ := parseNumber_whole hm hw hsig (by split <;> omega)
    refine ⟨n', hn', ?_, hacc.mpr (hmi.trans_le hi)⟩
    rw [hshown, negative_layout, signed, hmq]

/-- The limit of the whole numbers of 64 bits lies between doubles, for their digits as well. -/
theorem limit_iff (b : ℕ) (negative : Bool) :
    (Doubles.value b < if negative then 2 ^ 63 else 2 ^ 64) ↔
      if negative then Doubles.decimal b ≤ 2 ^ 63 else Doubles.decimal b < 2 ^ 64 := by
  obtain ⟨hs, hs'⟩ := @power_lt_iff b 63 decimal_signed
  obtain ⟨hu, hu'⟩ := @power_lt_iff b 64 decimal_unsigned
  cases negative with
  | true => exact ⟨fun h ↦ (hs h).le, fun h ↦ by_contra fun hn ↦ not_lt_of_ge h (hs' hn)⟩
  | false => exact ⟨hu, fun h ↦ by_contra fun hn ↦ lt_asymm h (hu' hn)⟩

/-- Beyond 2^53 and below the limit a double is written as a whole number. -/
theorem whole_of_beyond (hs : 0 < s) (hnot : ¬ 10 ∣ s) (heq : Doubles.decimal b = s * 10 ^ j)
    (hlow : 2 ^ 53 < Doubles.decimal b)
    (hlimit : if negative then Doubles.decimal b ≤ 2 ^ 63 else Doubles.decimal b < 2 ^ 64) :
    Whole (layout negative s j) := by
  have hlarge : Doubles.power 53 < b := by
    rwa [← Doubles.value_strictMono.lt_iff_lt, Doubles.value_power, exact_lt_iff]
  obtain ⟨m, hm⟩ := Doubles.decimal_whole hlarge
  have hlt : (m : ℚ) < 2 ^ 64 := by
    rw [← hm]
    split at hlimit
    · exact hlimit.trans_lt (by norm_num)
    · exact hlimit
  have hlt' : m < 2 ^ 64 := by exact_mod_cast hlt
  exact whole_of_lt hs hnot (heq.symm.trans hm) (hlt'.trans (by norm_num))

theorem parseNumber_double (hb : 0 < b) (hfin : b < Doubles.infinity) (hs : 0 < s)
    (hnot : ¬ 10 ∣ s) (heq : Doubles.decimal b = s * 10 ^ j) :
    ∃ n, parseNumber (layout negative s j) = some n ∧
      shown n = signed negative (Doubles.decimal b) ∧ (Accepted n ↔
        ¬ (2 ^ 53 < Doubles.decimal b ∧
          if negative then Doubles.decimal b ≤ 2 ^ 63 else Doubles.decimal b < 2 ^ 64)) := by
  obtain ⟨nf, hnf, hshown, haccf⟩ := @floatOf_layout _ s j negative hb hfin hs heq
  by_cases hw : Whole (layout negative s j)
  · obtain ⟨m, hm, hmq, hsig⟩ := whole_layout hs hw
    rw [heq, ← hmq]
    have hlimit : (if negative then (m : ℚ) ≤ 2 ^ 63 else (m : ℚ) < 2 ^ 64) ↔
        if negative then m ≤ 2 ^ 63 else m < 2 ^ 64 := by
      split <;> exact_mod_cast Iff.rfl
    have hexact : (2 ^ 53 < (m : ℚ)) ↔ 2 ^ 53 < m := by exact_mod_cast Iff.rfl
    rw [hlimit, hexact]
    by_cases hl : if negative then m ≤ 2 ^ 63 else m < 2 ^ 64
    · obtain ⟨n', hn', hshown', -, hacc⟩ :=
        parseNumber_whole hm hw hsig (by rwa [negative_layout])
      rw [negative_layout] at hshown'
      refine ⟨n', hn', hshown', hacc.trans ?_⟩
      rw [and_iff_left hl, not_lt, maxExactInteger]
    · refine ⟨nf, ?_, by rw [hshown, heq, hmq], iff_of_true haccf fun hb ↦ hl hb.2⟩
      rw [parseNumber, if_neg (not_or.mpr ⟨not_not.mpr hw.1, not_not.mpr hw.2⟩),
        negative_layout, hsig]
      cases negative with
      | true => rw [if_pos rfl, if_neg fun h ↦ hl h.2, hnf]
      | false => rw [if_neg Bool.false_ne_true, if_neg (show ¬ m < 2 ^ 64 from hl), hnf]
  · refine ⟨nf, ?_, hshown, iff_of_true haccf fun hb ↦ hw ?_⟩
    · rw [parseNumber, if_pos, hnf]
      by_contra hnot
      exact hw ⟨not_not.mp (not_or.mp hnot).1, not_not.mp (not_or.mp hnot).2⟩
    · exact whole_of_beyond hs hnot heq hb.1 hb.2

/-- The text of a number is read as a number of the same text; it is accepted again unless the
number was a double beyond the whole numbers that are. -/
theorem parseNumber_shown {n : Number} (h : Accepted n) {t : NumberToken}
    (ht : Stands t (shown n)) :
    ∃ n', parseNumber t = some n' ∧ shown n' = shown n ∧ (Accepted n' ↔ ¬ Beyond n) := by
  cases n with
  | posInt n =>
    obtain ⟨n', hn', hshown, hacc⟩ := @parseNumber_exact n.toNat h _ (by exact_mod_cast ht)
    exact ⟨n', hn', hshown.trans (Int.cast_natCast _), iff_of_true hacc id⟩
  | negInt n =>
    obtain ⟨n', hn', hshown, hacc⟩ := parseNumber_exact h ht
    exact ⟨n', hn', hshown, iff_of_true hacc id⟩
  | float bits =>
    have hfin : magnitude bits < Doubles.infinity := h
    obtain h0 | hpos := Nat.eq_zero_or_pos (magnitude bits)
    · have hzero : shown (.float bits) = 0 := by
        rw [shown, h0, Doubles.decimal_zero, signed, mul_zero]
      rw [hzero] at ht ⊢
      obtain rfl := ht.unique .zero
      obtain ⟨n', hn', hshown, hacc⟩ := parseNumber_zero
      refine ⟨n', hn', hshown, iff_of_true hacc fun hb ↦ ?_⟩
      rw [Beyond, h0, Doubles.value_zero] at hb
      exact absurd hb.1 (by norm_num)
    · generalize hq : shown (.float bits) = q at ht
      have hd := Doubles.decimal_pos hpos
      cases ht with
      | zero =>
        rw [shown] at hq
        refine absurd hq (mul_ne_zero ?_ hd.ne')
        cases isNegative bits <;> simp
      | digits negative s j hs hnot =>
        obtain ⟨hneg, heq⟩ := signed_inj hd (signed_pos hs j) hq
        rw [← hq, shown, Beyond, hneg, exact_lt_iff, limit_iff]
        exact parseNumber_double hpos hfin hs hnot heq

end Reread

section Numeric

/-- The number itself, not what its text stands for. -/
def numeric : Number → ℚ
  | .posInt n => n.toNat
  | .negInt n => n.toInt
  | .float bits => signed (isNegative bits) (Doubles.value (magnitude bits))

/-- Of a double, both it and the next one are read back from their own digits. -/
def Distinct : Number → Prop
  | .float bits => Doubles.Faithful (magnitude bits) ∧ Doubles.Faithful (magnitude bits + 1)
  | _ => True

theorem numeric_eq_of_whole {bits : UInt64} {i : ℤ} (h : shown (.float bits) = i)
    (hi : i.natAbs ≤ maxExactInteger) : numeric (.float bits) = i := by
  rw [shown] at h
  have hd : Doubles.decimal (magnitude bits) = i.natAbs := by
    have habs : |signed (isNegative bits) (Doubles.decimal (magnitude bits))| =
        Doubles.decimal (magnitude bits) := by
      have hnonneg : 0 ≤ Doubles.decimal (magnitude bits) := by
        obtain h0 | hpos := Nat.eq_zero_or_pos (magnitude bits)
        · rw [h0, Doubles.decimal_zero]
        · exact (Doubles.decimal_pos hpos).le
      rw [signed]
      cases isNegative bits <;> simp [abs_of_nonneg hnonneg]
    rw [← habs, h, Nat.cast_natAbs, Int.cast_abs]
  have hle : magnitude bits ≤ Doubles.power 53 := by
    by_contra hlt
    have hlt' := Doubles.lt_decimal (not_le.mp hlt)
    rw [hd] at hlt'
    have hlt'' : 2 ^ 53 < i.natAbs := by exact_mod_cast hlt'
    exact absurd hi (not_le_of_gt hlt'')
  rw [numeric, Doubles.value_of_decimal hd hle, ← hd, h]

/-- Only at powers of two digits are not told apart. -/
theorem distinct_of_mod {bits : UInt64} (h : magnitude bits % 2 ^ 52 ≠ 0)
    (h' : (magnitude bits + 1) % 2 ^ 52 ≠ 0) : Distinct (.float bits) := by
  obtain hf | ⟨-, -, hmod, -⟩ := Doubles.reads_decimal (magnitude bits)
  · obtain hf' | ⟨-, -, hmod, -⟩ := Doubles.reads_decimal (magnitude bits + 1)
    · exact ⟨hf, hf'⟩
    · exact absurd hmod h'
  · exact absurd hmod h

/-- Numbers of the same text are equal where the digits are told apart. -/
theorem numeric_eq_of_shown {n n' : Number} (hn : Accepted n) (hn' : Accepted n')
    (hd : Distinct n) (h : shown n = shown n') : numeric n = numeric n' := by
  have hnat : ∀ m : UInt64, ((m.toNat : ℤ) : ℚ) = m.toNat := fun m ↦ Int.cast_natCast _
  cases n with
  | posInt m =>
    cases n' with
    | posInt m' => exact h
    | negInt i => exact h
    | float bits =>
      have hm : (m.toNat : ℤ).natAbs ≤ maxExactInteger := hn
      rw [numeric_eq_of_whole (h.symm.trans (hnat m).symm) hm]
      exact (hnat m).symm
  | negInt i =>
    cases n' with
    | posInt m' => exact h
    | negInt i' => exact h
    | float bits => exact (numeric_eq_of_whole h.symm hn).symm
  | float bits =>
    cases n' with
    | posInt m =>
      have hm : (m.toNat : ℤ).natAbs ≤ maxExactInteger := hn'
      rw [numeric_eq_of_whole (h.trans (hnat m).symm) hm]
      exact hnat m
    | negInt i => exact numeric_eq_of_whole h hn'
    | float bits' =>
      rw [shown, shown] at h
      rw [numeric, numeric]
      have hzero : ∀ {b b' : ℕ} {m m' : Bool}, b = 0 →
          signed m (Doubles.decimal b) = signed m' (Doubles.decimal b') → b' = 0 := by
        rintro b b' m m' rfl h
        rw [Doubles.decimal_zero, signed, mul_zero] at h
        by_contra hne
        refine mul_ne_zero ?_ (Doubles.decimal_pos (Nat.pos_of_ne_zero hne)).ne' h.symm
        cases m' <;> simp
      obtain h0 | hpos := Nat.eq_zero_or_pos (magnitude bits)
      · rw [h0, hzero h0 h, Doubles.value_zero, signed, signed, mul_zero, mul_zero]
      · have hpos' : 0 < magnitude bits' :=
          Nat.pos_of_ne_zero fun h0 ↦ hpos.ne' (hzero h0 h.symm)
        obtain ⟨hsign, hdecimal⟩ :=
          signed_inj (Doubles.decimal_pos hpos) (Doubles.decimal_pos hpos') h
        obtain heq | ⟨heq, hnot⟩ | ⟨heq, hnot⟩ := Doubles.eq_or_of_decimal_eq hdecimal
        · rw [hsign, heq]
        · exact absurd hd.1 hnot
        · exact absurd (heq ▸ hd.2) hnot

theorem faithful_infinity : Doubles.Faithful Doubles.infinity := by decide +kernel

/-- Where the digits are not told apart, another number has the same text. -/
theorem exists_same_text {n : Number} (hn : Accepted n) (hd : ¬ Distinct n) :
    ∃ n', Accepted n' ∧ shown n' = shown n ∧ numeric n ≠ numeric n' := by
  cases n with
  | posInt m => exact absurd trivial hd
  | negInt i => exact absurd trivial hd
  | float bits =>
    have hfin : magnitude bits < Doubles.infinity := hn
    have hother : ∀ b, b < Doubles.infinity → b ≠ magnitude bits →
        Doubles.decimal b = Doubles.decimal (magnitude bits) →
        ∃ n', Accepted n' ∧ shown n' = shown (.float bits) ∧
          numeric (.float bits) ≠ numeric n' := by
      intro b hb hne heq
      obtain ⟨hmag, hneg⟩ := double_spec (isNegative bits) hb
      refine ⟨.float (double (isNegative bits) b), by rwa [Accepted, hmag], ?_, ?_⟩
      · rw [shown, shown, hmag, hneg, heq]
      · rw [numeric, numeric, hmag, hneg]
        intro h
        refine hne (Doubles.value_strictMono.injective ?_).symm
        refine mul_left_cancel₀ ?_ h
        cases isNegative bits <;> simp
    obtain hf | ⟨hpos, -, -, -, -, heq⟩ := Doubles.reads_decimal (magnitude bits)
    · obtain hf' | ⟨-, hnot, -, -, -, heq⟩ := Doubles.reads_decimal (magnitude bits + 1)
      · exact absurd ⟨hf, hf'⟩ hd
      · have hfin' : magnitude bits + 1 < Doubles.infinity :=
          lt_of_le_of_ne hfin fun h ↦ hnot (h ▸ faithful_infinity)
        exact hother _ hfin' (Nat.succ_ne_self _) (by rw [← heq, Nat.add_sub_cancel])
    · exact hother _ ((Nat.sub_le _ 1).trans_lt hfin) (by omega) heq

end Numeric

end FolderClient.Crypto.JcsNumbers
