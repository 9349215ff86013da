import FolderClient.Core.Time
import FolderClient.Library.Results
import Mathlib.Tactic.IntervalCases

namespace FolderClient.Core.Calendar

open FolderClient.Core.Namespace FolderClient.Core.Time FolderClient.Library.Results
open FolderClient.Library.Texts

section Years

/-- The place of a day in its era of 400 years: the year, and the day of the year, both counted
from March. -/
structure Placed (dayOfEra yearOfEra dayOfYear : ℤ) : Prop where
  days : dayOfEra = yearOfEra * 365 + yearOfEra / 4 - yearOfEra / 100 + dayOfYear
  year_nonneg : 0 ≤ yearOfEra
  year_lt : yearOfEra < 400
  day_nonneg : 0 ≤ dayOfYear
  day_le : dayOfYear ≤ 365
  leap : dayOfYear = 365 → (yearOfEra + 1) % 4 = 0 ∧
    ((yearOfEra + 1) % 100 ≠ 0 ∨ (yearOfEra + 1) % 400 = 0)

theorem placed {doe : ℤ} (h : 0 ≤ doe) (h' : doe < 146097) :
    Placed doe ((doe - doe / 1460 + doe / 36524 - doe / 146096) / 365)
      (doe - (365 * ((doe - doe / 1460 + doe / 36524 - doe / 146096) / 365) +
        (doe - doe / 1460 + doe / 36524 - doe / 146096) / 365 / 4 -
          (doe - doe / 1460 + doe / 36524 - doe / 146096) / 365 / 100)) := by
  generalize hf : doe / 36524 = f
  generalize hg : doe / 146096 = g
  generalize hy : (doe - doe / 1460 + f - g) / 365 = year
  generalize hd : year / 100 = d
  -- whole centuries and the last day of an era are few: each is a linear problem of its own
  have hf' : 0 ≤ f ∧ f ≤ 4 := by omega
  have hg' : 0 ≤ g ∧ g ≤ 1 := by omega
  have hd' : 0 ≤ d ∧ d ≤ 3 := by omega
  obtain ⟨hf₁, hf₂⟩ := hf'
  obtain ⟨hg₁, hg₂⟩ := hg'
  obtain ⟨hd₁, hd₂⟩ := hd'
  refine ⟨by omega, by omega, by omega, ?_, ?_, ?_⟩
  · interval_cases f <;> interval_cases g <;> interval_cases d <;> omega
  · interval_cases f <;> interval_cases g <;> interval_cases d <;> omega
  · intro hlast
    obtain ⟨q, r, hr, hr', rfl⟩ : ∃ q r, 0 ≤ r ∧ r ≤ 3 ∧ year = 4 * q + r :=
      ⟨year / 4, year % 4, by omega, by omega, by omega⟩
    have hq : doe / 1460 = q ∨ doe / 1460 = q + 1 := by interval_cases r <;> omega
    interval_cases r <;> interval_cases g <;> omega

end Years

theorem dayFromCivil_eq {yoe era mp day : ℤ} (hy : 0 ≤ yoe) (hy' : yoe < 400) (hm : 0 ≤ mp)
    (hm' : mp ≤ 11) :
    dayFromCivil (yoe + era * 400 + if (if mp < 10 then mp + 3 else mp - 9) ≤ 2 then 1 else 0)
        (if mp < 10 then mp + 3 else mp - 9) day =
      era * 146097 + (yoe * 365 + yoe / 4 - yoe / 100 + ((153 * mp + 2) / 5 + day - 1)) -
        719468 := by
  generalize hmonth : (if mp < 10 then mp + 3 else mp - 9) = month
  have hback : (month + 9) % 12 = mp := by
    rw [← hmonth]
    split <;> omega
  have hyear : (if month ≤ 2 then (yoe + era * 400 + if month ≤ 2 then 1 else 0) - 1
      else yoe + era * 400 + if month ≤ 2 then 1 else 0) = yoe + era * 400 := by
    split <;> omega
  have hera : (yoe + era * 400) / 400 = era := by omega
  have hyoe : yoe + era * 400 - era * 400 = yoe := by omega
  simp only [dayFromCivil, hyear, hera, hyoe, hback]

/-- A day as its civil date: the date is a valid one, counts back to the day, and tells on which
side of the year 0 and of the year 10000 the day lies. -/
structure Dated (days year month day : ℤ) : Prop where
  back : dayFromCivil year month day = days
  month_pos : 1 ≤ month
  month_le : month ≤ 12
  day_pos : 1 ≤ day
  day_le : day ≤ dayInMonth year month
  year_nonneg : 0 ≤ year ↔ -719528 ≤ days
  year_lt : year < 10000 ↔ days < 2932897

theorem dated (days : ℤ) :
    Dated days (civilFromDay days).1 (civilFromDay days).2.1 (civilFromDay days).2.2 := by
  have hdoe : 0 ≤ days + 719468 - (days + 719468) / 146097 * 146097 ∧
      days + 719468 - (days + 719468) / 146097 * 146097 < 146097 := by omega
  have hplaced := placed hdoe.1 hdoe.2
  unfold civilFromDay
  dsimp only
  generalize hera : (days + 719468) / 146097 = era at *
  generalize hd : days + 719468 - era * 146097 = doe at *
  generalize (doe - doe / 1460 + doe / 36524 - doe / 146096) / 365 = yoe at *
  generalize doe - (365 * yoe + yoe / 4 - yoe / 100) = doy at *
  obtain ⟨hdays, hy, hy', hdoy, hdoy', hleap⟩ := hplaced
  generalize hmp : (5 * doy + 2) / 153 = mp
  have hmp' : 0 ≤ mp ∧ mp ≤ 11 := by omega
  obtain ⟨hm₁, hm₂⟩ := hmp'
  have hfeb : isLeapYear (yoe + era * 400 + 1) = true ↔ (yoe + 1) % 4 = 0 ∧
      ((yoe + 1) % 100 ≠ 0 ∨ (yoe + 1) % 400 = 0) := by
    simp only [isLeapYear, Bool.or_eq_true, Bool.and_eq_true, decide_eq_true_eq]
    omega
  -- January and February of the last year of an era end it, and count to the next one
  have hlate : 306 ≤ doy ↔ 10 ≤ mp := by omega
  have hend : yoe ≤ 398 → yoe * 365 + yoe / 4 - yoe / 100 + doy < 146037 := by omega
  have hsign : era < -1 ∨ era = -1 ∨ 0 ≤ era := by omega
  have hsign' : era < 24 ∨ era = 24 ∨ 25 ≤ era := by omega
  refine ⟨?_, ?_, ?_, ?_, ?_, ?_, ?_⟩
  · rw [dayFromCivil_eq hy hy' hm₁ hm₂]
    omega
  · split <;> omega
  · split <;> omega
  · omega
  · unfold dayInMonth
    interval_cases mp <;> norm_num <;> try omega
    simp only [hfeb]
    split <;> omega
  · rcases hsign with hsign | rfl | hsign <;> split <;> split <;> omega
  · rcases hsign' with hsign | rfl | hsign <;> split <;> split <;> omega

section Digits

/-- A byte that stands for a digit. -/
def digitByte (c : Char) : UInt8 := UInt8.ofNat c.toNat

theorem isDigit_padded {w n : ℕ} {c : Char} (h : c ∈ padded w n) : c.isDigit = true := by
  have hn : ¬ (n : ℤ) < 0 := by omega
  simp only [padded, hn, if_false, List.nil_append, Int.natAbs_natCast, List.mem_append,
    List.mem_replicate] at h
  rcases h with ⟨-, rfl⟩ | h
  · rfl
  · exact Nat.isDigit_of_mem_toDigits (by decide) (by decide) h

theorem length_padded {w n : ℕ} (hw : 0 < w) (h : n < 10 ^ w) : (padded w n).length = w := by
  have hn : ¬ (n : ℤ) < 0 := by omega
  have hlen : (Nat.toDigits 10 n).length ≤ w := (Nat.length_toDigits_le_iff (by decide) hw).mpr h
  simp only [padded, hn, if_false, List.nil_append, Int.natAbs_natCast, List.length_append,
    List.length_replicate, List.length_nil]
  omega

theorem ofDigitChars_padded (w n : ℕ) : Nat.ofDigitChars 10 (padded w n) 0 = n := by
  have hn : ¬ (n : ℤ) < 0 := by omega
  simp only [padded, hn, if_false, List.nil_append, Int.natAbs_natCast, Nat.ofDigitChars_append,
    Nat.ofDigitChars_replicate_zero, mul_zero, Nat.ofDigitChars_ten_toDigits]

theorem toNat_lt_of_isDigit {c : Char} (h : c.isDigit = true) : 48 ≤ c.toNat ∧ c.toNat ≤ 57 := by
  simp only [Char.isDigit, Bool.and_eq_true, decide_eq_true_eq] at h
  exact h

theorem toNat_digitByte {c : Char} (h : c.isDigit = true) : (digitByte c).toNat = c.toNat := by
  have hc := toNat_lt_of_isDigit h
  exact UInt8.toNat_ofNat_of_lt' (by have : UInt8.size = 256 := rfl; omega)

theorem isDigit_digitByte {c : Char} (h : c.isDigit = true) : isDigit (digitByte c) = true := by
  have hc := toNat_lt_of_isDigit h
  simp only [isDigit, Bool.and_eq_true, decide_eq_true_eq, UInt8.le_iff_toNat_le,
    toNat_digitByte h]
  exact hc

theorem value_digitBytes {l : List Char} (h : ∀ c ∈ l, c.isDigit = true) :
    value (l.map digitByte) = (Nat.ofDigitChars 10 l 0 : ℕ) := by
  have hfold : ∀ n : ℕ, (l.map digitByte).foldl
      (fun (n : ℤ) b ↦ n * 10 + (b.toNat - 48 : ℕ)) n = (Nat.ofDigitChars 10 l n : ℕ) := by
    induction l with
    | nil => exact fun n ↦ by simp
    | cons c l ih =>
      intro n
      have hc := toNat_digitByte (h c List.mem_cons_self)
      have hstep : ((n : ℤ) * 10 + ((digitByte c).toNat - 48 : ℕ)) =
          ((10 * n + (c.toNat - 48) : ℕ) : ℤ) := by
        rw [hc]
        omega
      rw [List.map_cons, List.foldl_cons, hstep, Nat.ofDigitChars_cons]
      exact ih (fun c hc ↦ h c (List.mem_cons_of_mem _ hc)) _
  exact hfold 0

theorem value_padded (w n : ℕ) : value ((padded w n).map digitByte) = n := by
  rw [value_digitBytes fun c hc ↦ isDigit_padded hc, ofDigitChars_padded]

theorem utf8EncodeChar_ascii {c : Char} (h : c.toNat < 128) :
    String.utf8EncodeChar c = [digitByte c] := by
  have hc : c.val.toNat ≤ 0x7f := by
    have hval : c.val.toNat = c.toNat := rfl
    omega
  simp only [String.utf8EncodeChar, if_pos hc]
  rfl

theorem utf8_ofList_ascii {l : List Char} (h : ∀ c ∈ l, c.toNat < 128) :
    utf8 (String.ofList l) = l.map digitByte := by
  rw [utf8, String.toList_ofList]
  induction l with
  | nil => rfl
  | cons c l ih =>
    rw [List.flatMap_cons, utf8EncodeChar_ascii (h c List.mem_cons_self),
      ih fun c hc ↦ h c (List.mem_cons_of_mem _ hc)]
    rfl

end Digits

section Reading

variable {text : String}

theorem isBoundary_append {pre post : List UInt8} (h : utf8 text = pre ++ post)
    (hpost : ∀ b ∈ post.head?, b < 128) : isBoundary text pre.length = true := by
  unfold isBoundary
  rw [h, List.getElem?_append_right (le_refl _), Nat.sub_self]
  cases post with
  | nil => simp
  | cons b post => simp [hpost b rfl]

theorem number_eq (pre digits post : List UInt8) (h : utf8 text = pre ++ (digits ++ post))
    (hd : digits.all isDigit = true) (hpost : ∀ b ∈ post.head?, b < 128) (hne : digits ≠ []) :
    number text pre.length (pre.length + digits.length) = .ok (value digits) := by
  have hstart : isBoundary text pre.length = true := by
    refine isBoundary_append h fun b hb ↦ ?_
    obtain ⟨d, rest, rfl⟩ := List.exists_cons_of_ne_nil hne
    obtain rfl := Option.some.inj hb
    have hdigit := List.all_eq_true.mp hd d List.mem_cons_self
    simp only [isDigit, Bool.and_eq_true, decide_eq_true_eq, UInt8.le_iff_toNat_le] at hdigit
    exact UInt8.lt_iff_toNat_lt.mpr (lt_of_le_of_lt hdigit.2 (by decide))
  have hstop : isBoundary text (pre.length + digits.length) = true := by
    rw [← List.length_append]
    exact isBoundary_append (h.trans (List.append_assoc ..).symm) hpost
  have hpart : (utf8 text).extract pre.length (pre.length + digits.length) = digits := by
    rw [h, List.extract_eq_take_drop, List.drop_left, Nat.add_sub_cancel_left, List.take_left]
  simp only [number, hstart, hstop, hpart, hd, and_self, not_true_eq_false, if_false, if_true]

/-- The RFC 3339 form of a date, a time of day and milliseconds. -/
def stamp (year month day hour minute second millis : ℤ) : String :=
  String.ofList (padded 4 year ++ '-' :: padded 2 month ++ '-' :: padded 2 day ++ 'T' ::
    padded 2 hour ++ ':' :: padded 2 minute ++ ':' :: padded 2 second ++ '.' ::
    padded 3 millis ++ ['Z'])

/-- The bytes of a number of two digits. -/
theorem exists_two {n : ℕ} (h : n < 100) : ∃ a b, (padded 2 n).map digitByte = [a, b] :=
  List.length_eq_two.mp ((List.length_map _).trans (length_padded (by decide) h))

theorem isDigit_bytes {w n : ℕ} {l : List UInt8} (h : (padded w n).map digitByte = l) :
    l.all isDigit = true := by
  rw [← h, List.all_map, List.all_eq_true]
  exact fun c hc ↦ isDigit_digitByte (isDigit_padded hc)

theorem value_bytes {w n : ℕ} {l : List UInt8} (h : (padded w n).map digitByte = l) :
    value l = n := by
  rw [← h, value_padded]

/-- What is written with four digits for the year is read as what was written. -/
theorem fromRfc3339_stamp {y m d h n s f : ℕ} (hy : y < 10000) (hm : 1 ≤ m ∧ m ≤ 12)
    (hd : 1 ≤ d ∧ (d : ℤ) ≤ dayInMonth y m) (hh : h < 24) (hn : n < 60) (hs : s < 60)
    (hf : f < 1000) :
    fromRfc3339 (stamp y m d h n s f) =
      .ok (instant ((dayFromCivil y m d * secondPerDay + h * 3600 + n * 60 + s) *
        millisPerSecond + f)) := by
  have hd' : d < 100 := by
    have hmax : dayInMonth y m ≤ 31 := by
      unfold dayInMonth
      split
      · split <;> omega
      · split <;> omega
    omega
  obtain ⟨m₁, m₂, hmb⟩ := exists_two (n := m) (by omega)
  obtain ⟨d₁, d₂, hdb⟩ := exists_two hd'
  obtain ⟨h₁, h₂, hhb⟩ := exists_two (n := h) (by omega)
  obtain ⟨n₁, n₂, hnb⟩ := exists_two (n := n) (by omega)
  obtain ⟨s₁, s₂, hsb⟩ := exists_two (n := s) (by omega)
  obtain ⟨f₁, f₂, f₃, hfb⟩ := List.length_eq_three.mp
    ((List.length_map digitByte).trans (length_padded (w := 3) (by decide) hf))
  obtain ⟨y₁, y₂, y₃, y₄, hyb⟩ : ∃ a b c d, (padded 4 y).map digitByte = [a, b, c, d] := by
    have hlen := (List.length_map digitByte).trans (length_padded (w := 4) (by decide) hy)
    match (padded 4 y).map digitByte, hlen with
    | [a, b, c, d], _ => exact ⟨a, b, c, d, rfl⟩
  have hb : utf8 (stamp y m d h n s f) = [y₁, y₂, y₃, y₄, 45, m₁, m₂, 45, d₁, d₂, 84, h₁, h₂, 58,
      n₁, n₂, 58, s₁, s₂, 46, f₁, f₂, f₃, 90] := by
    rw [stamp, utf8_ofList_ascii]
    · simp only [List.map_append, List.map_cons, List.map_nil, hyb, hmb, hdb, hhb, hnb, hsb, hfb]
      rfl
    · have hdigit : ∀ {w k : ℕ} {c : Char}, c ∈ padded w k → c.toNat < 128 := fun hc ↦
        lt_of_le_of_lt (toNat_lt_of_isDigit (isDigit_padded hc)).2 (by decide)
      intro c hc
      simp only [List.mem_append, List.mem_cons, List.not_mem_nil, or_false] at hc
      rcases hc with ((((((hc | rfl | hc) | rfl | hc) | rfl | hc) | rfl | hc) | rfl | hc) |
        rfl | hc) | rfl <;> first | exact hdigit hc | decide
  generalize stamp y m d h n s f = text at hb
  have hyear : number text 0 4 = .ok (y : ℤ) := by
    rw [← value_bytes hyb]
    exact number_eq [] [y₁, y₂, y₃, y₄] _ hb (isDigit_bytes hyb) (by simp) (by simp)
  have hmonth : number text 5 7 = .ok (m : ℤ) := by
    rw [← value_bytes hmb]
    exact number_eq [y₁, y₂, y₃, y₄, 45] [m₁, m₂] _ hb (isDigit_bytes hmb) (by simp) (by simp)
  have hday : number text 8 10 = .ok (d : ℤ) := by
    rw [← value_bytes hdb]
    exact number_eq [y₁, y₂, y₃, y₄, 45, m₁, m₂, 45] [d₁, d₂] _ hb (isDigit_bytes hdb) (by simp)
      (by simp)
  have hhour : number text 11 13 = .ok (h : ℤ) := by
    rw [← value_bytes hhb]
    exact number_eq [y₁, y₂, y₃, y₄, 45, m₁, m₂, 45, d₁, d₂, 84] [h₁, h₂] _ hb
      (isDigit_bytes hhb) (by simp) (by simp)
  have hminute : number text 14 16 = .ok (n : ℤ) := by
    rw [← value_bytes hnb]
    exact number_eq [y₁, y₂, y₃, y₄, 45, m₁, m₂, 45, d₁, d₂, 84, h₁, h₂, 58] [n₁, n₂] _ hb
      (isDigit_bytes hnb) (by simp) (by simp)
  have hsecond : number text 17 19 = .ok (s : ℤ) := by
    rw [← value_bytes hsb]
    exact number_eq [y₁, y₂, y₃, y₄, 45, m₁, m₂, 45, d₁, d₂, 84, h₁, h₂, 58, n₁, n₂, 58] [s₁, s₂] _
      hb (isDigit_bytes hsb) (by simp) (by simp)
  have hfraction : fraction text 19 = .ok ((f : ℤ), 23) := by
    have hall := isDigit_bytes hfb
    simp only [List.all_cons, List.all_nil, Bool.and_true, Bool.and_eq_true] at hall
    obtain ⟨hf₁, hf₂, hf₃⟩ := hall
    have hz : isDigit 90 = false := by decide
    unfold fraction
    rw [hb]
    simp [List.takeWhile, hf₁, hf₂, hf₃, hz, ← value_bytes hfb]
  have hoffset : offset text 23 = .ok 0 := by
    unfold offset
    rw [hb]
    simp
  have hdate : ¬ (m = 0 ∨ 12 < m ∨ d = 0 ∨ dayInMonth y m < d) := by omega
  have htime : ¬ (23 < h ∨ 59 < n ∨ 60 < s) := by omega
  have hmin : min (s : ℤ) 59 = s := by omega
  unfold fromRfc3339
  simp [hb, hyear, hmonth, hday, hhour, hminute, hsecond, hfraction, hoffset, hdate, htime, hmin,
    bind, Except.bind, pure, Except.pure]

/-- What reads as an instant has four digits and a hyphen in front. -/
theorem digits_of_ok {t : Timestamp} (h : fromRfc3339 text = .ok t) :
    (utf8 text)[4]? = some 45 ∧ ((utf8 text).take 4).all isDigit = true := by
  unfold fromRfc3339 at h
  simp only [ite_throw_eq_ok, bind_eq_ok] at h
  obtain ⟨-, hseparators, year, hyear, -⟩ := h
  refine ⟨by tauto, ?_⟩
  unfold number at hyear
  rw [ite_error_eq_ok] at hyear
  split at hyear
  · rename_i hall
    rwa [List.extract_eq_take_drop, List.drop_zero] at hall
  · exact nomatch hyear.2

end Reading

/-- An instant of the years 0 to 9999. -/
def InYears (t : Timestamp) : Prop :=
  -62167219200000 ≤ t.unixMillis ∧ t.unixMillis < 253402300800000

instance (t : Timestamp) : Decidable (InYears t) := by unfold InYears; infer_instance

theorem instant_unixMillis (t : Timestamp) : instant t.unixMillis = t := by
  obtain ⟨millis, lower, upper⟩ := t
  simp only [instant, Timestamp.mk.injEq]
  omega

/-- An instant as the date, the time of day and the milliseconds that are written. -/
theorem rfc3339_eq_stamp (t : Timestamp) : ∃ y m d h n s f : ℤ,
    rfc3339 t = stamp y m d h n s f ∧
      Dated (t.unixMillis / millisPerSecond / secondPerDay) y m d ∧
      (0 ≤ h ∧ h < 24) ∧ (0 ≤ n ∧ n < 60) ∧ (0 ≤ s ∧ s < 60) ∧ (0 ≤ f ∧ f < 1000) ∧
      t.unixMillis = (t.unixMillis / millisPerSecond / secondPerDay * secondPerDay + h * 3600 +
        n * 60 + s) * millisPerSecond + f := by
  simp only [millisPerSecond, secondPerDay]
  refine ⟨_, _, _, t.unixMillis / 1000 % 86400 / 3600, t.unixMillis / 1000 % 86400 % 3600 / 60,
    t.unixMillis / 1000 % 86400 % 60, t.unixMillis % 1000, rfl, dated _, ?_, ?_, ?_, ?_, ?_⟩ <;>
    omega

/-- What is written of these years is read as what was written. -/
theorem fromRfc3339_rfc3339 {t : Timestamp} (h : InYears t) :
    fromRfc3339 (rfc3339 t) = .ok t := by
  obtain ⟨y, m, d, hour, n, s, f, htext, hdated, hhour, hn, hs, hf, hmillis⟩ := rfc3339_eq_stamp t
  have hdays : -719528 ≤ t.unixMillis / millisPerSecond / secondPerDay ∧
      t.unixMillis / millisPerSecond / secondPerDay < 2932897 := by
    simp only [InYears, millisPerSecond, secondPerDay] at h ⊢
    omega
  have hyear := hdated.year_nonneg.mpr hdays.1
  have hyear' := hdated.year_lt.mpr hdays.2
  have hmonth := hdated.month_pos
  have hday := hdated.day_pos
  obtain ⟨y, rfl⟩ := Int.eq_ofNat_of_zero_le hyear
  obtain ⟨m, rfl⟩ := Int.eq_ofNat_of_zero_le (by omega : 0 ≤ m)
  obtain ⟨d, rfl⟩ := Int.eq_ofNat_of_zero_le (by omega : 0 ≤ d)
  obtain ⟨hour, rfl⟩ := Int.eq_ofNat_of_zero_le hhour.1
  obtain ⟨n, rfl⟩ := Int.eq_ofNat_of_zero_le hn.1
  obtain ⟨s, rfl⟩ := Int.eq_ofNat_of_zero_le hs.1
  obtain ⟨f, rfl⟩ := Int.eq_ofNat_of_zero_le hf.1
  have hread := fromRfc3339_stamp (y := y) (m := m) (d := d) (h := hour) (n := n) (s := s) (f := f)
    (by omega) ⟨by omega, by exact_mod_cast hdated.month_le⟩ ⟨by omega, hdated.day_le⟩ (by omega)
    (by omega) (by omega) (by omega)
  rw [htext, hread, hdated.back, ← hmillis, instant_unixMillis]

theorem utf8_stamp (y m d h n s f : ℤ) : ∃ rest,
    utf8 (stamp y m d h n s f) = utf8 (String.ofList (padded 4 y)) ++ rest := by
  simp only [stamp, utf8, String.toList_ofList, List.append_assoc, List.flatMap_append]
  exact ⟨_, rfl⟩

/-- A year before 0 begins with its sign, and one from 10000 on has a digit in place of the
hyphen: neither is read. -/
theorem inYears_of_ok {t t' : Timestamp} (h : fromRfc3339 (rfc3339 t) = .ok t') : InYears t := by
  obtain ⟨y, m, d, hour, n, s, f, htext, hdated, -⟩ := rfc3339_eq_stamp t
  obtain ⟨rest, hbytes⟩ := utf8_stamp y m d hour n s f
  obtain ⟨hhyphen, hdigits⟩ := digits_of_ok h
  rw [htext, hbytes] at hhyphen hdigits
  have hyear : 0 ≤ y := by
    by_contra hneg
    have hsign : padded 4 y = '-' :: (List.replicate (4 - 1 - (Nat.toDigits 10 y.natAbs).length)
        '0' ++ Nat.toDigits 10 y.natAbs) := by
      have hlt : y < 0 := by omega
      simp [padded, hlt]
    rw [hsign, utf8, String.toList_ofList, List.flatMap_cons,
      utf8EncodeChar_ascii (by decide), List.singleton_append, List.cons_append, List.take_cons
        (by decide), List.all_cons] at hdigits
    exact absurd (Bool.and_eq_true_iff.mp hdigits).1 (by decide)
  have hyear' : y < 10000 := by
    by_contra hlarge
    obtain ⟨y, rfl⟩ := Int.eq_ofNat_of_zero_le hyear
    have hascii : ∀ c ∈ padded 4 (y : ℤ), c.toNat < 128 := fun c hc ↦
      lt_of_le_of_lt (toNat_lt_of_isDigit (isDigit_padded hc)).2 (by decide)
    have hlen : 4 < (padded 4 (y : ℤ)).length := by
      by_contra hshort
      have hn : ¬ (y : ℤ) < 0 := by omega
      have hshort' : (Nat.toDigits 10 y).length ≤ 4 := by
        simp only [padded, hn, if_false, List.nil_append, Int.natAbs_natCast, List.length_append]
          at hshort
        omega
      have := (Nat.length_toDigits_le_iff (by decide) (by decide)).mp hshort'
      omega
    rw [utf8_ofList_ascii hascii, List.getElem?_append_left (by simpa using hlen),
      List.getElem?_map, Option.map_eq_some_iff] at hhyphen
    obtain ⟨c, hc, hbyte⟩ := hhyphen
    have hdigit := isDigit_digitByte (isDigit_padded (List.mem_of_getElem? hc))
    rw [hbyte] at hdigit
    exact absurd hdigit (by decide)
  have hlower := hdated.year_nonneg.mp hyear
  have hupper := hdated.year_lt.mp hyear'
  simp only [InYears, millisPerSecond, secondPerDay] at hlower hupper ⊢
  omega

/-- Exactly the instants of these years survive being written and read again. -/
theorem fromRfc3339_rfc3339_iff (t : Timestamp) :
    fromRfc3339 (rfc3339 t) = .ok t ↔ InYears t :=
  ⟨inYears_of_ok, fromRfc3339_rfc3339⟩

end FolderClient.Core.Calendar
