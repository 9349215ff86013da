import FolderClient.Core.Calendar

namespace FolderClient.Core.Dates

open FolderClient.Core.Calendar FolderClient.Core.Namespace FolderClient.Core.Time
open FolderClient.Library.Results FolderClient.Library.Texts

section Days

/-- A date of the calendar. -/
structure ValidDate (year month day : ℤ) : Prop where
  month_pos : 1 ≤ month
  month_le : month ≤ 12
  day_pos : 1 ≤ day
  day_le : day ≤ dayInMonth year month

/-- The date that follows a date. -/
def nextDate (year month day : ℤ) : ℤ × ℤ × ℤ :=
  if day < dayInMonth year month then (year, month, day + 1)
  else if month < 12 then (year, month + 1, 1)
  else (year + 1, 1, 1)

variable {year month day year' month' day' : ℤ}

theorem dayInMonth_bounds (year month : ℤ) :
    28 ≤ dayInMonth year month ∧ dayInMonth year month ≤ 31 := by
  unfold dayInMonth
  split
  · split <;> decide
  · split <;> decide

theorem isLeapYear_iff (year : ℤ) :
    isLeapYear year = true ↔ year % 4 = 0 ∧ (year % 100 ≠ 0 ∨ year % 400 = 0) := by
  simp only [isLeapYear, Bool.or_eq_true, Bool.and_eq_true, decide_eq_true_eq]
  omega

theorem dayFromCivil_add (year month day n : ℤ) :
    dayFromCivil year month (day + n) = dayFromCivil year month day + n := by
  unfold dayFromCivil
  dsimp only
  omega

/-- The year starts in March, so the leap day stands at its end. -/
theorem dayFromCivil_march (year : ℤ) :
    dayFromCivil year 3 1 = dayFromCivil year 2 (dayInMonth year 2) + 1 := by
  obtain ⟨era, yoe, hy, hy', rfl⟩ : ∃ era yoe, 0 ≤ yoe ∧ yoe < 400 ∧ year = yoe + era * 400 :=
    ⟨year / 400, year % 400, by omega, by omega, by omega⟩
  have hmarch := @dayFromCivil_eq yoe era 0 1 hy hy' (by omega) (by omega)
  have hleap := isLeapYear_iff (yoe + era * 400)
  norm_num at hmarch
  rw [hmarch]
  by_cases hzero : yoe = 0
  · subst hzero
    have hlast : dayInMonth (0 + era * 400) 2 = 29 := if_pos (hleap.mpr (by omega))
    have hyear : 0 + era * 400 = 399 + (era - 1) * 400 + 1 := by omega
    have hfeb := @dayFromCivil_eq 399 (era - 1) 11 29 (by omega) (by omega) (by omega) (by omega)
    norm_num at hfeb
    rw [hlast, hyear, hfeb]
    omega
  · have hyear : yoe + era * 400 = yoe - 1 + era * 400 + 1 := by omega
    have hfeb := fun last ↦
      @dayFromCivil_eq (yoe - 1) era 11 last (by omega) (by omega) (by omega) (by omega)
    norm_num at hfeb
    have hlast : (dayInMonth (yoe + era * 400) 2 = 29 ∧ yoe % 4 = 0 ∧ yoe % 100 ≠ 0) ∨
        (dayInMonth (yoe + era * 400) 2 = 28 ∧ (yoe % 4 ≠ 0 ∨ yoe % 100 = 0)) := by
      by_cases hl : isLeapYear (yoe + era * 400) = true
      · have hrule := hleap.mp hl
        exact .inl ⟨if_pos hl, by omega⟩
      · have hrule := mt hleap.mpr hl
        exact .inr ⟨if_neg hl, by omega⟩
    rw [hyear, hfeb, ← hyear]
    rcases hlast with ⟨hlast, h₄, h₁₀₀⟩ | ⟨hlast, h₄ | h₁₀₀⟩
    · rw [hlast]
      omega
    · rw [hlast]
      omega
    · rw [hlast]
      omega

/-- The days of a calendar follow one another without a gap. -/
theorem dayFromCivil_next (h : ValidDate year month day) :
    dayFromCivil (nextDate year month day).1 (nextDate year month day).2.1
      (nextDate year month day).2.2 = dayFromCivil year month day + 1 := by
  obtain ⟨hm, hm', hd, hd'⟩ := h
  by_cases hday : day < dayInMonth year month
  · rw [nextDate, if_pos hday]
    exact dayFromCivil_add _ _ _ _
  · obtain rfl : day = dayInMonth year month := by omega
    by_cases hmonth : month < 12
    · rw [nextDate, if_neg hday, if_pos hmonth]
      change dayFromCivil year (month + 1) 1 = _
      by_cases hfeb : month = 2
      · subst hfeb
        exact dayFromCivil_march year
      · have hlength : dayInMonth year month =
            if month = 4 ∨ month = 6 ∨ month = 9 ∨ month = 11 then 30 else 31 := if_neg hfeb
        rw [hlength]
        interval_cases month <;>
          first | exact absurd rfl hfeb | (norm_num [dayFromCivil]; omega)
    · obtain rfl : month = 12 := by omega
      rw [nextDate, if_neg hday, if_neg hmonth]
      change dayFromCivil (year + 1) 1 1 = _
      norm_num [dayFromCivil, dayInMonth]
      omega

/-- A year has begun by the time the one before it is over. -/
theorem yearStart_le {a b : ℤ} (ha : 0 ≤ a) (hab : a < b) (hb : b < 400) :
    a * 365 + a / 4 - a / 100 + 365 ≤ b * 365 + b / 4 - b / 100 ∧
      ((a + 1) % 4 = 0 ∧ (a + 1) % 100 ≠ 0 →
        a * 365 + a / 4 - a / 100 + 366 ≤ b * 365 + b / 4 - b / 100) := by
  have hquarter : a / 4 ≤ b / 4 := by omega
  have hcentury : 0 ≤ a / 100 ∧ b / 100 ≤ 3 := by omega
  by_cases hnext : b = a + 1
  · subst hnext
    constructor
    · by_cases h₁₀₀ : (a + 1) % 100 = 0
      · omega
      · have hsame : (a + 1) / 100 = a / 100 := by omega
        omega
    · rintro ⟨h₄, h₁₀₀⟩
      have hsame : (a + 1) / 100 = a / 100 := by omega
      omega
  · constructor <;> omega

theorem Placed.year_le {doe yoe doy yoe' doy' : ℤ} (h : Placed doe yoe doy)
    (h' : Placed doe yoe' doy') : yoe' ≤ yoe := by
  obtain ⟨hdays, hy₁, hy₂, hd₁, hd₂, hleap⟩ := h
  obtain ⟨hdays', hy₁', hy₂', hd₁', hd₂', -⟩ := h'
  by_contra hlt
  obtain ⟨hstart, hstart'⟩ := yearStart_le hy₁ (by omega : yoe < yoe') hy₂'
  by_cases hlast : doy = 365
  · have hrule := hleap hlast
    have hgap := hstart' ⟨hrule.1, hrule.2.resolve_right (by omega)⟩
    omega
  · omega

theorem Placed.unique {doe yoe doy yoe' doy' : ℤ} (h : Placed doe yoe doy)
    (h' : Placed doe yoe' doy') : yoe = yoe' ∧ doy = doy' := by
  obtain rfl : yoe = yoe' := le_antisymm (Placed.year_le h' h) (Placed.year_le h h')
  have hdays := h.days
  have hdays' := h'.days
  exact ⟨rfl, by omega⟩

/-- A date with its year counted from March. -/
structure March (year month day era yearOfEra monthFromMarch : ℤ) : Prop where
  year_nonneg : 0 ≤ yearOfEra
  year_lt : yearOfEra < 400
  month_nonneg : 0 ≤ monthFromMarch
  month_le : monthFromMarch ≤ 11
  month_eq : month = if monthFromMarch < 10 then monthFromMarch + 3 else monthFromMarch - 9
  year_eq : year = yearOfEra + era * 400 + if month ≤ 2 then 1 else 0
  day_lt : monthFromMarch ≤ 10 →
    (153 * monthFromMarch + 2) / 5 + day ≤ (153 * (monthFromMarch + 1) + 2) / 5
  number : dayFromCivil year month day = era * 146097 +
    (yearOfEra * 365 + yearOfEra / 4 - yearOfEra / 100 +
      ((153 * monthFromMarch + 2) / 5 + day - 1)) - 719468
  placed : Placed (yearOfEra * 365 + yearOfEra / 4 - yearOfEra / 100 +
    ((153 * monthFromMarch + 2) / 5 + day - 1)) yearOfEra
      ((153 * monthFromMarch + 2) / 5 + day - 1)

theorem exists_march (h : ValidDate year month day) :
    ∃ era yoe mp, March year month day era yoe mp := by
  obtain ⟨hm, hm', hd, hd'⟩ := h
  obtain ⟨era, yoe, hy, hy', hyear⟩ : ∃ era yoe, 0 ≤ yoe ∧ yoe < 400 ∧
      year = yoe + era * 400 + if month ≤ 2 then 1 else 0 :=
    ⟨(year - if month ≤ 2 then 1 else 0) / 400, (year - if month ≤ 2 then 1 else 0) % 400,
      by omega, by omega, by omega⟩
  obtain ⟨mp, hmp, hmp', hmonth⟩ : ∃ mp, 0 ≤ mp ∧ mp ≤ 11 ∧
      month = if mp < 10 then mp + 3 else mp - 9 :=
    ⟨(month + 9) % 12, by omega, by omega, by split <;> omega⟩
  have hlength : mp ≤ 10 → (153 * mp + 2) / 5 + day ≤ (153 * (mp + 1) + 2) / 5 := by
    intro hle
    have hmarch : month ≠ 2 := by
      rw [hmonth]
      split <;> omega
    rw [dayInMonth, if_neg hmarch] at hd'
    interval_cases mp <;> subst hmonth <;> norm_num at hd' ⊢ <;> omega
  have hfeb : mp = 11 → day ≤ 28 ∨ (day = 29 ∧ isLeapYear (yoe + era * 400 + 1) = true) := by
    rintro rfl
    norm_num at hmonth
    subst hmonth
    norm_num at hyear
    subst hyear
    rw [dayInMonth, if_pos rfl] at hd'
    split at hd'
    · rename_i hleap
      by_cases hshort : day ≤ 28
      · exact .inl hshort
      · exact .inr ⟨by omega, hleap⟩
    · exact .inl hd'
  refine ⟨era, yoe, mp, hy, hy', hmp, hmp', hmonth, hyear, hlength, ?_, ?_⟩
  · have hnumber := @dayFromCivil_eq yoe era mp day hy hy' hmp hmp'
    rwa [← hmonth, ← hyear] at hnumber
  · refine ⟨rfl, hy, hy', by omega, ?_, fun hlast ↦ ?_⟩
    · by_cases hlate : mp = 11
      · subst hlate
        have := hfeb rfl
        omega
      · have := hlength (by omega)
        omega
    · have hlate : mp = 11 := by
        by_contra hearly
        have := hlength (by omega)
        omega
      subst hlate
      rcases hfeb rfl with hshort | ⟨-, hleap⟩
      · omega
      · have hrule := (isLeapYear_iff _).mp hleap
        omega

theorem Placed.bounds {doe yoe doy : ℤ} (h : Placed doe yoe doy) : 0 ≤ doe ∧ doe < 146097 := by
  obtain ⟨hdays, hy, hy', hd, hd', hleap⟩ := h
  by_cases hlast : doy = 365
  · have hrule := hleap hlast
    omega
  · omega

theorem dayFromCivil_inj (h : ValidDate year month day) (h' : ValidDate year' month' day')
    (heq : dayFromCivil year month day = dayFromCivil year' month' day') :
    year = year' ∧ month = month' ∧ day = day' := by
  obtain ⟨era, yoe, mp, hm⟩ := exists_march h
  obtain ⟨era', yoe', mp', hm'⟩ := exists_march h'
  have hplaced := hm.placed
  have hplaced' := hm'.placed
  rw [hm.number, hm'.number] at heq
  generalize hdoe : yoe * 365 + yoe / 4 - yoe / 100 + ((153 * mp + 2) / 5 + day - 1) = doe at *
  generalize hdoe' : yoe' * 365 + yoe' / 4 - yoe' / 100 + ((153 * mp' + 2) / 5 + day' - 1) = doe'
    at *
  have hb := Placed.bounds hplaced
  have hb' := Placed.bounds hplaced'
  obtain rfl : era = era' := by omega
  obtain rfl : doe = doe' := by omega
  obtain ⟨rfl, hdoy⟩ := Placed.unique hplaced hplaced'
  have hday := h.day_pos
  have hday' := h'.day_pos
  have hlate := hm.day_lt
  have hlate' := hm'.day_lt
  have hmp := hm.month_le
  have hmp' := hm'.month_le
  obtain rfl : mp = mp' := by omega
  obtain rfl : month = month' := hm.month_eq.trans hm'.month_eq.symm
  exact ⟨hm.year_eq.trans hm'.year_eq.symm, rfl, by omega⟩

theorem validDate_civilFromDay (days : ℤ) : ValidDate (civilFromDay days).1
    (civilFromDay days).2.1 (civilFromDay days).2.2 :=
  let h := dated days
  ⟨h.month_pos, h.month_le, h.day_pos, h.day_le⟩

theorem civilFromDay_dayFromCivil (h : ValidDate year month day) :
    civilFromDay (dayFromCivil year month day) = (year, month, day) := by
  have hback := (dated (dayFromCivil year month day)).back
  obtain ⟨hy, hm, hd⟩ := dayFromCivil_inj (validDate_civilFromDay _) h hback
  exact Prod.ext hy (Prod.ext hm hd)

end Days

end FolderClient.Core.Dates
