import FolderClient.Core.Dates

namespace FolderClient.Core.Timestamps

open FolderClient.Core.Calendar FolderClient.Core.Dates FolderClient.Core.Namespace
open FolderClient.Core.Time FolderClient.Library.Results FolderClient.Library.Texts

section Grammar

/-- The zone at the end of a timestamp. -/
inductive Zone
  | utc (letter : UInt8)
  | offset (sign : UInt8) (hours minutes : List UInt8)

/-- The parts of a timestamp, as they are written. -/
structure Form where
  year : List UInt8
  month : List UInt8
  day : List UInt8
  letter : UInt8
  hour : List UInt8
  minute : List UInt8
  second : List UInt8
  fraction : Option (List UInt8)
  zone : Zone

def Zone.bytes : Zone → List UInt8
  | .utc letter => [letter]
  | .offset sign hours minutes => sign :: (hours ++ ':'.toUInt8 :: minutes)

def fractionBytes : Option (List UInt8) → List UInt8
  | none => []
  | some digits => '.'.toUInt8 :: digits

def Form.bytes (f : Form) : List UInt8 :=
  f.year ++ '-'.toUInt8 :: (f.month ++ '-'.toUInt8 :: (f.day ++ f.letter :: (f.hour ++
    ':'.toUInt8 :: (f.minute ++ ':'.toUInt8 :: (f.second ++
      (fractionBytes f.fraction ++ f.zone.bytes))))))

/-- A number of as many digits. -/
def Digits (width : ℕ) (part : List UInt8) : Prop := part.length = width ∧ part.all isDigit = true

def Zone.WellFormed : Zone → Prop
  | .utc letter => letter = 'Z'.toUInt8 ∨ letter = 'z'.toUInt8
  | .offset sign hours minutes =>
    (sign = '+'.toUInt8 ∨ sign = '-'.toUInt8) ∧ Digits 2 hours ∧ Digits 2 minutes

/-- What the grammar asks of the parts. -/
structure Form.WellFormed (f : Form) : Prop where
  year : Digits 4 f.year
  month : Digits 2 f.month
  day : Digits 2 f.day
  letter : f.letter = 'T'.toUInt8 ∨ f.letter = 't'.toUInt8
  hour : Digits 2 f.hour
  minute : Digits 2 f.minute
  second : Digits 2 f.second
  fraction : ∀ digits ∈ f.fraction, digits ≠ [] ∧ digits.all isDigit = true
  zone : f.zone.WellFormed

def Zone.Possible : Zone → Prop
  | .utc _ => True
  | .offset _ hours minutes => value hours ≤ 23 ∧ value minutes ≤ 59

/-- The date is one of the calendar and the time one of a day; its last minute may have a leap
second. -/
structure Form.Possible (f : Form) : Prop where
  date : ValidDate (value f.year) (value f.month) (value f.day)
  hour : value f.hour ≤ 23
  minute : value f.minute ≤ 59
  second : value f.second ≤ 60
  zone : f.zone.Possible

def Zone.minutes : Zone → ℤ
  | .utc _ => 0
  | .offset sign hours minutes =>
    if sign = '+'.toUInt8 then value hours * 60 + value minutes
    else -(value hours * 60 + value minutes)

/-- The digits of a fraction that count, as milliseconds. -/
def fractionMillis : Option (List UInt8) → ℤ
  | none => 0
  | some digits => value (digits.take 3) * 10 ^ (3 - (digits.take 3).length)

/-- The instant in UTC; a leap second counts to the second before it. -/
def Form.millis (f : Form) : ℤ :=
  ((dayFromCivil (value f.year) (value f.month) (value f.day) * 24 + value f.hour) * 60 +
    value f.minute - f.zone.minutes) * 60000 + min (value f.second) 59 * 1000 +
      fractionMillis f.fraction

/-- A text that the grammar has, of a time that there is. -/
def Denotes (text : String) (f : Form) : Prop :=
  utf8 text = f.bytes ∧ f.WellFormed ∧ f.Possible

end Grammar

section Reading

variable {text : String} {pre rest digits : List UInt8}

theorem fraction_dot (h : utf8 text = pre ++ 46 :: (digits ++ rest))
    (hd : digits.all isDigit = true) (hne : digits ≠ []) (hrest : ∀ b ∈ rest.head?, isDigit b = false) :
    fraction text pre.length = .ok (value (digits.take 3) * 10 ^ (3 - (digits.take 3).length),
      pre.length + 1 + digits.length) := by
  have hdot : (utf8 text)[pre.length]? = some 46 := by
    rw [h, List.getElem?_append_right (le_refl _), Nat.sub_self]
    rfl
  have htail : ((utf8 text).drop (pre.length + 1)).takeWhile isDigit = digits := by
    have hdrop : (utf8 text).drop (pre.length + 1) = digits ++ rest := by
      rw [h, List.drop_append, List.drop_of_length_le (Nat.le_succ _)]
      simp
    rw [hdrop, List.takeWhile_append_of_pos (List.all_eq_true.mp hd)]
    cases rest with
    | nil => simp
    | cons b rest => simp [hrest b rfl]
  have hnonempty : digits.isEmpty = false := by simpa using hne
  rw [fraction, if_pos hdot, htail]
  dsimp only
  rw [hnonempty, if_neg Bool.false_ne_true]

theorem fraction_none (h : utf8 text = pre ++ rest) (hrest : rest.head? ≠ some 46) :
    fraction text pre.length = .ok (0, pre.length) := by
  rw [fraction, if_neg]
  rw [h, List.getElem?_append_right (le_refl _), Nat.sub_self, ← List.head?_eq_getElem?]
  exact hrest

theorem fraction_ok {millis : ℤ} {pos : ℕ} (h : utf8 text = pre ++ rest)
    (hok : fraction text pre.length = .ok (millis, pos)) : ∃ part after,
      rest = fractionBytes part ++ after ∧
        (∀ digits ∈ part, digits ≠ [] ∧ digits.all isDigit = true) ∧
        millis = fractionMillis part ∧ pos = (pre ++ fractionBytes part).length := by
  by_cases hdot : rest.head? = some 46
  · obtain ⟨more, rfl⟩ := List.head?_eq_some_iff.mp hdot
    have hsplit : more = more.takeWhile isDigit ++ more.dropWhile isDigit :=
      List.takeWhile_append_dropWhile.symm
    by_cases hnil : more.takeWhile isDigit = []
    · have hdrop : (utf8 text).drop (pre.length + 1) = more := by
        rw [h, List.drop_append, List.drop_of_length_le (Nat.le_succ _)]
        simp
      have hget : (utf8 text)[pre.length]? = some 46 := by
        rw [h, List.getElem?_append_right (le_refl _), Nat.sub_self]
        rfl
      rw [fraction, if_pos hget, hdrop, hnil] at hok
      cases hok
    · have hall : (more.takeWhile isDigit).all isDigit = true :=
        List.all_eq_true.mpr fun b hb ↦ List.mem_takeWhile_imp hb
      have hafter : ∀ b ∈ (more.dropWhile isDigit).head?, isDigit b = false := by
        intro b hb
        have hnot := List.head?_dropWhile_not isDigit more
        rw [hb] at hnot
        exact hnot
      rw [hsplit] at h
      rw [fraction_dot h hall hnil hafter] at hok
      obtain ⟨rfl, rfl⟩ := Prod.mk.inj (Except.ok.inj hok)
      refine ⟨some (more.takeWhile isDigit), more.dropWhile isDigit, ?_, ?_, rfl, ?_⟩
      · exact congrArg _ hsplit
      · rintro digits ⟨⟩
        exact ⟨hnil, hall⟩
      · rw [fractionBytes, List.length_append, List.length_cons]
        omega
  · rw [fraction_none h hdot] at hok
    obtain ⟨rfl, rfl⟩ := Prod.mk.inj (Except.ok.inj hok)
    refine ⟨none, rest, rfl, ?_, rfl, ?_⟩
    · rintro digits ⟨⟩
    · exact congrArg List.length (List.append_nil pre).symm

theorem number_ok {start stop : ℕ} {n : ℤ} (h : number text start stop = .ok n) :
    ((utf8 text).extract start stop).all isDigit = true ∧
      n = value ((utf8 text).extract start stop) := by
  unfold number at h
  rw [ite_error_eq_ok] at h
  obtain ⟨-, h⟩ := h
  split at h
  · rename_i hall
    exact ⟨hall, (Except.ok.inj h).symm⟩
  · cases h

theorem extract_behind (h : utf8 text = pre ++ rest) (i j : ℕ) :
    (utf8 text).extract (pre.length + i) (pre.length + j) = rest.extract i j := by
  have hgap : pre.length + j - (pre.length + i) = j - i := by omega
  rw [h, List.extract_eq_take_drop, List.extract_eq_take_drop, List.drop_append,
    List.drop_of_length_le (Nat.le_add_right _ _), Nat.add_sub_cancel_left, List.nil_append, hgap]

theorem offset_utc {letter : UInt8} (h : utf8 text = pre ++ [letter])
    (hletter : letter = 90 ∨ letter = 122) : offset text pre.length = .ok 0 := by
  have hget : (utf8 text)[pre.length]? = some letter := by
    rw [h, List.getElem?_append_right (le_refl _), Nat.sub_self]
    rfl
  have hlength : (utf8 text).length = pre.length + 1 := by rw [h, List.length_append]; rfl
  rw [offset]
  dsimp only
  rw [if_pos]
  rw [hget, hlength]
  exact ⟨hletter.imp (congrArg some) (congrArg some), rfl⟩

theorem offset_signed {sign : UInt8} {hours minutes : List UInt8}
    (h : utf8 text = pre ++ sign :: (hours ++ 58 :: minutes)) (hsign : sign = 43 ∨ sign = 45)
    (hh : Digits 2 hours) (hm : Digits 2 minutes) :
    offset text pre.length =
      if 23 < value hours ∨ 59 < value minutes then .error ⟨text, "no such offset"⟩
      else .ok (if sign = 43 then value hours * 60 + value minutes
        else -(value hours * 60 + value minutes)) := by
  have hget : (utf8 text)[pre.length]? = some sign := by
    rw [h, List.getElem?_append_right (le_refl _), Nat.sub_self]
    rfl
  have hlength : pre.length + 6 = (utf8 text).length := by
    rw [h, List.length_append, List.length_cons, List.length_append, List.length_cons, hh.1, hm.1]
  have hcolon : (utf8 text)[pre.length + 3]? = some 58 := by
    rw [h, List.getElem?_append_right (Nat.le_add_right _ _), Nat.add_sub_cancel_left,
      List.getElem?_cons_succ, List.getElem?_append_right hh.1.le, hh.1]
    rfl
  have hhours : number text (pre.length + 1) (pre.length + 3) = .ok (value hours) := by
    have hsplit : utf8 text = (pre ++ [sign]) ++ (hours ++ 58 :: minutes) := by
      rw [h, List.append_assoc, List.singleton_append]
    have hnumber := number_eq (pre ++ [sign]) hours _ hsplit hh.2 (by simp) (by
      rintro rfl
      cases hh.1)
    rwa [List.length_append, hh.1] at hnumber
  have hminutes : number text (pre.length + 4) (pre.length + 6) = .ok (value minutes) := by
    have hsplit : utf8 text = (pre ++ sign :: (hours ++ [58])) ++ (minutes ++ []) := by
      rw [h]
      simp
    have hnumber := number_eq (pre ++ sign :: (hours ++ [58])) minutes [] hsplit hm.2 (by simp) (by
      rintro rfl
      cases hm.1)
    rwa [List.length_append, List.length_cons, List.length_append, hh.1, hm.1] at hnumber
  have hletter : ¬ ((some sign = some 90 ∨ some sign = some 122) ∧
      pre.length + 1 = (utf8 text).length) := by
    rintro ⟨-, hend⟩
    omega
  have hsign' : some sign = some 43 ∨ some sign = some 45 :=
    hsign.imp (congrArg some) (congrArg some)
  rw [offset]
  dsimp only
  rw [hget, if_neg hletter, if_pos ⟨hsign', hlength, hcolon⟩, hhours, hminutes]
  by_cases hlarge : 23 < value hours ∨ 59 < value minutes
  · rw [if_pos hlarge]
    simp [bind, Except.bind, hlarge, throw, throwThe, MonadExceptOf.throw]
  · rw [if_neg hlarge]
    simp [bind, Except.bind, hlarge, pure, Except.pure]

theorem offset_ok {minutes : ℤ} (h : utf8 text = pre ++ rest)
    (hok : offset text pre.length = .ok minutes) :
    ∃ zone : Zone, rest = zone.bytes ∧ zone.WellFormed ∧ zone.Possible ∧ minutes = zone.minutes := by
  have hlength : (utf8 text).length = pre.length + rest.length := by rw [h, List.length_append]
  have hget : ∀ i, (utf8 text)[pre.length + i]? = rest[i]? := by
    intro i
    rw [h, List.getElem?_append_right (Nat.le_add_right _ _), Nat.add_sub_cancel_left]
  have hfirst := hget 0
  rw [Nat.add_zero] at hfirst
  have hok' := hok
  rw [offset] at hok'
  dsimp only at hok'
  rw [hfirst, hget 3] at hok'
  by_cases hutc : (rest[0]? = some 90 ∨ rest[0]? = some 122) ∧ pre.length + 1 = (utf8 text).length
  · rw [if_pos hutc] at hok'
    obtain ⟨letter, rfl⟩ := List.length_eq_one_iff.mp (by omega : rest.length = 1)
    exact ⟨.utc letter, rfl, hutc.1.imp Option.some.inj Option.some.inj, trivial,
      (Except.ok.inj hok').symm⟩
  · rw [if_neg hutc] at hok'
    by_cases hsigned : (rest[0]? = some 43 ∨ rest[0]? = some 45) ∧
        pre.length + 6 = (utf8 text).length ∧ rest[3]? = some 58
    · rw [if_pos hsigned] at hok'
      obtain ⟨hsign, hsix, hcolon⟩ := hsigned
      obtain ⟨sign, h₁, h₂, colon, m₁, m₂, rfl⟩ : ∃ a b c d e f, rest = [a, b, c, d, e, f] := by
        have hsix : rest.length = 6 := by omega
        match rest, hsix with
        | [a, b, c, d, e, f], _ => exact ⟨a, b, c, d, e, f, rfl⟩
      obtain rfl : colon = 58 := Option.some.inj hcolon
      replace hsign : sign = 43 ∨ sign = 45 := hsign.imp Option.some.inj Option.some.inj
      simp only [bind_eq_ok] at hok'
      obtain ⟨hours, hh, minutes', hm, -⟩ := hok'
      obtain ⟨hall, -⟩ := number_ok hh
      obtain ⟨hall', -⟩ := number_ok hm
      rw [extract_behind h] at hall hall'
      have hd : Digits 2 [h₁, h₂] := ⟨rfl, hall⟩
      have hd' : Digits 2 [m₁, m₂] := ⟨rfl, hall'⟩
      rw [offset_signed h hsign hd hd'] at hok
      split at hok
      · cases hok
      · rename_i hsmall
        refine ⟨.offset sign [h₁, h₂] [m₁, m₂], rfl, ⟨hsign, hd, hd'⟩, ?_, (Except.ok.inj hok).symm⟩
        rw [not_or, not_lt, not_lt] at hsmall
        exact hsmall
    · rw [if_neg hsigned] at hok'
      cases hok'

theorem drop_eq_extract {b : List UInt8} {i j : ℕ} {separator : UInt8} (hij : i ≤ j)
    (h : b[j]? = some separator) : b.drop i = b.extract i j ++ separator :: b.drop (j + 1) := by
  obtain ⟨hj, hget⟩ := List.getElem?_eq_some_iff.mp h
  have hsplit := (List.take_append_drop (j - i) (b.drop i)).symm
  rw [List.drop_drop, Nat.add_sub_cancel' hij, List.drop_eq_getElem_cons hj, hget] at hsplit
  rw [List.extract_eq_take_drop]
  exact hsplit

theorem digits_extract {b : List UInt8} {i j width : ℕ} (hlength : j ≤ b.length)
    (hwidth : j - i = width) (h : (b.extract i j).all isDigit = true) :
    Digits width (b.extract i j) := by
  refine ⟨?_, h⟩
  rw [List.extract_eq_take_drop, List.length_take, List.length_drop]
  omega

/-- The form that the places of a text's bytes make. -/
def formOf (b : List UInt8) (letter : UInt8) (part : Option (List UInt8)) (zone : Zone) : Form where
  year := b.extract 0 4
  month := b.extract 5 7
  day := b.extract 8 10
  letter := letter
  hour := b.extract 11 13
  minute := b.extract 14 16
  second := b.extract 17 19
  fraction := part
  zone := zone

theorem bytes_formOf {b : List UInt8} {letter : UInt8} {part : Option (List UInt8)} {zone : Zone}
    (h₁ : b[4]? = some 45) (h₂ : b[7]? = some 45) (h₃ : b[10]? = some letter)
    (h₄ : b[13]? = some 58) (h₅ : b[16]? = some 58)
    (hrest : b.drop 19 = fractionBytes part ++ zone.bytes) : b = (formOf b letter part zone).bytes := by
  have hsecond : b.drop 17 = b.extract 17 19 ++ b.drop 19 := by
    have hsplit := (List.take_append_drop 2 (b.drop 17)).symm
    rw [List.drop_drop] at hsplit
    rwa [List.extract_eq_take_drop]
  have hwhole := drop_eq_extract (Nat.zero_le 4) h₁
  rw [List.drop_zero, drop_eq_extract (by decide : 5 ≤ 7) h₂, drop_eq_extract (by decide : 8 ≤ 10) h₃,
    drop_eq_extract (by decide : 11 ≤ 13) h₄, drop_eq_extract (by decide : 14 ≤ 16) h₅, hsecond,
    hrest] at hwhole
  exact hwhole

/-- What is read has been written. -/
theorem denotes_of_ok {t : Timestamp} (h : fromRfc3339 text = .ok t) :
    ∃ f, Denotes text f ∧ t = instant f.millis := by
  unfold fromRfc3339 at h
  simp only [ite_throw_eq_ok, bind_eq_ok, pure_eq_ok] at h
  obtain ⟨hlength, hseparators, year, hyear, month, hmonth, day, hday, hour, hhour, minute, hminute,
    second, hsecond, hdate, htime, ⟨millis, pos⟩, hfraction, minutes, hoffset, rfl⟩ := h
  rw [not_lt] at hlength
  simp only [not_or, not_and_or, not_not] at hseparators
  obtain ⟨hs₁, hs₂, hs₃, hs₄, hs₅⟩ := hseparators
  obtain ⟨letter, hletter, hs₃⟩ : ∃ letter : UInt8, (letter = 84 ∨ letter = 116) ∧
      (utf8 text)[10]? = some letter := by
    rcases hs₃ with hs₃ | hs₃
    · exact ⟨84, .inl rfl, hs₃⟩
    · exact ⟨116, .inr rfl, hs₃⟩
  obtain ⟨hy, rfl⟩ := number_ok hyear
  obtain ⟨hm, rfl⟩ := number_ok hmonth
  obtain ⟨hd, rfl⟩ := number_ok hday
  obtain ⟨hh, rfl⟩ := number_ok hhour
  obtain ⟨hn, rfl⟩ := number_ok hminute
  obtain ⟨hc, rfl⟩ := number_ok hsecond
  have hpre : ((utf8 text).take 19).length = 19 := List.length_take_of_le (by omega)
  have hsplit : utf8 text = (utf8 text).take 19 ++ (utf8 text).drop 19 :=
    (List.take_append_drop _ _).symm
  rw [← hpre] at hfraction
  obtain ⟨part, after, hrest, hpart, rfl, rfl⟩ := fraction_ok hsplit hfraction
  have hsplit' : utf8 text = ((utf8 text).take 19 ++ fractionBytes part) ++ after := by
    rw [List.append_assoc, ← hrest]
    exact hsplit
  obtain ⟨zone, rfl, hwell, hpossible, rfl⟩ := offset_ok hsplit' hoffset
  refine ⟨formOf (utf8 text) letter part zone, ⟨?_, ?_, ?_⟩, ?_⟩
  · exact bytes_formOf hs₁ hs₂ hs₃ hs₄ hs₅ hrest
  · exact
      { year := digits_extract (by omega) rfl hy
        month := digits_extract (by omega) rfl hm
        day := digits_extract (by omega) rfl hd
        letter := hletter
        hour := digits_extract (by omega) rfl hh
        minute := digits_extract (by omega) rfl hn
        second := digits_extract (by omega) rfl hc
        fraction := hpart
        zone := hwell }
  · rw [not_or, not_or, not_lt, not_lt, not_lt] at htime
    simp only [not_or, not_lt] at hdate
    exact
      { date := ⟨hdate.1, hdate.2.1, hdate.2.2.1, hdate.2.2.2⟩
        hour := htime.1
        minute := htime.2.1
        second := htime.2.2
        zone := hpossible }
  · simp only [Form.millis, formOf, millisPerSecond, secondPerDay]
    congr 1
    omega

theorem number_part {start width : ℕ} (hd : Digits width digits) (hw : 0 < width)
    (h : utf8 text = pre ++ (digits ++ rest)) (hrest : ∀ b ∈ rest.head?, b < 128)
    (hpre : pre.length = start) : number text start (start + width) = .ok (value digits) := by
  subst hpre
  rw [← hd.1]
  refine number_eq pre digits rest h hd.2 hrest ?_
  rintro rfl
  obtain rfl := hd.1
  exact absurd hw (by decide)

/-- A number with the separator behind it. -/
theorem part_read {start width : ℕ} {separator : UInt8} (hd : Digits width digits) (hw : 0 < width)
    (h : utf8 text = pre ++ (digits ++ separator :: rest)) (hseparator : separator < 128)
    (hpre : pre.length = start) :
    number text start (start + width) = .ok (value digits) ∧
      (utf8 text)[start + width]? = some separator ∧
      ∃ pre', utf8 text = pre' ++ rest ∧ pre'.length = start + width + 1 := by
  refine ⟨number_part hd hw h ?_ hpre, ?_, pre ++ digits ++ [separator], ?_, ?_⟩
  · rintro b ⟨⟩
    exact hseparator
  · have hlength : (pre ++ digits).length = start + width := by
      rw [List.length_append, hpre, hd.1]
    rw [h, ← List.append_assoc, ← hlength, List.getElem?_append_right (le_refl _), Nat.sub_self]
    rfl
  · rw [h, List.append_assoc, List.append_assoc, List.singleton_append]
  · rw [List.length_append, List.length_append, hpre, hd.1, List.length_singleton]

theorem head?_zone {zone : Zone} (h : zone.WellFormed) :
    ∀ b ∈ zone.bytes.head?, isDigit b = false ∧ b ≠ 46 ∧ b < 128 := by
  cases zone with
  | utc letter =>
    rintro b ⟨⟩
    rcases h with rfl | rfl <;> decide
  | offset sign hours minutes =>
    rintro b ⟨⟩
    rcases h.1 with rfl | rfl <;> decide

theorem fraction_part (pre : List UInt8) {part : Option (List UInt8)} {zone : Zone}
    (h : utf8 text = pre ++ (fractionBytes part ++ zone.bytes)) (hzone : zone.WellFormed)
    (hpart : ∀ digits ∈ part, digits ≠ [] ∧ digits.all isDigit = true) :
    fraction text pre.length = .ok (fractionMillis part, (pre ++ fractionBytes part).length) := by
  cases part with
  | none =>
    rw [fraction_none h]
    · exact congrArg (fun l ↦ Except.ok (0, List.length l)) (List.append_nil pre).symm
    · intro hdot
      exact (head?_zone hzone 46 hdot).2.1 rfl
  | some digits =>
    obtain ⟨hne, hall⟩ := hpart digits rfl
    rw [fraction_dot h hall hne fun b hb ↦ (head?_zone hzone b hb).1, fractionMillis,
      fractionBytes, List.length_append, List.length_cons, Nat.add_assoc, Nat.add_comm 1]

theorem offset_part (pre : List UInt8) {zone : Zone} (h : utf8 text = pre ++ zone.bytes) (hwell : zone.WellFormed)
    (hpossible : zone.Possible) : offset text pre.length = .ok zone.minutes := by
  cases zone with
  | utc letter => exact offset_utc h hwell
  | offset sign hours minutes =>
    obtain ⟨hsign, hh, hm⟩ := hwell
    obtain ⟨hh', hm'⟩ := hpossible
    rw [offset_signed h hsign hh hm, if_neg (not_or.mpr ⟨not_lt.mpr hh', not_lt.mpr hm'⟩)]
    rfl

/-- What the places of a text show when it has been written in a form. -/
structure Shown (text : String) (f : Form) : Prop where
  length : 20 ≤ (utf8 text).length
  first : (utf8 text)[4]? = some 45
  second : (utf8 text)[7]? = some 45
  letter : (utf8 text)[10]? = some 84 ∨ (utf8 text)[10]? = some 116
  third : (utf8 text)[13]? = some 58
  fourth : (utf8 text)[16]? = some 58
  year : number text 0 4 = .ok (value f.year)
  month : number text 5 7 = .ok (value f.month)
  day : number text 8 10 = .ok (value f.day)
  hour : number text 11 13 = .ok (value f.hour)
  minute : number text 14 16 = .ok (value f.minute)
  seconds : number text 17 19 = .ok (value f.second)
  rest : ∃ pos, fraction text 19 = .ok (fractionMillis f.fraction, pos) ∧
    offset text pos = .ok f.zone.minutes

theorem shown_of_denotes {f : Form} (h : Denotes text f) : Shown text f := by
  obtain ⟨hb, hw, hp⟩ := h
  have hlast : ∀ b ∈ (fractionBytes f.fraction ++ f.zone.bytes).head?, b < 128 := by
    cases f.fraction with
    | none => exact fun b hb ↦ (head?_zone hw.zone b hb).2.2
    | some digits =>
      rintro b ⟨⟩
      decide
  have hletter : f.letter < 128 := by
    rcases hw.letter with h | h
    · rw [h]
      decide
    · rw [h]
      decide
  rw [Form.bytes] at hb
  obtain ⟨hyear, hs₁, pre₁, hb₁, hl₁⟩ :=
    @part_read text [] _ _ 0 4 _ hw.year (by decide) hb (by decide) rfl
  obtain ⟨hmonth, hs₂, pre₂, hb₂, hl₂⟩ := part_read hw.month (by decide) hb₁ (by decide) hl₁
  obtain ⟨hday, hs₃, pre₃, hb₃, hl₃⟩ := part_read hw.day (by decide) hb₂ hletter hl₂
  obtain ⟨hhour, hs₄, pre₄, hb₄, hl₄⟩ := part_read hw.hour (by decide) hb₃ (by decide) hl₃
  obtain ⟨hminute, hs₅, pre₅, hb₅, hl₅⟩ := part_read hw.minute (by decide) hb₄ (by decide) hl₄
  have hsecond := number_part hw.second (by decide) hb₅ hlast hl₅
  have hb₆ : utf8 text = (pre₅ ++ f.second) ++ (fractionBytes f.fraction ++ f.zone.bytes) := by
    rw [List.append_assoc]
    exact hb₅
  have hl₆ : (pre₅ ++ f.second).length = 19 := by rw [List.length_append, hl₅, hw.second.1]
  have hfraction := fraction_part _ hb₆ hw.zone hw.fraction
  have hb₇ : utf8 text = (pre₅ ++ f.second ++ fractionBytes f.fraction) ++ f.zone.bytes := by
    rw [List.append_assoc]
    exact hb₆
  have hoffset := offset_part _ hb₇ hw.zone hp.zone
  have hzone : f.zone.bytes ≠ [] := by
    cases f.zone <;> exact List.cons_ne_nil _ _
  rw [hl₆] at hfraction
  exact
    { length := by
        have hpos := List.length_pos_iff.mpr hzone
        rw [hb₇, List.length_append, List.length_append, hl₆]
        omega
      first := hs₁
      second := hs₂
      letter := hw.letter.imp (fun h ↦ hs₃.trans (congrArg some h)) fun h ↦ hs₃.trans (congrArg some h)
      third := hs₄
      fourth := hs₅
      year := hyear
      month := hmonth
      day := hday
      hour := hhour
      minute := hminute
      seconds := hsecond
      rest := ⟨_, hfraction, hoffset⟩ }

/-- What is written is read. -/
theorem ok_of_denotes {f : Form} (h : Denotes text f) :
    fromRfc3339 text = .ok (instant f.millis) := by
  have hshown := shown_of_denotes h
  obtain ⟨-, -, hdate, hh, hn, hs, -⟩ := h
  obtain ⟨hm, hm', hd, hd'⟩ := hdate
  obtain ⟨pos, hfraction, hoffset⟩ := hshown.rest
  have hlength : ¬ (utf8 text).length < 20 := not_lt.mpr hshown.length
  have hletter : ¬ ((utf8 text)[10]? ≠ some 84 ∧ (utf8 text)[10]? ≠ some 116) := by
    have := hshown.letter
    tauto
  have hseparators : ¬ ((utf8 text)[4]? ≠ some 45 ∨ (utf8 text)[7]? ≠ some 45 ∨
      ((utf8 text)[10]? ≠ some 84 ∧ (utf8 text)[10]? ≠ some 116) ∨
      (utf8 text)[13]? ≠ some 58 ∨ (utf8 text)[16]? ≠ some 58) := by
    have h₁ := hshown.first
    have h₂ := hshown.second
    have h₄ := hshown.third
    have h₅ := hshown.fourth
    tauto
  have hdate : ¬ (value f.month < 1 ∨ 12 < value f.month ∨ value f.day < 1 ∨
      dayInMonth (value f.year) (value f.month) < value f.day) := by omega
  have htime : ¬ (23 < value f.hour ∨ 59 < value f.minute ∨ 60 < value f.second) := by omega
  have hmillis : instant ((dayFromCivil (value f.year) (value f.month) (value f.day) *
      secondPerDay + value f.hour * 3600 + value f.minute * 60 + min (value f.second) 59 -
        f.zone.minutes * 60) * millisPerSecond + fractionMillis f.fraction) =
      instant f.millis := by
    simp only [Form.millis, millisPerSecond, secondPerDay]
    congr 1
    omega
  unfold fromRfc3339
  rw [← hmillis]
  simp only [hlength, hseparators, hshown.year, hshown.month, hshown.day, hshown.hour,
    hshown.minute, hshown.seconds, hdate, htime, hfraction, hoffset, if_false, bind, Except.bind,
    pure, Except.pure]

end Reading

section Instants

variable {text : String} {f : Form} {digits : List UInt8} {width : ℕ}

theorem value_concat (digits : List UInt8) (b : UInt8) :
    value (digits ++ [b]) = value digits * 10 + (b.toNat - 48 : ℕ) := List.foldl_concat ..

theorem value_bounds (h : digits.all isDigit = true) :
    0 ≤ value digits ∧ value digits < 10 ^ digits.length := by
  induction digits using List.reverseRecOn with
  | nil => decide
  | append_singleton digits b ih =>
    rw [List.all_append, Bool.and_eq_true] at h
    obtain ⟨hpos, hlt⟩ := ih h.1
    have hb : b.toNat - 48 ≤ 9 := by
      have hdigit := List.all_eq_true.mp h.2 b List.mem_cons_self
      simp only [isDigit, Bool.and_eq_true, decide_eq_true_eq, UInt8.le_iff_toNat_le] at hdigit
      have hle : b.toNat ≤ 57 := hdigit.2
      omega
    rw [value_concat, List.length_append, List.length_singleton, pow_succ]
    omega

theorem Digits.bounds (h : Digits width digits) : 0 ≤ value digits ∧ value digits < 10 ^ width := by
  rw [← h.1]
  exact value_bounds h.2

/-- At most three digits, filled up with zeroes. -/
theorem kept_bounds {kept : List UInt8} (h : kept.all isDigit = true) (hlength : kept.length ≤ 3) :
    (0 ≤ value kept ∧ value kept < 1000) ∧
      0 ≤ value kept * 10 ^ (3 - kept.length) ∧ value kept * 10 ^ (3 - kept.length) < 1000 := by
  obtain ⟨hpos, hlt⟩ := value_bounds h
  generalize value kept = n at *
  generalize kept.length = k at *
  interval_cases k <;> omega

theorem all_take {digits : List UInt8} (h : digits.all isDigit = true) (n : ℕ) :
    (digits.take n).all isDigit = true :=
  List.all_eq_true.mpr fun b hb ↦ List.all_eq_true.mp h b (List.mem_of_mem_take hb)

theorem fractionMillis_bounds {part : Option (List UInt8)}
    (h : ∀ digits ∈ part, digits ≠ [] ∧ digits.all isDigit = true) :
    0 ≤ fractionMillis part ∧ fractionMillis part < 1000 := by
  cases part with
  | none => exact ⟨le_refl _, by decide⟩
  | some digits =>
    exact (kept_bounds (all_take (h digits rfl).2 3) (List.length_take_le _ _)).2

theorem minutes_bounds {zone : Zone} (hw : zone.WellFormed) (hp : zone.Possible) :
    -1440 < zone.minutes ∧ zone.minutes < 1440 := by
  cases zone with
  | utc letter =>
    rw [Zone.minutes]
    exact ⟨by decide, by decide⟩
  | offset sign hours minutes =>
    obtain ⟨-, hh, hm⟩ := hw
    obtain ⟨hh', hm'⟩ := hp
    have hhours := hh.bounds.1
    have hminutes := hm.bounds.1
    rw [Zone.minutes]
    split <;> omega

/-- The instants of a calendar's years. -/
theorem dayFromCivil_bounds {year month day : ℤ} (h : ValidDate year month day) :
    (0 ≤ year ↔ -719528 ≤ dayFromCivil year month day) ∧
      (year < 10000 ↔ dayFromCivil year month day < 2932897) := by
  have hdated := dated (dayFromCivil year month day)
  rw [civilFromDay_dayFromCivil h] at hdated
  exact ⟨hdated.year_nonneg, hdated.year_lt⟩

theorem millis_bounds (h : Denotes text f) :
    -2 ^ 63 ≤ f.millis ∧ f.millis < 2 ^ 63 := by
  obtain ⟨-, hw, hp⟩ := h
  have hyear := hw.year.bounds
  have hdays := dayFromCivil_bounds hp.date
  have hlower := hdays.1.mp hyear.1
  have hupper := hdays.2.mp (by
    have := hyear.2
    omega)
  have hhour := hw.hour.bounds.1
  have hminute := hw.minute.bounds.1
  have hsecond := hw.second.bounds.1
  have hfraction := fractionMillis_bounds hw.fraction
  have hzone := minutes_bounds hw.zone hp.zone
  have hh := hp.hour
  have hn := hp.minute
  rw [Form.millis]
  omega

end Instants

section Checked

/-- A computation that may fail, and that may panic instead: then it has no result. -/
abbrev Checked (α : Type) := ExceptT TimeError Option α

/-- A number of 64 bits; more is an overflow. -/
def int (n : ℤ) : Checked ℤ :=
  ExceptT.mk (if -2 ^ 63 ≤ n ∧ n < 2 ^ 63 then some (.ok n) else none)

/-- A byte of a text; there has to be one. -/
def byteAt (b : List UInt8) (i : ℕ) : Checked UInt8 := ExceptT.mk (b[i]?.map .ok)

/-- A part of a text, which has to begin and to end with whole characters. -/
def slice (text : String) (start stop : ℕ) : Checked (List UInt8) :=
  ExceptT.mk (if start ≤ stop ∧ isBoundary text start ∧ isBoundary text stop then
    some (.ok ((utf8 text).extract start stop)) else none)

def fallible {α : Type} (r : Except TimeError α) : Checked α := ExceptT.mk (some r)

def numberChecked (text : String) (start stop : ℕ) : Checked ℤ := do
  let n ← fallible (number text start stop)
  int n

def fractionChecked (text : String) (pos : ℕ) : Checked (ℤ × ℕ) :=
  if (utf8 text)[pos]? = some 46 then
    let digits := ((utf8 text).drop (pos + 1)).takeWhile isDigit
    if digits.isEmpty then throw ⟨text, "fraction without digits"⟩
    else do
      let kept ← slice text (pos + 1) (min (pos + 1 + digits.length) (pos + 1 + 3))
      let n ← int (value kept)
      let zeroes ← int (3 - kept.length)
      let power ← int (10 ^ zeroes.toNat)
      let millis ← int (n * power)
      return (millis, pos + 1 + digits.length)
  else return (0, pos)

def offsetChecked (text : String) (pos : ℕ) : Checked ℤ :=
  let b := utf8 text
  let sign := b[pos]?
  if (sign = some 90 ∨ sign = some 122) ∧ pos + 1 = b.length then return 0
  else if (sign = some 43 ∨ sign = some 45) ∧ pos + 6 = b.length then do
    let colon ← byteAt b (pos + 3)
    if colon = 58 then do
      let h ← numberChecked text (pos + 1) (pos + 3)
      let m ← numberChecked text (pos + 4) (pos + 6)
      if 23 < h ∨ 59 < m then throw ⟨text, "no such offset"⟩
      else do
        let hours ← int (h * 60)
        let minutes ← int (hours + m)
        if sign = some 43 then return minutes else int (-minutes)
    else throw ⟨text, "time zone missing or unreadable"⟩
  else throw ⟨text, "time zone missing or unreadable"⟩

def dayFromCivilChecked (year month day : ℤ) : Checked ℤ := do
  let y ← (if month ≤ 2 then int (year - 1) else pure year : Checked ℤ)
  let era := y / 400
  let start ← int (era * 400)
  let yearOfEra ← int (y - start)
  let later ← int (month + 9)
  let monthFromMarch := later % 12
  let fifths ← int (153 * monthFromMarch)
  let fifths ← int (fifths + 2)
  let dayOfYear ← int (fifths / 5 + day)
  let dayOfYear ← int (dayOfYear - 1)
  let years ← int (yearOfEra * 365)
  let years ← int (years + yearOfEra / 4)
  let years ← int (years - yearOfEra / 100)
  let dayOfEra ← int (years + dayOfYear)
  let eras ← int (era * 146097)
  let days ← int (eras + dayOfEra)
  int (days - 719468)

def secondsChecked (days hour minute second offset : ℤ) : Checked ℤ := do
  let days ← int (days * secondPerDay)
  let hours ← int (hour * 3600)
  let sum ← int (days + hours)
  let minutes ← int (minute * 60)
  let sum ← int (sum + minutes)
  let sum ← int (sum + min second 59)
  let offset ← int (offset * 60)
  int (sum - offset)

/-- The reading with everything in it that could panic or overflow. -/
def fromRfc3339Checked (text : String) : Checked Timestamp := do
  let b := utf8 text
  if b.length < 20 then throw ⟨text, "too short"⟩
  let b₄ ← byteAt b 4
  let b₇ ← byteAt b 7
  let b₁₀ ← byteAt b 10
  let b₁₃ ← byteAt b 13
  let b₁₆ ← byteAt b 16
  if b₄ ≠ 45 ∨ b₇ ≠ 45 ∨ (b₁₀ ≠ 84 ∧ b₁₀ ≠ 116) ∨ b₁₃ ≠ 58 ∨ b₁₆ ≠ 58 then
    throw ⟨text, "separators do not match"⟩
  let year ← numberChecked text 0 4
  let month ← numberChecked text 5 7
  let day ← numberChecked text 8 10
  let hour ← numberChecked text 11 13
  let minute ← numberChecked text 14 16
  let second ← numberChecked text 17 19
  if month < 1 ∨ 12 < month ∨ day < 1 ∨ dayInMonth year month < day then
    throw ⟨text, "no such date"⟩
  if 23 < hour ∨ 59 < minute ∨ 60 < second then throw ⟨text, "no such time of day"⟩
  let (millis, pos) ← fractionChecked text 19
  let offsetMinutes ← offsetChecked text pos
  let days ← dayFromCivilChecked year month day
  let seconds ← secondsChecked days hour minute second offsetMinutes
  let whole ← int (seconds * millisPerSecond)
  let sum ← int (whole + millis)
  return instant sum

variable {α β : Type}

/-- The computation does not panic. -/
def Sure (x : Checked α) (r : Except TimeError α) : Prop := x.run = some r

theorem sure_bind {x : Checked α} {r : Except TimeError α} {f : α → Checked β}
    {g : α → Except TimeError β} (hx : Sure x r) (hf : ∀ a, r = .ok a → Sure (f a) (g a)) :
    Sure (x >>= f) (r >>= g) := by
  cases r with
  | error e =>
    change (x >>= f).run = some (.error e)
    rw [ExceptT.run_bind, hx]
    rfl
  | ok a =>
    change (x >>= f).run = some _
    rw [ExceptT.run_bind, hx]
    exact hf a rfl

theorem sure_int {n : ℤ} (h : -2 ^ 63 ≤ n ∧ n < 2 ^ 63) : Sure (int n) (.ok n) := if_pos h

theorem sure_pure (a : α) : Sure (pure a) (.ok a) := rfl

theorem sure_step {x : Checked α} {a : α} {f : α → Checked β} {r : Except TimeError β}
    (hx : Sure x (.ok a)) (hf : Sure (f a) r) : Sure (x >>= f) r := by
  refine sure_bind (r := .ok a) (g := fun _ ↦ r) hx fun a' ha ↦ ?_
  obtain rfl := Except.ok.inj ha
  exact hf

/-- The next step has a number that fits. -/
theorem sure_int_bind {n : ℤ} {f : ℤ → Checked β} {r : Except TimeError β}
    (h : -2 ^ 63 ≤ n ∧ n < 2 ^ 63) (hf : Sure (f n) r) : Sure (int n >>= f) r :=
  sure_step (sure_int h) hf

/-- Both fail where their conditions hold, and they are the same. -/
theorem sure_ite_throw {p q : Prop} [Decidable p] [Decidable q] {e : TimeError}
    {k : β → Checked α} {k' : β → Except TimeError α} {y : Checked α} {s : Except TimeError α}
    (hpq : p ↔ q) (hy : ¬ q → Sure y s) :
    Sure (if p then throw e >>= k else y) (if q then throw e >>= k' else s) := by
  by_cases h : q
  · rw [if_pos h, if_pos (hpq.mpr h)]
    rfl
  · rw [if_neg h, if_neg (mt hpq.mp h)]
    exact hy h

theorem sure_days {year month day : ℤ} (hy : 0 ≤ year ∧ year < 10000) (hm : 1 ≤ month ∧ month ≤ 12)
    (hd : 1 ≤ day ∧ day ≤ 31) :
    Sure (dayFromCivilChecked year month day) (.ok (dayFromCivil year month day)) := by
  have hstart : Sure (if month ≤ 2 then int (year - 1) else pure year)
      (.ok (if month ≤ 2 then year - 1 else year)) := by
    split
    · exact sure_int (by omega)
    · exact sure_pure _
  unfold dayFromCivilChecked dayFromCivil
  refine sure_step hstart ?_
  generalize hyear : (if month ≤ 2 then year - 1 else year) = y
  have hy' : -1 ≤ y ∧ y < 10000 := by omega
  dsimp only
  refine sure_int_bind (by omega) (sure_int_bind (by omega) (sure_int_bind (by omega) ?_))
  refine sure_int_bind (by omega) (sure_int_bind (by omega) (sure_int_bind (by omega) ?_))
  refine sure_int_bind (by omega) (sure_int_bind (by omega) (sure_int_bind (by omega) ?_))
  refine sure_int_bind (by omega) (sure_int_bind (by omega) (sure_int_bind (by omega) ?_))
  refine sure_int_bind (by omega) (sure_int ?_)
  omega

theorem sure_seconds {days hour minute second offset : ℤ} (hd : -719528 ≤ days ∧ days < 2932897)
    (hh : 0 ≤ hour ∧ hour ≤ 23) (hm : 0 ≤ minute ∧ minute ≤ 59) (hs : 0 ≤ second)
    (ho : -1440 < offset ∧ offset < 1440) :
    Sure (secondsChecked days hour minute second offset)
      (.ok (days * secondPerDay + hour * 3600 + minute * 60 + min second 59 - offset * 60)) := by
  have hday : secondPerDay = 86400 := rfl
  unfold secondsChecked
  rw [hday]
  refine sure_int_bind (by omega) (sure_int_bind (by omega) (sure_int_bind (by omega) ?_))
  refine sure_int_bind (by omega) (sure_int_bind (by omega) (sure_int_bind (by omega) ?_))
  refine sure_int_bind (by omega) (sure_int ?_)
  omega

theorem number_bounds {text : String} {start stop : ℕ} {n : ℤ} (h : stop ≤ start + 4)
    (hok : number text start stop = .ok n) : 0 ≤ n ∧ n < 10000 := by
  obtain ⟨hall, rfl⟩ := number_ok hok
  obtain ⟨hpos, hlt⟩ := value_bounds hall
  have hlength : ((utf8 text).extract start stop).length ≤ 4 := by
    rw [List.extract_eq_take_drop]
    exact (List.length_take_le _ _).trans (by omega)
  have hpow : (10 : ℤ) ^ ((utf8 text).extract start stop).length ≤ 10 ^ 4 :=
    pow_le_pow_right₀ (by decide) hlength
  exact ⟨hpos, hlt.trans_le hpow⟩

/-- A number of a few digits fits. -/
theorem sure_number {text : String} {start stop : ℕ} (h : stop ≤ start + 4) :
    Sure (numberChecked text start stop) (number text start stop) := by
  unfold numberChecked
  cases hn : number text start stop with
  | error e => rfl
  | ok n =>
    have hbounds := number_bounds h hn
    exact sure_step rfl (sure_int (by omega))

theorem boundary_behind {text : String} {pre post : List UInt8} {b : UInt8}
    (h : utf8 text = pre ++ b :: post) (hb : b < 128) : isBoundary text (pre.length + 1) = true := by
  have hnext := boundary_after_ascii h hb
  unfold isBoundary
  have hone : pre.length + 1 - pre.length = 0 + 1 := by omega
  rw [h, List.getElem?_append_right (Nat.le_add_right _ _), hone, List.getElem?_cons_succ,
    List.length_append, List.length_cons]
  cases post with
  | nil => simp
  | cons next post => simpa using hnext next rfl

/-- The digits that count are a part of the text by themselves. -/
theorem sure_slice {text : String} {pre digits after : List UInt8} {pos : ℕ}
    (h : utf8 text = pre ++ 46 :: (digits ++ after)) (hpre : pre.length = pos)
    (hall : digits.all isDigit = true) (hne : digits ≠ []) :
    Sure (slice text (pos + 1) (min (pos + 1 + digits.length) (pos + 1 + 3)))
      (.ok (digits.take 3)) := by
  subst hpre
  have hkept : 0 < (digits.take 3).length := by
    rw [List.length_take]
    have := List.length_pos_iff.mpr hne
    omega
  have hstop : min (pre.length + 1 + digits.length) (pre.length + 1 + 3) =
      pre.length + 1 + (digits.take 3).length := by
    rw [List.length_take]
    omega
  have hstart : isBoundary text (pre.length + 1) = true := boundary_behind h (by decide)
  have hkeep : digits ++ after = digits.take 3 ++ (digits.drop 3 ++ after) := by
    rw [← List.append_assoc, List.take_append_drop]
  have hend : isBoundary text (pre.length + 1 + (digits.take 3).length) = true := by
    obtain ⟨init, last, hlast⟩ := (List.eq_nil_or_concat' (digits.take 3)).resolve_left
      (List.length_pos_iff.mp hkept)
    have hsplit : utf8 text = (pre ++ 46 :: init) ++ last :: (digits.drop 3 ++ after) := by
      rw [h, hkeep, hlast]
      simp
    have hascii : last < 128 := by
      have hdigit := List.all_eq_true.mp (all_take hall 3) last (by
        rw [hlast]
        exact List.mem_append_right _ List.mem_cons_self)
      simp only [isDigit, Bool.and_eq_true, decide_eq_true_eq, UInt8.le_iff_toNat_le] at hdigit
      exact UInt8.lt_iff_toNat_lt.mpr (lt_of_le_of_lt hdigit.2 (by decide))
    have hbehind := boundary_behind hsplit hascii
    rw [List.length_append, List.length_cons] at hbehind
    rwa [hlast, List.length_append, List.length_singleton, ← Nat.add_assoc, Nat.add_assoc pre.length,
      Nat.add_comm 1]
  have hpart : (utf8 text).extract (pre.length + 1) (pre.length + 1 + (digits.take 3).length) =
      digits.take 3 := by
    have hsplit : utf8 text = (pre ++ [46]) ++ (digits ++ after) := by
      rw [h, List.append_assoc, List.singleton_append]
    have hextract := extract_behind hsplit 0 (digits.take 3).length
    rw [List.length_append, List.length_singleton, Nat.add_zero] at hextract
    rw [hextract, List.extract_eq_take_drop, List.drop_zero, Nat.sub_zero, hkeep, List.take_left]
  rw [hstop, Sure, slice]
  change (if _ then _ else _) = _
  rw [if_pos ⟨Nat.le_add_right _ _, hstart, hend⟩, hpart]

theorem sure_fraction (text : String) (pos : ℕ) :
    Sure (fractionChecked text pos) (fraction text pos) := by
  unfold fractionChecked fraction
  by_cases hdot : (utf8 text)[pos]? = some 46
  · rw [if_pos hdot, if_pos hdot]
    dsimp only
    generalize hdigits : ((utf8 text).drop (pos + 1)).takeWhile isDigit = digits
    have hall : digits.all isDigit = true := by
      rw [← hdigits]
      exact List.all_eq_true.mpr fun b hb ↦ List.mem_takeWhile_imp hb
    cases hnil : digits.isEmpty with
    | true => rfl
    | false =>
      have hne : digits ≠ [] := List.isEmpty_eq_false_iff.mp hnil
      obtain ⟨hlt, hget⟩ := List.getElem?_eq_some_iff.mp hdot
      have hsplit : utf8 text = (utf8 text).take pos ++ 46 ::
          (digits ++ ((utf8 text).drop (pos + 1)).dropWhile isDigit) := by
        rw [← hdigits, List.takeWhile_append_dropWhile, ← hget, ← List.drop_eq_getElem_cons hlt,
          List.take_append_drop]
      have hpre : ((utf8 text).take pos).length = pos := List.length_take_of_le hlt.le
      have hlength : (digits.take 3).length ≤ 3 := List.length_take_le _ _
      obtain ⟨hn, hmillis⟩ := kept_bounds (all_take hall 3) hlength
      refine sure_step (sure_slice hsplit hpre hall hne) ?_
      refine sure_int_bind (by omega) (sure_int_bind (by omega) ?_)
      have hzeroes : (3 - ((digits.take 3).length : ℤ)).toNat = 3 - (digits.take 3).length := by
        omega
      rw [hzeroes]
      have hpower : (10 : ℤ) ^ (3 - (digits.take 3).length) ≤ 10 ^ 3 :=
        pow_le_pow_right₀ (by decide) (by omega)
      have hpos : (0 : ℤ) < 10 ^ (3 - (digits.take 3).length) := pow_pos (by decide) _
      refine sure_int_bind (by omega) (sure_int_bind (by omega) ?_)
      exact sure_pure _
  · rw [if_neg hdot, if_neg hdot]
    exact sure_pure _

theorem fraction_bounds {text : String} {pos next : ℕ} {millis : ℤ}
    (h : fraction text pos = .ok (millis, next)) : 0 ≤ millis ∧ millis < 1000 := by
  unfold fraction at h
  by_cases hdot : (utf8 text)[pos]? = some 46
  · rw [if_pos hdot] at h
    dsimp only at h
    generalize hdigits : ((utf8 text).drop (pos + 1)).takeWhile isDigit = digits at h
    have hall : digits.all isDigit = true := by
      rw [← hdigits]
      exact List.all_eq_true.mpr fun b hb ↦ List.mem_takeWhile_imp hb
    by_cases hnil : digits.isEmpty = true
    · rw [if_pos hnil] at h
      cases h
    · rw [if_neg hnil] at h
      obtain ⟨rfl, -⟩ := Prod.mk.inj (Except.ok.inj h)
      exact (kept_bounds (all_take hall 3) (List.length_take_le _ _)).2
  · rw [if_neg hdot] at h
    obtain ⟨rfl, -⟩ := Prod.mk.inj (Except.ok.inj h)
    decide

theorem offset_bounds {text : String} {pos : ℕ} {minutes : ℤ}
    (h : offset text pos = .ok minutes) : -1440 < minutes ∧ minutes < 1440 := by
  unfold offset at h
  dsimp only at h
  by_cases hutc : ((utf8 text)[pos]? = some 90 ∨ (utf8 text)[pos]? = some 122) ∧
      pos + 1 = (utf8 text).length
  · rw [if_pos hutc] at h
    obtain rfl := Except.ok.inj h
    decide
  · rw [if_neg hutc] at h
    by_cases hsigned : ((utf8 text)[pos]? = some 43 ∨ (utf8 text)[pos]? = some 45) ∧
        pos + 6 = (utf8 text).length ∧ (utf8 text)[pos + 3]? = some 58
    · rw [if_pos hsigned] at h
      simp only [bind_eq_ok, ite_throw_eq_ok, pure_eq_ok] at h
      obtain ⟨hours, hh, minutes', hm, hsmall, rfl⟩ := h
      have hhours := (number_bounds (by omega) hh).1
      have hminutes := (number_bounds (by omega) hm).1
      split <;> omega
    · rw [if_neg hsigned] at h
      cases h

theorem byteAt_eq {b : List UInt8} {i : ℕ} (h : i < b.length) :
    ∃ c, b[i]? = some c ∧ Sure (byteAt b i) (.ok c) := by
  refine ⟨b[i], List.getElem?_eq_getElem h, ?_⟩
  rw [Sure, byteAt, List.getElem?_eq_getElem h]
  rfl

theorem sure_offset (text : String) (pos : ℕ) :
    Sure (offsetChecked text pos) (offset text pos) := by
  unfold offsetChecked offset
  dsimp only
  by_cases hutc : ((utf8 text)[pos]? = some 90 ∨ (utf8 text)[pos]? = some 122) ∧
      pos + 1 = (utf8 text).length
  · rw [if_pos hutc, if_pos hutc]
    exact sure_pure _
  · rw [if_neg hutc, if_neg hutc]
    by_cases hsigned : ((utf8 text)[pos]? = some 43 ∨ (utf8 text)[pos]? = some 45) ∧
        pos + 6 = (utf8 text).length
    · rw [if_pos hsigned]
      obtain ⟨colon, hcolon, hsure⟩ := @byteAt_eq (utf8 text) (pos + 3) (by omega)
      refine sure_step hsure ?_
      by_cases h58 : colon = 58
      · rw [if_pos h58, if_pos ⟨hsigned.1, hsigned.2, hcolon.trans (congrArg some h58)⟩]
        refine sure_bind (sure_number (by omega)) fun h hh ↦ ?_
        refine sure_bind (sure_number (by omega)) fun m hm ↦ ?_
        have hhours := number_bounds (by omega) hh
        have hminutes := number_bounds (by omega) hm
        by_cases hlarge : 23 < h ∨ 59 < m
        · rw [if_pos hlarge, if_pos hlarge]
          rfl
        · rw [if_neg hlarge, if_neg hlarge]
          refine sure_int_bind (by omega) (sure_int_bind (by omega) ?_)
          by_cases hplus : (utf8 text)[pos]? = some 43
          · rw [if_pos hplus, if_pos hplus]
            exact sure_pure _
          · rw [if_neg hplus, if_neg hplus]
            exact sure_int (by omega)
      · rw [if_neg h58, if_neg fun h ↦ h58 (Option.some.inj (hcolon.symm.trans h.2.2))]
        rfl
    · rw [if_neg hsigned, if_neg fun h ↦ hsigned ⟨h.1, h.2.1⟩]
      rfl

/-- No text makes the reading panic or overflow. -/
theorem sure_fromRfc3339 (text : String) : Sure (fromRfc3339Checked text) (fromRfc3339 text) := by
  unfold fromRfc3339Checked fromRfc3339
  dsimp only
  refine sure_ite_throw Iff.rfl fun hlength ↦ ?_
  obtain ⟨b₄, h₄, hs₄⟩ := @byteAt_eq (utf8 text) 4 (by omega)
  obtain ⟨b₇, h₇, hs₇⟩ := @byteAt_eq (utf8 text) 7 (by omega)
  obtain ⟨b₁₀, h₁₀, hs₁₀⟩ := @byteAt_eq (utf8 text) 10 (by omega)
  obtain ⟨b₁₃, h₁₃, hs₁₃⟩ := @byteAt_eq (utf8 text) 13 (by omega)
  obtain ⟨b₁₆, h₁₆, hs₁₆⟩ := @byteAt_eq (utf8 text) 16 (by omega)
  refine sure_step hs₄ (sure_step hs₇ (sure_step hs₁₀ (sure_step hs₁₃ (sure_step hs₁₆ ?_))))
  refine sure_ite_throw (by rw [h₄, h₇, h₁₀, h₁₃, h₁₆]; simp) fun _ ↦ ?_
  refine sure_bind (sure_number (by decide)) fun year hyear ↦ ?_
  refine sure_bind (sure_number (by decide)) fun month hmonth ↦ ?_
  refine sure_bind (sure_number (by decide)) fun day hday ↦ ?_
  refine sure_bind (sure_number (by decide)) fun hour hhour ↦ ?_
  refine sure_bind (sure_number (by decide)) fun minute hminute ↦ ?_
  refine sure_bind (sure_number (by decide)) fun second hsecond ↦ ?_
  refine sure_ite_throw Iff.rfl fun hdate ↦ ?_
  refine sure_ite_throw Iff.rfl fun htime ↦ ?_
  refine sure_bind (sure_fraction _ _) fun (millis, pos) hfraction ↦ ?_
  refine sure_bind (sure_offset _ _) fun minutes hoffset ↦ ?_
  have hyear := number_bounds (by decide) hyear
  have hhour := number_bounds (by decide) hhour
  have hminute := number_bounds (by decide) hminute
  have hsecond := number_bounds (by decide) hsecond
  have hminutes := offset_bounds hoffset
  have hmillis := fraction_bounds hfraction
  simp only [not_or, not_lt] at hdate htime
  obtain ⟨hm, hm', hd, hd'⟩ := hdate
  have hmax := dayInMonth_bounds year month
  have hvalid : ValidDate year month day := ⟨hm, hm', hd, hd'⟩
  have hdays := dayFromCivil_bounds hvalid
  have hlower := hdays.1.mp hyear.1
  have hupper := hdays.2.mp hyear.2
  refine sure_step (sure_days hyear ⟨hm, hm'⟩ ⟨hd, hd'.trans hmax.2⟩) ?_
  refine sure_step (sure_seconds ⟨hlower, hupper⟩ ⟨hhour.1, htime.1⟩ ⟨hminute.1, htime.2.1⟩
    hsecond.1 hminutes) ?_
  have hday : secondPerDay = 86400 := rfl
  have hthousand : millisPerSecond = 1000 := rfl
  rw [hday, hthousand]
  refine sure_int_bind (by omega) (sure_int_bind (by omega) ?_)
  exact sure_pure _

end Checked

section Round

variable {text : String}

/-- What a text is to have of its reading. -/
structure Faithful (text : String) : Prop where
  again : ∀ t, fromRfc3339 text = .ok t → fromRfc3339 (rfc3339 t) = .ok t
  instant : ∀ t f, fromRfc3339 text = .ok t → Denotes text f → t.unixMillis = f.millis
  accepted : (∃ t, fromRfc3339 text = .ok t) ↔ ∃ f, Denotes text f
  sure : Sure (fromRfc3339Checked text) (fromRfc3339 text)

/-- The first millisecond of a year. -/
def yearStart (year : ℤ) : ℤ := dayFromCivil year 1 1 * 86400000

/-- In UTC the text tells of a year that four digits can write. -/
def Within (text : String) : Prop :=
  ∀ f, Denotes text f → yearStart 0 ≤ f.millis ∧ f.millis < yearStart 10000

/-- The days and the dates of the proleptic Gregorian calendar, one to one. -/
structure Proleptic : Prop where
  origin : dayFromCivil 1970 1 1 = 0
  next : ∀ year month day, ValidDate year month day →
    dayFromCivil (nextDate year month day).1 (nextDate year month day).2.1
      (nextDate year month day).2.2 = dayFromCivil year month day + 1
  valid : ∀ days, ValidDate (civilFromDay days).1 (civilFromDay days).2.1 (civilFromDay days).2.2
  back : ∀ days,
    dayFromCivil (civilFromDay days).1 (civilFromDay days).2.1 (civilFromDay days).2.2 = days
  forth : ∀ year month day, ValidDate year month day →
    civilFromDay (dayFromCivil year month day) = (year, month, day)

theorem proleptic : Proleptic where
  origin := by decide
  next _ _ _ := dayFromCivil_next
  valid := validDate_civilFromDay
  back days := (dated days).back
  forth _ _ _ := civilFromDay_dayFromCivil

theorem unixMillis_instant {f : Form} (h : Denotes text f) :
    (instant f.millis).unixMillis = f.millis := by
  have hbounds := millis_bounds h
  change max (-2 ^ 63) (min (2 ^ 63 - 1) f.millis) = f.millis
  omega

theorem inYears_instant_iff {f : Form} (h : Denotes text f) :
    InYears (instant f.millis) ↔ yearStart 0 ≤ f.millis ∧ f.millis < yearStart 10000 := by
  have hfirst : yearStart 0 = -62167219200000 := by decide
  have hlast : yearStart 10000 = 253402300800000 := by decide
  rw [InYears, unixMillis_instant h, hfirst, hlast]

/-- A timestamp is read for what it says, and written so that it is read again exactly if its
offset does not carry it out of the years that are written with four digits. -/
theorem timestamps_exact (text : String) : Proleptic ∧ (Faithful text ↔ Within text) := by
  refine ⟨proleptic, fun h f hf ↦ ?_, fun h ↦ ?_⟩
  · rw [← inYears_instant_iff hf, ← fromRfc3339_rfc3339_iff]
    exact h.again _ (ok_of_denotes hf)
  · exact
      { again := by
          intro t ht
          obtain ⟨f, hf, rfl⟩ := denotes_of_ok ht
          exact (fromRfc3339_rfc3339_iff _).mpr ((inYears_instant_iff hf).mpr (h f hf))
        instant := by
          intro t f ht hf
          rw [ok_of_denotes hf] at ht
          obtain rfl := Except.ok.inj ht
          exact unixMillis_instant hf
        accepted := by
          constructor
          · rintro ⟨t, ht⟩
            obtain ⟨f, hf, -⟩ := denotes_of_ok ht
            exact ⟨f, hf⟩
          · rintro ⟨f, hf⟩
            exact ⟨_, ok_of_denotes hf⟩
        sure := sure_fromRfc3339 text }

theorem timestamps_carried : ¬ ∀ text, Faithful text := by
  intro h
  have hread : fromRfc3339 "0000-01-01T00:00:00+00:01" = .ok (instant (-62167219260000)) := by
    decide +kernel
  have hagain := (h _).again _ hread
  exact absurd hagain (by decide +kernel)

end Round

end FolderClient.Core.Timestamps
