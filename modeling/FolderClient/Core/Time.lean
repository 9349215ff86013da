import FolderClient.Core.Namespace
import FolderClient.Library.Texts

namespace FolderClient.Core.Time

open FolderClient.Core.Namespace FolderClient.Library.Texts

structure TimeError where
  text : String
  reason : String
deriving DecidableEq

def TimeError.display (e : TimeError) : String :=
  "`" ++ e.text ++ "` is not a timestamp per RFC 3339 (" ++ e.reason ++ ")"

def millisPerSecond : ℤ := 1000

def secondPerDay : ℤ := 86400

def isLeapYear (year : ℤ) : Bool := (year % 4 = 0 && year % 100 ≠ 0) || year % 400 = 0

def dayInMonth (year month : ℤ) : ℤ :=
  if month = 2 then if isLeapYear year then 29 else 28
  else if month = 4 ∨ month = 6 ∨ month = 9 ∨ month = 11 then 30
  else 31

/-- The day of a civil date, counted from 1970; the year is taken to start in March. -/
def dayFromCivil (year month day : ℤ) : ℤ :=
  let y := if month ≤ 2 then year - 1 else year
  let era := y / 400
  let yearOfEra := y - era * 400
  let monthFromMarch := (month + 9) % 12
  let dayOfYear := (153 * monthFromMarch + 2) / 5 + day - 1
  let dayOfEra := yearOfEra * 365 + yearOfEra / 4 - yearOfEra / 100 + dayOfYear
  era * 146097 + dayOfEra - 719468

def civilFromDay (days : ℤ) : ℤ × ℤ × ℤ :=
  let z := days + 719468
  let era := z / 146097
  let dayOfEra := z - era * 146097
  let yearOfEra := (dayOfEra - dayOfEra / 1460 + dayOfEra / 36524 - dayOfEra / 146096) / 365
  let dayOfYear := dayOfEra - (365 * yearOfEra + yearOfEra / 4 - yearOfEra / 100)
  let monthFromMarch := (5 * dayOfYear + 2) / 153
  let day := dayOfYear - (153 * monthFromMarch + 2) / 5 + 1
  let month := if monthFromMarch < 10 then monthFromMarch + 3 else monthFromMarch - 9
  let year := yearOfEra + era * 400 + if month ≤ 2 then 1 else 0
  (year, month, day)

/-- A number with zeroes in front up to a width; a sign counts as one of its characters. -/
def padded (width : ℕ) (n : ℤ) : List Char :=
  let sign := if n < 0 then ['-'] else []
  let digits := Nat.toDigits 10 n.natAbs
  sign ++ List.replicate (width - sign.length - digits.length) '0' ++ digits

/-- The RFC 3339 form in UTC with milliseconds. -/
def rfc3339 (t : Timestamp) : String :=
  let millis := t.unixMillis % millisPerSecond
  let second := t.unixMillis / millisPerSecond
  let days := second / secondPerDay
  let inDay := second % secondPerDay
  let (year, month, day) := civilFromDay days
  String.ofList (padded 4 year ++ '-' :: padded 2 month ++ '-' :: padded 2 day ++ 'T' ::
    padded 2 (inDay / 3600) ++ ':' :: padded 2 (inDay % 3600 / 60) ++ ':' ::
    padded 2 (inDay % 60) ++ '.' :: padded 3 millis ++ ['Z'])

section Reading

variable (text : String)

def isDigit (b : UInt8) : Bool := 48 ≤ b && b ≤ 57

def value (digits : List UInt8) : ℤ :=
  digits.foldl (fun n b ↦ n * 10 + (b.toNat - 48 : ℕ)) 0

/-- Whether a character begins at a place of the text, or the text ends there. -/
def isBoundary (pos : ℕ) : Bool :=
  pos = (utf8 text).length || (utf8 text)[pos]?.any fun b ↦ b < 128 || 192 ≤ b

/-- The number between two places of the text. -/
def number (start stop : ℕ) : Except TimeError ℤ :=
  let part := (utf8 text).extract start stop
  if ¬ (isBoundary text start ∧ isBoundary text stop) then .error ⟨text, "digits missing"⟩
  else if part.all isDigit then .ok (value part)
  else .error ⟨text, "digits expected"⟩

/-- The digits of a fraction that stand from `pos` on, and the place after them. -/
def fraction (pos : ℕ) : Except TimeError (ℤ × ℕ) :=
  if (utf8 text)[pos]? = some 46 then
    let digits := ((utf8 text).drop (pos + 1)).takeWhile isDigit
    if digits.isEmpty then .error ⟨text, "fraction without digits"⟩
    else
      let kept := digits.take 3
      .ok (value kept * 10 ^ (3 - kept.length), pos + 1 + digits.length)
  else .ok (0, pos)

/-- The offset from UTC in minutes, which ends the text. -/
def offset (pos : ℕ) : Except TimeError ℤ :=
  let b := utf8 text
  let sign := b[pos]?
  if (sign = some 90 ∨ sign = some 122) ∧ pos + 1 = b.length then .ok 0
  else if (sign = some 43 ∨ sign = some 45) ∧ pos + 6 = b.length ∧ b[pos + 3]? = some 58 then do
    let h ← number text (pos + 1) (pos + 3)
    let m ← number text (pos + 4) (pos + 6)
    if 23 < h ∨ 59 < m then throw ⟨text, "no such offset"⟩
    return if sign = some 43 then h * 60 + m else -(h * 60 + m)
  else .error ⟨text, "time zone missing or unreadable"⟩

/-- An instant that fits the 64 bits, as every instant of four-digit years does. -/
def instant (millis : ℤ) : Timestamp :=
  ⟨max (-2 ^ 63) (min (2 ^ 63 - 1) millis), by omega, by omega⟩

/-- Reads `YYYY-MM-DDThh:mm:ss[.fraction](Z|±hh:mm)`; below a millisecond is cut off. -/
def fromRfc3339 : Except TimeError Timestamp := do
  let b := utf8 text
  if b.length < 20 then throw ⟨text, "too short"⟩
  if b[4]? ≠ some 45 ∨ b[7]? ≠ some 45 ∨ (b[10]? ≠ some 84 ∧ b[10]? ≠ some 116) ∨
      b[13]? ≠ some 58 ∨ b[16]? ≠ some 58 then
    throw ⟨text, "separators do not match"⟩
  let year ← number text 0 4
  let month ← number text 5 7
  let day ← number text 8 10
  let hour ← number text 11 13
  let minute ← number text 14 16
  let second ← number text 17 19
  if month < 1 ∨ 12 < month ∨ day < 1 ∨ dayInMonth year month < day then
    throw ⟨text, "no such date"⟩
  if 23 < hour ∨ 59 < minute ∨ 60 < second then throw ⟨text, "no such time of day"⟩
  let (millis, pos) ← fraction text 19
  let offsetMinutes ← offset text pos
  let second := dayFromCivil year month day * secondPerDay + hour * 3600 + minute * 60 +
    min second 59 - offsetMinutes * 60
  return instant (second * millisPerSecond + millis)

end Reading

end FolderClient.Core.Time
