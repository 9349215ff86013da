import Mathlib.Data.Nat.Notation
import FolderClient.Library.Texts

namespace FolderClient.Library.Base64Url

open FolderClient.Library.Texts

def letter (n : ℕ) : Char :=
  if n < 26 then Char.ofNat (65 + n)
  else if n < 52 then Char.ofNat (97 + (n - 26))
  else if n < 62 then Char.ofNat (48 + (n - 52))
  else if n = 62 then '-'
  else '_'

def digit (c : Char) : Option ℕ :=
  if 'A' ≤ c ∧ c ≤ 'Z' then some (c.toNat - 65)
  else if 'a' ≤ c ∧ c ≤ 'z' then some (c.toNat - 97 + 26)
  else if '0' ≤ c ∧ c ≤ '9' then some (c.toNat - 48 + 52)
  else if c = '-' then some 62
  else if c = '_' then some 63
  else none

/-- Three bytes are four letters; what is left over takes no padding. -/
def letters : List UInt8 → List Char
  | a :: b :: c :: rest =>
    letter (a.toNat / 4) :: letter (a.toNat % 4 * 16 + b.toNat / 16) ::
      letter (b.toNat % 16 * 4 + c.toNat / 64) :: letter (c.toNat % 64) :: letters rest
  | [a, b] =>
    [letter (a.toNat / 4), letter (a.toNat % 4 * 16 + b.toNat / 16), letter (b.toNat % 16 * 4)]
  | [a] => [letter (a.toNat / 4), letter (a.toNat % 4 * 16)]
  | [] => []

/-- The bits left over have to be zero. -/
def bytes : List Char → Option (List UInt8)
  | w :: x :: y :: z :: rest => do
    let w ← digit w
    let x ← digit x
    let y ← digit y
    let z ← digit z
    let more ← bytes rest
    return UInt8.ofNat (w * 4 + x / 16) :: UInt8.ofNat (x % 16 * 16 + y / 4) ::
      UInt8.ofNat (y % 4 * 64 + z) :: more
  | [w, x, y] => do
    let w ← digit w
    let x ← digit x
    let y ← digit y
    if y % 4 = 0 then some [UInt8.ofNat (w * 4 + x / 16), UInt8.ofNat (x % 16 * 16 + y / 4)]
    else none
  | [w, x] => do
    let w ← digit w
    let x ← digit x
    if x % 16 = 0 then some [UInt8.ofNat (w * 4 + x / 16)] else none
  | [_] => none
  | [] => some []

def encode (raw : List UInt8) : String := String.ofList (letters raw)

def decode (text : String) : Option (List UInt8) := bytes text.toList

theorem digit_letter {n : ℕ} (h : n < 64) : digit (letter n) = some n := by
  have hall : ∀ m : Fin 64, digit (letter m) = some m.val := by decide
  exact hall ⟨n, h⟩

theorem letter_ne_dot (n : ℕ) : letter n ≠ '.' := by
  rw [letter]
  split
  · rename_i h
    have hall : ∀ m : Fin 26, Char.ofNat (65 + m) ≠ '.' := by decide
    exact hall ⟨n, h⟩
  · split
    · rename_i h
      have hall : ∀ m : Fin 26, Char.ofNat (97 + m) ≠ '.' := by decide
      exact hall ⟨n - 26, by omega⟩
    · split
      · rename_i h
        have hall : ∀ m : Fin 10, Char.ofNat (48 + m) ≠ '.' := by decide
        exact hall ⟨n - 52, by omega⟩
      · split <;> decide

theorem ofNat_eq {n : ℕ} (b : UInt8) (h : n = b.toNat) : UInt8.ofNat n = b := by
  rw [h, UInt8.ofNat_toNat]

theorem bytes_letters : ∀ raw : List UInt8, bytes (letters raw) = some raw
  | a :: b :: c :: rest => by
    have ha := a.toNat_lt
    have hb := b.toNat_lt
    have hc := c.toNat_lt
    rw [letters, bytes, digit_letter (by omega), digit_letter (by omega), digit_letter (by omega),
      digit_letter (by omega), bytes_letters rest]
    simp only [Option.bind_eq_bind, Option.bind_some, Option.pure_def]
    rw [ofNat_eq a (by omega), ofNat_eq b (by omega), ofNat_eq c (by omega)]
  | [a, b] => by
    have ha := a.toNat_lt
    have hb := b.toNat_lt
    rw [letters, bytes, digit_letter (by omega), digit_letter (by omega), digit_letter (by omega)]
    simp only [Option.bind_eq_bind, Option.bind_some]
    rw [if_pos (by omega), ofNat_eq a (by omega), ofNat_eq b (by omega)]
  | [a] => by
    have ha := a.toNat_lt
    rw [letters, bytes, digit_letter (by omega), digit_letter (by omega)]
    simp only [Option.bind_eq_bind, Option.bind_some]
    rw [if_pos (by omega), ofNat_eq a (by omega)]
  | [] => rfl

theorem decode_encode (raw : List UInt8) : decode (encode raw) = some raw := by
  rw [decode, encode, String.toList_ofList, bytes_letters]

theorem encode_injective {a b : List UInt8} (h : encode a = encode b) : a = b :=
  Option.some.inj ((decode_encode a).symm.trans ((congrArg decode h).trans (decode_encode b)))

theorem dot_notMem_letters : ∀ raw : List UInt8, '.' ∉ letters raw
  | a :: b :: c :: rest => by
    rw [letters]
    simp only [List.mem_cons, not_or]
    exact ⟨(letter_ne_dot _).symm, (letter_ne_dot _).symm, (letter_ne_dot _).symm,
      (letter_ne_dot _).symm, dot_notMem_letters rest⟩
  | [a, b] => by
    rw [letters]
    simp only [List.mem_cons, not_or, List.not_mem_nil, not_false_eq_true, and_true]
    exact ⟨(letter_ne_dot _).symm, (letter_ne_dot _).symm, (letter_ne_dot _).symm⟩
  | [a] => by
    rw [letters]
    simp only [List.mem_cons, not_or, List.not_mem_nil, not_false_eq_true, and_true]
    exact ⟨(letter_ne_dot _).symm, (letter_ne_dot _).symm⟩
  | [] => List.not_mem_nil

/-- No letter is the separator of a compact form. -/
theorem dot_notMem (raw : List UInt8) : '.' ∉ (encode raw).toList := by
  rw [encode, String.toList_ofList]
  exact dot_notMem_letters raw

example : encode [1, 2, 3, 4, 5] = "AQIDBAU" := by decide +kernel

end FolderClient.Library.Base64Url
