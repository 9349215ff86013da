import Mathlib.Data.List.DropRight
import Mathlib.Data.List.Sort
import Mathlib.Order.Lex
import FolderClient.Crypto.Jws
import FolderClient.Library.Doubles
import FolderClient.Library.JsonText

namespace FolderClient.Crypto.Jcs

open FolderClient.Library FolderClient.Library.Json FolderClient.Library.JsonText
open FolderClient.Crypto.Jws

/-- Up to here whole numbers differ from their neighbours as doubles. -/
def maxExactInteger : ℕ := 2 ^ 53

def fixedPointTop : ℤ := 21

def fixedPointBottom : ℤ := -6

section Numbers

/-- The digits of an exponential form with so many of them, rounded exactly, and the exponent. -/
def exponentialForm (b k : ℕ) : List Char × ℤ :=
  let m := (Doubles.roundEven (Doubles.value b / Doubles.quantum b k)).toNat
  if m < 10 ^ k then (Nat.toDigits 10 m, Doubles.decade b)
  else (Nat.toDigits 10 (m / 10), Doubles.decade b + 1)

def trimEnd (digits : List Char) : List Char := digits.rdropWhile (· = '0')

def zeroes (count : ℤ) : List Char := List.replicate count.toNat '0'

/-- The digits stand for `0.digits * 10^n`. -/
def ecmaText (digits : List Char) (n : ℤ) : List Char :=
  let k : ℤ := digits.length
  if k ≤ n ∧ n ≤ fixedPointTop then digits ++ zeroes (n - k)
  else if 0 < n ∧ n ≤ fixedPointTop then digits.take n.toNat ++ '.' :: digits.drop n.toNat
  else if fixedPointBottom < n ∧ n ≤ 0 then '0' :: '.' :: (zeroes (-n) ++ digits)
  else
    let e := n - 1
    let sign := if 0 ≤ e then '+' else '-'
    let first := digits.take 1
    let rest := digits.drop 1
    if rest = [] then first ++ 'e' :: sign :: Nat.toDigits 10 e.natAbs
    else first ++ '.' :: rest ++ 'e' :: sign :: Nat.toDigits 10 e.natAbs

/-- A double without its sign. -/
def magnitude (bits : UInt64) : ℕ := bits.toNat % 2 ^ 63

def isNegative (bits : UInt64) : Bool := 2 ^ 63 ≤ bits.toNat

/-- The double of a sign and a magnitude. -/
def double (negative : Bool) (b : ℕ) : UInt64 :=
  UInt64.ofNat (if negative then 2 ^ 63 + b else b)

def positive (b : ℕ) : List Char :=
  let form := exponentialForm b (Doubles.shortest b)
  ecmaText (trimEnd form.1) (form.2 + 1)

def number (bits : UInt64) : Except CryptoError (List Char) :=
  let b := magnitude bits
  if Doubles.infinity < b then .error (.jcsNumber "NaN" "JSON does not know NaN")
  else if b = Doubles.infinity then
    .error (.jcsNumber (if isNegative bits then "-inf" else "inf") "JSON does not know infinity")
  else if b = 0 then .ok ['0']
  else .ok (signText (isNegative bits) ++ positive b)

def wholeText (i : ℤ) : List Char := signText (i < 0) ++ Nat.toDigits 10 i.natAbs

def wholeNumber (i : ℤ) : Except CryptoError (List Char) :=
  if i.natAbs ≤ maxExactInteger then .ok (wholeText i)
  else .error (.jcsNumber (String.ofList (wholeText i))
    "a whole number beyond 2^53 is no longer unambiguous as an IEEE 754 double")

def numberFromJson : Number → Except CryptoError (List Char)
  | .posInt n => wholeNumber n.toNat
  | .negInt n => wholeNumber n.toInt
  | .float bits => number bits

end Numbers

section Writing

def escaped (c : Char) : List Char :=
  if c = '"' then ['\\', '"']
  else if c = '\\' then ['\\', '\\']
  else if c = '\x08' then ['\\', 'b']
  else if c = '\x0c' then ['\\', 'f']
  else if c = '\n' then ['\\', 'n']
  else if c = '\r' then ['\\', 'r']
  else if c = '\t' then ['\\', 't']
  else if c.toNat < 0x20 then
    ['\\', 'u', '0', '0', Nat.digitChar (c.toNat / 16), Nat.digitChar (c.toNat % 16)]
  else [c]

def quoted (s : String) : List Char := '"' :: (s.toList.flatMap escaped ++ ['"'])

def encodeUtf16 (c : Char) : List ℕ :=
  if c.toNat < 0x10000 then [c.toNat]
  else [0xD800 + (c.toNat - 0x10000) / 0x400, 0xDC00 + (c.toNat - 0x10000) % 0x400]

def utf16 (s : String) : List ℕ := s.toList.flatMap encodeUtf16

/-- Names ascend by their UTF-16 code units. -/
def Before {α : Type} (a b : String × α) : Prop := utf16 a.1 ≤ utf16 b.1

instance {α : Type} : DecidableRel (@Before α) := fun a b ↦
  inferInstanceAs (Decidable (utf16 a.1 ≤ utf16 b.1))

def sortByName {α : Type} (members : List (String × α)) : List (String × α) :=
  members.insertionSort Before

/-- The texts with a comma before each but the first. -/
def separated : Bool → List (List Char) → List Char
  | _, [] => []
  | first, text :: texts => (if first then [] else [',']) ++ text ++ separated false texts

def memberText (name : String) (text : List Char) : List Char := quoted name ++ ':' :: text

mutual

def write : Value → Except CryptoError (List Char)
  | .null => .ok ['n', 'u', 'l', 'l']
  | .bool true => .ok ['t', 'r', 'u', 'e']
  | .bool false => .ok ['f', 'a', 'l', 's', 'e']
  | .number n => numberFromJson n
  | .string s => .ok (quoted s)
  | .array l => do
    let texts ← (writeElements l).mapM id
    return '[' :: (separated true texts ++ [']'])
  | .object m => do
    let texts ← (sortByName (writeMembers m)).mapM fun p ↦ p.2.map (memberText p.1)
    return '{' :: (separated true texts ++ ['}'])

def writeElements : List Value → List (Except CryptoError (List Char))
  | [] => []
  | v :: l => write v :: writeElements l

def writeMembers : List (String × Value) → List (String × Except CryptoError (List Char))
  | [] => []
  | (name, v) :: m => (name, write v) :: writeMembers m

end

def canonicalize (v : Value) : Except CryptoError String := (write v).map String.ofList

end Writing

section Reading

/-- So many containers a text is read into, less one. -/
def recursionLimit : ℕ := 128

/-- What is read into a text, up to the numbers: the texts of one value within the limit are read as
it, and nothing beyond the limit is read. -/
structure Deserializer where
  parse : String → Except String Tree
  reads : ∀ {t text}, SpellsText t text →
    (parse text).toOption = if t.fits recursionLimit then some t else none
  within : ∀ {t text}, parse text = .ok t → t.fits recursionLimit = true

/-- The largest exponent that is read; beyond it only the sign and zero count. -/
def maxExponent : ℕ := 2 ^ 31 - 1

def nearestOf (n : NumberToken) : Option ℕ :=
  match n.exponent with
  | some (negative, digits) =>
    if maxExponent < naturalOf digits then
      if n.significand = 0 ∨ negative then some 0 else none
    else Doubles.nearest n.absolute
  | none => Doubles.nearest n.absolute

def floatOf (n : NumberToken) : Option Number :=
  (nearestOf n).map fun b ↦ .float (double n.negative b)

/-- Whole numbers of 64 bits are read as they are, all others as the nearest double. -/
def parseNumber (n : NumberToken) : Option Number :=
  if n.fraction ≠ [] ∨ n.exponent ≠ none then floatOf n
  else if n.negative then
    if 0 < n.significand ∧ n.significand ≤ 2 ^ 63 then
      some (.negInt (Int64.ofInt (-n.significand)))
    else floatOf n
  else if n.significand < 2 ^ 64 then some (.posInt (UInt64.ofNat n.significand))
  else floatOf n

mutual

/-- Two members of one name are an error, whatever they say. -/
def strictValue : Tree → Except CryptoError Value
  | .null => .ok .null
  | .bool b => .ok (.bool b)
  | .number n =>
    match parseNumber n with
    | some n => .ok (.number n)
    | none => .error (.jsonUnreadable "number out of range")
  | .string s => .ok (.string s)
  | .array ts => (strictElements ts).map .array
  | .object ms => (strictMembers [] ms).map .object

def strictElements : List Tree → Except CryptoError (List Value)
  | [] => .ok []
  | t :: ts => do
    let v ← strictValue t
    let l ← strictElements ts
    return v :: l

def strictMembers : List String → List (String × Tree) → Except CryptoError Members
  | _, [] => .ok []
  | names, (name, t) :: ms =>
    if name ∈ names then
      .error (.jsonUnreadable ("the name \"" ++ name ++ "\" stands twice in the same object"))
    else do
      let v ← strictValue t
      let m ← strictMembers (name :: names) ms
      return (name, v) :: m

end

variable (d : Deserializer)

def read (text : String) : Except CryptoError Value :=
  match d.parse text with
  | .ok t => strictValue t
  | .error e => .error (.jsonUnreadable e)

def canonicalizeText (text : String) : Except CryptoError String := do
  canonicalize (← read d text)

/-- The reader of this development. -/
def Deserializer.standard : Deserializer where
  parse text :=
    match readText recursionLimit text with
    | some t => .ok t
    | none => .error "the text is no JSON, or goes too deep"
  reads h := by
    rw [readText_eq h]
    split
    · rename_i heq
      rw [heq]
      rfl
    · rename_i heq
      rw [heq]
      rfl
  within h := by
    split at h
    · rename_i heq
      obtain rfl := Except.ok.inj h
      exact fits_of_readText heq
    · cases h

end Reading

end FolderClient.Crypto.Jcs
