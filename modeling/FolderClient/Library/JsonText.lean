import Mathlib.Algebra.Order.Field.Rat
import Mathlib.Data.List.Basic
import Mathlib.Tactic.Common

namespace FolderClient.Library.JsonText

/-- A number as it is written; one without a fraction has no digits there. -/
structure NumberToken where
  negative : Bool
  whole : List Char
  fraction : List Char
  exponent : Option (Bool × List Char)
deriving DecidableEq

def naturalOf (digits : List Char) : ℕ := Nat.ofDigitChars 10 digits 0

namespace NumberToken

variable (n : NumberToken)

def significand : ℕ := naturalOf (n.whole ++ n.fraction)

def power : ℤ :=
  (match n.exponent with
    | none => 0
    | some (true, digits) => -naturalOf digits
    | some (false, digits) => naturalOf digits) - n.fraction.length

/-- What the number stands for, without its sign. -/
def absolute : ℚ := n.significand * 10 ^ n.power

end NumberToken

/-- What a JSON text says: the members stand as they come, also those of one name. -/
inductive Tree
  | null
  | bool (b : Bool)
  | number (n : NumberToken)
  | string (s : String)
  | array (elements : List Tree)
  | object (members : List (String × Tree))

section Grammar

def isBlank (c : Char) : Bool := c = ' ' || c = '\n' || c = '\t' || c = '\r'

def Blank (l : List Char) : Prop := ∀ c ∈ l, isBlank c = true

def Digits (l : List Char) : Prop := l ≠ [] ∧ ∀ c ∈ l, c.isDigit = true

def signText (negative : Bool) : List Char := if negative then ['-'] else []

def fractionText (digits : List Char) : List Char := if digits = [] then [] else '.' :: digits

def SpellsExponent : Option (Bool × List Char) → List Char → Prop
  | none, l => l = []
  | some (negative, digits), l => Digits digits ∧ ∃ e sign, (e = 'e' ∨ e = 'E') ∧
      (sign = [if negative then '-' else '+'] ∨ negative = false ∧ sign = []) ∧
      l = e :: (sign ++ digits)

def SpellsNumber (n : NumberToken) (l : List Char) : Prop :=
  Digits n.whole ∧ (n.whole.head? = some '0' → n.whole = ['0']) ∧
    (∀ c ∈ n.fraction, c.isDigit = true) ∧
    ∃ e, SpellsExponent n.exponent e ∧
      l = signText n.negative ++ n.whole ++ fractionText n.fraction ++ e

/-- The characters with an escape of their own. -/
def escapes : List (Char × Char) :=
  [('"', '"'), ('\\', '\\'), ('/', '/'), ('b', '\x08'), ('f', '\x0c'), ('n', '\n'), ('r', '\r'),
    ('t', '\t')]

def hexDigit (c : Char) : Option ℕ :=
  if '0' ≤ c ∧ c ≤ '9' then some (c.toNat - '0'.toNat)
  else if 'a' ≤ c ∧ c ≤ 'f' then some (c.toNat - 'a'.toNat + 10)
  else if 'A' ≤ c ∧ c ≤ 'F' then some (c.toNat - 'A'.toNat + 10)
  else none

/-- What four hexadecimal digits stand for. -/
def codeUnit : List Char → Option ℕ
  | [a, b, c, d] => do
    return (((← hexDigit a) * 16 + (← hexDigit b)) * 16 + (← hexDigit c)) * 16 + (← hexDigit d)
  | _ => none

def IsLead (u : ℕ) : Prop := 0xD800 ≤ u ∧ u < 0xDC00

def IsTrail (u : ℕ) : Prop := 0xDC00 ≤ u ∧ u < 0xE000

instance (u : ℕ) : Decidable (IsLead u) := inferInstanceAs (Decidable (_ ∧ _))

instance (u : ℕ) : Decidable (IsTrail u) := inferInstanceAs (Decidable (_ ∧ _))

/-- The character of a surrogate pair. -/
def paired (lead trail : ℕ) : ℕ := 0x10000 + (lead - 0xD800) * 0x400 + (trail - 0xDC00)

/-- A character stands for itself, has its own escape, or is escaped by its code units. -/
inductive SpellsCharacter (c : Char) : List Char → Prop
  | itself (h : ' ' ≤ c) (hq : c ≠ '"') (hb : c ≠ '\\') : SpellsCharacter c [c]
  | short (e : Char) (h : (e, c) ∈ escapes) : SpellsCharacter c ['\\', e]
  | unit (x : List Char) (h : codeUnit x = some c.toNat) : SpellsCharacter c ('\\' :: 'u' :: x)
  | pair (x y : List Char) (lead trail : ℕ) (hx : codeUnit x = some lead)
      (hy : codeUnit y = some trail) (hl : IsLead lead) (ht : IsTrail trail)
      (h : c.toNat = paired lead trail) :
      SpellsCharacter c ('\\' :: 'u' :: x ++ '\\' :: 'u' :: y)

def SpellsCharacters : List Char → List Char → Prop
  | [], l => l = []
  | c :: s, l => ∃ x rest, SpellsCharacter c x ∧ SpellsCharacters s rest ∧ l = x ++ rest

def SpellsString (s : String) (l : List Char) : Prop :=
  ∃ x, SpellsCharacters s.toList x ∧ l = '"' :: (x ++ ['"'])

/-- What stands before an element: a comma, but for the first one. -/
def Separates (first : Bool) (l : List Char) : Prop :=
  if first then Blank l else ∃ b c, Blank b ∧ Blank c ∧ l = b ++ ',' :: c

mutual

def Spells : Tree → List Char → Prop
  | .null, l => l = ['n', 'u', 'l', 'l']
  | .bool true, l => l = ['t', 'r', 'u', 'e']
  | .bool false, l => l = ['f', 'a', 'l', 's', 'e']
  | .number n, l => SpellsNumber n l
  | .string s, l => SpellsString s l
  | .array ts, l => ∃ x, SpellsElements true ts x ∧ l = '[' :: x
  | .object ms, l => ∃ x, SpellsMembers true ms x ∧ l = '{' :: x

def SpellsElements : Bool → List Tree → List Char → Prop
  | _, [], l => ∃ b, Blank b ∧ l = b ++ [']']
  | first, t :: ts, l => ∃ s x rest, Separates first s ∧ Spells t x ∧
      SpellsElements false ts rest ∧ l = s ++ x ++ rest

def SpellsMembers : Bool → List (String × Tree) → List Char → Prop
  | _, [], l => ∃ b, Blank b ∧ l = b ++ ['}']
  | first, (name, t) :: ms, l => ∃ s n b c x rest, Separates first s ∧ SpellsString name n ∧
      Blank b ∧ Blank c ∧ Spells t x ∧ SpellsMembers false ms rest ∧
      l = s ++ n ++ b ++ ':' :: c ++ x ++ rest

end

/-- A whole text with one value in it. -/
def SpellsText (t : Tree) (text : String) : Prop :=
  ∃ b x c, Blank b ∧ Blank c ∧ Spells t x ∧ text.toList = b ++ x ++ c

end Grammar

section Reader

def skip (l : List Char) : List Char := l.dropWhile isBlank

def readDigits (l : List Char) : List Char × List Char :=
  (l.takeWhile Char.isDigit, l.dropWhile Char.isDigit)

def readSign : List Char → Bool × List Char
  | '-' :: l => (true, l)
  | '+' :: l => (false, l)
  | l => (false, l)

def readFraction : List Char → Option (List Char × List Char)
  | '.' :: l => if (readDigits l).1 = [] then none else some (readDigits l)
  | l => some ([], l)

def readExponent : List Char → Option (Option (Bool × List Char) × List Char)
  | [] => some (none, [])
  | c :: l =>
    if c = 'e' ∨ c = 'E' then
      let digits := readDigits (readSign l).2
      if digits.1 = [] then none else some (some ((readSign l).1, digits.1), digits.2)
    else some (none, c :: l)

def readMinus : List Char → Bool × List Char
  | '-' :: l => (true, l)
  | l => (false, l)

def readNumber (l : List Char) : Option (NumberToken × List Char) := do
  let whole := readDigits (readMinus l).2
  if whole.1 = [] ∨ whole.1.head? = some '0' ∧ whole.1 ≠ ['0'] then none
  else
    let fraction ← readFraction whole.2
    let exponent ← readExponent fraction.2
    some (⟨(readMinus l).1, whole.1, fraction.1, exponent.1⟩, exponent.2)

def readUnit : List Char → Option (ℕ × List Char)
  | a :: b :: c :: d :: l => (codeUnit [a, b, c, d]).map (·, l)
  | _ => none

/-- The second half of a surrogate pair. -/
def readTrail (lead : ℕ) : List Char → Option (Char × List Char)
  | '\\' :: 'u' :: l => do
    let trail ← readUnit l
    if IsTrail trail.1 then some (Char.ofNat (paired lead trail.1), trail.2) else none
  | _ => none

def readCharacter : List Char → Option (Char × List Char)
  | '\\' :: 'u' :: l => do
    let unit ← readUnit l
    if IsTrail unit.1 then none
    else if IsLead unit.1 then readTrail unit.1 unit.2
    else some (Char.ofNat unit.1, unit.2)
  | '\\' :: e :: l => (escapes.lookup e).map (·, l)
  | c :: l => if ' ' ≤ c ∧ c ≠ '\\' then some (c, l) else none
  | [] => none

def readCharacters : ℕ → List Char → Option (List Char × List Char)
  | 0, _ => none
  | _ + 1, '"' :: l => some ([], l)
  | fuel + 1, l => do
    let character ← readCharacter l
    let others ← readCharacters fuel character.2
    some (character.1 :: others.1, others.2)

def readString : List Char → Option (String × List Char)
  | '"' :: l => (readCharacters (l.length + 1) l).map fun r ↦ (String.ofList r.1, r.2)
  | _ => none

def readSeparator : Bool → List Char → Option (List Char)
  | true, l => some l
  | false, ',' :: l => some (skip l)
  | false, _ => none

def readColon (l : List Char) : Option (List Char) :=
  match skip l with
  | ':' :: l => some (skip l)
  | _ => none

mutual

/-- Reads a value from its first character on; into so many containers it may still go, less
one. -/
def readValue : ℕ → ℕ → List Char → Option (Tree × List Char)
  | 0, _, _ => none
  | fuel + 1, depth, l =>
    match l with
    | 'n' :: 'u' :: 'l' :: 'l' :: l => some (.null, l)
    | 't' :: 'r' :: 'u' :: 'e' :: l => some (.bool true, l)
    | 'f' :: 'a' :: 'l' :: 's' :: 'e' :: l => some (.bool false, l)
    | '"' :: _ => (readString l).map fun r ↦ (.string r.1, r.2)
    | '[' :: l =>
      if 2 ≤ depth then
        (readElements fuel (depth - 1) true l).map fun r ↦ (.array r.1, r.2)
      else none
    | '{' :: l =>
      if 2 ≤ depth then
        (readMembers fuel (depth - 1) true l).map fun r ↦ (.object r.1, r.2)
      else none
    | l => (readNumber l).map fun r ↦ (.number r.1, r.2)

def readElements : ℕ → ℕ → Bool → List Char → Option (List Tree × List Char)
  | 0, _, _, _ => none
  | fuel + 1, depth, first, l =>
    match skip l with
    | ']' :: l => some ([], l)
    | l => do
      let l ← readSeparator first l
      let element ← readValue fuel depth l
      let others ← readElements fuel depth false element.2
      some (element.1 :: others.1, others.2)

def readMembers : ℕ → ℕ → Bool → List Char → Option (List (String × Tree) × List Char)
  | 0, _, _, _ => none
  | fuel + 1, depth, first, l =>
    match skip l with
    | '}' :: l => some ([], l)
    | l => do
      let l ← readSeparator first l
      let name ← readString l
      let l ← readColon name.2
      let element ← readValue fuel depth l
      let others ← readMembers fuel depth false element.2
      some ((name.1, element.1) :: others.1, others.2)

end

/-- Reads a text with one value in it. -/
def readText (depth : ℕ) (text : String) : Option Tree :=
  match readValue (text.toList.length + 1) depth (skip text.toList) with
  | some (t, l) => if skip l = [] then some t else none
  | none => none

end Reader

section Unfolding

variable {fuel depth : ℕ} {first : Bool} {l : List Char}

theorem readValue_succ : readValue (fuel + 1) depth l =
    match l with
    | 'n' :: 'u' :: 'l' :: 'l' :: l => some (.null, l)
    | 't' :: 'r' :: 'u' :: 'e' :: l => some (.bool true, l)
    | 'f' :: 'a' :: 'l' :: 's' :: 'e' :: l => some (.bool false, l)
    | '"' :: _ => (readString l).map fun r ↦ (.string r.1, r.2)
    | '[' :: l =>
      if 2 ≤ depth then
        (readElements fuel (depth - 1) true l).map fun r ↦ (.array r.1, r.2)
      else none
    | '{' :: l =>
      if 2 ≤ depth then
        (readMembers fuel (depth - 1) true l).map fun r ↦ (.object r.1, r.2)
      else none
    | l => (readNumber l).map fun r ↦ (.number r.1, r.2) := rfl

theorem readValue_array : readValue (fuel + 1) depth ('[' :: l) =
    if 2 ≤ depth then
      (readElements fuel (depth - 1) true l).map fun r ↦ (.array r.1, r.2)
    else none := rfl

theorem readValue_object : readValue (fuel + 1) depth ('{' :: l) =
    if 2 ≤ depth then
      (readMembers fuel (depth - 1) true l).map fun r ↦ (.object r.1, r.2)
    else none := rfl

theorem readElements_succ : readElements (fuel + 1) depth first l =
    match skip l with
    | ']' :: l => some ([], l)
    | l => (do
      let l ← readSeparator first l
      let element ← readValue fuel depth l
      let others ← readElements fuel depth false element.2
      some (element.1 :: others.1, others.2)) := rfl

theorem readMembers_succ : readMembers (fuel + 1) depth first l =
    match skip l with
    | '}' :: l => some ([], l)
    | l => (do
      let l ← readSeparator first l
      let name ← readString l
      let l ← readColon name.2
      let element ← readValue fuel depth l
      let others ← readMembers fuel depth false element.2
      some ((name.1, element.1) :: others.1, others.2)) := rfl

end Unfolding

section Pieces

variable {l rest x : List Char}

/-- What may stand behind a number. -/
def Ends (l : List Char) : Prop :=
  ∀ c ∈ l.head?, c.isDigit = false ∧ c ≠ '.' ∧ c ≠ 'e' ∧ c ≠ 'E'

theorem blank_nil : Blank [] := fun _ h ↦ absurd h List.not_mem_nil

theorem skip_append {b : List Char} (h : Blank b) (l : List Char) : skip (b ++ l) = skip l :=
  List.dropWhile_append_of_pos h

theorem skip_cons {c : Char} (h : isBlank c = false) (l : List Char) : skip (c :: l) = c :: l :=
  List.dropWhile_cons_of_neg (by rw [h]; exact Bool.false_ne_true)

theorem ends_blank {b : List Char} (hb : Blank b) (h : Ends l) : Ends (b ++ l) := by
  cases b with
  | nil => exact h
  | cons c b =>
    rintro _ ⟨⟩
    have hc := hb c (List.mem_cons_self ..)
    simp only [isBlank, Bool.or_eq_true, decide_eq_true_eq] at hc
    obtain ((rfl | rfl) | rfl) | rfl := hc <;> decide

theorem readDigits_append {d : List Char} (hd : ∀ c ∈ d, c.isDigit = true)
    (hr : ∀ c ∈ rest.head?, c.isDigit = false) : readDigits (d ++ rest) = (d, rest) := by
  have htake : rest.takeWhile Char.isDigit = [] := by
    cases rest with
    | nil => rfl
    | cons c rest => exact List.takeWhile_cons_of_neg (by simp [hr c rfl])
  have hdrop : rest.dropWhile Char.isDigit = rest := by
    cases rest with
    | nil => rfl
    | cons c rest => exact List.dropWhile_cons_of_neg (by simp [hr c rfl])
  rw [readDigits, List.takeWhile_append_of_pos hd, List.dropWhile_append_of_pos hd, htake, hdrop,
    List.append_nil]

theorem readSign_digits {d : List Char} (hd : Digits d) (l : List Char) :
    readSign (d ++ l) = (false, d ++ l) := by
  obtain ⟨hne, hd⟩ := hd
  obtain ⟨c, d, rfl⟩ := List.exists_cons_of_ne_nil hne
  have hc := hd c (List.mem_cons_self ..)
  rw [List.cons_append, readSign]
  · intro _ heq
    rw [(List.cons.inj heq).1] at hc
    exact absurd hc (by decide)
  · intro _ heq
    rw [(List.cons.inj heq).1] at hc
    exact absurd hc (by decide)

theorem readExponent_append {e : Option (Bool × List Char)} (h : SpellsExponent e x)
    (hr : Ends rest) : readExponent (x ++ rest) = some (e, rest) := by
  cases e with
  | none =>
    obtain rfl : x = [] := h
    cases rest with
    | nil => rfl
    | cons c rest =>
      obtain ⟨-, -, he, hE⟩ := hr c rfl
      rw [List.nil_append, readExponent, if_neg (not_or.mpr ⟨he, hE⟩)]
  | some e =>
    obtain ⟨negative, d⟩ := e
    obtain ⟨hd, e, sign, he, hsign, rfl⟩ := h
    have hread : readSign (sign ++ (d ++ rest)) = (negative, d ++ rest) := by
      obtain rfl | ⟨rfl, rfl⟩ := hsign
      · cases negative <;> rfl
      · exact readSign_digits hd rest
    have hdigits := readDigits_append hd.2 fun c hc ↦ (hr c hc).1
    rw [List.cons_append, readExponent, if_pos he, List.append_assoc, hread]
    simp only [hdigits, if_neg hd.1]

theorem head_exponent {e : Option (Bool × List Char)} (h : SpellsExponent e x) (hr : Ends rest) :
    ∀ c ∈ (x ++ rest).head?, c.isDigit = false ∧ c ≠ '.' := by
  cases e with
  | none =>
    obtain rfl : x = [] := h
    exact fun c hc ↦ ⟨(hr c hc).1, (hr c hc).2.1⟩
  | some e =>
    obtain ⟨-, e, sign, he, -, rfl⟩ := h
    rintro _ ⟨⟩
    obtain rfl | rfl := he <;> decide

theorem readNumber_append {n : NumberToken} (h : SpellsNumber n x) (hr : Ends rest) :
    readNumber (x ++ rest) = some (n, rest) := by
  obtain ⟨⟨hne, hwhole⟩, hzero, hfraction, e, he, rfl⟩ := h
  have hhead := head_exponent he hr
  have hminus : readMinus (signText n.negative ++ (n.whole ++ (fractionText n.fraction ++
      (e ++ rest)))) = (n.negative, n.whole ++ (fractionText n.fraction ++ (e ++ rest))) := by
    cases hn : n.negative with
    | true => rfl
    | false =>
      obtain ⟨c, d, hcd⟩ := List.exists_cons_of_ne_nil hne
      have hc := hwhole c (hcd ▸ List.mem_cons_self ..)
      rw [hcd, signText, if_neg Bool.false_ne_true, List.nil_append, List.cons_append, readMinus]
      intro _ heq
      rw [(List.cons.inj heq).1] at hc
      exact absurd hc (by decide)
  have hpoint : readFraction (fractionText n.fraction ++ (e ++ rest)) =
      some (n.fraction, e ++ rest) := by
    rw [fractionText]
    split
    · rename_i hnil
      rw [hnil, List.nil_append, readFraction.eq_2]
      intro l hl
      exact (hhead '.' (by rw [hl]; rfl)).2 rfl
    · rename_i hnil
      rw [List.cons_append, readFraction,
        readDigits_append hfraction fun c hc ↦ (hhead c hc).1, if_neg hnil]
  have hdigits : readDigits (n.whole ++ (fractionText n.fraction ++ (e ++ rest))) =
      (n.whole, fractionText n.fraction ++ (e ++ rest)) := by
    refine readDigits_append hwhole fun c hc ↦ ?_
    rw [fractionText] at hc
    split at hc
    · exact (hhead c hc).1
    · obtain rfl : '.' = c := Option.some.inj hc
      decide
  have hvalid : ¬ (n.whole = [] ∨ n.whole.head? = some '0' ∧ n.whole ≠ ['0']) :=
    not_or.mpr ⟨hne, fun ⟨hz, hz'⟩ ↦ hz' (hzero hz)⟩
  simp only [readNumber, List.append_assoc, hminus, hdigits, if_neg hvalid, hpoint,
    Option.bind_eq_bind, Option.bind_some, readExponent_append he hr]

theorem readUnit_append {u : ℕ} (h : codeUnit x = some u) (l : List Char) :
    readUnit (x ++ l) = some (u, l) := by
  rw [codeUnit.eq_def] at h
  split at h
  · rename_i a b c d
    change (codeUnit [a, b, c, d]).map (·, l) = some (u, l)
    rw [codeUnit, h]
    rfl
  · cases h

theorem not_surrogate (c : Char) : ¬ IsLead c.toNat ∧ ¬ IsTrail c.toNat := by
  rw [IsLead, IsTrail]
  have h := c.valid
  rw [UInt32.isValidChar, Nat.isValidChar] at h
  have hc : c.toNat = c.val.toNat := rfl
  omega

theorem readCharacter_append {c : Char} (h : SpellsCharacter c x) (l : List Char) :
    readCharacter (x ++ l) = some (c, l) := by
  cases h with
  | itself h hq hb =>
    rw [List.singleton_append, readCharacter, if_pos ⟨h, hb⟩]
    · rintro _ rfl
      exact absurd rfl hb
    · rintro _ _ rfl
      exact absurd rfl hb
  | short e h =>
    simp only [escapes, List.mem_cons, Prod.mk.injEq, List.not_mem_nil, or_false] at h
    obtain ⟨rfl, rfl⟩ | ⟨rfl, rfl⟩ | ⟨rfl, rfl⟩ | ⟨rfl, rfl⟩ | ⟨rfl, rfl⟩ | ⟨rfl, rfl⟩ |
      ⟨rfl, rfl⟩ | ⟨rfl, rfl⟩ := h <;> rfl
  | unit x h =>
    obtain ⟨hl, ht⟩ := not_surrogate c
    rw [List.cons_append, List.cons_append, readCharacter, readUnit_append h]
    simp only [Option.bind_eq_bind, Option.bind_some, if_neg ht, if_neg hl, Char.ofNat_toNat]
  | pair x y lead trail hx hy hl ht h =>
    have hnot : ¬ IsTrail lead := by
      rw [IsLead, IsTrail] at *
      omega
    rw [List.append_assoc, List.cons_append, List.cons_append, readCharacter, readUnit_append hx]
    simp only [Option.bind_eq_bind, Option.bind_some, if_neg hnot, if_pos hl, List.cons_append,
      readTrail, readUnit_append hy, if_pos ht, ← h, Char.ofNat_toNat]

theorem SpellsCharacter.head {c : Char} (h : SpellsCharacter c x) :
    ∃ d x', x = d :: x' ∧ d ≠ '"' := by
  cases h with
  | itself _ hq _ => exact ⟨c, [], rfl, hq⟩
  | short e _ => exact ⟨_, _, rfl, by decide⟩
  | unit x _ => exact ⟨_, _, rfl, by decide⟩
  | pair => exact ⟨_, _, rfl, by decide⟩

theorem readCharacters_append {s : List Char} (h : SpellsCharacters s x) {fuel : ℕ}
    (hf : x.length < fuel) (l : List Char) :
    readCharacters fuel (x ++ '"' :: l) = some (s, l) := by
  induction s generalizing x fuel with
  | nil =>
    obtain rfl : x = [] := h
    obtain ⟨fuel, rfl⟩ := Nat.exists_eq_succ_of_ne_zero (Nat.ne_zero_of_lt hf)
    rfl
  | cons c s ih =>
    obtain ⟨x, rest, hc, hs, rfl⟩ := h
    obtain ⟨fuel, rfl⟩ := Nat.exists_eq_succ_of_ne_zero (Nat.ne_zero_of_lt hf)
    have hread := readCharacter_append hc (rest ++ '"' :: l)
    obtain ⟨d, x, rfl, hd⟩ := hc.head
    simp only [List.cons_append, List.length_cons, List.length_append] at hf hread ⊢
    have hothers := ih hs (show rest.length < fuel by omega)
    rw [List.append_assoc, readCharacters.eq_3 _ _ (by rintro _ ⟨⟩; exact hd rfl), hread]
    simp only [Option.bind_eq_bind, Option.bind_some, hothers]

theorem readString_append {s : String} (h : SpellsString s x) (l : List Char) :
    readString (x ++ l) = some (s, l) := by
  obtain ⟨x, hs, rfl⟩ := h
  have hread := readCharacters_append hs
    (show x.length < (x ++ '"' :: l).length + 1 by simp only [List.length_append]; omega) l
  rw [List.cons_append, List.append_assoc, List.singleton_append, readString, hread]
  simp only [Option.map_some, String.ofList_toList]

end Pieces

section Values

variable {rest x : List Char} {fuel depth : ℕ} {first : Bool}

mutual

/-- Every value lies in fewer containers than these. -/
def Tree.fits : ℕ → Tree → Bool
  | depth, .array ts => decide (2 ≤ depth) && fitsElements (depth - 1) ts
  | depth, .object ms => decide (2 ≤ depth) && fitsMembers (depth - 1) ms
  | _, .null => true
  | _, .bool _ => true
  | _, .number _ => true
  | _, .string _ => true

def fitsElements : ℕ → List Tree → Bool
  | _, [] => true
  | depth, t :: ts => t.fits depth && fitsElements depth ts

def fitsMembers : ℕ → List (String × Tree) → Bool
  | _, [] => true
  | depth, (_, t) :: ms => t.fits depth && fitsMembers depth ms

end

theorem Tree.fits_array (ts : List Tree) :
    (Tree.array ts).fits depth = (decide (2 ≤ depth) && fitsElements (depth - 1) ts) := rfl

theorem Tree.fits_object (ms : List (String × Tree)) :
    (Tree.object ms).fits depth = (decide (2 ≤ depth) && fitsMembers (depth - 1) ms) := rfl

theorem fitsElements_cons (t : Tree) (ts : List Tree) :
    fitsElements depth (t :: ts) = (t.fits depth && fitsElements depth ts) := rfl

theorem fitsMembers_cons (m : String × Tree) (ms : List (String × Tree)) :
    fitsMembers depth (m :: ms) = (m.2.fits depth && fitsMembers depth ms) := rfl

theorem fitsElements_iff {ts : List Tree} :
    fitsElements depth ts = true ↔ ∀ t ∈ ts, t.fits depth = true := by
  induction ts with
  | nil => exact iff_of_true rfl fun _ h ↦ absurd h List.not_mem_nil
  | cons t ts ih => rw [fitsElements_cons, Bool.and_eq_true, ih, List.forall_mem_cons]

theorem fitsMembers_iff {ms : List (String × Tree)} :
    fitsMembers depth ms = true ↔ ∀ m ∈ ms, m.2.fits depth = true := by
  induction ms with
  | nil => exact iff_of_true rfl fun _ h ↦ absurd h List.not_mem_nil
  | cons m ms ih => rw [fitsMembers_cons, Bool.and_eq_true, ih, List.forall_mem_cons]

mutual

/-- In no object of the value a name stands twice. -/
def Tree.Unique : Tree → Prop
  | .array ts => UniqueElements ts
  | .object ms => (ms.map Prod.fst).Nodup ∧ UniqueMembers ms
  | .null => True
  | .bool _ => True
  | .number _ => True
  | .string _ => True

def UniqueElements : List Tree → Prop
  | [] => True
  | t :: ts => t.Unique ∧ UniqueElements ts

def UniqueMembers : List (String × Tree) → Prop
  | [] => True
  | (_, t) :: ms => t.Unique ∧ UniqueMembers ms

end

theorem Tree.unique_array {ts : List Tree} : (Tree.array ts).Unique ↔ ∀ t ∈ ts, t.Unique := by
  change UniqueElements ts ↔ _
  induction ts with
  | nil => exact iff_of_true trivial fun _ h ↦ absurd h List.not_mem_nil
  | cons t ts ih =>
    rw [List.forall_mem_cons, ← ih]
    rfl

theorem Tree.unique_object {ms : List (String × Tree)} :
    (Tree.object ms).Unique ↔ (ms.map Prod.fst).Nodup ∧ ∀ m ∈ ms, m.2.Unique := by
  have hall : UniqueMembers ms ↔ ∀ m ∈ ms, m.2.Unique := by
    induction ms with
    | nil => exact iff_of_true trivial fun _ h ↦ absurd h List.not_mem_nil
    | cons m ms ih =>
      rw [List.forall_mem_cons, ← ih]
      rfl
  rw [← hall]
  rfl

section Induction

variable {P : Tree → Prop} (null : P .null) (bool : ∀ b, P (.bool b)) (number : ∀ n, P (.number n))
  (string : ∀ s, P (.string s)) (array : ∀ ts, (∀ t ∈ ts, P t) → P (.array ts))
  (object : ∀ ms, (∀ m ∈ ms, P m.2) → P (.object ms))

include null bool number string array object

set_option linter.unusedSectionVars false

mutual

theorem Tree.induction_on : ∀ t, P t
  | .null => null
  | .bool b => bool b
  | .number n => number n
  | .string s => string s
  | .array ts => array ts (Tree.induction_elements ts)
  | .object ms => object ms (Tree.induction_members ms)

theorem Tree.induction_elements : ∀ ts : List Tree, ∀ t ∈ ts, P t
  | [] => fun _ h ↦ absurd h List.not_mem_nil
  | t :: ts => List.forall_mem_cons.mpr ⟨Tree.induction_on t, Tree.induction_elements ts⟩

theorem Tree.induction_members : ∀ ms : List (String × Tree), ∀ m ∈ ms, P m.2
  | [] => fun _ h ↦ absurd h List.not_mem_nil
  | (_, t) :: ms => List.forall_mem_cons.mpr ⟨Tree.induction_on t, Tree.induction_members ms⟩

end

end Induction

theorem SpellsNumber.head {n : NumberToken} (h : SpellsNumber n x) :
    ∃ c x', x = c :: x' ∧ (c = '-' ∨ c.isDigit = true) := by
  obtain ⟨⟨hne, hwhole⟩, -, -, e, -, rfl⟩ := h
  obtain ⟨c, d, hcd⟩ := List.exists_cons_of_ne_nil hne
  cases hn : n.negative with
  | true => exact ⟨_, _, rfl, .inl rfl⟩
  | false =>
    refine ⟨c, d ++ fractionText n.fraction ++ e, ?_, .inr (hwhole c (hcd ▸ List.mem_cons_self ..))⟩
    simp [signText, hcd]

theorem Spells.head {t : Tree} (h : Spells t x) :
    ∃ c x', x = c :: x' ∧ isBlank c = false ∧ c ≠ ']' ∧ c ≠ '}' := by
  cases t with
  | null => exact ⟨_, _, h, by decide⟩
  | bool b => cases b <;> exact ⟨_, _, h, by decide⟩
  | number n =>
    obtain ⟨c, x', rfl, hc⟩ := SpellsNumber.head h
    refine ⟨c, x', rfl, ?_⟩
    obtain rfl | hc := hc
    · decide
    · have hne : ∀ d : Char, d.isDigit = false → c ≠ d := by
        rintro d hd rfl
        exact Bool.false_ne_true (hd.symm.trans hc)
      simp [isBlank, hne]
  | string s =>
    obtain ⟨_, -, rfl⟩ := h
    exact ⟨_, _, rfl, by decide⟩
  | array ts =>
    obtain ⟨_, -, rfl⟩ := h
    exact ⟨_, _, rfl, by decide⟩
  | object ms =>
    obtain ⟨_, -, rfl⟩ := h
    exact ⟨_, _, rfl, by decide⟩

theorem ends_cons {c : Char} (h : c.isDigit = false ∧ c ≠ '.' ∧ c ≠ 'e' ∧ c ≠ 'E')
    (l : List Char) : Ends (c :: l) := by
  rintro _ ⟨⟩
  exact h

theorem ends_separator {s : List Char} (h : Separates false s) (l : List Char) :
    Ends (s ++ l) := by
  obtain ⟨b, c, hb, -, rfl⟩ := h
  rw [List.append_assoc]
  exact ends_blank hb (ends_cons (by decide) _)

theorem ends_elements {ts : List Tree} (h : SpellsElements false ts x) (l : List Char) :
    Ends (x ++ l) := by
  cases ts with
  | nil =>
    obtain ⟨b, hb, rfl⟩ := h
    rw [List.append_assoc]
    exact ends_blank hb (ends_cons (by decide) _)
  | cons t ts =>
    obtain ⟨s, y, z, hs, -, -, rfl⟩ := h
    rw [List.append_assoc, List.append_assoc]
    exact ends_separator hs _

theorem ends_members {ms : List (String × Tree)} (h : SpellsMembers false ms x) (l : List Char) :
    Ends (x ++ l) := by
  cases ms with
  | nil =>
    obtain ⟨b, hb, rfl⟩ := h
    rw [List.append_assoc]
    exact ends_blank hb (ends_cons (by decide) _)
  | cons m ms =>
    obtain ⟨s, n, b, c, y, z, hs, -, -, -, -, -, rfl⟩ := h
    simp only [List.append_assoc]
    exact ends_separator hs _

/-- Behind what separates it, an element is reached at its first character. -/
theorem readSeparator_append {s l : List Char} {d : Char} (h : Separates first s)
    (hd : isBlank d = false) :
    readSeparator first (skip (s ++ d :: l)) = some (d :: l) ∧
      ∀ e, e ≠ d → e ≠ ',' → (skip (s ++ d :: l)).head? ≠ some e := by
  cases first with
  | true =>
    rw [skip_append h, skip_cons hd]
    exact ⟨rfl, fun e he _ heq ↦ he (Option.some.inj heq).symm⟩
  | false =>
    obtain ⟨b, c, hb, hc, rfl⟩ := h
    rw [List.append_assoc, skip_append hb, List.cons_append, skip_cons (by decide), readSeparator,
      skip_append hc, skip_cons hd]
    exact ⟨rfl, fun e _ he heq ↦ he (Option.some.inj heq).symm⟩

theorem readColon_append {b c l : List Char} {d : Char} (hb : Blank b) (hc : Blank c)
    (hd : isBlank d = false) : readColon (b ++ ':' :: (c ++ d :: l)) = some (d :: l) := by
  rw [readColon, skip_append hb, skip_cons (by decide)]
  simp only [skip_append hc, skip_cons hd]

theorem readElements_element {l : List Char} (h : (skip l).head? ≠ some ']') :
    readElements (fuel + 1) depth first l = (do
      let l ← readSeparator first (skip l)
      let element ← readValue fuel depth l
      let others ← readElements fuel depth false element.2
      some (element.1 :: others.1, others.2)) := by
  rw [readElements_succ]
  split
  · rename_i heq
    exact absurd (by rw [heq]; rfl) h
  · rfl

theorem readMembers_member {l : List Char} (h : (skip l).head? ≠ some '}') :
    readMembers (fuel + 1) depth first l = (do
      let l ← readSeparator first (skip l)
      let name ← readString l
      let l ← readColon name.2
      let element ← readValue fuel depth l
      let others ← readMembers fuel depth false element.2
      some ((name.1, element.1) :: others.1, others.2)) := by
  rw [readMembers_succ]
  split
  · rename_i heq
    exact absurd (by rw [heq]; rfl) h
  · rfl

theorem readValue_number {c : Char} {l : List Char} (h : c = '-' ∨ c.isDigit = true) :
    readValue (fuel + 1) depth (c :: l) =
      (readNumber (c :: l)).map fun r ↦ (.number r.1, r.2) := by
  have hne : ∀ d : Char, d ≠ '-' → d.isDigit = false → c ≠ d := by
    rintro d hd hd' rfl
    exact h.elim hd fun hc ↦ Bool.false_ne_true (hd'.symm.trans hc)
  rw [readValue_succ]
  split
  all_goals first
    | rfl
    | rename_i heq
      exact absurd (List.cons.inj heq).1 (hne _ (by decide) (by decide))

/-- Every text of the value is read as it, wherever it stands. -/
def Readable (t : Tree) : Prop :=
  ∀ ⦃x rest : List Char⦄ ⦃fuel : ℕ⦄ (depth : ℕ), Spells t x → Ends rest → x.length < fuel →
    readValue fuel depth (x ++ rest) = if t.fits depth then some (t, rest) else none

theorem readElements_append {ts : List Tree} (h : ∀ t ∈ ts, Readable t)
    (hx : SpellsElements first ts x) (hf : x.length < fuel) (rest : List Char) :
    readElements fuel depth first (x ++ rest) =
      if fitsElements depth ts then some (ts, rest) else none := by
  obtain ⟨fuel, rfl⟩ := Nat.exists_eq_succ_of_ne_zero (Nat.ne_zero_of_lt hf)
  induction ts generalizing first x fuel with
  | nil =>
    obtain ⟨b, hb, rfl⟩ := hx
    rw [readElements_succ, List.append_assoc, skip_append hb, List.singleton_append,
      skip_cons (by decide)]
    rfl
  | cons t ts ih =>
    obtain ⟨ht, hts⟩ := List.forall_mem_cons.mp h
    obtain ⟨s, y, z, hs, hy, hz, rfl⟩ := hx
    have hends := ends_elements hz rest
    have hlen : y.length < fuel ∧ z.length < fuel := by
      obtain ⟨d, y, rfl, -⟩ := hy.head
      have hpos : 0 < z.length := by
        cases z with
        | nil =>
          cases ts with
          | nil =>
            obtain ⟨b, -, hb⟩ := hz
            simp at hb
          | cons t ts =>
            obtain ⟨_, w, _, _, hw, _, heq⟩ := hz
            obtain ⟨d, w, rfl, -⟩ := hw.head
            simp at heq
        | cons => exact Nat.succ_pos _
      simp only [List.length_append, List.length_cons] at hf ⊢
      omega
    obtain ⟨fuel, rfl⟩ := Nat.exists_eq_succ_of_ne_zero (Nat.ne_zero_of_lt hlen.2)
    have hvalue := ht depth hy hends hlen.1
    have hothers := ih hts hz fuel hlen.2
    obtain ⟨d, y, rfl, hd, hb, -⟩ := hy.head
    obtain ⟨hsep, hhead⟩ := @readSeparator_append _ s (y ++ (z ++ rest)) d hs hd
    simp only [List.append_assoc, List.cons_append] at hvalue ⊢
    rw [readElements_element (hhead ']' hb.symm (by decide)), hsep]
    simp only [Option.bind_eq_bind, Option.bind_some, hvalue, fitsElements_cons, Bool.and_eq_true]
    cases hfit : t.fits depth with
    | false => simp
    | true =>
      simp only [if_true, Option.bind_some, hothers, true_and]
      split <;> rfl

theorem readMembers_append {ms : List (String × Tree)} (h : ∀ m ∈ ms, Readable m.2)
    (hx : SpellsMembers first ms x) (hf : x.length < fuel) (rest : List Char) :
    readMembers fuel depth first (x ++ rest) =
      if fitsMembers depth ms then some (ms, rest) else none := by
  obtain ⟨fuel, rfl⟩ := Nat.exists_eq_succ_of_ne_zero (Nat.ne_zero_of_lt hf)
  induction ms generalizing first x fuel with
  | nil =>
    obtain ⟨b, hb, rfl⟩ := hx
    rw [readMembers_succ, List.append_assoc, skip_append hb, List.singleton_append,
      skip_cons (by decide)]
    rfl
  | cons m ms ih =>
    obtain ⟨name, t⟩ := m
    obtain ⟨ht, hms⟩ := List.forall_mem_cons.mp h
    obtain ⟨s, n, b, c, y, z, hs, hn, hb, hc, hy, hz, rfl⟩ := hx
    have hends := ends_members hz rest
    have hlen : y.length < fuel ∧ z.length < fuel := by
      simp only [List.length_append, List.length_cons] at hf
      omega
    obtain ⟨fuel, rfl⟩ := Nat.exists_eq_succ_of_ne_zero (Nat.ne_zero_of_lt hlen.1)
    have hvalue := ht depth hy hends hlen.1
    have hothers := ih hms hz fuel hlen.2
    obtain ⟨d, y, rfl, hd, -⟩ := hy.head
    have hname := readString_append hn (b ++ ':' :: (c ++ d :: (y ++ (z ++ rest))))
    obtain ⟨n, hn, rfl⟩ := hn
    obtain ⟨hsep, hhead⟩ := @readSeparator_append _ s
      (n ++ '"' :: (b ++ ':' :: (c ++ d :: (y ++ (z ++ rest))))) '"' hs (by decide)
    have hcolon := @readColon_append b c (y ++ (z ++ rest)) d hb hc hd
    simp only [List.append_assoc, List.cons_append, List.nil_append] at hvalue hname ⊢
    rw [readMembers_member (hhead '}' (by decide) (by decide)), hsep]
    simp only [Option.bind_eq_bind, Option.bind_some, hname, hcolon, hvalue, fitsMembers_cons,
      Bool.and_eq_true]
    cases hfit : t.fits depth with
    | false => simp
    | true =>
      simp only [if_true, Option.bind_some, hothers, true_and]
      split <;> rfl

theorem readable (t : Tree) : Readable t := by
  induction t using Tree.induction_on with
  | null =>
    rintro x rest fuel depth rfl - hf
    obtain ⟨fuel, rfl⟩ := Nat.exists_eq_succ_of_ne_zero (Nat.ne_zero_of_lt hf)
    rfl
  | bool b =>
    rintro x rest fuel depth hx - hf
    obtain ⟨fuel, rfl⟩ := Nat.exists_eq_succ_of_ne_zero (Nat.ne_zero_of_lt hf)
    cases b <;> obtain rfl := hx <;> rfl
  | number n =>
    intro x rest fuel depth hx hr hf
    obtain ⟨fuel, rfl⟩ := Nat.exists_eq_succ_of_ne_zero (Nat.ne_zero_of_lt hf)
    have hread := readNumber_append hx hr
    obtain ⟨c, x, rfl, hc⟩ := SpellsNumber.head hx
    rw [List.cons_append] at hread ⊢
    rw [readValue_number hc, hread]
    rfl
  | string s =>
    intro x rest fuel depth hx _ hf
    obtain ⟨fuel, rfl⟩ := Nat.exists_eq_succ_of_ne_zero (Nat.ne_zero_of_lt hf)
    have hread := readString_append hx rest
    obtain ⟨x, -, rfl⟩ := hx
    rw [List.cons_append] at hread ⊢
    rw [readValue_succ, hread]
    rfl
  | array ts ih =>
    rintro _ rest fuel depth ⟨x, hx, rfl⟩ - hf
    obtain ⟨fuel, rfl⟩ := Nat.exists_eq_succ_of_ne_zero (Nat.ne_zero_of_lt hf)
    have hread := @readElements_append x fuel (depth - 1) true ts ih hx (Nat.lt_of_succ_lt_succ hf)
      rest
    rw [List.cons_append, readValue_array, hread, Tree.fits_array]
    by_cases hd : 2 ≤ depth
    · rw [if_pos hd, decide_eq_true hd, Bool.true_and]
      split <;> rfl
    · rw [if_neg hd, decide_eq_false hd]
      rfl
  | object ms ih =>
    rintro _ rest fuel depth ⟨x, hx, rfl⟩ - hf
    obtain ⟨fuel, rfl⟩ := Nat.exists_eq_succ_of_ne_zero (Nat.ne_zero_of_lt hf)
    have hread := @readMembers_append x fuel (depth - 1) true ms ih hx (Nat.lt_of_succ_lt_succ hf)
      rest
    rw [List.cons_append, readValue_object, hread, Tree.fits_object]
    by_cases hd : 2 ≤ depth
    · rw [if_pos hd, decide_eq_true hd, Bool.true_and]
      split <;> rfl
    · rw [if_neg hd, decide_eq_false hd]
      rfl

/-- The text of a value is read as it, unless it goes too deep. -/
theorem readText_eq {t : Tree} {text : String} (h : SpellsText t text) (depth : ℕ) :
    readText depth text = if t.fits depth then some t else none := by
  obtain ⟨b, x, c, hb, hc, hx, htext⟩ := h
  have hends : Ends c := by
    rw [← List.append_nil c]
    exact ends_blank hc (by rintro _ ⟨⟩)
  have hread := readable t depth hx hends
    (show x.length < (b ++ x ++ c).length + 1 by simp only [List.length_append]; omega)
  have hskip : skip (b ++ x ++ c) = x ++ c := by
    obtain ⟨d, x, rfl, hd, -⟩ := hx.head
    rw [List.append_assoc, skip_append hb, List.cons_append, skip_cons hd]
  have hend : skip c = [] := by
    rw [← List.append_nil c, skip_append hc]
    rfl
  rw [readText, htext, hskip, hread]
  split
  · rename_i heq
    split at heq
    · obtain ⟨rfl, rfl⟩ := Prod.mk.inj (Option.some.inj heq)
      rw [if_pos hend]
      rename_i hfit
      rw [if_pos hfit]
    · cases heq
  · rename_i heq
    split at heq
    · cases heq
    · rename_i hfit
      rw [if_neg hfit]

/-- What is read does not go too deep. -/
theorem fits_of_read (fuel : ℕ) :
    (∀ depth l t r, readValue fuel depth l = some (t, r) → t.fits depth = true) ∧
      (∀ depth first l ts r, readElements fuel depth first l = some (ts, r) →
        fitsElements depth ts = true) ∧
      (∀ depth first l ms r, readMembers fuel depth first l = some (ms, r) →
        fitsMembers depth ms = true) := by
  induction fuel with
  | zero => exact ⟨nofun, nofun, nofun⟩
  | succ fuel ih =>
    obtain ⟨hvalue, helements, hmembers⟩ := ih
    refine ⟨fun depth l t r h ↦ ?_, fun depth first l ts r h ↦ ?_, fun depth first l ms r h ↦ ?_⟩
    · rw [readValue_succ] at h
      split at h
      · cases h
        rfl
      · cases h
        rfl
      · cases h
        rfl
      · obtain ⟨_, -, heq⟩ := Option.map_eq_some_iff.mp h
        cases heq
        rfl
      · split at h
        · rename_i hd
          obtain ⟨⟨ts, r'⟩, hts, heq⟩ := Option.map_eq_some_iff.mp h
          cases heq
          rw [Tree.fits_array, decide_eq_true hd, Bool.true_and]
          exact helements _ _ _ _ _ hts
        · cases h
      · split at h
        · rename_i hd
          obtain ⟨⟨ms, r'⟩, hms, heq⟩ := Option.map_eq_some_iff.mp h
          cases heq
          rw [Tree.fits_object, decide_eq_true hd, Bool.true_and]
          exact hmembers _ _ _ _ _ hms
        · cases h
      · obtain ⟨_, -, heq⟩ := Option.map_eq_some_iff.mp h
        cases heq
        rfl
    · rw [readElements_succ] at h
      split at h
      · cases h
        rfl
      · simp only [Option.bind_eq_bind, Option.bind_eq_some_iff] at h
        obtain ⟨l', -, ⟨t, r'⟩, ht, ⟨ts, r⟩, hts, heq⟩ := h
        cases heq
        rw [fitsElements_cons, hvalue _ _ _ _ ht, helements _ _ _ _ _ hts]
        rfl
    · rw [readMembers_succ] at h
      split at h
      · cases h
        rfl
      · simp only [Option.bind_eq_bind, Option.bind_eq_some_iff] at h
        obtain ⟨_, -, ⟨name, _⟩, -, l', -, ⟨t, r'⟩, ht, ⟨ms, r⟩, hms, heq⟩ := h
        cases heq
        rw [fitsMembers_cons, hvalue _ _ _ _ ht, hmembers _ _ _ _ _ hms]
        rfl

theorem fits_of_readText {text : String} {t : Tree} (h : readText depth text = some t) :
    t.fits depth = true := by
  rw [readText] at h
  split at h
  · rename_i heq
    split at h
    · obtain rfl := Option.some.inj h
      exact (fits_of_read _).1 _ _ _ _ heq
    · cases h
  · cases h

/-- No value goes deeper than some bound. -/
theorem exists_fits (t : Tree) : ∃ d, ∀ depth, d ≤ depth → t.fits depth = true := by
  have hall : ∀ {α : Type} (f : α → Tree) (l : List α),
      (∀ a ∈ l, ∃ d, ∀ depth, d ≤ depth → (f a).fits depth = true) →
        ∃ d, ∀ depth, d ≤ depth → ∀ a ∈ l, (f a).fits depth = true := by
    intro α f l h
    induction l with
    | nil => exact ⟨0, fun _ _ _ h ↦ absurd h List.not_mem_nil⟩
    | cons a l ih =>
      obtain ⟨ha, hl⟩ := List.forall_mem_cons.mp h
      obtain ⟨d, hd⟩ := ha
      obtain ⟨d', hd'⟩ := ih hl
      refine ⟨max d d', fun depth hle ↦ List.forall_mem_cons.mpr ?_⟩
      exact ⟨hd depth (by omega), hd' depth (by omega)⟩
  induction t using Tree.induction_on with
  | null => exact ⟨0, fun _ _ ↦ rfl⟩
  | bool b => exact ⟨0, fun _ _ ↦ rfl⟩
  | number n => exact ⟨0, fun _ _ ↦ rfl⟩
  | string s => exact ⟨0, fun _ _ ↦ rfl⟩
  | array ts ih =>
    obtain ⟨d, hd⟩ := hall id ts ih
    refine ⟨d + 2, fun depth hle ↦ ?_⟩
    rw [Tree.fits_array, decide_eq_true (by omega), Bool.true_and, fitsElements_iff]
    exact hd _ (by omega)
  | object ms ih =>
    obtain ⟨d, hd⟩ := hall Prod.snd ms ih
    refine ⟨d + 2, fun depth hle ↦ ?_⟩
    rw [Tree.fits_object, decide_eq_true (by omega), Bool.true_and, fitsMembers_iff]
    exact hd _ (by omega)

/-- A text says one thing only. -/
theorem SpellsText.unique {t t' : Tree} {text : String} (h : SpellsText t text)
    (h' : SpellsText t' text) : t = t' := by
  obtain ⟨d, hd⟩ := exists_fits t
  obtain ⟨d', hd'⟩ := exists_fits t'
  have hread := readText_eq h (max d d')
  rw [readText_eq h' (max d d'), if_pos (hd _ (Nat.le_max_left ..)),
    if_pos (hd' _ (Nat.le_max_right ..))] at hread
  exact (Option.some.inj hread).symm

end Values

end FolderClient.Library.JsonText
