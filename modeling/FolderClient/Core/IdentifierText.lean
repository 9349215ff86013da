import FolderClient.Core.Namespace
import FolderClient.Library.Texts
import Mathlib.Data.List.GetD

namespace FolderClient.Core.IdentifierText

open FolderClient.Core.Namespace FolderClient.Library.Texts

/-- The Crockford alphabet without `I`, `L`, `O`, `U`. -/
def alphabet : List Char := "0123456789ABCDEFGHJKMNPQRSTVWXYZ".toList

/-- The number of characters of the identifier part. -/
def length : ℕ := 26

inductive IdentifierError
  | wrongPrefix (text : String) (expected : String)
  | length (text : String) (read : ℕ)
  | character (text : String) (character : Char) (place : ℕ)
  | overflow (text : String) (character : Char)
deriving DecidableEq

def IdentifierError.display : IdentifierError → String
  | .wrongPrefix text expected =>
    "identifier `" ++ text ++ "` does not carry the prefix `" ++ expected ++ "_` (03 §6.0.3)"
  | .length text read =>
    s!"identifier `{text}` has {read} instead of {IdentifierText.length} characters after the prefix"
  | .character text c place =>
    s!"identifier `{text}` carries `{c}` at position {place}; only 0-9 and A-Z without I, " ++
      "L, O, U are allowed, in upper case (03 §6.0.3)"
  | .overflow text c =>
    s!"identifier `{text}` starts with `{c}`; above `7` the 128-bit value overflows"

def wirePrefix : IdKind → String
  | .device => "dev"
  | .user => "usr"
  | .upload => "upl"
  | .document => "doc"
  | .archive => "arc"
  | .case => "cas"
  | .basket => "bsk"
  | .search => "srch"
  | .command => "cmd"

/-- Reads digit after digit into a value of 128 bits. -/
def decodeFrom (whole : String) : ℕ → ℕ → List Char → Except IdentifierError ℕ
  | _, value, [] => .ok value
  | i, value, character :: rest =>
    match alphabet.idxOf? character with
    | none => .error (.character whole character (i + 1))
    | some index =>
      if i = 0 ∧ 7 < index then .error (.overflow whole character)
      else decodeFrom whole (i + 1) ((value * 32 + index) % 2 ^ 128) rest

def decode (whole : String) (part : List Char) : Except IdentifierError ℕ :=
  if part.length ≠ length ∨ (part.map Char.utf8Size).sum ≠ length then
    .error (.length whole part.length)
  else decodeFrom whole 0 0 part

def parse (kind : IdKind) (text : String) : Except IdentifierError (Identifier kind) :=
  match (strip (wirePrefix kind).toList text.toList).bind (strip ['_']) with
  | none => .error (.wrongPrefix text (wirePrefix kind))
  | some part => (decode text part).map fun value ↦ ⟨Fin.ofNat _ value⟩

/-- The digits of an identifier, the most significant first. -/
def digits : ℕ → ℕ → List Char
  | 0, _ => []
  | n + 1, value => digits n (value / 32) ++ [alphabet.getD (value % 32) '0']

def identifierPart {kind : IdKind} (i : Identifier kind) : List Char := digits length i.value

def display (kind : IdKind) (i : Identifier kind) : String :=
  wirePrefix kind ++ "_" ++ String.ofList (identifierPart i)

theorem length_digits (n value : ℕ) : (digits n value).length = n := by
  induction n generalizing value with
  | zero => rfl
  | succ n ih => simp [digits, ih]

theorem mem_digits {n value : ℕ} {c : Char} (h : c ∈ digits n value) : c ∈ alphabet := by
  induction n generalizing value with
  | zero => cases h
  | succ n ih =>
    obtain h | h := List.mem_append.mp h
    · exact ih h
    · have hlt : value % 32 < alphabet.length := Nat.mod_lt _ (by decide)
      rw [List.mem_singleton.mp h, List.getD_eq_getElem _ _ hlt]
      exact List.getElem_mem hlt

theorem alphabet_getD_inj {a b : ℕ} (ha : a < 32) (hb : b < 32)
    (h : alphabet.getD a '0' = alphabet.getD b '0') : a = b := by
  have hall : ∀ a b : Fin 32, alphabet.getD a '0' = alphabet.getD b '0' → a = b := by decide
  exact Fin.mk.inj (hall ⟨a, ha⟩ ⟨b, hb⟩ h)

theorem digits_inj {n v v' : ℕ} (hv : v < 32 ^ n) (hv' : v' < 32 ^ n)
    (h : digits n v = digits n v') : v = v' := by
  induction n generalizing v v' with
  | zero => omega
  | succ n ih =>
    obtain ⟨hd, hl⟩ := List.append_inj' h rfl
    have hdiv : v / 32 = v' / 32 := by
      refine ih ?_ ?_ hd <;> exact Nat.div_lt_of_lt_mul (by rw [← Nat.pow_succ']; assumption)
    have hmod : v % 32 = v' % 32 :=
      alphabet_getD_inj (Nat.mod_lt _ (by decide)) (Nat.mod_lt _ (by decide)) (List.cons.inj hl).1
    omega

theorem identifierPart_inj {kind : IdKind} {i i' : Identifier kind}
    (h : identifierPart i = identifierPart i') : i = i' := by
  have hlt : ∀ v : Fin (2 ^ 128), (v : ℕ) < 32 ^ length := fun v ↦ v.isLt.trans (by decide)
  exact Identifier.ext (Fin.ext (digits_inj (hlt _) (hlt _) h))

/-- The last eight characters, in which identifiers of one morning differ. -/
def shortForm {kind : IdKind} (i : Identifier kind) : String :=
  String.ofList ((identifierPart i).drop (length - 8))

/-- Encodes bytes without padding, the most significant bit first; the buffer has 32 bits. -/
def encodeBytesFrom : ℕ → ℕ → List UInt8 → List Char
  | buffer, bits, [] =>
    if 0 < bits then [alphabet.getD (buffer * 2 ^ (5 - bits) % 2 ^ 32 % 32) '0'] else []
  | buffer, bits, b :: rest =>
    let buffer := (buffer * 256 + b.toNat) % 2 ^ 32
    let whole := (bits + 8) / 5
    let left := (bits + 8) % 5
    (List.range whole).map (fun i ↦ alphabet.getD (buffer / 2 ^ (bits + 8 - 5 * (i + 1)) % 32) '0') ++
      encodeBytesFrom buffer left rest

def encodeBytes (bytes : List UInt8) : String := String.ofList (encodeBytesFrom 0 0 bytes)

inductive EntryIdentifierError
  | shape (text : String)
  | identifier (error : IdentifierError)
deriving DecidableEq

def carriesPrefix (kind : IdKind) (text : String) : Bool :=
  (strip (wirePrefix kind).toList text.toList).any (·.head? = some '_')

def part (kind : IdKind) (text : String) : Except EntryIdentifierError (Identifier kind) :=
  (parse kind text).mapError .identifier

def containerFromText (text : String) : Except EntryIdentifierError Container :=
  match splitOnce '/' text with
  | some (archive, case) =>
    if carriesPrefix .archive archive ∧ carriesPrefix .case case ∧ '/' ∉ case.toList then do
      return .case (← part .archive archive) (← part .case case)
    else .error (.shape text)
  | none =>
    if text = "root" then .ok .root
    else if text = "baskets" then .ok .baskets
    else if text = "archives" then .ok .archives
    else if text = "searches" then .ok .searches
    else if carriesPrefix .basket text then (part .basket text).map .basket
    else if carriesPrefix .archive text then (part .archive text).map .archive
    else if carriesPrefix .search text then (part .search text).map .search
    else .error (.shape text)

end FolderClient.Core.IdentifierText
