import FolderClient.Library.Results
import FolderClient.Library.Texts
import FolderClient.Library.Toml

namespace FolderClient.I18n.Reader

open FolderClient.Library FolderClient.Library.JsonText FolderClient.Library.Results
open FolderClient.Library.Texts FolderClient.Library.Toml

/-- Why a catalogue could not be read, with the number of the line. -/
structure ReaderError where
  line : ℕ
  reason : String

def fault (line : ℕ) (reason : String) : ReaderError := ⟨line, reason⟩

section Escapes

/-- A number with hexadecimal digits, behind a plus sign or without one. -/
def fromStrRadix (text : List Char) : Option ℕ :=
  let digits := if text.head? = some '+' then text.tail else text
  if digits = [] then none
  else digits.foldlM (fun value c ↦ (hexDigit c).map (value * 16 + ·)) 0

def fromU32 (value : ℕ) : Option Char := if value.isValidChar then some (Char.ofNat value) else none

/-- One escape after the backslash, and what is left. -/
def escape : List Char → Except String (Char × List Char)
  | '"' :: rest => .ok ('"', rest)
  | '\\' :: rest => .ok ('\\', rest)
  | 'n' :: rest => .ok ('\n', rest)
  | 'r' :: rest => .ok ('\r', rest)
  | 't' :: rest => .ok ('\t', rest)
  | 'u' :: rest =>
    let digits := rest.take 4
    match fromStrRadix digits with
    | none => .error ("`\\u" ++ String.ofList digits ++ "` is not four hex digits")
    | some value =>
      match fromU32 value with
      | none => .error ("`\\u" ++ String.ofList digits ++ "` is not a character")
      | some c => .ok (c, rest.drop 4)
  | other :: _ => .error ("`\\" ++ String.ofList [other] ++ "` is not one of the escapes")
  | [] => .error "a backslash at the end of the text"

theorem escape_shorter {rest left : List Char} {c : Char} (h : escape rest = .ok (c, left)) :
    left.length < rest.length := by
  unfold escape at h
  split at h
  case h_6 rest =>
    dsimp only at h
    split at h
    · cases h
    · split at h
      · cases h
      · cases h
        rw [List.length_drop, List.length_cons]
        omega
  case h_7 => cases h
  case h_8 => cases h
  all_goals
    cases h
    exact Nat.lt_succ_self _

/-- Reads up to the closing quotation mark. -/
def scan (text : List Char) : Except String (List Char × List Char) :=
  match text with
  | [] => .error "the string is not closed"
  | c :: rest =>
    if c = '"' then .ok ([], rest)
    else if c = '\\' then
      match _h : escape rest with
      | .error reason => .error reason
      | .ok (c, left) => (scan left).map fun (out, tail) ↦ (c :: out, tail)
    else (scan rest).map fun (out, tail) ↦ (c :: out, tail)
termination_by text.length
decreasing_by
  · exact (escape_shorter _h).trans (Nat.lt_succ_self _)
  · exact Nat.lt_succ_self _

/-- The escapes of a basic string, applied to a whole text. -/
def unescape (text : List Char) : Except String (List Char) :=
  match text with
  | [] => .ok []
  | c :: rest =>
    if c = '\\' then
      match _h : escape rest with
      | .error reason => .error reason
      | .ok (c, left) => (unescape left).map (c :: ·)
    else (unescape rest).map (c :: ·)
termination_by text.length
decreasing_by
  · exact (escape_shorter _h).trans (Nat.lt_succ_self _)
  · exact Nat.lt_succ_self _

end Escapes

section Lines

/-- What is wrong with a part of a key. -/
def partReason (text part : List Char) : Option String :=
  if part = [] then
    some ("`" ++ String.ofList text ++ "` has an empty part between two dots")
  else if part.all fun c ↦ c.isAlphanum || c = '_' || c = '-' then none
  else some ("`" ++ String.ofList text ++ "` is not a bare key (only letters, digits, `_` and `-`)")

/-- A bare key or a dotted key. -/
def checkKey (text : List Char) (line : ℕ) : Except ReaderError (List Char) :=
  if text = [] then .error (fault line "a key without a name")
  else
    match (text.splitOn '.').findSome? (partReason text) with
    | some reason => .error (fault line reason)
    | none => .ok text

/-- What may stand after a value: nothing, or a comment. -/
def checkTail (rest : List Char) (line : ℕ) : Except ReaderError Unit :=
  let tail := trim rest
  if tail ≠ [] ∧ tail.head? ≠ some '#' then
    .error (fault line ("`" ++ String.ofList tail ++ "` stands after the value"))
  else .ok ()

/-- A string in quotation marks, followed by nothing but white space and a comment. -/
def singleLine (text : List Char) (line : ℕ) : Except ReaderError (List Char) :=
  match Texts.strip ['"'] text with
  | none => .error (fault line "the value has to be a string in double quotes")
  | some body => do
    let (out, rest) ← (scan body).mapError (fault line)
    checkTail rest line
    return out

/-- What is left behind all the delimiters a text begins with. -/
def trimStartTriples : List Char → List Char
  | '"' :: '"' :: '"' :: rest => trimStartTriples rest
  | text => text

/-- The lines of a string up to its end, the number of the last one, and the lines after it. -/
def multiLineFrom (line : ℕ) :
    ℕ → List Char → List (List Char) → Except ReaderError (List Char × ℕ × List (List Char))
  | _, _, [] => .error (fault line "the multi-line string is not closed with `\"\"\"`")
  | number, text, row :: rows =>
    match Texts.splitAt triple row with
    | some (before, rest) => do
      checkTail rest (number + 1)
      let value ← (unescape (text ++ before)).mapError (fault line)
      return (value, number, rows)
    | none => multiLineFrom line (number + 1) (text ++ row ++ ['\n']) rows

/-- A string over several lines. -/
def multiLine (rows : List (List Char)) (first : ℕ) (head : List Char) (line : ℕ) :
    Except ReaderError (List Char × ℕ × List (List Char)) :=
  let after := trim (trimStartTriples head)
  if after ≠ [] ∧ after.head? ≠ some '#' then
    .error (fault line "after `\"\"\"` the line has to end")
  else multiLineFrom line (first + 1) [] rows

theorem multiLineFrom_shorter {line number : ℕ} {text value : List Char} {last : ℕ}
    {rows left : List (List Char)} (h : multiLineFrom line number text rows = .ok (value, last, left)) :
    left.length < rows.length := by
  induction rows generalizing number text with
  | nil => cases h
  | cons row rows ih =>
    rw [multiLineFrom] at h
    split at h
    · obtain ⟨-, -, h⟩ := bind_eq_ok.mp h
      obtain ⟨value, -, h⟩ := bind_eq_ok.mp h
      cases h
      exact Nat.lt_succ_self _
    · exact (ih h).trans (Nat.lt_succ_self _)

end Lines

/-- What the loop carries from line to line: the number of lines read, the prefix of the keys, and
the keys with their values. -/
structure Cursor where
  number : ℕ
  table : List Char
  out : List (String × String)

/-- A value, with the number of lines read and the lines that follow. -/
def readValue (rest : List Char) (rows : List (List Char)) (start : ℕ) :
    Except ReaderError (List Char × ℕ × List (List Char)) :=
  if triple.isPrefixOf (rest.dropWhile isWhitespace) then do
    let (text, last, rows) ← multiLine rows (start - 1) (rest.dropWhile isWhitespace) start
    return (text, last + 1, rows)
  else (singleLine (trim rest) start).map fun value ↦ (value, start, rows)

/-- One turn of the loop over the lines. -/
def turn (c : Cursor) (row : List Char) (rows : List (List Char)) :
    Except ReaderError (Cursor × List (List Char)) :=
  let start := c.number + 1
  let trimmed := trim row
  if trimmed = [] ∨ trimmed.head? = some '#' then .ok ({ c with number := start }, rows)
  else
    match Texts.strip ['['] trimmed with
    | some rest =>
      if rest.getLast? = some ']' then do
        let table ← checkKey rest.dropLast start
        return ({ c with number := start, table := table }, rows)
      else .error (fault start
        "a table header has to end with `]` and nothing else may follow it")
    | none =>
      match Texts.splitAt ['='] trimmed with
      | none => .error (fault start "neither a table header nor `key = \"value\"`")
      | some (rawKey, rest) => do
        let key ← checkKey (trim rawKey) start
        let full := String.ofList (if c.table = [] then key else c.table ++ '.' :: key)
        let (value, number, rows) ← readValue rest rows start
        if c.out.any (·.1 = full) then
          throw (fault start ("the key `" ++ full ++ "` stands twice"))
        return (⟨number, c.table, c.out ++ [(full, String.ofList value)]⟩, rows)

theorem readValue_le {rest value : List Char} {rows left : List (List Char)} {start number : ℕ}
    (h : readValue rest rows start = .ok (value, number, left)) : left.length ≤ rows.length := by
  unfold readValue at h
  split at h
  · obtain ⟨⟨text, last, after⟩, hlines, h⟩ := bind_eq_ok.mp h
    cases h
    unfold multiLine at hlines
    simp only [ite_error_eq_ok] at hlines
    exact (multiLineFrom_shorter hlines.2).le
  · obtain ⟨value', -, h⟩ := map_eq_ok.mp h
    cases h
    exact le_rfl

theorem turn_le {c c' : Cursor} {row : List Char} {rows left : List (List Char)}
    (h : turn c row rows = .ok (c', left)) : left.length ≤ rows.length := by
  unfold turn at h
  dsimp only at h
  split at h
  · cases h
    exact le_rfl
  · split at h
    · split at h
      · obtain ⟨table, -, h⟩ := bind_eq_ok.mp h
        cases h
        exact le_rfl
      · cases h
    · split at h
      · cases h
      · obtain ⟨key, -, h⟩ := bind_eq_ok.mp h
        obtain ⟨⟨value, number, after⟩, hvalue, h⟩ := bind_eq_ok.mp h
        simp only [ite_throw_eq_ok] at h
        obtain ⟨-, h⟩ := h
        cases h
        exact readValue_le hvalue

def readFrom (c : Cursor) (rows : List (List Char)) : Except ReaderError (List (String × String)) :=
  match rows with
  | [] => .ok c.out
  | row :: rows =>
    match _h : turn c row rows with
    | .error e => .error e
    | .ok (c, left) => readFrom c left
termination_by rows.length
decreasing_by exact Nat.lt_succ_of_le (turn_le _h)

/-- Reads a catalogue into its keys and values. -/
def read (source : String) : Except ReaderError (List (String × String)) :=
  readFrom ⟨0, [], []⟩ ((lines source.toList).map withoutReturn)

example : (read "[menu]\nopen = \"Open\"\nfolder.finder = \"Finder\"\n").toOption =
    some [("menu.open", "Open"), ("menu.folder.finder", "Finder")] := by decide +kernel

example : (read "body = \"\"\"\nfirst\nsecond\n\"\"\"\n").toOption =
    some [("body", "first\nsecond\n")] := by decide +kernel

end FolderClient.I18n.Reader
