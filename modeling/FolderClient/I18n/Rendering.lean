import FolderClient.I18n.Catalogues
import FolderClient.Library.Ordered
import Mathlib.Data.String.Basic

namespace FolderClient.I18n.Rendering

open FolderClient.Library FolderClient.Library.JsonText FolderClient.Library.Ordered
open FolderClient.Library.Texts
open FolderClient.I18n.Reader (ReaderError)

/-- Every sentence of one language. -/
structure Catalog where
  entry : OrderedMap String String

section Source

/-- Reads the catalogue of a language. -/
def Catalog.read (source : String) : Except ReaderError Catalog :=
  (Reader.read source).map fun out ↦ ⟨.ofList out⟩

def Catalog.text (catalog : Catalog) (key : String) : String := (catalog.entry.get? key).getD key

/-- A placeholder that nothing is handed in for stays standing. -/
def argument (arguments : List (String × String)) (name : List Char) : List Char :=
  match arguments.find? fun a ↦ a.1.toList = name with
  | some a => a.2.toList
  | none => '{' :: (name ++ ['}'])

theorem length_lt_of_split {opening closing : Char} {rest before after name left : List Char}
    (h : splitAt [opening] rest = some (before, after))
    (h' : splitAt [closing] after = some (name, left)) : left.length < rest.length := by
  rw [eq_of_splitAt h, eq_of_splitAt h']
  simp only [List.length_append, List.length_cons, List.length_nil]
  omega

def formatFrom (arguments : List (String × String)) (rest : List Char) : List Char :=
  match _h : splitAt ['{'] rest with
  | none => rest
  | some (before, after) =>
    match _h' : splitAt ['}'] after with
    | none => before ++ '{' :: after
    | some (name, left) => before ++ argument arguments name ++ formatFrom arguments left
termination_by rest.length
decreasing_by exact length_lt_of_split _h _h'

/-- The sentence for a key, with its placeholders filled in. -/
def Catalog.format (catalog : Catalog) (key : String) (arguments : List (String × String)) :
    String :=
  String.ofList (formatFrom arguments (catalog.text key).toList)

def hexDigitOf (n : ℕ) : Char := Nat.digitChar (n % 16)

/-- Four hex digits. -/
def hex4 (n : ℕ) : List Char :=
  [hexDigitOf (n / 4096), hexDigitOf (n / 256), hexDigitOf (n / 16), hexDigitOf n]

def escaped (c : Char) : List Char :=
  if c = '"' then ['\\', '"']
  else if c = '\\' then ['\\', '\\']
  else if c = '\n' then ['\\', 'n']
  else if c = '\r' then ['\\', 'r']
  else if c = '\t' then ['\\', 't']
  else if c = '<' then ['\\', 'u', '0', '0', '3', 'c']
  else if c = '\u2028' then ['\\', 'u', '2', '0', '2', '8']
  else if c = '\u2029' then ['\\', 'u', '2', '0', '2', '9']
  else if c.toNat < 0x20 then '\\' :: 'u' :: hex4 c.toNat
  else [c]

/-- One JSON string, escaped so that it survives both JSON and a script block. -/
def writeJsonString (text : String) : List Char := '"' :: (text.toList.flatMap escaped ++ ['"'])

def membersFrom : Bool → List (String × String) → List Char
  | _, [] => ['}']
  | first, e :: rest =>
    (if first then [] else [',']) ++ writeJsonString e.1 ++ ':' :: writeJsonString e.2 ++
      membersFrom false rest

/-- The whole catalogue as a JSON object, for the window's web view. -/
def Catalog.asJson (catalog : Catalog) : String :=
  String.ofList ('{' :: membersFrom true catalog.entry.bindings)

end Source

section Format

/-- Text between placeholders. -/
structure Plain where
  chars : List Char
  closed : '{' ∉ chars

/-- The name of a placeholder. -/
structure Name where
  chars : List Char
  whole : '}' ∉ chars

/-- What follows the last placeholder: a brace that is opened there is never closed. -/
structure Rest where
  plain : Plain
  opened : Option Name

def Rest.chars (r : Rest) : List Char :=
  match r.opened with
  | none => r.plain.chars
  | some name => r.plain.chars ++ '{' :: name.chars

/-- A sentence taken apart: text and placeholders in turn, and a rest. -/
structure Sentence where
  pieces : List (Plain × Name)
  rest : Rest

namespace Sentence

def spelled (s : Sentence) : List Char :=
  s.pieces.flatMap (fun p ↦ p.1.chars ++ '{' :: (p.2.chars ++ ['}'])) ++ s.rest.chars

/-- Each placeholder gives way to its argument, which is not looked through in its turn. -/
def filled (s : Sentence) (arguments : List (String × String)) : List Char :=
  s.pieces.flatMap (fun p ↦ p.1.chars ++ argument arguments p.2.chars) ++ s.rest.chars

variable (p : Plain × Name) (pieces : List (Plain × Name)) (rest : Rest)

theorem spelled_cons : (Sentence.mk (p :: pieces) rest).spelled =
    p.1.chars ++ '{' :: (p.2.chars ++ '}' :: (Sentence.mk pieces rest).spelled) := by
  simp [spelled]

theorem filled_cons (arguments : List (String × String)) :
    (Sentence.mk (p :: pieces) rest).filled arguments =
      p.1.chars ++ argument arguments p.2.chars ++ (Sentence.mk pieces rest).filled arguments := by
  simp [filled]

end Sentence

variable {arguments : List (String × String)} {c : Char} {rest before after name left : List Char}

theorem splitAt_single (h : c ∉ before) (after : List Char) :
    splitAt [c] (before ++ c :: after) = some (before, after) := by
  have hsplit := @splitAt_of_notMem c [] before h after
  rwa [List.append_assoc, List.singleton_append] at hsplit

theorem splitAt_single_iff :
    splitAt [c] rest = some (before, after) ↔ rest = before ++ c :: after ∧ c ∉ before := by
  constructor
  · intro h
    have hrest : rest = before ++ c :: after := by
      rw [eq_of_splitAt h, List.append_assoc, List.singleton_append]
    refine ⟨hrest, fun hc ↦ ?_⟩
    -- the separator would have been found there already
    obtain ⟨b, a, rfl, hb⟩ := List.eq_append_cons_of_mem hc
    rw [hrest, List.append_assoc, List.cons_append, splitAt_single hb] at h
    have hlength := congrArg List.length (Prod.mk.inj (Option.some.inj h)).1
    simp at hlength
  · rintro ⟨rfl, hb⟩
    exact splitAt_single hb after

theorem splitAt_single_none_iff : splitAt [c] rest = none ↔ c ∉ rest := by
  constructor
  · intro h hc
    obtain ⟨b, a, rfl, hb⟩ := List.eq_append_cons_of_mem hc
    rw [splitAt_single hb] at h
    cases h
  · intro h
    cases hsplit : splitAt [c] rest with
    | none => rfl
    | some parts =>
      obtain ⟨hrest, -⟩ := splitAt_single_iff.mp (hsplit : _ = some (parts.1, parts.2))
      exact absurd (hrest ▸ List.mem_append_cons_self) h

theorem formatFrom_plain (h : '{' ∉ rest) : formatFrom arguments rest = rest := by
  have hnone := splitAt_single_none_iff.mpr h
  unfold formatFrom
  split
  · rfl
  · rename_i heq
    rw [hnone] at heq
    cases heq

theorem formatFrom_opened (h : '{' ∉ before) (h' : '}' ∉ after) :
    formatFrom arguments (before ++ '{' :: after) = before ++ '{' :: after := by
  have hsome := splitAt_single h after
  have hnone := splitAt_single_none_iff.mpr h'
  unfold formatFrom
  split
  · rfl
  · rename_i heq
    obtain ⟨rfl, rfl⟩ := Prod.mk.inj (Option.some.inj (hsome.symm.trans heq))
    split
    · rfl
    · rename_i heq
      rw [hnone] at heq
      cases heq

theorem formatFrom_name (h : '{' ∉ before) (h' : '}' ∉ name) :
    formatFrom arguments (before ++ '{' :: (name ++ '}' :: left)) =
      before ++ argument arguments name ++ formatFrom arguments left := by
  have hopened := splitAt_single h (name ++ '}' :: left)
  have hclosed := splitAt_single h' left
  rw [formatFrom]
  split
  · rename_i heq
    rw [hopened] at heq
    cases heq
  · rename_i heq
    obtain ⟨rfl, rfl⟩ := Prod.mk.inj (Option.some.inj (hopened.symm.trans heq))
    split
    · rename_i heq
      rw [hclosed] at heq
      cases heq
    · rename_i heq
      obtain ⟨rfl, rfl⟩ := Prod.mk.inj (Option.some.inj (hclosed.symm.trans heq))
      rfl

theorem formatFrom_rest (r : Rest) : formatFrom arguments r.chars = r.chars := by
  obtain ⟨plain, opened⟩ := r
  cases opened with
  | none => exact formatFrom_plain plain.closed
  | some name => exact formatFrom_opened plain.closed name.whole

theorem formatFrom_spelled (s : Sentence) :
    formatFrom arguments s.spelled = s.filled arguments := by
  obtain ⟨pieces, rest⟩ := s
  induction pieces with
  | nil => exact formatFrom_rest rest
  | cons p pieces ih =>
    rw [Sentence.spelled_cons, formatFrom_name p.1.closed p.2.whole, ih, Sentence.filled_cons]

theorem exists_sentence (n : ℕ) (text : List Char) (h : text.length ≤ n) :
    ∃ s : Sentence, s.spelled = text := by
  induction n generalizing text with
  | zero =>
    obtain rfl := List.length_eq_zero_iff.mp (Nat.le_zero.mp h)
    exact ⟨⟨[], ⟨⟨[], List.not_mem_nil⟩, none⟩⟩, rfl⟩
  | succ n ih =>
    by_cases hopen : '{' ∈ text
    · obtain ⟨before, after, rfl, hbefore⟩ := List.eq_append_cons_of_mem hopen
      by_cases hclose : '}' ∈ after
      · obtain ⟨name, left, rfl, hname⟩ := List.eq_append_cons_of_mem hclose
        simp only [List.length_append, List.length_cons] at h
        obtain ⟨⟨pieces, rest⟩, hs⟩ := ih left (by omega)
        refine ⟨⟨(⟨before, hbefore⟩, ⟨name, hname⟩) :: pieces, rest⟩, ?_⟩
        rw [Sentence.spelled_cons, hs]
      · exact ⟨⟨[], ⟨⟨before, hbefore⟩, some ⟨after, hclose⟩⟩⟩, rfl⟩
    · exact ⟨⟨[], ⟨⟨text, hopen⟩, none⟩⟩, rfl⟩

/-- A sentence falls into text and placeholders, and however it does, each placeholder is filled
with the first argument of its name and everything else stays. -/
theorem format_sentence (catalog : Catalog) (key : String) (arguments : List (String × String)) :
    (∃ s : Sentence, s.spelled = (catalog.text key).toList) ∧
      ∀ s : Sentence, s.spelled = (catalog.text key).toList →
        (catalog.format key arguments).toList = s.filled arguments := by
  refine ⟨exists_sentence _ _ le_rfl, fun s hs ↦ ?_⟩
  rw [Catalog.format, String.toList_ofList, ← hs, formatFrom_spelled]

end Format

section Json

/-- What the page reads. -/
def Catalog.tree (catalog : Catalog) : Tree :=
  .object (catalog.entry.bindings.map fun e ↦ (e.1, .string e.2))

/-- The characters that neither end a script block nor a line of one. -/
def Harmless (c : Char) : Prop := c ≠ '<' ∧ c ≠ '\u2028' ∧ c ≠ '\u2029' ∧ 0x20 ≤ c.toNat

instance decidableHarmless (c : Char) : Decidable (Harmless c) :=
  inferInstanceAs (Decidable (_ ∧ _))

theorem codeUnit_hex4 {n : ℕ} (h : n < 0x20) : codeUnit (hex4 n) = some n := by
  have hall : ∀ n : Fin 0x20, codeUnit (hex4 n) = some n.val := by decide +kernel
  exact hall ⟨n, h⟩

theorem harmless_hex4 {n : ℕ} (h : n < 0x20) : ∀ x ∈ hex4 n, Harmless x := by
  have hall : ∀ n : Fin 0x20, (hex4 n).all (fun c ↦ decide (Harmless c)) = true := by
    decide +kernel
  exact forall_of_all (hall ⟨n, h⟩)

theorem spells_escaped (c : Char) : SpellsCharacter c (escaped c) := by
  unfold escaped
  split_ifs with hquote hback hline hreturn htab hless hsep hpar hlow
  · subst hquote
    exact .short '"' (by decide)
  · subst hback
    exact .short '\\' (by decide)
  · subst hline
    exact .short 'n' (by decide)
  · subst hreturn
    exact .short 'r' (by decide)
  · subst htab
    exact .short 't' (by decide)
  · subst hless
    exact .unit ['0', '0', '3', 'c'] (by decide)
  · subst hsep
    exact .unit ['2', '0', '2', '8'] (by decide)
  · subst hpar
    exact .unit ['2', '0', '2', '9'] (by decide)
  · exact .unit (hex4 c.toNat) (codeUnit_hex4 hlow)
  · refine .itself ?_ hquote hback
    rw [Char.le_def, UInt32.le_iff_toNat_le]
    exact Nat.le_of_not_lt hlow

theorem harmless_escaped (c : Char) : ∀ x ∈ escaped c, Harmless x := by
  unfold escaped
  split_ifs with hquote hback hline hreturn htab hless hsep hpar hlow
  iterate 8 exact forall_of_all (by decide +kernel)
  · intro x hx
    rw [List.mem_cons, List.mem_cons] at hx
    obtain rfl | rfl | hx := hx
    · decide
    · decide
    · exact harmless_hex4 hlow x hx
  · intro x hx
    obtain rfl := List.mem_singleton.mp hx
    exact ⟨hless, hsep, hpar, Nat.le_of_not_lt hlow⟩

theorem spells_characters (s : List Char) : SpellsCharacters s (s.flatMap escaped) := by
  induction s with
  | nil => rfl
  | cons c s ih => exact ⟨_, _, spells_escaped c, ih, rfl⟩

theorem spells_string (text : String) : SpellsString text (writeJsonString text) :=
  ⟨_, spells_characters text.toList, rfl⟩

theorem harmless_string (text : String) : ∀ x ∈ writeJsonString text, Harmless x := by
  intro x hx
  rw [writeJsonString, List.mem_cons, List.mem_append, List.mem_singleton] at hx
  obtain rfl | hx | rfl := hx
  · decide
  · obtain ⟨c, -, hc⟩ := List.mem_flatMap.mp hx
    exact harmless_escaped c x hc
  · decide

theorem spells_members (first : Bool) (entry : List (String × String)) :
    SpellsMembers first (entry.map fun e ↦ (e.1, .string e.2)) (membersFrom first entry) := by
  induction entry generalizing first with
  | nil => exact ⟨[], blank_nil, rfl⟩
  | cons e rest ih =>
    refine ⟨if first then [] else [','], writeJsonString e.1, [], [], writeJsonString e.2,
      membersFrom false rest, ?_, spells_string e.1, blank_nil, blank_nil, spells_string e.2,
      ih false, ?_⟩
    · cases first with
      | false => exact ⟨[], [], blank_nil, blank_nil, rfl⟩
      | true => exact blank_nil
    · simp [membersFrom]

theorem harmless_members (first : Bool) (entry : List (String × String)) :
    ∀ x ∈ membersFrom first entry, Harmless x := by
  induction entry generalizing first with
  | nil =>
    intro x hx
    obtain rfl := List.mem_singleton.mp hx
    decide
  | cons e rest ih =>
    intro x hx
    simp only [membersFrom, List.mem_append, List.mem_cons] at hx
    obtain ((hx | hx) | rfl | hx) | hx := hx
    · cases first with
      | false =>
        obtain rfl := List.mem_singleton.mp hx
        decide
      | true => cases hx
    · exact harmless_string e.1 x hx
    · decide
    · exact harmless_string e.2 x hx
    · exact ih false x hx

theorem unique_tree (catalog : Catalog) : catalog.tree.Unique := by
  rw [Catalog.tree, Tree.unique_object, List.map_map]
  constructor
  · exact List.pairwise_map.mpr (catalog.entry.ascending.imp fun hlt ↦ ne_of_lt hlt)
  · intro m hm
    obtain ⟨e, -, rfl⟩ := List.mem_map.mp hm
    trivial

/-- The page reads the catalogue as it is, whatever its sentences are, and nothing in the text can
end the block it stands in. -/
theorem asJson_page (catalog : Catalog) (depth : ℕ) :
    readText (depth + 2) catalog.asJson = some catalog.tree ∧ catalog.tree.Unique ∧
      ∀ c ∈ catalog.asJson.toList, Harmless c := by
  have hspells : SpellsText catalog.tree catalog.asJson := by
    refine ⟨[], '{' :: membersFrom true catalog.entry.bindings, [], blank_nil, blank_nil,
      ⟨_, spells_members true catalog.entry.bindings, rfl⟩, ?_⟩
    rw [Catalog.asJson, String.toList_ofList, List.nil_append, List.append_nil]
  have hfits : catalog.tree.fits (depth + 2) = true := by
    rw [Catalog.tree, Tree.fits_object, Bool.and_eq_true, fitsMembers_iff]
    refine ⟨decide_eq_true (Nat.le_add_left 2 depth), fun m hm ↦ ?_⟩
    obtain ⟨e, -, rfl⟩ := List.mem_map.mp hm
    rfl
  refine ⟨?_, unique_tree catalog, ?_⟩
  · rw [readText_eq hspells, if_pos hfits]
  · intro c hc
    rw [Catalog.asJson, String.toList_ofList, List.mem_cons] at hc
    obtain rfl | hc := hc
    · decide
    · exact harmless_members true catalog.entry.bindings c hc

end Json

end FolderClient.I18n.Rendering
