import FolderClient.Library.JsonText
import FolderClient.Library.Segments

namespace FolderClient.Library.Toml

open FolderClient.Library.JsonText FolderClient.Library.Segments

/-- The end of a line takes a carriage return with it. -/
def withoutReturn (row : List Char) : List Char :=
  if row.getLast? = some '\r' then row.dropLast else row

/-- The lines of a text. A line feed ends a line, and nothing follows the last one. -/
def lines (text : List Char) : List (List Char) :=
  let parts := text.splitOn '\n'
  parts.dropLast.map withoutReturn ++ (parts.getLast?.filter (· ≠ [])).toList

/-- White space within a line. -/
def isSpace (c : Char) : Bool := c = ' ' || c = '\t'

/-- What is no control character, or a tabulator. -/
def isPlain (c : Char) : Bool := c = '\t' || (0x20 ≤ c.toNat && c.toNat ≠ 0x7F)

def isBare (c : Char) : Bool := c.isAlphanum || c = '_' || c = '-'

/-- Bare keys, at least one. -/
structure Bare (path : List (List Char)) : Prop where
  some : path ≠ []
  bare : ∀ key ∈ path, key ≠ [] ∧ ∀ c ∈ key, isBare c = true

def dotted (path : List (List Char)) : List Char := joined '.' path

def triple : List Char := ['"', '"', '"']

/-- The characters that have an escape of their own. -/
def escapes : List (Char × Char) := [('"', '"'), ('\\', '\\'), ('n', '\n'), ('r', '\r'), ('t', '\t')]

/-- What a string stands for. `digits` says which digits stand for a character, and before what;
quotation marks stand for themselves only in a string of several lines. -/
inductive Reads (digits : List Char → Char → List Char → Prop) (several : Bool) :
    List Char → List Char → Prop
  | done : Reads digits several [] []
  | plain {c : Char} {raw value : List Char} : c ≠ '\\' → (c = '"' → several = true) →
      Reads digits several raw value → Reads digits several (c :: raw) (c :: value)
  | escape {e c : Char} {raw value : List Char} : (e, c) ∈ escapes →
      Reads digits several raw value → Reads digits several ('\\' :: e :: raw) (c :: value)
  | unicode {ds : List Char} {c : Char} {raw value : List Char} : digits ds c raw →
      Reads digits several raw value →
      Reads digits several ('\\' :: 'u' :: (ds ++ raw)) (c :: value)

/-- One piece of a document, taken apart. -/
inductive Item
  | blank (space : List Char)
  | comment (before words : List Char)
  | header (before : List Char) (path : List (List Char)) (after : List Char)
  | entry (before : List Char) (path : List (List Char)) (gap gap' raw value after : List Char)
  | text (before : List Char) (path : List (List Char)) (gap gap' opening : List Char)
      (rows : List (List Char)) (last value after : List Char)

/-- What stands between the delimiters of a string of several lines, without what the opening one
has behind it. -/
def body (rows : List (List Char)) (last : List Char) : List Char :=
  rows.flatMap (· ++ ['\n']) ++ last

namespace Item

/-- The lines of an item. -/
def rows : Item → List (List Char)
  | .blank space => [space]
  | .comment before words => [before ++ '#' :: words]
  | .header before path after => [before ++ '[' :: (dotted path ++ ']' :: after)]
  | .entry before path gap gap' raw _ after =>
    [before ++ (dotted path ++ (gap ++ '=' :: (gap' ++ '"' :: (raw ++ '"' :: after))))]
  | .text before path gap gap' opening rows last _ after =>
    (before ++ (dotted path ++ (gap ++ '=' :: (gap' ++ (triple ++ opening))))) ::
      (rows ++ [last ++ (triple ++ after)])

/-- What stands behind an opening delimiter on its line. -/
def opening : Item → List Char
  | .text _ _ _ _ opening _ _ _ _ => opening
  | _ => []

/-- What stands before the first part of an item. -/
def before : Item → List Char
  | .blank space => space
  | .comment before _ => before
  | .header before _ _ => before
  | .entry before _ _ _ _ _ _ => before
  | .text before _ _ _ _ _ _ _ _ => before

/-- The first line of an item without the white space it begins with. -/
def mark : Item → List Char
  | .blank _ => []
  | .comment _ words => '#' :: words
  | .header _ path after => '[' :: (dotted path ++ ']' :: after)
  | .entry _ path gap gap' raw _ after =>
    dotted path ++ (gap ++ '=' :: (gap' ++ '"' :: (raw ++ '"' :: after)))
  | .text _ path gap gap' opening _ _ _ _ =>
    dotted path ++ (gap ++ '=' :: (gap' ++ (triple ++ opening)))

/-- The other lines of an item. -/
def others : Item → List (List Char)
  | .text _ _ _ _ _ rows last _ after => rows ++ [last ++ (triple ++ after)]
  | _ => []

theorem rows_eq (item : Item) : item.rows = (item.before ++ item.mark) :: item.others := by
  cases item with
  | blank space => simp [rows, before, mark, others]
  | comment before words => rfl
  | header before path after => rfl
  | entry before path gap gap' raw value after => rfl
  | text before path gap gap' opening rows last value after => rfl

end Item

/-- Only white space stands before the comment or the end of the line. -/
def Ends (space : Char → Bool) (after : List Char) : Prop :=
  ∀ c ∈ (after.dropWhile space).head?, c = '#'

/-- The parts of an item are what they are taken for. -/
def Item.Fits (space : Char → Bool) (digits : Bool → List Char → Char → List Char → Prop) :
    Item → Prop
  | .blank s => ∀ c ∈ s, space c = true
  | .comment before _ => ∀ c ∈ before, space c = true
  | .header before path after => (∀ c ∈ before, space c = true) ∧ Bare path ∧ Ends space after
  | .entry before path gap gap' raw value after => (∀ c ∈ before ++ gap ++ gap', space c = true) ∧
      Bare path ∧ Reads (digits false) false raw value ∧ Ends space after
  | .text before path gap gap' _ rows last value after =>
    (∀ c ∈ before ++ gap ++ gap', space c = true) ∧ Bare path ∧
      Reads (digits true) true (body rows last) value ∧ (∀ row ∈ rows, ¬ triple <:+: row) ∧
      ¬ triple <:+: last ++ ['"', '"'] ∧ Ends space after

/-- An escape has four hexadecimal digits. -/
def fourDigits (ds : List Char) (c : Char) : Prop := codeUnit ds = some c.toNat

/-- An item of a document. Its strings begin where their delimiter ends, or on the next line. -/
structure Item.Valid (item : Item) : Prop where
  fits : item.Fits isSpace fun _ ds c _ ↦ fourDigits ds c
  opens : item.opening = []
  plain : ∀ row ∈ item.rows, ∀ c ∈ row, isPlain c = true

/-- A key with its value, and the table it stands in. -/
structure Entry where
  table : List (List Char)
  path : List (List Char)
  value : List Char

def Entry.key (e : Entry) : List (List Char) := e.table ++ e.path

def entriesFrom (table : List (List Char)) : List Item → List Entry
  | [] => []
  | .header _ path _ :: items => entriesFrom path items
  | .entry _ path _ _ _ value _ :: items => ⟨table, path, value⟩ :: entriesFrom table items
  | .text _ path _ _ _ _ _ value _ :: items => ⟨table, path, value⟩ :: entriesFrom table items
  | .blank _ :: items => entriesFrom table items
  | .comment _ _ :: items => entriesFrom table items

def entries (items : List Item) : List Entry := entriesFrom [] items

def tables (items : List Item) : List (List (List Char)) :=
  items.filterMap fun item ↦
    match item with
    | .header _ path _ => some path
    | _ => none

/-- No table is defined twice, by headers or by a header and a dotted key, and none is a value. -/
structure Unclashing (items : List Item) : Prop where
  tables_once : (tables items).Nodup
  above : ∀ e ∈ entries items, ∀ e' ∈ entries items, e.key <+: e'.key → e.key = e'.key
  value : ∀ e ∈ entries items, ∀ table ∈ tables items, ¬ e.key <+: table
  dotted : ∀ e ∈ entries items, ∀ part, part ≠ [] → part <+: e.path → e.table ++ part ∉ tables items

/-- The keys of a document with their values. -/
def pairs (items : List Item) : List (String × String) :=
  (entries items).map fun e ↦ (String.ofList (dotted e.key), String.ofList e.value)

/-- A text is a document of tables, bare or dotted keys, and strings of one line or of several, and
holds the keys with these values. -/
def Document (text : String) (table : List (String × String)) : Prop :=
  ∃ items, lines text.toList = items.flatMap Item.rows ∧ (∀ item ∈ items, item.Valid) ∧
    Unclashing items ∧ ((entries items).map Entry.key).Nodup ∧ pairs items = table

section Parts

variable {p : Char → Bool} {a a' b b' : List Char} {path path' : List (List Char)}

/-- Where a text is parted by what its characters are, it is parted in one way. -/
theorem parted (ha : ∀ c ∈ a, p c = true) (ha' : ∀ c ∈ a', p c = true)
    (hb : ∀ c ∈ b.head?, p c = false) (hb' : ∀ c ∈ b'.head?, p c = false)
    (h : a ++ b = a' ++ b') : a = a' ∧ b = b' := by
  induction a generalizing a' with
  | nil =>
    cases a' with
    | nil => exact ⟨rfl, h⟩
    | cons c a' =>
      have hc := hb c (by rw [List.nil_append] at h; rw [h]; rfl)
      rw [ha' c List.mem_cons_self] at hc
      cases hc
  | cons c a ih =>
    cases a' with
    | nil =>
      have hc := hb' c (by rw [List.nil_append] at h; rw [← h]; rfl)
      rw [ha c List.mem_cons_self] at hc
      cases hc
    | cons c' a' =>
      obtain ⟨rfl, htail⟩ := List.cons.inj h
      obtain ⟨rfl, hrest⟩ := ih (fun x hx ↦ ha x (List.mem_cons_of_mem _ hx))
        (fun x hx ↦ ha' x (List.mem_cons_of_mem _ hx)) htail
      exact ⟨rfl, hrest⟩

def isKeyChar (c : Char) : Bool := isBare c || c = '.'

theorem dotted_keyChars (h : Bare path) : ∀ c ∈ dotted path, isKeyChar c = true := by
  obtain ⟨-, hbare⟩ := h
  induction path with
  | nil =>
    intro c hc
    exact absurd hc List.not_mem_nil
  | cons key path ih =>
    intro c hc
    have hkey : ∀ c ∈ key, isKeyChar c = true := fun c hc ↦ by
      simp [isKeyChar, (hbare key List.mem_cons_self).2 c hc]
    by_cases hpath : path = []
    · rw [hpath, dotted, joined_singleton] at hc
      exact hkey c hc
    · rw [dotted, joined_cons hpath] at hc
      rcases List.mem_append.mp hc with hc | hc
      · exact hkey c hc
      · rcases List.mem_cons.mp hc with rfl | hc
        · rfl
        · exact ih (fun k hk ↦ hbare k (List.mem_cons_of_mem _ hk)) c hc

theorem dot_not_bare : isBare '.' = false := by decide

theorem Bare.proper (h : Bare path) : ∀ key ∈ path, '.' ∉ key := by
  intro key hkey hdot
  have hbare := (h.bare key hkey).2 '.' hdot
  rw [dot_not_bare] at hbare
  cases hbare

theorem splitOn_dotted (h : Bare path) : (dotted path).splitOn '.' = path :=
  List.splitOn_intercalate '.' h.proper h.some

theorem dotted_injective (h : Bare path) (h' : Bare path') (heq : dotted path = dotted path') :
    path = path' := by
  rw [← splitOn_dotted h, heq, splitOn_dotted h']

theorem exists_head (h : Bare path) : ∃ c more, dotted path = c :: more ∧ isBare c = true := by
  obtain ⟨hne, hbare⟩ := h
  cases path with
  | nil => exact absurd rfl hne
  | cons key path =>
    obtain ⟨hkey, hchars⟩ := hbare key List.mem_cons_self
    cases key with
    | nil => exact absurd rfl hkey
    | cons c key =>
      have hc := hchars c List.mem_cons_self
      by_cases hpath : path = []
      · rw [hpath, dotted, joined_singleton]
        exact ⟨c, key, rfl, hc⟩
      · rw [dotted, joined_cons hpath]
        exact ⟨c, _, rfl, hc⟩

/-- The first delimiter of a line is found in one way. -/
theorem triple_unique {last last' after after' : List Char}
    (h : ¬ triple <:+: last ++ ['"', '"']) (h' : ¬ triple <:+: last' ++ ['"', '"'])
    (heq : last ++ (triple ++ after) = last' ++ (triple ++ after')) : last = last' ∧ after = after' := by
  have hshort : ∀ {l l' x x' : List Char}, ¬ triple <:+: l' ++ ['"', '"'] →
      l ++ (triple ++ x) = l' ++ (triple ++ x') → ¬ l.length < l'.length := by
    intro l l' x x' hnone heq hlt
    apply hnone
    have hprefix : l ++ triple <+: l' ++ ['"', '"'] := by
      have hlong : l ++ triple <+: l ++ (triple ++ x) := by
        rw [← List.append_assoc]
        exact List.prefix_append _ _
      refine List.prefix_of_prefix_length_le hlong ?_ ?_
      · rw [heq]
        exact ⟨'"' :: x', by simp [triple]⟩
      · simp only [triple, List.length_append, List.length_cons, List.length_nil]
        omega
    exact (List.suffix_append l triple).isInfix.trans hprefix.isInfix
  have hlength : last.length = last'.length :=
    Nat.le_antisymm (Nat.not_lt.mp (hshort h heq.symm)) (Nat.not_lt.mp (hshort h' heq))
  obtain ⟨rfl, hrest⟩ := List.append_inj heq hlength
  exact ⟨rfl, List.append_cancel_left hrest⟩

end Parts

section Strings

variable {digits : List Char → Char → List Char → Prop} {several : Bool}
  {raw raw' value value' x y : List Char}

theorem escapes_unique {e c c' : Char} (h : (e, c) ∈ escapes) (h' : (e, c') ∈ escapes) :
    c = c' := by
  have hall : ∀ p ∈ escapes, ∀ q ∈ escapes, p.1 = q.1 → p.2 = q.2 := by decide
  exact hall _ h _ h' rfl

theorem not_escape_u {c : Char} : ('u', c) ∉ escapes := by
  intro h
  have hall : ∀ p ∈ escapes, p.1 ≠ 'u' := by decide
  exact hall _ h rfl

/-- A string of one line ends in one place, and stands for one text. -/
theorem Reads.unique_single (hlength : ∀ {ds c more}, digits ds c more → ds.length = 4)
    (hone : ∀ {ds c c' more more'}, digits ds c more → digits ds c' more' → c = c')
    (h : Reads digits false raw value) (h' : Reads digits false raw' value')
    (heq : raw ++ '"' :: x = raw' ++ '"' :: y) : raw = raw' ∧ value = value' ∧ x = y := by
  induction h generalizing raw' value' with
  | done =>
    cases h' with
    | done => exact ⟨rfl, rfl, (List.cons.inj heq).2⟩
    | plain hc hquote h' =>
      cases hquote (List.cons.inj heq).1.symm
    | escape he h' => cases (List.cons.inj heq).1
    | unicode hds h' => cases (List.cons.inj heq).1
  | plain hc hquote _ ih =>
    cases h' with
    | done => cases hquote (List.cons.inj heq).1
    | plain hc' hquote' h' =>
      obtain ⟨rfl, htail⟩ := List.cons.inj heq
      obtain ⟨rfl, rfl, hrest⟩ := ih h' htail
      exact ⟨rfl, rfl, hrest⟩
    | escape he h' => exact absurd (List.cons.inj heq).1 hc
    | unicode hds h' => exact absurd (List.cons.inj heq).1 hc
  | escape he _ ih =>
    cases h' with
    | done => cases (List.cons.inj heq).1
    | plain hc' hquote' h' => exact absurd (List.cons.inj heq).1.symm hc'
    | escape he' h' =>
      simp only [List.cons_append, List.cons.injEq, true_and] at heq
      obtain ⟨rfl, htail⟩ := heq
      obtain ⟨rfl, rfl, hrest⟩ := ih h' htail
      rw [escapes_unique he he']
      exact ⟨rfl, rfl, hrest⟩
    | unicode hds h' =>
      obtain ⟨rfl, -⟩ := List.cons.inj (List.cons.inj heq).2
      exact absurd he not_escape_u
  | unicode hds _ ih =>
    cases h' with
    | done => cases (List.cons.inj heq).1
    | plain hc' hquote' h' => exact absurd (List.cons.inj heq).1.symm hc'
    | escape he' h' =>
      obtain ⟨rfl, -⟩ := List.cons.inj (List.cons.inj heq).2
      exact absurd he' not_escape_u
    | unicode hds' h' =>
      simp only [List.cons_append, List.cons.injEq, true_and, List.append_assoc] at heq
      obtain ⟨rfl, htail⟩ := List.append_inj heq ((hlength hds).trans (hlength hds').symm)
      obtain ⟨rfl, rfl, hrest⟩ := ih h' htail
      rw [hone hds hds']
      exact ⟨rfl, rfl, hrest⟩

/-- A string of several lines stands for one text. -/
theorem Reads.unique_several
    (hlength : ∀ {ds c more}, digits ds c more → ds.length = 4 ∨ ds.length < 4 ∧ more = [])
    (hone : ∀ {ds c c' more more'}, digits ds c more → digits ds c' more' → c = c')
    (h : Reads digits several raw value) (h' : Reads digits several raw value') :
    value = value' := by
  induction h generalizing value' with
  | done =>
    cases h'
    rfl
  | plain hc hquote _ ih =>
    cases h' with
    | plain hc' hquote' h' => rw [ih h']
    | escape he h' => exact absurd rfl hc
    | unicode hds h' => exact absurd rfl hc
  | escape he _ ih =>
    cases h' with
    | plain hc' hquote' h' => exact absurd rfl hc'
    | escape he' h' => rw [ih h', escapes_unique he he']
    | unicode hds h' => exact absurd he not_escape_u
  | @unicode ds c raw value hds _ ih =>
    generalize hwhole : '\\' :: 'u' :: (ds ++ raw) = whole at h'
    cases h' with
    | done => cases hwhole
    | plain hc' hquote' h' => exact absurd (List.cons.inj hwhole).1.symm hc'
    | escape he' h' =>
      obtain ⟨rfl, -⟩ := List.cons.inj (List.cons.inj hwhole).2
      exact absurd he' not_escape_u
    | @unicode ds' c' raw' value' hds' h' =>
      have htail := (List.cons.inj (List.cons.inj hwhole).2).2
      have hsame : ds.length = ds'.length := by
        have hboth := congrArg List.length htail
        rw [List.length_append, List.length_append] at hboth
        rcases hlength hds with hfour | ⟨hshort, rfl⟩
        · rcases hlength hds' with hfour' | ⟨hshort', rfl⟩
          · rw [hfour, hfour']
          · rw [List.length_nil] at hboth
            omega
        · rcases hlength hds' with hfour' | ⟨hshort', rfl⟩
          · rw [List.length_nil] at hboth
            omega
          · simpa using hboth
      obtain ⟨rfl, rfl⟩ := List.append_inj htail hsame
      rw [ih h', hone hds hds']

end Strings

section Items

/-- White space and escapes by which a line is taken apart in one way. -/
structure Lenient (space : Char → Bool) (digits : Bool → List Char → Char → List Char → Prop) :
    Prop where
  apart : ∀ c, space c = true → isKeyChar c = false ∧ c ∉ ['#', '[', '=', '"']
  single : ∀ {ds c more}, digits false ds c more → ds.length = 4
  several : ∀ {ds c more}, digits true ds c more → ds.length = 4 ∨ ds.length < 4 ∧ more = []
  one : ∀ {b ds c c' more more'}, digits b ds c more → digits b ds c' more' → c = c'

variable {space : Char → Bool} {digits : Bool → List Char → Char → List Char → Prop}
  {path path' : List (List Char)} {gap gap' s s' after after' x x' : List Char}
  {more more' : List (List Char)} {item item' : Item}

theorem Lenient.not_space (h : Lenient space digits) {c : Char}
    (hc : isKeyChar c = true ∨ c ∈ ['#', '[', '=', '"']) : space c = false := by
  rw [← Bool.not_eq_true]
  intro hspace
  obtain ⟨hkey, hmark⟩ := h.apart c hspace
  rcases hc with hc | hc
  · rw [hkey] at hc
    cases hc
  · exact hmark hc

theorem isKeyChar_of_isBare {c : Char} (h : isBare c = true) : isKeyChar c = true := by
  simp [isKeyChar, h]

theorem keyChar_ne {c : Char} (h : isKeyChar c = true) :
    c ≠ '#' ∧ c ≠ '[' ∧ c ≠ '=' ∧ c ≠ ']' := by
  refine ⟨?_, ?_, ?_, ?_⟩
  all_goals
    rintro rfl
    exact absurd h (by decide)

/-- A line with a value is taken apart in one way up to the value. -/
theorem assigned_unique (h : Lenient space digits) (hpath : Bare path) (hpath' : Bare path')
    (hgaps : ∀ c ∈ gap ++ s, space c = true) (hgaps' : ∀ c ∈ gap' ++ s', space c = true)
    (heq : dotted path ++ (gap ++ '=' :: (s ++ '"' :: x)) =
      dotted path' ++ (gap' ++ '=' :: (s' ++ '"' :: x'))) :
    path = path' ∧ gap = gap' ∧ s = s' ∧ x = x' := by
  have hsign : ∀ {g t : List Char}, (∀ c ∈ g, space c = true) →
      ∀ c ∈ (g ++ '=' :: t).head?, isKeyChar c = false := by
    intro g t hg c hc
    cases g with
    | nil =>
      cases hc
      decide
    | cons d g =>
      cases hc
      exact (h.apart _ (hg _ List.mem_cons_self)).1
  have hmark : ∀ {d : Char} {t : List Char}, d ∈ ['#', '[', '=', '"'] →
      ∀ c ∈ (d :: t).head?, space c = false := by
    intro d t hd c hc
    cases hc
    exact h.not_space (.inr hd)
  have hgap := fun c hc ↦ hgaps c (List.mem_append_left _ hc)
  have hgap' := fun c hc ↦ hgaps' c (List.mem_append_left _ hc)
  obtain ⟨hdotted, hrest⟩ := parted (dotted_keyChars hpath) (dotted_keyChars hpath')
    (hsign hgap) (hsign hgap') heq
  obtain ⟨rfl, hvalue⟩ := parted hgap hgap' (hmark (by simp)) (hmark (by simp)) hrest
  obtain ⟨rfl, hquote⟩ := parted (fun c hc ↦ hgaps c (List.mem_append_right _ hc))
    (fun c hc ↦ hgaps' c (List.mem_append_right _ hc)) (hmark (by simp)) (hmark (by simp))
    (List.cons.inj hvalue).2
  exact ⟨dotted_injective hpath hpath' hdotted, rfl, rfl, (List.cons.inj hquote).2⟩

namespace Item

theorem space_before (h : item.Fits space digits) : ∀ c ∈ item.before, space c = true := by
  cases item with
  | blank space => exact h
  | comment before words => exact h
  | header before path after => exact h.1
  | entry before path gap gap' raw value after =>
    exact fun c hc ↦ h.1 c (List.mem_append_left _ (List.mem_append_left _ hc))
  | text before path gap gap' opening rows last value after =>
    exact fun c hc ↦ h.1 c (List.mem_append_left _ (List.mem_append_left _ hc))

theorem head_path (h : Bare path) {c : Char} (hc : c ∈ (dotted path ++ x).head?) :
    isKeyChar c = true := by
  obtain ⟨d, rest, hd, hbare⟩ := exists_head h
  rw [hd] at hc
  cases hc
  exact isKeyChar_of_isBare hbare

theorem head_mark (hl : Lenient space digits) (h : item.Fits space digits) :
    ∀ c ∈ item.mark.head?, space c = false := by
  intro c hc
  apply hl.not_space
  cases item with
  | blank space => cases hc
  | comment before words =>
    cases hc
    exact .inr (by simp)
  | header before path after =>
    cases hc
    exact .inr (by simp)
  | entry before path gap gap' raw value after => exact .inl (head_path h.2.1 hc)
  | text before path gap gap' opening rows last value after => exact .inl (head_path h.2.1 hc)

end Item

/-- A line with a string of one line is not the first of a string of several. -/
theorem not_triple (hl : Lenient space digits) {raw value opening : List Char}
    (h : Reads (digits false) false raw value) (hends : Ends space after) :
    raw ++ '"' :: after ≠ '"' :: '"' :: opening := by
  intro heq
  cases h with
  | done =>
    rw [List.nil_append] at heq
    have hafter := (List.cons.inj heq).2
    have hquote : space '"' = false := hl.not_space (.inr (by simp))
    rw [hafter, Ends, List.dropWhile_cons_of_neg (by simp [hquote])] at hends
    exact absurd (hends '"' rfl) (by decide)
  | plain hc hquote h => cases hquote (List.cons.inj heq).1
  | escape he h => cases (List.cons.inj heq).1
  | unicode hds h => cases (List.cons.inj heq).1

/-- The lines of a string end in one place. -/
theorem closed_unique {rows rows' : List (List Char)} {last last' : List Char}
    (h : ∀ row ∈ rows, ¬ triple <:+: row) (h' : ∀ row ∈ rows', ¬ triple <:+: row)
    (hlast : ¬ triple <:+: last ++ ['"', '"']) (hlast' : ¬ triple <:+: last' ++ ['"', '"'])
    (heq : rows ++ (last ++ (triple ++ after)) :: more =
      rows' ++ (last' ++ (triple ++ after')) :: more') :
    rows = rows' ∧ last = last' ∧ after = after' ∧ more = more' := by
  have hin : ∀ l t : List Char, triple <:+: l ++ (triple ++ t) := fun l t ↦
    ⟨l, t, by rw [List.append_assoc]⟩
  induction rows generalizing rows' with
  | nil =>
    cases rows' with
    | nil =>
      obtain ⟨hrow, rfl⟩ := List.cons.inj heq
      obtain ⟨rfl, rfl⟩ := triple_unique hlast hlast' hrow
      exact ⟨rfl, rfl, rfl, rfl⟩
    | cons row rows' =>
      have hrow := (List.cons.inj heq).1
      exact absurd (hrow ▸ hin last after) (h' row List.mem_cons_self)
  | cons row rows ih =>
    cases rows' with
    | nil =>
      have hrow := (List.cons.inj heq).1
      exact absurd (hrow ▸ hin last' after') (h row List.mem_cons_self)
    | cons row' rows' =>
      obtain ⟨rfl, htail⟩ := List.cons.inj heq
      obtain ⟨rfl, hrest⟩ := ih (fun r hr ↦ h r (List.mem_cons_of_mem _ hr))
        (fun r hr ↦ h' r (List.mem_cons_of_mem _ hr)) htail
      exact ⟨rfl, hrest⟩

theorem header_unique (hpath : Bare path) (hpath' : Bare path')
    (heq : dotted path ++ ']' :: after = dotted path' ++ ']' :: after') :
    path = path' ∧ after = after' := by
  have hmark : ∀ {t : List Char}, ∀ c ∈ (']' :: t).head?, isKeyChar c = false := by
    rintro t c ⟨⟩
    decide
  obtain ⟨hdotted, hrest⟩ := parted (dotted_keyChars hpath) (dotted_keyChars hpath') hmark hmark heq
  exact ⟨dotted_injective hpath hpath' hdotted, (List.cons.inj hrest).2⟩

/-- A first line with a key is no other one. -/
theorem mark_ne {d : Char} {t : List Char} (hpath : Bare path) (hd : d = '#' ∨ d = '[') :
    dotted path ++ x ≠ d :: t := by
  intro heq
  have hkey := Item.head_path (x := x) hpath (c := d) (by rw [heq]; rfl)
  rcases hd with rfl | rfl
  · exact (keyChar_ne hkey).1 rfl
  · exact (keyChar_ne hkey).2.1 rfl

theorem mark_ne_nil (hpath : Bare path) : dotted path ++ x ≠ [] := by
  obtain ⟨c, rest, hc, -⟩ := exists_head hpath
  rw [hc]
  exact List.cons_ne_nil _ _

/-- Lines are taken apart in one way. -/
theorem Item.unique (hl : Lenient space digits) (h : item.Fits space digits)
    (h' : item'.Fits space digits) (heq : item.rows ++ more = item'.rows ++ more') :
    item = item' ∧ more = more' := by
  rw [rows_eq, rows_eq] at heq
  obtain ⟨hrow, hothers⟩ := List.cons.inj heq
  obtain ⟨hbefore, hmark⟩ := parted (space_before h) (space_before h') (head_mark hl h)
    (head_mark hl h') hrow
  cases item with
  | blank s =>
    cases item' with
    | blank s' =>
      obtain rfl : s = s' := hbefore
      exact ⟨rfl, hothers⟩
    | comment b w => cases hmark
    | header b path after => cases hmark
    | entry b path g g' raw value after => exact absurd hmark.symm (mark_ne_nil h'.2.1)
    | text b path g g' opening rows last value after =>
      exact absurd hmark.symm (mark_ne_nil h'.2.1)
  | comment b w =>
    cases item' with
    | blank s' => cases hmark
    | comment b' w' =>
      obtain rfl : b = b' := hbefore
      obtain rfl : w = w' := (List.cons.inj hmark).2
      exact ⟨rfl, hothers⟩
    | header b' path after => cases (List.cons.inj hmark).1
    | entry b' path g g' raw value after => exact absurd hmark.symm (mark_ne h'.2.1 (.inl rfl))
    | text b' path g g' opening rows last value after =>
      exact absurd hmark.symm (mark_ne h'.2.1 (.inl rfl))
  | header b path after =>
    cases item' with
    | blank s' => cases hmark
    | comment b' w' => cases (List.cons.inj hmark).1
    | header b' path' after' =>
      obtain rfl : b = b' := hbefore
      obtain ⟨rfl, rfl⟩ := header_unique h.2.1 h'.2.1 (List.cons.inj hmark).2
      exact ⟨rfl, hothers⟩
    | entry b' path g g' raw value after => exact absurd hmark.symm (mark_ne h'.2.1 (.inr rfl))
    | text b' path g g' opening rows last value after =>
      exact absurd hmark.symm (mark_ne h'.2.1 (.inr rfl))
  | entry b path g s raw value after =>
    have hgaps : ∀ c ∈ g ++ s, space c = true := fun c hc ↦
      h.1 c (by rw [List.append_assoc]; exact List.mem_append_right _ hc)
    cases item' with
    | blank s' => exact absurd hmark (mark_ne_nil h.2.1)
    | comment b' w' => exact absurd hmark (mark_ne h.2.1 (.inl rfl))
    | header b' path' after' => exact absurd hmark (mark_ne h.2.1 (.inr rfl))
    | entry b' path' g' s' raw' value' after' =>
      have hgaps' : ∀ c ∈ g' ++ s', space c = true := fun c hc ↦
        h'.1 c (by rw [List.append_assoc]; exact List.mem_append_right _ hc)
      obtain rfl : b = b' := hbefore
      obtain ⟨rfl, rfl, rfl, hvalue⟩ := assigned_unique hl h.2.1 h'.2.1 hgaps hgaps' hmark
      obtain ⟨rfl, rfl, rfl⟩ := Reads.unique_single hl.single hl.one h.2.2.1 h'.2.2.1 hvalue
      exact ⟨rfl, hothers⟩
    | text b' path' g' s' opening rows last value' after' =>
      have hgaps' : ∀ c ∈ g' ++ s', space c = true := fun c hc ↦
        h'.1 c (by rw [List.append_assoc]; exact List.mem_append_right _ hc)
      obtain ⟨-, -, -, hvalue⟩ := assigned_unique hl h.2.1 h'.2.1 hgaps hgaps' hmark
      exact absurd hvalue (not_triple hl h.2.2.1 h.2.2.2)
  | text b path g s opening rows last value after =>
    have hgaps : ∀ c ∈ g ++ s, space c = true := fun c hc ↦
      h.1 c (by rw [List.append_assoc]; exact List.mem_append_right _ hc)
    cases item' with
    | blank s' => exact absurd hmark (mark_ne_nil h.2.1)
    | comment b' w' => exact absurd hmark (mark_ne h.2.1 (.inl rfl))
    | header b' path' after' => exact absurd hmark (mark_ne h.2.1 (.inr rfl))
    | entry b' path' g' s' raw value' after' =>
      have hgaps' : ∀ c ∈ g' ++ s', space c = true := fun c hc ↦
        h'.1 c (by rw [List.append_assoc]; exact List.mem_append_right _ hc)
      obtain ⟨-, -, -, hvalue⟩ := assigned_unique hl h.2.1 h'.2.1 hgaps hgaps' hmark
      exact absurd hvalue.symm (not_triple hl h'.2.2.1 h'.2.2.2)
    | text b' path' g' s' opening' rows' last' value' after' =>
      have hgaps' : ∀ c ∈ g' ++ s', space c = true := fun c hc ↦
        h'.1 c (by rw [List.append_assoc]; exact List.mem_append_right _ hc)
      obtain rfl : b = b' := hbefore
      obtain ⟨rfl, rfl, rfl, hopening⟩ := assigned_unique hl h.2.1 h'.2.1 hgaps hgaps' hmark
      obtain rfl : opening = opening' := List.append_cancel_left (List.cons.inj hopening |>.2)
      have hclosed : rows ++ (last ++ (triple ++ after)) :: more =
          rows' ++ (last' ++ (triple ++ after')) :: more' := by
        simpa [others] using hothers
      obtain ⟨rfl, rfl, rfl, rfl⟩ := closed_unique h.2.2.2.1 h'.2.2.2.1 h.2.2.2.2.1 h'.2.2.2.2.1
        hclosed
      rw [Reads.unique_several hl.several hl.one h.2.2.1 h'.2.2.1]
      exact ⟨rfl, rfl⟩

/-- A document is taken apart in one way. -/
theorem items_unique (hl : Lenient space digits) {items items' : List Item}
    (h : ∀ item ∈ items, item.Fits space digits) (h' : ∀ item ∈ items', item.Fits space digits)
    (heq : items.flatMap Item.rows = items'.flatMap Item.rows) : items = items' := by
  induction items generalizing items' with
  | nil =>
    cases items' with
    | nil => rfl
    | cons item' items' =>
      rw [List.flatMap_cons, Item.rows_eq] at heq
      cases heq
  | cons item items ih =>
    cases items' with
    | nil =>
      rw [List.flatMap_cons, Item.rows_eq] at heq
      cases heq
    | cons item' items' =>
      rw [List.flatMap_cons, List.flatMap_cons] at heq
      obtain ⟨rfl, hrest⟩ := Item.unique hl (h _ List.mem_cons_self) (h' _ List.mem_cons_self) heq
      rw [ih (fun i hi ↦ h i (List.mem_cons_of_mem _ hi))
        (fun i hi ↦ h' i (List.mem_cons_of_mem _ hi)) hrest]

end Items

end FolderClient.Library.Toml
