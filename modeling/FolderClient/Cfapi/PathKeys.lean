import FolderClient.Cfapi.PathMap
import FolderClient.Library.Casing
import FolderClient.Library.Segments

namespace FolderClient.Cfapi.PathKeys

open FolderClient.Cfapi.PathMap FolderClient.Library.Casing FolderClient.Library.Segments
open FolderClient.Library.Texts

section Model

/-- The prefix for paths beyond the usual length. -/
def longPrefix : List Char := ['\\', '\\', '?', '\\']

/-- Takes the prefix off the front, but not that of a network path. -/
def withoutLongPrefix (path : List Char) : List Char :=
  match strip longPrefix path with
  | some rest => if asciiLower (rest.take 4) = ['u', 'n', 'c', '\\'] then path else rest
  | none => path

def isSeparator (c : Char) : Bool := c = separator || c = '/'

/-- The text with one separator where there are several; `after` says that one stands before. -/
def unifyFrom : Bool → List Char → List Char
  | _, [] => []
  | after, c :: rest =>
    if isSeparator c then
      if after then unifyFrom true rest else separator :: unifyFrom true rest
    else c :: unifyFrom false rest

def unify (path : List Char) : List Char := (unifyFrom false path).rdropWhile (· = separator)

variable (tables : Tables)

/-- What follows the root, where the path begins with it. -/
def rest : List Char → List Char → Option (List Char)
  | [], full => some full
  | _ :: _, [] => none
  | r :: root, c :: full => if equalWithoutCase tables r c then rest root full else none

/-- The path relative to the root, where it lies under the root. -/
def relativeToRoot (root full : List Char) : Option (List Char) := do
  let rest ← rest tables (unify (withoutLongPrefix root)) (unify (withoutLongPrefix full))
  if rest.isEmpty then some [] else strip [separator] rest

/-- The comparable form of a path relative to the root. -/
structure PathKey where
  text : List Char
deriving DecidableEq

def PathKey.fromRelative (relative : List Char) : PathKey :=
  ⟨lowercase tables ((unify relative).dropWhile (· = separator))⟩

/-- Whether this path is another one or lies below it. -/
def PathKey.isBelow (key top : PathKey) : Bool :=
  top.text.isEmpty || key.text = top.text ||
    (strip top.text key.text).any fun rest ↦ rest.head? = some separator

/-- How far an expectation reaches. -/
inductive Scope
  | exactly
  | subtree
deriving DecidableEq

structure Exemption where
  number : ℕ
  key : PathKey
  scope : Scope

/-- The list of expected interventions of our own. -/
structure Exemptions where
  entries : List Exemption
  next : ℕ

/-- What was announced: as long as it is alive, the intervention is let through. -/
structure Expectation where
  number : ℕ
  relative : List Char
  scope : Scope

namespace Exemptions

def new : Exemptions := ⟨[], 0⟩

/-- Announces an intervention of our own. -/
def expect (list : Exemptions) (relative : List Char) (scope : Scope) : Expectation × Exemptions :=
  (⟨list.next, relative, scope⟩,
    ⟨list.entries ++ [⟨list.next, .fromRelative tables relative, scope⟩], (list.next + 1) % 2 ^ 64⟩)

def dropped (list : Exemptions) (expectation : Expectation) : Exemptions :=
  { list with entries := list.entries.filter fun a ↦ a.number ≠ expectation.number }

def isExpected (list : Exemptions) (relative : List Char) : Bool :=
  list.entries.any fun a ↦
    match a.scope with
    | .exactly => a.key = .fromRelative tables relative
    | .subtree => (PathKey.fromRelative tables relative).isBelow a.key

def mayDelete (list : Exemptions) (relative : Option (List Char)) : Bool :=
  relative.any (list.isExpected tables)

def mayMove (list : Exemptions) (of after : Option (List Char)) : Bool :=
  list.mayDelete tables of && list.mayDelete tables after

end Exemptions

end Model

section Spellings

/-- Spellings of one path: in the case of a letter, in the separator, and in how many of them stand
in one place or at the end. -/
inductive Respelled (tables : Tables) : List Char → List Char → Prop
  | refl (a : List Char) : Respelled tables a a
  | symm {a b : List Char} : Respelled tables a b → Respelled tables b a
  | trans {a b c : List Char} : Respelled tables a b → Respelled tables b c → Respelled tables a c
  | cased (a b : List Char) {c d : Char} : tables.simple c = tables.simple d →
      Respelled tables (a ++ c :: b) (a ++ d :: b)
  | slash (a b : List Char) : Respelled tables (a ++ '/' :: b) (a ++ separator :: b)
  | doubled (a b : List Char) :
      Respelled tables (a ++ separator :: separator :: b) (a ++ separator :: b)
  | trailing (a : List Char) : Respelled tables (a ++ [separator]) a

/-- The tables are lawful, and no character becomes a separator. -/
structure Conform (tables : Tables) : Prop where
  lawful : tables.Lawful
  separator : tables.Keeps separator
  slash : tables.Keeps '/'

variable {tables : Tables} {a b x : List Char}

theorem isSeparator_iff {c : Char} : isSeparator c = true ↔ c = separator ∨ c = '/' := by
  rw [isSeparator, Bool.or_eq_true, decide_eq_true_eq, decide_eq_true_eq]

theorem unifyFrom_nil (after : Bool) : unifyFrom after [] = [] := rfl

theorem unifyFrom_separator {c : Char} (hc : isSeparator c = true) (after : Bool)
    (rest : List Char) : unifyFrom after (c :: rest) =
      (if after then [] else [separator]) ++ unifyFrom true rest := by
  rw [unifyFrom, if_pos hc]
  cases after <;> rfl

theorem unifyFrom_other {c : Char} (hc : isSeparator c = false) (after : Bool)
    (rest : List Char) : unifyFrom after (c :: rest) = c :: unifyFrom false rest := by
  rw [unifyFrom, if_neg (Bool.eq_false_iff.mp hc)]

/-- Whether a separator stands at the end; `after` says it of the empty text. -/
def endsIn (after : Bool) (text : List Char) : Bool := (text.getLast?.map isSeparator).getD after

theorem unifyFrom_append (after : Bool) (a b : List Char) :
    unifyFrom after (a ++ b) = unifyFrom after a ++ unifyFrom (endsIn after a) b := by
  induction a generalizing after with
  | nil => rfl
  | cons c a ih =>
    have hends : endsIn after (c :: a) = endsIn (isSeparator c) a := by
      unfold endsIn
      rw [List.getLast?_cons]
      cases a.getLast? <;> rfl
    rw [List.cons_append, hends]
    cases hc : isSeparator c with
    | true =>
      rw [unifyFrom_separator hc, unifyFrom_separator hc, ih true, List.append_assoc]
    | false =>
      rw [unifyFrom_other hc, unifyFrom_other hc, ih false, List.cons_append]

theorem length_unifyFrom (after : Bool) (a : List Char) :
    (unifyFrom after a).length ≤ a.length := by
  induction a generalizing after with
  | nil => exact le_rfl
  | cons c a ih =>
    cases hc : isSeparator c with
    | true =>
      rw [unifyFrom_separator hc, List.length_append, List.length_cons]
      have hrest := ih true
      cases after <;> simp <;> omega
    | false =>
      rw [unifyFrom_other hc, List.length_cons, List.length_cons]
      exact Nat.succ_le_succ (ih false)

/-- What is unified is left as it is. -/
theorem unifyFrom_again (after : Bool) (a : List Char) :
    unifyFrom after (unifyFrom after a) = unifyFrom after a := by
  have hsep : isSeparator separator = true := by decide
  induction a generalizing after with
  | nil => rfl
  | cons c a ih =>
    cases hc : isSeparator c with
    | true =>
      rw [unifyFrom_separator hc]
      cases after with
      | true => exact ih true
      | false =>
        change unifyFrom false (separator :: unifyFrom true a) = _
        rw [unifyFrom_separator hsep, ih true]
    | false => rw [unifyFrom_other hc, unifyFrom_other hc, ih false]

theorem rdropWhile_append {p : Char → Bool} (a b : List Char) : (a ++ b).rdropWhile p =
    if b.rdropWhile p = [] then a.rdropWhile p else a ++ b.rdropWhile p := by
  induction b using List.reverseRecOn with
  | nil => rw [List.append_nil, List.rdropWhile_nil, if_pos rfl]
  | append_singleton b c ih =>
    rw [← List.append_assoc, List.rdropWhile_concat, List.rdropWhile_concat]
    split
    · exact ih
    · rw [if_neg (List.append_ne_nil_of_right_ne_nil _ (List.cons_ne_nil _ _)), List.append_assoc]

theorem cut_separator (a : List Char) :
    (a ++ [separator]).rdropWhile (· = separator) = a.rdropWhile (· = separator) := by
  rw [List.rdropWhile_concat]
  exact if_pos (decide_eq_true rfl)

theorem endsIn_concat (after : Bool) (a : List Char) (c : Char) :
    endsIn after (a ++ [c]) = isSeparator c := by
  rw [endsIn, List.getLast?_append_cons]
  rfl

/-- At most one separator is cut off the end. -/
theorem unifyFrom_eq (a : List Char) : unifyFrom false a =
    unify a ++ if endsIn false a then [separator] else [] := by
  induction a using List.reverseRecOn with
  | nil => rfl
  | append_singleton a c ih =>
    rw [unify, unifyFrom_append, endsIn_concat]
    cases hc : isSeparator c with
    | true =>
      rw [unifyFrom_separator hc, unifyFrom_nil, List.append_nil]
      cases hends : endsIn false a with
      | true =>
        rw [hends] at ih
        rw [if_pos rfl, List.append_nil]
        exact ih
      | false =>
        rw [hends, if_neg Bool.false_ne_true, List.append_nil] at ih
        rw [if_neg Bool.false_ne_true, cut_separator]
        change _ = unify a ++ _
        rw [ih]
        rfl
    | false =>
      have hne : ¬ decide (c = separator) = true := by
        intro h
        rw [of_decide_eq_true h] at hc
        exact absurd hc (by decide)
      rw [unifyFrom_other hc, unifyFrom_nil, List.rdropWhile_concat, if_neg hne,
        if_neg Bool.false_ne_true, List.append_nil]

theorem unify_unify (a : List Char) : unify (unify a) = unify a := by
  have hwhole := unifyFrom_again false a
  rw [unifyFrom_eq a, unifyFrom_append] at hwhole
  have hlength := congrArg List.length hwhole
  rw [List.length_append, List.length_append] at hlength
  have hfirst := length_unifyFrom false (unify a)
  have hsecond := length_unifyFrom (endsIn false (unify a)) (if endsIn false a then [separator] else [])
  have hstable := (List.append_inj hwhole (by omega)).1
  rw [unify, hstable]
  exact List.rdropWhile_idempotent _ _

theorem length_unify (a : List Char) : (unify a).length ≤ a.length :=
  ((List.rdropWhile_prefix _ _).length_le).trans (length_unifyFrom false a)

/-- A relative path, unified and without separators at its front. -/
def piece (relative : List Char) : List Char := (unify relative).dropWhile (· = separator)

theorem head_unifyFrom (a : List Char) : (unifyFrom true a).head? ≠ some separator := by
  induction a with
  | nil => exact nofun
  | cons c a ih =>
    cases hc : isSeparator c with
    | true =>
      rw [unifyFrom_separator hc]
      exact ih
    | false =>
      rw [unifyFrom_other hc]
      rintro h
      rw [Option.some.inj h] at hc
      exact absurd hc (by decide)

theorem dropWhile_of_head {a : List Char} (h : a.head? ≠ some separator) :
    a.dropWhile (· = separator) = a := by
  cases a with
  | nil => rfl
  | cons c a =>
    have hc : ¬ decide (c = separator) = true := fun hc ↦ h (congrArg some (of_decide_eq_true hc))
    rw [List.dropWhile_cons, if_neg hc]

theorem head_rdropWhile {a : List Char} (h : a.head? ≠ some separator) :
    (a.rdropWhile (· = separator)).head? ≠ some separator := by
  intro hc
  refine h ?_
  obtain ⟨rest, hrest⟩ := List.head?_eq_some_iff.mp hc
  obtain ⟨more, hmore⟩ := List.rdropWhile_prefix (· = separator) a
  rw [← hmore, hrest]
  rfl

theorem piece_eq (a : List Char) :
    piece a = (unifyFrom true a).rdropWhile (· = separator) := by
  cases a with
  | nil => rfl
  | cons c a =>
    cases hc : isSeparator c with
    | false =>
      have hsame : unifyFrom true (c :: a) = unifyFrom false (c :: a) := by
        rw [unifyFrom_other hc, unifyFrom_other hc]
      rw [piece, hsame]
      exact dropWhile_of_head (head_rdropWhile (hsame ▸ head_unifyFrom (c :: a)))
    | true =>
      rw [piece, unify, unifyFrom_separator hc, unifyFrom_separator hc]
      change ((separator :: unifyFrom true a).rdropWhile (· = separator)).dropWhile
        (· = separator) = (unifyFrom true a).rdropWhile (· = separator)
      have hhead := head_rdropWhile (head_unifyFrom a)
      have hsplit := rdropWhile_append (p := (· = separator)) [separator] (unifyFrom true a)
      rw [List.singleton_append] at hsplit
      rw [hsplit]
      split
      · rename_i hnil
        rw [hnil]
        rfl
      · rw [List.singleton_append, List.dropWhile_cons, if_pos (decide_eq_true rfl)]
        exact dropWhile_of_head hhead

theorem unifyFrom_concat_separator (a rel : List Char) :
    unifyFrom false (a ++ separator :: rel) = unify a ++ separator :: unifyFrom true rel := by
  have hsep : isSeparator separator = true := by decide
  rw [unifyFrom_append, unifyFrom_separator hsep, unifyFrom_eq]
  cases endsIn false a with
  | true => rw [if_pos rfl, if_pos rfl, List.append_assoc, List.nil_append]; rfl
  | false => rw [if_neg Bool.false_ne_true, if_neg Bool.false_ne_true, List.append_nil]; rfl

/-- A relative path behind another one. -/
theorem unify_append_separator (a rel : List Char) : unify (a ++ separator :: rel) =
    if piece rel = [] then unify a else unify a ++ separator :: piece rel := by
  have hcut : (unify a).rdropWhile (· = separator) = unify a := List.rdropWhile_idempotent _ _
  have hcut' : (unify a ++ [separator]).rdropWhile (· = separator) = unify a :=
    (cut_separator _).trans hcut
  rw [unify, unifyFrom_concat_separator, piece_eq, List.append_cons, rdropWhile_append]
  split
  · exact hcut'
  · rw [List.append_assoc]
    rfl

/-- What stands behind a separator in a unified path is unified. -/
theorem piece_of_unified {a rel : List Char} (h : unify (a ++ separator :: rel) = a ++ separator :: rel) :
    unify a = a ∧ piece rel = rel ∧ rel ≠ [] := by
  rw [unify_append_separator] at h
  have hfirst := length_unify a
  have hsecond : (piece rel).length ≤ rel.length :=
    ((List.dropWhile_suffix _).length_le).trans (length_unify rel)
  have hlength := congrArg List.length h
  split at h
  · rename_i hnil
    rw [if_pos hnil, List.length_append, List.length_cons] at hlength
    omega
  · rename_i hne
    rw [if_neg hne, List.length_append, List.length_append, List.length_cons,
      List.length_cons] at hlength
    obtain ⟨hleft, hright⟩ := List.append_inj h (by omega)
    have hpiece := (List.cons.inj hright).2
    exact ⟨hleft, hpiece, hpiece ▸ hne⟩

theorem simple_separator (hc : Conform tables) {c : Char} :
    isSeparator (tables.simple c) = isSeparator c := by
  rw [Bool.eq_iff_iff, isSeparator_iff, isSeparator_iff, hc.separator.simple c, hc.slash.simple c]

theorem map_unifyFrom (hc : Conform tables) (after : Bool) (a : List Char) :
    (unifyFrom after a).map tables.simple = unifyFrom after (a.map tables.simple) := by
  have hsep : tables.simple separator = separator := (hc.separator.simple separator).mpr rfl
  induction a generalizing after with
  | nil => rfl
  | cons c a ih =>
    rw [List.map_cons]
    cases hs : isSeparator c with
    | true =>
      rw [unifyFrom_separator hs, unifyFrom_separator ((simple_separator hc).trans hs),
        List.map_append, ih true]
      cases after with
      | true => rfl
      | false => exact congrArg (· :: _) hsep
    | false =>
      rw [unifyFrom_other hs, unifyFrom_other ((simple_separator hc).trans hs), List.map_cons,
        ih false]

theorem map_unify (hc : Conform tables) (a : List Char) :
    (unify a).map tables.simple = unify (a.map tables.simple) := by
  rw [unify, unify, ← map_unifyFrom hc]
  induction unifyFrom false a using List.reverseRecOn with
  | nil => rfl
  | append_singleton l c ih =>
    rw [List.rdropWhile_concat, List.map_append, List.map_singleton, List.rdropWhile_concat]
    have hiff : decide (c = separator) = decide (tables.simple c = separator) :=
      decide_eq_decide.mpr (hc.separator.simple c).symm
    rw [← hiff]
    split
    · exact ih
    · rw [List.map_append, List.map_singleton]

theorem Respelled.append_left (x : List Char) (h : Respelled tables a b) :
    Respelled tables (x ++ a) (x ++ b) := by
  induction h with
  | refl a => exact .refl _
  | symm _ ih => exact ih.symm
  | trans _ _ ih ih' => exact ih.trans ih'
  | cased a b hcd =>
    rw [← List.append_assoc, ← List.append_assoc]
    exact .cased _ _ hcd
  | slash a b =>
    rw [← List.append_assoc, ← List.append_assoc]
    exact .slash _ _
  | doubled a b =>
    rw [← List.append_assoc, ← List.append_assoc]
    exact .doubled _ _
  | trailing a =>
    rw [← List.append_assoc]
    exact .trailing _

theorem Respelled.cons (c : Char) (h : Respelled tables a b) :
    Respelled tables (c :: a) (c :: b) := h.append_left [c]

theorem respelled_unifyFrom (after : Bool) (a : List Char) :
    Respelled tables ((if after then [separator] else []) ++ a)
      ((if after then [separator] else []) ++ unifyFrom after a) := by
  induction a generalizing after with
  | nil => exact .refl _
  | cons c a ih =>
    cases hs : isSeparator c with
    | false =>
      rw [unifyFrom_other hs]
      exact ((ih false).cons c).append_left _
    | true =>
      have hslash : Respelled tables (c :: a) (separator :: a) := by
        rcases isSeparator_iff.mp hs with rfl | rfl
        · exact .refl _
        · exact .slash [] a
      rw [unifyFrom_separator hs]
      refine (hslash.append_left _).trans ?_
      cases after with
      | true => exact (Respelled.doubled [] a).trans (ih true)
      | false => exact ih true

theorem respelled_unify (a : List Char) : Respelled tables a (unify a) := by
  refine (respelled_unifyFrom false a).trans ?_
  change Respelled tables (unifyFrom false a) (unify a)
  rw [unifyFrom_eq]
  split
  · exact .trailing _
  · rw [List.append_nil]
    exact .refl _

theorem respelled_of_map (h : a.map tables.simple = b.map tables.simple) :
    Respelled tables a b := by
  induction a generalizing b with
  | nil =>
    rw [List.map_eq_nil_iff.mp h.symm]
    exact .refl _
  | cons c a ih =>
    obtain ⟨d, b', rfl, hd, hb⟩ := List.map_eq_cons_iff.mp h.symm
    exact (Respelled.cased [] a hd.symm).trans ((ih hb.symm).cons d)

/-- Two texts spell one path exactly if they are unified to the same up to the case of letters. -/
theorem respelled_iff (hc : Conform tables) : Respelled tables a b ↔
    (unify a).map tables.simple = (unify b).map tables.simple := by
  constructor
  · intro h
    have hsep : isSeparator separator = true := by decide
    induction h with
    | refl a => rfl
    | symm _ ih => exact ih.symm
    | trans _ _ ih ih' => exact ih.trans ih'
    | cased a b hcd =>
      rw [map_unify hc, map_unify hc, List.map_append, List.map_append, List.map_cons,
        List.map_cons, hcd]
    | slash a b =>
      rw [unify, unify, unifyFrom_append, unifyFrom_append,
        unifyFrom_separator (show isSeparator '/' = true by decide), unifyFrom_separator hsep]
    | doubled a b =>
      rw [unify, unify, unifyFrom_append, unifyFrom_append, unifyFrom_separator hsep,
        unifyFrom_separator hsep, unifyFrom_separator hsep]
      rfl
    | trailing a =>
      have hnil : piece [] = [] := rfl
      rw [unify_append_separator, if_pos hnil]
  · intro h
    exact (respelled_unify a).trans ((respelled_of_map h).trans (respelled_unify b).symm)

end Spellings

section Roots

variable {tables : Tables} {root p q : List Char}

/-- A path lies under a root: it is a spelling of the root with something behind it. -/
def Lies (tables : Tables) (root p : List Char) : Prop :=
  ∃ rel, Respelled tables (withoutLongPrefix p) (withoutLongPrefix root ++ separator :: rel)

/-- Where two texts both have a character the two are the dotted letter together. -/
def DotAligned : List Char → List Char → Prop
  | c :: a, d :: b => (c = dottedI ↔ d = dottedI) ∧ DotAligned a b
  | _, _ => True

instance decidableDotAligned : (a b : List Char) → Decidable (DotAligned a b)
  | [], _ => isTrue trivial
  | _ :: _, [] => isTrue trivial
  | c :: a, d :: b =>
    have := decidableDotAligned a b
    inferInstanceAs (Decidable ((c = dottedI ↔ d = dottedI) ∧ DotAligned a b))

/-- A full path as it is compared. -/
def normal (path : List Char) : List Char := unify (withoutLongPrefix path)

/-- What a path has behind its root. -/
def relPart (root p : List Char) : List Char := (normal p).drop ((normal root).length + 1)

/-- The key a callback finds for a full path. -/
def keyAt (tables : Tables) (root p : List Char) : Option PathKey :=
  (relativeToRoot tables root p).map (PathKey.fromRelative tables)

/-- The dotted letter stands in the same places of both paths and of the root, and so does a sigma
at the end of a word behind the root. -/
def Plain (tables : Tables) (root p q : List Char) : Prop :=
  DotAligned (normal root) (normal p) ∧ DotAligned (normal root) (normal q) ∧
    Aligned (marks tables [] (relPart root p)) (marks tables [] (relPart root q))

theorem rest_iff {w v more : List Char} : rest tables w v = some more ↔
    (∃ w', v = w' ++ more ∧ w'.map tables.simple = w.map tables.simple) ∧ DotAligned w v := by
  induction w generalizing v with
  | nil =>
    rw [rest, Option.some_inj]
    constructor
    · rintro rfl
      exact ⟨⟨[], rfl, rfl⟩, trivial⟩
    · rintro ⟨⟨w', rfl, hw⟩, -⟩
      rw [List.map_eq_nil_iff.mp hw]
      rfl
  | cons c w ih =>
    cases v with
    | nil =>
      rw [rest]
      refine iff_of_false nofun ?_
      rintro ⟨⟨w', hw, hmap⟩, -⟩
      rw [(List.append_eq_nil_iff.mp hw.symm).1] at hmap
      cases hmap
    | cons d v =>
      rw [rest]
      constructor
      · intro h
        split at h
        · rename_i heq
          obtain ⟨hsimple, hdotted⟩ := equalWithoutCase_iff.mp heq
          obtain ⟨⟨w', rfl, hmap⟩, haligned⟩ := ih.mp h
          refine ⟨⟨d :: w', rfl, ?_⟩, hdotted, haligned⟩
          rw [List.map_cons, List.map_cons, hmap, hsimple]
        · cases h
      · rintro ⟨⟨w', hw, hmap⟩, hdotted, haligned⟩
        obtain ⟨d', w', rfl, hd, hbehind⟩ := List.map_eq_cons_iff.mp hmap
        obtain ⟨rfl, rfl⟩ := List.cons.inj hw
        rw [if_pos (equalWithoutCase_iff.mpr ⟨hd.symm, hdotted⟩)]
        exact ih.mpr ⟨⟨w', rfl, hbehind⟩, haligned⟩

/-- A path lies under a root exactly if it begins with it up to the case of letters and ends there
or goes on behind a separator. -/
theorem lies_iff (hc : Conform tables) : Lies tables root p ↔
    ∃ w, w.map tables.simple = (normal root).map tables.simple ∧
      (normal p = w ∨ ∃ r, normal p = w ++ separator :: r) := by
  have hsep : tables.simple separator = separator := (hc.separator.simple separator).mpr rfl
  unfold Lies normal
  constructor
  · rintro ⟨rel, h⟩
    have hmap := (respelled_iff hc).mp h
    rw [unify_append_separator] at hmap
    split at hmap
    · exact ⟨_, hmap, .inl rfl⟩
    · rw [List.map_append, List.map_cons, hsep] at hmap
      obtain ⟨w, v, hv, hw, hr⟩ := List.map_eq_append_iff.mp hmap
      obtain ⟨c, r, rfl, hcsep, -⟩ := List.map_eq_cons_iff.mp hr
      rw [(hc.separator.simple c).mp hcsep] at hv
      exact ⟨w, hw, .inr ⟨r, hv⟩⟩
  · rintro ⟨w, hw, hv | ⟨r, hv⟩⟩
    · refine ⟨[], (respelled_iff hc).mpr ?_⟩
      have hnil : piece [] = [] := rfl
      rw [unify_append_separator, if_pos hnil, hv]
      exact hw
    · refine ⟨r, (respelled_iff hc).mpr ?_⟩
      have hunified := unify_unify (withoutLongPrefix p)
      rw [hv] at hunified ⊢
      obtain ⟨-, hpiece, hne⟩ := piece_of_unified hunified
      rw [unify_append_separator, hpiece, if_neg hne, List.map_append, List.map_append, hw]

/-- A path under the root, and what it has behind it. -/
theorem normal_eq (hc : Conform tables) (h : Lies tables root p) :
    ∃ w, w.map tables.simple = (normal root).map tables.simple ∧
      (normal p = w ∧ relPart root p = [] ∨
        normal p = w ++ separator :: relPart root p ∧ relPart root p ≠ [] ∧
          piece (relPart root p) = relPart root p) := by
  obtain ⟨w, hw, hv | ⟨r, hv⟩⟩ := (lies_iff hc).mp h
  · have hlength : w.length = (normal root).length := by
      rw [← List.length_map tables.simple, hw, List.length_map]
    refine ⟨w, hw, .inl ⟨hv, ?_⟩⟩
    rw [relPart, hv, ← hlength]
    exact List.drop_of_length_le (Nat.le_succ _)
  · have hlength : w.length = (normal root).length := by
      rw [← List.length_map tables.simple, hw, List.length_map]
    have hrel : relPart root p = r := by
      rw [relPart, hv, ← hlength, List.append_cons]
      exact List.drop_left' (by rw [List.length_append]; rfl)
    have hunified : unify (normal p) = normal p := unify_unify _
    rw [hv] at hunified
    obtain ⟨-, hpiece, hne⟩ := piece_of_unified hunified
    exact ⟨w, hw, .inr ⟨by rw [hrel]; exact hv, hrel ▸ hne, hrel ▸ hpiece⟩⟩

/-- What lies under the root is found there exactly if it has the dotted letter where the root has
it. -/
theorem relativeToRoot_iff (hc : Conform tables) (h : Lies tables root p) {r : List Char} :
    relativeToRoot tables root p = some r ↔
      DotAligned (normal root) (normal p) ∧ r = relPart root p := by
  have hunfold : relativeToRoot tables root p =
      (rest tables (normal root) (normal p)).bind fun more ↦
        if more.isEmpty then some [] else strip [separator] more := rfl
  have hwhole : ∃ more, (∃ w, normal p = w ++ more ∧
      w.map tables.simple = (normal root).map tables.simple) ∧
        (if more.isEmpty then some [] else strip [separator] more) = some (relPart root p) := by
    obtain ⟨w, hw, ⟨hv, hnil⟩ | ⟨hv, -, -⟩⟩ := normal_eq hc h
    · exact ⟨[], ⟨w, hv.trans (List.append_nil w).symm, hw⟩, congrArg some hnil.symm⟩
    · exact ⟨separator :: relPart root p, ⟨w, hv, hw⟩,
        (if_neg Bool.false_ne_true).trans (strip_eq_some_iff.mpr rfl)⟩
  obtain ⟨more, ⟨w, hv, hw⟩, hstrip⟩ := hwhole
  rw [hunfold]
  constructor
  · intro hfound
    obtain ⟨other, hother, hr⟩ := Option.bind_eq_some_iff.mp hfound
    obtain ⟨⟨w', hv', hw'⟩, haligned⟩ := rest_iff.mp hother
    have hlength : w'.length = w.length := by
      rw [← List.length_map tables.simple, hw', ← hw, List.length_map]
    obtain ⟨-, rfl⟩ := List.append_inj (hv'.symm.trans hv) hlength
    exact ⟨haligned, Option.some.inj (hr.symm.trans hstrip)⟩
  · rintro ⟨haligned, rfl⟩
    exact Option.bind_eq_some_iff.mpr ⟨more, rest_iff.mpr ⟨⟨w, hv, hw⟩, haligned⟩, hstrip⟩

/-- The key of a path under the root is the lower case of what it has behind it. -/
theorem keyAt_iff (hc : Conform tables) (h : Lies tables root p) {k : PathKey} :
    keyAt tables root p = some k ↔
      DotAligned (normal root) (normal p) ∧ k = ⟨lowercase tables (relPart root p)⟩ := by
  have hkey : PathKey.fromRelative tables (relPart root p) =
      ⟨lowercase tables (relPart root p)⟩ := by
    have hpiece : piece (relPart root p) = relPart root p := by
      obtain ⟨w, -, ⟨-, hnil⟩ | ⟨-, -, hpiece⟩⟩ := normal_eq hc h
      · rw [hnil]
        rfl
      · exact hpiece
    exact congrArg (fun text ↦ PathKey.mk (lowercase tables text)) hpiece
  rw [keyAt, Option.map_eq_some_iff]
  constructor
  · rintro ⟨r, hr, rfl⟩
    obtain ⟨haligned, rfl⟩ := (relativeToRoot_iff hc h).mp hr
    exact ⟨haligned, hkey⟩
  · rintro ⟨haligned, rfl⟩
    exact ⟨_, (relativeToRoot_iff hc h).mpr ⟨haligned, rfl⟩, hkey⟩

theorem respelled_iff_relPart (hc : Conform tables) (hp : Lies tables root p)
    (hq : Lies tables root q) :
    Respelled tables (withoutLongPrefix p) (withoutLongPrefix q) ↔
      (relPart root p).map tables.simple = (relPart root q).map tables.simple := by
  rw [respelled_iff hc]
  change (normal p).map tables.simple = (normal q).map tables.simple ↔ _
  obtain ⟨w, hw, ⟨hv, hnil⟩ | ⟨hv, hne, -⟩⟩ := normal_eq hc hp
  · obtain ⟨w', hw', ⟨hv', hnil'⟩ | ⟨hv', hne', -⟩⟩ := normal_eq hc hq
    · rw [hv, hv', hw, hw', hnil, hnil']
      exact iff_of_true rfl rfl
    · rw [hv, hv', hw, List.map_append, hw', hnil, List.map_nil]
      refine iff_of_false ?_ fun h ↦ hne' (List.map_eq_nil_iff.mp h.symm)
      exact fun h ↦ absurd (List.self_eq_append_right.mp h) (by simp)
  · obtain ⟨w', hw', ⟨hv', hnil'⟩ | ⟨hv', -, -⟩⟩ := normal_eq hc hq
    · rw [hv, hv', hw', List.map_append, hw, hnil', List.map_nil]
      refine iff_of_false ?_ fun h ↦ hne (List.map_eq_nil_iff.mp h)
      exact fun h ↦ absurd (List.append_right_eq_self.mp h) (by simp)
    · rw [hv, hv', List.map_append, List.map_append, hw, hw', List.append_cancel_left_eq,
        List.map_cons, List.map_cons, List.cons.injEq, and_iff_right rfl]

/-- The paths under a root share a key and are spellings of one path together, exactly if the
letters whose lower case is not their own stand alike in them. -/
theorem one_key_iff (hc : Conform tables) (hp : Lies tables root p) (hq : Lies tables root q)
    (h : Respelled tables (withoutLongPrefix p) (withoutLongPrefix q) ∨
      ∃ k, keyAt tables root p = some k ∧ keyAt tables root q = some k) :
    (Respelled tables (withoutLongPrefix p) (withoutLongPrefix q) ↔
      ∃ k, keyAt tables root p = some k ∧ keyAt tables root q = some k) ↔
        Plain tables root p q := by
  have hkeys : (∃ k, keyAt tables root p = some k ∧ keyAt tables root q = some k) ↔
      DotAligned (normal root) (normal p) ∧ DotAligned (normal root) (normal q) ∧
        lowercase tables (relPart root p) = lowercase tables (relPart root q) := by
    constructor
    · rintro ⟨k, hk, hk'⟩
      obtain ⟨haligned, rfl⟩ := (keyAt_iff hc hp).mp hk
      obtain ⟨haligned', heq⟩ := (keyAt_iff hc hq).mp hk'
      exact ⟨haligned, haligned', PathKey.mk.inj heq⟩
    · rintro ⟨haligned, haligned', heq⟩
      exact ⟨_, (keyAt_iff hc hp).mpr ⟨haligned, rfl⟩,
        (keyAt_iff hc hq).mpr ⟨haligned', congrArg PathKey.mk heq⟩⟩
  rw [respelled_iff_relPart hc hp hq, hkeys] at h ⊢
  constructor
  · intro hiff
    have hsame := h.elim id hiff.mpr
    obtain ⟨haligned, haligned', heq⟩ := hiff.mp hsame
    exact ⟨haligned, haligned', (agree_iff hc.lawful (.inl hsame)).mp (iff_of_true hsame heq)⟩
  · rintro ⟨haligned, haligned', hmarks⟩
    have hagree := (agree_iff hc.lawful (h.imp_right fun h ↦ h.2.2)).mpr hmarks
    rw [hagree]
    exact ⟨fun heq ↦ ⟨haligned, haligned', heq⟩, fun h ↦ h.2.2⟩

end Roots

section Order

variable {tables : Tables} {a : List Char}

/-- A text without separators at its edges and without two of them in one place is made of its
segments. -/
theorem clean_of {text : List Char} (hhead : text.head? ≠ some separator)
    (hlast : text.getLast? ≠ some separator)
    (hmiddle : ∀ x y, text ≠ x ++ separator :: separator :: y) : Clean separator text := by
  have hwhole : joined separator (text.splitOn separator) = text := List.intercalate_splitOn _
  by_cases hnil : text = []
  · rw [hnil]
    rfl
  have hparts : ∀ part ∈ text.splitOn separator, part ≠ [] := by
    rintro part hmem rfl
    obtain ⟨before, after, hsplit⟩ := List.append_of_mem hmem
    rw [hsplit] at hwhole
    by_cases hb : before = []
    · by_cases ha : after = []
      · rw [hb, ha] at hwhole
        exact hnil hwhole.symm
      · rw [hb, List.nil_append, joined_cons ha] at hwhole
        exact hhead (by rw [← hwhole]; rfl)
    · rw [joined_append hb (List.cons_ne_nil _ _)] at hwhole
      by_cases ha : after = []
      · rw [ha, joined_singleton] at hwhole
        exact hlast (by rw [← hwhole, List.getLast?_append_cons]; rfl)
      · rw [joined_cons ha] at hwhole
        exact hmiddle _ _ hwhole.symm
  have hfilter : segments separator text = text.splitOn separator :=
    List.filter_eq_self.mpr fun part hpart ↦ decide_eq_true (hparts part hpart)
  rw [Clean, hfilter, hwhole]

theorem piece_middle (a x y : List Char) : piece a ≠ x ++ separator :: separator :: y := by
  intro h
  have hsep : isSeparator separator = true := by decide
  obtain ⟨more, hmore⟩ := List.rdropWhile_prefix (· = separator) (unifyFrom true a)
  rw [← piece_eq, h, List.append_assoc] at hmore
  have hstable := unifyFrom_again true a
  rw [← hmore, unifyFrom_append] at hstable
  have hlength := congrArg List.length hstable
  have hfirst := length_unifyFrom true x
  have hsecond := length_unifyFrom true (y ++ more)
  rw [List.cons_append, List.cons_append, unifyFrom_separator hsep, unifyFrom_separator hsep,
    if_pos rfl, List.nil_append, List.length_append, List.length_append, List.length_append,
    List.length_cons, List.length_cons] at hlength
  have hone : (if endsIn true x = true then [] else [separator]).length ≤ 1 := by
    split <;> simp
  omega

theorem clean_piece (a : List Char) : Clean separator (piece a) := by
  refine clean_of ?_ ?_ (piece_middle a)
  · rw [piece_eq]
    exact head_rdropWhile (head_unifyFrom a)
  · rw [piece_eq]
    intro h
    have hne : (unifyFrom true a).rdropWhile (· = separator) ≠ [] := by
      intro hnil
      rw [hnil] at h
      cases h
    have hlast := List.rdropWhile_last_not (· = separator) (unifyFrom true a) hne
    rw [List.getLast?_eq_some_getLast hne] at h
    exact hlast (decide_eq_true (Option.some.inj h))

theorem images_ne_nil {text : List (Char × Bool)} (h : text ≠ []) : images tables text ≠ [] := by
  obtain ⟨m, text, rfl⟩ := List.exists_cons_of_ne_nil h
  rw [images_cons]
  exact List.append_ne_nil_of_left_ne_nil image_ne_nil _

theorem images_append (x y : List (Char × Bool)) :
    images tables (x ++ y) = images tables x ++ images tables y := List.flatMap_append

theorem separator_mem_images (hc : Conform tables) {text : List (Char × Bool)} (hm : Marked text) :
    separator ∈ images tables text ↔ separator ∈ text.map Prod.fst := by
  rw [images, List.mem_flatMap, List.mem_map]
  refine exists_congr fun m ↦ and_congr_right fun hmem ↦ ?_
  exact mem_image_iff hc.separator (hm m hmem)

/-- The lower case of a text made of segments is made of segments. -/
theorem images_joined (hc : Conform tables) {parts : List (List Char)} (h : Proper separator parts)
    {text : List (Char × Bool)} (hm : Marked text)
    (htext : text.map Prod.fst = joined separator parts) :
    ∃ lower, Proper separator lower ∧ (lower = [] ↔ parts = []) ∧
      images tables text = joined separator lower := by
  induction parts generalizing text with
  | nil =>
    obtain rfl := List.map_eq_nil_iff.mp htext
    exact ⟨[], fun _ hmem ↦ absurd hmem List.not_mem_nil, Iff.rfl, rfl⟩
  | cons part parts ih =>
    obtain ⟨hne, hnot⟩ := h part List.mem_cons_self
    have hlower : ∀ x : List (Char × Bool), Marked x → x.map Prod.fst = part →
        images tables x ≠ [] ∧ separator ∉ images tables x := by
      intro x hx hpart
      refine ⟨images_ne_nil ?_, ?_⟩
      · rintro rfl
        exact hne hpart.symm
      · rw [separator_mem_images hc hx, hpart]
        exact hnot
    by_cases hp : parts = []
    · rw [hp, joined_singleton] at htext
      refine ⟨[images tables text], ?_, by simp, (joined_singleton _).symm⟩
      intro p hmem
      rw [List.mem_singleton.mp hmem]
      exact hlower text hm htext
    · rw [joined_cons hp] at htext
      obtain ⟨first, others, rfl, hfirst, hothers⟩ := List.map_eq_append_iff.mp htext
      obtain ⟨m, others, rfl, hsep, hrest⟩ := List.map_eq_cons_iff.mp hothers
      have hmark : Marked first := fun x hx ↦ hm x (List.mem_append_left _ hx)
      have hmark' : Marked others :=
        fun x hx ↦ hm x (List.mem_append_right _ (List.mem_cons_of_mem _ hx))
      have hone : image tables m = [separator] := image_of_keeps hc.separator
        (hm m (List.mem_append_right _ List.mem_cons_self)) hsep
      obtain ⟨lower, hproper, hnil, hjoined⟩ :=
        ih (fun p hmem ↦ h p (List.mem_cons_of_mem _ hmem)) hmark' hrest
      refine ⟨images tables first :: lower, ?_, by simp, ?_⟩
      · intro p hmem
        rcases List.mem_cons.mp hmem with rfl | hmem
        · exact hlower first hmark hfirst
        · exact hproper p hmem
      · rw [joined_cons (fun h ↦ hp (hnil.mp h)), images_append, images_cons, hone, hjoined]
        rfl

theorem clean_key (hc : Conform tables) (relative : List Char) :
    Clean separator (PathKey.fromRelative tables relative).text := by
  obtain ⟨lower, hproper, -, hjoined⟩ := images_joined hc (proper_segments (piece relative))
    (@marked_marks tables [] (piece relative))
    ((map_fst_marks [] _).trans (clean_piece relative).symm)
  change Clean separator (images tables (marks tables [] (piece relative)))
  rw [hjoined]
  exact clean_joined hproper

theorem isBelow_eq (key top : PathKey) : key.isBelow top = true ↔
    top.text = [] ∨ key.text = top.text ∨ ∃ rest, key.text = top.text ++ separator :: rest := by
  rw [PathKey.isBelow, Bool.or_eq_true, Bool.or_eq_true, List.isEmpty_iff, decide_eq_true_eq,
    or_assoc, Option.any_eq_true]
  refine or_congr_right (or_congr_right ?_)
  constructor
  · rintro ⟨rest, hstrip, hhead⟩
    obtain ⟨more, rfl⟩ := List.head?_eq_some_iff.mp (of_decide_eq_true hhead)
    exact ⟨more, strip_eq_some_iff.mp hstrip⟩
  · rintro ⟨rest, hrest⟩
    exact ⟨separator :: rest, strip_eq_some_iff.mpr hrest, decide_eq_true rfl⟩

/-- Keys lie below one another as their segments begin with one another. -/
theorem isBelow_iff (hc : Conform tables) (a top : List Char) :
    (PathKey.fromRelative tables a).isBelow (.fromRelative tables top) = true ↔
      segments separator (PathKey.fromRelative tables top).text <+:
        segments separator (PathKey.fromRelative tables a).text :=
  (isBelow_eq _ _).trans (prefix_iff (clean_key hc a) (clean_key hc top))

end Order

section Expectations

variable {tables : Tables} {list : Exemptions} {alive : List Expectation} {n : ℕ}

/-- What an expectation covers: its own path, and with a subtree what lies below it. -/
def Covers (tables : Tables) (e : Expectation) (relative : List Char) : Prop :=
  match e.scope with
  | .exactly => Respelled tables (separator :: relative) (separator :: e.relative)
  | .subtree => ∃ more,
      Respelled tables (separator :: relative) (separator :: e.relative ++ separator :: more)

/-- Expectations that are announced and dropped, with those that are alive and how many there
were. -/
inductive Run (tables : Tables) : Exemptions → List Expectation → ℕ → Prop
  | new : Run tables .new [] 0
  | announced {list : Exemptions} {alive : List Expectation} {n : ℕ} (relative : List Char)
      (scope : Scope) : Run tables list alive n →
      Run tables (list.expect tables relative scope).2
        (alive ++ [(list.expect tables relative scope).1]) (n + 1)
  | dropped {list : Exemptions} {before after : List Expectation} {e : Expectation} {n : ℕ} :
      Run tables list (before ++ e :: after) n → Run tables (list.dropped e) (before ++ after) n

/-- The letters whose lower case is not their own stand alike in an announced path and in another
one. -/
def Likely (tables : Tables) (e : Expectation) (relative : List Char) : Prop :=
  Aligned (marks tables [] (piece e.relative)) (marks tables [] (piece relative))

/-- The list holds what is alive, under numbers of their own. -/
structure Kept (tables : Tables) (list : Exemptions) (alive : List Expectation) (n : ℕ) : Prop where
  entries : list.entries = alive.map fun e ↦ ⟨e.number, .fromRelative tables e.relative, e.scope⟩
  numbers : (alive.map Expectation.number).Nodup
  below : ∀ e ∈ alive, e.number < n
  next : list.next = n % 2 ^ 64

theorem kept_of_run (h : Run tables list alive n) (hn : n ≤ 2 ^ 64) :
    Kept tables list alive n := by
  induction h with
  | new => exact ⟨rfl, .nil, fun _ hmem ↦ absurd hmem List.not_mem_nil, rfl⟩
  | @announced list alive n relative scope _ ih =>
    have hkept := ih (by omega)
    have hnext : list.next = n := by
      rw [hkept.next]
      exact Nat.mod_eq_of_lt (by omega)
    refine ⟨?_, ?_, ?_, ?_⟩
    · change list.entries ++ _ = _
      rw [hkept.entries, List.map_append]
      rfl
    · rw [List.map_append]
      refine List.nodup_append.mpr ⟨hkept.numbers, List.nodup_singleton _, ?_⟩
      intro number hnumber other hother heq
      obtain ⟨e, hmem, rfl⟩ := List.mem_map.mp hnumber
      have hlt := hkept.below e hmem
      rw [List.mem_singleton.mp hother] at heq
      exact absurd (heq.trans hnext) (by omega)
    · intro e hmem
      rcases List.mem_append.mp hmem with hmem | hmem
      · exact (hkept.below e hmem).trans (Nat.lt_succ_self n)
      · rw [List.mem_singleton.mp hmem]
        change list.next < n + 1
        omega
    · change (list.next + 1) % 2 ^ 64 = (n + 1) % 2 ^ 64
      rw [hnext]
  | @dropped list before after e n _ ih =>
    have hkept := ih hn
    obtain ⟨hentries, hnumbers, hbelow, hnext⟩ := hkept
    rw [List.map_append, List.map_cons] at hnumbers
    have hother : ∀ x ∈ before ++ after, x.number ≠ e.number := by
      intro x hx heq
      have hmiddle := (List.perm_middle.nodup_iff.mp hnumbers)
      refine (List.nodup_cons.mp hmiddle).1 (heq ▸ ?_)
      rw [← List.map_append]
      exact List.mem_map_of_mem hx
    refine ⟨?_, ?_, ?_, hnext⟩
    · change list.entries.filter _ = _
      have hkeep : ∀ l : List Expectation, (∀ x ∈ l, x.number ≠ e.number) →
          (l.map fun e ↦ (⟨e.number, .fromRelative tables e.relative, e.scope⟩ : Exemption)).filter
            (fun a ↦ a.number ≠ e.number) =
          l.map fun e ↦ ⟨e.number, .fromRelative tables e.relative, e.scope⟩ := by
        intro l hl
        refine List.filter_eq_self.mpr fun a ha ↦ ?_
        obtain ⟨x, hx, rfl⟩ := List.mem_map.mp ha
        exact decide_eq_true (hl x hx)
      rw [hentries, List.map_append, List.map_cons, List.filter_append, List.filter_cons_of_neg,
        hkeep before fun x hx ↦ hother x (List.mem_append_left _ hx),
        hkeep after fun x hx ↦ hother x (List.mem_append_right _ hx), List.map_append]
      simp
    · rw [List.map_append]
      exact (List.nodup_cons.mp (List.perm_middle.nodup_iff.mp hnumbers)).2
    · intro x hx
      refine hbelow x ?_
      rcases List.mem_append.mp hx with hx | hx
      · exact List.mem_append_left _ hx
      · exact List.mem_append_right _ (List.mem_cons_of_mem _ hx)

theorem respelled_separator_iff (hc : Conform tables) {a b : List Char} :
    Respelled tables (separator :: a) (separator :: b) ↔
      (piece a).map tables.simple = (piece b).map tables.simple := by
  have hfront : ∀ x : List Char, unify (separator :: x) =
      if piece x = [] then [] else separator :: piece x := fun x ↦ unify_append_separator [] x
  rw [respelled_iff hc, hfront, hfront]
  split
  · rename_i ha
    rw [ha]
    split
    · rename_i hb
      rw [hb]
    · rename_i hb
      refine iff_of_false nofun fun h ↦ hb (List.map_eq_nil_iff.mp h.symm)
  · rename_i ha
    split
    · rename_i hb
      rw [hb]
      refine iff_of_false nofun fun h ↦ ha (List.map_eq_nil_iff.mp h)
    · rw [List.map_cons, List.map_cons, List.cons.injEq, and_iff_right rfl]

theorem subtree_iff (hc : Conform tables) {r top : List Char} :
    (∃ more, Respelled tables (separator :: r) (separator :: top ++ separator :: more)) ↔
      piece top = [] ∨ (piece r).map tables.simple = (piece top).map tables.simple ∨
        ∃ rest, (piece r).map tables.simple =
          (piece top).map tables.simple ++ separator :: rest := by
  have hsep : tables.simple separator = separator := (hc.separator.simple separator).mpr rfl
  have hfront : ∀ x : List Char, unify (separator :: x) =
      if piece x = [] then [] else separator :: piece x := fun x ↦ unify_append_separator [] x
  have hbehind : ∀ more, unify (separator :: top ++ separator :: more) =
      if piece more = [] then unify (separator :: top)
      else unify (separator :: top) ++ separator :: piece more :=
    fun more ↦ unify_append_separator (separator :: top) more
  constructor
  · rintro ⟨more, h⟩
    by_cases htop : piece top = []
    · exact .inl htop
    refine .inr ?_
    by_cases hmore : piece more = []
    · refine .inl ((respelled_separator_iff hc).mp ((respelled_iff hc).mpr ?_))
      rw [(respelled_iff hc).mp h, hbehind, if_pos hmore]
    · have hmap := (respelled_iff hc).mp h
      rw [hbehind, if_neg hmore, hfront, hfront, if_neg htop] at hmap
      split at hmap
      · cases hmap
      · rw [List.cons_append, List.map_cons, List.map_cons, List.map_append, List.map_cons,
          hsep] at hmap
        exact .inr ⟨_, (List.cons.inj hmap).2⟩
  · rintro (htop | hsame | ⟨rest, hrest⟩)
    · refine ⟨r, (respelled_iff hc).mpr ?_⟩
      rw [hbehind, hfront, hfront, if_pos htop]
      split <;> rfl
    · refine ⟨[], (respelled_iff hc).mpr ?_⟩
      have hnil : piece [] = [] := rfl
      rw [hbehind, if_pos hnil]
      exact (respelled_iff hc).mp ((respelled_separator_iff hc).mpr hsame)
    · obtain ⟨w, v, hr, hw, hv⟩ := List.map_eq_append_iff.mp hrest
      obtain ⟨c, more, rfl, hcsep, -⟩ := List.map_eq_cons_iff.mp hv
      obtain rfl := (hc.separator.simple c).mp hcsep
      have hne : piece r ≠ [] := by
        rw [hr]
        exact List.append_ne_nil_of_right_ne_nil _ (List.cons_ne_nil _ _)
      have hunified := unify_unify (separator :: r)
      rw [hfront, if_neg hne, hr] at hunified
      obtain ⟨-, hpiece, hmore⟩ := @piece_of_unified (separator :: w) more hunified
      by_cases htop : piece top = []
      · refine ⟨r, (respelled_iff hc).mpr ?_⟩
        rw [hbehind, hfront, hfront, if_pos htop]
        split <;> rfl
      · refine ⟨more, (respelled_iff hc).mpr ?_⟩
        rw [hbehind, hpiece, if_neg hmore, hfront, hfront, if_neg hne, if_neg htop, hr,
          List.cons_append, List.map_cons, List.map_cons, List.map_append, List.map_append, hw]

theorem aligned_left {x y z : List (Char × Bool)} (h : Aligned x (y ++ z)) : Aligned x y := by
  induction x generalizing y with
  | nil => cases y <;> exact trivial
  | cons m x ih =>
    cases y with
    | nil => exact trivial
    | cons n y => exact ⟨h.1, ih h.2⟩

/-- One lower case goes on behind another one at a separator as the texts do. -/
theorem goes_on_iff (hc : Conform tables) {x y : List (Char × Bool)} (hx : Marked x)
    (hy : Marked y) (h : Aligned x y) :
    (∃ rest, images tables y = images tables x ++ separator :: rest) ↔
      ∃ rest, y.map (fun m ↦ tables.simple m.1) =
        x.map (fun m ↦ tables.simple m.1) ++ separator :: rest := by
  have hsplit : ∀ t, y.map (fun m ↦ tables.simple m.1) =
      x.map (fun m ↦ tables.simple m.1) ++ t → ∃ z, Marked z ∧
        t = z.map (fun m ↦ tables.simple m.1) ∧ images tables y = images tables x ++ images tables z := by
    intro t ht
    obtain ⟨first, z, rfl, hfirst, hz⟩ := List.map_eq_append_iff.mp ht
    have hmark : Marked first := fun m hm ↦ hy m (List.mem_append_left _ hm)
    have hsame := (@images_eq_iff tables _ _ hx hmark (aligned_left h)).mpr hfirst.symm
    exact ⟨z, fun m hm ↦ hy m (List.mem_append_right _ hm), hz.symm, by
      rw [images_append, hsame]⟩
  constructor
  · rintro ⟨rest, hrest⟩
    obtain ⟨t, ht⟩ := (prefix_of_aligned hx hy h).mp ⟨_, hrest.symm⟩
    obtain ⟨z, hz, rfl, himages⟩ := hsplit t ht.symm
    have hbehind := List.append_cancel_left (himages.symm.trans hrest)
    cases z with
    | nil => cases hbehind
    | cons m z =>
      have hmem : separator ∈ image tables m := by
        have hhead : (image tables m ++ images tables z).head? = some separator := by
          rw [← images_cons, hbehind]
          rfl
        rw [List.head?_append_of_ne_nil _ image_ne_nil] at hhead
        exact List.mem_of_head? hhead
      have hm := (mem_image_iff hc.separator (hz m List.mem_cons_self)).mp hmem
      refine ⟨z.map fun m ↦ tables.simple m.1, ?_⟩
      rw [← ht, List.map_cons, (hc.separator.simple m.1).mpr hm]
  · rintro ⟨rest, hrest⟩
    obtain ⟨z, hz, hmap, himages⟩ := hsplit _ hrest
    obtain ⟨m, z, rfl, hm, -⟩ := List.map_eq_cons_iff.mp hmap.symm
    have hone := image_of_keeps hc.separator (hz m List.mem_cons_self)
      ((hc.separator.simple m.1).mp hm)
    exact ⟨images tables z, by rw [himages, images_cons, hone]; rfl⟩

/-- Where the letters stand alike, an exemption holds for a path exactly if its expectation covers
it. -/
theorem matches_iff (hc : Conform tables) {e : Expectation} {r : List Char}
    (h : Likely tables e r) :
    (match e.scope with
      | .exactly => decide (PathKey.fromRelative tables e.relative = .fromRelative tables r)
      | .subtree => (PathKey.fromRelative tables r).isBelow (.fromRelative tables e.relative)) =
        true ↔ Covers tables e r := by
  have hx : Marked (marks tables [] (piece e.relative)) := marked_marks [] _
  have hy : Marked (marks tables [] (piece r)) := marked_marks [] _
  have hsame : images tables (marks tables [] (piece e.relative)) =
      images tables (marks tables [] (piece r)) ↔
        (piece r).map tables.simple = (piece e.relative).map tables.simple := by
    rw [images_eq_iff hx hy h, same_marks, eq_comm]
  have hkey : ∀ a, (PathKey.fromRelative tables a).text =
      images tables (marks tables [] (piece a)) := fun _ ↦ rfl
  unfold Covers
  cases e.scope with
  | exactly =>
    dsimp only
    rw [decide_eq_true_eq, respelled_separator_iff hc, ← hsame, PathKey.mk.injEq]
    rfl
  | subtree =>
    dsimp only
    have hgoes := goes_on_iff hc hx hy h
    rw [map_simple_marks, map_simple_marks] at hgoes
    rw [isBelow_eq, hkey, hkey, hgoes, eq_comm (a := images tables (marks tables [] (piece r))),
      hsame]
    refine Iff.trans ?_ (subtree_iff hc).symm
    refine or_congr_left ?_
    constructor
    · intro hnil
      by_contra hne
      refine @images_ne_nil tables _ ?_ hnil
      intro hmarks
      rw [← @map_fst_marks tables [] (piece e.relative), hmarks] at hne
      exact hne rfl
    · intro hnil
      rw [hnil]
      rfl

theorem isExpected_iff (hc : Conform tables) (hk : Kept tables list alive n) {r : List Char}
    (h : ∀ e ∈ alive, Likely tables e r) :
    list.isExpected tables r = true ↔ ∃ e ∈ alive, Covers tables e r := by
  rw [Exemptions.isExpected, hk.entries, List.any_map, List.any_eq_true]
  exact exists_congr fun e ↦ and_congr_right fun he ↦ matches_iff hc (h e he)

/-- A deletion may go ahead exactly while an expectation that covers its path is alive. -/
theorem mayDelete_iff (hc : Conform tables) (hrun : Run tables list alive n) (hn : n ≤ 2 ^ 64)
    {relative : Option (List Char)} (h : ∀ r, relative = some r → ∀ e ∈ alive, Likely tables e r) :
    list.mayDelete tables relative = true ↔
      ∃ r, relative = some r ∧ ∃ e ∈ alive, Covers tables e r := by
  rw [Exemptions.mayDelete, Option.any_eq_true]
  refine exists_congr fun r ↦ and_congr_right fun hr ↦ ?_
  exact isExpected_iff hc (kept_of_run hrun hn) (h r hr)

end Expectations

/-- A path under the root has one key under all its spellings, and another path another one, exactly
where the letters whose lower case is not their own stand alike; keys are ordered as their segments;
and where those letters stand alike, a deletion may go ahead exactly while an expectation covers its
path, and a move while both its ends are covered. -/
theorem one_key (tables : Tables) (hc : Conform tables) :
    (∀ root p q, Lies tables root p → Lies tables root q →
      (Respelled tables (withoutLongPrefix p) (withoutLongPrefix q) ∨
        ∃ k, keyAt tables root p = some k ∧ keyAt tables root q = some k) →
      ((Respelled tables (withoutLongPrefix p) (withoutLongPrefix q) ↔
        ∃ k, keyAt tables root p = some k ∧ keyAt tables root q = some k) ↔
          Plain tables root p q)) ∧
    (∀ a top, (PathKey.fromRelative tables a).isBelow (.fromRelative tables top) = true ↔
      segments separator (PathKey.fromRelative tables top).text <+:
        segments separator (PathKey.fromRelative tables a).text) ∧
    ∀ list alive n, Run tables list alive n → n ≤ 2 ^ 64 → ∀ relative other : Option (List Char),
      (∀ r, relative = some r ∨ other = some r → ∀ e ∈ alive, Likely tables e r) →
      (list.mayDelete tables relative = true ↔
        ∃ r, relative = some r ∧ ∃ e ∈ alive, Covers tables e r) ∧
      (list.mayMove tables relative other = true ↔
        (∃ r, relative = some r ∧ ∃ e ∈ alive, Covers tables e r) ∧
          ∃ r, other = some r ∧ ∃ e ∈ alive, Covers tables e r) := by
  refine ⟨fun _ _ _ hp hq h ↦ one_key_iff hc hp hq h, fun a top ↦ isBelow_iff hc a top, ?_⟩
  intro list alive n hrun hn relative other h
  have hfirst := mayDelete_iff hc hrun hn fun r hr ↦ h r (.inl hr)
  have hsecond := mayDelete_iff hc hrun hn fun r hr ↦ h r (.inr hr)
  refine ⟨hfirst, ?_⟩
  rw [Exemptions.mayMove, Bool.and_eq_true, hfirst, hsecond]

section Samples

/-- The tables as far as the samples reach: Latin and Greek letters, and the dotted letter. -/
def greek : Tables where
  simple c :=
    if 0x41 ≤ c.toNat ∧ c.toNat ≤ 0x5A ∨
        0x391 ≤ c.toNat ∧ c.toNat ≤ 0x3A9 ∧ c.toNat ≠ 0x3A2 then Char.ofNat (c.toNat + 0x20)
    else if c = dottedI then 'i' else c
  cased c := (0x41 ≤ c.toNat && c.toNat ≤ 0x5A) || (0x61 ≤ c.toNat && c.toNat ≤ 0x7A) ||
    (0x391 ≤ c.toNat && c.toNat ≤ 0x3C9) || c = dottedI
  ignorable c := ['\'', '.', ':', '^', '\x60', dot].contains c

theorem keeps_of_plain {d : Char} (hd : d.toNat < 0x41 ∨ 0x5A < d.toNat ∧ d.toNat < 0x61 ∨
    0x7A < d.toNat ∧ d.toNat < 0x391 ∨ 0x3C9 < d.toNat) (hne : d ≠ dottedI) (c : Char) :
    greek.simple c = d ↔ c = d := by
  have hnat : ∀ n, n < 0xD800 → (Char.ofNat n).toNat = n := by
    intro n hn
    rw [Char.toNat_ofNat, if_pos (.inl hn)]
  change (if _ then _ else _) = d ↔ c = d
  split
  · rename_i hrange
    refine iff_of_false ?_ ?_
    · rintro rfl
      rw [hnat _ (by omega)] at hd
      omega
    · rintro rfl
      omega
  · split
    · rename_i hi
      refine iff_of_false ?_ fun heq ↦ hne (heq.symm.trans hi)
      rintro rfl
      exact absurd hd (by decide)
    · exact Iff.rfl

theorem conform_greek : Conform greek where
  lawful := ⟨keeps_of_plain (by decide) (by decide), by decide, by decide⟩
  separator := ⟨keeps_of_plain (by decide) (by decide), by decide⟩
  slash := ⟨keeps_of_plain (by decide) (by decide), by decide⟩

/-- Two spellings of one path, in another case, with the prefix, and with other separators. -/
theorem one_key_prefixed : ∃ k,
    keyAt greek "C:\\r".toList "C:\\r\\Akte\\b.pdf".toList = some k ∧
      keyAt greek "C:\\r".toList "\\\\?\\c:/R//AKTE\\B.pdf\\".toList = some k := by
  have hfirst : Lies greek "C:\\r".toList "C:\\r\\Akte\\b.pdf".toList :=
    ⟨"Akte\\b.pdf".toList, (respelled_iff conform_greek).mpr (by decide +kernel)⟩
  have hsecond : Lies greek "C:\\r".toList "\\\\?\\c:/R//AKTE\\B.pdf\\".toList :=
    ⟨"Akte\\b.pdf".toList, (respelled_iff conform_greek).mpr (by decide +kernel)⟩
  have hsame : Respelled greek (withoutLongPrefix "C:\\r\\Akte\\b.pdf".toList)
      (withoutLongPrefix "\\\\?\\c:/R//AKTE\\B.pdf\\".toList) :=
    (respelled_iff conform_greek).mpr (by decide +kernel)
  have hplain : Plain greek "C:\\r".toList "C:\\r\\Akte\\b.pdf".toList
      "\\\\?\\c:/R//AKTE\\B.pdf\\".toList :=
    ⟨by decide +kernel, by decide +kernel, by decide +kernel⟩
  exact (((one_key greek conform_greek).1 _ _ _ hfirst hsecond (.inl hsame)).mpr hplain).mp hsame

/-- A name that ends in a sigma has another key in capital letters. -/
theorem two_keys : ¬ ∀ tables, Conform tables → ∀ root p q, Lies tables root p →
    Lies tables root q → (Respelled tables (withoutLongPrefix p) (withoutLongPrefix q) ↔
      ∃ k, keyAt tables root p = some k ∧ keyAt tables root q = some k) := by
  intro h
  have hfirst : Lies greek "C:\\r".toList "C:\\r\\ΟΔΟΣ".toList :=
    ⟨"ΟΔΟΣ".toList, (respelled_iff conform_greek).mpr (by decide +kernel)⟩
  have hsecond : Lies greek "C:\\r".toList "C:\\r\\οδοσ".toList :=
    ⟨"οδοσ".toList, (respelled_iff conform_greek).mpr (by decide +kernel)⟩
  have hsame : Respelled greek (withoutLongPrefix "C:\\r\\ΟΔΟΣ".toList)
      (withoutLongPrefix "C:\\r\\οδοσ".toList) :=
    (respelled_iff conform_greek).mpr (by decide +kernel)
  obtain ⟨k, hk, hk'⟩ := (h greek conform_greek _ _ _ hfirst hsecond).mp hsame
  have hne : keyAt greek "C:\\r".toList "C:\\r\\ΟΔΟΣ".toList ≠
      keyAt greek "C:\\r".toList "C:\\r\\οδοσ".toList := by
    decide +kernel
  exact hne (hk.trans hk'.symm)

end Samples

end FolderClient.Cfapi.PathKeys
