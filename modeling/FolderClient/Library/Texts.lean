import Mathlib.Algebra.Group.Int.Defs
import Mathlib.Algebra.GroupWithZero.Nat
import Mathlib.Data.List.DropRight
import Mathlib.Data.Nat.Notation

namespace FolderClient.Library.Texts

theorem forall_of_all {p : Char → Prop} [DecidablePred p] {l : List Char}
    (h : l.all (fun c ↦ decide (p c)) = true) : ∀ c ∈ l, p c := by
  simpa using h

/-- The bytes of a text. -/
def utf8 (text : String) : List UInt8 := text.toList.flatMap String.utf8EncodeChar

/-- The text of the bytes, where they are one. -/
def fromUtf8 (bytes : List UInt8) : Option String := String.fromUTF8? bytes.toByteArray

theorem fromUtf8_utf8 (text : String) : fromUtf8 (utf8 text) = some text := by
  have hbytes : (utf8 text).toByteArray = text.toByteArray := by
    rw [utf8, ← String.utf8Encode_toList, List.utf8Encode]
  rw [fromUtf8, hbytes, String.fromUTF8?, dif_pos text.isValidUTF8]
  rfl

theorem utf8_injective {a b : String} (h : utf8 a = utf8 b) : a = b :=
  Option.some.inj ((fromUtf8_utf8 a).symm.trans ((congrArg fromUtf8 h).trans (fromUtf8_utf8 b)))

theorem le_ofNat {low : UInt8} {n : ℕ} (h : low.toNat ≤ n) (hn : n < 256) :
    low ≤ UInt8.ofNat n := by
  rw [UInt8.le_iff_toNat_le, UInt8.toNat_ofNat', Nat.mod_eq_of_lt hn]
  exact h

theorem first_le {n : ℕ} (h : 192 ≤ n) (hn : n < 256) : (192 : UInt8) ≤ UInt8.ofNat n :=
  le_ofNat h hn

theorem other_le {n : ℕ} (h : 128 ≤ n) (hn : n < 256) : (128 : UInt8) ≤ UInt8.ofNat n :=
  le_ofNat h hn

/-- A character takes one byte of ASCII, or a first byte and others, none of them ASCII. -/
theorem utf8EncodeChar_cases (c : Char) :
    (∃ b : UInt8, b < 128 ∧ String.utf8EncodeChar c = [b]) ∨
      ∃ (first : UInt8) (others : List UInt8), String.utf8EncodeChar c = first :: others ∧
        192 ≤ first ∧ ∀ b ∈ others, 128 ≤ b := by
  unfold String.utf8EncodeChar
  generalize c.val.toNat = v
  dsimp only
  split
  · refine .inl ⟨UInt8.ofNat v, ?_, rfl⟩
    rw [UInt8.lt_iff_toNat_lt, UInt8.toNat_ofNat', Nat.mod_eq_of_lt (by omega)]
    exact Nat.lt_succ_of_le (by assumption)
  · refine .inr ?_
    split
    · refine ⟨_, _, rfl, first_le (by omega) (by omega), ?_⟩
      simp only [List.mem_cons, List.not_mem_nil, or_false, forall_eq]
      exact other_le (by omega) (by omega)
    · split
      · refine ⟨_, _, rfl, first_le (by omega) (by omega), ?_⟩
        simp only [List.mem_cons, List.not_mem_nil, or_false, forall_eq_or_imp, forall_eq]
        exact ⟨other_le (by omega) (by omega),
          other_le (by omega) (by omega)⟩
      · refine ⟨_, _, rfl, first_le (by omega) (by omega), ?_⟩
        simp only [List.mem_cons, List.not_mem_nil, or_false, forall_eq_or_imp, forall_eq]
        exact ⟨other_le (by omega) (by omega),
          other_le (by omega) (by omega), other_le (by omega) (by omega)⟩

/-- Behind an ASCII byte a character begins, or the text ends. -/
theorem boundary_after_ascii {l : List Char} {before after : List UInt8} {b : UInt8}
    (h : l.flatMap String.utf8EncodeChar = before ++ b :: after) (hb : b < 128) :
    ∀ next ∈ after.head?, next < 128 ∨ 192 ≤ next := by
  induction l generalizing before with
  | nil => simp at h
  | cons c l ih =>
    rw [List.flatMap_cons] at h
    rcases utf8EncodeChar_cases c with ⟨d, hd, henc⟩ | ⟨first, others, henc, hfirst, hothers⟩
    · rw [henc] at h
      cases before with
      | nil =>
        obtain ⟨rfl, rfl⟩ := List.cons.inj h
        cases l with
        | nil => simp
        | cons c' l =>
          rw [List.flatMap_cons]
          rcases utf8EncodeChar_cases c' with ⟨d', hd', henc'⟩ | ⟨first, others, henc', hfirst, -⟩
          · rw [henc']
            rintro next ⟨⟩
            exact .inl hd'
          · rw [henc']
            rintro next ⟨⟩
            exact .inr hfirst
      | cons d' before => exact ih (List.cons.inj h).2
    · rw [henc] at h
      have hlarge : ∀ x ∈ first :: others, 128 ≤ x := by
        rw [List.forall_mem_cons]
        exact ⟨UInt8.le_trans (by decide : (128 : UInt8) ≤ 192) hfirst, hothers⟩
      rcases List.append_eq_append_iff.mp h with ⟨more, rfl, hrest⟩ | ⟨more, hchar, hrest⟩
      · exact ih hrest
      · cases more with
        | nil => exact @ih [] hrest.symm
        | cons x more =>
          -- the byte would be one of a character that has no ASCII byte
          obtain ⟨rfl, -⟩ := List.cons.inj hrest
          have hmem : b ∈ first :: others := by
            rw [hchar]
            exact List.mem_append_right _ List.mem_cons_self
          exact absurd hb (UInt8.not_lt.mpr (hlarge b hmem))

/-- What follows a beginning; nothing where the text does not begin with it. -/
def strip (beginning text : List Char) : Option (List Char) :=
  if beginning.isPrefixOf text then some (text.drop beginning.length) else none

theorem strip_eq_some_iff {beginning text rest : List Char} :
    strip beginning text = some rest ↔ text = beginning ++ rest := by
  rw [strip]
  constructor
  · intro h
    split at h
    case isTrue hp =>
      obtain ⟨after, rfl⟩ := List.isPrefixOf_iff_prefix.mp hp
      rw [List.drop_left] at h
      rw [Option.some.inj h]
    case isFalse => cases h
  · rintro rfl
    have hp : beginning.isPrefixOf (beginning ++ rest) = true :=
      List.isPrefixOf_iff_prefix.mpr (List.prefix_append _ _)
    rw [if_pos hp, List.drop_left]

/-- The parts before and after the first separator. -/
def splitOnce (separator : Char) (text : String) : Option (String × String) :=
  (text.toList.idxOf? separator).map fun i ↦
    (String.ofList (text.toList.take i), String.ofList (text.toList.drop (i + 1)))

theorem splitOnce_eq_some_iff {separator : Char} {text before after : String} :
    splitOnce separator text = some (before, after) ↔
      separator ∉ before.toList ∧ text.toList = before.toList ++ separator :: after.toList := by
  rw [splitOnce, Option.map_eq_some_iff]
  constructor
  · rintro ⟨i, hi, hparts⟩
    obtain ⟨hlt, hget, hfirst⟩ := List.idxOf?_eq_some_iff.mp hi
    obtain ⟨rfl, rfl⟩ := Prod.mk.inj hparts
    rw [String.toList_ofList, String.toList_ofList]
    constructor
    · intro hm
      obtain ⟨j, hj, hj'⟩ := List.mem_take_iff_getElem.mp hm
      exact hfirst j (by omega) hj'
    · rw [← hget, ← List.drop_eq_getElem_cons hlt, List.take_append_drop]
  · rintro ⟨hnot, htext⟩
    refine ⟨before.toList.length, ?_, ?_⟩
    · rw [htext]
      refine List.idxOf?_eq_some_iff.mpr ⟨by simp, by simp, fun j hj hget ↦ hnot ?_⟩
      rw [← hget, List.getElem_append_left hj]
      exact List.getElem_mem _
    · rw [htext, List.take_left, List.drop_append, List.drop_of_length_le (Nat.le_succ _)]
      simp

theorem splitOnce_eq_none_iff {separator : Char} {text : String} :
    splitOnce separator text = none ↔ separator ∉ text.toList := by
  rw [splitOnce, Option.map_eq_none_iff, List.idxOf?_eq_none_iff]

/-- The parts before and after the last separator. -/
def rsplitOnce (separator : Char) (text : String) : Option (String × String) :=
  (text.toList.reverse.idxOf? separator).map fun i ↦
    (String.ofList (text.toList.reverse.drop (i + 1)).reverse,
      String.ofList (text.toList.reverse.take i).reverse)

theorem rsplitOnce_eq (separator : Char) (text : String) : rsplitOnce separator text =
    (splitOnce separator (String.ofList text.toList.reverse)).map fun (after, before) ↦
      (String.ofList before.toList.reverse, String.ofList after.toList.reverse) := by
  rw [rsplitOnce, splitOnce, String.toList_ofList, Option.map_map]
  refine congrArg₂ _ (funext fun i ↦ ?_) rfl
  simp only [Function.comp, String.toList_ofList]

theorem rsplitOnce_eq_some_iff {separator : Char} {text before after : String} :
    rsplitOnce separator text = some (before, after) ↔
      separator ∉ after.toList ∧ text.toList = before.toList ++ separator :: after.toList := by
  rw [rsplitOnce_eq, Option.map_eq_some_iff]
  constructor
  · rintro ⟨⟨last, first⟩, h, hparts⟩
    obtain ⟨rfl, rfl⟩ := Prod.mk.inj hparts
    obtain ⟨hnot, htext⟩ := splitOnce_eq_some_iff.mp h
    rw [String.toList_ofList] at htext
    rw [String.toList_ofList, String.toList_ofList, List.mem_reverse]
    refine ⟨hnot, List.reverse_injective ?_⟩
    rw [htext]
    simp
  · rintro ⟨hnot, htext⟩
    refine ⟨(String.ofList after.toList.reverse, String.ofList before.toList.reverse), ?_, ?_⟩
    · refine splitOnce_eq_some_iff.mpr ⟨?_, ?_⟩
      · rwa [String.toList_ofList, List.mem_reverse]
      · rw [htext]
        simp
    · simp

theorem rsplitOnce_eq_none_iff {separator : Char} {text : String} :
    rsplitOnce separator text = none ↔ separator ∉ text.toList := by
  rw [rsplitOnce, Option.map_eq_none_iff, List.idxOf?_eq_none_iff, List.mem_reverse]

/-- The parts before and after the first place where a separator of several characters stands. -/
def splitAt (separator : List Char) : List Char → Option (List Char × List Char)
  | [] => if separator.isEmpty then some ([], []) else none
  | c :: text =>
    match strip separator (c :: text) with
    | some rest => some ([], rest)
    | none => (splitAt separator text).map fun (before, after) ↦ (c :: before, after)

theorem eq_of_splitAt {separator text before after : List Char}
    (h : splitAt separator text = some (before, after)) : text = before ++ separator ++ after := by
  induction text generalizing before with
  | nil =>
    rw [splitAt] at h
    split at h
    · rename_i hempty
      rw [List.isEmpty_iff.mp hempty]
      cases h
      rfl
    · cases h
  | cons c text ih =>
    rw [splitAt] at h
    split at h
    · rename_i rest hstrip
      cases h
      exact strip_eq_some_iff.mp hstrip
    · obtain ⟨⟨b, a⟩, hb, heq⟩ := Option.map_eq_some_iff.mp h
      cases heq
      rw [ih hb]
      rfl

theorem splitAt_of_notMem {c : Char} {more before : List Char} (h : c ∉ before)
    (after : List Char) : splitAt (c :: more) (before ++ c :: more ++ after) = some (before, after) := by
  induction before with
  | nil =>
    have hstrip : strip (c :: more) (c :: more ++ after) = some after := strip_eq_some_iff.mpr rfl
    rw [List.nil_append, List.cons_append, splitAt, ← List.cons_append, hstrip]
  | cons d before ih =>
    rw [List.mem_cons, not_or] at h
    have hstrip : strip (c :: more) (d :: (before ++ c :: more ++ after)) = none := by
      by_contra hne
      obtain ⟨rest, hrest⟩ := Option.ne_none_iff_exists'.mp hne
      exact h.1 (List.cons.inj (strip_eq_some_iff.mp hrest)).1.symm
    rw [List.cons_append, List.cons_append, splitAt, hstrip, ih h.2]
    rfl

/-- What stands behind the first separator does not move it. -/
theorem splitAt_append {separator text before after : List Char}
    (h : splitAt separator text = some (before, after)) (other : List Char) :
    splitAt separator (before ++ separator ++ other) = some (before, other) := by
  have hfound : ∀ rest, strip separator (separator ++ rest) = some rest :=
    fun _ ↦ strip_eq_some_iff.mpr rfl
  induction text generalizing before with
  | nil =>
    rw [splitAt] at h
    split at h
    · rename_i hempty
      cases h
      rw [List.isEmpty_iff.mp hempty]
      cases other <;> rfl
    · cases h
  | cons c text ih =>
    rw [splitAt] at h
    split at h
    · cases h
      rw [List.nil_append]
      cases hwhole : separator ++ other with
      | nil =>
        obtain ⟨rfl, rfl⟩ := List.append_eq_nil_iff.mp hwhole
        rfl
      | cons d rest => rw [splitAt, ← hwhole, hfound]
    · rename_i hnone
      obtain ⟨⟨b, a⟩, hb, heq⟩ := Option.map_eq_some_iff.mp h
      cases heq
      have hother : strip separator (c :: (b ++ separator ++ other)) = none := by
        by_contra hne
        obtain ⟨rest, hrest⟩ := Option.ne_none_iff_exists'.mp hne
        have hlong : c :: (b ++ separator ++ other) = (c :: (b ++ separator)) ++ other := rfl
        have hin : separator <+: c :: (b ++ separator) := by
          refine List.prefix_of_prefix_length_le ⟨rest, (strip_eq_some_iff.mp hrest).symm⟩
            (hlong ▸ List.prefix_append _ _) ?_
          rw [List.length_cons, List.length_append]
          omega
        obtain ⟨more, hmore⟩ := hin
        have hsome : strip separator (c :: text) = some (more ++ after) := by
          rw [strip_eq_some_iff, eq_of_splitAt hb, ← List.append_assoc, hmore]
          rfl
        rw [hnone] at hsome
        cases hsome
      rw [List.cons_append, List.cons_append, splitAt, hother, ih hb]
      rfl

/-- The parts between the separators. -/
def split (separator : Char) (text : String) : List String :=
  (text.toList.splitOn separator).map String.ofList

theorem split_append_cons {separator : Char} {before : String} (h : separator ∉ before.toList)
    (after : List Char) : split separator (String.ofList (before.toList ++ separator :: after)) =
      before :: split separator (String.ofList after) := by
  rw [split, split, String.toList_ofList, String.toList_ofList,
    List.splitOn_append_cons_self_of_not_mem h, List.map_cons, String.ofList_toList]

theorem split_of_notMem {separator : Char} {text : String} (h : separator ∉ text.toList) :
    split separator text = [text] := by
  rw [split, List.splitOn_eq_singleton h, List.map_singleton, String.ofList_toList]

/-- A text in quotation marks, as a debugging format prints it. -/
def quoted (text : Option String) : String :=
  match text with
  | none => "None"
  | some t => "Some(\"" ++ t ++ "\")"

def isWhitespace (c : Char) : Bool :=
  (9 ≤ c.toNat && c.toNat ≤ 13) || (0x2000 ≤ c.toNat && c.toNat ≤ 0x200A) ||
    c.toNat ∈ [0x20, 0x85, 0xA0, 0x1680, 0x2028, 0x2029, 0x202F, 0x205F, 0x3000]

def isControl (c : Char) : Bool :=
  c.toNat < 0x20 || (0x7F ≤ c.toNat && c.toNat ≤ 0x9F)

/-- A text without the whitespace at its edges. -/
def trim (text : List Char) : List Char := (text.dropWhile isWhitespace).rdropWhile isWhitespace

theorem trim_trim (text : List Char) : trim (trim text) = trim text := by
  have hfront : (trim text).dropWhile isWhitespace = trim text := by
    rw [List.dropWhile_eq_self_iff]
    intro hl
    have hpre : trim text <+: text.dropWhile isWhitespace := List.rdropWhile_prefix _ _
    have hpos : 0 < (text.dropWhile isWhitespace).length := hl.trans_le hpre.length_le
    have hhead : (trim text)[0] = (text.dropWhile isWhitespace)[0] := hpre.getElem hl
    rw [hhead]
    exact List.dropWhile_eq_self_iff.mp (List.dropWhile_idempotent _ _) hpos
  rw [trim, hfront]
  exact List.rdropWhile_idempotent _ _

/-- A text with no whitespace at its edges is left as it is. -/
theorem trim_of_edges {text : List Char} (hhead : ∀ c ∈ text.head?, isWhitespace c = false)
    (hlast : ∀ c ∈ text.getLast?, isWhitespace c = false) : trim text = text := by
  have hfront : text.dropWhile isWhitespace = text := by
    cases text with
    | nil => rfl
    | cons c rest => rw [List.dropWhile_cons, if_neg (by simp [hhead c rfl])]
  rw [trim, hfront, List.rdropWhile_eq_self_iff]
  intro hne
  rw [hlast _ (List.getLast?_eq_some_getLast hne)]
  exact Bool.false_ne_true

/-- What is trimmed begins with no whitespace. -/
theorem head_trim {text : List Char} : ∀ c ∈ (trim text).head?, isWhitespace c = false := by
  intro c hc
  have hpre : trim text <+: text.dropWhile isWhitespace := List.rdropWhile_prefix _ _
  have hhead : (text.dropWhile isWhitespace).head? = some c := by
    obtain ⟨rest, hrest⟩ := List.head?_eq_some_iff.mp hc
    obtain ⟨more, hmore⟩ := hpre
    rw [← hmore, hrest]
    rfl
  have hnot := List.head?_dropWhile_not isWhitespace text
  rw [hhead] at hnot
  exact hnot

def asciiUpper (text : List Char) : List Char := text.map Char.toUpper

def asciiLower (text : List Char) : List Char := text.map Char.toLower

/-- The longest beginning of at most `limit` bytes. -/
def takeBytes : ℕ → List Char → List Char
  | _, [] => []
  | limit, c :: rest =>
    if c.utf8Size ≤ limit then c :: takeBytes (limit - c.utf8Size) rest else []

/-- How many units a character takes in UTF-16. -/
def utf16Size (c : Char) : ℕ := if c.toNat < 0x10000 then 1 else 2

def utf16Length (text : List Char) : ℕ := (text.map utf16Size).sum

def utf8Length (text : List Char) : ℕ := (text.map Char.utf8Size).sum

end FolderClient.Library.Texts
