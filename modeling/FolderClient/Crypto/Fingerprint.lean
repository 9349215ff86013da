import FolderClient.Core.IdentifierCodec
import FolderClient.Crypto.Anchoring
import FolderClient.Library.BigEndian
import FolderClient.Library.Results
import Mathlib.Tactic.Ring

namespace FolderClient.Crypto.Fingerprint

open FolderClient.Core.IdentifierText FolderClient.Core.IdentifierCodec
open FolderClient.Crypto.Jws FolderClient.Crypto.Anchoring FolderClient.Crypto.Anchoring.AnchorFingerprint
open FolderClient.Library.BigEndian FolderClient.Library.Results FolderClient.Library.Texts

/-- The number of characters of a fingerprint, without hyphens. -/
def character : ℕ := 16

/-- The number of characters of a group. -/
def group : ℕ := 4

def alphabetBytes : List UInt8 := alphabet.map fun c ↦ UInt8.ofNat c.toNat

/-- Whether a part between two hyphens is a group. -/
def IsGroup (part : String) : Prop := (utf8 part).length = group ∧ ∀ b ∈ utf8 part, b ∈ alphabetBytes

instance (part : String) : Decidable (IsGroup part) := inferInstanceAs (Decidable (_ ∧ _))

/-- Reads the display form, or the empty text. -/
def fromDisplay (display : String) : Except CryptoError AnchorFingerprint :=
  if display = "" then .ok ⟨""⟩
  else
    let groups := split '-' display
    if groups.length = character / group ∧ ∀ part ∈ groups, IsGroup part then
      .ok ⟨String.join groups⟩
    else
      .error (.unreadable "The anchor fingerprint" ("\"" ++ display ++
        "\" does not have the form XXXX-XXXX-XXXX-XXXX in the strict Crockford alphabet"))

/-- The bytes that the digits of a text stand for. -/
def decodeBytes (text : String) : List UInt8 :=
  toBytes (5 * text.toList.length / 8) (valueOf 0 text.toList)

/-- The fingerprints there are. -/
inductive Value (prims : Primitives) : AnchorFingerprint → Prop
  | fromThumbprint (thumbprints : List String) : Value prims (fromThumbprint prims thumbprints)
  | fromDisplay {text : String} {f : AnchorFingerprint} : fromDisplay text = .ok f → Value prims f

/-- Whether a text that is read for comparison agrees with a fingerprint, on either side. -/
def Agrees (text : String) (f : AnchorFingerprint) : Prop :=
  ∃ g, fromDisplay text = .ok g ∧ (agrees g f = true ∨ agrees f g = true)

/-- A text with fewer digits than a fingerprint has. -/
def Incomplete (text : String) : Prop := (text.toList.filter (· ∈ alphabet)).length < character

section Encoding

variable {a c k n u v w : ℕ} {buffer bits : ℕ} {bytes : List UInt8}

theorem digits_add (a c v : ℕ) : digits (a + c) v = digits a (v / 32 ^ c) ++ digits c v := by
  induction c generalizing v with
  | zero => simp [digits]
  | succ c ih =>
    rw [← Nat.add_assoc, digits, ih, List.append_assoc, Nat.div_div_eq_div_mul, ← Nat.pow_succ']
    rfl

theorem digits_mod (c v : ℕ) : digits c (v % 32 ^ c) = digits c v := by
  induction c generalizing v with
  | zero => rfl
  | succ c ih =>
    have hdiv : v % 32 ^ (c + 1) / 32 = v / 32 % 32 ^ c := by
      rw [Nat.pow_succ', Nat.mod_mul_right_div_self]
    have hmod : v % 32 ^ (c + 1) % 32 = v % 32 := by
      rw [Nat.pow_succ', Nat.mod_mul_right_mod]
    rw [digits, digits, hdiv, hmod, ih]

/-- The digits of two numbers, one behind the other. -/
theorem digits_append (hw : w < 32 ^ c) :
    digits (a + c) (u * 32 ^ c + w) = digits a u ++ digits c w := by
  have hpos : 0 < 32 ^ c := Nat.pow_pos (by decide)
  have hdiv : (u * 32 ^ c + w) / 32 ^ c = u := by
    rw [Nat.mul_comm, Nat.mul_add_div hpos, Nat.div_eq_of_lt hw, Nat.add_zero]
  have hmod : (u * 32 ^ c + w) % 32 ^ c = w := by
    rw [Nat.mul_comm, Nat.mul_add_mod, Nat.mod_eq_of_lt hw]
  rw [digits_add, hdiv, ← digits_mod c, hmod]

theorem ofBytes_cons (b : UInt8) (bytes : List UInt8) :
    ofBytes (b :: bytes) = b.toNat * 256 ^ bytes.length + ofBytes bytes := by
  induction bytes using List.reverseRecOn with
  | nil => simp [ofBytes]
  | append_singleton bytes last ih =>
    rw [← List.cons_append, ofBytes_append, ih, ofBytes_append, List.length_append,
      List.length_singleton, Nat.pow_succ]
    ring

/-- The digits that are taken out for one byte more: what was left over is at most four bits. -/
theorem taken_digits (hbits : bits < 5) (b : UInt8) :
    (List.range ((bits + 8) / 5)).map (fun i ↦
        alphabet.getD ((buffer * 256 + b.toNat) % 2 ^ 32 / 2 ^ (bits + 8 - 5 * (i + 1)) % 32) '0') =
      digits ((bits + 8) / 5)
        ((buffer % 2 ^ bits * 256 + b.toNat) / 2 ^ ((bits + 8) % 5)) := by
  have hb : b.toNat < 256 := b.toNat_lt
  generalize b.toNat = b at hb
  obtain (rfl | rfl) | rfl | rfl | rfl : (bits = 0 ∨ bits = 1) ∨ bits = 2 ∨ bits = 3 ∨ bits = 4 := by
    omega
  all_goals
    simp only [List.range, List.range.loop, List.map_cons, List.map_nil, digits, List.nil_append,
      List.cons_append, Nat.reduceAdd, Nat.reduceDiv, Nat.reduceMod, Nat.reduceMul, Nat.reduceSub,
      Nat.reducePow, Nat.zero_add]
  · exact congrArg (fun m ↦ [alphabet.getD m '0']) (by omega)
  · exact congrArg (fun m ↦ [alphabet.getD m '0']) (by omega)
  all_goals
    exact congrArg₂ (fun m n ↦ [alphabet.getD m '0', alphabet.getD n '0']) (by omega) (by omega)

/-- The bits left over after one byte more. -/
theorem left_over (hbits : bits < 5) (b : ℕ) :
    (buffer * 256 + b) % 2 ^ 32 % 2 ^ ((bits + 8) % 5) =
      (buffer % 2 ^ bits * 256 + b) % 2 ^ ((bits + 8) % 5) := by
  obtain rfl | rfl | rfl | rfl | rfl : bits = 0 ∨ bits = 1 ∨ bits = 2 ∨ bits = 3 ∨ bits = 4 := by
    omega
  all_goals
    simp only [Nat.reduceAdd, Nat.reduceMod, Nat.reducePow]
    omega

/-- The letters are the digits of the number that the left-over bits and the bytes make up. -/
theorem encodeBytesFrom_eq (hbits : bits < 5) (hn : bits + 8 * bytes.length = 5 * n) :
    encodeBytesFrom buffer bits bytes =
      digits n (buffer % 2 ^ bits * 256 ^ bytes.length + ofBytes bytes) := by
  induction bytes generalizing buffer bits n with
  | nil =>
    obtain ⟨rfl, rfl⟩ : bits = 0 ∧ n = 0 := by simp only [List.length_nil] at hn; omega
    rfl
  | cons b rest ih =>
    rw [List.length_cons] at hn
    obtain ⟨c, rfl⟩ : ∃ c, n = (bits + 8) / 5 + c := ⟨n - (bits + 8) / 5, by omega⟩
    have hc : (bits + 8) % 5 + 8 * rest.length = 5 * c := by omega
    have hpow : 32 ^ c = 2 ^ ((bits + 8) % 5) * 256 ^ rest.length := by
      have h32 : (32 : ℕ) ^ c = 2 ^ (5 * c) := by rw [Nat.pow_mul]
      have h256 : (256 : ℕ) ^ rest.length = 2 ^ (8 * rest.length) := by rw [Nat.pow_mul]
      rw [h32, h256, ← hc, Nat.pow_add]
    have hleft : encodeBytesFrom ((buffer * 256 + b.toNat) % 2 ^ 32) ((bits + 8) % 5) rest =
        digits c (_ * 256 ^ rest.length + ofBytes rest) := ih (Nat.mod_lt _ (by decide)) hc
    rw [left_over hbits] at hleft
    rw [encodeBytesFrom, hleft, taken_digits hbits]
    generalize hv : buffer % 2 ^ bits * 256 + b.toNat = v
    generalize (bits + 8) % 5 = left at hpow ⊢
    have hrest : v % 2 ^ left * 256 ^ rest.length + ofBytes rest < 32 ^ c := by
      have hlast := ofBytes_lt rest
      have hmod : v % 2 ^ left + 1 ≤ 2 ^ left := Nat.mod_lt _ (Nat.pow_pos (by decide))
      calc v % 2 ^ left * 256 ^ rest.length + ofBytes rest
          < (v % 2 ^ left + 1) * 256 ^ rest.length := by rw [Nat.add_mul, Nat.one_mul]; omega
        _ ≤ 2 ^ left * 256 ^ rest.length := Nat.mul_le_mul_right _ hmod
        _ = 32 ^ c := hpow.symm
    rw [← digits_append hrest]
    refine congrArg _ ?_
    have hsplit : 2 ^ left * (v / 2 ^ left) + v % 2 ^ left = v := Nat.div_add_mod _ _
    calc v / 2 ^ left * 32 ^ c + (v % 2 ^ left * 256 ^ rest.length + ofBytes rest)
        = (2 ^ left * (v / 2 ^ left) + v % 2 ^ left) * 256 ^ rest.length + ofBytes rest := by
          rw [hpow]
          ring
      _ = (buffer % 2 ^ bits * 256 + b.toNat) * 256 ^ rest.length + ofBytes rest := by
          rw [hsplit, hv]
      _ = buffer % 2 ^ bits * 256 ^ (b :: rest).length + ofBytes (b :: rest) := by
          rw [ofBytes_cons, List.length_cons, Nat.pow_succ]
          ring

end Encoding

section Texts

variable {prims : Primitives} {c : Char} {l : List Char} {part text : String}
  {f g : AnchorFingerprint} {bytes : List UInt8}

/-- A fingerprint is empty or has its sixteen digits. -/
def Whole (f : AnchorFingerprint) : Prop :=
  f.text = "" ∨ f.text.toList.length = character ∧ ∀ c ∈ f.text.toList, c ∈ alphabet

theorem hyphen_notMem : '-' ∉ alphabet := by decide

theorem length_encodeBytes (h : bytes.length = 10) :
    (encodeBytes bytes).toList.length = character ∧
      ∀ c ∈ (encodeBytes bytes).toList, c ∈ alphabet := by
  have heq := @encodeBytesFrom_eq 16 0 0 bytes (by decide) (by omega)
  rw [encodeBytes, String.toList_ofList, heq]
  exact ⟨length_digits _ _, fun c hc ↦ mem_digits hc⟩

theorem decodeBytes_encodeBytes (h : bytes.length = 10) :
    decodeBytes (encodeBytes bytes) = bytes := by
  have heq := @encodeBytesFrom_eq 16 0 0 bytes (by decide) (by omega)
  have hlength := (length_encodeBytes h).1
  have hlt : ofBytes bytes < 32 ^ 16 := by
    have hbytes := ofBytes_lt bytes
    rw [h] at hbytes
    exact hbytes
  have hvalue : valueOf 0 (encodeBytes bytes).toList = ofBytes bytes := by
    rw [encodeBytes, String.toList_ofList, heq, Nat.zero_mod, Nat.zero_mul, Nat.zero_add]
    exact valueOf_digits hlt
  rw [decodeBytes, hlength, hvalue]
  have hback := toBytes_ofBytes bytes
  rw [h] at hback
  exact hback

/-- Four characters make a group as they stand. -/
theorem exists_four (h : l.length = 4) : ∃ a b c d, l = [a, b, c, d] := by
  match l, h with
  | [a, b, c, d], _ => exact ⟨a, b, c, d, rfl⟩

theorem toChunks_groups {a b c d : List Char} (ha : a.length = 4) (hb : b.length = 4)
    (hc : c.length = 4) (hd : d.length = 4) :
    (a ++ b ++ c ++ d).toChunks 4 = [a, b, c, d] := by
  obtain ⟨a₁, a₂, a₃, a₄, rfl⟩ := exists_four ha
  obtain ⟨b₁, b₂, b₃, b₄, rfl⟩ := exists_four hb
  obtain ⟨c₁, c₂, c₃, c₄, rfl⟩ := exists_four hc
  obtain ⟨d₁, d₂, d₃, d₄, rfl⟩ := exists_four hd
  rfl

theorem exists_groups (h : l.length = character) : ∃ a b c d, l = a ++ b ++ c ++ d ∧
    a.length = 4 ∧ b.length = 4 ∧ c.length = 4 ∧ d.length = 4 := by
  have h16 : l.length = 16 := h
  refine ⟨l.take 4, (l.drop 4).take 4, (l.drop 8).take 4, l.drop 12, ?_, ?_⟩
  · have hlast : (l.drop 8).take 4 ++ l.drop 12 = l.drop 8 := by
      have hdrop : l.drop 12 = (l.drop 8).drop 4 := by rw [List.drop_drop]
      rw [hdrop, List.take_append_drop]
    have hmiddle : (l.drop 4).take 4 ++ l.drop 8 = l.drop 4 := by
      have hdrop : l.drop 8 = (l.drop 4).drop 4 := by rw [List.drop_drop]
      rw [hdrop, List.take_append_drop]
    rw [List.append_assoc, List.append_assoc, hlast, hmiddle, List.take_append_drop]
  · simp only [List.length_take, List.length_drop]
    omega

theorem encodeChar_alphabet (h : c ∈ alphabet) :
    String.utf8EncodeChar c = [UInt8.ofNat c.toNat] := by
  have hall : ∀ c ∈ alphabet, String.utf8EncodeChar c = [UInt8.ofNat c.toNat] :=
    forall_of_all (by decide)
  exact hall c h

theorem encodeChar_injective {c d : Char} (h : String.utf8EncodeChar c = String.utf8EncodeChar d) :
    c = d := by
  have htext : utf8 (String.singleton c) = utf8 (String.singleton d) := by
    simpa [utf8] using h
  exact String.singleton_inj.mp (utf8_injective htext)

/-- A character of the alphabet takes one byte, and no other character has bytes of the alphabet. -/
theorem mem_alphabet_iff :
    (∀ b ∈ String.utf8EncodeChar c, b ∈ alphabetBytes) ↔ c ∈ alphabet := by
  constructor
  · intro h
    have hascii : ∀ b ∈ alphabetBytes, b < 128 := by decide +kernel
    rcases utf8EncodeChar_cases c with ⟨b, -, hb⟩ | ⟨first, others, heq, hfirst, -⟩
    · rw [hb] at h
      obtain ⟨d, hd, hbd⟩ := List.mem_map.mp (h b List.mem_cons_self)
      have hsame : String.utf8EncodeChar c = String.utf8EncodeChar d := by
        rw [hb, encodeChar_alphabet hd, hbd]
      rw [encodeChar_injective hsame]
      exact hd
    · rw [heq] at h
      have hlt := UInt8.lt_iff_toNat_lt.mp (hascii first (h first List.mem_cons_self))
      have hle := UInt8.le_iff_toNat_le.mp hfirst
      simp only [UInt8.reduceToNat] at hlt hle
      omega
  · intro h b hb
    rw [encodeChar_alphabet h, List.mem_singleton] at hb
    rw [hb]
    exact List.mem_map_of_mem h

theorem length_utf8 (h : ∀ c ∈ l, c ∈ alphabet) :
    (l.flatMap String.utf8EncodeChar).length = l.length := by
  induction l with
  | nil => rfl
  | cons c l ih =>
    rw [List.flatMap_cons, List.length_append, encodeChar_alphabet (h c List.mem_cons_self),
      ih fun d hd ↦ h d (List.mem_cons_of_mem c hd), List.length_singleton, List.length_cons,
      Nat.add_comm]

/-- The groups are the texts of four digits. -/
theorem isGroup_iff :
    IsGroup part ↔ part.toList.length = 4 ∧ ∀ c ∈ part.toList, c ∈ alphabet := by
  have hbytes : (∀ b ∈ utf8 part, b ∈ alphabetBytes) ↔ ∀ c ∈ part.toList, c ∈ alphabet := by
    constructor
    · intro h c hc
      exact mem_alphabet_iff.mp fun b hb ↦ h b (List.mem_flatMap.mpr ⟨c, hc, hb⟩)
    · intro h b hb
      obtain ⟨c, hc, hb⟩ := List.mem_flatMap.mp hb
      exact mem_alphabet_iff.mpr (h c hc) b hb
  rw [IsGroup, hbytes]
  refine and_congr_left fun h ↦ ?_
  rw [utf8, length_utf8 h]
  rfl

theorem fromDisplay_eq_ok : fromDisplay text = .ok f ↔ (text = "" ∧ f.text = "") ∨
    (text ≠ "" ∧ (split '-' text).length = 4 ∧ (∀ part ∈ split '-' text, IsGroup part) ∧
      f.text = String.join (split '-' text)) := by
  unfold fromDisplay
  by_cases hempty : text = ""
  · rw [if_pos hempty]
    constructor
    · rintro ⟨⟩
      exact .inl ⟨hempty, rfl⟩
    · rintro (⟨-, hf⟩ | ⟨hne, -⟩)
      · exact congrArg Except.ok (congrArg AnchorFingerprint.mk hf.symm)
      · exact absurd hempty hne
  · rw [if_neg hempty]
    dsimp only
    split
    case isTrue h =>
      constructor
      · rintro ⟨⟩
        exact .inr ⟨hempty, h.1, h.2, rfl⟩
      · rintro (⟨h, -⟩ | ⟨-, -, -, hf⟩)
        · exact absurd h hempty
        · exact congrArg Except.ok (congrArg AnchorFingerprint.mk hf.symm)
    case isFalse h =>
      constructor
      · exact fun hn ↦ by cases hn
      · rintro (⟨h, -⟩ | ⟨-, hlength, hgroups, -⟩)
        · exact absurd h hempty
        · exact absurd ⟨hlength, hgroups⟩ h

/-- What is read is empty or has its sixteen digits, all of them in the text. -/
theorem whole_of_fromDisplay (h : fromDisplay text = .ok f) : Whole f := by
  rcases fromDisplay_eq_ok.mp h with ⟨-, hf⟩ | ⟨-, hlength, hgroups, hf⟩
  · exact .inl hf
  · refine .inr ⟨?_, ?_⟩
    · have hsum : (split '-' text).map (fun part ↦ part.toList.length) = List.replicate 4 4 := by
        rw [List.eq_replicate_iff, List.length_map]
        refine ⟨hlength, fun n hn ↦ ?_⟩
        obtain ⟨part, hpart, rfl⟩ := List.mem_map.mp hn
        exact (isGroup_iff.mp (hgroups part hpart)).1
      rw [hf, String.toList_join, List.length_flatMap, hsum]
      rfl
    · intro c hc
      rw [hf, String.toList_join] at hc
      obtain ⟨part, hpart, hc⟩ := List.mem_flatMap.mp hc
      exact (isGroup_iff.mp (hgroups part hpart)).2 c hc

theorem whole_of_value (hdigest : ∀ bytes, (prims.sha256 bytes).length = 32)
    (h : Value prims f) : Whole f := by
  cases h with
  | fromThumbprint thumbprints =>
    unfold fromThumbprint
    split
    · exact .inl rfl
    · refine .inr (length_encodeBytes ?_)
      rw [List.length_take, hdigest]
      rfl
  | fromDisplay h => exact whole_of_fromDisplay h

/-- What is displayed reads back as the same fingerprint. -/
theorem fromDisplay_display (h : Whole f) : fromDisplay (display f) = .ok f := by
  rcases h with hempty | ⟨hlength, hdigits⟩
  · obtain ⟨text⟩ := f
    obtain rfl : text = "" := hempty
    rfl
  · obtain ⟨a, b, c, d, heq, ha, hb, hc, hd⟩ := exists_groups hlength
    have hmem : ∀ part ∈ [a, b, c, d], part.length = 4 ∧ ∀ x ∈ part, x ∈ alphabet := by
      intro part hpart
      simp only [List.mem_cons, List.not_mem_nil, or_false] at hpart
      rw [heq] at hdigits
      rcases hpart with rfl | rfl | rfl | rfl
      · exact ⟨ha, fun x hx ↦ hdigits x (by simp [hx])⟩
      · exact ⟨hb, fun x hx ↦ hdigits x (by simp [hx])⟩
      · exact ⟨hc, fun x hx ↦ hdigits x (by simp [hx])⟩
      · exact ⟨hd, fun x hx ↦ hdigits x (by simp [hx])⟩
    have hdisplay : (display f).toList = ['-'].intercalate [a, b, c, d] := by
      rw [AnchorFingerprint.display, heq, toChunks_groups ha hb hc hd, String.toList_intercalate]
      simp
    have hsplit : split '-' (display f) = [a, b, c, d].map String.ofList := by
      rw [split, hdisplay, List.splitOn_intercalate '-' _ (List.cons_ne_nil _ _)]
      exact fun part hpart hin ↦ hyphen_notMem ((hmem part hpart).2 '-' hin)
    refine fromDisplay_eq_ok.mpr (.inr ⟨?_, ?_, ?_, ?_⟩)
    · intro hnone
      have htoList := congrArg String.toList hnone
      rw [hdisplay] at htoList
      obtain ⟨x, a, rfl⟩ := List.exists_cons_of_length_eq_add_one ha
      simp [List.intercalate] at htoList
    · rw [hsplit]
      rfl
    · intro part hpart
      rw [hsplit] at hpart
      obtain ⟨l, hl, rfl⟩ := List.mem_map.mp hpart
      rw [isGroup_iff, String.toList_ofList]
      exact hmem l hl
    · rw [hsplit, ← String.toList_inj, String.toList_join, heq]
      simp

theorem fromThumbprint_perm {thumbprints thumbprints' : List String}
    (h : thumbprints.Perm thumbprints') :
    fromThumbprint prims thumbprints = fromThumbprint prims thumbprints' := by
  have hsorted : ∀ l : List String, (l.mergeSort (· ≤ ·)).Pairwise (· ≤ ·) := by
    intro l
    have hpairwise := @List.pairwise_mergeSort _ (fun a b : String ↦ decide (a ≤ b))
      (fun a b c hab hbc ↦ decide_eq_true
        (String.le_trans (of_decide_eq_true hab) (of_decide_eq_true hbc)))
      (fun a b ↦ by simpa using String.le_total a b) l
    exact hpairwise.imp fun h ↦ of_decide_eq_true h
  have hsame : thumbprints.mergeSort (· ≤ ·) = thumbprints'.mergeSort (· ≤ ·) :=
    List.Perm.eq_of_pairwise (fun a b _ _ ↦ String.le_antisymm) (hsorted _) (hsorted _)
      (((List.mergeSort_perm _ _).trans h).trans (List.mergeSort_perm _ _).symm)
  have hempty : thumbprints.isEmpty = thumbprints'.isEmpty := by
    rw [Bool.eq_iff_iff, List.isEmpty_iff_length_eq_zero, List.isEmpty_iff_length_eq_zero,
      h.length_eq]
  rw [fromThumbprint, fromThumbprint, hempty, hsame]

/-- The parts of a text stand in it in their order. -/
theorem flatten_sublist (separator : Char) (parts : List (List Char)) :
    parts.flatten.Sublist ([separator].intercalate parts) := by
  induction parts with
  | nil => exact .slnil
  | cons part parts ih =>
    by_cases hparts : parts = []
    · rw [hparts, List.intercalate_singleton]
      simp
    · rw [List.intercalate_cons_of_ne_nil hparts, List.flatten_cons, List.append_assoc]
      exact (ih.trans (List.sublist_append_right _ _)).append_left part

/-- A text without all the digits reads as nothing or as the empty fingerprint. -/
theorem empty_of_incomplete (h : fromDisplay text = .ok f) (hincomplete : Incomplete text) :
    f.text = "" := by
  rcases whole_of_fromDisplay h with hempty | ⟨hlength, hdigits⟩
  · exact hempty
  · rcases fromDisplay_eq_ok.mp h with ⟨-, hf⟩ | ⟨-, -, -, hf⟩
    · exact hf
    · have hsub : f.text.toList.Sublist text.toList := by
        have hparts := flatten_sublist '-' (text.toList.splitOn '-')
        rw [List.intercalate_splitOn] at hparts
        rw [hf, String.toList_join, split, List.flatMap_map]
        simpa [List.flatMap] using hparts
      have hle := (hsub.filter (· ∈ alphabet)).length_le
      rw [List.filter_eq_self.mpr fun c hc ↦ decide_eq_true (hdigits c hc), hlength] at hle
      exact absurd hincomplete (Nat.not_lt.mpr hle)

end Texts

/-- What a fingerprint is for: it does not depend on the order of the keys, what is displayed reads
back, its digits stand for ten bytes and no others, and no text that lacks some of them agrees. -/
structure Laws (prims : Primitives) : Prop where
  order : ∀ keys keys' : List Jwk, keys.Perm keys' → fromJwks prims keys = fromJwks prims keys'
  back : ∀ f, Value prims f → fromDisplay (AnchorFingerprint.display f) = .ok f
  decoded : ∀ bytes, bytes.length = 10 → (encodeBytes bytes).toList.length = character ∧
    decodeBytes (encodeBytes bytes) = bytes
  injective : ∀ bytes bytes', bytes.length = 10 → bytes'.length = 10 →
    encodeBytes bytes = encodeBytes bytes' → bytes = bytes'
  incomplete : ∀ text, Incomplete text → ∀ f, ¬ Agrees text f

theorem fingerprint_laws (prims : Primitives)
    (hdigest : ∀ bytes, (prims.sha256 bytes).length = 32) : Laws prims where
  order _ _ h := fromThumbprint_perm (h.map _)
  back _ h := fromDisplay_display (whole_of_value hdigest h)
  decoded _ h := ⟨(length_encodeBytes h).1, decodeBytes_encodeBytes h⟩
  injective bytes bytes' h h' heq := by
    rw [← decodeBytes_encodeBytes h, heq, decodeBytes_encodeBytes h']
  incomplete := by
    rintro text hincomplete f ⟨g, hg, hagree⟩
    have hempty := empty_of_incomplete hg hincomplete
    rcases hagree with hagree | hagree
    · simp [agrees, hempty] at hagree
    · simp only [agrees, Bool.and_eq_true, decide_eq_true_eq, ne_eq] at hagree
      exact hagree.1 (hagree.2 ▸ hempty)

def anchorThumbprint : String := "LAsBA719DG2FA0dsYL6V-xZPqUvH2HX8f1Zu55HYrYc"

/-- SHA-256 of one thumbprint, and nothing in particular of other bytes. -/
def digestOfAnchor (bytes : List UInt8) : List UInt8 :=
  if bytes = utf8 anchorThumbprint then
    [172, 70, 117, 145, 198, 104, 219, 174, 214, 87, 58, 213, 217, 252, 219, 219, 243, 46, 218, 69,
      91, 42, 156, 251, 205, 67, 143, 94, 30, 174, 177, 161]
  else List.replicate 32 0

def oneAnchor : Primitives :=
  ⟨fun _ ↦ "", fun _ ↦ none, fun _ ↦ .error .signatureMissing, fun _ ↦ .error .signatureMissing,
    digestOfAnchor, fun _ _ ↦ false, fun _ _ _ _ ↦ .ok ()⟩

/-- The fingerprint of one anchor, as it is printed. -/
theorem fingerprint_laws_one :
    fromDisplay "NH37-B4E6-D3DT-XNJQ" = .ok (fromThumbprint oneAnchor [anchorThumbprint]) := by
  have hdigest : ∀ bytes, (oneAnchor.sha256 bytes).length = 32 := by
    intro bytes
    show (digestOfAnchor bytes).length = 32
    unfold digestOfAnchor
    split <;> rfl
  have hback := (fingerprint_laws oneAnchor hdigest).back _ (.fromThumbprint [anchorThumbprint])
  have hdisplay : AnchorFingerprint.display (fromThumbprint oneAnchor [anchorThumbprint]) =
      "NH37-B4E6-D3DT-XNJQ" := by decide +kernel
  rw [hdisplay] at hback
  exact hback

end FolderClient.Crypto.Fingerprint
