import FolderClient.Core.IdentifierText
import Mathlib.Data.Nat.Bitwise

namespace FolderClient.Core.IdentifierCodec

open FolderClient.Core.Namespace FolderClient.Core.IdentifierText FolderClient.Library.Texts

/-- The value a text of digits stands for, behind digits already read. -/
def valueOf (value : ℕ) (part : List Char) : ℕ :=
  part.foldl (fun value c ↦ value * 32 + alphabet.idxOf c) value

/-- A text of digits whose value fits 128 bits: the first one is at most seven. -/
structure Canonical (part : List Char) : Prop where
  length : part.length = IdentifierText.length
  strict : ∀ c ∈ part, c ∈ alphabet
  first : ∀ c ∈ part.head?, alphabet.idxOf c ≤ 7

/-- The digits with the shifts that select them, the most significant first. -/
def encode (value : ℕ) : List Char :=
  ((List.range IdentifierText.length).map fun i ↦
    alphabet.getD (value >>> (5 * i) &&& 0x1f) '0').reverse

/-- What the reading shifts and adds up, before it is cut to 128 bits. -/
def passedFrom : ℕ → ℕ → List Char → List ℕ
  | _, _, [] => []
  | i, value, c :: rest =>
    match alphabet.idxOf? c with
    | none => []
    | some index =>
      if i = 0 ∧ 7 < index then []
      else (value * 32 + index) :: passedFrom (i + 1) ((value * 32 + index) % 2 ^ 128) rest

def passed (part : List Char) : List ℕ :=
  if part.length ≠ IdentifierText.length ∨
      (part.map Char.utf8Size).sum ≠ IdentifierText.length then []
  else passedFrom 0 0 part

section Digits

variable {c : Char} {n v i value : ℕ} {part : List Char} {whole : String}

theorem idxOf_lt (h : c ∈ alphabet) : alphabet.idxOf c < 32 := List.idxOf_lt_length_of_mem h

theorem alphabet_idxOf (h : c ∈ alphabet) : alphabet.getD (alphabet.idxOf c) '0' = c := by
  rw [List.getD_eq_getElem _ _ (List.idxOf_lt_length_of_mem h), List.getElem_idxOf]

theorem idxOf_alphabet (h : n < 32) : alphabet.idxOf (alphabet.getD n '0') = n :=
  alphabet_getD_inj (idxOf_lt (by
    rw [List.getD_eq_getElem _ _ h]
    exact List.getElem_mem _)) h (alphabet_idxOf (by
    rw [List.getD_eq_getElem _ _ h]
    exact List.getElem_mem _))

theorem valueOf_cons (value : ℕ) (c : Char) (part : List Char) :
    valueOf value (c :: part) = valueOf (value * 32 + alphabet.idxOf c) part := rfl

theorem valueOf_concat (value : ℕ) (part : List Char) (c : Char) :
    valueOf value (part ++ [c]) = valueOf value part * 32 + alphabet.idxOf c := List.foldl_concat ..

theorem valueOf_digits (h : v < 32 ^ n) : valueOf 0 (digits n v) = v := by
  induction n generalizing v with
  | zero => exact (Nat.lt_one_iff.mp h).symm
  | succ n ih =>
    have hdiv : v / 32 < 32 ^ n := Nat.div_lt_of_lt_mul (by rwa [← Nat.pow_succ'])
    rw [digits, valueOf_concat, ih hdiv, idxOf_alphabet (Nat.mod_lt _ (by decide))]
    omega

theorem digits_valueOf (h : ∀ c ∈ part, c ∈ alphabet) :
    digits part.length (valueOf 0 part) = part := by
  induction part using List.reverseRecOn with
  | nil => rfl
  | append_singleton part c ih =>
    have hc := idxOf_lt (h c (List.mem_append_right _ List.mem_cons_self))
    have hdiv : (valueOf 0 part * 32 + alphabet.idxOf c) / 32 = valueOf 0 part := by omega
    have hmod : (valueOf 0 part * 32 + alphabet.idxOf c) % 32 = alphabet.idxOf c := by omega
    rw [List.length_append, List.length_singleton, valueOf_concat, digits, hdiv, hmod,
      ih fun c hc ↦ h c (List.mem_append_left _ hc),
      alphabet_idxOf (h c (List.mem_append_right _ List.mem_cons_self))]

theorem valueOf_lt (h : ∀ c ∈ part, c ∈ alphabet) :
    valueOf value part < (value + 1) * 32 ^ part.length := by
  induction part using List.reverseRecOn with
  | nil => simp [valueOf]
  | append_singleton part c ih =>
    have hc := idxOf_lt (h c (List.mem_append_right _ List.mem_cons_self))
    have hlt := ih fun c hc ↦ h c (List.mem_append_left _ hc)
    rw [valueOf_concat, List.length_append, List.length_singleton, pow_succ, ← mul_assoc]
    omega

theorem le_valueOf (value : ℕ) (part : List Char) :
    value * 32 ^ part.length ≤ valueOf value part := by
  induction part generalizing value with
  | nil => simp [valueOf]
  | cons c part ih =>
    rw [List.length_cons, pow_succ', ← mul_assoc, valueOf_cons]
    exact (Nat.mul_le_mul_right _ (Nat.le_add_right _ _)).trans (ih _)

/-- The digits of a value are those the shifts select. -/
theorem encode_eq_digits (v : ℕ) : encode v = digits IdentifierText.length v := by
  have hstep : ∀ n v, ((List.range n).map fun i ↦
      alphabet.getD (v >>> (5 * i) &&& 0x1f) '0').reverse = digits n v := by
    intro n
    induction n with
    | zero => exact fun _ ↦ rfl
    | succ n ih =>
      intro v
      rw [List.range_succ_eq_map, List.map_cons, List.reverse_cons, List.map_map, digits, ← ih]
      have hmask : v &&& 0x1f = v % 32 := Nat.and_two_pow_sub_one_eq_mod v 5
      rw [mul_zero, Nat.shiftRight_zero, hmask]
      refine congrArg (· ++ _) (congrArg List.reverse (List.map_congr_left fun i _ ↦ ?_))
      have hshift : v >>> (5 * (i + 1)) = (v / 32) >>> (5 * i) := by
        rw [mul_add_one, add_comm, Nat.shiftRight_add, Nat.shiftRight_eq_div_pow v 5]
      exact congrArg (fun x ↦ alphabet.getD (x &&& 0x1f) '0') hshift
  exact hstep _ v

end Digits

section Reading

variable {c : Char} {n v i value : ℕ} {part : List Char} {whole : String}

theorem decodeFrom_cons (c : Char) (rest : List Char) : decodeFrom whole i value (c :: rest) = .ok v ↔
    c ∈ alphabet ∧ (i = 0 → alphabet.idxOf c ≤ 7) ∧
      decodeFrom whole (i + 1) ((value * 32 + alphabet.idxOf c) % 2 ^ 128) rest = .ok v := by
  rw [decodeFrom]
  cases hidx : alphabet.idxOf? c with
  | none =>
    have hc := List.idxOf?_eq_none_iff.mp hidx
    simp [hc]
  | some index =>
    obtain ⟨hlt, hget, hfirst⟩ := List.idxOf?_eq_some_iff.mp hidx
    have hc : c ∈ alphabet := hget ▸ List.getElem_mem _
    have hindex : alphabet.idxOf c = index := by
      rw [List.idxOf_eq_getD_idxOf?, hidx]
      rfl
    rw [hindex]
    dsimp only
    split
    case isTrue h =>
      constructor
      · exact fun hn ↦ by cases hn
      · exact fun ⟨_, hle, _⟩ ↦ absurd (hle h.1) (by omega)
    case isFalse h => exact ⟨fun hr ↦ ⟨hc, fun hi ↦ by omega, hr⟩, fun hr ↦ hr.2.2⟩

theorem lt_of_mul_pow_le (h : (value + 1) * 32 ^ n ≤ 2 ^ 128) : value < 2 ^ 128 :=
  lt_of_lt_of_le (Nat.lt_succ_self _) ((Nat.le_mul_of_pos_right _ (Nat.pow_pos (by decide))).trans h)

/-- Where all the digits that are left fit, none is lost. -/
theorem decodeFrom_eq_ok (hb : (value + 1) * 32 ^ part.length ≤ 2 ^ 128) :
    decodeFrom whole (i + 1) value part = .ok v ↔
      (∀ c ∈ part, c ∈ alphabet) ∧ valueOf value part = v := by
  induction part generalizing i value with
  | nil => simp [decodeFrom, valueOf]
  | cons c rest ih =>
    rw [decodeFrom_cons, List.forall_mem_cons, and_assoc]
    refine and_congr_right fun hc ↦ ?_
    have hlt := idxOf_lt hc
    rw [List.length_cons, pow_succ'] at hb
    have hstep : (value * 32 + alphabet.idxOf c + 1) * 32 ^ rest.length ≤ 2 ^ 128 := by
      refine le_trans ?_ hb
      rw [← mul_assoc]
      exact Nat.mul_le_mul_right _ (by omega)
    rw [Nat.mod_eq_of_lt (lt_of_mul_pow_le hstep), ih hstep]
    exact ⟨fun ⟨_, hall, hv⟩ ↦ ⟨hall, hv⟩, fun ⟨hall, hv⟩ ↦ ⟨fun hn ↦ by omega, hall, hv⟩⟩

theorem utf8Size_alphabet (h : c ∈ alphabet) : c.utf8Size = 1 := by
  have hall : ∀ c ∈ alphabet, c.utf8Size = 1 := forall_of_all (by decide)
  exact hall c h

theorem decode_eq_ok : decode whole part = .ok v ↔ Canonical part ∧ valueOf 0 part = v := by
  rw [decode]
  by_cases hlength : part.length ≠ IdentifierText.length ∨
      (part.map Char.utf8Size).sum ≠ IdentifierText.length
  · rw [if_pos hlength]
    constructor
    · exact fun h ↦ by cases h
    · rintro ⟨hc, -⟩
      have hsum : (part.map Char.utf8Size).sum = part.length := by
        rw [List.map_congr_left fun c h ↦ utf8Size_alphabet (hc.strict c h)]
        simp
      rcases hlength with h | h
      · exact absurd hc.length h
      · exact absurd (hsum.trans hc.length) h
  · rw [if_neg hlength]
    push Not at hlength
    cases part with
    | nil => cases hlength.1
    | cons c rest =>
      have hrest : rest.length = 25 := Nat.succ.inj hlength.1
      have hzero : 0 * 32 + alphabet.idxOf c = alphabet.idxOf c := by omega
      rw [decodeFrom_cons, hzero, valueOf_cons, hzero]
      constructor
      · rintro ⟨hc, hfirst, h⟩
        have hle := hfirst rfl
        have hfits : (alphabet.idxOf c + 1) * 32 ^ rest.length ≤ 2 ^ 128 := by
          rw [hrest]
          omega
        rw [Nat.mod_eq_of_lt (lt_of_mul_pow_le hfits), decodeFrom_eq_ok hfits] at h
        refine ⟨⟨hlength.1, List.forall_mem_cons.mpr ⟨hc, h.1⟩, ?_⟩, h.2⟩
        rintro d ⟨⟩
        exact hle
      · rintro ⟨hc, hv⟩
        have hle := hc.first c rfl
        have hfits : (alphabet.idxOf c + 1) * 32 ^ rest.length ≤ 2 ^ 128 := by
          rw [hrest]
          omega
        refine ⟨hc.strict c List.mem_cons_self, fun _ ↦ hle, ?_⟩
        rw [Nat.mod_eq_of_lt (lt_of_mul_pow_le hfits), decodeFrom_eq_ok hfits]
        exact ⟨fun d hd ↦ hc.strict d (List.mem_cons_of_mem _ hd), hv⟩

theorem passedFrom_lt (hb : (value + 1) * 32 ^ part.length ≤ 2 ^ 128) :
    ∀ n ∈ passedFrom (i + 1) value part, n < 2 ^ 128 := by
  induction part generalizing i value with
  | nil => exact fun n hn ↦ by cases hn
  | cons c rest ih =>
    rw [passedFrom]
    cases hidx : alphabet.idxOf? c with
    | none => exact fun n hn ↦ by cases hn
    | some index =>
      obtain ⟨hlt, -⟩ := List.idxOf?_eq_some_iff.mp hidx
      have hindex : index < 32 := hlt
      dsimp only
      rw [if_neg (by omega)]
      have hstep : (value * 32 + index + 1) * 32 ^ rest.length ≤ 2 ^ 128 := by
        rw [List.length_cons, pow_succ', ← mul_assoc] at hb
        exact (Nat.mul_le_mul_right _ (by omega)).trans hb
      rw [Nat.mod_eq_of_lt (lt_of_mul_pow_le hstep)]
      exact List.forall_mem_cons.mpr ⟨lt_of_mul_pow_le hstep, ih hstep⟩

/-- No digit is shifted out, whatever the text. -/
theorem passed_lt (part : List Char) : ∀ n ∈ passed part, n < 2 ^ 128 := by
  rw [passed]
  split
  case isTrue => exact fun n hn ↦ by cases hn
  case isFalse hlength =>
    cases part with
    | nil => exact fun n hn ↦ by cases hn
    | cons c rest =>
      have hrest : rest.length = 25 := Nat.succ.inj (not_not.mp (not_or.mp hlength).1)
      rw [passedFrom]
      cases hidx : alphabet.idxOf? c with
      | none => exact fun n hn ↦ by cases hn
      | some index =>
        dsimp only
        split
        case isTrue => exact fun n hn ↦ by cases hn
        case isFalse hfirst =>
          have hstep : (0 * 32 + index + 1) * 32 ^ rest.length ≤ 2 ^ 128 := by
            rw [hrest]
            omega
          rw [Nat.mod_eq_of_lt (lt_of_mul_pow_le hstep)]
          exact List.forall_mem_cons.mpr ⟨lt_of_mul_pow_le hstep, passedFrom_lt hstep⟩

end Reading

section Parsing

variable {kind : IdKind} {text : String} {i : Identifier kind} {part : List Char}

/-- Texts with their digits behind the prefix and the underscore. -/
theorem stripped_iff : (strip (wirePrefix kind).toList text.toList).bind (strip ['_']) = some part ↔
    text = wirePrefix kind ++ "_" ++ String.ofList part := by
  rw [Option.bind_eq_some_iff]
  simp only [strip_eq_some_iff]
  constructor
  · rintro ⟨rest, htext, rfl⟩
    rw [← String.toList_inj, htext, String.toList_append, String.toList_append, List.append_assoc,
      String.toList_ofList (l := part)]
    rfl
  · rintro rfl
    refine ⟨['_'] ++ part, ?_, rfl⟩
    rw [String.toList_append, String.toList_append, String.toList_ofList (l := part),
      List.append_assoc]
    rfl

theorem valueOf_lt_of_canonical (h : Canonical part) : valueOf 0 part < 2 ^ 128 := by
  cases part with
  | nil => cases h.length
  | cons c rest =>
    have hrest : rest.length = 25 := Nat.succ.inj h.length
    have hle := h.first c rfl
    have hlt := @valueOf_lt (alphabet.idxOf c) rest
      fun d hd ↦ h.strict d (List.mem_cons_of_mem c hd)
    rw [hrest] at hlt
    rw [valueOf_cons, zero_mul, zero_add]
    exact hlt.trans_le (by omega)

theorem parse_eq_ok : parse kind text = .ok i ↔ ∃ part, Canonical part ∧
    text = wirePrefix kind ++ "_" ++ String.ofList part ∧ valueOf 0 part = i.value := by
  rw [parse]
  cases hstrip : (strip (wirePrefix kind).toList text.toList).bind (strip ['_']) with
  | none =>
    constructor
    · exact fun h ↦ by cases h
    · rintro ⟨part, -, htext, -⟩
      rw [stripped_iff.mpr htext] at hstrip
      cases hstrip
  | some part =>
    have htext := stripped_iff.mp hstrip
    dsimp only
    constructor
    · intro h
      cases hd : decode text part with
      | error e =>
        rw [hd] at h
        cases h
      | ok v =>
        rw [hd] at h
        obtain rfl := Except.ok.inj h
        obtain ⟨hc, rfl⟩ := decode_eq_ok.mp hd
        exact ⟨part, hc, htext, (Nat.mod_eq_of_lt (valueOf_lt_of_canonical hc)).symm⟩
    · rintro ⟨part', hc, htext', hv⟩
      obtain rfl : part = part' := by
        rw [stripped_iff.mpr htext'] at hstrip
        exact (Option.some.inj hstrip).symm
      have hfin : Fin.ofNat (2 ^ 128) (valueOf 0 part) = i.value :=
        Fin.ext ((Nat.mod_eq_of_lt (valueOf_lt_of_canonical hc)).trans hv)
      rw [decode_eq_ok.mpr ⟨hc, rfl⟩]
      exact congrArg Except.ok (Identifier.ext hfin)

theorem canonical_identifierPart (i : Identifier kind) : Canonical (identifierPart i) where
  length := length_digits _ _
  strict _ := mem_digits
  first := by
    intro c hc
    have hlt : (i.value : ℕ) < 2 ^ 128 := i.value.isLt
    cases hpart : identifierPart i with
    | nil =>
      rw [hpart] at hc
      cases hc
    | cons d rest =>
      rw [hpart] at hc
      obtain rfl := Option.some.inj hc
      by_contra hfirst
      -- A first digit above seven is worth more than 128 bits hold.
      have hvalue : valueOf 0 (d :: rest) = i.value := by
        rw [← hpart]
        exact valueOf_digits (hlt.trans (by decide))
      have hlength : (identifierPart i).length = 26 := length_digits _ _
      rw [hpart] at hlength
      have hrest : rest.length = 25 := Nat.succ.inj hlength
      have hge := le_valueOf (alphabet.idxOf d) rest
      rw [hrest] at hge
      rw [valueOf_cons, zero_mul, zero_add] at hvalue
      omega

/-- Encoding and parsing are inverse to each other, and parsing accepts the canonical texts alone. -/
theorem codec (kind : IdKind) :
    (∀ i, parse kind (display kind i) = .ok i) ∧
    (∀ text, (∃ i, parse kind text = .ok i) ↔ ∃ part, Canonical part ∧
      text = wirePrefix kind ++ "_" ++ String.ofList part) ∧
    (∀ text i, parse kind text = .ok i → display kind i = text) ∧
    (∀ i : Identifier kind, identifierPart i = encode i.value) ∧
    (∀ i < IdentifierText.length, 5 * i < 128) ∧ ∀ part, ∀ n ∈ passed part, n < 2 ^ 128 := by
  refine ⟨fun i ↦ ?_, fun text ↦ ⟨?_, ?_⟩, fun text i h ↦ ?_, fun i ↦ ?_, ?_, passed_lt⟩
  · have hlt : (i.value : ℕ) < 2 ^ 128 := i.value.isLt
    exact parse_eq_ok.mpr ⟨identifierPart i, canonical_identifierPart i, rfl,
      valueOf_digits (hlt.trans (by decide))⟩
  · rintro ⟨i, h⟩
    obtain ⟨part, hc, htext, -⟩ := parse_eq_ok.mp h
    exact ⟨part, hc, htext⟩
  · rintro ⟨part, hc, htext⟩
    exact ⟨⟨⟨valueOf 0 part, valueOf_lt_of_canonical hc⟩⟩, parse_eq_ok.mpr ⟨part, hc, htext, rfl⟩⟩
  · obtain ⟨part, hc, rfl, hv⟩ := parse_eq_ok.mp h
    rw [display, identifierPart, ← hv, ← hc.length, digits_valueOf hc.strict]
  · exact (encode_eq_digits _).symm
  · decide

end Parsing

end FolderClient.Core.IdentifierCodec
