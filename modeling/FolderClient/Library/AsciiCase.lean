import Mathlib
import FolderClient.Library.Texts

namespace FolderClient.Library.Texts

theorem toLower_eq_iff {c d : Char} (hd : d.isAlpha = false) : c.toLower = d ↔ c = d := by
  by_cases hc : c.isUpper = true
  · constructor
    · rintro rfl
      rw [Char.isAlpha_toLower_eq_isAlpha, Char.isAlpha, hc] at hd
      cases hd
    · rintro rfl
      rw [Char.isAlpha, hc] at hd
      cases hd
  · rw [Char.toLower_eq_of_not_isUpper hc]

theorem mem_asciiLower {d : Char} (hd : d.isAlpha = false) {text : List Char} :
    d ∈ asciiLower text ↔ d ∈ text := by
  rw [asciiLower, List.mem_map]
  constructor
  · rintro ⟨c, hc, heq⟩
    rwa [← (toLower_eq_iff hd).mp heq]
  · intro h
    exact ⟨d, h, (toLower_eq_iff hd).mpr rfl⟩

theorem asciiLower_idem (text : List Char) : asciiLower (asciiLower text) = asciiLower text := by
  rw [asciiLower, asciiLower, List.map_map]
  exact List.map_congr_left fun c _ ↦ Char.toLower_toLower_eq_toLower c

theorem head_asciiLower {d : Char} (hd : d.isAlpha = false) {text : List Char} :
    (asciiLower text).head? = some d ↔ text.head? = some d := by
  cases text with
  | nil => exact Iff.rfl
  | cons c text =>
    rw [asciiLower, List.map_cons, List.head?_cons, List.head?_cons, Option.some_inj,
      Option.some_inj, toLower_eq_iff hd]

theorem idxOf?_asciiLower {d : Char} (hd : d.isAlpha = false) (text : List Char) :
    (asciiLower text).idxOf? d = text.idxOf? d := by
  induction text with
  | nil => rfl
  | cons c text ih =>
    have hcons : asciiLower (c :: text) = c.toLower :: asciiLower text := rfl
    rw [hcons, List.idxOf?_cons, List.idxOf?_cons, ih]
    by_cases hc : c = d
    · rw [hc, (toLower_eq_iff hd).mpr rfl]
    · have hlower : c.toLower ≠ d := fun h ↦ hc ((toLower_eq_iff hd).mp h)
      rw [beq_false_of_ne hc, beq_false_of_ne hlower]

theorem strip_cons (d c : Char) (beginning text : List Char) :
    strip (d :: beginning) (c :: text) = if c = d then strip beginning text else none := by
  rw [strip, strip, List.isPrefixOf_cons_cons]
  by_cases hc : c = d
  · rw [if_pos hc, hc, beq_self_eq_true, Bool.true_and]
    rfl
  · rw [if_neg hc, beq_false_of_ne (Ne.symm hc), Bool.false_and]
    rfl

theorem strip_asciiLower {beginning : List Char} (h : ∀ d ∈ beginning, d.isAlpha = false)
    (text : List Char) : strip beginning (asciiLower text) = (strip beginning text).map asciiLower := by
  induction beginning generalizing text with
  | nil => rfl
  | cons d beginning ih =>
    cases text with
    | nil => rfl
    | cons c text =>
      have hrest := ih (fun e he ↦ h e (List.mem_cons_of_mem _ he)) text
      have hiff := @toLower_eq_iff c d (h d List.mem_cons_self)
      have hcons : asciiLower (c :: text) = c.toLower :: asciiLower text := rfl
      rw [hcons, strip_cons, strip_cons, hrest]
      by_cases hc : c = d
      · rw [if_pos hc, if_pos (hiff.mpr hc)]
      · rw [if_neg hc, if_neg fun hlower ↦ hc (hiff.mp hlower), Option.map_none]

theorem splitAt_asciiLower {separator : List Char} (h : ∀ d ∈ separator, d.isAlpha = false)
    (text : List Char) : splitAt separator (asciiLower text) =
      (splitAt separator text).map (Prod.map asciiLower asciiLower) := by
  induction text with
  | nil =>
    rw [asciiLower, List.map_nil, splitAt]
    split <;> rfl
  | cons c text ih =>
    have hstrip := strip_asciiLower h (c :: text)
    have hcons : asciiLower (c :: text) = c.toLower :: asciiLower text := rfl
    rw [hcons] at hstrip ⊢
    rw [splitAt, splitAt, hstrip, ih]
    cases strip separator (c :: text) with
    | some rest => rfl
    | none =>
      rw [Option.map_none]
      cases splitAt separator text <;> rfl

theorem isWhitespace_of_isAlpha {c : Char} (h : c.isAlpha = true) : isWhitespace c = false := by
  simp only [Char.isAlpha, Char.isUpper, Char.isLower, Bool.or_eq_true, Bool.and_eq_true,
    decide_eq_true_eq, ge_iff_le, UInt32.le_iff_toNat_le, Char.reduceVal] at h
  have hval : c.val.toNat = c.toNat := rfl
  rw [hval] at h
  simp [isWhitespace]
  have h65 : UInt32.toNat 65 = 65 := rfl
  have h90 : UInt32.toNat 90 = 90 := rfl
  have h97 : UInt32.toNat 97 = 97 := rfl
  have h122 : UInt32.toNat 122 = 122 := rfl
  rw [h65, h90, h97, h122] at h
  omega

theorem isWhitespace_toLower (c : Char) : isWhitespace c.toLower = isWhitespace c := by
  by_cases hc : c.isUpper = true
  · have halpha : c.isAlpha = true := by rw [Char.isAlpha, hc, Bool.true_or]
    rw [isWhitespace_of_isAlpha halpha, isWhitespace_of_isAlpha]
    rw [Char.isAlpha_toLower_eq_isAlpha, halpha]
  · rw [Char.toLower_eq_of_not_isUpper hc]

/-- Letter case does not touch the edges. -/
theorem trim_asciiLower (text : List Char) : trim (asciiLower text) = asciiLower (trim text) := by
  have hwhite : isWhitespace ∘ Char.toLower = isWhitespace := funext isWhitespace_toLower
  rw [trim, trim, asciiLower, asciiLower, List.dropWhile_map, hwhite, List.rdropWhile,
    List.rdropWhile, ← List.map_reverse, List.dropWhile_map, hwhite, List.map_reverse]

end FolderClient.Library.Texts
