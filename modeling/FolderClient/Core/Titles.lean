import FolderClient.Core.Filename
import Mathlib.Data.List.Chain

namespace FolderClient.Core.Titles

open FolderClient.Core.Namespace FolderClient.Core.Filename FolderClient.Library.Texts

section Texts

theorem isPrefix_takeBytes (limit : ℕ) (l : List Char) : takeBytes limit l <+: l := by
  induction l generalizing limit with
  | nil => exact List.nil_prefix
  | cons c l ih =>
    rw [takeBytes]
    split
    · exact List.cons_prefix_cons.mpr ⟨rfl, ih _⟩
    · exact List.nil_prefix

theorem utf8Length_takeBytes (limit : ℕ) (l : List Char) :
    utf8Length (takeBytes limit l) ≤ limit := by
  induction l generalizing limit with
  | nil => exact Nat.zero_le _
  | cons c l ih =>
    rw [takeBytes]
    split
    · rename_i hc
      have h := ih (limit - c.utf8Size)
      simp only [utf8Length, List.map_cons, List.sum_cons] at h ⊢
      omega
    · exact Nat.zero_le _

theorem utf8Length_append (l l' : List Char) :
    utf8Length (l ++ l') = utf8Length l + utf8Length l' := by
  simp [utf8Length]

theorem shorten_subset (l : List Char) : shorten l ⊆ l := by
  intro c hc
  have h₁ := (List.rdropWhile_prefix _ _).subset hc
  have h₂ := (isPrefix_takeBytes _ _).subset h₁
  have h₃ := (List.rdropWhile_prefix _ _).subset h₂
  exact (List.dropWhile_suffix _).subset ((List.dropWhile_suffix _).subset h₃)

theorem utf8Length_shorten (l : List Char) : utf8Length (shorten l) ≤ maxTitleBytes := by
  have h := utf8Length_takeBytes maxTitleBytes (trim (l.dropWhile (· = '.')))
  obtain ⟨t, ht⟩ := List.rdropWhile_prefix (fun c : Char ↦ (c = '.' || c = ' ' : Bool))
    (takeBytes maxTitleBytes (trim (l.dropWhile (· = '.'))))
  rw [← ht, utf8Length_append] at h
  unfold shorten
  omega

/-- The title with a name for what is left over. -/
def titled (text : List Char) : List Char := if text.isEmpty then unnamed.toList else text

theorem settle_eq (text : List Char) :
    settle text = if String.ofList (trim (asciiUpper (stem (titled text)))) ∈ reserved then
      (titled text).take (trim (asciiUpper (stem (titled text)))).length ++
        '_' :: (titled text).drop (trim (asciiUpper (stem (titled text)))).length
    else titled text := rfl

theorem isWhitespace_toUpper (c : Char) : isWhitespace c.toUpper = isWhitespace c := by
  have hsmall : ∀ n < 123, isWhitespace (Char.ofNat n).toUpper = isWhitespace (Char.ofNat n) := by
    decide +kernel
  by_cases h : c.toNat < 123
  · have hc := hsmall c.toNat h
    rwa [Char.ofNat_toNat] at hc
  · have hupper : c.toUpper = c := by
      unfold Char.toUpper
      refine dif_neg fun hc ↦ h ?_
      have hle := UInt32.le_iff_toNat_le.mp hc.2
      change c.toNat ≤ 122 at hle
      omega
    rw [hupper]

theorem asciiUpper_rdropWhile (l : List Char) :
    asciiUpper (l.rdropWhile isWhitespace) = (asciiUpper l).rdropWhile isWhitespace := by
  have hp : isWhitespace ∘ Char.toUpper = isWhitespace := funext isWhitespace_toUpper
  simp only [asciiUpper, List.rdropWhile, ← List.map_reverse, List.dropWhile_map, hp]

theorem trim_of_rdropWhile {x : List Char} {c : Char} {rest : List Char}
    (h : x.rdropWhile isWhitespace = c :: rest) (hc : isWhitespace c = false) :
    trim x = c :: rest := by
  obtain ⟨t, ht⟩ := List.rdropWhile_prefix isWhitespace x
  rw [h] at ht
  have hx : x.dropWhile isWhitespace = x := by
    rw [← ht, List.cons_append, List.dropWhile_cons_of_neg (by simp [hc])]
  rw [trim, hx, h]

theorem mem_rdropWhile {c : Char} {l : List Char} (hm : c ∈ l) (hc : isWhitespace c = false) :
    c ∈ l.rdropWhile isWhitespace := by
  induction l using List.reverseRecOn with
  | nil => cases hm
  | append_singleton l d ih =>
    rw [List.rdropWhile_concat]
    split
    · rename_i hd
      rcases List.mem_append.mp hm with hm | hm
      · exact ih hm
      · obtain rfl := List.mem_singleton.mp hm
        rw [hc] at hd
        cases hd
    · exact hm

theorem length_trim_le (l : List Char) : (trim l).length ≤ l.length :=
  ((List.rdropWhile_prefix _ _).length_le).trans (List.dropWhile_suffix _).length_le

end Texts

section Replacing

/-- A character that the replacement leaves as it is. -/
def Plain (c : Char) : Prop := fallback c = none ∧ (isWhitespace c = true → c = ' ')

instance (c : Char) : Decidable (Plain c) := inferInstanceAs (Decidable (_ ∧ _))

/-- No two spaces stand side by side. -/
def Spaced (l : List Char) : Prop := l.IsChain fun a b ↦ ¬ (a = ' ' ∧ b = ' ')

variable {spaceBefore started : Bool} {c : Char} {l : List Char}

theorem replacement_cases (c : Char) : fallback c = none ∨ fallback c = some '-' ∨
    fallback c = some '_' ∨ fallback c = some ' ' := by
  unfold fallback
  split
  · exact .inr (.inl rfl)
  · split
    · exact .inr (.inr (.inl rfl))
    · split
      · exact .inr (.inr (.inr rfl))
      · exact .inl rfl

theorem fallback_replacement (c : Char) : fallback ((fallback c).getD c) = none := by
  rcases replacement_cases c with h | h | h | h
  · rw [h, Option.getD_none, h]
  · rw [h, Option.getD_some]
    decide
  · rw [h, Option.getD_some]
    decide
  · rw [h, Option.getD_some]
    decide

theorem plain_of_mem_replaceFrom (h : c ∈ replaceFrom spaceBefore started l) : Plain c := by
  induction l generalizing spaceBefore started with
  | nil => cases h
  | cons d l ih =>
    rw [replaceFrom] at h
    split at h
    · split at h
      · rcases List.mem_cons.mp h with rfl | h
        · exact ⟨by decide, fun _ ↦ rfl⟩
        · exact ih h
      · exact ih h
    · rename_i hspace
      rcases List.mem_cons.mp h with rfl | h
      · exact ⟨fallback_replacement d, fun hw ↦ absurd hw hspace⟩
      · exact ih h

/-- Behind a space, and at the beginning, no space follows. -/
theorem spaced_replaceFrom (l : List Char) (spaceBefore started : Bool) :
    Spaced (replaceFrom spaceBefore started l) ∧
      (spaceBefore = true ∨ started = false →
        ∀ c ∈ (replaceFrom spaceBefore started l).head?, c ≠ ' ') := by
  induction l generalizing spaceBefore started with
  | nil => exact ⟨List.IsChain.nil, fun _ c hc ↦ by cases hc⟩
  | cons d l ih =>
    rw [replaceFrom]
    by_cases hspace : isWhitespace ((fallback d).getD d) = true
    · rw [if_pos hspace]
      by_cases hemit : (!spaceBefore && started) = true
      · rw [if_pos hemit]
        obtain ⟨hrest, hhead⟩ := ih true true
        rw [Bool.and_eq_true, Bool.not_eq_true'] at hemit
        refine ⟨List.isChain_cons.mpr ⟨fun c hc h ↦ hhead (.inl rfl) c hc h.2, hrest⟩, ?_⟩
        rintro (h | h)
        · rw [hemit.1] at h
          cases h
        · rw [hemit.2] at h
          cases h
      · rw [if_neg hemit]
        obtain ⟨hrest, hhead⟩ := ih true started
        exact ⟨hrest, fun _ ↦ hhead (.inl rfl)⟩
    · rw [if_neg hspace]
      have hne : (fallback d).getD d ≠ ' ' := by
        intro h
        rw [h] at hspace
        exact hspace (by decide)
      refine ⟨List.isChain_cons.mpr ⟨fun c _ h ↦ hne h.1, (ih false true).1⟩, ?_⟩
      rintro - c hc
      obtain rfl := Option.some.inj hc
      exact hne

theorem replaceFrom_self (hplain : ∀ c ∈ l, Plain c) (hspaced : Spaced l)
    (hhead : spaceBefore = true ∨ started = false → ∀ c ∈ l.head?, c ≠ ' ') :
    replaceFrom spaceBefore started l = l := by
  induction l generalizing spaceBefore started with
  | nil => rfl
  | cons d l ih =>
    obtain ⟨hd, hl⟩ := List.forall_mem_cons.mp hplain
    obtain ⟨hnext, hrest⟩ := List.isChain_cons.mp hspaced
    rw [replaceFrom, hd.1, Option.getD_none]
    by_cases hspace : isWhitespace d = true
    · obtain rfl := hd.2 hspace
      have hemit : (!spaceBefore && started) = true := by
        cases spaceBefore <;> cases started
        · exact absurd rfl (hhead (.inr rfl) _ rfl)
        · rfl
        · exact absurd rfl (hhead (.inl rfl) _ rfl)
        · exact absurd rfl (hhead (.inl rfl) _ rfl)
      rw [if_pos hspace, if_pos hemit,
        ih hl hrest fun _ c hc h ↦ hnext c hc ⟨rfl, h⟩]
    · rw [if_neg hspace, ih hl hrest]
      rintro (h | h) <;> cases h

end Replacing

section Shortening

variable {l : List Char} {c : Char}

theorem infix_shorten (l : List Char) : shorten l <:+: l := by
  have h₁ := (List.rdropWhile_prefix (fun c : Char ↦ (c = '.' || c = ' ' : Bool))
    (takeBytes maxTitleBytes (trim (l.dropWhile (· = '.'))))).isInfix
  have h₂ := (isPrefix_takeBytes maxTitleBytes (trim (l.dropWhile (· = '.')))).isInfix
  have h₃ := (List.rdropWhile_prefix isWhitespace
    ((l.dropWhile (· = '.')).dropWhile isWhitespace)).isInfix
  have h₄ := (List.dropWhile_suffix (l := l.dropWhile (· = '.')) isWhitespace).isInfix
  have h₅ := (List.dropWhile_suffix (l := l) (fun c : Char ↦ decide (c = '.'))).isInfix
  exact h₁.trans (h₂.trans (h₃.trans (h₄.trans h₅)))

/-- What a title comes down to before it is cut to length. -/
def bare (l : List Char) : List Char := trim (l.dropWhile (· = '.'))

theorem head?_of_prefix {a b : List Char} (h : a <+: b) (hne : a ≠ []) : a.head? = b.head? := by
  obtain ⟨t, rfl⟩ := h
  exact (List.head?_append_of_ne_nil _ hne).symm

theorem prefix_shorten (l : List Char) : shorten l <+: bare l :=
  (List.rdropWhile_prefix _ _).trans (isPrefix_takeBytes _ _)

theorem head?_shorten (hne : shorten l ≠ []) : (shorten l).head? = (bare l).head? :=
  head?_of_prefix (prefix_shorten l) hne

theorem isWhitespace_head_trim (h : (trim l).head? = some c) : isWhitespace c = false := by
  have hne : trim l ≠ [] := by
    rintro hnil
    rw [hnil] at h
    cases h
  rw [trim, head?_of_prefix (List.rdropWhile_prefix _ _) hne] at h
  have hdropped := List.head?_dropWhile_not isWhitespace l
  rw [h] at hdropped
  exact hdropped

theorem last_shorten (hne : shorten l ≠ []) : ∀ c ∈ (shorten l).getLast?, c ≠ '.' ∧ c ≠ ' ' := by
  intro c hc
  rw [List.getLast?_eq_some_getLast hne] at hc
  obtain rfl := Option.some.inj hc
  have h := List.rdropWhile_last_not _ _ hne
  simp only [Bool.or_eq_true, decide_eq_true_eq, not_or] at h
  exact h

theorem takeBytes_self {limit : ℕ} (h : utf8Length l ≤ limit) : takeBytes limit l = l := by
  induction l generalizing limit with
  | nil => rfl
  | cons c l ih =>
    simp only [utf8Length, List.map_cons, List.sum_cons] at h ih
    rw [takeBytes, if_pos (by omega), ih (by omega)]

/-- A text that is short enough and has nothing to lose at its edges. -/
theorem shorten_self (hplain : ∀ c ∈ l, Plain c) (hlength : utf8Length l ≤ maxTitleBytes)
    (hhead : ∀ c ∈ l.head?, c ≠ '.' ∧ c ≠ ' ') (hlast : ∀ c ∈ l.getLast?, c ≠ '.' ∧ c ≠ ' ') :
    shorten l = l := by
  cases hl : l with
  | nil => rfl
  | cons c rest =>
    rw [← hl]
    have hne : l ≠ [] := by
      rw [hl]
      exact List.cons_ne_nil _ _
    have hfirst : ∀ p : Char → Bool, p c = false → l.dropWhile p = l := by
      intro p hp
      rw [hl, List.dropWhile_cons_of_neg (by simp [hp])]
    have hend : ∀ p : Char → Bool, p (l.getLast hne) = false → l.rdropWhile p = l := by
      intro p hp
      exact List.rdropWhile_eq_self_iff.mpr fun _ ↦ by simp [hp]
    have hspace : ∀ d ∈ l, d ≠ ' ' → isWhitespace d = false := by
      intro d hd hnot
      rw [← Bool.not_eq_true]
      exact fun hw ↦ hnot ((hplain d hd).2 hw)
    have hc := hhead c (by
      rw [hl]
      rfl)
    have hd := hlast (l.getLast hne) (List.getLast?_eq_some_getLast hne)
    have hcl : c ∈ l := by
      rw [hl]
      exact List.mem_cons_self
    rw [shorten, hfirst _ (by simp [hc.1]), trim, hfirst _ (hspace c hcl hc.2),
      hend _ (hspace _ (List.getLast_mem hne) hd.2), takeBytes_self hlength,
      hend _ (by simp [hd.1, hd.2])]

end Shortening

section Settling

/-- The name of the device that a text would be taken for. -/
def deviceOf (text : List Char) : List Char := trim (asciiUpper (stem text))

variable {text : List Char}

theorem length_deviceOf_le (text : List Char) : (deviceOf text).length ≤ (stem text).length :=
  (length_trim_le _).trans (by rw [asciiUpper, List.length_map])

/-- With the underscore a text is taken for no device. -/
theorem deviceOf_marked (text : List Char) : String.ofList
    (deviceOf (text.take (deviceOf text).length ++ '_' :: text.drop (deviceOf text).length)) ∉
      reserved := by
  have hn := length_deviceOf_le text
  generalize (deviceOf text).length = n at hn
  have htake : ∀ c ∈ text.take n, decide (c ≠ '.') = true := by
    obtain ⟨u, hu⟩ : stem text <+: text := List.takeWhile_prefix _
    intro c hc
    rw [← hu, List.take_append_of_le_length hn] at hc
    simpa using List.mem_takeWhile_imp (List.mem_of_mem_take hc)
  have hmem : '_' ∈ stem (text.take n ++ '_' :: text.drop n) := by
    rw [stem, List.takeWhile_append_of_pos htake, List.takeWhile_cons_of_pos (by decide)]
    exact List.mem_append_right _ List.mem_cons_self
  have hupper : '_' ∈ asciiUpper (stem (text.take n ++ '_' :: text.drop n)) :=
    List.mem_map.mpr ⟨'_', hmem, by decide⟩
  have hdevice : '_' ∈ deviceOf (text.take n ++ '_' :: text.drop n) := by
    refine mem_rdropWhile ?_ (by decide)
    have hsplit := List.takeWhile_append_dropWhile (p := isWhitespace)
      (l := asciiUpper (stem (text.take n ++ '_' :: text.drop n)))
    rw [← hsplit, List.mem_append] at hupper
    refine hupper.resolve_left fun h ↦ ?_
    have hspace := List.mem_takeWhile_imp h
    exact absurd hspace (by decide)
  have hnone : ∀ w ∈ reserved, '_' ∉ w.toList := by decide
  intro h
  refine hnone _ h ?_
  rwa [String.toList_ofList]

theorem settle_cases (text : List Char) :
    (settle text = titled text ∧ String.ofList (deviceOf (titled text)) ∉ reserved) ∨
      (String.ofList (deviceOf (titled text)) ∈ reserved ∧
        settle text = (titled text).take (deviceOf (titled text)).length ++
          '_' :: (titled text).drop (deviceOf (titled text)).length) := by
  rw [settle_eq]
  by_cases h : String.ofList (deviceOf (titled text)) ∈ reserved
  · exact .inr ⟨h, if_pos h⟩
  · exact .inl ⟨if_neg h, h⟩

theorem deviceOf_settle (text : List Char) : String.ofList (deviceOf (settle text)) ∉ reserved := by
  rcases settle_cases text with ⟨heq, hnot⟩ | ⟨-, heq⟩
  · rw [heq]
    exact hnot
  · rw [heq]
    exact deviceOf_marked _

theorem pos_of_reserved (h : String.ofList (deviceOf text) ∈ reserved) :
    0 < (deviceOf text).length := by
  rw [List.length_pos_iff]
  intro hnil
  rw [hnil] at h
  exact absurd h (by decide)

theorem titled_of_ne (h : text ≠ []) : titled text = text :=
  if_neg (by rwa [List.isEmpty_iff])

/-- What the settling keeps of a text, whatever it adds. -/
theorem head?_settle (text : List Char) : (settle text).head? = (titled text).head? := by
  rcases settle_cases text with ⟨heq, -⟩ | ⟨hres, heq⟩
  · rw [heq]
  · rw [heq]
    have hpos := pos_of_reserved hres
    cases ht : titled text with
    | nil =>
      rw [ht] at hpos
      exact absurd hpos (by decide)
    | cons c rest =>
      rw [ht] at hpos
      obtain ⟨n, hn⟩ := Nat.exists_eq_succ_of_ne_zero hpos.ne'
      rw [hn, List.take_succ_cons]
      rfl

theorem getLast?_settle (text : List Char) :
    (settle text).getLast? = (titled text).getLast? ∨ (settle text).getLast? = some '_' := by
  rcases settle_cases text with ⟨heq, -⟩ | ⟨-, heq⟩
  · exact .inl (congrArg _ heq)
  · rw [heq]
    generalize (deviceOf (titled text)).length = n
    by_cases hd : (titled text).drop n = []
    · refine .inr ?_
      rw [hd, List.getLast?_concat]
    · refine .inl ?_
      have ht := congrArg List.getLast? (List.take_append_drop n (titled text))
      rw [List.getLast?_append_of_ne_nil _ hd] at ht
      rw [List.getLast?_append_of_ne_nil _ (List.cons_ne_nil _ _),
        List.getLast?_cons_of_ne_nil hd, ht]

theorem mem_settle {c : Char} (h : c ∈ settle text) : c ∈ titled text ∨ c = '_' := by
  rcases settle_cases text with ⟨heq, -⟩ | ⟨-, heq⟩
  · exact .inl (heq ▸ h)
  · rw [heq] at h
    rcases List.mem_append.mp h with h | h
    · exact .inl (List.mem_of_mem_take h)
    · rcases List.mem_cons.mp h with h | h
      · exact .inr h
      · exact .inl (List.mem_of_mem_drop h)

theorem utf8Length_settle (text : List Char) : utf8Length (settle text) =
    utf8Length (titled text) +
      if String.ofList (deviceOf (titled text)) ∈ reserved then 1 else 0 := by
  rcases settle_cases text with ⟨heq, hnot⟩ | ⟨hres, heq⟩
  · rw [heq, if_neg hnot, Nat.add_zero]
  · rw [heq, if_pos hres]
    generalize (deviceOf (titled text)).length = n
    have ht := congrArg utf8Length (List.take_append_drop n (titled text))
    have hone : utf8Length ['_'] = 1 := rfl
    rw [utf8Length_append] at ht
    rw [List.append_cons, utf8Length_append, utf8Length_append, hone]
    omega

theorem spaced_settle (h : Spaced (titled text)) : Spaced (settle text) := by
  rcases settle_cases text with ⟨heq, -⟩ | ⟨-, heq⟩
  · rw [heq]
    exact h
  · rw [heq]
    generalize (deviceOf (titled text)).length = n
    have htake : Spaced ((titled text).take n) := List.IsChain.infix h (List.take_prefix n _).isInfix
    have hdrop : Spaced ((titled text).drop n) := List.IsChain.infix h (List.drop_suffix n _).isInfix
    have hmark : Spaced ('_' :: (titled text).drop n) :=
      List.isChain_cons.mpr ⟨fun c _ hc ↦ absurd hc.1 (by decide), hdrop⟩
    refine htake.append hmark fun c _ d hd hcd ↦ ?_
    obtain rfl := Option.some.inj hd
    exact absurd hcd.2 (by decide)

end Settling

section Normalising

/-- What is relied on of the normalisation form C: it is idempotent, leaves ASCII as it is, is closed
under parts of a text, and none of the three characters that are put in composes with what stands
beside it. -/
structure Normalising (nfc : String → String) : Prop where
  idempotent : ∀ s, nfc (nfc s) = nfc s
  ascii : ∀ s : String, (∀ c ∈ s.toList, c.toNat < 128) → nfc s = s
  part : ∀ a b c : String, nfc (a ++ b ++ c) = a ++ b ++ c → nfc b = b
  inert : ∀ (a b : String), ∀ c ∈ [' ', '-', '_'], nfc a = a → nfc b = b →
    nfc (a ++ String.ofList [c] ++ b) = a ++ String.ofList [c] ++ b

/-- A text in normal form. -/
def Normal (nfc : String → String) (l : List Char) : Prop :=
  nfc (String.ofList l) = String.ofList l

variable {nfc : String → String} {l : List Char} {c : Char}

theorem Normal.part (hn : Normalising nfc) {part : List Char} (h : Normal nfc l)
    (hpart : part <:+: l) : Normal nfc part := by
  obtain ⟨a, b, rfl⟩ := hpart
  refine hn.part (String.ofList a) _ (String.ofList b) ?_
  rw [← String.ofList_append, ← String.ofList_append]
  exact h

theorem Normal.insert (hn : Normalising nfc) {before after : List Char} (hb : Normal nfc before)
    (ha : Normal nfc after) (hc : c ∈ [' ', '-', '_']) : Normal nfc (before ++ c :: after) := by
  have h := hn.inert _ _ c hc hb ha
  rw [← String.ofList_append, ← String.ofList_append, List.append_assoc] at h
  exact h

/-- What is put in stands between parts of the text, so the replacement keeps the normal form. The
characters kept since the last one put in are `kept`. -/
theorem normal_replaceFrom (hn : Normalising nfc) (l : List Char) (spaceBefore started : Bool)
    (kept : List Char) (hkept : spaceBefore = true ∨ started = false → kept = [])
    (h : Normal nfc (kept ++ l)) : Normal nfc (kept ++ replaceFrom spaceBefore started l) := by
  induction l generalizing spaceBefore started kept with
  | nil => exact h
  | cons d l ih =>
    have hbefore : Normal nfc kept := h.part hn (List.prefix_append _ _).isInfix
    have hafter : Normal nfc l :=
      h.part hn ((List.suffix_cons d l).trans (List.suffix_append kept (d :: l))).isInfix
    have hrest : ∀ spaceBefore started, Normal nfc (replaceFrom spaceBefore started l) :=
      fun spaceBefore started ↦ ih spaceBefore started [] (fun _ ↦ rfl) hafter
    rw [replaceFrom]
    by_cases hspace : isWhitespace ((fallback d).getD d) = true
    · rw [if_pos hspace]
      by_cases hemit : (!spaceBefore && started) = true
      · rw [if_pos hemit]
        exact hbefore.insert hn (hrest true true) (by decide)
      · rw [if_neg hemit]
        have hnil : kept = [] := by
          refine hkept ?_
          rw [Bool.and_eq_true, Bool.not_eq_true', not_and_or, Bool.not_eq_false,
            Bool.not_eq_true] at hemit
          exact hemit
        rw [hnil]
        exact hrest true started
    · rw [if_neg hspace]
      rcases replacement_cases d with hd | hd | hd | hd
      · rw [hd, Option.getD_none, List.append_cons]
        rw [List.append_cons] at h
        exact ih false true (kept ++ [d]) (by rintro (hf | hf) <;> cases hf) h
      · rw [hd, Option.getD_some]
        exact hbefore.insert hn (hrest false true) (by decide)
      · rw [hd, Option.getD_some]
        exact hbefore.insert hn (hrest false true) (by decide)
      · rw [hd, Option.getD_some] at hspace
        exact absurd (by decide) hspace

theorem normal_settle (hn : Normalising nfc) {text : List Char} (h : Normal nfc (titled text)) :
    Normal nfc (settle text) := by
  rcases settle_cases text with ⟨heq, -⟩ | ⟨-, heq⟩
  · rw [heq]
    exact h
  · rw [heq]
    exact (h.part hn (List.take_prefix _ _).isInfix).insert hn
      (h.part hn (List.drop_suffix _ _).isInfix) (by decide)

end Normalising

section Postconditions

variable (unicode : Unicode)

/-- What a sanitised title is to be. -/
structure Clean (name : String) : Prop where
  nonempty : name ≠ ""
  short : utf8Length name.toList ≤ maxTitleBytes
  normal : unicode.nfc name = name
  characters : ∀ c ∈ name.toList,
    c ∉ ['<', '>', ':', '"', '/', '\\', '|', '?', '*'] ∧ isControl c = false
  spaces : ¬ [' ', ' '] <:+: name.toList
  first : ∀ c ∈ name.toList.head?, c ≠ '.' ∧ c ≠ ' '
  last : ∀ c ∈ name.toList.getLast?, c ≠ '.' ∧ c ≠ ' '
  device : String.ofList (asciiUpper (stem name.toList)) ∉ reserved
  again : sanitize unicode name = name

/-- The title with its characters replaced. -/
def replaced (title : String) : List Char := replaceFrom false false (unicode.nfc title).toList

/-- Behind the dots at its beginning, and spaces, the title goes on with another dot, and something
other than dots and spaces comes within the bytes that are kept. -/
def Dotted (title : String) : Prop :=
  (bare (replaced unicode title)).head? = some '.' ∧
    ∃ c ∈ takeBytes maxTitleBytes (bare (replaced unicode title)), c ≠ '.' ∧ c ≠ ' '

/-- What is kept of the title takes all the bytes there are and bears the name of a device. -/
def Filled (title : String) : Prop :=
  utf8Length (shorten (replaced unicode title)) = maxTitleBytes ∧
    String.ofList (deviceOf (shorten (replaced unicode title))) ∈ reserved

variable {unicode} {title : String}

theorem toList_sanitize (title : String) :
    (sanitize unicode title).toList = settle (shorten (replaced unicode title)) :=
  String.toList_ofList

theorem shorten_eq_nil_iff (l : List Char) :
    shorten l = [] ↔ ∀ c ∈ takeBytes maxTitleBytes (bare l), c = '.' ∨ c = ' ' := by
  have heq : shorten l = (takeBytes maxTitleBytes (bare l)).rdropWhile
      fun c ↦ c = '.' || c = ' ' := rfl
  rw [heq, List.rdropWhile_eq_nil_iff]
  simp

theorem plain_titled {l : List Char} (h : ∀ c ∈ l, Plain c) : ∀ c ∈ titled l, Plain c := by
  unfold titled
  split
  · exact forall_of_all (by decide)
  · exact h

theorem mem_titled_shorten (title : String) :
    ∀ c ∈ titled (shorten (replaced unicode title)), Plain c :=
  plain_titled fun _ hc ↦ plain_of_mem_replaceFrom (shorten_subset _ hc)

theorem plain_sanitize (title : String) : ∀ c ∈ (sanitize unicode title).toList, Plain c := by
  rw [toList_sanitize]
  intro c hc
  rcases mem_settle hc with hc | rfl
  · exact mem_titled_shorten title c hc
  · exact ⟨by decide, by decide⟩

theorem spaced_sanitize (title : String) : Spaced (sanitize unicode title).toList := by
  rw [toList_sanitize]
  refine spaced_settle ?_
  unfold titled
  split
  · unfold Spaced
    decide
  · exact List.IsChain.infix (spaced_replaceFrom _ _ _).1 (infix_shorten _)

theorem normal_sanitize (hn : Normalising unicode.nfc) (title : String) :
    unicode.nfc (sanitize unicode title) = sanitize unicode title := by
  refine normal_settle hn ?_
  unfold titled
  split
  · exact hn.ascii _ (forall_of_all (by decide))
  · have hwhole : Normal unicode.nfc (unicode.nfc title).toList := by
      rw [Normal, String.ofList_toList]
      exact hn.idempotent title
    exact (normal_replaceFrom hn _ false false [] (fun _ ↦ rfl) hwhole).part hn (infix_shorten _)

theorem Plain.allowed {c : Char} (h : Plain c) :
    c ∉ ['<', '>', ':', '"', '/', '\\', '|', '?', '*'] ∧ isControl c = false := by
  have hnone := h.1
  unfold fallback at hnone
  split at hnone
  · cases hnone
  · rename_i hdash
    split at hnone
    · cases hnone
    · rename_i hline
      split at hnone
      · cases hnone
      · rename_i hcontrol
        refine ⟨fun hm ↦ ?_, by simpa using hcontrol⟩
        simp only [List.mem_cons, List.not_mem_nil, or_false] at hm hdash hline
        tauto

theorem nonempty_titled (l : List Char) : titled l ≠ [] := by
  unfold titled
  split
  · decide
  · rename_i h
    rwa [List.isEmpty_iff] at h

theorem nonempty_settle (l : List Char) : settle l ≠ [] := by
  intro h
  have hhead := head?_settle l
  rw [h] at hhead
  exact nonempty_titled l (List.head?_eq_none_iff.mp hhead.symm)

theorem first_titled (hdotted : ¬ Dotted unicode title) :
    ∀ c ∈ (titled (shorten (replaced unicode title))).head?, c ≠ '.' ∧ c ≠ ' ' := by
  intro c hc
  by_cases hnil : shorten (replaced unicode title) = []
  · rw [hnil] at hc
    obtain rfl : 'U' = c := Option.some.inj hc
    exact ⟨by decide, by decide⟩
  · rw [titled_of_ne hnil, head?_shorten hnil] at hc
    constructor
    · rintro rfl
      refine hdotted ⟨hc, ?_⟩
      rw [shorten_eq_nil_iff] at hnil
      push Not at hnil
      exact hnil
    · rintro rfl
      exact absurd (isWhitespace_head_trim hc) (by decide)

theorem last_titled (l : List Char) :
    ∀ c ∈ (titled (shorten l)).getLast?, c ≠ '.' ∧ c ≠ ' ' := by
  intro c hc
  by_cases hnil : shorten l = []
  · rw [hnil] at hc
    obtain rfl : 't' = c := Option.some.inj hc
    exact ⟨by decide, by decide⟩
  · rw [titled_of_ne hnil] at hc
    exact last_shorten hnil c hc

theorem last_settle (l : List Char) :
    ∀ c ∈ (settle (shorten l)).getLast?, c ≠ '.' ∧ c ≠ ' ' := by
  intro c hc
  rcases getLast?_settle (shorten l) with h | h
  · rw [h] at hc
    exact last_titled l c hc
  · rw [h] at hc
    obtain rfl := Option.some.inj hc
    exact ⟨by decide, by decide⟩

theorem short_settle (hfilled : ¬ Filled unicode title) :
    utf8Length (settle (shorten (replaced unicode title))) ≤ maxTitleBytes := by
  rw [utf8Length_settle]
  by_cases hnil : shorten (replaced unicode title) = []
  · rw [hnil]
    decide
  · rw [titled_of_ne hnil]
    have hle := utf8Length_shorten (replaced unicode title)
    by_cases hres : String.ofList (deviceOf (shorten (replaced unicode title))) ∈ reserved
    · have hne : utf8Length (shorten (replaced unicode title)) ≠ maxTitleBytes :=
        fun hfull ↦ hfilled ⟨hfull, hres⟩
      rw [if_pos hres]
      exact Nat.lt_of_le_of_ne hle hne
    · rw [if_neg hres, Nat.add_zero]
      exact hle

theorem device_settle (l : List Char) : String.ofList (asciiUpper (stem (settle l))) ∉ reserved := by
  have hself : ∀ name ∈ reserved, trim name.toList = name.toList := by decide
  intro h
  have htrim := hself _ h
  rw [String.toList_ofList] at htrim
  refine deviceOf_settle l ?_
  rw [deviceOf, htrim]
  exact h

/-- Nothing is left to do for a title that has gone through the rules. -/
theorem again_settle (hn : Normalising unicode.nfc)
    (hlength : utf8Length (sanitize unicode title).toList ≤ maxTitleBytes)
    (hfirst : ∀ c ∈ (sanitize unicode title).toList.head?, c ≠ '.' ∧ c ≠ ' ')
    (hlast : ∀ c ∈ (sanitize unicode title).toList.getLast?, c ≠ '.' ∧ c ≠ ' ') :
    sanitize unicode (sanitize unicode title) = sanitize unicode title := by
  have hplain : ∀ c ∈ (sanitize unicode title).toList, Plain c := plain_sanitize title
  have hreplaced : replaced unicode (sanitize unicode title) = (sanitize unicode title).toList := by
    rw [replaced, normal_sanitize hn]
    exact replaceFrom_self hplain (spaced_sanitize title) fun _ c hc ↦ (hfirst c hc).2
  have hshorten : shorten (replaced unicode (sanitize unicode title)) =
      (sanitize unicode title).toList := by
    rw [hreplaced]
    exact shorten_self hplain hlength hfirst hlast
  have hne : (sanitize unicode title).toList ≠ [] := by
    rw [toList_sanitize]
    exact nonempty_settle _
  refine String.toList_injective ?_
  rw [toList_sanitize (sanitize unicode title), hshorten]
  rcases settle_cases (sanitize unicode title).toList with ⟨heq, -⟩ | ⟨hres, -⟩
  · rw [heq, titled_of_ne hne]
  · rw [titled_of_ne hne, toList_sanitize] at hres
    exact absurd hres (deviceOf_settle _)

/-- A title comes out as the rules want it exactly if no dot shows behind the dots at its beginning
and no device's name fills all the bytes there are. -/
theorem sanitize_clean (hn : Normalising unicode.nfc) (title : String) :
    Clean unicode (sanitize unicode title) ↔
      ¬ Dotted unicode title ∧ ¬ Filled unicode title := by
  constructor
  · intro h
    constructor
    · rintro ⟨hhead, hsome⟩
      have hne : shorten (replaced unicode title) ≠ [] := by
        rw [Ne, shorten_eq_nil_iff]
        push Not
        exact hsome
      refine (h.first '.' ?_).1 rfl
      rw [toList_sanitize, head?_settle, titled_of_ne hne, head?_shorten hne]
      exact hhead
    · rintro ⟨hfull, hres⟩
      have hne : shorten (replaced unicode title) ≠ [] := by
        intro hnil
        rw [hnil] at hfull
        exact absurd hfull (by decide)
      have hshort := h.short
      rw [toList_sanitize, utf8Length_settle, titled_of_ne hne, hfull, if_pos hres] at hshort
      exact absurd hshort (Nat.not_succ_le_self _)
  · rintro ⟨hdotted, hfilled⟩
    have hshort : utf8Length (sanitize unicode title).toList ≤ maxTitleBytes := by
      rw [toList_sanitize]
      exact short_settle hfilled
    have hfirst : ∀ c ∈ (sanitize unicode title).toList.head?, c ≠ '.' ∧ c ≠ ' ' := by
      rw [toList_sanitize, head?_settle]
      exact first_titled hdotted
    have hlast : ∀ c ∈ (sanitize unicode title).toList.getLast?, c ≠ '.' ∧ c ≠ ' ' := by
      rw [toList_sanitize]
      exact last_settle _
    exact
      { nonempty := by
          intro hnil
          refine nonempty_settle (shorten (replaced unicode title)) ?_
          rw [← toList_sanitize, hnil]
          rfl
        short := hshort
        normal := normal_sanitize hn title
        characters := fun c hc ↦ (plain_sanitize title c hc).allowed
        spaces := fun h ↦ by
          have hchain := List.IsChain.infix (@spaced_sanitize unicode title) h
          exact (List.isChain_cons_cons.mp hchain).1 ⟨rfl, rfl⟩
        first := hfirst
        last := hlast
        device := by
          rw [toList_sanitize]
          exact device_settle _
        again := again_settle hn hshort hfirst hlast }

theorem normalising_id : Normalising id where
  idempotent _ := rfl
  ascii _ _ := rfl
  part _ _ _ _ := rfl
  inert _ _ _ _ _ _ := rfl

theorem sanitize_clean_device :
    Clean ⟨id, id⟩ (sanitize ⟨id, id⟩ "CON") ∧ sanitize ⟨id, id⟩ "CON" = "CON_" := by
  refine ⟨(@sanitize_clean ⟨id, id⟩ normalising_id "CON").mpr ⟨fun h ↦ ?_, fun h ↦ ?_⟩,
    by decide⟩
  · exact absurd h.1 (by decide)
  · exact absurd h.1 (by decide)

theorem sanitize_dotted : ¬ Clean ⟨id, id⟩ (sanitize ⟨id, id⟩ ". .versteckt") := fun h ↦
  (h.first '.' (by decide)).1 rfl

end Postconditions

end FolderClient.Core.Titles
