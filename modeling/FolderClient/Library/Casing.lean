import Mathlib

namespace FolderClient.Library.Casing

/-- What lower-casing takes from the tables of characters: the simple mapping, which characters are
cased, and which are passed over in finding the end of a word. -/
structure Tables where
  simple : Char → Char
  cased : Char → Bool
  ignorable : Char → Bool

/-- The one character that is mapped to two. -/
def dottedI : Char := 'İ'

def dot : Char := Char.ofNat 0x307

def capitalSigma : Char := 'Σ'

def finalSigma : Char := 'ς'

/-- The characters with a mapping of their own are mapped as the tables have it. -/
structure Tables.Lawful (tables : Tables) : Prop where
  dot : ∀ c, tables.simple c = dot ↔ c = dot
  dottedI : tables.simple dottedI = 'i'
  sigma : tables.simple capitalSigma ≠ finalSigma

variable (tables : Tables)

/-- What a character becomes on its own. -/
def full (c : Char) : List Char := if c = dottedI then ['i', dot] else [tables.simple c]

/-- Whether the first character that is not passed over is cased. -/
def casedNext (text : List Char) : Bool :=
  ((text.dropWhile tables.ignorable).head?).any tables.cased

/-- Every character with whether it is a capital sigma at the end of a word; what stands before it
is given backwards. -/
def marks (before : List Char) : List Char → List (Char × Bool)
  | [] => []
  | c :: rest =>
    (c, c = capitalSigma && casedNext tables before && !casedNext tables rest) ::
      marks (c :: before) rest

def image (mark : Char × Bool) : List Char :=
  if mark.2 then [finalSigma] else full tables mark.1

def images (text : List (Char × Bool)) : List Char := text.flatMap (image tables)

/-- The lower case of a text: a sigma at the end of a word has a lower case of its own. -/
def lowercase (text : List Char) : List Char := images tables (marks tables [] text)

/-- Whether two characters have the same lower case. -/
def equalWithoutCase (a b : Char) : Bool := a = b || full tables a = full tables b

/-- Two marked characters are the dotted letter, or a sigma at the end of a word, together. -/
def Alike (m n : Char × Bool) : Prop := (m.1 = dottedI ↔ n.1 = dottedI) ∧ m.2 = n.2

/-- Where two texts both have a character the two are alike. -/
def Aligned : List (Char × Bool) → List (Char × Bool) → Prop
  | m :: a, n :: b => Alike m n ∧ Aligned a b
  | _, _ => True

instance (m n : Char × Bool) : Decidable (Alike m n) := inferInstanceAs (Decidable (_ ∧ _))

instance decidableAligned : (a b : List (Char × Bool)) → Decidable (Aligned a b)
  | [], _ => isTrue trivial
  | _ :: _, [] => isTrue trivial
  | m :: a, n :: b =>
    have := decidableAligned a b
    inferInstanceAs (Decidable (Alike m n ∧ Aligned a b))

/-- Only a capital sigma is marked. -/
def Marked (text : List (Char × Bool)) : Prop := ∀ m ∈ text, m.2 = true → m.1 = capitalSigma

/-- A character that no other one becomes, and that becomes no other one. -/
structure Tables.Keeps (tables : Tables) (d : Char) : Prop where
  simple : ∀ c, tables.simple c = d ↔ c = d
  other : d ∉ ['i', dot, finalSigma, capitalSigma, dottedI]

/-- The same characters by the simple mapping. -/
def Same (a b : List (Char × Bool)) : Prop :=
  a.map (fun m ↦ tables.simple m.1) = b.map fun m ↦ tables.simple m.1

variable {tables}

section Images

variable {a b : List (Char × Bool)} {m n : Char × Bool}

theorem marked_marks (before text : List Char) : Marked (marks tables before text) := by
  induction text generalizing before with
  | nil => exact fun _ h ↦ absurd h List.not_mem_nil
  | cons c text ih =>
    intro m hm hfinal
    rcases List.mem_cons.mp hm with rfl | hm
    · rw [Bool.and_eq_true, Bool.and_eq_true] at hfinal
      exact of_decide_eq_true hfinal.1.1
    · exact ih (c :: before) m hm hfinal

theorem map_fst_marks (before text : List Char) :
    (marks tables before text).map Prod.fst = text := by
  induction text generalizing before with
  | nil => rfl
  | cons c text ih => exact congrArg (c :: ·) (ih (c :: before))

theorem map_simple_marks (before text : List Char) :
    (marks tables before text).map (fun m ↦ tables.simple m.1) = text.map tables.simple := by
  nth_rewrite 2 [← map_fst_marks  before text]
  rw [List.map_map]
  rfl

theorem same_marks (x y : List Char) : Same tables (marks tables [] x) (marks tables [] y) ↔
    x.map tables.simple = y.map tables.simple := by
  rw [Same, map_simple_marks, map_simple_marks]

theorem images_cons : images tables (m :: a) = image tables m ++ images tables a :=
  List.flatMap_cons

theorem image_ne_nil : image tables m ≠ [] := by
  unfold image full
  split
  · exact List.cons_ne_nil _ _
  · split <;> exact List.cons_ne_nil _ _

/-- Two alike characters have the same image exactly if they are the same by the simple mapping. -/
theorem image_eq_iff (hm : m.2 = true → m.1 = capitalSigma) (hn : n.2 = true → n.1 = capitalSigma)
    (h : Alike m n) : image tables m = image tables n ↔
      tables.simple m.1 = tables.simple n.1 := by
  obtain ⟨hdotted, hfinal⟩ := h
  unfold image full
  cases hm' : m.2 with
  | true =>
    rw [← hfinal, hm', if_pos rfl, if_pos rfl, hm hm', hn (hfinal ▸ hm')]
    exact iff_of_true rfl rfl
  | false =>
    rw [← hfinal, hm', if_neg Bool.false_ne_true, if_neg Bool.false_ne_true]
    by_cases hd : m.1 = dottedI
    · rw [if_pos hd, if_pos (hdotted.mp hd), hd, hdotted.mp hd]
      exact iff_of_true rfl rfl
    · rw [if_neg hd, if_neg fun h ↦ hd (hdotted.mpr h), List.singleton_inj]

theorem length_image (h : Alike m n) : (image tables m).length = (image tables n).length := by
  obtain ⟨hdotted, hfinal⟩ := h
  unfold image full
  rw [hfinal]
  split
  · rfl
  · by_cases hd : m.1 = dottedI
    · rw [if_pos hd, if_pos (hdotted.mp hd)]
    · rw [if_neg hd, if_neg fun h ↦ hd (hdotted.mpr h)]
      rfl

/-- Where two texts are aligned, the image of one begins the image of the other exactly if the one
begins the other by the simple mapping. -/
theorem prefix_of_aligned (ha : Marked a) (hb : Marked b) (h : Aligned a b) :
    images tables a <+: images tables b ↔
      a.map (fun m ↦ tables.simple m.1) <+: b.map fun m ↦ tables.simple m.1 := by
  induction a generalizing b with
  | nil => exact iff_of_true List.nil_prefix List.nil_prefix
  | cons m a ih =>
    cases b with
    | nil =>
      rw [List.map_nil, List.prefix_nil, images_cons, List.map_cons]
      change image tables m ++ images tables a <+: [] ↔ _
      rw [List.prefix_nil, List.append_eq_nil_iff]
      exact iff_of_false (fun h ↦ image_ne_nil h.1) (List.cons_ne_nil _ _)
    | cons n b =>
      obtain ⟨halike, hrest⟩ := h
      have hiff := ih (fun x hx ↦ ha x (List.mem_cons_of_mem _ hx))
        (fun x hx ↦ hb x (List.mem_cons_of_mem _ hx)) hrest
      have himage := @image_eq_iff tables m n (ha m List.mem_cons_self) (hb n List.mem_cons_self)
        halike
      rw [List.map_cons, List.map_cons, List.cons_prefix_cons, ← hiff, ← himage, images_cons,
        images_cons]
      constructor
      · rintro ⟨rest, hrest⟩
        rw [List.append_assoc] at hrest
        obtain ⟨hhead, htail⟩ := List.append_inj hrest (length_image halike)
        exact ⟨hhead, rest, htail⟩
      · rintro ⟨hhead, rest, htail⟩
        refine ⟨rest, ?_⟩
        rw [hhead, List.append_assoc, htail]

theorem Aligned.symm (h : Aligned a b) : Aligned b a := by
  induction a generalizing b with
  | nil => cases b <;> exact trivial
  | cons m a ih =>
    cases b with
    | nil => exact trivial
    | cons n b => exact ⟨⟨h.1.1.symm, h.1.2.symm⟩, ih h.2⟩

theorem eq_of_prefixes {α : Type} {x y : List α} (h : x <+: y) (h' : y <+: x) : x = y :=
  h.eq_of_length (Nat.le_antisymm h.length_le h'.length_le)

/-- Where two texts are aligned, they have the same image exactly if they are the same by the simple
mapping. -/
theorem images_eq_iff (ha : Marked a) (hb : Marked b) (h : Aligned a b) :
    images tables a = images tables b ↔ Same tables a b := by
  have hforth := @prefix_of_aligned tables a b ha hb h
  have hback := @prefix_of_aligned tables b a hb ha h.symm
  constructor
  · intro heq
    exact eq_of_prefixes (hforth.mp (heq ▸ List.prefix_rfl)) (hback.mp (heq ▸ List.prefix_rfl))
  · intro hsame
    exact eq_of_prefixes (hforth.mpr (hsame ▸ List.prefix_rfl)) (hback.mpr (hsame ▸ List.prefix_rfl))

end Images

section Shifts

variable {a b : List (Char × Bool)} {m n : Char × Bool}

theorem image_eq_cons_dot (hl : tables.Lawful) {rest : List Char}
    (h : ∃ more, image tables m ++ rest = dot :: more) : m.1 = dot ∧ image tables m = [dot] := by
  obtain ⟨more, h⟩ := h
  unfold image full at h ⊢
  split at h
  · cases h
  · rename_i hfinal
    split at h
    · cases h
    · rename_i hdotted
      rw [if_neg hfinal, if_neg hdotted]
      have hdot := (List.cons.inj h).1
      exact ⟨(hl.dot m.1).mp hdot, congrArg (fun c ↦ [c]) hdot⟩

theorem image_of_dot (hl : tables.Lawful) (hm : m.2 = true → m.1 = capitalSigma) (h : m.1 = dot) :
    image tables m = [dot] := by
  have hfinal : m.2 = false := by
    by_contra hne
    rw [Bool.not_eq_false] at hne
    exact absurd (h.symm.trans (hm hne)) (by decide)
  have hdotted : ¬ dot = dottedI := by decide
  rw [image, hfinal, if_neg Bool.false_ne_true, full, h, if_neg hdotted, (hl.dot dot).mpr rfl]

/-- A dot too many is never made up for. -/
theorem shifted (hl : tables.Lawful) (ha : Marked a) (h : Same tables a b) :
    dot :: images tables a ≠ images tables b := by
  induction a generalizing b with
  | nil =>
    cases b with
    | nil => exact List.cons_ne_nil _ _
    | cons n b => cases h
  | cons m a ih =>
    cases b with
    | nil => cases h
    | cons n b =>
      obtain ⟨hhead, htail⟩ := List.cons.inj h
      intro heq
      rw [images_cons (m := n)] at heq
      obtain ⟨hn, hnimage⟩ := image_eq_cons_dot hl ⟨_, heq.symm⟩
      have hm : m.1 = dot := (hl.dot m.1).mp (hhead.trans ((hl.dot n.1).mpr hn))
      rw [images_cons, image_of_dot hl (ha m List.mem_cons_self) hm, hnimage] at heq
      exact ih (fun x hx ↦ ha x (List.mem_cons_of_mem _ hx)) htail (List.cons.inj heq).2

/-- The images of two characters that are not alike are of no avail for what follows. -/
theorem alike_of_images (hl : tables.Lawful) (ha : Marked (m :: a)) (hb : Marked (n :: b))
    (h : Same tables (m :: a) (n :: b)) (heq : images tables (m :: a) = images tables (n :: b)) :
    Alike m n := by
  obtain ⟨hhead, htail⟩ := List.cons.inj h
  have hmark := ha m List.mem_cons_self
  have hmark' := hb n List.mem_cons_self
  have hplain : ∀ x y : Char × Bool, x.2 = true → x.1 = capitalSigma → y.2 = false →
      tables.simple x.1 = tables.simple y.1 → (image tables x).head? ≠ (image tables y).head? := by
    intro x y hx hsigma hy hsame
    rw [image, hx, if_pos rfl, image, hy, if_neg Bool.false_ne_true, full]
    split
    · decide
    · rw [← hsame, hsigma]
      exact fun h ↦ hl.sigma (Option.some.inj h).symm
  have hheads : (image tables m).head? = (image tables n).head? := by
    have hcongr := congrArg List.head? heq
    rwa [images_cons, images_cons, List.head?_append_of_ne_nil _ image_ne_nil,
      List.head?_append_of_ne_nil _ image_ne_nil] at hcongr
  have hdotted : ∀ x y : Char × Bool, x.2 = false → y.2 = false → x.1 = dottedI →
      y.1 ≠ dottedI → tables.simple x.1 = tables.simple y.1 →
      image tables x = ['i', dot] ∧ image tables y = ['i'] := by
    intro x y hx hy hi hnot hsame
    rw [image, hx, if_neg Bool.false_ne_true, full, if_pos hi, image, hy,
      if_neg Bool.false_ne_true, full, if_neg hnot, ← hsame, hi, hl.dottedI]
    exact ⟨rfl, rfl⟩
  cases hm : m.2 with
  | true =>
    cases hn : n.2 with
    | true => exact ⟨by rw [hmark hm, hmark' hn], hm.trans hn.symm⟩
    | false => exact absurd hheads (hplain m n hm (hmark hm) hn hhead)
  | false =>
    cases hn : n.2 with
    | true => exact absurd hheads.symm (hplain n m hn (hmark' hn) hm hhead.symm)
    | false =>
      refine ⟨⟨fun hi ↦ ?_, fun hi ↦ ?_⟩, hm.trans hn.symm⟩
      · by_contra hnot
        obtain ⟨hx, hy⟩ := hdotted m n hm hn hi hnot hhead
        rw [images_cons, images_cons, hx, hy] at heq
        exact shifted hl (fun x hx ↦ ha x (List.mem_cons_of_mem _ hx)) htail (List.cons.inj heq).2
      · by_contra hnot
        obtain ⟨hx, hy⟩ := hdotted n m hn hm hi hnot hhead.symm
        rw [images_cons, images_cons, hx, hy] at heq
        exact shifted hl (fun x hx ↦ hb x (List.mem_cons_of_mem _ hx)) htail.symm
          (List.cons.inj heq).2.symm

/-- Two texts that are the same by the simple mapping have the same lower case only if they are
aligned. -/
theorem aligned_of_images (hl : tables.Lawful) (ha : Marked a) (hb : Marked b)
    (h : Same tables a b) (heq : images tables a = images tables b) : Aligned a b := by
  induction a generalizing b with
  | nil => exact trivial
  | cons m a ih =>
    cases b with
    | nil => exact trivial
    | cons n b =>
      have halike := alike_of_images hl ha hb h heq
      obtain ⟨hhead, htail⟩ := List.cons.inj h
      rw [images_cons, images_cons] at heq
      exact ⟨halike, ih (fun x hx ↦ ha x (List.mem_cons_of_mem _ hx))
        (fun x hx ↦ hb x (List.mem_cons_of_mem _ hx)) htail
        (List.append_inj heq (length_image halike)).2⟩

end Shifts

section Whole

/-- Two texts of which the mapping of characters or that of texts says that they are the same are
the same for both exactly if they are aligned. -/
theorem agree_iff (hl : tables.Lawful) {x y : List Char}
    (h : x.map tables.simple = y.map tables.simple ∨ lowercase tables x = lowercase tables y) :
    (x.map tables.simple = y.map tables.simple ↔ lowercase tables x = lowercase tables y) ↔
      Aligned (marks tables [] x) (marks tables [] y) := by
  have hx : Marked (marks tables [] x) := marked_marks [] x
  have hy : Marked (marks tables [] y) := marked_marks [] y
  rw [← same_marks]
  constructor
  · intro hiff
    have hsame : Same tables (marks tables [] x) (marks tables [] y) := by
      rw [← same_marks] at h
      exact h.elim id hiff.mpr
    exact aligned_of_images hl hx hy hsame (hiff.mp hsame)
  · exact fun haligned ↦ (images_eq_iff hx hy haligned).symm

theorem equalWithoutCase_iff {a b : Char} : equalWithoutCase tables a b = true ↔
    tables.simple a = tables.simple b ∧ (a = dottedI ↔ b = dottedI) := by
  rw [equalWithoutCase, Bool.or_eq_true, decide_eq_true_eq, decide_eq_true_eq]
  unfold full
  by_cases ha : a = dottedI
  · by_cases hb : b = dottedI
    · rw [ha, hb]
      exact iff_of_true (.inl rfl) ⟨rfl, Iff.rfl⟩
    · rw [if_pos ha, if_neg hb]
      refine iff_of_false ?_ fun h ↦ hb (h.2.mp ha)
      rintro (rfl | h)
      · exact hb ha
      · exact absurd (congrArg List.length h) (by simp)
  · by_cases hb : b = dottedI
    · rw [if_neg ha, if_pos hb]
      refine iff_of_false ?_ fun h ↦ ha (h.2.mpr hb)
      rintro (rfl | h)
      · exact ha hb
      · exact absurd (congrArg List.length h) (by simp)
    · rw [if_neg ha, if_neg hb, List.singleton_inj]
      constructor
      · rintro (rfl | h)
        · exact ⟨rfl, Iff.rfl⟩
        · exact ⟨h, iff_of_false ha hb⟩
      · exact fun h ↦ .inr h.1

variable {d : Char} {m : Char × Bool}

theorem mem_image_iff (hd : tables.Keeps d) (hm : m.2 = true → m.1 = capitalSigma) :
    d ∈ image tables m ↔ m.1 = d := by
  have hother := hd.other
  simp only [List.mem_cons, List.not_mem_nil, or_false, not_or] at hother
  obtain ⟨hi, hdot, hfinal, hsigma, hdotted⟩ := hother
  unfold image full
  split
  · rename_i h
    rw [List.mem_singleton, hm h]
    exact iff_of_false hfinal (Ne.symm hsigma)
  · split
    · rename_i h
      rw [h, List.mem_cons, List.mem_singleton]
      exact iff_of_false (not_or.mpr ⟨hi, hdot⟩) (Ne.symm hdotted)
    · rw [List.mem_singleton, eq_comm]
      exact hd.simple m.1

theorem image_of_keeps (hd : tables.Keeps d) (hm : m.2 = true → m.1 = capitalSigma)
    (h : m.1 = d) : image tables m = [d] := by
  have hother := hd.other
  simp only [List.mem_cons, List.not_mem_nil, or_false, not_or] at hother
  obtain ⟨-, -, -, hsigma, hdotted⟩ := hother
  have hfinal : m.2 = false := by
    by_contra hne
    rw [Bool.not_eq_false] at hne
    exact hsigma (h.symm.trans (hm hne))
  rw [image, hfinal, if_neg Bool.false_ne_true, full, h, if_neg hdotted, (hd.simple d).mpr rfl]

end Whole

end FolderClient.Library.Casing
