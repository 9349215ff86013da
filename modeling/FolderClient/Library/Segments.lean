import Mathlib

namespace FolderClient.Library.Segments

variable {α : Type} {separator : α}

/-- Parts, with one separator between any two of them. -/
def joined (separator : α) (parts : List (List α)) : List α := [separator].intercalate parts

/-- No part is empty or holds a separator. -/
def Proper (separator : α) (parts : List (List α)) : Prop :=
  ∀ part ∈ parts, part ≠ [] ∧ separator ∉ part

theorem joined_cons {part : List α} {parts : List (List α)} (h : parts ≠ []) :
    joined separator (part :: parts) = part ++ separator :: joined separator parts := by
  rw [joined, List.intercalate_cons_of_ne_nil h, List.append_assoc]
  rfl

theorem joined_singleton (part : List α) : joined separator [part] = part :=
  List.intercalate_singleton

theorem joined_append {parts more : List (List α)} (h : parts ≠ []) (hm : more ≠ []) :
    joined separator (parts ++ more) =
      joined separator parts ++ separator :: joined separator more := by
  induction parts with
  | nil => exact absurd rfl h
  | cons part parts ih =>
    by_cases hp : parts = []
    · rw [hp, joined_singleton]
      exact joined_cons hm
    · rw [List.cons_append, joined_cons (List.append_ne_nil_of_left_ne_nil hp _), ih hp,
        joined_cons hp, List.append_assoc, List.cons_append]

variable [DecidableEq α]

/-- The parts between the separators that are not empty. -/
def segments (separator : α) (text : List α) : List (List α) :=
  (text.splitOn separator).filter fun part ↦ part ≠ []

theorem segments_nil : segments separator [] = [] := by
  rw [segments, List.splitOn_nil]
  rfl

theorem segments_append (a b : List α) : segments separator (a ++ separator :: b) =
    segments separator a ++ segments separator b := by
  rw [segments, List.splitOn_append_cons_self, List.filter_append]
  rfl

theorem segments_singleton {part : List α} (hne : part ≠ []) (h : separator ∉ part) :
    segments separator part = [part] := by
  rw [segments, List.splitOn_eq_singleton h, List.filter_singleton, decide_eq_true hne]
  rfl

theorem segments_cons_separator (a : List α) :
    segments separator (separator :: a) = segments separator a :=
  segments_append [] a

theorem segments_append_separator (a : List α) :
    segments separator (a ++ [separator]) = segments separator a := by
  rw [segments_append, segments_nil, List.append_nil]

theorem segments_joined {parts : List (List α)} (h : Proper separator parts) :
    segments separator (joined separator parts) = parts := by
  induction parts with
  | nil => exact segments_nil
  | cons part parts ih =>
    obtain ⟨hne, hnot⟩ := h part List.mem_cons_self
    have hrest := ih fun p hp ↦ h p (List.mem_cons_of_mem _ hp)
    by_cases hp : parts = []
    · rw [hp, joined_singleton, segments_singleton hne hnot]
    · rw [joined_cons hp, segments_append, hrest, segments_singleton hne hnot]
      rfl

theorem notMem_of_mem_splitOn {text part : List α} (h : part ∈ text.splitOn separator) :
    separator ∉ part := by
  induction text generalizing part with
  | nil =>
    rw [List.splitOn_nil, List.mem_singleton] at h
    rw [h]
    exact List.not_mem_nil
  | cons c text ih =>
    rw [List.splitOn_cons_eq_if_modifyHead] at h
    split at h
    · rcases List.mem_cons.mp h with rfl | h
      · exact List.not_mem_nil
      · exact ih h
    · rename_i hne
      have hc : separator ≠ c := fun heq ↦ hne (beq_iff_eq.mpr heq.symm)
      obtain ⟨first, others, hsplit⟩ := List.exists_cons_of_ne_nil
        (List.splitOn_ne_nil separator text)
      rw [hsplit, List.modifyHead_cons] at h
      rcases List.mem_cons.mp h with rfl | h
      · exact List.not_mem_cons_of_ne_of_not_mem hc (ih (hsplit ▸ List.mem_cons_self))
      · exact ih (hsplit ▸ List.mem_cons_of_mem _ h)

theorem proper_segments (text : List α) : Proper separator (segments separator text) := by
  intro part hpart
  obtain ⟨hmem, hne⟩ := List.mem_filter.mp hpart
  exact ⟨of_decide_eq_true hne, notMem_of_mem_splitOn hmem⟩

/-- No separator stands at an edge of the text or behind another one. -/
def Clean (separator : α) (text : List α) : Prop :=
  joined separator (segments separator text) = text

theorem clean_joined {parts : List (List α)} (h : Proper separator parts) :
    Clean separator (joined separator parts) := by
  rw [Clean, segments_joined h]

/-- One clean text begins with another up to a separator exactly if its segments begin with those
of the other. -/
theorem prefix_iff {a top : List α} (ha : Clean separator a) (htop : Clean separator top) :
    top = [] ∨ a = top ∨ (∃ rest, a = top ++ separator :: rest) ↔
      segments separator top <+: segments separator a := by
  constructor
  · rintro (rfl | rfl | ⟨rest, rfl⟩)
    · rw [segments_nil]
      exact List.nil_prefix
    · exact List.prefix_rfl
    · rw [segments_append]
      exact List.prefix_append _ _
  · rintro ⟨more, hmore⟩
    rw [Clean, ← hmore] at ha
    by_cases hnil : segments separator top = []
    · rw [Clean, hnil] at htop
      exact .inl htop.symm
    · by_cases hm : more = []
      · rw [hm, List.append_nil, htop] at ha
        exact .inr (.inl ha.symm)
      · rw [joined_append hnil hm, htop] at ha
        exact .inr (.inr ⟨_, ha.symm⟩)

end FolderClient.Library.Segments
