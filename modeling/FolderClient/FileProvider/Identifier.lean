import FolderClient.Cfapi.Identity

namespace FolderClient.FileProvider.Identifier

open FolderClient.Cfapi.Identity FolderClient.Core.EntryText FolderClient.Core.IdentifierText
open FolderClient.Core.Namespace FolderClient.Engine.Transfers

/-- What an identifier of the system points at. -/
inductive Target
  | root
  | workingSet
  | trash
  | entry (identifier : EntryIdentifier)
deriving DecidableEq

/-- An identifier this extension has never handed out. -/
structure ForeignIdentifier where
  text : String
deriving DecidableEq

/-- The three identifiers the system prescribes, as text. -/
structure SystemIdentifiers where
  root : String
  workingSet : String
  trash : String

namespace SystemIdentifiers

variable (system : SystemIdentifiers)

/-- Reads an identifier of the system. -/
def target (text : String) : Except ForeignIdentifier Target :=
  if text = system.root then .ok .root
  else if text = system.workingSet then .ok .workingSet
  else if text = system.trash then .ok .trash
  else match entryFromText text with
    | .ok identifier =>
      if identifier = .container .root then .error ⟨text⟩ else .ok (.entry identifier)
    | .error _ => .error ⟨text⟩

/-- The identifier under which the system carries an entry. -/
def text (identifier : EntryIdentifier) : String :=
  if identifier = .container .root then system.root else displayEntry identifier

/-- The identifier of the parent folder; the root is its own parent. -/
def parentText (identifier : EntryIdentifier) : String :=
  match identifier.parent with
  | none | some .root => system.root
  | some container => displayContainer container

/-- No entry has the text of a system identifier. -/
def Foreign : Prop := ∀ i, displayEntry i ∉ [system.root, system.workingSet, system.trash]

/-- What the system is to take an entry for. -/
def targetOf (identifier : EntryIdentifier) : Target :=
  if identifier = .container .root then .root else .entry identifier

variable {system}

theorem target_text (hs : system.Foreign) (i : EntryIdentifier) :
    system.target (system.text i) = .ok (targetOf i) := by
  rw [text, targetOf]
  by_cases hroot : i = .container .root
  · rw [if_pos hroot, if_pos hroot]
    exact if_pos rfl
  · have hnot := hs i
    simp only [List.mem_cons, List.not_mem_nil, or_false, not_or] at hnot
    rw [if_neg hroot, if_neg hroot, target, if_neg hnot.1, if_neg hnot.2.1, if_neg hnot.2.2,
      entryFromText_display]
    exact if_neg hroot

theorem targetOf_injective : Function.Injective targetOf := by
  intro i j h
  rw [targetOf, targetOf] at h
  split at h
  · split at h
    · rename_i hi hj
      rw [hi, hj]
    · cases h
  · split at h
    · cases h
    · exact Target.entry.inj h

theorem target_parentText (hs : system.Foreign) (i : EntryIdentifier) :
    system.target (system.parentText i) = .ok (targetOf (.container (i.parent.getD .root))) := by
  have htext : system.parentText i = system.text (.container (i.parent.getD .root)) := by
    rw [parentText]
    split
    · rename_i hp
      rw [hp]
      rfl
    · rename_i hp
      rw [hp]
      rfl
    · rename_i c hc hp
      rw [hp, Option.getD_some, text, if_neg (by
        rintro h
        obtain rfl := EntryIdentifier.container.inj h
        exact hc rfl)]
      rfl
  rw [htext, target_text hs]

theorem target_eq_ok {t : String} {wanted : Target} (h : system.target t = .ok wanted) :
    (t = system.root ∧ wanted = .root) ∨ (t = system.workingSet ∧ wanted = .workingSet) ∨
      (t = system.trash ∧ wanted = .trash) ∨
        ∃ i, i ≠ .container .root ∧ displayEntry i = t ∧ wanted = .entry i := by
  rw [target] at h
  by_cases hroot : t = system.root
  · rw [if_pos hroot] at h
    exact .inl ⟨hroot, (Except.ok.inj h).symm⟩
  · rw [if_neg hroot] at h
    by_cases hworking : t = system.workingSet
    · rw [if_pos hworking] at h
      exact .inr (.inl ⟨hworking, (Except.ok.inj h).symm⟩)
    · rw [if_neg hworking] at h
      by_cases htrash : t = system.trash
      · rw [if_pos htrash] at h
        exact .inr (.inr (.inl ⟨htrash, (Except.ok.inj h).symm⟩))
      · rw [if_neg htrash] at h
        cases he : entryFromText t with
        | error e =>
          rw [he] at h
          cases h
        | ok j =>
          rw [he] at h
          by_cases hj : j = .container .root
          · dsimp only at h
            rw [if_pos hj] at h
            cases h
          · dsimp only at h
            rw [if_neg hj] at h
            exact .inr (.inr (.inr ⟨j, hj, displayEntry_of_ok he, (Except.ok.inj h).symm⟩))

/-- An entry has one identifier with the system. -/
theorem text_of_target {t : String} {i : EntryIdentifier}
    (h : system.target t = .ok (targetOf i)) : system.text i = t := by
  rw [text]
  by_cases hi : i = .container .root
  · rw [targetOf, if_pos hi] at h
    rw [if_pos hi]
    rcases target_eq_ok h with ⟨ht, -⟩ | ⟨-, hw⟩ | ⟨-, hw⟩ | ⟨j, -, -, hw⟩
    · exact ht.symm
    · cases hw
    · cases hw
    · cases hw
  · rw [targetOf, if_neg hi] at h
    rw [if_neg hi]
    rcases target_eq_ok h with ⟨-, hw⟩ | ⟨-, hw⟩ | ⟨-, hw⟩ | ⟨j, -, hj, hw⟩
    · cases hw
    · cases hw
    · cases hw
    · obtain rfl := Target.entry.inj hw
      exact hj

/-- The identifiers of entries and containers are told apart and read back by their texts, those of
the tree before are refused, and what the platforms keep of an entry leads back to it. -/
theorem texts_exact (hs : system.Foreign) :
    (∀ i, entryFromText (displayEntry i) = .ok i) ∧
    (∀ c, containerFromText (displayContainer c) = .ok c) ∧
    (∀ text i, entryFromText text = .ok i → displayEntry i = text) ∧
    (∀ text c, containerFromText text = .ok c → displayContainer c = text) ∧
    Function.Injective displayEntry ∧ Function.Injective displayContainer ∧
    (∀ text, Earlier text → ∃ named, entryFromText text = .error (.shape named)) ∧
    (∀ i, ∃ blob, identityBlob i = .ok blob ∧ identifierFromBlob blob = .ok i) ∧
    (∀ i, system.target (system.text i) = .ok (targetOf i)) ∧
    (∀ i, system.target (system.parentText i) =
      .ok (targetOf (.container (i.parent.getD .root)))) ∧
    Function.Injective targetOf ∧
    ∀ text i, system.target text = .ok (targetOf i) → system.text i = text :=
  ⟨entryFromText_display, containerFromText_display, fun _ _ ↦ displayEntry_of_ok,
    fun _ _ ↦ displayContainer_of_ok, displayEntry_injective, displayContainer_injective,
    fun _ ↦ rejected_of_earlier, identifierFromBlob_identityBlob, target_text hs,
    target_parentText hs, targetOf_injective, fun _ _ ↦ text_of_target⟩

/-- A text that is read as no entry is none. -/
theorem displayEntry_ne {t : String} {e : EntryIdentifierError} (h : entryFromText t = .error e)
    (i : EntryIdentifier) : displayEntry i ≠ t := by
  rintro rfl
  rw [entryFromText_display] at h
  cases h

theorem texts_exact_apple :
    let system : SystemIdentifiers :=
      { root := "NSFileProviderRootContainerItemIdentifier"
        workingSet := "NSFileProviderWorkingSetContainerItemIdentifier"
        trash := "NSFileProviderTrashContainerItemIdentifier" }
    system.target (system.text (.container .baskets)) = .ok (.entry (.container .baskets)) := by
  intro system
  have hforeign : system.Foreign := by
    intro i
    simp only [List.mem_cons, List.not_mem_nil, or_false, not_or]
    refine ⟨displayEntry_ne (e := .shape system.root) ?_ i,
      displayEntry_ne (e := .shape system.workingSet) ?_ i,
      displayEntry_ne (e := .shape system.trash) ?_ i⟩
    · decide
    · decide
    · decide
  exact (texts_exact hforeign).2.2.2.2.2.2.2.2.1 (.container .baskets)

end SystemIdentifiers

end FolderClient.FileProvider.Identifier
