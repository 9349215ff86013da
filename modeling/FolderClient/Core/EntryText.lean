import FolderClient.Core.IdentifierCodec
import FolderClient.Engine.Transfers
import FolderClient.Library.Results

namespace FolderClient.Core.EntryText

open FolderClient.Core.Namespace FolderClient.Core.IdentifierText FolderClient.Library.Texts
open FolderClient.Core.IdentifierCodec FolderClient.Engine.Transfers FolderClient.Library.Results

/-- The location, if documents can stand in this container. -/
def location? : Container → Option Location
  | .case archive case => some (.case archive case)
  | .search search => some (.search search)
  | _ => none

def hintText : HintKind → String
  | .readMe => "hint-readme"
  | .truncated => "hint-truncated"

/-- The last segment decides: a hint, a document, or a container of up to two segments. -/
def entryFromText (text : String) : Except EntryIdentifierError EntryIdentifier :=
  match rsplitOnce '/' text with
  | none => (containerFromText text).map .container
  | some (front, back) =>
    if back = hintText .readMe then (containerFromText front).map (.hint · .readMe)
    else if back = hintText .truncated then (containerFromText front).map (.hint · .truncated)
    else if carriesPrefix .document back then do
      let container ← containerFromText front
      match location? container with
      | none => .error (.shape text)
      | some location => (part .document back).map (.document location)
    else (containerFromText text).map .container

def displayError : EntryIdentifierError → String
  | .shape text => "`" ++ text ++ "` is not an entry identifier of the folder client"
  | .identifier error => error.display

section Identifiers

variable {kind kind' : IdKind} {text : String} {i : Identifier kind} {i' : Identifier kind'}

theorem toList_display (i : Identifier kind) :
    (display kind i).toList = (wirePrefix kind).toList ++ '_' :: identifierPart i := by
  have hline : "_".toList = ['_'] := rfl
  rw [display, String.toList_append, String.toList_append,
    String.toList_ofList (l := identifierPart i), hline, List.append_assoc, List.singleton_append]

theorem slash_notMem_display (i : Identifier kind) : '/' ∉ (display kind i).toList := by
  have hbefore : ∀ kind, '/' ∉ (wirePrefix kind).toList := by
    intro kind
    cases kind <;> decide
  rw [toList_display, List.mem_append, List.mem_cons]
  rintro (h | h | h)
  · exact hbefore kind h
  · cases h
  · exact absurd (mem_digits h) (by decide)

theorem carriesPrefix_iff : carriesPrefix kind text = true ↔
    ∃ rest, text.toList = (wirePrefix kind).toList ++ '_' :: rest := by
  rw [carriesPrefix]
  cases hstrip : strip (wirePrefix kind).toList text.toList with
  | none =>
    constructor
    · exact fun h ↦ by cases h
    · rintro ⟨rest, h⟩
      rw [strip_eq_some_iff.mpr h] at hstrip
      cases hstrip
  | some after =>
    rw [strip_eq_some_iff.mp hstrip, Option.any_some, decide_eq_true_eq, List.head?_eq_some_iff]
    exact exists_congr fun rest ↦ (List.append_right_inj _).symm

theorem wirePrefix_inj (h : wirePrefix kind = wirePrefix kind') : kind = kind' := by
  cases kind <;> cases kind' <;> first | rfl | exact absurd h (by decide)

/-- The part before the first underscore tells the kind. -/
theorem carriesPrefix_display : carriesPrefix kind (display kind' i') = true ↔ kind = kind' := by
  have hnone : ∀ kind, ∀ c ∈ (wirePrefix kind).toList, decide (c ≠ '_') = true := by
    intro kind
    cases kind <;> exact forall_of_all (by decide)
  have hcut : ∀ kind rest, ((wirePrefix kind).toList ++ '_' :: rest).takeWhile (· ≠ '_') =
      (wirePrefix kind).toList := by
    intro kind rest
    rw [List.takeWhile_append_of_pos (hnone kind), List.takeWhile_cons_of_neg (by decide),
      List.append_nil]
  rw [carriesPrefix_iff, toList_display]
  constructor
  · rintro ⟨rest, h⟩
    have hwhile := congrArg (List.takeWhile (· ≠ '_')) h
    rw [hcut, hcut] at hwhile
    exact (wirePrefix_inj (String.toList_injective hwhile)).symm
  · rintro rfl
    exact ⟨_, rfl⟩

theorem part_display (i : Identifier kind) : part kind (display kind i) = .ok i := by
  rw [part, (codec kind).1 i]
  rfl

theorem display_of_part (h : part kind text = .ok i) : display kind i = text := by
  rw [part] at h
  cases hp : parse kind text with
  | error e =>
    rw [hp] at h
    cases h
  | ok i' =>
    rw [hp] at h
    obtain rfl := Except.ok.inj h
    exact (codec kind).2.2.1 text _ hp

end Identifiers

section Containers

variable {text : String} {c : Container}

theorem underscore_mem_display {kind : IdKind} (i : Identifier kind) :
    '_' ∈ (display kind i).toList := by
  rw [toList_display]
  exact List.mem_append_right _ List.mem_cons_self

theorem display_ne {kind : IdKind} (i : Identifier kind) {word : String}
    (h : '_' ∉ word.toList) : display kind i ≠ word := by
  rintro rfl
  exact h (underscore_mem_display i)

/-- A container of one segment is read from its text. -/
theorem containerFromText_single (h : '/' ∉ (displayContainer c).toList) :
    containerFromText (displayContainer c) = .ok c := by
  rw [containerFromText, splitOnce_eq_none_iff.mpr h]
  cases c with
  | root => rfl
  | baskets => rfl
  | archives => rfl
  | searches => rfl
  | basket b =>
    rw [displayContainer, if_neg (display_ne b (by decide)), if_neg (display_ne b (by decide)),
      if_neg (display_ne b (by decide)), if_neg (display_ne b (by decide)),
      if_pos (carriesPrefix_display.mpr rfl), part_display]
    rfl
  | archive a =>
    rw [displayContainer, if_neg (display_ne a (by decide)), if_neg (display_ne a (by decide)),
      if_neg (display_ne a (by decide)), if_neg (display_ne a (by decide)),
      if_neg (mt carriesPrefix_display.mp (by decide)),
      if_pos (carriesPrefix_display.mpr rfl), part_display]
    rfl
  | case a k =>
    refine absurd ?_ h
    rw [displayContainer, String.toList_append, String.toList_append]
    exact List.mem_append_left _ (List.mem_append_right _ (by decide))
  | search s =>
    rw [displayContainer, if_neg (display_ne s (by decide)), if_neg (display_ne s (by decide)),
      if_neg (display_ne s (by decide)), if_neg (display_ne s (by decide)),
      if_neg (mt carriesPrefix_display.mp (by decide)),
      if_neg (mt carriesPrefix_display.mp (by decide)),
      if_pos (carriesPrefix_display.mpr rfl), part_display]
    rfl

theorem toList_segments (front back : String) :
    (front ++ "/" ++ back).toList = front.toList ++ '/' :: back.toList := by
  have hslash : "/".toList = ['/'] := rfl
  rw [String.toList_append, String.toList_append, hslash, List.append_assoc,
    List.singleton_append]

theorem containerFromText_display (c : Container) :
    containerFromText (displayContainer c) = .ok c := by
  cases c with
  | case a k =>
    have hsplit : splitOnce '/' (displayContainer (.case a k)) =
        some (display .archive a, display .case k) :=
      splitOnce_eq_some_iff.mpr ⟨slash_notMem_display a, toList_segments _ _⟩
    rw [containerFromText, hsplit]
    dsimp only
    rw [if_pos ⟨carriesPrefix_display.mpr rfl, carriesPrefix_display.mpr rfl,
      slash_notMem_display k⟩, part_display, part_display]
    rfl
  | root => exact containerFromText_single (by decide)
  | baskets => exact containerFromText_single (by decide)
  | archives => exact containerFromText_single (by decide)
  | searches => exact containerFromText_single (by decide)
  | basket b => exact containerFromText_single (slash_notMem_display b)
  | archive a => exact containerFromText_single (slash_notMem_display a)
  | search s => exact containerFromText_single (slash_notMem_display s)

/-- Only the text of a container is read as that container. -/
theorem displayContainer_of_ok (h : containerFromText text = .ok c) : displayContainer c = text := by
  rw [containerFromText] at h
  cases hsplit : splitOnce '/' text with
  | some parts =>
    obtain ⟨archive, case⟩ := parts
    rw [hsplit] at h
    dsimp only at h
    split at h
    case isTrue =>
      cases ha : part .archive archive with
      | error e =>
        rw [ha] at h
        cases h
      | ok a =>
        cases hk : part .case case with
        | error e =>
          rw [ha, hk] at h
          cases h
        | ok k =>
          rw [ha, hk] at h
          obtain rfl := Except.ok.inj h
          obtain ⟨-, htext⟩ := splitOnce_eq_some_iff.mp hsplit
          refine String.toList_injective ?_
          rw [displayContainer, toList_segments, htext, display_of_part ha, display_of_part hk]
    case isFalse => cases h
  | none =>
    rw [hsplit] at h
    dsimp only at h
    split_ifs at h with hroot hbaskets harchives hsearches
    · obtain rfl := Except.ok.inj h
      exact hroot.symm
    · obtain rfl := Except.ok.inj h
      exact hbaskets.symm
    · obtain rfl := Except.ok.inj h
      exact harchives.symm
    · obtain rfl := Except.ok.inj h
      exact hsearches.symm
    · obtain ⟨b, hb, rfl⟩ := map_eq_ok.mp h
      exact display_of_part hb
    · obtain ⟨a, ha, rfl⟩ := map_eq_ok.mp h
      exact display_of_part ha
    · obtain ⟨s, hs, rfl⟩ := map_eq_ok.mp h
      exact display_of_part hs

end Containers

section Entries

variable {text front back : String} {c : Container} {i : EntryIdentifier}

theorem location?_ofLocation (l : Location) : location? (.ofLocation l) = some l := by
  cases l <;> rfl

theorem ofLocation_of_some {l : Location} (h : location? c = some l) : Container.ofLocation l = c := by
  cases c <;> cases h <;> rfl

theorem display_ne_hint {kind : IdKind} (j : Identifier kind) (h : HintKind) :
    display kind j ≠ hintText h := by
  cases h
  · exact display_ne j (by decide)
  · exact display_ne j (by decide)

theorem entryFromText_single (h : '/' ∉ (displayContainer c).toList) :
    entryFromText (displayContainer c) = .ok (.container c) := by
  rw [entryFromText, rsplitOnce_eq_none_iff.mpr h]
  dsimp only
  rw [containerFromText_display]
  rfl

/-- A container is neither a hint nor a document, whatever its last segment. -/
theorem entryFromText_container (c : Container) :
    entryFromText (displayContainer c) = .ok (.container c) := by
  cases c with
  | case a k =>
    have hsplit : rsplitOnce '/' (displayContainer (.case a k)) =
        some (display .archive a, display .case k) :=
      rsplitOnce_eq_some_iff.mpr ⟨slash_notMem_display k, toList_segments _ _⟩
    rw [entryFromText, hsplit]
    dsimp only
    rw [if_neg (display_ne_hint k _), if_neg (display_ne_hint k _),
      if_neg (mt carriesPrefix_display.mp (by decide)), containerFromText_display]
    rfl
  | root => exact entryFromText_single (by decide)
  | baskets => exact entryFromText_single (by decide)
  | archives => exact entryFromText_single (by decide)
  | searches => exact entryFromText_single (by decide)
  | basket b => exact entryFromText_single (slash_notMem_display b)
  | archive a => exact entryFromText_single (slash_notMem_display a)
  | search s => exact entryFromText_single (slash_notMem_display s)

theorem displayEntry_hint (c : Container) (kind : HintKind) :
    displayEntry (.hint c kind) = displayContainer c ++ "/" ++ hintText kind := by
  cases kind
  · rw [displayEntry, hintText, String.append_assoc]
    rfl
  · rw [displayEntry, hintText, String.append_assoc]
    rfl

theorem slash_notMem_hintText (kind : HintKind) : '/' ∉ (hintText kind).toList := by
  cases kind <;> decide

theorem rsplitOnce_segments (h : '/' ∉ back.toList) :
    rsplitOnce '/' (front ++ "/" ++ back) = some (front, back) :=
  rsplitOnce_eq_some_iff.mpr ⟨h, toList_segments _ _⟩

theorem entryFromText_hint (front : String) (kind : HintKind) :
    entryFromText (front ++ "/" ++ hintText kind) =
      (containerFromText front).map (.hint · kind) := by
  rw [entryFromText, rsplitOnce_segments (slash_notMem_hintText kind)]
  cases kind
  · exact if_pos rfl
  · dsimp only
    rw [if_neg (by decide), if_pos rfl]

theorem entryFromText_display (i : EntryIdentifier) : entryFromText (displayEntry i) = .ok i := by
  cases i with
  | container c => exact entryFromText_container c
  | document l d =>
    rw [displayEntry, entryFromText, rsplitOnce_segments (slash_notMem_display d)]
    dsimp only
    rw [if_neg (display_ne_hint d _), if_neg (display_ne_hint d _),
      if_pos (carriesPrefix_display.mpr rfl), containerFromText_display]
    change (match location? (.ofLocation l) with
      | none => _
      | some location => _) = _
    rw [location?_ofLocation, part_display]
    rfl
  | hint c kind =>
    rw [displayEntry_hint, entryFromText_hint, containerFromText_display]
    rfl

theorem segments_of_rsplitOnce (h : rsplitOnce '/' text = some (front, back)) :
    front ++ "/" ++ back = text := by
  refine String.toList_injective ?_
  rw [toList_segments, (rsplitOnce_eq_some_iff.mp h).2]

/-- Only the text of an entry is read as that entry. -/
theorem displayEntry_of_ok (h : entryFromText text = .ok i) : displayEntry i = text := by
  have hcontainer : ∀ text, (containerFromText text).map EntryIdentifier.container = .ok i →
      displayEntry i = text := by
    intro text h
    obtain ⟨c, hc, rfl⟩ := map_eq_ok.mp h
    exact displayContainer_of_ok hc
  have hhint : ∀ front kind, (containerFromText front).map (EntryIdentifier.hint · kind) = .ok i →
      displayEntry i = front ++ "/" ++ hintText kind := by
    intro front kind h
    obtain ⟨c, hc, rfl⟩ := map_eq_ok.mp h
    rw [displayEntry_hint, displayContainer_of_ok hc]
  rw [entryFromText] at h
  cases hsplit : rsplitOnce '/' text with
  | none =>
    rw [hsplit] at h
    exact hcontainer text h
  | some parts =>
    obtain ⟨front, back⟩ := parts
    have htext := segments_of_rsplitOnce hsplit
    rw [hsplit] at h
    dsimp only at h
    split_ifs at h with hreadMe htruncated hdocument
    · rw [hhint _ _ h, ← htext, hreadMe]
    · rw [hhint _ _ h, ← htext, htruncated]
    · obtain ⟨c, hc, h⟩ := bind_eq_ok.mp h
      cases hl : location? c with
      | none =>
        rw [hl] at h
        cases h
      | some l =>
        rw [hl] at h
        obtain ⟨d, hd, rfl⟩ := map_eq_ok.mp h
        rw [displayEntry, ofLocation_of_some hl, displayContainer_of_ok hc, display_of_part hd,
          htext]
    · exact hcontainer text h

theorem displayEntry_injective : Function.Injective displayEntry := by
  intro i j h
  have hi := entryFromText_display i
  rw [h, entryFromText_display j] at hi
  exact (Except.ok.inj hi).symm

theorem displayContainer_injective : Function.Injective displayContainer := by
  intro c d h
  have hc := containerFromText_display c
  rw [h, containerFromText_display d] at hc
  exact (Except.ok.inj hc).symm

end Entries

section Earlier

/-- Where cases stood before they hung under their archives. -/
inductive EarlierPlace : String → Prop
  | cases : EarlierPlace "cases"
  | case (k : CaseIdentifier) : EarlierPlace (display .case k)

/-- A text that the tree had then and has no longer. -/
inductive Earlier : String → Prop
  | place {text : String} (h : EarlierPlace text) : Earlier text
  | listed (k : CaseIdentifier) : Earlier ("cases" ++ "/" ++ display .case k)
  | document {text : String} (h : EarlierPlace text) (d : DocumentIdentifier) :
      Earlier (text ++ "/" ++ display .document d)
  | hint {text : String} (h : EarlierPlace text) (kind : HintKind) :
      Earlier (text ++ "/" ++ hintText kind)

variable {text : String}

theorem slash_notMem_of_place (h : EarlierPlace text) : '/' ∉ text.toList := by
  cases h with
  | cases => decide
  | case k => exact slash_notMem_display k

theorem containerFromText_place (h : EarlierPlace text) :
    containerFromText text = .error (.shape text) := by
  have hslash := splitOnce_eq_none_iff.mpr (slash_notMem_of_place h)
  rw [containerFromText, hslash]
  cases h with
  | cases => rfl
  | case k =>
    dsimp only
    rw [if_neg (display_ne k (by decide)), if_neg (display_ne k (by decide)),
      if_neg (display_ne k (by decide)), if_neg (display_ne k (by decide)),
      if_neg (mt carriesPrefix_display.mp (by decide)),
      if_neg (mt carriesPrefix_display.mp (by decide)),
      if_neg (mt carriesPrefix_display.mp (by decide))]

theorem rejected_of_earlier (h : Earlier text) :
    ∃ named, entryFromText text = .error (.shape named) := by
  cases h with
  | place h =>
    refine ⟨text, ?_⟩
    rw [entryFromText, rsplitOnce_eq_none_iff.mpr (slash_notMem_of_place h)]
    dsimp only
    rw [containerFromText_place h]
    rfl
  | listed k =>
    refine ⟨"cases" ++ "/" ++ display .case k, ?_⟩
    have hsplit : splitOnce '/' ("cases" ++ "/" ++ display .case k) =
        some ("cases", display .case k) :=
      splitOnce_eq_some_iff.mpr ⟨by decide, toList_segments _ _⟩
    have hcontainer : containerFromText ("cases" ++ "/" ++ display .case k) =
        .error (.shape ("cases" ++ "/" ++ display .case k)) := by
      rw [containerFromText, hsplit]
      exact if_neg fun h ↦ absurd h.1 (by decide)
    rw [entryFromText, rsplitOnce_segments (slash_notMem_display k)]
    dsimp only
    rw [if_neg (display_ne_hint k _), if_neg (display_ne_hint k _),
      if_neg (mt carriesPrefix_display.mp (by decide)), hcontainer]
    rfl
  | @document front hplace d =>
    refine ⟨front, ?_⟩
    rw [entryFromText, rsplitOnce_segments (slash_notMem_display d)]
    dsimp only
    rw [if_neg (display_ne_hint d _), if_neg (display_ne_hint d _),
      if_pos (carriesPrefix_display.mpr rfl), containerFromText_place hplace]
    rfl
  | @hint front hplace kind =>
    refine ⟨front, ?_⟩
    rw [entryFromText_hint, containerFromText_place hplace]
    rfl

end Earlier

end FolderClient.Core.EntryText
