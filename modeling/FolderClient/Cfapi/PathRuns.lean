import FolderClient.Cfapi.Checks
import FolderClient.Cfapi.PathKeys

namespace FolderClient.Cfapi.PathRuns

open FolderClient.Cfapi.Checks FolderClient.Cfapi.PathKeys FolderClient.Cfapi.PathMap
open FolderClient.Core.Namespace FolderClient.Library.Casing FolderClient.Library.Segments
  FolderClient.Library.Tables

section Model

/-- Whether a file may be put into a container. -/
def acceptsNewFiles (container : Container) : Bool := container matches .basket _

def basket (container : Container) : Option BasketIdentifier :=
  if ¬ acceptsNewFiles container then none
  else
    match container with
    | .basket b => some b
    | _ => none

/-- The parent path of a relative path, and its last name. -/
def parentAndName (relative : List Char) : List Char × List Char :=
  if separator ∈ relative then
    ((relative.rdropWhile (· ≠ separator)).dropLast, relative.rtakeWhile (· ≠ separator))
  else ([], relative)

variable (unicode : Unicode) (map : PathMap)

/-- The child with a name, as names are compared. -/
def searchName (container : Container) (name : String) : Option EntryIdentifier :=
  (map.locations.rows.find? fun row ↦ row.2.parent = container ∧
    comparisonForm unicode row.2.name = comparisonForm unicode name).map Prod.fst

/-- The container at a relative path, found name by name. -/
def containerAt (relative : List Char) : Option Container :=
  (segments separator relative).foldlM (fun container part ↦
    (searchName unicode map container (String.ofList part)).bind EntryIdentifier.container?) .root

/-- The basket a file at a relative path was dropped into. -/
def basketOf (relative : List Char) : Option BasketIdentifier :=
  (containerAt unicode map (parentAndName relative).1).bind basket

def forgetPopulation (container : Container) : PathMap :=
  { map with populated := Function.update map.populated container false }

end Model

section Runs

variable (unicode : Unicode)

/-- No other entry of a container has the name, as names are compared. -/
def Fresh (map : PathMap) (identifier : EntryIdentifier) (parent : Container) (name : String) :
    Prop :=
  ∀ k l, k ≠ identifier → map.location k = some l → l.parent = parent →
    comparisonForm unicode l.name ≠ comparisonForm unicode name

/-- The maps that come about by entering, renaming, removing and marking, with accepted names that
differ among siblings, and each entry below one that is known. -/
inductive Run : PathMap → Prop
  | empty : Run .empty
  | set {map : PathMap} {identifier : EntryIdentifier} {parent : Container} {name : String}
      (folder : Bool) : Run map → identifier.parent = some parent →
      checkName name = .ok () → (parent = .root ∨ map.knows (.container parent) = true) →
      Fresh unicode map identifier parent name → Run (map.set identifier name folder)
  | rename {map : PathMap} {identifier : EntryIdentifier} {name : String} : Run map →
      checkName name = .ok () →
      (∀ l, map.location identifier = some l → Fresh unicode map identifier l.parent name) →
      Run (map.rename identifier name)
  | remove {map : PathMap} (identifier : EntryIdentifier) : Run map → Run (map.remove identifier)
  | marked {map : PathMap} (container : Container) : Run map → Run (map.markPopulated container)
  | forgotten {map : PathMap} (container : Container) : Run map →
      Run (forgetPopulation map container)

/-- Every entry lies in a known container under an accepted name of its own. -/
structure Sound (map : PathMap) : Prop where
  parents : ∀ {k l}, map.location k = some l → k.parent = some l.parent ∧
    (l.parent = .root ∨ map.knows (.container l.parent) = true)
  names : ∀ {k l}, map.location k = some l → checkName l.name = .ok ()
  distinct : ∀ {k k' l l'}, map.location k = some l → map.location k' = some l' →
    l.parent = l'.parent → comparisonForm unicode l.name = comparisonForm unicode l'.name → k = k'

variable {unicode} {map : PathMap} {i k : EntryIdentifier}

theorem exists_location (h : map.knows k = true) : ∃ l, map.location k = some l :=
  Option.isSome_iff_exists.mp h

theorem knows_of_location {l : PathMap.Location} (h : map.location k = some l) :
    map.knows k = true := by
  rw [knows, h]
  rfl

theorem Sound.set {parent : Container} {name : String} (folder : Bool) (h : Sound unicode map)
    (hp : i.parent = some parent) (hname : checkName name = .ok ())
    (hknown : parent = .root ∨ map.knows (.container parent) = true)
    (hfresh : Fresh unicode map i parent name) : Sound unicode (map.set i name folder) := by
  have hlocation : ∀ k, (map.set i name folder).location k =
      if k = i then some ⟨parent, name, folder⟩ else map.location k :=
    fun k ↦ location_set hp name folder
  have hknows : ∀ c, c = Container.root ∨ map.knows (.container c) = true →
      c = .root ∨ (map.set i name folder).knows (.container c) = true := by
    intro c hc
    refine hc.imp_right fun hc ↦ ?_
    rw [knows, hlocation]
    split
    · rfl
    · exact hc
  refine ⟨fun {k l} hl ↦ ?_, fun {k l} hl ↦ ?_, fun {k k' l l'} hl hl' hparent hform ↦ ?_⟩
  · rw [hlocation] at hl
    split at hl
    · rename_i heq
      cases hl
      exact ⟨heq ▸ hp, hknows _ hknown⟩
    · obtain ⟨hk, hc⟩ := h.parents hl
      exact ⟨hk, hknows _ hc⟩
  · rw [hlocation] at hl
    split at hl
    · cases hl
      exact hname
    · exact h.names hl
  · rw [hlocation] at hl hl'
    split at hl
    · rename_i heq
      cases hl
      split at hl'
      · rename_i heq'
        exact heq.trans heq'.symm
      · rename_i hne
        exact absurd hform.symm (hfresh k' l' hne hl' hparent.symm)
    · rename_i hne
      split at hl'
      · cases hl'
        exact absurd hform (hfresh k l hne hl hparent)
      · exact h.distinct hl hl' hparent hform

theorem Sound.rename {name : String} (h : Sound unicode map) (hname : checkName name = .ok ())
    (hfresh : ∀ l, map.location i = some l → Fresh unicode map i l.parent name) :
    Sound unicode (map.rename i name) := by
  have hlocation : ∀ {k l}, (map.rename i name).location k = some l → ∃ old,
      map.location k = some old ∧ l.parent = old.parent ∧
        (k = i ∧ l.name = name ∨ k ≠ i ∧ l.name = old.name) := by
    intro k l hl
    rw [location_rename] at hl
    obtain ⟨old, hold, rfl⟩ := Option.map_eq_some_iff.mp hl
    refine ⟨old, hold, ?_⟩
    by_cases hk : k = i
    · rw [if_pos hk]
      exact ⟨rfl, .inl ⟨hk, rfl⟩⟩
    · rw [if_neg hk]
      exact ⟨rfl, .inr ⟨hk, rfl⟩⟩
  have hknows : ∀ c, (map.rename i name).knows c = map.knows c := by
    intro c
    rw [knows, knows, location_rename, Option.isSome_map]
  refine ⟨fun {k l} hl ↦ ?_, fun {k l} hl ↦ ?_, fun {k k' l l'} hl hl' hparent hform ↦ ?_⟩
  · obtain ⟨old, hold, hparent, -⟩ := hlocation hl
    rw [hparent, hknows]
    exact h.parents hold
  · obtain ⟨old, hold, -, ⟨-, hnew⟩ | ⟨-, hkept⟩⟩ := hlocation hl
    · exact hnew ▸ hname
    · exact hkept ▸ h.names hold
  · obtain ⟨old, hold, hp, ⟨hk, hn⟩ | ⟨hk, hn⟩⟩ := hlocation hl
    · obtain ⟨old', hold', hp', ⟨hk', hn'⟩ | ⟨hk', hn'⟩⟩ := hlocation hl'
      · exact hk.trans hk'.symm
      · subst hk
        rw [hn, hn'] at hform
        exact absurd hform.symm (hfresh old hold k' old' hk' hold'
          (hp'.symm.trans (hparent.symm.trans hp)))
    · obtain ⟨old', hold', hp', ⟨hk', hn'⟩ | ⟨hk', hn'⟩⟩ := hlocation hl'
      · subst hk'
        rw [hn, hn'] at hform
        exact absurd hform (hfresh old' hold' k old hk hold
          (hp.symm.trans (hparent.trans hp')))
      · rw [hn, hn'] at hform
        exact h.distinct hold hold' (hp.symm.trans (hparent.trans hp')) hform

theorem Sound.remove (h : Sound unicode map) (i : EntryIdentifier) :
    Sound unicode (map.remove i) := by
  have hlocation : ∀ {k l}, (map.remove i).location k = some l →
      map.location k = some l ∧ map.reaches i treeDepth k = false := by
    intro k l hl
    rw [location_remove] at hl
    split at hl
    · cases hl
    · rename_i hreaches
      exact ⟨hl, Bool.eq_false_of_not_eq_true hreaches⟩
  refine ⟨fun {k l} hl ↦ ?_, fun {k l} hl ↦ h.names (hlocation hl).1,
    fun {k k' l l'} hl hl' hparent hform ↦
      h.distinct (hlocation hl).1 (hlocation hl').1 hparent hform⟩
  obtain ⟨hl, hleft⟩ := hlocation hl
  obtain ⟨hk, hknown⟩ := h.parents hl
  refine ⟨hk, hknown.imp_right fun hknown ↦ ?_⟩
  have hparent : map.reaches i treeDepth (.container l.parent) = false := by
    by_contra hne
    rw [Bool.not_eq_false] at hne
    have hdeeper : map.reaches i (treeDepth + 1) k = true := by
      rw [reaches_add_one, knows_of_location hl, hk]
      simp only [Option.any_some, hne, Bool.and_self, Bool.or_true]
    exact Bool.false_ne_true (hleft.symm.trans (reaches_of_succ (depthOf_le k) hdeeper))
  rw [knows, location_remove, hparent]
  exact hknown

theorem sound_of_run (h : Run unicode map) : Sound unicode map := by
  induction h with
  | empty => exact ⟨nofun, nofun, nofun⟩
  | set folder _ hp hname hknown hfresh ih => exact ih.set folder hp hname hknown hfresh
  | rename _ hname hfresh ih => exact ih.rename hname hfresh
  | remove identifier _ ih => exact ih.remove identifier
  | marked container _ ih => exact ⟨ih.parents, ih.names, ih.distinct⟩
  | forgotten container _ ih => exact ⟨ih.parents, ih.names, ih.distinct⟩

end Runs

section Trails

variable {unicode : Unicode} {map : PathMap} {i k : EntryIdentifier}
  {ids ids' : List EntryIdentifier}

/-- The entries on the way from one of them up to the root. -/
inductive Trail (map : PathMap) : EntryIdentifier → List EntryIdentifier → Prop
  | root : Trail map (.container .root) []
  | link {k : EntryIdentifier} {l : PathMap.Location} {ids : List EntryIdentifier} :
      map.location k = some l → Trail map (.container l.parent) ids → Trail map k (k :: ids)

/-- The name of a known entry. -/
def nameOf (map : PathMap) (k : EntryIdentifier) : String :=
  ((map.location k).map PathMap.Location.name).getD ""

theorem nameOf_eq {l : PathMap.Location} (h : map.location k = some l) :
    nameOf map k = l.name := by
  rw [nameOf, h]
  rfl

theorem Sound.location_root (h : Sound unicode map) : map.location (.container .root) = none := by
  by_contra hne
  obtain ⟨l, hl⟩ := Option.ne_none_iff_exists'.mp hne
  cases (h.parents hl).1

theorem Sound.ne_root {l : PathMap.Location} (h : Sound unicode map)
    (hl : map.location k = some l) : k ≠ .container .root := by
  rintro rfl
  rw [h.location_root] at hl
  cases hl

theorem Trail.location_of_mem (h : Trail map k ids) (hi : i ∈ ids) :
    ∃ l, map.location i = some l := by
  induction h with
  | root => exact absurd hi List.not_mem_nil
  | link hl _ ih =>
    rcases List.mem_cons.mp hi with rfl | hi
    · exact ⟨_, hl⟩
    · exact ih hi

theorem Trail.unique (hs : Sound unicode map) (h : Trail map k ids) (h' : Trail map k ids') :
    ids = ids' := by
  induction h generalizing ids' with
  | root =>
    cases h' with
    | root => rfl
    | link hl _ => exact absurd rfl (hs.ne_root hl)
  | link hl _ ih =>
    cases h' with
    | root => exact absurd rfl (hs.ne_root hl)
    | link hl' htrail =>
      cases hl.symm.trans hl'
      rw [ih htrail]

theorem depthOf_parent {p : Container} (h : k.parent = some p) :
    depthOf (.container p) < depthOf k := by
  have hk : depthOf k = p.depth + 1 := by
    rw [depthOf, h]
    rfl
  rw [hk, depthOf]
  change p.parent.elim 0 _ < _
  cases hq : p.parent with
  | none => exact Nat.succ_pos _
  | some q =>
    have hdepth := Container.depth_of_parent hq
    change q.depth + 1 < p.depth + 1
    omega

/-- Every known entry has a way up to the root, no longer than it lies deep. -/
theorem exists_trail (hs : Sound unicode map) (n : ℕ) (k : EntryIdentifier) (hn : depthOf k ≤ n)
    (hk : map.knows k = true) : ∃ ids, Trail map k ids ∧ ids.length ≤ n := by
  induction n generalizing k with
  | zero =>
    obtain ⟨l, hl⟩ := exists_location hk
    have hlt := depthOf_parent (hs.parents hl).1
    omega
  | succ n ih =>
    obtain ⟨l, hl⟩ := exists_location hk
    obtain ⟨hparent, hroot | hknown⟩ := hs.parents hl
    · have htrail : Trail map (.container l.parent) [] := hroot ▸ .root
      exact ⟨[k], .link hl htrail, Nat.le_add_left _ _⟩
    · have hlt := depthOf_parent hparent
      obtain ⟨ids, htrail, hlength⟩ := ih _ (by omega) hknown
      exact ⟨k :: ids, .link hl htrail, Nat.succ_le_succ hlength⟩

/-- The names on the way up are those the path is made of. -/
theorem parts_of_trail (hs : Sound unicode map) (h : Trail map k ids) {limit : ℕ}
    (hlimit : ids.length ≤ limit) : map.parts limit k = some (ids.map (nameOf map)) := by
  induction h generalizing limit with
  | root =>
    unfold PathMap.parts
    exact if_pos rfl
  | @link k l ids hl htrail ih =>
    cases limit with
    | zero => cases hlimit
    | succ limit =>
      unfold PathMap.parts
      rw [if_neg (hs.ne_root hl), hl]
      have hrest := ih (Nat.le_of_succ_le_succ hlimit)
      change (map.parts limit (.container l.parent) >>= fun rest ↦ pure (l.name :: rest)) = _
      rw [hrest, List.map_cons, nameOf_eq hl]
      rfl

theorem accepted_of_nameReason {name : List Char} (h : nameReason name = none) :
    name ≠ [] ∧ separator ∉ name := by
  unfold nameReason at h
  split_ifs at h with hempty _ _ _ hforbidden
  refine ⟨fun hnil ↦ hempty (hnil ▸ rfl), fun hmem ↦ hforbidden ?_⟩
  exact List.any_eq_true.mpr ⟨separator, hmem, by decide⟩

theorem Sound.proper (hs : Sound unicode map) (h : Trail map k ids) :
    Proper separator (ids.reverse.map fun i ↦ (nameOf map i).toList) := by
  intro part hpart
  obtain ⟨i, hi, rfl⟩ := List.mem_map.mp hpart
  obtain ⟨l, hl⟩ := h.location_of_mem (List.mem_reverse.mp hi)
  have hname := hs.names hl
  rw [nameOf_eq hl]
  refine accepted_of_nameReason ?_
  unfold checkName at hname
  split at hname
  · cases hname
  · assumption

/-- Parts put behind one another make the path of these parts. -/
theorem foldl_connect {names : List (List Char)} (h : Proper separator names) :
    names.foldl connect [] = joined separator names ∧
      (joined separator names).rdropWhile (· = separator) = joined separator names := by
  induction names using List.reverseRecOn with
  | nil => exact ⟨rfl, rfl⟩
  | append_singleton names name ih =>
    obtain ⟨hfold, hcut⟩ := ih fun part hpart ↦ h part (List.mem_append_left _ hpart)
    obtain ⟨hne, hnot⟩ := h name (List.mem_append_right _ List.mem_cons_self)
    have hend : name.rdropWhile (· = separator) = name := by
      rw [List.rdropWhile_eq_self_iff]
      intro hnonempty hlast
      exact hnot (of_decide_eq_true hlast ▸ List.getLast_mem hnonempty)
    have hfront : name.dropWhile (· = separator) = name := by
      refine dropWhile_of_head fun hhead ↦ hnot (List.mem_of_head? hhead)
    have hempty : name.isEmpty = false := by
      rw [List.isEmpty_eq_false_iff]
      exact hne
    rw [List.foldl_append, hfold]
    change connect (joined separator names) name = _ ∧ _
    by_cases hnames : names = []
    · subst hnames
      rw [List.nil_append, joined_singleton]
      refine ⟨?_, hend⟩
      unfold connect
      rw [hfront]
      rfl
    · have hjoined := @joined_append Char separator names [name] hnames (List.cons_ne_nil _ _)
      rw [joined_singleton] at hjoined
      have hfull : (joined separator names).isEmpty = false := by
        rw [List.isEmpty_eq_false_iff]
        intro hnil
        have hsegments := segments_joined fun part hpart ↦ h part (List.mem_append_left _ hpart)
        rw [hnil, segments_nil] at hsegments
        exact hnames hsegments.symm
      rw [hjoined]
      constructor
      · unfold connect
        rw [hcut, hfront]
        dsimp only
        rw [hfull, hempty]
        rfl
      · rw [List.append_cons, rdropWhile_append, hend, if_neg hne]

theorem path_of_trail (hs : Sound unicode map) (h : Trail map k ids)
    (hlength : ids.length ≤ maxDepth) : map.path k =
      some (joined separator (ids.reverse.map fun i ↦ (nameOf map i).toList)) := by
  have hfold := (foldl_connect (hs.proper h)).1
  rw [PathMap.path, parts_of_trail hs h hlength, Option.map_some, ← hfold, List.foldl_map,
    ← List.map_reverse, List.foldl_map]

end Trails

section Search

variable {unicode : Unicode} {map : PathMap} {i k : EntryIdentifier} {c : Container}
  {ids : List EntryIdentifier}

theorem location_iff {l : PathMap.Location} :
    map.location k = some l ↔ (k, l) ∈ map.locations.rows := by
  rw [location, Option.map_eq_some_iff]
  constructor
  · rintro ⟨row, hrow, rfl⟩
    obtain ⟨hmem, rfl⟩ := (Table.find?_eq_some_iff _).mp hrow
    exact hmem
  · exact fun hmem ↦ ⟨(k, l), (Table.find?_eq_some_iff _).mpr ⟨hmem, rfl⟩, rfl⟩

/-- A name finds the one entry of the container that has it. -/
theorem searchName_iff (hs : Sound unicode map) {name : String} :
    searchName unicode map c name = some k ↔ ∃ l, map.location k = some l ∧ l.parent = c ∧
      comparisonForm unicode l.name = comparisonForm unicode name := by
  have hfound : ∀ row, map.locations.rows.find? (fun row ↦ row.2.parent = c ∧
      comparisonForm unicode row.2.name = comparisonForm unicode name) = some row →
      map.location row.1 = some row.2 ∧ row.2.parent = c ∧
        comparisonForm unicode row.2.name = comparisonForm unicode name := by
    intro row hrow
    refine ⟨location_iff.mpr (List.mem_of_find?_eq_some hrow), ?_⟩
    simpa using List.find?_some hrow
  rw [searchName, Option.map_eq_some_iff]
  constructor
  · rintro ⟨row, hrow, rfl⟩
    exact ⟨row.2, hfound row hrow⟩
  · rintro ⟨l, hl, hparent, hform⟩
    have hsome : (map.locations.rows.find? fun row ↦ row.2.parent = c ∧
        comparisonForm unicode row.2.name = comparisonForm unicode name).isSome = true :=
      List.find?_isSome.mpr ⟨(k, l), location_iff.mp hl, decide_eq_true ⟨hparent, hform⟩⟩
    obtain ⟨row, hrow⟩ := Option.isSome_iff_exists.mp hsome
    obtain ⟨hlocation, hparent', hform'⟩ := hfound row hrow
    exact ⟨row, hrow, hs.distinct hlocation hl (hparent'.trans hparent.symm)
      (hform'.trans hform.symm)⟩

/-- The names of a text, in the form in which they are compared. -/
def forms (unicode : Unicode) (relative : List Char) : List String :=
  (segments separator relative).map fun part ↦ comparisonForm unicode (String.ofList part)

/-- A container is found exactly where the names are those on the way to it, as names are
compared. -/
theorem descends_iff (hs : Sound unicode map) (parts : List (List Char)) :
    parts.foldlM (fun container part ↦
      (searchName unicode map container (String.ofList part)).bind EntryIdentifier.container?)
        Container.root = some c ↔
      ∃ ids, Trail map (.container c) ids ∧
        (ids.reverse.map fun i ↦ comparisonForm unicode (nameOf map i)) =
          parts.map fun part ↦ comparisonForm unicode (String.ofList part) := by
  induction parts using List.reverseRecOn generalizing c with
  | nil =>
    change some Container.root = some c ↔ _
    constructor
    · intro h
      cases h
      exact ⟨[], .root, rfl⟩
    · rintro ⟨ids, htrail, hnames⟩
      cases htrail with
      | root => rfl
      | link hl _ =>
        rw [List.map_nil, List.map_eq_nil_iff, List.reverse_eq_nil_iff] at hnames
        cases hnames
  | append_singleton parts part ih =>
    rw [List.foldlM_append]
    constructor
    · intro h
      obtain ⟨parent, hparent, hlast⟩ := Option.bind_eq_some_iff.mp h
      obtain ⟨ids, htrail, hnames⟩ := ih.mp hparent
      obtain ⟨found, hfound, hpure⟩ := Option.bind_eq_some_iff.mp hlast
      cases hpure
      obtain ⟨k, hk, hcontainer⟩ := Option.bind_eq_some_iff.mp hfound
      obtain rfl := EntryIdentifier.container?_eq_some.mp hcontainer
      obtain ⟨l, hl, rfl, hform⟩ := (searchName_iff hs).mp hk
      refine ⟨_, .link hl htrail, ?_⟩
      rw [List.reverse_cons, List.map_append, List.map_append, hnames, List.map_singleton,
        List.map_singleton, nameOf_eq hl, hform]
    · rintro ⟨ids, htrail, hnames⟩
      cases htrail with
      | root =>
        rw [List.map_append] at hnames
        exact absurd hnames.symm (by simp)
      | @link _ l ids hl htrail =>
        rw [List.reverse_cons, List.map_append, List.map_append] at hnames
        obtain ⟨hbefore, hlast⟩ := List.append_inj' hnames rfl
        have hform : comparisonForm unicode (nameOf map (.container c)) =
            comparisonForm unicode (String.ofList part) := (List.cons.inj hlast).1
        rw [nameOf_eq hl] at hform
        have hk := (searchName_iff hs).mpr ⟨l, hl, rfl, hform⟩
        refine Option.bind_eq_some_iff.mpr ⟨l.parent, ih.mpr ⟨ids, htrail, hbefore⟩, ?_⟩
        exact Option.bind_eq_some_iff.mpr ⟨c, Option.bind_eq_some_iff.mpr ⟨_, hk, rfl⟩, rfl⟩

theorem containerAt_iff (hs : Sound unicode map) (relative : List Char) :
    containerAt unicode map relative = some c ↔ ∃ ids, Trail map (.container c) ids ∧
      (ids.reverse.map fun i ↦ comparisonForm unicode (nameOf map i)) = forms unicode relative :=
  descends_iff hs _

theorem forms_of_trail (hs : Sound unicode map) (h : Trail map k ids) :
    forms unicode (joined separator (ids.reverse.map fun i ↦ (nameOf map i).toList)) =
      ids.reverse.map fun i ↦ comparisonForm unicode (nameOf map i) := by
  rw [forms, segments_joined (hs.proper h), List.map_map]
  exact List.map_congr_left fun i _ ↦ congrArg (comparisonForm unicode) String.ofList_toList

/-- Every known entry, and the root, has a path; the names it is made of lie on the way up. -/
theorem exists_path (hs : Sound unicode map) (hk : k = .container .root ∨ map.knows k = true) :
    ∃ ids, Trail map k ids ∧ ids.length ≤ maxDepth := by
  rcases hk with rfl | hk
  · exact ⟨[], .root, Nat.zero_le _⟩
  · obtain ⟨ids, htrail, hlength⟩ := exists_trail hs treeDepth k (depthOf_le k) hk
    exact ⟨ids, htrail, hlength.trans (by decide)⟩

/-- A container is found at a path exactly if the path is its own, as names are compared. -/
theorem containerAt_iff_path (hs : Sound unicode map)
    (hc : c = .root ∨ map.knows (.container c) = true) :
    ∃ path, map.path (.container c) = some path ∧ ∀ relative,
      containerAt unicode map relative = some c ↔ forms unicode relative = forms unicode path := by
  obtain ⟨ids, htrail, hlength⟩ := exists_path hs (hc.imp_left (congrArg EntryIdentifier.container))
  refine ⟨_, path_of_trail hs htrail hlength, fun relative ↦ ?_⟩
  rw [containerAt_iff hs, forms_of_trail hs htrail]
  constructor
  · rintro ⟨ids', htrail', hnames⟩
    rw [htrail.unique hs htrail', hnames]
  · exact fun hforms ↦ ⟨ids, htrail, hforms.symm⟩

end Search

section Laws

variable {unicode : Unicode} {map : PathMap} {i k : EntryIdentifier} {c : Container}
  {ids : List EntryIdentifier}

theorem Trail.rename {name : String} (h : Trail map k ids) : Trail (map.rename i name) k ids := by
  induction h with
  | root => exact .root
  | @link k l ids hl htrail ih =>
    have hlocation : (map.rename i name).location k =
        some (if k = i then { l with name := name } else l) := by
      rw [location_rename, hl]
      rfl
    refine .link hlocation ?_
    split <;> exact ih

/-- Renaming changes one name in the paths of what lies at or below the entry, and nothing else. -/
theorem path_rename {name : String} (hs : Sound unicode map) (hname : checkName name = .ok ())
    (hfresh : ∀ l, map.location i = some l → Fresh unicode map i l.parent name)
    (h : Trail map k ids) (hlength : ids.length ≤ maxDepth) :
    (map.rename i name).path k = some (joined separator
      (ids.reverse.map fun j ↦ (if j = i then name else nameOf map j).toList)) := by
  rw [path_of_trail (hs.rename hname hfresh) h.rename hlength]
  refine congrArg some (congrArg (joined separator) (List.map_congr_left fun j hj ↦ ?_))
  obtain ⟨l, hl⟩ := h.location_of_mem (List.mem_reverse.mp hj)
  refine congrArg String.toList ?_
  rw [nameOf, location_rename, hl, nameOf_eq hl]
  change (if j = i then { l with name := name } else l).name = _
  split <;> rfl

/-- An entry lies at or below another one. -/
def Within (map : PathMap) (i k : EntryIdentifier) : Prop :=
  ∃ ids, Trail map k ids ∧ (i = .container .root ∨ i ∈ ids)

theorem reaches_iff_of_trail (hs : Sound unicode map) (h : Trail map k ids) {n : ℕ}
    (hn : ids.length ≤ n) : map.reaches i n k = true ↔
      k = i ∨ ids ≠ [] ∧ (i = .container .root ∨ i ∈ ids) := by
  induction h generalizing n with
  | root =>
    have hempty : ¬ (([] : List EntryIdentifier) ≠ [] ∧
        (i = .container .root ∨ i ∈ ([] : List EntryIdentifier))) := fun h ↦ h.1 rfl
    rw [or_iff_left hempty]
    cases n with
    | zero => rw [reaches_zero, decide_eq_true_eq]
    | succ n =>
      have hunknown : map.knows (.container .root) = false := by
        rw [knows, hs.location_root]
        rfl
      rw [reaches_add_one, hunknown, Bool.false_and, Bool.or_false, decide_eq_true_eq]
  | @link k l ids hl htrail ih =>
    cases n with
    | zero => cases hn
    | succ n =>
      rw [reaches_add_one, knows_of_location hl, (hs.parents hl).1, Bool.true_and, Option.any_some,
        Bool.or_eq_true, decide_eq_true_eq, ih (Nat.le_of_succ_le_succ hn)]
      by_cases hki : k = i
      · exact iff_of_true (.inl hki) (.inl hki)
      rw [or_iff_right hki, or_iff_right hki, and_iff_right (List.cons_ne_nil _ _), List.mem_cons,
        or_iff_right (Ne.symm hki)]
      generalize l.parent = p at htrail ⊢
      constructor
      · rintro (rfl | ⟨-, hbelow⟩)
        · cases htrail with
          | root => exact .inl rfl
          | link => exact .inr List.mem_cons_self
        · exact hbelow
      · intro hbelow
        cases htrail with
        | root =>
          rcases hbelow with rfl | hmem
          · exact .inl rfl
          · exact absurd hmem List.not_mem_nil
        | link => exact .inr ⟨List.cons_ne_nil _ _, hbelow⟩

/-- The removal of an entry reaches the entry and what is known at or below it. -/
theorem reaches_iff (hs : Sound unicode map) : map.reaches i treeDepth k = true ↔
    k = i ∨ map.knows k = true ∧ Within map i k := by
  cases hk : map.knows k with
  | false =>
    have hself : map.reaches i treeDepth k = decide (k = i) := by
      rw [treeDepth, reaches_add_one, hk, Bool.false_and, Bool.or_false]
    rw [hself, decide_eq_true_eq]
    exact (or_iff_left fun h ↦ Bool.false_ne_true h.1).symm
  | true =>
    obtain ⟨ids, htrail, hlength⟩ := exists_trail hs treeDepth k (depthOf_le k) hk
    rw [reaches_iff_of_trail hs htrail hlength]
    refine or_congr_right ⟨fun h ↦ ⟨rfl, ids, htrail, h.2⟩, ?_⟩
    rintro ⟨-, ids', htrail', hbelow⟩
    rw [htrail'.unique hs htrail] at hbelow
    refine ⟨?_, hbelow⟩
    rintro rfl
    cases htrail
    obtain ⟨l, hl⟩ := exists_location hk
    exact hs.ne_root hl rfl

theorem location_of_not_within (hs : Sound unicode map)
    (h : ¬ (map.knows i = true ∧ Within map i i)) : map.location i = none := by
  by_contra hne
  have hk : map.knows i = true := knows_iff.mpr hne
  obtain ⟨ids, htrail, -⟩ := exists_path hs (.inr hk)
  refine h ⟨hk, ids, htrail, .inr ?_⟩
  cases htrail with
  | root => exact absurd hs.location_root hne
  | link => exact List.mem_cons_self

theorem parentAndName_append {folder name : List Char} (h : separator ∉ name) :
    parentAndName (folder ++ separator :: name) = (folder, name) := by
  have hname : name.reverse.all (fun c ↦ decide (c ≠ separator)) = true := by
    rw [List.all_eq_true]
    intro c hc
    exact decide_eq_true fun heq ↦ h (heq ▸ List.mem_reverse.mp hc)
  have hreverse : (folder ++ separator :: name).reverse =
      name.reverse ++ separator :: folder.reverse := by
    rw [List.reverse_append, List.reverse_cons, List.append_assoc]
    rfl
  have hplain : ∀ c ∈ name.reverse, decide (c ≠ separator) = true := List.all_eq_true.mp hname
  have hstop : ¬ decide (separator ≠ separator) = true := by simp
  have hdrop : (folder ++ separator :: name).rdropWhile (· ≠ separator) = folder ++ [separator] := by
    rw [List.rdropWhile, hreverse, List.dropWhile_append_of_pos hplain, List.dropWhile_cons,
      if_neg hstop, List.reverse_cons, List.reverse_reverse]
  have htake : (folder ++ separator :: name).rtakeWhile (· ≠ separator) = name := by
    rw [List.rtakeWhile, hreverse, List.takeWhile_append_of_pos hplain, List.takeWhile_cons,
      if_neg hstop, List.append_nil, List.reverse_reverse]
  rw [parentAndName, if_pos (List.mem_append_right _ List.mem_cons_self), hdrop, htake,
    List.dropLast_concat]

theorem basket_eq_some {c : Container} {b : BasketIdentifier} :
    basket c = some b ↔ c = .basket b := by
  unfold basket acceptsNewFiles
  cases c with
  | basket b' => simp
  | _ => simp

/-- What lies directly in the folder of a basket was dropped there, and nothing else. -/
theorem basketOf_iff (hs : Sound unicode map) {relative : List Char} {b : BasketIdentifier} :
    basketOf unicode map relative = some b ↔ map.knows (.container (.basket b)) = true ∧
      ∃ folder name path, relative = folder ++ separator :: name ∧ separator ∉ name ∧
        map.path (.container (.basket b)) = some path ∧
          forms unicode folder = forms unicode path := by
  have hiff : basketOf unicode map relative = some b ↔
      containerAt unicode map (parentAndName relative).1 = some (.basket b) := by
    rw [basketOf, Option.bind_eq_some_iff]
    constructor
    · rintro ⟨c, hc, hb⟩
      rw [hc, basket_eq_some.mp hb]
    · exact fun h ↦ ⟨_, h, basket_eq_some.mpr rfl⟩
  rw [hiff]
  constructor
  · intro hfound
    obtain ⟨ids, htrail, hnames⟩ := (containerAt_iff hs _).mp hfound
    have hknown : map.knows (.container (.basket b)) = true := by
      cases htrail with
      | link hl _ => exact knows_of_location hl
    refine ⟨hknown, ?_⟩
    obtain ⟨path, hpath, hsearch⟩ := containerAt_iff_path hs (.inr hknown)
    have hforms := (hsearch _).mp hfound
    by_cases hsep : separator ∈ relative
    · obtain ⟨before, after, hreverse, hnot⟩ :=
        List.eq_append_cons_of_mem (List.mem_reverse.mpr hsep)
      have hsplit : relative = after.reverse ++ separator :: before.reverse := by
        rw [← List.reverse_reverse relative, hreverse, List.reverse_append, List.reverse_cons,
          List.append_assoc]
        rfl
      have hlast : separator ∉ before.reverse := fun h ↦ hnot (List.mem_reverse.mp h)
      rw [hsplit, parentAndName_append hlast] at hforms
      exact ⟨_, _, path, hsplit, hlast, hpath, hforms⟩
    · rw [parentAndName, if_neg hsep] at hfound
      cases hfound
  · rintro ⟨hknown, folder, name, path, rfl, hnot, hpath, hforms⟩
    rw [parentAndName_append hnot]
    obtain ⟨path', hpath', hsearch⟩ := containerAt_iff_path hs (.inr hknown)
    cases hpath.symm.trans hpath'
    exact (hsearch folder).mpr hforms

end Laws

section Spellings

variable (unicode : Unicode) (tables : Tables)

def composed (part : List Char) : List Char := (unicode.nfc (String.ofList part)).toList

/-- Two paths are the same to who normalises their names and then compares letter by letter. -/
def SameLetters (a b : List Char) : Prop :=
  List.Forall₂ (fun x y ↦
    (composed unicode x).map tables.simple = (composed unicode y).map tables.simple)
    (segments separator a) (segments separator b)

/-- The letters whose lower case is not their own stand alike in the names of two paths. -/
def SameWords (a b : List Char) : Prop :=
  List.Forall₂ (fun x y ↦
    Aligned (marks tables [] (composed unicode x)) (marks tables [] (composed unicode y)))
    (segments separator a) (segments separator b)

/-- The lower case of a text is the one the tables give. -/
def Lowers : Prop := ∀ s, unicode.lowercase s = String.ofList (lowercase tables s.toList)

variable {unicode} {tables}

theorem comparisonForm_eq_iff (hlower : Lowers unicode tables) {x y : List Char} :
    comparisonForm unicode (String.ofList x) = comparisonForm unicode (String.ofList y) ↔
      lowercase tables (composed unicode x) = lowercase tables (composed unicode y) := by
  rw [comparisonForm, comparisonForm, hlower, hlower, String.ofList_inj]
  rfl

theorem forms_eq_iff (hl : tables.Lawful) (hlower : Lowers unicode tables) {a b : List Char}
    (h : SameLetters unicode tables a b) :
    forms unicode a = forms unicode b ↔ SameWords unicode tables a b := by
  unfold SameLetters at h
  unfold forms SameWords
  generalize segments separator a = xs, segments separator b = ys at h ⊢
  induction h with
  | nil => exact iff_of_true rfl .nil
  | @cons x y xs ys hsame _ ih =>
    rw [List.map_cons, List.map_cons, List.cons.injEq, List.forall₂_cons, ih,
      comparisonForm_eq_iff hlower, ← agree_iff hl (.inl hsame)]
    exact and_congr_left' (iff_true_left hsame).symm

end Spellings

/-- A container is found at a path exactly if the path is its own, as names are compared; renaming
changes one name in the paths at and below an entry; a removal takes away what lies there, with its
marks; every known entry has a path; and a file belongs to a basket exactly if it lies directly in
the basket's folder. -/
theorem path_map_laws (unicode : Unicode) (map : PathMap) (h : Run unicode map) :
    (∀ c, c = .root ∨ map.knows (.container c) = true →
      ∃ path, map.path (.container c) = some path ∧
        (∀ relative, containerAt unicode map relative = some c ↔
          forms unicode relative = forms unicode path) ∧
        ∀ tables, tables.Lawful → Lowers unicode tables → ∀ relative,
          SameLetters unicode tables relative path →
            (containerAt unicode map relative = some c ↔
              SameWords unicode tables relative path)) ∧
    (∀ i name, checkName name = .ok () →
      (∀ l, map.location i = some l → Fresh unicode map i l.parent name) →
      ∀ k, map.knows k = true → ∃ ids, Trail map k ids ∧
        map.path k = some (joined separator (ids.reverse.map fun j ↦ (nameOf map j).toList)) ∧
        (map.rename i name).path k = some (joined separator
          (ids.reverse.map fun j ↦ (if j = i then name else nameOf map j).toList))) ∧
    (∀ i, (∀ k, map.knows k = true ∧ Within map i k → (map.remove i).location k = none) ∧
      (∀ k, ¬ (map.knows k = true ∧ Within map i k) →
        (map.remove i).location k = map.location k) ∧
      ∀ c, (map.remove i).isPopulated c = true ↔ map.isPopulated c = true ∧
        ¬ (.container c = i ∨ map.knows (.container c) = true ∧ Within map i (.container c))) ∧
    (∀ k, map.knows k = true → (map.path k).isSome = true) ∧
    ∀ relative b, basketOf unicode map relative = some b ↔
      map.knows (.container (.basket b)) = true ∧ ∃ folder name path,
        relative = folder ++ separator :: name ∧ separator ∉ name ∧
          map.path (.container (.basket b)) = some path ∧
            forms unicode folder = forms unicode path := by
  have hs := sound_of_run h
  refine ⟨fun c hc ↦ ?_, fun i name hname hfresh k hk ↦ ?_, fun i ↦ ⟨fun k hk ↦ ?_, fun k hk ↦ ?_,
    fun c ↦ ?_⟩, fun k hk ↦ ?_, fun relative b ↦ basketOf_iff hs⟩
  · obtain ⟨path, hpath, hfound⟩ := containerAt_iff_path hs hc
    refine ⟨path, hpath, hfound, fun tables hl hlower relative hsame ↦ ?_⟩
    exact (hfound relative).trans (forms_eq_iff hl hlower hsame)
  · obtain ⟨ids, htrail, hlength⟩ := exists_path hs (.inr hk)
    exact ⟨ids, htrail, path_of_trail hs htrail hlength,
      path_rename hs hname hfresh htrail hlength⟩
  · rw [location_remove, if_pos ((reaches_iff hs).mpr (.inr hk))]
  · rw [location_remove]
    split
    · rename_i hreaches
      obtain rfl | hbelow := (reaches_iff hs).mp hreaches
      · rw [location_of_not_within hs hk]
      · exact absurd hbelow hk
    · rfl
  · rw [isPopulated_remove, Bool.and_eq_true, Bool.not_eq_true', ← Bool.not_eq_true,
      reaches_iff hs]
  · obtain ⟨ids, htrail, hlength⟩ := exists_path hs (.inr hk)
    rw [path_of_trail hs htrail hlength]
    rfl

section Samples

/-- Names that are compared without normalising them. -/
def greekNames : Unicode := ⟨id, fun s ↦ String.ofList (lowercase greek s.toList)⟩

def archive : Container := .archive ⟨1⟩

/-- The archives, and one of them. -/
def shelves (name : String) : PathMap :=
  (PathMap.empty.set (.container .archives) "Archive" true).set (.container archive) name true

theorem run_shelves {name : String} (h : checkName name = .ok ()) :
    Run greekNames (shelves name) := by
  have hfirst : Run greekNames (PathMap.empty.set (.container .archives) "Archive" true) :=
    .set true .empty rfl (by decide +kernel) (.inl rfl) fun k l _ hl ↦ by cases hl
  refine .set true hfirst rfl h (.inr (by decide +kernel)) fun k l _ hl hparent ↦ ?_
  rw [location_set rfl] at hl
  split at hl
  · cases hl
    cases hparent
  · cases hl

/-- The folder of an archive in capital letters. -/
theorem path_map_laws_cased :
    containerAt greekNames (shelves "Meier") "ARCHIVE\\meier".toList = some archive := by
  have hrun := run_shelves (by decide +kernel : checkName "Meier" = .ok ())
  obtain ⟨path, hpath, hfound, -⟩ :=
    (path_map_laws greekNames (shelves "Meier") hrun).1 archive (.inr (by decide +kernel))
  have hvalue : (shelves "Meier").path (.container archive) = some "Archive\\Meier".toList := by
    decide +kernel
  cases hpath.symm.trans hvalue
  exact (hfound _).mpr (by decide +kernel)

/-- An archive whose name ends in a sigma is not found under its name in capital letters. -/
theorem not_found : ¬ ∀ unicode tables, tables.Lawful → Lowers unicode tables → ∀ map,
    Run unicode map → ∀ c path, map.knows (.container c) = true →
      map.path (.container c) = some path → ∀ relative, SameLetters unicode tables relative path →
        containerAt unicode map relative = some c := by
  intro h
  have hrun := run_shelves (by decide +kernel : checkName "οδοσ" = .ok ())
  have hsame : SameLetters greekNames greek "Archive\\ΟΔΟΣ".toList "Archive\\οδοσ".toList := by
    have hleft : segments separator "Archive\\ΟΔΟΣ".toList =
        ["Archive".toList, "ΟΔΟΣ".toList] := by decide +kernel
    have hright : segments separator "Archive\\οδοσ".toList =
        ["Archive".toList, "οδοσ".toList] := by decide +kernel
    rw [SameLetters, hleft, hright]
    exact .cons (by decide +kernel) (.cons (by decide +kernel) .nil)
  have hfound := h greekNames greek conform_greek.lawful (fun s ↦ rfl) (shelves "οδοσ") hrun archive
    "Archive\\οδοσ".toList (by decide +kernel) (by decide +kernel) _ hsame
  have hnone : containerAt greekNames (shelves "οδοσ") "Archive\\ΟΔΟΣ".toList = none := by
    decide +kernel
  rw [hnone] at hfound
  cases hfound

end Samples

end FolderClient.Cfapi.PathRuns
