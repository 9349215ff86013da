import FolderClient.Cfapi.Checks
import FolderClient.Library.Results
import Mathlib

namespace FolderClient.Cfapi.Reconciling

open FolderClient.Cfapi.Checks FolderClient.Core.Namespace FolderClient.Library.Results
  FolderClient.Library.Texts

/-- What is in the directory on disk. -/
structure FoundOnDisk where
  name : String
  folder : Bool
deriving DecidableEq

/-- What is left to do after the request for the placeholders has been answered. -/
inductive FollowUp
  | delete (name : String) (folder : Bool)
  | check (present : String) (entry : Entry)
  | create (entry : Entry)

/-- The answer to the request for the placeholders, and the follow-up work. -/
structure Reconcile where
  transfer : List Entry
  followUp : List FollowUp

/-- What the loop over the listing has collected so far. -/
structure Collection where
  matched : List String
  delete : List FollowUp
  check : List FollowUp
  create : List FollowUp
  transfer : List Entry

variable (unicode : Unicode) (found : List FoundOnDisk) (should : List Entry)

def formOf (v : FoundOnDisk) : String := comparisonForm unicode v.name

def formOfEntry (entry : Entry) : String := comparisonForm unicode entry.name

/-- What is on disk under a form; of several names with one form the last is kept. -/
def byName (form : String) : Option FoundOnDisk :=
  found.reverse.find? fun v ↦ formOf unicode v = form

def collect (c : Collection) (entry : Entry) : Collection :=
  let form := formOfEntry unicode entry
  match byName unicode found form with
  | none => { c with transfer := c.transfer ++ [entry] }
  | some v =>
    if v.folder = entry.isFolder then
      { c with matched := form :: c.matched, check := c.check ++ [.check v.name entry] }
    else
      { c with
        matched := form :: c.matched
        delete := c.delete ++ [.delete v.name v.folder]
        create := c.create ++ [.create entry] }

/-- Reconciles a fresh listing with what is on disk. -/
def reconcile : Reconcile :=
  let c := should.foldl (collect unicode found) ⟨[], [], [], [], []⟩
  let rest := found.filter fun v ↦ formOf unicode v ∉ c.matched
  ⟨c.transfer, c.delete ++ (rest.map fun v ↦ .delete v.name v.folder) ++ c.check ++ c.create⟩

section Collected

/-- What is on disk under the form of an entry. -/
def partner (entry : Entry) : Option FoundOnDisk := byName unicode found (formOfEntry unicode entry)

def checkOf (entry : Entry) : Option FollowUp :=
  (partner unicode found entry).bind fun v ↦
    if v.folder = entry.isFolder then some (.check v.name entry) else none

def deleteOf (entry : Entry) : Option FollowUp :=
  (partner unicode found entry).bind fun v ↦
    if v.folder = entry.isFolder then none else some (.delete v.name v.folder)

def createOf (entry : Entry) : Option FollowUp :=
  (partner unicode found entry).bind fun v ↦
    if v.folder = entry.isFolder then none else some (.create entry)

/-- Whether the form of a name on disk is that of a listed entry. -/
def Listed (v : FoundOnDisk) : Prop := ∃ e ∈ should, formOfEntry unicode e = formOf unicode v

instance (v : FoundOnDisk) : Decidable (Listed unicode should v) :=
  inferInstanceAs (Decidable (∃ e ∈ should, _))

theorem collected : should.foldl (collect unicode found) ⟨[], [], [], [], []⟩ =
    ⟨((should.filter fun e ↦ (partner unicode found e).isSome).map (formOfEntry unicode)).reverse,
      should.filterMap (deleteOf unicode found), should.filterMap (checkOf unicode found),
      should.filterMap (createOf unicode found),
      should.filter fun e ↦ (partner unicode found e).isNone⟩ := by
  induction should using List.reverseRecOn with
  | nil => rfl
  | append_singleton should entry ih =>
    rw [List.foldl_append, ih, List.foldl_cons, List.foldl_nil, collect]
    simp only [List.filter_append, List.filterMap_append, List.map_append, List.reverse_append]
    unfold deleteOf checkOf createOf partner
    cases hv : byName unicode found (formOfEntry unicode entry) with
    | none => simp [hv]
    | some v =>
      by_cases hkind : v.folder = entry.isFolder
      · simp [hv, hkind]
      · simp [hv, hkind]

/-- The names on disk of no listed form. -/
def leftOver : List FoundOnDisk := found.filter fun v ↦ ¬ Listed unicode should v

theorem byName_eq_some {form : String} {v : FoundOnDisk} (h : byName unicode found form = some v) :
    v ∈ found ∧ formOf unicode v = form := by
  unfold byName at h
  have hform := List.find?_some h
  exact ⟨List.mem_reverse.mp (List.mem_of_find?_eq_some h), of_decide_eq_true hform⟩

theorem isSome_byName {form : String} :
    (byName unicode found form).isSome = true ↔ ∃ v ∈ found, formOf unicode v = form := by
  rw [byName, List.find?_isSome]
  simp

theorem reconcile_eq : reconcile unicode found should =
    ⟨should.filter fun e ↦ (partner unicode found e).isNone,
      should.filterMap (deleteOf unicode found) ++
        ((leftOver unicode found should).map fun v ↦ .delete v.name v.folder) ++
        should.filterMap (checkOf unicode found) ++ should.filterMap (createOf unicode found)⟩ := by
  have hrest : (found.filter fun v ↦ formOf unicode v ∉
      ((should.filter fun e ↦ (partner unicode found e).isSome).map
        (formOfEntry unicode)).reverse) = leftOver unicode found should := by
    refine List.filter_congr fun v hv ↦ ?_
    rw [decide_eq_decide, not_iff_not, List.mem_reverse, List.mem_map]
    constructor
    · rintro ⟨e, he, hform⟩
      exact ⟨e, (List.mem_filter.mp he).1, hform⟩
    · rintro ⟨e, he, hform⟩
      refine ⟨e, List.mem_filter.mpr ⟨he, ?_⟩, hform⟩
      exact (isSome_byName unicode found).mpr ⟨v, hv, hform.symm⟩
  unfold reconcile
  rw [collected]
  dsimp only
  rw [hrest]

end Collected

section Subjects

/-- The name on disk that a piece of follow-up work is about. -/
def FollowUp.subject : FollowUp → Option String
  | .delete name _ => some name
  | .check present _ => some present
  | .create _ => none

def FollowUp.checked : FollowUp → Option Entry
  | .check _ entry => some entry
  | _ => none

def FollowUp.created : FollowUp → Option Entry
  | .create entry => some entry
  | _ => none

def FollowUp.isDelete : FollowUp → Bool
  | .delete _ _ => true
  | _ => false

def FollowUp.isCheck : FollowUp → Bool
  | .check _ _ => true
  | _ => false

def FollowUp.isCreate : FollowUp → Bool
  | .create _ => true
  | _ => false

end Subjects

/-- Every entry of the listing is handed over, checked or created; what is handed over or created
meets no name that is not deleted, as the file system compares names; every name on disk is checked
or deleted, once; and the work is in its order. -/
structure Partitions (folded : String → String) : Prop where
  listed : ((reconcile unicode found should).transfer ++
    (reconcile unicode found should).followUp.filterMap FollowUp.checked ++
    (reconcile unicode found should).followUp.filterMap FollowUp.created).Perm should
  free : ∀ e ∈ (reconcile unicode found should).transfer ++
      (reconcile unicode found should).followUp.filterMap FollowUp.created, ∀ v ∈ found,
    folded v.name = folded e.name → .delete v.name v.folder ∈ (reconcile unicode found should).followUp
  mentioned : ((reconcile unicode found should).followUp.filterMap FollowUp.subject).Perm
    (found.map FoundOnDisk.name)
  order : (reconcile unicode found should).followUp =
    (reconcile unicode found should).followUp.filter FollowUp.isDelete ++
      (reconcile unicode found should).followUp.filter FollowUp.isCheck ++
        (reconcile unicode found should).followUp.filter FollowUp.isCreate

/-- The form under which names are compared tells the names on disk apart where they meet the
listing: no two have the form of one entry, and none that the file system takes for an entry's has
the form of another entry of its kind instead. -/
structure Separated (folded : String → String) : Prop where
  alone : ∀ e ∈ should, ∀ v ∈ found, ∀ v' ∈ found, formOf unicode v = formOfEntry unicode e →
    formOf unicode v' = formOfEntry unicode e → v = v'
  apart : ∀ e ∈ should, ∀ v ∈ found, folded v.name = folded e.name →
    formOf unicode v ≠ formOfEntry unicode e →
      (∃ u ∈ found, formOf unicode u = formOfEntry unicode e ∧ u.folder = e.isFolder) ∨
        ∀ e' ∈ should, formOf unicode v = formOfEntry unicode e' → v.folder ≠ e'.isFolder

section Work

variable {unicode found should} {name : String} {folder : Bool} {e : Entry} {v : FoundOnDisk}

theorem followUp_eq : (reconcile unicode found should).followUp =
    should.filterMap (deleteOf unicode found) ++
      ((leftOver unicode found should).map fun v ↦ .delete v.name v.folder) ++
      should.filterMap (checkOf unicode found) ++ should.filterMap (createOf unicode found) := by
  rw [reconcile_eq]

/-- Whose name is deleted: what stands in the way of an entry of another kind, and what no entry is
listed for. -/
theorem mem_deletes : .delete name folder ∈ (reconcile unicode found should).followUp ↔
    (∃ e ∈ should, ∃ v, partner unicode found e = some v ∧ v.folder ≠ e.isFolder ∧
      v = ⟨name, folder⟩) ∨ (⟨name, folder⟩ : FoundOnDisk) ∈ leftOver unicode found should := by
  rw [followUp_eq]
  simp only [List.mem_append, List.mem_filterMap, List.mem_map]
  constructor
  · rintro (((⟨e, he, hdelete⟩ | ⟨v, hv, heq⟩) | ⟨e, he, hcheck⟩) | ⟨e, he, hcreate⟩)
    · obtain ⟨v, hpartner, hv⟩ := Option.bind_eq_some_iff.mp hdelete
      split at hv
      · cases hv
      · cases hv
        exact .inl ⟨e, he, v, hpartner, ‹_›, rfl⟩
    · cases heq
      exact .inr hv
    · obtain ⟨v, -, hv⟩ := Option.bind_eq_some_iff.mp hcheck
      split at hv <;> cases hv
    · obtain ⟨v, -, hv⟩ := Option.bind_eq_some_iff.mp hcreate
      split at hv <;> cases hv
  · rintro (⟨e, he, v, hpartner, hkind, rfl⟩ | hleft)
    · refine .inl (.inl (.inl ⟨e, he, ?_⟩))
      rw [deleteOf, hpartner, Option.bind_some, if_neg hkind]
    · exact .inl (.inl (.inr ⟨_, hleft, rfl⟩))

/-- What two choices yield together, when only one of them yields something of each element. -/
theorem filterMap_split {α β : Type} {f g h : α → Option β} (l : List α)
    (hsplit : ∀ a ∈ l, (f a = none ∧ g a = h a) ∨ (g a = none ∧ f a = h a)) :
    (l.filterMap f ++ l.filterMap g).Perm (l.filterMap h) := by
  induction l with
  | nil => exact .nil
  | cons a l ih =>
    have hrest := ih fun b hb ↦ hsplit b (List.mem_cons_of_mem a hb)
    rcases hsplit a List.mem_cons_self with ⟨hnone, heq⟩ | ⟨hnone, heq⟩
    · rw [List.filterMap_cons_none hnone]
      cases hg : g a with
      | none =>
        rw [List.filterMap_cons_none hg, List.filterMap_cons_none (heq ▸ hg)]
        exact hrest
      | some b =>
        rw [List.filterMap_cons_some hg, List.filterMap_cons_some (heq ▸ hg)]
        exact List.perm_middle.trans (hrest.cons b)
    · rw [List.filterMap_cons_none hnone]
      cases hf : f a with
      | none =>
        rw [List.filterMap_cons_none hf, List.filterMap_cons_none (heq ▸ hf)]
        exact hrest
      | some b =>
        rw [List.filterMap_cons_some hf, List.filterMap_cons_some (heq ▸ hf)]
        exact hrest.cons b

theorem filterMap_followUp {β : Type} (g : FollowUp → Option β) :
    (reconcile unicode found should).followUp.filterMap g =
      should.filterMap (fun e ↦ (deleteOf unicode found e).bind g) ++
        ((leftOver unicode found should).filterMap fun v ↦ g (.delete v.name v.folder)) ++
        should.filterMap (fun e ↦ (checkOf unicode found e).bind g) ++
        should.filterMap (fun e ↦ (createOf unicode found e).bind g) := by
  rw [followUp_eq, List.filterMap_append, List.filterMap_append, List.filterMap_append,
    List.filterMap_filterMap, List.filterMap_filterMap, List.filterMap_filterMap,
    List.filterMap_map]
  rfl

/-- Which entry is checked, created or handed over depends on what has its form. -/
theorem fates (e : Entry) :
    (partner unicode found e = none ∧ deleteOf unicode found e = none ∧
      checkOf unicode found e = none ∧ createOf unicode found e = none) ∨
    ∃ v, partner unicode found e = some v ∧
      ((v.folder = e.isFolder ∧ deleteOf unicode found e = none ∧
        checkOf unicode found e = some (.check v.name e) ∧ createOf unicode found e = none) ∨
      (v.folder ≠ e.isFolder ∧ deleteOf unicode found e = some (.delete v.name v.folder) ∧
        checkOf unicode found e = none ∧ createOf unicode found e = some (.create e))) := by
  unfold deleteOf checkOf createOf
  cases hpartner : partner unicode found e with
  | none => exact .inl ⟨rfl, rfl, rfl, rfl⟩
  | some v =>
    refine .inr ⟨v, rfl, ?_⟩
    by_cases hkind : v.folder = e.isFolder
    · exact .inl ⟨hkind, if_pos hkind, if_pos hkind, if_pos hkind⟩
    · exact .inr ⟨hkind, if_neg hkind, if_neg hkind, if_neg hkind⟩

theorem filterMap_none {α β : Type} {f : α → Option β} (l : List α) (h : ∀ a, f a = none) :
    l.filterMap f = [] :=
  List.filterMap_eq_nil_iff.mpr fun a _ ↦ h a

theorem checked_followUp : (reconcile unicode found should).followUp.filterMap FollowUp.checked =
    should.filterMap fun e ↦ (checkOf unicode found e).bind FollowUp.checked := by
  have hdelete : ∀ e, (deleteOf unicode found e).bind FollowUp.checked = none := by
    intro e
    rcases fates e with ⟨-, h, -⟩ | ⟨v, -, ⟨-, h, -⟩ | ⟨-, h, -⟩⟩ <;> rw [h] <;> rfl
  have hcreate : ∀ e, (createOf unicode found e).bind FollowUp.checked = none := by
    intro e
    rcases fates e with ⟨-, -, -, h⟩ | ⟨v, -, ⟨-, -, -, h⟩ | ⟨-, -, -, h⟩⟩ <;> rw [h] <;> rfl
  have hleft : (leftOver unicode found should).filterMap
      (fun v ↦ FollowUp.checked (.delete v.name v.folder)) = [] := filterMap_none _ fun v ↦ rfl
  rw [filterMap_followUp, filterMap_none _ hdelete, filterMap_none _ hcreate, hleft]
  simp

theorem created_followUp : (reconcile unicode found should).followUp.filterMap FollowUp.created =
    should.filterMap fun e ↦ (createOf unicode found e).bind FollowUp.created := by
  have hdelete : ∀ e, (deleteOf unicode found e).bind FollowUp.created = none := by
    intro e
    rcases fates e with ⟨-, h, -⟩ | ⟨v, -, ⟨-, h, -⟩ | ⟨-, h, -⟩⟩ <;> rw [h] <;> rfl
  have hcheck : ∀ e, (checkOf unicode found e).bind FollowUp.created = none := by
    intro e
    rcases fates e with ⟨-, -, h, -⟩ | ⟨v, -, ⟨-, -, h, -⟩ | ⟨-, -, h, -⟩⟩ <;> rw [h] <;> rfl
  have hleft : (leftOver unicode found should).filterMap
      (fun v ↦ FollowUp.created (.delete v.name v.folder)) = [] := filterMap_none _ fun v ↦ rfl
  rw [filterMap_followUp, filterMap_none _ hdelete, filterMap_none _ hcheck, hleft]
  simp

/-- Every entry is handed over, checked or created. -/
theorem perm_listed : ((reconcile unicode found should).transfer ++
    (reconcile unicode found should).followUp.filterMap FollowUp.checked ++
    (reconcile unicode found should).followUp.filterMap FollowUp.created).Perm should := by
  have htransfer : (reconcile unicode found should).transfer = should.filterMap
      (Option.guard fun e ↦ (partner unicode found e).isNone) := by
    rw [reconcile_eq, List.filterMap_eq_filter]
  have hfirst := @filterMap_split _ _ (Option.guard fun e ↦ (partner unicode found e).isNone)
    (fun e ↦ (checkOf unicode found e).bind FollowUp.checked)
    (fun e ↦ if (createOf unicode found e).isNone then some e else none) should
  have hsecond := @filterMap_split _ _
    (fun e ↦ if (createOf unicode found e).isNone then some e else none)
    (fun e ↦ (createOf unicode found e).bind FollowUp.created) some should
  rw [List.filterMap_some] at hsecond
  rw [htransfer, checked_followUp, created_followUp]
  refine ((hfirst fun e _ ↦ ?_).append_right _).trans (hsecond fun e _ ↦ ?_)
  · rcases fates e with ⟨hp, -, hc, hn⟩ | ⟨v, hp, ⟨-, -, hc, hn⟩ | ⟨-, -, hc, hn⟩⟩
    · rw [hc, hn]
      exact .inr ⟨rfl, by simp [Option.guard, hp]⟩
    · rw [hc, hn]
      exact .inl ⟨by simp [Option.guard, hp], rfl⟩
    · rw [hc, hn]
      exact .inl ⟨by simp [Option.guard, hp], rfl⟩
  · rcases fates e with ⟨-, -, -, hn⟩ | ⟨v, -, ⟨-, -, -, hn⟩ | ⟨-, -, -, hn⟩⟩
    · rw [hn]
      exact .inr ⟨rfl, rfl⟩
    · rw [hn]
      exact .inr ⟨rfl, rfl⟩
    · rw [hn]
      exact .inl ⟨rfl, rfl⟩

/-- The names that are checked or deleted are those under the forms of the entries, and the rest. -/
theorem perm_subjects : ((reconcile unicode found should).followUp.filterMap
    FollowUp.subject).Perm ((should.filterMap (partner unicode found) ++
      leftOver unicode found should).map FoundOnDisk.name) := by
  have hcreate : ∀ e, (createOf unicode found e).bind FollowUp.subject = none := by
    intro e
    rcases fates e with ⟨-, -, -, h⟩ | ⟨v, -, ⟨-, -, -, h⟩ | ⟨-, -, -, h⟩⟩ <;> rw [h] <;> rfl
  have hleft : (leftOver unicode found should).filterMap
      (fun v ↦ FollowUp.subject (.delete v.name v.folder)) =
        (leftOver unicode found should).map FoundOnDisk.name := by
    rw [← List.filterMap_eq_map']
    rfl
  have hboth := @filterMap_split _ _
    (fun e ↦ (deleteOf unicode found e).bind FollowUp.subject)
    (fun e ↦ (checkOf unicode found e).bind FollowUp.subject)
    (fun e ↦ (partner unicode found e).map FoundOnDisk.name) should
  rw [filterMap_followUp, filterMap_none _ hcreate, hleft, List.append_nil, List.map_append,
    List.map_filterMap, List.append_assoc]
  refine (List.perm_append_comm.append_left _).trans ?_
  rw [← List.append_assoc]
  refine (hboth fun e _ ↦ ?_).append_right _
  rcases fates e with ⟨hp, hd, hc, -⟩ | ⟨v, hp, ⟨-, hd, hc, -⟩ | ⟨-, hd, hc, -⟩⟩
  · rw [hp, hd, hc]
    exact .inl ⟨rfl, rfl⟩
  · rw [hp, hd, hc]
    exact .inl ⟨rfl, rfl⟩
  · rw [hp, hd, hc]
    exact .inr ⟨rfl, rfl⟩

end Work

section Conditions

variable {unicode found should} {folded : String → String} {container : Container}

/-- The names on disk differ, and the entries have different forms. -/
structure Distinct (unicode : Unicode) (found : List FoundOnDisk) (should : List Entry) : Prop where
  names : (found.map FoundOnDisk.name).Nodup
  forms : (should.map (formOfEntry unicode)).Nodup

theorem Distinct.eq_of_name (h : Distinct unicode found should) {v v' : FoundOnDisk}
    (hv : v ∈ found) (hv' : v' ∈ found) (hname : v.name = v'.name) : v = v' :=
  List.inj_on_of_nodup_map h.names hv hv' hname

theorem Distinct.eq_of_form (h : Distinct unicode found should) {e e' : Entry}
    (he : e ∈ should) (he' : e' ∈ should) (hform : formOfEntry unicode e = formOfEntry unicode e') :
    e = e' :=
  List.inj_on_of_nodup_map h.forms he he' hform

theorem partner_eq_some {e : Entry} {v : FoundOnDisk} (h : partner unicode found e = some v) :
    v ∈ found ∧ formOf unicode v = formOfEntry unicode e := byName_eq_some unicode found h

theorem exists_partner {e : Entry} {v : FoundOnDisk} (hv : v ∈ found)
    (hform : formOf unicode v = formOfEntry unicode e) : ∃ u, partner unicode found e = some u :=
  Option.isSome_iff_exists.mp ((isSome_byName unicode found).mpr ⟨v, hv, hform⟩)

/-- Every name on disk is mentioned once exactly if no two have the form of one entry. -/
theorem mentioned_iff (h : Distinct unicode found should) :
    ((reconcile unicode found should).followUp.filterMap FollowUp.subject).Perm
      (found.map FoundOnDisk.name) ↔
    ∀ e ∈ should, ∀ v ∈ found, ∀ v' ∈ found, formOf unicode v = formOfEntry unicode e →
      formOf unicode v' = formOfEntry unicode e → v = v' := by
  constructor
  · intro hperm
    have hpartner : ∀ e ∈ should, ∀ w ∈ found, formOf unicode w = formOfEntry unicode e →
        partner unicode found e = some w := by
      intro e he w hw hform
      have hmem := hperm.symm.subset (List.mem_map_of_mem hw)
      obtain ⟨u, hu, hname⟩ := List.mem_map.mp (perm_subjects.subset hmem)
      rcases List.mem_append.mp hu with hu | hu
      · obtain ⟨e', he', hp⟩ := List.mem_filterMap.mp hu
        obtain ⟨hfound, hform'⟩ := partner_eq_some hp
        obtain rfl := h.eq_of_name hfound hw hname
        rw [h.eq_of_form he he' (hform.symm.trans hform')]
        exact hp
      · obtain ⟨hfound, hleft⟩ := List.mem_filter.mp hu
        obtain rfl := h.eq_of_name hfound hw hname
        exact absurd ⟨e, he, hform.symm⟩ (of_decide_eq_true hleft)
    intro e he v hv v' hv' hform hform'
    exact Option.some.inj ((hpartner e he v hv hform).symm.trans (hpartner e he v' hv' hform'))
  · intro halone
    refine perm_subjects.trans (.map _ ?_)
    have hnodup : found.Nodup := .of_map _ h.names
    have hlisted : (should.filterMap (partner unicode found)).Perm
        (found.filter fun v ↦ Listed unicode should v) := by
      rw [List.perm_ext_iff_of_nodup]
      · intro v
        rw [List.mem_filterMap, List.mem_filter, decide_eq_true_eq]
        constructor
        · rintro ⟨e, he, hp⟩
          obtain ⟨hfound, hform⟩ := partner_eq_some hp
          exact ⟨hfound, e, he, hform.symm⟩
        · rintro ⟨hfound, e, he, hform⟩
          obtain ⟨u, hu⟩ := exists_partner hfound hform.symm
          obtain ⟨hu', huform⟩ := partner_eq_some hu
          rw [halone e he v hfound u hu' hform.symm huform]
          exact ⟨e, he, hu⟩
      · refine (List.pairwise_map.mp h.forms).filterMap _ fun e e' hne v hp v' hp' heq ↦ hne ?_
        subst heq
        exact (partner_eq_some hp).2.symm.trans (partner_eq_some hp').2
      · exact hnodup.filter _
    refine (hlisted.append_right _).trans ?_
    refine .trans (.of_eq ?_) (List.filter_append_perm (fun v ↦ Listed unicode should v) found)
    refine congrArg _ (List.filter_congr fun v _ ↦ ?_)
    simp

/-- The entries that are handed over or created are those that nothing of their kind on disk has the
form of. -/
theorem mem_new {e : Entry} : e ∈ (reconcile unicode found should).transfer ++
    (reconcile unicode found should).followUp.filterMap FollowUp.created ↔
      e ∈ should ∧ ∀ u, partner unicode found e = some u → u.folder ≠ e.isFolder := by
  have htransfer : (reconcile unicode found should).transfer =
      should.filter fun e ↦ (partner unicode found e).isNone := by
    rw [reconcile_eq]
  rw [htransfer, created_followUp, List.mem_append, List.mem_filter, List.mem_filterMap]
  constructor
  · rintro (⟨he, hnone⟩ | ⟨e', he', hcreate⟩)
    · refine ⟨he, fun u hu ↦ ?_⟩
      rw [hu] at hnone
      cases hnone
    · rcases fates e' with ⟨-, -, -, hn⟩ | ⟨v, hp, ⟨-, -, -, hn⟩ | ⟨hkind, -, -, hn⟩⟩
      · rw [hn] at hcreate
        cases hcreate
      · rw [hn] at hcreate
        cases hcreate
      · rw [hn] at hcreate
        cases hcreate
        refine ⟨he', fun u hu ↦ ?_⟩
        cases hp.symm.trans hu
        exact hkind
  · rintro ⟨he, hkind⟩
    cases hp : partner unicode found e with
    | none => exact .inl ⟨he, by simp⟩
    | some v =>
      refine .inr ⟨e, he, ?_⟩
      rw [createOf, hp, Option.bind_some, if_neg (hkind v hp)]
      rfl

/-- Where no two names on disk have the form of one entry, a name is kept exactly if it has the form
of an entry of its kind. -/
theorem deleted_iff (h : Distinct unicode found should)
    (halone : ∀ e ∈ should, ∀ v ∈ found, ∀ v' ∈ found, formOf unicode v = formOfEntry unicode e →
      formOf unicode v' = formOfEntry unicode e → v = v') {v : FoundOnDisk} (hv : v ∈ found) :
    .delete v.name v.folder ∈ (reconcile unicode found should).followUp ↔
      ∀ e ∈ should, formOf unicode v = formOfEntry unicode e → v.folder ≠ e.isFolder := by
  rw [mem_deletes]
  constructor
  · rintro (⟨e', he', u, hu, hkind, rfl⟩ | hleft) e he hform
    · obtain ⟨-, huform⟩ := partner_eq_some hu
      rw [h.eq_of_form he he' (hform.symm.trans huform)]
      exact hkind
    · exact absurd ⟨e, he, hform.symm⟩ (of_decide_eq_true (List.mem_filter.mp hleft).2)
  · intro hkind
    by_cases hlisted : Listed unicode should v
    · obtain ⟨e, he, hform⟩ := hlisted
      obtain ⟨u, hu⟩ := exists_partner hv hform.symm
      obtain ⟨hu', huform⟩ := partner_eq_some hu
      obtain rfl := halone e he v hv u hu' hform.symm huform
      exact .inl ⟨e, he, v, hu, hkind e he hform.symm, rfl⟩
    · exact .inr (List.mem_filter.mpr ⟨hv, decide_eq_true hlisted⟩)

theorem free_iff (h : Distinct unicode found should)
    (halone : ∀ e ∈ should, ∀ v ∈ found, ∀ v' ∈ found, formOf unicode v = formOfEntry unicode e →
      formOf unicode v' = formOfEntry unicode e → v = v') :
    (∀ e ∈ (reconcile unicode found should).transfer ++
      (reconcile unicode found should).followUp.filterMap FollowUp.created, ∀ v ∈ found,
        folded v.name = folded e.name →
          .delete v.name v.folder ∈ (reconcile unicode found should).followUp) ↔
    ∀ e ∈ should, ∀ v ∈ found, folded v.name = folded e.name →
      formOf unicode v ≠ formOfEntry unicode e →
        (∃ u ∈ found, formOf unicode u = formOfEntry unicode e ∧ u.folder = e.isFolder) ∨
          ∀ e' ∈ should, formOf unicode v = formOfEntry unicode e' → v.folder ≠ e'.isFolder := by
  constructor
  · intro hfree e he v hv hfold hform
    by_cases hkept : ∃ u ∈ found, formOf unicode u = formOfEntry unicode e ∧ u.folder = e.isFolder
    · exact .inl hkept
    · refine .inr ((deleted_iff h halone hv).mp (hfree e (mem_new.mpr ⟨he, fun u hu hkind ↦ ?_⟩) v hv
        hfold))
      obtain ⟨hu', huform⟩ := partner_eq_some hu
      exact hkept ⟨u, hu', huform, hkind⟩
  · intro hapart e hnew v hv hfold
    obtain ⟨he, hkind⟩ := mem_new.mp hnew
    have hother : ∀ u ∈ found, formOf unicode u = formOfEntry unicode e →
        u.folder ≠ e.isFolder := by
      intro u hu huform
      obtain ⟨w, hw⟩ := exists_partner hu huform
      obtain ⟨hw', hwform⟩ := partner_eq_some hw
      rw [halone e he u hu w hw' huform hwform]
      exact hkind w hw
    rw [deleted_iff h halone hv]
    by_cases hform : formOf unicode v = formOfEntry unicode e
    · intro e' he' hform'
      rw [h.eq_of_form he' he (hform'.symm.trans hform)]
      exact hother v hv hform
    · refine (hapart e he v hv hfold hform).resolve_left ?_
      rintro ⟨u, hu, huform, hsame⟩
      exact hother u hu huform hsame

/-- The deletions come first, then the checks, then what is created. -/
theorem ordered : (reconcile unicode found should).followUp =
    (reconcile unicode found should).followUp.filter FollowUp.isDelete ++
      (reconcile unicode found should).followUp.filter FollowUp.isCheck ++
        (reconcile unicode found should).followUp.filter FollowUp.isCreate := by
  have hdelete : ∀ x ∈ should.filterMap (deleteOf unicode found) ++
      ((leftOver unicode found should).map fun v ↦ .delete v.name v.folder),
      ∃ name folder, x = .delete name folder := by
    intro x hx
    rcases List.mem_append.mp hx with hx | hx
    · obtain ⟨e, -, he⟩ := List.mem_filterMap.mp hx
      obtain ⟨v, -, hv⟩ := Option.bind_eq_some_iff.mp he
      split at hv
      · cases hv
      · exact ⟨_, _, (Option.some.inj hv).symm⟩
    · obtain ⟨v, -, rfl⟩ := List.mem_map.mp hx
      exact ⟨_, _, rfl⟩
  have hcheck : ∀ x ∈ should.filterMap (checkOf unicode found),
      ∃ present entry, x = .check present entry := by
    intro x hx
    obtain ⟨e, -, he⟩ := List.mem_filterMap.mp hx
    obtain ⟨v, -, hv⟩ := Option.bind_eq_some_iff.mp he
    split at hv
    · exact ⟨_, _, (Option.some.inj hv).symm⟩
    · cases hv
  have hcreate : ∀ x ∈ should.filterMap (createOf unicode found), ∃ entry, x = .create entry := by
    intro x hx
    obtain ⟨e, -, he⟩ := List.mem_filterMap.mp hx
    obtain ⟨v, -, hv⟩ := Option.bind_eq_some_iff.mp he
    split at hv
    · cases hv
    · exact ⟨_, (Option.some.inj hv).symm⟩
  rw [followUp_eq]
  generalize should.filterMap (deleteOf unicode found) ++
    ((leftOver unicode found should).map fun v ↦ .delete v.name v.folder) = deletes at hdelete ⊢
  generalize should.filterMap (checkOf unicode found) = checks at hcheck ⊢
  generalize should.filterMap (createOf unicode found) = creates at hcreate ⊢
  have hkeep : ∀ (p : FollowUp → Bool) (l : List FollowUp), (∀ x ∈ l, p x = true) →
      l.filter p = l := fun p l h ↦ List.filter_eq_self.mpr h
  have hdrop : ∀ (p : FollowUp → Bool) (l : List FollowUp), (∀ x ∈ l, p x = false) →
      l.filter p = [] := by
    intro p l h
    refine List.filter_eq_nil_iff.mpr fun x hx htrue ↦ ?_
    rw [h x hx] at htrue
    cases htrue
  simp only [List.filter_append]
  rw [hkeep FollowUp.isDelete deletes, hdrop FollowUp.isDelete checks,
    hdrop FollowUp.isDelete creates, hdrop FollowUp.isCheck deletes, hkeep FollowUp.isCheck checks,
    hdrop FollowUp.isCheck creates, hdrop FollowUp.isCreate deletes,
    hdrop FollowUp.isCreate checks, hkeep FollowUp.isCreate creates]
  · simp
  all_goals intro x hx
  · obtain ⟨entry, rfl⟩ := hcreate x hx
    rfl
  · obtain ⟨present, entry, rfl⟩ := hcheck x hx
    rfl
  · obtain ⟨name, folder, rfl⟩ := hdelete x hx
    rfl
  · obtain ⟨entry, rfl⟩ := hcreate x hx
    rfl
  · obtain ⟨present, entry, rfl⟩ := hcheck x hx
    rfl
  · obtain ⟨name, folder, rfl⟩ := hdelete x hx
    rfl
  · obtain ⟨entry, rfl⟩ := hcreate x hx
    rfl
  · obtain ⟨present, entry, rfl⟩ := hcheck x hx
    rfl
  · obtain ⟨name, folder, rfl⟩ := hdelete x hx
    rfl

theorem forms_of_checkListFrom {names : List String} {identifiers : List EntryIdentifier}
    (h : checkListFrom unicode container names identifiers should = .ok ()) :
    (should.map (formOfEntry unicode)).Nodup ∧ ∀ e ∈ should, formOfEntry unicode e ∉ names := by
  induction should generalizing names identifiers with
  | nil => exact ⟨List.nodup_nil, fun e he ↦ absurd he List.not_mem_nil⟩
  | cons e rest ih =>
    unfold checkListFrom at h
    simp only [ite_throw_eq_ok] at h
    obtain ⟨-, -, h⟩ := h
    obtain ⟨-, -, h⟩ := bind_eq_ok.mp h
    simp only [ite_throw_eq_ok] at h
    obtain ⟨hform, -, h⟩ := h
    obtain ⟨hnodup, hrest⟩ := ih h
    refine ⟨List.nodup_cons.mpr ⟨fun hmem ↦ ?_, hnodup⟩, fun e' he' hin ↦ ?_⟩
    · obtain ⟨e', he', heq⟩ := List.mem_map.mp hmem
      exact hrest e' he' (heq ▸ List.mem_cons_self)
    · rcases List.mem_cons.mp he' with rfl | he'
      · exact hform hin
      · exact hrest e' he' (List.mem_cons_of_mem _ hin)

/-- The entries of an accepted listing have different forms. -/
theorem forms_of_checkList (h : checkList unicode container should = .ok ()) :
    (should.map (formOfEntry unicode)).Nodup := (forms_of_checkListFrom h).1

/-- The reconciliation partitions what is listed and what is on disk exactly if the comparison form
keeps apart the names on disk where they meet the listing. -/
theorem reconcile_partitions (unicode : Unicode) (folded : String → String) (container : Container)
    (found : List FoundOnDisk) (should : List Entry)
    (hnames : (found.map fun v ↦ folded v.name).Nodup)
    (hlist : checkList unicode container should = .ok ()) :
    Partitions unicode found should folded ↔ Separated unicode found should folded := by
  have hdistinct : Distinct unicode found should := by
    refine ⟨.of_map folded ?_, forms_of_checkList hlist⟩
    rw [List.map_map]
    exact hnames
  constructor
  · rintro ⟨-, hfree, hmentioned, -⟩
    have halone := (mentioned_iff hdistinct).mp hmentioned
    exact ⟨halone, (free_iff hdistinct halone).mp hfree⟩
  · rintro ⟨halone, hapart⟩
    exact ⟨perm_listed, (free_iff hdistinct halone).mpr hapart,
      (mentioned_iff hdistinct).mpr halone, ordered⟩

/-- Names compared letter by letter, where one letter has a second spelling. -/
def spelled : Unicode :=
  ⟨fun s ↦ if s = "e\u0301" then "é" else s, fun s ↦ String.ofList (asciiLower s.toList)⟩

def listedFolder (name : String) : Entry := ⟨.container (.archive ⟨1⟩), name, .folder⟩

/-- A listed folder that stands on disk in capitals, and a file that is no longer listed. -/
theorem reconcile_partitions_capitals :
    Partitions spelled [⟨"SHELF", true⟩, ⟨"old", false⟩] [listedFolder "Shelf"] fun s ↦
        String.ofList (asciiLower s.toList) := by
  refine (reconcile_partitions spelled _ .archives _ _ (by decide) (by rfl)).mpr ⟨?_, ?_⟩
  · decide
  · decide

/-- Two files whose names have one form: only the second is checked, and neither is deleted. -/
theorem spelled_twice :
    ¬ ∀ (unicode : Unicode) (folded : String → String) (container : Container)
      (found : List FoundOnDisk) (should : List Entry),
      (found.map fun v ↦ folded v.name).Nodup → checkList unicode container should = .ok () →
        Partitions unicode found should folded := by
  intro h
  have hwrong := h spelled id .archives [⟨"é", true⟩, ⟨"e\u0301", true⟩] [listedFolder "é"]
    (by decide) (by rfl)
  have hlength := hwrong.mentioned.length_eq
  revert hlength
  decide

end Conditions

end FolderClient.Cfapi.Reconciling
