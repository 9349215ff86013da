import FolderClient.Core.Namespace
import FolderClient.Library.Tables
import FolderClient.Library.Texts

namespace FolderClient.Cfapi.PathMap

open FolderClient.Core.Namespace FolderClient.Library.Tables

def separator : Char := '\\'

/-- A relative path behind another one; empty parts fall away. -/
def connect (base part : List Char) : List Char :=
  let base := base.rdropWhile (· = separator)
  let part := part.dropWhile (· = separator)
  if base.isEmpty then part
  else if part.isEmpty then base
  else base ++ separator :: part

/-- Where an entry lies. -/
structure Location where
  parent : Container
  name : String
  folder : Bool
deriving DecidableEq

end FolderClient.Cfapi.PathMap

namespace FolderClient.Cfapi

open FolderClient.Core.Namespace FolderClient.Library.Tables

/-- Which entry lies where, and of which containers Windows has fetched the listing. -/
structure PathMap where
  locations : Table EntryIdentifier (EntryIdentifier × PathMap.Location) Prod.fst
  populated : Container → Bool

namespace PathMap

def empty : PathMap := ⟨.empty, fun _ ↦ false⟩

/-- The tree goes no deeper than root, archives, archive, case and document; the limit only catches
a cycle. -/
def maxDepth : ℕ := 8

variable (map : PathMap)

def location (identifier : EntryIdentifier) : Option PathMap.Location :=
  (map.locations.find? identifier).map Prod.snd

def knows (identifier : EntryIdentifier) : Bool := (map.location identifier).isSome

/-- Enters an entry or overwrites it; the root has no location. -/
def set (identifier : EntryIdentifier) (name : String) (folder : Bool) : PathMap :=
  match identifier.parent with
  | none => map
  | some parent => { map with locations := map.locations.upsert (identifier, ⟨parent, name, folder⟩) }

/-- The names on the way from an entry up to the root, at most `limit` of them. -/
def parts (limit : ℕ) (identifier : EntryIdentifier) : Option (List String) :=
  if identifier = .container .root then some []
  else
    match limit with
    | 0 => none
    | limit + 1 => do
      let location ← map.location identifier
      return location.name :: (← parts limit (.container location.parent))

/-- The path relative to the root; nothing where a link of the chain is missing. -/
def path (identifier : EntryIdentifier) : Option (List Char) :=
  (map.parts maxDepth identifier).map fun parts ↦
    parts.reverse.foldl (fun path part ↦ connect path part.toList) []

/-- Sets the name of a known entry. -/
def rename (identifier : EntryIdentifier) (name : String) : PathMap :=
  { map with
    locations := map.locations.update
      (fun row ↦ if row.1 = identifier then (row.1, { row.2 with name := name }) else row)
      fun row ↦ by split <;> rfl }

/-- How many containers lie above a document at most. -/
def treeDepth : ℕ := 4

/-- Whether the removal of an entry reaches another one: itself, and what is located in a container
that is reached. -/
def reaches (identifier : EntryIdentifier) : ℕ → EntryIdentifier → Bool
  | 0, k => k = identifier
  | depth + 1, k =>
    k = identifier || (map.knows k && k.parent.any fun p ↦ reaches identifier depth (.container p))

/-- Removes an entry with everything below it; a removed container also loses its mark. -/
def remove (identifier : EntryIdentifier) : PathMap where
  locations := map.locations.deleteWhere fun row ↦ map.reaches identifier treeDepth row.1
  populated c := map.populated c && !map.reaches identifier treeDepth (.container c)

/-- Remembers that Windows has fetched the listing of a container. -/
def markPopulated (container : Container) : PathMap :=
  { map with populated := Function.update map.populated container true }

def isPopulated (container : Container) : Bool := map.populated container

section Lemmas

variable {map} {i k : EntryIdentifier} {c : Container}

theorem knows_iff : map.knows k = true ↔ map.location k ≠ none := by
  rw [knows, Option.isSome_iff_ne_none]

theorem location_set {p : Container} (hp : i.parent = some p) (name : String) (folder : Bool) :
    (map.set i name folder).location k = if k = i then some ⟨p, name, folder⟩ else map.location k := by
  rw [set, hp, location, location, Table.find?_upsert]
  split <;> rfl

theorem location_rename (name : String) : (map.rename i name).location k =
    (map.location k).map fun l ↦ if k = i then { l with name := name } else l := by
  rw [rename, location, location, Table.find?_update, Option.map_map, Option.map_map]
  cases hf : map.locations.find? k with
  | none => rfl
  | some row =>
    have hk : row.1 = k := (Table.find?_eq_some_iff _).mp hf |>.2
    simp only [Option.map_some, Function.comp_apply, hk]
    split <;> rfl

theorem location_remove : (map.remove i).location k =
    if map.reaches i treeDepth k then none else map.location k := by
  rw [remove, location, location, Table.find?_deleteWhere]
  cases hf : map.locations.find? k with
  | none => simp
  | some row =>
    have hk : row.1 = k := (Table.find?_eq_some_iff _).mp hf |>.2
    subst hk
    cases hr : map.reaches i treeDepth row.1 <;> simp [Option.filter, hr]

theorem isPopulated_remove : (map.remove i).isPopulated c =
    (map.isPopulated c && !map.reaches i treeDepth (.container c)) := rfl

theorem reaches_zero : map.reaches i 0 k = decide (k = i) := rfl

theorem reaches_add_one (depth : ℕ) : map.reaches i (depth + 1) k =
    (decide (k = i) ||
      (map.knows k && k.parent.any fun p ↦ map.reaches i depth (.container p))) := rfl

theorem reaches_self (depth : ℕ) : map.reaches i depth i = true := by
  cases depth with
  | zero => exact decide_eq_true rfl
  | succ depth => rw [reaches_add_one, decide_eq_true rfl, Bool.true_or]

theorem reaches_succ {depth : ℕ} (h : map.reaches i depth k = true) :
    map.reaches i (depth + 1) k = true := by
  induction depth generalizing k with
  | zero =>
    rw [reaches_zero] at h
    rw [reaches_add_one, h, Bool.true_or]
  | succ depth ih =>
    rw [reaches_add_one, Bool.or_eq_true] at h ⊢
    refine h.imp_right fun h ↦ ?_
    rw [Bool.and_eq_true] at h ⊢
    refine ⟨h.1, ?_⟩
    cases hp : k.parent with
    | none =>
      rw [hp] at h
      exact h.2
    | some p =>
      rw [hp] at h
      exact ih h.2

/-- How many containers lie above an entry. -/
def depthOf (k : EntryIdentifier) : ℕ := k.parent.elim 0 fun p ↦ p.depth + 1

theorem depthOf_le (k : EntryIdentifier) : depthOf k ≤ treeDepth := by
  cases hp : k.parent with
  | none => simp [depthOf, hp]
  | some p =>
    have hdepth := p.depth_le
    simp only [depthOf, hp, Option.elim_some, treeDepth]
    omega

/-- Deeper than an entry lies, the search from it finds nothing new. -/
theorem reaches_of_succ {depth : ℕ} (hd : depthOf k ≤ depth)
    (h : map.reaches i (depth + 1) k = true) : map.reaches i depth k = true := by
  induction depth generalizing k with
  | zero =>
    rw [reaches_add_one, Bool.or_eq_true] at h
    rcases h with h | h
    · exact h
    · rw [Bool.and_eq_true] at h
      cases hp : k.parent with
      | none =>
        rw [hp] at h
        cases h.2
      | some p =>
        rw [depthOf, hp, Option.elim_some] at hd
        omega
  | succ depth ih =>
    rw [reaches_add_one, Bool.or_eq_true] at h ⊢
    refine h.imp_right fun h ↦ ?_
    rw [Bool.and_eq_true] at h ⊢
    refine ⟨h.1, ?_⟩
    cases hp : k.parent with
    | none =>
      rw [hp] at h
      exact h.2
    | some p =>
      rw [hp] at h
      refine ih ?_ h.2
      have hparent : depthOf (.container p) ≤ p.depth := by
        cases hq : p.parent with
        | none =>
          have hn : (EntryIdentifier.container p).parent = none := hq
          simp [depthOf, hn]
        | some q =>
          have hs : (EntryIdentifier.container p).parent = some q := hq
          rw [depthOf, hs, Option.elim_some, Container.depth_of_parent hq]
      rw [depthOf, hp, Option.elim_some] at hd
      omega

/-- What the removal takes away besides its entry lay in a container that loses its mark. -/
theorem isPopulated_of_removed {p : Container} (hne : k ≠ i) (hp : k.parent = some p)
    (h : map.reaches i treeDepth k = true) : (map.remove i).isPopulated p = false := by
  rw [treeDepth, reaches_add_one, Bool.or_eq_true] at h
  rcases h with h | h
  · exact absurd (of_decide_eq_true h) hne
  · rw [Bool.and_eq_true, hp] at h
    have hparent : map.reaches i treeDepth (.container p) = true := reaches_succ h.2
    rw [isPopulated_remove, hparent, Bool.not_true, Bool.and_false]

/-- A container that loses its mark is left without entries. -/
theorem location_of_unmarked {p : Container} (hp : k.parent = some p)
    (hbefore : map.isPopulated p = true) (hafter : (map.remove i).isPopulated p = false) :
    (map.remove i).location k = none := by
  have hreached : map.reaches i treeDepth (.container p) = true := by
    rw [isPopulated_remove, hbefore, Bool.true_and, Bool.not_eq_false'] at hafter
    exact hafter
  rw [location_remove]
  cases hknown : map.knows k with
  | false =>
    have hnone : map.location k = none := by
      by_contra hne
      rw [knows_iff.mpr hne] at hknown
      cases hknown
    rw [hnone, ite_self]
  | true =>
    have hdeeper : map.reaches i (treeDepth + 1) k = true := by
      rw [reaches_add_one, hknown, hp]
      simp only [Option.any_some, hreached, Bool.and_self, Bool.or_true]
    rw [if_pos (reaches_of_succ (depthOf_le k) hdeeper)]

theorem isPopulated_of_remove (h : (map.remove i).isPopulated c = true) :
    map.isPopulated c = true := by
  rw [isPopulated_remove, Bool.and_eq_true] at h
  exact h.1

/-- The removal reaches only what lies within its entry. -/
theorem within_of_reaches {depth : ℕ} (h : map.reaches i depth k = true) :
    k = i ∨ ∃ c, i.container? = some c ∧ c ∈ k.ancestors := by
  induction depth generalizing k with
  | zero => exact .inl (of_decide_eq_true h)
  | succ depth ih =>
    rw [reaches_add_one, Bool.or_eq_true] at h
    rcases h with h | h
    · exact .inl (of_decide_eq_true h)
    · rw [Bool.and_eq_true] at h
      cases hp : k.parent with
      | none =>
        rw [hp] at h
        cases h.2
      | some p =>
        rw [hp] at h
        refine .inr ?_
        rw [EntryIdentifier.ancestors_of_parent hp]
        rcases ih h.2 with rfl | ⟨c, hc, hmem⟩
        · exact ⟨p, rfl, List.mem_cons_self⟩
        · rw [EntryIdentifier.ancestors_container] at hmem
          exact ⟨c, hc, List.mem_cons_of_mem _ hmem⟩

end Lemmas

end PathMap

end FolderClient.Cfapi
