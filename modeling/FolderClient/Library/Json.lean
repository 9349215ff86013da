import Mathlib.Data.List.Forall2
import Mathlib.Data.List.Nodup

namespace FolderClient.Library.Json

/-- A number as it was read: without a sign, negative, or a double by its bits. -/
inductive Number
  | posInt (n : UInt64)
  | negInt (n : Int64)
  | float (bits : UInt64)
deriving DecidableEq

inductive Value
  | null
  | bool (b : Bool)
  | number (n : Number)
  | string (s : String)
  | array (elements : List Value)
  | object (members : List (String × Value))

abbrev Members := List (String × Value)

namespace Value

def asStr : Value → Option String
  | string s => some s
  | _ => none

def asU64 : Value → Option UInt64
  | number (.posInt n) => some n
  | _ => none

def asArray : Value → Option (List Value)
  | array elements => some elements
  | _ => none

def asObject : Value → Option Members
  | object members => some members
  | _ => none

/-- The member of a name; nothing where the value is no object. -/
def get (v : Value) (name : String) : Option Value :=
  v.asObject.bind (·.lookup name)

@[simp] theorem asStr_string (s : String) : (string s).asStr = some s := rfl

@[simp] theorem asU64_posInt (n : UInt64) : (number (.posInt n)).asU64 = some n := rfl

@[simp] theorem asArray_array (l : List Value) : (array l).asArray = some l := rfl

@[simp] theorem asObject_object (m : Members) : (object m).asObject = some m := rfl

end Value

section Induction

variable {P : Value → Prop} (null : P .null) (bool : ∀ b, P (.bool b)) (number : ∀ n, P (.number n))
  (string : ∀ s, P (.string s)) (array : ∀ l, (∀ v ∈ l, P v) → P (.array l))
  (object : ∀ m : Members, (∀ p ∈ m, P p.2) → P (.object m))

include null bool number string array object

set_option linter.unusedSectionVars false

mutual

theorem Value.induction_on : ∀ v, P v
  | .null => null
  | .bool b => bool b
  | .number n => number n
  | .string s => string s
  | .array l => array l (Value.induction_elements l)
  | .object m => object m (Value.induction_members m)

theorem Value.induction_elements : ∀ l : List Value, ∀ v ∈ l, P v
  | [] => fun _ h ↦ absurd h List.not_mem_nil
  | v :: l => List.forall_mem_cons.mpr ⟨Value.induction_on v, Value.induction_elements l⟩

theorem Value.induction_members : ∀ m : List (String × Value), ∀ p ∈ m, P p.2
  | [] => fun _ h ↦ absurd h List.not_mem_nil
  | (_, v) :: m => List.forall_mem_cons.mpr ⟨Value.induction_on v, Value.induction_members m⟩

end

end Induction

section Shapes

variable {p : Number → Prop} {f : Number → Number} {r : Number → Number → Prop}

mutual

/-- All numbers of the value are such. -/
def Value.All (p : Number → Prop) : Value → Prop
  | .number n => p n
  | .array l => AllElements p l
  | .object m => AllMembers p m
  | .null => True
  | .bool _ => True
  | .string _ => True

def AllElements (p : Number → Prop) : List Value → Prop
  | [] => True
  | v :: l => v.All p ∧ AllElements p l

def AllMembers (p : Number → Prop) : List (String × Value) → Prop
  | [] => True
  | (_, v) :: m => v.All p ∧ AllMembers p m

end

mutual

/-- In no object of the value a name stands twice. -/
def Value.Unique : Value → Prop
  | .array l => UniqueElements l
  | .object m => (m.map Prod.fst).Nodup ∧ UniqueMembers m
  | .null => True
  | .bool _ => True
  | .number _ => True
  | .string _ => True

def UniqueElements : List Value → Prop
  | [] => True
  | v :: l => v.Unique ∧ UniqueElements l

def UniqueMembers : List (String × Value) → Prop
  | [] => True
  | (_, v) :: m => v.Unique ∧ UniqueMembers m

end

mutual

def Value.mapNumbers (f : Number → Number) : Value → Value
  | .number n => .number (f n)
  | .array l => .array (mapElements f l)
  | .object m => .object (mapMembers f m)
  | .null => .null
  | .bool b => .bool b
  | .string s => .string s

def mapElements (f : Number → Number) : List Value → List Value
  | [] => []
  | v :: l => v.mapNumbers f :: mapElements f l

def mapMembers (f : Number → Number) : List (String × Value) → List (String × Value)
  | [] => []
  | (name, v) :: m => (name, v.mapNumbers f) :: mapMembers f m

end

mutual

/-- The values differ in the order of members and in numbers that are related, at any depth. -/
def Alike (r : Number → Number → Prop) : Value → Value → Prop
  | .number n, w => ∃ n', w = .number n' ∧ r n n'
  | .array l, w => ∃ l', w = .array l' ∧ AlikeElements r l l'
  | .object m, w => ∃ m' k, w = .object m' ∧ k.Perm m' ∧ AlikeMembers r m k
  | .null, w => w = .null
  | .bool b, w => w = .bool b
  | .string s, w => w = .string s

def AlikeElements (r : Number → Number → Prop) : List Value → List Value → Prop
  | [], k => k = []
  | v :: l, k => ∃ v' l', k = v' :: l' ∧ Alike r v v' ∧ AlikeElements r l l'

def AlikeMembers (r : Number → Number → Prop) :
    List (String × Value) → List (String × Value) → Prop
  | [], k => k = []
  | (name, v) :: m, k => ∃ v' m', k = (name, v') :: m' ∧ Alike r v v' ∧ AlikeMembers r m m'

end

theorem Value.all_array {l : List Value} : (Value.array l).All p ↔ ∀ v ∈ l, v.All p := by
  change AllElements p l ↔ _
  induction l with
  | nil => exact iff_of_true trivial fun _ h ↦ absurd h List.not_mem_nil
  | cons v l ih =>
    rw [List.forall_mem_cons, ← ih]
    rfl

theorem Value.all_object {m : Members} : (Value.object m).All p ↔ ∀ q ∈ m, q.2.All p := by
  change AllMembers p m ↔ _
  induction m with
  | nil => exact iff_of_true trivial fun _ h ↦ absurd h List.not_mem_nil
  | cons q m ih =>
    rw [List.forall_mem_cons, ← ih]
    rfl

theorem Value.unique_array {l : List Value} :
    (Value.array l).Unique ↔ ∀ v ∈ l, v.Unique := by
  change UniqueElements l ↔ _
  induction l with
  | nil => exact iff_of_true trivial fun _ h ↦ absurd h List.not_mem_nil
  | cons v l ih =>
    rw [List.forall_mem_cons, ← ih]
    rfl

theorem Value.unique_object {m : Members} :
    (Value.object m).Unique ↔ (m.map Prod.fst).Nodup ∧ ∀ q ∈ m, q.2.Unique := by
  have hall : UniqueMembers m ↔ ∀ q ∈ m, q.2.Unique := by
    induction m with
    | nil => exact iff_of_true trivial fun _ h ↦ absurd h List.not_mem_nil
    | cons q m ih =>
      rw [List.forall_mem_cons, ← ih]
      rfl
  rw [← hall]
  rfl

theorem Value.mapNumbers_array (l : List Value) :
    (Value.array l).mapNumbers f = .array (l.map (Value.mapNumbers f)) := by
  change Value.array (mapElements f l) = _
  congr 1
  induction l with
  | nil => rfl
  | cons v l ih =>
    rw [List.map_cons, ← ih]
    rfl

theorem Value.mapNumbers_object (m : Members) :
    (Value.object m).mapNumbers f = .object (m.map fun q ↦ (q.1, q.2.mapNumbers f)) := by
  change Value.object (mapMembers f m) = _
  congr 1
  induction m with
  | nil => rfl
  | cons q m ih =>
    rw [List.map_cons, ← ih]
    rfl

theorem alikeElements_iff {l k : List Value} :
    AlikeElements r l k ↔ List.Forall₂ (Alike r) l k := by
  induction l generalizing k with
  | nil => exact List.forall₂_nil_left_iff.symm
  | cons v l ih =>
    rw [List.forall₂_cons_left_iff]
    constructor
    · rintro ⟨v', l', rfl, hv, hl⟩
      exact ⟨v', l', hv, ih.mp hl, rfl⟩
    · rintro ⟨v', l', hv, hl, rfl⟩
      exact ⟨v', l', rfl, hv, ih.mpr hl⟩

theorem alikeMembers_iff {m k : Members} :
    AlikeMembers r m k ↔ List.Forall₂ (fun a b ↦ a.1 = b.1 ∧ Alike r a.2 b.2) m k := by
  induction m generalizing k with
  | nil => exact List.forall₂_nil_left_iff.symm
  | cons q m ih =>
    rw [List.forall₂_cons_left_iff]
    constructor
    · rintro ⟨v', m', rfl, hv, hm⟩
      exact ⟨(q.1, v'), m', ⟨rfl, hv⟩, ih.mp hm, rfl⟩
    · rintro ⟨⟨_, v'⟩, m', ⟨rfl, hv⟩, hm, rfl⟩
      exact ⟨v', m', rfl, hv, ih.mpr hm⟩

theorem Value.All.imp₂ {q s : Number → Prop} {v : Value} (hp : v.All p) (hq : v.All q)
    (h : ∀ n, p n → q n → s n) : v.All s := by
  induction v using Value.induction_on with
  | null => exact trivial
  | bool b => exact trivial
  | number n => exact h n hp hq
  | string t => exact trivial
  | array l ih =>
    rw [Value.all_array] at hp hq ⊢
    exact fun v hv ↦ ih v hv (hp v hv) (hq v hv)
  | object m ih =>
    rw [Value.all_object] at hp hq ⊢
    exact fun v hv ↦ ih v hv (hp v hv) (hq v hv)

theorem Value.all_mapNumbers {v : Value} :
    (v.mapNumbers f).All p ↔ v.All fun n ↦ p (f n) := by
  induction v using Value.induction_on with
  | null => exact Iff.rfl
  | bool b => exact Iff.rfl
  | number n => exact Iff.rfl
  | string s => exact Iff.rfl
  | array l ih =>
    rw [Value.mapNumbers_array, Value.all_array, Value.all_array, List.forall_mem_map]
    exact forall₂_congr ih
  | object m ih =>
    rw [Value.mapNumbers_object, Value.all_object, Value.all_object, List.forall_mem_map]
    exact forall₂_congr ih

theorem Alike.imp {r' : Number → Number → Prop} {v w : Value} (hp : v.All p) (h : Alike r v w)
    (himp : ∀ n n', p n → r n n' → r' n n') : Alike r' v w := by
  induction v using Value.induction_on generalizing w with
  | null => exact h
  | bool b => exact h
  | number n =>
    obtain ⟨n', rfl, hr⟩ := h
    exact ⟨n', rfl, himp n n' hp hr⟩
  | string s => exact h
  | array l ih =>
    obtain ⟨k, rfl, hk⟩ := h
    rw [Value.all_array] at hp
    rw [alikeElements_iff] at hk
    refine ⟨k, rfl, alikeElements_iff.mpr ?_⟩
    induction hk with
    | nil => exact .nil
    | cons hvw _ ihk =>
      rw [List.forall_mem_cons] at hp ih
      exact .cons (ih.1 hp.1 hvw) (ihk ih.2 hp.2)
  | object m ih =>
    obtain ⟨m', k, rfl, hperm, hk⟩ := h
    rw [Value.all_object] at hp
    rw [alikeMembers_iff] at hk
    refine ⟨m', k, rfl, hperm, alikeMembers_iff.mpr ?_⟩
    clear hperm
    induction hk with
    | nil => exact .nil
    | cons hvw _ ihk =>
      rw [List.forall_mem_cons] at hp ih
      exact .cons ⟨hvw.1, ih.1 hp.1 hvw.2⟩ (ihk ih.2 hp.2)

theorem Value.Unique.mapNumbers {v : Value} (h : v.Unique) : (v.mapNumbers f).Unique := by
  induction v using Value.induction_on with
  | null => exact h
  | bool b => exact h
  | number n => exact h
  | string s => exact h
  | array l ih =>
    rw [Value.unique_array] at h
    rw [Value.mapNumbers_array, Value.unique_array, List.forall_mem_map]
    exact fun v hv ↦ ih v hv (h v hv)
  | object m ih =>
    rw [Value.unique_object] at h
    rw [Value.mapNumbers_object, Value.unique_object, List.forall_mem_map, List.map_map]
    exact ⟨h.1, fun q hq ↦ ih q hq (h.2 q hq)⟩

/-- Where names are unique, a value is like its image only in numbers that are related to
theirs. -/
theorem all_of_alike_mapNumbers {v : Value} (hu : v.Unique) (h : Alike r v (v.mapNumbers f)) :
    v.All fun n ↦ r n (f n) := by
  induction v using Value.induction_on with
  | null => exact trivial
  | bool b => exact trivial
  | number n =>
    obtain ⟨n', heq, hr⟩ := h
    obtain rfl : f n = n' := Value.number.inj heq
    exact hr
  | string s => exact trivial
  | array l ih =>
    rw [Value.unique_array] at hu
    rw [Value.mapNumbers_array] at h
    obtain ⟨k, heq, hk⟩ := h
    cases heq
    rw [alikeElements_iff, List.forall₂_map_right_iff, List.forall₂_same] at hk
    exact Value.all_array.mpr fun v hv ↦ ih v hv (hu v hv) (hk v hv)
  | object m ih =>
    rw [Value.unique_object] at hu
    rw [Value.mapNumbers_object] at h
    obtain ⟨m', k, heq, hperm, hk⟩ := h
    cases heq
    rw [alikeMembers_iff] at hk
    refine Value.all_object.mpr fun q hq ↦ ih q hq (hu.2 q hq) ?_
    obtain ⟨q', hq', hname, halike⟩ : ∃ q' ∈ k, q.1 = q'.1 ∧ Alike r q.2 q'.2 := by
      clear hperm ih hu
      induction hk with
      | nil => exact absurd hq List.not_mem_nil
      | cons h _ ih =>
        obtain rfl | hq := List.mem_cons.mp hq
        · exact ⟨_, List.mem_cons_self .., h⟩
        · obtain ⟨q', hq', h⟩ := ih hq
          exact ⟨q', List.mem_cons_of_mem _ hq', h⟩
    obtain ⟨q'', hq'', rfl⟩ := List.mem_map.mp (hperm.mem_iff.mp hq')
    have hsame : q = q'' := List.inj_on_of_nodup_map hu.1 hq hq'' hname
    rwa [← hsame] at halike

end Shapes

/-- The members without those of one name. -/
def Members.remove (m : Members) (name : String) : Members := m.filter fun p ↦ p.1 != name

end FolderClient.Library.Json
