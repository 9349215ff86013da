import Mathlib.Algebra.Group.Int.Defs
import Mathlib.Algebra.GroupWithZero.Nat
import Mathlib.Data.List.Lex
import Mathlib.Order.Nat

namespace FolderClient.Core.Namespace

/-- The kinds of identifier, each with a prefix of its own on the wire. -/
inductive IdKind
  | device | user | upload | document | archive | case | basket | search | command
deriving DecidableEq, Repr

instance neZeroWidth : NeZero (2 ^ 128) := ⟨by decide⟩

/-- A 128-bit value that stands for one thing of its kind. -/
@[ext]
structure Identifier (kind : IdKind) where
  value : Fin (2 ^ 128)
deriving DecidableEq, Repr

instance lawfulIdentifier (kind : IdKind) : LawfulBEq (Identifier kind) := inferInstance

abbrev DeviceIdentifier := Identifier .device
abbrev UploadIdentifier := Identifier .upload
abbrev DocumentIdentifier := Identifier .document
abbrev ArchiveIdentifier := Identifier .archive
abbrev CaseIdentifier := Identifier .case
abbrev BasketIdentifier := Identifier .basket
abbrev SearchIdentifier := Identifier .search
abbrev CommandIdentifier := Identifier .command

/-- Milliseconds since 1970 in a signed 64-bit number. -/
structure Timestamp where
  unixMillis : ℤ
  lower : -2 ^ 63 ≤ unixMillis
  upper : unixMillis < 2 ^ 63
deriving DecidableEq

namespace Timestamp

def null : Timestamp := ⟨0, by decide, by decide⟩

/-- Saturating addition. -/
def plusMillis (t : Timestamp) (millis : ℤ) : Timestamp :=
  ⟨max (-2 ^ 63) (min (2 ^ 63 - 1) (t.unixMillis + millis)), by omega, by omega⟩

end Timestamp

/-- A place that holds entries. -/
inductive Container
  | root
  | baskets
  | basket (basket : BasketIdentifier)
  | archives
  | archive (archive : ArchiveIdentifier)
  | case (archive : ArchiveIdentifier) (case : CaseIdentifier)
  | searches
  | search (search : SearchIdentifier)
deriving DecidableEq, Repr

/-- A place where documents can stand. -/
inductive Location
  | case (archive : ArchiveIdentifier) (case : CaseIdentifier)
  | search (search : SearchIdentifier)
deriving DecidableEq, Repr

/-- The locally generated hint files. -/
inductive HintKind
  | readMe
  | truncated
deriving DecidableEq, Repr

/-- The identifier of an entry in the mirror. -/
inductive EntryIdentifier
  | container (container : Container)
  | document (location : Location) (document : DocumentIdentifier)
  | hint (location : Container) (kind : HintKind)
deriving DecidableEq, Repr

namespace Container

def parent : Container → Option Container
  | root => none
  | baskets | archives | searches => some root
  | basket _ => some baskets
  | archive _ => some archives
  | case a _ => some (archive a)
  | search _ => some searches

def ofLocation : Location → Container
  | .case a c => case a c
  | .search s => search s

/-- How far a container stands below the root. -/
def depth : Container → ℕ
  | root => 0
  | baskets | archives | searches => 1
  | basket _ | archive _ | search _ => 2
  | case _ _ => 3

/-- The containers above a container, from its parent up to the root. -/
def ancestors : Container → List Container
  | root => []
  | baskets | archives | searches => [root]
  | basket _ => [baskets, root]
  | archive _ => [archives, root]
  | case a _ => [archive a, archives, root]
  | search _ => [searches, root]

theorem ancestors_of_parent {c p : Container} (h : c.parent = some p) :
    c.ancestors = p :: p.ancestors := by
  cases c <;> simp only [parent, Option.some.injEq, reduceCtorEq] at h <;> subst h <;> rfl

theorem depth_lt_of_mem_ancestors {c d : Container} (h : d ∈ c.ancestors) :
    d.depth < c.depth := by
  cases c <;> simp only [ancestors, List.mem_cons, List.not_mem_nil, or_false] at h
  all_goals rcases h with rfl | rfl | rfl <;> simp [depth]

theorem mem_ancestors_of_mem {p b c : Container} (h : b ∈ p.ancestors) (hb : b.parent = some c) :
    c ∈ p.ancestors := by
  cases p <;> simp only [ancestors, List.mem_cons, List.not_mem_nil, or_false] at h
  all_goals
    rcases h with rfl | rfl | rfl <;>
      simp only [parent, Option.some.injEq, reduceCtorEq] at hb <;> subst hb <;> simp [ancestors]

theorem depth_of_parent {c p : Container} (h : c.parent = some p) : c.depth = p.depth + 1 := by
  cases c <;> simp only [parent, Option.some.injEq, reduceCtorEq] at h <;> subst h <;> rfl

theorem depth_le (c : Container) : c.depth ≤ 3 := by
  cases c <;> simp [depth]

/-- The variant and its values, in the order in which containers compare. -/
def rankKey : Container → List ℕ
  | root => [0]
  | baskets => [1]
  | basket b => [2, b.value]
  | archives => [3]
  | archive a => [4, a.value]
  | case a c => [5, a.value, c.value]
  | searches => [6]
  | search s => [7, s.value]

end Container

theorem Container.rankKey_injective : Function.Injective Container.rankKey := by
  intro c d h
  cases c <;> cases d <;> simp_all [rankKey, Identifier.ext_iff, Fin.ext_iff]

namespace EntryIdentifier

def parent : EntryIdentifier → Option Container
  | container c => c.parent
  | document (.case a c) _ => some (.case a c)
  | document (.search s) _ => some (.search s)
  | hint c _ => some c

/-- The containers above an entry, from its parent up to the root. -/
def ancestors (i : EntryIdentifier) : List Container :=
  match i.parent with
  | none => []
  | some p => p :: p.ancestors

theorem ancestors_of_parent {i : EntryIdentifier} {p : Container} (h : i.parent = some p) :
    i.ancestors = p :: p.ancestors := by
  rw [ancestors, h]

theorem ancestors_container (c : Container) : (container c).ancestors = c.ancestors := by
  cases hp : c.parent with
  | none =>
    have hn : (container c).parent = none := hp
    rw [ancestors, hn]
    cases c <;> first | rfl | cases hp
  | some p => rw [Container.ancestors_of_parent hp, ancestors_of_parent (i := container c) hp]

/-- The container directly above the entry on the way down from `c`. -/
theorem exists_child_above {i : EntryIdentifier} {c : Container} (h : c ∈ i.ancestors) :
    i.parent = some c ∨ ∃ b : Container, b.parent = some c ∧ b ∈ i.ancestors := by
  cases hp : i.parent with
  | none => simp [ancestors, hp] at h
  | some p =>
    rw [ancestors_of_parent hp, List.mem_cons] at h
    rcases h with rfl | h
    · exact .inl rfl
    · refine .inr ?_
      rw [ancestors_of_parent hp]
      cases p <;> simp only [Container.ancestors, List.mem_cons, List.not_mem_nil,
        or_false] at h
      all_goals
        rcases h with rfl | rfl | rfl <;>
          simp [Container.ancestors, Container.parent, and_or_left, exists_or]

theorem mem_ancestors_of_mem {i : EntryIdentifier} {b c : Container} (h : b ∈ i.ancestors)
    (hb : (container b).parent = some c) : c ∈ i.ancestors := by
  cases hp : i.parent with
  | none => simp [ancestors, hp] at h
  | some p =>
    rw [ancestors_of_parent hp, List.mem_cons] at h ⊢
    rcases h with rfl | h
    · rw [Container.ancestors_of_parent hb]
      exact .inr List.mem_cons_self
    · exact .inr (Container.mem_ancestors_of_mem h hb)

def document? : EntryIdentifier → Option DocumentIdentifier
  | document _ d => some d
  | _ => none

def container? : EntryIdentifier → Option Container
  | container c => some c
  | _ => none

/-- The derived order: containers before documents before hints, then by their parts. -/
def rankKey : EntryIdentifier → List ℕ
  | container c => 0 :: c.rankKey
  | document (.case a c) d => [1, 0, a.value, c.value, d.value]
  | document (.search s) d => [1, 1, s.value, d.value]
  | hint c .readMe => 2 :: (c.rankKey ++ [0])
  | hint c .truncated => 2 :: (c.rankKey ++ [1])

theorem rankKey_injective : Function.Injective rankKey := by
  intro i j h
  cases i with
  | container c =>
    cases j with
    | container d => exact congrArg _ (Container.rankKey_injective (List.cons.inj h).2)
    | document l _ => cases l <;> simp [rankKey] at h
    | hint _ k => cases k <;> simp [rankKey] at h
  | document l d =>
    cases j with
    | container _ => cases l <;> simp [rankKey] at h
    | document l' d' =>
      cases l <;> cases l' <;> simp_all [rankKey, Identifier.ext_iff, Fin.ext_iff]
    | hint _ k => cases l <;> cases k <;> simp [rankKey] at h
  | hint c k =>
    cases j with
    | container _ => cases k <;> simp [rankKey] at h
    | document l _ => cases l <;> cases k <;> simp [rankKey] at h
    | hint c' k' =>
      cases k <;> cases k' <;> simp [rankKey] at h ⊢
      all_goals exact Container.rankKey_injective h

instance : LinearOrder EntryIdentifier :=
  let lifted := LinearOrder.lift' rankKey rankKey_injective
  { lifted with
    toDecidableEq := instDecidableEqEntryIdentifier
    compare_eq_compareOfLessAndEq := fun a b ↦
      (lifted.compare_eq_compareOfLessAndEq a b).trans (by congr) }

theorem container?_eq_some {i : EntryIdentifier} {c : Container} :
    i.container? = some c ↔ i = container c := by
  cases i <;> simp [container?]

theorem document?_container (c : Container) : (container c).document? = none := rfl

end EntryIdentifier

/-- A SHA-256 checksum. -/
structure Sha256Value where
  bits : BitVec 256
deriving DecidableEq, Repr

structure FileDetails where
  size : UInt64
  sha256 : Option Sha256Value
  version : String
  created : Timestamp
  changed : Timestamp
  mediaType : String
deriving DecidableEq

inductive EntryContent
  | folder
  | file (details : FileDetails)
deriving DecidableEq

/-- One entry of the mirror: a folder or a file under a name in its parent container. -/
structure Entry where
  identifier : EntryIdentifier
  name : String
  content : EntryContent
deriving DecidableEq

namespace Entry

def isFolder (e : Entry) : Bool := e.content == .folder

def file (e : Entry) : Option FileDetails :=
  match e.content with
  | .file d => some d
  | .folder => none

end Entry

/-- The two Unicode operations under which names are compared. -/
structure Unicode where
  nfc : String → String
  lowercase : String → String

/-- The form in which two names count as equal: NFC, lower case. -/
def comparisonForm (unicode : Unicode) (name : String) : String :=
  unicode.lowercase (unicode.nfc name)

end FolderClient.Core.Namespace
