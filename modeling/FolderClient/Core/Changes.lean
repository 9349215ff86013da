import FolderClient.Core.Namespace
import FolderClient.Library.EditLog
import FolderClient.Library.Ordered

namespace FolderClient.Core.Changes

open FolderClient.Core.Namespace FolderClient.Library.EditLog FolderClient.Library.Ordered

/-- A change to one entry. -/
inductive Change
  | new (entry : Entry)
  | changed (before after : Entry)
  | removed (entry : Entry)
deriving DecidableEq

namespace Change

def identifier : Change → EntryIdentifier
  | new e | removed e => e.identifier
  | changed _ after => after.identifier

/-- The entry after the change; nothing for a removed one. -/
def after : Change → Option Entry
  | new e => some e
  | changed _ e => some e
  | removed _ => none

/-- What a change does to whoever keeps the entries by identifier. -/
def edit (c : Change) : Edit EntryIdentifier Entry :=
  match c.after with
  | some e => .put c.identifier e
  | none => .delete c.identifier

@[simp] theorem edit_new (e : Entry) : (new e).edit = .put e.identifier e := rfl

@[simp] theorem edit_changed (e f : Entry) : (changed e f).edit = .put f.identifier f := rfl

@[simp] theorem edit_removed (e : Entry) : (removed e).edit = .delete e.identifier := rfl

theorem edit_key (c : Change) : c.edit.key = c.identifier := by
  cases c <;> rfl

theorem edit_value (c : Change) : c.edit.value = c.after := by
  cases c <;> rfl

theorem map_edit_key (changes : List Change) :
    (changes.map edit).map Edit.key = changes.map identifier := by
  rw [List.map_map]
  exact List.map_congr_left fun c _ ↦ c.edit_key

theorem identifier_of_after {c : Change} {e : Entry} (h : c.after = some e) :
    c.identifier = e.identifier := by
  cases c with
  | new e' => rw [← Option.some.inj h]; rfl
  | changed _ e' => rw [← Option.some.inj h]; rfl
  | removed e' => cases h

end Change

def byIdentifier (l : List Entry) : OrderedMap EntryIdentifier Entry :=
  .ofList (l.map fun e ↦ (e.identifier, e))

/-- The entries of the first listing that the second does not have. -/
def missing (first second : OrderedMap EntryIdentifier Entry) : List Entry :=
  first.bindings.filterMap fun (identifier, entry) ↦
    if (second.get? identifier).isNone then some entry else none

/-- The entries both listings have, but not alike. -/
def differing (old new : OrderedMap EntryIdentifier Entry) : List (Entry × Entry) :=
  old.bindings.filterMap fun (identifier, before) ↦
    match new.get? identifier with
    | some after => if after ≠ before then some (before, after) else none
    | none => none

/-- Compares the remembered listing of a container with the fresh one: removed first, then
changed, then new, each in ascending order of the identifiers. -/
def compare (old new : List Entry) : List Change :=
  let old := byIdentifier old
  let new := byIdentifier new
  let removed := (missing old new).map Change.removed
  let changed := (differing old new).map fun (before, after) ↦ Change.changed before after
  let added := (missing new old).map Change.new
  removed ++ changed ++ added

theorem compare_eq (old new : List Entry) :
    Changes.compare old new = (missing (byIdentifier old) (byIdentifier new)).map Change.removed ++
      ((differing (byIdentifier old) (byIdentifier new)).map (fun p ↦ Change.changed p.1 p.2) ++
        (missing (byIdentifier new) (byIdentifier old)).map Change.new) := by
  simp only [Changes.compare, List.append_assoc]

/-- One change with its sequence number in the change journal. -/
structure JournalEntry where
  sequence : ℕ
  change : Change
deriving DecidableEq

/-- What has happened since a sequence number. -/
structure ChangeState where
  changes : List JournalEntry
  untilSequence : ℕ
  more : Bool
deriving DecidableEq

section Compare

variable {old new : List Entry}

theorem mem_byIdentifier {l : List Entry} (h : (l.map Entry.identifier).Nodup)
    {i : EntryIdentifier} {e : Entry} :
    (byIdentifier l).get? i = some e ↔ e ∈ l ∧ e.identifier = i := by
  have hn : ((l.map fun e ↦ (e.identifier, e)).map Prod.fst).Nodup := by
    simpa only [List.map_map, Function.comp_def] using h
  rw [byIdentifier, OrderedMap.get?_ofList_eq_some hn, List.mem_map]
  constructor
  · rintro ⟨e', he, heq⟩
    obtain ⟨rfl, rfl⟩ := Prod.mk.inj heq
    exact ⟨he, rfl⟩
  · rintro ⟨he, rfl⟩
    exact ⟨e, he, rfl⟩

theorem byIdentifier_eq_none {l : List Entry} (h : (l.map Entry.identifier).Nodup)
    {i : EntryIdentifier} :
    (byIdentifier l).get? i = none ↔ ∀ e ∈ l, e.identifier ≠ i := by
  rw [Option.eq_none_iff_forall_ne_some]
  constructor
  · intro hn e he hi
    exact hn e ((mem_byIdentifier h).mpr ⟨he, hi⟩)
  · intro hn e he
    exact hn e ((mem_byIdentifier h).mp he).1 ((mem_byIdentifier h).mp he).2

theorem mem_bindings_byIdentifier {l : List Entry} (h : (l.map Entry.identifier).Nodup)
    {b : EntryIdentifier × Entry} :
    b ∈ (byIdentifier l).bindings ↔ b.2 ∈ l ∧ b.2.identifier = b.1 := by
  rw [← mem_byIdentifier h, ← OrderedMap.mem_bindings]

/-- What is filtered out of a listing keeps its identifiers distinct. -/
theorem nodup_filterMap_bindings {γ : Type} (m : OrderedMap EntryIdentifier Entry)
    (f : EntryIdentifier × Entry → Option γ) (key : γ → EntryIdentifier)
    (hf : ∀ b ∈ m.bindings, ∀ c, f b = some c → key c = b.1) :
    ((m.bindings.filterMap f).map key).Nodup := by
  rw [List.map_filterMap]
  have hp := m.ascending.imp_of_mem
    (S := fun a b ↦ a.1 < b.1 ∧ a ∈ m.bindings ∧ b ∈ m.bindings)
    fun ha hb hlt ↦ ⟨hlt, ha, hb⟩
  refine hp.filterMap _ ?_
  rintro a a' ⟨hlt, ha, ha'⟩ i hi i' hi'
  obtain ⟨c, hc, rfl⟩ := Option.map_eq_some_iff.mp hi
  obtain ⟨c', hc', rfl⟩ := Option.map_eq_some_iff.mp hi'
  rw [hf a ha c hc, hf a' ha' c' hc']
  exact ne_of_lt hlt

theorem mem_missing (ho : (old.map Entry.identifier).Nodup)
    (hn : (new.map Entry.identifier).Nodup) {e : Entry} :
    e ∈ missing (byIdentifier old) (byIdentifier new) ↔
      e ∈ old ∧ ∀ e' ∈ new, e'.identifier ≠ e.identifier := by
  simp only [missing, List.mem_filterMap, mem_bindings_byIdentifier ho, Option.isNone_iff_eq_none,
    byIdentifier_eq_none hn, Prod.exists]
  constructor
  · rintro ⟨i, e', ⟨he, rfl⟩, h⟩
    split at h
    · rename_i hne
      obtain rfl := Option.some.inj h
      exact ⟨he, hne⟩
    · cases h
  · rintro ⟨he, hne⟩
    exact ⟨e.identifier, e, ⟨he, rfl⟩, if_pos hne⟩

theorem nodup_missing (ho : (old.map Entry.identifier).Nodup)
    (m : OrderedMap EntryIdentifier Entry) :
    ((missing (byIdentifier old) m).map Entry.identifier).Nodup := by
  refine nodup_filterMap_bindings _ _ _ fun b hb e he ↦ ?_
  have h : ¬ (m.get? b.1).isNone = false ∧ b.2 = e := by
    by_cases hc : (m.get? b.1).isNone <;> simp_all
  rw [← h.2]
  exact ((mem_bindings_byIdentifier ho).mp hb).2

theorem mem_differing (ho : (old.map Entry.identifier).Nodup)
    (hn : (new.map Entry.identifier).Nodup) {p : Entry × Entry} :
    p ∈ differing (byIdentifier old) (byIdentifier new) ↔
      p.1 ∈ old ∧ p.2 ∈ new ∧ p.2.identifier = p.1.identifier ∧ p.2 ≠ p.1 := by
  simp only [differing, List.mem_filterMap, mem_bindings_byIdentifier ho, Prod.exists]
  constructor
  · rintro ⟨i, e, ⟨he, rfl⟩, h⟩
    split at h
    · rename_i e' hsome
      obtain ⟨he', hi⟩ := (mem_byIdentifier hn).mp hsome
      split at h
      · rename_i hne
        obtain rfl := Option.some.inj h
        exact ⟨he, he', hi, hne⟩
      · cases h
    · cases h
  · rintro ⟨he, he', hi, hne⟩
    refine ⟨p.1.identifier, p.1, ⟨he, rfl⟩, ?_⟩
    rw [(mem_byIdentifier hn).mpr ⟨he', hi⟩]
    exact if_pos hne

theorem nodup_differing (ho : (old.map Entry.identifier).Nodup)
    (m : OrderedMap EntryIdentifier Entry) :
    ((differing (byIdentifier old) m).map fun p ↦ p.1.identifier).Nodup := by
  refine nodup_filterMap_bindings _ _ _ fun b hb p hp ↦ ?_
  have h : p.1 = b.2 := by
    cases hm : m.get? b.1 with
    | none => simp [hm] at hp
    | some e =>
      by_cases hne : e = b.2
      · simp [hm, hne] at hp
      · simp only [hm, hne, ne_eq, not_false_eq_true, if_true] at hp
        exact congrArg Prod.fst (Option.some.inj hp).symm
  rw [h]
  exact ((mem_bindings_byIdentifier ho).mp hb).2

end Compare

end FolderClient.Core.Changes
