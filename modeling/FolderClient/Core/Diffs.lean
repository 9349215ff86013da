import FolderClient.Core.Changes

namespace FolderClient.Core.Diffs

open FolderClient.Core.Namespace FolderClient.Core.Changes FolderClient.Library.EditLog
open FolderClient.Library.Ordered

/-- A listing as a map from identifiers to entries. -/
def listed (l : List Entry) : Snapshot EntryIdentifier Entry :=
  fun i ↦ l.find? fun e ↦ e.identifier = i

/-- The group a change stands in: removed, changed, new. -/
def group : Change → ℕ
  | .removed _ => 0
  | .changed _ _ => 1
  | .new _ => 2

variable {old new : List Entry} {c : Change} {i : EntryIdentifier} {e : Entry}

theorem listed_eq_some {l : List Entry} (h : (l.map Entry.identifier).Nodup) :
    listed l i = some e ↔ e ∈ l ∧ e.identifier = i := by
  have hfound : ∀ {e'}, listed l i = some e' → e' ∈ l ∧ e'.identifier = i := by
    intro e' hfind
    have hi := List.find?_some hfind
    exact ⟨List.mem_of_find?_eq_some hfind, by simpa using hi⟩
  refine ⟨hfound, ?_⟩
  rintro ⟨he, rfl⟩
  cases hfind : listed l e.identifier with
  | none => exact absurd (decide_eq_true rfl) (List.find?_eq_none.mp hfind e he)
  | some e' =>
    obtain ⟨he', hi⟩ := hfound hfind
    rw [List.inj_on_of_nodup_map h he' he hi]

theorem listed_eq_none {l : List Entry} : listed l i = none ↔ ∀ e ∈ l, e.identifier ≠ i := by
  rw [listed, List.find?_eq_none]
  exact forall₂_congr fun e _ ↦ by rw [decide_eq_true_iff]

section Compare

variable (ho : (old.map Entry.identifier).Nodup) (hn : (new.map Entry.identifier).Nodup)

include ho hn

/-- Each change says how its entry stands in the two listings. -/
theorem mem_compare : c ∈ Changes.compare old new ↔
    match c with
    | .removed e => e ∈ old ∧ ∀ e' ∈ new, e'.identifier ≠ e.identifier
    | .changed before after => before ∈ old ∧ after ∈ new ∧
        after.identifier = before.identifier ∧ after ≠ before
    | .new e => e ∈ new ∧ ∀ e' ∈ old, e'.identifier ≠ e.identifier := by
  rw [compare_eq, List.mem_append, List.mem_append, List.mem_map, List.mem_map, List.mem_map]
  cases c with
  | removed e =>
    simp only [Change.removed.injEq, exists_eq_right, reduceCtorEq, and_false, exists_false,
      or_false]
    exact mem_missing ho hn
  | changed before after =>
    simp only [reduceCtorEq, and_false, exists_false, false_or, or_false, Change.changed.injEq]
    constructor
    · rintro ⟨p, hp, rfl, rfl⟩
      exact (mem_differing ho hn).mp hp
    · exact fun h ↦ ⟨(before, after), (mem_differing ho hn).mpr h, rfl, rfl⟩
  | new e =>
    simp only [reduceCtorEq, and_false, exists_false, false_or, Change.new.injEq, exists_eq_right]
    exact mem_missing hn ho

theorem nodup_compare : ((Changes.compare old new).map Change.identifier).Nodup := by
  have hdiff : ((differing (byIdentifier old) (byIdentifier new)).map
      fun p ↦ Change.changed p.1 p.2).map Change.identifier =
        (differing (byIdentifier old) (byIdentifier new)).map fun p ↦ p.1.identifier := by
    rw [List.map_map]
    exact List.map_congr_left fun p hp ↦ ((mem_differing ho hn).mp hp).2.2.1
  rw [compare_eq, List.map_append, List.map_append, hdiff, List.map_map, List.map_map,
    List.nodup_append, List.nodup_append]
  refine ⟨nodup_missing ho _, ⟨nodup_differing ho _, nodup_missing hn _, ?_⟩, ?_⟩
  · intro i hi j hj
    obtain ⟨p, hp, rfl⟩ := List.mem_map.mp hi
    obtain ⟨e, he, rfl⟩ := List.mem_map.mp hj
    exact ((mem_missing hn ho).mp he).2 _ ((mem_differing ho hn).mp hp).1
  · intro i hi j hj
    obtain ⟨e, he, rfl⟩ := List.mem_map.mp hi
    obtain ⟨-, hgone⟩ := (mem_missing ho hn).mp he
    rcases List.mem_append.mp hj with hj | hj
    · obtain ⟨p, hp, rfl⟩ := List.mem_map.mp hj
      obtain ⟨-, hp, hi, -⟩ := (mem_differing ho hn).mp hp
      exact fun heq ↦ hgone p.2 hp (hi.trans heq.symm)
    · obtain ⟨e', he', rfl⟩ := List.mem_map.mp hj
      exact (hgone e' ((mem_missing hn ho).mp he').1).symm

/-- The changes lead from the old listing to the new one. -/
theorem replay_compare : replay (listed old) ((Changes.compare old new).map Change.edit) =
    listed new := by
  have hkeys : (((Changes.compare old new).map Change.edit).map Edit.key).Nodup := by
    rw [Change.map_edit_key]
    exact nodup_compare ho hn
  funext i
  by_cases hc : ∃ c ∈ Changes.compare old new, c.identifier = i
  · obtain ⟨c, hc, rfl⟩ := hc
    rw [← c.edit_key, replay_of_nodup hkeys (List.mem_map_of_mem hc), c.edit_value, c.edit_key]
    have hreport := (mem_compare ho hn).mp hc
    cases c with
    | removed e => exact (listed_eq_none.mpr hreport.2).symm
    | changed before after => exact ((listed_eq_some hn).mpr ⟨hreport.2.1, rfl⟩).symm
    | new e => exact ((listed_eq_some hn).mpr ⟨hreport.1, rfl⟩).symm
  · have hsame : listed old i = listed new i := by
      cases hnew : listed new i with
      | none =>
        rw [listed_eq_none]
        rintro e he rfl
        exact hc ⟨.removed e, (mem_compare ho hn).mpr ⟨he, listed_eq_none.mp hnew⟩, rfl⟩
      | some e =>
        obtain ⟨he, rfl⟩ := (listed_eq_some hn).mp hnew
        cases hold : listed old e.identifier with
        | none => exact absurd ⟨.new e, (mem_compare ho hn).mpr ⟨he, listed_eq_none.mp hold⟩, rfl⟩ hc
        | some e' =>
          obtain ⟨he', hi⟩ := (listed_eq_some ho).mp hold
          by_cases heq : e = e'
          · rw [heq]
          · exact absurd ⟨.changed e' e, (mem_compare ho hn).mpr ⟨he', he, hi.symm, heq⟩, rfl⟩ hc
    rw [replay_of_forall_ne, hsame]
    intro d hd heq
    obtain ⟨c, hmem, rfl⟩ := List.mem_map.mp hd
    exact hc ⟨c, hmem, (heq.trans c.edit_key).symm⟩

/-- An entry that stands in both listings alike is in no change. -/
theorem identifier_ne_of_mem (hold : e ∈ old) (hnew : e ∈ new) (hc : c ∈ Changes.compare old new) :
    c.identifier ≠ e.identifier := by
  have hreport := (mem_compare ho hn).mp hc
  cases c with
  | removed e' => exact fun hi ↦ hreport.2 e hnew hi.symm
  | changed before after =>
    obtain ⟨hbefore, hafter, hi, hne⟩ := hreport
    intro heq
    have hafter := List.inj_on_of_nodup_map hn hafter hnew heq
    have hbefore := List.inj_on_of_nodup_map ho hbefore hold (hi.symm.trans heq)
    exact hne (hafter.trans hbefore.symm)
  | new e' => exact fun hi ↦ hreport.2 e hold hi.symm

omit ho hn in
/-- Removed comes before changed, and changed before new. -/
theorem sorted_compare : ((Changes.compare old new).map group).Pairwise (· ≤ ·) := by
  have hgroup : ∀ {α : Type} (l : List α) (f : α → Change) (n : ℕ), (∀ a, group (f a) = n) →
      ∀ m ∈ (l.map f).map group, m = n := by
    intro α l f n hf m hm
    obtain ⟨c, hc, rfl⟩ := List.mem_map.mp hm
    obtain ⟨a, -, rfl⟩ := List.mem_map.mp hc
    exact hf a
  have hremoved := hgroup (missing (byIdentifier old) (byIdentifier new)) Change.removed 0
    fun _ ↦ rfl
  have hchanged := hgroup (differing (byIdentifier old) (byIdentifier new))
    (fun p ↦ Change.changed p.1 p.2) 1 fun _ ↦ rfl
  have hnew := hgroup (missing (byIdentifier new) (byIdentifier old)) Change.new 2 fun _ ↦ rfl
  have halike : ∀ {l : List ℕ} {n : ℕ}, (∀ m ∈ l, m = n) → l.Pairwise (· ≤ ·) :=
    fun h ↦ List.pairwise_of_forall_mem_list fun a ha b hb ↦ ((h a ha).trans (h b hb).symm).le
  rw [compare_eq, List.map_append, List.map_append]
  refine List.pairwise_append.mpr ⟨halike hremoved,
    List.pairwise_append.mpr ⟨halike hchanged, halike hnew, ?_⟩, ?_⟩
  · intro a ha b hb
    rw [hchanged a ha, hnew b hb]
    decide
  · intro a ha b _
    rw [hremoved a ha]
    exact Nat.zero_le b

end Compare

/-- Comparing two listings with unique identifiers gives what leads from the one to the other, and
nothing more; the order of the listings does not matter. -/
theorem compare_spec (ho : (old.map Entry.identifier).Nodup)
    (hn : (new.map Entry.identifier).Nodup) :
    replay (listed old) ((Changes.compare old new).map Change.edit) = listed new ∧
    ((Changes.compare old new).map Change.identifier).Nodup ∧
    (∀ e ∈ old, e ∈ new → ∀ c ∈ Changes.compare old new, c.identifier ≠ e.identifier) ∧
    (∀ old', old.Perm old' → Changes.compare old old' = []) ∧
    ((Changes.compare old new).map group).Pairwise (· ≤ ·) := by
  refine ⟨replay_compare ho hn, nodup_compare ho hn,
    fun e hold hnew c hc ↦ identifier_ne_of_mem ho hn hold hnew hc, fun old' hperm ↦ ?_,
    sorted_compare⟩
  have ho' : (old'.map Entry.identifier).Nodup := (hperm.map _).nodup_iff.mp ho
  rw [List.eq_nil_iff_forall_not_mem]
  intro c hc
  have hreport := (mem_compare ho ho').mp hc
  cases c with
  | removed e => exact hreport.2 e (hperm.mem_iff.mp hreport.1) rfl
  | changed before after =>
    obtain ⟨hbefore, hafter, hi, hne⟩ := hreport
    exact hne (List.inj_on_of_nodup_map ho (hperm.mem_iff.mpr hafter) hbefore hi)
  | new e => exact hreport.2 e (hperm.mem_iff.mpr hreport.1) rfl

section Sample

def folderNamed (c : Container) (name : String) : Entry := ⟨.container c, name, .folder⟩

def before : List Entry :=
  [folderNamed .baskets "Körbe", folderNamed .archives "Archive", folderNamed (.basket ⟨7⟩) "Post"]

def after : List Entry :=
  [folderNamed .searches "Suchen", folderNamed .archives "Archive", folderNamed .baskets "Baskets"]

theorem compare_spec_sample :
    replay (listed before) ((Changes.compare before after).map Change.edit) = listed after ∧
      ∀ old', before.Perm old' → Changes.compare before old' = [] := by
  obtain ⟨hreplay, -, -, hperm, -⟩ := @compare_spec before after
    (by decide +kernel) (by decide +kernel)
  exact ⟨hreplay, hperm⟩

end Sample

end FolderClient.Core.Diffs
