import Mathlib.Data.List.Sort
import Mathlib.Order.Lattice

namespace FolderClient.Library.Ordered

variable {α β : Type} [LinearOrder α]

/-- A finite map kept as its bindings in strictly ascending key order. -/
structure OrderedMap (α β : Type) [LinearOrder α] where
  bindings : List (α × β)
  ascending : bindings.Pairwise (fun a b ↦ a.1 < b.1)

def insertBinding (k : α) (v : β) : List (α × β) → List (α × β)
  | [] => [(k, v)]
  | b :: rest =>
    if k < b.1 then (k, v) :: b :: rest
    else if b.1 < k then b :: insertBinding k v rest
    else (k, v) :: rest

theorem key_of_mem_insertBinding {k : α} {v : β} {l : List (α × β)} {b : α × β}
    (h : b ∈ insertBinding k v l) : b = (k, v) ∨ b ∈ l := by
  induction l with
  | nil => simpa [insertBinding] using h
  | cons c l ih =>
    simp only [insertBinding] at h
    split at h
    · simpa using h
    · split at h
      · rcases List.mem_cons.mp h with rfl | h
        · exact .inr List.mem_cons_self
        · exact (ih h).imp_right (List.mem_cons_of_mem _)
      · rcases List.mem_cons.mp h with rfl | h
        · exact .inl rfl
        · exact .inr (List.mem_cons_of_mem _ h)

theorem pairwise_insertBinding (k : α) (v : β) (l : List (α × β))
    (h : l.Pairwise (fun a b ↦ a.1 < b.1)) :
    (insertBinding k v l).Pairwise (fun a b ↦ a.1 < b.1) := by
  induction l with
  | nil => simp [insertBinding]
  | cons c l ih =>
    obtain ⟨hc, hl⟩ := List.pairwise_cons.mp h
    simp only [insertBinding]
    split
    · rename_i hk
      refine List.pairwise_cons.mpr ⟨fun b hb ↦ ?_, h⟩
      rcases List.mem_cons.mp hb with rfl | hb
      · exact hk
      · exact hk.trans (hc b hb)
    · rename_i hk
      split
      · rename_i hk'
        refine List.pairwise_cons.mpr ⟨fun b hb ↦ ?_, ih hl⟩
        rcases key_of_mem_insertBinding hb with rfl | hb
        · exact hk'
        · exact hc b hb
      · rename_i hk'
        have he : c.1 = k := le_antisymm (not_lt.mp hk) (not_lt.mp hk')
        refine List.pairwise_cons.mpr ⟨fun b hb ↦ ?_, hl⟩
        exact he ▸ hc b hb

theorem lookup_cons_ite (k : α) (b : α × β) (l : List (α × β)) :
    (b :: l).lookup k = if k = b.1 then some b.2 else l.lookup k := by
  obtain ⟨j, v⟩ := b
  by_cases hk : k = j
  · simp [hk]
  · have hn : (k == j) = false := by simpa using hk
    simp [List.lookup_cons, hn, hk]

theorem lookup_insertBinding (j k : α) (v : β) (l : List (α × β)) :
    (insertBinding k v l).lookup j = if j = k then some v else l.lookup j := by
  induction l with
  | nil => simp [insertBinding, lookup_cons_ite]
  | cons c l ih =>
    simp only [insertBinding]
    split
    · simp only [lookup_cons_ite]
    · rename_i hk
      split
      · rename_i hk'
        rw [lookup_cons_ite, lookup_cons_ite, ih]
        by_cases hj : j = c.1
        · have hn : c.1 ≠ k := ne_of_lt hk'
          simp [hj, hn]
        · simp [hj]
      · rename_i hk'
        have he : c.1 = k := le_antisymm (not_lt.mp hk) (not_lt.mp hk')
        by_cases hj : j = k <;> simp [lookup_cons_ite, hj, he]

namespace OrderedMap

def empty : OrderedMap α β := ⟨[], .nil⟩

def get? (m : OrderedMap α β) (k : α) : Option β := m.bindings.lookup k

def insert (m : OrderedMap α β) (k : α) (v : β) : OrderedMap α β :=
  ⟨insertBinding k v m.bindings, pairwise_insertBinding k v m.bindings m.ascending⟩

/-- Collects a list of bindings; of two bindings with one key the later one stays. -/
def ofList (l : List (α × β)) : OrderedMap α β :=
  l.foldl (fun m b ↦ m.insert b.1 b.2) empty

@[simp] theorem get?_empty (k : α) : (empty : OrderedMap α β).get? k = none := rfl

@[simp] theorem get?_insert (m : OrderedMap α β) (j k : α) (v : β) :
    (m.insert k v).get? j = if j = k then some v else m.get? j :=
  lookup_insertBinding j k v m.bindings

theorem get?_foldl_insert (l : List (α × β)) (m : OrderedMap α β) (k : α) :
    (l.foldl (fun m b ↦ m.insert b.1 b.2) m).get? k = (l.reverse.lookup k).or (m.get? k) := by
  induction l generalizing m with
  | nil => simp
  | cons b l ih =>
    rw [List.foldl_cons, ih, get?_insert, List.reverse_cons]
    have happ : (l.reverse ++ [b]).lookup k = (l.reverse.lookup k).or (List.lookup k [b]) := by
      simp [List.lookup_append]
    rw [happ]
    cases l.reverse.lookup k <;> by_cases hk : k = b.1 <;> simp [lookup_cons_ite, hk]

theorem get?_ofList (l : List (α × β)) (k : α) : (ofList l).get? k = l.reverse.lookup k := by
  simp [ofList, get?_foldl_insert]

theorem lookup_eq_some_of_nodup {l : List (α × β)} (h : (l.map Prod.fst).Nodup) {k : α} {v : β} :
    l.lookup k = some v ↔ (k, v) ∈ l := by
  induction l with
  | nil => simp
  | cons b l ih =>
    obtain ⟨hb, hl⟩ := List.nodup_cons.mp (by simpa only [List.map_cons] using h)
    obtain ⟨j, w⟩ := b
    by_cases hk : k = j
    · subst hk
      have hn : (k, v) ∉ l := fun hm ↦ hb (List.mem_map.mpr ⟨(k, v), hm, rfl⟩)
      simp [lookup_cons_ite, hn, eq_comm]
    · simp [lookup_cons_ite, hk, ih hl]

theorem get?_ofList_eq_some {l : List (α × β)} (h : (l.map Prod.fst).Nodup) {k : α} {v : β} :
    (ofList l).get? k = some v ↔ (k, v) ∈ l := by
  rw [get?_ofList, lookup_eq_some_of_nodup, List.mem_reverse]
  rw [List.map_reverse]
  exact List.nodup_reverse.mpr h

theorem mem_bindings (m : OrderedMap α β) {k : α} {v : β} :
    (k, v) ∈ m.bindings ↔ m.get? k = some v := by
  have hn : (m.bindings.map Prod.fst).Nodup :=
    List.pairwise_map.mpr (m.ascending.imp fun h ↦ ne_of_lt h)
  exact (lookup_eq_some_of_nodup hn).symm

end OrderedMap

end FolderClient.Library.Ordered
