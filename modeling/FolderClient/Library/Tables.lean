import Mathlib.Data.List.Nodup

namespace FolderClient.Library.Tables

variable {κ ρ : Type} {key : ρ → κ}

/-- A table with a primary key: no two of its rows carry the same key. -/
structure Table (κ ρ : Type) (key : ρ → κ) where
  rows : List ρ
  nodup : (rows.map key).Nodup

namespace Table

def empty : Table κ ρ key := ⟨[], .nil⟩

def select (t : Table κ ρ key) (p : ρ → Bool) : List ρ := t.rows.filter p

theorem eq_of_key_eq (t : Table κ ρ key) {r r' : ρ} (h : r ∈ t.rows) (h' : r' ∈ t.rows)
    (hk : key r = key r') : r = r' :=
  List.inj_on_of_nodup_map t.nodup h h' hk

@[simp] theorem mem_select (t : Table κ ρ key) {p : ρ → Bool} {r : ρ} :
    r ∈ t.select p ↔ r ∈ t.rows ∧ p r = true := List.mem_filter

/-- `DELETE … WHERE p`. -/
def deleteWhere (t : Table κ ρ key) (p : ρ → Bool) : Table κ ρ key :=
  ⟨t.rows.filter (fun r ↦ !p r), t.nodup.sublist (List.filter_sublist.map key)⟩

@[simp] theorem mem_deleteWhere (t : Table κ ρ key) {p : ρ → Bool} {r : ρ} :
    r ∈ (t.deleteWhere p).rows ↔ r ∈ t.rows ∧ p r = false := by
  simp [deleteWhere]

/-- `UPDATE …` of columns that are not the key. -/
def update (t : Table κ ρ key) (f : ρ → ρ) (hf : ∀ r, key (f r) = key r) : Table κ ρ key :=
  ⟨t.rows.map f, by simpa [Function.comp_def, hf] using t.nodup⟩

@[simp] theorem mem_update (t : Table κ ρ key) {f : ρ → ρ} {hf : ∀ r, key (f r) = key r}
    {r : ρ} : r ∈ (t.update f hf).rows ↔ ∃ r' ∈ t.rows, f r' = r := List.mem_map

theorem deleteWhere_eq_self (t : Table κ ρ key) {p : ρ → Bool} (h : ∀ r ∈ t.rows, p r = false) :
    t.deleteWhere p = t := by
  obtain ⟨rows, hn⟩ := t
  have hf : rows.filter (fun r ↦ !p r) = rows := List.filter_eq_self.mpr fun r hr ↦ by simp [h r hr]
  simp only [deleteWhere, hf]

theorem update_eq_self (t : Table κ ρ key) {f : ρ → ρ} {hf : ∀ r, key (f r) = key r}
    (h : ∀ r ∈ t.rows, f r = r) : t.update f hf = t := by
  obtain ⟨rows, hn⟩ := t
  have hm : rows.map f = rows := (List.map_congr_left h).trans rows.map_id'
  simp only [update, hm]

section Keys

variable [DecidableEq κ]

def find? (t : Table κ ρ key) (k : κ) : Option ρ := t.rows.find? (fun r ↦ key r = k)

def contains (t : Table κ ρ key) (k : κ) : Bool := (t.find? k).isSome

theorem find?_eq_some_iff (t : Table κ ρ key) {k : κ} {r : ρ} :
    t.find? k = some r ↔ r ∈ t.rows ∧ key r = k := by
  constructor
  · intro h
    exact ⟨List.mem_of_find?_eq_some h, by simpa using List.find?_some h⟩
  · rintro ⟨h, rfl⟩
    obtain ⟨r', hr'⟩ : ∃ r', t.find? (key r) = some r' :=
      Option.isSome_iff_exists.mp (List.find?_isSome.mpr ⟨r, h, by simp⟩)
    have hk : key r' = key r := by simpa using List.find?_some hr'
    rw [hr', t.eq_of_key_eq (List.mem_of_find?_eq_some hr') h hk]

theorem find?_eq_none_iff (t : Table κ ρ key) {k : κ} :
    t.find? k = none ↔ ∀ r ∈ t.rows, key r ≠ k := by
  simp [find?]

theorem contains_iff (t : Table κ ρ key) {k : κ} :
    t.contains k = true ↔ ∃ r ∈ t.rows, key r = k := by
  simp [contains, find?]

theorem contains_eq_false_iff (t : Table κ ρ key) {k : κ} :
    t.contains k = false ↔ ∀ r ∈ t.rows, key r ≠ k := by
  rw [← Bool.not_eq_true, contains_iff]
  simp

/-- `INSERT` of a row whose key is new; nothing where a row already carries the key. -/
def insert? (t : Table κ ρ key) (r : ρ) : Option (Table κ ρ key) :=
  if h : key r ∈ t.rows.map key then none
  else some ⟨t.rows ++ [r], by
    rw [List.map_append, List.nodup_append]
    refine ⟨t.nodup, by simp, ?_⟩
    rintro a ha b hb rfl
    have hr : a = key r := by simpa using hb
    exact h (hr ▸ ha)⟩

theorem insert?_rows {t t' : Table κ ρ key} {r : ρ} (h : t.insert? r = some t') :
    t'.rows = t.rows ++ [r] := by
  unfold insert? at h
  split at h
  · cases h
  · cases h; rfl

theorem insert?_eq_none_iff (t : Table κ ρ key) {r : ρ} :
    t.insert? r = none ↔ ∃ r' ∈ t.rows, key r' = key r := by
  unfold insert?
  split
  · rename_i h
    simpa using h
  · rename_i h
    simpa using h

def replaceOrAppend (key : ρ → κ) (r : ρ) : List ρ → List ρ
  | [] => [r]
  | r' :: rest => if key r' = key r then r :: rest else r' :: replaceOrAppend key r rest

theorem replaceOrAppend_nil (r : ρ) : replaceOrAppend key r [] = [r] := rfl

theorem replaceOrAppend_cons (r r' : ρ) (rest : List ρ) : replaceOrAppend key r (r' :: rest) =
    if key r' = key r then r :: rest else r' :: replaceOrAppend key r rest := rfl

theorem key_mem_replaceOrAppend (r : ρ) (l : List ρ) {k : κ}
    (h : k ∈ (replaceOrAppend key r l).map key) : k = key r ∨ k ∈ l.map key := by
  induction l with
  | nil => simpa [replaceOrAppend_nil] using h
  | cons r' l ih =>
    rw [replaceOrAppend_cons] at h
    split at h
    · rename_i he
      exact .inr (by simpa [he] using h)
    · rcases List.mem_cons.mp (by simpa only [List.map_cons] using h) with rfl | h
      · exact .inr (by simp)
      · exact (ih h).imp_right fun h ↦ by simp only [List.map_cons, List.mem_cons, h, or_true]

theorem nodup_replaceOrAppend (r : ρ) (l : List ρ) (h : (l.map key).Nodup) :
    ((replaceOrAppend key r l).map key).Nodup := by
  induction l with
  | nil => simp [replaceOrAppend_nil]
  | cons r' l ih =>
    obtain ⟨hr, hl⟩ := List.nodup_cons.mp (by simpa only [List.map_cons] using h)
    rw [replaceOrAppend_cons]
    split
    · rename_i he
      simpa only [List.map_cons, he] using h
    · rename_i he
      refine List.nodup_cons.mpr ⟨fun hm ↦ ?_, ih hl⟩
      rcases key_mem_replaceOrAppend r l hm with hk | hm
      · exact he hk
      · exact hr hm

theorem mem_replaceOrAppend (r : ρ) (l : List ρ) (h : (l.map key).Nodup) {x : ρ} :
    x ∈ replaceOrAppend key r l ↔ x = r ∨ (x ∈ l ∧ key x ≠ key r) := by
  induction l with
  | nil => simp [replaceOrAppend_nil]
  | cons r' l ih =>
    obtain ⟨hr, hl⟩ := List.nodup_cons.mp (by simpa only [List.map_cons] using h)
    rw [replaceOrAppend_cons]
    split
    · rename_i he
      have hn : ∀ y ∈ l, key y ≠ key r := fun y hy hk ↦
        hr (he ▸ hk ▸ List.mem_map_of_mem hy)
      constructor
      · intro hx
        rcases List.mem_cons.mp hx with rfl | hx
        · exact .inl rfl
        · exact .inr ⟨List.mem_cons_of_mem _ hx, hn x hx⟩
      · rintro (rfl | ⟨hx, hk⟩)
        · exact List.mem_cons_self
        · rcases List.mem_cons.mp hx with rfl | hx
          · exact absurd he hk
          · exact List.mem_cons_of_mem _ hx
    · rename_i he
      rw [List.mem_cons, ih hl, List.mem_cons]
      constructor
      · rintro (rfl | rfl | ⟨hx, hk⟩)
        · exact .inr ⟨.inl rfl, he⟩
        · exact .inl rfl
        · exact .inr ⟨.inr hx, hk⟩
      · rintro (rfl | ⟨rfl | hx, hk⟩)
        · exact .inr (.inl rfl)
        · exact .inl rfl
        · exact .inr (.inr ⟨hx, hk⟩)

/-- `INSERT … ON CONFLICT DO UPDATE`: the row takes the place of the one with its key. -/
def upsert (t : Table κ ρ key) (r : ρ) : Table κ ρ key :=
  ⟨replaceOrAppend key r t.rows, nodup_replaceOrAppend r t.rows t.nodup⟩

@[simp] theorem mem_upsert (t : Table κ ρ key) {r x : ρ} :
    x ∈ (t.upsert r).rows ↔ x = r ∨ (x ∈ t.rows ∧ key x ≠ key r) :=
  mem_replaceOrAppend r t.rows t.nodup

theorem replaceOrAppend_of_mem {r : ρ} {l : List ρ} (hn : (l.map key).Nodup) (h : r ∈ l) :
    replaceOrAppend key r l = l := by
  induction l with
  | nil => cases h
  | cons r' l ih =>
    obtain ⟨hr, hl⟩ := List.nodup_cons.mp (by simpa only [List.map_cons] using hn)
    rw [replaceOrAppend_cons]
    rcases List.mem_cons.mp h with rfl | h
    · exact if_pos rfl
    · rw [if_neg fun he : key r' = key r ↦ hr (he ▸ List.mem_map_of_mem h), ih hl h]

/-- A row that stands already changes nothing. -/
theorem upsert_of_mem (t : Table κ ρ key) {r : ρ} (h : r ∈ t.rows) : t.upsert r = t := by
  obtain ⟨rows, hn⟩ := t
  simp only [upsert, replaceOrAppend_of_mem hn h]

@[simp] theorem find?_empty (k : κ) : (empty : Table κ ρ key).find? k = none := rfl

theorem find?_upsert (t : Table κ ρ key) (r : ρ) (k : κ) :
    (t.upsert r).find? k = if k = key r then some r else t.find? k := by
  split
  · rename_i hk
    rw [find?_eq_some_iff, mem_upsert]
    exact ⟨.inl rfl, hk.symm⟩
  · rename_i hk
    ext x
    simp only [find?_eq_some_iff, mem_upsert]
    constructor
    · rintro ⟨rfl | ⟨hx, -⟩, rfl⟩
      · exact absurd rfl hk
      · exact ⟨hx, rfl⟩
    · rintro ⟨hx, rfl⟩
      exact ⟨.inr ⟨hx, hk⟩, rfl⟩

theorem find?_deleteWhere (t : Table κ ρ key) (p : ρ → Bool) (k : κ) :
    (t.deleteWhere p).find? k = (t.find? k).filter (fun r ↦ !p r) := by
  ext x
  simp only [find?_eq_some_iff, mem_deleteWhere, Option.filter_eq_some_iff, Bool.not_eq_true']
  tauto

theorem find?_update (t : Table κ ρ key) (f : ρ → ρ) (hf : ∀ r, key (f r) = key r) (k : κ) :
    (t.update f hf).find? k = (t.find? k).map f := by
  ext x
  simp only [find?_eq_some_iff, mem_update, Option.map_eq_some_iff]
  constructor
  · rintro ⟨⟨r, hr, rfl⟩, rfl⟩
    exact ⟨r, ⟨hr, (hf r).symm⟩, rfl⟩
  · rintro ⟨r, ⟨hr, rfl⟩, rfl⟩
    exact ⟨⟨r, hr, rfl⟩, hf r⟩

end Keys

end Table

end FolderClient.Library.Tables
