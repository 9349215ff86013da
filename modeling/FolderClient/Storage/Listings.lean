import FolderClient.Storage.TreeRuns

namespace FolderClient.Storage.Listings

open FolderClient.Core.Namespace FolderClient.Core.Changes FolderClient.Storage.Basic
open FolderClient.Library.Tables FolderClient.Library.Results FolderClient.Storage.Namespace
open FolderClient.Storage.Tree FolderClient.Storage.Effects FolderClient.Storage.TreeRuns

variable {s s' : Store}

theorem children_eq_ok {container : Container} (h : s.containerKnown container = true) :
    s.children container = .ok (oldListing s container) := by
  rw [Store.children, if_pos h]
  rfl

theorem known_of_state (ht : Rooted s) {c : Container} {state : ContainerState}
    (h : s.containerStateOf c = some state) : s.containerKnown c = true := by
  obtain ⟨row, hrow, -⟩ := Option.map_eq_some_iff.mp h
  obtain ⟨hm, rfl⟩ := (s.containerState.find?_eq_some_iff).mp hrow
  exact ht.stateKnown row hm

theorem containerStateOf_upsert (t : Table Container StateRow (·.container)) (c d : Container)
    (state : ContainerState) :
    ((t.upsert ⟨d, state⟩).find? c).map (·.state) =
      if c = d then some state else (t.find? c).map (·.state) := by
  rw [Table.find?_upsert]
  split <;> rfl

section Replaced

variable {unicode : Unicode} {container : Container} {fresh gone : List Entry}
  {state : ContainerState}

theorem containerStateOf_of_replaced (h : Replaced unicode s s' container fresh state gone)
    (c : Container) :
    s'.containerStateOf c =
      if c = container then some state
      else if dropped s container fresh (.container c) then none else s.containerStateOf c := by
  rw [Store.containerStateOf, h.states, containerStateOf_upsert]
  split
  · rfl
  · rw [prune, Table.find?_deleteWhere]
    cases hf : s.containerState.find? c with
    | none => simp [Store.containerStateOf, hf]
    | some row =>
      obtain ⟨-, rfl⟩ := (s.containerState.find?_eq_some_iff).mp hf
      by_cases hd : dropped s container fresh (.container row.container) = true
      · simp [hd]
      · simp [Store.containerStateOf, hf, hd]

/-- The listing of a container is the fresh one once it has been replaced. -/
theorem mem_replaced (h : Replaced unicode s s' container fresh state gone) {e : Entry} :
    e ∈ oldListing s' container ↔ e ∈ fresh := by
  rw [oldListing, mem_readChildren]
  constructor
  · rintro ⟨r, hr, he, hc⟩
    rcases (h.rows r).mp hr with ⟨hr, hn⟩ | hr
    · exact absurd hc (survivor_not_child h hr hn)
    · exact he ▸ (mem_freshRows hr).2.1
  · intro he
    rw [← map_entry_freshRows container 0 fresh] at he
    obtain ⟨r, hr, he⟩ := List.mem_map.mp he
    exact ⟨r, (h.rows r).mpr (.inr hr), he, (mem_freshRows hr).1⟩

/-- What stands directly below a container goes only together with the container. -/
theorem within_parent {i j : EntryIdentifier} {c : Container} (h : within i j = true)
    (hj : j.parent = some c) : j = i ∨ within i (.container c) = true := by
  rcases within_iff.mp h with h | ⟨b, hb, hm⟩
  · exact .inl h
  · refine .inr ?_
    rw [EntryIdentifier.ancestors_of_parent hj, List.mem_cons] at hm
    rcases hm with rfl | hm
    · exact within_iff.mpr (.inl hb.symm)
    · refine within_iff.mpr (.inr ⟨b, hb, ?_⟩)
      rw [EntryIdentifier.ancestors_container]
      exact hm

/-- Replacing a listing leaves every other container that is not dropped as it was. -/
theorem mem_replaced_of_ne (ht : Rooted s) (h : Replaced unicode s s' container fresh state gone)
    {c : Container} (hc : c ≠ container)
    (hd : dropped s container fresh (.container c) = false) {e : Entry} :
    e ∈ oldListing s' c ↔ e ∈ oldListing s c := by
  rw [oldListing, oldListing, mem_readChildren, mem_readChildren]
  constructor
  · rintro ⟨r, hr, he, hp⟩
    rcases (h.rows r).mp hr with ⟨hr, -⟩ | hr
    · exact ⟨r, (mem_prune_entry.mp hr).1, he, hp⟩
    · exact absurd (hp.symm.trans (mem_freshRows hr).1) hc
  · rintro ⟨r, hr, he, hp⟩
    have hplaced : r.entry.identifier.parent = some c := hp ▸ ht.placed r hr
    refine ⟨r, (h.rows r).mpr (.inl ⟨mem_prune_entry.mpr ⟨hr, ?_⟩, ?_⟩), he, hp⟩
    · rw [← Bool.not_eq_true]
      intro hdr
      obtain ⟨e', he', hw⟩ := List.any_eq_true.mp hdr
      obtain hi | hw := within_parent hw hplaced
      · have ho := ((mem_missing (identifiers_oldListing s container)
          h.checked.identifiers).mp he').1
        obtain ⟨r', hr', rfl, hp'⟩ := mem_readChildren.mp ho
        have hplaced' := ht.placed r' hr'
        rw [← hi, hplaced, hp'] at hplaced'
        exact hc (Option.some.inj hplaced')
      · have hd' : dropped s container fresh (.container c) = true :=
          List.any_eq_true.mpr ⟨e', he', hw⟩
        exact Bool.false_ne_true (hd.symm.trans hd')
    · intro e' he' hi
      have hplaced' := h.checked.parent e' he'
      rw [hi, hplaced] at hplaced'
      exact hc (Option.some.inj hplaced')

end Replaced

/-- What a fresh listing loses on the way into the store has a tombstone. -/
theorem erased_of_left_out {new : List Entry} {fetched : Timestamp} {e : Entry} (he : e ∈ new)
    (hn : e ∉ withoutErased s new fetched) :
    ∃ document, e.identifier.document? = some document ∧
      s.erased.contains document = true := by
  rw [withoutErased, List.mem_filter, not_and] at hn
  specialize hn he
  cases hd : e.identifier.document? with
  | none => simp [hd] at hn
  | some document =>
    refine ⟨document, rfl, ?_⟩
    have hm : document ∈ s.effectiveErasure fetched := by simpa [hd] using hn
    obtain ⟨r, hr, rfl⟩ := List.mem_map.mp hm
    exact (s.erased.contains_iff).mpr ⟨r, ((Table.mem_select _).mp hr).1, rfl⟩

section Erased

variable {document : DocumentIdentifier} {now : Timestamp} {out : List JournalEntry}

theorem erased_removeDocumentEverywhere
    (h : s.removeDocumentEverywhere document now = .ok (out, s')) (d : DocumentIdentifier) :
    s'.erased.contains d = (decide (d = document) || s.erased.contains d) := by
  have hframe := (appendJournal_eq_ok h).2.1
  rw [hframe]
  rw [Table.contains]
  simp only [Store.redactJournal, Table.find?_upsert]
  by_cases hd : d = document
  · simp [hd]
  · simp [hd, Table.contains]

/-- An erasure takes exactly the places of its document away. -/
theorem mem_erased (ht : Rooted s)
    (h : s.removeDocumentEverywhere document now = .ok (out, s')) {c : Container} {e : Entry} :
    e ∈ oldListing s' c ↔ e ∈ oldListing s c ∧ e.identifier.document? ≠ some document := by
  rw [oldListing, oldListing, mem_readChildren, mem_readChildren,
    (removeDocumentEverywhere_eq_ok h).2.1]
  constructor
  · rintro ⟨r, hr, he, hp⟩
    obtain ⟨hr, hd⟩ := (Table.mem_deleteWhere _).mp hr
    refine ⟨⟨r, hr, he, hp⟩, ?_⟩
    rw [← he, ← ht.document r hr]
    simpa using hd
  · rintro ⟨⟨r, hr, he, hp⟩, hd⟩
    refine ⟨r, (Table.mem_deleteWhere _).mpr ⟨hr, ?_⟩, he, hp⟩
    rw [← he, ← ht.document r hr] at hd
    simpa using hd

end Erased

end FolderClient.Storage.Listings
