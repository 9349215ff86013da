import FolderClient.Storage.Runs

namespace FolderClient.Storage.TreeRuns

open FolderClient.Core.Namespace FolderClient.Core.Changes FolderClient.Storage.Basic
open FolderClient.Library.Tables FolderClient.Storage.Namespace FolderClient.Storage.Tree
open FolderClient.Storage.Effects FolderClient.Storage.Runs

variable {unicode : Unicode} {s s' : Store}

/-- The stored tree is rooted, and no container holds two names that count as equal. -/
structure WellFormed (unicode : Unicode) (s : Store) : Prop where
  rooted : Rooted s
  names : ∀ r ∈ s.entry.rows, ∀ r' ∈ s.entry.rows, r.parent = r'.parent →
    comparisonForm unicode r.entry.name = comparisonForm unicode r'.entry.name → r = r'

section Replaced

variable {container : Container} {fresh gone : List Entry} {state : ContainerState}

theorem mem_freshRows_unique {place : ℕ} {l : List Entry} (hn : (l.map Entry.identifier).Nodup)
    {r r' : EntryRow} (h : r ∈ freshRows container place l) (h' : r' ∈ freshRows container place l)
    (he : r.entry = r'.entry) : r = r' := by
  refine List.inj_on_of_nodup_map (f := fun r ↦ r.entry.identifier) ?_ h h' (by rw [he])
  have hm := map_entry_freshRows container place l
  rw [← hm, List.map_map] at hn
  exact hn

/-- What is left below the container after the removals is in the fresh listing. -/
theorem survivor_not_child (h : Replaced unicode s s' container fresh state gone)
    {r : EntryRow} (hr : r ∈ (prune (dropped s container fresh) s).entry.rows)
    (hn : ∀ e ∈ fresh, e.identifier ≠ r.entry.identifier) : r.parent ≠ container := by
  intro hc
  obtain ⟨hr, hd⟩ := mem_prune_entry.mp hr
  have ho : r.entry ∈ oldListing s container := mem_readChildren.mpr ⟨r, hr, rfl, hc⟩
  have hm := (mem_missing (identifiers_oldListing s container) h.checked.identifiers).mpr
    ⟨ho, fun e he heq ↦ hn e he heq⟩
  have hd' : dropped s container fresh r.entry.identifier = true :=
    List.any_eq_true.mpr ⟨r.entry, hm, within_iff.mpr (.inl rfl)⟩
  exact Bool.false_ne_true (hd.symm.trans hd')

theorem known_of_known_pruned (h : Replaced unicode s s' container fresh state gone)
    {c : Container} (hc : (prune (dropped s container fresh) s).containerKnown c = true) :
    s'.containerKnown c = true := by
  rcases containerKnown_iff.mp hc with rfl | ⟨r, hr, hi⟩
  · exact containerKnown_iff.mpr (.inl rfl)
  · refine containerKnown_iff.mpr (.inr ?_)
    by_cases hf : ∃ e ∈ fresh, e.identifier = r.entry.identifier
    · obtain ⟨e, he, heq⟩ := hf
      obtain ⟨r', hr', rfl⟩ : ∃ r' ∈ freshRows container 0 fresh, r'.entry = e := by
        rw [← map_entry_freshRows container 0 fresh] at he
        exact List.mem_map.mp he
      exact ⟨r', (h.rows r').mpr (.inr hr'), heq.trans hi⟩
    · exact ⟨r, (h.rows r).mpr (.inl ⟨hr, fun e he heq ↦ hf ⟨e, he, heq⟩⟩), hi⟩

theorem rooted_of_replaced (ht : Rooted s)
    (h : Replaced unicode s s' container fresh state gone) : Rooted s' := by
  have hp := ht.prune (closed_any _ _ : Closed (dropped s container fresh))
  have hknown : s'.containerKnown container = true := by
    refine known_of_known_pruned h ?_
    rcases containerKnown_iff.mp h.known with rfl | ⟨r, hr, hi⟩
    · exact containerKnown_iff.mpr (.inl rfl)
    · refine containerKnown_iff.mpr (.inr ⟨r, mem_prune_entry.mpr ⟨hr, ?_⟩, hi⟩)
      rw [hi]
      exact not_dropped_container ht h.checked.identifiers
  refine ⟨?_, ?_, ?_, ?_⟩
  · intro r hr
    rcases (h.rows r).mp hr with ⟨hr, -⟩ | hr
    · exact hp.placed r hr
    · obtain ⟨hc, he, -⟩ := mem_freshRows hr
      rw [hc]
      exact h.checked.parent _ he
  · intro r hr
    rcases (h.rows r).mp hr with ⟨hr, -⟩ | hr
    · exact hp.document r hr
    · exact (mem_freshRows hr).2.2
  · intro r hr
    rcases (h.rows r).mp hr with ⟨hr, -⟩ | hr
    · exact known_of_known_pruned h (hp.known r hr)
    · rw [(mem_freshRows hr).1]
      exact hknown
  · intro r hr
    rw [h.states, Table.mem_upsert] at hr
    rcases hr with rfl | ⟨hr, -⟩
    · exact hknown
    · exact known_of_known_pruned h (hp.stateKnown r hr)

theorem names_of_replaced (hw : WellFormed unicode s)
    (h : Replaced unicode s s' container fresh state gone) :
    ∀ r ∈ s'.entry.rows, ∀ r' ∈ s'.entry.rows, r.parent = r'.parent →
      comparisonForm unicode r.entry.name = comparisonForm unicode r'.entry.name → r = r' := by
  intro r hr r' hr' hpar hname
  rcases (h.rows r).mp hr with ⟨hr, hn⟩ | hr <;> rcases (h.rows r').mp hr' with ⟨hr', hn'⟩ | hr'
  · exact hw.names r (mem_prune_entry.mp hr).1 r' (mem_prune_entry.mp hr').1 hpar hname
  · exact absurd (hpar.trans (mem_freshRows hr').1) (survivor_not_child h hr hn)
  · exact absurd (hpar.symm.trans (mem_freshRows hr).1) (survivor_not_child h hr' hn')
  · refine mem_freshRows_unique h.checked.identifiers hr hr' ?_
    exact List.inj_on_of_nodup_map h.checked.names (mem_freshRows hr).2.1 (mem_freshRows hr').2.1
      hname

end Replaced

theorem rooted_of_erased (ht : Rooted s) {document : DocumentIdentifier}
    (h : s' = { s with
      entry := s.entry.deleteWhere (·.document = some document)
      erased := s'.erased, journal := s'.journal, journalState := s'.journalState }) :
    Rooted s' := by
  have hrows : ∀ r, r ∈ s'.entry.rows ↔ r ∈ s.entry.rows ∧ r.document ≠ some document := by
    intro r
    rw [h]
    simp
  have hknown : ∀ c, s.containerKnown c = true → s'.containerKnown c = true := by
    intro c hc
    rcases containerKnown_iff.mp hc with rfl | ⟨r, hr, hi⟩
    · exact containerKnown_iff.mpr (.inl rfl)
    · refine containerKnown_iff.mpr (.inr ⟨r, (hrows r).mpr ⟨hr, ?_⟩, hi⟩)
      rw [ht.document r hr, hi]
      exact fun h ↦ nomatch h
  refine ⟨?_, ?_, ?_, ?_⟩
  · exact fun r hr ↦ ht.placed r ((hrows r).mp hr).1
  · exact fun r hr ↦ ht.document r ((hrows r).mp hr).1
  · exact fun r hr ↦ hknown _ (ht.known r ((hrows r).mp hr).1)
  · intro r hr
    rw [h] at hr
    exact hknown _ (ht.stateKnown r hr)

theorem wellFormed_of_empty (he : s.entry.rows = []) (hs : s.containerState.rows = []) :
    WellFormed unicode s := by
  refine ⟨⟨?_, ?_, ?_, ?_⟩, ?_⟩
  · simp [he]
  · simp [he]
  · simp [he]
  · simp [hs]
  · simp [he]

theorem wellFormed_performed (hw : WellFormed unicode s) {operation : Operation}
    {out : List JournalEntry} (h : Performed unicode s operation (out, s')) :
    WellFormed unicode s' := by
  cases h with
  | replaceContainer gone h =>
    exact ⟨rooted_of_replaced hw.rooted h, names_of_replaced hw h⟩
  | updateContainerState hk =>
    refine ⟨⟨hw.rooted.placed, hw.rooted.document, hw.rooted.known, fun r hr ↦ ?_⟩, hw.names⟩
    rcases (Table.mem_upsert _).mp hr with rfl | ⟨hr, -⟩
    · exact hk
    · exact hw.rooted.stateKnown r hr
  | removeDocumentEverywhere hs _ =>
    refine ⟨rooted_of_erased hw.rooted hs, fun r hr r' hr' ↦ ?_⟩
    rw [hs] at hr hr'
    exact hw.names r ((Table.mem_deleteWhere _).mp hr).1 r' ((Table.mem_deleteWhere _).mp hr').1
  | emptyNamespace => exact wellFormed_of_empty rfl rfl
  | clearErasure =>
    exact ⟨⟨hw.rooted.placed, hw.rooted.document, hw.rooted.known, hw.rooted.stateKnown⟩,
      hw.names⟩
  | reopen =>
    exact ⟨⟨hw.rooted.placed, hw.rooted.document, hw.rooted.known, hw.rooted.stateKnown⟩,
      hw.names⟩

theorem wellFormed_perform (hw : WellFormed unicode s) (operation : Operation) :
    WellFormed unicode (perform unicode s operation) := by
  rcases outcome_cases unicode hw.rooted operation with h | h
  · rw [perform, h]
    exact hw
  · exact wellFormed_performed hw h

theorem wellFormed_run (hw : WellFormed unicode s) (operations : List Operation) :
    WellFormed unicode (run unicode s operations) := by
  induction operations generalizing s with
  | nil => exact hw
  | cons operation operations ih => exact ih (wellFormed_perform hw operation)

theorem wellFormed_setUp (unicode : Unicode) (n limit : ℕ) :
    WellFormed unicode (Store.setUp n limit) := wellFormed_of_empty rfl rfl

/-- The tree invariant of every reachable store. -/
theorem tree_of_every_run (unicode : Unicode) (n limit : ℕ) (operations : List Operation) :
    let s := run unicode (Store.setUp n limit) operations
    (∀ r ∈ s.entry.rows, r.parent = .root ∨
      ∃ r' ∈ s.entry.rows, r'.entry.identifier = .container r.parent) ∧
    (∀ r ∈ s.entry.rows, r.entry.identifier.parent = some r.parent) ∧
    (∀ c, (((s.readChildren c).map Prod.fst).map Entry.identifier).Nodup) ∧
    (∀ c, (((s.readChildren c).map Prod.fst).map fun e ↦ comparisonForm unicode e.name).Nodup) ∧
    (∀ r ∈ s.containerState.rows, r.container = .root ∨
      ∃ r' ∈ s.entry.rows, r'.entry.identifier = .container r.container) := by
  intro s
  have hw : WellFormed unicode s := wellFormed_run (wellFormed_setUp unicode n limit) operations
  refine ⟨?_, hw.rooted.placed, fun c ↦ identifiers_oldListing s c, fun c ↦ ?_, ?_⟩
  · exact fun r hr ↦ containerKnown_iff.mp (hw.rooted.known r hr)
  · have hinj : ∀ e ∈ oldListing s c, ∀ e' ∈ oldListing s c,
        comparisonForm unicode e.name = comparisonForm unicode e'.name → e = e' := by
      intro e he e' he' hname
      obtain ⟨r, hr, rfl, hc⟩ := mem_readChildren.mp he
      obtain ⟨r', hr', rfl, hc'⟩ := mem_readChildren.mp he'
      rw [hw.names r hr r' hr' (hc.trans hc'.symm) hname]
    exact (List.nodup_map_iff_inj_on (.of_map _ (identifiers_oldListing s c))).mpr hinj
  · exact fun r hr ↦ containerKnown_iff.mp (hw.rooted.stateKnown r hr)

end FolderClient.Storage.TreeRuns
