import FolderClient.Storage.Namespace

namespace FolderClient.Storage.Tree

open FolderClient.Core.Namespace FolderClient.Core.Changes FolderClient.Storage.Basic
open FolderClient.Library.Tables FolderClient.Storage.Namespace

/-- The shape of the stored tree: every row stands where its identifier says, below a container
that is known, and only known containers have a state. -/
structure Rooted (s : Store) : Prop where
  placed : ∀ r ∈ s.entry.rows, r.entry.identifier.parent = some r.parent
  document : ∀ r ∈ s.entry.rows, r.document = r.entry.identifier.document?
  known : ∀ r ∈ s.entry.rows, s.containerKnown r.parent = true
  stateKnown : ∀ r ∈ s.containerState.rows, s.containerKnown r.container = true

theorem containerKnown_iff {s : Store} {c : Container} :
    s.containerKnown c = true ↔
      c = .root ∨ ∃ r ∈ s.entry.rows, r.entry.identifier = .container c := by
  simp [Store.containerKnown, Table.contains_iff]

/-- The entries of a subtree: its top and everything below it. -/
def within (i j : EntryIdentifier) : Bool := j = i || i.container?.any (· ∈ j.ancestors)

theorem within_iff {i j : EntryIdentifier} :
    within i j = true ↔ j = i ∨ ∃ b, i = .container b ∧ b ∈ j.ancestors := by
  simp only [within, Bool.or_eq_true, decide_eq_true_eq, Option.any_eq_true,
    EntryIdentifier.container?_eq_some]

theorem within_of_parent {i j : EntryIdentifier} {c : Container} (h : within i (.container c) = true)
    (hj : j.parent = some c) : within i j = true := by
  rw [within_iff] at h ⊢
  right
  rcases h with h | ⟨b, rfl, hb⟩
  · exact ⟨c, h.symm, by rw [EntryIdentifier.ancestors_of_parent hj]; exact List.mem_cons_self⟩
  · refine ⟨b, rfl, ?_⟩
    rw [EntryIdentifier.ancestors_container] at hb
    rw [EntryIdentifier.ancestors_of_parent hj]
    exact List.mem_cons_of_mem _ hb

/-- A set of entries that contains with a container everything directly below it. -/
def Closed (p : EntryIdentifier → Bool) : Prop :=
  ∀ i c, p (.container c) = true → EntryIdentifier.parent i = some c → p i = true

theorem closed_within (i : EntryIdentifier) : Closed (within i) :=
  fun _ _ h hp ↦ within_of_parent h hp

theorem closed_any {α : Type} (l : List α) (f : α → EntryIdentifier) :
    Closed fun j ↦ l.any fun a ↦ within (f a) j := by
  intro i c h hp
  obtain ⟨a, ha, hw⟩ := List.any_eq_true.mp h
  exact List.any_eq_true.mpr ⟨a, ha, within_of_parent hw hp⟩

/-- Takes a set of entries out of the store, with the states of its containers. -/
def prune (p : EntryIdentifier → Bool) (s : Store) : Store :=
  { s with
    entry := s.entry.deleteWhere fun r ↦ p r.entry.identifier
    containerState := s.containerState.deleteWhere fun r ↦ p (.container r.container) }

theorem mem_prune_entry {p : EntryIdentifier → Bool} {s : Store} {r : EntryRow} :
    r ∈ (prune p s).entry.rows ↔ r ∈ s.entry.rows ∧ p r.entry.identifier = false := by
  simp [prune]

theorem prune_prune (p q : EntryIdentifier → Bool) (s : Store) :
    prune q (prune p s) = prune (fun i ↦ p i || q i) s := by
  simp only [prune, Table.deleteWhere, List.filter_filter, Bool.not_or, Bool.and_comm]

theorem prune_congr {p q : EntryIdentifier → Bool} {s : Store}
    (he : ∀ r ∈ s.entry.rows, p r.entry.identifier = q r.entry.identifier)
    (hs : ∀ r ∈ s.containerState.rows, p (.container r.container) = q (.container r.container)) :
    prune p s = prune q s := by
  simp only [prune, Table.deleteWhere, Store.mk.injEq, Table.mk.injEq, and_true]
  exact ⟨List.filter_congr fun r hr ↦ by rw [he r hr],
    List.filter_congr fun r hr ↦ by rw [hs r hr]⟩

theorem Rooted.prune {s : Store} (ht : Rooted s) {p : EntryIdentifier → Bool} (hp : Closed p) :
    Rooted (Tree.prune p s) := by
  have hknown : ∀ {c : Container}, s.containerKnown c = true →
      (∀ r ∈ s.entry.rows, r.entry.identifier = .container c → p (.container c) = false) →
      (Tree.prune p s).containerKnown c = true := by
    intro c hc hr
    rcases containerKnown_iff.mp hc with rfl | ⟨r, hm, hi⟩
    · exact containerKnown_iff.mpr (.inl rfl)
    · exact containerKnown_iff.mpr (.inr ⟨r, mem_prune_entry.mpr ⟨hm, by rw [hi, hr r hm hi]⟩, hi⟩)
  refine ⟨?_, ?_, ?_, ?_⟩
  · intro r hr
    exact ht.placed r (mem_prune_entry.mp hr).1
  · intro r hr
    exact ht.document r (mem_prune_entry.mp hr).1
  · intro r hr
    obtain ⟨hm, hn⟩ := mem_prune_entry.mp hr
    refine hknown (ht.known r hm) fun _ _ _ ↦ ?_
    by_contra h
    exact Bool.false_ne_true (hn.symm.trans
      (hp _ _ (by simpa using h) (ht.placed r hm)))
  · intro r hr
    have hm : r ∈ s.containerState.rows ∧ p (.container r.container) = false := by
      simpa [Tree.prune] using hr
    exact hknown (ht.stateKnown r hm.1) fun _ _ _ ↦ hm.2

/-- Above a known container everything is known. -/
theorem Rooted.ancestor_known {s : Store} (ht : Rooted s) {b c : Container}
    (hc : s.containerKnown c = true) (hb : b ∈ c.ancestors) : s.containerKnown b = true := by
  induction hd : c.depth generalizing c with
  | zero =>
    have h := Container.depth_lt_of_mem_ancestors hb
    omega
  | succ n ih =>
    rcases containerKnown_iff.mp hc with rfl | ⟨r, hr, hi⟩
    · cases hd
    · have hp : c.parent = some r.parent := by
        have h := ht.placed r hr
        rwa [hi] at h
      have hk := ht.known r hr
      rw [Container.ancestors_of_parent hp, List.mem_cons] at hb
      rcases hb with rfl | hb
      · exact hk
      · refine ih hk hb ?_
        have h := Container.depth_of_parent hp
        omega

/-- The removal of one entry with everything below it, as both loops of the store do it. -/
def removeWith (depth : ℕ) (s : Store) (entry : Entry) : List Change × Store :=
  let (gone, s) := match entry.identifier.container? with
    | some below => s.removeDescendant depth below
    | none => ([], s)
  (gone ++ [.removed entry], s.deleteEntry entry.identifier)

/-- What a removal does: the entries of `p` leave the store, each with a change of its own. -/
def Removes (p : EntryIdentifier → Bool) (s : Store) (out : List Change)
    (result : List Change × Store) : Prop :=
  ∃ gone : List Entry, result = (out ++ gone.map .removed, prune p s) ∧
    ∀ e, e ∈ gone ↔ ∃ r ∈ s.entry.rows, p r.entry.identifier = true ∧ r.entry = e

/-- The siblings still to be removed stand in the store below one container. -/
def Siblings (s : Store) (c : Container) (todo : List Entry) : Prop :=
  (todo.map Entry.identifier).Nodup ∧
    ∀ e ∈ todo, ∃ r ∈ s.entry.rows, r.entry = e ∧ r.parent = c

theorem not_within_sibling {i j : EntryIdentifier} {c : Container} (hi : i.parent = some c)
    (hj : j.parent = some c) (hne : j ≠ i) : within i j = false := by
  rw [← Bool.not_eq_true, within_iff]
  rintro (h | ⟨b, rfl, hb⟩)
  · exact hne h
  · have hdb : b.depth = c.depth + 1 := Container.depth_of_parent hi
    rw [EntryIdentifier.ancestors_of_parent hj, List.mem_cons] at hb
    rcases hb with rfl | hb
    · omega
    · have h := Container.depth_lt_of_mem_ancestors hb
      omega

theorem removes_fold {rm : Store → Entry → List Change × Store} {c : Container}
    (hrm : ∀ s e, Rooted s → (∃ r ∈ s.entry.rows, r.entry = e ∧ r.parent = c) →
      Removes (within e.identifier) s [] (rm s e))
    (todo : List Entry) (s : Store) (ht : Rooted s) (hs : Siblings s c todo)
    (out : List Change) :
    Removes (fun j ↦ todo.any fun e ↦ within e.identifier j) s out
      (todo.foldl (fun a e ↦ (a.1 ++ (rm a.2 e).1, (rm a.2 e).2)) (out, s)) := by
  induction todo generalizing s out with
  | nil =>
    refine ⟨[], ?_, by simp⟩
    simp [prune, Table.deleteWhere]
  | cons e todo ih =>
    obtain ⟨hn, hm⟩ := hs
    obtain ⟨hen, hn⟩ := List.nodup_cons.mp (by simpa only [List.map_cons] using hn)
    obtain ⟨gone, hgone, hmem⟩ := hrm s e ht (hm e List.mem_cons_self)
    have hpar : ∀ e' ∈ e :: todo, e'.identifier.parent = some c := by
      intro e' he'
      obtain ⟨r, hr, rfl, rfl⟩ := hm e' he'
      exact ht.placed r hr
    have hrest : Siblings (prune (within e.identifier) s) c todo := by
      refine ⟨hn, fun e' he' ↦ ?_⟩
      obtain ⟨r, hr, rfl, hc⟩ := hm e' (List.mem_cons_of_mem _ he')
      refine ⟨r, mem_prune_entry.mpr ⟨hr, ?_⟩, rfl, hc⟩
      refine not_within_sibling (hpar _ List.mem_cons_self)
        (hpar _ (List.mem_cons_of_mem _ he')) fun h ↦ hen ?_
      exact h ▸ List.mem_map_of_mem he'
    have ht' := ht.prune (closed_within e.identifier)
    obtain ⟨gone', hgone', hmem'⟩ := ih _ ht' hrest (out ++ gone.map .removed)
    rw [List.foldl_cons, hgone, List.nil_append, hgone', prune_prune]
    refine ⟨gone ++ gone', by simp only [List.map_append, List.append_assoc, List.any_cons],
      fun e' ↦ ?_⟩
    simp only [List.mem_append, hmem, hmem', mem_prune_entry, List.any_cons, Bool.or_eq_true]
    constructor
    · rintro (⟨r, hr, hw, he⟩ | ⟨r, ⟨hr, -⟩, hw, he⟩)
      · exact ⟨r, hr, .inl hw, he⟩
      · exact ⟨r, hr, .inr hw, he⟩
    · rintro ⟨r, hr, hw, he⟩
      by_cases hwe : within e.identifier r.entry.identifier = true
      · exact .inl ⟨r, hr, hwe, he⟩
      · exact .inr ⟨r, ⟨hr, by simpa using hwe⟩, hw.resolve_left hwe, he⟩

theorem mem_readChildren {s : Store} {c : Container} {e : Entry} :
    e ∈ (s.readChildren c).map Prod.fst ↔ ∃ r ∈ s.entry.rows, r.entry = e ∧ r.parent = c := by
  simp only [Store.readChildren, List.map_map, List.mem_map, List.mem_insertionSort,
    Table.mem_select, decide_eq_true_eq, Function.comp_apply]
  constructor
  · rintro ⟨r, ⟨hr, hc⟩, he⟩
    exact ⟨r, hr, he, hc⟩
  · rintro ⟨r, hr, he, hc⟩
    exact ⟨r, ⟨hr, hc⟩, he⟩

theorem siblings_readChildren (s : Store) (c : Container) :
    Siblings s c ((s.readChildren c).map Prod.fst) := by
  refine ⟨?_, fun e he ↦ mem_readChildren.mp he⟩
  have hp := ((s.entry.select (·.parent = c)).perm_insertionSort rowLe).map (·.entry.identifier)
  have hn : ((s.entry.select (·.parent = c)).map (·.entry.identifier)).Nodup :=
    s.entry.nodup.sublist (List.filter_sublist.map _)
  simpa only [Store.readChildren, List.map_map, Function.comp_def] using hp.nodup_iff.mpr hn

/-- A subtree's rows are exactly those with the container above them. -/
theorem any_within_children {s : Store} (ht : Rooted s) {c : Container} {j : EntryIdentifier}
    (hj : ∀ b, j.parent = some b → s.containerKnown b = true)
    (hrow : j.parent = some c → ∃ r ∈ s.entry.rows, r.entry.identifier = j ∧ r.parent = c) :
    (((s.readChildren c).map Prod.fst).any fun e ↦ within e.identifier j) =
      decide (c ∈ j.ancestors) := by
  rw [Bool.eq_iff_iff, List.any_eq_true, decide_eq_true_eq]
  constructor
  · rintro ⟨e, he, hw⟩
    obtain ⟨r, hr, rfl, rfl⟩ := mem_readChildren.mp he
    have hp := ht.placed r hr
    rcases within_iff.mp hw with rfl | ⟨b, hb, hmem⟩
    · rw [EntryIdentifier.ancestors_of_parent hp]
      exact List.mem_cons_self
    · rw [hb] at hp
      exact EntryIdentifier.mem_ancestors_of_mem hmem hp
  · intro hc
    rcases EntryIdentifier.exists_child_above hc with hp | ⟨b, hb, hmem⟩
    · obtain ⟨r, hr, hi, hrc⟩ := hrow hp
      exact ⟨r.entry, mem_readChildren.mpr ⟨r, hr, rfl, hrc⟩, within_iff.mpr (.inl hi.symm)⟩
    · have hk : s.containerKnown b = true := by
        cases hp : j.parent with
        | none => simp [EntryIdentifier.ancestors, hp] at hmem
        | some p =>
          rw [EntryIdentifier.ancestors_of_parent hp, List.mem_cons] at hmem
          rcases hmem with rfl | hmem
          · exact hj _ hp
          · exact ht.ancestor_known (hj _ hp) hmem
      rcases containerKnown_iff.mp hk with rfl | ⟨r, hr, hi⟩
      · cases hb
      · have hrc : r.parent = c := by
          have h := ht.placed r hr
          rw [hi] at h
          exact Option.some.inj (h.symm.trans hb)
        exact ⟨r.entry, mem_readChildren.mpr ⟨r, hr, rfl, hrc⟩,
          within_iff.mpr (.inr ⟨b, hi, hmem⟩)⟩

/-- What the recursive removal below a container does, given that the recursion is deep enough. -/
def RemovesDescendants (depth : ℕ) : Prop :=
  ∀ s c, Rooted s → 3 < depth + c.depth → ∃ gone : List Entry,
    s.removeDescendant depth c =
      (gone.map .removed, (prune (fun j ↦ c ∈ j.ancestors) s).deleteState c) ∧
    ∀ e, e ∈ gone ↔ ∃ r ∈ s.entry.rows, c ∈ r.entry.identifier.ancestors ∧ r.entry = e

theorem deleteEntry_eq_prune {s : Store} {i : EntryIdentifier} (hi : i.container? = none) :
    s.deleteEntry i = prune (within i) s := by
  have hw : ∀ j, within i j = decide (j = i) := fun j ↦ by simp [within, hi]
  have hs : s.containerState = s.containerState.deleteWhere
      fun r ↦ within i (.container r.container) := by
    have hne : ∀ c, EntryIdentifier.container c ≠ i := fun c h ↦ by
      rw [← h] at hi
      cases hi
    simp [Table.deleteWhere, hw, hne]
  rw [prune, ← hs]
  simp only [Store.deleteEntry, hw]

theorem removes_removeWith {depth : ℕ} (hdepth : RemovesDescendants depth) {s : Store} {e : Entry}
    (ht : Rooted s) (hrow : ∃ r ∈ s.entry.rows, r.entry = e)
    (hd : ∀ b, e.identifier = .container b → 3 < depth + b.depth) :
    Removes (within e.identifier) s [] (removeWith depth s e) := by
  obtain ⟨r₀, hr₀, rfl⟩ := hrow
  cases hc : r₀.entry.identifier.container? with
  | none =>
    refine ⟨[r₀.entry], ?_, fun e ↦ ?_⟩
    · simp [removeWith, hc, deleteEntry_eq_prune hc]
    · have hw : ∀ j, within r₀.entry.identifier j = decide (j = r₀.entry.identifier) :=
        fun j ↦ by simp [within, hc]
      simp only [List.mem_singleton, hw, decide_eq_true_eq]
      constructor
      · rintro rfl
        exact ⟨r₀, hr₀, rfl, rfl⟩
      · rintro ⟨r, hr, hi, rfl⟩
        rw [s.entry.eq_of_key_eq hr hr₀ hi]
  | some b =>
    have hb := EntryIdentifier.container?_eq_some.mp hc
    obtain ⟨gone, hgone, hmem⟩ := hdepth s b ht (hd b hb)
    refine ⟨gone ++ [r₀.entry], ?_, fun e ↦ ?_⟩
    · have hw : ∀ j, within (.container b) j =
          (decide (j = .container b) || decide (b ∈ j.ancestors)) :=
        fun j ↦ by simp [within, EntryIdentifier.container?]
      simp only [removeWith, hc, hgone]
      simp [hb, prune, Store.deleteEntry, Store.deleteState, Table.deleteWhere,
        List.filter_filter, hw]
    · rw [List.mem_append, hmem, List.mem_singleton, hb]
      constructor
      · rintro (⟨r, hr, hin, rfl⟩ | rfl)
        · exact ⟨r, hr, within_iff.mpr (.inr ⟨b, rfl, hin⟩), rfl⟩
        · exact ⟨r₀, hr₀, within_iff.mpr (.inl hb), rfl⟩
      · rintro ⟨r, hr, hw, rfl⟩
        rcases within_iff.mp hw with hi | ⟨b', hb', hin⟩
        · exact .inr (by rw [s.entry.eq_of_key_eq hr hr₀ (hi.trans hb.symm)])
        · cases hb'
          exact .inl ⟨r, hr, hin, rfl⟩

theorem removesDescendants (depth : ℕ) : RemovesDescendants depth := by
  induction depth with
  | zero =>
    intro s c _ hd
    have h := c.depth_le
    omega
  | succ depth ih =>
    intro s c ht hd
    have hfold : s.removeDescendant (depth + 1) c =
        (((s.readChildren c).map Prod.fst).foldl
          (fun a e ↦ (a.1 ++ (removeWith depth a.2 e).1, (removeWith depth a.2 e).2)) ([], s)).map id
          (fun s ↦ s.deleteState c) := by
      rw [List.foldl_map]
      simp only [Store.removeDescendant, removeWith, List.append_assoc]
      rfl
    obtain ⟨gone, hgone, hmem⟩ := removes_fold (c := c)
      (fun s' e ht' hstored ↦ by
        obtain ⟨r, hr, he, hc⟩ := hstored
        refine removes_removeWith ih ht' ⟨r, hr, he⟩ fun b hb ↦ ?_
        have hp := ht'.placed r hr
        rw [he, hb, hc] at hp
        have h := Container.depth_of_parent hp
        omega)
      _ s ht (siblings_readChildren s c) []
    have hrows : ∀ r ∈ s.entry.rows, (((s.readChildren c).map Prod.fst).any
        fun e ↦ within e.identifier r.entry.identifier) =
          decide (c ∈ r.entry.identifier.ancestors) := fun r hr ↦ by
      have hp := ht.placed r hr
      refine any_within_children ht (fun b hb ↦ ?_) fun hc ↦ ⟨r, hr, rfl, ?_⟩
      · exact Option.some.inj (hp.symm.trans hb) ▸ ht.known r hr
      · exact Option.some.inj (hp.symm.trans hc)
    have hstates : ∀ r ∈ s.containerState.rows, (((s.readChildren c).map Prod.fst).any
        fun e ↦ within e.identifier (.container r.container)) =
          decide (c ∈ (EntryIdentifier.container r.container).ancestors) := fun r hr ↦ by
      rcases containerKnown_iff.mp (ht.stateKnown r hr) with hroot | ⟨r', hr', hi⟩
      · rw [hroot]
        exact any_within_children ht (fun b hb ↦ (by cases hb)) fun hc ↦ (by cases hc)
      · rw [← hi]
        exact hrows r' hr'
    refine ⟨gone, ?_, fun e ↦ ?_⟩
    · rw [hfold, hgone, prune_congr (q := fun j ↦ c ∈ j.ancestors) hrows hstates]
      rfl
    · rw [hmem]
      refine exists_congr fun r ↦ and_congr_right fun hr ↦ and_congr_left fun _ ↦ ?_
      exact (Bool.eq_iff_iff.mp (hrows r hr)).trans decide_eq_true_iff

/-- The removal of a stored entry takes its whole subtree out of the store. -/
theorem removes_subtree {s : Store} {e : Entry} (ht : Rooted s)
    (hrow : ∃ r ∈ s.entry.rows, r.entry = e) :
    Removes (within e.identifier) s [] (removeWith Store.treeDepth s e) :=
  removes_removeWith (removesDescendants _) ht hrow fun b _ ↦ by
    simp only [Store.treeDepth]
    omega

end FolderClient.Storage.Tree
