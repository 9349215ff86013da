import FolderClient.Storage.JournalRuns
import FolderClient.Storage.Listings
import FolderClient.Storage.Statements

namespace FolderClient.Storage.Replacement

open FolderClient.Core.Namespace FolderClient.Core.Changes FolderClient.Storage.Basic
open FolderClient.Library.Tables FolderClient.Library.Results FolderClient.Storage.Namespace
open FolderClient.Storage.Tree FolderClient.Storage.Effects FolderClient.Storage.TreeRuns
open FolderClient.Storage.Runs FolderClient.Storage.Listings

variable {unicode : Unicode} {s s' : Store} {container : Container} {fresh gone : List Entry}
  {state : ContainerState}

section Order

/-- Nothing follows that lies within an entry already removed: each entry comes once, and after
everything below it. -/
def BottomUp (changes : List Change) : Prop :=
  changes.Pairwise fun c d ↦ within c.identifier d.identifier = false

theorem mem_ancestors_trans {b c p : Container} (hb : b ∈ p.ancestors) (hc : c ∈ b.ancestors) :
    c ∈ p.ancestors := by
  cases p <;> simp only [Container.ancestors, List.mem_cons, List.not_mem_nil, or_false] at hb
  all_goals
    rcases hb with rfl | rfl | rfl <;>
      simp only [Container.ancestors, List.mem_cons, List.not_mem_nil, or_false] at hc <;>
      simp [Container.ancestors, hc]

theorem ancestors_trans {b c : Container} {k : EntryIdentifier} (hb : b ∈ k.ancestors)
    (hc : c ∈ b.ancestors) : c ∈ k.ancestors := by
  cases hp : k.parent with
  | none => simp [EntryIdentifier.ancestors, hp] at hb
  | some p =>
    rw [EntryIdentifier.ancestors_of_parent hp, List.mem_cons] at hb ⊢
    rcases hb with rfl | hb
    · exact .inr hc
    · exact .inr (mem_ancestors_trans hb hc)

theorem within_trans {i j k : EntryIdentifier} (h : within i j = true) (h' : within j k = true) :
    within i k = true := by
  rcases within_iff.mp h' with rfl | ⟨b, hb, hm⟩
  · exact h
  · rcases within_iff.mp h with rfl | ⟨c, hc, hm'⟩
    · exact h'
    · rw [hb, EntryIdentifier.ancestors_container] at hm'
      exact within_iff.mpr (.inr ⟨c, hc, ancestors_trans hm hm'⟩)

/-- Two containers above one entry that stand equally deep are one. -/
theorem eq_of_mem_ancestors {b c : Container} {k : EntryIdentifier} (hb : b ∈ k.ancestors)
    (hc : c ∈ k.ancestors) (hd : b.depth = c.depth) : b = c := by
  have hchain : ∀ {p : Container}, b ∈ p :: p.ancestors → c ∈ p :: p.ancestors → b = c := by
    intro p hb hc
    cases p <;>
      simp only [Container.ancestors, List.mem_cons, List.not_mem_nil, or_false] at hb hc
    all_goals
      rcases hb with rfl | rfl | rfl | rfl <;> rcases hc with rfl | rfl | rfl | rfl <;>
        first | rfl | cases hd
  cases hp : k.parent with
  | none => simp [EntryIdentifier.ancestors, hp] at hb
  | some p =>
    rw [EntryIdentifier.ancestors_of_parent hp] at hb hc
    exact hchain hb hc

/-- The subtrees of siblings have nothing in common. -/
theorem not_within_both {i j k : EntryIdentifier} {c : Container} (hi : i.parent = some c)
    (hj : j.parent = some c) (hne : j ≠ i) (h : within i k = true) : within j k = false := by
  rw [← Bool.not_eq_true]
  intro h'
  rcases within_iff.mp h with rfl | ⟨b, rfl, hb⟩
  · cases (not_within_sibling hj hi (Ne.symm hne)).symm.trans h'
  · rcases within_iff.mp h' with rfl | ⟨b', rfl, hb'⟩
    · cases (not_within_sibling hi hj hne).symm.trans h
    · have hdepth : b.depth = b'.depth :=
        (Container.depth_of_parent hi).trans (Container.depth_of_parent hj).symm
      exact hne (congrArg _ (eq_of_mem_ancestors hb hb' hdepth).symm)

theorem bottomUp_fold {rm : Store → Entry → List Change × Store} {c : Container}
    (hrm : ∀ s e, Rooted s → (∃ r ∈ s.entry.rows, r.entry = e ∧ r.parent = c) →
      Removes (within e.identifier) s [] (rm s e) ∧ BottomUp (rm s e).1)
    (todo : List Entry) (s : Store) (ht : Rooted s) (hs : Siblings s c todo) (out : List Change)
    (hout : BottomUp out) (hclear : ∀ d ∈ out, ∀ e ∈ todo, ∀ j, within e.identifier j = true →
      within d.identifier j = false) :
    BottomUp (todo.foldl (fun a e ↦ (a.1 ++ (rm a.2 e).1, (rm a.2 e).2)) (out, s)).1 := by
  induction todo generalizing s out with
  | nil => exact hout
  | cons e todo ih =>
    obtain ⟨hn, hm⟩ := hs
    obtain ⟨hen, hn⟩ := List.nodup_cons.mp (by simpa only [List.map_cons] using hn)
    obtain ⟨⟨gone, hgone, hmem⟩, hdeep⟩ := hrm s e ht (hm e List.mem_cons_self)
    have hpar : ∀ e' ∈ e :: todo, e'.identifier.parent = some c := by
      intro e' he'
      obtain ⟨r, hr, rfl, rfl⟩ := hm e' he'
      exact ht.placed r hr
    have hne : ∀ e' ∈ todo, e'.identifier ≠ e.identifier :=
      fun e' he' h ↦ hen (h ▸ List.mem_map_of_mem he')
    have hrest : Siblings (prune (within e.identifier) s) c todo := by
      refine ⟨hn, fun e' he' ↦ ?_⟩
      obtain ⟨r, hr, rfl, hc⟩ := hm e' (List.mem_cons_of_mem _ he')
      refine ⟨r, mem_prune_entry.mpr ⟨hr, ?_⟩, rfl, hc⟩
      exact not_within_sibling (hpar _ List.mem_cons_self) (hpar _ (List.mem_cons_of_mem _ he'))
        (hne _ he')
    have hwithin : ∀ d ∈ (rm s e).1, within e.identifier d.identifier = true := by
      intro d hd
      rw [hgone, List.nil_append] at hd
      obtain ⟨e', he', rfl⟩ := List.mem_map.mp hd
      obtain ⟨r, -, hw, rfl⟩ := (hmem e').mp he'
      exact hw
    have hstore : (rm s e).2 = prune (within e.identifier) s := congrArg Prod.snd hgone
    rw [List.foldl_cons, hstore]
    refine ih _ (ht.prune (closed_within e.identifier)) hrest _ ?_ ?_
    · refine List.pairwise_append.mpr ⟨hout, hdeep, fun d hd d' hd' ↦ ?_⟩
      exact hclear d hd e List.mem_cons_self _ (hwithin d' hd')
    · intro d hd e' he' j hj
      rcases List.mem_append.mp hd with hd | hd
      · exact hclear d hd e' (List.mem_cons_of_mem _ he') j hj
      · rw [← Bool.not_eq_true]
        intro hdj
        cases (not_within_both (hpar _ (List.mem_cons_of_mem _ he')) (hpar _ List.mem_cons_self)
          (Ne.symm (hne e' he')) hj).symm.trans (within_trans (hwithin d hd) hdj)

theorem bottomUp_removeWith {depth : ℕ} {e : Entry}
    (hdepth : ∀ b, e.identifier = .container b →
      BottomUp (s.removeDescendant depth b).1 ∧ ∃ gone : List Entry,
        (s.removeDescendant depth b).1 = gone.map .removed ∧
          ∀ g ∈ gone, b ∈ g.identifier.ancestors) :
    BottomUp (removeWith depth s e).1 := by
  cases hc : e.identifier.container? with
  | none =>
    simp only [removeWith, hc, List.nil_append]
    exact List.pairwise_singleton ..
  | some b =>
    have hb := EntryIdentifier.container?_eq_some.mp hc
    obtain ⟨hdeep, gone, hgone, hbelow⟩ := hdepth b hb
    simp only [removeWith, hc]
    refine List.pairwise_append.mpr ⟨hdeep, List.pairwise_singleton .., fun d hd d' hd' ↦ ?_⟩
    obtain rfl := List.mem_singleton.mp hd'
    rw [hgone] at hd
    obtain ⟨g, hg, rfl⟩ := List.mem_map.mp hd
    have hbelow := hbelow g hg
    rw [← Bool.not_eq_true]
    intro hw
    have hw : within g.identifier (.container b) = true := hb ▸ hw
    rcases within_iff.mp hw with hi | ⟨b', hb', hm⟩
    · rw [← hi, EntryIdentifier.ancestors_container] at hbelow
      exact absurd (Container.depth_lt_of_mem_ancestors hbelow) (lt_irrefl _)
    · rw [hb', EntryIdentifier.ancestors_container] at hbelow
      rw [EntryIdentifier.ancestors_container] at hm
      exact absurd (Container.depth_lt_of_mem_ancestors (mem_ancestors_trans hm hbelow))
        (lt_irrefl _)

theorem bottomUp_removeDescendant (depth : ℕ) {s : Store} {c : Container} (ht : Rooted s)
    (hd : 3 < depth + c.depth) : BottomUp (s.removeDescendant depth c).1 := by
  induction depth generalizing s c with
  | zero => exact List.Pairwise.nil
  | succ depth ih =>
    have hfold : (s.removeDescendant (depth + 1) c).1 =
        (((s.readChildren c).map Prod.fst).foldl
          (fun a e ↦ (a.1 ++ (removeWith depth a.2 e).1, (removeWith depth a.2 e).2)) ([], s)).1 := by
      rw [List.foldl_map]
      simp only [Store.removeDescendant, removeWith, List.append_assoc] <;> rfl
    rw [hfold]
    refine bottomUp_fold (c := c) (fun s e ht hstored ↦ ?_) _ s ht
      (siblings_readChildren s c) [] List.Pairwise.nil fun d hd ↦ by cases hd
    obtain ⟨r, hr, he, hc⟩ := hstored
    have hdeep : ∀ b, e.identifier = .container b → 3 < depth + b.depth := by
      intro b hb
      have hp := ht.placed r hr
      rw [he, hb, hc] at hp
      have h := Container.depth_of_parent hp
      omega
    refine ⟨removes_removeWith (removesDescendants depth) ht ⟨r, hr, he⟩ hdeep,
      bottomUp_removeWith fun b hb ↦ ⟨ih ht (hdeep b hb), ?_⟩⟩
    obtain ⟨gone, hgone, hmem⟩ := removesDescendants depth s b ht (hdeep b hb)
    refine ⟨gone, congrArg Prod.fst hgone, fun g hg ↦ ?_⟩
    obtain ⟨r, -, hin, rfl⟩ := (hmem g).mp hg
    exact hin

/-- The removals of a replaced listing go from the bottom up. -/
theorem bottomUp_missing (ht : Rooted s) (container : Container)
    (hf : (fresh.map Entry.identifier).Nodup) :
    BottomUp (((missing (byIdentifier (oldListing s container)) (byIdentifier fresh)).map
      Change.removed).foldl Store.applyChange ([], s)).1 := by
  have ho := identifiers_oldListing s container
  simp only [List.foldl_map, applyChange_removed]
  refine bottomUp_fold (c := container) (fun s e ht ⟨r, hr, he, _⟩ ↦ ?_) _ s ht ⟨?_, ?_⟩ []
    List.Pairwise.nil fun d hd ↦ by cases hd
  · have hdeep : ∀ b : Container, 3 < Store.treeDepth + b.depth := fun b ↦ by
      simp only [Store.treeDepth]
      omega
    refine ⟨removes_subtree ht ⟨r, hr, he⟩, bottomUp_removeWith fun b _ ↦
      ⟨bottomUp_removeDescendant _ ht (hdeep b), ?_⟩⟩
    obtain ⟨gone, hgone, hmem⟩ := removesDescendants Store.treeDepth s b ht (hdeep b)
    refine ⟨gone, congrArg Prod.fst hgone, fun g hg ↦ ?_⟩
    obtain ⟨r, -, hin, rfl⟩ := (hmem g).mp hg
    exact hin
  · exact nodup_missing ho _
  · intro e he
    exact mem_readChildren.mp ((mem_missing ho hf).mp he).1

end Order

section Listing

theorem le_rank_freshRows {place : ℕ} {l : List Entry} {r : EntryRow}
    (h : r ∈ freshRows container place l) : place ≤ r.rank := by
  induction l generalizing place with
  | nil => cases h
  | cons e l ih =>
    rcases List.mem_cons.mp h with rfl | h
    · exact le_refl _
    · exact (Nat.le_succ _).trans (ih h)

/-- Fresh rows stand in the order of their ranks. -/
theorem pairwise_freshRows (place : ℕ) (l : List Entry) :
    (freshRows container place l).Pairwise rowLe := by
  induction l generalizing place with
  | nil => exact List.Pairwise.nil
  | cons e l ih => exact List.pairwise_cons.mpr ⟨fun r hr ↦ .inl (le_rank_freshRows hr), ih _⟩

instance : Std.Total rowLe where
  total r r' := by
    unfold rowLe
    rcases lt_trichotomy r.rank r'.rank with h | h | h
    · exact .inl (.inl h)
    · rcases le_total r.entry.identifier r'.entry.identifier with hi | hi
      · exact .inl (.inr ⟨h, hi⟩)
      · exact .inr (.inr ⟨h.symm, hi⟩)
    · exact .inr (.inl h)

instance : IsTrans EntryRow rowLe where
  trans r r' r'' := by
    rintro (h | ⟨h, hi⟩) (h' | ⟨h', hi'⟩)
    · exact .inl (h.trans h')
    · exact .inl (h' ▸ h)
    · exact .inl (h ▸ h')
    · exact .inr ⟨h.trans h', hi.trans hi'⟩

theorem rows_replaced (h : Replaced unicode s s' container fresh state gone) (r : EntryRow) :
    r ∈ s'.entry.rows ∧ r.parent = container ↔ r ∈ freshRows container 0 fresh := by
  constructor
  · rintro ⟨hr, hc⟩
    rcases (h.rows r).mp hr with ⟨hr, hn⟩ | hr
    · exact absurd hc (survivor_not_child h hr hn)
    · exact hr
  · exact fun hr ↦ ⟨(h.rows r).mpr (.inr hr), (mem_freshRows hr).1⟩

/-- The fresh listing is what stands below the container afterwards, in its order. -/
theorem oldListing_replaced (h : Replaced unicode s s' container fresh state gone) :
    oldListing s' container = fresh := by
  have hf := h.checked.identifiers
  have hnodup : (freshRows container 0 fresh).Nodup := by
    refine List.Nodup.of_map (·.entry.identifier) ?_
    rw [← map_entry_freshRows container 0 fresh, List.map_map] at hf
    exact hf
  have hselected : (s'.entry.select (·.parent = container)).Nodup :=
    (List.Nodup.of_map _ s'.entry.nodup).filter _
  have hperm : (s'.entry.select (·.parent = container)).Perm (freshRows container 0 fresh) := by
    refine (List.perm_ext_iff_of_nodup hselected hnodup).mpr fun r ↦ ?_
    rw [Table.mem_select, decide_eq_true_iff]
    exact rows_replaced h r
  have hsorted : (s'.entry.select (·.parent = container)).insertionSort rowLe =
      freshRows container 0 fresh := by
    refine ((List.perm_insertionSort rowLe _).trans hperm).eq_of_pairwise ?_
      (List.pairwise_insertionSort rowLe _) (pairwise_freshRows 0 fresh)
    intro r r' hr hr' hle hle'
    have hi : r.entry.identifier = r'.entry.identifier := by
      rcases hle with hlt | ⟨heq, hi⟩
      · rcases hle' with hlt' | ⟨heq', -⟩
        · exact absurd hlt' hlt.asymm
        · exact absurd heq'.symm hlt.ne
      · rcases hle' with hlt' | ⟨-, hi'⟩
        · exact absurd heq.symm hlt'.ne
        · exact le_antisymm hi hi'
    have hr := hperm.mem_iff.mp ((List.perm_insertionSort rowLe _).mem_iff.mp hr)
    refine List.inj_on_of_nodup_map (f := fun r ↦ r.entry.identifier) ?_ hr hr' hi
    rw [← map_entry_freshRows container 0 fresh, List.map_map] at hf
    exact hf
  rw [oldListing, Store.readChildren, hsorted, List.map_map]
  exact map_entry_freshRows container 0 fresh

end Listing

section Result

theorem map_change_numbered (last : ℕ) (changes : List Change) :
    (numbered last changes).map JournalEntry.change = changes := by
  induction changes generalizing last with
  | nil => rfl
  | cons c changes ih => rw [numbered, List.map_cons, ih]

/-- What a successful replacement does, with its removals from the bottom up. -/
theorem exists_gone {new : List Entry} {out : List JournalEntry} (ht : Rooted s)
    (h : s.replaceContainer unicode container new state = .ok (out, s')) :
    ∃ gone, out.map JournalEntry.change = gone.map Change.removed ++
        puts s container (withoutErased s new state.fetched) ∧
      BottomUp (gone.map Change.removed) ∧
      Replaced unicode s s' container (withoutErased s new state.fetched) state gone := by
  obtain ⟨gone, rfl, hr⟩ := replaceContainer_eq_ok ht h
  refine ⟨gone, map_change_numbered _ _, ?_, hr⟩
  have hf := hr.checked.identifiers
  have hputs : ∀ c ∈ puts s container (withoutErased s new state.fetched), c.after.isSome := by
    intro c hc
    obtain ⟨e, -, he, -⟩ := after_puts hf hc
    rw [he]
    rfl
  have hchanges : (numbered s.journalState.last (gone.map .removed ++
      puts s container (withoutErased s new state.fetched))).map JournalEntry.change =
        ((Core.Changes.compare (oldListing s container)
          (withoutErased s new state.fetched)).foldl Store.applyChange ([], s)).1 := by
    unfold Store.replaceContainer at h
    obtain ⟨_, -, h⟩ := bind_eq_ok.mp h
    rw [ite_throw_eq_ok] at h
    obtain ⟨-, h⟩ := h
    obtain ⟨s₂, -, h⟩ := bind_eq_ok.mp h
    obtain ⟨s₃, -, h⟩ := bind_eq_ok.mp h
    obtain ⟨hout, -⟩ := appendJournal_eq_ok h
    rw [hout, map_change_numbered]
    rfl
  rw [map_change_numbered, compare_eq, List.foldl_append] at hchanges
  have hfold := hchanges.trans (congrArg Prod.fst (foldl_applyChange_puts _ _ hputs))
  rw [List.append_cancel_right hfold]
  exact bottomUp_missing ht container hf

/-- An entry is removed exactly if it no longer stands in the store. -/
theorem mem_gone_iff (ht : Rooted s) (h : Replaced unicode s s' container fresh state gone)
    {e : Entry} : e ∈ gone ↔ JournalRuns.entryMap s e.identifier = some e ∧
      JournalRuns.entryMap s' e.identifier = none := by
  rw [h.mem_gone, JournalRuns.entryMap_eq_some]
  constructor
  · rintro ⟨r, hr, hd, rfl⟩
    refine ⟨⟨r, hr, rfl, rfl⟩, ?_⟩
    by_contra hne
    obtain ⟨r', hr', hi⟩ := JournalRuns.entryMap_ne_none.mp hne
    rcases (h.rows r').mp hr' with ⟨hr', -⟩ | hr'
    · have hkept := (mem_prune_entry.mp hr').2
      rw [hi, hd] at hkept
      cases hkept
    · obtain ⟨-, hfresh, -⟩ := mem_freshRows hr'
      have hkept := not_dropped_of_parent ht h.checked.identifiers
        (hi ▸ h.checked.parent _ hfresh) ⟨_, hfresh, hi⟩
      rw [hd] at hkept
      cases hkept
  · rintro ⟨⟨r, hr, rfl, -⟩, hgone⟩
    refine ⟨r, hr, ?_, rfl⟩
    by_contra hd
    refine absurd hgone (JournalRuns.entryMap_ne_none.mpr ?_)
    by_cases hfresh : ∃ e ∈ fresh, e.identifier = r.entry.identifier
    · obtain ⟨e, he, hi⟩ := hfresh
      rw [← map_entry_freshRows container 0 fresh] at he
      obtain ⟨r', hr', rfl⟩ := List.mem_map.mp he
      exact ⟨r', (h.rows r').mpr (.inr hr'), hi⟩
    · exact ⟨r, (h.rows r).mpr (.inl ⟨mem_prune_entry.mpr ⟨hr, by simpa using hd⟩,
        fun e he hi ↦ hfresh ⟨e, he, hi⟩⟩), rfl⟩

/-- In every reached store a listing is replaced whole or not at all, whichever statement fails: the
journal gets the removals from the bottom up, then the changed and then the new entries, and the
listing stands in its order. -/
theorem replaceContainer_of_run (unicode : Unicode) (n limit : ℕ) (operations : List Operation)
    (container : Container) (new : List Entry) (state : ContainerState)
    (faults : ℕ → Option StoreError) :
    let s := run unicode (Store.setUp n limit) operations
    match Statements.replaceContainer unicode container new state faults s with
    | (.error _, s') => s' = s
    | (.ok out, s') =>
      Appended s s' (out.map JournalEntry.change) state.fetched .complete ∧
      (∃ (gone : List Entry) (changed : List (Entry × Entry)) (added : List Entry),
        out.map JournalEntry.change = gone.map Change.removed ++
          changed.map (fun p ↦ Change.changed p.1 p.2) ++ added.map Change.new ∧
        BottomUp (gone.map Change.removed) ∧
        ∀ e, e ∈ gone ↔ JournalRuns.entryMap s e.identifier = some e ∧
          JournalRuns.entryMap s' e.identifier = none) ∧
      s'.children container = .ok (withoutErased s new state.fetched) := by
  intro s
  have hw : WellFormed unicode s := wellFormed_run (wellFormed_setUp unicode n limit) operations
  have hrun := Statements.replaceContainer_atomic unicode container new state faults s
  cases hresult : Statements.replaceContainer unicode container new state faults s with
  | mk result s' =>
    rw [hresult] at hrun
    cases result with
    | error e => exact hrun
    | ok out =>
      obtain ⟨gone, hout, hdeep, hr⟩ := exists_gone hw.rooted hrun
      have hstate : s'.containerStateOf container = some state :=
        (containerStateOf_of_replaced hr container).trans (if_pos rfl)
      have hknown := known_of_state (rooted_of_replaced hw.rooted hr) hstate
      have happended : Appended s s' (out.map JournalEntry.change) state.fetched .complete :=
        hout ▸ hr.appended
      have hchildren : s'.children container = .ok (withoutErased s new state.fetched) := by
        rw [children_eq_ok hknown, oldListing_replaced hr]
      rw [puts, ← List.append_assoc] at hout
      exact ⟨happended, ⟨gone, _, _, hout, hdeep, fun e ↦ mem_gone_iff hw.rooted hr⟩, hchildren⟩

end Result

end FolderClient.Storage.Replacement
