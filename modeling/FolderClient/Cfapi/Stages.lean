import FolderClient.Cfapi.Names
import FolderClient.Cfapi.PathRuns
import FolderClient.Cfapi.Reconciling
import FolderClient.Cfapi.ReportRuns
import FolderClient.Core.Diffs
import FolderClient.Library.Decimals

namespace FolderClient.Cfapi.Stages

open FolderClient.Cfapi.Checks FolderClient.Cfapi.Mirror FolderClient.Cfapi.Names
  FolderClient.Cfapi.Plan FolderClient.Cfapi.ReportRuns FolderClient.Cfapi.StepRuns
  FolderClient.Core FolderClient.Core.Changes FolderClient.Core.Namespace
  FolderClient.Library.Decimals FolderClient.Library.Results FolderClient.Library.Texts

/-- What a step that is carried out makes of the map. -/
def acted (map : PathMap) : Step → PathMap
  | .remove i => map.remove i
  | .stagingName i name | .finalName i name => map.rename i name
  | .update _ _ => map
  | .create e => map.set e.identifier e.name e.isFolder

/-- The entries that lie in a container, with their names. -/
def children (map : PathMap) (c : Container) : Set (EntryIdentifier × String) :=
  {x | ∃ l, map.location x.1 = some l ∧ l.parent = c ∧ l.name = x.2}

/-- The entries of a listing, with their names. -/
def listing (entries : List Entry) : Set (EntryIdentifier × String) :=
  {x | ∃ e ∈ entries, (e.identifier, e.name) = x}

/-- Every entry lies in the container that its identifier says. -/
def Coherent (map : PathMap) : Prop :=
  ∀ k l, map.location k = some l → k.parent = some l.parent

/-- The name a step gives is not that of another entry of the container. -/
def Free (unicode : Unicode) (map : PathMap) (c : Container) : Step → Prop
  | .remove _ | .update _ _ => True
  | .stagingName i name | .finalName i name => ∀ x ∈ children map c, x.1 ≠ i →
      comparisonForm unicode x.2 ≠ comparisonForm unicode name
  | .create e => ∀ x ∈ children map c,
      comparisonForm unicode x.2 ≠ comparisonForm unicode e.name

def removedBy : Step → Option EntryIdentifier
  | .remove i => some i
  | _ => none

def createdBy : Step → Option EntryIdentifier
  | .create e => some e.identifier
  | _ => none

/-- The container lies in the subtree of an entry. -/
def Below (i : EntryIdentifier) (d : Container) : Prop :=
  ∃ b, i.container? = some b ∧ (d = b ∨ b ∈ d.ancestors)

/-- The containers on the way up from one are known. -/
def Chained (map : PathMap) (c : Container) : Prop :=
  ∀ d ∈ c :: c.ancestors, d = .root ∨ map.knows (.container d) = true

/-- The names for the first stage of the renames are free: they differ from each other and from
those of both listings. -/
structure Fresh (unicode : Unicode) (process first last : ℕ) (entries : List Entry) : Prop where
  apart : ∀ n, first ≤ n → n < last → ∀ e ∈ entries,
    comparisonForm unicode (stagingName process n) ≠ comparisonForm unicode e.name
  distinct : ∀ m n, first ≤ m → m < last → first ≤ n → n < last →
    comparisonForm unicode (stagingName process m) =
      comparisonForm unicode (stagingName process n) → m = n

/-- The steps lead the container to a listing, and never onto a name that is taken. -/
structure Arrives (unicode : Unicode) (map : PathMap) (c : Container) (steps : List Step)
    (new : List Entry) : Prop where
  free : ∀ before step after, steps = before ++ step :: after →
    Free unicode (before.foldl acted map) c step
  removedOnce : (steps.filterMap removedBy).Nodup
  createdOnce : (steps.filterMap createdBy).Nodup
  elsewhere : ∀ before, before <+: steps → ∀ d, d ≠ c →
    (∀ i, .remove i ∈ steps → ¬ Below i d) →
      (before.foldl acted map).isPopulated d = map.isPopulated d ∧
        ∀ k, k.parent = some d → (before.foldl acted map).location k = map.location k
  reached : children (steps.foldl acted map) c = listing new

variable {unicode : Unicode} {map next : PathMap} {c d p : Container} {k i : EntryIdentifier}
  {e : Entry} {step : Step} {steps before after b r : List Step} {process number : ℕ}
  {changes : List Change} {old new : List Entry} {l : PathMap.Location}
  {answer : Except OsError Unit} {answers : ℕ → Except OsError Unit} {name : String}

section Acting

/-- A step that `runStep` carries out acts on the map in this way. -/
theorem eq_acted_of_ok (h : runStep map answer step = .ok next) : next = acted map step := by
  cases step with
  | remove i =>
    obtain ⟨_, -, h⟩ := bind_eq_ok.mp h
    obtain ⟨_, -, h⟩ := bind_eq_ok.mp h
    exact (Except.ok.inj h).symm
  | stagingName i name =>
    obtain ⟨_, -, h⟩ := bind_eq_ok.mp h
    obtain ⟨_, -, h⟩ := bind_eq_ok.mp h
    obtain ⟨_, -, h⟩ := bind_eq_ok.mp h
    exact (Except.ok.inj h).symm
  | finalName i name =>
    obtain ⟨_, -, h⟩ := bind_eq_ok.mp h
    obtain ⟨_, -, h⟩ := bind_eq_ok.mp h
    obtain ⟨_, -, h⟩ := bind_eq_ok.mp h
    exact (Except.ok.inj h).symm
  | update e stale =>
    obtain ⟨_, -, h⟩ := bind_eq_ok.mp h
    obtain ⟨_, -, h⟩ := bind_eq_ok.mp h
    exact (Except.ok.inj h).symm
  | create e =>
    obtain ⟨_, -, h⟩ := bind_eq_ok.mp h
    cases hparent : e.identifier.parent with
    | none =>
      rw [hparent] at h
      cases h
    | some parent =>
      rw [hparent] at h
      obtain ⟨_, -, h⟩ := bind_eq_ok.mp h
      obtain ⟨_, -, h⟩ := bind_eq_ok.mp h
      exact (Except.ok.inj h).symm

theorem location_rename_of_ne (h : k ≠ i) :
    (map.rename i name).location k = map.location k := by
  rw [PathMap.location_rename]
  simp only [if_neg h, Option.map_id']

theorem moved_acted (map : PathMap) (step : Step) : Moved map (acted map step) step := by
  cases step with
  | remove i => exact moved_remove
  | stagingName i name => exact ⟨moved_rename.populated, moved_rename.location⟩
  | finalName i name => exact moved_rename
  | update e stale => exact ⟨fun _ h ↦ h, fun _ _ _ _ ↦ rfl⟩
  | create e =>
    cases hparent : e.identifier.parent with
    | none =>
      have hsame : acted map (.create e) = map := by
        rw [acted, PathMap.set, hparent]
      rw [hsame]
      refine ⟨fun _ h ↦ h, fun k p hp _ ↦ ?_⟩
      rw [effect, if_neg]
      rintro rfl
      cases hp.symm.trans hparent
    | some parent =>
      refine ⟨fun d hd ↦ ?_, fun k p hp _ ↦ ?_⟩
      · rw [acted, PathMap.set, hparent] at hd
        exact hd
      · rw [acted, PathMap.location_set hparent, effect]
        by_cases hk : k = e.identifier
        · obtain rfl := Option.some.inj (hp.symm.trans (hk ▸ hparent))
          rw [if_pos hk]
        · rw [if_neg hk, if_neg hk]

theorem Coherent.acted (h : Coherent map) (step : Step) : Coherent (acted map step) := by
  intro k l hl
  cases step with
  | remove i =>
    rw [Stages.acted, PathMap.location_remove] at hl
    split at hl
    · cases hl
    · exact h k l hl
  | stagingName i name =>
    rw [Stages.acted, PathMap.location_rename] at hl
    obtain ⟨l', hl', rfl⟩ := Option.map_eq_some_iff.mp hl
    rw [h k l' hl']
    split <;> rfl
  | finalName i name =>
    rw [Stages.acted, PathMap.location_rename] at hl
    obtain ⟨l', hl', rfl⟩ := Option.map_eq_some_iff.mp hl
    rw [h k l' hl']
    split <;> rfl
  | update e stale => exact h k l hl
  | create e =>
    cases hparent : e.identifier.parent with
    | none =>
      rw [Stages.acted, PathMap.set, hparent] at hl
      exact h k l hl
    | some parent =>
      rw [Stages.acted, PathMap.location_set hparent] at hl
      split at hl
      next hk =>
        obtain rfl := Option.some.inj hl
        rw [hk, hparent]
      next => exact h k l hl

theorem Coherent.run (h : Coherent map) (steps : List Step) :
    Coherent (steps.foldl Stages.acted map) := by
  induction steps generalizing map with
  | nil => exact h
  | cons step steps ih => exact ih (h.acted step)

/-- The maps that arise from the empty one are coherent. -/
theorem coherent_of_run (h : PathRuns.Run unicode map) : Coherent map :=
  fun _ _ hl ↦ ((PathRuns.sound_of_run h).parents hl).1

/-- Nothing that lies in a container lies above it. -/
theorem not_below (hi : i.parent = some c) (hd : d = c ∨ d ∈ c.ancestors) : ¬ Below i d := by
  rintro ⟨b, hb, hbelow⟩
  have hbc : b.parent = some c := by
    cases i with
    | container b' =>
      obtain rfl := Option.some.inj hb
      exact hi
    | document => cases hb
    | hint => cases hb
  have hdepth := Container.depth_of_parent hbc
  have hupper : d.depth ≤ c.depth := by
    rcases hd with rfl | hd
    · exact le_rfl
    · exact (Container.depth_lt_of_mem_ancestors hd).le
  rcases hbelow with rfl | hbelow
  · omega
  · have hlower := Container.depth_lt_of_mem_ancestors hbelow
    omega

theorem below_of_reaches {depth : ℕ} (h : map.reaches i depth (.container d) = true) :
    Below i d := by
  rcases PathMap.within_of_reaches h with rfl | ⟨b, hb, hmem⟩
  · exact ⟨d, rfl, .inl rfl⟩
  · rw [EntryIdentifier.ancestors_container] at hmem
    exact ⟨b, hb, .inr hmem⟩

/-- A container keeps its mark unless something above it is removed. -/
theorem isPopulated_acted (hbelow : ∀ i, step = .remove i → ¬ Below i d) :
    (acted map step).isPopulated d = map.isPopulated d := by
  cases step with
  | remove i =>
    have hreach : map.reaches i PathMap.treeDepth (.container d) = false := by
      by_contra h
      exact hbelow i rfl (below_of_reaches (Bool.not_eq_false _ |>.mp h))
    rw [acted, PathMap.isPopulated_remove, hreach, Bool.not_false, Bool.and_true]
  | stagingName i name => rfl
  | finalName i name => rfl
  | update e stale => rfl
  | create e =>
    rw [acted, PathMap.set]
    split <;> rfl

/-- A step in a container leaves alone what is not below what it removes. -/
theorem acted_elsewhere (hstep : step.identifier.parent = some c) (hd : d ≠ c)
    (hbelow : ∀ i, step = .remove i → ¬ Below i d) :
    (acted map step).isPopulated d = map.isPopulated d ∧
      ∀ k, k.parent = some d → (acted map step).location k = map.location k := by
  have hne : ∀ k, k.parent = some d → step.identifier ≠ k := by
    rintro k hk rfl
    exact hd (Option.some.inj (hk.symm.trans hstep))
  refine ⟨isPopulated_acted hbelow, fun k hk ↦ ?_⟩
  cases step with
  | remove i =>
    rw [acted, PathMap.location_remove, if_neg]
    intro hreach
    rw [PathMap.treeDepth, PathMap.reaches_add_one, Bool.or_eq_true] at hreach
    rcases hreach with hreach | hreach
    · exact hne k hk (of_decide_eq_true hreach).symm
    · rw [Bool.and_eq_true, hk] at hreach
      exact hbelow i rfl (below_of_reaches hreach.2)
  | stagingName i name => exact location_rename_of_ne (hne k hk).symm
  | finalName i name => exact location_rename_of_ne (hne k hk).symm
  | update e stale => rfl
  | create e => exact (PathMap.location_set hstep e.name e.isFolder).trans (if_neg (hne k hk).symm)

theorem elsewhere_run (hsteps : ∀ s ∈ steps, s.identifier.parent = some c) (hd : d ≠ c)
    (hbelow : ∀ i, .remove i ∈ steps → ¬ Below i d) :
    (steps.foldl acted map).isPopulated d = map.isPopulated d ∧
      ∀ k, k.parent = some d → (steps.foldl acted map).location k = map.location k := by
  induction steps generalizing map with
  | nil => exact ⟨rfl, fun _ _ ↦ rfl⟩
  | cons step steps ih =>
    have hrest := @ih (acted map step) (fun s hs ↦ hsteps s (List.mem_cons_of_mem _ hs))
      fun i hi ↦ hbelow i (List.mem_cons_of_mem _ hi)
    have hfirst := @acted_elsewhere map c d step (hsteps step List.mem_cons_self) hd
      fun i hi ↦ hbelow i (hi ▸ List.mem_cons_self)
    obtain ⟨hmarks, hplaces⟩ := hrest
    obtain ⟨hmark, hplace⟩ := hfirst
    exact ⟨hmarks.trans hmark, fun k hk ↦ (hplaces k hk).trans (hplace k hk)⟩

/-- Steps in a container do not take away its mark. -/
theorem populated_run (hsteps : ∀ s ∈ steps, s.identifier.parent = some c)
    (h : map.isPopulated c = true) : (steps.foldl acted map).isPopulated c = true := by
  induction steps generalizing map with
  | nil => exact h
  | cons step steps ih =>
    apply ih fun s hs ↦ hsteps s (List.mem_cons_of_mem _ hs)
    rw [isPopulated_acted, h]
    rintro i rfl
    exact not_below (hsteps _ List.mem_cons_self) (.inl rfl)

/-- Where an entry of the container lies is up to its own steps. -/
theorem location_run (hsteps : ∀ s ∈ steps, s.identifier.parent = some c)
    (h : map.isPopulated c = true) (hk : k.parent = some c) :
    (steps.foldl acted map).location k =
      (own k steps).foldl (fun l s ↦ effect c k s l) (map.location k) := by
  induction steps generalizing map with
  | nil => rfl
  | cons step steps ih =>
    have hrest : ∀ s ∈ steps, s.identifier.parent = some c :=
      fun s hs ↦ hsteps s (List.mem_cons_of_mem _ hs)
    have hnext : ([step].foldl acted map).isPopulated c = true :=
      populated_run (by simpa using hsteps step List.mem_cons_self) h
    rw [List.foldl_cons, List.foldl_nil] at hnext
    rw [List.foldl_cons, ih hrest hnext, (moved_acted map step).location k c hk hnext]
    by_cases hown : step.identifier = k
    · have hcons : own k (step :: steps) = step :: own k steps :=
        List.filter_cons_of_pos (decide_eq_true hown)
      rw [hcons, List.foldl_cons]
    · have hcons : own k (step :: steps) = own k steps :=
        List.filter_cons_of_neg (by simpa using hown)
      rw [hcons, effect_of_ne hown]

end Acting

section Planning

/-- The steps of a plan come in this order. -/
def phase : Step → ℕ
  | .remove _ => 0
  | .stagingName _ _ => 1
  | .finalName _ _ => 2
  | .update _ _ => 3
  | .create _ => 4

/-- Every list of a plan holds steps of its kind, and the staging names are numbered. -/
structure Filed (process number : ℕ) (plan : Plan) : Prop where
  remove : ∀ s ∈ plan.remove, phase s = 0
  between : ∃ ids : List EntryIdentifier, plan.number = number + ids.length ∧
    plan.between = ids.mapIdx fun j i ↦ .stagingName i (stagingName process (number + j))
  «end» : ∀ s ∈ plan.end, phase s = 2
  update : ∀ s ∈ plan.update, phase s = 3
  create : ∀ s ∈ plan.create, phase s = 4

theorem filed_start : Filed process number (.start number) where
  remove _ h := absurd h List.not_mem_nil
  between := ⟨[], rfl, rfl⟩
  «end» _ h := absurd h List.not_mem_nil
  update _ h := absurd h List.not_mem_nil
  create _ h := absurd h List.not_mem_nil

/-- One step more of its kind. -/
theorem filed_append {n : ℕ} (h : ∀ s ∈ steps, phase s = n) (hstep : phase step = n) :
    ∀ s ∈ steps ++ [step], phase s = n := by
  intro s hs
  rcases List.mem_append.mp hs with hs | hs
  · exact h s hs
  · rw [List.mem_singleton.mp hs, hstep]

variable {plan : Plan} {change : Change}

theorem Filed.renamed (h : Filed process number plan) (e : Entry) :
    Filed process number (plan.renamed process e) := by
  obtain ⟨ids, hnumber, hbetween⟩ := h.between
  refine ⟨h.remove, ⟨ids ++ [e.identifier], ?_, ?_⟩, filed_append h.end rfl, h.update, h.create⟩
  · rw [Plan.renamed, hnumber, List.length_append, List.length_singleton, Nat.add_assoc]
  · rw [Plan.renamed, hbetween, hnumber, List.mapIdx_append, List.mapIdx_singleton, Nat.zero_add]

theorem Filed.should (h : Filed process number plan) (e : Entry) (stale detailsChanged : Bool) :
    Filed process number (plan.should process map e stale detailsChanged) := by
  unfold Plan.should
  dsimp only
  split
  · exact ⟨h.remove, h.between, h.end, h.update, filed_append h.create rfl⟩
  · split
    · exact ⟨filed_append h.remove rfl, h.between, h.end, h.update, filed_append h.create rfl⟩
    · have hnamed : ∀ l : PathMap.Location, Filed process number
          (if l.name ≠ e.name then plan.renamed process e else plan) := by
        intro l
        split
        · exact h.renamed e
        · exact h
      split
      · exact ⟨(hnamed _).remove, (hnamed _).between, (hnamed _).end,
          filed_append (hnamed _).update rfl, (hnamed _).create⟩
      · exact hnamed _

theorem Filed.add (h : Filed process number plan) (change : Change) :
    Filed process number (plan.add process map change) := by
  unfold Plan.add
  split
  · exact h
  · split
    · exact h
    · cases change with
      | removed e =>
        dsimp only
        split
        · exact ⟨filed_append h.remove rfl, h.between, h.end, h.update, h.create⟩
        · exact h
      | new e => exact h.should e ..
      | changed before e => exact h.should e ..

theorem filed_changes (h : Filed process number plan) :
    Filed process number (changes.foldl (Plan.add process map) plan) := by
  induction changes generalizing plan with
  | nil => exact h
  | cons change changes ih => exact ih (h.add change)

theorem filed_plan (process number : ℕ) (map : PathMap) (changes : List Change) :
    ∃ plan, (Plan.plan process number map changes).1 = plan.steps ∧
      (Plan.plan process number map changes).2 = plan.number ∧ Filed process number plan :=
  ⟨_, rfl, rfl, filed_changes filed_start⟩

/-- A step of the plan stands in the list of its kind. -/
theorem Filed.phase_cases (h : Filed process number plan) {s : Step} (hs : s ∈ plan.steps) :
    phase s = 0 ∨ (phase s = 1 ∧ s ∈ plan.between) ∨ phase s = 2 ∨ phase s = 3 ∨
      (phase s = 4 ∧ s ∈ plan.create) := by
  simp only [Plan.steps, List.mem_append] at hs
  rcases hs with (((hs | hs) | hs) | hs) | hs
  · exact .inl (h.remove s hs)
  · refine .inr (.inl ⟨?_, hs⟩)
    obtain ⟨ids, -, hbetween⟩ := h.between
    rw [hbetween, List.mem_mapIdx] at hs
    obtain ⟨j, hj, rfl⟩ := hs
    rfl
  · exact .inr (.inr (.inl (h.end s hs)))
  · exact .inr (.inr (.inr (.inl (h.update s hs))))
  · exact .inr (.inr (.inr (.inr ⟨h.create s hs, hs⟩)))

/-- Two entries have different numbers in their staging names. -/
theorem Filed.staging (h : Filed process number plan) : ∃ numberOf : EntryIdentifier → ℕ → Prop,
    (∀ i n, numberOf i n → number ≤ n ∧ n < plan.number) ∧
    (∀ i j n, numberOf i n → numberOf j n → i = j) ∧
    ∀ i name, .stagingName i name ∈ plan.steps → ∃ n, numberOf i n ∧
      name = stagingName process n := by
  obtain ⟨ids, hnumber, hbetween⟩ := h.between
  refine ⟨fun i n ↦ number ≤ n ∧ ids[n - number]? = some i, fun i n hn ↦ ⟨hn.1, ?_⟩,
    fun i j n hi hj ↦ Option.some.inj (hi.2.symm.trans hj.2), fun i name hs ↦ ?_⟩
  · obtain ⟨hlt, -⟩ := List.getElem?_eq_some_iff.mp hn.2
    omega
  · have hmem : .stagingName i name ∈ plan.between := by
      rcases h.phase_cases hs with h | ⟨-, h⟩ | h | h | ⟨h, -⟩
      · cases h
      · exact h
      · cases h
      · cases h
      · cases h
    rw [hbetween, List.mem_mapIdx] at hmem
    obtain ⟨j, hj, heq⟩ := hmem
    obtain ⟨rfl, rfl⟩ := Step.stagingName.inj heq
    refine ⟨number + j, ⟨Nat.le_add_right _ _, ?_⟩, rfl⟩
    rw [Nat.add_sub_cancel_left]
    exact List.getElem?_eq_getElem hj

theorem sorted_append {a b : List Step} {n : ℕ} (ha : a.Pairwise fun s t ↦ phase s ≤ phase t)
    (hle : ∀ s ∈ a, phase s < n) (hb : ∀ s ∈ b, phase s = n) :
    (a ++ b).Pairwise (fun s t ↦ phase s ≤ phase t) ∧ ∀ s ∈ a ++ b, phase s < n + 1 := by
  constructor
  · refine List.pairwise_append.mpr ⟨ha, ?_, ?_⟩
    · exact List.pairwise_of_forall_mem_list fun s hs t ht ↦ ((hb s hs).trans (hb t ht).symm).le
    · intro s hs t ht
      rw [hb t ht]
      exact (hle s hs).le
  · intro s hs
    rcases List.mem_append.mp hs with hs | hs
    · exact (hle s hs).trans (Nat.lt_succ_self n)
    · rw [hb s hs]
      exact Nat.lt_succ_self n

theorem Filed.sorted (h : Filed process number plan) :
    plan.steps.Pairwise fun s t ↦ phase s ≤ phase t := by
  have hbetween : ∀ s ∈ plan.between, phase s = 1 := by
    intro s hs
    obtain ⟨ids, -, hbetween⟩ := h.between
    rw [hbetween, List.mem_mapIdx] at hs
    obtain ⟨j, hj, rfl⟩ := hs
    rfl
  have hremove : ([] ++ plan.remove).Pairwise (fun s t ↦ phase s ≤ phase t) ∧ _ :=
    sorted_append List.Pairwise.nil (fun s hs ↦ absurd hs List.not_mem_nil) h.remove
  rw [List.nil_append] at hremove
  have hbetween := sorted_append hremove.1 hremove.2 hbetween
  have hend := sorted_append hbetween.1 hbetween.2 h.end
  have hupdate := sorted_append hend.1 hend.2 h.update
  exact (sorted_append hupdate.1 hupdate.2 h.create).1

/-- What comes before a step of the plan is of no later kind, and what comes after of no earlier. -/
theorem phases_of_sorted (h : (before ++ step :: after).Pairwise fun s t ↦ phase s ≤ phase t) :
    (∀ s ∈ before, phase s ≤ phase step) ∧ ∀ s ∈ step :: after, phase step ≤ phase s := by
  obtain ⟨-, hafter, hbefore⟩ := List.pairwise_append.mp h
  refine ⟨fun s hs ↦ hbefore s hs step List.mem_cons_self, fun s hs ↦ ?_⟩
  rcases List.mem_cons.mp hs with rfl | hs
  · exact le_rfl
  · exact (List.pairwise_cons.mp hafter).1 s hs

/-- Changes in containers that are not populated add nothing to the plan. -/
theorem plan_filter (process number : ℕ) (map : PathMap) (changes : List Change) :
    Plan.plan process number map changes = Plan.plan process number map
      (changes.filter fun change ↦ change.identifier.parent.any map.isPopulated) := by
  have hfold : ∀ plan : Plan, changes.foldl (Plan.add process map) plan =
      (changes.filter fun change ↦ change.identifier.parent.any map.isPopulated).foldl
        (Plan.add process map) plan := by
    induction changes with
    | nil => exact fun _ ↦ rfl
    | cons change changes ih =>
      intro plan
      by_cases hpopulated : change.identifier.parent.any map.isPopulated = true
      · rw [List.filter_cons, if_pos hpopulated, List.foldl_cons, List.foldl_cons, ih]
      · rw [List.filter_cons, if_neg hpopulated, List.foldl_cons, ih]
        congr 1
        unfold Plan.add
        cases hparent : change.identifier.parent with
        | none => rfl
        | some parent =>
          rw [hparent, Option.any_some] at hpopulated
          exact if_pos hpopulated
  unfold Plan.plan
  rw [hfold]

end Planning

section Fates

/-- What the steps of one entry do to its place. -/
def placed (c : Container) (k : EntryIdentifier) (steps : List Step)
    (l : Option PathMap.Location) : Option PathMap.Location :=
  steps.foldl (fun l s ↦ effect c k s l) l

/-- Which steps an entry of the container has. -/
inductive Fate (map : PathMap) (new : List Entry) (k : EntryIdentifier) : List Step → Prop
  | same {e : Entry} {l : PathMap.Location} : e ∈ new → e.identifier = k →
      map.location k = some l → l.name = e.name → Fate map new k []
  | planned {e : Entry} {steps : List Step} : e ∈ new → e.identifier = k → Planned map e steps →
      Fate map new k steps
  | removed : (∀ e ∈ new, e.identifier ≠ k) → map.location k ≠ none → Fate map new k [.remove k]
  | absent : (∀ e ∈ new, e.identifier ≠ k) → map.location k = none → Fate map new k []

theorem own_of_unchanged (h : ∀ change ∈ changes, change.identifier ≠ k) :
    own k (Plan.plan process number map changes).1 = [] := by
  have hplan := @aboutPlan_foldl_of_ne map k (.start number) changes process h
  have hsteps := congrArg Plan.steps hplan
  rw [steps_aboutPlan] at hsteps
  exact hsteps

/-- A step is about an entry that a change is about. -/
theorem exists_change (hs : step ∈ (Plan.plan process number map changes).1) :
    ∃ change ∈ changes, change.identifier = step.identifier := by
  by_contra hchange
  have hnone := @own_of_unchanged map step.identifier process number changes
    fun change hmem heq ↦ hchange ⟨change, hmem, heq⟩
  have hown : step ∈ own step.identifier (Plan.plan process number map changes).1 :=
    List.mem_filter.mpr ⟨hs, decide_eq_true rfl⟩
  rw [hnone] at hown
  cases hown

/-- The one change of an entry that is to go. -/
theorem own_of_removed (hparent : e.identifier.parent = some c)
    (hpopulated : map.isPopulated c = true)
    (hone : changes.filter (fun c ↦ c.identifier = e.identifier) = [.removed e]) :
    own e.identifier (Plan.plan process number map changes).1 =
      if map.knows e.identifier then [.remove e.identifier] else [] := by
  obtain ⟨before, rest, rfl, hbefore, -, hrest⟩ := List.filter_eq_cons_iff.mp hone
  have hnone : ∀ c ∈ rest, c.identifier ≠ e.identifier := by
    intro c hc heq
    exact List.filter_eq_nil_iff.mp hrest c hc (decide_eq_true heq)
  have hfirst : ∀ c ∈ before, c.identifier ≠ e.identifier := by
    intro c hc heq
    exact hbefore c hc (decide_eq_true heq)
  have hadd : ∀ plan : Plan, plan.add process map (.removed e) =
      if map.knows e.identifier then { plan with remove := plan.remove ++ [.remove e.identifier] }
      else plan := by
    intro plan
    have hid : (Change.removed e).identifier = e.identifier := rfl
    unfold Plan.add
    rw [hid, hparent]
    dsimp only
    rw [if_neg (not_not.mpr hpopulated)]
  have hempty : aboutPlan e.identifier (before.foldl (Plan.add process map) (.start number)) =
      .start 0 := aboutPlan_foldl_of_ne hfirst
  have hown : own e.identifier [.remove e.identifier] = [.remove e.identifier] := own_singleton rfl
  unfold Plan.plan
  rw [List.foldl_append, List.foldl_cons, ← steps_aboutPlan, aboutPlan_foldl_of_ne hnone, hadd]
  generalize before.foldl (Plan.add process map) (.start number) = plan at hempty
  split
  · obtain ⟨hr, hb, he, hu, hc⟩ : own e.identifier plan.remove = [] ∧
        own e.identifier plan.between = [] ∧ own e.identifier plan.end = [] ∧
        own e.identifier plan.update = [] ∧ own e.identifier plan.create = [] :=
      ⟨congrArg Plan.remove hempty, congrArg Plan.between hempty, congrArg Plan.end hempty,
        congrArg Plan.update hempty, congrArg Plan.create hempty⟩
    simp only [aboutPlan, Plan.steps, own_append, hr, hb, he, hu, hc, hown, List.nil_append,
      List.append_nil]
  · rw [hempty]
    rfl

/-- The one change of each entry, by its identifier. -/
theorem filter_change (hnodup : (changes.map Change.identifier).Nodup) {change : Change}
    (hmem : change ∈ changes) :
    changes.filter (fun c ↦ c.identifier = change.identifier) = [change] := by
  induction changes with
  | nil => cases hmem
  | cons first changes ih =>
    rw [List.map_cons, List.nodup_cons] at hnodup
    rcases List.mem_cons.mp hmem with rfl | hmem
    · rw [List.filter_cons, if_pos (decide_eq_true rfl), List.filter_eq_nil_iff.mpr]
      intro c hc heq
      exact hnodup.1 (List.mem_map.mpr ⟨c, hc, of_decide_eq_true heq⟩)
    · rw [List.filter_cons, if_neg, ih hnodup.2 hmem]
      intro heq
      exact hnodup.1 (List.mem_map.mpr ⟨change, hmem, (of_decide_eq_true heq).symm⟩)

theorem accepted_of_checkListFrom {names : List String} {identifiers : List EntryIdentifier}
    (h : checkListFrom unicode c names identifiers new = .ok ()) :
    (∀ e ∈ new, e.identifier.parent = some c ∧ checkName e.name = .ok () ∧
      e.identifier ∉ identifiers) ∧ (new.map Entry.identifier).Nodup := by
  induction new generalizing names identifiers with
  | nil => exact ⟨fun e he ↦ absurd he List.not_mem_nil, List.nodup_nil⟩
  | cons e rest ih =>
    unfold checkListFrom at h
    simp only [ite_throw_eq_ok] at h
    obtain ⟨hparent, -, h⟩ := h
    obtain ⟨_, hname, h⟩ := bind_eq_ok.mp h
    simp only [ite_throw_eq_ok] at h
    obtain ⟨-, hidentifier, h⟩ := h
    obtain ⟨hrest, hnodup⟩ := ih h
    refine ⟨fun e' he' ↦ ?_, List.nodup_cons.mpr ⟨fun hmem ↦ ?_, hnodup⟩⟩
    · rcases List.mem_cons.mp he' with rfl | he'
      · exact ⟨not_not.mp hparent, hname, hidentifier⟩
      · obtain ⟨hparent', hname', hnot⟩ := hrest e' he'
        exact ⟨hparent', hname', fun hin ↦ hnot (List.mem_cons_of_mem _ hin)⟩
    · obtain ⟨e', he', heq⟩ := List.mem_map.mp hmem
      exact (hrest e' he').2.2 (heq ▸ List.mem_cons_self)

/-- What stands in the container and how its steps are planned. -/
structure Setting (unicode : Unicode) (map : PathMap) (c : Container) (old new : List Entry) :
    Prop where
  coherent : Coherent map
  populated : map.isPopulated c = true
  holds : children map c = listing old
  oldForms : (old.map fun e ↦ comparisonForm unicode e.name).Nodup
  accepted : checkList unicode c new = .ok ()

namespace Setting

variable (h : Setting unicode map c old new)

include h

theorem mem_children : (∃ l, map.location k = some l ∧ l.parent = c ∧ l.name = name) ↔
    ∃ e ∈ old, e.identifier = k ∧ e.name = name := by
  have hiff := Set.ext_iff.mp h.holds (k, name)
  exact hiff.trans (exists_congr fun e ↦ and_congr_right' Prod.mk_inj)

theorem location_of_old (he : e ∈ old) : ∃ l, map.location e.identifier = some l ∧
    l.parent = c ∧ l.name = e.name := h.mem_children.mpr ⟨e, he, rfl, rfl⟩

theorem parent_old (he : e ∈ old) : e.identifier.parent = some c := by
  obtain ⟨l, hl, hparent, -⟩ := h.location_of_old he
  rw [h.coherent _ l hl, hparent]

theorem parent_new (he : e ∈ new) : e.identifier.parent = some c :=
  ((accepted_of_checkListFrom h.accepted).1 e he).1

theorem nodup_new : (new.map Entry.identifier).Nodup :=
  (accepted_of_checkListFrom h.accepted).2

theorem nodup_old : (old.map Entry.identifier).Nodup := by
  refine List.pairwise_map.mpr ((List.pairwise_map.mp h.oldForms).imp_of_mem ?_)
  intro e e' he he' hforms heq
  obtain ⟨l, hl, -, hname⟩ := h.location_of_old he
  obtain ⟨l', hl', -, hname'⟩ := h.location_of_old he'
  rw [heq, hl'] at hl
  obtain rfl := Option.some.inj hl
  exact hforms (by rw [← hname, ← hname'])

theorem eq_of_form {e' : Entry} (he : e ∈ new) (he' : e' ∈ new)
    (hform : comparisonForm unicode e.name = comparisonForm unicode e'.name) : e = e' :=
  List.inj_on_of_nodup_map (Reconciling.forms_of_checkList h.accepted) he he' hform

theorem parent_of_change {change : Change} (hmem : change ∈ Changes.compare old new) :
    change.identifier.parent = some c := by
  have hreport := (Diffs.mem_compare h.nodup_old h.nodup_new).mp hmem
  cases change with
  | removed e => exact h.parent_old hreport.1
  | changed before after => exact h.parent_new hreport.2.1
  | new e => exact h.parent_new hreport.1

theorem fate (hk : k.parent = some c) :
    Fate map new k (own k (Plan.plan process number map (Changes.compare old new)).1) := by
  have hcompare := @Diffs.mem_compare old new
  have hnodup := Diffs.nodup_compare h.nodup_old h.nodup_new
  by_cases hnew : ∃ e ∈ new, e.identifier = k
  · obtain ⟨e, he, rfl⟩ := hnew
    by_cases hchange : ∃ change ∈ Changes.compare old new, change.after = some e
    · obtain ⟨change, hmem, hafter⟩ := hchange
      apply Fate.planned he rfl
      apply planned_of_put hk h.populated hafter
      rw [← Change.identifier_of_after hafter]
      exact filter_change hnodup hmem
    · have hold : e ∈ old := by
        by_contra hold
        by_cases hbefore : ∃ e' ∈ old, e'.identifier = e.identifier
        · obtain ⟨e', he', heq⟩ := hbefore
          refine hchange ⟨.changed e' e, (hcompare h.nodup_old h.nodup_new).mpr
            ⟨he', he, heq.symm, fun hsame ↦ hold (hsame ▸ he')⟩, rfl⟩
        · refine hchange ⟨.new e, (hcompare h.nodup_old h.nodup_new).mpr
            ⟨he, fun e' he' heq ↦ hbefore ⟨e', he', heq⟩⟩, rfl⟩
      obtain ⟨l, hl, -, hname⟩ := h.location_of_old hold
      rw [own_of_unchanged fun change hmem ↦
        Diffs.identifier_ne_of_mem h.nodup_old h.nodup_new hold he hmem]
      exact .same he rfl hl hname
  · have hgone : ∀ e ∈ new, e.identifier ≠ k := fun e he heq ↦ hnew ⟨e, he, heq⟩
    by_cases hold : ∃ e ∈ old, e.identifier = k
    · obtain ⟨e, he, rfl⟩ := hold
      obtain ⟨l, hl, -⟩ := h.location_of_old he
      have hne : map.location e.identifier ≠ none := by simp [hl]
      have hmem : .removed e ∈ Changes.compare old new :=
        (hcompare h.nodup_old h.nodup_new).mpr ⟨he, hgone⟩
      rw [own_of_removed hk h.populated (filter_change hnodup hmem),
        if_pos (PathMap.knows_iff.mpr hne)]
      exact .removed hgone hne
    · have hnone : map.location k = none := by
        by_contra hne
        obtain ⟨l, hl⟩ := Option.ne_none_iff_exists'.mp hne
        have hparent := Option.some.inj ((h.coherent k l hl).symm.trans hk)
        obtain ⟨e, he, hid, -⟩ := h.mem_children.mp ⟨l, hl, hparent, rfl⟩
        exact hold ⟨e, he, hid⟩
      rw [own_of_unchanged]
      · exact .absent hgone hnone
      · intro change hmem heq
        have hreport := (hcompare h.nodup_old h.nodup_new).mp hmem
        cases change with
        | removed e => exact hold ⟨e, hreport.1, heq⟩
        | changed before after => exact hgone after hreport.2.1 heq
        | new e => exact hgone e hreport.1 heq

/-- Every step of the plan concerns an entry of the container. -/
theorem parent_of_step (hs : step ∈ (Plan.plan process number map (Changes.compare old new)).1) :
    step.identifier.parent = some c := by
  obtain ⟨change, hmem, heq⟩ := exists_change hs
  rw [← heq]
  exact h.parent_of_change hmem

end Setting

end Fates

section Moments

theorem placed_nil (l : Option PathMap.Location) : placed c k [] l = l := rfl

theorem placed_cons (s : Step) (steps : List Step) (l : Option PathMap.Location) :
    placed c k (s :: steps) l = placed c k steps (effect c k s l) := rfl

theorem effect_remove (l : Option PathMap.Location) : effect c k (.remove k) l = none := if_pos rfl

theorem effect_staging (l : PathMap.Location) :
    effect c k (.stagingName k name) (some l) = some { l with name := name } := by
  rw [effect, Option.map_some, if_pos rfl]

theorem effect_final (l : PathMap.Location) :
    effect c k (.finalName k name) (some l) = some { l with name := name } := by
  rw [effect, Option.map_some, if_pos rfl]

theorem effect_create (l : Option PathMap.Location) :
    effect c e.identifier (.create e) l = some ⟨c, e.name, e.isFolder⟩ := if_pos rfl

theorem placed_rest {rest : List Step} (h : rest = [] ∨ ∃ stale, rest = [.update e stale])
    (hb : b <+: rest) (l : Option PathMap.Location) : placed c k b l = l := by
  rcases h with rfl | ⟨stale, rfl⟩
  · rw [List.prefix_nil.mp hb, placed_nil]
  · rcases List.prefix_cons_iff.mp hb with rfl | ⟨t, rfl, ht⟩
    · rfl
    · rw [List.prefix_nil.mp ht]
      rfl

/-- Between two steps of the plan an entry has its name of the new listing, its staging name or, as
long as no final names are given, the one it had. -/
theorem named_of_fate {n : ℕ} (h : Fate map new k (b ++ r)) (hr : ∀ s ∈ r, n ≤ phase s)
    (hl : placed c k b (map.location k) = some l) :
    (∃ e ∈ new, e.identifier = k ∧ e.name = l.name) ∨ .stagingName k l.name ∈ b ∨
      (n ≤ 1 ∧ map.location k = some l) := by
  generalize hsteps : b ++ r = steps at h
  cases h with
  | @same e l' he hid hlocation hname =>
    obtain ⟨rfl, rfl⟩ := List.append_eq_nil_iff.mp hsteps
    rw [placed_nil, hlocation] at hl
    obtain rfl := Option.some.inj hl
    exact .inl ⟨e, he, hid, hname.symm⟩
  | absent hgone hnone =>
    obtain ⟨rfl, rfl⟩ := List.append_eq_nil_iff.mp hsteps
    rw [placed_nil, hnone] at hl
    cases hl
  | removed hgone hknown =>
    rcases List.append_eq_cons_iff.mp hsteps with ⟨rfl, rfl⟩ | ⟨t, rfl, ht⟩
    · exact .inr (.inr ⟨(hr _ List.mem_cons_self).trans (Nat.zero_le 1), hl⟩)
    · obtain ⟨rfl, rfl⟩ := List.append_eq_nil_iff.mp ht.symm
      rw [placed_cons, effect_remove, placed_nil] at hl
      cases hl
  | @planned e _ he hid hplanned =>
    subst hid
    cases hplanned with
    | create hnone =>
      rcases List.append_eq_cons_iff.mp hsteps with ⟨rfl, rfl⟩ | ⟨t, rfl, ht⟩
      · rw [placed_nil, hnone] at hl
        cases hl
      · obtain ⟨rfl, rfl⟩ := List.append_eq_nil_iff.mp ht.symm
        rw [placed_cons, effect_create, placed_nil] at hl
        obtain rfl := Option.some.inj hl
        exact .inl ⟨e, he, rfl, rfl⟩
    | @replace l' hlocation hkind =>
      rcases List.append_eq_cons_iff.mp hsteps with ⟨rfl, rfl⟩ | ⟨t, rfl, ht⟩
      · exact .inr (.inr ⟨(hr _ List.mem_cons_self).trans (Nat.zero_le 1), hl⟩)
      · rw [placed_cons, effect_remove] at hl
        rcases List.append_eq_cons_iff.mp ht.symm with ⟨rfl, rfl⟩ | ⟨u, rfl, hu⟩
        · cases hl
        · obtain ⟨rfl, rfl⟩ := List.append_eq_nil_iff.mp hu.symm
          rw [placed_cons, effect_create, placed_nil] at hl
          obtain rfl := Option.some.inj hl
          exact .inl ⟨e, he, rfl, rfl⟩
    | @keep l' _ hlocation hkind hname hrest =>
      rw [placed_rest hrest ⟨r, hsteps⟩, hlocation] at hl
      obtain rfl := Option.some.inj hl
      exact .inl ⟨e, he, rfl, hname.symm⟩
    | @rename l' between rest hlocation hkind hrest =>
      rcases List.append_eq_cons_iff.mp hsteps with ⟨rfl, rfl⟩ | ⟨t, rfl, ht⟩
      · exact .inr (.inr ⟨hr _ List.mem_cons_self, hl⟩)
      · rw [placed_cons, hlocation, effect_staging] at hl
        rcases List.append_eq_cons_iff.mp ht.symm with ⟨rfl, rfl⟩ | ⟨u, rfl, hu⟩
        · obtain rfl := Option.some.inj hl
          exact .inr (.inl List.mem_cons_self)
        · rw [placed_cons, effect_final, placed_rest hrest ⟨r, hu.symm⟩] at hl
          obtain rfl := Option.some.inj hl
          exact .inl ⟨e, he, rfl, rfl⟩

/-- What is created stands nowhere before. -/
theorem at_create (h : Fate map new k (b ++ .create e :: r)) :
    e ∈ new ∧ placed c k b (map.location k) = none := by
  generalize hsteps : b ++ .create e :: r = steps at h
  have hmem : .create e ∈ steps := by
    rw [← hsteps]
    exact List.mem_append_right _ List.mem_cons_self
  cases h with
  | same => cases hmem
  | absent => cases hmem
  | removed => simp at hmem
  | @planned e' _ he hid hplanned =>
    subst hid
    cases hplanned with
    | create hnone =>
      obtain rfl := Step.create.inj (List.mem_singleton.mp hmem)
      rcases List.append_eq_cons_iff.mp hsteps with ⟨rfl, -⟩ | ⟨t, rfl, ht⟩
      · exact ⟨he, hnone⟩
      · simp at ht
    | replace hlocation hkind =>
      rcases List.append_eq_cons_iff.mp hsteps with ⟨rfl, hcons⟩ | ⟨t, rfl, ht⟩
      · simp at hcons
      · rcases List.append_eq_cons_iff.mp ht.symm with ⟨rfl, hcons⟩ | ⟨u, rfl, hu⟩
        · obtain ⟨rfl, -⟩ : e = e' ∧ r = [] := by simpa using hcons
          exact ⟨he, @effect_remove c _ _⟩
        · simp at hu
    | keep hlocation hkind hname hrest => rcases hrest with rfl | ⟨stale, rfl⟩ <;> simp at hmem
    | rename hlocation hkind hrest => rcases hrest with rfl | ⟨stale, rfl⟩ <;> simp at hmem

/-- The final name is the one of the new listing. -/
theorem at_final (h : Fate map new k steps) (hmem : .finalName i name ∈ steps) :
    ∃ e ∈ new, e.identifier = k ∧ e.name = name := by
  cases h with
  | same => cases hmem
  | absent => cases hmem
  | removed => simp at hmem
  | @planned e' _ he hid hplanned =>
    cases hplanned with
    | create hnone => simp at hmem
    | replace hlocation hkind => simp at hmem
    | keep hlocation hkind hname hrest => rcases hrest with rfl | ⟨stale, rfl⟩ <;> simp at hmem
    | rename hlocation hkind hrest =>
      have hname : e'.name = name := by
        rcases hrest with rfl | ⟨stale, rfl⟩
        · simp only [List.mem_cons, reduceCtorEq, Step.finalName.injEq, List.not_mem_nil, or_false,
            false_or] at hmem
          exact hmem.2.symm
        · simp only [List.mem_cons, reduceCtorEq, Step.finalName.injEq, List.not_mem_nil, or_false,
            false_or] at hmem
          exact hmem.2.symm
      exact ⟨e', he, hid, hname⟩

/-- Whatever is not created is known when its step comes. -/
theorem known_of_fate (h : Fate map new k (b ++ step :: r)) (hstep : ∀ e, step ≠ .create e) :
    placed c k b (map.location k) ≠ none := by
  generalize hsteps : b ++ step :: r = steps at h
  cases h with
  | same => simp at hsteps
  | absent => simp at hsteps
  | removed hgone hknown =>
    rcases List.append_eq_cons_iff.mp hsteps with ⟨rfl, -⟩ | ⟨t, rfl, ht⟩
    · exact hknown
    · simp at ht
  | @planned e _ he hid hplanned =>
    subst hid
    cases hplanned with
    | create hnone =>
      rcases List.append_eq_cons_iff.mp hsteps with ⟨rfl, hcons⟩ | ⟨t, rfl, ht⟩
      · exact absurd (List.cons.inj hcons).1 (hstep e)
      · simp at ht
    | replace hlocation hkind =>
      rcases List.append_eq_cons_iff.mp hsteps with ⟨rfl, hcons⟩ | ⟨t, rfl, ht⟩
      · rw [placed_nil, hlocation]
        exact Option.some_ne_none _
      · rcases List.append_eq_cons_iff.mp ht.symm with ⟨rfl, hcons⟩ | ⟨u, rfl, hu⟩
        · exact absurd (List.cons.inj hcons).1 (hstep e)
        · simp at hu
    | keep hlocation hkind hname hrest =>
      rw [placed_rest hrest ⟨_, hsteps⟩, hlocation]
      exact Option.some_ne_none _
    | rename hlocation hkind hrest =>
      rcases List.append_eq_cons_iff.mp hsteps with ⟨rfl, hcons⟩ | ⟨t, rfl, ht⟩
      · rw [placed_nil, hlocation]
        exact Option.some_ne_none _
      · rw [placed_cons, hlocation, effect_staging]
        rcases List.append_eq_cons_iff.mp ht.symm with ⟨rfl, hcons⟩ | ⟨u, rfl, hu⟩
        · exact Option.some_ne_none _
        · rw [placed_cons, effect_final, placed_rest hrest ⟨_, hu.symm⟩]
          exact Option.some_ne_none _

/-- After all its steps an entry stands as the new listing has it. -/
theorem placed_of_fate (h : Fate map new k steps) :
    ((∀ e ∈ new, e.identifier ≠ k) ∧ placed c k steps (map.location k) = none) ∨
      ∃ e ∈ new, e.identifier = k ∧
        ∃ l, placed c k steps (map.location k) = some l ∧ l.name = e.name := by
  cases h with
  | same he hid hlocation hname => exact .inr ⟨_, he, hid, _, hlocation, hname⟩
  | absent hgone hnone => exact .inl ⟨hgone, hnone⟩
  | removed hgone hknown => exact .inl ⟨hgone, @effect_remove c k _⟩
  | @planned e _ he hid hplanned =>
    subst hid
    refine .inr ⟨e, he, rfl, ?_⟩
    cases hplanned with
    | create hnone => exact ⟨_, effect_create _, rfl⟩
    | replace hlocation hkind => exact ⟨_, effect_create _, rfl⟩
    | @keep l _ hlocation hkind hname hrest =>
      refine ⟨l, ?_, hname⟩
      rw [placed_rest hrest (List.prefix_refl _), hlocation]
    | @rename l between rest hlocation hkind hrest =>
      refine ⟨{ l with name := e.name }, ?_, rfl⟩
      rw [placed_cons, hlocation, effect_staging, placed_cons, effect_final,
        placed_rest hrest (List.prefix_refl _)]

theorem count_own {f : Step → Option EntryIdentifier} (hf : ∀ s i, f s = some i → s.identifier = i)
    (steps : List Step) (k : EntryIdentifier) :
    (steps.filterMap f).count k = ((own k steps).filterMap f).count k := by
  induction steps with
  | nil => rfl
  | cons step steps ih =>
    by_cases hown : step.identifier = k
    · have hcons : own k (step :: steps) = step :: own k steps :=
        List.filter_cons_of_pos (decide_eq_true hown)
      rw [hcons, List.filterMap_cons, List.filterMap_cons]
      split
      · exact ih
      · rw [List.count_cons, List.count_cons, ih]
    · have hcons : own k (step :: steps) = own k steps :=
        List.filter_cons_of_neg (by simpa using hown)
      rw [hcons, List.filterMap_cons]
      split
      · exact ih
      next i hi =>
        rw [List.count_cons_of_ne, ih]
        intro heq
        exact hown ((hf step i hi).trans heq)

theorem count_of_fate (h : Fate map new k steps) :
    (steps.filterMap removedBy).count k ≤ 1 ∧ (steps.filterMap createdBy).count k ≤ 1 := by
  cases h with
  | same => exact ⟨Nat.zero_le 1, Nat.zero_le 1⟩
  | absent => exact ⟨Nat.zero_le 1, Nat.zero_le 1⟩
  | removed => exact ⟨List.count_le_length, Nat.zero_le 1⟩
  | planned he hid hplanned =>
    cases hplanned with
    | create => exact ⟨Nat.zero_le 1, List.count_le_length⟩
    | replace => exact ⟨List.count_le_length, List.count_le_length⟩
    | keep hlocation hkind hname hrest =>
      rcases hrest with rfl | ⟨stale, rfl⟩ <;> exact ⟨Nat.zero_le 1, Nat.zero_le 1⟩
    | rename hlocation hkind hrest =>
      rcases hrest with rfl | ⟨stale, rfl⟩ <;> exact ⟨Nat.zero_le 1, Nat.zero_le 1⟩

end Moments

section Results

namespace Setting

variable (h : Setting unicode map c old new)

include h

theorem parent_of_prefix (hsplit : (Plan.plan process number map (Changes.compare old new)).1 =
    before ++ after) : ∀ s ∈ before, s.identifier.parent = some c := by
  intro s hs
  apply h.parent_of_step
  rw [hsplit]
  exact List.mem_append_left _ hs

/-- Where the entries of the container lie between two steps of the plan. -/
theorem location_between (hsplit : (Plan.plan process number map (Changes.compare old new)).1 =
    before ++ after) (hk : k.parent = some c) :
    Fate map new k (own k before ++ own k after) ∧
      (before.foldl acted map).location k = placed c k (own k before) (map.location k) := by
  have hfate := @Setting.fate unicode map c k process number old new h hk
  rw [hsplit, own_append] at hfate
  exact ⟨hfate, location_run (h.parent_of_prefix hsplit) h.populated hk⟩

theorem mem_children_between (hsplit :
    (Plan.plan process number map (Changes.compare old new)).1 = before ++ after)
    {x : EntryIdentifier × String} (hx : x ∈ children (before.foldl acted map) c) :
    x.1.parent = some c ∧ ∃ l, l.name = x.2 ∧
      placed c x.1 (own x.1 before) (map.location x.1) = some l := by
  obtain ⟨l, hl, rfl, hname⟩ := hx
  have hparent := h.coherent.run before _ _ hl
  exact ⟨hparent, l, hname, (h.location_between hsplit hparent).2.symm.trans hl⟩

/-- Between two steps of the plan, of which the second is of a given kind, an entry of the container
has its name of the new listing, its staging name or its name of the old listing. -/
theorem named (hsplit : (Plan.plan process number map (Changes.compare old new)).1 =
    before ++ step :: after) {x : EntryIdentifier × String}
    (hx : x ∈ children (before.foldl acted map) c) :
    (∃ e ∈ new, e.identifier = x.1 ∧ e.name = x.2) ∨
      .stagingName x.1 x.2 ∈ (Plan.plan process number map (Changes.compare old new)).1 ∨
        (phase step ≤ 1 ∧ ∃ e ∈ old, e.identifier = x.1 ∧ e.name = x.2) := by
  obtain ⟨hparent, l, hname, hl⟩ := h.mem_children_between hsplit hx
  obtain ⟨hfate, -⟩ := h.location_between hsplit hparent
  obtain ⟨plan, hplan, -, hfiled⟩ := filed_plan process number map (Changes.compare old new)
  have hsorted := hfiled.sorted
  rw [← hplan, hsplit] at hsorted
  have hlater : ∀ s ∈ own x.1 (step :: after), phase step ≤ phase s :=
    fun s hs ↦ (phases_of_sorted hsorted).2 s (List.mem_filter.mp hs).1
  rcases named_of_fate hfate hlater hl with ⟨e, he, hid, hnew⟩ | hstaging | ⟨hphase, hold⟩
  · exact .inl ⟨e, he, hid, hnew.trans hname⟩
  · rw [hsplit, ← hname]
    exact .inr (.inl (List.mem_append_left _ (List.mem_filter.mp hstaging).1))
  · have hc := Option.some.inj ((h.coherent _ l hold).symm.trans hparent)
    exact .inr (.inr ⟨hphase, h.mem_children.mp ⟨l, hold, hc, hname⟩⟩)

theorem free_between (hfresh : Fresh unicode process number
      (Plan.plan process number map (Changes.compare old new)).2 (old ++ new))
    (hsplit : (Plan.plan process number map (Changes.compare old new)).1 =
      before ++ step :: after) : Free unicode (before.foldl acted map) c step := by
  obtain ⟨plan, hplan, hlast, hfiled⟩ := filed_plan process number map (Changes.compare old new)
  obtain ⟨numberOf, hrange, hone, hstaging⟩ := hfiled.staging
  have hnamed : ∀ {i name}, .stagingName i name ∈
      (Plan.plan process number map (Changes.compare old new)).1 →
        ∃ n, numberOf i n ∧ name = stagingName process n := by
    intro i name hmem
    rw [hplan] at hmem
    exact hstaging i name hmem
  rw [hlast] at hfresh
  have hapart : ∀ {i n}, numberOf i n → ∀ e ∈ old ++ new,
      comparisonForm unicode (stagingName process n) ≠ comparisonForm unicode e.name :=
    fun hn ↦ hfresh.apart _ (hrange _ _ hn).1 (hrange _ _ hn).2
  have hstep : step ∈ (Plan.plan process number map (Changes.compare old new)).1 := by
    rw [hsplit]
    exact List.mem_append_right _ List.mem_cons_self
  have hown : step ∈ own step.identifier (step :: after) :=
    List.mem_filter.mpr ⟨List.mem_cons_self, decide_eq_true rfl⟩
  obtain ⟨hfate, hplace⟩ := h.location_between hsplit (h.parent_of_step hstep)
  -- a name of the new listing meets no staging name and no other name of that listing
  have hmeets : ∀ e ∈ new, 1 < phase step → (∀ x ∈ children (before.foldl acted map) c,
      x.1 ≠ e.identifier → comparisonForm unicode x.2 ≠ comparisonForm unicode e.name) := by
    intro e he hphase x hx hne hform
    rcases h.named hsplit hx with ⟨e', he', hid, hname⟩ | hmem | ⟨hle, -⟩
    · rw [← hname] at hform
      exact hne (hid.symm.trans (congrArg _ (h.eq_of_form he' he hform)))
    · obtain ⟨n, hn, hname⟩ := hnamed hmem
      rw [hname] at hform
      exact hapart hn e (List.mem_append_right _ he) hform
    · omega
  cases step with
  | remove i => trivial
  | update e stale => trivial
  | stagingName i name =>
    intro x hx hne hform
    obtain ⟨n, hn, rfl⟩ := hnamed hstep
    rcases h.named hsplit hx with ⟨e, he, -, hname⟩ | hmem | ⟨-, e, he, -, hname⟩
    · rw [← hname] at hform
      exact hapart hn e (List.mem_append_right _ he) hform.symm
    · obtain ⟨m, hm, hname⟩ := hnamed hmem
      rw [hname] at hform
      obtain rfl := hfresh.distinct m n (hrange _ _ hm).1 (hrange _ _ hm).2 (hrange _ _ hn).1
        (hrange _ _ hn).2 hform
      exact hne (hone _ _ m hm hn)
    · rw [← hname] at hform
      exact hapart hn e (List.mem_append_left _ he) hform.symm
  | finalName i name =>
    obtain ⟨e, he, hid, rfl⟩ := at_final hfate (List.mem_append_right _ hown)
    have hid : e.identifier = i := hid
    exact hid ▸ hmeets e he (show 1 < 2 by decide)
  | create e =>
    intro x hx
    have hcons : own e.identifier (.create e :: after) = .create e :: own e.identifier after :=
      List.filter_cons_of_pos (decide_eq_true rfl)
    have hfate : Fate map new e.identifier
        (own e.identifier before ++ .create e :: own e.identifier after) := hcons ▸ hfate
    obtain ⟨he, hnone⟩ := @at_create map c e.identifier e _ _ new hfate
    refine hmeets e he (show 1 < 4 by decide) x hx fun heq ↦ ?_
    obtain ⟨-, l, -, hl⟩ := h.mem_children_between hsplit hx
    rw [heq, hnone] at hl
    cases hl

/-- What no entry has twice among its own steps occurs once in the plan. -/
theorem nodup_steps {f : Step → Option EntryIdentifier}
    (hf : ∀ s i, f s = some i → s.identifier = i)
    (hone : ∀ k steps, Fate map new k steps → (steps.filterMap f).count k ≤ 1) :
    ((Plan.plan process number map (Changes.compare old new)).1.filterMap f).Nodup := by
  refine List.nodup_iff_count_le_one.mpr fun k ↦ ?_
  by_cases hk : k.parent = some c
  · rw [count_own hf]
    exact hone k _ (h.fate hk)
  · rw [List.count_eq_zero_of_not_mem]
    · exact Nat.zero_le 1
    · intro hmem
      obtain ⟨s, hs, hi⟩ := List.mem_filterMap.mp hmem
      exact hk (hf s k hi ▸ h.parent_of_step hs)

theorem children_reached : children
    ((Plan.plan process number map (Changes.compare old new)).1.foldl acted map) c =
      listing new := by
  ext ⟨k, name⟩
  have hsplit : (Plan.plan process number map (Changes.compare old new)).1 =
      (Plan.plan process number map (Changes.compare old new)).1 ++ [] := (List.append_nil _).symm
  have hend : k.parent = some c → ((∀ e ∈ new, e.identifier ≠ k) ∧ ((Plan.plan process number map
      (Changes.compare old new)).1.foldl acted map).location k = none) ∨
        ∃ e ∈ new, e.identifier = k ∧ ∃ l, ((Plan.plan process number map
          (Changes.compare old new)).1.foldl acted map).location k = some l ∧ l.name = e.name := by
    intro hk
    rw [(h.location_between hsplit hk).2]
    exact placed_of_fate (h.fate hk)
  constructor
  · rintro ⟨l, hl, rfl, rfl⟩
    rcases hend (h.coherent.run _ _ _ hl) with ⟨-, hnone⟩ | ⟨e, he, rfl, l', hl', hname⟩
    · cases hnone.symm.trans hl
    · obtain rfl := Option.some.inj (hl'.symm.trans hl)
      exact ⟨e, he, Prod.ext rfl hname.symm⟩
  · rintro ⟨e, he, heq⟩
    obtain ⟨rfl, rfl⟩ := Prod.mk.inj heq
    have hparent := h.parent_new he
    rcases hend hparent with ⟨hgone, -⟩ | ⟨e', he', hid, l, hl, hname⟩
    · exact absurd rfl (hgone e he)
    · have hsame := List.inj_on_of_nodup_map h.nodup_new he' he hid
      have hc := Option.some.inj ((h.coherent.run _ _ _ hl).symm.trans hparent)
      exact ⟨l, hl, hc, hname.trans (congrArg Entry.name hsame)⟩

theorem arrives (hfresh : Fresh unicode process number
    (Plan.plan process number map (Changes.compare old new)).2 (old ++ new)) :
    Arrives unicode map c (Plan.plan process number map (Changes.compare old new)).1 new where
  free _ _ _ hsplit := h.free_between hfresh hsplit
  removedOnce := by
    refine h.nodup_steps (fun s i hs ↦ ?_) fun k steps hfate ↦ (count_of_fate hfate).1
    cases s <;> cases hs
    rfl
  createdOnce := by
    refine h.nodup_steps (fun s i hs ↦ ?_) fun k steps hfate ↦ (count_of_fate hfate).2
    cases s <;> cases hs
    rfl
  elsewhere before hprefix d hd hbelow := by
    have hmem := hprefix.subset
    exact elsewhere_run (fun s hs ↦ h.parent_of_step (hmem hs)) hd fun i hi ↦ hbelow i (hmem hi)
  reached := h.children_reached

end Setting

end Results

section Carrying

theorem toList_stagingName (process number : ℕ) : (stagingName process number).toList =
    "~edms-".toList ++ Nat.toDigits 10 process ++ '-' :: Nat.toDigits 10 number ++
      ".tmp".toList := by
  simp [stagingName, toString, Nat.repr]

theorem good_of_digit {c : Char} (h : c.isDigit = true) : Good c ∧ utf16Size c = 1 := by
  have hrange : 48 ≤ c.toNat ∧ c.toNat ≤ 57 := by
    simp only [Char.isDigit, Bool.and_eq_true, decide_eq_true_eq, ge_iff_le,
      UInt32.le_iff_toNat_le] at h
    exact h
  have hforbidden : ∀ d ∈ forbidden, d.isDigit = false := forall_of_all (by decide)
  refine ⟨⟨by omega, fun hmem ↦ ?_⟩, if_pos (by omega)⟩
  rw [hforbidden c hmem] at h
  cases h

theorem good_digits {n limit : ℕ} (hlimit : 0 < limit) (h : n < 10 ^ limit) :
    (∀ c ∈ Nat.toDigits 10 n, Good c) ∧ utf16Length (Nat.toDigits 10 n) ≤ limit := by
  have hdigits := (digits_toDigits n).2
  refine ⟨fun c hc ↦ (good_of_digit (hdigits c hc)).1, ?_⟩
  have hone : (Nat.toDigits 10 n).map utf16Size = (Nat.toDigits 10 n).map fun _ ↦ 1 :=
    List.map_congr_left fun c hc ↦ (good_of_digit (hdigits c hc)).2
  rw [utf16Length, hone, List.map_const', List.sum_replicate, smul_eq_mul, Nat.mul_one]
  exact (Nat.length_toDigits_le_iff (by decide) hlimit).mpr h

theorem sound_stagingName (hprocess : process < 2 ^ 32) (hnumber : number < 2 ^ 64) :
    Sound 41 (stagingName process number).toList := by
  obtain ⟨hgood, hshort⟩ := @good_digits process 10 (by decide) (hprocess.trans (by decide))
  obtain ⟨hgood', hshort'⟩ := @good_digits number 20 (by decide) (hnumber.trans (by decide))
  have hfront : ∀ c ∈ "~edms-".toList, Good c := forall_of_all (by decide)
  have hback : ∀ c ∈ ".tmp".toList, Good c := forall_of_all (by decide)
  rw [toList_stagingName]
  refine ⟨fun c hc ↦ ?_, ⟨'p', List.getLast?_append_of_ne_nil _ (by decide), by decide⟩, ?_⟩
  · simp only [List.append_assoc, List.mem_append, List.cons_append, List.mem_cons] at hc
    rcases hc with hc | hc | rfl | hc | hc
    · exact hfront c hc
    · exact hgood c hc
    · decide
    · exact hgood' c hc
    · exact hback c hc
  · have hlengths : utf16Length "~edms-".toList = 6 ∧ utf16Length ".tmp".toList = 4 ∧
        utf16Length ['-'] = 1 := by decide
    have hcons : '-' :: Nat.toDigits 10 number = ['-'] ++ Nat.toDigits 10 number := rfl
    rw [hcons, utf16Length_append, utf16Length_append, utf16Length_append, utf16Length_append]
    omega

/-- No device has a name that begins like a staging name. -/
theorem device_of_tilde {rest : List Char} : device ('~' :: rest) ∉ deviceName := by
  have hnames : ∀ n ∈ deviceName, n.toList.head? ≠ some '~' := by decide
  intro hmem
  apply hnames _ hmem
  have htake : ('~' :: rest).takeWhile (· ≠ '.') = '~' :: rest.takeWhile (· ≠ '.') := rfl
  obtain ⟨t, ht⟩ : ∃ t, (('~' :: rest).takeWhile (· ≠ '.')).rdropWhile isWhitespace = '~' :: t := by
    rw [htake]
    have hprefix := List.rdropWhile_prefix isWhitespace ('~' :: rest.takeWhile (· ≠ '.'))
    rcases List.prefix_cons_iff.mp hprefix with hnil | ⟨t, ht, -⟩
    · have hblack : isWhitespace '~' = false := by decide
      have hwhite := List.rdropWhile_eq_nil_iff.mp hnil '~' List.mem_cons_self
      cases hblack.symm.trans hwhite
    · exact ⟨t, ht⟩
  rw [device, ht, String.toList_ofList]
  rfl

/-- A staging name is accepted by the check that every rename makes. -/
theorem checkName_stagingName (hprocess : process < 2 ^ 32) (hnumber : number < 2 ^ 64) :
    checkName (stagingName process number) = .ok () := by
  rw [checkName_eq_ok_iff (sound_stagingName hprocess hnumber) (by decide), toList_stagingName]
  exact device_of_tilde

theorem parts_isSome (hcoherent : Coherent map) {limit : ℕ} (hlimit : d.depth ≤ limit)
    (h : Chained map d) : (map.parts limit (.container d)).isSome = true := by
  induction limit generalizing d with
  | zero =>
    have hroot : d = .root := by
      cases d <;> first | rfl | cases hlimit
    rw [PathMap.parts, if_pos (congrArg _ hroot)]
    rfl
  | succ limit ih =>
    rcases h d List.mem_cons_self with rfl | hknown
    · rfl
    · obtain ⟨l, hl⟩ := Option.ne_none_iff_exists'.mp (PathMap.knows_iff.mp hknown)
      have hparent : d.parent = some l.parent := hcoherent _ l hl
      have hdepth := Container.depth_of_parent hparent
      have hchained : Chained map l.parent := by
        intro b hb
        apply h b
        rw [Container.ancestors_of_parent hparent]
        exact List.mem_cons_of_mem _ hb
      obtain ⟨rest, hrest⟩ := Option.isSome_iff_exists.mp (ih (by omega) hchained)
      unfold PathMap.parts
      split
      · rfl
      · rw [hl]
        simp [hrest]

/-- Whatever is known in a container whose way up is known has a path. -/
theorem pathOf_ok (hcoherent : Coherent map) (hchained : Chained map c)
    (hk : k = .container c ∨ (k.parent = some c ∧ map.location k ≠ none)) :
    ∃ path, pathOf map k = .ok path := by
  have hdepth := c.depth_le
  have hparts : (map.parts PathMap.maxDepth k).isSome = true := by
    rcases hk with rfl | ⟨hparent, hne⟩
    · exact parts_isSome hcoherent (by rw [PathMap.maxDepth]; omega) hchained
    · obtain ⟨l, hl⟩ := Option.ne_none_iff_exists'.mp hne
      have hc := Option.some.inj ((hcoherent _ l hl).symm.trans hparent)
      obtain ⟨rest, hrest⟩ := Option.isSome_iff_exists.mp
        (@parts_isSome map c hcoherent 7 (by omega) hchained)
      unfold PathMap.maxDepth PathMap.parts
      split
      · rfl
      · rw [hl]
        simp [hc, hrest]
  obtain ⟨parts, hparts⟩ := Option.isSome_iff_exists.mp hparts
  rw [pathOf, PathMap.path, hparts]
  exact ⟨_, rfl⟩

/-- The name that a step gives. -/
def nameGiven : Step → Option String
  | .remove _ | .update _ _ => none
  | .stagingName _ name | .finalName _ name => some name
  | .create e => some e.name

/-- A step in a container whose way up is known is carried out where Windows agrees: what it does
not create is known, and the name it gives is accepted. -/
theorem runStep_ok (hcoherent : Coherent map) (hchained : Chained map c)
    (hparent : step.identifier.parent = some c)
    (hknown : (∀ e, step ≠ .create e) → map.location step.identifier ≠ none)
    (hname : ∀ name, nameGiven step = some name → checkName name = .ok ()) :
    runStep map (.ok ()) step = .ok (acted map step) := by
  have hpath : (∀ e, step ≠ .create e) → ∃ path, pathOf map step.identifier = .ok path :=
    fun hne ↦ pathOf_ok hcoherent hchained (.inr ⟨hparent, hknown hne⟩)
  have hrename : ∀ {i name}, (∃ path, pathOf map i = .ok path) → checkName name = .ok () →
      renameEntry map i name (.ok ()) = .ok (map.rename i name) := by
    rintro i name ⟨path, hpath⟩ hname
    rw [renameEntry, hname, hpath]
    rfl
  cases step with
  | remove i =>
    obtain ⟨path, hpath⟩ := hpath fun e ↦ by simp
    have hpath : pathOf map i = .ok path := hpath
    rw [runStep, removeEntry, hpath]
    rfl
  | stagingName i name => exact hrename (hpath fun e ↦ by simp) (hname name rfl)
  | finalName i name => exact hrename (hpath fun e ↦ by simp) (hname name rfl)
  | update e stale =>
    obtain ⟨path, hpath⟩ := hpath fun e ↦ by simp
    have hpath : pathOf map e.identifier = .ok path := hpath
    rw [runStep, hpath]
    rfl
  | create e =>
    obtain ⟨path, hpath⟩ := pathOf_ok hcoherent hchained (.inl rfl)
    have hparent : e.identifier.parent = some c := hparent
    rw [runStep, hname e.name rfl, hparent]
    dsimp only
    rw [hpath]
    rfl

/-- Steps that are each carried out where they stand are carried out one after the other. -/
theorem runSteps_of_split {n : ℕ} (h : ∀ before step after, steps = before ++ step :: after →
    ∀ m, runStep (before.foldl acted map) (answers m) step =
      .ok (acted (before.foldl acted map) step)) :
    runSteps answers n map steps = (steps.foldl acted map, steps.map fun s ↦ (s, none)) := by
  induction steps generalizing map n with
  | nil => rfl
  | cons step steps ih =>
    have hfirst := h [] step steps rfl n
    rw [runSteps]
    rw [List.foldl_nil] at hfirst
    rw [hfirst]
    dsimp only
    rw [ih fun before s after hsplit ↦ h (step :: before) s after (by rw [hsplit]; rfl)]
    rfl

namespace Setting

variable (h : Setting unicode map c old new)

include h

theorem chained_between (hchained : Chained map c)
    (hsplit : (Plan.plan process number map (Changes.compare old new)).1 = before ++ after) :
    Chained (before.foldl acted map) c := by
  have hparents := h.parent_of_prefix hsplit
  intro d hd
  refine (hchained d hd).imp_right fun hknown ↦ ?_
  cases hp : (EntryIdentifier.container d).parent with
  | none =>
    obtain ⟨l, hl⟩ := Option.ne_none_iff_exists'.mp (PathMap.knows_iff.mp hknown)
    cases hp.symm.trans (h.coherent _ l hl)
  | some p =>
    have hdp : d.parent = some p := hp
    have hupper : p.depth < c.depth ∧ (p = c ∨ p ∈ c.ancestors) := by
      have hdepth := Container.depth_of_parent hdp
      rcases List.mem_cons.mp hd with rfl | hd
      · rw [Container.ancestors_of_parent hdp]
        exact ⟨by omega, .inr List.mem_cons_self⟩
      · have hlt := Container.depth_lt_of_mem_ancestors hd
        exact ⟨by omega, .inr (Container.mem_ancestors_of_mem hd hdp)⟩
    have hne : p ≠ c := fun heq ↦ lt_irrefl _ (heq ▸ hupper.1)
    have hsame := (@elsewhere_run map c p before hparents hne fun i hi ↦
      not_below (hparents _ hi) hupper.2).2 _ hp
    rw [PathMap.knows_iff, hsame]
    exact PathMap.knows_iff.mp hknown

/-- With the way up to the container known and Windows agreeing to every call, each step of the plan
is carried out and acts on the map as above. -/
theorem carried (hchained : Chained map c) (hanswers : ∀ n, answers n = .ok ())
    (hprocess : process < 2 ^ 32)
    (hlast : (Plan.plan process number map (Changes.compare old new)).2 ≤ 2 ^ 64) (n : ℕ) :
    runSteps answers n map (Plan.plan process number map (Changes.compare old new)).1 =
      ((Plan.plan process number map (Changes.compare old new)).1.foldl acted map,
        (Plan.plan process number map (Changes.compare old new)).1.map fun s ↦ (s, none)) := by
  apply runSteps_of_split
  intro before step after hsplit m
  rw [hanswers m]
  have hstep : step ∈ (Plan.plan process number map (Changes.compare old new)).1 := by
    rw [hsplit]
    exact List.mem_append_right _ List.mem_cons_self
  have hparent := h.parent_of_step hstep
  obtain ⟨hfate, hplace⟩ := h.location_between hsplit hparent
  have hcons : own step.identifier (step :: after) = step :: own step.identifier after :=
    List.filter_cons_of_pos (decide_eq_true rfl)
  rw [hcons] at hfate
  have hcoherent := h.coherent.run before
  have hchain := h.chained_between hchained hsplit
  have hnamed : ∀ e ∈ new, checkName e.name = .ok () :=
    fun e he ↦ ((accepted_of_checkListFrom h.accepted).1 e he).2.1
  apply runStep_ok hcoherent hchain hparent
  · rw [hplace]
    exact known_of_fate hfate
  · intro name hname
    cases step with
    | remove i => cases hname
    | update e stale => cases hname
    | stagingName i between =>
      obtain rfl := Option.some.inj hname
      obtain ⟨plan, hplan, hnumber, hfiled⟩ :=
        filed_plan process number map (Changes.compare old new)
      obtain ⟨numberOf, hrange, -, hstaging⟩ := hfiled.staging
      rw [hplan] at hstep
      obtain ⟨k, hk, rfl⟩ := hstaging i between hstep
      have hlt := (hrange i k hk).2
      exact checkName_stagingName hprocess (by omega)
    | finalName i final =>
      obtain rfl := Option.some.inj hname
      obtain ⟨e, he, -, rfl⟩ := at_final hfate (List.mem_append_right _ List.mem_cons_self)
      exact hnamed e he
    | create e =>
      obtain rfl := Option.some.inj hname
      obtain ⟨he, -⟩ := @at_create map c e.identifier e _ _ new hfate
      exact hnamed e he

end Setting

/-- The steps between two listings of a populated container lead from the one to the other and never
onto a name that is taken, and they are carried out where Windows agrees; a container that is not
populated has no steps. -/
theorem plan_arrives (unicode : Unicode) (process number : ℕ) (map : PathMap) (c : Container)
    (old new : List Entry) (h : Setting unicode map c old new)
    (hfresh : Fresh unicode process number
      (Plan.plan process number map (Changes.compare old new)).2 (old ++ new)) :
    Arrives unicode map c (Plan.plan process number map (Changes.compare old new)).1 new ∧
    (Chained map c → process < 2 ^ 32 →
      (Plan.plan process number map (Changes.compare old new)).2 ≤ 2 ^ 64 →
        ∀ answers : ℕ → Except OsError Unit, (∀ n, answers n = .ok ()) → ∀ n,
          runSteps answers n map (Plan.plan process number map (Changes.compare old new)).1 =
            ((Plan.plan process number map (Changes.compare old new)).1.foldl acted map,
              (Plan.plan process number map (Changes.compare old new)).1.map fun s ↦ (s, none))) ∧
    ∀ changes, Plan.plan process number map changes = Plan.plan process number map
      (changes.filter fun change ↦ change.identifier.parent.any map.isPopulated) :=
  ⟨h.arrives hfresh,
    fun hchained hprocess hlast _ hanswers n ↦ h.carried hchained hanswers hprocess hlast n,
    plan_filter process number map⟩

section Swapped

def north (name : String) : Entry := ⟨.container (.archive ⟨1⟩), name, .folder⟩

def south (name : String) : Entry := ⟨.container (.archive ⟨2⟩), name, .folder⟩

def twoArchives : PathMap :=
  ([.create ⟨.container .archives, "Archive", .folder⟩, .create (north "Nord"),
    .create (south "West")].foldl acted .empty).markPopulated .archives

theorem location_twoArchives (k : EntryIdentifier) : twoArchives.location k =
    if k = (south "West").identifier then some ⟨.archives, "West", true⟩
    else if k = (north "Nord").identifier then some ⟨.archives, "Nord", true⟩
    else if k = .container .archives then some ⟨.root, "Archive", true⟩
    else none := by
  have hbuilt : twoArchives.location k = (((PathMap.empty.set (.container .archives) "Archive"
      true).set (north "Nord").identifier "Nord" true).set (south "West").identifier "West"
        true).location k := rfl
  rw [hbuilt, PathMap.location_set rfl, PathMap.location_set rfl, PathMap.location_set rfl]
  rfl

theorem setting_twoArchives : Setting Reconciling.spelled twoArchives .archives
    [north "Nord", south "West"] [north "WEST", south "nord"] := by
  have hempty : Coherent .empty := fun k l hl ↦ by cases hl
  refine ⟨hempty.run _, rfl, ?_, by decide, by rfl⟩
  ext ⟨k, name⟩
  constructor
  · rintro ⟨l, hl, hparent, hname⟩
    rw [location_twoArchives] at hl
    split at hl
    next hk =>
      obtain rfl := Option.some.inj hl
      exact ⟨south "West", by simp, Prod.ext hk.symm hname⟩
    next =>
      split at hl
      next hk =>
        obtain rfl := Option.some.inj hl
        exact ⟨north "Nord", by simp, Prod.ext hk.symm hname⟩
      next =>
        split at hl
        · obtain rfl := Option.some.inj hl
          cases hparent
        · cases hl
  · rintro ⟨e, he, heq⟩
    obtain ⟨rfl, rfl⟩ := Prod.mk.inj heq
    rcases List.mem_cons.mp he with rfl | he
    · exact ⟨⟨.archives, "Nord", true⟩, location_twoArchives _, rfl, rfl⟩
    · obtain rfl := List.mem_singleton.mp he
      exact ⟨⟨.archives, "West", true⟩, location_twoArchives _, rfl, rfl⟩

/-- Two archives that have swapped their names, in other letters. -/
theorem plan_arrives_swapped : Arrives Reconciling.spelled twoArchives .archives
    (Plan.plan 7 1 twoArchives (Changes.compare [north "Nord", south "West"]
      [north "WEST", south "nord"])).1 [north "WEST", south "nord"] := by
  refine (plan_arrives Reconciling.spelled 7 1 _ _ _ _ setting_twoArchives ?_).1
  have hlast : (Plan.plan 7 1 twoArchives (Changes.compare [north "Nord", south "West"]
      [north "WEST", south "nord"])).2 = 3 := by decide +kernel
  rw [hlast]
  constructor
  · intro n hfirst hn
    obtain rfl | rfl : n = 1 ∨ n = 2 := by omega
    · decide +kernel
    · decide +kernel
  · intro m n hm hm' hn hn' hform
    have hforms : comparisonForm Reconciling.spelled (stagingName 7 1) ≠
        comparisonForm Reconciling.spelled (stagingName 7 2) := by decide +kernel
    obtain rfl | rfl : m = 1 ∨ m = 2 := by omega
    · obtain rfl | rfl : n = 1 ∨ n = 2 := by omega
      · rfl
      · exact absurd hform hforms
    · obtain rfl | rfl : n = 1 ∨ n = 2 := by omega
      · exact absurd hform.symm hforms
      · rfl

end Swapped

end Carrying

end FolderClient.Cfapi.Stages
