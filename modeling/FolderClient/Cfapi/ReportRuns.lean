import FolderClient.Cfapi.StepRuns

namespace FolderClient.Cfapi.ReportRuns

open FolderClient.Cfapi.Mirror FolderClient.Cfapi.Plan FolderClient.Cfapi.StepRuns
open FolderClient.Core.Changes FolderClient.Core.Namespace

variable {map : PathMap} {k : EntryIdentifier} {p : Container} {plan : Plan} {change : Change}
  {changes : List Change} {process number : ℕ} {e : Entry}

section Planning

/-- What a plan holds about one entry. -/
def own (k : EntryIdentifier) (steps : List Step) : List Step :=
  steps.filter fun step ↦ step.identifier = k

def aboutPlan (k : EntryIdentifier) (plan : Plan) : Plan where
  remove := own k plan.remove
  between := own k plan.between
  «end» := own k plan.end
  update := own k plan.update
  create := own k plan.create
  number := 0

theorem own_append (a b : List Step) : own k (a ++ b) = own k a ++ own k b := List.filter_append ..

theorem own_singleton {step : Step} (h : step.identifier = k) : own k [step] = [step] :=
  List.filter_cons_of_pos (decide_eq_true h)

theorem own_singleton_of_ne {step : Step} (h : step.identifier ≠ k) : own k [step] = [] :=
  List.filter_cons_of_neg (by simpa using h)

theorem steps_aboutPlan : (aboutPlan k plan).steps = own k plan.steps := by
  simp only [Plan.steps, aboutPlan, own_append]

theorem aboutPlan_should_of_ne (h : e.identifier ≠ k) (stale detailsChanged : Bool) :
    aboutPlan k (plan.should process map e stale detailsChanged) = aboutPlan k plan := by
  have hremove : own k [.remove e.identifier] = [] := own_singleton_of_ne h
  have hcreate : own k [.create e] = [] := own_singleton_of_ne h
  have hupdate : own k [.update e stale] = [] := own_singleton_of_ne h
  have hstaging : own k [.stagingName e.identifier (stagingName process plan.number)] = [] :=
    own_singleton_of_ne h
  have hfinal : own k [.finalName e.identifier e.name] = [] := own_singleton_of_ne h
  unfold Plan.should Plan.renamed
  dsimp only
  split
  · simp only [aboutPlan, own_append, hcreate, List.append_nil]
  · split
    · simp only [aboutPlan, own_append, hcreate, hremove, List.append_nil]
    · split <;> split <;>
        simp only [aboutPlan, own_append, hstaging, hfinal, hupdate, List.append_nil]

theorem aboutPlan_add_of_ne (h : change.identifier ≠ k) :
    aboutPlan k (plan.add process map change) = aboutPlan k plan := by
  unfold Plan.add
  split
  · rfl
  · split
    · rfl
    · cases change with
      | removed e =>
        dsimp only
        split
        · have hremove : own k [.remove e.identifier] = [] := own_singleton_of_ne h
          simp only [aboutPlan, own_append, hremove, List.append_nil]
        · rfl
      | new e => exact aboutPlan_should_of_ne h ..
      | changed before e => exact aboutPlan_should_of_ne h ..

theorem aboutPlan_foldl_of_ne (h : ∀ change ∈ changes, change.identifier ≠ k) :
    aboutPlan k (changes.foldl (Plan.add process map) plan) = aboutPlan k plan := by
  induction changes generalizing plan with
  | nil => rfl
  | cons change changes ih =>
    rw [List.foldl_cons, ih fun c hc ↦ h c (List.mem_cons_of_mem _ hc),
      aboutPlan_add_of_ne (h change List.mem_cons_self)]

/-- The steps that are planned for an entry that is to stand, by where the map has it. -/
inductive Planned (map : PathMap) (e : Entry) : List Step → Prop
  | create : map.location e.identifier = none → Planned map e [.create e]
  | replace {l : PathMap.Location} : map.location e.identifier = some l → l.folder ≠ e.isFolder →
      Planned map e [.remove e.identifier, .create e]
  | keep {l : PathMap.Location} {rest : List Step} : map.location e.identifier = some l →
      l.folder = e.isFolder → l.name = e.name → (rest = [] ∨ ∃ stale, rest = [.update e stale]) →
      Planned map e rest
  | rename {l : PathMap.Location} {name : String} {rest : List Step} :
      map.location e.identifier = some l → l.folder = e.isFolder →
      (rest = [] ∨ ∃ stale, rest = [.update e stale]) →
      Planned map e (.stagingName e.identifier name :: .finalName e.identifier e.name :: rest)

theorem planned_should (hempty : aboutPlan e.identifier plan = .start 0)
    (stale detailsChanged : Bool) : Planned map e
      (aboutPlan e.identifier (plan.should process map e stale detailsChanged)).steps := by
  obtain ⟨hr, hb, he, hu, hc⟩ : own e.identifier plan.remove = [] ∧
      own e.identifier plan.between = [] ∧ own e.identifier plan.end = [] ∧
      own e.identifier plan.update = [] ∧ own e.identifier plan.create = [] :=
    ⟨congrArg Plan.remove hempty, congrArg Plan.between hempty, congrArg Plan.end hempty,
      congrArg Plan.update hempty, congrArg Plan.create hempty⟩
  have hremove : own e.identifier [.remove e.identifier] = [.remove e.identifier] :=
    own_singleton rfl
  have hcreate : own e.identifier [.create e] = [.create e] := own_singleton rfl
  have hupdate : own e.identifier [.update e stale] = [.update e stale] := own_singleton rfl
  have hstaging : own e.identifier
      [.stagingName e.identifier (stagingName process plan.number)] =
        [.stagingName e.identifier (stagingName process plan.number)] := own_singleton rfl
  have hfinal : own e.identifier [.finalName e.identifier e.name] =
      [.finalName e.identifier e.name] := own_singleton rfl
  unfold Plan.should Plan.renamed
  dsimp only
  split
  next hlocation =>
    simp only [aboutPlan, Plan.steps, own_append, hr, hb, he, hu, hc, hcreate, List.nil_append]
    exact .create hlocation
  next l hlocation =>
    split
    next hkind =>
      simp only [aboutPlan, Plan.steps, own_append, hr, hb, he, hu, hc, hcreate, hremove,
        List.nil_append, List.append_nil]
      exact .replace hlocation hkind
    next hkind =>
      have hkind := not_not.mp hkind
      by_cases hname : l.name ≠ e.name
      · simp only [if_pos hname]
        split
        · simp only [aboutPlan, Plan.steps, own_append, hr, hb, he, hu, hc, hstaging, hfinal,
            hupdate, List.nil_append, List.append_nil]
          exact .rename hlocation hkind (.inr ⟨stale, rfl⟩)
        · simp only [aboutPlan, Plan.steps, own_append, hr, hb, he, hu, hc, hstaging, hfinal,
            List.nil_append, List.append_nil]
          exact .rename hlocation hkind (.inl rfl)
      · simp only [if_neg hname]
        split
        · simp only [aboutPlan, Plan.steps, own_append, hr, hb, he, hu, hc, hupdate,
            List.nil_append, List.append_nil]
          exact .keep hlocation hkind (not_not.mp hname) (.inr ⟨stale, rfl⟩)
        · simp only [aboutPlan, Plan.steps, hr, hb, he, hu, hc, List.append_nil]
          exact .keep hlocation hkind (not_not.mp hname) (.inl rfl)

theorem planned_add (hempty : aboutPlan e.identifier plan = .start 0)
    (hparent : e.identifier.parent = some p) (hpopulated : map.isPopulated p = true)
    (hafter : change.after = some e) : Planned map e
      (aboutPlan e.identifier (plan.add process map change)).steps := by
  have hid := Change.identifier_of_after hafter
  unfold Plan.add
  rw [hid, hparent]
  dsimp only
  rw [if_neg (not_not.mpr hpopulated)]
  cases change with
  | removed e' => cases hafter
  | new e' =>
    cases hafter
    exact planned_should hempty ..
  | changed before e' =>
    cases hafter
    exact planned_should hempty ..

/-- The one change of an entry that is to stand. -/
theorem planned_of_put (hparent : e.identifier.parent = some p)
    (hpopulated : map.isPopulated p = true) (hafter : change.after = some e)
    (hone : changes.filter (fun c ↦ c.identifier = e.identifier) = [change]) :
    Planned map e (own e.identifier (Plan.plan process number map changes).1) := by
  obtain ⟨before, rest, rfl, hbefore, -, hrest⟩ := List.filter_eq_cons_iff.mp hone
  have hnone : ∀ c ∈ rest, c.identifier ≠ e.identifier := by
    intro c hc heq
    exact List.filter_eq_nil_iff.mp hrest c hc (decide_eq_true heq)
  have hfirst : ∀ c ∈ before, c.identifier ≠ e.identifier := by
    intro c hc heq
    exact hbefore c hc (decide_eq_true heq)
  unfold Plan.plan
  rw [List.foldl_append, List.foldl_cons, ← steps_aboutPlan, aboutPlan_foldl_of_ne hnone]
  exact planned_add (aboutPlan_foldl_of_ne hfirst) hparent hpopulated hafter

end Planning

end FolderClient.Cfapi.ReportRuns
