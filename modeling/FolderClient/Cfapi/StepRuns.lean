import FolderClient.Cfapi.Mirror
import FolderClient.Library.Results

namespace FolderClient.Cfapi.StepRuns

open FolderClient.Cfapi.Mirror FolderClient.Cfapi.Plan FolderClient.Core.Changes
open FolderClient.Core.Namespace FolderClient.Library.Results

variable {map next : PathMap} {k : EntryIdentifier} {p : Container} {step : Step}
  {answer : Except OsError Unit} {answers : ℕ → Except OsError Unit}

section Steps

/-- What a step that was carried out makes of the place of an entry. -/
def effect (p : Container) (k : EntryIdentifier) (step : Step) (l : Option PathMap.Location) :
    Option PathMap.Location :=
  match step with
  | .remove i => if k = i then none else l
  | .stagingName i name | .finalName i name =>
    l.map fun l ↦ if k = i then { l with name := name } else l
  | .update _ _ => l
  | .create e => if k = e.identifier then some ⟨p, e.name, e.isFolder⟩ else l

theorem effect_of_ne {l : Option PathMap.Location} (h : step.identifier ≠ k) :
    effect p k step l = l := by
  cases step with
  | remove i => exact if_neg (Ne.symm h)
  | stagingName i name =>
    have hid : (fun l : PathMap.Location ↦ if k = i then { l with name := name } else l) = id := by
      funext l
      exact if_neg (Ne.symm h)
    rw [effect, hid, Option.map_id_apply]
  | finalName i name =>
    have hid : (fun l : PathMap.Location ↦ if k = i then { l with name := name } else l) = id := by
      funext l
      exact if_neg (Ne.symm h)
    rw [effect, hid, Option.map_id_apply]
  | update e stale => rfl
  | create e => exact if_neg (Ne.symm h)

/-- What a step does to the map: it marks no container, and the place of an entry whose container
stays marked moves by the step's effect alone. -/
structure Moved (map next : PathMap) (step : Step) : Prop where
  populated : ∀ c, next.isPopulated c = true → map.isPopulated c = true
  location : ∀ k p, k.parent = some p → next.isPopulated p = true →
    next.location k = effect p k step (map.location k)

theorem moved_rename {i : EntryIdentifier} {name : String} :
    Moved map (map.rename i name) (.finalName i name) where
  populated _ h := h
  location _ _ _ _ := PathMap.location_rename name

theorem moved_remove {i : EntryIdentifier} : Moved map (map.remove i) (.remove i) where
  populated _ h := PathMap.isPopulated_of_remove h
  location k p hp h := by
    rw [PathMap.location_remove, effect]
    by_cases hk : k = i
    · rw [hk, PathMap.reaches_self, if_pos rfl, if_pos rfl]
    · rw [if_neg hk, if_neg]
      intro hr
      cases (PathMap.isPopulated_of_removed hk hp hr).symm.trans h

theorem moved_of_ok (h : runStep map answer step = .ok next) : Moved map next step := by
  cases step with
  | remove i =>
    obtain ⟨_, -, h⟩ := bind_eq_ok.mp h
    obtain ⟨_, -, h⟩ := bind_eq_ok.mp h
    obtain rfl := Except.ok.inj h
    exact moved_remove
  | stagingName i name =>
    obtain ⟨_, -, h⟩ := bind_eq_ok.mp h
    obtain ⟨_, -, h⟩ := bind_eq_ok.mp h
    obtain ⟨_, -, h⟩ := bind_eq_ok.mp h
    obtain rfl := Except.ok.inj h
    exact ⟨moved_rename.populated, moved_rename.location⟩
  | finalName i name =>
    obtain ⟨_, -, h⟩ := bind_eq_ok.mp h
    obtain ⟨_, -, h⟩ := bind_eq_ok.mp h
    obtain ⟨_, -, h⟩ := bind_eq_ok.mp h
    obtain rfl := Except.ok.inj h
    exact moved_rename
  | update e stale =>
    obtain ⟨_, -, h⟩ := bind_eq_ok.mp h
    obtain ⟨_, -, h⟩ := bind_eq_ok.mp h
    obtain rfl := Except.ok.inj h
    exact ⟨fun _ h ↦ h, fun _ _ _ _ ↦ rfl⟩
  | create e =>
    obtain ⟨_, -, h⟩ := bind_eq_ok.mp h
    cases hparent : e.identifier.parent with
    | none =>
      rw [hparent] at h
      cases h
    | some parent =>
      rw [hparent] at h
      obtain ⟨_, -, h⟩ := bind_eq_ok.mp h
      obtain ⟨_, -, h⟩ := bind_eq_ok.mp h
      obtain rfl := Except.ok.inj h
      refine ⟨fun c hc ↦ ?_, fun k p hp _ ↦ ?_⟩
      · rw [PathMap.set, hparent] at hc
        exact hc
      · rw [PathMap.location_set hparent, effect]
        by_cases hk : k = e.identifier
        · obtain rfl := Option.some.inj (hp.symm.trans (hk ▸ hparent))
          rw [if_pos hk]
        · rw [if_neg hk, if_neg hk]

end Steps

section Logs

/-- One step of the log: a failed step leaves the place as it was. -/
def took (p : Container) (k : EntryIdentifier) (l : Option PathMap.Location)
    (entry : Step × Option StepError) : Option PathMap.Location :=
  if entry.2.isNone then effect p k entry.1 l else l

theorem runSteps_steps (n : ℕ) (map : PathMap) (steps : List Step) :
    (runSteps answers n map steps).2.map Prod.fst = steps := by
  induction steps generalizing n map with
  | nil => rfl
  | cons step rest ih =>
    rw [runSteps]
    cases hstep : runStep map (answers n) step with
    | ok next => exact congrArg (List.cons step) (ih (n + 1) next)
    | error e => exact congrArg (List.cons step) (ih (n + 1) map)

theorem isPopulated_of_runSteps {n : ℕ} {steps : List Step} {c : Container}
    (h : (runSteps answers n map steps).1.isPopulated c = true) : map.isPopulated c = true := by
  induction steps generalizing n map with
  | nil => exact h
  | cons step rest ih =>
    rw [runSteps] at h
    cases hstep : runStep map (answers n) step with
    | ok next =>
      rw [hstep] at h
      exact (moved_of_ok hstep).populated c (ih h)
    | error e =>
      rw [hstep] at h
      exact ih h

theorem location_runSteps {n : ℕ} {steps : List Step} (hp : k.parent = some p)
    (h : (runSteps answers n map steps).1.isPopulated p = true) :
    (runSteps answers n map steps).1.location k =
      (runSteps answers n map steps).2.foldl (took p k) (map.location k) := by
  induction steps generalizing n map with
  | nil => rfl
  | cons step rest ih =>
    rw [runSteps] at h ⊢
    cases hstep : runStep map (answers n) step with
    | ok next =>
      rw [hstep] at h
      have hmoved := (moved_of_ok hstep).location k p hp (isPopulated_of_runSteps h)
      refine (ih h).trans ?_
      rw [hmoved]
      rfl
    | error e =>
      rw [hstep] at h
      exact ih h

/-- What the log says about one entry. -/
def about (k : EntryIdentifier) (log : List (Step × Option StepError)) :
    List (Step × Option StepError) := log.filter fun entry ↦ entry.1.identifier = k

theorem foldl_about (log : List (Step × Option StepError)) (l : Option PathMap.Location) :
    log.foldl (took p k) l = (about k log).foldl (took p k) l := by
  induction log generalizing l with
  | nil => rfl
  | cons entry log ih =>
    rw [List.foldl_cons, ih]
    by_cases hk : entry.1.identifier = k
    · have hcons : about k (entry :: log) = entry :: about k log :=
        List.filter_cons_of_pos (decide_eq_true hk)
      rw [hcons, List.foldl_cons]
    · have hcons : about k (entry :: log) = about k log := List.filter_cons_of_neg (by simpa using hk)
      have hsame : took p k l entry = l := by
        rw [took, effect_of_ne hk, ite_self]
      rw [hcons, hsame]

theorem map_fst_about (log : List (Step × Option StepError)) :
    (about k log).map Prod.fst =
      (log.map Prod.fst).filter fun step ↦ step.identifier = k := by
  rw [about, List.filter_map]
  rfl

def isStaging : Step → Bool
  | .stagingName _ _ => true
  | _ => false

/-- A change of an entry was not carried out: one of its steps failed, the first stage of a rename
apart, which the second makes up for. -/
def failedFor (log : List (Step × Option StepError)) (k : EntryIdentifier) : Bool :=
  log.any fun entry ↦ entry.1.identifier = k && !isStaging entry.1 && entry.2.isSome

theorem isNone_of_not_failed {log : List (Step × Option StepError)} (h : failedFor log k = false)
    {entry : Step × Option StepError} (hmem : entry ∈ about k log)
    (hs : isStaging entry.1 = false) : entry.2.isNone = true := by
  obtain ⟨hlog, hk⟩ := List.mem_filter.mp hmem
  have hall := List.any_eq_false.mp h entry hlog
  rw [hk, hs, Bool.true_and, Bool.not_false, Bool.true_and, Option.isSome_iff_ne_none] at hall
  exact Option.isNone_iff_eq_none.mpr (not_not.mp hall)

end Logs

end FolderClient.Cfapi.StepRuns
