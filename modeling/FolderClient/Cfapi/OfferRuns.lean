import FolderClient.Cfapi.Stages
import FolderClient.Storage.Replacement

namespace FolderClient.Cfapi.OfferRuns

open FolderClient.Cfapi.Mirror FolderClient.Cfapi.Plan FolderClient.Cfapi.ReportRuns
  FolderClient.Cfapi.Stages FolderClient.Cfapi.StepRuns FolderClient.Core
  FolderClient.Core.Changes FolderClient.Core.Namespace FolderClient.Library.EditLog
  FolderClient.Storage FolderClient.Storage.Basic FolderClient.Storage.Effects
  FolderClient.Storage.JournalRuns FolderClient.Storage.Listings FolderClient.Storage.Replacement
  FolderClient.Storage.Tree FolderClient.Storage.TreeRuns

/-- The name and kind under which the map has an entry. -/
def standing (l : Option PathMap.Location) : Option (String × Bool) :=
  l.map fun l ↦ (l.name, l.folder)

/-- The name and kind under which an entry is listed. -/
def shown (e : Option Entry) : Option (String × Bool) := e.map fun e ↦ (e.name, e.isFolder)

/-- The map has an entry as the store has it. -/
def Agrees (map : PathMap) (store : Store) (k : EntryIdentifier) : Prop :=
  standing (map.location k) = shown (entryMap store k)

/-- The store and the mirror, and which changes of populated containers were handed over last
without being carried out. -/
structure Scene where
  store : Store
  mirror : Mirror
  owed : EntryIdentifier → Bool

inductive Event
  | reconciled (container : Container) (new : List Entry) (state : ContainerState)
    (answers : ℕ → Except OsError Unit)
  | confirmed (container : Container) (state : ContainerState)
  | handedOver (container : Container)
  | connected (connected : Bool)

def offered (changes : List Change) (k : EntryIdentifier) : Bool :=
  changes.any fun change ↦ change.identifier = k

/-- A change was handed over and not carried out. -/
def refused (changes : List Change) (report : Report) (k : EntryIdentifier) : Bool :=
  match report with
  | .notReady => offered changes k
  | .done _ log => failedFor log k

variable (unicode : Unicode) (process : ℕ)

/-- What the mirror makes of changes it is told. -/
def told (scene : Scene) (store : Store) (changes : List Change)
    (answers : ℕ → Except OsError Unit) : Scene where
  store := store
  mirror := (reportChange process answers scene.mirror changes).2
  owed k := k.parent.any (reportChange process answers scene.mirror changes).2.map.isPopulated &&
    (refused changes (reportChange process answers scene.mirror changes).1 k ||
      (scene.owed k && !offered changes k))

/-- Writes a listing onwards and reports the difference to the platform. -/
def adopted (scene : Scene) (container : Container) (new : List Entry) (state : ContainerState)
    (answers : ℕ → Except OsError Unit) : Scene :=
  match scene.store.replaceContainer unicode container new state with
  | .error _ => scene
  | .ok (journal, store) =>
    if journal.isEmpty then { scene with store := store }
    else told process scene store (journal.map JournalEntry.change) answers

def step (scene : Scene) : Event → Scene
  | .reconciled container new state answers =>
    adopted unicode process scene container new state answers
  | .confirmed container state =>
    match scene.store.updateContainerState container state with
    | .error _ => scene
    | .ok store => { scene with store := store }
  | .handedOver container =>
    match scene.store.children container with
    | .error _ => scene
    | .ok should =>
      { scene with
        mirror := { scene.mirror with map := handOver scene.mirror.map container should }
        owed k := scene.owed k && !(should.any fun e ↦ e.identifier = k) }
  | .connected connected => { scene with mirror := { scene.mirror with connected := connected } }

def start (n limit number : ℕ) : Scene :=
  ⟨Store.setUp n limit, ⟨.empty, false, number⟩, fun _ ↦ false⟩

/-- The scene after the first events of an endless run. -/
def sceneAt (events : ℕ → Event) (scene : Scene) : ℕ → Scene
  | 0 => scene
  | t + 1 => step unicode process (sceneAt events scene t) (events t)

variable {unicode process} {scene : Scene} {map : PathMap} {store store' : Store}
  {k : EntryIdentifier} {p container : Container} {changes : List Change} {change : Change}
  {e : Entry} {new : List Entry} {state : ContainerState} {answers : ℕ → Except OsError Unit}
  {journal : List JournalEntry} {number n : ℕ}

section Offers

theorem offered_iff : offered changes k = true ↔ ∃ change ∈ changes, change.identifier = k := by
  simp [offered]

/-- What is handed over of a replaced listing: one change for each entry that differs. -/
structure Offer (store store' : Store) (container : Container) (changes : List Change) :
    Prop where
  once : (changes.map Change.identifier).Nodup
  after : ∀ change ∈ changes, entryMap store' change.identifier = change.after
  rest : ∀ k, offered changes k = false → entryMap store' k = entryMap store k
  differs : ∀ change ∈ changes, entryMap store change.identifier ≠ change.after
  parent : ∀ change ∈ changes, ∀ e, change.after = some e → e.identifier.parent = some container
  below : ∀ change ∈ changes, ¬ Below change.identifier container

theorem offer_of_ok (ht : Rooted store)
    (h : store.replaceContainer unicode container new state = .ok (journal, store')) :
    Offer store store' container (journal.map JournalEntry.change) := by
  obtain ⟨gone, hchanges, hdeep, hr⟩ := exists_gone ht h
  have hids := hr.checked.identifiers
  have hreplay := replay_replaced ht hr
  rw [← hchanges] at hreplay
  have honce : ((journal.map JournalEntry.change).map Change.identifier).Nodup := by
    rw [hchanges, List.map_append, List.nodup_append]
    refine ⟨List.pairwise_map.mpr (hdeep.imp fun hwithin heq ↦ ?_), identifiers_puts hids, ?_⟩
    · rw [within_iff.mpr (.inl heq.symm)] at hwithin
      cases hwithin
    · intro i hi j hj heq
      obtain ⟨c, hc, rfl⟩ := List.mem_map.mp hi
      obtain ⟨g, hg, rfl⟩ := List.mem_map.mp hc
      obtain ⟨d, hd, rfl⟩ := List.mem_map.mp hj
      obtain ⟨r, -, hdropped, rfl⟩ := (hr.mem_gone g).mp hg
      obtain ⟨e, he, hafter, -⟩ := after_puts hids hd
      have hid : r.entry.identifier = e.identifier := heq.trans (Change.identifier_of_after hafter)
      have hkept := not_dropped_of_parent ht hids (hid ▸ hr.checked.parent e he) ⟨e, he, hid.symm⟩
      cases hkept.symm.trans hdropped
  have hput : ∀ change ∈ puts store container (withoutErased store new state.fetched), ∀ e,
      change.after = some e → e.identifier.parent = some container := by
    intro change hmem e hafter
    obtain ⟨e', he', hafter', -⟩ := after_puts hids hmem
    obtain rfl := Option.some.inj (hafter.symm.trans hafter')
    exact hr.checked.parent e he'
  have hgone : ∀ g ∈ gone, ¬ Below g.identifier container := by
    rintro g hg ⟨b, hb, hbelow⟩
    obtain ⟨r, -, hdropped, rfl⟩ := (hr.mem_gone g).mp hg
    obtain ⟨e, he, hwithin⟩ := List.any_eq_true.mp hdropped
    obtain ⟨ho, -⟩ := (mem_missing (identifiers_oldListing store container) hids).mp he
    obtain ⟨r', hr', rfl, rfl⟩ := mem_readChildren.mp ho
    have hparent := ht.placed r' hr'
    rcases within_iff.mp hwithin with heq | ⟨c, hc, hmem⟩
    · exact not_below (heq ▸ hparent) (.inl rfl) ⟨b, hb, hbelow⟩
    · have hupper : b.depth ≤ r'.parent.depth := by
        rcases hbelow with rfl | hbelow
        · exact le_rfl
        · exact (Container.depth_lt_of_mem_ancestors hbelow).le
      have hlower : c.depth < b.depth := by
        rw [EntryIdentifier.container?_eq_some.mp hb, EntryIdentifier.ancestors_container] at hmem
        exact Container.depth_lt_of_mem_ancestors hmem
      have hchild : c.parent = some r'.parent := by
        rw [hc] at hparent
        exact hparent
      have hdepth := Container.depth_of_parent hchild
      omega
  refine ⟨honce, fun change hmem ↦ ?_, fun k hk ↦ ?_, fun change hmem ↦ ?_,
    fun change hmem e hafter ↦ ?_, fun change hmem ↦ ?_⟩
  · have hkeys : (((journal.map JournalEntry.change).map Change.edit).map Edit.key).Nodup := by
      rwa [Change.map_edit_key]
    rw [← hreplay, ← change.edit_key, replay_of_nodup hkeys (List.mem_map_of_mem hmem),
      change.edit_value]
  · rw [← hreplay]
    apply replay_of_forall_ne
    intro d hd heq
    obtain ⟨change, hmem, rfl⟩ := List.mem_map.mp hd
    rw [offered_iff.mpr ⟨change, hmem, (heq.trans change.edit_key).symm⟩] at hk
    cases hk
  · rw [hchanges] at hmem
    rcases List.mem_append.mp hmem with hmem | hmem
    · obtain ⟨g, hg, rfl⟩ := List.mem_map.mp hmem
      intro hnone
      cases hnone.symm.trans ((mem_gone_iff ht hr).mp hg).1
    · obtain ⟨e, he, hafter, hnew⟩ := after_puts hids hmem
      rw [hafter, Change.identifier_of_after hafter]
      intro hsame
      obtain ⟨r, hr', rfl, -⟩ := entryMap_eq_some.mp hsame
      have hparent := Option.some.inj ((ht.placed r hr').symm.trans (hr.checked.parent _ he))
      exact hnew (mem_readChildren.mpr ⟨r, hr', rfl, hparent⟩)
  · rw [hchanges] at hmem
    rcases List.mem_append.mp hmem with hmem | hmem
    · obtain ⟨g, -, rfl⟩ := List.mem_map.mp hmem
      cases hafter
    · exact hput change hmem e hafter
  · rw [hchanges] at hmem
    rcases List.mem_append.mp hmem with hmem | hmem
    · obtain ⟨g, hg, rfl⟩ := List.mem_map.mp hmem
      exact hgone g hg
    · obtain ⟨e, -, hafter, -⟩ := after_puts hids hmem
      rw [Change.identifier_of_after hafter]
      exact not_below (hput change hmem e hafter) (.inl rfl)

/-- A change of a child is handed over exactly if the fetched listing differs from the stored one
there. -/
theorem offered_iff_differs (ht : Rooted store)
    (h : store.replaceContainer unicode container new state = .ok (journal, store'))
    (hk : k.parent = some container) :
    offered (journal.map JournalEntry.change) k = true ↔
      Diffs.listed (withoutErased store new state.fetched) k ≠ entryMap store k := by
  have hoffer := offer_of_ok ht h
  obtain ⟨gone, -, -, hr⟩ := exists_gone ht h
  have hlisted : entryMap store' k = Diffs.listed (withoutErased store new state.fetched) k := by
    ext e
    rw [entryMap_eq_some, Diffs.listed_eq_some hr.checked.identifiers, ← mem_replaced hr,
      oldListing, mem_readChildren]
    constructor
    · rintro ⟨r, hmem, rfl, rfl⟩
      have hparent := (rooted_of_replaced ht hr).placed r hmem
      exact ⟨⟨r, hmem, rfl, Option.some.inj (hparent.symm.trans hk)⟩, rfl⟩
    · rintro ⟨⟨r, hmem, rfl, -⟩, rfl⟩
      exact ⟨r, hmem, rfl, rfl⟩
  rw [← hlisted]
  constructor
  · intro hoffered
    obtain ⟨change, hmem, rfl⟩ := offered_iff.mp hoffered
    rw [hoffer.after change hmem]
    exact (hoffer.differs change hmem).symm
  · intro hne
    by_contra hnone
    exact hne (hoffer.rest k (Bool.not_eq_true _ |>.mp hnone))

end Offers

section Reports

variable {log : List (Step × Option StepError)} {l : Option PathMap.Location}

theorem took_of_none {entry : Step × Option StepError} (h : entry.2.isNone = true) :
    took p k l entry = effect p k entry.1 l := if_pos h

theorem took_remove {entry : Step × Option StepError} (hstep : entry.1 = .remove k)
    (h : entry.2.isNone = true) : took p k l entry = none := by
  rw [took_of_none h, hstep]
  exact if_pos rfl

theorem took_create {entry : Step × Option StepError} (hstep : entry.1 = .create e)
    (h : entry.2.isNone = true) :
    took p e.identifier l entry = some ⟨p, e.name, e.isFolder⟩ := by
  rw [took_of_none h, hstep]
  exact if_pos rfl

theorem foldl_took_rest {rest : List Step} (hrest : rest = [] ∨ ∃ stale, rest = [.update e stale])
    (h : log.map Prod.fst = rest) : log.foldl (took p k) l = l := by
  have hall : ∀ entry ∈ log, ∀ l, took p k l entry = l := by
    intro entry hmem l
    have hstep : entry.1 ∈ rest := h ▸ List.mem_map_of_mem hmem
    rcases hrest with rfl | ⟨stale, rfl⟩
    · cases hstep
    · rw [took, List.mem_singleton.mp hstep]
      exact ite_self l
  clear h
  induction log with
  | nil => rfl
  | cons entry log ih =>
    rw [List.foldl_cons, hall entry List.mem_cons_self]
    exact ih fun x hx ↦ hall x (List.mem_cons_of_mem _ hx)

/-- Steps planned for an entry that is to stand, of which none but the first stage of a rename
failed, leave it under its name and of its kind. -/
theorem standing_of_planned {steps : List Step} (h : Planned map e steps)
    (hlog : log.map Prod.fst = steps)
    (hdone : ∀ entry ∈ log, isStaging entry.1 = false → entry.2.isNone = true) :
    standing (log.foldl (took p e.identifier) (map.location e.identifier)) =
      some (e.name, e.isFolder) := by
  cases h with
  | create hnone =>
    obtain ⟨x, rest, rfl, hx, hrest⟩ := List.map_eq_cons_iff.mp hlog
    obtain rfl := List.map_eq_nil_iff.mp hrest
    have hdone := hdone x List.mem_cons_self (by rw [hx]; rfl)
    rw [List.foldl_cons, took_create hx hdone]
    rfl
  | replace hlocation hkind =>
    obtain ⟨x, rest, rfl, hx, hrest⟩ := List.map_eq_cons_iff.mp hlog
    obtain ⟨y, rest, rfl, hy, hrest⟩ := List.map_eq_cons_iff.mp hrest
    obtain rfl := List.map_eq_nil_iff.mp hrest
    have hdone := hdone y (List.mem_cons_of_mem _ List.mem_cons_self) (by rw [hy]; rfl)
    rw [List.foldl_cons, List.foldl_cons, took_create hy hdone]
    rfl
  | keep hlocation hkind hname hrest =>
    rw [foldl_took_rest hrest hlog, hlocation]
    exact congrArg some (Prod.ext hname hkind)
  | @rename l between rest hlocation hkind hrest =>
    obtain ⟨x, log, rfl, hx, hlog⟩ := List.map_eq_cons_iff.mp hlog
    obtain ⟨y, log, rfl, hy, hlog⟩ := List.map_eq_cons_iff.mp hlog
    have hdone := hdone y (List.mem_cons_of_mem _ List.mem_cons_self) (by rw [hy]; rfl)
    have hfirst : ∃ l', took p e.identifier (some l) x = some l' ∧ l'.folder = l.folder := by
      rw [took, hx]
      split
      · exact ⟨_, effect_staging l, rfl⟩
      · exact ⟨l, rfl, rfl⟩
    obtain ⟨l', hl', hfolder⟩ := hfirst
    rw [hlocation, List.foldl_cons, List.foldl_cons, hl', took_of_none hdone, hy, effect_final,
      foldl_took_rest hrest hlog]
    exact congrArg some (Prod.ext rfl (hfolder.trans hkind))

theorem about_runSteps (map : PathMap) (steps : List Step) (k : EntryIdentifier) :
    (about k (runSteps answers n map steps).2).map Prod.fst = own k steps := by
  rw [map_fst_about, runSteps_steps]
  rfl

/-- An entry whose container stays populated is left alone where no change is about it, and stands
as the change has it where no step about it failed. -/
theorem location_reported (hone : (changes.map Change.identifier).Nodup)
    (hp : k.parent = some p)
    (hpopulated : (runSteps answers n map (Plan.plan process number map changes).1).1.isPopulated p
      = true) :
    (offered changes k = false →
      (runSteps answers n map (Plan.plan process number map changes).1).1.location k =
        map.location k) ∧
    ∀ change ∈ changes, change.identifier = k →
      failedFor (runSteps answers n map (Plan.plan process number map changes).1).2 k = false →
        standing ((runSteps answers n map (Plan.plan process number map changes).1).1.location k) =
          shown change.after := by
  have hbefore := isPopulated_of_runSteps hpopulated
  have habout := @about_runSteps answers n map (Plan.plan process number map changes).1 k
  rw [location_runSteps hp hpopulated, foldl_about]
  constructor
  · intro hnone
    have hown := @own_of_unchanged map k process number changes fun change hmem heq ↦ by
      rw [offered_iff.mpr ⟨change, hmem, heq⟩] at hnone
      cases hnone
    rw [hown] at habout
    rw [List.map_eq_nil_iff.mp habout]
    rfl
  · rintro change hmem rfl hdone
    cases hafter : change.after with
    | none =>
      cases change with
      | new e => cases hafter
      | changed before e => cases hafter
      | removed e =>
        have hid : (Change.removed e).identifier = e.identifier := rfl
        rw [hid] at hp habout hdone ⊢
        rw [own_of_removed hp hbefore (filter_change hone hmem)] at habout
        split at habout
        · obtain ⟨x, rest, hlog, hx, hrest⟩ := List.map_eq_cons_iff.mp habout
          obtain rfl := List.map_eq_nil_iff.mp hrest
          have hnone : x.2.isNone = true := by
            apply isNone_of_not_failed hdone
            · rw [hlog]
              exact List.mem_cons_self
            · rw [hx]
              rfl
          rw [hlog, List.foldl_cons, List.foldl_nil, took_remove hx hnone]
          rfl
        next hknown =>
          have hnone : map.location e.identifier = none := by
            by_contra hne
            exact hknown (PathMap.knows_iff.mpr hne)
          rw [List.map_eq_nil_iff.mp habout, List.foldl_nil]
          exact congrArg standing hnone
    | some e =>
      have hid := Change.identifier_of_after hafter
      rw [hid] at hp habout hdone ⊢
      refine standing_of_planned (planned_of_put hp hbefore hafter ?_) habout ?_
      · rw [← hid]
        exact filter_change hone hmem
      · exact fun entry hentry hs ↦ isNone_of_not_failed hdone hentry hs

end Reports

section Blank

/-- Nothing is known in a container that is not populated. -/
def Blank (map : PathMap) : Prop :=
  ∀ k p, k.parent = some p → map.isPopulated p = false → map.location k = none

theorem Blank.acted {step : Step} (h : Blank map) (hcreate : ∀ e, step = .create e →
    ∃ p, e.identifier.parent = some p ∧ map.isPopulated p = true) : Blank (acted map step) := by
  intro k p hp hpopulated
  cases step with
  | remove i =>
    cases hbefore : map.isPopulated p with
    | true => exact PathMap.location_of_unmarked hp hbefore hpopulated
    | false =>
      rw [Stages.acted, PathMap.location_remove, h k p hp hbefore, ite_self]
  | stagingName i name =>
    rw [Stages.acted, PathMap.location_rename, h k p hp hpopulated]
    rfl
  | finalName i name =>
    rw [Stages.acted, PathMap.location_rename, h k p hp hpopulated]
    rfl
  | update e stale => exact h k p hp hpopulated
  | create e =>
    obtain ⟨q, hq, hmarked⟩ := hcreate e rfl
    have hmarks : (map.set e.identifier e.name e.isFolder).isPopulated p = map.isPopulated p := by
      rw [PathMap.set, hq]
      rfl
    have hbefore : map.isPopulated p = false := hmarks.symm.trans hpopulated
    rw [Stages.acted, PathMap.location_set hq, if_neg, h k p hp hbefore]
    rintro rfl
    cases hp.symm.trans hq
    cases hbefore.symm.trans hmarked

theorem blank_runSteps {steps : List Step} (h : Blank map)
    (hcreate : ∀ e, .create e ∈ steps → ∃ p, e.identifier.parent = some p ∧
      map.isPopulated p = true ∧ ∀ i, .remove i ∈ steps → ¬ Below i p) :
    Blank (runSteps answers n map steps).1 := by
  induction steps generalizing n map with
  | nil => exact h
  | cons step rest ih =>
    rw [runSteps]
    cases hstep : runStep map (answers n) step with
    | error error =>
      refine ih h fun e he ↦ ?_
      obtain ⟨p, hp, hmarked, hbelow⟩ := hcreate e (List.mem_cons_of_mem _ he)
      exact ⟨p, hp, hmarked, fun i hi ↦ hbelow i (List.mem_cons_of_mem _ hi)⟩
    | ok next =>
      obtain rfl := eq_acted_of_ok hstep
      refine ih (h.acted fun e he ↦ ?_) fun e he ↦ ?_
      · obtain ⟨p, hp, hmarked, -⟩ := hcreate e (he ▸ List.mem_cons_self)
        exact ⟨p, hp, hmarked⟩
      · obtain ⟨p, hp, hmarked, hbelow⟩ := hcreate e (List.mem_cons_of_mem _ he)
        refine ⟨p, hp, ?_, fun i hi ↦ hbelow i (List.mem_cons_of_mem _ hi)⟩
        rw [isPopulated_acted, hmarked]
        rintro i rfl
        exact hbelow i List.mem_cons_self

/-- A step that creates comes from a change of a populated container. -/
theorem creates_add {plan : Plan} {change : Change} {s : Step}
    (h : s ∈ (plan.add process map change).create) : s ∈ plan.create ∨
      ∃ e p, s = .create e ∧ change.after = some e ∧ e.identifier.parent = some p ∧
        map.isPopulated p = true := by
  have hshould : ∀ {e p stale detailsChanged}, e.identifier.parent = some p →
      map.isPopulated p = true → change.after = some e →
        s ∈ (plan.should process map e stale detailsChanged).create → s ∈ plan.create ∨
          ∃ e p, s = .create e ∧ change.after = some e ∧ e.identifier.parent = some p ∧
            map.isPopulated p = true := by
    intro e p stale detailsChanged hp hmarked hafter hs
    have hlast : ∀ {l : List Step}, s ∈ l ++ [.create e] → s ∈ l ∨ s = .create e := by
      intro l hmem
      rw [List.mem_append, List.mem_singleton] at hmem
      exact hmem
    have hnew : s = .create e → ∃ e p, s = .create e ∧ change.after = some e ∧
        e.identifier.parent = some p ∧ map.isPopulated p = true :=
      fun heq ↦ ⟨e, p, heq, hafter, hp, hmarked⟩
    unfold Plan.should at hs
    dsimp only at hs
    split at hs
    · exact (hlast hs).imp_right hnew
    · split at hs
      · exact (hlast hs).imp_right hnew
      · refine .inl ?_
        have hkept : ∀ l : PathMap.Location,
            (if l.name ≠ e.name then plan.renamed process e else plan).create = plan.create := by
          intro l
          split <;> rfl
        split at hs
        · exact hkept _ ▸ hs
        · exact hkept _ ▸ hs
  unfold Plan.add at h
  split at h
  · exact .inl h
  next p hp =>
    split at h
    · exact .inl h
    next hmarked =>
      have hmarked := not_not.mp hmarked
      cases change with
      | removed e =>
        dsimp only at h
        split at h
        · exact .inl h
        · exact .inl h
      | new e => exact hshould hp hmarked rfl h
      | changed before e => exact hshould hp hmarked rfl h

theorem creates_of_plan (process number : ℕ) (map : PathMap) (changes : List Change)
    (h : .create e ∈ (Plan.plan process number map changes).1) :
    ∃ change ∈ changes, change.after = some e ∧
      ∃ p, e.identifier.parent = some p ∧ map.isPopulated p = true := by
  have hfold : ∀ plan : Plan, .create e ∈ (changes.foldl (Plan.add process map) plan).create →
      .create e ∈ plan.create ∨ ∃ change ∈ changes, change.after = some e ∧
        ∃ p, e.identifier.parent = some p ∧ map.isPopulated p = true := by
    clear h
    induction changes with
    | nil => exact fun plan h ↦ .inl h
    | cons change changes ih =>
      intro plan h
      rcases ih _ h with h | ⟨c, hc, h⟩
      · rcases creates_add h with h | ⟨e', p, heq, hafter, hp, hmarked⟩
        · exact .inl h
        · obtain rfl := Step.create.inj heq
          exact .inr ⟨change, List.mem_cons_self, hafter, p, hp, hmarked⟩
      · exact .inr ⟨c, List.mem_cons_of_mem _ hc, h⟩
  have hfiled : Filed process number (changes.foldl (Plan.add process map) (.start number)) :=
    filed_changes filed_start
  have hcreate : .create e ∈ (changes.foldl (Plan.add process map) (.start number)).create := by
    rcases hfiled.phase_cases h with hphase | ⟨hphase, -⟩ | hphase | hphase | ⟨-, hmem⟩
    · cases hphase
    · cases hphase
    · cases hphase
    · cases hphase
    · exact hmem
  exact (hfold _ hcreate).resolve_left List.not_mem_nil

end Blank

section Scenes

/-- The store is well-formed, nothing is known in a container that is not populated, and the map and
the store agree on what nothing is owed for. -/
structure Kept (unicode : Unicode) (scene : Scene) : Prop where
  wellFormed : WellFormed unicode scene.store
  blank : Blank scene.mirror.map
  agrees : ∀ k p, k.parent = some p → scene.mirror.map.isPopulated p = true →
    scene.owed k = false → Agrees scene.mirror.map scene.store k

theorem kept_start (unicode : Unicode) (n limit number : ℕ) :
    Kept unicode (start n limit number) where
  wellFormed := wellFormed_setUp unicode n limit
  blank _ _ _ _ := rfl
  agrees _ _ _ h := by cases h

/-- What the mirror's part in a report is. -/
theorem reportChange_connected (process : ℕ) (answers : ℕ → Except OsError Unit) {mirror : Mirror}
    (changes : List Change) (h : mirror.connected = true) :
    reportChange process answers mirror changes =
      (.done (firstError (runSteps answers 0 mirror.map
          (Plan.plan process mirror.number mirror.map changes).1).2)
        (runSteps answers 0 mirror.map (Plan.plan process mirror.number mirror.map changes).1).2,
        { mirror with
          map := (runSteps answers 0 mirror.map
            (Plan.plan process mirror.number mirror.map changes).1).1
          number := (Plan.plan process mirror.number mirror.map changes).2 }) := by
  rw [reportChange, if_neg (not_not.mpr h)]

theorem reportChange_apart (process : ℕ) (answers : ℕ → Except OsError Unit) {mirror : Mirror}
    (changes : List Change) (h : mirror.connected = false) :
    reportChange process answers mirror changes = (.notReady, mirror) := by
  rw [reportChange, if_pos (by simp [h])]

theorem Kept.told (h : Kept unicode scene) (hw : WellFormed unicode store)
    (hoffer : Offer scene.store store container changes) :
    Kept unicode (told process scene store changes answers) := by
  cases hconnected : scene.mirror.connected with
  | false =>
    have hreport := reportChange_apart process answers changes hconnected
    refine ⟨hw, ?_, fun k p hp hpopulated howed ↦ ?_⟩
    · rw [OfferRuns.told, hreport]
      exact h.blank
    · simp only [OfferRuns.told, hreport] at hpopulated howed ⊢
      simp only [refused, hp, Option.any_some, hpopulated, Bool.true_and,
        Bool.or_eq_false_iff] at howed
      obtain ⟨hnone, howed⟩ := howed
      rw [hnone, Bool.not_false, Bool.and_true] at howed
      have hbefore := h.agrees k p hp hpopulated howed
      rw [Agrees, hoffer.rest k hnone]
      exact hbefore
  | true =>
    have hreport := reportChange_connected process answers changes hconnected
    refine ⟨hw, ?_, fun k p hp hpopulated howed ↦ ?_⟩
    · rw [OfferRuns.told, hreport]
      apply blank_runSteps h.blank
      intro e he
      obtain ⟨change, hmem, hafter, p, hp, hmarked⟩ := creates_of_plan _ _ _ _ he
      refine ⟨p, hp, hmarked, fun i hi ↦ ?_⟩
      obtain rfl := Option.some.inj (hp.symm.trans (hoffer.parent change hmem e hafter))
      obtain ⟨change', hmem', rfl⟩ := exists_change hi
      exact hoffer.below change' hmem'
    · simp only [OfferRuns.told, hreport] at hpopulated howed ⊢
      simp only [refused, hp, Option.any_some, hpopulated, Bool.true_and,
        Bool.or_eq_false_iff] at howed
      obtain ⟨hdone, howed⟩ := howed
      obtain ⟨hrest, hchange⟩ := location_reported hoffer.once hp hpopulated
      cases hoffered : offered changes k with
      | false =>
        rw [hoffered, Bool.not_false, Bool.and_true] at howed
        have hbefore := h.agrees k p hp (isPopulated_of_runSteps hpopulated) howed
        rw [Agrees, hoffer.rest k hoffered, hrest hoffered]
        exact hbefore
      | true =>
        obtain ⟨change, hmem, rfl⟩ := offered_iff.mp hoffered
        rw [Agrees, hoffer.after change hmem]
        exact hchange change hmem rfl hdone

/-- The map with a listing entered. -/
def entered (map : PathMap) (should : List Entry) : PathMap :=
  should.foldl (fun map e ↦ map.set e.identifier e.name e.isFolder) map

theorem isPopulated_entered (should : List Entry) (map : PathMap) :
    (entered map should).populated = map.populated := by
  induction should generalizing map with
  | nil => rfl
  | cons e should ih =>
    have hset : (map.set e.identifier e.name e.isFolder).populated = map.populated := by
      rw [PathMap.set]
      split <;> rfl
    exact (ih _).trans hset

theorem location_entered {should : List Entry} (map : PathMap)
    (hparent : ∀ e ∈ should, e.identifier.parent = some container)
    (honce : (should.map Entry.identifier).Nodup) (k : EntryIdentifier) :
    (∀ e ∈ should, e.identifier = k →
      (entered map should).location k = some ⟨container, e.name, e.isFolder⟩) ∧
    ((∀ e ∈ should, e.identifier ≠ k) → (entered map should).location k = map.location k) := by
  induction should generalizing map with
  | nil => exact ⟨fun e he ↦ absurd he List.not_mem_nil, fun _ ↦ rfl⟩
  | cons e should ih =>
    rw [List.map_cons, List.nodup_cons] at honce
    obtain ⟨hfound, hmissing⟩ := ih (map.set e.identifier e.name e.isFolder)
      (fun e' he' ↦ hparent e' (List.mem_cons_of_mem _ he')) honce.2
    have hset := @PathMap.location_set map e.identifier k container (hparent e List.mem_cons_self)
      e.name e.isFolder
    refine ⟨fun e' he' hk ↦ ?_, fun hnone ↦ ?_⟩
    · rcases List.mem_cons.mp he' with rfl | he'
      · rw [entered, List.foldl_cons]
        refine (hmissing fun d hd heq ↦ ?_).trans (hset.trans (if_pos hk.symm))
        exact honce.1 (List.mem_map.mpr ⟨d, hd, heq.trans hk.symm⟩)
      · exact hfound e' he' hk
    · rw [entered, List.foldl_cons]
      refine (hmissing fun d hd ↦ hnone d (List.mem_cons_of_mem _ hd)).trans (hset.trans ?_)
      exact if_neg (hnone e List.mem_cons_self).symm

theorem isPopulated_handOver (should : List Entry) (map : PathMap) (p : Container) :
    (handOver map container should).isPopulated p = (p = container || map.isPopulated p) := by
  have hmarks : (handOver map container should).isPopulated p =
      Function.update (entered map should).populated container true p := rfl
  rw [hmarks, isPopulated_entered]
  by_cases hp : p = container
  · rw [hp, Function.update_self, decide_eq_true rfl, Bool.true_or]
  · rw [Function.update_of_ne hp, decide_eq_false hp, Bool.false_or]
    rfl

theorem Kept.handedOver {should : List Entry} (h : Kept unicode scene)
    (hshould : scene.store.children container = .ok should) :
    Kept unicode { scene with
      mirror := { scene.mirror with map := handOver scene.mirror.map container should }
      owed k := scene.owed k && !(should.any fun e ↦ e.identifier = k) } := by
  have hlisting : should = oldListing scene.store container := by
    unfold Store.children at hshould
    split at hshould
    · exact (Except.ok.inj hshould).symm
    · cases hshould
  have hmem : ∀ e, e ∈ should ↔ ∃ r ∈ scene.store.entry.rows, r.entry = e ∧
      r.parent = container := by
    intro e
    rw [hlisting]
    exact mem_readChildren
  have hparent : ∀ e ∈ should, e.identifier.parent = some container := by
    intro e he
    obtain ⟨r, hr, rfl, rfl⟩ := (hmem e).mp he
    exact h.wellFormed.rooted.placed r hr
  have honce : (should.map Entry.identifier).Nodup := hlisting ▸ identifiers_oldListing _ _
  have hlocation : ∀ k, (handOver scene.mirror.map container should).location k =
      (entered scene.mirror.map should).location k := fun _ ↦ rfl
  refine ⟨h.wellFormed, fun k p hp hpopulated ↦ ?_, fun k p hp hpopulated howed ↦ ?_⟩
  · rw [isPopulated_handOver, Bool.or_eq_false_iff, decide_eq_false_iff_not] at hpopulated
    rw [hlocation, (location_entered _ hparent honce k).2]
    · exact h.blank k p hp hpopulated.2
    · rintro e he rfl
      exact hpopulated.1 (Option.some.inj (hp.symm.trans (hparent e he)))
  · obtain ⟨hfound, hmissing⟩ := location_entered scene.mirror.map hparent honce k
    by_cases hk : ∃ e ∈ should, e.identifier = k
    · obtain ⟨e, he, rfl⟩ := hk
      obtain ⟨r, hr, hre, -⟩ := (hmem e).mp he
      rw [Agrees, hlocation, hfound e he rfl, entryMap_eq_some.mpr ⟨r, hr, hre, rfl⟩]
      rfl
    · have hnone : ∀ e ∈ should, e.identifier ≠ k := fun e he heq ↦ hk ⟨e, he, heq⟩
      rw [Agrees, hlocation, hmissing hnone]
      have hunlisted : (should.any fun e ↦ e.identifier = k) = false :=
        List.any_eq_false.mpr fun e he ↦ by simpa using hnone e he
      simp only [hunlisted, Bool.not_false, Bool.and_true] at howed
      cases hbefore : scene.mirror.map.isPopulated p with
      | true => exact h.agrees k p hp hbefore howed
      | false =>
        rw [isPopulated_handOver, hbefore, Bool.or_false, decide_eq_true_eq] at hpopulated
        subst hpopulated
        have hgone : entryMap scene.store k = none := by
          by_contra hne
          obtain ⟨r, hr, rfl⟩ := entryMap_ne_none.mp hne
          have hc := Option.some.inj ((h.wellFormed.rooted.placed r hr).symm.trans hp)
          exact hnone _ ((hmem _).mpr ⟨r, hr, rfl, hc⟩) rfl
        rw [h.blank k p hp hbefore, hgone]
        rfl

theorem Kept.step (h : Kept unicode scene) (event : Event) :
    Kept unicode (step unicode process scene event) := by
  cases event with
  | reconciled container new state answers =>
    rw [OfferRuns.step, adopted]
    cases hresult : scene.store.replaceContainer unicode container new state with
    | error e => exact h
    | ok result =>
      obtain ⟨journal, store⟩ := result
      have hw : WellFormed unicode store := by
        have hw := wellFormed_perform h.wellFormed (.replaceContainer container new state)
        simp only [Runs.perform, Runs.outcome, Runs.committed, hresult] at hw
        exact hw
      have hoffer := offer_of_ok h.wellFormed.rooted hresult
      dsimp only
      split
      next hempty =>
        obtain rfl := List.isEmpty_iff.mp hempty
        refine ⟨hw, h.blank, fun k p hp hpopulated howed ↦ ?_⟩
        rw [Agrees, hoffer.rest k rfl]
        exact h.agrees k p hp hpopulated howed
      next => exact h.told hw hoffer
  | confirmed container state =>
    rw [OfferRuns.step]
    cases hresult : scene.store.updateContainerState container state with
    | error e => exact h
    | ok store =>
      have hw : WellFormed unicode store := by
        have hw := wellFormed_perform h.wellFormed (.updateContainerState container state)
        simp only [Runs.perform, Runs.outcome, Runs.committed, hresult, Except.map] at hw
        exact hw
      obtain ⟨-, rfl⟩ := updateContainerState_eq_ok hresult
      exact ⟨hw, h.blank, h.agrees⟩
  | handedOver container =>
    rw [OfferRuns.step]
    cases hresult : scene.store.children container with
    | error e => exact h
    | ok should => exact h.handedOver hresult
  | connected connected => exact ⟨h.wellFormed, h.blank, h.agrees⟩

end Scenes

section Retries

/-- The changes that an event hands to the platform. -/
def handed (unicode : Unicode) (scene : Scene) : Event → List Change
  | .reconciled container new state _ =>
    match scene.store.replaceContainer unicode container new state with
    | .error _ => []
    | .ok (journal, _) => journal.map JournalEntry.change
  | _ => []

/-- A change that an event hands over is not carried out. -/
def Failed (unicode : Unicode) (process : ℕ) (scene : Scene) (event : Event)
    (k : EntryIdentifier) : Prop :=
  match event with
  | .reconciled _ _ _ answers => refused (handed unicode scene event)
      (reportChange process answers scene.mirror (handed unicode scene event)).1 k = true
  | _ => False

/-- A container is reconciled: its listing is adopted, or confirmed as it is. -/
def Reconciles (unicode : Unicode) (scene : Scene) (container : Container) : Event → Prop
  | .reconciled c new state _ => c = container ∧
      ∃ result, scene.store.replaceContainer unicode c new state = .ok result
  | .confirmed c state => c = container ∧
      ∃ result, scene.store.updateContainerState c state = .ok result
  | _ => False

/-- A reconcile hands over everything that is owed in its container. -/
def Reoffers (unicode : Unicode) (scene : Scene) (event : Event) : Prop :=
  ∀ container, Reconciles unicode scene container event → ∀ k, k.parent = some container →
    scene.owed k = true → offered (handed unicode scene event) k = true

/-- Where a change is owed, the fetched listing differs from the stored one, and a listing is
confirmed as it is only where nothing is owed. -/
def Differs (unicode : Unicode) (scene : Scene) (event : Event) : Prop :=
  ∀ container, Reconciles unicode scene container event → ∀ k, k.parent = some container →
    scene.owed k = true →
      match event with
      | .reconciled _ new state _ =>
        Diffs.listed (withoutErased scene.store new state.fetched) k ≠ entryMap scene.store k
      | _ => False

/-- What the platform did not carry out is handed to it again, and once nothing fails any more the
map and the store agree in the end. -/
structure Retried (unicode : Unicode) (process : ℕ) (scene : Scene) (events : ℕ → Event) :
    Prop where
  again : ∀ t k container, (sceneAt unicode process events scene t).owed k = true →
    k.parent = some container →
      (∀ u, ∃ v, u ≤ v ∧
        Reconciles unicode (sceneAt unicode process events scene v) container (events v)) →
        ∃ u, t ≤ u ∧
          (offered (handed unicode (sceneAt unicode process events scene u) (events u)) k = true ∨
            (sceneAt unicode process events scene u).owed k = false)
  settles : ∀ container,
    (∃ t, ∀ u, t ≤ u → ∀ k,
      ¬ Failed unicode process (sceneAt unicode process events scene u) (events u) k) →
      (∀ u, ∃ v, u ≤ v ∧
        Reconciles unicode (sceneAt unicode process events scene v) container (events v)) →
        ∃ t, ∀ u, t ≤ u →
          (sceneAt unicode process events scene u).mirror.map.isPopulated container = true →
            ∀ k, k.parent = some container →
              Agrees (sceneAt unicode process events scene u).mirror.map
                (sceneAt unicode process events scene u).store k

variable {event : Event} {events : ℕ → Event}

theorem reoffers_iff (h : Kept unicode scene) :
    Reoffers unicode scene event ↔ Differs unicode scene event := by
  refine forall_congr' fun container ↦ imp_congr_right fun hreconciles ↦ forall_congr' fun k ↦
    imp_congr_right fun hk ↦ imp_congr_right fun _ ↦ ?_
  cases event with
  | reconciled c new state answers =>
    obtain ⟨rfl, ⟨journal, store⟩, hresult⟩ := hreconciles
    rw [handed, hresult]
    exact offered_iff_differs h.wellFormed.rooted hresult hk
  | confirmed c state => exact iff_of_false Bool.false_ne_true id
  | handedOver c => exact hreconciles.elim
  | connected b => exact hreconciles.elim

theorem owed_step (h : (step unicode process scene event).owed k = true) :
    (scene.owed k = true ∧ offered (handed unicode scene event) k = false) ∨
      Failed unicode process scene event k := by
  cases event with
  | reconciled c new state answers =>
    rw [step, adopted] at h
    rw [Failed, handed]
    cases hresult : scene.store.replaceContainer unicode c new state with
    | error e =>
      rw [hresult] at h
      exact .inl ⟨h, rfl⟩
    | ok result =>
      obtain ⟨journal, store⟩ := result
      rw [hresult] at h
      dsimp only at h ⊢
      split at h
      next hempty =>
        obtain rfl := List.isEmpty_iff.mp hempty
        exact .inl ⟨h, rfl⟩
      next =>
        rw [told, Bool.and_eq_true, Bool.or_eq_true, Bool.and_eq_true, Bool.not_eq_true'] at h
        exact h.2.symm
  | confirmed c state =>
    rw [step] at h
    refine .inl ⟨?_, rfl⟩
    cases hresult : scene.store.updateContainerState c state with
    | error e => rwa [hresult] at h
    | ok store => rwa [hresult] at h
  | handedOver c =>
    rw [step] at h
    refine .inl ⟨?_, rfl⟩
    cases hresult : scene.store.children c with
    | error e => rwa [hresult] at h
    | ok should =>
      rw [hresult] at h
      exact (Bool.and_eq_true _ _ ▸ h).1
  | connected b => exact .inl ⟨h, rfl⟩

theorem kept_sceneAt (h : Kept unicode scene) (t : ℕ) :
    Kept unicode (sceneAt unicode process events scene t) := by
  induction t with
  | zero => exact h
  | succ t ih => exact ih.step (events t)

/-- Where every reconcile hands over what is owed, whatever the platform did not carry out is handed
to it again, and once nothing fails the map and the store agree in the end. -/
theorem retried_of_reoffers (h : Kept unicode scene) (hreoffers : ∀ t,
    Reoffers unicode (sceneAt unicode process events scene t) (events t)) :
    Retried unicode process scene events where
  again t k container howed hk hoften := by
    obtain ⟨v, hv, hreconciles⟩ := hoften t
    refine ⟨v, hv, ?_⟩
    cases hstill : (sceneAt unicode process events scene v).owed k with
    | false => exact .inr rfl
    | true => exact .inl (hreoffers v container hreconciles k hk hstill)
  settles container hclean hoften := by
    obtain ⟨t, hclean⟩ := hclean
    obtain ⟨v, hv, hreconciles⟩ := hoften t
    have hpaid : ∀ n, ∀ k, k.parent = some container →
        (sceneAt unicode process events scene (v + 1 + n)).owed k = false := by
      intro n
      induction n with
      | zero =>
        intro k hk
        by_contra howed
        rcases owed_step (Bool.not_eq_false _ |>.mp howed) with ⟨hbefore, hnone⟩ | hfailed
        · cases hnone.symm.trans (hreoffers v container hreconciles k hk hbefore)
        · exact hclean v hv k hfailed
      | succ n ih =>
        intro k hk
        by_contra howed
        rcases owed_step (Bool.not_eq_false _ |>.mp howed) with ⟨hbefore, -⟩ | hfailed
        · cases (ih k hk).symm.trans hbefore
        · exact hclean (v + 1 + n) (by omega) k hfailed
    refine ⟨v + 1, fun u hu hpopulated k hk ↦ ?_⟩
    obtain ⟨n, rfl⟩ := Nat.exists_eq_add_of_le hu
    exact (kept_sceneAt h (v + 1 + n)).agrees k container hk hpopulated (hpaid n k hk)

/-- A reconcile hands over what is owed exactly if the fetched listing differs from the stored one
there; where every one does, what the platform did not carry out is handed to it again. -/
theorem retried_of_differs (unicode : Unicode) (process n limit number : ℕ) (events : ℕ → Event) :
    (∀ t, Reoffers unicode
        (sceneAt unicode process events (start n limit number) t) (events t) ↔
      Differs unicode (sceneAt unicode process events (start n limit number) t) (events t)) ∧
    ((∀ t, Differs unicode
      (sceneAt unicode process events (start n limit number) t) (events t)) →
        Retried unicode process (start n limit number) events) := by
  have hkept := kept_start unicode n limit number
  have hiff := fun t ↦ @reoffers_iff unicode _ (events t)
    (@kept_sceneAt unicode process _ events hkept t)
  exact ⟨hiff, fun hdiffers ↦ retried_of_reoffers hkept fun t ↦ (hiff t).mpr (hdiffers t)⟩

/-- A folder that is in use while its removal is told. -/
def inUse : ℕ → Event
  | 0 => .reconciled .root [⟨.container .archives, "Archive", .folder⟩] ⟨none, .null, none⟩
    fun _ ↦ .ok ()
  | 1 => .handedOver .root
  | 2 => .connected true
  | 3 => .reconciled .root [] ⟨none, .null, none⟩
    fun _ ↦ .error ⟨hresultFromWin32 win32SharingViolation, "in use"⟩
  | _ => .reconciled .root [] ⟨none, .null, none⟩ fun _ ↦ .ok ()

theorem inUse_later (t : ℕ) :
    inUse (4 + t) = .reconciled .root [] ⟨none, .null, none⟩ fun _ ↦ .ok () := by
  rw [Nat.add_comm]
  rfl

/-- The folder still stands in the map, and its removal is owed. -/
structure Left (scene : Scene) : Prop where
  entry : scene.store.entry = .empty
  owed : scene.owed (.container .archives) = true
  populated : scene.mirror.map.isPopulated .root = true
  known : scene.mirror.map.location (.container .archives) ≠ none

theorem replaceContainer_again (unicode : Unicode) (s : Store) (h : s.entry = .empty) :
    s.replaceContainer unicode .root [] ⟨none, .null, none⟩ = .ok ([], { s with
      containerState := s.containerState.upsert ⟨.root, ⟨none, .null, none⟩⟩ }) := by
  cases s
  subst h
  rfl

theorem left_again (h : Left scene) :
    Left (step unicode process scene (.reconciled .root [] ⟨none, .null, none⟩ answers)) := by
  rw [step, adopted, replaceContainer_again unicode _ h.entry]
  exact ⟨h.entry, h.owed, h.populated, h.known⟩

def plainUnicode : Unicode := ⟨id, id⟩

theorem left_inUse (t : ℕ) : Left (sceneAt plainUnicode 7 inUse (start 0 10 1) (4 + t)) := by
  induction t with
  | zero => exact ⟨rfl, rfl, rfl, by decide +kernel⟩
  | succ t ih =>
    rw [← Nat.add_assoc, sceneAt, inUse_later]
    exact left_again ih

/-- The removal is never handed over again, though nothing fails any more. -/
theorem never_removed : ¬ ∀ (unicode : Unicode) (process n limit number : ℕ) (events : ℕ → Event),
    Retried unicode process (start n limit number) events := by
  intro h
  have hretried := h plainUnicode 7 0 10 1 inUse
  have hreconciles : ∀ t, Reconciles plainUnicode
      (sceneAt plainUnicode 7 inUse (start 0 10 1) (4 + t)) .root (inUse (4 + t)) := by
    intro t
    rw [inUse_later]
    exact ⟨rfl, _, replaceContainer_again _ _ (left_inUse t).entry⟩
  obtain ⟨u, hu, hagain⟩ := hretried.again 4 (.container .archives) .root (left_inUse 0).owed rfl
    fun u ↦ ⟨4 + u, by omega, hreconciles u⟩
  obtain ⟨t, rfl⟩ := Nat.exists_eq_add_of_le hu
  rcases hagain with hoffered | hpaid
  · rw [inUse_later, handed, replaceContainer_again _ _ (left_inUse t).entry] at hoffered
    cases hoffered
  · cases hpaid.symm.trans (left_inUse t).owed

end Retries

end FolderClient.Cfapi.OfferRuns
