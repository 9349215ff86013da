import FolderClient.Cfapi.OfferRuns

namespace FolderClient.Cfapi.FlightRuns

open FolderClient.Cfapi.Checks FolderClient.Cfapi.Mirror FolderClient.Cfapi.OfferRuns
  FolderClient.Cfapi.Plan FolderClient.Cfapi.ReportRuns FolderClient.Cfapi.Stages
  FolderClient.Cfapi.StepRuns FolderClient.Core FolderClient.Core.Changes
  FolderClient.Core.Namespace FolderClient.Library.Results FolderClient.Storage
  FolderClient.Storage.Basic FolderClient.Storage.Effects FolderClient.Storage.JournalRuns
  FolderClient.Storage.Listings FolderClient.Storage.Replacement FolderClient.Storage.Tree
  FolderClient.Storage.TreeRuns

/-- What is in flight: a difference that is committed and not yet planned, a plan with the steps
left of it, a listing that was read for Windows, and an erasure with the places left to remove. -/
inductive Activity
  | waiting (changes : List Change)
  | running (changes : List Change) (steps : List Step)
  | handing (container : Container) (should : List Entry)
  | erasing (document : DocumentIdentifier) (places left : List EntryIdentifier)

structure World where
  store : Store
  map : PathMap
  number : ℕ
  flight : ℕ → Option Activity

inductive Event
  | reconcile (slot : ℕ) (container : Container) (new : List Entry) (state : ContainerState)
  | erase (slot : ℕ) (document : DocumentIdentifier)
  | fetch (slot : ℕ) (container : Container)
  | proceed (slot : ℕ) (now : Timestamp)
  | abort (slot : ℕ)

/-- A step to which Windows agrees. -/
def carriedOut (map : PathMap) (step : Step) : PathMap :=
  match runStep map (.ok ()) step with
  | .ok next => next
  | .error _ => map

def World.put (world : World) (slot : ℕ) (activity : Option Activity) : World :=
  { world with flight := Function.update world.flight slot activity }

variable (unicode : Unicode) (process : ℕ)

/-- The next thing that an activity does. -/
def proceeded (world : World) (slot : ℕ) (now : Timestamp) : Activity → World
  | .waiting changes =>
    { world with number := (Plan.plan process world.number world.map changes).2 }.put slot
      (some (.running changes (Plan.plan process world.number world.map changes).1))
  | .running _ [] => world.put slot none
  | .running changes (step :: rest) =>
    { world with map := carriedOut world.map step }.put slot (some (.running changes rest))
  | .handing container should =>
    match checkList unicode container should with
    | .error _ => world.put slot none
    | .ok _ => { world with map := handOver world.map container should }.put slot none
  | .erasing document places (k :: left) =>
    { world with map := carriedOut world.map (.remove k) }.put slot
      (some (.erasing document places left))
  | .erasing document _ [] =>
    match world.store.removeDocumentEverywhere document now with
    | .error _ => world.put slot none
    | .ok (journal, store) =>
      { world with store := store }.put slot (some (.waiting (journal.map JournalEntry.change)))

def step (world : World) : Event → World
  | .reconcile slot container new state =>
    if (world.flight slot).isSome then world
    else
      match world.store.replaceContainer unicode container new state with
      | .error _ => world
      | .ok (journal, store) =>
        if journal.isEmpty then { world with store := store }
        else
          { world with store := store }.put slot
            (some (.waiting (journal.map JournalEntry.change)))
  | .erase slot document =>
    if (world.flight slot).isSome then world
    else
      world.put slot (some (.erasing document (world.store.placements document)
        (world.store.placements document)))
  | .fetch slot container =>
    if (world.flight slot).isSome then world
    else
      match world.store.children container with
      | .error _ => world
      | .ok should => world.put slot (some (.handing container should))
  | .proceed slot now =>
    match world.flight slot with
    | none => world
    | some activity => proceeded unicode process world slot now activity
  | .abort slot =>
    match world.flight slot with
    | some (.handing _ _) => world.put slot none
    | _ => world

def start (n limit number : ℕ) : World := ⟨Store.setUp n limit, .empty, number, fun _ ↦ none⟩

/-- Changes touch the container of each entry, and everything below a removed folder. -/
def Touched (changes : List Change) (p : Container) : Prop :=
  ∃ change ∈ changes, change.identifier.parent = some p ∨
    (change.after = none ∧ Below change.identifier p)

def Activity.Touches (p : Container) : Activity → Prop
  | .waiting changes | .running changes _ => Touched changes p
  | .handing container _ => p = container
  | .erasing _ places _ => ∃ k ∈ places, k.parent = some p

/-- Nothing else that is in flight touches a container. -/
def Alone (world : World) (slot : ℕ) (p : Container) : Prop :=
  ∀ other activity, other ≠ slot → world.flight other = some activity → ¬ activity.Touches p

/-- What begins touches no container that something in flight touches; the mirror accepts a fetched
listing; Windows asks for a container once, and is handed it where the way up is known; and an
erasure goes through. -/
def Clear (world : World) : Event → Prop
  | .reconcile slot container new state => checkList unicode container new = .ok () ∧
      ∀ journal store,
        world.store.replaceContainer unicode container new state = .ok (journal, store) →
          ∀ p, Touched (journal.map JournalEntry.change) p → Alone world slot p
  | .erase slot document => ∀ k ∈ world.store.placements document, ∀ p, k.parent = some p →
      Alone world slot p
  | .fetch slot container => world.map.isPopulated container = false ∧ Alone world slot container
  | .proceed slot now =>
    match world.flight slot with
    | some (.handing container _) => Chained world.map container
    | some (.erasing document _ []) => ∃ journal store,
        world.store.removeDocumentEverywhere document now = .ok (journal, store) ∧
          ∀ p, Touched (journal.map JournalEntry.change) p → Alone world slot p
    | _ => True
  | .abort _ => True

/-- An entry stands in the map under its name in the store, or in neither. -/
def Named (map : PathMap) (store : Store) (k : EntryIdentifier) : Prop :=
  (map.location k).map PathMap.Location.name = (entryMap store k).map Entry.name

/-- The steps of an entry can be carried out one after the other and leave it under a name. -/
def Leads (p : Container) (k : EntryIdentifier) (target : Option String) :
    List Step → Option PathMap.Location → Prop
  | [], l => l.map PathMap.Location.name = target
  | step :: rest, l =>
    match step with
    | .remove _ => l ≠ none ∧ Leads p k target rest (effect p k step l)
    | .stagingName _ _ => Leads p k target rest l ∧ Leads p k target rest (effect p k step l)
    | .finalName _ name =>
      l ≠ none ∧ checkName name = .ok () ∧ Leads p k target rest (effect p k step l)
    | .update _ _ => Leads p k target rest l
    | .create e => checkName e.name = .ok () ∧ Leads p k target rest (effect p k step l)

/-- What an activity says of the entries of a populated container that it touches. -/
def Activity.Explains (map : PathMap) (store : Store) (p : Container) : Activity → Prop
  | .waiting changes => ∀ k, k.parent = some p → offered changes k = false → Named map store k
  | .running _ steps => ∀ k, k.parent = some p →
      Leads p k ((entryMap store k).map Entry.name) (own k steps) (map.location k)
  | .handing _ _ => False
  | .erasing _ places left => ∀ k, k.parent = some p →
      if k ∈ places then k ∉ left → map.location k = none else Named map store k

/-- A folder is what has a container of its own. -/
def KindOf (k : EntryIdentifier) (folder : Bool) : Prop := folder = k.container?.isSome

/-- The changes of one commit: one for each entry, as the store has it now, new ones in one
container that none of them is above. -/
structure Committed (store : Store) (changes : List Change) : Prop where
  once : (changes.map Change.identifier).Nodup
  after : ∀ change ∈ changes, entryMap store change.identifier = change.after
  parents : ∀ change ∈ changes, ∃ p, change.identifier.parent = some p
  within : ∃ container, (∀ change ∈ changes, ∀ e, change.after = some e →
    e.identifier.parent = some container) ∧
      ∀ change ∈ changes, ¬ Below change.identifier container

/-- The steps left of a plan come from its changes. -/
structure Underway (map : PathMap) (changes : List Change) (steps : List Step) : Prop where
  from_ : ∀ s ∈ steps, ∃ change ∈ changes, change.identifier = s.identifier ∧
    ∃ p, s.identifier.parent = some p
  removed : ∀ i, .remove i ∈ steps → ∃ change ∈ changes, change.identifier = i ∧
    change.after = none
  created : ∀ e, .create e ∈ steps → KindOf e.identifier e.isFolder ∧
    ∃ p, e.identifier.parent = some p ∧ map.isPopulated p = true ∧
      ∀ i, .remove i ∈ steps → ¬ Below i p

/-- What holds of an activity whatever the others do. -/
def Activity.Fits (map : PathMap) (store : Store) : Activity → Prop
  | .waiting changes => Committed store changes
  | .running changes steps => Underway map changes steps
  | .handing container should => map.isPopulated container = false ∧
      (should.map Entry.identifier).Nodup ∧
        ∀ e, e ∈ should ↔
          entryMap store e.identifier = some e ∧ e.identifier.parent = some container
  | .erasing document places left => (∀ k ∈ left, k ∈ places) ∧ (∀ k ∈ places, placed document k) ∧
      ∀ k p, k.parent = some p → (∃ k' ∈ places, k'.parent = some p) →
        (k ∈ places ↔ placed document k ∧ entryMap store k ≠ none)

/-- The invariant of the runs without overlap. -/
structure Kept (world : World) : Prop where
  wellFormed : WellFormed unicode world.store
  accepted : ∀ r ∈ world.store.entry.rows, checkName r.entry.name = .ok () ∧
    KindOf r.entry.identifier r.entry.isFolder
  coherent : Coherent world.map
  kinds : ∀ k l, world.map.location k = some l → KindOf k l.folder
  blank : Blank world.map
  chained : ∀ p, world.map.isPopulated p = true → Chained world.map p
  apart : ∀ slot activity p, world.flight slot = some activity → activity.Touches p →
    Alone world slot p
  fits : ∀ slot activity, world.flight slot = some activity →
    activity.Fits world.map world.store
  explains : ∀ slot activity p, world.flight slot = some activity → activity.Touches p →
    world.map.isPopulated p = true → activity.Explains world.map world.store p
  settled : ∀ p, world.map.isPopulated p = true →
    (∀ slot activity, world.flight slot = some activity → ¬ activity.Touches p) →
      ∀ k, k.parent = some p → Named world.map world.store k

variable {unicode process} {world : World} {map : PathMap} {store store' : Store}
  {slot other : ℕ} {activity : Activity} {s : Step} {steps rest : List Step} {changes : List Change}
  {c d p : Container} {i k : EntryIdentifier} {e : Entry} {l : Option PathMap.Location}
  {target : Option String} {number : ℕ}

section Steps

theorem carriedOut_cases (map : PathMap) (s : Step) :
    carriedOut map s = acted map s ∨ carriedOut map s = map := by
  rw [carriedOut]
  cases hstep : runStep map (.ok ()) s with
  | ok next => exact .inl (eq_acted_of_ok hstep)
  | error e => exact .inr rfl

theorem moved_carriedOut (map : PathMap) (s : Step) :
    (∀ c, (carriedOut map s).isPopulated c = true → map.isPopulated c = true) ∧
      ∀ k p, k.parent = some p → (carriedOut map s).isPopulated p = true → s.identifier ≠ k →
        (carriedOut map s).location k = map.location k := by
  rcases carriedOut_cases map s with h | h
  · rw [h]
    have hmoved := moved_acted map s
    exact ⟨hmoved.populated, fun k p hp hpopulated hne ↦
      (hmoved.location k p hp hpopulated).trans (effect_of_ne hne)⟩
  · rw [h]
    exact ⟨fun _ h ↦ h, fun _ _ _ _ _ ↦ rfl⟩

/-- A container keeps its mark unless something above it is removed. -/
theorem isPopulated_carriedOut (h : ∀ i, s = .remove i → ¬ Below i d) :
    (carriedOut map s).isPopulated d = map.isPopulated d := by
  rcases carriedOut_cases map s with heq | heq
  · rw [heq, isPopulated_acted h]
  · rw [heq]

theorem coherent_carriedOut (h : Coherent map) (s : Step) : Coherent (carriedOut map s) := by
  rcases carriedOut_cases map s with heq | heq
  · rw [heq]
    exact h.acted s
  · rwa [heq]

theorem blank_carriedOut (h : Blank map) (hcreate : ∀ e, s = .create e →
    ∃ p, e.identifier.parent = some p ∧ map.isPopulated p = true) : Blank (carriedOut map s) := by
  rcases carriedOut_cases map s with heq | heq
  · rw [heq]
    exact h.acted hcreate
  · rwa [heq]

theorem kinds_carriedOut (h : ∀ k l, map.location k = some l → KindOf k l.folder)
    (hcreate : ∀ e, s = .create e → KindOf e.identifier e.isFolder) :
    ∀ k l, (carriedOut map s).location k = some l → KindOf k l.folder := by
  intro k l hl
  rcases carriedOut_cases map s with heq | heq
  · rw [heq] at hl
    cases s with
    | remove i =>
      rw [acted, PathMap.location_remove] at hl
      split at hl
      · cases hl
      · exact h k l hl
    | stagingName i name =>
      rw [acted, PathMap.location_rename] at hl
      obtain ⟨l', hl', rfl⟩ := Option.map_eq_some_iff.mp hl
      have hkind := h k l' hl'
      split <;> exact hkind
    | finalName i name =>
      rw [acted, PathMap.location_rename] at hl
      obtain ⟨l', hl', rfl⟩ := Option.map_eq_some_iff.mp hl
      have hkind := h k l' hl'
      split <;> exact hkind
    | update e stale => exact h k l hl
    | create e =>
      cases hparent : e.identifier.parent with
      | none =>
        rw [acted, PathMap.set, hparent] at hl
        exact h k l hl
      | some q =>
        rw [acted, PathMap.location_set hparent] at hl
        split at hl
        next hk =>
          obtain rfl := Option.some.inj hl
          rw [hk]
          exact hcreate e rfl
        next => exact h k l hl
  · rw [heq] at hl
    exact h k l hl

/-- Where the way up is known, a removal reaches everything below its entry. -/
theorem reaches_of_below {depth : ℕ} (hchained : Chained map d) (hbelow : Below i d)
    (hdepth : d.depth ≤ depth) : map.reaches i depth (.container d) = true := by
  obtain ⟨b, hb, hbelow⟩ := hbelow
  obtain rfl := EntryIdentifier.container?_eq_some.mp hb
  induction depth generalizing d with
  | zero =>
    rcases hbelow with rfl | hbelow
    · exact PathMap.reaches_self 0
    · have hlt := Container.depth_lt_of_mem_ancestors hbelow
      omega
  | succ depth ih =>
    rcases hbelow with rfl | hbelow
    · exact PathMap.reaches_self _
    · cases hq : d.parent with
      | none =>
        cases d with
        | root => cases hbelow
        | _ => cases hq
      | some q =>
        have hknown : map.knows (.container d) = true := by
          rcases hchained d List.mem_cons_self with rfl | hknown
          · cases hq
          · exact hknown
        have hupper : Chained map q := by
          intro a ha
          apply hchained a
          rw [Container.ancestors_of_parent hq]
          exact List.mem_cons_of_mem _ ha
        have hdown := Container.depth_of_parent hq
        rw [Container.ancestors_of_parent hq, List.mem_cons] at hbelow
        have hreach := ih hupper (by omega) (hbelow.imp_left Eq.symm)
        have hparent : (EntryIdentifier.container d).parent = some q := hq
        rw [PathMap.reaches_add_one, hknown, hparent, Option.any_some, hreach]
        simp

theorem below_trans {a : Container} (hbelow : Below i a) (ha : a = d ∨ a ∈ d.ancestors) :
    Below i d := by
  obtain ⟨b, hb, hbelow⟩ := hbelow
  refine ⟨b, hb, ?_⟩
  rcases ha with rfl | ha
  · exact hbelow
  · rcases hbelow with rfl | hbelow
    · exact .inr ha
    · exact .inr (mem_ancestors_trans ha hbelow)

theorem chained_carriedOut (h : ∀ p, map.isPopulated p = true → Chained map p) :
    ∀ p, (carriedOut map s).isPopulated p = true → Chained (carriedOut map s) p := by
  intro p hp a ha
  have hbefore := (moved_carriedOut map s).1 p hp
  refine (h p hbefore a ha).imp_right fun hknown ↦ ?_
  rcases carriedOut_cases map s with heq | heq
  · rw [heq] at hp ⊢
    cases s with
    | remove i =>
      rw [PathMap.knows_iff, acted, PathMap.location_remove, if_neg]
      · exact PathMap.knows_iff.mp hknown
      · intro hreach
        have hbelow := below_trans (below_of_reaches hreach) (List.mem_cons.mp ha)
        have hdepth := p.depth_le
        have hreached := @reaches_of_below map p i PathMap.treeDepth (h p hbefore) hbelow
          (by rw [PathMap.treeDepth]; omega)
        rw [acted, PathMap.isPopulated_remove, hreached, Bool.not_true, Bool.and_false] at hp
        cases hp
    | stagingName i name =>
      rw [PathMap.knows, acted, PathMap.location_rename, Option.isSome_map]
      exact hknown
    | finalName i name =>
      rw [PathMap.knows, acted, PathMap.location_rename, Option.isSome_map]
      exact hknown
    | update e stale => exact hknown
    | create e =>
      cases hparent : e.identifier.parent with
      | none =>
        rw [acted, PathMap.set, hparent]
        exact hknown
      | some q =>
        rw [PathMap.knows, acted, PathMap.location_set hparent]
        split
        · rfl
        · exact hknown
  · rw [heq]
    exact hknown

/-- Where the way up is known, each step of an entry is carried out as it leads, the first stage of
a rename perhaps. -/
theorem leads_carriedOut (hcoherent : Coherent map) (hchained : Chained map p)
    (hp : k.parent = some p) (hpopulated : (carriedOut map s).isPopulated p = true)
    (h : Leads p k target (own k (s :: steps)) (map.location k)) :
    Leads p k target (own k steps) ((carriedOut map s).location k) := by
  by_cases hown : s.identifier = k
  · have hcons : own k (s :: steps) = s :: own k steps :=
      List.filter_cons_of_pos (decide_eq_true hown)
    rw [hcons] at h
    have hdone : runStep map (.ok ()) s = .ok (acted map s) →
        carriedOut map s = acted map s ∧ (carriedOut map s).location k =
          effect p k s (map.location k) := by
      intro hrun
      have hacted : carriedOut map s = acted map s := by rw [carriedOut, hrun]
      rw [hacted] at hpopulated ⊢
      exact ⟨rfl, (moved_acted map s).location k p hp hpopulated⟩
    have hparent : s.identifier.parent = some p := hown ▸ hp
    cases s with
    | remove i =>
      obtain rfl : i = k := hown
      obtain ⟨hknown, h⟩ := h
      rw [(hdone (runStep_ok hcoherent hchained hparent (fun _ ↦ hknown) (by simp [nameGiven]))).2]
      exact h
    | stagingName i name =>
      rcases carriedOut_cases map (.stagingName i name) with heq | heq
      · rw [heq] at hpopulated ⊢
        rw [(moved_acted map _).location k p hp hpopulated]
        exact h.2
      · rw [heq]
        exact h.1
    | finalName i name =>
      obtain rfl : i = k := hown
      obtain ⟨hknown, hname, h⟩ := h
      rw [(hdone (runStep_ok hcoherent hchained hparent (fun _ ↦ hknown) fun _ hgiven ↦
        Option.some.inj hgiven ▸ hname)).2]
      exact h
    | update e stale =>
      rcases carriedOut_cases map (.update e stale) with heq | heq
      · rw [heq]
        exact h
      · rw [heq]
        exact h
    | create e =>
      obtain ⟨hname, h⟩ := h
      rw [(hdone (runStep_ok hcoherent hchained hparent (fun hne ↦ absurd rfl (hne e))
        fun _ hgiven ↦ Option.some.inj hgiven ▸ hname)).2]
      exact h
  · have hcons : own k (s :: steps) = own k steps := List.filter_cons_of_neg (by simpa using hown)
    rw [hcons] at h
    rwa [(moved_carriedOut map s).2 k p hp hpopulated hown]

theorem leads_rest (hrest : rest = [] ∨ ∃ stale, rest = [.update e stale])
    (h : l.map PathMap.Location.name = target) : Leads p k target rest l := by
  rcases hrest with rfl | ⟨stale, rfl⟩
  · exact h
  · exact h

/-- The steps that are planned for an entry of the kind the map has it lead to its name. -/
theorem leads_of_planned (h : Planned map e steps) (hname : checkName e.name = .ok ())
    (hkind : ∀ l, map.location e.identifier = some l → l.folder = e.isFolder) :
    Leads p e.identifier (some e.name) steps (map.location e.identifier) := by
  cases h with
  | create hnone => exact ⟨hname, by simp [Leads, effect]⟩
  | replace hlocation hne => exact absurd (hkind _ hlocation) hne
  | keep hlocation _ hsame hrest =>
    apply leads_rest hrest
    rw [hlocation, Option.map_some, hsame]
  | @rename l name rest hlocation _ hrest =>
    have hlast : ∀ l : PathMap.Location, Leads p e.identifier (some e.name)
        (.finalName e.identifier e.name :: rest) (some l) := by
      intro l
      refine ⟨by simp, hname, leads_rest hrest ?_⟩
      simp [effect]
    rw [hlocation]
    refine ⟨hlast l, ?_⟩
    have heffect : effect p e.identifier (.stagingName e.identifier name) (some l) =
        some { l with name := name } := by simp [effect]
    rw [heffect]
    exact hlast _

end Steps

section Planning

/-- What is planned for an entry of a populated container leads to its name in the store. -/
theorem leads_of_plan (hcommitted : Committed store changes)
    (haccepted : ∀ r ∈ store.entry.rows, checkName r.entry.name = .ok () ∧
      KindOf r.entry.identifier r.entry.isFolder)
    (hkinds : ∀ k l, map.location k = some l → KindOf k l.folder)
    (hexplains : Activity.Explains map store p (.waiting changes))
    (hpopulated : map.isPopulated p = true) (hp : k.parent = some p) :
    Leads p k ((entryMap store k).map Entry.name)
      (own k (Plan.plan process number map changes).1) (map.location k) := by
  cases hoffered : offered changes k with
  | false =>
    have hown := @own_of_unchanged map k process number changes fun change hmem heq ↦ by
      rw [offered_iff.mpr ⟨change, hmem, heq⟩] at hoffered
      cases hoffered
    rw [hown]
    exact hexplains k hp hoffered
  | true =>
    obtain ⟨change, hmem, rfl⟩ := offered_iff.mp hoffered
    have hone := filter_change hcommitted.once hmem
    rw [hcommitted.after change hmem]
    cases hafter : change.after with
    | none =>
      cases change with
      | new e => cases hafter
      | changed before e => cases hafter
      | removed e =>
        have hid : (Change.removed e).identifier = e.identifier := rfl
        rw [hid] at hp ⊢
        rw [own_of_removed hp hpopulated hone]
        split
        next hknown =>
          refine ⟨PathMap.knows_iff.mp hknown, ?_⟩
          simp [Leads, effect]
        next hknown =>
          have hnone : map.location e.identifier = none := by
            by_contra hne
            exact hknown (PathMap.knows_iff.mpr hne)
          rw [hnone]
          rfl
    | some e =>
      have hid := Change.identifier_of_after hafter
      have hstored := hcommitted.after change hmem
      rw [hid] at hp hone hstored ⊢
      obtain ⟨r, hr, rfl, -⟩ := entryMap_eq_some.mp (hstored.trans hafter)
      obtain ⟨hname, hkind⟩ := haccepted r hr
      apply leads_of_planned (planned_of_put hp hpopulated hafter hone) hname
      intro l hl
      exact (hkinds _ l hl).trans hkind.symm

/-- A step is about an entry of a populated container that a change is about. -/
theorem populated_of_step (hs : s ∈ (Plan.plan process number map changes).1) :
    ∃ change ∈ changes, change.identifier = s.identifier ∧
      ∃ p, s.identifier.parent = some p ∧ map.isPopulated p = true := by
  rw [plan_filter] at hs
  obtain ⟨change, hmem, heq⟩ := exists_change hs
  obtain ⟨hmem, hany⟩ := List.mem_filter.mp hmem
  rw [heq] at hany
  exact ⟨change, hmem, heq, (Option.any_eq_true _ _).mp hany⟩

/-- Nothing that is to stand and is of the kind the map has it is removed first. -/
theorem remove_notMem_of_planned (h : Planned map e steps)
    (hkind : ∀ l, map.location e.identifier = some l → l.folder = e.isFolder) :
    .remove i ∉ steps := by
  cases h with
  | create hnone => simp
  | replace hlocation hne => exact absurd (hkind _ hlocation) hne
  | keep hlocation _ hsame hrest => rcases hrest with rfl | ⟨stale, rfl⟩ <;> simp
  | rename hlocation _ hrest => rcases hrest with rfl | ⟨stale, rfl⟩ <;> simp

theorem underway_of_plan (hcommitted : Committed store changes)
    (haccepted : ∀ r ∈ store.entry.rows, checkName r.entry.name = .ok () ∧
      KindOf r.entry.identifier r.entry.isFolder)
    (hkinds : ∀ k l, map.location k = some l → KindOf k l.folder) :
    Underway map changes (Plan.plan process number map changes).1 := by
  refine ⟨fun s hs ↦ ?_, fun i hi ↦ ?_, fun e he ↦ ?_⟩
  · obtain ⟨change, hmem, heq⟩ := exists_change hs
    exact ⟨change, hmem, heq, heq ▸ hcommitted.parents change hmem⟩
  · obtain ⟨change, hmem, rfl⟩ := exists_change hi
    refine ⟨change, hmem, rfl, ?_⟩
    cases hafter : change.after with
    | none => rfl
    | some e =>
      have hid := Change.identifier_of_after hafter
      have hstored := hcommitted.after change hmem
      obtain ⟨-, -, -, p, hp, hmarked⟩ := populated_of_step hi
      have hp : change.identifier.parent = some p := hp
      have hone := filter_change hcommitted.once hmem
      rw [hid] at hi hp hone hstored
      obtain ⟨r, hr, rfl, -⟩ := entryMap_eq_some.mp (hstored.trans hafter)
      refine absurd (List.mem_filter.mpr ⟨hi, decide_eq_true rfl⟩)
        (remove_notMem_of_planned (planned_of_put hp hmarked hafter hone) fun l hl ↦ ?_)
      exact (hkinds _ l hl).trans (haccepted r hr).2.symm
  · obtain ⟨change, hmem, hafter, p, hp, hmarked⟩ := creates_of_plan _ _ _ _ he
    have hstored := hcommitted.after change hmem
    obtain ⟨r, hr, rfl, -⟩ := entryMap_eq_some.mp (hstored.trans hafter)
    obtain ⟨container, hwithin, hbelow⟩ := hcommitted.within
    refine ⟨(haccepted r hr).2, p, hp, hmarked, fun i hi ↦ ?_⟩
    obtain rfl := Option.some.inj ((hwithin change hmem _ hafter).symm.trans hp)
    obtain ⟨change', hmem', rfl⟩ := exists_change hi
    exact hbelow change' hmem'

end Planning

section Frames

/-- Outside some containers the map and the store say what they said before. -/
structure Frame (own : Container → Prop) (map map' : PathMap) (store store' : Store) : Prop where
  populated : ∀ p, ¬ own p → map'.isPopulated p = map.isPopulated p
  location : ∀ k p, k.parent = some p → ¬ own p → map'.isPopulated p = true →
    map'.location k = map.location k
  entries : ∀ k p, k.parent = some p → ¬ own p → entryMap store' k = entryMap store k

variable {own : Container → Prop} {map' : PathMap} {next : Option Activity}

theorem named_congr (hlocation : map'.location k = map.location k)
    (hentry : entryMap store' k = entryMap store k) :
    Named map' store' k ↔ Named map store k := by
  rw [Named, Named, hlocation, hentry]

theorem Frame.named (h : Frame own map map' store store') (hp : k.parent = some p)
    (hown : ¬ own p) (hpopulated : map'.isPopulated p = true) :
    Named map' store' k ↔ Named map store k :=
  named_congr (h.location k p hp hown hpopulated) (h.entries k p hp hown)

theorem Frame.explains (h : Frame own map map' store store') (hown : ¬ own p)
    (hpopulated : map'.isPopulated p = true) (hbefore : activity.Explains map store p) :
    activity.Explains map' store' p := by
  cases activity with
  | waiting changes =>
    intro k hp hunoffered
    exact (h.named hp hown hpopulated).mpr (hbefore k hp hunoffered)
  | running changes steps =>
    intro k hp
    rw [h.location k p hp hown hpopulated, h.entries k p hp hown]
    exact hbefore k hp
  | handing container should => exact hbefore
  | erasing document places left =>
    intro k hp
    have hbefore := hbefore k hp
    split at hbefore
    next hplace =>
      rw [if_pos hplace, h.location k p hp hown hpopulated]
      exact hbefore
    next hplace =>
      rw [if_neg hplace]
      exact (h.named hp hown hpopulated).mpr hbefore

theorem Frame.fits (h : Frame own map map' store store')
    (hown : ∀ p, activity.Touches p → ¬ own p) (hbefore : activity.Fits map store) :
    activity.Fits map' store' := by
  cases activity with
  | waiting changes =>
    refine ⟨hbefore.once, fun change hmem ↦ ?_, hbefore.parents, hbefore.within⟩
    obtain ⟨p, hp⟩ := hbefore.parents change hmem
    rw [h.entries _ p hp (hown p ⟨change, hmem, .inl hp⟩)]
    exact hbefore.after change hmem
  | running changes steps =>
    refine ⟨hbefore.from_, hbefore.removed, fun e he ↦ ?_⟩
    obtain ⟨hkind, p, hp, hmarked, hbelow⟩ := hbefore.created e he
    obtain ⟨change, hmem, hid, -⟩ := hbefore.from_ _ he
    have htouched : Touched changes p := ⟨change, hmem, .inl (hid ▸ hp)⟩
    exact ⟨hkind, p, hp, (h.populated p (hown p htouched)).trans hmarked, hbelow⟩
  | handing container should =>
    obtain ⟨hblank, hnodup, hmem⟩ := hbefore
    have hown := hown container rfl
    refine ⟨(h.populated container hown).trans hblank, hnodup, fun e ↦ (hmem e).trans ?_⟩
    exact and_congr_left fun hp ↦ by rw [h.entries _ container hp hown]
  | erasing document places left =>
    obtain ⟨hleft, hplaced, hplaces⟩ := hbefore
    refine ⟨hleft, hplaced, fun k p hp hk ↦ (hplaces k p hp hk).trans ?_⟩
    rw [h.entries k p hp (hown p hk)]

/-- What happens in containers that nothing else in flight touches leaves everything else in flight
as it was. -/
theorem Kept.moved (h : Kept unicode world) (hframe : Frame own world.map map' world.store store')
    (halone : ∀ p, own p → Alone world slot p)
    (hbefore : ∀ activity, world.flight slot = some activity → ∀ p, activity.Touches p → own p)
    (hwellFormed : WellFormed unicode store')
    (haccepted : ∀ r ∈ store'.entry.rows, checkName r.entry.name = .ok () ∧
      KindOf r.entry.identifier r.entry.isFolder)
    (hcoherent : Coherent map') (hkinds : ∀ k l, map'.location k = some l → KindOf k l.folder)
    (hblank : Blank map') (hchained : ∀ p, map'.isPopulated p = true → Chained map' p)
    (hnext : ∀ activity, next = some activity →
      (∀ p, activity.Touches p → own p) ∧ activity.Fits map' store')
    (hexplains : ∀ p, own p → map'.isPopulated p = true →
      (∀ activity, next = some activity → activity.Touches p →
        activity.Explains map' store' p) ∧
      ((∀ activity, next = some activity → ¬ activity.Touches p) →
        ∀ k, k.parent = some p → Named map' store' k)) :
    Kept unicode ⟨store', map', number, Function.update world.flight slot next⟩ := by
  have hself : Function.update world.flight slot next slot = next := Function.update_self ..
  have hothers : ∀ other, other ≠ slot →
      Function.update world.flight slot next other = world.flight other :=
    fun other hne ↦ Function.update_of_ne hne ..
  have hclear : ∀ other activity p, other ≠ slot → world.flight other = some activity →
      activity.Touches p → ¬ own p :=
    fun other activity p hne hflight htouches hown ↦
      halone p hown other activity hne hflight htouches
  refine ⟨hwellFormed, haccepted, hcoherent, hkinds, hblank, hchained,
    fun other activity p hflight htouches third activity' hne hthird htouches' ↦ ?_,
    fun other activity hflight ↦ ?_, fun other activity p hflight htouches hpopulated ↦ ?_,
    fun p hpopulated huntouched k hp ↦ ?_⟩
  · dsimp only at hflight hthird
    by_cases hslot : other = slot
    · subst hslot
      rw [hself] at hflight
      rw [hothers third hne] at hthird
      exact hclear third activity' p hne hthird htouches' ((hnext _ hflight).1 p htouches)
    · rw [hothers other hslot] at hflight
      by_cases hslot' : third = slot
      · subst hslot'
        rw [hself] at hthird
        exact hclear other activity p hslot hflight htouches ((hnext _ hthird).1 p htouches')
      · rw [hothers third hslot'] at hthird
        exact h.apart other activity p hflight htouches third activity' hne hthird htouches'
  · dsimp only at hflight ⊢
    by_cases hslot : other = slot
    · subst hslot
      rw [hself] at hflight
      exact (hnext _ hflight).2
    · rw [hothers other hslot] at hflight
      exact hframe.fits (fun p ↦ hclear other activity p hslot hflight)
        (h.fits other activity hflight)
  · dsimp only at hflight hpopulated ⊢
    by_cases hslot : other = slot
    · subst hslot
      rw [hself] at hflight
      exact (hexplains p ((hnext _ hflight).1 p htouches) hpopulated).1 _ hflight htouches
    · rw [hothers other hslot] at hflight
      have hown := hclear other activity p hslot hflight htouches
      apply hframe.explains hown hpopulated
      exact h.explains other activity p hflight htouches
        ((hframe.populated p hown).symm.trans hpopulated)
  · dsimp only at huntouched hpopulated ⊢
    by_cases hown : own p
    · refine (hexplains p hown hpopulated).2 (fun activity hactivity ↦ ?_) k hp
      exact huntouched slot activity (hself.trans hactivity)
    · apply (hframe.named hp hown hpopulated).mpr
      refine h.settled p ((hframe.populated p hown).symm.trans hpopulated)
        (fun other activity hflight htouches ↦ ?_) k hp
      by_cases hslot : other = slot
      · subst hslot
        exact hown (hbefore activity hflight p htouches)
      · exact huntouched other activity ((hothers other hslot).trans hflight) htouches

end Frames

section Events

theorem kinds_of_checkListFrom {names : List String} {identifiers : List EntryIdentifier}
    {new : List Entry} (h : checkListFrom unicode c names identifiers new = .ok ()) :
    ∀ e ∈ new, KindOf e.identifier e.isFolder := by
  induction new generalizing names identifiers with
  | nil => exact fun e he ↦ absurd he List.not_mem_nil
  | cons e rest ih =>
    unfold checkListFrom at h
    simp only [ite_throw_eq_ok] at h
    obtain ⟨-, hkind, h⟩ := h
    obtain ⟨_, -, h⟩ := bind_eq_ok.mp h
    simp only [ite_throw_eq_ok] at h
    intro e' he'
    rcases List.mem_cons.mp he' with rfl | he'
    · exact not_not.mp hkind
    · exact ih h.2.2 e' he'

theorem kept_start (unicode : Unicode) (n limit number : ℕ) :
    Kept unicode (start n limit number) where
  wellFormed := wellFormed_setUp unicode n limit
  accepted r hr := absurd hr List.not_mem_nil
  coherent _ _ h := by cases h
  kinds _ _ h := by cases h
  blank _ _ _ _ := rfl
  chained _ h := by cases h
  apart _ _ _ h := by cases h
  fits _ _ h := by cases h
  explains _ _ _ h := by cases h
  settled _ h := by cases h

variable {new : List Entry} {container : Container} {state : ContainerState}
  {journal : List JournalEntry} {document : DocumentIdentifier} {now : Timestamp}

/-- A listing that the mirror would accept leaves the rows of the store such. -/
theorem accepted_replaced (hw : WellFormed unicode store)
    (haccepted : ∀ r ∈ store.entry.rows, checkName r.entry.name = .ok () ∧
      KindOf r.entry.identifier r.entry.isFolder)
    (hcheck : checkList unicode container new = .ok ())
    (h : store.replaceContainer unicode container new state = .ok (journal, store')) :
    ∀ r ∈ store'.entry.rows, checkName r.entry.name = .ok () ∧
      KindOf r.entry.identifier r.entry.isFolder := by
  have hoffer := offer_of_ok hw.rooted h
  obtain ⟨gone, -, -, hr⟩ := exists_gone hw.rooted h
  intro r hmem
  have hstored : entryMap store' r.entry.identifier = some r.entry :=
    entryMap_eq_some.mpr ⟨r, hmem, rfl, rfl⟩
  cases hoffered : offered (journal.map JournalEntry.change) r.entry.identifier with
  | false =>
    rw [hoffer.rest _ hoffered] at hstored
    obtain ⟨r', hr', heq, -⟩ := entryMap_eq_some.mp hstored
    exact heq ▸ haccepted r' hr'
  | true =>
    obtain ⟨change, hchange, hid⟩ := offered_iff.mp hoffered
    have hafter := (hoffer.after change hchange).symm
    rw [hid, hstored] at hafter
    have hparent := hoffer.parent change hchange _ hafter
    have hplaced := (rooted_of_replaced hw.rooted hr).placed r hmem
    have hlisted : r.entry ∈ oldListing store' container :=
      mem_readChildren.mpr ⟨r, hmem, rfl, Option.some.inj (hplaced.symm.trans hparent)⟩
    have hfresh : r.entry ∈ new := List.mem_of_mem_filter ((mem_replaced hr).mp hlisted)
    exact ⟨((accepted_of_checkListFrom hcheck).1 _ hfresh).2.1,
      kinds_of_checkListFrom hcheck _ hfresh⟩

/-- Changes of a commit that nothing in flight overlaps wait to be planned. -/
theorem Kept.committed (h : Kept unicode world)
    (hself : ∀ activity, world.flight slot = some activity → ∀ p, activity.Touches p →
      Touched changes p ∧ (world.map.isPopulated p = true → ∀ k, k.parent = some p →
        offered changes k = false → Named world.map world.store k))
    (halone : ∀ p, Touched changes p → Alone world slot p) (hw : WellFormed unicode store')
    (haccepted : ∀ r ∈ store'.entry.rows, checkName r.entry.name = .ok () ∧
      KindOf r.entry.identifier r.entry.isFolder)
    (hrest : ∀ k, offered changes k = false → entryMap store' k = entryMap world.store k)
    (hcommitted : Committed store' changes) :
    Kept unicode ⟨store', world.map, number,
      Function.update world.flight slot (some (.waiting changes))⟩ := by
  have hunoffered : ∀ k p, k.parent = some p → ¬ Touched changes p → offered changes k = false := by
    intro k p hp hnone
    by_contra hoffered
    obtain ⟨change, hmem, rfl⟩ := offered_iff.mp (Bool.not_eq_false _ |>.mp hoffered)
    exact hnone ⟨change, hmem, .inl hp⟩
  refine h.moved ⟨fun _ _ ↦ rfl, fun _ _ _ _ _ ↦ rfl, fun k p hp hown ↦
      hrest k (hunoffered k p hp hown)⟩ halone
    (fun activity hactivity p htouches ↦ (hself activity hactivity p htouches).1) hw haccepted
    h.coherent h.kinds h.blank h.chained (fun activity hactivity ↦ ?_)
    fun p hown hpopulated ↦ ⟨fun activity hactivity htouches ↦ ?_, fun huntouched ↦ ?_⟩
  · obtain rfl := Option.some.inj hactivity
    exact ⟨fun p hp ↦ hp, hcommitted⟩
  · obtain rfl := Option.some.inj hactivity
    intro k hp hnone
    apply (named_congr rfl (hrest k hnone)).mpr
    by_cases hhere : ∃ activity, world.flight slot = some activity ∧ activity.Touches p
    · obtain ⟨activity, hactivity, htouches⟩ := hhere
      exact (hself activity hactivity p htouches).2 hpopulated k hp hnone
    · apply h.settled p hpopulated (fun other activity hflight htouches ↦ ?_) k hp
      by_cases hother : other = slot
      · exact hhere ⟨activity, hother ▸ hflight, htouches⟩
      · exact halone p hown other activity hother hflight htouches
  · exact absurd hown (huntouched _ rfl)

theorem Kept.reconciled (h : Kept unicode world) (hslot : world.flight slot = none)
    (hcheck : checkList unicode container new = .ok ())
    (hresult : world.store.replaceContainer unicode container new state = .ok (journal, store'))
    (halone : ∀ p, Touched (journal.map JournalEntry.change) p → Alone world slot p) :
    Kept unicode (if journal.isEmpty then { world with store := store' }
      else { world with store := store' }.put slot
        (some (.waiting (journal.map JournalEntry.change)))) := by
  have hw : WellFormed unicode store' := by
    have hw := wellFormed_perform h.wellFormed (.replaceContainer container new state)
    simp only [Runs.perform, Runs.outcome, Runs.committed, hresult] at hw
    exact hw
  have hoffer := offer_of_ok h.wellFormed.rooted hresult
  have haccepted := accepted_replaced h.wellFormed h.accepted hcheck hresult
  split
  next hempty =>
    obtain rfl := List.isEmpty_iff.mp hempty
    have hsame : ∀ k, entryMap store' k = entryMap world.store k := fun k ↦ hoffer.rest k rfl
    have hkept := @Kept.moved unicode world store' slot world.number (fun _ ↦ False) world.map none
      h ⟨fun _ _ ↦ rfl, fun _ _ _ _ _ ↦ rfl, fun k _ _ _ ↦ hsame k⟩ (fun p hp ↦ hp.elim)
      (fun activity hactivity ↦ by cases hslot.symm.trans hactivity) hw haccepted h.coherent
      h.kinds h.blank h.chained (fun activity hactivity ↦ by cases hactivity)
      fun p hp ↦ hp.elim
    rwa [← hslot, Function.update_eq_self] at hkept
  next =>
    apply h.committed (fun activity hactivity ↦ by cases hslot.symm.trans hactivity) halone hw
      haccepted hoffer.rest
    refine ⟨hoffer.once, hoffer.after, fun change hmem ↦ ?_, container, hoffer.parent, hoffer.below⟩
    cases hafter : change.after with
    | some e => exact ⟨container, Change.identifier_of_after hafter ▸ hoffer.parent change hmem e hafter⟩
    | none =>
      have hstood : entryMap world.store change.identifier ≠ none :=
        fun hnone ↦ hoffer.differs change hmem (hnone.trans hafter.symm)
      obtain ⟨r, hr, hid⟩ := entryMap_ne_none.mp hstood
      exact ⟨r.parent, hid ▸ h.wellFormed.rooted.placed r hr⟩

theorem Kept.erasing (h : Kept unicode world) (hslot : world.flight slot = none)
    (halone : ∀ k ∈ world.store.placements document, ∀ p, k.parent = some p →
      Alone world slot p) :
    Kept unicode (world.put slot (some (.erasing document (world.store.placements document)
      (world.store.placements document)))) := by
  have hplaces := fun k ↦ @mem_readPlaced world.store document h.wellFormed.rooted k
  have hown : ∀ p, (∃ k ∈ world.store.placements document, k.parent = some p) →
      Alone world slot p := fun p ⟨k, hk, hp⟩ ↦ halone k hk p hp
  refine h.moved ⟨fun _ _ ↦ rfl, fun _ _ _ _ _ ↦ rfl, fun _ _ _ _ ↦ rfl⟩ hown
    (fun activity hactivity ↦ ?_) h.wellFormed h.accepted h.coherent h.kinds h.blank h.chained
    (fun activity hactivity ↦ ?_)
    fun p hp hpopulated ↦ ⟨fun activity hactivity htouches ↦ ?_, fun huntouched ↦ ?_⟩
  · cases hslot.symm.trans hactivity
  · obtain rfl := Option.some.inj hactivity
    exact ⟨fun p hp ↦ hp, fun k hk ↦ hk, fun k hk ↦ ((hplaces k).mp hk).1, fun k p _ _ ↦ hplaces k⟩
  · obtain rfl := Option.some.inj hactivity
    intro k hk
    split
    next hplace => exact fun hnot ↦ absurd hplace hnot
    next =>
      apply h.settled p hpopulated (fun other activity hflight htouches ↦ ?_) k hk
      have hother : other ≠ slot := by
        rintro rfl
        cases hslot.symm.trans hflight
      exact hown p hp other activity hother hflight htouches
  · exact absurd hp (huntouched _ rfl)

theorem listing_of_children {should : List Entry} (h : store.children c = .ok should) :
    should = oldListing store c := by
  unfold Store.children at h
  split at h
  · exact (Except.ok.inj h).symm
  · cases h

theorem mem_oldListing (hw : WellFormed unicode store) :
    e ∈ oldListing store c ↔ entryMap store e.identifier = some e ∧
      e.identifier.parent = some c := by
  rw [oldListing, mem_readChildren, entryMap_eq_some]
  constructor
  · rintro ⟨r, hr, rfl, rfl⟩
    exact ⟨⟨r, hr, rfl, rfl⟩, hw.rooted.placed r hr⟩
  · rintro ⟨⟨r, hr, rfl, -⟩, hparent⟩
    exact ⟨r, hr, rfl, Option.some.inj ((hw.rooted.placed r hr).symm.trans hparent)⟩

theorem Kept.fetched {should : List Entry} (h : Kept unicode world)
    (hslot : world.flight slot = none) (hshould : world.store.children container = .ok should)
    (hblank : world.map.isPopulated container = false) (halone : Alone world slot container) :
    Kept unicode (world.put slot (some (.handing container should))) := by
  obtain rfl := listing_of_children hshould
  refine @Kept.moved unicode world world.store slot world.number (fun p ↦ p = container) world.map
    (some (.handing container (oldListing world.store container))) h
    ⟨fun _ _ ↦ rfl, fun _ _ _ _ _ ↦ rfl, fun _ _ _ _ ↦ rfl⟩ (fun p hp ↦ hp ▸ halone)
    (fun activity hactivity ↦ ?_) h.wellFormed h.accepted h.coherent h.kinds h.blank h.chained
    (fun activity hactivity ↦ ?_) fun p hp hpopulated ↦ ?_
  · cases hslot.symm.trans hactivity
  · obtain rfl := Option.some.inj hactivity
    exact ⟨fun p hp ↦ hp, hblank, identifiers_oldListing _ _, fun e ↦ mem_oldListing h.wellFormed⟩
  · cases hblank.symm.trans (hp ▸ hpopulated)

theorem Kept.planned (h : Kept unicode world)
    (hflight : world.flight slot = some (.waiting changes)) :
    Kept unicode ⟨world.store, world.map, number, Function.update world.flight slot
      (some (.running changes (Plan.plan process world.number world.map changes).1))⟩ := by
  have hcommitted : Committed world.store changes := h.fits slot _ hflight
  refine h.moved ⟨fun _ _ ↦ rfl, fun _ _ _ _ _ ↦ rfl, fun _ _ _ _ ↦ rfl⟩
    (fun p hp ↦ h.apart slot _ p hflight hp) (fun activity hactivity p hp ↦ ?_) h.wellFormed
    h.accepted h.coherent h.kinds h.blank h.chained (fun activity hactivity ↦ ?_)
    fun p hp hpopulated ↦ ⟨fun activity hactivity htouches ↦ ?_, fun huntouched ↦ ?_⟩
  · obtain rfl := Option.some.inj (hflight.symm.trans hactivity)
    exact hp
  · obtain rfl := Option.some.inj hactivity
    exact ⟨fun p hp ↦ hp, underway_of_plan hcommitted h.accepted h.kinds⟩
  · obtain rfl := Option.some.inj hactivity
    exact fun k hk ↦ leads_of_plan hcommitted h.accepted h.kinds
      (h.explains slot _ p hflight hp hpopulated) hpopulated hk
  · exact (huntouched _ rfl hp).elim

/-- An activity that leaves every entry it explains under its name is over. -/
theorem Kept.over (h : Kept unicode world) (hflight : world.flight slot = some activity)
    (hnamed : ∀ p, activity.Touches p → world.map.isPopulated p = true →
      activity.Explains world.map world.store p →
        ∀ k, k.parent = some p → Named world.map world.store k) :
    Kept unicode (world.put slot none) := by
  refine @Kept.moved unicode world world.store slot world.number (fun p ↦ activity.Touches p)
    world.map none h ⟨fun _ _ ↦ rfl, fun _ _ _ _ _ ↦ rfl, fun _ _ _ _ ↦ rfl⟩
    (fun p hp ↦ h.apart slot activity p hflight hp) (fun activity' hactivity p hp ↦ ?_) h.wellFormed
    h.accepted h.coherent h.kinds h.blank h.chained (fun activity' hactivity ↦ by cases hactivity)
    fun p hp hpopulated ↦ ⟨fun activity' hactivity ↦ (by cases hactivity), fun _ ↦ ?_⟩
  · obtain rfl := Option.some.inj (hflight.symm.trans hactivity)
    exact hp
  · exact hnamed p hp hpopulated (h.explains slot activity p hflight hp hpopulated)

theorem Kept.ran (h : Kept unicode world)
    (hflight : world.flight slot = some (.running changes (s :: rest))) :
    Kept unicode ⟨world.store, carriedOut world.map s, number,
      Function.update world.flight slot (some (.running changes rest))⟩ := by
  have hunderway : Underway world.map changes (s :: rest) := h.fits slot _ hflight
  obtain ⟨change, hmem, hid, q, hq⟩ := hunderway.from_ s List.mem_cons_self
  have hbelow : ∀ p, ¬ Touched changes p → ∀ i, s = .remove i → ¬ Below i p := by
    rintro p hnone i rfl hbelow
    obtain ⟨change, hmem, rfl, hafter⟩ := hunderway.removed i List.mem_cons_self
    exact hnone ⟨change, hmem, .inr ⟨hafter, hbelow⟩⟩
  refine h.moved ⟨fun p hp ↦ isPopulated_carriedOut (hbelow p hp), fun k p hk hp hpopulated ↦ ?_,
      fun _ _ _ _ ↦ rfl⟩ (fun p hp ↦ h.apart slot _ p hflight hp)
    (fun activity hactivity p hp ↦ ?_) h.wellFormed h.accepted (coherent_carriedOut h.coherent s)
    (kinds_carriedOut h.kinds fun e he ↦ ?_) (blank_carriedOut h.blank fun e he ↦ ?_)
    (chained_carriedOut h.chained) (fun activity hactivity ↦ ?_)
    fun p hp hpopulated ↦ ⟨fun activity hactivity htouches ↦ ?_, fun huntouched ↦ ?_⟩
  · apply (moved_carriedOut world.map s).2 k p hk hpopulated
    rintro rfl
    exact hp ⟨change, hmem, .inl (hid ▸ hk)⟩
  · obtain rfl := Option.some.inj (hflight.symm.trans hactivity)
    exact hp
  · exact (hunderway.created e (he ▸ List.mem_cons_self)).1
  · obtain ⟨-, p, hp, hmarked, -⟩ := hunderway.created e (he ▸ List.mem_cons_self)
    exact ⟨p, hp, hmarked⟩
  · obtain rfl := Option.some.inj hactivity
    refine ⟨fun p hp ↦ hp, fun s hs ↦ hunderway.from_ s (List.mem_cons_of_mem _ hs),
      fun i hi ↦ hunderway.removed i (List.mem_cons_of_mem _ hi), fun e he ↦ ?_⟩
    obtain ⟨hkind, p, hp, hmarked, hnot⟩ := hunderway.created e (List.mem_cons_of_mem _ he)
    refine ⟨hkind, p, hp, ?_, fun i hi ↦ hnot i (List.mem_cons_of_mem _ hi)⟩
    rw [isPopulated_carriedOut fun i hi ↦ hnot i (hi ▸ List.mem_cons_self), hmarked]
  · obtain rfl := Option.some.inj hactivity
    have hbefore := (moved_carriedOut world.map s).1 p hpopulated
    exact fun k hk ↦ leads_carriedOut h.coherent (h.chained p hbefore) hk hpopulated
      (h.explains slot _ p hflight hp hbefore k hk)
  · exact (huntouched _ rfl hp).elim

/-- What a document is found at is no container. -/
theorem not_below_of_placed (h : JournalRuns.placed document k) : ¬ Below k d := by
  rintro ⟨b, hb, -⟩
  cases k with
  | container c => cases h
  | document l d => cases hb
  | hint c n => cases h

theorem Kept.removed {places left : List EntryIdentifier} (h : Kept unicode world)
    (hflight : world.flight slot = some (.erasing document places (i :: left))) :
    Kept unicode ⟨world.store, carriedOut world.map (.remove i), number,
      Function.update world.flight slot (some (.erasing document places left))⟩ := by
  obtain ⟨hleft, hplaced, hplaces⟩ := h.fits slot _ hflight
  have hplace := hleft i List.mem_cons_self
  have hbelow : ∀ p j, Step.remove i = .remove j → ¬ Below j p := by
    intro p j hj
    obtain rfl := Step.remove.inj hj
    exact not_below_of_placed (hplaced i hplace)
  have hmoved := moved_carriedOut world.map (.remove i)
  refine h.moved ⟨fun p hp ↦ isPopulated_carriedOut (hbelow p), fun k p hk hp hpopulated ↦ ?_,
      fun _ _ _ _ ↦ rfl⟩ (fun p hp ↦ h.apart slot _ p hflight hp)
    (fun activity hactivity p hp ↦ ?_) h.wellFormed h.accepted (coherent_carriedOut h.coherent _)
    (kinds_carriedOut h.kinds fun e he ↦ by cases he)
    (blank_carriedOut h.blank fun e he ↦ by cases he)
    (chained_carriedOut h.chained) (fun activity hactivity ↦ ?_)
    fun p hp hpopulated ↦ ⟨fun activity hactivity htouches ↦ ?_, fun huntouched ↦ ?_⟩
  · apply hmoved.2 k p hk hpopulated
    rintro rfl
    exact hp ⟨_, hplace, hk⟩
  · obtain rfl := Option.some.inj (hflight.symm.trans hactivity)
    exact hp
  · obtain rfl := Option.some.inj hactivity
    exact ⟨fun p hp ↦ hp, fun k hk ↦ hleft k (List.mem_cons_of_mem _ hk), hplaced, hplaces⟩
  · obtain rfl := Option.some.inj hactivity
    have hbefore := hmoved.1 p hpopulated
    have hexplains := h.explains slot _ p hflight hp hbefore
    intro k hk
    have hexplains := hexplains k hk
    by_cases hsame : i = k
    · subst hsame
      rw [if_pos hplace]
      intro _
      by_cases hknown : world.map.location i = none
      · rcases carriedOut_cases world.map (.remove i) with heq | heq
        · rw [heq] at hpopulated ⊢
          rw [(moved_acted world.map _).location i p hk hpopulated, hknown]
          exact ite_self none
        · rw [heq, hknown]
      · have hrun := @runStep_ok world.map p (.remove i) h.coherent (h.chained p hbefore) hk
          (fun _ ↦ hknown) (by simp [nameGiven])
        have hacted : carriedOut world.map (.remove i) = acted world.map (.remove i) := by
          rw [carriedOut, hrun]
        rw [hacted] at hpopulated ⊢
        rw [(moved_acted world.map _).location i p hk hpopulated]
        exact if_pos rfl
    · have hlocation := hmoved.2 k p hk hpopulated hsame
      split
      next hin =>
        rw [if_pos hin] at hexplains
        intro hnot
        rw [hlocation]
        exact hexplains fun hmem ↦ (List.mem_cons.mp hmem).elim (fun heq ↦ hsame heq.symm) hnot
      next hin =>
        rw [if_neg hin] at hexplains
        exact (named_congr hlocation rfl).mpr hexplains
  · exact (huntouched _ rfl hp).elim

/-- What lies on the way up to a container is known, also after a listing is entered. -/
theorem chained_handOver {should : List Entry} (hchained : Chained map p)
    (hparent : ∀ e ∈ should, e.identifier.parent = some container)
    (honce : (should.map Entry.identifier).Nodup) :
    Chained (handOver map container should) p := by
  intro a ha
  refine (hchained a ha).imp_right fun hknown ↦ ?_
  obtain ⟨hfound, hmissing⟩ := location_entered map hparent honce (.container a)
  have hlocation : (handOver map container should).location (.container a) =
      (entered map should).location (.container a) := rfl
  rw [PathMap.knows_iff] at hknown ⊢
  rw [hlocation]
  by_cases hlisted : ∃ e ∈ should, e.identifier = .container a
  · obtain ⟨e, he, hid⟩ := hlisted
    rw [hfound e he hid]
    exact Option.some_ne_none _
  · rw [hmissing fun e he heq ↦ hlisted ⟨e, he, heq⟩]
    exact hknown

theorem Kept.handed {should : List Entry} (h : Kept unicode world)
    (hflight : world.flight slot = some (.handing container should))
    (hchained : Chained world.map container) :
    Kept unicode ⟨world.store, handOver world.map container should, number,
      Function.update world.flight slot none⟩ := by
  obtain ⟨hunmarked, honce, hmem⟩ := h.fits slot _ hflight
  have hparent : ∀ e ∈ should, e.identifier.parent = some container :=
    fun e he ↦ ((hmem e).mp he).2
  have hmarks : ∀ p, (handOver world.map container should).isPopulated p =
      (p = container || world.map.isPopulated p) := isPopulated_handOver should world.map
  have hentered := fun k ↦ location_entered world.map hparent honce k
  have hlocation : ∀ k, (handOver world.map container should).location k =
      (entered world.map should).location k := fun _ ↦ rfl
  have hcases : ∀ k, (∃ e ∈ should, e.identifier = k ∧ (handOver world.map container should).location
      k = some ⟨container, e.name, e.isFolder⟩) ∨ ((∀ e ∈ should, e.identifier ≠ k) ∧
        (handOver world.map container should).location k = world.map.location k) := by
    intro k
    by_cases hk : ∃ e ∈ should, e.identifier = k
    · obtain ⟨e, he, hid⟩ := hk
      exact .inl ⟨e, he, hid, (hentered k).1 e he hid⟩
    · have hnone : ∀ e ∈ should, e.identifier ≠ k := fun e he heq ↦ hk ⟨e, he, heq⟩
      exact .inr ⟨hnone, (hentered k).2 hnone⟩
  have hblank : Blank (handOver world.map container should) := by
    intro k p hp hpopulated
    rw [hmarks, Bool.or_eq_false_iff, decide_eq_false_iff_not] at hpopulated
    rcases hcases k with ⟨e, he, rfl, -⟩ | ⟨-, hsame⟩
    · exact absurd (Option.some.inj (hp.symm.trans (hparent e he))) hpopulated.1
    · rw [hsame]
      exact h.blank k p hp hpopulated.2
  refine @Kept.moved unicode world world.store slot number (fun p ↦ p = container) _ none h
    ⟨fun p hp ↦ ?_, fun k p hk hp _ ↦ ?_, fun _ _ _ _ ↦ rfl⟩
    (fun p hp ↦ h.apart slot _ p hflight hp) (fun activity hactivity p hp ↦ ?_) h.wellFormed
    h.accepted (fun k l hl ↦ ?_) (fun k l hl ↦ ?_) hblank (fun p hpopulated ↦ ?_)
    (fun activity hactivity ↦ by cases hactivity)
    fun p hp hpopulated ↦ ⟨fun activity hactivity ↦ (by cases hactivity), fun _ k hk ↦ ?_⟩
  · rw [hmarks, decide_eq_false hp, Bool.false_or]
  · rcases hcases k with ⟨e, he, rfl, -⟩ | ⟨-, hsame⟩
    · exact absurd (Option.some.inj (hk.symm.trans (hparent e he))) hp
    · exact hsame
  · obtain rfl := Option.some.inj (hflight.symm.trans hactivity)
    exact hp
  · rcases hcases k with ⟨e, he, rfl, hfound⟩ | ⟨-, hsame⟩
    · obtain rfl := Option.some.inj (hfound.symm.trans hl)
      exact hparent e he
    · exact h.coherent k l (hsame.symm.trans hl)
  · rcases hcases k with ⟨e, he, rfl, hfound⟩ | ⟨-, hsame⟩
    · obtain rfl := Option.some.inj (hfound.symm.trans hl)
      obtain ⟨r, hr, rfl, -⟩ := entryMap_eq_some.mp ((hmem e).mp he).1
      exact (h.accepted r hr).2
    · exact h.kinds k l (hsame.symm.trans hl)
  · apply chained_handOver _ hparent honce
    rw [hmarks, Bool.or_eq_true, decide_eq_true_eq] at hpopulated
    rcases hpopulated with rfl | hpopulated
    · exact hchained
    · exact h.chained p hpopulated
  · subst hp
    rw [Named]
    rcases hcases k with ⟨e, he, rfl, hfound⟩ | ⟨hnone, hsame⟩
    · rw [hfound, ((hmem e).mp he).1]
      rfl
    · rw [hsame, h.blank k p hk hunmarked]
      cases hentry : entryMap world.store k with
      | none => rfl
      | some e =>
        obtain ⟨r, hr, rfl, rfl⟩ := entryMap_eq_some.mp hentry
        exact absurd rfl (hnone _ ((hmem _).mpr ⟨hentry, hk⟩))

theorem nodup_readPlaced (store : Store) (document : DocumentIdentifier) :
    ((store.readPlaced document).map Entry.identifier).Nodup := by
  have hperm := (List.perm_insertionSort (fun r r' : EntryRow ↦
    r.entry.identifier ≤ r'.entry.identifier)
      (store.entry.select (·.document = some document))).map (·.entry.identifier)
  rw [Store.readPlaced, List.map_map]
  exact hperm.nodup_iff.mpr (store.entry.nodup.sublist (List.filter_sublist.map _))

theorem Kept.erased {places : List EntryIdentifier} (h : Kept unicode world)
    (hflight : world.flight slot = some (.erasing document places []))
    (hresult : world.store.removeDocumentEverywhere document now = .ok (journal, store'))
    (halone : ∀ p, Touched (journal.map JournalEntry.change) p → Alone world slot p) :
    Kept unicode ({ world with store := store' }.put slot
      (some (.waiting (journal.map JournalEntry.change)))) := by
  have hw : WellFormed unicode store' := by
    have hw := wellFormed_perform h.wellFormed (.removeDocumentEverywhere document now)
    simp only [Runs.perform, Runs.outcome, Runs.committed, hresult] at hw
    exact hw
  obtain ⟨hplaced, hplaces⟩ := (h.fits slot _ hflight).2
  obtain ⟨hjournal, hframe, -⟩ := removeDocumentEverywhere_eq_ok hresult
  have hmap := entryMap_erased h.wellFormed.rooted (congrArg Store.entry hframe)
  have hchanges : journal.map JournalEntry.change =
      (world.store.readPlaced document).map Change.removed := by
    rw [hjournal, map_change_numbered]
  have hids : (journal.map JournalEntry.change).map Change.identifier =
      (world.store.readPlaced document).map Entry.identifier := by
    rw [hchanges, List.map_map]
    rfl
  have hoffered : ∀ k, offered (journal.map JournalEntry.change) k = true ↔
      JournalRuns.placed document k ∧ entryMap world.store k ≠ none := by
    intro k
    rw [← mem_readPlaced h.wellFormed.rooted k, ← hids, offered_iff, List.mem_map]
  have hremoved : ∀ change ∈ journal.map JournalEntry.change, change.after = none ∧
      JournalRuns.placed document change.identifier ∧
        entryMap world.store change.identifier ≠ none := by
    intro change hmem
    refine ⟨?_, (hoffered _).mp (offered_iff.mpr ⟨change, hmem, rfl⟩)⟩
    rw [hchanges] at hmem
    obtain ⟨e, -, rfl⟩ := List.mem_map.mp hmem
    rfl
  refine h.committed (fun activity hactivity p htouches ↦ ?_) halone hw (fun r hr ↦ ?_)
    (fun k hk ↦ ?_) ⟨?_, fun change hmem ↦ ?_, fun change hmem ↦ ?_, .root,
      fun change hmem e hafter ↦ ?_, fun change hmem ↦ ?_⟩
  · obtain rfl := Option.some.inj (hflight.symm.trans hactivity)
    have hlisted : ∀ k ∈ places, ∀ p, k.parent = some p →
        offered (journal.map JournalEntry.change) k = true :=
      fun k hk p hp ↦ (hoffered k).mpr ((hplaces k p hp ⟨k, hk, hp⟩).mp hk)
    obtain ⟨k, hk, hp⟩ := htouches
    obtain ⟨change, hmem, rfl⟩ := offered_iff.mp (hlisted k hk p hp)
    refine ⟨⟨change, hmem, .inl hp⟩, fun hpopulated k hkp hnone ↦ ?_⟩
    have hexplains := h.explains slot _ p hflight ⟨_, hk, hp⟩ hpopulated k hkp
    split at hexplains
    next hin => cases hnone.symm.trans (hlisted k hin p hkp)
    next => exact hexplains
  · rw [congrArg Store.entry hframe] at hr
    exact h.accepted r ((Library.Tables.Table.mem_deleteWhere _).mp hr).1
  · rw [hmap]
    dsimp only
    split
    next hplace =>
      by_contra hne
      cases hk.symm.trans ((hoffered k).mpr ⟨hplace, fun hnone ↦ hne hnone.symm⟩)
    next => rfl
  · rw [hids]
    exact nodup_readPlaced world.store document
  · obtain ⟨hafter, hplace, -⟩ := hremoved change hmem
    rw [hmap, hafter]
    exact if_pos hplace
  · obtain ⟨r, hr, hid⟩ := entryMap_ne_none.mp (hremoved change hmem).2.2
    exact ⟨r.parent, hid ▸ h.wellFormed.rooted.placed r hr⟩
  · cases (hremoved change hmem).1.symm.trans hafter
  · exact not_below_of_placed (hremoved change hmem).2.1

theorem Kept.proceeded (h : Kept unicode world) (hflight : world.flight slot = some activity)
    (hclear : Clear unicode world (.proceed slot now)) :
    Kept unicode (FlightRuns.proceeded unicode process world slot now activity) := by
  rw [Clear, hflight] at hclear
  cases activity with
  | waiting changes => exact h.planned hflight
  | running changes steps =>
    cases steps with
    | nil => exact h.over hflight fun p _ _ hexplains k hk ↦ hexplains k hk
    | cons s rest => exact h.ran hflight
  | handing container should =>
    rw [FlightRuns.proceeded]
    split
    · exact h.over hflight fun p _ _ hexplains ↦ hexplains.elim
    · exact h.handed hflight hclear
  | erasing document places left =>
    cases left with
    | cons i left => exact h.removed hflight
    | nil =>
      obtain ⟨journal, store, hresult, halone⟩ := hclear
      rw [FlightRuns.proceeded, hresult]
      exact h.erased hflight hresult halone

theorem Kept.step (h : Kept unicode world) {event : Event} (hclear : Clear unicode world event) :
    Kept unicode (step unicode process world event) := by
  cases event with
  | reconcile slot container new state =>
    obtain ⟨hcheck, halone⟩ := hclear
    rw [FlightRuns.step]
    split
    · exact h
    next hslot =>
      cases hresult : world.store.replaceContainer unicode container new state with
      | error e => exact h
      | ok result =>
        have hslot := Option.not_isSome_iff_eq_none.mp hslot
        exact h.reconciled hslot hcheck hresult (halone _ _ hresult)
  | erase slot document =>
    rw [FlightRuns.step]
    split
    · exact h
    next hslot => exact h.erasing (Option.not_isSome_iff_eq_none.mp hslot) hclear
  | fetch slot container =>
    rw [FlightRuns.step]
    split
    · exact h
    next hslot =>
      cases hshould : world.store.children container with
      | error e => exact h
      | ok should =>
        exact h.fetched (Option.not_isSome_iff_eq_none.mp hslot) hshould hclear.1 hclear.2
  | proceed slot now =>
    rw [FlightRuns.step]
    cases hflight : world.flight slot with
    | none => exact h
    | some activity => exact h.proceeded hflight hclear
  | abort slot =>
    rw [FlightRuns.step]
    split
    next container should hflight =>
      exact h.over hflight fun p _ _ hexplains ↦ hexplains.elim
    next => exact h

end Events

section Runs

def run (unicode : Unicode) (process : ℕ) (world : World) (events : List Event) : World :=
  events.foldl (step unicode process) world

/-- Every event of a run meets its condition where it comes. -/
def AllClear (unicode : Unicode) (process : ℕ) (world : World) (events : List Event) : Prop :=
  ∀ before event after, events = before ++ event :: after →
    Clear unicode (run unicode process world before) event

/-- In every populated container the map holds what the store lists there. -/
def Settled (world : World) : Prop :=
  ∀ c, world.map.isPopulated c = true → children world.map c = listing (oldListing world.store c)

variable {events : List Event}

theorem Kept.run (h : Kept unicode world) (hclear : AllClear unicode process world events) :
    Kept unicode (run unicode process world events) := by
  induction events generalizing world with
  | nil => exact h
  | cons event events ih =>
    apply ih (h.step (hclear [] event events rfl))
    intro before later after hsplit
    exact hclear (event :: before) later after (by rw [hsplit]; rfl)

theorem Kept.children (h : Kept unicode world) (hidle : ∀ slot, world.flight slot = none) :
    Settled world := by
  intro c hpopulated
  have hnamed : ∀ k, k.parent = some c → Named world.map world.store k := by
    apply h.settled c hpopulated
    intro slot activity hflight
    cases (hidle slot).symm.trans hflight
  ext ⟨k, name⟩
  constructor
  · rintro ⟨l, hl, rfl, rfl⟩
    have hk := h.coherent k l hl
    have hname := hnamed k hk
    rw [Named, hl, Option.map_some] at hname
    obtain ⟨e, he, hsame⟩ := Option.map_eq_some_iff.mp hname.symm
    obtain ⟨r, hr, rfl, hid⟩ := entryMap_eq_some.mp he
    refine ⟨r.entry, (mem_oldListing h.wellFormed).mpr ⟨hid ▸ he, hid ▸ hk⟩, ?_⟩
    exact Prod.ext hid hsame
  · rintro ⟨e, he, heq⟩
    obtain ⟨rfl, rfl⟩ := Prod.mk.inj heq
    obtain ⟨hentry, hparent⟩ := (mem_oldListing h.wellFormed).mp he
    have hname := hnamed _ hparent
    rw [Named, hentry, Option.map_some] at hname
    obtain ⟨l, hl, hsame⟩ := Option.map_eq_some_iff.mp hname
    exact ⟨l, hl, Option.some.inj ((h.coherent _ l hl).symm.trans hparent), hsame⟩

/-- Where what runs side by side touches different containers, every populated container is settled
as soon as nothing is in flight. -/
theorem settled_of_allClear (unicode : Unicode) (process n limit number : ℕ) (events : List Event)
    (hclear : AllClear unicode process (start n limit number) events) :
    ∀ before, before <+: events →
      (∀ slot, (run unicode process (start n limit number) before).flight slot = none) →
        Settled (run unicode process (start n limit number) before) := by
  rintro before ⟨after, rfl⟩ hidle
  refine Kept.children (Kept.run (kept_start unicode n limit number) ?_) hidle
  intro first event rest hsplit
  exact hclear first event (rest ++ after) (by rw [hsplit, List.append_assoc]; rfl)

theorem allClear_nil (unicode : Unicode) (process : ℕ) (world : World) :
    AllClear unicode process world [] := by
  intro before event after hsplit
  cases before <;> cases hsplit

theorem allClear_cons {event : Event} (h : Clear unicode world event)
    (hrest : AllClear unicode process (step unicode process world event) events) :
    AllClear unicode process world (event :: events) := by
  intro before later after hsplit
  cases before with
  | nil =>
    obtain ⟨rfl, rfl⟩ := List.cons.inj hsplit
    exact h
  | cons first before =>
    obtain ⟨rfl, rfl⟩ := List.cons.inj hsplit
    exact hrest before later after rfl

def archivesListed : Event :=
  .reconcile 0 .root [⟨.container .archives, "Archive", .folder⟩] ⟨none, .null, none⟩

/-- While the root is handed over to Windows, the listing of the archives changes. -/
def apart : List Event :=
  [archivesListed, .proceed 0 .null, .proceed 0 .null, .fetch 0 .root,
    .reconcile 1 .archives [north "Nord"] ⟨none, .null, none⟩, .proceed 1 .null,
    .proceed 0 .null, .proceed 1 .null]

theorem allClear_apart : AllClear plainUnicode 7 (start 0 10 1) apart := by
  have hidle : ∀ world : World, (∀ slot, world.flight slot = none) → ∀ slot p,
      Alone world slot p := by
    intro world hidle slot p other activity _ hflight
    cases (hidle other).symm.trans hflight
  refine allClear_cons ⟨by rfl, fun _ _ _ _ _ ↦ hidle _ (fun _ ↦ rfl) _ _⟩
    (allClear_cons trivial (allClear_cons trivial (allClear_cons ⟨rfl, hidle _ ?_ _ _⟩
    (allClear_cons ⟨by rfl, ?_⟩ (allClear_cons trivial (allClear_cons ?_
    (allClear_cons trivial (allClear_nil _ _ _))))))))
  · intro slot
    match slot with
    | 0 => rfl
    | slot + 1 => rfl
  · intro journal store hresult p htouched
    have hchanges : (Store.replaceContainer plainUnicode
        (run plainUnicode 7 (start 0 10 1) (apart.take 4)).store .archives [north "Nord"]
          ⟨none, .null, none⟩).map (fun r ↦ r.1.map JournalEntry.change) =
            .ok [.new (north "Nord")] := by rfl
    have hjournal : journal.map JournalEntry.change = [.new (north "Nord")] :=
      Except.ok.inj ((congrArg (Except.map _) hresult).symm.trans hchanges)
    rw [hjournal] at htouched
    obtain ⟨change, hmem, htouched⟩ := htouched
    obtain rfl := List.mem_singleton.mp hmem
    have hp : p = .archives := by
      rcases htouched with hparent | ⟨hafter, -⟩
      · exact (Option.some.inj hparent).symm
      · cases hafter
    subst hp
    intro other activity hother hflight htouches
    match other with
    | 0 =>
      obtain rfl := Option.some.inj hflight
      cases htouches
    | other + 1 => cases hflight
  · intro a ha
    exact .inl (List.mem_singleton.mp ha)

/-- Between the reading of the listing and its hand-over, the folder goes. -/
def overtaken : List Event :=
  [archivesListed, .proceed 0 .null, .proceed 0 .null, .fetch 0 .root,
    .reconcile 1 .root [] ⟨none, .null, none⟩, .proceed 1 .null, .proceed 1 .null, .proceed 0 .null]

theorem idle_overtaken (slot : ℕ) :
    (run plainUnicode 7 (start 0 10 1) overtaken).flight slot = none := by
  match slot with
  | 0 => rfl
  | 1 => rfl
  | slot + 2 => rfl

/-- The folder stays for good in a container that Windows does not ask for again. -/
theorem overtaken_not_settled : ¬ ∀ (unicode : Unicode) (process n limit number : ℕ)
    (events : List Event),
      (∀ slot, (run unicode process (start n limit number) events).flight slot = none) →
        Settled (run unicode process (start n limit number) events) := by
  intro h
  have hsettled := h plainUnicode 7 0 10 1 overtaken idle_overtaken .root rfl
  have hstands : (EntryIdentifier.container .archives, "Archive") ∈
      children (run plainUnicode 7 (start 0 10 1) overtaken).map .root :=
    ⟨⟨.root, "Archive", true⟩, by decide +kernel, rfl, rfl⟩
  rw [hsettled] at hstands
  obtain ⟨e, he, -⟩ := hstands
  cases he

theorem settled_apart : Settled (run plainUnicode 7 (start 0 10 1) apart) := by
  apply settled_of_allClear plainUnicode 7 0 10 1 apart allClear_apart apart (List.prefix_refl _)
  intro slot
  match slot with
  | 0 => rfl
  | 1 => rfl
  | slot + 2 => rfl

end Runs

end FolderClient.Cfapi.FlightRuns
