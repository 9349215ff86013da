import FolderClient.Engine.AuthenticRuns
import FolderClient.Engine.ErasureRuns
import FolderClient.Engine.Turns

namespace FolderClient.Engine.ReleaseRuns

open FolderClient.Core.Delivery FolderClient.Core.Namespace
open FolderClient.Engine.AuthenticRuns (Idle asks_acknowledge asks_chosenWait asks_complete
  asks_emptyOutbox asks_fetchDeviceToken asks_fetchPage idle_of_polls)
open FolderClient.Engine.Channel
open FolderClient.Engine.Commands FolderClient.Engine.Effects
open FolderClient.Engine.ErasureRuns (Applied Ordered)
open FolderClient.Engine.Orderly FolderClient.Engine.Port FolderClient.Engine.Reconcile
open FolderClient.Engine.Session FolderClient.Engine.System FolderClient.Engine.Turns
open FolderClient.Library.Json FolderClient.Library.Pools FolderClient.Library.Programs
open FolderClient.Library.Programs.Program FolderClient.Library.Programs.Contract
open FolderClient.Library.Tables FolderClient.Storage.Basic FolderClient.Storage.Delivery
open FolderClient.Storage.Effects FolderClient.Storage.Tree FolderClient.Storage.TreeRuns
open FolderClient.Wire.Delivery

/-- For the command the platform released the entry and removed it, or answered that it is not
there. -/
def Freed (w : World) (command : CommandIdentifier) (e : EntryIdentifier) : Prop :=
  (command, .absent e) ∈ w.history.released ∨
    (command, .dehydrated e) ∈ w.history.released ∧ (command, .removed e) ∈ w.history.released

instance (w : World) (command : CommandIdentifier) (e : EntryIdentifier) :
    Decidable (Freed w command e) := inferInstanceAs (Decidable (_ ∨ _))

def Standing (e : EntryIdentifier) (s : Store) : Prop := s.entry.contains e = true

instance (e : EntryIdentifier) (s : Store) : Decidable (Standing e s) :=
  inferInstanceAs (Decidable (_ = _))

def Erases (f : FirstRun) : Prop := ∃ documents, f.order = .dehydrate documents .erasure

/-- The command was run, and where it ordered an erasure, the platform has let go every place its
documents had when it was first run. -/
def Carried (command : CommandIdentifier) (w : World) : Prop :=
  (∃ f ∈ w.history.firstRuns, f.command = command) ∧
    ∀ f ∈ w.history.firstRuns, f.command = command → Erases f →
      ∀ e ∈ f.places, Freed w command e

/-- What the platform has answered in the attempt at a command: whether it has a file system, and
which entries it did not let go. -/
structure Attempt where
  fileSystem : Option Bool := none
  refused : List EntryIdentifier := []

/-- An order that the platform does not carry out on an entry which is there. -/
def refusal (e : EntryIdentifier) : Except PlatformError Unit → List EntryIdentifier
  | .ok _ | .error (.notFound _) => []
  | .error _ => [e]

def noted : (r : Request) → Answer r → Attempt → Attempt
  | .command (.runBegins _ _), _, _ => {}
  | .command (.reconcile (.session .fileSystem)), b, attempt =>
    { attempt with fileSystem := attempt.fileSystem.or (some b) }
  | .command (.platformState e), a, attempt =>
    { attempt with refused := attempt.refused ++ if (stateAt a).isNone then [e] else [] }
  | .command (.platformDehydrate e _), a, attempt =>
    { attempt with refused := attempt.refused ++ refusal e a }
  | .command (.platformRemove e), a, attempt =>
    { attempt with refused := attempt.refused ++ refusal e a }
  | _, _, attempt => attempt

def note (i : ℕ) (r : Request) (a : Answer r) (_ : World) (attempt : Attempt) : Attempt :=
  if i = 0 then noted r a attempt else attempt

/-- The request takes the entry out of the namespace. -/
def Takes (setting : Setting) (r : Request) (w : World) (e : EntryIdentifier) : Prop :=
  Standing e w.store ∧ ∃ s, effect setting r w.store = .ok s ∧ ¬ Standing e s

/-- The removal of a document by an attempt that had a file system, which did not refuse the
entry. -/
def Asked (command : CommandIdentifier) (e : EntryIdentifier) :
    Request → World × Attempt → Prop
  | .command (.removeDocumentEverywhere _ _), s =>
    s.1.history.running = some command ∧ s.2.fileSystem = some true ∧ e ∉ s.2.refused
  | _, _ => False

/-- A place of an erasure that the platform has not let go leaves the namespace only with an
attempt of this erasure that the platform did not refuse; and an identifier stands for one
command. -/
def Careful (setting : Setting) (r : Request) (s : World × Attempt) : Prop :=
  (∀ f ∈ s.1.history.firstRuns, Erases f → ∀ e ∈ f.places, ¬ Freed s.1 f.command e →
    Takes setting r s.1 e → Asked f.command e r s) ∧
  ∀ command order, r = .command (.runBegins command order) →
    ∀ f ∈ s.1.history.firstRuns, f.command = command → f.order = order

def releasing (setting : Setting) (fails : Prop) : Rules Request Answer (World × Attempt) :=
  (rules setting fails {}).beside note (fun _ _ ↦ False) fun _ r s ↦ Careful setting r s

def FreshAttempt (setting : Setting) (s : World × Attempt) : Prop :=
  Fresh setting s.1 ∧ s.2 = {}

/-- The runs of the engine in which every step is careful, the answers of the platform kept
beside it. -/
def CarefulRuns (setting : Setting) (fails : Prop) (c : Pool Request Answer (World × Attempt)) :
    Prop :=
  (releasing setting fails).Run (FreshAttempt setting) c

theorem runs_of_careful {setting : Setting} {fails : Prop}
    {c : Pool Request Answer (World × Attempt)} (h : CarefulRuns setting fails c) :
    Runs setting fails {} ⟨c.state.1, c.running⟩ :=
  Rules.run_of_beside (fun _ hf ↦ hf.1) h

/-- Every place of the document that an erasure found and the platform did not refuse in the
attempt at it, the platform has let go. -/
def Tried (document : DocumentIdentifier) (s : World × Attempt) : Prop :=
  s.2.fileSystem = some true → ∀ f ∈ s.1.history.firstRuns, Erases f →
    s.1.history.running = some f.command → ∀ e ∈ f.places, e.document? = some document →
      e ∉ s.2.refused → Freed s.1 f.command e

def InOrder : ℕ → Request → World × Attempt → Prop
  | 0, .command (.removeDocumentEverywhere document _), s => Tried document s
  | 0, .setOutcome command outcome, s => outcome = .applied → Carried command s.1
  | 0, _, _ => True
  | _ + 1, r, _ => Common r

/-- A place that an erasure found is of one of its documents, and stands in the namespace until
the platform has let it go; and what is recorded as applied was carried out. -/
structure Upheld (setting : Setting) (w : World) : Prop where
  wellFormed : WellFormed setting.unicode w.store
  named : ∀ f ∈ w.history.firstRuns, ∀ documents, f.order = .dehydrate documents .erasure →
    ∀ e ∈ f.places, ∃ d ∈ documents, e.document? = some d
  stands : ∀ f ∈ w.history.firstRuns, Erases f → ∀ e ∈ f.places,
    Freed w f.command e ∨ Standing e w.store
  applied : ∀ command, Applied command w → Carried command w

/-- What an attempt at a command has behind it stays as the attempt goes on. -/
structure Advances (s s' : World × Attempt) : Prop where
  released : s.1.history.released ⊆ s'.1.history.released
  running : s'.1.history.running = s.1.history.running
  firstRuns : s'.1.history.firstRuns = s.1.history.firstRuns
  refused : s.2.refused ⊆ s'.2.refused
  fileSystem : ∀ b, s.2.fileSystem = some b → s'.2.fileSystem = some b

theorem Advances.refl (s : World × Attempt) : Advances s s :=
  ⟨List.Subset.refl _, rfl, rfl, List.Subset.refl _, fun _ h ↦ h⟩

theorem Advances.trans {s s' s'' : World × Attempt} (h : Advances s s') (h' : Advances s' s'') :
    Advances s s'' where
  released := List.Subset.trans h.released h'.released
  running := h'.running.trans h.running
  firstRuns := h'.firstRuns.trans h.firstRuns
  refused := List.Subset.trans h.refused h'.refused
  fileSystem b hb := h'.fileSystem b (h.fileSystem b hb)

theorem Freed.mono {w w' : World} {command : CommandIdentifier} {e : EntryIdentifier}
    (h : w.history.released ⊆ w'.history.released) (hf : Freed w command e) :
    Freed w' command e :=
  hf.imp (fun ha ↦ h ha) fun hf ↦ ⟨h hf.1, h hf.2⟩

theorem Carried.mono {w w' : World} {command : CommandIdentifier}
    (h : w.history.released ⊆ w'.history.released)
    (hruns : w'.history.firstRuns = w.history.firstRuns) (hc : Carried command w) :
    Carried command w' := by
  rw [Carried, hruns]
  exact ⟨hc.1, fun f hf he herases e hm ↦ (hc.2 f hf he herases e hm).mono h⟩

section Served

variable {setting : Setting} {fails : Prop} {i : ℕ} {w w' : World} {r : Request} {a : Answer r}

theorem mem_placements {s : Store} (ht : Rooted s) {document : DocumentIdentifier}
    {e : EntryIdentifier} :
    e ∈ s.placements document ↔ e.document? = some document ∧ Standing e s := by
  rw [Standing, Table.contains_iff]
  simp only [Store.placements, Store.readPlaced, List.map_map, List.mem_map,
    List.mem_insertionSort, Table.mem_select, decide_eq_true_eq, Function.comp_apply]
  constructor
  · rintro ⟨r, ⟨hr, hd⟩, rfl⟩
    exact ⟨(ht.document r hr).symm.trans hd, r, hr, rfl⟩
  · rintro ⟨hd, r, hr, rfl⟩
    exact ⟨r, ⟨hr, (ht.document r hr).trans hd⟩, rfl⟩

theorem mem_placesOf {s : Store} (ht : Rooted s) {documents : List DocumentIdentifier}
    {reason : Reason} {e : EntryIdentifier} (h : e ∈ placesOf s (.dehydrate documents reason)) :
    (∃ d ∈ documents, e.document? = some d) ∧ Standing e s := by
  obtain ⟨d, hd, hm⟩ := List.mem_flatMap.mp h
  obtain ⟨hdocument, hstanding⟩ := (mem_placements ht).mp hm
  exact ⟨⟨d, hd, hdocument⟩, hstanding⟩

/-- What the platform has let go is never forgotten. -/
theorem released_serve (h : serve setting fails i r w a w') :
    w.history.released ⊆ w'.history.released := by
  obtain hh | hh := history_serve h
  · rw [hh]
    exact List.Subset.refl _
  rw [hh]
  cases r with
  | command r =>
    cases r with
    | reconcile r => exact hh ▸ (@sameCommands_serveReconcile setting fails i w w' r a h).2.2.2.2 ▸
        List.Subset.refl _
    | platformState | platformDehydrate | platformRemove => exact List.subset_append_left _ _
    | runBegins command order =>
      change _ ⊆ (History.runBegins _ _ _ _).released
      unfold History.runBegins
      split <;> exact List.Subset.refl _
    | _ => exact List.Subset.refl _
  | source r =>
    cases r with
    | children container => cases a <;> exact List.Subset.refl _
    | _ => exact List.Subset.refl _
  | _ => exact List.Subset.refl _

theorem running_serve (hr : ∀ command order, r ≠ .command (.runBegins command order))
    (h : serve setting fails i r w a w') : w'.history.running = w.history.running := by
  obtain hh | hh := history_serve h
  · rw [hh]
  rw [hh]
  cases r with
  | command r =>
    cases r with
    | reconcile r => exact hh ▸ (@sameCommands_serveReconcile setting fails i w w' r a h).2.2.2.1
    | runBegins command order => exact absurd rfl (hr command order)
    | _ => rfl
  | source r =>
    cases r with
    | children container => cases a <;> rfl
    | _ => rfl
  | _ => rfl

theorem firstRuns_of_ne (hr : ∀ command order, r ≠ .command (.runBegins command order))
    (h : serve setting fails i r w a w') : w'.history.firstRuns = w.history.firstRuns := by
  obtain hruns | ⟨command, order, rfl, -⟩ := firstRuns_serve h
  · exact hruns
  · exact absurd rfl (hr command order)

theorem note_grows (hr : ∀ command order, r ≠ .command (.runBegins command order)) (i : ℕ)
    (a : Answer r) (w : World) (attempt : Attempt) :
    attempt.refused ⊆ (note i r a w attempt).refused ∧
      ∀ b, attempt.fileSystem = some b → (note i r a w attempt).fileSystem = some b := by
  unfold note
  split
  · unfold noted
    split
    · exact absurd rfl (hr _ _)
    · refine ⟨List.Subset.refl _, fun b hb ↦ ?_⟩
      simp [hb]
    · exact ⟨List.subset_append_left _ _, fun _ h ↦ h⟩
    · exact ⟨List.subset_append_left _ _, fun _ h ↦ h⟩
    · exact ⟨List.subset_append_left _ _, fun _ h ↦ h⟩
    · exact ⟨List.Subset.refl _, fun _ h ↦ h⟩
  · exact ⟨List.Subset.refl _, fun _ h ↦ h⟩

theorem advances_serve (hr : ∀ command order, r ≠ .command (.runBegins command order))
    (h : serve setting fails i r w a w') (attempt : Attempt) :
    Advances (w, attempt) (w', note i r a w attempt) where
  released := released_serve h
  running := running_serve hr h
  firstRuns := firstRuns_of_ne hr h
  refused := (note_grows hr i a w attempt).1
  fileSystem := (note_grows hr i a w attempt).2

theorem ne_runBegins_of_common (h : Common r) (command : CommandIdentifier) (order : Command) :
    r ≠ .command (.runBegins command order) :=
  fun hr ↦ (hr ▸ h : Common (.command (.runBegins command order)))

theorem carried_serve (h : serve setting fails i r w a w') {command : CommandIdentifier}
    (hc : Carried command w) : Carried command w' := by
  obtain hruns | ⟨other, order, -, hnew, hruns⟩ := firstRuns_serve h
  · exact hc.mono (released_serve h) hruns
  obtain ⟨⟨g, hg, hgc⟩, hfreed⟩ := hc
  rw [Carried, hruns]
  refine ⟨⟨g, List.mem_append_left _ hg, hgc⟩, fun f hf he herases e hm ↦ ?_⟩
  obtain hf | hf := List.mem_append.mp hf
  · exact (hfreed f hf he herases e hm).mono (released_serve h)
  · obtain rfl := List.mem_singleton.mp hf
    exact absurd (hgc.trans he.symm) (hnew g hg)

/-- The removal of a document takes its places and no others. -/
theorem standing_removed {s s' : Store} (ht : Rooted s) {document : DocumentIdentifier}
    {now : Timestamp} {out : List Core.Changes.JournalEntry}
    (h : s.removeDocumentEverywhere document now = .ok (out, s')) (e : EntryIdentifier) :
    Standing e s' ↔ Standing e s ∧ e.document? ≠ some document := by
  rw [Standing, (removeDocumentEverywhere_eq_ok h).2.1, Standing, Table.contains_iff,
    Table.contains_iff]
  simp only [Table.mem_deleteWhere, decide_eq_false_iff_not]
  constructor
  · rintro ⟨r, ⟨hr, hne⟩, rfl⟩
    exact ⟨⟨r, hr, rfl⟩, fun hd ↦ hne ((ht.document r hr).trans hd)⟩
  · rintro ⟨⟨r, hr, rfl⟩, hne⟩
    exact ⟨r, ⟨hr, fun hd ↦ hne ((ht.document r hr).symm.trans hd)⟩, rfl⟩

theorem store_runBegins {command : CommandIdentifier} {order : Command}
    {a : Answer (.command (.runBegins command order))}
    (h : serve setting fails i (.command (.runBegins command order)) w a w') :
    w'.store = w.store := by
  obtain rfl : w' = w.noting _ := h
  rfl

/-- No place that is still owed leaves the namespace. -/
theorem stands_serve {attempt : Attempt} (hw : Upheld setting w)
    (hok : InOrder i r (w, attempt)) (hc : Careful setting r (w, attempt))
    (h : serve setting fails i r w a w') {f : FirstRun} (hf : f ∈ w.history.firstRuns)
    (he : Erases f) {e : EntryIdentifier} (hm : e ∈ f.places) :
    Freed w f.command e ∨ Standing e w'.store := by
  by_cases hfreed : Freed w f.command e
  · exact .inl hfreed
  have hstanding := (hw.stands f hf he e hm).resolve_left hfreed
  obtain hs | hs := store_serve h
  · rw [hs]
    exact .inr hstanding
  by_contra hlost
  have htakes : Takes setting r w e := ⟨hstanding, w'.store, hs, fun h ↦ hlost (.inr h)⟩
  have hasked := hc.1 f hf he e hm hfreed htakes
  unfold Asked at hasked
  split at hasked
  · rename_i document now
    obtain ⟨hrun, hsystem, hrefused⟩ := hasked
    obtain ⟨out, hs⟩ := map_snd_eq_ok hs
    have hdocument : e.document? = some document := by
      by_contra hne
      exact hlost (.inr ((standing_removed hw.wellFormed.rooted hs e).mpr ⟨hstanding, hne⟩))
    cases i with
    | zero => exact hfreed (hok hsystem f hf he hrun e hm hdocument hrefused)
    | succ i => exact hok
  · exact hasked

theorem upheld_serve {attempt : Attempt} (hw : Upheld setting w)
    (hok : InOrder i r (w, attempt)) (hc : Careful setting r (w, attempt))
    (h : serve setting fails i r w a w') : Upheld setting w' := by
  refine ⟨wellFormed_serve hw.wellFormed h, ?_, ?_, fun command ha ↦ ?_⟩
  · intro f hf documents ho e hm
    obtain hruns | ⟨command, order, -, -, hruns⟩ := firstRuns_serve h
    · exact hw.named f (hruns ▸ hf) documents ho e hm
    · rw [hruns] at hf
      obtain hf | hf := List.mem_append.mp hf
      · exact hw.named f hf documents ho e hm
      · obtain rfl := List.mem_singleton.mp hf
        obtain rfl : order = .dehydrate documents .erasure := ho
        exact (@mem_placesOf _ hw.wellFormed.rooted _ .erasure _ hm).1
  · intro f hf he e hm
    obtain hruns | ⟨command, order, rfl, -, hruns⟩ := firstRuns_serve h
    · exact (stands_serve hw hok hc h (hruns ▸ hf) he hm).imp_left (·.mono (released_serve h))
    · rw [hruns] at hf
      obtain hf | hf := List.mem_append.mp hf
      · exact (stands_serve hw hok hc h hf he hm).imp_left (·.mono (released_serve h))
      · obtain rfl := List.mem_singleton.mp hf
        obtain ⟨documents, rfl⟩ : ∃ documents, order = .dehydrate documents .erasure := he
        rw [store_runBegins h]
        exact .inr (@mem_placesOf _ hw.wellFormed.rooted _ .erasure _ hm).2
  · obtain ha | rfl := outcome_serve h ha
    · exact carried_serve h (hw.applied command ha)
    · cases i with
      | zero => exact carried_serve h (hok rfl)
      | succ i => exact hok.elim

end Served

def discipline (setting : Setting) : Discipline Request Answer (World × Attempt) where
  invariant s := Upheld setting s.1
  ok := InOrder
  rely i s s' := i = 0 → Advances s s' ∧ s'.2 = s.2
  ends _ _ := True

section Steps

variable {setting : Setting} {fails : Prop} {command : CommandIdentifier}

/-- What a turn of the channel meets. -/
abbrev contract (setting : Setting) (fails : Prop) :
    Contract Request Answer (World × Attempt) :=
  (discipline setting).knowing (releasing setting fails) 0

theorem ok_of_idle {r : Request} (h : Idle r) (s : World × Attempt) : InOrder 0 r s := by
  unfold InOrder
  split
  · exact h.elim
  · rintro rfl
    exact h.elim nofun nofun
  · trivial
  · trivial

/-- The steps of an attempt other than its beginning. -/
def Continues (r : CommandRequest) : Prop := ∀ command order, r ≠ .runBegins command order

theorem advances_contract {r : CommandRequest} (hr : Continues r) {a : CommandAnswer r}
    {s s' : World × Attempt} (hs : (contract setting fails).serve (.command r) s a s') :
    Advances s s' := by
  obtain ⟨⟨⟨hserve, hnote⟩, -⟩, -⟩ := hs
  have hne : ∀ command order, Request.command r ≠ .command (.runBegins command order) :=
    fun command order h ↦ hr command order (Request.command.inj h)
  have hadvances := advances_serve hne hserve.1 s.2
  rwa [← hnote] at hadvances

/-- A step of an attempt, and what others do after it. -/
theorem sound_step {α : Type} {r : CommandRequest} {f : CommandAnswer r → CommandActivity α}
    {Q : α → World × Attempt → Prop} {s : World × Attempt} (hr : Continues r)
    (hok : InOrder 0 (.command r) s)
    (h : ∀ a s' s'', (contract setting fails).serve (.command r) s a s' → Advances s s' →
      Advances s' s'' ∧ s''.2 = s'.2 → (commands (contract setting fails)).Sound (f a) Q s'') :
    (commands (contract setting fails)).Sound (CommandRequest.call r >>= f) Q s :=
  sound_call_bind hok fun a s' s'' hs hrely ↦
    h a s' s'' hs (advances_contract hr hs) (hrely.1 rfl)

/-- What an activity of the reconcile leaves to an attempt. -/
theorem sound_reconciles {α : Type} {p : CommandActivity α} {s : World × Attempt}
    (hp : p.Asks fun r ↦ ∃ q, r = .reconcile q) :
    (commands (contract setting fails)).Sound p (fun _ ↦ Advances s) s := by
  refine sound_of_asks hp (fun r s₁ hr h ↦ ?_) (fun s₁ s₂ h hr ↦ h.trans (hr.1 rfl).1) (.refl s)
  obtain ⟨q, rfl⟩ := hr
  have hcontinues : Continues (.reconcile q) := fun _ _ hq ↦ nomatch hq
  exact ⟨trivial, fun a s₂ hs ↦ h.trans (advances_contract hcontinues hs)⟩

theorem mem_release {h : History} {step : Release} {steps : List Release}
    (hrun : h.running = some command) (hm : step ∈ steps) :
    (command, step) ∈ (h.release steps).released := by
  refine List.mem_append_right _ ?_
  simpa [hrun] using hm

/-- An order on an entry was carried out, or the entry is not there, or it was refused. -/
theorem ordered_or_absent {e : EntryIdentifier} {step : Release}
    {a : Except PlatformError Unit} {s s' : World × Attempt}
    (hrun : s.1.history.running = some command)
    (hreleased : s'.1.history = s.1.history.release (releases e [step] a))
    (hrefused : s'.2.refused = s.2.refused ++ refusal e a) (he : e ∉ s'.2.refused) :
    (command, step) ∈ s'.1.history.released ∧ a = .ok () ∨
      (command, .absent e) ∈ s'.1.history.released := by
  rw [hreleased]
  rw [hrefused] at he
  cases a with
  | ok _ => exact .inl ⟨mem_release hrun (List.mem_singleton_self _), rfl⟩
  | error error =>
    cases error with
    | notFound other => exact .inr (mem_release hrun (List.mem_singleton_self _))
    | _ => exact absurd (List.mem_append_right _ (List.mem_singleton_self _)) he

theorem sound_removeLocation {action : Actions} {e : EntryIdentifier}
    {situation : DehydrateSituation} {s : World × Attempt}
    (hrun : s.1.history.running = some command) (haction : action.removeEntry = true) :
    (commands (contract setting fails)).Sound (removeLocation action e situation)
      (fun _ s' ↦ Advances s s' ∧ (e ∉ s'.2.refused →
        (command, .removed e) ∈ s'.1.history.released ∨
          (command, .absent e) ∈ s'.1.history.released)) s := by
  unfold removeLocation
  rw [if_pos haction]
  refine sound_step (fun _ _ h ↦ nomatch h) trivial fun a s₁ s₂ hs h₁ h₂ ↦ ?_
  have hpost : Advances s s₂ ∧ (e ∉ s₂.2.refused → (command, .removed e) ∈ s₂.1.history.released ∨
      (command, .absent e) ∈ s₂.1.history.released) := by
    refine ⟨h₁.trans h₂.1, fun he ↦ ?_⟩
    obtain ⟨⟨⟨hserve, hnote⟩, -⟩, -⟩ := hs
    have hanswer := @ordered_or_absent command e (.removed e) _ _ _ hrun
      (congrArg World.history hserve.1) (congrArg Attempt.refused hnote)
      fun hm ↦ he (h₂.1.refused hm)
    exact hanswer.imp (fun h ↦ h₂.1.released h.1) fun h ↦ h₂.1.released h
  cases a with
  | ok _ => exact hpost
  | error e => exact hpost

/-- A place that the platform does not refuse it lets go. -/
theorem sound_giveLocationFree {e : EntryIdentifier} {situation : DehydrateSituation}
    {s : World × Attempt} (hrun : s.1.history.running = some command) :
    (commands (contract setting fails)).Sound (giveLocationFree .erasure situation e)
      (fun _ s' ↦ Advances s s' ∧ (e ∉ s'.2.refused → Freed s'.1 command e)) s := by
  refine sound_step (fun _ _ h ↦ (by cases h)) trivial fun answer s₁ s₂ hs h₁ h₂ ↦ ?_
  dsimp only
  split
  · rename_i hstate
    refine ⟨h₁.trans h₂.1, fun he ↦ absurd (h₂.1.refused ?_) he⟩
    obtain ⟨⟨⟨-, hnote⟩, -⟩, -⟩ := hs
    rw [hnote]
    refine List.mem_append_right _ ?_
    simp [hstate]
  · rename_i state _
    have haction : ((actions .erasure state.pinned).dehydrate ||
        (actions .erasure state.pinned).unpin) = true := rfl
    rw [if_pos haction]
    have hrun₂ : s₂.1.history.running = some command :=
      (h₂.1.running.trans h₁.running).trans hrun
    refine sound_step (fun _ _ h ↦ (by cases h)) trivial fun a s₃ s₄ hs h₃ h₄ ↦ ?_
    have hrun₄ : s₄.1.history.running = some command :=
      (h₄.1.running.trans h₃.running).trans hrun₂
    have hdehydrated : e ∉ s₄.2.refused → (command, .dehydrated e) ∈ s₄.1.history.released ∨
        (command, .absent e) ∈ s₄.1.history.released := by
      intro he
      obtain ⟨⟨⟨hserve, hnote⟩, -⟩, -⟩ := hs
      have hanswer := @ordered_or_absent command e (.dehydrated e) _ _ _ hrun₂
        (congrArg World.history hserve.1) (congrArg Attempt.refused hnote)
        fun hm ↦ he (h₄.1.refused hm)
      exact hanswer.imp (fun h ↦ h₄.1.released h.1) fun h ↦ h₄.1.released h
    have hremove : ∀ situation, (commands (contract setting fails)).Sound
        (removeLocation (actions .erasure state.pinned) e situation)
        (fun _ s' ↦ Advances s s' ∧ (e ∉ s'.2.refused → Freed s'.1 command e)) s₄ := by
      intro situation
      refine sound_mono (fun _ s₅ h₅ ↦ ?_) (sound_removeLocation hrun₄ rfl)
      obtain ⟨h₅, hremoved⟩ := h₅
      refine ⟨?_, fun he ↦ ?_⟩
      · exact ((h₁.trans h₂.1).trans (h₃.trans h₄.1)).trans h₅
      · obtain hremoved | habsent := hremoved he
        · obtain hreleased | habsent := hdehydrated fun hm ↦ he (h₅.refused hm)
          · exact .inr ⟨h₅.released hreleased, hremoved⟩
          · exact .inl (h₅.released habsent)
        · exact .inl habsent
    cases a with
    | ok _ => exact hremove _
    | error error => exact hremove _

theorem sound_giveLocationsFree {fileSystem : Bool} (locations : List EntryIdentifier)
    {situation : DehydrateSituation} {s : World × Attempt}
    (hrun : s.1.history.running = some command) :
    (commands (contract setting fails)).Sound
      (giveLocationsFree fileSystem .erasure locations situation)
      (fun _ s' ↦ Advances s s' ∧ (fileSystem = true → ∀ e ∈ locations, e ∉ s'.2.refused →
        Freed s'.1 command e)) s := by
  induction locations generalizing situation s with
  | nil => exact ⟨.refl s, fun _ e he ↦ absurd he List.not_mem_nil⟩
  | cons location rest ih =>
    unfold giveLocationsFree
    dsimp only
    split
    · refine sound_bind.mpr (sound_mono (fun situation s₁ h₁ ↦ ?_) (sound_giveLocationFree hrun))
      obtain ⟨h₁, hfreed⟩ := h₁
      refine sound_mono (fun _ s₂ h₂ ↦ ?_) (ih (h₁.running.trans hrun))
      obtain ⟨h₂, hrest⟩ := h₂
      refine ⟨h₁.trans h₂, fun hsystem e he hrefused ↦ ?_⟩
      obtain rfl | he := List.mem_cons.mp he
      · exact (hfreed fun hm ↦ hrefused (h₂.refused hm)).mono h₂.released
      · exact hrest hsystem e he hrefused
    · rename_i hsystem
      exact sound_mono (fun _ s₂ h ↦ ⟨h.1, fun htrue ↦ absurd htrue hsystem⟩) (ih hrun)

/-- Of the document, the platform has let go every place that the erasure found. -/
def Cleared (command : CommandIdentifier) (document : DocumentIdentifier) (w : World) : Prop :=
  ∀ f ∈ w.history.firstRuns, Erases f → f.command = command → ∀ e ∈ f.places,
    e.document? = some document → Freed w command e

theorem Cleared.advances {document : DocumentIdentifier} {s s' : World × Attempt}
    (h : Advances s s') (hc : Cleared command document s.1) : Cleared command document s'.1 := by
  intro f hf he hfc e hm hd
  rw [h.firstRuns] at hf
  exact (hc f hf he hfc e hm hd).mono h.released

theorem upheld_contract {r : Request} {a : Answer r} {s s' : World × Attempt}
    (hok : InOrder 0 r s) (hs : (contract setting fails).serve r s a s') :
    Upheld setting s'.1 :=
  upheld_serve hs.2 hok hs.1.2 hs.1.1.1.1

/-- Removed, the document stands at none of its places any more. -/
theorem cleared_removed {document : DocumentIdentifier} {now : Timestamp}
    {journal : List Core.Changes.JournalEntry} {s s' : World × Attempt}
    (hok : Tried document s) (hs : (contract setting fails).serve
      (.command (.removeDocumentEverywhere document now)) s (.ok journal) s') :
    Cleared command document s'.1 := by
  have hok : InOrder 0 (.command (.removeDocumentEverywhere document now)) s := hok
  have hupheld : Upheld setting s'.1 := upheld_contract hok hs
  obtain ⟨⟨⟨⟨hserve, -⟩, -⟩, -⟩, hw⟩ := hs
  intro f hf he hfc e hm hd
  subst hfc
  refine (hupheld.stands f hf he e hm).resolve_right fun hstanding ↦ ?_
  obtain ⟨-, error, herror⟩ | ⟨b, store, hop, -, hworld⟩ := storedNoting_cases hserve
  · cases herror
  · rw [hworld] at hstanding
    exact ((standing_removed hw.wellFormed.rooted hop e).mp hstanding).2 hd

theorem sound_forgetDocument {document : DocumentIdentifier} {situation : DehydrateSituation}
    {s : World × Attempt}
    (htried : ∀ s', Advances s s' → Tried document s') :
    (commands (contract setting fails)).Sound (forgetDocument .erasure document situation)
      (fun situation' s' ↦ Advances s s' ∧ (situation'.failed = false →
        situation.failed = false ∧ Cleared command document s'.1)) s := by
  have hremoves : (actions .erasure false).removeEntry = true := rfl
  rw [forgetDocument, if_pos hremoves]
  refine sound_step (fun _ _ h ↦ (by cases h)) trivial fun time s₁ s₂ _ h₁ h₂ ↦ ?_
  have htried₂ := htried s₂ (h₁.trans h₂.1)
  refine sound_step (fun _ _ h ↦ (by cases h)) htried₂ fun a s₃ s₄ hs h₃ h₄ ↦ ?_
  have hadvances := (h₁.trans h₂.1).trans (h₃.trans h₄.1)
  cases a with
  | error e => exact ⟨hadvances, fun h ↦ (by cases h)⟩
  | ok journal =>
    have hcleared : Cleared command document s₄.1 := (cleared_removed htried₂ hs).advances h₄.1
    refine sound_bind.mpr (sound_mono (fun _ s₅ h₅ ↦ ?_) (sound_reconciles
      (asks_embed fun q ↦ ⟨q, rfl⟩)))
    exact ⟨hadvances.trans h₅, fun hf ↦ ⟨hf, hcleared.advances h₅⟩⟩

theorem sound_redactLog {document : DocumentIdentifier} {situation : DehydrateSituation}
    {s : World × Attempt} :
    (commands (contract setting fails)).Sound (redactLog .erasure document situation)
      (fun situation' s' ↦ Advances s s' ∧
        (situation'.failed = false → situation.failed = false)) s := by
  refine sound_step (fun _ _ h ↦ nomatch h) trivial fun a s₁ s₂ _ h₁ h₂ ↦ ?_
  cases a with
  | error e => exact ⟨h₁.trans h₂.1, fun h ↦ nomatch h⟩
  | ok _ => exact ⟨h₁.trans h₂.1, id⟩

/-- What stands in the namespace when the places are looked up is tried; what does not was let go
before. -/
theorem tried_of_placements {document : DocumentIdentifier} {fileSystem : Bool}
    {s s' : World × Attempt} (hw : Upheld setting s.1)
    (hrun : s.1.history.running = some command) (hsystem : s.2.fileSystem = some fileSystem)
    (h : Advances s s') (hfreed : fileSystem = true → ∀ e ∈ s.1.store.placements document,
      e ∉ s'.2.refused → Freed s'.1 command e) : Tried document s' := by
  intro hs f hf he hfr e hm hd hrefused
  obtain rfl : fileSystem = true := Option.some.inj ((h.fileSystem _ hsystem).symm.trans hs)
  obtain rfl : f.command = command :=
    (Option.some.inj (hrun.symm.trans (h.running.symm.trans hfr))).symm
  rw [h.firstRuns] at hf
  obtain hgone | hstanding := hw.stands f hf he e hm
  · exact hgone.mono h.released
  · exact hfreed rfl e ((mem_placements hw.wellFormed.rooted).mpr ⟨hd, hstanding⟩) hrefused

theorem Tried.advances {document : DocumentIdentifier} {fileSystem : Bool}
    {s s' : World × Attempt} (hsystem : s.2.fileSystem = some fileSystem) (h : Advances s s')
    (ht : Tried document s) : Tried document s' := by
  intro hs f hf he hfr e hm hd hrefused
  rw [h.firstRuns] at hf
  rw [h.running] at hfr
  have hs' : s.2.fileSystem = some true := by
    rw [hsystem, ← h.fileSystem _ hsystem, hs]
  exact (ht hs' f hf he hfr e hm hd fun hm ↦ hrefused (h.refused hm)).mono h.released

theorem sound_dehydrateDocument {document : DocumentIdentifier} {fileSystem : Bool}
    {situation : DehydrateSituation} {s : World × Attempt}
    (hrun : s.1.history.running = some command) (hsystem : s.2.fileSystem = some fileSystem) :
    (commands (contract setting fails)).Sound
      (dehydrateDocument fileSystem .erasure situation document)
      (fun situation' s' ↦ Advances s s' ∧ (situation'.failed = false →
        situation.failed = false ∧ Cleared command document s'.1)) s := by
  refine sound_step (fun _ _ h ↦ nomatch h) trivial fun a s₁ s₂ hs h₁ h₂ ↦ ?_
  have h₂ := h₁.trans h₂.1
  cases a with
  | error e => exact ⟨h₂, fun h ↦ nomatch h⟩
  | ok locations =>
    have hlocations : locations = s.1.store.placements document := by
      obtain ⟨⟨⟨⟨hserve, -⟩, -⟩, -⟩, -⟩ := hs
      obtain ⟨-, ⟨e, he⟩ | he⟩ := read_cases hserve
      · cases he
      · exact Except.ok.inj he
    have hw := hs.2
    subst hlocations
    refine sound_bind.mpr (sound_mono (fun situation₁ s₃ hgiven ↦ ?_) (sound_ends
      (sound_giveLocationsFree _ (h₂.running.trans hrun))
      (ErasureRuns.ends_giveLocationsFree _ _ _ _)))
    obtain ⟨⟨h₃, hfreed⟩, hsucceeds⟩ := hgiven
    have h₃ := h₂.trans h₃
    have htried : Tried document s₃ := tried_of_placements hw hrun hsystem h₃ hfreed
    refine sound_bind.mpr (sound_mono (fun situation₂ s₄ ⟨h₄, hforgot⟩ ↦ ?_)
      (@sound_forgetDocument setting fails command _ _ _ fun s' h ↦
        htried.advances (h₃.fileSystem _ hsystem) h))
    refine sound_mono (fun situation₃ s₅ ⟨h₅, hredacted⟩ ↦ ?_) sound_redactLog
    refine ⟨(h₃.trans h₄).trans h₅, fun hf ↦ ?_⟩
    obtain ⟨hf, hcleared⟩ := hforgot (hredacted hf)
    exact ⟨hsucceeds hf, hcleared.advances h₅⟩

theorem sound_dehydrateEach {fileSystem : Bool} (documents : List DocumentIdentifier)
    {situation : DehydrateSituation} {s : World × Attempt}
    (hrun : s.1.history.running = some command) (hsystem : s.2.fileSystem = some fileSystem) :
    (commands (contract setting fails)).Sound
      (dehydrateEach fileSystem .erasure documents situation)
      (fun situation' s' ↦ Advances s s' ∧ (situation'.failed = false →
        situation.failed = false ∧ ∀ d ∈ documents, Cleared command d s'.1)) s := by
  induction documents generalizing situation s with
  | nil => exact ⟨.refl s, fun hf ↦ ⟨hf, fun d hd ↦ absurd hd List.not_mem_nil⟩⟩
  | cons document rest ih =>
    refine sound_bind.mpr (sound_mono (fun situation₁ s₁ ⟨h₁, hfirst⟩ ↦ ?_)
      (sound_dehydrateDocument hrun hsystem))
    refine sound_mono (fun situation₂ s₂ ⟨h₂, hrest⟩ ↦ ⟨h₁.trans h₂, fun hf ↦ ?_⟩)
      (ih (h₁.running.trans hrun) (h₁.fileSystem _ hsystem))
    obtain ⟨hf, hcleared⟩ := hrest hf
    obtain ⟨hf, hdocument⟩ := hfirst hf
    refine ⟨hf, fun d hd ↦ ?_⟩
    obtain rfl | hd := List.mem_cons.mp hd
    · exact hdocument.advances h₂
    · exact hcleared d hd

/-- An erasure that comes out as applied has every place let go. -/
theorem sound_dehydrate (documents : List DocumentIdentifier) {s : World × Attempt}
    (hrun : s.1.history.running = some command) (hsystem : s.2.fileSystem = none) :
    (commands (contract setting fails)).Sound (dehydrate documents .erasure)
      (fun outcome s' ↦ Advances s s' ∧
        (outcome = .applied → ∀ d ∈ documents, Cleared command d s'.1)) s := by
  refine sound_step (fun _ _ h ↦ nomatch h) trivial fun fileSystem s₁ s₂ hs h₁ h₂ ↦ ?_
  have hsystem₂ : s₂.2.fileSystem = some fileSystem := by
    obtain ⟨⟨⟨-, hnote⟩, -⟩, -⟩ := hs
    rw [h₂.2, hnote]
    simp [note, noted, hsystem]
  have h₂ := h₁.trans h₂.1
  refine sound_bind.mpr (sound_mono (fun situation s₃ ⟨h₃, hcleared⟩ ↦ ?_)
    (sound_dehydrateEach documents (h₂.running.trans hrun) hsystem₂))
  refine sound_step (fun _ _ h ↦ nomatch h) trivial fun _ s₄ s₅ _ h₄ h₅ ↦ ?_
  refine ⟨(h₂.trans h₃).trans (h₄.trans h₅.1), fun happlied d hd ↦ ?_⟩
  have hf : situation.failed = false := by
    unfold DehydrateSituation.outcome at happlied
    split at happlied
    · cases happlied
    · exact Bool.eq_false_iff.mpr ‹_›
  exact ((hcleared hf).2 d hd).advances (h₄.trans h₅.1)

theorem ordered_contract {order : Command} {a : Unit} {s s' : World × Attempt}
    (hs : (contract setting fails).serve (.command (.runBegins command order)) s a s') :
    Ordered command order s'.1 ∧ s'.1.history.running = some command ∧
      s'.2.fileSystem = none := by
  obtain ⟨⟨⟨⟨hserve, -⟩, hnote⟩, hcareful⟩, -⟩ := hs
  rw [hnote, show s'.1 = _ from hserve]
  refine ⟨ErasureRuns.ordered_runBegins (hcareful.2 command order rfl), ?_, rfl⟩
  change (History.runBegins _ _ _ _).running = _
  unfold History.runBegins
  split <;> rfl

theorem ordered_advances {order : Command} {s s' : World × Attempt} (h : Advances s s')
    (ho : Ordered command order s.1) : Ordered command order s'.1 := by
  rw [Ordered, h.firstRuns]
  exact ho

/-- A command that orders no erasure has nothing to be let go. -/
theorem carried_of_ne {order : Command} {w : World} (h : Ordered command order w)
    (hne : ∀ documents, order ≠ .dehydrate documents .erasure) : Carried command w := by
  refine ⟨h.1, fun f hf hc herases ↦ ?_⟩
  obtain ⟨documents, hdocuments⟩ := herases
  exact absurd ((h.2 f hf hc).symm.trans hdocuments) (hne documents)

theorem carried_of_cleared {documents : List DocumentIdentifier} {s s' : World × Attempt}
    (hw : Upheld setting s.1) (ho : Ordered command (.dehydrate documents .erasure) s.1)
    (h : Advances s s') (hcleared : ∀ d ∈ documents, Cleared command d s'.1) :
    Carried command s'.1 := by
  have ho' := ordered_advances h ho
  refine ⟨ho'.1, fun f hf hc herases e hm ↦ ?_⟩
  have hf' := h.firstRuns ▸ hf
  obtain ⟨d, hd, hdocument⟩ := hw.named f hf' documents (ho'.2 f hf hc) e hm
  exact hcleared d hd f hf herases hc e hm hdocument

/-- What is said of a world goes on to hold when nothing but others' steps come between. -/
theorem sound_carried {α : Type} {p : CommandActivity α} {s : World × Attempt}
    (hp : (commands (contract setting fails)).Fine p) (hc : Carried command s.1) :
    (commands (contract setting fails)).Sound p (fun _ s' ↦ Carried command s'.1) s := by
  refine sound_mono (fun _ _ h ↦ h.2) (sound_keeping (I := fun s ↦ Carried command s.1)
    (fun r s a s' _ hs h ↦ ?_) (fun s s' h hr ↦ ?_) hc (hp s))
  · exact carried_serve hs.1.1.1.1 h
  · exact h.mono (hr.1 rfl).1.released (hr.1 rfl).1.firstRuns

theorem fine_reconciles {α : Type} (p : ReconcileFallible α) :
    (commands (contract setting fails)).Fine (ofReconcile p) :=
  fine_embed (fine_of_all (fun _ _ ↦ trivial) _)

/-- The requests of an order that takes nothing out of the namespace. -/
def Leaves : CommandRequest → Prop
  | .removeDocumentEverywhere _ _ => False
  | _ => True

theorem asks_removeLocation (action : Actions) (location : EntryIdentifier)
    (situation : DehydrateSituation) : (removeLocation action location situation).Asks Leaves := by
  unfold removeLocation
  split
  · refine asks_bind (asks_call trivial) fun removed ↦ ?_
    split <;> trivial
  · trivial

theorem asks_giveLocationFree (reason : Reason) (situation : DehydrateSituation)
    (location : EntryIdentifier) : (giveLocationFree reason situation location).Asks Leaves := by
  refine asks_bind (asks_call trivial) fun state ↦ ?_
  split
  · trivial
  · dsimp only
    split
    · refine asks_bind (asks_call trivial) fun dehydrated ↦ ?_
      split <;> exact asks_removeLocation _ _ _
    · exact asks_removeLocation _ _ _

theorem asks_giveLocationsFree (fileSystem : Bool) (reason : Reason)
    (locations : List EntryIdentifier) (situation : DehydrateSituation) :
    (giveLocationsFree fileSystem reason locations situation).Asks Leaves := by
  induction locations generalizing situation with
  | nil => trivial
  | cons location rest ih =>
    rw [giveLocationsFree]
    split
    · exact asks_bind (asks_giveLocationFree _ _ _) fun _ ↦ ih _
    · exact ih _

theorem asks_dehydrate {reason : Reason} (hreason : reason ≠ .erasure)
    (documents : List DocumentIdentifier) : (dehydrate documents reason).Asks Leaves := by
  have hdocument : ∀ fileSystem situation document,
      (dehydrateDocument fileSystem reason situation document).Asks Leaves := by
    intro fileSystem situation document
    have hforget : ∀ situation, (forgetDocument reason document situation).Asks Leaves := by
      intro situation
      cases reason with
      | erasure => exact absurd rfl hreason
      | accessRevoked | spaceReclaim => trivial
    have hredact : ∀ situation, (redactLog reason document situation).Asks Leaves := by
      intro situation
      cases reason with
      | erasure => exact absurd rfl hreason
      | accessRevoked | spaceReclaim => trivial
    refine asks_bind (asks_call trivial) fun locations ↦ ?_
    split
    · trivial
    · refine asks_bind (asks_giveLocationsFree _ _ _ _) fun situation ↦ ?_
      exact asks_bind (hforget _) fun situation ↦ hredact _
  have heach : ∀ fileSystem situation,
      (dehydrateEach fileSystem reason documents situation).Asks Leaves := by
    intro fileSystem situation
    induction documents generalizing situation with
    | nil => trivial
    | cons document rest ih => exact asks_bind (hdocument _ _ _) fun _ ↦ ih _
  refine asks_bind (asks_call trivial) fun fileSystem ↦ ?_
  refine asks_bind (heach _ _) fun situation ↦ ?_
  exact asks_bind (asks_call trivial) fun _ ↦ trivial

theorem ok_of_leaves {r : CommandRequest} (h : Leaves r) (s : World × Attempt) :
    InOrder 0 (.command r) s := by
  cases r with
  | removeDocumentEverywhere => exact h.elim
  | _ => trivial

theorem sound_runFrom (order : Command) {s : World × Attempt} :
    (commands (contract setting fails)).Sound (runFrom setting command order)
      (fun outcome s' ↦ outcome = .applied → Carried command s'.1) s := by
  refine sound_call_bind trivial fun _ s₁ s₂ hs hr ↦ ?_
  obtain ⟨hordered, hrun, hsystem⟩ := ordered_contract hs
  obtain ⟨⟨h₂, hattempt⟩, hw₂⟩ : (Advances s₁ s₂ ∧ s₂.2 = s₁.2) ∧ Upheld setting s₂.1 :=
    ⟨hr.1 rfl, hr.2⟩
  have hordered := ordered_advances h₂ hordered
  have hrun := h₂.running.trans hrun
  have hother : ∀ {p : CommandActivity CommandOutcome},
      (commands (contract setting fails)).Fine p →
      (∀ documents, order ≠ .dehydrate documents .erasure) →
      (commands (contract setting fails)).Sound p
        (fun outcome s' ↦ outcome = .applied → Carried command s'.1) s₂ := by
    intro p hp hne
    refine sound_mono ?_ (sound_carried hp (carried_of_ne hordered hne))
    exact fun _ _ hcarried _ ↦ hcarried
  cases order with
  | dehydrate documents reason =>
    by_cases hreason : reason = .erasure
    · subst hreason
      have hnone : s₂.2.fileSystem = none := by rw [hattempt, hsystem]
      refine sound_mono (fun outcome s₃ ⟨h₃, hcleared⟩ happlied ↦ ?_)
        (@sound_dehydrate setting fails command documents _ hrun hnone)
      exact carried_of_cleared hw₂ hordered h₃ (hcleared happlied)
    · refine hother (fine_of_asks (asks_dehydrate hreason documents) fun r s hr ↦ ?_)
        fun documents' ho ↦ hreason ?_
      · exact ok_of_leaves hr s
      · exact (Command.dehydrate.inj ho).2
  | reconcile container =>
    cases container with
    | none => exact hother (fine_bind (fine_reconciles _) fun _ ↦ fine_done _) nofun
    | some container => exact hother (fine_bind (fine_reconciles _) fun _ ↦ fine_done _) nofun
  | signOut => exact hother (fine_bind (fine_reconciles _) fun _ ↦ fine_done _) nofun
  | refreshKeys => exact hother (fine_bind (fine_reconciles _) fun _ ↦ fine_done _) nofun

theorem sound_judge (envelope : CommandEnvelope) (rate : RateLimit) (s : World × Attempt) :
    (commands (contract setting fails)).Sound (judge setting envelope rate)
      (fun x s' ↦ x.1 = .applied → Carried envelope.commandId s'.1) s := by
  refine sound_bind.mpr (sound_mono (fun set s₁ _ ↦ ?_) (fine_reconciles _ s))
  split
  · exact fun h ↦ nomatch h
  split
  · exact fun h ↦ nomatch h
  split
  · exact fun h ↦ nomatch h
  refine sound_call_bind trivial fun time s₂ s₃ _ _ ↦ ?_
  split
  · exact fun h ↦ nomatch h
  exact sound_bind.mpr (sound_mono (fun outcome s₄ h ↦ h) (sound_runFrom _))

theorem fine_of_idle {α : Type} {p : Activity α} (h : p.Asks Idle) :
    (contract setting fails).Fine p :=
  fine_of_asks h fun _ s hr ↦ ok_of_idle hr s

theorem fine_entry (value : Value) (rate : RateLimit) :
    (contract setting fails).Fine (process setting value rate) := by
  rw [process]
  split
  · exact fine_done _
  · exact fine_bind (fine_of_idle (asks_complete _ (.inl rfl))) fun _ ↦ fine_done _
  · rename_i envelope _
    refine fine_bind (fine_call fun _ ↦ trivial) fun time ↦ ?_
    refine fine_bind (fine_call fun _ ↦ trivial) fun acceptance ↦ ?_
    split
    · exact fine_done _
    · dsimp only
      split
      · refine fine_bind (fine_of_idle ?_) fun _ ↦ fine_done _
        exact (asks_acknowledge _ _).mono idle_of_polls
      · exact fine_done _
    · intro s
      refine sound_bind.mpr (sound_mono (fun x s₁ happlied ↦ ?_)
        (sound_embed.mpr (sound_judge envelope rate s)))
      refine Sound.fine_bind (Q := fun _ _ ↦ True) ?_ fun _ ↦ fine_done _
      refine sound_call_bind happlied fun recorded s₂ s₃ _ _ ↦ ?_
      split
      · exact fine_of_idle ((asks_acknowledge _ _).mono idle_of_polls) s₃
      · trivial

theorem fine_page (page : DeliveryPage) (rate : RateLimit) :
    (contract setting fails).Fine (workOff setting rate page).run := by
  have heach : ∀ values rate, (contract setting fails).Fine (processEach setting values rate) := by
    intro values
    induction values with
    | nil => exact fun _ ↦ fine_done _
    | cons value rest ih =>
      intro rate
      refine fine_bind (fine_call fun _ ↦ trivial) fun stopped ↦ ?_
      split
      · exact fine_done _
      · exact fine_bind (fine_entry value rate) fun rate ↦ ih rate
  unfold workOff
  split
  · exact fine_fallible_bind (fine_store (fine_call fun _ ↦ trivial)) fun _ ↦
      fine_lift (heach _ _)
  · exact fine_lift (heach _ _)

theorem fine_turn (rate : RateLimit) (wait : Option ℕ) (disturbed : Bool) :
    (contract setting fails).Fine (channel setting rate wait disturbed) := by
  have hconnected : ∀ b, (contract setting fails).Fine (connected b) := fun _ ↦
    fine_embed (fine_embed (fine_of_all (fun _ _ ↦ trivial) _))
  have hround : (contract setting fails).Fine (aRound setting rate wait).run := by
    refine fine_fallible_bind (fine_of_idle ((asks_fetchDeviceToken false).mono idle_of_polls))
      fun has ↦ ?_
    split
    · refine fine_fallible_bind (fine_of_idle (asks_emptyOutbox.mono idle_of_polls)) fun _ ↦ ?_
      refine fine_fallible_bind (fine_lift (fine_of_idle ((asks_chosenWait wait).mono
        idle_of_polls))) fun wait ↦ ?_
      refine fine_fallible_bind (fine_of_idle (asks_fetchPage wait)) fun page ↦ ?_
      exact fine_fallible_bind (fine_page page rate) fun _ ↦ fine_done _
    · exact fine_done _
  refine fine_bind hround fun result ↦ ?_
  split
  · split
    · exact hconnected true
    · exact fine_done _
  · split
    · exact hconnected false
    · exact fine_done _
  · exact fine_done _

end Steps

section Runs

variable {setting : Setting} {fails : Prop}

theorem Upheld.of_record {w w' : World} (h : Upheld setting w) (hstore : w'.store = w.store)
    (hruns : w'.history.firstRuns = w.history.firstRuns)
    (hreleased : w'.history.released = w.history.released) : Upheld setting w' where
  wellFormed := hstore ▸ h.wellFormed
  named := hruns ▸ h.named
  stands f hf he e hm := by
    rw [hstore]
    rw [hruns] at hf
    exact (h.stands f hf he e hm).imp_left (·.mono (hreleased ▸ List.Subset.refl _))
  applied command ha := by
    rw [Applied, hstore] at ha
    exact (h.applied command ha).mono (hreleased ▸ List.Subset.refl _) hruns

theorem advances_of_history {w w' : World} (h : w'.history = w.history) (attempt : Attempt) :
    Advances (w, attempt) (w', attempt) := by
  refine ⟨?_, ?_, ?_, List.Subset.refl _, fun _ h ↦ h⟩ <;> rw [h]
  exact List.Subset.refl _

theorem kept (setting : Setting) (fails : Prop) :
    (discipline setting).Kept (releasing setting fails) (FreshAttempt setting) where
  refl _ s _ := ⟨.refl s, rfl⟩
  trans _ _ _ _ h h' hi := ⟨(h hi).1.trans (h' hi).1, (h' hi).2.trans (h hi).2⟩
  enter s := by
    rintro ⟨⟨n, limit, hs⟩, -⟩
    change Upheld setting s.1
    rw [hs]
    refine ⟨SameNamespace.wellFormed (wellFormed_setUp _ n limit) ⟨rfl, rfl, rfl, rfl⟩, ?_, ?_, ?_⟩
    · exact fun f hf ↦ absurd hf List.not_mem_nil
    · exact fun f hf ↦ absurd hf List.not_mem_nil
    · exact fun command ha ↦ nomatch ha
  start i p s hw hstart s' hrely hw' := by
    obtain ⟨job, rfl, hjob⟩ := hstart
    cases i with
    | zero =>
      cases job with
      | channel rate wait disturbed =>
        exact Discipline.sound_of_knowing hw' (fine_turn rate wait disturbed s')
      | _ => exact absurd rfl hjob
    | succ i =>
      have hfine : ((discipline setting).contract (releasing setting fails) (i + 1)).Fine
          (job.program setting) := fine_of_asks (asks_job i.succ_ne_zero hjob) fun r s hr ↦ hr
      exact hfine s'
  serve i r s a s' hw hok hserve := by
    obtain ⟨⟨⟨hserve, -⟩, hnote⟩, hcareful⟩ := hserve
    refine ⟨upheld_serve hw hok hcareful hserve, fun j hj hj₀ ↦ ?_⟩
    cases i with
    | zero => exact absurd hj₀ hj
    | succ i =>
      have hadvances := advances_serve (ne_runBegins_of_common hok) hserve s.2
      rw [← hnote] at hadvances
      exact ⟨hadvances, hnote⟩
  finish i s s' hw _ hfinish := by
    obtain ⟨hworld, hattempt⟩ := hfinish
    obtain rfl : s' = (ended i s.1, s.2) := Prod.ext hworld hattempt
    have hsame := sameRecord_ended i s.1
    refine ⟨hw.of_record hsame.store hsame.firstRuns hsame.released, fun j hj hj₀ ↦ ?_⟩
    have hi : i ≠ 0 := fun h ↦ hj (hj₀.trans h.symm)
    exact ⟨advances_of_history (congrArg World.history (ended_of_ne hi s.1)) s.2, rfl⟩
  abort i s s' hw habort := by
    obtain ⟨⟨-, hworld⟩, hattempt⟩ := habort
    obtain rfl : s' = (aborted i s.1, s.2) := Prod.ext hworld hattempt
    have hsame := sameRecord_aborted i s.1
    refine ⟨hw.of_record hsame.store hsame.firstRuns hsame.released, fun j hj hj₀ ↦ ?_⟩
    have hi : i ≠ 0 := fun h ↦ hj (hj₀.trans h.symm)
    refine ⟨advances_of_history ?_ s.2, rfl⟩
    rw [aborted, ended_of_ne hi]
    rfl
  restart s s' hw hrestart := by
    obtain ⟨⟨-, fingerprint, hworld⟩, -⟩ := hrestart
    exact hw.of_record (hworld ▸ rfl) (hworld ▸ rfl) (hworld ▸ rfl)
  outside s s' hw houtside := by
    obtain ⟨⟨-, hworld⟩, hattempt⟩ | ⟨-, hfalse⟩ := houtside
    · obtain rfl : s' = (stopped s.1, s.2) := Prod.ext hworld hattempt
      have hhistory : (stopped s.1).history = s.1.history := rfl
      have hadvances := advances_of_history hhistory s.2
      exact ⟨hw.of_record rfl rfl rfl, fun j _ ↦ ⟨hadvances, rfl⟩⟩
    · exact hfalse.elim

/-- In every run in which a place still owed leaves the namespace only with an attempt that the
platform did not refuse, an erasure recorded as applied has every place let go that its documents
had when it was first run. -/
theorem freed_of_careful {setting : Setting} {fails : Prop}
    {c : Pool Request Answer (World × Attempt)} (h : CarefulRuns setting fails c) {f : FirstRun}
    (hf : f ∈ c.state.1.history.firstRuns) {documents : List DocumentIdentifier}
    (ho : f.order = .dehydrate documents .erasure)
    (ha : recordedOutcome c.state.1.store f.command = some .applied) {e : EntryIdentifier}
    (he : e ∈ f.places) : Freed c.state.1 f.command e :=
  (((Discipline.run_kept (kept setting fails) h).1.applied f.command ha).2 f hf rfl
    ⟨documents, ho⟩) e he

end Runs

section Samples

open FolderClient.Engine.ErasureRuns (listed ordering)
open FolderClient.Engine.Play

def takes (r : Request) (w : World) (e : EntryIdentifier) : Bool :=
  decide (Standing e w.store) && match effect anchored r w.store with
    | .ok s => !decide (Standing e s)
    | .error _ => false

def asked (command : CommandIdentifier) (e : EntryIdentifier) :
    Request → World × Attempt → Bool
  | .command (.removeDocumentEverywhere _ _), s =>
    decide (s.1.history.running = some command) && decide (s.2.fileSystem = some true) &&
      decide (e ∉ s.2.refused)
  | _, _ => false

def heeds (_ : ℕ) (r : Request) (s : World × Attempt) : Bool :=
  (s.1.history.firstRuns.all fun f ↦ f.places.all fun e ↦
    decide (Freed s.1 f.command e) || !takes r s.1 e || asked f.command e r s) &&
  match r with
  | .command (.runBegins command _) => s.1.history.firstRuns.all (·.command ≠ command)
  | _ => true

theorem takes_of_takes {r : Request} {w : World} {e : EntryIdentifier}
    (h : Takes anchored r w e) : takes r w e = true := by
  obtain ⟨hstanding, s, hs, hgone⟩ := h
  simp [takes, hstanding, hs, hgone]

theorem asked_of_asked {command : CommandIdentifier} {e : EntryIdentifier} {r : Request}
    {s : World × Attempt} (h : asked command e r s = true) : Asked command e r s := by
  unfold asked at h
  split at h
  · simpa [Asked, and_assoc] using h
  · cases h

theorem careful_of_heeds (i : ℕ) (r : Request) (s : World × Attempt)
    (h : heeds i r s = true) : Careful anchored r s := by
  unfold heeds at h
  obtain ⟨hplaces, hbegins⟩ := Bool.and_eq_true_iff.mp h
  refine ⟨fun f hf _ e he hfreed htakes ↦ ?_, fun command order hr f hf hc ↦ ?_⟩
  · have hplace := List.all_eq_true.mp (List.all_eq_true.mp hplaces f hf) e he
    simp only [hfreed, takes_of_takes htakes, decide_false, Bool.not_true, Bool.false_or]
      at hplace
    exact asked_of_asked hplace
  · subst hr
    have hall := List.all_eq_true.mp hbegins f hf
    exact absurd hc (of_decide_eq_true hall)

/-- The place at which the document to be erased stands. -/
def place : EntryIdentifier := .document (.search ⟨1⟩) ⟨2⟩

/-- The erasure of the document was the first command, found it at its place, and is recorded as
applied. -/
def erased (w : World) : Bool :=
  recordedOutcome w.store ⟨1⟩ = some .applied && w.history.firstRuns.any fun f ↦
    f.command = ⟨1⟩ && f.order = .dehydrate [⟨2⟩] .erasure && decide (place ∈ f.places)

theorem run_of_erased {w : World} (h : erased w = true) : ∃ f ∈ w.history.firstRuns,
    f.command = ⟨1⟩ ∧ f.order = .dehydrate [⟨2⟩] .erasure ∧ place ∈ f.places ∧
      recordedOutcome w.store f.command = some .applied := by
  obtain ⟨ha, hf⟩ := Bool.and_eq_true_iff.mp h
  obtain ⟨f, hf, he⟩ := List.any_eq_true.mp hf
  simp only [Bool.and_eq_true, decide_eq_true_eq] at he
  refine ⟨f, hf, he.1.1, he.1.2, he.2, ?_⟩
  rw [he.1.1]
  exact of_decide_eq_true ha

theorem freed_ordered : ∃ c, CarefulRuns anchored False c ∧ Freed c.state.1 ⟨1⟩ place := by
  obtain ⟨c, hplay, hc⟩ := (Option.any_eq_true
    (fun c : Pool Request Answer (World × Attempt) ↦ erased c.state.1)
      (playBeside anchored note heeds ⟨((freshEngine anchored).state, {}), fun _ ↦ none⟩
        (listed ++ whole 27 0 (.channel ⟨[]⟩ (some 1) false) ordering))).mp (by decide +kernel)
  have hrun : CarefulRuns anchored False c := runs_of_playBeside careful_of_heeds
    (.first ⟨⟨0, 1000, rfl⟩, rfl⟩) hplay
  obtain ⟨f, hf, hcommand, ho, he, ha⟩ := run_of_erased hc
  exact ⟨c, hrun, hcommand ▸ freed_of_careful hrun hf ho ha he⟩

/-- The document is open when its place is to be removed. -/
def refusing : Surroundings := { ordering with removed := .error (.inUse place) }

/-- The platform refuses the first attempt; the command is delivered again. -/
def again : List Move :=
  listed ++ whole 27 0 (.channel ⟨[]⟩ (some 1) false) refusing ++
    whole 24 0 (.channel ⟨[]⟩ (some 1) false) ordering

theorem owed_again : ¬ ∀ (setting : Setting) (fails : Prop) (c : Activities),
    Runs setting fails {} c → ∀ f ∈ c.state.history.firstRuns, ∀ documents,
      f.order = .dehydrate documents .erasure →
      recordedOutcome c.state.store f.command = some .applied → ∀ e ∈ f.places,
        Freed c.state f.command e := by
  intro hall
  obtain ⟨c, hplay, hc⟩ := (Option.any_eq_true
    (fun c : Activities ↦ erased c.state && !decide (Freed c.state ⟨1⟩ place))
      (play anchored (freshEngine anchored) again)).mp (by decide +kernel)
  obtain ⟨herased, howed⟩ := Bool.and_eq_true_iff.mp hc
  obtain ⟨f, hf, hcommand, ho, he, ha⟩ := run_of_erased herased
  have hfreed := hall anchored False c (runs_of_play runs_freshEngine hplay) f hf _ ho ha place he
  rw [hcommand] at hfreed
  simp [hfreed] at howed

end Samples

end FolderClient.Engine.ReleaseRuns
