import FolderClient.Cfapi.Cancel

namespace FolderClient.Cfapi.CancelRuns

open FolderClient.Cfapi.Cancel FolderClient.Core.Namespace FolderClient.Engine.Transfers
open FolderClient.Library.Pools FolderClient.Library.Programs FolderClient.Library.Programs.Program
open FolderClient.Library.Programs.Contract FolderClient.Library.Tables

/-- Its switch can be flipped under its key, or is flipped already. -/
def Within (s : Scene) (request : Request) (switch : Switch) : Prop :=
  s.cancellations.list.find? request.transfer = some (request.transfer, switch) ∨
    s.cancellations.flipped switch = true

/-- A cancellation comes once the job has started, and what stands under its key is its own switch,
unless that is flipped already and none stands there; and the platform is disconnected while every
job accepted and not over has started, with its switch under its key or flipped already. -/
def timely : Occasion where
  cancel i s := ∀ request call, s.accepted i = some (request, call) →
    (∀ row, s.cancellations.list.find? request.transfer = some row → s.switch i = some row.2) ∧
      (s.finished i = false → ∃ switch, s.switch i = some switch ∧ Within s request switch)
  disconnect s := ∀ i request call, s.accepted i = some (request, call) → s.finished i = false →
    ∃ switch, s.switch i = some switch ∧ Within s request switch

/-- Every job about to look at a switch finds it flipped exactly if its request was cancelled. -/
def Heard (c : Pool Ask Answer Scene) : Prop :=
  ∀ i switch next, c.running i = some (.ask (.look switch) next) →
    c.state.cancellations.flipped switch = c.state.cancelled i

/-- The switches belong to different jobs, and tell of a job under way whether it was cancelled. -/
structure Told (s : Scene) : Prop where
  made : ∀ i switch, s.switch i = some switch → switch < s.cancellations.made
  apart : ∀ i j switch, s.switch i = some switch → s.switch j = some switch → i = j
  accepted : ∀ i switch, s.switch i = some switch → (s.accepted i).isSome = true
  told : ∀ i switch, s.switch i = some switch → s.finished i = false →
    s.cancellations.flipped switch = s.cancelled i
  unstarted : ∀ i, s.switch i = none → s.finished i = false → s.cancelled i = false

/-- A job signs in once and looks at its own switch, and no other one touches either. -/
def discipline : Discipline Ask Answer Scene where
  invariant := Told
  ok i
    | .signIn _, s => s.switch i = none ∧ s.finished i = false ∧ (s.accepted i).isSome = true
    | .look switch, s => s.switch i = some switch ∧ s.finished i = false
    | _, _ => True
  rely i s s' := s'.switch i = s.switch i ∧ s'.finished i = s.finished i ∧
    ((s.accepted i).isSome = true → (s'.accepted i).isSome = true)
  ends _ _ := True

section Kept

variable {unicode : Unicode} {source : Source} {i : ℕ} {s s' : Scene} {switch : Switch}

/-- The job of that request has its switch and is not over. -/
def Under (i : ℕ) (switch : Switch) (s : Scene) : Prop :=
  s.switch i = some switch ∧ s.finished i = false

theorem Under.rely (h : Under i switch s) (hr : discipline.rely i s s') : Under i switch s' :=
  ⟨hr.1.trans h.1, hr.2.1.trans h.2⟩

theorem told_signIn {transfer : ℤ} (h : Told s) (hi : s.switch i = none)
    (hf : s.finished i = false) (ha : (s.accepted i).isSome = true) : Told { s with
      cancellations := (s.cancellations.signIn transfer).2
      switch := Function.update s.switch i (some s.cancellations.made) } := by
  have hcases : ∀ j switch, Function.update s.switch i (some s.cancellations.made) j = some switch →
      j = i ∧ switch = s.cancellations.made ∨ s.switch j = some switch := by
    intro j switch hj
    by_cases hji : j = i
    · subst hji
      rw [Function.update_self] at hj
      exact .inl ⟨rfl, (Option.some.inj hj).symm⟩
    · rw [Function.update_of_ne hji] at hj
      exact .inr hj
  constructor
  case made =>
    intro j switch hj
    obtain ⟨-, rfl⟩ | hj := hcases j switch hj
    · exact Nat.lt_succ_self _
    · exact Nat.lt_succ_of_lt (h.made j switch hj)
  case apart =>
    intro j k switch hj hk
    obtain ⟨hji, hjm⟩ | hj' := hcases j switch hj
    · obtain ⟨hki, -⟩ | hk' := hcases k switch hk
      · exact hji.trans hki.symm
      · exact absurd (h.made k _ hk') (hjm ▸ Nat.lt_irrefl _)
    · obtain ⟨-, hkm⟩ | hk' := hcases k switch hk
      · exact absurd (h.made j _ hj') (hkm ▸ Nat.lt_irrefl _)
      · exact h.apart j k switch hj' hk'
  case accepted =>
    intro j switch hj
    obtain ⟨rfl, -⟩ | hj := hcases j switch hj
    · exact ha
    · exact h.accepted j switch hj
  case told =>
    intro j switch hj hfj
    obtain ⟨rfl, rfl⟩ | hj' := hcases j switch hj
    · exact (Function.update_self _ _ _).trans (h.unstarted j hi hf).symm
    · have hne : switch ≠ s.cancellations.made := Nat.ne_of_lt (h.made j switch hj')
      exact (Function.update_of_ne hne _ _).trans (h.told j switch hj' hfj)
  case unstarted =>
    intro j hj
    by_cases hji : j = i
    · subst hji
      exact h.unstarted j hi
    · exact h.unstarted j ((Function.update_of_ne hji _ _).symm.trans hj)

/-- A job that is over is no longer told of. -/
theorem told_finished (h : Told s) (i : ℕ) {list : Table ℤ (ℤ × Switch) Prod.fst} :
    Told { s with
      cancellations := { s.cancellations with list := list }
      finished := Function.update s.finished i true } := by
  have hfinished : ∀ j, Function.update s.finished i true j = false → s.finished j = false := by
    intro j hf
    by_cases hji : j = i
    · subst hji
      cases (Function.update_self _ _ _).symm.trans hf
    · exact (Function.update_of_ne hji _ _).symm.trans hf
  exact ⟨h.made, h.apart, h.accepted, fun j switch hj hf ↦ h.told j switch hj (hfinished j hf),
    fun j hj hf ↦ h.unstarted j hj (hfinished j hf)⟩

theorem told_cancel {request : Request} {call : Call} (h : Told s)
    (hi : s.accepted i = some (request, call)) (ht : timely.cancel i s) : Told { s with
      cancellations := s.cancellations.abort request.transfer
      cancelled := Function.update s.cancelled i true } := by
  obtain ⟨hown, hwithin⟩ := ht request call hi
  have hmade : (s.cancellations.abort request.transfer).made = s.cancellations.made := by
    unfold Cancellations.abort
    split <;> rfl
  have hother : ∀ j switch, j ≠ i → s.switch j = some switch →
      (s.cancellations.abort request.transfer).flipped switch = s.cancellations.flipped switch := by
    intro j switch hji hj
    unfold Cancellations.abort
    split
    next row hrow =>
      refine Function.update_of_ne (fun he ↦ hji ?_) _ _
      exact h.apart j i switch hj (he ▸ hown row hrow)
    next => rfl
  have hself : ∀ switch, Within s request switch →
      (s.cancellations.abort request.transfer).flipped switch = true := by
    intro switch hw
    unfold Cancellations.abort
    split
    next row hrow =>
      by_cases he : switch = row.2
      · exact he ▸ Function.update_self _ _ _
      · refine (Function.update_of_ne he _ _).trans (hw.resolve_left fun hl ↦ he ?_)
        exact congrArg Prod.snd (Option.some.inj (hl.symm.trans hrow))
    next hrow =>
      exact hw.resolve_left fun hl ↦ nomatch hl.symm.trans hrow
  constructor
  case made => exact fun j switch hj ↦ hmade.symm ▸ h.made j switch hj
  case apart => exact h.apart
  case accepted => exact h.accepted
  case told =>
    intro j switch hj hf
    by_cases hji : j = i
    · subst hji
      obtain ⟨switch', hs, hw⟩ := hwithin hf
      obtain rfl := Option.some.inj (hs.symm.trans hj)
      have hcancelled : Function.update s.cancelled j true j = true := Function.update_self _ _ _
      exact (hself _ hw).trans hcancelled.symm
    · refine (hother j switch hji hj).trans ((h.told j switch hj hf).trans ?_)
      exact (Function.update_of_ne hji _ _).symm
  case unstarted =>
    intro j hj hf
    by_cases hji : j = i
    · subst hji
      obtain ⟨switch, hs, -⟩ := hwithin hf
      cases hs.symm.trans hj
    · exact (Function.update_of_ne hji _ _).trans (h.unstarted j hj hf)

theorem told_disconnect (h : Told s) (ht : timely.disconnect s) : Told { s with
    cancellations := s.cancellations.allAbort
    cancelled := fun i ↦ s.cancelled i || ((s.accepted i).isSome && !s.finished i) } := by
  refine ⟨h.made, h.apart, h.accepted, fun j switch hj hf ↦ ?_, fun j hj hf ↦ ?_⟩
  · have hf : s.finished j = false := hf
    obtain ⟨⟨request, call⟩, ha⟩ := Option.isSome_iff_exists.mp (h.accepted j switch hj)
    obtain ⟨switch', hs, hw⟩ := ht j request call ha hf
    obtain rfl := Option.some.inj (hs.symm.trans hj)
    have hcancelled : (s.cancelled j || ((s.accepted j).isSome && !s.finished j)) = true := by
      simp only [ha, hf, Option.isSome_some, Bool.not_false, Bool.and_self, Bool.or_true]
    have hflipped : s.cancellations.allAbort.flipped switch' = true := by
      simp only [Cancellations.allAbort, Bool.or_eq_true, List.any_eq_true, decide_eq_true_eq]
      refine hw.symm.imp id fun hl ↦ ⟨(request.transfer, switch'), ?_, rfl⟩
      exact ((Table.find?_eq_some_iff _).mp hl).1
    exact hflipped.trans hcancelled.symm
  · dsimp only at hj hf ⊢
    cases ha : s.accepted j with
    | none => simp only [h.unstarted j hj hf, Option.isSome_none, Bool.false_and, Bool.or_self]
    | some accepted =>
      obtain ⟨switch, hs, -⟩ := ht j accepted.1 accepted.2 ha hf
      cases hs.symm.trans hj

theorem told_callback (h : Told s) (hc : Callback timely s s') :
    Told s' ∧ ∀ i, discipline.rely i s s' := by
  cases hc with
  | @accept j request hj =>
    have hsome : ∀ i, (s.accepted i).isSome = true →
        (Function.update s.accepted j (some request) i).isSome = true := by
      intro i hi
      by_cases hij : i = j
      · rw [hij, Function.update_self, Option.isSome_some]
      · rwa [Function.update_of_ne hij]
    refine ⟨⟨h.made, h.apart, fun i switch hi ↦ hsome i (h.accepted i switch hi), h.told,
      h.unstarted⟩, fun i ↦ ⟨rfl, rfl, hsome i⟩⟩
  | cancel hj ht => exact ⟨told_cancel h hj ht, fun i ↦ ⟨rfl, rfl, id⟩⟩
  | disconnect ht => exact ⟨told_disconnect h ht, fun i ↦ ⟨rfl, rfl, id⟩⟩

theorem told_serve {r : Ask} {a : Answer r} (h : Told s) (hok : discipline.ok i r s)
    (hs : Scene.serve i r s a s') : Told s' ∧ ∀ j, j ≠ i → discipline.rely j s s' := by
  cases r with
  | signIn transfer =>
    obtain ⟨hswitch, hfinished, haccepted⟩ := hok
    obtain ⟨rfl, rfl⟩ := hs
    refine ⟨told_signIn h hswitch hfinished haccepted, fun j hj ↦ ⟨?_, rfl, id⟩⟩
    exact Function.update_of_ne hj _ _
  | signOut transfer =>
    obtain rfl := hs
    refine ⟨told_finished h i, fun j hj ↦ ⟨rfl, ?_, id⟩⟩
    exact Function.update_of_ne hj _ _
  | look switch =>
    obtain ⟨-, rfl⟩ := hs
    exact ⟨h, fun j _ ↦ ⟨rfl, rfl, id⟩⟩
  | _ =>
    obtain rfl := hs
    exact ⟨h, fun j _ ↦ ⟨rfl, rfl, id⟩⟩

end Kept

section Jobs

variable {unicode : Unicode} {source : Source} {occasion : Occasion} {i : ℕ} {s : Scene}
  {switch : Switch} {request : Request}

/-- What a job asks between signing in and signing out. -/
def inside (switch : Switch) : Ask → Prop
  | .signIn _ => False
  | .signOut _ => False
  | .look s => s = switch
  | _ => True

theorem sound_inside {α : Type} {p : Job α} (hp : p.Asks (inside switch)) (h : Under i switch s) :
    (discipline.contract (rules unicode source occasion) i).Sound p (fun _ ↦ Under i switch) s := by
  refine sound_of_asks hp (fun r s' hkind hu ↦ ?_) (fun s' s'' hu hr ↦ hu.rely hr.1) h
  cases r with
  | signIn transfer => cases hkind
  | signOut transfer => cases hkind
  | look switch' =>
    obtain rfl : switch' = switch := hkind
    exact ⟨hu, fun a s'' hs ↦ hs.2 ▸ hu⟩
  | _ => exact ⟨trivial, fun a s'' hs ↦ hs ▸ hu⟩

theorem inside_of_sink {r : Ask} (h : ofSink switch r) : inside switch r := by
  cases r with
  | signIn transfer => exact h
  | signOut transfer => exact h
  | look switch' => exact h
  | _ => trivial

theorem asks_obtainList (request : Request) (container : Container) (switch : Switch) :
    (obtainList unicode request container switch).Asks (inside switch) := by
  refine asks_bind (asks_call trivial) fun answer ↦ ?_
  cases answer with
  | error error => exact asks_call trivial
  | ok should =>
    unfold deliverList
    dsimp only
    split
    · exact asks_call trivial
    · refine asks_bind (asks_call rfl) fun abort ↦ ?_
      cases abort with
      | true => trivial
      | false =>
        refine asks_bind (asks_call trivial) fun handed ↦ ?_
        cases handed with
        | true => trivial
        | false => exact asks_call trivial

theorem asks_deliverContent (request : Request) (identifier : EntryIdentifier) (switch : Switch) :
    (deliverContent source request identifier switch).Asks (inside switch) := by
  refine asks_bind (Asks.mono (source.sink _ _ _) fun _ ↦ inside_of_sink) fun answer ↦ ?_
  cases answer with
  | error error => trivial
  | ok receipt =>
    refine asks_bind (asks_call trivial) fun complete ↦ ?_
    cases complete <;> trivial

theorem asks_reportOpen (request : Request) (requiredOffset length : ℤ)
    (result : Except CloudStatus Unit) :
    (reportOpen request requiredOffset length result).Asks (inside switch) := by
  cases result with
  | ok _ => trivial
  | error status =>
    refine asks_bind (asks_call trivial) fun sent ↦ ?_
    split
    · exact asks_call trivial
    · trivial

/-- A job signs in, stays inside, and signs out. -/
theorem sound_job {transfer : ℤ} {p : Switch → Job Unit}
    (hi : s.switch i = none) (hf : s.finished i = false) (ha : (s.accepted i).isSome = true)
    (hp : ∀ switch, (p switch).Asks (inside switch)) :
    (discipline.contract (rules unicode source occasion) i).Sound
      (ask (.signIn transfer) >>= fun switch ↦ p switch >>= fun _ ↦ ask (.signOut transfer))
      (fun _ _ ↦ True) s := by
  refine sound_call_bind ⟨hi, hf, ha⟩ fun switch s' s'' hs hr ↦ ?_
  obtain ⟨rfl, rfl⟩ := hs
  have hunder : Under i (s.cancellations.signIn transfer).1 s'' := by
    refine ⟨hr.1.1.trans (Function.update_self _ _ _), hr.1.2.1.trans hf⟩
  refine sound_bind.mpr (sound_mono (fun _ s₁ _ ↦ ?_) (sound_inside (hp _) hunder))
  exact ⟨trivial, fun _ _ _ _ _ ↦ trivial⟩

theorem safe_start {p : Job Unit} (hs : (rules unicode source occasion).start i p s) :
    discipline.Safe (rules unicode source occasion) i p s := by
  obtain ⟨request, call, ha, hswitch, hfinished, rfl⟩ := hs
  intro s' hr hinv
  have hswitch' : s'.switch i = none := hr.1.trans hswitch
  have hfinished' : s'.finished i = false := hr.2.1.trans hfinished
  have haccepted : (s'.accepted i).isSome = true := hr.2.2 (ha ▸ rfl)
  cases call with
  | list container =>
    exact sound_job hswitch' hfinished' haccepted (asks_obtainList request container)
  | content identifier requiredOffset length =>
    have hjob : Call.job unicode source request (.content identifier requiredOffset length) =
        ask (.signIn request.transfer) >>= fun switch ↦
          (deliverContent source request identifier switch >>=
            reportOpen request requiredOffset length) >>= fun _ ↦ ask (.signOut request.transfer) :=
      congrArg (ask (.signIn request.transfer) >>= ·)
        (funext fun switch ↦ (Program.bind_assoc _ _ _).symm)
    rw [hjob]
    refine sound_job hswitch' hfinished' haccepted fun switch ↦ ?_
    exact asks_bind (asks_deliverContent request identifier switch) fun result ↦
      asks_reportOpen request requiredOffset length result

end Jobs

section Runs

variable {unicode : Unicode} {source : Source}

theorem kept : discipline.Kept (rules unicode source timely) (· = .empty) where
  refl _ _ := ⟨rfl, rfl, id⟩
  trans _ _ _ _ h h' := ⟨h'.1.trans h.1, h'.2.1.trans h.2.1, h'.2.2 ∘ h.2.2⟩
  enter := by
    rintro s rfl
    exact ⟨nofun, nofun, nofun, nofun, fun _ _ _ ↦ rfl⟩
  start _ _ _ _ hs := safe_start hs
  serve _ _ _ _ _ h hok hs := told_serve h hok hs
  finish := by
    rintro i s _ h - rfl
    exact ⟨h, fun _ _ ↦ ⟨rfl, rfl, id⟩⟩
  abort := by
    rintro i s _ h rfl
    exact ⟨told_finished h i, fun j hj ↦ ⟨rfl, Function.update_of_ne hj _ _, id⟩⟩
  restart _ _ _ := False.elim
  outside _ _ h hc := told_callback h hc

/-- Where cancellations and disconnections come in time, every job hears of its own, from its first
look on, and of no other one. -/
theorem heard_of_run {c : Pool Ask Answer Scene}
    (h : (rules unicode source timely).Run (· = .empty) c) : Heard c := by
  intro i switch next hnext
  obtain ⟨hswitch, hfinished⟩ := Discipline.ok_of_run kept h hnext
  exact (Discipline.run_kept kept h).1.told i switch hswitch hfinished

/-- A source that looks at the switch before it writes anything. -/
def looking : Source :=
  ⟨fun _ _ switch ↦ .ask (.look switch) fun _ ↦ .done (.error .cancelled),
    fun _ _ _ ↦ ⟨rfl, fun _ ↦ trivial⟩⟩

def opening : Request × Call :=
  (⟨7, 4096, none⟩, .content (.container .root) 0 (-1))

/-- The request was accepted. -/
def accepted : Scene :=
  { Scene.empty with accepted := Function.update (fun _ ↦ none) 0 (some opening) }

/-- Its job was started by a thread of the pool. -/
def started (s : Scene) : Pool Ask Answer Scene :=
  ⟨s, Function.update (fun _ ↦ none) 0 (some (opening.2.job ⟨id, id⟩ looking opening.1))⟩

theorem run_started (occasion : Occasion) :
    (rules ⟨id, id⟩ looking occasion).Run (· = .empty) (started accepted) := by
  have haccepted : (rules ⟨id, id⟩ looking occasion).Run (· = .empty) ⟨accepted, fun _ ↦ none⟩ :=
    .step (.first rfl) (.outside (.accept rfl))
  exact .step haccepted (.start rfl ⟨_, _, rfl, rfl, rfl, rfl⟩)

/-- What is left of the job once it has its switch. -/
def signedIn (switch : Switch) : Job Unit := do
  let result ← deliverContent looking opening.1 (.container .root) switch
  reportOpen opening.1 0 (-1) result
  ask (.signOut 7)

/-- The job is about to look at its switch. -/
def about (s : Scene) : Pool Ask Answer Scene :=
  ⟨{ s with
      cancellations := (s.cancellations.signIn 7).2
      switch := Function.update s.switch 0 (some 0) },
    Function.update (started s).running 0 (some (signedIn 0))⟩

theorem run_about {occasion : Occasion} {s : Scene} (hmade : s.cancellations.made = 0)
    (h : (rules ⟨id, id⟩ looking occasion).Run (· = .empty) (started s)) :
    (rules ⟨id, id⟩ looking occasion).Run (· = .empty) (about s) := by
  have hs : Scene.serve 0 (.signIn 7) s (0 : Switch) (about s).state := ⟨hmade.symm, rfl⟩
  have hrunning : (started s).running 0 = some (.ask (.signIn 7) signedIn) := rfl
  exact .step h (Rules.Step.ask hrunning hs)

/-- The transfer is cancelled once its job has signed in, and the job is about to see it. -/
theorem heard_in_time : ∃ c : Pool Ask Answer Scene,
    (rules ⟨id, id⟩ looking timely).Run (· = .empty) c ∧ c.state.cancelled 0 = true ∧ Heard c := by
  have habout := run_about rfl (run_started timely)
  have haccepted : (about accepted).state.accepted 0 = some (opening.1, opening.2) := rfl
  have htimely : timely.cancel 0 (about accepted).state := by
    rintro request call hr
    obtain ⟨rfl, rfl⟩ := Prod.mk.inj (Option.some.inj hr)
    refine ⟨?_, fun _ ↦ ⟨0, rfl, .inl rfl⟩⟩
    rintro row hrow
    obtain rfl := Option.some.inj hrow
    rfl
  have hcancelled := Rules.Run.step habout (.outside (Callback.cancel haccepted htimely))
  exact ⟨_, hcancelled, rfl, heard_of_run hcancelled⟩

/-- A transfer is cancelled before its job has signed in, and the job sees nothing of it. -/
theorem cancellation_lost : ¬ ∀ unicode source c,
    (rules unicode source always).Run (· = .empty) c → Heard c := by
  intro hall
  have hcancelled : (rules ⟨id, id⟩ looking always).Run (· = .empty)
      (started { accepted with cancelled := Function.update accepted.cancelled 0 true }) :=
    .step (run_started always) (.outside (.cancel rfl trivial))
  have hheard := hall _ _ _ (run_about rfl hcancelled)
  cases hheard 0 0 _ rfl

end Runs

end FolderClient.Cfapi.CancelRuns
