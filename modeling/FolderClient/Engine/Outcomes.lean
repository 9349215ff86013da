import FolderClient.Engine.Effects
import FolderClient.Engine.Play

namespace FolderClient.Engine.Outcomes

open FolderClient.Net.Access
open FolderClient.Core.Namespace FolderClient.Core.Delivery FolderClient.Library.Json
open FolderClient.Library.Programs FolderClient.Library.Programs.Program
open FolderClient.Storage.Basic FolderClient.Storage.Delivery FolderClient.Wire.Delivery
open FolderClient.Engine.Port FolderClient.Engine.Commands FolderClient.Engine.Channel
open FolderClient.Engine.Effects FolderClient.Engine.Play

/-- The store holds the command with an outcome, and the outbox lists it until it is
acknowledged. -/
def Recorded (s : Store) (command : CommandIdentifier) : Prop :=
  ∃ row, s.commandState command = some row ∧ row.outcome.isSome = true ∧
    (row.acknowledged = false → row ∈ s.openAcknowledgement)

theorem recorded_of_outcome {s : Store} {command : CommandIdentifier} {row : CommandState}
    (h : s.commandState command = some row) (ho : row.outcome.isSome = true) :
    Recorded s command := by
  refine ⟨row, h, ho, fun ha ↦ Store.mem_openAcknowledgement.mpr ⟨?_, ho, ha⟩⟩
  exact ((s.delivery.find?_eq_some_iff).mp h).1

theorem recorded_of_delivery_eq {s s' : Store} {command : CommandIdentifier}
    (hd : s'.delivery = s.delivery) (h : Recorded s command) : Recorded s' command := by
  obtain ⟨row, hrow, ho, -⟩ := h
  have hrow' : s'.commandState command = some row := by
    rw [Store.commandState, hd]
    exact hrow
  exact recorded_of_outcome hrow' ho

theorem recorded_markAcknowledged {s s' : Store} {command other : CommandIdentifier}
    (hs : s.markAcknowledged other = .ok s') (h : Recorded s command) : Recorded s' command := by
  obtain ⟨row, hrow, ho, -⟩ := h
  obtain ⟨row', outcome, -, -, rfl⟩ := Store.markAcknowledged_eq_ok hs
  by_cases hc : command = other
  · exact recorded_of_outcome ((Store.commandState_writeCommand ..).trans (if_pos hc)) rfl
  · have hrow' : (s.writeCommand ⟨other, row'.received, some outcome, true,
        fun _ ↦ rfl⟩).commandState command = some row := by
      rw [Store.commandState_writeCommand, if_neg hc]
      exact hrow
    exact recorded_of_outcome hrow' ho

section Requests

/-- The requests of an acknowledgement. -/
def Acknowledging (command : CommandIdentifier) : Request → Prop
  | .command _ | .hasDeviceToken | .idempotencyKey => True
  | .acknowledge c _ | .markAcknowledged c => c = command
  | _ => False

theorem asks_store {R : Type} {A : R → Type} {α : Type} {kind : R → Prop}
    {p : Program R A (Except StoreError α)} (h : p.Asks kind) : (store p).run.Asks kind :=
  asks_bind h fun _ ↦ trivial

theorem asks_askDeviceToken (command : CommandIdentifier) :
    askDeviceToken.run.Asks (Acknowledging command) := by
  refine asks_fallible_bind (asks_store (asks_call trivial)) fun enrolled ↦ ?_
  split
  · trivial
  · refine asks_fallible_bind (asks_lift (asks_call trivial)) fun result ↦ ?_
    split
    · trivial
    · refine asks_fallible_bind trivial fun text ↦ ?_
      exact asks_fallible_bind (asks_lift (asks_call trivial)) fun _ ↦ trivial

theorem asks_fetchDeviceToken (command : CommandIdentifier) (force : Bool) :
    (fetchDeviceToken force).run.Asks (Acknowledging command) := by
  cases force with
  | true => exact asks_askDeviceToken command
  | false =>
    refine asks_fallible_bind (asks_lift (asks_call trivial)) fun has ↦ ?_
    split
    · trivial
    · exact asks_askDeviceToken command

theorem asks_acknowledge (command : CommandIdentifier) (outcome : CommandOutcome) :
    (acknowledge command outcome).Asks (Acknowledging command) := by
  refine asks_bind (asks_fetchDeviceToken command false) fun token ↦ ?_
  split
  · refine asks_bind (asks_call trivial) fun key ↦ ?_
    split
    · refine asks_bind (asks_call rfl) fun answer ↦ ?_
      split
      · exact asks_bind (asks_call rfl) fun _ ↦ trivial
      · trivial
    · trivial
  · trivial

end Requests

variable (setting : Setting) (i : ℕ)

/-- The delivery channel with a database that does not fail; others leave the commands alone. -/
def undisturbed : Contract Request Answer World where
  serve := serve setting False i
  rely w w' := w'.store.delivery = w.store.delivery
  ok _ _ := True

variable {setting i} {w : World} {command : CommandIdentifier}

theorem recorded_acknowledging {r : Request} {a : Answer r} {w' : World}
    (hr : Acknowledging command r) (h : serve setting False i r w a w')
    (hw : Recorded w.store command) : Recorded w'.store command := by
  obtain hs | hs := store_serve h
  · rw [hs]
    exact hw
  · cases r with
    | command request =>
      exact recorded_of_delivery_eq (sameChannel_commandEffect hs).1 hw
    | markAcknowledged c => exact recorded_markAcknowledged hs hw
    | hasDeviceToken | idempotencyKey | acknowledge =>
      rw [← Except.ok.inj hs]
      exact hw
    | _ => exact hr.elim

theorem sound_acknowledge (outcome : CommandOutcome) (hw : Recorded w.store command) :
    (undisturbed setting i).Sound (acknowledge command outcome)
      (fun _ w' ↦ Recorded w'.store command) w := by
  refine Contract.sound_of_asks (I := fun w : World ↦ Recorded w.store command)
    (asks_acknowledge command outcome) ?_ ?_ hw
  · intro r w₁ hr hw₁
    exact ⟨trivial, fun a w₂ hs ↦ recorded_acknowledging hr hs hw₁⟩
  · intro w₁ w₂ hw₁ hr
    exact recorded_of_delivery_eq hr hw₁

theorem recorded_of_settled {row : CommandState} (hrow : w.store.commandState command = some row)
    {outcome : CommandOutcome} {e : StoreError}
    (h : w.store.setOutcome command outcome = .error e) : Recorded w.store command := by
  unfold Store.setOutcome at h
  rw [hrow] at h
  dsimp only at h
  split at h
  · rename_i hack
    exact recorded_of_outcome hrow (row.settled hack)
  · cases h

theorem sound_complete {row : CommandState} (outcome : CommandOutcome)
    (hrow : w.store.commandState command = some row) :
    (undisturbed setting i).Sound (complete command outcome)
      (fun _ w' ↦ Recorded w'.store command) w := by
  refine ⟨trivial, fun a w₁ w₂ hs hr ↦ ?_⟩
  obtain ⟨hf, -⟩ | hs := hs
  · exact hf.elim
  · cases hop : w.store.setOutcome command outcome with
    | error e =>
      rw [hop] at hs
      obtain ⟨rfl, rfl⟩ := hs
      exact recorded_of_delivery_eq hr (recorded_of_settled hrow hop)
    | ok s =>
      rw [hop] at hs
      obtain ⟨rfl, rfl⟩ := hs
      obtain ⟨row', -, -, rfl⟩ := Store.setOutcome_eq_ok hop
      refine sound_acknowledge outcome (recorded_of_delivery_eq hr ?_)
      exact recorded_of_outcome ((Store.commandState_writeCommand ..).trans (if_pos rfl)) rfl

/-- Without a row the outcome is not recorded, and nothing else happens. -/
theorem sound_complete_unknown (outcome : CommandOutcome)
    (hrow : w.store.commandState command = none) :
    (undisturbed setting i).Sound (complete command outcome)
      (fun _ w' ↦ ¬ Recorded w'.store command) w := by
  refine ⟨trivial, fun a w₁ w₂ hs hr ↦ ?_⟩
  obtain ⟨hf, -⟩ | hs := hs
  · exact hf.elim
  · rw [Store.setOutcome, hrow] at hs
    obtain ⟨rfl, rfl⟩ := hs
    rintro ⟨row, hrow', -⟩
    rw [Store.commandState, hr] at hrow'
    cases hrow.symm.trans hrow'

theorem sound_judge {row : CommandState} (envelope : CommandEnvelope) (rate : RateLimit)
    (hrow : w.store.commandState command = some row) :
    (undisturbed setting i).Sound ((judge setting envelope rate).embed .command)
      (fun _ w' ↦ w'.store.commandState command = some row) w := by
  refine Contract.sound_embed.mpr (Contract.sound_of_all ?_ ?_ hrow)
  · intro r w₁ hw₁
    refine ⟨trivial, fun a w₂ hs ↦ ?_⟩
    rw [Store.commandState, (sameChannel_serveCommand hs).1]
    exact hw₁
  · intro w₁ w₂ hw₁ hr
    rw [Store.commandState, hr]
    exact hw₁

theorem sound_process_readable {value : Value} {envelope : CommandEnvelope}
    (h : CommandEnvelope.fromValue value = .ok envelope) (rate : RateLimit) :
    (undisturbed setting i).Sound (process setting value rate)
      (fun _ w' ↦ Recorded w'.store envelope.commandId) w := by
  rw [process, h]
  refine ⟨trivial, fun time w₁ w₂ _ _ ↦ ⟨trivial, fun a w₃ w₄ hs hr ↦ ?_⟩⟩
  obtain ⟨hf, -⟩ | hs := hs
  · exact hf.elim
  have ha : a = .ok (w₂.store.acceptCommand envelope.commandId time).1 := hs.1
  obtain ⟨row, hrow, hrun⟩ :=
    Store.commandState_acceptCommand w₂.store envelope.commandId time
  have hrow' : w₄.store.commandState envelope.commandId = some row := by
    rw [Store.commandState, hr, hs.2]
    exact hrow
  generalize (w₂.store.acceptCommand envelope.commandId time).1 = acceptance at ha hrun
  subst ha
  cases acceptance with
  | done outcome acknowledged =>
    have hrec : Recorded w₄.store envelope.commandId := by
      refine recorded_of_outcome hrow' ?_
      rw [Acceptance.fromRun, eq_comm, Option.isNone_eq_false_iff] at hrun
      exact hrun
    cases acknowledged with
    | true => exact hrec
    | false =>
      change Contract.Sound _
        (acknowledge envelope.commandId outcome >>= fun _ ↦ pure rate) _ w₄
      exact Contract.sound_bind.mpr (sound_acknowledge outcome hrec)
  | new | interrupted | «repeat» =>
    change Contract.Sound _ ((judge setting envelope rate).embed .command >>= fun x ↦
      complete envelope.commandId x.1 >>= fun _ ↦ pure x.2) _ w₄
    refine Contract.sound_bind.mpr (Contract.sound_mono ?_ (sound_judge envelope rate hrow'))
    intro x w₅ hw₅
    exact Contract.sound_bind.mpr (sound_complete x.1 hw₅)

theorem sound_process {value : Value} (hc : commandOf value = some command) (rate : RateLimit) :
    (undisturbed setting i).Sound (process setting value rate)
      (fun _ w' ↦ Recorded w'.store command ↔
        (∃ envelope, CommandEnvelope.fromValue value = .ok envelope) ∨
          (w.store.commandState command).isSome = true) w := by
  cases h : CommandEnvelope.fromValue value with
  | ok envelope =>
    obtain rfl : envelope.commandId = command := by simpa [commandOf, h] using hc
    refine Contract.sound_mono ?_ (sound_process_readable h rate)
    intro _ w' hw'
    exact iff_of_true hw' (.inl ⟨envelope, rfl⟩)
  | error e =>
    cases e with
    | withoutIdentifier cause => simp [commandOf, h, EnvelopeError.command] at hc
    | unreadable c cause =>
      obtain rfl : c = command := by simpa [commandOf, h, EnvelopeError.command] using hc
      rw [process, h]
      refine Contract.sound_bind.mpr ?_
      cases hrow : w.store.commandState c with
      | none =>
        refine Contract.sound_mono ?_ (sound_complete_unknown .rejected hrow)
        intro _ w' hw'
        refine iff_of_false hw' ?_
        rintro (⟨envelope, he⟩ | hn)
        · cases he
        · cases hn
      | some row =>
        refine Contract.sound_mono ?_ (sound_complete .rejected hrow)
        intro _ w' hw'
        exact iff_of_true hw' (.inr rfl)

/-- After an entry with a readable identifier has been processed, its command is recorded exactly
where the envelope was readable or the command had been accepted before. -/
theorem recorded_iff_of_process {setting : Setting} {i : ℕ} {value : Value}
    {command : CommandIdentifier} (hc : commandOf value = some command) {rate rate' : RateLimit}
    {w w' : World} (h : (undisturbed setting i).Runs (process setting value rate) w rate' w') :
    Recorded w'.store command ↔
      (∃ envelope, CommandEnvelope.fromValue value = .ok envelope) ∨
        (w.store.commandState command).isSome = true :=
  h.ends (sound_process hc rate)

section Orphan

theorem runs_process_orphan {setting : Setting} {i : ℕ} {value : Value}
    {command : CommandIdentifier} (hc : commandOf value = some command)
    (hn : (CommandEnvelope.fromValue value).isOk = false) (rate : RateLimit) {w : World}
    (hw : w.store.commandState command = none) :
    (undisturbed setting i).Runs (process setting value rate) w rate w := by
  cases h : CommandEnvelope.fromValue value with
  | ok envelope => rw [h] at hn; cases hn
  | error e =>
    cases e with
    | withoutIdentifier cause => simp [commandOf, h, EnvelopeError.command] at hc
    | unreadable c cause =>
      obtain rfl : c = command := by simpa [commandOf, h, EnvelopeError.command] using hc
      rw [process, h]
      have hs : serve setting False i (.setOutcome c .rejected) w
          (.error (.commandUnknown c)) w := by
        refine .inr ?_
        rw [Store.setOutcome, hw]
        exact ⟨rfl, rfl⟩
      exact .ask hs rfl (.done _ _)

/-- An identifier and nothing else. -/
def orphan : Value := .object [("commandId", .string "cmd_00000000000000000000000001")]

theorem commandOf_orphan : commandOf orphan = some ⟨1⟩ := by decide +kernel

theorem runs_orphan : (undisturbed plain 0).Runs (process plain orphan ⟨[]⟩) (freshEngine plain).state ⟨[]⟩
    (freshEngine plain).state :=
  runs_process_orphan commandOf_orphan (by decide +kernel) ⟨[]⟩ rfl

theorem orphan_recorded_iff :
    Recorded (freshEngine plain).state.store ⟨1⟩ ↔
      (∃ envelope, CommandEnvelope.fromValue orphan = .ok envelope) ∨
        ((freshEngine plain).state.store.commandState ⟨1⟩).isSome = true :=
  recorded_iff_of_process commandOf_orphan runs_orphan

theorem orphan_not_recorded :
    ¬ ∀ (setting : Setting) (i : ℕ) (value : Value) (command : CommandIdentifier)
        (rate rate' : RateLimit) (w w' : World), commandOf value = some command →
      (undisturbed setting i).Runs (process setting value rate) w rate' w' →
        Recorded w'.store command := by
  intro hall
  obtain ⟨row, hrow, -⟩ := hall plain 0 orphan ⟨1⟩ _ _ _ _ commandOf_orphan runs_orphan
  cases hrow

end Orphan

end FolderClient.Engine.Outcomes
