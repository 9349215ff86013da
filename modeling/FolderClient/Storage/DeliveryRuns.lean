import FolderClient.Library.Histories
import FolderClient.Storage.Delivery

namespace FolderClient.Storage.DeliveryRuns

open FolderClient.Core.Namespace FolderClient.Core.Delivery FolderClient.Storage.Basic
open FolderClient.Library.Tables FolderClient.Library.Histories FolderClient.Storage.Delivery

/-- The operations that write the delivery table. -/
inductive Operation
  | acceptCommand (command : CommandIdentifier) (received : Timestamp)
  | setOutcome (command : CommandIdentifier) (outcome : CommandOutcome)
  | markAcknowledged (command : CommandIdentifier)
  | clearDelivery (before : Timestamp)

/-- The store at the commit of an operation; one that returns an error does not reach it. -/
def outcome (s : Store) : Operation → Except StoreError Store
  | .acceptCommand command received => .ok (s.acceptCommand command received).2
  | .setOutcome command outcome => s.setOutcome command outcome
  | .markAcknowledged command => s.markAcknowledged command
  | .clearDelivery before => .ok (s.clearDelivery before)

/-- An operation runs to its end, or the database or the program gives up before the commit. -/
inductive Event
  | ran (operation : Operation)
  | brokenOff (operation : Operation)

/-- What was not committed is rolled back. -/
def perform (s : Store) : Event → Store
  | .ran operation => (outcome s operation).toOption.getD s
  | .brokenOff _ => s

variable {s : Store} {command : CommandIdentifier}

theorem perform_of_ok {s' : Store} (operation : Operation) (h : outcome s operation = .ok s') :
    perform s (.ran operation) = s' := by
  simp [perform, h, Except.toOption]

/-- An operation that fails leaves the store as it was. -/
theorem perform_of_error (operation : Operation) {error : StoreError}
    (h : outcome s operation = .error error) : perform s (.ran operation) = s := by
  simp [perform, h, Except.toOption]

/-- What an event can do to the row of a command. -/
inductive Moved (command : CommandIdentifier) :
    Option CommandState → Event → Option CommandState → Prop
  | stays {row : Option CommandState} {e : Event} : Moved command row e row
  | accepted (received : Timestamp) :
      Moved command none (.ran (.acceptCommand command received))
        (some ⟨command, received, none, false, nofun⟩)
  | repeated {row : CommandState} (received : Timestamp) : row.outcome = some .failed →
      Moved command (some row) (.ran (.acceptCommand command received))
        (some ⟨command, row.received, none, false, nofun⟩)
  | settled {row : CommandState} (outcome : CommandOutcome) : row.acknowledged = false →
      Moved command (some row) (.ran (.setOutcome command outcome))
        (some ⟨command, row.received, some outcome, row.acknowledged, fun _ ↦ rfl⟩)
  | acknowledged {row : CommandState} (outcome : CommandOutcome) : row.outcome = some outcome →
      Moved command (some row) (.ran (.markAcknowledged command))
        (some ⟨command, row.received, some outcome, true, fun _ ↦ rfl⟩)
  | cleared {row : CommandState} (before : Timestamp) : row.acknowledged = true →
      Moved command (some row) (.ran (.clearDelivery before)) none

theorem commandState_clearDelivery (s : Store) (before : Timestamp) :
    (s.clearDelivery before).commandState command =
      (s.commandState command).filter fun r ↦
        !(r.acknowledged && r.received.unixMillis < before.unixMillis) :=
  s.delivery.find?_deleteWhere _ command

theorem moved_acceptCommand (s : Store) (other : CommandIdentifier) (received : Timestamp) :
    Moved command (s.commandState command) (.ran (.acceptCommand other received))
      ((s.acceptCommand other received).2.commandState command) := by
  by_cases hc : command = other
  · subst hc
    unfold Store.acceptCommand
    cases hrow : s.commandState command with
    | none => simpa using Moved.accepted received
    | some row =>
      dsimp only
      split
      · rw [hrow]
        exact .stays
      · rename_i ho
        simpa using Moved.repeated received ho
      · rw [hrow]
        exact .stays
  · rw [Store.commandState_acceptCommand_of_ne s received hc]
    exact .stays

theorem moved_perform (command : CommandIdentifier) (s : Store) (e : Event) :
    Moved command (s.commandState command) e ((perform s e).commandState command) := by
  cases e with
  | brokenOff operation => exact .stays
  | ran operation =>
    cases operation with
    | acceptCommand other received => exact moved_acceptCommand s other received
    | setOutcome other outcome =>
      cases h : s.setOutcome other outcome with
      | error e =>
        rw [perform_of_error (.setOutcome other outcome) h]
        exact .stays
      | ok s' =>
        rw [perform_of_ok (.setOutcome other outcome) h]
        obtain ⟨row, hrow, hack, rfl⟩ := Store.setOutcome_eq_ok h
        by_cases hc : command = other
        · subst hc
          simpa [hrow] using Moved.settled outcome hack
        · rw [Store.commandState_writeCommand, if_neg hc]
          exact .stays
    | markAcknowledged other =>
      cases h : s.markAcknowledged other with
      | error e =>
        rw [perform_of_error (.markAcknowledged other) h]
        exact .stays
      | ok s' =>
        rw [perform_of_ok (.markAcknowledged other) h]
        obtain ⟨row, outcome, hrow, hout, rfl⟩ := Store.markAcknowledged_eq_ok h
        by_cases hc : command = other
        · subst hc
          simpa [hrow] using Moved.acknowledged outcome hout
        · rw [Store.commandState_writeCommand, if_neg hc]
          exact .stays
    | clearDelivery before =>
      change Moved command _ _ ((s.clearDelivery before).commandState command)
      rw [commandState_clearDelivery]
      cases hrow : s.commandState command with
      | none => exact .stays
      | some row =>
        rw [Option.filter_some]
        split
        · exact .stays
        · rename_i hold
          exact .cleared before (by simp at hold; exact hold.1)

/-- The command's row is cleared by the event. -/
def Cleared (command : CommandIdentifier) (s : Store) (e : Event) : Prop :=
  s.commandState command ≠ none ∧ (perform s e).commandState command = none

/-- The command is redelivered and is to be executed once more. -/
def Repeated (command : CommandIdentifier) (s : Store) (e : Event) : Prop :=
  ∃ received, e = .ran (.acceptCommand command received) ∧
    (s.acceptCommand command received).1 = .repeat

/-- The execution is recorded as failed. -/
def Failed (command : CommandIdentifier) (_ : Store) (e : Event) : Prop :=
  e = .ran (.setOutcome command .failed)

/-- The delivery table in a state: what is acknowledged, what is still to be, and what is handed
out for running. -/
structure Settled (s : Store) : Prop where
  acknowledged : ∀ row ∈ s.delivery.rows, row.acknowledged = true → row.outcome ≠ none
  outbox : ∀ row, row ∈ s.openAcknowledgement ↔
    row ∈ s.delivery.rows ∧ row.outcome ≠ none ∧ row.acknowledged = false
  handedOut : ∀ command received row, s.commandState command = some row →
    row.outcome ≠ none → row.outcome ≠ some .failed →
      (s.acceptCommand command received).1.fromRun = false
  cleared : ∀ before, ∀ row ∈ s.openAcknowledgement, row ∈ (s.clearDelivery before).delivery.rows
  failing : ∀ operation error, outcome s operation = .error error →
    perform s (.ran operation) = s

theorem fromRun_acceptCommand {row : CommandState} (hrow : s.commandState command = some row)
    (received : Timestamp) :
    (s.acceptCommand command received).1.fromRun = true ↔
      row.outcome = none ∨ row.outcome = some .failed := by
  unfold Store.acceptCommand
  rw [hrow]
  dsimp only
  split
  · simp [Acceptance.fromRun, *]
  · simp [Acceptance.fromRun, *]
  · rename_i outcome hne hout
    simpa [Acceptance.fromRun, hout] using hne

theorem settled (s : Store) : Settled s where
  acknowledged row _ hack := Option.isSome_iff_ne_none.mp (row.settled hack)
  outbox row := by rw [Store.mem_openAcknowledgement, Option.isSome_iff_ne_none]
  handedOut command received row hrow hn hf := by
    rw [← Bool.not_eq_true, fromRun_acceptCommand hrow received]
    exact not_or.mpr ⟨hn, hf⟩
  cleared before row hrow := by
    obtain ⟨hr, -, hack⟩ := Store.mem_openAcknowledgement.mp hrow
    exact (Table.mem_deleteWhere ..).mpr ⟨hr, by simp [hack]⟩
  failing operation _ h := perform_of_error operation h

section Later

variable {later : List Event} {row : CommandState}

theorem cleared_of_moved {e : Event} {row : CommandState}
    (hrow : s.commandState command = some row)
    (hgone : (perform s e).commandState command = none) : Cleared command s e :=
  ⟨by rw [hrow]; exact Option.some_ne_none row, hgone⟩

/-- The time of the first receipt stays until the command is cleared. -/
theorem received_of_run (hrow : s.commandState command = some row) :
    (∃ row', (run perform s later).commandState command = some row' ∧
      row'.received = row.received) ∨ Somewhere perform (Cleared command) s later := by
  refine holds_or_somewhere (Q := fun s : Store ↦ ∃ row', s.commandState command = some row' ∧
    row'.received = row.received) ?_ ⟨row, hrow, rfl⟩
  rintro s e ⟨row', hrow', hreceived⟩
  have hm := moved_perform command s e
  rw [hrow'] at hm
  generalize hafter : (perform s e).commandState command = after at hm
  cases hm with
  | stays => exact .inl ⟨row', rfl, hreceived⟩
  | repeated received hf => exact .inl ⟨_, rfl, hreceived⟩
  | settled outcome hack => exact .inl ⟨_, rfl, hreceived⟩
  | acknowledged outcome hout => exact .inl ⟨_, rfl, hreceived⟩
  | cleared before hack => exact .inr (cleared_of_moved hrow' hafter)

theorem acceptCommand_of_failed (hrow : s.commandState command = some row)
    (hf : row.outcome = some .failed) (received : Timestamp) :
    (s.acceptCommand command received).1 = .repeat := by
  unfold Store.acceptCommand
  rw [hrow]
  dsimp only
  rw [hf]

/-- What is acknowledged stays as it is; only a failed outcome is discarded by a redelivery. -/
theorem acknowledged_of_run (hrow : s.commandState command = some row)
    (hack : row.acknowledged = true) :
    (run perform s later).commandState command = some row ∨
      Somewhere perform (fun s e ↦ Cleared command s e ∨
        row.outcome = some .failed ∧ Repeated command s e) s later := by
  refine holds_or_somewhere (Q := fun s : Store ↦ s.commandState command = some row) ?_ hrow
  intro s e hrow
  have hm := moved_perform command s e
  rw [hrow] at hm
  generalize hafter : (perform s e).commandState command = after at hm
  cases hm with
  | stays => exact .inl rfl
  | repeated received hf =>
    exact .inr (.inr ⟨hf, received, rfl, acceptCommand_of_failed hrow hf received⟩)
  | settled outcome hopen => exact absurd (hack.symm.trans hopen) Bool.noConfusion
  | acknowledged outcome hout =>
    obtain ⟨name, received, recorded, acknowledged, hsettled⟩ := row
    obtain rfl : name = command := Store.command_of_commandState hrow
    cases hack
    cases hout
    exact .inl rfl
  | cleared before _ => exact .inr (.inl (cleared_of_moved hrow hafter))

/-- An outcome that is not a failure stays one until the command is cleared or, before its
acknowledgement, is recorded as failed. -/
theorem outcome_of_run (hrow : s.commandState command = some row) (hn : row.outcome ≠ none)
    (hf : row.outcome ≠ some .failed) :
    (∃ row', (run perform s later).commandState command = some row' ∧ row'.outcome ≠ none ∧
      row'.outcome ≠ some .failed) ∨
      Somewhere perform (fun s e ↦ Cleared command s e ∨ Failed command s e) s later := by
  refine holds_or_somewhere (Q := fun s : Store ↦ ∃ row', s.commandState command = some row' ∧
    row'.outcome ≠ none ∧ row'.outcome ≠ some .failed) ?_ ⟨row, hrow, hn, hf⟩
  rintro s e ⟨row', hrow', hn', hf'⟩
  have hm := moved_perform command s e
  rw [hrow'] at hm
  generalize hafter : (perform s e).commandState command = after at hm
  cases hm with
  | stays => exact .inl ⟨row', rfl, hn', hf'⟩
  | repeated received hfailed => exact absurd hfailed hf'
  | settled outcome hack =>
    by_cases ho : outcome = .failed
    · subst ho
      exact .inr (.inr rfl)
    · exact .inl ⟨_, rfl, Option.some_ne_none _, by simpa using ho⟩
  | acknowledged outcome hout => exact .inl ⟨_, rfl, Option.some_ne_none _, fun h ↦ hf' (hout.trans h)⟩
  | cleared before _ => exact .inr (.inl (cleared_of_moved hrow' hafter))

end Later

/-- What a later history leaves of the row of a command, unless it is cleared in between. -/
structure Lasting (command : CommandIdentifier) (row : CommandState) (s : Store)
    (later : List Event) : Prop where
  received : ∃ row', (run perform s later).commandState command = some row' ∧
    row'.received = row.received
  acknowledged : row.acknowledged = true →
    (run perform s later).commandState command = some row ∨
      row.outcome = some .failed ∧ Somewhere perform (Repeated command) s later
  handedOut : row.outcome ≠ none → row.outcome ≠ some .failed →
    ¬Somewhere perform (Failed command) s later → ∀ received,
      ((run perform s later).acceptCommand command received).1.fromRun = false

/-- Over any history, crashes included, the delivery table is a state machine of its own for each
command. -/
theorem delivery_of_run (n limit : ℕ) (events : List Event) :
    Settled (run perform (Store.setUp n limit) events) ∧
      ∀ later command row,
        (run perform (Store.setUp n limit) events).commandState command = some row →
        Lasting command row (run perform (Store.setUp n limit) events) later ∨
          Somewhere perform (Cleared command) (run perform (Store.setUp n limit) events) later := by
  refine ⟨settled _, fun later command row hrow ↦ ?_⟩
  by_cases hc : Somewhere perform (Cleared command) (run perform (Store.setUp n limit) events) later
  · exact .inr hc
  refine .inl ⟨(received_of_run hrow).resolve_right hc, fun hack ↦ ?_, ?_⟩
  · refine (acknowledged_of_run hrow hack).imp_right fun h ↦ ?_
    obtain ⟨before, e, after, he, hcleared | ⟨hf, hr⟩⟩ := somewhere_iff.mp h
    · exact absurd (somewhere_iff.mpr ⟨before, e, after, he, hcleared⟩) hc
    · exact ⟨hf, somewhere_iff.mpr ⟨before, e, after, he, hr⟩⟩
  · intro hn hf hfailed received
    obtain ⟨row', hrow', hn', hf'⟩ := (outcome_of_run hrow hn hf).resolve_right fun h ↦ by
      obtain ⟨before, e, after, he, hcleared | hr⟩ := somewhere_iff.mp h
      · exact hc (somewhere_iff.mpr ⟨before, e, after, he, hcleared⟩)
      · exact hfailed (somewhere_iff.mpr ⟨before, e, after, he, hr⟩)
    exact (settled _).handedOut command received row' hrow' hn' hf'

end FolderClient.Storage.DeliveryRuns
