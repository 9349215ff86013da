import FolderClient.Storage.Basic

namespace FolderClient.Storage.Delivery

open FolderClient.Core.Namespace FolderClient.Core.Delivery FolderClient.Storage.Basic

/-- What is to be done with a command that has just arrived. -/
inductive Acceptance
  | new
  | interrupted
  | repeat
  | done (outcome : CommandOutcome) (acknowledged : Bool)
deriving DecidableEq

/-- Whether the command is to be executed (again). -/
def Acceptance.fromRun : Acceptance → Bool
  | .done _ _ => false
  | _ => true

def outboxLe (r r' : CommandState) : Prop :=
  r.received.unixMillis < r'.received.unixMillis ∨
    (r.received = r'.received ∧ r.command.value ≤ r'.command.value)

instance : DecidableRel outboxLe := fun _ _ ↦ inferInstanceAs (Decidable (_ ∨ _))

end FolderClient.Storage.Delivery

namespace FolderClient.Storage.Basic.Store

open FolderClient.Core.Namespace FolderClient.Core.Delivery FolderClient.Storage.Basic
open FolderClient.Storage.Delivery

/-- What is settled about a command; nothing when it was never accepted. -/
def commandState (s : Store) (command : CommandIdentifier) : Option CommandState :=
  s.delivery.find? command

def writeCommand (s : Store) (row : CommandState) : Store :=
  { s with delivery := s.delivery.upsert row }

/-- Accepts a delivered command and says what is to be done with it. -/
def acceptCommand (s : Store) (command : CommandIdentifier) (received : Timestamp) :
    Acceptance × Store :=
  match s.commandState command with
  | none => (.new, s.writeCommand ⟨command, received, none, false, nofun⟩)
  | some row =>
    match row.outcome with
    | none => (.interrupted, s)
    | some .failed => (.repeat, s.writeCommand ⟨command, row.received, none, false, nofun⟩)
    | some outcome => (.done outcome row.acknowledged, s)

/-- Records the outcome before the acknowledgement goes out. -/
def setOutcome (s : Store) (command : CommandIdentifier) (outcome : CommandOutcome) :
    Except StoreError Store :=
  match s.commandState command with
  | none => .error (.commandUnknown command)
  | some row =>
    if row.acknowledged then .error (.commandAcknowledged command)
    else .ok (s.writeCommand ⟨command, row.received, some outcome, row.acknowledged, fun _ ↦ rfl⟩)

/-- Notes that the server has accepted the acknowledgement. -/
def markAcknowledged (s : Store) (command : CommandIdentifier) : Except StoreError Store :=
  match s.commandState command with
  | none => .error (.commandUnknown command)
  | some row =>
    match row.outcome with
    | none => .error (.commandWithoutOutcome command)
    | some outcome => .ok (s.writeCommand ⟨command, row.received, some outcome, true, fun _ ↦ rfl⟩)

/-- The outbox: commands with an outcome that is not yet acknowledged, oldest first. -/
def openAcknowledgement (s : Store) : List CommandState :=
  (s.delivery.select fun r ↦ r.outcome.isSome && !r.acknowledged).insertionSort outboxLe

/-- Removes acknowledged commands that came in before a time. -/
def clearDelivery (s : Store) (before : Timestamp) : Store :=
  { s with
    delivery := s.delivery.deleteWhere fun r ↦
      r.acknowledged && r.received.unixMillis < before.unixMillis }

def settingOf (s : Store) (key : String) : Option String := (s.setting.find? key).map Prod.snd

def setSetting (s : Store) (key value : String) : Except StoreError Store :=
  if key = "" then .error .emptyKey
  else .ok { s with setting := s.setting.upsert (key, value) }

def deleteSetting (s : Store) (key : String) : Bool × Store :=
  (s.setting.contains key, { s with setting := s.setting.deleteWhere (·.1 = key) })

def setSession (s : Store) (session : Session) : Store := { s with session := some session }

@[simp] theorem commandState_writeCommand (s : Store) (row : CommandState)
    (command : CommandIdentifier) :
    (s.writeCommand row).commandState command =
      if command = row.command then some row else s.commandState command :=
  s.delivery.find?_upsert row command

theorem command_of_commandState {s : Store} {command : CommandIdentifier} {row : CommandState}
    (h : s.commandState command = some row) : row.command = command :=
  ((s.delivery.find?_eq_some_iff).mp h).2

theorem mem_openAcknowledgement {s : Store} {row : CommandState} :
    row ∈ s.openAcknowledgement ↔
      row ∈ s.delivery.rows ∧ row.outcome.isSome = true ∧ row.acknowledged = false := by
  simp [openAcknowledgement]

/-- An accepted command has a row, and none that is to be executed has an outcome. -/
theorem commandState_acceptCommand (s : Store) (command : CommandIdentifier)
    (received : Timestamp) : ∃ row,
      (s.acceptCommand command received).2.commandState command = some row ∧
        ((s.acceptCommand command received).1.fromRun = row.outcome.isNone) := by
  unfold acceptCommand
  cases hrow : s.commandState command with
  | none => exact ⟨_, (commandState_writeCommand ..).trans (if_pos rfl), rfl⟩
  | some row =>
    dsimp only
    split
    · exact ⟨row, hrow, by simp [*, Acceptance.fromRun]⟩
    · exact ⟨_, (commandState_writeCommand ..).trans (if_pos rfl), rfl⟩
    · exact ⟨row, hrow, by simp [*, Acceptance.fromRun]⟩

/-- Accepting a command leaves the rows of the others alone. -/
theorem commandState_acceptCommand_of_ne (s : Store) {command other : CommandIdentifier}
    (received : Timestamp) (h : other ≠ command) :
    (s.acceptCommand command received).2.commandState other = s.commandState other := by
  unfold acceptCommand
  cases s.commandState command with
  | none => simp [h]
  | some row =>
    dsimp only
    split <;> simp [h]

theorem setOutcome_eq_ok {s s' : Store} {command : CommandIdentifier} {outcome : CommandOutcome}
    (h : s.setOutcome command outcome = .ok s') :
    ∃ row, s.commandState command = some row ∧ row.acknowledged = false ∧
      s' = s.writeCommand
        ⟨command, row.received, some outcome, row.acknowledged, fun _ ↦ rfl⟩ := by
  unfold setOutcome at h
  split at h
  · cases h
  · rename_i row hrow
    split at h
    · cases h
    · rename_i hack
      exact ⟨row, hrow, by simpa using hack, (Except.ok.inj h).symm⟩

theorem markAcknowledged_eq_ok {s s' : Store} {command : CommandIdentifier}
    (h : s.markAcknowledged command = .ok s') :
    ∃ row outcome, s.commandState command = some row ∧ row.outcome = some outcome ∧
      s' = s.writeCommand ⟨command, row.received, some outcome, true, fun _ ↦ rfl⟩ := by
  unfold markAcknowledged at h
  split at h
  · cases h
  · rename_i row hrow
    split at h
    · cases h
    · rename_i outcome hout
      exact ⟨row, outcome, hrow, hout, (Except.ok.inj h).symm⟩

theorem settingOf_setSetting {s s' : Store} {key value key' : String}
    (h : s.setSetting key value = .ok s') :
    s'.settingOf key' = if key' = key then some value else s.settingOf key' := by
  unfold setSetting at h
  split at h
  · cases h
  · obtain rfl := Except.ok.inj h
    rw [settingOf, settingOf, Library.Tables.Table.find?_upsert]
    split <;> rfl

theorem settingOf_deleteSetting (s : Store) (key key' : String) :
    (s.deleteSetting key).2.settingOf key' = if key' = key then none else s.settingOf key' := by
  rw [deleteSetting, settingOf, settingOf, Library.Tables.Table.find?_deleteWhere]
  cases hfind : s.setting.find? key' with
  | none => simp
  | some row =>
    obtain ⟨-, rfl⟩ := (Library.Tables.Table.find?_eq_some_iff _).mp hfind
    by_cases hkey : row.1 = key <;> simp [Option.filter, hkey]

end FolderClient.Storage.Basic.Store
