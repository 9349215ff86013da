import FolderClient.Engine.Commands

namespace FolderClient.Engine.Channel

open FolderClient.Net.Access
open FolderClient.Core.Namespace FolderClient.Core.Delivery FolderClient.Library.Json
open FolderClient.Storage.Basic FolderClient.Storage.Delivery FolderClient.Wire.Delivery
open FolderClient.Engine.Port FolderClient.Engine.Reconcile FolderClient.Engine.Commands
open FolderClient.Engine.Port.Request (call)

/-- A request of the session within the delivery channel. -/
abbrev callSession (r : SessionRequest) : Activity (SessionAnswer r) :=
  call (.command (.reconcile (.session r)))

def connected (b : Bool) : Activity Unit := ((setConnected b).embed .reconcile).embed .command

/-- The longest time a poll stays open, in seconds. -/
def waitTime : ℕ := 25

/-- Asks for a device token; `false` means that the device is not set up or waits for approval. -/
def askDeviceToken : Fallible Request Answer Bool := do
  if (← store (callSession (.setting SettingKey.enrolled.text))) ≠ some "yes" then
    return false
  let result ← callSession .fetchDeviceToken
  match result with
  | .slotError ⟨_, .deviceApprovalPending, _⟩ => return false
  | _ =>
    let text ← raise (result.valueFrom "the device token")
    callSession (.setDeviceToken text)
    return true

/-- Makes sure there is a device token; `force` fetches a new one even when one is at hand. -/
def fetchDeviceToken (force : Bool) : Fallible Request Answer Bool := do
  if force then
    askDeviceToken
  else if ← call .hasDeviceToken then
    return true
  else
    askDeviceToken

/-- Sends an acknowledgement and notes it once the server has it. -/
def acknowledge (command : CommandIdentifier) (outcome : CommandOutcome) : Activity Unit := do
  if let .ok true := ← (fetchDeviceToken false).run then
    if let .ok () := ← call .idempotencyKey then
      if let .success _ := ← call (.acknowledge command outcome) then
        let _ ← call (.markAcknowledged command)

/-- Records the outcome and acknowledges it, in this order. -/
def complete (command : CommandIdentifier) (outcome : CommandOutcome) : Activity Unit := do
  if let .ok () := ← call (.setOutcome command outcome) then
    acknowledge command outcome

def acknowledgeEach : List CommandState → Activity Unit
  | [] => return
  | state :: rest => do
    if let some outcome := state.outcome then
      acknowledge state.command outcome
    acknowledgeEach rest

/-- Sends every acknowledgement an earlier run could not get rid of. -/
def emptyOutbox : Fallible Request Answer Unit := do
  let opened ← store (call .openAcknowledgement)
  acknowledgeEach opened

/-- How long the server holds a line open. -/
def askWaitTime : Activity ℕ := do
  match ← call .deviceStatus with
  | .success (some second) =>
    return if second.toNat < 2 ^ 32 then max 1 (min second.toNat waitTime) else waitTime
  | _ => return waitTime

def chosenWait : Option ℕ → Activity ℕ
  | some wait => return wait
  | none => askWaitTime

/-- The page after a cursor, with exactly one second attempt after a rejected token; a cursor that
is refused is discarded. -/
def collectPage (wait : ℕ) (cursor : Option String) : Fallible Request Answer DeliveryPage := do
  let result ← call (.deliveryCollect wait cursor)
  match result.valueFrom "the delivery channel" with
  | .ok page => return page
  | .error (.sessionExpired _) =>
    if ← fetchDeviceToken true then
      let result ← call (.deliveryCollect wait cursor)
      raise (result.valueFrom "the delivery channel")
    else
      return ⟨[], ""⟩
  | .error (.refused reason) =>
    if cursor.isSome then
      let _ ← store (call .deleteCursor)
    raise (.error (.refused reason))
  | .error e => raise (.error e)

/-- The next page of the long poll. -/
def fetchPage (wait : ℕ) : Fallible Request Answer DeliveryPage := do
  let cursor ← store (callSession (.setting settingCursor))
  if cursor = some "" then
    raise (.error (.internal "an empty cursor is no cursor"))
  else
    collectPage wait cursor

variable (setting : Setting)

/-- A single entry of the delivery page, from raw to acknowledged. -/
def process (value : Value) (rate : RateLimit) : Activity RateLimit := do
  match CommandEnvelope.fromValue value with
  | .error (.withoutIdentifier _) => return rate
  | .error (.unreadable command _) =>
    complete command .rejected
    return rate
  | .ok envelope =>
    let identifier := envelope.commandId
    let time ← callSession .now
    match ← call (.acceptCommand identifier time) with
    | .error _ => return rate
    | .ok (.done outcome acknowledged) =>
      if ¬ acknowledged then
        acknowledge identifier outcome
      return rate
    | .ok _ =>
      let (outcome, rate) ← (judge setting envelope rate).embed .command
      complete identifier outcome
      return rate

/-- The entries of a page one after another, never side by side. -/
def processEach : List Value → RateLimit → Activity Unit
  | [], _ => return
  | value :: rest, rate => do
    if ← callSession .isStopped then
      return
    let rate ← process setting value rate
    processEach rest rate

/-- What becomes of a page: its cursor is stored, then its entries are processed. -/
def workOff (rate : RateLimit) (page : DeliveryPage) : Fallible Request Answer Unit := do
  if page.nextCursor ≠ "" then
    store (call (.setCursor page.nextCursor))
  processEach setting page.items rate

/-- One round: token, outbox, poll, commands; `false` means that there is no device token. -/
def aRound (rate : RateLimit) (wait : Option ℕ) : Fallible Request Answer Bool := do
  if ← fetchDeviceToken false then
    emptyOutbox
    let wait ← chosenWait wait
    let page ← fetchPage wait
    workOff setting rate page
    return true
  else
    return false

/-- A turn of the beat: a round, and what it says about the connection. -/
def channel (rate : RateLimit) (wait : Option ℕ) (disturbed : Bool) : Activity Unit := do
  match ← (aRound setting rate wait).run with
  | .ok _ => if disturbed then connected true
  | .error (.noNetwork _) => if ¬ disturbed then connected false
  | .error _ => return

end FolderClient.Engine.Channel
