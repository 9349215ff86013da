import FolderClient.Engine.Reconcile

namespace FolderClient.Engine.Commands

open FolderClient.Net.Access
open FolderClient.Core.Namespace FolderClient.Core.Delivery FolderClient.Crypto.Anchoring
open FolderClient.Crypto.Entries FolderClient.Library.Json FolderClient.Storage.Basic
open FolderClient.Wire.Delivery FolderClient.Engine.Port FolderClient.Engine.Session
open FolderClient.Engine.Reconcile
open FolderClient.Engine.Port.CommandRequest (call)

/-- What comes together while dehydrating. -/
structure DehydrateSituation where
  effective : Bool
  failed : Bool
  toTrigger : List Container

namespace DehydrateSituation

def remember (s : DehydrateSituation) : DehydrateSituation := { s with failed := true }

def effectiveIf (s : DehydrateSituation) (b : Bool) : DehydrateSituation :=
  { s with effective := s.effective || b }

def triggering (s : DehydrateSituation) (container : Container) : DehydrateSituation :=
  { s with
    toTrigger := if container ∈ s.toTrigger then s.toTrigger else s.toTrigger ++ [container] }

/-- The listing a place stands in is fetched anew, when the reason asks for it. -/
def triggeredBy (s : DehydrateSituation) (reason : Reason) : EntryIdentifier → DehydrateSituation
  | .document place _ =>
    if (actions reason false).triggerReconcile then s.triggering (Container.ofLocation place) else s
  | _ => s

def outcome (s : DehydrateSituation) : CommandOutcome :=
  if s.failed then .failed else if s.effective then .applied else .notApplicable

end DehydrateSituation

/-- What stands on the disk at a place; an entry that is not there has nothing to release. -/
def stateAt : Except PlatformError LocalState → Option LocalState
  | .ok state => some state
  | .error (.notFound _) | .error .notReadyPosed => some {}
  | .error _ => none

def removeLocation (action : Actions) (location : EntryIdentifier)
    (situation : DehydrateSituation) : CommandActivity DehydrateSituation := do
  if action.removeEntry then
    match ← call (.platformRemove location) with
    | .ok () => return situation
    | .error _ => return situation.remember
  else
    return situation

/-- The order at one place: unpin, release, remove, in exactly this order. -/
def giveLocationFree (reason : Reason) (situation : DehydrateSituation)
    (location : EntryIdentifier) : CommandActivity DehydrateSituation := do
  match stateAt (← call (.platformState location)) with
  | none => return situation.remember
  | some state =>
    let action := actions reason state.pinned
    if action.dehydrate || action.unpin then
      match ← call (.platformDehydrate location action.unpin) with
      | .ok () => removeLocation action location situation
      | .error _ => removeLocation action location situation.remember
    else
      removeLocation action location situation

/-- The order at every place of a document. -/
def giveLocationsFree (fileSystem : Bool) (reason : Reason) :
    List EntryIdentifier → DehydrateSituation → CommandActivity DehydrateSituation
  | [], situation => return situation
  | location :: rest, situation => do
    let situation := situation.triggeredBy reason location
    if fileSystem then
      let situation ← giveLocationFree reason situation location
      giveLocationsFree fileSystem reason rest situation
    else
      giveLocationsFree fileSystem reason rest situation

/-- Takes a document out of the namespace, when the reason asks for it. -/
def forgetDocument (reason : Reason) (document : DocumentIdentifier)
    (situation : DehydrateSituation) : CommandActivity DehydrateSituation := do
  if (actions reason false).removeEntry then
    let time ← call (.reconcile (.session .now))
    match ← call (.removeDocumentEverywhere document time) with
    | .ok journal =>
      (registerWithPlatform journal).embed .reconcile
      return situation.effectiveIf true
    | .error _ => return situation.remember
  return situation

def redactLog (reason : Reason) (document : DocumentIdentifier)
    (situation : DehydrateSituation) : CommandActivity DehydrateSituation := do
  if (actions reason false).redactLog then
    match ← call (.redact document) with
    | .ok () => return situation
    | .error _ => return situation.remember
  return situation

def dehydrateDocument (fileSystem : Bool) (reason : Reason) (situation : DehydrateSituation)
    (document : DocumentIdentifier) : CommandActivity DehydrateSituation := do
  match ← call (.placements document) with
  | .error _ => return situation.remember
  | .ok locations =>
    let situation ← giveLocationsFree fileSystem reason locations
      (situation.effectiveIf !locations.isEmpty)
    let situation ← forgetDocument reason document situation
    redactLog reason document situation

def dehydrateEach (fileSystem : Bool) (reason : Reason) :
    List DocumentIdentifier → DehydrateSituation → CommandActivity DehydrateSituation
  | [], situation => return situation
  | document :: rest, situation => do
    let situation ← dehydrateDocument fileSystem reason situation document
    dehydrateEach fileSystem reason rest situation

/-- `DEHYDRATE`: ask at every place, compute the actions, do exactly that. -/
def dehydrate (documents : List DocumentIdentifier) (reason : Reason) :
    CommandActivity CommandOutcome := do
  let fileSystem ← call (.reconcile (.session .fileSystem))
  let situation ← dehydrateEach fileSystem reason documents ⟨false, false, []⟩
  call (.spawnReconciles situation.toTrigger)
  return situation.outcome

variable (setting : Setting)

/-- `REFRESH_KEYS`: fetches the server keys and writes the set forward. -/
def reconcileKeys : SessionFallible Unit := do
  let value ← raise ((← SessionRequest.call .fetchServerKey).valueFrom "the server keys")
  let offer ← crypto (KeyOffer.fromJson value)
  let set ← readKeySet setting
  let adoption ← crypto (set.adopt offer)
  writeKeySet setting adoption.set

def outcomeOf : Except EngineError Unit → CommandOutcome
  | .ok () => .applied
  | .error _ => .failed

/-- Executes a checked command and says how it came out. -/
def runFrom (identifier : CommandIdentifier) (command : Command) :
    CommandActivity CommandOutcome := do
  call (.runBegins identifier command)
  match command with
  | .dehydrate documents reason => dehydrate documents reason
  | .reconcile (some container) =>
    return outcomeOf (← ofReconcile (reconcileContainer setting container))
  | .reconcile none => return outcomeOf (← ofReconcile (reconcileEverything setting))
  | .signOut => return outcomeOf (← ofReconcile (ofSession (clearAfterSignOut setting)))
  | .refreshKeys => return outcomeOf (← ofReconcile (ofSession (reconcileKeys setting)))

/-- The window of the rate limit, in milliseconds. -/
def rateWindow : ℕ := 60000

/-- When the commands of the window were executed. -/
structure RateLimit where
  applied : List ℤ

/-- Takes a place in the window; `false` when none is free any more. -/
def RateLimit.take (limit : RateLimit) (now : ℤ) : Bool × RateLimit :=
  let applied := limit.applied.filter fun time ↦ (now - time).natAbs < rateWindow
  if maxCommandsPerMinute ≤ applied.length then (false, ⟨applied⟩)
  else (true, ⟨applied ++ [now]⟩)

/-- What becomes of an accepted command: its outcome, checked before it is executed. -/
def judge (envelope : CommandEnvelope) (rate : RateLimit) :
    CommandActivity (CommandOutcome × RateLimit) := do
  match ← ofReconcile (ofSession (readKeySet setting)) with
  | .error _ => return (.failed, rate)
  | .ok set =>
    match checkCommandSignature (.object envelope.raw) set with
    | .error _ => return (.rejected, rate)
    | .ok () =>
      match envelope.command setting.device with
      | .error _ => return (.rejected, rate)
      | .ok command =>
        let time ← call (.reconcile (.session .now))
        match rate.take time.unixMillis with
        | (false, rate) => return (.failed, rate)
        | (true, rate) =>
          let outcome ← runFrom setting envelope.commandId command
          return (outcome, rate)

end FolderClient.Engine.Commands
