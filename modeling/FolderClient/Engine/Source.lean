import FolderClient.Engine.Hydration

namespace FolderClient.Engine.Source

open FolderClient.Core.Namespace FolderClient.Engine.Channel FolderClient.Engine.Hydration
open FolderClient.Engine.Port FolderClient.Engine.Reconcile FolderClient.Engine.Transfers
open FolderClient.Library.Programs FolderClient.Storage.Basic
open FolderClient.Engine.Port.Request (call)

/-- How long a remembered listing counts as fresh, in milliseconds. -/
def freshness : ℤ := 60000

/-- Whether a remembered listing is old enough to be pulled up in the background. -/
def stale (now fetched : Timestamp) : Bool :=
  let age := max (-2 ^ 63) (min (2 ^ 63 - 1) (now.unixMillis - fetched.unixMillis))
  age < 0 || freshness ≤ age

/-- A fetch of listings within a call of the platform. -/
def reconcile {α : Type} (p : ReconcileFallible α) : Activity (Except EngineError α) :=
  (ofReconcile p).embed .command

variable (setting : Setting)

/-- Translates a failed reconcile into the reason the user is shown. -/
def asSourceError (container : Container) : EngineError → SourceError
  | .noNetwork _ => .noNetwork
  | .enrollmentCodeMissing | .sessionExpired _ => .notSignedIn
  | .security notice | .refused notice => .server notice
  | .store (.containerUnknown _) => .notFound (.container container)
  | error => .internal (setting.describe error)

/-- The stored children; the root stands even without any fetch. -/
def readChildren (container : Container) : Delivery (List Entry) := do
  match ← callSource (.children container) with
  | .ok children => return children
  | .error (.containerUnknown _) =>
    if container = .root then return setting.rootEntries
    else raise (.error (.notFound (.container container)))
  | .error error => raise (.error (.internal (setting.describe (.store error))))

/-- The children of a container: what is remembered goes out at once, what was never fetched is
fetched first. -/
def children (container : Container) : Delivery (List Entry) := do
  if ← callSession .isStopped then
    raise (.error .notSignedIn)
  else
    let state ← raise ((← callSource (.containerState container)).mapError fun e ↦
      .internal (setting.describe (.store e)))
    match state with
    | none =>
      raise ((← reconcile (fetchIfNeeded setting Store.treeDepth container)).mapError
        (asSourceError setting container))
    | some state =>
      let time ← callSession .now
      if stale time state.fetched then
        call (.command (.spawnReconciles [container]))
    readChildren setting container

end FolderClient.Engine.Source
