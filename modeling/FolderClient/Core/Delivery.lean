import FolderClient.Core.Namespace

namespace FolderClient.Core.Delivery

open FolderClient.Core.Namespace

def maxDocumentsPerCommand : ℕ := 500

def maxCommandsPerMinute : ℕ := 30

/-- Why a document is to leave this device. -/
inductive Reason
  | erasure
  | accessRevoked
  | spaceReclaim
deriving DecidableEq, Repr

/-- What is to be done at a location for an occasion. -/
structure Actions where
  unpin : Bool
  dehydrate : Bool
  removeEntry : Bool
  triggerReconcile : Bool
  notifyUser : Bool
  redactLog : Bool
deriving DecidableEq, Repr

def actions (reason : Reason) (pinned : Bool) : Actions :=
  match reason with
  | .erasure =>
    { unpin := pinned, dehydrate := true, removeEntry := true, triggerReconcile := false,
      notifyUser := true, redactLog := true }
  | .accessRevoked =>
    { unpin := pinned, dehydrate := true, removeEntry := false, triggerReconcile := true,
      notifyUser := false, redactLog := false }
  | .spaceReclaim =>
    { unpin := false, dehydrate := !pinned, removeEntry := false, triggerReconcile := false,
      notifyUser := false, redactLog := false }

/-- The closed catalogue of commands. -/
inductive Command
  | dehydrate (documents : List DocumentIdentifier) (reason : Reason)
  | reconcile (container : Option Container)
  | signOut
  | refreshKeys
deriving DecidableEq

inductive CommandOutcome
  | applied
  | notApplicable
  | rejected
  | failed
deriving DecidableEq, Repr

inductive CommandError
  | withoutDocument
  | tooMany (documents : ℕ)
deriving DecidableEq

/-- Checks a command against the volume limits before anything happens. -/
def check : Command → Except CommandError Unit
  | .dehydrate documents _ =>
    if documents.isEmpty then .error .withoutDocument
    else if maxDocumentsPerCommand < documents.length then .error (.tooMany documents.length)
    else .ok ()
  | _ => .ok ()

end FolderClient.Core.Delivery
