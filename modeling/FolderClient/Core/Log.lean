import FolderClient.Core.Namespace

namespace FolderClient.Core.Log

open FolderClient.Core.Namespace

/-- What takes the place of a redacted name. -/
def redactedName : String := "REDACTED"

inductive LogKind
  | opened
  | openFailed
  | newVersion
  | spaceReclaimed
  | accessRevoked
  | erasedByOrder
  | ingestAccepted
  | ingestFailed
  | deviceRegistered
  | signedIn
  | signedOut
  | loginRequired
  | connectionLost
  | connectionRestored
  | securityWarning
deriving DecidableEq

def LogKind.mayCarrySubject : LogKind → Bool
  | erasedByOrder => false
  | _ => true

/-- What a row refers to. -/
structure Subject where
  name : String
  document : Option DocumentIdentifier
  location : Option String
deriving DecidableEq

/-- One row of the usage log; a row about an erasure has no subject. -/
structure LogEntry where
  time : Timestamp
  kind : LogKind
  subject : Option Subject
  detail : Option String
  nameless : subject.isSome = true → kind.mayCarrySubject = true
deriving DecidableEq

namespace LogEntry

/-- A row, where the kind may carry what is handed in. -/
def new (time : Timestamp) (kind : LogKind) (subject : Option Subject) (detail : Option String) :
    Option LogEntry :=
  if h : subject.isSome = true → kind.mayCarrySubject = true then
    some ⟨time, kind, subject, detail, h⟩
  else none

/-- The same row without the name: name replaced, document, location and detail removed. -/
def redacted (e : LogEntry) : LogEntry where
  time := e.time
  kind := e.kind
  subject := e.subject.map fun _ ↦ ⟨redactedName, none, none⟩
  detail := none
  nameless h := e.nameless (by simpa using h)

end LogEntry

end FolderClient.Core.Log
