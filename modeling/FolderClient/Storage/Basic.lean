import FolderClient.Core.Changes
import FolderClient.Core.Delivery
import FolderClient.Core.Log
import FolderClient.Library.Tables
import FolderClient.Library.Texts

namespace FolderClient.Storage.Basic

open FolderClient.Core.Namespace FolderClient.Core.Changes FolderClient.Core.Delivery
open FolderClient.Core.Log FolderClient.Library.Tables FolderClient.Library.Texts

inductive StoreError
  | database
  | anchorExpired (anchor oldestSequence : ℕ)
  | anchorUnknown (anchor currentSequence : ℕ)
  | emptyPage
  | containerUnknown (container : Container)
  | foreignEntry (container : Container) (identifier : EntryIdentifier)
  | duplicateIdentifier (identifier : EntryIdentifier)
  | duplicateName (container : Container) (name : String)
  | wrongKind (identifier : EntryIdentifier)
  | withoutChecksum (identifier : EntryIdentifier)
  | commandUnknown (command : CommandIdentifier)
  | commandWithoutOutcome (command : CommandIdentifier)
  | commandAcknowledged (command : CommandIdentifier)
  | inboxUnknown (file : String)
  | ingestKeyInvalid (key : String)
  | emptyKey
  | deviceRowWithSubject
  | numberTooLarge (field : String) (value : ℕ)
  | corrupt (table : String) (reason : String)
deriving DecidableEq

/-- A truncated hit list. -/
structure TruncationState where
  displayUpperLimit : UInt64
  refineUrl : Option String
deriving DecidableEq

/-- What the engine knows about the last fetch of a container. -/
structure ContainerState where
  etag : Option String
  fetched : Timestamp
  truncation : Option TruncationState
deriving DecidableEq

structure EntryRow where
  parent : Container
  rank : ℕ
  entry : Entry
  document : Option DocumentIdentifier
deriving DecidableEq

structure StateRow where
  container : Container
  state : ContainerState
deriving DecidableEq

structure JournalRow where
  sequence : ℕ
  change : Change
  time : Timestamp
  document : Option DocumentIdentifier
deriving DecidableEq

/-- The highest number handed out, and the bound below which nothing is retained. -/
structure JournalState where
  last : ℕ
  lowerLimit : ℕ
deriving DecidableEq

structure ErasedRow where
  document : DocumentIdentifier
  time : Timestamp
deriving DecidableEq

/-- What is settled about a command; only an outcome is acknowledged. -/
structure CommandState where
  command : CommandIdentifier
  received : Timestamp
  outcome : Option CommandOutcome
  acknowledged : Bool
  settled : acknowledged = true → outcome.isSome = true
deriving DecidableEq

/-- Why a text is not usable as an account identifier. -/
def accountReason (sub : String) : Option String :=
  let chars := sub.toList
  if chars.isEmpty then some "it is empty"
  else if chars.head?.any isWhitespace || chars.getLast?.any isWhitespace then
    some "it has whitespace at the edges"
  else if chars.any isControl then some "it contains control characters"
  else none

/-- The opaque subject of a signed-in user. -/
structure Account where
  sub : String
  usable : accountReason sub = none
deriving DecidableEq

inductive SessionState
  | signedOut
  | awaitingApproval
  | signedIn
  | loginRequired
deriving DecidableEq, Repr

def SessionState.carriesLogin : SessionState → Bool
  | signedIn | loginRequired => true
  | _ => false

structure Login where
  account : Account
  tenant : String
  displayName : String
  signedInSince : Timestamp
deriving DecidableEq

/-- The one session row: a sign-in stands in it exactly in the signed-in states. -/
structure Session where
  device : DeviceIdentifier
  state : SessionState
  login : Option Login
  carried : state.carriesLogin = login.isSome
deriving DecidableEq

namespace Session

def signedOut (device : DeviceIdentifier) : Session := ⟨device, .signedOut, none, rfl⟩

def awaitingApproval (device : DeviceIdentifier) : Session :=
  ⟨device, .awaitingApproval, none, rfl⟩

def signedIn (device : DeviceIdentifier) (login : Login) : Session :=
  ⟨device, .signedIn, some login, rfl⟩

def loginRequired (device : DeviceIdentifier) (login : Login) : Session :=
  ⟨device, .loginRequired, some login, rfl⟩

def account (s : Session) : Option Account := s.login.map (·.account)

end Session

/-- A stored row of the usage log; without an account it belongs to the device. -/
structure LogRow where
  number : ℕ
  account : Option Account
  entry : LogEntry
deriving DecidableEq

/-- The local state: the tables of the database and its limits. -/
structure Store where
  entry : Table EntryIdentifier EntryRow (·.entry.identifier)
  containerState : Table Container StateRow (·.container)
  journal : Table ℕ JournalRow (·.sequence)
  journalState : JournalState
  erased : Table DocumentIdentifier ErasedRow (·.document)
  delivery : Table CommandIdentifier CommandState (·.command)
  session : Option Session
  setting : Table String (String × String) Prod.fst
  log : List LogRow
  lastLog : ℕ
  limit : ℕ
  logPerAccount : ℕ

namespace Store

/-- A freshly set-up database; `n` is the number at which its journal begins. -/
def setUp (n limit : ℕ) : Store where
  entry := .empty
  containerState := .empty
  journal := .empty
  journalState := ⟨n, n⟩
  erased := .empty
  delivery := .empty
  session := none
  setting := .empty
  log := []
  lastLog := 0
  limit := limit
  logPerAccount := 5000

def fromU64 (value : ℕ) (field : String) : Except StoreError ℕ :=
  if value < 2 ^ 63 then .ok value else .error (.numberTooLarge field value)

end Store

end FolderClient.Storage.Basic
