import FolderClient.Storage.Columns
import FolderClient.Storage.Ingest

namespace FolderClient.Storage.RawRows

open FolderClient.Core.Namespace FolderClient.Core.Delivery FolderClient.Core.Log
open FolderClient.Core.IdentifierText FolderClient.Engine.Transfers
open FolderClient.Storage.Basic FolderClient.Storage.Columns FolderClient.Storage.Ingest

section Source

def kindFolder : String := "FOLDER"

def kindFile : String := "FILE"

def require {α : Type} (value : Option α) (error : StoreError) : Except StoreError α :=
  match value with
  | some a => .ok a
  | none => .error error

def transpose {α β : Type} (f : α → Except StoreError β) : Option α → Except StoreError (Option β)
  | none => .ok none
  | some a => (f a).map some

/-- One row from `entry`, not yet checked. -/
structure RawEntry where
  identifier : String
  name : String
  kind : String
  size : Option Int64
  sha256 : Option String
  version : Option String
  created : Option Int64
  changed : Option Int64
  mediaType : Option String
  rank : Int64
deriving DecidableEq

def readSum (hex : String) : Except StoreError Sha256Value :=
  require (Sha256Value.fromHex hex)
    (.corrupt "entry" ("`" ++ hex ++ "` is not a checksum of the form sha256:<64 lower-case hex digits>"))

namespace RawEntry

def missing (raw : RawEntry) (field : String) : StoreError :=
  .corrupt "entry" s!"file “{raw.identifier}” without column {field}"

def details (raw : RawEntry) : Except StoreError FileDetails := do
  let stored ← require raw.size (raw.missing "size")
  let size ← toU64 stored "entry" "size"
  let sha256 ← transpose readSum raw.sha256
  let version ← require raw.version (raw.missing "version")
  let created ← require raw.created (raw.missing "created")
  let changed ← require raw.changed (raw.missing "changed")
  let mediaType ← require raw.mediaType (raw.missing "media_type")
  return ⟨UInt64.ofNat size, sha256, version, fromUnixMillis created, fromUnixMillis changed,
    mediaType⟩

def content (raw : RawEntry) : Except StoreError EntryContent :=
  if raw.kind = kindFolder then .ok .folder
  else if raw.kind = kindFile then raw.details.map .file
  else .error (.corrupt "entry" s!"unknown kind “{raw.kind}”")

def entry (raw : RawEntry) : Except StoreError (Entry × Int64) := do
  let identifier ← readEntryId raw.identifier "entry" "identifier"
  let content ← raw.content
  return (⟨identifier, raw.name, content⟩, raw.rank)

/-- What the columns of a row have to meet of themselves. -/
def allowed (raw : RawEntry) : Bool :=
  0 ≤ raw.rank.toInt && raw.name ≠ "" && raw.size.all (0 ≤ ·.toInt) &&
    raw.sha256.all (fun hex ↦
      hex.toList.length = 64 && hex.toList.all (· ∈ Sha256Value.hexDigits)) &&
    ((raw.kind = kindFolder && raw.size.isNone && raw.sha256.isNone && raw.version.isNone &&
        raw.created.isNone && raw.changed.isNone && raw.mediaType.isNone) ||
      (raw.kind = kindFile && raw.size.isSome && raw.version.isSome && raw.created.isSome &&
        raw.changed.isSome && raw.mediaType.isSome))

end RawEntry

/-- One row from `container_state`, not yet checked. -/
@[ext]
structure RawState where
  etag : Option String
  fetched : Int64
  truncated : Int64
  upperLimit : Option Int64
  address : Option String
deriving DecidableEq

namespace RawState

def truncation (raw : RawState) : Except StoreError (Option TruncationState) := do
  let truncated ← boolFrom raw.truncated "container_state" "truncated"
  if truncated then
    let stored ← require raw.upperLimit
      (.corrupt "container_state" "truncated without display_limit")
    let upperLimit ← toU64 stored "container_state" "display_limit"
    return some ⟨UInt64.ofNat upperLimit, raw.address⟩
  else return none

def state (raw : RawState) : Except StoreError ContainerState :=
  raw.truncation.map fun truncation ↦ ⟨raw.etag, fromUnixMillis raw.fetched, truncation⟩

def allowed (raw : RawState) : Bool :=
  (raw.truncated = 0 || raw.truncated = 1) && raw.upperLimit.all (0 ≤ ·.toInt) &&
    (raw.truncated = 1 || (raw.upperLimit.isNone && raw.address.isNone)) &&
    (raw.truncated = 0 || raw.upperLimit.isSome)

end RawState

/-- One row from `log`, not yet checked. -/
structure RawRow where
  id : Int64
  time : Int64
  kind : String
  name : Option String
  document : Option String
  location : Option String
  detail : Option String
deriving DecidableEq

namespace RawRow

def subject (name : Option String) (document : Option DocumentIdentifier)
    (location : Option String) : Except StoreError (Option Subject) :=
  match name with
  | some name => .ok (some ⟨name, document, location⟩)
  | none =>
    if document.isNone ∧ location.isNone then .ok none
    else .error (.corrupt "log" "document or location without a name")

/-- Only a row about an erasure can break the rules of its type. -/
def entryOf (time : Timestamp) (kind : LogKind) (subject : Option Subject)
    (detail : Option String) : Except StoreError LogEntry :=
  require (LogEntry.new time kind subject detail) (.corrupt "log"
    "a row of kind ErasedByOrder must not carry a subject — an erasure leaves no name behind")

def row (raw : RawRow) : Except StoreError (ℕ × LogEntry) := do
  let kind ← fromName logKind raw.kind "log" "kind"
  let document ← transpose (readId .document · "log" "document") raw.document
  let subject ← subject raw.name document raw.location
  let entry ← entryOf (fromUnixMillis raw.time) kind subject raw.detail
  let number ← toU64 raw.id "log" "id"
  return (number, entry)

end RawRow

/-- The row from `session`, not yet checked. -/
structure RawSession where
  device : String
  state : String
  account : Option String
  tenant : Option String
  displayName : Option String
  signedInSince : Option Int64
deriving DecidableEq

def accountOf (sub : String) : Except String Account :=
  match h : accountReason sub with
  | some reason => .error s!"`{sub}` is not usable as an account identifier: {reason}"
  | none => .ok ⟨sub, h⟩

def stateDebug : SessionState → String
  | .signedOut => "SignedOut"
  | .awaitingApproval => "AwaitingApproval"
  | .signedIn => "SignedIn"
  | .loginRequired => "LoginRequired"

/-- A session from its parts, where state and sign-in fit together. -/
def sessionOf (device : DeviceIdentifier) (state : SessionState) (login : Option Login) :
    Except String Session :=
  if h : state.carriesLogin = login.isSome then .ok ⟨device, state, login, h⟩
  else if state.carriesLogin then
    .error s!"in state {stateDebug state} a sign-in belongs to the session; without it there would be no saying whose tree and whose usage log are shown"
  else
    .error s!"in state {stateDebug state} nobody is signed in; a sign-in passed in would be a name without a session"

namespace RawSession

def login (raw : RawSession) : Except StoreError (Option Login) :=
  match raw.account, raw.tenant, raw.displayName, raw.signedInSince with
  | some account, some tenant, some displayName, some since =>
    ((accountOf account).mapError (.corrupt "session")).map fun account ↦
      some ⟨account, tenant, displayName, fromUnixMillis since⟩
  | none, none, none, none => .ok none
  | _, _, _, _ => .error (.corrupt "session" "the sign-in is only half there")

def session (raw : RawSession) : Except StoreError Session := do
  let device ← readId .device raw.device "session" "device"
  let state ← fromName sessionState raw.state "session" "state"
  let login ← raw.login
  (sessionOf device state login).mapError (.corrupt "session")

end RawSession

/-- One row from `delivery`, not yet checked. -/
structure RawCommand where
  command : String
  received : Int64
  outcome : Option String
  acknowledged : Int64
deriving DecidableEq

namespace RawCommand

/-- What stands in the row; that an acknowledged command has an outcome is the table's check. -/
structure Read where
  command : CommandIdentifier
  received : Timestamp
  outcome : Option CommandOutcome
  acknowledged : Bool
deriving DecidableEq

def state (raw : RawCommand) : Except StoreError Read := do
  let command ← readId .command raw.command "delivery" "command"
  let outcome ← transpose (fromName commandOutcome · "delivery" "outcome") raw.outcome
  let acknowledged ← boolFrom raw.acknowledged "delivery" "acknowledged"
  return ⟨command, fromUnixMillis raw.received, outcome, acknowledged⟩

end RawCommand

/-- One row from `ingest`, not yet checked. -/
structure RawInbox where
  file : String
  key : String
  size : Int64
  changed : Int64
  upload : Option String
  created : Int64
deriving DecidableEq

namespace RawInbox

def pending (raw : RawInbox) : Except StoreError InboxPending := do
  let size ← toU64 raw.size "ingest" "size"
  let upload ← transpose (readId .upload · "ingest" "upload") raw.upload
  return ⟨raw.file, raw.key, size, fromUnixMillis raw.changed, upload, fromUnixMillis raw.created⟩

end RawInbox

end Source

end FolderClient.Storage.RawRows
