import FolderClient.Core.Delivery
import FolderClient.Core.IdentifierText
import FolderClient.Core.Time
import FolderClient.Library.Json
import FolderClient.Library.Results

namespace FolderClient.Wire.Delivery

open FolderClient.Core.Namespace FolderClient.Core.Delivery FolderClient.Core.IdentifierText
open FolderClient.Core.Time FolderClient.Library.Json

/-- The kinds of the closed catalogue. -/
inductive CommandKind
  | dehydrate
  | reconcile
  | signOut
  | refreshKeys
deriving DecidableEq, Repr

namespace CommandKind

def wireValue : CommandKind → String
  | dehydrate => "DEHYDRATE"
  | reconcile => "RECONCILE"
  | signOut => "SIGN_OUT"
  | refreshKeys => "REFRESH_KEYS"

def fromWireValue (text : String) : Option CommandKind :=
  [dehydrate, reconcile, signOut, refreshKeys].find? (·.wireValue = text)

end CommandKind

/-- A page of the delivery channel: the commands raw, and the cursor of the next poll. -/
structure DeliveryPage where
  items : List Value
  nextCursor : String

/-- Why an entry is not a command envelope. -/
inductive EnvelopeError
  | withoutIdentifier (cause : String)
  | unreadable (command : CommandIdentifier) (cause : String)
deriving DecidableEq

def EnvelopeError.command : EnvelopeError → Option CommandIdentifier
  | .withoutIdentifier _ => none
  | .unreadable command _ => some command

/-- An instant with the text it was read from. -/
structure WireTimestamp where
  text : String
  timestamp : Timestamp
deriving DecidableEq

/-- A command from the delivery channel, read but not yet checked and not yet translated. -/
structure CommandEnvelope where
  raw : Members
  commandId : CommandIdentifier
  deviceId : DeviceIdentifier
  kind : String
  issuedAt : WireTimestamp
  payload : Value
  serverSignature : Option String

def textField (raw : Members) (field : String) : Except String String :=
  match raw.lookup field with
  | some (.string t) => .ok t
  | some _ => .error ("`" ++ field ++ "` is not a string")
  | none => .error ("`" ++ field ++ "` is missing")

def identifierField (kind : IdKind) (raw : Members) (field : String) :
    Except String (Identifier kind) := do
  (parse kind (← textField raw field)).mapError IdentifierError.display

def timeField (raw : Members) (field : String) : Except String WireTimestamp := do
  let t ← textField raw field
  match fromRfc3339 t with
  | .ok timestamp => return ⟨t, timestamp⟩
  | .error e => throw e.display

def signatureField (raw : Members) : Except String (Option String) :=
  match raw.lookup "serverSignature" with
  | none | some .null => .ok none
  | some (.string s) => .ok (some s)
  | some _ => .error "`serverSignature` is neither a string nor null"

/-- What follows the identifier of a command. -/
def readRest (raw : Members) (commandId : CommandIdentifier) : Except String CommandEnvelope := do
  let deviceId ← identifierField .device raw "deviceId"
  let kind ← textField raw "kind"
  let issuedAt ← timeField raw "issuedAt"
  match raw.lookup "payload" with
  | none => throw "`payload` is missing"
  | some payload =>
    let serverSignature ← signatureField raw
    return ⟨raw, commandId, deviceId, kind, issuedAt, payload, serverSignature⟩

/-- Why a command that has been read is not executed. -/
inductive CommandReadError
  | foreignDevice (expected actual : DeviceIdentifier)
  | withoutSignature
  | unknownKind (kind : String)
  | payload (catalogueKind : CommandKind)
  | duplicateDocument (document : DocumentIdentifier)
  | amount (error : CommandError)
deriving DecidableEq

section Payloads

def readDocument (v : Value) : Option DocumentIdentifier :=
  v.asStr.bind fun t ↦ (parse .document t).toOption

def reasonFromWireValue (text : String) : Option Reason :=
  if text = "ERASURE" then some .erasure
  else if text = "ACCESS_REVOKED" then some .accessRevoked
  else if text = "SPACE_RECLAIM" then some .spaceReclaim
  else none

/-- A variant without content: its name, or an object with nothing under its name. -/
def readReason : Value → Option Reason
  | .string t => reasonFromWireValue t
  | .object [(name, .null)] => reasonFromWireValue name
  | _ => none

/-- The values of the named fields and of no others, from an object or in their order. -/
def fields (names : List String) : Value → Option (List Value)
  | .object members =>
    if members.all (·.1 ∈ names) then names.mapM fun name ↦ members.lookup name else none
  | .array elements => if elements.length = names.length then some elements else none
  | _ => none

def readDehydratePayload (payload : Value) : Option (List DocumentIdentifier × Reason) := do
  match ← fields ["documentIds", "reason"] payload with
  | [documentIds, reason] =>
    let documents ← (← documentIds.asArray).mapM readDocument
    return (documents, ← readReason reason)
  | _ => none

def readReconcilePayload (payload : Value) : Option (Option String) := do
  match ← fields ["container"] payload with
  | [.null] => return none
  | [.string t] => return some t
  | _ => none

def readEmptyPayload (payload : Value) : Option Unit := do
  let _ ← fields [] payload

/-- The first document that stood in the list before. -/
def duplicate (seen : List DocumentIdentifier) :
    List DocumentIdentifier → Option DocumentIdentifier
  | [] => none
  | d :: rest => if d ∈ seen then some d else duplicate (d :: seen) rest

end Payloads

namespace CommandEnvelope

def fromValue (value : Value) : Except EnvelopeError CommandEnvelope :=
  match value.asObject with
  | none => .error (.withoutIdentifier "the entry is not an object")
  | some raw =>
    match identifierField .command raw "commandId" with
    | .error cause => .error (.withoutIdentifier cause)
    | .ok commandId => (readRest raw commandId).mapError (.unreadable commandId)

def catalogueKind (e : CommandEnvelope) : Option CommandKind := CommandKind.fromWireValue e.kind

def translate (kind : CommandKind) (payload : Value) : Except CommandReadError Command :=
  match kind with
  | .dehydrate =>
    match readDehydratePayload payload with
    | none => .error (.payload kind)
    | some (documents, reason) =>
      match duplicate [] documents with
      | some d => .error (.duplicateDocument d)
      | none => .ok (.dehydrate documents reason)
  | .reconcile =>
    match readReconcilePayload payload with
    | none => .error (.payload kind)
    | some none => .ok (.reconcile none)
    | some (some t) =>
      match containerFromText t with
      | .ok container => .ok (.reconcile (some container))
      | .error _ => .error (.payload kind)
  | .signOut => if (readEmptyPayload payload).isSome then .ok .signOut else .error (.payload kind)
  | .refreshKeys =>
    if (readEmptyPayload payload).isSome then .ok .refreshKeys else .error (.payload kind)

/-- The strict translation into the catalogue. -/
def command (e : CommandEnvelope) (ownDevice : DeviceIdentifier) :
    Except CommandReadError Command := do
  if e.deviceId ≠ ownDevice then throw (.foreignDevice ownDevice e.deviceId)
  if e.serverSignature.isNone then throw .withoutSignature
  match e.catalogueKind with
  | none => throw (.unknownKind e.kind)
  | some kind =>
    let command ← translate kind e.payload
    (check command).mapError .amount
    return command

end CommandEnvelope

/-- The identifier under which an entry of a page can be acknowledged. -/
def commandOf (value : Value) : Option CommandIdentifier :=
  match CommandEnvelope.fromValue value with
  | .ok e => some e.commandId
  | .error e => e.command

end FolderClient.Wire.Delivery
