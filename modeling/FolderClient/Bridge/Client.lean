import FolderClient.Bridge.Frame
import FolderClient.Bridge.Message

namespace FolderClient.Bridge.Client

open FolderClient.Bridge.Frame FolderClient.Bridge.Message FolderClient.Core.Changes
open FolderClient.Core.Namespace FolderClient.Engine.Transfers

/-- How many seconds the client waits without a single byte from the app. -/
def readDeadline : ℕ := 90

/-- What of the rendezvous file counts on the line. -/
structure Rendezvous where
  port : ℕ
  secret : String
  version : ℕ

/-- One end of a connection: what it will read, and what it has written. -/
structure Line where
  incoming : List Slice
  outgoing : Outgoing

/-- Steps on a line, up to the first error. -/
abbrev Talk (α : Type) := ExceptT BridgeError (StateM Line) α

def raise {α : Type} (r : Except BridgeError α) : Talk α := ExceptT.mk fun line ↦ (r, line)

def send (onError : WriteError → BridgeError) (json : Except String (List UInt8)) : Talk Unit :=
  ExceptT.mk fun line ↦
    match writeJson json line.outgoing with
    | (result, outgoing) => (result.mapError onError, { line with outgoing := outgoing })

def receive (limit : Limit) : Talk (Except ReadError Inbox) := ExceptT.mk fun line ↦
  match readInbox limit readDeadline line.incoming with
  | (result, incoming) => (.ok result, { line with incoming := incoming })

def writeErrorText : WriteError → String
  | .tooLarge size => s!"the message has {size} bytes; at most {maxMessage} are allowed"
  | .json reason => s!"the message cannot be written as JSON ({reason})"
  | .link reason => reason

def readErrorText : ReadError → String
  | .closed => "the far side closed the connection"
  | .deadline second => s!"{second} seconds without a byte"
  | .cancelled => "cancelled"
  | .log text => text
  | .link reason => reason

def afterHandshake : WriteError → BridgeError
  | .link reason => .torn reason
  | other => .log (writeErrorText other)

def translate : ReadError → BridgeError
  | .closed => .torn "the app closed the connection before the end of the answer"
  | .deadline second => .timeout second
  | .log text => .log text
  | .cancelled => .torn "cancelled"
  | .link reason => .torn reason

section Asking

variable (json : Json)

def readNotice (bytes : List UInt8) : Except BridgeError Notice :=
  (json.notice.decode bytes).mapError fun why ↦
    .log s!"the answer is not a message of the bridge ({why})"

/-- What comes in answer to HELLO. -/
def readWelcome (port : ℕ) : Except ReadError Inbox → Except BridgeError Unit
  | .ok (.json bytes) =>
    match json.notice.decode bytes with
    | .ok (.welcome read) =>
      if read = version then .ok () else .error (.wrongVersion version read)
    | .ok other => .error (.refused port (other.kind ++ " came instead of WELCOME"))
    | .error why =>
      .error (.refused port s!"the greeting is not a message of the bridge ({why})")
  | .ok (.data _ _) => .error (.refused port "a data chunk arrived instead of WELCOME")
  | .error (.deadline second) => .error (.timeout second)
  | .error .closed => .error (.refused port
      "the counterpart closed the connection without a greeting - wrong secret?")
  | .error why => .error (.refused port (readErrorText why))

/-- What the rendezvous file says, and whether its port accepts a connection. -/
structure Target where
  rendezvous : Except BridgeError Rendezvous
  connection : Except BridgeError Unit

/-- Connection plus handshake. -/
def openLine (target : Target) : Talk Unit := do
  let rendezvous ← raise target.rendezvous
  if rendezvous.version ≠ version then
    raise (.error (.wrongVersion version rendezvous.version))
  else
    raise target.connection
    send (fun why ↦ .refused rendezvous.port ("HELLO cannot be sent: " ++ writeErrorText why))
      (json.hello.encode ⟨version, rendezvous.secret⟩)
    let welcome ← receive .handshake
    raise (readWelcome json rendezvous.port welcome)

/-- What comes in answer to a request. -/
def readAnswer (request : Request) : Except ReadError Inbox → Except BridgeError Notice
  | .ok (.json bytes) => readNotice json bytes
  | .ok (.data _ _) => .error (.log ("a data chunk as the answer to " ++ request.kind))
  | .error why => .error (translate why)

/-- A request with a JSON answer. -/
def ask (target : Target) (request : Request) : Talk Notice := do
  openLine json target
  send afterHandshake (json.request.encode request)
  let answer ← receive .response
  raise (readAnswer json request answer)

/-- Unpacks an answer: the result of the engine, an ERROR of the app or a breach of the protocol. -/
def response {α : Type} (asked : Except BridgeError Notice) (expected : String)
    (take : Notice → Option (Except SourceError α)) : Except SourceError α :=
  match asked with
  | .error error => .error error.report
  | .ok (.error error) => .error error
  | .ok notice =>
    match take notice with
    | some result => result
    | none => .error (BridgeError.log
        ("the app answered " ++ expected ++ " with " ++ notice.kind)).report

def takeChildren : Notice → Option (Except SourceError (List Entry))
  | .children result => some result
  | _ => none

def takeEntry : Notice → Option (Except SourceError Entry)
  | .entry result => some result
  | _ => none

def takeCurrentSequence : Notice → Option (Except SourceError ℕ)
  | .currentSequence result => some result
  | _ => none

def takeChangesSince : Notice → Option (Except SourceError ChangeState)
  | .changesSince result => some result
  | _ => none

/-- The answers of a call, and the line after it. -/
def answered {α : Type} (target : Target) (line : Line) (request : Request) (expected : String)
    (take : Notice → Option (Except SourceError α)) : Except SourceError α × Line :=
  match (ask json target request).run line with
  | (asked, line) => (response asked expected take, line)

def children (target : Target) (line : Line) (container : Container) :
    Except SourceError (List Entry) × Line :=
  answered json target line (.children container) "CHILDREN" takeChildren

def entry (target : Target) (line : Line) (identifier : EntryIdentifier) :
    Except SourceError Entry × Line :=
  answered json target line (.entry identifier) "ENTRY" takeEntry

def currentSequence (target : Target) (line : Line) : Except SourceError ℕ × Line :=
  answered json target line .currentSequence "CURRENT_SEQUENCE" takeCurrentSequence

def changesSince (target : Target) (line : Line) (sequence max : ℕ) :
    Except SourceError ChangeState × Line :=
  answered json target line (.changesSince sequence max) "CHANGES_SINCE" takeChangesSince

/-- The sink of the platform: what it has received, and what it will answer when it is asked whether
the request was cancelled and when it is given bytes. -/
structure Sink where
  received : List (UInt64 × List UInt8)
  cancels : List Bool
  refusals : List (Option String)

namespace Sink

def cancelled (sink : Sink) : Bool × Sink :=
  match sink.cancels with
  | [] => (false, sink)
  | cancelled :: cancels => (cancelled, { sink with cancels := cancels })

def write (sink : Sink) (offset : UInt64) (bytes : List UInt8) : Except SourceError Unit × Sink :=
  match sink.refusals with
  | some reason :: refusals => (.error (.sink reason), { sink with refusals := refusals })
  | none :: refusals =>
    (.ok (), { sink with received := sink.received ++ [(offset, bytes)], refusals := refusals })
  | [] => (.ok (), { sink with received := sink.received ++ [(offset, bytes)] })

end Sink

/-- A data chunk into the sink, if it follows what has arrived; an empty one goes nowhere. -/
def takeData (actual : ℕ) (offset : UInt64) (bytes : List UInt8) (sink : Sink) :
    Except SourceError Unit × Sink :=
  if offset.toNat ≠ actual then
    (.error (BridgeError.log (s!"data chunk at offset {offset.toNat}, expected was {actual}; " ++
      "chunks must come ascending and without gaps")).report, sink)
  else if bytes.isEmpty then (.ok (), sink)
  else sink.write offset bytes

/-- What a message during a transfer comes to; nothing where the transfer goes on. -/
def takeMessage (actual : ℕ) (bytes : List UInt8) : Option (Except SourceError ContentReceipt) :=
  match readNotice json bytes with
  | .error error => some (.error error.report)
  | .ok (.progress _ _) => none
  | .ok (.finish receipt) =>
    if receipt.size = actual then some (.ok receipt)
    else some (.error (.incomplete receipt.size actual))
  | .ok (.error error) => some (.error error)
  | .ok other => some (.error (BridgeError.log
      (other.kind ++ " in the middle of a content transfer")).report)

/-- Receives frame after frame, until the transfer ends. -/
def transfer (actual : ℕ) (sink : Sink) (slices : List Slice) :
    Except SourceError ContentReceipt × Sink :=
  if sink.cancelled.1 then (.error .cancelled, sink.cancelled.2)
  else
    match _hread : readInbox .content readDeadline slices with
    | (.error .cancelled, _) => (.error .cancelled, sink.cancelled.2)
    | (.error why, _) => (.error (translate why).report, sink.cancelled.2)
    | (.ok (.data offset bytes), slices) =>
      match takeData actual offset bytes sink.cancelled.2 with
      | (.error error, sink) => (.error error, sink)
      | (.ok (), sink) => transfer (actual + bytes.length) sink slices
    | (.ok (.json bytes), slices) =>
      match takeMessage json actual bytes with
      | some result => (result, sink.cancelled.2)
      | none => transfer actual sink.cancelled.2 slices
termination_by (bytesOf slices).length
decreasing_by
  all_goals exact length_readInbox ‹_›

def content (target : Target) (line : Line) (identifier : EntryIdentifier)
    (request : ContentRequest) (sink : Sink) :
    Except SourceError ContentReceipt × Sink × Line :=
  if sink.cancelled.1 then (.error .cancelled, sink.cancelled.2, line)
  else
    match (do
        openLine json target
        send afterHandshake (json.request.encode (.content identifier request)) : Talk Unit).run
        line with
    | (.error error, line) => (.error error.report, sink.cancelled.2, line)
    | (.ok (), line) =>
      match transfer json 0 sink.cancelled.2 line.incoming with
      | (result, sink) => (result, sink, line)

end Asking

end FolderClient.Bridge.Client
