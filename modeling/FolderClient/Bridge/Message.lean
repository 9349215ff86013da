import FolderClient.Core.Changes
import FolderClient.Engine.Transfers
import FolderClient.Library.Programs

namespace FolderClient.Bridge.Message

open FolderClient.Core.Changes FolderClient.Core.Namespace FolderClient.Engine.Transfers
open FolderClient.Library.Programs

/-- Version of the line protocol. -/
def version : ℕ := 1

/-- The first message of every connection, from the extension. -/
structure Hello where
  version : ℕ
  secret : String

/-- A question of the extension, one for each method of the source. -/
inductive Request
  | children (container : Container)
  | entry (identifier : EntryIdentifier)
  | currentSequence
  | changesSince (sequence max : ℕ)
  | content (identifier : EntryIdentifier) (request : ContentRequest)

def Request.kind : Request → String
  | .children _ => "CHILDREN"
  | .entry _ => "ENTRY"
  | .currentSequence => "CURRENT_SEQUENCE"
  | .changesSince _ _ => "CHANGES_SINCE"
  | .content _ _ => "CONTENT"

/-- A message of the app. -/
inductive Notice
  | welcome (version : ℕ)
  | children (result : Except SourceError (List Entry))
  | entry (result : Except SourceError Entry)
  | currentSequence (result : Except SourceError ℕ)
  | changesSince (result : Except SourceError ChangeState)
  | progress (loaded total : ℕ)
  | finish (receipt : ContentReceipt)
  | error (error : SourceError)

def Notice.kind : Notice → String
  | .welcome _ => "WELCOME"
  | .children _ => "CHILDREN"
  | .entry _ => "ENTRY"
  | .currentSequence _ => "CURRENT_SEQUENCE"
  | .changesSince _ => "CHANGES_SINCE"
  | .progress _ _ => "PROGRESS"
  | .finish _ => "END"
  | .error _ => "ERROR"

/-- Messages as JSON: what has been written is read back as it was. -/
structure Codec (M : Type) where
  encode : M → Except String (List UInt8)
  decode : List UInt8 → Except String M
  decode_encode : ∀ m bytes, encode m = .ok bytes → decode bytes = .ok m

structure Json where
  hello : Codec Hello
  request : Codec Request
  notice : Codec Notice

/-- What a source asks its sink for while it delivers content. -/
inductive SinkRequest
  | progress (loaded total : ℕ)
  | write (offset : UInt64) (data : List UInt8)
  | cancelled

abbrev SinkAnswer : SinkRequest → Type
  | .progress _ _ => Unit
  | .write _ _ => Except String Unit
  | .cancelled => Bool

/-- How a call of the source ends: with its result, or in a panic, perhaps with a text. -/
inductive Outcome (α : Type)
  | returned (result : Except SourceError α)
  | panicked (text : Option String)

/-- The source behind the server, as it answers one connection. -/
structure Source where
  children : Container → Outcome (List Entry)
  entry : EntryIdentifier → Outcome Entry
  currentSequence : Outcome ℕ
  changesSince : ℕ → ℕ → Outcome ChangeState
  content : EntryIdentifier → ContentRequest →
    Program SinkRequest SinkAnswer (Outcome ContentReceipt)

/-- Why the line does not carry. -/
inductive BridgeError
  | noRendezvousFile (path : String)
  | appUnresponsive (port : ℕ) (reason : String)
  | connectionForbidden (port : ℕ) (reason : String)
  | refused (port : ℕ) (reason : String)
  | timeout (second : ℕ)
  | torn (reason : String)
  | log (text : String)
  | wrongVersion (expected read : ℕ)
  | rendezvousUnreadable (path reason : String)
  | rendezvousInvalid (path reason : String)
  | permissionsTooOpen (path : String) (mode : ℕ)

namespace BridgeError

def text : BridgeError → String
  | noRendezvousFile path =>
    s!"the elasticdms app is not running: there is no rendezvous file at {path}"
  | appUnresponsive port reason =>
    s!"the elasticdms app is not running: nobody accepts on 127.0.0.1:{port} ({reason})"
  | connectionForbidden port reason =>
    s!"the extension may not connect to 127.0.0.1:{port} ({reason}); is the entitlement " ++
      "com.apple.security.network.client missing?"
  | refused port reason =>
    s!"what answers on 127.0.0.1:{port} is not the elasticdms app that wrote the rendezvous " ++
      s!"file ({reason}); the file is stale, or a foreign program holds the port"
  | timeout second => s!"the elasticdms app did not answer for {second} seconds"
  | torn reason =>
    s!"the connection to the elasticdms app broke off ({reason}); the app was probably quit"
  | log text => s!"the bridge between extension and app violates its protocol: {text}"
  | wrongVersion expected read =>
    s!"app and extension come from different builds: the app speaks bridge version {read}, " ++
      s!"the extension version {expected}"
  | rendezvousUnreadable path reason =>
    s!"the rendezvous file {path} is not readable ({reason}); is the extension's " ++
      "temporary-exception for this path missing?"
  | rendezvousInvalid path reason => s!"the rendezvous file {path} is invalid: {reason}"
  | permissionsTooOpen path mode =>
    s!"the rendezvous file {path} is readable or writable by others (mode " ++
      String.ofList (Nat.toDigits 8 mode) ++ "); the secret in it counts as spent. " ++
      "elasticdms writes it afresh with mode 600 on the next start"

/-- Whether the app that wrote the rendezvous file is not there any longer. -/
def appNotReachable : BridgeError → Bool
  | noRendezvousFile _ => true
  | appUnresponsive _ _ => true
  | refused _ _ => true
  | timeout _ => true
  | torn _ => true
  | _ => false

/-- The error as the extension reports it. -/
def report (error : BridgeError) : SourceError :=
  if error.appNotReachable then .noNetwork else .internal error.text

end BridgeError

end FolderClient.Bridge.Message
