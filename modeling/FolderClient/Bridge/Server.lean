import FolderClient.Bridge.Client

namespace FolderClient.Bridge.Server

open FolderClient.Bridge.Client FolderClient.Bridge.Frame FolderClient.Bridge.Message
open FolderClient.Core.Namespace FolderClient.Engine.Transfers FolderClient.Library.Programs

/-- How many seconds a handshake may take. -/
def handshakeDeadline : ℕ := 10

/-- How many seconds the request after WELCOME may take. -/
def requestDeadline : ℕ := 10

/-- How a connection ended, when not regularly. -/
inductive Completion
  | refused (reason : String)
  | torn (reason : String)
  | log (reason : String)

def cancelledText : String :=
  "the extension cancelled the request; the content is not transferred any further"

/-- What the sink finds when it looks: whether the app is shutting down, and whether it sees that
the extension has closed. -/
structure Tick where
  halted : Bool
  closed : Bool

/-- The sink the engine gets in the app, with its end of the line; beside it stands every byte that
the source has handed it. -/
structure RemoteSink where
  outgoing : Outgoing
  torn : Bool
  halted : Bool
  ticks : List Tick
  handed : List UInt8

/-- Calls the engine and catches a panic. -/
def guards {α : Type} : Outcome α → Except SourceError α
  | .returned result => result
  | .panicked text => .error (.internal ("the app ran into a program fault on this request (" ++
      text.getD "without a text" ++ ")"))

/-- What ends a transfer. -/
def ending : Except SourceError ContentReceipt → Notice
  | .ok receipt => .finish receipt
  | .error error => .error error

section Answering

variable (json : Json)

namespace RemoteSink

/-- A look at whether the app is shutting down; once it is, it stays so. -/
def look (sink : RemoteSink) : Tick × RemoteSink :=
  match sink.ticks with
  | [] => (⟨sink.halted, false⟩, sink)
  | tick :: ticks =>
    (⟨sink.halted || tick.halted, tick.closed⟩,
      { sink with halted := sink.halted || tick.halted, ticks := ticks })

def cancelled (sink : RemoteSink) : Bool × RemoteSink :=
  if sink.torn then (true, sink)
  else
    match sink.look with
    | (⟨true, _⟩, sink) => (true, sink)
    | (⟨false, true⟩, sink) => (true, { sink with torn := true })
    | (⟨false, false⟩, sink) => (false, sink)

def progress (sink : RemoteSink) (loaded total : ℕ) : RemoteSink :=
  match sink.cancelled with
  | (true, sink) => sink
  | (false, sink) =>
    match writeJson (json.notice.encode (.progress loaded total)) sink.outgoing with
    | (.ok (), outgoing) => { sink with outgoing := outgoing }
    | (.error _, outgoing) => { sink with outgoing := outgoing, torn := true }

def writeChunks (place : UInt64) (data : List UInt8) (sink : RemoteSink) :
    Except String Unit × RemoteSink :=
  if data.isEmpty then (.ok (), sink)
  else
    match writeData place (data.take maxDataChunk) sink.outgoing with
    | (.error why, outgoing) =>
      (.error s!"the extension takes no more data ({why}); the request counts as cancelled",
        { sink with outgoing := outgoing, torn := true })
    | (.ok (), outgoing) =>
      writeChunks (place + UInt64.ofNat (data.take maxDataChunk).length) (data.drop maxDataChunk)
        { sink with outgoing := outgoing }
termination_by data.length
decreasing_by
  have hpos : 0 < maxDataChunk := by decide
  have hne : data ≠ [] := fun he ↦ by simp_all
  have hdata := List.length_pos_of_ne_nil hne
  rw [List.length_drop]
  omega

def write (sink : RemoteSink) (offset : UInt64) (data : List UInt8) :
    Except String Unit × RemoteSink :=
  match sink.cancelled with
  | (true, sink) => (.error cancelledText, { sink with handed := sink.handed ++ data })
  | (false, sink) => writeChunks offset data { sink with handed := sink.handed ++ data }

end RemoteSink

/-- The source delivers into the sink. -/
def deliver {α : Type} : Program SinkRequest SinkAnswer α → RemoteSink → α × RemoteSink
  | .done result, sink => (result, sink)
  | .ask (.progress loaded total) next, sink =>
    deliver (next ()) (sink.progress json loaded total)
  | .ask (.write offset data) next, sink =>
    match sink.write offset data with
    | (answer, sink) => deliver (next answer) sink
  | .ask .cancelled next, sink =>
    match sink.cancelled with
    | (answer, sink) => deliver (next answer) sink

/-- An answer; one that is too large is replaced by its error. -/
def send (notice : Notice) (out : Outgoing) : Except Completion Unit × Outgoing :=
  match writeJson (json.notice.encode notice) out with
  | (.ok (), out) => (.ok (), out)
  | (.error (.tooLarge bytes), out) =>
    match writeJson (json.notice.encode (.error (.internal (s!"the answer {notice.kind} is " ++
        s!"{bytes} bytes and therefore too large for the bridge (at most {maxMessage} bytes)"))))
        out with
    | (.ok (), out) => (.ok (), out)
    | (.error why, out) => (.error (.torn (writeErrorText why)), out)
  | (.error why, out) => (.error (.torn (writeErrorText why)), out)

/-- What has gone out, what was asked of the source, and what it has handed to its sink. -/
structure Served where
  result : Except Completion Unit
  outgoing : Outgoing
  calls : List Request
  handed : List UInt8

def deliverContent (source : Source) (identifier : EntryIdentifier) (request : ContentRequest)
    (out : Outgoing) (ticks : List Tick) : Served :=
  match deliver json (source.content identifier request) ⟨out, false, false, ticks, []⟩ with
  | (outcome, sink) =>
    let served (result : Except Completion Unit) (out : Outgoing) : Served :=
      ⟨result, out, [.content identifier request], sink.handed⟩
    if sink.torn then
      served (.error (.torn s!"the extension cancelled the content of {displayEntry identifier}"))
        sink.outgoing
    else if sink.look.1.halted then
      served (.error (.torn "the app is shutting down")) sink.outgoing
    else
      match send json (ending (guards outcome)) sink.outgoing with
      | (result, out) => served result out

/-- The answer with the result of one call. -/
def respond (request : Request) (notice : Notice) (out : Outgoing) : Served :=
  match send json notice out with
  | (result, out) => ⟨result, out, [request], []⟩

def answer (source : Source) (request : Request) (out : Outgoing) (ticks : List Tick) : Served :=
  match request with
  | .children container =>
    respond json (.children container) (.children (guards (source.children container))) out
  | .entry identifier =>
    respond json (.entry identifier) (.entry (guards (source.entry identifier))) out
  | .currentSequence =>
    respond json .currentSequence (.currentSequence (guards source.currentSequence)) out
  | .changesSince sequence max =>
    respond json (.changesSince sequence max)
      (.changesSince (guards (source.changesSince sequence max))) out
  | .content identifier request => deliverContent json source identifier request out ticks

/-- Reads HELLO and checks version and secret. -/
def greet (secret : String) (slices : List Slice) : Except Completion (List Slice) :=
  match readInbox .handshake handshakeDeadline slices with
  | (.ok (.json bytes), slices) =>
    match json.hello.decode bytes with
    | .error why => .error (.refused s!"the first message is no HELLO ({why})")
    | .ok hello =>
      if hello.version ≠ version then
        .error (.refused (s!"the extension speaks bridge version {hello.version}, the app " ++
          s!"version {version}"))
      else if hello.secret ≠ secret then .error (.refused "wrong secret")
      else .ok slices
  | (.ok (.data _ _), _) => .error (.refused "the first message is a data chunk")
  | (.error why, _) => .error (.refused ("no HELLO: " ++ readErrorText why))

/-- What comes after WELCOME. -/
inductive Asked
  | request (request : Request)
  | unreadable (reason : String)
  | nothing (result : Except Completion Unit)

def readRequest (slices : List Slice) : Asked :=
  match (readInbox .request requestDeadline slices).1 with
  | .ok (.json bytes) =>
    match json.request.decode bytes with
    | .ok request => .request request
    | .error why =>
      .unreadable s!"the app does not understand the extension's request ({why})"
  | .ok (.data _ _) => .nothing (.error (.log "a data chunk instead of a request"))
  | .error .closed => .nothing (.ok ())
  | .error (.log text) => .nothing (.error (.log text))
  | .error why => .nothing (.error (.torn ("no request: " ++ readErrorText why)))

/-- The request after the greeting. -/
def runRequest (source : Source) (slices : List Slice) (out : Outgoing) (ticks : List Tick) :
    Served :=
  match readRequest json slices with
  | .nothing result => ⟨result, out, [], []⟩
  | .unreadable reason =>
    match send json (.error (.internal reason)) out with
    | (_, out) => ⟨.error (.log reason), out, [], []⟩
  | .request request => answer json source request out ticks

/-- One connection on the side of the app. -/
def run (source : Source) (secret : String) (line : Line) (ticks : List Tick) : Served :=
  match greet json secret line.incoming with
  | .error why => ⟨.error why, line.outgoing, [], []⟩
  | .ok slices =>
    match send json (.welcome version) line.outgoing with
    | (.error why, out) => ⟨.error why, out, [], []⟩
    | (.ok (), out) => runRequest json source slices out ticks

end Answering

end FolderClient.Bridge.Server
