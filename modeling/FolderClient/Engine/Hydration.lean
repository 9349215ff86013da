import FolderClient.Engine.Channel

namespace FolderClient.Engine.Hydration

open FolderClient.Core.Listing FolderClient.Core.Log FolderClient.Core.Namespace
open FolderClient.Engine.Channel FolderClient.Engine.Port FolderClient.Engine.Session
open FolderClient.Engine.Transfers FolderClient.Library.Programs FolderClient.Library.Texts
open FolderClient.Net.Access FolderClient.Storage.Basic
open FolderClient.Engine.Port.Request (call)

/-- Steps of a call of the platform, whose error ends the function. -/
abbrev Delivery (α : Type) := ExceptT SourceError (Program Request Answer) α

abbrev callSource (r : SourceRequest) : Activity (SourceAnswer r) := call (.source r)

/-- A step of the session within a call of the platform. -/
def session {α : Type} (p : SessionFallible α) : Activity (Except EngineError α) :=
  (ofReconcile (ofSession p)).embed .command

def raise {α : Type} (r : Except SourceError α) : Delivery α := ExceptT.mk (pure r)

/-- The outcome of a step whose error does not end the function. -/
def outcome {α : Type} (p : Delivery α) : Delivery (Except SourceError α) :=
  ExceptT.mk (p.run >>= fun r ↦ pure (.ok r))

/-- A step whose error is a fault of this program. -/
def internally {α : Type} (what : String) (p : Activity (Except String α)) : Delivery α :=
  ExceptT.mk (p >>= fun r ↦ pure (r.mapError fun e ↦ .internal (what ++ e)))

/-- A number of 64 bits that does not overflow. -/
def saturated (n : ℕ) : ℕ := min (2 ^ 64 - 1) n

/-- The sink into which the stream goes: the bytes the checksum has seen, and how many. -/
structure CountingSink where
  machine : List UInt8
  written : ℕ
  total : ℕ

/-- Writes a whole buffer into the scratch file, piece by piece; at most `n` pieces. -/
def writeAll : ℕ → List UInt8 → CountingSink → Activity (Except String CountingSink)
  | _, [], sink => return .ok sink
  | 0, _, _ => return .error "write zero"
  | n + 1, buffer, sink => do
    if ← callSource .cancelled then
      return .error "the platform cancelled the request"
    match ← callSource (.writeScratch buffer) with
    | .error e => return .error e
    | .ok accepted =>
      let written := saturated (sink.written + accepted)
      callSource (.progress written sink.total)
      if accepted = 0 then
        return .error "write zero"
      else
        writeAll n (buffer.drop accepted)
          ⟨sink.machine ++ buffer.take accepted, written, sink.total⟩

/-- Reads the body chunk by chunk; more bytes than announced are an error. -/
def readChunks (length : ℕ) (broken : Option String) :
    List (List UInt8) → ℕ → CountingSink → Activity (Except NetworkError (ℕ × CountingSink))
  | [], written, sink =>
    return match broken with
      | some reason => .error (.connection "GET content" ("the body broke off: " ++ reason))
      | none => .ok (written, sink)
  | chunk :: rest, written, sink => do
    let written := saturated (written + chunk.length)
    if length < written then
      return .error (.incomplete length written)
    else
      match ← writeAll chunk.length chunk sink with
      | .error reason => return .error (.sink reason)
      | .ok sink => readChunks length broken rest written sink

/-- The body after its headers, up to the comparison of its length. -/
def readBody (header : ContentHeader) (stream : Stream) (sink : CountingSink) :
    Activity (Except NetworkError (ContentReport × CountingSink)) := do
  match ← readChunks header.length.toNat stream.broken stream.chunks 0 sink with
  | .error e => return .error e
  | .ok (written, sink) =>
    match ← callSource .flushScratch with
    | .error reason => return .error (.sink reason)
    | .ok () =>
      if written ≠ header.length.toNat then
        return .error (.incomplete header.length.toNat written)
      else
        return .ok (⟨header, written⟩, sink)

/-- The content of a document: the headers are checked before a byte is read. -/
def loadContent (row : DocumentRow) (application : Option String) (sink : CountingSink) :
    Activity (ApiResult (ContentReport × CountingSink)) := do
  if ¬ versionUsable row.version then
    return .networkError (.contractBreach "the version cannot stand in an ETag")
  else
    match ← callSource (.loadContent row application) with
    | .unchanged etag => return .unchanged etag
    | .slotError problem => return .slotError problem
    | .stepUpNeeded => return .stepUpNeeded
    | .securityAbort notice => return .securityAbort notice
    | .networkError error => return .networkError error
    | .success stream =>
      match stream.header with
      | .error reason => return .networkError (.contentHeader reason)
      | .ok header =>
        match header.checkAgainst row with
        | some field => return .networkError (.contentHeader ("the content answer names " ++ field))
        | none =>
          match ← readBody header stream sink with
          | .error error => return .networkError error
          | .ok loaded => return .success loaded

/-- Translates a failed call into the reason the user is shown. -/
def sourceErrorFrom {α : Type} (identifier : EntryIdentifier) : ApiResult α → SourceError
  | .networkError (.incomplete expected actual) => .incomplete expected actual
  | .networkError _ => .noNetwork
  | .securityAbort notice => .server notice
  | .stepUpNeeded => .notSignedIn
  | .unchanged _ => .internal "the server answered 304 to a content request"
  | .success _ => .internal "success read as an error"
  | .slotError problem =>
    if problem.kind = .notFound ∨ problem.kind = .renditionNotAvailable then .notFound identifier
    else if problem.kind = .scopeMissing ∨ problem.kind = .folderClientNotUnlocked ∨
      problem.kind = .deviceLocked then .noAccess
    else if problem.kind = .sessionExpired ∨ problem.kind = .authenticationTooWeak then .notSignedIn
    else if problem.status = some 401 then .notSignedIn
    else if problem.status = some 403 then .noAccess
    else .server problem.text

/-- Pushes the checked bytes into the sink chunk by chunk; at most `n` chunks. -/
def handOver : ℕ → ℕ → Delivery Unit
  | 0, _ => raise (.error (.internal "more chunks than bytes"))
  | n + 1, offset => do
    if ← callSource .cancelled then
      raise (.error .cancelled)
    else
      let data ← internally "Zwischendatei: " (callSource .readScratch)
      if data.isEmpty then
        return
      else
        match ← callSource (.write offset data) with
        | .error reason => raise (.error (.sink reason))
        | .ok () => handOver n (saturated (offset + data.length))

variable (setting : Setting)

/-- Loads into the scratch file and checks size and checksum against the row of the listing. -/
def streamInFile (identifier : EntryIdentifier) (row : DocumentRow) (request : ContentRequest) :
    Delivery Unit := do
  internally "Zwischendatei: " (callSource .createScratch)
  let sink : CountingSink := ⟨[], 0, row.size.toNat⟩
  match ← loadContent row request.requestingApplication sink with
  | .success (report, sink) =>
    internally "Zwischendatei: " (callSource .flushScratch)
    if report.bytes ≠ row.size.toNat ∨ sink.written ≠ row.size.toNat then
      raise (.error (.incomplete row.size.toNat sink.written))
    else if setting.sha256 sink.machine ≠ row.sha256 then
      raise (.error (.integrity row.sha256 (setting.sha256 sink.machine)))
    else
      return
  | failed => raise (.error (sourceErrorFrom identifier failed))

/-- Opens the scratch file and hands it over. -/
def handOverFile (size : ℕ) : Delivery Unit := do
  internally "Zwischendatei: " (callSource .openScratch)
  handOver (size + 1) 0

/-- Renews the token and loads anew; without a new token the rejection stands. -/
def streamAgain (identifier : EntryIdentifier) (row : DocumentRow) (request : ContentRequest) :
    Delivery Unit := do
  match ← session (forceRefresh setting) with
  | .ok true =>
    callSource .removeScratch
    streamInFile setting identifier row request
  | _ => raise (.error .notSignedIn)

/-- Exactly one second attempt, when the server rejects the token. -/
def secondAttempt (identifier : EntryIdentifier) (row : DocumentRow) (request : ContentRequest) :
    Except SourceError Unit → Delivery (Except SourceError Unit)
  | .error .notSignedIn => outcome (streamAgain setting identifier row request)
  | first => return first

def rowFrom (entry : Entry) (details : FileDetails) (document : DocumentIdentifier)
    (sha256 : Sha256Value) : DocumentRow where
  documentId := document
  title := entry.name
  mediaType := details.mediaType
  size := details.size
  sha256 := sha256
  version := details.version
  createdAt := details.created
  updatedAt := details.changed

def loadAndCheck (entry : Entry) (details : FileDetails) (document : DocumentIdentifier)
    (expected : Sha256Value) (request : ContentRequest) : Delivery ContentReceipt := do
  let signedIn ← raise ((← session (ensureForToken setting)).mapError fun e ↦
    .server (setting.describe e))
  if ¬ signedIn then
    raise (.error .notSignedIn)
  else
    internally "" (callSource .acquireLoad)
    if ← callSource .cancelled then
      raise (.error .cancelled)
    else
      let row := rowFrom entry details document expected
      internally "" (callSource .stagingFile)
      let first ← outcome (streamInFile setting entry.identifier row request)
      let result ← secondAttempt setting entry.identifier row request first
      match result with
      | .error error =>
        callSource .removeScratch
        raise (.error error)
      | .ok () =>
        let handover ← outcome (handOverFile row.size.toNat)
        callSource .removeScratch
        raise handover
        return ⟨details.size.toNat, some expected⟩

/-- What the user reads about an error, for the detail of a row. -/
def displayError : SourceError → String
  | .notSignedIn => "sign-in required: elasticdms is not signed in on this device"
  | .noNetwork => "the elasticdms server cannot be reached"
  | .notFound entry => s!"the entry `{displayEntry entry}` no longer exists"
  | .noAccess => "no access to this document"
  | .integrity expected actual =>
    s!"the loaded content does not match the checksum (expected {displaySha256 expected}, " ++
      s!"received {displaySha256 actual})"
  | .incomplete expected actual => s!"the server delivered {actual} instead of {expected} bytes"
  | .anchorExpired => "the change marker is stale; the folder is enumerated afresh"
  | .cancelled => "the request was cancelled"
  | .sink reason => s!"the platform did not accept the content: {reason}"
  | .server reason => s!"the server reports: {reason}"
  | .internal reason => s!"internal error in the folder client: {reason}"

/-- Writes the row of the access into the usage log. -/
def appendLog (kind : LogKind) (entry : Entry) (location : Location)
    (document : DocumentIdentifier) (detail : Option String) : Activity Unit := do
  let located ← callSource (.located (.ofLocation location))
  let place : Option String := located.toOption.join.map (·.name)
  let time ← callSession .now
  match LogEntry.new time kind (some ⟨entry.name, some document, place⟩) detail with
  | some row => callSource (.appendLog row)
  | none => return

/-- The content of a document: load, check, and only then hand over. -/
def loadDocument (identifier : EntryIdentifier) (location : Location)
    (document : DocumentIdentifier) (request : ContentRequest) : Delivery ContentReceipt := do
  let found ← raise ((← callSource (.entry identifier)).mapError fun e ↦
    .internal (setting.describe (.store e)))
  match found with
  | none => raise (.error (.notFound identifier))
  | some entry =>
    match entry.file with
    | none => raise (.error (.internal s!"`{displayEntry identifier}` is a folder"))
    | some details =>
      match details.sha256 with
      | none => raise (.error (.internal s!"`{displayEntry identifier}` carries no checksum"))
      | some expected =>
        let result ← outcome (loadAndCheck setting entry details document expected request)
        match result with
        | .ok _ => appendLog .opened entry location document none
        | .error error =>
          appendLog .openFailed entry location document (some (displayError error))
        raise result

/-- The text of a hint, as the stored state of its container has it. -/
def hintText (location : Container) : HintKind → Delivery String
  | .readMe => return hintTextReadMe setting.texts setting.language
  | .truncated => do
    let state ← raise ((← callSource (.containerState location)).mapError fun e ↦
      .internal (setting.describe (.store e)))
    return match state.bind (·.truncation) with
      | some t => hintTextTruncated setting.texts setting.language ⟨t.displayUpperLimit, t.refineUrl⟩
      | none => hintTextTruncated setting.texts setting.language ⟨0, none⟩

/-- A locally produced hint: without the network, without a checksum, without a row. -/
def hint (location : Container) (kind : HintKind) : Delivery ContentReceipt := do
  let text ← hintText setting location kind
  let bytes := utf8 text
  callSource (.progress 0 bytes.length)
  match ← callSource (.write 0 bytes) with
  | .error reason => raise (.error (.sink reason))
  | .ok () => return ⟨bytes.length, none⟩

/-- Delivers the content of an entry into the sink. -/
def hydrate (identifier : EntryIdentifier) (request : ContentRequest) : Delivery ContentReceipt :=
  match identifier with
  | .hint location kind => hint setting location kind
  | .container c => raise (.error (.notFound (.container c)))
  | .document location document =>
    loadDocument setting (.document location document) location document request

/-- The platform's call for content, answered when it is over. -/
def content (identifier : EntryIdentifier) (request : ContentRequest) : Activity Unit := do
  callSource (.begins identifier)
  if ← callSession .isStopped then
    callSource (.answered (.error .notSignedIn))
  else
    let result ← (hydrate setting identifier request).run
    callSource (.answered result)

end FolderClient.Engine.Hydration
