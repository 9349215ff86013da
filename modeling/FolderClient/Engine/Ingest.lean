import FolderClient.Engine.Port
import FolderClient.Library.Pools
import FolderClient.Net.Idempotency
import FolderClient.Storage.Ingest
import FolderClient.Wire.Ingest

namespace FolderClient.Engine.Ingest

open FolderClient.Core.IdentifierText hiding length
open FolderClient.Core.Namespace FolderClient.Crypto.Jws FolderClient.Library.Programs
open FolderClient.Engine.Port hiding Request Answer Setting
open FolderClient.Library.Pools FolderClient.Library.Texts FolderClient.Net.Access FolderClient.Net.Idempotency
open FolderClient.Storage.Basic FolderClient.Storage.Ingest FolderClient.Wire.Ingest

/-- Where a file lies: its directory, and its name as far as that is readable. -/
structure FilePath where
  folder : String
  name : Option String
deriving DecidableEq

def FilePath.display (path : FilePath) : String := path.folder ++ "/" ++ path.name.getD "\uFFFD"

/-- A file the platform saw appear in a mail basket. -/
structure Arrival where
  basket : BasketIdentifier
  path : FilePath
deriving DecidableEq

/-- A file on the disk. -/
structure File where
  id : ℕ
  bytes : List UInt8
deriving DecidableEq

/-- What an idempotency key is for. -/
structure Payload where
  basket : BasketIdentifier
  name : String
  size : ℕ
  changed : Timestamp
deriving DecidableEq

/-- Under which name the note for a file stands in the store. -/
def noteKey (basket : BasketIdentifier) (name : String) : String :=
  display .basket basket ++ "/" ++ name

theorem noteKey_inj {basket basket' : BasketIdentifier} {name name' : String}
    (h : noteKey basket name = noteKey basket' name') : basket = basket' ∧ name = name' := by
  have htext : ∀ (b : BasketIdentifier) (n : String), (noteKey b n).toList =
      (wirePrefix .basket ++ "_").toList ++ (identifierPart b ++ ('/' :: n.toList)) := by
    intro b n
    simp [noteKey, display, String.toList_append]
  have hlist := congrArg String.toList h
  rw [htext, htext] at hlist
  obtain ⟨hbasket, hname⟩ := List.append_inj (List.append_cancel_left hlist)
    ((length_digits ..).trans (length_digits ..).symm)
  exact ⟨identifierPart_inj hbasket, String.toList_inj.mp (List.cons.inj hname).2⟩

attribute [irreducible] noteKey

/-- What an ingest asks of its surroundings. The arrival it is about, and the payload and the file
it was begun for, go along for the record only. -/
inductive Request
  | begins (arrival : Arrival)
  | metadata (path : FilePath)
  | readFile (path : FilePath)
  | now
  | ulid (time : Timestamp)
  | inbox (note : String)
  | rememberInbox (pending : InboxPending)
  | setInboxUpload (note : String) (upload : UploadIdentifier)
  | forgetInbox (note : String)
  | inboxCreate (request : UploadRequest) (key : IdempotencyKey) (payload : Payload) (file : File)
  | openFile (path : FilePath)
  | inboxHighLoad (upload : UploadIdentifier) (target : String) (file : File) (size : ℕ)
      (sha256 : Sha256Value)
  | inboxComplete (upload : UploadIdentifier) (key : String) (payload : Payload)
  | createHolding (upload : UploadIdentifier)
  | rename (path : FilePath) (upload : UploadIdentifier) (name : String)
  | copy (path : FilePath) (upload : UploadIdentifier) (name : String)
  | removeFile (path : FilePath) (upload : UploadIdentifier)

abbrev Answer : Request → Type
  | .begins _ => Unit
  | .metadata _ => Except String Timestamp
  | .readFile _ => Except String File
  | .now => Timestamp
  | .ulid _ => Except CryptoError String
  | .inbox _ => Except StoreError (Option InboxPending)
  | .rememberInbox _ => Except StoreError Unit
  | .setInboxUpload _ _ => Except StoreError Unit
  | .forgetInbox _ => Except StoreError Bool
  | .inboxCreate _ _ _ _ => ApiResult UploadGrant
  | .openFile _ => Except String File
  | .inboxHighLoad _ _ _ _ _ => ApiResult Unit
  | .inboxComplete _ _ _ => ApiResult UploadCompletion
  | .createHolding _ => Except String Unit
  | .rename _ _ _ => Except String Unit
  | .copy _ _ _ => Except String Unit
  | .removeFile _ _ => Except String Unit

abbrev Operation (α : Type) := Fallible Request Answer α

def call (r : Request) : Program Request Answer (Answer r) := Program.call r

/-- What the ingest is set up with. -/
structure Setting where
  sha256 : List UInt8 → Sha256Value
  apiBase : String
  appBase : String
  holding : String

/-- A call to the file system about a path. -/
def directory {α : Type} (path : String) (p : Program Request Answer (Except String α)) :
    Operation α :=
  ExceptT.mk (p >>= fun r ↦ pure (r.mapError (.directory path)))

def value {α : Type} (p : Program Request Answer (ApiResult α)) (what : String) : Operation α :=
  ExceptT.mk (p >>= fun r ↦ pure (r.valueFrom what))

def ulid : Operation String := do
  let time ← call .now
  ExceptT.mk (call (.ulid time) >>= fun r ↦ pure (r.mapError .crypto))

section Programs

variable (setting : Setting)

/-- Checksum, size and modification time. -/
def checkFile (path : FilePath) : Operation (Sha256Value × ℕ × Timestamp × File) := do
  let changed ← directory path.display (call (.metadata path))
  let file ← directory path.display (call (.readFile path))
  return (setting.sha256 file.bytes, file.bytes.length, changed, file)

/-- The note for a file: the existing one when it still fits, otherwise a new one. -/
def pending (note : String) (size : ℕ) (changed : Timestamp) : Operation InboxPending := do
  let noted ← store (call (.inbox note))
  match noted.filter fun present ↦ present.matches size changed with
  | some present => return present
  | none =>
    let key ← ulid
    let created ← call .now
    let new : InboxPending := ⟨note, key, size, changed, none, created⟩
    store (call (.rememberInbox new))
    return new

/-- The media type from the extension. -/
def mediaType (name : String) : String :=
  let extension := match (name.toList.splitOn '.').getLast? with
    | some last => if '.' ∈ name.toList then String.ofList (asciiLower last) else ""
    | none => ""
  match extension with
  | "pdf" => "application/pdf"
  | "png" => "image/png"
  | "jpg" | "jpeg" => "image/jpeg"
  | "tif" | "tiff" => "image/tiff"
  | "txt" | "csv" => "text/plain"
  | "xml" => "application/xml"
  | "eml" => "message/rfc822"
  | "doc" => "application/msword"
  | "docx" => "application/vnd.openxmlformats-officedocument.wordprocessingml.document"
  | "xls" => "application/vnd.ms-excel"
  | "xlsx" => "application/vnd.openxmlformats-officedocument.spreadsheetml.sheet"
  | _ => "application/octet-stream"

/-- The bytes go out only below the API. -/
def inboxHighLoad (grant : UploadGrant) (file : File) (size : ℕ) (sha256 : Sha256Value) :
    Program Request Answer (ApiResult Unit) :=
  match grant.target setting.apiBase with
  | .ok target => call (.inboxHighLoad grant.uploadId target file size sha256)
  | .error error => pure (.securityAbort error.display)

def loadHigh (path : FilePath) (grant : UploadGrant) (size : ℕ) (sha256 : Sha256Value) :
    Operation Unit := do
  let file ← directory path.display (call (.openFile path))
  value (inboxHighLoad setting grant file size sha256) "the upload"

/-- Puts the file into `<holding>/<uploadId>/`: renamed, or else copied and then removed. -/
def hold (path : FilePath) (name : String) (upload : UploadIdentifier) : Operation Unit := do
  let target := setting.holding ++ "/" ++ display .upload upload
  directory target (call (.createHolding upload))
  match ← call (.rename path upload name) with
  | .ok () => return ()
  | .error _ =>
    directory (target ++ "/" ++ name) (call (.copy path upload name))
    directory path.display (call (.removeFile path upload))

/-- One file: check, create, upload, complete, put aside. -/
def adoptFile (arrival : Arrival) : Operation String := do
  call (.begins arrival)
  match arrival.path.name with
  | none => throw (.internal s!"`{arrival.path.display}` has no usable name")
  | some name =>
    let (sha256, size, changed, file) ← checkFile setting arrival.path
    let note := noteKey arrival.basket name
    let pending ← pending note size changed
    let key ← raise ((IdempotencyKey.read pending.key).mapError fun e ↦ .internal e.display)
    let request ← raise ((UploadRequest.new arrival.basket name (mediaType name) size
      sha256).mapError fun e ↦ .refused e.display)
    let payload : Payload := ⟨arrival.basket, name, size, changed⟩
    let grant ← value (call (.inboxCreate request key payload file))
      "the ingest into the inbox"
    store (call (.setInboxUpload note grant.uploadId))
    loadHigh setting arrival.path grant size sha256
    let completionKey ← ulid
    let completion ← value (call (.inboxComplete grant.uploadId completionKey payload))
      "the completion of the ingest"
    hold setting arrival.path name grant.uploadId
    let _ ← store (call (.forgetInbox note))
    raise ((completion.browserTarget setting.appBase).mapError fun e ↦ .security e.display)

end Programs

/-- What has happened with the files of the baskets. -/
inductive Event
  | began (payload : Payload) (key : String) (file : File)
  | loaded (upload : UploadIdentifier) (bytes : List UInt8)
  | confirmed (payload : Payload) (upload : UploadIdentifier)
  | left (note : String) (upload : UploadIdentifier) (file : File)
  | forgotten (note : String)
deriving DecidableEq

/-- An ingest under way; it is exposed while it has looked at its file and not put it aside. -/
structure Turn where
  arrival : Arrival
  exposed : Bool
deriving DecidableEq

def Arrival.note (arrival : Arrival) : String :=
  noteKey arrival.basket (arrival.path.name.getD "")

def Payload.note (payload : Payload) : String := noteKey payload.basket payload.name

/-- The note an event is about. -/
def Event.note : Event → Option String
  | .began payload _ _ | .confirmed payload _ => some payload.note
  | .left note _ _ | .forgotten note => some note
  | .loaded _ _ => none

/-- The files on the disk with their modification times, the notes, and for the record: the
ingests under way, for which notes the keys were drawn, and what has happened. -/
structure World where
  files : FilePath → Option (Timestamp × File)
  holding : UploadIdentifier → String → Option File
  notes : Notes
  turn : ℕ → Option Turn
  issued : List (String × String)
  log : List Event

namespace World

variable (w : World) (i : ℕ)

def withTurn (turn : Option Turn) : World :=
  { w with turn := Function.update w.turn i turn }

def exposing (exposed : Bool) : World :=
  w.withTurn i ((w.turn i).map fun t ↦ { t with exposed := exposed })

def logging (event : Event) : World := { w with log := w.log ++ [event] }

def withNotes (notes : Notes) : World := { w with notes := notes }

def withFile (path : FilePath) (file : Option (Timestamp × File)) : World :=
  { w with files := Function.update w.files path file }

def held (upload : UploadIdentifier) (name : String) (file : File) : World :=
  { w with
    holding := Function.update w.holding upload
      (Function.update (w.holding upload) name (some file)) }

/-- The note of the ingest in a place. -/
def noteAt : String := ((w.turn i).map fun t ↦ t.arrival.note).getD ""

variable {w i}

@[simp] theorem turn_withTurn_self {turn : Option Turn} : (w.withTurn i turn).turn i = turn :=
  Function.update_self ..

theorem turn_withTurn_of_ne {turn : Option Turn} {j : ℕ} (h : j ≠ i) :
    (w.withTurn i turn).turn j = w.turn j := Function.update_of_ne h ..

@[simp] theorem files_withFile_self {path : FilePath} {file : Option (Timestamp × File)} :
    (w.withFile path file).files path = file := Function.update_self ..

theorem files_withFile_of_ne {path other : FilePath} {file : Option (Timestamp × File)}
    (h : other ≠ path) : (w.withFile path file).files other = w.files other :=
  Function.update_of_ne h ..

variable (w i)

/-- The file is no longer in its basket. -/
def leaving (path : FilePath) (upload : UploadIdentifier) (file : File) : World :=
  ((w.withFile path none).exposing i false).logging (.left (w.noteAt i) upload file)

end World

/-- How the surroundings answer an ingest. Any call may fail, and then has no effect; what the
server answers is its own affair; a key that is drawn was never drawn before. -/
def serve (i : ℕ) : (r : Request) → World → Answer r → World → Prop
  | .begins arrival, w, _, w' => w' = w.withTurn i (some ⟨arrival, false⟩)
  | .metadata path, w, a, w' =>
    (∃ changed file, w.files path = some (changed, file) ∧ a = .ok changed ∧
      w' = w.exposing i true) ∨ (∃ e, a = .error e) ∧ w' = w
  | .readFile path, w, a, w' | .openFile path, w, a, w' =>
    ((∃ changed file, w.files path = some (changed, file) ∧ a = .ok file) ∨ ∃ e, a = .error e) ∧
      w' = w
  | .now, w, _, w' => w' = w
  | .ulid time, w, a, w' =>
    (∃ random key, ulidFrom time random = .ok key ∧ (∀ x ∈ w.issued, x.1 ≠ key) ∧ a = .ok key ∧
      w' = { w with issued := (key, w.noteAt i) :: w.issued }) ∨ (∃ e, a = .error e) ∧ w' = w
  | .inbox note, w, a, w' => (a = .ok (w.notes.inbox note) ∨ ∃ e, a = .error e) ∧ w' = w
  | .rememberInbox pending, w, a, w' =>
    (∃ notes, w.notes.rememberInbox pending = .ok notes ∧ a = .ok () ∧ w' = w.withNotes notes) ∨
      (∃ e, a = .error e) ∧ w' = w
  | .setInboxUpload note upload, w, a, w' =>
    (∃ notes, w.notes.setInboxUpload note upload = .ok notes ∧ a = .ok () ∧
      w' = w.withNotes notes) ∨ (∃ e, a = .error e) ∧ w' = w
  | .forgetInbox note, w, a, w' =>
    (a = .ok (w.notes.forgetInbox note).1 ∧
      w' = (w.withNotes (w.notes.forgetInbox note).2).logging (.forgotten note)) ∨
        (∃ e, a = .error e) ∧ w' = w
  | .inboxCreate _ key payload file, w, _, w' => w' = w.logging (.began payload key.value file)
  | .inboxHighLoad upload _ file _ _, w, a, w' =>
    (a = .success () ∧ w' = w.logging (.loaded upload file.bytes)) ∨ a ≠ .success () ∧ w' = w
  | .inboxComplete upload _ payload, w, a, w' =>
    (∃ completion, a = .success completion ∧ w' = w.logging (.confirmed payload upload)) ∨
      (∀ completion, a ≠ .success completion) ∧ w' = w
  | .createHolding _, w, _, w' => w' = w
  | .rename path upload name, w, a, w' =>
    (∃ changed file, w.files path = some (changed, file) ∧ a = .ok () ∧
      w' = (w.leaving i path upload file).held upload name file) ∨ (∃ e, a = .error e) ∧ w' = w
  | .copy path upload name, w, a, w' =>
    (∃ changed file, w.files path = some (changed, file) ∧ a = .ok () ∧
      w' = w.held upload name file) ∨
        (∃ e, a = .error e) ∧ (w' = w ∨ ∃ file, w' = w.held upload name file)
  | .removeFile path upload, w, a, w' =>
    (∃ changed file, w.files path = some (changed, file) ∧ a = .ok () ∧
      w' = w.leaving i path upload file) ∨ (∃ e, a = .error e) ∧ w' = w

/-- What others do to the files: put one there, overwrite or touch it, or take it away. -/
inductive Deed
  | put (path : FilePath) (changed : Timestamp) (file : File)
  | take (path : FilePath)

def Deed.apply (w : World) : Deed → World
  | put path changed file => w.withFile path (some (changed, file))
  | take path => w.withFile path none

/-- A crash: what lies on the disk stands, and nothing is under way. -/
def World.crashed (w : World) : World := { w with turn := fun _ ↦ none }

/-- What a run keeps to besides the code. -/
structure Condition where
  serve : ℕ → Request → World → Prop := fun _ _ _ ↦ True
  deed : Deed → World → Prop := fun _ _ ↦ True

/-- Ingests of any arrivals begin at any time, one beside the other. -/
def rules (setting : Setting) (condition : Condition) : Rules Request Answer World where
  start _ p _ := ∃ arrival, p = ((adoptFile setting arrival).run >>= fun _ ↦ pure ())
  serve i r w a w' := serve i r w a w' ∧ condition.serve i r w
  finish i w w' := w' = w.withTurn i none
  abort i w w' := w' = w.withTurn i none
  restart w w' := w' = w.crashed
  outside w w' := ∃ deed : Deed, condition.deed deed w ∧ w' = deed.apply w

/-- A device that has not ingested anything, with whatever lies on its disk. -/
structure Untouched (w : World) : Prop where
  notes : w.notes = .empty
  turn : w.turn = fun _ ↦ none
  issued : w.issued = []
  log : w.log = []

abbrev Ingests := Pool Request Answer World

def Runs (setting : Setting) (condition : Condition) (c : Ingests) : Prop :=
  (rules setting condition).Run Untouched c

end FolderClient.Engine.Ingest
