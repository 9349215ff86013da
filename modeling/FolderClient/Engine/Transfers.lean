import FolderClient.Core.IdentifierText
import FolderClient.Net.Access
import FolderClient.Storage.Log

namespace FolderClient.Engine.Transfers

open FolderClient.Core.Namespace FolderClient.Core.IdentifierText FolderClient.Core.Log
open FolderClient.Net.Access FolderClient.Storage.Basic

def displayContainer : Container → String
  | .root => "root"
  | .baskets => "baskets"
  | .archives => "archives"
  | .searches => "searches"
  | .basket b => display .basket b
  | .archive a => display .archive a
  | .case a c => display .archive a ++ "/" ++ display .case c
  | .search s => display .search s

def displayEntry : EntryIdentifier → String
  | .container c => displayContainer c
  | .document location document =>
    displayContainer (.ofLocation location) ++ "/" ++ display .document document
  | .hint location .readMe => displayContainer location ++ "/hint-readme"
  | .hint location .truncated => displayContainer location ++ "/hint-truncated"

def displaySha256 (checksum : Sha256Value) : String :=
  "sha256:" ++ String.ofList ((List.range 64).map fun i ↦
    "0123456789abcdef".toList.getD (checksum.bits.toNat / 16 ^ (63 - i) % 16) '0')

/-- Why the source cannot deliver. -/
inductive SourceError
  | notSignedIn
  | noNetwork
  | notFound (entry : EntryIdentifier)
  | noAccess
  | integrity (expected actual : Sha256Value)
  | incomplete (expected actual : ℕ)
  | anchorExpired
  | cancelled
  | sink (reason : String)
  | server (reason : String)
  | internal (reason : String)
deriving DecidableEq

/-- What is settled after a successful handover; only a hint has no checksum. -/
structure ContentReceipt where
  size : ℕ
  sha256 : Option Sha256Value
deriving DecidableEq

/-- Who wants the content, as far as the platform says so. -/
structure ContentRequest where
  requestingApplication : Option String

/-- What a call of the platform asks for: the store, its sink, the scratch file and the stream of
the server. -/
inductive SourceRequest
  | begins (identifier : EntryIdentifier)
  | children (container : Container)
  | entry (identifier : EntryIdentifier)
  | located (container : Container)
  | containerState (container : Container)
  | acquireLoad
  | cancelled
  | progress (loaded total : ℕ)
  | stagingFile
  | createScratch
  | loadContent (row : DocumentRow) (application : Option String)
  | writeScratch (buffer : List UInt8)
  | flushScratch
  | openScratch
  | readScratch
  | removeScratch
  | write (offset : ℕ) (data : List UInt8)
  | appendLog (entry : LogEntry)
  | answered (result : Except SourceError ContentReceipt)

abbrev SourceAnswer : SourceRequest → Type
  | .begins _ | .progress _ _ | .removeScratch | .appendLog _ | .answered _ => Unit
  | .children _ => Except StoreError (List Entry)
  | .entry _ | .located _ => Except StoreError (Option Entry)
  | .containerState _ => Except StoreError (Option ContainerState)
  | .acquireLoad | .stagingFile | .createScratch | .flushScratch | .openScratch =>
    Except String Unit
  | .cancelled => Bool
  | .loadContent _ _ => ApiResult Stream
  | .writeScratch _ => Except String ℕ
  | .readScratch => Except String (List UInt8)
  | .write _ _ => Except String Unit

/-- How far a delivery has come: the details of its entry, its scratch file and how much of it was
read, and what was written to the sink. -/
structure Handling where
  identifier : Option EntryIdentifier := none
  details : Option FileDetails := none
  scratch : Option (List UInt8) := none
  position : ℕ := 0
  handed : List (ℕ × List UInt8) := []
  loads : ℕ := 0

/-- Chunk size in which checked content goes to the platform. -/
def chunk : ℕ := 256 * 1024

/-- How long a file can become. -/
def maxFile : ℕ := 2 ^ 63 - 1

/-- How a delivery is served by what belongs to it alone. -/
def serveHandling : (r : SourceRequest) → Handling → SourceAnswer r → Handling → Prop
  | .begins identifier, _, _, h' => h' = { identifier := some identifier }
  | .entry _, h, a, h' => h' = { h with details := a.toOption.join.bind (·.file) }
  | .createScratch, h, a, h' =>
    (a = .ok () ∧ h' = { h with scratch := some [], position := 0 }) ∨
      ((∃ e, a = .error e) ∧ h' = h)
  | .loadContent _ _, h, _, h' => h' = { h with loads := h.loads + 1 }
  | .writeScratch buffer, h, a, h' =>
    (∃ n, a = .ok n ∧ n ≤ buffer.length ∧ (h.scratch.getD []).length + n ≤ maxFile ∧
      h' = { h with scratch := h.scratch.map (· ++ buffer.take n) }) ∨
      ((∃ e, a = .error e) ∧ h' = h)
  | .openScratch, h, a, h' =>
    (a = .ok () ∧ h' = { h with position := 0 }) ∨ ((∃ e, a = .error e) ∧ h' = h)
  | .readScratch, h, a, h' =>
    (∃ data rest, a = .ok data ∧ h.scratch.map (List.drop h.position) = some (data ++ rest) ∧
      data.length ≤ chunk ∧ (data = [] → rest = []) ∧
      h' = { h with position := h.position + data.length }) ∨ ((∃ e, a = .error e) ∧ h' = h)
  | .removeScratch, h, _, h' => h' = { h with scratch := none } ∨ h' = h
  | .write offset data, h, _, h' => h' = { h with handed := h.handed ++ [(offset, data)] }
  | .children _, h, _, h' | .located _, h, _, h' | .containerState _, h, _, h'
  | .acquireLoad, h, _, h' | .cancelled, h, _, h' | .progress _ _, h, _, h'
  | .stagingFile, h, _, h' | .flushScratch, h, _, h' | .appendLog _, h, _, h'
  | .answered _, h, _, h' => h' = h

end FolderClient.Engine.Transfers
