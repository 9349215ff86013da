import FolderClient.Core.Namespace
import FolderClient.Library.Texts

namespace FolderClient.Wire.Ingest

open FolderClient.Core.Namespace FolderClient.Library.Texts

/-- Maximum length of a file name in bytes of UTF-8. -/
def maxFileNameBytes : ℕ := 255

/-- Why an ingest does not begin, or an answer is not used. -/
inductive InboxError
  | fileName (name reason : String)
  | mediaType (text : String)
  | foreignOrigin (field address base : String)
deriving DecidableEq

def InboxError.display : InboxError → String
  | .fileName name reason => s!"the file name `{name}` is not sent: {reason}"
  | .mediaType text => s!"`{text}` is not a media type of the form `type/subtype`"
  | .foreignOrigin field address base =>
    s!"`{field}` points at `{address}`, outside `{base}`; the client does not use it"

/-- Why a name is not sent as the name of a file. -/
def fileNameReason (name : String) : Option String :=
  if name = "" then some "it is empty"
  else if '/' ∈ name.toList ∨ '\\' ∈ name.toList then
    some "it carries a path, and a path would give away the user name"
  else if name.toList.any isControl then some "it carries a control character"
  else if maxFileNameBytes < utf8Length name.toList then some "it is longer than 255 bytes"
  else none

def isMediaType (text : String) : Bool :=
  (splitOnce '/' text).any fun (a, b) ↦ a ≠ "" && b ≠ ""

/-- Creating an ingest. -/
structure UploadRequest where
  basketId : BasketIdentifier
  fileName : String
  mediaType : String
  size : ℕ
  sha256 : Sha256Value
deriving DecidableEq

/-- A request; the name is a bare file name, the media type has the form `a/b`. -/
def UploadRequest.new (basketId : BasketIdentifier) (fileName mediaType : String) (size : ℕ)
    (sha256 : Sha256Value) : Except InboxError UploadRequest :=
  match fileNameReason fileName with
  | some reason => .error (.fileName fileName reason)
  | none =>
    if isMediaType mediaType then .ok ⟨basketId, fileName, mediaType, size, sha256⟩
    else .error (.mediaType mediaType)

theorem UploadRequest.new_eq_ok {basketId : BasketIdentifier} {fileName mediaType : String}
    {size : ℕ} {sha256 : Sha256Value} {request : UploadRequest}
    (h : UploadRequest.new basketId fileName mediaType size sha256 = .ok request) :
    request = ⟨basketId, fileName, mediaType, size, sha256⟩ := by
  unfold UploadRequest.new at h
  split at h
  · cases h
  · split at h
    · exact (Except.ok.inj h).symm
    · cases h

/-- A text without the slashes at its end. -/
def trimSlashes (text : String) : List Char := text.toList.rdropWhile (· = '/')

/-- Whether an address lies below a base. -/
def isBelow (address base : String) : Bool :=
  !(trimSlashes base).isEmpty &&
    (strip (trimSlashes base) address.toList).any (·.head? = some '/')

structure UploadGrant where
  uploadId : UploadIdentifier
  uploadUrl : String

/-- The address for the bytes, only below the API. -/
def UploadGrant.target (grant : UploadGrant) (apiBase : String) : Except InboxError String :=
  if isBelow grant.uploadUrl apiBase then .ok grant.uploadUrl
  else .error (.foreignOrigin "uploadUrl" grant.uploadUrl apiBase)

structure UploadCompletion where
  uploadId : UploadIdentifier
  captureUrl : String

/-- The page the client opens, only below the web interface. -/
def UploadCompletion.browserTarget (completion : UploadCompletion) (appBase : String) :
    Except InboxError String :=
  if isBelow completion.captureUrl appBase then .ok completion.captureUrl
  else .error (.foreignOrigin "captureUrl" completion.captureUrl appBase)

end FolderClient.Wire.Ingest
