import FolderClient.Core.Namespace
import FolderClient.Library.Texts

namespace FolderClient.Cfapi.Checks

open FolderClient.Core.Namespace FolderClient.Library.Texts

/-- Why the mirror cannot take a listing. -/
inductive MirrorError
  | invalidName (name reason : String)
  | wrongLocation (identifier : EntryIdentifier) (container : Container)
  | wrongKind (identifier : EntryIdentifier)
  | duplicateName (name : String)
  | duplicateIdentifier (identifier : EntryIdentifier)
deriving DecidableEq

/-- The longest name, in units of UTF-16. -/
def maxNameUtf16 : ℕ := 255

/-- Characters that are not accepted in names. -/
def forbidden : List Char := ['<', '>', ':', '"', '/', '\\', '|', '?', '*']

/-- Names of devices, which are intercepted even with an extension. -/
def deviceName : List String :=
  ["CON", "PRN", "AUX", "NUL", "COM1", "COM2", "COM3", "COM4", "COM5", "COM6", "COM7", "COM8",
    "COM9", "LPT1", "LPT2", "LPT3", "LPT4", "LPT5", "LPT6", "LPT7", "LPT8", "LPT9", "CONIN$",
    "CONOUT$"]

/-- What of a name decides whether it is one of a device. -/
def device (name : List Char) : String :=
  String.ofList (asciiUpper ((name.takeWhile (· ≠ '.')).rdropWhile isWhitespace))

/-- Why a file or folder name is not accepted. -/
def nameReason (name : List Char) : Option String :=
  if name.isEmpty then some "it is empty"
  else if name = ['.'] ∨ name = ['.', '.'] then some "`.` and `..` are references, not names"
  else if maxNameUtf16 < utf16Length name then some "it is longer than 255 UTF-16 units"
  else if name.any (·.toNat < 0x20) then some "it contains control characters"
  else if name.any (· ∈ forbidden) then
    some "it contains one of the characters < > : \" / \\ | ? *"
  else if name.getLast? = some '.' ∨ name.getLast? = some ' ' then
    some "it ends with a dot or a space, which Windows silently trims"
  else if device name ∈ deviceName then some "it is a reserved device name"
  else none

/-- Checks a file or folder name. -/
def checkName (name : String) : Except MirrorError Unit :=
  match nameReason name.toList with
  | some reason => .error (.invalidName name reason)
  | none => .ok ()

section Lists

variable (unicode : Unicode) (container : Container)

def checkListFrom (names : List String) (identifiers : List EntryIdentifier) :
    List Entry → Except MirrorError Unit
  | [] => .ok ()
  | entry :: rest => do
    if entry.identifier.parent ≠ some container then
      throw (.wrongLocation entry.identifier container)
    if entry.isFolder ≠ entry.identifier.container?.isSome then
      throw (.wrongKind entry.identifier)
    checkName entry.name
    let form := comparisonForm unicode entry.name
    if form ∈ names then
      throw (.duplicateName entry.name)
    if entry.identifier ∈ identifiers then
      throw (.duplicateIdentifier entry.identifier)
    checkListFrom (form :: names) (entry.identifier :: identifiers) rest

/-- Checks a listing from the source before it is handed over. -/
def checkList (should : List Entry) : Except MirrorError Unit :=
  checkListFrom unicode container [] [] should

end Lists

end FolderClient.Cfapi.Checks
