import FolderClient.Core.Filename
import FolderClient.Core.IdentifierText

namespace FolderClient.Core.Listing

open FolderClient.Core.Namespace FolderClient.Core.Filename FolderClient.Core.IdentifierText
open FolderClient.Library.Texts

inductive Language
  | de
  | en
deriving DecidableEq

namespace Language

/-- The primary language subtag. -/
def tag : Language → String
  | de => "de"
  | en => "en"

end Language

def nameBaskets : Language → String
  | .de => "Briefkörbe"
  | .en => "Mailbaskets"

def nameArchives : Language → String
  | .de => "Archive"
  | .en => "Archives"

def nameSearches : Language → String
  | .de => "Gespeicherte Suchen"
  | .en => "Saved searches"

/-- The name of the hint in the root. -/
def nameReadMe : Language → String
  | .de => "LIESMICH.txt"
  | .en => "README.txt"

/-- The name of the hint in a truncated listing. -/
def nameTruncated : Language → String
  | .de => "Trefferliste gekappt – LIESMICH.txt"
  | .en => "Result list truncated – README.txt"

/-- The texts of the hints, as the catalogue of a language has them. -/
structure HintTexts where
  readMe : Language → String
  truncated : Language → UInt64 → String

/-- Line endings of a text that has to open everywhere. -/
def crlf (text : String) : String :=
  String.ofList (text.toList.flatMap fun c ↦ if c = '\n' then ['\r', '\n'] else [c])

/-- Why and where a list of hits was cut short. -/
structure Truncation where
  displayed : UInt64
  address : Option String

variable (texts : HintTexts) (language : Language)

def hintTextReadMe : String := crlf (texts.readMe language)

/-- The text of the hint in a truncated listing; the address stands on a line of its own. -/
def hintTextTruncated (truncation : Truncation) : String :=
  let text := crlf (texts.truncated language truncation.displayed)
  match truncation.address with
  | some address => text ++ address ++ "\r\n"
  | none => text

/-- If a hint's text changes, this changes. -/
def hintVersion : String := "hint-2"

def folder (identifier : EntryIdentifier) (name : String) : Entry := ⟨identifier, name, .folder⟩

def hint (location : Container) (kind : HintKind) (text : String) : Entry where
  identifier := .hint location kind
  name := match kind with
    | .readMe => nameReadMe language
    | .truncated => nameTruncated language
  content := .file
    { size := UInt64.ofNat (utf8Length text.toList)
      sha256 := none
      version := s!"{hintVersion}-{language.tag}-{utf8Length text.toList}"
      created := .null
      changed := .null
      mediaType := "text/plain; charset=utf-8" }

/-- The fixed children of the root. -/
def rootEntries : List Entry :=
  [folder (.container .baskets) (nameBaskets language),
    folder (.container .archives) (nameArchives language),
    folder (.container .searches) (nameSearches language),
    hint language .root .readMe (hintTextReadMe texts language)]

/-- A basket, an archive, a case file or a search as the server lists it. -/
structure ContainerItem (kind : IdKind) where
  identifier : Identifier kind
  title : String

namespace ContainerItem

def rawName {kind : IdKind} (item : ContainerItem kind) : RawName :=
  .folder item.title (shortForm item.identifier)

end ContainerItem

/-- A document as the server lists it for a location. -/
structure DocumentItem where
  document : DocumentIdentifier
  title : String
  mediaType : String
  size : UInt64
  sha256 : Sha256Value
  version : String
  created : Timestamp
  changed : Timestamp

namespace DocumentItem

def rawName (item : DocumentItem) : RawName :=
  .file item.title item.mediaType (shortForm item.document)

def entry (location : Location) (item : DocumentItem) (name : String) : Entry where
  identifier := .document location item.document
  name := name
  content := .file
    { size := item.size
      sha256 := some item.sha256
      version := item.version
      created := item.created
      changed := item.changed
      mediaType := item.mediaType }

end DocumentItem

/-- The items with the first of each document only. -/
def unique : List DocumentIdentifier → List DocumentItem → List DocumentItem
  | _, [] => []
  | seen, item :: rest =>
    if item.document ∈ seen then unique seen rest
    else item :: unique (item.document :: seen) rest

section Entries

variable (unicode : Unicode)

/-- One folder per item, in the order in which the server delivered them. -/
def containerEntries {kind : IdKind} (items : List (ContainerItem kind))
    (container : Identifier kind → Container) : List Entry :=
  List.zipWith (fun item name ↦ folder (.container (container item.identifier)) name) items
    (name unicode (items.map ContainerItem.rawName) [])

def basketsEntries (items : List (ContainerItem .basket)) : List Entry :=
  containerEntries unicode items .basket

def archivesEntries (items : List (ContainerItem .archive)) : List Entry :=
  containerEntries unicode items .archive

def casesEntries (archive : ArchiveIdentifier) (items : List (ContainerItem .case)) :
    List Entry :=
  containerEntries unicode items (.case archive)

def searchesEntries (items : List (ContainerItem .search)) : List Entry :=
  containerEntries unicode items .search

/-- The names taken before the documents get theirs. -/
def taken (truncated : Option Truncation) : List String :=
  if truncated.isSome then [nameTruncated language] else []

/-- The children of a case file or a search; a truncated listing carries a hint. -/
def documentEntries (location : Location) (items : List DocumentItem)
    (truncated : Option Truncation) : List Entry :=
  let unique := unique [] items
  let names := name unicode (unique.map DocumentItem.rawName) (taken language truncated)
  let entries := List.zipWith (fun item name ↦ item.entry location name) unique names
  match truncated with
  | some truncation =>
    entries ++ [hint language (.ofLocation location) .truncated
      (hintTextTruncated texts language truncation)]
  | none => entries

end Entries

end FolderClient.Core.Listing
