import FolderClient.Library.Texts

namespace FolderClient.Library.Paths

open FolderClient.Library.Texts

inductive Platform
  | unix
  | windows
deriving DecidableEq

/-- What a path on Windows can begin with, ahead of its folders. -/
inductive Volume
  | verbatim (name : List Char)
  | verbatimUnc (server share : List Char)
  | verbatimDisk (drive : Char)
  | deviceNs (device : List Char)
  | unc (server share : List Char)
  | disk (drive : Char)
deriving DecidableEq

namespace Volume

def isVerbatim : Volume → Bool
  | verbatim _ | verbatimUnc _ _ | verbatimDisk _ => true
  | deviceNs _ | unc _ _ | disk _ => false

/-- Whether the volume stands for a root, without a separator behind it. -/
def hasImplicitRoot : Volume → Bool
  | disk _ => false
  | _ => true

def shareLength (share : List Char) : ℕ := if share.isEmpty then 0 else 1 + share.length

/-- How much of the path the volume takes. -/
def length : Volume → ℕ
  | verbatim name => 4 + name.length
  | verbatimUnc server share => 8 + server.length + shareLength share
  | verbatimDisk _ => 6
  | deviceNs device => 4 + device.length
  | unc server share => 2 + server.length + shareLength share
  | disk _ => 2

end Volume

inductive Component
  | prefixed (raw : List Char) (volume : Volume)
  | rootDir
  | curDir
  | parentDir
  | normal (name : List Char)

namespace Platform

def mainSeparator : Platform → Char
  | unix => '/'
  | windows => '\\'

def isSeparator : Platform → Char → Bool
  | unix, c => c = '/'
  | windows, c => c = '\\' || c = '/'

end Platform

namespace Component

/-- Two components are equal when they are parsed to the same; of a volume, the spelling does not
count. -/
def isSame : Component → Component → Bool
  | prefixed _ volume, prefixed _ other => volume = other
  | rootDir, rootDir | curDir, curDir | parentDir, parentDir => true
  | normal name, normal other => name = other
  | _, _ => false

def asOsStr (platform : Platform) : Component → List Char
  | prefixed raw _ => raw
  | rootDir => [platform.mainSeparator]
  | curDir => ['.']
  | parentDir => ['.', '.']
  | normal name => name

end Component

section Parsing

/-- What stands before the first separator, and what follows it. -/
def parseNextComponent (isSeparator : Char → Bool) (path : List Char) : List Char × List Char :=
  (path.takeWhile fun c ↦ !isSeparator c, (path.dropWhile fun c ↦ !isSeparator c).drop 1)

def isBackslash (c : Char) : Bool := c = '\\'

/-- What follows a beginning of a volume, in which both separators count as one. -/
def stripBeginning (beginning path : List Char) : Option (List Char) :=
  if beginning.isPrefixOf (path.map fun c ↦ if c = '/' then '\\' else c) then
    some (path.drop beginning.length)
  else none

def parseDrive : List Char → Option Char
  | drive :: ':' :: _ => if drive.isAlpha then some drive.toUpper else none
  | _ => none

def parseDriveExact (path : List Char) : Option Char :=
  if (path[2]?).all Platform.windows.isSeparator then parseDrive path else none

def parseVerbatim (path : List Char) : Volume :=
  match stripBeginning ['U', 'N', 'C', '\\'] path with
  | some rest =>
    let (server, rest) := parseNextComponent isBackslash rest
    .verbatimUnc server (parseNextComponent isBackslash rest).1
  | none =>
    match parseDriveExact path with
    | some drive => .verbatimDisk drive
    | none => .verbatim (parseNextComponent isBackslash path).1

def parseUnc (path : List Char) : Option Volume :=
  let (server, rest) := parseNextComponent Platform.windows.isSeparator path
  let share := (parseNextComponent Platform.windows.isSeparator rest).1
  if server.isEmpty || share.isEmpty then none else some (.unc server share)

/-- The volume a path on Windows begins with. -/
def parsePrefix (path : List Char) : Option Volume :=
  match stripBeginning ['\\', '\\'] path with
  | none => (parseDrive path).map .disk
  | some rest =>
    match stripBeginning ['?', '\\'] rest, (path.take 4).contains '/' with
    | some inside, false => some (parseVerbatim inside)
    | _, _ =>
      match stripBeginning ['.', '\\'] rest with
      | some inside =>
        some (.deviceNs (parseNextComponent Platform.windows.isSeparator inside).1)
      | none => parseUnc rest

def parseSingleComponent (verbatim : Bool) : List Char → Option Component
  | [] => none
  | ['.'] => if verbatim then some .curDir else none
  | ['.', '.'] => some .parentDir
  | name => some (.normal name)

end Parsing

namespace Platform

def volumeOf (platform : Platform) (path : List Char) : Option Volume :=
  match platform with
  | unix => none
  | windows => parsePrefix path

def bodyOf (platform : Platform) (path : List Char) : List Char :=
  path.drop ((platform.volumeOf path).elim 0 Volume.length)

def hasPhysicalRoot (platform : Platform) (path : List Char) : Bool :=
  (platform.bodyOf path).head?.any platform.isSeparator

def hasRoot (platform : Platform) (path : List Char) : Bool :=
  platform.hasPhysicalRoot path || (platform.volumeOf path).any Volume.hasImplicitRoot

/-- Whether a path names one place, wherever the program was started. -/
def isAbsolute (platform : Platform) (path : String) : Bool :=
  match platform with
  | unix => unix.hasRoot path.toList
  | windows => windows.hasRoot path.toList && (windows.volumeOf path.toList).isSome

/-- The components of what stands behind the volume. -/
def parts (platform : Platform) (verbatim : Bool) (body : List Char) : List Component :=
  let isSeparator := if verbatim then isBackslash else platform.isSeparator
  (body.splitOnP isSeparator).filterMap (parseSingleComponent verbatim)

/-- Whether a path begins with a dot that counts as a component. -/
def includeCurDir (platform : Platform) : List Char → Bool
  | ['.'] => true
  | '.' :: c :: _ => platform.isSeparator c
  | _ => false

/-- The components of a path, a repeated separator and a dot between two of them left out. -/
def components (platform : Platform) (path : String) : List Component :=
  let body := platform.bodyOf path.toList
  match platform.volumeOf path.toList with
  | some volume =>
    let rest := platform.parts volume.isVerbatim
    .prefixed (path.toList.take volume.length) volume ::
      if platform.hasPhysicalRoot path.toList then .rootDir :: rest (body.drop 1)
      else if volume.hasImplicitRoot && !volume.isVerbatim then .rootDir :: rest body
      else rest body
  | none =>
    if platform.hasPhysicalRoot path.toList then .rootDir :: platform.parts false (body.drop 1)
    else if platform.includeCurDir body then .curDir :: platform.parts false (body.drop 1)
    else platform.parts false body

/-- Whether two paths are equal, component by component. -/
def samePath (platform : Platform) (left right : String) : Bool :=
  (platform.components left).length = (platform.components right).length &&
    ((platform.components left).zip (platform.components right)).all fun (a, b) ↦ a.isSame b

/-- A path with a plain name behind it; a drive alone takes no separator. -/
def join (platform : Platform) (path name : String) : String :=
  let driveAlone := platform = .windows ∧ path.toList.length = 2 ∧ (parseDrive path.toList).isSome
  if path.toList.getLast?.all platform.isSeparator ∨ driveAlone then path ++ name
  else path ++ String.ofList [platform.mainSeparator] ++ name

end Platform

end FolderClient.Library.Paths
