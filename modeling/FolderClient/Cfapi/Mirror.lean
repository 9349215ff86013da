import FolderClient.Cfapi.Checks
import FolderClient.Cfapi.Plan

namespace FolderClient.Cfapi.Mirror

open FolderClient.Cfapi.Checks FolderClient.Cfapi.Plan FolderClient.Core.Changes
open FolderClient.Core.Namespace

/-- Why a step failed: what Windows says, or what the mirror finds out before it asks. -/
inductive StepError
  | invalid (error : MirrorError)
  | notFound (identifier : EntryIdentifier)
  | inUse (identifier : EntryIdentifier)
  | operatingSystem (code : ℤ) (text : String)
  | internal (text : String)
deriving DecidableEq

/-- What a call of Windows fails with. -/
structure OsError where
  code : ℤ
  text : String
deriving DecidableEq

def win32FileNotFound : ℤ := 2

def win32PathNotFound : ℤ := 3

def win32SharingViolation : ℤ := 32

/-- The result of a call, as a signed number, for a code of at most 16 bits. -/
def hresultFromWin32 (code : ℤ) : ℤ := 0x80070000 + code - 2 ^ 32

def isNotFound (hresult : ℤ) : Bool :=
  hresult = hresultFromWin32 win32FileNotFound || hresult = hresultFromWin32 win32PathNotFound

def isInUse (hresult : ℤ) : Bool := hresult = hresultFromWin32 win32SharingViolation

/-- The error of a call that concerns one entry. -/
def withIdentifier (identifier : EntryIdentifier) (error : OsError) : StepError :=
  if isInUse error.code then .inUse identifier
  else if isNotFound error.code then .notFound identifier
  else .operatingSystem error.code error.text

/-- The path of an entry, from the chain of the map. -/
def pathOf (map : PathMap) (identifier : EntryIdentifier) : Except StepError (List Char) :=
  match map.path identifier with
  | some path => .ok path
  | none => .error (.notFound identifier)

def renameEntry (map : PathMap) (identifier : EntryIdentifier) (name : String)
    (answer : Except OsError Unit) : Except StepError PathMap := do
  (checkName name).mapError .invalid
  let _ ← pathOf map identifier
  answer.mapError (withIdentifier identifier)
  return map.rename identifier name

def removeEntry (map : PathMap) (identifier : EntryIdentifier)
    (answer : Except OsError Unit) : Except StepError PathMap := do
  let _ ← pathOf map identifier
  answer.mapError (withIdentifier identifier)
  return map.remove identifier

/-- Carries out one step; `answer` is what Windows says to it. -/
def runStep (map : PathMap) (answer : Except OsError Unit) : Step → Except StepError PathMap
  | .remove identifier => removeEntry map identifier answer
  | .stagingName identifier between =>
    renameEntry map identifier between answer
  | .finalName identifier name => renameEntry map identifier name answer
  | .update entry _ => do
    let _ ← pathOf map entry.identifier
    answer.mapError (withIdentifier entry.identifier)
    return map
  | .create entry => do
    (checkName entry.name).mapError .invalid
    match entry.identifier.parent with
    | none => .error (.internal "an entry without a parent container cannot be created")
    | some parent => do
      let _ ← pathOf map (.container parent)
      answer.mapError fun error ↦ .operatingSystem error.code error.text
      return map.set entry.identifier entry.name entry.isFolder

/-- Carries out steps one after the other; a failed one does not hold up the others. What became of
each step is kept, and `n` is the number of the next call of Windows. -/
def runSteps (answers : ℕ → Except OsError Unit) :
    ℕ → PathMap → List Step → PathMap × List (Step × Option StepError)
  | _, map, [] => (map, [])
  | n, map, step :: rest =>
    match runStep map (answers n) step with
    | .ok next =>
      let (last, log) := runSteps answers (n + 1) next rest
      (last, (step, none) :: log)
    | .error e =>
      let (last, log) := runSteps answers (n + 1) map rest
      (last, (step, some e) :: log)

/-- The first error, if there is one. -/
def firstError (log : List (Step × Option StepError)) : Except StepError Unit :=
  match log.findSome? Prod.snd with
  | none => .ok ()
  | some e => .error e

end FolderClient.Cfapi.Mirror

namespace FolderClient.Cfapi

open FolderClient.Cfapi.Mirror FolderClient.Core.Changes FolderClient.Core.Namespace

/-- The mirror of the archive: its path map, whether it is connected, and the number of the next
staging name. -/
structure Mirror where
  map : PathMap
  connected : Bool
  number : ℕ

namespace Mirror

/-- What the engine is told about changes it has reported. -/
inductive Report
  | notReady
  | done (result : Except StepError Unit) (log : List (Plan.Step × Option StepError))

def reportChange (process : ℕ) (answers : ℕ → Except OsError Unit) (mirror : Mirror)
    (changes : List Change) : Report × Mirror :=
  if ¬ mirror.connected then (.notReady, mirror)
  else
    let (steps, number) := Plan.plan process mirror.number mirror.map changes
    let (map, log) := runSteps answers 0 mirror.map steps
    (.done (firstError log) log, { mirror with map := map, number := number })

/-- The map once Windows has been handed a listing: it carries the state the Explorer sees. -/
def handOver (map : PathMap) (container : Container) (should : List Entry) : PathMap :=
  (should.foldl (fun map entry ↦ map.set entry.identifier entry.name entry.isFolder)
    map).markPopulated container

end Mirror

end FolderClient.Cfapi
