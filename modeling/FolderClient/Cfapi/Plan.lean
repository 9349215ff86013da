import FolderClient.Cfapi.PathMap
import FolderClient.Core.Changes

namespace FolderClient.Core.Changes.Change

open FolderClient.Core.Namespace

/-- Whether the local content no longer is the server's. -/
def contentStale : Change → Bool
  | changed before after =>
    match before.file, after.file with
    | some a, some b => a.version ≠ b.version ∨ a.sha256 ≠ b.sha256 ∨ a.size ≠ b.size
    | none, none => false
    | _, _ => true
  | new _ | removed _ => false

end FolderClient.Core.Changes.Change

namespace FolderClient.Cfapi.Plan

open FolderClient.Core.Changes FolderClient.Core.Namespace

/-- One step on disk, out of a change from the engine. -/
inductive Step
  | remove (identifier : EntryIdentifier)
  | stagingName (identifier : EntryIdentifier) (between : String)
  | finalName (identifier : EntryIdentifier) (name : String)
  | update (entry : Entry) (stale : Bool)
  | create (entry : Entry)
deriving DecidableEq

def Step.identifier : Step → EntryIdentifier
  | remove i | stagingName i _ | finalName i _ => i
  | update e _ | create e => e.identifier

/-- A staging name for the first stage of a rename. -/
def stagingName (process number : ℕ) : String := s!"~edms-{process}-{number}.tmp"

end FolderClient.Cfapi.Plan

namespace FolderClient.Cfapi

open FolderClient.Core.Changes FolderClient.Core.Namespace

/-- The steps gathered so far, and the number of the next staging name. -/
structure Plan where
  remove : List Plan.Step
  between : List Plan.Step
  «end» : List Plan.Step
  update : List Plan.Step
  create : List Plan.Step
  number : ℕ

namespace Plan

def start (number : ℕ) : Plan := ⟨[], [], [], [], [], number⟩

def steps (p : Plan) : List Step := p.remove ++ p.between ++ p.end ++ p.update ++ p.create

/-- The rename of an entry in two stages, so that two entries can swap their names. -/
def renamed (process : ℕ) (p : Plan) (entry : Entry) : Plan :=
  { p with
    between := p.between ++ [.stagingName entry.identifier (stagingName process p.number)]
    «end» := p.end ++ [.finalName entry.identifier entry.name]
    number := p.number + 1 }

/-- How an entry comes to stand as it should. -/
def should (process : ℕ) (map : PathMap) (p : Plan) (entry : Entry)
    (stale detailsChanged : Bool) : Plan :=
  match map.location entry.identifier with
  | none => { p with create := p.create ++ [.create entry] }
  | some location =>
    if location.folder ≠ entry.isFolder then
      { p with
        remove := p.remove ++ [.remove entry.identifier]
        create := p.create ++ [.create entry] }
    else
      let p := if location.name ≠ entry.name then p.renamed process entry else p
      if ¬ entry.isFolder ∧ (stale ∨ detailsChanged) then
        { p with update := p.update ++ [.update entry stale] }
      else p

/-- What a change adds to the plan: nothing where its container is not populated. -/
def add (process : ℕ) (map : PathMap) (p : Plan) (change : Change) : Plan :=
  match change.identifier.parent with
  | none => p
  | some parent =>
    if ¬ map.isPopulated parent then p
    else
      match change with
      | .removed entry =>
        if map.knows entry.identifier then
          { p with remove := p.remove ++ [.remove entry.identifier] }
        else p
      | .new entry => p.should process map entry false true
      | .changed before after =>
        p.should process map after change.contentStale (before.file ≠ after.file)

/-- The steps for a list of changes, measured against the map, and the next number of a staging
name. -/
def plan (process number : ℕ) (map : PathMap) (changes : List Change) : List Step × ℕ :=
  let p := changes.foldl (Plan.add process map) (.start number)
  (p.steps, p.number)

end Plan

end FolderClient.Cfapi
