import FolderClient.Core.Changes
import FolderClient.FileProvider.Marker
import FolderClient.Library.Programs

namespace FolderClient.FileProvider.Enumerator

open FolderClient.Core.Changes FolderClient.Core.Namespace FolderClient.Engine.Transfers
open FolderClient.FileProvider.Marker FolderClient.Library.Ordered FolderClient.Library.Programs

/-- What the extension asks of the source while it enumerates. -/
inductive NamespaceRequest
  | children (container : Container)
  | currentSequence
  | changesSince (sequence max : ℕ)

abbrev NamespaceAnswer : NamespaceRequest → Type
  | .children _ => Except SourceError (List Entry)
  | .currentSequence => Except SourceError ℕ
  | .changesSince _ _ => Except SourceError ChangeState

/-- Why the extension cannot serve a request of the system. -/
inductive ProviderError
  | source (error : SourceError)
  | pageExpired
deriving DecidableEq

/-- A call of the system, made of calls of the source, up to the first error. -/
abbrev Enumerating (α : Type) :=
  ExceptT ProviderError (Program NamespaceRequest NamespaceAnswer) α

def call (request : NamespaceRequest) : Enumerating (NamespaceAnswer request) :=
  liftM (Program.call request : Program NamespaceRequest NamespaceAnswer (NamespaceAnswer request))

def raise {α : Type} (r : Except ProviderError α) : Enumerating α := ExceptT.mk (.done r)

/-- An answer of the source, whose error becomes the error of the call. -/
def fromSource {α : Type} (answer : Except SourceError α) : Enumerating α :=
  raise (answer.mapError .source)

/-- What an enumerator enumerates: a folder, a file, which has no children, or the whole tree. -/
inductive EnumerateTarget
  | container (container : Container)
  | file (identifier : EntryIdentifier)
  | workingSet
deriving DecidableEq

/-- Whether a change to an identifier belongs in this enumeration. -/
def EnumerateTarget.affects (target : EnumerateTarget) (identifier : EntryIdentifier) : Bool :=
  match target with
  | .workingSet => true
  | .container folder => identifier.parent = some folder
  | .file _ => false

structure Page where
  entries : List Entry
  next : Option PageMarker

structure ChangePage where
  updated : List Entry
  removed : List EntryIdentifier
  «until» : Anchor
  more : Bool

/-- Page size when the observer proposes none. -/
def defaultPageSize : ℕ := 200

def maxPageSize : ℕ := 1000

/-- The page size derived from the observer's proposal. -/
def pageSize (proposal : Option ℤ) : ℕ :=
  match proposal with
  | some n => if 0 < n then min n.toNat maxPageSize else defaultPageSize
  | none => defaultPageSize

theorem pageSize_pos (proposal : Option ℤ) : 0 < pageSize proposal := by
  have hdefault : 0 < defaultPageSize := by decide
  have hmax : maxPageSize = 1000 := rfl
  unfold pageSize
  split
  · split
    · omega
    · exact hdefault
  · exact hdefault

def folders (children : List Entry) : List Container :=
  children.filterMap (·.identifier.container?)

/-- The folders directly inside a container, in the order the source lists them. -/
def foldersIn (container : Container) : Enumerating (List Container) := do
  let children ← fromSource (← call (.children container))
  return folders children

/-- The folders one level further down, which only an archive has. -/
def furtherDown (top container : Container) : Enumerating (List Container) :=
  if top = .archives then foldersIn container else return []

/-- The folders of a listing, each followed by those further down. -/
def under (top : Container) : List Container → Enumerating (List Container)
  | [] => return []
  | container :: rest => do
    let inside ← furtherDown top container
    let more ← under top rest
    return container :: inside ++ more

def walk : List Container → Enumerating (List Container)
  | [] => return []
  | top :: rest => do
    let here ← under top (← foldersIn top)
    let more ← walk rest
    return here ++ more

/-- The containers an enumeration runs through. -/
def plan : EnumerateTarget → Enumerating (List Container)
  | .container container => return [container]
  | .file _ => return []
  | .workingSet => do
    let below ← walk [.baskets, .archives, .searches]
    return [.root, .baskets, .archives, .searches] ++ below

def planFingerprint (plan : List Container) : UInt64 := fingerprint (plan.map .container)

def childrenFingerprint (children : List Entry) : UInt64 :=
  fingerprint (children.map (·.identifier))

def markerFor (plan : UInt64) (index offset : ℕ) (children : UInt64) :
    Except ProviderError PageMarker :=
  if 2 ^ 32 ≤ index ∨ 2 ^ 32 ≤ offset then .error .pageExpired
  else .ok ⟨UInt32.ofNat index, UInt32.ofNat offset, plan, children⟩

/-- Where a page begins: the place in the plan and the offset into the children there, with the
fingerprint of the children for which the offset was given. -/
structure Position where
  index : ℕ
  offset : ℕ
  children : Option UInt64

/-- The position a marker stands for; nothing where there is nothing to enumerate. -/
def positionOf (plan : List Container) : Option PageMarker → Except ProviderError (Option Position)
  | none => if plan.isEmpty then .ok none else .ok (some ⟨0, 0, none⟩)
  | some marker =>
    if marker.plan ≠ planFingerprint plan then .error .pageExpired
    else .ok (some ⟨marker.containerIndex.toNat, marker.offset.toNat, some marker.children⟩)

/-- The children of a container; a folder that has vanished from the tree expires the page. -/
def childrenFor (target : EnumerateTarget) :
    Except SourceError (List Entry) → Except ProviderError (List Entry)
  | .ok children => .ok children
  | .error (.notFound i) =>
    if target = .workingSet then .error .pageExpired else .error (.source (.notFound i))
  | .error error => .error (.source error)

/-- The page at a position of the children that stand there now. -/
def cut (plan : List Container) (position : Position) (size : ℕ) (children : List Entry) :
    Except ProviderError Page :=
  if 0 < position.offset ∧ position.children ≠ some (childrenFingerprint children) then
    .error .pageExpired
  else if children.length < position.offset then .error .pageExpired
  else
    let «end» := min (position.offset + size) children.length
    let entries := (children.drop position.offset).take («end» - position.offset)
    if «end» < children.length then
      (markerFor (planFingerprint plan) position.index «end» (childrenFingerprint children)).map
        fun marker ↦ ⟨entries, some marker⟩
    else if position.index + 1 < plan.length then
      (markerFor (planFingerprint plan) (position.index + 1) 0 0).map
        fun marker ↦ ⟨entries, some marker⟩
    else .ok ⟨entries, none⟩

/-- The page a marker stands for, once the plan is drawn up. -/
def pageFrom (target : EnumerateTarget) (marker : Option PageMarker) (size : ℕ)
    (plan : List Container) : Enumerating Page := do
  match ← raise (positionOf plan marker) with
  | none => return ⟨[], none⟩
  | some position =>
    match plan[position.index]? with
    | none => raise (.error .pageExpired)
    | some container =>
      let children ← raise (childrenFor target (← call (.children container)))
      raise (cut plan position size children)

/-- Reads one page from a marker on, or from the beginning. -/
def readPage (target : EnumerateTarget) (marker : Option PageMarker) (size : ℕ) :
    Enumerating Page := do
  pageFrom target marker size (← plan target)

/-- The last of several changes of each identifier that belongs here. -/
def collapse (target : EnumerateTarget) (changes : List JournalEntry) :
    OrderedMap EntryIdentifier (Option Entry) :=
  .ofList (changes.filterMap fun entry ↦
    if target.affects entry.change.identifier then
      some (entry.change.identifier, entry.change.after)
    else none)

/-- Reads the changes since an anchor, collapsed by identifier. -/
def readChange (target : EnumerateTarget) (anchor : Anchor) (size : ℕ) :
    Enumerating ChangePage := do
  let current ← fromSource (← call .currentSequence)
  if current < anchor.sequence then raise (.error (.source .anchorExpired))
  else
    let state ← fromSource (← call (.changesSince anchor.sequence size))
    if state.untilSequence < anchor.sequence then
      raise (.error (.source (.internal (s!"the change journal answers sequence " ++
        s!"{anchor.sequence} with the older sequence {state.untilSequence}"))))
    else if state.more ∧ state.untilSequence = anchor.sequence then
      raise (.error (.source (.internal ("the change journal reports more changes after " ++
        s!"sequence {anchor.sequence} but delivers none"))))
    else
      let last := collapse target state.changes
      return {
        updated := last.bindings.filterMap Prod.snd
        removed := last.bindings.filterMap fun (identifier, after) ↦
          if after.isNone then some identifier else none
        «until» := ⟨state.untilSequence⟩
        more := state.more }

end FolderClient.FileProvider.Enumerator
