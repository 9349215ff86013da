import FolderClient.Storage.Basic

namespace FolderClient.Storage.Namespace

open FolderClient.Core.Namespace FolderClient.Core.Changes FolderClient.Storage.Basic
open FolderClient.Library.Tables

/-- For how long a tombstone is in effect: 30 days. -/
def erasureTakesEffectMillis : ℤ := 30 * 24 * 60 * 60 * 1000

def redactedName : String := "REDACTED"

def mediaTypeRedacted : String := "application/octet-stream"

/-- How a journal entry is stored: as returned, or as a removal without a name. -/
inductive JournalForm
  | complete
  | redacted
deriving DecidableEq

/-- A removal that betrays only the identifier. -/
def redactedRemoval (identifier : EntryIdentifier) : Change :=
  .removed
    { identifier := identifier
      name := redactedName
      content := .file
        { size := 0, sha256 := none, version := "", created := .null, changed := .null,
          mediaType := mediaTypeRedacted } }

section Checks

variable (unicode : Unicode) (container : Container)

def checkListFrom (identifiers : List EntryIdentifier) (names : List String) :
    List Entry → Except StoreError Unit
  | [] => .ok ()
  | entry :: rest =>
    let identifier := entry.identifier
    let form := comparisonForm unicode entry.name
    if identifier.parent ≠ some container then .error (.foreignEntry container identifier)
    else if identifier.container?.isSome ≠ entry.isFolder then .error (.wrongKind identifier)
    else if identifier.document?.isSome ∧ entry.file.any (·.sha256.isNone) then
      .error (.withoutChecksum identifier)
    else if identifier ∈ identifiers then .error (.duplicateIdentifier identifier)
    else if form ∈ names then .error (.duplicateName container entry.name)
    else checkListFrom (identifier :: identifiers) (form :: names) rest

def checkList (new : List Entry) : Except StoreError Unit :=
  checkListFrom unicode container [] [] new

end Checks

def erasureLimit (now : Timestamp) : ℤ := (now.plusMillis (-erasureTakesEffectMillis)).unixMillis

def rowLe (r r' : EntryRow) : Prop :=
  r.rank < r'.rank ∨ (r.rank = r'.rank ∧ r.entry.identifier ≤ r'.entry.identifier)

instance : DecidableRel rowLe := fun _ _ ↦ inferInstanceAs (Decidable (_ ∨ _))

def next (sequence : ℕ) : Except StoreError ℕ :=
  if sequence + 1 < 2 ^ 64 then .ok (sequence + 1) else .error (.numberTooLarge "sequence" sequence)

end FolderClient.Storage.Namespace

namespace FolderClient.Storage.Basic.Store

open FolderClient.Core.Namespace FolderClient.Core.Changes FolderClient.Storage.Basic
open FolderClient.Library.Tables FolderClient.Storage.Namespace

def containerKnown (s : Store) (container : Container) : Bool :=
  container = .root || s.entry.contains (.container container)

def effectiveErasure (s : Store) (now : Timestamp) : List DocumentIdentifier :=
  (s.erased.select fun r ↦ erasureLimit now < r.time.unixMillis).map (·.document)

def readChildren (s : Store) (container : Container) : List (Entry × ℕ) :=
  ((s.entry.select (·.parent = container)).insertionSort rowLe).map fun r ↦ (r.entry, r.rank)

def readPlaced (s : Store) (document : DocumentIdentifier) : List Entry :=
  ((s.entry.select (·.document = some document)).insertionSort
    fun r r' ↦ r.entry.identifier ≤ r'.entry.identifier).map (·.entry)

def deleteEntry (s : Store) (identifier : EntryIdentifier) : Store :=
  { s with entry := s.entry.deleteWhere (·.entry.identifier = identifier) }

def deleteState (s : Store) (container : Container) : Store :=
  { s with containerState := s.containerState.deleteWhere (·.container = container) }

/-- Removes all descendants of a container, deepest first, together with their states. The
recursion is bounded by the fixed shape of the tree. -/
def removeDescendant : ℕ → Store → Container → List Change × Store
  | 0, s, _ => ([], s)
  | depth + 1, s, container =>
    let (out, s) := (s.readChildren container).foldl (fun (out, s) (child, _) ↦
      let (gone, s) := match child.identifier.container? with
        | some below => removeDescendant depth s below
        | none => ([], s)
      (out ++ gone ++ [.removed child], s.deleteEntry child.identifier)) ([], s)
    (out, s.deleteState container)

/-- The levels below the root: the fixed containers, archives, case files, documents. -/
def treeDepth : ℕ := 4

/-- One round of the loop over a comparison: with a removed container its descendants go too. -/
def applyChange : List Change × Store → Change → List Change × Store
  | (changes, s), .removed entry =>
    let (below, s) := match entry.identifier.container? with
      | some gone => removeDescendant treeDepth s gone
      | none => ([], s)
    (changes ++ below ++ [.removed entry], s.deleteEntry entry.identifier)
  | (changes, s), change => (changes ++ [change], s)

def writeEntry (s : Store) (container : Container) (rank : ℕ) (entry : Entry) :
    Except StoreError Store := do
  if let .file d := entry.content then
    let _ ← fromU64 d.size.toNat "size"
  if entry.name = "" then throw .database
  if entry.isFolder ∧ entry.identifier.document?.isSome then throw .database
  return { s with entry := s.entry.upsert ⟨container, rank, entry, entry.identifier.document?⟩ }

def setRank (s : Store) (identifier : EntryIdentifier) (rank : ℕ) : Store :=
  { s with
    entry := s.entry.update
      (fun r ↦ if r.entry.identifier = identifier then { r with rank := rank } else r)
      fun r ↦ by split <;> rfl }

/-- Writes the fresh listing: a changed entry whole, of an unchanged one at most its rank. -/
def writeFresh (container : Container) (oldRanks : List (EntryIdentifier × ℕ))
    (toWrite : List EntryIdentifier) : ℕ → List Entry → Store → Except StoreError Store
  | _, [], s => .ok s
  | place, entry :: rest, s => do
    let rank ← fromU64 place "rank"
    if entry.identifier ∈ toWrite then
      let s ← s.writeEntry container rank entry
      writeFresh container oldRanks toWrite (place + 1) rest s
    else if oldRanks.lookup entry.identifier ≠ some rank then
      writeFresh container oldRanks toWrite (place + 1) rest (s.setRank entry.identifier rank)
    else
      writeFresh container oldRanks toWrite (place + 1) rest s

def writeState (s : Store) (container : Container) (state : ContainerState) :
    Except StoreError Store := do
  if let some truncation := state.truncation then
    let _ ← fromU64 truncation.displayUpperLimit.toNat "display_limit"
  return { s with containerState := s.containerState.upsert ⟨container, state⟩ }

def insertChanges (time : Timestamp) (form : JournalForm) :
    List Change → ℕ → Table ℕ JournalRow (·.sequence) →
      Except StoreError (List JournalEntry × ℕ × Table ℕ JournalRow (·.sequence))
  | [], last, journal => .ok ([], last, journal)
  | change :: rest, last, journal => do
    let sequence ← next last
    let stored := match form with
      | .complete => change
      | .redacted => redactedRemoval change.identifier
    let number ← fromU64 sequence "sequence"
    match journal.insert? ⟨number, stored, time, change.identifier.document?⟩ with
    | none => throw .database
    | some journal =>
      let (out, last, journal) ← insertChanges time form rest sequence journal
      return (⟨sequence, change⟩ :: out, last, journal)

/-- Trims to the newest `limit` entries and returns the new lower bound. -/
def truncateJournal (journal : Table ℕ JournalRow (·.sequence)) (state : JournalState)
    (limit : ℕ) : Except StoreError (ℕ × Table ℕ JournalRow (·.sequence)) := do
  if state.last - state.lowerLimit ≤ limit then
    return (state.lowerLimit, journal)
  let bound ← fromU64 (state.last - limit) "sequence"
  return (bound, journal.deleteWhere (·.sequence ≤ bound))

def writeJournalState (s : Store) (state : JournalState) : Except StoreError Store := do
  let last ← fromU64 state.last "sequence"
  let lowerLimit ← fromU64 state.lowerLimit "sequence"
  return { s with journalState := ⟨last, lowerLimit⟩ }

/-- Puts changes into the journal with consecutive sequence numbers and trims it. -/
def appendJournal (s : Store) (changes : List Change) (time : Timestamp) (form : JournalForm) :
    Except StoreError (List JournalEntry × Store) := do
  if changes.isEmpty then
    return ([], s)
  let (out, last, journal) ← insertChanges time form changes s.journalState.last s.journal
  let (lowerLimit, journal) ←
    truncateJournal journal ⟨last, s.journalState.lowerLimit⟩ s.limit
  let s ← { s with journal := journal }.writeJournalState ⟨last, lowerLimit⟩
  return (out, s)

/-- Replaces the child listing of a container and returns the difference as journal entries. -/
def replaceContainer (unicode : Unicode) (s : Store) (container : Container) (new : List Entry)
    (state : ContainerState) : Except StoreError (List JournalEntry × Store) := do
  checkList unicode container new
  if ¬ s.containerKnown container then
    throw (.containerUnknown container)
  let erased := s.effectiveErasure state.fetched
  let fresh := new.filter fun entry ↦ entry.identifier.document?.all (· ∉ erased)
  let read := s.readChildren container
  let oldRanks := read.map fun (entry, rank) ↦ (entry.identifier, rank)
  let old := read.map Prod.fst
  let (changes, s) := (compare old fresh).foldl applyChange ([], s)
  let toWrite := changes.filterMap fun change ↦ change.after.map (·.identifier)
  let s ← writeFresh container oldRanks toWrite 0 fresh s
  let s ← s.writeState container state
  s.appendJournal changes state.fetched .complete

/-- Renews only the state of a container, for an answer that the listing has not changed. -/
def updateContainerState (s : Store) (container : Container) (state : ContainerState) :
    Except StoreError Store := do
  if ¬ s.containerKnown container then
    throw (.containerUnknown container)
  s.writeState container state

def containerStateOf (s : Store) (container : Container) : Option ContainerState :=
  (s.containerState.find? container).map (·.state)

/-- The stored children of a container, in the order of the listing last stored. -/
def children (s : Store) (container : Container) : Except StoreError (List Entry) :=
  if s.containerKnown container then .ok ((s.readChildren container).map Prod.fst)
  else .error (.containerUnknown container)

/-- A single entry. -/
def entryOf (s : Store) (identifier : EntryIdentifier) : Option Entry :=
  (s.entry.find? identifier).map (·.entry)

/-- Every place at which a document stands. -/
def placements (s : Store) (document : DocumentIdentifier) : List EntryIdentifier :=
  (s.readPlaced document).map (·.identifier)

/-- Rewrites every journal entry belonging to a document as a removal without a name. -/
def redactJournal (s : Store) (document : DocumentIdentifier) : Store :=
  { s with
    journal := s.journal.update
      (fun r ↦ if r.document = some document then
        { r with change := redactedRemoval r.change.identifier } else r)
      fun r ↦ by split <;> rfl }

/-- Erases a document from the namespace: every place goes, a tombstone is set, and the journal
forgets the names. -/
def removeDocumentEverywhere (s : Store) (document : DocumentIdentifier) (now : Timestamp) :
    Except StoreError (List JournalEntry × Store) := do
  let locations := s.readPlaced document
  let s := { s with entry := s.entry.deleteWhere (·.document = some document) }
  let time := match s.erased.find? document with
    | some r => if r.time.unixMillis < now.unixMillis then now else r.time
    | none => now
  let s := { s with erased := s.erased.upsert ⟨document, time⟩ }
  let s := s.redactJournal document
  s.appendJournal (locations.map .removed) now .redacted

/-- Empties the namespace on sign-out: entries, container states and journal. -/
def emptyNamespace (s : Store) : Except StoreError (ℕ × Store) := do
  let new ← next s.journalState.last
  let s ← { s with
    entry := .empty
    containerState := .empty
    journal := .empty }.writeJournalState ⟨new, new⟩
  return (new, s)

/-- Removes tombstones that are no longer in effect. -/
def clearErasure (s : Store) (now : Timestamp) : Store :=
  { s with erased := s.erased.deleteWhere fun r ↦ r.time.unixMillis ≤ erasureLimit now }

def readRows : ℕ → List JournalRow → Except StoreError (List JournalEntry)
  | _, [] => .ok []
  | expected, row :: rest =>
    if row.sequence ≠ expected + 1 then
      .error (.corrupt "journal"
        s!"gap in the journal: sequence {expected + 1} expected, {row.sequence} read")
    else (readRows (expected + 1) rest).map (⟨row.sequence, row.change⟩ :: ·)

/-- The changes after `sequence`, at most `max` of them. -/
def changesSince (s : Store) (sequence max : ℕ) : Except StoreError ChangeState := do
  if max = 0 then throw .emptyPage
  if sequence < s.journalState.lowerLimit then
    throw (.anchorExpired sequence (s.journalState.lowerLimit + 1))
  if s.journalState.last < sequence then
    throw (.anchorUnknown sequence s.journalState.last)
  let page := min max (2 ^ 63 - 1)
  let rows := ((s.journal.select (sequence < ·.sequence)).insertionSort
    fun r r' ↦ r.sequence ≤ r'.sequence).take page
  let changes ← readRows sequence rows
  let untilSequence := (changes.getLast?.map (·.sequence)).getD sequence
  let more := decide (untilSequence < s.journalState.last)
  if more ∧ changes.length < max then
    throw (.corrupt "journal"
      s!"entries after sequence {untilSequence} are missing, although up to {s.journalState.last} was handed out")
  return ⟨changes, untilSequence, more⟩

/-- Whether a tombstone is in effect for the document. -/
def isErased (s : Store) (document : DocumentIdentifier) (now : Timestamp) : Bool :=
  (s.erased.find? document).any fun r ↦ erasureLimit now < r.time.unixMillis

end FolderClient.Storage.Basic.Store
