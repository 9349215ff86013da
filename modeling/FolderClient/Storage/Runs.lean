import FolderClient.Storage.Effects

namespace FolderClient.Storage.Runs

open FolderClient.Core.Namespace FolderClient.Core.Changes FolderClient.Storage.Basic
open FolderClient.Library.Tables FolderClient.Storage.Namespace FolderClient.Storage.Tree
open FolderClient.Storage.Effects

/-- The operations that write the namespace; `reopen` opens the database with another limit of
the journal. -/
inductive Operation
  | replaceContainer (container : Container) (new : List Entry) (state : ContainerState)
  | updateContainerState (container : Container) (state : ContainerState)
  | removeDocumentEverywhere (document : DocumentIdentifier) (now : Timestamp)
  | emptyNamespace
  | clearErasure (now : Timestamp)
  | reopen (limit : ℕ)

/-- An operation that fails is rolled back. -/
def committed (s : Store) (result : Except StoreError (List JournalEntry × Store)) :
    List JournalEntry × Store :=
  match result with
  | .ok outcome => outcome
  | .error _ => ([], s)

/-- The journal entries an operation returns, and the store after it. -/
def outcome (unicode : Unicode) (s : Store) : Operation → List JournalEntry × Store
  | .replaceContainer container new state =>
    committed s (s.replaceContainer unicode container new state)
  | .updateContainerState container state =>
    committed s ((s.updateContainerState container state).map fun s' ↦ ([], s'))
  | .removeDocumentEverywhere document now => committed s (s.removeDocumentEverywhere document now)
  | .emptyNamespace => committed s (s.emptyNamespace.map fun a ↦ ([], a.2))
  | .clearErasure now => ([], s.clearErasure now)
  | .reopen limit => ([], { s with limit := limit })

def perform (unicode : Unicode) (s : Store) (operation : Operation) : Store :=
  (outcome unicode s operation).2

def run (unicode : Unicode) (s : Store) (operations : List Operation) : Store :=
  operations.foldl (perform unicode) s

/-- What an operation that did something did. -/
inductive Performed (unicode : Unicode) (s : Store) :
    Operation → List JournalEntry × Store → Prop
  | replaceContainer {container : Container} {new : List Entry} {state : ContainerState}
      {s' : Store} (gone : List Entry) :
      Replaced unicode s s' container (withoutErased s new state.fetched) state gone →
      Performed unicode s (.replaceContainer container new state)
        (numbered s.journalState.last (gone.map .removed ++
          puts s container (withoutErased s new state.fetched)), s')
  | updateContainerState {container : Container} {state : ContainerState} :
      s.containerKnown container = true →
      Performed unicode s (.updateContainerState container state)
        ([], { s with containerState := s.containerState.upsert ⟨container, state⟩ })
  | removeDocumentEverywhere {document : DocumentIdentifier} {now : Timestamp} {s' : Store} :
      s' = { s with
        entry := s.entry.deleteWhere (·.document = some document)
        erased := s'.erased, journal := s'.journal, journalState := s'.journalState } →
      Appended (s.redactJournal document) s' ((s.readPlaced document).map .removed) now .redacted →
      Performed unicode s (.removeDocumentEverywhere document now)
        (numbered s.journalState.last ((s.readPlaced document).map .removed), s')
  | emptyNamespace :
      Performed unicode s .emptyNamespace
        ([], { s with
          entry := .empty, containerState := .empty, journal := .empty
          journalState := ⟨s.journalState.last + 1, s.journalState.last + 1⟩ })
  | clearErasure {now : Timestamp} :
      Performed unicode s (.clearErasure now) ([], s.clearErasure now)
  | reopen {limit : ℕ} : Performed unicode s (.reopen limit) ([], { s with limit := limit })

theorem outcome_cases (unicode : Unicode) {s : Store} (ht : Rooted s) (operation : Operation) :
    outcome unicode s operation = ([], s) ∨
      Performed unicode s operation (outcome unicode s operation) := by
  cases operation with
  | replaceContainer container new state =>
    cases h : s.replaceContainer unicode container new state with
    | error e => exact .inl (by simp [outcome, committed, h])
    | ok a =>
      obtain ⟨out, s'⟩ := a
      obtain ⟨gone, rfl, hr⟩ := replaceContainer_eq_ok ht h
      exact .inr (by simpa [outcome, committed, h] using .replaceContainer gone hr)
  | updateContainerState container state =>
    cases h : s.updateContainerState container state with
    | error e => exact .inl (by simp [outcome, committed, h, Except.map])
    | ok s' =>
      obtain ⟨hk, rfl⟩ := updateContainerState_eq_ok h
      exact .inr (by simpa [outcome, committed, h, Except.map] using .updateContainerState hk)
  | removeDocumentEverywhere document now =>
    cases h : s.removeDocumentEverywhere document now with
    | error e => exact .inl (by simp [outcome, committed, h])
    | ok a =>
      obtain ⟨out, s'⟩ := a
      obtain ⟨rfl, hs, ha⟩ := removeDocumentEverywhere_eq_ok h
      exact .inr (by simpa [outcome, committed, h] using .removeDocumentEverywhere hs ha)
  | emptyNamespace =>
    cases h : s.emptyNamespace with
    | error e => exact .inl (by simp [outcome, committed, h, Except.map])
    | ok a =>
      obtain ⟨new, s'⟩ := a
      obtain ⟨rfl, rfl⟩ := emptyNamespace_eq_ok h
      exact .inr (by simpa [outcome, committed, h, Except.map] using .emptyNamespace)
  | clearErasure now => exact .inr .clearErasure
  | reopen limit => exact .inr .reopen

end FolderClient.Storage.Runs
