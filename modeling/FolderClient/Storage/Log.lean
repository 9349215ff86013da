import FolderClient.Library.Results
import FolderClient.Storage.Basic

namespace FolderClient.Storage.Basic.Store

open FolderClient.Core.Namespace FolderClient.Core.Log FolderClient.Storage.Basic

/-- Keeps only the newest rows of an account. -/
def trimLog (s : Store) (account : Option Account) : Store :=
  let newest := ((s.log.filter fun row ↦ row.account = account).reverse.take s.logPerAccount)
  { s with log := s.log.filter fun row ↦ row.account ≠ account || row ∈ newest }

/-- Appends a row of the usage log; without an account the row must not carry a subject. -/
def appendLog (s : Store) (account : Option Account) (entry : LogEntry) :
    Except StoreError (ℕ × Store) :=
  if account.isNone ∧ entry.subject.isSome then .error .deviceRowWithSubject
  else
    let number := s.lastLog + 1
    let grown : Store :=
      { s with log := s.log ++ [⟨number, account, entry⟩], lastLog := number }
    .ok (number, grown.trimLog account)

/-- Takes the name off every row of a document, whoever it belongs to. -/
def redact (s : Store) (document : DocumentIdentifier) : ℕ × Store :=
  let named := fun row : LogRow ↦ (row.entry.subject.bind (·.document)) = some document
  ((s.log.filter named).length,
    { s with log := s.log.map fun row ↦
        if named row then { row with entry := row.entry.redacted } else row })

end FolderClient.Storage.Basic.Store

namespace FolderClient.Storage.Log

open FolderClient.Core.Namespace FolderClient.Core.Log FolderClient.Storage.Basic
open FolderClient.Library.Results

variable {s s' : Store} {document : DocumentIdentifier}

theorem mem_redact {row : LogRow} (h : row ∈ (s.redact document).2.log) :
    (row ∈ s.log ∧ row.entry.subject.bind (·.document) ≠ some document) ∨
      ∃ old ∈ s.log, row.entry = old.entry.redacted := by
  obtain ⟨old, hold, rfl⟩ := List.mem_map.mp h
  split
  · exact .inr ⟨old, hold, rfl⟩
  · exact .inl ⟨hold, ‹_›⟩

theorem document_redacted (e : LogEntry) :
    e.redacted.subject.bind (·.document) ≠ some document := by
  cases hs : e.subject <;> simp [LogEntry.redacted, hs]

theorem appendLog_eq_ok {account : Option Account} {entry : LogEntry} {n : ℕ}
    (h : s.appendLog account entry = .ok (n, s')) :
    s' = Store.trimLog
      { s with log := s.log ++ [⟨s.lastLog + 1, account, entry⟩], lastLog := s.lastLog + 1 }
      account := by
  unfold Store.appendLog at h
  rw [ite_error_eq_ok] at h
  exact (Prod.mk.inj (Except.ok.inj h.2)).2.symm

theorem mem_appendLog {account : Option Account} {entry : LogEntry} {n : ℕ} {row : LogRow}
    (h : s.appendLog account entry = .ok (n, s')) (hm : row ∈ s'.log) :
    row ∈ s.log ∨ row.entry = entry := by
  obtain rfl := appendLog_eq_ok h
  obtain ⟨hm, -⟩ := List.mem_filter.mp hm
  obtain hm | hm := List.mem_append.mp hm
  · exact .inl hm
  · obtain rfl := List.mem_singleton.mp hm
    exact .inr rfl

end FolderClient.Storage.Log
