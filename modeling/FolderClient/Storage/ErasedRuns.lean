import FolderClient.Library.Histories
import FolderClient.Storage.Log
import FolderClient.Storage.AnchorRuns

namespace FolderClient.Storage.ErasedRuns

open FolderClient.Core.Namespace FolderClient.Core.Changes
open FolderClient.Core.Log hiding redactedName
open FolderClient.Library.Histories FolderClient.Library.Results FolderClient.Library.Tables
open FolderClient.Storage.Basic FolderClient.Storage.Effects FolderClient.Storage.Log
open FolderClient.Storage.Namespace FolderClient.Storage.Paging FolderClient.Storage.Runs
open FolderClient.Storage.Tree FolderClient.Storage.TreeRuns

/-- What happens to the names a store holds: the namespace is written, a row of the usage log is
appended, or the log of a document is redacted. -/
inductive Event
  | wrote (operation : Operation)
  | appendLog (account : Option Account) (entry : LogEntry)
  | redact (document : DocumentIdentifier)

def step (unicode : Unicode) (s : Store) : Event → Store
  | .wrote operation => perform unicode s operation
  | .appendLog account entry =>
    match s.appendLog account entry with
    | .ok (_, s') => s'
    | .error _ => s
  | .redact document => (s.redact document).2

/-- The entries a change carries. -/
def entriesOf : Change → List Entry
  | .new e | .removed e => [e]
  | .changed before after => [before, after]

/-- The entry that stands in the journal for an erased one. -/
def placeholder (identifier : EntryIdentifier) : Entry where
  identifier := identifier
  name := redactedName
  content := .file
    { size := 0, sha256 := none, version := "", created := .null, changed := .null,
      mediaType := mediaTypeRedacted }

variable {unicode : Unicode} {s s' : Store} {document : DocumentIdentifier} {e : Event}

/-- Each row of the journal is about one entry, and is found by its document. -/
structure Indexed (s : Store) : Prop where
  document : ∀ r ∈ s.journal.rows, r.document = r.change.identifier.document?
  entries : ∀ r ∈ s.journal.rows, ∀ e ∈ entriesOf r.change, e.identifier = r.change.identifier

/-- No entry of the document is stored, and its journal rows are redacted. -/
structure Nameless (document : DocumentIdentifier) (s : Store) : Prop where
  entries : ∀ r ∈ s.entry.rows, r.entry.identifier.document? ≠ some document
  journal : ∀ r ∈ s.journal.rows, r.change.identifier.document? = some document →
    r.change = redactedRemoval r.change.identifier

theorem mem_rowsAfter {time : Timestamp} {form : JournalForm} {last : ℕ} {changes : List Change}
    {r : JournalRow} (h : r ∈ rowsAfter time form last changes) :
    ∃ c ∈ changes, r.change = stored form c ∧ r.document = c.identifier.document? := by
  induction changes generalizing last with
  | nil => cases h
  | cons c changes ih =>
    rcases List.mem_cons.mp h with rfl | h
    · exact ⟨c, List.mem_cons_self, rfl, rfl⟩
    · obtain ⟨c', hc', h⟩ := ih h
      exact ⟨c', List.mem_cons_of_mem _ hc', h⟩

theorem mem_appended {changes : List Change} {time : Timestamp} {form : JournalForm}
    (h : Appended s s' changes time form) {r : JournalRow} (hr : r ∈ s'.journal.rows) :
    r ∈ s.journal.rows ∨ ∃ c ∈ changes, r.change = stored form c ∧
      r.document = c.identifier.document? := by
  have hm : r ∈ s.journal.rows ++ rowsAfter time form s.journalState.last changes := by
    rcases h.rows with ⟨-, hrows⟩ | ⟨-, -, hrows⟩
    · exact hrows ▸ hr
    · rw [hrows] at hr
      exact List.mem_of_mem_filter hr
  exact (List.mem_append.mp hm).imp_right mem_rowsAfter

theorem identifier_stored (form : JournalForm) (c : Change) :
    (stored form c).identifier = c.identifier := by
  cases form <;> rfl

/-- The entries of a change that a fresh listing brings stand in the old or in the fresh one. -/
theorem mem_puts {container : Container} {fresh : List Entry} {c : Change}
    (hf : (fresh.map Entry.identifier).Nodup) (h : c ∈ puts s container fresh) :
    (∃ e ∈ fresh, e.identifier = c.identifier) ∧
      ∀ e ∈ entriesOf c, e.identifier = c.identifier := by
  have ho := identifiers_oldListing s container
  rcases List.mem_append.mp h with h | h
  · obtain ⟨p, hp, rfl⟩ := List.mem_map.mp h
    obtain ⟨-, hm, hi, -⟩ := (mem_differing ho hf).mp hp
    refine ⟨⟨p.2, hm, rfl⟩, fun e he ↦ ?_⟩
    rcases List.mem_cons.mp he with rfl | he
    · exact hi.symm
    · rw [List.mem_singleton.mp he]
      rfl
  · obtain ⟨e, he, rfl⟩ := List.mem_map.mp h
    refine ⟨⟨e, ((mem_missing hf ho).mp he).1, rfl⟩, fun e' he' ↦ ?_⟩
    rw [List.mem_singleton.mp he']
    rfl

/-- What an operation adds to the journal, and which documents its rows are about. -/
theorem indexed_appended {changes : List Change} {time : Timestamp} {form : JournalForm}
    (h : Indexed s) (ha : Appended s s' changes time form)
    (hc : ∀ c ∈ changes, ∀ e ∈ entriesOf c, e.identifier = c.identifier) : Indexed s' := by
  constructor
  · intro r hr
    rcases mem_appended ha hr with hr | ⟨c, hm, hchange, hdocument⟩
    · exact h.document r hr
    · rw [hchange, identifier_stored, hdocument]
  · intro r hr e he
    rcases mem_appended ha hr with hr | ⟨c, hm, hchange, -⟩
    · exact h.entries r hr e he
    · rw [hchange] at he ⊢
      cases form with
      | complete => exact hc c hm e he
      | redacted =>
        rw [List.mem_singleton.mp he]
        rfl

theorem mem_redactJournal {r : JournalRow} (h : r ∈ (s.redactJournal document).journal.rows) :
    (r ∈ s.journal.rows ∧ r.document ≠ some document) ∨
      ∃ r' ∈ s.journal.rows, r = { r' with change := redactedRemoval r'.change.identifier } := by
  simp only [Store.redactJournal, Table.mem_update] at h
  obtain ⟨r', hr', rfl⟩ := h
  split
  · exact .inr ⟨r', hr', rfl⟩
  · exact .inl ⟨hr', ‹_›⟩

theorem indexed_redactJournal (h : Indexed s) (document : DocumentIdentifier) :
    Indexed (s.redactJournal document) := by
  constructor
  · intro r hr
    rcases mem_redactJournal hr with ⟨hr, -⟩ | ⟨r', hr', rfl⟩
    · exact h.document r hr
    · exact h.document r' hr'
  · intro r hr e he
    rcases mem_redactJournal hr with ⟨hr, -⟩ | ⟨r', -, rfl⟩
    · exact h.entries r hr e he
    · rw [List.mem_singleton.mp he]
      rfl

theorem indexed_perform (hw : WellFormed unicode s) (h : Indexed s) (operation : Operation) :
    Indexed (perform unicode s operation) := by
  rcases outcome_cases unicode hw.rooted operation with ho | ho
  · rw [perform, ho]
    exact h
  · rw [perform]
    generalize outcome unicode s operation = result at ho
    cases ho with
    | replaceContainer gone hr =>
      refine indexed_appended h hr.appended fun c hc ↦ ?_
      rcases List.mem_append.mp hc with hc | hc
      · obtain ⟨e, -, rfl⟩ := List.mem_map.mp hc
        intro e' he'
        rw [List.mem_singleton.mp he']
        rfl
      · exact (mem_puts hr.checked.identifiers hc).2
    | removeDocumentEverywhere _ ha =>
      refine indexed_appended (indexed_redactJournal h _) ha fun c hc ↦ ?_
      obtain ⟨e, -, rfl⟩ := List.mem_map.mp hc
      intro e' he'
      rw [List.mem_singleton.mp he']
      rfl
    | emptyNamespace => exact ⟨fun r hr ↦ (by cases hr), fun r hr ↦ (by cases hr)⟩
    | updateContainerState _ => exact ⟨h.document, h.entries⟩
    | clearErasure => exact ⟨h.document, h.entries⟩
    | reopen => exact ⟨h.document, h.entries⟩

/-- What every store keeps: the tree is well formed and the journal found by its documents. -/
structure Kept (unicode : Unicode) (s : Store) : Prop where
  wellFormed : WellFormed unicode s
  indexed : Indexed s

/-- Only the usage log differs. -/
def OnlyLog (s s' : Store) : Prop := s' = { s with log := s'.log, lastLog := s'.lastLog }

theorem onlyLog_step (hn : ∀ operation, e ≠ .wrote operation) :
    OnlyLog s (step unicode s e) := by
  cases e with
  | wrote operation => exact absurd rfl (hn operation)
  | redact document => rfl
  | appendLog account entry =>
    simp only [step]
    cases h : s.appendLog account entry with
    | error _ => rfl
    | ok result =>
      obtain ⟨n, s'⟩ := result
      obtain rfl := appendLog_eq_ok h
      rfl

theorem kept_step (h : Kept unicode s) (e : Event) : Kept unicode (step unicode s e) := by
  by_cases hn : ∃ operation, e = .wrote operation
  · obtain ⟨operation, rfl⟩ := hn
    exact ⟨wellFormed_perform h.wellFormed operation,
      indexed_perform h.wellFormed h.indexed operation⟩
  · have ho : OnlyLog s (step unicode s e) := onlyLog_step fun operation he ↦ hn ⟨operation, he⟩
    rw [ho]
    have hr := h.wellFormed.rooted
    exact ⟨⟨⟨hr.placed, hr.document, hr.known, hr.stateKnown⟩, h.wellFormed.names⟩,
      h.indexed.document, h.indexed.entries⟩

/-- A listing brings the document although no tombstone of it is in effect at its time. -/
def Revives (document : DocumentIdentifier) (s : Store) (e : Event) : Prop :=
  ∃ container new state, e = .wrote (.replaceContainer container new state) ∧
    (∃ entry ∈ new, entry.identifier.document? = some document) ∧
      s.isErased document state.fetched = false

theorem mem_effectiveErasure {now : Timestamp} :
    document ∈ s.effectiveErasure now ↔ s.isErased document now = true := by
  simp only [Store.effectiveErasure, Store.isErased, List.mem_map, Table.mem_select,
    decide_eq_true_eq, Option.any_eq_true, Table.find?_eq_some_iff]
  constructor
  · rintro ⟨r, ⟨hr, htime⟩, rfl⟩
    exact ⟨r, ⟨hr, rfl⟩, htime⟩
  · rintro ⟨r, ⟨hr, rfl⟩, htime⟩
    exact ⟨r, ⟨hr, htime⟩, rfl⟩

/-- A listing that does not revive the document does not bring it. -/
theorem not_mem_withoutErased {container : Container} {new : List Entry} {state : ContainerState}
    (hr : ¬Revives document s (.wrote (.replaceContainer container new state))) {entry : Entry}
    (he : entry ∈ withoutErased s new state.fetched) :
    entry.identifier.document? ≠ some document := by
  intro hd
  obtain ⟨hm, hall⟩ := List.mem_filter.mp he
  have hn : document ∉ s.effectiveErasure state.fetched := by simpa [hd] using hall
  rw [mem_effectiveErasure, Bool.not_eq_true] at hn
  exact hr ⟨container, new, state, rfl, ⟨entry, hm, hd⟩, hn⟩

theorem nameless_replaced {container : Container} {new gone : List Entry} {state : ContainerState}
    (h : Nameless document s)
    (hr : ¬Revives document s (.wrote (.replaceContainer container new state)))
    (hreplaced : Replaced unicode s s' container (withoutErased s new state.fetched) state gone) :
    Nameless document s' := by
  constructor
  · intro r hm
    rcases (hreplaced.rows r).mp hm with ⟨hm, -⟩ | hm
    · exact h.entries r (mem_prune_entry.mp hm).1
    · exact not_mem_withoutErased hr (mem_freshRows hm).2.1
  · intro r hm hd
    rcases mem_appended hreplaced.appended hm with hm | ⟨c, hc, hchange, -⟩
    · exact h.journal r hm hd
    · exfalso
      rw [hchange, identifier_stored] at hd
      rcases List.mem_append.mp hc with hc | hc
      · obtain ⟨e, he, rfl⟩ := List.mem_map.mp hc
        obtain ⟨r', hr', -, rfl⟩ := (hreplaced.mem_gone e).mp he
        exact h.entries r' hr' hd
      · obtain ⟨e, he, hi⟩ := (mem_puts hreplaced.checked.identifiers hc).1
        exact not_mem_withoutErased hr he (hi ▸ hd)

/-- After an erasure a journal row is redacted, or it is an older one about another document. -/
theorem mem_journal_erased {locations : List Entry} {now : Timestamp}
    (ha : Appended (s.redactJournal document) s' (locations.map .removed) now .redacted)
    {r : JournalRow} (hr : r ∈ s'.journal.rows) :
    (r ∈ s.journal.rows ∧ r.document ≠ some document) ∨
      r.change = redactedRemoval r.change.identifier := by
  rcases mem_appended ha hr with hr | ⟨c, -, hchange, -⟩
  · refine (mem_redactJournal hr).imp_right ?_
    rintro ⟨r', -, rfl⟩
    rfl
  · rw [hchange, identifier_stored]
    exact .inr rfl

theorem nameless_perform (hk : Kept unicode s) (h : Nameless document s) {operation : Operation}
    (hr : ¬Revives document s (.wrote operation)) :
    Nameless document (perform unicode s operation) := by
  rcases outcome_cases unicode hk.wellFormed.rooted operation with ho | ho
  · rw [perform, ho]
    exact h
  · rw [perform]
    generalize outcome unicode s operation = result at ho
    cases ho with
    | replaceContainer gone hreplaced => exact nameless_replaced h hr hreplaced
    | removeDocumentEverywhere hs ha =>
      refine ⟨fun r hm ↦ ?_, fun r hm hd ↦ ?_⟩
      · rw [hs] at hm
        exact h.entries r ((Table.mem_deleteWhere _).mp hm).1
      · rcases mem_journal_erased ha hm with ⟨hm, -⟩ | he
        · exact h.journal r hm hd
        · exact he
    | emptyNamespace => exact ⟨fun r hr ↦ (by cases hr), fun r hr ↦ (by cases hr)⟩
    | updateContainerState _ => exact ⟨h.entries, h.journal⟩
    | clearErasure => exact ⟨h.entries, h.journal⟩
    | reopen => exact ⟨h.entries, h.journal⟩

/-- The erasure takes every name of the document out of the namespace and out of the journal. -/
theorem nameless_erased (hk : Kept unicode s) {now : Timestamp} {out : List JournalEntry}
    (h : s.removeDocumentEverywhere document now = .ok (out, s')) : Nameless document s' := by
  obtain ⟨-, hs, ha⟩ := removeDocumentEverywhere_eq_ok h
  refine ⟨fun r hm hd ↦ ?_, fun r hm hd ↦ ?_⟩
  · rw [hs] at hm
    obtain ⟨hm, hne⟩ := (Table.mem_deleteWhere _).mp hm
    rw [hk.wellFormed.rooted.document r hm, hd] at hne
    simp at hne
  · rcases mem_journal_erased ha hm with ⟨hm, hne⟩ | he
    · exact absurd ((hk.indexed.document r hm).trans hd) hne
    · exact he

theorem nameless_step (hk : Kept unicode s) (h : Nameless document s)
    (hr : ¬Revives document s e) : Nameless document (step unicode s e) := by
  by_cases hn : ∃ operation, e = .wrote operation
  · obtain ⟨operation, rfl⟩ := hn
    exact nameless_perform hk h hr
  · have ho : OnlyLog s (step unicode s e) := onlyLog_step fun operation he ↦ hn ⟨operation, he⟩
    rw [ho]
    exact ⟨h.entries, h.journal⟩

section Log

/-- The row of the usage log is about the document. -/
def About (document : DocumentIdentifier) (row : LogRow) : Prop :=
  row.entry.subject.bind (·.document) = some document

/-- A row of the usage log that names the document is appended. -/
def Names (document : DocumentIdentifier) (_ : Store) (e : Event) : Prop :=
  ∃ account entry, e = .appendLog account entry ∧
    entry.subject.bind (·.document) = some document

/-- The rows of the usage log carry distinct numbers, the last one the largest. -/
structure Counted (s : Store) : Prop where
  nodup : (s.log.map (·.number)).Nodup
  le_last : ∀ row ∈ s.log, row.number ≤ s.lastLog

/-- No row of the usage log is about the document, and each of the named rows that is still there
is redacted. -/
structure Forgotten (document : DocumentIdentifier) (named : List LogRow) (s : Store) : Prop where
  about : ∀ row ∈ s.log, ¬About document row
  redacted : ∀ row ∈ s.log, ∀ old ∈ named, old.number = row.number →
    row.entry = old.entry.redacted
  le_last : ∀ old ∈ named, old.number ≤ s.lastLog

theorem log_wrote (hw : WellFormed unicode s) (operation : Operation) :
    (perform unicode s operation).log = s.log ∧
      (perform unicode s operation).lastLog = s.lastLog := by
  rcases outcome_cases unicode hw.rooted operation with ho | ho
  · rw [perform, ho]
    exact ⟨rfl, rfl⟩
  · rw [perform]
    generalize outcome unicode s operation = result at ho
    cases ho with
    | replaceContainer gone h =>
      exact ⟨(congrArg Store.log h.frame).trans rfl, (congrArg Store.lastLog h.frame).trans rfl⟩
    | removeDocumentEverywhere hs _ =>
      exact ⟨(congrArg Store.log hs).trans rfl, (congrArg Store.lastLog hs).trans rfl⟩
    | emptyNamespace => exact ⟨rfl, rfl⟩
    | updateContainerState _ => exact ⟨rfl, rfl⟩
    | clearErasure => exact ⟨rfl, rfl⟩
    | reopen => exact ⟨rfl, rfl⟩

theorem numbers_redact (s : Store) (document : DocumentIdentifier) :
    ((s.redact document).2.log).map (·.number) = s.log.map (·.number) := by
  simp only [Store.redact, List.map_map]
  refine List.map_congr_left fun row _ ↦ ?_
  simp only [Function.comp_apply]
  split <;> rfl

theorem counted_step (hk : Kept unicode s) (h : Counted s) (e : Event) :
    Counted (step unicode s e) := by
  cases e with
  | wrote operation =>
    obtain ⟨hlog, hlast⟩ := log_wrote hk.wellFormed operation
    constructor
    · rw [step, hlog]
      exact h.nodup
    · rw [step, hlog, hlast]
      exact h.le_last
  | redact document =>
    have hn := numbers_redact s document
    refine ⟨hn ▸ h.nodup, fun row hrow ↦ ?_⟩
    have hm : row.number ∈ s.log.map (·.number) := hn ▸ List.mem_map_of_mem hrow
    obtain ⟨old, hold, hnumber⟩ := List.mem_map.mp hm
    exact hnumber ▸ h.le_last old hold
  | appendLog account entry =>
    simp only [step]
    cases ho : s.appendLog account entry with
    | error _ => exact h
    | ok result =>
      obtain ⟨n, s'⟩ := result
      obtain rfl := appendLog_eq_ok ho
      constructor
      · refine List.Nodup.sublist (List.filter_sublist.map _) ?_
        rw [List.map_append, List.nodup_append]
        refine ⟨h.nodup, by simp, fun a ha b hb hab ↦ ?_⟩
        obtain ⟨row, hrow, rfl⟩ := List.mem_map.mp ha
        obtain rfl : b = s.lastLog + 1 := by simpa using hb
        have hle := h.le_last row hrow
        omega
      · intro row hrow
        obtain ⟨hrow, -⟩ := List.mem_filter.mp hrow
        rcases List.mem_append.mp hrow with hrow | hrow
        · exact (h.le_last row hrow).trans (Nat.le_succ _)
        · rw [List.mem_singleton.mp hrow]
          exact Nat.le_refl _

theorem forgotten_redact (hc : Counted s) (document : DocumentIdentifier) :
    Forgotten document (s.log.filter fun row ↦
      row.entry.subject.bind (·.document) = some document) (s.redact document).2 := by
  refine ⟨fun row hrow ha ↦ ?_, fun row hrow old hold hnumber ↦ ?_, fun old hold ↦ ?_⟩
  · rcases mem_redact hrow with ⟨-, hne⟩ | ⟨old, -, he⟩
    · exact hne ha
    · rw [About, he] at ha
      exact document_redacted old.entry ha
  · obtain ⟨hold, habout⟩ := List.mem_filter.mp hold
    obtain ⟨row', hrow', rfl⟩ := List.mem_map.mp hrow
    have hsame : row' = old := by
      refine List.inj_on_of_nodup_map hc.nodup hrow' hold ?_
      rw [hnumber]
      split <;> rfl
    subst hsame
    rw [if_pos (by simpa using habout)]
  · exact hc.le_last old (List.mem_filter.mp hold).1

theorem forgotten_step (hk : Kept unicode s) {named : List LogRow}
    (h : Forgotten document named s) (hn : ¬Names document s e) :
    Forgotten document named (step unicode s e) := by
  cases e with
  | wrote operation =>
    obtain ⟨hlog, hlast⟩ := log_wrote hk.wellFormed operation
    refine ⟨?_, ?_, ?_⟩
    · rw [step, hlog]
      exact h.about
    · rw [step, hlog]
      exact h.redacted
    · rw [step, hlast]
      exact h.le_last
  | redact other =>
    refine ⟨fun row hrow ha ↦ ?_, fun row hrow old hold hnumber ↦ ?_, h.le_last⟩
    · rcases mem_redact hrow with ⟨hrow, -⟩ | ⟨old, -, he⟩
      · exact h.about row hrow ha
      · rw [About, he] at ha
        exact document_redacted old.entry ha
    · obtain ⟨row', hrow', rfl⟩ := List.mem_map.mp hrow
      split at hnumber
      · rename_i habout
        have he := h.redacted row' hrow' old hold hnumber
        exact absurd (he ▸ habout) (by simpa using document_redacted old.entry)
      · rename_i habout
        rw [if_neg habout]
        exact h.redacted row' hrow' old hold hnumber
  | appendLog account entry =>
    simp only [step]
    cases ho : s.appendLog account entry with
    | error _ => exact h
    | ok result =>
      obtain ⟨n, s'⟩ := result
      obtain rfl := appendLog_eq_ok ho
      have hmem : ∀ row ∈ (Store.trimLog
          { s with log := s.log ++ [⟨s.lastLog + 1, account, entry⟩], lastLog := s.lastLog + 1 }
          account).log, row ∈ s.log ∨ row = ⟨s.lastLog + 1, account, entry⟩ := by
        intro row hrow
        simpa using List.mem_append.mp (List.mem_filter.mp hrow).1
      refine ⟨fun row hrow ha ↦ ?_, fun row hrow old hold hnumber ↦ ?_, fun old hold ↦ ?_⟩
      · rcases hmem row hrow with hrow | rfl
        · exact h.about row hrow ha
        · exact hn ⟨account, entry, rfl, ha⟩
      · rcases hmem row hrow with hrow | rfl
        · exact h.redacted row hrow old hold hnumber
        · have hle := h.le_last old hold
          dsimp only at hnumber
          omega
      · exact (h.le_last old hold).trans (Nat.le_succ _)

end Log

section Repeated

theorem readPlaced_nil (hk : Kept unicode s) (h : Nameless document s) :
    s.readPlaced document = [] := by
  have hf : s.entry.select (·.document = some document) = [] := by
    refine List.filter_eq_nil_iff.mpr fun r hr ↦ ?_
    rw [hk.wellFormed.rooted.document r hr]
    simpa using h.entries r hr
  rw [Store.readPlaced, hf]
  rfl

theorem redactJournal_eq_self (hk : Kept unicode s) (h : Nameless document s) :
    s.redactJournal document = s := by
  have hj : ∀ r ∈ s.journal.rows, (if r.document = some document then
      { r with change := redactedRemoval r.change.identifier } else r) = r := by
    intro r hr
    split
    · rename_i hd
      rw [← h.journal r hr ((hk.indexed.document r hr).symm.trans hd)]
    · rfl
  simp only [Store.redactJournal, Table.update_eq_self s.journal hj]

/-- The time up to which the tombstone of an erasure lasts. -/
def erasedAt (s : Store) (document : DocumentIdentifier) (now : Timestamp) : Timestamp :=
  match s.erased.find? document with
  | some r => if r.time.unixMillis < now.unixMillis then now else r.time
  | none => now

/-- Repeating an erasure touches nothing but its tombstone, which may come to last longer. -/
theorem removeDocumentEverywhere_again (hk : Kept unicode s) (h : Nameless document s)
    (now : Timestamp) :
    ∃ time, s.removeDocumentEverywhere document now =
        .ok ([], { s with erased := s.erased.upsert ⟨document, time⟩ }) ∧
      ∀ r, s.erased.find? document = some r → now.unixMillis ≤ r.time.unixMillis →
        { s with erased := s.erased.upsert ⟨document, time⟩ } = s := by
  have hdelete : s.entry.deleteWhere (·.document = some document) = s.entry := by
    refine s.entry.deleteWhere_eq_self fun r hr ↦ ?_
    rw [hk.wellFormed.rooted.document r hr]
    simpa using h.entries r hr
  have hjournal : (s.redactJournal document).journal = s.journal := by
    rw [redactJournal_eq_self hk h]
  refine ⟨erasedAt s document now, ?_, fun r hr hle ↦ ?_⟩
  · unfold Store.removeDocumentEverywhere
    rw [readPlaced_nil hk h, hdelete]
    simp only [Store.redactJournal] at hjournal ⊢
    rw [hjournal]
    rfl
  · have hm := s.erased.find?_eq_some_iff.mp hr
    rw [erasedAt, hr]
    dsimp only
    rw [if_neg (by omega)]
    obtain ⟨hm, rfl⟩ := hm
    rw [s.erased.upsert_of_mem hm]

end Repeated

/-- Where no row is about the document, redacting changes nothing. -/
theorem redact_again (h : ∀ row ∈ s.log, ¬About document row) :
    s.redact document = (0, s) := by
  have hfilter : s.log.filter (fun row ↦ row.entry.subject.bind (·.document) = some document) =
      [] := List.filter_eq_nil_iff.mpr fun row hrow hd ↦
        h row hrow (by simpa [About] using hd)
  have hmap : s.log.map (fun row ↦ if row.entry.subject.bind (·.document) = some document then
      { row with entry := row.entry.redacted } else row) = s.log := by
    refine (List.map_congr_left fun row hrow ↦ ?_).trans s.log.map_id'
    exact if_neg (show ¬(row.entry.subject.bind (·.document) = some document) from h row hrow)
  simp only [Store.redact, hfilter, hmap, List.length_nil]

theorem kept_run (n limit : ℕ) (events : List Event) :
    Kept unicode (run (step unicode) (Store.setUp n limit) events) :=
  holds_run (fun _ e h ↦ kept_step h e)
    ⟨wellFormed_setUp unicode n limit, fun _ hr ↦ (nomatch hr), fun _ hr ↦ (nomatch hr)⟩

theorem mem_readRows {expected : ℕ} {rows : List JournalRow} {changes : List JournalEntry}
    (h : Store.readRows expected rows = .ok changes) {entry : JournalEntry} (he : entry ∈ changes) :
    ∃ r ∈ rows, entry = toEntry r := by
  induction rows generalizing expected changes with
  | nil =>
    obtain rfl := Except.ok.inj h
    cases he
  | cons r rows ih =>
    simp only [Store.readRows, ite_error_eq_ok] at h
    cases hrest : Store.readRows (expected + 1) rows with
    | error e =>
      rw [hrest] at h
      cases h.2
    | ok rest =>
      rw [hrest] at h
      obtain rfl := Except.ok.inj h.2
      rcases List.mem_cons.mp he with rfl | he
      · exact ⟨r, List.mem_cons_self, rfl⟩
      · obtain ⟨r', hr', he⟩ := ih hrest he
        exact ⟨r', List.mem_cons_of_mem _ hr', he⟩

/-- Every page of the journal is made of its rows. -/
theorem mem_changesSince {f max : ℕ} {page : ChangeState} (h : s.changesSince f max = .ok page)
    {entry : JournalEntry} (he : entry ∈ page.changes) :
    ∃ r ∈ s.journal.rows, entry = toEntry r := by
  unfold Store.changesSince at h
  simp only [ite_throw_eq_ok] at h
  obtain ⟨-, -, -, h⟩ := h
  obtain ⟨changes, hread, h⟩ := bind_eq_ok.mp h
  rw [ite_throw_eq_ok] at h
  obtain rfl := Except.ok.inj h.2
  obtain ⟨r, hr, he⟩ := mem_readRows hread he
  refine ⟨r, ?_, he⟩
  exact ((Table.mem_select _).mp ((List.mem_insertionSort _).mp (List.mem_of_mem_take hr))).1

theorem counted_run (n limit : ℕ) (events : List Event) :
    Counted (run (step unicode) (Store.setUp n limit) events) := by
  refine (holds_run (Q := fun s ↦ Kept unicode s ∧ Counted s)
    (fun s e h ↦ ⟨kept_step h.1 e, counted_step h.1 h.2 e⟩) ⟨kept_run n limit [], ?_, ?_⟩).2
  · exact List.nodup_nil
  · exact fun _ hr ↦ (nomatch hr)

theorem nameless_run {later : List Event} (hk : Kept unicode s) (h : Nameless document s)
    (hr : ¬Somewhere (step unicode) (Revives document) s later) :
    Kept unicode (run (step unicode) s later) ∧ Nameless document (run (step unicode) s later) := by
  refine (holds_or_somewhere (Q := fun s ↦ Kept unicode s ∧ Nameless document s)
    (fun s e hs ↦ ?_) ⟨hk, h⟩).resolve_right hr
  by_cases he : Revives document s e
  · exact .inr he
  · exact .inl ⟨kept_step hs.1 e, nameless_step hs.1 hs.2 he⟩

theorem forgotten_run {later : List Event} {named : List LogRow} (hk : Kept unicode s)
    (h : Forgotten document named s) (hn : ¬Somewhere (step unicode) (Names document) s later) :
    Forgotten document named (run (step unicode) s later) := by
  refine ((holds_or_somewhere (Q := fun s ↦ Kept unicode s ∧ Forgotten document named s)
    (fun s e hs ↦ ?_) ⟨hk, h⟩).resolve_right hn).2
  by_cases he : Names document s e
  · exact .inr he
  · exact .inl ⟨kept_step hs.1 e, forgotten_step hs.1 hs.2 he⟩

/-- What the changes after an anchor and the stored entries say of an erased document. -/
theorem placeholder_of_nameless (hk : Kept unicode s) (h : Nameless document s) {f max : ℕ}
    {page : ChangeState} (hpage : s.changesSince f max = .ok page) {row : JournalEntry}
    (hrow : row ∈ page.changes) {entry : Entry} (he : entry ∈ entriesOf row.change)
    (hd : entry.identifier.document? = some document) : entry = placeholder entry.identifier := by
  obtain ⟨r, hr, rfl⟩ := mem_changesSince hpage hrow
  have hi : entry.identifier = r.change.identifier := hk.indexed.entries r hr entry he
  have hc := h.journal r hr (hi ▸ hd)
  simp only [toEntry] at he
  rw [hc] at he
  rw [hi]
  exact List.mem_singleton.mp he

theorem run_erased {n limit : ℕ} {events : List Event} {now : Timestamp} {out : List JournalEntry}
    (h : (run (step unicode) (Store.setUp n limit) events).removeDocumentEverywhere document now =
      .ok (out, s')) :
    s' = run (step unicode) (Store.setUp n limit)
      (events ++ [.wrote (.removeDocumentEverywhere document now)]) := by
  rw [run_append]
  simp only [run_cons, run_nil, step, perform, outcome, committed, h]

/-- After an erasure and the redaction of the log, as long as no listing from a time at which no
tombstone of the document is in effect brings it and no row of the log names it, the store has the
document's names nowhere, and repeating the erasure at most makes its tombstone last longer. -/
theorem nameless_of_erasure (unicode : Unicode) (n limit : ℕ) (events between later : List Event)
    (document : DocumentIdentifier) (now : Timestamp) {out : List JournalEntry} {s₁ s₂ s₃ : Store}
    (herased : (run (step unicode) (Store.setUp n limit) events).removeDocumentEverywhere
      document now = .ok (out, s₁))
    (hbetween : run (step unicode) s₁ between = s₂)
    (hlater : run (step unicode) (s₂.redact document).2 later = s₃)
    (hrevived : ¬Somewhere (step unicode) (Revives document) s₁
      (between ++ .redact document :: later))
    (hnamed : ¬Somewhere (step unicode) (Names document) (s₂.redact document).2 later) :
    (∀ r ∈ s₃.entry.rows, r.entry.identifier.document? ≠ some document) ∧
    (∀ f max page, s₃.changesSince f max = .ok page → ∀ row ∈ page.changes,
      ∀ entry ∈ entriesOf row.change, entry.identifier.document? = some document →
        entry = placeholder entry.identifier) ∧
    (∀ row ∈ s₃.log, ¬About document row ∧
      ∀ old ∈ s₂.log, About document old → old.number = row.number →
        row.entry = old.entry.redacted) ∧
    (∀ now', ∃ time, s₃.removeDocumentEverywhere document now' =
        .ok ([], { s₃ with erased := s₃.erased.upsert ⟨document, time⟩ }) ∧
      ∀ r, s₃.erased.find? document = some r → now'.unixMillis ≤ r.time.unixMillis →
        { s₃ with erased := s₃.erased.upsert ⟨document, time⟩ } = s₃) ∧
    s₃.redact document = (0, s₃) := by
  have hs₁ := run_erased herased
  have hk₁ : Kept unicode s₁ := hs₁ ▸ kept_run n limit _
  have hn₁ : Nameless document s₁ := nameless_erased (kept_run n limit events) herased
  have hs₂ : s₂ = run (step unicode) (Store.setUp n limit)
      (events ++ [.wrote (.removeDocumentEverywhere document now)] ++ between) := by
    rw [run_append, ← hs₁, hbetween]
  have hc₂ : Counted s₂ := hs₂ ▸ counted_run n limit _
  have hk₂ : Kept unicode (s₂.redact document).2 :=
    kept_step (hs₂ ▸ kept_run n limit _) (.redact document)
  have hrun : run (step unicode) s₁ (between ++ .redact document :: later) = s₃ := by
    rw [run_append, hbetween, ← hlater]
    rfl
  obtain ⟨hk₃, hn₃⟩ := hrun ▸ nameless_run hk₁ hn₁ hrevived
  have hf₃ := hlater ▸ forgotten_run hk₂ (forgotten_redact hc₂ document) hnamed
  refine ⟨hn₃.entries, fun f max page hpage row hrow entry he hd ↦
    placeholder_of_nameless hk₃ hn₃ hpage hrow he hd, fun row hrow ↦ ⟨hf₃.about row hrow, ?_⟩,
    removeDocumentEverywhere_again hk₃ hn₃, ?_⟩
  · intro old hold ha hnumber
    exact hf₃.redacted row hrow old (List.mem_filter.mpr ⟨hold, decide_eq_true ha⟩) hnumber
  · exact redact_again hf₃.about

section Letter

def time (millis : Fin 1000) : Timestamp := ⟨millis.val, by omega, by omega⟩

def folder (container : Container) (name : String) : Entry := ⟨.container container, name, .folder⟩

def letter : Entry where
  identifier := .document (.search ⟨1⟩) ⟨7⟩
  name := "Abmahnung.pdf"
  content := .file ⟨1, some ⟨0⟩, "1", .null, .null, "application/pdf"⟩

def fetchedAt (t : Timestamp) : ContainerState := ⟨none, t, none⟩

def letterOpened : LogEntry where
  time := .null
  kind := .opened
  subject := some ⟨"Abmahnung.pdf", some ⟨7⟩, none⟩
  detail := none
  nameless _ := rfl

/-- A search that lists one document, and a row of the usage log about it. -/
def listed : List Event :=
  [.wrote (.replaceContainer .root [folder .searches "Suchen"] (fetchedAt .null)),
    .wrote (.replaceContainer .searches [folder (.search ⟨1⟩) "Eingang"] (fetchedAt .null)),
    .wrote (.replaceContainer (.search ⟨1⟩) [letter] (fetchedAt .null)),
    .appendLog (some ⟨"usr", rfl⟩) letterOpened]

/-- A listing from before the erasure that arrives after it does not bring the document back. -/
theorem letter_stays_away :
    ¬ ∃ r ∈ (run (step ⟨id, id⟩) (Store.setUp 0 100) (listed ++
        [.wrote (.removeDocumentEverywhere ⟨7⟩ (time 5)), .redact ⟨7⟩,
          .wrote (.replaceContainer (.search ⟨1⟩) [letter] (fetchedAt (time 4)))])).entry.rows,
      r.entry.identifier.document? = some ⟨7⟩ := by
  have hok : ((run (step ⟨id, id⟩) (Store.setUp 0 100) listed).removeDocumentEverywhere ⟨7⟩
      (time 5)).toOption.isSome = true := by
    decide +kernel
  obtain ⟨⟨out, s₁⟩, herased⟩ := Option.isSome_iff_exists.mp hok
  have herased := ok_of_toOption herased
  have hs₁ := run_erased herased
  have hin : (run (step ⟨id, id⟩) (Store.setUp 0 100) (listed ++
      [.wrote (.removeDocumentEverywhere ⟨7⟩ (time 5))] ++ [.redact ⟨7⟩])).isErased ⟨7⟩ (time 4) =
        true := by
    decide +kernel
  rw [run_append, ← hs₁] at hin
  have h := nameless_of_erasure ⟨id, id⟩ 0 100 listed []
    [.wrote (.replaceContainer (.search ⟨1⟩) [letter] (fetchedAt (time 4)))] ⟨7⟩ (time 5) herased rfl
    rfl ?_ ?_
  · have hrun : listed ++ [Event.wrote (.removeDocumentEverywhere ⟨7⟩ (time 5)), .redact ⟨7⟩,
        .wrote (.replaceContainer (.search ⟨1⟩) [letter] (fetchedAt (time 4)))] =
        listed ++ [.wrote (.removeDocumentEverywhere ⟨7⟩ (time 5))] ++ [.redact ⟨7⟩,
          .wrote (.replaceContainer (.search ⟨1⟩) [letter] (fetchedAt (time 4)))] := rfl
    rw [hrun, run_append, ← hs₁]
    rintro ⟨r, hr, hd⟩
    exact h.1 r hr hd
  · rintro (⟨_, _, _, he, -⟩ | ⟨_, _, _, he, -, hgone⟩ | h)
    · cases he
    · cases he
      exact Bool.false_ne_true (hgone.symm.trans hin)
    · exact h
  · rintro (⟨_, _, he, -⟩ | h)
    · cases he
    · exact h

/-- A listing from before the erasure arrives after the tombstone has ended and is cleared. -/
theorem letter_comes_back : ¬ ∀ (events later : List Event) (document : DocumentIdentifier)
    (now : Timestamp),
    (∀ container new state, .wrote (.replaceContainer container new state) ∈ later →
      state.fetched.unixMillis < now.unixMillis + erasureTakesEffectMillis) →
    ∀ r ∈ (run (step ⟨id, id⟩) (Store.setUp 0 100) (events ++
        [.wrote (.removeDocumentEverywhere document now), .redact document] ++ later)).entry.rows,
      r.entry.identifier.document? ≠ some document := by
  intro h
  have hcleared : (run (step ⟨id, id⟩) (Store.setUp 0 100) (listed ++
      [.wrote (.removeDocumentEverywhere ⟨7⟩ (time 5)), .redact ⟨7⟩] ++
      [.wrote (.clearErasure ((time 5).plusMillis erasureTakesEffectMillis)),
        .wrote (.replaceContainer (.search ⟨1⟩) [letter] (fetchedAt (time 4)))])).entry.rows.any
      (fun r ↦ r.entry.identifier.document? = some ⟨7⟩) = true := by
    decide +kernel
  obtain ⟨r, hr, hd⟩ := List.any_eq_true.mp hcleared
  refine h listed _ ⟨7⟩ (time 5) ?_ r hr (of_decide_eq_true hd)
  intro container new state hm
  simp only [List.mem_cons, Event.wrote.injEq, reduceCtorEq, List.not_mem_nil, or_false, false_or,
    Operation.replaceContainer.injEq] at hm
  rw [hm.2.2]
  decide

end Letter

end FolderClient.Storage.ErasedRuns
