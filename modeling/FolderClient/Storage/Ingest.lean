import FolderClient.Storage.Basic

namespace FolderClient.Storage.Ingest

open FolderClient.Core.Namespace FolderClient.Library.Tables FolderClient.Storage.Basic

/-- Length of a ULID. -/
def lengthKey : ℕ := 26

/-- What is settled about an ingest that has begun. -/
structure InboxPending where
  file : String
  key : String
  size : ℕ
  changed : Timestamp
  upload : Option UploadIdentifier
  created : Timestamp
deriving DecidableEq

/-- Whether the note still belongs to the file that lies on the disk now. -/
def InboxPending.matches (pending : InboxPending) (size : ℕ) (changed : Timestamp) : Bool :=
  pending.size = size && pending.changed.unixMillis = changed.unixMillis

theorem matches_iff {pending : InboxPending} {size : ℕ} {changed : Timestamp} :
    pending.matches size changed = true ↔ pending.size = size ∧ pending.changed = changed := by
  have ht : pending.changed.unixMillis = changed.unixMillis ↔ pending.changed = changed := by
    constructor
    · intro h
      cases hp : pending.changed
      cases hc : changed
      rw [hp, hc] at h
      cases h
      rfl
    · rintro rfl
      rfl
  simp only [InboxPending.matches, Bool.and_eq_true, decide_eq_true_eq, ht]

/-- The table `ingest`. -/
abbrev Notes := Table String InboxPending (·.file)

namespace Notes

/-- Creates a note or replaces it. -/
def rememberInbox (notes : Notes) (pending : InboxPending) : Except StoreError Notes :=
  if pending.key.length ≠ lengthKey then .error (.ingestKeyInvalid pending.key)
  else (Store.fromU64 pending.size "size").map fun _ ↦ notes.upsert pending

def inbox (notes : Notes) (file : String) : Option InboxPending := notes.find? file

/-- Records the promised upload. -/
def setInboxUpload (notes : Notes) (file : String) (upload : UploadIdentifier) :
    Except StoreError Notes :=
  if notes.contains file then
    .ok (notes.update (fun r ↦ if r.file = file then { r with upload := some upload } else r)
      (by intro r; split <;> rfl))
  else .error (.inboxUnknown file)

/-- Removes the note; whether there was one. -/
def forgetInbox (notes : Notes) (file : String) : Bool × Notes :=
  (notes.contains file, notes.deleteWhere (·.file = file))

variable {notes notes' : Notes} {pending : InboxPending} {file : String}

theorem rememberInbox_eq_ok (h : notes.rememberInbox pending = .ok notes') :
    notes' = notes.upsert pending := by
  unfold rememberInbox at h
  split at h
  · cases h
  · cases hs : Store.fromU64 pending.size "size" with
    | error e => rw [hs] at h; cases h
    | ok size => rw [hs] at h; exact (Except.ok.inj h).symm

theorem inbox_rememberInbox (h : notes.rememberInbox pending = .ok notes') (file : String) :
    notes'.inbox file = if file = pending.file then some pending else notes.inbox file := by
  rw [rememberInbox_eq_ok h]
  exact notes.find?_upsert pending file

theorem inbox_setInboxUpload {upload : UploadIdentifier}
    (h : notes.setInboxUpload file upload = .ok notes') (other : String) :
    notes'.inbox other = (notes.inbox other).map fun r ↦
      if r.file = file then { r with upload := some upload } else r := by
  unfold setInboxUpload at h
  split at h
  · rw [← Except.ok.inj h]
    exact notes.find?_update _ _ other
  · cases h

theorem inbox_forgetInbox (file other : String) :
    (notes.forgetInbox file).2.inbox other =
      if other = file then none else notes.inbox other := by
  refine (notes.find?_deleteWhere _ other).trans ?_
  cases h : notes.find? other with
  | none => split <;> simp [inbox, h]
  | some r =>
    have hr := ((notes.find?_eq_some_iff).mp h).2
    split <;> simp_all [inbox, Option.filter]

theorem file_of_inbox (h : notes.inbox file = some pending) : pending.file = file :=
  ((notes.find?_eq_some_iff).mp h).2

end Notes

end FolderClient.Storage.Ingest
