import FolderClient.Storage.RawRows

namespace FolderClient.Storage.RowReading

open FolderClient.Core.Namespace FolderClient.Core.Delivery FolderClient.Core.Log
open FolderClient.Core.IdentifierText FolderClient.Engine.Transfers FolderClient.Library.Results
open FolderClient.Storage.Basic FolderClient.Storage.Columns FolderClient.Storage.Ingest
open FolderClient.Storage.RawRows

/-- The file columns of an entry; a folder has none. -/
structure FileColumn where
  size : Option Int64
  sha256 : Option String
  version : Option String
  created : Option Int64
  changed : Option Int64
  mediaType : Option String

def FileColumn.default : FileColumn := ⟨none, none, none, none, none, none⟩

def column : EntryContent → Except StoreError (String × FileColumn)
  | .folder => .ok (kindFolder, .default)
  | .file d => (fromU64 d.size.toNat "size").map fun size ↦
      (kindFile, ⟨some size, d.sha256.map Sha256Value.hex, some d.version, some (millis d.created),
        some (millis d.changed), some d.mediaType⟩)

/-- What is stored of an entry at a place of its listing. -/
def writeEntry (row : Entry × Int64) : Except StoreError RawEntry :=
  (column row.1.content).map fun c ↦
    ⟨displayEntry row.1.identifier, row.1.name, c.1, c.2.size, c.2.sha256, c.2.version, c.2.created,
      c.2.changed, c.2.mediaType, row.2⟩

def writeState (state : ContainerState) : Except StoreError RawState :=
  match state.truncation with
  | none => .ok ⟨state.etag, millis state.fetched, number false, none, none⟩
  | some truncation =>
    (fromU64 truncation.displayUpperLimit.toNat "display_limit").map fun upperLimit ↦
      ⟨state.etag, millis state.fetched, number true, some upperLimit, truncation.refineUrl⟩

/-- The row of the log under a number; the database hands the numbers out. -/
def writeRow (row : ℕ × LogEntry) : Except StoreError RawRow :=
  (fromU64 row.1 "id").map fun id ↦
    ⟨id, millis row.2.time, kindName row.2.kind, row.2.subject.map (·.name),
      (row.2.subject.bind (·.document)).map (display .document),
      row.2.subject.bind (·.location), row.2.detail⟩

def writeSession (session : Session) : Except StoreError RawSession :=
  .ok ⟨display .device session.device, stateName session.state,
    session.login.map (·.account.sub), session.login.map (·.tenant),
    session.login.map (·.displayName), session.login.map fun login ↦ millis login.signedInSince⟩

def writeCommand (state : RawCommand.Read) : Except StoreError RawCommand :=
  .ok ⟨display .command state.command, millis state.received, state.outcome.map outcomeName,
    number state.acknowledged⟩

def writePending (pending : InboxPending) : Except StoreError RawInbox :=
  (fromU64 pending.size "size").map fun size ↦
    ⟨pending.file, pending.key, size, millis pending.changed,
      pending.upload.map (display .upload), millis pending.created⟩

/-- A row that its table's checks let through reads as a value exactly where that value is stored
as this row. -/
def Faithful {σ ρ : Type} (Allowed : σ → Prop) (read : σ → Except StoreError ρ)
    (write : ρ → Except StoreError σ) : Prop :=
  ∀ raw v, Allowed raw → (read raw = .ok v ↔ write v = .ok raw)

section Parts

variable {α β : Type} {error : StoreError}

theorem require_eq_ok {value : Option α} {a : α} :
    require value error = .ok a ↔ value = some a := by
  cases value with
  | none => exact iff_of_false (fun h ↦ by cases h) fun h ↦ by cases h
  | some b => exact ⟨fun h ↦ congrArg _ (Except.ok.inj h), fun h ↦ congrArg _ (Option.some.inj h)⟩

/-- A column that may be missing reads as what is written in it. -/
theorem transpose_eq_ok {f : α → Except StoreError β} {g : β → α}
    (hfg : ∀ a b, f a = .ok b ↔ a = g b) {o : Option α} {p : Option β} :
    transpose f o = .ok p ↔ o = p.map g := by
  cases o with
  | none =>
    rw [transpose]
    cases p with
    | none => exact iff_of_true rfl rfl
    | some b => exact iff_of_false (fun h ↦ by cases h) fun h ↦ by cases h
  | some a =>
    rw [transpose, map_eq_ok]
    cases p with
    | none =>
      refine iff_of_false ?_ fun h ↦ by cases h
      rintro ⟨b, -, h⟩
      cases h
    | some b =>
      rw [Option.map_some, Option.some.injEq, ← hfg]
      constructor
      · rintro ⟨b', h, hb⟩
        obtain rfl := Option.some.inj hb
        exact h
      · exact fun h ↦ ⟨b, h, rfl⟩

theorem fromU64_eq_ok {n : ℕ} {field : String} {value : Int64} :
    fromU64 n field = .ok value ↔ n < 2 ^ 63 ∧ value = Int64.ofNat n := by
  unfold fromU64
  split
  · rename_i h
    rw [Except.ok.injEq]
    exact ⟨fun hv ↦ ⟨h, hv.symm⟩, fun hv ↦ hv.2.symm⟩
  · rename_i h
    exact iff_of_false (fun h ↦ by cases h) fun hv ↦ h hv.1

theorem millis_eq {value : Int64} {t : Timestamp} :
    fromUnixMillis value = t ↔ value = millis t := by
  constructor
  · rintro rfl
    exact (millis_fromUnixMillis value).symm
  · rintro rfl
    exact fromUnixMillis_millis t

theorem sum_eq_ok {hex : String} {sum : Sha256Value} : readSum hex = .ok sum ↔ hex = sum.hex := by
  rw [readSum, require_eq_ok, Core.Checksum.fromHex_eq_some]

end Parts

section Entries

variable {raw : RawEntry} {d : FileDetails} {c : EntryContent}

theorem toNat_ofNat {n : ℕ} (h : n < 2 ^ 63) : (UInt64.ofNat n).toNat = n := by
  rw [UInt64.toNat_ofNat']
  omega

theorem details_eq_ok : raw.details = .ok d ↔ d.size.toNat < 2 ^ 63 ∧
    raw.size = some (Int64.ofNat d.size.toNat) ∧ raw.sha256 = d.sha256.map Sha256Value.hex ∧
      raw.version = some d.version ∧ raw.created = some (millis d.created) ∧
      raw.changed = some (millis d.changed) ∧ raw.mediaType = some d.mediaType := by
  unfold RawEntry.details
  simp only [bind_eq_ok, require_eq_ok, toU64_eq_ok, transpose_eq_ok fun _ _ ↦ sum_eq_ok,
    pure_eq_ok]
  constructor
  · rintro ⟨_, hsize, n, ⟨hn, rfl⟩, sum, hsum, version, hversion, created, hcreated, changed,
      hchanged, mediaType, hmedia, rfl⟩
    rw [toNat_ofNat hn, millis_fromUnixMillis, millis_fromUnixMillis]
    exact ⟨hn, hsize, hsum, hversion, hcreated, hchanged, hmedia⟩
  · rintro ⟨hn, hsize, hsum, hversion, hcreated, hchanged, hmedia⟩
    refine ⟨_, hsize, _, ⟨hn, rfl⟩, _, hsum, _, hversion, _, hcreated, _, hchanged, _, hmedia, ?_⟩
    rw [UInt64.ofNat_toNat, fromUnixMillis_millis, fromUnixMillis_millis]

theorem content_eq_ok : raw.content = .ok c ↔ (raw.kind = kindFolder ∧ c = .folder) ∨
    (raw.kind = kindFile ∧ ∃ d, raw.details = .ok d ∧ c = .file d) := by
  have hkinds : kindFolder ≠ kindFile := by decide
  unfold RawEntry.content
  by_cases hfolder : raw.kind = kindFolder
  · rw [if_pos hfolder]
    simp [hfolder, hkinds, eq_comm]
  · rw [if_neg hfolder]
    by_cases hfile : raw.kind = kindFile
    · rw [if_pos hfile, map_eq_ok]
      simp [hfile, hkinds.symm, eq_comm]
    · rw [if_neg hfile]
      simp [hfolder, hfile]

/-- The columns of a folder are empty, and the table sees to it. -/
theorem columns_of_allowed (h : raw.allowed = true) (hkind : raw.kind = kindFolder) :
    raw.size = none ∧ raw.sha256 = none ∧ raw.version = none ∧ raw.created = none ∧
      raw.changed = none ∧ raw.mediaType = none := by
  have hkinds : kindFolder ≠ kindFile := by decide
  simp only [RawEntry.allowed, hkind, Bool.and_eq_true, Bool.or_eq_true, decide_eq_true_eq,
    Option.isNone_iff_eq_none, hkinds, false_and, or_false, true_and] at h
  obtain ⟨-, ⟨⟨⟨⟨hsize, hsum⟩, hversion⟩, hcreated⟩, hchanged⟩, hmedia⟩ := h
  exact ⟨hsize, hsum, hversion, hcreated, hchanged, hmedia⟩

theorem column_eq_ok {kind : String} {f : FileColumn} : column c = .ok (kind, f) ↔
    (c = .folder ∧ kind = kindFolder ∧ f = .default) ∨
      ∃ d : FileDetails, c = .file d ∧ d.size.toNat < 2 ^ 63 ∧ kind = kindFile ∧
        f = ⟨some (Int64.ofNat d.size.toNat), d.sha256.map Sha256Value.hex, some d.version,
          some (millis d.created), some (millis d.changed), some d.mediaType⟩ := by
  cases c with
  | folder => simp [column, eq_comm]
  | file d =>
    simp only [column, map_eq_ok, fromU64_eq_ok, Prod.mk.injEq, reduceCtorEq, false_and, false_or,
      EntryContent.file.injEq]
    constructor
    · rintro ⟨_, ⟨hn, rfl⟩, rfl, rfl⟩
      exact ⟨d, rfl, hn, rfl, rfl⟩
    · rintro ⟨d', rfl, hn, rfl, rfl⟩
      exact ⟨_, ⟨hn, rfl⟩, rfl, rfl⟩

theorem content_column (h : raw.allowed = true) : raw.content = .ok c ↔
    column c = .ok (raw.kind, ⟨raw.size, raw.sha256, raw.version, raw.created, raw.changed,
      raw.mediaType⟩) := by
  rw [content_eq_ok, column_eq_ok]
  constructor
  · rintro (⟨hkind, hc⟩ | ⟨hkind, d, hd, hc⟩)
    · obtain ⟨hsize, hsum, hversion, hcreated, hchanged, hmedia⟩ := columns_of_allowed h hkind
      refine .inl ⟨hc, hkind, ?_⟩
      rw [hsize, hsum, hversion, hcreated, hchanged, hmedia]
      rfl
    · obtain ⟨hn, hsize, hsum, hversion, hcreated, hchanged, hmedia⟩ := details_eq_ok.mp hd
      refine .inr ⟨d, hc, hn, hkind, ?_⟩
      rw [hsize, hsum, hversion, hcreated, hchanged, hmedia]
  · rintro (⟨hc, hkind, -⟩ | ⟨d, hc, hn, hkind, hcolumns⟩)
    · exact .inl ⟨hkind, hc⟩
    · rw [FileColumn.mk.injEq] at hcolumns
      exact .inr ⟨hkind, d, details_eq_ok.mpr ⟨hn, hcolumns⟩, hc⟩

theorem entry_faithful : Faithful (·.allowed = true) RawEntry.entry writeEntry := by
  intro raw row hallowed
  obtain ⟨⟨identifier, name, content⟩, rank⟩ := row
  simp only [RawEntry.entry, writeEntry, bind_eq_ok, map_eq_ok, readEntryId_eq_ok, pure_eq_ok,
    content_column hallowed, Prod.mk.injEq, Entry.mk.injEq]
  constructor
  · rintro ⟨_, hidentifier, _, hcolumn, ⟨rfl, rfl, rfl⟩, rfl⟩
    exact ⟨_, hcolumn, by rw [← hidentifier]⟩
  · rintro ⟨c, hcolumn, rfl⟩
    exact ⟨identifier, rfl, content, hcolumn, ⟨rfl, rfl, rfl⟩, rfl⟩

end Entries

section States

theorem truncation_eq_ok {raw : RawState} {t : Option TruncationState} :
    raw.truncation = .ok t ↔ (raw.truncated = number false ∧ t = none) ∨
      (raw.truncated = number true ∧ ∃ u : TruncationState, t = some u ∧
        u.displayUpperLimit.toNat < 2 ^ 63 ∧
        raw.upperLimit = some (Int64.ofNat u.displayUpperLimit.toNat) ∧
        u.refineUrl = raw.address) := by
  unfold RawState.truncation
  rw [bind_eq_ok, Bool.exists_bool]
  apply or_congr
  · rw [boolFrom_eq_ok, if_neg Bool.false_ne_true, pure_eq_ok]
    exact and_congr_right fun _ ↦ eq_comm
  · rw [boolFrom_eq_ok, if_pos rfl]
    refine and_congr_right fun _ ↦ ?_
    simp only [bind_eq_ok, require_eq_ok, toU64_eq_ok, pure_eq_ok]
    constructor
    · rintro ⟨_, hlimit, n, ⟨hn, rfl⟩, rfl⟩
      refine ⟨_, rfl, ?_, ?_, rfl⟩
      · rwa [toNat_ofNat hn]
      · rwa [toNat_ofNat hn]
    · rintro ⟨u, rfl, hn, hlimit, haddress⟩
      refine ⟨_, hlimit, _, ⟨hn, rfl⟩, ?_⟩
      rw [UInt64.ofNat_toNat, ← haddress]

theorem state_faithful : Faithful (·.allowed = true) RawState.state writeState := by
  intro raw state hallowed
  obtain ⟨etag, fetched, truncation⟩ := state
  rw [RawState.state, map_eq_ok, writeState]
  simp only [truncation_eq_ok, ContainerState.mk.injEq, millis_eq]
  cases truncation with
  | none =>
    rw [Except.ok.injEq]
    constructor
    · rintro ⟨_, ⟨hflag, -⟩ | ⟨-, u, rfl, -⟩, hetag, hfetched, hnone⟩
      · have hzero : raw.truncated = 0 := hflag
        have hchecks : raw.upperLimit.all (0 ≤ ·.toInt) = true ∧ raw.upperLimit = none ∧
            raw.address = none := by
          simpa [RawState.allowed, hzero] using hallowed
        obtain ⟨-, hlimit, haddress⟩ := hchecks
        rw [← hetag, ← hfetched, ← hflag]
        exact RawState.ext rfl rfl rfl hlimit.symm haddress.symm
      · cases hnone
    · rintro rfl
      exact ⟨none, .inl ⟨rfl, rfl⟩, rfl, rfl, rfl⟩
  | some u =>
    simp only [map_eq_ok, fromU64_eq_ok]
    constructor
    · rintro ⟨_, ⟨-, rfl⟩ | ⟨hflag, u', rfl, hn, hlimit, haddress⟩, hetag, hfetched, hsome⟩
      · cases hsome
      · obtain rfl := Option.some.inj hsome
        refine ⟨_, ⟨hn, rfl⟩, ?_⟩
        rw [← hetag, ← hfetched, ← hflag, haddress, ← hlimit]
    · rintro ⟨_, ⟨hn, rfl⟩, rfl⟩
      exact ⟨_, .inr ⟨rfl, u, rfl, hn, rfl, rfl⟩, rfl, rfl, rfl⟩

end States

section Log

variable {name location detail : Option String} {document : Option DocumentIdentifier}
  {subject : Option Subject}

theorem subject_eq_ok : RawRow.subject name document location = .ok subject ↔
    name = subject.map (·.name) ∧ document = subject.bind (·.document) ∧
      location = subject.bind (·.location) := by
  unfold RawRow.subject
  cases name with
  | some name =>
    cases subject with
    | none => simp
    | some s =>
      obtain ⟨name', document', location'⟩ := s
      simp
  | none =>
    dsimp only
    split
    · rename_i hnone
      rw [Option.isNone_iff_eq_none, Option.isNone_iff_eq_none] at hnone
      obtain ⟨rfl, rfl⟩ := hnone
      cases subject with
      | none => simp
      | some s => simp
    · rename_i hsome
      cases subject with
      | none =>
        refine iff_of_false (fun h ↦ by cases h) ?_
        rintro ⟨-, rfl, rfl⟩
        exact hsome ⟨rfl, rfl⟩
      | some s => simp

theorem entryOf_eq_ok {time : Timestamp} {kind : LogKind} {e : LogEntry} :
    RawRow.entryOf time kind subject detail = .ok e ↔
      time = e.time ∧ kind = e.kind ∧ subject = e.subject ∧ detail = e.detail := by
  rw [RawRow.entryOf, require_eq_ok]
  unfold LogEntry.new
  constructor
  · intro h
    split at h
    · obtain rfl := Option.some.inj h
      exact ⟨rfl, rfl, rfl, rfl⟩
    · cases h
  · rintro ⟨rfl, rfl, rfl, rfl⟩
    rw [dif_pos e.nameless]

theorem row_faithful : Faithful (fun _ ↦ True) RawRow.row writeRow := by
  intro raw row _
  obtain ⟨n, e⟩ := row
  obtain ⟨id, time, kind, name, document, location, detail⟩ := raw
  simp only [RawRow.row, writeRow, bind_eq_ok, map_eq_ok, fromName_eq_ok,
    transpose_eq_ok fun _ _ ↦ readId_eq_ok, subject_eq_ok, entryOf_eq_ok, toU64_eq_ok,
    fromU64_eq_ok, pure_eq_ok, Prod.mk.injEq, RawRow.mk.injEq, millis_eq]
  constructor
  · rintro ⟨_, rfl, _, rfl, _, ⟨rfl, rfl, rfl⟩, _, ⟨rfl, rfl, rfl, rfl⟩, _, ⟨hn, rfl⟩, rfl, rfl⟩
    exact ⟨_, ⟨hn, rfl⟩, rfl, rfl, rfl, rfl, rfl, rfl, rfl⟩
  · rintro ⟨_, ⟨hn, rfl⟩, rfl, rfl, rfl, rfl, rfl, rfl, rfl⟩
    exact ⟨_, rfl, _, rfl, _, ⟨rfl, rfl, rfl⟩, _, ⟨rfl, rfl, rfl, rfl⟩, _, ⟨hn, rfl⟩, rfl, rfl⟩

end Log

section Sessions

theorem accountOf_eq_ok {sub : String} {account : Account} :
    accountOf sub = .ok account ↔ sub = account.sub := by
  unfold accountOf
  constructor
  · intro h
    split at h
    · cases h
    · obtain rfl := Except.ok.inj h
      rfl
  · rintro rfl
    split
    · rename_i reason hreason
      rw [account.usable] at hreason
      cases hreason
    · rfl

theorem sessionOf_eq_ok {device : DeviceIdentifier} {state : SessionState} {login : Option Login}
    {session : Session} : sessionOf device state login = .ok session ↔
      device = session.device ∧ state = session.state ∧ login = session.login := by
  unfold sessionOf
  constructor
  · intro h
    split at h
    · obtain rfl := Except.ok.inj h
      exact ⟨rfl, rfl, rfl⟩
    · split at h <;> cases h
  · rintro ⟨rfl, rfl, rfl⟩
    rw [dif_pos session.carried]

/-- The sign-in stands whole or not at all. -/
theorem login_eq_ok {raw : RawSession} {login : Option Login} : raw.login = .ok login ↔
    raw.account = login.map (·.account.sub) ∧ raw.tenant = login.map (·.tenant) ∧
      raw.displayName = login.map (·.displayName) ∧
      raw.signedInSince = login.map fun l ↦ millis l.signedInSince := by
  unfold RawSession.login
  split
  · rename_i account tenant displayName since haccount htenant hname hsince
    rw [haccount, htenant, hname, hsince, map_eq_ok]
    simp only [mapError_eq_ok, accountOf_eq_ok]
    cases login with
    | none => simp
    | some l =>
      obtain ⟨account', tenant', displayName', since'⟩ := l
      simp [millis_eq]
  · rename_i haccount htenant hname hsince
    rw [haccount, htenant, hname, hsince]
    cases login with
    | none => simp
    | some l => simp
  · rename_i hsome hnone
    refine iff_of_false (fun h ↦ by cases h) ?_
    rintro ⟨haccount, htenant, hname, hsince⟩
    cases login with
    | none => exact hnone haccount htenant hname hsince
    | some l => exact hsome _ _ _ _ haccount htenant hname hsince

theorem session_faithful : Faithful (fun _ ↦ True) RawSession.session writeSession := by
  intro raw session _
  obtain ⟨device, state, account, tenant, displayName, since⟩ := raw
  simp only [RawSession.session, writeSession, bind_eq_ok, readId_eq_ok, fromName_eq_ok,
    login_eq_ok, mapError_eq_ok, sessionOf_eq_ok, Except.ok.injEq, RawSession.mk.injEq]
  constructor
  · rintro ⟨_, rfl, _, rfl, _, ⟨rfl, rfl, rfl, rfl⟩, rfl, rfl, rfl⟩
    exact ⟨rfl, rfl, rfl, rfl, rfl, rfl⟩
  · rintro ⟨rfl, rfl, rfl, rfl, rfl, rfl⟩
    exact ⟨_, rfl, _, rfl, _, ⟨rfl, rfl, rfl, rfl⟩, rfl, rfl, rfl⟩

end Sessions

section Others

theorem outcome_eq_ok {stored : Option String} {outcome : Option CommandOutcome} :
    transpose (fromName commandOutcome · "delivery" "outcome") stored = .ok outcome ↔
      stored = outcome.map outcomeName :=
  transpose_eq_ok fun _ _ ↦ fromName_eq_ok

theorem command_faithful : Faithful (fun _ ↦ True) RawCommand.state writeCommand := by
  intro raw state _
  obtain ⟨command, received, outcome, acknowledged⟩ := raw
  obtain ⟨command', received', outcome', acknowledged'⟩ := state
  simp only [RawCommand.state, writeCommand, bind_eq_ok, readId_eq_ok, outcome_eq_ok,
    boolFrom_eq_ok, pure_eq_ok, Except.ok.injEq, RawCommand.mk.injEq, RawCommand.Read.mk.injEq,
    millis_eq]
  constructor
  · rintro ⟨_, rfl, _, rfl, _, rfl, rfl, rfl, rfl, rfl⟩
    exact ⟨rfl, rfl, rfl, rfl⟩
  · rintro ⟨rfl, rfl, rfl, rfl⟩
    exact ⟨_, rfl, _, rfl, _, rfl, rfl, rfl, rfl, rfl⟩

theorem inbox_faithful : Faithful (fun _ ↦ True) RawInbox.pending writePending := by
  intro raw pending _
  obtain ⟨file, key, size, changed, upload, created⟩ := raw
  obtain ⟨file', key', size', changed', upload', created'⟩ := pending
  simp only [RawInbox.pending, writePending, bind_eq_ok, map_eq_ok, toU64_eq_ok, fromU64_eq_ok,
    transpose_eq_ok fun _ _ ↦ readId_eq_ok, pure_eq_ok, RawInbox.mk.injEq, InboxPending.mk.injEq,
    millis_eq]
  constructor
  · rintro ⟨_, ⟨hn, rfl⟩, _, rfl, rfl, rfl, rfl, rfl, rfl, rfl⟩
    exact ⟨_, ⟨hn, rfl⟩, rfl, rfl, rfl, rfl, rfl, rfl⟩
  · rintro ⟨_, ⟨hn, rfl⟩, rfl, rfl, rfl, rfl, rfl, rfl⟩
    exact ⟨_, ⟨hn, rfl⟩, _, rfl, rfl, rfl, rfl, rfl, rfl, rfl⟩

end Others

/-- In every table reading and writing undo each other, and a row that is not what writing a value
gives is reported instead of being read as something. -/
theorem rows_faithful :
    Faithful (·.allowed = true) RawEntry.entry writeEntry ∧
      Faithful (·.allowed = true) RawState.state writeState ∧
      Faithful (fun _ ↦ True) RawRow.row writeRow ∧
      Faithful (fun _ ↦ True) RawSession.session writeSession ∧
      Faithful (fun _ ↦ True) RawCommand.state writeCommand ∧
      Faithful (fun _ ↦ True) RawInbox.pending writePending :=
  ⟨entry_faithful, state_faithful, row_faithful, session_faithful, command_faithful,
    inbox_faithful⟩

end FolderClient.Storage.RowReading
