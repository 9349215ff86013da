import FolderClient.Engine.Ingest
import FolderClient.Engine.Orderly

namespace FolderClient.Engine.IngestRuns

open FolderClient.Core.Namespace FolderClient.Engine.Ingest
open FolderClient.Engine.Orderly
open FolderClient.Engine.Port hiding Request Answer Setting serve World
open FolderClient.Library.Pools FolderClient.Library.Programs
open FolderClient.Library.Programs.Program hiding call
open FolderClient.Library.Programs.Contract
open FolderClient.Net.Access FolderClient.Net.Idempotency FolderClient.Library.Tables
open FolderClient.Storage.Basic FolderClient.Storage.Ingest FolderClient.Wire.Ingest

/-- The payload was tried under the key, and no ingest of it has been confirmed since. -/
def Open (log : List Event) (payload : Payload) (key : String) : Prop :=
  ∃ before file after, log = before ++ .began payload key file :: after ∧
    ∀ upload, .confirmed payload upload ∉ after

/-- What may happen after what has happened: a payload is tried under the key it was tried under
before, until it is confirmed, and a key is used for one file; a file leaves its basket once an
upload of its bytes is confirmed; and a note is forgotten once the file has left. -/
def Allowed (past : List Event) : Event → Prop
  | .began payload key file =>
    (∀ key', Open past payload key' → key' = key) ∧
      ∀ payload' file', .began payload' key file' ∈ past → file' = file
  | .left note upload file => ∃ payload, payload.note = note ∧
      [.loaded upload file.bytes, .confirmed payload upload].Sublist past
  | .forgotten note => ∃ before upload file after,
      past = before ++ .left note upload file :: after ∧
        ∀ payload key file', .began payload key file' ∈ after → payload.note ≠ note
  | _ => True

/-- Every event was allowed by what had happened before. -/
def Kept (log : List Event) : Prop :=
  ∀ before event after, log = before ++ event :: after → Allowed before event

/-- The payload can be ingested with that file: under a note that fits, only that file was tried;
and where the payload was tried and is still open, its note stands. -/
structure Clear (w : World) (payload : Payload) (file : File) : Prop where
  same : ∀ noted, w.notes.inbox payload.note = some noted →
    noted.matches payload.size payload.changed = true →
      ∀ payload' file', .began payload' noted.key file' ∈ w.log → file' = file
  stands : ∀ key, Open w.log payload key → ∃ noted, w.notes.inbox payload.note = some noted ∧
    noted.matches payload.size payload.changed = true

/-- An ingest begins only while no other one of the same basket and file name is under way, and
looks only at a file that can be ingested; and no file is put where an ingest has looked at one and
not put it aside yet. -/
def careful : Condition where
  serve i
    | .begins arrival, w => ∀ j t, j ≠ i → w.turn j = some t → t.arrival.note ≠ arrival.note
    | .metadata path, w => ∀ t name changed file, w.turn i = some t → path.name = some name →
      w.files path = some (changed, file) →
        Clear w ⟨t.arrival.basket, name, file.bytes.length, changed⟩ file
    | _, _ => True
  deed
    | .put path _ _, w => ∀ i t, w.turn i = some t → t.exposed = true → t.arrival.path ≠ path
    | .take _, _ => True

section Logs

variable {log : List Event} {payload : Payload} {key : String} {event : Event}

theorem snoc_eq {before after : List Event} {e : Event} (h : log ++ [event] = before ++ e :: after) :
    (after = [] ∧ log = before ∧ event = e) ∨
      ∃ after', after = after' ++ [event] ∧ log = before ++ e :: after' := by
  obtain rfl | ⟨after', b, rfl⟩ := List.eq_nil_or_concat after
  · obtain ⟨hl, he⟩ := List.append_inj' h rfl
    exact .inl ⟨rfl, hl, (List.cons.inj he).1⟩
  · rw [List.concat_eq_append, ← List.cons_append, ← List.append_assoc] at h
    obtain ⟨hl, he⟩ := List.append_inj' h rfl
    obtain rfl := (List.cons.inj he).1
    exact .inr ⟨after', by rw [List.concat_eq_append], hl⟩

theorem kept_snoc (h : Kept log) (he : Allowed log event) : Kept (log ++ [event]) := by
  intro before e after heq
  obtain ⟨-, rfl, rfl⟩ | ⟨after', -, hl⟩ := snoc_eq heq
  · exact he
  · exact h before e after' hl

theorem open_of_snoc (h : Open (log ++ [event]) payload key) :
    Open log payload key ∨ ∃ file, event = .began payload key file := by
  obtain ⟨before, file, after, heq, hn⟩ := h
  obtain ⟨-, -, rfl⟩ | ⟨after', rfl, hl⟩ := snoc_eq heq
  · exact .inr ⟨file, rfl⟩
  · exact .inl ⟨before, file, after', hl, fun upload hu ↦ hn upload (List.mem_append_left _ hu)⟩

/-- What others do opens nothing. -/
theorem open_of_append {others : List Event} (ho : ∀ e ∈ others, e.note ≠ some payload.note)
    (h : Open (log ++ others) payload key) : Open log payload key := by
  induction others generalizing log with
  | nil => simpa using h
  | cons e others ih =>
    rw [List.append_cons] at h
    obtain h | ⟨file, rfl⟩ := open_of_snoc (ih (fun e he ↦ ho e (List.mem_cons_of_mem _ he)) h)
    · exact h
    · exact (ho _ List.mem_cons_self rfl).elim

theorem mem_of_open (h : Open log payload key) : ∃ file, .began payload key file ∈ log := by
  obtain ⟨before, file, after, rfl, -⟩ := h
  exact ⟨file, by simp⟩

end Logs

/-- Keys and notes belong together: a key was drawn for one note, and every attempt under the key of
a standing note was of what the note is for; a payload that is open and whose note stands was tried
under the key of the note. -/
structure Coherent (w : World) : Prop where
  issued : ∀ x ∈ w.issued, ∀ y ∈ w.issued, x.1 = y.1 → x.2 = y.2
  notes : ∀ note noted, w.notes.inbox note = some noted → (noted.key, note) ∈ w.issued
  began : ∀ payload key file, .began payload key file ∈ w.log → (key, payload.note) ∈ w.issued
  used : ∀ note noted payload file, w.notes.inbox note = some noted →
    .began payload noted.key file ∈ w.log → noted.matches payload.size payload.changed = true
  standing : ∀ payload key noted, Open w.log payload key →
    w.notes.inbox payload.note = some noted →
      noted.matches payload.size payload.changed = true → noted.key = key
  log : Kept w.log

/-- No two ingests under way have the same note. -/
def Apart (w : World) : Prop :=
  ∀ i j t t', w.turn i = some t → w.turn j = some t' → t.arrival.note = t'.arrival.note → i = j

/-- What the others leave to the ingest in a place: its turn, its note, the file it has looked at as
long as that is there, and what has happened with its note. -/
structure Others (i : ℕ) (w w' : World) : Prop where
  turn : w'.turn i = w.turn i
  notes : ∀ t, w.turn i = some t →
    w'.notes.inbox t.arrival.note = w.notes.inbox t.arrival.note
  files : ∀ t, w.turn i = some t → t.exposed = true →
    ∀ x, w'.files t.arrival.path = some x → w.files t.arrival.path = some x
  issued : w.issued ⊆ w'.issued
  log : ∃ others, w'.log = w.log ++ others ∧
    ∀ t, w.turn i = some t → ∀ e ∈ others, e.note ≠ some t.arrival.note

/-- A key that was drawn for a note and not used. -/
def Drawn (key note : String) (w : World) : Prop :=
  (key, note) ∈ w.issued ∧ ∀ payload file, .began payload key file ∉ w.log

def InOrder (i : ℕ) : Request → World → Prop
  | .rememberInbox pending, w => ∃ t, w.turn i = some t ∧ pending.file = t.arrival.note ∧
      Drawn pending.key pending.file w ∧
        ∀ payload key, payload.note = pending.file →
          pending.matches payload.size payload.changed = true → ¬ Open w.log payload key
  | .setInboxUpload note _, w => ∃ t, w.turn i = some t ∧ note = t.arrival.note
  | .forgetInbox note, w => ∃ t, w.turn i = some t ∧ note = t.arrival.note ∧
      Allowed w.log (.forgotten note)
  | .inboxCreate _ key payload file, w => ∃ t noted, w.turn i = some t ∧
      payload.note = t.arrival.note ∧ w.notes.inbox payload.note = some noted ∧
        noted.key = key.value ∧ noted.matches payload.size payload.changed = true ∧
          ∀ payload' file', .began payload' key.value file' ∈ w.log → file' = file
  | .inboxComplete _ _ payload, w => ∃ t, w.turn i = some t ∧ payload.note = t.arrival.note
  | .rename path upload _, w | .removeFile path upload, w => ∃ t, w.turn i = some t ∧
      ∀ changed file, w.files path = some (changed, file) →
        Allowed w.log (.left t.arrival.note upload file)
  | _, _ => True

def discipline : Discipline Request Answer World where
  invariant w := Coherent w ∧ Apart w
  ok := InOrder
  rely := Others
  ends _ _ := True

theorem Others.refl (i : ℕ) (w : World) : Others i w w :=
  ⟨rfl, fun _ _ ↦ rfl, fun _ _ _ _ h ↦ h, List.Subset.refl _, [], by simp⟩

theorem Others.trans {i : ℕ} {w w' w'' : World} (h : Others i w w') (h' : Others i w' w'') :
    Others i w w'' where
  turn := h'.turn.trans h.turn
  notes t ht := (h'.notes t (h.turn.trans ht)).trans (h.notes t ht)
  files t ht he x hx := h.files t ht he x (h'.files t (h.turn.trans ht) he x hx)
  issued := List.Subset.trans h.issued h'.issued
  log := by
    obtain ⟨es, hl, he⟩ := h.log
    obtain ⟨es', hl', he'⟩ := h'.log
    refine ⟨es ++ es', by rw [hl', hl, List.append_assoc], fun t ht e hm ↦ ?_⟩
    obtain hm | hm := List.mem_append.mp hm
    · exact he t ht e hm
    · exact he' t (h.turn.trans ht) e hm

section Invariant

variable {w w' : World} {i : ℕ}

theorem Coherent.congr (h : Coherent w) (hn : w'.notes = w.notes) (hi : w'.issued = w.issued)
    (hl : w'.log = w.log) : Coherent w' where
  issued := hi ▸ h.issued
  notes := by rw [hn, hi]; exact h.notes
  began := by rw [hl, hi]; exact h.began
  used := by rw [hn, hl]; exact h.used
  standing := by rw [hn, hl]; exact h.standing
  log := hl ▸ h.log

theorem Coherent.note_eq (h : Coherent w) {note note' : String} {noted noted' : InboxPending}
    (hn : w.notes.inbox note = some noted) (hn' : w.notes.inbox note' = some noted')
    (hk : noted.key = noted'.key) : noted = noted' := by
  have he : note = note' := h.issued _ (h.notes note noted hn) _ (h.notes note' noted' hn') hk
  subst he
  exact Option.some.inj (hn.symm.trans hn')

theorem Coherent.logging {event : Event} (h : Coherent w) (ha : Allowed w.log event)
    (hb : ∀ payload key file, event ≠ .began payload key file) : Coherent (w.logging event) := by
  have hold : ∀ payload key file, .began payload key file ∈ (w.logging event).log →
      .began payload key file ∈ w.log := by
    intro payload key file hm
    obtain hm | hm := List.mem_append.mp hm
    · exact hm
    · exact absurd (List.mem_singleton.mp hm).symm (hb payload key file)
  refine ⟨h.issued, h.notes, fun payload key file hm ↦ h.began payload key file (hold _ _ _ hm),
    fun note noted payload file hn hm ↦ h.used note noted payload file hn (hold _ _ _ hm), ?_,
    kept_snoc h.log ha⟩
  intro payload key noted ho
  obtain ho | ⟨file, rfl⟩ := open_of_snoc ho
  · exact h.standing payload key noted ho
  · exact (hb _ _ _ rfl).elim

theorem Coherent.begun {payload : Payload} {file : File} {noted : InboxPending} (h : Coherent w)
    (hn : w.notes.inbox payload.note = some noted)
    (hm : noted.matches payload.size payload.changed = true)
    (hs : ∀ payload' file', .began payload' noted.key file' ∈ w.log → file' = file) :
    Coherent (w.logging (.began payload noted.key file)) where
  issued := h.issued
  notes := h.notes
  began payload' key' file' hb := by
    obtain hb | hb := List.mem_append.mp hb
    · exact h.began payload' key' file' hb
    · obtain ⟨rfl, rfl, rfl⟩ := Event.began.inj (List.mem_singleton.mp hb)
      exact h.notes _ _ hn
  used note noted' payload' file' hn' hb := by
    obtain hb | hb := List.mem_append.mp hb
    · exact h.used note noted' payload' file' hn' hb
    · obtain ⟨rfl, hk, rfl⟩ := Event.began.inj (List.mem_singleton.mp hb)
      rw [h.note_eq hn' hn hk]
      exact hm
  standing payload' key' noted' ho hn' hm' := by
    obtain ho | ⟨file', he⟩ := open_of_snoc ho
    · exact h.standing payload' key' noted' ho hn' hm'
    · obtain ⟨rfl, rfl, rfl⟩ := Event.began.inj he
      rw [Option.some.inj (hn'.symm.trans hn)]
  log := by
    refine kept_snoc h.log ⟨fun key' ho ↦ ?_, hs⟩
    exact (h.standing payload key' noted ho hn hm).symm

theorem Coherent.remembered {pending : InboxPending} {notes : Notes} (h : Coherent w)
    (hr : w.notes.rememberInbox pending = .ok notes) (hd : Drawn pending.key pending.file w)
    (ho : ∀ payload key, payload.note = pending.file →
      pending.matches payload.size payload.changed = true → ¬ Open w.log payload key) :
    Coherent (w.withNotes notes) := by
  have hcases : ∀ note noted, notes.inbox note = some noted →
      note = pending.file ∧ noted = pending ∨ w.notes.inbox note = some noted := by
    intro note noted hn
    rw [Notes.inbox_rememberInbox hr] at hn
    split at hn
    · exact .inl ⟨‹_›, (Option.some.inj hn).symm⟩
    · exact .inr hn
  refine ⟨h.issued, fun note noted hn ↦ ?_, h.began, fun note noted payload file hn hb ↦ ?_,
    fun payload key noted hopen hn hm ↦ ?_, h.log⟩
  · obtain ⟨rfl, rfl⟩ | hn := hcases note noted hn
    · exact hd.1
    · exact h.notes note noted hn
  · obtain ⟨-, rfl⟩ | hn := hcases note noted hn
    · exact (hd.2 payload file hb).elim
    · exact h.used note noted payload file hn hb
  · obtain ⟨hf, rfl⟩ | hn := hcases _ noted hn
    · exact (ho payload key hf hm hopen).elim
    · exact h.standing payload key noted hopen hn hm

theorem Coherent.uploading {notes : Notes} {note : String} {upload : UploadIdentifier}
    (h : Coherent w) (hs : w.notes.setInboxUpload note upload = .ok notes) :
    Coherent (w.withNotes notes) := by
  have hold : ∀ other noted, notes.inbox other = some noted →
      ∃ noted', w.notes.inbox other = some noted' ∧ noted'.key = noted.key ∧
        ∀ size changed, noted'.matches size changed = noted.matches size changed := by
    intro other noted hn
    rw [Notes.inbox_setInboxUpload hs] at hn
    obtain ⟨noted', hn', rfl⟩ := Option.map_eq_some_iff.mp hn
    refine ⟨noted', hn', ?_, fun size changed ↦ ?_⟩ <;> split <;> rfl
  refine ⟨h.issued, fun other noted hn ↦ ?_, h.began, fun other noted payload file hn hb ↦ ?_,
    fun payload key noted hopen hn hm ↦ ?_, h.log⟩
  · obtain ⟨noted', hn', hk, -⟩ := hold other noted hn
    exact hk ▸ h.notes other noted' hn'
  · obtain ⟨noted', hn', hk, hm⟩ := hold other noted hn
    exact (hm _ _).symm.trans (h.used other noted' payload file hn' (hk ▸ hb))
  · obtain ⟨noted', hn', hk, hm'⟩ := hold _ noted hn
    exact hk.symm.trans (h.standing payload key noted' hopen hn' ((hm' _ _).trans hm))

theorem Coherent.forgetting (h : Coherent w) (note : String) :
    Coherent (w.withNotes (w.notes.forgetInbox note).2) := by
  have hold : ∀ other noted, (w.notes.forgetInbox note).2.inbox other = some noted →
      w.notes.inbox other = some noted := by
    intro other noted hn
    rw [Notes.inbox_forgetInbox] at hn
    split at hn
    · cases hn
    · exact hn
  exact ⟨h.issued, fun other noted hn ↦ h.notes other noted (hold other noted hn), h.began,
    fun other noted payload file hn ↦ h.used other noted payload file (hold other noted hn),
    fun payload key noted hopen hn ↦ h.standing payload key noted hopen (hold _ noted hn), h.log⟩

theorem Coherent.drawing {key note : String} (h : Coherent w) (hk : ∀ x ∈ w.issued, x.1 ≠ key) :
    Coherent { w with issued := (key, note) :: w.issued } where
  issued x hx y hy he := by
    obtain rfl | hx := List.mem_cons.mp hx <;> obtain rfl | hy := List.mem_cons.mp hy
    · rfl
    · exact absurd he.symm (hk y hy)
    · exact absurd he (hk x hx)
    · exact h.issued x hx y hy he
  notes other noted hn := List.mem_cons_of_mem _ (h.notes other noted hn)
  began payload key' file hb := List.mem_cons_of_mem _ (h.began payload key' file hb)
  used := h.used
  standing := h.standing
  log := h.log

/-- A step of one ingest that touches no note but its own is one of the others to the rest. -/
theorem others_of_own (ha : Apart w) {j : ℕ} (hj : j ≠ i) (hturn : w'.turn j = w.turn j)
    (hnotes : ∀ note, (∀ t, w.turn i = some t → t.arrival.note ≠ note) →
      w'.notes.inbox note = w.notes.inbox note)
    (hfiles : ∀ path x, w'.files path = some x → w.files path = some x)
    (hissued : w.issued ⊆ w'.issued) (es : List Event) (hlog : w'.log = w.log ++ es)
    (hes : ∀ e ∈ es, ∀ note, e.note = some note → ∃ t, w.turn i = some t ∧ t.arrival.note = note) :
    Others j w w' where
  turn := hturn
  notes t ht := hnotes _ fun t' ht' hn ↦ hj (ha i j t' t ht' ht hn).symm
  files t _ _ x hx := hfiles _ x hx
  issued := hissued
  log := by
    refine ⟨es, hlog, fun t ht e he hn ↦ ?_⟩
    obtain ⟨t', ht', hn'⟩ := hes e he _ hn
    exact hj (ha i j t' t ht' ht hn').symm

theorem turn_exposing {exposed : Bool} {j : ℕ} {t : Turn}
    (h : (w.exposing i exposed).turn j = some t) :
    ∃ t', w.turn j = some t' ∧ t'.arrival = t.arrival := by
  by_cases hj : j = i
  · subst hj
    rw [World.exposing, World.turn_withTurn_self] at h
    obtain ⟨t', ht', rfl⟩ := Option.map_eq_some_iff.mp h
    exact ⟨t', ht', rfl⟩
  · rw [World.exposing, World.turn_withTurn_of_ne hj] at h
    exact ⟨t, h, rfl⟩

theorem Apart.exposing (h : Apart w) (i : ℕ) (exposed : Bool) : Apart (w.exposing i exposed) := by
  intro j k t t' hj hk hn
  obtain ⟨u, hu, ha⟩ := turn_exposing hj
  obtain ⟨u', hu', ha'⟩ := turn_exposing hk
  exact h j k u u' hu hu' (by rw [ha, ha']; exact hn)

theorem Apart.ending (h : Apart w) (i : ℕ) : Apart (w.withTurn i none) := by
  intro j k t t' hj hk hn
  have hne : ∀ j t, (w.withTurn i none).turn j = some t → w.turn j = some t := by
    intro j t ht
    by_cases hj : j = i
    · subst hj
      rw [World.turn_withTurn_self] at ht
      cases ht
    · rwa [World.turn_withTurn_of_ne hj] at ht
  exact h j k t t' (hne j t hj) (hne k t' hk) hn

theorem Apart.beginning {arrival : Arrival} (h : Apart w)
    (ha : ∀ j t, j ≠ i → w.turn j = some t → t.arrival.note ≠ arrival.note) :
    Apart (w.withTurn i (some ⟨arrival, false⟩)) := by
  intro j k t t' hj hk hn
  by_cases hji : j = i <;> by_cases hki : k = i
  · rw [hji, hki]
  · subst hji
    rw [World.turn_withTurn_self] at hj
    rw [World.turn_withTurn_of_ne hki] at hk
    obtain rfl := Option.some.inj hj
    exact absurd hn.symm (ha k t' hki hk)
  · subst hki
    rw [World.turn_withTurn_of_ne hji] at hj
    rw [World.turn_withTurn_self] at hk
    obtain rfl := Option.some.inj hk
    exact absurd hn (ha j t hji hj)
  · rw [World.turn_withTurn_of_ne hji] at hj
    rw [World.turn_withTurn_of_ne hki] at hk
    exact h j k t t' hj hk hn

theorem files_withFile_none {path other : FilePath} {x : Timestamp × File}
    (h : (w.withFile path none).files other = some x) : w.files other = some x := by
  by_cases ho : other = path
  · subst ho
    rw [World.files_withFile_self] at h
    cases h
  · rwa [World.files_withFile_of_ne ho] at h

end Invariant

section Served

variable {w w' : World} {i : ℕ}

/-- What a step keeps, and leaves to the others. -/
abbrev Fits (i : ℕ) (w w' : World) : Prop :=
  (Coherent w' ∧ Apart w') ∧ ∀ j, j ≠ i → Others j w w'

theorem fits_refl (h : Coherent w ∧ Apart w) : Fits i w w := ⟨h, fun j _ ↦ .refl j w⟩

theorem fits_of_turn (hc : Coherent w) (ha : Apart w) {turn : Option Turn}
    (h : Apart (w.withTurn i turn)) : Fits i w (w.withTurn i turn) := by
  refine ⟨⟨hc.congr rfl rfl rfl, h⟩, fun j hj ↦ ?_⟩
  exact others_of_own ha hj (Function.update_of_ne hj ..) (fun _ _ ↦ rfl) (fun _ _ h ↦ h)
    (List.Subset.refl _) [] (by simp [World.withTurn]) (by simp)

theorem fits_logging (hc : Coherent w) (ha : Apart w) {event : Event}
    (h : Coherent (w.logging event))
    (he : ∀ note, event.note = some note → ∃ t, w.turn i = some t ∧ t.arrival.note = note) :
    Fits i w (w.logging event) := by
  refine ⟨⟨h, ha⟩, fun j hj ↦ ?_⟩
  refine others_of_own ha hj rfl (fun _ _ ↦ rfl) (fun _ _ h ↦ h) (List.Subset.refl _) [event] rfl ?_
  intro e hm
  rw [List.mem_singleton.mp hm]
  exact he

theorem fits_notes (ha : Apart w) {notes : Notes} {t : Turn} (ht : w.turn i = some t)
    (h : Coherent (w.withNotes notes))
    (hn : ∀ other, other ≠ t.arrival.note → notes.inbox other = w.notes.inbox other) :
    Fits i w (w.withNotes notes) := by
  refine ⟨⟨h, ha⟩, fun j hj ↦ ?_⟩
  refine others_of_own ha hj rfl (fun other ho ↦ ?_) (fun _ _ h ↦ h) (List.Subset.refl _) []
    (by simp [World.withNotes]) (by simp)
  exact hn other (ho t ht).symm

theorem fits_held (h : Coherent w ∧ Apart w) (upload : UploadIdentifier) (name : String)
    (file : File) : Fits i w (w.held upload name file) := by
  refine ⟨⟨h.1.congr rfl rfl rfl, h.2⟩, fun j hj ↦ ?_⟩
  exact others_of_own h.2 hj rfl (fun _ _ ↦ rfl) (fun _ _ h ↦ h) (List.Subset.refl _) []
    (by simp [World.held]) (by simp)

theorem fits_leaving (h : Coherent w ∧ Apart w) {path : FilePath} {upload : UploadIdentifier}
    {file : File} {t : Turn} (ht : w.turn i = some t)
    (hl : Allowed w.log (.left t.arrival.note upload file)) :
    Fits i w (w.leaving i path upload file) := by
  have hnote : w.noteAt i = t.arrival.note := by simp [World.noteAt, ht]
  have hc : Coherent ((w.withFile path none).exposing i false) := h.1.congr rfl rfl rfl
  refine ⟨⟨hc.logging (hnote ▸ hl) (by simp), h.2.exposing i false⟩, fun j hj ↦ ?_⟩
  refine others_of_own h.2 hj (Function.update_of_ne hj ..) (fun _ _ ↦ rfl)
    (fun _ _ hx ↦ files_withFile_none hx) (List.Subset.refl _) [.left (w.noteAt i) upload file] rfl ?_
  intro e hm note hn
  obtain rfl := List.mem_singleton.mp hm
  simp only [Event.note, Option.some.injEq] at hn
  exact ⟨t, ht, hnote.symm.trans hn⟩

theorem fits_serve {r : Request} {a : Answer r} (h : Coherent w ∧ Apart w) (hok : InOrder i r w)
    (hserve : serve i r w a w') (hcareful : careful.serve i r w) : Fits i w w' := by
  obtain ⟨hc, ha⟩ := h
  cases r with
  | begins arrival =>
    obtain rfl := hserve
    exact fits_of_turn hc ha (ha.beginning hcareful)
  | metadata path =>
    obtain ⟨changed, file, -, -, rfl⟩ | ⟨-, rfl⟩ := hserve
    · exact fits_of_turn hc ha (ha.exposing i true)
    · exact fits_refl ⟨hc, ha⟩
  | readFile | openFile | inbox =>
    obtain ⟨-, rfl⟩ := hserve
    exact fits_refl ⟨hc, ha⟩
  | now | createHolding =>
    obtain rfl := hserve
    exact fits_refl ⟨hc, ha⟩
  | ulid time =>
    obtain ⟨random, key, -, hfresh, -, rfl⟩ | ⟨-, rfl⟩ := hserve
    · refine ⟨⟨hc.drawing hfresh, ha⟩, fun j hj ↦ ?_⟩
      exact others_of_own ha hj rfl (fun _ _ ↦ rfl) (fun _ _ h ↦ h) (List.subset_cons_self _ _) []
        (by simp) (by simp)
    · exact fits_refl ⟨hc, ha⟩
  | rememberInbox pending =>
    obtain ⟨t, ht, hf, hd, ho⟩ := hok
    obtain ⟨notes, hr, -, rfl⟩ | ⟨-, rfl⟩ := hserve
    · refine fits_notes ha ht (hc.remembered hr hd ho) fun other hother ↦ ?_
      rw [Notes.inbox_rememberInbox hr, if_neg (hf ▸ hother)]
    · exact fits_refl ⟨hc, ha⟩
  | setInboxUpload note upload =>
    obtain ⟨t, ht, rfl⟩ := hok
    obtain ⟨notes, hs, -, rfl⟩ | ⟨-, rfl⟩ := hserve
    · refine fits_notes ha ht (hc.uploading hs) fun other hother ↦ ?_
      rw [Notes.inbox_setInboxUpload hs]
      cases hn : w.notes.inbox other with
      | none => rfl
      | some noted =>
        rw [Option.map_some, if_neg (by rw [Notes.file_of_inbox hn]; exact hother)]
    · exact fits_refl ⟨hc, ha⟩
  | forgetInbox note =>
    obtain ⟨t, ht, rfl, hl⟩ := hok
    obtain ⟨-, rfl⟩ | ⟨-, rfl⟩ := hserve
    · refine ⟨⟨(hc.forgetting _).logging hl (by simp), ha⟩, fun j hj ↦ ?_⟩
      refine others_of_own ha hj rfl (fun other ho ↦ ?_) (fun _ _ h ↦ h) (List.Subset.refl _)
        [.forgotten t.arrival.note] rfl ?_
      · exact (Notes.inbox_forgetInbox _ other).trans (if_neg (ho t ht).symm)
      · intro e hm note hn
        obtain rfl := List.mem_singleton.mp hm
        simp only [Event.note, Option.some.injEq] at hn
        exact ⟨t, ht, hn⟩
    · exact fits_refl ⟨hc, ha⟩
  | inboxCreate request key payload file =>
    obtain ⟨t, noted, ht, hnote, hn, hk, hm, hs⟩ := hok
    obtain rfl := hserve
    rw [← hk] at hs ⊢
    refine fits_logging hc ha (hc.begun hn hm hs) fun note hnote' ↦ ?_
    simp only [Event.note, Option.some.injEq] at hnote'
    exact ⟨t, ht, hnote.symm.trans hnote'⟩
  | inboxHighLoad upload target file size sha256 =>
    obtain ⟨-, rfl⟩ | ⟨-, rfl⟩ := hserve
    · exact fits_logging hc ha (hc.logging trivial (by simp)) nofun
    · exact fits_refl ⟨hc, ha⟩
  | inboxComplete upload key payload =>
    obtain ⟨t, ht, hnote⟩ := hok
    obtain ⟨completion, -, rfl⟩ | ⟨-, rfl⟩ := hserve
    · refine fits_logging hc ha (hc.logging trivial (by simp)) fun note hnote' ↦ ?_
      simp only [Event.note, Option.some.injEq] at hnote'
      exact ⟨t, ht, hnote.symm.trans hnote'⟩
    · exact fits_refl ⟨hc, ha⟩
  | rename path upload name =>
    obtain ⟨t, ht, hl⟩ := hok
    obtain ⟨changed, file, hf, -, rfl⟩ | ⟨-, rfl⟩ := hserve
    · have hleft : Fits i w (w.leaving i path upload file) :=
        fits_leaving ⟨hc, ha⟩ ht (hl changed file hf)
      have hheld := fits_held (i := i) hleft.1 upload name file
      exact ⟨hheld.1, fun j hj ↦ (hleft.2 j hj).trans (hheld.2 j hj)⟩
    · exact fits_refl ⟨hc, ha⟩
  | copy path upload name =>
    obtain ⟨changed, file, -, -, rfl⟩ | ⟨-, rfl | ⟨file, rfl⟩⟩ := hserve
    · exact fits_held ⟨hc, ha⟩ upload name file
    · exact fits_refl ⟨hc, ha⟩
    · exact fits_held ⟨hc, ha⟩ upload name file
  | removeFile path upload =>
    obtain ⟨t, ht, hl⟩ := hok
    obtain ⟨changed, file, hf, -, rfl⟩ | ⟨-, rfl⟩ := hserve
    · exact fits_leaving ⟨hc, ha⟩ ht (hl changed file hf)
    · exact fits_refl ⟨hc, ha⟩

end Served

section Facts

variable {i : ℕ} {arrival : Arrival} {payload : Payload} {file : File} {key note : String}
  {w w' : World}

/-- The ingest in a place has looked at the file, and no other can lie there. -/
structure Watched (i : ℕ) (arrival : Arrival) (file : File) (w : World) : Prop where
  turn : w.turn i = some ⟨arrival, true⟩
  files : ∀ changed g, w.files arrival.path = some (changed, g) → g = file

theorem Watched.others (h : Watched i arrival file w) (ho : Others i w w') :
    Watched i arrival file w' where
  turn := ho.turn.trans h.turn
  files changed g hg := h.files changed g (ho.files _ h.turn rfl _ hg)

theorem Watched.logging (h : Watched i arrival file w) (event : Event) :
    Watched i arrival file (w.logging event) := ⟨h.turn, h.files⟩

theorem Watched.withNotes (h : Watched i arrival file w) (notes : Notes) :
    Watched i arrival file (w.withNotes notes) := ⟨h.turn, h.files⟩

/-- An attempt that the others made is not one of this ingest. -/
theorem began_of_others {t : Turn} (ho : Others i w w') (hc : Coherent w')
    (ht : w.turn i = some t) (hk : (key, t.arrival.note) ∈ w'.issued)
    (hb : .began payload key file ∈ w'.log) : .began payload key file ∈ w.log := by
  obtain ⟨others, hl, hn⟩ := ho.log
  have hnote : payload.note = t.arrival.note :=
    hc.issued _ (hc.began payload key file hb) _ hk rfl
  rw [hl] at hb
  obtain hb | hb := List.mem_append.mp hb
  · exact hb
  · exact (hn t ht _ hb (congrArg some hnote)).elim

theorem open_of_others {t : Turn} (ho : Others i w w') (ht : w.turn i = some t)
    (hn : payload.note = t.arrival.note) (h : Open w'.log payload key) :
    Open w.log payload key := by
  obtain ⟨others, hl, hnote⟩ := ho.log
  rw [hl] at h
  exact open_of_append (fun e he ↦ hn ▸ hnote t ht e he) h

theorem Clear.others {t : Turn} (h : Clear w payload file) (ho : Others i w w')
    (hc : Coherent w') (ht : w.turn i = some t) (hn : payload.note = t.arrival.note) :
    Clear w' payload file := by
  have hnotes : w'.notes.inbox payload.note = w.notes.inbox payload.note := hn ▸ ho.notes t ht
  constructor
  · intro noted hnoted hm payload' file' hb
    have hk : (noted.key, t.arrival.note) ∈ w'.issued := hn ▸ hc.notes _ noted hnoted
    rw [hnotes] at hnoted
    exact h.same noted hnoted hm payload' file' (began_of_others ho hc ht hk hb)
  · intro key hopen
    rw [hnotes]
    exact h.stands key (open_of_others ho ht hn hopen)

theorem Drawn.others {t : Turn} (h : Drawn key t.arrival.note w) (ho : Others i w w')
    (hc : Coherent w') (ht : w.turn i = some t) : Drawn key t.arrival.note w' :=
  ⟨ho.issued h.1, fun payload file hb ↦
    h.2 payload file (began_of_others ho hc ht (ho.issued h.1) hb)⟩

theorem sublist_of_others (ho : Others i w w') : w.log.Sublist w'.log := by
  obtain ⟨others, hl, -⟩ := ho.log
  rw [hl]
  exact List.sublist_append_left _ _

/-- After the file has left, its note may be forgotten. -/
theorem forgotten_of_others {t : Turn} (h : Allowed w.log (.forgotten t.arrival.note))
    (ho : Others i w w') (ht : w.turn i = some t) :
    Allowed w'.log (.forgotten t.arrival.note) := by
  obtain ⟨before, upload, file, after, hl, hn⟩ := h
  obtain ⟨others, hl', hn'⟩ := ho.log
  refine ⟨before, upload, file, after ++ others, by rw [hl', hl, List.append_assoc,
    List.cons_append], fun payload key file' hb ↦ ?_⟩
  obtain hb | hb := List.mem_append.mp hb
  · exact hn payload key file' hb
  · intro he
    exact hn' t ht _ hb (congrArg some he)

end Facts

section Programs

variable {setting : Setting} {i : ℕ} {α β : Type} {w : World}

abbrev knowing (setting : Setting) (i : ℕ) : Contract Request Answer World :=
  discipline.knowing (rules setting careful) i

/-- A success comes in a state of that kind. -/
def Gives (P : α → World → Prop) (r : Except EngineError α) (w : World) : Prop :=
  ∀ a, r = .ok a → P a w

theorem sound_step {r : Request} {g : Answer r → Except EngineError α} {P : α → World → Prop}
    (hok : InOrder i r w) (h : ∀ a b w' w'', serve i r w a w' → careful.serve i r w →
      Coherent w → Others i w' w'' → Coherent w'' → g a = .ok b → P b w'') :
    (knowing setting i).Sound (ExceptT.mk (call r >>= fun a ↦ pure (g a)) : Operation α).run
      (Gives P) w :=
  sound_call_bind hok fun a w' w'' hs hr b hb ↦
    h a b w' w'' hs.1.1 hs.1.2 hs.2.1 hr.1 hr.2.1 hb

theorem sound_seq {p : Operation α} {f : α → Operation β} {P : α → World → Prop}
    {P' : β → World → Prop} (hp : (knowing setting i).Sound p.run (Gives P) w)
    (hf : ∀ a w', P a w' → (knowing setting i).Sound (f a).run (Gives P') w') :
    (knowing setting i).Sound (p >>= f).run (Gives P') w := by
  refine sound_fallible_bind (sound_mono ?_ hp)
  intro r w' h
  cases r with
  | ok a => exact hf a w' (h a rfl)
  | error e => exact fun a ha ↦ nomatch ha

theorem sound_now_bind {f : Timestamp → Operation β} {P : β → World → Prop}
    (h : ∀ time w', Others i w w' → Coherent w' →
      (knowing setting i).Sound (f time).run (Gives P) w') :
    (knowing setting i).Sound ((liftM (call .now) : Operation Timestamp) >>= f).run (Gives P) w :=
  sound_lift_bind trivial fun time w' w'' hs hr ↦ by
    obtain rfl : w' = w := hs.1.1
    exact h time w'' hr.1 hr.2.1

variable {arrival : Arrival} {file : File} {name : String} {payload : Payload} {t : Turn}

theorem sound_ulid {P : World → Prop} {note : String} (ht : w.turn i = some t)
    (hn : t.arrival.note = note) (hP : P w) (hkeep : ∀ w w', w.turn i = some t → P w →
      Others i w w' → Coherent w' → P w')
    (hissued : ∀ w x, P w → P { w with issued := x :: w.issued }) :
    (knowing setting i).Sound ulid.run (Gives fun key w' ↦ P w' ∧ Drawn key note w') w := by
  refine sound_now_bind fun time w₁ ho₁ hc₁ ↦ ?_
  have ht₁ : w₁.turn i = some t := ho₁.turn.trans ht
  have hP₁ : P w₁ := hkeep w w₁ ht hP ho₁ hc₁
  refine sound_step (r := .ulid time) trivial fun a key w₂ w₃ hs _ hc ho hc₃ hkey ↦ ?_
  obtain ⟨random, drawn, -, hfresh, rfl, rfl⟩ | ⟨⟨e, rfl⟩, -⟩ := hs
  · obtain rfl := Except.ok.inj hkey
    have hnote : w₁.noteAt i = t.arrival.note := by simp [World.noteAt, ht₁]
    refine ⟨hkeep _ w₃ ?_ (hissued w₁ _ hP₁) ho hc₃, hn ▸ Drawn.others ?_ ho hc₃ ht₁⟩
    · exact ht₁
    refine ⟨hnote ▸ List.mem_cons_self, fun payload file hb ↦ ?_⟩
    exact hfresh _ (hc.began payload drawn file hb) rfl
  · cases hkey

/-- The file was looked at and can be ingested. -/
structure Checked (i : ℕ) (arrival : Arrival) (payload : Payload) (file : File) (w : World) :
    Prop where
  watched : Watched i arrival file w
  clear : Clear w payload file

theorem Checked.others {w' : World} (h : Checked i arrival payload file w)
    (hn : payload.note = arrival.note) (ho : Others i w w') (hc : Coherent w') :
    Checked i arrival payload file w' :=
  ⟨h.watched.others ho, h.clear.others ho hc h.watched.turn hn⟩

theorem sound_checkFile (ht : w.turn i = some ⟨arrival, false⟩)
    (hname : arrival.path.name = some name) :
    (knowing setting i).Sound (checkFile setting arrival.path).run
      (Gives fun x w' ↦ x.2.1 = x.2.2.2.bytes.length ∧
        Checked i arrival ⟨arrival.basket, name, x.2.1, x.2.2.1⟩ x.2.2.2 w') w := by
  have hnote : ∀ size changed, Payload.note ⟨arrival.basket, name, size, changed⟩ =
      arrival.note := by
    intro size changed
    simp [Payload.note, Arrival.note, hname]
  refine sound_seq (P := fun changed w' ↦ ∃ file, Checked i arrival
    ⟨arrival.basket, name, file.bytes.length, changed⟩ file w') ?_ ?_
  · refine sound_step (r := .metadata arrival.path) trivial fun a changed w₁ w₂ hs hcareful _ ho hc₂ hchanged ↦ ?_
    obtain ⟨changed', file, hfile, rfl, rfl⟩ | ⟨⟨e, rfl⟩, -⟩ := hs
    · obtain rfl := Except.ok.inj hchanged
      refine ⟨file, Checked.others ⟨⟨?_, ?_⟩, ?_⟩ (hnote _ _) ho hc₂⟩
      · rw [World.exposing, World.turn_withTurn_self, ht]
        rfl
      · intro changed g hg
        obtain ⟨-, rfl⟩ := Prod.mk.inj (Option.some.inj (hfile.symm.trans hg))
        rfl
      · have hclear := hcareful _ name changed' file ht hname hfile
        exact ⟨hclear.same, hclear.stands⟩
    · cases hchanged
  · rintro changed w₁ ⟨file, h⟩
    refine sound_seq (P := fun g w' ↦ g = file ∧ Checked i arrival
      ⟨arrival.basket, name, file.bytes.length, changed⟩ file w') ?_ ?_
    · refine sound_step (r := .readFile arrival.path) trivial fun a g w₂ w₃ hs _ _ ho hc₃ hg ↦ ?_
      obtain ⟨⟨changed', g', hfile, rfl⟩ | ⟨e, rfl⟩, rfl⟩ := hs
      · obtain rfl := Except.ok.inj hg
        exact ⟨h.watched.files changed' g' hfile, h.others (hnote _ _) ho hc₃⟩
      · cases hg
    · rintro g w₂ ⟨rfl, h⟩ x hx
      obtain rfl := Except.ok.inj hx
      exact ⟨rfl, h⟩

theorem sound_pending (hn : payload.note = arrival.note)
    (h : Checked i arrival payload file w) :
    (knowing setting i).Sound (pending payload.note payload.size payload.changed).run
      (Gives fun noted w' ↦ Checked i arrival payload file w' ∧
        w'.notes.inbox payload.note = some noted ∧
          noted.matches payload.size payload.changed = true) w := by
  have hturn : ∀ w, Checked i arrival payload file w → w.turn i = some ⟨arrival, true⟩ :=
    fun w h ↦ h.watched.turn
  have hnotes : ∀ w w', Checked i arrival payload file w → Others i w w' →
      w'.notes.inbox payload.note = w.notes.inbox payload.note := by
    intro w w' h ho
    rw [hn]
    exact ho.notes ⟨arrival, true⟩ (hturn w h)
  refine sound_seq (P := fun noted w' ↦ Checked i arrival payload file w' ∧
    w'.notes.inbox payload.note = noted) ?_ ?_
  · refine sound_step (r := .inbox payload.note) trivial fun a noted w₁ w₂ hs _ _ ho hc₂ hnoted ↦ ?_
    obtain ⟨rfl | ⟨e, rfl⟩, rfl⟩ := hs
    · obtain rfl := Except.ok.inj hnoted
      exact ⟨h.others hn ho hc₂, hnotes w₁ w₂ h ho⟩
    · cases hnoted
  rintro noted w₁ ⟨h₁, hnoted⟩
  split
  · rename_i present hpresent
    obtain ⟨rfl, hm⟩ := Option.filter_eq_some_iff.mp hpresent
    intro x hx
    obtain rfl := Except.ok.inj hx
    exact ⟨h₁, hnoted, hm⟩
  -- no note fits: what was tried of the payload is closed, and a new key is drawn
  rename_i hnone
  have hfree : ∀ noted, w₁.notes.inbox payload.note = some noted →
      ¬ noted.matches payload.size payload.changed = true := by
    intro noted' hnoted' hm
    rw [hnoted'] at hnoted
    rw [← hnoted, Option.filter_some, if_pos hm] at hnone
    cases hnone
  refine sound_seq (P := fun key w' ↦ (Checked i arrival payload file w' ∧
    ∀ noted, w'.notes.inbox payload.note = some noted →
      ¬ noted.matches payload.size payload.changed = true) ∧ Drawn key payload.note w') ?_ ?_
  · refine sound_ulid (h₁.watched.turn) hn.symm ⟨h₁, hfree⟩ ?_ ?_
    · rintro w w' - ⟨hw, hf⟩ ho hc
      exact ⟨hw.others hn ho hc, by rw [hnotes w w' hw ho]; exact hf⟩
    · rintro w x ⟨hw, hf⟩
      exact ⟨⟨⟨hw.watched.turn, hw.watched.files⟩, hw.clear.same, hw.clear.stands⟩, hf⟩
  rintro key w₂ ⟨⟨h₂, hfree₂⟩, hd₂⟩
  refine sound_now_bind fun created w₃ ho₃ hc₃ ↦ ?_
  have h₃ := h₂.others hn ho₃ hc₃
  have hd₃ : Drawn key payload.note w₃ := by
    rw [hn] at hd₂ ⊢
    exact hd₂.others (t := ⟨arrival, true⟩) ho₃ hc₃ h₂.watched.turn
  have hclosed : ∀ key', ¬ Open w₃.log payload key' := by
    intro key' hopen
    obtain ⟨noted', hnoted', hm⟩ := h₃.clear.stands key' hopen
    rw [hnotes w₂ w₃ h₂ ho₃] at hnoted'
    exact hfree₂ noted' hnoted' hm
  refine sound_seq (P := fun _ w' ↦ Checked i arrival payload file w' ∧
    w'.notes.inbox payload.note =
      some ⟨payload.note, key, payload.size, payload.changed, none, created⟩) ?_ ?_
  · refine sound_step (r := .rememberInbox _) ?_ fun a _ w₄ w₅ hs _ _ ho hc₅ ha ↦ ?_
    · refine ⟨_, h₃.watched.turn, hn, hd₃, fun payload' key' hnote hm hopen ↦ ?_⟩
      obtain ⟨hbasket, hname⟩ := noteKey_inj hnote
      obtain ⟨hsize, hchanged⟩ := matches_iff.mp hm
      have heq : payload' = payload := by
        cases payload
        cases payload'
        simp_all
      exact hclosed key' (heq ▸ hopen)
    · obtain ⟨notes, hr, -, rfl⟩ | ⟨⟨e, rfl⟩, -⟩ := hs
      · have hnew : notes.inbox payload.note =
            some ⟨payload.note, key, payload.size, payload.changed, none, created⟩ := by
          rw [Notes.inbox_rememberInbox hr, if_pos rfl]
        have h₄ : Checked i arrival payload file (w₃.withNotes notes) := by
          refine ⟨⟨h₃.watched.turn, h₃.watched.files⟩, fun noted' hnoted' _ payload' file' hb ↦ ?_,
            fun key' hopen ↦ (hclosed key' hopen).elim⟩
          obtain rfl := Option.some.inj (hnew.symm.trans hnoted')
          exact (hd₃.2 payload' file' hb).elim
        exact ⟨h₄.others hn ho hc₅, (hnotes _ w₅ h₄ ho).trans hnew⟩
      · cases ha
  rintro _ w₄ ⟨h₄, hnoted₄⟩ x hx
  obtain rfl := Except.ok.inj hx
  exact ⟨h₄, hnoted₄, matches_iff.mpr ⟨rfl, rfl⟩⟩

theorem sound_loadHigh {grant : UploadGrant} {size : ℕ} {sha256 : Sha256Value}
    (h : Watched i arrival file w) :
    (knowing setting i).Sound (loadHigh setting arrival.path grant size sha256).run
      (Gives fun _ w' ↦ Watched i arrival file w' ∧
        .loaded grant.uploadId file.bytes ∈ w'.log) w := by
  refine sound_seq (P := fun g w' ↦ g = file ∧ Watched i arrival file w') ?_ ?_
  · refine sound_step (r := .openFile arrival.path) trivial fun a g w₁ w₂ hs _ _ ho _ hg ↦ ?_
    obtain ⟨⟨changed, g', hfile, rfl⟩ | ⟨e, rfl⟩, rfl⟩ := hs
    · obtain rfl := Except.ok.inj hg
      exact ⟨h.files changed g' hfile, h.others ho⟩
    · cases hg
  rintro g w₁ ⟨rfl, h₁⟩
  unfold inboxHighLoad
  split
  · refine sound_step (r := .inboxHighLoad _ _ g _ _) trivial fun a _ w₂ w₃ hs _ _ ho _ ha ↦ ?_
    obtain ⟨rfl, rfl⟩ | ⟨hne, rfl⟩ := hs
    · refine ⟨(h₁.logging _).others ho, (sublist_of_others ho).subset ?_⟩
      exact List.mem_append_right _ (List.mem_singleton_self _)
    · exact (hne (ApiResult.valueFrom_eq_ok ha)).elim
  · intro _ hx
    cases hx

/-- An upload of the file's bytes was confirmed for the note. -/
def Secured (upload : UploadIdentifier) (file : File) (payload : Payload) (w : World) : Prop :=
  [.loaded upload file.bytes, .confirmed payload upload].Sublist w.log

theorem forgotten_of_leaving {path : FilePath} {upload : UploadIdentifier} (ht : w.turn i = some t) :
    Allowed (w.leaving i path upload file).log (.forgotten t.arrival.note) := by
  have hnote : w.noteAt i = t.arrival.note := by simp [World.noteAt, ht]
  exact ⟨w.log, upload, file, [], by rw [← hnote]; rfl, by simp⟩

theorem turn_leaving {path : FilePath} {upload : UploadIdentifier} (ht : w.turn i = some t) :
    (w.leaving i path upload file).turn i = some ⟨t.arrival, false⟩ := by
  change (((w.withFile path none).exposing i false).turn i) = _
  rw [World.exposing, World.turn_withTurn_self]
  change (w.turn i).map _ = _
  rw [ht]
  rfl

/-- Once the file has left its basket, only its note remains to be forgotten. -/
def Departed (i : ℕ) (arrival : Arrival) (w : World) : Prop :=
  w.turn i = some ⟨arrival, false⟩ ∧ Allowed w.log (.forgotten arrival.note)

theorem Departed.others {w' : World} (h : Departed i arrival w) (ho : Others i w w') :
    Departed i arrival w' :=
  ⟨ho.turn.trans h.1, forgotten_of_others (t := ⟨arrival, false⟩) h.2 ho h.1⟩

theorem departed_leaving {path : FilePath} {upload : UploadIdentifier} {g : File}
    (h : w.turn i = some ⟨arrival, true⟩) : Departed i arrival (w.leaving i path upload g) :=
  ⟨turn_leaving h, forgotten_of_leaving (t := ⟨arrival, true⟩) h⟩

theorem allowed_left {upload : UploadIdentifier} (hn : payload.note = arrival.note)
    (h : Watched i arrival file w) (hs : Secured upload file payload w) :
    ∃ t, w.turn i = some t ∧ ∀ changed g, w.files arrival.path = some (changed, g) →
      Allowed w.log (.left t.arrival.note upload g) := by
  refine ⟨_, h.turn, fun changed g hg ↦ ⟨payload, hn, ?_⟩⟩
  rw [h.files changed g hg]
  exact hs

theorem sound_hold {upload : UploadIdentifier} (hn : payload.note = arrival.note)
    (h : Watched i arrival file w) (hs : Secured upload file payload w) :
    (knowing setting i).Sound (hold setting arrival.path name upload).run
      (Gives fun _ w' ↦ Departed i arrival w') w := by
  have hkeep : ∀ w w', Watched i arrival file w ∧ Secured upload file payload w →
      Others i w w' → Watched i arrival file w' ∧ Secured upload file payload w' :=
    fun w w' h ho ↦ ⟨h.1.others ho, h.2.trans (sublist_of_others ho)⟩
  refine sound_seq (P := fun _ w' ↦ Watched i arrival file w' ∧ Secured upload file payload w')
    ?_ ?_
  · refine sound_step (r := .createHolding upload) trivial fun a _ w₁ w₂ hserve _ _ ho _ _ ↦ ?_
    obtain rfl := hserve
    exact hkeep _ _ ⟨h, hs⟩ ho
  rintro - w₁ ⟨h₁, hs₁⟩
  refine sound_lift_bind (allowed_left hn h₁ hs₁) fun a w₂ w₃ hserve hr ↦ ?_
  obtain ⟨changed, g, hg, rfl, rfl⟩ | ⟨⟨e, rfl⟩, rfl⟩ := hserve.1.1
  · intro _ _
    have hd : Departed i arrival ((w₁.leaving i arrival.path upload g).held upload name g) :=
      departed_leaving h₁.turn
    exact hd.others hr.1
  -- the file could not be renamed: it is copied, and then removed
  obtain ⟨h₃, hs₃⟩ := hkeep _ _ ⟨h₁, hs₁⟩ hr.1
  refine sound_seq (P := fun _ w' ↦ Watched i arrival file w' ∧ Secured upload file payload w')
    ?_ ?_
  · refine sound_step (r := .copy arrival.path upload name) trivial
      fun a _ w₄ w₅ hserve _ _ ho _ _ ↦ ?_
    obtain ⟨_, g, -, -, rfl⟩ | ⟨-, rfl | ⟨g, rfl⟩⟩ := hserve
    · exact hkeep (w₃.held upload name g) w₅ ⟨⟨h₃.turn, h₃.files⟩, hs₃⟩ ho
    · exact hkeep _ _ ⟨h₃, hs₃⟩ ho
    · exact hkeep (w₃.held upload name g) w₅ ⟨⟨h₃.turn, h₃.files⟩, hs₃⟩ ho
  rintro - w₄ ⟨h₄, hs₄⟩
  refine sound_step (r := .removeFile arrival.path upload) (allowed_left hn h₄ hs₄)
    fun a _ w₅ w₆ hserve _ _ ho _ ha ↦ ?_
  obtain ⟨changed, g, -, rfl, rfl⟩ | ⟨⟨e, rfl⟩, -⟩ := hserve
  · exact (departed_leaving h₄.turn).others ho
  · cases ha

theorem sound_adoptFile (w : World) :
    (knowing setting i).Sound (adoptFile setting arrival).run (Gives fun _ _ ↦ True) w := by
  refine sound_lift_bind trivial fun _ w₁ w₂ hserve hr ↦ ?_
  obtain rfl := hserve.1.1
  have ht : w₂.turn i = some ⟨arrival, false⟩ := hr.1.turn.trans (World.turn_withTurn_self ..)
  split
  · exact fun _ h ↦ nomatch h
  rename_i name hname
  refine sound_seq (sound_checkFile ht hname) ?_
  rintro ⟨sha256, size, changed, file⟩ w₃ ⟨-, h₃⟩
  have hn : Payload.note ⟨arrival.basket, name, size, changed⟩ = arrival.note := by
    simp [Payload.note, Arrival.note, hname]
  refine sound_seq (sound_pending hn h₃) ?_
  rintro noted w₄ ⟨h₄, hnoted, hm⟩
  refine sound_raise_bind (fun key hkey ↦ ?_) fun _ _ _ h ↦ nomatch h
  obtain ⟨key, hread, rfl⟩ : ∃ key', IdempotencyKey.read noted.key = .ok key' ∧ key' = key := by
    cases hread : IdempotencyKey.read noted.key with
    | ok key' => exact ⟨key', rfl, Except.ok.inj (hread ▸ hkey)⟩
    | error e => rw [hread] at hkey; cases hkey
  have hvalue := IdempotencyKey.read_eq_ok hread
  refine sound_raise_bind (fun request _ ↦ ?_) fun _ _ _ h ↦ nomatch h
  refine sound_seq (P := fun _ w' ↦ Watched i arrival file w') ?_ ?_
  · refine sound_step (r := .inboxCreate request key ⟨arrival.basket, name, size, changed⟩ file) ?_
      fun a _ w₅ w₆ hserve _ _ ho _ _ ↦ ?_
    · refine ⟨_, noted, h₄.watched.turn, hn, hnoted, hvalue.symm, hm, fun payload' file' hb ↦ ?_⟩
      exact h₄.clear.same noted hnoted hm payload' file' (hvalue ▸ hb)
    · obtain rfl := hserve
      exact (h₄.watched.logging _).others ho
  intro grant w₅ h₅
  refine sound_seq (P := fun _ w' ↦ Watched i arrival file w') ?_ ?_
  · refine sound_step (r := .setInboxUpload _ grant.uploadId) ⟨_, h₅.turn, hn⟩
      fun a _ w₆ w₇ hserve _ _ ho _ _ ↦ ?_
    obtain ⟨notes, -, -, rfl⟩ | ⟨-, rfl⟩ := hserve
    · exact (h₅.withNotes notes).others ho
    · exact h₅.others ho
  intro _ w₆ h₆
  refine sound_seq (sound_loadHigh h₆) ?_
  rintro - w₇ ⟨h₇, hloaded⟩
  refine sound_seq (P := fun _ w' ↦ (Watched i arrival file w' ∧
    .loaded grant.uploadId file.bytes ∈ w'.log) ∧ _) (sound_ulid h₇.turn rfl ⟨h₇, hloaded⟩ ?_ ?_) ?_
  · rintro w w' - ⟨hw, hl⟩ ho -
    exact ⟨hw.others ho, (sublist_of_others ho).subset hl⟩
  · rintro w x ⟨hw, hl⟩
    exact ⟨⟨hw.turn, hw.files⟩, hl⟩
  rintro completionKey w₈ ⟨⟨h₈, hloaded₈⟩, -⟩
  refine sound_seq (P := fun _ w' ↦ Watched i arrival file w' ∧
    Secured grant.uploadId file ⟨arrival.basket, name, size, changed⟩ w') ?_ ?_
  · refine sound_step (r := .inboxComplete grant.uploadId completionKey _) ⟨_, h₈.turn, hn⟩
      fun a _ w₉ w₁₀ hserve _ _ ho _ ha ↦ ?_
    obtain ⟨completion, -, rfl⟩ | ⟨hne, -⟩ := hserve
    · refine ⟨(h₈.logging _).others ho, List.Sublist.trans ?_ (sublist_of_others ho)⟩
      exact (List.singleton_sublist.mpr hloaded₈).append (List.Sublist.refl _)
    · exact (hne _ (ApiResult.valueFrom_eq_ok ha)).elim
  rintro completion w₉ ⟨h₉, hs₉⟩
  refine sound_seq (sound_hold hn h₉ hs₉) fun _ w₁₀ hd ↦ ?_
  refine sound_seq (P := fun _ _ ↦ True) ?_ fun _ _ _ _ _ ↦ trivial
  refine sound_step (r := .forgetInbox _) ⟨_, hd.1, hn, ?_⟩ fun _ _ _ _ _ _ _ _ _ _ ↦ trivial
  have hnote : noteKey arrival.basket name = arrival.note := hn
  rw [hnote]
  exact hd.2

end Programs

section Runs

variable {setting : Setting}

theorem others_deed {w : World} {deed : Deed} (h : careful.deed deed w) (i : ℕ) :
    Others i w (deed.apply w) := by
  cases deed with
  | put path changed file =>
    refine ⟨rfl, fun _ _ ↦ rfl, fun t ht he x hx ↦ ?_, List.Subset.refl _, [], by
      simp [Deed.apply, World.withFile], by simp⟩
    rwa [Deed.apply, World.files_withFile_of_ne (h i t ht he)] at hx
  | take path =>
    exact ⟨rfl, fun _ _ ↦ rfl, fun _ _ _ _ hx ↦ files_withFile_none hx, List.Subset.refl _, [], by
      simp [Deed.apply, World.withFile], by simp⟩

theorem kept (setting : Setting) : discipline.Kept (rules setting careful) Untouched where
  refl := Others.refl
  trans _ _ _ _ := Others.trans
  enter w hw := by
    have hn : ∀ note, w.notes.inbox note = none := by
      intro note
      rw [hw.notes]
      rfl
    refine ⟨⟨?_, ?_, ?_, ?_, ?_, ?_⟩, ?_⟩
    · simp [hw.issued]
    · simp [hn]
    · simp [hw.log]
    · simp [hn]
    · simp [hn]
    · intro before event after he
      rw [hw.log] at he
      cases before <;> cases he
    · intro i j t t' ht
      rw [hw.turn] at ht
      cases ht
  start i p w _ hp := by
    obtain ⟨arrival, rfl⟩ := hp
    intro w' _ hi
    refine Discipline.sound_of_knowing hi (sound_bind.mpr ?_)
    exact sound_mono (fun _ _ _ ↦ trivial) (sound_adoptFile w')
  serve i r w a w' hi hok hserve := fits_serve hi hok hserve.1 hserve.2
  finish i w w' hi _ hf := by
    obtain rfl := hf
    exact fits_of_turn hi.1 hi.2 (hi.2.ending i)
  abort i w w' hi ha := by
    obtain rfl := ha
    exact fits_of_turn hi.1 hi.2 (hi.2.ending i)
  restart w w' hi hr := by
    obtain rfl := hr
    exact ⟨hi.1.congr rfl rfl rfl, fun _ _ _ _ h ↦ nomatch h⟩
  outside w w' hi ho := by
    obtain ⟨deed, hd, rfl⟩ := ho
    refine ⟨⟨hi.1.congr ?_ ?_ ?_, ?_⟩, others_deed hd⟩
    all_goals cases deed
    any_goals rfl
    · exact hi.2
    · exact hi.2

/-- In every run in which no ingest meets another of the same basket and name, a file that was tried
under a standing note is not followed by a different one of the same size and time, a payload that
is still open is only tried again while its note stands, and no file is put where an ingest is
between its look and its move: a payload is tried under one key until it is confirmed, a key is used
for one file, a file leaves its basket after an upload of its bytes was confirmed, and a note is
forgotten after the file has left. -/
theorem ingest_of_run {c : Ingests} (h : Runs setting careful c) : Kept c.state.log :=
  (Discipline.run_kept (kept setting) h).1.1.log

end Runs

section Played

/-- How everything answers an ingest in place 0 when nothing fails; keys are drawn by number. -/
def respond (upload : UploadIdentifier) : (r : Request) → World → Option (Answer r × World)
  | .begins arrival, w => some ((), w.withTurn 0 (some ⟨arrival, false⟩))
  | .metadata path, w => (w.files path).map fun x ↦ (.ok x.1, w.exposing 0 true)
  | .readFile path, w | .openFile path, w => (w.files path).map fun x ↦ (.ok x.2, w)
  | .now, w => some (.null, w)
  | .ulid time, w =>
    match ulidFrom time (Fin.ofNat _ w.issued.length) with
    | .ok key =>
      if ∀ x ∈ w.issued, x.1 ≠ key then
        some (.ok key, { w with issued := (key, w.noteAt 0) :: w.issued })
      else none
    | .error _ => none
  | .inbox note, w => some (.ok (w.notes.inbox note), w)
  | .rememberInbox pending, w =>
    (w.notes.rememberInbox pending).toOption.map fun notes ↦ (.ok (), w.withNotes notes)
  | .setInboxUpload note upload, w =>
    (w.notes.setInboxUpload note upload).toOption.map fun notes ↦ (.ok (), w.withNotes notes)
  | .forgetInbox note, w => some (.ok (w.notes.forgetInbox note).1,
      (w.withNotes (w.notes.forgetInbox note).2).logging (.forgotten note))
  | .inboxCreate _ key payload file, w =>
    some (.success ⟨upload, "https://api/upload"⟩, w.logging (.began payload key.value file))
  | .inboxHighLoad upload _ file _ _, w =>
    some (.success (), w.logging (.loaded upload file.bytes))
  | .inboxComplete upload _ payload, w =>
    some (.success ⟨upload, "https://app/capture"⟩, w.logging (.confirmed payload upload))
  | .createHolding _, w => some (.ok (), w)
  | .rename path upload name, w =>
    (w.files path).map fun x ↦ (.ok (), (w.leaving 0 path upload x.2).held upload name x.2)
  | .copy path upload name, w => (w.files path).map fun x ↦ (.ok (), w.held upload name x.2)
  | .removeFile path upload, w =>
    (w.files path).map fun x ↦ (.ok (), w.leaving 0 path upload x.2)

theorem serve_of_respond {upload : UploadIdentifier} {r : Request} {w w' : World} {a : Answer r}
    (h : respond upload r w = some (a, w')) : serve 0 r w a w' := by
  cases r with
  | metadata path | rename path | copy path | removeFile path =>
    obtain ⟨x, hx, he⟩ := Option.map_eq_some_iff.mp h
    obtain ⟨rfl, rfl⟩ := Prod.mk.inj he
    exact .inl ⟨x.1, x.2, hx, rfl, rfl⟩
  | readFile path | openFile path =>
    obtain ⟨x, hx, he⟩ := Option.map_eq_some_iff.mp h
    obtain ⟨rfl, rfl⟩ := Prod.mk.inj he
    exact ⟨.inl ⟨x.1, x.2, hx, rfl⟩, rfl⟩
  | ulid time =>
    simp only [respond] at h
    split at h
    · rename_i key hkey
      split at h
      · rename_i hfresh
        obtain ⟨rfl, rfl⟩ := Prod.mk.inj (Option.some.inj h)
        exact .inl ⟨_, key, hkey, hfresh, rfl, rfl⟩
      · cases h
    · cases h
  | rememberInbox pending =>
    obtain ⟨notes, hn, he⟩ := Option.map_eq_some_iff.mp h
    obtain ⟨rfl, rfl⟩ := Prod.mk.inj he
    cases hr : w.notes.rememberInbox pending with
    | ok notes' =>
      rw [hr] at hn
      obtain rfl := Option.some.inj hn
      exact .inl ⟨notes', hr, rfl, rfl⟩
    | error e => rw [hr] at hn; cases hn
  | setInboxUpload note upload' =>
    obtain ⟨notes, hn, he⟩ := Option.map_eq_some_iff.mp h
    obtain ⟨rfl, rfl⟩ := Prod.mk.inj he
    cases hr : w.notes.setInboxUpload note upload' with
    | ok notes' =>
      rw [hr] at hn
      obtain rfl := Option.some.inj hn
      exact .inl ⟨notes', hr, rfl, rfl⟩
    | error e => rw [hr] at hn; cases hn
  | inbox note =>
    obtain ⟨rfl, rfl⟩ := Prod.mk.inj (Option.some.inj h)
    exact ⟨.inl rfl, rfl⟩
  | forgetInbox note | inboxHighLoad =>
    obtain ⟨rfl, rfl⟩ := Prod.mk.inj (Option.some.inj h)
    exact .inl ⟨rfl, rfl⟩
  | inboxComplete upload' key payload =>
    obtain ⟨rfl, rfl⟩ := Prod.mk.inj (Option.some.inj h)
    exact .inl ⟨_, rfl, rfl⟩
  | begins | now | inboxCreate | createHolding =>
    obtain ⟨rfl, rfl⟩ := Prod.mk.inj (Option.some.inj h)
    rfl

inductive Move
  | begin (arrival : Arrival)
  | ask (upload : UploadIdentifier)
  | finish
  | crash
  | deed (deed : Deed)

variable (setting : Setting)

/-- The next state, where the move can be made. -/
def move (c : Ingests) : Move → Option Ingests
  | .begin arrival =>
    if (c.running 0).isNone then
      some ⟨c.state, Function.update c.running 0
        (some ((adoptFile setting arrival).run >>= fun _ ↦ pure ()))⟩
    else none
  | .ask upload =>
    match c.running 0 with
    | some (.ask r next) => (respond upload r c.state).map fun x ↦
        ⟨x.2, Function.update c.running 0 (some (next x.1))⟩
    | _ => none
  | .finish =>
    match c.running 0 with
    | some (.done ()) => some ⟨c.state.withTurn 0 none, Function.update c.running 0 none⟩
    | _ => none
  | .crash => some ⟨c.state.crashed, fun _ ↦ none⟩
  | .deed deed => some ⟨deed.apply c.state, c.running⟩

variable {setting} {condition : Condition}

theorem step_of_move {c c' : Ingests} {m : Move} (h : move setting c m = some c')
    (hserve : ∀ r next, c.running 0 = some (.ask r next) → condition.serve 0 r c.state)
    (hdeed : ∀ deed, m = .deed deed → condition.deed deed c.state) :
    (rules setting condition).Step c c' := by
  cases m with
  | «begin» arrival =>
    rw [move] at h
    split at h
    · rename_i hnone
      obtain rfl := Option.some.inj h
      exact .start (Option.isNone_iff_eq_none.mp hnone) ⟨arrival, rfl⟩
    · cases h
  | ask upload =>
    rw [move] at h
    split at h
    · rename_i r next hrun
      obtain ⟨⟨a, w⟩, hx, rfl⟩ := Option.map_eq_some_iff.mp h
      exact .ask hrun ⟨serve_of_respond hx, hserve r next hrun⟩
    · cases h
  | finish =>
    rw [move] at h
    split at h
    · rename_i hrun
      obtain rfl := Option.some.inj h
      exact .finish hrun rfl
    · cases h
  | crash =>
    obtain rfl := Option.some.inj h
    exact .restart rfl
  | deed deed =>
    obtain rfl := Option.some.inj h
    exact .outside ⟨deed, hdeed deed rfl, rfl⟩

/-- The ingest of a file of one byte, and the upload of it. -/
def invoice : Arrival := ⟨⟨5⟩, ⟨"basket", some "a.pdf"⟩⟩

def plainSetting : Setting := ⟨fun _ ↦ ⟨0⟩, "https://api", "https://app", "holding"⟩

def lying : World where
  files path := if path = invoice.path then some (.null, ⟨1, [1]⟩) else none
  holding _ _ := none
  notes := .empty
  turn _ := none
  issued := []
  log := []

def play (moves : List Move) : Option Ingests :=
  moves.foldlM (move plainSetting) ⟨lying, fun _ ↦ none⟩

theorem runs_lying {setting : Setting} {condition : Condition} :
    Runs setting condition ⟨lying, fun _ ↦ none⟩ :=
  .first ⟨rfl, rfl, rfl, rfl⟩

theorem runs_of_play {c c' : Ingests} {moves : List Move} (hc : Runs plainSetting {} c)
    (h : moves.foldlM (move plainSetting) c = some c') : Runs plainSetting {} c' := by
  induction moves generalizing c with
  | nil =>
    obtain rfl := Option.some.inj h
    exact hc
  | cons m moves ih =>
    rw [List.foldlM_cons] at h
    obtain ⟨c₁, hm, h⟩ := Option.bind_eq_some_iff.mp h
    exact ih (.step hc (step_of_move hm (fun _ _ _ ↦ trivial) fun _ _ ↦ trivial)) h

section Carefully

/-- Whether the payload can be ingested with the file, as far as can be told from its note. -/
def clearly (w : World) (payload : Payload) (file : File) : Bool :=
  match w.notes.inbox payload.note with
  | none => w.log.all fun
    | .began tried _ _ => tried ≠ payload
    | _ => true
  | some noted => noted.matches payload.size payload.changed && w.log.all fun
    | .began _ key tried => key ≠ noted.key || tried = file
    | _ => true

theorem clear_of_clearly {w : World} {payload : Payload} {file : File}
    (h : clearly w payload file = true) : Clear w payload file := by
  unfold clearly at h
  split at h
  · rename_i hnone
    rw [List.all_eq_true] at h
    refine ⟨fun noted hn ↦ absurd (hnone.symm.trans hn) nofun, fun key ho ↦ ?_⟩
    obtain ⟨file', hb⟩ := mem_of_open ho
    simpa using h _ hb
  · rename_i noted hn
    obtain ⟨hm, h⟩ := Bool.and_eq_true_iff.mp h
    rw [List.all_eq_true] at h
    refine ⟨fun noted' hn' _ payload' file' hb ↦ ?_, fun _ _ ↦ ⟨noted, hn, hm⟩⟩
    obtain rfl := Option.some.inj (hn.symm.trans hn')
    simpa using h _ hb

def heeds (c : Ingests) : Bool :=
  match c.running 0 with
  | some (.ask (.metadata path) _) =>
    match c.state.turn 0, path.name, c.state.files path with
    | some t, some name, some (changed, file) =>
      clearly c.state ⟨t.arrival.basket, name, file.bytes.length, changed⟩ file
    | _, _, _ => true
  | _ => true

def Lone (c : Ingests) : Prop := ∀ j, j ≠ 0 → c.state.turn j = none

theorem careful_of_heeds {c : Ingests} {r : Request} {next : Answer r → Program Request Answer Unit}
    (hl : Lone c) (h : heeds c = true) (hr : c.running 0 = some (.ask r next)) :
    careful.serve 0 r c.state := by
  cases r with
  | begins arrival =>
    intro j t hj ht
    rw [hl j hj] at ht
    cases ht
  | metadata path =>
    intro t name changed file ht hn hf
    simp only [heeds, hr, ht, hn, hf] at h
    exact clear_of_clearly h
  | _ => trivial

def Move.isOwn : Move → Bool
  | .deed _ => false
  | _ => true

/-- Moves without deeds of others, each in a state that heeds the files. -/
def moveIf (c : Ingests) (m : Move) : Option Ingests :=
  if heeds c ∧ m.isOwn then move plainSetting c m else none

theorem turn_respond {upload : UploadIdentifier} {r : Request} {w w' : World} {a : Answer r}
    {j : ℕ} (hj : j ≠ 0) (h : respond upload r w = some (a, w')) : w'.turn j = w.turn j := by
  have hs := serve_of_respond h
  cases r with
  | begins arrival =>
    obtain rfl := hs
    exact World.turn_withTurn_of_ne hj
  | metadata path =>
    obtain ⟨_, _, -, -, rfl⟩ | ⟨-, rfl⟩ := hs
    · exact World.turn_withTurn_of_ne hj
    · rfl
  | rename path =>
    obtain ⟨_, _, -, -, rfl⟩ | ⟨-, rfl⟩ := hs
    · exact World.turn_withTurn_of_ne hj
    · rfl
  | removeFile path =>
    obtain ⟨_, _, -, -, rfl⟩ | ⟨-, rfl⟩ := hs
    · exact World.turn_withTurn_of_ne hj
    · rfl
  | ulid time =>
    obtain ⟨_, _, -, -, -, rfl⟩ | ⟨-, rfl⟩ := hs <;> rfl
  | rememberInbox | setInboxUpload =>
    obtain ⟨_, -, -, rfl⟩ | ⟨-, rfl⟩ := hs <;> rfl
  | inboxComplete =>
    obtain ⟨_, -, rfl⟩ | ⟨-, rfl⟩ := hs <;> rfl
  | forgetInbox | inboxHighLoad =>
    obtain ⟨-, rfl⟩ | ⟨-, rfl⟩ := hs <;> rfl
  | copy =>
    obtain ⟨_, _, -, -, rfl⟩ | ⟨-, rfl | ⟨_, rfl⟩⟩ := hs <;> rfl
  | readFile | openFile | inbox =>
    obtain ⟨-, rfl⟩ := hs
    rfl
  | now | inboxCreate | createHolding =>
    obtain rfl := hs
    rfl

theorem lone_move {c c' : Ingests} {m : Move} (hl : Lone c) (hm : m.isOwn = true)
    (h : move plainSetting c m = some c') : Lone c' := by
  intro j hj
  cases m with
  | deed => cases hm
  | «begin» arrival =>
    rw [move] at h
    split at h
    · obtain rfl := Option.some.inj h
      exact hl j hj
    · cases h
  | ask upload =>
    rw [move] at h
    split at h
    · obtain ⟨⟨a, w⟩, hx, rfl⟩ := Option.map_eq_some_iff.mp h
      exact (turn_respond hj hx).trans (hl j hj)
    · cases h
  | finish =>
    rw [move] at h
    split at h
    · obtain rfl := Option.some.inj h
      exact (World.turn_withTurn_of_ne hj).trans (hl j hj)
    · cases h
  | crash =>
    obtain rfl := Option.some.inj h
    rfl

theorem careful_of_play {c c' : Ingests} {moves : List Move} (hc : Runs plainSetting careful c)
    (hl : Lone c) (h : moves.foldlM moveIf c = some c') : Runs plainSetting careful c' := by
  induction moves generalizing c with
  | nil =>
    obtain rfl := Option.some.inj h
    exact hc
  | cons m moves ih =>
    rw [List.foldlM_cons] at h
    obtain ⟨c₁, hm, h⟩ := Option.bind_eq_some_iff.mp h
    rw [moveIf] at hm
    split at hm
    · rename_i hh
      refine ih (.step hc (step_of_move hm ?_ ?_)) (lone_move hl hh.2 hm) h
      · exact fun r next hr ↦ careful_of_heeds hl hh.1 hr
      · rintro deed rfl
        cases hh.2
    · cases hm

/-- The machine goes out after the ingest was created; the next one carries it out. -/
def twice : List Move :=
  .begin invoice :: List.replicate 9 (.ask ⟨7⟩) ++ .crash :: .begin invoice ::
    List.replicate 14 (.ask ⟨7⟩) ++ [.finish]

theorem ingest_twice : ∃ c, Runs plainSetting careful c ∧ c.state.log.length = 6 ∧
    Kept c.state.log := by
  obtain ⟨c, hplay, hlength⟩ := (Option.any_eq_true (fun c : Ingests ↦ c.state.log.length = 6)
    (twice.foldlM moveIf ⟨lying, fun _ ↦ none⟩)).mp (by decide +kernel)
  have hrun := careful_of_play runs_lying (fun _ _ ↦ rfl) hplay
  exact ⟨c, hrun, of_decide_eq_true hlength, ingest_of_run hrun⟩

end Carefully

/-- The file is overwritten after its bytes went out. -/
def overwritten : List Move :=
  .begin invoice :: List.replicate 12 (.ask ⟨7⟩) ++
    .deed (.put invoice.path .null ⟨1, [2]⟩) :: List.replicate 6 (.ask ⟨7⟩)

/-- Whether a file left its basket whose bytes were not uploaded. -/
def unloaded (log : List Event) : Bool :=
  log.any fun
    | .left _ upload file => .loaded upload file.bytes ∉ log
    | _ => false

theorem not_kept_of_unloaded {log : List Event} (h : unloaded log = true) : ¬ Kept log := by
  intro hk
  obtain ⟨event, hm, he⟩ := List.any_eq_true.mp h
  obtain ⟨before, after, hl⟩ := List.append_of_mem hm
  cases event with
  | left note upload file =>
    obtain ⟨payload, -, hs⟩ := hk before _ after hl
    refine of_decide_eq_true he ?_
    rw [hl]
    exact List.mem_append_left _ (hs.subset List.mem_cons_self)
  | _ => cases he

theorem lost_overwritten :
    ¬ ∀ (setting : Setting) (c : Ingests), Runs setting {} c → Kept c.state.log := by
  intro hall
  obtain ⟨c, hplay, hlost⟩ := (Option.any_eq_true (fun c : Ingests ↦ unloaded c.state.log)
    (play overwritten)).mp (by decide +kernel)
  exact not_kept_of_unloaded hlost (hall plainSetting c (runs_of_play runs_lying hplay))

end Played

end FolderClient.Engine.IngestRuns
