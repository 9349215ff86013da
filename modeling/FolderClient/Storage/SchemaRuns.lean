import FolderClient.Library.Upgrades
import FolderClient.Storage.Schema

namespace FolderClient.Storage.SchemaRuns

open FolderClient.Library.Pools FolderClient.Library.Programs FolderClient.Library.Upgrades
open FolderClient.Library.Programs.Program FolderClient.Library.Programs.Contract
open FolderClient.Storage.Schema

variable {δ : Type} {batch : ℕ → δ → Option δ} {uses : ℕ → δ → δ → Prop} {known : ℕ → ℕ}
  {location : Location} {n : ℕ} {content : δ} {i j : ℕ} {w w' w'' : World δ}

section Pending

theorem pending_eq_some {d : Database δ} : w.pending i = some d ↔ w.writing = some (i, d) := by
  unfold World.pending
  split
  · rename_i j d' hw
    rw [hw]
    split
    · rename_i hj
      subst hj
      simp
    · rename_i hj
      simp [hj]
  · rename_i hw
    simp [hw]

theorem pending_eq_none (h : w.writing = none) (i : ℕ) : w.pending i = none := by
  simp [World.pending, h]

theorem pending_congr (h : w'.writing = w.writing) (i : ℕ) : w'.pending i = w.pending i := by
  simp [World.pending, h]

/-- Only one connection writes at a time. -/
theorem pending_of_ne {d : Database δ} (h : w.writing = some (i, d)) (hj : j ≠ i) :
    w.pending j = none := by
  simp [World.pending, h, hj.symm]

theorem pending_dropped (h : j ≠ i) :
    World.pending { w with writing := if (w.pending i).isSome then none else w.writing } j =
      w.pending j := by
  cases hp : w.pending i with
  | none => exact pending_congr rfl j
  | some d =>
    rw [pending_of_ne (pending_eq_some.mp hp) h]
    exact pending_eq_none rfl j

end Pending

/-- What a store that is handed out can count on. -/
structure Usable (known : ℕ → ℕ) (location : Location) (i : ℕ) (w : World δ) : Prop where
  version : (known i : ℤ) ≤ w.file.version
  wal : location = .file → w.wal = true
  pragma : ∀ p, w.pragma i p = p.demanded

/-- What holds of the database throughout: it came from its first version by the steps of the
migrations and by uses, and only in WAL mode. -/
structure Sane (batch : ℕ → δ → Option δ) (uses : ℕ → δ → δ → Prop) (known : ℕ → ℕ)
    (location : Location) (n : ℕ) (content : δ) (w : World δ) : Prop where
  lifted : ∃ events m, w.file.version = (m : ℕ) ∧
    Lifted batch uses n content events m w.file.content
  raised : location = .file → w.file.version ≠ n → w.wal = true
  usable : ∀ i, w.opened i = true → Usable known location i w

/-- The step of a migration, from what stands in the file. -/
structure Migrated (batch : ℕ → δ → Option δ) (known place : ℕ) (d d' : Database δ) : Prop where
  version : d.version = place
  known : place < known
  batch : batch place d.content = some d'.content
  next : d'.version = (place + 1 : ℕ)

/-- Which requests are in order. The content and the version are written only in a transaction of
one's own, on the version that the migration is for. -/
def InOrder (batch : ℕ → δ → Option δ) (known : ℕ → ℕ) (location : Location) (i : ℕ) :
    Request → World δ → Prop
  | .statement (.executeBatch place), w =>
    w.pending i = some w.file ∧ w.file.version = place ∧ place < known i
  | .statement (.setVersion target), w => ∃ d place, w.pending i = some d ∧
      Migrated batch (known i) place w.file ⟨target, d.content⟩
  | .statement .commit, w => (location = .file → w.wal = true) ∧ ∃ d place,
      w.pending i = some d ∧ Migrated batch (known i) place w.file d
  | .statement .useWal, w => location = .file ∧ (w.file.version ≤ known i ∨ w.wal = true)
  | .statement (.setPragma p v), _ => v = p.demanded
  | .keep, w => Usable known location i w
  | _, _ => True

/-- What the others leave a connection. -/
structure Rely (location : Location) (i : ℕ) (w w' : World δ) : Prop where
  version : w.file.version ≤ w'.file.version
  raised : location = .file → w.file.version < w'.file.version → w'.wal = true
  wal : w.wal = true → w'.wal = true
  pending : w'.pending i = w.pending i
  held : (w.pending i).isSome = true → w'.file = w.file
  pragma : w'.pragma i = w.pragma i

def discipline (batch : ℕ → δ → Option δ) (uses : ℕ → δ → δ → Prop) (known : ℕ → ℕ)
    (location : Location) (n : ℕ) (content : δ) : Discipline Request Answer (World δ) where
  invariant := Sane batch uses known location n content
  ok := InOrder batch known location
  rely := Rely location
  ends _ _ := True

section Moves

/-- What a connection may do to the database by a request in order. -/
inductive Move (batch : ℕ → δ → Option δ) (known : ℕ → ℕ) (location : Location) (i : ℕ)
    (w : World δ) : World δ → Prop
  | quiet {w' : World δ} : w'.file = w.file → (w.wal = true → w'.wal = true) →
      (∀ j, j ≠ i → w'.pending j = w.pending j) → w'.opened = w.opened →
      (∀ j p, w'.pragma j p = w.pragma j p ∨ j = i ∧ w'.pragma j p = p.demanded) →
      Move batch known location i w w'
  | migrated {d : Database δ} {place : ℕ} : w.pending i = some d →
      Migrated batch (known i) place w.file d → (location = .file → w.wal = true) →
      Move batch known location i w { w with file := d, writing := none }
  | kept : Usable known location i w →
      Move batch known location i w { w with opened := Function.update w.opened i true }

theorem Move.writing {writing : Option (ℕ × Database δ)}
    (h : ∀ j, j ≠ i → World.pending { w with writing := writing } j = w.pending j) :
    Move batch known location i w { w with writing := writing } :=
  .quiet rfl id h rfl fun _ _ ↦ .inl rfl

theorem Move.refl (w : World δ) : Move batch known location i w w :=
  .quiet rfl id (fun _ _ ↦ rfl) rfl fun _ _ ↦ .inl rfl

theorem pending_own {d : Database δ} (hw : w.writing = none ∨ ∃ d, w.writing = some (i, d))
    (hj : j ≠ i) : World.pending { w with writing := some (i, d) } j = w.pending j := by
  rw [pending_of_ne (w := { w with writing := some (i, d) }) rfl hj]
  obtain hw | ⟨d', hw⟩ := hw
  · exact (pending_eq_none hw j).symm
  · exact (pending_of_ne hw hj).symm

theorem move_fails {s : Statement} (hok : InOrder batch known location i (.statement s) w)
    (h : Fails i s w w') : Move batch known location i w w' := by
  cases h with
  | nothing => exact .refl w
  | left s d' hp =>
    apply Move.writing
    intro j hj
    exact pending_own (.inr ⟨_, pending_eq_some.mp hp⟩) hj
  | rolledBack s hp =>
    apply Move.writing
    intro j hj
    rw [pending_of_ne (pending_eq_some.mp hp) hj]
    exact pending_eq_none rfl j
  | committed hp =>
    obtain ⟨hwal, d', place, hp', hm⟩ := hok
    obtain rfl := Option.some.inj (hp.symm.trans hp')
    exact .migrated hp hm hwal
  | part place c hw =>
    have hp := pending_eq_none hw i
    rw [hok.1] at hp
    cases hp
  | switched => exact .quiet rfl (fun _ ↦ rfl) (fun _ _ ↦ rfl) rfl fun _ _ ↦ .inl rfl

theorem move_succeeds {s : Statement} {v : s.Value}
    (hok : InOrder batch known location i (.statement s) w) (h : Succeeds batch i s w v w') :
    Move batch known location i w w' := by
  cases s with
  | busyTimeout | queryOnly =>
    rw [show w' = w from h]
    exact .refl w
  | version | journalMode | readPragma =>
    rw [h.2]
    exact .refl w
  | useWal =>
    obtain ⟨on, rfl, hon, -⟩ := h
    exact .quiet rfl hon (fun _ _ ↦ rfl) rfl fun _ _ ↦ .inl rfl
  | setPragma p value =>
    obtain rfl | rfl := h
    · exact .refl _
    · refine .quiet rfl id (fun _ _ ↦ rfl) rfl fun j q ↦ ?_
      by_cases hj : j = i
      · subst hj
        by_cases hq : q = p
        · subst hq
          have hv : value = q.demanded := hok
          right
          simpa using hv
        · left
          simp [hq]
      · left
        simp [hj]
  | beginImmediate =>
    obtain ⟨hnone, rfl⟩ := h
    apply Move.writing
    intro j hj
    exact pending_own (.inl hnone) hj
  | executeBatch place =>
    obtain ⟨d, c, hp, -, rfl⟩ | ⟨hnone, -⟩ := h
    · apply Move.writing
      intro j hj
      exact pending_own (.inr ⟨_, pending_eq_some.mp hp⟩) hj
    · have hp := pending_eq_none hnone i
      rw [hok.1] at hp
      cases hp
  | setVersion target =>
    obtain ⟨d, hp, rfl⟩ | ⟨hnone, -⟩ := h
    · apply Move.writing
      intro j hj
      exact pending_own (.inr ⟨_, pending_eq_some.mp hp⟩) hj
    · obtain ⟨d, place, hp, -⟩ := hok
      rw [pending_eq_none hnone i] at hp
      cases hp
  | commit =>
    obtain ⟨d, hp, rfl⟩ := h
    obtain ⟨hwal, d', place, hp', hm⟩ := hok
    obtain rfl := Option.some.inj (hp.symm.trans hp')
    exact .migrated hp hm hwal

theorem move_serve {r : Request} {a : Answer r} (hok : InOrder batch known location i r w)
    (h : serve batch i r w a w') : Move batch known location i w w' := by
  cases r with
  | statement s =>
    cases a with
    | ok v => exact move_succeeds hok h
    | error e => exact move_fails hok h
  | dropTransaction =>
    rw [show w' = _ from h]
    apply Move.writing
    intro j hj
    exact pending_dropped hj
  | keep =>
    rw [show w' = _ from h]
    exact .kept hok

theorem sane_move (hw : Sane batch uses known location n content w)
    (h : Move batch known location i w w') : Sane batch uses known location n content w' := by
  cases h with
  | quiet hfile hwal hpending hopened hpragma =>
    refine ⟨?_, fun hl hv ↦ ?_, fun k hk ↦ ?_⟩
    · rw [hfile]
      exact hw.lifted
    · rw [hfile] at hv
      exact hwal (hw.raised hl hv)
    · rw [hopened] at hk
      have hu := hw.usable k hk
      refine ⟨hfile ▸ hu.version, fun hl ↦ hwal (hu.wal hl), fun p ↦ ?_⟩
      obtain hp | hp := hpragma k p
      · exact hp.trans (hu.pragma p)
      · exact hp.2
  | @migrated d place hp hm hwal =>
    obtain ⟨events, m, hv, hlifted⟩ := hw.lifted
    obtain rfl : m = place := by
      have hv' := hm.version
      omega
    refine ⟨⟨events ++ [.lifted m], m + 1, hm.next, hlifted.lift hm.batch⟩, fun hl _ ↦ hwal hl,
      fun k hk ↦ ?_⟩
    have hu := hw.usable k hk
    refine ⟨hu.version.trans ?_, hu.wal, hu.pragma⟩
    change w.file.version ≤ d.version
    rw [hm.next, hv]
    omega
  | kept hu =>
    refine ⟨hw.lifted, hw.raised, fun k hk ↦ ?_⟩
    by_cases hki : k = i
    · rw [hki]
      exact ⟨hu.version, hu.wal, hu.pragma⟩
    · have hk' : w.opened k = true := by simpa [hki] using hk
      have hu' := hw.usable k hk'
      exact ⟨hu'.version, hu'.wal, hu'.pragma⟩

theorem rely_move (h : Move batch known location i w w') (hj : j ≠ i) : Rely location j w w' := by
  cases h with
  | quiet hfile hwal hpending _ hpragma =>
    refine ⟨hfile ▸ le_refl _, fun _ hv ↦ ?_, hwal, hpending j hj, fun _ ↦ hfile, ?_⟩
    · rw [hfile] at hv
      exact absurd hv (lt_irrefl _)
    · funext p
      exact (hpragma j p).resolve_right fun hp ↦ hj hp.1
  | @migrated d place hp hm hwal =>
    have hnone := pending_of_ne (pending_eq_some.mp hp) hj
    refine ⟨?_, fun hl _ ↦ hwal hl, id, ?_, fun hsome ↦ ?_, rfl⟩
    · change w.file.version ≤ d.version
      rw [hm.next, hm.version]
      omega
    · rw [hnone]
      exact pending_eq_none rfl j
    · rw [hnone] at hsome
      cases hsome
  | kept => exact ⟨le_refl _, fun _ hv ↦ absurd hv (lt_irrefl _), id, rfl, fun _ ↦ rfl, rfl⟩

end Moves

section Relying

theorem Rely.refl (location : Location) (i : ℕ) (w : World δ) : Rely location i w w :=
  ⟨le_refl _, fun _ hv ↦ absurd hv (lt_irrefl _), id, rfl, fun _ ↦ rfl, rfl⟩

theorem Rely.trans (h : Rely location i w w') (h' : Rely location i w' w'') :
    Rely location i w w'' := by
  refine ⟨h.version.trans h'.version, fun hl hv ↦ ?_, fun hw ↦ h'.wal (h.wal hw),
    h'.pending.trans h.pending, fun hp ↦ ?_, h'.pragma.trans h.pragma⟩
  · obtain hv | hv := lt_or_ge w.file.version w'.file.version
    · exact h'.wal (h.raised hl hv)
    · exact h'.raised hl (by omega)
  · exact (h'.held (h.pending ▸ hp)).trans (h.held hp)

theorem sane_closed (hw : Sane batch uses known location n content w) (i : ℕ)
    (pragmas : Pragma → ℤ) : Sane batch uses known location n content (w.closed i pragmas) := by
  refine ⟨hw.lifted, hw.raised, fun k hk ↦ ?_⟩
  have hki : k ≠ i := by
    rintro rfl
    simp [World.closed] at hk
  have hk' : w.opened k = true := by simpa [World.closed, hki] using hk
  have hu := hw.usable k hk'
  refine ⟨hu.version, hu.wal, fun p ↦ ?_⟩
  have hp : (w.closed i pragmas).pragma k p = w.pragma k p := by simp [World.closed, hki]
  exact hp.trans (hu.pragma p)

theorem rely_closed (hj : j ≠ i) (pragmas : Pragma → ℤ) :
    Rely location j w (w.closed i pragmas) := by
  refine ⟨le_refl _, fun _ hv ↦ absurd hv (lt_irrefl _), id, pending_dropped hj, fun _ ↦ rfl, ?_⟩
  simp [World.closed, hj]

end Relying

section Sound

/-- The surroundings of one connection. -/
abbrev contract (batch : ℕ → δ → Option δ) (uses : ℕ → δ → δ → Prop) (known : ℕ → ℕ)
    (location : Location) (n : ℕ) (content : δ) (i : ℕ) : Contract Request Answer (World δ) :=
  (discipline batch uses known location n content).contract (rules batch uses known location) i

/-- Where a function returns, a state of this kind is reached. -/
def Reaches {α : Type} (P : α → World δ → Prop) : Except SchemaError α → World δ → Prop
  | .ok a, w => P a w
  | .error _, _ => True

theorem sound_execute {s : Statement} {P : s.Value → World δ → Prop}
    (hok : InOrder batch known location i (.statement s) w)
    (h : ∀ v w' w'', Succeeds batch i s w v w' → Rely location i w' w'' →
      Sane batch uses known location n content w'' → P v w'') :
    (contract batch uses known location n content i).Sound (execute s).run (Reaches P) w := by
  refine ⟨hok, fun answer w' w'' hs hr ↦ ?_⟩
  cases answer with
  | error e => trivial
  | ok v => exact h v w' w'' hs hr.1 hr.2

theorem sound_opening_bind {α β : Type} {p : Opening α} {f : α → Opening β}
    {P : α → World δ → Prop} {Q : β → World δ → Prop}
    (hp : (contract batch uses known location n content i).Sound p.run (Reaches P) w)
    (hf : ∀ a w', P a w' →
      (contract batch uses known location n content i).Sound (f a).run (Reaches Q) w') :
    (contract batch uses known location n content i).Sound (p >>= f).run (Reaches Q) w := by
  apply sound_fallible_bind
  refine sound_mono (fun r w' h ↦ ?_) hp
  cases r with
  | ok a => exact hf a w' h
  | error e => trivial

theorem sound_execute_bind {β : Type} {s : Statement} {f : s.Value → Opening β}
    {Q : β → World δ → Prop} (hok : InOrder batch known location i (.statement s) w)
    (h : ∀ v w' w'', Succeeds batch i s w v w' → Rely location i w' w'' →
      Sane batch uses known location n content w'' →
      (contract batch uses known location n content i).Sound (f v).run (Reaches Q) w'') :
    (contract batch uses known location n content i).Sound (execute s >>= f).run (Reaches Q) w :=
  sound_opening_bind (sound_execute (P := fun v ↦
    (contract batch uses known location n content i).Sound (f v).run (Reaches Q)) hok h)
    fun _ _ h ↦ h

/-- A loop, with what holds before each of its rounds. -/
theorem sound_forM {α : Type} {f : α → Opening Unit} {P : List α → World δ → Prop}
    (h : ∀ a rest w, P (a :: rest) w →
      (contract batch uses known location n content i).Sound (f a).run
        (Reaches fun _ ↦ P rest) w) (items : List α) (hp : P items w) :
    (contract batch uses known location n content i).Sound (items.forM f).run
      (Reaches fun _ ↦ P []) w := by
  induction items generalizing w with
  | nil => exact hp
  | cons a rest ih =>
    exact sound_opening_bind (h a rest w hp) fun _ _ h ↦ ih h

/-- The file stands at a version at least, in WAL mode where there is one. -/
structure Past (location : Location) (m : ℤ) (w : World δ) : Prop where
  version : m ≤ w.file.version
  wal : location = .file → w.wal = true

theorem Past.of_rely {m : ℤ} (h : Past location m w) (hr : Rely location i w w') :
    Past location m w' := ⟨h.version.trans hr.version, fun hl ↦ hr.wal (h.wal hl)⟩

/-- So does a connection between its transactions see it. -/
def Level (location : Location) (i : ℕ) (m : ℤ) (w : World δ) : Prop :=
  w.pending i = none ∧ Past location m w

theorem Level.of_rely {m : ℤ} (h : Level location i m w) (hr : Rely location i w w') :
    Level location i m w' := ⟨hr.pending.trans h.1, h.2.of_rely hr⟩

theorem Level.le {m m' : ℤ} (h : Level location i m w) (hm : m' ≤ m) : Level location i m' w :=
  ⟨h.1, hm.trans h.2.version, h.2.wal⟩

/-- Inside a transaction, the file stands as it did at its begin. -/
structure Inside (location : Location) (i : ℕ) (d file : Database δ) (w : World δ) : Prop where
  pending : w.pending i = some d
  file : w.file = file
  wal : location = .file → w.wal = true

theorem Inside.of_rely {d file : Database δ} (h : Inside location i d file w)
    (hr : Rely location i w w') : Inside location i d file w' := by
  have hsome : (w.pending i).isSome = true := by simp [h.pending]
  exact ⟨hr.pending.trans h.pending, (hr.held hsome).trans h.file, fun hl ↦ hr.wal (h.wal hl)⟩

theorem sound_transaction {body : Opening Unit} {m m' : ℤ} (hw : Level location i m w)
    (h : ∀ w', w'.pending i = some w'.file → Past location m w' →
      (contract batch uses known location n content i).Sound body.run
        (Reaches fun _ ↦ Past location m') w') :
    (contract batch uses known location n content i).Sound (transaction body).run
      (Reaches fun _ ↦ Level location i m') w := by
  refine sound_execute_bind trivial fun _ w₁ w₂ hs hr _ ↦ ?_
  obtain ⟨hnone, rfl⟩ := hs
  have hin : Inside location i w.file w.file w₂ :=
    Inside.of_rely (w := { w with writing := some (i, w.file) })
      ⟨pending_eq_some.mpr rfl, rfl, hw.2.wal⟩ hr
  have hpast : Past location m w₂ := ⟨hw.2.version.trans hr.version, hin.wal⟩
  refine sound_bind.mpr (sound_mono (fun r w₃ hbody ↦ ?_)
    (h w₂ (hin.pending.trans (congrArg some hin.file.symm)) hpast))
  refine sound_call_bind trivial fun _ w₄ w₅ hdrop hr ↦ ?_
  cases r with
  | error e => trivial
  | ok _ =>
    have hlevel : Level location i m' w₄ := by
      rw [show w₄ = _ from hdrop]
      refine ⟨?_, hbody.version, hbody.wal⟩
      cases hp : w₃.pending i with
      | none => simpa [World.pending] using hp
      | some d => exact pending_eq_none rfl i
    exact hlevel.of_rely hr.1

theorem sound_migrateStep {place : ℕ} (hw : Level location i place w) (hk : place < known i) :
    (contract batch uses known location n content i).Sound (migrateStep (known i) place).run
      (Reaches fun _ ↦ Level location i (place + 1 : ℕ)) w := by
  refine sound_transaction hw fun w₁ hpending hpast ↦ ?_
  refine sound_execute_bind trivial fun now w₂ w₃ hs hr _ ↦ ?_
  obtain ⟨rfl, rfl⟩ := hs
  have hread : (w₂.read i).version = w₂.file.version := by
    rw [World.read, hpending]
    rfl
  have hin : Inside location i w₂.file w₂.file w₃ :=
    Inside.of_rely ⟨hpending, rfl, hpast.wal⟩ hr
  rw [hread]
  split
  · trivial
  rename_i hnew
  split
  · rename_i hthere
    exact ⟨hin.file ▸ hthere, hin.wal⟩
  rename_i hbelow
  have hversion : w₂.file.version = place := by
    have hlow := hpast.version
    have hhigh : ¬ ((place + 1 : ℕ) : ℤ) ≤ w₂.file.version := hbelow
    omega
  have hinorder : w₃.pending i = some w₃.file ∧ w₃.file.version = place ∧ place < known i := by
    rw [hin.file]
    exact ⟨hin.pending, hversion, hk⟩
  refine sound_execute_bind hinorder fun _ w₄ w₅ hs hr _ ↦ ?_
  obtain ⟨d, c, hp, hbatch, rfl⟩ | ⟨hnone, -⟩ := hs
  swap
  · have hp := pending_eq_none hnone i
    rw [hin.pending] at hp
    cases hp
  obtain rfl := Option.some.inj (hin.pending.symm.trans hp)
  have hin₁ := Inside.of_rely (w := { w₃ with writing := some (i, ⟨w₂.file.version, c⟩) })
    ⟨pending_eq_some.mpr rfl, hin.file, hin.wal⟩ hr
  have hmigrated : Migrated batch (known i) place w₂.file ⟨(place + 1 : ℕ), c⟩ :=
    ⟨hversion, hk, hbatch, rfl⟩
  refine sound_execute_bind ⟨_, place, hin₁.pending, hin₁.file ▸ hmigrated⟩
    fun _ w₆ w₇ hs hr _ ↦ ?_
  obtain ⟨d, hp, rfl⟩ | ⟨hnone, -⟩ := hs
  swap
  · have hp := pending_eq_none hnone i
    rw [hin₁.pending] at hp
    cases hp
  obtain rfl := Option.some.inj (hin₁.pending.symm.trans hp)
  have hin₂ := Inside.of_rely (w := { w₅ with writing := some (i, ⟨(place + 1 : ℕ), c⟩) })
    ⟨pending_eq_some.mpr rfl, hin₁.file, hin₁.wal⟩ hr
  refine sound_execute ⟨hin₂.wal, _, place, hin₂.pending, hin₂.file ▸ hmigrated⟩
    fun _ w₈ w₉ hs hr _ ↦ ?_
  obtain ⟨d, hp, rfl⟩ := hs
  obtain rfl := Option.some.inj (hin₂.pending.symm.trans hp)
  exact Past.of_rely (w := { w₇ with file := ⟨(place + 1 : ℕ), c⟩, writing := none })
    ⟨le_refl _, hin₂.wal⟩ hr

theorem sound_migrate {of : ℤ} (hof : 0 ≤ of) (hw : Level location i of w) :
    (contract batch uses known location n content i).Sound (migrate (known i) of).run
      (Reaches fun _ ↦ Level location i (known i)) w := by
  refine sound_mono (fun r w' h ↦ ?_) (sound_forM (P := fun rest w ↦ ∃ m : ℕ,
    rest = List.range' m (known i - m) ∧ m ≤ known i ∧ Level location i (max of m) w)
    (fun place rest w h ↦ ?_) _ ⟨0, List.range_eq_range', Nat.zero_le _, ?_⟩)
  · cases r with
    | error e => trivial
    | ok _ =>
      obtain ⟨m, hrest, hm, hlevel⟩ := h
      obtain rfl : m = known i := by
        have hlength := congrArg List.length hrest
        simp only [List.length_nil, List.length_range'] at hlength
        omega
      exact hlevel.le (le_max_right _ _)
  · obtain ⟨m, hrest, hm, hlevel⟩ := h
    obtain ⟨count, hcount⟩ : ∃ count, known i - m = count + 1 := by
      apply Nat.exists_eq_add_one_of_ne_zero
      intro hzero
      rw [hzero] at hrest
      cases hrest
    rw [hcount, List.range'_succ] at hrest
    obtain ⟨rfl, rfl⟩ := List.cons.inj hrest
    have hnext : known i - (place + 1) = count := by omega
    unfold migrateAt
    split
    · rename_i hof
      refine ⟨place + 1, by rw [hnext], by omega, ?_⟩
      have hmax : max of ((place + 1 : ℕ) : ℤ) ≤ max of (place : ℕ) := by
        rw [max_eq_left hof]
        exact le_max_left _ _
      exact hlevel.le hmax
    · rename_i hof
      refine sound_mono (fun r w' h ↦ ?_)
        (sound_migrateStep (hlevel.le (le_max_right _ _)) (by omega))
      cases r with
      | error e => trivial
      | ok _ =>
        refine ⟨place + 1, by rw [hnext], by omega, ?_⟩
        rw [max_eq_right (by omega)]
        exact h
  · rw [max_eq_left (by exact hof)]
    exact hw

theorem level_own {m : ℤ} (hw : Level location i m w) {pragma : ℕ → Pragma → ℤ} :
    Level location i m { w with pragma := pragma } := ⟨hw.1, hw.2.version, hw.2.wal⟩

theorem sound_setPragmas {m : ℤ} (hw : Level location i m w) :
    (contract batch uses known location n content i).Sound setPragmas.run
      (Reaches fun _ ↦ Level location i m) w := by
  refine sound_forM (P := fun _ ↦ Level location i m) (fun p rest w hw ↦ ?_) _ hw
  refine sound_execute rfl fun _ w₁ w₂ hs hr _ ↦ ?_
  obtain rfl | rfl := hs
  · exact hw.of_rely hr
  · exact Level.of_rely (level_own hw) hr

/-- The pragmas that are still to be read back, and those that stood as demanded. -/
def Checked (location : Location) (i : ℕ) (m : ℤ) (rest : List Pragma) (w : World δ) : Prop :=
  Level location i m w ∧ ∀ p, p ∈ rest ∨ w.pragma i p = p.demanded

theorem sound_checkPragmas {m : ℤ} (hw : Level location i m w) :
    (contract batch uses known location n content i).Sound checkPragmas.run
      (Reaches fun _ w' ↦ Level location i m w' ∧ ∀ p, w'.pragma i p = p.demanded) w := by
  refine sound_mono (fun r w' h ↦ ?_) (sound_forM (P := Checked location i m) (fun p rest w hw ↦ ?_)
    Pragma.all ⟨hw, fun p ↦ .inl p.mem_all⟩)
  · cases r with
    | error e => trivial
    | ok _ => exact ⟨h.1, fun p ↦ (h.2 p).resolve_left List.not_mem_nil⟩
  · refine sound_execute_bind trivial fun found w₁ w₂ hs hr _ ↦ ?_
    obtain ⟨rfl, rfl⟩ := hs
    split
    · rename_i hfound
      refine ⟨hw.1.of_rely hr, fun q ↦ ?_⟩
      rw [hr.pragma]
      obtain hq | hq := hw.2 q
      · obtain rfl | hq := List.mem_cons.mp hq
        · exact .inr hfound
        · exact .inl hq
      · exact .inr hq
    · trivial

theorem sound_setUp (hw : w.pending i = none) :
    (contract batch uses known location n content i).Sound (setUp (known i) location).run
      (Reaches fun _ w' ↦ Level location i (known i) w' ∧ ∀ p, w'.pragma i p = p.demanded) w := by
  refine sound_execute_bind trivial fun _ w₁ w₂ hs hr hsane ↦ ?_
  obtain rfl := hs
  have hw₂ : w₂.pending i = none := hr.pending.trans hw
  refine sound_execute_bind trivial fun found w₃ w₄ hs hr₁ _ ↦ ?_
  obtain ⟨rfl, rfl⟩ := hs
  have hread : w₃.read i = w₃.file := by
    rw [World.read, hw₂]
    rfl
  rw [hread]
  split
  · trivial
  rename_i hnew
  have hknown : ¬ w₃.file.version > known i := hnew
  have hlow : 0 ≤ w₃.file.version := by
    obtain ⟨events, m, hm, -⟩ := hsane.lifted
    omega
  have hswitch : (contract batch uses known location n content i).Sound (switchToWal location).run
      (Reaches fun _ ↦ Level location i w₃.file.version) w₄ := by
    have hidle := hr₁.pending.trans hw₂
    cases location with
    | memory => exact ⟨hidle, hr₁.version, fun h ↦ by cases h⟩
    | file =>
      have hok : w₄.file.version ≤ known i ∨ w₄.wal = true := by
        obtain hv | hv := lt_or_ge w₃.file.version w₄.file.version
        · exact .inr (hr₁.raised rfl hv)
        · exact .inl (by omega)
      refine sound_execute_bind ⟨rfl, hok⟩ fun mode w₅ w₆ hs hr₂ _ ↦ ?_
      obtain ⟨on, rfl, hon, hmode⟩ := hs
      split
      · rename_i hwal
        exact Level.of_rely (w := { w₄ with wal := on })
          ⟨hidle, hr₁.version, fun _ ↦ hmode hwal⟩ hr₂
      · trivial
  refine sound_opening_bind hswitch fun _ w₅ hw ↦ ?_
  refine sound_opening_bind (sound_setPragmas hw) fun _ w₆ hw ↦ ?_
  refine sound_opening_bind (sound_migrate hlow hw) fun _ w₇ hw ↦ ?_
  refine sound_opening_bind (sound_setPragmas hw) fun _ w₈ hw ↦ ?_
  exact sound_checkPragmas hw

theorem sound_openStore (hw : w.pending i = none) :
    (contract batch uses known location n content i).Sound
      (connection (openStore (known i) location)) (fun _ _ ↦ True) w := by
  refine sound_bind.mpr (sound_mono (Q := Reaches fun _ _ ↦ True) (fun _ _ _ ↦ trivial) ?_)
  refine sound_opening_bind (sound_setUp hw) fun _ w' h ↦ ?_
  obtain ⟨hlevel, hpragma⟩ := h
  exact ⟨⟨hlevel.2.version, hlevel.2.wal, hpragma⟩, fun _ _ _ _ _ ↦ trivial⟩

theorem sound_checkReadOnly (w : World δ) :
    (contract batch uses known location n content i).Sound
      (connection (checkReadOnly (known i))) (fun _ _ ↦ True) w := by
  refine sound_bind.mpr (sound_mono (Q := Reaches fun _ _ ↦ True) (fun _ _ _ ↦ trivial) ?_)
  refine sound_execute_bind trivial fun _ w₁ w₂ _ _ _ ↦ ?_
  refine sound_execute_bind trivial fun found w₃ w₄ _ _ _ ↦ ?_
  split
  · trivial
  split
  · trivial
  refine sound_execute_bind trivial fun mode w₅ w₆ _ _ _ ↦ ?_
  split
  · exact sound_execute trivial fun _ _ _ _ _ _ ↦ trivial
  · trivial

end Sound

section Served

/-- The statements of a connection whose database serves every one that it can. -/
def serveStatement (batch : ℕ → δ → Option δ) (i : ℕ) (w : World δ) :
    (s : Statement) → Except String s.Value × World δ
  | .busyTimeout _ => (.ok (), w)
  | .version => (.ok (w.read i).version, w)
  | .useWal => (.ok "wal", { w with wal := true })
  | .journalMode => (.ok (if w.wal then "wal" else "delete"), w)
  | .setPragma p v => (.ok (),
      { w with pragma := Function.update w.pragma i (Function.update (w.pragma i) p v) })
  | .readPragma p => (.ok (w.pragma i p), w)
  | .queryOnly => (.ok (), w)
  | .beginImmediate =>
    if w.writing = none then (.ok (), { w with writing := some (i, w.file) })
    else (.error "database is locked", w)
  | .executeBatch place =>
    match w.pending i with
    | some d =>
      match batch place d.content with
      | some c => (.ok (), { w with writing := some (i, ⟨d.version, c⟩) })
      | none => (.error "constraint failed", w)
    | none => (.error "no transaction", w)
  | .setVersion target =>
    match w.pending i with
    | some d => (.ok (), { w with writing := some (i, ⟨target, d.content⟩) })
    | none => (.error "no transaction", w)
  | .commit =>
    match w.pending i with
    | some d => (.ok (), { w with file := d, writing := none })
    | none => (.error "no transaction", w)

def serveAlone (batch : ℕ → δ → Option δ) (i : ℕ) :
    (r : Request) → World δ → Answer r × World δ
  | .statement s, w => serveStatement batch i w s
  | .dropTransaction, w =>
    ((), { w with writing := if (w.pending i).isSome then none else w.writing })
  | .keep, w => ((), { w with opened := Function.update w.opened i true })

/-- It serves as a database may. -/
theorem serve_alone (r : Request) (w : World δ) :
    serve batch i r w (serveAlone batch i r w).1 (serveAlone batch i r w).2 := by
  cases r with
  | dropTransaction | keep => rfl
  | statement s =>
    cases s with
    | busyTimeout | queryOnly => rfl
    | version | readPragma => exact ⟨rfl, rfl⟩
    | useWal => exact ⟨true, rfl, fun _ ↦ rfl, fun _ ↦ rfl⟩
    | journalMode =>
      refine ⟨?_, rfl⟩
      cases w.wal with
      | false => exact iff_of_false (by decide) (by decide)
      | true => exact iff_of_true (by decide) rfl
    | setPragma p v => exact .inr rfl
    | beginImmediate =>
      by_cases hw : w.writing = none
      · simp only [serveAlone, serveStatement, if_pos hw]
        exact ⟨hw, rfl⟩
      · simp only [serveAlone, serveStatement, if_neg hw]
        exact .nothing _ w
    | executeBatch place =>
      cases hp : w.pending i with
      | none =>
        simp only [serveAlone, serveStatement, hp]
        exact .nothing _ w
      | some d =>
        cases hb : batch place d.content with
        | none =>
          simp only [serveAlone, serveStatement, hp, hb]
          exact .nothing _ w
        | some c =>
          simp only [serveAlone, serveStatement, hp, hb]
          exact .inl ⟨d, c, hp, hb, rfl⟩
    | setVersion target =>
      cases hp : w.pending i with
      | none =>
        simp only [serveAlone, serveStatement, hp]
        exact .nothing _ w
      | some d =>
        simp only [serveAlone, serveStatement, hp]
        exact .inl ⟨d, hp, rfl⟩
    | commit =>
      cases hp : w.pending i with
      | none =>
        simp only [serveAlone, serveStatement, hp]
        exact .nothing _ w
      | some d =>
        simp only [serveAlone, serveStatement, hp]
        exact ⟨d, hp, rfl⟩

end Served

section Runs

/-- A database that no program has opened yet. -/
def Untouched (n : ℕ) (content : δ) (w : World δ) : Prop :=
  w.file = ⟨n, content⟩ ∧ w.writing = none ∧ ∀ i, w.opened i = false

theorem kept : (discipline batch uses known location n content).Kept
    (rules batch uses known location) (Untouched n content) where
  refl i w := .refl location i w
  trans _ _ _ _ h h' := h.trans h'
  enter w hw := by
    obtain ⟨hfile, -, hopened⟩ := hw
    refine ⟨⟨[], n, congrArg Database.version hfile, ?_⟩, fun _ hv ↦ ?_, fun i hi ↦ ?_⟩
    · rw [hfile]
      exact .refl
    · exact absurd (congrArg Database.version hfile) hv
    · rw [hopened i] at hi
      cases hi
  start i p w _ hs := by
    obtain ⟨hnone, rfl | rfl⟩ := hs
    · exact fun w' hr _ ↦ sound_openStore (hr.pending.trans hnone)
    · exact fun w' _ _ ↦ sound_checkReadOnly w'
  serve i r w a w' hw hok hs := by
    have hmove := move_serve hok hs
    exact ⟨sane_move hw hmove, fun j hj ↦ rely_move hmove hj⟩
  finish i w w' hw _ hs := by
    obtain ⟨pragmas, rfl⟩ := hs
    exact ⟨sane_closed hw i pragmas, fun j hj ↦ rely_closed hj pragmas⟩
  abort i w w' hw hs := by
    obtain ⟨pragmas, rfl⟩ := hs
    exact ⟨sane_closed hw i pragmas, fun j hj ↦ rely_closed hj pragmas⟩
  restart w w' hw hs := by
    obtain ⟨pragmas, rfl⟩ := hs
    exact ⟨hw.lifted, hw.raised, fun i hi ↦ by cases hi⟩
  outside w w' hw hs := by
    obtain ⟨i, c, hopened, hnone, huse, rfl⟩ := hs
    obtain ⟨events, m, hm, hlifted⟩ := hw.lifted
    have hknown : known i ≤ m := by
      have hv := (hw.usable i hopened).version
      omega
    refine ⟨⟨⟨_, m, hm, hlifted.use hknown huse⟩, hw.raised, fun k hk ↦ ?_⟩, fun j ↦ ?_⟩
    · have hu := hw.usable k hk
      exact ⟨hu.version, hu.wal, hu.pragma⟩
    · refine ⟨le_refl _, fun _ hv ↦ absurd hv (lt_irrefl _), id, rfl, fun hp ↦ ?_, rfl⟩
      rw [pending_eq_none hnone j] at hp
      cases hp

variable {c : Pool Request Answer (World δ)}

section Sample

/-- Migrations that count themselves. -/
def counting (_ c : ℕ) : Option ℕ := some (c + 1)

/-- An empty database, before anybody has opened it. -/
def empty : World ℕ := ⟨⟨(0 : ℕ), 0⟩, false, none, fun _ _ ↦ 0, fun _ ↦ false⟩

/-- It after a program has opened it. -/
def openedEmpty : World ℕ :=
  ((connection (openStore schemaVersion .file)).handle (serveAlone counting 1) empty).2

theorem run_openedEmpty : ∃ c : Pool Request Answer (World ℕ),
    (rules counting (fun _ _ _ ↦ False) (fun _ ↦ schemaVersion) .file).Run (Untouched 0 0) c ∧
      c.state = openedEmpty := by
  have hfirst : (rules counting (fun _ _ _ ↦ False) (fun _ ↦ schemaVersion) .file).Run
      (Untouched 0 0) ⟨empty, fun _ ↦ none⟩ := .first ⟨rfl, rfl, fun _ ↦ rfl⟩
  have hstart := hfirst.step (.start (i := 1) rfl ⟨rfl, .inl rfl⟩)
  have hrunning := Function.update_self (β := fun _ ↦ Option (Program Request Answer Unit)) 1
    (some (connection (openStore schemaVersion .file))) fun _ ↦ none
  exact ⟨_, Rules.run_of_handle (serve_alone (i := 1)) hstart hrunning, rfl⟩

end Sample

/-- Whatever programs of whatever versions open the database side by side, whichever of their
statements fail and wherever they die: what stands in the file came from its first content by
uses and by every migration between the two versions, each taken once, in order and on the version
it is for; and no program uses content below its own version. -/
theorem lifted_of_run
    (h : (rules batch uses known location).Run (Untouched n content) c) :
    ∃ events m, c.state.file.version = (m : ℕ) ∧ n ≤ m ∧
      Lifted batch uses n content events m c.state.file.content ∧
      events.filterMap Event.place? = List.range' n (m - n) := by
  obtain ⟨events, m, hm, hlifted⟩ := (Discipline.run_kept kept h).1.lifted
  exact ⟨events, m, hm, hlifted.le, hlifted, hlifted.places⟩

theorem lifted_openedEmpty : ∃ events m, openedEmpty.file.version = (m : ℕ) ∧ 0 ≤ m ∧
    Lifted counting (fun _ _ _ ↦ False) 0 0 events m openedEmpty.file.content ∧
      events.filterMap Event.place? = List.range' 0 (m - 0) := by
  obtain ⟨c, hrun, hc⟩ := run_openedEmpty
  exact hc ▸ lifted_of_run hrun

end Runs

section Newer

variable {wal : Bool}

/-- The statements that leave a database as it is. -/
def Looks : Request → Prop
  | .statement (.busyTimeout _) | .statement .version => True
  | _ => False

/-- A database that no program has opened yet, in WAL mode or not. -/
def Fresh (n : ℕ) (content : δ) (wal : Bool) (w : World δ) : Prop :=
  Untouched n content w ∧ w.wal = wal

def looking (n : ℕ) (content : δ) (wal : Bool) : Discipline Request Answer (World δ) where
  invariant := Fresh n content wal
  ok _ r _ := Looks r
  rely _ _ _ := True
  ends _ _ := True

variable {c : Pool Request Answer (World δ)}

end Newer

end FolderClient.Storage.SchemaRuns
