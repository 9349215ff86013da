import FolderClient.Storage.SchemaRuns

namespace FolderClient.Storage.SchemaAlone

open FolderClient.Library.Pools FolderClient.Library.Programs FolderClient.Library.Upgrades
open FolderClient.Library.Programs.Program FolderClient.Storage.Schema
open FolderClient.Storage.SchemaRuns

variable {δ : Type} {batch : ℕ → δ → Option δ} {uses : ℕ → δ → δ → Prop} {location : Location}
  {n i : ℕ} {content : δ} {w w' : World δ}

/-- What comes of an opening that has the database for itself. -/
def alone (batch : ℕ → δ → Option δ) (i : ℕ) (p : Opening Unit) (w : World δ) :
    Except SchemaError Unit × World δ := p.run.handle (serveAlone batch i) w

theorem alone_bind_ok {p : Opening Unit} {f : Unit → Opening Unit}
    (hp : alone batch i p w = (.ok (), w')) :
    alone batch i (p >>= f) w = alone batch i (f ()) w' := by
  change (p.run >>= _).handle _ w = _
  rw [handle_bind, show p.run.handle (serveAlone batch i) w = _ from hp]
  rfl

theorem alone_bind_error {p : Opening Unit} {f : Unit → Opening Unit} {e : SchemaError}
    (hp : alone batch i p w = (.error e, w')) : alone batch i (p >>= f) w = (.error e, w') := by
  change (p.run >>= _).handle _ w = _
  rw [handle_bind, show p.run.handle (serveAlone batch i) w = _ from hp]
  rfl

section Parts

/-- The pragmas of a connection stand as demanded. -/
def demanding (w : World δ) (i : ℕ) : World δ :=
  { w with pragma := Function.update w.pragma i Pragma.demanded }

theorem alone_setPragmas : alone batch i setPragmas w = (.ok (), demanding w i) := by
  refine Prod.ext rfl (congrArg (fun f ↦ World.mk w.file w.wal w.writing f w.opened) ?_)
  funext j p
  by_cases hj : j = i
  · subst hj
    cases p <;> simp [serveAlone, serveStatement]
  · simp [serveAlone, serveStatement, hj]

theorem alone_checkPragmas :
    alone batch i checkPragmas (demanding w i) = (.ok (), demanding w i) := by
  have hp : ∀ p, (demanding w i).pragma i p = p.demanded := fun p ↦ by simp [demanding]
  have hround : ∀ p, alone batch i (checkPragma p) (demanding w i) = (.ok (), demanding w i) := by
    intro p
    change Program.handle _ (ExceptT.run (if (demanding w i).pragma i p = p.demanded then _ else _))
      _ = _
    rw [if_pos (hp p)]
    rfl
  have hend : alone batch i (pure ()) (demanding w i) = (.ok (), demanding w i) := rfl
  exact (alone_bind_ok (hround _)).trans ((alone_bind_ok (hround _)).trans
    ((alone_bind_ok (hround _)).trans hend))

theorem alone_execute_bind {s : Statement} {v : s.Value} {f : s.Value → Opening Unit}
    (hs : serveStatement batch i w s = (.ok v, w')) :
    alone batch i (execute s >>= f) w = alone batch i (f v) w' := by
  change Program.handle _ (ExceptT.bindCont f (Except.mapError _ (serveStatement batch i w s).1))
    (serveStatement batch i w s).2 = _
  rw [hs]
  rfl

theorem alone_execute_error {s : Statement} {e : String} {f : s.Value → Opening Unit}
    (hs : serveStatement batch i w s = (.error e, w')) :
    alone batch i (execute s >>= f) w = (.error (.database e), w') := by
  change Program.handle _ (ExceptT.bindCont f (Except.mapError _ (serveStatement batch i w s).1))
    (serveStatement batch i w s).2 = _
  rw [hs]
  rfl

/-- Inside a transaction, and at its end. -/
def holding (w : World δ) (i : ℕ) (d : Database δ) : World δ := { w with writing := some (i, d) }

def dropped (w : World δ) (i : ℕ) : World δ :=
  { w with writing := if (w.pending i).isSome then none else w.writing }

@[simp] theorem pending_holding (w : World δ) (i : ℕ) (d : Database δ) :
    (holding w i d).pending i = some d := pending_eq_some.mpr rfl

theorem dropped_holding (hnone : w.writing = none) (d : Database δ) :
    dropped (holding w i d) i = w := by
  rw [dropped, pending_holding]
  change { w with writing := none } = w
  rw [← hnone]

theorem dropped_of_none (hnone : w.writing = none) : dropped w i = w := by
  rw [dropped, pending_eq_none hnone]
  rfl

theorem alone_transaction {body : Opening Unit} {r : Except SchemaError Unit}
    (hnone : w.writing = none) (hbody : alone batch i body (holding w i w.file) = (r, w')) :
    alone batch i (transaction body) w = (r, dropped w' i) := by
  have hbegin : serveStatement batch i w .beginImmediate = (.ok (), holding w i w.file) := by
    simp [serveStatement, holding, hnone]
  rw [transaction, alone_execute_bind hbegin]
  change (body.run >>= _).handle _ _ = _
  rw [handle_bind, show body.run.handle (serveAlone batch i) _ = _ from hbody]
  rfl

/-- A migration on the version before it either takes effect as a whole or leaves no trace. -/
theorem alone_migrateStep {known place : ℕ} (hnone : w.writing = none)
    (hversion : w.file.version = place) (hknown : place < known) :
    alone batch i (migrateStep known place) w = match batch place w.file.content with
      | some c => (.ok (), { w with file := ⟨(place + 1 : ℕ), c⟩ })
      | none => (.error (.database "constraint failed"), w) := by
  have hread : serveStatement batch i (holding w i w.file) .version =
      (.ok (place : ℤ), holding w i w.file) := by
    simp [serveStatement, World.read, hversion]
  have hstart : ∀ r w', alone batch i (do
        execute (.executeBatch place)
        execute (.setVersion (place + 1 : ℕ))
        execute .commit) (holding w i w.file) = (r, w') →
      alone batch i (migrateStep known place) w = (r, dropped w' i) := by
    intro r w' h
    refine alone_transaction hnone ((alone_execute_bind hread).trans ?_)
    have hold : ¬ (place : ℤ) > known := by omega
    have hbelow : ¬ ((place + 1 : ℕ) : ℤ) ≤ place := by omega
    rw [if_neg hold, if_neg hbelow]
    exact h
  cases hb : batch place w.file.content with
  | none =>
    have hbatch : serveStatement batch i (holding w i w.file) (.executeBatch place) =
        (.error "constraint failed", holding w i w.file) := by
      simp [serveStatement, hb]
    rw [hstart _ _ (alone_execute_error hbatch), dropped_holding hnone]
  | some c =>
    have hbatch : serveStatement batch i (holding w i w.file) (.executeBatch place) =
        (.ok (), holding w i ⟨place, c⟩) := by
      simp only [serveStatement, pending_holding, hb, hversion]
      rfl
    have hversion' : serveStatement batch i (holding w i ⟨place, c⟩)
        (.setVersion (place + 1 : ℕ)) = (.ok (), holding w i ⟨(place + 1 : ℕ), c⟩) := by
      simp only [serveStatement, pending_holding]
      rfl
    have hcommit : serveStatement batch i (holding w i ⟨(place + 1 : ℕ), c⟩) .commit =
        (.ok (), { w with file := ⟨(place + 1 : ℕ), c⟩ }) := by
      simp only [serveStatement, pending_holding]
      rw [← hnone]
      rfl
    have hend : alone batch i (execute .commit) (holding w i ⟨(place + 1 : ℕ), c⟩) =
        (.ok (), { w with file := ⟨(place + 1 : ℕ), c⟩ }) := by
      change (Except.mapError _ (serveStatement batch i (holding w i _) .commit).1,
        (serveStatement batch i (holding w i _) .commit).2) = _
      rw [hcommit]
      rfl
    rw [hstart _ _ ((alone_execute_bind hbatch).trans ((alone_execute_bind hversion').trans hend)),
      dropped_of_none (by exact hnone)]

/-- Nobody writes to the file that stands at a version. -/
structure Resting (w : World δ) (m : ℕ) : Prop where
  writing : w.writing = none
  version : w.file.version = m

/-- What a world comes to by so many migrations, and how they end. -/
def climbed (batch : ℕ → δ → Option δ) (count m : ℕ) (w : World δ) : World δ :=
  { w with
    file := ⟨((climb batch count m w.file.content).1 : ℕ), (climb batch count m w.file.content).2⟩ }

def outcome (batch : ℕ → δ → Option δ) (count m : ℕ) (c : δ) : Except SchemaError Unit :=
  if (climb batch count m c).1 = m + count then .ok () else .error (.database "constraint failed")

theorem climbed_zero {m : ℕ} (hw : Resting w m) : climbed batch 0 m w = w := by
  rw [climbed, climb, ← hw.version]

theorem outcome_zero {m : ℕ} {c : δ} : outcome batch 0 m c = .ok () := if_pos rfl

theorem alone_steps {known m k : ℕ} (count : ℕ) (hm : m ≤ k) (hk : k + count = known)
    (hw : Resting w k) :
    alone batch i ((List.range' k count).forM (migrateAt known m)) w =
      (outcome batch count k w.file.content, climbed batch count k w) := by
  induction count generalizing k w with
  | zero =>
    rw [climbed_zero hw, outcome_zero]
    rfl
  | succ count ih =>
    have hround : migrateAt known m k = migrateStep known k := if_neg (by omega)
    have hstep : alone batch i (migrateStep known k) w = _ :=
      alone_migrateStep hw.writing hw.version (by omega)
    rw [List.range'_succ]
    change alone batch i (migrateAt known m k >>= fun _ ↦ List.forM _ _) w = _
    rw [hround]
    cases hb : batch k w.file.content with
    | none =>
      rw [hb] at hstep
      rw [alone_bind_error hstep, outcome, climbed]
      simp only [climb, hb]
      rw [if_neg (by omega), ← hw.version]
    | some c =>
      rw [hb] at hstep
      have hrest := ih (w := { w with file := ⟨(k + 1 : ℕ), c⟩ }) (k := k + 1) (by omega)
        (by omega) ⟨hw.writing, rfl⟩
      have hsum : k + 1 + count = k + (count + 1) := by omega
      rw [alone_bind_ok hstep]
      refine hrest.trans ?_
      simp only [outcome, climbed, climb, hb, hsum]

theorem alone_skipping {known m : ℕ} (skip count : ℕ) (hskip : skip ≤ m) (hk : m + count = known)
    (hw : Resting w m) :
    alone batch i ((List.range' (m - skip) (skip + count)).forM (migrateAt known m)) w =
      (outcome batch count m w.file.content, climbed batch count m w) := by
  induction skip with
  | zero =>
    rw [Nat.zero_add]
    exact alone_steps count le_rfl hk hw
  | succ skip ih =>
    have hround : migrateAt known m (m - (skip + 1)) = pure () := if_pos (by omega)
    have hlength : skip + 1 + count = skip + count + 1 := by omega
    have hnext : m - (skip + 1) + 1 = m - skip := by omega
    rw [hlength, List.range'_succ, hnext]
    change alone batch i (migrateAt known m (m - (skip + 1)) >>= fun _ ↦ List.forM _ _) w = _
    rw [hround]
    exact ih (by omega)

theorem alone_migrate {known m : ℕ} (hm : m ≤ known) (hw : Resting w m) :
    alone batch i (migrate known m) w =
      (outcome batch (known - m) m w.file.content, climbed batch (known - m) m w) := by
  have h : alone batch i ((List.range' (m - m) _).forM _) w = _ :=
    alone_skipping m (known - m) le_rfl (Nat.add_sub_cancel' hm) hw
  rw [Nat.sub_self, Nat.add_sub_cancel' hm, ← List.range_eq_range'] at h
  exact h

end Parts

section Opened

def walled (location : Location) (w : World δ) : World δ :=
  match location with
  | .file => { w with wal := true }
  | .memory => w

theorem alone_switchToWal :
    alone batch i (switchToWal location) w = (.ok (), walled location w) := by
  cases location with
  | memory => rfl
  | file =>
    have hmode : serveStatement batch i w .useWal = (.ok "wal", walled .file w) := rfl
    have hwal : isWal "wal" = true := rfl
    rw [switchToWal, alone_execute_bind hmode, if_pos hwal]
    rfl

theorem resting_walled {m : ℕ} (hw : Resting w m) : Resting (walled location w) m := by
  cases location with
  | memory => exact hw
  | file => exact ⟨hw.writing, hw.version⟩

theorem content_walled : (walled location w).file = w.file := by
  cases location <;> rfl

/-- Before the migrations. -/
def prepared (location : Location) (w : World δ) (i : ℕ) : World δ :=
  demanding (walled location w) i

theorem demanding_climbed {count m : ℕ} :
    demanding (climbed batch count m (prepared location w i)) i =
      climbed batch count m (prepared location w i) := by
  simp [demanding, climbed, prepared]

variable {known m : ℕ}

theorem alone_setUp_newer (hw : Resting w m) (hm : known < m) :
    alone batch i (setUp known location) w = (.error (.schemaTooNew m known), w) := by
  have hversion : serveStatement batch i w .version = (.ok (m : ℤ), w) := by
    simp [serveStatement, World.read, pending_eq_none hw.writing, hw.version]
  have hnew : (m : ℤ) > known := by omega
  rw [setUp, alone_execute_bind rfl, alone_execute_bind hversion, if_pos hnew]
  rfl

theorem alone_setUp (hw : Resting w m) (hm : m ≤ known) :
    alone batch i (setUp known location) w = (outcome batch (known - m) m w.file.content,
      climbed batch (known - m) m (prepared location w i)) := by
  have hversion : serveStatement batch i w .version = (.ok (m : ℤ), w) := by
    simp [serveStatement, World.read, pending_eq_none hw.writing, hw.version]
  have hrest : Resting (prepared location w i) m :=
    ⟨(resting_walled hw).writing, (resting_walled hw).version⟩
  have hfile : (prepared location w i).file = w.file := content_walled
  have hmigrate : alone batch i (migrate known m) (prepared location w i) = _ :=
    alone_migrate hm hrest
  rw [hfile] at hmigrate
  have hold : ¬ (m : ℤ) > known := by omega
  rw [setUp, alone_execute_bind rfl, alone_execute_bind hversion, if_neg hold,
    alone_bind_ok alone_switchToWal, alone_bind_ok alone_setPragmas]
  change alone batch i _ (prepared location w i) = _
  by_cases hreached : (climb batch (known - m) m w.file.content).1 = m + (known - m)
  · rw [outcome, if_pos hreached] at hmigrate
    rw [alone_bind_ok hmigrate, alone_bind_ok alone_setPragmas, alone_checkPragmas,
      demanding_climbed, outcome, if_pos hreached]
  · rw [outcome, if_neg hreached] at hmigrate
    rw [alone_bind_error hmigrate, outcome, if_neg hreached]

/-- An opening that has the database for itself runs every migration from the version it finds,
each in its order, up to its own version or to the first that the content refuses. Only in the
first case a store is handed out; in the second the error is reported, and the file stands
complete at the last version reached. A newer database is left as it is. -/
theorem alone_openStore (hw : Resting w m) (hi : w.opened i = false) :
    (known < m → alone batch i (openStore known location) w =
      (.error (.schemaTooNew m known), w)) ∧
    (m ≤ known → ∀ reached c, climb batch (known - m) m w.file.content = (reached, c) →
      ∃ w', alone batch i (openStore known location) w =
          (if reached = known then .ok () else .error (.database "constraint failed"), w') ∧
        w'.file = ⟨reached, c⟩ ∧ w'.writing = none ∧
        (w'.opened i = true ↔ reached = known) ∧
        (reached = known → Usable (fun _ ↦ known) location i w')) := by
  refine ⟨fun hnew ↦ alone_bind_error (alone_setUp_newer hw hnew), fun hm reached c hclimb ↦ ?_⟩
  have hsetUp : alone batch i (setUp known location) w = _ := alone_setUp hw hm
  have hfile : (prepared location w i).file = w.file := content_walled
  have hclimbed : (climbed batch (known - m) m (prepared location w i)).file = ⟨reached, c⟩ := by
    rw [climbed, hfile, hclimb]
  have hwriting : (climbed batch (known - m) m (prepared location w i)).writing = none :=
    (resting_walled hw).writing
  rw [outcome, hclimb, Nat.add_sub_cancel' hm] at hsetUp
  by_cases hreached : reached = known
  · rw [if_pos hreached] at hsetUp ⊢
    refine ⟨_, alone_bind_ok hsetUp, hclimbed, hwriting, ?_, fun _ ↦ ⟨?_, fun hl ↦ ?_, fun p ↦ ?_⟩⟩
    · exact iff_of_true (Function.update_self (β := fun _ ↦ Bool) i true _) hreached
    · exact (congrArg Database.version hclimbed).ge.trans' (by rw [hreached])
    · subst hl
      rfl
    · change Function.update (walled location w).pragma i Pragma.demanded i p = _
      rw [Function.update_self]
  · rw [if_neg hreached] at hsetUp ⊢
    refine ⟨_, alone_bind_error hsetUp, hclimbed, hwriting, ?_, fun h ↦ absurd h hreached⟩
    have hopened : (climbed batch (known - m) m (prepared location w i)).opened i = false := by
      cases location <;> exact hi
    rw [hopened]
    exact iff_of_false Bool.false_ne_true hreached

/-- An empty database goes through all the migrations. -/
theorem alone_openStore_empty : ∃ w',
    alone counting 1 (openStore schemaVersion .file) empty = (.ok (), w') ∧
      w'.file = ⟨(5 : ℕ), 5⟩ ∧ w'.opened 1 = true := by
  have h := @alone_openStore ℕ counting .file 1 empty schemaVersion 0 ⟨rfl, rfl⟩ rfl
  obtain ⟨w', halone, hfile, -, hopened, -⟩ := h.2 (by decide) 5 5 rfl
  exact ⟨w', halone, hfile, hopened.mpr rfl⟩

end Opened

end FolderClient.Storage.SchemaAlone
