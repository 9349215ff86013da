import FolderClient.Engine.Source
import FolderClient.Library.Pools

namespace FolderClient.Engine.System

open FolderClient.Net.Access
open FolderClient.Core.Namespace FolderClient.Core.Delivery FolderClient.Library.Json
open FolderClient.Library.Programs FolderClient.Library.Pools FolderClient.Storage.Basic
open FolderClient.Storage.Delivery FolderClient.Wire.Delivery FolderClient.Engine.Port
open FolderClient.Engine.Session FolderClient.Engine.Reconcile FolderClient.Engine.Commands
open FolderClient.Engine.Channel FolderClient.Engine.Transfers

/-- What the engine has running side by side: turns of the delivery channel, and whatever the
user, the beat of the reconcile and the platform set off. -/
inductive Job
  | channel (rate : RateLimit) (wait : Option ℕ) (disturbed : Bool)
  | signIn
  | signOut
  | reconcile (container : Container)
  | reconcileEverything
  | children (container : Container)
  | content (identifier : EntryIdentifier) (request : ContentRequest)
  | ensureForToken
  | forceRefresh

/-- An activity of the session, whatever comes of it. -/
def fromSession {α : Type} (p : SessionFallible α) : Activity Unit :=
  (ofReconcile (ofSession p)).embed .command >>= fun _ ↦ pure ()

def fromReconcile {α : Type} (p : ReconcileFallible α) : Activity Unit :=
  (ofReconcile p).embed .command >>= fun _ ↦ pure ()

section Jobs

variable (setting : Setting)

/-- Signs in; after a success everything is reconciled. -/
def signInAndReconcile : ReconcileFallible Unit := do
  ofSession (signIn setting)
  reconcileEverything setting

namespace Job

def program : Job → Activity Unit
  | channel rate wait disturbed => Channel.channel setting rate wait disturbed
  | signIn => fromReconcile (signInAndReconcile setting)
  | signOut => fromSession (Session.signOut setting)
  | reconcile container => fromReconcile (reconcileContainer setting container)
  | reconcileEverything => fromReconcile (Reconcile.reconcileEverything setting)
  | children container => (Source.children setting container).run >>= fun _ ↦ pure ()
  | content identifier request => Hydration.content setting identifier request
  | ensureForToken => fromSession (Session.ensureForToken setting)
  | forceRefresh => fromSession (Session.forceRefresh setting)

/-- The turns of the channel follow one another in place 0, as long as nothing is stopped. -/
def mayStart (i : ℕ) (w : World) : Job → Prop
  | channel _ _ _ => i = 0 ∧ w.memory.stopped = false
  | _ => i ≠ 0

end Job

end Jobs

/-- A finished activity; with the turn of the channel its page is out of hand. -/
def ended (i : ℕ) (w : World) : World :=
  if i = 0 then w.noting fun h ↦ { h with inHand := false, running := none } else w

/-- An aborted activity gives the lock of the sign-in back; its scratch file stays behind. -/
def aborted (i : ℕ) (w : World) : World :=
  ((ended i w).leaveHandling i).withMemory fun m ↦
    { m with
      lock := if m.lock = some i then none else m.lock
      clearing := m.clearing.erase i }

theorem ended_cases (i : ℕ) (w : World) : ended i w = w ∨
    i = 0 ∧ ended i w = w.noting fun h ↦ { h with inHand := false, running := none } := by
  unfold ended
  split
  · exact .inr ⟨‹i = 0›, rfl⟩
  · exact .inl rfl

/-- With the end of an activity what lasts, and most of what has happened, stands. -/
structure SameRecord (w w' : World) : Prop where
  store : w'.store = w.store
  refreshToken : w'.refreshToken = w.refreshToken
  pages : w'.history.pages = w.history.pages
  written : w'.history.written = w.history.written
  account : w'.history.account = w.history.account
  signOuts : w'.history.signOuts = w.history.signOuts
  acknowledged : w'.history.acknowledged = w.history.acknowledged
  firstRuns : w'.history.firstRuns = w.history.firstRuns
  released : w'.history.released = w.history.released

theorem sameRecord_ended (i : ℕ) (w : World) : SameRecord w (ended i w) := by
  obtain h | ⟨-, h⟩ := ended_cases i w <;> rw [h] <;>
    exact ⟨rfl, rfl, rfl, rfl, rfl, rfl, rfl, rfl, rfl⟩

theorem sameRecord_aborted (i : ℕ) (w : World) : SameRecord w (aborted i w) :=
  ⟨(sameRecord_ended i w).store, (sameRecord_ended i w).refreshToken,
    (sameRecord_ended i w).pages, (sameRecord_ended i w).written, (sameRecord_ended i w).account,
    (sameRecord_ended i w).signOuts, (sameRecord_ended i w).acknowledged,
    (sameRecord_ended i w).firstRuns, (sameRecord_ended i w).released⟩

def stopped (w : World) : World :=
  w.withMemory fun m ↦ { m with stopped := true, state := .stopped }

/-- What a run keeps to besides the code. -/
structure Condition where
  serve : ℕ → (r : Request) → World → Answer r → World → Prop := fun _ _ _ _ _ ↦ True
  abort : ℕ → World → Prop := fun _ _ ↦ True
  restart : World → Prop := fun _ ↦ True
  stop : World → Prop := fun _ ↦ True

def rules (setting : Setting) (fails : Prop) (condition : Condition) :
    Rules Request Answer World where
  start i p w := ∃ job : Job, p = job.program setting ∧ job.mayStart i w
  serve i r w a w' := Port.serve setting fails i r w a w' ∧ condition.serve i r w a w'
  finish i w w' := w' = ended i w
  abort i w w' := (w.memory.stopped = true ∧ condition.abort i w) ∧ w' = aborted i w
  restart w w' := condition.restart w ∧ ∃ fingerprint, w' = w.restart fingerprint
  outside w w' := condition.stop w ∧ w' = stopped w

/-- A freshly set-up device. -/
def Fresh (setting : Setting) (w : World) : Prop :=
  ∃ n limit, w = .setUp setting.device n limit

/-- The states of the engine: what lasts, what happened, and the activities in flight. -/
abbrev Activities := Pool Request Answer World

/-- The runs of the engine from a fresh device. -/
def Runs (setting : Setting) (fails : Prop) (condition : Condition) (c : Activities) : Prop :=
  (rules setting fails condition).Run (Fresh setting) c

end FolderClient.Engine.System
