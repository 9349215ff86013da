import FolderClient.Library.Pools
import FolderClient.Library.Texts
import Mathlib.Algebra.Order.Group.Int

namespace FolderClient.Storage.Schema

open FolderClient.Library.Pools FolderClient.Library.Programs FolderClient.Library.Texts
open FolderClient.Library.Programs.Program

/-- Where the database lies. In memory there is no WAL. -/
inductive Location
  | file
  | memory
  deriving DecidableEq

inductive Pragma
  | synchronous
  | foreignKeys
  | secureDelete
  deriving DecidableEq

namespace Pragma

def all : List Pragma := [synchronous, foreignKeys, secureDelete]

theorem mem_all (p : Pragma) : p ∈ all := by
  cases p <;> simp [all]

def name : Pragma → String
  | synchronous => "synchronous"
  | foreignKeys => "foreign_keys"
  | secureDelete => "secure_delete"

/-- For `synchronous`, 2 is `FULL`. -/
def demanded : Pragma → ℤ
  | synchronous => 2
  | foreignKeys => 1
  | secureDelete => 1

end Pragma

inductive SchemaError
  | database (reason : String)
  | schemaTooNew (found known : ℤ)
  | schemaStale (found expected : ℤ)
  | noWal (mode : String)
  | pragma (name : String) (expected found : ℤ)
  deriving DecidableEq

inductive Statement
  | busyTimeout (millis : ℕ)
  | version
  | useWal
  | journalMode
  | setPragma (pragma : Pragma) (value : ℤ)
  | readPragma (pragma : Pragma)
  | queryOnly
  | beginImmediate
  | executeBatch (place : ℕ)
  | setVersion (target : ℤ)
  | commit

abbrev Statement.Value : Statement → Type
  | .version => ℤ
  | .readPragma _ => ℤ
  | .useWal => String
  | .journalMode => String
  | _ => Unit

/-- A statement, the drop of a transaction, or the store handed out. -/
inductive Request
  | statement (s : Statement)
  | dropTransaction
  | keep

abbrev Answer : Request → Type
  | .statement s => Except String s.Value
  | .dropTransaction => Unit
  | .keep => Unit

abbrev Opening := ExceptT SchemaError (Program Request Answer)

section Source

def waitTimeAtLock : ℕ := 5000

def isWal (mode : String) : Bool := asciiLower mode.toList = asciiLower "wal".toList

def execute (s : Statement) : Opening s.Value := ExceptT.mk do
  let answer ← call (.statement s)
  return Except.mapError SchemaError.database answer

/-- A transaction that is not committed is rolled back by its drop. -/
def transaction (body : Opening Unit) : Opening Unit := do
  execute .beginImmediate
  ExceptT.mk do
    let result ← body.run
    call (A := Answer) .dropTransaction
    return result

def setPragmas : Opening Unit := Pragma.all.forM fun p ↦ execute (.setPragma p p.demanded)

def checkPragma (p : Pragma) : Opening Unit := do
  let found ← execute (.readPragma p)
  if found = p.demanded then return ()
  else throw (.pragma p.name p.demanded found)

def checkPragmas : Opening Unit := Pragma.all.forM checkPragma

/-- The step from version `place` to the next. A second process may have migrated between the
first reading of the version and the lock. -/
def migrateStep (known place : ℕ) : Opening Unit := transaction do
  let now ← execute .version
  if now > known then throw (.schemaTooNew now known)
  else if (place + 1 : ℕ) ≤ now then return ()
  else
    execute (.executeBatch place)
    execute (.setVersion (place + 1 : ℕ))
    execute .commit

def migrateAt (known : ℕ) (of : ℤ) (place : ℕ) : Opening Unit :=
  if (place + 1 : ℕ) ≤ of then return ()
  else migrateStep known place

def migrate (known : ℕ) (of : ℤ) : Opening Unit := (List.range known).forM (migrateAt known of)

def switchToWal : Location → Opening Unit
  | .memory => return ()
  | .file => do
    let mode ← execute .useWal
    if isWal mode then return ()
    else throw (.noWal mode)

/-- The version first: a database from a newer version does not even get WAL. -/
def setUp (known : ℕ) (location : Location) : Opening Unit := do
  execute (.busyTimeout waitTimeAtLock)
  let found ← execute .version
  if found > known then throw (.schemaTooNew found known)
  else
    switchToWal location
    setPragmas
    migrate known found
    setPragmas
    checkPragmas

def checkReadOnly (known : ℕ) : Opening Unit := do
  execute (.busyTimeout waitTimeAtLock)
  let found ← execute .version
  if found > known then throw (.schemaTooNew found known)
  else if found < known then throw (.schemaStale found known)
  else
    let mode ← execute .journalMode
    if isWal mode then execute .queryOnly
    else throw (.noWal mode)

/-- The number of migrations of the program. -/
def schemaVersion : ℕ := 5

/-- A writing store of a program that knows so many migrations. -/
def openStore (known : ℕ) (location : Location) : Opening Unit := do
  setUp known location
  liftM (call (A := Answer) .keep)

/-- A connection from its opening on; the error of the opening is reported. -/
def connection (opening : Opening Unit) : Program Request Answer Unit := do
  let _ ← opening.run
  return ()

end Source

/-- What stands in the file. -/
structure Database (δ : Type) where
  version : ℤ
  content : δ

/-- The database, its write lock with what stands in the open transaction, and the connections:
their pragmas, and which of them are stores handed out. -/
structure World (δ : Type) where
  file : Database δ
  wal : Bool
  writing : Option (ℕ × Database δ)
  pragma : ℕ → Pragma → ℤ
  opened : ℕ → Bool

variable {δ : Type}

namespace World

/-- The open transaction of a connection. -/
def pending (w : World δ) (i : ℕ) : Option (Database δ) :=
  match w.writing with
  | some (j, d) => if j = i then some d else none
  | none => none

def read (w : World δ) (i : ℕ) : Database δ := (w.pending i).getD w.file

/-- A connection is closed: its transaction is rolled back. The next one under its number begins
with pragmas of its own. -/
def closed (w : World δ) (i : ℕ) (pragmas : Pragma → ℤ) : World δ :=
  { w with
    writing := if (w.pending i).isSome then none else w.writing
    pragma := Function.update w.pragma i pragmas
    opened := Function.update w.opened i false }

end World

/-- What a statement that succeeds does. SQLite may ignore a pragma in silence; outside of a
transaction every statement commits by itself. -/
def Succeeds (batch : ℕ → δ → Option δ) (i : ℕ) :
    (s : Statement) → World δ → s.Value → World δ → Prop
  | .busyTimeout _, w, _, w' => w' = w
  | .version, w, v, w' => v = (w.read i).version ∧ w' = w
  | .useWal, w, mode, w' => ∃ on, w' = { w with wal := on } ∧ (w.wal = true → on = true) ∧
      (isWal mode = true → on = true)
  | .journalMode, w, mode, w' => (isWal mode = true ↔ w.wal = true) ∧ w' = w
  | .setPragma p v, w, _, w' => w' = w ∨ w' = { w with
      pragma := Function.update w.pragma i (Function.update (w.pragma i) p v) }
  | .readPragma p, w, v, w' => v = w.pragma i p ∧ w' = w
  | .queryOnly, w, _, w' => w' = w
  | .beginImmediate, w, _, w' => w.writing = none ∧ w' = { w with writing := some (i, w.file) }
  | .executeBatch place, w, _, w' =>
    (∃ d c, w.pending i = some d ∧ batch place d.content = some c ∧
      w' = { w with writing := some (i, ⟨d.version, c⟩) }) ∨
    w.writing = none ∧ ∃ c, batch place w.file.content = some c ∧
      w' = { w with file := ⟨w.file.version, c⟩ }
  | .setVersion target, w, _, w' =>
    (∃ d, w.pending i = some d ∧ w' = { w with writing := some (i, ⟨target, d.content⟩) }) ∨
    w.writing = none ∧ w' = { w with file := ⟨target, w.file.content⟩ }
  | .commit, w, _, w' => ∃ d, w.pending i = some d ∧ w' = { w with file := d, writing := none }

/-- What a statement that fails may leave behind: a transaction may stand as it was, hold anything
or be rolled back at once, and a commit may have taken effect all the same. -/
inductive Fails (i : ℕ) : Statement → World δ → World δ → Prop
  | nothing (s : Statement) (w : World δ) : Fails i s w w
  | left (s : Statement) {w : World δ} {d : Database δ} (d' : Database δ) :
      w.pending i = some d → Fails i s w { w with writing := some (i, d') }
  | rolledBack (s : Statement) {w : World δ} {d : Database δ} :
      w.pending i = some d → Fails i s w { w with writing := none }
  | committed {w : World δ} {d : Database δ} :
      w.pending i = some d → Fails i .commit w { w with file := d, writing := none }
  | part (place : ℕ) {w : World δ} (c : δ) :
      w.writing = none → Fails i (.executeBatch place) w { w with file := ⟨w.file.version, c⟩ }
  | switched (w : World δ) : Fails i .useWal w { w with wal := true }

def serve (batch : ℕ → δ → Option δ) (i : ℕ) : (r : Request) → World δ → Answer r → World δ → Prop
  | .statement s, w, .ok v, w' => Succeeds batch i s w v w'
  | .statement s, w, .error _, w' => Fails i s w w'
  | .dropTransaction, w, _, w' =>
    w' = { w with writing := if (w.pending i).isSome then none else w.writing }
  | .keep, w, _, w' => w' = { w with opened := Function.update w.opened i true }

/-- Connections of programs of any versions open and close one database, and a new connection
has no transaction open. An open store of a
program uses the content as that program's statements do, a statement at a time. -/
def rules (batch : ℕ → δ → Option δ) (uses : ℕ → δ → δ → Prop) (known : ℕ → ℕ)
    (location : Location) : Rules Request Answer (World δ) where
  start i p w := w.pending i = none ∧
    (p = connection (openStore (known i) location) ∨ p = connection (checkReadOnly (known i)))
  serve := serve batch
  finish i w w' := ∃ pragmas, w' = w.closed i pragmas
  abort i w w' := ∃ pragmas, w' = w.closed i pragmas
  restart w w' := ∃ pragmas, w' = ⟨w.file, w.wal, none, pragmas, fun _ ↦ false⟩
  outside w w' := ∃ i c, w.opened i = true ∧ w.writing = none ∧ uses (known i) w.file.content c ∧
    w' = { w with file := ⟨w.file.version, c⟩ }

end FolderClient.Storage.Schema
