import Mathlib.Algebra.Group.Int.Defs
import Mathlib.Algebra.GroupWithZero.Nat
import Mathlib.Data.Int.Notation
import Mathlib.Data.List.Basic
import Mathlib.Data.Nat.Notation

namespace FolderClient.Cfapi.WorkerPool

/-- A job, by the number under which it was accepted. -/
abbrev Job := ℕ

/-- What the lock guards. The counters are integers, so that one below zero would show. -/
structure State where
  jobs : List Job
  threads : ℤ
  busy : ℤ
  «end» : Bool
deriving DecidableEq

/-- The pool: its state, the upper bound, how many jobs have been accepted, and the handles of the
threads created, by the numbers of the threads. -/
structure WorkGroup where
  state : State
  max : ℕ
  accepted : ℕ
  threads : List ℕ
deriving DecidableEq

namespace WorkGroup

def new (max : ℕ) : WorkGroup := ⟨⟨[], 0, 0, false⟩, Nat.max max 1, 0, []⟩

end WorkGroup

inductive Given
  | refused
  | woken
  | booked
deriving DecidableEq

namespace WorkGroup

/-- What `give` does under the lock; a thread that was booked is created after it. -/
def give (group : WorkGroup) : Given × WorkGroup :=
  let z := group.state
  if z.end then (.refused, group)
  else
    let jobs := z.jobs ++ [group.accepted]
    let free := z.threads - z.busy
    if free < jobs.length ∧ z.threads < group.max then
      (.booked, { group with
        state := { z with jobs := jobs, threads := z.threads + 1 }
        accepted := group.accepted + 1 })
    else
      (.woken, { group with state := { z with jobs := jobs }, accepted := group.accepted + 1 })

end WorkGroup

/-- What a thread comes to under the lock. -/
inductive Turn
  | take (job : Job)
  | leave
  | wait
deriving DecidableEq

namespace State

/-- The booking of a thread that was not created is taken back. -/
def takeBack (z : State) : State := { z with threads := z.threads - 1 }

def stop (z : State) : State := { z with «end» := true }

def acceptAgain (z : State) : State := { z with «end» := false }

/-- The drop of the sentry. -/
def giveBack (z : State) : State := { z with busy := z.busy - 1 }

/-- One round of the inner loop up to the wait. -/
def look (z : State) : Turn × State :=
  match z.jobs with
  | job :: jobs => (.take job, { z with jobs := jobs, busy := z.busy + 1 })
  | [] => if z.end then (.leave, { z with threads := z.threads - 1 }) else (.wait, z)

/-- The inner loop after the wait. -/
def wake (z : State) (timedOut : Bool) : Turn × State :=
  if timedOut ∧ z.jobs = [] ∧ z.end = false then (.leave, { z with threads := z.threads - 1 })
  else z.look

end State

/-- Where a thread of the pool stands. -/
inductive Worker
  | looking
  | waiting
  | working (job : Job)
  | giving
  | left
deriving DecidableEq

/-- Where a call of `give` or `stop` stands that has left the lock. -/
inductive Caller
  | creating (job : Job)
  | failing (job : Job)
  | stopping
  | joining (threads : List ℕ)
  | returned
deriving DecidableEq

/-- The pool with its threads and its callers. Beside them stands what has happened: which jobs were
promised by a `give` that returned `true`, which were taken from the queue and which ran to their
end, whether a `stop` has returned and nothing was to be accepted again since, and what every
`give` answered and whether that was so then. -/
structure Scene where
  group : WorkGroup
  workers : List Worker
  callers : List Caller
  promised : List Job
  started : List Job
  ended : List Job
  stopped : Bool
  answers : List (Bool × Bool)
deriving DecidableEq

def Scene.new (max : ℕ) : Scene := ⟨.new max, [], [], [], [], [], false, []⟩

/-- A thread fails to be created while the handles are locked, and they stay so until the booking is
taken back. -/
def Scene.free (c : Scene) : Prop := ∀ job, Caller.failing job ∉ c.callers

def Turn.worker : Turn → Worker
  | .take job => .working job
  | .leave => .left
  | .wait => .waiting

def Turn.started : Turn → List Job
  | .take job => [job]
  | .leave => []
  | .wait => []

inductive Move
  | give
  | create (caller : ℕ)
  | fail (caller : ℕ)
  | takeBack (caller : ℕ)
  | stop
  | take (caller : ℕ)
  | join (caller : ℕ)
  | return (caller : ℕ)
  | acceptAgain
  | look (worker : ℕ)
  | wake (worker : ℕ) (timedOut : Bool)
  | run (worker : ℕ) (panicked : Bool)
  | giveBack (worker : ℕ)

namespace Scene

/-- The threads whose handles are kept when a thread is created. -/
def unfinished (c : Scene) : List ℕ := c.group.threads.filter (c.workers[·]? ≠ some .left)

/-- A critical section, or what lies between two of them. -/
inductive Step (c : Scene) : Move → Scene → Prop
  | refused {group : WorkGroup} : c.group.give = (.refused, group) →
      Step c .give { c with group := group, answers := c.answers ++ [(c.stopped, false)] }
  | woken {group : WorkGroup} : c.group.give = (.woken, group) →
      Step c .give { c with
        group := group
        promised := c.promised ++ [c.group.accepted]
        answers := c.answers ++ [(c.stopped, true)] }
  | booked {group : WorkGroup} : c.group.give = (.booked, group) →
      Step c .give { c with
        group := group
        callers := c.callers ++ [.creating c.group.accepted]
        answers := c.answers ++ [(c.stopped, true)] }
  | create {i : ℕ} {job : Job} : c.callers[i]? = some (.creating job) → c.free →
      Step c (.create i) { c with
        group := { c.group with threads := c.unfinished ++ [c.workers.length] }
        workers := c.workers ++ [.looking]
        callers := c.callers.set i .returned
        promised := c.promised ++ [job] }
  | fail {i : ℕ} {job : Job} : c.callers[i]? = some (.creating job) → c.free →
      Step c (.fail i) { c with
        group := { c.group with threads := c.unfinished }
        callers := c.callers.set i (.failing job) }
  | takeBack {i : ℕ} {job : Job} : c.callers[i]? = some (.failing job) →
      Step c (.takeBack i) { c with
        group := { c.group with state := c.group.state.takeBack }
        callers := c.callers.set i .returned
        promised := c.promised ++ [job] }
  | stop : Step c .stop { c with
      group := { c.group with state := c.group.state.stop }
      callers := c.callers ++ [.stopping] }
  | take {i : ℕ} : c.callers[i]? = some .stopping → c.free →
      Step c (.take i) { c with
        group := { c.group with threads := [] }
        callers := c.callers.set i (.joining c.group.threads) }
  | join {i thread : ℕ} {threads : List ℕ} :
      c.callers[i]? = some (.joining (thread :: threads)) → c.workers[thread]? = some .left →
      Step c (.join i) { c with callers := c.callers.set i (.joining threads) }
  | return {i : ℕ} : c.callers[i]? = some (.joining []) →
      Step c (.return i) { c with callers := c.callers.set i .returned, stopped := true }
  | acceptAgain : Step c .acceptAgain { c with
      group := { c.group with state := c.group.state.acceptAgain }
      stopped := false }
  | look {w : ℕ} {turn : Turn} {z : State} :
      c.workers[w]? = some .looking → c.group.state.look = (turn, z) →
      Step c (.look w) { c with
        group := { c.group with state := z }
        workers := c.workers.set w turn.worker
        started := c.started ++ turn.started }
  | wake {w : ℕ} {timedOut : Bool} {turn : Turn} {z : State} :
      c.workers[w]? = some .waiting → c.group.state.wake timedOut = (turn, z) →
      Step c (.wake w timedOut) { c with
        group := { c.group with state := z }
        workers := c.workers.set w turn.worker
        started := c.started ++ turn.started }
  | run {w : ℕ} {job : Job} {panicked : Bool} : c.workers[w]? = some (.working job) →
      Step c (.run w panicked) { c with
        workers := c.workers.set w .giving
        ended := c.ended ++ [job] }
  | giveBack {w : ℕ} : c.workers[w]? = some .giving →
      Step c (.giveBack w) { c with
        group := { c.group with state := c.group.state.giveBack }
        workers := c.workers.set w .looking }

/-- The scenes reached from a new pool by moves that heed a condition. -/
inductive Run (heeds : Scene → Move → Prop) (max : ℕ) : Scene → Prop
  | new : Run heeds max (.new max)
  | step {c c' : Scene} {m : Move} : Run heeds max c → heeds c m → c.Step m c' → Run heeds max c'

end Scene

end FolderClient.Cfapi.WorkerPool
