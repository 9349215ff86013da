import FolderClient.Cfapi.WorkerPool
import Mathlib.Data.List.Nodup

namespace FolderClient.Cfapi.PoolRuns

open FolderClient.Cfapi.WorkerPool FolderClient.Cfapi.WorkerPool.Scene

/-- What is asked of the pool: no job runs twice; once a `stop` has returned, and until jobs are
accepted again, every promised job has run to its end, none waits or runs and none is accepted; and
the counters are in bounds. -/
structure Orderly (c : Scene) : Prop where
  once : c.started.Nodup
  finished : c.stopped = true → ∀ job ∈ c.promised, job ∈ c.ended
  quiet : c.stopped = true → c.group.state.jobs = [] ∧ ∀ job, Worker.working job ∉ c.workers
  counted : 0 ≤ c.group.state.busy ∧ c.group.state.busy ≤ c.group.state.threads ∧
    c.group.state.threads ≤ c.group.max
  refused : ∀ answer ∈ c.answers, answer.1 = true → answer.2 = false

/-- A `stop` takes the handles while no other one waits for threads, and if jobs are waiting, while
there is a thread and every one booked was created and recorded; and nothing is to be accepted again
while a `stop` is under way. -/
def Careful (c : Scene) : Move → Prop
  | .take _ => (c.group.state.jobs = [] ∨
      c.group.state.threads ≠ 0 ∧ ∀ job, Caller.creating job ∉ c.callers) ∧
    ∀ threads, Caller.joining threads ∉ c.callers
  | .acceptAgain => Caller.stopping ∉ c.callers ∧ ∀ threads, Caller.joining threads ∉ c.callers
  | _ => True

section Lists

variable {α : Type} {l : List α} {p : α → Bool} {a b : α} {i j : ℕ}

theorem countP_set (h : l[i]? = some a) :
    (l.set i b).countP p + (if p a then 1 else 0) = l.countP p + (if p b then 1 else 0) := by
  induction l generalizing i with
  | nil => simp at h
  | cons d l ih =>
    cases i with
    | zero =>
      obtain rfl : d = a := by simpa using h
      simp only [List.set_cons_zero, List.countP_cons]
      omega
    | succ i =>
      have := ih (i := i) (by simpa using h)
      simp only [List.set_cons_succ, List.countP_cons]
      omega

theorem getElem?_of_set (h : (l.set i a)[j]? = some b) : j = i ∧ b = a ∨ l[j]? = some b := by
  rw [List.getElem?_set] at h
  split at h
  · split at h
    · exact .inl ⟨Eq.symm ‹_›, (Option.some.inj h).symm⟩
    · cases h
  · exact .inr h

theorem mem_of_set (h : b ∈ l.set i a) : b ∈ l ∨ b = a := List.mem_or_eq_of_mem_set h

theorem mem_set_of_ne (h : b ∈ l) (hi : l[i]? ≠ some b) : b ∈ l.set i a := by
  obtain ⟨j, hj⟩ := List.mem_iff_getElem?.mp h
  have hij : i ≠ j := fun he ↦ hi (he ▸ hj)
  exact List.mem_iff_getElem?.mpr ⟨j, by rwa [List.getElem?_set_ne hij]⟩

end Lists

section Turns

variable {c c' : Scene} {z z' : State} {turn : Turn} {w : ℕ}

/-- A thread came under the lock and saw the queue. -/
inductive Turned (c : Scene) (w : ℕ) : Scene → Prop
  | take {job : Job} {jobs : List Job} : c.group.state.jobs = job :: jobs →
      Turned c w { c with
        group := { c.group with
          state := { c.group.state with jobs := jobs, busy := c.group.state.busy + 1 } }
        workers := c.workers.set w (.working job)
        started := c.started ++ [job] }
  | leave : c.group.state.jobs = [] → Turned c w { c with
      group := { c.group with
        state := { c.group.state with threads := c.group.state.threads - 1 } }
      workers := c.workers.set w .left }
  | wait : c.group.state.jobs = [] → c.group.state.end = false →
      Turned c w { c with workers := c.workers.set w .waiting }

theorem turned_of_look (h : c.group.state.look = (turn, z)) :
    Turned c w { c with
      group := { c.group with state := z }
      workers := c.workers.set w turn.worker
      started := c.started ++ turn.started } := by
  unfold State.look at h
  split at h
  next job jobs hj =>
    obtain ⟨rfl, rfl⟩ := Prod.mk.inj h
    exact .take hj
  next hj =>
    split at h
    · obtain ⟨rfl, rfl⟩ := Prod.mk.inj h
      simpa only [Turn.started, Turn.worker, List.append_nil] using Turned.leave hj
    · obtain ⟨rfl, rfl⟩ := Prod.mk.inj h
      simpa only [Turn.started, Turn.worker, List.append_nil] using
        Turned.wait hj (Bool.eq_false_iff.mpr ‹_›)

theorem turned_of_wake {timedOut : Bool} (h : c.group.state.wake timedOut = (turn, z)) :
    Turned c w { c with
      group := { c.group with state := z }
      workers := c.workers.set w turn.worker
      started := c.started ++ turn.started } := by
  unfold State.wake at h
  split at h
  next he =>
    obtain ⟨rfl, rfl⟩ := Prod.mk.inj h
    simpa only [Turn.started, Turn.worker, List.append_nil] using Turned.leave he.2.1
  next => exact turned_of_look h

end Turns

section Counters

variable {c c' : Scene} {m : Move} {w : ℕ}

def live : Worker → Bool
  | .left => false
  | _ => true

def engaged : Worker → Bool
  | .working _ => true
  | .giving => true
  | _ => false

/-- A thread was booked that has neither been created nor given up. -/
def pending : Caller → Bool
  | .creating _ => true
  | .failing _ => true
  | _ => false

/-- The counters count the threads there are and the ones that are still to come. -/
structure Counted (c : Scene) : Prop where
  threads : c.group.state.threads = c.workers.countP live + c.callers.countP pending
  busy : c.group.state.busy = c.workers.countP engaged
  bound : c.group.state.threads ≤ c.group.max

theorem counted_new (max : ℕ) : Counted (.new max) := ⟨rfl, rfl, Int.natCast_nonneg _⟩

theorem counts_of_idle {worker : Worker} (hw : c.workers[w]? = some worker)
    (hl : live worker = true) (he : engaged worker = false) (b : Worker) :
    (c.workers.set w b).countP live + 1 = c.workers.countP live + (if live b then 1 else 0) ∧
      (c.workers.set w b).countP engaged =
        c.workers.countP engaged + (if engaged b then 1 else 0) := by
  have hlive := countP_set (p := live) (b := b) hw
  have hengaged := countP_set (p := engaged) (b := b) hw
  rw [hl, if_pos rfl] at hlive
  rw [he, if_neg Bool.false_ne_true] at hengaged
  exact ⟨hlive, hengaged⟩

theorem counted_turned (h : Counted c) {worker : Worker} (hw : c.workers[w]? = some worker)
    (hl : live worker = true) (he : engaged worker = false) (ht : Turned c w c') : Counted c' := by
  obtain ⟨hthreads, hbusy, hbound⟩ := h
  have hcounts := counts_of_idle hw hl he
  cases ht with
  | @take job jobs hj =>
    obtain ⟨hlive, hengaged⟩ := hcounts (.working job)
    simp only [live, engaged, if_true] at hlive hengaged
    constructor <;> dsimp only <;> omega
  | leave hj =>
    obtain ⟨hlive, hengaged⟩ := hcounts .left
    simp only [live, engaged, Bool.false_eq_true, if_false] at hlive hengaged
    constructor <;> dsimp only <;> omega
  | wait hj hn =>
    obtain ⟨hlive, hengaged⟩ := hcounts .waiting
    simp only [live, engaged, if_true, Bool.false_eq_true, if_false] at hlive hengaged
    constructor <;> dsimp only <;> omega

theorem give_cases {group group' : WorkGroup} {given : Given} (h : group.give = (given, group')) :
    given = .refused ∧ group' = group ∧ group.state.end = true ∨
    given = .booked ∧ group.state.end = false ∧ group.state.threads < group.max ∧
      group' = { group with
        state := { group.state with
          jobs := group.state.jobs ++ [group.accepted]
          threads := group.state.threads + 1 }
        accepted := group.accepted + 1 } ∨
    given = .woken ∧ group.state.end = false ∧
      group' = { group with
        state := { group.state with jobs := group.state.jobs ++ [group.accepted] }
        accepted := group.accepted + 1 } := by
  unfold WorkGroup.give at h
  dsimp only at h
  split at h
  next he =>
    obtain ⟨rfl, rfl⟩ := Prod.mk.inj h
    exact .inl ⟨rfl, rfl, he⟩
  next he =>
    rw [Bool.not_eq_true] at he
    split at h
    next hn =>
      obtain ⟨rfl, rfl⟩ := Prod.mk.inj h
      exact .inr (.inl ⟨rfl, he, hn.2, rfl⟩)
    next =>
      obtain ⟨rfl, rfl⟩ := Prod.mk.inj h
      exact .inr (.inr ⟨rfl, he, rfl⟩)

theorem counted_step (h : Counted c) (hs : c.Step m c') : Counted c' := by
  have hkept := h
  obtain ⟨hthreads, hbusy, hbound⟩ := h
  cases hs with
  | refused hg =>
    obtain ⟨-, rfl, -⟩ | ⟨hn, -⟩ | ⟨hn, -⟩ := give_cases hg
    · exact ⟨hthreads, hbusy, hbound⟩
    · cases hn
    · cases hn
  | woken hg =>
    obtain ⟨hn, -⟩ | ⟨hn, -⟩ | ⟨-, -, rfl⟩ := give_cases hg
    · cases hn
    · cases hn
    · exact ⟨hthreads, hbusy, hbound⟩
  | booked hg =>
    obtain ⟨hn, -⟩ | ⟨-, -, hlt, rfl⟩ | ⟨hn, -⟩ := give_cases hg
    · cases hn
    · refine ⟨?_, hbusy, by dsimp only; omega⟩
      dsimp only
      rw [List.countP_append, hthreads]
      simp only [List.countP_singleton, pending, if_true]
      omega
    · cases hn
  | create hi hfree =>
    have hpending := countP_set (p := pending) (b := .returned) hi
    simp only [pending, if_true, Bool.false_eq_true, if_false] at hpending
    refine ⟨?_, ?_, hbound⟩
    · simp only [List.countP_append, List.countP_singleton, live, if_true]
      omega
    · simp only [List.countP_append, List.countP_singleton, engaged, Bool.false_eq_true, if_false]
      omega
  | @fail i job hi hfree =>
    have hpending := countP_set (p := pending) (b := .failing job) hi
    simp only [pending, if_true] at hpending
    exact ⟨by dsimp only; omega, hbusy, hbound⟩
  | takeBack hi =>
    have hpending := countP_set (p := pending) (b := .returned) hi
    simp only [pending, if_true, Bool.false_eq_true, if_false] at hpending
    constructor <;> dsimp only [State.takeBack] <;> omega
  | stop =>
    refine ⟨?_, hbusy, hbound⟩
    simp only [State.stop, List.countP_append, List.countP_singleton, pending, Bool.false_eq_true,
      if_false, Nat.add_zero]
    exact hthreads
  | take hi hfree =>
    have hpending := countP_set (p := pending) (b := .joining c.group.threads) hi
    simp only [pending, Bool.false_eq_true, if_false] at hpending
    exact ⟨by dsimp only; omega, hbusy, hbound⟩
  | @join i thread threads hi hw =>
    have hpending := countP_set (p := pending) (b := .joining threads) hi
    simp only [pending, Bool.false_eq_true, if_false] at hpending
    exact ⟨by dsimp only; omega, hbusy, hbound⟩
  | «return» hi =>
    have hpending := countP_set (p := pending) (b := .returned) hi
    simp only [pending, Bool.false_eq_true, if_false] at hpending
    exact ⟨by dsimp only; omega, hbusy, hbound⟩
  | acceptAgain => exact ⟨hthreads, hbusy, hbound⟩
  | look hw hz => exact counted_turned hkept hw rfl rfl (turned_of_look hz)
  | wake hw hz => exact counted_turned hkept hw rfl rfl (turned_of_wake hz)
  | run hw =>
    have hlive := countP_set (p := live) (b := .giving) hw
    have hengaged := countP_set (p := engaged) (b := .giving) hw
    simp only [live, engaged, if_true] at hlive hengaged
    constructor <;> dsimp only <;> omega
  | giveBack hw =>
    have hlive := countP_set (p := live) (b := .looking) hw
    have hengaged := countP_set (p := engaged) (b := .looking) hw
    simp only [live, engaged, if_true, Bool.false_eq_true, if_false] at hlive hengaged
    constructor <;> dsimp only [State.giveBack] <;> omega

theorem engaged_le_live (workers : List Worker) :
    workers.countP engaged ≤ workers.countP live := by
  refine List.countP_mono_left fun worker _ he ↦ ?_
  cases worker with
  | left => exact he
  | _ => rfl

end Counters

section Jobs

variable {c c' : Scene} {m : Move} {w : ℕ} {job : Job}

/-- The jobs accepted were taken from the queue in their order or stand in it, and one that was
taken has ended or is with a thread. -/
structure Queued (c : Scene) : Prop where
  queue : c.started ++ c.group.state.jobs = List.range c.group.accepted
  started : ∀ job ∈ c.started, job ∈ c.ended ∨ Worker.working job ∈ c.workers
  promised : ∀ job, job ∈ c.promised ∨ Caller.creating job ∈ c.callers ∨
    Caller.failing job ∈ c.callers → job < c.group.accepted

theorem queued_new (max : ℕ) : Queued (.new max) := ⟨rfl, nofun, fun _ h ↦ by simp [Scene.new] at h⟩

theorem queued_turned (h : Queued c) {worker : Worker} (hw : c.workers[w]? = some worker)
    (he : engaged worker = false) (ht : Turned c w c') : Queued c' := by
  have hstays : ∀ b job, Worker.working job ∈ c.workers → Worker.working job ∈ c.workers.set w b := by
    intro b job hmem
    refine mem_set_of_ne hmem fun hs ↦ ?_
    obtain rfl := Option.some.inj (hw.symm.trans hs)
    cases he
  cases ht with
  | @take job jobs hj =>
    refine ⟨?_, fun job' hjob ↦ ?_, h.promised⟩
    · rw [← h.queue, hj, List.append_assoc]
      rfl
    · obtain hjob | hjob := List.mem_append.mp hjob
      · exact (h.started job' hjob).imp_right (hstays _ job')
      · obtain rfl := List.mem_singleton.mp hjob
        exact .inr (List.mem_set (List.getElem?_eq_some_iff.mp hw).1 _)
  | leave hj => exact ⟨h.queue, fun job hjob ↦ (h.started job hjob).imp_right (hstays _ job), h.promised⟩
  | wait hj hn =>
    exact ⟨h.queue, fun job hjob ↦ (h.started job hjob).imp_right (hstays _ job), h.promised⟩

theorem queue_accepted {started jobs : List Job} {n : ℕ} (h : started ++ jobs = List.range n) :
    started ++ (jobs ++ [n]) = List.range (n + 1) := by
  rw [← List.append_assoc, h, List.range_succ]

theorem owed_of_set {promised : List Job} {callers : List Caller} {i : ℕ} {a : Caller}
    (ha : pending a = false) (h : job ∈ promised ∨ Caller.creating job ∈ callers.set i a ∨
      Caller.failing job ∈ callers.set i a) :
    job ∈ promised ∨ Caller.creating job ∈ callers ∨ Caller.failing job ∈ callers := by
  refine h.imp_right (Or.imp (fun hm ↦ ?_) fun hm ↦ ?_)
  · refine (mem_of_set hm).resolve_right fun he ↦ ?_
    cases he
    cases ha
  · refine (mem_of_set hm).resolve_right fun he ↦ ?_
    cases he
    cases ha

theorem queued_step (h : Queued c) (hs : c.Step m c') : Queued c' := by
  cases hs with
  | refused hg =>
    obtain ⟨-, rfl, -⟩ | ⟨hn, -⟩ | ⟨hn, -⟩ := give_cases hg
    · exact ⟨h.queue, h.started, h.promised⟩
    · cases hn
    · cases hn
  | woken hg =>
    obtain ⟨hn, -⟩ | ⟨hn, -⟩ | ⟨-, -, rfl⟩ := give_cases hg
    · cases hn
    · cases hn
    · refine ⟨queue_accepted h.queue, h.started, fun job hjob ↦ ?_⟩
      obtain hjob | hjob := hjob
      · obtain hjob | hjob := List.mem_append.mp hjob
        · exact Nat.lt_succ_of_lt (h.promised job (.inl hjob))
        · exact List.mem_singleton.mp hjob ▸ Nat.lt_succ_self _
      · exact Nat.lt_succ_of_lt (h.promised job (.inr hjob))
  | booked hg =>
    obtain ⟨hn, -⟩ | ⟨-, -, -, rfl⟩ | ⟨hn, -⟩ := give_cases hg
    · cases hn
    · refine ⟨queue_accepted h.queue, h.started, fun job hjob ↦ ?_⟩
      simp only [List.mem_append, List.mem_singleton, Caller.creating.injEq, reduceCtorEq,
        or_false] at hjob
      obtain hjob | (hjob | rfl) | hjob := hjob
      · exact Nat.lt_succ_of_lt (h.promised job (.inl hjob))
      · exact Nat.lt_succ_of_lt (h.promised job (.inr (.inl hjob)))
      · exact Nat.lt_succ_self _
      · exact Nat.lt_succ_of_lt (h.promised job (.inr (.inr hjob)))
    · cases hn
  | create hi hfree =>
    refine ⟨h.queue, fun job hjob ↦ (h.started job hjob).imp_right (List.mem_append_left _),
      fun job hjob ↦ ?_⟩
    obtain hjob | hjob | hjob := hjob
    · obtain hjob | hjob := List.mem_append.mp hjob
      · exact h.promised job (.inl hjob)
      · exact h.promised job (.inr (.inl (List.mem_singleton.mp hjob ▸ List.mem_of_getElem? hi)))
    · exact h.promised job (.inr (.inl ((mem_of_set hjob).resolve_right nofun)))
    · exact h.promised job (.inr (.inr ((mem_of_set hjob).resolve_right nofun)))
  | fail hi hfree =>
    refine ⟨h.queue, h.started, fun job hjob ↦ ?_⟩
    obtain hjob | hjob | hjob := hjob
    · exact h.promised job (.inl hjob)
    · exact h.promised job (.inr (.inl ((mem_of_set hjob).resolve_right nofun)))
    · obtain hjob | hjob := mem_of_set hjob
      · exact h.promised job (.inr (.inr hjob))
      · obtain rfl := Caller.failing.inj hjob
        exact h.promised job (.inr (.inl (List.mem_of_getElem? hi)))
  | takeBack hi =>
    refine ⟨h.queue, h.started, fun job hjob ↦ ?_⟩
    obtain hjob | hjob | hjob := hjob
    · obtain hjob | hjob := List.mem_append.mp hjob
      · exact h.promised job (.inl hjob)
      · exact h.promised job (.inr (.inr (List.mem_singleton.mp hjob ▸ List.mem_of_getElem? hi)))
    · exact h.promised job (.inr (.inl ((mem_of_set hjob).resolve_right nofun)))
    · exact h.promised job (.inr (.inr ((mem_of_set hjob).resolve_right nofun)))
  | stop =>
    refine ⟨h.queue, h.started, fun job hjob ↦ h.promised job ?_⟩
    simpa only [List.mem_append, List.mem_singleton, reduceCtorEq, or_false] using hjob
  | take hi hfree =>
    exact ⟨h.queue, h.started, fun job hjob ↦ h.promised job (owed_of_set rfl hjob)⟩
  | join hi hw =>
    exact ⟨h.queue, h.started, fun job hjob ↦ h.promised job (owed_of_set rfl hjob)⟩
  | «return» hi =>
    exact ⟨h.queue, h.started, fun job hjob ↦ h.promised job (owed_of_set rfl hjob)⟩
  | acceptAgain => exact ⟨h.queue, h.started, h.promised⟩
  | look hw hz => exact queued_turned h hw rfl (turned_of_look hz)
  | wake hw hz => exact queued_turned h hw rfl (turned_of_wake hz)
  | @run w job panicked hw =>
    refine ⟨h.queue, fun job' hjob ↦ ?_, h.promised⟩
    by_cases he : job' = job
    · exact .inl (List.mem_append_right _ (List.mem_singleton.mpr he))
    · refine (h.started job' hjob).imp (List.mem_append_left _) fun hmem ↦ ?_
      exact mem_set_of_ne hmem fun hs ↦
        he (Worker.working.inj (Option.some.inj (hw.symm.trans hs))).symm
  | giveBack hw =>
    refine ⟨h.queue, fun job' hjob ↦ (h.started job' hjob).imp_right fun hmem ↦ ?_, h.promised⟩
    exact mem_set_of_ne hmem fun hs ↦ nomatch Option.some.inj (hw.symm.trans hs)

/-- A job is taken from the queue once. -/
theorem started_nodup (h : Queued c) : c.started.Nodup :=
  (List.nodup_append.mp (h.queue ▸ List.nodup_range)).1

/-- Where no job waits or runs, every one that was accepted has ended. -/
theorem ended_of_idle (h : Queued c) (hj : c.group.state.jobs = [])
    (hw : ∀ job, Worker.working job ∉ c.workers) : ∀ job < c.group.accepted, job ∈ c.ended := by
  intro job hjob
  have hqueue := h.queue
  rw [hj, List.append_nil] at hqueue
  exact (h.started job (hqueue ▸ List.mem_range.mpr hjob)).resolve_right (hw job)

end Jobs

section Handles

variable {c c' : Scene} {m : Move} {w : ℕ}

/-- The handle of every thread there is stands in the list, or a `stop` has taken it. -/
def Recorded (c : Scene) : Prop :=
  ∀ (w : ℕ) (worker : Worker), c.workers[w]? = some worker → live worker = true →
    w ∈ c.group.threads ∨ ∃ threads, Caller.joining threads ∈ c.callers ∧ w ∈ threads

theorem live_of_set {workers : List Worker} {a b d : Worker} {v : ℕ} (hw : workers[w]? = some a)
    (ha : live a = true) (hv : (workers.set w b)[v]? = some d) (hd : live d = true) :
    ∃ worker, workers[v]? = some worker ∧ live worker = true := by
  obtain ⟨rfl, -⟩ | hv := getElem?_of_set hv
  · exact ⟨a, hw, ha⟩
  · exact ⟨d, hv, hd⟩

theorem recorded_set (h : Recorded c) {a b : Worker} {z : State} {started ended : List Job}
    (hw : c.workers[w]? = some a) (ha : live a = true) :
    Recorded { c with
      group := { c.group with state := z }
      workers := c.workers.set w b
      started := started
      ended := ended } := by
  intro v d hv hd
  obtain ⟨worker, hworker, hlive⟩ := live_of_set hw ha hv hd
  exact h v worker hworker hlive

theorem recorded_callers (h : Recorded c) {i : ℕ} {a b : Caller} {group : WorkGroup}
    {promised : List Job} {stopped : Bool} (hi : c.callers[i]? = some a)
    (ha : ∀ threads, a ≠ .joining threads) (ht : group.threads = c.group.threads) :
    Recorded { c with
      group := group
      callers := c.callers.set i b
      promised := promised
      stopped := stopped } := by
  intro v worker hv hl
  refine (h v worker hv hl).imp (fun hm ↦ ?_) fun ⟨threads, hm, hv⟩ ↦ ⟨threads, ?_, hv⟩
  · exact ht ▸ hm
  · exact mem_set_of_ne hm fun hs ↦ ha threads (Option.some.inj (hi.symm.trans hs))

theorem mem_unfinished {worker : Worker} (hw : c.workers[w]? = some worker)
    (hl : live worker = true) (hm : w ∈ c.group.threads) : w ∈ c.unfinished := by
  refine List.mem_filter.mpr ⟨hm, decide_eq_true fun he ↦ ?_⟩
  obtain rfl := Option.some.inj (hw.symm.trans he)
  cases hl

theorem recorded_step (h : Recorded c) (hs : c.Step m c') : Recorded c' := by
  cases hs with
  | refused hg =>
    obtain ⟨-, rfl, -⟩ | ⟨hn, -⟩ | ⟨hn, -⟩ := give_cases hg
    · exact h
    · cases hn
    · cases hn
  | woken hg =>
    obtain ⟨hn, -⟩ | ⟨hn, -⟩ | ⟨-, -, rfl⟩ := give_cases hg
    · cases hn
    · cases hn
    · exact h
  | booked hg =>
    obtain ⟨hn, -⟩ | ⟨-, -, -, rfl⟩ | ⟨hn, -⟩ := give_cases hg
    · cases hn
    · intro v worker hv hl
      refine (h v worker hv hl).imp_right fun ⟨threads, hm, hv⟩ ↦ ⟨threads, ?_, hv⟩
      exact List.mem_append_left _ hm
    · cases hn
  | create hi hfree =>
    intro v worker hv hl
    dsimp only at hv ⊢
    rw [List.getElem?_append] at hv
    split at hv
    · refine (h v worker hv hl).imp (fun hm ↦ ?_) fun ⟨threads, hm, hv⟩ ↦ ⟨threads, ?_, hv⟩
      · exact List.mem_append_left _ (mem_unfinished hv hl hm)
      · exact mem_set_of_ne hm fun hs ↦ nomatch Option.some.inj (hi.symm.trans hs)
    · have hlt := (List.getElem?_eq_some_iff.mp hv).1
      rw [List.length_singleton] at hlt
      exact .inl (List.mem_append_right _ (List.mem_singleton.mpr (by omega)))
  | fail hi hfree =>
    intro v worker hv hl
    refine (h v worker hv hl).imp (fun hm ↦ ?_) fun ⟨threads, hm, hv⟩ ↦ ⟨threads, ?_, hv⟩
    · exact mem_unfinished hv hl hm
    · exact mem_set_of_ne hm fun hs ↦ nomatch Option.some.inj (hi.symm.trans hs)
  | takeBack hi => exact recorded_callers h hi nofun rfl
  | stop =>
    intro v worker hv hl
    refine (h v worker hv hl).imp_right fun ⟨threads, hm, hv⟩ ↦ ⟨threads, ?_, hv⟩
    exact List.mem_append_left _ hm
  | take hi hfree =>
    intro v worker hv hl
    obtain hm | ⟨threads, hm, hv⟩ := h v worker hv hl
    · exact .inr ⟨_, List.mem_set (List.getElem?_eq_some_iff.mp hi).1 _, hm⟩
    · refine .inr ⟨threads, ?_, hv⟩
      exact mem_set_of_ne hm fun hs ↦ nomatch Option.some.inj (hi.symm.trans hs)
  | @join i thread threads hi hw =>
    intro v worker hv hl
    refine (h v worker hv hl).imp_right fun ⟨threads', hm, hv'⟩ ↦ ?_
    by_cases he : threads' = thread :: threads
    · refine ⟨threads, List.mem_set (List.getElem?_eq_some_iff.mp hi).1 _, ?_⟩
      obtain rfl | hv' := List.mem_cons.mp (he ▸ hv')
      · obtain rfl := Option.some.inj (hw.symm.trans hv)
        cases hl
      · exact hv'
    · refine ⟨threads', mem_set_of_ne hm fun hs ↦ he ?_, hv'⟩
      exact (Caller.joining.inj (Option.some.inj (hi.symm.trans hs))).symm
  | «return» hi =>
    intro v worker hv hl
    refine (h v worker hv hl).imp_right fun ⟨threads, hm, hv⟩ ↦ ⟨threads, ?_, hv⟩
    refine mem_set_of_ne hm fun hs ↦ ?_
    obtain rfl := Caller.joining.inj (Option.some.inj (hi.symm.trans hs))
    cases hv
  | acceptAgain => exact h
  | look hw hz => exact recorded_set h hw rfl
  | wake hw hz => exact recorded_set h hw rfl
  | run hw => exact recorded_set h hw rfl
  | giveBack hw => exact recorded_set h hw rfl

end Handles

section Stops

variable {c c' : Scene} {m : Move} {w : ℕ} {threads : List ℕ}

/-- Once those threads have left, no job waits or runs. -/
structure Drained (c : Scene) (threads : List ℕ) : Prop where
  ended : c.group.state.end = true
  working : ∀ (w : ℕ) (job : Job), c.workers[w]? = some (.working job) → w ∈ threads
  waiting : c.group.state.jobs = [] ∨
    (∀ job, Caller.creating job ∉ c.callers) ∧
    (∀ (w : ℕ) (worker : Worker), c.workers[w]? = some worker → live worker = true →
      w ∈ threads) ∧
    ∃ (w : ℕ) (worker : Worker), c.workers[w]? = some worker ∧ live worker = true

theorem not_accepted (h : c.group.state.end = true) {given : Given} {group : WorkGroup}
    (hg : c.group.give = (given, group)) : given = .refused ∧ group = c.group := by
  obtain ⟨hn, rfl, -⟩ | ⟨-, hn, -⟩ | ⟨-, hn, -⟩ := give_cases hg
  · exact ⟨hn, rfl⟩
  · cases h.symm.trans hn
  · cases h.symm.trans hn

theorem drained_turned (h : Drained c threads) {worker : Worker}
    (hw : c.workers[w]? = some worker) (hl : live worker = true) (ht : Turned c w c') :
    Drained c' threads := by
  cases ht with
  | @take job jobs hj =>
    obtain hn | ⟨hcreating, hlive, v, worker', hv, hl'⟩ := h.waiting
    · cases hj.symm.trans hn
    have hlive' : ∀ (v : ℕ) (d : Worker), (c.workers.set w (.working job))[v]? = some d → live d = true →
        v ∈ threads := by
      intro v d hv hd
      obtain ⟨worker'', hworker, hlive''⟩ := live_of_set hw hl hv hd
      exact hlive v worker'' hworker hlive''
    refine ⟨h.ended, fun v job' hv ↦ hlive' v _ hv rfl, .inr ⟨hcreating, hlive', w, .working job, ?_, rfl⟩⟩
    exact List.getElem?_set_self (List.getElem?_eq_some_iff.mp hw).1
  | leave hj =>
    refine ⟨h.ended, fun v job hv ↦ ?_, .inl hj⟩
    obtain ⟨-, hn⟩ | hv := getElem?_of_set hv
    · cases hn
    · exact h.working v job hv
  | wait hj hn => cases h.ended.symm.trans hn

theorem drained_set (h : Drained c threads) {a b : Worker} {z : State} {ended : List Job}
    (hw : c.workers[w]? = some a) (ha : live a = true) (hb : live b = true)
    (hn : ∀ job, b ≠ .working job) (he : z.end = c.group.state.end)
    (hj : z.jobs = c.group.state.jobs) :
    Drained { c with
      group := { c.group with state := z }
      workers := c.workers.set w b
      ended := ended } threads := by
  refine ⟨he.trans h.ended, fun v job hv ↦ ?_, ?_⟩
  · obtain ⟨-, he⟩ | hv := getElem?_of_set hv
    · exact absurd he.symm (hn job)
    · exact h.working v job hv
  · refine h.waiting.imp hj.trans fun ⟨hcreating, hlive, _⟩ ↦ ⟨hcreating, ?_, w, b, ?_, hb⟩
    · intro v d hv hd
      obtain ⟨worker, hworker, hlive'⟩ := live_of_set hw ha hv hd
      exact hlive v worker hworker hlive'
    · exact List.getElem?_set_self (List.getElem?_eq_some_iff.mp hw).1

theorem drained_callers (h : Drained c threads) {callers : List Caller} {group : WorkGroup}
    {promised : List Job} {stopped : Bool}
    (hc : ∀ job, Caller.creating job ∈ callers → Caller.creating job ∈ c.callers)
    (he : group.state.end = true) (hj : group.state.jobs = c.group.state.jobs) :
    Drained { c with
      group := group
      callers := callers
      promised := promised
      stopped := stopped } threads := by
  refine ⟨he, h.working, h.waiting.imp hj.trans fun ⟨hcreating, hrest⟩ ↦ ⟨?_, hrest⟩⟩
  exact fun job hm ↦ hcreating job (hc job hm)

theorem drained_step (h : Drained c threads) (hm : m ≠ .acceptAgain) (hs : c.Step m c') :
    Drained c' threads := by
  cases hs with
  | refused hg =>
    obtain ⟨-, rfl⟩ := not_accepted h.ended hg
    exact ⟨h.ended, h.working, h.waiting⟩
  | woken hg => cases (not_accepted h.ended hg).1
  | booked hg => cases (not_accepted h.ended hg).1
  | create hi hfree =>
    refine ⟨h.ended, fun v job hv ↦ ?_, ?_⟩
    · dsimp only at hv
      rw [List.getElem?_append] at hv
      split at hv
      · exact h.working v job hv
      · cases List.mem_singleton.mp (List.mem_of_getElem? hv)
    · exact .inl (h.waiting.resolve_right fun hn ↦ hn.1 _ (List.mem_of_getElem? hi))
  | fail hi hfree =>
    exact drained_callers h (fun _ hc ↦ (mem_of_set hc).resolve_right nofun) h.ended rfl
  | takeBack hi =>
    exact drained_callers h (fun _ hc ↦ (mem_of_set hc).resolve_right nofun) h.ended rfl
  | stop =>
    refine drained_callers h (fun job hc ↦ ?_) rfl rfl
    exact (List.mem_append.mp hc).resolve_right fun hn ↦ nomatch List.mem_singleton.mp hn
  | take hi hfree =>
    exact drained_callers h (fun _ hc ↦ (mem_of_set hc).resolve_right nofun) h.ended rfl
  | join hi hw =>
    exact drained_callers h (fun _ hc ↦ (mem_of_set hc).resolve_right nofun) h.ended rfl
  | «return» hi =>
    exact drained_callers h (fun _ hc ↦ (mem_of_set hc).resolve_right nofun) h.ended rfl
  | acceptAgain => exact absurd rfl hm
  | look hw hz => exact drained_turned h hw rfl (turned_of_look hz)
  | wake hw hz => exact drained_turned h hw rfl (turned_of_wake hz)
  | run hw => exact drained_set h hw rfl rfl nofun rfl rfl
  | giveBack hw => exact drained_set h hw rfl rfl nofun rfl rfl

/-- A `stop` that may take the handles has every thread that still has a job. -/
theorem drained_take {i : ℕ} (hcounted : Counted c) (hrecorded : Recorded c)
    (hcareful : Careful c (.take i)) (hfree : c.free) (he : c.group.state.end = true) :
    Drained c c.group.threads := by
  obtain ⟨hjobs, hjoining⟩ := hcareful
  have hlive : ∀ (w : ℕ) (worker : Worker), c.workers[w]? = some worker → live worker = true →
      w ∈ c.group.threads := by
    intro w worker hw hl
    exact (hrecorded w worker hw hl).resolve_right fun ⟨threads, hm, _⟩ ↦ hjoining threads hm
  refine ⟨he, fun w job hw ↦ hlive w _ hw rfl, hjobs.imp_right fun ⟨hne, hcreating⟩ ↦ ?_⟩
  refine ⟨hcreating, hlive, ?_⟩
  have hpending : c.callers.countP pending = 0 := by
    refine List.countP_eq_zero.mpr fun caller hmem hp ↦ ?_
    cases caller with
    | creating job => exact hcreating job hmem
    | failing job => exact hfree job hmem
    | _ => cases hp
  have hcount : c.workers.countP live ≠ 0 := by
    have := hcounted.threads
    omega
  obtain ⟨worker, hmem, hl⟩ := List.countP_pos_iff.mp (Nat.pos_of_ne_zero hcount)
  obtain ⟨w, hw⟩ := List.mem_iff_getElem?.mp hmem
  exact ⟨w, worker, hw, hl⟩

/-- A `stop` under way ends with no job waiting or running, and so it stays. -/
structure Settled (c : Scene) : Prop where
  stopping : Caller.stopping ∈ c.callers → c.group.state.end = true
  joining : ∀ threads, Caller.joining threads ∈ c.callers → Drained c threads
  stopped : c.stopped = true → Drained c []
  refused : ∀ answer ∈ c.answers, answer.1 = true → answer.2 = false

theorem settled_new (max : ℕ) : Settled (.new max) := ⟨nofun, nofun, nofun, nofun⟩

theorem end_step (h : c.group.state.end = true) (hm : m ≠ .acceptAgain) (hs : c.Step m c') :
    c'.group.state.end = true := by
  have hturned : ∀ w c', Turned c w c' → c'.group.state.end = true := by
    intro w c' ht
    cases ht with
    | take => exact h
    | leave => exact h
    | wait => exact h
  cases hs with
  | refused hg => exact (not_accepted h hg).2 ▸ h
  | woken hg => cases (not_accepted h hg).1
  | booked hg => cases (not_accepted h hg).1
  | stop => rfl
  | acceptAgain => exact absurd rfl hm
  | @look w turn z hw hz => exact hturned w _ (turned_of_look hz)
  | @wake w timedOut turn z hw hz => exact hturned w _ (turned_of_wake hz)
  | _ => exact h

/-- The calls of `stop` under way after a move: they were before, or it has changed them. -/
theorem stops_step (hs : c.Step m c') :
    (Caller.stopping ∈ c'.callers → Caller.stopping ∈ c.callers ∨ m = .stop) ∧
      ∀ threads, Caller.joining threads ∈ c'.callers → Caller.joining threads ∈ c.callers ∨
        (∃ i, m = .take i ∧ Caller.stopping ∈ c.callers ∧ c.free ∧ threads = c.group.threads) ∨
        ∃ thread, c.workers[thread]? = some .left ∧
          Caller.joining (thread :: threads) ∈ c.callers := by
  cases hs with
  | refused hg => exact ⟨.inl, fun _ ↦ .inl⟩
  | woken hg => exact ⟨.inl, fun _ ↦ .inl⟩
  | booked hg =>
    refine ⟨fun hm ↦ .inl ?_, fun threads hm ↦ .inl ?_⟩
    · exact (List.mem_append.mp hm).resolve_right fun hn ↦ nomatch List.mem_singleton.mp hn
    · exact (List.mem_append.mp hm).resolve_right fun hn ↦ nomatch List.mem_singleton.mp hn
  | create hi hfree =>
    exact ⟨fun hm ↦ .inl ((mem_of_set hm).resolve_right nofun),
      fun threads hm ↦ .inl ((mem_of_set hm).resolve_right nofun)⟩
  | fail hi hfree =>
    exact ⟨fun hm ↦ .inl ((mem_of_set hm).resolve_right nofun),
      fun threads hm ↦ .inl ((mem_of_set hm).resolve_right nofun)⟩
  | takeBack hi =>
    exact ⟨fun hm ↦ .inl ((mem_of_set hm).resolve_right nofun),
      fun threads hm ↦ .inl ((mem_of_set hm).resolve_right nofun)⟩
  | stop =>
    refine ⟨fun _ ↦ .inr rfl, fun threads hm ↦ .inl ?_⟩
    exact (List.mem_append.mp hm).resolve_right fun hn ↦ nomatch List.mem_singleton.mp hn
  | @take i hi hfree =>
    refine ⟨fun hm ↦ .inl ((mem_of_set hm).resolve_right nofun), fun threads hm ↦ ?_⟩
    refine (mem_of_set hm).imp_right fun he ↦ .inl ⟨i, rfl, List.mem_of_getElem? hi, hfree, ?_⟩
    exact Caller.joining.inj he
  | @join i thread threads' hi hw =>
    refine ⟨fun hm ↦ .inl ((mem_of_set hm).resolve_right nofun), fun threads hm ↦ ?_⟩
    refine (mem_of_set hm).imp_right fun he ↦ .inr ⟨thread, hw, ?_⟩
    exact Caller.joining.inj he ▸ List.mem_of_getElem? hi
  | «return» hi =>
    exact ⟨fun hm ↦ .inl ((mem_of_set hm).resolve_right nofun),
      fun threads hm ↦ .inl ((mem_of_set hm).resolve_right nofun)⟩
  | acceptAgain => exact ⟨.inl, fun _ ↦ .inl⟩
  | look hw hz => exact ⟨.inl, fun _ ↦ .inl⟩
  | wake hw hz => exact ⟨.inl, fun _ ↦ .inl⟩
  | run hw => exact ⟨.inl, fun _ ↦ .inl⟩
  | giveBack hw => exact ⟨.inl, fun _ ↦ .inl⟩

theorem stopped_step (hs : c.Step m c') (h : c'.stopped = true) :
    c.stopped = true ∨ Caller.joining [] ∈ c.callers := by
  cases hs with
  | «return» hi => exact .inr (List.mem_of_getElem? hi)
  | acceptAgain => cases h
  | _ => exact .inl h

theorem answers_step (hs : c.Step m c') {answer : Bool × Bool} (h : answer ∈ c'.answers) :
    answer ∈ c.answers ∨ answer.2 = false ∨
      answer.1 = c.stopped ∧ c.group.state.end = false := by
  cases hs with
  | refused hg =>
    exact (List.mem_append.mp h).imp_right fun hm ↦ .inl (by rw [List.mem_singleton.mp hm])
  | woken hg =>
    obtain ⟨hn, -⟩ | ⟨hn, -⟩ | ⟨-, he, -⟩ := give_cases hg
    · cases hn
    · cases hn
    · refine (List.mem_append.mp h).imp_right fun hm ↦ .inr ⟨?_, he⟩
      rw [List.mem_singleton.mp hm]
  | booked hg =>
    obtain ⟨hn, -⟩ | ⟨-, he, -⟩ | ⟨hn, -⟩ := give_cases hg
    · cases hn
    · refine (List.mem_append.mp h).imp_right fun hm ↦ .inr ⟨?_, he⟩
      rw [List.mem_singleton.mp hm]
    · cases hn
  | _ => exact .inl h

theorem drained_tail {thread : ℕ} (h : Drained c (thread :: threads))
    (hw : c.workers[thread]? = some .left) : Drained c threads := by
  refine ⟨h.ended, fun v job hv ↦ ?_, h.waiting.imp_right fun ⟨hcreating, hlive, hsome⟩ ↦
    ⟨hcreating, fun v worker hv hl ↦ ?_, hsome⟩⟩
  · refine (List.mem_cons.mp (h.working v job hv)).resolve_left fun he ↦ ?_
    cases (he ▸ hv).symm.trans hw
  · refine (List.mem_cons.mp (hlive v worker hv hl)).resolve_left fun he ↦ ?_
    obtain rfl := Option.some.inj ((he ▸ hv).symm.trans hw)
    cases hl

theorem settled_step (h : Settled c) (hcounted : Counted c) (hrecorded : Recorded c)
    (hcareful : Careful c m) (hs : c.Step m c') : Settled c' := by
  have hrefused : ∀ answer ∈ c'.answers, answer.1 = true → answer.2 = false := by
    intro answer hm hstopped
    obtain hm | hn | ⟨he, hend⟩ := answers_step hs hm
    · exact h.refused answer hm hstopped
    · exact hn
    · cases (h.stopped (he.symm.trans hstopped)).ended.symm.trans hend
  obtain ⟨hstopping, hjoining⟩ := stops_step hs
  by_cases hm : m = .acceptAgain
  · subst hm
    refine ⟨fun hc ↦ ?_, fun threads hc ↦ ?_, fun hc ↦ ?_, hrefused⟩
    · exact absurd ((hstopping hc).resolve_right nofun) hcareful.1
    · obtain hc | ⟨_, hn, -⟩ | ⟨thread, -, hc⟩ := hjoining threads hc
      · exact absurd hc (hcareful.2 _)
      · cases hn
      · exact absurd hc (hcareful.2 _)
    · cases hs
      cases hc
  · refine ⟨fun hc ↦ ?_, fun threads hc ↦ drained_step ?_ hm hs, fun hc ↦ drained_step ?_ hm hs,
      hrefused⟩
    · obtain hc | rfl := hstopping hc
      · exact end_step (h.stopping hc) hm hs
      · cases hs
        rfl
    · obtain hc | ⟨i, rfl, htaking, hfree, rfl⟩ | ⟨thread, hw, hthread⟩ := hjoining threads hc
      · exact h.joining threads hc
      · exact drained_take hcounted hrecorded hcareful hfree (h.stopping htaking)
      · exact drained_tail (h.joining _ hthread) hw
    · obtain hc | hc := stopped_step hs hc
      · exact h.stopped hc
      · exact h.joining [] hc

end Stops

section Runs

variable {c : Scene} {max : ℕ}

/-- The counters and the queue are in order in every run. -/
theorem kept_of_run {heeds : Scene → Move → Prop} (h : Run heeds max c) :
    Counted c ∧ Queued c ∧ Recorded c := by
  induction h with
  | new => exact ⟨counted_new max, queued_new max, nofun⟩
  | step _ _ hs ih => exact ⟨counted_step ih.1 hs, queued_step ih.2.1 hs, recorded_step ih.2.2 hs⟩

theorem settled_of_run (h : Run Careful max c) : Settled c := by
  induction h with
  | new => exact settled_new max
  | step hrun hcareful hs ih =>
    obtain ⟨hcounted, -, hrecorded⟩ := kept_of_run hrun
    exact settled_step ih hcounted hrecorded hcareful hs

/-- Where every `stop` takes its handles carefully and none is interrupted, the pool is in order. -/
theorem orderly_of_run (h : Run Careful max c) : Orderly c := by
  obtain ⟨hcounted, hqueued, -⟩ := kept_of_run h
  have hsettled := settled_of_run h
  have hquiet : c.stopped = true →
      c.group.state.jobs = [] ∧ ∀ job, Worker.working job ∉ c.workers := by
    intro hstopped
    have hdrained := hsettled.stopped hstopped
    refine ⟨hdrained.waiting.resolve_right ?_, fun job hmem ↦ ?_⟩
    · rintro ⟨-, hlive, w, worker, hw, hl⟩
      cases hlive w worker hw hl
    · obtain ⟨w, hw⟩ := List.mem_iff_getElem?.mp hmem
      cases hdrained.working w job hw
  constructor
  case once => exact started_nodup hqueued
  case finished =>
    intro hstopped job hjob
    obtain ⟨hjobs, hworking⟩ := hquiet hstopped
    exact ended_of_idle hqueued hjobs hworking job (hqueued.promised job (.inl hjob))
  case quiet => exact hquiet
  case counted =>
    have hle := engaged_le_live c.workers
    have hthreads := hcounted.threads
    have hbusy := hcounted.busy
    have hbound := hcounted.bound
    refine ⟨?_, ?_, hbound⟩ <;> omega
  case refused => exact hsettled.refused

/-- A job is accepted, its thread created, and the `stop` that comes then waits for it. -/
theorem orderly_stopped : ∃ c, Run Careful 2 c ∧ c.stopped = true ∧ c.promised = [0] ∧
    c.ended = [0] ∧ Orderly c := by
  have hbooked : Run Careful 2
      ⟨⟨⟨[0], 1, 0, false⟩, 2, 1, []⟩, [], [.creating 0], [], [], [], false, [(false, true)]⟩ :=
    .step (m := .give) .new trivial (.booked rfl)
  have hcreated : Run Careful 2 ⟨⟨⟨[0], 1, 0, false⟩, 2, 1, [0]⟩, [.looking], [.returned], [0], [],
      [], false, [(false, true)]⟩ :=
    .step (m := .create 0) hbooked trivial (.create rfl fun job hm ↦ by simp at hm)
  have hstop : Run Careful 2 ⟨⟨⟨[0], 1, 0, true⟩, 2, 1, [0]⟩, [.looking], [.returned, .stopping],
      [0], [], [], false, [(false, true)]⟩ :=
    .step (m := .stop) hcreated trivial .stop
  have htaken : Run Careful 2 ⟨⟨⟨[0], 1, 0, true⟩, 2, 1, []⟩, [.looking],
      [.returned, .joining [0]], [0], [], [], false, [(false, true)]⟩ :=
    .step (m := .take 1) hstop ⟨.inr ⟨by decide, by simp⟩, by simp⟩ (.take rfl fun job ↦ by simp)
  have hlooked : Run Careful 2 ⟨⟨⟨[], 1, 1, true⟩, 2, 1, []⟩, [.working 0],
      [.returned, .joining [0]], [0], [0], [], false, [(false, true)]⟩ :=
    .step (m := .look 0) htaken trivial (.look rfl rfl)
  have hran : Run Careful 2 ⟨⟨⟨[], 1, 1, true⟩, 2, 1, []⟩, [.giving],
      [.returned, .joining [0]], [0], [0], [0], false, [(false, true)]⟩ :=
    .step (m := .run 0 false) hlooked trivial (.run rfl)
  have hgave : Run Careful 2 ⟨⟨⟨[], 1, 0, true⟩, 2, 1, []⟩, [.looking],
      [.returned, .joining [0]], [0], [0], [0], false, [(false, true)]⟩ :=
    .step (m := .giveBack 0) hran trivial (.giveBack rfl)
  have hleft : Run Careful 2 ⟨⟨⟨[], 0, 0, true⟩, 2, 1, []⟩, [.left],
      [.returned, .joining [0]], [0], [0], [0], false, [(false, true)]⟩ :=
    .step (m := .look 0) hgave trivial (.look rfl rfl)
  have hjoined : Run Careful 2 ⟨⟨⟨[], 0, 0, true⟩, 2, 1, []⟩, [.left],
      [.returned, .joining []], [0], [0], [0], false, [(false, true)]⟩ :=
    .step (m := .join 1) hleft trivial (.join rfl rfl)
  have hstopped : Run Careful 2 ⟨⟨⟨[], 0, 0, true⟩, 2, 1, []⟩, [.left],
      [.returned, .returned], [0], [0], [0], true, [(false, true)]⟩ :=
    .step (m := .return 1) hjoined trivial (.return rfl)
  exact ⟨_, hstopped, rfl, rfl, rfl, orderly_of_run hstopped⟩

/-- The only thread cannot be created: the job was promised, and `stop` returns without it. -/
theorem job_left_waiting :
    ¬ ∀ max c, Run (fun _ _ ↦ True) max c → Orderly c := by
  intro hall
  have hbooked : Run (fun _ _ ↦ True) 2
      ⟨⟨⟨[0], 1, 0, false⟩, 2, 1, []⟩, [], [.creating 0], [], [], [], false, [(false, true)]⟩ :=
    .step (m := .give) .new trivial (.booked rfl)
  have hfailed : Run (fun _ _ ↦ True) 2
      ⟨⟨⟨[0], 1, 0, false⟩, 2, 1, []⟩, [], [.failing 0], [], [], [], false, [(false, true)]⟩ :=
    .step (m := .fail 0) hbooked trivial (.fail rfl fun job hm ↦ by simp at hm)
  have hback : Run (fun _ _ ↦ True) 2
      ⟨⟨⟨[0], 0, 0, false⟩, 2, 1, []⟩, [], [.returned], [0], [], [], false, [(false, true)]⟩ :=
    .step (m := .takeBack 0) hfailed trivial (.takeBack rfl)
  have hstop : Run (fun _ _ ↦ True) 2 ⟨⟨⟨[0], 0, 0, true⟩, 2, 1, []⟩, [], [.returned, .stopping],
      [0], [], [], false, [(false, true)]⟩ :=
    .step (m := .stop) hback trivial .stop
  have htaken : Run (fun _ _ ↦ True) 2 ⟨⟨⟨[0], 0, 0, true⟩, 2, 1, []⟩, [],
      [.returned, .joining []], [0], [], [], false, [(false, true)]⟩ :=
    .step (m := .take 1) hstop trivial (.take rfl fun job ↦ by simp)
  have hstopped : Run (fun _ _ ↦ True) 2 ⟨⟨⟨[0], 0, 0, true⟩, 2, 1, []⟩, [],
      [.returned, .returned], [0], [], [], true, [(false, true)]⟩ :=
    .step (m := .return 1) htaken trivial (.return rfl)
  cases (hall 2 _ hstopped).finished rfl 0 (List.mem_singleton_self 0)

end Runs

end FolderClient.Cfapi.PoolRuns
