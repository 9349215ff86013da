import FolderClient.Engine.Ingest

namespace FolderClient.Engine.WatchRuns

open FolderClient.Core.Namespace FolderClient.Engine.Ingest

/-- How long size and modification time have to stand for a file to count as finished, in
nanoseconds. -/
def stable : ℕ := 2 * 10 ^ 9

/-- How long a file is left alone after a failed attempt. -/
def retryAfter : ℕ := 60 * 10 ^ 9

/-- What was to be seen at the last look at a file. -/
structure Sample where
  size : UInt64
  changed : Timestamp
  since : ℕ

def Sample.unchanged (sample : Sample) (size : UInt64) (changed : Timestamp) : Bool :=
  sample.size = size && sample.changed.unixMillis = changed.unixMillis

/-- What the watch keeps between two passes. -/
structure Watch where
  observes : FilePath → Option Sample
  retryAfter : FilePath → Option ℕ

/-- What has happened with a file, and when: it was looked at, tried, and what came of that. -/
inductive Event
  | seen (time : ℕ) (size : UInt64) (changed : Timestamp)
  | missed (time : ℕ)
  | tried (time : ℕ)
  | failed (time : ℕ)
  | ingested (time : ℕ)
deriving DecidableEq

def Event.time : Event → ℕ
  | seen time _ _ => time
  | missed time => time
  | tried time => time
  | failed time => time
  | ingested time => time

/-- The looks and the clock readings of a pass: each file has its look, then the time is taken for
all, and then each sample is checked. -/
structure Round where
  look : FilePath → ℕ × Option (UInt64 × Timestamp)
  now : ℕ
  check : FilePath → ℕ
  signedIn : Bool
  last : ℕ

/-- What was announced, what the watch keeps, the batch under way with the files that failed in it,
and for the record the clock and what has happened with each file. -/
structure World where
  announced : FilePath → Option BasketIdentifier
  watch : Watch
  running : Bool
  batch : FilePath → Option Arrival
  failed : FilePath → Bool
  clock : ℕ
  history : FilePath → List Event

def World.fresh : World where
  announced _ := none
  watch := ⟨fun _ ↦ none, fun _ ↦ none⟩
  running := false
  batch _ := none
  failed _ := false
  clock := 0
  history _ := []

section Passes

variable (w : World) (round : Round) (path : FilePath)

/-- A file that was announced and is there, with its basket, size and modification time. -/
def alive : Option (BasketIdentifier × UInt64 × Timestamp) :=
  (w.announced path).bind fun basket ↦ (round.look path).2.map fun sight ↦ (basket, sight)

/-- What a pass makes of one file: the new sample and retry, and whether it is finished. -/
def observe : Option Sample × Option ℕ × Option Arrival :=
  match alive w round path with
  | none => (none, none, none)
  | some (basket, size, changed) =>
    match w.watch.observes path with
    | some sample =>
      if sample.unchanged size changed then
        let waits := (w.watch.retryAfter path).any fun earliest ↦ round.now < earliest
        (some sample, w.watch.retryAfter path,
          if sample.since + stable ≤ round.check path ∧ ¬ waits then some ⟨basket, path⟩ else none)
      else (some ⟨size, changed, round.now⟩, none, none)
    | none => (some ⟨size, changed, round.now⟩, none, none)

/-- What is seen of a file that was announced. -/
def lookedAt : List Event :=
  match w.announced path, round.look path with
  | none, _ => []
  | some _, (time, none) => [.missed time]
  | some _, (time, some (size, changed)) => [.seen time size changed]

/-- The files a pass takes up. -/
def takenUp : Option Arrival := if round.signedIn then (observe w round path).2.2 else none

end Passes

/-- What changes: a file is announced, the watch looks and begins a batch, a file of the batch is
through, or the batch is over. -/
inductive Deed
  | announce (path : FilePath) (basket : BasketIdentifier)
  | look (round : Round)
  | ends (path : FilePath) (ingested : Bool) (time : ℕ)
  | settle (reading : FilePath → ℕ) (last : ℕ)

/-- The clock does not go back, and the steps of a pass come in their order. -/
def Fits (w : World) : Deed → Prop
  | .announce _ _ => True
  | .look round => w.running = false ∧ (∀ path, w.clock ≤ (round.look path).1 ∧
      (round.look path).1 ≤ round.now ∧ round.now ≤ round.check path ∧
      round.check path ≤ round.last)
  | .ends path _ time => (w.batch path).isSome = true ∧ w.clock ≤ time
  | .settle reading last => w.running = true ∧ (∀ path, w.batch path = none) ∧
      ∀ path, w.clock ≤ reading path ∧ reading path ≤ last

def next (w : World) : Deed → World
  | .announce path basket =>
    { w with announced := Function.update w.announced path (some basket) }
  | .look round =>
    { w with
      announced := fun path ↦ if (round.look path).2.isSome then w.announced path else none
      watch := ⟨fun path ↦ (observe w round path).1, fun path ↦ (observe w round path).2.1⟩
      running := true
      batch := takenUp w round
      clock := round.last
      history := fun path ↦ w.history path ++ lookedAt w round path ++
        (if (takenUp w round path).isSome then [.tried (round.check path)] else []) }
  | .ends path true time =>
    { w with
      announced := Function.update w.announced path none
      batch := Function.update w.batch path none
      clock := time
      history := Function.update w.history path (w.history path ++ [.ingested time]) }
  | .ends path false time =>
    { w with
      batch := Function.update w.batch path none
      failed := Function.update w.failed path true
      clock := time
      history := Function.update w.history path (w.history path ++ [.failed time]) }
  | .settle reading last =>
    { w with
      watch := { w.watch with
        retryAfter := fun path ↦
          if w.failed path then some (reading path + retryAfter) else w.watch.retryAfter path }
      running := false
      failed := fun _ ↦ false
      clock := last }

/-- The worlds of the runs whose steps meet a condition. -/
inductive Run (condition : World → Deed → Prop) : World → Prop
  | fresh : Run condition .fresh
  | step {w : World} (deed : Deed) :
      Run condition w → Fits w deed → condition w deed → Run condition (next w deed)

section Histories

variable {past : List Event} {e : Event} {v : UInt64 × Timestamp} {t : ℕ}

/-- After this event the file is still the one with that size and modification time. -/
def Calm (v : UInt64 × Timestamp) : Event → Prop
  | .seen _ size changed => (size, changed) = v
  | .missed _ | .ingested _ => False
  | .tried _ | .failed _ => True

/-- Size and modification time of the file that was seen last and has not gone since. -/
def current (past : List Event) : Option (UInt64 × Timestamp) :=
  past.foldl (fun sight e ↦ match e with
    | .seen _ size changed => some (size, changed)
    | .missed _ | .ingested _ => none
    | .tried _ | .failed _ => sight) none

/-- An attempt failed at that time, and the file has not been seen otherwise since. -/
def Unsettled (past : List Event) (v : UInt64 × Timestamp) (t : ℕ) : Prop :=
  ∃ front time between rest, past = front ++ .seen time v.1 v.2 :: between ++ .failed t :: rest ∧
    (∀ e ∈ between, Calm v e) ∧ ∀ e ∈ rest, Calm v e

/-- A file may be taken up: it was the same in looks that lie far enough apart, with no other look
and no absence between them, and a failed attempt with the same file lies long enough back. -/
structure Allowed (past : List Event) (time : ℕ) : Prop where
  stood : ∃ front first v mid last,
    past = front ++ .seen first v.1 v.2 :: mid ++ [.seen last v.1 v.2] ∧
      (∀ e ∈ mid, Calm v e) ∧ first + stable ≤ last
  waited : ∀ v t, Unsettled past v t → t + retryAfter ≤ time

/-- Every attempt was allowed by what had happened before. -/
def Sound (past : List Event) : Prop :=
  ∀ before time after, past = before ++ .tried time :: after → Allowed before time

theorem current_concat (past : List Event) (e : Event) :
    current (past ++ [e]) = match e with
      | .seen _ size changed => some (size, changed)
      | .missed _ | .ingested _ => none
      | .tried _ | .failed _ => current past := by
  unfold current
  rw [List.foldl_append]
  cases e <;> rfl

theorem current_of_calm {front mid : List Event} {time : ℕ} (h : ∀ e ∈ mid, Calm v e) :
    current (front ++ .seen time v.1 v.2 :: mid) = some v := by
  induction mid using List.reverseRecOn with
  | nil => exact current_concat front _
  | append_singleton mid e ih =>
    have hrest := ih fun e he ↦ h e (List.mem_append_left _ he)
    have hlast := h e (List.mem_append_right _ List.mem_cons_self)
    rw [← List.cons_append, ← List.append_assoc, current_concat]
    cases e with
    | seen _ size changed => exact congrArg some hlast
    | missed | ingested => exact absurd hlast id
    | tried | failed => exact hrest

theorem Unsettled.current (h : Unsettled past v t) : current past = some v := by
  obtain ⟨front, time, between, rest, rfl, hbetween, hrest⟩ := h
  rw [List.append_assoc, List.cons_append]
  refine current_of_calm fun e he ↦ ?_
  rcases List.mem_append.mp he with he | he
  · exact hbetween e he
  rcases List.mem_cons.mp he with rfl | he
  · trivial
  · exact hrest e he

theorem Unsettled.mem (h : Unsettled past v t) : .failed t ∈ past := by
  obtain ⟨front, time, between, rest, rfl, -⟩ := h
  apply List.mem_append_right
  exact List.mem_cons_self

theorem Unsettled.of_concat (h : Unsettled (past ++ [e]) v t) (he : ∀ t, e ≠ .failed t) :
    Unsettled past v t ∧ Calm v e := by
  obtain ⟨front, time, between, rest, heq, hbetween, hrest⟩ := h
  rcases List.eq_nil_or_concat' rest with rfl | ⟨rest, last, rfl⟩
  · have hlast := List.append_inj_right' heq rfl
    exact absurd (List.cons.inj hlast).1 (he t)
  · rw [← List.cons_append, ← List.append_assoc] at heq
    obtain ⟨hpast, hlast⟩ := List.append_inj' heq rfl
    obtain rfl := (List.cons.inj hlast).1
    refine ⟨⟨front, time, between, rest, hpast, hbetween, fun e he ↦ ?_⟩, ?_⟩
    · exact hrest e (List.mem_append_left _ he)
    · exact hrest _ (List.mem_append_right _ List.mem_cons_self)

theorem sound_concat (h : Sound past) (he : ∀ time, e = .tried time → Allowed past time) :
    Sound (past ++ [e]) := by
  intro before time after heq
  rcases List.eq_nil_or_concat' after with rfl | ⟨after, last, rfl⟩
  · obtain ⟨hpast, hlast⟩ := List.append_inj' heq rfl
    rw [← hpast]
    exact he time (List.cons.inj hlast).1
  · rw [← List.cons_append, ← List.append_assoc] at heq
    obtain ⟨hpast, -⟩ := List.append_inj' heq rfl
    exact h before time after hpast

theorem unchanged_iff {sample : Sample} {size : UInt64} {changed : Timestamp} :
    sample.unchanged size changed = true ↔ (sample.size, sample.changed) = (size, changed) := by
  have htime : sample.changed.unixMillis = changed.unixMillis ↔ sample.changed = changed := by
    constructor
    · intro h
      obtain ⟨_, ⟨_, _, _⟩, _⟩ := sample
      obtain ⟨_, _, _⟩ := changed
      cases h
      rfl
    · exact congrArg _
  rw [Sample.unchanged, Bool.and_eq_true, decide_eq_true_eq, decide_eq_true_eq, htime,
    Prod.mk.injEq]

end Histories

/-- In a pass no sample's span runs out between the look at the file and the check of the sample;
and a file that was ingested is not seen again before a pass has forgotten its sample, unless it
has another size or modification time. -/
def Careful (w : World) : Deed → Prop
  | .look round => ∀ path sample time size changed, (w.announced path).isSome = true →
      w.watch.observes path = some sample → round.look path = (time, some (size, changed)) →
        sample.unchanged size changed = true →
          (sample.since + stable ≤ round.check path → sample.since + stable ≤ time) ∧
            ∀ t, (w.history path).getLast? ≠ some (.ingested t)
  | _ => True

/-- What the watch keeps of a file fits what has happened with it. -/
structure Kept (w : World) (path : FilePath) : Prop where
  times : ∀ e ∈ w.history path, e.time ≤ w.clock
  unseen : w.watch.observes path = none → current (w.history path) = none
  away : w.announced path = none → current (w.history path) = none
  sample : ∀ sample, w.watch.observes path = some sample →
    (current (w.history path) = none ∧ ∃ t, (w.history path).getLast? = some (.ingested t)) ∨
      ∃ front t mid, w.history path = front ++ .seen t sample.size sample.changed :: mid ∧
        (∀ e ∈ mid, Calm (sample.size, sample.changed) e) ∧ t ≤ sample.since
  waits : ∀ v t, Unsettled (w.history path) v t → w.failed path = true ∨
    ∃ r, w.watch.retryAfter path = some r ∧ t + retryAfter ≤ r
  batch : (w.batch path).isSome = true → current (w.history path) ≠ none
  idle : w.running = false → w.batch path = none ∧ w.failed path = false
  sound : Sound (w.history path)

section Steps

variable {w : World} {path : FilePath}

theorem Kept.announce (h : Kept w path) (other : FilePath) (basket : BasketIdentifier) :
    Kept (next w (.announce other basket)) path where
  times := h.times
  unseen := h.unseen
  away hnone := by
    apply h.away
    by_cases heq : path = other
    · subst heq
      change Function.update w.announced path (some basket) path = none at hnone
      rw [Function.update_self] at hnone
      cases hnone
    · change Function.update w.announced other (some basket) path = none at hnone
      rwa [Function.update_of_ne heq] at hnone
  sample := h.sample
  waits := h.waits
  batch := h.batch
  idle := h.idle
  sound := h.sound

theorem Kept.settle (h : Kept w path) {reading : FilePath → ℕ} {last : ℕ}
    (hfits : Fits w (.settle reading last)) : Kept (next w (.settle reading last)) path where
  times e he := (h.times e he).trans ((hfits.2.2 path).1.trans (hfits.2.2 path).2)
  unseen := h.unseen
  away := h.away
  sample := h.sample
  waits v t hun := by
    apply Or.inr
    change ∃ r, (if w.failed path then some (reading path + retryAfter)
      else w.watch.retryAfter path) = some r ∧ _
    by_cases hfailed : w.failed path = true
    · rw [if_pos hfailed]
      refine ⟨_, rfl, Nat.add_le_add_right ?_ _⟩
      exact (h.times _ hun.mem).trans (hfits.2.2 path).1
    · rw [if_neg hfailed]
      exact (h.waits v t hun).resolve_left hfailed
  batch := h.batch
  idle _ := ⟨hfits.2.1 path, rfl⟩
  sound := h.sound

/-- A file that a step does not touch is kept, later than before. -/
theorem Kept.frame {w' : World} (h : Kept w path) (hclock : w.clock ≤ w'.clock)
    (hhistory : w'.history path = w.history path) (hwatch : w'.watch = w.watch)
    (hannounced : w'.announced path = w.announced path) (hfailed : w'.failed path = w.failed path)
    (hbatch : w'.batch path = w.batch path) (hrunning : w'.running = w.running) :
    Kept w' path where
  times e he := by
    rw [hhistory] at he
    exact (h.times e he).trans hclock
  unseen hnone := by
    rw [hwatch] at hnone
    rw [hhistory]
    exact h.unseen hnone
  away hnone := by
    rw [hannounced] at hnone
    rw [hhistory]
    exact h.away hnone
  sample sample hsample := by
    rw [hwatch] at hsample
    rw [hhistory]
    exact h.sample sample hsample
  waits v t hun := by
    rw [hhistory] at hun
    rw [hfailed, hwatch]
    exact h.waits v t hun
  batch hsome := by
    rw [hbatch] at hsome
    rw [hhistory]
    exact h.batch hsome
  idle hidle := by
    rw [hrunning] at hidle
    rw [hfailed, hbatch]
    exact h.idle hidle
  sound := by
    rw [hhistory]
    exact h.sound

/-- The sample of a file of the batch is one of the file that is there. -/
theorem Kept.sample_of_current (h : Kept w path) (hne : current (w.history path) ≠ none)
    {sample : Sample} (hs : w.watch.observes path = some sample) :
    ∃ front t mid, w.history path = front ++ .seen t sample.size sample.changed :: mid ∧
      (∀ e ∈ mid, Calm (sample.size, sample.changed) e) ∧ t ≤ sample.since :=
  (h.sample sample hs).resolve_left fun hleft ↦ hne hleft.1

theorem Kept.ends (h : Kept w path) {other : FilePath} {ingested : Bool} {time : ℕ}
    (hfits : Fits w (.ends other ingested time)) :
    Kept (next w (.ends other ingested time)) path := by
  obtain ⟨hbatch, htime⟩ := hfits
  by_cases heq : path = other
  · subst heq
    have hpresent := h.batch hbatch
    have htimes : ∀ e, e.time ≤ time → ∀ e' ∈ w.history path ++ [e], e'.time ≤ time := by
      intro e he e' he'
      rcases List.mem_append.mp he' with he' | he'
      · exact (h.times e' he').trans htime
      · rw [List.mem_singleton.mp he']
        exact he
    cases ingested with
    | true =>
      have hhistory : (next w (.ends path true time)).history path =
          w.history path ++ [.ingested time] := Function.update_self ..
      have hgone : current ((next w (.ends path true time)).history path) = none := by
        rw [hhistory, current_concat]
      refine ⟨?_, fun _ ↦ hgone, fun _ ↦ hgone, fun sample _ ↦ .inl ⟨hgone, time, ?_⟩,
        fun v t hun ↦ ?_, fun hsome ↦ ?_, fun hidle ↦ ⟨Function.update_self .., (h.idle hidle).2⟩, ?_⟩
      · rw [hhistory]
        exact htimes _ (Nat.le_refl _)
      · rw [hhistory, List.getLast?_concat]
      · rw [hun.current] at hgone
        cases hgone
      · change (Function.update w.batch path none path).isSome = true at hsome
        rw [Function.update_self] at hsome
        cases hsome
      · rw [hhistory]
        exact sound_concat h.sound nofun
    | false =>
      have hhistory : (next w (.ends path false time)).history path =
          w.history path ++ [.failed time] := Function.update_self ..
      have hcurrent : current ((next w (.ends path false time)).history path) =
          current (w.history path) := by
        rw [hhistory, current_concat]
      refine ⟨?_, fun hnone ↦ ?_, fun hnone ↦ ?_, fun sample hs ↦ .inr ?_, fun v t hun ↦ ?_,
        fun hsome ↦ ?_, fun hidle ↦ ?_, ?_⟩
      · rw [hhistory]
        exact htimes _ (Nat.le_refl _)
      · rw [hcurrent]
        exact h.unseen hnone
      · rw [hcurrent]
        exact h.away hnone
      · obtain ⟨front, t, mid, hpast, hcalm, hle⟩ := h.sample_of_current hpresent hs
        refine ⟨front, t, mid ++ [.failed time], ?_, fun e he ↦ ?_, hle⟩
        · rw [hhistory, hpast, List.append_assoc, List.cons_append]
        · rcases List.mem_append.mp he with he | he
          · exact hcalm e he
          · rw [List.mem_singleton.mp he]
            trivial
      · exact .inl (Function.update_self ..)
      · change (Function.update w.batch path none path).isSome = true at hsome
        rw [Function.update_self] at hsome
        cases hsome
      · rw [(h.idle hidle).1] at hbatch
        cases hbatch
      · rw [hhistory]
        exact sound_concat h.sound nofun
  · cases ingested with
    | true =>
      exact h.frame htime (Function.update_of_ne heq ..) rfl (Function.update_of_ne heq ..) rfl
        (Function.update_of_ne heq ..) rfl
    | false =>
      exact h.frame htime (Function.update_of_ne heq ..) rfl rfl (Function.update_of_ne heq ..)
        (Function.update_of_ne heq ..) rfl

variable {round : Round}

theorem history_look : (next w (.look round)).history path =
    w.history path ++ lookedAt w round path ++
      (if (takenUp w round path).isSome then [.tried (round.check path)] else []) := rfl

theorem Kept.times_look (h : Kept w path) (hfits : Fits w (.look round)) :
    ∀ e ∈ (next w (.look round)).history path, e.time ≤ round.last := by
  obtain ⟨-, hclock⟩ := hfits
  obtain ⟨hlook, hnow, hcheck, hlast⟩ := hclock path
  intro e he
  rw [history_look] at he
  rcases List.mem_append.mp he with he | he
  · rcases List.mem_append.mp he with he | he
    · have hle := h.times e he
      omega
    · have hle : e.time = (round.look path).1 := by
        unfold lookedAt at he
        split at he
        · exact absurd he List.not_mem_nil
        · rename_i hround
          rw [List.mem_singleton.mp he, hround]
          rfl
        · rename_i hround
          rw [List.mem_singleton.mp he, hround]
          rfl
      omega
  · split at he
    · rw [List.mem_singleton.mp he]
      exact hlast
    · exact absurd he List.not_mem_nil

/-- A file that is not there any more starts anew when it returns. -/
theorem Kept.look_gone (h : Kept w path) (hfits : Fits w (.look round))
    (hgone : alive w round path = none) : Kept (next w (.look round)) path := by
  have hobserve : observe w round path = (none, none, none) := by
    rw [observe, hgone]
  have htaken : takenUp w round path = none := by
    rw [takenUp, hobserve, ite_self]
  have hhistory : (next w (.look round)).history path =
      w.history path ++ lookedAt w round path := by
    rw [history_look, htaken]
    exact List.append_nil _
  have hcases : (w.announced path = none ∧ lookedAt w round path = []) ∨
      lookedAt w round path = [.missed (round.look path).1] := by
    unfold alive at hgone
    unfold lookedAt
    cases hannounced : w.announced path with
    | none => exact .inl ⟨rfl, rfl⟩
    | some basket =>
      rw [hannounced, Option.bind_some, Option.map_eq_none_iff] at hgone
      refine .inr ?_
      rcases hlook : round.look path with ⟨time, sight⟩
      rw [hlook] at hgone
      cases hgone
      rfl
  have hcurrent : current ((next w (.look round)).history path) = none := by
    rw [hhistory]
    rcases hcases with ⟨hannounced, hnothing⟩ | hmissed
    · rw [hnothing, List.append_nil]
      exact h.away hannounced
    · rw [hmissed, current_concat]
  refine ⟨h.times_look hfits, fun _ ↦ hcurrent, fun _ ↦ hcurrent, fun sample hs ↦ ?_,
    fun v t hun ↦ ?_, fun hsome ↦ ?_, nofun, ?_⟩
  · change (observe w round path).1 = some sample at hs
    rw [hobserve] at hs
    cases hs
  · rw [hun.current] at hcurrent
    cases hcurrent
  · change (takenUp w round path).isSome = true at hsome
    rw [htaken] at hsome
    cases hsome
  · rw [hhistory]
    rcases hcases with ⟨-, hnothing⟩ | hmissed
    · rw [hnothing, List.append_nil]
      exact h.sound
    · rw [hmissed]
      exact sound_concat h.sound nofun

theorem alive_eq_some {basket : BasketIdentifier} {size : UInt64} {changed : Timestamp}
    (h : alive w round path = some (basket, size, changed)) :
    (w.announced path).isSome = true ∧ ∃ time, round.look path = (time, some (size, changed)) ∧
      lookedAt w round path = [.seen time size changed] := by
  obtain ⟨basket', hannounced, hmap⟩ := Option.bind_eq_some_iff.mp h
  obtain ⟨sight, hsight, heq⟩ := Option.map_eq_some_iff.mp hmap
  cases heq
  rcases hlook : round.look path with ⟨time, sight'⟩
  rw [hlook] at hsight
  cases hsight
  refine ⟨by rw [hannounced]; rfl, time, rfl, ?_⟩
  rw [lookedAt, hannounced, hlook]

theorem announced_look {sight : UInt64 × Timestamp} {time : ℕ}
    (hannounced : (w.announced path).isSome = true) (hlook : round.look path = (time, some sight)) :
    (next w (.look round)).announced path ≠ none := by
  have heq : (next w (.look round)).announced path = w.announced path := by
    change (if (round.look path).2.isSome then w.announced path else none) = _
    rw [hlook]
    rfl
  rw [heq]
  exact Option.isSome_iff_ne_none.mp hannounced

/-- A file that is new or has changed is observed from now on. -/
theorem Kept.look_new (h : Kept w path) (hfits : Fits w (.look round)) {size : UInt64}
    {changed : Timestamp} {time : ℕ} (hannounced : (w.announced path).isSome = true)
    (hlook : round.look path = (time, some (size, changed)))
    (hlooked : lookedAt w round path = [.seen time size changed])
    (hobserve : observe w round path = (some ⟨size, changed, round.now⟩, none, none))
    (hnew : ∀ sample, w.watch.observes path = some sample → ¬ sample.unchanged size changed = true) :
    Kept (next w (.look round)) path := by
  have htaken : takenUp w round path = none := by
    rw [takenUp, hobserve, ite_self]
  have hhistory : (next w (.look round)).history path =
      w.history path ++ [.seen time size changed] := by
    rw [history_look, htaken, hlooked]
    exact List.append_nil _
  have hcurrent : current ((next w (.look round)).history path) = some (size, changed) := by
    rw [hhistory, current_concat]
  have hsame : ∀ v t, ¬ Unsettled ((next w (.look round)).history path) v t := by
    intro v t hun
    rw [hhistory] at hun
    obtain ⟨hpast, hcalm⟩ := hun.of_concat nofun
    have hv := hpast.current
    cases hs : w.watch.observes path with
    | none =>
      rw [h.unseen hs] at hv
      cases hv
    | some sample =>
      obtain ⟨front, t', mid, hstretch, hmid, -⟩ := h.sample_of_current (by rw [hv]; simp) hs
      have hcurrent : current (front ++ .seen t' sample.size sample.changed :: mid) =
          some (sample.size, sample.changed) := current_of_calm hmid
      rw [← hstretch, hv] at hcurrent
      apply hnew sample hs
      rw [unchanged_iff, ← Option.some.inj hcurrent]
      exact hcalm.symm
  have hnow : time ≤ round.now := by
    have hclock := (hfits.2 path).2.1
    rwa [hlook] at hclock
  refine ⟨h.times_look hfits, fun hnone ↦ ?_, fun hnone ↦ ?_, fun sample hs ↦ .inr ?_,
    fun v t hun ↦ absurd hun (hsame v t), fun hsome ↦ ?_, nofun, ?_⟩
  · change (observe w round path).1 = none at hnone
    rw [hobserve] at hnone
    cases hnone
  · exact absurd hnone (announced_look hannounced hlook)
  · change (observe w round path).1 = some sample at hs
    rw [hobserve] at hs
    cases hs
    exact ⟨w.history path, time, [], hhistory, fun e he ↦ absurd he List.not_mem_nil, hnow⟩
  · change (takenUp w round path).isSome = true at hsome
    rw [htaken] at hsome
    cases hsome
  · rw [hhistory]
    exact sound_concat h.sound nofun

/-- A file that is as it was goes on being observed, and may be taken up. -/
theorem Kept.look_same (h : Kept w path) (hfits : Fits w (.look round))
    (hcareful : Careful w (.look round)) {basket : BasketIdentifier} {sample : Sample} {time : ℕ}
    {size : UInt64} {changed : Timestamp} (hannounced : (w.announced path).isSome = true)
    (hlook : round.look path = (time, some (size, changed)))
    (hlooked : lookedAt w round path = [.seen time size changed])
    (hs : w.watch.observes path = some sample) (hsame : sample.unchanged size changed = true)
    (hobserve : observe w round path = (some sample, w.watch.retryAfter path,
      if sample.since + stable ≤ round.check path ∧
          ¬ (w.watch.retryAfter path).any (fun earliest ↦ round.now < earliest) = true
        then some ⟨basket, path⟩ else none)) :
    Kept (next w (.look round)) path := by
  obtain ⟨hspan, hpresent⟩ := hcareful path sample time size changed hannounced hs hlook hsame
  obtain ⟨hsize, hchanged⟩ := Prod.mk.inj (unchanged_iff.mp hsame)
  subst hsize hchanged
  obtain ⟨front, t, mid, hstretch, hcalm, hsince⟩ :=
    (h.sample sample hs).resolve_left fun ⟨_, t, ht⟩ ↦ hpresent t ht
  have hfailed := (h.idle hfits.1).2
  have hseen : Sound (w.history path ++ [.seen time sample.size sample.changed]) :=
    sound_concat h.sound nofun
  have hallowed : (takenUp w round path).isSome = true →
      Allowed (w.history path ++ [.seen time sample.size sample.changed]) (round.check path) := by
    intro htaken
    unfold takenUp at htaken
    split at htaken
    · rw [hobserve] at htaken
      dsimp only at htaken
      split at htaken
      · rename_i hdue
        refine ⟨⟨front, t, (sample.size, sample.changed), mid, time, ?_, hcalm, ?_⟩,
          fun v t' hun ↦ ?_⟩
        · rw [hstretch, List.append_assoc, List.cons_append]
        · exact (Nat.add_le_add_right hsince _).trans (hspan hdue.1)
        · obtain ⟨hpast, -⟩ := hun.of_concat nofun
          rcases h.waits v t' hpast with hbad | ⟨r, hr, hle⟩
          · rw [hfailed] at hbad
            cases hbad
          · have hwait : ¬ round.now < r := by
              intro hlt
              apply hdue.2
              rw [hr]
              exact decide_eq_true hlt
            have hcheck := (hfits.2 path).2.2.1
            omega
      · cases htaken
    · cases htaken
  have htail : ∀ e ∈ (if (takenUp w round path).isSome then [Event.tried (round.check path)]
      else []), e = .tried (round.check path) := by
    intro e he
    split at he
    · exact List.mem_singleton.mp he
    · exact absurd he List.not_mem_nil
  have hhistory : (next w (.look round)).history path =
      front ++ .seen t sample.size sample.changed :: (mid ++
        (.seen time sample.size sample.changed ::
          if (takenUp w round path).isSome then [.tried (round.check path)] else [])) := by
    rw [history_look, hlooked, hstretch]
    simp
  have hall : ∀ e ∈ mid ++ (.seen time sample.size sample.changed ::
      if (takenUp w round path).isSome then [Event.tried (round.check path)] else []),
      Calm (sample.size, sample.changed) e := by
    intro e he
    rcases List.mem_append.mp he with he | he
    · exact hcalm e he
    rcases List.mem_cons.mp he with rfl | he
    · rfl
    · rw [htail e he]
      trivial
  have hcurrent : current ((next w (.look round)).history path) =
      some (sample.size, sample.changed) := by
    rw [hhistory]
    exact current_of_calm hall
  refine ⟨h.times_look hfits, fun hnone ↦ ?_, fun hnone ↦ ?_, fun sample' hs' ↦ .inr ?_,
    fun v t' hun ↦ .inr ?_, fun _ ↦ ?_, nofun, ?_⟩
  · change (observe w round path).1 = none at hnone
    rw [hobserve] at hnone
    cases hnone
  · exact absurd hnone (announced_look hannounced hlook)
  · change (observe w round path).1 = some sample' at hs'
    rw [hobserve] at hs'
    cases hs'
    exact ⟨front, t, _, hhistory, hall, hsince⟩
  · change ∃ r, (observe w round path).2.1 = some r ∧ _
    rw [hobserve]
    rw [history_look, hlooked] at hun
    have hbefore : Unsettled (w.history path) v t' := by
      split at hun
      · exact ((hun.of_concat nofun).1.of_concat nofun).1
      · rw [List.append_nil] at hun
        exact (hun.of_concat nofun).1
    refine (h.waits v t' hbefore).resolve_left ?_
    rw [hfailed]
    exact Bool.false_ne_true
  · rw [hcurrent]
    exact Option.some_ne_none _
  · rw [history_look, hlooked]
    split
    · rename_i htaken
      refine sound_concat hseen fun t' heq ↦ ?_
      cases heq
      exact hallowed htaken
    · rw [List.append_nil]
      exact hseen

theorem Kept.look (h : Kept w path) (hfits : Fits w (.look round))
    (hcareful : Careful w (.look round)) : Kept (next w (.look round)) path := by
  cases halive : alive w round path with
  | none => exact h.look_gone hfits halive
  | some seen =>
    obtain ⟨basket, size, changed⟩ := seen
    obtain ⟨hannounced, time, hlook, hlooked⟩ := alive_eq_some halive
    have hobserve := halive
    cases hs : w.watch.observes path with
    | none =>
      refine h.look_new hfits hannounced hlook hlooked ?_ fun sample hsome ↦ ?_
      · rw [observe, halive, hs]
      · rw [hs] at hsome
        cases hsome
    | some sample =>
      by_cases hsame : sample.unchanged size changed = true
      · have hstep : observe w round path = (some sample, w.watch.retryAfter path,
            if sample.since + stable ≤ round.check path ∧
                ¬ (w.watch.retryAfter path).any (fun earliest ↦ round.now < earliest) = true
              then some ⟨basket, path⟩ else none) := by
          rw [observe, halive, hs]
          exact if_pos hsame
        exact h.look_same hfits hcareful hannounced hlook hlooked hs hsame hstep
      · refine h.look_new hfits hannounced hlook hlooked ?_ fun sample' hsome ↦ ?_
        · rw [observe, halive, hs]
          exact if_neg hsame
        · rw [hs] at hsome
          cases hsome
          exact hsame

end Steps

theorem kept_of_run {w : World} (h : Run Careful w) (path : FilePath) : Kept w path := by
  induction h with
  | fresh =>
    have hhistory : World.fresh.history path = [] := rfl
    refine ⟨fun e he ↦ ?_, fun _ ↦ rfl, fun _ ↦ rfl, fun sample hs ↦ ?_, fun v t hun ↦ ?_,
      fun hsome ↦ ?_, fun _ ↦ ⟨rfl, rfl⟩, fun before time after heq ↦ ?_⟩
    · rw [hhistory] at he
      exact absurd he List.not_mem_nil
    · cases hs
    · rw [hhistory] at hun
      exact absurd hun.mem List.not_mem_nil
    · cases hsome
    · rw [hhistory] at heq
      simp at heq
  | step deed _ hfits hcareful ih =>
    cases deed with
    | announce other basket => exact ih.announce other basket
    | look round => exact ih.look hfits hcareful
    | ends other ingested time => exact ih.ends hfits
    | settle reading last => exact ih.settle hfits

/-- A file is taken up only when it stood still long enough, anew after each absence, and only when
a failed attempt lies long enough back. -/
theorem stable_before_tried (w : World) (h : Run Careful w) (path : FilePath) :
    Sound (w.history path) :=
  (kept_of_run h path).sound

section Samples

def receipt : FilePath := ⟨"basket", some "a.pdf"⟩

/-- A pass that sees one file everywhere; the time passes between the looks and the check. -/
def passing (seen checked : ℕ) : Round where
  look _ := (seen, some (1, .null))
  now := checked
  check _ := checked
  signedIn := true
  last := checked

/-- The receipt is announced and seen in a pass. -/
def sampled : World :=
  next (next (next .fresh (.announce receipt ⟨5⟩)) (.look (passing 0 0))) (.settle (fun _ ↦ 0) 0)

/-- A second pass begins later. -/
def looked (seen checked : ℕ) : World := next sampled (.look (passing seen checked))

theorem fits_passing {w : World} {seen checked : ℕ} (hidle : w.running = false)
    (hseen : w.clock ≤ seen) (hchecked : seen ≤ checked) : Fits w (.look (passing seen checked)) :=
  ⟨hidle, fun _ ↦ ⟨hseen, hchecked, Nat.le_refl _, Nat.le_refl _⟩⟩

/-- The first pass only takes samples. -/
theorem takenUp_first (path : FilePath) :
    takenUp (next .fresh (.announce receipt ⟨5⟩)) (passing 0 0) path = none := by
  unfold takenUp observe
  cases alive (next .fresh (.announce receipt ⟨5⟩)) (passing 0 0) path <;> rfl

theorem run_sampled {condition : World → Deed → Prop}
    (hlook : condition (next .fresh (.announce receipt ⟨5⟩)) (.look (passing 0 0)))
    (hannounce : ∀ w path basket, condition w (.announce path basket))
    (hsettle : ∀ w reading last, condition w (.settle reading last)) : Run condition sampled := by
  have hannounced : Run condition (next .fresh (.announce receipt ⟨5⟩)) :=
    .step _ .fresh trivial (hannounce _ _ _)
  have hfirst := hannounced.step (.look (passing 0 0))
    (fits_passing rfl (Nat.le_refl 0) (Nat.le_refl 0)) hlook
  exact hfirst.step _ ⟨rfl, takenUp_first, fun path ↦ ⟨Nat.le_refl _, Nat.le_refl _⟩⟩
    (hsettle _ _ _)

/-- A sample of the receipt that is old enough is taken up. -/
theorem takenUp_due {w : World} {seen checked : ℕ} {basket : BasketIdentifier} (t : ℕ)
    (hannounced : w.announced receipt = some basket)
    (hs : w.watch.observes receipt = some ⟨1, .null, t⟩)
    (hretry : w.watch.retryAfter receipt = none) (h : t + stable ≤ checked) :
    takenUp w (passing seen checked) receipt = some ⟨basket, receipt⟩ := by
  have halive : alive w (passing seen checked) receipt = some (basket, 1, .null) := by
    rw [alive, hannounced]
    rfl
  have hsame : (Sample.mk 1 .null t).unchanged 1 .null = true := rfl
  have hsigned : (passing seen checked).signedIn = true := rfl
  have hdue : t + stable ≤ (passing seen checked).check receipt ∧ ¬ false = true :=
    ⟨h, Bool.false_ne_true⟩
  rw [takenUp, if_pos hsigned, observe, halive]
  dsimp only
  rw [hs, hretry]
  dsimp only
  rw [if_pos hsame, Option.any_none]
  dsimp only
  rw [if_pos hdue]

theorem takenUp_second {seen checked : ℕ} (h : stable ≤ checked) :
    takenUp sampled (passing seen checked) receipt = some ⟨⟨5⟩, receipt⟩ :=
  takenUp_due 0 rfl rfl rfl ((Nat.zero_add stable).trans_le h)

theorem history_looked {seen checked : ℕ} (h : stable ≤ checked) :
    (looked seen checked).history receipt =
      [.seen 0 1 .null, .seen seen 1 .null] ++ [.tried checked] := by
  have hsampled : sampled.history receipt = [.seen 0 1 .null] := rfl
  have hseen : lookedAt sampled (passing seen checked) receipt = [.seen seen 1 .null] := rfl
  rw [looked, history_look, takenUp_second h, hsampled, hseen]
  rfl

/-- A file seen at the beginning and after the span is taken up. -/
theorem stable_before_tried_twice :
    Allowed [.seen 0 1 .null, .seen stable 1 .null] stable := by
  have hsampled : Run Careful sampled :=
    run_sampled (fun _ _ _ _ _ _ hs ↦ (by cases hs)) (fun _ _ _ ↦ trivial) fun _ _ _ ↦ trivial
  have hrun : Run Careful (looked stable stable) := by
    refine hsampled.step _ (fits_passing rfl (Nat.zero_le _) (Nat.le_refl _)) ?_
    intro path sample time size changed hannounced hs hlook hsame
    obtain ⟨rfl, -⟩ := Prod.mk.inj hlook
    refine ⟨id, fun t ht ↦ ?_⟩
    have hreceipt : path = receipt := by
      by_contra hne
      have hnone : sampled.announced path = none := Function.update_of_ne hne ..
      rw [hnone] at hannounced
      cases hannounced
    subst hreceipt
    have hhistory : sampled.history receipt = [.seen 0 1 .null] := rfl
    rw [hhistory] at ht
    cases ht
  exact stable_before_tried (looked stable stable) hrun receipt _ stable []
    (history_looked (Nat.le_refl _))

/-- The last look of an attempt that was allowed is that of a file seen before. -/
theorem Allowed.last {past : List Event} {time last : ℕ} {size : UInt64} {changed : Timestamp}
    (h : Allowed (past ++ [.seen last size changed]) time) :
    current past ≠ none ∧ stable ≤ last := by
  obtain ⟨front, first, v, mid, last', heq, hcalm, hspan⟩ := h.stood
  obtain ⟨hpast, hlast⟩ := List.append_inj' heq rfl
  injection (List.cons.inj hlast).1 with htime
  refine ⟨?_, (Nat.le_add_left _ _).trans (htime ▸ hspan)⟩
  rw [hpast, current_of_calm hcalm]
  exact Option.some_ne_none _

/-- A file is taken up after two looks that lie one nanosecond apart, because the time passed
between the second one and the check. -/
theorem taken_early : ¬ ∀ w, Run (fun _ _ ↦ True) w → ∀ path, Sound (w.history path) := by
  intro h
  have hsampled : Run (fun _ _ ↦ True) sampled :=
    run_sampled trivial (fun _ _ _ ↦ trivial) fun _ _ _ ↦ trivial
  have hrun := hsampled.step (.look (passing 1 stable))
    (fits_passing rfl (Nat.zero_le _) (by decide)) trivial
  have hallowed : Allowed ([.seen 0 1 .null] ++ [.seen 1 1 .null]) stable :=
    h _ hrun receipt _ stable [] (history_looked (Nat.le_refl _))
  exact absurd hallowed.last.2 (by decide)

/-- No sample's span runs out between the look at its file and the check. -/
def Prompt (w : World) : Deed → Prop
  | .look round => ∀ path sample, w.watch.observes path = some sample →
      sample.since + stable ≤ round.check path → sample.since + stable ≤ (round.look path).1
  | _ => True

theorem takenUp_unannounced {w : World} {round : Round} {path : FilePath}
    (h : w.announced path = none) : takenUp w round path = none := by
  have halive : alive w round path = none := by
    rw [alive, h]
    rfl
  rw [takenUp, observe, halive, ite_self]

theorem prompt_passing (w : World) (time : ℕ) : Prompt w (.look (passing time time)) :=
  fun _ _ _ hspan ↦ hspan

/-- The receipt is ingested, and announced again before the next pass. -/
def returned : World :=
  next (next (next (looked stable stable) (.ends receipt true stable))
    (.settle (fun _ ↦ stable) stable)) (.announce receipt ⟨5⟩)

theorem batch_look (w : World) (round : Round) (path : FilePath) :
    (next w (.look round)).batch path = takenUp w round path := rfl

theorem batch_ingested (w : World) (path : FilePath) (time : ℕ) :
    (next w (.ends path true time)).batch = Function.update w.batch path none := rfl

theorem history_ingested (w : World) (path : FilePath) (time : ℕ) :
    (next w (.ends path true time)).history path = w.history path ++ [.ingested time] :=
  Function.update_self ..

theorem run_returned : Run Prompt returned := by
  have hsampled : Run Prompt sampled :=
    run_sampled (prompt_passing _ 0) (fun _ _ _ ↦ trivial) fun _ _ _ ↦ trivial
  have hlooked : Run Prompt (looked stable stable) :=
    hsampled.step _ (fits_passing rfl (Nat.zero_le _) (Nat.le_refl _)) (prompt_passing _ stable)
  have hbatch : (looked stable stable).batch receipt = some ⟨⟨5⟩, receipt⟩ := by
    rw [looked, batch_look, takenUp_second (Nat.le_refl stable)]
  have hclock : (looked stable stable).clock = stable := rfl
  have hingested := hlooked.step (.ends receipt true stable)
    ⟨by rw [hbatch]; rfl, hclock.le⟩ trivial
  have hnone : ∀ path, (next (looked stable stable) (.ends receipt true stable)).batch path =
      none := by
    intro path
    by_cases hpath : path = receipt
    · rw [batch_ingested, hpath, Function.update_self]
    · rw [batch_ingested, Function.update_of_ne hpath, looked, batch_look]
      apply takenUp_unannounced
      exact Function.update_of_ne hpath ..
  have hagain := hingested.step (.settle (fun _ ↦ stable) stable)
    ⟨rfl, hnone, fun path ↦ ⟨Nat.le_refl _, Nat.le_refl _⟩⟩ trivial
  exact hagain.step (.announce receipt ⟨5⟩) trivial trivial

/-- A file that is dropped anew right after it was ingested is taken up at the first look at it. -/
theorem taken_anew : ¬ ∀ w, Run Prompt w → ∀ path, Sound (w.history path) := by
  intro h
  have hrun := run_returned.step (.look (passing stable stable))
    (fits_passing rfl (Nat.le_refl _) (Nat.le_refl _)) (prompt_passing _ stable)
  have hbefore : returned.history receipt =
      [.seen 0 1 .null, .seen stable 1 .null, .tried stable, .ingested stable] := by
    have hlast : returned.history receipt =
        (next (looked stable stable) (.ends receipt true stable)).history receipt := rfl
    rw [hlast, history_ingested, history_looked (Nat.le_refl _)]
    rfl
  have hseen : lookedAt returned (passing stable stable) receipt = [.seen stable 1 .null] := rfl
  have hallowed := h _ hrun receipt (returned.history receipt ++ [.seen stable 1 .null]) stable []
    (by rw [history_look, hseen, takenUp_due 0 rfl rfl rfl (Nat.zero_add stable).le]; rfl)
  rw [hbefore] at hallowed
  exact hallowed.last.1 rfl

end Samples

end FolderClient.Engine.WatchRuns
