import FolderClient.Library.Programs
import Mathlib.Data.Nat.Notation
import Mathlib.Logic.Function.Basic

namespace FolderClient.Library.Pools

open FolderClient.Library.Programs

variable {R σ : Type} {A : R → Type}

/-- Programs side by side over one state. -/
structure Pool (R : Type) (A : R → Type) (σ : Type) where
  state : σ
  running : ℕ → Option (Program R A Unit)

/-- Which programs start, how requests are served, and what happens besides. -/
structure Rules (R : Type) (A : R → Type) (σ : Type) where
  start : ℕ → Program R A Unit → σ → Prop
  serve : ℕ → (r : R) → σ → A r → σ → Prop
  finish : ℕ → σ → σ → Prop
  abort : ℕ → σ → σ → Prop
  restart : σ → σ → Prop
  outside : σ → σ → Prop

namespace Rules

inductive Step (rules : Rules R A σ) : Pool R A σ → Pool R A σ → Prop
  | start {c : Pool R A σ} {i : ℕ} {p : Program R A Unit} :
      c.running i = none → rules.start i p c.state →
      Step rules c ⟨c.state, Function.update c.running i (some p)⟩
  | ask {c : Pool R A σ} {i : ℕ} {r : R} {next : A r → Program R A Unit} {a : A r} {s : σ} :
      c.running i = some (.ask r next) → rules.serve i r c.state a s →
      Step rules c ⟨s, Function.update c.running i (some (next a))⟩
  | finish {c : Pool R A σ} {i : ℕ} {s : σ} :
      c.running i = some (.done ()) → rules.finish i c.state s →
      Step rules c ⟨s, Function.update c.running i none⟩
  | abort {c : Pool R A σ} {i : ℕ} {p : Program R A Unit} {s : σ} :
      c.running i = some p → rules.abort i c.state s →
      Step rules c ⟨s, Function.update c.running i none⟩
  | restart {c : Pool R A σ} {s : σ} : rules.restart c.state s → Step rules c ⟨s, fun _ ↦ none⟩
  | outside {c : Pool R A σ} {s : σ} : rules.outside c.state s → Step rules c ⟨s, c.running⟩

/-- The pools reached from a first state in which nothing runs. -/
inductive Run (rules : Rules R A σ) (first : σ → Prop) : Pool R A σ → Prop
  | first {s : σ} : first s → Run rules first ⟨s, fun _ ↦ none⟩
  | step {c c' : Pool R A σ} : Run rules first c → rules.Step c c' → Run rules first c'

/-- A program of a pool that is served alone comes to its end. -/
theorem run_of_handle {rules : Rules R A σ} {first : σ → Prop} {i : ℕ}
    {answer : (r : R) → σ → A r × σ}
    (hserve : ∀ r s, rules.serve i r s (answer r s).1 (answer r s).2) {c : Pool R A σ}
    {p : Program R A Unit} (h : Run rules first c) (hp : c.running i = some p) :
    Run rules first ⟨(p.handle answer c.state).2,
      Function.update c.running i (some (.done ()))⟩ := by
  induction p generalizing c with
  | done a =>
    have hsame : Function.update c.running i (some (.done ())) = c.running := by
      rw [← hp, Function.update_eq_self]
    rw [hsame]
    exact h
  | ask r next ih =>
    have hnext := ih (answer r c.state).1 (h.step (.ask hp (hserve r c.state))) (by simp)
    rw [Function.update_idem] at hnext
    exact hnext

section Beside

variable {γ : Type}

/-- The same rules with a record beside the state, which is written with every request served and
may drift of itself; a request is served only where it heeds a condition. -/
def beside (rules : Rules R A σ) (note : ℕ → (r : R) → A r → σ → γ → γ) (drifts : γ → γ → Prop)
    (heeds : ℕ → R → σ × γ → Prop) : Rules R A (σ × γ) where
  start i p s := rules.start i p s.1
  serve i r s a s' := (rules.serve i r s.1 a s'.1 ∧ s'.2 = note i r a s.1 s.2) ∧ heeds i r s
  finish i s s' := rules.finish i s.1 s'.1 ∧ s'.2 = s.2
  abort i s s' := rules.abort i s.1 s'.1 ∧ s'.2 = s.2
  restart s s' := rules.restart s.1 s'.1 ∧ s'.2 = s.2
  outside s s' := rules.outside s.1 s'.1 ∧ s'.2 = s.2 ∨ s'.1 = s.1 ∧ drifts s.2 s'.2

variable {rules : Rules R A σ} {note : ℕ → (r : R) → A r → σ → γ → γ} {drifts : γ → γ → Prop}
  {heeds : ℕ → R → σ × γ → Prop} {first : σ × γ → Prop} {enter : σ → Prop}

/-- Without the record, a run beside it is a run. -/
theorem run_of_beside (hf : ∀ s, first s → enter s.1) {c : Pool R A (σ × γ)}
    (h : (rules.beside note drifts heeds).Run first c) :
    rules.Run enter ⟨c.state.1, c.running⟩ := by
  induction h with
  | first hfirst => exact .first (hf _ hfirst)
  | step _ hstep ih =>
    cases hstep with
    | start hn hs => exact .step ih (.start hn hs)
    | ask hr hs => exact .step ih (.ask hr hs.1.1)
    | finish hr hs => exact .step ih (.finish hr hs.1)
    | abort hr hs => exact .step ih (.abort hr hs.1)
    | restart hs => exact .step ih (.restart hs.1)
    | @outside s ho =>
      obtain ⟨ho, -⟩ | ⟨hs, -⟩ := ho
      · exact .step ih (.outside ho)
      · rw [hs]
        exact ih

end Beside

end Rules

/-- What holds of the state throughout, which requests are in order, what each program may rely
on between its requests, and in which states it ends. -/
structure Discipline (R : Type) (A : R → Type) (σ : Type) where
  invariant : σ → Prop
  ok : ℕ → R → σ → Prop
  rely : ℕ → σ → σ → Prop
  ends : ℕ → σ → Prop

namespace Discipline

def contract (D : Discipline R A σ) (rules : Rules R A σ) (i : ℕ) : Contract R A σ where
  serve := rules.serve i
  rely := fun s s' ↦ D.rely i s s' ∧ D.invariant s'
  ok := D.ok i

/-- The contract with what is known at each request besides: the invariant. -/
def knowing (D : Discipline R A σ) (rules : Rules R A σ) (i : ℕ) : Contract R A σ :=
  { D.contract rules i with serve := fun r s a s' ↦ rules.serve i r s a s' ∧ D.invariant s }

theorem sound_of_knowing {D : Discipline R A σ} {rules : Rules R A σ} {i : ℕ} {α : Type}
    {p : Program R A α} {Q : α → σ → Prop} {s : σ} (hi : D.invariant s)
    (h : (D.knowing rules i).Sound p Q s) : (D.contract rules i).Sound p Q s := by
  induction p generalizing s with
  | done a => exact h
  | ask r next ih =>
    refine ⟨h.1, fun a s' s'' hs hr ↦ ih a hr.2 ?_⟩
    exact h.2 a s' s'' ⟨hs, hi⟩ hr

/-- Whatever the others have done, the program goes on in order. -/
def Safe (D : Discipline R A σ) (rules : Rules R A σ) (i : ℕ) (p : Program R A Unit) (s : σ) :
    Prop :=
  ∀ s', D.rely i s s' → D.invariant s' →
    (D.contract rules i).Sound p (fun _ ↦ D.ends i) s'

/-- What has to be shown about the rules, move by move. -/
structure Kept (D : Discipline R A σ) (rules : Rules R A σ) (first : σ → Prop) : Prop where
  refl : ∀ i s, D.rely i s s
  trans : ∀ i s s' s'', D.rely i s s' → D.rely i s' s'' → D.rely i s s''
  enter : ∀ s, first s → D.invariant s
  start : ∀ i p s, D.invariant s → rules.start i p s → D.Safe rules i p s
  serve : ∀ i r s a s', D.invariant s → D.ok i r s → rules.serve i r s a s' →
    D.invariant s' ∧ ∀ j, j ≠ i → D.rely j s s'
  finish : ∀ i s s', D.invariant s → D.ends i s → rules.finish i s s' →
    D.invariant s' ∧ ∀ j, j ≠ i → D.rely j s s'
  abort : ∀ i s s', D.invariant s → rules.abort i s s' →
    D.invariant s' ∧ ∀ j, j ≠ i → D.rely j s s'
  restart : ∀ s s', D.invariant s → rules.restart s s' → D.invariant s'
  outside : ∀ s s', D.invariant s → rules.outside s s' → D.invariant s' ∧ ∀ j, D.rely j s s'

variable {D : Discipline R A σ} {rules : Rules R A σ} {first : σ → Prop}

theorem Safe.of_rely (K : D.Kept rules first) {i : ℕ} {p : Program R A Unit} {s s' : σ}
    (h : D.Safe rules i p s) (hr : D.rely i s s') : D.Safe rules i p s' := by
  intro s'' hr' hi
  exact h s'' (K.trans i s s' s'' hr hr') hi

theorem Safe.sound (K : D.Kept rules first) {i : ℕ} {p : Program R A Unit} {s : σ}
    (h : D.Safe rules i p s) (hi : D.invariant s) :
    (D.contract rules i).Sound p (fun _ ↦ D.ends i) s :=
  h s (K.refl i s) hi

/-- Every program of the pool goes on in order from its state. -/
def AllSafe (D : Discipline R A σ) (rules : Rules R A σ) (c : Pool R A σ) : Prop :=
  ∀ i p, c.running i = some p → D.Safe rules i p c.state

theorem allSafe_update (K : D.Kept rules first) {c : Pool R A σ} {i : ℕ} {s : σ}
    {p : Option (Program R A Unit)} (h : D.AllSafe rules c)
    (hr : ∀ j, j ≠ i → D.rely j c.state s) (hp : ∀ q, p = some q → D.Safe rules i q s) :
    D.AllSafe rules ⟨s, Function.update c.running i p⟩ := by
  intro j q hq
  by_cases hj : j = i
  · subst hj
    exact hp q (by simpa using hq)
  · have hq' : c.running j = some q := by simpa [hj] using hq
    exact (h j q hq').of_rely K (hr j hj)

theorem step_kept (K : D.Kept rules first) {c c' : Pool R A σ} (hstep : rules.Step c c')
    (hi : D.invariant c.state) (h : D.AllSafe rules c) :
    D.invariant c'.state ∧ D.AllSafe rules c' := by
  cases hstep with
  | @start i p hnone hstart =>
    refine ⟨hi, allSafe_update K h (fun j _ ↦ K.refl j _) ?_⟩
    intro q hq
    obtain rfl : p = q := by simpa using hq
    exact K.start i p _ hi hstart
  | @ask i r next a s hrun hserve =>
    have hsound := (h i _ hrun).sound K hi
    obtain ⟨hi', hrely⟩ := K.serve i r _ a s hi hsound.1 hserve
    refine ⟨hi', allSafe_update K h hrely ?_⟩
    intro q hq s' hr his
    obtain rfl : next a = q := by simpa using hq
    exact hsound.2 a s s' hserve ⟨hr, his⟩
  | @finish i s hrun hfinish =>
    have hends : D.ends i c.state := (h i _ hrun).sound K hi
    obtain ⟨hi', hrely⟩ := K.finish i _ s hi hends hfinish
    refine ⟨hi', allSafe_update K h hrely ?_⟩
    intro q hq
    cases hq
  | @abort i p s hrun habort =>
    obtain ⟨hi', hrely⟩ := K.abort i _ s hi habort
    refine ⟨hi', allSafe_update K h hrely ?_⟩
    intro q hq
    cases hq
  | @restart s hrestart =>
    refine ⟨K.restart _ s hi hrestart, ?_⟩
    intro i q hq
    cases hq
  | @outside s hout =>
    obtain ⟨hi', hrely⟩ := K.outside _ s hi hout
    refine ⟨hi', fun i q hq ↦ (h i q hq).of_rely K (hrely i)⟩

theorem run_kept (K : D.Kept rules first) {c : Pool R A σ} (hrun : rules.Run first c) :
    D.invariant c.state ∧ D.AllSafe rules c := by
  induction hrun with
  | first hfirst =>
    refine ⟨K.enter _ hfirst, ?_⟩
    intro i q hq
    cases hq
  | step hrun hstep ih => exact step_kept K hstep ih.1 ih.2

/-- In every pool reached, the next request of every program is in order. -/
theorem ok_of_run (K : D.Kept rules first) {c : Pool R A σ} (hrun : rules.Run first c) {i : ℕ}
    {r : R} {next : A r → Program R A Unit} (h : c.running i = some (.ask r next)) :
    D.ok i r c.state := by
  obtain ⟨hi, hsafe⟩ := run_kept K hrun
  exact ((hsafe i _ h).sound K hi).1

end Discipline

end FolderClient.Library.Pools
