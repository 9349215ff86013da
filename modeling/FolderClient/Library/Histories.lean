import Mathlib.Data.List.Basic

namespace FolderClient.Library.Histories

variable {σ ε : Type} (step : σ → ε → σ)

/-- The state after a history of events. -/
def run (s : σ) (events : List ε) : σ := events.foldl step s

@[simp] theorem run_nil (s : σ) : run step s [] = s := rfl

@[simp] theorem run_cons (s : σ) (e : ε) (events : List ε) :
    run step s (e :: events) = run step (step s e) events := rfl

@[simp] theorem run_append (s : σ) (events later : List ε) :
    run step s (events ++ later) = run step (run step s events) later := List.foldl_append

/-- Somewhere on the way, an event happens in a state with a property. -/
def Somewhere (P : σ → ε → Prop) (s : σ) : List ε → Prop
  | [] => False
  | e :: events => P s e ∨ Somewhere P (step s e) events

variable {step} {P : σ → ε → Prop} {Q : σ → Prop} {s : σ} {events : List ε}

theorem somewhere_iff : Somewhere step P s events ↔
    ∃ before e after, events = before ++ e :: after ∧ P (run step s before) e := by
  induction events generalizing s with
  | nil => simp [Somewhere]
  | cons e events ih =>
    simp only [Somewhere, ih]
    constructor
    · rintro (h | ⟨before, f, after, rfl, h⟩)
      · exact ⟨[], e, events, rfl, h⟩
      · exact ⟨e :: before, f, after, rfl, h⟩
    · rintro ⟨before, f, after, he, h⟩
      cases before with
      | nil =>
        obtain ⟨rfl, rfl⟩ := List.cons.inj he
        exact .inl h
      | cons g before =>
        obtain ⟨rfl, rfl⟩ := List.cons.inj he
        exact .inr ⟨before, f, after, rfl, h⟩

/-- What every event keeps holds at the end. -/
theorem holds_run (hstep : ∀ s e, Q s → Q (step s e)) (h : Q s) : Q (run step s events) := by
  induction events generalizing s with
  | nil => exact h
  | cons e events ih => exact ih (hstep s e h)

/-- What every event keeps, those with a property apart, holds at the end unless there was one. -/
theorem holds_or_somewhere (hstep : ∀ s e, Q s → Q (step s e) ∨ P s e) (h : Q s) :
    Q (run step s events) ∨ Somewhere step P s events := by
  induction events generalizing s with
  | nil => exact .inl h
  | cons e events ih =>
    rcases hstep s e h with h' | h'
    · exact (ih h').imp_right .inr
    · exact .inr (.inl h')

end FolderClient.Library.Histories
