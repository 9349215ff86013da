import FolderClient.Library.Transcripts

namespace FolderClient.Library.Oracles

open FolderClient.Library.Programs FolderClient.Library.Transcripts

variable {R : Type} {A : R → Type} {α β ε : Type}

/-- What answers the requests of a program, each by its number: between two of them it may have
changed in any way. -/
abbrev Oracle (R : Type) (A : R → Type) := ℕ → (r : R) → A r

namespace Oracle

variable (o : Oracle R A)

/-- The requests of a program with their answers, the first of them with the number `n`. -/
def asked : ℕ → Program R A α → List (Exchange R A)
  | _, .done _ => []
  | n, .ask r next => ⟨r, o n r⟩ :: asked (n + 1) (next (o n r))

def result : ℕ → Program R A α → α
  | _, .done a => a
  | n, .ask r next => result (n + 1) (next (o n r))

@[simp] theorem asked_done (n : ℕ) (a : α) : o.asked n (.done a : Program R A α) = [] := rfl

@[simp] theorem result_done (n : ℕ) (a : α) : o.result n (.done a : Program R A α) = a := rfl

variable {o}

theorem asked_bind (n : ℕ) (p : Program R A α) (f : α → Program R A β) :
    o.asked n (p >>= f) =
      o.asked n p ++ o.asked (n + (o.asked n p).length) (f (o.result n p)) := by
  induction p generalizing n with
  | done a => rfl
  | ask r next ih =>
    have hlength : n + ((o.asked (n + 1) (next (o n r))).length + 1) =
        n + 1 + (o.asked (n + 1) (next (o n r))).length := by omega
    have hi := ih (o n r) (n + 1)
    rw [← hlength] at hi
    exact congrArg (List.cons _) hi

theorem result_bind (n : ℕ) (p : Program R A α) (f : α → Program R A β) :
    o.result n (p >>= f) = o.result (n + (o.asked n p).length) (f (o.result n p)) := by
  induction p generalizing n with
  | done a => rfl
  | ask r next ih =>
    have hlength : n + ((o.asked (n + 1) (next (o n r))).length + 1) =
        n + 1 + (o.asked (n + 1) (next (o n r))).length := by omega
    have hi := ih (o n r) (n + 1)
    rw [← hlength] at hi
    exact hi

section Fallible

variable {n : ℕ} {p : ExceptT ε (Program R A) α} {f : α → ExceptT ε (Program R A) β}

theorem result_of_ok {a : α} (h : o.result n p.run = .ok a) :
    o.result n (p >>= f).run = o.result (n + (o.asked n p.run).length) (f a).run := by
  refine (result_bind n p.run _).trans ?_
  rw [h]
  rfl

theorem result_of_error {e : ε} (h : o.result n p.run = .error e) :
    o.result n (p >>= f).run = .error e := by
  refine (result_bind n p.run _).trans ?_
  rw [h]
  rfl

theorem asked_of_ok {a : α} (h : o.result n p.run = .ok a) :
    o.asked n (p >>= f).run =
      o.asked n p.run ++ o.asked (n + (o.asked n p.run).length) (f a).run := by
  refine (asked_bind n p.run _).trans ?_
  rw [h]
  rfl

theorem asked_of_error {e : ε} (h : o.result n p.run = .error e) :
    o.asked n (p >>= f).run = o.asked n p.run := by
  refine (asked_bind n p.run _).trans ?_
  rw [h]
  exact List.append_nil _

/-- Where the whole succeeds, its first part has. -/
theorem ok_of_result {b : β} (h : o.result n (p >>= f).run = .ok b) :
    ∃ a, o.result n p.run = .ok a ∧
      o.result (n + (o.asked n p.run).length) (f a).run = .ok b := by
  cases hp : o.result n p.run with
  | ok a => exact ⟨a, rfl, (result_of_ok hp).symm.trans h⟩
  | error e => cases (result_of_error hp).symm.trans h

end Fallible

end Oracle

end FolderClient.Library.Oracles
