import Mathlib.Init

namespace FolderClient.Library.Results

variable {ε α β : Type}

/-- A sequence of two fallible steps succeeds where both do. -/
theorem bind_eq_ok {x : Except ε α} {f : α → Except ε β} {b : β} :
    x >>= f = .ok b ↔ ∃ a, x = .ok a ∧ f a = .ok b := by
  cases x with
  | error e => simp [bind, Except.bind]
  | ok a => simp [bind, Except.bind]

theorem map_eq_ok {f : α → β} {x : Except ε α} {b : β} :
    x.map f = .ok b ↔ ∃ a, x = .ok a ∧ f a = b := by
  cases x with
  | error e => simp [Except.map]
  | ok a => simp [Except.map]

theorem mapError_eq_ok {ε' : Type} {f : ε → ε'} {x : Except ε α} {a : α} :
    x.mapError f = .ok a ↔ x = .ok a := by
  cases x with
  | error e => exact iff_of_false (fun h ↦ by cases h) fun h ↦ by cases h
  | ok b => exact ⟨fun h ↦ congrArg _ (Except.ok.inj h), fun h ↦ congrArg _ (Except.ok.inj h)⟩

theorem mapError_ok {ε' : Type} {f : ε → ε'} {a : α} :
    (Except.ok a : Except ε α).mapError f = .ok a := rfl

@[simp] theorem throw_bind_ne_ok {e : ε} {f : α → Except ε β} {b : β} :
    (throw e >>= f) = .ok b ↔ False := by
  simp [throw, throwThe, MonadExceptOf.throw, bind, Except.bind]

@[simp] theorem pure_eq_ok {a b : α} : (pure a : Except ε α) = .ok b ↔ a = b := by
  simp [pure, Except.pure]

theorem ite_throw_eq_ok {p : Prop} [Decidable p] {e : ε} {f : α → Except ε β}
    {g : Except ε β} {b : β} :
    (if p then throw e >>= f else g) = .ok b ↔ ¬ p ∧ g = .ok b := by
  by_cases h : p <;> simp [h]

theorem ite_error_eq_ok {p : Prop} [Decidable p] {e : ε} {g : Except ε β} {b : β} :
    (if p then .error e else g) = .ok b ↔ ¬ p ∧ g = .ok b := by
  by_cases h : p <;> simp [h]

theorem ok_of_toOption {x : Except ε α} {a : α} (h : x.toOption = some a) : x = .ok a := by
  cases x with
  | error e => cases h
  | ok b => exact congrArg Except.ok (Option.some.inj h)

end FolderClient.Library.Results
