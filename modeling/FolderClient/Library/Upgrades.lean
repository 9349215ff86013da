import Mathlib.Data.List.Range
import Mathlib.Data.Nat.Notation

namespace FolderClient.Library.Upgrades

variable {α : Type}

/-- What happens to a versioned value: a program of some version uses it, or it is lifted from a
version to the next. -/
inductive Event
  | used (known : ℕ)
  | lifted (place : ℕ)

def Event.place? : Event → Option ℕ
  | .used _ => none
  | .lifted place => some place

/-- The ways of a value from one version to another. It is used only at versions that the using
program knows all of, and the step to a version is taken at the version before. -/
inductive Lifted (lift : ℕ → α → Option α) (uses : ℕ → α → α → Prop) (n : ℕ) (a : α) :
    List Event → ℕ → α → Prop
  | refl : Lifted lift uses n a [] n a
  | use {events : List Event} {m k : ℕ} {b c : α} :
      Lifted lift uses n a events m b → k ≤ m → uses k b c →
      Lifted lift uses n a (events ++ [.used k]) m c
  | lift {events : List Event} {m : ℕ} {b c : α} :
      Lifted lift uses n a events m b → lift m b = some c →
      Lifted lift uses n a (events ++ [.lifted m]) (m + 1) c

variable {lift : ℕ → α → Option α} {uses : ℕ → α → α → Prop} {n m : ℕ} {a b : α}
  {events : List Event}

namespace Lifted

theorem le (h : Lifted lift uses n a events m b) : n ≤ m := by
  induction h with
  | refl => exact le_refl n
  | use _ _ _ ih => exact ih
  | lift _ _ ih => exact ih.trans (Nat.le_succ _)

/-- The value went through every step between its two versions exactly once, in their order. -/
theorem places (h : Lifted lift uses n a events m b) :
    events.filterMap Event.place? = List.range' n (m - n) := by
  induction h with
  | refl => simp
  | use _ _ _ ih =>
    rw [List.filterMap_append, ih]
    exact List.append_nil _
  | @lift events m b c h _ ih =>
    have hlength : m + 1 - n = m - n + 1 := Nat.succ_sub h.le
    rw [List.filterMap_append, ih, hlength, List.range'_concat]
    simp [Event.place?, Nat.add_sub_cancel' h.le]

end Lifted

/-- The steps from a version on, so many of them at most, up to the first that fails. -/
def climb (lift : ℕ → α → Option α) : ℕ → ℕ → α → ℕ × α
  | 0, n, a => (n, a)
  | count + 1, n, a =>
    match lift n a with
    | some b => climb lift count (n + 1) b
    | none => (n, a)

end FolderClient.Library.Upgrades
