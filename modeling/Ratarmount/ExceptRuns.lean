import Mathlib.Tactic.Common

/-!
# Runs that return or fail

Small facts about `Except`, to peel a computation apart at its binds.
-/

namespace Ratarmount

variable {α β ε : Type}

@[simp] theorem ok_bind (a : α) (f : α → Except ε β) : (Except.ok a >>= f)=f a := rfl

theorem bind_ok {x : Except ε α} {f : α → Except ε β} {b : β} (h : x >>= f = .ok b) : ∃a,x = .ok a ∧ f a = .ok b := by
  cases x with
  | error e => cases h
  | ok a => exact ⟨a,rfl,h⟩

theorem ok_of_isOk {x : Except ε α} (h : x.isOk=true) : ∃a,x = .ok a := by
  cases x with
  | error e => cases h
  | ok a => exact ⟨a,rfl⟩

theorem ok_of_toOption {x : Except ε α} {a : α} (h : x.toOption=some a) : x = .ok a := by
  cases x with
  | error e => cases h
  | ok b => rw [Option.some.inj h]

end Ratarmount
