import DeskShell.Expression.Fault

/-!
# Computations that may fail

How a computation of several parts succeeds or fails: it succeeds if all its parts do
(`bind_eq_ok`), and fails with the first of them that fails (`bind_eq_error`). Proofs take a
computation apart by these and never look inside.
-/

set_option autoImplicit false

namespace DeskShell.Expression

variable {α β : Type}

theorem bind_eq_ok {x : Except Fault α} {f : α → Except Fault β} {b : β}
    (h : x.bind f = .ok b) : ∃ a, x = .ok a ∧ f a = .ok b := by
  cases x with
  | error fault => cases h
  | ok a => exact ⟨a, rfl, h⟩

theorem bind_eq_error {x : Except Fault α} {f : α → Except Fault β} {fault : Fault}
    (h : x.bind f = .error fault) : x = .error fault ∨ ∃ a, x = .ok a ∧ f a = .error fault := by
  cases x with
  | error other => exact .inl (congrArg Except.error (Except.error.inj h))
  | ok a => exact .inr ⟨a, rfl, h⟩

theorem map_eq_ok {x : Except Fault α} {f : α → β} {b : β} (h : x.map f = .ok b) :
    ∃ a, x = .ok a ∧ f a = b := by
  cases x with
  | error fault => cases h
  | ok a => exact ⟨a, rfl, Except.ok.inj h⟩

theorem map_eq_error {x : Except Fault α} {f : α → β} {fault : Fault}
    (h : x.map f = .error fault) : x = .error fault := by
  cases x with
  | error other => exact congrArg Except.error (Except.error.inj h)
  | ok a => cases h

theorem mapError_eq_ok {x : Except Fault α} {f : Fault → Fault} {a : α}
    (h : x.mapError f = .ok a) : x = .ok a := by
  cases x with
  | error fault => cases h
  | ok b => exact congrArg Except.ok (Except.ok.inj h)

theorem mapError_eq_error {x : Except Fault α} {f : Fault → Fault} {fault : Fault}
    (h : x.mapError f = .error fault) : ∃ own, x = .error own ∧ f own = fault := by
  cases x with
  | error own => exact ⟨own, rfl, Except.error.inj h⟩
  | ok b => cases h

end DeskShell.Expression
