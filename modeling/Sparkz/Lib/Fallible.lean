import Mathlib

/-!
# Computations that can fail

* `map_eq_ok`, `exists_map_eq_ok`, `bind_eq_ok` — what has succeeded where a composed
  computation has.
* `bind_eq_error` — what has failed where a composed computation has.
-/

namespace Sparkz.Lib

variable {ε α β : Type} {x : Except ε α} {b : β}

theorem map_eq_ok {f : α → β} : x.map f = .ok b ↔ ∃ a, x = .ok a ∧ f a = b := by
  cases x with
  | error err => simp [Except.map]
  | ok a => simp [Except.map]

/-- Whether a computation succeeds does not depend on what is done with its result. -/
theorem exists_map_eq_ok {f : α → β} : (∃ b, x.map f = .ok b) ↔ ∃ a, x = .ok a := by
  cases x with
  | error err => simp [Except.map]
  | ok a => simp [Except.map]

theorem bind_eq_ok {f : α → Except ε β} :
    x.bind f = .ok b ↔ ∃ a, x = .ok a ∧ f a = .ok b := by
  cases x with
  | error err => simp [Except.bind]
  | ok a => simp [Except.bind]

theorem bind_eq_error {f : α → Except ε β} {e : ε} :
    x.bind f = .error e ↔ x = .error e ∨ ∃ a, x = .ok a ∧ f a = .error e := by
  cases x with
  | error err => simp [Except.bind]
  | ok a => simp [Except.bind]

end Sparkz.Lib
