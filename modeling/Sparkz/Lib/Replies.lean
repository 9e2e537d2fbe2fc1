import Mathlib.Logic.Function.Basic
import Sparkz.Lib.GuardedRun

/-!
# Objects that reply to calls

An object has a state and replies to one call after another.  What it may reply is said by
a specification: a relation between an abstract state, a call, a reply and the abstract
state after it.

* `repliesOf`, `stateAfter` — the replies to calls, and the state after them.
* `Allows` — the specification allows these replies to these calls.
* `allows_repliesOf` — **an object whose calls all meet the specification meets it over
  whole runs**; the calls of a run may be bound to a condition.
-/

namespace Sparkz.Lib

variable {S A C R : Type*} {call : S → C → R × S} {step : A → C → R → A → Prop}

/-- The replies to calls, one after another. -/
def repliesOf (call : S → C → R × S) : S → List C → List R
  | _, [] => []
  | s, c :: cs => (call s c).1 :: repliesOf call (call s c).2 cs

/-- The state after calls. -/
def stateAfter (call : S → C → R × S) : S → List C → S
  | s, [] => s
  | s, c :: cs => stateAfter call (call s c).2 cs

/-- The specification allows the replies to the calls, and leads to the given state. -/
inductive Allows (step : A → C → R → A → Prop) : A → List C → List R → A → Prop
  | nil (a : A) : Allows step a [] [] a
  | cons {a a' a'' : A} {c : C} {r : R} {cs : List C} {rs : List R} :
      step a c r a' → Allows step a' cs rs a'' → Allows step a (c :: cs) (r :: rs) a''

/-- **A simulation carries over to runs**: if each call from related states that meets the
condition is allowed and leads to related states, so are all calls one after another. -/
theorem allows_repliesOf {rel : S → A → Prop} {ok : S → C → Prop}
    (hcall : ∀ s a c, rel s a → ok s c → ∃ a', step a c (call s c).1 a' ∧ rel (call s c).2 a')
    {s : S} {a : A} (h : rel s a) {cs : List C} (hok : Along (fun s c => (call s c).2) ok s cs) :
    ∃ a', Allows step a cs (repliesOf call s cs) a' ∧ rel (stateAfter call s cs) a' := by
  induction cs generalizing s a with
  | nil => exact ⟨a, .nil a, h⟩
  | cons c cs ih =>
    obtain ⟨a₁, hstep, h₁⟩ := hcall s a c h hok.1
    obtain ⟨a', hrest, h'⟩ := ih h₁ hok.2
    exact ⟨a', .cons hstep hrest, h'⟩

end Sparkz.Lib
