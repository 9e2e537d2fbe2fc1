import Mathlib

/-!
# Properties of stateful programs

Programs that may throw; their state survives an exception.

* `Keeps` — an invariant of the state survives the program, whether it returns or throws.
* `Commutes` — a change of the state that the program does not see and leaves alone.
* `ThrowsOnly`, `Returns` — what the program may throw, and what it may return.

Each has a rule for every way of composing programs.
-/

namespace Sparkz.Lib

variable {ε σ α β : Type}

/-- The state in which a run ends. -/
def finalState : EStateM.Result ε σ α → σ
  | .ok _ s => s
  | .error _ s => s

/-- A run that ends in another state. -/
def mapState (f : σ → σ) : EStateM.Result ε σ α → EStateM.Result ε σ α
  | .ok a s => .ok a (f s)
  | .error e s => .error e (f s)

@[simp] theorem finalState_ok (a : α) (s : σ) :
    finalState (.ok a s : EStateM.Result ε σ α) = s := rfl

@[simp] theorem finalState_error (e : ε) (s : σ) :
    finalState (.error e s : EStateM.Result ε σ α) = s := rfl

@[simp] theorem finalState_mapState (f : σ → σ) (r : EStateM.Result ε σ α) :
    finalState (mapState f r) = f (finalState r) := by
  cases r <;> rfl

/-- A run of one program after another. -/
theorem run_bind (x : EStateM ε σ α) (f : α → EStateM ε σ β) (s : σ) :
    (x >>= f) s = match x s with
      | .ok a s' => f a s'
      | .error e s' => .error e s' := rfl

/-! ## Invariants -/

/-- The invariant survives the program. -/
def Keeps (I : σ → Prop) (x : EStateM ε σ α) : Prop :=
  ∀ s, I s → I (finalState (x s))

namespace Keeps

variable {I J : σ → Prop} {x y : EStateM ε σ α} {f : α → EStateM ε σ β}

theorem pure (a : α) : Keeps I (pure a : EStateM ε σ α) := fun _ hs => hs

theorem throw (e : ε) : Keeps I (throw e : EStateM ε σ α) := fun _ hs => hs

theorem bind (hx : Keeps I x) (hf : ∀ a, Keeps I (f a)) : Keeps I (x >>= f) := by
  intro s hs
  have hs' := hx s hs
  rw [run_bind]
  cases hrun : x s with
  | ok a s' =>
    rw [hrun] at hs'
    exact hf a s' hs'
  | error e s' =>
    rw [hrun] at hs'
    exact hs'

theorem ite {c : Prop} [Decidable c] (hx : Keeps I x) (hy : Keeps I y) :
    Keeps I (if c then x else y) := by
  split
  · exact hx
  · exact hy

theorem modify {g : σ → σ} (hg : ∀ s, I s → I (g s)) :
    Keeps I (modify g : EStateM ε σ PUnit) := hg

theorem get_bind {f : σ → EStateM ε σ β} (hf : ∀ a, Keeps I (f a)) : Keeps I (get >>= f) :=
  fun s hs => hf s s hs

theorem and (hI : Keeps I x) (hJ : Keeps J x) : Keeps (fun s => I s ∧ J s) x :=
  fun s hs => ⟨hI s hs.1, hJ s hs.2⟩

end Keeps

/-! ## Changes of the state that are not seen -/

/-- The program does not see the change `f` of the state and leaves it alone. -/
def Commutes (f : σ → σ) (x : EStateM ε σ α) : Prop :=
  ∀ s, x (f s) = mapState f (x s)

namespace Commutes

variable {f : σ → σ} {x y : EStateM ε σ α} {k : α → EStateM ε σ β}

theorem pure (a : α) : Commutes f (pure a : EStateM ε σ α) := fun _ => rfl

theorem throw (e : ε) : Commutes f (throw e : EStateM ε σ α) := fun _ => rfl

theorem bind (hx : Commutes f x) (hk : ∀ a, Commutes f (k a)) : Commutes f (x >>= k) := by
  intro s
  rw [run_bind, run_bind, hx s]
  cases x s with
  | ok a s' => exact hk a s'
  | error e s' => rfl

theorem ite {c : Prop} [Decidable c] (hx : Commutes f x) (hy : Commutes f y) :
    Commutes f (if c then x else y) := by
  split
  · exact hx
  · exact hy

theorem modify {g : σ → σ} (hg : ∀ s, g (f s) = f (g s)) :
    Commutes f (modify g : EStateM ε σ PUnit) := by
  intro s
  show EStateM.Result.ok PUnit.unit (g (f s)) = .ok PUnit.unit (f (g s))
  rw [hg]

/-- Reading the state, where what follows does not depend on what is changed. -/
theorem get_bind {k : σ → EStateM ε σ β} (hsame : ∀ s, k (f s) = k s)
    (hk : ∀ a, Commutes f (k a)) : Commutes f (get >>= k) := by
  intro s
  show k (f s) (f s) = mapState f (k s s)
  rw [hsame, hk s s]

end Commutes

/-! ## Exceptions -/

/-- All that the program throws is in `E`. -/
def ThrowsOnly (E : ε → Prop) (x : EStateM ε σ α) : Prop :=
  ∀ s e s', x s = .error e s' → E e

namespace ThrowsOnly

variable {E : ε → Prop} {x y : EStateM ε σ α} {k : α → EStateM ε σ β}

theorem pure (a : α) : ThrowsOnly E (pure a : EStateM ε σ α) := fun _ _ _ h => by cases h

theorem throw {e : ε} (he : E e) : ThrowsOnly E (throw e : EStateM ε σ α) := by
  intro s e' s' h
  cases h
  exact he

theorem bind (hx : ThrowsOnly E x) (hk : ∀ a, ThrowsOnly E (k a)) : ThrowsOnly E (x >>= k) := by
  intro s e s' h
  rw [run_bind] at h
  cases hrun : x s with
  | ok a s'' =>
    rw [hrun] at h
    exact hk a s'' e s' h
  | error e' s'' =>
    rw [hrun] at h
    cases h
    exact hx s _ _ hrun

theorem ite {c : Prop} [Decidable c] (hx : ThrowsOnly E x) (hy : ThrowsOnly E y) :
    ThrowsOnly E (if c then x else y) := by
  split
  · exact hx
  · exact hy

theorem modify (g : σ → σ) : ThrowsOnly E (modify g : EStateM ε σ PUnit) :=
  fun _ _ _ h => by cases h

theorem get_bind {k : σ → EStateM ε σ β} (hk : ∀ a, ThrowsOnly E (k a)) :
    ThrowsOnly E (get >>= k) :=
  fun s e s' h => hk s s e s' h

end ThrowsOnly

/-! ## Values -/

/-- All that the program returns is in `R`. -/
def Returns (R : α → Prop) (x : EStateM ε σ α) : Prop :=
  ∀ s a s', x s = .ok a s' → R a

namespace Returns

variable {x y : EStateM ε σ α} {k : α → EStateM ε σ β} {R : α → Prop} {R' : β → Prop}

theorem pure {a : α} (ha : R a) : Returns R (pure a : EStateM ε σ α) := by
  intro s b s' h
  cases h
  exact ha

theorem throw (e : ε) : Returns R (throw e : EStateM ε σ α) := fun _ _ _ h => by cases h

theorem bind (hk : ∀ a, Returns R' (k a)) : Returns R' (x >>= k) := by
  intro s b s' h
  rw [run_bind] at h
  cases hrun : x s with
  | ok a s'' =>
    rw [hrun] at h
    exact hk a s'' b s' h
  | error e s'' =>
    rw [hrun] at h
    cases h

theorem ite {c : Prop} [Decidable c] (hx : Returns R x) (hy : Returns R y) :
    Returns R (if c then x else y) := by
  split
  · exact hx
  · exact hy

end Returns

end Sparkz.Lib
