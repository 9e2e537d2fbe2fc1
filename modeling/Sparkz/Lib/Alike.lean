import Mathlib

/-!
# Computations that cannot be told apart

Two computations over different states, both of which may fail.  From states that are
related they are alike when they fail together, return the same value and leave states
that are related again.

* `Alike` — the relation, for all related states.
* `Alike.pure`, `Alike.bind`, `Alike.map`, `Alike.ite` — programs made of alike parts.
* `Alike.of_some`, `Alike.of_none` — one computation read off the other.
-/

namespace Sparkz.Lib

variable {σ τ υ α β : Type}

/-- Both fail, or both return the same value in related states. -/
def Alike (R : σ → τ → Prop) (x : StateT σ Option α) (y : StateT τ Option α) : Prop :=
  ∀ s t, R s t → Option.Rel (fun p q => p.1 = q.1 ∧ R p.2 q.2) (x s) (y t)

namespace Alike

variable {R : σ → τ → Prop} {x : StateT σ Option α} {y : StateT τ Option α}

theorem pure (a : α) : Alike R (pure a) (pure a) :=
  fun _ _ hst => .some ⟨rfl, hst⟩

theorem failure : Alike R (failure : StateT σ Option α) (failure : StateT τ Option α) :=
  fun _ _ _ => .none

theorem bind {k : α → StateT σ Option β} {l : α → StateT τ Option β} (h : Alike R x y)
    (hnext : ∀ a, Alike R (k a) (l a)) : Alike R (x >>= k) (y >>= l) := by
  intro s t hst
  show Option.Rel _ ((x s).bind fun p => k p.1 p.2) ((y t).bind fun p => l p.1 p.2)
  have hxy := h s t hst
  cases hx : x s with
  | none =>
    rw [hx] at hxy
    cases hy : y t with
    | none => exact .none
    | some q =>
      rw [hy] at hxy
      cases hxy
  | some p =>
    obtain ⟨a, s'⟩ := p
    rw [hx] at hxy
    cases hy : y t with
    | none =>
      rw [hy] at hxy
      cases hxy
    | some q =>
      obtain ⟨b, t'⟩ := q
      rw [hy] at hxy
      cases hxy with
      | some hpq =>
        obtain ⟨rfl, hst'⟩ := hpq
        exact hnext a s' t' hst'

theorem map_apply (f : α → β) (x : StateT σ Option α) (s : σ) :
    (f <$> x) s = (x s).map fun p => (f p.1, p.2) := by
  show (x s).bind _ = _
  cases x s <;> rfl

theorem rel_map (f : α → β) {s : σ} {t : τ}
    (h : Option.Rel (fun p q => p.1 = q.1 ∧ R p.2 q.2) (x s) (y t)) :
    Option.Rel (fun p q => p.1 = q.1 ∧ R p.2 q.2) ((f <$> x) s) ((f <$> y) t) := by
  rw [map_apply, map_apply]
  generalize x s = p, y t = q at h
  cases h with
  | none => exact .none
  | some hpq => exact .some ⟨congrArg f hpq.1, hpq.2⟩

theorem map (f : α → β) (h : Alike R x y) : Alike R (f <$> x) (f <$> y) :=
  fun s t hst => rel_map f (h s t hst)

theorem ite {c : Prop} [Decidable c] {x' : StateT σ Option α} {y' : StateT τ Option α}
    (h : Alike R x y) (h' : Alike R x' y') :
    Alike R (if c then x else x') (if c then y else y') := by
  split
  · exact h
  · exact h'

/-- Where one returns, the other returns the same value. -/
theorem of_some {s s' : σ} {t : τ} {a : α} (h : Alike R x y) (hst : R s t)
    (hx : x s = some (a, s')) : ∃ t', y t = some (a, t') ∧ R s' t' := by
  have hxy := h s t hst
  rw [hx] at hxy
  cases hy : y t with
  | none =>
    rw [hy] at hxy
    cases hxy
  | some q =>
    obtain ⟨b, t'⟩ := q
    rw [hy] at hxy
    cases hxy with
    | some hpq =>
      obtain ⟨rfl, hst'⟩ := hpq
      exact ⟨t', rfl, hst'⟩

/-- Where one fails, the other fails. -/
theorem of_none {s : σ} {t : τ} (h : Alike R x y) (hst : R s t) (hx : x s = none) :
    y t = none := by
  have hxy := h s t hst
  rw [hx] at hxy
  cases hy : y t with
  | none => rfl
  | some q =>
    rw [hy] at hxy
    cases hxy

theorem symm (h : Alike R x y) : Alike (fun t s => R s t) y x := by
  intro t s hst
  cases hx : x s with
  | none =>
    rw [h.of_none hst hx]
    exact .none
  | some p =>
    obtain ⟨t', hy, hst'⟩ := h.of_some hst hx
    rw [hy]
    exact .some ⟨rfl, hst'⟩

end Alike

end Sparkz.Lib
