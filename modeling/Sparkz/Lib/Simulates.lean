import Mathlib

/-!
# Stateful computations that follow a partial function

A computation that may throw follows a partial function of values: it throws where the
function is undefined, and otherwise returns a result that is related to the value of
the function.

* `Simulates` — the relation, for one run of the computation.
* `Simulates.bind`, `Simulates.map` — the relation step by step.
-/

namespace Sparkz.Lib

variable {α α' β β' ε σ : Type}

/-- The run `r` throws if there is no value, and returns something related to it by
`post` if there is one. -/
def Simulates (value : Option α) (post : α → β → σ → Prop) (r : EStateM.Result ε σ β) : Prop :=
  match value with
  | none => ∃ e s, r = .error e s
  | some a => ∃ b s, r = .ok b s ∧ post a b s

namespace Simulates

variable {value : Option α} {post : α → β → σ → Prop} {r : EStateM.Result ε σ β}

theorem ok {a : α} {b : β} {s : σ} (hr : r = .ok b s) (hpost : post a b s) :
    Simulates (some a) post r :=
  ⟨b, s, hr, hpost⟩

theorem error {e : ε} {s : σ} (hr : r = .error e s) : Simulates none post r :=
  ⟨e, s, hr⟩

/-- Where the function is defined, the computation returns. -/
theorem of_some {a : α} (h : Simulates value post r) (ha : value = some a) :
    ∃ b s, r = .ok b s ∧ post a b s := by
  rw [ha] at h
  exact h

/-- Where the computation returns, the function is defined. -/
theorem of_ok {b : β} {s : σ} (h : Simulates value post r) (hr : r = .ok b s) :
    ∃ a, value = some a ∧ post a b s := by
  cases value with
  | none =>
    obtain ⟨e, s', he⟩ := h
    rw [hr] at he
    cases he
  | some a =>
    obtain ⟨b', s', hb, hpost⟩ := h
    rw [hr] at hb
    cases hb
    exact ⟨a, rfl, hpost⟩

theorem mono {post' : α → β → σ → Prop} (h : Simulates value post r)
    (himp : ∀ a b s, value = some a → post a b s → post' a b s) : Simulates value post' r := by
  cases value with
  | none => exact h
  | some a =>
    obtain ⟨b, s, hr, hpost⟩ := h
    exact ⟨b, s, hr, himp a b s rfl hpost⟩

/-- A computation followed by another one. -/
theorem bind {x : EStateM ε σ β} {s : σ} (h : Simulates value post (x s))
    {f : β → EStateM ε σ β'} {next : α → Option α'} {post' : α' → β' → σ → Prop}
    (hnext : ∀ a b s', value = some a → post a b s' → Simulates (next a) post' (f b s')) :
    Simulates (value.bind next) post' ((x >>= f) s) := by
  show Simulates (value.bind next) post' (EStateM.bind x f s)
  cases value with
  | none =>
    obtain ⟨e, s', he⟩ := h
    exact ⟨e, s', by rw [EStateM.bind, he]⟩
  | some a =>
    obtain ⟨b, s', hb, hpost⟩ := h
    have := hnext a b s' rfl hpost
    rw [EStateM.bind, hb]
    exact this

/-- A computation followed by one that always returns. -/
theorem map {x : EStateM ε σ β} {s : σ} (h : Simulates value post (x s))
    {f : β → EStateM ε σ β'} {next : α → α'} {post' : α' → β' → σ → Prop}
    (hnext : ∀ a b s', value = some a → post a b s' →
      ∃ b' s'', f b s' = .ok b' s'' ∧ post' (next a) b' s'') :
    Simulates (value.map next) post' ((x >>= f) s) := by
  rw [Option.map_eq_bind]
  exact h.bind hnext

/-- A function applied to the value only. -/
theorem map_value {f : α → α'} {post' : α' → β → σ → Prop}
    (h : Simulates value (fun a b s => post' (f a) b s) r) : Simulates (value.map f) post' r := by
  cases value with
  | none => exact h
  | some a => exact h

/-- A value that is sure, followed by a computation on it. -/
theorem of_bind_ok {x : EStateM ε σ β} {s s' : σ} {b : β} (hx : x s = .ok b s')
    {f : β → EStateM ε σ β'} {value : Option α'} {post : α' → β' → σ → Prop}
    (h : Simulates value post (f b s')) : Simulates value post ((x >>= f) s) := by
  show Simulates value post (EStateM.bind x f s)
  rw [EStateM.bind, hx]
  exact h

/-- Nothing follows what throws. -/
theorem of_bind_error {x : EStateM ε σ β} {s s' : σ} {e : ε} (hx : x s = .error e s')
    {f : β → EStateM ε σ β'} {post : α' → β' → σ → Prop} :
    Simulates (none : Option α') post ((x >>= f) s) := by
  refine ⟨e, s', ?_⟩
  show EStateM.bind x f s = _
  rw [EStateM.bind, hx]

end Simulates

end Sparkz.Lib
