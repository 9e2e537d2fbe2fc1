import Mathlib.Logic.Relation

/-!
# Guarded runs of a machine

A machine is a step function over its events.  A run is guarded when every event
meets a condition in the state that it is taken in; with the condition `True`
these are all runs.

* `Reaches step ok s t` — a guarded run leads from `s` to `t`.
* `Reaches.invariant` — what guarded steps keep holds in every state reached.
* `Reaches.trans` — runs compose.
* `Reaches.foldl` — folding the step function over events is a run when each of them
  meets the guard in every state, `Reaches.of_meets` — or in the state it is taken in.
* `Along` — a condition that all events of a sequence meet in the states they are taken
  in; `along_iff`, `along_iff_of_env` — when it is met exactly where all states of the run
  have a property; `along_comap` — the same sequences for a machine inside another one.
-/

namespace Sparkz.Lib

variable {S E : Type*}

/-- A run whose events all meet `ok` leads from `s` to the given state. -/
inductive Reaches (step : S → E → S) (ok : S → E → Prop) (s : S) : S → Prop where
  | refl : Reaches step ok s s
  | step {t : S} (e : E) : Reaches step ok s t → ok t e → Reaches step ok s (step t e)

namespace Reaches

variable {step : S → E → S} {ok : S → E → Prop} {s t u : S}

theorem single (e : E) (h : ok s e) : Reaches step ok s (step s e) :=
  .step e .refl h

/-- A run under a guard is one under every weaker guard. -/
theorem mono {ok' : S → E → Prop} (hok : ∀ s e, ok s e → ok' s e) (h : Reaches step ok s t) :
    Reaches step ok' s t := by
  induction h with
  | refl => exact .refl
  | step e _ he ih => exact .step e ih (hok _ e he)

theorem trans (h : Reaches step ok s t) (h' : Reaches step ok t u) : Reaches step ok s u := by
  induction h' with
  | refl => exact h
  | step e _ hok ih => exact .step e ih hok

/-- What holds at the start and is kept by every guarded step holds wherever a
guarded run leads. -/
theorem invariant {I : S → Prop} (hstep : ∀ s e, I s → ok s e → I (step s e)) (h0 : I s)
    (h : Reaches step ok s t) : I t := by
  induction h with
  | refl => exact h0
  | step e _ hok ih => exact hstep _ e ih hok

/-- A sequence of events that meet the guard in every state is a run. -/
theorem foldl (es : List E) (hall : ∀ e ∈ es, ∀ s, ok s e) :
    Reaches step ok s (es.foldl step s) := by
  induction es generalizing s with
  | nil => exact .refl
  | cons e es ih =>
    have hone : Reaches step ok s (step s e) := single e (hall e (by simp) s)
    exact hone.trans (ih fun e' he' => hall e' (List.mem_cons_of_mem _ he'))

/-- The events meet the guard one after the other. -/
def Meets (step : S → E → S) (ok : S → E → Bool) : S → List E → Bool
  | _, [] => true
  | s, e :: es => ok s e && Meets step ok (step s e) es

theorem of_meets {ok : S → E → Bool} (es : List E) (h : Meets step ok s es = true) :
    Reaches step (fun s e => ok s e = true) s (es.foldl step s) := by
  induction es generalizing s with
  | nil => exact .refl
  | cons e es ih =>
    rw [Meets, Bool.and_eq_true] at h
    have hone : Reaches step (fun s e => ok s e = true) s (step s e) := single e h.1
    exact hone.trans (ih h.2)

end Reaches

/-! ## Sequences of events -/

variable {step : S → E → S} {ok : S → E → Prop} {s : S}

/-- The events meet `ok` one after the other, each in the state it is taken in. -/
def Along (step : S → E → S) (ok : S → E → Prop) : S → List E → Prop
  | _, [] => True
  | s, e :: es => ok s e ∧ Along step ok (step s e) es

/-- **Exactly the guarded sequences**: when guarded steps keep an invariant that implies the
property, and the property fails after any other step, then it holds all along exactly the
guarded sequences.  The environment `env` takes only some of the steps. -/
theorem along_iff_of_env {I P : S → Prop} {env : S → E → Prop}
    (hstep : ∀ s e, I s → env s e → ok s e → I (step s e)) (hproperty : ∀ s, I s → P s)
    (hguard : ∀ s e, I s → env s e → P (step s e) → ok s e) (h0 : I s) {es : List E}
    (henv : Along step env s es) :
    (∀ pre, pre <+: es → P (pre.foldl step s)) ↔ Along step ok s es := by
  induction es generalizing s with
  | nil =>
    refine ⟨fun _ => trivial, fun _ pre hpre => ?_⟩
    rw [List.prefix_nil.1 hpre]
    exact hproperty s h0
  | cons e es ih =>
    constructor
    · intro hall
      have hok : ok s e := hguard s e h0 henv.1 (hall [e] ⟨es, rfl⟩)
      exact ⟨hok, (ih (hstep s e h0 henv.1 hok) henv.2).1 fun pre hpre =>
        hall (e :: pre) (List.cons_prefix_cons.2 ⟨rfl, hpre⟩)⟩
    · rintro ⟨hok, hrest⟩ pre hpre
      cases pre with
      | nil => exact hproperty s h0
      | cons e' pre =>
        obtain ⟨rfl, htail⟩ := List.cons_prefix_cons.1 hpre
        exact (ih (hstep s _ h0 henv.1 hok) henv.2).2 hrest pre htail

theorem Along.of_forall (h : ∀ s e, ok s e) (s : S) (es : List E) : Along step ok s es := by
  induction es generalizing s with
  | nil => trivial
  | cons e es ih => exact ⟨h s e, ih (step s e)⟩

/-- The same in an environment that takes every step. -/
theorem along_iff {I P : S → Prop} (hstep : ∀ s e, I s → ok s e → I (step s e))
    (hproperty : ∀ s, I s → P s) (hguard : ∀ s e, I s → P (step s e) → ok s e) (h0 : I s)
    (es : List E) : (∀ pre, pre <+: es → P (pre.foldl step s)) ↔ Along step ok s es :=
  along_iff_of_env (fun s e hI _ => hstep s e hI) hproperty (fun s e hI _ => hguard s e hI) h0
    (Along.of_forall (fun _ _ => trivial) s es)

/-- The first part of a guarded sequence is guarded. -/
theorem Along.left {es es' : List E} (h : Along step ok s (es ++ es')) : Along step ok s es := by
  induction es generalizing s with
  | nil => trivial
  | cons e es ih => exact ⟨h.1, ih h.2⟩

/-- A machine inside another one takes the same steps. -/
theorem along_comap {T : Type*} {outer : T → E → T} (inner : T → S)
    (hstep : ∀ t e, inner (outer t e) = step (inner t) e) {t : T} {es : List E} :
    Along outer (fun t e => ok (inner t) e) t es ↔ Along step ok (inner t) es := by
  induction es generalizing t with
  | nil => exact Iff.rfl
  | cons e es ih => rw [Along, Along, ih, hstep]

instance Along.decidable [∀ s e, Decidable (ok s e)] :
    (s : S) → (es : List E) → Decidable (Along step ok s es)
  | _, [] => inferInstanceAs (Decidable True)
  | s, e :: es =>
      have := Along.decidable (step s e) es
      inferInstanceAs (Decidable (_ ∧ _))

end Sparkz.Lib
