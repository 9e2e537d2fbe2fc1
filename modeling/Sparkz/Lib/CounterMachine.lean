import Mathlib

/-!
# Machines with one counter

A deterministic machine has a control state and a natural number, and what it can do
with a number it can do with every larger one.

* `run` — so many steps; `run_add`, `run_shift`.
* `Recurs` — some control state is come back to with a counter that is not smaller.
* `halts_iff` — if only finitely many control states have a step, then a run ends
  exactly if it does not recur.
-/

namespace Sparkz.Lib

/-- A machine: its step, which does not depend on how much larger the counter is. -/
structure CounterMachine (C : Type*) where
  step : C → ℕ → Option (C × ℕ)
  step_shift : ∀ {c d c' d'} (k : ℕ), step c d = some (c', d') → step c (d + k) = some (c', d' + k)

namespace CounterMachine

variable {C : Type*} (M : CounterMachine C)

/-- `n` steps. -/
def run : ℕ → C × ℕ → Option (C × ℕ)
  | 0, s => some s
  | n + 1, s => (M.step s.1 s.2).bind (run n)

theorem run_add (m n : ℕ) (s : C × ℕ) : M.run (m + n) s = (M.run m s).bind (M.run n) := by
  induction m generalizing s with
  | zero => rw [Nat.zero_add]; rfl
  | succ m ih =>
    rw [Nat.succ_add]
    show (M.step s.1 s.2).bind (M.run (m + n)) = ((M.step s.1 s.2).bind (M.run m)).bind _
    rw [Option.bind_assoc]
    exact congrArg _ (funext ih)

theorem run_shift {n : ℕ} {c c' : C} {d d' : ℕ} (k : ℕ) (h : M.run n (c, d) = some (c', d')) :
    M.run n (c, d + k) = some (c', d' + k) := by
  induction n generalizing c d with
  | zero => cases h; rfl
  | succ n ih =>
    obtain ⟨⟨c₁, d₁⟩, hstep, hrun⟩ := Option.bind_eq_some_iff.1 h
    exact Option.bind_eq_some_iff.2 ⟨(c₁, d₁ + k), M.step_shift k hstep, ih hrun⟩

/-- The machine stops within some number of steps. -/
def Halts (s : C × ℕ) : Prop := ∃ n, M.run n s = none

/-- After `m` steps the machine is at `c`, and `n` steps later again, with a counter
that is not smaller. -/
def Recurs (s : C × ℕ) : Prop :=
  ∃ m n c d k, 0 < n ∧ M.run m s = some (c, d) ∧ M.run n (c, d) = some (c, d + k)

/-- Once around, the machine goes around as often as one likes. -/
theorem run_mul {n k : ℕ} {c : C} {d : ℕ} (h : M.run n (c, d) = some (c, d + k)) (t : ℕ) :
    M.run (t * n) (c, d) = some (c, d + t * k) := by
  induction t with
  | zero => simp only [Nat.zero_mul, Nat.add_zero]; rfl
  | succ t ih =>
    rw [Nat.succ_mul, run_add, ih, Option.bind_some, M.run_shift (t * k) h]
    congr 2
    ring

theorem not_halts_of_recurs {s : C × ℕ} (h : M.Recurs s) : ¬ M.Halts s := by
  obtain ⟨m, n, c, d, k, hn, hm, hround⟩ := h
  rintro ⟨N, hN⟩
  have hlong : M.run (m + N * n) s = some (c, d + N * k) := by
    rw [run_add, hm, Option.bind_some, M.run_mul hround]
  have hle : N ≤ m + N * n := le_trans (Nat.le_mul_of_pos_right N hn) (Nat.le_add_left _ _)
  obtain ⟨r, hr⟩ := Nat.exists_eq_add_of_le hle
  rw [hr, run_add, hN] at hlong
  cases hlong

theorem recurs_of_not_halts {S : Set C} (hS : S.Finite)
    (hstep : ∀ c d, M.step c d ≠ none → c ∈ S) {s : C × ℕ} (h : ¬ M.Halts s) : M.Recurs s := by
  have hall : ∀ n, ∃ x, M.run n s = some x := fun n =>
    Option.ne_none_iff_exists'.1 fun hn => h ⟨n, hn⟩
  choose at_ hat using hall
  have hmem : ∀ n, (at_ n).1 ∈ S := fun n => by
    refine hstep _ (at_ n).2 fun hnone => ?_
    have hn := hat (n + 1)
    rw [run_add, hat n, Option.bind_some] at hn
    simp [run, hnone] at hn
  -- some control state is met infinitely often; start where its counter is least
  have : Finite S := hS
  obtain ⟨c, hc⟩ := Finite.exists_infinite_fiber fun n : ℕ => (⟨_, hmem n⟩ : S)
  rw [Set.infinite_coe_iff] at hc
  obtain ⟨m, hm, hleast⟩ := exists_minimalFor_of_wellFoundedLT
    (fun n => n ∈ Set.preimage (fun n : ℕ => (⟨(at_ n).1, hmem n⟩ : S)) {c}) (fun n => (at_ n).2)
    hc.nonempty
  obtain ⟨n, hn, hmn⟩ := hc.exists_gt m
  have hle : (at_ m).2 ≤ (at_ n).2 := (le_total _ _).elim id fun h => hleast hn h
  have hcm : (at_ m).1 = c := congrArg Subtype.val hm
  have hcn : (at_ n).1 = c := congrArg Subtype.val hn
  refine ⟨m, n - m, c, (at_ m).2, (at_ n).2 - (at_ m).2, by omega, ?_, ?_⟩
  · rw [hat m, ← hcm]
  · have hrun := hat n
    rw [← Nat.add_sub_cancel' hmn.le, run_add, hat m, Option.bind_some] at hrun
    rw [Nat.add_sub_cancel' hle, ← hcm, hrun, Nat.add_sub_cancel' hmn.le, hcm, ← hcn]

/-- **When a run ends.**  With finitely many control states that have a step, a run ends
exactly if it does not recur. -/
theorem halts_iff {S : Set C} (hS : S.Finite) (hstep : ∀ c d, M.step c d ≠ none → c ∈ S)
    {s : C × ℕ} : M.Halts s ↔ ¬ M.Recurs s :=
  ⟨fun hhalts hrec => M.not_halts_of_recurs hrec hhalts,
    fun hrec => not_not.1 fun h => hrec (M.recurs_of_not_halts hS hstep h)⟩

end CounterMachine

end Sparkz.Lib
