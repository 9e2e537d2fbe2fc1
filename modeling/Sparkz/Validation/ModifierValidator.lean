import Mathlib

/-!
# The modifier validation

The model of `ValidationState` and `ValidationResult`.  Errors are objects: what
`getError` returns is either an object that there was before or a new exception,
which is equal to nothing but itself.  So an operation is a program that may make
error objects, and it is run as often as the source evaluates it.

* `pass`, `validate`, `validateSeq` — the operations.
* `pass_valid`, `pass_invalid` — what they do while errors are accumulated.
* `Accumulates` — the errors of a collection are accumulated once.  An element that
  fails after another one, or after an earlier error, is accumulated on top of a
  copy of all the errors before it (`pass_check_again`), or not at all.
-/

namespace Sparkz.Validation

/-! ## Results -/

/-- A `ModifierError`: an object that there was before the validation, compared as
its class does, or the exception that was made as the `n`-th one. -/
inductive ModifierError (E : Type)
  | given (e : E)
  | made (n : ℕ) (message : String) (isFatal : Bool)
deriving DecidableEq

/-- `ValidationResult[T]`, with errors of any type. -/
inductive ValidationResult (Err T : Type)
  | valid (value : T)
  | invalid (errors : List Err)

namespace ValidationResult

variable {Err T R : Type}

/-- `isValid`. -/
def isValid : ValidationResult Err T → Bool
  | .valid _ => true
  | .invalid _ => false

/-- `errors`. -/
def errors : ValidationResult Err T → List Err
  | .valid _ => []
  | .invalid errors => errors

/-- `Invalid(errors).accumulateErrors(next)`. -/
def accumulateErrors (errors : List Err) : ValidationResult Err T → ValidationResult Err T
  | .valid _ => .invalid errors
  | .invalid e2 => .invalid (errors ++ e2)

/-- `Invalid(errors) == operation`. -/
def isInvalidWith [DecidableEq Err] (errors : List Err) : ValidationResult Err T → Bool
  | .valid _ => false
  | .invalid e2 => errors = e2

/-- The same result with other errors. -/
def mapErrors {Err' : Type} (f : Err → Err') : ValidationResult Err T → ValidationResult Err' T
  | .valid value => .valid value
  | .invalid errors => .invalid (errors.map f)

end ValidationResult

/-- The error in what a call of `getError` returns: an object that there was before,
or a new exception. -/
inductive ErrorAnswer (E : Type)
  | given (e : E)
  | create (message : String) (isFatal : Bool)

/-- `ValidationSettings`. -/
structure ValidationSettings (E : Type) where
  isFailFast : Bool
  isActive : Int16 → Bool
  answer : Int16 → String → ErrorAnswer E

variable {E T R A : Type}

/-- The error object of an answer; the state is the number of errors made so far. -/
def ErrorAnswer.toError : ErrorAnswer E → StateM ℕ (ModifierError E)
  | .given e => pure (.given e)
  | .create message isFatal => fun n => (.made n message isFatal, n + 1)

/-- Is the error one that stands for the answer? -/
def ErrorAnswer.Gives : ErrorAnswer E → ModifierError E → Prop
  | .given e, error => error = .given e
  | .create message isFatal, error => ∃ n, error = .made n message isFatal

/-- `getError(id, details)`. -/
def ValidationSettings.getError (settings : ValidationSettings E) (id : Int16) (details : String) :
    StateM ℕ (ValidationResult (ModifierError E) T) := do
  let error ← (settings.answer id details).toError
  return .invalid [error]

/-! ## The validation state -/

/-- `ValidationState[T]`. -/
structure ValidationState (E T : Type) where
  result : ValidationResult (ModifierError E) T
  settings : ValidationSettings E

namespace ValidationState

variable [DecidableEq E]

/-- `pass(operation)`. -/
def pass (s : ValidationState E T) (operation : StateM ℕ (ValidationResult (ModifierError E) R)) :
    StateM ℕ (ValidationState E R) :=
  match s.result with
  | .valid _ => do return ⟨← operation, s.settings⟩
  | .invalid errors =>
      if s.settings.isFailFast then return ⟨.invalid errors, s.settings⟩
      else do
        if (← operation).isInvalidWith errors then return ⟨.invalid errors, s.settings⟩
        else return ⟨.accumulateErrors errors (← operation), s.settings⟩

/-- `validate(id, condition, details)`. -/
def validate (s : ValidationState E T) (id : Int16) (condition : Bool) (details : String) :
    StateM ℕ (ValidationState E T) :=
  s.pass (if !s.settings.isActive id || condition then return s.result
    else s.settings.getError id details)

/-- `validateSeq(seq)(operation)`. -/
def validateSeq (s : ValidationState E T) (seq : List A)
    (operation : ValidationState E T → A → StateM ℕ (ValidationResult (ModifierError E) T)) :
    StateM ℕ (ValidationState E T) :=
  seq.foldlM (fun state elem => state.pass (operation state elem)) s

/-- The operation `(s, x) => s.validate(id, p(x))`. -/
def check (id : Int16) (p : A → Bool) (s : ValidationState E T) (x : A) :
    StateM ℕ (ValidationResult (ModifierError E) T) := do
  return (← s.validate id (p x) "").result

/-! ## What the operations do -/

theorem pass_valid {s : ValidationState E T} {value : T} (h : s.result = .valid value)
    (operation : StateM ℕ (ValidationResult (ModifierError E) R)) (n : ℕ) :
    s.pass operation n = (⟨(operation n).1, s.settings⟩, (operation n).2) := by
  rw [pass, h]
  rfl

/-- While errors are accumulated, an operation on an invalid state runs a second time
unless its first run has returned the same errors. -/
theorem pass_invalid {s : ValidationState E T} {errors : List (ModifierError E)}
    (h : s.result = .invalid errors) (hslow : s.settings.isFailFast = false)
    (operation : StateM ℕ (ValidationResult (ModifierError E) R)) (n : ℕ) :
    s.pass operation n = if (operation n).1.isInvalidWith errors
      then (⟨.invalid errors, s.settings⟩, (operation n).2)
      else (⟨.accumulateErrors errors (operation (operation n).2).1, s.settings⟩,
        (operation (operation n).2).2) := by
  rw [pass, h, hslow]
  by_cases heq : (operation n).1.isInvalidWith errors = true
  · rw [if_pos heq]
    show (ite _ _ _ : StateM ℕ (ValidationState E R)) (operation n).2 = _
    rw [if_pos heq]
    rfl
  · rw [if_neg heq]
    show (ite _ _ _ : StateM ℕ (ValidationState E R)) (operation n).2 = _
    rw [if_neg heq]
    rfl

theorem validateSeq_cons (s : ValidationState E T) (x : A) (xs : List A)
    (operation : ValidationState E T → A → StateM ℕ (ValidationResult (ModifierError E) T))
    (n : ℕ) :
    s.validateSeq (x :: xs) operation n
      = (s.pass (operation s x) n).1.validateSeq xs operation (s.pass (operation s x) n).2 := by
  rw [validateSeq, List.foldlM_cons]
  rfl

theorem check_apply (id : Int16) (p : A → Bool) (s : ValidationState E T) (x : A) (n : ℕ) :
    check id p s x n
      = ((s.validate id (p x) "" n).1.result, (s.validate id (p x) "" n).2) := rfl

/-- An element that passes changes nothing. -/
theorem pass_check_of_pass {id : Int16} {p : A → Bool} {s : ValidationState E T} {x : A}
    (hslow : s.settings.isFailFast = false) (hx : p x = true) (n : ℕ) :
    s.pass (check id p s x) n = (s, n) := by
  have hcheck : check id p s x n = (s.result, n) := by
    rw [check_apply, validate, hx, Bool.or_true, if_pos rfl]
    cases hresult : s.result with
    | valid value =>
      rw [pass_valid hresult]
      rfl
    | invalid errors =>
      have hsame : ((pure (.invalid errors) : StateM ℕ (ValidationResult (ModifierError E) T))
          n).1.isInvalidWith errors = true := by
        simp [pure, StateT.pure, ValidationResult.isInvalidWith]
      rw [pass_invalid hresult hslow, if_pos hsame]
      rfl
  obtain ⟨result, settings⟩ := s
  cases result with
  | valid value => rw [pass_valid rfl, hcheck]
  | invalid errors =>
    rw [pass_invalid rfl hslow, hcheck, if_pos (by simp [ValidationResult.isInvalidWith])]

/-! ## An element that fails -/

/-- The errors are there: none of them is still to be made. -/
def Known (errors : List (ModifierError E)) (n : ℕ) : Prop :=
  ∀ k message isFatal, .made k message isFatal ∈ errors → k < n

/-- The answer is an object that there was before, and the only error so far. -/
def Repeats (answer : ErrorAnswer E) (errors : List (ModifierError E)) : Prop :=
  ∃ e, answer = .given e ∧ errors = [.given e]

section

omit [DecidableEq E]

/-- What is made next is an error of the answer and is there afterwards. -/
theorem toError_spec (answer : ErrorAnswer E) (n : ℕ) :
    answer.Gives (answer.toError n).1 ∧ n ≤ (answer.toError n).2
    ∧ Known [(answer.toError n).1] (answer.toError n).2 := by
  cases answer with
  | given e =>
    refine ⟨rfl, le_refl n, ?_⟩
    intro k message isFatal hmem
    cases List.mem_singleton.1 hmem
  | create message isFatal =>
    refine ⟨⟨n, rfl⟩, Nat.le_succ n, ?_⟩
    intro k message' isFatal' hmem
    cases List.mem_singleton.1 hmem
    exact Nat.lt_succ_self n

/-- A new error is not one of those that are there. -/
theorem toError_ne {answer : ErrorAnswer E} {errors : List (ModifierError E)} {n : ℕ}
    (hknown : Known errors n) (hnot : ¬ Repeats answer errors) {m : ℕ} (hm : n ≤ m) :
    [(answer.toError m).1] ≠ errors := by
  rintro rfl
  cases answer with
  | given e => exact hnot ⟨e, rfl, rfl⟩
  | create message isFatal =>
    have := hknown m message isFatal (List.mem_singleton.2 rfl)
    omega

theorem Known.append {errors more : List (ModifierError E)} {n m : ℕ} (h : Known errors n)
    (hmore : Known more m) (hle : n ≤ m) : Known (errors ++ more) m := by
  intro k message isFatal hmem
  rcases List.mem_append.1 hmem with hmem | hmem
  · exact (h k message isFatal hmem).trans_le hle
  · exact hmore k message isFatal hmem

end

section Failing

variable {id : Int16} {p : A → Bool} {s : ValidationState E T} {x : A}
  {errors : List (ModifierError E)} {n : ℕ}

/-- A failing condition asks for the error. -/
theorem validate_of_fail (hactive : s.settings.isActive id = true) (hx : p x = false) :
    s.validate id (p x) ""
      = s.pass (s.settings.getError id "" : StateM ℕ (ValidationResult _ T)) := by
  rw [validate, hactive, hx]
  rfl

omit [DecidableEq E] in
theorem getError_apply (settings : ValidationSettings E) (n : ℕ) :
    (settings.getError id "" : StateM ℕ (ValidationResult _ T)) n
      = (.invalid [((settings.answer id "").toError n).1],
          ((settings.answer id "").toError n).2) := rfl

/-- After no error, an element that fails leaves its error. -/
theorem pass_check_first (hslow : s.settings.isFailFast = false)
    (hactive : s.settings.isActive id = true) (hx : p x = false) (hnone : s.result.errors = []) :
    ∃ e m, s.pass (check id p s x) n = (⟨.invalid [e], s.settings⟩, m)
      ∧ (s.settings.answer id "").Gives e ∧ Known [e] m := by
  set answer := s.settings.answer id "" with hanswer
  cases hresult : s.result with
  | valid value =>
    obtain ⟨hgives, _, hknown⟩ := toError_spec answer n
    refine ⟨(answer.toError n).1, (answer.toError n).2, ?_, hgives, hknown⟩
    rw [pass_valid hresult, check_apply, validate_of_fail hactive hx, pass_valid hresult,
      getError_apply]
  | invalid errors =>
    obtain rfl : errors = [] := by
      rw [hresult] at hnone
      exact hnone
    have hcheck : ∀ n, ∃ e m, check id p s x n = (.invalid [e], m)
        ∧ answer.Gives e ∧ Known [e] m := by
      intro n
      obtain ⟨hgives, _, hknown⟩ := toError_spec answer (answer.toError n).2
      refine ⟨_, _, ?_, hgives, hknown⟩
      rw [check_apply, validate_of_fail hactive hx, pass_invalid hresult hslow, getError_apply,
        if_neg (by simp [ValidationResult.isInvalidWith]), getError_apply]
      rfl
    obtain ⟨e, m, hfirst, _, _⟩ := hcheck n
    obtain ⟨e', m', hsecond, hgives, hknown⟩ := hcheck m
    refine ⟨e', m', ?_, hgives, hknown⟩
    rw [pass_invalid hresult hslow, hfirst, if_neg (by simp [ValidationResult.isInvalidWith]),
      hsecond]
    rfl

/-- The check of a failing element on an invalid state. -/
theorem check_fail (hslow : s.settings.isFailFast = false)
    (hactive : s.settings.isActive id = true) (hx : p x = false)
    (hresult : s.result = .invalid errors) (hknown : Known errors n)
    (hnot : ¬ Repeats (s.settings.answer id "") errors) {m : ℕ} (hm : n ≤ m) :
    ∃ e m', check id p s x m = (.invalid (errors ++ [e]), m') ∧ m ≤ m' ∧ Known [e] m' := by
  set answer := s.settings.answer id "" with hanswer
  obtain ⟨_, hle, _⟩ := toError_spec answer m
  obtain ⟨_, hle', hnew⟩ := toError_spec answer (answer.toError m).2
  refine ⟨_, _, ?_, hle.trans hle', hnew⟩
  have hne := (toError_ne hknown hnot hm).symm
  rw [check_apply, validate_of_fail hactive hx, pass_invalid hresult hslow, getError_apply,
    if_neg (by simpa [ValidationResult.isInvalidWith, eq_comm] using hne), getError_apply]
  rfl

/-- After an error, an element that fails is accumulated on top of a copy of all the
errors: the operation starts from the errors of the state, and they are accumulated
with what it returns. -/
theorem pass_check_again (hslow : s.settings.isFailFast = false)
    (hactive : s.settings.isActive id = true) (hx : p x = false)
    (hresult : s.result = .invalid errors) (hknown : Known errors n)
    (hnot : ¬ Repeats (s.settings.answer id "") errors) :
    ∃ e m, s.pass (check id p s x) n = (⟨.invalid (errors ++ (errors ++ [e])), s.settings⟩, m)
      ∧ Known (errors ++ (errors ++ [e])) m := by
  obtain ⟨e, m, hfirst, hle, _⟩ := check_fail hslow hactive hx hresult hknown hnot (le_refl n)
  obtain ⟨e', m', hsecond, hle', hnew⟩ := check_fail hslow hactive hx hresult hknown hnot hle
  have hall := hle.trans hle'
  refine ⟨e', m', ?_, hknown.append (hknown.append hnew hall) hall⟩
  rw [pass_invalid hresult hslow, hfirst, if_neg (by simp [ValidationResult.isInvalidWith]),
    hsecond]
  rfl

/-- An error object that is the only one so far is not accumulated again. -/
theorem pass_check_repeats (hslow : s.settings.isFailFast = false)
    (hactive : s.settings.isActive id = true) (hx : p x = false)
    (hresult : s.result = .invalid errors) (hsame : Repeats (s.settings.answer id "") errors) :
    s.pass (check id p s x) n = (s, n) := by
  obtain ⟨e, hanswer, rfl⟩ := hsame
  have hcheck : check id p s x n = (.invalid [.given e], n) := by
    rw [check_apply, validate_of_fail hactive hx, pass_invalid hresult hslow, getError_apply,
      hanswer]
    simp [ErrorAnswer.toError, pure, StateT.pure, ValidationResult.isInvalidWith]
  rw [pass_invalid hresult hslow, hcheck, if_pos (by simp [ValidationResult.isInvalidWith]),
    ← hresult]

end Failing

/-! ## Collections -/

/-- The elements that fail. -/
def failing (p : A → Bool) (xs : List A) : List A := xs.filter fun x => !p x

theorem failing_cons_pass {p : A → Bool} {x : A} (hx : p x = true) (xs : List A) :
    failing p (x :: xs) = failing p xs := by
  simp [failing, hx]

theorem failing_cons_fail {p : A → Bool} {x : A} (hx : p x = false) (xs : List A) :
    failing p (x :: xs) = x :: failing p xs := by
  simp [failing, hx]

theorem failing_eq_nil {p : A → Bool} {xs : List A} :
    failing p xs = [] ↔ ∀ x ∈ xs, p x = true := by
  simp [failing]

section Collections

variable {id : Int16} {p : A → Bool}

/-- Elements that pass change nothing. -/
theorem validateSeq_pass {s : ValidationState E T} (hslow : s.settings.isFailFast = false)
    {xs : List A} (hxs : ∀ x ∈ xs, p x = true) (n : ℕ) :
    s.validateSeq xs (check id p) n = (s, n) := by
  induction xs with
  | nil => rfl
  | cons x xs ih =>
    rw [validateSeq_cons, pass_check_of_pass hslow (hxs x List.mem_cons_self)]
    exact ih fun y hy => hxs y (List.mem_cons_of_mem _ hy)

/-- An only error object that is not accumulated again stays the only one. -/
theorem validateSeq_repeats {s : ValidationState E T} (hslow : s.settings.isFailFast = false)
    (hactive : s.settings.isActive id = true) {errors : List (ModifierError E)}
    (hresult : s.result = .invalid errors) (hsame : Repeats (s.settings.answer id "") errors)
    (xs : List A) (n : ℕ) : s.validateSeq xs (check id p) n = (s, n) := by
  induction xs with
  | nil => rfl
  | cons x xs ih =>
    have hstep : s.pass (check id p s x) n = (s, n) := by
      cases hx : p x with
      | true => exact pass_check_of_pass hslow hx n
      | false => exact pass_check_repeats hslow hactive hx hresult hsame
    rw [validateSeq_cons, hstep]
    exact ih

/-- From some errors on, elements that fail leave more errors than one each. -/
theorem validateSeq_grows {s : ValidationState E T} (hslow : s.settings.isFailFast = false)
    (hactive : s.settings.isActive id = true) {errors : List (ModifierError E)}
    (hresult : s.result = .invalid errors) (hne : errors ≠ []) {n : ℕ} (hknown : Known errors n)
    (hnot : ¬ Repeats (s.settings.answer id "") errors) (xs : List A) :
    ∃ errors', (s.validateSeq xs (check id p) n).1.result = .invalid errors'
      ∧ (failing p xs = [] ∧ errors' = errors
        ∨ failing p xs ≠ [] ∧ errors.length + (failing p xs).length < errors'.length) := by
  induction xs generalizing s errors n with
  | nil => exact ⟨errors, hresult, .inl ⟨rfl, rfl⟩⟩
  | cons x xs ih =>
    rw [validateSeq_cons]
    cases hx : p x with
    | true =>
      rw [pass_check_of_pass hslow hx, failing_cons_pass hx]
      exact ih hslow hactive hresult hne hknown hnot
    | false =>
      obtain ⟨e, m, hstep, hknown'⟩ := pass_check_again hslow hactive hx hresult hknown hnot
      have hpos := List.length_pos_iff.2 hne
      have hlen : (errors ++ (errors ++ [e])).length = 2 * errors.length + 1 := by
        simp only [List.length_append, List.length_singleton]
        omega
      have hnot' : ¬ Repeats (s.settings.answer id "") (errors ++ (errors ++ [e])) := by
        rintro ⟨g, _, heq⟩
        rw [heq, List.length_singleton] at hlen
        omega
      have hne' : errors ++ (errors ++ [e]) ≠ [] := by simp
      obtain ⟨errors', hresult', hmore⟩ :=
        ih (s := ⟨.invalid (errors ++ (errors ++ [e])), s.settings⟩) hslow hactive rfl hne' hknown'
          hnot'
      rw [hstep, failing_cons_fail hx]
      refine ⟨errors', hresult', .inr ⟨List.cons_ne_nil _ _, ?_⟩⟩
      rw [List.length_cons]
      rcases hmore with ⟨hnil, rfl⟩ | ⟨_, hmore⟩
      · rw [hnil, hlen, List.length_nil]
        omega
      · omega

/-- From some errors on, the errors are one more for each element that fails only if
none does. -/
theorem validateSeq_invalid {s : ValidationState E T} (hslow : s.settings.isFailFast = false)
    (hactive : s.settings.isActive id = true) {errors : List (ModifierError E)}
    (hresult : s.result = .invalid errors) (hne : errors ≠ []) {n : ℕ} (hknown : Known errors n)
    (xs : List A) :
    ∃ errors', (s.validateSeq xs (check id p) n).1.result = .invalid errors'
      ∧ (failing p xs = [] ∧ errors' = errors
        ∨ failing p xs ≠ [] ∧ errors'.length ≠ errors.length + (failing p xs).length) := by
  by_cases hsame : Repeats (s.settings.answer id "") errors
  · refine ⟨errors, ?_, ?_⟩
    · rw [validateSeq_repeats hslow hactive hresult hsame]
      exact hresult
    · rcases eq_or_ne (failing p xs) [] with hnil | hsome
      · exact .inl ⟨hnil, rfl⟩
      · have := List.length_pos_iff.2 hsome
        exact .inr ⟨hsome, by omega⟩
  · obtain ⟨errors', hresult', hmore⟩ :=
      validateSeq_grows (p := p) hslow hactive hresult hne hknown hsame xs
    refine ⟨errors', hresult', hmore.imp_right ?_⟩
    rintro ⟨hsome, hlt⟩
    exact ⟨hsome, by omega⟩

/-- After no error, the errors are one for each element that fails only if at most one
does. -/
theorem validateSeq_clean {s : ValidationState E T} (hslow : s.settings.isFailFast = false)
    (hactive : s.settings.isActive id = true) (hnone : s.result.errors = []) (n : ℕ) (xs : List A)
    (hsome : failing p xs ≠ []) :
    ∃ errors', (s.validateSeq xs (check id p) n).1.result = .invalid errors'
      ∧ ((failing p xs).length = 1 ∧ (∃ e, errors' = [e] ∧ (s.settings.answer id "").Gives e)
        ∨ (failing p xs).length ≠ 1 ∧ errors'.length ≠ (failing p xs).length) := by
  induction xs with
  | nil => exact absurd rfl hsome
  | cons x xs ih =>
    rw [validateSeq_cons]
    cases hx : p x with
    | true =>
      rw [pass_check_of_pass hslow hx, failing_cons_pass hx] at *
      exact ih hsome
    | false =>
      obtain ⟨e, m, hstep, hgives, hknown⟩ := pass_check_first hslow hactive hx hnone
      obtain ⟨errors', hresult', hmore⟩ :=
        validateSeq_invalid (p := p) (s := ⟨.invalid [e], s.settings⟩) hslow hactive rfl
          (List.cons_ne_nil _ _) hknown xs
      rw [hstep, failing_cons_fail hx, List.length_cons]
      refine ⟨errors', hresult', ?_⟩
      rcases hmore with ⟨hnil, rfl⟩ | ⟨hmany, hlen⟩
      · refine .inl ⟨?_, e, rfl, hgives⟩
        rw [hnil]
        rfl
      · have := List.length_pos_iff.2 hmany
        rw [List.length_singleton] at hlen
        exact .inr ⟨by omega, by omega⟩

end Collections

/-- The collection is validated from a result whose errors are there already: its errors
are then followed by one of the rule for each element that fails, in order, and the
result is valid exactly if it was and no element fails. -/
def Accumulates (settings : ValidationSettings E) (result : ValidationResult E T) (id : Int16)
    (p : A → Bool) (xs : List A) (n : ℕ) : Prop :=
  let start : ValidationState E T := ⟨result.mapErrors .given, settings⟩
  let final := (start.validateSeq xs (check id p) n).1.result
  (∃ new, final.errors = result.errors.map .given ++ new
    ∧ List.Forall₂ (fun _ error => (settings.answer id "").Gives error) (failing p xs) new)
  ∧ (final.isValid = true ↔ result.isValid = true ∧ ∀ x ∈ xs, p x = true)

section

omit [DecidableEq E]

theorem errors_mapErrors (result : ValidationResult E T) :
    (result.mapErrors (ModifierError.given (E := E))).errors = result.errors.map .given := by
  cases result <;> rfl

theorem isValid_mapErrors (result : ValidationResult E T) :
    (result.mapErrors (ModifierError.given (E := E))).isValid = result.isValid := by
  cases result <;> rfl

end

/-- In error-accumulating mode the errors of a collection are accumulated once exactly if
no element fails, or one does and there was no error before. -/
theorem accumulates_iff (settings : ValidationSettings E) (hslow : settings.isFailFast = false)
    (result : ValidationResult E T) (id : Int16) (hactive : settings.isActive id = true)
    (p : A → Bool) (xs : List A) (n : ℕ) :
    Accumulates settings result id p xs n
      ↔ failing p xs = [] ∨ result.errors = [] ∧ (failing p xs).length = 1 := by
  set start : ValidationState E T := ⟨result.mapErrors .given, settings⟩ with hstart
  have herrors : start.result.errors = result.errors.map .given := errors_mapErrors result
  rcases eq_or_ne (failing p xs) [] with hnil | hsome
  · refine ⟨fun _ => .inl hnil, fun _ => ?_⟩
    have hpass := failing_eq_nil.1 hnil
    rw [Accumulates, validateSeq_pass hslow hpass]
    refine ⟨⟨[], ?_, ?_⟩, ?_⟩
    · rw [List.append_nil]
      exact herrors
    · rw [hnil]
      exact List.Forall₂.nil
    · rw [isValid_mapErrors]
      exact ⟨fun h => ⟨h, hpass⟩, fun h => h.1⟩
  · have hfails : ¬ ∀ x ∈ xs, p x = true := fun h => hsome (failing_eq_nil.2 h)
    rcases eq_or_ne result.errors [] with hnone | herr
    · rw [hnone, List.map_nil] at herrors
      obtain ⟨errors', hresult', hmore⟩ := validateSeq_clean hslow hactive herrors n xs hsome
      rw [Accumulates, hresult', hnone]
      simp only [hsome, false_or, true_and, ValidationResult.errors, ValidationResult.isValid,
        List.map_nil, List.nil_append, exists_eq_left']
      rcases hmore with ⟨hone, e, rfl, hgives⟩ | ⟨hmany, hlen⟩
      · obtain ⟨x, hx⟩ := List.length_eq_one_iff.1 hone
        refine ⟨fun _ => hone, fun _ => ⟨?_, ?_⟩⟩
        · rw [hx]
          exact List.Forall₂.cons hgives List.Forall₂.nil
        · simp [hfails]
      · refine ⟨fun h => absurd h.1.length_eq.symm hlen, fun h => absurd h hmany⟩
    · refine ⟨fun h => ?_, fun h => ?_⟩
      · have hresult : start.result = .invalid (result.errors.map .given) := by
          cases result with
          | valid value => exact absurd rfl herr
          | invalid errors => rfl
        have hknown : Known (result.errors.map ModifierError.given) n := by
          intro k message isFatal hmem
          simp at hmem
        obtain ⟨errors', hresult', hmore⟩ := validateSeq_invalid (p := p) hslow hactive hresult
          (by simpa using herr) hknown xs
        obtain ⟨⟨new, hnew, hall⟩, _⟩ := h
        rw [hresult'] at hnew
        have hlen := congrArg List.length hnew
        rw [List.length_append, ← hall.length_eq] at hlen
        rcases hmore with ⟨hnil, _⟩ | ⟨_, hmore⟩
        · exact absurd hnil hsome
        · exact absurd hlen hmore
      · rcases h with hnil | ⟨hnone, _⟩
        · exact absurd hnil hsome
        · exact absurd hnone herr

/-- Settings that accumulate the errors of their only rule, each a new exception. -/
def oneRule : ValidationSettings Empty := ⟨false, fun _ => true, fun _ _ => .create "Error" true⟩

theorem accumulates_one :
    oneRule.isFailFast = false ∧ oneRule.isActive 1 = true
    ∧ Accumulates oneRule (.valid ()) 1 (fun b => b) [true, false, true] 0 :=
  ⟨rfl, rfl, (accumulates_iff oneRule rfl (.valid ()) 1 rfl (fun b => b) [true, false, true] 0).2
    (.inr ⟨rfl, rfl⟩)⟩

/-- Two elements that fail leave three errors: the first one is there twice. -/
theorem not_accumulates_two :
    ((⟨.valid (), oneRule⟩ : ValidationState Empty Unit).validateSeq [false, false]
        (check 1 fun b => b) 0).1.result
      = .invalid [.made 0 "Error" true, .made 0 "Error" true, .made 4 "Error" true]
    ∧ ¬ Accumulates oneRule (.valid ()) 1 (fun b => b) [false, false] 0 := by
  have hrun : ((⟨.valid (), oneRule⟩ : ValidationState Empty Unit).validateSeq [false, false]
        (check 1 fun b => b) 0).1.result
      = .invalid [.made 0 "Error" true, .made 0 "Error" true, .made 4 "Error" true] := rfl
  refine ⟨hrun, ?_⟩
  intro h
  obtain ⟨⟨new, hnew, hall⟩, _⟩ := h
  rw [ValidationResult.mapErrors, hrun] at hnew
  have hlen := congrArg List.length hnew
  rw [List.length_append, ← hall.length_eq] at hlen
  exact absurd hlen (by decide)

end ValidationState

end Sparkz.Validation
