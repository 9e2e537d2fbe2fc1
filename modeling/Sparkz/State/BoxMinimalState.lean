import Mathlib

/-!
# Validating box transactions

The model of `BoxMinimalState.validate(tx)`: a transaction opens closed boxes of the state
and makes new ones.

* `validate` — the sums are taken in 64-bit arithmetic, as the code takes them.
* `validate_eq_ok` — exactly when a transaction is accepted.
* `Conserves` — what the doc comment of `validate` asks for, over exact integers.
* `validate_conserves_iff` — accepted transactions conserve value exactly where no box is
  opened twice, the fee is not negative and the sums do not wrap around.
-/

namespace Sparkz.State

/-- `Box`: its value and the proposition that locks it. -/
structure Box (P : Type) where
  value : Int64
  proposition : P

/-- `Proof`, by its method: is the proposition proved, for this message? -/
structure Proof (P : Type) where
  isValid : P → List UInt8 → Bool

/-- `BoxUnlocker`. -/
structure BoxUnlocker (P : Type) where
  closedBoxId : List UInt8
  boxKey : Proof P

/-- `BoxTransaction`, with the message that the proofs are made for. -/
structure BoxTransaction (P : Type) where
  unlockers : List (BoxUnlocker P)
  newBoxes : List (Box P)
  fee : Int64
  messageToSign : List UInt8

/-- Why `validate` fails. -/
inductive ValidationError (E P : Type) where
  /-- "Incorrect unlocker" -/
  | incorrectUnlocker
  /-- "Box for unlocker $unlocker is not in the state" -/
  | notInState (unlocker : BoxUnlocker P)
  /-- "Negative fee": the sums differ. -/
  | negativeFee
  | semantic (e : E)

/-- `BoxMinimalState`: the closed boxes of the state and its semantic rules. -/
structure BoxMinimalState (E P : Type) where
  closedBox : List UInt8 → Option (Box P)
  semanticValidity : BoxTransaction P → Except E Unit

namespace BoxMinimalState

variable {E P : Type} (state : BoxMinimalState E P) (tx : BoxTransaction P)

/-- The value of the box that an unlocker opens. -/
def unlockedValue (unlocker : BoxUnlocker P) : Except (ValidationError E P) Int64 :=
  match state.closedBox unlocker.closedBoxId with
  | some box =>
      if unlocker.boxKey.isValid box.proposition tx.messageToSign then .ok box.value
      else .error .incorrectUnlocker
  | none => .error (.notInState unlocker)

/-- One turn of the fold over the unlockers. -/
def addUnlocked (partialRes : Except (ValidationError E P) Int64) (unlocker : BoxUnlocker P) :
    Except (ValidationError E P) Int64 := do
  let partialSum ← partialRes
  let value ← unlockedValue state tx unlocker
  return partialSum + value

/-- `boxesSumTry`. -/
def boxesSum : Except (ValidationError E P) Int64 :=
  tx.unlockers.foldl (addUnlocked state tx) (.ok 0)

/-- `validate(tx)`. -/
def validate : Except (ValidationError E P) Unit := do
  let openSum ← boxesSum state tx
  if (tx.newBoxes.map Box.value).sum = openSum - tx.fee then
    match state.semanticValidity tx with
    | .ok () => return ()
    | .error e => throw (.semantic e)
  else throw .negativeFee

/-! ## What is accepted -/

/-- The unlocker names a box that is closed in the state, and its key opens it. -/
def Unlocks (unlocker : BoxUnlocker P) : Prop :=
  ∃ box, state.closedBox unlocker.closedBoxId = some box ∧
    unlocker.boxKey.isValid box.proposition tx.messageToSign = true

/-- The exact value of the box that an unlocker names. -/
def openedValue (unlocker : BoxUnlocker P) : ℤ :=
  ((state.closedBox unlocker.closedBoxId).map fun box => box.value.toInt).getD 0

/-- The exact sum of the opened boxes. -/
def openedSum : ℤ := (tx.unlockers.map state.openedValue).sum

/-- The exact sum of the new boxes. -/
def newSum (tx : BoxTransaction P) : ℤ := (tx.newBoxes.map fun box => box.value.toInt).sum

/-- What is opened and is neither in a new box nor paid as the fee. -/
def difference : ℤ := state.openedSum tx - newSum tx - tx.fee.toInt

variable {state tx}

theorem unlockedValue_eq_ok {unlocker : BoxUnlocker P} {value : Int64} :
    unlockedValue state tx unlocker = .ok value ↔
      Unlocks state tx unlocker ∧ value = Int64.ofInt (state.openedValue unlocker) := by
  unfold unlockedValue Unlocks openedValue
  cases state.closedBox unlocker.closedBoxId with
  | none => simp
  | some box =>
    by_cases hvalid : unlocker.boxKey.isValid box.proposition tx.messageToSign = true
    · simp only [hvalid, if_true, Except.ok.injEq, Option.map_some, Option.getD_some,
        Int64.ofInt_toInt]
      exact ⟨fun h => ⟨⟨box, rfl, hvalid⟩, h.symm⟩, fun h => h.2.symm⟩
    · simp [hvalid]

theorem addUnlocked_eq_ok {partialRes : Except (ValidationError E P) Int64}
    {unlocker : BoxUnlocker P} {sum : Int64} :
    addUnlocked state tx partialRes unlocker = .ok sum ↔
      Unlocks state tx unlocker ∧
        ∃ s, partialRes = .ok s ∧ sum = s + Int64.ofInt (state.openedValue unlocker) := by
  cases partialRes with
  | error e =>
    constructor
    · intro h
      cases h
    · rintro ⟨-, s, hs, -⟩
      cases hs
  | ok s =>
    show (unlockedValue state tx unlocker >>= fun value => pure (s + value)) = .ok sum ↔ _
    cases hvalue : unlockedValue state tx unlocker with
    | error e =>
      constructor
      · intro h
        cases h
      · rintro ⟨hunlocks, -⟩
        rw [unlockedValue_eq_ok.2 ⟨hunlocks, rfl⟩] at hvalue
        cases hvalue
    | ok value =>
      obtain ⟨hunlocks, rfl⟩ := unlockedValue_eq_ok.1 hvalue
      constructor
      · intro h
        exact ⟨hunlocks, s, rfl, (Except.ok.inj h).symm⟩
      · rintro ⟨-, s', hs, rfl⟩
        obtain rfl := Except.ok.inj hs
        rfl

/-- The fold gives the sum of the opened boxes as a word. -/
theorem foldl_addUnlocked_eq_ok {unlockers : List (BoxUnlocker P)}
    {partialRes : Except (ValidationError E P) Int64} {sum : Int64} :
    unlockers.foldl (addUnlocked state tx) partialRes = .ok sum ↔
      (∀ unlocker ∈ unlockers, Unlocks state tx unlocker) ∧
        ∃ s, partialRes = .ok s ∧
          sum = s + Int64.ofInt (unlockers.map state.openedValue).sum := by
  induction unlockers generalizing partialRes with
  | nil =>
    rw [List.foldl_nil, List.map_nil, List.sum_nil]
    constructor
    · intro h
      exact ⟨fun _ hmem => absurd hmem (List.not_mem_nil), sum, h, by simp⟩
    · rintro ⟨-, s, rfl, rfl⟩
      simp
  | cons unlocker unlockers ih =>
    rw [List.foldl_cons, ih, List.map_cons, List.sum_cons, Int64.ofInt_add, List.forall_mem_cons]
    constructor
    · rintro ⟨hall, s, hs, rfl⟩
      obtain ⟨hunlocks, s', rfl, rfl⟩ := addUnlocked_eq_ok.1 hs
      exact ⟨⟨hunlocks, hall⟩, s', rfl, by rw [Int64.add_assoc]⟩
    · rintro ⟨⟨hunlocks, hall⟩, s, rfl, rfl⟩
      exact ⟨hall, _, addUnlocked_eq_ok.2 ⟨hunlocks, s, rfl, rfl⟩, by rw [Int64.add_assoc]⟩

theorem sum_values (boxes : List (Box P)) :
    (boxes.map Box.value).sum = Int64.ofInt (boxes.map fun box => box.value.toInt).sum := by
  induction boxes with
  | nil => rfl
  | cons box boxes ih =>
    rw [List.map_cons, List.sum_cons, List.map_cons, List.sum_cons, Int64.ofInt_add,
      Int64.ofInt_toInt, ih]

theorem ofInt_eq_ofInt_iff (m n : ℤ) : Int64.ofInt m = Int64.ofInt n ↔ (2 ^ 64 : ℤ) ∣ m - n := by
  rw [← Int64.toInt_inj, Int64.toInt_ofInt, Int64.toInt_ofInt,
    Int.bmod_eq_bmod_iff_bmod_sub_eq_zero]
  constructor
  · intro h
    exact Int.dvd_of_bmod_eq_zero h
  · intro h
    exact Int.bmod_eq_zero_of_dvd h

/-- **What is accepted**: every unlocker opens a closed box, the sums agree up to multiples
of 2^64, and the semantic rules agree. -/
theorem validate_eq_ok :
    validate state tx = .ok () ↔
      (∀ unlocker ∈ tx.unlockers, Unlocks state tx unlocker) ∧
        (2 ^ 64 : ℤ) ∣ state.difference tx ∧ state.semanticValidity tx = .ok () := by
  have hsums : ∀ openSum : Int64, openSum = 0 + Int64.ofInt (state.openedSum tx) →
      ((tx.newBoxes.map Box.value).sum = openSum - tx.fee
        ↔ (2 ^ 64 : ℤ) ∣ state.difference tx) := by
    rintro openSum rfl
    have hdifference : state.difference tx
        = state.openedSum tx - tx.fee.toInt - newSum tx := by
      rw [difference]
      omega
    have hopen : 0 + Int64.ofInt (state.openedSum tx) - tx.fee
        = Int64.ofInt (state.openedSum tx - tx.fee.toInt) := by
      rw [Int64.ofInt_sub, Int64.ofInt_toInt, Int64.zero_add]
    rw [sum_values, hopen, hdifference, eq_comm, ofInt_eq_ofInt_iff]
    rfl
  unfold validate boxesSum
  cases hsum : tx.unlockers.foldl (addUnlocked state tx) (.ok 0) with
  | error e =>
    constructor
    · intro h
      cases h
    · rintro ⟨hall, -⟩
      rw [foldl_addUnlocked_eq_ok.2 ⟨hall, 0, rfl, rfl⟩] at hsum
      cases hsum
  | ok openSum =>
    obtain ⟨hall, s, hs, hopen⟩ := foldl_addUnlocked_eq_ok.1 hsum
    obtain rfl := Except.ok.inj hs
    show (if _ then _ else _) = _ ↔ _
    by_cases hequal : (tx.newBoxes.map Box.value).sum = openSum - tx.fee
    · rw [if_pos hequal]
      have hdvd := (hsums openSum hopen).1 hequal
      cases hsemantic : state.semanticValidity tx with
      | ok u => exact ⟨fun _ => ⟨hall, hdvd, rfl⟩, fun _ => rfl⟩
      | error e =>
        constructor
        · intro h
          cases h
        · rintro ⟨-, -, h⟩
          cases h
    · rw [if_neg hequal]
      constructor
      · intro h
        cases h
      · rintro ⟨-, hdvd, -⟩
        exact absurd ((hsums openSum hopen).2 hdvd) hequal

/-! ## Where value is conserved -/

/-- What the doc comment of `validate` asks for: the boxes that are opened are closed in the
state, their keys validate, none is named twice, the fee is not negative, and over exact
integers nothing is gained or lost. -/
structure Conserves (state : BoxMinimalState E P) (tx : BoxTransaction P) : Prop where
  unlocks : ∀ unlocker ∈ tx.unlockers, Unlocks state tx unlocker
  distinct : (tx.unlockers.map BoxUnlocker.closedBoxId).Nodup
  fee : 0 ≤ tx.fee.toInt
  sums : state.openedSum tx = newSum tx + tx.fee.toInt

/-- **Where accepted transactions conserve value**: exactly where the transaction names no
box twice, its fee is not negative and the exact difference of the sums is below 2^64 - or
where it is refused anyway, as an unlocker does not open a closed box, as the difference is
no multiple of 2^64 or by the semantic rules. -/
theorem validate_conserves_iff (state : BoxMinimalState E P) (tx : BoxTransaction P) :
    (validate state tx = .ok () → Conserves state tx) ↔
      ((tx.unlockers.map BoxUnlocker.closedBoxId).Nodup ∧ 0 ≤ tx.fee.toInt ∧
          |state.difference tx| < 2 ^ 64) ∨
        (∃ unlocker ∈ tx.unlockers, ¬Unlocks state tx unlocker) ∨
        ¬(2 ^ 64 : ℤ) ∣ state.difference tx ∨ state.semanticValidity tx ≠ .ok () := by
  rw [validate_eq_ok]
  constructor
  · intro h
    by_cases haccepted : (∀ unlocker ∈ tx.unlockers, Unlocks state tx unlocker) ∧
        (2 ^ 64 : ℤ) ∣ state.difference tx ∧ state.semanticValidity tx = .ok ()
    · have hconserves := h haccepted
      refine .inl ⟨hconserves.distinct, hconserves.fee, ?_⟩
      have hzero : state.difference tx = 0 := by
        rw [difference, hconserves.sums]
        omega
      rw [hzero, abs_zero]
      norm_num
    · refine .inr ?_
      by_contra hnot
      push Not at hnot
      exact haccepted hnot
  · rintro (⟨hdistinct, hfee, hsmall⟩ | hrefused) ⟨hall, hdvd, hsemantic⟩
    · refine ⟨hall, hdistinct, hfee, ?_⟩
      have hzero : state.difference tx = 0 := Int.eq_zero_of_abs_lt_dvd hdvd hsmall
      rw [difference] at hzero
      omega
    · obtain ⟨unlocker, hmem, hnot⟩ | hdvd' | hsemantic' := hrefused
      · exact absurd (hall unlocker hmem) hnot
      · exact absurd hdvd hdvd'
      · exact absurd hsemantic hsemantic'

/-- A state without boxes and without rules of its own. -/
def noBoxes : BoxMinimalState Unit Unit := ⟨fun _ => none, fun _ => .ok ()⟩

/-- A transaction that opens nothing: its negative fee pays for a new box. -/
def negativeFee : BoxTransaction Unit := ⟨[], [⟨10, ()⟩], -10, []⟩

/-- A transaction is accepted that makes a box out of a negative fee. -/
theorem validate_creates_value :
    ¬∀ (state : BoxMinimalState Unit Unit) (tx : BoxTransaction Unit),
      validate state tx = .ok () → Conserves state tx := by
  intro h
  exact absurd (h noBoxes negativeFee rfl).fee (by decide)

end BoxMinimalState

end Sparkz.State
