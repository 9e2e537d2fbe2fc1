import Sparkz.Lib.Records
import Sparkz.Avl.SnapshotCodec
import Sparkz.Legacy.Soundness

/-!
# The bytes of the legacy proofs

* `AVLModifyProof.bytes`, `AVLModifyProof.parseBytes` — the two directions.  The reader
  finds the steps of the way at multiples of 33 bytes, for whatever digest size.
* `Step`, `AVLTree.run_elements` — the elements of a proof that `run` returns.
* `bytes_eq` — what is written for them.
* `parseBytes_written_iff`, `parseBytes_bytes_iff` — when it is read back.
-/

namespace Sparkz.Legacy

open Sparkz.Lib Sparkz.Lib.LeafTree Sparkz.Avl

/-- What `bytes` and `parseBytes` can fail with. -/
inductive CodecError where
  | indexOutOfBounds
  | noSuchElement
  | classCast
  | matchError
  | assertionFailed
  | incorrectDirectionInInternalNode
  | incorrectDirectionInLeaf
  | arrayTooLong
  deriving DecidableEq

/-- `xs(i)`. -/
def elementAt {α : Type} (xs : List α) (i : ℤ) : Except CodecError α :=
  if i < 0 then .error .indexOutOfBounds
  else
    match xs[i.toNat]? with
    | some x => .ok x
    | none => .error .indexOutOfBounds

/-- `xs.head`. -/
def headOf {α : Type} (xs : List α) : Except CodecError α :=
  match xs with
  | x :: _ => .ok x
  | [] => .error .noSuchElement

/-- `asInstanceOf[ProofDirection]`. -/
def AVLProofElement.asDirection : AVLProofElement → Except CodecError Direction
  | proofDirection direction => .ok direction
  | _ => .error .classCast

/-- `asInstanceOf[ProofBalance]`. -/
def AVLProofElement.asBalance : AVLProofElement → Except CodecError Balance
  | proofBalance e _ => .ok e
  | _ => .error .classCast

/-- `isLeaf`. -/
def Direction.isLeaf (direction : Direction) : Bool := direction.byte == 1 || direction.byte == 2

/-- An array of bytes as a value; no array is longer. -/
def ADValue.ofArray (bytes : List UInt8) : Except CodecError ADValue :=
  if h : bytes.length < 2 ^ 31 then .ok ⟨bytes, h⟩ else .error .arrayTooLong

namespace AVLModifyProof

/-! ## Writing -/

/-- `combineBytes(b1, b2)`. -/
def combineBytes (b1 b2 : UInt8) : UInt8 := b1 <<< 4 ||| (b2 + 1)

/-- `directionBalanceByte(dir, balance)`. -/
def directionBalanceByte (dir : Direction) (balance : Balance) : UInt8 :=
  combineBytes dir.byte balance.toUInt8

/-- The bytes of the `i`-th step of the way. -/
def pathProofBytes (proofSeq : List AVLProofElement) (i : ℕ) : Except CodecError (List UInt8) := do
  let label ← elementAt proofSeq (3 * i + 1)
  let direction ← elementAt proofSeq (3 * i)
  let direction ← direction.asDirection
  let balance ← elementAt proofSeq (3 * i + 2)
  let balance ← balance.asBalance
  return directionBalanceByte direction balance :: label.bytes

/-- `bytes`. -/
def bytes (proof : AVLModifyProof) : Except CodecError (List UInt8) := do
  let length : ℤ := proof.proofSeq.length
  let keyFound := length % 3 = 0
  let pathLength := if keyFound then length - 3 else length - 4
  let inBytes := UInt8.ofInt pathLength :: proof.key.bytes
  let pathProofsBytes ←
    (List.range (pathLength.tdiv 3).toNat).mapM (pathProofBytes proof.proofSeq)
  if keyFound then
    let direction ← elementAt proof.proofSeq (length - 3)
    let direction ← headOf direction.bytes
    let nextLeafKey ← elementAt proof.proofSeq (length - 2)
    let value ← elementAt proof.proofSeq (length - 1)
    return inBytes ++ pathProofsBytes.flatten ++ [combineBytes 1 direction] ++ nextLeafKey.bytes
      ++ value.bytes
  else
    let direction ← elementAt proof.proofSeq (length - 4)
    let direction ← headOf direction.bytes
    let nextLeafKey ← elementAt proof.proofSeq (length - 2)
    let key ← elementAt proof.proofSeq (length - 3)
    let value ← elementAt proof.proofSeq (length - 1)
    return inBytes ++ pathProofsBytes.flatten ++ [combineBytes 0 direction] ++ nextLeafKey.bytes
      ++ key.bytes ++ value.bytes

/-! ## Reading -/

/-- `splitBytes(b)`. -/
def splitBytes (b : UInt8) : UInt8 × Balance :=
  ((b.toInt8 >>> 4).toUInt8, ((b &&& 15) - 1).toInt8)

/-- `parseDirection(byte)`. -/
def parseDirection : UInt8 → Except CodecError Direction
  | 1 => .ok .leafFound
  | 2 => .ok .leafNotFound
  | 3 => .ok .goingLeft
  | 4 => .ok .goingRight
  | _ => .error .matchError

/-- `parseDirectionBalance(byte)`. -/
def parseDirectionBalance (b : UInt8) : Except CodecError (Direction × AVLProofElement) := do
  let (b1, b2) := splitBytes b
  let direction ← parseDirection b1
  let balance ← (proofBalance b2).mapError fun _ => .matchError
  return (direction, balance)

/-- The elements of the `i`-th step of the way. -/
def parseStep (bytes : List UInt8) (keyLength digestSize i : ℕ) :
    Except CodecError (List AVLProofElement) := do
  let start : ℤ := 1 + keyLength + i * (1 + 32)
  let b ← headOf (slice bytes start (start + 1))
  let (direction, balance) ← parseDirectionBalance b
  let labelBytes := slice bytes (start + 1) (start + 1 + digestSize)
  let label ←
    match direction with
    | .goingLeft => .ok (.proofRightLabel labelBytes)
    | .goingRight => .ok (.proofLeftLabel labelBytes)
    | _ => .error .incorrectDirectionInInternalNode
  return [.proofDirection direction, label, balance]

/-- The elements of the leaf. -/
def parseLeaf (bytes : List UInt8) (keyLength : ℕ) (point : ℤ) :
    Except CodecError (List AVLProofElement) := do
  let b ← elementAt bytes point
  let (found, lastDirectionB) := splitBytes b
  let lastDirection ← parseDirection lastDirectionB.toUInt8
  if lastDirection.isLeaf then
    let nextLeafKey := .proofNextLeafKey ⟨slice bytes (point + 1) (point + 1 + keyLength)⟩
    if found = 1 then
      let value ← ADValue.ofArray (slice bytes (point + 1 + keyLength) bytes.length)
      return [.proofDirection lastDirection, nextLeafKey, .proofValue value]
    else
      let proofKey :=
        .proofKey ⟨slice bytes (point + 1 + keyLength) (point + 1 + 2 * keyLength)⟩
      let value ← ADValue.ofArray (slice bytes (point + 1 + 2 * keyLength) bytes.length)
      return [.proofDirection lastDirection, proofKey, nextLeafKey, .proofValue value]
  else .error .incorrectDirectionInLeaf

/-- `parseBytes(bytes)`. -/
def parseBytes (keyLength digestSize : ℕ) (bytes : List UInt8) :
    Except CodecError AVLModifyProof := do
  let head ← headOf bytes
  let pathLength := head.toInt8.toInt
  if pathLength.tmod 3 = 0 then
    let key := ⟨slice bytes 1 (1 + keyLength)⟩
    let pathProofs ← (List.range (pathLength.tdiv 3).toNat).mapM
      (parseStep bytes keyLength digestSize)
    let point := 1 + keyLength + (pathLength * (32 + 1)).tdiv 3
    let leaf ← parseLeaf bytes keyLength point
    return ⟨key, pathProofs.flatten ++ leaf⟩
  else .error .assertionFailed

end AVLModifyProof

/-! ## The elements of a proof -/

/-- One step of the way down: where it goes, the label of the other child, and the balance. -/
structure Step where
  goesLeft : Bool
  label : Digest
  balance : Balance
  valid : balance = -1 ∨ balance = 0 ∨ balance = 1

namespace Step

/-- Where the step goes. -/
def direction (s : Step) : Direction := if s.goesLeft then .goingLeft else .goingRight

/-- The element with the label of the other child. -/
def labelElement (s : Step) : AVLProofElement :=
  if s.goesLeft then .proofRightLabel s.label else .proofLeftLabel s.label

/-- The three elements of the step. -/
def elements (s : Step) : List AVLProofElement :=
  [.proofDirection s.direction, s.labelElement, .proofBalance s.balance s.valid]

/-- The bytes of the step. -/
def bytes (s : Step) : List UInt8 :=
  AVLModifyProof.directionBalanceByte s.direction s.balance :: s.label

end Step

section

variable {P : TreeParams} {operation : Operation} {n : ProverNodes} {t : Tree} {m m' : Modified}

/-- What is done at a leaf does not change the elements. -/
theorem modifyLeaf_proof {labelOpt : Option Digest} {key nextLeafKey : ADKey} {value : ADValue}
    {found : Bool}
    (h : (modifyLeaf P operation labelOpt key value nextLeafKey found).2 = .ok m) :
    m.proof = leafElements found key value nextLeafKey := by
  unfold modifyLeaf at h
  unfold leafElements
  cases found with
  | true =>
    simp only [if_true] at h ⊢
    split at h
    · cases h
      rfl
    · split at h
      · cases h
      · split at h
        · cases h
          rfl
        · cases h
      · cases h
  | false =>
    simp only [Bool.false_eq_true, if_false] at h ⊢
    split at h
    · cases h
      rfl
    · split at h
      · cases h
        rfl
      · split at h
        · cases h
          rfl
        · cases h
      · cases h

/-- Neither do the rotations. -/
theorem afterLeft_proof {labelOpt : Option Digest} {height : ℕ} {key : ADKey}
    {left right : ProverNodes} {balance : Balance}
    (h : (afterLeft labelOpt height key left right balance m).2 = .ok m') :
    m'.proof = m.proof := by
  unfold afterLeft at h
  simp only at h
  split at h
  · split at h
    · split at h
      · cases h
      · split at h
        · split at h
          · cases h
            rfl
          · cases h
        · split at h
          · cases h
          · split at h
            · obtain ⟨newRoot, -, hroot⟩ := bind_eq_ok.1 h
              cases hroot
              rfl
            · cases h
    · generalize (if m.childHeightIncreased then balance - 1 else balance) = b at h
      split at h
      · cases h
        rfl
      · cases h
  · split at h
    · cases h
      rfl
    · cases h

theorem afterRight_proof {labelOpt : Option Digest} {height : ℕ} {key : ADKey}
    {left right : ProverNodes} {balance : Balance}
    (h : (afterRight labelOpt height key left right balance m).2 = .ok m') :
    m'.proof = m.proof := by
  unfold afterRight at h
  simp only at h
  split at h
  · split at h
    · split at h
      · cases h
      · split at h
        · split at h
          · cases h
            rfl
          · cases h
        · split at h
          · cases h
          · split at h
            · obtain ⟨newRoot, -, hroot⟩ := bind_eq_ok.1 h
              cases hroot
              rfl
            · cases h
    · generalize (if m.childHeightIncreased then balance + 1 else balance) = b at h
      split at h
      · cases h
        rfl
      · cases h
  · split at h
    · cases h
      rfl
    · cases h

theorem proofBalance_eq_ok {b : Balance} {e : AVLProofElement} (h : proofBalance b = .ok e) :
    ∃ valid, e = .proofBalance b valid := by
  rw [proofBalance] at h
  split at h
  · rename_i valid
    cases h
    exact ⟨valid, rfl⟩
  · cases h

/-- The elements are the steps down to a leaf of the tree, and those for this leaf. -/
structure Walks (hf : CryptographicHash) (t : Tree) (proof : List AVLProofElement)
    (steps : List Step) (found : Bool) (k : ADKey) (v : ADValue) (nk : ADKey) : Prop where
  elements : proof = steps.flatMap Step.elements ++ leafElements found k v nk
  labels : ∀ s ∈ steps, s.label.length = hf.digestSize
  height : steps.length ≤ t.height
  leaf : ∃ path, leafAt t path = some (k, v, nk)

variable {hf : CryptographicHash} {steps : List Step} {found : Bool} {k nk : ADKey} {v : ADValue}
  {proof : List AVLProofElement} {tag : Option Ref} {key : ADKey} {l r : Tree} {b : Balance}

theorem ProverNodes.Shows.length_label (h : n.Shows hf t) :
    (treeLabel hf t).length = hf.digestSize := by
  cases h with
  | leaf hlabel => exact hf.length_hash _
  | node hlabel hl hr => exact hf.length_hash _

/-- One step more. -/
theorem Walks.left (h : Walks hf l proof steps found k v nk) (hr : n.Shows hf r)
    (valid : b = -1 ∨ b = 0 ∨ b = 1) : Walks hf (.node tag key l r b)
      ([.proofDirection .goingLeft, .proofRightLabel (treeLabel hf r), .proofBalance b valid]
        ++ proof)
      (⟨true, treeLabel hf r, b, valid⟩ :: steps) found k v nk where
  elements := by
    rw [h.elements]
    rfl
  labels := List.forall_mem_cons.2 ⟨hr.length_label, h.labels⟩
  height := Nat.succ_le_succ (h.height.trans (le_max_left _ _))
  leaf := by
    obtain ⟨path, hpath⟩ := h.leaf
    exact ⟨true :: path, hpath⟩

theorem Walks.right (h : Walks hf r proof steps found k v nk) (hl : n.Shows hf l)
    (valid : b = -1 ∨ b = 0 ∨ b = 1) : Walks hf (.node tag key l r b)
      ([.proofDirection .goingRight, .proofLeftLabel (treeLabel hf l), .proofBalance b valid]
        ++ proof)
      (⟨false, treeLabel hf l, b, valid⟩ :: steps) found k v nk where
  elements := by
    rw [h.elements]
    rfl
  labels := List.forall_mem_cons.2 ⟨hl.length_label, h.labels⟩
  height := Nat.succ_le_succ (h.height.trans (le_max_right _ _))
  leaf := by
    obtain ⟨path, hpath⟩ := h.leaf
    exact ⟨false :: path, hpath⟩

/-- **The elements** that the walk enqueues, where it returns. -/
theorem modifyHelper_walks (h : n.Shows P.hf t) {foundAbove : Bool}
    (hrun : (modifyHelper P operation n foundAbove).2 = .ok m) :
    ∃ steps found k v nk, Walks P.hf t m.proof steps found k v nk
      ∧ (steps = [] ↔ n.isLeaf = true) := by
  induction h generalizing foundAbove m with
  | @leaf labelOpt tag k nk v hlabel =>
    rw [modifyHelper] at hrun
    exact ⟨[], foundAbove, k, v, nk, ⟨modifyLeaf_proof hrun, by simp, Nat.zero_le _, [], rfl⟩,
      iff_of_true rfl rfl⟩
  | @node labelOpt tag key l r tl tr b hlabel hl hr ihl ihr =>
    rw [modifyHelper] at hrun
    cases hbalance : proofBalance b with
    | error e =>
      simp only [hbalance] at hrun
      split at hrun
      · cases hrun
      · cases hrun
    | ok element =>
      obtain ⟨valid, rfl⟩ := proofBalance_eq_ok hbalance
      simp only [hbalance] at hrun
      split at hrun
      · split at hrun
        · cases hrun
        · rename_i child hchild
          obtain ⟨steps, found, k, v, nk, hwalks, -⟩ := ihl hchild
          have hproof := afterLeft_proof hrun
          rw [(ProverNodes.label_spec hr).1] at hproof
          refine ⟨⟨true, treeLabel P.hf tr, b, valid⟩ :: steps, found, k, v, nk, ?_,
            iff_of_false (List.cons_ne_nil _ _) (fun h => by cases h)⟩
          rw [hproof]
          exact hwalks.left hr valid
      · split at hrun
        · cases hrun
        · rename_i child hchild
          obtain ⟨steps, found, k, v, nk, hwalks, -⟩ := ihr hchild
          have hproof := afterRight_proof hrun
          rw [(ProverNodes.label_spec hl).1] at hproof
          refine ⟨⟨false, treeLabel P.hf tl, b, valid⟩ :: steps, found, k, v, nk, ?_,
            iff_of_false (List.cons_ne_nil _ _) (fun h => by cases h)⟩
          rw [hproof]
          exact hwalks.right hl valid

end

namespace AVLTree

variable {P : TreeParams} {operation : Operation} {tree tree' : AVLTree} {t : Tree}
  {proof : AVLModifyProof}

/-- **The elements of a proof** that `run` returns. -/
theorem run_elements (h : tree.Stands P t) (hrun : tree.run P operation = (.ok proof, tree')) :
    proof.key.length = P.keyLength ∧ 0 < P.keyLength
    ∧ ∃ steps found k v nk, Walks P.hf t proof.proofSeq steps found k v nk
      ∧ (steps = [] ↔ tree.topNode.isLeaf = true)
      ∧ k.length = P.keyLength ∧ nk.length = P.keyLength := by
  by_cases hkey : P.InRange operation.key
  · have hlt := hkey.1.trans hkey.2.1
    have hpos : 0 < P.keyLength := by
      rcases Nat.eq_zero_or_pos P.keyLength with hzero | hpos
      · rw [TreeParams.negativeInfinityKey, TreeParams.positiveInfinityKey, hzero] at hlt
        exact absurd hlt (lt_irrefl _)
      · exact hpos
    rw [run_inRange hkey] at hrun
    cases hmod : (modifyHelper P operation tree.topNode false).2 with
    | error e =>
      rw [hmod] at hrun
      cases hrun
    | ok m =>
      rw [hmod] at hrun
      cases hrun
      obtain ⟨steps, found, k, v, nk, hwalks, hnil⟩ := modifyHelper_walks h.shows hmod
      obtain ⟨path, hleaf⟩ := hwalks.leaf
      obtain ⟨hk, -, hnk⟩ := h.length_leafAt hlt hleaf
      exact ⟨hkey.2.2, hpos, steps, found, k, v, nk, hwalks, hnil, hk, hnk⟩
  · obtain ⟨e, herror⟩ := run_outOfRange hkey tree
    rw [herror] at hrun
    cases hrun

end AVLTree

/-! ## What is written -/

theorem elementAt_natCast {α : Type} {xs : List α} {i : ℕ} {x : α} (h : xs[i]? = some x) :
    elementAt xs (i : ℤ) = .ok x := by
  rw [elementAt, if_neg (by omega), Int.toNat_natCast, h]

/-- The bytes for a leaf. -/
def leafBytes (found : Bool) (k : ADKey) (v : ADValue) (nk : ADKey) : List UInt8 :=
  if found then 18 :: (nk.bytes ++ v.bytes) else 3 :: (nk.bytes ++ k.bytes ++ v.bytes)

section

variable {steps : List Step} {found : Bool} {key k nk : ADKey} {v : ADValue}
  {rest : List AVLProofElement}

/-- The elements of the steps stand at the multiples of three. -/
theorem getElem?_steps {i : ℕ} (hi : i < steps.length) (rest : List AVLProofElement) {j : ℕ}
    (hj : j < 3) : (steps.flatMap Step.elements ++ rest)[3 * i + j]?
      = (steps.get ⟨i, hi⟩).elements[j]? := by
  have hfront : ((steps.take i).flatMap Step.elements).length = 3 * i := by
    rw [length_flatMap_of_length (n := 3) fun _ _ => rfl, List.length_take_of_le hi.le]
  rw [flatMap_split Step.elements hi, List.append_assoc, List.append_assoc,
    List.getElem?_append_right (by omega), hfront, Nat.add_sub_cancel_left,
    List.getElem?_append_left (by exact hj)]

theorem pathProofBytes_steps {i : ℕ} (hi : i < steps.length) (rest : List AVLProofElement) :
    AVLModifyProof.pathProofBytes (steps.flatMap Step.elements ++ rest) i
      = .ok (steps.get ⟨i, hi⟩).bytes := by
  have hdirection : elementAt (steps.flatMap Step.elements ++ rest) (3 * (i : ℤ))
      = .ok (.proofDirection (steps.get ⟨i, hi⟩).direction) := by
    exact_mod_cast elementAt_natCast (getElem?_steps hi rest (j := 0) (by norm_num))
  have hlabel : elementAt (steps.flatMap Step.elements ++ rest) (3 * (i : ℤ) + 1)
      = .ok (steps.get ⟨i, hi⟩).labelElement := by
    exact_mod_cast elementAt_natCast (getElem?_steps hi rest (j := 1) (by norm_num))
  have hbalance : elementAt (steps.flatMap Step.elements ++ rest) (3 * (i : ℤ) + 2)
      = .ok (.proofBalance (steps.get ⟨i, hi⟩).balance (steps.get ⟨i, hi⟩).valid) := by
    exact_mod_cast elementAt_natCast (getElem?_steps hi rest (j := 2) (by norm_num))
  have hbytes (s : Step) : s.labelElement.bytes = s.label := by
    rw [Step.labelElement]
    split <;> rfl
  rw [AVLModifyProof.pathProofBytes, hlabel, hdirection, hbalance]
  exact congrArg (fun l => Except.ok (_ :: l)) (hbytes _)

theorem mapM_pathProofBytes (steps : List Step) (rest : List AVLProofElement) :
    (List.range steps.length).mapM
        (AVLModifyProof.pathProofBytes (steps.flatMap Step.elements ++ rest))
      = .ok (steps.map Step.bytes) := by
  have h := mapM_range (l := steps.map Step.bytes)
    (f := AVLModifyProof.pathProofBytes (steps.flatMap Step.elements ++ rest)) fun i hi => by
      rw [List.length_map] at hi
      rw [pathProofBytes_steps hi rest]
      simp
  rwa [List.length_map] at h

/-- An element of the leaf, by its place behind the steps. -/
theorem elementAt_leaf {j : ℕ} {e : AVLProofElement} (h : rest[j]? = some e) (i : ℤ)
    (hi : i = 3 * steps.length + j) :
    elementAt (steps.flatMap Step.elements ++ rest) i = .ok e := by
  have hfront : (steps.flatMap Step.elements).length = 3 * steps.length :=
    length_flatMap_of_length fun _ _ => rfl
  have hcast : i = ((3 * steps.length + j : ℕ) : ℤ) := by
    rw [hi]
    push_cast
    rfl
  rw [hcast]
  refine elementAt_natCast ?_
  rw [List.getElem?_append_right (by omega), hfront, Nat.add_sub_cancel_left, h]

/-- **What is written** for the elements of a way. -/
theorem bytes_eq (key : ADKey) (steps : List Step) (found : Bool) (k : ADKey) (v : ADValue)
    (nk : ADKey) :
    (AVLModifyProof.bytes ⟨key, steps.flatMap Step.elements ++ leafElements found k v nk⟩)
      = .ok (UInt8.ofInt (3 * steps.length) :: key.bytes ++ steps.flatMap Step.bytes
        ++ leafBytes found k v nk) := by
  have hfront : (steps.flatMap Step.elements).length = 3 * steps.length :=
    length_flatMap_of_length fun _ _ => rfl
  have hpath : ((3 * steps.length : ℤ).tdiv 3).toNat = steps.length := by
    rw [Int.mul_tdiv_cancel_left _ (by norm_num), Int.toNat_natCast]
  have hsteps : (steps.map Step.bytes).flatten = steps.flatMap Step.bytes :=
    List.flatMap_def.symm
  rw [AVLModifyProof.bytes]
  cases found with
  | true =>
    have hlen : ((steps.flatMap Step.elements ++ leafElements true k v nk).length : ℤ)
        = 3 * steps.length + 3 := by
      rw [List.length_append, hfront]
      push_cast
      rfl
    have hmod : (3 * steps.length + 3 : ℤ) % 3 = 0 := by omega
    have helement (j : ℕ) (e : AVLProofElement) (h : (leafElements true k v nk)[j]? = some e)
        (i : ℤ) (hi : i = 3 * steps.length + j) :
        elementAt (steps.flatMap Step.elements ++ leafElements true k v nk) i = .ok e :=
      elementAt_leaf h i hi
    simp only [hlen, hmod, if_true, add_sub_cancel_right, hpath, mapM_pathProofBytes,
      helement 0 _ rfl (3 * steps.length) (by simp),
      helement 1 _ rfl (3 * steps.length + 3 - 2) (by push_cast; ring),
      helement 2 _ rfl (3 * steps.length + 3 - 1) (by push_cast; ring)]
    show Except.ok (_ ++ (steps.map Step.bytes).flatten ++ [18] ++ nk.bytes ++ v.bytes) = _
    rw [hsteps, leafBytes, if_pos rfl]
    simp only [List.append_assoc, List.cons_append, List.nil_append]
  | false =>
    have hlen : ((steps.flatMap Step.elements ++ leafElements false k v nk).length : ℤ)
        = 3 * steps.length + 4 := by
      rw [List.length_append, hfront]
      push_cast
      rfl
    have hmod : ¬(3 * steps.length + 4 : ℤ) % 3 = 0 := by omega
    have helement (j : ℕ) (e : AVLProofElement) (h : (leafElements false k v nk)[j]? = some e)
        (i : ℤ) (hi : i = 3 * steps.length + j) :
        elementAt (steps.flatMap Step.elements ++ leafElements false k v nk) i = .ok e :=
      elementAt_leaf h i hi
    simp only [hlen, hmod, if_false, add_sub_cancel_right, hpath, mapM_pathProofBytes,
      helement 0 _ rfl (3 * steps.length) (by simp),
      helement 1 _ rfl (3 * steps.length + 4 - 3) (by push_cast; ring),
      helement 2 _ rfl (3 * steps.length + 4 - 2) (by push_cast; ring),
      helement 3 _ rfl (3 * steps.length + 4 - 1) (by push_cast; ring)]
    show Except.ok (_ ++ (steps.map Step.bytes).flatten ++ [3] ++ nk.bytes ++ k.bytes ++ v.bytes)
      = _
    rw [hsteps, leafBytes, if_neg (by simp)]
    simp only [List.append_assoc, List.cons_append, List.nil_append]

/-! ## What is read -/

/-- Both halves of a byte are read back. -/
theorem splitBytes_directionBalanceByte (direction : Direction) {b : Balance}
    (valid : b = -1 ∨ b = 0 ∨ b = 1) :
    AVLModifyProof.splitBytes (AVLModifyProof.directionBalanceByte direction b)
      = (direction.byte, b) := by
  rcases valid with rfl | rfl | rfl
  · cases direction <;> decide
  · cases direction <;> decide
  · cases direction <;> decide

theorem parseDirection_byte (direction : Direction) :
    AVLModifyProof.parseDirection direction.byte = .ok direction := by
  cases direction <;> rfl

theorem parseDirectionBalance_spec (s : Step) :
    AVLModifyProof.parseDirectionBalance
        (AVLModifyProof.directionBalanceByte s.direction s.balance)
      = .ok (s.direction, .proofBalance s.balance s.valid) := by
  have hbalance : proofBalance s.balance = .ok (.proofBalance s.balance s.valid) := dif_pos s.valid
  rw [AVLModifyProof.parseDirectionBalance, splitBytes_directionBalanceByte s.direction s.valid]
  simp only [parseDirection_byte, hbalance]
  rfl

/-- A step is read, if its label has 32 bytes. -/
theorem parseStep_steps {bytes front tail : List UInt8} {keyLength : ℕ}
    (hbytes : bytes = front ++ steps.flatMap Step.bytes ++ tail)
    (hfront : front.length = 1 + keyLength) (hlabels : ∀ s ∈ steps, s.label.length = 32) {i : ℕ}
    (hi : i < steps.length) :
    AVLModifyProof.parseStep bytes keyLength 32 i = .ok (steps.get ⟨i, hi⟩).elements := by
  set s := steps.get ⟨i, hi⟩ with hs
  have hlabel : s.label.length = 32 := hlabels s (List.get_mem _ _)
  set before := front ++ (steps.take i).flatMap Step.bytes with hbefore
  set behind := (steps.drop (i + 1)).flatMap Step.bytes ++ tail with hbehind
  have hsplit : bytes = before
      ++ (AVLModifyProof.directionBalanceByte s.direction s.balance :: s.label) ++ behind := by
    rw [hbytes, flatMap_split Step.bytes hi]
    simp only [hbefore, hbehind, List.append_assoc]
    rfl
  have hlen : before.length = 1 + keyLength + i * (1 + 32) := by
    have hsteps : ((steps.take i).flatMap Step.bytes).length = 33 * i := by
      rw [length_flatMap_of_length (n := 33), List.length_take_of_le hi.le]
      intro s' hs'
      rw [Step.bytes, List.length_cons, hlabels s' (List.mem_of_mem_take hs')]
    rw [hbefore, List.length_append, hfront, hsteps]
    ring
  have hbyte : slice bytes (1 + keyLength + i * (1 + 32)) (1 + keyLength + i * (1 + 32) + 1)
      = [AVLModifyProof.directionBalanceByte s.direction s.balance] := by
    have hpiece : bytes = before ++ [AVLModifyProof.directionBalanceByte s.direction s.balance]
        ++ (s.label ++ behind) := by
      rw [hsplit]
      simp
    rw [hpiece]
    exact Serialization.slice_append (by rw [hlen]; push_cast; rfl) (by rw [hlen]; push_cast; rfl)
  have hslice : slice bytes (1 + keyLength + i * (1 + 32) + 1)
      (1 + keyLength + i * (1 + 32) + 1 + (32 : ℕ)) = s.label := by
    have hpiece : bytes = before ++ [AVLModifyProof.directionBalanceByte s.direction s.balance]
        ++ s.label ++ behind := by
      rw [hsplit]
      simp
    rw [hpiece]
    exact Serialization.slice_append
      (by rw [List.length_append, hlen]; push_cast; rfl)
      (by rw [List.length_append, hlen, hlabel]; push_cast; rfl)
  rw [AVLModifyProof.parseStep]
  simp only [hbyte, hslice, headOf]
  show ((AVLModifyProof.parseDirectionBalance _).bind _) = _
  rw [parseDirectionBalance_spec s]
  cases hleft : s.goesLeft with
  | true =>
    simp only [Except.bind, Step.elements, Step.labelElement, Step.direction, hleft, if_true]
    rfl
  | false =>
    simp only [Except.bind, Step.elements, Step.labelElement, Step.direction, hleft,
      Bool.false_eq_true, if_false]
    rfl

theorem ADValue.ofArray_bytes (v : ADValue) : ADValue.ofArray v.bytes = .ok v :=
  dif_pos v.length_lt

/-- The leaf is read where it stands. -/
theorem parseLeaf_leafBytes {bytes front : List UInt8} {keyLength : ℕ}
    (hbytes : bytes = front ++ leafBytes found k v nk) (hk : k.length = keyLength)
    (hnk : nk.length = keyLength) :
    AVLModifyProof.parseLeaf bytes keyLength front.length
      = .ok (leafElements found k v nk) := by
  have hk' : k.bytes.length = keyLength := hk
  have hnk' : nk.bytes.length = keyLength := hnk
  rw [AVLModifyProof.parseLeaf]
  cases found with
  | true =>
    have hpieces : bytes = front ++ [18] ++ nk.bytes ++ v.bytes := by
      rw [hbytes, leafBytes, if_pos rfl]
      simp
    have hbyte : elementAt bytes front.length = .ok 18 :=
      elementAt_natCast (by rw [hpieces]; simp)
    have hnext : slice bytes (front.length + 1) (front.length + 1 + keyLength) = nk.bytes := by
      rw [hpieces]
      exact Serialization.slice_append (by simp) (by simp [hnk'])
    have hvalue : slice bytes (front.length + 1 + keyLength) bytes.length = v.bytes := by
      have h := Serialization.slice_append (a := front ++ [18] ++ nk.bytes) (m := v.bytes) (c := [])
        (i := front.length + 1 + keyLength) (j := bytes.length) (by simp [hnk']; ring)
        (by rw [hpieces]; simp [hnk']; ring)
      rwa [List.append_nil, ← hpieces] at h
    simp only [hbyte, hnext, hvalue]
    show ((ADValue.ofArray v.bytes).bind _) = _
    rw [ADValue.ofArray_bytes]
    rfl
  | false =>
    have hpieces : bytes = front ++ [3] ++ nk.bytes ++ k.bytes ++ v.bytes := by
      rw [hbytes, leafBytes, if_neg (by simp)]
      simp
    have hbyte : elementAt bytes front.length = .ok 3 :=
      elementAt_natCast (by rw [hpieces]; simp)
    have hnext : slice bytes (front.length + 1) (front.length + 1 + keyLength) = nk.bytes := by
      have h := Serialization.slice_append (a := front ++ [3]) (m := nk.bytes)
        (c := k.bytes ++ v.bytes) (i := front.length + 1) (j := front.length + 1 + keyLength)
        (by simp) (by simp [hnk'])
      rwa [← List.append_assoc, ← hpieces] at h
    have hkey : slice bytes (front.length + 1 + keyLength) (front.length + 1 + 2 * keyLength)
        = k.bytes := by
      rw [hpieces]
      exact Serialization.slice_append (by simp [hnk']; ring) (by simp [hnk', hk']; ring)
    have hvalue : slice bytes (front.length + 1 + 2 * keyLength) bytes.length = v.bytes := by
      have h := Serialization.slice_append (a := front ++ [3] ++ nk.bytes ++ k.bytes)
        (m := v.bytes) (c := []) (i := front.length + 1 + 2 * keyLength) (j := bytes.length)
        (by simp [hnk', hk']; ring) (by rw [hpieces]; simp [hnk', hk']; ring)
      rwa [List.append_nil, ← hpieces] at h
    simp only [hbyte, hnext, hkey, hvalue]
    show ((ADValue.ofArray v.bytes).bind _) = _
    rw [ADValue.ofArray_bytes]
    rfl

theorem length_slice (bytes : List UInt8) (i j : ℕ) :
    (slice bytes i j).length = min j bytes.length - i := by
  rw [slice, Int.toNat_natCast, Int.toNat_natCast, List.length_drop, List.length_take]

/-- A part that was read whole, and the value behind it up to the end, tell the length. -/
theorem length_of_slices {bytes : List UInt8} {i size : ℕ} (hpos : 0 < size)
    (hkey : (slice bytes i (i + size : ℕ)).length = size)
    (hvalue : (slice bytes (i + size : ℕ) bytes.length).length = v.length) :
    bytes.length = i + size + v.length := by
  rw [length_slice] at hkey hvalue
  omega

theorem ADValue.eq_of_ofArray {bytes : List UInt8} (h : ADValue.ofArray bytes = .ok v) :
    bytes = v.bytes := by
  rw [ADValue.ofArray] at h
  split at h
  · cases h
    rfl
  · cases h

/-- The elements of the leaf are read only from as many bytes as are written for it. -/
theorem length_of_parseLeaf {bytes : List UInt8} {keyLength point : ℕ} (hpos : 0 < keyLength)
    (hk : k.length = keyLength) (hnk : nk.length = keyLength)
    (h : AVLModifyProof.parseLeaf bytes keyLength point = .ok (leafElements found k v nk)) :
    bytes.length = point + (leafBytes found k v nk).length := by
  have hk' : k.bytes.length = keyLength := hk
  have hnk' : nk.bytes.length = keyLength := hnk
  have hv : v.length = v.bytes.length := rfl
  rw [AVLModifyProof.parseLeaf] at h
  obtain ⟨b, -, h⟩ := bind_eq_ok.1 h
  rcases hsplit : AVLModifyProof.splitBytes b with ⟨found', lastDirectionB⟩
  rw [hsplit] at h
  obtain ⟨lastDirection, -, h⟩ := bind_eq_ok.1 h
  split at h
  · split at h
    · obtain ⟨value, hvalue, h⟩ := bind_eq_ok.1 h
      cases found with
      | true =>
        cases h
        have hrest := congrArg List.length (ADValue.eq_of_ofArray hvalue)
        have hlen := length_of_slices (v := v) (i := point + 1) hpos (by exact_mod_cast hnk')
          (by exact_mod_cast hrest)
        rw [hlen, leafBytes, if_pos rfl, List.length_cons, List.length_append, hnk', hv]
        ring
      | false => cases h
    · obtain ⟨value, hvalue, h⟩ := bind_eq_ok.1 h
      cases found with
      | true => cases h
      | false =>
        cases h
        have hrest := congrArg List.length (ADValue.eq_of_ofArray hvalue)
        have hend : point + 1 + 2 * keyLength = point + 1 + keyLength + keyLength := by ring
        have hlen := length_of_slices (v := v) (i := point + 1 + keyLength) hpos
          (by rw [← hend]; exact_mod_cast hk') (by rw [← hend]; exact_mod_cast hrest)
        rw [hlen, leafBytes, if_neg (by simp), List.length_cons, List.length_append,
          List.length_append, hnk', hk', hv]
        ring
  · cases h

/-! ## There and back -/

theorem toInt_head : ∀ n : Fin 43, (UInt8.ofInt (3 * n.val)).toInt8.toInt = 3 * n.val := by decide

/-- The reader takes the number of steps from the first byte. -/
theorem parseBytes_eq {bytes : List UInt8} {head : UInt8} {count : ℕ}
    (hhead : headOf bytes = .ok head) (hcount : head.toInt8.toInt = 3 * count)
    (keyLength digestSize : ℕ) :
    AVLModifyProof.parseBytes keyLength digestSize bytes
      = ((List.range count).mapM (AVLModifyProof.parseStep bytes keyLength digestSize)).bind
        fun pathProofs =>
          (AVLModifyProof.parseLeaf bytes keyLength (1 + keyLength + 33 * count : ℕ)).bind
            fun leaf => .ok ⟨⟨slice bytes 1 (1 + keyLength)⟩, pathProofs.flatten ++ leaf⟩ := by
  have hmod : (3 * count : ℤ).tmod 3 = 0 := Int.mul_tmod_right 3 count
  have hdiv : ((3 * count : ℤ).tdiv 3).toNat = count := by
    rw [Int.mul_tdiv_cancel_left _ (by norm_num), Int.toNat_natCast]
  have hpoint : (1 + keyLength + (3 * count * (32 + 1) : ℤ).tdiv 3)
      = (1 + keyLength + 33 * count : ℕ) := by
    have hmul : (3 * count * (32 + 1) : ℤ) = 3 * (33 * count) := by ring
    rw [hmul, Int.mul_tdiv_cancel_left _ (by norm_num)]
    push_cast
    ring
  rw [AVLModifyProof.parseBytes, hhead]
  show (if head.toInt8.toInt.tmod 3 = 0 then _ else _) = _
  rw [hcount, if_pos hmod, hdiv, hpoint]
  rfl

theorem length_of_parseStep {bytes : List UInt8} {keyLength digestSize : ℕ} (i : ℕ)
    (elements : List AVLProofElement)
    (h : AVLModifyProof.parseStep bytes keyLength digestSize i = .ok elements) :
    elements.length = 3 := by
  rw [AVLModifyProof.parseStep] at h
  obtain ⟨b, -, h⟩ := bind_eq_ok.1 h
  obtain ⟨⟨direction, balance⟩, -, h⟩ := bind_eq_ok.1 h
  cases direction with
  | goingLeft =>
    cases h
    rfl
  | goingRight =>
    cases h
    rfl
  | leafFound => cases h
  | leafNotFound => cases h

/-- What is written for a way of at most 42 steps, whose labels have `digestSize` bytes, is read
as this way exactly if the labels have 32 bytes, or there are none. -/
theorem parseBytes_written_iff {keyLength digestSize : ℕ} (hkey : key.length = keyLength)
    (hpos : 0 < keyLength) (hk : k.length = keyLength) (hnk : nk.length = keyLength)
    (hlabels : ∀ s ∈ steps, s.label.length = digestSize) (hcount : steps.length ≤ 42) :
    AVLModifyProof.parseBytes keyLength digestSize (UInt8.ofInt (3 * steps.length) :: key.bytes
        ++ steps.flatMap Step.bytes ++ leafBytes found k v nk)
      = .ok ⟨key, steps.flatMap Step.elements ++ leafElements found k v nk⟩
      ↔ digestSize = 32 ∨ steps = [] := by
  have hhead := toInt_head ⟨steps.length, Nat.lt_succ_of_le hcount⟩
  have hkey' : key.bytes.length = keyLength := hkey
  set front := UInt8.ofInt (3 * steps.length) :: key.bytes with hfront
  have hfrontlen : front.length = 1 + keyLength := by
    rw [hfront, List.length_cons, add_comm]
    exact congrArg _ hkey'
  have hsteps : (steps.flatMap Step.bytes).length = (digestSize + 1) * steps.length :=
    length_flatMap_of_length fun s hs => congrArg Nat.succ (hlabels s hs)
  set written := front ++ steps.flatMap Step.bytes ++ leafBytes found k v nk with hwritten
  have hheadOf : headOf written = .ok (UInt8.ofInt (3 * steps.length)) := rfl
  have hslice : slice written 1 (1 + keyLength) = key.bytes := by
    have h := Serialization.slice_append (a := [UInt8.ofInt (3 * steps.length)]) (m := key.bytes)
      (c := steps.flatMap Step.bytes ++ leafBytes found k v nk) (i := 1) (j := 1 + keyLength)
      (by simp) (by simp [hkey'])
    rw [hwritten, hfront]
    simpa using h
  rw [parseBytes_eq hheadOf hhead, hslice]
  constructor
  · intro h
    obtain ⟨pathProofs, hpath, h⟩ := bind_eq_ok.1 h
    obtain ⟨leaf, hleaf, h⟩ := bind_eq_ok.1 h
    have helements : pathProofs.flatten ++ leaf
        = steps.flatMap Step.elements ++ leafElements found k v nk :=
      congrArg AVLModifyProof.proofSeq (Except.ok.inj h)
    have hpathlen : pathProofs.flatten.length = (steps.flatMap Step.elements).length := by
      obtain ⟨hlen, hall⟩ := of_mapM_ok length_of_parseStep hpath
      rw [length_flatten_of_length hall, hlen, List.length_range,
        length_flatMap_of_length (n := 3) fun _ _ => rfl]
    obtain ⟨-, rfl⟩ := List.append_inj helements hpathlen
    have hlen := length_of_parseLeaf hpos hk hnk hleaf
    rw [hwritten, List.length_append, List.length_append, hfrontlen, hsteps] at hlen
    have hmul : (digestSize + 1) * steps.length = 33 * steps.length := by linarith
    rcases Nat.eq_zero_or_pos steps.length with hzero | hsome
    · exact .inr (List.eq_nil_of_length_eq_zero hzero)
    · have := Nat.eq_of_mul_eq_mul_right hsome hmul
      exact .inl (by omega)
  · intro h
    have hthirtytwo : ∀ s ∈ steps, s.label.length = 32 := by
      rcases h with rfl | rfl
      · exact hlabels
      · exact fun s hs => absurd hs List.not_mem_nil
    have hpath : (List.range steps.length).mapM
        (AVLModifyProof.parseStep written keyLength digestSize)
        = .ok (steps.map Step.elements) := by
      have hread := mapM_range (l := steps.map Step.elements)
        (f := AVLModifyProof.parseStep written keyLength digestSize) fun i hi => by
          rw [List.length_map] at hi
          obtain rfl : digestSize = 32 :=
            (hlabels _ (List.get_mem steps ⟨i, hi⟩)).symm.trans (hthirtytwo _ (List.get_mem _ _))
          rw [parseStep_steps hwritten hfrontlen hthirtytwo hi]
          simp
      rwa [List.length_map] at hread
    have hpoint : 1 + keyLength + 33 * steps.length
        = (front ++ steps.flatMap Step.bytes).length := by
      rw [List.length_append, hfrontlen, length_flatMap_of_length (n := 33)]
      exact fun s hs => congrArg Nat.succ (hthirtytwo s hs)
    rw [hpath, hpoint]
    show ((AVLModifyProof.parseLeaf written keyLength _).bind _) = _
    rw [parseLeaf_leafBytes hwritten hk hnk]
    show Except.ok _ = _
    rw [List.flatMap_def]

end

namespace AVLModifyProof

/-- **The byte codec**: a proof that a tree of at most 42 levels returns is read back from its
bytes exactly if the digests have 32 bytes, or the tree is a leaf.  The reader skips 32 bytes for
each label, whatever the digest size is. -/
theorem parseBytes_bytes_iff (P : TreeParams) (events : List Event) (operation : Operation)
    (proof : AVLModifyProof) (tree' : AVLTree)
    (hrun : (events.foldl (AVLTree.step P) (.new P none)).run P operation = (.ok proof, tree'))
    (hheight : (events.foldl (AVLTree.step P) (.new P none)).topNode.height ≤ 42) :
    proof.bytes.bind (parseBytes P.keyLength P.hf.digestSize) = .ok proof
      ↔ P.hf.digestSize = 32
        ∨ (events.foldl (AVLTree.step P) (.new P none)).topNode.isLeaf = true := by
  set tree := events.foldl (AVLTree.step P) (.new P none)
  obtain ⟨t, h⟩ := AVLTree.stands_run P events
  obtain ⟨hkey, hpos, steps, found, k, v, nk, hwalks, hnil, hk, hnk⟩ := AVLTree.run_elements h hrun
  have hproof : proof = ⟨proof.key, steps.flatMap Step.elements ++ leafElements found k v nk⟩ := by
    rw [← hwalks.elements]
  have hcount : steps.length ≤ 42 := by
    rw [h.shows.height] at hheight
    exact hwalks.height.trans hheight
  rw [hproof, bytes_eq, ← hnil]
  exact parseBytes_written_iff hkey hpos hk hnk hwalks.labels hcount

theorem thirtyTwo_pos : 0 < 32 := by decide

theorem length_take_thirtyTwo (message : List UInt8) :
    ((message ++ List.replicate 32 0).take 32).length = 32 := by
  simp

/-- Keys and values of one byte, with a hash that shows the first 32 bytes. -/
def wideParams : TreeParams where
  keyLength := 1
  valueLength := 1
  valueLength_lt := smallParams.valueLength_lt
  hf :=
    { digestSize := 32
      digestSize_pos := thirtyTwo_pos
      hash := fun message => (message ++ List.replicate 32 0).take 32
      length_hash := length_take_thirtyTwo }

theorem balance_zero : (0 : Balance) = -1 ∨ (0 : Balance) = 0 ∨ (0 : Balance) = 1 := by decide

/-- The proof of the key 5. -/
def wideProof : AVLModifyProof where
  key := ⟨[5]⟩
  proofSeq := [.proofDirection .goingRight,
    .proofLeftLabel ([0, 0, 0, 5] ++ List.replicate 28 0), .proofBalance 0 balance_zero,
    .proofDirection .leafFound, .proofNextLeafKey ⟨[255]⟩, .proofValue (.ofByte 9)]

/-- A lookup in a tree with one key, with digests of 32 bytes. -/
theorem parseBytes_bytes_oneKey :
    let tree := [Event.operation (.insert ⟨[5]⟩ (.ofByte 9))].foldl (AVLTree.step wideParams)
      (.new wideParams none)
    (tree.run wideParams (.lookup ⟨[5]⟩)).1 = .ok wideProof
    ∧ wideProof.bytes.bind (parseBytes 1 32) = .ok wideProof := by
  intro tree
  have hproof : (tree.run wideParams (.lookup ⟨[5]⟩)).1 = .ok wideProof := by decide
  refine ⟨hproof, ?_⟩
  exact (parseBytes_bytes_iff wideParams [.operation (.insert ⟨[5]⟩ (.ofByte 9))]
    (.lookup ⟨[5]⟩) wideProof _ (Prod.ext hproof rfl) (by decide)).2 (.inl rfl)

/-- With digests of four bytes the proof of a lookup in a tree with one key is not read back. -/
theorem not_parseBytes_bytes :
    let proof := oneKeyProof ⟨[255]⟩ (.ofByte 9)
    (oneKeyTree.run smallParams (.lookup ⟨[5]⟩)).1 = .ok proof
    ∧ oneKeyTree = [Event.operation (.insert ⟨[5]⟩ (.ofByte 9))].foldl (AVLTree.step smallParams)
      (.new smallParams none)
    ∧ oneKeyTree.topNode.height = 1
    ∧ proof.bytes.bind (parseBytes 1 4) = .error .indexOutOfBounds := by
  intro proof
  exact ⟨by decide, rfl, by decide, by decide⟩

end AVLModifyProof

end Sparkz.Legacy
