import Sparkz.Avl.Represent

/-!
# The legacy AVL tree

The model of `legacy.avltree.AVLTree`.  Its nodes are changed in place and each of them has
one parent, so the tree of objects is a value here; the fields of a node are its cached
label, the height that `checkHeight` leaves in it, and those of its constructor.

* `AVLProofElement` — the elements of a proof.
* `ProverNodes`, `label`, `checked` — the nodes and their methods.
* `modifyHelper` — the walk down, the change at the leaf and the rotations.  It returns
  what has become of the node that it was called on, also where it throws.
* `AVLTree`, `rootHash`, `run` — the tree and its operations.
-/

namespace Sparkz.Legacy

open Sparkz.Lib Sparkz.Avl

/-! ## Proofs -/

/-- `Direction`. -/
inductive Direction where
  | leafFound
  | leafNotFound
  | goingLeft
  | goingRight
  deriving DecidableEq

/-- `Level`. -/
inductive Level where
  | intLevel (level : Int32)
  | byteLevel (level : Int8)
  deriving DecidableEq

/-- `level.bytes`. -/
def Level.bytes : Level → List UInt8
  | intLevel level => toBytes 4 (level.toInt % 2 ^ 32).toNat
  | byteLevel level => [level.toUInt8]

/-- `AVLProofElement`.  A `ProofBalance` computes its bytes when it is made, and throws then
if the balance is none. -/
inductive AVLProofElement where
  | proofLevel (e : Level)
  | proofRightLabel (e : Digest)
  | proofLeftLabel (e : Digest)
  | proofKey (e : ADKey)
  | proofNextLeafKey (e : ADKey)
  | proofValue (e : ADValue)
  | proofDirection (direction : Direction)
  | proofBalance (e : Balance) (valid : e = -1 ∨ e = 0 ∨ e = 1)
  deriving DecidableEq

/-- `direction.bytes`. -/
def Direction.byte : Direction → UInt8
  | leafFound => 1
  | leafNotFound => 2
  | goingLeft => 3
  | goingRight => 4

/-- `element.bytes`. -/
def AVLProofElement.bytes : AVLProofElement → List UInt8
  | proofLevel e => e.bytes
  | proofRightLabel e => e
  | proofLeftLabel e => e
  | proofKey e => e.bytes
  | proofNextLeafKey e => e.bytes
  | proofValue e => e.bytes
  | proofDirection direction => [direction.byte]
  | proofBalance e _ => [e.toUInt8]

/-! ## Nodes -/

/-- `ProverNodes`. -/
inductive ProverNodes where
  | leaf (labelOpt : Option Digest) (key : ADKey) (value : ADValue) (nextLeafKey : ADKey)
  | proverNode (labelOpt : Option Digest) (height : ℕ) (key : ADKey) (left right : ProverNodes)
      (balance : Balance)
  deriving DecidableEq

namespace ProverNodes

/-- `height`. -/
def height : ProverNodes → ℕ
  | leaf _ _ _ _ => 0
  | proverNode _ height _ _ _ _ => height

/-- `isInstanceOf[Leaf]`. -/
def isLeaf : ProverNodes → Bool
  | leaf _ _ _ _ => true
  | proverNode _ _ _ _ _ _ => false

/-- `label`, with the node after it: labels that had to be computed are cached. -/
def label (hf : CryptographicHash) : ProverNodes → Digest × ProverNodes
  | leaf (some l) key value nextLeafKey => (l, leaf (some l) key value nextLeafKey)
  | leaf none key value nextLeafKey =>
      let l := hf.prefixedHash 0 (key.bytes ++ value.bytes ++ nextLeafKey.bytes)
      (l, leaf (some l) key value nextLeafKey)
  | proverNode (some l) height key left right balance =>
      (l, proverNode (some l) height key left right balance)
  | proverNode none height key left right balance =>
      let leftLabel := label hf left
      let rightLabel := label hf right
      let l := hf.prefixedHash 1 ([balance.toUInt8] ++ leftLabel.1 ++ rightLabel.1)
      (l, proverNode (some l) height key leftLabel.2 rightLabel.2 balance)

/-- The node that `checkHeight` leaves. -/
def checked (labelOpt : Option Digest) (key : ADKey) (left right : ProverNodes)
    (balance : Balance) : ProverNodes :=
  proverNode labelOpt (max right.height left.height + 1) key left right balance

/-- What `checkHeight` returns. -/
def checkHeight (left right : ProverNodes) (balance : Balance) : Bool :=
  decide (balance.toInt = (right.height : ℤ) - left.height ∧ balance ≥ -1 ∧ balance ≤ 1)

end ProverNodes

/-! ## Operations -/

/-- What `run` can fail with. -/
inductive RunError where
  | keyLessThanNegativeInfinity (key : ADKey)
  | keyMoreThanPositiveInfinity (key : ADKey)
  | wrongKeyLength (length keyLength : ℕ)
  | wrongValueLength
  | notImplemented
  | update (e : UpdateError)
  | assertionFailed
  | internalNodeExpected
  | matchError
  deriving DecidableEq

/-- The parameters of a tree. -/
structure TreeParams where
  keyLength : ℕ
  valueLength : ℕ
  valueLength_lt : valueLength < 2 ^ 31
  hf : CryptographicHash

/-- What `modifyHelper` returns, and the elements that it has enqueued. -/
structure Modified where
  root : ProverNodes
  changeHappened : Bool
  childHeightIncreased : Bool
  proof : List AVLProofElement

/-- The node that `modifyHelper` was called on, after the call, and its result. -/
abbrev Outcome := ProverNodes × Except RunError Modified

section

variable (P : TreeParams) (operation : Operation)

/-- `ProofBalance(balance)`. -/
def proofBalance (balance : Balance) : Except RunError AVLProofElement :=
  if valid : balance = -1 ∨ balance = 0 ∨ balance = 1 then .ok (.proofBalance balance valid)
  else .error .matchError

/-- `modifyHelper` at a leaf: the result, and the leaf after it. -/
def modifyLeaf (labelOpt : Option Digest) (key : ADKey) (value : ADValue) (nextLeafKey : ADKey)
    (foundAbove : Bool) : Outcome :=
  let r := ProverNodes.leaf labelOpt key value nextLeafKey
  if foundAbove then
    let proof := [.proofDirection .leafFound, .proofNextLeafKey nextLeafKey, .proofValue value]
    match operation.updateFn with
    | none => (r, .ok ⟨r, false, false, proof⟩)
    | some updateFn =>
        match updateFn (some value) with
        | .ok none => (r, .error .notImplemented)
        | .ok (some v) =>
            if v.length = P.valueLength then
              let r' := .leaf none key v nextLeafKey
              (r', .ok ⟨r', true, false, proof⟩)
            else (r, .error .wrongValueLength)
        | .error e => (r, .error (.update e))
  else
    let proof := [.proofDirection .leafNotFound, .proofKey key, .proofNextLeafKey nextLeafKey,
      .proofValue value]
    match operation.updateFn with
    | none => (r, .ok ⟨r, false, false, proof⟩)
    | some updateFn =>
        match updateFn none with
        | .ok none => (r, .ok ⟨r, false, false, proof⟩)
        | .ok (some v) =>
            if v.length = P.valueLength then
              let newLeaf := .leaf none operation.key v nextLeafKey
              let r' := .leaf none key value operation.key
              (r', .ok ⟨.proverNode none 1 operation.key r' newLeaf 0, true, true, proof⟩)
            else (r, .error .wrongValueLength)
        | .error e => (r, .error (.update e))

/-- The balances of the children after a double rotation whose new root has the given one;
`leaves` are the children that they are asserted to have if it is a new node. -/
def doubleRotateBalances (balance : Balance) (leaves : List ProverNodes) :
    Except RunError (Balance × Balance) :=
  if balance = 0 then
    if leaves.all ProverNodes.isLeaf then .ok (0, 0) else .error .assertionFailed
  else if balance = -1 then .ok (0, 1)
  else if balance = 1 then .ok (-1, 0)
  else .error .matchError

/-- The double rotation of `r` with its changed left child `newLeft`, whose right child is
`newRoot`: the node `r` after it, and the new root. -/
def doubleRotateRight (height : ℕ) (key : ADKey) (right : ProverNodes) (balance : Balance)
    (lKey : ADKey) (lLeft : ProverNodes) (mKey : ADKey) (mLeft mRight : ProverNodes)
    (mBalance : Balance) : ProverNodes × Except RunError ProverNodes :=
  match doubleRotateBalances mBalance [mRight, right, lLeft, mLeft] with
  | .error e => (.proverNode none height key mRight right balance, .error e)
  | .ok b =>
      let r := .checked none key mRight right b.2
      let newLeft := .checked none lKey lLeft mLeft b.1
      if ProverNodes.checkHeight mRight right b.2 && ProverNodes.checkHeight lLeft mLeft b.1
          && ProverNodes.checkHeight newLeft r 0 then
        (r, .ok (.checked none mKey newLeft r 0))
      else (r, .error .assertionFailed)

/-- The double rotation of `r` with its changed right child `newRight`, whose left child is
`newRoot`. -/
def doubleRotateLeft (height : ℕ) (key : ADKey) (left : ProverNodes) (balance : Balance)
    (rKey : ADKey) (rRight : ProverNodes) (mKey : ADKey) (mLeft mRight : ProverNodes)
    (mBalance : Balance) : ProverNodes × Except RunError ProverNodes :=
  match doubleRotateBalances mBalance [left, mLeft, mRight, rRight] with
  | .error e => (.proverNode none height key left mLeft balance, .error e)
  | .ok b =>
      let r := .checked none key left mLeft b.1
      let newRight := .checked none rKey mRight rRight b.2
      if ProverNodes.checkHeight left mLeft b.1 && ProverNodes.checkHeight mRight rRight b.2
          && ProverNodes.checkHeight r newRight 0 then
        (r, .ok (.checked none mKey r newRight 0))
      else (r, .error .assertionFailed)

/-- `modifyHelper` at an inner node after its recursive call on the left child, which has
become `left` and returned `m`. -/
def afterLeft (labelOpt : Option Digest) (height : ℕ) (key : ADKey) (left right : ProverNodes)
    (balance : Balance) (m : Modified) : Outcome :=
  let result (root : ProverNodes) (increased : Bool) : Except RunError Modified :=
    .ok ⟨root, true, increased, m.proof⟩
  if m.changeHappened then
    if m.childHeightIncreased && balance < 0 then
      match m.root with
      | .leaf _ _ _ _ =>
          (.proverNode labelOpt height key left right balance, .error .internalNodeExpected)
      | .proverNode _ _ lKey lLeft lRight lBalance =>
          if lBalance < 0 then
            -- single rotation
            let r := .checked none key lRight right 0
            if ProverNodes.checkHeight lRight right 0 && ProverNodes.checkHeight lLeft r 0 then
              (r, result (.checked none lKey lLeft r 0) false)
            else (r, .error .assertionFailed)
          else
            match lRight with
            | .leaf _ _ _ _ =>
                (.proverNode labelOpt height key left right balance, .error .assertionFailed)
            | .proverNode _ _ mKey mLeft mRight mBalance =>
                if lBalance > 0 then
                  let res := doubleRotateRight height key right balance lKey lLeft mKey mLeft
                    mRight mBalance
                  (res.1, res.2.bind fun newRoot => result newRoot false)
                else
                  (.proverNode labelOpt height key left right balance, .error .assertionFailed)
    else
      let myHeightIncreased := m.childHeightIncreased && balance == 0
      let b := if m.childHeightIncreased then balance - 1 else balance
      let r := .checked none key m.root right b
      if ProverNodes.checkHeight m.root right b then (r, result r myHeightIncreased)
      else (r, .error .assertionFailed)
  else
    let r := .checked labelOpt key left right balance
    if ProverNodes.checkHeight left right balance then (r, .ok ⟨r, false, false, m.proof⟩)
    else (r, .error .assertionFailed)

/-- `modifyHelper` at an inner node after its recursive call on the right child. -/
def afterRight (labelOpt : Option Digest) (height : ℕ) (key : ADKey) (left right : ProverNodes)
    (balance : Balance) (m : Modified) : Outcome :=
  let result (root : ProverNodes) (increased : Bool) : Except RunError Modified :=
    .ok ⟨root, true, increased, m.proof⟩
  if m.changeHappened then
    if m.childHeightIncreased && balance > 0 then
      match m.root with
      | .leaf _ _ _ _ =>
          (.proverNode labelOpt height key left right balance, .error .internalNodeExpected)
      | .proverNode _ _ rKey rLeft rRight rBalance =>
          if rBalance > 0 then
            -- single rotation
            let r := .checked none key left rLeft 0
            if ProverNodes.checkHeight left rLeft 0 && ProverNodes.checkHeight r rRight 0 then
              (r, result (.checked none rKey r rRight 0) false)
            else (r, .error .assertionFailed)
          else
            match rLeft with
            | .leaf _ _ _ _ =>
                (.proverNode labelOpt height key left right balance, .error .assertionFailed)
            | .proverNode _ _ mKey mLeft mRight mBalance =>
                if rBalance < 0 then
                  let res := doubleRotateLeft height key left balance rKey rRight mKey mLeft
                    mRight mBalance
                  (res.1, res.2.bind fun newRoot => result newRoot false)
                else
                  (.proverNode labelOpt height key left right balance, .error .assertionFailed)
    else
      let myHeightIncreased := m.childHeightIncreased && balance == 0
      let b := if m.childHeightIncreased then balance + 1 else balance
      let r := .checked none key left m.root b
      if ProverNodes.checkHeight left m.root b then (r, result r myHeightIncreased)
      else (r, .error .assertionFailed)
  else
    let r := .checked labelOpt key left right balance
    if ProverNodes.checkHeight left right balance then (r, .ok ⟨r, false, false, m.proof⟩)
    else (r, .error .assertionFailed)

/-- `nextStepIsLeft` and `found` at an inner node with the key `k`.  Below the node that has
the key it is always left, until the leaf. -/
def nextStep (key : ADKey) (foundAbove : Bool) (k : ADKey) : Bool × Bool :=
  if foundAbove then (true, true)
  else
    match compare key k with
    | .eq => (false, true)
    | .lt => (true, false)
    | .gt => (false, false)

/-- `modifyHelper(rNode, foundAbove)`. -/
def modifyHelper : ProverNodes → Bool → Outcome
  | .leaf labelOpt key value nextLeafKey, foundAbove =>
      modifyLeaf P operation labelOpt key value nextLeafKey foundAbove
  | .proverNode labelOpt height key left right balance, foundAbove =>
      let step := nextStep operation.key foundAbove key
      if step.1 then
        let rightLabel := right.label P.hf
        match proofBalance balance with
        | .error e => (.proverNode labelOpt height key left rightLabel.2 balance, .error e)
        | .ok element =>
            let child := modifyHelper left step.2
            match child.2 with
            | .error e => (.proverNode labelOpt height key child.1 rightLabel.2 balance, .error e)
            | .ok m => afterLeft labelOpt height key child.1 rightLabel.2 balance
                { m with proof := [.proofDirection .goingLeft, .proofRightLabel rightLabel.1,
                  element] ++ m.proof }
      else
        let leftLabel := left.label P.hf
        match proofBalance balance with
        | .error e => (.proverNode labelOpt height key leftLabel.2 right balance, .error e)
        | .ok element =>
            let child := modifyHelper right step.2
            match child.2 with
            | .error e => (.proverNode labelOpt height key leftLabel.2 child.1 balance, .error e)
            | .ok m => afterRight labelOpt height key leftLabel.2 child.1 balance
                { m with proof := [.proofDirection .goingRight, .proofLeftLabel leftLabel.1,
                  element] ++ m.proof }

/-- `AVLModifyProof`. -/
structure AVLModifyProof where
  key : ADKey
  proofSeq : List AVLProofElement
  deriving DecidableEq

end

namespace TreeParams

/-- `PositiveInfinityKey`. -/
def positiveInfinityKey (P : TreeParams) : ADKey := ⟨List.replicate P.keyLength 255⟩

/-- `NegativeInfinityKey`. -/
def negativeInfinityKey (P : TreeParams) : ADKey := ⟨List.replicate P.keyLength 0⟩

end TreeParams

/-- `AVLTree`. -/
structure AVLTree where
  topNode : ProverNodes
  deriving DecidableEq

namespace AVLTree

variable (P : TreeParams)

/-- The value of the leaf of an empty tree. -/
def sentinelValue : ADValue where
  bytes := List.replicate P.valueLength 0
  length_lt := by rw [List.length_replicate]; exact P.valueLength_lt

/-- `DefaultTopNode`. -/
def defaultTopNode : ProverNodes :=
  .leaf none P.negativeInfinityKey (sentinelValue P) P.positiveInfinityKey

/-- A tree, made from `rootOpt`. -/
def new (rootOpt : Option ProverNodes) : AVLTree := ⟨rootOpt.getD (defaultTopNode P)⟩

/-- `rootHash()`, with the tree after it. -/
def rootHash (tree : AVLTree) : Digest × AVLTree :=
  let label := tree.topNode.label P.hf
  (label.1, ⟨label.2⟩)

/-- `run(operation)`. -/
def run (tree : AVLTree) (operation : Operation) : Except RunError AVLModifyProof × AVLTree :=
  let key := operation.key
  if ¬ key > P.negativeInfinityKey then (.error (.keyLessThanNegativeInfinity key), tree)
  else if ¬ key < P.positiveInfinityKey then (.error (.keyMoreThanPositiveInfinity key), tree)
  else if ¬ key.length = P.keyLength then
    (.error (.wrongKeyLength key.length P.keyLength), tree)
  else
    let out := modifyHelper P operation tree.topNode false
    match out.2 with
    | .error e => (.error e, ⟨out.1⟩)
    | .ok m => (.ok ⟨key, m.proof⟩, ⟨if m.changeHappened then m.root else out.1⟩)

end AVLTree

end Sparkz.Legacy
