import Sparkz.Legacy.Simulation
import Sparkz.Lib.LeafTreeLevels

/-!
# The legacy treap

The model of `legacy.treap.Treap` and `legacy.treap.TreapModifyProof`.  As with the legacy
AVL tree, the objects of a treap form a tree and are a value here, with the labels that
they have cached.

* `OrderedLevel` — what is known of a level: its bytes and its order.
* `WTProofElement` — the elements of a proof.
* `ProverNodes`, `modifyHelper`, `Treap` — the treap and its operations.
* `VerifierNodes`, `verifyHelper`, `TreapModifyProof.verify` — the check of a proof.
-/

namespace Sparkz.Legacy.Treaps

open Sparkz.Lib Sparkz.Avl

/-! ## Levels and proofs -/

/-- `Level`: an implementation has bytes and is compared with other levels. -/
class OrderedLevel (L : Type) where
  bytes : L → List UInt8
  compare : L → L → Ordering

/-- `IntLevel` and `ByteLevel`: levels of different classes are compared by their bytes. -/
instance : OrderedLevel Level where
  bytes := Level.bytes
  compare
    | .intLevel level, .intLevel r => Ord.compare level.toInt r.toInt
    | .byteLevel level, .byteLevel r => Ord.compare level.toInt r.toInt
    | level, that => Ord.compare (⟨level.bytes⟩ : ADKey) ⟨that.bytes⟩

/-- `WTProofElement`. -/
inductive WTProofElement (L : Type) where
  | proofLevel (e : L)
  | proofRightLabel (e : Digest)
  | proofLeftLabel (e : Digest)
  | proofKey (e : ADKey)
  | proofNextLeafKey (e : ADKey)
  | proofValue (e : ADValue)
  | proofDirection (direction : Direction)
  deriving DecidableEq

namespace WTProofElement

variable {L : Type}

/-- `dequeueDirection`, of the next element. -/
def direction? : WTProofElement L → Option Direction
  | proofDirection direction => some direction
  | _ => none

/-- `dequeueRightLabel`. -/
def rightLabel? : WTProofElement L → Option Digest
  | proofRightLabel e => some e
  | _ => none

/-- `dequeueLeftLabel`. -/
def leftLabel? : WTProofElement L → Option Digest
  | proofLeftLabel e => some e
  | _ => none

/-- `dequeueKey`. -/
def key? : WTProofElement L → Option ADKey
  | proofKey e => some e
  | _ => none

/-- `dequeueNextLeafKey`. -/
def nextLeafKey? : WTProofElement L → Option ADKey
  | proofNextLeafKey e => some e
  | _ => none

/-- `dequeueValue`. -/
def value? : WTProofElement L → Option ADValue
  | proofValue e => some e
  | _ => none

/-- `dequeueLevel`. -/
def level? : WTProofElement L → Option L
  | proofLevel e => some e
  | _ => none

end WTProofElement

/-! ## Nodes -/

/-- `ProverNodes`.  The level of a node is that of its key. -/
inductive ProverNodes where
  | leaf (labelOpt : Option Digest) (key : ADKey) (value : ADValue) (nextLeafKey : ADKey)
  | proverNode (labelOpt : Option Digest) (key : ADKey) (left right : ProverNodes)
  deriving DecidableEq

section

variable {L : Type} [OrderedLevel L] (hf : CryptographicHash) (levelFunc : ADKey → L)

/-- `computeLabel` of a leaf. -/
def leafLabel (key : ADKey) (value : ADValue) (nextLeafKey : ADKey) : Digest :=
  hf.prefixedHash 0 (key.bytes ++ value.bytes ++ nextLeafKey.bytes)

/-- `computeLabel` of an inner node. -/
def internalLabel (level : L) (leftLabel rightLabel : Digest) : Digest :=
  hf.prefixedHash 1 (OrderedLevel.bytes level ++ leftLabel ++ rightLabel)

/-- `label`, with the node after it: labels that had to be computed are cached. -/
def ProverNodes.label : ProverNodes → Digest × ProverNodes
  | leaf (some l) key value nextLeafKey => (l, leaf (some l) key value nextLeafKey)
  | leaf none key value nextLeafKey =>
      let l := leafLabel hf key value nextLeafKey
      (l, leaf (some l) key value nextLeafKey)
  | proverNode (some l) key left right => (l, proverNode (some l) key left right)
  | proverNode none key left right =>
      let leftLabel := label left
      let rightLabel := label right
      let l := internalLabel hf (levelFunc key) leftLabel.1 rightLabel.1
      (l, proverNode (some l) key leftLabel.2 rightLabel.2)

/-! ## Operations -/

/-- What `run` can fail with. -/
inductive TreapError where
  | requirementFailed
  | notImplemented
  | update (e : UpdateError)
  deriving DecidableEq

/-- What `modifyHelper` returns, and the elements that it has enqueued. -/
structure Modified (L : Type) where
  root : ProverNodes
  changeHappened : Bool
  proof : List (WTProofElement L)

/-- The node that `modifyHelper` was called on, after the call, and its result. -/
abbrev Outcome (L : Type) := ProverNodes × Except TreapError (Modified L)

/-- `updateFn` in `run`: a `Lookup` returns what it finds. -/
def updateFn (operation : Operation) : UpdateFunction :=
  match operation.updateFn with
  | none => fun x => .ok x
  | some updateFn => updateFn

/-- `modifyHelper` at a leaf. -/
def modifyLeaf (operation : Operation) (labelOpt : Option Digest) (key : ADKey) (value : ADValue)
    (nextLeafKey : ADKey) (foundAbove : Bool) : Outcome L :=
  let r := ProverNodes.leaf labelOpt key value nextLeafKey
  if foundAbove then
    let proof := [.proofDirection .leafFound, .proofNextLeafKey nextLeafKey, .proofValue value]
    match updateFn operation (some value) with
    | .ok none => (r, .error .notImplemented)
    | .ok (some v) =>
        let r' := .leaf none key v nextLeafKey
        (r', .ok ⟨r', true, proof⟩)
    | .error e => (r, .error (.update e))
  else
    let proof := [.proofDirection .leafNotFound, .proofKey key, .proofNextLeafKey nextLeafKey,
      .proofValue value]
    match updateFn operation none with
    | .ok none => (r, .error .notImplemented)
    | .ok (some v) =>
        let newLeaf := .leaf none operation.key v nextLeafKey
        let r' := .leaf none key value operation.key
        (r', .ok ⟨.proverNode none operation.key r' newLeaf, true, proof⟩)
    | .error e => (r, .error (.update e))

/-- `modifyHelper` at an inner node after its recursive call on the left child, which has
become `left` and returned `m`. -/
def afterLeft (labelOpt : Option Digest) (key : ADKey) (left right : ProverNodes)
    (m : Modified L) : Outcome L :=
  if m.changeHappened then
    let attached := ProverNodes.proverNode none key m.root right
    match m.root with
    | .proverNode _ lKey lLeft lRight =>
        if (OrderedLevel.compare (levelFunc lKey) (levelFunc key)).isGE then
          let r := .proverNode none key lRight right
          (r, .ok ⟨.proverNode none lKey lLeft r, true, m.proof⟩)
        else (attached, .ok ⟨attached, true, m.proof⟩)
    | .leaf _ _ _ _ => (attached, .ok ⟨attached, true, m.proof⟩)
  else
    let r := .proverNode labelOpt key left right
    (r, .ok ⟨r, false, m.proof⟩)

/-- `modifyHelper` at an inner node after its recursive call on the right child. -/
def afterRight (labelOpt : Option Digest) (key : ADKey) (left right : ProverNodes)
    (m : Modified L) : Outcome L :=
  if m.changeHappened then
    let attached := ProverNodes.proverNode none key left m.root
    match m.root with
    | .proverNode _ rKey rLeft rRight =>
        if (OrderedLevel.compare (levelFunc rKey) (levelFunc key)).isGT then
          let r := .proverNode none key left rLeft
          (r, .ok ⟨.proverNode none rKey r rRight, true, m.proof⟩)
        else (attached, .ok ⟨attached, true, m.proof⟩)
    | .leaf _ _ _ _ => (attached, .ok ⟨attached, true, m.proof⟩)
  else
    let r := .proverNode labelOpt key left right
    (r, .ok ⟨r, false, m.proof⟩)

/-- `modifyHelper(rNode, foundAbove)`. -/
def modifyHelper (operation : Operation) : ProverNodes → Bool → Outcome L
  | .leaf labelOpt key value nextLeafKey, foundAbove =>
      modifyLeaf operation labelOpt key value nextLeafKey foundAbove
  | .proverNode labelOpt key left right, foundAbove =>
      let step := nextStep operation.key foundAbove key
      if step.1 then
        let rightLabel := right.label hf levelFunc
        let child := modifyHelper operation left step.2
        match child.2 with
        | .error e => (.proverNode labelOpt key child.1 rightLabel.2, .error e)
        | .ok m => afterLeft levelFunc labelOpt key child.1 rightLabel.2
            { m with proof := [.proofDirection .goingLeft, .proofRightLabel rightLabel.1,
              .proofLevel (levelFunc key)] ++ m.proof }
      else
        let leftLabel := left.label hf levelFunc
        let child := modifyHelper operation right step.2
        match child.2 with
        | .error e => (.proverNode labelOpt key leftLabel.2 child.1, .error e)
        | .ok m => afterRight levelFunc labelOpt key leftLabel.2 child.1
            { m with proof := [.proofDirection .goingRight, .proofLeftLabel leftLabel.1,
              .proofLevel (levelFunc key)] ++ m.proof }

end

/-- `PositiveInfinity`, its key. -/
def positiveInfinity : ADKey := ⟨List.replicate 512 255⟩

/-- `NegativeInfinity`, its key. -/
def negativeInfinity : ADKey := ⟨[0]⟩

/-- `TreapModifyProof`. -/
structure TreapModifyProof (L : Type) where
  key : ADKey
  proofSeq : List (WTProofElement L)
  deriving DecidableEq

/-- `Treap`. -/
structure Treap where
  topNode : ProverNodes
  deriving DecidableEq

namespace Treap

/-- A treap, made from `rootOpt`. -/
def new (rootOpt : Option ProverNodes) : Treap :=
  ⟨rootOpt.getD (.leaf none negativeInfinity ⟨[], by simp⟩ positiveInfinity)⟩

section

variable {L : Type} [OrderedLevel L] (hf : CryptographicHash) (levelFunc : ADKey → L)

/-- `rootHash()`, with the treap after it. -/
def rootHash (treap : Treap) : Digest × Treap :=
  let label := treap.topNode.label hf levelFunc
  (label.1, ⟨label.2⟩)

/-- `run(operation)`. -/
def run (treap : Treap) (operation : Operation) :
    Except TreapError (TreapModifyProof L) × Treap :=
  let key := operation.key
  if ¬ key > negativeInfinity then (.error .requirementFailed, treap)
  else if ¬ key < positiveInfinity then (.error .requirementFailed, treap)
  else
    let out := modifyHelper hf levelFunc operation treap.topNode false
    match out.2 with
    | .error e => (.error e, ⟨out.1⟩)
    | .ok m => (.ok ⟨key, m.proof⟩, ⟨if m.changeHappened then m.root else out.1⟩)

end

end Treap

/-! ## Verification -/

/-- `VerifierNodes`: of the children of an inner node only the labels are known. -/
inductive VerifierNodes (L : Type) where
  | leaf (labelOpt : Option Digest) (key : ADKey) (value : ADValue) (nextLeafKey : ADKey)
  | verifierNode (labelOpt : Option Digest) (leftLabel rightLabel : Digest) (level : L)
  deriving DecidableEq

/-- What `verifyHelper` returns. -/
structure Verified (L : Type) where
  root : VerifierNodes L
  changeHappened : Bool
  oldLabel : Digest

section

variable {L : Type} [OrderedLevel L] (hf : CryptographicHash) (levelFunc : ADKey → L)

/-- `label`, with the node after it. -/
def VerifierNodes.label : VerifierNodes L → Digest × VerifierNodes L
  | leaf (some l) key value nextLeafKey => (l, leaf (some l) key value nextLeafKey)
  | leaf none key value nextLeafKey =>
      let l := leafLabel hf key value nextLeafKey
      (l, leaf (some l) key value nextLeafKey)
  | verifierNode (some l) leftLabel rightLabel level =>
      (l, verifierNode (some l) leftLabel rightLabel level)
  | verifierNode none leftLabel rightLabel level =>
      let l := internalLabel hf level leftLabel rightLabel
      (l, verifierNode (some l) leftLabel rightLabel level)

variable (key : ADKey) (updateFn : UpdateFunction)

/-- `verifyHelper` for `LeafFound`. -/
def verifyFound (nextLeafKey : ADKey) (value : ADValue) : Option (Verified L) :=
  match updateFn (some value) with
  | .ok none => none
  | .ok (some v) => some ⟨.leaf none key v nextLeafKey, true, leafLabel hf key value nextLeafKey⟩
  | .error _ => none

/-- `verifyHelper` for `LeafNotFound`. -/
def verifyNotFound (neighbourLeafKey nextLeafKey : ADKey) (value : ADValue) :
    Option (Verified L) :=
  if neighbourLeafKey < key ∧ key < nextLeafKey then
    let oldLabel := leafLabel hf neighbourLeafKey value nextLeafKey
    match updateFn none with
    | .ok none => none
    | .ok (some v) =>
        some ⟨.verifierNode none (leafLabel hf neighbourLeafKey value key)
          (leafLabel hf key v nextLeafKey) (levelFunc key), true, oldLabel⟩
    | .error _ => none
  else none

/-- `verifyHelper` for `GoingLeft` after its recursive call. -/
def verifyLeft (rightLabel : Digest) (level : L) (child : Verified L) : Verified L :=
  let r := (VerifierNodes.verifierNode none child.oldLabel rightLabel level).label hf
  if child.changeHappened then
    let attached := VerifierNodes.verifierNode none (child.root.label hf).1 rightLabel level
    match child.root with
    | .verifierNode _ lLeft lRight lLevel =>
        if (OrderedLevel.compare lLevel level).isGE then
          let r' := (VerifierNodes.verifierNode none lRight rightLabel level).label hf
          ⟨.verifierNode none lLeft r'.1 lLevel, true, r.1⟩
        else ⟨attached, true, r.1⟩
    | .leaf _ _ _ _ => ⟨attached, true, r.1⟩
  else ⟨r.2, false, r.1⟩

/-- `verifyHelper` for `GoingRight` after its recursive call. -/
def verifyRight (leftLabel : Digest) (level : L) (child : Verified L) : Verified L :=
  let r := (VerifierNodes.verifierNode none leftLabel child.oldLabel level).label hf
  if child.changeHappened then
    let attached := VerifierNodes.verifierNode none leftLabel (child.root.label hf).1 level
    match child.root with
    | .verifierNode _ rLeft rRight rLevel =>
        if (OrderedLevel.compare rLevel level).isGT then
          let r' := (VerifierNodes.verifierNode none leftLabel rLeft level).label hf
          ⟨.verifierNode none r'.1 rRight rLevel, true, r.1⟩
        else ⟨attached, true, r.1⟩
    | .leaf _ _ _ _ => ⟨attached, true, r.1⟩
  else ⟨r.2, false, r.1⟩

/-- `verifyHelper()`, on the elements that are left. -/
def verifyHelper : List (WTProofElement L) → Option (Verified L)
  | e₀ :: e₁ :: e₂ :: rest =>
      match e₀.direction? with
      | none => none
      | some .leafFound => do
          let nextLeafKey ← e₁.nextLeafKey?
          let value ← e₂.value?
          verifyFound hf key updateFn nextLeafKey value
      | some .leafNotFound => do
          let neighbourLeafKey ← e₁.key?
          let nextLeafKey ← e₂.nextLeafKey?
          let e₃ ← rest.head?
          let value ← e₃.value?
          verifyNotFound hf levelFunc key updateFn neighbourLeafKey nextLeafKey value
      | some .goingLeft => do
          let rightLabel ← e₁.rightLabel?
          let level ← e₂.level?
          let child ← verifyHelper rest
          return verifyLeft hf rightLabel level child
      | some .goingRight => do
          let leftLabel ← e₁.leftLabel?
          let level ← e₂.level?
          let child ← verifyHelper rest
          return verifyRight hf leftLabel level child
  | _ => none

/-- `verify(digest, updateFn)`. -/
def TreapModifyProof.verify (proof : TreapModifyProof L) (digest : Digest)
    (updateFn : UpdateFunction) : Option Digest :=
  match verifyHelper hf levelFunc proof.key updateFn proof.proofSeq with
  | none => none
  | some v => if v.oldLabel = digest then some (v.root.label hf).1 else none

end

end Sparkz.Legacy.Treaps
