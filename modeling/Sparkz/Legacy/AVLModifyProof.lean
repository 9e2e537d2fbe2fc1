import Sparkz.Legacy.AVLTree

/-!
# The legacy proofs

The model of `legacy.avltree.AVLModifyProof` and of the iterator over its elements.

* `Node`, `label` — the nodes of a verifier: most subtrees are known by their label only.
* `verifyHelper` — the walk along the elements, with the change at the leaf and the
  rotations.  Everything that is thrown in it ends in `verify`, so it returns `none` then.
* `verify`, `verifyLookup` — the check of a proof against a root hash.
* `Follows` — the elements are those of a way through a tree.
-/

namespace Sparkz.Legacy

open Sparkz.Lib Sparkz.Lib.LeafTree Sparkz.Avl

/-! ## Nodes -/

/-- `Node`; all but the first one are `VerifierNodes`. -/
inductive Node where
  | labelOnlyNode (l : Digest)
  | leaf (labelOpt : Option Digest) (key : ADKey) (value : ADValue) (nextLeafKey : ADKey)
  | verifierNode (labelOpt : Option Digest) (left right : Node) (balance : Balance)
  deriving DecidableEq

/-- `label`, with the node after it. -/
def Node.label (hf : CryptographicHash) : Node → Digest × Node
  | labelOnlyNode l => (l, labelOnlyNode l)
  | leaf (some l) key value nextLeafKey => (l, leaf (some l) key value nextLeafKey)
  | leaf none key value nextLeafKey =>
      let l := hf.prefixedHash 0 (key.bytes ++ value.bytes ++ nextLeafKey.bytes)
      (l, leaf (some l) key value nextLeafKey)
  | verifierNode (some l) left right balance => (l, verifierNode (some l) left right balance)
  | verifierNode none left right balance =>
      let leftLabel := label hf left
      let rightLabel := label hf right
      let l := hf.prefixedHash 1 ([balance.toUInt8] ++ leftLabel.1 ++ rightLabel.1)
      (l, verifierNode (some l) leftLabel.2 rightLabel.2 balance)

/-! ## The iterator -/

namespace AVLProofElement

/-- `dequeueDirection`, of the next element. -/
def direction? : AVLProofElement → Option Direction
  | proofDirection direction => some direction
  | _ => none

/-- `dequeueRightLabel`. -/
def rightLabel? : AVLProofElement → Option Digest
  | proofRightLabel e => some e
  | _ => none

/-- `dequeueLeftLabel`. -/
def leftLabel? : AVLProofElement → Option Digest
  | proofLeftLabel e => some e
  | _ => none

/-- `dequeueKey`. -/
def key? : AVLProofElement → Option ADKey
  | proofKey e => some e
  | _ => none

/-- `dequeueNextLeafKey`. -/
def nextLeafKey? : AVLProofElement → Option ADKey
  | proofNextLeafKey e => some e
  | _ => none

/-- `dequeueValue`. -/
def value? : AVLProofElement → Option ADValue
  | proofValue e => some e
  | _ => none

/-- `dequeueBalance`: the first byte of an element of any class. -/
def balance? (element : AVLProofElement) : Option Balance :=
  match element.bytes.head? with
  | some 255 => some (-1)
  | some 0 => some 0
  | some 1 => some 1
  | _ => none

end AVLProofElement

/-! ## Verification -/

/-- What `verifyHelper` returns. -/
structure Verified where
  root : Node
  changeHappened : Bool
  heightIncreased : Bool
  oldLabel : Digest

section

variable (hf : CryptographicHash) (key : ADKey) (updateFn : UpdateFunction)

/-- `verifyHelper` for `LeafFound`. -/
def verifyFound (nextLeafKey : ADKey) (value : ADValue) : Option Verified :=
  match updateFn (some value) with
  | .ok none => none
  | .ok (some v) =>
      some ⟨.leaf none key v nextLeafKey, true, false,
        ((Node.leaf none key value nextLeafKey).label hf).1⟩
  | .error _ => none

/-- `verifyHelper` for `LeafNotFound`. -/
def verifyNotFound (neighbourLeafKey nextLeafKey : ADKey) (value : ADValue) : Option Verified :=
  if neighbourLeafKey < key ∧ key < nextLeafKey then
    let r := (Node.leaf none neighbourLeafKey value nextLeafKey).label hf
    match updateFn none with
    | .ok none => some ⟨r.2, false, false, r.1⟩
    | .ok (some v) =>
        let newLeaf := (Node.leaf none key v nextLeafKey).label hf
        let r' := (Node.leaf none neighbourLeafKey value key).label hf
        some ⟨.verifierNode none (.labelOnlyNode r'.1) (.labelOnlyNode newLeaf.1) 0, true, true,
          r.1⟩
    | .error _ => none
  else none

/-- `verifyHelper` for `GoingLeft` after its recursive call. -/
def verifyLeft (rightLabel : Digest) (balance : Balance) (child : Verified) : Option Verified :=
  let right := Node.labelOnlyNode rightLabel
  let r := (Node.verifierNode none (.labelOnlyNode child.oldLabel) right balance).label hf
  if child.changeHappened then
    if child.heightIncreased && balance < 0 then
      match child.root with
      | .verifierNode _ lLeft lRight lBalance =>
          if lBalance < 0 then
            some ⟨.verifierNode none lLeft (.verifierNode none lRight right 0) 0, true, false, r.1⟩
          else
            match lRight with
            | .verifierNode _ mLeft mRight mBalance =>
                (splitBalance mBalance).map fun b =>
                  ⟨.verifierNode none (.verifierNode none lLeft mLeft b.1)
                    (.verifierNode none mRight right b.2) 0, true, false, r.1⟩
            | _ => none
      | _ => none
    else
      some ⟨.verifierNode none child.root right
          (if child.heightIncreased then balance - 1 else balance), true,
        child.heightIncreased && balance == 0, r.1⟩
  else some ⟨r.2, false, false, r.1⟩

/-- `verifyHelper` for `GoingRight` after its recursive call. -/
def verifyRight (leftLabel : Digest) (balance : Balance) (child : Verified) : Option Verified :=
  let left := Node.labelOnlyNode leftLabel
  let r := (Node.verifierNode none left (.labelOnlyNode child.oldLabel) balance).label hf
  if child.changeHappened then
    if child.heightIncreased && balance > 0 then
      match child.root with
      | .verifierNode _ rLeft rRight rBalance =>
          if rBalance > 0 then
            some ⟨.verifierNode none (.verifierNode none left rLeft 0) rRight 0, true, false, r.1⟩
          else
            match rLeft with
            | .verifierNode _ mLeft mRight mBalance =>
                (splitBalance mBalance).map fun b =>
                  ⟨.verifierNode none (.verifierNode none left mLeft b.1)
                    (.verifierNode none mRight rRight b.2) 0, true, false, r.1⟩
            | _ => none
      | _ => none
    else
      some ⟨.verifierNode none left child.root
          (if child.heightIncreased then balance + 1 else balance), true,
        child.heightIncreased && balance == 0, r.1⟩
  else some ⟨r.2, false, false, r.1⟩

/-- `verifyHelper(updateFn)`, on the elements that are left.  An inner node takes three of
them, and so does a leaf that is found; a leaf that is not found takes four. -/
def verifyHelper : List AVLProofElement → Option Verified
  | e₀ :: e₁ :: e₂ :: rest =>
      match e₀.direction? with
      | none => none
      | some .leafFound => do
          let nextLeafKey ← e₁.nextLeafKey?
          let value ← e₂.value?
          verifyFound hf key updateFn nextLeafKey value
      | some .leafNotFound => do
          let neighbourLeafKey ← e₁.key?
          let nextLeafKey ← e₂.nextLeafKey?
          let e₃ ← rest.head?
          let value ← e₃.value?
          verifyNotFound hf key updateFn neighbourLeafKey nextLeafKey value
      | some .goingLeft => do
          let rightLabel ← e₁.rightLabel?
          let balance ← e₂.balance?
          let child ← verifyHelper rest
          verifyLeft hf rightLabel balance child
      | some .goingRight => do
          let leftLabel ← e₁.leftLabel?
          let balance ← e₂.balance?
          let child ← verifyHelper rest
          verifyRight hf leftLabel balance child
  | _ => none

end

namespace AVLModifyProof

variable (hf : CryptographicHash) (proof : AVLModifyProof)

/-- `verify(digest, updateFn)`. -/
def verify (digest : Digest) (updateFn : UpdateFunction) : Option Digest :=
  match verifyHelper hf proof.key updateFn proof.proofSeq with
  | none => none
  | some v => if v.oldLabel = digest then some (v.root.label hf).1 else none

/-- `existenceLookupFunction`. -/
def existenceLookupFunction : UpdateFunction
  | some v => .ok (some v)
  | none => .error (.other "Key not found")

/-- `nonExistenceLookupFunction`. -/
def nonExistenceLookupFunction : UpdateFunction
  | some _ => .error (.other "Key found")
  | none => .ok none

/-- `verifyLookup(digest, existence)`. -/
def verifyLookup (digest : Digest) (existence : Bool) : Option Digest :=
  if existence then proof.verify hf digest existenceLookupFunction
  else proof.verify hf digest nonExistenceLookupFunction

end AVLModifyProof

end Sparkz.Legacy
