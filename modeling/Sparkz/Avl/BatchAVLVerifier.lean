import Sparkz.Avl.BatchAVLProver

/-!
# The batch verifier

The model of `BatchAVLVerifier`.

* `verifierNavigation` — the verifier reads its way from the proof and checks at the
  leaf that it has come to the right one; a deletion reads the way again.
* `reconstructedTree` — the tree is read from the proof, in post-order, and accepted if
  its label is the one in the digest the verifier starts from.  The loop over the proof
  is bounded by a number of steps: a negative length of a value sends it backwards.
* `BatchAVLVerifier`, `performOneOperation`, `digest` — after a failure there is no
  tree any more.
-/

namespace Sparkz.Avl

open Sparkz.Lib

/-- The variables of the verifier that concern the way through the tree.  They are `Int`s: the
index of a bit is negative from 2 ^ 28 bytes on. -/
structure VerifierNav where
  directionsIndex : ℤ
  lastRightStep : ℤ
  replayIndex : ℤ
  deriving DecidableEq

section

variable (proof : List UInt8)

/-- `(proof(i >> 3) & (1 << (i & 7)).toByte) != 0`. -/
def proofBit (i : ℤ) : EStateM AvlError VerifierNav Bool :=
  if i < 0 then throw .indexOutOfBounds
  else
    match proof[i.toNat / 8]? with
    | none => throw .indexOutOfBounds
    | some byte => return byte.toNat.testBit (i.toNat % 8)

/-- `nextDirectionIsLeft(key, r)` of the verifier. -/
def verifierNextDirectionIsLeft (_key : ADKey) (_nodeKey : Option ADKey) :
    EStateM AvlError VerifierNav Bool := do
  let i := (← get).directionsIndex
  if (← proofBit proof i) then
    modify fun nav => { nav with directionsIndex := wrapInt (i + 1) }
    return true
  else
    modify fun nav => { nav with lastRightStep := i, directionsIndex := wrapInt (i + 1) }
    return false

/-- `keyMatchesLeaf(key, r)` of the verifier. -/
def verifierKeyMatchesLeaf (key leafKey nextLeafKey : ADKey) : EStateM AvlError VerifierNav Bool :=
  match compare key leafKey with
  | .lt => throw .requirementFailed
  | .eq => return true
  | .gt => if key < nextLeafKey then return false else throw .requirementFailed

/-- `replayComparison` of the verifier. -/
def verifierReplayComparison : EStateM AvlError VerifierNav ℤ := do
  let nav ← get
  let ret ← if nav.replayIndex = nav.lastRightStep then pure 0
    else do
      let bit ← proofBit proof nav.replayIndex
      if !bit && nav.replayIndex < nav.lastRightStep then pure 1 else pure (-1)
  modify fun nav => { nav with replayIndex := wrapInt (nav.replayIndex + 1) }
  return ret

/-- How the verifier finds its way. -/
def verifierNavigation : Navigation VerifierNav where
  mode := .verifier
  keyMatchesLeaf := verifierKeyMatchesLeaf
  nextDirectionIsLeft := verifierNextDirectionIsLeft proof
  replayComparison := verifierReplayComparison proof

end

/-! ## Reading the tree -/

/-- `while (temp < realNumOperations) { temp = temp * 2; logNumOps += 1 }`. -/
def logNumOpsLoop (realNumOperations : ℤ) : ℕ → ℤ → ℤ → Except AvlError ℤ
  | 0, _, _ => .error .notTerminating
  | fuel + 1, temp, logNumOps =>
      if temp < realNumOperations then
        logNumOpsLoop realNumOperations fuel (wrapInt (temp * 2)) (logNumOps + 1)
      else .ok logNumOps

/-- The largest number of nodes that a proof for so many operations may have.  After 32
rounds of the loop `temp` is 0 and stays so. -/
def maxNodes (rootNodeHeight realNumOperations realMaxDeletes : ℤ) : Except AvlError ℤ := do
  let logNumOps ← logNumOpsLoop realNumOperations 34 1 0
  let temp := 1 + max rootNodeHeight logNumOps
  let hnew := temp + temp / 2
  return wrapInt ((realNumOperations + realMaxDeletes) * (2 * rootNodeHeight + 1)
    + realMaxDeletes * hnew + 1)

/-- `proof.slice(start, stop)`. -/
def slice (proof : List UInt8) (start stop : ℤ) : List UInt8 :=
  (proof.take stop.toNat).drop start.toNat

/-- An array of bytes as a value; no array is longer. -/
def mkValue (bytes : List UInt8) : ADValue where
  bytes := bytes.take (2 ^ 31 - 1)
  length_lt := by
    rw [List.length_take]
    omega

theorem mkValue_bytes (v : ADValue) : mkValue v.bytes = v := by
  obtain ⟨bytes, hlt⟩ := v
  have htake : bytes.take (2 ^ 31 - 1) = bytes := List.take_of_length_le (by omega)
  simp only [mkValue, htake]

/-- The variables of the loop over the proof.  Of the previous leaf only its
`nextLeafKey` is used; the numbers are `Int`s. -/
structure ParseState where
  numNodes : ℤ
  s : List Ref
  i : ℤ
  previousLeaf : Option ADKey

section

variable (P : TreeParams) (startingDigest : Digest) (proof : List UInt8)

/-- `proof(i)`. -/
def proofByte (i : ℤ) : TreeM VerifierNav UInt8 :=
  if i < 0 then throw .indexOutOfBounds
  else
    match proof[i.toNat]? with
    | none => throw .indexOutOfBounds
    | some byte => return byte

/-- The length of the value at `i`, and where the value starts. -/
def parseValueLength (i : ℤ) : TreeM VerifierNav (ℤ × ℤ) :=
  match P.valueLengthOpt with
  | some vl => return (vl, i)
  | none =>
      let bytes := slice proof i (wrapInt (i + 4))
      if bytes.length < 4 then throw .requirementFailed
      else return (signed 32 (ofBytes bytes), wrapInt (i + 4))

/-- One round of the loop over the proof, once the byte `n` is read. -/
def parseNode (st : ParseState) (n : UInt8) : TreeM VerifierNav ParseState := do
  let i := wrapInt (st.i + 1)
  if n = BatchAVLProver.labelInPackagedProof then
    let stop := wrapInt (i + P.labelLength)
    let node ← newLabelOnlyNode (slice proof i stop)
    return { st with s := node :: st.s, i := stop, previousLeaf := none }
  else if n = BatchAVLProver.leafInPackagedProof then
    let (key, i) := match st.previousLeaf with
      | some nextLeafKey => (nextLeafKey, i)
      | none =>
          (⟨slice proof i (wrapInt (i + P.keyLength))⟩, wrapInt (i + P.keyLength))
    let nextLeafKey := ⟨slice proof i (wrapInt (i + P.keyLength))⟩
    let (valueLength, i) ← parseValueLength P proof (wrapInt (i + P.keyLength))
    let stop := wrapInt (i + valueLength)
    let leaf ← newNode (.verifierLeaf key (mkValue (slice proof i stop)) nextLeafKey)
    return { st with s := leaf :: st.s, i := stop, previousLeaf := some nextLeafKey }
  else
    match st.s with
    | right :: left :: s =>
        let node ← newNode (.internalVerifierNode left right n.toInt8)
        return { st with s := node :: s, i := i }
    | _ => throw .noSuchElement

/-- The loop over the proof. -/
def parseNodes (limit : Option ℤ) : ℕ → ParseState → TreeM VerifierNav ParseState
  | 0, _ => throw .notTerminating
  | fuel + 1, st => do
      let n ← proofByte proof st.i
      if n = BatchAVLProver.endOfTreeInPackagedProof then return st
      else
        let st' := { st with numNodes := wrapInt (st.numNodes + 1) }
        if limit.any fun limit => limit < st'.numNodes then throw .requirementFailed
        else parseNodes limit fuel (← parseNode P proof st' n)

/-- `reconstructedTree`, as long as nothing is thrown. -/
def reconstructedTree (maxNumOperations maxDeletes : Option ℤ) (fuel : ℕ) :
    TreeM VerifierNav Ref := do
  if ¬ (0 < P.labelLength ∧ 0 < P.keyLength ∧ startingDigest.length = P.labelLength + 1) then
    throw .requirementFailed
  else
    let rootNodeHeight : ℤ := (startingDigest.getLastD 0).toNat
    modify fun s => { s with rootNodeHeight := rootNodeHeight }
    let limit ← match maxNumOperations with
      | none => pure none
      | some n =>
          match maxNodes rootNodeHeight n (maxDeletes.getD n) with
          | .ok limit => pure (some limit)
          | .error e => throw e
    let st ← parseNodes P proof limit fuel ⟨0, [], 0, none⟩
    match st.s with
    | [root] =>
        let l ← label P.hf ((← get).heap.length + 1) root
        if l <+: startingDigest then
          modify fun s => { s with
            nav := { s.nav with directionsIndex := wrapInt (wrapInt (st.i + 1) * 8) } }
          return root
        else throw .requirementFailed
    | _ => throw .requirementFailed

end

/-! ## The verifier -/

/-- `BatchAVLVerifier`. -/
structure BatchAVLVerifier where
  tree : TreeState VerifierNav
  topNode : Option Ref

namespace BatchAVLVerifier

variable (P : TreeParams) (proof : List UInt8)

/-- `new BatchAVLVerifier(startingDigest, proof, ...)`. -/
def new (startingDigest : Digest) (maxNumOperations maxDeletes : Option ℤ) (fuel : ℕ) :
    BatchAVLVerifier :=
  match reconstructedTree P startingDigest proof maxNumOperations maxDeletes fuel
    { heap := []
      rootNodeHeight := 0
      changedNodesBuffer := []
      changedNodesBufferToCheck := []
      savedNode := none
      nav := ⟨0, 0, 0⟩ } with
  | .ok root s => ⟨s, some root⟩
  | .error _ s => ⟨s, none⟩

/-- `performOneOperation(operation)`. -/
def performOneOperation (v : BatchAVLVerifier) (operation : Operation) :
    Except AvlError (Option ADValue) × BatchAVLVerifier :=
  let start := { v.tree with nav :=
    { v.tree.nav with replayIndex := v.tree.nav.directionsIndex } }
  match v.topNode with
  | none => (.error .noSuchElement, { v with tree := start })
  | some topNode =>
      match returnResultOfOneOperation P (verifierNavigation proof) operation topNode start with
      | .ok (n, old) s => (.ok old, ⟨s, some n⟩)
      | .error e s => (.error e, ⟨s, none⟩)

/-- `digest`, with the labels that it caches. -/
def digest (v : BatchAVLVerifier) : Except AvlError (Option Digest) × BatchAVLVerifier :=
  match v.topNode with
  | none => (.ok none, v)
  | some topNode =>
      match digestOf P (v.tree.heap.length + 1) topNode v.tree with
      | .ok d s => (.ok (some d), { v with tree := s })
      | .error e s => (.error e, { v with tree := s })

end BatchAVLVerifier

end Sparkz.Avl
