import Sparkz.Avl.AuthenticatedTreeOps

/-!
# The batch prover

The model of `BatchAVLProver`.

* `proverNavigation` — the prover compares keys on its way down and records the way as
  a string of bits; a deletion replays it.  The bits are counted in `Int`s.
* `BatchAVLProver`, `performOneOperation`, `digest`, `generateProof` — the prover and
  its operations.  An operation that fails takes its bits back.
* `unauthenticatedLookup`, `checkTree` — a plain lookup, and the check of the whole
  tree that the source has for debugging.
-/

namespace Sparkz.Avl

open Sparkz.Lib

/-- The variables of the prover that concern the way through the tree.  The numbers are `Int`s:
after 2 ^ 31 bits they are negative. -/
structure ProverNav where
  directions : List UInt8
  directionsBitLength : ℤ
  replayIndex : ℤ
  lastRightStep : ℤ
  found : Bool
  deriving DecidableEq

/-- The byte in which bit `i` of the directions is. -/
def directionsByte (directions : List UInt8) (i : ℤ) : Option UInt8 :=
  if i < 0 then none else directions[i.toNat / 8]?

/-- The part of `nextDirectionIsLeft` that appends a bit to the directions. -/
def recordDirection (ret : Bool) : EStateM AvlError ProverNav Unit := do
  let nav ← get
  let i := nav.directionsBitLength
  if i % 8 = 0 then
    set { nav with
      directions := nav.directions ++ [if ret then 1 else 0]
      directionsBitLength := wrapInt (i + 1) }
  else if ret then
    match directionsByte nav.directions i with
    | none => throw .indexOutOfBounds
    | some byte =>
        let byte' := UInt8.ofNat (byte.toNat ||| 1 <<< (i % 8).toNat)
        set { nav with
          directions := nav.directions.set (i.toNat / 8) byte'
          directionsBitLength := wrapInt (i + 1) }
  else set { nav with directionsBitLength := wrapInt (i + 1) }

/-- The part of `nextDirectionIsLeft` that decides. -/
def proverDirection (key : ADKey) (nodeKey : Option ADKey) : EStateM AvlError ProverNav Bool := do
  let nav ← get
  if nav.found then return true
  else
    match nodeKey with
    | none => throw .classCast
    | some k =>
        match compare key k with
        | .eq =>
            set { nav with found := true, lastRightStep := nav.directionsBitLength }
            return false
        | .lt => return true
        | .gt => return false

/-- `nextDirectionIsLeft(key, r)` of the prover. -/
def proverNextDirectionIsLeft (key : ADKey) (nodeKey : Option ADKey) :
    EStateM AvlError ProverNav Bool := do
  let ret ← proverDirection key nodeKey
  recordDirection ret
  return ret

/-- `keyMatchesLeaf(key, r)` of the prover: the key was met on the way down. -/
def proverKeyMatchesLeaf (_key _leafKey _nextLeafKey : ADKey) :
    EStateM AvlError ProverNav Bool := do
  let nav ← get
  set { nav with found := false }
  return nav.found

/-- `replayComparison` of the prover. -/
def proverReplayComparison : EStateM AvlError ProverNav ℤ := do
  let nav ← get
  let ret ← if nav.replayIndex = nav.lastRightStep then pure 0
    else
      match directionsByte nav.directions nav.replayIndex with
      | none => throw .indexOutOfBounds
      | some byte =>
          if byte.toNat.testBit (nav.replayIndex % 8).toNat then pure (-1) else pure 1
  set { nav with replayIndex := wrapInt (nav.replayIndex + 1) }
  return ret

/-- How the prover finds its way. -/
def proverNavigation : Navigation ProverNav where
  mode := .prover
  keyMatchesLeaf := proverKeyMatchesLeaf
  nextDirectionIsLeft := proverNextDirectionIsLeft
  replayComparison := proverReplayComparison

/-- `BatchAVLProver`. -/
structure BatchAVLProver where
  tree : TreeState ProverNav
  topNode : Ref
  oldTopNode : Ref

namespace BatchAVLProver

variable (P : TreeParams)

/-- The value of the leaf of an empty tree. -/
def sentinelValue : ADValue where
  bytes := List.replicate (P.valueLengthOpt.getD 0) 0
  length_lt := by
    rw [List.length_replicate]
    cases h : P.valueLengthOpt with
    | none => norm_num
    | some vl => exact P.valueLength_lt vl h

/-- A prover on the nodes of a heap, as `oldRootAndHeight` gives them. -/
def onTree (heap : Heap) (root : Ref) (height : ℤ) : BatchAVLProver where
  tree :=
    { heap := heap
      rootNodeHeight := height
      changedNodesBuffer := []
      changedNodesBufferToCheck := []
      savedNode := none
      nav := ⟨[], 0, 0, 0, false⟩ }
  topNode := root
  oldTopNode := root

/-- A prover on an empty tree: one leaf from negative to positive infinity. -/
def new : BatchAVLProver :=
  onTree [⟨false, none,
    .proverLeaf false P.negativeInfinityKey (sentinelValue P) P.positiveInfinityKey⟩] 0 0

/-- `directions.trimEnd(n)`. -/
def trimEnd (directions : List UInt8) (n : ℤ) : List UInt8 :=
  directions.take (directions.length - n.toNat)

/-- Take back the bits that a failed operation recorded.  The rounded length of a negative number
of bits leaves no byte, and then there is none to mask. -/
def undoDirections : EStateM AvlError ProverNav Unit := do
  let nav ← get
  let oldDirectionsByteLength := (wrapInt (nav.replayIndex + 7)).tdiv 8
  let directions :=
    trimEnd nav.directions (wrapInt (nav.directions.length - oldDirectionsByteLength))
  modify fun nav => { nav with directions := directions, directionsBitLength := nav.replayIndex }
  if nav.replayIndex % 8 > 0 then
    if directions = [] then throw .indexOutOfBounds
    else
      let mask := 2 ^ (nav.replayIndex % 8).toNat - 1
      modify fun nav => { nav with
        directions := directions.modify (directions.length - 1) fun byte =>
          UInt8.ofNat (byte.toNat &&& mask) }

/-- The case of `performOneOperation` in which the operation has failed; one that does not
terminate does not come back. -/
def undoOperation (p : BatchAVLProver) (e : AvlError) (s : TreeState ProverNav) :
    Except AvlError (Option ADValue) × BatchAVLProver :=
  if e = .notTerminating then (.error e, { p with tree := s })
  else
    match undoDirections s.nav with
    | .ok () nav => (.error e, { p with tree := { s with nav := nav } })
    | .error e' nav => (.error e', { p with tree := { s with nav := nav } })

/-- `performOneOperation(operation)`. -/
def performOneOperation (p : BatchAVLProver) (operation : Operation) :
    Except AvlError (Option ADValue) × BatchAVLProver :=
  let start := { p.tree with nav :=
    { p.tree.nav with replayIndex := p.tree.nav.directionsBitLength } }
  match (do
      let n ← returnResultOfOneOperation P proverNavigation operation p.topNode
      castProver n.1
      return n : TreeM ProverNav (Ref × Option ADValue)) start with
  | .ok (n, old) s => (.ok old, { p with tree := s, topNode := n })
  | .error e s => p.undoOperation e s

/-- `digest`, with the labels that it caches. -/
def digest (p : BatchAVLProver) : Except AvlError Digest × BatchAVLProver :=
  match digestOf P (p.tree.heap.length + 1) p.topNode p.tree with
  | .ok d s => (.ok d, { p with tree := s })
  | .error e s => (.error e, { p with tree := s })

/-! ## Proofs -/

/-- `LeafInPackagedProof`. -/
def leafInPackagedProof : UInt8 := 2

/-- `LabelInPackagedProof`. -/
def labelInPackagedProof : UInt8 := 3

/-- `EndOfTreeInPackagedProof`. -/
def endOfTreeInPackagedProof : UInt8 := 4

/-- `packTree(rNode)`, with the variables `packagedTree` and `previousLeafAvailable`. -/
def packTree : ℕ → Ref → List UInt8 × Bool → TreeM ProverNav (List UInt8 × Bool)
  | 0, _, _ => throw .notTerminating
  | fuel + 1, rNode, (packagedTree, previousLeafAvailable) => do
      let o ← getNode rNode
      if !o.visited then
        let l ← label P.hf (fuel + 1) rNode
        if l.length = P.labelLength then
          return (packagedTree ++ [labelInPackagedProof] ++ l, false)
        else throw .assertionFailed
      else
        setNode rNode { o with visited := false }
        match o.content with
        | .proverLeaf _ k v nk =>
            return (packagedTree ++ [leafInPackagedProof]
              ++ (if previousLeafAvailable then [] else k.bytes) ++ nk.bytes
              ++ (if P.valueLengthOpt.isNone then Sparkz.Lib.toBytes 4 v.length else [])
              ++ v.bytes, true)
        | .internalProverNode _ _ l r b =>
            let acc ← packTree fuel l (packagedTree, previousLeafAvailable)
            let acc' ← packTree fuel r acc
            return (acc'.1 ++ [b.toUInt8], acc'.2)
        | _ => throw .matchError

/-- The content with the flag `isNew` taken off. -/
def contentOld : Content → Content
  | .proverLeaf _ k v nk => .proverLeaf false k v nk
  | .internalProverNode _ k l r b => .internalProverNode false k l r b
  | c => c

/-- `resetNew(r)`. -/
def resetNew : ℕ → Ref → TreeM ProverNav Unit
  | 0, _ => throw .notTerminating
  | fuel + 1, r => do
      let o ← getNode r
      match o.content with
      | .proverLeaf true _ _ _ =>
          setNode r { o with visited := false, content := contentOld o.content }
      | .internalProverNode true _ left right _ =>
          resetNew fuel left
          resetNew fuel right
          let o' ← getNode r
          setNode r { o' with visited := false, content := contentOld o'.content }
      | _ => return ()

/-- The body of `generateProof` on the tree. -/
def generateProofBody (p : BatchAVLProver) : TreeM ProverNav (List UInt8) := do
  modify fun s => { s with changedNodesBuffer := [], changedNodesBufferToCheck := [] }
  let fuel := (← get).heap.length + 1
  let (packagedTree, _) ← packTree P fuel p.oldTopNode ([], false)
  let proof := packagedTree ++ [endOfTreeInPackagedProof] ++ (← get).nav.directions
  resetNew fuel p.topNode
  modify fun s => { s with nav := { s.nav with directions := [], directionsBitLength := 0 } }
  return proof

/-- `generateProof()`. -/
def generateProof (p : BatchAVLProver) : Except AvlError (List UInt8) × BatchAVLProver :=
  match generateProofBody P p p.tree with
  | .ok proof s => (.ok proof, { tree := s, topNode := p.topNode, oldTopNode := p.topNode })
  | .error e s => (.error e, { p with tree := s })

/-! ## Lookups and the check of the tree -/

/-- `treeWalk` with the functions of `unauthenticatedLookup`. -/
def lookupWalk (heap : Heap) (key : ADKey) : ℕ → Ref → Bool → Except AvlError (Option ADValue)
  | 0, _, _ => .error .notTerminating
  | fuel + 1, rNode, found =>
      match heap[rNode]? with
      | none => .error .nullPointer
      | some o =>
          match o.content with
          | .proverLeaf _ _ v _ => .ok (if found then some v else none)
          | .internalProverNode _ k l r _ =>
              if found then lookupWalk heap key fuel l true
              else
                match compare key k with
                | .eq => lookupWalk heap key fuel r true
                | .lt => lookupWalk heap key fuel l false
                | .gt => lookupWalk heap key fuel r false
          | _ => .error .matchError

/-- `unauthenticatedLookup(key)`. -/
def unauthenticatedLookup (p : BatchAVLProver) (key : ADKey) : Except AvlError (Option ADValue) :=
  lookupWalk p.tree.heap key (p.tree.heap.length + 1) p.topNode false

/-- The leaf at one end of a checked tree. -/
structure EndLeaf where
  key : ADKey
  nextLeafKey : ADKey

/-- What `checkTreeHelper` returns: the first and the last leaf, the height, and
whether all checks were passed so far. -/
structure Checked where
  minLeaf : EndLeaf
  maxLeaf : EndLeaf
  height : ℕ
  ok : Bool

/-- `rNode.key` of an inner node; no condition on it for a leaf. -/
def checkChildKey (heap : Heap) (child : Ref) (cond : ADKey → Bool) : Bool :=
  match heap[child]? with
  | some ⟨_, _, .internalProverNode _ k _ _ _⟩ => cond k
  | _ => true

/-- `checkTreeHelper(rNode)`. -/
def checkTreeHelper (heap : Heap) (postProof : Bool) : ℕ → Ref → Except AvlError Checked
  | 0, _ => .error .notTerminating
  | fuel + 1, rNode =>
      match heap[rNode]? with
      | none => .error .nullPointer
      | some o =>
          let flags := !postProof || (!o.visited && o.content.isNew? == some false)
          match o.content with
          | .proverLeaf _ k _ nk => .ok ⟨⟨k, nk⟩, ⟨k, nk⟩, 0, flags⟩
          | .internalProverNode _ k l r b => do
              let left ← checkTreeHelper heap postProof fuel l
              let right ← checkTreeHelper heap postProof fuel r
              let here := flags && checkChildKey heap l (fun kl => decide (kl < k))
                && checkChildKey heap r (fun kr => decide (kr > k))
                && decide (left.maxLeaf.nextLeafKey = right.minLeaf.key)
                && decide (right.minLeaf.key = k)
                && decide (b ≥ -1 ∧ b ≤ 1 ∧ b.toInt = (right.height : ℤ) - left.height)
              return ⟨left.minLeaf, right.maxLeaf, max left.height right.height + 1,
                here && left.ok && right.ok⟩
          | _ => .error .matchError

/-- `checkTree(postProof)`. -/
def checkTree (p : BatchAVLProver) (postProof : Bool) : Except AvlError Unit := do
  let res ← checkTreeHelper p.tree.heap postProof (p.tree.heap.length + 1) p.topNode
  if res.minLeaf.key = P.negativeInfinityKey ∧ res.maxLeaf.nextLeafKey = P.positiveInfinityKey
      ∧ (res.height : ℤ) = p.tree.rootNodeHeight ∧ res.ok = true then return ()
  else throw .requirementFailed

end BatchAVLProver

end Sparkz.Avl
