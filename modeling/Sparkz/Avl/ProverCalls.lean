import Sparkz.Avl.BatchAVLProver

/-!
# The calls of the prover

* `contains`, `removedNodes`, `generateProofForOperations` — the other methods of
  `BatchAVLProver`.
* `Call`, `call` — the calls that its users can make, with what they return and what they
  leave behind.
* `run`, `replies` — any number of calls, one after another.
* `HasRoom`, `Counted` — there is room for the bits of an operation, and for those of all calls.
-/

namespace Sparkz.Avl

namespace BatchAVLProver

variable (P : TreeParams)

/-! ## Nodes of the tree -/

/-- The loop of `contains(key, label)`. -/
def containsLoop (key : ADKey) (l : Digest) : ℕ → Ref → Bool → TreeM ProverNav Bool
  | 0, _, _ => throw .notTerminating
  | fuel + 1, currentNode, keyFound => do
      if (← label P.hf (fuel + 1) currentNode) = l then return true
      else
        match (← getNode currentNode).content with
        | .internalProverNode _ k left right _ =>
            if keyFound then containsLoop key l fuel left true
            else
              match compare key k with
              | .eq => containsLoop key l fuel right true
              | .lt => containsLoop key l fuel left false
              | .gt => containsLoop key l fuel right false
        | _ => return false

/-- `node.key`. -/
def proverNodeKey (node : Ref) : TreeM ProverNav ADKey := do
  match (← getNode node).content with
  | .proverLeaf _ k _ _ => return k
  | .internalProverNode _ k _ _ _ => return k
  | _ => throw .classCast

/-- `contains(node)`. -/
def containsNode (topNode node : Ref) : TreeM ProverNav Bool := do
  let fuel := (← get).heap.length + 1
  let key ← proverNodeKey node
  let l ← label P.hf fuel node
  containsLoop P key l fuel topNode false

/-- The loop of `removedNodes()` over `changedNodesBufferToCheck`. -/
def checkChangedNodes (topNode : Ref) : List Ref → TreeM ProverNav Unit
  | [] => return ()
  | cn :: rest => do
      if !(← containsNode P topNode cn) then
        modify fun s => { s with changedNodesBuffer := s.changedNodesBuffer ++ [cn] }
        checkChangedNodes topNode rest
      else checkChangedNodes topNode rest

/-- The body of `removedNodes()` on the tree. -/
def removedNodesBody (topNode : Ref) : TreeM ProverNav (List Ref) := do
  checkChangedNodes P topNode (← get).changedNodesBufferToCheck
  return (← get).changedNodesBuffer

/-- The prover after a computation on its tree. -/
def onNodes {α : Type} (p : BatchAVLProver) (body : TreeM ProverNav α) :
    Except AvlError α × BatchAVLProver :=
  match body p.tree with
  | .ok a s => (.ok a, { p with tree := s })
  | .error e s => (.error e, { p with tree := s })

/-- `removedNodes()`. -/
def removedNodes (p : BatchAVLProver) : Except AvlError (List Ref) × BatchAVLProver :=
  p.onNodes (removedNodesBody P p.topNode)

/-- `contains(key, label)`. -/
def contains (p : BatchAVLProver) (key : ADKey) (l : Digest) :
    Except AvlError Bool × BatchAVLProver :=
  p.onNodes (containsLoop P key l (p.tree.heap.length + 1) p.topNode false)

/-! ## Proofs for operations that are not performed -/

/-- `operations.foreach(o => newProver.performOneOperation(o).get)`. -/
def performAll : List Operation → BatchAVLProver → Except AvlError Unit × BatchAVLProver
  | [], p => (.ok (), p)
  | o :: operations, p =>
      match p.performOneOperation P o with
      | (.error e, p') => (.error e, p')
      | (.ok _, p') => performAll operations p'

/-- The parameters of the prover that `generateProofForOperations` makes. -/
def speculativeParams : TreeParams := { P with collectChangedNodes := false }

/-- The proof and the digest that the new prover of `generateProofForOperations` makes. -/
def speculate (newProver : BatchAVLProver) (operations : List Operation) :
    Except AvlError (List UInt8 × Digest) × BatchAVLProver :=
  match performAll (speculativeParams P) operations newProver with
  | (.error e, p) => (.error e, p)
  | (.ok (), p) =>
      match p.generateProof (speculativeParams P) with
      | (.error e, p) => (.error e, p)
      | (.ok proof, p) =>
          match p.digest (speculativeParams P) with
          | (.error e, p) => (.error e, p)
          | (.ok d, p) => (.ok (proof, d), p)

/-- The new prover of `generateProofForOperations`.  It has its own variables, but it works on the
nodes of this one. -/
def newProver (p : BatchAVLProver) : BatchAVLProver :=
  onTree p.tree.heap p.topNode p.tree.rootNodeHeight

/-- `generateProofForOperations(operations)`. -/
def generateProofForOperations (p : BatchAVLProver) (operations : List Operation) :
    Except AvlError (List UInt8 × Digest) × BatchAVLProver :=
  let res := speculate P p.newProver operations
  (res.1, { p with tree := { p.tree with heap := res.2.tree.heap } })

/-! ## Calls -/

/-- The calls of a prover's public methods. -/
inductive Call where
  | performOneOperation (operation : Operation)
  | generateProof
  | generateProofForOperations (operations : List Operation)
  | digest
  | removedNodes
  | contains (key : ADKey) (l : Digest)
  | unauthenticatedLookup (key : ADKey)

/-- What the calls return. -/
inductive Reply where
  | value (v : Option ADValue)
  | proof (bytes : List UInt8)
  | proofAndDigest (bytes : List UInt8) (d : Digest)
  | digest (d : Digest)
  | nodes (removed : List Ref)
  | contained (b : Bool)
  deriving DecidableEq

/-- One call. -/
def call (p : BatchAVLProver) : Call → Except AvlError Reply × BatchAVLProver
  | .performOneOperation operation =>
      let res := p.performOneOperation P operation
      (res.1.map .value, res.2)
  | .generateProof =>
      let res := p.generateProof P
      (res.1.map .proof, res.2)
  | .generateProofForOperations operations =>
      let res := p.generateProofForOperations P operations
      (res.1.map fun r => .proofAndDigest r.1 r.2, res.2)
  | .digest =>
      let res := p.digest P
      (res.1.map .digest, res.2)
  | .removedNodes =>
      let res := p.removedNodes P
      (res.1.map .nodes, res.2)
  | .contains key l =>
      let res := p.contains P key l
      (res.1.map .contained, res.2)
  | .unauthenticatedLookup key => ((p.unauthenticatedLookup key).map .value, p)

/-- Does the call come back?  A walk along a cycle of nodes does not. -/
def returns : Except AvlError Reply → Bool
  | .error .notTerminating => false
  | _ => true

/-- The prover after calls, any of which may throw; there is none if one does not come back. -/
def run : List Call → BatchAVLProver → Option BatchAVLProver
  | [], p => some p
  | c :: calls, p =>
      let res := p.call P c
      if returns res.1 then run calls res.2 else none

/-- What calls return, up to the first that does not come back. -/
def replies : List Call → BatchAVLProver → List (Except AvlError Reply)
  | [], _ => []
  | c :: calls, p =>
      let res := p.call P c
      res.1 :: if returns res.1 then replies calls res.2 else []

/-! ## Room for the bits -/

/-- The number of inner nodes on the way to a key, which is the number of bits that an operation
records. -/
def wayLength (heap : Heap) (key : ADKey) : ℕ → Ref → Bool → ℕ
  | 0, _, _ => 0
  | fuel + 1, rNode, found =>
      match (heap[rNode]?).map Node.content with
      | some (.internalProverNode _ k l r _) =>
          if found then wayLength heap key fuel l true + 1
          else
            match compare key k with
            | .eq => wayLength heap key fuel r true + 1
            | .lt => wayLength heap key fuel l false + 1
            | .gt => wayLength heap key fuel r false + 1
      | _ => 0

/-- **There is room** for the bits of an operation: an `Int` can count those since the last proof
with them, also when they are rounded up to whole bytes, as far as a replay may come, and rounded
up once more when the operation is taken back. -/
def HasRoom (p : BatchAVLProver) (operation : Operation) : Prop :=
  0 ≤ p.tree.nav.directionsBitLength ∧ p.tree.nav.directionsBitLength
    + wayLength p.tree.heap operation.key (p.tree.heap.length + 1) p.topNode false + 14 < 2 ^ 31

instance (p : BatchAVLProver) (operation : Operation) : Decidable (p.HasRoom operation) :=
  inferInstanceAs (Decidable (_ ∧ _))

/-- There is room for the operations that are performed, up to the first that fails. -/
def HasRoomAll : List Operation → BatchAVLProver → Prop
  | [], _ => True
  | o :: operations, p =>
      p.HasRoom o ∧ match p.performOneOperation P o with
        | (.error _, _) => True
        | (.ok _, p') => HasRoomAll operations p'

/-- There is room for the bits of a call. -/
def RoomFor (p : BatchAVLProver) : Call → Prop
  | .performOneOperation operation => p.HasRoom operation
  | _ => True

/-- **All bits are counted** in the course of calls: there is room for each operation. -/
def Counted : List Call → BatchAVLProver → Prop
  | [], _ => True
  | c :: calls, p => p.RoomFor c ∧ Counted calls (p.call P c).2

instance (p : BatchAVLProver) (c : Call) : Decidable (p.RoomFor c) :=
  match c with
  | .performOneOperation operation => inferInstanceAs (Decidable (p.HasRoom operation))
  | .generateProof => inferInstanceAs (Decidable True)
  | .generateProofForOperations _ => inferInstanceAs (Decidable True)
  | .digest => inferInstanceAs (Decidable True)
  | .removedNodes => inferInstanceAs (Decidable True)
  | .contains _ _ => inferInstanceAs (Decidable True)
  | .unauthenticatedLookup _ => inferInstanceAs (Decidable True)

instance decidableHasRoomAll :
    (operations : List Operation) → (p : BatchAVLProver) → Decidable (HasRoomAll P operations p)
  | [], _ => inferInstanceAs (Decidable True)
  | o :: operations, p =>
      have : Decidable (match p.performOneOperation P o with
          | (.error _, _) => True
          | (.ok _, p') => HasRoomAll P operations p') :=
        match p.performOneOperation P o with
        | (.error _, _) => inferInstanceAs (Decidable True)
        | (.ok _, p') => decidableHasRoomAll operations p'
      inferInstanceAs (Decidable (_ ∧ _))

instance decidableCounted :
    (calls : List Call) → (p : BatchAVLProver) → Decidable (Counted P calls p)
  | [], _ => inferInstanceAs (Decidable True)
  | c :: calls, p =>
      have := decidableCounted calls (p.call P c).2
      inferInstanceAs (Decidable (_ ∧ _))

end BatchAVLProver

end Sparkz.Avl
