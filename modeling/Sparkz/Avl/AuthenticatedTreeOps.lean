import Sparkz.Avl.BatchNode

/-!
# The code common to prover and verifier

The model of `AuthenticatedTreeOps`.  The methods in which the two differ are a
`Navigation`: how to find the way down and how to replay it for a deletion.  The
recursion over the nodes of a tree is bounded by a number of steps.

* `modifyHelper` — look for a key, apply the operation at the leaf, rebalance.
* `deleteHelper` — remove the leaf just found, with its easy and its hard cases.
* `returnResultOfOneOperation` — one operation.
-/

namespace Sparkz.Avl

/-- The two users of the common code; they make different nodes. -/
inductive Mode where
  | prover
  | verifier
  deriving DecidableEq

/-- What the subclass provides.  The key of the inner node is there for the prover
only. -/
structure Navigation (N : Type) where
  mode : Mode
  keyMatchesLeaf : (key leafKey nextLeafKey : ADKey) → EStateM AvlError N Bool
  nextDirectionIsLeft : (key : ADKey) → (nodeKey : Option ADKey) → EStateM AvlError N Bool
  replayComparison : EStateM AvlError N ℤ

/-- The parameters of a tree. -/
structure TreeParams where
  keyLength : ℕ
  valueLengthOpt : Option ℕ
  valueLength_lt : ∀ vl ∈ valueLengthOpt, vl < 2 ^ 31
  collectChangedNodes : Bool
  hf : CryptographicHash

namespace TreeParams

/-- `PositiveInfinityKey`. -/
def positiveInfinityKey (P : TreeParams) : ADKey := ⟨List.replicate P.keyLength 255⟩

/-- `NegativeInfinityKey`. -/
def negativeInfinityKey (P : TreeParams) : ADKey := ⟨List.replicate P.keyLength 0⟩

/-- `labelLength`. -/
def labelLength (P : TreeParams) : ℕ := P.hf.digestSize

end TreeParams

section

variable {N : Type} (P : TreeParams) (nav : Navigation N) (operation : Operation)

/-- Is a node new, if it is a node of the prover at all? -/
def Content.isNew? : Content → Option Bool
  | .proverLeaf isNew _ _ _ => some isNew
  | .internalProverNode isNew _ _ _ _ => some isNew
  | _ => none

/-- `operation.isInstanceOf[Insert] || ...[Remove] || ...[InsertOrUpdate]`. -/
def Operation.replacesPath : Operation → Bool
  | .insert _ _ => true
  | .remove _ => true
  | .insertOrUpdate _ _ => true
  | _ => false

/-- `operation.isInstanceOf[Lookup]`. -/
def Operation.isLookup : Operation → Bool
  | .lookup _ => true
  | _ => false

/-- `onNodeVisit(n, operation, isRotate)`. -/
def onNodeVisit (n : Ref) (isRotate : Bool) : TreeM N Unit := do
  let o ← getNode n
  if P.collectChangedNodes && !o.visited && o.content.isNew? == some false then
    if isRotate then
      modify fun s => { s with changedNodesBufferToCheck := s.changedNodesBufferToCheck ++ [n] }
    else if operation.replacesPath then
      modify fun s => { s with changedNodesBuffer := s.changedNodesBuffer ++ [n] }
    else if !operation.isLookup then
      modify fun s => { s with changedNodesBufferToCheck := s.changedNodesBufferToCheck ++ [n] }
  setNode n { o with visited := true }

/-- `digest(rootNode)`. -/
def digestOf (fuel : ℕ) (rootNode : Ref) : TreeM N Digest := do
  let height := (← get).rootNodeHeight
  if height ≥ 0 && height < 256 then
    return (← label P.hf fuel rootNode) ++ [UInt8.ofNat height.toNat]
  else throw .assertionFailed

/-- `addNode(r, key, v)`. -/
def addNode (r : Ref) (key : ADKey) (v : ADValue) : TreeM N Ref := do
  let (_, _, n) ← getLeaf r
  let left ← Leaf.getNew r none none (some key)
  match nav.mode with
  | .prover =>
      let right ← newNode (.proverLeaf true key v n)
      newNode (.internalProverNode true key left right 0)
  | .verifier =>
      let right ← newNode (.verifierLeaf key v n)
      newNode (.internalVerifierNode left right 0)

/-- The balances of the children after a double rotation. -/
def doubleRotateBalances (balance : Balance) : TreeM N (Balance × Balance) :=
  if balance = 0 then return (0, 0)
  else if balance = -1 then return (0, 1)
  else if balance = 1 then return (-1, 0)
  else throw .matchError

/-- `doubleLeftRotate(currentRoot, leftChild, rightChild)`. -/
def doubleLeftRotate (currentRoot leftChild rightChild : Ref) : TreeM N Ref := do
  let newRoot := (← getInternal rightChild).left
  let root ← getInternal newRoot
  let (newLeftBalance, newRightBalance) ← doubleRotateBalances root.balance
  let newLeftChild ← getNew currentRoot (some leftChild) (some root.left) (some newLeftBalance)
  let newRightChild ← getNew rightChild (some root.right) none (some newRightBalance)
  getNew newRoot (some newLeftChild) (some newRightChild) (some 0)

/-- `doubleRightRotate(currentRoot, leftChild, rightChild)`. -/
def doubleRightRotate (currentRoot leftChild rightChild : Ref) : TreeM N Ref := do
  let newRoot := (← getInternal leftChild).right
  let root ← getInternal newRoot
  let (newLeftBalance, newRightBalance) ← doubleRotateBalances root.balance
  let newRightChild ← getNew currentRoot (some root.right) (some rightChild) (some newRightBalance)
  let newLeftChild ← getNew leftChild none (some root.left) (some newLeftBalance)
  getNew newRoot (some newLeftChild) (some newRightChild) (some 0)

/-- `valueLengthOpt.foreach(vl => require(v.length == vl, ...))`. -/
def requireValueLength (v : ADValue) : TreeM N Unit :=
  match P.valueLengthOpt with
  | none => return ()
  | some vl => if v.length = vl then return () else throw (.wrongValueLength vl)

/-- What `modifyHelper` returns: the new root, whether the tree was changed, whether
it got higher, whether the leaf is to be deleted, and the old value. -/
structure Modified where
  root : Ref
  changeHappened : Bool
  heightIncreased : Bool
  toDelete : Bool
  oldValue : Option ADValue

/-- `modifyHelper` at a leaf. -/
def modifyLeaf (r : Ref) (rKey : ADKey) (rValue : ADValue) (rNext : ADKey) : TreeM N Modified := do
  if (← liftNav (nav.keyMatchesLeaf operation.key rKey rNext)) then
    match operation.updateFn with
    | some updateFn =>
        match updateFn (some rValue) with
        | .ok none =>
            onNodeVisit P operation r false
            return ⟨r, false, false, true, some rValue⟩
        | .ok (some v) =>
            requireValueLength P v
            let rNew ← Leaf.getNew r none (some v) none
            onNodeVisit P operation r false
            return ⟨rNew, true, false, false, some rValue⟩
        | .error e => throw (.update e)
    | none =>
        onNodeVisit P operation r false
        return ⟨r, false, false, false, some rValue⟩
  else
    match operation.updateFn with
    | some updateFn =>
        match updateFn none with
        | .ok none =>
            onNodeVisit P operation r false
            return ⟨r, false, false, false, none⟩
        | .ok (some v) =>
            requireValueLength P v
            onNodeVisit P operation r false
            return ⟨← addNode nav r operation.key v, true, true, false, none⟩
        | .error e => throw (.update e)
    | none =>
        onNodeVisit P operation r false
        return ⟨r, false, false, false, none⟩

/-- `modifyHelper` after its recursive call on the left child. -/
def modifyLeft (rNode : Ref) (m : Modified) : TreeM N Modified := do
  onNodeVisit P operation rNode false
  if m.changeHappened then
    let r ← getInternal rNode
    if m.heightIncreased && r.balance < 0 then
      let newLeft ← getInternal m.root
      if newLeft.balance < 0 then
        let newR ← getNew rNode (some newLeft.right) none (some 0)
        return ⟨← getNew m.root none (some newR) (some 0), true, false, false, m.oldValue⟩
      else
        return ⟨← doubleRightRotate rNode m.root r.right, true, false, false, m.oldValue⟩
    else
      let myHeightIncreased := m.heightIncreased && r.balance == 0
      let rBalance := if m.heightIncreased then r.balance - 1 else r.balance
      return ⟨← getNew rNode (some m.root) none (some rBalance), true, myHeightIncreased, false,
        m.oldValue⟩
  else return ⟨rNode, false, false, m.toDelete, m.oldValue⟩

/-- `modifyHelper` after its recursive call on the right child. -/
def modifyRight (rNode : Ref) (m : Modified) : TreeM N Modified := do
  onNodeVisit P operation rNode false
  if m.changeHappened then
    let r ← getInternal rNode
    if m.heightIncreased && r.balance > 0 then
      let newRight ← getInternal m.root
      if newRight.balance > 0 then
        let newR ← getNew rNode none (some newRight.left) (some 0)
        return ⟨← getNew m.root (some newR) none (some 0), true, false, false, m.oldValue⟩
      else
        return ⟨← doubleLeftRotate rNode r.left m.root, true, false, false, m.oldValue⟩
    else
      let myHeightIncreased := m.heightIncreased && r.balance == 0
      let rBalance := if m.heightIncreased then r.balance + 1 else r.balance
      return ⟨← getNew rNode none (some m.root) (some rBalance), true, myHeightIncreased, false,
        m.oldValue⟩
  else return ⟨rNode, false, false, m.toDelete, m.oldValue⟩

/-- `modifyHelper(rNode, key, operation)`. -/
def modifyHelper : ℕ → Ref → TreeM N Modified
  | 0, _ => throw .notTerminating
  | fuel + 1, rNode => do
      match (← getView rNode) with
      | .leaf key value nextLeafKey => modifyLeaf P nav operation rNode key value nextLeafKey
      | .internalNode key left right _ =>
          if (← liftNav (nav.nextDirectionIsLeft operation.key key)) then
            modifyLeft P operation rNode (← modifyHelper fuel left)
          else
            modifyRight P operation rNode (← modifyHelper fuel right)
      | .labelOnlyNode _ => throw .shouldNeverReach

/-- `changeNextLeafKeyOfMaxNode(rNode, nextLeafKey)`. -/
def changeNextLeafKeyOfMaxNode : ℕ → Ref → ADKey → TreeM N Ref
  | 0, _, _ => throw .notTerminating
  | fuel + 1, rNode, nextLeafKey => do
      onNodeVisit P operation rNode false
      match (← getView rNode) with
      | .leaf _ _ _ => Leaf.getNew rNode none none (some nextLeafKey)
      | .internalNode _ _ right _ =>
          let newRight ← changeNextLeafKeyOfMaxNode fuel right nextLeafKey
          getNew rNode none (some newRight) none
      | .labelOnlyNode _ => throw .shouldNeverReach

/-- `changeKeyAndValueOfMinNode(rNode, newKey, newValue)`. -/
def changeKeyAndValueOfMinNode : ℕ → Ref → ADKey → ADValue → TreeM N Ref
  | 0, _, _, _ => throw .notTerminating
  | fuel + 1, rNode, newKey, newValue => do
      onNodeVisit P operation rNode false
      match (← getView rNode) with
      | .leaf _ _ _ => Leaf.getNew rNode (some newKey) (some newValue) none
      | .internalNode _ left _ _ =>
          let newLeft ← changeKeyAndValueOfMinNode fuel left newKey newValue
          getNew rNode (some newLeft) none none
      | .labelOnlyNode _ => throw .shouldNeverReach

/-- The end of `deleteHelper` after a deletion on the left. -/
def deleteLeft (newRoot newLeft : Ref) (childHeightDecreased : Bool) : TreeM N (Ref × Bool) := do
  let root ← getInternal newRoot
  if childHeightDecreased && root.balance > 0 then
    onNodeVisit P operation root.right true
    let rightChild ← getInternal root.right
    if rightChild.balance < 0 then
      onNodeVisit P operation rightChild.left true
      return (← doubleLeftRotate newRoot newLeft root.right, true)
    else
      let newLeftChild ← getNew newRoot (some newLeft) (some rightChild.left)
        (some (1 - rightChild.balance))
      let newR ← getNew root.right (some newLeftChild) none (some (rightChild.balance - 1))
      return (newR, (← getInternal newR).balance == 0)
  else
    let newBalance := if childHeightDecreased then root.balance + 1 else root.balance
    return (← getNew newRoot (some newLeft) none (some newBalance),
      childHeightDecreased && newBalance == 0)

/-- The end of `deleteHelper` after a deletion on the right. -/
def deleteRight (r newRight : Ref) (childHeightDecreased : Bool) : TreeM N (Ref × Bool) := do
  let root ← getInternal r
  if childHeightDecreased && root.balance < 0 then
    onNodeVisit P operation root.left true
    let leftChild ← getInternal root.left
    if leftChild.balance > 0 then
      onNodeVisit P operation leftChild.right true
      return (← doubleRightRotate r root.left newRight, true)
    else
      let newRightChild ← getNew r (some leftChild.right) (some newRight)
        (some (-leftChild.balance - 1))
      let newR ← getNew root.left none (some newRightChild) (some (1 + leftChild.balance))
      return (newR, (← getInternal newR).balance == 0)
  else
    let newBalance := if childHeightDecreased then root.balance - 1 else root.balance
    return (← getNew r none (some newRight) (some newBalance),
      childHeightDecreased && newBalance == 0)

/-- `deleteHelper(r, deleteMax)`. -/
def deleteHelper : ℕ → Ref → Bool → TreeM N (Ref × Bool)
  | 0, _, _ => throw .notTerminating
  | fuel + 1, r, deleteMax => do
      onNodeVisit P operation r false
      let direction ← if deleteMax then pure 1 else liftNav nav.replayComparison
      let root ← getInternal r
      let leftIsLeaf ← isLeaf root.left
      let rightIsLeaf ← isLeaf root.right
      if direction < 0 && leftIsLeaf then throw .assertionFailed
      else if direction ≥ 0 && rightIsLeaf then
        let (_, _, nextLeafKey) ← getLeaf root.right
        onNodeVisit P operation root.right false
        if deleteMax then
          modify fun s => { s with savedNode := some root.right }
          return (root.left, true)
        else if direction = 0 then
          return (← changeNextLeafKeyOfMaxNode P operation fuel root.left nextLeafKey, true)
        else throw .assertionFailed
      else if direction = 0 && leftIsLeaf then
        let (leftKey, leftValue, _) ← getLeaf root.left
        onNodeVisit P operation root.left false
        return (← changeKeyAndValueOfMinNode P operation fuel root.right leftKey leftValue, true)
      else if direction ≤ 0 then
        -- going left; the predecessor is deleted if and only if `direction` is 0
        let _ ← getInternal root.left
        let (newLeft, childHeightDecreased) ← deleteHelper fuel root.left (direction == 0)
        if direction = 0 then
          match (← get).savedNode with
          | none => throw .noSuchElement
          | some saved =>
              let (savedKey, savedValue, _) ← getLeaf saved
              modify fun s => { s with savedNode := none }
              let rWithChangedKey ← getNewKey r savedKey
              let right := (← getInternal rWithChangedKey).right
              let newRight ← changeKeyAndValueOfMinNode P operation fuel right savedKey savedValue
              let newRoot ← getNew rWithChangedKey none (some newRight) none
              deleteLeft P operation newRoot newLeft childHeightDecreased
        else deleteLeft P operation r newLeft childHeightDecreased
      else
        let _ ← getInternal root.right
        let (newRight, childHeightDecreased) ← deleteHelper fuel root.right deleteMax
        deleteRight P operation r newRight childHeightDecreased

/-- `returnResultOfOneOperation` once its requirements are met: the new root and the
old value.  No path is longer than the number of nodes there are. -/
def performOperation (rootNode : Ref) : TreeM N (Ref × Option ADValue) := do
  modify fun s => { s with savedNode := none }
  let m ← modifyHelper P nav operation ((← get).heap.length + 1) rootNode
  if m.toDelete then
    let _ ← getInternal m.root
    let (postDeleteRootNode, heightDecreased) ←
      deleteHelper P nav operation ((← get).heap.length + 1) m.root false
    if heightDecreased then
      modify fun s => { s with rootNodeHeight := s.rootNodeHeight - 1 }
    return (postDeleteRootNode, m.oldValue)
  else
    if m.heightIncreased then
      modify fun s => { s with rootNodeHeight := s.rootNodeHeight + 1 }
    return (m.root, m.oldValue)

/-- `returnResultOfOneOperation(operation, rootNode)`. -/
def returnResultOfOneOperation (rootNode : Ref) : TreeM N (Ref × Option ADValue) :=
  let key := operation.key
  if ¬ key > P.negativeInfinityKey then throw (.keyLessThanNegativeInfinity key)
  else if ¬ key < P.positiveInfinityKey then throw (.keyMoreThanPositiveInfinity key)
  else if ¬ key.length = P.keyLength then throw .requirementFailed
  else performOperation P nav operation rootNode

end

end Sparkz.Avl
