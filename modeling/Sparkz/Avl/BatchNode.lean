import Sparkz.Avl.Operation

/-!
# Nodes of the authenticated tree

The nodes are objects on a heap: the tree before the operations of a batch and the
tree after them share nodes, `visited` flags and cached labels are set on shared
nodes, and nodes made within a batch are changed in place.

* `Content` — the five classes of nodes; `Node` — a node with its `visited` flag and
  its cached label; a `Ref` is an index into the `Heap`.
* `TreeM` — computations with the heap as state that may throw; the state survives an
  exception.  The state of the subclass (prover or verifier) is the parameter `N`.
* `label`, `Leaf.getNew`, `getNew`, `getNewKey` — the methods of the nodes.
-/

namespace Sparkz.Avl

/-- A reference to a node. -/
abbrev Ref := ℕ

/-- `Balance`: one signed byte. -/
abbrev Balance := Int8

/-- The class of a node with its fields. -/
inductive Content where
  | labelOnlyNode (l : Digest)
  | proverLeaf (isNew : Bool) (k : ADKey) (v : ADValue) (nk : ADKey)
  | verifierLeaf (k : ADKey) (v : ADValue) (nk : ADKey)
  | internalProverNode (isNew : Bool) (k : ADKey) (l r : Ref) (b : Balance)
  | internalVerifierNode (l r : Ref) (b : Balance)
  deriving DecidableEq

/-- A node. -/
structure Node where
  visited : Bool
  labelOpt : Option Digest
  content : Content
  deriving DecidableEq

/-- The nodes allocated so far. -/
abbrev Heap := List Node

/-- What can be thrown. -/
inductive AvlError where
  | keyLessThanNegativeInfinity (key : ADKey)
  | keyMoreThanPositiveInfinity (key : ADKey)
  | requirementFailed
  | wrongValueLength (expected : ℕ)
  | update (e : UpdateError)
  | shouldNeverReach
  | assertionFailed
  | classCast
  | noSuchElement
  | matchError
  | indexOutOfBounds
  | nullPointer
  | notTerminating
  deriving DecidableEq

/-- The state of a tree: its heap, the height of its root, the buffers of changed
nodes, the leaf saved in a hard deletion, and the state of the subclass. -/
structure TreeState (N : Type) where
  heap : Heap
  rootNodeHeight : ℤ
  changedNodesBuffer : List Ref
  changedNodesBufferToCheck : List Ref
  savedNode : Option Ref
  nav : N

/-- Computations on the state of a tree. -/
abbrev TreeM (N : Type) := EStateM AvlError (TreeState N)

section

variable {N : Type}

/-! ## Access -/

/-- The node at a reference. -/
def getNode (x : Ref) : TreeM N Node := fun s =>
  match s.heap[x]? with
  | some o => .ok o s
  | none => .error .nullPointer s

/-- Change the node at a reference. -/
def setNode (x : Ref) (o : Node) : TreeM N Unit := fun s =>
  .ok () { s with heap := s.heap.set x o }

/-- Allocate a node. -/
def newNode (content : Content) : TreeM N Ref := fun s =>
  .ok s.heap.length { s with heap := s.heap ++ [⟨false, none, content⟩] }

/-- `new LabelOnlyNode(l)`: it has its label cached from the start. -/
def newLabelOnlyNode (l : Digest) : TreeM N Ref := fun s =>
  .ok s.heap.length { s with heap := s.heap ++ [⟨false, some l, .labelOnlyNode l⟩] }

/-- A computation on the state of the subclass. -/
def liftNav {α : Type} (action : EStateM AvlError N α) : TreeM N α := fun s =>
  match action s.nav with
  | .ok a nav => .ok a { s with nav := nav }
  | .error e nav => .error e { s with nav := nav }

/-- A node as the code common to prover and verifier sees it. -/
inductive View where
  | labelOnlyNode (l : Digest)
  | leaf (key : ADKey) (value : ADValue) (nextLeafKey : ADKey)
  | internalNode (key : Option ADKey) (left right : Ref) (balance : Balance)

/-- `rNode match { case r: Leaf ...; case r: InternalNode ...; case r: LabelOnlyNode }`.
Only the inner nodes of the prover have keys. -/
def Content.view : Content → View
  | .labelOnlyNode l => .labelOnlyNode l
  | .proverLeaf _ k v nk => .leaf k v nk
  | .verifierLeaf k v nk => .leaf k v nk
  | .internalProverNode _ k l r b => .internalNode (some k) l r b
  | .internalVerifierNode l r b => .internalNode none l r b

/-- The view of the node at a reference. -/
def getView (x : Ref) : TreeM N View := do
  return (← getNode x).content.view

/-- The fields of an inner node. -/
structure Internal where
  key : Option ADKey
  left : Ref
  right : Ref
  balance : Balance

/-- `x.asInstanceOf[InternalNode]`, with the fields. -/
def getInternal (x : Ref) : TreeM N Internal := do
  match (← getView x) with
  | .internalNode key left right balance => return ⟨key, left, right, balance⟩
  | _ => throw .classCast

/-- `x.asInstanceOf[Leaf]`, with the key, the value and the next key. -/
def getLeaf (x : Ref) : TreeM N (ADKey × ADValue × ADKey) := do
  match (← getView x) with
  | .leaf key value nextLeafKey => return (key, value, nextLeafKey)
  | _ => throw .classCast

/-- `x.isInstanceOf[Leaf]`. -/
def isLeaf (x : Ref) : TreeM N Bool := do
  match (← getView x) with
  | .leaf _ _ _ => return true
  | _ => return false

/-- Is the node of a class of the prover? -/
def Content.isProverNode : Content → Bool
  | .proverLeaf _ _ _ _ => true
  | .internalProverNode _ _ _ _ _ => true
  | _ => false

/-- `x.asInstanceOf[ProverNodes]`. -/
def castProver (x : Ref) : TreeM N Unit := do
  if (← getNode x).content.isProverNode then return () else throw .classCast

/-! ## Labels -/

/-- `InternalNodePrefix`. -/
def internalNodePrefix : UInt8 := 1

/-- `LeafPrefix`. -/
def leafPrefix : UInt8 := 0

/-- What is hashed for the label of a leaf. -/
def leafMessage (k : ADKey) (v : ADValue) (nk : ADKey) : List UInt8 :=
  leafPrefix :: (k.bytes ++ v.bytes ++ nk.bytes)

/-- What is hashed for the label of an inner node. -/
def internalMessage (b : Balance) (left right : Digest) : List UInt8 :=
  [internalNodePrefix, b.toUInt8] ++ left ++ right

/-- `label`: the cached label, or the computed one, which is then cached. -/
def label (hf : CryptographicHash) : ℕ → Ref → TreeM N Digest
  | 0, _ => throw .notTerminating
  | fuel + 1, x => do
      let o ← getNode x
      match o.labelOpt with
      | some l => return l
      | none =>
          let l ← match o.content.view with
            | .labelOnlyNode l => pure l
            | .leaf k v nk => pure (hf.hash (leafMessage k v nk))
            | .internalNode _ left right b => do
                let leftLabel ← label hf fuel left
                let rightLabel ← label hf fuel right
                pure (hf.hash (internalMessage b leftLabel rightLabel))
          let o' ← getNode x
          setNode x { o' with labelOpt := some l }
          return l

/-! ## New nodes -/

/-- `leaf.getNew(newKey, newValue, newNextLeafKey)`: a prover's leaf that is not new is
copied, any other leaf is changed in place. -/
def Leaf.getNew (x : Ref) (newKey : Option ADKey) (newValue : Option ADValue)
    (newNextLeafKey : Option ADKey) : TreeM N Ref := do
  let o ← getNode x
  match o.content with
  | .proverLeaf true k v nk =>
      setNode x { o with
        labelOpt := none
        content := .proverLeaf true (newKey.getD k) (newValue.getD v) (newNextLeafKey.getD nk) }
      return x
  | .proverLeaf false k v nk =>
      newNode (.proverLeaf true (newKey.getD k) (newValue.getD v) (newNextLeafKey.getD nk))
  | .verifierLeaf k v nk =>
      setNode x { o with
        labelOpt := none
        content := .verifierLeaf (newKey.getD k) (newValue.getD v) (newNextLeafKey.getD nk) }
      return x
  | _ => throw .classCast

/-- `internalNode.getNew(newLeft, newRight, newBalance)`. -/
def getNew (x : Ref) (newLeft newRight : Option Ref) (newBalance : Option Balance) :
    TreeM N Ref := do
  let o ← getNode x
  match o.content with
  | .internalProverNode isNew k l r b =>
      castProver (newLeft.getD l)
      castProver (newRight.getD r)
      let content := .internalProverNode true k (newLeft.getD l) (newRight.getD r)
        (newBalance.getD b)
      if isNew then
        setNode x { o with labelOpt := none, content := content }
        return x
      else newNode content
  | .internalVerifierNode l r b =>
      setNode x { o with
        labelOpt := none
        content := .internalVerifierNode (newLeft.getD l) (newRight.getD r) (newBalance.getD b) }
      return x
  | _ => throw .classCast

/-- `internalNode.getNewKey(newKey)`: the label does not depend on the key, so it is
kept. -/
def getNewKey (x : Ref) (newKey : ADKey) : TreeM N Ref := do
  let o ← getNode x
  match o.content with
  | .internalProverNode true _ l r b =>
      setNode x { o with content := .internalProverNode true newKey l r b }
      return x
  | .internalProverNode false _ l r b =>
      let ret ← newNode (.internalProverNode true newKey l r b)
      setNode ret ⟨false, o.labelOpt, .internalProverNode true newKey l r b⟩
      return ret
  | .internalVerifierNode _ _ _ => return x
  | _ => throw .classCast

/-! ## Running computations step by step -/

theorem bind_ok {α β : Type} {x : TreeM N α} {f : α → TreeM N β} {s s' : TreeState N} {a : α}
    (h : x s = .ok a s') : (x >>= f) s = f a s' := by
  show EStateM.bind x f s = _
  rw [EStateM.bind, h]

theorem bind_error {α β : Type} {x : TreeM N α} {f : α → TreeM N β} {s s' : TreeState N}
    {e : AvlError} (h : x s = .error e s') : (x >>= f) s = .error e s' := by
  show EStateM.bind x f s = _
  rw [EStateM.bind, h]

theorem get_ok (s : TreeState N) : (get : TreeM N (TreeState N)) s = .ok s s := rfl

theorem modify_ok (f : TreeState N → TreeState N) (s : TreeState N) :
    (modify f : TreeM N Unit) s = .ok () (f s) := rfl

theorem getNode_ok {s : TreeState N} {x : Ref} {o : Node} (h : s.heap[x]? = some o) :
    getNode x s = .ok o s := by
  simp only [getNode, h]

theorem getView_ok {s : TreeState N} {x : Ref} {o : Node} (h : s.heap[x]? = some o) :
    getView x s = .ok o.content.view s := by
  rw [getView, bind_ok (getNode_ok h)]
  rfl

end

end Sparkz.Avl
