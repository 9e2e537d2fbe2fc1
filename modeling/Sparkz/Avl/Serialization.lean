import Sparkz.Avl.BatchAVLVerifier

/-!
# Snapshots of the prover

The model of `batch.serialization`: how a prover is sliced into a manifest and subtrees, what
is written and read for them, and how they are combined.  Labels are computed when they are
asked for and nothing here changes a field that they depend on, so the nodes are values; `null`
is a child that was not set.

* `ProverNodes`, `label` — the nodes, proxies included.
* `nodesFromBytes`, `manifestFromBytes`, `subtreeFromBytes` — reading; `nodesToBytes`,
  `manifestToBytes` — writing.
* `sliceTree` — `slice`: the manifest and the subtrees of a prover; `subtreesIds` — the
  subtrees that a manifest announces.
* `BatchAVLProverManifest.verify`, `combine` — the check of a manifest, and the prover made of
  it and its subtrees.
* `RestoredProver` — what is asked of that prover: `digest`, `unauthenticatedLookup` and
  `checkTree`.
-/

namespace Sparkz.Avl.Serialization

open Sparkz.Lib
open BatchAVLProver (EndLeaf Checked)

/-- What can be thrown. -/
inductive RestoreError where
  | noSuchElement
  | illegalArgument
  | requirementFailed
  | notImplemented
  | nullPointer
  | assertionFailed
  | matchError
  | notTerminating
  deriving DecidableEq

/-! ## Nodes -/

/-- `ProverNodes`. -/
inductive ProverNodes where
  | null
  | proverLeaf (k : ADKey) (v : ADValue) (nk : ADKey)
  | internalProverNode (k : ADKey) (l r : ProverNodes) (b : Balance)
  | proxyInternalNode (pk : ADKey) (leftLabel rightLabel : Digest) (l r : ProverNodes)
      (pb : Balance)
  deriving DecidableEq

namespace ProverNodes

/-- `label`; a proxy computes it from the labels that it was made with. -/
def label (hf : CryptographicHash) : ProverNodes → Except RestoreError Digest
  | null => .error .nullPointer
  | proverLeaf k v nk => .ok (hf.hash (leafMessage k v nk))
  | internalProverNode _ l r b => do
      let leftLabel ← l.label hf
      let rightLabel ← r.label hf
      return hf.hash (internalMessage b leftLabel rightLabel)
  | proxyInternalNode _ leftLabel rightLabel _ _ b =>
      .ok (hf.hash (internalMessage b leftLabel rightLabel))

/-- `idCollector(node, acc)` of a manifest. -/
def idCollector : ProverNodes → List Digest → Except RestoreError (List Digest)
  | null, _ => .error .matchError
  | proverLeaf _ _ _, acc => .ok acc
  | proxyInternalNode _ leftLabel rightLabel l r _, acc =>
      if l = null ∨ r = null then .ok (acc ++ [leftLabel] ++ [rightLabel])
      else do
        let acc' ← idCollector l acc
        idCollector r acc'
  | internalProverNode _ l r _, acc => do
      let acc' ← idCollector l acc
      idCollector r acc'

/-- What is hashed for the labels of the nodes. -/
def messages (hf : CryptographicHash) : ProverNodes → List (List UInt8)
  | null => []
  | proverLeaf k v nk => [leafMessage k v nk]
  | internalProverNode _ l r b =>
      (match l.label hf, r.label hf with
        | .ok leftLabel, .ok rightLabel => [internalMessage b leftLabel rightLabel]
        | _, _ => []) ++ (messages hf l ++ messages hf r)
  | proxyInternalNode _ leftLabel rightLabel l r b =>
      internalMessage b leftLabel rightLabel :: (messages hf l ++ messages hf r)

/-- `key`. -/
def key : ProverNodes → Except RestoreError ADKey
  | null => .error .nullPointer
  | proverLeaf k _ _ => .ok k
  | internalProverNode k _ _ _ => .ok k
  | proxyInternalNode k _ _ _ _ _ => .ok k

end ProverNodes

/-! ## Reading -/

/-- `Ints.fromByteArray(bytes)`. -/
def intFromByteArray (bytes : List UInt8) : Except RestoreError ℤ :=
  if bytes.length < 4 then .error .illegalArgument
  else .ok (signed 32 (ofBytes (bytes.take 4)))

/-- `hf.byteArrayToDigest(bytes)`. -/
def byteArrayToDigest (hf : CryptographicHash) (bytes : List UInt8) :
    Except RestoreError Digest :=
  if bytes.length = hf.digestSize then .ok bytes else .error .requirementFailed

/-- `bytes.head`. -/
def byteHead (bytes : List UInt8) : Except RestoreError UInt8 :=
  match bytes with
  | [] => .error .noSuchElement
  | byte :: _ => .ok byte

section

variable (hf : CryptographicHash) (keyLength : ℕ)

/-- The leaf that is read for the tag 0. -/
def leafFromBytes (bytes : List UInt8) : ProverNodes :=
  .proverLeaf ⟨slice bytes 1 (keyLength + 1)⟩
    (mkValue (slice bytes (2 * keyLength + 1) bytes.length))
    ⟨slice bytes (keyLength + 1) (2 * keyLength + 1)⟩

/-- The proxy that is read for the tag 2. -/
def proxyFromBytes (bytes : List UInt8) : Except RestoreError ProverNodes := do
  let balance ← byteHead (slice bytes 1 2)
  let leftLabel ← byteArrayToDigest hf
    (slice bytes (keyLength + 2) (keyLength + 2 + hf.digestSize))
  let rightLabel ← byteArrayToDigest hf
    (slice bytes (keyLength + 2 + hf.digestSize) (keyLength + 2 + 2 * hf.digestSize))
  return .proxyInternalNode ⟨slice bytes 2 (keyLength + 2)⟩ leftLabel rightLabel .null .null
    balance.toInt8

/-- `loop(bytes)` in `nodesFromBytes`. -/
def nodesLoop : ℕ → List UInt8 → Except RestoreError ProverNodes
  | 0, _ => .error .notTerminating
  | fuel + 1, bytes => do
      let tag ← byteHead bytes
      if tag = 0 then return leafFromBytes keyLength bytes
      else if tag = 1 then
        let balance ← byteHead (slice bytes 1 2)
        let key : ADKey := ⟨slice bytes 2 (keyLength + 2)⟩
        let leftLength ← intFromByteArray (slice bytes (keyLength + 2) (keyLength + 6))
        let middle := wrapInt (keyLength + 6 + leftLength)
        let left ← nodesLoop fuel (slice bytes (keyLength + 6) middle)
        let right ← nodesLoop fuel (slice bytes middle bytes.length)
        let leftKey ← left.key
        let rightKey ← right.key
        if leftKey < key ∧ key ≤ rightKey then
          return .internalProverNode key left right balance.toInt8
        else throw .requirementFailed
      else if tag = 2 then proxyFromBytes hf keyLength bytes
      else throw .notImplemented

/-- `nodesFromBytes(bytesIn, keyLength)`. -/
def nodesFromBytes (bytesIn : List UInt8) : Except RestoreError ProverNodes :=
  nodesLoop hf keyLength (bytesIn.length + 1) bytesIn

/-- `BatchAVLProverManifest`. -/
structure BatchAVLProverManifest where
  root : ProverNodes
  rootHeight : ℤ
  deriving DecidableEq

/-- `BatchAVLProverSubtree`. -/
structure BatchAVLProverSubtree where
  subtreeTop : ProverNodes
  deriving DecidableEq

/-- `manifestFromBytes(bytes, keyLength)`. -/
def manifestFromBytes (bytes : List UInt8) : Except RestoreError BatchAVLProverManifest := do
  let oldHeight ← intFromByteArray (slice bytes 0 4)
  let oldTop ← nodesFromBytes hf keyLength (slice bytes 4 bytes.length)
  return ⟨oldTop, oldHeight⟩

/-- `subtreeFromBytes(b, kl)`. -/
def subtreeFromBytes (b : List UInt8) : Except RestoreError BatchAVLProverSubtree := do
  let topNode ← nodesFromBytes hf keyLength b
  return ⟨topNode⟩

end

/-! ## Writing -/

/-- `nodesToBytes(rootNode)`. -/
def nodesToBytes : ProverNodes → Except RestoreError (List UInt8)
  | .null => .error .matchError
  | .proverLeaf k v nk => .ok (0 :: (k.bytes ++ nk.bytes ++ v.bytes))
  | .proxyInternalNode k leftLabel rightLabel l r b =>
      if l = .null ∨ r = .null then
        .ok ([2, b.toUInt8] ++ k.bytes ++ leftLabel ++ rightLabel)
      else do
        let leftBytes ← nodesToBytes l
        let rightBytes ← nodesToBytes r
        return [1, b.toUInt8] ++ k.bytes ++ toBytes 4 leftBytes.length ++ leftBytes ++ rightBytes
  | .internalProverNode k l r b => do
      let leftBytes ← nodesToBytes l
      let rightBytes ← nodesToBytes r
      return [1, b.toUInt8] ++ k.bytes ++ toBytes 4 leftBytes.length ++ leftBytes ++ rightBytes

/-- `manifestToBytes(manifest)`. -/
def manifestToBytes (manifest : BatchAVLProverManifest) : Except RestoreError (List UInt8) := do
  let bytes ← nodesToBytes manifest.root
  return toBytes 4 (manifest.rootHeight % 2 ^ 32).toNat ++ bytes

/-! ## Combining -/

section

variable (hf : CryptographicHash)

/-- `id` of a manifest. -/
def BatchAVLProverManifest.id (manifest : BatchAVLProverManifest) : Except RestoreError Digest :=
  manifest.root.label hf

/-- `subtreesIds`. -/
def BatchAVLProverManifest.subtreesIds (manifest : BatchAVLProverManifest) :
    Except RestoreError (List Digest) :=
  manifest.root.idCollector []

/-- `verify(expectedDigest, expectedHeight)`. -/
def BatchAVLProverManifest.verify (manifest : BatchAVLProverManifest) (expectedDigest : Digest)
    (expectedHeight : ℤ) : Except RestoreError Bool := do
  let id ← manifest.id hf
  return id == expectedDigest && expectedHeight == manifest.rootHeight

/-- `id` of a subtree. -/
def BatchAVLProverSubtree.id (subtree : BatchAVLProverSubtree) : Except RestoreError Digest :=
  subtree.subtreeTop.label hf

/-- `sliced._2.find(_.id sameElements label).get.subtreeTop`. -/
def findSubtree (label : Digest) : List BatchAVLProverSubtree → Except RestoreError ProverNodes
  | [] => .error .noSuchElement
  | subtree :: subtrees => do
      let id ← subtree.id hf
      if id = label then return subtree.subtreeTop else findSubtree label subtrees

/-- `setChild(n)` of a proxy with the given labels, on its children. -/
def setChild (leftLabel rightLabel : Digest) (children : ProverNodes × ProverNodes)
    (n : ProverNodes) : Except RestoreError (ProverNodes × ProverNodes) := do
  let label ← n.label hf
  if label = leftLabel then return (n, children.2)
  else if label = rightLabel then return (children.1, n)
  else throw .assertionFailed

/-- `mutateLoop(n)`: the subtrees themselves are not searched for proxies. -/
def mutateLoop (subtrees : List BatchAVLProverSubtree) :
    ProverNodes → Except RestoreError ProverNodes
  | .proxyInternalNode k leftLabel rightLabel l r b =>
      if l = .null ∨ r = .null then do
        let left ← findSubtree hf leftLabel subtrees
        let right ← findSubtree hf rightLabel subtrees
        let children ← setChild hf leftLabel rightLabel (l, r) left
        let children' ← setChild hf leftLabel rightLabel children right
        return .proxyInternalNode k leftLabel rightLabel children'.1 children'.2 b
      else do
        let l' ← mutateLoop subtrees l
        let r' ← mutateLoop subtrees r
        return .proxyInternalNode k leftLabel rightLabel l' r' b
  | .internalProverNode k l r b => do
      let l' ← mutateLoop subtrees l
      let r' ← mutateLoop subtrees r
      return .internalProverNode k l' r' b
  | n => .ok n

/-- `BatchAVLProver`, as `combine` makes it. -/
structure RestoredProver where
  keyLength : ℕ
  valueLengthOpt : Option ℕ
  topNode : ProverNodes
  rootNodeHeight : ℤ
  deriving DecidableEq

/-- `ProxyInternalNode(node)`, for a node with these fields. -/
def proxyOf (k : ADKey) (l r : ProverNodes) (b : Balance) : Except RestoreError ProverNodes := do
  let leftLabel ← l.label hf
  let rightLabel ← r.label hf
  return .proxyInternalNode k leftLabel rightLabel .null .null b

/-- The children of a proxy as two steps of `setChild` leave them. -/
def withChildren (parent left right : ProverNodes) : Except RestoreError ProverNodes :=
  match parent with
  | .proxyInternalNode k leftLabel rightLabel l r b => do
      let children ← setChild hf leftLabel rightLabel (l, r) left
      let children' ← setChild hf leftLabel rightLabel children right
      return .proxyInternalNode k leftLabel rightLabel children'.1 children'.2 b
  | _ => .error .matchError

/-- `getSubtrees(currentNode, currentHeight, parent)`: the node that it makes a child of the
parent, and the subtrees.  The label of a proxy does not depend on its children, so they can be
set before it is. -/
def getSubtrees (subtreeDepth : ℤ) :
    ProverNodes → ℤ → Except RestoreError (ProverNodes × List BatchAVLProverSubtree)
  | .null, _ => .error .matchError
  | .proverLeaf k v nk, _ => .ok (.proverLeaf k v nk, [⟨.proverLeaf k v nk⟩])
  | .internalProverNode k l r b, currentHeight
  | .proxyInternalNode k _ _ l r b, currentHeight => do
      let nextParent ← proxyOf hf k l r b
      if currentHeight > subtreeDepth then
        let left ← getSubtrees subtreeDepth l (currentHeight - 1)
        let right ← getSubtrees subtreeDepth r (currentHeight - 1)
        let nextParent' ← withChildren hf nextParent left.1 right.1
        return (nextParent', left.2 ++ right.2)
      else return (nextParent, [⟨l⟩, ⟨r⟩])

/-- `slice(tree, subtreeDepth)` of the serializer. -/
def sliceTree (tree : RestoredProver) (subtreeDepth : ℤ) :
    Except RestoreError (BatchAVLProverManifest × List BatchAVLProverSubtree) :=
  match tree.topNode with
  | .null => .error .matchError
  | .proverLeaf k v nk => .ok (⟨.proverLeaf k v nk, tree.rootNodeHeight⟩, [])
  | .internalProverNode k l r b | .proxyInternalNode k _ _ l r b => do
      let rootProxyNode ← proxyOf hf k l r b
      let left ← getSubtrees hf subtreeDepth l (tree.rootNodeHeight - 1)
      let right ← getSubtrees hf subtreeDepth r (tree.rootNodeHeight - 1)
      let root ← withChildren hf rootProxyNode left.1 right.1
      return (⟨root, tree.rootNodeHeight⟩, left.2 ++ right.2)

/-- `combine(sliced, keyLength, valueLengthOpt)`. -/
def combine (manifest : BatchAVLProverManifest) (subtrees : List BatchAVLProverSubtree)
    (keyLength : ℕ) (valueLengthOpt : Option ℕ) : Except RestoreError RestoredProver := do
  let root ← match manifest.root with
    | .null => .error .matchError
    | n => mutateLoop hf subtrees n
  return ⟨keyLength, valueLengthOpt, root, manifest.rootHeight⟩

end

/-! ## The prover -/

namespace RestoredProver

/-- `digest`. -/
def digest (hf : CryptographicHash) (p : RestoredProver) : Except RestoreError Digest :=
  if p.rootNodeHeight ≥ 0 && p.rootNodeHeight < 256 then do
    let label ← p.topNode.label hf
    return label ++ [UInt8.ofNat p.rootNodeHeight.toNat]
  else .error .assertionFailed

/-- `treeWalk` with the functions of `unauthenticatedLookup`. -/
def lookupWalk (key : ADKey) (found : Bool) : ProverNodes → Except RestoreError (Option ADValue)
  | .null => .error .matchError
  | .proverLeaf _ v _ => .ok (if found then some v else none)
  | .internalProverNode k l r _ | .proxyInternalNode k _ _ l r _ =>
      if found then lookupWalk key true l
      else
        match compare key k with
        | .eq => lookupWalk key true r
        | .lt => lookupWalk key false l
        | .gt => lookupWalk key false r

/-- `unauthenticatedLookup(key)`. -/
def unauthenticatedLookup (p : RestoredProver) (key : ADKey) :
    Except RestoreError (Option ADValue) :=
  lookupWalk key false p.topNode

/-- `child.isInstanceOf[InternalProverNode[D]]` with a condition on its key. -/
def checkChildKey (child : ProverNodes) (cond : ADKey → Bool) : Bool :=
  match child with
  | .internalProverNode k _ _ _ | .proxyInternalNode k _ _ _ _ _ => cond k
  | _ => true

/-- `checkTreeHelper` at an inner node, after its calls for the children. -/
def checkInner (k : ADKey) (b : Balance) (l r : ProverNodes) (left right : Checked) : Checked :=
  let here := checkChildKey l (fun kl => decide (kl < k))
    && checkChildKey r (fun kr => decide (kr > k))
    && decide (left.maxLeaf.nextLeafKey = right.minLeaf.key)
    && decide (right.minLeaf.key = k)
    && decide (b ≥ -1 ∧ b ≤ 1 ∧ b.toInt = (right.height : ℤ) - left.height)
  ⟨left.minLeaf, right.maxLeaf, max left.height right.height + 1, here && left.ok && right.ok⟩

/-- `checkTreeHelper(rNode)`, for `postProof = false`. -/
def checkTreeHelper : ProverNodes → Except RestoreError Checked
  | .null => .error .matchError
  | .proverLeaf k _ nk => .ok ⟨⟨k, nk⟩, ⟨k, nk⟩, 0, true⟩
  | .internalProverNode k l r b | .proxyInternalNode k _ _ l r b => do
      let left ← checkTreeHelper l
      let right ← checkTreeHelper r
      return checkInner k b l r left right

/-- `PositiveInfinityKey`. -/
def positiveInfinityKey (p : RestoredProver) : ADKey := ⟨List.replicate p.keyLength 255⟩

/-- `NegativeInfinityKey`. -/
def negativeInfinityKey (p : RestoredProver) : ADKey := ⟨List.replicate p.keyLength 0⟩

/-- `checkTree()`. -/
def checkTree (p : RestoredProver) : Except RestoreError Unit := do
  let res ← checkTreeHelper p.topNode
  if res.minLeaf.key = p.negativeInfinityKey ∧ res.maxLeaf.nextLeafKey = p.positiveInfinityKey
      ∧ (res.height : ℤ) = p.rootNodeHeight ∧ res.ok = true then return ()
  else throw .requirementFailed

end RestoredProver

end Sparkz.Avl.Serialization
