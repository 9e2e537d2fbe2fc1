import Sparkz.Merkle.MerkleTree

/-!
# Sparse Merkle trees

A tree of fixed height over the indices below `2 ^ height`, known by its root digest
only: a proof carries the digests beside the path to its leaf, and an update recomputes
the digests on this path.  A digest is absent where the subtree is empty.

* `SparseMerkleProof.propagateChanges`, `valid` — the digests on the path.
* `pathDigest` — the same level by level; `propagateChanges_eq`.
* `nodeDigest` — the digests of the tree over a given map, and `treeMessages`, what is
  hashed for them.
* `SparseMerkleTree.update` — with the proof for the next leaf, `lastProof`, kept up to
  date.
-/

namespace Sparkz.Merkle.Sparse

open Sparkz.Avl (Digest CryptographicHash)
open Sparkz.Lib (toBytes)

/-! ## Nodes -/

/-- `idx.toByteArray` of an index: as many bytes as its bits and a sign bit take. -/
def toByteArray (idx : ℕ) : List UInt8 := toBytes (idx.size / 8 + 1) idx

/-- What is hashed for a leaf. -/
def leafMessage (idx : ℕ) (data : LeafData) : List UInt8 := toByteArray idx ++ data

/-- `Leaf.hash`. -/
def leafHash (hf : CryptographicHash) (idx : ℕ) (data : LeafData) : Digest :=
  hf.hash (leafMessage idx data)

/-- What is hashed for an internal node: an absent child has no bytes. -/
def internalMessage (left right : Option Digest) : List UInt8 := left.getD [] ++ right.getD []

/-- `InternalNode.hash`. -/
def internalHash (hf : CryptographicHash) (left right : Option Digest) : Digest :=
  if left.isNone && right.isNone then [] else hf.hash (internalMessage left right)

/-! ## Proofs -/

/-- `SparseMerkleProof`: the levels are given bottom up. -/
structure SparseMerkleProof where
  idx : ℕ
  leafDataOpt : Option LeafData
  levels : List (Option Digest)
  deriving DecidableEq

/-- `toByte`. -/
def toByte (n : ℕ) : ℤ := ((n : ℤ) + 128) % 256 - 128

theorem toByte_of_le {n : ℕ} (h : n ≤ 127) : toByte n = n := by
  rw [toByte]
  omega

/-- `indexToBits`. -/
def indexToBits (idx : ℕ) (height : ℤ) : List Bool := (List.range height.toNat).map idx.testBit

namespace SparseMerkleProof

/-- `updLevel`: the digest one level up. -/
def updLevel (hf : CryptographicHash) (nodeOpt neighbourOpt : Option Digest) (side : Bool) :
    Option Digest :=
  match nodeOpt, neighbourOpt with
  | none, none => none
  | _, _ =>
    some (if side then internalHash hf neighbourOpt nodeOpt
      else internalHash hf nodeOpt neighbourOpt)

/-- `propagateChanges`: the root digest and the digests on the path below it. -/
def propagateChanges (hf : CryptographicHash) (proof : SparseMerkleProof)
    (leafDataOpt : Option LeafData) : Option Digest × List (Option Digest) :=
  let height := toByte proof.levels.length
  let leafOptHash := leafDataOpt.map (leafHash hf proof.idx)
  let sides := indexToBits proof.idx height
  let (rootHashOpt, wayDigests) := (proof.levels.zip sides).foldl
    (fun (nodeOpt, collected) (ndigOpt, side) =>
      let level := updLevel hf nodeOpt ndigOpt side
      (level, collected ++ [level]))
    (leafOptHash, [leafOptHash])
  (rootHashOpt, wayDigests.dropLast)

/-- `valid`; `none` where `require` throws. -/
def valid (hf : CryptographicHash) (proof : SparseMerkleProof) (expectedRootHash : Option Digest)
    (height : ℕ) : Option Bool :=
  if proof.levels.length = height then
    match (proof.propagateChanges hf proof.leafDataOpt).1, expectedRootHash with
    | some calcRoot, some expRoot => some (calcRoot == expRoot)
    | none, none => some true
    | _, _ => some false
  else none

end SparseMerkleProof

open SparseMerkleProof

/-! ## Trees -/

/-- `SparseMerkleTree`; the height is a byte that is not negative. -/
structure SparseMerkleTree where
  rootDigest : Option Digest
  height : ℕ
  lastProof : SparseMerkleProof

/-- `FilterFn`. -/
abbrev FilterFn := ℕ → Option LeafData → Bool

namespace SparseMerkleTree

/-- `zeroProof`. -/
def zeroProof (height : ℕ) : SparseMerkleProof := ⟨0, none, List.replicate height none⟩

/-- `emptyTree`. -/
def emptyTree (height : ℕ) : SparseMerkleTree := ⟨none, height, zeroProof height⟩

/-- `lastIndex`. -/
def lastIndex (tree : SparseMerkleTree) : ℕ := tree.lastProof.idx

/-- `firstDivergingBitPosition`: the highest bit below `max` that differs. -/
def firstDivergingBitPosition (idx1 idx2 max : ℕ) : Option ℕ :=
  (List.range max).reverse.find? fun bi => idx1.testBit bi != idx2.testBit bi

/-- `updateProof`. -/
def updateProof (height changesIdx : ℕ) (changeLeafData : Option LeafData)
    (changesPath : List (Option Digest)) (proof : SparseMerkleProof) : SparseMerkleProof :=
  match firstDivergingBitPosition proof.idx changesIdx height with
  | none => { proof with leafDataOpt := changeLeafData }
  | some divergingIndex =>
    { proof with
      levels := proof.levels.set divergingIndex (changesPath.getD divergingIndex none) }

/-- One bit of the fold in `increaseCapacity`. -/
def capacityStep (siblings path : List (Option Digest))
    (lastIndexBits newLastIndexBits : List Bool) :
    Bool × List (Option Digest) → ℕ → Bool × List (Option Digest)
  | (oldDiverged, vec), bitIdx =>
    let oldBit := lastIndexBits.getD bitIdx false
    let newBit := newLastIndexBits.getD bitIdx false
    let diverged := oldDiverged || (oldBit != newBit)
    let updElem :=
      if !diverged then siblings.getD bitIdx none
      else if !newBit then none
      else path.getD bitIdx none
    (diverged, vec.set bitIdx updElem)

/-- `increaseCapacity`. -/
def increaseCapacity (hf : CryptographicHash) (tree : SparseMerkleTree) : SparseMerkleProof :=
  let li := tree.lastIndex + 1
  let path := (tree.lastProof.propagateChanges hf none).2
  let siblings := tree.lastProof.levels
  let lastIndexBits := indexToBits tree.lastIndex tree.height
  let newLastIndexBits := indexToBits (tree.lastIndex + 1) tree.height
  let newLevels := ((List.range tree.height).reverse.foldl
    (capacityStep siblings path lastIndexBits newLastIndexBits)
    (false, List.replicate tree.height none)).2
  { tree.lastProof with idx := li, levels := newLevels }

/-- `update`; `none` where `require` throws. -/
def update (hf : CryptographicHash) (tree : SparseMerkleTree) (proof : SparseMerkleProof)
    (newLeafData : Option LeafData) (proofsToUpdate : List SparseMerkleProof)
    (filterFn : FilterFn) : Option (SparseMerkleTree × List SparseMerkleProof) :=
  let proofIdx := proof.idx
  if proof.levels.length = tree.height ∧ tree.lastProof.levels.length = tree.height
      ∧ proofIdx ≤ tree.lastIndex + 1 ∧ filterFn proofIdx newLeafData
      ∧ proof.valid hf tree.rootDigest tree.height = some true then
    let newRoot := (proof.propagateChanges hf newLeafData).1
    let changes := (proof.propagateChanges hf newLeafData).2
    let lp := if proofIdx = tree.lastIndex then tree.increaseCapacity hf else tree.lastProof
    let newLp := updateProof tree.height proofIdx newLeafData changes lp
    let updatedProofs :=
      proofsToUpdate.map (updateProof tree.height proofIdx newLeafData changes)
    some (⟨newRoot, tree.height, newLp⟩, updatedProofs)
  else none

end SparseMerkleTree

/-! ## The digests on the path -/

variable {hf : CryptographicHash}

/-- The digest beside the path on level `k`. -/
def SparseMerkleProof.level (proof : SparseMerkleProof) (k : ℕ) : Option Digest :=
  proof.levels.getD k none

/-- The digest of the node on level `k` of the path, with the digests beside it. -/
def pathDigest (hf : CryptographicHash) (idx : ℕ) (leaf : Option Digest)
    (levels : ℕ → Option Digest) : ℕ → Option Digest
  | 0 => leaf
  | k + 1 => updLevel hf (pathDigest hf idx leaf levels k) (levels k) (idx.testBit k)

/-- The levels above `k` do not matter for the digests up to `k`. -/
theorem pathDigest_congr {idx : ℕ} {leaf : Option Digest} {levels levels' : ℕ → Option Digest}
    (k : ℕ) (h : ∀ i < k, levels i = levels' i) :
    pathDigest hf idx leaf levels k = pathDigest hf idx leaf levels' k := by
  induction k with
  | zero => rfl
  | succ k ih =>
    rw [pathDigest, pathDigest, ih fun i hi => h i (hi.trans k.lt_succ_self),
      h k k.lt_succ_self]

theorem zip_indexToBits (idx : ℕ) {levels : List (Option Digest)} (h : levels.length ≤ 127) :
    levels.zip (indexToBits idx (toByte levels.length))
      = (List.range levels.length).map fun k => (levels.getD k none, idx.testBit k) := by
  rw [toByte_of_le h, indexToBits, Int.toNat_natCast]
  refine List.ext_getElem (by simp) fun i h₁ h₂ => ?_
  have hi : i < levels.length := by simpa using h₂
  simp [hi]

/-- **`propagateChanges`** gives the digests on the path. -/
theorem propagateChanges_eq {proof : SparseMerkleProof} (h : proof.levels.length ≤ 127)
    (leafDataOpt : Option LeafData) :
    proof.propagateChanges hf leafDataOpt
      = (pathDigest hf proof.idx (leafDataOpt.map (leafHash hf proof.idx)) proof.level
          proof.levels.length,
        (List.range proof.levels.length).map
          (pathDigest hf proof.idx (leafDataOpt.map (leafHash hf proof.idx)) proof.level)) := by
  set path := pathDigest hf proof.idx (leafDataOpt.map (leafHash hf proof.idx)) proof.level
    with hpath
  have hfold : ∀ n, ((List.range n).map
        fun k => (proof.levels.getD k none, proof.idx.testBit k)).foldl
      (fun (nodeOpt, collected) (ndigOpt, side) =>
        let level := updLevel hf nodeOpt ndigOpt side
        (level, collected ++ [level]))
      (path 0, [path 0])
      = (path n, (List.range (n + 1)).map path) := by
    intro n
    induction n with
    | zero => rfl
    | succ n ih =>
      rw [List.range_succ, List.map_append, List.foldl_append, ih, @List.range_succ (n + 1),
        List.map_append]
      rfl
  have hwhole := hfold proof.levels.length
  simp only [hpath, pathDigest] at hwhole
  simp only [propagateChanges, zip_indexToBits _ h, hwhole, List.range_succ, List.map_append,
    List.map_singleton, List.dropLast_concat]
  rfl

/-- A proof is valid if the path over its leaf has the expected digest at its end. -/
theorem valid_eq_true {proof : SparseMerkleProof} {root : Option Digest} {height : ℕ}
    (hheight : height ≤ 127) (hlen : proof.levels.length = height) :
    proof.valid hf root height = some true
      ↔ pathDigest hf proof.idx (proof.leafDataOpt.map (leafHash hf proof.idx)) proof.level height
        = root := by
  unfold SparseMerkleProof.valid
  rw [if_pos hlen, propagateChanges_eq (by omega), hlen]
  cases pathDigest hf proof.idx (proof.leafDataOpt.map (leafHash hf proof.idx)) proof.level height
    <;> cases root <;> simp

/-! ## What is hashed -/

/-- What is hashed for `updLevel`. -/
def updMessage (nodeOpt neighbourOpt : Option Digest) (side : Bool) : Option (List UInt8) :=
  match nodeOpt, neighbourOpt with
  | none, none => none
  | _, _ =>
    some (if side then internalMessage neighbourOpt nodeOpt
      else internalMessage nodeOpt neighbourOpt)

theorem updLevel_eq (nodeOpt neighbourOpt : Option Digest) (side : Bool) :
    updLevel hf nodeOpt neighbourOpt side
      = (updMessage nodeOpt neighbourOpt side).map hf.hash := by
  cases nodeOpt <;> cases neighbourOpt <;> cases side <;> rfl

@[simp] theorem updMessage_none_none (side : Bool) : updMessage none none side = none := rfl

@[simp] theorem updMessage_some_none (x : Digest) (side : Bool) :
    updMessage (some x) none side = some x := by
  cases side <;> simp [updMessage, internalMessage]

@[simp] theorem updMessage_none_some (x : Digest) (side : Bool) :
    updMessage none (some x) side = some x := by
  cases side <;> simp [updMessage, internalMessage]

@[simp] theorem updMessage_some_some (x y : Digest) (side : Bool) :
    updMessage (some x) (some y) side = some (if side then y ++ x else x ++ y) := by
  cases side <;> rfl

/-- Exchanging the two sides. -/
theorem updMessage_swap (nodeOpt neighbourOpt : Option Digest) (side : Bool) :
    updMessage nodeOpt neighbourOpt side = updMessage neighbourOpt nodeOpt !side := by
  cases nodeOpt <;> cases neighbourOpt <;> cases side <;> rfl

theorem updMessage_eq_none {nodeOpt neighbourOpt : Option Digest} {side : Bool}
    (h : updMessage nodeOpt neighbourOpt side = none) : nodeOpt = none ∧ neighbourOpt = none := by
  cases nodeOpt <;> cases neighbourOpt <;> simp_all

/-- The messages that are hashed to check a proof. -/
def SparseMerkleProof.messages (hf : CryptographicHash) (proof : SparseMerkleProof) :
    List (List UInt8) :=
  (proof.leafDataOpt.map (leafMessage proof.idx)).toList
    ++ (List.range proof.levels.length).flatMap fun k =>
      (updMessage (pathDigest hf proof.idx (proof.leafDataOpt.map (leafHash hf proof.idx))
        proof.level k) (proof.level k) (proof.idx.testBit k)).toList

theorem length_of_mem_pathDigest {idx : ℕ} {leaf : Option Digest} {levels : ℕ → Option Digest}
    (hleaf : ∀ x ∈ leaf, x.length = hf.digestSize) (k : ℕ) :
    ∀ x ∈ pathDigest hf idx leaf levels k, x.length = hf.digestSize := by
  cases k with
  | zero => exact hleaf
  | succ k =>
    intro x hx
    rw [pathDigest, updLevel_eq] at hx
    obtain ⟨message, -, rfl⟩ := Option.map_eq_some_iff.1 hx
    exact hf.length_hash message

/-- Without a digest on level `k`, there is none below. -/
theorem leaf_eq_none_of_pathDigest {idx : ℕ} {leaf : Option Digest}
    {levels : ℕ → Option Digest} (k : ℕ) (h : pathDigest hf idx leaf levels k = none) :
    leaf = none := by
  induction k with
  | zero => exact h
  | succ k ih =>
    rw [pathDigest, updLevel_eq, Option.map_eq_none_iff] at h
    exact ih (updMessage_eq_none h).1

/-- A path without a leaf and digests has no digests. -/
theorem pathDigest_none {idx : ℕ} {levels : ℕ → Option Digest} (k : ℕ)
    (h : ∀ j < k, levels j = none) :
    pathDigest hf idx none levels k = none := by
  induction k with
  | zero => rfl
  | succ k ih =>
    rw [pathDigest, ih fun j hj => h j (hj.trans k.lt_succ_self), h k k.lt_succ_self]
    rfl

/-! ## The tree over a map -/

/-- The digest of node `i` of level `k` in the tree over `m`: an empty subtree has none. -/
def nodeDigest (hf : CryptographicHash) (m : ℕ → Option LeafData) : ℕ → ℕ → Option Digest
  | 0, i => (m i).map (leafHash hf i)
  | k + 1, i => updLevel hf (nodeDigest hf m k (2 * i)) (nodeDigest hf m k (2 * i + 1)) false

/-- What is hashed for it. -/
def treeMessages (hf : CryptographicHash) (m : ℕ → Option LeafData) : ℕ → ℕ → List (List UInt8)
  | 0, i => ((m i).map (leafMessage i)).toList
  | k + 1, i =>
    (updMessage (nodeDigest hf m k (2 * i)) (nodeDigest hf m k (2 * i + 1)) false).toList
      ++ (treeMessages hf m k (2 * i) ++ treeMessages hf m k (2 * i + 1))

theorem length_of_mem_nodeDigest {m : ℕ → Option LeafData} {k i : ℕ} :
    ∀ x ∈ nodeDigest hf m k i, x.length = hf.digestSize := by
  intro x hx
  cases k with
  | zero =>
    obtain ⟨data, -, rfl⟩ := Option.map_eq_some_iff.1 hx
    exact hf.length_hash _
  | succ k =>
    rw [nodeDigest, updLevel_eq] at hx
    obtain ⟨message, -, rfl⟩ := Option.map_eq_some_iff.1 hx
    exact hf.length_hash message

/-- Whether a subtree has a leaf. -/
def occupied (m : ℕ → Option LeafData) : ℕ → ℕ → Bool
  | 0, i => (m i).isSome
  | k + 1, i => occupied m k (2 * i) || occupied m k (2 * i + 1)

theorem isSome_nodeDigest (hf : CryptographicHash) (m : ℕ → Option LeafData) (k i : ℕ) :
    (nodeDigest hf m k i).isSome = occupied m k i := by
  induction k generalizing i with
  | zero => rw [nodeDigest, occupied, Option.isSome_map]
  | succ k ih =>
    rw [nodeDigest, occupied, ← ih, ← ih, updLevel_eq, Option.isSome_map]
    cases nodeDigest hf m k (2 * i) <;> cases nodeDigest hf m k (2 * i + 1) <;> rfl

/-- A hash that shows what it hashes: the length and the first three bytes. -/
def lengthFirst : CryptographicHash where
  digestSize := 4
  digestSize_pos := CryptographicHash.four_pos
  hash message := (UInt8.ofNat message.length :: (message ++ [0, 0, 0])).take 4
  length_hash := by simp

end Sparkz.Merkle.Sparse
