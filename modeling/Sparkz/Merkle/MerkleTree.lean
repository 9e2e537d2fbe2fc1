import Sparkz.Avl.Operation

/-!
# Merkle trees

The hash tree over a sequence of leaf data, padded with empty nodes, and the proofs
that an element is in it.

* `Node` — leaves, internal nodes and the two kinds of empty nodes, with their `hash`;
  the prefix of a message tells a leaf from an internal node.
* `MerkleTree.apply`, `calcTopNode` — the tree, level by level.
* `MerkleProof`, `MerkleProof.valid` — the hash of the leaf is folded with the digests
  of the proof.
* `Node.messages`, `MerkleProof.messages` — what is hashed on either side.
* `MerkleProof.valid_sound` — an accepted proof is about an element of the tree,
  whatever digests and sides it has, if no collision shows up.
-/

namespace Sparkz.Merkle

open Sparkz.Avl (Digest CryptographicHash)

/-- `LeafData`. -/
abbrev LeafData := List UInt8

/-- `Side`: a byte. -/
abbrev Side := UInt8

/-- `MerkleTree.LeafPrefix`. -/
def leafPrefix : UInt8 := 0

/-- `MerkleTree.InternalNodePrefix`. -/
def internalNodePrefix : UInt8 := 1

/-! ## Nodes -/

/-- `Node`. -/
inductive Node where
  | internalNode (left right : Node)
  | leaf (data : LeafData)
  | emptyNode
  | emptyRootNode
  deriving DecidableEq

namespace Node

/-- `hash`. -/
def hash (hf : CryptographicHash) : Node → Digest
  | .internalNode left right =>
    hf.prefixedHash internalNodePrefix (left.hash hf ++ right.hash hf)
  | .leaf data => hf.prefixedHash leafPrefix data
  | .emptyNode => []
  | .emptyRootNode => List.replicate hf.digestSize 0

/-- The messages that are hashed to label a tree. -/
def messages (hf : CryptographicHash) : Node → List (List UInt8)
  | .internalNode left right =>
    (internalNodePrefix :: (left.hash hf ++ right.hash hf))
      :: (left.messages hf ++ right.messages hf)
  | .leaf data => [leafPrefix :: data]
  | .emptyNode => []
  | .emptyRootNode => []

/-- The data of the leaves, from left to right. -/
def leaves : Node → List LeafData
  | .internalNode left right => left.leaves ++ right.leaves
  | .leaf data => [data]
  | .emptyNode => []
  | .emptyRootNode => []

/-- A tree where only the right child of an internal node may be empty. -/
def Padded : Node → Prop
  | .internalNode left right => left.Padded ∧ (right = .emptyNode ∨ right.Padded)
  | .leaf _ => True
  | .emptyNode => False
  | .emptyRootNode => False

theorem Padded.length_hash (hf : CryptographicHash) {n : Node} (h : n.Padded) :
    (n.hash hf).length = hf.digestSize := by
  cases n with
  | internalNode left right => exact hf.length_prefixedHash _ _
  | leaf data => exact hf.length_prefixedHash _ _
  | emptyNode => exact h.elim
  | emptyRootNode => exact h.elim

end Node

/-- A subtree of `top`. -/
structure Node.PartOf (hf : CryptographicHash) (n top : Node) : Prop where
  padded : n.Padded
  messages : n.messages hf ⊆ top.messages hf
  leaves : n.leaves ⊆ top.leaves

theorem Node.Padded.partOf {hf : CryptographicHash} {top : Node} (h : top.Padded) :
    top.PartOf hf top :=
  ⟨h, List.Subset.refl _, List.Subset.refl _⟩

namespace Node.PartOf

variable {hf : CryptographicHash} {l r top : Node}

theorem left (h : (internalNode l r).PartOf hf top) : l.PartOf hf top where
  padded := h.padded.1
  messages _ hm := h.messages (by simp [Node.messages, hm])
  leaves _ hd := h.leaves (List.mem_append_left _ hd)

theorem right (h : (internalNode l r).PartOf hf top) (hright : r.Padded) :
    r.PartOf hf top where
  padded := hright
  messages _ hm := h.messages (by simp [Node.messages, hm])
  leaves _ hd := h.leaves (List.mem_append_right _ hd)

end Node.PartOf

/-! ## Trees -/

/-- `nodes.grouped(2)` as internal nodes: a last node without a neighbour gets an
empty one. -/
def nextNodes : List Node → List Node
  | left :: right :: nodes => .internalNode left right :: nextNodes nodes
  | [left] => [.internalNode left .emptyNode]
  | [] => []

theorem length_nextNodes (nodes : List Node) :
    (nextNodes nodes).length = (nodes.length + 1) / 2 := by
  fun_induction nextNodes nodes with
  | case1 left right nodes ih =>
    rw [List.length_cons, ih, List.length_cons, List.length_cons]
    omega
  | case2 left => simp
  | case3 => rfl

/-- `calcTopNode`. -/
def calcTopNode (nodes : List Node) : Node :=
  if nodes.isEmpty then .emptyRootNode
  else if (nextNodes nodes).length = 1 then (nextNodes nodes).headD .emptyRootNode
  else calcTopNode (nextNodes nodes)
  termination_by nodes.length
  decreasing_by
    rename_i hne hlen
    rw [List.isEmpty_iff] at hne
    have hpos := List.length_pos_iff.2 hne
    rw [length_nextNodes] at hlen ⊢
    omega

/-- The top node of the tree that `MerkleTree.apply` builds. -/
def topNode (payload : List LeafData) : Node := calcTopNode (payload.map .leaf)

/-- `MerkleTree(payload).rootHash`. -/
def rootHash (hf : CryptographicHash) (payload : List LeafData) : Digest :=
  (topNode payload).hash hf

theorem nextNodes_leaves (nodes : List Node) :
    (nextNodes nodes).flatMap Node.leaves = nodes.flatMap Node.leaves := by
  fun_induction nextNodes nodes with
  | case1 left right nodes ih =>
    simp only [List.flatMap_cons, Node.leaves, ih, List.append_assoc]
  | case2 left => simp [Node.leaves]
  | case3 => rfl

theorem nextNodes_padded {nodes : List Node} (h : ∀ n ∈ nodes, n.Padded) :
    ∀ n ∈ nextNodes nodes, n.Padded := by
  fun_induction nextNodes nodes with
  | case1 left right nodes ih =>
    simp only [List.mem_cons, forall_eq_or_imp] at h ⊢
    exact ⟨⟨h.1, Or.inr h.2.1⟩, ih h.2.2⟩
  | case2 left =>
    simp only [List.mem_singleton, forall_eq] at h ⊢
    exact ⟨h, Or.inl rfl⟩
  | case3 => simp

/-- The tree over a nonempty list of nodes has their leaves. -/
theorem calcTopNode_spec {nodes : List Node} (hne : nodes ≠ []) (h : ∀ n ∈ nodes, n.Padded) :
    (calcTopNode nodes).Padded ∧ (calcTopNode nodes).leaves = nodes.flatMap Node.leaves := by
  fun_induction calcTopNode nodes with
  | case1 nodes hempty => exact absurd (List.isEmpty_iff.1 hempty) hne
  | case2 nodes hempty hlen =>
    obtain ⟨top, htop⟩ := List.length_eq_one_iff.1 hlen
    have hpadded := nextNodes_padded h
    have hleaves := nextNodes_leaves nodes
    rw [htop] at hpadded hleaves ⊢
    exact ⟨hpadded top (List.mem_singleton_self top), by simpa using hleaves⟩
  | case3 nodes hempty hlen ih =>
    have hnext : nextNodes nodes ≠ [] := by
      have := List.length_pos_iff.2 hne
      rw [← List.length_pos_iff, length_nextNodes]
      omega
    obtain ⟨hpadded, hleaves⟩ := ih hnext (nextNodes_padded h)
    exact ⟨hpadded, hleaves.trans (nextNodes_leaves nodes)⟩

/-- **The tree** of a nonempty payload holds the payload. -/
theorem topNode_spec {payload : List LeafData} (hne : payload ≠ []) :
    (topNode payload).Padded ∧ (topNode payload).leaves = payload := by
  have hall : ∀ n ∈ payload.map Node.leaf, n.Padded := by simp [Node.Padded]
  obtain ⟨hpadded, hleaves⟩ := calcTopNode_spec (List.map_eq_nil_iff.not.2 hne) hall
  refine ⟨hpadded, hleaves.trans ?_⟩
  rw [List.flatMap_map]
  exact List.flatMap_singleton' payload

/-! ## Proofs -/

/-- `MerkleProof`: the levels are given bottom up. -/
structure MerkleProof where
  leafData : LeafData
  levels : List (Digest × Side)

namespace MerkleProof

variable {hf : CryptographicHash}

/-- `MerkleProof.LeftSide`. -/
def leftSide : Side := 0

/-- `MerkleProof.RightSide`. -/
def rightSide : Side := 1

/-- The message of a level, over the hash of the level below. -/
def levelMessage (prevHash : Digest) : Digest × Side → List UInt8
  | (hash, side) =>
    internalNodePrefix :: (if side = leftSide then prevHash ++ hash else hash ++ prevHash)

/-- The last message that is hashed for a proof. -/
def topMessage (hf : CryptographicHash) (leafData : LeafData) (levels : List (Digest × Side)) :
    List UInt8 :=
  levels.foldl (fun message level => levelMessage (hf.hash message) level) (leafPrefix :: leafData)

/-- What `valid` folds: the hash one level up. -/
def nextHash (hf : CryptographicHash) (prevHash : Digest) : Digest × Side → Digest
  | (hash, side) =>
    if side = leftSide then hf.prefixedHash internalNodePrefix (prevHash ++ hash)
    else hf.prefixedHash internalNodePrefix (hash ++ prevHash)

/-- `valid`. -/
def valid (hf : CryptographicHash) (proof : MerkleProof) (expectedRootHash : Digest) : Bool :=
  proof.levels.foldl (nextHash hf) (hf.prefixedHash leafPrefix proof.leafData)
    == expectedRootHash

/-- The messages that are hashed to check a proof. -/
def messages (hf : CryptographicHash) (proof : MerkleProof) : List (List UInt8) :=
  proof.levels.inits.map (topMessage hf proof.leafData)

theorem nextHash_eq (prevHash : Digest) (level : Digest × Side) :
    nextHash hf prevHash level = hf.hash (levelMessage prevHash level) := by
  rw [nextHash, levelMessage]
  split_ifs <;> rfl

/-- What is compared with the root hash is the hash of the last message. -/
theorem valid_iff {proof : MerkleProof} {expectedRootHash : Digest} :
    proof.valid hf expectedRootHash
      ↔ hf.hash (topMessage hf proof.leafData proof.levels) = expectedRootHash := by
  rw [valid, beq_iff_eq, CryptographicHash.prefixedHash,
    List.foldl_hom hf.hash fun message level => nextHash_eq (hf.hash message) level]
  rfl

theorem topMessage_append_singleton {leafData : LeafData} {levels : List (Digest × Side)}
    {level : Digest × Side} :
    topMessage hf leafData (levels ++ [level])
      = levelMessage (hf.hash (topMessage hf leafData levels)) level := by
  simp [topMessage]

/-- A level whose message is that of an internal node has one of its children below. -/
theorem eq_child_of_levelMessage {prevHash : Digest} {level : Digest × Side} {left right : Node}
    (hprev : prevHash.length = hf.digestSize) (hleft : left.Padded)
    (hright : right = .emptyNode ∨ right.Padded)
    (h : levelMessage prevHash level
      = internalNodePrefix :: (left.hash hf ++ right.hash hf)) :
    prevHash = left.hash hf ∨ right.Padded ∧ prevHash = right.hash hf := by
  obtain ⟨hash, side⟩ := level
  have hlen := hleft.length_hash hf
  simp only [levelMessage, List.cons.injEq, true_and] at h
  split_ifs at h
  · exact Or.inl (List.append_inj h (hprev.trans hlen.symm)).1
  · obtain rfl | hright := hright
    · -- the padding is empty: the left child takes all bytes
      have hsize := congrArg List.length h
      simp only [List.length_append, Node.hash, List.length_nil] at hsize
      have hnil : hash = [] := List.length_eq_zero_iff.1 (by omega)
      rw [hnil, List.nil_append, Node.hash, List.append_nil] at h
      exact Or.inl h
    · exact Or.inr ⟨hright, (List.append_inj' h (hprev.trans (hright.length_hash hf).symm)).2⟩

variable {M : List (List UInt8)} {n top : Node}

/-- A subtree whose hash is that of a leaf message is this leaf. -/
theorem mem_leaves_of_hash {data : LeafData} (hn : n.PartOf hf top)
    (hcf : hf.CollisionFree (top.messages hf ++ M)) (hM : (leafPrefix :: data) ∈ M)
    (h : hf.hash (leafPrefix :: data) = n.hash hf) : data ∈ top.leaves := by
  have hmem := List.mem_append_right (top.messages hf) hM
  cases n with
  | leaf data' =>
    have heq := hcf _ hmem _ (List.mem_append_left _ (hn.messages (by simp [Node.messages]))) h
    rw [(List.cons.inj heq).2]
    exact hn.leaves (by simp [Node.leaves])
  | internalNode left right =>
    have heq := hcf _ hmem _ (List.mem_append_left _ (hn.messages (by simp [Node.messages]))) h
    exact absurd (List.cons.inj heq).1 (by decide)
  | emptyNode => exact hn.padded.elim
  | emptyRootNode => exact hn.padded.elim

/-- A subtree whose hash is that of a level has the hash of the level below in it. -/
theorem exists_partOf_of_levelMessage {prevHash : Digest} {level : Digest × Side}
    (hn : n.PartOf hf top) (hcf : hf.CollisionFree (top.messages hf ++ M))
    (hM : levelMessage prevHash level ∈ M) (hprev : prevHash.length = hf.digestSize)
    (h : hf.hash (levelMessage prevHash level) = n.hash hf) :
    ∃ below : Node, below.PartOf hf top ∧ prevHash = below.hash hf := by
  have hmem := List.mem_append_right (top.messages hf) hM
  cases n with
  | leaf data =>
    have heq := hcf _ hmem _ (List.mem_append_left _ (hn.messages (by simp [Node.messages]))) h
    exact absurd (List.cons.inj heq).1 (by decide)
  | internalNode left right =>
    have heq := hcf _ hmem _ (List.mem_append_left _ (hn.messages (by simp [Node.messages]))) h
    obtain hleft | ⟨hpadded, hright⟩ :=
      eq_child_of_levelMessage hprev hn.padded.1 hn.padded.2 heq
    · exact ⟨left, hn.left, hleft⟩
    · exact ⟨right, hn.right hpadded, hright⟩
  | emptyNode => exact hn.padded.elim
  | emptyRootNode => exact hn.padded.elim

/-- **Descent**: levels that hash to the hash of a tree come from one of its leaves. -/
theorem leafData_mem {leafData : LeafData} (levels : List (Digest × Side))
    (hn : n.PartOf hf top) (hcf : hf.CollisionFree (top.messages hf ++ M))
    (hM : ∀ l, l <+: levels → topMessage hf leafData l ∈ M)
    (h : hf.hash (topMessage hf leafData levels) = n.hash hf) : leafData ∈ top.leaves := by
  induction levels using List.reverseRecOn generalizing n with
  | nil => exact mem_leaves_of_hash hn hcf (hM [] (List.prefix_refl _)) h
  | append_singleton levels level ih =>
    have hlast := hM _ (List.prefix_refl _)
    rw [topMessage_append_singleton] at h hlast
    obtain ⟨below, hbelow, hhash⟩ :=
      exists_partOf_of_levelMessage hn hcf hlast (hf.length_hash _) h
    exact ih hbelow (fun l hl => hM l (hl.trans (List.prefix_append _ _))) hhash

/-- **Soundness**: an accepted proof is about an element of the payload. -/
theorem valid_sound (hf : CryptographicHash) {payload : List LeafData} (hne : payload ≠ [])
    (proof : MerkleProof)
    (hcf : hf.CollisionFree ((topNode payload).messages hf ++ proof.messages hf))
    (hvalid : proof.valid hf (rootHash hf payload)) : proof.leafData ∈ payload := by
  obtain ⟨hpadded, hleaves⟩ := topNode_spec hne
  have hmem := leafData_mem proof.levels hpadded.partOf hcf
    (fun l hl => List.mem_map_of_mem ((List.mem_inits _ _).2 hl)) (valid_iff.1 hvalid)
  rwa [hleaves] at hmem

/-- A hash that shows what it hashes: the first four bytes. -/
def firstFour : CryptographicHash where
  digestSize := 4
  digestSize_pos := CryptographicHash.four_pos
  hash message := (message ++ [0, 0, 0, 0]).take 4
  length_hash := CryptographicHash.length_take_four

theorem topNode_three (a b c : LeafData) :
    topNode [a, b, c]
      = .internalNode (.internalNode (.leaf a) (.leaf b)) (.internalNode (.leaf c) .emptyNode) := by
  simp [topNode, calcTopNode, nextNodes]

theorem valid_sound_three : [7] ∈ ([[5], [6], [7]] : List LeafData) :=
  valid_sound firstFour (by simp) ⟨[7], [([], leftSide), ([1, 0, 5, 0], rightSide)]⟩
    (by rw [topNode_three]; decide) (by rw [rootHash, topNode_three]; decide)

end MerkleProof

end Sparkz.Merkle
