import Sparkz.Merkle.MerkleTree

/-!
# Proofs by index

`MerkleTree.proofByIndex` walks down from the top by halving a length that it computes from
the number of distinct leaf hashes.

* `length`, `lengthWithEmptyLeafs`, `proofLoop`, `proofByIndex` — the source.
* `cover` — the tree of some height over a list of nodes, from the top down;
  `calcTopNode_eq_cover` — the tree that is built from the bottom up is one.
* `Finds` — the walk down ends at a leaf, with a proof that leads back to the top.
* `finds_cover` — with the right length; `finds_cover_half`, `finds_cover_none` — with half
  of it, and with less.
* `proofByIndex_complete_iff` — for which payloads and indices there is a proof.
-/

namespace Sparkz.Merkle

open Sparkz.Avl (Digest CryptographicHash)
open MerkleProof (leftSide rightSide nextHash)

/-! ## The source -/

section

variable (hf : CryptographicHash) (payload : List LeafData)

/-- `length`: the size of the index, whose keys are the hashes of the leaves. -/
def length : ℕ := (payload.map fun d => (Node.leaf d).hash hf).dedup.length

/-- `max(2^⌈log2 n⌉, 2)`. -/
def roundUp (n : ℕ) : ℕ := max (2 ^ Nat.clog 2 n) 2

/-- `lengthWithEmptyLeafs`, computed exactly. -/
def lengthWithEmptyLeafs : ℕ := roundUp (length hf payload)

/-- `loop(node, i, curLength, acc)` in `proofByIndex`. -/
def proofLoop : Node → ℕ → ℕ → List (Digest × Side) → Option (LeafData × List (Digest × Side))
  | .internalNode left right, i, curLength, acc =>
      if i < curLength / 2 then
        proofLoop left i (curLength / 2) (acc ++ [(right.hash hf, leftSide)])
      else if i < curLength then
        proofLoop right (i - curLength / 2) (curLength / 2) (acc ++ [(left.hash hf, rightSide)])
      else none
  | .leaf data, _, _, acc => some (data, acc.reverse)
  | _, _, _, _ => none

/-- `MerkleTree(payload).proofByIndex(index)`. -/
def proofByIndex (index : ℤ) : Option MerkleProof :=
  if index ≥ 0 ∧ index < length hf payload then
    (proofLoop hf (topNode payload) index.toNat (lengthWithEmptyLeafs hf payload) []).map
      fun lp => ⟨lp.1, lp.2⟩
  else none

end

/-! ## The tree from the top down -/

/-- The tree of height `k` over a list of at most `2 ^ k` nodes. -/
def cover : ℕ → List Node → Node
  | 0, nodes => nodes.headD .emptyNode
  | k + 1, nodes =>
      .internalNode (cover k (nodes.take (2 ^ k)))
        (if nodes.length ≤ 2 ^ k then .emptyNode else cover k (nodes.drop (2 ^ k)))

theorem nextNodes_take (m : ℕ) (nodes : List Node) :
    nextNodes (nodes.take (2 * m)) = (nextNodes nodes).take m := by
  induction m generalizing nodes with
  | zero => simp [nextNodes]
  | succ m ih =>
    rcases nodes with _ | ⟨left, _ | ⟨right, nodes⟩⟩
    · simp [nextNodes]
    · simp [nextNodes, Nat.mul_succ]
    · rw [Nat.mul_succ, List.take_succ_cons, List.take_succ_cons, nextNodes, nextNodes,
        List.take_succ_cons, ih]

theorem nextNodes_drop (m : ℕ) (nodes : List Node) :
    nextNodes (nodes.drop (2 * m)) = (nextNodes nodes).drop m := by
  induction m generalizing nodes with
  | zero => simp
  | succ m ih =>
    rcases nodes with _ | ⟨left, _ | ⟨right, nodes⟩⟩
    · simp [nextNodes]
    · simp [nextNodes, Nat.mul_succ]
    · rw [Nat.mul_succ, List.drop_succ_cons, List.drop_succ_cons, nextNodes, List.drop_succ_cons,
        ih]

/-- One level less, over the level above. -/
theorem cover_succ {k : ℕ} {nodes : List Node} (hne : nodes ≠ [])
    (hlen : nodes.length ≤ 2 ^ (k + 1)) : cover (k + 1) nodes = cover k (nextNodes nodes) := by
  induction k generalizing nodes with
  | zero =>
    match nodes with
    | [] => exact absurd rfl hne
    | [left] => rfl
    | [left, right] => rfl
    | _ :: _ :: _ :: _ => simp at hlen
  | succ k ih =>
    have hpow : (2 : ℕ) ^ (k + 1) = 2 * 2 ^ k := by rw [pow_succ, mul_comm]
    have hpos : 0 < (2 : ℕ) ^ k := by positivity
    have hleft : cover (k + 1) (nodes.take (2 ^ (k + 1)))
        = cover k ((nextNodes nodes).take (2 ^ k)) := by
      rw [ih (by simp [hne]) (by simp), hpow, nextNodes_take]
    have hright : nodes.length ≤ 2 ^ (k + 1) ∨ cover (k + 1) (nodes.drop (2 ^ (k + 1)))
        = cover k ((nextNodes nodes).drop (2 ^ k)) := by
      refine or_iff_not_imp_left.2 fun hfull => ?_
      rw [ih (by simpa using hfull) (by simp; omega), hpow, nextNodes_drop]
    have hlength : (nextNodes nodes).length ≤ 2 ^ k ↔ nodes.length ≤ 2 ^ (k + 1) := by
      rw [length_nextNodes]
      omega
    show Node.internalNode (cover (k + 1) (nodes.take (2 ^ (k + 1)))) _ = _
    rw [hleft, cover]
    congr 1
    by_cases hfull : nodes.length ≤ 2 ^ (k + 1)
    · rw [if_pos hfull, if_pos (hlength.2 hfull)]
    · rw [if_neg hfull, if_neg (hlength.not.2 hfull)]
      exact hright.resolve_left hfull

/-- The height of the tree over `n` nodes. -/
def treeHeight (n : ℕ) : ℕ := max (Nat.clog 2 n) 1

theorem roundUp_eq (n : ℕ) : roundUp n = 2 ^ treeHeight n := by
  rw [roundUp, treeHeight]
  rcases le_total (Nat.clog 2 n) 1 with h | h
  · rw [max_eq_right h, max_eq_right (by simpa using Nat.pow_le_pow_right (by norm_num) h), pow_one]
  · rw [max_eq_left h, max_eq_left (by simpa using Nat.pow_le_pow_right (n := 2) (by norm_num) h)]

theorem le_pow_treeHeight (n : ℕ) : n ≤ 2 ^ treeHeight n :=
  (Nat.le_pow_clog (by norm_num) n).trans (Nat.pow_le_pow_right (by norm_num) (le_max_left _ _))

/-- **The tree that is built level by level** is the one over all nodes. -/
theorem calcTopNode_eq_cover {nodes : List Node} (hne : nodes ≠ []) :
    calcTopNode nodes = cover (treeHeight nodes.length) nodes := by
  fun_induction calcTopNode nodes with
  | case1 nodes hempty => exact absurd (List.isEmpty_iff.1 hempty) hne
  | case2 nodes hempty hlen =>
    rw [length_nextNodes] at hlen
    have hpos := List.length_pos_iff.2 hne
    have hheight : treeHeight nodes.length = 0 + 1 := by
      rw [treeHeight, max_eq_right]
      exact Nat.clog_le_of_le_pow (by omega)
    obtain ⟨top, htop⟩ := List.length_eq_one_iff.1 ((length_nextNodes nodes).trans hlen)
    rw [hheight, cover_succ hne (by omega), htop]
    rfl
  | case3 nodes hempty hlen ih =>
    rw [length_nextNodes] at hlen
    have hpos := List.length_pos_iff.2 hne
    have hnext : nextNodes nodes ≠ [] := by
      rw [← List.length_pos_iff, length_nextNodes]
      omega
    rw [ih hnext, length_nextNodes]
    have hheight : treeHeight nodes.length = treeHeight ((nodes.length + 1) / 2) + 1 := by
      have hclog := Nat.clog_of_two_le (b := 2) (n := nodes.length) (by norm_num) (by omega)
      have hsum : nodes.length + 2 - 1 = nodes.length + 1 := by omega
      rw [hsum] at hclog
      have hpos : 0 < Nat.clog 2 ((nodes.length + 1) / 2) := Nat.clog_pos (by norm_num) (by omega)
      rw [treeHeight, treeHeight, hclog]
      omega
    rw [hheight, cover_succ hne]
    rw [← hheight]
    exact le_pow_treeHeight _

/-! ## The walk down -/

section

variable {hf : CryptographicHash} {l r : Node} {ds : List LeafData}

/-- The walk down from a node ends at a leaf with the data, and the levels of its proof lead
back to the node; or there is no leaf. -/
def Finds (hf : CryptographicHash) (node : Node) (i curLength : ℕ) : Option LeafData → Prop
  | some data => ∀ acc, ∃ levels,
      proofLoop hf node i curLength acc = some (data, levels ++ acc.reverse)
      ∧ levels.foldl (nextHash hf) (hf.prefixedHash leafPrefix data) = node.hash hf
  | none => ∀ acc, proofLoop hf node i curLength acc = none

/-- The walk goes left. -/
theorem Finds.left {i curLength : ℕ} {data : Option LeafData}
    (h : Finds hf l i (curLength / 2) data) (hi : i < curLength / 2) (r : Node) :
    Finds hf (.internalNode l r) i curLength data := by
  cases data with
  | none =>
    intro acc
    rw [proofLoop, if_pos hi]
    exact h _
  | some data =>
    intro acc
    obtain ⟨levels, hloop, hfold⟩ := h (acc ++ [(r.hash hf, leftSide)])
    refine ⟨levels ++ [(r.hash hf, leftSide)], ?_, ?_⟩
    · rw [proofLoop, if_pos hi, hloop, List.reverse_append]
      simp
    · rw [List.foldl_append, hfold]
      rfl

/-- The walk goes right. -/
theorem Finds.right {i curLength : ℕ} {data : Option LeafData}
    (h : Finds hf r (i - curLength / 2) (curLength / 2) data) (hi : curLength / 2 ≤ i)
    (hlt : i < curLength) (l : Node) :
    Finds hf (.internalNode l r) i curLength data := by
  cases data with
  | none =>
    intro acc
    rw [proofLoop, if_neg hi.not_gt, if_pos hlt]
    exact h _
  | some data =>
    intro acc
    obtain ⟨levels, hloop, hfold⟩ := h (acc ++ [(l.hash hf, rightSide)])
    refine ⟨levels ++ [(l.hash hf, rightSide)], ?_, ?_⟩
    · rw [proofLoop, if_neg hi.not_gt, if_pos hlt, hloop, List.reverse_append]
      simp
    · rw [List.foldl_append, hfold]
      rfl

theorem finds_leaf (data : LeafData) (i curLength : ℕ) :
    Finds hf (.leaf data) i curLength (some data) :=
  fun _ => ⟨[], rfl, rfl⟩

theorem finds_emptyNode (i curLength : ℕ) : Finds hf .emptyNode i curLength none := fun _ => rfl

/-- The walk from the top of a tree of height `k + 1`. -/
theorem Finds.cover {k i m : ℕ} {data : Option LeafData}
    (hleft : i < m → Finds hf (cover k ((ds.take (2 ^ k)).map .leaf)) i m data)
    (hright : m ≤ i → 2 ^ k < ds.length →
      Finds hf (Merkle.cover k ((ds.drop (2 ^ k)).map .leaf)) (i - m) m data)
    (hempty : m ≤ i → ds.length ≤ 2 ^ k → data = none) (hlt : i < 2 * m) :
    Finds hf (Merkle.cover (k + 1) (ds.map .leaf)) i (2 * m) data := by
  have hhalf : 2 * m / 2 = m := by omega
  rw [Merkle.cover, ← List.map_take, ← List.map_drop, List.length_map]
  rcases lt_or_ge i m with hi | hi
  · exact Finds.left (hhalf.symm ▸ hleft hi) (hhalf.symm ▸ hi) _
  · refine Finds.right ?_ (hhalf.symm ▸ hi) hlt _
    rw [hhalf]
    by_cases hfull : ds.length ≤ 2 ^ k
    · rw [if_pos hfull, hempty hi hfull]
      exact finds_emptyNode _ _
    · rw [if_neg hfull]
      exact hright hi (not_le.1 hfull)

/-- **With the right length** the walk finds the leaf at its index. -/
theorem finds_cover {k : ℕ} (hne : ds ≠ []) {i : ℕ} (hi : i < 2 ^ k) :
    Finds hf (cover k (ds.map .leaf)) i (2 ^ k) (ds.take (2 ^ k))[i]? := by
  induction k generalizing ds i with
  | zero =>
    obtain rfl : i = 0 := by simpa using hi
    cases ds with
    | nil => exact absurd rfl hne
    | cons d ds => exact finds_leaf d _ _
  | succ k ih =>
    have hpow : (2 : ℕ) ^ (k + 1) = 2 * 2 ^ k := by rw [pow_succ, mul_comm]
    rw [hpow] at hi ⊢
    refine .cover (fun hlt => ?_) (fun hge hfull => ?_) (fun hge hshort => ?_) hi
    · have hleft := ih (show ds.take (2 ^ k) ≠ [] by simp [hne]) hlt
      rw [List.take_take, min_self] at hleft
      rwa [List.getElem?_take_of_lt hi, ← List.getElem?_take_of_lt hlt]
    · have hright := ih (show ds.drop (2 ^ k) ≠ [] by simpa using hfull) (i := i - 2 ^ k)
        (by omega)
      rw [List.getElem?_take_of_lt (by omega), List.getElem?_drop,
        Nat.add_sub_cancel' hge] at hright
      rwa [List.getElem?_take_of_lt hi]
    · rw [List.getElem?_take_of_lt hi, List.getElem?_eq_none (hshort.trans hge)]

/-- **With half of the right length** it finds the leaf on the right below the place that it
looks for. -/
theorem finds_cover_half {j : ℕ} (hne : ds ≠ []) {i : ℕ} (hi : i < 2 ^ j) :
    Finds hf (cover (j + 1) (ds.map .leaf)) i (2 ^ j) (ds.take (2 ^ (j + 1)))[2 * i + 1]? := by
  induction j generalizing ds i with
  | zero =>
    obtain rfl : i = 0 := by simpa using hi
    match ds with
    | [] => exact absurd rfl hne
    | [d] => exact .right (finds_emptyNode _ _) (Nat.zero_le _) Nat.one_pos _
    | d :: d' :: ds => exact .right (finds_leaf d' _ _) (Nat.zero_le _) Nat.one_pos _
  | succ j ih =>
    have hpow : (2 : ℕ) ^ (j + 1) = 2 * 2 ^ j := by rw [pow_succ, mul_comm]
    have hpow' : (2 : ℕ) ^ (j + 1 + 1) = 2 * 2 ^ (j + 1) := by rw [pow_succ, mul_comm]
    rw [hpow']
    rw [hpow] at hi
    have hlt₁ : 2 * i + 1 < 2 * 2 ^ (j + 1) := by omega
    rw [List.getElem?_take_of_lt hlt₁, hpow]
    refine .cover (fun hlt => ?_) (fun hge hfull => ?_) (fun hge hshort => ?_) hi
    · have hleft := ih (show ds.take (2 ^ (j + 1)) ≠ [] by simp [hne]) hlt
      rwa [List.take_take, min_self, List.getElem?_take_of_lt (by omega)] at hleft
    · have hright := ih (show ds.drop (2 ^ (j + 1)) ≠ [] by simpa using hfull) (i := i - 2 ^ j)
        (by omega)
      have hindex : 2 ^ (j + 1) + (2 * (i - 2 ^ j) + 1) = 2 * i + 1 := by omega
      rwa [List.getElem?_take_of_lt (by omega), List.getElem?_drop, hindex] at hright
    · exact List.getElem?_eq_none (by omega)

/-- **With less than half** it finds nothing. -/
theorem finds_cover_none {j m : ℕ} (hne : ds ≠ []) {i : ℕ} (hi : i < 2 ^ j) :
    Finds hf (cover (j + (m + 2)) (ds.map .leaf)) i (2 ^ j) none := by
  induction j generalizing ds i with
  | zero =>
    obtain rfl : i = 0 := by simpa using hi
    rw [Nat.zero_add, Merkle.cover]
    refine .right ?_ (Nat.zero_le _) Nat.one_pos _
    split
    · exact finds_emptyNode _ _
    · exact fun acc => rfl
  | succ j ih =>
    have hpow : (2 : ℕ) ^ (j + 1) = 2 * 2 ^ j := by rw [pow_succ, mul_comm]
    have hheight : j + 1 + (m + 2) = j + (m + 2) + 1 := by omega
    rw [hpow] at hi ⊢
    rw [hheight]
    refine .cover (fun hlt => ih (by simp [hne]) hlt)
      (fun hge hfull => ih (by simpa using hfull) (by omega)) (fun _ _ => rfl) hi

end

/-! ## Completeness -/

section

variable {hf : CryptographicHash} {payload : List LeafData}

theorem length_le (hf : CryptographicHash) (payload : List LeafData) :
    length hf payload ≤ payload.length := by
  rw [length]
  exact (List.dedup_sublist _).length_le.trans (List.length_map _).le

theorem treeHeight_mono {m n : ℕ} (h : m ≤ n) : treeHeight m ≤ treeHeight n :=
  max_le_max (Nat.clog_mono_right 2 h) le_rfl

/-- The top node covers the payload. -/
theorem topNode_eq_cover (hne : payload ≠ []) :
    topNode payload = cover (treeHeight payload.length) (payload.map .leaf) := by
  rw [topNode, calcTopNode_eq_cover (by simpa using hne), List.length_map]

/-- What a walk from the top finds decides whether there is a proof of an element. -/
theorem exists_proof_iff {i : ℕ} {data : Option LeafData} (hi : i < length hf payload)
    (h : Finds hf (topNode payload) i (lengthWithEmptyLeafs hf payload) data) {d : LeafData} :
    (∃ p, proofByIndex hf payload i = some p ∧ p.leafData = d ∧ p.valid hf (rootHash hf payload))
      ↔ data = some d := by
  have hindex : (i : ℤ) ≥ 0 ∧ (i : ℤ) < length hf payload := ⟨by omega, by omega⟩
  rw [proofByIndex, if_pos hindex, Int.toNat_natCast]
  cases data with
  | none =>
    rw [h []]
    simp
  | some data =>
    obtain ⟨levels, hloop, hfold⟩ := h []
    rw [hloop]
    constructor
    · rintro ⟨p, hp, rfl, _⟩
      cases hp
      rfl
    · rintro ⟨⟩
      refine ⟨_, rfl, rfl, ?_⟩
      rw [MerkleProof.valid, List.reverse_nil, List.append_nil, hfold]
      exact beq_self_eq_true _

/-- **Completeness.**  There is a valid proof of an element for its index if and only if the
index is below the number of distinct leaf hashes, and either this number needs a tree as high
as the payload does, or a tree of half the length and the element found then is the same. -/
theorem proofByIndex_complete_iff (hf : CryptographicHash) (payload : List LeafData) {i : ℕ}
    (hi : i < payload.length) :
    (∃ p, proofByIndex hf payload i = some p ∧ p.leafData = payload[i]
        ∧ p.valid hf (rootHash hf payload))
      ↔ i < length hf payload
        ∧ (lengthWithEmptyLeafs hf payload = roundUp payload.length
          ∨ 2 * lengthWithEmptyLeafs hf payload = roundUp payload.length
            ∧ payload[2 * i + 1]? = some payload[i]) := by
  by_cases hlt : i < length hf payload
  · have hne : payload ≠ [] := by
      rintro rfl
      exact absurd hi (Nat.not_lt_zero _)
    have hle := treeHeight_mono (length_le hf payload)
    have hiw := hlt.trans_le (le_pow_treeHeight (length hf payload))
    have htop := topNode_eq_cover hne
    have htake : payload.take (2 ^ treeHeight payload.length) = payload :=
      List.take_of_length_le (le_pow_treeHeight _)
    have hw : lengthWithEmptyLeafs hf payload = 2 ^ treeHeight (length hf payload) := roundUp_eq _
    have hpow : roundUp payload.length = 2 ^ treeHeight payload.length := roundUp_eq _
    obtain ⟨m, hm⟩ := Nat.exists_eq_add_of_le hle
    match m with
    | 0 =>
      have hheight : treeHeight payload.length = treeHeight (length hf payload) := hm
      have hfinds : Finds hf (cover (treeHeight payload.length) (payload.map .leaf)) i
          (2 ^ treeHeight payload.length) (payload.take (2 ^ treeHeight payload.length))[i]? :=
        finds_cover hne (by rwa [hheight])
      rw [htake, ← htop, hheight, ← hw] at hfinds
      rw [exists_proof_iff hlt hfinds, List.getElem?_eq_getElem hi]
      exact ⟨fun _ => ⟨hlt, .inl (by rw [hw, hpow, hheight])⟩, fun _ => rfl⟩
    | 1 =>
      have hdouble : roundUp payload.length = 2 * lengthWithEmptyLeafs hf payload := by
        rw [hpow, hw, hm, pow_succ, mul_comm]
      have hpos : 0 < lengthWithEmptyLeafs hf payload := by rw [hw]; positivity
      have hfinds :
        Finds hf (cover (treeHeight (length hf payload) + 1) (payload.map .leaf)) i _ _ :=
        finds_cover_half hne hiw
      rw [← hm, htake, ← htop, ← hw] at hfinds
      rw [exists_proof_iff hlt hfinds, hdouble]
      constructor
      · exact fun hsome => ⟨hlt, .inr ⟨rfl, hsome⟩⟩
      · rintro ⟨_, hsame | ⟨_, hsome⟩⟩
        · omega
        · exact hsome
    | m + 2 =>
      have hmore : 2 * lengthWithEmptyLeafs hf payload < roundUp payload.length := by
        rw [hpow, hw, hm, ← pow_succ']
        exact Nat.pow_lt_pow_right (by norm_num) (by omega)
      have hfinds : Finds hf (cover (treeHeight (length hf payload) + (m + 2))
          (payload.map .leaf)) i _ none := finds_cover_none hne hiw
      rw [← hm, ← htop, ← hw] at hfinds
      rw [exists_proof_iff hlt hfinds]
      constructor
      · exact fun hnone => (Option.some_ne_none _ hnone.symm).elim
      · rintro ⟨_, hsame | ⟨hhalf, _⟩⟩
        · omega
        · omega
  · refine iff_of_false ?_ fun h => hlt h.1
    rintro ⟨p, hp, _⟩
    have hindex : ¬ ((i : ℤ) ≥ 0 ∧ (i : ℤ) < length hf payload) := by omega
    rw [proofByIndex, if_neg hindex] at hp
    cases hp

/-- Three distinct elements. -/
theorem proofByIndex_complete_three :
    ∃ p, proofByIndex MerkleProof.firstFour [[5], [6], [7]] 2 = some p ∧ p.leafData = [7]
      ∧ p.valid MerkleProof.firstFour (rootHash MerkleProof.firstFour [[5], [6], [7]]) :=
  (proofByIndex_complete_iff MerkleProof.firstFour [[5], [6], [7]] (i := 2) (by decide)).2
    ⟨by decide, .inl (by decide)⟩

/-- An element that is there twice is counted once, and the second place has no proof. -/
theorem proofByIndex_repeated : proofByIndex MerkleProof.firstFour [[7], [7]] 1 = none := by
  rw [proofByIndex, if_neg (by decide)]

end

end Sparkz.Merkle
