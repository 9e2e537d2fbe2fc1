import Sparkz.Merkle.SparseLastProof
import Sparkz.Merkle.SparseSoundness

/-!
# Updates of sparse Merkle trees

The tree is known by its root, and its proofs are kept elsewhere: an update gives the new
root and repairs the proofs that it is shown.  A proof is repaired in one place, where its
path parts from the one that changed.

* `genuine` — the proof of an index in the tree over a map.
* `neighbour_eq_iff` — where the node beside one path is on another.
* `propagateChanges_genuine`, `updateProof_genuine` — the new root, and a proof repaired.
* `update_genuine` — an update keeps genuine proofs genuine.
-/

namespace Sparkz.Merkle.Sparse

open Sparkz.Avl (Digest CryptographicHash)
open SparseMerkleProof (updLevel)
open SparseMerkleTree (updateProof firstDivergingBitPosition firstDivergingBitPosition_spec
  exists_firstDivergingBitPosition testBit_of_le)

variable {hf : CryptographicHash} {m : ℕ → Option LeafData} {idx : ℕ}

/-- The proof of an index in the tree over a map: its leaf, and the digests beside its path. -/
def genuine (hf : CryptographicHash) (m : ℕ → Option LeafData) (idx h : ℕ) : SparseMerkleProof :=
  proofOf idx (m idx) (fun k => nodeDigest hf m k (neighbour idx k)) h

/-! ## The path -/

/-- A node from its children, as the index sees them. -/
theorem updLevel_children (hf : CryptographicHash) (m : ℕ → Option LeafData) (idx k i : ℕ) :
    updLevel hf (nodeDigest hf m k (toward idx k i)) (nodeDigest hf m k (away idx k i))
        (idx.testBit k)
      = nodeDigest hf m (k + 1) i := by
  rw [nodeDigest, updLevel_eq, updLevel_eq, updMessage_children]

/-- With the digests beside it, a path has the digests of the tree. -/
theorem pathDigest_neighbours (hf : CryptographicHash) (m : ℕ → Option LeafData) (idx k : ℕ) :
    pathDigest hf idx ((m idx).map (leafHash hf idx))
        (fun k => nodeDigest hf m k (neighbour idx k)) k
      = nodeDigest hf m k (idx / 2 ^ k) := by
  induction k with
  | zero => simp [pathDigest, nodeDigest]
  | succ k ih => rw [pathDigest, ih, ← toward_div, neighbour, updLevel_children]

/-- The digests off the path of an index do not change with its leaf. -/
theorem nodeDigest_update_of_ne (x : Option LeafData) (k : ℕ) {i : ℕ} (h : i ≠ idx / 2 ^ k) :
    nodeDigest hf (Function.update m idx x) k i = nodeDigest hf m k i := by
  induction k generalizing i with
  | zero =>
    have hne : i ≠ idx := by simpa using h
    rw [nodeDigest, nodeDigest, Function.update_of_ne hne]
  | succ k ih =>
    rw [pow_succ, ← Nat.div_div_eq_div_mul] at h
    have hleft : 2 * i ≠ idx / 2 ^ k := by omega
    have hright : 2 * i + 1 ≠ idx / 2 ^ k := by omega
    rw [nodeDigest, nodeDigest, ih hleft, ih hright]

/-- The node beside the path of one index is on the path of another if the two part there. -/
theorem neighbour_eq_iff (j idx k : ℕ) :
    neighbour j k = idx / 2 ^ k
      ↔ j / 2 ^ (k + 1) = idx / 2 ^ (k + 1) ∧ j.testBit k ≠ idx.testBit k := by
  rw [← toward_div idx, neighbour, away, toward]
  cases hj : j.testBit k <;> cases hidx : idx.testBit k <;> simp <;> omega

theorem neighbour_ne (idx k : ℕ) : neighbour idx k ≠ idx / 2 ^ k := by
  intro h
  exact ((neighbour_eq_iff idx idx k).1 h).2 rfl

/-- They part at the highest bit that differs, and nowhere else. -/
theorem neighbour_eq_iff_of_diverging {j h d k : ℕ} (hj : j < 2 ^ h) (hidx : idx < 2 ^ h)
    (hd : firstDivergingBitPosition j idx h = some d) :
    neighbour j k = idx / 2 ^ k ↔ k = d := by
  obtain ⟨hdh, hdiff, hsame⟩ := firstDivergingBitPosition_spec hd
  rw [neighbour_eq_iff]
  constructor
  · rintro ⟨habove, hbit⟩
    rcases lt_trichotomy k d with hlt | rfl | hlt
    · -- the bit `d` is above `k`
      have hbits := congrArg (fun n => n.testBit (d - (k + 1))) habove
      simp only [Nat.testBit_div_two_pow, Nat.sub_add_cancel hlt] at hbits
      exact absurd hbits hdiff
    · rfl
    · rcases lt_or_ge k h with hk | hk
      · exact absurd (hsame k hlt hk) hbit
      · rw [testBit_of_le hj hk, testBit_of_le hidx hk] at hbit
        exact absurd rfl hbit
  · rintro rfl
    refine ⟨Nat.eq_of_testBit_eq fun i => ?_, hdiff⟩
    rw [Nat.testBit_div_two_pow, Nat.testBit_div_two_pow]
    rcases lt_or_ge (i + (k + 1)) h with hi | hi
    · exact hsame _ (by omega) hi
    · rw [testBit_of_le hj hi, testBit_of_le hidx hi]

/-! ## A genuine proof -/

@[simp] theorem genuine_idx (h : ℕ) : (genuine hf m idx h).idx = idx := rfl

@[simp] theorem length_genuine_levels (h : ℕ) : (genuine hf m idx h).levels.length = h := by
  simp [genuine, proofOf]

/-- A genuine proof is valid against the root of its tree. -/
theorem valid_genuine {h : ℕ} (hh : h ≤ 127) (hidx : idx < 2 ^ h) :
    (genuine hf m idx h).valid hf (nodeDigest hf m h 0) h = some true := by
  rw [valid_eq_true hh (length_genuine_levels h), ← Nat.div_eq_of_lt hidx,
    ← pathDigest_neighbours hf m idx h]
  exact pathDigest_congr h fun k hk => level_proofOf _ _ _ hk

/-- **The new digests on the path** are those of the tree with the new leaf. -/
theorem propagateChanges_genuine {h : ℕ} (hh : h ≤ 127) (hidx : idx < 2 ^ h)
    (newLeafData : Option LeafData) :
    (genuine hf m idx h).propagateChanges hf newLeafData
      = (nodeDigest hf (Function.update m idx newLeafData) h 0,
        (List.range h).map fun k =>
          nodeDigest hf (Function.update m idx newLeafData) k (idx / 2 ^ k)) := by
  have hpath : ∀ k ≤ h, pathDigest hf idx (newLeafData.map (leafHash hf idx))
      (genuine hf m idx h).level k
      = nodeDigest hf (Function.update m idx newLeafData) k (idx / 2 ^ k) := by
    intro k hk
    rw [← pathDigest_neighbours, Function.update_self]
    refine pathDigest_congr k fun i hi => ?_
    rw [nodeDigest_update_of_ne newLeafData i (neighbour_ne idx i)]
    exact level_proofOf _ _ _ (hi.trans_le hk)
  rw [propagateChanges_eq (by rwa [length_genuine_levels]), length_genuine_levels, genuine_idx,
    hpath h le_rfl, Nat.div_eq_of_lt hidx]
  refine congrArg (Prod.mk _) (List.map_congr_left fun k hk => ?_)
  exact hpath k (List.mem_range.1 hk).le

/-- **A proof repaired** is the genuine one of the tree with the new leaf. -/
theorem updateProof_genuine {h j : ℕ} (hh : h ≤ 127) (hidx : idx < 2 ^ h) (hj : j < 2 ^ h)
    (newLeafData : Option LeafData) :
    updateProof h idx newLeafData ((genuine hf m idx h).propagateChanges hf newLeafData).2
        (genuine hf m j h)
      = genuine hf (Function.update m idx newLeafData) j h := by
  rw [propagateChanges_genuine hh hidx]
  rcases eq_or_ne j idx with rfl | hne
  · -- the same path: only the leaf is another
    have hnone : firstDivergingBitPosition j j h = none := by
      simp [firstDivergingBitPosition]
    simp only [updateProof, genuine_idx, hnone]
    simp only [genuine, proofOf, Function.update_self]
    refine congrArg (SparseMerkleProof.mk j newLeafData) (List.map_congr_left fun k _ => ?_)
    rw [nodeDigest_update_of_ne newLeafData k (neighbour_ne j k)]
  · obtain ⟨d, hd⟩ := exists_firstDivergingBitPosition hj hidx hne
    have hdh := (firstDivergingBitPosition_spec hd).1
    simp only [updateProof, genuine_idx, hd]
    simp only [genuine, proofOf, Function.update_of_ne hne]
    refine congrArg (SparseMerkleProof.mk j (m j)) (List.ext_getElem (by simp) fun k h₁ h₂ => ?_)
    rw [List.getElem_set]
    have hiff := neighbour_eq_iff_of_diverging (k := k) hj hidx hd
    split_ifs with hdk
    · subst hdk
      simp [hdh, hiff.2 rfl]
    · have hoff : neighbour j k ≠ idx / 2 ^ k := fun heq => hdk (hiff.1 heq).symm
      simp [nodeDigest_update_of_ne newLeafData k hoff]

/-! ## An update -/

/-- **An update keeps genuine proofs genuine**: with the genuine proof of an index it gives
the root of the map with the new leaf, and each genuine proof that it is shown comes back
as the genuine one of the new map, which is valid against the new root. -/
theorem update_genuine (hf : CryptographicHash) {h : ℕ} (hh : h ≤ 127) (m : ℕ → Option LeafData)
    {idx : ℕ} (hidx : idx < 2 ^ h) {newLeafData : Option LeafData}
    {tree tree' : SparseMerkleTree} {proofsToUpdate updatedProofs : List SparseMerkleProof}
    {filterFn : FilterFn} (hheight : tree.height = h)
    (hroot : tree.rootDigest = nodeDigest hf m h 0)
    (hupdate : tree.update hf (genuine hf m idx h) newLeafData proofsToUpdate filterFn
      = some (tree', updatedProofs)) :
    tree'.rootDigest = nodeDigest hf (Function.update m idx newLeafData) h 0
      ∧ tree'.height = h
      ∧ updatedProofs.length = proofsToUpdate.length
      ∧ ∀ n j : ℕ, j < 2 ^ h → proofsToUpdate[n]? = some (genuine hf m j h) →
        updatedProofs[n]? = some (genuine hf (Function.update m idx newLeafData) j h)
          ∧ (genuine hf (Function.update m idx newLeafData) j h).valid hf tree'.rootDigest
              tree'.height = some true := by
  subst hheight
  simp only [SparseMerkleTree.update] at hupdate
  split at hupdate
  · cases hupdate
    have hnew : ((genuine hf m idx tree.height).propagateChanges hf newLeafData).1
        = nodeDigest hf (Function.update m idx newLeafData) tree.height 0 := by
      rw [propagateChanges_genuine hh hidx]
    refine ⟨hnew, rfl, List.length_map _, fun n j hj hn => ⟨?_, ?_⟩⟩
    · rw [List.getElem?_map, hn, Option.map_some, genuine_idx, updateProof_genuine hh hidx hj]
    · rw [hnew]
      exact valid_genuine hh hj
  · cases hupdate

/-- The tree over the leaf 0, with the last proof for the next one. -/
def oneLeafTree : SparseMerkleTree :=
  ⟨nodeDigest lengthFirst oneLeaf 2 0, 2, genuine lengthFirst oneLeaf 1 2⟩

theorem update_genuine_second : ∃ tree' updatedProofs,
    oneLeafTree.update lengthFirst (genuine lengthFirst oneLeaf 1 2) (some [8])
        [genuine lengthFirst oneLeaf 0 2, genuine lengthFirst oneLeaf 3 2] (fun _ _ => true)
      = some (tree', updatedProofs)
    ∧ tree'.rootDigest = nodeDigest lengthFirst (Function.update oneLeaf 1 (some [8])) 2 0
    ∧ tree'.height = 2
    ∧ updatedProofs.length
      = [genuine lengthFirst oneLeaf 0 2, genuine lengthFirst oneLeaf 3 2].length
    ∧ ∀ n j : ℕ, j < 2 ^ 2 →
      [genuine lengthFirst oneLeaf 0 2, genuine lengthFirst oneLeaf 3 2][n]?
        = some (genuine lengthFirst oneLeaf j 2) →
      updatedProofs[n]? = some (genuine lengthFirst (Function.update oneLeaf 1 (some [8])) j 2)
        ∧ (genuine lengthFirst (Function.update oneLeaf 1 (some [8])) j 2).valid lengthFirst
            tree'.rootDigest tree'.height = some true := by
  obtain ⟨⟨tree', updatedProofs⟩, hupdate⟩ := Option.isSome_iff_exists.1
    (by decide : (oneLeafTree.update lengthFirst (genuine lengthFirst oneLeaf 1 2) (some [8])
      [genuine lengthFirst oneLeaf 0 2, genuine lengthFirst oneLeaf 3 2]
      fun _ _ => true).isSome)
  exact ⟨tree', updatedProofs, hupdate,
    update_genuine lengthFirst (by decide) oneLeaf (by decide) rfl rfl hupdate⟩

end Sparkz.Merkle.Sparse
