import Sparkz.Lib.GuardedRun
import Sparkz.Merkle.SparseMerkleTree

/-!
# The proof for the next leaf

A sparse Merkle tree keeps one proof up to date without the tree: `lastProof`, for the
leaf that the next append goes to.

* `firstDivergingBitPosition_spec`, `exists_lowest_zero` — where the paths of two
  indices part, and of an index and its successor.
* `increaseCapacity_level` — the proof for the next index, level by level.
* `Usable` — `lastProof` is a valid proof that its leaf is absent; `Agrees` — what an
  update has to meet for it.
* `Usable.update` — such an update keeps it, and `lastProof_usable` — so do all runs of
  such updates.
-/

namespace Sparkz.Merkle.Sparse

open Sparkz.Avl (Digest CryptographicHash)
open Sparkz.Lib (Reaches)
open SparseMerkleProof (updLevel)

namespace SparseMerkleTree

/-! ## Where two indices part -/

/-- The first bit from the top that differs: above it the bits are the same. -/
theorem firstDivergingBitPosition_spec {idx1 idx2 height k : ℕ}
    (h : firstDivergingBitPosition idx1 idx2 height = some k) :
    k < height ∧ idx1.testBit k ≠ idx2.testBit k
      ∧ ∀ j, k < j → j < height → idx1.testBit j = idx2.testBit j := by
  induction height with
  | zero => cases h
  | succ height ih =>
    rw [firstDivergingBitPosition, List.range_succ, List.reverse_append, List.reverse_singleton,
      List.singleton_append, List.find?_cons] at h
    split at h
    · rename_i hdiff
      cases h
      exact ⟨Nat.lt_succ_self _, by simpa using hdiff, fun j hj hjmax => by omega⟩
    · rename_i hsame
      obtain ⟨hk, hdiff, habove⟩ := ih h
      refine ⟨hk.trans (Nat.lt_succ_self _), hdiff, fun j hj hjmax => ?_⟩
      rcases Nat.lt_succ_iff_lt_or_eq.1 hjmax with hlt | rfl
      · exact habove j hj hlt
      · simpa using hsame

/-- An index of the tree has no bits from its height on. -/
theorem testBit_of_le {idx height k : ℕ} (h : idx < 2 ^ height) (hk : height ≤ k) :
    idx.testBit k = false :=
  Nat.testBit_lt_two_pow (h.trans_le (Nat.pow_le_pow_right two_pos hk))

/-- Two indices of the tree that are not the same part somewhere. -/
theorem exists_firstDivergingBitPosition {idx1 idx2 height : ℕ} (h1 : idx1 < 2 ^ height)
    (h2 : idx2 < 2 ^ height) (hne : idx1 ≠ idx2) :
    ∃ k, firstDivergingBitPosition idx1 idx2 height = some k := by
  by_contra hnone
  refine hne (Nat.eq_of_testBit_eq fun j => ?_)
  have hnone : firstDivergingBitPosition idx1 idx2 height = none :=
    Option.eq_none_iff_forall_not_mem.2 fun k hk => hnone ⟨k, hk⟩
  rw [firstDivergingBitPosition, List.find?_eq_none] at hnone
  rcases lt_or_ge j height with hj | hj
  · simpa using hnone j (by simpa using hj)
  · rw [testBit_of_le h1 hj, testBit_of_le h2 hj]

/-- Adding one clears the ones at the end and sets the lowest zero. -/
theorem exists_lowest_zero (idx : ℕ) :
    ∃ k, (∀ j < k, idx.testBit j = true ∧ (idx + 1).testBit j = false)
      ∧ idx.testBit k = false ∧ (idx + 1).testBit k = true
      ∧ ∀ j, k < j → idx.testBit j = (idx + 1).testBit j := by
  induction idx using Nat.strong_induction_on with
  | _ idx ih =>
    have hbits : ∀ n j : ℕ, n.testBit (j + 1) = (n / 2).testBit j := fun n j => by
      rw [Nat.testBit_succ]
    rcases Nat.even_or_odd' idx with ⟨a, rfl | rfl⟩
    · have hhalf : (2 * a + 1) / 2 = 2 * a / 2 := by omega
      refine ⟨0, by simp, by simp, by simp, fun j hj => ?_⟩
      obtain ⟨j, rfl⟩ := Nat.exists_eq_succ_of_ne_zero hj.ne'
      rw [hbits, hbits, hhalf]
    · have hhalf : (2 * a + 1) / 2 = a := by omega
      have hnext : (2 * a + 1 + 1) / 2 = a + 1 := by omega
      obtain ⟨k, hbelow, hzero, hone, habove⟩ := ih a (by omega)
      refine ⟨k + 1, fun j hj => ?_, by rw [hbits, hhalf, hzero], by rw [hbits, hnext, hone],
        fun j hj => ?_⟩
      · cases j with
        | zero => exact ⟨by simp, by simp; omega⟩
        | succ j => rw [hbits, hbits, hhalf, hnext]; exact hbelow j (by omega)
      · obtain ⟨j, rfl⟩ := Nat.exists_eq_succ_of_ne_zero (by omega : j ≠ 0)
        rw [hbits, hbits, hhalf, hnext]
        exact habove j (by omega)

/-! ## The proof for the next index -/

variable {hf : CryptographicHash}

theorem getD_indexToBits {idx height k : ℕ} (h : k < height) :
    (indexToBits idx height).getD k false = idx.testBit k := by
  simp [indexToBits, h]

/-- A step of the fold sets the level of its bit. -/
theorem set_range_map (levels : ℕ → Option Digest) (height n : ℕ) :
    (((List.range height).map fun j => if n + 1 ≤ j then levels j else none).set n (levels n))
      = (List.range height).map fun j => if n ≤ j then levels j else none := by
  refine List.ext_getElem (by simp) fun j h₁ h₂ => ?_
  rw [List.getElem_set, List.getElem_map, List.getElem_map, List.getElem_range]
  rcases eq_or_ne n j with rfl | hne
  · simp
  · have hiff : n + 1 ≤ j ↔ n ≤ j := by omega
    rw [if_neg hne]
    simp only [hiff]

/-- **`increaseCapacity`**: above the lowest zero of the index the levels stay, there the
old path becomes the neighbour, and below nothing is there yet. -/
theorem increaseCapacity_eq (hf : CryptographicHash) {tree : SparseMerkleTree} {k : ℕ}
    (hk : k < tree.height)
    (hbelow : ∀ j < k, tree.lastIndex.testBit j = true ∧ (tree.lastIndex + 1).testBit j = false)
    (hzero : tree.lastIndex.testBit k = false) (hone : (tree.lastIndex + 1).testBit k = true)
    (habove : ∀ j, k < j → tree.lastIndex.testBit j = (tree.lastIndex + 1).testBit j) :
    tree.increaseCapacity hf =
      { idx := tree.lastIndex + 1
        leafDataOpt := tree.lastProof.leafDataOpt
        levels := (List.range tree.height).map fun j =>
          if k < j then tree.lastProof.level j
          else if j = k then (tree.lastProof.propagateChanges hf none).2.getD k none
          else none } := by
  set path := (tree.lastProof.propagateChanges hf none).2 with hpath
  set levels : ℕ → Option Digest := fun j =>
    if k < j then tree.lastProof.level j else if j = k then path.getD k none else none
  set step := capacityStep tree.lastProof.levels path (indexToBits tree.lastIndex tree.height)
    (indexToBits (tree.lastIndex + 1) tree.height) with hstep
  -- the levels from `n` on are done
  have hfold : ∀ n ≤ tree.height, (List.range n).reverse.foldl step
      (decide (n ≤ k), (List.range tree.height).map fun j => if n ≤ j then levels j else none)
      = (true, (List.range tree.height).map levels) := by
    intro n hn
    induction n with
    | zero => simp
    | succ n ih =>
      have hn' : n < tree.height := hn
      rw [List.range_succ, List.reverse_append, List.reverse_singleton, List.singleton_append,
        List.foldl_cons, ← ih (by omega), ← set_range_map levels tree.height n]
      congr 1
      simp only [hstep, capacityStep, getD_indexToBits hn', Prod.mk.injEq]
      rcases lt_trichotomy k n with hlt | rfl | hlt
      · have hsame := habove n hlt
        have hdone : ¬n ≤ k := not_le.2 hlt
        have hdone' : ¬n + 1 ≤ k := fun h => hdone (Nat.le_of_succ_le h)
        simp [hsame, levels, hlt, hdone, hdone', SparseMerkleProof.level]
      · simp [hzero, hone, levels]
      · obtain ⟨hold, hnew⟩ := hbelow n hlt
        have hdone : ¬k < n := not_lt.2 hlt.le
        simp [hold, hnew, levels, hlt.le, hdone, hlt.ne]
  have hall := hfold tree.height le_rfl
  have hstart : ((List.range tree.height).map fun j => if tree.height ≤ j then levels j else none)
      = List.replicate tree.height none := by
    refine List.ext_getElem (by simp) fun j h₁ h₂ => ?_
    have hj : j < tree.height := by simpa using h₂
    simp [hj]
  rw [hstart, decide_eq_false (not_le.2 hk)] at hall
  rw [increaseCapacity, hall]

/-! ## Updates -/

/-- Two paths that meet stay together. -/
theorem pathDigest_eq_of_meet {idx idx' k height : ℕ} {leaf leaf' : Option Digest}
    {levels levels' : ℕ → Option Digest} (hk : k < height)
    (hmeet : pathDigest hf idx leaf levels (k + 1) = pathDigest hf idx' leaf' levels' (k + 1))
    (habove : ∀ j, k < j → j < height →
      idx.testBit j = idx'.testBit j ∧ levels j = levels' j) :
    pathDigest hf idx leaf levels height = pathDigest hf idx' leaf' levels' height := by
  obtain ⟨n, rfl⟩ := Nat.exists_eq_add_of_le (Nat.succ_le_of_lt hk)
  induction n with
  | zero => exact hmeet
  | succ n ih =>
    obtain ⟨hbit, hlevel⟩ := habove (k + 1 + n) (by omega) (by omega)
    rw [← add_assoc, pathDigest, pathDigest, hbit, hlevel,
      ih (by omega) fun j hj hj' => habove j hj (by omega)]

/-- **`updateProof`** on a proof that agrees with the changed one: the changed path becomes
the neighbour where the two part, and the proof is valid against the new root. -/
theorem updateProof_valid (hf : CryptographicHash) {height k : ℕ} {proof : SparseMerkleProof}
    (lp : SparseMerkleProof) (newLeafData : Option LeafData) (hheight : height ≤ 127)
    (hlen : proof.levels.length = height)
    (hlplen : lp.levels.length = height) (hnone : lp.leafDataOpt = none)
    (hk : firstDivergingBitPosition lp.idx proof.idx height = some k)
    (hpart : proof.level k = pathDigest hf lp.idx none lp.level k)
    (habove : ∀ j, k < j → j < height → proof.level j = lp.level j) :
    (updateProof height proof.idx newLeafData (proof.propagateChanges hf newLeafData).2
        lp).leafDataOpt = none
      ∧ (updateProof height proof.idx newLeafData (proof.propagateChanges hf newLeafData).2
        lp).idx = lp.idx
      ∧ (updateProof height proof.idx newLeafData (proof.propagateChanges hf newLeafData).2
        lp).valid hf (proof.propagateChanges hf newLeafData).1 height = some true := by
  obtain ⟨hkh, hdiff, hsame⟩ := firstDivergingBitPosition_spec hk
  rw [propagateChanges_eq (by omega), hlen]
  set path := pathDigest hf proof.idx (newLeafData.map (leafHash hf proof.idx)) proof.level
    with hpath
  have hupdate : updateProof height proof.idx newLeafData ((List.range height).map path) lp
      = ⟨lp.idx, lp.leafDataOpt, lp.levels.set k (path k)⟩ := by
    unfold updateProof
    rw [hk]
    simp [hkh]
  rw [hupdate]
  refine ⟨hnone, rfl, (valid_eq_true hheight (by simpa using hlplen)).2 ?_⟩
  set newLevels := SparseMerkleProof.level ⟨lp.idx, lp.leafDataOpt, lp.levels.set k (path k)⟩
    with hnew
  have hlevel : newLevels k = path k := by simp [hnew, SparseMerkleProof.level, hlplen, hkh]
  have hother : ∀ j ≠ k, newLevels j = lp.level j := by
    intro j hj
    simp [hnew, SparseMerkleProof.level, List.getElem?_set_ne hj.symm]
  rw [hnone, Option.map_none]
  refine pathDigest_eq_of_meet hkh ?_ fun j hj hj' => ⟨hsame j hj hj', ?_⟩
  · -- each of the two paths is beside the other one
    have hbelow : pathDigest hf lp.idx none newLevels k = proof.level k :=
      (pathDigest_congr k fun j hj => hother j hj.ne).trans hpart.symm
    have hbit : lp.idx.testBit k = !proof.idx.testBit k := by
      cases h : proof.idx.testBit k <;> cases h' : lp.idx.testBit k <;> simp_all
    rw [pathDigest, pathDigest, hbelow, hlevel, hbit, updLevel_eq, updLevel_eq,
      updMessage_swap, Bool.not_not]
  · rw [hother j hj.ne', habove j hj hj']

/-- The last proof can be used to append a leaf. -/
structure Usable (hf : CryptographicHash) (tree : SparseMerkleTree) : Prop where
  leafDataOpt_eq : tree.lastProof.leafDataOpt = none
  valid : tree.lastProof.valid hf tree.rootDigest tree.height = some true

/-- The proof of an update agrees with the last proof where their paths meet.  At the last
index, which the update moves, nothing must be behind it. -/
def Agrees (hf : CryptographicHash) (tree : SparseMerkleTree) (proof : SparseMerkleProof) : Prop :=
  if proof.idx = tree.lastIndex then
    ∀ k, firstDivergingBitPosition (tree.lastIndex + 1) proof.idx tree.height = some k →
      proof.level k = none
        ∧ ∀ j, k < j → j < tree.height → proof.level j = tree.lastProof.level j
  else
    ∀ k, firstDivergingBitPosition tree.lastIndex proof.idx tree.height = some k →
      proof.level k = pathDigest hf tree.lastIndex none tree.lastProof.level k
        ∧ ∀ j, k < j → j < tree.height → proof.level j = tree.lastProof.level j

instance (hf : CryptographicHash) (tree : SparseMerkleTree) (proof : SparseMerkleProof) :
    Decidable (Agrees hf tree proof) :=
  inferInstanceAs (Decidable (if proof.idx = tree.lastIndex then
    ∀ k ∈ firstDivergingBitPosition (tree.lastIndex + 1) proof.idx tree.height,
      proof.level k = none
        ∧ ∀ j, k + 1 ≤ j → j < tree.height → proof.level j = tree.lastProof.level j
  else
    ∀ k ∈ firstDivergingBitPosition tree.lastIndex proof.idx tree.height,
      proof.level k = pathDigest hf tree.lastIndex none tree.lastProof.level k
        ∧ ∀ j, k + 1 ≤ j → j < tree.height → proof.level j = tree.lastProof.level j))

theorem update_eq_some {tree tree' : SparseMerkleTree} {proof : SparseMerkleProof}
    {newLeafData : Option LeafData} {proofsToUpdate updatedProofs : List SparseMerkleProof}
    {filterFn : FilterFn}
    (h : tree.update hf proof newLeafData proofsToUpdate filterFn = some (tree', updatedProofs)) :
    proof.levels.length = tree.height ∧ proof.valid hf tree.rootDigest tree.height = some true
      ∧ tree' = ⟨(proof.propagateChanges hf newLeafData).1, tree.height,
        updateProof tree.height proof.idx newLeafData (proof.propagateChanges hf newLeafData).2
          (if proof.idx = tree.lastIndex then tree.increaseCapacity hf else tree.lastProof)⟩ := by
  simp only [update] at h
  split at h
  · rename_i hrequire
    cases h
    exact ⟨hrequire.1, hrequire.2.2.2.2, rfl⟩
  · cases h

theorem length_of_valid {proof : SparseMerkleProof} {root : Option Digest} {height : ℕ}
    (h : proof.valid hf root height = some true) : proof.levels.length = height := by
  by_contra hne
  unfold SparseMerkleProof.valid at h
  rw [if_neg hne] at h
  cases h

/-- **An update that agrees** with the last proof keeps it usable; the last index is moved
by an update of its leaf. -/
theorem Usable.update {tree tree' : SparseMerkleTree} {proof : SparseMerkleProof}
    {newLeafData : Option LeafData} {proofsToUpdate updatedProofs : List SparseMerkleProof}
    {filterFn : FilterFn} (husable : Usable hf tree) (hheight : tree.height ≤ 127)
    (hlast : tree.lastIndex + 1 < 2 ^ tree.height) (hidx : proof.idx < 2 ^ tree.height)
    (hagrees : Agrees hf tree proof)
    (h : tree.update hf proof newLeafData proofsToUpdate filterFn = some (tree', updatedProofs)) :
    Usable hf tree' ∧ tree'.height = tree.height
      ∧ tree'.lastIndex
        = if proof.idx = tree.lastIndex then tree.lastIndex + 1 else tree.lastIndex := by
  obtain ⟨hlen, -, rfl⟩ := update_eq_some h
  rw [Agrees] at hagrees
  by_cases heq : proof.idx = tree.lastIndex
  · -- the last index moves on
    rw [if_pos heq] at hagrees ⊢
    rw [if_pos heq]
    obtain ⟨k, hk⟩ := exists_firstDivergingBitPosition hlast hidx (by omega)
    obtain ⟨hnone, habove⟩ := hagrees k hk
    obtain ⟨hkh, hdiff, hsame⟩ := firstDivergingBitPosition_spec hk
    rw [heq] at hdiff
    obtain ⟨k', hbelow', hzero, hone, habove'⟩ := exists_lowest_zero tree.lastIndex
    have hk'h : k' < tree.height := by
      by_contra hge
      rw [testBit_of_le hlast (not_lt.1 hge)] at hone
      cases hone
    obtain rfl : k = k' := by
      rcases lt_trichotomy k k' with hlt | rfl | hlt
      · exact absurd (hsame k' hlt hk'h) (by rw [hone, heq, hzero]; decide)
      · rfl
      · exact absurd (habove' k hlt).symm hdiff
    have hcapacity := increaseCapacity_eq hf hkh hbelow' hzero hone habove'
    have hlevel : ∀ j < tree.height, j ≠ k → (tree.increaseCapacity hf).level j
        = if k < j then tree.lastProof.level j else none := by
      intro j hj hne
      rw [hcapacity]
      simp [SparseMerkleProof.level, hj, hne]
    obtain ⟨hleaf, hidx', hvalid⟩ := updateProof_valid hf
      (tree.increaseCapacity hf) newLeafData hheight hlen (by rw [hcapacity]; simp)
      (by rw [hcapacity, husable.leafDataOpt_eq])
      (by rw [hcapacity]; exact hk)
      (by
        rw [hnone, pathDigest_none k fun j hj => ?_]
        rw [hlevel j (hj.trans hkh) hj.ne, if_neg (by omega)])
      (fun j hj hj' => by rw [habove j hj hj', hlevel j hj' hj.ne', if_pos hj])
    exact ⟨⟨hleaf, hvalid⟩, rfl, hidx'.trans (by rw [hcapacity])⟩
  · rw [if_neg heq] at hagrees ⊢
    rw [if_neg heq]
    obtain ⟨k, hk⟩ := exists_firstDivergingBitPosition (by omega : tree.lastIndex < _) hidx
      (Ne.symm heq)
    obtain ⟨hpart, habove⟩ := hagrees k hk
    obtain ⟨hleaf, hidx', hvalid⟩ := updateProof_valid hf tree.lastProof newLeafData hheight hlen
      (length_of_valid husable.valid) husable.leafDataOpt_eq hk hpart habove
    exact ⟨⟨hleaf, hvalid⟩, rfl, hidx'⟩

/-! ## Runs -/

/-- The arguments of `update`. -/
structure UpdateCall where
  proof : SparseMerkleProof
  newLeafData : Option LeafData
  proofsToUpdate : List SparseMerkleProof
  filterFn : FilterFn

/-- The tree after a call; a call that fails leaves it as it was. -/
def step (hf : CryptographicHash) (tree : SparseMerkleTree) (call : UpdateCall) :
    SparseMerkleTree :=
  match tree.update hf call.proof call.newLeafData call.proofsToUpdate call.filterFn with
  | some (tree', _) => tree'
  | none => tree

/-- The successful updates of leaves of the tree while the last index is not the last one
of the tree. -/
def Successful (hf : CryptographicHash) (tree : SparseMerkleTree) (call : UpdateCall) : Prop :=
  (tree.update hf call.proof call.newLeafData call.proofsToUpdate call.filterFn).isSome
    ∧ call.proof.idx < 2 ^ tree.height ∧ tree.lastIndex < 2 ^ tree.height - 1

instance (hf : CryptographicHash) (tree : SparseMerkleTree) (call : UpdateCall) :
    Decidable (Successful hf tree call) :=
  inferInstanceAs (Decidable (_ ∧ _ ∧ _))

theorem usable_emptyTree {h : ℕ} (hh : h ≤ 127) : Usable hf (emptyTree h) := by
  refine ⟨rfl, (valid_eq_true hh (by simp [emptyTree, zeroProof])).2 ?_⟩
  refine pathDigest_none h fun j hj => ?_
  simp [SparseMerkleProof.level, emptyTree, zeroProof, hj]

/-- **The last proof is usable** in every state that successful updates lead to, if each of
them agrees with the last proof before it. -/
theorem lastProof_usable (hf : CryptographicHash) {h : ℕ} (hh : h ≤ 127) {tree : SparseMerkleTree}
    (hrun : Reaches (step hf) (fun tree call => Successful hf tree call ∧ Agrees hf tree call.proof)
      (emptyTree h) tree) :
    tree.lastProof.leafDataOpt = none
      ∧ tree.lastProof.valid hf tree.rootDigest tree.height = some true := by
  have hinv : Usable hf tree ∧ tree.height = h := by
    refine hrun.invariant (I := fun tree => Usable hf tree ∧ tree.height = h) ?_
      ⟨usable_emptyTree hh, rfl⟩
    rintro tree call ⟨husable, rfl⟩ ⟨⟨hsome, hidx, hlast⟩, hagrees⟩
    obtain ⟨⟨tree', updatedProofs⟩, hupdate⟩ := Option.isSome_iff_exists.1 hsome
    rw [step, hupdate]
    obtain ⟨husable', hheight, -⟩ := husable.update hh (by omega) hidx hagrees hupdate
    exact ⟨husable', hheight⟩
  exact ⟨hinv.1.leafDataOpt_eq, hinv.1.valid⟩

/-- The append of a first leaf. -/
def firstAppend : UpdateCall := ⟨zeroProof 2, some [8], [], fun _ _ => true⟩

/-- The append of a second leaf, with the last proof. -/
def secondAppend : UpdateCall :=
  ⟨⟨1, none, [some [2, 0, 8, 0], none]⟩, some [9], [], fun _ _ => true⟩

/-- The first leaf gets other data. -/
def updateFirst : UpdateCall :=
  ⟨⟨0, some [8], [some [2, 1, 9, 0], none]⟩, some [6], [], fun _ _ => true⟩

theorem lastProof_usable_threeUpdates :
    let tree := [firstAppend, secondAppend, updateFirst].foldl (step lengthFirst) (emptyTree 2)
    tree.lastIndex = 2 ∧ tree.lastProof.leafDataOpt = none
      ∧ tree.lastProof.valid lengthFirst tree.rootDigest tree.height = some true := by
  intro tree
  have hrun : Reaches (step lengthFirst)
      (fun tree call => Successful lengthFirst tree call ∧ Agrees lengthFirst tree call.proof)
      (emptyTree 2) tree :=
    .step updateFirst (.step secondAppend (.single firstAppend (by decide)) (by decide))
      (by decide)
  exact ⟨rfl, lastProof_usable lengthFirst (by norm_num) hrun⟩

/-- The leaf behind the last index is written first, then the last index. -/
def writeBehind : UpdateCall := ⟨⟨1, none, [none, none]⟩, some [7], [], fun _ _ => true⟩

/-- The append at the last index. -/
def appendBefore : UpdateCall :=
  ⟨⟨0, none, [some [2, 1, 7, 0], none]⟩, some [8], [], fun _ _ => true⟩

/-- Then the proof for the next leaf is not valid. -/
theorem lastProof_not_usable :
    ¬∀ (hf : CryptographicHash) (h : ℕ) (tree : SparseMerkleTree), h ≤ 127 →
      Reaches (step hf) (Successful hf) (emptyTree h) tree →
      tree.lastProof.leafDataOpt = none
        ∧ tree.lastProof.valid hf tree.rootDigest tree.height = some true := by
  intro h
  have hrun : Reaches (step lengthFirst) (Successful lengthFirst) (emptyTree 2)
      (step lengthFirst (step lengthFirst (emptyTree 2) writeBehind) appendBefore) :=
    .step appendBefore (.single writeBehind (by decide)) (by decide)
  exact absurd (h lengthFirst 2 _ (by norm_num) hrun).2 (by decide)

end SparseMerkleTree

end Sparkz.Merkle.Sparse
