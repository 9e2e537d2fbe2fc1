import Sparkz.Merkle.SparseMerkleTree

/-!
# Which sparse Merkle proofs are accepted

An absent digest has no bytes, so the message of a node with one child is the digest of
this child, on either side.  An accepted proof follows its index as long as there are two
children; at a node with one child its path goes to this child whatever the index is, or
ends there.

* `next`, `reached` — where the path goes; `OneChild` — where it may end.
* `leaf_of_pathDigest` — what an accepted proof has for its leaf; `exists_levels` — the
  proofs that are accepted.
* `proof_sound_iff` — the maps and indices on which accepted proofs tell the truth.
-/

namespace Sparkz.Merkle.Sparse

open Sparkz.Avl (Digest CryptographicHash)
open SparseMerkleProof (updLevel)

variable {hf : CryptographicHash} {m : ℕ → Option LeafData} {idx : ℕ}

/-! ## The path of an index -/

/-- The child of node `i` of level `k + 1` on the side of the index. -/
def toward (idx k i : ℕ) : ℕ := 2 * i + (idx.testBit k).toNat

/-- The other child. -/
def away (idx k i : ℕ) : ℕ := 2 * i + (!idx.testBit k).toNat

/-- The child that the path goes to: the one on the side of the index, if it is there. -/
def next (m : ℕ → Option LeafData) (idx k i : ℕ) : ℕ :=
  if occupied m k (toward idx k i) then toward idx k i else away idx k i

/-- The leaf that the path from node `i` of level `k` ends at. -/
def reached (m : ℕ → Option LeafData) (idx : ℕ) : ℕ → ℕ → ℕ
  | 0, i => i
  | k + 1, i => reached m idx k (next m idx k i)

/-- Some node on the path has one child only. -/
def OneChild (m : ℕ → Option LeafData) (idx : ℕ) : ℕ → ℕ → Prop
  | 0, _ => False
  | k + 1, i =>
    ¬(occupied m k (toward idx k i) ∧ occupied m k (away idx k i))
      ∨ OneChild m idx k (next m idx k i)

theorem occupied_succ (m : ℕ → Option LeafData) (idx k i : ℕ) :
    occupied m (k + 1) i = (occupied m k (toward idx k i) || occupied m k (away idx k i)) := by
  cases h : idx.testBit k <;> simp [occupied, toward, away, h, Bool.or_comm]

theorem occupied_next {k i : ℕ} (h : occupied m (k + 1) i) : occupied m k (next m idx k i) := by
  rw [occupied_succ m idx, Bool.or_eq_true] at h
  rw [next]
  split_ifs with htoward
  · exact htoward
  · exact h.resolve_left htoward

theorem occupied_reached (k : ℕ) {i : ℕ} (h : occupied m k i) :
    (m (reached m idx k i)).isSome := by
  induction k generalizing i with
  | zero => exact h
  | succ k ih => exact ih (occupied_next h)

theorem occupied_of_reached (k : ℕ) {i : ℕ} (h : (m (reached m idx k i)).isSome) :
    occupied m k i := by
  induction k generalizing i with
  | zero => exact h
  | succ k ih =>
    have hnext := ih h
    rw [next] at hnext
    rw [occupied_succ m idx, Bool.or_eq_true]
    split_ifs at hnext with htoward
    · exact Or.inl htoward
    · exact Or.inr hnext

/-- The message of a node, with its children as the index sees them. -/
theorem updMessage_children (k i : ℕ) :
    updMessage (nodeDigest hf m k (toward idx k i)) (nodeDigest hf m k (away idx k i))
        (idx.testBit k)
      = updMessage (nodeDigest hf m k (2 * i)) (nodeDigest hf m k (2 * i + 1)) false := by
  cases h : idx.testBit k
  · simp [toward, away, h]
  · rw [updMessage_swap]
    simp [toward, away, h]

theorem treeMessages_next (idx k i : ℕ) :
    treeMessages hf m k (next m idx k i) ⊆ treeMessages hf m (k + 1) i := by
  have htoward : treeMessages hf m k (toward idx k i) ⊆ treeMessages hf m (k + 1) i := by
    intro message hmem
    cases h : idx.testBit k <;> simp_all [treeMessages, toward]
  have haway : treeMessages hf m k (away idx k i) ⊆ treeMessages hf m (k + 1) i := by
    intro message hmem
    cases h : idx.testBit k <;> simp_all [treeMessages, away]
  rw [next]
  split_ifs
  · exact htoward
  · exact haway

/-! ## What is accepted -/

/-- A message with the digests of two children fixes both; with the digest of one child,
this digest may have been on either side. -/
theorem eq_child_of_updMessage {A B X Y : Option Digest} {side : Bool}
    (hA : ∀ x ∈ A, x.length = hf.digestSize) (hB : ∀ x ∈ B, x.length = hf.digestSize)
    (hX : ∀ x ∈ X, x.length = hf.digestSize) (hY : ∀ x ∈ Y, x.length = hf.digestSize)
    (hne : X.isSome ∨ Y.isSome) (h : updMessage A B side = updMessage X Y side) :
    A = none ∧ ¬(X.isSome ∧ Y.isSome) ∨ A = if X.isSome then X else Y := by
  have hpos := hf.digestSize_pos
  cases A with
  | none =>
    refine Or.inl ⟨rfl, ?_⟩
    rintro ⟨hX', hY'⟩
    obtain ⟨x, rfl⟩ := Option.isSome_iff_exists.1 hX'
    obtain ⟨y, rfl⟩ := Option.isSome_iff_exists.1 hY'
    have hx := hX x rfl
    have hy := hY y rfl
    cases B with
    | none => simp at h
    | some b =>
      have hlen := congrArg (fun message => (message.getD []).length) h
      have hb := hB b rfl
      cases side <;> simp at hlen <;> omega
  | some a =>
    have ha := hA a rfl
    cases X with
    | none =>
      obtain ⟨y, rfl⟩ := Option.isSome_iff_exists.1 (hne.resolve_left (by simp))
      have hy := hY y rfl
      cases B with
      | none => exact Or.inr (by simpa using h)
      | some b =>
        have hlen := congrArg (fun message => (message.getD []).length) h
        have hb := hB b rfl
        cases side <;> simp at hlen <;> omega
    | some x =>
      have hx := hX x rfl
      cases Y with
      | none =>
        cases B with
        | none => exact Or.inr (by simpa using h)
        | some b =>
          have hlen := congrArg (fun message => (message.getD []).length) h
          have hb := hB b rfl
          cases side <;> simp at hlen <;> omega
      | some y =>
        have hy := hY y rfl
        cases B with
        | none =>
          have hlen := congrArg (fun message => (message.getD []).length) h
          cases side <;> simp at hlen <;> omega
        | some b =>
          have hb := hB b rfl
          cases side with
          | false =>
            have happend : a ++ b = x ++ y := by simpa using h
            exact Or.inr (congrArg some (List.append_inj happend (by omega)).1)
          | true =>
            have happend : b ++ a = y ++ x := by simpa using h
            exact Or.inr (congrArg some (List.append_inj happend (by omega)).2)

/-- **Descent**: a path that has the digest of a node has nothing for its leaf, and ends
at a node with one child, or the leaf that is reached. -/
theorem leaf_of_pathDigest {leaf : Option Digest} {levels : ℕ → Option Digest}
    {M : List (List UInt8)} (hleaf : ∀ x ∈ leaf, x.length = hf.digestSize)
    (hlevels : ∀ j, ∀ x ∈ levels j, x.length = hf.digestSize) (hcf : hf.CollisionFree M)
    (k : ℕ) {i : ℕ} (htree : treeMessages hf m k i ⊆ M)
    (hpath : ∀ j < k, ∀ message ∈ updMessage (pathDigest hf idx leaf levels j)
      (levels j) (idx.testBit j), message ∈ M)
    (hocc : occupied m k i) (h : pathDigest hf idx leaf levels k = nodeDigest hf m k i) :
    leaf = none ∧ OneChild m idx k i ∨ leaf = nodeDigest hf m 0 (reached m idx k i) := by
  induction k generalizing i with
  | zero => exact Or.inr h
  | succ k ih =>
    have hor := hocc
    rw [occupied_succ m idx, Bool.or_eq_true] at hor
    -- the two messages are the same
    have hmessage : updMessage (pathDigest hf idx leaf levels k) (levels k) (idx.testBit k)
        = updMessage (nodeDigest hf m k (toward idx k i)) (nodeDigest hf m k (away idx k i))
          (idx.testBit k) := by
      have hsome := isSome_nodeDigest hf m (k + 1) i
      rw [hocc] at hsome
      rw [updMessage_children]
      rw [pathDigest, nodeDigest, updLevel_eq, updLevel_eq] at h
      rw [nodeDigest, updLevel_eq, Option.isSome_map] at hsome
      obtain ⟨message, hmessage⟩ := Option.isSome_iff_exists.1 hsome
      rw [hmessage] at h ⊢
      obtain ⟨message', hmessage', hhash⟩ := Option.map_eq_some_iff.1 h
      rw [hmessage']
      refine congrArg some (hcf _ (hpath k k.lt_succ_self _ hmessage') _ (htree ?_) hhash)
      rw [treeMessages, hmessage]
      exact List.mem_append_left _ (by simp)
    have hchild := eq_child_of_updMessage (length_of_mem_pathDigest hleaf k) (hlevels k)
      length_of_mem_nodeDigest length_of_mem_nodeDigest
      (by rwa [isSome_nodeDigest, isSome_nodeDigest]) hmessage
    rw [isSome_nodeDigest, isSome_nodeDigest] at hchild
    rcases hchild with ⟨hnone, hone⟩ | hchild
    · exact Or.inl ⟨leaf_eq_none_of_pathDigest k hnone, Or.inl hone⟩
    · have hnext : pathDigest hf idx leaf levels k = nodeDigest hf m k (next m idx k i) := by
        rw [hchild, next]
        split_ifs <;> rfl
      have hsub := List.Subset.trans (treeMessages_next idx k i) htree
      rcases ih hsub (fun j hj => hpath j (hj.trans k.lt_succ_self)) (occupied_next hocc) hnext
        with ⟨hnone, hone⟩ | hleaf
      · exact Or.inl ⟨hnone, Or.inr hone⟩
      · exact Or.inr hleaf

/-- One level more, whose message is that of the node. -/
theorem extend_levels {leaf : Option Digest} (levels : ℕ → Option Digest)
    (sibling : Option Digest) {k i : ℕ} (hlevels : ∀ j, ∀ x ∈ levels j, x.length = hf.digestSize)
    (hsibling : ∀ x ∈ sibling, x.length = hf.digestSize)
    (hmessage : updMessage (pathDigest hf idx leaf levels k) sibling (idx.testBit k)
      = updMessage (nodeDigest hf m k (toward idx k i)) (nodeDigest hf m k (away idx k i))
        (idx.testBit k))
    (hpath : ∀ j < k, ∀ message ∈ updMessage (pathDigest hf idx leaf levels j)
      (levels j) (idx.testBit j), message ∈ treeMessages hf m (k + 1) i) :
    ∃ levels : ℕ → Option Digest, (∀ j, ∀ x ∈ levels j, x.length = hf.digestSize)
      ∧ pathDigest hf idx leaf levels (k + 1) = nodeDigest hf m (k + 1) i
      ∧ ∀ j < k + 1, ∀ message ∈ updMessage (pathDigest hf idx leaf levels j)
        (levels j) (idx.testBit j), message ∈ treeMessages hf m (k + 1) i := by
  have hbelow : ∀ j ≤ k, pathDigest hf idx leaf (Function.update levels k sibling) j
      = pathDigest hf idx leaf levels j :=
    fun j hj => pathDigest_congr j fun i hi => Function.update_of_ne (by omega) _ _
  rw [updMessage_children] at hmessage
  refine ⟨Function.update levels k sibling, fun j x hx => ?_, ?_, fun j hj => ?_⟩
  · rcases eq_or_ne j k with rfl | hjk
    · rw [Function.update_self] at hx
      exact hsibling x hx
    · rw [Function.update_of_ne hjk] at hx
      exact hlevels j x hx
  · rw [pathDigest, hbelow k le_rfl, Function.update_self, nodeDigest, updLevel_eq, updLevel_eq,
      hmessage]
  · rw [hbelow j (Nat.lt_succ_iff.1 hj)]
    rcases Nat.lt_succ_iff_lt_or_eq.1 hj with hj | rfl
    · rw [Function.update_of_ne hj.ne]
      exact hpath j hj
    · rw [Function.update_self, hmessage]
      intro message hmem
      exact List.mem_append_left _ (Option.mem_toList.2 hmem)

/-- **Acceptance**: levels that lead from such a leaf to the digest of a node, hashing
nothing but messages of the tree. -/
theorem exists_levels (hf : CryptographicHash) (leaf : Option Digest) (k : ℕ) {i : ℕ}
    (hocc : occupied m k i)
    (h : leaf = none ∧ OneChild m idx k i ∨ leaf = nodeDigest hf m 0 (reached m idx k i)) :
    ∃ levels : ℕ → Option Digest, (∀ j, ∀ x ∈ levels j, x.length = hf.digestSize)
      ∧ pathDigest hf idx leaf levels k = nodeDigest hf m k i
      ∧ ∀ j < k, ∀ message ∈ updMessage (pathDigest hf idx leaf levels j)
        (levels j) (idx.testBit j), message ∈ treeMessages hf m k i := by
  induction k generalizing i with
  | zero => exact ⟨fun _ => none, by simp, h.resolve_left fun h => h.2, by simp⟩
  | succ k ih =>
    have hor := hocc
    rw [occupied_succ m idx, Bool.or_eq_true] at hor
    have htoward := isSome_nodeDigest hf m k (toward idx k i)
    have haway := isSome_nodeDigest hf m k (away idx k i)
    by_cases hend : leaf = none ∧ ¬(occupied m k (toward idx k i) ∧ occupied m k (away idx k i))
    · -- the only child is given beside an empty path
      obtain ⟨rfl, hone⟩ := hend
      refine extend_levels (fun _ => none) (nodeDigest hf m k (next m idx k i)) (by simp)
        length_of_mem_nodeDigest ?_ fun j hj message hmem => ?_
      · rw [pathDigest_none k fun _ _ => rfl, next]
        cases hX : nodeDigest hf m k (toward idx k i) <;>
          cases hY : nodeDigest hf m k (away idx k i) <;> simp_all
      · rw [pathDigest_none j fun _ _ => rfl] at hmem
        cases hmem
    · have hnext : leaf = none ∧ OneChild m idx k (next m idx k i)
          ∨ leaf = nodeDigest hf m 0 (reached m idx k (next m idx k i)) :=
        h.imp_left fun ⟨hnone, hone⟩ => ⟨hnone, hone.resolve_left fun hone => hend ⟨hnone, hone⟩⟩
      obtain ⟨levels, hlevels, hpath, hmessages⟩ := ih (occupied_next hocc) hnext
      refine extend_levels levels
        (if occupied m k (toward idx k i) then nodeDigest hf m k (away idx k i) else none) hlevels
        ?_ ?_ fun j hj message hmem => treeMessages_next idx k i (hmessages j hj message hmem)
      · split_ifs
        · exact length_of_mem_nodeDigest
        · exact nofun
      · rw [hpath, next]
        cases hX : nodeDigest hf m k (toward idx k i) <;>
          cases hY : nodeDigest hf m k (away idx k i) <;> simp_all

/-! ## Present and absent indices -/

/-- The index of the node beside the path on level `k`. -/
def neighbour (idx k : ℕ) : ℕ := away idx k (idx / 2 ^ (k + 1))

theorem toward_div (idx k : ℕ) : toward idx k (idx / 2 ^ (k + 1)) = idx / 2 ^ k := by
  rw [toward, pow_succ, ← Nat.div_div_eq_div_mul, Nat.testBit_eq_decide_div_mod_eq]
  have := Nat.div_add_mod (idx / 2 ^ k) 2
  rcases Nat.mod_two_eq_zero_or_one (idx / 2 ^ k) with h | h <;> simp [h] <;> omega

theorem occupied_div (k : ℕ) (h : (m idx).isSome) : occupied m k (idx / 2 ^ k) := by
  induction k with
  | zero => simpa [occupied] using h
  | succ k ih => rw [occupied_succ m idx, toward_div, ih, Bool.true_or]

theorem next_div {k : ℕ} (h : (m idx).isSome) :
    next m idx k (idx / 2 ^ (k + 1)) = idx / 2 ^ k := by
  rw [next, toward_div, if_pos (occupied_div _ h)]

/-- The path of an index that is present ends at its leaf. -/
theorem reached_div (k : ℕ) (h : (m idx).isSome) : reached m idx k (idx / 2 ^ k) = idx := by
  induction k with
  | zero => simp [reached]
  | succ k ih => rw [reached, next_div h, ih]

/-- It may end before if a node beside it is empty. -/
theorem oneChild_div (k : ℕ) (h : (m idx).isSome) :
    OneChild m idx k (idx / 2 ^ k) ↔ ∃ j < k, ¬occupied m j (neighbour idx j) := by
  induction k with
  | zero => simp [OneChild]
  | succ k ih =>
    rw [OneChild, next_div h, ih, toward_div, Nat.exists_lt_succ_right, or_comm]
    simp [occupied_div _ h, neighbour]

/-- What makes the accepted proofs for an index tell the truth: if it is present, all nodes
beside its path are there; if it is absent, its bytes do not begin the message of the leaf
that its path reaches. -/
def Unambiguous (m : ℕ → Option LeafData) (h idx : ℕ) : Prop :=
  match m idx with
  | some _ => ∀ k < h, occupied m k (neighbour idx k)
  | none =>
    ∀ data ∈ m (reached m idx h 0),
      ¬toByteArray idx <+: leafMessage (reached m idx h 0) data

theorem leafMessage_mem_treeMessages (k : ℕ) {i : ℕ} {data : LeafData}
    (h : m (reached m idx k i) = some data) :
    leafMessage (reached m idx k i) data ∈ treeMessages hf m k i := by
  induction k generalizing i with
  | zero =>
    rw [reached] at h
    rw [treeMessages, reached, h]
    exact List.mem_singleton_self _
  | succ k ih => exact treeMessages_next idx k i (ih h)

/-- The proof with given levels. -/
def proofOf (idx : ℕ) (leafDataOpt : Option LeafData) (levels : ℕ → Option Digest) (h : ℕ) :
    SparseMerkleProof :=
  ⟨idx, leafDataOpt, (List.range h).map levels⟩

theorem level_proofOf (idx : ℕ) (leafDataOpt : Option LeafData) (levels : ℕ → Option Digest)
    {h k : ℕ} (hk : k < h) : (proofOf idx leafDataOpt levels h).level k = levels k := by
  simp [SparseMerkleProof.level, proofOf, hk]

/-- The leaf data that some proof for the index is accepted with. -/
theorem exists_accepted (hf : CryptographicHash) {h : ℕ} (hh : h ≤ 127)
    {leafDataOpt : Option LeafData}
    (hocc : occupied m h 0)
    (hleaf : leafDataOpt = none ∧ OneChild m idx h 0
      ∨ ∃ data ∈ leafDataOpt, ∃ data' ∈ m (reached m idx h 0),
        leafMessage idx data = leafMessage (reached m idx h 0) data') :
    ∃ proof : SparseMerkleProof, proof.idx = idx ∧ proof.leafDataOpt = leafDataOpt
      ∧ proof.levels.length = h
      ∧ (∀ x, some x ∈ proof.levels → x.length = hf.digestSize)
      ∧ proof.messages hf ⊆ treeMessages hf m h 0
      ∧ proof.valid hf (nodeDigest hf m h 0) h = some true := by
  obtain ⟨levels, hlevels, hpath, hmessages⟩ := exists_levels hf
    (leafDataOpt.map (leafHash hf idx)) h hocc (by
      rcases hleaf with ⟨rfl, hone⟩ | ⟨data, rfl, data', hdata', heq⟩
      · exact Or.inl ⟨rfl, hone⟩
      · refine Or.inr ?_
        rw [nodeDigest, hdata', Option.map_some, Option.map_some, leafHash, leafHash, heq])
  have hcongr : ∀ k ≤ h, pathDigest hf idx (leafDataOpt.map (leafHash hf idx))
      (proofOf idx leafDataOpt levels h).level k
      = pathDigest hf idx (leafDataOpt.map (leafHash hf idx)) levels k :=
    fun k hk => pathDigest_congr k fun i hi => level_proofOf idx leafDataOpt levels (hi.trans_le hk)
  have hlen : (proofOf idx leafDataOpt levels h).levels.length = h := by simp [proofOf]
  refine ⟨proofOf idx leafDataOpt levels h, rfl, rfl, hlen, fun x hx => ?_, ?_, ?_⟩
  · obtain ⟨k, -, hk⟩ := List.mem_map.1 hx
    exact hlevels k x hk
  · rw [SparseMerkleProof.messages, hlen]
    refine List.append_subset.2 ⟨fun message hmem => ?_, fun message hmem => ?_⟩
    · obtain ⟨data, hdata, rfl⟩ := Option.map_eq_some_iff.1 (Option.mem_toList.1 hmem)
      rcases hleaf with ⟨rfl, -⟩ | ⟨data₁, hdata₁, data', hdata', heq⟩
      · cases hdata
      · cases hdata.symm.trans hdata₁
        show leafMessage idx data ∈ _
        rw [heq]
        exact leafMessage_mem_treeMessages h hdata'
    · obtain ⟨k, hk, hmem⟩ := List.mem_flatMap.1 hmem
      rw [List.mem_range] at hk
      refine hmessages k hk message ?_
      have hlevel := level_proofOf idx leafDataOpt levels hk
      rw [← hcongr k hk.le, ← hlevel]
      exact Option.mem_toList.1 hmem
  · rw [valid_eq_true hh hlen]
    exact (hcongr h le_rfl).trans hpath

/-- **Accepted proofs tell the truth** about an index exactly if it is unambiguous. -/
theorem proof_sound_iff (hf : CryptographicHash) {h : ℕ} (hh : h ≤ 127)
    (m : ℕ → Option LeafData) {idx : ℕ} (hidx : idx < 2 ^ h)
    (hcf : hf.CollisionFree (treeMessages hf m h 0)) :
    (∀ proof : SparseMerkleProof, proof.idx = idx → proof.levels.length = h →
      (∀ x, some x ∈ proof.levels → x.length = hf.digestSize) →
      hf.CollisionFree (treeMessages hf m h 0 ++ proof.messages hf) →
      proof.valid hf (nodeDigest hf m h 0) h = some true → proof.leafDataOpt = m idx)
    ↔ Unambiguous m h idx := by
  have hdiv : idx / 2 ^ h = 0 := Nat.div_eq_of_lt hidx
  have hone : (m idx).isSome → _ := oneChild_div h
  have hocc : (m idx).isSome → _ := occupied_div h
  have hreached : (m idx).isSome → _ := reached_div h
  rw [hdiv] at hone hocc hreached
  constructor
  · intro hsound
    have hnot : ∀ {leafDataOpt : Option LeafData}, occupied m h 0 →
        (leafDataOpt = none ∧ OneChild m idx h 0
          ∨ ∃ data ∈ leafDataOpt, ∃ data' ∈ m (reached m idx h 0),
            leafMessage idx data = leafMessage (reached m idx h 0) data') →
        leafDataOpt = m idx := by
      intro leafDataOpt hocc hleaf
      obtain ⟨proof, hproof, rfl, hlen, hsize, hmessages, hvalid⟩ :=
        exists_accepted hf hh hocc hleaf
      exact hsound proof hproof hlen hsize
        (hcf.mono (List.append_subset.2 ⟨List.Subset.refl _, hmessages⟩)) hvalid
    rw [Unambiguous]
    split
    · rename_i data hdata
      intro k hk
      by_contra hempty
      have hsome : (m idx).isSome := by rw [hdata]; rfl
      have := hnot (hocc hsome) (Or.inl ⟨rfl, (hone hsome).2 ⟨k, hk, hempty⟩⟩)
      rw [hdata] at this
      cases this
    · rename_i hdata
      rintro data hmem ⟨rest, hrest⟩
      have hsome : (m (reached m idx h 0)).isSome := by rw [hmem]; rfl
      have := hnot (occupied_of_reached h hsome) (Or.inr ⟨rest, rfl, data, hmem, hrest⟩)
      rw [hdata] at this
      cases this
  · rintro hunamb proof rfl hlen hsize hcf hvalid
    rw [valid_eq_true hh hlen] at hvalid
    have hlevels : ∀ j, ∀ x ∈ proof.level j, x.length = hf.digestSize := by
      intro j x hx
      rw [SparseMerkleProof.level, List.getD_eq_getElem?_getD] at hx
      rcases lt_or_ge j proof.levels.length with hj | hj
      · rw [List.getElem?_eq_getElem hj, Option.getD_some] at hx
        exact hsize x (hx ▸ List.getElem_mem hj)
      · rw [List.getElem?_eq_none hj] at hx
        cases hx
    have hleaf : ∀ x ∈ proof.leafDataOpt.map (leafHash hf proof.idx),
        x.length = hf.digestSize := by
      intro x hx
      obtain ⟨data, -, rfl⟩ := Option.map_eq_some_iff.1 hx
      exact hf.length_hash _
    have hpath : ∀ j < h, ∀ message ∈ updMessage (pathDigest hf proof.idx
          (proof.leafDataOpt.map (leafHash hf proof.idx)) proof.level j) (proof.level j)
          (proof.idx.testBit j), message ∈ treeMessages hf m h 0 ++ proof.messages hf := by
      intro j hj message hmem
      refine List.mem_append_right _ (List.mem_append_right _ ?_)
      rw [hlen]
      exact List.mem_flatMap.2 ⟨j, List.mem_range.2 hj, Option.mem_toList.2 hmem⟩
    by_cases hroot : occupied m h 0
    · rcases leaf_of_pathDigest hleaf hlevels hcf h (List.subset_append_left _ _) hpath hroot
        hvalid with ⟨hnone, hend⟩ | hreach
      · rw [Option.map_eq_none_iff] at hnone
        rw [hnone]
        cases hdata : m proof.idx with
        | none => rfl
        | some data =>
          have hsome : (m proof.idx).isSome := by rw [hdata]; rfl
          obtain ⟨k, hk, hempty⟩ := (hone hsome).1 hend
          rw [Unambiguous, hdata] at hunamb
          exact absurd (hunamb k hk) hempty
      · obtain ⟨data', hdata'⟩ := Option.isSome_iff_exists.1 (occupied_reached h hroot)
        rw [nodeDigest, hdata', Option.map_some] at hreach
        obtain ⟨data, hdata, hhash⟩ := Option.map_eq_some_iff.1 hreach
        have hmessage := hcf _ (List.mem_append_right _ (List.mem_append_left _ (by
          rw [hdata]; exact List.mem_singleton_self _))) _
          (List.mem_append_left _ (leafMessage_mem_treeMessages h hdata')) hhash
        cases hidx' : m proof.idx with
        | none =>
          rw [Unambiguous, hidx'] at hunamb
          exact absurd ⟨data, hmessage⟩ (hunamb data' hdata')
        | some data₁ =>
          rw [hreached (by rw [hidx']; rfl)] at hmessage hdata'
          rw [hdata, ← hidx', hdata', List.append_cancel_left hmessage]
    · have hnone : nodeDigest hf m h 0 = none := by
        have := isSome_nodeDigest hf m h 0
        simpa [hroot] using this
      rw [hnone] at hvalid
      rw [Option.map_eq_none_iff.1 (leaf_eq_none_of_pathDigest h hvalid)]
      cases hdata : m proof.idx with
      | none => rfl
      | some data => exact absurd (hocc (by rw [hdata]; rfl)) hroot

/-- The map with the leaves 0 and 1. -/
def twoLeaves (i : ℕ) : Option LeafData :=
  if i = 0 then some [7] else if i = 1 then some [9] else none

theorem unambiguous_twoLeaves {idx : ℕ} (h : idx < 2) : Unambiguous twoLeaves 1 idx := by
  interval_cases idx
  all_goals
    intro k hk
    obtain rfl : k = 0 := by omega
    decide

/-- No accepted proof says anything else of the two leaves. -/
theorem proof_sound_twoLeaves :
    ¬∃ proof : SparseMerkleProof, proof.idx < 2 ∧ proof.levels.length = 1
      ∧ (∀ x, some x ∈ proof.levels → x.length = lengthFirst.digestSize)
      ∧ lengthFirst.CollisionFree (treeMessages lengthFirst twoLeaves 1 0
        ++ proof.messages lengthFirst)
      ∧ proof.valid lengthFirst (nodeDigest lengthFirst twoLeaves 1 0) 1 = some true
      ∧ proof.leafDataOpt ≠ twoLeaves proof.idx := by
  rintro ⟨proof, hidx, hlen, hsize, hfree, hvalid, hne⟩
  exact hne ((proof_sound_iff lengthFirst (by norm_num) twoLeaves hidx (by decide)).2
    (unambiguous_twoLeaves hidx) proof rfl hlen hsize hfree hvalid)

/-- The map with the leaf 0 only. -/
def oneLeaf (i : ℕ) : Option LeafData := if i = 0 then some [7] else none

/-- The digest of the only leaf as its own neighbour: a proof that the leaf is absent. -/
theorem absence_accepted :
    ¬∀ (hf : CryptographicHash) (h : ℕ) (m : ℕ → Option LeafData) (proof : SparseMerkleProof),
      h ≤ 127 → proof.idx < 2 ^ h → proof.levels.length = h →
      (∀ x, some x ∈ proof.levels → x.length = hf.digestSize) →
      hf.CollisionFree (treeMessages hf m h 0 ++ proof.messages hf) →
      proof.valid hf (nodeDigest hf m h 0) h = some true → proof.leafDataOpt = m proof.idx := by
  intro h
  have habsent := h lengthFirst 1 oneLeaf ⟨0, none, [some [2, 0, 7, 0]]⟩ (by decide) (by decide)
    (by decide) (by simp [lengthFirst]) (by decide) (by decide)
  exact absurd habsent (by decide)

end Sparkz.Merkle.Sparse
