import Sparkz.Merkle.ProofByIndex
import Sparkz.Merkle.BatchMerkleProof

/-!
# Completeness of batch proofs

`MerkleTree.proofByIndices` collects, level by level, the hashes of the neighbours that are
not computed from the given leaves.

* `proofByIndices` — the source, with its `multiproof`.
* `pairs_induction` — induction on sorted indices: two that are a pair, or one without its
  neighbour.
* `runSteps_siblings` — a round uses up the hashes that the same level has added, and gives
  the hashes of the next level.
* `loop_multiproof` — the verifier comes to the hash of the top node.
* `proofByIndices_complete` — the proof is valid, and is about each index once.
-/

namespace Sparkz.Merkle

open Sparkz.Avl (Digest CryptographicHash)
open MerkleProof (leftSide rightSide)
open BatchMerkleProof (pairOf steps runSteps nextIndices)

/-! ## The source -/

/-- `l.lift(i).getOrElse(EmptyNode.hash)`. -/
def hashAt (l : List Digest) (i : ℤ) : Digest := if 0 ≤ i then l.getD i.toNat [] else []

section

variable (hf : CryptographicHash)

/-- `l_new`: the hashes one layer up. -/
def nextLayer : List Digest → List Digest
  | left :: right :: l => hf.prefixedHash internalNodePrefix (left ++ right) :: nextLayer l
  | [left] => [hf.prefixedHash internalNodePrefix (left ++ [])]
  | [] => []

theorem length_nextLayer (l : List Digest) : (nextLayer hf l).length = (l.length + 1) / 2 := by
  fun_induction nextLayer hf l with
  | case1 left right l ih => simp [ih]; omega
  | case2 left => simp
  | case3 => simp

/-- `dif`: the neighbours that are not among the indices. -/
def dif (a : List ℤ) : List ℤ :=
  ((a.map pairOf).eraseDups.flatMap fun p => [p.1, p.2]).diff a

/-- The hash of a neighbour and its side. -/
def levelAt (l : List Digest) (i : ℤ) : Digest × Side :=
  (hashAt l i, if i % 2 = 0 then leftSide else rightSide)

/-- `loop(a, l)` in `proofByIndices`. -/
def multiproof (a : List ℤ) (l : List Digest) : List (Digest × Side) :=
  let m := (dif a).map (levelAt l)
  let l_new := nextLayer hf l
  if 1 < l_new.length then m ++ multiproof (nextIndices a) l_new else m
  termination_by l.length
  decreasing_by
    rename_i hlen
    have hnew := length_nextLayer hf l
    simp only [l_new] at hlen ⊢
    omega

/-- The keys of `elementsHashIndex` by their indices: of equal hashes the last one counts. -/
def hashes (payload : List LeafData) : List Digest :=
  (payload.map fun d => (Node.leaf d).hash hf).dedup

/-- `indices.distinct.sorted`. -/
def normalizedIndices (indices : List ℤ) : List ℤ := indices.eraseDups.insertionSort (· ≤ ·)

/-- `MerkleTree(payload).proofByIndices(indices)`; the indices are in range where the hashes
are read. -/
def proofByIndices (payload : List LeafData) (indices : List ℤ) : Option BatchMerkleProof :=
  if indices ≠ [] ∧ ∀ index ∈ indices, index ≥ 0 ∧ index < length hf payload then
    let normalized := normalizedIndices indices
    some ⟨normalized.zip (normalized.map (hashAt (hashes hf payload))),
      multiproof hf normalized (hashes hf payload)⟩
  else none

end

/-! ## Layers -/

section

variable {hf : CryptographicHash} {l : List Digest} {a : List ℤ}

/-- The hashes of the nodes one level up. -/
theorem map_hash_nextNodes (nodes : List Node) :
    (nextNodes nodes).map (Node.hash hf) = nextLayer hf (nodes.map (Node.hash hf)) := by
  fun_induction nextNodes nodes with
  | case1 left right nodes ih => simp [nextLayer, Node.hash, ih]
  | case2 left => simp [nextLayer, Node.hash]
  | case3 => simp [nextLayer]

theorem getD_nextLayer {k : ℕ} (hk : 2 * k < l.length) :
    (nextLayer hf l).getD k []
      = hf.prefixedHash internalNodePrefix (l.getD (2 * k) [] ++ l.getD (2 * k + 1) []) := by
  fun_induction nextLayer hf l generalizing k with
  | case1 left right l ih =>
    cases k with
    | zero => simp
    | succ k =>
      have hk' : 2 * k < l.length := by
        simp only [List.length_cons] at hk
        omega
      simp only [List.getD_cons_succ, Nat.mul_succ]
      exact ih hk'
  | case2 left =>
    have hzero : k = 0 := by
      simp only [List.length_singleton] at hk
      omega
    simp [hzero]
  | case3 => simp at hk

/-- The hash of a parent. -/
theorem hashAt_nextLayer {i : ℤ} (hi : 0 ≤ i) (hlt : i < l.length) :
    hashAt (nextLayer hf l) (i / 2)
      = hf.prefixedHash internalNodePrefix (hashAt l (pairOf i).1 ++ hashAt l (pairOf i).2) := by
  obtain ⟨k, rfl⟩ := Int.eq_ofNat_of_zero_le hi
  have hparent : ((k : ℤ) / 2).toNat = k / 2 := by omega
  have hleft : (pairOf k).1 = ((2 * (k / 2) : ℕ) : ℤ) := by
    unfold pairOf
    split <;> simp only <;> omega
  have hright : (pairOf k).2 = ((2 * (k / 2) + 1 : ℕ) : ℤ) := by
    unfold pairOf
    split <;> simp only <;> omega
  simp only [hashAt, hleft, hright, hparent, Int.toNat_natCast]
  rw [if_pos (by omega), if_pos (by omega), if_pos (by omega)]
  exact getD_nextLayer (by omega)

/-! ## Sorted indices -/

/-- Sorted indices start with a pair, or with one that lacks its neighbour. -/
theorem pairs_induction {motive : List ℤ → Prop} (nil : motive [])
    (pair : ∀ i a, i % 2 = 0 → (∀ j ∈ a, i + 1 < j) → motive a → motive (i :: (i + 1) :: a))
    (single : ∀ i a, (∀ j ∈ a, (pairOf i).2 < j) → motive a → motive (i :: a))
    {a : List ℤ} (ha : a.Pairwise (· < ·)) : motive a := by
  induction hn : a.length using Nat.strong_induction_on generalizing a with
  | _ n ih =>
    subst hn
    cases a with
    | nil => exact nil
    | cons i a =>
      obtain ⟨hi, ha⟩ := List.pairwise_cons.1 ha
      have hrest : motive a := ih _ (by simp) ha rfl
      by_cases hnext : i % 2 = 0 ∧ i + 1 ∈ a
      · -- the neighbour comes next
        obtain ⟨heven, hmem⟩ := hnext
        cases a with
        | nil => simp at hmem
        | cons j a =>
          obtain ⟨hj, htail⟩ := List.pairwise_cons.1 ha
          have hij : i < j := hi j (by simp)
          have hle : j ≤ i + 1 := by
            rcases List.mem_cons.1 hmem with h | h
            · omega
            · have := hj _ h
              omega
          obtain rfl : j = i + 1 := by omega
          exact pair i a heven hj (ih _ (by simp) htail rfl)
      · refine single i a (fun j hj => ?_) hrest
        have hij := hi j hj
        unfold pairOf
        split
        · rename_i heven
          have hne : j ≠ i + 1 := by
            rintro rfl
            exact hnext ⟨heven, hj⟩
          simp only
          omega
        · simpa using hij

theorem pairOf_lt {i : ℤ} : (pairOf i).1 ≤ i ∧ i ≤ (pairOf i).2 := by
  unfold pairOf
  split <;> simp only <;> omega

theorem pairOf_eq_iff {i j : ℤ} : pairOf i = pairOf j ↔ i / 2 = j / 2 := by
  unfold pairOf
  split <;> split <;> simp only [Prod.mk.injEq] <;> omega

/-- A pair that is left of the others. -/
theorem pairOf_notMem {i : ℤ} (h : ∀ j ∈ a, (pairOf i).2 < j) : pairOf i ∉ a.map pairOf := by
  intro hmem
  obtain ⟨j, hj, heq⟩ := List.mem_map.1 hmem
  have hlt := h j hj
  have hle : j ≤ (pairOf j).2 := pairOf_lt.2
  rw [pairOf_eq_iff] at heq
  unfold pairOf at hlt hle
  split at hlt <;> split at hle <;> simp only at hlt hle <;> omega

theorem eraseDups_cons_of_notMem {α : Type} [BEq α] [LawfulBEq α] {x : α} {xs : List α}
    (h : x ∉ xs) : (x :: xs).eraseDups = x :: xs.eraseDups := by
  rw [List.eraseDups_cons]
  congr 2
  rw [List.filter_eq_self]
  intro y hy
  have hne : y ≠ x := by
    rintro rfl
    exact h hy
  simpa using hne

/-- The other index of the pair. -/
def neighbour (i : ℤ) : ℤ := if i % 2 = 0 then i + 1 else i - 1

theorem pairOf_succ {i : ℤ} (h : i % 2 = 0) : pairOf (i + 1) = pairOf i := by
  rw [pairOf_eq_iff]
  omega

theorem eraseDups_pair {i : ℤ} (heven : i % 2 = 0) (h : ∀ j ∈ a, i + 1 < j) :
    ((i :: (i + 1) :: a).map pairOf).eraseDups = pairOf i :: (a.map pairOf).eraseDups := by
  have hnot : pairOf i ∉ a.map pairOf := pairOf_notMem fun j hj => by
    have := h j hj
    simpa [pairOf, heven] using this
  have hrest : (a.map pairOf).filter (fun p => !p == pairOf i) = a.map pairOf := by
    rw [List.filter_eq_self]
    intro p hp
    have hne : p ≠ pairOf i := by
      rintro rfl
      exact hnot hp
    simpa using hne
  rw [List.map_cons, List.map_cons, pairOf_succ heven, List.eraseDups_cons]
  simp [hrest]

theorem eraseDups_single {i : ℤ} (h : ∀ j ∈ a, (pairOf i).2 < j) :
    ((i :: a).map pairOf).eraseDups = pairOf i :: (a.map pairOf).eraseDups := by
  rw [List.map_cons, eraseDups_cons_of_notMem (pairOf_notMem h)]

theorem nextIndices_pair {i : ℤ} (heven : i % 2 = 0) (h : ∀ j ∈ a, i + 1 < j) :
    nextIndices (i :: (i + 1) :: a) = i / 2 :: nextIndices a := by
  rw [nextIndices, eraseDups_pair heven h, List.map_cons, BatchMerkleProof.pairOf_fst_div]
  rfl

theorem nextIndices_single {i : ℤ} (h : ∀ j ∈ a, (pairOf i).2 < j) :
    nextIndices (i :: a) = i / 2 :: nextIndices a := by
  rw [nextIndices, eraseDups_single h, List.map_cons, BatchMerkleProof.pairOf_fst_div]
  rfl

theorem dif_pair {i : ℤ} (heven : i % 2 = 0) (h : ∀ j ∈ a, i + 1 < j) :
    dif (i :: (i + 1) :: a) = dif a := by
  rw [dif, eraseDups_pair heven h]
  simp [dif, pairOf, heven]

theorem dif_single {i : ℤ} (h : ∀ j ∈ a, (pairOf i).2 < j) :
    dif (i :: a) = neighbour i :: dif a := by
  have hnot : neighbour i ∉ a := by
    intro hmem
    have hlt := h _ hmem
    unfold neighbour pairOf at hlt
    split at hlt <;> simp only at hlt <;> omega
  rw [dif, eraseDups_single h, List.flatMap_cons, List.diff_cons]
  unfold neighbour at hnot ⊢
  by_cases heven : i % 2 = 0
  · simp only [pairOf, heven, if_true] at hnot ⊢
    simp [List.cons_diff_of_not_mem hnot, dif]
  · simp only [pairOf, heven, if_false] at hnot ⊢
    simp [List.cons_diff_of_not_mem hnot, dif]

theorem steps_pair {i : ℤ} (heven : i % 2 = 0) :
    steps ((i :: (i + 1) :: a).map pairOf) = true :: steps (a.map pairOf) := by
  rw [List.map_cons, List.map_cons, pairOf_succ heven, steps, if_pos rfl]

theorem steps_single {i : ℤ} (h : ∀ j ∈ a, (pairOf i).2 < j) :
    steps ((i :: a).map pairOf) = false :: steps (a.map pairOf) := by
  have hnot := pairOf_notMem h
  rw [List.map_cons]
  cases hb : a.map pairOf with
  | nil => rfl
  | cons q b =>
    have hne : pairOf i ≠ q := by
      rintro rfl
      simp [hb] at hnot
    rw [steps, if_neg hne]

/-! ## The verifier follows -/

/-- The indices of a layer. -/
def InLayer (l : List Digest) (a : List ℤ) : Prop := ∀ i ∈ a, 0 ≤ i ∧ i < l.length

/-- The entries of the verifier. -/
def entries (l : List Digest) (a : List ℤ) : List (ℤ × Digest) := a.map fun i => (i, hashAt l i)

variable (hf) in
/-- **A round** uses up the hashes that its level has added to the proof, and gives the
hashes of the next layer. -/
theorem runSteps_siblings (ha : a.Pairwise (· < ·)) (hl : InLayer l a)
    (m : List (Digest × Side)) :
    ∃ messages, runSteps (steps (a.map pairOf)) (entries l a) ((dif a).map (levelAt l) ++ m)
        = .ok (messages, m)
      ∧ messages.map hf.hash = (nextIndices a).map (hashAt (nextLayer hf l)) := by
  revert hl
  refine pairs_induction (motive := fun a => InLayer l a → ∃ messages,
    runSteps (steps (a.map pairOf)) (entries l a) ((dif a).map (levelAt l) ++ m)
        = .ok (messages, m)
      ∧ messages.map hf.hash = (nextIndices a).map (hashAt (nextLayer hf l))) ?_ ?_ ?_ ha
  · exact fun _ => ⟨[], rfl, rfl⟩
  · intro i a heven h ih hl
    obtain ⟨messages, hrun, hmap⟩ := ih fun j hj => hl j (by simp [hj])
    obtain ⟨hpos, hlt⟩ := hl i (by simp)
    refine ⟨(internalNodePrefix :: (hashAt l i ++ hashAt l (i + 1))) :: messages, ?_, ?_⟩
    · rw [steps_pair heven, dif_pair heven h]
      simp only [entries, List.map_cons, runSteps] at hrun ⊢
      rw [hrun]
      rfl
    · rw [nextIndices_pair heven h, List.map_cons, List.map_cons, hmap,
        hashAt_nextLayer hpos hlt]
      simp [pairOf, heven, CryptographicHash.prefixedHash]
  · intro i a h ih hl
    obtain ⟨messages, hrun, hmap⟩ := ih fun j hj => hl j (by simp [hj])
    obtain ⟨hpos, hlt⟩ := hl i (by simp)
    refine ⟨(internalNodePrefix :: (hashAt l (pairOf i).1 ++ hashAt l (pairOf i).2)) :: messages,
      ?_, ?_⟩
    · rw [steps_single h, dif_single h]
      simp only [entries, List.map_cons, List.cons_append, levelAt, runSteps] at hrun ⊢
      rw [hrun]
      unfold neighbour pairOf
      by_cases heven : i % 2 = 0
      · have hodd : ¬(i + 1) % 2 = 0 := by omega
        simp [heven, hodd, leftSide, MerkleProof.rightSide, Except.map]
      · have hprev : (i - 1) % 2 = 0 := by omega
        simp [heven, hprev, leftSide, Except.map]
    · rw [nextIndices_single h, List.map_cons, List.map_cons, hmap, hashAt_nextLayer hpos hlt]
      rfl

theorem nextIndices_pairwise (ha : a.Pairwise (· < ·)) : (nextIndices a).Pairwise (· < ·) := by
  refine pairs_induction (motive := fun a => (nextIndices a).Pairwise (· < ·)) ?_ ?_ ?_ ha
  · simp [nextIndices]
  · intro i a heven h ih
    rw [nextIndices_pair heven h, List.pairwise_cons]
    refine ⟨fun j hj => ?_, ih⟩
    obtain ⟨k, hk, rfl⟩ := BatchMerkleProof.mem_nextIndices.1 hj
    have := h k hk
    omega
  · intro i a h ih
    rw [nextIndices_single h, List.pairwise_cons]
    refine ⟨fun j hj => ?_, ih⟩
    obtain ⟨k, hk, rfl⟩ := BatchMerkleProof.mem_nextIndices.1 hj
    have hlt := h k hk
    unfold pairOf at hlt
    split at hlt <;> simp only at hlt <;> omega

theorem inLayer_nextIndices (hf : CryptographicHash) (hl : InLayer l a) :
    InLayer (nextLayer hf l) (nextIndices a) := by
  intro j hj
  obtain ⟨i, hi, rfl⟩ := BatchMerkleProof.mem_nextIndices.1 hj
  obtain ⟨hpos, hlt⟩ := hl i hi
  rw [length_nextLayer]
  omega

/-- A round takes an index or a hash for each child. -/
theorem length_dif (ha : a.Pairwise (· < ·)) :
    a.length + (dif a).length = 2 * (nextIndices a).length := by
  refine pairs_induction
    (motive := fun a => a.length + (dif a).length = 2 * (nextIndices a).length) ?_ ?_ ?_ ha
  · simp [nextIndices, dif]
  · intro i a heven h ih
    simp only [nextIndices_pair heven h, dif_pair heven h, List.length_cons]
    omega
  · intro i a h ih
    simp only [nextIndices_single h, dif_single h, List.length_cons]
    omega

/-- Below the top there are hashes to come when one index is left. -/
theorem multiproof_ne_nil (hf : CryptographicHash) (ha : a.length = 1) :
    multiproof hf a l ≠ [] := by
  obtain ⟨i, rfl⟩ := List.length_eq_one_iff.1 ha
  have hdif : dif [i] = [neighbour i] := by
    rw [dif_single (by simp)]
    simp [dif]
  rw [multiproof, hdif]
  split <;> simp

theorem zip_hashAt (a : List ℤ) (l : List Digest) : a.zip (a.map (hashAt l)) = entries l a := by
  induction a with
  | nil => rfl
  | cons i a ih => simp [entries, ih]

/-- **The verifier comes to the top node.** -/
theorem loop_multiproof {nodes : List Node} (hne : nodes ≠ []) (ha : a.Pairwise (· < ·))
    (ha0 : a ≠ []) (hl : InLayer (nodes.map (Node.hash hf)) a) {fuel : ℕ}
    (hfuel : a.length + (multiproof hf a (nodes.map (Node.hash hf))).length < fuel) :
    ∃ log, BatchMerkleProof.loop hf fuel a (entries (nodes.map (Node.hash hf)) a)
      (multiproof hf a (nodes.map (Node.hash hf))) = .ok ([(calcTopNode nodes).hash hf], log) := by
  fun_induction calcTopNode nodes generalizing a fuel with
  | case1 nodes hempty => exact absurd (List.isEmpty_iff.1 hempty) hne
  | case2 nodes hempty hlen =>
    obtain ⟨top, htop⟩ := List.length_eq_one_iff.1 hlen
    have hlayer : nextLayer hf (nodes.map (Node.hash hf)) = [top.hash hf] := by
      rw [← map_hash_nextNodes, htop]
      rfl
    have hin := inLayer_nextIndices hf hl
    have hmulti : multiproof hf a (nodes.map (Node.hash hf))
        = (dif a).map (levelAt (nodes.map (Node.hash hf))) ++ [] := by
      rw [multiproof, hlayer, List.append_nil]
      simp
    -- the only index of the top layer
    have hone : nextIndices a = [0] := by
      rw [hlayer] at hin
      have hzero : ∀ j ∈ nextIndices a, j = 0 := by
        intro j hj
        have := hin j hj
        simp only [List.length_singleton, Nat.cast_one] at this
        omega
      obtain ⟨j, rest, hnext⟩ :=
        List.exists_cons_of_ne_nil (BatchMerkleProof.nextIndices_ne_nil ha0)
      have hsorted := nextIndices_pairwise ha
      rw [hnext] at hzero hsorted ⊢
      cases rest with
      | nil => rw [hzero j (by simp)]
      | cons k rest =>
        have hlt := (List.pairwise_cons.1 hsorted).1 k (by simp)
        rw [hzero j (by simp), hzero k (by simp)] at hlt
        exact absurd hlt (lt_irrefl _)
    obtain ⟨messages, hrun, hmap⟩ := runSteps_siblings hf ha hl []
    rw [hone, hlayer] at hmap
    have hcount : messages.length = 1 := by simpa using congrArg List.length hmap
    obtain ⟨fuel, rfl⟩ := Nat.exists_eq_succ_of_ne_zero (by omega : fuel ≠ 0)
    refine ⟨messages, BatchMerkleProof.loop_succ_eq_ok.2 ⟨by simp [entries], messages, [], ?_, ?_⟩⟩
    · rw [hmulti]
      exact hrun
    · refine .inl ⟨rfl, hcount.le, ?_, rfl⟩
      rw [hmap, htop]
      rfl
  | case3 nodes hempty hlen ih =>
    have hpos := List.length_pos_iff.2 hne
    have hlength := length_nextNodes nodes
    have hnext : nextNodes nodes ≠ [] := by
      rw [← List.length_pos_iff]
      omega
    have hmulti : multiproof hf a (nodes.map (Node.hash hf))
        = (dif a).map (levelAt (nodes.map (Node.hash hf)))
          ++ multiproof hf (nextIndices a) ((nextNodes nodes).map (Node.hash hf)) := by
      rw [multiproof, ← map_hash_nextNodes]
      simp only [List.length_map]
      rw [if_pos (by omega)]
    have hin := inLayer_nextIndices hf hl
    rw [← map_hash_nextNodes] at hin
    obtain ⟨messages, hrun, hmap⟩ := runSteps_siblings hf ha hl
      (multiproof hf (nextIndices a) ((nextNodes nodes).map (Node.hash hf)))
    rw [← map_hash_nextNodes] at hmap
    have hcount : messages.length = (nextIndices a).length := by
      simpa using congrArg List.length hmap
    have hround := length_dif ha
    have hsome := List.length_pos_iff.2 (BatchMerkleProof.nextIndices_ne_nil ha0)
    obtain ⟨fuel, rfl⟩ := Nat.exists_eq_succ_of_ne_zero (by omega : fuel ≠ 0)
    rw [hmulti, List.length_append, List.length_map] at hfuel
    have hfuel' : (nextIndices a).length
        + (multiproof hf (nextIndices a) ((nextNodes nodes).map (Node.hash hf))).length < fuel := by
      omega
    obtain ⟨log, hloop⟩ :=
      ih hnext (nextIndices_pairwise ha) (BatchMerkleProof.nextIndices_ne_nil ha0) hin hfuel'
    refine ⟨messages ++ log, BatchMerkleProof.loop_succ_eq_ok.2
      ⟨by simp [entries], messages, _, by rw [hmulti]; exact hrun, .inr ⟨?_, log, ?_, rfl⟩⟩⟩
    · by_cases hone : (nextIndices a).length = 1
      · exact .inl (multiproof_ne_nil hf hone)
      · exact .inr (by omega)
    · rw [hmap, zip_hashAt]
      exact hloop

/-! ## Completeness -/

theorem normalizedIndices_spec {indices : List ℤ} :
    (normalizedIndices indices).Pairwise (· < ·)
      ∧ ∀ i, i ∈ normalizedIndices indices ↔ i ∈ indices := by
  have hperm : (normalizedIndices indices).Perm indices.eraseDups :=
    List.perm_insertionSort _ _
  have hsorted : (normalizedIndices indices).Pairwise (· ≤ ·) :=
    List.pairwise_insertionSort _ _
  have hnodup : (normalizedIndices indices).Nodup :=
    hperm.nodup_iff.2 (BatchMerkleProof.nodup_eraseDups indices)
  refine ⟨?_, fun i => by rw [hperm.mem_iff, List.mem_eraseDups]⟩
  exact (hsorted.and hnodup).imp fun h => lt_of_le_of_ne h.1 h.2

/-- **Completeness.**  For distinct leaf hashes and indices in range there is a proof; it has
each of the indices once, with the hash of its leaf, and it is valid. -/
theorem proofByIndices_complete (hf : CryptographicHash) {payload : List LeafData}
    (hne : payload ≠ []) (hdistinct : (payload.map fun d => (Node.leaf d).hash hf).Nodup)
    {indices : List ℤ} (hindices : indices ≠ [])
    (hrange : ∀ i ∈ indices, 0 ≤ i ∧ i < payload.length) :
    ∃ p, proofByIndices hf payload indices = some p
      ∧ (p.indices.map Prod.fst).Nodup
      ∧ (∀ i, i ∈ p.indices.map Prod.fst ↔ i ∈ indices)
      ∧ (∀ x ∈ p.indices, ∃ d, payload[x.1.toNat]? = some d ∧ x.2 = (Node.leaf d).hash hf)
      ∧ p.valid hf (rootHash hf payload) = .ok true := by
  set l := (payload.map Node.leaf).map (Node.hash hf) with hl
  have hhashes : hashes hf payload = l := by
    rw [hashes, hdistinct.dedup, hl, List.map_map]
    rfl
  have hlength : length hf payload = payload.length := by
    show (hashes hf payload).length = _
    rw [hhashes]
    simp [hl]
  obtain ⟨hsorted, hmem⟩ := @normalizedIndices_spec indices
  have hfst : (entries l (normalizedIndices indices)).map Prod.fst = normalizedIndices indices := by
    simp [entries, Function.comp_def]
  refine ⟨⟨entries l (normalizedIndices indices), multiproof hf (normalizedIndices indices) l⟩,
    ?_, ?_, ?_, ?_, ?_⟩
  · rw [proofByIndices, if_pos ⟨hindices, fun i hi => by rw [hlength]; exact hrange i hi⟩]
    simp only [hhashes, zip_hashAt]
  · rw [hfst]
    exact hsorted.imp fun h => ne_of_lt h
  · intro i
    rw [hfst, hmem]
  · intro x hx
    obtain ⟨i, hi, rfl⟩ := List.mem_map.1 hx
    obtain ⟨hpos, hlt⟩ := hrange i ((hmem i).1 hi)
    have hin : i.toNat < payload.length := by omega
    refine ⟨payload[i.toNat], List.getElem?_eq_getElem hin, ?_⟩
    simp [hashAt, hpos, hl, hin]
  · have hinLayer : InLayer l (normalizedIndices indices) := by
      intro i hi
      have := hrange i ((hmem i).1 hi)
      simpa [hl] using this
    have hnonempty : normalizedIndices indices ≠ [] := by
      obtain ⟨i, rest, rfl⟩ := List.exists_cons_of_ne_nil hindices
      exact List.ne_nil_of_mem ((hmem i).2 (by simp))
    have hsort : (entries l (normalizedIndices indices)).insertionSort (fun x y => x.1 ≤ y.1)
        = entries l (normalizedIndices indices) := by
      apply List.Pairwise.insertionSort_eq
      rw [entries, List.pairwise_map]
      exact hsorted.imp le_of_lt
    have hleaves : payload.map Node.leaf ≠ [] := by simpa using hne
    obtain ⟨log, hloop⟩ := loop_multiproof hleaves hsorted hnonempty hinLayer (Nat.lt_succ_self _)
    refine BatchMerkleProof.valid_eq_true.2 ⟨log, ?_⟩
    rw [BatchMerkleProof.check, BatchMerkleProof.sorted, hsort, hfst, rootHash, topNode]
    rw [← hl] at hloop
    have hcount : (entries l (normalizedIndices indices)).length
        = (normalizedIndices indices).length := by simp [entries]
    rw [hcount]
    exact hloop

/-- Three of the elements, one of them asked for twice. -/
theorem proofByIndices_complete_three :
    ∃ p, proofByIndices MerkleProof.firstFour [[5], [6], [7]] [2, 0, 2] = some p
      ∧ (p.indices.map Prod.fst).Nodup
      ∧ (∀ i, i ∈ p.indices.map Prod.fst ↔ i ∈ [2, 0, 2])
      ∧ (∀ x ∈ p.indices, ∃ d, [[5], [6], [7]][x.1.toNat]? = some d
          ∧ x.2 = (Node.leaf d).hash MerkleProof.firstFour)
      ∧ p.valid MerkleProof.firstFour (rootHash MerkleProof.firstFour [[5], [6], [7]]) = .ok true :=
  proofByIndices_complete MerkleProof.firstFour (by decide) (by decide) (by decide) (by decide)

end

end Sparkz.Merkle
