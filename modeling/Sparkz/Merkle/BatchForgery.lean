import Sparkz.Merkle.BatchMerkleProof

/-!
# Forged batch Merkle proofs

Where a round of the verifier drops digests, whatever was hashed into them is accepted.

* `honest`, `spine` — the hashes of a tree whose leaves are all equal, and of the same
  tree with another last leaf.
* `Reaches` — a proof takes the loop from such digests to the hash of the honest tree;
  `Reaches.round` goes one round back, over a round that drops the last digest or keeps
  it.
* `counting` — a hash without collisions on these messages.
* `exists_forgery` — a list of indices with a round that drops a digest has an accepted
  proof with a leaf hash of other data.
* `valid_sound_iff` — accepted leaf hashes are genuine exactly on the other lists.
-/

namespace Sparkz.Merkle.BatchMerkleProof

open Sparkz.Avl (Digest CryptographicHash)
open Sparkz.Lib (toBytes ofBytes length_toBytes ofBytes_toBytes map_eq_ok)
open MerkleProof (leftSide)

/-! ## The chains of hashes -/

/-- The hashes of complete trees whose leaves all have the same data. -/
def honest (hf : CryptographicHash) (data : LeafData) : ℕ → Digest
  | 0 => hf.prefixedHash leafPrefix data
  | j + 1 => hf.prefixedHash internalNodePrefix (honest hf data j ++ honest hf data j)

/-- The same with `data'` in the last leaf. -/
def spine (hf : CryptographicHash) (data data' : LeafData) : ℕ → Digest
  | 0 => hf.prefixedHash leafPrefix data'
  | j + 1 => hf.prefixedHash internalNodePrefix (honest hf data j ++ spine hf data data' j)

/-- What is hashed on a level of the chain. -/
def spineMessage (hf : CryptographicHash) (data data' : LeafData) (j : ℕ) : List UInt8 :=
  internalNodePrefix :: (honest hf data j ++ spine hf data data' j)

variable {hf : CryptographicHash} {data data' data'' : LeafData}

theorem spine_self (j : ℕ) : spine hf data data j = honest hf data j := by
  induction j with
  | zero => rfl
  | succ j ih => rw [spine, honest, ih]

theorem hash_spineMessage (j : ℕ) :
    hf.hash (spineMessage hf data data' j) = spine hf data data' (j + 1) := rfl

theorem length_honest (j : ℕ) : (honest hf data j).length = hf.digestSize := by
  cases j <;> exact hf.length_prefixedHash _ _

/-- A list of digests that only differs from the honest one at its end. -/
def marked (n : ℕ) (x z : List UInt8) : List (List UInt8) := List.replicate (n - 1) x ++ [z]

theorem marked_self {n : ℕ} (h : 0 < n) (x : List UInt8) : marked n x x = List.replicate n x := by
  obtain ⟨n, rfl⟩ := Nat.exists_eq_succ_of_ne_zero h.ne'
  rw [marked, Nat.succ_sub_one, ← List.replicate_succ']

theorem length_marked {n : ℕ} (h : 0 < n) (x z : List UInt8) : (marked n x z).length = n := by
  simp [marked]
  omega

theorem map_marked (n : ℕ) (x z : List UInt8) :
    (marked n x z).map hf.hash = marked n (hf.hash x) (hf.hash z) := by
  simp [marked]

theorem take_marked {n k : ℕ} (hk : 0 < k) (h : k < n) (x z : List UInt8) :
    (marked n x z).take k = marked k x x := by
  rw [marked_self hk, marked, List.take_append_of_le_length (by simp; omega), List.take_replicate,
    min_eq_left (by omega)]

/-! ## Rounds on the chains -/

theorem weight_pos {l : List Bool} (h : l ≠ []) : 0 < weight l := by
  obtain ⟨merge, l, rfl⟩ := List.exists_cons_of_ne_nil h
  rw [weight_cons]
  split_ifs <;> omega

/-- One round: a proof with the honest digest for each step that does not merge. -/
theorem runSteps_marked {j : ℕ} (l : List Bool) (hl : l ≠ [])
    (rest : List (Digest × Side))
    {e : List (ℤ × Digest)}
    (he : e.map Prod.snd = marked (weight l) (honest hf data j) (spine hf data data' j)) :
    runSteps l e (List.replicate (l.count false) (honest hf data j, leftSide) ++ rest)
      = .ok (marked l.length (spineMessage hf data data j) (spineMessage hf data data' j),
        rest) := by
  have hself : spineMessage hf data data j
      = internalNodePrefix :: (honest hf data j ++ honest hf data j) := by
    rw [spineMessage, spine_self]
  induction l generalizing e with
  | nil => exact absurd rfl hl
  | cons merge l ih =>
    rcases eq_or_ne l [] with rfl | hne
    · -- the last step takes the last digest
      cases merge with
      | true =>
        obtain ⟨x, e, rfl, hx, he⟩ := List.map_eq_cons_iff.1 he
        obtain ⟨y, e, rfl, hy, he⟩ := List.map_eq_cons_iff.1 he
        rw [List.map_eq_nil_iff.1 he, runSteps, hx, hy]
        rfl
      | false =>
        obtain ⟨x, e, rfl, hx, he⟩ := List.map_eq_cons_iff.1 he
        rw [List.map_eq_nil_iff.1 he, List.count_singleton_self, List.replicate_one,
          List.singleton_append, runSteps, hx]
        rfl
    · obtain ⟨w, hw⟩ := Nat.exists_eq_succ_of_ne_zero (weight_pos hne).ne'
      obtain ⟨n, hn⟩ := Nat.exists_eq_succ_of_ne_zero (mt List.length_eq_zero_iff.1 hne)
      have hmarked : ∀ x z : List UInt8,
          marked (merge :: l).length x z = x :: marked l.length x z := by
        intro x z
        rw [List.length_cons, hn]
        rfl
      cases merge with
      | true =>
        have hcons : marked (weight (true :: l)) (honest hf data j) (spine hf data data' j)
            = honest hf data j :: honest hf data j
              :: marked (weight l) (honest hf data j) (spine hf data data' j) := by
          rw [weight_cons, if_pos rfl, hw, add_comm]
          rfl
        rw [hcons] at he
        obtain ⟨x, e, rfl, hx, he⟩ := List.map_eq_cons_iff.1 he
        obtain ⟨y, e, rfl, hy, he⟩ := List.map_eq_cons_iff.1 he
        rw [List.count_cons_of_ne (by decide), runSteps, ih hne he, hx, hy, hmarked, ← hself]
        rfl
      | false =>
        have hcons : marked (weight (false :: l)) (honest hf data j) (spine hf data data' j)
            = honest hf data j
              :: marked (weight l) (honest hf data j) (spine hf data data' j) := by
          rw [weight_cons, if_neg (by decide), hw, add_comm]
          rfl
        rw [hcons] at he
        obtain ⟨x, e, rfl, hx, he⟩ := List.map_eq_cons_iff.1 he
        rw [List.count_cons_self, List.replicate_succ, List.cons_append, runSteps, ih hne he, hx,
          if_pos rfl, hmarked, ← hself]
        rfl

/-! ## Runs on the chains -/

/-- From digests of level `j`, all honest but the last one, some proof leads to the honest
digest `r` levels above.  The log has messages of the chains only. -/
def Reaches (hf : CryptographicHash) (data data' : LeafData) (a : List ℤ) (r : ℕ) : Prop :=
  ∀ j, ∃ m : List (Digest × Side), m ≠ [] ∧ (∀ p ∈ m, p.1.length = hf.digestSize)
    ∧ r ≤ a.length + m.length
    ∧ ∀ e : List (ℤ × Digest),
      e.map Prod.snd = marked a.length (honest hf data j) (spine hf data data' j) →
      ∀ fuel, r ≤ fuel → ∃ log, loop hf fuel a e m = .ok ([honest hf data (j + r)], log)
        ∧ ∀ message ∈ log, ∃ i < j + r,
          message = spineMessage hf data data i ∨ message = spineMessage hf data data' i

theorem length_le_of_map_eq {e : List (ℤ × Digest)} {a : List ℤ} (ha : a ≠ []) {x z : List UInt8}
    (he : e.map Prod.snd = marked a.length x z) : e.length = a.length := by
  rw [← List.length_map (f := Prod.snd), he, length_marked (List.length_pos_iff.2 ha)]

theorem map_snd_zip_take {α β : Type} {l₁ : List α} {l₂ : List β} (h : l₁.length ≤ l₂.length) :
    (l₁.zip l₂).map Prod.snd = l₂.take l₁.length := by
  rw [List.zip_eq_zip_take_min, min_eq_left h, List.take_length, List.map_snd_zip (by simp)]

/-- A proof of one index ends with the hash of its round. -/
theorem reaches_singleton (i : ℤ) : Reaches hf data data [i] 1 := by
  intro j
  refine ⟨[(honest hf data j, leftSide)], by simp, by simp [length_honest], by simp, ?_⟩
  intro e he fuel hfuel
  obtain ⟨fuel, rfl⟩ := Nat.exists_eq_add_of_le' hfuel
  have hrun := runSteps_marked [false] (by simp) [] he
  refine ⟨[spineMessage hf data data j], loop_succ_eq_ok.2 ⟨length_le_of_map_eq (by simp) he, _, _,
    hrun, Or.inl ⟨rfl, le_rfl, ?_, rfl⟩⟩, ?_⟩
  · rw [← spine_self]
    rfl
  · simp only [List.mem_singleton]
    rintro message rfl
    exact ⟨j, Nat.lt_succ_self j, Or.inl rfl⟩

/-- One round back: the next round gets digests that are honest but for the last one,
which is the one of `data''`. -/
theorem Reaches.round {a : List ℤ} {r : ℕ} (ha : a ≠ [])
    (htake : ∀ j, (marked (steps (a.map pairOf)).length (honest hf data (j + 1))
        (spine hf data data' (j + 1))).take (nextIndices a).length
      = marked (nextIndices a).length (honest hf data (j + 1)) (spine hf data data'' (j + 1)))
    (hdata : data'' = data ∨ data'' = data')
    (h : Reaches hf data data'' (nextIndices a) r) : Reaches hf data data' a (r + 1) := by
  intro j
  obtain ⟨m, hm, hsize, hr, hloop⟩ := h (j + 1)
  set l := steps (a.map pairOf) with hl
  have hweight : weight l = a.length := by rw [hl, weight_steps, List.length_map]
  have hnext : (nextIndices a).length ≤ l.length := length_nextIndices_le a
  have hpos : 0 < l.length := List.length_pos_iff.2 (steps_ne_nil ha)
  refine ⟨List.replicate (l.count false) (honest hf data j, leftSide) ++ m, by simp [hm],
    ?_, ?_, ?_⟩
  · intro p hp
    rcases List.mem_append.1 hp with hp | hp
    · rw [(List.mem_replicate.1 hp).2, length_honest]
    · exact hsize p hp
  · have hcount := weight_add_count l
    rw [List.length_append, List.length_replicate]
    omega
  · intro e he fuel hfuel
    obtain ⟨fuel, rfl⟩ := Nat.exists_eq_add_of_le' (Nat.succ_le_of_lt (by omega : 0 < fuel))
    have hrun := runSteps_marked l (steps_ne_nil ha) m (by rw [hweight]; exact he)
    have hzip : ((nextIndices a).zip ((marked l.length (spineMessage hf data data j)
        (spineMessage hf data data' j)).map hf.hash)).map Prod.snd
        = marked (nextIndices a).length (honest hf data (j + 1))
          (spine hf data data'' (j + 1)) := by
      rw [map_marked, hash_spineMessage, hash_spineMessage, spine_self, ← htake j]
      exact map_snd_zip_take (by rwa [length_marked hpos])
    obtain ⟨log, hnextloop, hlog⟩ := hloop _ hzip fuel (by omega)
    refine ⟨_, loop_succ_eq_ok.2 ⟨length_le_of_map_eq ha he, _, _, hrun, Or.inr ⟨Or.inl hm, log,
      ?_, rfl⟩⟩, ?_⟩
    · rw [hnextloop, add_right_comm, add_assoc]
    · intro message hmessage
      rcases List.mem_append.1 hmessage with hmessage | hmessage
      · refine ⟨j, by omega, ?_⟩
        rcases List.mem_append.1 hmessage with hmessage | hmessage
        · exact Or.inl (List.mem_replicate.1 hmessage).2
        · exact Or.inr (List.mem_singleton.1 hmessage)
      · obtain ⟨i, hi, heq⟩ := hlog message hmessage
        refine ⟨i, by omega, ?_⟩
        rcases hdata with rfl | rfl
        · exact Or.inl (heq.elim id id)
        · exact heq

/-- The rounds of honest digests. -/
theorem Reaches.next {a : List ℤ} {r : ℕ} (ha : a ≠ [])
    (h : Reaches hf data data (nextIndices a) r) : Reaches hf data data a (r + 1) := by
  refine h.round ha (fun j => ?_) (Or.inl rfl)
  have hle := length_nextIndices_le a
  have hpos := List.length_pos_iff.2 (nextIndices_ne_nil ha)
  rw [spine_self, marked_self (by omega), marked_self hpos, List.take_replicate, min_eq_left hle]

/-- A round that drops the digest that is not honest. -/
theorem Reaches.drop {a : List ℤ} {r : ℕ} (hkept : ¬Kept a)
    (h : Reaches hf data data (nextIndices a) r) : Reaches hf data data' a (r + 1) := by
  have ha : a ≠ [] := by
    rintro rfl
    exact hkept rfl
  refine h.round ha (fun j => ?_) (Or.inl rfl)
  have hlt := lt_of_le_of_ne (length_nextIndices_le a) (Ne.symm hkept)
  rw [spine_self, take_marked (List.length_pos_iff.2 (nextIndices_ne_nil ha)) hlt]

/-- A round that keeps it. -/
theorem Reaches.keep {a : List ℤ} {r : ℕ} (ha : a ≠ []) (hkept : Kept a)
    (h : Reaches hf data data' (nextIndices a) r) : Reaches hf data data' a (r + 1) := by
  refine h.round ha (fun j => ?_) (Or.inr rfl)
  rw [← hkept, List.take_of_length_le]
  rw [length_marked (List.length_pos_iff.2 (steps_ne_nil ha))]

/-! ## The indices meet -/

theorem nextIndices_replicate (n : ℕ) (i : ℤ) :
    nextIndices (List.replicate (n + 1) i) = [i / 2] := by
  rw [nextIndices, List.map_replicate, List.replicate_succ, List.eraseDups_cons,
    List.filter_eq_nil_iff.2 (by simp), List.eraseDups_nil, List.map_singleton, pairOf_fst_div]

theorem mem_iterate_nextIndices {a : List ℤ} {j : ℤ} (k : ℕ) (hj : j ∈ nextIndices^[k] a) :
    ∃ i ∈ a, i / 2 ^ k = j := by
  induction k generalizing j with
  | zero => exact ⟨j, hj, by simp⟩
  | succ k ih =>
    rw [Function.iterate_succ_apply', mem_nextIndices] at hj
    obtain ⟨j', hj', rfl⟩ := hj
    obtain ⟨i, hi, rfl⟩ := ih hj'
    refine ⟨i, hi, ?_⟩
    rw [pow_succ, Int.ediv_ediv_of_nonneg (by positivity)]

theorem iterate_nextIndices_ne_nil {a : List ℤ} (ha : a ≠ []) (k : ℕ) :
    nextIndices^[k] a ≠ [] := by
  induction k with
  | zero => exact ha
  | succ k ih =>
    rw [Function.iterate_succ_apply']
    exact nextIndices_ne_nil ih

/-- Indices of one sign become one index. -/
theorem exists_iterate_eq_singleton {a : List ℤ} (ha : a ≠ [])
    (hsign : ¬((∃ i ∈ a, i < 0) ∧ ∃ i ∈ a, 0 ≤ i)) : ∃ k i, nextIndices^[k] a = [i] := by
  obtain ⟨B, hB⟩ : ∃ B : ℕ, ∀ i ∈ a, -2 ^ B ≤ i ∧ i < 2 ^ B := by
    refine ⟨(a.map Int.natAbs).sum, fun i hi => ?_⟩
    have hle := List.le_sum_of_mem (List.mem_map_of_mem (f := Int.natAbs) hi)
    have hlt : ((a.map Int.natAbs).sum : ℤ) < 2 ^ (a.map Int.natAbs).sum := by
      exact_mod_cast Nat.lt_two_pow_self
    omega
  -- after `B` rounds all indices are 0, or all are -1
  obtain ⟨c, hc⟩ : ∃ c, ∀ j ∈ nextIndices^[B] a, j = c := by
    by_cases hneg : ∃ i ∈ a, i < 0
    · refine ⟨-1, fun j hj => ?_⟩
      obtain ⟨i, hi, rfl⟩ := mem_iterate_nextIndices B hj
      have hi0 : i < 0 := not_le.1 fun h => hsign ⟨hneg, i, hi, h⟩
      rw [Int.ediv_eq_iff_of_pos (by positivity)]
      constructor <;> linarith [hB i hi]
    · refine ⟨0, fun j hj => ?_⟩
      obtain ⟨i, hi, rfl⟩ := mem_iterate_nextIndices B hj
      have hi0 : 0 ≤ i := not_lt.1 fun h => hneg ⟨i, hi, h⟩
      exact Int.ediv_eq_zero_of_lt hi0 (hB i hi).2
  obtain ⟨n, hn⟩ := Nat.exists_eq_succ_of_ne_zero
    (mt List.length_eq_zero_iff.1 (iterate_nextIndices_ne_nil ha B))
  refine ⟨B + 1, c / 2, ?_⟩
  rw [Function.iterate_succ_apply', List.eq_replicate_iff.2 ⟨hn, hc⟩, nextIndices_replicate]

/-- Honest digests lead to the hash of the honest tree. -/
theorem exists_reaches {a : List ℤ} (ha : a ≠ []) (k : ℕ) {i : ℤ}
    (hk : nextIndices^[k] a = [i]) : ∃ r, 0 < r ∧ ∀ hf data, Reaches hf data data a r := by
  induction k generalizing a with
  | zero =>
    rw [Function.iterate_zero_apply] at hk
    subst hk
    exact ⟨1, Nat.one_pos, fun hf data => reaches_singleton i⟩
  | succ k ih =>
    obtain ⟨r, -, hr⟩ := ih (nextIndices_ne_nil ha) hk
    exact ⟨r + 1, r.succ_pos, fun hf data => (hr hf data).next ha⟩

/-- The digest that a round drops may be any. -/
theorem exists_reaches_of_not_kept {a : List ℤ} (ha : a ≠ [])
    (hsign : ¬((∃ i ∈ a, i < 0) ∧ ∃ i ∈ a, 0 ≤ i)) (k : ℕ) (hk : ¬Kept (nextIndices^[k] a)) :
    ∃ r, 0 < r ∧ ∀ hf data data', Reaches hf data data' a r := by
  have hsign' : ¬((∃ i ∈ nextIndices a, i < 0) ∧ ∃ i ∈ nextIndices a, 0 ≤ i) := by
    rintro ⟨⟨i, hi, hi0⟩, j, hj, hj0⟩
    obtain ⟨i', hi', rfl⟩ := mem_nextIndices.1 hi
    obtain ⟨j', hj', rfl⟩ := mem_nextIndices.1 hj
    exact hsign ⟨⟨i', hi', by omega⟩, j', hj', by omega⟩
  by_cases hkept : Kept a
  · cases k with
    | zero => exact absurd hkept hk
    | succ k =>
      obtain ⟨r, -, hr⟩ := exists_reaches_of_not_kept (nextIndices_ne_nil ha) hsign' k hk
      exact ⟨r + 1, r.succ_pos, fun hf data data' => (hr hf data data').keep ha hkept⟩
  · obtain ⟨n, i, hn⟩ := exists_iterate_eq_singleton (nextIndices_ne_nil ha) hsign'
    obtain ⟨r, -, hr⟩ := exists_reaches (nextIndices_ne_nil ha) n hn
    exact ⟨r + 1, r.succ_pos, fun hf data data' => (hr hf data).drop hkept⟩

/-! ## The digests in order -/

/-- Some digests come into a given order when they are sorted by their indices. -/
theorem exists_sorted_eq (a : List ℤ) (v : List Digest) (hv : v.length = a.length) :
    ∃ indices : List (ℤ × Digest), indices.map Prod.fst = a
      ∧ (indices.insertionSort fun x y => x.1 ≤ y.1).map Prod.snd = v := by
  induction a generalizing v with
  | nil => exact ⟨[], rfl, (List.length_eq_zero_iff.1 hv).symm⟩
  | cons i a ih =>
    -- the place of the first index among the sorted ones behind it
    set p := ((a.insertionSort (· ≤ ·)).takeWhile fun j => ¬i ≤ j).length with hp
    have hlt : p < v.length := by
      have hle : p ≤ (a.insertionSort (· ≤ ·)).length := (List.takeWhile_sublist _).length_le
      rw [List.length_insertionSort] at hle
      rw [hv, List.length_cons]
      exact Nat.lt_succ_of_le hle
    obtain ⟨indices, hfst, hsnd⟩ := ih (v.eraseIdx p) (by
      rw [List.length_eraseIdx_of_lt hlt, hv, List.length_cons, Nat.add_sub_cancel])
    refine ⟨(i, v[p]) :: indices, by rw [List.map_cons, hfst], ?_⟩
    rw [List.insertionSort_cons_eq_take_drop]
    set l := indices.insertionSort fun x y => x.1 ≤ y.1 with hl
    have hkeys : l.map Prod.fst = a.insertionSort (· ≤ ·) := by
      rw [hl, List.map_insertionSort _ (· ≤ ·) Prod.fst _ (fun _ _ _ _ => Iff.rfl), hfst]
    have hlen : ((l.takeWhile fun x => ¬i ≤ x.1).map Prod.snd).length = (v.take p).length := by
      rw [List.length_take, min_eq_left hlt.le, hp, ← hkeys, List.takeWhile_map, List.length_map,
        List.length_map]
      rfl
    have happend : (l.takeWhile fun x => ¬i ≤ x.1).map Prod.snd
          ++ (l.dropWhile fun x => ¬i ≤ x.1).map Prod.snd
        = v.take p ++ v.drop (p + 1) := by
      rw [← List.map_append, List.takeWhile_append_dropWhile, hsnd,
        List.eraseIdx_eq_take_drop_succ]
    obtain ⟨htake, hdrop⟩ := List.append_inj happend hlen
    rw [List.map_append, List.map_cons, htake, hdrop, List.getElem_cons_drop hlt,
      List.take_append_drop]

/-! ## A hash without collisions on the chains -/

/-- A hash that counts: the hash of a leaf shows its first byte, and the hash of an
internal node is the right digest with its counter increased. -/
def counting (k : ℕ) : CryptographicHash where
  digestSize := k + 1
  digestSize_pos := k.succ_pos
  hash
    | [] => 0 :: toBytes k 0
    | pre :: input =>
      if pre = leafPrefix then input.headD 0 :: toBytes k 0
      else
        let right := input.drop (input.length - (k + 1))
        right.headD 0 :: toBytes k (ofBytes right.tail + 1)
  length_hash message := by
    cases message with
    | nil => simp
    | cons pre input => dsimp only; split_ifs <;> simp

theorem counting_internalNode {k : ℕ} (left : Digest) (tag : UInt8) {j : ℕ} (hj : j < 256 ^ k) :
    (counting k).prefixedHash internalNodePrefix (left ++ tag :: toBytes k j)
      = tag :: toBytes k (j + 1) := by
  have hdrop : (left ++ tag :: toBytes k j).drop
      ((left ++ tag :: toBytes k j).length - (k + 1)) = tag :: toBytes k j := by
    simp
  simp only [CryptographicHash.prefixedHash, counting, hdrop]
  rw [if_neg (by decide), List.headD_cons, List.tail_cons, ofBytes_toBytes k j hj]

theorem spine_counting {k : ℕ} (tag : UInt8) (j : ℕ) (hj : j < 256 ^ k) :
    spine (counting k) data [tag] j = tag :: toBytes k j := by
  induction j with
  | zero => rfl
  | succ j ih => rw [spine, ih (by omega), counting_internalNode _ _ (by omega)]

/-- The messages of two chains of height `r`. -/
def Chained (k r : ℕ) (message : List UInt8) : Prop :=
  ∃ tag : UInt8, message = [leafPrefix, tag]
    ∨ ∃ i < r, message = spineMessage (counting k) [2] [tag] i

/-- The counter and the first byte tell the messages of the chains apart. -/
theorem collisionFree_counting {k r : ℕ} (hr : r < 256 ^ k) {messages : List (List UInt8)}
    (h : ∀ message ∈ messages, Chained k r message) :
    (counting k).CollisionFree messages := by
  have htoBytes : ∀ {i j : ℕ}, i ≤ r → j ≤ r → toBytes k i = toBytes k j → i = j := by
    intro i j hi hj heq
    rw [← ofBytes_toBytes k i (by omega), ← ofBytes_toBytes k j (by omega), heq]
  intro m₁ h₁ m₂ h₂ heq
  obtain ⟨tag₁, rfl | ⟨i₁, hi₁, rfl⟩⟩ := h m₁ h₁
  all_goals obtain ⟨tag₂, rfl | ⟨i₂, hi₂, rfl⟩⟩ := h m₂ h₂
  · have hcons : tag₁ :: toBytes k 0 = tag₂ :: toBytes k 0 := heq
    rw [(List.cons.inj hcons).1]
  · rw [hash_spineMessage, spine_counting _ _ (by omega)] at heq
    have hcons : tag₁ :: toBytes k 0 = tag₂ :: toBytes k (i₂ + 1) := heq
    exact absurd (htoBytes (by omega) (by omega) (List.cons.inj hcons).2) (by omega)
  · rw [hash_spineMessage, spine_counting _ _ (by omega)] at heq
    have hcons : tag₁ :: toBytes k (i₁ + 1) = tag₂ :: toBytes k 0 := heq
    exact absurd (htoBytes (by omega) (by omega) (List.cons.inj hcons).2) (by omega)
  · rw [hash_spineMessage, hash_spineMessage, spine_counting _ _ (by omega),
      spine_counting _ _ (by omega)] at heq
    obtain ⟨rfl, hcounter⟩ := List.cons.inj heq
    rw [Nat.succ_injective (htoBytes (by omega) (by omega) hcounter)]

/-! ## The honest tree -/

/-- The complete tree whose leaves all have the same data. -/
def complete (data : LeafData) : ℕ → Node
  | 0 => .leaf data
  | j + 1 => .internalNode (complete data j) (complete data j)

theorem hash_complete (j : ℕ) : (complete data j).hash hf = honest hf data j := by
  induction j with
  | zero => rfl
  | succ j ih => rw [complete, Node.hash, ih, honest]

theorem mem_messages_complete {j : ℕ} {message : List UInt8}
    (h : message ∈ (complete data j).messages hf) :
    message = leafPrefix :: data ∨ ∃ i < j, message = spineMessage hf data data i := by
  induction j with
  | zero => exact Or.inl (List.mem_singleton.1 h)
  | succ j ih =>
    simp only [complete, Node.messages, List.mem_cons, List.mem_append, or_self] at h
    rcases h with rfl | h
    · exact Or.inr ⟨j, j.lt_succ_self, by rw [spineMessage, spine_self, hash_complete]⟩
    · rcases ih h with hleaf | ⟨i, hi, heq⟩
      · exact Or.inl hleaf
      · exact Or.inr ⟨i, hi.trans j.lt_succ_self, heq⟩

theorem nextNodes_replicate (n : ℕ) (node : Node) :
    nextNodes (List.replicate (2 * n) node) = List.replicate n (.internalNode node node) := by
  induction n with
  | zero => rfl
  | succ n ih =>
    rw [Nat.mul_succ, List.replicate_succ, List.replicate_succ, nextNodes, ih, List.replicate_succ]

theorem calcTopNode_replicate (k j : ℕ) :
    calcTopNode (List.replicate (2 ^ (k + 1)) (complete data j)) = complete data (j + k + 1) := by
  induction k generalizing j with
  | zero => simp [calcTopNode, nextNodes, complete]
  | succ k ih =>
    have hne : ¬(List.replicate (2 ^ (k + 2)) (complete data j)).isEmpty := by simp
    have hone : ¬(List.replicate (2 ^ (k + 1)) (complete data (j + 1))).length = 1 := by
      rw [List.length_replicate, pow_succ]
      omega
    have hnext : nextNodes (List.replicate (2 ^ (k + 2)) (complete data j))
        = List.replicate (2 ^ (k + 1)) (complete data (j + 1)) := by
      rw [pow_succ', nextNodes_replicate]
      rfl
    rw [calcTopNode, if_neg hne, hnext, if_neg hone, ih]
    congr 1
    omega

/-- The tree of `2 ^ r` equal elements. -/
theorem topNode_replicate {r : ℕ} (hr : 0 < r) :
    topNode (List.replicate (2 ^ r) data) = complete data r := by
  obtain ⟨k, rfl⟩ := Nat.exists_eq_succ_of_ne_zero hr.ne'
  rw [topNode, List.map_replicate]
  exact (calcTopNode_replicate k 0).trans (by rw [Nat.zero_add])

/-! ## Soundness of the verifier -/

/-- On proofs over the indices `a` the verifier is sound: a leaf hash that is accepted is
the one of an element of the payload. -/
def SoundOn (a : List ℤ) : Prop :=
  ∀ (hf : CryptographicHash) (payload : List LeafData) (proof : BatchMerkleProof),
    payload ≠ [] → proof.indices.map Prod.fst = a →
    (∀ x ∈ proof.indices, x.2.length = hf.digestSize) →
    (∀ p ∈ proof.proofs, p.1 = [] ∨ p.1.length = hf.digestSize) →
    proof.valid hf (rootHash hf payload) = .ok true →
    ∀ x ∈ proof.indices, ∀ data, x.2 = hf.prefixedHash leafPrefix data →
      hf.CollisionFree ((topNode payload).messages hf
        ++ (proof.messages hf ++ [leafPrefix :: data])) →
      data ∈ payload

theorem mem_sorted {proof : BatchMerkleProof} {x : ℤ × Digest} :
    x ∈ proof.sorted ↔ x ∈ proof.indices :=
  (List.perm_insertionSort _ _).mem_iff

/-- If no round drops a digest, what is accepted is genuine. -/
theorem soundOn_of_aligned {a : List ℤ} (h : Aligned a) : SoundOn a := by
  rintro hf payload proof hne rfl hsize - hvalid x hx data hdata hcf
  obtain ⟨hpadded, hleaves⟩ := topNode_spec hne
  obtain ⟨log, hcheck⟩ := valid_eq_true.1 hvalid
  have hlog : proof.messages hf = log := by rw [messages, hcheck]
  have hsorted : ∀ y ∈ proof.sorted, y.2.length = hf.digestSize :=
    fun y hy => hsize y (mem_sorted.1 hy)
  obtain ⟨n, hn, hhash⟩ := loop_sound hpadded hcf _ h hsorted hcheck
    (hlog ▸ List.subset_append_left _ _) x (mem_sorted.2 hx)
  rw [← hleaves]
  exact MerkleProof.mem_leaves_of_hash hn hcf (by simp) (hdata.symm.trans hhash)

/-- If indices of both signs are there, nothing is accepted. -/
theorem soundOn_of_mixed {a : List ℤ} (hneg : ∃ i ∈ a, i < 0) (hpos : ∃ i ∈ a, 0 ≤ i) :
    SoundOn a := by
  rintro hf payload proof - rfl - - hvalid
  obtain ⟨log, hcheck⟩ := valid_eq_true.1 hvalid
  exact absurd hcheck (loop_mixed _ hneg hpos)

/-- **Forgery**: where a round drops a digest, some proof with the leaf hash of other data
is accepted. -/
theorem exists_forgery {a : List ℤ} (ha : a ≠ [])
    (hsign : ¬((∃ i ∈ a, i < 0) ∧ ∃ i ∈ a, 0 ≤ i)) (h : ¬Aligned a) : ¬SoundOn a := by
  intro hsound
  obtain ⟨k, hk⟩ := not_forall.1 h
  obtain ⟨r, hr0, hr⟩ := exists_reaches_of_not_kept ha hsign k hk
  set hf := counting r with hhf
  obtain ⟨m, -, hm, hfuel, hrun⟩ := hr hf [2] [3] 0
  have hapos := List.length_pos_iff.2 ha
  obtain ⟨indices, hfst, hsnd⟩ := exists_sorted_eq a
    (marked a.length (honest hf [2] 0) (spine hf [2] [3] 0)) (length_marked hapos _ _)
  have hlen : indices.length = a.length := by rw [← hfst, List.length_map]
  obtain ⟨log, hloop, hlog⟩ := hrun _ hsnd (indices.length + m.length + 1) (by omega)
  have hroot : rootHash hf (List.replicate (2 ^ r) [2]) = honest hf [2] (0 + r) := by
    rw [rootHash, topNode_replicate hr0, hash_complete, Nat.zero_add]
  have hcheck : check hf ⟨indices, m⟩ = .ok ([rootHash hf (List.replicate (2 ^ r) [2])], log) := by
    rw [hroot, ← hloop, check, hfst, sorted]
  have hdigests : ∀ x ∈ indices, x.2 ∈ marked a.length (honest hf [2] 0) (spine hf [2] [3] 0) := by
    intro x hx
    rw [← hsnd]
    exact List.mem_map_of_mem ((List.perm_insertionSort _ _).mem_iff.2 hx)
  -- the digest that gets lost
  obtain ⟨x, hx, hforged⟩ : ∃ x ∈ indices, x.2 = spine hf [2] [3] 0 := by
    have hmem : spine hf [2] [3] 0 ∈ marked a.length (honest hf [2] 0) (spine hf [2] [3] 0) :=
      List.mem_append_right _ (List.mem_singleton_self _)
    rw [← hsnd] at hmem
    obtain ⟨x, hx, heq⟩ := List.mem_map.1 hmem
    exact ⟨x, (List.perm_insertionSort _ _).mem_iff.1 hx, heq⟩
  have hmem := hsound hf (List.replicate (2 ^ r) [2]) ⟨indices, m⟩ (by simp) hfst ?_
    (fun p hp => Or.inr (hm p hp)) (valid_eq_true.2 ⟨log, hcheck⟩) x hx [3] hforged ?_
  · exact absurd (List.mem_replicate.1 hmem).2 (by decide)
  · intro y hy
    rcases List.mem_append.1 (hdigests y hy) with hy | hy
    · rw [(List.mem_replicate.1 hy).2, length_honest]
    · rw [List.mem_singleton.1 hy]
      exact hf.length_prefixedHash _ _
  · have hr256 : r < 256 ^ r := Nat.lt_pow_self (by norm_num)
    refine collisionFree_counting hr256 fun message hmessage => ?_
    rw [topNode_replicate hr0, messages, hcheck] at hmessage
    rcases List.mem_append.1 hmessage with hmessage | hmessage
    · rcases mem_messages_complete hmessage with rfl | ⟨i, hi, rfl⟩
      · exact ⟨2, Or.inl rfl⟩
      · exact ⟨2, Or.inr ⟨i, hi, rfl⟩⟩
    rcases List.mem_append.1 hmessage with hmessage | hmessage
    · obtain ⟨i, hi, rfl | rfl⟩ := hlog message hmessage
      · exact ⟨2, Or.inr ⟨i, by omega, rfl⟩⟩
      · exact ⟨3, Or.inr ⟨i, by omega, rfl⟩⟩
    · exact ⟨3, Or.inl (List.mem_singleton.1 hmessage)⟩

/-- **The verifier is sound** on the lists of indices where each round gives one digest
for each index that is left, and on those that hold indices of both signs, and on no
others. -/
theorem valid_sound_iff (a : List ℤ) :
    SoundOn a ↔ Aligned a ∨ (∃ i ∈ a, i < 0) ∧ ∃ i ∈ a, 0 ≤ i := by
  constructor
  · intro hsound
    by_contra hnot
    obtain ⟨halign, hsign⟩ := not_or.1 hnot
    refine exists_forgery ?_ hsign halign hsound
    rintro rfl
    refine halign fun k => ?_
    rw [Function.iterate_fixed (rfl : nextIndices [] = [])]
    rfl
  · rintro (halign | ⟨hneg, hpos⟩)
    · exact soundOn_of_aligned halign
    · exact soundOn_of_mixed hneg hpos

/-- A proof over the indices 0, 2 and 1 of the payload 5, 6, 7, 8: the leaf hash of 9 is
hashed into the digest that the first round drops. -/
def forgedProof : BatchMerkleProof where
  indices := [(0, [0, 5, 0, 0]), (2, [0, 9, 0, 0]), (1, [0, 7, 0, 0])]
  proofs := [([0, 6, 0, 0], 1), ([0, 8, 0, 0], 1), ([], 1)]

theorem topNode_four (a b c d : LeafData) :
    topNode [a, b, c, d]
      = .internalNode (.internalNode (.leaf a) (.leaf b)) (.internalNode (.leaf c) (.leaf d)) := by
  simp [topNode, calcTopNode, nextNodes]

theorem forgedProof_accepted : ¬∀ a, SoundOn a := by
  intro h
  have hmem := h [0, 2, 1] MerkleProof.firstFour [[5], [6], [7], [8]] forgedProof (by simp) rfl
    (by decide) (by decide) (by rw [rootHash, topNode_four]; decide) (2, [0, 9, 0, 0]) (by decide)
    [9] (by decide) (by rw [topNode_four]; decide)
  exact absurd hmem (by decide)

end Sparkz.Merkle.BatchMerkleProof
