import Sparkz.Lib.Fallible
import Sparkz.Merkle.MerkleTree

/-!
# Batch Merkle proofs

One proof for several leaves: the verifier halves the list of indices round by round
and hashes the digests of indices that form a pair, or a digest with the next one of
the proof.

* `BatchMerkleProof.loop`, `valid` — the verifier.  The loop keeps a log of what it
  hashes.
* `Kept` — the round gives one digest for each index that is left; otherwise `zip`
  drops the last digests, and nothing that was hashed into them is checked.
* `valid_sound_iff` — the index lists on which accepted leaf hashes are genuine.
-/

namespace Sparkz.Merkle

open Sparkz.Avl (Digest CryptographicHash)
open Sparkz.Lib (map_eq_ok bind_eq_ok)
open MerkleProof (leftSide rightSide levelMessage eq_child_of_levelMessage)

/-- What can be thrown by the verifier. -/
inductive BatchError where
  | assertionFailed
  | noSuchElement
  | indexOutOfBounds
  | stackOverflow
  deriving DecidableEq

/-- `BatchMerkleProof`. -/
structure BatchMerkleProof where
  indices : List (ℤ × Digest)
  proofs : List (Digest × Side)

namespace BatchMerkleProof

variable {hf : CryptographicHash}

/-! ## The verifier -/

/-- An index and its neighbour. -/
def pairOf (i : ℤ) : ℤ × ℤ := if i % 2 = 0 then (i, i + 1) else (i - 1, i)

/-- The steps of the `while` loop over the pairs: `true` hashes two digests whose pairs
are equal with one another, `false` hashes one digest with the first one of the proof. -/
def steps : List (ℤ × ℤ) → List Bool
  | p :: q :: b => if p = q then true :: steps b else false :: steps (q :: b)
  | [_] => [false]
  | [] => []

/-- What the `while` loop hashes, and what it leaves of the proof. -/
def runSteps : List Bool → List (ℤ × Digest) → List (Digest × Side) →
    Except BatchError (List (List UInt8) × List (Digest × Side))
  | [], _, m => .ok ([], m)
  | true :: rest, x :: y :: e, m =>
    (runSteps rest e m).map fun (messages, m_new) =>
      ((internalNodePrefix :: (x.2 ++ y.2)) :: messages, m_new)
  | false :: rest, x :: e, (hash, side) :: m =>
    (runSteps rest e m).map fun (messages, m_new) =>
      ((internalNodePrefix :: (if side = leftSide then hash ++ x.2 else x.2 ++ hash)) :: messages,
        m_new)
  | false :: _, _ :: _, [] => .error .noSuchElement
  | _, _, _ => .error .indexOutOfBounds

/-- The indices of the next round. -/
def nextIndices (a : List ℤ) : List ℤ := (a.map pairOf).eraseDups.map fun p => p.1 / 2

/-- `loop`, with the messages that it hashes.  Every round uses up a digest of `e` or
`m`, unless `e` is empty: then the loop calls itself for ever. -/
def loop (hf : CryptographicHash) : ℕ → List ℤ → List (ℤ × Digest) → List (Digest × Side) →
    Except BatchError (List Digest × List (List UInt8))
  | 0, _, _, _ => .error .stackOverflow
  | fuel + 1, a, e, m =>
    let b := a.map pairOf
    if e.length ≠ b.length then .error .assertionFailed
    else
      (runSteps (steps b) e m).bind fun (messages, m_new) =>
        let a_new := nextIndices a
        let e_new := messages.map hf.hash
        if m_new ≠ [] ∨ 1 < e_new.length then
          (loop hf fuel a_new (a_new.zip e_new) m_new).map fun (root, above) =>
            (root, messages ++ above)
        else .ok (e_new, messages)

/-- `indices sortBy(_._1)`. -/
def sorted (proof : BatchMerkleProof) : List (ℤ × Digest) :=
  proof.indices.insertionSort fun x y => x.1 ≤ y.1

/-- The digests that the loop ends with, and what it hashes. -/
def check (hf : CryptographicHash) (proof : BatchMerkleProof) :
    Except BatchError (List Digest × List (List UInt8)) :=
  loop hf (proof.indices.length + proof.proofs.length + 1) (proof.indices.map Prod.fst)
    proof.sorted proof.proofs

/-- `valid`. -/
def valid (hf : CryptographicHash) (proof : BatchMerkleProof) (expectedRootHash : Digest) :
    Except BatchError Bool :=
  (proof.check hf).map fun
    | ([root], _) => root == expectedRootHash
    | _ => false

/-- The messages that are hashed to check a proof. -/
def messages (hf : CryptographicHash) (proof : BatchMerkleProof) : List (List UInt8) :=
  match proof.check hf with
  | .ok (_, log) => log
  | .error _ => []

theorem valid_eq_true {proof : BatchMerkleProof} {root : Digest} :
    proof.valid hf root = .ok true ↔ ∃ log, proof.check hf = .ok ([root], log) := by
  rw [valid, map_eq_ok]
  constructor
  · rintro ⟨⟨digests, log⟩, hcheck, heq⟩
    match digests, heq with
    | [digest], heq =>
      rw [beq_iff_eq.1 heq] at hcheck
      exact ⟨log, hcheck⟩
  · rintro ⟨log, hcheck⟩
    exact ⟨_, hcheck, beq_self_eq_true root⟩

/-! ## One round -/

/-- The entries that the steps take. -/
def weight (l : List Bool) : ℕ := (l.map fun merge => if merge then 2 else 1).sum

@[simp] theorem weight_cons (merge : Bool) (l : List Bool) :
    weight (merge :: l) = (if merge then 2 else 1) + weight l := by
  simp [weight]

theorem weight_steps (b : List (ℤ × ℤ)) : weight (steps b) = b.length := by
  fun_induction steps b with
  | case1 p b ih =>
    rw [weight_cons, ih]
    simp only [List.length_cons, if_true]
    omega
  | case2 p q b hne ih =>
    rw [weight_cons, ih]
    simp only [List.length_cons, Bool.false_eq_true, if_false]
    omega
  | case3 p => rfl
  | case4 => rfl

/-- The steps that hash `e`: each message comes from one step, each step that does not
merge takes a digest of the proof, and each entry of `e` is in a message. -/
theorem runSteps_spec {l : List Bool} {e : List (ℤ × Digest)} {m m_new : List (Digest × Side)}
    {messages : List (List UInt8)} (h : runSteps l e m = .ok (messages, m_new))
    (hlen : e.length = weight l) :
    messages.length = l.length ∧ m.length = l.count false + m_new.length
      ∧ ∀ x ∈ e, ∃ level, levelMessage x.2 level ∈ messages := by
  fun_induction runSteps l e m generalizing messages with
  | case1 e m =>
    cases h
    have : e = [] := List.length_eq_zero_iff.1 hlen
    subst this
    simp
  | case2 rest x y e m ih =>
    obtain ⟨⟨messages', m'⟩, hrest, hmessages⟩ := map_eq_ok.1 h
    cases hmessages
    simp only [weight_cons, if_true, List.length_cons] at hlen
    obtain ⟨hcount, hm, hmem⟩ := ih hrest (by omega)
    refine ⟨by simp [hcount], by simpa using hm, ?_⟩
    simp only [List.mem_cons, forall_eq_or_imp]
    refine ⟨⟨(y.2, leftSide), Or.inl ?_⟩, ⟨(x.2, rightSide), Or.inl ?_⟩, fun z hz => ?_⟩
    · rfl
    · rfl
    · obtain ⟨level, hlevel⟩ := hmem z hz
      exact ⟨level, Or.inr hlevel⟩
  | case3 rest x e hash side m ih =>
    obtain ⟨⟨messages', m'⟩, hrest, hmessages⟩ := map_eq_ok.1 h
    cases hmessages
    simp only [weight_cons, Bool.false_eq_true, if_false, List.length_cons] at hlen
    obtain ⟨hcount, hm, hmem⟩ := ih hrest (by omega)
    refine ⟨by simp [hcount], by simp only [List.length_cons, List.count_cons_self]; omega, ?_⟩
    simp only [List.mem_cons, forall_eq_or_imp]
    refine ⟨⟨(hash, if side = leftSide then rightSide else leftSide), Or.inl ?_⟩, fun z hz => ?_⟩
    · simp only [levelMessage]
      split_ifs <;> first | rfl | simp_all [leftSide, rightSide]
    · obtain ⟨level, hlevel⟩ := hmem z hz
      exact ⟨level, Or.inr hlevel⟩
  | case4 => cases h
  | case5 => cases h

/-- What a round does: it ends the loop, or another one follows. -/
theorem loop_succ_eq_ok {fuel : ℕ} {a : List ℤ} {e : List (ℤ × Digest)}
    {m : List (Digest × Side)} {root : List Digest} {log : List (List UInt8)} :
    loop hf (fuel + 1) a e m = .ok (root, log) ↔
      e.length = a.length ∧ ∃ messages m_new,
        runSteps (steps (a.map pairOf)) e m = .ok (messages, m_new)
          ∧ ((m_new = [] ∧ messages.length ≤ 1 ∧ root = messages.map hf.hash ∧ log = messages)
            ∨ (m_new ≠ [] ∨ 1 < messages.length) ∧ ∃ above,
              loop hf fuel (nextIndices a) ((nextIndices a).zip (messages.map hf.hash)) m_new
                  = .ok (root, above)
                ∧ log = messages ++ above) := by
  rw [loop, List.length_map]
  by_cases hlen : e.length = a.length
  · rw [if_neg (not_not.2 hlen), bind_eq_ok]
    simp only [hlen, true_and, List.length_map, Prod.exists]
    refine exists_congr fun messages => exists_congr fun m_new => and_congr_right fun _ => ?_
    by_cases hmore : m_new ≠ [] ∨ 1 < messages.length
    · have hend : ¬(m_new = [] ∧ messages.length ≤ 1) := by
        rintro ⟨hnil, hle⟩
        exact hmore.elim (· hnil) (by omega)
      rw [if_pos hmore, map_eq_ok]
      constructor
      · rintro ⟨⟨root', above⟩, hloop, heq⟩
        cases heq
        exact Or.inr ⟨hmore, above, hloop, rfl⟩
      · rintro (⟨hnil, hle, -⟩ | ⟨-, above, hloop, rfl⟩)
        · exact absurd ⟨hnil, hle⟩ hend
        · exact ⟨_, hloop, rfl⟩
    · rw [if_neg hmore]
      simp only [not_or, not_not, not_lt] at hmore
      simp [hmore.1, hmore.2, not_lt.2 hmore.2, eq_comm]
  · simp [hlen]

theorem runSteps_ne_stackOverflow (l : List Bool) (e : List (ℤ × Digest))
    (m : List (Digest × Side)) : runSteps l e m ≠ .error .stackOverflow := by
  fun_induction runSteps l e m with
  | case1 => exact nofun
  | case2 rest x y e m ih => cases h : runSteps rest e m <;> simp_all [Except.map]
  | case3 rest x e hash side m ih => cases h : runSteps rest e m <;> simp_all [Except.map]
  | case4 => exact nofun
  | case5 => exact nofun

theorem steps_ne_nil {a : List ℤ} (h : a ≠ []) : steps (a.map pairOf) ≠ [] := by
  intro hnil
  have := weight_steps (a.map pairOf)
  rw [hnil, List.length_map] at this
  exact h (List.length_eq_zero_iff.1 this.symm)

theorem weight_add_count (l : List Bool) : weight l + l.count false = 2 * l.length := by
  induction l with
  | nil => rfl
  | cons merge l ih => cases merge <;> simp <;> omega

/-- The loop ends, unless it starts without indices. -/
theorem loop_ne_stackOverflow (fuel : ℕ) {a : List ℤ} {e : List (ℤ × Digest)}
    {m : List (Digest × Side)} (ha : a ≠ []) (hfuel : e.length + m.length < fuel) :
    loop hf fuel a e m ≠ .error .stackOverflow := by
  induction fuel generalizing a e m with
  | zero => omega
  | succ fuel ih =>
    rw [loop, List.length_map]
    by_cases hlen : e.length = a.length
    · rw [if_neg (not_not.2 hlen)]
      cases hrun : runSteps (steps (a.map pairOf)) e m with
      | error err =>
        rintro ⟨⟩
        exact runSteps_ne_stackOverflow _ _ _ hrun
      | ok res =>
        obtain ⟨messages, m_new⟩ := res
        have hweight : weight (steps (a.map pairOf)) = e.length := by
          rw [weight_steps, List.length_map, hlen]
        obtain ⟨hcount, hm, -⟩ := runSteps_spec hrun hweight.symm
        have hround := weight_add_count (steps (a.map pairOf))
        have hpos := List.length_pos_iff.2 (steps_ne_nil ha)
        simp only [Except.bind]
        split_ifs
        · have hne : nextIndices a ≠ [] := by
            obtain ⟨i, a, rfl⟩ := List.exists_cons_of_ne_nil ha
            simp [nextIndices, List.eraseDups_cons]
          have hnext := ih (e := (nextIndices a).zip (messages.map hf.hash)) (m := m_new) hne (by
            rw [List.length_zip, List.length_map]
            omega)
          cases hloop : loop hf fuel (nextIndices a)
              ((nextIndices a).zip (messages.map hf.hash)) m_new with
          | error err =>
            rintro ⟨⟩
            exact hnext hloop
          | ok res => exact nofun
        · exact nofun
    · rw [if_pos hlen]
      exact nofun

/-! ## Soundness -/

/-- The round gives one digest for each index of the next round. -/
def Kept (a : List ℤ) : Prop := (steps (a.map pairOf)).length = (nextIndices a).length

instance : DecidablePred Kept := fun a =>
  inferInstanceAs (Decidable ((steps (a.map pairOf)).length = (nextIndices a).length))

/-- No round drops a digest. -/
def Aligned (a : List ℤ) : Prop := ∀ k, Kept (nextIndices^[k] a)

theorem Aligned.next {a : List ℤ} (h : Aligned a) : Aligned (nextIndices a) := fun k => h (k + 1)

theorem runSteps_steps {a : List ℤ} {e : List (ℤ × Digest)} {m m_new : List (Digest × Side)}
    {messages : List (List UInt8)}
    (h : runSteps (steps (a.map pairOf)) e m = .ok (messages, m_new))
    (hlen : e.length = a.length) :
    messages.length = (steps (a.map pairOf)).length
      ∧ ∀ x ∈ e, ∃ level, levelMessage x.2 level ∈ messages := by
  obtain ⟨hcount, -, hmem⟩ := runSteps_spec h (by rw [weight_steps, List.length_map, hlen])
  exact ⟨hcount, hmem⟩

/-- **The digests of a loop that ends with the hash of a tree** are hashes of its
subtrees, if no round drops one. -/
theorem loop_sound {top : Node} {M : List (List UInt8)} (htop : top.Padded)
    (hcf : hf.CollisionFree (top.messages hf ++ M)) (fuel : ℕ) {a : List ℤ}
    {e : List (ℤ × Digest)} {m : List (Digest × Side)} {log : List (List UInt8)}
    (halign : Aligned a) (he : ∀ x ∈ e, x.2.length = hf.digestSize)
    (hloop : loop hf fuel a e m = .ok ([top.hash hf], log)) (hlog : log ⊆ M) :
    ∀ x ∈ e, ∃ n : Node, n.PartOf hf top ∧ x.2 = n.hash hf := by
  induction fuel generalizing a e m log with
  | zero => cases hloop
  | succ fuel ih =>
    obtain ⟨hlen, messages, m_new, hrun, hrest⟩ := loop_succ_eq_ok.1 hloop
    obtain ⟨hcount, hmem⟩ := runSteps_steps hrun hlen
    -- every message of the round has the hash of a subtree
    have hround : messages ⊆ M ∧ ∀ message ∈ messages,
        ∃ n : Node, n.PartOf hf top ∧ hf.hash message = n.hash hf := by
      rcases hrest with ⟨-, -, hroot, rfl⟩ | ⟨-, above, hnext, rfl⟩
      · refine ⟨hlog, fun message hmessage => ⟨top, htop.partOf, ?_⟩⟩
        have := List.mem_map_of_mem (f := hf.hash) hmessage
        rw [← hroot] at this
        exact List.mem_singleton.1 this
      · obtain ⟨hmessages, habove⟩ := List.append_subset.1 hlog
        refine ⟨hmessages, fun message hmessage => ?_⟩
        have hzip : ((nextIndices a).zip (messages.map hf.hash)).map Prod.snd
            = messages.map hf.hash := by
          refine List.map_snd_zip ?_
          rw [List.length_map, hcount]
          exact (halign 0).le
        obtain ⟨x, hx, hhash⟩ : ∃ x ∈ (nextIndices a).zip (messages.map hf.hash),
            x.2 = hf.hash message := by
          rw [← List.mem_map, hzip]
          exact List.mem_map_of_mem hmessage
        have hsize : ∀ y ∈ (nextIndices a).zip (messages.map hf.hash),
            y.2.length = hf.digestSize := by
          intro y hy
          obtain ⟨message', -, hy'⟩ := List.mem_map.1 (List.of_mem_zip hy).2
          rw [← hy', hf.length_hash]
        obtain ⟨n, hn, heq⟩ := ih halign.next hsize hnext habove x hx
        exact ⟨n, hn, hhash ▸ heq⟩
    intro x hx
    obtain ⟨level, hlevel⟩ := hmem x hx
    obtain ⟨n, hn, hhash⟩ := hround.2 _ hlevel
    exact MerkleProof.exists_partOf_of_levelMessage hn hcf (hround.1 hlevel) (he x hx) hhash

/-! ## The indices of the rounds -/

theorem pairOf_fst_div (i : ℤ) : (pairOf i).1 / 2 = i / 2 := by
  rw [pairOf]
  split_ifs
  · rfl
  · simp only
    omega

theorem mem_nextIndices {a : List ℤ} {j : ℤ} : j ∈ nextIndices a ↔ ∃ i ∈ a, i / 2 = j := by
  simp [nextIndices, pairOf_fst_div]

theorem nextIndices_ne_nil {a : List ℤ} (h : a ≠ []) : nextIndices a ≠ [] := by
  obtain ⟨i, a, rfl⟩ := List.exists_cons_of_ne_nil h
  exact List.ne_nil_of_mem (mem_nextIndices.2 ⟨i, List.mem_cons_self, rfl⟩)

theorem nodup_eraseDups {α : Type} [BEq α] [LawfulBEq α] (l : List α) : l.eraseDups.Nodup := by
  induction hn : l.length using Nat.strong_induction_on generalizing l with
  | _ n ih =>
    cases l with
    | nil => exact List.nodup_nil
    | cons x l =>
      rw [List.eraseDups_cons, List.nodup_cons, List.mem_eraseDups]
      refine ⟨by simp, ih _ ?_ _ rfl⟩
      rw [← hn, List.length_cons]
      exact Nat.lt_succ_of_le (List.length_filter_le _ _)

theorem length_eraseDups {α : Type} [BEq α] [LawfulBEq α] [DecidableEq α] (l : List α) :
    l.eraseDups.length = l.toFinset.card := by
  rw [← List.toFinset_card_of_nodup (nodup_eraseDups l)]
  congr 1
  ext x
  simp

/-- Each of the pairs has a step of its own. -/
theorem card_le_length_steps (b : List (ℤ × ℤ)) : b.toFinset.card ≤ (steps b).length := by
  fun_induction steps b with
  | case1 p b ih =>
    rw [List.toFinset_cons, List.toFinset_cons, Finset.insert_idem, List.length_cons]
    exact (Finset.card_insert_le _ _).trans (Nat.succ_le_succ ih)
  | case2 p q b hne ih =>
    rw [List.toFinset_cons, List.length_cons]
    exact (Finset.card_insert_le _ _).trans (Nat.succ_le_succ ih)
  | case3 p => simp
  | case4 => simp

/-- A round never gives too few digests. -/
theorem length_nextIndices_le (a : List ℤ) :
    (nextIndices a).length ≤ (steps (a.map pairOf)).length := by
  rw [nextIndices, List.length_map, length_eraseDups]
  exact card_le_length_steps _

/-- Negative indices and others never meet. -/
theorem loop_mixed (fuel : ℕ) {a : List ℤ} {e : List (ℤ × Digest)} {m : List (Digest × Side)}
    {root : Digest} {log : List (List UInt8)} (hneg : ∃ i ∈ a, i < 0) (hpos : ∃ i ∈ a, 0 ≤ i) :
    loop hf fuel a e m ≠ .ok ([root], log) := by
  induction fuel generalizing a e m log with
  | zero => exact nofun
  | succ fuel ih =>
    intro hloop
    obtain ⟨i, hi, hi0⟩ := hneg
    obtain ⟨j, hj, hj0⟩ := hpos
    have hi' : i / 2 ∈ nextIndices a := mem_nextIndices.2 ⟨i, hi, rfl⟩
    have hj' : j / 2 ∈ nextIndices a := mem_nextIndices.2 ⟨j, hj, rfl⟩
    obtain ⟨hlen, messages, m_new, hrun, hrest⟩ := loop_succ_eq_ok.1 hloop
    rcases hrest with ⟨-, -, hroot, -⟩ | ⟨-, above, hnext, -⟩
    · have hone : (nextIndices a).length ≤ 1 := by
        refine (length_nextIndices_le a).trans ?_
        rw [← (runSteps_steps hrun hlen).1, ← List.length_map hf.hash, ← hroot]
        rfl
      obtain ⟨k, hk⟩ := List.length_eq_one_iff.1
        (le_antisymm hone (List.length_pos_of_mem hi'))
      rw [hk, List.mem_singleton] at hi' hj'
      omega
    · exact ih ⟨_, hi', by omega⟩ ⟨_, hj', by omega⟩ hnext

end BatchMerkleProof

end Sparkz.Merkle
