import Sparkz.Merkle.BatchSerializer

/-!
# Batch proofs that are decided

The check of a batch proof takes a digest of the proof for every index without its neighbour.
It throws when none is left, and does not end when there are digests and no index.

* `taken`, `given` — the digests that a round takes and the hashes that it gives.
* `Suffices` — the digests are enough for the rounds down to a single hash.
* `loop_decides_iff` — the rounds end with enough digests only.
* `valid_decides_iff` — the proofs on which there is an answer.
-/

namespace Sparkz.Merkle.BatchMerkleProof

open Sparkz.Avl (Digest CryptographicHash)
open Sparkz.Lib (exists_map_eq_ok)

/-! ## What the rounds need -/

/-- The digests of the proof that a round takes. -/
def taken (a : List ℤ) : ℕ := (steps (a.map pairOf)).count false

/-- The hashes that a round gives. -/
def given (a : List ℤ) : ℕ := (steps (a.map pairOf)).length

/-- The digests that the first rounds take. -/
def takenBy (a : List ℤ) (rounds : ℕ) : ℕ :=
  ((List.range rounds).map fun j => taken (nextIndices^[j] a)).sum

/-- After some rounds one gives a single hash, and so many digests are enough for them. -/
def Suffices (a : List ℤ) (digests : ℕ) : Prop :=
  ∃ k, given (nextIndices^[k] a) ≤ 1 ∧ takenBy a (k + 1) ≤ digests

variable {hf : CryptographicHash} {a : List ℤ} {e : List (ℤ × Digest)} {m : List (Digest × Side)}

theorem takenBy_succ (a : List ℤ) (rounds : ℕ) :
    takenBy a (rounds + 1) = taken a + takenBy (nextIndices a) rounds := by
  simp [takenBy, List.range_succ_eq_map, Function.comp_def]

/-- A round succeeds if there are digests enough. -/
theorem exists_runSteps_iff {l : List Bool} (he : e.length = weight l) :
    (∃ res, runSteps l e m = .ok res) ↔ l.count false ≤ m.length := by
  fun_induction runSteps l e m with
  | case1 e m => simp
  | case2 rest x y e m ih =>
    simp only [weight_cons, if_true, List.length_cons] at he
    have hrest := ih (by omega)
    rw [exists_map_eq_ok, List.count_cons_of_ne (by decide)]
    exact hrest
  | case3 rest x e hash side m ih =>
    simp only [weight_cons, Bool.false_eq_true, if_false, List.length_cons] at he
    have hrest := ih (by omega)
    rw [exists_map_eq_ok, List.count_cons_self, List.length_cons, Nat.succ_le_succ_iff]
    exact hrest
  | case4 => simp
  | case5 l e m hnil hmerge htake hnone =>
    exfalso
    rcases l with _ | ⟨_ | _, rest⟩
    · exact hnil rfl
    · rcases e with _ | ⟨x, e⟩
      · simp at he
        omega
      · rcases m with _ | ⟨⟨hash, side⟩, m⟩
        · exact hnone rest x e rfl rfl rfl
        · exact htake rest x e hash side m rfl rfl rfl
    · rcases e with _ | ⟨x, _ | ⟨y, e⟩⟩
      · simp at he
        omega
      · simp at he
        omega
      · exact hmerge rest x y e rfl rfl

theorem given_pos (ha : a ≠ []) : 0 < given a := List.length_pos_iff.2 (steps_ne_nil ha)

/-- After a round that gives a single hash each round takes one digest and gives one hash. -/
theorem next_of_given (ha : a ≠ []) (h : given a ≤ 1) :
    given (nextIndices a) ≤ 1 ∧ taken (nextIndices a) = 1 := by
  have hle := (length_nextIndices_le a).trans h
  have hpos := List.length_pos_iff.2 (nextIndices_ne_nil ha)
  obtain ⟨i, hi⟩ := List.length_eq_one_iff.1 (le_antisymm hle hpos)
  rw [hi]
  exact ⟨le_rfl, rfl⟩

/-- **The rounds end** if and only if the digests are enough for them. -/
theorem loop_decides_iff (fuel : ℕ) (ha : a ≠ []) (he : e.length = a.length)
    (hfuel : e.length + m.length < fuel) :
    (∃ res, loop hf fuel a e m = .ok res) ↔ Suffices a m.length := by
  induction fuel generalizing a e m with
  | zero => omega
  | succ fuel ih =>
    have hweight : e.length = weight (steps (a.map pairOf)) := by
      rw [weight_steps, List.length_map, he]
    have hround := exists_runSteps_iff (m := m) hweight
    have hsum := weight_add_count (steps (a.map pairOf))
    change _ ↔ taken a ≤ m.length at hround
    by_cases henough : taken a ≤ m.length
    · obtain ⟨⟨messages, m_new⟩, hrun⟩ := hround.2 henough
      obtain ⟨hcount, hm, -⟩ := runSteps_spec hrun hweight
      change messages.length = given a at hcount
      change m.length = taken a + m_new.length at hm
      have hgiven := given_pos ha
      have hnext := nextIndices_ne_nil ha
      have hle : (nextIndices a).length ≤ given a := length_nextIndices_le a
      have hzip : ((nextIndices a).zip (messages.map hf.hash)).length = (nextIndices a).length := by
        rw [List.length_zip, List.length_map, hcount]
        exact min_eq_left hle
      have hrest := ih (e := (nextIndices a).zip (messages.map hf.hash)) (m := m_new) hnext hzip (by
        change weight _ + taken a = 2 * given a at hsum
        omega)
      by_cases hmore : m_new ≠ [] ∨ 1 < messages.length
      · -- another round follows
        have hiff : (∃ res, loop hf (fuel + 1) a e m = .ok res)
            ↔ ∃ res, loop hf fuel (nextIndices a) ((nextIndices a).zip (messages.map hf.hash)) m_new
              = .ok res := by
          constructor
          · rintro ⟨⟨root, log⟩, hloop⟩
            obtain ⟨-, messages', m_new', hrun', hend⟩ := loop_succ_eq_ok.1 hloop
            rw [hrun] at hrun'
            cases hrun'
            rcases hend with ⟨hnil, hone, -⟩ | ⟨-, above, hnextLoop, -⟩
            · exact absurd hmore (by simp [hnil, hone])
            · exact ⟨_, hnextLoop⟩
          · rintro ⟨⟨root, above⟩, hloop⟩
            exact ⟨_,
              loop_succ_eq_ok.2 ⟨he, messages, m_new, hrun, .inr ⟨hmore, above, hloop, rfl⟩⟩⟩
        rw [hiff, hrest]
        constructor
        · rintro ⟨k, hone, hk⟩
          refine ⟨k + 1, hone, ?_⟩
          rw [takenBy_succ]
          omega
        · rintro ⟨k, hone, hk⟩
          rw [takenBy_succ] at hk
          cases k with
          | zero =>
            -- one hash is left, and digests of the proof
            have hone' : given a ≤ 1 := hone
            obtain ⟨hgivenNext, htakenNext⟩ := next_of_given ha hone'
            have hsome : m_new ≠ [] := hmore.resolve_right (by omega)
            have hpos := List.length_pos_iff.2 hsome
            refine ⟨0, hgivenNext, ?_⟩
            rw [takenBy_succ, htakenNext]
            simpa [takenBy] using Nat.succ_le_of_lt hpos
          | succ k => exact ⟨k, hone, by omega⟩
      · rw [not_or, not_not, not_lt] at hmore
        refine iff_of_true ?_ ⟨0, ?_, ?_⟩
        · exact ⟨_,
            loop_succ_eq_ok.2 ⟨he, messages, m_new, hrun, .inl ⟨hmore.1, hmore.2, rfl, rfl⟩⟩⟩
        · show given a ≤ 1
          omega
        · rw [takenBy_succ]
          simpa [takenBy] using henough
    · refine iff_of_false ?_ ?_
      · rintro ⟨⟨root, log⟩, hloop⟩
        obtain ⟨-, messages, m_new, hrun, -⟩ := loop_succ_eq_ok.1 hloop
        exact henough (hround.1 ⟨_, hrun⟩)
      · rintro ⟨k, -, hk⟩
        rw [takenBy_succ] at hk
        omega

/-! ## Answers -/

/-- Without indices the loop calls itself as long as there are digests. -/
theorem loop_without_indices (fuel : ℕ) (hm : m ≠ []) :
    loop hf fuel [] [] m = .error .stackOverflow := by
  induction fuel with
  | zero => rfl
  | succ fuel ih =>
    have hround : runSteps (steps (([] : List ℤ).map pairOf)) [] m = .ok ([], m) := rfl
    rw [loop, hround]
    simp only [Except.bind, List.map_nil, List.length_nil]
    rw [if_neg (by simp), if_pos (.inl hm)]
    show (loop hf fuel [] [] m).map _ = _
    rw [ih]
    rfl

/-- **The check gives an answer** if and only if there are neither indices nor digests, or there
are indices and enough digests for the rounds down to a single hash. -/
theorem valid_decides_iff (hf : CryptographicHash) (p : BatchMerkleProof)
    (expectedRootHash : Digest) :
    (∃ answer, p.valid hf expectedRootHash = .ok answer)
      ↔ p.indices = [] ∧ p.proofs = []
        ∨ p.indices ≠ [] ∧ Suffices (p.indices.map Prod.fst) p.proofs.length := by
  rw [valid, exists_map_eq_ok, check]
  by_cases hne : p.indices = []
  · have hsorted : p.sorted = [] := by simp [sorted, hne]
    rw [hne, hsorted]
    by_cases hproofs : p.proofs = []
    · rw [hproofs]
      exact iff_of_true ⟨_, rfl⟩ (.inl ⟨rfl, rfl⟩)
    · rw [List.map_nil, loop_without_indices _ hproofs]
      simp [hproofs]
  · have hlength : p.sorted.length = p.indices.length := List.length_insertionSort _ _
    rw [loop_decides_iff _ (by simpa using hne) (by simp [hlength]) (by omega)]
    simp [hne]

/-- A proof of one index without digests, as it is read from bytes. -/
def bareProof : BatchMerkleProof := ⟨[(0, List.replicate 32 0)], []⟩

theorem encodable_bareProof : BatchMerkleProofSerializer.Encodable bareProof where
  index := by simp [bareProof]
  indexDigest := by simp [bareProof, BatchMerkleProofSerializer.digestSize]
  proofDigest := by simp [bareProof]

/-- The check throws on a proof that was accepted. -/
theorem valid_throws :
    ¬∀ bytes p, BatchMerkleProofSerializer.deserialize bytes = .ok p →
      ∀ (hf : CryptographicHash) (expectedRootHash : Digest),
        ∃ answer, p.valid hf expectedRootHash = .ok answer := by
  intro h
  have hread := BatchMerkleProofSerializer.deserialize_serialize encodable_bareProof
    (by rw [encodable_bareProof.length_bytesOf]; decide)
  obtain ⟨answer, hanswer⟩ := h _ _ hread MerkleProof.firstFour []
  cases hanswer

end Sparkz.Merkle.BatchMerkleProof
