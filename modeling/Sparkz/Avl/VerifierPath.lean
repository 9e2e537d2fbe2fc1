import Sparkz.Avl.Perform
import Sparkz.Avl.ProofParsing

/-!
# The way of the verifier

The verifier reads a bit for each step down, checks at the leaf that it has come to the right
one, and reads the bits again for a deletion.

* `Reads` — the bits of the proof from some index on, as far as an `Int` counts them.
* `descend_verifier` — the way down follows the bits, to a leaf that has the key or whose gap
  the key falls into.
* `replays_verifier` — the replay of the way gives the comparisons on it.
-/

namespace Sparkz.Avl

open Sparkz.Lib Sparkz.Lib.LeafTree

/-- The proof has these bits from `i` on, and an `Int` can count them. -/
def Reads (proof : List UInt8) : ℕ → List Bool → Prop
  | _, [] => True
  | i, d :: path => i < 2 ^ 31 ∧ i < 8 * proof.length ∧ bitAt proof i = d ∧ Reads proof (i + 1) path

/-- The index of the last step to the right on a way that starts at `i`. -/
def lastRight : List Bool → ℕ → ℤ → ℤ
  | [], _, last => last
  | true :: path, i, last => lastRight path (i + 1) last
  | false :: path, i, _ => lastRight path (i + 1) i

theorem lastRight_of_notMem {path : List Bool} (h : false ∉ path) (i : ℕ) (last : ℤ) :
    lastRight path i last = last := by
  induction path generalizing i with
  | nil => rfl
  | cons d path ih =>
    cases d with
    | false => exact absurd (List.mem_cons_self ..) h
    | true => exact ih (fun hmem => h (List.mem_cons_of_mem _ hmem)) (i + 1)

/-- A step to the right is not before the start. -/
theorem le_lastRight {path : List Bool} (h : false ∈ path) (i : ℕ) (last : ℤ) :
    (i : ℤ) ≤ lastRight path i last := by
  induction path generalizing i last with
  | nil => cases h
  | cons d path ih =>
    by_cases hrest : false ∈ path
    · have hle : ∀ last', (i : ℤ) ≤ lastRight path (i + 1) last' := fun last' =>
        (ih hrest (i + 1) last').trans' (by push_cast; omega)
      cases d with
      | true => exact hle _
      | false => exact hle _
    · cases d with
      | true => exact absurd (List.mem_of_ne_of_mem (by decide) h) hrest
      | false => rw [lastRight, lastRight_of_notMem hrest]

section

variable {P : TreeParams} {operation : Operation} {proof : List UInt8} {i : ℕ} {t : Tree}
  {path : List Bool} {nav nav' : VerifierNav}

theorem Reads.append {more : List Bool} :
    Reads proof i (path ++ more) ↔ Reads proof i path ∧ Reads proof (i + path.length) more := by
  induction path generalizing i with
  | nil => exact (true_and _).to_iff.symm
  | cons d path ih =>
    rw [List.cons_append, Reads, Reads, ih, List.length_cons, ← Nat.add_assoc, Nat.add_right_comm]
    simp only [and_assoc]

/-- The bits that bytes hold are read from where the bytes are. -/
theorem reads_of_packs {bytes : List UInt8} (h : Packs bytes path) {pre : List UInt8}
    (hproof : proof = pre ++ bytes) (hlen : proof.length ≤ 2 ^ 28) :
    Reads proof (8 * pre.length) path := by
  have hread : ∀ (first rest : List Bool), path = first ++ rest →
      Reads proof (8 * pre.length + first.length) rest := by
    intro first rest hsplit
    induction rest generalizing first with
    | nil => trivial
    | cons d rest ih =>
      have hlt : first.length < path.length := by
        rw [hsplit, List.length_append, List.length_cons]
        omega
      have hbytes := h.length
      have htotal : proof.length = pre.length + bytes.length := by rw [hproof, List.length_append]
      refine ⟨by omega, by omega, ?_, ?_⟩
      · rw [hproof, bitAt_append_right, h.bit, hsplit, List.getD_append_right _ _ _ _ (le_refl _),
          Nat.sub_self]
        rfl
      · have := ih (first ++ [d]) (by rw [hsplit, List.append_assoc]; rfl)
        rwa [List.length_append, List.length_singleton, ← Nat.add_assoc] at this
  exact hread [] path rfl

/-! ## The way down -/

/-- A bit is read within the proof only. -/
theorem proofBit_eq (proof : List UInt8) (x : ℤ) (nav : VerifierNav) :
    proofBit proof x nav = if 0 ≤ x ∧ x < 8 * proof.length then .ok (bitAt proof x.toNat) nav
      else .error .indexOutOfBounds nav := by
  rw [proofBit]
  by_cases hneg : x < 0
  · rw [if_pos hneg, if_neg (by omega)]
    rfl
  · rw [if_neg hneg]
    by_cases hin : x < 8 * proof.length
    · have hlt : x.toNat / 8 < proof.length := by omega
      rw [if_pos ⟨by omega, hin⟩, List.getElem?_eq_getElem hlt, bitAt, List.getD_eq_getElem _ _ hlt]
      rfl
    · rw [if_neg (by omega), List.getElem?_eq_none (by omega)]
      rfl

theorem proofBit_ok (h : i < 8 * proof.length) (nav : VerifierNav) :
    proofBit proof (i : ℤ) nav = .ok (bitAt proof i) nav := by
  rw [proofBit_eq, if_pos ⟨Int.natCast_nonneg i, by exact_mod_cast h⟩, Int.toNat_natCast]

/-- A step of the verifier at an inner node. -/
theorem verifierNextDirectionIsLeft_ok (h₁ : i < 2 ^ 31) (h₂ : i < 8 * proof.length)
    (hnav : nav.directionsIndex = wrapInt i) (key : ADKey) (nodeKey : Option ADKey) :
    ∃ nav', verifierNextDirectionIsLeft proof key nodeKey nav = .ok (bitAt proof i) nav'
      ∧ nav'.directionsIndex = wrapInt ((i + 1 : ℕ) : ℤ)
      ∧ nav'.lastRightStep = (if bitAt proof i then nav.lastRightStep else i)
      ∧ nav'.replayIndex = nav.replayIndex := by
  have hi : nav.directionsIndex = i := by
    rw [hnav]
    exact wrapInt_of_lt (by omega) (by exact_mod_cast h₁)
  obtain ⟨index, last, replay⟩ := nav
  obtain rfl : index = i := hi
  refine ⟨⟨wrapInt ((i + 1 : ℕ) : ℤ), if bitAt proof i then last else i, replay⟩, ?_,
    by simp only, by simp only, by simp only⟩
  show EStateM.bind (proofBit proof (i : ℤ)) _ _ = _
  rw [EStateM.bind, proofBit_ok h₂, Nat.cast_succ]
  cases bitAt proof i with
  | true => rfl
  | false => rfl

/-- What the verifier finds at a leaf. -/
theorem verifierKeyMatchesLeaf_ok {key k n : ADKey} (h : k = key ∨ k < key ∧ key < n)
    (nav : VerifierNav) : verifierKeyMatchesLeaf key k n nav = .ok (decide (k = key)) nav := by
  unfold verifierKeyMatchesLeaf
  rcases h with rfl | ⟨hlt, hnext⟩
  · simp only [compare_eq_iff_eq.2 rfl, decide_true]
    rfl
  · simp only [compare_gt_iff_gt.2 hlt, if_pos hnext, decide_eq_false hlt.ne]
    rfl

/-- **The way of the verifier** follows the bits of the proof. -/
theorem descend_verifier {k n : ADKey} {v : ADValue} (hleaf : leafAt t path = some (k, v, n))
    (hreads : Reads proof i path) (hkey : k = operation.key ∨ k < operation.key ∧ operation.key < n)
    (hnav : nav.directionsIndex = wrapInt i) {act : Option (Action ADKey ADValue)}
    (hact : leafAction P operation (if k = operation.key then some v else none) = .ok act) :
    descend P (verifierNavigation proof) operation t nav
      = .ok (path, act, if k = operation.key then some v else none)
          ⟨wrapInt ((i + path.length : ℕ) : ℤ), lastRight path i nav.lastRightStep,
            nav.replayIndex⟩ := by
  induction t generalizing path i nav with
  | stub l => cases path <;> cases hleaf
  | leaf tag k' v' n' =>
    cases path with
    | cons d path => cases hleaf
    | nil =>
      cases hleaf
      have hmatch : (verifierNavigation proof).keyMatchesLeaf operation.key k n nav = _ :=
        verifierKeyMatchesLeaf_ok hkey nav
      rw [descend_leaf, hmatch]
      simp only [decide_eq_true_eq, hact]
      rw [List.length_nil, Nat.add_zero, lastRight, ← hnav]
  | node tag k' l r b ihl ihr =>
    cases path with
    | nil => cases hleaf
    | cons d path =>
      obtain ⟨h₁, h₂, rfl, hrest⟩ := hreads
      obtain ⟨nav₁, hstep, hindex, hlast, hreplay⟩ :=
        verifierNextDirectionIsLeft_ok h₁ h₂ hnav operation.key none
      have hstep' : (verifierNavigation proof).nextDirectionIsLeft operation.key
          (nodeKey (verifierNavigation proof).mode k') nav = _ := hstep
      rw [descend_node, hstep']
      simp only
      have hlen : i + (bitAt proof i :: path).length = i + 1 + path.length := by
        rw [List.length_cons]
        omega
      rw [hlen]
      cases hd : bitAt proof i with
      | true =>
        rw [hd] at hleaf hlast
        rw [if_pos rfl, ihl hleaf hrest hindex, hlast, hreplay]
        rfl
      | false =>
        rw [hd] at hleaf hlast
        rw [if_neg Bool.false_ne_true, ihr hleaf hrest hindex, hlast, hreplay]
        rfl

/-! ## The replay -/

/-- A replayed step of the verifier. -/
theorem verifierReplayComparison_ok (h₁ : i < 2 ^ 31) (h₂ : i < 8 * proof.length)
    (hnav : nav.replayIndex = wrapInt i) :
    ∃ nav', verifierReplayComparison proof nav
        = .ok (if (i : ℤ) = nav.lastRightStep then 0
            else if !bitAt proof i && (i : ℤ) < nav.lastRightStep then 1 else -1) nav'
      ∧ nav'.replayIndex = wrapInt ((i + 1 : ℕ) : ℤ)
      ∧ nav'.lastRightStep = nav.lastRightStep := by
  have hi : nav.replayIndex = i := by
    rw [hnav]
    exact wrapInt_of_lt (by omega) (by exact_mod_cast h₁)
  obtain ⟨index, last, replay⟩ := nav
  obtain rfl : replay = i := hi
  refine ⟨⟨index, last, wrapInt ((i + 1 : ℕ) : ℤ)⟩, ?_, by simp only, by simp only⟩
  rw [Nat.cast_succ]
  show (if (i : ℤ) = last then _ else _ : EStateM AvlError VerifierNav ℤ) _ = _
  by_cases hlast : (i : ℤ) = last
  · rw [if_pos hlast, if_pos hlast]
    rfl
  · rw [if_neg hlast, if_neg hlast]
    show EStateM.bind (proofBit proof (i : ℤ)) _ _ = _
    rw [EStateM.bind, proofBit_ok h₂]
    show (if (!bitAt proof i && decide ((i : ℤ) < last)) = true then _ else _ :
      EStateM AvlError VerifierNav ℤ) _ = _
    split
    · rfl
    · rfl

/-- **The replay of the verifier** gives the comparisons on its way. -/
theorem replays_verifier (hreads : Reads proof i path) (hnav : nav.replayIndex = wrapInt i)
    (hlast : false ∉ path ∧ nav.lastRightStep < i
      ∨ false ∈ path ∧ ∃ last, nav.lastRightStep = lastRight path i last) :
    Replays (verifierNavigation proof) nav (replayOf path) := by
  induction path generalizing i nav with
  | nil => trivial
  | cons d path ih =>
    obtain ⟨h₁, h₂, hbit, hrest⟩ := hreads
    obtain ⟨nav₁, hstep, hindex, hkept⟩ := verifierReplayComparison_ok h₁ h₂ hnav
    rw [hbit] at hstep
    cases d with
    | true =>
      -- the last step to the right is before this one, or still to come
      have hnext : (i : ℤ) ≠ nav.lastRightStep ∧ (false ∉ path ∧ nav₁.lastRightStep < (i + 1 : ℕ)
          ∨ false ∈ path ∧ ∃ last, nav₁.lastRightStep = lastRight path (i + 1) last) := by
        rw [hkept]
        rcases hlast with ⟨hnot, hlt⟩ | ⟨hmem, last, heq⟩
        · exact ⟨hlt.ne', .inl ⟨fun h => hnot (List.mem_cons_of_mem _ h), by push_cast; omega⟩⟩
        · have hmem' : false ∈ path := List.mem_of_ne_of_mem (by decide) hmem
          have hle := le_lastRight hmem' (i + 1) last
          rw [lastRight] at heq
          rw [heq]
          exact ⟨by push_cast at hle; omega, .inr ⟨hmem', last, rfl⟩⟩
      rw [if_neg hnext.1] at hstep
      exact ⟨nav₁, hstep, ih hrest hindex hnext.2⟩
    | false =>
      rcases hlast with ⟨hnot, _⟩ | ⟨_, last, heq⟩
      · exact absurd (List.mem_cons_self ..) hnot
      · rw [lastRight] at heq
        by_cases hmem : false ∈ path
        · have hle := le_lastRight hmem (i + 1) i
          rw [← heq] at hle
          push_cast at hle
          have hlt : (i : ℤ) < nav.lastRightStep := by omega
          rw [if_neg hlt.ne, if_pos (by simpa using hlt)] at hstep
          rw [replayOf, if_pos hmem]
          exact ⟨nav₁, hstep, ih hrest hindex (.inr ⟨hmem, i, hkept.trans heq⟩)⟩
        · rw [lastRight_of_notMem hmem] at heq
          rw [if_pos heq.symm] at hstep
          rw [replayOf, if_neg hmem]
          refine ⟨nav₁, hstep, ih hrest hindex (.inl ⟨hmem, ?_⟩)⟩
          rw [hkept, heq]
          push_cast
          omega

/-- A replay changes the place of the replay only. -/
theorem replay_verifier (h : Replay (verifierNavigation proof) nav nav') :
    nav'.directionsIndex = nav.directionsIndex := by
  obtain ⟨c, hc⟩ := h
  change (if nav.replayIndex = nav.lastRightStep then _ else _ :
    EStateM AvlError VerifierNav ℤ) nav = _ at hc
  split at hc
  · cases hc
    rfl
  · change EStateM.bind (proofBit proof nav.replayIndex) _ nav = _ at hc
    rw [EStateM.bind, proofBit_eq] at hc
    split at hc
    · rename_i bit nav₁ hbit
      split at hbit
      · cases hbit
        change (if (!bitAt proof nav.replayIndex.toNat
            && decide (nav.replayIndex < nav.lastRightStep)) = true then _ else _ :
          EStateM AvlError VerifierNav ℤ) nav = _ at hc
        split at hc
        · cases hc
          rfl
        · cases hc
          rfl
      · cases hbit
    · cases hc

theorem replays_verifier_kept
    (h : Relation.ReflTransGen (Replay (verifierNavigation proof)) nav nav') :
    nav'.directionsIndex = nav.directionsIndex := by
  induction h with
  | refl => rfl
  | tail _ hstep ih => exact (replay_verifier hstep).trans ih

end

end Sparkz.Avl
