import Sparkz.Avl.ProofReading

/-!
# What the verifier reads from any bytes

* `LeafRead`, `Scanned` — what is known about the lengths of the fields of a leaf, and of all
  leaves of a tree, whatever the bytes are that it is read from: a field is short only if the
  position has overflown, and then all of the leaf is.
* `Stacked` — the trees of the nodes on the stack; `parseNode_stacked`, `parseNodes_stacked` —
  the loop over the proof keeps them.
* `new_reads` — a verifier that has a tree stands for one with the label of its digest.
-/

namespace Sparkz.Avl

open Sparkz.Lib Sparkz.Lib.LeafTree

/-! ## Lengths of slices -/

theorem length_slice (proof : List UInt8) (start stop : ℤ) :
    (slice proof start stop).length = min stop.toNat proof.length - start.toNat := by
  rw [slice, List.length_drop, List.length_take]

theorem length_mkValue (bytes : List UInt8) :
    (mkValue bytes).length = min (2 ^ 31 - 1) bytes.length := by
  rw [ADValue.length, mkValue, List.length_take]

/-- An `Int` that overflows at most once. -/
theorem wrapInt_cases {x : ℤ} (h₀ : -2 ^ 31 ≤ x) (h : x < 3 * 2 ^ 31) :
    x < 2 ^ 31 ∧ wrapInt x = x ∨ 2 ^ 31 ≤ x ∧ wrapInt x = x - 2 ^ 32 := by
  rw [wrapInt, Int.bmod_def]
  norm_num
  omega

/-! ## A leaf -/

/-- The lengths of a leaf that was read.  If the position overflows, the leaf is too short for
its keys alone. -/
def LeafRead (P : TreeParams) (k : ADKey) (v : ADValue) (n : ADKey) : Option ADKey → Prop
  | none => k.length = P.keyLength ∧ n.length = P.keyLength
      ∨ k.length + v.length + n.length < 2 * P.keyLength
  | some next => k = next ∧ (n.length = P.keyLength ∨ v.length + n.length < P.keyLength)

section

variable {P : TreeParams} {proof : List UInt8} {st st' : ParseState} {s s' : TreeState VerifierNav}

theorem byteAt_ne_none {i : ℤ} (h : byteAt proof i ≠ none) : 0 ≤ i ∧ i < proof.length := by
  unfold byteAt at h
  split_ifs at h with hneg
  · exact absurd rfl h
  · obtain ⟨b, hb⟩ := Option.ne_none_iff_exists'.1 h
    have hlt := (List.getElem?_eq_some_iff.1 hb).1
    omega

/-- A value that was read from a position on, with a byte after it.  At a negative position, it
lacks the bytes in front of the proof. -/
theorem valueLength_of_run {m : ℤ} (hm : m < 2 ^ 31) {len q : ℤ}
    (hm₀ : -2 ^ 31 ≤ m) (hrun : parseValueLength P proof m s = .ok (len, q) s')
    (hnext : byteAt proof (wrapInt (q + len)) ≠ none) :
    s' = s ∧ (mkValue (slice proof q (wrapInt (q + len)))).length < 2 ^ 31
      ∧ (0 ≤ m ∧ m ≤ proof.length
        ∨ m < 0 ∧ (mkValue (slice proof q (wrapInt (q + len)))).length < m + 2 ^ 31) := by
  have hnext := byteAt_ne_none hnext
  rw [length_mkValue, length_slice]
  rw [parseValueLength] at hrun
  cases hopt : P.valueLengthOpt with
  | some vl =>
    have hvl := P.valueLength_lt vl hopt
    rw [hopt] at hrun
    cases hrun
    have hstop := wrapInt_cases (x := m + vl) (by omega) (by omega)
    generalize wrapInt (m + vl) = stop at *
    refine ⟨rfl, by omega, ?_⟩
    omega
  | none =>
    rw [hopt] at hrun
    simp only at hrun
    split at hrun
    · cases hrun
    · rename_i hlength
      cases hrun
      have hstart := wrapInt_cases (x := m + 4) (by omega) (by omega)
      rw [length_slice] at hlength
      exact ⟨rfl, by omega, .inl (by omega)⟩

/-- The keys of a leaf are both read, or overflow. -/
theorem positions_of_keys {K : ℕ} {i j m : ℤ} (hK : K < 2 ^ 31) (hi : 0 ≤ i ∨ i = -2 ^ 31)
    (hj : i + K < 2 ^ 31 ∧ j = i + K ∨ 2 ^ 31 ≤ i + K ∧ j = i + K - 2 ^ 32)
    (hm : j + K < 2 ^ 31 ∧ m = j + K ∨ 2 ^ 31 ≤ j + K ∧ m = j + K - 2 ^ 32)
    (hlt : i < 2 ^ 31) :
    0 ≤ i ∧ j = i + K ∧ m = j + K ∨ 0 ≤ i ∧ j = i + K ∧ m < 0 ∧ m < K - 2 ^ 31
      ∨ j < 0 ∧ m ≤ 2 * K - 2 ^ 31 := by
  omega

/-- The next byte after a leaf is there: so are the fields of the leaf. -/
theorem leafRead_of_run (hkey : P.keyLength < 2 ^ 31) (hi₀ : 0 ≤ st.i) (hi : st.i < 2 ^ 31)
    (hrun : parseNode P proof st BatchAVLProver.leafInPackagedProof s = .ok st' s')
    (hnext : byteAt proof st'.i ≠ none) :
    ∃ k v n, s' = { s with heap := s.heap ++ [⟨false, none, .verifierLeaf k v n⟩] }
      ∧ st'.s = s.heap.length :: st.s ∧ st'.previousLeaf = some n
      ∧ LeafRead P k v n st.previousLeaf ∧ st'.i < 2 ^ 31 := by
  obtain ⟨numNodes, stack, i, previousLeaf⟩ := st
  have hlabel : BatchAVLProver.leafInPackagedProof ≠ BatchAVLProver.labelInPackagedProof := by
    decide
  rw [parseNode, if_neg hlabel, if_pos rfl] at hrun
  simp only at hi₀ hi hrun
  have h₁ := wrapInt_cases (x := i + 1) (by omega) (by omega)
  have hrange₁ : 0 ≤ wrapInt (i + 1) ∨ wrapInt (i + 1) = -2 ^ 31 := by omega
  generalize wrapInt (i + 1) = i₁ at *
  cases previousLeaf with
  | none =>
    simp only at hrun
    have h₂ := wrapInt_cases (x := i₁ + P.keyLength) (by omega) (by omega)
    generalize wrapInt (i₁ + P.keyLength) = i₂ at *
    have h₃ := wrapInt_cases (x := i₂ + P.keyLength) (by omega) (by omega)
    generalize wrapInt (i₂ + P.keyLength) = i₃ at *
    cases hval : parseValueLength P proof i₃ s with
    | error e s₁ =>
      rw [bind_error hval] at hrun
      cases hrun
    | ok res s₁ =>
      obtain ⟨len, q⟩ := res
      rw [bind_ok hval] at hrun
      cases hrun
      obtain ⟨rfl, hvalue, hplace⟩ := valueLength_of_run (by omega) (by omega) hval hnext
      refine ⟨_, _, _, rfl, rfl, rfl, ?_, wrapInt_lt _⟩
      simp only [LeafRead, ADKey.length, length_slice]
      generalize (mkValue (slice proof q (wrapInt (q + len)))).length = V at *
      rcases positions_of_keys hkey hrange₁ h₂ h₃ (by omega) with ⟨_, _, _⟩ | ⟨_, _, _, _⟩ | ⟨_, _⟩
      · left
        omega
      · right
        omega
      · right
        omega
  | some next =>
    simp only at hrun
    have h₂ := wrapInt_cases (x := i₁ + P.keyLength) (by omega) (by omega)
    generalize wrapInt (i₁ + P.keyLength) = i₂ at *
    cases hval : parseValueLength P proof i₂ s with
    | error e s₁ =>
      rw [bind_error hval] at hrun
      cases hrun
    | ok res s₁ =>
      obtain ⟨len, q⟩ := res
      rw [bind_ok hval] at hrun
      cases hrun
      obtain ⟨rfl, hvalue, hplace⟩ := valueLength_of_run (by omega) (by omega) hval hnext
      refine ⟨_, _, _, rfl, rfl, rfl, ⟨rfl, ?_⟩, wrapInt_lt _⟩
      simp only [ADKey.length, length_slice]
      generalize (mkValue (slice proof q (wrapInt (q + len)))).length = V at *
      omega

/-- The next byte after a label is there: so is the label. -/
theorem labelRead_of_run (hlabel : P.labelLength < 2 ^ 31) (hi₀ : 0 ≤ st.i) (hi : st.i < 2 ^ 31)
    (hrun : parseNode P proof st BatchAVLProver.labelInPackagedProof s = .ok st' s')
    (hnext : byteAt proof st'.i ≠ none) :
    ∃ l, s' = { s with heap := s.heap ++ [⟨false, some l, .labelOnlyNode l⟩] }
      ∧ st'.s = s.heap.length :: st.s ∧ st'.previousLeaf = none
      ∧ l.length = P.labelLength ∧ st'.i < 2 ^ 31 := by
  obtain ⟨numNodes, stack, i, previousLeaf⟩ := st
  rw [parseNode, if_pos rfl] at hrun
  simp only at hi₀ hi hrun
  cases hrun
  have hnext := byteAt_ne_none hnext
  have h₁ := wrapInt_cases (x := i + 1) (by omega) (by omega)
  generalize wrapInt (i + 1) = i₁ at *
  have h₂ := wrapInt_cases (x := i₁ + P.labelLength) (by omega) (by omega)
  refine ⟨_, rfl, rfl, rfl, ?_, wrapInt_lt _⟩
  rw [length_slice]
  simp only at hnext
  omega

end

/-! ## The stack -/

/-- What is known about the lengths in a tree that was read. -/
def Scanned (P : TreeParams) : Tree → Option ADKey → Prop
  | .stub l, _ => l.length = P.labelLength
  | .leaf _ k v n, previous => LeafRead P k v n previous
  | .node _ _ l r _, previous => Scanned P l previous ∧ Scanned P r (nextAfter l previous)

/-- The nodes on the stack stand for trees that were read one after another, and own different
nodes; the leaf that was read last had the next key `previous`. -/
inductive Stacked (P : TreeParams) (heap : Heap) : List Ref → Option ADKey → Set Ref → Prop
  | nil : Stacked P heap [] none ∅
  | push {xs : List Ref} {previous : Option ADKey} {M Mt : Set Ref} {t : Tree} {x : Ref} :
      Stacked P heap xs previous M → Represents .verifier P.hf heap t x Mt →
      Scanned P t previous → (∀ y ∈ Mt, y ∉ M) →
      Stacked P heap (x :: xs) (nextAfter t previous) (Mt ∪ M)

/-- All labels have their length. -/
theorem Scanned.length_label {P : TreeParams} {t : Tree} {previous : Option ADKey}
    (h : Scanned P t previous) : (treeLabel P.hf t).length = P.labelLength := by
  cases t with
  | stub l => exact h
  | leaf tag k v n => exact P.hf.length_hash _
  | node tag k l r b => exact P.hf.length_hash _

section

variable {P : TreeParams} {proof : List UInt8} {st st' : ParseState} {s s' : TreeState VerifierNav}
  {heap heap' : Heap} {xs : List Ref} {previous : Option ADKey} {M : Set Ref}

theorem Stacked.lt (h : Stacked P heap xs previous M) {y : Ref} (hy : y ∈ M) : y < heap.length := by
  induction h with
  | nil => exact absurd hy (Set.notMem_empty y)
  | push _ hrep _ _ ih =>
    rcases hy with hy | hy
    · exact hrep.footprint_lt hy
    · exact ih hy

/-- New nodes do not matter. -/
theorem Stacked.append (h : Stacked P heap xs previous M) (o : Node) :
    Stacked P (heap ++ [o]) xs previous M := by
  induction h with
  | nil => exact .nil
  | push _ hrep hscan hapart ih =>
    have hstep := step_append .verifier heap o ∅
    exact .push ih (hrep.step hstep fun _ _ => Set.notMem_empty _) hscan hapart

/-- A tree of one new node is put on the stack. -/
theorem Stacked.push_new (h : Stacked P heap xs previous M) {o : Node} {t : Tree}
    (hyields : Yields .verifier P.hf heap (heap ++ [o]) ∅ [] t heap.length)
    (hscan : Scanned P t previous) :
    ∃ M', Stacked P (heap ++ [o]) (heap.length :: xs) (nextAfter t previous) M' := by
  obtain ⟨_, Mt, hrep, hnew⟩ := hyields
  refine ⟨_, .push (h.append o) hrep hscan fun y hy hmem => ?_⟩
  rcases hnew y hy with hempty | hle
  · exact absurd hempty (Set.notMem_empty y)
  · exact absurd (h.lt hmem) (not_lt.2 hle)

/-- The two last trees become the children of a new node. -/
theorem Stacked.push_node {right left : Ref} (h : Stacked P heap (right :: left :: xs) previous M)
    (b : Balance) :
    ∃ M', Stacked P (heap ++ [⟨false, none, .internalVerifierNode left right b⟩])
      (heap.length :: xs) previous M' := by
  cases h with
  | push hleft hr hscanr hapartr =>
    cases hleft with
    | @push _ _ M₀ _ _ _ hrest hl hscanl hapartl =>
      obtain ⟨_, M', hrep, hnew⟩ := yields_node hl hr (fun y hyl hyr => hapartr y hyr (.inl hyl))
        none P.negativeInfinityKey b
      have hapart : ∀ y ∈ M', y ∉ M₀ := by
        intro y hy hmem
        rcases hnew y hy with (hyl | hyr) | hle
        · exact hapartl y hyl hmem
        · exact hapartr y hyr (.inr hmem)
        · exact absurd (hrest.lt hmem) (not_lt.2 hle)
      have hnode := Stacked.push (hrest.append _) hrep (And.intro hscanl hscanr) hapart
      exact ⟨_, hnode⟩

/-- **One round** keeps the stack, if there is another byte after it. -/
theorem parseNode_stacked (hkey : P.keyLength < 2 ^ 31) (hlabel : P.labelLength < 2 ^ 31)
    {n : UInt8} (hrun : parseNode P proof st n s = .ok st' s') (hnext : byteAt proof st'.i ≠ none)
    (hst : Stacked P s.heap st.s st.previousLeaf M) (hi₀ : 0 ≤ st.i) (hi : st.i < 2 ^ 31) :
    (∃ M', Stacked P s'.heap st'.s st'.previousLeaf M') ∧ st'.i < 2 ^ 31
      ∧ ∃ heap', s' = { s with heap := heap' } := by
  by_cases hn : n = BatchAVLProver.labelInPackagedProof
  · subst hn
    obtain ⟨l, rfl, hs, hprevious, hl, hi'⟩ := labelRead_of_run hlabel hi₀ hi hrun hnext
    rw [hs, hprevious]
    exact ⟨hst.push_new (yields_stub P.hf s.heap l) hl, hi', _, rfl⟩
  · by_cases hn' : n = BatchAVLProver.leafInPackagedProof
    · subst hn'
      obtain ⟨k, v, next, rfl, hs, hprevious, hread, hi'⟩ := leafRead_of_run hkey hi₀ hi hrun hnext
      rw [hs, hprevious]
      exact ⟨hst.push_new (yields_leaf P.hf s.heap none k v next) hread, hi', _, rfl⟩
    · rw [parseNode_internal hn hn'] at hrun
      split at hrun
      · rename_i right left rest hstack
        cases hrun
        rw [hstack] at hst
        exact ⟨hst.push_node n.toInt8, wrapInt_lt _, _, rfl⟩
      · cases hrun

/-- Where the loop goes on, there is a byte. -/
theorem byteAt_of_parseNodes {limit : Option ℤ} {fuel : ℕ}
    (hrun : parseNodes P proof limit fuel st s = .ok st' s') : byteAt proof st.i ≠ none := by
  intro hnone
  cases fuel with
  | zero => cases hrun
  | succ fuel =>
    rw [parseNodes, bind_error (by rw [proofByte_eq, hnone])] at hrun
    cases hrun

/-- **The loop over the proof** keeps the stack. -/
theorem parseNodes_stacked (hkey : P.keyLength < 2 ^ 31) (hlabel : P.labelLength < 2 ^ 31)
    {limit : Option ℤ} {fuel : ℕ} (hst : Stacked P s.heap st.s st.previousLeaf M)
    (hi : st.i < 2 ^ 31) (hrun : parseNodes P proof limit fuel st s = .ok st' s') :
    (∃ M', Stacked P s'.heap st'.s st'.previousLeaf M')
      ∧ ∃ heap', s' = { s with heap := heap' } := by
  induction fuel generalizing st s M with
  | zero => cases hrun
  | succ fuel ih =>
    have hbyte := byteAt_of_parseNodes hrun
    obtain ⟨n, hn⟩ := Option.ne_none_iff_exists'.1 hbyte
    have hread : proofByte proof st.i s = .ok n s := by rw [proofByte_eq, hn]
    rw [parseNodes, bind_ok hread] at hrun
    split_ifs at hrun with hend
    · cases hrun
      exact ⟨⟨M, hst⟩, _, rfl⟩
    · simp only at hrun
      split_ifs at hrun with hlimit
      · cases hrun
      · cases hround : parseNode P proof { st with numNodes := wrapInt (st.numNodes + 1) } n s with
        | error e s₁ =>
          rw [bind_error hround] at hrun
          cases hrun
        | ok st₁ s₁ =>
          rw [bind_ok hround] at hrun
          obtain ⟨⟨M₁, hst₁⟩, hi₁, heap₁, rfl⟩ := parseNode_stacked hkey hlabel hround
            (byteAt_of_parseNodes hrun) hst (byteAt_ne_none hbyte).1 hi
          obtain ⟨hst', heap', rfl⟩ := ih hst₁ hi₁ hrun
          exact ⟨hst', heap', rfl⟩

/-! ## The tree of a verifier -/

/-- A verifier that has a tree: where it came from. -/
theorem new_of_topNode {d : Digest} {maxNumOperations maxDeletes : Option ℤ} {fuel : ℕ} {x : Ref}
    (htop : (BatchAVLVerifier.new P proof d maxNumOperations maxDeletes fuel).topNode = some x) :
    ∃ s, reconstructedTree P d proof maxNumOperations maxDeletes fuel emptyState = .ok x s
      ∧ BatchAVLVerifier.new P proof d maxNumOperations maxDeletes fuel = ⟨s, some x⟩ := by
  rw [BatchAVLVerifier.new] at htop ⊢
  rw [← emptyState] at htop ⊢
  split at htop
  · rename_i root s hrun
    cases htop
    rw [hrun]
    exact ⟨s, rfl, rfl⟩
  · cases htop

/-- What a reconstruction is made of. -/
theorem reconstructedTree_parts {d : Digest} {maxNumOperations maxDeletes : Option ℤ} {fuel : ℕ}
    {x : Ref}
    (hrun : reconstructedTree P d proof maxNumOperations maxDeletes fuel emptyState = .ok x s) :
    0 < P.keyLength ∧ ∃ limit st s₁, parseNodes P proof limit fuel emptyParse
        { emptyState with rootNodeHeight := (d.getLastD 0).toNat } = .ok st s₁
      ∧ takeRoot P d st s₁ = .ok x s := by
  rw [reconstructedTree] at hrun
  split at hrun
  · cases hrun
  · rename_i hrequire
    refine ⟨(not_not.1 hrequire).2.1, ?_⟩
    rw [bind_ok (modify_ok _ _)] at hrun
    have hloops : ∀ limit : Option ℤ,
        (parseNodes P proof limit fuel emptyParse >>= takeRoot P d)
          { emptyState with rootNodeHeight := (d.getLastD 0).toNat } = .ok x s →
        ∃ limit st s₁, parseNodes P proof limit fuel emptyParse
            { emptyState with rootNodeHeight := (d.getLastD 0).toNat } = .ok st s₁
          ∧ takeRoot P d st s₁ = .ok x s := by
      intro limit hrun
      cases hparse : parseNodes P proof limit fuel emptyParse
          { emptyState with rootNodeHeight := (d.getLastD 0).toNat } with
      | error e s₁ =>
        rw [bind_error hparse] at hrun
        cases hrun
      | ok st s₁ =>
        rw [bind_ok hparse] at hrun
        exact ⟨limit, st, s₁, hparse, hrun⟩
    cases maxNumOperations with
    | none => exact hloops none hrun
    | some n =>
      simp only at hrun
      cases hlimit : maxNodes (d.getLastD 0).toNat n (maxDeletes.getD n) with
      | error e =>
        rw [hlimit] at hrun
        cases hrun
      | ok limit =>
        rw [hlimit] at hrun
        exact hloops (some limit) hrun

/-- **A verifier that has a tree** stands for one that was read, with the label of the digest. -/
theorem new_reads (hkey : P.keyLength < 2 ^ 31) (hlabel : P.labelLength < 2 ^ 31) {l : Digest}
    (hl : l.length = P.labelLength) {height : UInt8} {maxNumOperations maxDeletes : Option ℤ}
    {fuel : ℕ} {x : Ref} (htop : (BatchAVLVerifier.new P proof (l ++ [height]) maxNumOperations
      maxDeletes fuel).topNode = some x) :
    0 < P.keyLength ∧ ∃ t M, Represents .verifier P.hf (BatchAVLVerifier.new P proof
        (l ++ [height]) maxNumOperations maxDeletes fuel).tree.heap t x M
      ∧ Scanned P t none ∧ treeLabel P.hf t = l
      ∧ (BatchAVLVerifier.new P proof (l ++ [height]) maxNumOperations maxDeletes
        fuel).tree.rootNodeHeight = height.toNat
      ∧ ∃ i, (BatchAVLVerifier.new P proof (l ++ [height]) maxNumOperations maxDeletes
        fuel).tree.nav.directionsIndex = wrapInt i := by
  obtain ⟨s, hrun, hnew⟩ := new_of_topNode htop
  rw [hnew]
  obtain ⟨hpos, limit, st, s₁, hparse, hroot⟩ := reconstructedTree_parts hrun
  refine ⟨hpos, ?_⟩
  obtain ⟨⟨M, hst⟩, heap, rfl⟩ :=
    parseNodes_stacked hkey hlabel .nil (by norm_num [emptyParse]) hparse
  obtain ⟨numNodes, stack, i, previousLeaf⟩ := st
  cases stack with
  | nil => cases hroot
  | cons root rest =>
    cases rest with
    | cons _ _ => cases hroot
    | nil =>
      cases hst with
      | push hempty hrep hscan _ =>
        cases hempty
        obtain ⟨heap', hlab, hcached⟩ := label_spec hrep (Nat.lt_succ_of_lt hrep.height_lt)
        unfold takeRoot at hroot
        simp only at hroot
        rw [bind_ok (get_ok _), bind_ok hlab] at hroot
        split at hroot
        · rename_i hprefix
          cases hroot
          refine ⟨_, _, hcached.kept hrep, hscan, ?_, ?_, _, rfl⟩
          · have hlen := (hscan.length_label).trans hl.symm
            exact (List.prefix_of_prefix_length_le hprefix (List.prefix_append l [height])
              hlen.le).eq_of_length hlen
          · show (((l ++ [height]).getLastD 0).toNat : ℤ) = _
            rw [List.getLastD_concat]
        · cases hroot

end

end Sparkz.Avl
