import Sparkz.Avl.ProverMap
import Sparkz.Avl.VerifierRun

/-!
# The verifier accepts the proofs of the prover

* `Outcome`, `BatchAVLProver.performed` — the operations that a prover performs, with what they
  return and the digest after each; `BatchAVLVerifier.Accepts` — a verifier does the same.
* `Batch` — operations on a tree one after another, with their directions and the nodes that
  they visit; `Lives.batch` — a prover makes one, `Follows.accepts` — a verifier follows it.
* `new_follows` — the verifier that is constructed from a proof; `Lives.accepts` — it accepts, as
  long as it can count the bits of the proof; `not_complete` — and else it may not.
-/

namespace Sparkz.Avl

open Sparkz.Lib Sparkz.Lib.LeafTree

/-! ## Operations that are performed -/

/-- An operation that was performed: what it returned, and the digest after it. -/
structure Outcome where
  operation : Operation
  old : Option ADValue
  digest : Except AvlError Digest

/-- What a call performs. -/
def BatchAVLProver.outcome (P : TreeParams) (p : BatchAVLProver) :
    BatchAVLProver.Call → Option Outcome
  | .performOneOperation operation =>
      match p.performOneOperation P operation with
      | (.ok old, p') => some ⟨operation, old, (p'.digest P).1⟩
      | (.error _, _) => none
  | _ => none

/-- The operations that a prover performs in the course of calls. -/
def BatchAVLProver.performed (P : TreeParams) :
    List BatchAVLProver.Call → BatchAVLProver → List Outcome
  | [], _ => []
  | c :: calls, p => (p.outcome P c).toList ++ performed P calls (p.call P c).2

/-- A verifier performs the operations too, with the same results, whether or not it is asked
for its digest in between. -/
def BatchAVLVerifier.Accepts (P : TreeParams) (proof : List UInt8) :
    BatchAVLVerifier → List Outcome → Prop
  | _, [] => True
  | v, o :: outcomes =>
      let res := v.performOneOperation P proof o.operation
      res.1 = .ok o.old ∧ (res.2.digest P).1 = o.digest.map some
        ∧ Accepts P proof res.2 outcomes ∧ Accepts P proof (res.2.digest P).2 outcomes

/-- Operations on a tree, one after another: their outcomes, their directions and the old nodes
that they visit. -/
inductive Batch (P : TreeParams) : Tree → List Outcome → List Bool → List Ref → Prop
  | nil (t : Tree) : Batch P t [] [] []
  | cons {t t' : Tree} {operation : Operation} {act : Option (Action ADKey ADValue)} {dh : ℤ}
      {visits V : List Ref} {outcomes : List Outcome} {bits : List Bool} :
      P.InRange operation.key → Chain P.negativeInfinityKey P.positiveInfinityKey t →
      leafAction P operation (t.get operation.key) = .ok act →
      operate t (searchPath operation.key false t) act = some (t', dh, visits) →
      (t'.height : ℤ) = t.height + dh → Batch P t' outcomes bits V →
      Batch P t (⟨operation, t.get operation.key, treeDigest P t'⟩ :: outcomes)
        (searchPath operation.key false t ++ bits) (visits ++ V)

open BatchAVLProver (provenTree)

section

variable {P : TreeParams} {t₀ t : Tree} {V V' : List Ref} {bits : List Bool}
  {outcomes : List Outcome} {proof : List UInt8} {i : ℕ}

/-- A verifier that follows the prover accepts what the prover performs. -/
theorem BatchAVLVerifier.Follows.accepts (hbatch : Batch P t outcomes bits V')
    {v : BatchAVLVerifier} (h : v.Follows P V t i) (hV : V' ⊆ V) (hreads : Reads proof i bits) :
    v.Accepts P proof outcomes := by
  induction hbatch generalizing v i with
  | nil t => trivial
  | cons hkey hchain hact hop hheight _ ih =>
    obtain ⟨hway, hrest⟩ := Reads.append.1 hreads
    obtain ⟨hvisits, hV'⟩ := List.append_subset.1 hV
    obtain ⟨v₁, hrun, hfollows⟩ := h.performed hkey hchain hact hop hheight hvisits hway
    obtain ⟨v₂, hdigest, hfollows'⟩ := hfollows.digest
    rw [Accepts, hrun]
    simp only
    rw [hdigest]
    exact ⟨trivial, rfl, ih hfollows hV' hrest, ih hfollows' hV' hrest⟩

namespace BatchAVLProver

variable {p : BatchAVLProver}

/-- One call of a batch: what it performs, and what it adds to the history. -/
theorem Lives.batchStep (h : p.Lives P t₀ t V) (hrec : p.tree.nav.Records bits) {c : Call}
    (hdirect : c.direct = true) (hproof : c ≠ .generateProof) (hroom : p.RoomFor c) :
    ∃ t' V' more, returns (p.call P c).1 = true ∧ (p.call P c).2.Lives P t₀ t' (V ++ V')
      ∧ (p.call P c).2.tree.nav.Records (bits ++ more)
      ∧ ∀ outcomes bits' W, Batch P t' outcomes bits' W →
        Batch P t ((p.outcome P c).toList ++ outcomes) (more ++ bits') (V' ++ W) := by
  cases c with
  | performOneOperation operation =>
    rw [BatchAVLProver.call, outcome]
    rcases h.step hrec hroom with ⟨e, p₁, hrun, he, _, hp, hrec'⟩
      | ⟨hkey, act, t₁, dh, visits, p₁, hact, hop, hheight, _, hrun, hp, hrec'⟩
    · rw [hrun]
      refine ⟨t, [], [], returns_of_refusal he, ?_, ?_, fun _ _ _ hbatch => hbatch⟩
      · rwa [List.append_nil]
      · rwa [List.append_nil]
    · rw [hrun]
      refine ⟨t₁, visits, _, rfl, hp, hrec', fun outcomes bits' W hbatch => ?_⟩
      obtain ⟨p₂, hdigest, _⟩ := hp.digest
      simp only [hdigest]
      exact .cons hkey (h.stands.chain (hkey.1.trans hkey.2.1)) hact hop hheight hbatch
  | generateProof => exact absurd rfl hproof
  | digest =>
    obtain ⟨p₁, hrun, hp, hnav⟩ := h.digest
    rw [BatchAVLProver.call, hrun]
    refine ⟨t, [], [], ?_, ?_, ?_, fun _ _ _ hbatch => hbatch⟩
    · by_cases hlt : t.height < 256
      · rw [if_pos hlt]
        rfl
      · rw [if_neg hlt]
        rfl
    · rwa [List.append_nil]
    · rw [List.append_nil, hnav]
      exact hrec
  | unauthenticatedLookup key =>
    obtain ⟨old, hrun, _⟩ := h.unauthenticatedLookup key
    rw [BatchAVLProver.call, hrun]
    refine ⟨t, [], [], rfl, ?_, ?_, fun _ _ _ hbatch => hbatch⟩
    · rwa [List.append_nil]
    · rwa [List.append_nil]
  | generateProofForOperations operations => cases hdirect
  | removedNodes => cases hdirect
  | contains key l => cases hdirect

/-- **A prover makes a batch** of the calls between two proofs. -/
theorem Lives.batch {calls : List Call}
    (hcalls : ∀ c ∈ calls, c.direct = true ∧ c ≠ .generateProof) (hcounted : Counted P calls p)
    (h : p.Lives P t₀ t V) (hrec : p.tree.nav.Records bits) :
    ∃ p' t' V' more, run P calls p = some p' ∧ p'.Lives P t₀ t' (V ++ V')
      ∧ p'.tree.nav.Records (bits ++ more) ∧ Batch P t (performed P calls p) more V' := by
  induction calls generalizing p t V bits with
  | nil =>
    exact ⟨p, t, [], [], rfl, by rwa [List.append_nil], by rwa [List.append_nil], .nil t⟩
  | cons c calls ih =>
    obtain ⟨hdirect, hproof⟩ := hcalls c List.mem_cons_self
    obtain ⟨t₁, V₁, more₁, hreturns, hp, hrec', hbatch⟩ :=
      h.batchStep hrec hdirect hproof hcounted.1
    obtain ⟨p', t', V', more, hrun, hp', hrecs, hrest⟩ :=
      ih (fun c hc => hcalls c (List.mem_cons_of_mem _ hc)) hcounted.2 hp hrec'
    refine ⟨p', t', V₁ ++ V', more₁ ++ more, ?_, ?_, ?_, hbatch _ _ _ hrest⟩
    · rw [run, if_pos hreturns]
      exact hrun
    · rwa [← List.append_assoc]
    · rwa [← List.append_assoc]

end BatchAVLProver

/-! ## The verifier of a proof -/

theorem full_of_chain {lo hi : ADKey} (h : Chain lo hi t) : t.Full := by
  induction t generalizing lo hi with
  | stub l => exact h.elim
  | leaf tag k v n => trivial
  | node tag k l r b ihl ihr => exact ⟨ihl h.1, ihr h.2⟩

theorem length_sentinelValue (P : TreeParams) :
    ∀ vl ∈ P.valueLengthOpt, (BatchAVLProver.sentinelValue P).length = vl := by
  intro vl hvl
  have hlen : (BatchAVLProver.sentinelValue P).length = P.valueLengthOpt.getD 0 :=
    List.length_replicate
  rw [hlen, hvl]
  rfl

/-- The bindings of the prover can be packed. -/
theorem BatchAVLProver.Lives.length_entries {p : BatchAVLProver} (h : p.Lives P t₀ t V)
    (hkey : 0 < P.keyLength) :
    ∀ e ∈ t.entries, e.1.length = P.keyLength ∧ ∀ vl ∈ P.valueLengthOpt, e.2.length = vl := by
  intro e he
  have hchain := h.stands.chain ((infinities_lt_iff P).2 hkey)
  have hget := (get_eq_some_iff hchain).2 he
  by_cases hneg : e.1 = P.negativeInfinityKey
  · rw [hneg, h.allowed.sentinel] at hget
    rw [hneg, ← Option.some.inj hget]
    exact ⟨List.length_replicate, length_sentinelValue P⟩
  · obtain ⟨hrange, hfits⟩ := h.allowed.values hneg hget
    exact ⟨hrange.2.2, hfits⟩

/-- **The verifier that is made** from the digest at the last proof and the next proof follows the
prover from there. -/
theorem new_follows {p : BatchAVLProver} (h : p.Lives P t₀ t₀ V) (hkey : 0 < P.keyLength)
    (hheight : t₀.height < 256) {directions : List UInt8}
    (hproof : proof = (pack P (provenTree P t₀ V') ([], false)).1
      ++ [BatchAVLProver.endOfTreeInPackagedProof] ++ directions)
    (hlen : proof.length < 2 ^ 31) {maxNumOperations maxDeletes : Option ℤ}
    (hn : ∀ n ∈ maxNumOperations, n ≤ 2 ^ 30)
    (hlimit : ∀ most ∈ limitFor (treeLabel P.hf t₀ ++ [UInt8.ofNat t₀.height]) maxNumOperations
      maxDeletes, (nodeCount (provenTree P t₀ V') : ℤ) ≤ most)
    {fuel : ℕ} (hfuel : proof.length < fuel) :
    (BatchAVLVerifier.new P proof (treeLabel P.hf t₀ ++ [UInt8.ofNat t₀.height]) maxNumOperations
      maxDeletes fuel).Follows P V' t₀
        (8 * ((pack P (provenTree P t₀ V') ([], false)).1.length + 1)) := by
  have hlt := (infinities_lt_iff P).2 hkey
  have hchain := h.stands.chain hlt
  have hpruned : Pruned (treeLabel P.hf) (Unseen (· ∈ V')) (provenTree P t₀ V') t₀ := by
    have hcut := prune_pruned (treeLabel P.hf) (fun x => decide (x ∈ V')) (full_of_chain hchain)
    simp only [decide_eq_true_eq] at hcut
    exact hcut
  have hpack : Packable P (provenTree P t₀ V') :=
    packable_prune hchain h.stands.balanced List.length_replicate (h.length_entries hkey) _
  have hjoined : Joined (provenTree P t₀ V') none :=
    And.left (joined_prune hchain (treeLabel P.hf) _ fun _ hnone => by cases hnone)
  have hcount : nodeCount (provenTree P t₀ V') < fuel := by
    have := nodeCount_le P (provenTree P t₀ V') false
    have : proof.length = (pack P (provenTree P t₀ V') ([], false)).1.length + 1
        + directions.length := by
      rw [hproof, List.length_append, List.length_append, List.length_singleton]
    omega
  rw [← treeLabel_of_pruned hpruned] at hlimit
  obtain ⟨root, M, heap, hnew, hrep⟩ := new_spec hkey hpack hjoined hproof hlen hn hlimit hcount
  rw [treeLabel_of_pruned hpruned] at hnew
  rw [hnew]
  have hbyte : (UInt8.ofNat t₀.height).toNat = t₀.height := UInt8.toNat_ofNat_of_lt' hheight
  refine ⟨⟨root, _, M, rfl, hrep, hpruned⟩, congrArg Nat.cast hbyte, ?_⟩
  simp only [Nat.cast_mul, Nat.cast_ofNat]

/-- Nothing is performed where there are no keys. -/
theorem Batch.eq_nil (h : Batch P t outcomes bits V) (hkey : ¬ 0 < P.keyLength) :
    outcomes = [] := by
  cases h with
  | nil t => rfl
  | cons hrange _ _ _ _ _ =>
    exact absurd ((infinities_lt_iff P).1 (hrange.1.trans hrange.2.1)) hkey

/-- **The proof of a batch** is accepted, if an `Int` can count its bits and the verifier's limit
on the nodes allows it. -/
theorem BatchAVLProver.Lives.accepts {p : BatchAVLProver} (h : p.Lives P t₀ t₀ V)
    (hbatch : Batch P t₀ outcomes bits V') {directions : List UInt8}
    (hpacks : Packs directions bits)
    (hproof : proof = (pack P (provenTree P t₀ V') ([], false)).1
      ++ [BatchAVLProver.endOfTreeInPackagedProof] ++ directions)
    {d₀ : Digest} (hd₀ : (p.digest P).1 = .ok d₀) (hlen : proof.length ≤ 2 ^ 28)
    {maxNumOperations maxDeletes : Option ℤ} (hn : ∀ n ∈ maxNumOperations, n ≤ 2 ^ 30)
    (hlimit : ∀ most ∈ limitFor d₀ maxNumOperations maxDeletes,
      (nodeCount (provenTree P t₀ V') : ℤ) ≤ most)
    {fuel : ℕ} (hfuel : proof.length < fuel) :
    (BatchAVLVerifier.new P proof d₀ maxNumOperations maxDeletes fuel).Accepts P proof
      outcomes := by
  obtain ⟨p₁, hdigest, _⟩ := h.digest
  rw [hdigest] at hd₀
  by_cases hkey : 0 < P.keyLength
  · by_cases hheight : t₀.height < 256
    · simp only [if_pos hheight] at hd₀
      cases hd₀
      have hfollows :=
        new_follows h hkey hheight hproof (hlen.trans_lt (by norm_num)) hn hlimit hfuel
      have hreads := reads_of_packs hpacks hproof hlen
      rw [List.length_append, List.length_singleton] at hreads
      exact hfollows.accepts hbatch (List.Subset.refl _) hreads
    · simp only [if_neg hheight] at hd₀
      cases hd₀
  · rw [hbatch.eq_nil hkey]
    trivial

end

open BatchAVLProver (Call run oneByteKeys)

/-! ## A proof whose bits cannot be counted -/

namespace BatchAVLVerifier

variable {P : TreeParams} {proof : List UInt8} {v : BatchAVLVerifier} {operation : Operation}

/-- Where the index of the next bit is negative, the first step of an operation throws. -/
theorem Follows.refused {V : List Ref} {k : ADKey} {l r : Tree} {b : Balance} {i : ℕ}
    (h : v.Follows P V (.node none k l r b) i) (hneg : wrapInt i < 0)
    (hkey : P.InRange operation.key) :
    ∃ e v', v.performOneOperation P proof operation = (.error e, v') := by
  obtain ⟨x, s, M, htop, hrep, hp⟩ := h.root
  have hview : ∃ o lx rx, v.tree.heap[x]? = some o
      ∧ o.content.view = .internalNode none lx rx b := by
    cases hp with
    | cut hid =>
      obtain ⟨y, hy, _⟩ := hid
      exact absurd hy List.not_mem_nil
    | node tag k b hl hr =>
      obtain ⟨isNew, lx, rx, _, _, ⟨o, ho, hc, _⟩, _⟩ := hrep
      exact ⟨o, lx, rx, ho, hc ▸ view_nodeContent⟩
  obtain ⟨o, lx, rx, ho, hview⟩ := hview
  set start := { v.tree with nav :=
    { v.tree.nav with replayIndex := v.tree.nav.directionsIndex } } with hstart
  have hindex : start.nav.directionsIndex < 0 := by
    rw [← h.index] at hneg
    exact hneg
  have hstep : verifierNextDirectionIsLeft proof operation.key none start.nav
      = .error .indexOutOfBounds start.nav := by
    have hbit : proofBit proof start.nav.directionsIndex start.nav
        = .error .indexOutOfBounds start.nav := by
      rw [proofBit, if_pos hindex]
      rfl
    show EStateM.bind (proofBit proof start.nav.directionsIndex) _ start.nav = _
    rw [EStateM.bind, hbit]
  have hrun : ∃ s', performOperation P (verifierNavigation proof) operation x start
      = .error .indexOutOfBounds s' := by
    set cleared : TreeState VerifierNav := { start with savedNode := none } with hcleared
    have hmodify : modifyHelper P (verifierNavigation proof) operation (start.heap.length + 1) x
        cleared = .error .indexOutOfBounds cleared := by
      rw [modifyHelper, bind_ok (getView_ok (s := cleared) ho), hview]
      exact bind_error (liftNav_error (s := cleared) hstep)
    refine ⟨cleared, ?_⟩
    rw [performOperation, bind_ok (modify_ok _ _), bind_ok (get_ok _)]
    exact bind_error hmodify
  obtain ⟨s', hrun⟩ := hrun
  refine ⟨.indexOutOfBounds, ⟨s', none⟩, ?_⟩
  rw [performOneOperation, htop]
  simp only [← hstart]
  rw [returnResult_inRange hkey, hrun]

end BatchAVLVerifier

/-- A value is inserted, and looked up. -/
def insertAndLookup (P : TreeParams) : List Call :=
  [.performOneOperation (.insert ⟨[5]⟩ (BatchAVLProver.sentinelValue P)),
    .performOneOperation (.lookup ⟨[5]⟩)]

section

variable {P : TreeParams}

theorem inRange_five (hkey : P.keyLength = 1) : P.InRange ⟨[5]⟩ := by
  have hneg : P.negativeInfinityKey = ⟨[0]⟩ := by
    rw [TreeParams.negativeInfinityKey, hkey]
    rfl
  have hpos : P.positiveInfinityKey = ⟨[255]⟩ := by
    rw [TreeParams.positiveInfinityKey, hkey]
    rfl
  rw [TreeParams.InRange, hneg, hpos, hkey]
  decide

/-- The tree of a new prover. -/
def firstTree (P : TreeParams) : Tree :=
  .leaf (some 0) P.negativeInfinityKey (BatchAVLProver.sentinelValue P) P.positiveInfinityKey

/-- The tree after the insertion. -/
def secondTree (P : TreeParams) : Tree :=
  .node none ⟨[5]⟩ (.leaf none P.negativeInfinityKey (BatchAVLProver.sentinelValue P) ⟨[5]⟩)
    (.leaf none ⟨[5]⟩ (BatchAVLProver.sentinelValue P) P.positiveInfinityKey) 0

theorem get_firstTree (hkey : P.keyLength = 1) : (firstTree P).get ⟨[5]⟩ = none := by
  rw [firstTree, LeafTree.get, entries_leaf,
    List.find?_cons_of_neg (by simpa using (inRange_five hkey).1.ne)]
  rfl

theorem leafAction_insert (hkey : P.keyLength = 1) :
    leafAction P (.insert ⟨[5]⟩ (BatchAVLProver.sentinelValue P)) ((firstTree P).get ⟨[5]⟩)
      = .ok (some (.insert ⟨[5]⟩ (BatchAVLProver.sentinelValue P))) := by
  have hfits : lengthFits P (BatchAVLProver.sentinelValue P) = .ok () :=
    lengthFits_ok_iff.2 (length_sentinelValue P)
  rw [get_firstTree hkey, leafAction]
  simp only [Operation.updateFn, hfits]
  rfl

theorem firstTree_lives :
    (BatchAVLProver.new P).Lives P (firstTree P) (firstTree P) [] :=
  BatchAVLProver.new_lives P

theorem operate_insert :
    operate (firstTree P) [] (some (.insert ⟨[5]⟩ (BatchAVLProver.sentinelValue P)))
      = some (secondTree P, 1, [0]) := rfl

/-- The leaf takes more bits in the proof than an `Int` can count. -/
theorem length_pack_firstTree (hkey : P.keyLength = 1) (hval : P.valueLengthOpt = some (2 ^ 28)) :
    (pack P (firstTree P) ([], false)).1.length = 2 ^ 28 + 3 := by
  have hsentinel := length_sentinelValue P _ hval
  have hneg : P.negativeInfinityKey.bytes.length = 1 := hkey ▸ List.length_replicate
  have hpos : P.positiveInfinityKey.bytes.length = 1 := hkey ▸ List.length_replicate
  rw [ADValue.length] at hsentinel
  simp only [firstTree, pack, packLeaf, hval, List.nil_append, List.length_append,
    List.length_singleton, hsentinel, hneg, hpos, Option.isNone_some, Bool.false_eq_true,
    if_false, List.length_nil]
  omega

/-- The insertion and the lookup, in a new prover: the insertion visits the leaf, and the lookup
has one bit. -/
theorem insertAndLookup_run (hkey : P.keyLength = 1) :
    ∃ p' t' V digest digest' old, run P (insertAndLookup P) (BatchAVLProver.new P) = some p'
      ∧ (BatchAVLProver.new P).performed P (insertAndLookup P)
        = [⟨.insert ⟨[5]⟩ (BatchAVLProver.sentinelValue P), none, digest⟩,
          ⟨.lookup ⟨[5]⟩, old, digest'⟩]
      ∧ p'.Lives P (firstTree P) t' (0 :: V)
      ∧ p'.tree.nav.Records [false] := by
  have hrange := inRange_five hkey
  have h := firstTree_lives (P := P)
  have hrec : (BatchAVLProver.new P).tree.nav.Records [] := .nil rfl rfl
  have hroom : (BatchAVLProver.new P).HasRoom
      (.insert ⟨[5]⟩ (BatchAVLProver.sentinelValue P)) :=
    (h.stands.hasRoom_iff hrec).2 (by simp [firstTree, searchPath])
  rcases h.step hrec hroom with
    ⟨e, p₁, _, _, hact, _⟩ | ⟨_, act, t₁, dh, visits, p₁, hact, hop, _, _, hrun, hp, hrec₁⟩
  · cases (leafAction_insert hkey).symm.trans (hact hrange)
  · cases (leafAction_insert hkey).symm.trans hact
    cases operate_insert.symm.trans hop
    rw [Operation.key, get_firstTree hkey] at hrun
    have hway : searchPath ⟨[5]⟩ false (secondTree P) = [false] := by
      rw [secondTree, searchPath, if_neg (lt_irrefl _), if_pos rfl]
      rfl
    have hroom₁ : p₁.HasRoom (.lookup ⟨[5]⟩) := by
      refine (hp.stands.hasRoom_iff hrec₁).2 ?_
      rw [Operation.key, hway]
      simp [firstTree, searchPath]
    rcases hp.step hrec₁ hroom₁ with
      ⟨e, p₂, _, _, hact', _⟩ | ⟨_, act, t₂, dh, visits, p₂, hact', hop', _, _, hrun', hp', hrec₂⟩
    · cases hact' hrange
    · rw [Operation.key, hway] at hrec₂
      refine ⟨p₂, t₂, visits, (p₁.digest P).1, (p₂.digest P).1,
        (secondTree P).get ⟨[5]⟩, ?_, ?_, hp', hrec₂⟩
      · simp only [insertAndLookup, run, BatchAVLProver.call, hrun, hrun']
        rfl
      · simp only [insertAndLookup, BatchAVLProver.performed, BatchAVLProver.outcome,
          BatchAVLProver.call, hrun, hrun']
        rfl

/-- The verifier throws at the lookup, whatever its limit on the nodes is. -/
theorem not_accepts (hkey : P.keyLength = 1) (hval : P.valueLengthOpt = some (2 ^ 28))
    (maxNumOperations maxDeletes : Option ℤ) (hn : ∀ n ∈ maxNumOperations, n ≤ 2 ^ 30)
    (hlimit : ∀ d₀ : Digest, ∀ most ∈ limitFor d₀ maxNumOperations maxDeletes, 1 ≤ most) :
    ∃ p' proof d₀, run P (insertAndLookup P) (BatchAVLProver.new P) = some p'
      ∧ (p'.generateProof P).1 = .ok proof
      ∧ ((BatchAVLProver.new P).digest P).1 = .ok d₀
      ∧ ∀ fuel, proof.length < fuel →
        ¬ (BatchAVLVerifier.new P proof d₀ maxNumOperations maxDeletes fuel).Accepts P proof
          ((BatchAVLProver.new P).performed P (insertAndLookup P)) := by
  obtain ⟨p', t', V, digest, digest', old, hrun, hperformed, h', hrec'⟩ := insertAndLookup_run hkey
  obtain ⟨p'', _, hproof, _⟩ := h'.generateProof
  obtain ⟨p₁, hdigest, _⟩ := (firstTree_lives (P := P)).digest
  refine ⟨p', _, _, hrun, by rw [hproof], by rw [hdigest]; rfl, fun fuel hfuel haccepts => ?_⟩
  rw [hperformed] at haccepts
  have hpacked : (pack P (provenTree P (firstTree P) (0 :: V)) ([], false)).1.length
      = 2 ^ 28 + 3 := length_pack_firstTree hkey hval
  have hdirections : p'.tree.nav.directions.length = 1 := hrec'.packs.length
  have hfollows := new_follows firstTree_lives (hkey ▸ Nat.one_pos) (Nat.succ_pos 255) rfl
    (by
      rw [List.length_append, List.length_append, hpacked, hdirections]
      norm_num) hn (hlimit _) hfuel
  rw [hpacked] at hfollows
  have hrange : P.InRange (Operation.insert ⟨[5]⟩ (BatchAVLProver.sentinelValue P)).key :=
    inRange_five hkey
  have hrange' : P.InRange (Operation.lookup ⟨[5]⟩).key := inRange_five hkey
  obtain ⟨v₁, hinsert, hfollows₁⟩ := hfollows.performed hrange
    (firstTree_lives.stands.chain (hrange.1.trans hrange.2.1)) (leafAction_insert hkey)
    operate_insert rfl (List.cons_subset_cons 0 (List.nil_subset V)) trivial
  have hneg : wrapInt ((8 * (2 ^ 28 + 3 + 1) + 0 : ℕ) : ℤ) < 0 := by
    norm_num [wrapInt, Int.bmod]
  obtain ⟨e, v₂, hlookup⟩ := hfollows₁.refused hneg hrange'
  rw [BatchAVLVerifier.Accepts, hinsert] at haccepts
  have hthrown := haccepts.2.2.1.1
  rw [hlookup] at hthrown
  cases hthrown

theorem longValues_lt : ∀ vl ∈ some (2 ^ 28), vl < 2 ^ 31 := by
  intro vl hvl
  cases hvl
  norm_num

/-- Keys of one byte and values of 2 ^ 28 bytes. -/
def longValues : TreeParams :=
  { oneByteKeys with
    valueLengthOpt := some (2 ^ 28)
    valueLength_lt := longValues_lt }

/-- A proof of more bytes may be refused. -/
theorem not_complete :
    ∃ p' proof d₀,
      run longValues (insertAndLookup longValues) (BatchAVLProver.new longValues) = some p'
      ∧ (p'.generateProof longValues).1 = .ok proof
      ∧ ((BatchAVLProver.new longValues).digest longValues).1 = .ok d₀
      ∧ ∀ fuel, proof.length < fuel →
        ¬ (BatchAVLVerifier.new longValues proof d₀ none none fuel).Accepts longValues proof
          ((BatchAVLProver.new longValues).performed longValues (insertAndLookup longValues)) :=
  not_accepts rfl rfl none none (fun _ hnone => by cases hnone) fun _ _ hnone => by cases hnone

end

end Sparkz.Avl
