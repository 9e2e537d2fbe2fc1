import Sparkz.Lib.LeafTreeVisits
import Sparkz.Avl.CarefulRuns

/-!
# The verifier's limit on the nodes of a proof

* `Outcome.isDeletion` — an operation that removed its key; `wholeBound` — the limit as a number,
  not as an `Int`.
* `operate_count`, `Batch.visits_count` — how many inner nodes of the tree of the last proof the
  operations of a batch visit.
* `nodeCount_provenTree_le` — the nodes of the next proof.
* `limit_accepts` — the verifier accepts with a limit too; `not_limit_accepts` — unless it cannot
  count the bits of the proof.
-/

namespace Sparkz.Avl

open Sparkz.Lib Sparkz.Lib.LeafTree

/-- Did the operation remove its key? -/
def Outcome.isDeletion (o : Outcome) : Bool :=
  match o.operation.updateFn with
  | none => false
  | some updateFn =>
      match updateFn o.old with
      | .ok none => o.old.isSome
      | _ => false

/-- The limit on the nodes before it is wrapped to an `Int`. -/
def wholeBound (h n d : ℤ) : ℤ :=
  let temp := 1 + max h (Nat.clog 2 n.toNat)
  (n + d) * (2 * h + 1) + d * (temp + temp / 2) + 1

theorem nodeBound_of_lt {h n d : ℤ} (h₀ : 0 ≤ h) (hn : 0 ≤ n) (hd : 0 ≤ d)
    (hlt : wholeBound h n d < 2 ^ 31) : nodeBound h n d = wholeBound h n d := by
  refine wrapInt_of_lt ?_ hlt
  have htemp : 0 ≤ 1 + max h (Nat.clog 2 n.toNat) := by
    have := le_max_left h (Nat.clog 2 n.toNat : ℤ)
    omega
  have h₁ : 0 ≤ (n + d) * (2 * h + 1) := mul_nonneg (by omega) (by omega)
  have h₂ : 0 ≤ d * ((1 + max h (Nat.clog 2 n.toNat)) + (1 + max h (Nat.clog 2 n.toNat)) / 2) :=
    mul_nonneg hd (by omega)
  omega

section

variable {P : TreeParams} {operation : Operation} {inner : Ref → Bool} {n : ℕ} {t t' t₀ : Tree}
  {lo hi : ADKey} {act : Option (Action ADKey ADValue)} {dh : ℤ} {visits V : List Ref}
  {outcomes : List Outcome} {bits : List Bool}

theorem isDeletion_of_leafAction {old : Option ADValue} {digest : Except AvlError Digest}
    (hact : leafAction P operation old = .ok act) :
    Outcome.isDeletion ⟨operation, old, digest⟩ = act.isNone := by
  unfold leafAction at hact
  rw [Outcome.isDeletion]
  cases hfn : operation.updateFn with
  | none =>
    rw [hfn] at hact
    cases hact
    rfl
  | some updateFn =>
    rw [hfn] at hact
    simp only at hact ⊢
    cases hres : updateFn old with
    | error e =>
      rw [hres] at hact
      cases hact
    | ok new =>
      rw [hres] at hact
      cases new with
      | none =>
        cases hact
        cases old <;> rfl
      | some v =>
        simp only at hact
        cases hfits : lengthFits P v with
        | error e =>
          rw [hfits] at hact
          cases hact
        | ok u =>
          rw [hfits] at hact
          cases hact
          rfl

/-- **One operation** visits a way down; one that removes its key visits more. -/
theorem operate_count (hchain : Chain lo hi t) (hbal : t.Balanced) (hcap : Capped inner n t)
    (hlo : lo < operation.key) (hhi : operation.key < hi)
    (hact : leafAction P operation (t.get operation.key) = .ok act)
    (hop : operate t (searchPath operation.key false t) act = some (t', dh, visits)) :
    Capped inner n t' ∧ ∃ W, visits ⊆ W
      ∧ 2 * W.countP inner ≤ 2 * n + if act.isNone then 3 * n + 2 else 0 := by
  cases act with
  | some act =>
    obtain ⟨⟨t₁, changed, up⟩, hmod, heq⟩ := Option.map_eq_some_iff.1 hop
    cases heq
    have hpath := hcap.pathTags_count (searchPath operation.key false t)
    refine ⟨hcap.modifyAt hmod, _, List.Subset.refl _, ?_⟩
    have hnone : (some act).isNone = false := rfl
    rw [hnone, if_neg Bool.false_ne_true]
    omega
  | none =>
    have hs : (t.get operation.key).isSome = true := by
      rcases leafAction_cases hact with h | ⟨_, hs⟩ | ⟨_, h, _⟩ | ⟨_, h, _⟩
      · cases h
      · exact hs
      · cases h
      · cases h
    obtain ⟨more, hreplay⟩ := replayOf_searchPath (meets_of_isSome hchain hlo hhi hs)
    obtain ⟨_, _, hop⟩ := Option.bind_eq_some_iff.1 hop
    obtain ⟨⟨t₁, down, removed⟩, hdel, heq⟩ := Option.map_eq_some_iff.1 hop
    cases heq
    rw [hreplay] at hdel
    -- the first way down is part of what the removal visits
    have hway := pathTags_subset_visits hdel
    have hcount := deleteAt_count hcap hbal hdel
    refine ⟨hcap.deleteAt hdel, removed, List.append_subset.2 ⟨hway, List.Subset.refl _⟩, ?_⟩
    have hnone : (none : Option (Action ADKey ADValue)).isNone = true := rfl
    rw [if_pos hnone]
    omega

/-- **A batch.** -/
theorem Batch.visits_count (h : Batch P t outcomes bits V) (hbal : t.Balanced)
    (hcap : Capped inner n t) :
    ∃ W, V ⊆ W ∧ 2 * W.countP inner
      ≤ 2 * n * outcomes.length + (3 * n + 2) * outcomes.countP Outcome.isDeletion := by
  induction h with
  | nil t => exact ⟨[], List.Subset.refl _, Nat.zero_le _⟩
  | @cons t t₁ operation act dh visits V outcomes bits hkey hchain hact hop _ _ ih =>
    obtain ⟨_, _, _, hop', _, hdone⟩ := operate_spec hchain hbal hkey.1 hkey.2.1 hact
    rw [hop] at hop'
    cases hop'
    obtain ⟨hcap', W, hsub, hcount⟩ :=
      operate_count hchain hbal hcap hkey.1 hkey.2.1 hact hop
    obtain ⟨W', hsub', hcount'⟩ := ih hdone.balanced hcap'
    refine ⟨W ++ W', List.append_subset.2 ⟨fun x hx => List.mem_append_left _ (hsub hx),
      fun x hx => List.mem_append_right _ (hsub' hx)⟩, ?_⟩
    rw [List.countP_append, List.countP_cons, List.length_cons, isDeletion_of_leafAction hact]
    cases act with
    | some act =>
      simp only [Option.isNone_some, Bool.false_eq_true, if_false, Nat.add_zero] at hcount ⊢
      rw [Nat.mul_add, Nat.mul_add]
      omega
    | none =>
      simp only [Option.isNone_none, if_true] at hcount ⊢
      rw [Nat.mul_add, Nat.mul_add, Nat.mul_add (3 * n + 2)]
      omega

/-! ## The nodes of a proof -/

theorem nodeCount_eq (t : Tree) : nodeCount t = 2 * t.innerCount + 1 := by
  induction t with
  | stub l => rfl
  | leaf tag k v n => rfl
  | node tag k l r b ihl ihr =>
    rw [nodeCount, innerCount, ihl, ihr]
    omega

theorem Represents.allTagged {hf : CryptographicHash} {h : Heap} {x : Ref}
    (hr : Represents .prover hf h t x ∅) : t.AllTagged := by
  induction t generalizing x with
  | stub l => trivial
  | leaf tag k v n =>
    obtain ⟨isNew, _, htag, hM⟩ := hr
    cases isNew with
    | true =>
      have hx : x ∈ own x true := ⟨rfl, rfl⟩
      exact absurd (hM ▸ hx) (Set.notMem_empty x)
    | false =>
      have hsome : tag = some x := htag
      rw [AllTagged, hsome]
      rfl
  | node tag k l r b ihl ihr =>
    obtain ⟨isNew, lx, rx, Ml, Mr, _, htag, hl, hr, _, _, _, hold, hM⟩ := hr
    cases isNew with
    | true =>
      have hx : x ∈ own x true ∪ (Ml ∪ Mr) := .inl ⟨rfl, rfl⟩
      exact absurd (hM ▸ hx) (Set.notMem_empty x)
    | false =>
      have hsome : tag = some x := htag
      obtain ⟨rfl, rfl⟩ := hold rfl
      exact ⟨by rw [hsome]; rfl, ihl hl, ihr hr⟩

open BatchAVLProver (provenTree)

/-- **The nodes of the proof** of a batch. -/
theorem nodeCount_provenTree_le {p : BatchAVLProver} (h : p.Lives P t₀ t₀ V)
    (hbatch : Batch P t₀ outcomes bits visits) :
    nodeCount (provenTree P t₀ visits) ≤ 2 * t₀.height * outcomes.length
      + (3 * t₀.height + 2) * outcomes.countP Outcome.isDeletion + 1 := by
  have hcap : Capped (fun x => decide (x ∈ t₀.innerTags)) t₀.height t₀ :=
    capped_of_nodup h.since.nodup (fun _ _ hx => of_decide_eq_true hx) le_rfl
  obtain ⟨W, hsub, hcount⟩ := hbatch.visits_count h.stands.balanced hcap
  have hinner : (provenTree P t₀ visits).innerCount
      ≤ t₀.innerTags.countP fun x => decide (x ∈ visits) :=
    innerCount_prune_le (treeLabel P.hf) h.since.old.allTagged
  have hvisited := countP_innerTags_le h.since.nodup hsub
  rw [nodeCount_eq]
  omega

/-- So many nodes are within the limit. -/
theorem le_wholeBound {h n d : ℤ} {operations deletions : ℕ} (h₀ : 0 ≤ h)
    (hn : operations ≤ n) (hd : deletions ≤ d) :
    2 * h * operations + (3 * h + 2) * deletions + 1 ≤ wholeBound h n d := by
  have htemp : h + 1 ≤ 1 + max h (Nat.clog 2 n.toNat) + (1 + max h (Nat.clog 2 n.toNat)) / 2 := by
    have := le_max_left h (Nat.clog 2 n.toNat : ℤ)
    omega
  have h₁ : 2 * h * operations ≤ 2 * h * n := mul_le_mul_of_nonneg_left hn (by omega)
  have h₂ : (3 * h + 2) * deletions ≤ (3 * h + 2) * d := mul_le_mul_of_nonneg_left hd (by omega)
  have h₃ := mul_le_mul_of_nonneg_left htemp (show 0 ≤ d by omega)
  have h₄ : (n + d) * (2 * h + 1) = 2 * h * n + n + (2 * h * d + d) := by ring
  have h₅ : (3 * h + 2) * d = 2 * h * d + d + d * (h + 1) := by ring
  rw [wholeBound]
  omega

/-- The verifier's limit allows the proof. -/
theorem nodeCount_le_limit {p : BatchAVLProver} (h : p.Lives P t₀ t₀ V)
    (hbatch : Batch P t₀ outcomes bits visits) (hheight : t₀.height < 256) {n d : ℤ}
    (hn : outcomes.length ≤ n) (hd : outcomes.countP Outcome.isDeletion ≤ d)
    (hlt : wholeBound t₀.height n d < 2 ^ 31) :
    ∀ most ∈ limitFor (treeLabel P.hf t₀ ++ [UInt8.ofNat t₀.height]) (some n) (some d),
      (nodeCount (provenTree P t₀ visits) : ℤ) ≤ most := by
  intro most hmost
  have hlast : (treeLabel P.hf t₀ ++ [UInt8.ofNat t₀.height]).getLastD 0
      = UInt8.ofNat t₀.height := by
    simp
  have hbyte : (UInt8.ofNat t₀.height).toNat = t₀.height := UInt8.toNat_ofNat_of_lt' hheight
  have hcount := nodeCount_provenTree_le h hbatch
  rw [limitFor, Option.map_some, hlast, hbyte, Option.getD_some,
    nodeBound_of_lt (by omega) (by omega) (by omega) hlt] at hmost
  cases hmost
  have hbound : 2 * (t₀.height : ℤ) * (outcomes.length : ℕ)
      + (3 * t₀.height + 2) * (outcomes.countP Outcome.isDeletion : ℕ) + 1
      ≤ wholeBound t₀.height n d := le_wholeBound (by omega) hn hd
  refine le_trans ?_ hbound
  exact_mod_cast hcount

end

/-! ## Completeness with a limit -/

open BatchAVLProver (Call run Careful harmless run_append oneByteKeys insertAndRemove provenTree)

/-- **The limit rejects no honest proof.**  In a careful run, whose proofs for operations are
harmless: with limits that allow the operations of a batch, and can be computed as `Int`s, the
verifier accepts the proof and the batch, if an `Int` can count the bits of the proof. -/
theorem limited_completeness (P : TreeParams) {start calls : List Call} {p : BatchAVLProver}
    (hcareful : Careful P (harmless P) (start ++ calls) true (BatchAVLProver.new P))
    (hfresh : UpToProof start) (hcalls : ∀ c ∈ calls, c.direct = true ∧ c ≠ .generateProof)
    (hrun : run P start (BatchAVLProver.new P) = some p) :
    ∃ p' proof, run P calls p = some p' ∧ (p'.generateProof P).1 = .ok proof
      ∧ ∀ n d : ℤ, (p.performed P calls).length ≤ n →
        (p.performed P calls).countP Outcome.isDeletion ≤ d → n ≤ 2 ^ 30 →
        wholeBound p.tree.rootNodeHeight n d < 2 ^ 31 →
        ∀ d₀, (p.digest P).1 = .ok d₀ → proof.length ≤ 2 ^ 28 → ∀ fuel, proof.length < fuel →
          (0 < P.keyLength →
            ((BatchAVLVerifier.new P proof d₀ (some n) (some d) fuel).digest P).1 = .ok (some d₀))
          ∧ (BatchAVLVerifier.new P proof d₀ (some n) (some d) fuel).Accepts P proof
            (p.performed P calls) := by
  obtain ⟨hcounted, t₀, h, hrec⟩ := lives_fresh hcareful hfresh hrun
  obtain ⟨p', t', V', bits, hbatchrun, h', hrec', hbatch⟩ := h.batch hcalls hcounted hrec
  obtain ⟨p'', t'', hproof, _⟩ := h'.generateProof
  refine ⟨p', _, hbatchrun, congrArg Prod.fst hproof,
    fun n d hn hd hmost hlt d₀ hd₀ hlen fuel hfuel => ?_⟩
  rw [h.stands.height] at hlt
  obtain ⟨p₁, hdigest, _⟩ := h.digest
  have htree : (p.digest P).1 = treeDigest P t₀ := congrArg Prod.fst hdigest
  have hd₀' := htree.symm.trans hd₀
  rw [treeDigest] at hd₀'
  by_cases hheight : t₀.height < 256
  · rw [if_pos hheight] at hd₀'
    cases hd₀'
    have hn' : ∀ k ∈ some n, k ≤ 2 ^ 30 := fun k hk => by
      cases hk
      exact hmost
    have hlimit := nodeCount_le_limit h hbatch hheight hn hd hlt
    refine ⟨fun hkey => ?_, h.accepts hbatch hrec'.packs rfl hd₀ hlen hn' hlimit hfuel⟩
    have hfollows := new_follows h hkey hheight rfl (hlen.trans_lt (by norm_num)) hn' hlimit hfuel
    obtain ⟨v, hv, _⟩ := hfollows.digest
    refine (congrArg Prod.fst hv).trans ?_
    rw [treeDigest, if_pos hheight]
    rfl
  · rw [if_neg hheight] at hd₀'
    cases hd₀'

theorem limited_completeness_insertAndRemove :
    ∃ p proof, run oneByteKeys speculateAndProve (BatchAVLProver.new oneByteKeys) = some p
      ∧ (p.performed oneByteKeys (insertAndRemove.drop 2)).length = 2
      ∧ (BatchAVLVerifier.new oneByteKeys proof [1, 0, 0, 0, 1] (some 2) (some 1) 18).Accepts
        oneByteKeys proof (p.performed oneByteKeys (insertAndRemove.drop 2)) := by
  have hcalls : ∀ c ∈ insertAndRemove.drop 2, c.direct = true ∧ c ≠ .generateProof := by
    simp [insertAndRemove, Call.direct]
  obtain ⟨p, hrun⟩ := Option.isSome_iff_exists.1 (show (run oneByteKeys speculateAndProve
    (BatchAVLProver.new oneByteKeys)).isSome = true by decide +kernel)
  obtain ⟨p', proof, hbatch, hproof, haccepts⟩ :=
    limited_completeness oneByteKeys speculateAndProve_careful (.inr rfl) hcalls hrun
  have hcounts : ((run oneByteKeys speculateAndProve (BatchAVLProver.new oneByteKeys)).map
      fun p => ((p.performed oneByteKeys (insertAndRemove.drop 2)).length,
        (p.performed oneByteKeys (insertAndRemove.drop 2)).countP Outcome.isDeletion,
        p.tree.rootNodeHeight)) = some (2, 1, 1) := by decide +kernel
  have hlen : ((run oneByteKeys (speculateAndProve ++ insertAndRemove.drop 2)
      (BatchAVLProver.new oneByteKeys)).map
      fun p => (p.generateProof oneByteKeys).1.toOption.map List.length) = some (some 17) := by
    decide +kernel
  rw [run_append, hrun, Option.bind_some, hbatch, Option.map_some, hproof] at hlen
  rw [hrun, Option.map_some] at hcounts
  have hlen : proof.length = 17 := Option.some.inj (Option.some.inj hlen)
  obtain ⟨hoperations, hpair⟩ := Prod.mk.inj (Option.some.inj hcounts)
  obtain ⟨hdeletions, hheight⟩ := Prod.mk.inj hpair
  have hdigest := digest_of_run (d := [1, 0, 0, 0, 1]) (by decide +kernel) hrun
  have hbound : wholeBound p.tree.rootNodeHeight 2 1 < 2 ^ 31 := by
    rw [hheight]
    decide +kernel
  exact ⟨p, proof, hrun, hoperations, (haccepts 2 1 (by rw [hoperations]; rfl)
    (by rw [hdeletions]; rfl) (by norm_num) hbound _ hdigest (by rw [hlen]; norm_num) 18
    (by rw [hlen]; norm_num)).2⟩

/-- A proof of more bytes may be refused, with limits that allow its operations. -/
theorem not_limited_complete :
    ((BatchAVLProver.new longValues).performed longValues (insertAndLookup longValues)).length ≤ 2
    ∧ ((BatchAVLProver.new longValues).performed longValues (insertAndLookup longValues)).countP
      Outcome.isDeletion ≤ 0
    ∧ wholeBound (BatchAVLProver.new longValues).tree.rootNodeHeight 2 0 < 2 ^ 31
    ∧ ∃ p' proof d₀,
      run longValues (insertAndLookup longValues) (BatchAVLProver.new longValues) = some p'
      ∧ (p'.generateProof longValues).1 = .ok proof
      ∧ ((BatchAVLProver.new longValues).digest longValues).1 = .ok d₀
      ∧ ∀ fuel, proof.length < fuel →
        ¬ (BatchAVLVerifier.new longValues proof d₀ (some 2) (some 0) fuel).Accepts longValues
          proof ((BatchAVLProver.new longValues).performed longValues
            (insertAndLookup longValues)) := by
  obtain ⟨_, _, _, digest, digest', old, _, hperformed, _⟩ :=
    insertAndLookup_run (P := longValues) rfl
  refine ⟨?_, ?_, by decide +kernel, not_accepts rfl rfl (some 2) (some 0) (fun n hn => ?_)
    fun d₀ most hmost => ?_⟩
  · rw [hperformed]
    exact le_rfl
  · rw [hperformed]
    exact le_rfl
  · cases hn
    norm_num
  · have hbyte := (d₀.getLastD 0).toNat_lt
    have hlt : wholeBound ((d₀.getLastD 0).toNat : ℤ) 2 0 < 2 ^ 31 := by
      rw [wholeBound]
      omega
    rw [limitFor, Option.map_some, Option.getD_some,
      nodeBound_of_lt (by omega) (by norm_num) le_rfl hlt] at hmost
    cases hmost
    rw [wholeBound]
    omega

end Sparkz.Avl
