import Sparkz.Avl.Speculation

/-!
# Runs with proofs for operations

A proof for operations that are not performed may leave flags on the nodes of a prover.  This is
harmless as long as nothing is pending: the next proof takes the flags back.

* `harmless` — when the prover goes on as before; `harmless_run` — it lives up to the end of
  careful runs.
* `completeness` — the verifier accepts the proofs of the prover, as long as all bits are counted.
* `refines_map` — operations and lookups are those of a map; `not_refines_map` — not so if a proof
  is asked for while operations are pending.
-/

namespace Sparkz.Avl

open Sparkz.Lib Sparkz.Lib.LeafTree

namespace BatchAVLProver

section

variable {P : TreeParams} {p : BatchAVLProver} {m : SortedMap ADKey ADValue}
  {operations : List Operation} {calls later : List Call}

/-- May a proof be asked for these operations, so that the prover goes on as before?  Nothing was
performed since the last proof, or the first operation is refused. -/
def harmless (P : TreeParams) (idle : Bool) (m : SortedMap ADKey ADValue)
    (operations : List Operation) : Bool :=
  idle || operations.head?.any fun operation => (mapStep P m operation).isNone

/-- What a proof for operations does to a prover, when it is harmless. -/
theorem Kept.speculated {idle : Bool} (h : Kept P false idle p)
    (hroom : HasRoomAll (speculativeParams P) operations p.newProver) (hm : p.Maps P m)
    (hharmless : harmless P idle m operations = true) :
    Kept P false idle (p.generateProofForOperations P operations).2 := by
  have hsound := h.sound.generateProofForOperations (P := P) operations
  rw [harmless, Bool.or_eq_true] at hharmless
  rcases hharmless with rfl | hfirst
  · obtain ⟨t, V, hrest, _⟩ := h.atRest rfl
    obtain ⟨V', hrest'⟩ := hrest.speculated hroom
    exact ⟨hsound, ⟨t, t, V', hrest'.lives⟩, fun _ => ⟨t, V', hrest', fun hf => by cases hf⟩⟩
  · obtain ⟨operation, rest, rfl, hstep⟩ := exists_refused hfirst
    obtain ⟨t₀, t, V, hlives⟩ := h.lives
    obtain ⟨e, hcall⟩ := hlives.speculate_refused hroom (hlives.treeHolds hm) hstep
    rw [hcall]
    exact h

/-- **The prover lives** up to the end of a careful run, whose proofs for operations are
harmless. -/
theorem harmless_run
    (hcareful : Careful P (harmless P) (calls ++ later) true (BatchAVLProver.new P))
    (hrun : run P calls (BatchAVLProver.new P) = some p) :
    (∃ t₀ t V, p.Lives P t₀ t V) ∧ ∃ idle, Careful P (harmless P) later idle p := by
  obtain ⟨idle, hkept, hlater⟩ := kept_run Kept.speculated (new_kept P false) hcareful hrun
  exact ⟨hkept.lives, idle, hlater⟩

end

end BatchAVLProver

/-! ## Completeness -/

open BatchAVLProver (Call run Careful Counted harmless harmless_run run_append oneByteKeys
  insertAndRemove insertAndRefused)

/-- The calls up to a proof, or none at all. -/
def UpToProof (calls : List Call) : Prop := calls = [] ∨ calls.getLast? = some .generateProof

/-- The prover right after its construction, or right after a proof. -/
theorem lives_fresh {P : TreeParams} {start calls : List Call} {p : BatchAVLProver}
    (hcareful : Careful P (harmless P) (start ++ calls) true (BatchAVLProver.new P))
    (hfresh : UpToProof start) (hrun : run P start (BatchAVLProver.new P) = some p) :
    Counted P calls p ∧ ∃ t, p.Lives P t t [] ∧ p.tree.nav.Records [] := by
  rcases hfresh with rfl | hlast
  · cases hrun
    exact ⟨hcareful.counted, _, BatchAVLProver.new_lives P, .nil rfl rfl⟩
  · obtain ⟨first, rfl⟩ := List.getLast?_eq_some_iff.1 hlast
    rw [run_append] at hrun
    obtain ⟨p₁, hfirst, hproof⟩ := Option.bind_eq_some_iff.1 hrun
    rw [List.append_assoc] at hcareful
    obtain ⟨⟨t₀, t, V, h⟩, idle, _, _, hlater⟩ := harmless_run hcareful hfirst
    obtain ⟨p', t', hcall, hrest⟩ := h.atRest
    obtain ⟨_, hsame⟩ := BatchAVLProver.run_cons hproof
    cases hsame
    have hp : (p₁.call P .generateProof).2 = p' := hcall
    rw [hp] at hlater ⊢
    exact ⟨hlater.counted, t', hrest.lives, hrest.records⟩

/-- **Completeness.**  In a careful run, whose proofs for operations are harmless, the proof of a
batch is accepted by the verifier that is made from the digest before it, with all results and
digests, if an `Int` can count the bits of the proof. -/
theorem completeness (P : TreeParams) {start calls : List Call} {p : BatchAVLProver}
    (hcareful : Careful P (harmless P) (start ++ calls) true (BatchAVLProver.new P))
    (hfresh : UpToProof start) (hcalls : ∀ c ∈ calls, c.direct = true ∧ c ≠ .generateProof)
    (hrun : run P start (BatchAVLProver.new P) = some p) :
    ∃ p' proof, run P calls p = some p' ∧ (p'.generateProof P).1 = .ok proof
      ∧ ∀ d₀, (p.digest P).1 = .ok d₀ → proof.length ≤ 2 ^ 28 → ∀ fuel, proof.length < fuel →
        (BatchAVLVerifier.new P proof d₀ none none fuel).Accepts P proof (p.performed P calls) := by
  obtain ⟨hcounted, t₀, h, hrec⟩ := lives_fresh hcareful hfresh hrun
  obtain ⟨p', t', V', bits, hbatchrun, h', hrec', hbatch⟩ := h.batch hcalls hcounted hrec
  obtain ⟨p'', t'', hproof, _⟩ := h'.generateProof
  exact ⟨p', _, hbatchrun, congrArg Prod.fst hproof, fun d₀ hd₀ hlen fuel hfuel =>
    h.accepts hbatch hrec'.packs rfl hd₀ hlen (fun _ hnone => by cases hnone)
      (fun _ hnone => by cases hnone) hfuel⟩

/-- A key is inserted; then a proof is asked for two operations, of which the second one is out of
range, and the next proof is made. -/
def speculateAndProve : List Call :=
  insertAndRemove.take 2 ++ [.generateProofForOperations insertAndRefused, .generateProof]

theorem maps_five {p : BatchAVLProver} {v : ADValue}
    (hleaves : BatchAVLProver.bindings p.tree.heap (p.tree.heap.length + 1) p.topNode
      = some [(⟨[0]⟩, BatchAVLProver.sentinelValue oneByteKeys), (⟨[5]⟩, v)]) :
    p.Maps oneByteKeys ⟨[(⟨[5]⟩, v)], List.pairwise_singleton _ _⟩ := by
  refine ⟨hleaves, fun e he => ?_⟩
  rw [List.mem_singleton.1 he]
  have hrange : oneByteKeys.InRange ⟨[5]⟩ := by decide
  exact ⟨hrange, fun vl hvl => by cases hvl⟩

theorem speculateAndProve_careful :
    Careful oneByteKeys (harmless oneByteKeys) (speculateAndProve ++ insertAndRemove.drop 2) true
      (BatchAVLProver.new oneByteKeys) := by
  refine ⟨by decide +kernel, fun _ h => (by cases h), trivial, fun _ h => (by cases h),
    trivial, fun operations h => ?_, trivial, fun _ h => (by cases h), by decide +kernel,
    fun _ h => (by cases h), by decide +kernel, fun _ h => (by cases h), by decide +kernel,
    fun _ h => (by cases h), trivial⟩
  cases h
  exact ⟨by decide +kernel, _, maps_five (v := .ofByte 1) (by decide +kernel), by decide +kernel⟩

/-- The digest of a run, as a value. -/
theorem digest_of_run {calls : List Call} {p : BatchAVLProver} {d : Digest}
    (hd : ((run oneByteKeys calls (BatchAVLProver.new oneByteKeys)).map
      fun p => (p.digest oneByteKeys).1.toOption) = some (some d))
    (hrun : run oneByteKeys calls (BatchAVLProver.new oneByteKeys) = some p) :
    (p.digest oneByteKeys).1 = .ok d := by
  rw [hrun, Option.map_some] at hd
  cases hdigest : (p.digest oneByteKeys).1 with
  | error e =>
    rw [hdigest] at hd
    cases hd
  | ok d' =>
    rw [hdigest] at hd
    exact congrArg Except.ok (Option.some.inj (Option.some.inj hd))

theorem completeness_insertAndRemove :
    ∃ p proof, run oneByteKeys speculateAndProve (BatchAVLProver.new oneByteKeys) = some p
      ∧ (p.performed oneByteKeys (insertAndRemove.drop 2)).length = 2
      ∧ (BatchAVLVerifier.new oneByteKeys proof [1, 0, 0, 0, 1] none none 18).Accepts oneByteKeys
        proof (p.performed oneByteKeys (insertAndRemove.drop 2)) := by
  have hcalls : ∀ c ∈ insertAndRemove.drop 2, c.direct = true ∧ c ≠ .generateProof := by
    simp [insertAndRemove, Call.direct]
  obtain ⟨p, hrun⟩ := Option.isSome_iff_exists.1 (show (run oneByteKeys speculateAndProve
    (BatchAVLProver.new oneByteKeys)).isSome = true by decide +kernel)
  obtain ⟨p', proof, hbatch, hproof, haccepts⟩ :=
    completeness oneByteKeys speculateAndProve_careful (.inr rfl) hcalls hrun
  have hlen : ((run oneByteKeys (speculateAndProve ++ insertAndRemove.drop 2)
      (BatchAVLProver.new oneByteKeys)).map
      fun p => (p.generateProof oneByteKeys).1.toOption.map List.length) = some (some 17) := by
    decide +kernel
  have hcount : ((run oneByteKeys speculateAndProve (BatchAVLProver.new oneByteKeys)).map
      fun p => (p.performed oneByteKeys (insertAndRemove.drop 2)).length) = some 2 := by
    decide +kernel
  rw [run_append, hrun, Option.bind_some, hbatch, Option.map_some, hproof] at hlen
  rw [hrun, Option.map_some, Option.some.injEq] at hcount
  have hlen : proof.length = 17 := Option.some.inj (Option.some.inj hlen)
  have hdigest := digest_of_run (d := [1, 0, 0, 0, 1]) (by decide +kernel) hrun
  exact ⟨p, proof, hrun, hcount,
    haccepts _ hdigest (by rw [hlen]; norm_num) 18 (by rw [hlen]; norm_num)⟩

/-! ## The map -/

namespace BatchAVLProver

/-- **The prover refines a finite map**, in careful runs whose proofs for operations are
harmless. -/
theorem refines_map (P : TreeParams) {calls : List Call} {p : BatchAVLProver}
    (hcareful : Careful P (harmless P) calls true (BatchAVLProver.new P))
    (hrun : run P calls (BatchAVLProver.new P) = some p) :
    ∃ m, p.Maps P m
      ∧ (∀ key, P.InRange key → p.unauthenticatedLookup key = .ok (m.get key))
      ∧ ∀ operation, p.HasRoom operation →
        (mapStep P m operation = none →
          ∃ e p', p.performOneOperation P operation = (.error e, p') ∧ p'.Maps P m)
        ∧ ∀ m', mapStep P m operation = some m' →
          ∃ p', p.performOneOperation P operation = (.ok (m.get operation.key), p')
            ∧ p'.Maps P m' := by
  rw [← List.append_nil calls] at hcareful
  obtain ⟨⟨t₀, t, V, h⟩, _⟩ := harmless_run hcareful hrun
  exact h.refines

theorem refines_map_speculateAndProve :
    ∃ p m, run oneByteKeys speculateAndProve (BatchAVLProver.new oneByteKeys) = some p
      ∧ p.Maps oneByteKeys m ∧ m.get ⟨[5]⟩ = some (.ofByte 1)
      ∧ p.unauthenticatedLookup ⟨[5]⟩ = .ok (m.get ⟨[5]⟩) := by
  obtain ⟨p, hrun⟩ := Option.isSome_iff_exists.1 (show (run oneByteKeys speculateAndProve
    (BatchAVLProver.new oneByteKeys)).isSome = true by decide +kernel)
  have hlookup : ((run oneByteKeys speculateAndProve (BatchAVLProver.new oneByteKeys)).map
      fun p => (p.unauthenticatedLookup ⟨[5]⟩).toOption) = some (some (some (.ofByte 1))) := by
    decide +kernel
  have hcareful : Careful oneByteKeys (harmless oneByteKeys) speculateAndProve true
      (BatchAVLProver.new oneByteKeys) := careful_append speculateAndProve_careful
  obtain ⟨m, hm, hget, _⟩ := refines_map oneByteKeys hcareful hrun
  have hfive := hget ⟨[5]⟩ (by decide)
  rw [hrun, Option.map_some, hfive] at hlookup
  exact ⟨p, m, hrun, hm, Option.some.inj (Option.some.inj hlookup), hfive⟩

/-- Two keys are inserted, and a proof is asked for the insertion of another one. -/
def pendingAndSpeculate : List Call :=
  [.performOneOperation (.insert ⟨[5]⟩ (.ofByte 1)),
    .performOneOperation (.insert ⟨[1]⟩ (.ofByte 2)),
    .generateProofForOperations [.insert ⟨[2]⟩ (.ofByte 3)]]

/-- A proof that is asked for while operations are pending loses a key: both insertions succeed, but
the leaves that are left have the keys 2 and 5, the prover finds neither the key 1 that was inserted
nor the key 2 that has a leaf, and its leaves are not those of a map. -/
theorem not_refines_map :
    (replies oneByteKeys (pendingAndSpeculate.take 2) (BatchAVLProver.new oneByteKeys)).map
        Except.toOption = [some (.value none), some (.value none)]
    ∧ ∃ p, run oneByteKeys pendingAndSpeculate (BatchAVLProver.new oneByteKeys) = some p
      ∧ bindings p.tree.heap (p.tree.heap.length + 1) p.topNode
        = some [(⟨[2]⟩, .ofByte 3), (⟨[5]⟩, .ofByte 1)]
      ∧ (p.unauthenticatedLookup ⟨[1]⟩).toOption = some none
      ∧ (p.unauthenticatedLookup ⟨[2]⟩).toOption = some none
      ∧ ∀ m, ¬ p.Maps oneByteKeys m := by
  have hleaves :
      ((run oneByteKeys pendingAndSpeculate (BatchAVLProver.new oneByteKeys)).map fun p =>
      (bindings p.tree.heap (p.tree.heap.length + 1) p.topNode,
        (p.unauthenticatedLookup ⟨[1]⟩).toOption, (p.unauthenticatedLookup ⟨[2]⟩).toOption))
      = some (some [(⟨[2]⟩, .ofByte 3), (⟨[5]⟩, .ofByte 1)], some none, some none) := by
    decide +kernel
  obtain ⟨p, hrun, hp⟩ := Option.map_eq_some_iff.1 hleaves
  obtain ⟨hbindings, hrest⟩ := Prod.mk.inj hp
  obtain ⟨hone, htwo⟩ := Prod.mk.inj hrest
  refine ⟨by decide +kernel, p, hrun, hbindings, hone, htwo, fun m hm => ?_⟩
  have hleaves := Option.some.inj (hbindings.symm.trans hm.leaves)
  have hkey : (⟨[2]⟩ : ADKey) = oneByteKeys.negativeInfinityKey :=
    congrArg Prod.fst (List.cons.inj hleaves).1
  revert hkey
  decide +kernel

end BatchAVLProver

end Sparkz.Avl
