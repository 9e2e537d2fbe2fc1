import Sparkz.Avl.BitCounter
import Sparkz.Legacy.Run
import Sparkz.Lib.GuardedRun

/-!
# The legacy tree and the batch prover agree

Both start empty and get the same operations, none of which deletes a value.  They stand
for the same tree all along.

* `batchStep`, `BatchRoom` — the batch prover after an event, and room for the bits of it.
* `Agree` — both stand for the same tree; `Agree.perform`, `Agree.step` — one event,
  `agree_run` — all of them.
* `digest_eq_rootHash` — they succeed together, and the digest is the root hash with the
  height of the tree; `not_digest_eq_rootHash` — not so when the batch prover cannot count its
  bits any more.
-/

namespace Sparkz.Legacy

open Sparkz.Lib Sparkz.Lib.LeafTree Sparkz.Avl

/-- An operation that never deletes a value that it finds. -/
def NonDeleting (operation : Operation) : Prop :=
  ∀ updateFn ∈ operation.updateFn, ∀ v, updateFn (some v) ≠ .ok none

/-- The batch prover after an event. -/
def batchStep (P : Avl.TreeParams) (p : BatchAVLProver) : Event → BatchAVLProver
  | .operation operation => (p.performOneOperation P operation).2
  | .digest => (p.digest P).2

/-- There is room for the bits that the batch prover records at an event. -/
def BatchRoom (p : BatchAVLProver) : Event → Prop
  | .operation operation => p.HasRoom operation
  | .digest => True

instance (p : BatchAVLProver) (event : Event) : Decidable (BatchRoom p event) :=
  match event with
  | .operation operation => inferInstanceAs (Decidable (p.HasRoom operation))
  | .digest => inferInstanceAs (Decidable True)

/-- Both stand for the same tree. -/
def Agree (P : TreeParams) (c : Bool) (tree : AVLTree) (p : BatchAVLProver) : Prop :=
  ∃ t, tree.Stands P t ∧ p.Stands (P.batch c) t

section

variable {P : TreeParams} {c : Bool} {tree : AVLTree} {p : BatchAVLProver} {operation : Operation}

/-- What the legacy tree refuses at a leaf, the batch prover refuses too, unless it is a
deletion. -/
theorem leafAction_error (hnd : NonDeleting operation) {old : Option ADValue} {e : RunError}
    (h : leafChange P operation old = .error e) :
    ∃ e', leafAction (P.batch c) operation old = .error e' := by
  unfold leafChange at h
  unfold leafAction
  cases hfn : operation.updateFn with
  | none =>
    rw [hfn] at h
    cases h
  | some updateFn =>
    rw [hfn] at h
    simp only at h ⊢
    cases hnew : updateFn old with
    | error e₁ => exact ⟨_, rfl⟩
    | ok new =>
      rw [hnew] at h
      cases new with
      | none =>
        cases old with
        | none => cases h
        | some w => exact absurd hnew (hnd updateFn hfn w)
      | some v =>
        simp only at h ⊢
        split at h
        · cases h
        · rename_i hlen
          have hfits : lengthFits (P.batch c) v = .error (.wrongValueLength P.valueLength) :=
            if_neg hlen
          rw [hfits]
          exact ⟨_, rfl⟩

/-- An operation succeeds on both or on none, and they agree after it. -/
theorem Agree.perform (h : Agree P c tree p) (hroom : p.HasRoom operation)
    (hnd : NonDeleting operation) :
    (tree.run P operation).1.isOk = (p.performOneOperation (P.batch c) operation).1.isOk
      ∧ Agree P c (tree.run P operation).2 (p.performOneOperation (P.batch c) operation).2 := by
  obtain ⟨t, htree, hp⟩ := h
  by_cases hkey : P.InRange operation.key
  · have hkey' : (P.batch c).InRange operation.key := hkey
    cases hchange : leafChange P operation (t.get operation.key) with
    | error e =>
      obtain ⟨tree', hrun, htree'⟩ := AVLTree.run_error htree hkey hchange
      obtain ⟨e', he'⟩ := leafAction_error (c := c) hnd hchange
      obtain ⟨p', hperform, hp'⟩ :=
        (BatchAVLProver.performOneOperation_spec hp hroom hkey').1 e' he'
      rw [hrun, hperform]
      exact ⟨rfl, t, htree', hp'⟩
    | ok act =>
      obtain ⟨t', changed, up, tree', proof, hmod, hrun, htree', _⟩ :=
        AVLTree.run_spec htree hkey hchange
      have hop : operate t (searchPath operation.key false t) (some act)
          = some (t', if up then 1 else 0, pathTags t (searchPath operation.key false t)) := by
        rw [operate, hmod]
        rfl
      obtain ⟨p', hperform, hp'⟩ := (BatchAVLProver.performOneOperation_spec hp hroom hkey').2 _
        (leafAction_of_change c hchange) _ _ _ hop
      rw [hrun, hperform]
      exact ⟨rfl, t', htree', hp'⟩
  · obtain ⟨e, hrun⟩ := AVLTree.run_outOfRange hkey tree
    have hkey' : ¬ (P.batch c).InRange operation.key := hkey
    obtain ⟨e', p', hperform, hp'⟩ :=
      BatchAVLProver.performOneOperation_outOfRange hp hroom hkey'
    rw [hrun, hperform]
    exact ⟨rfl, t, htree, hp'⟩

theorem Agree.step (h : Agree P c tree p) {event : Event} (hroom : BatchRoom p event)
    (hnd : ∀ operation, event = .operation operation → NonDeleting operation) :
    Agree P c (tree.step P event) (batchStep (P.batch c) p event) := by
  cases event with
  | operation operation => exact (h.perform hroom (hnd operation rfl)).2
  | digest =>
    obtain ⟨t, htree, hp⟩ := h
    exact ⟨t, (AVLTree.rootHash_spec htree).2, (BatchAVLProver.digest_spec hp).2⟩

/-- Both agree when they start empty. -/
theorem agree_new (P : TreeParams) (c : Bool) :
    Agree P c (.new P none) (.new (P.batch c)) :=
  ⟨_, AVLTree.new_stands P (some 0), BatchAVLProver.new_stands (P.batch c)⟩

/-- Both agree all along. -/
theorem agree_run (h : Agree P c tree p) {events : List Event}
    (hcounted : Along (batchStep (P.batch c)) BatchRoom p events)
    (hnd : ∀ operation, .operation operation ∈ events → NonDeleting operation) :
    Agree P c (events.foldl (AVLTree.step P) tree) (events.foldl (batchStep (P.batch c)) p) := by
  induction events generalizing tree p with
  | nil => exact h
  | cons event events ih =>
    refine ih (h.step hcounted.1 ?_) hcounted.2 fun operation hmem =>
      hnd operation (List.mem_cons_of_mem _ hmem)
    rintro operation rfl
    exact hnd operation List.mem_cons_self

/-- **The legacy tree and the batch prover agree.**  After any events without deletions, whose bits
the batch prover can count, the next operation succeeds on one if and only if it does on the other,
if there is room for its bits too; and the digest is the root hash with one byte for the height, as
long as the height fits into it. -/
theorem digest_eq_rootHash (P : TreeParams) (c : Bool) {events : List Event}
    (hcounted : Along (batchStep (P.batch c)) BatchRoom (.new (P.batch c)) events)
    (hnd : ∀ operation, .operation operation ∈ events → NonDeleting operation) :
    let tree := events.foldl (AVLTree.step P) (.new P none)
    let p := events.foldl (batchStep (P.batch c)) (.new (P.batch c))
    (∀ operation, NonDeleting operation → p.HasRoom operation →
      (tree.run P operation).1.isOk = (p.performOneOperation (P.batch c) operation).1.isOk)
    ∧ (p.digest (P.batch c)).1
      = if tree.topNode.height < 256 then
          .ok ((tree.rootHash P).1 ++ [UInt8.ofNat tree.topNode.height])
        else .error .assertionFailed := by
  intro tree p
  have h := agree_run (agree_new P c) hcounted hnd
  refine ⟨fun operation hop hroom => (h.perform hroom hop).1, ?_⟩
  obtain ⟨t, htree, hp⟩ := h
  rw [(BatchAVLProver.digest_spec hp).1, (AVLTree.rootHash_spec htree).1, htree.shows.height]
  rfl

theorem length_nine : ([9] : List UInt8).length < 2 ^ 31 := by decide

/-- A run with an insertion and a lookup. -/
def insertDigestLookup : List Event :=
  [.operation (.insert ⟨[5]⟩ ⟨[9], length_nine⟩), .digest, .operation (.lookup ⟨[5]⟩)]

theorem insertDigestLookup_nonDeleting (operation : Operation)
    (hmem : .operation operation ∈ insertDigestLookup) : NonDeleting operation := by
  intro updateFn hfn v
  simp only [insertDigestLookup, List.mem_cons, List.not_mem_nil, or_false, reduceCtorEq, false_or,
    Event.operation.injEq] at hmem
  rcases hmem with rfl | rfl
  · cases hfn
    simp
  · cases hfn

/-- A second insertion of the same key is refused by both. -/
theorem digest_eq_rootHash_insert :
    let tree := insertDigestLookup.foldl (AVLTree.step smallParams) (.new smallParams none)
    let p := insertDigestLookup.foldl (batchStep (smallParams.batch false))
      (.new (smallParams.batch false))
    (tree.run smallParams (.insert ⟨[5]⟩ ⟨[8], by decide⟩)).1.isOk = false
      ∧ (p.performOneOperation (smallParams.batch false)
        (.insert ⟨[5]⟩ ⟨[8], by decide⟩)).1.isOk = false
      ∧ (p.digest (smallParams.batch false)).1
        = .ok ((tree.rootHash smallParams).1 ++ [1]) := by
  intro tree p
  have hcounted : Along (batchStep (smallParams.batch false)) BatchRoom
      (.new (smallParams.batch false)) insertDigestLookup := by
    decide +kernel
  obtain ⟨hagree, hdigest⟩ :=
    digest_eq_rootHash smallParams false hcounted insertDigestLookup_nonDeleting
  have hrefused : (tree.run smallParams (.insert ⟨[5]⟩ ⟨[8], by decide⟩)).1.isOk = false := by
    decide +kernel
  have hheight : tree.topNode.height = 1 := by decide +kernel
  have hsame := hagree (.insert ⟨[5]⟩ ⟨[8], by decide⟩) ?_ (by decide +kernel)
  · refine ⟨hrefused, hsame.symm.trans hrefused, hdigest.trans ?_⟩
    rw [if_pos (by rw [hheight]; norm_num)]
    exact congrArg Except.ok (by rw [hheight]; rfl)
  · intro updateFn hfn v
    cases hfn
    simp

/-- A legacy tree looks up any key in range. -/
theorem lookup_isOk {t : Tree} (h : tree.Stands P t) {key : ADKey} (hkey : P.InRange key) :
    (tree.run P (.lookup key)).1.isOk = true := by
  have hrange : P.InRange (Operation.lookup key).key := hkey
  obtain ⟨_, _, _, _, _, _, hrun, _⟩ := AVLTree.run_spec h hrange rfl
  rw [hrun]
  rfl

/-- Lookups of the batch prover go on at any count. -/
theorem overruns_foldl {P : Avl.TreeParams} {p : BatchAVLProver} {tag tag' : Option Ref}
    {key nextLeafKey : ADKey} {v : ADValue} {l : Tree} {b : Balance} {first : UInt8} {n : ℕ}
    (h : p.Overruns P (.node tag key l (.leaf tag' key v nextLeafKey) b) first n)
    (hkey : P.InRange key) (m : ℕ) :
    ((List.replicate m (.operation (.lookup key))).foldl (batchStep P) p).Overruns P
      (.node tag key l (.leaf tag' key v nextLeafKey) b) first (n + m) := by
  induction m generalizing p n with
  | zero => exact h
  | succ m ih =>
    obtain ⟨p₁, hperform, h₁⟩ := h.lookup hkey
    have hstep : batchStep P p (.operation (.lookup key)) = p₁ := congrArg Prod.snd hperform
    rw [List.replicate_succ, List.foldl_cons, hstep, Nat.add_comm m 1, ← Nat.add_assoc]
    exact ih h₁

/-- A key is inserted and looked up, and then a smaller one is inserted. -/
def insertTwo : List Event :=
  [.operation (.insert ⟨[5]⟩ (.ofByte 1)), .operation (.lookup ⟨[5]⟩),
    .operation (.insert ⟨[3]⟩ (.ofByte 2))]

/-- After 2 ^ 31 + 1 bits, the batch prover does not find a key that the legacy tree finds. -/
theorem not_digest_eq_rootHash :
    let events := insertTwo ++ List.replicate (2 ^ 31 - 1) (.operation (.lookup ⟨[5]⟩))
    let tree := events.foldl (AVLTree.step smallParams) (.new smallParams none)
    let p := events.foldl (batchStep (smallParams.batch false)) (.new (smallParams.batch false))
    (tree.run smallParams (.lookup ⟨[3]⟩)).1.isOk = true
      ∧ (p.performOneOperation (smallParams.batch false) (.lookup ⟨[3]⟩)).1
        = .error .indexOutOfBounds := by
  intro events tree p
  obtain ⟨t, htree⟩ := AVLTree.stands_run smallParams events
  refine ⟨lookup_isOk htree (by decide), ?_⟩
  have hstate : (fun p : BatchAVLProver => (p.tree.heap, p.topNode, p.tree.nav))
      (insertTwo.foldl (batchStep (smallParams.batch false)) (.new (smallParams.batch false)))
        = BatchAVLProver.twoKeysState (BatchAVLProver.sentinelValue (smallParams.batch false)) := by
    decide +kernel
  have hlookups := overruns_foldl (BatchAVLProver.twoKeys_overruns (smallParams.batch false) hstate)
    (by decide) (2 ^ 31 - 1)
  rw [← List.foldl_append] at hlookups
  have hrange : (smallParams.batch false).InRange (Operation.lookup ⟨[3]⟩).key := by decide
  exact hlookups.throws hrange (by decide) (by decide) (by norm_num)

end

end Sparkz.Legacy
