import Sparkz.Legacy.Verification

/-!
# The proofs of the legacy tree verify

* `ProverNodes.bindings` — the keys and values of the leaves.
* `verify_of_follows` — a proof that follows the search path is accepted where the update
  function accepts the value, and gives the label of the changed tree.
* `run_verifies` — for every run of a tree that starts empty: what an operation returns is
  accepted with the root hash before it, and gives the one after it.
-/

namespace Sparkz.Legacy

open Sparkz.Lib Sparkz.Lib.LeafTree Sparkz.Avl

/-- The keys and values of the leaves. -/
def ProverNodes.bindings : ProverNodes → List (ADKey × ADValue)
  | leaf _ key value _ => [(key, value)]
  | proverNode _ _ _ left right _ => bindings left ++ bindings right

/-- Does the tree have a value for the key? -/
def AVLTree.contains (tree : AVLTree) (key : ADKey) : Bool :=
  tree.topNode.bindings.any fun e => e.1 = key

theorem ProverNodes.Shows.bindings {hf : CryptographicHash} {n : ProverNodes} {t : Tree}
    (h : n.Shows hf t) : n.bindings = t.entries := by
  induction h with
  | leaf hlabel => rfl
  | node hlabel hl hr ihl ihr => rw [ProverNodes.bindings, ihl, ihr, entries_node]

section

variable {P : TreeParams} {operation : Operation} {tree : AVLTree} {t : Tree}

theorem AVLTree.Stands.contains (h : tree.Stands P t) (key : ADKey) :
    tree.contains key = (t.get key).isSome := by
  rw [AVLTree.contains, h.shows.bindings]
  cases hget : t.get key with
  | none =>
    rw [get_eq_none_iff] at hget
    simpa using hget
  | some v =>
    have := mem_of_get hget
    simp only [Option.isSome_some, List.any_eq_true, decide_eq_true_eq]
    exact ⟨_, this, rfl⟩

/-- A value put in place of itself changes no label. -/
theorem treeLabel_update_self (hf : CryptographicHash) {t t' : Tree} {path : List Bool}
    {k n : ADKey} {v : ADValue} {changed up : Bool} (hleaf : leafAt t path = some (k, v, n))
    (h : modifyAt t path (.update v) = some (t', changed, up)) :
    treeLabel hf t' = treeLabel hf t ∧ up = false := by
  induction t generalizing path t' changed up with
  | stub d => cases path <;> cases h
  | leaf tag k' v' n' =>
    cases path with
    | nil =>
      cases hleaf
      cases h
      exact ⟨rfl, rfl⟩
    | cons d path => cases h
  | node tag k' l r b ihl ihr =>
    cases path with
    | nil => cases h
    | cons d path =>
      cases d with
      | true =>
        obtain ⟨l', up', hl, h⟩ := modifyAt_left h
        obtain ⟨hlabel, rfl⟩ := ihl hleaf hl
        cases changed with
        | true =>
          cases h
          exact ⟨by rw [treeLabel, treeLabel, hlabel]; rfl, rfl⟩
        | false =>
          obtain ⟨rfl, rfl⟩ := h
          exact ⟨rfl, rfl⟩
      | false =>
        obtain ⟨r', up', hr, h⟩ := modifyAt_right h
        obtain ⟨hlabel, rfl⟩ := ihr hleaf hr
        cases changed with
        | true =>
          cases h
          exact ⟨by rw [treeLabel, treeLabel, hlabel]; rfl, rfl⟩
        | false =>
          obtain ⟨rfl, rfl⟩ := h
          exact ⟨rfl, rfl⟩

variable {key : ADKey} {elements : List AVLProofElement}

/-- A proof along the search path is accepted exactly where the update function accepts the
value of the key, and gives the label of the changed tree. -/
theorem verify_of_follows (updateFn : UpdateFunction) (h : tree.Stands P t) (hkey : P.InRange key)
    (hfollows : Follows P.hf (meets key t) elements t (searchPath key false t)) :
    (verifyChange key updateFn (t.get key) = none →
      (AVLModifyProof.mk key elements).verify P.hf (treeLabel P.hf t) updateFn = none)
    ∧ ∀ act, verifyChange key updateFn (t.get key) = some act → ∀ t' changed up,
      modifyAt t (searchPath key false t) act = some (t', changed, up) →
      (AVLModifyProof.mk key elements).verify P.hf (treeLabel P.hf t) updateFn
        = some (treeLabel P.hf t') := by
  have hchain := h.chain (hkey.1.trans hkey.2.1)
  obtain ⟨k, v, n, hleaf, _, hmet, hunmet⟩ := search_spec hchain hkey.1 hkey.2.1
  have hget := get_of_search hchain hkey.1 hkey.2.1 hleaf
  obtain ⟨hnone, hsome⟩ := verifyHelper_spec updateFn hfollows h.balanced hleaf hmet
    (fun hm => ⟨(hunmet hm).1, (hunmet hm).2.1⟩) hget
  refine ⟨fun hc => ?_, fun act hact t' changed up hmod => ?_⟩
  · rw [AVLModifyProof.verify, hnone hc]
  · obtain ⟨root, hrun, hshows, _⟩ := hsome act hact t' changed up hmod
    rw [AVLModifyProof.verify, hrun]
    simp only [if_true, (Node.label_spec hshows).1]

theorem verifyChange_of_change {updateFn : UpdateFunction} {act : Action ADKey ADValue}
    {old : Option ADValue}
    (hfn : operation.updateFn = some updateFn)
    (h : leafChange P operation old = .ok act) :
    verifyChange operation.key updateFn old = some act := by
  unfold leafChange at h
  unfold verifyChange
  rw [hfn] at h
  simp only at h
  cases hnew : updateFn old with
  | error e =>
    rw [hnew] at h
    cases h
  | ok new =>
    rw [hnew] at h
    cases new with
    | none =>
      cases old with
      | none =>
        cases h
        rfl
      | some w => cases h
    | some v =>
      simp only at h ⊢
      split at h
      · cases h
        rfl
      · cases h

/-- A lookup along the search path is accepted for what is there. -/
theorem verifyLookup_of_follows (h : tree.Stands P t) (hkey : P.InRange key)
    (hfollows : Follows P.hf (meets key t) elements t (searchPath key false t))
    (existence : Bool) :
    (AVLModifyProof.mk key elements).verifyLookup P.hf (treeLabel P.hf t) existence
      = if existence = (t.get key).isSome then some (treeLabel P.hf t) else none := by
  have hchain := h.chain (hkey.1.trans hkey.2.1)
  obtain ⟨k, v, n, hleaf, hget⟩ := h.get_of_meets hkey
  cases existence with
  | true =>
    obtain ⟨hnone, hsome⟩ := verify_of_follows
      AVLModifyProof.existenceLookupFunction h hkey hfollows
    rw [AVLModifyProof.verifyLookup, if_pos rfl]
    cases hold : t.get key with
    | none =>
      rw [hold] at hnone
      exact hnone rfl
    | some w =>
      rw [hold] at hsome
      have hw : leafAt t (searchPath key false t) = some (k, w, n) := by
        rw [hold] at hget
        split at hget
        · cases hget
          exact hleaf
        · cases hget
      obtain ⟨t', up, hmod, _⟩ :=
        modifyAt_spec h.balanced hw (show Action.update w ≠ .keep by simp)
      have hlabel := (treeLabel_update_self P.hf hw hmod).1
      rw [hsome _ rfl t' true up hmod, hlabel]
      rfl
  | false =>
    obtain ⟨hnone, hsome⟩ := verify_of_follows
      AVLModifyProof.nonExistenceLookupFunction h hkey hfollows
    rw [AVLModifyProof.verifyLookup, if_neg (by decide)]
    cases hold : t.get key with
    | none =>
      rw [hold] at hsome
      exact hsome _ rfl t false false (modifyAt_keep hleaf)
    | some w =>
      rw [hold] at hnone
      exact hnone rfl

/-- **The proofs of the legacy tree verify.**  After any events on a tree that starts empty:
the proof that an operation returns is accepted with its update function and the root hash
before it, and gives the root hash after it; the proof of a lookup is accepted for what is
there; an operation that fails leaves the root hash as it is. -/
theorem run_verifies (P : TreeParams) (events : List Event) (operation : Operation) :
    let tree := events.foldl (AVLTree.step P) (.new P none)
    let root := (tree.rootHash P).1
    match tree.run P operation with
    | (.ok proof, tree') =>
        (∀ updateFn ∈ operation.updateFn,
          proof.verify P.hf root updateFn = some (tree'.rootHash P).1)
        ∧ (operation.updateFn = none → ∀ existence,
          proof.verifyLookup P.hf root existence
            = if existence = tree.contains operation.key then some root else none)
    | (.error _, tree') => (tree'.rootHash P).1 = root := by
  intro tree root
  obtain ⟨t, h⟩ := AVLTree.stands_run P events
  have hroot : root = treeLabel P.hf t := (AVLTree.rootHash_spec h).1
  by_cases hkey : P.InRange operation.key
  · cases hchange : leafChange P operation (t.get operation.key) with
    | error e =>
      obtain ⟨tree', hrun, htree'⟩ := AVLTree.run_error h hkey hchange
      rw [hrun]
      exact (AVLTree.rootHash_spec htree').1.trans hroot.symm
    | ok act =>
      obtain ⟨t', changed, up, tree', proof, hmod, hrun, htree', hfollows, _⟩ :=
        AVLTree.run_spec h hkey hchange
      rw [hrun]
      refine ⟨fun updateFn hfn => ?_, fun hfn existence => ?_⟩
      · rw [hroot, (AVLTree.rootHash_spec htree').1]
        exact (verify_of_follows updateFn h hkey hfollows).2 act
          (verifyChange_of_change hfn hchange) _ _ _
          hmod
      · rw [hroot, h.contains]
        exact verifyLookup_of_follows h hkey hfollows existence
  · obtain ⟨e, hrun⟩ := AVLTree.run_outOfRange hkey tree
    rw [hrun]

end

end Sparkz.Legacy
