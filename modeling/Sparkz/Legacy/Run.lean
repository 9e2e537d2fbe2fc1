import Sparkz.Avl.ProverRun
import Sparkz.Legacy.Simulation

/-!
# Runs of the legacy tree

* `AVLTree.Stands` — the legacy tree stands for a balanced chain with keys and values of
  the fixed lengths.
* `AVLTree.run_outOfRange`, `AVLTree.run_error`, `AVLTree.run_spec` — what an operation does
  to the tree, and the proof that it returns.
* `Event`, `AVLTree.step`, `AVLTree.stands_run` — runs of a tree that starts empty.
-/

namespace Sparkz.Legacy

open Sparkz.Lib Sparkz.Lib.LeafTree Sparkz.Avl

/-- The parameters of a batch prover with the same keys, values and hash function. -/
def TreeParams.batch (P : TreeParams) (collectChangedNodes : Bool) : Avl.TreeParams where
  keyLength := P.keyLength
  valueLengthOpt := some P.valueLength
  valueLength_lt := fun _ h => Option.some.inj h ▸ P.valueLength_lt
  collectChangedNodes := collectChangedNodes
  hf := P.hf

/-- The keys that operations may have. -/
def TreeParams.InRange (P : TreeParams) (key : ADKey) : Prop :=
  key > P.negativeInfinityKey ∧ key < P.positiveInfinityKey ∧ key.length = P.keyLength

instance (P : TreeParams) (key : ADKey) : Decidable (P.InRange key) :=
  inferInstanceAs (Decidable (_ ∧ _ ∧ _))

section

variable {P : TreeParams} {operation : Operation} {old : Option ADValue}

/-- What the legacy tree does at a leaf, the batch prover does too. -/
theorem leafAction_of_change {act : Action ADKey ADValue} (c : Bool)
    (h : leafChange P operation old = .ok act) :
    leafAction (P.batch c) operation old = .ok (some act) := by
  unfold leafChange at h
  unfold leafAction
  cases hfn : operation.updateFn with
  | none =>
    rw [hfn] at h
    cases h
    rfl
  | some updateFn =>
    rw [hfn] at h
    simp only at h ⊢
    cases hnew : updateFn old with
    | error e =>
      rw [hnew] at h
      cases h
    | ok new =>
      rw [hnew] at h
      cases new with
      | none =>
        cases old with
        | none =>
          cases h
          rfl
        | some w => cases h
      | some v =>
        simp only at h ⊢
        split at h
        · rename_i hlen
          cases h
          have hfits : lengthFits (P.batch c) v = .ok () := if_pos hlen
          rw [hfits]
        · cases h

/-- The value that a change leaves has the fixed length. -/
theorem length_newValue {act : Action ADKey ADValue} (h : leafChange P operation old = .ok act)
    (hold : ∀ v ∈ old, v.length = P.valueLength) :
    ∀ v ∈ newValue old (some act), v.length = P.valueLength := by
  have hfits : ∀ v, lengthFits (P.batch false) v = .ok () → v.length = P.valueLength := by
    intro v hv
    by_contra hne
    have : lengthFits (P.batch false) v = .error (.wrongValueLength P.valueLength) := if_neg hne
    rw [this] at hv
    cases hv
  rcases leafAction_cases (leafAction_of_change false h) with
    h | ⟨h, _⟩ | ⟨v, h, _, hv⟩ | ⟨v, h, _, hv⟩
  · cases h
    exact hold
  · cases h
  · cases h
    intro w hw
    cases hw
    exact hfits v hv
  · cases h
    intro w hw
    cases hw
    exact hfits v hv

end

namespace AVLTree

/-- **The legacy tree stands for a tree.**  Where there are no keys in range the tree is never
changed, and it need not be a chain. -/
structure Stands (P : TreeParams) (tree : AVLTree) (t : Tree) : Prop where
  shows : tree.topNode.Shows P.hf t
  chain : P.negativeInfinityKey < P.positiveInfinityKey →
    Chain P.negativeInfinityKey P.positiveInfinityKey t
  balanced : t.Balanced
  fits : ∀ e ∈ t.entries, e.1.length = P.keyLength ∧ e.2.length = P.valueLength

section

variable {P : TreeParams} {operation : Operation} {tree : AVLTree} {t : Tree}

/-- A new tree stands for a single leaf. -/
theorem new_stands (P : TreeParams) (tag : Option Ref) : (new P none).Stands P
    (.leaf tag P.negativeInfinityKey (sentinelValue P) P.positiveInfinityKey) where
  shows := .leaf fun d hd => by cases hd
  chain := fun h => ⟨rfl, rfl, h⟩
  balanced := trivial
  fits := by
    intro e he
    rw [entries_leaf, List.mem_singleton] at he
    subst he
    exact ⟨List.length_replicate, List.length_replicate⟩

/-- The root hash is the label of the tree. -/
theorem rootHash_spec (h : tree.Stands P t) :
    (tree.rootHash P).1 = treeLabel P.hf t ∧ (tree.rootHash P).2.Stands P t := by
  obtain ⟨hlabel, hshows⟩ := ProverNodes.label_spec h.shows
  exact ⟨hlabel, hshows, h.chain, h.balanced, h.fits⟩

theorem run_outOfRange (hkey : ¬ P.InRange operation.key) (tree : AVLTree) :
    ∃ e, tree.run P operation = (.error e, tree) := by
  rw [run]
  by_cases h₁ : operation.key > P.negativeInfinityKey
  · by_cases h₂ : operation.key < P.positiveInfinityKey
    · have h₃ : ¬ operation.key.length = P.keyLength := fun h₃ => hkey ⟨h₁, h₂, h₃⟩
      rw [if_neg (not_not.2 h₁), if_neg (not_not.2 h₂), if_pos h₃]
      exact ⟨_, rfl⟩
    · rw [if_neg (not_not.2 h₁), if_pos h₂]
      exact ⟨_, rfl⟩
  · rw [if_pos h₁]
    exact ⟨_, rfl⟩

theorem run_inRange (hkey : P.InRange operation.key) (tree : AVLTree) :
    tree.run P operation
      = match (modifyHelper P operation tree.topNode false).2 with
        | .error e => (.error e, ⟨(modifyHelper P operation tree.topNode false).1⟩)
        | .ok m => (.ok ⟨operation.key, m.proof⟩,
            ⟨if m.changeHappened then m.root
              else (modifyHelper P operation tree.topNode false).1⟩) := by
  rw [run]
  exact (if_neg (not_not.2 hkey.1)).trans
    ((if_neg (not_not.2 hkey.2.1)).trans (if_neg (not_not.2 hkey.2.2)))

/-- The value that is found is the value of the key. -/
theorem Stands.get_of_meets (h : tree.Stands P t) {key : ADKey} (hkey : P.InRange key) :
    ∃ k v n, leafAt t (searchPath key false t) = some (k, v, n)
      ∧ t.get key = if meets key t then some v else none := by
  have hchain := h.chain (hkey.1.trans hkey.2.1)
  obtain ⟨k, v, n, hleaf, _⟩ := search_spec hchain hkey.1 hkey.2.1
  exact ⟨k, v, n, hleaf, get_of_search hchain hkey.1 hkey.2.1 hleaf⟩

/-- An operation that is refused changes nothing. -/
theorem run_error (h : tree.Stands P t) (hkey : P.InRange operation.key) {e : RunError}
    (hchange : leafChange P operation (t.get operation.key) = .error e) :
    ∃ tree', tree.run P operation = (.error e, tree') ∧ tree'.Stands P t := by
  obtain ⟨k, v, n, hleaf, hget⟩ := h.get_of_meets hkey
  obtain ⟨x, hrun, hx⟩ := (modifyHelper_spec h.shows h.balanced hleaf hget).1 e hchange
  rw [run_inRange hkey, hrun]
  exact ⟨_, rfl, hx, h.chain, h.balanced, h.fits⟩

/-- **An operation of the legacy tree** does what it does to the tree, and returns a proof
that follows the search path. -/
theorem run_spec (h : tree.Stands P t) (hkey : P.InRange operation.key)
    {act : Action ADKey ADValue} (hact : leafChange P operation (t.get operation.key) = .ok act) :
    ∃ t' changed up tree' proof,
      modifyAt t (searchPath operation.key false t) act = some (t', changed, up)
      ∧ tree.run P operation = (.ok ⟨operation.key, proof⟩, tree') ∧ tree'.Stands P t'
      ∧ Follows P.hf (meets operation.key t) proof t (searchPath operation.key false t)
      ∧ Operated P.negativeInfinityKey P.positiveInfinityKey operation.key t t'
          (newValue (t.get operation.key) (some act)) := by
  obtain ⟨k, v, n, hleaf, hget⟩ := h.get_of_meets hkey
  have hchain := h.chain (hkey.1.trans hkey.2.1)
  obtain ⟨t', dh, visits, hop, _, hdone⟩ :=
    operate_spec hchain h.balanced hkey.1 hkey.2.1 (leafAction_of_change false hact)
  obtain ⟨⟨t₁, changed, up⟩, hmod, heq⟩ := Option.map_eq_some_iff.1 hop
  obtain rfl : t₁ = t' := congrArg Prod.fst heq
  obtain ⟨x, root, proof, hrun, hroot, hx, hfollows⟩ :=
    (modifyHelper_spec h.shows h.balanced hleaf hget).2 act hact _ _ _ hmod
  have hfits : ∀ e ∈ t₁.entries, e.1.length = P.keyLength ∧ e.2.length = P.valueLength := by
    intro e he
    have hget' := (get_eq_some_iff hdone.chain).2 he
    by_cases hne : e.1 = operation.key
    · rw [hne, hdone.get_self] at hget'
      refine ⟨hne ▸ hkey.2.2, length_newValue hact (fun w hw => ?_) e.2 hget'⟩
      exact (h.fits _ (mem_of_get hw)).2
    · rw [hdone.get_other _ hne] at hget'
      exact h.fits e (mem_of_get hget')
  rw [run_inRange hkey, hrun]
  refine ⟨t₁, changed, up, _, proof, hmod, rfl,
    ⟨?_, fun _ => hdone.chain, hdone.balanced, hfits⟩, hfollows, hdone⟩
  cases changed with
  | true => exact hroot
  | false =>
    obtain ⟨rfl, _⟩ := eq_of_unchanged hmod
    exact hx rfl

end

end AVLTree

/-! ## Runs -/

/-- What is done with a tree: operations, and questions for its root hash. -/
inductive Event where
  | operation (operation : Operation)
  | digest

/-- The legacy tree after an event. -/
def AVLTree.step (P : TreeParams) (tree : AVLTree) : Event → AVLTree
  | .operation operation => (tree.run P operation).2
  | .digest => (tree.rootHash P).2

namespace AVLTree

/-- After an event the legacy tree stands for some tree again. -/
theorem Stands.step {P : TreeParams} {tree : AVLTree} {t : Tree} (h : tree.Stands P t)
    (event : Event) : ∃ t', (tree.step P event).Stands P t' := by
  cases event with
  | digest => exact ⟨t, (rootHash_spec h).2⟩
  | operation operation =>
    rw [AVLTree.step]
    by_cases hkey : P.InRange operation.key
    · cases hchange : leafChange P operation (t.get operation.key) with
      | error e =>
        obtain ⟨tree', hrun, htree'⟩ := run_error h hkey hchange
        exact ⟨t, hrun ▸ htree'⟩
      | ok act =>
        obtain ⟨t', _, _, tree', _, _, hrun, htree', _⟩ := run_spec h hkey hchange
        exact ⟨t', hrun ▸ htree'⟩
    · obtain ⟨e, hrun⟩ := run_outOfRange hkey tree
      exact ⟨t, hrun ▸ h⟩

/-- After any events a tree that started empty stands for some tree. -/
theorem stands_run (P : TreeParams) (events : List Event) :
    ∃ t, (events.foldl (AVLTree.step P) (.new P none)).Stands P t := by
  have hall : ∀ tree : AVLTree, (∃ t, tree.Stands P t) →
      ∃ t, (events.foldl (AVLTree.step P) tree).Stands P t := by
    induction events with
    | nil => exact fun tree h => h
    | cons event events ih =>
      rintro tree ⟨t, h⟩
      exact ih _ (h.step event)
  exact hall _ ⟨_, new_stands P none⟩

end AVLTree

/-- Keys and values of one byte, with a hash that shows the first four bytes. -/
def smallParams : TreeParams where
  keyLength := 1
  valueLength := 1
  valueLength_lt := by norm_num
  hf :=
    { digestSize := 4
      digestSize_pos := CryptographicHash.four_pos
      hash := fun message => (message ++ [0, 0, 0, 0]).take 4
      length_hash := CryptographicHash.length_take_four }

end Sparkz.Legacy
