import Sparkz.Legacy.TreapRun

/-!
# The proofs of the legacy treap verify

* `VerifierNodes.Shows` — a node of the verifier stands for a tree of which it knows the
  labels of the children.
* `verifyLeft_spec`, `verifyRight_spec` — the verifier lifts a changed child where the
  prover does, whatever the levels are.
* `verifyHelper_spec` — along the elements of a way through a tree the verifier does what
  the change does to the tree.
* `run_verifies` — for every run of a treap that starts empty.
-/

namespace Sparkz.Legacy.Treaps

open Sparkz.Lib Sparkz.Lib.LeafTree Sparkz.Avl

section

variable {L : Type} [OrderedLevel L] (hf : CryptographicHash) (levelFunc : ADKey → L)

/-- The node stands for the tree. -/
inductive VerifierNodes.Shows : VerifierNodes L → TreapTree → Prop
  | leaf {labelOpt : Option Digest} {k n : ADKey} {v : ADValue}
      (hlabel : ∀ d ∈ labelOpt, d = leafLabel hf k v n) :
      Shows (.leaf labelOpt k v n) (.leaf none k v n)
  | node {labelOpt : Option Digest} {k : ADKey} {l r : TreapTree}
      (hlabel : ∀ d ∈ labelOpt, d = labelOf hf levelFunc (.node none k l r 0)) :
      Shows (.verifierNode labelOpt (labelOf hf levelFunc l) (labelOf hf levelFunc r) (levelFunc k))
        (.node none k l r 0)

variable {hf levelFunc} {n : VerifierNodes L} {t l₀ l r r₀ : TreapTree}

theorem VerifierNodes.label_spec (h : n.Shows hf levelFunc t) :
    (n.label hf).1 = labelOf hf levelFunc t := by
  cases h with
  | @leaf labelOpt k nk v hlabel =>
    cases labelOpt with
    | none => rfl
    | some d => exact hlabel d rfl
  | @node labelOpt k l r hlabel =>
    cases labelOpt with
    | none => rfl
    | some d => exact hlabel d rfl

/-- A node that was just made. -/
theorem VerifierNodes.Shows.fresh (k : ADKey) (l r : TreapTree) :
    (verifierNode none (labelOf hf levelFunc l) (labelOf hf levelFunc r) (levelFunc k)).Shows
      hf levelFunc (.node none k l r 0) :=
  .node fun d hd => by cases hd

/-- A root above its changed left child. -/
theorem verifyLeft_spec {child : Verified L} (k : ADKey) (hchild : child.changeHappened = true)
    (hold : child.oldLabel = labelOf hf levelFunc l₀) (hl : child.root.Shows hf levelFunc l) :
    ∃ root, verifyLeft hf (labelOf hf levelFunc r) (levelFunc k) child
        = ⟨root, true, labelOf hf levelFunc (.node none k l₀ r 0)⟩
      ∧ root.Shows hf levelFunc (liftLeft (levelOrder levelFunc) k l r) := by
  obtain ⟨root, changed, oldLabel⟩ := child
  subst hchild hold
  have hlabel : (root.label hf).1 = labelOf hf levelFunc l := VerifierNodes.label_spec hl
  unfold verifyLeft
  simp only [if_true]
  rw [hlabel]
  cases hl with
  | leaf _ => exact ⟨_, rfl, .fresh k _ r⟩
  | @node _ kl ll lr _ =>
    rw [liftLeft, levelOrder]
    simp only
    split_ifs with hge
    · exact ⟨_, rfl, .fresh kl ll (.node none k lr r 0)⟩
    · exact ⟨_, rfl, .fresh k _ r⟩

/-- A root above its changed right child. -/
theorem verifyRight_spec {child : Verified L} (k : ADKey) (hchild : child.changeHappened = true)
    (hold : child.oldLabel = labelOf hf levelFunc r₀) (hr : child.root.Shows hf levelFunc r) :
    ∃ root, verifyRight hf (labelOf hf levelFunc l) (levelFunc k) child
        = ⟨root, true, labelOf hf levelFunc (.node none k l r₀ 0)⟩
      ∧ root.Shows hf levelFunc (liftRight (levelOrder levelFunc) k l r) := by
  obtain ⟨root, changed, oldLabel⟩ := child
  subst hchild hold
  have hlabel : (root.label hf).1 = labelOf hf levelFunc r := VerifierNodes.label_spec hr
  unfold verifyRight
  simp only [if_true]
  rw [hlabel]
  cases hr with
  | leaf _ => exact ⟨_, rfl, .fresh k l _⟩
  | @node _ kr rl rr _ =>
    rw [liftRight, levelOrder]
    simp only
    split_ifs with hgt
    · exact ⟨_, rfl, .fresh kr (.node none k l rl 0) rr⟩
    · exact ⟨_, rfl, .fresh k l _⟩

variable {operation : Operation} {found : Bool} {k nk : ADKey} {v : ADValue}

/-- The leaf at the end of the way. -/
theorem verifyLeaf_spec (hfound : found = true → k = operation.key)
    (hunfound : found = false → k < operation.key ∧ operation.key < nk)
    {act : Action ADKey ADValue}
    (hact : leafChange operation (if found then some v else none) = .ok act) :
    ∃ root t', verifyHelper hf levelFunc operation.key (updateFn operation)
        (leafElements found k v nk) = some ⟨root, true, leafLabel hf k v nk⟩
      ∧ changeAt (levelOrder levelFunc) (.leaf none k v nk : TreapTree) [] act = some t'
      ∧ root.Shows hf levelFunc t' := by
  obtain ⟨w, hnew, rfl⟩ := Treap.action_of_change hact
  cases found with
  | true =>
    obtain rfl := hfound rfl
    have hrun : verifyHelper hf levelFunc operation.key (updateFn operation)
        (leafElements true operation.key v nk)
        = verifyFound hf operation.key (updateFn operation) nk v := rfl
    rw [if_pos rfl] at hnew
    rw [hrun, verifyFound, hnew]
    exact ⟨_, _, rfl, rfl, .leaf fun d hd => by cases hd⟩
  | false =>
    have hrun : verifyHelper hf levelFunc operation.key (updateFn operation)
        (leafElements false k v nk)
        = verifyNotFound hf levelFunc operation.key (updateFn operation) k nk v := rfl
    rw [if_neg Bool.false_ne_true] at hnew
    rw [hrun, verifyNotFound, if_pos (hunfound rfl), hnew]
    exact ⟨_, _, rfl, rfl,
      .fresh operation.key (.leaf none k v operation.key) (.leaf none operation.key w nk)⟩

/-- **The walk along the elements of a way** does what the change of the tree does, and gives
the label of the tree before it. -/
theorem verifyHelper_spec {path : List Bool} (hleaf : leafAt t path = some (k, v, nk))
    (hfound : found = true → k = operation.key)
    (hunfound : found = false → k < operation.key ∧ operation.key < nk)
    {act : Action ADKey ADValue}
    (hact : leafChange operation (if found then some v else none) = .ok act) :
    ∃ root t', verifyHelper hf levelFunc operation.key (updateFn operation)
        (pathElements hf levelFunc found t path) = some ⟨root, true, labelOf hf levelFunc t⟩
      ∧ changeAt (levelOrder levelFunc) t path act = some t' ∧ root.Shows hf levelFunc t' := by
  induction t generalizing path with
  | stub d => exact d.elim
  | leaf tag k' v' nk' =>
    cases path with
    | cons d path => cases hleaf
    | nil =>
      cases hleaf
      obtain rfl : tag = none := Subsingleton.elim _ _
      exact verifyLeaf_spec hfound hunfound hact
  | node tag k' l r b ihl ihr =>
    cases path with
    | nil => cases hleaf
    | cons d path =>
      cases d with
      | true =>
        obtain ⟨root, l', hrun, hchange, hshows⟩ := ihl hleaf
        obtain ⟨root', hstep, hshows'⟩ := verifyLeft_spec (r := r) k'
          (show (⟨root, true, _⟩ : Verified L).changeHappened = true from rfl) rfl hshows
        refine ⟨root', _, ?_, by rw [changeAt, hchange, Option.map_some], hshows'⟩
        show (verifyHelper hf levelFunc operation.key (updateFn operation)
          (pathElements hf levelFunc found l path)).bind _ = _
        rw [hrun]
        exact congrArg some hstep
      | false =>
        obtain ⟨root, r', hrun, hchange, hshows⟩ := ihr hleaf
        obtain ⟨root', hstep, hshows'⟩ := verifyRight_spec (l := l) k'
          (show (⟨root, true, _⟩ : Verified L).changeHappened = true from rfl) rfl hshows
        refine ⟨root', _, ?_, by rw [changeAt, hchange, Option.map_some], hshows'⟩
        show (verifyHelper hf levelFunc operation.key (updateFn operation)
          (pathElements hf levelFunc found r path)).bind _ = _
        rw [hrun]
        exact congrArg some hstep

/-- **The proofs of the treap verify.**  After any events on a treap that starts empty, for
any levels: the proof that an operation returns is accepted with its update function and
the root hash before it, and gives the root hash after it; an operation that fails leaves
the root hash as it is. -/
theorem treap_run_verifies (hf : CryptographicHash) (levelFunc : ADKey → L) (events : List Event)
    (operation : Operation) :
    let treap := events.foldl (Treap.step hf levelFunc) (.new none)
    let root := (treap.rootHash hf levelFunc).1
    match treap.run hf levelFunc operation with
    | (.ok proof, treap') => proof.verify hf levelFunc root (updateFn operation)
        = some (treap'.rootHash hf levelFunc).1
    | (.error _, treap') => (treap'.rootHash hf levelFunc).1 = root := by
  intro treap root
  have h : treap.Stands hf levelFunc := Treap.stands_run hf levelFunc events
  have hroot : root = labelOf hf levelFunc treap.topNode.tree := (Treap.rootHash_spec h).1
  by_cases hkey : InRange operation.key
  · have hspec := Treap.run_spec operation h hkey
    cases hchange : leafChange operation (treap.topNode.tree.get operation.key) with
    | error e =>
      rw [hchange] at hspec
      obtain ⟨treap', hrun, hstands, htree⟩ := hspec
      rw [hrun]
      exact (Treap.rootHash_spec hstands).1.trans (htree ▸ hroot.symm)
    | ok act =>
      rw [hchange] at hspec
      obtain ⟨treap', hrun, hstands, hmod, _⟩ := hspec
      obtain ⟨k, v, nk, hleaf, _, hmet, hgap⟩ := search_spec h.chain hkey.1 hkey.2
      have hget := get_of_search h.chain hkey.1 hkey.2 hleaf
      have hunmet : meets operation.key treap.topNode.tree = false →
          k < operation.key ∧ operation.key < nk := fun hm => ⟨(hgap hm).1, (hgap hm).2.1⟩
      obtain ⟨node, t', hverify, hmod', hshows⟩ :
          ∃ node t', verifyHelper hf levelFunc operation.key (updateFn operation)
              (pathElements hf levelFunc (meets operation.key treap.topNode.tree)
                treap.topNode.tree (searchPath operation.key false treap.topNode.tree))
              = some ⟨node, true, labelOf hf levelFunc treap.topNode.tree⟩
            ∧ changeAt (levelOrder levelFunc) treap.topNode.tree
                (searchPath operation.key false treap.topNode.tree) act = some t'
            ∧ node.Shows hf levelFunc t' :=
        verifyHelper_spec hleaf hmet hunmet (hget ▸ hchange)
      rw [hmod] at hmod'
      cases hmod'
      rw [hrun]
      simp only
      rw [TreapModifyProof.verify, hverify, hroot]
      simp only [if_true]
      rw [VerifierNodes.label_spec hshows, (Treap.rootHash_spec hstands).1]
  · rw [Treap.run_outOfRange hkey]

end

end Sparkz.Legacy.Treaps
