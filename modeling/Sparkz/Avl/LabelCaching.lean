import Sparkz.Avl.NodePrograms
import Sparkz.Avl.Labels
import Sparkz.Avl.ProverCalls

/-!
# Computations that cache labels

Looking for a node computes labels, of nodes that may be in no tree any more.

* `Labelled` — labels were cached, and nothing else has happened; the trees are what they were.
* `label_caches`, `containsLoop_keeps`, `checkChangedNodes_keeps` — labels and searches do no
  more.
* `contains_labelled`, `removedNodes_labelled` — the calls of the prover that search.
-/

namespace Sparkz.Avl

open Sparkz.Lib Sparkz.Lib.LeafTree

/-- Labels were cached, those that were there are there still, and nothing else has happened. -/
structure Labelled {N : Type} (mode : Mode) (hf : CryptographicHash) (s s' : TreeState N) :
    Prop where
  cached : Cached mode hf s.heap s'.heap
  labels : ∀ {x : Ref} {o : Node} {l : Digest}, s.heap[x]? = some o → o.labelOpt = some l →
    ∃ o', s'.heap[x]? = some o' ∧ o'.labelOpt = some l
  same : s' = { s with heap := s'.heap }

section

variable {N : Type} {mode : Mode} {hf : CryptographicHash} {s s₁ s₂ : TreeState N} {x : Ref}
  {o : Node} {l : Digest}

theorem Labelled.refl (mode : Mode) (hf : CryptographicHash) (s : TreeState N) :
    Labelled mode hf s s where
  cached := .refl mode hf s.heap
  labels := fun ho hl => ⟨_, ho, hl⟩
  same := rfl

theorem Labelled.trans (h₁ : Labelled mode hf s s₁) (h₂ : Labelled mode hf s₁ s₂) :
    Labelled mode hf s s₂ where
  cached := h₁.cached.trans h₂.cached
  labels := by
    intro x o l ho hl
    obtain ⟨o₁, ho₁, hl₁⟩ := h₁.labels ho hl
    exact h₂.labels ho₁ hl₁
  same := by
    rw [h₂.same, h₁.same]

/-- The node of a tree whose label is cached. -/
theorem Represents.label_of_cached {t : Tree} {M : Set Ref}
    (hr : Represents mode hf s.heap t x M) (ho : s.heap[x]? = some o)
    (hl : o.labelOpt = some l) : l = treeLabel hf t := by
  obtain ⟨o', ho', hlabel, _⟩ := hr.view
  rw [ho] at ho'
  cases ho'
  exact hlabel l hl

/-- A label that is computed for a node without one. -/
theorem Labelled.set (h : Labelled mode hf s s₁) (ho : s.heap[x]? = some o)
    (hnone : o.labelOpt = none) {o₁ : Node} (ho₁ : s₁.heap[x]? = some o₁)
    (hright : ∀ t M, Represents mode hf s₁.heap t x M → l = treeLabel hf t) :
    Labelled mode hf s { s₁ with heap := s₁.heap.set x { o₁ with labelOpt := some l } } where
  cached := h.cached.trans (cached_set hright ho₁)
  labels := by
    intro y oy ly hoy hly
    have hy : y ≠ x := by
      rintro rfl
      rw [ho] at hoy
      cases hoy
      rw [hnone] at hly
      cases hly
    obtain ⟨o', ho', hl'⟩ := h.labels hoy hly
    exact ⟨o', (List.getElem?_set_ne hy.symm).trans ho', hl'⟩
  same := by
    rw [h.same]

/-- A computation returns the label that it has cached for a node. -/
def CachesAt (x : Ref) (r : EStateM.Result AvlError (TreeState N) Digest) : Prop :=
  ∀ l s', r = .ok l s' → ∃ o, s'.heap[x]? = some o ∧ o.labelOpt = some l

/-- What is to be shown of a run of `label`. -/
def CachesLabel (mode : Mode) (hf : CryptographicHash) (x : Ref) (s : TreeState N)
    (r : EStateM.Result AvlError (TreeState N) Digest) : Prop :=
  Labelled mode hf s (finalState r) ∧ CachesAt x r

theorem CachesLabel.of_error {r : EStateM.Result AvlError (TreeState N) Digest} {e : AvlError}
    (hr : r = .error e s₁) (h : Labelled mode hf s s₁) : CachesLabel mode hf x s r := by
  rw [hr]
  exact ⟨h, fun _ _ h => by cases h⟩

/-- The end of `label`, for a node that had no label when it started. -/
theorem CachesLabel.of_set {r : EStateM.Result AvlError (TreeState N) Digest}
    (h : Labelled mode hf s s₁) (ho : s.heap[x]? = some o) (hnone : o.labelOpt = none)
    (hright : ∀ t M, Represents mode hf s₁.heap t x M → l = treeLabel hf t)
    (hr : r = (do
      let o' ← getNode x
      setNode x { o' with labelOpt := some l }
      pure l : TreeM N Digest) s₁) : CachesLabel mode hf x s r := by
  obtain ⟨o₁, ho₁, _⟩ := h.cached.node ho
  rw [hr, cacheLabel_ok ho₁]
  refine ⟨h.set ho hnone ho₁ hright, fun l' s' hrun => ?_⟩
  cases hrun
  exact ⟨_, List.getElem?_set_self (List.getElem?_eq_some_iff.1 ho₁).1, rfl⟩

/-- **A label** is cached, and nothing else happens, whatever node it is of. -/
theorem label_caches (fuel : ℕ) (x : Ref) (s : TreeState N) :
    CachesLabel mode hf x s (label hf fuel x s) := by
  induction fuel generalizing x s with
  | zero => exact .of_error rfl (.refl mode hf s)
  | succ fuel ih =>
    cases ho : s.heap[x]? with
    | none =>
      have hrun : label hf (fuel + 1) x s = .error .nullPointer s := by
        rw [label, run_bind, getNode, ho]
      exact .of_error hrun (.refl mode hf s)
    | some o =>
      rw [label, bind_ok (getNode_ok ho)]
      cases hopt : o.labelOpt with
      | some l =>
        refine ⟨.refl mode hf s, fun l' s' h => ?_⟩
        cases h
        exact ⟨o, ho, hopt⟩
      | none =>
        have hviews : ∀ {s₁ : TreeState N} {t : Tree} {M : Set Ref}, Labelled mode hf s s₁ →
            Represents mode hf s₁.heap t x M → Views mode hf s₁.heap t o.content.view := by
          intro s₁ t M h hr
          obtain ⟨o₁, ho₁, _, hview⟩ := hr.view
          obtain ⟨o', ho', hc, _⟩ := h.cached.node ho
          rw [ho₁] at ho'
          cases ho'
          rwa [hc] at hview
        simp only
        cases hcontent : o.content.view with
        | labelOnlyNode l =>
          refine .of_set (l := l) (.refl mode hf s) ho hopt (fun t M hr => ?_) rfl
          have hview := hviews (.refl mode hf s) hr
          rw [hcontent] at hview
          cases t with
          | stub l' =>
            cases hview
            rfl
          | leaf tag k v n => cases hview
          | node tag k l r b =>
            obtain ⟨_, _, _, _, hview, _⟩ := hview
            cases hview
        | leaf k v n =>
          refine .of_set (l := hf.hash (leafMessage k v n)) (.refl mode hf s) ho hopt
            (fun t M hr => ?_) rfl
          have hview := hviews (.refl mode hf s) hr
          rw [hcontent] at hview
          cases t with
          | stub l' => cases hview
          | leaf tag k v n =>
            cases hview
            rfl
          | node tag k l r b =>
            obtain ⟨_, _, _, _, hview, _⟩ := hview
            cases hview
        | internalNode key lx rx b =>
          have hleft := ih lx s
          cases hrun₁ : label hf fuel lx s with
          | error e s₁ =>
            rw [hrun₁] at hleft
            exact .of_error (bind_error hrun₁) hleft.1
          | ok l₁ s₁ =>
            rw [hrun₁] at hleft
            have hright := ih rx s₁
            cases hrun₂ : label hf fuel rx s₁ with
            | error e s₂ =>
              rw [hrun₂] at hright
              exact .of_error ((bind_ok hrun₁).trans (bind_error hrun₂)) (hleft.1.trans hright.1)
            | ok l₂ s₂ =>
              rw [hrun₂] at hright
              -- the labels of the children are cached, so they are right in every tree
              obtain ⟨o₁, ho₁, hl₁⟩ := hleft.2 l₁ s₁ rfl
              obtain ⟨o₁', ho₁', hl₁'⟩ := hright.1.labels ho₁ hl₁
              obtain ⟨o₂, ho₂, hl₂⟩ := hright.2 l₂ s₂ rfl
              have hboth := hleft.1.trans hright.1
              refine .of_set (l := hf.hash (internalMessage b l₁ l₂)) hboth ho hopt
                (fun t M hr => ?_) ((bind_ok hrun₁).trans ((bind_ok hrun₂).trans rfl))
              have hview := hviews hboth hr
              rw [hcontent] at hview
              cases t with
              | stub l' => cases hview
              | leaf tag k v n => cases hview
              | node tag k l r b =>
                obtain ⟨_, _, _, _, hview, hrl, hrr⟩ := hview
                cases hview
                rw [treeLabel, ← hrl.label_of_cached ho₁' hl₁', ← hrr.label_of_cached ho₂ hl₂]

/-! ## Searches -/

theorem label_keeps (s₀ : TreeState N) (fuel : ℕ) (x : Ref) :
    Keeps (Labelled mode hf s₀) (label hf fuel x : TreeM N Digest) :=
  fun s hs => hs.trans (label_caches fuel x s).1

theorem getNode_keeps (I : TreeState N → Prop) (x : Ref) : Keeps I (getNode x : TreeM N Node) := by
  intro s hs
  rw [getNode]
  cases s.heap[x]? <;> exact hs

end

namespace BatchAVLProver

variable {P : TreeParams} {s₀ : TreeState ProverNav}

theorem containsLoop_keeps (key : ADKey) (l : Digest) (fuel : ℕ) (currentNode : Ref)
    (keyFound : Bool) :
    Keeps (Labelled .prover P.hf s₀) (containsLoop P key l fuel currentNode keyFound) := by
  induction fuel generalizing currentNode keyFound with
  | zero => exact .throw _
  | succ fuel ih =>
    refine (label_keeps s₀ (fuel + 1) currentNode).bind fun l' => .ite (.pure true) ?_
    refine (getNode_keeps _ currentNode).bind fun o => ?_
    cases o.content with
    | internalProverNode isNew k left right b =>
      refine .ite (ih left true) ?_
      cases compare key k with
      | lt => exact ih left false
      | eq => exact ih right true
      | gt => exact ih right false
    | labelOnlyNode l => exact .pure false
    | proverLeaf isNew k v nk => exact .pure false
    | verifierLeaf k v nk => exact .pure false
    | internalVerifierNode l r b => exact .pure false

theorem containsNode_keeps (topNode node : Ref) :
    Keeps (Labelled .prover P.hf s₀) (containsNode P topNode node) := by
  refine .get_bind fun s => Keeps.bind ?_ fun key => (label_keeps s₀ _ node).bind fun l =>
    containsLoop_keeps key l _ topNode false
  refine (getNode_keeps _ node).bind fun o => ?_
  cases o.content with
  | internalProverNode isNew k left right b => exact .pure _
  | proverLeaf isNew k v nk => exact .pure _
  | labelOnlyNode l => exact .throw _
  | verifierLeaf k v nk => exact .throw _
  | internalVerifierNode l r b => exact .throw _

/-- Labels were cached, and one of the buffers has grown. -/
def Searched (P : TreeParams) (s s' : TreeState ProverNav) : Prop :=
  ∃ buffer, Labelled .prover P.hf { s with changedNodesBuffer := buffer } s'

theorem checkChangedNodes_keeps (topNode : Ref) (nodes : List Ref) :
    Keeps (Searched P s₀) (checkChangedNodes P topNode nodes) := by
  induction nodes with
  | nil => exact .pure ()
  | cons cn rest ih =>
    have hsearch : Keeps (Searched P s₀) (containsNode P topNode cn) := by
      rintro s ⟨buffer, hs⟩
      exact ⟨buffer, containsNode_keeps topNode cn s hs⟩
    refine hsearch.bind fun contained => .ite (Keeps.bind (.modify ?_) fun _ => ih) ih
    rintro s ⟨buffer, hs⟩
    exact ⟨s.changedNodesBuffer ++ [cn], hs.cached, hs.labels, by rw [hs.same]⟩

/-- `contains` caches labels. -/
theorem contains_labelled (p : BatchAVLProver) (key : ADKey) (l : Digest) :
    ∃ heap, (p.contains P key l).2 = { p with tree := { p.tree with heap := heap } }
      ∧ Cached .prover P.hf p.tree.heap heap := by
  have h : Labelled .prover P.hf p.tree
      (finalState (containsLoop P key l (p.tree.heap.length + 1) p.topNode false p.tree)) :=
    containsLoop_keeps key l _ p.topNode false p.tree (.refl .prover P.hf p.tree)
  refine ⟨_, ?_, h.cached⟩
  rw [contains, onNodes]
  have hsame := h.same
  cases hrun : containsLoop P key l (p.tree.heap.length + 1) p.topNode false p.tree with
  | ok b s =>
    rw [hrun] at hsame
    exact congrArg (fun tree => { p with tree := tree }) hsame
  | error e s =>
    rw [hrun] at hsame
    exact congrArg (fun tree => { p with tree := tree }) hsame

/-- `removedNodes` caches labels, and adds to its buffer. -/
theorem removedNodes_labelled (p : BatchAVLProver) :
    ∃ heap buffer, (p.removedNodes P).2
        = { p with tree := { p.tree with heap := heap, changedNodesBuffer := buffer } }
      ∧ Cached .prover P.hf p.tree.heap heap := by
  have hkeeps : Keeps (Searched P p.tree) (removedNodesBody P p.topNode) :=
    .get_bind fun s => (checkChangedNodes_keeps p.topNode _).bind fun _ => .get_bind fun s' =>
      .pure _
  obtain ⟨buffer, h⟩ := hkeeps p.tree ⟨p.tree.changedNodesBuffer, .refl .prover P.hf p.tree⟩
  refine ⟨_, buffer, ?_, h.cached⟩
  rw [removedNodes, onNodes]
  have hsame := h.same
  cases hrun : removedNodesBody P p.topNode p.tree with
  | ok nodes s =>
    rw [hrun] at hsame
    exact congrArg (fun tree => { p with tree := tree }) hsame
  | error e s =>
    rw [hrun] at hsame
    exact congrArg (fun tree => { p with tree := tree }) hsame

end BatchAVLProver

end Sparkz.Avl
