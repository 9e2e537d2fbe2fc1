import Sparkz.Avl.Represent

/-!
# What the methods of the nodes do to trees

One specification for each method, over the trees that the nodes stand for.

* `onNodeVisit_spec` — a visit marks a node and changes no tree.
* `getNew_inner`, `getNew_spec`, `getNewKey_spec`, `Leaf.getNew_spec`, `addNode_spec` —
  the new node is the old one, changed in place, or a fresh one.
-/

namespace Sparkz.Avl

open Sparkz.Lib Sparkz.Lib.LeafTree

/-- The state apart from the heap and the buffers is the same. -/
structure Same {N : Type} (s s' : TreeState N) : Prop where
  nav : s'.nav = s.nav
  savedNode : s'.savedNode = s.savedNode
  rootNodeHeight : s'.rootNodeHeight = s.rootNodeHeight

/-- The key of an inner node, where it is stored. -/
def nodeKey : Mode → ADKey → Option ADKey
  | .prover, k => some k
  | .verifier, _ => none

/-- The node at `x` is an inner node with these fields. -/
def Inner (mode : Mode) (h : Heap) (x : Ref) (isNew : Bool) (k : ADKey) (l r : Ref)
    (b : Balance) : Prop :=
  (mode = .verifier → isNew = true)
    ∧ ∃ o, h[x]? = some o ∧ o.content = nodeContent mode isNew k l r b

/-- The node at `x` can be cast to the class of the prover. -/
def Castable (h : Heap) (x : Ref) : Prop := ∃ o, h[x]? = some o ∧ o.content.isProverNode = true

section

variable {N : Type} {mode : Mode} {hf : CryptographicHash} {s s₁ s₂ s₃ : TreeState N} {h h' : Heap}
  {t : Tree} {x : Ref} {M : Set Ref} {W : List Ref}

/-! ## Reading nodes -/

theorem Same.refl (s : TreeState N) : Same s s := ⟨rfl, rfl, rfl⟩

theorem Same.trans (h₁₂ : Same s₁ s₂) (h₂₃ : Same s₂ s₃) : Same s₁ s₃ where
  nav := h₂₃.nav.trans h₁₂.nav
  savedNode := h₂₃.savedNode.trans h₁₂.savedNode
  rootNodeHeight := h₂₃.rootNodeHeight.trans h₁₂.rootNodeHeight

theorem view_leafContent {isNew : Bool} {k n : ADKey} {v : ADValue} :
    (leafContent mode isNew k v n).view = .leaf k v n := by
  cases mode <;> rfl

theorem view_nodeContent {isNew : Bool} {k : ADKey} {l r : Ref} {b : Balance} :
    (nodeContent mode isNew k l r b).view = .internalNode (nodeKey mode k) l r b := by
  cases mode <;> rfl

theorem Tagged.verifier {tag : Option Ref} {isNew : Bool} (htag : Tagged mode x tag isNew)
    (hmode : mode = .verifier) : isNew = true := by
  subst hmode
  exact htag

theorem tagged_none (mode : Mode) (x : Ref) : Tagged mode x none true := by
  cases mode <;> rfl

theorem Holds.inner {isNew : Bool} {tag : Option Ref} {k : ADKey} {l r : Ref} {b : Balance}
    {d : Digest} (hx : Holds h x (nodeContent mode isNew k l r b) d)
    (htag : Tagged mode x tag isNew) : Inner mode h x isNew k l r b := by
  obtain ⟨o, ho, hc, _⟩ := hx
  exact ⟨htag.verifier, o, ho, hc⟩

theorem Inner.lt {isNew : Bool} {k : ADKey} {l r : Ref} {b : Balance}
    (hx : Inner mode h x isNew k l r b) : x < h.length := by
  obtain ⟨_, o, ho, _⟩ := hx
  exact (List.getElem?_eq_some_iff.1 ho).1

theorem Inner.mutable {isNew : Bool} {k : ADKey} {l r : Ref} {b : Balance}
    (hx : Inner mode h x isNew k l r b) : (nodeContent mode isNew k l r b).mutable = isNew := by
  cases mode with
  | prover => rfl
  | verifier => exact (hx.1 rfl).symm

theorem Step.inner {isNew : Bool} {k : ADKey} {l r : Ref} {b : Balance}
    (hs : Step mode h h' M W) (hx : Inner mode h x isNew k l r b) (hM : isNew = true → x ∉ M) :
    Inner mode h' x isNew k l r b := by
  have hmut := hx.mutable
  obtain ⟨hmode, o, ho, hc⟩ := hx
  obtain ⟨o', ho', hc', _⟩ := hs.kept ho fun hm => hM (by rw [← hmut, ← hc]; exact hm)
  exact ⟨hmode, o', ho', hc'.trans hc⟩

theorem Step.castable (hs : Step mode h h' M W) (hx : Castable h x) : Castable h' x := by
  obtain ⟨o, ho, hc⟩ := hx
  obtain ⟨o', ho', hc'⟩ := hs.isProverNode ho
  exact ⟨o', ho', hc'.trans hc⟩

theorem Represents.castable (hr : Represents .prover hf h t x M) : Castable h x := by
  cases t with
  | stub l => exact absurd hr.1 (by decide)
  | leaf tag k v n =>
    obtain ⟨_, ⟨o, ho, hc, _⟩, _⟩ := hr
    exact ⟨o, ho, by rw [hc]; rfl⟩
  | node tag k l r b =>
    obtain ⟨_, _, _, _, _, ⟨o, ho, hc, _⟩, _⟩ := hr
    exact ⟨o, ho, by rw [hc]; rfl⟩

theorem castProver_ok (hx : Castable s.heap x) : castProver x s = .ok () s := by
  obtain ⟨o, ho, hc⟩ := hx
  rw [castProver, bind_ok (getNode_ok ho), if_pos hc]
  rfl

theorem getView_inner {isNew : Bool} {k : ADKey} {l r : Ref} {b : Balance}
    (hx : Inner mode s.heap x isNew k l r b) :
    getView x s = .ok (.internalNode (nodeKey mode k) l r b) s := by
  obtain ⟨_, o, ho, hc⟩ := hx
  rw [getView_ok ho, hc, view_nodeContent]

theorem getInternal_inner {isNew : Bool} {k : ADKey} {l r : Ref} {b : Balance}
    (hx : Inner mode s.heap x isNew k l r b) :
    getInternal x s = .ok ⟨nodeKey mode k, l, r, b⟩ s := by
  rw [getInternal, bind_ok (getView_inner hx)]
  rfl

theorem getView_leaf {tag : Option Ref} {k n : ADKey} {v : ADValue}
    (hr : Represents mode hf s.heap (.leaf tag k v n) x M) : getView x s = .ok (.leaf k v n) s := by
  obtain ⟨isNew, ⟨o, ho, hc, _⟩, _⟩ := hr
  rw [getView_ok ho, hc, view_leafContent]

theorem getView_stub {l : Digest} (hr : Represents mode hf s.heap (.stub l) x M) :
    getView x s = .ok (.labelOnlyNode l) s := by
  obtain ⟨_, ⟨o, ho, hc, _⟩, _⟩ := hr
  rw [getView_ok ho, hc]
  rfl

theorem getLeaf_leaf {tag : Option Ref} {k n : ADKey} {v : ADValue}
    (hr : Represents mode hf s.heap (.leaf tag k v n) x M) : getLeaf x s = .ok (k, v, n) s := by
  rw [getLeaf, bind_ok (getView_leaf hr)]
  rfl

/-- Only inner nodes can be cast to inner nodes. -/
theorem getInternal_error (hr : Represents mode hf s.heap t x M) (ht : t.isNode = false) :
    getInternal x s = .error .classCast s := by
  cases t with
  | stub l =>
    rw [getInternal, bind_ok (getView_stub hr)]
    rfl
  | leaf tag k v n =>
    rw [getInternal, bind_ok (getView_leaf hr)]
    rfl
  | node tag k l r b => cases ht

theorem isLeaf_ok (hr : Represents mode hf s.heap t x M) : isLeaf x s = .ok t.isLeaf s := by
  cases t with
  | stub l =>
    rw [isLeaf, bind_ok (getView_stub hr)]
    rfl
  | leaf tag k v n =>
    rw [isLeaf, bind_ok (getView_leaf hr)]
    rfl
  | node tag k l r b =>
    obtain ⟨isNew, lx, rx, Ml, Mr, hx, htag, _⟩ := hr
    rw [isLeaf, bind_ok (getView_inner (hx.inner htag))]
    rfl

/-! ## Changing one node -/

/-- A heap with one node changed. -/
theorem step_set {o o' : Node} (ho : h[x]? = some o)
    (hprover : o'.content.isProverNode = o.content.isProverNode)
    (hkept : (o.content.mutable = true → x ∉ M) →
      o'.content = o.content ∧ o'.labelOpt = o.labelOpt)
    (hvisited : mode = .prover → o.content.isNew? = some false →
      (o'.visited = true ↔ o.visited = true ∨ x ∈ W))
    (hother : mode = .prover → ∀ y ∈ W, y = x) : Step mode h (h.set x o') M W where
  length_le := by rw [List.length_set]
  kept := by
    intro y oy hoy hM
    by_cases hxy : x = y
    · subst hxy
      rw [ho] at hoy
      cases hoy
      have hlt := (List.getElem?_eq_some_iff.1 ho).1
      exact ⟨o', List.getElem?_set_self hlt, hkept hM⟩
    · exact ⟨oy, by rw [List.getElem?_set_ne hxy]; exact hoy, rfl, rfl⟩
  isProverNode := by
    intro y oy hoy
    by_cases hxy : x = y
    · subst hxy
      rw [ho] at hoy
      cases hoy
      have hlt := (List.getElem?_eq_some_iff.1 ho).1
      exact ⟨o', List.getElem?_set_self hlt, hprover⟩
    · exact ⟨oy, by rw [List.getElem?_set_ne hxy]; exact hoy, rfl⟩
  visited := by
    intro hmode y oy hoy hnew
    by_cases hxy : x = y
    · subst hxy
      rw [ho] at hoy
      cases hoy
      have hlt := (List.getElem?_eq_some_iff.1 ho).1
      exact ⟨o', List.getElem?_set_self hlt, hvisited hmode hnew⟩
    · refine ⟨oy, by rw [List.getElem?_set_ne hxy]; exact hoy, ?_⟩
      have : y ∉ W := fun hy => hxy (hother hmode y hy).symm
      tauto

/-- A heap with one node more. -/
theorem step_append (mode : Mode) (h : Heap) (o : Node) (M : Set Ref) :
    Step mode h (h ++ [o]) M [] where
  length_le := by rw [List.length_append]; omega
  kept := fun hoy _ =>
    ⟨_, List.getElem?_append_left (List.getElem?_eq_some_iff.1 hoy).1 ▸ hoy, rfl, rfl⟩
  isProverNode := fun hoy =>
    ⟨_, List.getElem?_append_left (List.getElem?_eq_some_iff.1 hoy).1 ▸ hoy, rfl⟩
  visited := fun _ _ _ hoy _ =>
    ⟨_, List.getElem?_append_left (List.getElem?_eq_some_iff.1 hoy).1 ▸ hoy, by simp⟩

theorem getElem?_append_length (h : Heap) (o : Node) : (h ++ [o])[h.length]? = some o := by
  simp

theorem newNode_ok (c : Content) :
    newNode c s = .ok s.heap.length { s with heap := s.heap ++ [⟨false, none, c⟩] } := rfl

theorem setNode_ok (o : Node) : setNode x o s = .ok () { s with heap := s.heap.set x o } := rfl

/-! ## Visits -/

theorem Tagged.old {tag : Option Ref} {isNew : Bool} (htag : Tagged mode x tag isNew)
    (hmode : mode = .prover) : tag = if isNew then none else some x := by
  subst hmode
  exact htag

/-- A visit to a node marks it. -/
theorem onNodeVisit_node (P : TreeParams) (operation : Operation) (isRotate : Bool) {o : Node}
    {tag : Option Ref} (ho : s.heap[x]? = some o)
    (htag : mode = .prover → tag = if o.content.mutable then none else some x)
    (hnew : mode = .prover → o.content.isNew? = some o.content.mutable) :
    ∃ s', onNodeVisit P operation x isRotate s = .ok () s' ∧ Same s s'
      ∧ Step mode s.heap s'.heap ∅ tag.toList := by
  have hstep : Step mode s.heap (s.heap.set x { o with visited := true }) ∅ tag.toList := by
    refine step_set ho rfl (fun _ => ⟨rfl, rfl⟩) ?_ ?_
    · intro hmode hold
      have hmut := hnew hmode
      rw [hold] at hmut
      rw [htag hmode, ← Option.some.inj hmut]
      simp
    · intro hmode y hy
      rw [htag hmode] at hy
      split at hy
      · cases hy
      · exact List.mem_singleton.1 hy
  rw [onNodeVisit, bind_ok (getNode_ok ho)]
  by_cases hcollect : (P.collectChangedNodes && !o.visited && o.content.isNew? == some false) = true
  · rw [if_pos hcollect]
    by_cases hrot : isRotate = true
    · rw [if_pos hrot]
      exact ⟨_, rfl, ⟨rfl, rfl, rfl⟩, hstep⟩
    · rw [if_neg hrot]
      by_cases hpath : operation.replacesPath = true
      · rw [if_pos hpath]
        exact ⟨_, rfl, ⟨rfl, rfl, rfl⟩, hstep⟩
      · rw [if_neg hpath]
        by_cases hlook : (!operation.isLookup) = true
        · rw [if_pos hlook]
          exact ⟨_, rfl, ⟨rfl, rfl, rfl⟩, hstep⟩
        · rw [if_neg hlook]
          exact ⟨_, rfl, ⟨rfl, rfl, rfl⟩, hstep⟩
  · rw [if_neg hcollect]
    exact ⟨_, rfl, ⟨rfl, rfl, rfl⟩, hstep⟩

theorem onNodeVisit_inner (P : TreeParams) (operation : Operation) (isRotate : Bool)
    {tag : Option Ref} {isNew : Bool} {k : ADKey} {l r : Ref} {b : Balance}
    (hx : Inner mode s.heap x isNew k l r b) (htag : Tagged mode x tag isNew) :
    ∃ s', onNodeVisit P operation x isRotate s = .ok () s' ∧ Same s s'
      ∧ Step mode s.heap s'.heap ∅ tag.toList := by
  have hmut := hx.mutable
  obtain ⟨_, o, ho, hc⟩ := hx
  refine onNodeVisit_node P operation isRotate ho ?_ ?_
  · intro hmode
    rw [hc, hmut]
    exact htag.old hmode
  · intro hmode
    subst hmode
    rw [hc]
    rfl

/-- A visit to the root of a tree. -/
theorem onNodeVisit_spec (P : TreeParams) (operation : Operation) (isRotate : Bool)
    (hr : Represents mode hf s.heap t x M) :
    ∃ s', onNodeVisit P operation x isRotate s = .ok () s' ∧ Same s s'
      ∧ Step mode s.heap s'.heap ∅ t.tags := by
  cases t with
  | stub l =>
    obtain ⟨rfl, ⟨o, ho, _⟩, _⟩ := hr
    show ∃ s', _ ∧ Same s s' ∧ Step _ s.heap s'.heap ∅ (none : Option Ref).toList
    exact onNodeVisit_node P operation isRotate ho (fun h => by cases h) (fun h => by cases h)
  | leaf tag k v n =>
    obtain ⟨isNew, ⟨o, ho, hc, _⟩, htag, _⟩ := hr
    refine onNodeVisit_node P operation isRotate ho ?_ ?_
    · intro hmode
      rw [hc, mutable_leafContent htag]
      exact htag.old hmode
    · intro hmode
      subst hmode
      rw [hc]
      rfl
  | node tag k l r b =>
    obtain ⟨isNew, lx, rx, Ml, Mr, hx, htag, _⟩ := hr
    exact onNodeVisit_inner P operation isRotate (hx.inner htag) htag

/-! ## New nodes -/

/-- A node changed in place, or made anew. -/
theorem Inner.getNew_inner {isNew : Bool} {k : ADKey} {l r : Ref} {b : Balance}
    (hx : Inner mode s.heap x isNew k l r b) (newLeft newRight : Option Ref)
    (newBalance : Option Balance) (hl : mode = .prover → Castable s.heap (newLeft.getD l))
    (hr : mode = .prover → Castable s.heap (newRight.getD r)) :
    ∃ x' s', getNew x newLeft newRight newBalance s = .ok x' s' ∧ Same s s'
      ∧ Step mode s.heap s'.heap (own x isNew) []
      ∧ (∀ d, Holds s'.heap x' (nodeContent mode true k (newLeft.getD l) (newRight.getD r)
          (newBalance.getD b)) d)
      ∧ (x' = x ∧ isNew = true ∨ x' = s.heap.length) := by
  obtain ⟨hmode, o, ho, hc⟩ := hx
  have hlt := (List.getElem?_eq_some_iff.1 ho).1
  rw [getNew, bind_ok (getNode_ok ho)]
  cases mode with
  | prover =>
    simp only [hc, nodeContent]
    rw [bind_ok (castProver_ok (hl rfl)), bind_ok (castProver_ok (hr rfl))]
    cases isNew with
    | true =>
      refine ⟨x, _, rfl, ⟨rfl, rfl, rfl⟩, step_set ho ?_ ?_ ?_ ?_, ?_, .inl ⟨rfl, rfl⟩⟩
      · rw [hc]
        rfl
      · intro hM
        exact absurd ⟨rfl, rfl⟩ (hM (by rw [hc]; rfl))
      · intro _ hold
        rw [hc] at hold
        cases hold
      · intro _ y hy
        cases hy
      · intro d
        exact ⟨_, List.getElem?_set_self hlt, rfl, fun l' hl' => by cases hl'⟩
    | false =>
      refine ⟨_, _, rfl, ⟨rfl, rfl, rfl⟩, step_append _ _ _ _, ?_, .inr rfl⟩
      intro d
      exact ⟨_, getElem?_append_length _ _, rfl, fun l' hl' => by cases hl'⟩
  | verifier =>
    obtain rfl := hmode rfl
    simp only [hc, nodeContent]
    refine ⟨x, _, rfl, ⟨rfl, rfl, rfl⟩, step_set ho ?_ ?_ ?_ ?_, ?_, .inl ⟨rfl, trivial⟩⟩
    · rw [hc]
      rfl
    · intro hM
      exact absurd ⟨rfl, rfl⟩ (hM (by rw [hc]; rfl))
    · intro h
      cases h
    · intro h
      cases h
    · intro d
      exact ⟨_, List.getElem?_set_self hlt, rfl, fun l' hl' => by cases hl'⟩

/-- A node put on top of two trees. -/
theorem Inner.getNew_spec {isNew : Bool} {k : ADKey} {l r : Ref} {b : Balance}
    (hx : Inner mode s.heap x isNew k l r b) (newLeft newRight : Option Ref)
    (newBalance : Option Balance) {tl tr : Tree} {Ml Mr : Set Ref}
    (hl : Represents mode hf s.heap tl (newLeft.getD l) Ml)
    (hr : Represents mode hf s.heap tr (newRight.getD r) Mr) (hxl : isNew = true → x ∉ Ml)
    (hxr : isNew = true → x ∉ Mr) (hlr : ∀ y ∈ Ml, y ∉ Mr) :
    ∃ x' s', getNew x newLeft newRight newBalance s = .ok x' s' ∧ Same s s'
      ∧ Step mode s.heap s'.heap (own x isNew) []
      ∧ Represents mode hf s'.heap (.node none k tl tr (newBalance.getD b)) x'
          (own x' true ∪ (Ml ∪ Mr))
      ∧ (x' = x ∧ isNew = true ∨ x' = s.heap.length) := by
  obtain ⟨x', s', hrun, hsame, hstep, hholds, hx'⟩ := hx.getNew_inner newLeft newRight newBalance
    (fun hm => by subst hm; exact hl.castable) (fun hm => by subst hm; exact hr.castable)
  have hxl' : x' ∉ Ml := by
    rcases hx' with ⟨rfl, hnew⟩ | rfl
    · exact hxl hnew
    · exact fun hmem => absurd (hl.footprint_lt hmem) (lt_irrefl _)
  have hxr' : x' ∉ Mr := by
    rcases hx' with ⟨rfl, hnew⟩ | rfl
    · exact hxr hnew
    · exact fun hmem => absurd (hr.footprint_lt hmem) (lt_irrefl _)
  refine ⟨x', s', hrun, hsame, hstep, ?_, hx'⟩
  refine ⟨true, _, _, Ml, Mr, hholds _, tagged_none mode x', ?_, ?_, hxl', hxr', hlr,
    (fun h => by cases h), rfl⟩
  · exact hl.step hstep fun y hy hmem => hxl hmem.2 (hmem.1 ▸ hy)
  · exact hr.step hstep fun y hy hmem => hxr hmem.2 (hmem.1 ▸ hy)

/-- A node with another key. -/
theorem Inner.getNewKey_spec {isNew : Bool} {k : ADKey} {l r : Ref} {b : Balance}
    (hx : Inner mode s.heap x isNew k l r b) (newKey : ADKey) :
    ∃ x' s', getNewKey x newKey s = .ok x' s' ∧ Same s s'
      ∧ Step mode s.heap s'.heap (own x isNew) [] ∧ Inner mode s'.heap x' true newKey l r b
      ∧ (x' = x ∧ isNew = true ∨ x' = s.heap.length) := by
  have hinner := hx
  obtain ⟨hmode, o, ho, hc⟩ := hx
  have hlt := (List.getElem?_eq_some_iff.1 ho).1
  rw [getNewKey, bind_ok (getNode_ok ho)]
  cases mode with
  | prover =>
    simp only [hc, nodeContent]
    cases isNew with
    | true =>
      refine ⟨x, _, rfl, ⟨rfl, rfl, rfl⟩, step_set ho ?_ ?_ ?_ ?_, ?_, .inl ⟨rfl, rfl⟩⟩
      · rw [hc]
        rfl
      · intro hM
        exact absurd ⟨rfl, rfl⟩ (hM (by rw [hc]; rfl))
      · intro _ hold
        rw [hc] at hold
        cases hold
      · intro _ y hy
        cases hy
      · exact ⟨fun h => (by cases h), _, List.getElem?_set_self hlt, rfl⟩
    | false =>
      refine ⟨s.heap.length, _, rfl, ⟨rfl, rfl, rfl⟩, ?_, ?_, .inr rfl⟩
      · have hset : ∀ a b : Node, (s.heap ++ [a]).set s.heap.length b = s.heap ++ [b] := by
          intro a b
          rw [List.set_append_right _ _ (le_refl _), Nat.sub_self]
          rfl
        show Step _ _ ((s.heap ++ [_]).set s.heap.length _) _ _
        rw [hset]
        exact step_append _ _ _ _
      · have hlt' : ∀ o' : Node, s.heap.length < (s.heap ++ [o']).length := fun o' => by simp
        exact ⟨fun h => (by cases h), _, List.getElem?_set_self (hlt' _), rfl⟩
  | verifier =>
    obtain rfl := hmode rfl
    simp only [hc, nodeContent]
    exact ⟨x, s, rfl, Same.refl s, Step.refl _ _ _, ⟨hmode, o, ho, hc⟩, .inl ⟨rfl, trivial⟩⟩

/-- A leaf changed in place, or made anew. -/
theorem Leaf.getNew_spec {tag : Option Ref} {k n : ADKey} {v : ADValue}
    (hr : Represents mode hf s.heap (.leaf tag k v n) x M) (newKey : Option ADKey)
    (newValue : Option ADValue) (newNextLeafKey : Option ADKey) :
    ∃ x' s', Leaf.getNew x newKey newValue newNextLeafKey s = .ok x' s' ∧ Same s s'
      ∧ Step mode s.heap s'.heap M []
      ∧ Represents mode hf s'.heap
          (.leaf none (newKey.getD k) (newValue.getD v) (newNextLeafKey.getD n)) x' (own x' true)
      ∧ (x' = x ∧ M = own x true ∨ x' = s.heap.length ∧ M = ∅) := by
  obtain ⟨isNew, ⟨o, ho, hc, _⟩, htag, rfl⟩ := hr
  have hlt := (List.getElem?_eq_some_iff.1 ho).1
  rw [Leaf.getNew, bind_ok (getNode_ok ho)]
  cases mode with
  | prover =>
    cases isNew with
    | true =>
      simp only [hc, leafContent]
      refine ⟨x, _, rfl, ⟨rfl, rfl, rfl⟩, step_set ho ?_ ?_ ?_ ?_, ?_, .inl ⟨rfl, trivial⟩⟩
      · rw [hc]
        rfl
      · intro hM
        exact absurd ⟨rfl, rfl⟩ (hM (by rw [hc]; rfl))
      · intro _ hold
        rw [hc] at hold
        cases hold
      · intro _ y hy
        cases hy
      · exact ⟨true, ⟨_, List.getElem?_set_self hlt, rfl, fun l' hl' => by cases hl'⟩, rfl, rfl⟩
    | false =>
      simp only [hc, leafContent]
      refine ⟨s.heap.length, _, rfl, ⟨rfl, rfl, rfl⟩, step_append _ _ _ _, ?_, .inr ⟨rfl, ?_⟩⟩
      · exact ⟨true, ⟨_, getElem?_append_length _ _, rfl, fun l' hl' => by cases hl'⟩, rfl, rfl⟩
      · ext y
        simp
  | verifier =>
    have hnew : isNew = true := htag
    subst hnew
    simp only [hc, leafContent]
    refine ⟨x, _, rfl, ⟨rfl, rfl, rfl⟩, step_set ho ?_ ?_ ?_ ?_, ?_, .inl ⟨rfl, trivial⟩⟩
    · rw [hc]
      rfl
    · intro hM
      exact absurd ⟨rfl, rfl⟩ (hM (by rw [hc]; rfl))
    · intro h
      cases h
    · intro h
      cases h
    · exact ⟨true, ⟨_, List.getElem?_set_self hlt, rfl, fun l' hl' => by cases hl'⟩, rfl, rfl⟩

/-! ## Results -/

/-- The computation made the tree `t` at `x` out of what it owned. -/
def Yields (mode : Mode) (hf : CryptographicHash) (h h' : Heap) (M : Set Ref) (W : List Ref)
    (t : Tree) (x : Ref) : Prop :=
  Step mode h h' M W ∧ ∃ M', Represents mode hf h' t x M' ∧ ∀ y ∈ M', y ∈ M ∨ h.length ≤ y

theorem Represents.yields (hr : Represents mode hf h t x M) : Yields mode hf h h M [] t x :=
  ⟨Step.refl mode h M, M, hr, fun _ hy => .inl hy⟩

/-- A step, and then a computation on what the step owned or made. -/
theorem Yields.after {h'' : Heap} {M₁ M₂ : Set Ref} {W₁ W₂ : List Ref}
    (hs : Step mode h h' M₁ W₁) (hy : Yields mode hf h' h'' M₂ W₂ t x) (h₁ : ∀ y ∈ M₁, y ∈ M)
    (h₂ : ∀ y ∈ M₂, y ∈ M ∨ h.length ≤ y) : Yields mode hf h h'' M (W₁ ++ W₂) t x := by
  obtain ⟨hstep, M', hrep, hM'⟩ := hy
  refine ⟨hs.trans hstep h₁ h₂, M', hrep, fun y hy => ?_⟩
  rcases hM' y hy with hy | hle
  · exact h₂ y hy
  · exact .inr (hs.length_le.trans hle)

/-- What lies beside the footprint stays there. -/
theorem Yields.beside {r : Tree} {rx z : Ref} {Mr : Set Ref} (hy : Yields mode hf h h' M W t x)
    (hr : Represents mode hf h r rx Mr) (hz : z < h.length) (hzM : z ∉ M)
    (hapart : ∀ y ∈ M, y ∉ Mr) :
    ∃ M', Represents mode hf h' t x M' ∧ Represents mode hf h' r rx Mr ∧ z ∉ M'
      ∧ (∀ y ∈ M', y ∉ Mr) ∧ ∀ y ∈ M', y ∈ M ∨ h.length ≤ y := by
  obtain ⟨hstep, M', hrep, hM'⟩ := hy
  refine ⟨M', hrep, hr.step hstep fun y hy hyM => hapart y hyM hy, ?_, ?_, hM'⟩
  · intro hmem
    rcases hM' z hmem with hmem | hle
    · exact hzM hmem
    · exact absurd hz (not_lt.2 hle)
  · intro y hy hyr
    rcases hM' y hy with hy | hle
    · exact hapart y hy hyr
    · exact absurd (hr.footprint_lt hyr) (not_lt.2 hle)

theorem Yields.congr {W' : List Ref} (hy : Yields mode hf h h' M W t x)
    (hW : ∀ y, y ∈ W ↔ y ∈ W') : Yields mode hf h h' M W' t x :=
  ⟨hy.1.congr hW, hy.2⟩

theorem Leaf.getNew_yields {tag : Option Ref} {k n : ADKey} {v : ADValue}
    (hr : Represents mode hf s.heap (.leaf tag k v n) x M) (newKey : Option ADKey)
    (newValue : Option ADValue) (newNextLeafKey : Option ADKey) :
    ∃ x' s', Leaf.getNew x newKey newValue newNextLeafKey s = .ok x' s' ∧ Same s s'
      ∧ Yields mode hf s.heap s'.heap M []
          (.leaf none (newKey.getD k) (newValue.getD v) (newNextLeafKey.getD n)) x' := by
  obtain ⟨x', s', hrun, hsame, hstep, hrep, hx'⟩ :=
    Leaf.getNew_spec hr newKey newValue newNextLeafKey
  refine ⟨x', s', hrun, hsame, hstep, _, hrep, fun y hy => ?_⟩
  rcases hx' with ⟨hx', hM⟩ | ⟨hx', _⟩
  · exact .inl (hM ▸ hx' ▸ hy)
  · exact .inr (hy.1 ▸ hx'.ge)

theorem Inner.getNew_yields {isNew : Bool} {k : ADKey} {l r : Ref} {b : Balance}
    (hx : Inner mode s.heap x isNew k l r b) (newLeft newRight : Option Ref)
    (newBalance : Option Balance) {tl tr : Tree} {Ml Mr : Set Ref}
    (hl : Represents mode hf s.heap tl (newLeft.getD l) Ml)
    (hr : Represents mode hf s.heap tr (newRight.getD r) Mr) (hxl : x ∉ Ml) (hxr : x ∉ Mr)
    (hlr : ∀ y ∈ Ml, y ∉ Mr) :
    ∃ x' s', getNew x newLeft newRight newBalance s = .ok x' s' ∧ Same s s'
      ∧ Yields mode hf s.heap s'.heap (own x isNew ∪ (Ml ∪ Mr)) []
          (.node none k tl tr (newBalance.getD b)) x' := by
  obtain ⟨x', s', hrun, hsame, hstep, hrep, hx'⟩ := hx.getNew_spec newLeft newRight newBalance hl hr
    (fun _ => hxl) (fun _ => hxr) hlr
  refine ⟨x', s', hrun, hsame, hstep.mono fun _ hy => .inl hy, _, hrep, fun y hy => ?_⟩
  rcases hy with hy | hy
  · rcases hx' with ⟨hx', hnew⟩ | hx'
    · exact .inl (.inl ⟨hy.1.trans hx', hnew⟩)
    · exact .inr (hy.1 ▸ hx'.ge)
  · exact .inl (.inr hy)

/-- A fresh node is a node of its own. -/
theorem holds_append (c : Content) (d : Digest) :
    Holds (h ++ [⟨false, none, c⟩]) h.length c d :=
  ⟨_, getElem?_append_length _ _, rfl, fun l' hl' => by cases hl'⟩

/-- A leaf split in two. -/
theorem addNode_spec {nav : Navigation N} (hmode : nav.mode = mode) {tag : Option Ref}
    {k n : ADKey} {v : ADValue} (hr : Represents mode hf s.heap (.leaf tag k v n) x M)
    (key : ADKey) (value : ADValue) :
    ∃ x' s', addNode nav x key value s = .ok x' s' ∧ Same s s'
      ∧ Yields mode hf s.heap s'.heap M []
          (.node none key (.leaf none k v key) (.leaf none key value n) 0) x' := by
  obtain ⟨lx, s₁, hrun, hsame, hstep, hleft, hlx⟩ := Leaf.getNew_spec hr none none (some key)
  rw [addNode, bind_ok (getLeaf_leaf hr)]
  simp only
  rw [bind_ok hrun]
  simp only [hmode]
  have hlt := hleft.lt
  -- the new leaf, and then the new inner node, are put behind the nodes there are
  have hresult : ∀ (right inner : Node), right = ⟨false, none, leafContent mode true key value n⟩ →
      inner = ⟨false, none, nodeContent mode true key lx s₁.heap.length 0⟩ →
      Yields mode hf s.heap (s₁.heap ++ [right] ++ [inner]) M []
        (.node none key (.leaf none k v key) (.leaf none key value n) 0) (s₁.heap.length + 1) := by
    rintro _ _ rfl rfl
    have h₁ := step_append mode s₁.heap ⟨false, none, leafContent mode true key value n⟩ ∅
    have h₂ := step_append mode (s₁.heap ++ [⟨false, none, leafContent mode true key value n⟩])
      ⟨false, none, nodeContent mode true key lx s₁.heap.length 0⟩ ∅
    have hright : Represents mode hf (s₁.heap ++ [⟨false, none, leafContent mode true key value n⟩])
        (.leaf none key value n) s₁.heap.length (own s₁.heap.length true) :=
      ⟨true, holds_append _ _, tagged_none _ _, rfl⟩
    have hinner := holds_append
      (h := s₁.heap ++ [⟨false, none, leafContent mode true key value n⟩])
      (nodeContent mode true key lx s₁.heap.length 0)
      (treeLabel hf (.node none key (.leaf none k v key) (.leaf none key value n) 0))
    rw [List.length_append, List.length_singleton] at hinner
    refine ⟨?_, own (s₁.heap.length + 1) true ∪ (own lx true ∪ own s₁.heap.length true), ?_, ?_⟩
    · have h₁₂ := (hstep.trans h₁ (fun _ hy => hy) (fun _ hy => hy.elim)).trans h₂
        (fun _ hy => hy) (fun _ hy => hy.elim)
      exact h₁₂
    · refine ⟨true, lx, s₁.heap.length, own lx true, own s₁.heap.length true, hinner,
        tagged_none _ _, ?_, ?_, ?_, ?_, ?_, fun h => (by cases h), rfl⟩
      · exact (hleft.step h₁ fun _ _ hy => hy).step h₂ fun _ _ hy => hy
      · exact hright.step h₂ fun _ _ hy => hy
      · exact fun hmem => Nat.ne_of_gt (Nat.lt_succ_of_lt hlt) hmem.1
      · exact fun hmem => Nat.succ_ne_self _ hmem.1
      · exact fun y hy hy' => Nat.ne_of_lt hlt (hy.1.symm.trans hy'.1)
    · intro y hy
      have hle := hstep.length_le
      rcases hy with ⟨rfl, _⟩ | ⟨rfl, _⟩ | ⟨rfl, _⟩
      · exact .inr (by omega)
      · rcases hlx with ⟨hlx, hM⟩ | ⟨hlx, _⟩
        · exact .inl (hM ▸ ⟨hlx, rfl⟩)
        · exact .inr hlx.ge
      · exact .inr hle
  cases mode with
  | prover =>
    refine ⟨_, _, rfl, ⟨hsame.nav, hsame.savedNode, hsame.rootNodeHeight⟩, ?_⟩
    show Yields _ _ _ _ _ _ _ (s₁.heap ++ [_]).length
    rw [List.length_append, List.length_singleton]
    exact hresult _ _ rfl rfl
  | verifier =>
    refine ⟨_, _, rfl, ⟨hsame.nav, hsame.savedNode, hsame.rootNodeHeight⟩, ?_⟩
    show Yields _ _ _ _ _ _ _ (s₁.heap ++ [_]).length
    rw [List.length_append, List.length_singleton]
    exact hresult _ _ rfl rfl

end

end Sparkz.Avl
