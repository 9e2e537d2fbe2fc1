import Sparkz.Lib.LeafTreeBalance
import Sparkz.Lib.LeafTreePruning
import Sparkz.Lib.Simulates
import Sparkz.Avl.AuthenticatedTreeOps

/-!
# Trees on the heap

A node of the heap stands for a tree.  The nodes that may be changed in place are the
footprint of the tree: all nodes of a verifier, and the new nodes of a prover.  The
tags of a prover's tree are its old nodes.

* `Represents` — the node `x` is the root of the tree `t`, with footprint `M`, and the
  cached labels are right.
* `Step` — what a computation may do to a heap when it owns a footprint: other nodes
  keep their content and label, and the visited old nodes are known.
* `Represents.step` — a tree survives steps on footprints apart from its own.
* `Represents.height_lt` — no tree is as high as there are nodes.
-/

namespace Sparkz.Avl

open Sparkz.Lib Sparkz.Lib.LeafTree

/-- The trees that nodes stand for; the tags are the old nodes. -/
abbrev Tree := LeafTree Ref Digest ADKey ADValue

/-- The label of a tree. -/
def treeLabel (hf : CryptographicHash) : Tree → Digest
  | .stub l => l
  | .leaf _ k v n => hf.hash (leafMessage k v n)
  | .node _ _ l r b => hf.hash (internalMessage b (treeLabel hf l) (treeLabel hf r))

/-- Can a node be changed in place? -/
def Content.mutable : Content → Bool
  | .labelOnlyNode _ => false
  | .proverLeaf isNew _ _ _ => isNew
  | .verifierLeaf _ _ _ => true
  | .internalProverNode isNew _ _ _ _ => isNew
  | .internalVerifierNode _ _ _ => true

/-- A leaf of the prover or of the verifier. -/
def leafContent : Mode → Bool → ADKey → ADValue → ADKey → Content
  | .prover, isNew, k, v, n => .proverLeaf isNew k v n
  | .verifier, _, k, v, n => .verifierLeaf k v n

/-- An inner node of the prover or of the verifier. -/
def nodeContent : Mode → Bool → ADKey → Ref → Ref → Balance → Content
  | .prover, isNew, k, l, r, b => .internalProverNode isNew k l r b
  | .verifier, _, _, l, r, b => .internalVerifierNode l r b

/-- The tag of a node: the old nodes of a prover are their own tags, the nodes of a
verifier are all new and have any tag. -/
def Tagged : Mode → Ref → Option Ref → Bool → Prop
  | .prover, x, tag, isNew => tag = if isNew then none else some x
  | .verifier, _, _, isNew => isNew = true

/-- The footprint of a single node. -/
def own (x : Ref) (isNew : Bool) : Set Ref := {y | y = x ∧ isNew = true}

/-- The node at `x` has the content `c`, and no other label than `l`. -/
def Holds (h : Heap) (x : Ref) (c : Content) (l : Digest) : Prop :=
  ∃ o, h[x]? = some o ∧ o.content = c ∧ ∀ l' ∈ o.labelOpt, l' = l

/-- The node at `x` is the root of the tree, with footprint `M`. -/
def Represents (mode : Mode) (hf : CryptographicHash) (h : Heap) : Tree → Ref → Set Ref → Prop
  | .stub l, x, M => mode = .verifier ∧ Holds h x (.labelOnlyNode l) l ∧ M = ∅
  | .leaf tag k v n, x, M => ∃ isNew,
      Holds h x (leafContent mode isNew k v n) (hf.hash (leafMessage k v n))
      ∧ Tagged mode x tag isNew ∧ M = own x isNew
  | .node tag k l r b, x, M => ∃ isNew lx rx Ml Mr,
      Holds h x (nodeContent mode isNew k lx rx b) (treeLabel hf (.node tag k l r b))
      ∧ Tagged mode x tag isNew ∧ Represents mode hf h l lx Ml ∧ Represents mode hf h r rx Mr
      ∧ x ∉ Ml ∧ x ∉ Mr ∧ (∀ y ∈ Ml, y ∉ Mr) ∧ (isNew = false → Ml = ∅ ∧ Mr = ∅)
      ∧ M = own x isNew ∪ (Ml ∪ Mr)

section

variable {mode : Mode} {hf : CryptographicHash} {h h' : Heap} {t t' : Tree} {x : Ref}
  {M M' : Set Ref}

/-! ## One node -/

@[simp, grind =] theorem mem_own {x y : Ref} {isNew : Bool} :
    y ∈ own x isNew ↔ y = x ∧ isNew = true :=
  Iff.rfl

theorem Holds.lt {c : Content} {l : Digest} (hx : Holds h x c l) : x < h.length := by
  obtain ⟨o, ho, _⟩ := hx
  exact (List.getElem?_eq_some_iff.1 ho).1

theorem Holds.content_eq {c c' : Content} {l l' : Digest} (hx : Holds h x c l)
    (hx' : Holds h x c' l') : c = c' := by
  obtain ⟨o, ho, hc, _⟩ := hx
  obtain ⟨o', ho', hc', _⟩ := hx'
  rw [ho] at ho'
  cases ho'
  rw [← hc, ← hc']

theorem leafContent_ne_nodeContent {a a' : Bool} {k k' n : ADKey} {v : ADValue} {l r : Ref}
    {b : Balance} : leafContent mode a k v n ≠ nodeContent mode a' k' l r b := by
  cases mode <;> simp [leafContent, nodeContent]

theorem leafContent_ne_stub {a : Bool} {k n : ADKey} {v : ADValue} {l : Digest} :
    leafContent mode a k v n ≠ .labelOnlyNode l := by
  cases mode <;> simp [leafContent]

theorem nodeContent_ne_stub {a : Bool} {k : ADKey} {lx rx : Ref} {b : Balance} {l : Digest} :
    nodeContent mode a k lx rx b ≠ .labelOnlyNode l := by
  cases mode <;> simp [nodeContent]

/-- A leaf determines its fields. -/
theorem leafContent_inj {a a' : Bool} {k k' n n' : ADKey} {v v' : ADValue}
    (heq : leafContent mode a k v n = leafContent mode a' k' v' n') : k = k' ∧ v = v' ∧ n = n' := by
  cases mode with
  | prover =>
    simp only [leafContent, Content.proverLeaf.injEq] at heq
    exact ⟨heq.2.1, heq.2.2.1, heq.2.2.2⟩
  | verifier =>
    simp only [leafContent, Content.verifierLeaf.injEq] at heq
    exact heq

/-- An inner node determines its children and its balance. -/
theorem nodeContent_inj {a a' : Bool} {k k' : ADKey} {lx lx' rx rx' : Ref} {b b' : Balance}
    (heq : nodeContent mode a k lx rx b = nodeContent mode a' k' lx' rx' b') :
    lx = lx' ∧ rx = rx' ∧ b = b' := by
  cases mode with
  | prover =>
    simp only [nodeContent, Content.internalProverNode.injEq] at heq
    exact ⟨heq.2.2.1, heq.2.2.2.1, heq.2.2.2.2⟩
  | verifier =>
    simp only [nodeContent, Content.internalVerifierNode.injEq] at heq
    exact heq

theorem mutable_leafContent {tag : Option Ref} {isNew : Bool} {k n : ADKey} {v : ADValue}
    (htag : Tagged mode x tag isNew) : (leafContent mode isNew k v n).mutable = isNew := by
  cases mode with
  | prover => rfl
  | verifier => exact htag.symm

theorem mutable_nodeContent {tag : Option Ref} {isNew : Bool} {k : ADKey} {lx rx : Ref}
    {b : Balance} (htag : Tagged mode x tag isNew) :
    (nodeContent mode isNew k lx rx b).mutable = isNew := by
  cases mode with
  | prover => rfl
  | verifier => exact htag.symm

/-! ## Trees -/

theorem Represents.lt (hr : Represents mode hf h t x M) : x < h.length := by
  cases t with
  | stub l => exact hr.2.1.lt
  | leaf tag k v n =>
    obtain ⟨_, hx, _⟩ := hr
    exact hx.lt
  | node tag k l r b =>
    obtain ⟨_, _, _, _, _, hx, _⟩ := hr
    exact hx.lt

theorem Represents.footprint_lt (hr : Represents mode hf h t x M) {y : Ref} (hy : y ∈ M) :
    y < h.length := by
  induction t generalizing x M with
  | stub l =>
    rw [hr.2.2] at hy
    exact absurd hy (Set.notMem_empty y)
  | leaf tag k v n =>
    obtain ⟨isNew, hx, _, rfl⟩ := hr
    exact hy.1 ▸ hx.lt
  | node tag k l r b ihl ihr =>
    obtain ⟨isNew, lx, rx, Ml, Mr, hx, _, hl, hr, _, _, _, _, rfl⟩ := hr
    rcases hy with hy | hy | hy
    · exact hy.1 ▸ hx.lt
    · exact ihl hl hy
    · exact ihr hr hy

/-- The node determines the height and the label of its tree. -/
theorem Represents.unique (hr : Represents mode hf h t x M) (hr' : Represents mode hf h t' x M') :
    t.height = t'.height ∧ treeLabel hf t = treeLabel hf t' := by
  induction t generalizing x M t' M' with
  | stub l =>
    obtain ⟨_, hx, _⟩ := hr
    cases t' with
    | stub l' =>
      have := hx.content_eq hr'.2.1
      simp only [Content.labelOnlyNode.injEq] at this
      exact ⟨rfl, this⟩
    | leaf tag k v n =>
      obtain ⟨_, hx', _⟩ := hr'
      exact absurd (hx'.content_eq hx) leafContent_ne_stub
    | node tag k l r b =>
      obtain ⟨_, _, _, _, _, hx', _⟩ := hr'
      exact absurd (hx'.content_eq hx) nodeContent_ne_stub
  | leaf tag k v n =>
    obtain ⟨_, hx, _⟩ := hr
    cases t' with
    | stub l' => exact absurd (hx.content_eq hr'.2.1) leafContent_ne_stub
    | leaf tag' k' v' n' =>
      obtain ⟨_, hx', _⟩ := hr'
      obtain ⟨rfl, rfl, rfl⟩ := leafContent_inj (hx.content_eq hx')
      exact ⟨rfl, rfl⟩
    | node tag' k' l r b =>
      obtain ⟨_, _, _, _, _, hx', _⟩ := hr'
      exact absurd (hx.content_eq hx') leafContent_ne_nodeContent
  | node tag k l r b ihl ihr =>
    obtain ⟨_, lx, rx, _, _, hx, _, hl, hr, _⟩ := hr
    cases t' with
    | stub l' => exact absurd (hx.content_eq hr'.2.1) nodeContent_ne_stub
    | leaf tag' k' v' n' =>
      obtain ⟨_, hx', _⟩ := hr'
      exact absurd (hx'.content_eq hx) leafContent_ne_nodeContent
    | node tag' k' l' r' b' =>
      obtain ⟨_, lx', rx', _, _, hx', _, hl', hr', _⟩ := hr'
      obtain ⟨rfl, rfl, rfl⟩ := nodeContent_inj (hx.content_eq hx')
      obtain ⟨hl₁, hl₂⟩ := ihl hl hl'
      obtain ⟨hr₁, hr₂⟩ := ihr hr hr'
      exact ⟨by rw [height_node, height_node, hl₁, hr₁], by rw [treeLabel, treeLabel, hl₂, hr₂]⟩

/-- Below a node there are trees of all smaller heights. -/
theorem Represents.exists_height (hr : Represents mode hf h t x M) {i : ℕ} (hi : i ≤ t.height) :
    ∃ t' x' M', Represents mode hf h t' x' M' ∧ t'.height = i := by
  induction t generalizing x M with
  | stub l => exact ⟨_, _, _, hr, (Nat.le_zero.1 hi).symm⟩
  | leaf tag k v n => exact ⟨_, _, _, hr, (Nat.le_zero.1 hi).symm⟩
  | node tag k l r b ihl ihr =>
    by_cases htop : i = (LeafTree.node tag k l r b).height
    · exact ⟨_, _, _, hr, htop.symm⟩
    · obtain ⟨_, lx, rx, _, _, _, _, hl, hr, _⟩ := hr
      rw [height_node] at hi htop
      by_cases hle : i ≤ l.height
      · exact ihl hl hle
      · exact ihr hr (by omega)

/-- There are more nodes than the tree is high. -/
theorem Represents.height_lt (hr : Represents mode hf h t x M) : t.height < h.length := by
  have hsub : ∀ i : Fin (t.height + 1),
      ∃ y : Fin h.length, ∃ t' M', Represents mode hf h t' y M' ∧ t'.height = i := by
    intro i
    obtain ⟨t', x', M', hr', hi⟩ := hr.exists_height (Nat.lt_succ_iff.1 i.2)
    exact ⟨⟨x', hr'.lt⟩, t', M', hr', hi⟩
  choose f hf' using hsub
  have hinj : Function.Injective f := by
    intro i j hij
    obtain ⟨ti, Mi, hi, hhi⟩ := hf' i
    obtain ⟨tj, Mj, hj, hhj⟩ := hf' j
    rw [hij] at hi
    exact Fin.ext (by rw [← hhi, ← hhj, (hi.unique hj).1])
  have := Fintype.card_le_of_injective f hinj
  rw [Fintype.card_fin, Fintype.card_fin] at this
  omega

/-! ## Steps -/

/-- What a computation that owns the footprint `M` may do, visiting `W`. -/
structure Step (mode : Mode) (h h' : Heap) (M : Set Ref) (W : List Ref) : Prop where
  length_le : h.length ≤ h'.length
  kept : ∀ {x : Ref} {o : Node}, h[x]? = some o → (o.content.mutable = true → x ∉ M) →
    ∃ o', h'[x]? = some o' ∧ o'.content = o.content ∧ o'.labelOpt = o.labelOpt
  isProverNode : ∀ {x : Ref} {o : Node}, h[x]? = some o →
    ∃ o', h'[x]? = some o' ∧ o'.content.isProverNode = o.content.isProverNode
  visited : mode = .prover → ∀ {x : Ref} {o : Node}, h[x]? = some o →
    o.content.isNew? = some false →
      ∃ o', h'[x]? = some o' ∧ (o'.visited = true ↔ o.visited = true ∨ x ∈ W)

theorem Step.refl (mode : Mode) (h : Heap) (M : Set Ref) : Step mode h h M [] where
  length_le := le_refl _
  kept := fun ho _ => ⟨_, ho, rfl, rfl⟩
  isProverNode := fun ho => ⟨_, ho, rfl⟩
  visited := fun _ _ _ ho _ => ⟨_, ho, by simp⟩

theorem mutable_of_isNew? {c : Content} (hc : c.isNew? = some false) : c.mutable = false := by
  cases c <;> simp_all [Content.isNew?, Content.mutable]

/-- One step after another; the second may also change what the first has made. -/
theorem Step.trans {h₁ h₂ h₃ : Heap} {M₁ M₂ M : Set Ref} {W₁ W₂ : List Ref}
    (h₁₂ : Step mode h₁ h₂ M₁ W₁) (h₂₃ : Step mode h₂ h₃ M₂ W₂) (hM₁ : ∀ y ∈ M₁, y ∈ M)
    (hM₂ : ∀ y ∈ M₂, y ∈ M ∨ h₁.length ≤ y) : Step mode h₁ h₃ M (W₁ ++ W₂) where
  length_le := h₁₂.length_le.trans h₂₃.length_le
  kept := by
    intro x o ho hx
    have hlt : x < h₁.length := (List.getElem?_eq_some_iff.1 ho).1
    obtain ⟨o₂, ho₂, hc₂, hl₂⟩ := h₁₂.kept ho fun hm hmem => hx hm (hM₁ x hmem)
    obtain ⟨o₃, ho₃, hc₃, hl₃⟩ := h₂₃.kept ho₂ fun hm hmem => by
      rcases hM₂ x hmem with hmem | hle
      · exact hx (hc₂ ▸ hm) hmem
      · exact absurd hlt (not_lt.2 hle)
    exact ⟨o₃, ho₃, hc₃.trans hc₂, hl₃.trans hl₂⟩
  isProverNode := by
    intro x o ho
    obtain ⟨o₂, ho₂, hp₂⟩ := h₁₂.isProverNode ho
    obtain ⟨o₃, ho₃, hp₃⟩ := h₂₃.isProverNode ho₂
    exact ⟨o₃, ho₃, hp₃.trans hp₂⟩
  visited := by
    intro hmode x o ho hn
    have hfrozen := mutable_of_isNew? hn
    obtain ⟨o₂, ho₂, hv₂⟩ := h₁₂.visited hmode ho hn
    obtain ⟨o₂', ho₂', hc₂, _⟩ := h₁₂.kept ho fun hm => by rw [hfrozen] at hm; cases hm
    rw [ho₂] at ho₂'
    cases ho₂'
    obtain ⟨o₃, ho₃, hv₃⟩ := h₂₃.visited hmode ho₂ (by rw [hc₂]; exact hn)
    refine ⟨o₃, ho₃, ?_⟩
    rw [hv₃, hv₂, List.mem_append]
    tauto

theorem Step.mono {W : List Ref} (hs : Step mode h h' M W) (hM : ∀ y ∈ M, y ∈ M') :
    Step mode h h' M' W where
  length_le := hs.length_le
  kept := fun ho hx => hs.kept ho fun hm hmem => hx hm (hM _ hmem)
  isProverNode := hs.isProverNode
  visited := hs.visited

theorem Step.congr {W W' : List Ref} (hs : Step mode h h' M W) (hW : ∀ y, y ∈ W ↔ y ∈ W') :
    Step mode h h' M W' where
  length_le := hs.length_le
  kept := hs.kept
  isProverNode := hs.isProverNode
  visited := by
    intro hmode x o ho hn
    obtain ⟨o', ho', hv⟩ := hs.visited hmode ho hn
    exact ⟨o', ho', by rw [hv, hW]⟩

theorem Step.holds {W : List Ref} (hs : Step mode h h' M W) {c : Content} {l : Digest}
    (hx : Holds h x c l) (hM : c.mutable = true → x ∉ M) : Holds h' x c l := by
  obtain ⟨o, ho, hc, hl⟩ := hx
  obtain ⟨o', ho', hc', hl'⟩ := hs.kept ho fun hm => hM (hc ▸ hm)
  exact ⟨o', ho', hc'.trans hc, by rw [hl']; exact hl⟩

/-- A tree survives a step on a footprint apart from its own. -/
theorem Represents.step {W : List Ref} (hr : Represents mode hf h t x M')
    (hs : Step mode h h' M W) (hM : ∀ y ∈ M', y ∉ M) : Represents mode hf h' t x M' := by
  induction t generalizing x M' with
  | stub l => exact ⟨hr.1, hs.holds hr.2.1 (fun hm => by cases hm), hr.2.2⟩
  | leaf tag k v n =>
    obtain ⟨isNew, hx, htag, rfl⟩ := hr
    refine ⟨isNew, hs.holds hx fun hm => ?_, htag, rfl⟩
    exact hM x ⟨rfl, mutable_leafContent htag ▸ hm⟩
  | node tag k l r b ihl ihr =>
    obtain ⟨isNew, lx, rx, Ml, Mr, hx, htag, hl, hr, hxl, hxr, hlr, hold, rfl⟩ := hr
    refine ⟨isNew, lx, rx, Ml, Mr, hs.holds hx fun hm => ?_, htag, ?_, ?_, hxl, hxr, hlr, hold, rfl⟩
    · exact hM x (.inl ⟨rfl, mutable_nodeContent htag ▸ hm⟩)
    · exact ihl hl fun y hy => hM y (.inr (.inl hy))
    · exact ihr hr fun y hy => hM y (.inr (.inr hy))

end

end Sparkz.Avl
