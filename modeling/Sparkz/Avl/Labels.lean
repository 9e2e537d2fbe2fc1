import Sparkz.Avl.NodeSpecs

/-!
# Labels on the heap

* `Cached` — what the computation of labels may do to a heap: contents and `visited` flags
  stay, and so does every tree.
* `label_spec`, `digestOf_spec` — labels and digests are those of the tree.
-/

namespace Sparkz.Avl

open Sparkz.Lib Sparkz.Lib.LeafTree

/-- Nodes have got labels, and no tree has changed. -/
structure Cached (mode : Mode) (hf : CryptographicHash) (h h' : Heap) : Prop where
  length : h'.length = h.length
  node : ∀ {x : Ref} {o : Node}, h[x]? = some o →
    ∃ o', h'[x]? = some o' ∧ o'.content = o.content ∧ o'.visited = o.visited
  kept : ∀ {t : Tree} {x : Ref} {M : Set Ref},
    Represents mode hf h t x M → Represents mode hf h' t x M

section

variable {N : Type} {mode : Mode} {hf : CryptographicHash} {h h₁ h₂ : Heap} {s : TreeState N}
  {t : Tree} {x : Ref} {M : Set Ref}

theorem Cached.refl (mode : Mode) (hf : CryptographicHash) (h : Heap) : Cached mode hf h h where
  length := rfl
  node := fun ho => ⟨_, ho, rfl, rfl⟩
  kept := id

theorem Cached.trans (h₀₁ : Cached mode hf h h₁) (h₁₂ : Cached mode hf h₁ h₂) :
    Cached mode hf h h₂ where
  length := h₁₂.length.trans h₀₁.length
  node := by
    intro x o ho
    obtain ⟨o₁, ho₁, hc₁, hv₁⟩ := h₀₁.node ho
    obtain ⟨o₂, ho₂, hc₂, hv₂⟩ := h₁₂.node ho₁
    exact ⟨o₂, ho₂, hc₂.trans hc₁, hv₂.trans hv₁⟩
  kept := fun hr => h₁₂.kept (h₀₁.kept hr)

/-- The node at the root of a tree holds the label of the tree. -/
theorem Represents.holds (hr : Represents mode hf h t x M) :
    ∃ c, Holds h x c (treeLabel hf t) := by
  cases t with
  | stub l => exact ⟨_, hr.2.1⟩
  | leaf tag k v n =>
    obtain ⟨_, hx, _⟩ := hr
    exact ⟨_, hx⟩
  | node tag k l r b =>
    obtain ⟨_, _, _, _, _, hx, _⟩ := hr
    exact ⟨_, hx⟩

/-- A node is the root of trees with one label only. -/
theorem Represents.label_eq (hr : Represents mode hf h t x M) (t' : Tree) (M' : Set Ref)
    (hr' : Represents mode hf h t' x M') : treeLabel hf t = treeLabel hf t' :=
  (hr.unique hr').2

/-- A node that is given a label which is right for every tree that it is the root of. -/
theorem cached_set {o : Node} {l : Digest}
    (hright : ∀ t M, Represents mode hf h t x M → l = treeLabel hf t) (ho : h[x]? = some o) :
    Cached mode hf h (h.set x { o with labelOpt := some l }) := by
  have hlt : x < h.length := (List.getElem?_eq_some_iff.1 ho).1
  have hset : ∀ {y : Ref} {o' : Node}, h[y]? = some o' →
      (h.set x { o with labelOpt := some l })[y]?
        = some (if y = x then { o with labelOpt := some l } else o') := by
    intro y o' ho'
    by_cases hy : y = x
    · subst hy
      rw [if_pos rfl, List.getElem?_set_self hlt]
    · rw [if_neg hy, List.getElem?_set_ne (Ne.symm hy), ho']
  have hholds : ∀ {t' : Tree} {y : Ref} {M' : Set Ref} {c : Content},
      Represents mode hf h t' y M' → Holds h y c (treeLabel hf t') →
      Holds (h.set x { o with labelOpt := some l }) y c (treeLabel hf t') := by
    rintro t' y M' c hr' ⟨o', ho', hc, hl⟩
    by_cases hy : y = x
    · subst hy
      rw [ho] at ho'
      cases ho'
      refine ⟨{ o with labelOpt := some l }, (hset ho).trans (by rw [if_pos rfl]), hc,
        fun l' hmem => ?_⟩
      cases hmem
      exact hright t' M' hr'
    · exact ⟨o', (hset ho').trans (by rw [if_neg hy]), hc, hl⟩
  refine ⟨List.length_set, ?_, ?_⟩
  · intro y o' ho'
    refine ⟨_, hset ho', ?_⟩
    by_cases hy : y = x
    · subst hy
      rw [ho] at ho'
      cases ho'
      rw [if_pos rfl]
      exact ⟨rfl, rfl⟩
    · rw [if_neg hy]
      exact ⟨rfl, rfl⟩
  · intro t' y M' hr'
    induction t' generalizing y M' with
    | stub l => exact ⟨hr'.1, hholds hr' hr'.2.1, hr'.2.2⟩
    | leaf tag k v n =>
      have hr₁ := hr'
      obtain ⟨isNew, hy, hrest⟩ := hr'
      exact ⟨isNew, hholds hr₁ hy, hrest⟩
    | node tag k l r b ihl ihr =>
      have hr₁ := hr'
      obtain ⟨isNew, lx, rx, Ml, Mr, hy, htag, hl, hr₂, hrest⟩ := hr'
      exact ⟨isNew, lx, rx, Ml, Mr, hholds hr₁ hy, htag, ihl hl, ihr hr₂, hrest⟩

/-- The view of the root of a tree, and the trees below it. -/
def Views (mode : Mode) (hf : CryptographicHash) (h : Heap) : Tree → View → Prop
  | .stub l, view => view = .labelOnlyNode l
  | .leaf _ k v n, view => view = .leaf k v n
  | .node _ k l r b, view => ∃ lx rx Ml Mr, view = .internalNode (nodeKey mode k) lx rx b
      ∧ Represents mode hf h l lx Ml ∧ Represents mode hf h r rx Mr

theorem Represents.view (hr : Represents mode hf h t x M) :
    ∃ o, h[x]? = some o ∧ (∀ l ∈ o.labelOpt, l = treeLabel hf t)
      ∧ Views mode hf h t o.content.view := by
  cases t with
  | stub l =>
    obtain ⟨o, ho, hc, hl⟩ := hr.2.1
    exact ⟨o, ho, hl, hc ▸ rfl⟩
  | leaf tag k v n =>
    obtain ⟨_, ⟨o, ho, hc, hl⟩, _⟩ := hr
    exact ⟨o, ho, hl, hc ▸ view_leafContent⟩
  | node tag k l r b =>
    obtain ⟨_, lx, rx, Ml, Mr, ⟨o, ho, hc, hl⟩, _, hrl, hrr, _⟩ := hr
    exact ⟨o, ho, hl, lx, rx, Ml, Mr, hc ▸ view_nodeContent, hrl, hrr⟩

/-- The end of `label`, where the label is cached. -/
theorem cacheLabel_ok {o : Node} (ho : s.heap[x]? = some o) (l : Digest) :
    (do
      let o' ← getNode x
      setNode x { o' with labelOpt := some l }
      pure l : TreeM N Digest) s
      = .ok l { s with heap := s.heap.set x { o with labelOpt := some l } } := by
  rw [bind_ok (getNode_ok ho)]
  rfl

/-- **The label of a node** is that of its tree. -/
theorem label_spec (hr : Represents mode hf s.heap t x M) {fuel : ℕ} (hfuel : t.height < fuel) :
    ∃ heap, label hf fuel x s = .ok (treeLabel hf t) { s with heap := heap }
      ∧ Cached mode hf s.heap heap := by
  induction t generalizing s x M fuel with
  | stub l =>
    obtain ⟨fuel, rfl⟩ := Nat.exists_eq_succ_of_ne_zero (Nat.ne_of_gt (Nat.zero_lt_of_lt hfuel))
    obtain ⟨o, ho, hlab, hview⟩ := hr.view
    rw [label, bind_ok (getNode_ok ho)]
    cases hopt : o.labelOpt with
    | some l' => exact ⟨s.heap, by rw [hlab l' hopt]; rfl, .refl mode hf s.heap⟩
    | none =>
      simp only
      rw [hview]
      exact ⟨_, cacheLabel_ok ho _, cached_set hr.label_eq ho⟩
  | leaf tag k v n =>
    obtain ⟨fuel, rfl⟩ := Nat.exists_eq_succ_of_ne_zero (Nat.ne_of_gt (Nat.zero_lt_of_lt hfuel))
    obtain ⟨o, ho, hlab, hview⟩ := hr.view
    rw [label, bind_ok (getNode_ok ho)]
    cases hopt : o.labelOpt with
    | some l' => exact ⟨s.heap, by rw [hlab l' hopt]; rfl, .refl mode hf s.heap⟩
    | none =>
      simp only
      rw [hview]
      exact ⟨_, cacheLabel_ok ho _, cached_set hr.label_eq ho⟩
  | node tag k l r b ihl ihr =>
    obtain ⟨fuel, rfl⟩ := Nat.exists_eq_succ_of_ne_zero (Nat.ne_of_gt (Nat.zero_lt_of_lt hfuel))
    obtain ⟨o, ho, hlab, lx, rx, Ml, Mr, hview, hrl, hrr⟩ := hr.view
    rw [height_node] at hfuel
    rw [label, bind_ok (getNode_ok ho)]
    cases hopt : o.labelOpt with
    | some l' => exact ⟨s.heap, by rw [hlab l' hopt]; rfl, .refl mode hf s.heap⟩
    | none =>
      simp only
      rw [hview]
      obtain ⟨h₁, hrun₁, hc₁⟩ := ihl (s := s) hrl (by omega : l.height < fuel)
      obtain ⟨h₂, hrun₂, hc₂⟩ := ihr (s := { s with heap := h₁ }) (hc₁.kept hrr)
        (by omega : r.height < fuel)
      have hc := hc₁.trans hc₂
      obtain ⟨o₂, ho₂, _⟩ := hc.node ho
      refine ⟨_, ?_, hc.trans (cached_set (hc.kept hr).label_eq ho₂)⟩
      exact (bind_ok hrun₁).trans ((bind_ok hrun₂).trans
        (cacheLabel_ok (s := { s with heap := h₂ }) ho₂ _))

/-- The digest of a tree is the label of its root and one byte for the height that is kept
for it. -/
theorem digestOf_spec {P : TreeParams} (hr : Represents mode P.hf s.heap t x M) {height : ℕ}
    (hheight : s.rootNodeHeight = height) {fuel : ℕ} (hfuel : t.height < fuel) :
    ∃ heap, digestOf P fuel x s
        = (if height < 256 then
            .ok (treeLabel P.hf t ++ [UInt8.ofNat height]) { s with heap := heap }
          else .error .assertionFailed { s with heap := heap })
      ∧ Cached mode P.hf s.heap heap := by
  have hrange : (decide (s.rootNodeHeight ≥ 0) && decide (s.rootNodeHeight < 256)) = true
      ↔ height < 256 := by
    rw [hheight, Bool.and_eq_true, decide_eq_true_eq, decide_eq_true_eq]
    omega
  rw [digestOf, bind_ok (get_ok s)]
  by_cases hlt : height < 256
  · obtain ⟨heap, hrun, hc⟩ := label_spec hr hfuel
    refine ⟨heap, ?_, hc⟩
    rw [if_pos hlt, if_pos (hrange.2 hlt), bind_ok hrun, hheight]
    rfl
  · refine ⟨s.heap, ?_, .refl mode P.hf s.heap⟩
    rw [if_neg hlt, if_neg (mt hrange.1 hlt)]
    rfl

end

end Sparkz.Avl
