import Sparkz.Lib.LeafTreeTags
import Sparkz.Avl.Labels
import Sparkz.Avl.BatchAVLProver

/-!
# The proofs of the prover

* `pack` — a tree in post-order, as a proof has it; `packTree_spec` — `packTree` writes the
  tree of the last proof, cut at each node that was not visited, and takes the flags of the
  others back.
* `ResetOn`, `resetNew_spec` — the new nodes become old ones, and nothing else happens.
* `Represents.reset` — the tree is what it was, and now all of it is old.
-/

namespace Sparkz.Avl

open Sparkz.Lib Sparkz.Lib.LeafTree

/-- The node at the reference was visited. -/
def Visited (h : Heap) (x : Ref) (v : Bool) : Prop := ∃ o, h[x]? = some o ∧ o.visited = v

section

variable {hf : CryptographicHash} {h h' h₁ : Heap} {t : Tree} {x y : Ref} {M : Set Ref}

/-! ## Old and new nodes -/

/-- The tags of a tree of the prover are old nodes. -/
theorem Represents.isNew_tag (hr : Represents .prover hf h t x M) (hy : y ∈ t.allTags) :
    ∃ o, h[y]? = some o ∧ o.content.isNew? = some false := by
  induction t generalizing x M with
  | stub l => exact absurd hr.1 (by decide)
  | leaf tag k v n =>
    obtain ⟨isNew, ⟨o, ho, hc, _⟩, htag, _⟩ := hr
    cases isNew with
    | true =>
      obtain rfl : tag = none := htag
      cases hy
    | false =>
      obtain rfl : tag = some x := htag
      obtain rfl := List.mem_singleton.1 hy
      exact ⟨o, ho, by rw [hc]; rfl⟩
  | node tag k l r b ihl ihr =>
    obtain ⟨isNew, lx, rx, Ml, Mr, ⟨o, ho, hc, _⟩, htag, hl, hr, _⟩ := hr
    rw [allTags, List.mem_append, List.mem_append] at hy
    obtain (hy | hy) | hy := hy
    · cases isNew with
      | true =>
        obtain rfl : tag = none := htag
        cases hy
      | false =>
        obtain rfl : tag = some x := htag
        obtain rfl := List.mem_singleton.1 hy
        exact ⟨o, ho, by rw [hc]; rfl⟩
    · exact ihl hl hy
    · exact ihr hr hy

/-- The footprint of a tree of the prover consists of new nodes. -/
theorem Represents.isNew_footprint (hr : Represents .prover hf h t x M) (hy : y ∈ M) :
    ∃ o, h[y]? = some o ∧ o.content.isNew? = some true := by
  induction t generalizing x M with
  | stub l => exact absurd hr.1 (by decide)
  | leaf tag k v n =>
    obtain ⟨isNew, ⟨o, ho, hc, _⟩, _, rfl⟩ := hr
    obtain ⟨rfl, rfl⟩ := hy
    exact ⟨o, ho, by rw [hc]; rfl⟩
  | node tag k l r b ihl ihr =>
    obtain ⟨isNew, lx, rx, Ml, Mr, ⟨o, ho, hc, _⟩, _, hl, hr, _, _, _, _, rfl⟩ := hr
    obtain ⟨rfl, rfl⟩ | hy | hy := hy
    · exact ⟨o, ho, by rw [hc]; rfl⟩
    · exact ihl hl hy
    · exact ihr hr hy

/-- A node of the footprint is no tag. -/
theorem Represents.tag_notMem (hr : Represents .prover hf h t x M) {t' : Tree} {x' : Ref}
    {M' : Set Ref} (hr' : Represents .prover hf h t' x' M') (hy : y ∈ t'.allTags) : y ∉ M := by
  intro hmem
  obtain ⟨o, ho, hold⟩ := hr'.isNew_tag hy
  obtain ⟨o', ho', hnew⟩ := hr.isNew_footprint hmem
  rw [ho] at ho'
  cases ho'
  rw [hold] at hnew
  cases hnew

/-- A leaf of a tree without new nodes. -/
theorem Represents.old_leaf {tag : Option Ref} {k n : ADKey} {v : ADValue}
    (hr : Represents .prover hf h (.leaf tag k v n) x ∅) :
    tag = some x ∧ Holds h x (.proverLeaf false k v n) (hf.hash (leafMessage k v n)) := by
  obtain ⟨isNew, hx, htag, hM⟩ := hr
  cases isNew with
  | true => exact absurd ⟨rfl, rfl⟩ (Set.eq_empty_iff_forall_notMem.1 hM.symm x)
  | false => exact ⟨htag, hx⟩

/-- An inner node of a tree without new nodes. -/
theorem Represents.old_node {tag : Option Ref} {k : ADKey} {l r : Tree} {b : Balance}
    (hr : Represents .prover hf h (.node tag k l r b) x ∅) :
    ∃ lx rx, tag = some x ∧ Holds h x (.internalProverNode false k lx rx b)
        (treeLabel hf (.node tag k l r b))
      ∧ Represents .prover hf h l lx ∅ ∧ Represents .prover hf h r rx ∅ := by
  obtain ⟨isNew, lx, rx, Ml, Mr, hx, htag, hl, hr, _, _, _, hold, hM⟩ := hr
  cases isNew with
  | true => exact absurd (.inl ⟨rfl, rfl⟩) (Set.eq_empty_iff_forall_notMem.1 hM.symm x)
  | false =>
    obtain ⟨rfl, rfl⟩ := hold rfl
    exact ⟨lx, rx, htag, hx, hl, hr⟩

/-- A tree of the prover has a label of the right length: it is no stub. -/
theorem Represents.length_label (hr : Represents .prover hf h t x M) :
    (treeLabel hf t).length = hf.digestSize := by
  cases t with
  | stub l => exact absurd hr.1 (by decide)
  | leaf tag k v n => exact hf.length_hash _
  | node tag k l r b => exact hf.length_hash _

end

/-! ## Packing -/

/-- What a leaf takes in a proof. -/
def packLeaf (P : TreeParams) (afterLeaf : Bool) (k : ADKey) (v : ADValue) (n : ADKey) :
    List UInt8 :=
  [BatchAVLProver.leafInPackagedProof] ++ (if afterLeaf then [] else k.bytes) ++ n.bytes
    ++ (if P.valueLengthOpt.isNone then toBytes 4 v.length else []) ++ v.bytes

/-- A tree in post-order, after what is there already.  A leaf right after another one does
without its key. -/
def pack (P : TreeParams) : Tree → List UInt8 × Bool → List UInt8 × Bool
  | .stub l, acc => (acc.1 ++ [BatchAVLProver.labelInPackagedProof] ++ l, false)
  | .leaf _ k v n, acc => (acc.1 ++ packLeaf P acc.2 k v n, true)
  | .node _ _ l r b, acc =>
      ((pack P r (pack P l acc)).1 ++ [b.toUInt8], (pack P r (pack P l acc)).2)

/-- The tags of the nodes that a walk over the seen nodes comes to. -/
def walkedTags (seen : Ref → Bool) (t : Tree) : List Ref := (t.openTags seen).filter seen

/-- Labels are cached, and the flags of some nodes are taken back. -/
structure Unvisited (hf : CryptographicHash) (h h' : Heap) (W : List Ref) : Prop where
  length : h'.length = h.length
  node : ∀ {x : Ref} {o : Node}, h[x]? = some o → ∃ o', h'[x]? = some o'
    ∧ o'.content = o.content ∧ o'.visited = (o.visited && !decide (x ∈ W))
  kept : ∀ {t : Tree} {x : Ref} {M : Set Ref},
    Represents .prover hf h t x M → Represents .prover hf h' t x M

section

variable {P : TreeParams} {hf : CryptographicHash} {h h' h₁ : Heap} {t : Tree} {x : Ref}
  {M : Set Ref} {W W' : List Ref} {seen : Ref → Bool}

theorem Cached.unvisited (hc : Cached .prover hf h h') : Unvisited hf h h' [] where
  length := hc.length
  node := by
    intro x o ho
    obtain ⟨o', ho', hcontent, hv⟩ := hc.node ho
    exact ⟨o', ho', hcontent, by simp [hv]⟩
  kept := hc.kept

theorem Unvisited.trans (h₁₂ : Unvisited hf h h₁ W) (h₂₃ : Unvisited hf h₁ h' W') :
    Unvisited hf h h' (W ++ W') where
  length := h₂₃.length.trans h₁₂.length
  node := by
    intro x o ho
    obtain ⟨o₁, ho₁, hc₁, hv₁⟩ := h₁₂.node ho
    obtain ⟨o₂, ho₂, hc₂, hv₂⟩ := h₂₃.node ho₁
    refine ⟨o₂, ho₂, hc₂.trans hc₁, ?_⟩
    rw [hv₂, hv₁, Bool.and_assoc]
    simp only [List.mem_append, Bool.decide_or, Bool.not_or]
  kept := fun hr => h₂₃.kept (h₁₂.kept hr)

/-- A node whose flag is taken back. -/
theorem unvisited_set {o : Node} (ho : h[x]? = some o) :
    Unvisited hf h (h.set x { o with visited := false }) [x] where
  length := List.length_set
  node := by
    intro y oy hoy
    by_cases hy : y = x
    · subst hy
      rw [ho] at hoy
      cases hoy
      exact ⟨_, List.getElem?_set_self (List.getElem?_eq_some_iff.1 ho).1, rfl, by simp⟩
    · exact ⟨oy, by rw [List.getElem?_set_ne (Ne.symm hy), hoy], rfl, by simp [hy]⟩
  kept := by
    have hholds : ∀ {y : Ref} {c : Content} {l : Digest}, Holds h y c l →
        Holds (h.set x { o with visited := false }) y c l := by
      rintro y c l ⟨oy, hoy, hc, hl⟩
      by_cases hy : y = x
      · subst hy
        rw [ho] at hoy
        cases hoy
        exact ⟨_, List.getElem?_set_self (List.getElem?_eq_some_iff.1 ho).1, hc, hl⟩
      · exact ⟨oy, by rw [List.getElem?_set_ne (Ne.symm hy), hoy], hc, hl⟩
    intro t y M hr
    induction t generalizing y M with
    | stub l => exact absurd hr.1 (by decide)
    | leaf tag k v n =>
      obtain ⟨isNew, hy, hrest⟩ := hr
      exact ⟨isNew, hholds hy, hrest⟩
    | node tag k l r b ihl ihr =>
      obtain ⟨isNew, lx, rx, Ml, Mr, hy, htag, hl, hr, hrest⟩ := hr
      exact ⟨isNew, lx, rx, Ml, Mr, hholds hy, htag, ihl hl, ihr hr, hrest⟩

/-- The flags of nodes that are not walked over stay. -/
theorem Unvisited.visited (hu : Unvisited hf h h' W) {v : Bool} (hv : Visited h x v)
    (hx : x ∉ W) : Visited h' x v := by
  obtain ⟨o, ho, rfl⟩ := hv
  obtain ⟨o', ho', _, hv'⟩ := hu.node ho
  exact ⟨o', ho', by simp [hv', hx]⟩

theorem walkedTags_subset (seen : Ref → Bool) (t : Tree) : walkedTags seen t ⊆ t.allTags :=
  (List.filter_sublist.trans (openTags_sublist seen t)).subset

/-- A node that was not visited is packed as its label. -/
theorem packTree_label {s : TreeState ProverNav} (hr : Represents .prover P.hf s.heap t x M)
    (hv : Visited s.heap x false) {fuel : ℕ} (hfuel : t.height < fuel + 1)
    (acc : List UInt8 × Bool) :
    ∃ h', BatchAVLProver.packTree P (fuel + 1) x acc s
        = .ok (pack P (.stub (treeLabel P.hf t)) acc) { s with heap := h' }
      ∧ Unvisited P.hf s.heap h' [] := by
  obtain ⟨bytes, afterLeaf⟩ := acc
  obtain ⟨o, ho, hvis⟩ := hv
  obtain ⟨h', hrun, hcached⟩ := label_spec hr hfuel
  have hlen : (treeLabel P.hf t).length = P.labelLength := hr.length_label
  refine ⟨h', ?_, hcached.unvisited⟩
  rw [BatchAVLProver.packTree, bind_ok (getNode_ok ho), hvis, Bool.not_false, if_pos rfl,
    bind_ok hrun, if_pos hlen]
  rfl

/-- **`packTree`** writes the tree, cut at each node that was not visited. -/
theorem packTree_spec {s : TreeState ProverNav} (hr : Represents .prover P.hf s.heap t x ∅)
    (hnodup : t.allTags.Nodup) (hseen : ∀ y ∈ t.allTags, Visited s.heap y (seen y)) {fuel : ℕ}
    (hfuel : t.height < fuel) (acc : List UInt8 × Bool) :
    ∃ h', BatchAVLProver.packTree P fuel x acc s
        = .ok (pack P (prune (treeLabel P.hf) seen t) acc) { s with heap := h' }
      ∧ Unvisited P.hf s.heap h' (walkedTags seen t) := by
  induction t generalizing s x fuel acc with
  | stub l => exact absurd hr.1 (by decide)
  | leaf tag k v n =>
    obtain ⟨fuel, rfl⟩ := Nat.exists_eq_succ_of_ne_zero (Nat.ne_of_gt (Nat.zero_lt_of_lt hfuel))
    obtain ⟨rfl, o, ho, hc, _⟩ := hr.old_leaf
    have hv := hseen x (List.mem_singleton_self x)
    rw [prune, walkedTags, openTags, Option.all_some, Option.toList_some]
    cases hx : seen x with
    | false =>
      rw [hx] at hv
      rw [if_neg Bool.false_ne_true, List.filter_singleton, hx]
      exact packTree_label hr hv hfuel acc
    | true =>
      obtain ⟨o', ho', hvis⟩ := hv
      rw [ho] at ho'
      cases ho'
      obtain ⟨bytes, afterLeaf⟩ := acc
      refine ⟨s.heap.set x { o with visited := false }, ?_, ?_⟩
      · rw [if_pos rfl, BatchAVLProver.packTree, bind_ok (getNode_ok ho), hvis, hx, Bool.not_true,
          if_neg Bool.false_ne_true, bind_ok (setNode_ok _), hc]
        show EStateM.Result.ok _ _ = EStateM.Result.ok _ _
        simp only [pack, packLeaf, List.append_assoc]
      · rw [List.filter_singleton, hx]
        exact unvisited_set ho
  | node tag k l r b ihl ihr =>
    obtain ⟨fuel, rfl⟩ := Nat.exists_eq_succ_of_ne_zero (Nat.ne_of_gt (Nat.zero_lt_of_lt hfuel))
    obtain ⟨lx, rx, rfl, ⟨⟨vis, lab, _⟩, ho, rfl, _⟩, hl, hr'⟩ := hr.old_node
    have hv := hseen x (List.mem_append_left _ (List.mem_append_left _ (List.mem_singleton_self x)))
    rw [prune, walkedTags, openTags, Option.all_some, Option.toList_some]
    cases hx : seen x with
    | false =>
      rw [hx] at hv
      rw [if_neg Bool.false_ne_true, if_neg Bool.false_ne_true, List.append_nil,
        List.filter_singleton, hx]
      exact packTree_label hr hv hfuel acc
    | true =>
      obtain ⟨o', ho', hvis⟩ := hv
      rw [ho] at ho'
      cases ho'
      obtain rfl : vis = true := hvis.trans hx
      obtain ⟨bytes, afterLeaf⟩ := acc
      rw [height_node] at hfuel
      rw [allTags, Option.toList_some, List.append_assoc, List.singleton_append,
        List.nodup_cons, List.nodup_append] at hnodup
      obtain ⟨hxnot, hnl, hnr, hdisj⟩ := hnodup
      rw [List.mem_append, not_or] at hxnot
      have hu₀ : Unvisited P.hf s.heap _ [x] := unvisited_set ho
      have hne : ∀ {y : Ref}, y ∈ l.allTags ∨ y ∈ r.allTags → y ∉ [x] := by
        rintro y hy hyx
        obtain rfl := List.mem_singleton.1 hyx
        exact hy.elim hxnot.1 hxnot.2
      obtain ⟨h₁, hrun₁, hu₁⟩ :=
        ihl (s := { s with heap := s.heap.set x ⟨false, lab, .internalProverNode false k lx rx b⟩ })
        (hu₀.kept hl) hnl (fun y hy => hu₀.visited (hseen y (List.mem_append_left _
          (List.mem_append_right _ hy))) (hne (.inl hy))) (by omega : l.height < fuel)
        (bytes, afterLeaf)
      have hu₀₁ := hu₀.trans hu₁
      obtain ⟨h₂, hrun₂, hu₂⟩ := ihr (s := { s with heap := h₁ }) (hu₀₁.kept hr') hnr
        (fun y hy => hu₀₁.visited (hseen y (List.mem_append_right _ hy)) fun hmem => by
          rcases List.mem_append.1 hmem with hmem | hmem
          · exact hne (.inr hy) hmem
          · exact hdisj y (walkedTags_subset seen l hmem) y hy rfl)
        (by omega : r.height < fuel) (pack P (prune (treeLabel P.hf) seen l) (bytes, afterLeaf))
      refine ⟨h₂, ?_, ?_⟩
      · rw [if_pos rfl, BatchAVLProver.packTree, bind_ok (getNode_ok ho), Bool.not_true,
          if_neg Bool.false_ne_true, bind_ok (setNode_ok _)]
        simp only
        rw [bind_ok hrun₁, bind_ok hrun₂]
        rfl
      · have hu := hu₀₁.trans hu₂
        rw [if_pos rfl, List.filter_append, List.filter_append, List.filter_singleton, hx]
        rwa [List.append_assoc] at hu

end

/-! ## New nodes become old -/

/-- An old node that was not visited. -/
def Node.settled (o : Node) : Node :=
  { o with visited := false, content := BatchAVLProver.contentOld o.content }

/-- The nodes of a set have become old, and nothing else has happened. -/
structure ResetOn (h h' : Heap) (M : Set Ref) : Prop where
  length : h'.length = h.length
  inside : ∀ {x : Ref} {o : Node}, x ∈ M → h[x]? = some o → h'[x]? = some o.settled
  outside : ∀ {x : Ref}, x ∉ M → h'[x]? = h[x]?

section

variable {hf : CryptographicHash} {h h' h₁ : Heap} {t t' : Tree} {x : Ref} {M M' : Set Ref}

theorem own_false (x : Ref) : own x false = ∅ :=
  Set.eq_empty_iff_forall_notMem.2 fun _ hy => by cases hy.2

theorem own_false_union (x : Ref) : own x false ∪ (∅ ∪ ∅ : Set Ref) = ∅ := by
  rw [own_false, Set.union_empty, Set.union_empty]

theorem ResetOn.refl (h : Heap) : ResetOn h h ∅ where
  length := rfl
  inside := fun hx => absurd hx (Set.notMem_empty _)
  outside := fun _ => rfl

/-- One after the other, on nodes apart. -/
theorem ResetOn.trans (h₁₂ : ResetOn h h₁ M) (h₂₃ : ResetOn h₁ h' M') (hapart : ∀ y ∈ M, y ∉ M') :
    ResetOn h h' (M ∪ M') where
  length := h₂₃.length.trans h₁₂.length
  inside := by
    rintro y o (hy | hy) ho
    · rw [h₂₃.outside (hapart y hy)]
      exact h₁₂.inside hy ho
    · exact h₂₃.inside hy ((h₁₂.outside fun hy' => hapart y hy' hy).trans ho)
  outside := by
    intro y hy
    rw [h₂₃.outside fun hy' => hy (.inr hy'), h₁₂.outside fun hy' => hy (.inl hy')]

theorem resetOn_set {o : Node} (ho : h[x]? = some o) :
    ResetOn h (h.set x o.settled) (own x true) where
  length := List.length_set
  inside := by
    rintro y oy ⟨rfl, _⟩ hoy
    rw [ho] at hoy
    cases hoy
    exact List.getElem?_set_self (List.getElem?_eq_some_iff.1 ho).1
  outside := by
    intro y hy
    exact List.getElem?_set_ne fun hxy => hy ⟨hxy.symm, rfl⟩

theorem isProverNode_contentOld (c : Content) :
    (BatchAVLProver.contentOld c).isProverNode = c.isProverNode := by
  cases c <;> rfl

/-- What is no new node stays. -/
theorem ResetOn.step (hreset : ResetOn h h' M)
    (hnew : ∀ y ∈ M, ∃ o, h[y]? = some o ∧ o.content.isNew? = some true) :
    Step .prover h h' M [] where
  length_le := hreset.length.ge
  kept := by
    intro y o ho hM
    have hy : y ∉ M := by
      intro hy
      obtain ⟨o', ho', hc⟩ := hnew y hy
      rw [ho] at ho'
      cases ho'
      refine hM ?_ hy
      cases hcontent : o.content <;> simp_all [Content.isNew?, Content.mutable]
    exact ⟨o, (hreset.outside hy).trans ho, rfl, rfl⟩
  isProverNode := by
    intro y o ho
    by_cases hy : y ∈ M
    · exact ⟨_, hreset.inside hy ho, isProverNode_contentOld o.content⟩
    · exact ⟨o, (hreset.outside hy).trans ho, rfl⟩
  visited := by
    intro _ y o ho hold
    have hy : y ∉ M := by
      intro hy
      obtain ⟨o', ho', hc⟩ := hnew y hy
      rw [ho] at ho'
      cases ho'
      rw [hold] at hc
      cases hc
    exact ⟨o, (hreset.outside hy).trans ho, by simp⟩

/-- **`resetNew`** makes the new nodes of a tree old. -/
theorem resetNew_spec {s : TreeState ProverNav} (hr : Represents .prover hf s.heap t x M)
    {fuel : ℕ} (hfuel : t.height < fuel) :
    ∃ h', BatchAVLProver.resetNew fuel x s = .ok () { s with heap := h' }
      ∧ ResetOn s.heap h' M := by
  induction t generalizing s x M fuel with
  | stub l => exact absurd hr.1 (by decide)
  | leaf tag k v n =>
    obtain ⟨fuel, rfl⟩ := Nat.exists_eq_succ_of_ne_zero (Nat.ne_of_gt (Nat.zero_lt_of_lt hfuel))
    obtain ⟨isNew, ⟨⟨vis, lab, _⟩, ho, rfl, _⟩, _, rfl⟩ := hr
    rw [BatchAVLProver.resetNew, bind_ok (getNode_ok ho)]
    cases isNew with
    | true => exact ⟨_, rfl, resetOn_set ho⟩
    | false =>
      refine ⟨s.heap, rfl, ?_⟩
      rw [own_false]
      exact .refl s.heap
  | node tag k l r b ihl ihr =>
    obtain ⟨fuel, rfl⟩ := Nat.exists_eq_succ_of_ne_zero (Nat.ne_of_gt (Nat.zero_lt_of_lt hfuel))
    obtain ⟨isNew, lx, rx, Ml, Mr, ⟨⟨vis, lab, _⟩, ho, rfl, _⟩, _, hl, hr, hxl, hxr, hlr, hold,
      rfl⟩ := hr
    rw [BatchAVLProver.resetNew, bind_ok (getNode_ok ho)]
    cases isNew with
    | true =>
      rw [height_node] at hfuel
      obtain ⟨h₁, hrun₁, hreset₁⟩ := ihl hl (by omega : l.height < fuel)
      have hstep := hreset₁.step fun y hy => hl.isNew_footprint hy
      obtain ⟨h₂, hrun₂, hreset₂⟩ := ihr (s := { s with heap := h₁ })
        (hr.step hstep fun y hy hy' => hlr y hy' hy) (by omega : r.height < fuel)
      have hreset := hreset₁.trans hreset₂ hlr
      have ho₂ := (hreset.outside fun hx => hx.elim hxl hxr).trans ho
      have hlast := hreset.trans (resetOn_set ho₂) fun y hy hxy => by
        obtain rfl := hxy.1
        exact hy.elim hxl hxr
      rw [Set.union_comm] at hlast
      refine ⟨_, ?_, hlast⟩
      simp only [nodeContent]
      rw [bind_ok hrun₁, bind_ok hrun₂, bind_ok (getNode_ok ho₂)]
      rfl
    | false =>
      obtain ⟨rfl, rfl⟩ := hold rfl
      refine ⟨s.heap, rfl, ?_⟩
      rw [own_false_union]
      exact .refl s.heap

theorem treeLabel_bare (hf : CryptographicHash) (t : Tree) :
    treeLabel hf t.bare = treeLabel hf t := by
  induction t with
  | stub d => rfl
  | leaf tag k v n => rfl
  | node tag k l r b ihl ihr => rw [bare, treeLabel, treeLabel, ihl, ihr]

theorem treeLabel_of_bare (hf : CryptographicHash) (h : t'.bare = t.bare) :
    treeLabel hf t' = treeLabel hf t := by
  rw [← treeLabel_bare, h, treeLabel_bare]

/-- **A tree whose new nodes have become old** is the same but for its tags, which are now all
of its nodes. -/
theorem Represents.reset {M₀ : Set Ref} (hreset : ResetOn h h' M₀)
    (hnew : ∀ y ∈ M₀, ∃ o, h[y]? = some o ∧ o.content.isNew? = some true)
    (hr : Represents .prover hf h t x M) (hM : ∀ y ∈ M, y ∈ M₀) (hnodup : t.allTags.Nodup) :
    ∃ t', t'.bare = t.bare ∧ Represents .prover hf h' t' x ∅ ∧ t'.allTags.Nodup
      ∧ ∀ y ∈ t'.allTags, y ∈ t.allTags ∨ y ∈ M := by
  induction t generalizing x M with
  | stub l => exact absurd hr.1 (by decide)
  | leaf tag k v n =>
    have hr₀ := hr
    obtain ⟨isNew, ⟨o, ho, hc, hl⟩, htag, rfl⟩ := hr
    cases isNew with
    | true =>
      have ho' := hreset.inside (hM x ⟨rfl, rfl⟩) ho
      refine ⟨.leaf (some x) k v n, rfl, ⟨false, ⟨_, ho', ?_, hl⟩, rfl, ?_⟩,
        List.nodup_singleton x, fun y hy => .inr ⟨List.mem_singleton.1 hy, rfl⟩⟩
      · show BatchAVLProver.contentOld o.content = _
        rw [hc]
        rfl
      · exact (own_false x).symm
    | false =>
      rw [own_false] at hr₀
      exact ⟨_, rfl, hr₀.step (hreset.step hnew) fun y hy => absurd hy (Set.notMem_empty y),
        hnodup, fun y hy => .inl hy⟩
  | node tag k l r b ihl ihr =>
    have hr₀ := hr
    obtain ⟨isNew, lx, rx, Ml, Mr, ⟨o, ho, hc, hlab⟩, htag, hl, hr, hxl, hxr, hlr, hold, rfl⟩ := hr
    cases isNew with
    | true =>
      obtain rfl : tag = none := htag
      rw [allTags, Option.toList_none, List.nil_append, List.nodup_append] at hnodup
      obtain ⟨hnl, hnr, hdisj⟩ := hnodup
      obtain ⟨l', hbl, hl', hnl', hsubl⟩ := ihl hl (fun y hy => hM y (.inr (.inl hy))) hnl
      obtain ⟨r', hbr, hr', hnr', hsubr⟩ := ihr hr (fun y hy => hM y (.inr (.inr hy))) hnr
      have ho' := hreset.inside (hM x (.inl ⟨rfl, rfl⟩)) ho
      have hxtag : ∀ {t : Tree} {y : Ref} {M : Set Ref}, Represents .prover hf h t y M →
          x ∉ t.allTags := by
        intro t y M hrt hxt
        exact hr₀.tag_notMem hrt hxt (.inl ⟨rfl, rfl⟩)
      refine ⟨.node (some x) k l' r' b, by rw [bare, bare, hbl, hbr],
        ⟨false, lx, rx, ∅, ∅, ⟨_, ho', ?_, ?_⟩, rfl, hl', hr', Set.notMem_empty x,
          Set.notMem_empty x, fun y hy => absurd hy (Set.notMem_empty y), fun _ => ⟨rfl, rfl⟩, ?_⟩,
        ?_, ?_⟩
      · show BatchAVLProver.contentOld o.content = _
        rw [hc]
        rfl
      · rw [treeLabel, treeLabel_of_bare hf hbl, treeLabel_of_bare hf hbr]
        exact hlab
      · exact (own_false_union x).symm
      · rw [allTags, Option.toList_some, List.append_assoc, List.singleton_append,
          List.nodup_cons, List.mem_append, List.nodup_append]
        refine ⟨?_, hnl', hnr', ?_⟩
        · rintro (hx | hx)
          · exact (hsubl x hx).elim (hxtag hl) hxl
          · exact (hsubr x hx).elim (hxtag hr) hxr
        · rintro y hy z hz rfl
          rcases hsubl y hy with hyl | hyl
          · rcases hsubr y hz with hyr | hyr
            · exact hdisj y hyl y hyr rfl
            · exact hr.tag_notMem hl hyl hyr
          · rcases hsubr y hz with hyr | hyr
            · exact hl.tag_notMem hr hyr hyl
            · exact hlr y hyl hyr
      · intro y hy
        rw [allTags, Option.toList_some, List.mem_append, List.mem_append] at hy
        rw [allTags, Option.toList_none, List.nil_append, List.mem_append]
        obtain (hy | hy) | hy := hy
        · exact .inr (.inl ⟨List.mem_singleton.1 hy, rfl⟩)
        · exact (hsubl y hy).imp .inl fun hy => .inr (.inl hy)
        · exact (hsubr y hy).imp .inr fun hy => .inr (.inr hy)
    | false =>
      obtain ⟨rfl, rfl⟩ := hold rfl
      rw [own_false_union] at hr₀
      exact ⟨_, rfl, hr₀.step (hreset.step hnew) fun y hy => absurd hy (Set.notMem_empty y),
        hnodup, fun y hy => .inl hy⟩

end

end Sparkz.Avl
