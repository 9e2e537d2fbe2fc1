import Sparkz.Lib.LeafTreeSearch
import Sparkz.Avl.ProofGeneration

/-!
# What a prover reads off its tree

* `bindings` — the leaves below a node.
* `bindings_spec`, `lookupWalk_spec` — the leaves and the lookups of a node are those of its
  tree.
* `checkTreeHelper_spec` — a balanced chain passes all checks; the checks after a proof too,
  if no node is new or visited.
-/

namespace Sparkz.Avl

open Sparkz.Lib Sparkz.Lib.LeafTree

namespace BatchAVLProver

/-- The keys and values of the leaves below a node, from left to right. -/
def bindings (heap : Heap) : ℕ → Ref → Option (List (ADKey × ADValue))
  | 0, _ => none
  | fuel + 1, x =>
      match (heap[x]?).map Node.content with
      | some (.proverLeaf _ k v _) => some [(k, v)]
      | some (.internalProverNode _ _ l r _) => do
          return (← bindings heap fuel l) ++ (← bindings heap fuel r)
      | _ => none

section

variable {hf : CryptographicHash} {heap : Heap} {t : Tree} {x : Ref} {M : Set Ref} {lo hi : ADKey}

theorem bindings_spec (hr : Represents .prover hf heap t x M) {fuel : ℕ}
    (hfuel : t.height < fuel) : bindings heap fuel x = some t.entries := by
  induction t generalizing x M fuel with
  | stub l => exact absurd hr.1 (by decide)
  | leaf tag k v n =>
    obtain ⟨fuel, rfl⟩ := Nat.exists_eq_succ_of_ne_zero (Nat.ne_of_gt (Nat.zero_lt_of_lt hfuel))
    obtain ⟨isNew, ⟨o, ho, hc, _⟩, _⟩ := hr
    rw [bindings, ho, Option.map_some, hc]
    rfl
  | node tag k l r b ihl ihr =>
    obtain ⟨fuel, rfl⟩ := Nat.exists_eq_succ_of_ne_zero (Nat.ne_of_gt (Nat.zero_lt_of_lt hfuel))
    obtain ⟨isNew, lx, rx, Ml, Mr, ⟨o, ho, hc, _⟩, _, hl, hr, _⟩ := hr
    rw [height_node] at hfuel
    rw [bindings, ho, Option.map_some, hc]
    show (bindings heap fuel lx).bind _ = _
    rw [ihl hl (by omega), Option.bind_some]
    show (bindings heap fuel rx).bind _ = _
    rw [ihr hr (by omega)]
    rfl

/-- The walk ends at the leaf where the search ends. -/
theorem lookupWalk_spec (hr : Represents .prover hf heap t x M) {fuel : ℕ}
    (hfuel : t.height < fuel) (key : ADKey) (found : Bool) :
    ∃ k v n, leafAt t (searchPath key found t) = some (k, v, n)
      ∧ lookupWalk heap key fuel x found
        = .ok (if found || meets key t then some v else none) := by
  induction t generalizing x M fuel found with
  | stub l => exact absurd hr.1 (by decide)
  | leaf tag k v n =>
    obtain ⟨fuel, rfl⟩ := Nat.exists_eq_succ_of_ne_zero (Nat.ne_of_gt (Nat.zero_lt_of_lt hfuel))
    obtain ⟨isNew, ⟨o, ho, hc, _⟩, _⟩ := hr
    have hmeets : meets key (.leaf tag k v n : Tree) = false := rfl
    refine ⟨k, v, n, by cases found <;> rfl, ?_⟩
    rw [lookupWalk, ho, hmeets, Bool.or_false]
    simp only [hc, leafContent]
  | node tag k l r b ihl ihr =>
    obtain ⟨fuel, rfl⟩ := Nat.exists_eq_succ_of_ne_zero (Nat.ne_of_gt (Nat.zero_lt_of_lt hfuel))
    obtain ⟨isNew, lx, rx, Ml, Mr, ⟨o, ho, hc, _⟩, _, hl, hr, _⟩ := hr
    rw [height_node] at hfuel
    have hlt : l.height < fuel := by omega
    have hrt : r.height < fuel := by omega
    rw [lookupWalk, ho]
    simp only [hc, nodeContent]
    cases found with
    | true =>
      obtain ⟨kl, vl, nl, hleaf, hwalk⟩ := ihl hl hlt true
      exact ⟨kl, vl, nl, hleaf, by rw [if_pos rfl, hwalk, Bool.true_or, Bool.true_or]⟩
    | false =>
      rw [if_neg Bool.false_ne_true, searchPath, meets]
      rcases lt_trichotomy key k with hkey | rfl | hkey
      · obtain ⟨kl, vl, nl, hleaf, hwalk⟩ := ihl hl hlt false
        rw [if_pos hkey, if_pos hkey, compare_lt_iff_lt.2 hkey]
        exact ⟨kl, vl, nl, hleaf, hwalk⟩
      · obtain ⟨kr, vr, nr, hleaf, hwalk⟩ := ihr hr hrt true
        rw [if_neg (lt_irrefl key), if_pos rfl, if_neg (lt_irrefl key), if_pos rfl,
          compare_eq_iff_eq.2 rfl]
        exact ⟨kr, vr, nr, hleaf, hwalk⟩
      · obtain ⟨kr, vr, nr, hleaf, hwalk⟩ := ihr hr hrt false
        rw [if_neg hkey.not_gt, if_neg hkey.ne', if_neg hkey.not_gt, if_neg hkey.ne',
          compare_gt_iff_gt.2 hkey]
        exact ⟨kr, vr, nr, hleaf, hwalk⟩

/-! ## The check of the tree -/

/-- The key of a child that is an inner node lies within the chain of the child. -/
theorem checkChildKey_of_chain (hr : Represents .prover hf heap t x M) (hchain : Chain lo hi t)
    {cond : ADKey → Bool} (hcond : ∀ k, lo < k → k < hi → cond k = true) :
    checkChildKey heap x cond = true := by
  cases t with
  | stub l => exact absurd hr.1 (by decide)
  | leaf tag k v n =>
    obtain ⟨isNew, ⟨⟨vis, lab, _⟩, ho, rfl, _⟩, _⟩ := hr
    rw [checkChildKey, ho]
    rfl
  | node tag k l r b =>
    obtain ⟨isNew, lx, rx, Ml, Mr, ⟨⟨vis, lab, _⟩, ho, rfl, _⟩, _⟩ := hr
    rw [checkChildKey, ho]
    exact hcond k hchain.1.lt hchain.2.lt

/-- The balance of a balanced node is the difference of the heights. -/
theorem balance_of_balanced {tag : Option Ref} {k : ADKey} {l r : Tree} {b : Balance}
    (hbal : (LeafTree.node tag k l r b).Balanced) :
    b ≥ -1 ∧ b ≤ 1 ∧ b.toInt = (r.height : ℤ) - l.height := by
  obtain ⟨_, _, ⟨rfl, hh⟩ | ⟨rfl, hh⟩ | ⟨rfl, hh⟩⟩ := hbal
  · exact ⟨by decide, by decide, by rw [hh]; push_cast; simp⟩
  · exact ⟨by decide, by decide, by rw [hh]; simp⟩
  · exact ⟨by decide, by decide, by rw [hh]; push_cast; simp⟩

/-- The root of a tree without new nodes is one of its tags. -/
theorem root_mem_allTags (hr : Represents .prover hf heap t x ∅) : x ∈ t.allTags := by
  cases t with
  | stub l => exact absurd hr.1 (by decide)
  | leaf tag k v n =>
    obtain ⟨rfl, _⟩ := hr.old_leaf
    exact List.mem_singleton_self x
  | node tag k l r b =>
    obtain ⟨_, _, rfl, _⟩ := hr.old_node
    exact List.mem_append_left _ (List.mem_append_left _ (List.mem_singleton_self x))

/-- The flags of a node, after a proof. -/
theorem flags_clean (hr : Represents .prover hf heap t x M) {postProof : Bool}
    (hclean : postProof = true → M = ∅ ∧ ∀ y ∈ t.allTags, Visited heap y false) {o : Node}
    (ho : heap[x]? = some o) :
    (!postProof || (!o.visited && o.content.isNew? == some false)) = true := by
  cases postProof with
  | false => rfl
  | true =>
    obtain ⟨rfl, hvisited⟩ := hclean rfl
    have hx := root_mem_allTags hr
    obtain ⟨o', ho', hv⟩ := hvisited x hx
    obtain ⟨o'', ho'', hold⟩ := hr.isNew_tag hx
    rw [ho] at ho' ho''
    cases ho'
    cases ho''
    rw [hv, hold]
    rfl

theorem checkTreeHelper_leaf {tag : Option Ref} {k n : ADKey} {v : ADValue}
    (hr : Represents .prover hf heap (.leaf tag k v n) x M) (fuel : ℕ) (postProof : Bool)
    (hclean : postProof = true →
      M = ∅ ∧ ∀ y ∈ (LeafTree.leaf tag k v n : Tree).allTags, Visited heap y false) :
    checkTreeHelper heap postProof (fuel + 1) x = .ok ⟨⟨k, n⟩, ⟨k, n⟩, 0, true⟩ := by
  have hr₀ := hr
  obtain ⟨isNew, ⟨⟨vis, lab, _⟩, ho, rfl, _⟩, _⟩ := hr
  have hflags := flags_clean hr₀ hclean ho
  rw [checkTreeHelper, ho]
  simp only [leafContent] at hflags ⊢
  rw [hflags]

/-- **A balanced chain** passes all checks; after a proof none of its nodes may be new or
visited. -/
theorem checkTreeHelper_spec (hr : Represents .prover hf heap t x M) (hchain : Chain lo hi t)
    (hbal : t.Balanced) {fuel : ℕ} (hfuel : t.height < fuel) (postProof : Bool)
    (hclean : postProof = true → M = ∅ ∧ ∀ y ∈ t.allTags, Visited heap y false) :
    ∃ next key, checkTreeHelper heap postProof fuel x
      = .ok ⟨⟨lo, next⟩, ⟨key, hi⟩, t.height, true⟩ := by
  induction t generalizing x M fuel lo hi with
  | stub l => exact absurd hr.1 (by decide)
  | leaf tag k v n =>
    obtain ⟨fuel, rfl⟩ := Nat.exists_eq_succ_of_ne_zero (Nat.ne_of_gt (Nat.zero_lt_of_lt hfuel))
    obtain ⟨rfl, rfl, _⟩ := hchain
    exact ⟨_, _, checkTreeHelper_leaf hr fuel postProof hclean⟩
  | node tag k l r b ihl ihr =>
    obtain ⟨fuel, rfl⟩ := Nat.exists_eq_succ_of_ne_zero (Nat.ne_of_gt (Nat.zero_lt_of_lt hfuel))
    have hr₀ := hr
    obtain ⟨isNew, lx, rx, Ml, Mr, ⟨⟨vis, lab, _⟩, ho, rfl, _⟩, _, hl, hr, _, _, _, _, rfl⟩ := hr
    rw [height_node] at hfuel
    have hflags := flags_clean hr₀ hclean ho
    have hcleanl : postProof = true → Ml = ∅ ∧ ∀ y ∈ l.allTags, Visited heap y false := by
      intro hpost
      obtain ⟨hM, hv⟩ := hclean hpost
      refine ⟨Set.subset_eq_empty (fun y hy => .inr (.inl hy)) hM, fun y hy => hv y ?_⟩
      exact List.mem_append_left _ (List.mem_append_right _ hy)
    have hcleanr : postProof = true → Mr = ∅ ∧ ∀ y ∈ r.allTags, Visited heap y false := by
      intro hpost
      obtain ⟨hM, hv⟩ := hclean hpost
      exact ⟨Set.subset_eq_empty (fun y hy => .inr (.inr hy)) hM, fun y hy =>
        hv y (List.mem_append_right _ hy)⟩
    obtain ⟨nextl, keyl, hleft⟩ := ihl hl hchain.1 hbal.1 (by omega : l.height < fuel) hcleanl
    obtain ⟨nextr, keyr, hright⟩ := ihr hr hchain.2 hbal.2.1 (by omega : r.height < fuel) hcleanr
    have hkl : checkChildKey heap lx (fun kl => decide (kl < k)) = true :=
      checkChildKey_of_chain hl hchain.1 fun kl _ hlt => decide_eq_true hlt
    have hkr : checkChildKey heap rx (fun kr => decide (kr > k)) = true :=
      checkChildKey_of_chain hr hchain.2 fun kr hlt _ => decide_eq_true hlt
    have hb := decide_eq_true (balance_of_balanced hbal)
    refine ⟨nextl, keyr, ?_⟩
    rw [checkTreeHelper, ho]
    simp only [nodeContent] at hflags ⊢
    rw [hleft]
    show (checkTreeHelper heap postProof fuel rx).bind _ = _
    rw [hright, hflags, hkl, hkr]
    simp only [Except.bind, hb, decide_true, Bool.and_true]
    rfl

end

end BatchAVLProver

end Sparkz.Avl
