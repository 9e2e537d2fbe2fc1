import Sparkz.Legacy.Run

/-!
# Verifying what the legacy tree returns

The nodes of a verifier stand for the tree of the prover, with label-only nodes for most of
it.  Along the elements of a way through the tree, `verifyHelper` does what `modifyAt` does
to the tree.

* `Node.Shows`, `Node.Sprouts` — a node of the verifier stands for a tree; it has got higher.
* `verifyLeft_spec`, `verifyRight_spec` — the rotations.
* `verifyChange` — what an update function makes of a leaf, for the verifier.
* `verifyHelper_none`, `verifyHelper_spec` — the walk along the elements.
-/

namespace Sparkz.Legacy

open Sparkz.Lib Sparkz.Lib.LeafTree Sparkz.Avl

/-- The node stands for the tree. -/
inductive Node.Shows (hf : CryptographicHash) : Node → Tree → Prop
  | labelOnly {t : Tree} : Shows hf (.labelOnlyNode (treeLabel hf t)) t
  | leaf {labelOpt : Option Digest} {tag : Option Ref} {k n : ADKey} {v : ADValue}
      (hlabel : ∀ d ∈ labelOpt, d = treeLabel hf (.leaf tag k v n)) :
      Shows hf (.leaf labelOpt k v n) (.leaf tag k v n)
  | node {labelOpt : Option Digest} {tag : Option Ref} {k : ADKey} {l r : Node}
      {tl tr : Tree} {b : Balance} (hlabel : ∀ d ∈ labelOpt, d = treeLabel hf (.node tag k tl tr b))
      (hl : Shows hf l tl) (hr : Shows hf r tr) :
      Shows hf (.verifierNode labelOpt l r b) (.node tag k tl tr b)

/-- The heavier sides of the node lead down to a leaf that was split. -/
def Node.Sprouts : Node → Prop
  | .verifierNode _ l r b => b = 0 ∨ b = -1 ∧ Sprouts l ∨ b = 1 ∧ Sprouts r
  | _ => False

section

variable {hf : CryptographicHash} {n l r : Node} {t tl tr : Tree}

/-- The label of a node is that of its tree; caching it changes no tree. -/
theorem Node.label_spec (h : n.Shows hf t) :
    (n.label hf).1 = treeLabel hf t ∧ (n.label hf).2.Shows hf t := by
  induction h with
  | labelOnly => exact ⟨rfl, .labelOnly⟩
  | @leaf labelOpt tag k nk v hlabel =>
    cases labelOpt with
    | none => exact ⟨rfl, .leaf fun d hd => Option.some.inj hd.symm⟩
    | some d => exact ⟨hlabel d rfl, .leaf hlabel⟩
  | @node labelOpt tag k l r tl tr b hlabel hl hr ihl ihr =>
    cases labelOpt with
    | none =>
      have hlab : ((verifierNode none l r b).label hf).1 = treeLabel hf (.node tag k tl tr b) := by
        rw [label, ihl.1, ihr.1]
        rfl
      refine ⟨hlab, ?_⟩
      rw [label] at hlab ⊢
      exact .node (fun d hd => (Option.some.inj hd).symm.trans hlab) ihl.2 ihr.2
    | some d => exact ⟨hlabel d rfl, .node hlabel hl hr⟩

/-- A node that was just put on two trees. -/
theorem Node.Shows.fresh (hl : l.Shows hf tl) (hr : r.Shows hf tr) (k : ADKey) (b : Balance) :
    (verifierNode none l r b).Shows hf (.node none k tl tr b) :=
  .node (fun d hd => by cases hd) hl hr

/-- The root of a tree below which a leaf was split is known. -/
theorem Node.Shows.exists_node (h : n.Shows hf t) (hn : n.Sprouts) :
    ∃ lo tag k l r tl tr b, n = .verifierNode lo l r b ∧ t = .node tag k tl tr b
      ∧ l.Shows hf tl ∧ r.Shows hf tr := by
  cases h with
  | labelOnly => exact hn.elim
  | leaf hlabel => exact hn.elim
  | @node lo tag k l r tl tr b hlabel hl hr => exact ⟨lo, tag, k, l, r, tl, tr, b, rfl, rfl, hl, hr⟩

/-! ## Rotations -/

/-- A root above its changed left child. -/
theorem verifyLeft_spec {h : ℕ} {tag : Option Ref} {k : ADKey} {t₀ : Tree} {b : Balance}
    {child : Verified} (hchild : child.changeHappened = true)
    (hold : child.oldLabel = treeLabel hf t₀) (hl : child.root.Shows hf tl)
    (hb : Tilt b h tr.height)
    (hheight : tl.height = h + child.heightIncreased.toNat)
    (hsprout : child.heightIncreased = true → tl.Sprout ∧ child.root.Sprouts)
    {t' : Tree} {up : Bool} (hraise : raiseLeft k tl tr b child.heightIncreased = some (t', up)) :
    ∃ root, verifyLeft hf (treeLabel hf tr) b child
        = some ⟨root, true, up, treeLabel hf (.node tag k t₀ tr b)⟩
      ∧ root.Shows hf t' ∧ (up = true → root.Sprouts) := by
  obtain ⟨root, changed, higher, oldLabel⟩ := child
  subst hchild hold
  unfold verifyLeft
  unfold raiseLeft at hraise
  simp only [if_true]
  have hlabel : ((Node.verifierNode none (.labelOnlyNode (treeLabel hf t₀))
      (.labelOnlyNode (treeLabel hf tr)) b).label hf).1 = treeLabel hf (.node tag k t₀ tr b) := rfl
  rw [hlabel]
  have hr : (Node.labelOnlyNode (treeLabel hf tr)).Shows hf tr := .labelOnly
  by_cases hrot : (higher && decide (b < 0)) = true
  · rw [if_pos hrot] at hraise ⊢
    obtain ⟨rfl, hneg⟩ := (Bool.and_eq_true _ _).mp hrot
    have htall : tl.height = tr.height + 2 := by
      rcases hb with ⟨_, hh⟩ | ⟨rfl, _⟩ | ⟨rfl, _⟩
      · exact hheight.trans (by rw [hh]; rfl)
      · exact absurd hneg (by decide)
      · exact absurd hneg (by decide)
    obtain ⟨hgrown, hsprouts⟩ := hsprout rfl
    obtain ⟨lo, ltag, kl, ll, lr, tll, tlr, bl, rfl, rfl, hll, hlr⟩ := hl.exists_node hsprouts
    rw [height_node] at htall
    simp only at hraise ⊢
    rcases hgrown with ⟨_, hleaf, hleaf'⟩ | ⟨rfl, _⟩ | ⟨rfl, hsprout'⟩
    · have := height_of_isLeaf hleaf
      have := height_of_isLeaf hleaf'
      omega
    · cases hraise
      rw [if_pos (by decide)]
      exact ⟨_, rfl, hll.fresh (hlr.fresh hr k 0) kl 0, fun hup => by cases hup⟩
    · have hsprouts' : lr.Sprouts := by
        rcases hsprouts with h | ⟨h, _⟩ | ⟨_, h⟩
        · cases h
        · cases h
        · exact h
      obtain ⟨mo, mtag, km, ml, mr, tml, tmr, bm, rfl, rfl, hml, hmr⟩ := hlr.exists_node hsprouts'
      rw [if_neg (by decide)] at hraise ⊢
      obtain ⟨t₁, hdouble, heq⟩ := Option.map_eq_some_iff.1 hraise
      cases heq
      rw [doubleRight] at hdouble
      obtain ⟨b', hsplit, rfl⟩ := Option.map_eq_some_iff.1 hdouble
      simp only [hsplit, Option.map_some]
      exact ⟨_, rfl, (hll.fresh hml kl b'.1).fresh (hmr.fresh hr k b'.2) km 0,
        fun hup => by cases hup⟩
  · rw [if_neg hrot] at hraise ⊢
    cases hraise
    refine ⟨_, rfl, hl.fresh hr k _, fun hup => ?_⟩
    obtain ⟨rfl, hb₀⟩ := (Bool.and_eq_true _ _).mp hup
    rw [beq_iff_eq] at hb₀
    subst hb₀
    exact .inr (.inl ⟨rfl, (hsprout rfl).2⟩)

/-- A root above its changed right child. -/
theorem verifyRight_spec {h : ℕ} {tag : Option Ref} {k : ADKey} {t₀ : Tree} {b : Balance}
    {child : Verified} (hchild : child.changeHappened = true)
    (hold : child.oldLabel = treeLabel hf t₀) (hr : child.root.Shows hf tr)
    (hb : Tilt b tl.height h) (hheight : tr.height = h + child.heightIncreased.toNat)
    (hsprout : child.heightIncreased = true → tr.Sprout ∧ child.root.Sprouts)
    {t' : Tree} {up : Bool} (hraise : raiseRight k tl tr b child.heightIncreased = some (t', up)) :
    ∃ root, verifyRight hf (treeLabel hf tl) b child
        = some ⟨root, true, up, treeLabel hf (.node tag k tl t₀ b)⟩
      ∧ root.Shows hf t' ∧ (up = true → root.Sprouts) := by
  obtain ⟨root, changed, higher, oldLabel⟩ := child
  subst hchild hold
  unfold verifyRight
  unfold raiseRight at hraise
  simp only [if_true]
  have hlabel : ((Node.verifierNode none (.labelOnlyNode (treeLabel hf tl))
      (.labelOnlyNode (treeLabel hf t₀)) b).label hf).1 = treeLabel hf (.node tag k tl t₀ b) := rfl
  rw [hlabel]
  have hl : (Node.labelOnlyNode (treeLabel hf tl)).Shows hf tl := .labelOnly
  by_cases hrot : (higher && decide (b > 0)) = true
  · rw [if_pos hrot] at hraise ⊢
    obtain ⟨rfl, hpos⟩ := (Bool.and_eq_true _ _).mp hrot
    have htall : tr.height = tl.height + 2 := by
      rcases hb with ⟨rfl, _⟩ | ⟨rfl, _⟩ | ⟨_, hh⟩
      · exact absurd hpos (by decide)
      · exact absurd hpos (by decide)
      · exact hheight.trans (by rw [hh]; rfl)
    obtain ⟨hgrown, hsprouts⟩ := hsprout rfl
    obtain ⟨lo, rtag, kr, rl, rr, trl, trr, br, rfl, rfl, hrl, hrr⟩ := hr.exists_node hsprouts
    rw [height_node] at htall
    simp only at hraise ⊢
    rcases hgrown with ⟨_, hleaf, hleaf'⟩ | ⟨rfl, hgrown'⟩ | ⟨rfl, _⟩
    · have := height_of_isLeaf hleaf
      have := height_of_isLeaf hleaf'
      omega
    · have hsprouts' : rl.Sprouts := by
        rcases hsprouts with h | ⟨_, h⟩ | ⟨h, _⟩
        · cases h
        · exact h
        · cases h
      obtain ⟨mo, mtag, km, ml, mr, tml, tmr, bm, rfl, rfl, hml, hmr⟩ := hrl.exists_node hsprouts'
      rw [if_neg (by decide)] at hraise ⊢
      obtain ⟨t₁, hdouble, heq⟩ := Option.map_eq_some_iff.1 hraise
      cases heq
      rw [doubleLeft] at hdouble
      obtain ⟨b', hsplit, rfl⟩ := Option.map_eq_some_iff.1 hdouble
      simp only [hsplit, Option.map_some]
      exact ⟨_, rfl, (hl.fresh hml k b'.1).fresh (hmr.fresh hrr kr b'.2) km 0,
        fun hup => by cases hup⟩
    · cases hraise
      rw [if_pos (by decide)]
      exact ⟨_, rfl, (hl.fresh hrl k 0).fresh hrr kr 0, fun hup => by cases hup⟩
  · rw [if_neg hrot] at hraise ⊢
    cases hraise
    refine ⟨_, rfl, hl.fresh hr k _, fun hup => ?_⟩
    obtain ⟨rfl, hb₀⟩ := (Bool.and_eq_true _ _).mp hup
    rw [beq_iff_eq] at hb₀
    subst hb₀
    exact .inr (.inr ⟨rfl, (hsprout rfl).2⟩)

theorem verifyLeft_unchanged (tag : Option Ref) (k : ADKey) (tr : Tree) (b : Balance)
    {child : Verified}
    (hchild : child.changeHappened = false) (hold : child.oldLabel = treeLabel hf tl) :
    ∃ root, verifyLeft hf (treeLabel hf tr) b child
        = some ⟨root, false, false, treeLabel hf (.node tag k tl tr b)⟩
      ∧ root.Shows hf (.node tag k tl tr b) := by
  unfold verifyLeft
  simp only [hchild, Bool.false_eq_true, if_false, hold]
  exact ⟨_, rfl, .node (fun d hd => Option.some.inj hd.symm) .labelOnly .labelOnly⟩

theorem verifyRight_unchanged (tag : Option Ref) (k : ADKey) (tl : Tree) (b : Balance)
    {child : Verified}
    (hchild : child.changeHappened = false) (hold : child.oldLabel = treeLabel hf tr) :
    ∃ root, verifyRight hf (treeLabel hf tl) b child
        = some ⟨root, false, false, treeLabel hf (.node tag k tl tr b)⟩
      ∧ root.Shows hf (.node tag k tl tr b) := by
  unfold verifyRight
  simp only [hchild, Bool.false_eq_true, if_false, hold]
  exact ⟨_, rfl, .node (fun d hd => Option.some.inj hd.symm) .labelOnly .labelOnly⟩

/-! ## The walk -/

/-- What an update function does to the leaf that has, or lacks, the key, for the verifier:
it refuses deletions. -/
def verifyChange (key : ADKey) (updateFn : UpdateFunction) (old : Option ADValue) :
    Option (Action ADKey ADValue) :=
  match updateFn old with
  | .error _ => none
  | .ok none => if old.isSome then none else some .keep
  | .ok (some v) => some (if old.isSome then .update v else .insert key v)

variable {key : ADKey} {updateFn : UpdateFunction} {elements : List AVLProofElement}
  {path : List Bool} {found : Bool} {k nk : ADKey} {v : ADValue}

/-- The leaf at the end of the way, for the verifier. -/
theorem verifyLeaf_spec {tag : Option Ref} {rest : List AVLProofElement}
    (hfound : found = true → k = key) (hunfound : found = false → k < key ∧ key < nk)
    {old : Option ADValue} (hold : old = if found then some v else none) :
    (verifyChange key updateFn old = none →
      verifyHelper hf key updateFn (leafElements found k v nk ++ rest) = none)
    ∧ ∀ act, verifyChange key updateFn old = some act → ∀ t' changed up,
      modifyAt (LeafTree.leaf tag k v nk : Tree) [] act = some (t', changed, up) →
      ∃ root, verifyHelper hf key updateFn (leafElements found k v nk ++ rest)
          = some ⟨root, changed, up, treeLabel hf (.leaf tag k v nk)⟩
        ∧ root.Shows hf t' ∧ (up = true → root.Sprouts) := by
  subst hold
  cases found with
  | true =>
    obtain rfl := hfound rfl
    have hrun : verifyHelper hf k updateFn (leafElements true k v nk ++ rest)
        = verifyFound hf k updateFn nk v := rfl
    rw [hrun, verifyFound, verifyChange]
    simp only [if_true, Option.isSome_some]
    cases updateFn (some v) with
    | error e => exact ⟨fun _ => rfl, fun act hact => by cases hact⟩
    | ok new =>
      cases new with
      | none => exact ⟨fun _ => rfl, fun act hact => by cases hact⟩
      | some w =>
        refine ⟨fun h => (by cases h), fun act hact t' changed up hmod => ?_⟩
        cases hact
        cases hmod
        exact ⟨_, rfl, .leaf fun d hd => (by cases hd), fun hup => by cases hup⟩
  | false =>
    have hrun : verifyHelper hf key updateFn (leafElements false k v nk ++ rest)
        = verifyNotFound hf key updateFn k nk v := rfl
    rw [hrun, verifyNotFound, if_pos (hunfound rfl), verifyChange]
    simp only [Bool.false_eq_true, if_false, Option.isSome_none]
    cases updateFn none with
    | error e => exact ⟨fun _ => rfl, fun act hact => by cases hact⟩
    | ok new =>
      cases new with
      | none =>
        refine ⟨fun h => (by cases h), fun act hact t' changed up hmod => ?_⟩
        cases hact
        cases hmod
        exact ⟨_, rfl, .leaf fun d hd => Option.some.inj hd.symm, fun hup => by cases hup⟩
      | some w =>
        refine ⟨fun h => (by cases h), fun act hact t' changed up hmod => ?_⟩
        cases hact
        cases hmod
        refine ⟨_, rfl, ?_, fun _ => .inl rfl⟩
        exact .node (fun d hd => by cases hd) (.labelOnly (t := .leaf none k v key))
          (.labelOnly (t := .leaf none key w nk))

theorem verifyHelper_left {e : AVLProofElement} {b : Balance} (he : e.balance? = some b)
    (rightLabel : Digest) : verifyHelper hf key updateFn
        (.proofDirection .goingLeft :: .proofRightLabel rightLabel :: e :: elements)
      = (verifyHelper hf key updateFn elements).bind (verifyLeft hf rightLabel b) := by
  rw [verifyHelper]
  simp only [AVLProofElement.direction?, AVLProofElement.rightLabel?, he, Option.bind_eq_bind,
    Option.bind_some]

theorem verifyHelper_right {e : AVLProofElement} {b : Balance} (he : e.balance? = some b)
    (leftLabel : Digest) : verifyHelper hf key updateFn
        (.proofDirection .goingRight :: .proofLeftLabel leftLabel :: e :: elements)
      = (verifyHelper hf key updateFn elements).bind (verifyRight hf leftLabel b) := by
  rw [verifyHelper]
  simp only [AVLProofElement.direction?, AVLProofElement.leftLabel?, he, Option.bind_eq_bind,
    Option.bind_some]

/-- **The walk along the elements of a way** does what the change of the tree does, and gives
the label of the tree before it. -/
theorem verifyHelper_spec (updateFn : UpdateFunction) (h : Follows hf found elements t path)
    (hbal : t.Balanced)
    (hleaf : leafAt t path = some (k, v, nk)) (hfound : found = true → k = key)
    (hunfound : found = false → k < key ∧ key < nk) {old : Option ADValue}
    (hold : old = if found then some v else none) :
    (verifyChange key updateFn old = none → verifyHelper hf key updateFn elements = none)
    ∧ ∀ act, verifyChange key updateFn old = some act → ∀ t' changed up,
      modifyAt t path act = some (t', changed, up) →
      ∃ root, verifyHelper hf key updateFn elements
          = some ⟨root, changed, up, treeLabel hf t⟩
        ∧ root.Shows hf t' ∧ (up = true → root.Sprouts) := by
  induction h with
  | leaf =>
    cases hleaf
    exact verifyLeaf_spec hfound hunfound hold
  | @left e tag k' l r b elements path he hl ih =>
    obtain ⟨hball, _, hb⟩ := balanced_node_iff.1 hbal
    obtain ⟨hnone, hsome⟩ := ih hball hleaf
    rw [verifyHelper_left he]
    refine ⟨fun hc => by rw [hnone hc]; rfl, fun act hact t' changed up hmod => ?_⟩
    obtain ⟨l', up', hmodl, hroot⟩ := modifyAt_left hmod
    obtain ⟨root, hrun, hshows, hsprouts⟩ := hsome act hact _ _ _ hmodl
    rw [hrun, Option.bind_some]
    cases changed with
    | true =>
      exact verifyLeft_spec rfl rfl hshows hb (modifyAt_balanced hball hmodl).2
        (fun hup => by
          obtain rfl : up' = true := hup
          exact ⟨modifyAt_sprout hmodl, hsprouts rfl⟩) hroot
    | false =>
      obtain ⟨rfl, rfl⟩ := hroot
      obtain ⟨root', hrun', hshows'⟩ := verifyLeft_unchanged tag k' r b
        (show (⟨root, false, up', treeLabel hf l⟩ : Verified).changeHappened = false from rfl) rfl
      exact ⟨root', hrun', hshows', fun hup => by cases hup⟩
  | @right e tag k' l r b elements path he hr ih =>
    obtain ⟨_, hbalr, hb⟩ := balanced_node_iff.1 hbal
    obtain ⟨hnone, hsome⟩ := ih hbalr hleaf
    rw [verifyHelper_right he]
    refine ⟨fun hc => by rw [hnone hc]; rfl, fun act hact t' changed up hmod => ?_⟩
    obtain ⟨r', up', hmodr, hroot⟩ := modifyAt_right hmod
    obtain ⟨root, hrun, hshows, hsprouts⟩ := hsome act hact _ _ _ hmodr
    rw [hrun, Option.bind_some]
    cases changed with
    | true =>
      exact verifyRight_spec rfl rfl hshows hb (modifyAt_balanced hbalr hmodr).2
        (fun hup => by
          obtain rfl : up' = true := hup
          exact ⟨modifyAt_sprout hmodr, hsprouts rfl⟩) hroot
    | false =>
      obtain ⟨rfl, rfl⟩ := hroot
      obtain ⟨root', hrun', hshows'⟩ := verifyRight_unchanged tag k' l b
        (show (⟨root, false, up', treeLabel hf r⟩ : Verified).changeHappened = false from rfl) rfl
      exact ⟨root', hrun', hshows', fun hup => by cases hup⟩

end

end Sparkz.Legacy
