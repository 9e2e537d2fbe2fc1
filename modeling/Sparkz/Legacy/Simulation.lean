import Sparkz.Lib.LeafTreeSearch
import Sparkz.Legacy.AVLModifyProof

/-!
# What the legacy tree does

The nodes of the legacy tree stand for a `LeafTree`, and `modifyHelper` does to them what
`modifyAt` does to it along the search path.

* `ProverNodes.Shows` — a node stands for a tree: its cached labels and its heights are
  right.
* `afterLeft_spec`, `afterRight_spec` — the rotations, with all their assertions.
* `leafChange` — what an operation makes of the value that it finds.
* `Follows` — the elements are those of a way through a tree.
* `modifyHelper_error`, `modifyHelper_spec` — the walk.
-/

namespace Sparkz.Legacy

open Sparkz.Lib Sparkz.Lib.LeafTree Sparkz.Avl

/-- The node stands for the tree. -/
inductive ProverNodes.Shows (hf : CryptographicHash) : ProverNodes → Tree → Prop
  | leaf {labelOpt : Option Digest} {tag : Option Ref} {k n : ADKey} {v : ADValue}
      (hlabel : ∀ d ∈ labelOpt, d = treeLabel hf (.leaf tag k v n)) :
      Shows hf (.leaf labelOpt k v n) (.leaf tag k v n)
  | node {labelOpt : Option Digest} {tag : Option Ref} {k : ADKey} {l r : ProverNodes}
      {tl tr : Tree} {b : Balance} (hlabel : ∀ d ∈ labelOpt, d = treeLabel hf (.node tag k tl tr b))
      (hl : Shows hf l tl) (hr : Shows hf r tr) :
      Shows hf (.proverNode labelOpt (max tl.height tr.height + 1) k l r b) (.node tag k tl tr b)

section

variable {hf : CryptographicHash} {n l r : ProverNodes} {t tl tr : Tree}

namespace ProverNodes

theorem Shows.height (h : n.Shows hf t) : n.height = t.height := by
  cases h with
  | leaf hlabel => rfl
  | node hlabel hl hr => rfl

/-- The label of a node is that of its tree; caching it changes no tree. -/
theorem label_spec (h : n.Shows hf t) :
    (n.label hf).1 = treeLabel hf t ∧ (n.label hf).2.Shows hf t := by
  induction h with
  | @leaf labelOpt tag k nk v hlabel =>
    cases labelOpt with
    | none => exact ⟨rfl, .leaf fun d hd => Option.some.inj hd.symm⟩
    | some d => exact ⟨hlabel d rfl, .leaf hlabel⟩
  | @node labelOpt tag k l r tl tr b hlabel hl hr ihl ihr =>
    cases labelOpt with
    | none =>
      have hlab : ((proverNode none (max tl.height tr.height + 1) k l r b).label hf).1
          = treeLabel hf (.node tag k tl tr b) := by
        rw [label, ihl.1, ihr.1]
        rfl
      refine ⟨hlab, ?_⟩
      rw [label] at hlab ⊢
      exact .node (fun d hd => (Option.some.inj hd).symm.trans hlab) ihl.2 ihr.2
    | some d => exact ⟨hlabel d rfl, .node hlabel hl hr⟩

/-- A node that was put on two trees and whose height was checked. -/
theorem Shows.checked (hl : l.Shows hf tl) (hr : r.Shows hf tr) {labelOpt : Option Digest}
    {tag : Option Ref} {k : ADKey} {b : Balance}
    (hlabel : ∀ d ∈ labelOpt, d = treeLabel hf (.node tag k tl tr b)) :
    (checked labelOpt k l r b).Shows hf (.node tag k tl tr b) := by
  rw [ProverNodes.checked, hl.height, hr.height, max_comm]
  exact .node hlabel hl hr

/-- A node that was just put on two trees. -/
theorem Shows.fresh (hl : l.Shows hf tl) (hr : r.Shows hf tr) (k : ADKey) (b : Balance) :
    (ProverNodes.checked none k l r b).Shows hf (.node none k tl tr b) :=
  hl.checked hr fun d hd => by cases hd

/-- The check of a height is passed where the balance is right. -/
theorem Shows.checkHeight (hl : l.Shows hf tl) (hr : r.Shows hf tr) {b : Balance}
    (hb : Tilt b tl.height tr.height) : checkHeight l r b = true := by
  rw [ProverNodes.checkHeight, hl.height, hr.height, decide_eq_true_eq]
  rcases hb with ⟨rfl, h⟩ | ⟨rfl, h⟩ | ⟨rfl, h⟩
  · exact ⟨by rw [h]; push_cast; ring_nf, by decide, by decide⟩
  · exact ⟨by rw [h, sub_self]; rfl, by decide, by decide⟩
  · exact ⟨by rw [h]; push_cast; ring_nf, by decide, by decide⟩

theorem Shows.isLeaf_of_height (h : n.Shows hf t) (h₀ : t.height = 0) : n.isLeaf = true := by
  cases h with
  | leaf hlabel => rfl
  | node hlabel hl hr => exact absurd h₀ (Nat.succ_ne_zero _)

end ProverNodes

/-! ## Rotations -/

theorem doubleRotateBalances_ok {bm : Balance} {b : Balance × Balance} {leaves : List ProverNodes}
    (hb : splitBalance bm = some b) (hleaves : bm = 0 → ∀ x ∈ leaves, x.isLeaf = true) :
    doubleRotateBalances bm leaves = .ok b := by
  unfold splitBalance at hb
  unfold doubleRotateBalances
  split at hb
  case isTrue h =>
    cases hb
    rw [if_pos h, if_pos (List.all_eq_true.2 (hleaves h))]
  case isFalse h =>
    rw [if_neg h]
    split at hb
    case isTrue h₁ =>
      cases hb
      rw [if_pos h₁]
    case isFalse h₁ =>
      rw [if_neg h₁]
      split at hb
      case isTrue h₂ =>
        cases hb
        rw [if_pos h₂]
      case isFalse h₂ => cases hb

/-- The double rotation at a root whose left child has got higher on its right. -/
theorem doubleRotateRight_spec (height : ℕ) {k kl km : ADKey} {right ll ml mr : ProverNodes}
    {tll tml tmr : Tree} (b : Balance) {bm : Balance} {tagl tagm : Option Ref} {bl : Balance}
    (hr : right.Shows hf tr) (hll : ll.Shows hf tll) (hml : ml.Shows hf tml)
    (hmr : mr.Shows hf tmr) (hbm : Tilt bm tml.height tmr.height)
    (hh : max tml.height tmr.height = tr.height) (hh' : tll.height = tr.height)
    (hsprout : (LeafTree.node tagm km tml tmr bm).Sprout) {t' : Tree}
    (hdouble : doubleRight k (.node tagl kl tll (.node tagm km tml tmr bm) bl) tr = some t') :
    ∃ x root, doubleRotateRight height k right b kl ll km ml mr bm = (x, .ok root)
      ∧ root.Shows hf t' := by
  obtain ⟨b', hsplit, hb₁, hb₂⟩ := splitBalance_spec hbm hh
  have ht' : t' = .node none km (.node none kl tll tml b'.1) (.node none k tmr tr b'.2) 0 := by
    rw [doubleRight, hsplit] at hdouble
    exact (Option.some.inj hdouble).symm
  -- a new root that does not lean is a leaf just split, and all around it are leaves
  have hbal : doubleRotateBalances bm [mr, right, ll, ml] = .ok b' := by
    refine doubleRotateBalances_ok hsplit fun h₀ x hx => ?_
    have hleaves : tml.isLeaf = true ∧ tmr.isLeaf = true := by
      rcases hsprout with ⟨_, h⟩ | ⟨h, _⟩ | ⟨h, _⟩
      · exact h
      · rw [h₀] at h
        cases h
      · rw [h₀] at h
        cases h
    have hml₀ : tml.height = 0 := height_of_isLeaf hleaves.1
    have hmr₀ : tmr.height = 0 := height_of_isLeaf hleaves.2
    have htr₀ : tr.height = 0 := by rw [← hh, hml₀, hmr₀, max_self]
    simp only [List.mem_cons, List.not_mem_nil, or_false] at hx
    rcases hx with rfl | rfl | rfl | rfl
    · exact hmr.isLeaf_of_height hmr₀
    · exact hr.isLeaf_of_height htr₀
    · exact hll.isLeaf_of_height (hh'.trans htr₀)
    · exact hml.isLeaf_of_height hml₀
  have hx := hmr.fresh hr k b'.2
  have hy := hll.fresh hml kl b'.1
  have hheights : Tilt 0 (LeafTree.node none kl tll tml b'.1 : Tree).height
      (LeafTree.node none k tmr tr b'.2 : Tree).height := by
    refine .inr (.inl ⟨rfl, ?_⟩)
    rw [height_node, height_node]
    omega
  rw [← hh'] at hb₁
  unfold doubleRotateRight
  rw [hbal]
  simp only [hmr.checkHeight hr hb₂, hll.checkHeight hml hb₁, hy.checkHeight hx hheights,
    Bool.and_self, if_true]
  exact ⟨_, _, rfl, ht' ▸ hy.fresh hx km 0⟩

/-- The double rotation at a root whose right child has got higher on its left. -/
theorem doubleRotateLeft_spec (height : ℕ) {k kr km : ADKey} {left rr ml mr : ProverNodes}
    {trr tml tmr : Tree} (b : Balance) {bm : Balance} {tagr tagm : Option Ref} {br : Balance}
    (hl : left.Shows hf tl) (hrr : rr.Shows hf trr) (hml : ml.Shows hf tml)
    (hmr : mr.Shows hf tmr) (hbm : Tilt bm tml.height tmr.height)
    (hh : max tml.height tmr.height = tl.height) (hh' : trr.height = tl.height)
    (hsprout : (LeafTree.node tagm km tml tmr bm).Sprout) {t' : Tree}
    (hdouble : doubleLeft k tl (.node tagr kr (.node tagm km tml tmr bm) trr br) = some t') :
    ∃ x root, doubleRotateLeft height k left b kr rr km ml mr bm = (x, .ok root)
      ∧ root.Shows hf t' := by
  obtain ⟨b', hsplit, hb₁, hb₂⟩ := splitBalance_spec hbm hh
  have ht' : t' = .node none km (.node none k tl tml b'.1) (.node none kr tmr trr b'.2) 0 := by
    rw [doubleLeft, hsplit] at hdouble
    exact (Option.some.inj hdouble).symm
  have hbal : doubleRotateBalances bm [left, ml, mr, rr] = .ok b' := by
    refine doubleRotateBalances_ok hsplit fun h₀ x hx => ?_
    have hleaves : tml.isLeaf = true ∧ tmr.isLeaf = true := by
      rcases hsprout with ⟨_, h⟩ | ⟨h, _⟩ | ⟨h, _⟩
      · exact h
      · rw [h₀] at h
        cases h
      · rw [h₀] at h
        cases h
    have hml₀ : tml.height = 0 := height_of_isLeaf hleaves.1
    have hmr₀ : tmr.height = 0 := height_of_isLeaf hleaves.2
    have htl₀ : tl.height = 0 := by rw [← hh, hml₀, hmr₀, max_self]
    simp only [List.mem_cons, List.not_mem_nil, or_false] at hx
    rcases hx with rfl | rfl | rfl | rfl
    · exact hl.isLeaf_of_height htl₀
    · exact hml.isLeaf_of_height hml₀
    · exact hmr.isLeaf_of_height hmr₀
    · exact hrr.isLeaf_of_height (hh'.trans htl₀)
  have hx := hl.fresh hml k b'.1
  have hy := hmr.fresh hrr kr b'.2
  have hheights : Tilt 0 (LeafTree.node none k tl tml b'.1 : Tree).height
      (LeafTree.node none kr tmr trr b'.2 : Tree).height := by
    refine .inr (.inl ⟨rfl, ?_⟩)
    rw [height_node, height_node]
    omega
  rw [← hh'] at hb₂
  unfold doubleRotateLeft
  rw [hbal]
  simp only [hl.checkHeight hml hb₁, hmr.checkHeight hrr hb₂, hx.checkHeight hy hheights,
    Bool.and_self, if_true]
  exact ⟨_, _, rfl, ht' ▸ hx.fresh hy km 0⟩

/-- A root above its changed left child. -/
theorem afterLeft_spec (labelOpt : Option Digest) (height : ℕ) {h : ℕ} {k : ADKey}
    (left : ProverNodes) {right : ProverNodes} {b : Balance} {m : Modified}
    (hm : m.changeHappened = true)
    (hl : m.root.Shows hf tl) (hr : right.Shows hf tr) (hball : tl.Balanced) (hbalr : tr.Balanced)
    (hb : Tilt b h tr.height) (hheight : tl.height = h + m.childHeightIncreased.toNat)
    (hsprout : m.childHeightIncreased = true → tl.Sprout) {t' : Tree} {up : Bool}
    (hraise : raiseLeft k tl tr b m.childHeightIncreased = some (t', up)) :
    ∃ x root, afterLeft labelOpt height k left right b m = (x, .ok ⟨root, true, up, m.proof⟩)
      ∧ root.Shows hf t' := by
  obtain ⟨root, changed, higher, proof⟩ := m
  subst hm
  unfold afterLeft
  unfold raiseLeft at hraise
  simp only [if_true]
  by_cases hrot : (higher && decide (b < 0)) = true
  · rw [if_pos hrot] at hraise ⊢
    obtain ⟨rfl, hneg⟩ := (Bool.and_eq_true _ _).mp hrot
    have htall : tl.height = tr.height + 2 := by
      rcases hb with ⟨_, hh⟩ | ⟨rfl, _⟩ | ⟨rfl, _⟩
      · exact hheight.trans (by rw [hh]; rfl)
      · exact absurd hneg (by decide)
      · exact absurd hneg (by decide)
    cases hl with
    | leaf hlabel => exact absurd htall (by rw [height_leaf]; omega)
    | @node lo tag kl ll lr tll tlr bl hlabel hll hlr =>
      obtain ⟨hballl, hballr, hbl⟩ := balanced_node_iff.1 hball
      rw [height_node] at htall
      simp only at hraise ⊢
      rcases hsprout rfl with ⟨rfl, hleaf, hleaf'⟩ | ⟨rfl, _⟩ | ⟨rfl, hlr'⟩
      · have := height_of_isLeaf hleaf
        have := height_of_isLeaf hleaf'
        omega
      · have hlow : tlr.height = tr.height ∧ tll.height = tr.height + 1 := by
          rcases hbl with ⟨_, h₁⟩ | ⟨h₁, _⟩ | ⟨h₁, _⟩
          · omega
          · cases h₁
          · cases h₁
        cases hraise
        have hx := hlr.fresh hr k 0
        have h₁ : Tilt 0 tlr.height tr.height := .inr (.inl ⟨rfl, hlow.1⟩)
        have h₂ : Tilt 0 tll.height (LeafTree.node none k tlr tr 0 : Tree).height := by
          refine .inr (.inl ⟨rfl, ?_⟩)
          rw [height_node]
          omega
        rw [if_pos (by decide), if_pos (by rw [hlr.checkHeight hr h₁, hll.checkHeight hx h₂]; rfl)]
        exact ⟨_, _, rfl, hll.fresh hx kl 0⟩
      · have hlow : tlr.height = tr.height + 1 ∧ tll.height = tr.height := by
          rcases hbl with ⟨h₁, _⟩ | ⟨h₁, _⟩ | ⟨_, h₁⟩
          · cases h₁
          · cases h₁
          · omega
        rw [if_neg (by decide)] at hraise ⊢
        cases hlr with
        | leaf hlabel => exact hlr'.elim
        | @node mo tagm km ml mr tml tmr bm hmlabel hml hmr =>
          obtain ⟨_, _, hbm⟩ := balanced_node_iff.1 hballr
          obtain ⟨t₁, hdouble, heq⟩ := Option.map_eq_some_iff.1 hraise
          cases heq
          rw [height_node] at hlow
          obtain ⟨x, root, hrun, hroot⟩ := doubleRotateRight_spec height b hr hll
            hml hmr hbm (by omega) hlow.2 hlr' hdouble
          simp only [hrun]
          rw [if_pos (by decide)]
          exact ⟨_, _, rfl, hroot⟩
  · rw [if_neg hrot] at hraise ⊢
    obtain ⟨t₁, up₁, hraise', hreb, _⟩ := raiseLeft_spec k hball hbalr hb hheight
      (fun hup => (hsprout hup).grown)
    unfold raiseLeft at hraise'
    rw [if_neg hrot] at hraise'
    cases hraise
    cases hraise'
    have hb' := (balanced_node_iff.1 hreb.balanced).2.2
    simp only [hl.checkHeight hr hb', if_true]
    exact ⟨_, _, rfl, hl.fresh hr k _⟩

/-- A root above its changed right child. -/
theorem afterRight_spec (labelOpt : Option Digest) (height : ℕ) {h : ℕ} {k : ADKey}
    {left : ProverNodes} (right : ProverNodes) {b : Balance} {m : Modified}
    (hm : m.changeHappened = true)
    (hl : left.Shows hf tl) (hr : m.root.Shows hf tr) (hball : tl.Balanced) (hbalr : tr.Balanced)
    (hb : Tilt b tl.height h) (hheight : tr.height = h + m.childHeightIncreased.toNat)
    (hsprout : m.childHeightIncreased = true → tr.Sprout) {t' : Tree} {up : Bool}
    (hraise : raiseRight k tl tr b m.childHeightIncreased = some (t', up)) :
    ∃ x root, afterRight labelOpt height k left right b m = (x, .ok ⟨root, true, up, m.proof⟩)
      ∧ root.Shows hf t' := by
  obtain ⟨root, changed, higher, proof⟩ := m
  subst hm
  unfold afterRight
  unfold raiseRight at hraise
  simp only [if_true]
  by_cases hrot : (higher && decide (b > 0)) = true
  · rw [if_pos hrot] at hraise ⊢
    obtain ⟨rfl, hpos⟩ := (Bool.and_eq_true _ _).mp hrot
    have htall : tr.height = tl.height + 2 := by
      rcases hb with ⟨rfl, _⟩ | ⟨rfl, _⟩ | ⟨_, hh⟩
      · exact absurd hpos (by decide)
      · exact absurd hpos (by decide)
      · exact hheight.trans (by rw [hh]; rfl)
    cases hr with
    | leaf hlabel => exact absurd htall (by rw [height_leaf]; omega)
    | @node lo tag kr rl rr trl trr br hlabel hrl hrr =>
      obtain ⟨hbalrl, hbalrr, hbr⟩ := balanced_node_iff.1 hbalr
      rw [height_node] at htall
      simp only at hraise ⊢
      rcases hsprout rfl with ⟨rfl, hleaf, hleaf'⟩ | ⟨rfl, hrl'⟩ | ⟨rfl, _⟩
      · have := height_of_isLeaf hleaf
        have := height_of_isLeaf hleaf'
        omega
      · have hlow : trl.height = tl.height + 1 ∧ trr.height = tl.height := by
          rcases hbr with ⟨_, h₁⟩ | ⟨h₁, _⟩ | ⟨h₁, _⟩
          · omega
          · cases h₁
          · cases h₁
        rw [if_neg (by decide)] at hraise ⊢
        cases hrl with
        | leaf hlabel => exact hrl'.elim
        | @node mo tagm km ml mr tml tmr bm hmlabel hml hmr =>
          obtain ⟨_, _, hbm⟩ := balanced_node_iff.1 hbalrl
          obtain ⟨t₁, hdouble, heq⟩ := Option.map_eq_some_iff.1 hraise
          cases heq
          rw [height_node] at hlow
          obtain ⟨x, root, hrun, hroot⟩ := doubleRotateLeft_spec height b hl hrr
            hml hmr hbm (by omega) hlow.2 hrl' hdouble
          simp only [hrun]
          rw [if_pos (by decide)]
          exact ⟨_, _, rfl, hroot⟩
      · have hlow : trl.height = tl.height ∧ trr.height = tl.height + 1 := by
          rcases hbr with ⟨h₁, _⟩ | ⟨h₁, _⟩ | ⟨_, h₁⟩
          · cases h₁
          · cases h₁
          · omega
        cases hraise
        have hx := hl.fresh hrl k 0
        have h₁ : Tilt 0 tl.height trl.height := .inr (.inl ⟨rfl, hlow.1.symm⟩)
        have h₂ : Tilt 0 (LeafTree.node none k tl trl 0 : Tree).height trr.height := by
          refine .inr (.inl ⟨rfl, ?_⟩)
          rw [height_node]
          omega
        rw [if_pos (by decide), if_pos (by rw [hl.checkHeight hrl h₁, hx.checkHeight hrr h₂]; rfl)]
        exact ⟨_, _, rfl, hx.fresh hrr kr 0⟩
  · rw [if_neg hrot] at hraise ⊢
    obtain ⟨t₁, up₁, hraise', hreb, _⟩ := raiseRight_spec k hball hbalr hb hheight
      (fun hup => (hsprout hup).grown)
    unfold raiseRight at hraise'
    rw [if_neg hrot] at hraise'
    cases hraise
    cases hraise'
    have hb' := (balanced_node_iff.1 hreb.balanced).2.2
    simp only [hl.checkHeight hr hb', if_true]
    exact ⟨_, _, rfl, hl.fresh hr k _⟩

/-- A root above a left child that was not changed. -/
theorem afterLeft_unchanged {labelOpt : Option Digest} (height : ℕ) {tag : Option Ref} {k : ADKey}
    {b : Balance} {m : Modified} (hm : m.changeHappened = false) (hl : l.Shows hf tl)
    (hr : r.Shows hf tr) (hb : Tilt b tl.height tr.height)
    (hlabel : ∀ d ∈ labelOpt, d = treeLabel hf (.node tag k tl tr b)) :
    ∃ x, afterLeft labelOpt height k l r b m = (x, .ok ⟨x, false, false, m.proof⟩)
      ∧ x.Shows hf (.node tag k tl tr b) := by
  unfold afterLeft
  simp only [hm, Bool.false_eq_true, if_false, hl.checkHeight hr hb, if_true]
  exact ⟨_, rfl, hl.checked hr hlabel⟩

/-- A root above a right child that was not changed. -/
theorem afterRight_unchanged {labelOpt : Option Digest} (height : ℕ) {tag : Option Ref} {k : ADKey}
    {b : Balance} {m : Modified} (hm : m.changeHappened = false) (hl : l.Shows hf tl)
    (hr : r.Shows hf tr) (hb : Tilt b tl.height tr.height)
    (hlabel : ∀ d ∈ labelOpt, d = treeLabel hf (.node tag k tl tr b)) :
    ∃ x, afterRight labelOpt height k l r b m = (x, .ok ⟨x, false, false, m.proof⟩)
      ∧ x.Shows hf (.node tag k tl tr b) := by
  unfold afterRight
  simp only [hm, Bool.false_eq_true, if_false, hl.checkHeight hr hb, if_true]
  exact ⟨_, rfl, hl.checked hr hlabel⟩

end

/-! ## The walk -/

/-- What an operation does to the leaf that has, or lacks, its key. -/
def leafChange (P : TreeParams) (operation : Operation) (old : Option ADValue) :
    Except RunError (Action ADKey ADValue) :=
  match operation.updateFn with
  | none => .ok .keep
  | some updateFn =>
      match updateFn old with
      | .error e => .error (.update e)
      | .ok none => if old.isSome then .error .notImplemented else .ok .keep
      | .ok (some v) =>
          if v.length = P.valueLength then
            .ok (if old.isSome then .update v else .insert operation.key v)
          else .error .wrongValueLength

/-- The elements for a leaf. -/
def leafElements (found : Bool) (k : ADKey) (v : ADValue) (n : ADKey) : List AVLProofElement :=
  if found then [.proofDirection .leafFound, .proofNextLeafKey n, .proofValue v]
  else [.proofDirection .leafNotFound, .proofKey k, .proofNextLeafKey n, .proofValue v]

/-- The elements start with those of a way through the tree, and of the leaf at its end. -/
inductive Follows (hf : CryptographicHash) (found : Bool) :
    List AVLProofElement → Tree → List Bool → Prop
  | leaf {tag : Option Ref} {k n : ADKey} {v : ADValue} {rest : List AVLProofElement} :
      Follows hf found (leafElements found k v n ++ rest) (.leaf tag k v n) []
  | left {e : AVLProofElement} {tag : Option Ref} {k : ADKey} {l r : Tree} {b : Balance}
      {elements : List AVLProofElement} {path : List Bool} (he : e.balance? = some b)
      (h : Follows hf found elements l path) :
      Follows hf found
        (.proofDirection .goingLeft :: .proofRightLabel (treeLabel hf r) :: e :: elements)
        (.node tag k l r b) (true :: path)
  | right {e : AVLProofElement} {tag : Option Ref} {k : ADKey} {l r : Tree} {b : Balance}
      {elements : List AVLProofElement} {path : List Bool} (he : e.balance? = some b)
      (h : Follows hf found elements r path) :
      Follows hf found
        (.proofDirection .goingRight :: .proofLeftLabel (treeLabel hf l) :: e :: elements)
        (.node tag k l r b) (false :: path)

section

variable {P : TreeParams} {operation : Operation} {n : ProverNodes} {t : Tree}

/-- At a leaf, `modifyHelper` does what the operation says. -/
theorem modifyLeaf_spec (operation : Operation) {labelOpt : Option Digest} {tag : Option Ref}
    {k nk : ADKey} {v : ADValue}
    {found : Bool} {old : Option ADValue} (hold : old = if found then some v else none)
    (h : (ProverNodes.leaf labelOpt k v nk).Shows P.hf (.leaf tag k v nk)) :
    (∀ e, leafChange P operation old = .error e →
      modifyLeaf P operation labelOpt k v nk found = (.leaf labelOpt k v nk, .error e))
    ∧ ∀ act, leafChange P operation old = .ok act → ∀ t' changed up,
      modifyAt (LeafTree.leaf tag k v nk : Tree) [] act = some (t', changed, up) →
      ∃ x root, modifyLeaf P operation labelOpt k v nk found
          = (x, .ok ⟨root, changed, up, leafElements found k v nk⟩)
        ∧ root.Shows P.hf t' ∧ (changed = false → x.Shows P.hf (.leaf tag k v nk)) := by
  subst hold
  have hnew : ∀ (k n : ADKey) (v : ADValue),
      (ProverNodes.leaf none k v n).Shows P.hf (.leaf none k v n) :=
    fun k n v => .leaf fun d hd => by cases hd
  unfold modifyLeaf leafChange leafElements
  cases operation.updateFn with
  | none =>
    refine ⟨fun e he => (by cases he), fun act hact t' changed up hmod => ?_⟩
    cases hact
    cases hmod
    cases found with
    | true => exact ⟨_, _, rfl, h, fun _ => h⟩
    | false => exact ⟨_, _, rfl, h, fun _ => h⟩
  | some updateFn =>
    cases found with
    | true =>
      simp only [if_true, Option.isSome_some]
      cases updateFn (some v) with
      | error e₁ => exact ⟨fun e he => by cases he; rfl, fun act hact => by cases hact⟩
      | ok new =>
        cases new with
        | none => exact ⟨fun e he => by cases he; rfl, fun act hact => by cases hact⟩
        | some w =>
          simp only
          split
          · refine ⟨fun e he => (by cases he), fun act hact t' changed up hmod => ?_⟩
            cases hact
            cases hmod
            exact ⟨_, _, rfl, hnew k nk w, fun hc => by cases hc⟩
          · exact ⟨fun e he => by cases he; rfl, fun act hact => by cases hact⟩
    | false =>
      simp only [Bool.false_eq_true, if_false, Option.isSome_none]
      cases updateFn none with
      | error e₁ => exact ⟨fun e he => by cases he; rfl, fun act hact => by cases hact⟩
      | ok new =>
        cases new with
        | none =>
          refine ⟨fun e he => (by cases he), fun act hact t' changed up hmod => ?_⟩
          cases hact
          cases hmod
          exact ⟨_, _, rfl, h, fun _ => h⟩
        | some w =>
          simp only
          split
          · refine ⟨fun e he => (by cases he), fun act hact t' changed up hmod => ?_⟩
            cases hact
            cases hmod
            refine ⟨_, _, rfl, ?_, fun hc => by cases hc⟩
            exact .node (fun d hd => by cases hd) (hnew k operation.key v)
              (hnew operation.key nk w)
          · exact ⟨fun e he => by cases he; rfl, fun act hact => by cases hact⟩

/-- The walk follows the search path. -/
theorem nextStep_spec {τ D V : Type} (key : ADKey) (found : Bool) (tag : Option τ) (k : ADKey)
    (l r : LeafTree τ D ADKey V) (b : Balance) :
    searchPath key found (.node tag k l r b)
        = (nextStep key found k).1 :: searchPath key (nextStep key found k).2
            (if (nextStep key found k).1 then l else r)
      ∧ (found || meets key (.node tag k l r b))
        = ((nextStep key found k).2
            || meets key (if (nextStep key found k).1 then l else r)) := by
  cases found with
  | true => exact ⟨rfl, rfl⟩
  | false =>
    unfold nextStep
    rw [searchPath, meets]
    simp only [Bool.false_eq_true, if_false, Bool.false_or]
    rcases lt_trichotomy key k with h | h | h
    · rw [compare_lt_iff_lt.2 h, if_pos h, if_pos h]
      exact ⟨rfl, (Bool.false_or _).symm⟩
    · rw [compare_eq_iff_eq.2 h, if_neg h.not_lt, if_neg h.not_lt, if_pos h, if_pos h]
      exact ⟨rfl, rfl⟩
    · rw [compare_gt_iff_gt.2 h, if_neg h.not_gt, if_neg h.not_gt, if_neg h.ne', if_neg h.ne']
      exact ⟨rfl, (Bool.false_or _).symm⟩

theorem proofBalance_ok {b : Balance} {hl hr : ℕ} (hb : Tilt b hl hr) :
    ∃ e, proofBalance b = .ok e ∧ e.balance? = some b := by
  have hvalid : b = -1 ∨ b = 0 ∨ b = 1 := by
    rcases hb with ⟨h, _⟩ | ⟨h, _⟩ | ⟨h, _⟩
    · exact .inl h
    · exact .inr (.inl h)
    · exact .inr (.inr h)
  refine ⟨.proofBalance b hvalid, dif_pos hvalid, ?_⟩
  rcases hvalid with rfl | rfl | rfl
  · rfl
  · rfl
  · rfl

/-- **A change of the legacy tree** is the change of the tree that it stands for, along the
search path. -/
theorem modifyHelper_spec (h : n.Shows P.hf t) (hbal : t.Balanced) {found : Bool} {k nk : ADKey}
    {v : ADValue} (hleaf : leafAt t (searchPath operation.key found t) = some (k, v, nk))
    {old : Option ADValue} (hold : old = if found || meets operation.key t then some v else none) :
    (∀ e, leafChange P operation old = .error e →
      ∃ x, modifyHelper P operation n found = (x, .error e) ∧ x.Shows P.hf t)
    ∧ ∀ act, leafChange P operation old = .ok act → ∀ t' changed up,
      modifyAt t (searchPath operation.key found t) act = some (t', changed, up) →
      ∃ x root proof, modifyHelper P operation n found
          = (x, .ok ⟨root, changed, up, proof⟩)
        ∧ root.Shows P.hf t' ∧ (changed = false → x.Shows P.hf t)
        ∧ Follows P.hf (found || meets operation.key t) proof t
            (searchPath operation.key found t) := by
  induction h generalizing found with
  | @leaf labelOpt tag k' nk' v' hlabel =>
    have hpath : searchPath operation.key found (.leaf tag k' v' nk' : Tree) = [] := by
      cases found <;> rfl
    rw [hpath] at hleaf ⊢
    cases hleaf
    have hmeets : (found || meets operation.key (.leaf tag k v nk : Tree)) = found :=
      Bool.or_false found
    rw [hmeets] at hold ⊢
    obtain ⟨herr, hok⟩ := modifyLeaf_spec operation hold (.leaf hlabel)
    refine ⟨fun e he => ⟨_, herr e he, .leaf hlabel⟩, fun act hact t' changed up hmod => ?_⟩
    obtain ⟨x, root, hrun, hroot, hx⟩ := hok act hact t' changed up hmod
    refine ⟨x, root, _, hrun, hroot, hx, ?_⟩
    rw [← List.append_nil (leafElements found k v nk)]
    exact .leaf
  | @node labelOpt tag k' l r tl tr b hlabel hl hr ihl ihr =>
    obtain ⟨hball, hbalr, hb⟩ := balanced_node_iff.1 hbal
    obtain ⟨hpath, hmeets⟩ := nextStep_spec operation.key found tag k' tl tr b
    obtain ⟨element, hbalance, he⟩ := proofBalance_ok hb
    rw [hpath] at hleaf ⊢
    rw [hmeets] at hold ⊢
    rw [modifyHelper]
    simp only [hbalance]
    set step := nextStep operation.key found k' with hstep
    obtain ⟨left, found'⟩ := step
    cases left with
    | true =>
      simp only [if_true] at hleaf hold ⊢
      obtain ⟨herr, hok⟩ := ihl hball hleaf hold
      obtain ⟨hlab, hr'⟩ := ProverNodes.label_spec hr
      refine ⟨fun e hchange => ?_, fun act hact t' changed up hmod => ?_⟩
      · obtain ⟨x, hrun, hx⟩ := herr e hchange
        rw [hrun]
        exact ⟨_, rfl, .node hlabel hx hr'⟩
      · obtain ⟨tl', up', hmodl, hroot⟩ := modifyAt_left hmod
        obtain ⟨x, root, proof, hrun, hshow, hkeep, hfollows⟩ := hok act hact _ _ _ hmodl
        have hfollows' : Follows P.hf _ _ (.node tag k' tl tr b) (true :: _) := .left he hfollows
        rw [← hlab] at hfollows'
        rw [hrun]
        cases changed with
        | true =>
          obtain ⟨hball', hheight⟩ := modifyAt_balanced hball hmodl
          obtain ⟨y, root', hafter, hshow'⟩ := afterLeft_spec labelOpt
            (max tl.height tr.height + 1) x (m := ⟨root, true, up', _⟩) rfl
            hshow hr' hball' hbalr hb hheight
            (fun hup => by cases (hup : up' = true); exact modifyAt_sprout hmodl) hroot
          exact ⟨y, root', _, hafter, hshow', (by intro hc; cases hc), hfollows'⟩
        | false =>
          obtain ⟨rfl, rfl⟩ := hroot
          obtain ⟨y, hafter, hy⟩ := afterLeft_unchanged
            (max tl.height tr.height + 1) (m := ⟨root, false, up', _⟩) rfl (hkeep rfl)
            hr' hb hlabel
          exact ⟨y, y, _, hafter, hy, fun _ => hy, hfollows'⟩
    | false =>
      simp only [Bool.false_eq_true, if_false] at hleaf hold ⊢
      obtain ⟨herr, hok⟩ := ihr hbalr hleaf hold
      obtain ⟨hlab, hl'⟩ := ProverNodes.label_spec hl
      refine ⟨fun e hchange => ?_, fun act hact t' changed up hmod => ?_⟩
      · obtain ⟨x, hrun, hx⟩ := herr e hchange
        rw [hrun]
        exact ⟨_, rfl, .node hlabel hl' hx⟩
      · obtain ⟨tr', up', hmodr, hroot⟩ := modifyAt_right hmod
        obtain ⟨x, root, proof, hrun, hshow, hkeep, hfollows⟩ := hok act hact _ _ _ hmodr
        have hfollows' : Follows P.hf _ _ (.node tag k' tl tr b) (false :: _) := .right he hfollows
        rw [← hlab] at hfollows'
        rw [hrun]
        cases changed with
        | true =>
          obtain ⟨hbalr', hheight⟩ := modifyAt_balanced hbalr hmodr
          obtain ⟨y, root', hafter, hshow'⟩ := afterRight_spec labelOpt
            (max tl.height tr.height + 1) x (m := ⟨root, true, up', _⟩) rfl
            hl' hshow hball hbalr' hb hheight
            (fun hup => by cases (hup : up' = true); exact modifyAt_sprout hmodr) hroot
          exact ⟨y, root', _, hafter, hshow', (by intro hc; cases hc), hfollows'⟩
        | false =>
          obtain ⟨rfl, rfl⟩ := hroot
          obtain ⟨y, hafter, hy⟩ := afterRight_unchanged
            (max tl.height tr.height + 1) (m := ⟨root, false, up', _⟩) rfl hl'
            (hkeep rfl) hb hlabel
          exact ⟨y, y, _, hafter, hy, fun _ => hy, hfollows'⟩

end

end Sparkz.Legacy
