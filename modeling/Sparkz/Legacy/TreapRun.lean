import Sparkz.Legacy.Treap

/-!
# Runs of the legacy treap

* `ProverNodes.tree` — the tree of a treap, without what its nodes have cached; `Cached` —
  what they have cached is right.
* `modifyHelper_spec` — a change of a treap is the change of its tree.
* `Treap.Stands`, `Treap.run_spec` — what an operation does, for a treap whose tree is a
  chain from one infinity to the other.
* `Event`, `Treap.stands_run` — runs of a treap that starts empty.
-/

namespace Sparkz.Legacy.Treaps

open Sparkz.Lib Sparkz.Lib.LeafTree Sparkz.Avl

/-- The tree of a treap: there are no tags and no stubs. -/
abbrev TreapTree := LeafTree Empty Empty ADKey ADValue

/-- The tree of a node. -/
def ProverNodes.tree : ProverNodes → TreapTree
  | leaf _ key value nextLeafKey => .leaf none key value nextLeafKey
  | proverNode _ key left right => .node none key (tree left) (tree right) 0

section

variable {L : Type} [OrderedLevel L] (hf : CryptographicHash) (levelFunc : ADKey → L)

/-- The label of a tree. -/
def labelOf : TreapTree → Digest
  | .stub d => d.elim
  | .leaf _ k v n => leafLabel hf k v n
  | .node _ k l r _ => internalLabel hf (levelFunc k) (labelOf l) (labelOf r)

/-- Each cached label is the label of its tree. -/
def ProverNodes.Cached : ProverNodes → Prop
  | leaf labelOpt key value nextLeafKey => ∀ d ∈ labelOpt, d = leafLabel hf key value nextLeafKey
  | proverNode labelOpt key left right => Cached left ∧ Cached right
      ∧ ∀ d ∈ labelOpt, d = labelOf hf levelFunc (proverNode labelOpt key left right).tree

/-- The order of two keys by their levels. -/
def levelOrder (j k : ADKey) : Ordering := OrderedLevel.compare (levelFunc j) (levelFunc k)

/-- What an operation does to the leaf that has, or lacks, its key. -/
def leafChange (operation : Operation) (old : Option ADValue) :
    Except TreapError (Action ADKey ADValue) :=
  match updateFn operation old with
  | .error e => .error (.update e)
  | .ok none => .error .notImplemented
  | .ok (some v) => .ok (if old.isSome then .update v else .insert operation.key v)

/-- The elements for a leaf. -/
def leafElements (found : Bool) (k : ADKey) (v : ADValue) (n : ADKey) : List (WTProofElement L) :=
  if found then [.proofDirection .leafFound, .proofNextLeafKey n, .proofValue v]
  else [.proofDirection .leafNotFound, .proofKey k, .proofNextLeafKey n, .proofValue v]

/-- The elements for a way through a tree. -/
def pathElements (found : Bool) : TreapTree → List Bool → List (WTProofElement L)
  | .leaf _ k v n, _ => leafElements found k v n
  | .node _ k l r _, true :: path =>
      [.proofDirection .goingLeft, .proofRightLabel (labelOf hf levelFunc r),
        .proofLevel (levelFunc k)] ++ pathElements found l path
  | .node _ k l r _, false :: path =>
      [.proofDirection .goingRight, .proofLeftLabel (labelOf hf levelFunc l),
        .proofLevel (levelFunc k)] ++ pathElements found r path
  | _, _ => []

variable {hf levelFunc} {n left right : ProverNodes} {operation : Operation}

/-- The label of a node is that of its tree; caching it changes no tree. -/
theorem ProverNodes.label_spec (h : n.Cached hf levelFunc) :
    (n.label hf levelFunc).1 = labelOf hf levelFunc n.tree
      ∧ (n.label hf levelFunc).2.Cached hf levelFunc
      ∧ (n.label hf levelFunc).2.tree = n.tree := by
  induction n with
  | leaf labelOpt key value nextLeafKey =>
    cases labelOpt with
    | none => exact ⟨rfl, fun d hd => Option.some.inj hd.symm, rfl⟩
    | some d => exact ⟨h d rfl, h, rfl⟩
  | proverNode labelOpt key left right ihl ihr =>
    cases labelOpt with
    | none =>
      obtain ⟨hl, hlc, hlt⟩ := ihl h.1
      obtain ⟨hr, hrc, hrt⟩ := ihr h.2.1
      have hlabel : internalLabel hf (levelFunc key) (left.label hf levelFunc).1
          (right.label hf levelFunc).1
            = labelOf hf levelFunc (proverNode none key left right).tree := by
        rw [hl, hr]
        rfl
      have htree : (proverNode (some (internalLabel hf (levelFunc key)
            (left.label hf levelFunc).1 (right.label hf levelFunc).1)) key
            (left.label hf levelFunc).2 (right.label hf levelFunc).2).tree
          = (proverNode none key left right).tree := by
        rw [tree, tree, hlt, hrt]
      refine ⟨hlabel, ⟨hlc, hrc, fun d hd => ?_⟩, htree⟩
      rw [htree, ← hlabel]
      exact Option.some.inj hd.symm
    | some d => exact ⟨h.2.2 d rfl, h, rfl⟩

/-- A node whose label is not cached. -/
theorem ProverNodes.Cached.fresh (hl : left.Cached hf levelFunc) (hr : right.Cached hf levelFunc)
    (key : ADKey) : (proverNode none key left right).Cached hf levelFunc :=
  ⟨hl, hr, fun d hd => by cases hd⟩

/-! ## A change of a treap -/

theorem afterLeft_spec {m : Modified L} (labelOpt : Option Digest) (key : ADKey)
    (left : ProverNodes) (hm : m.changeHappened = true) (hroot : m.root.Cached hf levelFunc)
    (hr : right.Cached hf levelFunc) :
    ∃ x root, afterLeft levelFunc labelOpt key left right m = (x, .ok ⟨root, true, m.proof⟩)
      ∧ root.Cached hf levelFunc
      ∧ root.tree = liftLeft (levelOrder levelFunc) key m.root.tree right.tree := by
  obtain ⟨root, changed, proof⟩ := m
  subst hm
  unfold afterLeft
  simp only [if_true]
  cases root with
  | leaf lo k v nk => exact ⟨_, _, rfl, hroot.fresh hr key, rfl⟩
  | proverNode lo lKey lLeft lRight =>
    rw [ProverNodes.tree, liftLeft, levelOrder]
    simp only
    split_ifs with hge
    · exact ⟨_, _, rfl, hroot.1.fresh (hroot.2.1.fresh hr key) lKey, rfl⟩
    · exact ⟨_, _, rfl, hroot.fresh hr key, rfl⟩

theorem afterRight_spec {m : Modified L} (labelOpt : Option Digest) (key : ADKey)
    (right : ProverNodes) (hm : m.changeHappened = true) (hroot : m.root.Cached hf levelFunc)
    (hl : left.Cached hf levelFunc) :
    ∃ x root, afterRight levelFunc labelOpt key left right m = (x, .ok ⟨root, true, m.proof⟩)
      ∧ root.Cached hf levelFunc
      ∧ root.tree = liftRight (levelOrder levelFunc) key left.tree m.root.tree := by
  obtain ⟨root, changed, proof⟩ := m
  subst hm
  unfold afterRight
  simp only [if_true]
  cases root with
  | leaf lo k v nk => exact ⟨_, _, rfl, hl.fresh hroot key, rfl⟩
  | proverNode lo rKey rLeft rRight =>
    rw [ProverNodes.tree, liftRight, levelOrder]
    simp only
    split_ifs with hgt
    · exact ⟨_, _, rfl, (hl.fresh hroot.1 key).fresh hroot.2.1 rKey, rfl⟩
    · exact ⟨_, _, rfl, hl.fresh hroot key, rfl⟩

variable (hf levelFunc) in
/-- The leaf at the end of the walk. -/
theorem modifyLeaf_spec (operation : Operation) (labelOpt : Option Digest) (k nk : ADKey)
    (v : ADValue) {found : Bool} {old : Option ADValue}
    (hold : old = if found then some v else none) :
    match leafChange operation old with
    | .error e => modifyLeaf (L := L) operation labelOpt k v nk found
        = (.leaf labelOpt k v nk, .error e)
    | .ok act => ∃ x root, modifyLeaf (L := L) operation labelOpt k v nk found
          = (x, .ok ⟨root, true, leafElements found k v nk⟩)
        ∧ root.Cached hf levelFunc
        ∧ changeAt (levelOrder levelFunc) (ProverNodes.leaf labelOpt k v nk).tree [] act
          = some root.tree := by
  subst hold
  unfold modifyLeaf leafChange leafElements
  cases found with
  | true =>
    simp only [if_true, Option.isSome_some]
    cases updateFn operation (some v) with
    | error e => rfl
    | ok new =>
      cases new with
      | none => rfl
      | some w => exact ⟨_, _, rfl, (fun d hd => by cases hd), rfl⟩
  | false =>
    simp only [Bool.false_eq_true, if_false, Option.isSome_none]
    cases updateFn operation none with
    | error e => rfl
    | ok new =>
      cases new with
      | none => rfl
      | some w =>
        have hleft : (ProverNodes.leaf none k v operation.key).Cached hf levelFunc :=
          fun d hd => by cases hd
        have hright : (ProverNodes.leaf none operation.key w nk).Cached hf levelFunc :=
          fun d hd => by cases hd
        exact ⟨_, _, rfl, hleft.fresh hright operation.key, rfl⟩

variable (operation) in
/-- **A change of a treap** is the change of its tree, along the search path. -/
theorem modifyHelper_spec (h : n.Cached hf levelFunc) {found : Bool} {k nk : ADKey} {v : ADValue}
    (hleaf : leafAt n.tree (searchPath operation.key found n.tree) = some (k, v, nk))
    {old : Option ADValue}
    (hold : old = if found || meets operation.key n.tree then some v else none) :
    match leafChange operation old with
    | .error e => ∃ x, modifyHelper hf levelFunc operation n found = (x, .error e)
        ∧ x.Cached hf levelFunc ∧ x.tree = n.tree
    | .ok act => ∃ x root, modifyHelper hf levelFunc operation n found
          = (x, .ok ⟨root, true, pathElements hf levelFunc (found || meets operation.key n.tree)
              n.tree (searchPath operation.key found n.tree)⟩)
        ∧ root.Cached hf levelFunc
        ∧ changeAt (levelOrder levelFunc) n.tree (searchPath operation.key found n.tree) act
          = some root.tree := by
  induction n generalizing found with
  | leaf labelOpt k' v' nk' =>
    have hpath :
        searchPath operation.key found (ProverNodes.leaf labelOpt k' v' nk').tree = [] := by
      cases found <;> rfl
    have hmeets : (found || meets operation.key (ProverNodes.leaf labelOpt k' v' nk').tree)
        = found := Bool.or_false found
    rw [hpath] at hleaf ⊢
    rw [hmeets] at hold ⊢
    cases hleaf
    have hspec := modifyLeaf_spec hf levelFunc operation labelOpt k nk v hold
    cases hchange : leafChange operation old with
    | error e =>
      rw [hchange] at hspec
      exact ⟨_, hspec, h, rfl⟩
    | ok act =>
      rw [hchange] at hspec
      exact hspec
  | proverNode labelOpt key left right ihl ihr =>
    obtain ⟨hpath, hmeets⟩ := nextStep_spec operation.key found none key left.tree right.tree 0
    rw [ProverNodes.tree] at hleaf hold ⊢
    rw [hpath] at hleaf ⊢
    rw [hmeets] at hold ⊢
    rw [modifyHelper]
    set step := nextStep operation.key found key with hstep
    obtain ⟨isLeft, found'⟩ := step
    cases isLeft with
    | true =>
      simp only [if_true] at hleaf hold ⊢
      have hchild := ihl h.1 hleaf hold
      obtain ⟨hlabel, hcached, htree⟩ := ProverNodes.label_spec h.2.1
      cases hchange : leafChange operation old with
      | error e =>
        rw [hchange] at hchild
        obtain ⟨x, hrun, hx, hxt⟩ := hchild
        rw [hrun]
        refine ⟨_, rfl, ⟨hx, hcached, fun d hd => ?_⟩, ?_⟩
        · rw [h.2.2 d hd, ProverNodes.tree, ProverNodes.tree, hxt, htree]
        · rw [ProverNodes.tree, hxt, htree]
      | ok act =>
        rw [hchange] at hchild
        obtain ⟨x, root, hrun, hroot, hmod⟩ := hchild
        rw [hrun]
        obtain ⟨y, root', hafter, hroot', htree'⟩ := afterLeft_spec labelOpt key x
          (show (⟨root, true, _⟩ : Modified L).changeHappened = true from rfl) hroot hcached
        refine ⟨y, root', hlabel ▸ hafter, hroot', ?_⟩
        rw [changeAt, hmod, Option.map_some, htree', htree]
    | false =>
      simp only [Bool.false_eq_true, if_false] at hleaf hold ⊢
      have hchild := ihr h.2.1 hleaf hold
      obtain ⟨hlabel, hcached, htree⟩ := ProverNodes.label_spec h.1
      cases hchange : leafChange operation old with
      | error e =>
        rw [hchange] at hchild
        obtain ⟨x, hrun, hx, hxt⟩ := hchild
        rw [hrun]
        refine ⟨_, rfl, ⟨hcached, hx, fun d hd => ?_⟩, ?_⟩
        · rw [h.2.2 d hd, ProverNodes.tree, ProverNodes.tree, hxt, htree]
        · rw [ProverNodes.tree, hxt, htree]
      | ok act =>
        rw [hchange] at hchild
        obtain ⟨x, root, hrun, hroot, hmod⟩ := hchild
        rw [hrun]
        obtain ⟨y, root', hafter, hroot', htree'⟩ := afterRight_spec labelOpt key x
          (show (⟨root, true, _⟩ : Modified L).changeHappened = true from rfl) hroot hcached
        refine ⟨y, root', hlabel ▸ hafter, hroot', ?_⟩
        rw [changeAt, hmod, Option.map_some, htree', htree]

end

/-! ## Operations -/

/-- The keys that operations may have. -/
def InRange (key : ADKey) : Prop := negativeInfinity < key ∧ key < positiveInfinity

instance (key : ADKey) : Decidable (InRange key) := inferInstanceAs (Decidable (_ ∧ _))

/-- The first bytes decide. -/
theorem negativeInfinity_lt_positiveInfinity : negativeInfinity < positiveInfinity := by
  have hrank : negativeInfinity.rank < positiveInfinity.rank := by
    rw [ADKey.rank, ADKey.rank, positiveInfinity, List.replicate_succ]
    exact List.Lex.rel (by decide)
  exact hrank

namespace Treap

section

variable {L : Type} [OrderedLevel L] (hf : CryptographicHash) (levelFunc : ADKey → L)

/-- The labels that are cached are right, and the leaves cover the keys from one infinity to
the other. -/
structure Stands (treap : Treap) : Prop where
  cached : treap.topNode.Cached hf levelFunc
  chain : Chain negativeInfinity positiveInfinity treap.topNode.tree

theorem new_stands : (new none).Stands hf levelFunc where
  cached := fun d hd => by cases hd
  chain := ⟨rfl, rfl, negativeInfinity_lt_positiveInfinity⟩

variable {hf levelFunc} {treap : Treap} {operation : Operation}

theorem rootHash_spec (h : treap.Stands hf levelFunc) :
    (treap.rootHash hf levelFunc).1 = labelOf hf levelFunc treap.topNode.tree
      ∧ (treap.rootHash hf levelFunc).2.Stands hf levelFunc
      ∧ (treap.rootHash hf levelFunc).2.topNode.tree = treap.topNode.tree := by
  obtain ⟨hlabel, hcached, htree⟩ := ProverNodes.label_spec h.cached
  exact ⟨hlabel, ⟨hcached, htree.symm ▸ h.chain⟩, htree⟩

theorem run_outOfRange (hkey : ¬ InRange operation.key) (treap : Treap) :
    treap.run hf levelFunc operation = (.error .requirementFailed, treap) := by
  rw [run]
  by_cases hlo : operation.key > negativeInfinity
  · rw [if_neg (not_not.2 hlo), if_pos fun hhi => hkey ⟨hlo, hhi⟩]
  · rw [if_pos hlo]

theorem run_inRange (hkey : InRange operation.key) (treap : Treap) :
    treap.run hf levelFunc operation
      = match (modifyHelper hf levelFunc operation treap.topNode false).2 with
        | .error e => (.error e, ⟨(modifyHelper hf levelFunc operation treap.topNode false).1⟩)
        | .ok m => (.ok ⟨operation.key, m.proof⟩, ⟨if m.changeHappened then m.root
            else (modifyHelper hf levelFunc operation treap.topNode false).1⟩) := by
  rw [run]
  exact (if_neg (not_not.2 hkey.1)).trans (if_neg (not_not.2 hkey.2))

/-- What a change leaves is a value for the key that its leaf had, or lacked. -/
theorem action_of_change {old : Option ADValue} {act : Action ADKey ADValue}
    (h : leafChange operation old = .ok act) :
    ∃ v, updateFn operation old = .ok (some v)
      ∧ act = if old.isSome then .update v else .insert operation.key v := by
  unfold leafChange at h
  cases hnew : updateFn operation old with
  | error e => rw [hnew] at h; cases h
  | ok new =>
    rw [hnew] at h
    cases new with
    | none => cases h
    | some v =>
      cases h
      exact ⟨v, rfl, rfl⟩

variable (operation) in
/-- **An operation of a treap**: where it is refused, the tree stays as it is; where it is
not, the value of its key changes, and the proof tells the search path. -/
theorem run_spec (h : treap.Stands hf levelFunc) (hkey : InRange operation.key) :
    match leafChange operation (treap.topNode.tree.get operation.key) with
    | .error e => ∃ treap', treap.run hf levelFunc operation = (.error e, treap')
        ∧ treap'.Stands hf levelFunc ∧ treap'.topNode.tree = treap.topNode.tree
    | .ok act => ∃ treap', treap.run hf levelFunc operation
          = (.ok ⟨operation.key, pathElements hf levelFunc (meets operation.key treap.topNode.tree)
              treap.topNode.tree (searchPath operation.key false treap.topNode.tree)⟩, treap')
        ∧ treap'.Stands hf levelFunc
        ∧ changeAt (levelOrder levelFunc) treap.topNode.tree
            (searchPath operation.key false treap.topNode.tree) act = some treap'.topNode.tree
        ∧ ∃ v, updateFn operation (treap.topNode.tree.get operation.key) = .ok (some v)
          ∧ treap'.topNode.tree.get operation.key = some v
          ∧ ∀ key, key ≠ operation.key →
            treap'.topNode.tree.get key = treap.topNode.tree.get key := by
  obtain ⟨k, v, nk, hleaf, _, hmet, hgap⟩ := search_spec h.chain hkey.1 hkey.2
  have hget := get_of_search h.chain hkey.1 hkey.2 hleaf
  have hspec := modifyHelper_spec operation h.cached hleaf hget
  cases hchange : leafChange operation (treap.topNode.tree.get operation.key) with
  | error e =>
    rw [hchange] at hspec
    obtain ⟨x, hrun, hx, hxt⟩ := hspec
    rw [run_inRange hkey, hrun]
    exact ⟨⟨x⟩, rfl, ⟨hx, hxt.symm ▸ h.chain⟩, hxt⟩
  | ok act =>
    rw [hchange] at hspec
    obtain ⟨x, root, hrun, hroot, hmod⟩ := hspec
    obtain ⟨w, hnew, hact⟩ := action_of_change hchange
    have hkeep : act ≠ .keep := by
      rw [hact]
      split <;> simp
    have hfits : act.Fits k nk := by
      rw [hact, hget]
      cases hm : meets operation.key treap.topNode.tree with
      | true => trivial
      | false => exact ⟨(hgap hm).1, (hgap hm).2.1⟩
    obtain ⟨t', hmod', hchain', pre, post, hent, hent'⟩ :=
      changeAt_spec (levelOrder levelFunc) h.chain hleaf hkeep hfits
    rw [hmod] at hmod'
    cases hmod'
    rw [run_inRange hkey, hrun]
    refine ⟨⟨root⟩, rfl, ⟨hroot, hchain'⟩, hmod, w, hnew, ?_⟩
    cases hm : meets operation.key treap.topNode.tree with
    | true =>
      rw [hget, hm, if_pos rfl, Option.isSome_some, if_pos rfl] at hact
      subst hact
      obtain rfl := hmet hm
      have hvalues := get_update h.chain hchain' hent (by simpa [Action.bindings] using hent')
      exact ⟨by rw [hvalues, if_pos rfl], fun key hne => by rw [hvalues, if_neg hne]⟩
    | false =>
      rw [hm, if_neg Bool.false_ne_true] at hget
      rw [hget, Option.isSome_none, if_neg Bool.false_ne_true] at hact
      subst hact
      have hvalues := get_insert h.chain hchain' hget hent hent'
      exact ⟨by rw [hvalues, if_pos rfl], fun key hne => by rw [hvalues, if_neg hne]⟩

end

end Treap

/-! ## Runs -/

/-- What is done with a treap: operations, and questions for its root hash. -/
inductive Event where
  | operation (operation : Operation)
  | rootHash

namespace Treap

section

variable {L : Type} [OrderedLevel L] (hf : CryptographicHash) (levelFunc : ADKey → L)

/-- The treap after an event. -/
def step (treap : Treap) : Event → Treap
  | .operation operation => (treap.run hf levelFunc operation).2
  | .rootHash => (treap.rootHash hf levelFunc).2

variable {hf levelFunc}

theorem Stands.step {treap : Treap} (h : treap.Stands hf levelFunc) (event : Event) :
    (treap.step hf levelFunc event).Stands hf levelFunc := by
  cases event with
  | rootHash => exact (rootHash_spec h).2.1
  | operation operation =>
    rw [Treap.step]
    by_cases hkey : InRange operation.key
    · have hspec := run_spec operation h hkey
      cases hchange : leafChange operation (treap.topNode.tree.get operation.key) with
      | error e =>
        rw [hchange] at hspec
        obtain ⟨treap', hrun, hstands, _⟩ := hspec
        rw [hrun]
        exact hstands
      | ok act =>
        rw [hchange] at hspec
        obtain ⟨treap', hrun, hstands, _⟩ := hspec
        rw [hrun]
        exact hstands
    · rw [run_outOfRange hkey]
      exact h

variable (hf levelFunc)

/-- After any events a treap that started empty stands. -/
theorem stands_run (events : List Event) :
    (events.foldl (step hf levelFunc) (new none)).Stands hf levelFunc := by
  have hall : ∀ treap : Treap, treap.Stands hf levelFunc →
      (events.foldl (step hf levelFunc) treap).Stands hf levelFunc := by
    induction events with
    | nil => exact fun treap h => h
    | cons event events ih => exact fun treap h => ih _ (h.step event)
  exact hall _ (new_stands hf levelFunc)

end

end Treap

end Sparkz.Legacy.Treaps
