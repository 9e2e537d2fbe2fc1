import Sparkz.Avl.SnapshotAuthenticity
import Sparkz.Avl.SnapshotCodec

/-!
# Slicing a tree

* `Whole` — no proxy has one child only.
* `getSubtrees_spec`, `sliceTree_spec` — what `slice` makes of a tree: the manifest stands for
  it, with a frontier of proxies without children, unless two siblings have the same label.
* `snapshot_round_trip` — subtrees and manifests are read back from their bytes.
-/

namespace Sparkz.Avl.Serialization

open Sparkz.Lib Sparkz.Lib.LeafTree

/-- No proxy has one child only. -/
def Whole : ProverNodes → Prop
  | .proxyInternalNode _ _ _ l r _ =>
      l = .null ∧ r = .null ∨ l ≠ .null ∧ r ≠ .null ∧ Whole l ∧ Whole r
  | .internalProverNode _ l r _ => Whole l ∧ Whole r
  | _ => True

section

variable {hf : CryptographicHash} {n l r : ProverNodes} {t tl tr : Tree} {k : ADKey} {b : Balance}
  {lo hi : ADKey} {keyLength : ℕ}

theorem proxyOf_ok (hl : Mirrors hf false l tl) (hr : Mirrors hf false r tr) (k : ADKey)
    (b : Balance) : proxyOf hf k l r b
      = .ok (.proxyInternalNode k (treeLabel hf tl) (treeLabel hf tr) .null .null b) := by
  rw [proxyOf, hl.label, hr.label]
  rfl

/-- The children of a proxy: where both labels are the same, one of them is lost. -/
theorem withChildren_ok (hl : l.label hf = .ok (treeLabel hf tl))
    (hr : r.label hf = .ok (treeLabel hf tr)) (k : ADKey) (b : Balance) :
    withChildren hf
        (.proxyInternalNode k (treeLabel hf tl) (treeLabel hf tr) .null .null b) l r
      = .ok (if treeLabel hf tr = treeLabel hf tl then
          .proxyInternalNode k (treeLabel hf tl) (treeLabel hf tr) r .null b
        else .proxyInternalNode k (treeLabel hf tl) (treeLabel hf tr) l r b) := by
  rw [withChildren]
  have hfirst : setChild hf (treeLabel hf tl) (treeLabel hf tr) (.null, .null) l
      = .ok (l, .null) := by
    rw [setChild, hl]
    exact if_pos rfl
  have hsecond : setChild hf (treeLabel hf tl) (treeLabel hf tr) (l, .null) r
      = .ok (if treeLabel hf tr = treeLabel hf tl then (r, .null) else (l, r)) := by
    rw [setChild, hr]
    show (if treeLabel hf tr = treeLabel hf tl then _ else _ : Except RestoreError _) = _
    by_cases heq : treeLabel hf tr = treeLabel hf tl
    · rw [if_pos heq, if_pos heq]
      rfl
    · rw [if_neg heq, if_neg heq, if_pos rfl]
      rfl
  rw [hfirst]
  show (Except.bind (setChild hf (treeLabel hf tl) (treeLabel hf tr) (l, .null) r) _
    : Except _ _) = _
  rw [hsecond]
  by_cases heq : treeLabel hf tr = treeLabel hf tl
  · rw [if_pos heq, if_pos heq]
    rfl
  · rw [if_neg heq, if_neg heq]
    rfl

/-- The labels of the nodes of a tree. -/
def treeLabels (hf : CryptographicHash) : Tree → List Digest
  | .stub d => [d]
  | .leaf tag k v n => [treeLabel hf (.leaf tag k v n)]
  | .node tag k l r b =>
      treeLabel hf (.node tag k l r b) :: (treeLabels hf l ++ treeLabels hf r)

theorem treeLabel_mem (hf : CryptographicHash) (t : Tree) : treeLabel hf t ∈ treeLabels hf t := by
  cases t <;> exact List.mem_cons_self

/-- The labels of two siblings differ where all labels do. -/
theorem treeLabel_ne {tag : Option Ref} (hnodup : (treeLabels hf (.node tag k tl tr b)).Nodup) :
    treeLabel hf tr ≠ treeLabel hf tl := by
  intro heq
  have hdisjoint := (List.nodup_append.1 (List.nodup_cons.1 hnodup).2).2.2
  exact hdisjoint _ (treeLabel_mem hf tl) _ (treeLabel_mem hf tr) heq.symm

/-- What stands in a manifest for a tree. -/
structure Stand (hf : CryptographicHash) (n : ProverNodes) (t : Tree) : Prop where
  label : n.label hf = .ok (treeLabel hf t)
  mirrors : Whole n → Mirrors hf true n t
  whole : (treeLabels hf t).Nodup → Whole n
  ne_null : n ≠ .null

/-- A proxy whose children were set. -/
theorem stand_withChildren (hl : Stand hf l tl) (hr : Stand hf r tr) (tag : Option Ref) (k : ADKey)
    (b : Balance) : ∃ n, withChildren hf
        (.proxyInternalNode k (treeLabel hf tl) (treeLabel hf tr) .null .null b) l r = .ok n
      ∧ Stand hf n (.node tag k tl tr b) := by
  refine ⟨_, withChildren_ok hl.label hr.label k b, ?_⟩
  by_cases heq : treeLabel hf tr = treeLabel hf tl
  · rw [if_pos heq]
    refine ⟨rfl, ?_, fun hnodup => absurd heq (treeLabel_ne hnodup), by simp⟩
    rintro (⟨hnull, _⟩ | ⟨_, hnull, _⟩)
    · exact absurd hnull hr.ne_null
    · exact absurd rfl hnull
  · rw [if_neg heq]
    refine ⟨rfl, ?_, fun hnodup => ?_, by simp⟩
    · rintro (⟨hnull, _⟩ | ⟨_, _, hwl, hwr⟩)
      · exact absurd hnull hl.ne_null
      · exact .proxy (hl.mirrors hwl) (hr.mirrors hwr)
    · obtain ⟨hndl, hndr, _⟩ := List.nodup_append.1 (List.nodup_cons.1 hnodup).2
      exact .inr ⟨hl.ne_null, hr.ne_null, hl.whole hndl, hr.whole hndr⟩

/-! ## Pieces and announcements -/

/-- The labels that are announced for a tree at some height. -/
def announced (hf : CryptographicHash) (subtreeDepth : ℤ) : Tree → ℤ → List Digest
  | .node _ _ l r _, currentHeight =>
      if currentHeight > subtreeDepth then
        announced hf subtreeDepth l (currentHeight - 1)
          ++ announced hf subtreeDepth r (currentHeight - 1)
      else [treeLabel hf l, treeLabel hf r]
  | .stub _, _ => []
  | .leaf _ _ _ _, _ => []

/-- The labels of the leaves above the cut. -/
def leavesAbove (hf : CryptographicHash) (subtreeDepth : ℤ) : Tree → ℤ → List Digest
  | .stub d, _ => [d]
  | .leaf tag k v n, _ => [treeLabel hf (.leaf tag k v n)]
  | .node _ _ l r _, currentHeight =>
      if currentHeight > subtreeDepth then
        leavesAbove hf subtreeDepth l (currentHeight - 1)
          ++ leavesAbove hf subtreeDepth r (currentHeight - 1)
      else []

/-- What slicing makes of a node that stands for a tree. -/
structure Sliced (hf : CryptographicHash) (subtreeDepth currentHeight : ℤ) (t : Tree)
    (n : ProverNodes) (subtrees : List BatchAVLProverSubtree) : Prop where
  stand : Stand hf n t
  pieces : ∀ d, (∃ s ∈ subtrees, s.id hf = .ok d)
    ↔ d ∈ announced hf subtreeDepth t currentHeight
      ∨ d ∈ leavesAbove hf subtreeDepth t currentHeight
  ids : (treeLabels hf t).Nodup → ∀ acc,
    n.idCollector acc = .ok (acc ++ announced hf subtreeDepth t currentHeight)

/-- Two sliced children below a proxy. -/
theorem Sliced.withChildren {subtreeDepth h : ℤ} {l' r' : ProverNodes}
    {subl subr : List BatchAVLProverSubtree}
    (hsl : Sliced hf subtreeDepth h tl l' subl) (hsr : Sliced hf subtreeDepth h tr r' subr)
    (tag : Option Ref) (k : ADKey) (b : Balance) :
    ∃ n, Serialization.withChildren hf
        (.proxyInternalNode k (treeLabel hf tl) (treeLabel hf tr) .null .null b) l' r' = .ok n
      ∧ Stand hf n (.node tag k tl tr b)
      ∧ (∀ d, (∃ s ∈ subl ++ subr, s.id hf = .ok d)
        ↔ d ∈ announced hf subtreeDepth tl h ++ announced hf subtreeDepth tr h
          ∨ d ∈ leavesAbove hf subtreeDepth tl h ++ leavesAbove hf subtreeDepth tr h)
      ∧ ((treeLabels hf (.node tag k tl tr b)).Nodup → ∀ acc, n.idCollector acc
        = .ok (acc ++ (announced hf subtreeDepth tl h ++ announced hf subtreeDepth tr h))) := by
  obtain ⟨n, hn, hstand⟩ := stand_withChildren hsl.stand hsr.stand tag k b
  refine ⟨n, hn, hstand, fun d => ?_, fun hnodup acc => ?_⟩
  · simp only [List.mem_append, or_and_right, exists_or]
    rw [hsl.pieces d, hsr.pieces d]
    tauto
  · have hne := treeLabel_ne hnodup
    have hboth := List.nodup_append.1 (List.nodup_cons.1 hnodup).2
    rw [withChildren_ok hsl.stand.label hsr.stand.label k b, if_neg hne] at hn
    cases hn
    rw [ProverNodes.idCollector, if_neg (not_or.2 ⟨hsl.stand.ne_null, hsr.stand.ne_null⟩),
      hsl.ids hboth.1 acc]
    show ProverNodes.idCollector r' _ = _
    rw [hsr.ids hboth.2.1, List.append_assoc]

theorem getSubtrees_inner
    (hn : n = .internalProverNode k l r b ∨ ∃ leftLabel rightLabel,
      n = .proxyInternalNode k leftLabel rightLabel l r b)
    (subtreeDepth currentHeight : ℤ) :
    getSubtrees hf subtreeDepth n currentHeight = (do
      let nextParent ← proxyOf hf k l r b
      if currentHeight > subtreeDepth then
        let left ← getSubtrees hf subtreeDepth l (currentHeight - 1)
        let right ← getSubtrees hf subtreeDepth r (currentHeight - 1)
        let nextParent' ← Serialization.withChildren hf nextParent left.1 right.1
        return (nextParent', left.2 ++ right.2)
      else return (nextParent, [⟨l⟩, ⟨r⟩])) := by
  rcases hn with rfl | ⟨_, _, rfl⟩ <;> rw [getSubtrees]

/-- A sliced inner node. -/
theorem sliced_inner {subtreeDepth currentHeight : ℤ}
    (hn : n = .internalProverNode k l r b ∨ ∃ leftLabel rightLabel,
      n = .proxyInternalNode k leftLabel rightLabel l r b)
    (hl : Mirrors hf false l tl) (hr : Mirrors hf false r tr) (tag : Option Ref)
    (ihl : ∃ n' subtrees, getSubtrees hf subtreeDepth l (currentHeight - 1) = .ok (n', subtrees)
      ∧ Sliced hf subtreeDepth (currentHeight - 1) tl n' subtrees)
    (ihr : ∃ n' subtrees, getSubtrees hf subtreeDepth r (currentHeight - 1) = .ok (n', subtrees)
      ∧ Sliced hf subtreeDepth (currentHeight - 1) tr n' subtrees) :
    ∃ n' subtrees, getSubtrees hf subtreeDepth n currentHeight = .ok (n', subtrees)
      ∧ Sliced hf subtreeDepth currentHeight (.node tag k tl tr b) n' subtrees := by
  rw [getSubtrees_inner hn, proxyOf_ok hl hr]
  by_cases habove : currentHeight > subtreeDepth
  · obtain ⟨l', subl, hgetl, hsl⟩ := ihl
    obtain ⟨r', subr, hgetr, hsr⟩ := ihr
    obtain ⟨n', hwith, hstand, hpieces, hids⟩ := hsl.withChildren hsr tag k b
    refine ⟨n', subl ++ subr, ?_, hstand, ?_, ?_⟩
    · show (if currentHeight > subtreeDepth then _ else _ : Except RestoreError _) = _
      rw [if_pos habove, hgetl]
      show (Except.bind (getSubtrees hf subtreeDepth r (currentHeight - 1)) _ : Except _ _) = _
      rw [hgetr]
      show (Except.bind (Serialization.withChildren hf _ l' r') _ : Except _ _) = _
      rw [hwith]
      rfl
    · rw [announced, leavesAbove, if_pos habove, if_pos habove]
      exact hpieces
    · rw [announced, if_pos habove]
      exact hids
  · refine ⟨_, [⟨l⟩, ⟨r⟩], if_neg habove,
      ⟨rfl, fun _ => .empty rfl, fun _ => .inl ⟨rfl, rfl⟩, by simp⟩, fun d => ?_, fun _ acc => ?_⟩
    · rw [announced, leavesAbove, if_neg habove, if_neg habove]
      simp only [BatchAVLProverSubtree.id, List.mem_cons, List.not_mem_nil, or_false,
        exists_eq_or_imp, exists_eq_left, hl.label, hr.label, Except.ok.injEq]
      rw [eq_comm, @eq_comm _ (treeLabel hf tr)]
    · rw [announced, if_neg habove, ProverNodes.idCollector, if_pos (.inl rfl), List.append_assoc]
      rfl

/-- **What `getSubtrees` makes of a node.** -/
theorem getSubtrees_spec (h : Mirrors hf false n t) (subtreeDepth currentHeight : ℤ) :
    ∃ n' subtrees, getSubtrees hf subtreeDepth n currentHeight = .ok (n', subtrees)
      ∧ Sliced hf subtreeDepth currentHeight t n' subtrees := by
  induction h generalizing currentHeight with
  | @leaf tag k nk v =>
    refine ⟨_, _, rfl, ⟨rfl, fun _ => .leaf, fun _ => trivial, by simp⟩, fun d => ?_,
      fun _ acc => ?_⟩
    · simp [announced, leavesAbove, BatchAVLProverSubtree.id, ProverNodes.label, treeLabel, eq_comm]
    · rw [announced, List.append_nil]
      rfl
  | node hl hr ihl ihr =>
    exact sliced_inner (.inl rfl) hl hr _ (ihl _) (ihr _)
  | proxy hl hr ihl ihr => exact sliced_inner (.inr ⟨_, _, rfl⟩) hl hr _ (ihl _) (ihr _)
  | empty hfrontier => cases hfrontier

/-! ## The cut -/

/-- The number of steps to the highest leaf. -/
def leafDepth : Tree → ℕ
  | .node _ _ l r _ => min (leafDepth l) (leafDepth r) + 1
  | _ => 0

/-- There is no leaf above the cut if the highest leaf is deep enough. -/
theorem leavesAbove_eq_nil (hf : CryptographicHash) (t : Tree) (subtreeDepth currentHeight : ℤ) :
    leavesAbove hf subtreeDepth t currentHeight = []
      ↔ 0 < leafDepth t ∧ currentHeight - subtreeDepth < leafDepth t := by
  induction t generalizing currentHeight with
  | stub d => simp [leavesAbove, leafDepth]
  | leaf tag k v n => simp [leavesAbove, leafDepth]
  | node tag k l r b ihl ihr =>
    rw [leavesAbove, leafDepth]
    split
    · rw [List.append_eq_nil_iff, ihl, ihr]
      omega
    · simp
      omega

theorem announced_subset (hf : CryptographicHash) (t : Tree) (subtreeDepth currentHeight : ℤ) :
    announced hf subtreeDepth t currentHeight ⊆ treeLabels hf t := by
  induction t generalizing currentHeight with
  | stub d => exact List.nil_subset _
  | leaf tag k v n => exact List.nil_subset _
  | node tag k l r b ihl ihr =>
    rw [announced, treeLabels]
    split
    · exact fun d hd => List.mem_cons_of_mem _ (List.mem_append.2
        ((List.mem_append.1 hd).imp (fun h => ihl _ h) fun h => ihr _ h))
    · intro d hd
      rw [List.mem_cons, List.mem_singleton] at hd
      rcases hd with rfl | rfl
      · exact List.mem_cons_of_mem _ (List.mem_append_left _ (treeLabel_mem hf l))
      · exact List.mem_cons_of_mem _ (List.mem_append_right _ (treeLabel_mem hf r))

theorem leavesAbove_subset (hf : CryptographicHash) (t : Tree) (subtreeDepth currentHeight : ℤ) :
    leavesAbove hf subtreeDepth t currentHeight ⊆ treeLabels hf t := by
  induction t generalizing currentHeight with
  | stub d => exact List.Subset.refl _
  | leaf tag k v n => exact List.Subset.refl _
  | node tag k l r b ihl ihr =>
    rw [leavesAbove, treeLabels]
    split
    · exact fun d hd => List.mem_cons_of_mem _ (List.mem_append.2
        ((List.mem_append.1 hd).imp (fun h => ihl _ h) fun h => ihr _ h))
    · exact List.nil_subset _

/-- Where labels of the two sides differ, a leaf above the cut is not announced on the other
side. -/
theorem announced_append_disjoint {tag : Option Ref} {subtreeDepth h : ℤ}
    (hnodup : (treeLabels hf (.node tag k tl tr b)).Nodup)
    (hl : ∀ d ∈ leavesAbove hf subtreeDepth tl h, d ∉ announced hf subtreeDepth tl h)
    (hr : ∀ d ∈ leavesAbove hf subtreeDepth tr h, d ∉ announced hf subtreeDepth tr h) :
    ∀ d ∈ leavesAbove hf subtreeDepth tl h ++ leavesAbove hf subtreeDepth tr h,
      d ∉ announced hf subtreeDepth tl h ++ announced hf subtreeDepth tr h := by
  have hdisjoint := (List.nodup_append.1 (List.nodup_cons.1 hnodup).2).2.2
  intro d hd hann
  rcases List.mem_append.1 hd with hd | hd <;> rcases List.mem_append.1 hann with hann | hann
  · exact hl d hd hann
  · exact hdisjoint d (leavesAbove_subset hf tl _ _ hd) d (announced_subset hf tr _ _ hann) rfl
  · exact hdisjoint d (announced_subset hf tl _ _ hann) d (leavesAbove_subset hf tr _ _ hd) rfl
  · exact hr d hd hann

/-- The label of a leaf above the cut is not announced. -/
theorem announced_disjoint (hnodup : (treeLabels hf t).Nodup) (subtreeDepth currentHeight : ℤ) :
    ∀ d ∈ leavesAbove hf subtreeDepth t currentHeight,
      d ∉ announced hf subtreeDepth t currentHeight := by
  induction t generalizing currentHeight with
  | stub d => exact fun _ _ h => absurd h List.not_mem_nil
  | leaf tag k v n => exact fun _ _ h => absurd h List.not_mem_nil
  | node tag k l r b ihl ihr =>
    obtain ⟨hndl, hndr, _⟩ := List.nodup_append.1 (List.nodup_cons.1 hnodup).2
    rw [leavesAbove, announced]
    split
    · exact announced_append_disjoint hnodup (ihl hndl _) (ihr hndr _)
    · exact fun d hd => absurd hd List.not_mem_nil

/-! ## Slices -/

/-- The labels that the manifest of a tree announces. -/
def topAnnounced (hf : CryptographicHash) (subtreeDepth : ℤ) : Tree → ℤ → List Digest
  | .node _ _ l r _, height =>
      announced hf subtreeDepth l (height - 1) ++ announced hf subtreeDepth r (height - 1)
  | _, _ => []

/-- The labels of the leaves that are cut off as subtrees of their own. -/
def topLeaves (hf : CryptographicHash) (subtreeDepth : ℤ) : Tree → ℤ → List Digest
  | .node _ _ l r _, height =>
      leavesAbove hf subtreeDepth l (height - 1) ++ leavesAbove hf subtreeDepth r (height - 1)
  | _, _ => []

variable {tree : RestoredProver} {subtreeDepth : ℤ} {manifest : BatchAVLProverManifest}
  {subtrees : List BatchAVLProverSubtree}

/-- What slicing makes of a whole tree. -/
structure SlicedTop (hf : CryptographicHash) (subtreeDepth height : ℤ) (t : Tree)
    (manifest : BatchAVLProverManifest) (subtrees : List BatchAVLProverSubtree) : Prop where
  rootHeight : manifest.rootHeight = height
  stand : Stand hf manifest.root t
  pieces : ∀ d, (∃ s ∈ subtrees, s.id hf = .ok d)
    ↔ d ∈ topAnnounced hf subtreeDepth t height ∨ d ∈ topLeaves hf subtreeDepth t height
  ids : (treeLabels hf t).Nodup →
    manifest.subtreesIds = .ok (topAnnounced hf subtreeDepth t height)

theorem sliceTree_inner
    (hn : tree.topNode = .internalProverNode k l r b ∨ ∃ leftLabel rightLabel,
      tree.topNode = .proxyInternalNode k leftLabel rightLabel l r b) (subtreeDepth : ℤ) :
    sliceTree hf tree subtreeDepth = (do
      let rootProxyNode ← proxyOf hf k l r b
      let left ← getSubtrees hf subtreeDepth l (tree.rootNodeHeight - 1)
      let right ← getSubtrees hf subtreeDepth r (tree.rootNodeHeight - 1)
      let root ← Serialization.withChildren hf rootProxyNode left.1 right.1
      return (⟨root, tree.rootNodeHeight⟩, left.2 ++ right.2)) := by
  rcases hn with hn | ⟨_, _, hn⟩ <;> rw [sliceTree, hn]

/-- A sliced tree with an inner node at its top. -/
theorem slicedTop_inner
    (hn : tree.topNode = .internalProverNode k l r b ∨ ∃ leftLabel rightLabel,
      tree.topNode = .proxyInternalNode k leftLabel rightLabel l r b)
    (hl : Mirrors hf false l tl) (hr : Mirrors hf false r tr) (tag : Option Ref)
    (subtreeDepth : ℤ) :
    ∃ manifest subtrees, sliceTree hf tree subtreeDepth = .ok (manifest, subtrees)
      ∧ SlicedTop hf subtreeDepth tree.rootNodeHeight (.node tag k tl tr b) manifest subtrees := by
  obtain ⟨l', subl, hgetl, hsl⟩ := getSubtrees_spec hl subtreeDepth (tree.rootNodeHeight - 1)
  obtain ⟨r', subr, hgetr, hsr⟩ := getSubtrees_spec hr subtreeDepth (tree.rootNodeHeight - 1)
  obtain ⟨root, hwith, hstand, hpieces, hids⟩ := hsl.withChildren hsr tag k b
  refine ⟨⟨root, tree.rootNodeHeight⟩, subl ++ subr, ?_, rfl, hstand, hpieces,
    fun hnodup => hids hnodup []⟩
  rw [sliceTree_inner hn, proxyOf_ok hl hr, hgetl]
  show (Except.bind (getSubtrees hf subtreeDepth r (tree.rootNodeHeight - 1)) _ : Except _ _) = _
  rw [hgetr]
  show (Except.bind (Serialization.withChildren hf _ l' r') _ : Except _ _) = _
  rw [hwith]
  rfl

/-- **What `slice` makes of a tree.** -/
theorem sliceTree_spec (h : Mirrors hf false tree.topNode t) (subtreeDepth : ℤ) :
    ∃ manifest subtrees, sliceTree hf tree subtreeDepth = .ok (manifest, subtrees)
      ∧ SlicedTop hf subtreeDepth tree.rootNodeHeight t manifest subtrees := by
  generalize htop : tree.topNode = top at h
  cases h with
  | leaf =>
    refine ⟨⟨_, _⟩, [], by rw [sliceTree, htop], rfl,
      ⟨rfl, fun _ => .leaf, fun _ => trivial, by simp⟩, fun d => ?_, fun _ => rfl⟩
    simp [topAnnounced, topLeaves]
  | node hl hr => exact slicedTop_inner (.inl htop) hl hr _ subtreeDepth
  | proxy hl hr => exact slicedTop_inner (.inr ⟨_, _, htop⟩) hl hr _ subtreeDepth
  | empty hfrontier => cases hfrontier

/-- **A manifest announces its subtrees** exactly if no leaf is cut off as a subtree of its own:
the tree is a single leaf, or its highest leaf is below the second level and below the cut. -/
theorem subtreesIds_eq_iff (h : Mirrors hf false tree.topNode t)
    (hnodup : (treeLabels hf t).Nodup)
    (hslice : sliceTree hf tree subtreeDepth = .ok (manifest, subtrees)) :
    ∃ ids, manifest.subtreesIds = .ok ids
      ∧ ((∀ d, d ∈ ids ↔ ∃ s ∈ subtrees, s.id hf = .ok d)
        ↔ t.height = 0
          ∨ 2 ≤ leafDepth t ∧ tree.rootNodeHeight - subtreeDepth < leafDepth t) := by
  obtain ⟨manifest', subtrees', hslice', hsliced⟩ := sliceTree_spec h subtreeDepth
  obtain ⟨rfl, rfl⟩ := Prod.mk.inj (Except.ok.inj (hslice.symm.trans hslice'))
  refine ⟨_, hsliced.ids hnodup, ?_⟩
  have hnil : topLeaves hf subtreeDepth t tree.rootNodeHeight = [] ↔ t.height = 0
      ∨ 2 ≤ leafDepth t ∧ tree.rootNodeHeight - subtreeDepth < leafDepth t := by
    cases t with
    | stub d => simp [topLeaves, LeafTree.height]
    | leaf tag k v n => simp [topLeaves]
    | node tag k l r b =>
      rw [topLeaves, List.append_eq_nil_iff, leavesAbove_eq_nil, leavesAbove_eq_nil, leafDepth,
        height_node]
      omega
  rw [← hnil]
  constructor
  · intro hall
    refine List.eq_nil_iff_forall_not_mem.2 fun d hd => ?_
    have hann := (hall d).2 ((hsliced.pieces d).2 (.inr hd))
    cases t with
    | stub d => exact List.not_mem_nil hd
    | leaf tag k v n => exact List.not_mem_nil hd
    | node tag k l r b =>
      obtain ⟨hndl, hndr, _⟩ := List.nodup_append.1 (List.nodup_cons.1 hnodup).2
      exact announced_append_disjoint hnodup (announced_disjoint hndl _ _)
        (announced_disjoint hndr _ _) d hd hann
  · intro hempty d
    rw [hsliced.pieces d, hempty]
    simp

/-- The prover of the tree with three keys. -/
def threeKeySource : RestoredProver where
  keyLength := 1
  valueLengthOpt := some 1
  topNode := .internalProverNode ⟨[8]⟩
    (.internalProverNode ⟨[5]⟩ (.proverLeaf ⟨[0]⟩ (.ofByte 0) ⟨[5]⟩)
      (.proverLeaf ⟨[5]⟩ (.ofByte 7) ⟨[8]⟩) 0)
    (.internalProverNode ⟨[12]⟩ (.proverLeaf ⟨[8]⟩ (.ofByte 7) ⟨[12]⟩)
      (.proverLeaf ⟨[12]⟩ (.ofByte 9) ⟨[255]⟩) 0) 0
  rootNodeHeight := 2

theorem mirrors_threeKeySource : Mirrors smallParams.hf false threeKeySource.topNode threeKeyTree :=
  .node (.node .leaf .leaf) (.node .leaf .leaf)

/-- The slice of the tree with three keys above its leaves: all of them are announced. -/
theorem subtreesIds_threeKeys :
    ∃ manifest subtrees ids, sliceTree smallParams.hf threeKeySource 1 = .ok (manifest, subtrees)
      ∧ manifest.subtreesIds = .ok ids
      ∧ ∀ d, d ∈ ids ↔ ∃ s ∈ subtrees, s.id smallParams.hf = .ok d := by
  have hslice : sliceTree smallParams.hf threeKeySource 1 = .ok (_, _) := rfl
  obtain ⟨ids, hids, hiff⟩ := subtreesIds_eq_iff mirrors_threeKeySource (by decide) hslice
  exact ⟨_, _, ids, hslice, hids, hiff.2 (.inr ⟨by decide, by decide⟩)⟩

/-- A slice of the tree with one key: nothing is announced, and there are two subtrees. -/
theorem subtreesIds_missing :
    ∃ manifest subtrees, sliceTree smallParams.hf (oneKeyProver ⟨[5]⟩) 0 = .ok (manifest, subtrees)
      ∧ Mirrors smallParams.hf false (oneKeyProver ⟨[5]⟩).topNode oneKeyTree
      ∧ (treeLabels smallParams.hf oneKeyTree).Nodup
      ∧ manifest.subtreesIds = .ok []
      ∧ subtrees.map (fun s => s.id smallParams.hf) = [.ok [0, 0, 0, 5], .ok [0, 5, 9, 255]] :=
  ⟨_, _, rfl, .node .leaf .leaf, by decide, rfl, rfl⟩

/-! ## Round trips -/

theorem intFromByteArray_toBytes_emod {x : ℤ} (hlo : -2 ^ 31 ≤ x) (hhi : x < 2 ^ 31) :
    intFromByteArray (toBytes 4 (x % 2 ^ 32).toNat) = .ok x := by
  have hlt : (x % 2 ^ 32).toNat < 256 ^ 4 := by omega
  rw [intFromByteArray, if_neg (by simp), List.take_of_length_le (by simp), ofBytes_toBytes 4 _ hlt,
    signed]
  congr 1
  split <;> omega

/-- **The codec.**  A subtree is read back from its bytes, and so is the manifest of a slice
whose proxies have both children or none: with the same keys, values, balances and labels, and
in the same shape. -/
theorem snapshot_round_trip (h : Mirrors hf false n t) (hchain : Chain lo hi t)
    (hkeys : KeyLength keyLength t hi) {t' : Tree} {lo' hi' : ADKey}
    (h' : Mirrors hf false tree.topNode t') (hchain' : Chain lo' hi' t')
    (hkeys' : KeyLength keyLength t' hi')
    (hheight : -2 ^ 31 ≤ tree.rootNodeHeight ∧ tree.rootNodeHeight < 2 ^ 31)
    (hslice : sliceTree hf tree subtreeDepth = .ok (manifest, subtrees))
    (hwhole : Whole manifest.root) :
    (∃ bytes, nodesToBytes n = .ok bytes ∧ (bytes.length < 2 ^ 31 →
      nodesFromBytes hf keyLength bytes = .ok n.plain ∧ Mirrors hf false n.plain t))
    ∧ ∃ bytes, manifestToBytes manifest = .ok bytes ∧ (bytes.length < 2 ^ 31 →
      manifestFromBytes hf keyLength bytes = .ok ⟨manifest.root.plain, manifest.rootHeight⟩
      ∧ Mirrors hf true manifest.root t' ∧ Mirrors hf true manifest.root.plain t') := by
  refine ⟨?_, ?_⟩
  · obtain ⟨bytes, hbytes, hread⟩ := nodesFromBytes_nodesToBytes h hchain hkeys
    exact ⟨bytes, hbytes, fun hlen => ⟨hread hlen, h.plain⟩⟩
  · obtain ⟨manifest', subtrees', hslice', hsliced⟩ := sliceTree_spec h' subtreeDepth
    obtain ⟨rfl, rfl⟩ := Prod.mk.inj (Except.ok.inj (hslice.symm.trans hslice'))
    have hmirrors := hsliced.stand.mirrors hwhole
    obtain ⟨bytes, hbytes, hread⟩ := nodesFromBytes_nodesToBytes hmirrors hchain' hkeys'
    refine ⟨toBytes 4 (manifest.rootHeight % 2 ^ 32).toNat ++ bytes,
      by rw [manifestToBytes, hbytes]; rfl, fun hlen => ⟨?_, hmirrors, hmirrors.plain⟩⟩
    have hlength : (toBytes 4 (manifest.rootHeight % 2 ^ 32).toNat).length = 4 := length_toBytes _ _
    rw [List.length_append, hlength] at hlen
    have hfirst : slice (toBytes 4 (manifest.rootHeight % 2 ^ 32).toNat ++ bytes) 0 4
        = toBytes 4 (manifest.rootHeight % 2 ^ 32).toNat :=
      slice_append (a := []) (m := toBytes 4 (manifest.rootHeight % 2 ^ 32).toNat) rfl
        (by rw [hlength]; rfl)
    have hrest : slice (toBytes 4 (manifest.rootHeight % 2 ^ 32).toNat ++ bytes) 4
        (toBytes 4 (manifest.rootHeight % 2 ^ 32).toNat ++ bytes).length = bytes := by
      have := slice_append (a := toBytes 4 (manifest.rootHeight % 2 ^ 32).toNat) (m := bytes)
        (c := []) (i := 4)
        (j := (toBytes 4 (manifest.rootHeight % 2 ^ 32).toNat ++ bytes).length)
        (by rw [hlength]; rfl) (by rw [List.length_append]; push_cast; rfl)
      rwa [List.append_nil] at this
    rw [manifestFromBytes, hfirst, hrest, hsliced.rootHeight,
      intFromByteArray_toBytes_emod hheight.1 hheight.2]
    show (Except.bind (nodesFromBytes hf keyLength bytes) _ : Except _ _) = _
    rw [hread (by omega)]
    rfl

/-- The bytes of the tree with three keys, and of the manifest that stops at the children of
its root. -/
theorem snapshot_round_trip_threeKeys :
    ∃ manifest subtrees, sliceTree smallParams.hf threeKeySource 1 = .ok (manifest, subtrees)
      ∧ nodesFromBytes smallParams.hf 1 [1, 0, 8, 0, 0, 0, 15, 1, 0, 5, 0, 0, 0, 4, 0, 0, 5, 0,
          0, 5, 8, 7, 1, 0, 12, 0, 0, 0, 4, 0, 8, 12, 7, 0, 12, 255, 9]
        = .ok threeKeySource.topNode.plain
      ∧ manifestFromBytes smallParams.hf 1 [0, 0, 0, 2, 1, 0, 8, 0, 0, 0, 11, 2, 0, 5, 0, 0, 0, 5,
          0, 5, 7, 8, 2, 0, 12, 0, 8, 7, 12, 0, 12, 9, 255]
        = .ok ⟨manifest.root.plain, manifest.rootHeight⟩
      ∧ manifest.root.plain = threeKeyManifest.root := by
  have h := mirrors_threeKeySource
  have hchain : Chain ⟨[0]⟩ ⟨[255]⟩ threeKeyTree :=
    ⟨⟨⟨rfl, rfl, by decide⟩, ⟨rfl, rfl, by decide⟩⟩, ⟨rfl, rfl, by decide⟩, ⟨rfl, rfl, by decide⟩⟩
  have hkeys : KeyLength 1 threeKeyTree ⟨[255]⟩ := ⟨by decide, rfl⟩
  have hslice : sliceTree smallParams.hf threeKeySource 1 = .ok (_, _) := rfl
  obtain ⟨⟨bytes, hbytes, hread⟩, bytes', hbytes', hread'⟩ :=
    snapshot_round_trip h hchain hkeys h hchain hkeys ⟨by decide, by decide⟩ hslice
      (.inr ⟨by simp, by simp, .inl ⟨rfl, rfl⟩, .inl ⟨rfl, rfl⟩⟩)
  cases hbytes
  cases hbytes'
  exact ⟨_, _, hslice, (hread (by decide)).1, (hread' (by decide)).1, rfl⟩
end

end Sparkz.Avl.Serialization
