import Sparkz.Avl.ProverRun
import Sparkz.Avl.ProofGeneration

/-!
# The prover from one proof to the next

* `BatchAVLProver.Since` — the prover has visited some nodes since its last proof: the tree
  of that proof is still there, and the old nodes of the present tree are nodes of it.
* `Since.performed`, `Since.refused` — operations go on with the history.
* `generateProof_spec` — the proof is the tree of the last proof, cut at each node that was
  not visited, with the directions; after it all nodes are old and none is visited (`Renewed`).
-/

namespace Sparkz.Avl

open Sparkz.Lib Sparkz.Lib.LeafTree

/-- An operation comes to old nodes along nodes that it visits. -/
theorem operate_open {t t' : Tree} {path : List Bool} {act : Option (Action ADKey ADValue)}
    {dh : ℤ} {visits : List Ref} (h : operate t path act = some (t', dh, visits))
    {seen : Ref → Bool} (hseen : ∀ x ∈ visits, seen x = true) :
    Opens seen t' visits (t.openTags seen) := by
  cases act with
  | some act =>
    obtain ⟨⟨t₁, changed, up⟩, hmod, heq⟩ := Option.map_eq_some_iff.1 h
    cases heq
    exact ⟨modifyAt_open hmod hseen, pathTags_open hseen⟩
  | none =>
    obtain ⟨_, _, h⟩ := Option.bind_eq_some_iff.1 h
    obtain ⟨⟨t₁, down, visits'⟩, hdel, heq⟩ := Option.map_eq_some_iff.1 h
    cases heq
    obtain ⟨hsub, hvisits⟩ := deleteAt_open hdel fun x hx => hseen x (List.mem_append_right _ hx)
    exact ⟨hsub, List.append_subset.2
      ⟨pathTags_open fun x hx => hseen x (List.mem_append_left _ hx), hvisits⟩⟩

namespace BatchAVLProver

/-- **Since the last proof**, when its tree was `t₀`, the nodes `V` were visited: the old nodes
of the present tree `t` are among those of `t₀`, and whoever takes the nodes `V` for seen finds
them from the root of `t₀` downwards. -/
structure Since (P : TreeParams) (p : BatchAVLProver) (t₀ t : Tree) (V : List Ref) : Prop where
  old : Represents .prover P.hf p.tree.heap t₀ p.oldTopNode ∅
  nodup : t₀.allTags.Nodup
  flags : ∀ x ∈ t₀.allTags, Visited p.tree.heap x (decide (x ∈ V))
  opens : ∀ seen : Ref → Bool, (∀ x ∈ V, seen x = true) → Opens seen t V (t₀.openTags seen)

section

variable {P : TreeParams} {p p' : BatchAVLProver} {t₀ t t' : Tree} {V : List Ref}
  {bits path : List Bool} {visits : List Ref}

/-- An operation that is refused adds nothing to the history. -/
theorem Since.refused (h : p.Since P t₀ t V) (hp : Refused bits p p') : p'.Since P t₀ t V where
  old := by
    rw [hp.heap, hp.oldTopNode]
    exact h.old
  nodup := h.nodup
  flags := by
    rw [hp.heap]
    exact h.flags
  opens := h.opens

/-- The nodes that an operation visits join the history. -/
theorem Since.performed (h : p.Since P t₀ t V) (hp : Performed P bits path visits t t' p p')
    {act : Option (Action ADKey ADValue)} {dh : ℤ}
    (hop : operate t path act = some (t', dh, visits)) : p'.Since P t₀ t' (V ++ visits) := by
  obtain ⟨M, _, hstep, _⟩ := hp.yields
  refine ⟨?_, h.nodup, fun x hx => ?_, fun seen hseen => ?_⟩
  · rw [hp.oldTopNode]
    exact h.old.step hstep fun y hy => absurd hy (Set.notMem_empty y)
  · obtain ⟨o, ho, hv⟩ := h.flags x hx
    obtain ⟨o', ho', hold⟩ := h.old.isNew_tag hx
    rw [ho] at ho'
    cases ho'
    obtain ⟨o', ho', hv'⟩ := hstep.visited rfl ho hold
    refine ⟨o', ho', ?_⟩
    rw [Bool.eq_iff_iff, hv', hv, decide_eq_true_eq, decide_eq_true_eq, List.mem_append]
  · obtain ⟨hsub, hV⟩ := h.opens seen fun x hx => hseen x (List.mem_append_left _ hx)
    obtain ⟨hsub', hvisits⟩ := operate_open hop fun x hx => hseen x (List.mem_append_right _ hx)
    exact ⟨hsub'.trans hsub, List.append_subset.2 ⟨hV, fun x hx => hsub.subset (hvisits hx)⟩⟩

/-- Labels do not matter to the history. -/
theorem Since.cached {heap : Heap} (h : p.Since P t₀ t V)
    (hc : Cached .prover P.hf p.tree.heap heap) :
    Since P { p with tree := { p.tree with heap := heap } } t₀ t V where
  old := hc.kept h.old
  nodup := h.nodup
  flags := by
    intro x hx
    obtain ⟨o, ho, hv⟩ := h.flags x hx
    obtain ⟨o', ho', _, hv'⟩ := hc.node ho
    exact ⟨o', ho', hv'.trans hv⟩
  opens := h.opens

/-- The old nodes of the tree are nodes of the tree of the last proof. -/
theorem Since.sublist (h : p.Since P t₀ t V) : t.allTags.Sublist t₀.allTags := by
  have := (h.opens (fun _ => true) fun _ _ => rfl).1
  rwa [openTags_true, openTags_true] at this

/-- The tree of the last proof, cut at each node that was not visited. -/
def provenTree (P : TreeParams) (t₀ : Tree) (V : List Ref) : Tree :=
  prune (treeLabel P.hf) (fun x => decide (x ∈ V)) t₀

/-- What a proof leaves behind: all nodes of the tree are old, its history is new, and the tree
of the last proof is still there, with no node visited. -/
structure Renewed (P : TreeParams) (t₀ t' : Tree) (p p' : BatchAVLProver) : Prop where
  stands : p'.Stands P t'
  since : p'.Since P t' t' []
  oldTopNode : p'.oldTopNode = p'.topNode
  records : p'.tree.nav.Records []
  changedNodesBuffer : p'.tree.changedNodesBuffer = []
  changedNodesBufferToCheck : p'.tree.changedNodesBufferToCheck = []
  old : Represents .prover P.hf p'.tree.heap t₀ p.oldTopNode ∅
  unvisited : ∀ y ∈ t₀.allTags, Visited p'.tree.heap y false

/-- **`generateProof`** writes the visited part of the tree of the last proof, and starts a
new history. -/
theorem generateProof_spec (h : p.Stands P t) (hs : p.Since P t₀ t V) :
    ∃ p' t', p.generateProof P = (.ok ((pack P (provenTree P t₀ V) ([], false)).1
          ++ [endOfTreeInPackagedProof] ++ p.tree.nav.directions), p')
      ∧ t'.bare = t.bare ∧ Renewed P t₀ t' p p' := by
  obtain ⟨M, hrep⟩ := h.represents
  have hlt := Nat.lt_succ_of_lt hrep.height_lt
  set start : TreeState ProverNav :=
    { p.tree with changedNodesBuffer := [], changedNodesBufferToCheck := [] } with hstart
  -- the old tree is packed, and no node of it is visited any more
  obtain ⟨h₁, hpack, hun⟩ := packTree_spec (s := start) hs.old hs.nodup hs.flags
    (Nat.lt_succ_of_lt hs.old.height_lt) ([], false)
  have hrep₁ := hun.kept hrep
  have hunseen : ∀ y ∈ t₀.allTags, Visited h₁ y false := by
    intro y hy
    obtain ⟨o, ho, hv⟩ := hs.flags y hy
    obtain ⟨o', ho', _, hv'⟩ := hun.node ho
    refine ⟨o', ho', ?_⟩
    rw [hv', hv]
    by_cases hyV : y ∈ V
    · have hopen := (hs.opens (fun x => decide (x ∈ V)) fun x hx => decide_eq_true hx).2 hyV
      have hwalked : y ∈ walkedTags (fun x => decide (x ∈ V)) t₀ :=
        List.mem_filter.2 ⟨hopen, decide_eq_true hyV⟩
      rw [decide_eq_true hwalked, Bool.not_true, Bool.and_false]
    · rw [decide_eq_false hyV, Bool.false_and]
  -- the new nodes become old
  obtain ⟨h₂, hreset, hon⟩ := resetNew_spec (s := { start with heap := h₁ }) hrep₁ hlt
  obtain ⟨t', hbare, hrep₂, hnodup, htags⟩ := hrep₁.reset hon
    (fun y hy => hrep₁.isNew_footprint hy) (fun _ hy => hy) (hs.sublist.nodup hs.nodup)
  have hclean : ∀ y ∈ t'.allTags, Visited h₂ y false := by
    intro y hy
    by_cases hyM : y ∈ M
    · obtain ⟨o, ho, _⟩ := hrep₁.isNew_footprint hyM
      exact ⟨_, hon.inside hyM ho, rfl⟩
    · obtain ⟨o, ho, hv⟩ := hunseen y (hs.sublist.subset ((htags y hy).resolve_right hyM))
      exact ⟨o, (hon.outside hyM).trans ho, hv⟩
  set final : TreeState ProverNav :=
    { start with
      heap := h₂
      nav := { p.tree.nav with directions := [], directionsBitLength := 0 } } with hfinal
  have hbody : generateProofBody P p p.tree = .ok ((pack P (provenTree P t₀ V) ([], false)).1
        ++ [endOfTreeInPackagedProof] ++ p.tree.nav.directions) final := by
    rw [provenTree]
    generalize pack P (prune (treeLabel P.hf) (fun x => decide (x ∈ V)) t₀) ([], false) = packed
      at hpack ⊢
    obtain ⟨bytes, afterLeaf⟩ := packed
    rw [generateProofBody, bind_ok (modify_ok _ _), bind_ok (get_ok _), bind_ok hpack]
    simp only
    rw [bind_ok (get_ok _), bind_ok hreset]
    rfl
  have hstands : BatchAVLProver.Stands P ⟨final, p.topNode, p.topNode⟩ t' :=
    { represents := ⟨∅, hrep₂⟩
      chain := fun hlt => chain_of_bare hbare (h.chain hlt)
      balanced := balanced_of_bare hbare h.balanced
      height := h.height.trans (congrArg _ (height_eq_of_bare hbare).symm)
      records := ⟨[], .nil rfl rfl⟩
      found := h.found }
  refine ⟨⟨final, p.topNode, p.topNode⟩, t', by rw [generateProof, hbody], hbare, hstands,
    ⟨hrep₂, hnodup, fun y hy => ?_, fun seen _ => ⟨.refl _, List.nil_subset _⟩⟩, rfl, .nil rfl rfl,
    rfl, rfl, ?_, fun y hy => ?_⟩
  · rw [decide_eq_false (List.not_mem_nil)]
    exact hclean y hy
  · have hstep := hon.step fun y hy => hrep₁.isNew_footprint hy
    exact (hun.kept hs.old).step hstep fun y hy => absurd hy (Set.notMem_empty y)
  · obtain ⟨o, ho, hv⟩ := hunseen y hy
    exact ⟨o, (hon.outside (hrep₁.tag_notMem (hun.kept hs.old) hy)).trans ho, hv⟩

end

end BatchAVLProver

end Sparkz.Avl
