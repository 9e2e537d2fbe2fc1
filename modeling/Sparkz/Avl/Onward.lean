import Sparkz.Avl.Speculation

/-!
# The prover on a tree that it did not make

A prover that goes on from a tree which somebody else has used finds nodes that are marked as
visited already.  Its proofs may then hold more of the tree than they have to, and nothing else
is different.

* `Preserves` — trees of old nodes are still there.
* `BatchAVLProver.Onward` — the prover has gone on from a tree of old nodes, and at least the
  nodes that it has visited since are marked; `Lives.onward`, `onTree_onward` — where this starts.
* `Onward.performs`, `Onward.perform`, `Onward.generateProof`, `Onward.digest` — what the calls do.
* `Operates.append` — operations on a tree compose.
-/

namespace Sparkz.Avl

open Sparkz.Lib Sparkz.Lib.LeafTree

/-- The trees whose nodes are all old are still there. -/
def Preserves (P : TreeParams) (heap heap' : Heap) : Prop :=
  ∀ t x, Represents .prover P.hf heap t x ∅ → Represents .prover P.hf heap' t x ∅

/-- The parameters of a prover that collects its changed nodes, or does not. -/
def TreeParams.collecting (P : TreeParams) (collectChangedNodes : Bool) : TreeParams :=
  { P with collectChangedNodes := collectChangedNodes }

section

variable {P : TreeParams} {heap heap₁ heap' : Heap} {t₀ t t' t'' : Tree} {V V' : List Ref}
  {bits bits' : List Bool} {operations operations' : List Operation}
  {outcomes outcomes' : List Outcome} {n : ℕ}

theorem Preserves.refl (P : TreeParams) (heap : Heap) : Preserves P heap heap :=
  fun _ _ h => h

theorem Preserves.trans (h : Preserves P heap heap₁) (h' : Preserves P heap₁ heap') :
    Preserves P heap heap' :=
  fun t x hrep => h' t x (h t x hrep)

/-- A computation that owns new nodes does not touch old trees. -/
theorem Step.preserves {M : Set Ref} {W : List Ref} (h : Step .prover heap heap' M W) :
    Preserves P heap heap' :=
  fun _ _ hrep => hrep.step h fun y hy => absurd hy (Set.notMem_empty y)

/-- Operations on a tree compose. -/
theorem Operates.append (h : Operates P n t operations outcomes bits V t')
    (h' : Operates P (n + bits.length) t' operations' outcomes' bits' V' t'') :
    Operates P n t (operations ++ operations') (outcomes ++ outcomes') (bits ++ bits') (V ++ V')
      t'' := by
  induction h with
  | nil n t => exact h'
  | cons hkey hchain hact hop hheight hroom _ ih =>
    rw [List.length_append, ← Nat.add_assoc] at h'
    have hcons := Operates.cons hkey hchain hact hop hheight hroom (ih h')
    rwa [← List.append_assoc, ← List.append_assoc] at hcons

/-- What is done does not depend on what is collected. -/
theorem Operates.collecting (h : Operates P n t operations outcomes bits V t') (b : Bool) :
    Operates (P.collecting b) n t operations outcomes bits V t' := by
  induction h with
  | nil n t => exact .nil n t
  | cons hkey hchain hact hop hheight hroom _ ih =>
    exact .cons hkey hchain hact hop hheight hroom ih

theorem pack_collecting (P : TreeParams) (b : Bool) (t : Tree) (acc : List UInt8 × Bool) :
    pack (P.collecting b) t acc = pack P t acc := by
  induction t generalizing acc with
  | stub l => rfl
  | leaf tag k v n => rfl
  | node tag k l r b ihl ihr => rw [pack, pack, ihl, ihr]

end

/-! ## Marked nodes -/

/-- The nodes of a tree that are marked as visited. -/
def markedTags (heap : Heap) (t : Tree) : List Ref :=
  t.allTags.filter fun x => ((heap[x]?).map Node.visited).getD false

section

variable {P : TreeParams} {heap : Heap} {t : Tree} {x : Ref} {M : Set Ref}

theorem mem_markedTags (hr : Represents .prover P.hf heap t x M) {y : Ref} (hy : y ∈ t.allTags) :
    Visited heap y (decide (y ∈ markedTags heap t)) := by
  obtain ⟨o, ho, _⟩ := hr.isNew_tag hy
  refine ⟨o, ho, ?_⟩
  rw [Bool.eq_iff_iff, decide_eq_true_eq, markedTags, List.mem_filter, ho]
  exact (and_iff_right hy).symm

theorem subset_markedTags {V : List Ref} (hV : V ⊆ t.allTags)
    (hmarked : ∀ y ∈ V, Visited heap y true) : V ⊆ markedTags heap t := by
  intro y hy
  obtain ⟨o, ho, hv⟩ := hmarked y hy
  refine List.mem_filter.2 ⟨hV hy, ?_⟩
  rw [ho]
  exact hv

end

namespace BatchAVLProver

/-- **The prover has gone on** from the tree `t₀`, whose nodes are all old, to the tree `t`.  The
nodes `V` that it visited on the way are marked, and perhaps others are. -/
structure Onward (P : TreeParams) (p : BatchAVLProver) (t₀ t : Tree) (V : List Ref) : Prop where
  stands : p.Stands P t
  allowed : Allowed P t
  old : Represents .prover P.hf p.tree.heap t₀ p.oldTopNode ∅
  nodup : t₀.allTags.Nodup
  marked : ∀ x ∈ V, Visited p.tree.heap x true
  opens : ∀ seen : Ref → Bool, (∀ x ∈ V, seen x = true) → Opens seen t V (t₀.openTags seen)

section

variable {P : TreeParams} {p p' : BatchAVLProver} {t₀ t t' : Tree} {V : List Ref}
  {bits path : List Bool} {visits : List Ref} {m : SortedMap ADKey ADValue} {operation : Operation}

/-- The nodes that were visited are nodes of the tree that the prover went on from. -/
theorem Onward.subset (h : p.Onward P t₀ t V) : V ⊆ t₀.allTags := by
  have hV := (h.opens (fun _ => true) fun _ _ => rfl).2
  rwa [openTags_true] at hV

theorem Onward.sublist (h : p.Onward P t₀ t V) : t.allTags.Sublist t₀.allTags := by
  have hsub := (h.opens (fun _ => true) fun _ _ => rfl).1
  rwa [openTags_true, openTags_true] at hsub

/-- A prover with a history has gone on from the tree of its last proof. -/
theorem Lives.onward (h : p.Lives P t₀ t V) : p.Onward P t₀ t V where
  stands := h.stands
  allowed := h.allowed
  old := h.since.old
  nodup := h.since.nodup
  marked := by
    intro x hx
    have hV := (h.since.opens (fun _ => true) fun _ _ => rfl).2
    rw [openTags_true] at hV
    have hflag := h.since.flags x (hV hx)
    rwa [decide_eq_true hx] at hflag
  opens := h.since.opens

/-- A prover that is made on a tree of old nodes goes on from it. -/
theorem Onward.onTree {heap : Heap} {root : Ref} (h : p.Onward P t₀ t V)
    (hrep : Represents .prover P.hf heap t root ∅) (hnodup : t.allTags.Nodup) :
    (BatchAVLProver.onTree heap root t.height).Onward P t t [] where
  stands := ⟨⟨∅, hrep⟩, h.stands.chain, h.stands.balanced, rfl, ⟨[], .nil rfl rfl⟩, rfl⟩
  allowed := h.allowed
  old := hrep
  nodup := hnodup
  marked := by simp
  opens := fun _ _ => ⟨.refl _, List.nil_subset _⟩

/-- Whether changed nodes are collected does not matter. -/
theorem Onward.collecting (h : p.Onward P t₀ t V) (b : Bool) :
    p.Onward (P.collecting b) t₀ t V where
  stands := ⟨h.stands.represents, h.stands.chain, h.stands.balanced, h.stands.height,
    h.stands.records, h.stands.found⟩
  allowed := ⟨h.allowed.sentinel, h.allowed.values, h.allowed.single⟩
  old := h.old
  nodup := h.nodup
  marked := h.marked
  opens := h.opens

/-- Labels do not matter. -/
theorem Onward.cached {heap : Heap} (h : p.Onward P t₀ t V)
    (hc : Cached .prover P.hf p.tree.heap heap) :
    Onward P { p with tree := { p.tree with heap := heap } } t₀ t V where
  stands := h.stands.cached hc
  allowed := h.allowed
  old := hc.kept h.old
  nodup := h.nodup
  marked := by
    intro x hx
    obtain ⟨o, ho, hv⟩ := h.marked x hx
    obtain ⟨o', ho', _, hv'⟩ := hc.node ho
    exact ⟨o', ho', hv'.trans hv⟩
  opens := h.opens

/-- The digest is that of the tree. -/
theorem Onward.digest (h : p.Onward P t₀ t V) :
    ∃ p', p.digest P = (treeDigest P t, p') ∧ p'.Onward P t₀ t V ∧ p'.tree.nav = p.tree.nav
      ∧ Preserves P p.tree.heap p'.tree.heap := by
  obtain ⟨heap, hrun, hcached⟩ := digest_cached h.stands
  exact ⟨_, hrun, h.cached hcached, rfl, fun _ _ hrep => hcached.kept hrep⟩

/-! ## Operations -/

theorem Onward.refused (h : p.Onward P t₀ t V) (hp : Refused bits p p') :
    p'.Onward P t₀ t V where
  stands := hp.stands h.stands
  allowed := h.allowed
  old := by
    rw [hp.heap, hp.oldTopNode]
    exact h.old
  nodup := h.nodup
  marked := by
    rw [hp.heap]
    exact h.marked
  opens := h.opens

/-- The nodes that an operation visits are marked too, and no mark is taken away. -/
theorem Onward.performed (h : p.Onward P t₀ t V) (hp : Performed P bits path visits t t' p p')
    (hallowed : Allowed P t') {act : Option (Action ADKey ADValue)} {dh : ℤ}
    (hop : operate t path act = some (t', dh, visits)) : p'.Onward P t₀ t' (V ++ visits) := by
  obtain ⟨M, _, hstep, _⟩ := hp.yields
  have hopens : ∀ seen : Ref → Bool, (∀ x ∈ V ++ visits, seen x = true) →
      Opens seen t' (V ++ visits) (t₀.openTags seen) := by
    intro seen hseen
    obtain ⟨hsub, hV⟩ := h.opens seen fun x hx => hseen x (List.mem_append_left _ hx)
    obtain ⟨hsub', hvisits⟩ := operate_open hop fun x hx => hseen x (List.mem_append_right _ hx)
    exact ⟨hsub'.trans hsub, List.append_subset.2 ⟨hV, fun x hx => hsub.subset (hvisits hx)⟩⟩
  refine ⟨hp.stands, hallowed, ?_, h.nodup, fun x hx => ?_, hopens⟩
  · rw [hp.oldTopNode]
    exact hstep.preserves _ _ h.old
  · have htags := (hopens (fun _ => true) fun _ _ => rfl).2
    rw [openTags_true] at htags
    -- a node that was marked before is an old node, as is one that is visited now
    obtain ⟨o, ho, hold⟩ := h.old.isNew_tag (htags hx)
    obtain ⟨o', ho', hv⟩ := hstep.visited rfl ho hold
    refine ⟨o', ho', hv.2 ((List.mem_append.1 hx).imp (fun hxV => ?_) id)⟩
    obtain ⟨o₁, ho₁, hv₁⟩ := h.marked x hxV
    rw [ho] at ho₁
    cases ho₁
    exact hv₁

/-- An operation that can be done to the tree is performed, as long as its bits are counted. -/
theorem Onward.performs (h : p.Onward P t₀ t V) (hrec : p.tree.nav.Records bits)
    (hm : TreeHolds P t m) {operation : Operation} (hkey : P.InRange operation.key)
    (hcount : bits.length + (searchPath operation.key false t).length ≤ 2 ^ 31)
    {act : Option (Action ADKey ADValue)}
    (hact : leafAction P operation (t.get operation.key) = .ok act) :
    ∃ m' t' dh visits p', p.performOneOperation P operation = (.ok (m.get operation.key), p')
      ∧ operate t (searchPath operation.key false t) act = some (t', dh, visits)
      ∧ (t'.height : ℤ) = t.height + dh
      ∧ mapStep P m operation = some m' ∧ TreeHolds P t' m' ∧ p'.Onward P t₀ t' (V ++ visits)
      ∧ p'.tree.nav.Records (bits ++ searchPath operation.key false t)
      ∧ Preserves P p.tree.heap p'.tree.heap := by
  have hget := hm.get_of_ne hkey.1.ne'
  have hchain := h.stands.chain (hkey.1.trans hkey.2.1)
  obtain ⟨t', dh, visits, hop, hheight, hdone⟩ :=
    operate_spec hchain h.stands.balanced hkey.1 hkey.2.1 hact
  obtain ⟨p', hrun, hp⟩ := performOneOperation_performed h.stands hrec hcount hkey hact hop
  have hallowed := h.allowed.operated hkey hact hdone
  rw [hget] at hact
  obtain ⟨m', hstep, hself, hother⟩ := mapStep_of_leafAction hkey hact
  rw [← hget] at hself
  have hm' : TreeHolds P t' m' := hm.changed hchain hallowed hdone.chain hkey.1.ne'
    (hdone.get_self.trans hself.symm) hdone.get_other hother
  rw [hget] at hrun
  obtain ⟨M, _, hyields, _⟩ := hp.yields
  exact ⟨m', t', dh, visits, p', hrun, hop, hheight, hstep, hm', h.performed hp hallowed hop,
    hp.records, hyields.preserves⟩

/-- **One operation**: the map refuses it, and so does the prover; or both perform it. -/
theorem Onward.perform (h : p.Onward P t₀ t V) (hrec : p.tree.nav.Records bits)
    (hm : TreeHolds P t m) (operation : Operation) (hroom : p.HasRoom operation) :
    (∃ e p', p.performOneOperation P operation = (.error e, p') ∧ e.isRefusal = true
      ∧ mapStep P m operation = none ∧ p'.Onward P t₀ t V ∧ p'.tree.nav.Records bits
      ∧ Preserves P p.tree.heap p'.tree.heap)
    ∨ ∃ m' t' more visits p', p.performOneOperation P operation = (.ok (m.get operation.key), p')
      ∧ mapStep P m operation = some m' ∧ TreeHolds P t' m' ∧ p'.Onward P t₀ t' (V ++ visits)
      ∧ p'.tree.nav.Records (bits ++ more) ∧ Preserves P p.tree.heap p'.tree.heap
      ∧ Operates P bits.length t [operation]
        [⟨operation, m.get operation.key, treeDigest P t'⟩] more visits t' := by
  by_cases hkey : P.InRange operation.key
  · have hget := hm.get_of_ne hkey.1.ne'
    have hchain := h.stands.chain (hkey.1.trans hkey.2.1)
    have hfits := h.stands.room hrec hroom
    cases hact : leafAction P operation (t.get operation.key) with
    | error e =>
      obtain ⟨p', hrun, hp⟩ := performOneOperation_refused h.stands hrec hroom hkey hact
      rw [hget] at hact
      refine .inl ⟨e, p', hrun, leafAction_refusal hact, mapStep_of_refused hact, h.refused hp,
        hp.records, ?_⟩
      rw [hp.heap]
      exact .refl P _
    | ok act =>
      obtain ⟨m', t', dh, visits, p', hrun, hop, hheight, hstep, hm', hp, hrec', hkept⟩ :=
        h.performs hrec hm hkey (by omega) hact
      have hops : Operates P bits.length t [operation] _ _ _ t' :=
        .cons hkey hchain hact hop hheight hfits (.nil _ t')
      rw [List.append_nil, List.append_nil, hget] at hops
      exact .inr ⟨m', t', _, visits, p', hrun, hstep, hm', hp, hrec', hkept, hops⟩
  · obtain ⟨e, p', hrun, he, hp⟩ := performOneOperation_outside h.stands hrec hroom hkey
    refine .inl ⟨e, p', hrun, he, if_pos hkey, h.refused hp, hp.records, ?_⟩
    rw [hp.heap]
    exact .refl P _

/-- Lookups are those of the map. -/
theorem Onward.unauthenticatedLookup (h : p.Onward P t₀ t V) (hm : TreeHolds P t m)
    (key : ADKey) :
    ∃ old, p.unauthenticatedLookup key = .ok old ∧ (P.InRange key → old = m.get key) := by
  obtain ⟨M, hrep⟩ := h.stands.represents
  obtain ⟨k, v, n, hleaf, hwalk⟩ :=
    lookupWalk_spec hrep (Nat.lt_succ_of_lt hrep.height_lt) key false
  refine ⟨_, hwalk, fun hkey => ?_⟩
  have hchain := h.stands.chain (hkey.1.trans hkey.2.1)
  rw [Bool.false_or, ← hm.get_of_ne hkey.1.ne', get_of_search hchain hkey.1 hkey.2.1 hleaf]

/-- The tree passes its check, if the flags are not asked for. -/
theorem Onward.checkTree (h : p.Onward P t₀ t V) : p.checkTree P false = .ok () := by
  obtain ⟨M, hrep⟩ := h.stands.represents
  have hclean : false = true → M = ∅ ∧ ∀ y ∈ t.allTags, Visited p.tree.heap y false :=
    fun hfalse => by cases hfalse
  have hchecked : ∃ next key, checkTreeHelper p.tree.heap false (p.tree.heap.length + 1) p.topNode
      = .ok ⟨⟨P.negativeInfinityKey, next⟩, ⟨key, P.positiveInfinityKey⟩, t.height, true⟩ := by
    by_cases hlt : P.negativeInfinityKey < P.positiveInfinityKey
    · exact checkTreeHelper_spec hrep (h.stands.chain hlt) h.stands.balanced
        (Nat.lt_succ_of_lt hrep.height_lt) false hclean
    · have hsingle := h.allowed.single hlt
      cases t with
      | stub l => cases hsingle
      | node tag k l r b => cases hsingle
      | leaf tag k v n =>
        cases hsingle
        exact ⟨_, _, checkTreeHelper_leaf hrep _ false hclean⟩
  obtain ⟨next, key, hrun⟩ := hchecked
  rw [BatchAVLProver.checkTree, hrun]
  exact if_pos ⟨rfl, rfl, h.stands.height.symm, rfl⟩

/-! ## Proofs -/

/-- **A proof** holds the marked part of the tree that the prover went on from, and with it all
that was visited.  The prover goes on from its present tree, whose nodes are now all old. -/
theorem Onward.generateProof (h : p.Onward P t₀ t V) :
    ∃ V' p' t', V ⊆ V' ∧ p.generateProof P = (.ok ((pack P (provenTree P t₀ V') ([], false)).1
          ++ [endOfTreeInPackagedProof] ++ p.tree.nav.directions), p')
      ∧ t'.bare = t.bare ∧ p'.Onward P t' t' [] ∧ p'.tree.nav.Records []
      ∧ Represents .prover P.hf p'.tree.heap t' p.topNode ∅
      ∧ Preserves P p.tree.heap p'.tree.heap := by
  obtain ⟨M, hrep⟩ := h.stands.represents
  have hlt := Nat.lt_succ_of_lt hrep.height_lt
  set V' := markedTags p.tree.heap t₀ with hV'
  set start : TreeState ProverNav :=
    { p.tree with changedNodesBuffer := [], changedNodesBufferToCheck := [] } with hstart
  -- the tree is packed as far as it is marked
  obtain ⟨h₁, hpack, hun⟩ := packTree_spec (s := start) h.old h.nodup
    (fun _ hy => mem_markedTags h.old hy) (Nat.lt_succ_of_lt h.old.height_lt) ([], false)
  have hrep₁ := hun.kept hrep
  -- the new nodes become old
  obtain ⟨h₂, hreset, hon⟩ := resetNew_spec (s := { start with heap := h₁ }) hrep₁ hlt
  obtain ⟨t', hbare, hrep₂, hnodup, _⟩ := hrep₁.reset hon
    (fun y hy => hrep₁.isNew_footprint hy) (fun _ hy => hy) (h.sublist.nodup h.nodup)
  set final : TreeState ProverNav :=
    { start with
      heap := h₂
      nav := { p.tree.nav with directions := [], directionsBitLength := 0 } } with hfinal
  have hbody : generateProofBody P p p.tree = .ok ((pack P (provenTree P t₀ V') ([], false)).1
        ++ [endOfTreeInPackagedProof] ++ p.tree.nav.directions) final := by
    rw [provenTree]
    generalize pack P (prune (treeLabel P.hf) (fun x => decide (x ∈ V')) t₀) ([], false) = packed
      at hpack ⊢
    obtain ⟨bytes, afterLeaf⟩ := packed
    rw [generateProofBody, bind_ok (modify_ok _ _), bind_ok (get_ok _), bind_ok hpack]
    simp only
    rw [bind_ok (get_ok _), bind_ok hreset]
    rfl
  have hstands : BatchAVLProver.Stands P ⟨final, p.topNode, p.topNode⟩ t' :=
    { represents := ⟨∅, hrep₂⟩
      chain := fun hlt => chain_of_bare hbare (h.stands.chain hlt)
      balanced := balanced_of_bare hbare h.stands.balanced
      height := h.stands.height.trans (congrArg _ (height_eq_of_bare hbare).symm)
      records := ⟨[], .nil rfl rfl⟩
      found := h.stands.found }
  have hstep := hon.step fun y hy => hrep₁.isNew_footprint hy
  exact ⟨V', ⟨final, p.topNode, p.topNode⟩, t', subset_markedTags h.subset h.marked,
    by rw [BatchAVLProver.generateProof, hbody], hbare,
    { stands := hstands
      allowed := h.allowed.of_bare hbare
      old := hrep₂
      nodup := hnodup
      marked := fun x hx => absurd hx List.not_mem_nil
      opens := fun seen _ => ⟨.refl _, List.nil_subset _⟩ },
    .nil rfl rfl, hrep₂, fun t x hold => hstep.preserves t x (hun.kept hold)⟩

end

end BatchAVLProver

end Sparkz.Avl
