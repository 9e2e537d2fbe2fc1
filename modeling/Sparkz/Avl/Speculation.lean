import Sparkz.Avl.Completeness
import Sparkz.Avl.FailedOperations
import Sparkz.Avl.LabelCaching
import Sparkz.Avl.Soundness

/-!
# Proofs for operations that are not performed

`generateProofForOperations` lets a new prover work on the nodes of the prover itself.

* `Operates` — operations on a tree one after another, with the tree after them;
  `Lives.exists_operates`, `Lives.operates` — a prover performs what its map accepts.
* `AtRest` — nothing was performed since the last proof; `AtRest.speculate` — then operations
  that all succeed leave the prover at rest and no node visited, `AtRest.speculated` — and any
  others leave nodes visited at most; `Lives.speculate_refused` — a first operation that is refused
  leaves any prover as it is.
* `Careful`, `Kept` — runs that ask for proofs in certain cases only, and what holds along them.
* `permitted`, `speculation_unseen` — in these cases nobody sees that a proof was asked for, and
  the proof verifies; `not_unseen` — else the digest and the next proof may change.
-/

namespace Sparkz.Avl

open Sparkz.Lib Sparkz.Lib.LeafTree

/-! ## Operations one after another -/

/-- Operations on a tree, one after another, when `n` bits were recorded before: their outcomes,
their directions, for which there is room, the old nodes that they visit, and the tree after
them. -/
inductive Operates (P : TreeParams) :
    ℕ → Tree → List Operation → List Outcome → List Bool → List Ref → Tree → Prop
  | nil (n : ℕ) (t : Tree) : Operates P n t [] [] [] [] t
  | cons {n : ℕ} {t t' t'' : Tree} {operation : Operation} {act : Option (Action ADKey ADValue)}
      {dh : ℤ} {visits V : List Ref} {operations : List Operation} {outcomes : List Outcome}
      {bits : List Bool} :
      P.InRange operation.key → Chain P.negativeInfinityKey P.positiveInfinityKey t →
      leafAction P operation (t.get operation.key) = .ok act →
      operate t (searchPath operation.key false t) act = some (t', dh, visits) →
      (t'.height : ℤ) = t.height + dh →
      n + (searchPath operation.key false t).length + 14 < 2 ^ 31 →
      Operates P (n + (searchPath operation.key false t).length) t' operations outcomes bits V t'' →
      Operates P n t (operation :: operations)
        (⟨operation, t.get operation.key, treeDigest P t'⟩ :: outcomes)
        (searchPath operation.key false t ++ bits) (visits ++ V) t''

section

variable {P : TreeParams} {t₀ t t' : Tree} {V V' : List Ref} {bits bits' : List Bool} {n : ℕ}
  {operations : List Operation} {outcomes : List Outcome} {m m' : SortedMap ADKey ADValue}
  {olds : List (Option ADValue)} {p : BatchAVLProver}

theorem Operates.batch (h : Operates P n t operations outcomes bits V t') :
    Batch P t outcomes bits V := by
  induction h with
  | nil n t => exact .nil t
  | cons hkey hchain hact hop hheight _ _ ih => exact .cons hkey hchain hact hop hheight ih

theorem Operates.operations_eq (h : Operates P n t operations outcomes bits V t') :
    outcomes.map Outcome.operation = operations := by
  induction h with
  | nil n t => rfl
  | cons _ _ _ _ _ _ _ ih => rw [List.map_cons, ih]

/-- A prover that collects no changed nodes does the same. -/
theorem Operates.of_speculative
    (h : Operates (BatchAVLProver.speculativeParams P) n t operations outcomes bits V t') :
    Operates P n t operations outcomes bits V t' := by
  induction h with
  | nil n t => exact .nil n t
  | cons hkey hchain hact hop hheight hroom _ ih =>
    exact .cons hkey hchain hact hop hheight hroom ih

namespace BatchAVLProver

/-- What the map accepts can be done to the tree, if there is room for the bits. -/
theorem Lives.exists_operates (h : p.Lives P t₀ t V) (hrec : p.tree.nav.Records bits)
    (hroom : HasRoomAll P operations p) (hm : TreeHolds P t m)
    (hmap : mapRun P operations m = some (olds, m')) :
    ∃ outcomes bits' V' t', Operates P bits.length t operations outcomes bits' V' t' := by
  induction operations generalizing p t V m olds bits with
  | nil => exact ⟨[], [], [], t, .nil _ t⟩
  | cons operation operations ih =>
    obtain ⟨m₁, hstep, hmap⟩ := Option.bind_eq_some_iff.1 hmap
    obtain ⟨⟨olds₁, m₂⟩, hrest, hpair⟩ := Option.map_eq_some_iff.1 hmap
    cases hpair
    obtain ⟨hfirst, hlater⟩ := hroom
    obtain ⟨p', t', V', hrun', h', hm'⟩ := h.perform hm hfirst hstep
    rcases h.step hrec hfirst with ⟨e, p₁, hrun, _⟩
      | ⟨hkey, act, t₁, dh, visits, p₁, hact, hop, hheight, _, hrun, h₁, hrec₁⟩
    · rw [hrun'] at hrun
      cases hrun
    · obtain rfl : p' = p₁ := congrArg Prod.snd (hrun'.symm.trans hrun)
      rw [hrun] at hlater
      obtain ⟨outcomes, bits', V₂, t₂, hops⟩ :=
        ih h₁ hrec₁ hlater (h₁.treeHolds (h'.maps hm')) hrest
      rw [List.length_append] at hops
      exact ⟨_, _, _, _, .cons hkey (h.stands.chain (hkey.1.trans hkey.2.1)) hact hop hheight
        (h.stands.room hrec hfirst) hops⟩

/-- What the calls of operations do to a prover. -/
structure Performs (P : TreeParams) (operations : List Operation) (outcomes : List Outcome)
    (p p' : BatchAVLProver) : Prop where
  performAll : performAll P operations p = (.ok (), p')
  run : run P (operations.map .performOneOperation) p = some p'
  performed : p.performed P (operations.map .performOneOperation) = outcomes

/-- **A prover performs** what can be done to its tree. -/
theorem Lives.operates (hops : Operates P n t operations outcomes bits' V' t')
    (h : p.Lives P t₀ t V) (hrec : p.tree.nav.Records bits) (hn : bits.length = n) :
    ∃ p', Performs P operations outcomes p p' ∧ p'.Lives P t₀ t' (V ++ V')
      ∧ p'.tree.nav.Records (bits ++ bits') := by
  induction hops generalizing p V bits with
  | nil n t =>
    refine ⟨p, ⟨rfl, rfl, rfl⟩, ?_, ?_⟩
    · rwa [List.append_nil]
    · rwa [List.append_nil]
  | @cons n t t₁ t₂ operation act dh visits V₂ operations outcomes bits₂ hkey _ hact hop _ hfits _
      ih =>
    have hroom : p.HasRoom operation := (h.stands.hasRoom_iff hrec).2 (hn ▸ hfits)
    rcases h.step hrec hroom with ⟨e, p₁, _, _, he, _⟩
      | ⟨_, act', t₁', dh', visits', p₁, hact', hop', _, _, hrun, h₁, hrec₁⟩
    · rw [he hkey] at hact
      cases hact
    · rw [hact] at hact'
      cases hact'
      rw [hop] at hop'
      cases hop'
      obtain ⟨p', hp', h', hrec'⟩ := ih h₁ hrec₁ (by rw [List.length_append, hn])
      obtain ⟨p₂, hdigest, _⟩ := h₁.digest
      have hcall : p.call P (.performOneOperation operation)
          = (.ok (.value (t.get operation.key)), p₁) := by
        rw [BatchAVLProver.call, hrun]
        rfl
      refine ⟨p', ⟨?_, ?_, ?_⟩, ?_, ?_⟩
      · rw [BatchAVLProver.performAll, hrun]
        exact hp'.performAll
      · rw [List.map_cons, BatchAVLProver.run, hcall]
        exact hp'.run
      · rw [List.map_cons, BatchAVLProver.performed, hcall, outcome, hrun]
        simp only [hdigest, hp'.performed]
        rfl
      · rwa [← List.append_assoc]
      · rwa [← List.append_assoc]

/-- A prover lives after operations, whether or not one of them is refused. -/
theorem Lives.performAll (h : p.Lives P t₀ t V) (hrec : p.tree.nav.Records bits)
    (hroom : HasRoomAll P operations p) :
    ∃ t' V', (performAll P operations p).2.Lives P t₀ t' (V ++ V') := by
  induction operations generalizing p t V bits with
  | nil =>
    refine ⟨t, [], ?_⟩
    rwa [List.append_nil]
  | cons operation operations ih =>
    obtain ⟨hfirst, hlater⟩ := hroom
    rw [BatchAVLProver.performAll]
    rcases h.step hrec hfirst with ⟨e, p₁, hrun, _, _, h₁, _⟩
      | ⟨_, act, t₁, dh, visits, p₁, _, _, _, _, hrun, h₁, hrec₁⟩
    · rw [hrun]
      refine ⟨t, [], ?_⟩
      rwa [List.append_nil]
    · rw [hrun] at hlater ⊢
      obtain ⟨t', V', h'⟩ := ih h₁ hrec₁ hlater
      rw [List.append_assoc] at h'
      exact ⟨t', visits ++ V', h'⟩

/-! ## A prover at rest -/

/-- **The prover is at rest**: nothing was performed since the last proof.  Some nodes of its tree
may be visited, by operations on it that were not performed. -/
structure AtRest (P : TreeParams) (p : BatchAVLProver) (t : Tree) (V : List Ref) : Prop where
  lives : p.Lives P t t V
  oldTopNode : p.oldTopNode = p.topNode
  records : p.tree.nav.Records []
  changedNodesBuffer : p.tree.changedNodesBuffer = []
  changedNodesBufferToCheck : p.tree.changedNodesBufferToCheck = []

theorem new_atRest (P : TreeParams) : AtRest P (BatchAVLProver.new P) (firstTree P) [] where
  lives := new_lives P
  oldTopNode := rfl
  records := .nil rfl rfl
  changedNodesBuffer := rfl
  changedNodesBufferToCheck := rfl

/-- Rest does not depend on more of the nodes than those of the tree. -/
theorem AtRest.onHeap {heap : Heap} (h : AtRest P p t V)
    (hold : Represents .prover P.hf heap t p.oldTopNode ∅)
    (hflags : ∀ y ∈ t.allTags, Visited heap y (decide (y ∈ V')))
    (hopens : ∀ seen : Ref → Bool, (∀ x ∈ V', seen x = true) → V' ⊆ t.openTags seen) :
    AtRest P { p with tree := { p.tree with heap := heap } } t V' where
  lives :=
    { stands := ⟨⟨∅, h.oldTopNode ▸ hold⟩, h.lives.stands.chain, h.lives.stands.balanced,
        h.lives.stands.height, h.lives.stands.records, h.lives.stands.found⟩
      since := ⟨hold, h.lives.since.nodup, hflags, fun seen hseen => ⟨.refl _, hopens seen hseen⟩⟩
      allowed := h.lives.allowed }
  oldTopNode := h.oldTopNode
  records := h.records
  changedNodesBuffer := h.changedNodesBuffer
  changedNodesBufferToCheck := h.changedNodesBufferToCheck

theorem AtRest.cached {heap : Heap} (h : AtRest P p t V)
    (hc : Cached .prover P.hf p.tree.heap heap) :
    AtRest P { p with tree := { p.tree with heap := heap } } t V :=
  h.onHeap (hc.kept h.lives.since.old) (h.lives.cached hc).since.flags
    fun seen hseen => (h.lives.since.opens seen hseen).2

/-- The prover that `generateProofForOperations` makes is at rest too. -/
theorem AtRest.newProver (h : AtRest P p t V) : AtRest (speculativeParams P) p.newProver t V := by
  have hold : Represents .prover P.hf p.tree.heap t p.topNode ∅ := h.oldTopNode ▸ h.lives.since.old
  exact
    { lives :=
        { stands := ⟨h.lives.stands.represents, h.lives.stands.chain, h.lives.stands.balanced,
            h.lives.stands.height, ⟨[], .nil rfl rfl⟩, rfl⟩
          since := ⟨hold, h.lives.since.nodup, h.lives.since.flags, h.lives.since.opens⟩
          allowed := ⟨h.lives.allowed.sentinel, h.lives.allowed.values, h.lives.allowed.single⟩ }
      oldTopNode := rfl
      records := .nil rfl rfl
      changedNodesBuffer := rfl
      changedNodesBufferToCheck := rfl }

theorem performAll_oldTopNode (P : TreeParams) (operations : List Operation) (p : BatchAVLProver) :
    (performAll P operations p).2.oldTopNode = p.oldTopNode := by
  induction operations generalizing p with
  | nil => rfl
  | cons operation operations ih =>
    have hold : (p.performOneOperation P operation).2.oldTopNode = p.oldTopNode := by
      rw [performOneOperation_eq]
      cases operationBody P operation p.topNode (startOperation p.tree) with
      | ok res s => rfl
      | error e s => exact undoOperation_oldTopNode p e s
    rw [performAll]
    cases hrun : p.performOneOperation P operation with
    | mk res p' =>
      rw [hrun] at hold
      cases res with
      | error e => exact hold
      | ok old => exact (ih p').trans hold

theorem pack_speculativeParams (P : TreeParams) (t : Tree) (acc : List UInt8 × Bool) :
    pack (speculativeParams P) t acc = pack P t acc := by
  induction t generalizing acc with
  | stub l => rfl
  | leaf tag k v n => rfl
  | node tag k l r b ihl ihr => rw [pack, pack, ihl, ihr]

theorem mapRun_speculativeParams (P : TreeParams) (operations : List Operation)
    (m : SortedMap ADKey ADValue) :
    mapRun (speculativeParams P) operations m = mapRun P operations m := by
  induction operations generalizing m with
  | nil => rfl
  | cons operation operations ih =>
    rw [mapRun, mapRun]
    simp only [ih]
    rfl

/-- **At rest**, when the new prover has performed the operations, they are proved, and no node of
the tree is visited any more. -/
theorem AtRest.proved (h : AtRest P p t V) {q : BatchAVLProver}
    (hall : BatchAVLProver.performAll (speculativeParams P) operations p.newProver = (.ok (), q))
    (hq : q.Lives (speculativeParams P) t t' V') :
    ∃ heap, p.generateProofForOperations P operations
        = ((treeDigest P t').map fun d => ((pack P (provenTree P t V') ([], false)).1
            ++ [endOfTreeInPackagedProof] ++ q.tree.nav.directions, d),
          { p with tree := { p.tree with heap := heap } })
      ∧ AtRest P { p with tree := { p.tree with heap := heap } } t [] := by
  -- the new prover makes its proof, and computes its digest
  obtain ⟨p₂, t₂, hproof, hbare, hnew⟩ := generateProof_spec hq.stands hq.since
  obtain ⟨heap, hdigest, hcached⟩ := digest_cached hnew.stands
  have hold : q.oldTopNode = p.topNode := by
    have := performAll_oldTopNode (speculativeParams P) operations p.newProver
    rwa [hall] at this
  refine ⟨heap, ?_, h.onHeap ?_ (fun y hy => ?_) fun _ _ => List.nil_subset _⟩
  · have hlabel : treeLabel (speculativeParams P).hf t₂ = treeLabel P.hf t' :=
      treeLabel_of_bare P.hf hbare
    rw [height_eq_of_bare hbare, hlabel] at hdigest
    rw [pack_speculativeParams] at hproof
    rw [generateProofForOperations, BatchAVLProver.speculate, hall]
    simp only
    rw [hproof]
    simp only
    rw [hdigest, treeDigest]
    by_cases hlt : t'.height < 256
    · simp only [if_pos hlt]
      rfl
    · simp only [if_neg hlt]
      rfl
  · rw [h.oldTopNode, ← hold]
    exact hcached.kept hnew.old
  · obtain ⟨o, ho, hv⟩ := hnew.unvisited y hy
    obtain ⟨o', ho', _, hv'⟩ := hcached.node ho
    rw [decide_eq_false List.not_mem_nil]
    exact ⟨o', ho', hv'.trans hv⟩

/-- **At rest**, operations that succeed are proved, and the prover stays at rest. -/
theorem AtRest.speculate (h : AtRest P p t []) (hroom : HasRoomAll (speculativeParams P)
      operations p.newProver) (hm : TreeHolds P t m)
    (hmap : mapRun P operations m = some (olds, m')) :
    ∃ outcomes bits V t' directions heap, Operates P 0 t operations outcomes bits V t'
      ∧ Packs directions bits
      ∧ p.generateProofForOperations P operations
        = ((treeDigest P t').map fun d => ((pack P (provenTree P t V) ([], false)).1
            ++ [endOfTreeInPackagedProof] ++ directions, d),
          { p with tree := { p.tree with heap := heap } })
      ∧ AtRest P { p with tree := { p.tree with heap := heap } } t [] := by
  have hnew := h.newProver
  rw [← mapRun_speculativeParams] at hmap
  obtain ⟨outcomes, bits, V, t', hops⟩ := hnew.lives.exists_operates hnew.records hroom hm hmap
  obtain ⟨q, hperforms, hq, hrec⟩ := hnew.lives.operates hops hnew.records rfl
  obtain ⟨heap, hcall, hrest⟩ := h.proved hperforms.performAll hq
  exact ⟨outcomes, bits, V, t', _, heap, hops.of_speculative, hrec.packs, hcall, hrest⟩

/-- **At rest**, any operations leave the prover at rest, maybe with more nodes visited. -/
theorem AtRest.speculated (h : AtRest P p t V)
    (hroom : HasRoomAll (speculativeParams P) operations p.newProver) :
    ∃ V', AtRest P (p.generateProofForOperations P operations).2 t V' := by
  have hnew := h.newProver
  obtain ⟨t', V', hq⟩ := hnew.lives.performAll hnew.records hroom
  have hold := performAll_oldTopNode (speculativeParams P) operations p.newProver
  cases hall : BatchAVLProver.performAll (speculativeParams P) operations p.newProver with
  | mk res q =>
    rw [hall] at hq hold
    cases res with
    | ok u =>
      obtain ⟨heap, hcall, hrest⟩ := h.proved hall hq
      rw [hcall]
      exact ⟨[], hrest⟩
    | error e =>
      -- no proof takes back the flags that the operations before the refused one have set
      rw [generateProofForOperations, BatchAVLProver.speculate, hall]
      refine ⟨V ++ V', h.onHeap ?_ hq.since.flags fun seen hseen =>
        (hq.since.opens seen hseen).2⟩
      rw [h.oldTopNode, ← show q.oldTopNode = p.topNode from hold]
      exact hq.since.old

/-- **In any state**, a first operation that is refused leaves no trace. -/
theorem Lives.speculate_refused (h : p.Lives P t₀ t V) {operation : Operation}
    (hroom : HasRoomAll (speculativeParams P) (operation :: operations) p.newProver)
    (hm : TreeHolds P t m) (hstep : mapStep P m operation = none) :
    ∃ e, p.generateProofForOperations P (operation :: operations) = (.error e, p) := by
  have hstands : p.newProver.Stands (speculativeParams P) t :=
    ⟨h.stands.represents, h.stands.chain, h.stands.balanced, h.stands.height,
      ⟨[], .nil rfl rfl⟩, rfl⟩
  have hrec : p.newProver.tree.nav.Records [] := .nil rfl rfl
  have hrefused : ∃ e p₁,
      p.newProver.performOneOperation (speculativeParams P) operation = (.error e, p₁)
        ∧ Refused [] p.newProver p₁ := by
    by_cases hkey : P.InRange operation.key
    · cases hact : leafAction P operation (t.get operation.key) with
      | error e =>
        obtain ⟨p₁, hrun, hp⟩ := performOneOperation_refused hstands hrec hroom.1 hkey hact
        exact ⟨e, p₁, hrun, hp⟩
      | ok act =>
        rw [hm.get_of_ne hkey.1.ne'] at hact
        obtain ⟨m₁, hstep₁, _⟩ := mapStep_of_leafAction hkey hact
        rw [hstep] at hstep₁
        cases hstep₁
    · obtain ⟨e, p₁, hrun, _, hp⟩ := performOneOperation_outside hstands hrec hroom.1 hkey
      exact ⟨e, p₁, hrun, hp⟩
  obtain ⟨e, p₁, hrun, hp⟩ := hrefused
  refine ⟨e, ?_⟩
  rw [generateProofForOperations, BatchAVLProver.speculate, BatchAVLProver.performAll, hrun]
  have hheap : p₁.tree.heap = p.tree.heap := hp.heap
  simp only [hheap]

/-! ## Runs -/

/-- Is nothing performed since the last proof, when a call has been made? -/
def idleAfter (P : TreeParams) (idle : Bool) (p : BatchAVLProver) : Call → Bool
  | .performOneOperation operation =>
      match (p.performOneOperation P operation).1 with
      | .ok _ => false
      | .error _ => idle
  | .generateProof => true
  | _ => idle

/-- **Careful calls**: there is room for the bits of all operations, and a proof for operations is
asked for only if they pass a test, which sees the map of the prover and is told whether the prover
is idle. -/
def Careful (P : TreeParams) (test : Bool → SortedMap ADKey ADValue → List Operation → Bool) :
    List Call → Bool → BatchAVLProver → Prop
  | [], _, _ => True
  | c :: calls, idle, p =>
      p.RoomFor c
      ∧ (∀ operations, c = .generateProofForOperations operations →
        HasRoomAll (speculativeParams P) operations p.newProver
          ∧ ∃ m, p.Maps P m ∧ test idle m operations = true)
      ∧ Careful P test calls (idleAfter P idle p c) (p.call P c).2

/-- What holds of a prover after careful calls.  No node is visited while the prover is idle, if
nothing unseen may leave flags behind. -/
structure Kept (P : TreeParams) (unseen idle : Bool) (p : BatchAVLProver) : Prop where
  sound : p.Sound
  lives : ∃ t₀ t V, p.Lives P t₀ t V
  atRest : idle = true → ∃ t V, AtRest P p t V ∧ (unseen = true → V = [])

section

variable {test : Bool → SortedMap ADKey ADValue → List Operation → Bool} {unseen idle : Bool}
  {calls : List Call}

theorem Careful.counted (h : Careful P test calls idle p) : Counted P calls p := by
  induction calls generalizing idle p with
  | nil => trivial
  | cons c calls ih => exact ⟨h.1, ih h.2.2⟩

theorem careful_append {later : List Call} (h : Careful P test (calls ++ later) idle p) :
    Careful P test calls idle p := by
  induction calls generalizing idle p with
  | nil => trivial
  | cons c calls ih => exact ⟨h.1, h.2.1, ih h.2.2⟩

theorem new_kept (P : TreeParams) (unseen : Bool) : Kept P unseen true (BatchAVLProver.new P) :=
  ⟨new_sound P, ⟨_, _, [], new_lives P⟩, fun _ => ⟨_, [], new_atRest P, fun _ => rfl⟩⟩

theorem AtRest.withUnread (h : AtRest P p t V) (saved : Option Ref) (replay last : ℤ) :
    AtRest P (p.withUnread saved replay last) t V where
  lives :=
    { stands := ⟨h.lives.stands.represents, h.lives.stands.chain, h.lives.stands.balanced,
        h.lives.stands.height, ⟨[], h.records.packs, h.records.length, h.records.count⟩,
        h.lives.stands.found⟩
      since := ⟨h.lives.since.old, h.lives.since.nodup, h.lives.since.flags, h.lives.since.opens⟩
      allowed := h.lives.allowed }
  oldTopNode := h.oldTopNode
  records := ⟨h.records.packs, h.records.length, h.records.count⟩
  changedNodesBuffer := h.changedNodesBuffer
  changedNodesBufferToCheck := h.changedNodesBufferToCheck

/-- At rest no node is removed. -/
theorem AtRest.removedNodes (h : AtRest P p t V) : p.removedNodes P = (.ok [], p) := by
  have hrun : removedNodesBody P p.topNode p.tree = .ok [] p.tree := by
    rw [removedNodesBody, bind_ok (get_ok _), h.changedNodesBufferToCheck,
      checkChangedNodes, pure_bind, bind_ok (get_ok _), h.changedNodesBuffer]
    rfl
  rw [BatchAVLProver.removedNodes, onNodes, hrun]

/-- A proof brings the prover to rest. -/
theorem Lives.atRest (h : p.Lives P t₀ t V) :
    ∃ p' t', (p.generateProof P).2 = p' ∧ AtRest P p' t' [] := by
  obtain ⟨p', t', hrun, hbare, hnew⟩ := generateProof_spec h.stands h.since
  exact ⟨p', t', congrArg Prod.snd hrun, ⟨hnew.stands, hnew.since, h.allowed.of_bare hbare⟩,
    hnew.oldTopNode, hnew.records, hnew.changedNodesBuffer, hnew.changedNodesBufferToCheck⟩

/-- A prover whose labels change is kept. -/
theorem Kept.cached {heap : Heap} (h : Kept P unseen idle p)
    (hc : Cached .prover P.hf p.tree.heap heap)
    (hsound : Sound { p with tree := { p.tree with heap := heap } }) :
    Kept P unseen idle { p with tree := { p.tree with heap := heap } } := by
  obtain ⟨t₀, t, V, hlives⟩ := h.lives
  refine ⟨hsound, ⟨t₀, t, V, hlives.cached hc⟩, fun hidle => ?_⟩
  obtain ⟨t, V, hrest, hV⟩ := h.atRest hidle
  exact ⟨t, V, hrest.cached hc, hV⟩

/-- One call, if a proof for operations keeps the prover. -/
theorem Kept.call (h : Kept P unseen idle p) {c : Call} (hroom : p.RoomFor c)
    (hspeculate : ∀ operations, c = .generateProofForOperations operations →
      Kept P unseen idle (p.generateProofForOperations P operations).2)
    (hreturns : returns (p.call P c).1 = true) :
    Kept P unseen (idleAfter P idle p c) (p.call P c).2 := by
  have hsound := h.sound.call c hroom hreturns
  obtain ⟨t₀, t, V, hlives⟩ := h.lives
  cases c with
  | performOneOperation operation =>
    obtain ⟨_, hlives'⟩ := hlives.call (c := .performOneOperation operation) rfl hroom
    refine ⟨hsound, hlives', fun hidle => ?_⟩
    rw [idleAfter] at hidle
    cases hrun : p.performOneOperation P operation with
    | mk res p' =>
      rw [hrun] at hidle
      cases res with
      | ok old => cases hidle
      | error e =>
        obtain ⟨t, V, hrest, hV⟩ := h.atRest hidle
        obtain ⟨saved, replay, last, rfl⟩ :=
          h.sound.refused hroom hrun (hlives.isRefusal hroom (congrArg Prod.fst hrun))
        rw [BatchAVLProver.call, hrun]
        exact ⟨t, V, hrest.withUnread saved replay last, hV⟩
  | generateProof =>
    obtain ⟨p', t', hrun, hrest⟩ := hlives.atRest
    have hcall : (p.call P .generateProof).2 = p' := hrun
    rw [hcall] at hsound ⊢
    exact ⟨hsound, ⟨t', t', [], hrest.lives⟩, fun _ => ⟨t', [], hrest, fun _ => rfl⟩⟩
  | generateProofForOperations operations => exact hspeculate operations rfl
  | digest =>
    obtain ⟨heap, hrun, hcached⟩ := digest_cached hlives.stands
    have hcall : (p.call P .digest).2 = { p with tree := { p.tree with heap := heap } } := by
      rw [BatchAVLProver.call, hrun]
    rw [hcall] at hsound ⊢
    exact h.cached hcached hsound
  | removedNodes =>
    obtain ⟨heap, buffer, hcall, hcached⟩ := p.removedNodes_labelled (P := P)
    have hlives' := hlives.cached hcached
    refine ⟨hsound, ⟨t₀, t, V, ?_⟩, fun hidle => ?_⟩
    · show (p.removedNodes P).2.Lives P t₀ t V
      rw [hcall]
      exact
        { stands := ⟨hlives'.stands.represents, hlives'.stands.chain, hlives'.stands.balanced,
            hlives'.stands.height, hlives'.stands.records, hlives'.stands.found⟩
          since := ⟨hlives'.since.old, hlives'.since.nodup, hlives'.since.flags,
            hlives'.since.opens⟩
          allowed := hlives'.allowed }
    · obtain ⟨t, V, hrest, hV⟩ := h.atRest hidle
      refine ⟨t, V, ?_, hV⟩
      show AtRest P (p.removedNodes P).2 t V
      rw [hrest.removedNodes]
      exact hrest
  | contains key l =>
    obtain ⟨heap, hcall, hcached⟩ := p.contains_labelled (P := P) key l
    have hcall' : (p.call P (.contains key l)).2
        = { p with tree := { p.tree with heap := heap } } := hcall
    rw [hcall'] at hsound ⊢
    exact h.cached hcached hsound
  | unauthenticatedLookup key => exact h

/-- **A careful run**: the prover is kept up to its end, if proofs for operations that pass the
test keep it. -/
theorem kept_run (hspeculate : ∀ {idle p m operations}, Kept P unseen idle p →
      HasRoomAll (speculativeParams P) operations p.newProver → p.Maps P m →
      test idle m operations = true →
      Kept P unseen idle (p.generateProofForOperations P operations).2)
    (h : Kept P unseen idle p) {later : List Call}
    (hcareful : Careful P test (calls ++ later) idle p) {p' : BatchAVLProver}
    (hrun : run P calls p = some p') :
    ∃ idle', Kept P unseen idle' p' ∧ Careful P test later idle' p' := by
  induction calls generalizing p idle with
  | nil =>
    cases hrun
    exact ⟨idle, h, hcareful⟩
  | cons c calls ih =>
    obtain ⟨hreturns, hrun⟩ := run_cons hrun
    obtain ⟨hroom, htest, hcareful⟩ := hcareful
    refine ih (h.call hroom (fun operations hc => ?_) hreturns) hcareful hrun
    obtain ⟨hroomAll, m, hm, hpasses⟩ := htest operations hc
    exact hspeculate h hroomAll hm hpasses

end

/-! ## What is seen of the prover -/

/-- Nobody sees a difference between two provers: not in the digest, the map, the height, the next
proof or the removed nodes. -/
structure Alike (P : TreeParams) (p p' : BatchAVLProver) : Prop where
  digest : (p'.digest P).1 = (p.digest P).1
  maps : ∀ m, p'.Maps P m ↔ p.Maps P m
  rootNodeHeight : p'.tree.rootNodeHeight = p.tree.rootNodeHeight
  generateProof : (p'.generateProof P).1 = (p.generateProof P).1
  removedNodes : (p'.removedNodes P).1 = (p.removedNodes P).1

theorem Alike.refl (P : TreeParams) (p : BatchAVLProver) : Alike P p p :=
  ⟨rfl, fun _ => .rfl, rfl, rfl, rfl⟩

/-- At rest only the tree is seen, as long as no node of it is visited. -/
theorem AtRest.alike {heap : Heap} (h : AtRest P p t [])
    (h' : AtRest P { p with tree := { p.tree with heap := heap } } t []) :
    Alike P p { p with tree := { p.tree with heap := heap } } where
  digest := by
    obtain ⟨_, hdigest, _⟩ := h.lives.digest
    obtain ⟨_, hdigest', _⟩ := h'.lives.digest
    rw [hdigest, hdigest']
  maps := fun m => ⟨fun hm => h.lives.maps (h'.lives.treeHolds hm),
    fun hm => h'.lives.maps (h.lives.treeHolds hm)⟩
  rootNodeHeight := rfl
  generateProof := by
    obtain ⟨_, _, hproof, _⟩ := h.lives.generateProof
    obtain ⟨_, _, hproof', _⟩ := h'.lives.generateProof
    rw [hproof, hproof']
  removedNodes := by
    rw [h.removedNodes, h'.removedNodes]

/-- May a proof be asked for these operations, so that nobody sees it?  All of them are accepted,
and `idle` says that nothing was performed since the last proof; or the first one is refused. -/
def permitted (P : TreeParams) (idle : Bool) (m : SortedMap ADKey ADValue)
    (operations : List Operation) : Bool :=
  (idle && (mapRun P operations m).isSome)
    || operations.head?.any fun operation => (mapStep P m operation).isNone

theorem exists_refused
    (h : (operations.head?.any fun operation => (mapStep P m operation).isNone) = true) :
    ∃ operation rest, operations = operation :: rest ∧ mapStep P m operation = none := by
  cases operations with
  | nil => cases h
  | cons operation rest => exact ⟨operation, rest, rfl, Option.isNone_iff_eq_none.1 h⟩

theorem permitted_cases {idle : Bool} (h : permitted P idle m operations = true) :
    (idle = true ∧ ∃ olds m', mapRun P operations m = some (olds, m'))
    ∨ ∃ operation rest, operations = operation :: rest ∧ mapStep P m operation = none := by
  rw [permitted, Bool.or_eq_true, Bool.and_eq_true] at h
  rcases h with ⟨hidle, hrun⟩ | hfirst
  · obtain ⟨⟨olds, m'⟩, hrun⟩ := Option.isSome_iff_exists.1 hrun
    exact .inl ⟨hidle, olds, m', hrun⟩
  · exact .inr (exists_refused hfirst)

/-- What a proof for operations does to a prover, when it is permitted. -/
theorem Kept.speculate {idle : Bool} (h : Kept P true idle p)
    (hroom : HasRoomAll (speculativeParams P) operations p.newProver) (hm : p.Maps P m)
    (hpermitted : permitted P idle m operations = true) :
    Kept P true idle (p.generateProofForOperations P operations).2
      ∧ Alike P p (p.generateProofForOperations P operations).2 := by
  have hsound := h.sound.generateProofForOperations (P := P) operations
  obtain ⟨t₀, t, V, hlives⟩ := h.lives
  rcases permitted_cases hpermitted with ⟨hidle, olds, m', hmap⟩ | ⟨operation, rest, rfl, hstep⟩
  · obtain ⟨t, V, hrest, hV⟩ := h.atRest hidle
    obtain rfl := hV rfl
    obtain ⟨_, _, _, _, _, heap, _, _, hcall, hrest'⟩ :=
      hrest.speculate hroom (hrest.lives.treeHolds hm) hmap
    rw [hcall] at hsound ⊢
    exact ⟨⟨hsound, ⟨t, t, [], hrest'.lives⟩, fun _ => ⟨t, [], hrest', fun _ => rfl⟩⟩,
      hrest.alike hrest'⟩
  · obtain ⟨e, hcall⟩ : ∃ e, p.generateProofForOperations P (operation :: rest) = (.error e, p) :=
      hlives.speculate_refused hroom (hlives.treeHolds hm) hstep
    rw [hcall]
    exact ⟨h, .refl P p⟩

/-- The proof and the digest, when they are returned. -/
theorem Kept.proves {idle : Bool} (h : Kept P true idle p)
    (hroom : HasRoomAll (speculativeParams P) operations p.newProver) (hm : p.Maps P m)
    (hpermitted : permitted P idle m operations = true) {proof : List UInt8} {d : Digest}
    (hreply : (p.generateProofForOperations P operations).1 = .ok (proof, d)) :
    ∃ q, run P (operations.map .performOneOperation) p = some q ∧ (q.digest P).1 = .ok d
      ∧ (p.performed P (operations.map .performOneOperation)).map Outcome.operation = operations
      ∧ ∀ d₀, (p.digest P).1 = .ok d₀ → proof.length ≤ 2 ^ 28 → ∀ fuel, proof.length < fuel →
        (BatchAVLVerifier.new P proof d₀ none none fuel).Accepts P proof
          (p.performed P (operations.map .performOneOperation)) := by
  obtain ⟨t₀, t, V, hlives⟩ := h.lives
  rcases permitted_cases hpermitted with ⟨hidle, olds, m', hmap⟩ | ⟨operation, rest, rfl, hstep⟩
  · obtain ⟨t, V, hrest, hV⟩ := h.atRest hidle
    obtain rfl := hV rfl
    obtain ⟨outcomes, bits, V', t', directions, heap, hops, hpacks, hcall, _⟩ :=
      hrest.speculate hroom (hrest.lives.treeHolds hm) hmap
    obtain ⟨q, hperforms, hq, _⟩ := hrest.lives.operates hops hrest.records rfl
    obtain ⟨_, hdigest, _⟩ := hq.digest
    rw [hcall] at hreply
    cases hd : treeDigest P t' with
    | error e =>
      rw [hd] at hreply
      cases hreply
    | ok d' =>
      rw [hd] at hreply
      cases hreply
      refine ⟨q, hperforms.run, ?_, ?_, fun d₀ hd₀ hlen fuel hfuel => ?_⟩
      · rw [hdigest]
        exact hd
      · rw [hperforms.performed, hops.operations_eq]
      · rw [hperforms.performed]
        exact hrest.lives.accepts hops.batch hpacks rfl hd₀ hlen (fun _ hnone => by cases hnone)
          (fun _ hnone => by cases hnone) hfuel
  · obtain ⟨e, hcall⟩ : ∃ e, p.generateProofForOperations P (operation :: rest) = (.error e, p) :=
      hlives.speculate_refused hroom (hlives.treeHolds hm) hstep
    rw [hcall] at hreply
    cases hreply

/-- **A proof for operations leaves no trace**, in careful runs; and it is the proof of these
operations, with the digest after them. -/
theorem speculation_unseen {calls : List Call} {operations : List Operation}
    (hcareful : Careful P (permitted P) (calls ++ [.generateProofForOperations operations]) true
      (BatchAVLProver.new P))
    (hrun : run P calls (BatchAVLProver.new P) = some p) :
    Alike P p (p.generateProofForOperations P operations).2
      ∧ ∀ proof d, (p.generateProofForOperations P operations).1 = .ok (proof, d) →
        ∃ q, run P (operations.map .performOneOperation) p = some q ∧ (q.digest P).1 = .ok d
          ∧ (p.performed P (operations.map .performOneOperation)).map Outcome.operation
            = operations
          ∧ ∀ d₀, (p.digest P).1 = .ok d₀ → proof.length ≤ 2 ^ 28 →
            ∀ fuel, proof.length < fuel →
              (BatchAVLVerifier.new P proof d₀ none none fuel).Accepts P proof
                (p.performed P (operations.map .performOneOperation)) := by
  obtain ⟨idle, hkept, hlast⟩ := kept_run
    (fun h hroom hm hpermitted => (h.speculate hroom hm hpermitted).1) (new_kept P true)
    hcareful hrun
  obtain ⟨hroom, m, hm, hpermitted⟩ := hlast.2.1 operations rfl
  exact ⟨(hkept.speculate hroom hm hpermitted).2, fun proof d hreply =>
    hkept.proves hroom hm hpermitted hreply⟩

theorem insertAndRemove_careful :
    Careful oneByteKeys (permitted oneByteKeys)
      (insertAndRemove.take 2 ++ [.generateProofForOperations [.remove ⟨[5]⟩]])
      true (BatchAVLProver.new oneByteKeys) := by
  refine ⟨by decide +kernel, fun _ h => (by cases h), by decide +kernel, fun _ h => (by cases h),
    trivial, fun operations h => ?_, trivial⟩
  cases h
  refine ⟨by decide +kernel, ⟨[(⟨[5]⟩, .ofByte 1)], List.pairwise_singleton _ _⟩,
    ⟨by decide +kernel, ?_⟩, by decide +kernel⟩
  intro e he
  rw [List.mem_singleton.1 he]
  exact ⟨by decide, fun vl hvl => by cases hvl⟩

theorem speculation_unseen_insertAndRemove :
    ∃ p, run oneByteKeys (insertAndRemove.take 2) (BatchAVLProver.new oneByteKeys) = some p
      ∧ Alike oneByteKeys p (p.generateProofForOperations oneByteKeys [.remove ⟨[5]⟩]).2
      ∧ ∃ proof d q, (p.generateProofForOperations oneByteKeys [.remove ⟨[5]⟩]).1 = .ok (proof, d)
        ∧ run oneByteKeys [.performOneOperation (.remove ⟨[5]⟩)] p = some q
        ∧ (q.digest oneByteKeys).1 = .ok d := by
  obtain ⟨p, hrun⟩ := Option.isSome_iff_exists.1 (show (run oneByteKeys (insertAndRemove.take 2)
    (BatchAVLProver.new oneByteKeys)).isSome = true by decide +kernel)
  have hreply : ((run oneByteKeys (insertAndRemove.take 2) (BatchAVLProver.new oneByteKeys)).map
      fun p => (p.generateProofForOperations oneByteKeys [.remove ⟨[5]⟩]).1.toOption.isSome)
        = some true := by
    decide +kernel
  rw [hrun, Option.map_some] at hreply
  obtain ⟨halike, hproves⟩ := speculation_unseen insertAndRemove_careful hrun
  cases hres : (p.generateProofForOperations oneByteKeys [.remove ⟨[5]⟩]).1 with
  | error e =>
    rw [hres] at hreply
    cases hreply
  | ok res =>
    obtain ⟨proof, d⟩ := res
    obtain ⟨q, hq, hd, _⟩ := hproves proof d hres
    exact ⟨p, hrun, halike, proof, d, q, hres, hq, hd⟩

/-- An insertion, and a lookup of a key that is out of range. -/
def insertAndRefused : List Operation := [.insert ⟨[7]⟩ (.ofByte 2), .lookup ⟨[0]⟩]

/-- Else a proof for operations is seen: the operations get into the tree if others are pending,
and into the next proof if one of them is refused after others. -/
theorem not_unseen :
    (∃ p, run oneByteKeys (insertAndRemove.take 1) (BatchAVLProver.new oneByteKeys) = some p
      ∧ ((p.generateProofForOperations oneByteKeys [.insert ⟨[7]⟩ (.ofByte 2)]).2.digest
        oneByteKeys).1 ≠ (p.digest oneByteKeys).1)
    ∧ ∃ p, run oneByteKeys (insertAndRemove.take 2) (BatchAVLProver.new oneByteKeys) = some p
      ∧ ((p.generateProofForOperations oneByteKeys insertAndRefused).2.generateProof
        oneByteKeys).1 ≠ (p.generateProof oneByteKeys).1 := by
  refine ⟨⟨_, rfl, ?_⟩, ⟨_, rfl, ?_⟩⟩
  · intro h
    have := congrArg Except.toOption h
    revert this
    decide +kernel
  · intro h
    have := congrArg Except.toOption h
    revert this
    decide +kernel

end BatchAVLProver

end

end Sparkz.Avl
