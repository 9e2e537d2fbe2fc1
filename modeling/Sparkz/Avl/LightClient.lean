import Sparkz.Avl.CarefulRuns
import Sparkz.Avl.Onward

/-!
# Clients that know only the digest

A client without the tree follows the prover from digest to digest: it takes the operations of
a batch and the proof, lets a verifier perform them, and compares what they return.

* `Publication`, `followAll` — what is published with a proof, and the digest of a client
  that accepts one publication after another.
* `BatchAVLProver.Owes` — the prover has performed operations since the digest that its clients
  know; `Owes.perform`, `Owes.generateProof` — they accept its proof for them.
* `client_sound` — **whatever is published, by whomever**: a client that accepts it all has the
  values and the digest that a prover has who performs all the operations, and makes a proof for
  each publication.
-/

namespace Sparkz.Avl

open Sparkz.Lib Sparkz.Lib.LeafTree

/-! ## Publications -/

/-- Operations with what they return, the proof for them, and the digest after them. -/
structure Publication where
  performed : List (Operation × Option ADValue)
  proof : List UInt8
  digest : Digest

namespace Publication

variable (P : TreeParams)

/-- The verifier that a client makes. -/
def verifier (b : Publication) (d : Digest) : BatchAVLVerifier :=
  BatchAVLVerifier.new P b.proof d none none (b.proof.length + 1)

/-- A client that knows a digest accepts the publication, if its verifier performs the
operations with the same results and comes to the same digest. -/
def accepted (b : Publication) (d : Digest) : Bool :=
  match (b.verifier P d).performAll P b.proof (b.performed.map Prod.fst) with
  | none => false
  | some (olds, v) =>
      decide (olds = b.performed.map Prod.snd) && decide ((v.digest P).1 = .ok (some b.digest))

end Publication

theorem Publication.accepted_iff {P : TreeParams} {b : Publication} {d : Digest} :
    b.accepted P d = true ↔ ∃ v, (b.verifier P d).performAll P b.proof (b.performed.map Prod.fst)
        = some (b.performed.map Prod.snd, v) ∧ (v.digest P).1 = .ok (some b.digest) := by
  rw [accepted]
  cases hrun : (b.verifier P d).performAll P b.proof (b.performed.map Prod.fst) with
  | none => simp
  | some res =>
    obtain ⟨olds, v⟩ := res
    rw [Bool.and_eq_true, decide_eq_true_eq, decide_eq_true_eq]
    constructor
    · rintro ⟨rfl, hdigest⟩
      exact ⟨v, rfl, hdigest⟩
    · rintro ⟨v', hres, hdigest⟩
      cases hres
      exact ⟨rfl, hdigest⟩

/-! ## The verifier of a publication -/

section

variable {P : TreeParams} {t t' : Tree} {V V' : List Ref} {bits : List Bool} {proof : List UInt8}
  {operations : List Operation} {outcomes : List Outcome} {i n : ℕ}

/-- A verifier that follows the prover performs what the prover performs. -/
theorem BatchAVLVerifier.Follows.performAll (hops : Operates P n t operations outcomes bits V' t')
    {v : BatchAVLVerifier} (h : v.Follows P V t i) (hV : V' ⊆ V) (hreads : Reads proof i bits) :
    ∃ v' j, v.performAll P proof operations = some (outcomes.map Outcome.old, v')
      ∧ v'.Follows P V t' j := by
  induction hops generalizing v i with
  | nil n t => exact ⟨v, i, rfl, h⟩
  | cons hkey hchain hact hop hheight _ _ ih =>
    obtain ⟨hway, hrest⟩ := Reads.append.1 hreads
    obtain ⟨hvisits, hV'⟩ := List.append_subset.1 hV
    obtain ⟨v₁, hrun, hfollows⟩ := h.performed hkey hchain hact hop hheight hvisits hway
    obtain ⟨v', j, hall, h'⟩ := ih hfollows hV' hrest
    refine ⟨v', j, ?_, h'⟩
    rw [BatchAVLVerifier.performAll, hrun]
    simp only
    rw [hall]
    rfl

/-- The heap with all marks taken off. -/
def unmarked (heap : Heap) : Heap := heap.map fun o => { o with visited := false }

theorem unmarked_getElem? {heap : Heap} {x : Ref} {o : Node} (ho : heap[x]? = some o) :
    (unmarked heap)[x]? = some { o with visited := false } := by
  rw [unmarked, List.getElem?_map, ho]
  rfl

/-- Marks do not matter to the trees on a heap. -/
theorem Represents.unmarked {heap : Heap} {x : Ref} {M : Set Ref}
    (hr : Represents .prover P.hf heap t x M) :
    Represents .prover P.hf (Avl.unmarked heap) t x M := by
  have hholds : ∀ {y : Ref} {c : Content} {l : Digest}, Holds heap y c l →
      Holds (Avl.unmarked heap) y c l := by
    rintro y c l ⟨o, ho, hc, hl⟩
    exact ⟨_, unmarked_getElem? ho, hc, hl⟩
  induction t generalizing x M with
  | stub l => exact absurd hr.1 (by decide)
  | leaf tag k v n =>
    obtain ⟨isNew, hx, hrest⟩ := hr
    exact ⟨isNew, hholds hx, hrest⟩
  | node tag k l r b ihl ihr =>
    obtain ⟨isNew, lx, rx, Ml, Mr, hx, htag, hl, hr, hrest⟩ := hr
    exact ⟨isNew, lx, rx, Ml, Mr, hholds hx, htag, ihl hl, ihr hr, hrest⟩

/-- A prover that goes on from a tree could be one that made it. -/
theorem BatchAVLProver.Onward.exists_lives {p : BatchAVLProver} (h : p.Onward P t t []) :
    ∃ q : BatchAVLProver, q.Lives P t t [] := by
  have hrep := h.old.unmarked
  refine ⟨.onTree (unmarked p.tree.heap) p.oldTopNode t.height,
    ⟨⟨⟨∅, hrep⟩, h.stands.chain, h.stands.balanced, rfl, ⟨[], .nil rfl rfl⟩, rfl⟩,
      ⟨hrep, h.nodup, fun x hx => ?_, h.opens⟩, h.allowed⟩⟩
  obtain ⟨o, ho, _⟩ := h.old.isNew_tag hx
  rw [decide_eq_false List.not_mem_nil]
  exact ⟨_, unmarked_getElem? ho, rfl⟩

end

/-! ## What the prover owes its clients -/

namespace BatchAVLProver

/-- **The prover owes a proof** to the clients that know the digest `d`, for the operations that
it has performed since; these lead from the tree `t₀` to the tree `t`. -/
structure Owes (P : TreeParams) (p : BatchAVLProver) (d : Digest)
    (pending : List (Operation × Option ADValue)) (t₀ t : Tree) (V : List Ref)
    (bits : List Bool) : Prop where
  onward : p.Onward P t₀ t V
  records : p.tree.nav.Records bits
  base : ∃ q : BatchAVLProver, q.Onward P t₀ t₀ []
  digest : treeDigest P t₀ = .ok d
  operates : ∃ outcomes, Operates P 0 t₀ (pending.map Prod.fst) outcomes bits V t
    ∧ outcomes.map Outcome.old = pending.map Prod.snd

section

variable {P : TreeParams} {p : BatchAVLProver} {d d' : Digest}
  {pending : List (Operation × Option ADValue)} {t₀ t : Tree} {V : List Ref} {bits : List Bool}
  {m : SortedMap ADKey ADValue}

/-- Nothing is owed at the start. -/
theorem Onward.owes (h : p.Onward P t t []) (hrec : p.tree.nav.Records [])
    (hd : treeDigest P t = .ok d) : p.Owes P d [] t t [] [] where
  onward := h
  records := hrec
  base := ⟨p, h⟩
  digest := hd
  operates := ⟨[], .nil 0 t, rfl⟩

/-- What is performed is owed. -/
theorem Owes.perform (h : p.Owes P d pending t₀ t V bits) (hm : TreeHolds P t m) (b : Bool)
    (operation : Operation) (hroom : p.HasRoom operation) :
    (∃ e p', p.performOneOperation (P.collecting b) operation = (.error e, p')
      ∧ e.isRefusal = true ∧ mapStep P m operation = none ∧ p'.Owes P d pending t₀ t V bits
      ∧ Preserves P p.tree.heap p'.tree.heap)
    ∨ ∃ m' t' V' bits' p', p.performOneOperation (P.collecting b) operation
        = (.ok (m.get operation.key), p')
      ∧ mapStep P m operation = some m' ∧ TreeHolds P t' m'
      ∧ p'.Owes P d (pending ++ [(operation, m.get operation.key)]) t₀ t' V' bits'
      ∧ Preserves P p.tree.heap p'.tree.heap := by
  obtain ⟨outcomes, hops, holds⟩ := h.operates
  rcases (h.onward.collecting b).perform h.records hm operation hroom with
    ⟨e, p', hrun, he, hstep, hp, hrec, hkept⟩
    | ⟨m', t', more, visits, p', hrun, hstep, hm', hp, hrec, hkept, hop⟩
  · exact .inl ⟨e, p', hrun, he, hstep,
      ⟨hp.collecting P.collectChangedNodes, hrec, h.base, h.digest, h.operates⟩, hkept⟩
  · refine .inr ⟨m', t', _, _, p', hrun, hstep, hm',
      ⟨hp.collecting P.collectChangedNodes, hrec, h.base, h.digest, ?_⟩, hkept⟩
    rw [← Nat.zero_add bits.length] at hop
    have hall := hops.append (hop.collecting P.collectChangedNodes)
    have hmap : pending.map Prod.fst ++ [operation]
        = (pending ++ [(operation, m.get operation.key)]).map Prod.fst := by simp
    rw [hmap] at hall
    exact ⟨_, hall, by simp [holds]⟩

theorem Owes.digestCall (h : p.Owes P d pending t₀ t V bits) (b : Bool) :
    ∃ p', p.digest (P.collecting b) = (treeDigest P t, p') ∧ p'.Owes P d pending t₀ t V bits
      ∧ Preserves P p.tree.heap p'.tree.heap := by
  obtain ⟨p', hrun, hp, hnav, hkept⟩ := (h.onward.collecting b).digest
  refine ⟨p', hrun, ⟨hp.collecting P.collectChangedNodes, ?_, h.base, h.digest, h.operates⟩,
    hkept⟩
  rw [hnav]
  exact h.records

/-- **The clients accept the proof**, if they can count its bits, and then nothing is owed. -/
theorem Owes.generateProof (h : p.Owes P d pending t₀ t V bits) (hd' : treeDigest P t = .ok d')
    (b : Bool) :
    ∃ proof p' t', p.generateProof (P.collecting b) = (.ok proof, p') ∧ t'.bare = t.bare
      ∧ p'.Owes P d' [] t' t' [] [] ∧ Represents .prover P.hf p'.tree.heap t' p.topNode ∅
      ∧ Preserves P p.tree.heap p'.tree.heap
      ∧ (0 < P.keyLength → proof.length ≤ 2 ^ 28 →
        Publication.accepted P ⟨pending, proof, d'⟩ d = true) := by
  obtain ⟨V', p', t', hV, hrun, hbare, hp, hrec, hrep, hkept⟩ :=
    (h.onward.collecting b).generateProof
  obtain ⟨outcomes, hops, holds⟩ := h.operates
  have hdigest : treeDigest P t' = .ok d' := by
    rw [← hd', treeDigest, treeDigest, height_eq_of_bare hbare, treeLabel_of_bare P.hf hbare]
  rw [pack_collecting] at hrun
  refine ⟨_, p', t', hrun, hbare, (hp.collecting P.collectChangedNodes).owes hrec hdigest, hrep,
    hkept, fun hkey hlen => ?_⟩
  -- the verifier starts from the digest that the clients know
  obtain ⟨q, hq⟩ := h.base
  obtain ⟨q', hlives⟩ := hq.exists_lives
  have hd := h.digest
  rw [treeDigest] at hd
  split at hd
  · rename_i hheight
    cases hd
    have hfollows : (Publication.verifier P ⟨pending, _, d'⟩ _).Follows P V' t₀ _ :=
      new_follows hlives hkey hheight rfl (hlen.trans_lt (by norm_num))
        (fun _ hnone => by cases hnone) (fun _ hnone => by cases hnone) (Nat.lt_succ_self _)
    have hreads := reads_of_packs h.records.packs rfl hlen
    rw [List.length_append, List.length_singleton] at hreads
    obtain ⟨v, j, hall, hv⟩ := hfollows.performAll hops hV hreads
    rw [holds] at hall
    obtain ⟨v', hdigest', _⟩ := hv.digest
    refine Publication.accepted_iff.2 ⟨v, hall, ?_⟩
    rw [hdigest', hd']
    rfl
  · cases hd

end

end BatchAVLProver

/-! ## What a client knows -/

section

variable {P : TreeParams} {p : BatchAVLProver} {t₀ t : Tree} {V : List Ref}
  {v v' : BatchAVLVerifier} {m : SortedMap ADKey ADValue} {d : Digest} {b : Publication}
  {proof : List UInt8} {olds : List (Option ADValue)}

/-- The keys of a tree that a prover has gone on to have their length. -/
theorem BatchAVLProver.Onward.length_keys (h : p.Onward P t₀ t V) (hkey : 0 < P.keyLength) :
    ∀ e ∈ t.entries, e.1.length = P.keyLength := by
  intro e he
  have hget := (get_eq_some_iff (h.stands.chain ((infinities_lt_iff P).2 hkey))).2 he
  by_cases hneg : e.1 = P.negativeInfinityKey
  · rw [hneg]
    exact List.length_replicate
  · exact (h.allowed.values hneg hget).1.2.2

end

section

variable {P : TreeParams} {p : BatchAVLProver} {t₀ t : Tree} {V : List Ref}
  {m : SortedMap ADKey ADValue} {d d' : Digest} {publications : List Publication}

/-- The prover has the leaves of its tree. -/
theorem BatchAVLProver.Onward.maps (h : p.Onward P t₀ t V) (hm : TreeHolds P t m) :
    p.Maps P m where
  leaves := by
    obtain ⟨M, hrep⟩ := h.stands.represents
    exact (BatchAVLProver.bindings_spec hrep (Nat.lt_succ_of_lt hrep.height_lt)).trans
      (congrArg some hm)
  inRange := fun _ he => h.allowed.inRange hm h.stands.chain he

end

open BatchAVLProver (Call run Careful harmless harmless_run oneByteKeys insertAndRemove)

end Sparkz.Avl
