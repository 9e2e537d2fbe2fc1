import Sparkz.Avl.ProofReading
import Sparkz.Avl.ProverRun
import Sparkz.Avl.VerifierPath

/-!
# The verifier follows the prover

The verifier has the tree of the prover, cut at nodes that no operation of the batch visits.

* `operate_kept`, `operate_pruned` — an operation on a tree and on what is left of it when it
  is cut are the same one.
* `BatchAVLVerifier.Follows` — the verifier stands for the tree of the prover, with some of
  the directions read.
* `Follows.performed`, `Follows.digest` — it does what the prover does, and has its digest.
-/

namespace Sparkz.Avl

open Sparkz.Lib Sparkz.Lib.LeafTree

/-! ## Operations on cut trees -/

section

variable {label : Tree → Digest} {hid : Tree → Prop} {seen : Ref → Prop} {s s' t t' : Tree}
  {path : List Bool} {act : Option (Action ADKey ADValue)} {dh : ℤ} {visits : List Ref}

/-- What is done to a cut tree is done to the whole one. -/
theorem operate_pruned (hp : Pruned label hid s t)
    (h : operate s path act = some (s', dh, visits)) :
    ∃ t', operate t path act = some (t', dh, visits) ∧ Pruned label hid s' t' := by
  cases act with
  | some act =>
    obtain ⟨⟨s₁, changed, up⟩, hmod, heq⟩ := Option.map_eq_some_iff.1 h
    cases heq
    obtain ⟨htags, t', hmod', hp'⟩ := hp.modifyAt hmod
    exact ⟨t', by rw [operate, hmod', htags]; rfl, hp'⟩
  | none =>
    obtain ⟨⟨s₁, changed, up⟩, hmod, h⟩ := Option.bind_eq_some_iff.1 h
    obtain ⟨⟨s₂, down, visits'⟩, hdel, heq⟩ := Option.map_eq_some_iff.1 h
    cases heq
    obtain ⟨htags, t₁, hmod', _⟩ := hp.modifyAt hmod
    obtain ⟨t', hdel', hp'⟩ := hp.deleteAt hdel
    exact ⟨t', by rw [operate, hmod', Option.bind_some, hdel', htags]; rfl, hp'⟩

/-- What is done to a tree is done to a cut one, if the nodes that are visited were kept. -/
theorem operate_kept (hp : Pruned label (Unseen seen) s t)
    (h : operate t path act = some (t', dh, visits)) (hseen : ∀ x ∈ visits, seen x) :
    ∃ s' visits', operate s path act = some (s', dh, visits')
      ∧ Pruned label (Unseen seen) s' t' := by
  have hdone : ∃ s' visits', operate s path act = some (s', dh, visits') := by
    cases act with
    | some act =>
      obtain ⟨⟨t₁, changed, up⟩, hmod, heq⟩ := Option.map_eq_some_iff.1 h
      cases heq
      obtain ⟨s', hmod'⟩ := hp.modifyAt_kept hmod hseen
      exact ⟨s', _, by rw [operate, hmod']; rfl⟩
    | none =>
      obtain ⟨⟨t₁, changed, up⟩, hmod, h⟩ := Option.bind_eq_some_iff.1 h
      obtain ⟨⟨t₂, down, visits'⟩, hdel, heq⟩ := Option.map_eq_some_iff.1 h
      cases heq
      obtain ⟨s₁, hmod'⟩ := hp.modifyAt_kept hmod fun x hx => hseen x (List.mem_append_left _ hx)
      obtain ⟨s', visits'', hdel'⟩ :=
        hp.deleteAt_kept hdel fun x hx => hseen x (List.mem_append_right _ hx)
      exact ⟨s', _, by rw [operate, hmod', Option.bind_some, hdel']; rfl⟩
  obtain ⟨s', visits', hs⟩ := hdone
  obtain ⟨t₁, ht, hp'⟩ := operate_pruned hp hs
  rw [h] at ht
  cases ht
  exact ⟨s', visits, hs, hp'⟩

/-- The leaf at the end of a way through a cut tree is the one in the whole tree. -/
theorem leafAt_of_pruned (hp : Pruned label hid s t) {e : ADKey × ADValue × ADKey}
    (h : leafAt s path = some e) : leafAt t path = some e := by
  induction hp generalizing path with
  | cut _ => cases path <;> cases h
  | leaf tag k v n => exact h
  | node tag k b _ _ ihl ihr =>
    cases path with
    | nil => cases h
    | cons d path =>
      cases d with
      | true => exact ihl h
      | false => exact ihr h

/-- An operation works on a leaf. -/
theorem leafAt_of_operate (h : operate t path act = some (t', dh, visits)) :
    ∃ e, leafAt t path = some e := by
  cases act with
  | some act =>
    obtain ⟨res, hmod, _⟩ := Option.map_eq_some_iff.1 h
    exact leafAt_of_modifyAt hmod
  | none =>
    obtain ⟨res, hmod, _⟩ := Option.bind_eq_some_iff.1 h
    exact leafAt_of_modifyAt hmod

end

/-- Only a leaf that has the key is removed. -/
theorem eq_of_removed {P : TreeParams} {operation : Operation} {k : ADKey} {value : ADValue}
    (hact : leafAction P operation (if k = operation.key then some value else none) = .ok none) :
    k = operation.key := by
  rcases leafAction_cases hact with h₁ | ⟨_, hs⟩ | ⟨_, h₁, _⟩ | ⟨_, h₁, _⟩
  · cases h₁
  · by_contra hne
    rw [if_neg hne] at hs
    cases hs
  · cases h₁
  · cases h₁

/-! ## The verifier -/

/-- The digest of a tree. -/
def treeDigest (P : TreeParams) (t : Tree) : Except AvlError Digest :=
  if t.height < 256 then .ok (treeLabel P.hf t ++ [UInt8.ofNat t.height])
  else .error .assertionFailed

namespace BatchAVLVerifier

/-- **The verifier follows the prover**, whose tree is `t`: it has this tree, cut at nodes that
are not among `V`, and is about to read the directions from the bit `i` on. -/
structure Follows (P : TreeParams) (V : List Ref) (v : BatchAVLVerifier) (t : Tree) (i : ℕ) :
    Prop where
  root : ∃ x s M, v.topNode = some x ∧ Represents .verifier P.hf v.tree.heap s x M
    ∧ Pruned (treeLabel P.hf) (Unseen (· ∈ V)) s t
  height : v.tree.rootNodeHeight = t.height
  index : v.tree.nav.directionsIndex = wrapInt i

section

variable {P : TreeParams} {V : List Ref} {v : BatchAVLVerifier} {t t' : Tree} {i : ℕ}
  {proof : List UInt8} {operation : Operation}

/-- The digest of a verifier that has a tree, cut somewhere, is that of the tree. -/
theorem digest_of_pruned {hid : Tree → Prop} {x : Ref} {s : Tree} {M : Set Ref}
    (htop : v.topNode = some x) (hrep : Represents .verifier P.hf v.tree.heap s x M)
    (hp : Pruned (treeLabel P.hf) hid s t) (hheight : v.tree.rootNodeHeight = t.height) :
    ∃ heap, v.digest P
        = ((treeDigest P t).map some, { v with tree := { v.tree with heap := heap } })
      ∧ Cached .verifier P.hf v.tree.heap heap := by
  obtain ⟨heap, hrun, hcached⟩ :=
    digestOf_spec hrep hheight (Nat.lt_succ_of_lt hrep.height_lt)
  refine ⟨heap, ?_, hcached⟩
  rw [treeLabel_of_pruned hp] at hrun
  rw [BatchAVLVerifier.digest, htop]
  simp only
  rw [hrun, treeDigest]
  by_cases hlt : t.height < 256
  · rw [if_pos hlt, if_pos hlt]
    rfl
  · rw [if_neg hlt, if_neg hlt]
    rfl

/-- The digest of the verifier is that of the prover. -/
theorem Follows.digest (h : v.Follows P V t i) :
    ∃ v', v.digest P = ((treeDigest P t).map some, v') ∧ v'.Follows P V t i := by
  obtain ⟨x, s, M, htop, hrep, hp⟩ := h.root
  obtain ⟨heap, hrun, hcached⟩ := digest_of_pruned htop hrep hp h.height
  exact ⟨_, hrun, ⟨x, s, M, htop, hcached.kept hrep, hp⟩, h.height, h.index⟩

/-- **An operation that the prover performs** is performed by the verifier, if it reads the way
of the prover and was given the nodes that the prover visits. -/
theorem Follows.performed (h : v.Follows P V t i) (hkey : P.InRange operation.key)
    (hchain : Chain P.negativeInfinityKey P.positiveInfinityKey t)
    {act : Option (Action ADKey ADValue)}
    (hact : leafAction P operation (t.get operation.key) = .ok act) {dh : ℤ} {visits : List Ref}
    (hop : operate t (searchPath operation.key false t) act = some (t', dh, visits))
    (hheight : (t'.height : ℤ) = t.height + dh) (hV : visits ⊆ V)
    (hreads : Reads proof i (searchPath operation.key false t)) :
    ∃ v', v.performOneOperation P proof operation = (.ok (t.get operation.key), v')
      ∧ v'.Follows P V t' (i + (searchPath operation.key false t).length) := by
  obtain ⟨x, s, M, htop, hrep, hp⟩ := h.root
  obtain ⟨k, value, n, hleaf, _, hmet, hunmet⟩ := search_spec hchain hkey.1 hkey.2.1
  obtain ⟨s', visits', hop', hp'⟩ := operate_kept hp hop fun x hx => hV hx
  obtain ⟨e, hleaf'⟩ := leafAt_of_operate hop'
  have he := leafAt_of_pruned hp hleaf'
  rw [hleaf] at he
  cases he
  -- the leaf has the key exactly if the key was met on the way
  have hmeets : meets operation.key t = true ↔ k = operation.key := by
    refine ⟨hmet, fun heq => ?_⟩
    by_contra hnot
    exact (hunmet (Bool.eq_false_of_not_eq_true hnot)).1.ne heq
  have hbetween : k = operation.key ∨ k < operation.key ∧ operation.key < n := by
    cases hm : meets operation.key t with
    | true => exact .inl (hmet hm)
    | false => exact .inr ⟨(hunmet hm).1, (hunmet hm).2.1⟩
  have hget : t.get operation.key = if k = operation.key then some value else none := by
    rw [get_of_search hchain hkey.1 hkey.2.1 hleaf]
    exact if_congr hmeets rfl rfl
  rw [hget] at hact
  set start := { v.tree with nav :=
    { v.tree.nav with replayIndex := v.tree.nav.directionsIndex } } with hstart
  have hrep' : Represents (verifierNavigation proof).mode P.hf start.heap s x M := hrep
  have hindex : start.nav.directionsIndex = wrapInt (i : ℤ) := h.index
  have hdescend := descend_verifier hleaf' hreads hbetween hindex hact
  have hreplays : act = none → Replays (verifierNavigation proof)
      ⟨wrapInt ((i + (searchPath operation.key false t).length : ℕ) : ℤ),
        lastRight (searchPath operation.key false t) i start.nav.lastRightStep,
        start.nav.replayIndex⟩ (replayOf (searchPath operation.key false t)) := by
    rintro rfl
    exact replays_verifier hreads h.index
      (.inr ⟨false_mem_searchPath (hmeets.2 (eq_of_removed hact)), _, rfl⟩)
  have hsim := performOperation_spec hrep' hdescend hreplays
  obtain ⟨⟨x', old⟩, s₁, hrun, rfl, hnav, hroot, hyields⟩ := hsim.of_some hop'
  obtain ⟨M', hrep₁, _⟩ := hyields.2
  rw [← returnResult_inRange hkey] at hrun
  refine ⟨⟨s₁, some x'⟩, ?_, ⟨x', s', M', rfl, hrep₁, hp'⟩, ?_, ?_⟩
  · rw [performOneOperation, htop]
    simp only [← hstart]
    rw [hrun, hget]
  · exact (hroot.trans (congrArg (· + dh) h.height)).trans hheight.symm
  · show s₁.nav.directionsIndex = _
    rw [replays_verifier_kept hnav]

end

end BatchAVLVerifier

end Sparkz.Avl
