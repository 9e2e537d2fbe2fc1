import Sparkz.Lib.SortedMap
import Sparkz.Avl.ProverCalls
import Sparkz.Avl.ProverHistory
import Sparkz.Avl.TreeChecks

/-!
# The prover keeps a finite map

* `mapStep` — what an operation should do to a finite map; `BatchAVLProver.Maps` — the leaves
  of the prover hold a map, behind the leaf at negative infinity.
* `BatchAVLProver.Lives` — a prover between its calls; `Lives.perform`, `Lives.generateProof`
  — one call, `lives_run` — all of them.
* `checkTree_run` — the tree passes its check all along.
* `Lives.refines` — operations and lookups are those of the map.
-/

namespace Sparkz.Avl

open Sparkz.Lib Sparkz.Lib.LeafTree

/-! ## Maps -/

/-- What an operation should do to a finite map: nothing if it is refused. -/
def mapStep (P : TreeParams) (m : SortedMap ADKey ADValue) (operation : Operation) :
    Option (SortedMap ADKey ADValue) :=
  if ¬ P.InRange operation.key then none
  else
    match operation.updateFn with
    | none => some m
    | some updateFn =>
        match updateFn (m.get operation.key) with
        | .error _ => none
        | .ok none => some (m.erase operation.key)
        | .ok (some v) =>
            if ∀ vl ∈ P.valueLengthOpt, v.length = vl then some (m.insert operation.key v) else none

/-- The leaves of the prover hold the map, behind the leaf at negative infinity. -/
structure BatchAVLProver.Maps (P : TreeParams) (p : BatchAVLProver)
    (m : SortedMap ADKey ADValue) : Prop where
  leaves : BatchAVLProver.bindings p.tree.heap (p.tree.heap.length + 1) p.topNode
    = some ((P.negativeInfinityKey, BatchAVLProver.sentinelValue P) :: m.entries)
  inRange : ∀ e ∈ m.entries, P.InRange e.1 ∧ ∀ vl ∈ P.valueLengthOpt, e.2.length = vl

/-- The leaves of a tree hold the map, behind the leaf at negative infinity. -/
def TreeHolds (P : TreeParams) (t : Tree) (m : SortedMap ADKey ADValue) : Prop :=
  t.entries = (P.negativeInfinityKey, BatchAVLProver.sentinelValue P) :: m.entries

/-- The bindings that a tree may have.  Where there are no keys in range it is a single leaf. -/
structure Allowed (P : TreeParams) (t : Tree) : Prop where
  sentinel : t.get P.negativeInfinityKey = some (BatchAVLProver.sentinelValue P)
  values : ∀ {key v}, key ≠ P.negativeInfinityKey → t.get key = some v →
    P.InRange key ∧ ∀ vl ∈ P.valueLengthOpt, v.length = vl
  single : ¬ P.negativeInfinityKey < P.positiveInfinityKey →
    t.bare = .leaf none P.negativeInfinityKey (BatchAVLProver.sentinelValue P) P.positiveInfinityKey

section

variable {P : TreeParams} {operation : Operation} {t t' : Tree} {m m' : SortedMap ADKey ADValue}
  {key : ADKey}

theorem lengthFits_ok_iff {v : ADValue} :
    lengthFits P v = .ok () ↔ ∀ vl ∈ P.valueLengthOpt, v.length = vl := by
  unfold lengthFits
  cases hvl : P.valueLengthOpt with
  | none => simp
  | some vl => by_cases hlen : v.length = vl <;> simp [hlen]

theorem TreeHolds.get_of_ne (h : TreeHolds P t m) (hkey : key ≠ P.negativeInfinityKey) :
    t.get key = m.get key := by
  rw [LeafTree.get, h, List.find?_cons_of_neg (by simpa using hkey.symm)]
  rfl

theorem get_eq_of_bare (h : t'.bare = t.bare) (key : ADKey) : t'.get key = t.get key := by
  rw [LeafTree.get, LeafTree.get, entries_eq_of_bare h]

theorem Allowed.of_bare (h : Allowed P t) (hbare : t'.bare = t.bare) : Allowed P t' where
  sentinel := (get_eq_of_bare hbare _).trans h.sentinel
  values := fun hne hget => h.values hne ((get_eq_of_bare hbare _).symm.trans hget)
  single := fun hlt => hbare.trans (h.single hlt)

/-- The tree holds one map. -/
theorem Allowed.exists_map (h : Allowed P t)
    (hchain : P.negativeInfinityKey < P.positiveInfinityKey →
      Chain P.negativeInfinityKey P.positiveInfinityKey t) : ∃ m, TreeHolds P t m := by
  by_cases hlt : P.negativeInfinityKey < P.positiveInfinityKey
  · obtain ⟨v, rest, hent⟩ := (hchain hlt).entries_eq_cons
    have hsorted := (hchain hlt).sorted
    rw [hent] at hsorted
    refine ⟨⟨rest, (List.pairwise_cons.1 hsorted).2⟩, ?_⟩
    have hget := h.sentinel
    rw [LeafTree.get, hent, List.find?_cons_of_pos (by simp)] at hget
    obtain rfl : v = BatchAVLProver.sentinelValue P := Option.some.inj hget
    exact hent
  · refine ⟨SortedMap.empty, ?_⟩
    rw [TreeHolds, ← entries_bare, h.single hlt]
    rfl

/-- What the map holds is allowed. -/
theorem Allowed.inRange (h : Allowed P t) (hm : TreeHolds P t m)
    (hchain : P.negativeInfinityKey < P.positiveInfinityKey →
      Chain P.negativeInfinityKey P.positiveInfinityKey t) {e : ADKey × ADValue}
    (he : e ∈ m.entries) : P.InRange e.1 ∧ ∀ vl ∈ P.valueLengthOpt, e.2.length = vl := by
  by_cases hlt : P.negativeInfinityKey < P.positiveInfinityKey
  · have hsorted := (hchain hlt).sorted
    rw [hm] at hsorted
    have hne : e.1 ≠ P.negativeInfinityKey := ((List.pairwise_cons.1 hsorted).1 e he).ne'
    refine h.values hne ?_
    rw [hm.get_of_ne hne]
    exact SortedMap.get_eq_some_iff.2 he
  · have hent : t.entries = [(P.negativeInfinityKey, BatchAVLProver.sentinelValue P)] := by
      rw [← entries_bare, h.single hlt]
      rfl
    have hnil : m.entries = [] := (List.cons.inj (hm.symm.trans hent)).2
    rw [hnil] at he
    cases he

/-- An operation on a tree keeps it allowed. -/
theorem Allowed.operated (h : Allowed P t) (hkey : P.InRange operation.key)
    {act : Option (Action ADKey ADValue)}
    (hact : leafAction P operation (t.get operation.key) = .ok act)
    (hop : Operated P.negativeInfinityKey P.positiveInfinityKey operation.key t t'
      (newValue (t.get operation.key) act)) : Allowed P t' where
  sentinel := (hop.get_other _ hkey.1.ne).trans h.sentinel
  values := by
    intro key v hne hget
    by_cases heq : key = operation.key
    · subst heq
      rw [hop.get_self] at hget
      rcases leafAction_cases hact with rfl | ⟨rfl, _⟩ | ⟨w, rfl, _, hfits⟩ | ⟨w, rfl, _, hfits⟩
      · exact h.values hne hget
      · cases hget
      · cases hget
        exact ⟨hkey, lengthFits_ok_iff.1 hfits⟩
      · cases hget
        exact ⟨hkey, lengthFits_ok_iff.1 hfits⟩
    · exact h.values hne ((hop.get_other key heq).symm.trans hget)
  single := fun hlt => absurd (hkey.1.trans hkey.2.1) hlt

/-- The map after an operation that is not refused. -/
theorem mapStep_of_leafAction (hkey : P.InRange operation.key)
    {act : Option (Action ADKey ADValue)}
    (hact : leafAction P operation (m.get operation.key) = .ok act) :
    ∃ m', mapStep P m operation = some m'
      ∧ m'.get operation.key = newValue (m.get operation.key) act
      ∧ ∀ key, key ≠ operation.key → m'.get key = m.get key := by
  rw [mapStep, if_neg (not_not.2 hkey)]
  unfold leafAction at hact
  cases hfn : operation.updateFn with
  | none =>
    rw [hfn] at hact
    cases hact
    exact ⟨m, rfl, rfl, fun _ _ => rfl⟩
  | some updateFn =>
    rw [hfn] at hact
    simp only at hact ⊢
    cases hnew : updateFn (m.get operation.key) with
    | error e =>
      rw [hnew] at hact
      cases hact
    | ok new =>
      rw [hnew] at hact
      cases new with
      | none =>
        refine ⟨_, rfl, ?_, fun key hne => by rw [SortedMap.get_erase, if_neg hne]⟩
        rw [SortedMap.get_erase, if_pos rfl]
        cases hold : m.get operation.key with
        | none =>
          rw [hold] at hact
          cases hact
          rfl
        | some w =>
          rw [hold] at hact
          cases hact
          rfl
      | some v =>
        simp only at hact ⊢
        cases hfits : lengthFits P v with
        | error e =>
          rw [hfits] at hact
          cases hact
        | ok u =>
          rw [hfits] at hact
          rw [if_pos (lengthFits_ok_iff.1 hfits)]
          refine ⟨_, rfl, ?_, fun key hne => by rw [SortedMap.get_insert, if_neg hne]⟩
          rw [SortedMap.get_insert, if_pos rfl]
          cases hold : m.get operation.key with
          | none =>
            rw [hold] at hact
            cases hact
            rfl
          | some w =>
            rw [hold] at hact
            cases hact
            rfl

/-- An operation that is refused at its leaf. -/
theorem mapStep_of_refused {e : AvlError}
    (he : leafAction P operation (m.get operation.key) = .error e) :
    mapStep P m operation = none := by
  unfold leafAction at he
  rw [mapStep]
  cases hfn : operation.updateFn with
  | none =>
    rw [hfn] at he
    cases he
  | some updateFn =>
    rw [hfn] at he
    simp only at he ⊢
    cases hnew : updateFn (m.get operation.key) with
    | error e => split <;> rfl
    | ok new =>
      rw [hnew] at he
      cases new with
      | none => cases he
      | some v =>
        simp only at he ⊢
        cases hfits : lengthFits P v with
        | error e =>
          have hnot : ¬ ∀ vl ∈ P.valueLengthOpt, v.length = vl := by
            intro hlen
            rw [lengthFits_ok_iff.2 hlen] at hfits
            cases hfits
          rw [if_neg hnot]
          split <;> rfl
        | ok u =>
          rw [hfits] at he
          cases he

/-- The sentinel is no binding of the map. -/
theorem TreeHolds.get_negativeInfinityKey (h : TreeHolds P t m)
    (hchain : Chain P.negativeInfinityKey P.positiveInfinityKey t) :
    m.get P.negativeInfinityKey = none := by
  cases hget : m.get P.negativeInfinityKey with
  | none => rfl
  | some v =>
    have hsorted := hchain.sorted
    rw [h] at hsorted
    have hlt := (List.pairwise_cons.1 hsorted).1 _ (SortedMap.get_eq_some_iff.1 hget)
    exact absurd hlt (lt_irrefl _)

/-- A tree and a map that change alike. -/
theorem TreeHolds.changed (h : TreeHolds P t m)
    (hchain : Chain P.negativeInfinityKey P.positiveInfinityKey t) (ht : Allowed P t')
    (hchain' : Chain P.negativeInfinityKey P.positiveInfinityKey t')
    (hkey : key ≠ P.negativeInfinityKey) (hself : t'.get key = m'.get key)
    (hother : ∀ key', key' ≠ key → t'.get key' = t.get key')
    (hother' : ∀ key', key' ≠ key → m'.get key' = m.get key') : TreeHolds P t' m' := by
  obtain ⟨m₁, hm₁⟩ := ht.exists_map fun _ => hchain'
  have heq : m₁ = m' := by
    refine SortedMap.ext_get fun key' => ?_
    by_cases hneg : key' = P.negativeInfinityKey
    · rw [hneg, hm₁.get_negativeInfinityKey hchain', hother' _ hkey.symm,
        h.get_negativeInfinityKey hchain]
    · rw [← hm₁.get_of_ne hneg]
      by_cases hk : key' = key
      · rw [hk, hself]
      · rw [hother key' hk, hother' key' hk, h.get_of_ne hneg]
  exact heq ▸ hm₁

end

/-! ## The prover between its calls -/

/-- **The prover lives**: it stands for a tree with bindings that are allowed, and has a
history since its last proof. -/
structure BatchAVLProver.Lives (P : TreeParams) (p : BatchAVLProver) (t₀ t : Tree)
    (V : List Ref) : Prop where
  stands : p.Stands P t
  since : p.Since P t₀ t V
  allowed : Allowed P t

namespace BatchAVLProver

section

variable {P : TreeParams} {p : BatchAVLProver} {t₀ t : Tree} {V : List Ref}
  {m m' : SortedMap ADKey ADValue} {operation : Operation}

/-- The prover has the leaves of its tree. -/
theorem Lives.bindings_eq (h : p.Lives P t₀ t V) :
    bindings p.tree.heap (p.tree.heap.length + 1) p.topNode = some t.entries := by
  obtain ⟨M, hrep⟩ := h.stands.represents
  exact bindings_spec hrep (Nat.lt_succ_of_lt hrep.height_lt)

theorem Lives.maps (h : p.Lives P t₀ t V) (hm : TreeHolds P t m) : p.Maps P m where
  leaves := h.bindings_eq.trans (congrArg some hm)
  inRange := fun _ he => h.allowed.inRange hm h.stands.chain he

theorem Lives.treeHolds (h : p.Lives P t₀ t V) (hm : p.Maps P m) : TreeHolds P t m :=
  Option.some.inj (h.bindings_eq.symm.trans hm.leaves)

/-- **One operation**: it is refused and nothing happens, or it is performed on the tree, its way
is recorded and the nodes on it are visited. -/
theorem Lives.step (h : p.Lives P t₀ t V) {bits : List Bool} (hrec : p.tree.nav.Records bits)
    {operation : Operation} (hroom : p.HasRoom operation) :
    (∃ e p', p.performOneOperation P operation = (.error e, p') ∧ e.isRefusal = true
      ∧ (P.InRange operation.key → leafAction P operation (t.get operation.key) = .error e)
      ∧ p'.Lives P t₀ t V ∧ p'.tree.nav.Records bits)
    ∨ P.InRange operation.key ∧ ∃ act t' dh visits p',
      leafAction P operation (t.get operation.key) = .ok act
      ∧ operate t (searchPath operation.key false t) act = some (t', dh, visits)
      ∧ (t'.height : ℤ) = t.height + dh
      ∧ Operated P.negativeInfinityKey P.positiveInfinityKey operation.key t t'
          (newValue (t.get operation.key) act)
      ∧ p.performOneOperation P operation = (.ok (t.get operation.key), p')
      ∧ p'.Lives P t₀ t' (V ++ visits)
      ∧ p'.tree.nav.Records (bits ++ searchPath operation.key false t) := by
  by_cases hkey : P.InRange operation.key
  · cases hact : leafAction P operation (t.get operation.key) with
    | error e =>
      obtain ⟨p', hrun, hp⟩ := performOneOperation_refused h.stands hrec hroom hkey hact
      exact .inl ⟨e, p', hrun, leafAction_refusal hact, fun _ => rfl,
        ⟨hp.stands h.stands, h.since.refused hp, h.allowed⟩, hp.records⟩
    | ok act =>
      obtain ⟨t', dh, visits, hop, hheight, hdone⟩ :=
        operate_spec (h.stands.chain (hkey.1.trans hkey.2.1)) h.stands.balanced hkey.1 hkey.2.1 hact
      have hfits := h.stands.room hrec hroom
      obtain ⟨p', hrun, hp⟩ := performOneOperation_performed h.stands hrec (by omega) hkey hact hop
      exact .inr ⟨hkey, act, t', dh, visits, p', rfl, hop, hheight, hdone, hrun,
        ⟨hp.stands, h.since.performed hp hop, h.allowed.operated hkey hact hdone⟩, hp.records⟩
  · obtain ⟨e, p', hrun, he, hp⟩ := performOneOperation_outside h.stands hrec hroom hkey
    exact .inl ⟨e, p', hrun, he, fun h => absurd h hkey,
      ⟨hp.stands h.stands, h.since.refused hp, h.allowed⟩, hp.records⟩

/-- What the map refuses, the prover refuses too. -/
theorem Lives.refuse (h : p.Lives P t₀ t V) (hm : TreeHolds P t m) (hroom : p.HasRoom operation)
    (hstep : mapStep P m operation = none) :
    ∃ e p', p.performOneOperation P operation = (.error e, p') ∧ e.isRefusal = true
      ∧ p'.Lives P t₀ t V := by
  obtain ⟨bits, hrec⟩ := h.stands.records
  rcases h.step hrec hroom with ⟨e, p', hrun, he, _, hp, _⟩ | ⟨hkey, act, _, _, _, _, hact, _⟩
  · exact ⟨e, p', hrun, he, hp⟩
  · rw [hm.get_of_ne hkey.1.ne'] at hact
    obtain ⟨m', hstep', _⟩ := mapStep_of_leafAction hkey hact
    rw [hstep] at hstep'
    cases hstep'

/-- What the map does, the prover does too. -/
theorem Lives.perform (h : p.Lives P t₀ t V) (hm : TreeHolds P t m) (hroom : p.HasRoom operation)
    (hstep : mapStep P m operation = some m') :
    ∃ p' t' V', p.performOneOperation P operation = (.ok (m.get operation.key), p')
      ∧ p'.Lives P t₀ t' V' ∧ TreeHolds P t' m' := by
  obtain ⟨bits, hrec⟩ := h.stands.records
  have hkey : P.InRange operation.key := by
    by_contra hkey
    rw [mapStep, if_pos hkey] at hstep
    cases hstep
  have hget := hm.get_of_ne hkey.1.ne'
  have hchain := h.stands.chain (hkey.1.trans hkey.2.1)
  rcases h.step hrec hroom with ⟨e, p', _, _, hact, _⟩
    | ⟨_, act, t', dh, visits, p', hact, _, _, hdone, hrun, hp, _⟩
  · have he := hact hkey
    rw [hget] at he
    rw [mapStep_of_refused he] at hstep
    cases hstep
  · rw [hget] at hact
    obtain ⟨m₁, hstep₁, hself, hother⟩ := mapStep_of_leafAction hkey hact
    rw [hstep] at hstep₁
    cases hstep₁
    rw [← hget] at hself ⊢
    exact ⟨p', t', _, hrun, hp, hm.changed hchain hp.allowed hdone.chain hkey.1.ne'
      (hdone.get_self.trans hself.symm) hdone.get_other hother⟩

/-- Labels do not matter to the prover. -/
theorem Lives.cached {heap : Heap} (h : p.Lives P t₀ t V)
    (hc : Cached .prover P.hf p.tree.heap heap) :
    Lives P { p with tree := { p.tree with heap := heap } } t₀ t V :=
  ⟨h.stands.cached hc, h.since.cached hc, h.allowed⟩

theorem Lives.digest (h : p.Lives P t₀ t V) :
    ∃ p', p.digest P = (if t.height < 256 then .ok (treeLabel P.hf t ++ [UInt8.ofNat t.height])
        else .error .assertionFailed, p') ∧ p'.Lives P t₀ t V ∧ p'.tree.nav = p.tree.nav := by
  obtain ⟨heap, hrun, hcached⟩ := digest_cached h.stands
  exact ⟨_, hrun, h.cached hcached, rfl⟩

/-- A proof starts a new history. -/
theorem Lives.generateProof (h : p.Lives P t₀ t V) :
    ∃ p' t', p.generateProof P = (.ok ((pack P (provenTree P t₀ V) ([], false)).1
          ++ [endOfTreeInPackagedProof] ++ p.tree.nav.directions), p')
      ∧ t'.bare = t.bare ∧ p'.Lives P t' t' [] ∧ p'.oldTopNode = p'.topNode
      ∧ p'.tree.nav.Records [] := by
  obtain ⟨p', t', hrun, hbare, hnew⟩ := generateProof_spec h.stands h.since
  exact ⟨p', t', hrun, hbare, ⟨hnew.stands, hnew.since, h.allowed.of_bare hbare⟩, hnew.oldTopNode,
    hnew.records⟩

/-- Lookups are those of the map. -/
theorem Lives.unauthenticatedLookup (h : p.Lives P t₀ t V) (key : ADKey) :
    ∃ old, p.unauthenticatedLookup key = .ok old
      ∧ ∀ m, TreeHolds P t m → P.InRange key → old = m.get key := by
  obtain ⟨M, hrep⟩ := h.stands.represents
  obtain ⟨k, v, n, hleaf, hwalk⟩ :=
    lookupWalk_spec hrep (Nat.lt_succ_of_lt hrep.height_lt) key false
  refine ⟨_, hwalk, fun m hm hkey => ?_⟩
  have hchain := h.stands.chain (hkey.1.trans hkey.2.1)
  rw [Bool.false_or, ← hm.get_of_ne hkey.1.ne', get_of_search hchain hkey.1 hkey.2.1 hleaf]

/-- A new prover has an empty map and no history. -/
theorem new_lives (P : TreeParams) : (BatchAVLProver.new P).Lives P
    (.leaf (some 0) P.negativeInfinityKey (sentinelValue P) P.positiveInfinityKey)
    (.leaf (some 0) P.negativeInfinityKey (sentinelValue P) P.positiveInfinityKey) [] where
  stands := new_stands P
  since :=
    { old := ⟨false, ⟨_, rfl, rfl, fun l hl => by cases hl⟩, rfl, (own_false 0).symm⟩
      nodup := List.nodup_singleton _
      flags := by
        intro x hx
        obtain rfl := List.mem_singleton.1 hx
        exact ⟨_, rfl, rfl⟩
      opens := fun _ _ => ⟨.refl _, List.nil_subset _⟩ }
  allowed :=
    { sentinel := by rw [LeafTree.get, entries_leaf, List.find?_cons_of_pos (by simp)]; rfl
      values := by
        intro key v hne hget
        rw [LeafTree.get, entries_leaf, List.find?_cons_of_neg (by simpa using hne.symm)] at hget
        cases hget
      single := fun _ => rfl }

/-! ## Runs -/

/-- The calls that work on the tree of the prover: its operations, its proofs, and what looks
at the tree. -/
def Call.direct : Call → Bool
  | .performOneOperation _ => true
  | .generateProof => true
  | .digest => true
  | .unauthenticatedLookup _ => true
  | _ => false

theorem returns_of_refusal {e : AvlError} (he : e.isRefusal = true) :
    returns (.error e) = true := by
  cases e with
  | notTerminating => cases he
  | _ => rfl

theorem run_append (P : TreeParams) (first rest : List Call) (p : BatchAVLProver) :
    run P (first ++ rest) p = (run P first p).bind (run P rest) := by
  induction first generalizing p with
  | nil => rfl
  | cons c first ih =>
    rw [List.cons_append, run, run]
    split
    · exact ih _
    · rfl

/-- The first call of a run comes back. -/
theorem run_cons {c : Call} {calls : List Call} {p' : BatchAVLProver}
    (hrun : run P (c :: calls) p = some p') :
    returns (p.call P c).1 = true ∧ run P calls (p.call P c).2 = some p' := by
  rw [run] at hrun
  by_cases hreturns : returns (p.call P c).1 = true
  · rw [if_pos hreturns] at hrun
    exact ⟨hreturns, hrun⟩
  · rw [if_neg hreturns] at hrun
    cases hrun

theorem counted_append {calls later : List Call} (h : Counted P (calls ++ later) p) :
    Counted P calls p ∧ ∀ p', run P calls p = some p' → Counted P later p' := by
  induction calls generalizing p with
  | nil =>
    refine ⟨trivial, fun p' hrun => ?_⟩
    cases hrun
    exact h
  | cons c calls ih =>
    obtain ⟨hcalls, hlater⟩ := ih h.2
    exact ⟨⟨h.1, hcalls⟩, fun p' hrun => hlater p' (run_cons hrun).2⟩

/-- One call, if there is room for its bits. -/
theorem Lives.call (h : p.Lives P t₀ t V) {c : Call} (hc : c.direct = true)
    (hroom : p.RoomFor c) :
    returns (p.call P c).1 = true ∧ ∃ t₀' t' V', (p.call P c).2.Lives P t₀' t' V' := by
  cases c with
  | performOneOperation operation =>
    obtain ⟨m, hm⟩ := h.allowed.exists_map h.stands.chain
    rw [BatchAVLProver.call]
    cases hstep : mapStep P m operation with
    | none =>
      obtain ⟨e, p', hrun, he, hp⟩ := h.refuse hm hroom hstep
      rw [hrun]
      exact ⟨returns_of_refusal he, t₀, t, V, hp⟩
    | some m' =>
      obtain ⟨p', t', V', hrun, hp, _⟩ := h.perform hm hroom hstep
      rw [hrun]
      exact ⟨rfl, t₀, t', V', hp⟩
  | generateProof =>
    obtain ⟨p', t', hrun, _, hp, _⟩ := h.generateProof
    rw [BatchAVLProver.call, hrun]
    exact ⟨rfl, t', t', [], hp⟩
  | digest =>
    obtain ⟨p', hrun, hp, _⟩ := h.digest
    rw [BatchAVLProver.call, hrun]
    refine ⟨?_, t₀, t, V, hp⟩
    by_cases hlt : t.height < 256
    · rw [if_pos hlt]
      rfl
    · rw [if_neg hlt]
      rfl
  | unauthenticatedLookup key =>
    obtain ⟨old, hrun, _⟩ := h.unauthenticatedLookup key
    rw [BatchAVLProver.call, hrun]
    exact ⟨rfl, t₀, t, V, h⟩
  | generateProofForOperations operations => cases hc
  | removedNodes => cases hc
  | contains key l => cases hc

/-- **All calls** come back, and the prover lives on, as long as the bits are counted. -/
theorem lives_run {calls : List Call} (hcalls : ∀ c ∈ calls, c.direct = true)
    (hcounted : Counted P calls p) (h : p.Lives P t₀ t V) :
    ∃ p' t₀' t' V', run P calls p = some p' ∧ p'.Lives P t₀' t' V' := by
  induction calls generalizing p t₀ t V with
  | nil => exact ⟨p, t₀, t, V, rfl, h⟩
  | cons c calls ih =>
    obtain ⟨hreturns, t₀', t', V', hp⟩ := h.call (hcalls c (List.mem_cons_self ..)) hcounted.1
    rw [run, if_pos hreturns]
    exact ih (fun c hc => hcalls c (List.mem_cons_of_mem _ hc)) hcounted.2 hp

theorem exists_lives {calls : List Call} (hcalls : ∀ c ∈ calls, c.direct = true)
    (hcounted : Counted P calls (BatchAVLProver.new P)) :
    ∃ p t₀ t V, run P calls (BatchAVLProver.new P) = some p ∧ p.Lives P t₀ t V :=
  lives_run hcalls hcounted (new_lives P)

/-- The tree passes its check. -/
theorem Lives.checkTree (h : p.Lives P t₀ t V) {M : Set Ref}
    (hrep : Represents .prover P.hf p.tree.heap t p.topNode M) (postProof : Bool)
    (hclean : postProof = true → M = ∅ ∧ ∀ y ∈ t.allTags, Visited p.tree.heap y false) :
    p.checkTree P postProof = .ok () := by
  have hchecked : ∃ next key,
      checkTreeHelper p.tree.heap postProof (p.tree.heap.length + 1) p.topNode
      = .ok ⟨⟨P.negativeInfinityKey, next⟩, ⟨key, P.positiveInfinityKey⟩, t.height, true⟩ := by
    by_cases hlt : P.negativeInfinityKey < P.positiveInfinityKey
    · exact checkTreeHelper_spec hrep (h.stands.chain hlt) h.stands.balanced
        (Nat.lt_succ_of_lt hrep.height_lt) postProof hclean
    · have hsingle := h.allowed.single hlt
      cases t with
      | stub l => cases hsingle
      | node tag k l r b => cases hsingle
      | leaf tag k v n =>
        cases hsingle
        exact ⟨_, _, checkTreeHelper_leaf hrep _ postProof hclean⟩
  obtain ⟨next, key, hrun⟩ := hchecked
  rw [BatchAVLProver.checkTree, hrun]
  exact if_pos ⟨rfl, rfl, h.stands.height.symm, rfl⟩

/-- An operation fails by being refused only. -/
theorem Lives.isRefusal (h : p.Lives P t₀ t V) (hroom : p.HasRoom operation) {e : AvlError}
    (he : (p.performOneOperation P operation).1 = .error e) : e.isRefusal = true := by
  obtain ⟨m, hm⟩ := h.allowed.exists_map h.stands.chain
  cases hstep : mapStep P m operation with
  | none =>
    obtain ⟨e', p', hrun, he', _⟩ := h.refuse hm hroom hstep
    rw [hrun] at he
    cases he
    exact he'
  | some m' =>
    obtain ⟨p', t', V', hrun, _⟩ := h.perform hm hroom hstep
    rw [hrun] at he
    cases he

/-- **The tree is sound all along**, as long as the bits are counted: it stands for a balanced
chain of its height, it passes its check, and after a proof no node of it is new or visited.
Operations fail by being refused only. -/
theorem checkTree_run (P : TreeParams) {calls : List Call} (hcalls : ∀ c ∈ calls, c.direct = true)
    (hcounted : Counted P calls (BatchAVLProver.new P)) :
    ∃ p, run P calls (BatchAVLProver.new P) = some p ∧ (∃ t, p.Stands P t)
      ∧ p.checkTree P false = .ok ()
      ∧ (∀ operation e, p.HasRoom operation →
        (p.performOneOperation P operation).1 = .error e → e.isRefusal = true)
      ∧ ∃ proof p', p.generateProof P = (.ok proof, p') ∧ p'.checkTree P true = .ok () := by
  obtain ⟨p, t₀, t, V, hrun, h⟩ := exists_lives hcalls hcounted
  obtain ⟨M, hrep⟩ := h.stands.represents
  obtain ⟨p', t', hproof, _, h', htop, _⟩ := h.generateProof
  refine ⟨p, hrun, ⟨t, h.stands⟩, h.checkTree hrep false (fun hf => by cases hf),
    fun operation e hroom he => h.isRefusal hroom he, _, p', hproof, ?_⟩
  refine h'.checkTree (htop ▸ h'.since.old) true fun _ => ⟨rfl, fun y hy => ?_⟩
  have := h'.since.flags y hy
  rwa [decide_eq_false List.not_mem_nil] at this

/-- Keys of one byte and values of any length, with a hash that shows the first four bytes. -/
def oneByteKeys : TreeParams where
  keyLength := 1
  valueLengthOpt := none
  valueLength_lt := fun _ h => by cases h
  collectChangedNodes := true
  hf :=
    { digestSize := 4
      digestSize_pos := CryptographicHash.four_pos
      hash := fun message => (message ++ [0, 0, 0, 0]).take 4
      length_hash := CryptographicHash.length_take_four }

/-- Two keys are inserted, the second one twice, and one is removed. -/
def insertAndRemove : List Call :=
  [.performOneOperation (.insert ⟨[5]⟩ (.ofByte 1)), .generateProof,
    .performOneOperation (.insert ⟨[7]⟩ (.ofByte 2)),
    .performOneOperation (.insert ⟨[7]⟩ (.ofByte 3)), .performOneOperation (.remove ⟨[5]⟩)]

theorem insertAndRemove_direct : ∀ c ∈ insertAndRemove, c.direct = true := by
  simp [insertAndRemove, Call.direct]

theorem insertAndRemove_counted :
    Counted oneByteKeys insertAndRemove (BatchAVLProver.new oneByteKeys) := by
  decide +kernel

theorem checkTree_run_insertAndRemove :
    ∃ p, run oneByteKeys insertAndRemove (BatchAVLProver.new oneByteKeys) = some p
      ∧ p.checkTree oneByteKeys false = .ok ()
      ∧ ∃ proof p', p.generateProof oneByteKeys = (.ok proof, p')
        ∧ p'.checkTree oneByteKeys true = .ok () := by
  obtain ⟨p, hrun, _, hcheck, _, hproof⟩ :=
    checkTree_run oneByteKeys insertAndRemove_direct insertAndRemove_counted
  exact ⟨p, hrun, hcheck, hproof⟩

/-- **The prover refines a finite map** between its calls. -/
theorem Lives.refines (h : p.Lives P t₀ t V) :
    ∃ m, p.Maps P m
      ∧ (∀ key, P.InRange key → p.unauthenticatedLookup key = .ok (m.get key))
      ∧ ∀ operation, p.HasRoom operation →
        (mapStep P m operation = none →
          ∃ e p', p.performOneOperation P operation = (.error e, p') ∧ p'.Maps P m)
        ∧ ∀ m', mapStep P m operation = some m' →
          ∃ p', p.performOneOperation P operation = (.ok (m.get operation.key), p')
            ∧ p'.Maps P m' := by
  obtain ⟨m, hm⟩ := h.allowed.exists_map h.stands.chain
  refine ⟨m, h.maps hm, fun key hkey => ?_, fun operation hroom => ⟨fun hstep => ?_,
    fun m' hstep => ?_⟩⟩
  · obtain ⟨old, hlookup, hold⟩ := h.unauthenticatedLookup key
    rw [hlookup, hold m hm hkey]
  · obtain ⟨e, p', hperform, _, h'⟩ := h.refuse hm hroom hstep
    exact ⟨e, p', hperform, h'.maps hm⟩
  · obtain ⟨p', t', V', hperform, h', hm'⟩ := h.perform hm hroom hstep
    exact ⟨p', hperform, h'.maps hm'⟩

end

end BatchAVLProver

end Sparkz.Avl
