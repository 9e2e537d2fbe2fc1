import Sparkz.Avl.Labels
import Sparkz.Avl.NodePrograms
import Sparkz.Avl.ProverCalls
import Sparkz.Avl.ProverPath

/-!
# Runs of the prover

* `newValue` — the value that an action leaves for the key of its operation.
* `operate_spec` — an operation on a balanced chain succeeds, keeps it one, and changes the
  value of its key only.
* `BatchAVLProver.Stands` — the prover stands for a tree; `performOneOperation_refused`,
  `performOneOperation_performed`, `digest_spec` — its operations are refused, or do to the
  tree what they should, and its digest is that of the tree.
-/

namespace Sparkz.Avl

open Sparkz.Lib Sparkz.Lib.LeafTree

/-! ## One operation on a tree -/

/-- What becomes of the value of a key. -/
def newValue (old : Option ADValue) : Option (Action ADKey ADValue) → Option ADValue
  | none => none
  | some .keep => old
  | some (.update v) => some v
  | some (.insert _ v) => some v

theorem lengthFits_refusal {P : TreeParams} {v : ADValue} {e : AvlError}
    (h : lengthFits P v = .error e) :
    e.isRefusal = true := by
  unfold lengthFits at h
  split at h
  · cases h
  · split at h
    · cases h
    · cases h
      rfl

/-- What is refused at a leaf. -/
theorem leafAction_refusal {P : TreeParams} {operation : Operation} {old : Option ADValue}
    {e : AvlError} (he : leafAction P operation old = .error e) : e.isRefusal = true := by
  unfold leafAction at he
  split at he
  · cases he
  · split at he
    · cases he
      rfl
    · cases he
    · split at he
      · rename_i hfits
        cases he
        exact lengthFits_refusal hfits
      · cases he

/-- What an operation can do to a leaf. -/
theorem leafAction_cases {P : TreeParams} {operation : Operation} {old : Option ADValue}
    {act : Option (Action ADKey ADValue)} (h : leafAction P operation old = .ok act) :
    act = some .keep ∨ act = none ∧ old.isSome = true
      ∨ (∃ v, act = some (.update v) ∧ old.isSome = true ∧ lengthFits P v = .ok ())
      ∨ ∃ v, act = some (.insert operation.key v) ∧ old = none ∧ lengthFits P v = .ok () := by
  unfold leafAction at h
  cases hfn : operation.updateFn with
  | none =>
    rw [hfn] at h
    cases h
    exact .inl rfl
  | some updateFn =>
    rw [hfn] at h
    simp only at h
    cases hnew : updateFn old with
    | error e =>
      rw [hnew] at h
      cases h
    | ok new =>
      rw [hnew] at h
      cases new with
      | none =>
        cases old with
        | none =>
          cases h
          exact .inl rfl
        | some w =>
          cases h
          exact .inr (.inl ⟨rfl, rfl⟩)
      | some v =>
        simp only at h
        cases hfits : lengthFits P v with
        | error e =>
          rw [hfits] at h
          cases h
        | ok u =>
          rw [hfits] at h
          cases old with
          | none =>
            cases h
            exact .inr (.inr (.inr ⟨v, rfl, rfl, hfits⟩))
          | some w =>
            cases h
            exact .inr (.inr (.inl ⟨v, rfl, rfl, hfits⟩))

section

variable {P : TreeParams} {operation : Operation} {t : Tree} {lo hi : ADKey}

/-- What an operation makes of a balanced chain. -/
structure Operated (lo hi key : ADKey) (t t' : Tree) (new : Option ADValue) : Prop where
  chain : Chain lo hi t'
  balanced : t'.Balanced
  get_self : t'.get key = new
  get_other : ∀ key', key' ≠ key → t'.get key' = t.get key'

/-- A balanced chain in which the value of one key has changed. -/
theorem Operated.of_get {key : ADKey} {t' : Tree} {new : Option ADValue} (hchain : Chain lo hi t')
    (hbal : t'.Balanced) (hget : ∀ key', t'.get key' = if key' = key then new else t.get key') :
    Operated lo hi key t t' new where
  chain := hchain
  balanced := hbal
  get_self := by rw [hget, if_pos rfl]
  get_other := fun key' hne => by rw [hget, if_neg hne]

/-- **One operation on a tree** succeeds, and changes the value of its key only. -/
theorem operate_spec (hchain : Chain lo hi t) (hbal : t.Balanced) (hlo : lo < operation.key)
    (hhi : operation.key < hi) {act : Option (Action ADKey ADValue)}
    (hact : leafAction P operation (t.get operation.key) = .ok act) :
    ∃ t' dh visits, operate t (searchPath operation.key false t) act = some (t', dh, visits)
      ∧ (t'.height : ℤ) = t.height + dh
      ∧ Operated lo hi operation.key t t' (newValue (t.get operation.key) act) := by
  obtain ⟨k, v, n, hleaf, hmem, hmet, hunmet⟩ := search_spec hchain hlo hhi
  have hget := get_of_search hchain hlo hhi hleaf
  rcases leafAction_cases hact with rfl | ⟨rfl, hs⟩ | ⟨w, rfl, hs, _⟩ | ⟨w, rfl, hnone, _⟩
  · refine ⟨t, 0, pathTags t (searchPath operation.key false t), ?_, (add_zero _).symm,
      hchain, hbal, rfl, fun _ _ => rfl⟩
    rw [operate, modifyAt_keep hleaf]
    rfl
  · have hmeets := meets_of_isSome hchain hlo hhi hs
    obtain rfl := hmet hmeets
    obtain ⟨more, hreplay⟩ := replayOf_searchPath hmeets
    obtain ⟨t', down, visits, hdel, hbal', hheight, ⟨pre, post, hent, hent'⟩, hchain'⟩ :=
      deleteAt_spec hchain hbal hlo hmem more
    refine ⟨t', if down then -1 else 0, pathTags t (searchPath operation.key false t) ++ visits,
      ?_, ?_, .of_get hchain' hbal' fun key' => ?_⟩
    · rw [operate, modifyAt_keep hleaf, Option.bind_some, hreplay, hdel]
      rfl
    · cases down with
      | true =>
        rw [Bool.toNat_true] at hheight
        simp only [if_true]
        omega
      | false =>
        rw [Bool.toNat_false] at hheight
        simp only [Bool.false_eq_true, if_false]
        omega
    · rw [get_remove hchain hchain' hent hent' key']
      congr
  · obtain rfl := hmet (meets_of_isSome hchain hlo hhi hs)
    obtain ⟨t', up, hmod, hbal', hheight, _, ⟨pre, post, hent, hent'⟩, hchain'⟩ :=
      modifyAt_spec hbal hleaf (show Action.update w ≠ .keep by simp)
    have hc := hchain' lo hi trivial hchain
    refine ⟨t', if up then 1 else 0, _, by rw [operate, hmod]; rfl, ?_,
      .of_get hc hbal' fun key' => ?_⟩
    · rw [hheight]
      cases up <;> simp
    · have hent'' : t'.entries = pre ++ (operation.key, w) :: post := by
        rw [hent', Action.bindings, List.append_assoc, List.singleton_append]
      rw [get_update hchain hc hent hent'' key']
      congr
  · have hmeets : meets operation.key t = false := by
      cases hm : meets operation.key t with
      | false => rfl
      | true =>
        rw [hget, hm] at hnone
        cases hnone
    obtain ⟨hkn, hnk, _⟩ := hunmet hmeets
    obtain ⟨t', up, hmod, hbal', hheight, _, ⟨pre, post, hent, hent'⟩, hchain'⟩ :=
      modifyAt_spec hbal hleaf (show Action.insert operation.key w ≠ .keep by simp)
    have hc := hchain' lo hi ⟨hkn, hnk⟩ hchain
    refine ⟨t', if up then 1 else 0, _, by rw [operate, hmod]; rfl, ?_,
      .of_get hc hbal' fun key' => ?_⟩
    · rw [hheight]
      cases up <;> simp
    · rw [get_insert hchain hc hnone hent hent' key']
      congr

end

/-! ## Keys -/

/-- The keys that operations may have. -/
def TreeParams.InRange (P : TreeParams) (key : ADKey) : Prop :=
  key > P.negativeInfinityKey ∧ key < P.positiveInfinityKey ∧ key.length = P.keyLength

instance (P : TreeParams) (key : ADKey) : Decidable (P.InRange key) :=
  inferInstanceAs (Decidable (_ ∧ _ ∧ _))

/-- There are no keys of no bytes between the infinities. -/
theorem infinities_lt_iff (P : TreeParams) :
    P.negativeInfinityKey < P.positiveInfinityKey ↔ 0 < P.keyLength := by
  rw [TreeParams.negativeInfinityKey, TreeParams.positiveInfinityKey]
  cases P.keyLength with
  | zero => exact iff_of_false (lt_irrefl _) (lt_irrefl _)
  | succ n =>
    refine iff_of_true ?_ (Nat.succ_pos n)
    rw [List.replicate_succ, List.replicate_succ]
    exact List.Lex.rel (by decide)

/-! ## Room for the bits -/

namespace BatchAVLProver

/-- One step of the way. -/
theorem wayLength_node {heap : Heap} {x : Ref} {o : Node} (ho : heap[x]? = some o) {isNew : Bool}
    {k : ADKey} {l r : Ref} {b : Balance} (hc : o.content = .internalProverNode isNew k l r b)
    (fuel : ℕ) (key : ADKey) (found : Bool) :
    wayLength heap key (fuel + 1) x found
      = wayLength heap key fuel (if found || decide (key < k) then l else r)
        (found || decide (key = k)) + 1 := by
  rw [wayLength, ho, Option.map_some, hc]
  cases found with
  | true => rfl
  | false =>
    simp only [Bool.false_or, Bool.false_eq_true, if_false]
    rcases lt_trichotomy key k with hlt | rfl | hgt
    · rw [compare_lt_iff_lt.2 hlt, decide_eq_true hlt, if_pos rfl, decide_eq_false hlt.ne]
    · rw [compare_eq_iff_eq.2 rfl, decide_eq_false (lt_irrefl key), if_neg Bool.false_ne_true,
        decide_eq_true rfl]
    · rw [compare_gt_iff_gt.2 hgt, decide_eq_false hgt.not_gt, if_neg Bool.false_ne_true,
        decide_eq_false hgt.ne']

/-- The way through a tree is the search path. -/
theorem wayLength_spec {hf : CryptographicHash} {heap : Heap} {t : Tree} {x : Ref} {M : Set Ref}
    (hr : Represents .prover hf heap t x M) {fuel : ℕ} (hfuel : t.height < fuel) (key : ADKey)
    (found : Bool) : wayLength heap key fuel x found = (searchPath key found t).length := by
  induction t generalizing x M fuel found with
  | stub l => exact absurd hr.1 (by decide)
  | leaf tag k v n =>
    obtain ⟨fuel, rfl⟩ := Nat.exists_eq_succ_of_ne_zero (Nat.ne_of_gt (Nat.zero_lt_of_lt hfuel))
    obtain ⟨isNew, ⟨o, ho, hc, _⟩, _⟩ := hr
    rw [wayLength, ho, Option.map_some, hc]
    cases found <;> rfl
  | node tag k l r b ihl ihr =>
    obtain ⟨fuel, rfl⟩ := Nat.exists_eq_succ_of_ne_zero (Nat.ne_of_gt (Nat.zero_lt_of_lt hfuel))
    obtain ⟨isNew, lx, rx, Ml, Mr, ⟨o, ho, hc, _⟩, _, hl, hr, _⟩ := hr
    rw [height_node] at hfuel
    have hlf : l.height < fuel := by omega
    have hrf : r.height < fuel := by omega
    rw [wayLength_node ho hc]
    cases found with
    | true =>
      rw [Bool.true_or, Bool.true_or, if_pos rfl, ihl hl hlf, searchPath, List.length_cons]
    | false =>
      rw [Bool.false_or, Bool.false_or, searchPath]
      rcases lt_trichotomy key k with hlt | rfl | hgt
      · rw [decide_eq_true hlt, if_pos rfl, if_pos hlt, List.length_cons, ihl hl hlf,
          decide_eq_false hlt.ne]
      · rw [decide_eq_false (lt_irrefl key), if_neg Bool.false_ne_true, if_neg (lt_irrefl _),
          if_pos rfl, List.length_cons, ihr hr hrf, decide_eq_true rfl]
      · rw [decide_eq_false hgt.not_gt, if_neg Bool.false_ne_true, if_neg hgt.not_gt,
          if_neg hgt.ne', List.length_cons, ihr hr hrf, decide_eq_false hgt.ne']

end BatchAVLProver

/-! ## The prover -/

/-- **The prover stands for a tree.**  Where there are no keys in range the tree is never
changed, and it need not be a chain. -/
structure BatchAVLProver.Stands (P : TreeParams) (p : BatchAVLProver) (t : Tree) : Prop where
  represents : ∃ M, Represents .prover P.hf p.tree.heap t p.topNode M
  chain : P.negativeInfinityKey < P.positiveInfinityKey →
    Chain P.negativeInfinityKey P.positiveInfinityKey t
  balanced : t.Balanced
  height : p.tree.rootNodeHeight = t.height
  records : ∃ bits, p.tree.nav.Records bits
  found : p.tree.nav.found = false

section

variable {P : TreeParams} {p : BatchAVLProver} {t : Tree} {nav nav' : ProverNav}
  {bits : List Bool}

/-- A replay changes the place of the replay only. -/
theorem replay_eq (h : Replay proverNavigation nav nav') :
    nav' = { nav with replayIndex := wrapInt (nav.replayIndex + 1) } := by
  obtain ⟨c, hc⟩ := h
  change proverReplayComparison nav = _ at hc
  rcases proverReplayComparison_cases nav with ⟨c', hrun, _⟩ | hrun
  · rw [hrun] at hc
    cases hc
    rfl
  · rw [hrun] at hc
    cases hc

theorem replays_eq (h : Relation.ReflTransGen (Replay proverNavigation) nav nav') :
    ∃ i, nav' = { nav with replayIndex := i } := by
  induction h with
  | refl => exact ⟨nav.replayIndex, rfl⟩
  | tail _ hstep ih =>
    obtain ⟨i, rfl⟩ := ih
    exact ⟨wrapInt (i + 1), by rw [replay_eq hstep]⟩

theorem replays_records (h : Relation.ReflTransGen (Replay proverNavigation) nav nav')
    (hrec : nav.Records bits) : nav'.Records bits ∧ nav'.found = nav.found := by
  obtain ⟨i, rfl⟩ := replays_eq h
  exact ⟨⟨hrec.packs, hrec.length, hrec.count⟩, rfl⟩

/-- Keys out of range are refused at once. -/
theorem returnResult_outOfRange {N : Type} (nav : Navigation N) {operation : Operation}
    (h : ¬ P.InRange operation.key) :
    ∃ e, e.isRefusal = true ∧ ∀ x, returnResultOfOneOperation P nav operation x = throw e := by
  unfold returnResultOfOneOperation
  by_cases h₁ : operation.key > P.negativeInfinityKey
  · by_cases h₂ : operation.key < P.positiveInfinityKey
    · have h₃ : ¬ operation.key.length = P.keyLength := fun h₃ => h ⟨h₁, h₂, h₃⟩
      refine ⟨.requirementFailed, rfl, fun x => ?_⟩
      rw [if_neg (not_not.2 h₁), if_neg (not_not.2 h₂), if_pos h₃]
    · refine ⟨.keyMoreThanPositiveInfinity operation.key, rfl, fun x => ?_⟩
      rw [if_neg (not_not.2 h₁), if_pos h₂]
  · refine ⟨.keyLessThanNegativeInfinity operation.key, rfl, fun x => ?_⟩
    rw [if_pos h₁]

theorem returnResult_inRange {N : Type} {nav : Navigation N} {operation : Operation}
    (h : P.InRange operation.key) (x : Ref) :
    returnResultOfOneOperation P nav operation x = performOperation P nav operation x := by
  rw [returnResultOfOneOperation, if_neg (not_not.2 h.1), if_neg (not_not.2 h.2.1),
    if_neg (not_not.2 h.2.2)]

namespace BatchAVLProver

/-- Room, in terms of the bits that are recorded. -/
theorem hasRoom_iff (hrec : p.tree.nav.Records bits) {operation : Operation} :
    p.HasRoom operation ↔ bits.length
      + wayLength p.tree.heap operation.key (p.tree.heap.length + 1) p.topNode false + 14
        < 2 ^ 31 := by
  rw [HasRoom]
  constructor
  · rintro ⟨hnonneg, hlt⟩
    rw [hrec.length, wrapInt_nonneg_iff hrec.count] at hnonneg
    rw [hrec.length_eq hnonneg] at hlt
    exact_mod_cast hlt
  · intro hlt
    rw [hrec.length_eq (by omega)]
    exact ⟨Int.natCast_nonneg _, by exact_mod_cast hlt⟩

theorem Stands.hasRoom_iff (h : p.Stands P t) (hrec : p.tree.nav.Records bits)
    {operation : Operation} : p.HasRoom operation
      ↔ bits.length + (searchPath operation.key false t).length + 14 < 2 ^ 31 := by
  obtain ⟨M, hrep⟩ := h.represents
  rw [BatchAVLProver.hasRoom_iff hrec, wayLength_spec hrep (Nat.lt_succ_of_lt hrep.height_lt)]

/-- The bits of an operation for which there is room. -/
theorem Stands.room (h : p.Stands P t) (hrec : p.tree.nav.Records bits) {operation : Operation}
    (hroom : p.HasRoom operation) :
    bits.length + (searchPath operation.key false t).length + 14 < 2 ^ 31 :=
  (h.hasRoom_iff hrec).1 hroom

theorem undoOperation_ok {e : AvlError} (he : e.isRefusal = true) {s : TreeState ProverNav}
    (hundo : undoDirections s.nav = .ok () nav) :
    p.undoOperation e s = (.error e, { p with tree := { s with nav := nav } }) := by
  have hne : e ≠ .notTerminating := by
    rintro rfl
    cases he
  rw [undoOperation, if_neg hne, hundo]

/-- What an operation that is refused leaves behind: the tree and the directions of before. -/
structure Refused (bits : List Bool) (p p' : BatchAVLProver) : Prop where
  heap : p'.tree.heap = p.tree.heap
  rootNodeHeight : p'.tree.rootNodeHeight = p.tree.rootNodeHeight
  topNode : p'.topNode = p.topNode
  oldTopNode : p'.oldTopNode = p.oldTopNode
  records : p'.tree.nav.Records bits
  found : p'.tree.nav.found = false

theorem Refused.stands {p' : BatchAVLProver} (hp : Refused bits p p') (h : p.Stands P t) :
    p'.Stands P t where
  represents := by
    rw [hp.heap, hp.topNode]
    exact h.represents
  chain := h.chain
  balanced := h.balanced
  height := hp.rootNodeHeight.trans h.height
  records := ⟨bits, hp.records⟩
  found := hp.found

/-- What an operation that is performed leaves behind: its way is recorded, the nodes it
visited are marked, and the tree has changed. -/
structure Performed (P : TreeParams) (bits path : List Bool) (visits : List Ref) (t t' : Tree)
    (p p' : BatchAVLProver) : Prop where
  stands : p'.Stands P t'
  oldTopNode : p'.oldTopNode = p.oldTopNode
  records : p'.tree.nav.Records (bits ++ path)
  yields : ∃ M, Represents .prover P.hf p.tree.heap t p.topNode M
    ∧ Yields .prover P.hf p.tree.heap p'.tree.heap M visits t' p'.topNode

/-- An operation on a key out of range throws before it moves, and is taken back. -/
theorem performOneOperation_undone (p : BatchAVLProver) {operation : Operation}
    (hkey : ¬ P.InRange operation.key) :
    ∃ e : AvlError, e.isRefusal = true ∧ p.performOneOperation P operation
      = p.undoOperation e { p.tree with nav :=
        { p.tree.nav with replayIndex := p.tree.nav.directionsBitLength } } := by
  set start := { p.tree with nav :=
    { p.tree.nav with replayIndex := p.tree.nav.directionsBitLength } } with hstart
  obtain ⟨e, hrefusal, hthrow⟩ := returnResult_outOfRange proverNavigation hkey
  have hrun : returnResultOfOneOperation P proverNavigation operation p.topNode start
      = .error e start := by
    rw [hthrow]
    rfl
  refine ⟨e, hrefusal, ?_⟩
  rw [performOneOperation]
  simp only [← hstart, bind_error hrun]

/-- An operation on a key out of range is refused. -/
theorem performOneOperation_outside (h : p.Stands P t) (hrec : p.tree.nav.Records bits)
    {operation : Operation} (hroom : p.HasRoom operation) (hkey : ¬ P.InRange operation.key) :
    ∃ e p', p.performOneOperation P operation = (.error e, p') ∧ e.isRefusal = true
      ∧ Refused bits p p' := by
  obtain ⟨e, hrefusal, hundone⟩ := p.performOneOperation_undone hkey
  set start : TreeState ProverNav := { p.tree with nav :=
    { p.tree.nav with replayIndex := p.tree.nav.directionsBitLength } }
  have hrec' : Packs start.nav.directions (bits ++ []) := by
    rw [List.append_nil]
    exact hrec.packs
  have hfits := h.room hrec hroom
  obtain ⟨nav', hundo, hrec₁, hfound⟩ := undoDirections_ok hrec' (hrec.length_eq (by omega))
    (by omega) (by rw [List.append_nil]; omega)
  rw [hundone, undoOperation_ok hrefusal hundo]
  exact ⟨e, _, rfl, hrefusal, rfl, rfl, rfl, rfl, hrec₁, hfound.trans h.found⟩

/-- An operation on a key out of range fails and changes nothing. -/
theorem performOneOperation_outOfRange (h : p.Stands P t) {operation : Operation}
    (hroom : p.HasRoom operation) (hkey : ¬ P.InRange operation.key) :
    ∃ e p', p.performOneOperation P operation = (.error e, p') ∧ p'.Stands P t := by
  obtain ⟨bits, hrec⟩ := h.records
  obtain ⟨e, p', hrun, _, hp⟩ := performOneOperation_outside h hrec hroom hkey
  exact ⟨e, p', hrun, hp.stands h⟩

/-- An operation whose update function fails, or yields a value of the wrong length, is
refused. -/
theorem performOneOperation_refused (h : p.Stands P t) (hrec : p.tree.nav.Records bits)
    {operation : Operation} (hroom : p.HasRoom operation) (hkey : P.InRange operation.key)
    {e : AvlError} (he : leafAction P operation (t.get operation.key) = .error e) :
    ∃ p', p.performOneOperation P operation = (.error e, p') ∧ Refused bits p p' := by
  obtain ⟨M, hrep⟩ := h.represents
  have hchain := h.chain (hkey.1.trans hkey.2.1)
  set start := { p.tree with nav :=
    { p.tree.nav with replayIndex := p.tree.nav.directionsBitLength } } with hstart
  have hrec' : start.nav.Records bits := ⟨hrec.packs, hrec.length, hrec.count⟩
  have hrep' : Represents proverNavigation.mode P.hf start.heap t p.topNode M := hrep
  have hfits := h.room hrec hroom
  have hnot : start.nav.found = false := h.found
  obtain ⟨nav', k, v, n, hleaf, hwalk, hdescend⟩ :=
    @descend_prover P operation t start.nav bits _ _ hchain hrec' (by rw [hnot]; omega)
  rw [hnot] at hleaf hdescend
  rw [Bool.false_or, ← get_of_search hchain hkey.1 hkey.2.1 hleaf, he] at hdescend
  have hrun := performOperation_error hrep' hdescend
  rw [← returnResult_inRange hkey] at hrun
  have hwalked := hwalk.records.packs
  rw [hnot] at hwalked
  obtain ⟨nav₁, hundo, hrec₁, hfound⟩ := undoDirections_ok hwalked
    (hwalk.replayIndex.trans (hrec.length_eq (by omega))) (by omega)
    (by rw [List.length_append]; omega)
  rw [performOneOperation]
  simp only [← hstart, bind_error hrun]
  rw [undoOperation_ok (leafAction_refusal he) hundo]
  exact ⟨_, rfl, rfl, rfl, rfl, rfl, hrec₁, hfound.trans hwalk.found⟩

/-- The way of an operation that is not refused is recorded, and can be replayed. -/
theorem Stands.way (h : p.Stands P t) (hrec : p.tree.nav.Records bits) {operation : Operation}
    (hcount : bits.length + (searchPath operation.key false t).length ≤ 2 ^ 31)
    (hkey : P.InRange operation.key) {act : Option (Action ADKey ADValue)}
    (hact : leafAction P operation (t.get operation.key) = .ok act) :
    ∃ nav', descend P proverNavigation operation t
        { p.tree.nav with replayIndex := p.tree.nav.directionsBitLength }
        = .ok (searchPath operation.key false t, act, t.get operation.key) nav'
      ∧ nav'.Records (bits ++ searchPath operation.key false t) ∧ nav'.found = false
      ∧ (act = none →
        Replays proverNavigation nav' (replayOf (searchPath operation.key false t))) := by
  have hchain := h.chain (hkey.1.trans hkey.2.1)
  set nav₀ : ProverNav :=
    { p.tree.nav with replayIndex := p.tree.nav.directionsBitLength } with hnav₀
  have hrec' : nav₀.Records bits := ⟨hrec.packs, hrec.length, hrec.count⟩
  have hnot : nav₀.found = false := h.found
  obtain ⟨nav', k, v, n, hleaf, hwalk, hdescend⟩ :=
    @descend_prover P operation t nav₀ bits _ _ hchain hrec' (by rw [hnot]; omega)
  rw [hnot] at hleaf hdescend
  rw [Bool.false_or, ← get_of_search hchain hkey.1 hkey.2.1 hleaf, hact] at hdescend
  have hwalked : nav'.Records (bits ++ searchPath operation.key false t) := hnot ▸ hwalk.records
  refine ⟨nav', hdescend, hwalked, hwalk.found, ?_⟩
  rintro rfl
  refine replays_prover _ hwalked.packs hcount (hwalk.replayIndex.trans hrec.length) (.inr ?_)
  refine hwalk.met hnot ?_
  rcases leafAction_cases hact with h₁ | ⟨_, hs⟩ | ⟨_, h₁, _⟩ | ⟨_, h₁, _⟩
  · cases h₁
  · rw [get_of_search hchain hkey.1 hkey.2.1 hleaf] at hs
    cases hmeets : meets operation.key t with
    | true => rfl
    | false =>
      rw [hmeets] at hs
      cases hs
  · cases h₁
  · cases h₁

/-- An operation that is not refused does to the tree what it should, as long as its bits are
counted. -/
theorem performOneOperation_performed (h : p.Stands P t) (hrec : p.tree.nav.Records bits)
    {operation : Operation}
    (hcount : bits.length + (searchPath operation.key false t).length ≤ 2 ^ 31)
    (hkey : P.InRange operation.key)
    {act : Option (Action ADKey ADValue)}
    (hact : leafAction P operation (t.get operation.key) = .ok act) {t' : Tree} {dh : ℤ}
    {visits : List Ref}
    (hop : operate t (searchPath operation.key false t) act = some (t', dh, visits)) :
    ∃ p', p.performOneOperation P operation = (.ok (t.get operation.key), p')
      ∧ Performed P bits (searchPath operation.key false t) visits t t' p p' := by
  obtain ⟨M, hrep⟩ := h.represents
  have hchain := h.chain (hkey.1.trans hkey.2.1)
  set start := { p.tree with nav :=
    { p.tree.nav with replayIndex := p.tree.nav.directionsBitLength } } with hstart
  have hrep' : Represents proverNavigation.mode P.hf start.heap t p.topNode M := hrep
  obtain ⟨nav', hdescend, hwalked, hnotfound, hreplays⟩ := h.way hrec hcount hkey hact
  obtain ⟨t₁, dh₁, visits₁, hop₁, hheight, hdone⟩ :=
    operate_spec hchain h.balanced hkey.1 hkey.2.1 hact
  rw [hop₁] at hop
  cases hop
  have hdescend' : descend P proverNavigation operation t start.nav = _ := hdescend
  have hsim := performOperation_spec hrep' hdescend' hreplays
  obtain ⟨⟨x', old⟩, s', hrun, rfl, hnav, hroot, hyields⟩ := hsim.of_some hop₁
  obtain ⟨M', hrep₁, _⟩ := hyields.2
  rw [← returnResult_inRange hkey] at hrun
  rw [performOneOperation]
  simp only [← hstart, bind_ok hrun, bind_ok (castProver_ok hrep₁.castable)]
  obtain ⟨hrecs, hfound⟩ := replays_records hnav hwalked
  refine ⟨_, rfl, ⟨⟨M', hrep₁⟩, fun _ => hdone.chain, hdone.balanced, ?_, ⟨_, hrecs⟩,
    hfound.trans hnotfound⟩, rfl, hrecs, M, hrep, hyields⟩
  exact (hroot.trans (congrArg (· + dh) h.height)).trans hheight.symm

/-- **An operation of the prover** does what it does to the tree, or fails and changes
nothing. -/
theorem performOneOperation_spec (h : p.Stands P t) {operation : Operation}
    (hroom : p.HasRoom operation) (hkey : P.InRange operation.key) :
    (∀ e, leafAction P operation (t.get operation.key) = .error e →
      ∃ p', p.performOneOperation P operation = (.error e, p') ∧ p'.Stands P t)
    ∧ ∀ act, leafAction P operation (t.get operation.key) = .ok act →
      ∀ t' dh visits, operate t (searchPath operation.key false t) act = some (t', dh, visits) →
        ∃ p', p.performOneOperation P operation = (.ok (t.get operation.key), p')
          ∧ p'.Stands P t' := by
  obtain ⟨bits, hrec⟩ := h.records
  refine ⟨fun e he => ?_, fun act hact t' dh visits hop => ?_⟩
  · obtain ⟨p', hrun, hp⟩ := performOneOperation_refused h hrec hroom hkey he
    exact ⟨p', hrun, hp.stands h⟩
  · have hfits := h.room hrec hroom
    obtain ⟨p', hrun, hp⟩ := performOneOperation_performed h hrec (by omega) hkey hact hop
    exact ⟨p', hrun, hp.stands⟩

/-- Labels do not matter to the tree. -/
theorem Stands.cached {heap : Heap} (h : p.Stands P t)
    (hc : Cached .prover P.hf p.tree.heap heap) :
    BatchAVLProver.Stands P { p with tree := { p.tree with heap := heap } } t := by
  obtain ⟨M, hrep⟩ := h.represents
  exact ⟨⟨M, hc.kept hrep⟩, h.chain, h.balanced, h.height, h.records, h.found⟩

/-- The digest of the prover is that of its tree, and labels are all that it changes. -/
theorem digest_cached (h : p.Stands P t) :
    ∃ heap, p.digest P
        = (if t.height < 256 then .ok (treeLabel P.hf t ++ [UInt8.ofNat t.height])
            else .error .assertionFailed, { p with tree := { p.tree with heap := heap } })
      ∧ Cached .prover P.hf p.tree.heap heap := by
  obtain ⟨M, hrep⟩ := h.represents
  obtain ⟨heap, hrun, hcached⟩ :=
    digestOf_spec hrep h.height (Nat.lt_succ_of_lt hrep.height_lt)
  refine ⟨heap, ?_, hcached⟩
  rw [digest, hrun]
  by_cases hlt : t.height < 256
  · rw [if_pos hlt, if_pos hlt]
  · rw [if_neg hlt, if_neg hlt]

/-- The digest of the prover is that of its tree; the prover stands for it as before. -/
theorem digest_spec (h : p.Stands P t) :
    (p.digest P).1 = (if t.height < 256 then .ok (treeLabel P.hf t ++ [UInt8.ofNat t.height])
        else .error .assertionFailed)
      ∧ (p.digest P).2.Stands P t := by
  obtain ⟨heap, hrun, hcached⟩ := digest_cached h
  rw [hrun]
  exact ⟨rfl, h.cached hcached⟩

/-- A new prover stands for a single leaf. -/
theorem new_stands (P : TreeParams) : (BatchAVLProver.new P).Stands P
    (.leaf (some 0) P.negativeInfinityKey (sentinelValue P) P.positiveInfinityKey) where
  represents := ⟨own 0 false, false, ⟨_, rfl, rfl, fun l hl => by cases hl⟩, rfl, rfl⟩
  chain := fun h => ⟨rfl, rfl, h⟩
  balanced := trivial
  height := rfl
  records := ⟨[], .nil rfl rfl⟩
  found := rfl

end BatchAVLProver

end

end Sparkz.Avl
