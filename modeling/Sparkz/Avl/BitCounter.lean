import Sparkz.Avl.FailedOperations

/-!
# Bits that are not counted any more

The prover counts its bits in an `Int` and never looks whether there is room for more.  A step to
the right is recorded at any count, so that lookups go on.

* `ProverNav.Overruns` — any number of bits are recorded; `recordDirection_right` — and one more.
* `BatchAVLProver.Overruns` — a prover with that many bits; `Overruns.lookup`, `overruns_run` —
  lookups on the right go on.
* `refused_loses` — after 2 ^ 31 bits a refused operation loses them all; `not_unchanged`.
* `step_left_throws` — after one more bit a step to the left throws; `overrun_throws`.
* `performOperation_misled` — a removal that replays other bits than its own fails an assertion;
  `not_checkTree` — after 2 ^ 32 bits one does.
-/

namespace Sparkz.Avl

open Sparkz.Lib Sparkz.Lib.LeafTree

/-! ## Recording bits -/

/-- The prover has recorded `n` bits, which may be more than it can count.  The first bytes of
them are never changed by steps to the right. -/
structure ProverNav.Overruns (nav : ProverNav) (first : UInt8) (n : ℕ) : Prop where
  head : nav.directions.head? = some first
  bytes : nav.directions.length = (n + 7) / 8
  length : nav.directionsBitLength = wrapInt n

section

variable {nav : ProverNav} {first : UInt8} {n : ℕ}

/-- A step to the right is recorded, whatever the count is. -/
theorem recordDirection_right (h : nav.Overruns first n) :
    ∃ nav', recordDirection false nav = .ok () nav' ∧ nav'.Overruns first (n + 1)
      ∧ nav'.found = nav.found ∧ nav'.replayIndex = nav.replayIndex
      ∧ nav'.lastRightStep = nav.lastRightStep := by
  have hlength : wrapInt (nav.directionsBitLength + 1) = wrapInt (n + 1 : ℕ) := by
    rw [h.length, wrapInt_add_wrapInt, Nat.cast_add, Nat.cast_one]
  have hpad : nav.directionsBitLength % 8 = n % 8 := by
    rw [h.length, wrapInt_emod_eight]
  have hbytes := h.bytes
  by_cases hnew : n % 8 = 0
  · refine ⟨{ nav with
        directions := nav.directions ++ [0]
        directionsBitLength := wrapInt (nav.directionsBitLength + 1) }, ?_, ⟨?_, ?_, hlength⟩,
      rfl, rfl, rfl⟩
    · show (if nav.directionsBitLength % 8 = 0 then _ else _ : EStateM AvlError ProverNav Unit) nav
        = _
      rw [if_pos (by omega)]
      rfl
    · rw [List.head?_append, h.head]
      rfl
    · rw [List.length_append, List.length_singleton]
      omega
  · refine ⟨{ nav with directionsBitLength := wrapInt (nav.directionsBitLength + 1) }, ?_,
      ⟨h.head, ?_, hlength⟩, rfl, rfl, rfl⟩
    · show (if nav.directionsBitLength % 8 = 0 then _ else _ : EStateM AvlError ProverNav Unit) nav
        = _
      rw [if_neg (by omega)]
      rfl
    · show nav.directions.length = _
      omega

/-- **A step to the left** is lost where the count is negative, unless it is the first of a byte. -/
theorem step_left_throws (hneg : nav.directionsBitLength < 0)
    (hpad : nav.directionsBitLength % 8 ≠ 0) :
    recordDirection true nav = .error .indexOutOfBounds nav := by
  show (if nav.directionsBitLength % 8 = 0 then _ else _ : EStateM AvlError ProverNav Unit) nav = _
  rw [if_neg hpad, if_pos rfl, directionsByte, if_pos hneg]
  rfl

/-- The way to the key of the root, with its leaf on the right. -/
theorem descend_root {P : TreeParams} (h : nav.Overruns first n) (hfound : nav.found = false)
    (tag tag' : Option Ref) (key nextLeafKey : ADKey) (v : ADValue) (l : Tree) (b : Balance) :
    ∃ nav', descend P proverNavigation (.lookup key)
        (.node tag key l (.leaf tag' key v nextLeafKey) b) nav
        = .ok ([false], some .keep, some v) nav'
      ∧ nav'.Overruns first (n + 1) ∧ nav'.found = false := by
  have hdir := proverDirection_ok nav key key
  rw [hfound, if_neg Bool.false_ne_true, if_neg (lt_irrefl key), if_pos rfl] at hdir
  have hmet : ProverNav.Overruns
      { nav with found := true, lastRightStep := nav.directionsBitLength } first n :=
    ⟨h.head, h.bytes, h.length⟩
  obtain ⟨nav₁, hrecord, hoverruns, hmet₁, _⟩ := recordDirection_right hmet
  have hstep : proverNavigation.nextDirectionIsLeft (Operation.lookup key).key
      (nodeKey proverNavigation.mode key) nav = _ := nextDirectionIsLeft_eq hdir
  rw [hrecord] at hstep
  have hmatch : proverNavigation.keyMatchesLeaf (Operation.lookup key).key key nextLeafKey nav₁
      = .ok nav₁.found { nav₁ with found := false } := rfl
  rw [hmet₁] at hmatch
  refine ⟨{ nav₁ with found := false }, ?_, ⟨hoverruns.head, hoverruns.bytes, hoverruns.length⟩,
    rfl⟩
  rw [descend_node, hstep]
  simp only [Bool.false_eq_true, if_false, descend_leaf, hmatch, if_true]
  rfl

end

/-! ## Lookups at any count -/

namespace BatchAVLProver

/-- The prover stands for a tree and has recorded `n` bits. -/
structure Overruns (P : TreeParams) (p : BatchAVLProver) (t : Tree) (first : UInt8) (n : ℕ) :
    Prop where
  represents : ∃ M, Represents .prover P.hf p.tree.heap t p.topNode M
  nav : p.tree.nav.Overruns first n
  found : p.tree.nav.found = false

section

variable {P : TreeParams} {p : BatchAVLProver} {tag tag' : Option Ref} {key nextLeafKey : ADKey}
  {v : ADValue} {l : Tree} {b : Balance} {first : UInt8} {n : ℕ}

/-- A lookup of the key of the root, with its leaf on the right. -/
theorem Overruns.lookup
    (h : p.Overruns P (.node tag key l (.leaf tag' key v nextLeafKey) b) first n)
    (hkey : P.InRange key) :
    ∃ p', p.performOneOperation P (.lookup key) = (.ok (some v), p')
      ∧ p'.Overruns P (.node tag key l (.leaf tag' key v nextLeafKey) b) first (n + 1) := by
  obtain ⟨M, hrep⟩ := h.represents
  set start := { p.tree with nav :=
    { p.tree.nav with replayIndex := p.tree.nav.directionsBitLength } } with hstart
  have hnav : start.nav.Overruns first n := ⟨h.nav.head, h.nav.bytes, h.nav.length⟩
  obtain ⟨nav', hdescend, hoverruns, hnotfound⟩ :=
    descend_root (P := P) hnav h.found tag tag' key nextLeafKey v l b
  have hrep' : Represents proverNavigation.mode P.hf start.heap _ p.topNode M := hrep
  have hop : operate (.node tag key l (.leaf tag' key v nextLeafKey) b : Tree) [false] (some .keep)
      = some (.node tag key l (.leaf tag' key v nextLeafKey) b, 0, tag.toList ++ tag'.toList) := rfl
  have hsim := performOperation_spec hrep' hdescend fun hnone => by cases hnone
  obtain ⟨⟨x', old⟩, s', hrun, rfl, hnav', _, hyields⟩ := hsim.of_some hop
  obtain ⟨M', hrep₁, _⟩ := hyields.2
  obtain ⟨i, hkept⟩ := replays_eq hnav'
  have hkey' : P.InRange (Operation.lookup key).key := hkey
  rw [← returnResult_inRange hkey'] at hrun
  refine ⟨{ p with tree := s', topNode := x' }, ?_, ⟨M', hrep₁⟩, ?_, ?_⟩
  · rw [performOneOperation]
    simp only [← hstart, bind_ok hrun, bind_ok (castProver_ok hrep₁.castable)]
    rfl
  · show s'.nav.Overruns first (n + 1)
    rw [hkept]
    exact ⟨hoverruns.head, hoverruns.bytes, hoverruns.length⟩
  · show s'.nav.found = false
    rw [hkept]
    exact hnotfound

/-- **Lookups go on** at any count. -/
theorem overruns_run
    (h : p.Overruns P (.node tag key l (.leaf tag' key v nextLeafKey) b) first n)
    (hkey : P.InRange key) (m : ℕ) :
    ∃ p', run P (List.replicate m (.performOneOperation (.lookup key))) p = some p'
      ∧ p'.Overruns P (.node tag key l (.leaf tag' key v nextLeafKey) b) first (n + m) := by
  induction m generalizing p n with
  | zero => exact ⟨p, rfl, h⟩
  | succ m ih =>
    obtain ⟨p₁, hperform, h₁⟩ := h.lookup hkey
    obtain ⟨p', hrun, h'⟩ := ih h₁
    rw [Nat.add_assoc, Nat.add_comm 1 m] at h'
    refine ⟨p', ?_, h'⟩
    rw [List.replicate_succ, run, call, hperform]
    exact hrun

/-! ## What goes wrong -/

/-- All bits are lost when an operation is taken back after 2 ^ 31 bits. -/
theorem undoDirections_loses {nav : ProverNav} (hreplay : nav.replayIndex = -2 ^ 31)
    (hbytes : nav.directions.length ≤ 2 ^ 28) :
    undoDirections nav = .ok () { nav with
      directions := [], directionsBitLength := nav.replayIndex } := by
  have hold : (wrapInt (nav.replayIndex + 7)).tdiv 8 = -268435455 := by
    rw [hreplay]
    decide
  have htrim : trimEnd nav.directions
      (wrapInt (nav.directions.length - (wrapInt (nav.replayIndex + 7)).tdiv 8)) = [] := by
    rw [hold, trimEnd, wrapInt_of_lt (by omega) (by omega), List.take_eq_nil_iff]
    omega
  have hrun : undoDirections nav = (if nav.replayIndex % 8 > 0 then _ else pure () :
      EStateM AvlError ProverNav Unit) { nav with
        directions := trimEnd nav.directions
          (wrapInt (nav.directions.length - (wrapInt (nav.replayIndex + 7)).tdiv 8))
        directionsBitLength := nav.replayIndex } := rfl
  rw [hrun, htrim, if_neg (by rw [hreplay]; decide)]
  rfl

/-- Only a byte that is missing makes it throw. -/
theorem undoDirections_error {nav nav' : ProverNav} {e : AvlError}
    (h : undoDirections nav = .error e nav') : e = .indexOutOfBounds := by
  set nav₁ : ProverNav := { nav with
    directions := trimEnd nav.directions
      (wrapInt (nav.directions.length - (wrapInt (nav.replayIndex + 7)).tdiv 8))
    directionsBitLength := nav.replayIndex } with hnav₁
  change (if nav.replayIndex % 8 > 0 then
      if nav₁.directions = [] then throw .indexOutOfBounds else modify _
    else pure () : EStateM AvlError ProverNav Unit) nav₁ = _ at h
  split at h
  · split at h
    · exact (EStateM.Result.error.inj h).1.symm
    · cases h
  · cases h

/-- **A refused operation loses all bits** after 2 ^ 31 of them. -/
theorem refused_loses {operation : Operation} (hkey : ¬ P.InRange operation.key)
    (hcount : p.tree.nav.directionsBitLength = -2 ^ 31)
    (hbytes : p.tree.nav.directions.length ≤ 2 ^ 28) :
    ∃ e p', p.performOneOperation P operation = (.error e, p') ∧ e.isRefusal = true
      ∧ p'.tree.nav.directions = [] := by
  obtain ⟨e, hrefusal, hundone⟩ := p.performOneOperation_undone hkey
  set start : TreeState ProverNav := { p.tree with nav :=
    { p.tree.nav with replayIndex := p.tree.nav.directionsBitLength } }
  have hloses : undoDirections start.nav = .ok () { start.nav with
      directions := [], directionsBitLength := start.nav.replayIndex } :=
    undoDirections_loses hcount hbytes
  obtain ⟨p', hundo, hdirections⟩ : ∃ p', p.undoOperation e start = (.error e, p')
      ∧ p'.tree.nav.directions = [] := ⟨_, undoOperation_ok hrefusal hloses, rfl⟩
  exact ⟨e, p', hundone.trans hundo, hrefusal, hdirections⟩

/-- An operation that is taken back throws again, or finds no byte to mask. -/
theorem undoOperation_throws {e : AvlError} (he : e ≠ .notTerminating) (s : TreeState ProverNav) :
    (p.undoOperation e s).1 = .error e ∨ (p.undoOperation e s).1 = .error .indexOutOfBounds := by
  rw [undoOperation, if_neg he]
  cases hundo : undoDirections s.nav with
  | ok u nav => exact .inl rfl
  | error e' nav =>
    refine .inr ?_
    obtain rfl : e' = .indexOutOfBounds := undoDirections_error hundo
    rfl

/-- **A step to the left at the root throws** after more than 2 ^ 31 bits. -/
theorem Overruns.throws {k : ADKey} {r : Tree} (h : p.Overruns P (.node tag k l r b) first n)
    {operation : Operation} (hkey : P.InRange operation.key) (hlt : operation.key < k)
    (hneg : wrapInt n < 0) (hpad : n % 8 ≠ 0) :
    (p.performOneOperation P operation).1 = .error .indexOutOfBounds := by
  obtain ⟨M, hrep⟩ := h.represents
  set start := { p.tree with nav :=
    { p.tree.nav with replayIndex := p.tree.nav.directionsBitLength } } with hstart
  have hcount : start.nav.directionsBitLength = wrapInt n := h.nav.length
  have hdir := proverDirection_ok start.nav operation.key k
  rw [show start.nav.found = false from h.found, if_neg Bool.false_ne_true, if_pos hlt] at hdir
  have hstep : proverNavigation.nextDirectionIsLeft operation.key
      (nodeKey proverNavigation.mode k) start.nav = _ := nextDirectionIsLeft_eq hdir
  rw [step_left_throws (hcount ▸ hneg) (by rw [hcount, wrapInt_emod_eight]; omega)] at hstep
  have hdescend : descend P proverNavigation operation (.node tag k l r b) start.nav
      = .error .indexOutOfBounds start.nav := by
    rw [descend_node, hstep]
  have hrep' : Represents proverNavigation.mode P.hf start.heap _ p.topNode M := hrep
  have hrun := performOperation_error hrep' hdescend
  rw [← returnResult_inRange hkey] at hrun
  rw [performOneOperation]
  simp only [← hstart, bind_error hrun]
  exact (undoOperation_throws (by decide) _).elim id id

end

/-- **A removal is misled** where the replay goes to the right and finds a leaf. -/
theorem performOperation_misled {N : Type} {P : TreeParams} {nav : Navigation N}
    {operation : Operation} {s : TreeState N} {x : Ref} {M : Set Ref} {n' n'' : N}
    {tag tag' : Option Ref} {k k' nextLeafKey : ADKey} {v : ADValue} {l : Tree} {b : Balance}
    (ht : Represents nav.mode P.hf s.heap (.node tag k l (.leaf tag' k' v nextLeafKey) b) x M)
    {path : List Bool} {old : Option ADValue}
    (hway : descend P nav operation (.node tag k l (.leaf tag' k' v nextLeafKey) b) s.nav
      = .ok (path, none, old) n')
    (hreplay : nav.replayComparison n' = .ok 1 n'') :
    ∃ s', performOperation P nav operation x s = .error .assertionFailed s' ∧ s'.nav = n'' := by
  have ht₁ : Represents nav.mode P.hf { s with savedNode := none }.heap _ x M := ht
  have hlt : (LeafTree.node tag k l (.leaf tag' k' v nextLeafKey) b : Tree).height
      < s.heap.length + 1 := Nat.lt_succ_of_lt ht.height_lt
  -- the leaf of the key is found, and is to be deleted
  obtain ⟨_, _, _, _, _, hleaf, _⟩ := descend_leafAt hway
  obtain ⟨m, s₁, hmod, hsame, hm, hsure, _⟩ :=
    (modifyHelper_spec ht₁ hlt hway).of_some (modifyAt_keep hleaf)
  obtain ⟨hroot, hstep⟩ := hsure rfl
  have ht₂ := ht₁.step hstep fun _ _ hy => hy
  obtain ⟨_, _, _, _, hcast⟩ := getInternal_isNode ht₂ rfl
  -- the replay comes to the leaf on the right
  obtain ⟨s₂, hvisit, hsame₂, hstep₂⟩ := onNodeVisit_spec P operation false ht₂
  have ht₃ : Represents nav.mode P.hf { s₂ with nav := n'' }.heap _ x M :=
    ht₂.step hstep₂ fun _ _ hy => hy
  obtain ⟨isNew, lx, rx, Ml, Mr, hx, htag, hl, hr, _⟩ := ht₃.child
  obtain ⟨s₃, hvisit₃, hsame₃, _⟩ := onNodeVisit_spec P operation false hr
  have hnav : s₂.nav = n' := hsame₂.nav.trans hsame.nav
  rw [← hnav] at hreplay
  refine ⟨s₃, ?_, hsame₃.nav⟩
  rw [performOperation, bind_ok (modify_ok _ s), bind_ok (get_ok _), bind_ok hmod, hm]
  simp only [Option.isNone_none, if_true, hroot]
  rw [bind_ok hcast, bind_ok (get_ok _)]
  refine bind_error ?_
  rw [deleteHelper, bind_ok hvisit, if_neg (by simp)]
  refine (bind_ok (liftNav_ok hreplay)).trans ?_
  refine (bind_ok (getInternal_inner hx)).trans ?_
  refine (bind_ok (isLeaf_ok hl)).trans ?_
  refine (bind_ok (isLeaf_ok hr)).trans ?_
  rw [if_neg (by simp), if_pos (by simp [LeafTree.isLeaf])]
  refine (bind_ok (getLeaf_leaf hr)).trans ?_
  refine (bind_ok hvisit₃).trans ?_
  rw [if_neg (by simp), if_neg (by simp)]
  rfl

section

variable {P : TreeParams} {p : BatchAVLProver} {directions : List UInt8} {first : UInt8}

/-- The way to a key below the root, with its bits in a byte of their own. -/
theorem descend_below (directions : List UInt8) {key k : ADKey} (hlt : key < k) (i last : ℤ)
    (tag tag₁ tag₂ : Option Ref) (n₂ : ADKey) (v₂ : ADValue) (l₁ r : Tree) (b b₁ : Balance) :
    descend P proverNavigation (.remove key)
        (.node tag k (.node tag₁ key l₁ (.leaf tag₂ key v₂ n₂) b₁) r b)
          ⟨directions, 0, i, last, false⟩
      = .ok ([true, false], none, some v₂) ⟨directions ++ [1], 2, i, 1, false⟩ := by
  have hdir := proverDirection_ok ⟨directions, 0, i, last, false⟩ key k
  rw [if_neg Bool.false_ne_true, if_pos hlt] at hdir
  have hrecord : recordDirection true ⟨directions, 0, i, last, false⟩
      = .ok () ⟨directions ++ [1], 1, i, last, false⟩ := rfl
  have hstep : proverNavigation.nextDirectionIsLeft (Operation.remove key).key
      (nodeKey proverNavigation.mode k) _ = _ := nextDirectionIsLeft_eq hdir
  rw [hrecord] at hstep
  have hdir₁ := proverDirection_ok ⟨directions ++ [1], 1, i, last, false⟩ key key
  rw [if_neg Bool.false_ne_true, if_neg (lt_irrefl key), if_pos rfl] at hdir₁
  have hrecord₁ : recordDirection false ⟨directions ++ [1], 1, i, 1, true⟩
      = .ok () ⟨directions ++ [1], 2, i, 1, true⟩ := rfl
  have hstep₁ : proverNavigation.nextDirectionIsLeft (Operation.remove key).key
      (nodeKey proverNavigation.mode key) _ = _ := nextDirectionIsLeft_eq hdir₁
  rw [hrecord₁] at hstep₁
  have hmatch : proverNavigation.keyMatchesLeaf (Operation.remove key).key key n₂
      ⟨directions ++ [1], 2, i, 1, true⟩ = .ok true ⟨directions ++ [1], 2, i, 1, false⟩ := rfl
  rw [descend_node, hstep]
  simp only [if_true, descend_node, hstep₁, Bool.false_eq_true, if_false, descend_leaf, hmatch]
  rfl

/-- A replay reads a bit, away from the last step to the right. -/
theorem replay_bit (nav : ProverNav) {byte : UInt8} (hne : nav.replayIndex ≠ nav.lastRightStep)
    (hbyte : directionsByte nav.directions nav.replayIndex = some byte) :
    proverReplayComparison nav
      = .ok (if byte.toNat.testBit (nav.replayIndex % 8).toNat then -1 else 1)
        { nav with replayIndex := wrapInt (nav.replayIndex + 1) } := by
  show (if nav.replayIndex = nav.lastRightStep then _ else _ : EStateM AvlError ProverNav ℤ) nav = _
  rw [if_neg hne, hbyte]
  simp only
  split <;> rfl

/-- The replay reads the first bit that was recorded. -/
theorem replay_first (hhead : directions.head? = some first)
    (hfirst : first.toNat.testBit 0 = false) (length : ℤ) :
    proverReplayComparison ⟨directions ++ [1], length, 0, 1, false⟩
      = .ok 1 ⟨directions ++ [1], length, 1, 1, false⟩ := by
  obtain ⟨rest, rfl⟩ := List.head?_eq_some_iff.1 hhead
  have hbyte : directionsByte (first :: rest ++ [1]) 0 = some first := by
    have hzero := directionsByte_natCast (first :: rest ++ [1]) 0
    rwa [Nat.zero_div] at hzero
  have hbit : first.toNat.testBit ((0 : ℤ) % 8).toNat = false := hfirst
  have hreplay := replay_bit ⟨first :: rest ++ [1], length, 0, 1, false⟩ (by simp) hbyte
  rw [hbit, if_neg Bool.false_ne_true] at hreplay
  exact hreplay

/-- The bits are taken back where the replay has come to. -/
theorem undoDirections_first (directions : List UInt8) (length : ℤ)
    (hlen : directions.length + 2 < 2 ^ 31) :
    ∃ nav, undoDirections ⟨directions ++ [1], length, 1, 1, false⟩ = .ok () nav := by
  have htrim : trimEnd (directions ++ [1]) (wrapInt ((directions ++ [1]).length
      - (wrapInt (1 + 7)).tdiv 8)) = (directions ++ [1]).take 1 := by
    have hold : (wrapInt (1 + 7)).tdiv 8 = 1 := by decide
    have hrest : wrapInt ((directions ++ [1]).length - 1) = directions.length := by
      rw [List.length_append, List.length_singleton, Nat.cast_add, Nat.cast_one,
        Int.add_sub_cancel, wrapInt_of_lt (by omega) (by omega)]
    rw [hold, hrest, trimEnd, Int.toNat_natCast, List.length_append, List.length_singleton,
      Nat.add_sub_cancel_left]
  have hne : (directions ++ [1]).take 1 ≠ [] := by
    cases directions <;> simp
  have hrun : undoDirections ⟨directions ++ [1], length, 1, 1, false⟩
      = (if (1 : ℤ) % 8 > 0 then
          if trimEnd (directions ++ [1]) (wrapInt ((directions ++ [1]).length
            - (wrapInt (1 + 7)).tdiv 8)) = [] then throw .indexOutOfBounds else modify _
        else pure () : EStateM AvlError ProverNav Unit) _ := rfl
  rw [hrun, if_pos (by decide), htrim, if_neg hne]
  exact ⟨_, rfl⟩

/-- **A removal fails an assertion** after a multiple of 2 ^ 32 bits, the first of which was a step
to the right: it replays that bit in place of its own. -/
theorem Overruns.misled {n : ℕ} {tag tag₁ tag₂ tag' : Option Ref} {key k k' n₂ nextLeafKey : ADKey}
    {v v₂ : ADValue} {l₁ : Tree} {b b₁ : Balance}
    (h : p.Overruns P (.node tag k (.node tag₁ key l₁ (.leaf tag₂ key v₂ n₂) b₁)
      (.leaf tag' k' v nextLeafKey) b) first n)
    (hkey : P.InRange key) (hlt : key < k) (hcount : wrapInt n = 0) (hn : n ≤ 2 ^ 32)
    (hfirst : first.toNat.testBit 0 = false) :
    ∃ p', p.performOneOperation P (.remove key) = (.error .assertionFailed, p') := by
  obtain ⟨M, hrep⟩ := h.represents
  set start := { p.tree with nav :=
    { p.tree.nav with replayIndex := p.tree.nav.directionsBitLength } } with hstart
  obtain ⟨hhead, hbytes, hlength⟩ := h.nav
  rw [hcount] at hlength
  have hnav : start.nav = ⟨p.tree.nav.directions, 0, 0, p.tree.nav.lastRightStep, false⟩ := by
    rw [hstart]
    simp only [hlength, h.found]
  have hdescend := descend_below (P := P) p.tree.nav.directions hlt 0 p.tree.nav.lastRightStep
    tag tag₁ tag₂ n₂ v₂ l₁ (.leaf tag' k' v nextLeafKey) b b₁
  rw [← hnav] at hdescend
  have hrep' : Represents proverNavigation.mode P.hf start.heap _ p.topNode M := hrep
  obtain ⟨s', hrun, hnav'⟩ := performOperation_misled hrep' hdescend (replay_first hhead hfirst 2)
  have hkey' : P.InRange (Operation.remove key).key := hkey
  rw [← returnResult_inRange hkey'] at hrun
  obtain ⟨nav, hundo⟩ := undoDirections_first p.tree.nav.directions 2 (by omega)
  rw [← hnav'] at hundo
  refine ⟨{ p with tree := { s' with nav := nav } }, ?_⟩
  rw [performOneOperation]
  simp only [← hstart, bind_error hrun]
  rw [undoOperation, if_neg (by decide), hundo]

end

/-! ## Long runs -/

/-- A key is inserted and looked up, and then a smaller one is inserted. -/
def insertTwo : List Call :=
  [.performOneOperation (.insert ⟨[5]⟩ (.ofByte 1)), .performOneOperation (.lookup ⟨[5]⟩),
    .performOneOperation (.insert ⟨[3]⟩ (.ofByte 2))]

/-- The tree with two keys. -/
def twoKeys (sentinel : ADValue) : Tree :=
  .node none ⟨[5]⟩
    (.node none ⟨[3]⟩ (.leaf none ⟨[0]⟩ sentinel ⟨[3]⟩) (.leaf none ⟨[3]⟩ (.ofByte 2) ⟨[5]⟩) 0)
    (.leaf none ⟨[5]⟩ (.ofByte 1) ⟨[255]⟩) (-1)

/-- Its nodes, after an old one that is not reached any more. -/
def twoKeysHeap (sentinel : ADValue) : Heap :=
  [⟨true, none, .proverLeaf false ⟨[0]⟩ sentinel ⟨[255]⟩⟩,
    ⟨true, none, .proverLeaf true ⟨[0]⟩ sentinel ⟨[3]⟩⟩,
    ⟨true, none, .proverLeaf true ⟨[5]⟩ (.ofByte 1) ⟨[255]⟩⟩,
    ⟨true, none, .internalProverNode true ⟨[5]⟩ 5 2 (-1)⟩,
    ⟨false, none, .proverLeaf true ⟨[3]⟩ (.ofByte 2) ⟨[5]⟩⟩,
    ⟨false, none, .internalProverNode true ⟨[3]⟩ 1 4 0⟩]

/-- The nodes, the root and the directions of a prover with two keys. -/
def twoKeysState (sentinel : ADValue) : Heap × Ref × ProverNav :=
  (twoKeysHeap sentinel, 3, ⟨[2], 2, 1, 0, false⟩)

theorem twoKeys_overruns (P : TreeParams) {p : BatchAVLProver} {sentinel : ADValue}
    (h : (p.tree.heap, p.topNode, p.tree.nav) = twoKeysState sentinel) :
    p.Overruns P (twoKeys sentinel) 2 2 := by
  obtain ⟨hheap, hrest⟩ := Prod.mk.inj h
  obtain ⟨htop, hnav⟩ := Prod.mk.inj hrest
  refine ⟨?_, by rw [hnav]; exact ⟨rfl, rfl, rfl⟩, by rw [hnav]⟩
  rw [hheap, htop]
  have hleaf : ∀ {x k v n}, (twoKeysHeap sentinel)[x]? = some ⟨true, none, .proverLeaf true k v n⟩
      ∨ (twoKeysHeap sentinel)[x]? = some ⟨false, none, .proverLeaf true k v n⟩ →
      Represents .prover P.hf (twoKeysHeap sentinel) (.leaf none k v n) x (own x true) := by
    rintro x k v n (hx | hx)
    · exact ⟨true, ⟨_, hx, rfl, fun l hl => by cases hl⟩, rfl, rfl⟩
    · exact ⟨true, ⟨_, hx, rfl, fun l hl => by cases hl⟩, rfl, rfl⟩
  exact ⟨_, true, 5, 2, _, _, ⟨_, rfl, rfl, fun l hl => by cases hl⟩, rfl,
    ⟨true, 1, 4, _, _, ⟨_, rfl, rfl, fun l hl => by cases hl⟩, rfl, hleaf (.inl rfl),
      hleaf (.inr rfl), by simp, by simp, by simp, by simp, rfl⟩,
    hleaf (.inl rfl), by simp, by simp, by simp, by simp, rfl⟩

/-- Lookups after the two insertions. -/
def insertTwoAndLookup (m : ℕ) : List Call :=
  insertTwo ++ List.replicate m (.performOneOperation (.lookup ⟨[5]⟩))

theorem overruns_insertTwoAndLookup (m : ℕ) :
    ∃ p, run oneByteKeys (insertTwoAndLookup m) (BatchAVLProver.new oneByteKeys) = some p
      ∧ p.Overruns oneByteKeys (twoKeys (sentinelValue oneByteKeys)) 2 (2 + m) := by
  have hstate : (run oneByteKeys insertTwo (BatchAVLProver.new oneByteKeys)).map
      (fun p => (p.tree.heap, p.topNode, p.tree.nav))
        = some (twoKeysState (sentinelValue oneByteKeys)) := by
    decide +kernel
  obtain ⟨p₁, hrun₁, hp₁⟩ := Option.map_eq_some_iff.1 hstate
  obtain ⟨p, hrun, hp⟩ := overruns_run (twoKeys_overruns oneByteKeys hp₁) (by decide) m
  refine ⟨p, ?_, hp⟩
  rw [insertTwoAndLookup, run_append, hrun₁]
  exact hrun

/-- After 2 ^ 31 bits, a lookup of a key that is out of range is refused, and the bits are lost. -/
theorem not_unchanged :
    ∃ p e p', run oneByteKeys (insertTwoAndLookup (2 ^ 31 - 2)) (BatchAVLProver.new oneByteKeys)
        = some p
      ∧ p.performOneOperation oneByteKeys (.lookup ⟨[0]⟩) = (.error e, p') ∧ e.isRefusal = true
      ∧ p.tree.nav.directions.length = 2 ^ 28 ∧ p'.tree.nav.directions = [] := by
  obtain ⟨p, hrun, hp⟩ := overruns_insertTwoAndLookup (2 ^ 31 - 2)
  obtain ⟨-, hbytes, hlength⟩ := hp.nav
  have hcount : p.tree.nav.directionsBitLength = -2 ^ 31 := by
    rw [hlength]
    decide
  have hlen : p.tree.nav.directions.length = 2 ^ 28 := by
    rw [hbytes]
    norm_num
  have hrange : ¬ oneByteKeys.InRange (Operation.lookup ⟨[0]⟩).key := by decide
  obtain ⟨e, p', hperform, he, hlost⟩ := refused_loses hrange hcount hlen.le
  exact ⟨p, e, p', hrun, hperform, he, hlen, hlost⟩

/-- After 2 ^ 32 bits, an assertion fails in the removal of a key. -/
theorem not_refusals_only :
    ∃ p p', run oneByteKeys (insertTwoAndLookup (2 ^ 32 - 2)) (BatchAVLProver.new oneByteKeys)
        = some p
      ∧ p.performOneOperation oneByteKeys (.remove ⟨[3]⟩) = (.error .assertionFailed, p') := by
  obtain ⟨p, hrun, hp⟩ := overruns_insertTwoAndLookup (2 ^ 32 - 2)
  obtain ⟨p', hperform⟩ := hp.misled (by decide) (by decide) (by decide) (by norm_num)
    (by decide)
  exact ⟨p, p', hrun, hperform⟩

end BatchAVLProver

end Sparkz.Avl
