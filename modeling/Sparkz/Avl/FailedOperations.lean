import Sparkz.Avl.ProverMap
import Sparkz.Avl.UnreadVariables

/-!
# Operations that fail

An operation can fail anywhere; one that is refused fails at its leaf, before it has touched
a node, and takes its bits back.  None of this needs a tree: the heap may be any on which the
children of nodes are nodes, as calls on a corrupted tree leave it.

* `modifyHelper_descends` — what the way down leaves behind, wherever it ends.
* `performOperation_performs` — what an operation does to the directions.
* `BatchAVLProver.Sound`, `Sound.call` — what holds after any calls.
* `failed_operation_unchanged` — a refused operation changes nothing that is ever read.
-/

namespace Sparkz.Avl

open Sparkz.Lib

/-! ## What the way down leaves behind -/

/-- The variables after a way down. -/
structure Descended (bits : List Bool) (nav nav' : ProverNav) : Prop where
  records : ∃ more, nav'.Records (bits ++ more) ∧ (bits ++ more).length + 14 < 2 ^ 31
  replayIndex : nav'.replayIndex = nav.replayIndex
  found : nav'.found = false

/-- The end of a way down that came to a leaf: an operation that was refused has touched no
node, and one that deletes has set `lastRightStep` within the bits that are recorded. -/
structure Descends (bits : List Bool) (s : TreeState ProverNav)
    (r : EStateM.Result AvlError (TreeState ProverNav) Modified) : Prop where
  nav : (∀ s', r ≠ .error .notTerminating s') → Descended bits s.nav (finalState r).nav
  refused : ∀ e s', r = .error e s' → e.isRefusal = true → s' = { s with nav := s'.nav }
  delete : ∀ m s', r = .ok m s' → m.toDelete = true →
    s'.nav.lastRightStep < s'.nav.directionsBitLength

section

variable {P : TreeParams} {operation : Operation} {bits : List Bool} {s : TreeState ProverNav}

/-- What is done after the recursive call. -/
theorem Descends.bind {x : TreeM ProverNav Modified} {f : Modified → TreeM ProverNav Modified}
    (hx : Descends bits s (x s)) (hf : ∀ m, NodeProgram (f m))
    (hdelete : ∀ m, Returns (fun m' => m'.toDelete = true → m.toDelete = true) (f m)) :
    Descends bits s ((x >>= f) s) := by
  rw [Lib.run_bind]
  cases hrun : x s with
  | error e s₁ =>
    rw [hrun] at hx
    exact ⟨fun h => hx.nav fun s' h' => h s' (by cases h'; rfl),
      fun e' s' h => hx.refused e' s' (by cases h; rfl), fun m s' h => by cases h⟩
  | ok m s₁ =>
    rw [hrun] at hx
    have hkept := ((hf m).commutes.kept s₁).1
    refine ⟨fun _ => ?_, fun e s' h he => ?_, fun m' s' h hm' => ?_⟩
    · show Descended bits s.nav (finalState (f m s₁)).nav
      rw [hkept]
      exact hx.nav fun s' h => by cases h
    · rw [(hf m).throws s₁ e s' h] at he
      cases he
    · have hnav : s'.nav = s₁.nav := by rw [← hkept, show f m s₁ = .ok m' s' from h]; rfl
      rw [hnav]
      exact hx.delete m s₁ rfl (hdelete m s₁ m' s' h hm')

/-- One more step before a way down. -/
theorem Descends.cons {d : Bool} {nav : ProverNav}
    {r : EStateM.Result AvlError (TreeState ProverNav) Modified}
    (hr : Descends (bits ++ [d]) { s with nav := nav } r)
    (hreplay : nav.replayIndex = s.nav.replayIndex) :
    Descends bits s r where
  nav h := by
    obtain ⟨⟨more, hmore⟩, hindex, hfound⟩ := hr.nav h
    rw [List.append_assoc, List.singleton_append] at hmore
    exact ⟨⟨d :: more, hmore⟩, hindex.trans hreplay, hfound⟩
  refused e s' h he := hr.refused e s' h he
  delete := hr.delete

/-- **The way down** in any closed heap, if there is room for its bits. -/
theorem modifyHelper_descends (fuel : ℕ) {x : Ref} (hs : Closed s.heap) (hx : x < s.heap.length)
    (hroom : bits.length
      + BatchAVLProver.wayLength s.heap operation.key fuel x s.nav.found + 14 < 2 ^ 31)
    (hrec : s.nav.Records bits) (hlast : s.nav.found = true → s.nav.lastRightStep < bits.length) :
    Descends bits s (modifyHelper P proverNavigation operation fuel x s) := by
  induction fuel generalizing x s bits with
  | zero =>
    refine ⟨fun h => absurd rfl (h s), fun e s' h he => ?_, fun m s' h => by cases h⟩
    cases h
    cases he
  | succ fuel ih =>
    have ho := List.getElem?_eq_getElem hx
    have hfits := hs.fits ho
    rw [modifyHelper, bind_ok (getView_ok ho)]
    generalize s.heap[x] = o at ho hfits
    rcases o with
      ⟨visited, labelOpt, l | ⟨isNew, k, v, nk⟩ | ⟨k, v, nk⟩ | ⟨isNew, k, l, r, b⟩ | ⟨l, r, b⟩⟩
    · cases hfits.1
    · obtain ⟨code, hcode, hleaf⟩ := @modifyLeaf_eq P operation x k v nk
      show Descends bits s (modifyLeaf P proverNavigation operation x k v nk s)
      set s₁ := { s with nav := { s.nav with found := false } } with hs₁
      have hrun : modifyLeaf P proverNavigation operation x k v nk s = code s.nav.found s₁ := by
        rw [hcode]
        rfl
      rw [hrun]
      have hkept := ((hleaf s.nav.found).commutes.kept s₁).1
      refine ⟨fun _ => ?_, fun e s' h he => ?_, fun m s' h hm => ?_⟩
      · rw [hkept]
        refine ⟨⟨[], ?_, ?_⟩, rfl, rfl⟩
        · rw [List.append_nil]
          exact ⟨hrec.packs, hrec.length, hrec.count⟩
        · rw [List.append_nil]
          omega
      · rw [(hleaf s.nav.found).refused s₁ e s' h he]
      · have hnav : s'.nav = s₁.nav := by rw [← hkept, h]; rfl
        rw [hnav]
        show s.nav.lastRightStep < s.nav.directionsBitLength
        rw [hrec.length_eq (by omega)]
        exact hlast ((hleaf s.nav.found).found s₁ m s' h hm)
    · cases hfits.1
    · rw [BatchAVLProver.wayLength_node ho rfl] at hroom
      obtain ⟨nav, hdir, hrecs, hreplay, hfound, hlast'⟩ :=
        nextDirectionIsLeft_ok hrec (by omega) operation.key k
      rw [← hfound] at hroom
      have hlast₁ : nav.found = true → nav.lastRightStep
          < (bits ++ [s.nav.found || decide (operation.key < k)]).length := by
        intro hf
        rw [hlast', List.length_append, List.length_singleton]
        split
        · omega
        · rename_i hnot
          refine lt_trans (hlast ?_) (by omega)
          rw [hfound, Bool.or_eq_true, decide_eq_true_eq] at hf
          by_contra hne
          exact hnot ⟨by simpa using hne, hf.resolve_left hne⟩
      have hlt : ∀ y ∈ [l, r], y < ({ s with nav := nav } : TreeState ProverNav).heap.length :=
        hfits.2
      show Descends bits s ((liftNav (proverNextDirectionIsLeft operation.key (some k)) >>= _) s)
      rw [bind_ok (liftNav_ok hdir)]
      generalize (s.nav.found || decide (operation.key < k)) = d at hrecs hlast₁ hroom
      have hrest : (bits ++ [d]).length + BatchAVLProver.wayLength s.heap operation.key fuel
          (if d then l else r) nav.found + 14 < 2 ^ 31 := by
        rw [List.length_append, List.length_singleton]
        omega
      cases d with
      | true =>
        simp only [if_true]
        refine Descends.cons (d := true) (.bind (ih hs (hlt l (by simp)) hrest hrecs hlast₁)
          (fun m => NodeProgram.modifyLeft P operation x m) (modifyLeft_toDelete x)) hreplay
      | false =>
        simp only [Bool.false_eq_true, if_false]
        refine Descends.cons (d := false) (.bind (ih hs (hlt r (by simp)) hrest hrecs hlast₁)
          (fun m => NodeProgram.modifyRight P operation x m) (modifyRight_toDelete x)) hreplay
    · cases hfits.1

/-! ## Operations on a closed heap -/

theorem liftNav_closed {N α : Type} (n : ℕ) (action : EStateM AvlError N α) :
    Keeps (ClosedFrom n) (liftNav action) := by
  intro s hs
  rw [liftNav]
  cases action s.nav <;> exact hs

theorem modifyHelper_closed (n fuel : ℕ) (x : Ref) :
    Keeps (ClosedFrom n) (modifyHelper P proverNavigation operation fuel x) := by
  induction fuel generalizing x with
  | zero => exact .throw _
  | succ fuel ih =>
    refine ((NodeProgram.getView x).keeps n).bind fun v => ?_
    cases v with
    | labelOnlyNode l => exact .throw _
    | leaf k v nk =>
      obtain ⟨code, hcode, hleaf⟩ := @modifyLeaf_eq P operation x k v nk
      show Keeps _ (modifyLeaf P proverNavigation operation x k v nk)
      rw [hcode]
      exact (liftNav_closed n _).bind fun found => (hleaf found).keeps n
    | internalNode key left right b =>
      refine (liftNav_closed n _).bind fun d => .ite ?_ ?_
      · exact (ih left).bind fun m => (NodeProgram.modifyLeft P operation x m).keeps n
      · exact (ih right).bind fun m => (NodeProgram.modifyRight P operation x m).keeps n

/-- A replay goes on over the bits of a byte string. -/
def Replaying (nav nav' : ProverNav) : Prop :=
  nav' = { nav with replayIndex := nav'.replayIndex }
    ∧ 0 ≤ nav'.replayIndex ∧ nav'.replayIndex ≤ 8 * nav.directions.length

theorem replayComparison_throws :
    ThrowsOnly (fun e => e.isRefusal = false) (liftNav proverNavigation.replayComparison) := by
  intro s e s' h
  change liftNav proverReplayComparison s = _ at h
  rcases proverReplayComparison_cases s.nav with ⟨c, hrun, _⟩ | hrun
  · rw [liftNav_ok hrun] at h
    cases h
  · rw [liftNav_error hrun] at h
    cases h
    rfl

theorem deletionInvariant_closed (n : ℕ) :
    DeletionInvariant proverNavigation (ClosedFrom n) where
  nodes hx := hx.keeps n
  saved _ _ hs := hs
  replay := ⟨liftNav_closed n _, replayComparison_throws⟩

theorem deletionInvariant_replaying {nav : ProverNav}
    (hlast : nav.lastRightStep < 8 * nav.directions.length)
    (hroom : 8 * nav.directions.length + 7 < 2 ^ 31) :
    DeletionInvariant proverNavigation (fun s => Replaying nav s.nav) where
  nodes hx := hx.commutes.keeps_nav (Replaying nav)
  saved _ _ hs := hs
  replay := by
    refine ⟨fun s hs => ?_, replayComparison_throws⟩
    obtain ⟨heq, hnonneg, hle⟩ := hs
    show Replaying nav (finalState (liftNav proverReplayComparison s)).nav
    rcases proverReplayComparison_cases s.nav with ⟨c, hrun, hindex⟩ | hrun
    · have hsame : s.nav.lastRightStep = nav.lastRightStep
          ∧ s.nav.directions = nav.directions := by
        rw [heq]
        exact ⟨rfl, rfl⟩
      rw [hsame.1, hsame.2] at hindex
      have hnext : wrapInt (s.nav.replayIndex + 1) = s.nav.replayIndex + 1 :=
        wrapInt_of_lt (by omega) (by omega)
      rw [liftNav_ok hrun, hnext]
      refine ⟨?_, ?_⟩
      · exact congrArg (fun n : ProverNav => { n with replayIndex := s.nav.replayIndex + 1 }) heq
      · show 0 ≤ s.nav.replayIndex + 1 ∧ s.nav.replayIndex + 1 ≤ _
        omega
    · rw [liftNav_error hrun]
      exact ⟨heq, hnonneg, hle⟩

/-- The directions after an operation that came to a leaf are bits again, and a refused
operation has touched no node and takes its bits back. -/
structure Performs (bits : List Bool) (s : TreeState ProverNav)
    (r : EStateM.Result AvlError (TreeState ProverNav) (Ref × Option ADValue)) : Prop where
  ok : ∀ a s', r = .ok a s' → (∃ bits', s'.nav.Records bits') ∧ s'.nav.found = false
  undone : ∀ s', (∃ a, r = .ok a s') ∨ (∃ e, r = .error e s' ∧ e ≠ .notTerminating) →
    ∃ nav bits', BatchAVLProver.undoDirections s'.nav = .ok () nav ∧ nav.Records bits'
      ∧ nav.found = false
  refused : ∀ e s', r = .error e s' → e.isRefusal = true →
    (∃ saved, s' = { s with savedNode := saved, nav := s'.nav })
      ∧ ∃ nav, BatchAVLProver.undoDirections s'.nav = .ok () nav ∧ nav.Records bits
        ∧ nav.found = false

/-- The bits of a way that failed are taken back, and nothing else changes that is read. -/
theorem Descended.undo {nav nav' : ProverNav} (h : Descended bits nav nav')
    (hreplay : nav.replayIndex = bits.length) :
    ∃ nav₁, BatchAVLProver.undoDirections nav' = .ok () nav₁ ∧ nav₁.Records bits
      ∧ nav₁.found = false := by
  obtain ⟨⟨more, hmore, hroom⟩, hindex, hfound⟩ := h
  have hlen := hroom
  rw [List.length_append] at hlen
  obtain ⟨nav₁, hundo, hrec, hsame⟩ :=
    undoDirections_ok hmore.packs (hindex.trans hreplay) (by omega) (by omega)
  exact ⟨nav₁, hundo, hrec, hsame.trans hfound⟩

/-- Bits are taken back wherever a replay has come to. -/
theorem Replaying.undo {nav nav' : ProverNav} (h : Replaying nav nav')
    (hpacks : Packs nav.directions bits) (hroom : 8 * nav.directions.length + 7 < 2 ^ 31) :
    ∃ nav₁ bits', BatchAVLProver.undoDirections nav' = .ok () nav₁ ∧ nav₁.Records bits'
      ∧ nav₁.found = nav.found := by
  obtain ⟨heq, hnonneg, hle⟩ := h
  obtain ⟨first, more, hfirst, hlen⟩ :=
    hpacks.exists_prefix (n := nav'.replayIndex.toNat) (by omega)
  have hsame : nav'.directions = nav.directions ∧ nav'.found = nav.found := by
    rw [heq]
    exact ⟨rfl, rfl⟩
  have hbytes := hfirst.length
  rw [← hsame.1] at hfirst
  obtain ⟨nav₁, hundo, hrec, hfound⟩ :=
    undoDirections_ok hfirst (by omega) (by omega) (by omega)
  exact ⟨nav₁, first, hundo, hrec, hfound.trans hsame.2⟩

theorem performOperation_performs {x : Ref} (hs : Closed s.heap) (hx : x < s.heap.length)
    (hroom : bits.length
      + BatchAVLProver.wayLength s.heap operation.key (s.heap.length + 1) x false + 14 < 2 ^ 31)
    (hrec : s.nav.Records bits) (hfound : s.nav.found = false)
    (hreplay : s.nav.replayIndex = bits.length) :
    Performs bits s (performOperation P proverNavigation operation x s) := by
  obtain ⟨rest, hrun, hkeep, hdelete⟩ := performOperation_eq P operation x
  have hdesc : Descends bits { s with savedNode := none }
      (modifyHelper P proverNavigation operation (s.heap.length + 1) x
        { s with savedNode := none }) :=
    modifyHelper_descends _ hs hx (hfound ▸ hroom) hrec fun h => by
      rw [show s.nav.found = true from h] at hfound
      cases hfound
  rw [hrun, Lib.run_bind]
  cases hmod : modifyHelper P proverNavigation operation (s.heap.length + 1) x
      { s with savedNode := none } with
  | error e s₁ =>
    rw [hmod] at hdesc
    have hundo : e ≠ .notTerminating → ∃ nav, BatchAVLProver.undoDirections s₁.nav = .ok () nav
        ∧ nav.Records bits ∧ nav.found = false :=
      fun he => (hdesc.nav fun s' h => he (by cases h; rfl)).undo hreplay
    refine ⟨fun a s' h => (by cases h), fun s' h => ?_, fun e' s' h he => ?_⟩
    · rcases h with ⟨a, h⟩ | ⟨e', h, he⟩
      · cases h
      · cases h
        obtain ⟨nav, hok, hrecs, hf⟩ := hundo he
        exact ⟨nav, bits, hok, hrecs, hf⟩
    · cases h
      refine ⟨⟨none, hdesc.refused e s₁ rfl he⟩, hundo fun h => ?_⟩
      rw [h] at he
      cases he
  | ok m s₁ =>
    rw [hmod] at hdesc
    obtain ⟨⟨more, hmore, hcount⟩, hindex, hf⟩ := hdesc.nav fun s' h => by cases h
    simp only [finalState_ok] at hmore hindex hf
    have hbytes := hmore.packs.length
    have hindex' : s₁.nav.replayIndex = bits.length := hindex.trans hreplay
    have hsplit : (bits ++ more).length = bits.length + more.length := List.length_append
    have hspace : 8 * s₁.nav.directions.length + 7 < 2 ^ 31 := by omega
    have hstart : Replaying s₁.nav s₁.nav := ⟨rfl, by omega, by omega⟩
    -- the rest replays, or does not touch the variables at all
    have hrest : Replaying s₁.nav (finalState (rest m s₁)).nav
        ∧ ThrowsOnly (fun e => e.isRefusal = false) (rest m) := by
      cases hm : m.toDelete with
      | false =>
        refine ⟨?_, (hkeep m hm).throws⟩
        rw [((hkeep m hm).commutes.kept s₁).1]
        exact hstart
      | true =>
        have hlast : s₁.nav.lastRightStep < 8 * s₁.nav.directions.length := by
          have hlt := hdesc.delete m s₁ rfl hm
          rw [hmore.length_eq (by omega)] at hlt
          omega
        have htree := hdelete m _ (deletionInvariant_replaying hlast hspace)
        exact ⟨htree.keeps s₁ hstart, htree.throws⟩
    obtain ⟨hnav, hthrows⟩ := hrest
    refine ⟨fun a s' h => ?_, fun s' h => ?_, fun e s' h he => ?_⟩
    · rw [show rest m s₁ = .ok a s' from h] at hnav
      obtain ⟨heq, _⟩ := hnav
      have heq' : s'.nav = { s₁.nav with replayIndex := s'.nav.replayIndex } := heq
      rw [heq']
      exact ⟨⟨_, hmore.packs, hmore.length, hmore.count⟩, hf⟩
    · have hend : finalState (rest m s₁) = s' := by
        rcases h with ⟨a, h⟩ | ⟨e, h, _⟩
        · rw [show rest m s₁ = .ok a s' from h]
          rfl
        · rw [show rest m s₁ = .error e s' from h]
          rfl
      rw [hend] at hnav
      obtain ⟨nav, bits', hok, hrecs, hfound'⟩ := hnav.undo hmore.packs hspace
      exact ⟨nav, bits', hok, hrecs, hfound'.trans hf⟩
    · rw [hthrows s₁ e s' h] at he
      cases he

theorem performOperation_closed (n : ℕ) (x : Ref) :
    Keeps (ClosedFrom n) (performOperation P proverNavigation operation x) := by
  obtain ⟨rest, hrun, _, hrest⟩ := performOperation_eq P operation x
  intro s hs
  rw [hrun]
  exact ((modifyHelper_closed n _ x).bind fun m =>
    (hrest m _ (deletionInvariant_closed n)).keeps) { s with savedNode := none } hs

/-! ## The prover -/

/-- What holds of a prover after any calls that come back: its nodes are on the heap, and its
directions are bits. -/
structure BatchAVLProver.Sound (p : BatchAVLProver) : Prop where
  closed : Closed p.tree.heap
  topNode : p.topNode < p.tree.heap.length
  records : ∃ bits, p.tree.nav.Records bits
  found : p.tree.nav.found = false

/-- `performOneOperation` on the tree, from the start to the cast of the new root. -/
def operationBody (P : TreeParams) (operation : Operation) (topNode : Ref) :
    TreeM ProverNav (Ref × Option ADValue) := do
  let n ← returnResultOfOneOperation P proverNavigation operation topNode
  castProver n.1
  return n

/-- The state in which an operation starts. -/
def startOperation (s : TreeState ProverNav) : TreeState ProverNav :=
  { s with nav := { s.nav with replayIndex := s.nav.directionsBitLength } }

theorem performOneOperation_eq (p : BatchAVLProver) :
    p.performOneOperation P operation
      = match operationBody P operation p.topNode (startOperation p.tree) with
        | .ok (n, old) s => (.ok old, { p with tree := s, topNode := n })
        | .error e s => p.undoOperation e s := rfl

theorem castRoot_program (res : Ref × Option ADValue) :
    NodeProgram (castProver res.1 >>= fun _ => pure res : TreeM ProverNav (Ref × Option ADValue)) :=
  (NodeProgram.castProver res.1).bind fun _ => .pure res

theorem operationBody_performs {x : Ref} (hs : Closed s.heap) (hx : x < s.heap.length)
    (hroom : bits.length
      + BatchAVLProver.wayLength s.heap operation.key (s.heap.length + 1) x false + 14 < 2 ^ 31)
    (hrec : s.nav.Records bits) (hfound : s.nav.found = false)
    (hreplay : s.nav.replayIndex = bits.length) :
    Performs bits s (operationBody P operation x s) := by
  by_cases hkey : P.InRange operation.key
  · have hperf := @performOperation_performs P operation bits s x hs hx hroom hrec hfound hreplay
    rw [operationBody, Lib.run_bind, returnResult_inRange hkey]
    cases hrun : performOperation P proverNavigation operation x s with
    | error e s₁ =>
      rw [hrun] at hperf
      exact hperf
    | ok res s₁ =>
      rw [hrun] at hperf
      have hnav := ((castRoot_program res).commutes.kept s₁).1
      refine ⟨fun a s' h => ?_, fun s' h => ?_, fun e s' h he => ?_⟩
      · rw [show s'.nav = s₁.nav from congrArg (fun r => (finalState r).nav) h ▸ hnav]
        exact hperf.ok res s₁ rfl
      · have hend : s'.nav = s₁.nav := by
          rcases h with ⟨a, h⟩ | ⟨e, h, _⟩
          · exact congrArg (fun r => (finalState r).nav) h ▸ hnav
          · exact congrArg (fun r => (finalState r).nav) h ▸ hnav
        rw [hend]
        exact hperf.undone s₁ (.inl ⟨res, rfl⟩)
      · rw [(castRoot_program res).throws s₁ e s' h] at he
        cases he
  · obtain ⟨e, hrefused, hthrow⟩ := returnResult_outOfRange proverNavigation hkey
    have hrun : operationBody P operation x s = .error e s := by
      rw [operationBody, hthrow]
      rfl
    have hdescended : Descended bits s.nav s.nav := by
      refine ⟨⟨[], ?_, ?_⟩, rfl, hfound⟩
      · rwa [List.append_nil]
      · rw [List.append_nil]
        omega
    have hundo := hdescended.undo hreplay
    rw [hrun]
    refine ⟨fun a s' h => (by cases h), fun s' h => ?_, fun e' s' h _ => ?_⟩
    · rcases h with ⟨a, h⟩ | ⟨e', h, _⟩
      · cases h
      · cases h
        obtain ⟨nav, hok, hrecs, hf⟩ := hundo
        exact ⟨nav, bits, hok, hrecs, hf⟩
    · cases h
      exact ⟨⟨s.savedNode, rfl⟩, hundo⟩

theorem operationBody_closed (n : ℕ) (x : Ref) :
    Keeps (ClosedFrom n) (operationBody P operation x) := by
  refine Keeps.bind ?_ fun res => ((NodeProgram.castProver res.1).keeps n).bind fun _ => .pure res
  by_cases hkey : P.InRange operation.key
  · rw [returnResult_inRange hkey]
    exact performOperation_closed n x
  · obtain ⟨e, _, hthrow⟩ := returnResult_outOfRange proverNavigation hkey
    rw [hthrow]
    exact .throw e

/-- The new root is on the heap. -/
theorem lt_of_operationBody {x : Ref} {res : Ref × Option ADValue} {s' : TreeState ProverNav}
    (h : operationBody P operation x s = .ok res s') : res.1 < s'.heap.length := by
  rw [operationBody, Lib.run_bind] at h
  cases hrun : returnResultOfOneOperation P proverNavigation operation x s with
  | error e s₁ =>
    rw [hrun] at h
    cases h
  | ok res' s₁ =>
    rw [hrun] at h
    simp only at h
    rw [Lib.run_bind] at h
    cases hcast : castProver res'.1 s₁ with
    | error e s₂ =>
      rw [hcast] at h
      cases h
    | ok u s₂ =>
      obtain ⟨rfl, hlt⟩ := lt_of_castProver hcast
      rw [hcast] at h
      cases h
      exact hlt

/-- Two states of the prover with the same bits. -/
theorem ProverNav.eq_of_records {nav nav' : ProverNav} (h : nav.Records bits)
    (h' : nav'.Records bits) (hfound : nav'.found = nav.found) :
    nav' = { nav with replayIndex := nav'.replayIndex, lastRightStep := nav'.lastRightStep } := by
  have hdir := h.packs.unique h'.packs
  have hlen := h.length.trans h'.length.symm
  cases nav
  cases nav'
  simp only at hdir hlen hfound ⊢
  rw [hdir, hlen, hfound]

namespace BatchAVLProver

variable {p : BatchAVLProver}

theorem Sound.performs (h : p.Sound) (hroom : p.HasRoom operation) :
    ∃ bits, p.tree.nav.Records bits
      ∧ Performs bits (startOperation p.tree)
        (operationBody P operation p.topNode (startOperation p.tree)) := by
  obtain ⟨bits, hrec⟩ := h.records
  have hfits := (hasRoom_iff hrec).1 hroom
  exact ⟨bits, hrec, operationBody_performs h.closed h.topNode hfits
    ⟨hrec.packs, hrec.length, hrec.count⟩ h.found (hrec.length_eq (by omega))⟩

/-- A prover is sound after an operation that comes back, if there was room for its bits. -/
theorem Sound.performOneOperation (h : p.Sound) (hroom : p.HasRoom operation)
    (hreturns : (p.performOneOperation P operation).1 ≠ .error .notTerminating) :
    (p.performOneOperation P operation).2.Sound := by
  obtain ⟨bits, _, hperf⟩ := @Sound.performs P operation p h hroom
  have hclosed :=
    @operationBody_closed P operation p.tree.heap.length p.topNode (startOperation p.tree)
    ⟨h.closed, le_refl _⟩
  rw [performOneOperation_eq] at hreturns ⊢
  cases hrun : operationBody P operation p.topNode (startOperation p.tree) with
  | ok res s =>
    rw [hrun] at hperf hclosed
    obtain ⟨hrecs, hfound⟩ := hperf.ok res s rfl
    exact ⟨hclosed.1, lt_of_operationBody hrun, hrecs, hfound⟩
  | error e s =>
    rw [hrun] at hperf hclosed hreturns
    by_cases he : e = .notTerminating
    · simp only [undoOperation, if_pos he] at hreturns
      exact absurd (congrArg Except.error he) hreturns
    · obtain ⟨nav, bits', hundo, hrecs, hfound⟩ := hperf.undone s (.inr ⟨e, rfl, he⟩)
      simp only [undoOperation, if_neg he, hundo]
      exact ⟨hclosed.1, h.topNode.trans_le hclosed.2, ⟨bits', hrecs⟩, hfound⟩

/-- **A refused operation** leaves the prover as it was, but for variables that are not read. -/
theorem Sound.refused (h : p.Sound) (hroom : p.HasRoom operation) {e : AvlError}
    {p' : BatchAVLProver} (hrun : p.performOneOperation P operation = (.error e, p'))
    (he : e.isRefusal = true) :
    ∃ saved replay last, p' = p.withUnread saved replay last := by
  obtain ⟨bits, hrec, hperf⟩ := @Sound.performs P operation p h hroom
  rw [performOneOperation_eq] at hrun
  cases hbody : operationBody P operation p.topNode (startOperation p.tree) with
  | ok res s =>
    rw [hbody] at hrun
    cases hrun
  | error e₁ s =>
    rw [hbody] at hrun hperf
    have hne : e₁ ≠ .notTerminating := by
      rintro rfl
      simp only [undoOperation, if_true] at hrun
      cases hrun
      cases he
    -- the bits are taken back, so it is the error of the operation that is thrown
    obtain ⟨nav, _, hundo, _, _⟩ := hperf.undone s (.inr ⟨e₁, rfl, hne⟩)
    simp only [undoOperation, if_neg hne, hundo] at hrun
    cases hrun
    obtain ⟨⟨saved, hs⟩, nav', hundo', hrecs, hfound⟩ := hperf.refused e s rfl he
    obtain rfl : nav = nav' := by
      rw [hundo] at hundo'
      cases hundo'
      rfl
    have hnav := ProverNav.eq_of_records hrec hrecs (hfound.trans h.found.symm)
    refine ⟨saved, nav.replayIndex, nav.lastRightStep, ?_⟩
    rw [hnav, hs]
    rfl

end BatchAVLProver

/-! ## The same calls on both provers -/

/-- An operation on a state whose unread variables differ: so do they at its end. -/
theorem operationBody_withUnread (x : Ref) {s : TreeState ProverNav} (hfound : s.nav.found = false)
    (saved : Option Ref) (last : ℤ) :
    ∃ g : TreeState ProverNav → TreeState ProverNav,
      (∀ s, ∃ saved' last', g s = withUnread saved' s.nav.replayIndex last' s)
      ∧ operationBody P operation x (withUnread saved s.nav.replayIndex last s)
        = mapState g (operationBody P operation x s) := by
  by_cases hkey : P.InRange operation.key
  · obtain ⟨rest, hrun, _⟩ := performOperation_eq P operation x
    have hstart : performOperation P proverNavigation operation x
          (withUnread saved s.nav.replayIndex last s)
        = performOperation P proverNavigation operation x (withLast last s) := by
      rw [hrun, hrun]
      rfl
    rw [operationBody, Lib.run_bind, Lib.run_bind, returnResult_inRange hkey, hstart]
    rcases @performOperation_withLast P operation last x s hfound with hsame | hmap
    · refine ⟨id, fun s => ⟨s.savedNode, s.nav.lastRightStep, rfl⟩, ?_⟩
      rw [hsame]
      cases hrun' : performOperation P proverNavigation operation x s with
      | error e s' => rfl
      | ok res s' =>
        simp only
        cases (castProver res.1 >>= fun _ => pure res : TreeM ProverNav _) s' <;> rfl
    · refine ⟨withLast last, fun s => ⟨s.savedNode, last, rfl⟩, ?_⟩
      rw [hmap]
      cases performOperation P proverNavigation operation x s with
      | error e s' => rfl
      | ok res s' => exact (castRoot_program res).commutes.commutes_withLast s'
  · obtain ⟨e, _, hthrow⟩ := returnResult_outOfRange proverNavigation hkey
    refine ⟨fun s => withUnread saved s.nav.replayIndex last s, fun s => ⟨saved, last, rfl⟩, ?_⟩
    rw [operationBody, hthrow]
    rfl

namespace BatchAVLProver

variable {p : BatchAVLProver} {saved : Option Ref} {replay last : ℤ}

theorem undoDirections_withLast (last : ℤ) :
    Commutes (ProverNav.withLast last) undoDirections := by
  refine .get_bind (fun _ => rfl) fun nav => Commutes.bind (.modify fun _ => rfl) fun _ => ?_
  exact .ite (.ite (.throw _) (.modify fun _ => rfl)) (.pure _)

theorem performOneOperation_withUnread (hfound : p.tree.nav.found = false) (operation : Operation) :
    ∃ saved' replay' last',
      (p.withUnread saved replay last).performOneOperation P operation
        = ((p.performOneOperation P operation).1,
          (p.performOneOperation P operation).2.withUnread saved' replay' last') := by
  obtain ⟨g, hg, hrun⟩ := @operationBody_withUnread P operation p.topNode (startOperation p.tree)
    hfound saved last
  have hstart : startOperation (p.withUnread saved replay last).tree
      = Avl.withUnread saved (startOperation p.tree).nav.replayIndex last (startOperation p.tree) :=
    rfl
  have htop : (p.withUnread saved replay last).topNode = p.topNode := rfl
  rw [performOneOperation_eq, performOneOperation_eq, hstart, htop, hrun]
  cases operationBody P operation p.topNode (startOperation p.tree) with
  | ok res s =>
    obtain ⟨saved', last', hgs⟩ := hg s
    refine ⟨saved', s.nav.replayIndex, last', ?_⟩
    simp only [mapState, hgs]
    rfl
  | error e s =>
    obtain ⟨saved', last', hgs⟩ := hg s
    have hnav : (Avl.withUnread saved' s.nav.replayIndex last' s).nav = s.nav.withLast last' := rfl
    simp only [mapState, hgs, undoOperation, hnav]
    by_cases he : e = .notTerminating
    · simp only [if_pos he]
      exact ⟨saved', s.nav.replayIndex, last', rfl⟩
    · simp only [if_neg he, undoDirections_withLast last' s.nav]
      cases hundo : undoDirections s.nav with
      | ok u nav => exact ⟨saved', nav.replayIndex, last', rfl⟩
      | error e' nav => exact ⟨saved', nav.replayIndex, last', rfl⟩

theorem onNodes_withUnread {α : Type} {body : TreeM ProverNav α}
    (hbody : Commutes (Avl.withUnread saved replay last) body) (p : BatchAVLProver) :
    (p.withUnread saved replay last).onNodes body
      = ((p.onNodes body).1, (p.onNodes body).2.withUnread saved replay last) := by
  have hrun := hbody p.tree
  have htree : (p.withUnread saved replay last).tree = Avl.withUnread saved replay last p.tree :=
    rfl
  rw [onNodes, onNodes, htree, hrun]
  cases body p.tree <;> rfl

theorem onNodes_sound {α : Type} {body : TreeM ProverNav α} (hbody : NodeProgram body)
    (h : p.Sound) :
    (p.onNodes body).2.Sound := by
  have hclosed := hbody.keeps p.tree.heap.length p.tree ⟨h.closed, le_refl _⟩
  have hnav := (hbody.commutes.kept p.tree).1
  have hrecords := h.records
  have hfound := h.found
  rw [← hnav] at hrecords hfound
  rw [onNodes]
  cases hrun : body p.tree with
  | ok a s =>
    rw [hrun] at hclosed hrecords hfound
    exact ⟨hclosed.1, h.topNode.trans_le hclosed.2, hrecords, hfound⟩
  | error e s =>
    rw [hrun] at hclosed hrecords hfound
    exact ⟨hclosed.1, h.topNode.trans_le hclosed.2, hrecords, hfound⟩

theorem digest_eq (p : BatchAVLProver) :
    p.digest P = p.onNodes (digestOf P (p.tree.heap.length + 1) p.topNode) := by
  rw [digest, onNodes]
  cases digestOf P (p.tree.heap.length + 1) p.topNode p.tree <;> rfl

theorem digest_withUnread (p : BatchAVLProver) :
    (p.withUnread saved replay last).digest P
      = ((p.digest P).1, (p.digest P).2.withUnread saved replay last) := by
  rw [digest_eq, digest_eq]
  exact onNodes_withUnread (NodeProgram.digestOf P _ _).commutes.commutes_withUnread p

/-! ### Proofs -/

theorem generateProof_withUnread (p : BatchAVLProver) :
    (p.withUnread saved replay last).generateProof P
      = ((p.generateProof P).1, (p.generateProof P).2.withUnread saved replay last) := by
  have hrun := @generateProofBody_commutes P saved replay last p p.tree
  have hbody :
      generateProofBody P (p.withUnread saved replay last) (p.withUnread saved replay last).tree
      = generateProofBody P p (Avl.withUnread saved replay last p.tree) := rfl
  rw [generateProof, generateProof, hbody, hrun]
  cases generateProofBody P p p.tree <;> rfl

/-- What holds of the variables of the prover. -/
def NavSound (nav : ProverNav) : Prop :=
  (∃ bits, nav.Records bits) ∧ nav.found = false

theorem generateProofBody_keeps {Q : ProverNav → Prop} (n : ℕ) (p : BatchAVLProver)
    (hreset : ∀ nav, Q nav → Q { nav with directions := [], directionsBitLength := 0 }) :
    Keeps (fun s => ClosedFrom n s ∧ Q s.nav) (generateProofBody P p) := by
  have hnodes : ∀ {α : Type} {x : TreeM ProverNav α}, NodeProgram x →
      Keeps (fun s => ClosedFrom n s ∧ Q s.nav) x :=
    fun hx => (hx.keeps n).and (hx.commutes.keeps_nav Q)
  refine Keeps.bind (.modify fun s hs => hs) fun _ => .get_bind fun s => ?_
  refine (hnodes (nodeProgram_packTree _ _ _)).bind fun acc => .get_bind fun s' => ?_
  refine (hnodes (nodeProgram_resetNew _ _)).bind fun _ =>
    .bind (.modify fun s hs => ?_) fun _ => .pure _
  exact ⟨hs.1, hreset _ hs.2⟩

theorem Sound.generateProof (h : p.Sound) : (p.generateProof P).2.Sound := by
  have hkeeps := @generateProofBody_keeps P NavSound p.tree.heap.length p
    (fun nav hnav => ⟨⟨[], .nil rfl rfl⟩, hnav.2⟩) p.tree
    ⟨⟨h.closed, le_refl _⟩, h.records, h.found⟩
  rw [BatchAVLProver.generateProof]
  cases hrun : generateProofBody P p p.tree with
  | ok proof s =>
    rw [hrun] at hkeeps
    exact ⟨hkeeps.1.1, h.topNode.trans_le hkeeps.1.2, hkeeps.2.1, hkeeps.2.2⟩
  | error e s =>
    rw [hrun] at hkeeps
    exact ⟨hkeeps.1.1, h.topNode.trans_le hkeeps.1.2, hkeeps.2.1, hkeeps.2.2⟩

theorem undoOperation_heap (p : BatchAVLProver) (e : AvlError) (s : TreeState ProverNav) :
    (p.undoOperation e s).2.tree.heap = s.heap := by
  rw [undoOperation]
  split
  · rfl
  · cases undoDirections s.nav <;> rfl

theorem undoOperation_oldTopNode (p : BatchAVLProver) (e : AvlError) (s : TreeState ProverNav) :
    (p.undoOperation e s).2.oldTopNode = p.oldTopNode := by
  rw [undoOperation]
  split
  · rfl
  · cases undoDirections s.nav <;> rfl

theorem performOneOperation_closed {n : ℕ} (h : ClosedFrom n p.tree) (operation : Operation) :
    ClosedFrom n (p.performOneOperation P operation).2.tree := by
  have hclosed := @operationBody_closed P operation n p.topNode (startOperation p.tree) h
  rw [performOneOperation_eq]
  cases hrun : operationBody P operation p.topNode (startOperation p.tree) with
  | ok res s =>
    rw [hrun] at hclosed
    exact hclosed
  | error e s =>
    rw [hrun] at hclosed
    show ClosedFrom n (p.undoOperation e s).2.tree
    rw [ClosedFrom, undoOperation_heap]
    exact hclosed

theorem performAll_closed {n : ℕ} (operations : List Operation) (h : ClosedFrom n p.tree) :
    ClosedFrom n (performAll P operations p).2.tree := by
  induction operations generalizing p with
  | nil => exact h
  | cons o operations ih =>
    have hclosed := performOneOperation_closed (P := P) h o
    rw [performAll]
    cases hrun : p.performOneOperation P o with
    | mk res p' =>
      rw [hrun] at hclosed
      cases res with
      | error e => exact hclosed
      | ok old => exact ih hclosed

/-- The nodes stay closed, whatever becomes of the prover that is made on them. -/
theorem speculate_closed {n : ℕ} (operations : List Operation) (h : ClosedFrom n p.tree) :
    ClosedFrom n (speculate P p operations).2.tree := by
  have hall := @performAll_closed (speculativeParams P) p n operations h
  rw [speculate]
  cases hrun : performAll (speculativeParams P) operations p with
  | mk res p₁ =>
    rw [hrun] at hall
    cases res with
    | error e => exact hall
    | ok u =>
      have hkeeps := @generateProofBody_keeps (speculativeParams P) (fun _ => True) n p₁
        (fun _ _ => trivial) p₁.tree ⟨hall, trivial⟩
      simp only
      rw [BatchAVLProver.generateProof]
      cases hproof : generateProofBody (speculativeParams P) p₁ p₁.tree with
      | error e s =>
        rw [hproof] at hkeeps
        exact hkeeps.1
      | ok proof s =>
        rw [hproof] at hkeeps
        have hdigest :=
          (NodeProgram.digestOf (speculativeParams P) (s.heap.length + 1) p₁.topNode).keeps
          n s hkeeps.1
        simp only
        rw [digest]
        simp only
        cases hrun' : digestOf (speculativeParams P) (s.heap.length + 1) p₁.topNode s with
        | error e s' =>
          rw [hrun'] at hdigest
          exact hdigest
        | ok d s' =>
          rw [hrun'] at hdigest
          exact hdigest

theorem Sound.generateProofForOperations (h : p.Sound) (operations : List Operation) :
    (p.generateProofForOperations P operations).2.Sound := by
  obtain ⟨hclosed, hle⟩ := @speculate_closed P
    p.newProver p.tree.heap.length operations
    ⟨h.closed, le_refl _⟩
  exact ⟨hclosed, h.topNode.trans_le hle, h.records, h.found⟩

/-! ### Calls -/

theorem Sound.call (h : p.Sound) (c : Call)
    (hroom : p.RoomFor c) (hreturns : returns (p.call P c).1 = true) : (p.call P c).2.Sound := by
  cases c with
  | performOneOperation operation =>
    have hfits : p.HasRoom operation := hroom
    refine h.performOneOperation hfits fun he => ?_
    have hreply : (p.call P (.performOneOperation operation)).1
        = (p.performOneOperation P operation).1.map .value := rfl
    rw [hreply, he] at hreturns
    cases hreturns
  | generateProof => exact h.generateProof
  | generateProofForOperations operations => exact h.generateProofForOperations operations
  | digest =>
    show (p.digest P).2.Sound
    rw [digest_eq]
    exact onNodes_sound (NodeProgram.digestOf P _ _) h
  | removedNodes => exact onNodes_sound (NodeProgram.removedNodesBody _) h
  | contains key l => exact onNodes_sound (NodeProgram.containsLoop key l _ _ _) h
  | unauthenticatedLookup key => exact h

/-- A call does not tell two provers apart that differ in unread variables. -/
theorem call_withUnread (hfound : p.tree.nav.found = false) (c : Call) :
    ∃ saved' replay' last', (p.withUnread saved replay last).call P c
      = ((p.call P c).1, (p.call P c).2.withUnread saved' replay' last') := by
  cases c with
  | performOneOperation operation =>
    obtain ⟨saved', replay', last', hrun⟩ :=
      @performOneOperation_withUnread P p saved replay last hfound operation
    refine ⟨saved', replay', last', ?_⟩
    simp only [call, hrun]
  | generateProof =>
    refine ⟨saved, replay, last, ?_⟩
    simp only [call, generateProof_withUnread]
  | generateProofForOperations operations => exact ⟨saved, replay, last, rfl⟩
  | digest =>
    refine ⟨saved, replay, last, ?_⟩
    simp only [call, digest_withUnread]
  | removedNodes =>
    refine ⟨saved, replay, last, ?_⟩
    have hrun : (p.withUnread saved replay last).removedNodes P
        = ((p.removedNodes P).1, (p.removedNodes P).2.withUnread saved replay last) :=
      onNodes_withUnread (NodeProgram.removedNodesBody _).commutes.commutes_withUnread p
    simp only [call, hrun]
  | contains key l =>
    refine ⟨saved, replay, last, ?_⟩
    have hrun : (p.withUnread saved replay last).contains P key l
        = ((p.contains P key l).1, (p.contains P key l).2.withUnread saved replay last) :=
      onNodes_withUnread (NodeProgram.containsLoop key l _ _ _).commutes.commutes_withUnread p
    simp only [call, hrun]
  | unauthenticatedLookup key => exact ⟨saved, replay, last, rfl⟩

/-! ## Runs -/

theorem new_sound (P : TreeParams) : (BatchAVLProver.new P).Sound where
  closed o ho := by
    rw [List.mem_singleton.1 ho]
    exact ⟨rfl, fun y hy => by cases hy⟩
  topNode := Nat.zero_lt_one
  records := ⟨[], .nil rfl rfl⟩
  found := rfl

theorem Sound.run (h : p.Sound) {calls : List Call} (hcounted : Counted P calls p)
    {p' : BatchAVLProver} (hrun : run P calls p = some p') : p'.Sound := by
  induction calls generalizing p with
  | nil =>
    cases hrun
    exact h
  | cons c calls ih =>
    obtain ⟨hreturns, hrun⟩ := run_cons hrun
    exact ih (h.call c hcounted.1 hreturns) hcounted.2 hrun

/-- No calls tell two provers apart that differ in unread variables, as long as their bits are
counted. -/
theorem Sound.replies_withUnread (h : p.Sound) (saved : Option Ref) (replay last : ℤ)
    {calls : List Call} (hcounted : Counted P calls p) :
    replies P calls (p.withUnread saved replay last) = replies P calls p := by
  induction calls generalizing p saved replay last with
  | nil => rfl
  | cons c calls ih =>
    obtain ⟨saved', replay', last', hcall⟩ := @call_withUnread P p saved replay last h.found c
    rw [replies, replies, hcall]
    by_cases hreturns : returns (p.call P c).1 = true
    · simp only [if_pos hreturns]
      rw [ih (h.call c hcounted.1 hreturns) saved' replay' last' hcounted.2]
    · simp only [if_neg hreturns]

/-- A prover that a failed operation has not changed. -/
structure Unchanged (p p' : BatchAVLProver) : Prop where
  topNode : p'.topNode = p.topNode
  oldTopNode : p'.oldTopNode = p.oldTopNode
  heap : p'.tree.heap = p.tree.heap
  rootNodeHeight : p'.tree.rootNodeHeight = p.tree.rootNodeHeight
  changedNodesBuffer : p'.tree.changedNodesBuffer = p.tree.changedNodesBuffer
  changedNodesBufferToCheck : p'.tree.changedNodesBufferToCheck = p.tree.changedNodesBufferToCheck
  directions : p'.tree.nav.directions = p.tree.nav.directions
  directionsBitLength : p'.tree.nav.directionsBitLength = p.tree.nav.directionsBitLength
  found : p'.tree.nav.found = p.tree.nav.found

/-- **A failed operation changes nothing.**  After any calls of the public methods, in any
order, whose bits are counted, an operation that is refused for its key, by its `updateFn` or for
the length of its value leaves all variables of the prover as they are but those that every
operation sets before it reads them, and no later calls tell whether it was attempted. -/
theorem failed_operation_unchanged (P : TreeParams) {calls : List Call} {operation : Operation}
    (hcounted : Counted P (calls ++ [.performOneOperation operation]) (BatchAVLProver.new P)) :
    match run P calls (BatchAVLProver.new P) with
    | none => True
    | some p =>
        match p.performOneOperation P operation with
        | (.ok _, _) => True
        | (.error e, p') => e.isRefusal = false
            ∨ Unchanged p p' ∧ (p'.digest P).1 = (p.digest P).1
              ∧ ∀ later, Counted P later p → replies P later p' = replies P later p := by
  obtain ⟨hcalls, hlast⟩ := counted_append hcounted
  cases hrun : run P calls (BatchAVLProver.new P) with
  | none => trivial
  | some p =>
    have hsound := (new_sound P).run hcalls hrun
    have hroom : p.HasRoom operation := (hlast p hrun).1
    simp only
    cases hop : p.performOneOperation P operation with
    | mk res p' =>
      cases res with
      | ok old => trivial
      | error e =>
        cases he : e.isRefusal with
        | false => exact .inl he
        | true =>
          obtain ⟨saved, replay, last, rfl⟩ := hsound.refused hroom hop he
          refine .inr ⟨⟨rfl, rfl, rfl, rfl, rfl, rfl, rfl, rfl, rfl⟩, ?_, fun later hlater =>
            hsound.replies_withUnread saved replay last hlater⟩
          rw [digest_withUnread]

/-- An insertion is pending, and its key is inserted again; then the proof is made. -/
theorem failed_operation_unchanged_insertAndRemove :
    ∃ p e p', run oneByteKeys (insertAndRemove.take 3) (BatchAVLProver.new oneByteKeys) = some p
      ∧ p.performOneOperation oneByteKeys (.insert ⟨[7]⟩ (.ofByte 3)) = (.error e, p')
      ∧ e.isRefusal = true ∧ Unchanged p p'
      ∧ replies oneByteKeys [.generateProof, .removedNodes] p'
        = replies oneByteKeys [.generateProof, .removedNodes] p := by
  have hcounted : Counted oneByteKeys
      (insertAndRemove.take 3 ++ [.performOneOperation (.insert ⟨[7]⟩ (.ofByte 3))])
      (BatchAVLProver.new oneByteKeys) := by decide +kernel
  have hrefused : ((run oneByteKeys (insertAndRemove.take 3) (BatchAVLProver.new oneByteKeys)).map
      fun p => match (p.performOneOperation oneByteKeys (.insert ⟨[7]⟩ (.ofByte 3))).1 with
        | .ok _ => false
        | .error e => e.isRefusal) = some true := by decide +kernel
  have hunchanged := failed_operation_unchanged oneByteKeys hcounted
  cases hrun : run oneByteKeys (insertAndRemove.take 3) (BatchAVLProver.new oneByteKeys) with
  | none =>
    rw [hrun] at hrefused
    cases hrefused
  | some p =>
    rw [hrun] at hrefused hunchanged
    simp only [Option.map_some, Option.some.injEq] at hrefused hunchanged
    cases hop : p.performOneOperation oneByteKeys (.insert ⟨[7]⟩ (.ofByte 3)) with
    | mk res p' =>
      rw [hop] at hrefused hunchanged
      cases res with
      | ok old => cases hrefused
      | error e =>
        simp only at hrefused
        rcases hunchanged with he | ⟨hsame, _, hreplies⟩
        · rw [he] at hrefused
          cases hrefused
        · exact ⟨p, e, p', rfl, hop, hrefused, hsame,
            hreplies _ ⟨trivial, trivial, trivial⟩⟩

end BatchAVLProver

end

end Sparkz.Avl
