import Sparkz.Avl.ProverCalls
import Sparkz.Avl.ProverRun

/-!
# Variables that are not read

Every operation sets `savedNode`, `replayIndex` and `lastRightStep` before it reads them.

* `NodeProgram.containsLoop`, `nodeProgram_packTree`, `nodeProgram_resetNew` and others — most
  methods of the prover work on nodes alone.
* `withUnread` — other values of the three variables.
* `modifyHelper_withLast`, `performOperation_withLast` — an operation overwrites
  `lastRightStep`, or does not use it.
-/

namespace Sparkz.Avl

open Sparkz.Lib

/-! ## The methods of the prover -/

section

variable {P : TreeParams}

theorem NodeProgram.containsLoop (key : ADKey) (l : Digest) (fuel : ℕ) (currentNode : Ref)
    (keyFound : Bool) :
    NodeProgram (BatchAVLProver.containsLoop P key l fuel currentNode keyFound) := by
  induction fuel generalizing currentNode keyFound with
  | zero => exact .throw rfl
  | succ fuel ih =>
    refine (NodeProgram.label P.hf (fuel + 1) currentNode).bind fun l' => .ite (.pure _) ?_
    refine (NodeProgram.getNode currentNode).bind fun o => ?_
    cases o.content with
    | internalProverNode isNew k left right b =>
      refine .ite (ih left true) ?_
      cases compare key k with
      | lt => exact ih left false
      | eq => exact ih right true
      | gt => exact ih right false
    | labelOnlyNode l => exact .pure _
    | proverLeaf isNew k v nk => exact .pure _
    | verifierLeaf k v nk => exact .pure _
    | internalVerifierNode l r b => exact .pure _

theorem NodeProgram.proverNodeKey (node : Ref) :
    NodeProgram (BatchAVLProver.proverNodeKey node) := by
  refine (NodeProgram.getNode node).bind fun o => ?_
  cases o.content with
  | internalProverNode isNew k left right b => exact .pure _
  | proverLeaf isNew k v nk => exact .pure _
  | labelOnlyNode l => exact .throw rfl
  | verifierLeaf k v nk => exact .throw rfl
  | internalVerifierNode l r b => exact .throw rfl

theorem NodeProgram.containsNode (topNode node : Ref) :
    NodeProgram (BatchAVLProver.containsNode P topNode node) := by
  refine .get_bind (fun _ _ _ => rfl) fun s => ?_
  exact (NodeProgram.proverNodeKey node).bind fun key =>
    (NodeProgram.label P.hf _ node).bind fun l => .containsLoop key l _ topNode false

theorem NodeProgram.checkChangedNodes (topNode : Ref) (nodes : List Ref) :
    NodeProgram (BatchAVLProver.checkChangedNodes P topNode nodes) := by
  induction nodes with
  | nil => exact .pure ()
  | cons cn rest ih =>
    refine (NodeProgram.containsNode topNode cn).bind fun contained => .ite ?_ ih
    exact NodeProgram.bind (.modify (fun _ => rfl) fun _ _ _ => rfl) fun _ => ih

theorem NodeProgram.removedNodesBody (topNode : Ref) :
    NodeProgram (BatchAVLProver.removedNodesBody P topNode) := by
  refine .get_bind (fun _ _ _ => rfl) fun s =>
    (NodeProgram.checkChangedNodes topNode _).bind fun _ => ?_
  exact .get_bind (fun _ _ _ => rfl) fun s' => .pure _

theorem nodeProgram_packTree (fuel : ℕ) (rNode : Ref) (acc : List UInt8 × Bool) :
    NodeProgram (BatchAVLProver.packTree P fuel rNode acc) := by
  induction fuel generalizing rNode acc with
  | zero => exact .throw rfl
  | succ fuel ih =>
    have hlabel : NodeProgram (do
        let l ← label P.hf (fuel + 1) rNode
        if l.length = P.labelLength then
          return (acc.1 ++ [BatchAVLProver.labelInPackagedProof] ++ l, false)
        else throw .assertionFailed : TreeM ProverNav (List UInt8 × Bool)) :=
      (NodeProgram.label P.hf (fuel + 1) rNode).bind fun l => .ite (.pure _) (.throw rfl)
    obtain ⟨packed, available⟩ := acc
    obtain ⟨rest, hrun, hrest⟩ : ∃ rest : Node → TreeM ProverNav (List UInt8 × Bool),
        BatchAVLProver.packTree P (fuel + 1) rNode (packed, available) = (getNode rNode >>= fun o =>
          if !o.visited then (do
            let l ← label P.hf (fuel + 1) rNode
            if l.length = P.labelLength then
              return (packed ++ [BatchAVLProver.labelInPackagedProof] ++ l, false)
            else throw .assertionFailed)
          else setNode rNode { o with visited := false } >>= fun _ => rest o)
        ∧ ∀ o, NodeProgram (rest o) := by
      refine ⟨_, rfl, fun o => ?_⟩
      cases o.content with
      | proverLeaf isNew k v nk => exact .pure _
      | internalProverNode isNew k l r b =>
        exact (ih l _).bind fun _ => (ih r _).bind fun _ => .pure _
      | labelOnlyNode l => exact .throw rfl
      | verifierLeaf k v nk => exact .throw rfl
      | internalVerifierNode l r b => exact .throw rfl
    rw [hrun]
    refine .getNode_bind (fun o nav saved => ?_) (fun o n s ho hs => ?_) fun o => ?_
    · exact .ite (hlabel.commutes nav saved) ((setNode_commutes nav saved rNode _).bind fun _ =>
        (hrest o).commutes nav saved)
    · by_cases hv : (!o.visited) = true
      · simp only [if_pos hv]
        exact hlabel.keeps n s hs
      · simp only [if_neg hv]
        exact (hrest o).keeps n _ (ClosedFrom.set hs (hs.1.fits_of_content ho rfl))
    · exact .ite hlabel.throws ((setNode_throws rNode _).bind fun _ => (hrest o).throws)

theorem Content.Fits.old {n : ℕ} {c : Content} (hc : c.Fits n) :
    (BatchAVLProver.contentOld c).Fits n := by
  cases c <;> exact hc

theorem nodeProgram_resetNew (fuel : ℕ) (r : Ref) :
    NodeProgram (BatchAVLProver.resetNew fuel r) := by
  induction fuel generalizing r with
  | zero => exact .throw rfl
  | succ fuel ih =>
    have hend : NodeProgram (getNode r >>= fun o' => setNode r
        { o' with visited := false, content := BatchAVLProver.contentOld o'.content }
          : TreeM ProverNav Unit) :=
      .getNode_bind (fun o' nav saved => setNode_commutes nav saved r _)
        (fun o' n s ho' hs => ClosedFrom.set hs (hs.1.fits ho').old) fun o' => setNode_throws r _
    have hinner : ∀ left right, NodeProgram (BatchAVLProver.resetNew fuel left >>= fun _ =>
        BatchAVLProver.resetNew fuel right >>= fun _ => getNode r >>= fun o' => setNode r
          { o' with visited := false, content := BatchAVLProver.contentOld o'.content }) :=
      fun left right => (ih left).bind fun _ => (ih right).bind fun _ => hend
    refine .getNode_bind (fun o nav saved => ?_) (fun o n s ho hs => ?_) fun o => ?_
    all_goals
      rcases o with
        ⟨visited, labelOpt, l | ⟨_ | _, k, v, nk⟩ | ⟨k, v, nk⟩ | ⟨_ | _, k, l, r', b⟩ | ⟨l, r', b⟩⟩
    · exact .pure ()
    · exact .pure ()
    · exact setNode_commutes nav saved r _
    · exact .pure ()
    · exact .pure ()
    · exact (hinner l r').commutes nav saved
    · exact .pure ()
    · exact hs
    · exact hs
    · exact ClosedFrom.set hs (hs.1.fits ho).old
    · exact hs
    · exact hs
    · exact (hinner l r').keeps n s hs
    · exact hs
    · exact .pure ()
    · exact .pure ()
    · exact setNode_throws r _
    · exact .pure ()
    · exact .pure ()
    · exact (hinner l r').throws
    · exact .pure ()

end

/-! ## Variables that are set before they are read -/

/-- Other values of the three variables that every operation sets before it reads them. -/
def withUnread (saved : Option Ref) (replay last : ℤ) (s : TreeState ProverNav) :
    TreeState ProverNav :=
  { s with savedNode := saved, nav := { s.nav with replayIndex := replay, lastRightStep := last } }

/-- A prover with other values of these variables. -/
def BatchAVLProver.withUnread (p : BatchAVLProver) (saved : Option Ref) (replay last : ℤ) :
    BatchAVLProver :=
  { p with tree := Avl.withUnread saved replay last p.tree }

section

variable {P : TreeParams} {saved : Option Ref} {replay last : ℤ}

theorem NavFree.commutes_withUnread {α : Type} {x : TreeM ProverNav α} (hx : NavFree x) :
    Commutes (withUnread saved replay last) x :=
  hx.commutes_map (fun nav => { nav with replayIndex := replay, lastRightStep := last })
    fun _ => saved

theorem generateProofBody_commutes (p : BatchAVLProver) :
    Commutes (withUnread saved replay last) (BatchAVLProver.generateProofBody P p) := by
  refine Commutes.bind (.modify fun _ => rfl) fun _ => .get_bind (fun _ => rfl) fun s => ?_
  refine (nodeProgram_packTree _ _ _).commutes.commutes_withUnread.bind fun acc => ?_
  refine .get_bind (fun _ => rfl) fun s' => ?_
  refine (nodeProgram_resetNew _ _).commutes.commutes_withUnread.bind fun _ => ?_
  exact Commutes.bind (.modify fun _ => rfl) fun _ => .pure _

end

/-! ## The way down -/

/-- Another value of `lastRightStep`. -/
def ProverNav.withLast (last : ℤ) (nav : ProverNav) : ProverNav :=
  { nav with lastRightStep := last }

/-- Another value of `lastRightStep` in the state of a tree. -/
def withLast (last : ℤ) (s : TreeState ProverNav) : TreeState ProverNav :=
  { s with nav := s.nav.withLast last }

section

variable {P : TreeParams} {operation : Operation} {last : ℤ} {nav : ProverNav}

theorem NavFree.commutes_withLast {α : Type} {x : TreeM ProverNav α} (hx : NavFree x) :
    Commutes (withLast last) x :=
  hx.commutes_map (ProverNav.withLast last) id

theorem recordDirection_withLast (ret : Bool) :
    Commutes (ProverNav.withLast last) (recordDirection ret) := by
  intro nav
  show (if nav.directionsBitLength % 8 = 0 then _ else _ : EStateM AvlError ProverNav Unit)
    (nav.withLast last) = mapState _ ((if nav.directionsBitLength % 8 = 0 then _ else _ :
      EStateM AvlError ProverNav Unit) nav)
  by_cases hnew : nav.directionsBitLength % 8 = 0
  · rw [if_pos hnew, if_pos hnew]
    rfl
  · rw [if_neg hnew, if_neg hnew]
    cases ret with
    | false => rfl
    | true =>
      have hsame : directionsByte (nav.withLast last).directions
            (nav.withLast last).directionsBitLength
          = directionsByte nav.directions nav.directionsBitLength := rfl
      simp only [if_true, hsame]
      cases directionsByte nav.directions nav.directionsBitLength <;> rfl

theorem recordDirection_found {ret : Bool} {nav' : ProverNav}
    (h : recordDirection ret nav = .ok () nav') : nav'.found = nav.found := by
  change (if nav.directionsBitLength % 8 = 0 then _ else _ : EStateM AvlError ProverNav Unit) nav
    = _ at h
  split at h
  · cases h
    rfl
  · cases ret with
    | false =>
      cases h
      rfl
    | true =>
      simp only [if_true] at h
      cases hbyte : directionsByte nav.directions nav.directionsBitLength with
      | none =>
        rw [hbyte] at h
        cases h
      | some byte =>
        rw [hbyte] at h
        cases h
        rfl

/-- A step on the way down overwrites `lastRightStep`, or neither reads nor changes it. -/
theorem nextDirectionIsLeft_withLast (key : ADKey) (nodeKey : Option ADKey) (nav : ProverNav) :
    nav.found = false ∧ proverNextDirectionIsLeft key nodeKey (nav.withLast last)
        = proverNextDirectionIsLeft key nodeKey nav
      ∨ proverNextDirectionIsLeft key nodeKey (nav.withLast last)
          = mapState (ProverNav.withLast last) (proverNextDirectionIsLeft key nodeKey nav)
        ∧ ∀ d nav', proverNextDirectionIsLeft key nodeKey nav = .ok d nav' →
          nav'.found = nav.found := by
  have hrun : ∀ nav, proverNextDirectionIsLeft key nodeKey nav
      = (proverDirection key nodeKey >>= fun ret =>
        recordDirection ret >>= fun _ => pure ret) nav :=
    fun _ => rfl
  have hrecord : ∀ ret : Bool, Commutes (ProverNav.withLast last)
      (recordDirection ret >>= fun _ => pure ret) :=
    fun ret => (recordDirection_withLast ret).bind fun _ => .pure ret
  -- where the decision leaves the variables as they are
  have hsame : ∀ d, proverDirection key nodeKey nav = .ok d nav →
      proverDirection key nodeKey (nav.withLast last) = .ok d (nav.withLast last) →
      proverNextDirectionIsLeft key nodeKey (nav.withLast last)
          = mapState (ProverNav.withLast last) (proverNextDirectionIsLeft key nodeKey nav)
        ∧ ∀ d nav', proverNextDirectionIsLeft key nodeKey nav = .ok d nav' →
          nav'.found = nav.found := by
    intro d hd hd'
    rw [hrun, hrun, Lib.run_bind, Lib.run_bind, hd, hd']
    refine ⟨hrecord d nav, fun d' nav' h => ?_⟩
    simp only at h
    rw [Lib.run_bind] at h
    cases hrec : recordDirection d nav with
    | error e nav₁ =>
      rw [hrec] at h
      cases h
    | ok u nav₁ =>
      rw [hrec] at h
      cases h
      exact recordDirection_found hrec
  have hlast : (nav.withLast last).found = nav.found := rfl
  cases hfound : nav.found with
  | true =>
    have hdir : ∀ nav : ProverNav, nav.found = true →
        proverDirection key nodeKey nav = .ok true nav := by
      intro nav hfound
      show (if nav.found then _ else _ : EStateM AvlError ProverNav Bool) nav = _
      rw [if_pos hfound]
      rfl
    exact hfound ▸ .inr (hsame true (hdir nav hfound) (hdir (nav.withLast last) hfound))
  | false =>
    cases nodeKey with
    | none =>
      have hdir : ∀ nav : ProverNav, nav.found = false →
          proverDirection key none nav = .error .classCast nav := by
        intro nav hfound
        show (if nav.found then _ else _ : EStateM AvlError ProverNav Bool) nav = _
        rw [hfound]
        rfl
      refine .inr ?_
      rw [hrun, hrun, Lib.run_bind, Lib.run_bind, hdir nav hfound,
        hdir (nav.withLast last) hfound]
      exact ⟨rfl, fun d nav' h => by cases h⟩
    | some k =>
      have hdir := proverDirection_ok nav key k
      have hdir' := proverDirection_ok (nav.withLast last) key k
      rw [hlast] at hdir'
      rw [hfound, if_neg Bool.false_ne_true] at hdir hdir'
      rcases lt_trichotomy key k with hlt | rfl | hgt
      · rw [if_pos hlt] at hdir hdir'
        exact hfound ▸ .inr (hsame true hdir hdir')
      · rw [if_neg (lt_irrefl _), if_pos rfl] at hdir hdir'
        refine .inl ⟨rfl, ?_⟩
        rw [hrun, hrun, Lib.run_bind, Lib.run_bind, hdir, hdir']
        rfl
      · rw [if_neg hgt.not_gt, if_neg hgt.ne'] at hdir hdir'
        exact hfound ▸ .inr (hsame false hdir hdir')

theorem liftNav_withLast {α : Type} {action : EStateM AvlError ProverNav α}
    {s : TreeState ProverNav}
    (h : action (s.nav.withLast last) = mapState (ProverNav.withLast last) (action s.nav)) :
    liftNav action (withLast last s) = mapState (withLast last) (liftNav action s) := by
  have hnav : (withLast last s).nav = s.nav.withLast last := rfl
  rw [liftNav, liftNav, hnav, h]
  cases action s.nav <;> rfl

theorem liftNav_same {α : Type} {action : EStateM AvlError ProverNav α} {s : TreeState ProverNav}
    (h : action (s.nav.withLast last) = action s.nav) :
    liftNav action (withLast last s) = liftNav action s := by
  have hnav : (withLast last s).nav = s.nav.withLast last := rfl
  rw [liftNav, liftNav, hnav, h]
  cases action s.nav <;> rfl

/-! ### The leaf -/

/-- What is done at a leaf: the navigation says whether the key is found, and the rest does
not look at its variables, is refused before it touches a node, and deletes only what is
found. -/
structure LeafProgram (found : Bool) (x : TreeM ProverNav Modified) : Prop where
  commutes : NavFree x
  keeps : ∀ n, Keeps (ClosedFrom n) x
  refused : ∀ s e s', x s = .error e s' → e.isRefusal = true → s' = s
  found : Returns (fun m => m.toDelete = true → found = true) x

theorem LeafProgram.of_nodes {found : Bool} {x : TreeM ProverNav Modified} (hx : NodeProgram x)
    (hfound : Returns (fun m => m.toDelete = true → found = true) x) : LeafProgram found x where
  commutes := hx.commutes
  keeps := hx.keeps
  refused s e s' hrun hrefused := by
    rw [hx.throws s e s' hrun] at hrefused
    cases hrefused
  found := hfound

theorem LeafProgram.throw (found : Bool) (e : AvlError) : LeafProgram found (throw e) where
  commutes _ _ := .throw e
  keeps _ := .throw e
  refused s e' s' hrun _ := by
    cases hrun
    rfl
  found := .throw e

theorem LeafProgram.of_value {found : Bool} {v : ADValue} {f : Unit → TreeM ProverNav Modified}
    (hf : NodeProgram (f ()))
    (hfound : Returns (fun m => m.toDelete = true → found = true) (f ())) :
    LeafProgram found (requireValueLength P v >>= f) := by
  cases hfits : lengthFits P v with
  | ok u =>
    have hrun : requireValueLength P v >>= f = f () := by
      funext s
      exact bind_ok ((requireValueLength_spec v).1 hfits)
    rw [hrun]
    exact .of_nodes hf hfound
  | error e =>
    have hrun : requireValueLength P v >>= f = MonadExcept.throw e := by
      funext s
      exact bind_error ((requireValueLength_spec v).2 e hfits)
    rw [hrun]
    exact .throw found e

/-- `modifyHelper` at a leaf. -/
theorem modifyLeaf_eq (operation : Operation) (r : Ref) (rKey : ADKey) (rValue : ADValue)
    (rNext : ADKey) :
    ∃ code : Bool → TreeM ProverNav Modified,
      modifyLeaf P proverNavigation operation r rKey rValue rNext
        = liftNav (proverKeyMatchesLeaf operation.key rKey rNext) >>= code
      ∧ ∀ found, LeafProgram found (code found) := by
  refine ⟨_, rfl, fun found => ?_⟩
  have hvisit : ∀ m : Modified, (m.toDelete = true → found = true) → LeafProgram found
      (onNodeVisit P operation r false >>= fun _ => pure m) := fun m hm =>
    .of_nodes ((NodeProgram.onNodeVisit P operation r false).bind fun _ => .pure m)
      (.bind fun _ => .pure hm)
  cases found with
  | true =>
    simp only [if_true]
    cases operation.updateFn with
    | none => exact hvisit _ fun _ => rfl
    | some updateFn =>
      simp only
      cases updateFn (some rValue) with
      | error e => exact .throw _ _
      | ok new =>
        cases new with
        | none => exact hvisit _ fun _ => rfl
        | some v =>
          refine .of_value ((NodeProgram.getNewLeaf r none (some v) none).bind fun rNew =>
            (NodeProgram.onNodeVisit P operation r false).bind fun _ => .pure _) ?_
          exact .bind fun rNew => .bind fun _ => .pure fun _ => rfl
  | false =>
    simp only [Bool.false_eq_true, if_false]
    have hno : ∀ {p : Prop}, (false = true) → p := fun h => by cases h
    cases operation.updateFn with
    | none => exact hvisit _ hno
    | some updateFn =>
      simp only
      cases updateFn none with
      | error e => exact .throw _ _
      | ok new =>
        cases new with
        | none => exact hvisit _ hno
        | some v =>
          refine .of_value ((NodeProgram.onNodeVisit P operation r false).bind fun _ =>
            (NodeProgram.addNode proverNavigation rfl r operation.key v).bind fun _ => .pure _) ?_
          exact .bind fun _ => .bind fun _ => .pure hno

/-! ### The whole way -/

/-- The program overwrites `lastRightStep`, or neither reads nor changes it and finds
nothing to delete. -/
def SetsLast (last : ℤ) (x : TreeM ProverNav Modified) (s : TreeState ProverNav) : Prop :=
  s.nav.found = false ∧ x (withLast last s) = x s
    ∨ x (withLast last s) = mapState (withLast last) (x s)
      ∧ (s.nav.found = false → ∀ m s', x s = .ok m s' → m.toDelete = false)

/-- What is done after the recursive call. -/
theorem SetsLast.bind {x : TreeM ProverNav Modified} {f : Modified → TreeM ProverNav Modified}
    {s : TreeState ProverNav} (hx : SetsLast last x s) (hf : ∀ m, NavFree (f m))
    (hdelete : ∀ m, Returns (fun m' => m'.toDelete = true → m.toDelete = true) (f m)) :
    SetsLast last (x >>= f) s := by
  rcases hx with ⟨hfound, hsame⟩ | ⟨hmap, hnone⟩
  · refine .inl ⟨hfound, ?_⟩
    rw [Lib.run_bind, Lib.run_bind, hsame]
  · refine .inr ⟨?_, fun hfound m' s' h => ?_⟩
    · rw [Lib.run_bind, Lib.run_bind, hmap]
      cases x s with
      | error e s₁ => rfl
      | ok m s₁ => exact (hf m).commutes_withLast s₁
    · rw [Lib.run_bind] at h
      cases hrun : x s with
      | error e s₁ =>
        rw [hrun] at h
        cases h
      | ok m s₁ =>
        rw [hrun] at h
        cases hd : m'.toDelete with
        | false => rfl
        | true =>
          have hm := hdelete m s₁ m' s' h hd
          rw [hnone hfound m s₁ hrun] at hm
          cases hm

/-- What is done after a step on the way down. -/
theorem SetsLast.direction {key : ADKey} {nodeKey : Option ADKey}
    {f : Bool → TreeM ProverNav Modified} (hf : ∀ d s, SetsLast last (f d) s)
    (s : TreeState ProverNav) :
    SetsLast last (liftNav (proverNextDirectionIsLeft key nodeKey) >>= f) s := by
  rcases nextDirectionIsLeft_withLast key nodeKey s.nav with ⟨hfound, hsame⟩ | ⟨hmap, hfound⟩
  · refine .inl ⟨hfound, ?_⟩
    rw [Lib.run_bind, Lib.run_bind, liftNav_same hsame]
  · rw [SetsLast, Lib.run_bind, Lib.run_bind, liftNav_withLast hmap]
    cases hdir : proverNextDirectionIsLeft key nodeKey s.nav with
    | error e nav => 
      rw [liftNav_error hdir]
      exact .inr ⟨rfl, fun _ m s' h => by cases h⟩
    | ok d nav =>
      rw [liftNav_ok hdir, ← hfound d nav hdir]
      exact hf d { s with nav := nav }

theorem modifyLeft_toDelete (x : Ref) (m : Modified) :
    Returns (fun m' => m'.toDelete = true → m.toDelete = true)
      (modifyLeft P operation x m : TreeM ProverNav Modified) := by
  have hno : ∀ {p : Prop}, (false = true) → p := fun h => by cases h
  refine .bind fun _ => .ite (.bind fun r => .ite (.bind fun newLeft => .ite ?_ ?_) ?_) (.pure id)
  · exact .bind fun _ => .bind fun _ => .pure hno
  · exact .bind fun _ => .pure hno
  · exact .bind fun _ => .pure hno

theorem modifyRight_toDelete (x : Ref) (m : Modified) :
    Returns (fun m' => m'.toDelete = true → m.toDelete = true)
      (modifyRight P operation x m : TreeM ProverNav Modified) := by
  have hno : ∀ {p : Prop}, (false = true) → p := fun h => by cases h
  refine .bind fun _ => .ite (.bind fun r => .ite (.bind fun newRight => .ite ?_ ?_) ?_) (.pure id)
  · exact .bind fun _ => .bind fun _ => .pure hno
  · exact .bind fun _ => .pure hno
  · exact .bind fun _ => .pure hno

/-- **The way down** overwrites `lastRightStep`, or does not use it. -/
theorem modifyHelper_withLast (fuel : ℕ) (x : Ref) (s : TreeState ProverNav) :
    SetsLast last (modifyHelper P proverNavigation operation fuel x) s := by
  induction fuel generalizing x s with
  | zero => exact .inr ⟨rfl, fun _ m s' h => by cases h⟩
  | succ fuel ih =>
    have hkept := ((NodeProgram.getView x).commutes.kept s).1
    rw [SetsLast, modifyHelper, Lib.run_bind, Lib.run_bind,
      (NodeProgram.getView x).commutes.commutes_withLast s]
    cases hview : getView x s with
    | error e s₁ => exact .inr ⟨rfl, fun _ m s' h => by cases h⟩
    | ok v s₁ =>
      rw [hview] at hkept
      rw [← show s₁.nav = s.nav from hkept]
      cases v with
      | labelOnlyNode l => exact .inr ⟨rfl, fun _ m s' h => by cases h⟩
      | leaf k v nk =>
        obtain ⟨code, hcode, hleaf⟩ := @modifyLeaf_eq P operation x k v nk
        simp only [mapState, hcode]
        refine .inr ⟨(hleaf s₁.nav.found).commutes.commutes_withLast
          { s₁ with nav := { s₁.nav with found := false } }, fun hfound m s' h => ?_⟩
        have hdelete := (hleaf s₁.nav.found).found _ m s' h
        rw [hfound] at hdelete
        simpa using hdelete
      | internalNode key left right b =>
        have hrest : ∀ d s₂, SetsLast last (if d = true then
              modifyHelper P proverNavigation operation fuel left >>= modifyLeft P operation x
            else modifyHelper P proverNavigation operation fuel right >>= modifyRight P operation x)
            s₂ := by
          intro d s₂
          cases d with
          | true =>
            exact (ih left s₂).bind (fun m => (NodeProgram.modifyLeft P operation x m).commutes)
              (modifyLeft_toDelete x)
          | false =>
            exact (ih right s₂).bind (fun m => (NodeProgram.modifyRight P operation x m).commutes)
              (modifyRight_toDelete x)
        exact SetsLast.direction hrest s₁

/-- An operation is the way down, and what is done then. -/
theorem performOperation_eq (P : TreeParams) (operation : Operation) (x : Ref) :
    ∃ rest : Modified → TreeM ProverNav (Ref × Option ADValue),
      (∀ s, performOperation P proverNavigation operation x s
        = (modifyHelper P proverNavigation operation (s.heap.length + 1) x >>= rest)
          { s with savedNode := none })
      ∧ (∀ m, m.toDelete = false → NodeProgram (rest m))
      ∧ ∀ m I, DeletionInvariant proverNavigation I → TreeProgram I (rest m) := by
  obtain ⟨rest, hrun, hrest⟩ : ∃ rest : Modified → TreeM ProverNav (Ref × Option ADValue),
      (∀ s, performOperation P proverNavigation operation x s
        = (modifyHelper P proverNavigation operation (s.heap.length + 1) x >>= rest)
          { s with savedNode := none })
      ∧ ∀ m, ∃ delete keep, rest m = (if m.toDelete = true then delete else keep)
        ∧ NodeProgram keep ∧ ∀ I, DeletionInvariant proverNavigation I → TreeProgram I delete := by
    refine ⟨_, fun s => rfl, fun m => ⟨_, _, rfl, ?_, fun I hI => ?_⟩⟩
    · exact .ite (.bind (.modify (fun _ => rfl) fun _ _ _ => rfl) fun _ => .pure _) (.pure _)
    · refine ((NodeProgram.getInternal m.root).tree hI).bind fun _ => .get_bind fun s => ?_
      refine (deleteHelper_tree P operation hI _ _ _).bind fun res => ?_
      refine .ite (.bind ?_ fun _ => .pure _) (.pure _)
      exact NodeProgram.tree (.modify (fun _ => rfl) fun _ _ _ => rfl) hI
  refine ⟨rest, hrun, fun m hm => ?_, fun m I hI => ?_⟩
  · obtain ⟨delete, keep, heq, hkeep, _⟩ := hrest m
    rw [heq, if_neg (by simp [hm])]
    exact hkeep
  · obtain ⟨delete, keep, heq, hkeep, hdelete⟩ := hrest m
    rw [heq]
    exact .ite (hdelete I hI) (hkeep.tree hI)

/-- An operation overwrites `lastRightStep`, or does not use it. -/
theorem performOperation_withLast (x : Ref) {s : TreeState ProverNav}
    (hfound : s.nav.found = false) :
    performOperation P proverNavigation operation x (withLast last s)
        = performOperation P proverNavigation operation x s
      ∨ performOperation P proverNavigation operation x (withLast last s)
        = mapState (withLast last) (performOperation P proverNavigation operation x s) := by
  obtain ⟨rest, hrun, hrest, _⟩ := performOperation_eq P operation x
  have hset : { withLast last s with savedNode := none }
      = withLast last { s with savedNode := none } :=
    rfl
  have hlen : (withLast last s).heap.length = s.heap.length := rfl
  rw [hrun, hrun, hset, hlen, Lib.run_bind, Lib.run_bind]
  rcases @modifyHelper_withLast P operation last (s.heap.length + 1) x
    { s with savedNode := none } with
    ⟨_, hsame⟩ | ⟨hmap, hnone⟩
  · rw [hsame]
    exact .inl rfl
  · rw [hmap]
    refine .inr ?_
    cases hmod : modifyHelper P proverNavigation operation (s.heap.length + 1) x
        { s with savedNode := none } with
    | error e s' => rfl
    | ok m s' => exact (hrest m (hnone hfound m s' hmod)).commutes.commutes_withLast s'

end

end Sparkz.Avl
