import Sparkz.Lib.StatePrograms
import Sparkz.Avl.AuthenticatedTreeOps

/-!
# Programs that work on nodes

Most of the code common to prover and verifier works on the nodes alone: it does not look
at the variables of the subclass, keeps the heap closed, and never throws what an operation
is refused with.

* `AvlError.isRefusal` — the exceptions that refuse an operation.
* `Closed` — the nodes are nodes of the prover and their children are on the heap.
* `NodeProgram` — a program that works on nodes alone, with a rule for each way of
  composing programs and a lemma for each method.
-/

namespace Sparkz.Avl

open Sparkz.Lib

/-- Is this what an operation is refused with: its key, its `updateFn`, or the length of
its value? -/
def AvlError.isRefusal : AvlError → Bool
  | .keyLessThanNegativeInfinity _ => true
  | .keyMoreThanPositiveInfinity _ => true
  | .requirementFailed => true
  | .wrongValueLength _ => true
  | .update _ => true
  | _ => false

/-- The children of a node. -/
def Content.children : Content → List Ref
  | .internalProverNode _ _ l r _ => [l, r]
  | .internalVerifierNode l r _ => [l, r]
  | _ => []

/-- A node of the prover with children among the first `n` nodes. -/
def Content.Fits (n : ℕ) (c : Content) : Prop :=
  c.isProverNode = true ∧ ∀ y ∈ c.children, y < n

/-- All nodes are nodes of the prover, with children on the heap. -/
def Closed (h : Heap) : Prop :=
  ∀ o ∈ h, o.content.Fits h.length

/-- A closed heap of at least `n` nodes. -/
def ClosedFrom {N : Type} (n : ℕ) (s : TreeState N) : Prop :=
  Closed s.heap ∧ n ≤ s.heap.length

/-- Another state of the subclass, and another saved node. -/
def withNav {N : Type} (nav : N) (saved : Option Ref) (s : TreeState N) : TreeState N :=
  { s with nav := nav, savedNode := saved }

/-- A program that looks neither at the state of the subclass nor at the saved node. -/
def NavFree {N α : Type} (x : TreeM N α) : Prop :=
  ∀ nav saved, Commutes (withNav nav saved) x

/-- A program that works on the nodes alone. -/
structure NodeProgram {N α : Type} (x : TreeM N α) : Prop where
  commutes : NavFree x
  keeps : ∀ n, Keeps (ClosedFrom n) x
  throws : ThrowsOnly (fun e => e.isRefusal = false) x

section

variable {N α β : Type} {h : Heap} {x : Ref} {o : Node} {c : Content} {m n : ℕ}
  {s : TreeState N}

/-! ## Closed heaps -/

theorem Content.Fits.mono (hc : c.Fits m) (hmn : m ≤ n) : c.Fits n :=
  ⟨hc.1, fun y hy => (hc.2 y hy).trans_le hmn⟩

theorem Closed.fits (hh : Closed h) (ho : h[x]? = some o) : o.content.Fits h.length :=
  hh o (List.mem_of_getElem? ho)

theorem Closed.set (hh : Closed h) (ho : o.content.Fits h.length) : Closed (h.set x o) := by
  intro o' ho'
  rw [List.length_set]
  rcases List.mem_or_eq_of_mem_set ho' with hmem | rfl
  · exact hh o' hmem
  · exact ho

theorem Closed.append (hh : Closed h) (ho : o.content.Fits (h.length + 1)) : Closed (h ++ [o]) := by
  intro o' ho'
  rw [List.length_append, List.length_singleton]
  rcases List.mem_append.1 ho' with hmem | hmem
  · exact (hh o' hmem).mono (Nat.le_succ _)
  · rw [List.mem_singleton.1 hmem]
    exact ho

theorem ClosedFrom.set (hs : ClosedFrom n s) (ho : o.content.Fits s.heap.length) :
    ClosedFrom n { s with heap := s.heap.set x o } :=
  ⟨hs.1.set ho, hs.2.trans (List.length_set).ge⟩

theorem ClosedFrom.append (hs : ClosedFrom n s) (ho : o.content.Fits (s.heap.length + 1)) :
    ClosedFrom n { s with heap := s.heap ++ [o] } :=
  ⟨hs.1.append ho, hs.2.trans (by simp)⟩

/-! ## Composition -/

namespace NodeProgram

theorem pure (a : α) : NodeProgram (pure a : TreeM N α) where
  commutes _ _ := .pure a
  keeps _ := .pure a
  throws := .pure a

theorem throw {e : AvlError} (he : e.isRefusal = false) : NodeProgram (throw e : TreeM N α) where
  commutes _ _ := .throw e
  keeps _ := .throw e
  throws := .throw he

theorem bind {x : TreeM N α} {f : α → TreeM N β} (hx : NodeProgram x)
    (hf : ∀ a, NodeProgram (f a)) : NodeProgram (x >>= f) where
  commutes nav saved := (hx.commutes nav saved).bind fun a => (hf a).commutes nav saved
  keeps n := (hx.keeps n).bind fun a => (hf a).keeps n
  throws := hx.throws.bind fun a => (hf a).throws

theorem ite {p : Prop} [Decidable p] {x y : TreeM N α} (hx : NodeProgram x) (hy : NodeProgram y) :
    NodeProgram (if p then x else y) := by
  split
  · exact hx
  · exact hy

/-- A change of the buffers. -/
theorem modify {g : TreeState N → TreeState N} (hheap : ∀ s, (g s).heap = s.heap)
    (hnav : ∀ nav saved s, g (withNav nav saved s) = withNav nav saved (g s)) :
    NodeProgram (modify g : TreeM N Unit) where
  commutes nav saved := .modify (hnav nav saved)
  keeps n := .modify fun s hs => by rwa [ClosedFrom, hheap]
  throws := .modify g

/-- Reading the state, where what follows looks at neither of the two variables. -/
theorem get_bind {f : TreeState N → TreeM N β}
    (hsame : ∀ nav saved s, f (withNav nav saved s) = f s) (hf : ∀ s, NodeProgram (f s)) :
    NodeProgram (get >>= f) where
  commutes nav saved := .get_bind (hsame nav saved) fun s => (hf s).commutes nav saved
  keeps n := .get_bind fun s => (hf s).keeps n
  throws := .get_bind fun s => (hf s).throws

end NodeProgram

/-- The state of the subclass and the saved node stay as they are. -/
theorem NavFree.kept {x : TreeM N α} (hx : NavFree x) (s : TreeState N) :
    (finalState (x s)).nav = s.nav ∧ (finalState (x s)).savedNode = s.savedNode := by
  have hsame : withNav s.nav s.savedNode s = s := rfl
  have hrun := hx s.nav s.savedNode s
  rw [hsame] at hrun
  rw [hrun, finalState_mapState]
  exact ⟨rfl, rfl⟩

/-- A change that depends on their values. -/
theorem NavFree.commutes_map {x : TreeM N α} (hx : NavFree x) (g : N → N)
    (k : Option Ref → Option Ref) :
    Commutes (fun s => withNav (g s.nav) (k s.savedNode) s) x := by
  intro s
  obtain ⟨hnav, hsaved⟩ := hx.kept s
  show x (withNav (g s.nav) (k s.savedNode) s) = _
  rw [hx (g s.nav) (k s.savedNode) s]
  cases hrun : x s with
  | ok a s' =>
    rw [hrun] at hnav hsaved
    simp only [mapState, show s'.nav = s.nav from hnav, show s'.savedNode = s.savedNode from hsaved]
  | error e s' =>
    rw [hrun] at hnav hsaved
    simp only [mapState, show s'.nav = s.nav from hnav, show s'.savedNode = s.savedNode from hsaved]

/-- An invariant of the state of the subclass. -/
theorem NavFree.keeps_nav {x : TreeM N α} (hx : NavFree x) (J : N → Prop) :
    Keeps (fun s => J s.nav) x := by
  intro s hs
  show J (finalState (x s)).nav
  rwa [(hx.kept s).1]

/-! ## Nodes -/

theorem getNode_commutes (nav : N) (saved : Option Ref) (x : Ref) :
    Commutes (withNav nav saved) (getNode x : TreeM N Node) := by
  intro s
  have hheap : (withNav nav saved s).heap[x]? = s.heap[x]? := rfl
  cases ho : s.heap[x]? with
  | none =>
    simp only [getNode, hheap, ho]
    rfl
  | some o =>
    simp only [getNode, hheap, ho]
    rfl

theorem getNode_throws (x : Ref) :
    ThrowsOnly (fun e => e.isRefusal = false) (getNode x : TreeM N Node) := by
  intro s e s' hrun
  rw [getNode] at hrun
  split at hrun
  · cases hrun
  · cases hrun
    rfl

/-- A program that starts with a node of the heap. -/
theorem NodeProgram.getNode_bind {f : Node → TreeM N β}
    (hcommutes : ∀ o nav saved, Commutes (withNav nav saved) (f o))
    (hkeeps : ∀ o n s, s.heap[x]? = some o → ClosedFrom n s → ClosedFrom n (finalState (f o s)))
    (hthrows : ∀ o, ThrowsOnly (fun e => e.isRefusal = false) (f o)) :
    NodeProgram (getNode x >>= f) where
  commutes nav saved := (getNode_commutes nav saved x).bind fun o => hcommutes o nav saved
  keeps n := by
    intro s hs
    rw [run_bind, getNode]
    cases ho : s.heap[x]? with
    | none => exact hs
    | some o => exact hkeeps o n s ho hs
  throws := (getNode_throws x).bind hthrows

theorem NodeProgram.getNode (x : Ref) : NodeProgram (getNode x : TreeM N Node) where
  commutes nav saved := getNode_commutes nav saved x
  keeps n := by
    intro s hs
    rw [Avl.getNode]
    cases s.heap[x]? <;> exact hs
  throws := getNode_throws x

theorem setNode_commutes (nav : N) (saved : Option Ref) (x : Ref) (o : Node) :
    Commutes (withNav nav saved) (setNode x o : TreeM N Unit) := fun _ => rfl

theorem setNode_throws (x : Ref) (o : Node) :
    ThrowsOnly (fun e => e.isRefusal = false) (setNode x o : TreeM N Unit) :=
  fun _ _ _ hrun => by cases hrun

theorem newNode_commutes (nav : N) (saved : Option Ref) (c : Content) :
    Commutes (withNav nav saved) (newNode c : TreeM N Ref) := fun _ => rfl

theorem newNode_throws (c : Content) :
    ThrowsOnly (fun e => e.isRefusal = false) (newNode c : TreeM N Ref) :=
  fun _ _ _ hrun => by cases hrun

theorem NodeProgram.getView (x : Ref) : NodeProgram (getView x : TreeM N View) :=
  (NodeProgram.getNode x).bind fun _ => .pure _

theorem NodeProgram.getInternal (x : Ref) : NodeProgram (getInternal x : TreeM N Internal) := by
  refine (NodeProgram.getView x).bind fun v => ?_
  cases v with
  | labelOnlyNode l => exact .throw rfl
  | leaf k v n => exact .throw rfl
  | internalNode k l r b => exact .pure _

theorem NodeProgram.getLeaf (x : Ref) :
    NodeProgram (getLeaf x : TreeM N (ADKey × ADValue × ADKey)) := by
  refine (NodeProgram.getView x).bind fun v => ?_
  cases v with
  | labelOnlyNode l => exact .throw rfl
  | leaf k v n => exact .pure _
  | internalNode k l r b => exact .throw rfl

theorem NodeProgram.isLeaf (x : Ref) : NodeProgram (isLeaf x : TreeM N Bool) := by
  refine (NodeProgram.getView x).bind fun v => ?_
  cases v <;> exact .pure _

theorem NodeProgram.castProver (x : Ref) : NodeProgram (castProver x : TreeM N Unit) :=
  (NodeProgram.getNode x).bind fun _ => .ite (.pure _) (.throw rfl)

/-- A cast tells that the node is on the heap. -/
theorem lt_of_castProver {s s' : TreeState N} (hrun : castProver x s = .ok () s') :
    s' = s ∧ x < s.heap.length := by
  rw [castProver, run_bind, getNode] at hrun
  cases ho : s.heap[x]? with
  | none =>
    rw [ho] at hrun
    cases hrun
  | some o =>
    rw [ho] at hrun
    by_cases hp : o.content.isProverNode = true
    · simp only [if_pos hp] at hrun
      cases hrun
      exact ⟨rfl, (List.getElem?_eq_some_iff.1 ho).1⟩
    · simp only [if_neg hp] at hrun
      cases hrun

/-! ## Changes of nodes -/

theorem NodeProgram.onNodeVisit (P : TreeParams) (operation : Operation) (x : Ref)
    (isRotate : Bool) : NodeProgram (onNodeVisit P operation x isRotate : TreeM N Unit) := by
  refine .getNode_bind (fun o nav saved s => ?_) (fun o n s ho hs => ?_) fun o s e s' hrun => ?_
  · split_ifs <;> rfl
  · have hset := @ClosedFrom.set N x { o with visited := true } n s hs (hs.1.fits (o := o) ho)
    split_ifs <;> exact hset
  · split_ifs at hrun <;> cases hrun

theorem NodeProgram.getNewLeaf (x : Ref) (newKey : Option ADKey) (newValue : Option ADValue)
    (newNextLeafKey : Option ADKey) :
    NodeProgram (Leaf.getNew x newKey newValue newNextLeafKey : TreeM N Ref) := by
  refine .getNode_bind (fun o nav saved s => ?_) (fun o n s ho hs => ?_) fun o s e s' hrun => ?_
  all_goals
    rcases o with
      ⟨visited, labelOpt, l | ⟨_ | _, k, v, nk⟩ | ⟨k, v, nk⟩ | ⟨isNew, k, l, r, b⟩ | ⟨l, r, b⟩⟩
  all_goals try rfl
  · exact hs
  · exact hs.append ⟨rfl, fun y hy => by cases hy⟩
  · exact hs.set ⟨rfl, fun y hy => by cases hy⟩
  · cases (hs.1.fits ho).1
  · exact hs
  · exact hs
  all_goals cases hrun
  all_goals rfl

/-- The new leaf is on the heap. -/
theorem lt_of_getNewLeaf {newKey newNextLeafKey : Option ADKey} {newValue : Option ADValue}
    {y : Ref} {s' : TreeState N}
    (hrun : Leaf.getNew x newKey newValue newNextLeafKey s = .ok y s') :
    y < s'.heap.length := by
  rw [Leaf.getNew, run_bind, getNode] at hrun
  cases ho : s.heap[x]? with
  | none =>
    rw [ho] at hrun
    cases hrun
  | some o =>
    have hlt := (List.getElem?_eq_some_iff.1 ho).1
    rw [ho] at hrun
    rcases o with
      ⟨visited, labelOpt, l | ⟨_ | _, k, v, nk⟩ | ⟨k, v, nk⟩ | ⟨isNew, k, l, r, b⟩ | ⟨l, r, b⟩⟩
    all_goals cases hrun
    · simp
    · rwa [List.length_set]
    · rwa [List.length_set]

theorem NodeProgram.getNew (x : Ref) (newLeft newRight : Option Ref) (newBalance : Option Balance) :
    NodeProgram (getNew x newLeft newRight newBalance : TreeM N Ref) := by
  refine .getNode_bind (fun o nav saved => ?_) (fun o n s ho hs => ?_) fun o => ?_
  all_goals
    rcases o with
      ⟨visited, labelOpt, l | ⟨isNew, k, v, nk⟩ | ⟨k, v, nk⟩ | ⟨isNew, k, l, r, b⟩ | ⟨l, r, b⟩⟩
  · exact .throw _
  · exact .throw _
  · exact .throw _
  · refine ((NodeProgram.castProver _).commutes nav saved).bind fun _ =>
      ((NodeProgram.castProver _).commutes nav saved).bind fun _ => .ite ?_ ?_
    · exact (setNode_commutes nav saved x _).bind fun _ => .pure _
    · exact newNode_commutes nav saved _
  · exact (setNode_commutes nav saved x _).bind fun _ => .pure _
  · exact hs
  · exact hs
  · exact hs
  · -- the casts tell that the new children are on the heap
    show ClosedFrom n (finalState ((Avl.castProver (newLeft.getD l) >>= fun _ => _) s))
    rw [run_bind]
    cases hl : Avl.castProver (newLeft.getD l) s with
    | error e s₁ =>
      have := (NodeProgram.castProver (newLeft.getD l)).keeps n s hs
      rwa [hl] at this
    | ok u s₁ =>
      obtain ⟨rfl, hlt⟩ := lt_of_castProver hl
      simp only
      rw [run_bind]
      cases hr : Avl.castProver (newRight.getD r) s₁ with
      | error e s₂ =>
        have := (NodeProgram.castProver (newRight.getD r)).keeps n s₁ hs
        rwa [hr] at this
      | ok u s₂ =>
        obtain ⟨rfl, hrt⟩ := lt_of_castProver hr
        have hchildren : ∀ y ∈ [newLeft.getD l, newRight.getD r], y < s₂.heap.length := by
          intro y hy
          rcases List.mem_pair.1 hy with rfl | rfl
          · exact hlt
          · exact hrt
        cases isNew with
        | true => exact hs.set ⟨rfl, hchildren⟩
        | false => exact hs.append ⟨rfl, fun y hy => (hchildren y hy).trans (Nat.lt_succ_self _)⟩
  · cases (hs.1.fits ho).1
  · exact .throw rfl
  · exact .throw rfl
  · exact .throw rfl
  · refine (NodeProgram.castProver _).throws.bind fun _ =>
      (NodeProgram.castProver _).throws.bind fun _ => .ite ?_ ?_
    · exact (setNode_throws x _).bind fun _ => .pure _
    · exact newNode_throws _
  · exact (setNode_throws x _).bind fun _ => .pure _

theorem NodeProgram.getNewKey (x : Ref) (newKey : ADKey) :
    NodeProgram (getNewKey x newKey : TreeM N Ref) := by
  refine .getNode_bind (fun o nav saved s => ?_) (fun o n s ho hs => ?_) fun o s e s' hrun => ?_
  all_goals
    rcases o with
      ⟨visited, labelOpt, l | ⟨isNew, k, v, nk⟩ | ⟨k, v, nk⟩ | ⟨_ | _, k, l, r, b⟩ | ⟨l, r, b⟩⟩
  all_goals try rfl
  · exact hs
  · exact hs
  · exact hs
  · have hnew : (Content.internalProverNode true newKey l r b).Fits (s.heap.length + 1) :=
      ⟨rfl, fun y hy => ((hs.1.fits ho).2 y hy).trans (Nat.lt_succ_self _)⟩
    refine ClosedFrom.set (hs.append hnew) ?_
    rw [List.length_append]
    exact hnew
  · exact hs.set ⟨rfl, (hs.1.fits ho).2⟩
  · exact hs
  all_goals cases hrun
  all_goals rfl

theorem NodeProgram.addNode (nav : Navigation N) (hmode : nav.mode = .prover) (r : Ref)
    (key : ADKey) (v : ADValue) : NodeProgram (addNode nav r key v : TreeM N Ref) := by
  refine (NodeProgram.getLeaf r).bind fun ⟨rKey, rValue, n'⟩ => ?_
  have hleft := NodeProgram.getNewLeaf (N := N) r none none (some key)
  rw [hmode]
  refine ⟨fun nav' saved => (hleft.commutes nav' saved).bind fun left => ?_, fun n s hs => ?_,
    hleft.throws.bind fun left => ?_⟩
  · exact (newNode_commutes nav' saved _).bind fun right => newNode_commutes nav' saved _
  · have hkeeps := hleft.keeps n s hs
    show ClosedFrom n (finalState ((Leaf.getNew r none none (some key) >>= fun left => _) s))
    rw [run_bind]
    cases hrun : Leaf.getNew r none none (some key) s with
    | error e s₁ => rwa [hrun] at hkeeps
    | ok left s₁ =>
      rw [hrun] at hkeeps
      have hlt := lt_of_getNewLeaf hrun
      -- the right leaf is made after the left one, and their parent after both
      have hright := hkeeps.append (o := ⟨false, none, .proverLeaf true key v n'⟩)
        ⟨rfl, fun y hy => by cases hy⟩
      refine hright.append ⟨rfl, fun y hy => ?_⟩
      rw [List.length_append, List.length_singleton]
      rcases List.mem_pair.1 hy with rfl | rfl
      · exact Nat.lt_succ_of_lt (Nat.lt_succ_of_lt hlt)
      · exact Nat.lt_succ_of_lt (Nat.lt_succ_self _)
  · exact (newNode_throws _).bind fun right => newNode_throws _

/-! ## Rotations -/

theorem NodeProgram.doubleRotateBalances (b : Balance) :
    NodeProgram (doubleRotateBalances b : TreeM N (Balance × Balance)) :=
  .ite (.pure _) (.ite (.pure _) (.ite (.pure _) (.throw rfl)))

theorem NodeProgram.doubleLeftRotate (currentRoot leftChild rightChild : Ref) :
    NodeProgram (doubleLeftRotate currentRoot leftChild rightChild : TreeM N Ref) :=
  (NodeProgram.getInternal _).bind fun _ => (NodeProgram.getInternal _).bind fun _ =>
    (NodeProgram.doubleRotateBalances _).bind fun _ => (NodeProgram.getNew _ _ _ _).bind fun _ =>
      (NodeProgram.getNew _ _ _ _).bind fun _ => .getNew _ _ _ _

theorem NodeProgram.doubleRightRotate (currentRoot leftChild rightChild : Ref) :
    NodeProgram (doubleRightRotate currentRoot leftChild rightChild : TreeM N Ref) :=
  (NodeProgram.getInternal _).bind fun _ => (NodeProgram.getInternal _).bind fun _ =>
    (NodeProgram.doubleRotateBalances _).bind fun _ => (NodeProgram.getNew _ _ _ _).bind fun _ =>
      (NodeProgram.getNew _ _ _ _).bind fun _ => .getNew _ _ _ _

/-! ## Modifications -/

variable (P : TreeParams) (operation : Operation)

theorem NodeProgram.modifyLeft (rNode : Ref) (m : Modified) :
    NodeProgram (modifyLeft P operation rNode m : TreeM N Modified) := by
  refine (NodeProgram.onNodeVisit P operation rNode false).bind fun _ => .ite ?_ (.pure _)
  refine (NodeProgram.getInternal rNode).bind fun r => .ite ?_ ?_
  · refine (NodeProgram.getInternal m.root).bind fun newLeft => .ite ?_ ?_
    · exact (NodeProgram.getNew _ _ _ _).bind fun newR =>
        (NodeProgram.getNew _ _ _ _).bind fun _ => .pure _
    · exact (NodeProgram.doubleRightRotate _ _ _).bind fun _ => .pure _
  · exact (NodeProgram.getNew _ _ _ _).bind fun _ => .pure _

theorem NodeProgram.modifyRight (rNode : Ref) (m : Modified) :
    NodeProgram (modifyRight P operation rNode m : TreeM N Modified) := by
  refine (NodeProgram.onNodeVisit P operation rNode false).bind fun _ => .ite ?_ (.pure _)
  refine (NodeProgram.getInternal rNode).bind fun r => .ite ?_ ?_
  · refine (NodeProgram.getInternal m.root).bind fun newRight => .ite ?_ ?_
    · exact (NodeProgram.getNew _ _ _ _).bind fun newR =>
        (NodeProgram.getNew _ _ _ _).bind fun _ => .pure _
    · exact (NodeProgram.doubleLeftRotate _ _ _).bind fun _ => .pure _
  · exact (NodeProgram.getNew _ _ _ _).bind fun _ => .pure _

/-! ## Deletions -/

theorem NodeProgram.changeNextLeafKeyOfMaxNode (fuel : ℕ) (rNode : Ref) (nextLeafKey : ADKey) :
    NodeProgram (changeNextLeafKeyOfMaxNode P operation fuel rNode nextLeafKey : TreeM N Ref) := by
  induction fuel generalizing rNode with
  | zero => exact .throw rfl
  | succ fuel ih =>
    refine (NodeProgram.onNodeVisit P operation rNode false).bind fun _ =>
      (NodeProgram.getView rNode).bind fun v => ?_
    cases v with
    | leaf k v n => exact .getNewLeaf _ _ _ _
    | internalNode k l r b => exact (ih r).bind fun newRight => .getNew _ _ _ _
    | labelOnlyNode l => exact .throw rfl

theorem NodeProgram.changeKeyAndValueOfMinNode (fuel : ℕ) (rNode : Ref) (newKey : ADKey)
    (newValue : ADValue) :
    NodeProgram
      (changeKeyAndValueOfMinNode P operation fuel rNode newKey newValue : TreeM N Ref) := by
  induction fuel generalizing rNode with
  | zero => exact .throw rfl
  | succ fuel ih =>
    refine (NodeProgram.onNodeVisit P operation rNode false).bind fun _ =>
      (NodeProgram.getView rNode).bind fun v => ?_
    cases v with
    | leaf k v n => exact .getNewLeaf _ _ _ _
    | internalNode k l r b => exact (ih l).bind fun newLeft => .getNew _ _ _ _
    | labelOnlyNode l => exact .throw rfl

theorem NodeProgram.deleteLeft (newRoot newLeft : Ref) (childHeightDecreased : Bool) :
    NodeProgram
      (deleteLeft P operation newRoot newLeft childHeightDecreased : TreeM N (Ref × Bool)) := by
  refine (NodeProgram.getInternal newRoot).bind fun root => .ite ?_ ?_
  · refine (NodeProgram.onNodeVisit P operation root.right true).bind fun _ =>
      (NodeProgram.getInternal root.right).bind fun rightChild => .ite ?_ ?_
    · exact (NodeProgram.onNodeVisit P operation rightChild.left true).bind fun _ =>
        (NodeProgram.doubleLeftRotate _ _ _).bind fun _ => .pure _
    · exact (NodeProgram.getNew _ _ _ _).bind fun _ => (NodeProgram.getNew _ _ _ _).bind fun newR =>
        (NodeProgram.getInternal newR).bind fun _ => .pure _
  · exact (NodeProgram.getNew _ _ _ _).bind fun _ => .pure _

theorem NodeProgram.deleteRight (r newRight : Ref) (childHeightDecreased : Bool) :
    NodeProgram
      (deleteRight P operation r newRight childHeightDecreased : TreeM N (Ref × Bool)) := by
  refine (NodeProgram.getInternal r).bind fun root => .ite ?_ ?_
  · refine (NodeProgram.onNodeVisit P operation root.left true).bind fun _ =>
      (NodeProgram.getInternal root.left).bind fun leftChild => .ite ?_ ?_
    · exact (NodeProgram.onNodeVisit P operation leftChild.right true).bind fun _ =>
        (NodeProgram.doubleRightRotate _ _ _).bind fun _ => .pure _
    · exact (NodeProgram.getNew _ _ _ _).bind fun _ => (NodeProgram.getNew _ _ _ _).bind fun newR =>
        (NodeProgram.getInternal newR).bind fun _ => .pure _
  · exact (NodeProgram.getNew _ _ _ _).bind fun _ => .pure _

/-! ## Labels -/

/-- A node that gets another label or another `visited` flag. -/
theorem Closed.fits_of_content {o' : Node} (hh : Closed h) (ho : h[x]? = some o)
    (hcontent : o'.content = o.content) : o'.content.Fits h.length :=
  hcontent ▸ hh.fits ho

theorem NodeProgram.label (hf : CryptographicHash) (fuel : ℕ) (x : Ref) :
    NodeProgram (label hf fuel x : TreeM N Digest) := by
  induction fuel generalizing x with
  | zero => exact .throw rfl
  | succ fuel ih =>
    refine (NodeProgram.getNode x).bind fun o => ?_
    have hcache : ∀ l : Digest, NodeProgram (do
        let o' ← Avl.getNode x
        setNode x { o' with labelOpt := some l }
        return l : TreeM N Digest) := by
      intro l
      refine .getNode_bind (fun o' nav saved => ?_) (fun o' n s ho' hs => ?_) fun o' => ?_
      · exact (setNode_commutes nav saved x _).bind fun _ => .pure l
      · exact ClosedFrom.set hs (hs.1.fits_of_content ho' rfl)
      · exact (setNode_throws x _).bind fun _ => .pure l
    cases o.labelOpt with
    | some l => exact .pure l
    | none =>
      cases o.content.view with
      | labelOnlyNode l => exact hcache l
      | leaf k v nk => exact hcache _
      | internalNode key left right b =>
        exact (ih left).bind fun leftLabel => (ih right).bind fun rightLabel => hcache _

theorem NodeProgram.digestOf (fuel : ℕ) (rootNode : Ref) :
    NodeProgram (digestOf P fuel rootNode : TreeM N Digest) := by
  refine .get_bind (fun _ _ _ => rfl) fun s => .ite ?_ (.throw rfl)
  exact (NodeProgram.label P.hf fuel rootNode).bind fun l => .pure _

/-! ## The deletion

`deleteHelper` also replays the way and uses the saved node, but what it is made of keeps
many invariants. -/

/-- A program that keeps an invariant and never refuses an operation. -/
structure TreeProgram (I : TreeState N → Prop) (x : TreeM N α) : Prop where
  keeps : Keeps I x
  throws : ThrowsOnly (fun e => e.isRefusal = false) x

/-- An invariant that is kept by programs on nodes, by a replay, and whatever node is saved. -/
structure DeletionInvariant (nav : Navigation N) (I : TreeState N → Prop) : Prop where
  nodes : ∀ {γ : Type} {x : TreeM N γ}, NodeProgram x → Keeps I x
  saved : ∀ v s, I s → I { s with savedNode := v }
  replay : TreeProgram I (liftNav nav.replayComparison)

section

variable {I : TreeState N → Prop} {nav : Navigation N}

namespace TreeProgram

theorem pure (a : α) : TreeProgram I (pure a : TreeM N α) := ⟨.pure a, .pure a⟩

theorem throw {e : AvlError} (he : e.isRefusal = false) : TreeProgram I (throw e : TreeM N α) :=
  ⟨.throw e, .throw he⟩

theorem bind {x : TreeM N α} {f : α → TreeM N β} (hx : TreeProgram I x)
    (hf : ∀ a, TreeProgram I (f a)) : TreeProgram I (x >>= f) :=
  ⟨hx.keeps.bind fun a => (hf a).keeps, hx.throws.bind fun a => (hf a).throws⟩

theorem ite {p : Prop} [Decidable p] {x y : TreeM N α} (hx : TreeProgram I x)
    (hy : TreeProgram I y) : TreeProgram I (if p then x else y) := by
  split
  · exact hx
  · exact hy

theorem get_bind {f : TreeState N → TreeM N β} (hf : ∀ s, TreeProgram I (f s)) :
    TreeProgram I (get >>= f) :=
  ⟨.get_bind fun s => (hf s).keeps, .get_bind fun s => (hf s).throws⟩

end TreeProgram

theorem NodeProgram.tree {x : TreeM N α} (hx : NodeProgram x) (hI : DeletionInvariant nav I) :
    TreeProgram I x :=
  ⟨hI.nodes hx, hx.throws⟩

theorem DeletionInvariant.save (hI : DeletionInvariant nav I) (v : Option Ref) :
    TreeProgram I (modify fun s => { s with savedNode := v } : TreeM N Unit) :=
  ⟨.modify (hI.saved v), .modify _⟩

theorem deleteHelper_tree (hI : DeletionInvariant nav I) (fuel : ℕ) (r : Ref) (deleteMax : Bool) :
    TreeProgram I (deleteHelper P nav operation fuel r deleteMax) := by
  induction fuel generalizing r deleteMax with
  | zero => exact .throw rfl
  | succ fuel ih =>
    obtain ⟨rest, hrun, hrest⟩ : ∃ rest : ℤ → TreeM N (Ref × Bool),
        deleteHelper P nav operation (fuel + 1) r deleteMax
          = (onNodeVisit P operation r false >>= fun _ =>
              if deleteMax = true then Pure.pure 1 >>= rest
              else liftNav nav.replayComparison >>= rest)
        ∧ ∀ direction, TreeProgram I (rest direction) := by
      refine ⟨_, rfl, fun direction => ?_⟩
      refine ((NodeProgram.getInternal r).tree hI).bind fun root => ?_
      refine ((NodeProgram.isLeaf root.left).tree hI).bind fun leftIsLeaf => ?_
      refine ((NodeProgram.isLeaf root.right).tree hI).bind fun rightIsLeaf => ?_
      refine .ite (.throw rfl) (.ite ?_ (.ite ?_ (.ite ?_ ?_)))
      · refine ((NodeProgram.getLeaf root.right).tree hI).bind fun _ => ?_
        refine ((NodeProgram.onNodeVisit P operation root.right false).tree hI).bind fun _ => ?_
        refine .ite ((hI.save _).bind fun _ => .pure _) (.ite ?_ (.throw rfl))
        exact ((NodeProgram.changeNextLeafKeyOfMaxNode P operation fuel _ _).tree hI).bind
          fun _ => .pure _
      · refine ((NodeProgram.getLeaf root.left).tree hI).bind fun _ => ?_
        refine ((NodeProgram.onNodeVisit P operation root.left false).tree hI).bind fun _ => ?_
        exact ((NodeProgram.changeKeyAndValueOfMinNode P operation fuel _ _ _).tree hI).bind
          fun _ => .pure _
      · refine ((NodeProgram.getInternal root.left).tree hI).bind fun _ => ?_
        refine (ih root.left _).bind fun res => .ite ?_ ?_
        · refine .get_bind fun s => ?_
          cases s.savedNode with
          | none => exact .throw rfl
          | some saved =>
            refine ((NodeProgram.getLeaf saved).tree hI).bind fun _ =>
              (hI.save none).bind fun _ => ?_
            refine ((NodeProgram.getNewKey r _).tree hI).bind fun rWithChangedKey => ?_
            refine ((NodeProgram.getInternal rWithChangedKey).tree hI).bind fun _ => ?_
            refine ((NodeProgram.changeKeyAndValueOfMinNode P operation fuel _ _ _).tree hI).bind
              fun newRight => ?_
            refine ((NodeProgram.getNew rWithChangedKey _ _ _).tree hI).bind fun newRoot => ?_
            exact (NodeProgram.deleteLeft P operation newRoot _ _).tree hI
        · exact (NodeProgram.deleteLeft P operation r _ _).tree hI
      · refine ((NodeProgram.getInternal root.right).tree hI).bind fun _ => ?_
        exact (ih root.right deleteMax).bind fun _ =>
          (NodeProgram.deleteRight P operation r _ _).tree hI
    rw [hrun]
    refine ((NodeProgram.onNodeVisit P operation r false).tree hI).bind fun _ => .ite ?_ ?_
    · exact (TreeProgram.pure 1).bind hrest
    · exact hI.replay.bind hrest

end

end

end Sparkz.Avl
