import Sparkz.Avl.Rebalance

/-!
# Modifications on the heap

`modifyHelper` goes down to a leaf and does there what the operation says.  Its way and
the action at the leaf depend on the navigation and on the tree only, and what it does
to the nodes is what `modifyAt` does to the tree.

* `leafAction` — what an operation makes of the value that it finds: an error, an
  action on the leaf, or the removal of the leaf.
* `descend` — the way to the leaf.
* `modifyHelper_error`, `modifyHelper_spec` — if the way ends in an error no node is
  touched; otherwise `modifyHelper` simulates `modifyAt` along the way.
-/

namespace Sparkz.Avl

open Sparkz.Lib Sparkz.Lib.LeafTree

/-! ## The way down -/

/-- Is the length of a value the one that is required? -/
def lengthFits (P : TreeParams) (v : ADValue) : Except AvlError Unit :=
  match P.valueLengthOpt with
  | none => .ok ()
  | some vl => if v.length = vl then .ok () else .error (.wrongValueLength vl)

/-- What an operation does to the leaf that has, or lacks, its key; `none` is to remove
the leaf. -/
def leafAction (P : TreeParams) (operation : Operation) (old : Option ADValue) :
    Except AvlError (Option (Action ADKey ADValue)) :=
  match operation.updateFn with
  | none => .ok (some .keep)
  | some updateFn =>
      match updateFn old with
      | .error e => .error (.update e)
      | .ok none => .ok (if old.isSome then none else some .keep)
      | .ok (some v) =>
          match lengthFits P v with
          | .error e => .error e
          | .ok () => .ok (some (if old.isSome then .update v else .insert operation.key v))

section

variable {N : Type} (P : TreeParams) (nav : Navigation N) (operation : Operation)

/-- The way to the leaf, the action there and the value found. -/
def descend : Tree → EStateM AvlError N (List Bool × Option (Action ADKey ADValue) × Option ADValue)
  | .stub _ => throw .shouldNeverReach
  | .leaf _ k v n => do
      let found ← nav.keyMatchesLeaf operation.key k n
      let old := if found then some v else none
      match leafAction P operation old with
      | .ok act => return ([], act, old)
      | .error e => throw e
  | .node _ k l r _ => do
      if (← nav.nextDirectionIsLeft operation.key (nodeKey nav.mode k)) then
        let way ← descend l
        return (true :: way.1, way.2)
      else
        let way ← descend r
        return (false :: way.1, way.2)

end

section

variable {N : Type} {P : TreeParams} {nav : Navigation N} {operation : Operation}
  {hf : CryptographicHash} {s : TreeState N} {t : Tree} {x : Ref} {M : Set Ref} {n n' : N}

theorem liftNav_ok {α : Type} {action : EStateM AvlError N α} {a : α}
    (h : action s.nav = .ok a n') : liftNav action s = .ok a { s with nav := n' } := by
  simp only [liftNav, h]

theorem liftNav_error {α : Type} {action : EStateM AvlError N α} {e : AvlError}
    (h : action s.nav = .error e n') : liftNav action s = .error e { s with nav := n' } := by
  simp only [liftNav, h]

/-- The way at a leaf. -/
theorem descend_leaf (tag : Option Ref) (k nk : ADKey) (v : ADValue) (n : N) :
    descend P nav operation (.leaf tag k v nk) n
      = match nav.keyMatchesLeaf operation.key k nk n with
        | .error e n' => .error e n'
        | .ok found n' =>
            match leafAction P operation (if found then some v else none) with
            | .ok act => .ok ([], act, if found then some v else none) n'
            | .error e => .error e n' := by
  rw [descend]
  show EStateM.bind _ _ _ = _
  rw [EStateM.bind]
  cases nav.keyMatchesLeaf operation.key k nk n with
  | error e n' => rfl
  | ok found n' =>
    simp only
    cases leafAction P operation (if found then some v else none) with
    | error e => rfl
    | ok act => rfl

/-- The way at an inner node. -/
theorem descend_node (tag : Option Ref) (k : ADKey) (l r : Tree) (b : Balance) (n : N) :
    descend P nav operation (.node tag k l r b) n
      = match nav.nextDirectionIsLeft operation.key (nodeKey nav.mode k) n with
        | .error e n' => .error e n'
        | .ok d n' =>
            match descend P nav operation (if d then l else r) n' with
            | .error e n'' => .error e n''
            | .ok way n'' => .ok (d :: way.1, way.2) n'' := by
  rw [descend]
  show EStateM.bind _ _ _ = _
  rw [EStateM.bind]
  cases nav.nextDirectionIsLeft operation.key (nodeKey nav.mode k) n with
  | error e n' => rfl
  | ok d n' =>
    cases d with
    | true =>
      simp only [if_true]
      show EStateM.bind _ _ _ = _
      rw [EStateM.bind]
      cases descend P nav operation l n' with
      | error e n'' => rfl
      | ok way n'' => rfl
    | false =>
      simp only [Bool.false_eq_true, if_false]
      show EStateM.bind _ _ _ = _
      rw [EStateM.bind]
      cases descend P nav operation r n' with
      | error e n'' => rfl
      | ok way n'' => rfl

theorem requireValueLength_spec (v : ADValue) :
    (lengthFits P v = .ok () → requireValueLength P v s = .ok () s)
    ∧ ∀ e, lengthFits P v = .error e → requireValueLength P v s = .error e s := by
  rw [lengthFits, requireValueLength]
  cases P.valueLengthOpt with
  | none => exact ⟨fun _ => rfl, fun e h => by cases h⟩
  | some vl =>
    simp only
    by_cases hv : v.length = vl
    · rw [if_pos hv, if_pos hv]
      exact ⟨fun _ => rfl, fun e h => by cases h⟩
    · rw [if_neg hv, if_neg hv]
      refine ⟨fun h => (by cases h), fun e h => ?_⟩
      cases h
      rfl

/-! ## At the leaf -/

/-- In a verifier no visit matters. -/
theorem Step.of_verifier {h h' : Heap} {W W' : List Ref} {mode : Mode} (hs : Step mode h h' M W)
    (hW : mode = .prover → W = W') : Step mode h h' M W' where
  length_le := hs.length_le
  kept := hs.kept
  isProverNode := hs.isProverNode
  visited := by
    intro hmode
    rw [← hW hmode]
    exact hs.visited hmode

/-- A leaf is changed, and the old leaf visited. -/
theorem Leaf.getNew_visit (P : TreeParams) (operation : Operation) {mode : Mode}
    {tag : Option Ref} {k nk : ADKey} {v : ADValue}
    (hr : Represents mode hf s.heap (.leaf tag k v nk) x M) (value : ADValue) :
    ∃ x' s₁ s', Leaf.getNew x none (some value) none s = .ok x' s₁
      ∧ onNodeVisit P operation x false s₁ = .ok () s' ∧ Same s s'
      ∧ Yields mode hf s.heap s'.heap M tag.toList (.leaf none k value nk) x' := by
  obtain ⟨x', s₁, hrun, hsame, hstep, hrep, hx'⟩ := Leaf.getNew_spec hr none (some value) none
  -- the leaf at `x` is the new one or, if that is a copy, still the old one
  have hold : ∃ t₁ M₁, Represents mode hf s₁.heap t₁ x M₁
      ∧ (mode = .prover → t₁.tags = tag.toList) := by
    rcases hx' with ⟨rfl, hM⟩ | ⟨_, hM⟩
    · refine ⟨_, _, hrep, fun hmode => ?_⟩
      obtain ⟨isNew, _, htag, rfl⟩ := hr
      have hnew : isNew = true := (hM.symm.subset ⟨rfl, rfl⟩).2
      rw [htag.old hmode, hnew]
      rfl
    · exact ⟨_, _, hr.step hstep (fun y hy => by rw [hM] at hy; exact hy.elim), fun _ => rfl⟩
  obtain ⟨t₁, M₁, hrep₁, htags⟩ := hold
  obtain ⟨s', hrun', hsame', hstep'⟩ := onNodeVisit_spec P operation false hrep₁
  refine ⟨x', s₁, s', hrun, hrun', hsame.trans hsame', ?_, _, hrep.step hstep' ?_, ?_⟩
  · have := hstep.trans hstep' (fun _ hy => hy) (fun _ hy => hy.elim)
    exact this.of_verifier fun hmode => by rw [htags hmode]; rfl
  · exact fun _ _ hy => hy
  · intro y hy
    rcases hx' with hx' | hx'
    · rw [hx'.2, ← hx'.1]
      exact .inl hy
    · exact .inr (hy.1 ▸ hx'.1.ge)

/-- What `modifyHelper` returns, and does to the nodes, for a result of `modifyAt`. -/
def Modifies (mode : Mode) (hf : CryptographicHash) (s : TreeState N) (M : Set Ref) (W : List Ref)
    (x : Ref) (act : Option (Action ADKey ADValue)) (old : Option ADValue)
    (a : Tree × Bool × Bool) (m : Modified) (s' : TreeState N) : Prop :=
  Same s s' ∧ m = ⟨m.root, a.2.1, a.2.2, act.isNone, old⟩
    ∧ (a.2.1 = false → m.root = x ∧ Step mode s.heap s'.heap ∅ W)
    ∧ Yields mode hf s.heap s'.heap M W a.1 m.root

/-- A leaf that is only visited. -/
theorem modifies_keep {mode : Mode} {tag : Option Ref} {k nk : ADKey} {v : ADValue}
    (hr : Represents mode hf s.heap (.leaf tag k v nk) x M)
    (act : Option (Action ADKey ADValue)) (old : Option ADValue) (toDelete : Bool)
    (hact : act.getD .keep = .keep) (hdel : toDelete = act.isNone) :
    Simulates (modifyAt (.leaf tag k v nk) [] (act.getD .keep))
      (Modifies mode hf s M tag.toList x act old)
      ((do
        onNodeVisit P operation x false
        return ⟨x, false, false, toDelete, old⟩ : TreeM N Modified) s) := by
  obtain ⟨s', hrun, hsame, hstep⟩ := onNodeVisit_spec P operation false hr
  rw [hact, hdel]
  refine .of_bind_ok hrun ?_
  refine .ok rfl ⟨hsame, rfl, fun _ => ⟨rfl, hstep⟩, hstep.mono fun _ hy => hy.elim, M, ?_,
    fun _ => .inl⟩
  exact hr.step hstep fun _ _ hy => hy

/-- At a leaf, `modifyHelper` does what the operation says. -/
theorem modifyLeaf_spec {tag : Option Ref} {k nk : ADKey} {v : ADValue} {found : Bool}
    (hr : Represents nav.mode hf s.heap (.leaf tag k v nk) x M)
    (hfound : nav.keyMatchesLeaf operation.key k nk s.nav = .ok found n') :
    (∀ e, leafAction P operation (if found then some v else none) = .error e →
      modifyLeaf P nav operation x k v nk s = .error e { s with nav := n' })
    ∧ ∀ act, leafAction P operation (if found then some v else none) = .ok act →
      Simulates (modifyAt (.leaf tag k v nk) [] (act.getD .keep))
        (Modifies nav.mode hf { s with nav := n' } M tag.toList x act
          (if found then some v else none))
        (modifyLeaf P nav operation x k v nk s) := by
  have hr₁ : Represents nav.mode hf { s with nav := n' }.heap (.leaf tag k v nk) x M := hr
  rw [modifyLeaf, bind_ok (liftNav_ok hfound), leafAction]
  cases found with
  | true =>
    simp only [if_true]
    cases operation.updateFn with
    | none =>
      refine ⟨fun e h => (by cases h), fun act h => ?_⟩
      cases h
      exact modifies_keep hr₁ _ _ _ rfl rfl
    | some updateFn =>
      simp only
      cases updateFn (some v) with
      | error e' =>
        refine ⟨fun e h => ?_, fun act h => (by cases h)⟩
        cases h
        rfl
      | ok value =>
        cases value with
        | none =>
          refine ⟨fun e h => (by cases h), fun act h => ?_⟩
          cases h
          exact modifies_keep hr₁ _ _ _ rfl rfl
        | some value =>
          simp only
          obtain ⟨hfits, hunfit⟩ :=
            requireValueLength_spec (P := P) (s := { s with nav := n' }) value
          cases hlen : lengthFits P value with
          | error e' =>
            refine ⟨fun e h => ?_, fun act h => (by cases h)⟩
            cases h
            exact bind_error (hunfit _ hlen)
          | ok u =>
            refine ⟨fun e h => (by cases h), fun act h => ?_⟩
            cases h
            obtain ⟨x', s₁, s', hrun, hvisit, hsame, hyields⟩ :=
              Leaf.getNew_visit P operation hr₁ value
            refine .of_bind_ok (hfits hlen) ?_
            refine .of_bind_ok hrun ?_
            refine .of_bind_ok hvisit ?_
            exact .ok rfl ⟨hsame, rfl, fun h => (by cases h), hyields⟩
  | false =>
    simp only [Bool.false_eq_true, if_false]
    cases operation.updateFn with
    | none =>
      refine ⟨fun e h => (by cases h), fun act h => ?_⟩
      cases h
      exact modifies_keep hr₁ _ _ _ rfl rfl
    | some updateFn =>
      simp only
      cases updateFn none with
      | error e' =>
        refine ⟨fun e h => ?_, fun act h => (by cases h)⟩
        cases h
        rfl
      | ok value =>
        cases value with
        | none =>
          refine ⟨fun e h => (by cases h), fun act h => ?_⟩
          cases h
          exact modifies_keep hr₁ _ _ _ rfl rfl
        | some value =>
          simp only
          obtain ⟨hfits, hunfit⟩ :=
            requireValueLength_spec (P := P) (s := { s with nav := n' }) value
          cases hlen : lengthFits P value with
          | error e' =>
            refine ⟨fun e h => ?_, fun act h => (by cases h)⟩
            cases h
            exact bind_error (hunfit _ hlen)
          | ok u =>
            refine ⟨fun e h => (by cases h), fun act h => ?_⟩
            cases h
            obtain ⟨s₁, hvisit, hsame₁, hstep₁⟩ := onNodeVisit_spec P operation false hr₁
            obtain ⟨x', s', hrun, hsame, hstep, M', hrep, hM'⟩ :=
              addNode_spec rfl (hr₁.step hstep₁ fun _ _ hy => hy) operation.key value
            refine .of_bind_ok (hfits hlen) ?_
            refine .of_bind_ok hvisit ?_
            refine .of_bind_ok hrun ?_
            refine .ok rfl ⟨hsame₁.trans hsame, rfl, fun h => (by cases h), ?_, M', hrep, ?_⟩
            · have := hstep₁.trans hstep (fun _ hy => hy.elim) (fun _ hy => .inl hy)
              simpa [tags] using this
            · exact fun y hy => (hM' y hy).imp id hstep₁.length_le.trans

/-! ## The whole way -/

/-- Below an inner node, a child of the tree and the rest of the way. -/
theorem Represents.child {mode : Mode} {tag : Option Ref} {k : ADKey} {l r : Tree} {b : Balance}
    (hr : Represents mode hf s.heap (.node tag k l r b) x M) :
    ∃ isNew lx rx Ml Mr, Inner mode s.heap x isNew k lx rx b ∧ Tagged mode x tag isNew
      ∧ Represents mode hf s.heap l lx Ml ∧ Represents mode hf s.heap r rx Mr
      ∧ x ∉ Ml ∧ x ∉ Mr ∧ (∀ y ∈ Ml, y ∉ Mr) ∧ M = own x isNew ∪ (Ml ∪ Mr) := by
  obtain ⟨isNew, lx, rx, Ml, Mr, hx, htag, hl, hr, hxl, hxr, hlr, _, rfl⟩ := hr
  exact ⟨isNew, lx, rx, Ml, Mr, hx.inner htag, htag, hl, hr, hxl, hxr, hlr, rfl⟩

/-- An error on the way leaves all nodes as they are. -/
theorem modifyHelper_error (hr : Represents nav.mode hf s.heap t x M) {fuel : ℕ}
    (hfuel : t.height < fuel) {e : AvlError}
    (hway : descend P nav operation t s.nav = .error e n') :
    modifyHelper P nav operation fuel x s = .error e { s with nav := n' } := by
  induction t generalizing fuel x s M with
  | stub d =>
    obtain ⟨fuel, rfl⟩ := Nat.exists_eq_succ_of_ne_zero (Nat.ne_of_gt hfuel)
    rw [modifyHelper, bind_ok (getView_stub hr)]
    cases hway
    rfl
  | leaf tag k v nk =>
    obtain ⟨fuel, rfl⟩ := Nat.exists_eq_succ_of_ne_zero (Nat.ne_of_gt hfuel)
    rw [modifyHelper, bind_ok (getView_leaf hr)]
    simp only
    rw [descend_leaf] at hway
    cases hfound : nav.keyMatchesLeaf operation.key k nk s.nav with
    | error e' n₁ =>
      rw [hfound] at hway
      cases hway
      rw [modifyLeaf]
      exact bind_error (liftNav_error hfound)
    | ok found n₁ =>
      rw [hfound] at hway
      simp only at hway
      cases hact : leafAction P operation (if found then some v else none) with
      | error e' =>
        rw [hact] at hway
        cases hway
        exact (modifyLeaf_spec hr hfound).1 _ hact
      | ok act =>
        rw [hact] at hway
        cases hway
  | node tag k l r b ihl ihr =>
    rw [height_node] at hfuel
    obtain ⟨fuel, rfl⟩ := Nat.exists_eq_succ_of_ne_zero (Nat.ne_of_gt (Nat.zero_lt_of_lt hfuel))
    obtain ⟨isNew, lx, rx, Ml, Mr, hx, htag, hl, hr, _⟩ := hr.child
    rw [modifyHelper, bind_ok (getView_inner hx)]
    simp only
    rw [descend_node] at hway
    cases hdir : nav.nextDirectionIsLeft operation.key (nodeKey nav.mode k) s.nav with
    | error e' n₁ =>
      rw [hdir] at hway
      cases hway
      exact bind_error (liftNav_error hdir)
    | ok d n₁ =>
      rw [hdir] at hway
      simp only at hway
      rw [bind_ok (liftNav_ok hdir)]
      cases hrest : descend P nav operation (if d then l else r) n₁ with
      | error e' n₂ =>
        rw [hrest] at hway
        cases hway
        cases d with
        | true =>
          have hl₁ : Represents nav.mode hf { s with nav := n₁ }.heap l lx Ml := hl
          exact bind_error (ihl hl₁ (by omega) hrest)
        | false =>
          have hr₁ : Represents nav.mode hf { s with nav := n₁ }.heap r rx Mr := hr
          exact bind_error (ihr hr₁ (by omega) hrest)
      | ok way n₂ =>
        rw [hrest] at hway
        cases hway

/-- A root above a child that was not changed is only visited. -/
theorem modifyLeft_unchanged (P : TreeParams) (operation : Operation) {mode : Mode}
    {tag : Option Ref} {isNew : Bool} {k : ADKey} {l₀ r₀ : Ref} {b₀ : Balance}
    (hx : Inner mode s.heap x isNew k l₀ r₀ b₀)
    (htag : Tagged mode x tag isNew) {m : Modified} (hm : m.changeHappened = false) :
    ∃ s', modifyLeft P operation x m s = .ok ⟨x, false, false, m.toDelete, m.oldValue⟩ s'
      ∧ Same s s' ∧ Step mode s.heap s'.heap ∅ tag.toList := by
  obtain ⟨s', hrun, hsame, hstep⟩ := onNodeVisit_inner P operation false hx htag
  refine ⟨s', ?_, hsame, hstep⟩
  rw [modifyLeft, bind_ok hrun, hm]
  rfl

theorem modifyRight_unchanged (P : TreeParams) (operation : Operation) {mode : Mode}
    {tag : Option Ref} {isNew : Bool} {k : ADKey} {l₀ r₀ : Ref} {b₀ : Balance}
    (hx : Inner mode s.heap x isNew k l₀ r₀ b₀)
    (htag : Tagged mode x tag isNew) {m : Modified} (hm : m.changeHappened = false) :
    ∃ s', modifyRight P operation x m s = .ok ⟨x, false, false, m.toDelete, m.oldValue⟩ s'
      ∧ Same s s' ∧ Step mode s.heap s'.heap ∅ tag.toList := by
  obtain ⟨s', hrun, hsame, hstep⟩ := onNodeVisit_inner P operation false hx htag
  refine ⟨s', ?_, hsame, hstep⟩
  rw [modifyRight, bind_ok hrun, hm]
  rfl

/-- A tree is only changed by an action on its leaf. -/
theorem isNone_of_changed {path : List Bool} {act : Option (Action ADKey ADValue)} {t' : Tree}
    {up : Bool} (h : modifyAt t path (act.getD .keep) = some (t', true, up)) :
    act.isNone = false := by
  cases act with
  | none => cases eq_of_modifyAt_keep h
  | some a => rfl

/-- **A modification on the heap** is the modification of the tree along the way. -/
theorem modifyHelper_spec (ht : Represents nav.mode hf s.heap t x M) {fuel : ℕ}
    (hfuel : t.height < fuel) {path : List Bool} {act : Option (Action ADKey ADValue)}
    {old : Option ADValue} (hway : descend P nav operation t s.nav = .ok (path, act, old) n') :
    Simulates (modifyAt t path (act.getD .keep))
      (Modifies nav.mode hf { s with nav := n' } M (pathTags t path) x act old)
      (modifyHelper P nav operation fuel x s) := by
  induction t generalizing fuel x s M path with
  | stub d => cases hway
  | leaf tag k v nk =>
    obtain ⟨fuel, rfl⟩ := Nat.exists_eq_succ_of_ne_zero (Nat.ne_of_gt hfuel)
    rw [modifyHelper]
    refine .of_bind_ok (getView_leaf ht) ?_
    rw [descend_leaf] at hway
    cases hfound : nav.keyMatchesLeaf operation.key k nk s.nav with
    | error e' n₁ =>
      rw [hfound] at hway
      cases hway
    | ok found n₁ =>
      rw [hfound] at hway
      simp only at hway
      cases hact : leafAction P operation (if found then some v else none) with
      | error e' =>
        rw [hact] at hway
        cases hway
      | ok act' =>
        rw [hact] at hway
        cases hway
        exact (modifyLeaf_spec ht hfound).2 _ hact
  | node tag k l r b ihl ihr =>
    rw [height_node] at hfuel
    obtain ⟨fuel, rfl⟩ := Nat.exists_eq_succ_of_ne_zero (Nat.ne_of_gt (Nat.zero_lt_of_lt hfuel))
    obtain ⟨isNew, lx, rx, Ml, Mr, hx, htag, hl, hr, hxl, hxr, hlr, rfl⟩ := ht.child
    rw [modifyHelper]
    refine .of_bind_ok (getView_inner hx) ?_
    rw [descend_node] at hway
    cases hdir : nav.nextDirectionIsLeft operation.key (nodeKey nav.mode k) s.nav with
    | error e' n₁ =>
      rw [hdir] at hway
      cases hway
    | ok d n₁ =>
      rw [hdir] at hway
      simp only at hway
      refine .of_bind_ok (liftNav_ok hdir) ?_
      cases hrest : descend P nav operation (if d then l else r) n₁ with
      | error e' n₂ =>
        rw [hrest] at hway
        cases hway
      | ok way n₂ =>
        obtain ⟨path', act', old'⟩ := way
        rw [hrest] at hway
        cases hway
        cases d with
        | true =>
          have hl₁ : Represents nav.mode hf { s with nav := n₁ }.heap l lx Ml := hl
          rw [modifyAt]
          refine (ihl hl₁ (by omega) hrest).bind ?_
          rintro ⟨l', changed, up⟩ m s₂ hmod ⟨hsame₂, hm, hsure, hyields⟩
          have hx₂ := hyields.1.inner hx fun _ => hxl
          have hvisits : ∀ y, y ∈ pathTags l path' ++ tag.toList
              ↔ y ∈ pathTags (.node tag k l r b) (true :: path') := fun y => by
            rw [pathTags, List.mem_append, List.mem_append, or_comm]
          cases changed with
          | false =>
            have hrun := modifyLeft_unchanged P operation hx₂ htag (m := m) (by rw [hm])
            obtain ⟨s₃, hrun₃, hsame₃, hstep₃⟩ := hrun
            have hstep₂₃ := ((hsure rfl).2.trans hstep₃ (M := ∅) (fun _ hy => hy)
              fun _ hy => hy.elim).congr hvisits
            refine .ok hrun₃ ⟨hsame₂.trans hsame₃, by rw [hm], fun _ => ⟨rfl, hstep₂₃⟩, ?_⟩
            refine ⟨hstep₂₃.mono fun _ hy => hy.elim, _, ?_, fun _ => .inl⟩
            exact ht.step hstep₂₃ fun _ _ hy => hy
          | true =>
            obtain ⟨Ml', hl', hr', hxl', hlr', hM'⟩ := hyields.beside hr hx.lt hxl hlr
            have hraise := modifyLeft_spec P operation hx₂ htag (m := m) (by rw [hm]) hl' hr' hxl'
              hxr hlr'
            rw [show m.heightIncreased = up by rw [hm]] at hraise
            refine .map_value (hraise.mono ?_)
            rintro ⟨t', up'⟩ m' s₃ _ ⟨hsame₃, hm', hyields'⟩
            refine ⟨hsame₂.trans hsame₃, ?_, fun h => (by cases h), ?_⟩
            · rw [isNone_of_changed hmod, hm', hm]
            · refine (hyields'.after hyields.1 ?_ ?_).congr hvisits
              · exact fun _ hy => .inr (.inl hy)
              · intro y hy
                rcases hy with hy | hy | hy
                · exact .inl (.inl hy)
                · exact (hM' y hy).imp (fun h => .inr (.inl h)) id
                · exact .inl (.inr (.inr hy))
        | false =>
          have hr₁ : Represents nav.mode hf { s with nav := n₁ }.heap r rx Mr := hr
          rw [modifyAt]
          refine (ihr hr₁ (by omega) hrest).bind ?_
          rintro ⟨r', changed, up⟩ m s₂ hmod ⟨hsame₂, hm, hsure, hyields⟩
          have hx₂ := hyields.1.inner hx fun _ => hxr
          have hvisits : ∀ y, y ∈ pathTags r path' ++ tag.toList
              ↔ y ∈ pathTags (.node tag k l r b) (false :: path') := fun y => by
            rw [pathTags, List.mem_append, List.mem_append, or_comm]
          cases changed with
          | false =>
            have hrun := modifyRight_unchanged P operation hx₂ htag (m := m) (by rw [hm])
            obtain ⟨s₃, hrun₃, hsame₃, hstep₃⟩ := hrun
            have hstep₂₃ := ((hsure rfl).2.trans hstep₃ (M := ∅) (fun _ hy => hy)
              fun _ hy => hy.elim).congr hvisits
            refine .ok hrun₃ ⟨hsame₂.trans hsame₃, by rw [hm], fun _ => ⟨rfl, hstep₂₃⟩, ?_⟩
            refine ⟨hstep₂₃.mono fun _ hy => hy.elim, _, ?_, fun _ => .inl⟩
            exact ht.step hstep₂₃ fun _ _ hy => hy
          | true =>
            obtain ⟨Mr', hr', hl', hxr', hlr', hM'⟩ := hyields.beside hl hx.lt hxr
              fun y hyr hyl => hlr y hyl hyr
            have hraise := modifyRight_spec P operation hx₂ htag (m := m) (by rw [hm]) hl' hr' hxl
              hxr' fun y hyl hyr => hlr' y hyr hyl
            rw [show m.heightIncreased = up by rw [hm]] at hraise
            refine .map_value (hraise.mono ?_)
            rintro ⟨t', up'⟩ m' s₃ _ ⟨hsame₃, hm', hyields'⟩
            refine ⟨hsame₂.trans hsame₃, ?_, fun h => (by cases h), ?_⟩
            · rw [isNone_of_changed hmod, hm', hm]
            · refine (hyields'.after hyields.1 ?_ ?_).congr hvisits
              · exact fun _ hy => .inr (.inr hy)
              · intro y hy
                rcases hy with hy | hy | hy
                · exact .inl (.inl hy)
                · exact .inl (.inr (.inl hy))
                · exact (hM' y hy).imp (fun h => .inr (.inr h)) id

end

end Sparkz.Avl
