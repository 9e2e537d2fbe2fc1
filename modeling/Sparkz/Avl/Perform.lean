import Sparkz.Avl.Delete

/-!
# One operation on the heap

* `operate` — what one operation does to a tree, along a way and with an action.
* `performOperation_error`, `performOperation_spec` — `performOperation` simulates it.
-/

namespace Sparkz.Avl

open Sparkz.Lib Sparkz.Lib.LeafTree

/-- One operation on a tree, by the way to its leaf and the action there.  Returns the
tree, the change of its height and the old nodes visited. -/
def operate (t : Tree) (path : List Bool) : Option (Action ADKey ADValue) →
    Option (Tree × ℤ × List Ref)
  | some act => (modifyAt t path act).map fun res =>
      (res.1, if res.2.2 then 1 else 0, pathTags t path)
  | none => (modifyAt t path .keep).bind fun _ => (deleteAt t (replayOf path)).map fun res =>
      (res.1, if res.2.1 then -1 else 0, pathTags t path ++ res.2.2)

section

variable {N : Type} {P : TreeParams} {nav : Navigation N} {operation : Operation} {mode : Mode}
  {hf : CryptographicHash} {s : TreeState N} {t : Tree} {x : Ref} {M : Set Ref} {n n' : N}
  {h h' : Heap}

/-- The end of a way is a leaf. -/
theorem descend_leafAt {path : List Bool} {act : Option (Action ADKey ADValue)}
    {old : Option ADValue} (hway : descend P nav operation t n = .ok (path, act, old) n') :
    ∃ k v nk n₁ found, leafAt t path = some (k, v, nk)
      ∧ nav.keyMatchesLeaf operation.key k nk n₁ = .ok found n'
      ∧ old = (if found then some v else none) ∧ leafAction P operation old = .ok act := by
  induction t generalizing path n with
  | stub d => cases hway
  | leaf tag k v nk =>
    rw [descend_leaf] at hway
    cases hfound : nav.keyMatchesLeaf operation.key k nk n with
    | error e n₁ =>
      rw [hfound] at hway
      cases hway
    | ok found n₁ =>
      rw [hfound] at hway
      simp only at hway
      cases hact : leafAction P operation (if found then some v else none) with
      | error e =>
        rw [hact] at hway
        cases hway
      | ok act' =>
        rw [hact] at hway
        cases hway
        exact ⟨k, v, nk, n, found, rfl, hfound, rfl, hact⟩
  | node tag k l r b ihl ihr =>
    rw [descend_node] at hway
    cases hdir : nav.nextDirectionIsLeft operation.key (nodeKey nav.mode k) n with
    | error e n₁ =>
      rw [hdir] at hway
      cases hway
    | ok d n₁ =>
      rw [hdir] at hway
      simp only at hway
      cases hrest : descend P nav operation (if d then l else r) n₁ with
      | error e n₂ =>
        rw [hrest] at hway
        cases hway
      | ok way n₂ =>
        obtain ⟨path', act', old'⟩ := way
        rw [hrest] at hway
        cases hway
        cases d with
        | true => exact ihl hrest
        | false => exact ihr hrest

/-! ## The operation -/

theorem performOperation_error (ht : Represents nav.mode hf s.heap t x M) {e : AvlError}
    (hway : descend P nav operation t s.nav = .error e n') :
    performOperation P nav operation x s = .error e { s with savedNode := none, nav := n' } := by
  have ht₁ : Represents nav.mode hf { s with savedNode := none }.heap t x M := ht
  have hlt : t.height < s.heap.length + 1 := Nat.lt_succ_of_lt ht.height_lt
  have hrun := modifyHelper_error ht₁ hlt hway
  rw [performOperation, bind_ok (modify_ok _ s), bind_ok (get_ok _)]
  exact bind_error hrun

/-- **One operation on the heap** is the operation on the tree. -/
theorem performOperation_spec (ht : Represents nav.mode hf s.heap t x M) {path : List Bool}
    {act : Option (Action ADKey ADValue)} {old : Option ADValue}
    (hway : descend P nav operation t s.nav = .ok (path, act, old) n')
    (hreplays : act = none → Replays nav n' (replayOf path)) :
    Simulates (operate t path act) (fun a res s' => res.2 = old
        ∧ Relation.ReflTransGen (Replay nav) n' s'.nav
        ∧ s'.rootNodeHeight = s.rootNodeHeight + a.2.1
        ∧ Yields nav.mode hf s.heap s'.heap M a.2.2 a.1 res.1)
      (performOperation P nav operation x s) := by
  have ht₁ : Represents nav.mode hf { s with savedNode := none }.heap t x M := ht
  have hlt : t.height < s.heap.length + 1 := Nat.lt_succ_of_lt ht.height_lt
  have hmod := modifyHelper_spec ht₁ hlt hway
  rw [performOperation]
  refine .of_bind_ok rfl ?_
  refine .of_bind_ok rfl ?_
  cases act with
  | some act =>
    refine hmod.map ?_
    rintro ⟨t', changed, up⟩ m s₁ _ ⟨hsame, hm, _, hyields⟩
    rw [hm]
    cases up with
    | true =>
      refine ⟨_, _, rfl, rfl, ?_, ?_, hyields⟩
      · exact hsame.nav ▸ .refl
      · show s₁.rootNodeHeight + 1 = _
        rw [hsame.rootNodeHeight]
        rfl
    | false =>
      refine ⟨_, _, rfl, rfl, ?_, ?_, hyields⟩
      · exact hsame.nav ▸ .refl
      · show s₁.rootNodeHeight = _
        rw [hsame.rootNodeHeight]
        exact (add_zero _).symm
  | none =>
    obtain ⟨k, v, nk, _, _, hleaf, _⟩ := descend_leafAt hway
    refine hmod.bind ?_
    rintro a m s₁ hkeep ⟨hsame, hm, hsure, hyields⟩
    obtain rfl := eq_of_modifyAt_keep hkeep
    obtain ⟨hroot, hstep⟩ := hsure rfl
    have ht₂ := ht₁.step hstep fun _ _ hy => hy
    rw [hm, hroot]
    by_cases hnode : t.isNode = true
    · obtain ⟨kx, lx, rx, bx, hcast⟩ := getInternal_isNode ht₂ hnode
      refine .of_bind_ok hcast ?_
      refine .of_bind_ok rfl ?_
      have hrep : Replays nav s₁.nav (replayOf path) := by
        rw [hsame.nav]
        exact hreplays rfl
      have hlt₂ : t.height < s₁.heap.length + 1 := Nat.lt_succ_of_lt ht₂.height_lt
      refine (deleteHelper_spec ht₂ hlt₂ hnode hleaf hrep).map ?_
      rintro ⟨t', down, visits⟩ ⟨x', down'⟩ s₂ _ ⟨hnav, rfl, hheight, hyields'⟩
      have hnav' : Relation.ReflTransGen (Replay nav) n' s₂.nav := by
        have := hsame.nav
        rw [this] at hnav
        exact hnav
      have hheight' : s₂.rootNodeHeight = s.rootNodeHeight := hheight.trans hsame.rootNodeHeight
      have hall := hyields'.after (M := M) hstep (fun _ hy => hy.elim) fun _ hy => .inl hy
      cases down' with
      | true =>
        refine ⟨_, _, rfl, rfl, hnav', ?_, hall⟩
        show s₂.rootNodeHeight - 1 = _
        rw [hheight']
        rfl
      | false =>
        refine ⟨_, _, rfl, rfl, hnav', ?_, hall⟩
        show s₂.rootNodeHeight = _
        rw [hheight']
        exact (add_zero _).symm
    · have hnone : deleteAt t (replayOf path) = none := by
        cases t with
        | stub d => rfl
        | leaf tag k v n => rfl
        | node tag k l r b => exact absurd rfl hnode
      rw [hnone]
      exact .of_bind_error (getInternal_error ht₂ (by simpa using hnode))

end

end Sparkz.Avl
