import Sparkz.Avl.Modify

/-!
# Removals on the heap

`deleteHelper` goes the same way again, as far as the node whose key is removed, and
does to the nodes what `deleteAt` does to the tree.

* `replayOf` — the comparisons that a replay of the way gives; `Replays` — the
  navigation gives these comparisons.
* `changeNextLeafKeyOfMaxNode_spec`, `changeKeyAndValueOfMinNode_spec` — the outermost
  leaf is changed, with all nodes above it.
* `deleteMax_spec` — the last leaf is removed and saved.
* `deleteHelper_spec` — the removal along a way.
-/

namespace Sparkz.Avl

open Sparkz.Lib Sparkz.Lib.LeafTree

/-! ## Replaying the way -/

/-- A comparison as a number. -/
def compareInt : Ordering → ℤ
  | .lt => -1
  | .eq => 0
  | .gt => 1

/-- The comparisons on a way to the key of a leaf: the last step to the right was made
where the key is met. -/
def replayOf : List Bool → List Ordering
  | [] => []
  | true :: path => .lt :: replayOf path
  | false :: path => (if false ∈ path then .gt else .eq) :: replayOf path

section

variable {N : Type} (nav : Navigation N)

/-- One replay. -/
def Replay (n n' : N) : Prop := ∃ c, nav.replayComparison n = .ok c n'

/-- The next replays give these comparisons. -/
def Replays : N → List Ordering → Prop
  | _, [] => True
  | n, c :: cmps => ∃ n', nav.replayComparison n = .ok (compareInt c) n' ∧ Replays n' cmps

end

section

variable {N : Type} {P : TreeParams} {nav : Navigation N} {operation : Operation} {mode : Mode}
  {hf : CryptographicHash} {s : TreeState N} {t : Tree} {x : Ref} {M : Set Ref} {fuel : ℕ}

/-! ## The outermost leaves -/

theorem changeNextLeafKeyOfMaxNode_spec (ht : Represents mode hf s.heap t x M)
    (hfuel : t.height < fuel) (nextLeafKey : ADKey) :
    Simulates (setLastNext t nextLeafKey) (fun a x' s' => Same s s'
      ∧ Yields mode hf s.heap s'.heap M a.2 a.1 x')
      (changeNextLeafKeyOfMaxNode P operation fuel x nextLeafKey s) := by
  induction t generalizing fuel x s M with
  | stub d =>
    obtain ⟨fuel, rfl⟩ := Nat.exists_eq_succ_of_ne_zero (Nat.ne_of_gt hfuel)
    obtain ⟨s₁, hrun₁, hsame₁, hstep₁⟩ := onNodeVisit_spec P operation false ht
    rw [changeNextLeafKeyOfMaxNode]
    refine .of_bind_ok hrun₁ ?_
    refine .of_bind_ok (getView_stub (ht.step hstep₁ fun _ _ hy => hy)) ?_
    exact .error rfl
  | leaf tag k v n =>
    obtain ⟨fuel, rfl⟩ := Nat.exists_eq_succ_of_ne_zero (Nat.ne_of_gt hfuel)
    obtain ⟨s₁, hrun₁, hsame₁, hstep₁⟩ := onNodeVisit_spec P operation false ht
    have ht₁ := ht.step hstep₁ fun _ _ hy => hy
    obtain ⟨x', s₂, hrun₂, hsame₂, hyields⟩ := Leaf.getNew_yields ht₁ none none (some nextLeafKey)
    rw [changeNextLeafKeyOfMaxNode]
    refine .of_bind_ok hrun₁ ?_
    refine .of_bind_ok (getView_leaf ht₁) ?_
    refine .ok hrun₂ ⟨hsame₁.trans hsame₂, ?_⟩
    have := hyields.after hstep₁ (fun _ hy => hy.elim) fun _ hy => .inl hy
    simpa [tags] using this
  | node tag k l r b ihl ihr =>
    rw [height_node] at hfuel
    obtain ⟨fuel, rfl⟩ := Nat.exists_eq_succ_of_ne_zero (Nat.ne_of_gt (Nat.zero_lt_of_lt hfuel))
    obtain ⟨s₁, hrun₁, hsame₁, hstep₁⟩ := onNodeVisit_spec P operation false ht
    have ht₁ := ht.step hstep₁ fun _ _ hy => hy
    obtain ⟨isNew, lx, rx, Ml, Mr, hx, htag, hl, hr, hxl, hxr, hlr, rfl⟩ := ht₁.child
    rw [changeNextLeafKeyOfMaxNode]
    refine .of_bind_ok hrun₁ ?_
    refine .of_bind_ok (getView_inner hx) ?_
    refine (ihr hr (by omega)).map ?_
    rintro ⟨r', visits⟩ rx' s₂ _ ⟨hsame₂, hyields⟩
    obtain ⟨Mr', hr', hl', hxr', hlr', hM'⟩ := hyields.beside hl hx.lt hxr
      fun y hyr hyl => hlr y hyl hyr
    have hx₂ := hyields.1.inner hx fun _ => hxr
    obtain ⟨x', s₃, hrun₃, hsame₃, hyields'⟩ := hx₂.getNew_yields none (some rx') none hl' hr'
      hxl hxr' fun y hyl hyr => hlr' y hyr hyl
    refine ⟨x', s₃, hrun₃, (hsame₁.trans hsame₂).trans hsame₃, ?_⟩
    have h₁₂ := hstep₁.trans (M := own x isNew ∪ (Ml ∪ Mr)) hyields.1 (fun _ hy => hy.elim)
      fun _ hy => .inl (.inr (.inr hy))
    have hle := hstep₁.length_le
    have := hyields'.after h₁₂ (fun _ hy => hy) (by grind)
    simpa [tags] using this

theorem changeKeyAndValueOfMinNode_spec (ht : Represents mode hf s.heap t x M)
    (hfuel : t.height < fuel) (newKey : ADKey) (newValue : ADValue) :
    Simulates (setFirst t newKey newValue) (fun a x' s' => Same s s'
      ∧ Yields mode hf s.heap s'.heap M a.2 a.1 x')
      (changeKeyAndValueOfMinNode P operation fuel x newKey newValue s) := by
  induction t generalizing fuel x s M with
  | stub d =>
    obtain ⟨fuel, rfl⟩ := Nat.exists_eq_succ_of_ne_zero (Nat.ne_of_gt hfuel)
    obtain ⟨s₁, hrun₁, hsame₁, hstep₁⟩ := onNodeVisit_spec P operation false ht
    rw [changeKeyAndValueOfMinNode]
    refine .of_bind_ok hrun₁ ?_
    refine .of_bind_ok (getView_stub (ht.step hstep₁ fun _ _ hy => hy)) ?_
    exact .error rfl
  | leaf tag k v n =>
    obtain ⟨fuel, rfl⟩ := Nat.exists_eq_succ_of_ne_zero (Nat.ne_of_gt hfuel)
    obtain ⟨s₁, hrun₁, hsame₁, hstep₁⟩ := onNodeVisit_spec P operation false ht
    have ht₁ := ht.step hstep₁ fun _ _ hy => hy
    obtain ⟨x', s₂, hrun₂, hsame₂, hyields⟩ :=
      Leaf.getNew_yields ht₁ (some newKey) (some newValue) none
    rw [changeKeyAndValueOfMinNode]
    refine .of_bind_ok hrun₁ ?_
    refine .of_bind_ok (getView_leaf ht₁) ?_
    refine .ok hrun₂ ⟨hsame₁.trans hsame₂, ?_⟩
    have := hyields.after hstep₁ (fun _ hy => hy.elim) fun _ hy => .inl hy
    simpa [tags] using this
  | node tag k l r b ihl ihr =>
    rw [height_node] at hfuel
    obtain ⟨fuel, rfl⟩ := Nat.exists_eq_succ_of_ne_zero (Nat.ne_of_gt (Nat.zero_lt_of_lt hfuel))
    obtain ⟨s₁, hrun₁, hsame₁, hstep₁⟩ := onNodeVisit_spec P operation false ht
    have ht₁ := ht.step hstep₁ fun _ _ hy => hy
    obtain ⟨isNew, lx, rx, Ml, Mr, hx, htag, hl, hr, hxl, hxr, hlr, rfl⟩ := ht₁.child
    rw [changeKeyAndValueOfMinNode]
    refine .of_bind_ok hrun₁ ?_
    refine .of_bind_ok (getView_inner hx) ?_
    refine (ihl hl (by omega)).map ?_
    rintro ⟨l', visits⟩ lx' s₂ _ ⟨hsame₂, hyields⟩
    obtain ⟨Ml', hl', hr', hxl', hlr', hM'⟩ := hyields.beside hr hx.lt hxl hlr
    have hx₂ := hyields.1.inner hx fun _ => hxl
    obtain ⟨x', s₃, hrun₃, hsame₃, hyields'⟩ := hx₂.getNew_yields (some lx') none none hl' hr'
      hxl' hxr hlr'
    refine ⟨x', s₃, hrun₃, (hsame₁.trans hsame₂).trans hsame₃, ?_⟩
    have h₁₂ := hstep₁.trans (M := own x isNew ∪ (Ml ∪ Mr)) hyields.1 (fun _ hy => hy.elim)
      fun _ hy => .inl (.inr (.inl hy))
    have hle := hstep₁.length_le
    have := hyields'.after h₁₂ (fun _ hy => hy) (by grind)
    simpa [tags] using this

/-! ## The last leaf -/

/-- What a removal of the last leaf leaves behind: the tree without it, and the leaf in
`savedNode`, apart from the tree. -/
def Saves (mode : Mode) (hf : CryptographicHash) (s : TreeState N) (M : Set Ref)
    (a : Tree × Bool × (ADKey × ADValue) × List Ref) (res : Ref × Bool) (s' : TreeState N) : Prop :=
  res.2 = a.2.1 ∧ s'.nav = s.nav ∧ s'.rootNodeHeight = s.rootNodeHeight
    ∧ Step mode s.heap s'.heap M a.2.2.2
    ∧ ∃ M' y tag n My, Represents mode hf s'.heap a.1 res.1 M'
      ∧ (∀ z ∈ M', z ∈ M ∨ s.heap.length ≤ z) ∧ s'.savedNode = some y
      ∧ Represents mode hf s'.heap (.leaf tag a.2.2.1.1 a.2.2.1.2 n) y My
      ∧ (∀ z ∈ My, z ∉ M') ∧ ∀ z ∈ My, z ∈ M

theorem deleteMax_spec (ht : Represents mode hf s.heap t x M) (hfuel : t.height < fuel) :
    Simulates (removeMax t) (Saves mode hf s M) (deleteHelper P nav operation fuel x true s) := by
  induction t generalizing fuel x s M with
  | stub d =>
    obtain ⟨fuel, rfl⟩ := Nat.exists_eq_succ_of_ne_zero (Nat.ne_of_gt hfuel)
    obtain ⟨s₁, hrun₁, hsame₁, hstep₁⟩ := onNodeVisit_spec P operation false ht
    rw [deleteHelper]
    refine .of_bind_ok hrun₁ ?_
    refine .of_bind_ok rfl ?_
    exact .of_bind_error (getInternal_error (ht.step hstep₁ fun _ _ hy => hy) rfl)
  | leaf tag k v n =>
    obtain ⟨fuel, rfl⟩ := Nat.exists_eq_succ_of_ne_zero (Nat.ne_of_gt hfuel)
    obtain ⟨s₁, hrun₁, hsame₁, hstep₁⟩ := onNodeVisit_spec P operation false ht
    rw [deleteHelper]
    refine .of_bind_ok hrun₁ ?_
    refine .of_bind_ok rfl ?_
    exact .of_bind_error (getInternal_error (ht.step hstep₁ fun _ _ hy => hy) rfl)
  | node tag k l r b ihl ihr =>
    rw [height_node] at hfuel
    obtain ⟨fuel, rfl⟩ := Nat.exists_eq_succ_of_ne_zero (Nat.ne_of_gt (Nat.zero_lt_of_lt hfuel))
    obtain ⟨s₁, hrun₁, hsame₁, hstep₁⟩ := onNodeVisit_spec P operation false ht
    have ht₁ := ht.step hstep₁ fun _ _ hy => hy
    obtain ⟨isNew, lx, rx, Ml, Mr, hx, htag, hl, hr, hxl, hxr, hlr, rfl⟩ := ht₁.child
    rw [deleteHelper]
    refine .of_bind_ok hrun₁ ?_
    refine .of_bind_ok rfl ?_
    refine .of_bind_ok (getInternal_inner hx) ?_
    refine .of_bind_ok (isLeaf_ok hl) ?_
    refine .of_bind_ok (isLeaf_ok hr) ?_
    cases r with
    | stub d =>
      rw [if_neg (by simp), if_neg (by simp [LeafTree.isLeaf]), if_neg (by simp), if_neg (by simp)]
      exact .of_bind_error (getInternal_error hr rfl)
    | leaf tr kr vr nr =>
      rw [if_neg (by simp), if_pos (by simp [LeafTree.isLeaf])]
      refine .of_bind_ok (getLeaf_leaf hr) ?_
      obtain ⟨s₂, hrun₂, hsame₂, hstep₂⟩ := onNodeVisit_spec P operation false hr
      refine .of_bind_ok hrun₂ ?_
      rw [if_pos rfl]
      have hstep := hstep₁.trans hstep₂ (M := own x isNew ∪ (Ml ∪ Mr)) (fun _ hy => hy.elim)
        fun _ hy => hy.elim
      refine .ok rfl ⟨rfl, hsame₂.nav.trans hsame₁.nav,
        hsame₂.rootNodeHeight.trans hsame₁.rootNodeHeight, hstep, Ml, rx, tr, nr, Mr,
        hl.step hstep₂ fun _ _ hy => hy, fun _ hy => .inl (.inr (.inl hy)), rfl,
        hr.step hstep₂ fun _ _ hy => hy, fun y hyr hyl => hlr y hyl hyr,
        fun _ hy => .inr (.inr hy)⟩
    | node tr kr rl rr br =>
      rw [if_neg (by simp), if_neg (by simp [LeafTree.isLeaf]), if_neg (by simp), if_neg (by simp)]
      obtain ⟨_, _, _, _, _, hrx, _⟩ := hr.child
      refine .of_bind_ok (getInternal_inner hrx) ?_
      rw [removeMax]
      refine (ihr hr (by omega)).bind ?_
      rintro ⟨r', lower', e, visits⟩ ⟨rx', lower⟩ s₂ _
        ⟨rfl, hnav₂, hheight₂, hstep₂, M', y, ty, ny, My, hr', hM', hsaved, hy, hapart, hMy⟩
      have hxlt := hx.lt
      have hllt : ∀ y ∈ Ml, y < s₁.heap.length := fun _ hy => hl.footprint_lt hy
      have hrlt : ∀ y ∈ Mr, y < s₁.heap.length := fun _ hy => hr.footprint_lt hy
      have hlen₁ := hstep₁.length_le
      have hlen₂ := hstep₂.length_le
      have hx₂ := hstep₂.inner hx fun _ => hxr
      have hl₂ := hl.step hstep₂ fun y hyl hyr => hlr y hyl hyr
      have hlow := deleteRight_spec P operation hx₂ lower hl₂ hr' hxl (by grind) (by grind)
      refine .map_value (hlow.mono ?_)
      rintro ⟨t', down, visits'⟩ ⟨x', down'⟩ s₃ _ ⟨hsame₃, rfl, hstep₃, M₃, hrep₃, hM₃⟩
      -- the saved leaf is apart from all that is rebuilt
      have hy₃ := hy.step hstep₃ (by grind)
      refine ⟨rfl, (hsame₃.nav.trans hnav₂).trans hsame₁.nav,
        (hsame₃.rootNodeHeight.trans hheight₂).trans hsame₁.rootNodeHeight, ?_, M₃, y, ty, ny, My,
        hrep₃, by grind, hsame₃.savedNode.trans hsaved, hy₃, by grind, by grind⟩
      have h₁₂ := hstep₁.trans hstep₂ (M := own x isNew ∪ (Ml ∪ Mr)) (fun _ hy => hy.elim)
        (by grind)
      exact h₁₂.trans hstep₃ (fun _ hy => hy) (by grind)

/-! ## The node whose key is removed -/

/-- What a removal returns, and does to the nodes. -/
def Deletes (mode : Mode) (hf : CryptographicHash) (s : TreeState N) (M : Set Ref)
    (a : Tree × Bool × List Ref) (res : Ref × Bool) (s' : TreeState N) : Prop :=
  res.2 = a.2.1 ∧ s'.rootNodeHeight = s.rootNodeHeight
    ∧ Yields mode hf s.heap s'.heap M a.2.2 a.1 res.1

theorem deleteRoot_of_leaf {tag tl : Option Ref} {kl nl : ADKey} {vl : ADValue} {r : Tree}
    (hr : r.isLeaf = false) (b : Balance) :
    deleteRoot tag (.leaf tl kl vl nl) r b
      = (setFirst r kl vl).map fun res => (res.1, true, tag.toList ++ tl.toList ++ res.2) := by
  cases r with
  | stub d => rfl
  | leaf tr kr vr nr => cases hr
  | node tr kr rl rr br => rfl

/-- The new right part and the new root, after the last leaf on the left is taken. -/
def replaceRemoved (e : ADKey × ADValue) (l r : Tree) (b : Balance) (lower : Bool) :
    Option (Tree × Bool × List Ref) :=
  (setFirst r e.1 e.2).bind fun set => (lowerLeft e.1 l set.1 b lower).map fun t =>
    (t.1, t.2.1, set.2 ++ t.2.2)

theorem deleteRoot_of_node {tag : Option Ref} {l r : Tree} (hl : l.isNode = true)
    (hr : r.isLeaf = false) (b : Balance) :
    deleteRoot tag l r b
      = (removeMax l).bind fun res => (replaceRemoved res.2.2.1 res.1 r b res.2.1).map fun t =>
          (t.1, t.2.1, tag.toList ++ res.2.2.2 ++ t.2.2) := by
  cases l with
  | stub d => cases hl
  | leaf tl kl vl nl => cases hl
  | node tl kl ll lr bl =>
    cases r with
    | stub d =>
      simp only [deleteRoot, replaceRemoved, setFirst, Option.bind_none, Option.map_none]
      cases removeMax (.node tl kl ll lr bl) <;> rfl
    | leaf tr kr vr nr => cases hr
    | node tr kr rl rr br =>
      rw [deleteRoot]
      refine congrArg _ (funext fun res => ?_)
      simp only [replaceRemoved, Option.map_bind, Function.comp_def, Option.map_map,
        List.append_assoc]

/-- The end of the hard case: the saved leaf takes the place of the removed one. -/
theorem replaceRemoved_spec (P : TreeParams) (operation : Operation) {isNew : Bool} {k : ADKey}
    {l' r : Tree} {b : Balance} {l₀ lx' rx y : Ref} {M' Mr My : Set Ref} {ty : Option Ref}
    {e : ADKey × ADValue} {ny : ADKey}
    (hx : Inner mode s.heap x isNew k l₀ rx b) (hl₀ : mode = .prover → Castable s.heap l₀)
    (hl : Represents mode hf s.heap l' lx' M') (hr : Represents mode hf s.heap r rx Mr)
    (hxl : x ∉ M') (hxr : x ∉ Mr) (hlr : ∀ z ∈ M', z ∉ Mr) (hfuel : r.height < fuel)
    (hsaved : s.savedNode = some y) (hy : Represents mode hf s.heap (.leaf ty e.1 e.2 ny) y My)
    (lower : Bool) :
    Simulates (replaceRemoved e l' r b lower)
      (fun a res s' => s'.nav = s.nav ∧ Deletes mode hf s (own x isNew ∪ (M' ∪ Mr)) a res s')
      ((do
        match (← get).savedNode with
        | none => throw .noSuchElement
        | some saved =>
            let (savedKey, savedValue, _) ← getLeaf saved
            modify fun s => { s with savedNode := none }
            let rWithChangedKey ← getNewKey x savedKey
            let right := (← getInternal rWithChangedKey).right
            let newRight ← changeKeyAndValueOfMinNode P operation fuel right savedKey savedValue
            let newRoot ← getNew rWithChangedKey none (some newRight) none
            deleteLeft P operation newRoot lx' lower : TreeM N (Ref × Bool)) s) := by
  refine .of_bind_ok rfl ?_
  simp only [hsaved]
  refine .of_bind_ok (getLeaf_leaf hy) ?_
  refine .of_bind_ok rfl ?_
  have hx₁ : Inner mode { s with savedNode := none }.heap x isNew k l₀ rx b := hx
  obtain ⟨x₂, s₂, hrun₂, hsame₂, hstep₂, hx₂, hfresh₂⟩ := hx₁.getNewKey_spec e.1
  refine .of_bind_ok hrun₂ ?_
  refine .of_bind_ok (getInternal_inner hx₂) ?_
  have hxlt := hx.lt
  have hllt : ∀ z ∈ M', z < s.heap.length := fun _ hz => hl.footprint_lt hz
  have hrlt : ∀ z ∈ Mr, z < s.heap.length := fun _ hz => hr.footprint_lt hz
  have hlen₂ : s.heap.length ≤ s₂.heap.length := hstep₂.length_le
  have hx₂lt := hx₂.lt
  replace hfresh₂ : x₂ = x ∧ isNew = true ∨ x₂ = s.heap.length := hfresh₂
  replace hstep₂ : Step mode s.heap s₂.heap (own x isNew) [] := hstep₂
  have hl₂ := hl.step hstep₂ (by grind)
  have hr₂ := hr.step hstep₂ (by grind)
  refine (changeKeyAndValueOfMinNode_spec hr₂ hfuel e.1 e.2).bind ?_
  rintro ⟨r', visits⟩ rx' s₃ _ ⟨hsame₃, hstep₃, Mr', hr₃, hMr'⟩
  have hx₃ := hstep₃.inner hx₂ (by grind)
  have hl₃ := hl₂.step hstep₃ hlr
  have hlen₃ := hstep₃.length_le
  obtain ⟨x₄, s₄, hrun₄, hsame₄, hstep₄, hholds₄, hfresh₄⟩ := hx₃.getNew_inner none (some rx') none
    (fun hm => hstep₃.castable (hstep₂.castable (hl₀ hm)))
    (fun hm => by subst hm; exact hr₃.castable)
  refine .of_bind_ok hrun₄ ?_
  have hx₄ : Inner mode s₄.heap x₄ true e.1 l₀ rx' b := (hholds₄ []).inner (tagged_none mode x₄)
  have hl₄ := hl₃.step hstep₄ (by grind)
  have hr₄ := hr₃.step hstep₄ (by grind)
  have hlen₄ := hstep₄.length_le
  have hrlt₃ : ∀ z ∈ Mr', z < s₃.heap.length := fun _ hz => hr₃.footprint_lt hz
  refine .map_value ((deleteLeft_spec P operation hx₄ lower hl₄ hr₄ (by grind) (by grind)
    (by grind)).mono ?_)
  rintro ⟨t', down, visits'⟩ ⟨x', down'⟩ s₅ _ ⟨hsame₅, hdown, hyields⟩
  refine ⟨?_, hdown, ?_, ?_⟩
  · rw [hsame₅.nav, hsame₄.nav, hsame₃.nav, hsame₂.nav]
  · rw [hsame₅.rootNodeHeight, hsame₄.rootNodeHeight, hsame₃.rootNodeHeight, hsame₂.rootNodeHeight]
  · have h₁₃ := hstep₂.trans hstep₃ (M := own x isNew ∪ (M' ∪ Mr)) (by grind) (by grind)
    have h₁₄ := h₁₃.trans hstep₄ (fun _ hz => hz) (by grind)
    have := hyields.after h₁₄ (fun _ hz => hz) (by grind)
    simpa using this

/-- The removal at the node where the key is met. -/
theorem deleteHelper_found {tag : Option Ref} {k : ADKey} {l r : Tree} {b : Balance}
    (ht : Represents mode hf s.heap (.node tag k l r b) x M)
    (hfuel : (LeafTree.node tag k l r b).height < fuel) {n' : N}
    (hreplay : nav.replayComparison s.nav = .ok 0 n') :
    Simulates (deleteRoot tag l r b) (fun a res s' => s'.nav = n' ∧ Deletes mode hf s M a res s')
      (deleteHelper P nav operation fuel x false s) := by
  rw [height_node] at hfuel
  obtain ⟨fuel, rfl⟩ := Nat.exists_eq_succ_of_ne_zero (Nat.ne_of_gt (Nat.zero_lt_of_lt hfuel))
  obtain ⟨s₁, hrun₁, hsame₁, hstep₁⟩ := onNodeVisit_spec P operation false ht
  have ht₁ : Represents mode hf { s₁ with nav := n' }.heap (.node tag k l r b) x M :=
    ht.step hstep₁ fun _ _ hy => hy
  have hlen₁ := hstep₁.length_le
  obtain ⟨isNew, lx, rx, Ml, Mr, hx, htag, hl, hr, hxl, hxr, hlr, rfl⟩ := ht₁.child
  rw [deleteHelper]
  refine .of_bind_ok hrun₁ ?_
  rw [if_neg (by simp)]
  rw [← hsame₁.nav] at hreplay
  refine .of_bind_ok (liftNav_ok hreplay) ?_
  refine .of_bind_ok (getInternal_inner hx) ?_
  refine .of_bind_ok (isLeaf_ok hl) ?_
  refine .of_bind_ok (isLeaf_ok hr) ?_
  rw [if_neg (by simp)]
  by_cases hleaf : r.isLeaf = true
  · rw [if_pos (by simp [hleaf])]
    cases r with
    | stub d => cases hleaf
    | node tr kr rl rr br => cases hleaf
    | leaf tr kr vr nr =>
      obtain ⟨s₂, hrun₂, hsame₂, hstep₂⟩ := onNodeVisit_spec P operation false hr
      refine .of_bind_ok (getLeaf_leaf hr) ?_
      refine .of_bind_ok hrun₂ ?_
      rw [if_neg (by simp), if_pos rfl, deleteRoot]
      have hl₂ := hl.step hstep₂ fun _ _ hy => hy
      refine (changeNextLeafKeyOfMaxNode_spec hl₂ (by omega) nr).map ?_
      rintro ⟨l', visits⟩ lx' s₃ _ ⟨hsame₃, hyields⟩
      refine ⟨_, _, rfl, hsame₃.nav.trans hsame₂.nav, rfl, ?_, ?_⟩
      · rw [hsame₃.rootNodeHeight, hsame₂.rootNodeHeight]
        exact hsame₁.rootNodeHeight
      · have h₁₂ := hstep₁.trans hstep₂ (M := own x isNew ∪ (Ml ∪ Mr)) (fun _ hy => hy.elim)
          fun _ hy => hy.elim
        exact hyields.after h₁₂ (fun _ hy => hy) fun _ hy => .inl (.inr (.inl hy))
  · rw [if_neg (by simp [hleaf])]
    rw [Bool.not_eq_true] at hleaf
    cases l with
    | stub d =>
      rw [if_neg (by simp [LeafTree.isLeaf]), if_pos (by simp)]
      have hnone : deleteRoot tag (.stub d) r b = none := by
        cases r with
        | stub d => rfl
        | leaf tr kr vr nr => cases hleaf
        | node tr kr rl rr br => rfl
      rw [hnone]
      exact .of_bind_error (getInternal_error hl rfl)
    | leaf tl kl vl nl =>
      obtain ⟨s₂, hrun₂, hsame₂, hstep₂⟩ := onNodeVisit_spec P operation false hl
      rw [if_pos (by simp [LeafTree.isLeaf]), deleteRoot_of_leaf hleaf]
      refine .of_bind_ok (getLeaf_leaf hl) ?_
      refine .of_bind_ok hrun₂ ?_
      refine (changeKeyAndValueOfMinNode_spec (hr.step hstep₂ fun _ _ hy => hy) (by omega) kl
        vl).map ?_
      rintro ⟨r', visits⟩ rx' s₃ _ ⟨hsame₃, hyields⟩
      refine ⟨_, _, rfl, hsame₃.nav.trans hsame₂.nav, rfl, ?_, ?_⟩
      · rw [hsame₃.rootNodeHeight, hsame₂.rootNodeHeight]
        exact hsame₁.rootNodeHeight
      · have h₁₂ := hstep₁.trans hstep₂ (M := own x isNew ∪ (Ml ∪ Mr)) (fun _ hy => hy.elim)
          fun _ hy => hy.elim
        exact hyields.after h₁₂ (fun _ hy => hy) fun _ hy => .inl (.inr (.inr hy))
    | node tl kl ll lr bl =>
      rw [if_neg (by simp [LeafTree.isLeaf]), if_pos (by simp), deleteRoot_of_node rfl hleaf]
      obtain ⟨_, _, _, _, _, hlx, _⟩ := hl.child
      refine .of_bind_ok (getInternal_inner hlx) ?_
      refine (deleteMax_spec hl (by omega)).bind ?_
      rintro ⟨l', lower', e, visits⟩ ⟨lx', lower⟩ s₂ _
        ⟨rfl, hnav₂, hheight₂, hstep₂, M', y, ty, ny, My, hl', hM', hsaved, hy, hapart, hMy⟩
      have hxlt := hx.lt
      have hrlt : ∀ y ∈ Mr, y < s₁.heap.length := fun _ hy => hr.footprint_lt hy
      have hx₂ := hstep₂.inner hx fun _ => hxl
      have hr₂ := hr.step hstep₂ fun y hyr hyl => hlr y hyl hyr
      replace hM' : ∀ z ∈ M', z ∈ Ml ∨ s₁.heap.length ≤ z := hM'
      have hcast : mode = .prover → Castable s₂.heap lx := fun hm => by
        subst hm
        exact hstep₂.castable hl.castable
      simp only
      rw [if_pos trivial]
      have hreplace := replaceRemoved_spec P operation hx₂ hcast hl' hr₂ (by grind) hxr (by grind)
        (show r.height < fuel by omega) hsaved hy lower
      refine .map_value (hreplace.mono ?_)
      rintro ⟨t', down, visits'⟩ ⟨x', down'⟩ s₃ _ ⟨hnav₃, rfl, hheight₃, hyields⟩
      refine ⟨hnav₃.trans hnav₂, rfl, ?_, ?_⟩
      · rw [hheight₃, hheight₂]
        exact hsame₁.rootNodeHeight
      · have h₁₂ := hstep₁.trans hstep₂ (M := own x isNew ∪ (Ml ∪ Mr)) (fun _ hy => hy.elim)
          fun _ hy => .inl (.inr (.inl hy))
        exact hyields.after h₁₂ (fun _ hy => hy) (by grind)

/-! ## The whole removal -/

theorem getInternal_isNode (ht : Represents mode hf s.heap t x M) (hnode : t.isNode = true) :
    ∃ k lx rx b, getInternal x s = .ok ⟨nodeKey mode k, lx, rx, b⟩ s := by
  cases t with
  | stub d => cases hnode
  | leaf tag k v n => cases hnode
  | node tag k l r b =>
    obtain ⟨_, _, _, _, _, hx, _⟩ := ht.child
    exact ⟨_, _, _, _, getInternal_inner hx⟩

/-- **A removal on the heap** is the removal from the tree along the way replayed. -/
theorem deleteHelper_spec (ht : Represents mode hf s.heap t x M) (hfuel : t.height < fuel)
    (hnode : t.isNode = true) {path : List Bool} {e : ADKey × ADValue × ADKey}
    (hleaf : leafAt t path = some e) (hreplays : Replays nav s.nav (replayOf path)) :
    Simulates (deleteAt t (replayOf path)) (fun a res s' =>
        Relation.ReflTransGen (Replay nav) s.nav s'.nav ∧ Deletes mode hf s M a res s')
      (deleteHelper P nav operation fuel x false s) := by
  induction t generalizing fuel x s M path with
  | stub d => cases hnode
  | leaf tag k v n => cases hnode
  | node tag k l r b ihl ihr =>
    have hfuel' := hfuel
    rw [height_node] at hfuel
    obtain ⟨fuel, rfl⟩ := Nat.exists_eq_succ_of_ne_zero (Nat.ne_of_gt (Nat.zero_lt_of_lt hfuel))
    cases path with
    | nil => cases hleaf
    | cons d path =>
      obtain ⟨s₁, hrun₁, hsame₁, hstep₁⟩ := onNodeVisit_spec P operation false ht
      have hlen₁ := hstep₁.length_le
      cases d with
      | true =>
        obtain ⟨n₁, hreplay, hrest⟩ := hreplays
        have ht₁ : Represents mode hf { s₁ with nav := n₁ }.heap (.node tag k l r b) x M :=
          ht.step hstep₁ fun _ _ hy => hy
        obtain ⟨isNew, lx, rx, Ml, Mr, hx, htag, hl, hr, hxl, hxr, hlr, rfl⟩ := ht₁.child
        have hstart : Replay nav s.nav n₁ := ⟨_, hreplay⟩
        rw [← hsame₁.nav] at hreplay
        rw [deleteHelper]
        refine .of_bind_ok hrun₁ ?_
        rw [if_neg (by simp)]
        refine .of_bind_ok (liftNav_ok hreplay) ?_
        refine .of_bind_ok (getInternal_inner hx) ?_
        refine .of_bind_ok (isLeaf_ok hl) ?_
        refine .of_bind_ok (isLeaf_ok hr) ?_
        rw [replayOf, deleteAt]
        by_cases hlnode : l.isNode = true
        · have hlleaf : l.isLeaf = false := by
            cases l with
            | stub d => cases hlnode
            | leaf tl kl vl nl => cases hlnode
            | node tl kl ll lr bl => rfl
          rw [if_pos hlnode, if_neg (by simp [hlleaf]), if_neg (by simp [compareInt]),
            if_neg (by simp [compareInt]), if_pos (by simp [compareInt])]
          obtain ⟨kl, llx, lrx, bl, hlx⟩ := getInternal_isNode hl hlnode
          refine .of_bind_ok hlx ?_
          refine (ihl hl (by omega) hlnode hleaf hrest).bind ?_
          rintro ⟨l', lower', visits⟩ ⟨lx', lower⟩ s₂ _ ⟨hnav₂, rfl, hheight₂, hyields⟩
          obtain ⟨Ml', hl', hr', hxl', hlr', hM'⟩ := hyields.beside hr hx.lt hxl hlr
          have hx₂ := hyields.1.inner hx fun _ => hxl
          simp only
          rw [if_neg (by simp [compareInt])]
          refine .map_value ((deleteLeft_spec P operation hx₂ lower hl' hr' hxl' hxr hlr').mono ?_)
          rintro ⟨t', down, visits'⟩ ⟨x', down'⟩ s₃ _ ⟨hsame₃, rfl, hyields'⟩
          refine ⟨?_, rfl, ?_, ?_⟩
          · rw [hsame₃.nav]
            exact hnav₂.head hstart
          · rw [hsame₃.rootNodeHeight, hheight₂]
            exact hsame₁.rootNodeHeight
          · have h₁₂ := hstep₁.trans hyields.1 (M := own x isNew ∪ (Ml ∪ Mr))
              (fun _ hy => hy.elim) fun _ hy => .inl (.inr (.inl hy))
            replace hM' : ∀ y ∈ Ml', y ∈ Ml ∨ s₁.heap.length ≤ y := hM'
            exact hyields'.after h₁₂ (fun _ hy => hy) (by grind)
        · rw [if_neg hlnode]
          by_cases hlleaf : l.isLeaf = true
          · rw [if_pos (by simp [hlleaf, compareInt])]
            exact .error rfl
          · rw [if_neg (by simp [hlleaf]), if_neg (by simp [compareInt]),
              if_neg (by simp [compareInt]), if_pos (by simp [compareInt])]
            exact .of_bind_error (getInternal_error hl (by simpa using hlnode))
      | false =>
        by_cases hmore : false ∈ path
        · rw [replayOf, if_pos hmore] at hreplays ⊢
          obtain ⟨n₁, hreplay, hrest⟩ := hreplays
          have ht₁ : Represents mode hf { s₁ with nav := n₁ }.heap (.node tag k l r b) x M :=
            ht.step hstep₁ fun _ _ hy => hy
          obtain ⟨isNew, lx, rx, Ml, Mr, hx, htag, hl, hr, hxl, hxr, hlr, rfl⟩ := ht₁.child
          have hstart : Replay nav s.nav n₁ := ⟨_, hreplay⟩
          rw [← hsame₁.nav] at hreplay
          rw [deleteHelper]
          refine .of_bind_ok hrun₁ ?_
          rw [if_neg (by simp)]
          refine .of_bind_ok (liftNav_ok hreplay) ?_
          refine .of_bind_ok (getInternal_inner hx) ?_
          refine .of_bind_ok (isLeaf_ok hl) ?_
          refine .of_bind_ok (isLeaf_ok hr) ?_
          have hrnode : r.isNode = true := by
            cases r with
            | stub d => cases path <;> cases hleaf
            | leaf tr kr vr nr =>
              cases path with
              | nil => cases hmore
              | cons d path => cases hleaf
            | node tr kr rl rr br => rfl
          have hrleaf : r.isLeaf = false := by
            cases r with
            | stub d => cases hrnode
            | leaf tr kr vr nr => cases hrnode
            | node tr kr rl rr br => rfl
          rw [deleteAt, if_pos hrnode, if_neg (by simp [compareInt]), if_neg (by simp [hrleaf]),
            if_neg (by simp [compareInt]), if_neg (by simp [compareInt])]
          obtain ⟨kr, rlx, rrx, br, hrx⟩ := getInternal_isNode hr hrnode
          refine .of_bind_ok hrx ?_
          refine (ihr hr (by omega) hrnode hleaf hrest).bind ?_
          rintro ⟨r', lower', visits⟩ ⟨rx', lower⟩ s₂ _ ⟨hnav₂, rfl, hheight₂, hyields⟩
          obtain ⟨Mr', hr', hl', hxr', hlr', hM'⟩ := hyields.beside hl hx.lt hxr
            fun y hyr hyl => hlr y hyl hyr
          have hx₂ := hyields.1.inner hx fun _ => hxr
          refine .map_value ((deleteRight_spec P operation hx₂ lower hl' hr' hxl hxr'
            fun y hyl hyr => hlr' y hyr hyl).mono ?_)
          rintro ⟨t', down, visits'⟩ ⟨x', down'⟩ s₃ _ ⟨hsame₃, rfl, hyields'⟩
          refine ⟨?_, rfl, ?_, ?_⟩
          · rw [hsame₃.nav]
            exact hnav₂.head hstart
          · rw [hsame₃.rootNodeHeight, hheight₂]
            exact hsame₁.rootNodeHeight
          · have h₁₂ := hstep₁.trans hyields.1 (M := own x isNew ∪ (Ml ∪ Mr))
              (fun _ hy => hy.elim) fun _ hy => .inl (.inr (.inr hy))
            replace hM' : ∀ y ∈ Mr', y ∈ Mr ∨ s₁.heap.length ≤ y := hM'
            exact hyields'.after h₁₂ (fun _ hy => hy) (by grind)
        · rw [replayOf, if_neg hmore] at hreplays ⊢
          obtain ⟨n₁, hreplay, _⟩ := hreplays
          refine (deleteHelper_found ht hfuel' hreplay).mono ?_
          rintro a res s' _ ⟨hnav, hdel⟩
          exact ⟨hnav ▸ .single ⟨_, hreplay⟩, hdel⟩

end

end Sparkz.Avl
