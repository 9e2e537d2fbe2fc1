import Sparkz.Avl.NodeSpecs

/-!
# Rebalancing on the heap

The rotations of the code do to the nodes what the rotations of `LeafTree` do to the
trees.

* `doubleLeftRotate_spec`, `doubleRightRotate_spec` — the double rotations.
* `modifyLeft_spec`, `modifyRight_spec` — a root above a changed child, after an
  insertion or an update.
* `deleteLeft_spec`, `deleteRight_spec` — a root above a changed child, after a
  removal.
-/

namespace Sparkz.Avl

open Sparkz.Lib Sparkz.Lib.LeafTree

section

variable {N : Type} {mode : Mode} {hf : CryptographicHash} {s : TreeState N} {x lx rx l₀ r₀ : Ref}
  {isNew : Bool} {k : ADKey} {b₀ : Balance} {tl tr : Tree} {Ml Mr : Set Ref}

/-- The balances of a double rotation are those of `splitBalance`. -/
theorem doubleRotateBalances_spec (b : Balance) (s : TreeState N) :
    Simulates (splitBalance b) (fun a c s' => c = a ∧ s = s') (doubleRotateBalances b s) := by
  rw [splitBalance, doubleRotateBalances]
  by_cases h₀ : b = 0
  · rw [if_pos h₀, if_pos h₀]
    exact .ok rfl ⟨rfl, rfl⟩
  · rw [if_neg h₀, if_neg h₀]
    by_cases h₁ : b = -1
    · rw [if_pos h₁, if_pos h₁]
      exact .ok rfl ⟨rfl, rfl⟩
    · rw [if_neg h₁, if_neg h₁]
      by_cases h₂ : b = 1
      · rw [if_pos h₂, if_pos h₂]
        exact .ok rfl ⟨rfl, rfl⟩
      · rw [if_neg h₂, if_neg h₂]
        exact .error rfl

theorem doubleLeftRotate_spec (hx : Inner mode s.heap x isNew k l₀ r₀ b₀)
    (hl : Represents mode hf s.heap tl lx Ml) (hr : Represents mode hf s.heap tr rx Mr)
    (hxl : x ∉ Ml) (hxr : x ∉ Mr) (hlr : ∀ y ∈ Ml, y ∉ Mr) :
    Simulates (doubleLeft k tl tr) (fun t' x' s' => Same s s'
      ∧ Yields mode hf s.heap s'.heap (own x isNew ∪ (Ml ∪ Mr)) [] t' x')
      (doubleLeftRotate x lx rx s) := by
  rw [doubleLeftRotate]
  cases tr with
  | stub d => exact .of_bind_error (getInternal_error hr rfl)
  | leaf tag kr v n => exact .of_bind_error (getInternal_error hr rfl)
  | node tr kr m rr br =>
    obtain ⟨nr, mx, rrx, Mm, Mrr, hrx, htr, hm, hrr, hrm, hrrr, hmr, _, rfl⟩ := hr
    refine .of_bind_ok (getInternal_inner (hrx.inner htr)) ?_
    cases m with
    | stub d => exact .of_bind_error (getInternal_error hm rfl)
    | leaf tag km v n => exact .of_bind_error (getInternal_error hm rfl)
    | node tm km ml mr bm =>
      obtain ⟨nm, mlx, mrx, Mml, Mmr, hmx, htm, hml, hmr', hmml, hmmr, hmlr, _, rfl⟩ := hm
      refine .of_bind_ok (getInternal_inner (hmx.inner htm)) ?_
      rw [doubleLeft, Option.map_eq_bind]
      refine (doubleRotateBalances_spec bm s).bind ?_
      rintro ⟨b₁, b₂⟩ _ _ _ ⟨rfl, rfl⟩
      have hlt := hx.lt
      have hrlt := hrx.lt
      have hmlt := hmx.lt
      have hllt : ∀ y ∈ Ml, y < s.heap.length := fun _ hy => hl.footprint_lt hy
      have hmllt : ∀ y ∈ Mml, y < s.heap.length := fun _ hy => hml.footprint_lt hy
      have hmrlt : ∀ y ∈ Mmr, y < s.heap.length := fun _ hy => hmr'.footprint_lt hy
      have hrrlt : ∀ y ∈ Mrr, y < s.heap.length := fun _ hy => hrr.footprint_lt hy
      obtain ⟨x₁, s₁, hrun₁, hsame₁, hstep₁, hrep₁, hx₁⟩ := hx.getNew_spec (some lx) (some mlx)
        (some b₁) hl hml (fun _ => hxl) (by grind) (by grind)
      refine .of_bind_ok hrun₁ ?_
      have hr₁ := hstep₁.inner (hrx.inner htr) (by grind)
      obtain ⟨x₂, s₂, hrun₂, hsame₂, hstep₂, hrep₂, hx₂⟩ := hr₁.getNew_spec (some mrx) none
        (some b₂) (hmr'.step hstep₁ (by grind))
        (hrr.step hstep₁ (by grind)) (by grind) (by grind) (by grind)
      refine .of_bind_ok hrun₂ ?_
      have hm₂ := hstep₂.inner (hstep₁.inner (hmx.inner htm) (by grind))
        (by grind)
      have hle₁ := hstep₁.length_le
      have hle₂ := hstep₂.length_le
      have hlt₁ := hrep₁.lt
      obtain ⟨x₃, s₃, hrun₃, hsame₃, hstep₃, hrep₃, hx₃⟩ := hm₂.getNew_spec (some x₁) (some x₂)
        (some 0) (hrep₁.step hstep₂ (by grind)) hrep₂
        (by grind) (by grind)
        (by grind)
      refine .ok hrun₃ ⟨(hsame₁.trans hsame₂).trans hsame₃, ?_, _, hrep₃, ?_⟩
      · have h₁₂ := hstep₁.trans (M := own x isNew ∪ (Ml ∪ (own rx nr ∪ (own mx nm ∪ (Mml ∪ Mmr)
          ∪ Mrr)))) hstep₂ (by grind)
          (by grind)
        exact h₁₂.trans hstep₃ (fun _ hy => hy) (by grind)
      · grind

theorem doubleRightRotate_spec (hx : Inner mode s.heap x isNew k l₀ r₀ b₀)
    (hl : Represents mode hf s.heap tl lx Ml) (hr : Represents mode hf s.heap tr rx Mr)
    (hxl : x ∉ Ml) (hxr : x ∉ Mr) (hlr : ∀ y ∈ Ml, y ∉ Mr) :
    Simulates (doubleRight k tl tr) (fun t' x' s' => Same s s'
      ∧ Yields mode hf s.heap s'.heap (own x isNew ∪ (Ml ∪ Mr)) [] t' x')
      (doubleRightRotate x lx rx s) := by
  rw [doubleRightRotate]
  cases tl with
  | stub d => exact .of_bind_error (getInternal_error hl rfl)
  | leaf tag kl v n => exact .of_bind_error (getInternal_error hl rfl)
  | node tl kl ll m bl =>
    obtain ⟨nl, llx, mx, Mll, Mm, hlx, htl, hll, hm, hlll, hlm, hllm, _, rfl⟩ := hl
    refine .of_bind_ok (getInternal_inner (hlx.inner htl)) ?_
    cases m with
    | stub d => exact .of_bind_error (getInternal_error hm rfl)
    | leaf tag km v n => exact .of_bind_error (getInternal_error hm rfl)
    | node tm km ml mr bm =>
      obtain ⟨nm, mlx, mrx, Mml, Mmr, hmx, htm, hml, hmr, hmml, hmmr, hmlr, _, rfl⟩ := hm
      refine .of_bind_ok (getInternal_inner (hmx.inner htm)) ?_
      rw [doubleRight, Option.map_eq_bind]
      refine (doubleRotateBalances_spec bm s).bind ?_
      rintro ⟨b₁, b₂⟩ _ _ _ ⟨rfl, rfl⟩
      have hlt := hx.lt
      have hllt := hlx.lt
      have hmlt := hmx.lt
      have hrlt : ∀ y ∈ Mr, y < s.heap.length := fun _ hy => hr.footprint_lt hy
      have hmllt : ∀ y ∈ Mml, y < s.heap.length := fun _ hy => hml.footprint_lt hy
      have hmrlt : ∀ y ∈ Mmr, y < s.heap.length := fun _ hy => hmr.footprint_lt hy
      have hlllt : ∀ y ∈ Mll, y < s.heap.length := fun _ hy => hll.footprint_lt hy
      obtain ⟨x₁, s₁, hrun₁, hsame₁, hstep₁, hrep₁, hx₁⟩ := hx.getNew_spec (some mrx) (some rx)
        (some b₂) hmr hr (by grind) (fun _ => hxr) (by grind)
      refine .of_bind_ok hrun₁ ?_
      have hl₁ := hstep₁.inner (hlx.inner htl) (by grind)
      obtain ⟨x₂, s₂, hrun₂, hsame₂, hstep₂, hrep₂, hx₂⟩ := hl₁.getNew_spec none (some mlx)
        (some b₁) (hll.step hstep₁ (by grind)) (hml.step hstep₁ (by grind)) (by grind) (by grind)
        (by grind)
      refine .of_bind_ok hrun₂ ?_
      have hm₂ := hstep₂.inner (hstep₁.inner (hmx.inner htm) (by grind)) (by grind)
      have hle₁ := hstep₁.length_le
      have hle₂ := hstep₂.length_le
      have hlt₁ := hrep₁.lt
      obtain ⟨x₃, s₃, hrun₃, hsame₃, hstep₃, hrep₃, hx₃⟩ := hm₂.getNew_spec (some x₂) (some x₁)
        (some 0) hrep₂ (hrep₁.step hstep₂ (by grind)) (by grind) (by grind) (by grind)
      refine .ok hrun₃ ⟨(hsame₁.trans hsame₂).trans hsame₃, ?_, _, hrep₃, ?_⟩
      · have h₁₂ := hstep₁.trans (M := own x isNew ∪ (own lx nl ∪ (Mll ∪ (own mx nm
          ∪ (Mml ∪ Mmr))) ∪ Mr)) hstep₂ (by grind) (by grind)
        exact h₁₂.trans hstep₃ (fun _ hy => hy) (by grind)
      · grind

/-! ## After a change of a leaf -/

variable {tag : Option Ref} (P : TreeParams) (operation : Operation)

/-- A visit to the root before it is rebuilt over two trees. -/
theorem visit_root (hx : Inner mode s.heap x isNew k l₀ r₀ b₀) (htag : Tagged mode x tag isNew)
    (hl : Represents mode hf s.heap tl lx Ml) (hr : Represents mode hf s.heap tr rx Mr) :
    ∃ s', onNodeVisit P operation x false s = .ok () s' ∧ Same s s'
      ∧ Step mode s.heap s'.heap ∅ tag.toList ∧ Inner mode s'.heap x isNew k l₀ r₀ b₀
      ∧ Represents mode hf s'.heap tl lx Ml ∧ Represents mode hf s'.heap tr rx Mr := by
  obtain ⟨s', hrun, hsame, hstep⟩ := onNodeVisit_inner P operation false hx htag
  exact ⟨s', hrun, hsame, hstep, hstep.inner hx fun _ hy => hy, hl.step hstep fun _ _ hy => hy,
    hr.step hstep fun _ _ hy => hy⟩

/-- The root of a changed tree after its left child has been changed. -/
theorem modifyLeft_spec (hx : Inner mode s.heap x isNew k l₀ rx b₀)
    (htag : Tagged mode x tag isNew) {m : Modified} (hm : m.changeHappened = true)
    (hl : Represents mode hf s.heap tl m.root Ml) (hr : Represents mode hf s.heap tr rx Mr)
    (hxl : x ∉ Ml) (hxr : x ∉ Mr) (hlr : ∀ y ∈ Ml, y ∉ Mr) :
    Simulates (raiseLeft k tl tr b₀ m.heightIncreased) (fun a m' s' => Same s s'
      ∧ m' = ⟨m'.root, true, a.2, false, m.oldValue⟩
      ∧ Yields mode hf s.heap s'.heap (own x isNew ∪ (Ml ∪ Mr)) tag.toList a.1 m'.root)
      (modifyLeft P operation x m s) := by
  obtain ⟨s₁, hrun, hsame, hstep, hx₁, hl₁, hr₁⟩ := visit_root P operation hx htag hl hr
  have hlt := hx₁.lt
  have hlen := hstep.length_le
  rw [modifyLeft, if_pos hm]
  refine .of_bind_ok hrun ?_
  refine .of_bind_ok (getInternal_inner hx₁) ?_
  simp only [raiseLeft]
  by_cases hrot : (m.heightIncreased && decide (b₀ < 0)) = true
  · rw [if_pos hrot, if_pos hrot]
    cases tl with
    | stub d => exact .of_bind_error (getInternal_error hl₁ rfl)
    | leaf tag kl v n => exact .of_bind_error (getInternal_error hl₁ rfl)
    | node tag' kl ll lr bl =>
      have hl₁' := hl₁
      obtain ⟨nl, llx, lrx, Mll, Mlr, hlx, htl, hll, hlr', hlll, hllr, hllr', _, rfl⟩ := hl₁
      refine .of_bind_ok (getInternal_inner (hlx.inner htl)) ?_
      simp only
      by_cases hbl : bl < 0
      · rw [if_pos hbl, if_pos hbl]
        have hrlt : ∀ y ∈ Mr, y < s₁.heap.length := fun _ hy => hr₁.footprint_lt hy
        have hlllt : ∀ y ∈ Mll, y < s₁.heap.length := fun _ hy => hll.footprint_lt hy
        have hlrlt : ∀ y ∈ Mlr, y < s₁.heap.length := fun _ hy => hlr'.footprint_lt hy
        have hllt := hlx.lt
        obtain ⟨x₂, s₂, hrun₂, hsame₂, hstep₂, hrep₂, hx₂⟩ := hx₁.getNew_spec (some lrx) none
          (some 0) hlr' hr₁ (by grind) (fun _ => hxr) (by grind)
        refine .of_bind_ok hrun₂ ?_
        have hl₂ := hstep₂.inner (hlx.inner htl) (by grind)
        have hlen₂ := hstep₂.length_le
        obtain ⟨x₃, s₃, hrun₃, hsame₃, hstep₃, hrep₃, hx₃⟩ := hl₂.getNew_spec none (some x₂)
          (some 0) (hll.step hstep₂ (by grind)) hrep₂ (by grind) (by grind) (by grind)
        refine .of_bind_ok hrun₃ ?_
        refine .ok rfl ⟨(hsame.trans hsame₂).trans hsame₃, rfl, ?_, _, hrep₃, ?_⟩
        · have h₁₂ := hstep.trans (M := own x isNew ∪ (own m.root nl ∪ (Mll ∪ Mlr) ∪ Mr)) hstep₂
            (by grind) (by grind)
          have h₁₃ := h₁₂.trans hstep₃ (fun _ hy => hy) (by grind)
          simpa using h₁₃
        · grind
      · rw [if_neg hbl, if_neg hbl]
        refine (doubleRightRotate_spec hx₁ hl₁' hr₁ hxl hxr hlr).map ?_
        rintro t' x' s' _ ⟨hsame', hstep', M', hrep', hM'⟩
        refine ⟨_, _, rfl, hsame.trans hsame', rfl, ?_, M', hrep', ?_⟩
        · have := hstep.trans hstep' (fun _ hy => hy.elim) (fun _ hy => .inl hy)
          simpa using this
        · exact fun y hy => (hM' y hy).imp id hlen.trans
  · rw [if_neg hrot, if_neg hrot]
    obtain ⟨x₂, s₂, hrun₂, hsame₂, hstep₂, hrep₂, hx₂⟩ := hx₁.getNew_spec (some m.root) none
      (some (if m.heightIncreased = true then b₀ - 1 else b₀)) hl₁ hr₁ (fun _ => hxl)
      (fun _ => hxr) hlr
    refine .of_bind_ok hrun₂ ?_
    refine .ok rfl ⟨hsame.trans hsame₂, rfl, ?_, _, hrep₂, ?_⟩
    · have h₁₂ := hstep.trans (M := own x isNew ∪ (Ml ∪ Mr)) hstep₂ (by grind) (by grind)
      simpa using h₁₂
    · grind

/-- The root of a changed tree after its right child has been changed. -/
theorem modifyRight_spec (hx : Inner mode s.heap x isNew k lx r₀ b₀)
    (htag : Tagged mode x tag isNew) {m : Modified} (hm : m.changeHappened = true)
    (hl : Represents mode hf s.heap tl lx Ml) (hr : Represents mode hf s.heap tr m.root Mr)
    (hxl : x ∉ Ml) (hxr : x ∉ Mr) (hlr : ∀ y ∈ Ml, y ∉ Mr) :
    Simulates (raiseRight k tl tr b₀ m.heightIncreased) (fun a m' s' => Same s s'
      ∧ m' = ⟨m'.root, true, a.2, false, m.oldValue⟩
      ∧ Yields mode hf s.heap s'.heap (own x isNew ∪ (Ml ∪ Mr)) tag.toList a.1 m'.root)
      (modifyRight P operation x m s) := by
  obtain ⟨s₁, hrun, hsame, hstep, hx₁, hl₁, hr₁⟩ := visit_root P operation hx htag hl hr
  have hlt := hx₁.lt
  have hlen := hstep.length_le
  rw [modifyRight, if_pos hm]
  refine .of_bind_ok hrun ?_
  refine .of_bind_ok (getInternal_inner hx₁) ?_
  simp only [raiseRight]
  by_cases hrot : (m.heightIncreased && decide (b₀ > 0)) = true
  · rw [if_pos hrot, if_pos hrot]
    cases tr with
    | stub d => exact .of_bind_error (getInternal_error hr₁ rfl)
    | leaf tag kr v n => exact .of_bind_error (getInternal_error hr₁ rfl)
    | node tag' kr rl rr br =>
      have hr₁' := hr₁
      obtain ⟨nr, rlx, rrx, Mrl, Mrr, hrx, htr, hrl, hrr, hrrl, hrrr, hrlr, _, rfl⟩ := hr₁
      refine .of_bind_ok (getInternal_inner (hrx.inner htr)) ?_
      simp only
      by_cases hbr : br > 0
      · rw [if_pos hbr, if_pos hbr]
        have hllt : ∀ y ∈ Ml, y < s₁.heap.length := fun _ hy => hl₁.footprint_lt hy
        have hrllt : ∀ y ∈ Mrl, y < s₁.heap.length := fun _ hy => hrl.footprint_lt hy
        have hrrlt : ∀ y ∈ Mrr, y < s₁.heap.length := fun _ hy => hrr.footprint_lt hy
        have hrlt := hrx.lt
        obtain ⟨x₂, s₂, hrun₂, hsame₂, hstep₂, hrep₂, hx₂⟩ := hx₁.getNew_spec none (some rlx)
          (some 0) hl₁ hrl (fun _ => hxl) (by grind) (by grind)
        refine .of_bind_ok hrun₂ ?_
        have hr₂ := hstep₂.inner (hrx.inner htr) (by grind)
        have hlen₂ := hstep₂.length_le
        obtain ⟨x₃, s₃, hrun₃, hsame₃, hstep₃, hrep₃, hx₃⟩ := hr₂.getNew_spec (some x₂) none
          (some 0) hrep₂ (hrr.step hstep₂ (by grind)) (by grind) (by grind) (by grind)
        refine .of_bind_ok hrun₃ ?_
        refine .ok rfl ⟨(hsame.trans hsame₂).trans hsame₃, rfl, ?_, _, hrep₃, ?_⟩
        · have h₁₂ := hstep.trans (M := own x isNew ∪ (Ml ∪ (own m.root nr ∪ (Mrl ∪ Mrr)))) hstep₂
            (by grind) (by grind)
          have h₁₃ := h₁₂.trans hstep₃ (fun _ hy => hy) (by grind)
          simpa using h₁₃
        · grind
      · rw [if_neg hbr, if_neg hbr]
        refine (doubleLeftRotate_spec hx₁ hl₁ hr₁' hxl hxr hlr).map ?_
        rintro t' x' s' _ ⟨hsame', hstep', M', hrep', hM'⟩
        refine ⟨_, _, rfl, hsame.trans hsame', rfl, ?_, M', hrep', ?_⟩
        · have := hstep.trans hstep' (fun _ hy => hy.elim) (fun _ hy => .inl hy)
          simpa using this
        · exact fun y hy => (hM' y hy).imp id hlen.trans
  · rw [if_neg hrot, if_neg hrot]
    obtain ⟨x₂, s₂, hrun₂, hsame₂, hstep₂, hrep₂, hx₂⟩ := hx₁.getNew_spec none (some m.root)
      (some (if m.heightIncreased = true then b₀ + 1 else b₀)) hl₁ hr₁ (fun _ => hxl)
      (fun _ => hxr) hlr
    refine .of_bind_ok hrun₂ ?_
    refine .ok rfl ⟨hsame.trans hsame₂, rfl, ?_, _, hrep₂, ?_⟩
    · have h₁₂ := hstep.trans (M := own x isNew ∪ (Ml ∪ Mr)) hstep₂ (by grind) (by grind)
      simpa using h₁₂
    · grind

/-! ## After a removal -/

/-- A visit to a tree next to others. -/
theorem visit_child {t : Tree} {y : Ref} {M : Set Ref} (hr : Represents mode hf s.heap t y M)
    (isRotate : Bool) :
    ∃ s', onNodeVisit P operation y isRotate s = .ok () s' ∧ Same s s'
      ∧ Step mode s.heap s'.heap ∅ t.tags
      ∧ ∀ {t' : Tree} {y' : Ref} {M' : Set Ref}, Represents mode hf s.heap t' y' M' →
          Represents mode hf s'.heap t' y' M' := by
  obtain ⟨s', hrun, hsame, hstep⟩ := onNodeVisit_spec P operation isRotate hr
  exact ⟨s', hrun, hsame, hstep, fun hr' => hr'.step hstep fun _ _ hy => hy⟩

/-- The root of a tree that was just built. -/
theorem Represents.inner_of_new {k' : ADKey} {l r : Tree} {b : Balance} {M : Set Ref}
    (hr : Represents mode hf s.heap (.node none k' l r b) x M) :
    ∃ lx' rx', Inner mode s.heap x true k' lx' rx' b := by
  obtain ⟨nx, lx', rx', _, _, hx, ht, _⟩ := hr
  have hnx : nx = true := by
    cases mode with
    | prover =>
      cases nx with
      | true => rfl
      | false => cases ht
    | verifier => exact ht
  subst hnx
  exact ⟨lx', rx', hx.inner ht⟩

/-- The root after a removal on its left. -/
theorem deleteLeft_spec (hx : Inner mode s.heap x isNew k l₀ rx b₀) (lower : Bool)
    (hl : Represents mode hf s.heap tl lx Ml) (hr : Represents mode hf s.heap tr rx Mr)
    (hxl : x ∉ Ml) (hxr : x ∉ Mr) (hlr : ∀ y ∈ Ml, y ∉ Mr) :
    Simulates (lowerLeft k tl tr b₀ lower) (fun a res s' => Same s s' ∧ res.2 = a.2.1
      ∧ Yields mode hf s.heap s'.heap (own x isNew ∪ (Ml ∪ Mr)) a.2.2 a.1 res.1)
      (deleteLeft P operation x lx lower s) := by
  rw [deleteLeft]
  refine .of_bind_ok (getInternal_inner hx) ?_
  simp only [lowerLeft]
  by_cases hrot : (lower && decide (b₀ > 0)) = true
  · rw [if_pos hrot, if_pos hrot]
    obtain ⟨s₁, hrun₁, hsame₁, hstep₁, hkeep₁⟩ := visit_child P operation hr true
    refine .of_bind_ok hrun₁ ?_
    have hx₁ := hstep₁.inner hx fun _ hy => hy
    have hl₁ := hkeep₁ hl
    have hr₁ := hkeep₁ hr
    have hlen₁ := hstep₁.length_le
    cases tr with
    | stub d => exact .of_bind_error (getInternal_error hr₁ rfl)
    | leaf tag kr v n => exact .of_bind_error (getInternal_error hr₁ rfl)
    | node tag' kr rl rr br =>
      have hr₁' := hr₁
      obtain ⟨nr, rlx, rrx, Mrl, Mrr, hrx, htr, hrl, hrr, hrrl, hrrr, hrlr, _, rfl⟩ := hr₁
      refine .of_bind_ok (getInternal_inner (hrx.inner htr)) ?_
      simp only
      by_cases hbr : br < 0
      · rw [if_pos hbr, if_pos hbr]
        obtain ⟨s₂, hrun₂, hsame₂, hstep₂, hkeep₂⟩ := visit_child P operation hrl true
        refine .of_bind_ok hrun₂ ?_
        have hx₂ := hstep₂.inner hx₁ fun _ hy => hy
        refine (doubleLeftRotate_spec hx₂ (hkeep₂ hl₁) (hkeep₂ hr₁') hxl hxr hlr).map ?_
        rintro t' x' s' _ ⟨hsame', hstep', M', hrep', hM'⟩
        refine ⟨_, _, rfl, (hsame₁.trans hsame₂).trans hsame', rfl, ?_, M', hrep', ?_⟩
        · have h₁₂ := hstep₁.trans hstep₂ (M := ∅) (fun _ hy => hy) (fun _ hy => hy.elim)
          have := h₁₂.trans hstep' (fun _ hy => hy.elim) (fun _ hy => .inl hy)
          simpa [tags] using this
        · have hlen₂ := hstep₂.length_le
          exact fun y hy => (hM' y hy).imp id (hlen₁.trans hlen₂).trans
      · rw [if_neg hbr, if_neg hbr]
        have hlt := hx₁.lt
        have hllt : ∀ y ∈ Ml, y < s₁.heap.length := fun _ hy => hl₁.footprint_lt hy
        have hrllt : ∀ y ∈ Mrl, y < s₁.heap.length := fun _ hy => hrl.footprint_lt hy
        have hrrlt : ∀ y ∈ Mrr, y < s₁.heap.length := fun _ hy => hrr.footprint_lt hy
        have hrlt := hrx.lt
        obtain ⟨x₂, s₂, hrun₂, hsame₂, hstep₂, hrep₂, hx₂⟩ := hx₁.getNew_spec (some lx) (some rlx)
          (some (1 - br)) hl₁ hrl (fun _ => hxl) (by grind) (by grind)
        refine .of_bind_ok hrun₂ ?_
        have hr₂ := hstep₂.inner (hrx.inner htr) (by grind)
        have hlen₂ := hstep₂.length_le
        obtain ⟨x₃, s₃, hrun₃, hsame₃, hstep₃, hrep₃, hx₃⟩ := hr₂.getNew_spec (some x₂) none
          (some (br - 1)) hrep₂ (hrr.step hstep₂ (by grind)) (by grind) (by grind) (by grind)
        refine .of_bind_ok hrun₃ ?_
        obtain ⟨lx', rx', hinner⟩ := hrep₃.inner_of_new
        refine .of_bind_ok (getInternal_inner hinner) ?_
        refine .ok rfl ⟨(hsame₁.trans hsame₂).trans hsame₃, rfl, ?_, _, hrep₃, ?_⟩
        · have h₁₂ := hstep₁.trans (M := own x isNew ∪ (Ml ∪ (own rx nr ∪ (Mrl ∪ Mrr)))) hstep₂
            (by grind) (by grind)
          have h₁₃ := h₁₂.trans hstep₃ (fun _ hy => hy) (by grind)
          simpa [tags] using h₁₃
        · grind
  · rw [if_neg hrot, if_neg hrot]
    obtain ⟨x₂, s₂, hrun₂, hsame₂, hstep₂, hrep₂, hx₂⟩ := hx.getNew_spec (some lx) none
      (some (if lower = true then b₀ + 1 else b₀)) hl hr (fun _ => hxl) (fun _ => hxr) hlr
    refine .of_bind_ok hrun₂ ?_
    refine .ok rfl ⟨hsame₂, rfl, hstep₂.mono (by grind), _, hrep₂, ?_⟩
    grind

/-- The root after a removal on its right. -/
theorem deleteRight_spec (hx : Inner mode s.heap x isNew k lx r₀ b₀) (lower : Bool)
    (hl : Represents mode hf s.heap tl lx Ml) (hr : Represents mode hf s.heap tr rx Mr)
    (hxl : x ∉ Ml) (hxr : x ∉ Mr) (hlr : ∀ y ∈ Ml, y ∉ Mr) :
    Simulates (lowerRight k tl tr b₀ lower) (fun a res s' => Same s s' ∧ res.2 = a.2.1
      ∧ Yields mode hf s.heap s'.heap (own x isNew ∪ (Ml ∪ Mr)) a.2.2 a.1 res.1)
      (deleteRight P operation x rx lower s) := by
  rw [deleteRight]
  refine .of_bind_ok (getInternal_inner hx) ?_
  simp only [lowerRight]
  by_cases hrot : (lower && decide (b₀ < 0)) = true
  · rw [if_pos hrot, if_pos hrot]
    obtain ⟨s₁, hrun₁, hsame₁, hstep₁, hkeep₁⟩ := visit_child P operation hl true
    refine .of_bind_ok hrun₁ ?_
    have hx₁ := hstep₁.inner hx fun _ hy => hy
    have hl₁ := hkeep₁ hl
    have hr₁ := hkeep₁ hr
    have hlen₁ := hstep₁.length_le
    cases tl with
    | stub d => exact .of_bind_error (getInternal_error hl₁ rfl)
    | leaf tag kl v n => exact .of_bind_error (getInternal_error hl₁ rfl)
    | node tag' kl ll lr bl =>
      have hl₁' := hl₁
      obtain ⟨nl, llx, lrx, Mll, Mlr, hlx, htl, hll, hlr', hlll, hllr, hllr', _, rfl⟩ := hl₁
      refine .of_bind_ok (getInternal_inner (hlx.inner htl)) ?_
      simp only
      by_cases hbl : bl > 0
      · rw [if_pos hbl, if_pos hbl]
        obtain ⟨s₂, hrun₂, hsame₂, hstep₂, hkeep₂⟩ := visit_child P operation hlr' true
        refine .of_bind_ok hrun₂ ?_
        have hx₂ := hstep₂.inner hx₁ fun _ hy => hy
        refine (doubleRightRotate_spec hx₂ (hkeep₂ hl₁') (hkeep₂ hr₁) hxl hxr hlr).map ?_
        rintro t' x' s' _ ⟨hsame', hstep', M', hrep', hM'⟩
        refine ⟨_, _, rfl, (hsame₁.trans hsame₂).trans hsame', rfl, ?_, M', hrep', ?_⟩
        · have h₁₂ := hstep₁.trans hstep₂ (M := ∅) (fun _ hy => hy) (fun _ hy => hy.elim)
          have := h₁₂.trans hstep' (fun _ hy => hy.elim) (fun _ hy => .inl hy)
          simpa [tags] using this
        · have hlen₂ := hstep₂.length_le
          exact fun y hy => (hM' y hy).imp id (hlen₁.trans hlen₂).trans
      · rw [if_neg hbl, if_neg hbl]
        have hlt := hx₁.lt
        have hrlt : ∀ y ∈ Mr, y < s₁.heap.length := fun _ hy => hr₁.footprint_lt hy
        have hlllt : ∀ y ∈ Mll, y < s₁.heap.length := fun _ hy => hll.footprint_lt hy
        have hlrlt : ∀ y ∈ Mlr, y < s₁.heap.length := fun _ hy => hlr'.footprint_lt hy
        have hllt := hlx.lt
        obtain ⟨x₂, s₂, hrun₂, hsame₂, hstep₂, hrep₂, hx₂⟩ := hx₁.getNew_spec (some lrx) (some rx)
          (some (-bl - 1)) hlr' hr₁ (by grind) (fun _ => hxr) (by grind)
        refine .of_bind_ok hrun₂ ?_
        have hl₂ := hstep₂.inner (hlx.inner htl) (by grind)
        have hlen₂ := hstep₂.length_le
        obtain ⟨x₃, s₃, hrun₃, hsame₃, hstep₃, hrep₃, hx₃⟩ := hl₂.getNew_spec none (some x₂)
          (some (1 + bl)) (hll.step hstep₂ (by grind)) hrep₂ (by grind) (by grind) (by grind)
        refine .of_bind_ok hrun₃ ?_
        obtain ⟨lx', rx', hinner⟩ := hrep₃.inner_of_new
        refine .of_bind_ok (getInternal_inner hinner) ?_
        refine .ok rfl ⟨(hsame₁.trans hsame₂).trans hsame₃, rfl, ?_, _, hrep₃, ?_⟩
        · have h₁₂ := hstep₁.trans (M := own x isNew ∪ (own lx nl ∪ (Mll ∪ Mlr) ∪ Mr)) hstep₂
            (by grind) (by grind)
          have h₁₃ := h₁₂.trans hstep₃ (fun _ hy => hy) (by grind)
          simpa [tags] using h₁₃
        · grind
  · rw [if_neg hrot, if_neg hrot]
    obtain ⟨x₂, s₂, hrun₂, hsame₂, hstep₂, hrep₂, hx₂⟩ := hx.getNew_spec none (some rx)
      (some (if lower = true then b₀ - 1 else b₀)) hl hr (fun _ => hxl) (fun _ => hxr) hlr
    refine .of_bind_ok hrun₂ ?_
    refine .ok rfl ⟨hsame₂, rfl, hstep₂.mono (by grind), _, hrep₂, ?_⟩
    grind

end

end Sparkz.Avl
