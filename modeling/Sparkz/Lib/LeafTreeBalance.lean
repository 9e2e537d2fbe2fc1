import Sparkz.Lib.LeafTree

/-!
# Leaf-oriented AVL trees stay balanced

What the operations of `LeafTree` do on balanced chains: they succeed, and the trees
that they return are balanced chains again, with the right heights and bindings.

* `raiseLeft_spec`, `raiseRight_spec`, `lowerLeft_spec`, `lowerRight_spec` — one
  rebalancing step, with all its rotations.
* `modifyAt_spec` — a leaf changed or split at the end of a search path; `modifyAt_sprout` —
  a tree that got higher has a split leaf below its heavier sides.
* `removeMax_spec`, `deleteAt_spec` — a leaf removed.
-/

namespace Sparkz.Lib.LeafTree

variable {τ D K V : Type}

/-- A balance for subtrees of the given heights. -/
def Tilt (b : Int8) (hl hr : ℕ) : Prop :=
  b = -1 ∧ hl = hr + 1 ∨ b = 0 ∧ hl = hr ∨ b = 1 ∧ hr = hl + 1

theorem balanced_node_iff {t : Option τ} {k : K} {l r : LeafTree τ D K V} {b : Int8} :
    (node t k l r b).Balanced ↔ l.Balanced ∧ r.Balanced ∧ Tilt b l.height r.height := Iff.rfl

theorem Balanced.node {t : Option τ} {k : K} {l r : LeafTree τ D K V} {b : Int8}
    (hl : l.Balanced) (hr : r.Balanced) (hb : Tilt b l.height r.height) :
    (node t k l r b).Balanced :=
  ⟨hl, hr, hb⟩

/-- A tree of positive height that is no stub has an inner node at its root. -/
theorem exists_node_of_height {t : LeafTree τ D K V} (h : 0 < t.height) :
    ∃ tag k l r b, t = node tag k l r b := by
  cases t with
  | stub d => exact absurd h (lt_irrefl 0)
  | leaf tag k v n => exact absurd h (lt_irrefl 0)
  | node tag k l r b => exact ⟨tag, k, l, r, b, rfl⟩

/-- The shape of a tree that just got higher: it leans to the grown side, or is a
split leaf. -/
def Grown (t : LeafTree τ D K V) : Prop :=
  ∃ tag k l r b, t = node tag k l r b ∧ (b ≠ 0 ∨ t.height = 1)

/-! ## Double rotations -/

/-- The middle of a double rotation is split into balanced halves. -/
theorem splitBalance_spec {bm : Int8} {hl hr h : ℕ} (hb : Tilt bm hl hr)
    (h₁ : max hl hr = h) :
    ∃ b, splitBalance bm = some b ∧ Tilt b.1 h hl ∧ Tilt b.2 hr h := by
  rcases hb with ⟨rfl, heq⟩ | ⟨rfl, heq⟩ | ⟨rfl, heq⟩
  · exact ⟨(0, 1), by decide, .inr (.inl ⟨rfl, by omega⟩), .inr (.inr ⟨rfl, by omega⟩)⟩
  · exact ⟨(0, 0), by decide, .inr (.inl ⟨rfl, by omega⟩), .inr (.inl ⟨rfl, by omega⟩)⟩
  · exact ⟨(-1, 0), by decide, .inl ⟨rfl, by omega⟩, .inr (.inl ⟨rfl, by omega⟩)⟩

theorem doubleLeft_spec {k : K} {l r : LeafTree τ D K V} {tr : Option τ} {kr : K}
    {rl rr : LeafTree τ D K V} {br : Int8} (hr : r = node tr kr rl rr br) (hl : l.Balanced)
    (hrl : rl.Balanced) (hrr : rr.Balanced) (h₁ : rl.height = l.height + 1)
    (h₂ : rr.height = l.height) :
    ∃ t, doubleLeft k l r = some t ∧ t.Balanced ∧ t.height = l.height + 2
      ∧ t.entries = l.entries ++ r.entries
      ∧ ∀ [LinearOrder K] (lo hi : K), Chain lo k l → Chain k hi r → Chain lo hi t := by
  subst hr
  obtain ⟨tm, km, ml, mr, bm, rfl⟩ := exists_node_of_height (t := rl) (by omega)
  rw [balanced_node_iff] at hrl
  obtain ⟨hml, hmr, hbm⟩ := hrl
  rw [height_node] at h₁
  obtain ⟨b, hb, hb₁, hb₂⟩ := splitBalance_spec hbm (h := l.height) (by omega)
  refine ⟨_, by rw [doubleLeft, hb, Option.map_some], ?_, ?_, ?_, ?_⟩
  · exact (hl.node hml hb₁).node (hmr.node hrr (by rwa [h₂]))
      (.inr (.inl ⟨rfl, by simp only [height_node]; omega⟩))
  · simp only [height_node]
    omega
  · simp only [entries_node, List.append_assoc]
  · intro _ lo hi hcl hcr
    exact ⟨⟨hcl, hcr.1.1⟩, hcr.1.2, hcr.2⟩

theorem doubleRight_spec {k : K} {l r : LeafTree τ D K V} {tl : Option τ} {kl : K}
    {ll lr : LeafTree τ D K V} {bl : Int8} (hl : l = node tl kl ll lr bl) (hr : r.Balanced)
    (hll : ll.Balanced) (hlr : lr.Balanced) (h₁ : lr.height = r.height + 1)
    (h₂ : ll.height = r.height) :
    ∃ t, doubleRight k l r = some t ∧ t.Balanced ∧ t.height = r.height + 2
      ∧ t.entries = l.entries ++ r.entries
      ∧ ∀ [LinearOrder K] (lo hi : K), Chain lo k l → Chain k hi r → Chain lo hi t := by
  subst hl
  obtain ⟨tm, km, ml, mr, bm, rfl⟩ := exists_node_of_height (t := lr) (by omega)
  rw [balanced_node_iff] at hlr
  obtain ⟨hml, hmr, hbm⟩ := hlr
  rw [height_node] at h₁
  obtain ⟨b, hb, hb₁, hb₂⟩ := splitBalance_spec hbm (h := r.height) (by omega)
  refine ⟨_, by rw [doubleRight, hb, Option.map_some], ?_, ?_, ?_, ?_⟩
  · exact (hll.node hml (by rwa [h₂])).node (hmr.node hr hb₂)
      (.inr (.inl ⟨rfl, by simp only [height_node]; omega⟩))
  · simp only [height_node]
    omega
  · simp only [entries_node, List.append_assoc]
  · intro _ lo hi hcl hcr
    exact ⟨⟨hcl.1, hcl.2.1⟩, hcl.2.2, hcr⟩

/-! ## Rebalancing steps -/

/-- What a rebalancing step returns for a root of height `h` with children `l` and
`r`: a balanced tree with their bindings, higher by `up` and lower by `down`. -/
structure Rebalanced (k : K) (l r : LeafTree τ D K V) (h up down : ℕ)
    (t : LeafTree τ D K V) : Prop where
  balanced : t.Balanced
  height : t.height + down = h + up
  entries : t.entries = l.entries ++ r.entries
  chain : ∀ [LinearOrder K] (lo hi : K), Chain lo k l → Chain k hi r → Chain lo hi t

theorem raiseLeft_spec (k : K) {l r : LeafTree τ D K V} {b : Int8} {higher : Bool} {h : ℕ}
    (hl : l.Balanced) (hr : r.Balanced) (hb : Tilt b h r.height)
    (hheight : l.height = h + higher.toNat) (hgrown : higher = true → Grown l) :
    ∃ t up, raiseLeft k l r b higher = some (t, up)
      ∧ Rebalanced k l r (max h r.height + 1) up.toNat 0 t ∧ (up = true → Grown t) := by
  cases higher with
  | false =>
    simp only [Bool.toNat_false, Nat.add_zero] at hheight
    refine ⟨node none k l r b, false, by simp [raiseLeft], ?_, fun h => by cases h⟩
    refine ⟨hl.node hr (by rwa [hheight]), ?_, rfl, fun lo hi hcl hcr => ⟨hcl, hcr⟩⟩
    simp only [height_node, Bool.toNat_false]
    omega
  | true =>
    simp only [Bool.toNat_true] at hheight
    rcases hb with ⟨rfl, heq⟩ | ⟨rfl, heq⟩ | ⟨rfl, heq⟩
    · -- the left side was higher already: rotate
      obtain ⟨tl, kl, ll, lr, bl, rfl, hbl⟩ := hgrown rfl
      rw [balanced_node_iff] at hl
      obtain ⟨hll, hlr, htilt⟩ := hl
      rw [height_node] at hheight hbl
      rcases htilt with ⟨rfl, hlt⟩ | ⟨rfl, hlt⟩ | ⟨rfl, hlt⟩
      · refine ⟨node none kl ll (node none k lr r 0) 0, false, ?_, ?_, fun h => by cases h⟩
        · rw [raiseLeft, if_pos (by decide), if_pos (by decide)]
        · refine ⟨?_, ?_, ?_, ?_⟩
          · exact hll.node (hlr.node hr (.inr (.inl ⟨rfl, by omega⟩)))
              (.inr (.inl ⟨rfl, by simp only [height_node]; omega⟩))
          · simp only [height_node, Bool.toNat_false]
            omega
          · simp only [entries_node, List.append_assoc]
          · intro _ lo hi hcl hcr
            exact ⟨hcl.1, hcl.2, hcr⟩
      · rcases hbl with hbl | hbl
        · exact absurd rfl hbl
        · omega
      · obtain ⟨t, ht, hbal, hh, hent, hchain⟩ :=
          doubleRight_spec (k := k) (l := node tl kl ll lr 1) rfl hr hll hlr (by omega) (by omega)
        refine ⟨t, false, ?_, ⟨hbal, ?_, hent, hchain⟩, fun h => by cases h⟩
        · rw [raiseLeft, if_pos (by decide), if_neg (by decide), ht, Option.map_some]
        · simp only [Bool.toNat_false]
          omega
    · refine ⟨node none k l r (0 - 1), true, by simp [raiseLeft], ?_, ?_⟩
      · refine ⟨hl.node hr (.inl ⟨rfl, by omega⟩), ?_, rfl, fun lo hi hcl hcr => ⟨hcl, hcr⟩⟩
        simp only [height_node, Bool.toNat_true]
        omega
      · intro _
        exact ⟨_, _, _, _, _, rfl, .inl (by decide)⟩
    · refine ⟨node none k l r (1 - 1), false, rfl, ?_, fun h => by cases h⟩
      refine ⟨hl.node hr (.inr (.inl ⟨rfl, by omega⟩)), ?_, rfl, fun lo hi hcl hcr => ⟨hcl, hcr⟩⟩
      simp only [height_node, Bool.toNat_false]
      omega

theorem raiseRight_spec (k : K) {l r : LeafTree τ D K V} {b : Int8} {higher : Bool} {h : ℕ}
    (hl : l.Balanced) (hr : r.Balanced) (hb : Tilt b l.height h)
    (hheight : r.height = h + higher.toNat) (hgrown : higher = true → Grown r) :
    ∃ t up, raiseRight k l r b higher = some (t, up)
      ∧ Rebalanced k l r (max l.height h + 1) up.toNat 0 t ∧ (up = true → Grown t) := by
  cases higher with
  | false =>
    simp only [Bool.toNat_false, Nat.add_zero] at hheight
    refine ⟨node none k l r b, false, by simp [raiseRight], ?_, fun h => by cases h⟩
    refine ⟨hl.node hr (by rwa [hheight]), ?_, rfl, fun lo hi hcl hcr => ⟨hcl, hcr⟩⟩
    simp only [height_node, Bool.toNat_false]
    omega
  | true =>
    simp only [Bool.toNat_true] at hheight
    rcases hb with ⟨rfl, heq⟩ | ⟨rfl, heq⟩ | ⟨rfl, heq⟩
    · refine ⟨node none k l r (-1 + 1), false, rfl, ?_, fun h => by cases h⟩
      refine ⟨hl.node hr (.inr (.inl ⟨rfl, by omega⟩)), ?_, rfl, fun lo hi hcl hcr => ⟨hcl, hcr⟩⟩
      simp only [height_node, Bool.toNat_false]
      omega
    · refine ⟨node none k l r (0 + 1), true, by simp [raiseRight], ?_, ?_⟩
      · refine ⟨hl.node hr (.inr (.inr ⟨rfl, by omega⟩)), ?_, rfl, fun lo hi hcl hcr => ⟨hcl, hcr⟩⟩
        simp only [height_node, Bool.toNat_true]
        omega
      · intro _
        exact ⟨_, _, _, _, _, rfl, .inl (by decide)⟩
    · -- the right side was higher already: rotate
      obtain ⟨tr, kr, rl, rr, br, rfl, hbr⟩ := hgrown rfl
      rw [balanced_node_iff] at hr
      obtain ⟨hrl, hrr, htilt⟩ := hr
      rw [height_node] at hheight hbr
      rcases htilt with ⟨rfl, hlt⟩ | ⟨rfl, hlt⟩ | ⟨rfl, hlt⟩
      · obtain ⟨t, ht, hbal, hh, hent, hchain⟩ :=
          doubleLeft_spec (k := k) (r := node tr kr rl rr (-1)) rfl hl hrl hrr (by omega) (by omega)
        refine ⟨t, false, ?_, ⟨hbal, ?_, hent, hchain⟩, fun h => by cases h⟩
        · rw [raiseRight, if_pos (by decide), if_neg (by decide), ht, Option.map_some]
        · simp only [Bool.toNat_false]
          omega
      · rcases hbr with hbr | hbr
        · exact absurd rfl hbr
        · omega
      · refine ⟨node none kr (node none k l rl 0) rr 0, false, ?_, ?_, fun h => by cases h⟩
        · rw [raiseRight, if_pos (by decide), if_pos (by decide)]
        · refine ⟨?_, ?_, ?_, ?_⟩
          · exact (hl.node hrl (.inr (.inl ⟨rfl, by omega⟩))).node hrr
              (.inr (.inl ⟨rfl, by simp only [height_node]; omega⟩))
          · simp only [height_node, Bool.toNat_false]
            omega
          · simp only [entries_node, List.append_assoc]
          · intro _ lo hi hcl hcr
            exact ⟨⟨hcl, hcr.1⟩, hcr.2⟩

theorem lowerLeft_spec (k : K) {l r : LeafTree τ D K V} {b : Int8} {lower : Bool} {h : ℕ}
    (hl : l.Balanced) (hr : r.Balanced) (hb : Tilt b h r.height)
    (hheight : l.height + lower.toNat = h) :
    ∃ t down visits, lowerLeft k l r b lower = some (t, down, visits)
      ∧ Rebalanced k l r (max h r.height + 1) 0 down.toNat t := by
  cases lower with
  | false =>
    simp only [Bool.toNat_false, Nat.add_zero] at hheight
    refine ⟨node none k l r b, false, [], by simp [lowerLeft], ?_⟩
    refine ⟨hl.node hr (by rwa [hheight]), ?_, rfl, fun lo hi hcl hcr => ⟨hcl, hcr⟩⟩
    simp only [height_node, Bool.toNat_false]
    omega
  | true =>
    simp only [Bool.toNat_true] at hheight
    rcases hb with ⟨rfl, heq⟩ | ⟨rfl, heq⟩ | ⟨rfl, heq⟩
    · refine ⟨node none k l r (-1 + 1), true, [], rfl, ?_⟩
      refine ⟨hl.node hr (.inr (.inl ⟨rfl, by omega⟩)), ?_, rfl, fun lo hi hcl hcr => ⟨hcl, hcr⟩⟩
      simp only [height_node, Bool.toNat_true]
      omega
    · refine ⟨node none k l r (0 + 1), false, [], rfl, ?_⟩
      refine ⟨hl.node hr (.inr (.inr ⟨rfl, by omega⟩)), ?_, rfl, fun lo hi hcl hcr => ⟨hcl, hcr⟩⟩
      simp only [height_node, Bool.toNat_false]
      omega
    · -- the right side is now higher by two: rotate
      obtain ⟨tr, kr, rl, rr, br, rfl⟩ := exists_node_of_height (t := r) (by omega)
      rw [balanced_node_iff] at hr
      obtain ⟨hrl, hrr, htilt⟩ := hr
      rw [height_node] at heq
      rcases htilt with ⟨rfl, hlt⟩ | ⟨rfl, hlt⟩ | ⟨rfl, hlt⟩
      · obtain ⟨t, ht, hbal, hh, hent, hchain⟩ :=
          doubleLeft_spec (k := k) (r := node tr kr rl rr (-1)) rfl hl hrl hrr (by omega) (by omega)
        refine ⟨t, true, tr.toList ++ rl.tags, ?_, ⟨hbal, ?_, hent, hchain⟩⟩
        · rw [lowerLeft, if_pos (by decide), if_pos (by decide), ht, Option.map_some]
        · simp only [Bool.toNat_true, height_node]
          omega
      · refine ⟨node none kr (node none k l rl (1 - 0)) rr (0 - 1), false, tr.toList, ?_, ?_⟩
        · rw [lowerLeft, if_pos (by decide), if_neg (by decide)]
          rfl
        · refine ⟨?_, ?_, ?_, ?_⟩
          · exact (hl.node hrl (.inr (.inr ⟨rfl, by omega⟩))).node hrr
              (.inl ⟨rfl, by simp only [height_node]; omega⟩)
          · simp only [height_node, Bool.toNat_false]
            omega
          · simp only [entries_node, List.append_assoc]
          · intro _ lo hi hcl hcr
            exact ⟨⟨hcl, hcr.1⟩, hcr.2⟩
      · refine ⟨node none kr (node none k l rl (1 - 1)) rr (1 - 1), true, tr.toList, ?_, ?_⟩
        · rw [lowerLeft, if_pos (by decide), if_neg (by decide)]
          rfl
        · refine ⟨?_, ?_, ?_, ?_⟩
          · exact (hl.node hrl (.inr (.inl ⟨rfl, by omega⟩))).node hrr
              (.inr (.inl ⟨rfl, by simp only [height_node]; omega⟩))
          · simp only [height_node, Bool.toNat_true]
            omega
          · simp only [entries_node, List.append_assoc]
          · intro _ lo hi hcl hcr
            exact ⟨⟨hcl, hcr.1⟩, hcr.2⟩

theorem lowerRight_spec (k : K) {l r : LeafTree τ D K V} {b : Int8} {lower : Bool} {h : ℕ}
    (hl : l.Balanced) (hr : r.Balanced) (hb : Tilt b l.height h)
    (hheight : r.height + lower.toNat = h) :
    ∃ t down visits, lowerRight k l r b lower = some (t, down, visits)
      ∧ Rebalanced k l r (max l.height h + 1) 0 down.toNat t := by
  cases lower with
  | false =>
    simp only [Bool.toNat_false, Nat.add_zero] at hheight
    refine ⟨node none k l r b, false, [], by simp [lowerRight], ?_⟩
    refine ⟨hl.node hr (by rwa [hheight]), ?_, rfl, fun lo hi hcl hcr => ⟨hcl, hcr⟩⟩
    simp only [height_node, Bool.toNat_false]
    omega
  | true =>
    simp only [Bool.toNat_true] at hheight
    rcases hb with ⟨rfl, heq⟩ | ⟨rfl, heq⟩ | ⟨rfl, heq⟩
    · -- the left side is now higher by two: rotate
      obtain ⟨tl, kl, ll, lr, bl, rfl⟩ := exists_node_of_height (t := l) (by omega)
      rw [balanced_node_iff] at hl
      obtain ⟨hll, hlr, htilt⟩ := hl
      rw [height_node] at heq
      rcases htilt with ⟨rfl, hlt⟩ | ⟨rfl, hlt⟩ | ⟨rfl, hlt⟩
      · refine ⟨node none kl ll (node none k lr r (- -1 - 1)) (1 + -1), true, tl.toList, ?_, ?_⟩
        · rw [lowerRight, if_pos (by decide), if_neg (by decide)]
          rfl
        · refine ⟨?_, ?_, ?_, ?_⟩
          · exact hll.node (hlr.node hr (.inr (.inl ⟨rfl, by omega⟩)))
              (.inr (.inl ⟨rfl, by simp only [height_node]; omega⟩))
          · simp only [height_node, Bool.toNat_true]
            omega
          · simp only [entries_node, List.append_assoc]
          · intro _ lo hi hcl hcr
            exact ⟨hcl.1, hcl.2, hcr⟩
      · refine ⟨node none kl ll (node none k lr r (-0 - 1)) (1 + 0), false, tl.toList, ?_, ?_⟩
        · rw [lowerRight, if_pos (by decide), if_neg (by decide)]
          rfl
        · refine ⟨?_, ?_, ?_, ?_⟩
          · exact hll.node (hlr.node hr (.inl ⟨rfl, by omega⟩))
              (.inr (.inr ⟨rfl, by simp only [height_node]; omega⟩))
          · simp only [height_node, Bool.toNat_false]
            omega
          · simp only [entries_node, List.append_assoc]
          · intro _ lo hi hcl hcr
            exact ⟨hcl.1, hcl.2, hcr⟩
      · obtain ⟨t, ht, hbal, hh, hent, hchain⟩ :=
          doubleRight_spec (k := k) (l := node tl kl ll lr 1) rfl hr hll hlr (by omega) (by omega)
        refine ⟨t, true, tl.toList ++ lr.tags, ?_, ⟨hbal, ?_, hent, hchain⟩⟩
        · rw [lowerRight, if_pos (by decide), if_pos (by decide), ht, Option.map_some]
        · simp only [Bool.toNat_true, height_node]
          omega
    · refine ⟨node none k l r (0 - 1), false, [], rfl, ?_⟩
      refine ⟨hl.node hr (.inl ⟨rfl, by omega⟩), ?_, rfl, fun lo hi hcl hcr => ⟨hcl, hcr⟩⟩
      simp only [height_node, Bool.toNat_false]
      omega
    · refine ⟨node none k l r (1 - 1), true, [], rfl, ?_⟩
      refine ⟨hl.node hr (.inr (.inl ⟨rfl, by omega⟩)), ?_, rfl, fun lo hi hcl hcr => ⟨hcl, hcr⟩⟩
      simp only [height_node, Bool.toNat_true]
      omega

/-! ## Changing a leaf -/

/-- The leaf at the end of a path. -/
def leafAt : LeafTree τ D K V → List Bool → Option (K × V × K)
  | leaf _ k v n, [] => some (k, v, n)
  | node _ _ l _ _, true :: path => leafAt l path
  | node _ _ _ r _, false :: path => leafAt r path
  | _, _ => none

/-- The bindings that an action leaves for the one of its leaf. -/
def Action.bindings (k : K) (v : V) : Action K V → List (K × V)
  | .keep => [(k, v)]
  | .update value => [(k, value)]
  | .insert key value => [(k, v), (key, value)]

/-- A new key lies within its leaf. -/
def Action.Fits [LinearOrder K] (k n : K) : Action K V → Prop
  | .insert key _ => k < key ∧ key < n
  | _ => True

theorem modifyAt_keep {t : LeafTree τ D K V} {path : List Bool} {e : K × V × K}
    (h : leafAt t path = some e) : modifyAt t path .keep = some (t, false, false) := by
  induction t generalizing path with
  | stub d => cases path <;> cases h
  | leaf tag k v n =>
    cases path with
    | nil => rfl
    | cons d path => cases h
  | node tag k l r b ihl ihr =>
    cases path with
    | nil => cases h
    | cons d path =>
      cases d with
      | true => rw [modifyAt, ihl h]; rfl
      | false => rw [modifyAt, ihr h]; rfl

/-- Keeping a leaf changes nothing. -/
theorem eq_of_modifyAt_keep {t : LeafTree τ D K V} {path : List Bool}
    {res : LeafTree τ D K V × Bool × Bool} (h : modifyAt t path .keep = some res) :
    res = (t, false, false) := by
  induction t generalizing path res with
  | stub d => cases path <;> cases h
  | leaf tag k v n =>
    cases path with
    | nil =>
      cases h
      rfl
    | cons d path => cases h
  | node tag k l r b ihl ihr =>
    cases path with
    | nil => cases h
    | cons d path =>
      cases d with
      | true =>
        rw [modifyAt] at h
        obtain ⟨res', hres', h⟩ := Option.bind_eq_some_iff.1 h
        rw [ihl hres'] at h
        cases h
        rfl
      | false =>
        rw [modifyAt] at h
        obtain ⟨res', hres', h⟩ := Option.bind_eq_some_iff.1 h
        rw [ihr hres'] at h
        cases h
        rfl

/-- A leaf changed, or split: the tree stays balanced, and a chain where the new key
fits; its bindings change in one place. -/
theorem modifyAt_spec {t : LeafTree τ D K V} {path : List Bool} {k : K} {v : V} {n : K}
    {act : Action K V} (hbal : t.Balanced) (hleaf : leafAt t path = some (k, v, n))
    (hact : act ≠ .keep) :
    ∃ t' up, modifyAt t path act = some (t', true, up) ∧ t'.Balanced
      ∧ t'.height = t.height + up.toNat ∧ (up = true → Grown t')
      ∧ (∃ pre post, t.entries = pre ++ (k, v) :: post
        ∧ t'.entries = pre ++ act.bindings k v ++ post)
      ∧ ∀ [LinearOrder K] (lo hi : K), act.Fits k n → Chain lo hi t → Chain lo hi t' := by
  induction t generalizing path with
  | stub d => cases path <;> cases hleaf
  | leaf tag k' v' n' =>
    cases path with
    | cons d path => cases hleaf
    | nil =>
      cases hleaf
      cases act with
      | keep => exact absurd rfl hact
      | update value =>
        refine ⟨_, _, rfl, trivial, rfl, fun h => (by cases h), ⟨[], [], rfl, rfl⟩, ?_⟩
        intro _ lo hi _ hchain
        exact hchain
      | insert key value =>
        refine ⟨_, _, rfl, ?_, rfl, fun _ => ⟨_, _, _, _, _, rfl, .inr rfl⟩, ⟨[], [], rfl, rfl⟩, ?_⟩
        · exact Balanced.node trivial trivial (.inr (.inl ⟨rfl, rfl⟩))
        · rintro _ lo hi ⟨hlt, hlt'⟩ ⟨rfl, rfl, _⟩
          exact ⟨⟨rfl, rfl, hlt⟩, rfl, rfl, hlt'⟩
  | node tag key l r b ihl ihr =>
    rw [balanced_node_iff] at hbal
    obtain ⟨hl, hr, hb⟩ := hbal
    cases path with
    | nil => cases hleaf
    | cons d path =>
      cases d with
      | true =>
        obtain ⟨l', up, hmod, hl', hheight, hgrown, ⟨pre, post, hent, hent'⟩, hchain⟩ :=
          ihl hl hleaf
        obtain ⟨t', up', hraise, hre, hgrown'⟩ := raiseLeft_spec key hl' hr hb hheight hgrown
        refine ⟨t', up', ?_, hre.balanced, hre.height, hgrown',
          ⟨pre, post ++ r.entries, ?_, ?_⟩, ?_⟩
        · rw [modifyAt, hmod, Option.bind_some, if_pos rfl, hraise]
          rfl
        · rw [entries_node, hent, List.append_assoc, List.cons_append]
        · rw [hre.entries, hent', List.append_assoc]
        · intro _ lo hi hfits hc
          exact hre.chain lo hi (hchain lo key hfits hc.1) hc.2
      | false =>
        obtain ⟨r', up, hmod, hr', hheight, hgrown, ⟨pre, post, hent, hent'⟩, hchain⟩ :=
          ihr hr hleaf
        obtain ⟨t', up', hraise, hre, hgrown'⟩ := raiseRight_spec key hl hr' hb hheight hgrown
        refine ⟨t', up', ?_, hre.balanced, hre.height, hgrown',
          ⟨l.entries ++ pre, post, ?_, ?_⟩, ?_⟩
        · rw [modifyAt, hmod, Option.bind_some, if_pos rfl, hraise]
          rfl
        · rw [entries_node, hent, List.append_assoc]
        · rw [hre.entries, hent', List.append_assoc, List.append_assoc, List.append_assoc]
        · intro _ lo hi hfits hc
          exact hre.chain lo hi hc.1 (hchain key hi hfits hc.2)

/-- What a change below the left child makes of the root. -/
theorem modifyAt_left {tag : Option τ} {k : K} {l r t' : LeafTree τ D K V} {b : Int8}
    {path : List Bool} {act : Action K V} {changed up : Bool}
    (h : modifyAt (node tag k l r b) (true :: path) act = some (t', changed, up)) :
    ∃ l' up', modifyAt l path act = some (l', changed, up')
      ∧ if changed then raiseLeft k l' r b up' = some (t', up)
        else t' = node tag k l r b ∧ up = false := by
  rw [modifyAt] at h
  obtain ⟨⟨l', changed', up'⟩, hres, h⟩ := Option.bind_eq_some_iff.1 h
  cases changed' with
  | true =>
    obtain ⟨⟨t₁, up₁⟩, hraise, heq⟩ := Option.map_eq_some_iff.1 h
    cases heq
    exact ⟨l', up', hres, hraise⟩
  | false =>
    cases h
    exact ⟨l', up', hres, rfl, rfl⟩

/-- What a change below the right child makes of the root. -/
theorem modifyAt_right {tag : Option τ} {k : K} {l r t' : LeafTree τ D K V} {b : Int8}
    {path : List Bool} {act : Action K V} {changed up : Bool}
    (h : modifyAt (node tag k l r b) (false :: path) act = some (t', changed, up)) :
    ∃ r' up', modifyAt r path act = some (r', changed, up')
      ∧ if changed then raiseRight k l r' b up' = some (t', up)
        else t' = node tag k l r b ∧ up = false := by
  rw [modifyAt] at h
  obtain ⟨⟨r', changed', up'⟩, hres, h⟩ := Option.bind_eq_some_iff.1 h
  cases changed' with
  | true =>
    obtain ⟨⟨t₁, up₁⟩, hraise, heq⟩ := Option.map_eq_some_iff.1 h
    cases heq
    exact ⟨r', up', hres, hraise⟩
  | false =>
    cases h
    exact ⟨r', up', hres, rfl, rfl⟩

/-- A tree is not changed when it says so. -/
theorem eq_of_unchanged {t t' : LeafTree τ D K V} {path : List Bool} {act : Action K V} {up : Bool}
    (h : modifyAt t path act = some (t', false, up)) : t' = t ∧ up = false := by
  induction t generalizing path t' up with
  | stub d => cases path <;> cases h
  | leaf tag k v n =>
    cases path with
    | nil =>
      cases act with
      | keep =>
        cases h
        exact ⟨rfl, rfl⟩
      | update value => cases h
      | insert key value => cases h
    | cons d path => cases h
  | node tag k l r b ihl ihr =>
    cases path with
    | nil => cases h
    | cons d path =>
      cases d with
      | true =>
        obtain ⟨_, _, _, heq, hup⟩ := modifyAt_left h
        exact ⟨heq, hup⟩
      | false =>
        obtain ⟨_, _, _, heq, hup⟩ := modifyAt_right h
        exact ⟨heq, hup⟩

/-- A way along which a tree can be changed ends at a leaf. -/
theorem leafAt_of_modifyAt {t t' : LeafTree τ D K V} {path : List Bool} {act : Action K V}
    {changed up : Bool} (h : modifyAt t path act = some (t', changed, up)) :
    ∃ e, leafAt t path = some e := by
  induction t generalizing path t' changed up with
  | stub d => cases path <;> cases h
  | leaf tag k v n =>
    cases path with
    | nil => exact ⟨_, rfl⟩
    | cons d path => cases h
  | node tag k l r b ihl ihr =>
    cases path with
    | nil => cases h
    | cons d path =>
      cases d with
      | true =>
        obtain ⟨_, _, hl, _⟩ := modifyAt_left h
        exact ihl hl
      | false =>
        obtain ⟨_, _, hr, _⟩ := modifyAt_right h
        exact ihr hr

/-- A changed tree is balanced, and as high as it says. -/
theorem modifyAt_balanced {t t' : LeafTree τ D K V} {path : List Bool} {act : Action K V}
    {changed up : Bool} (hbal : t.Balanced) (h : modifyAt t path act = some (t', changed, up)) :
    t'.Balanced ∧ t'.height = t.height + up.toNat := by
  by_cases hact : act = .keep
  · subst hact
    cases eq_of_modifyAt_keep h
    exact ⟨hbal, rfl⟩
  · obtain ⟨⟨k, v, n⟩, hleaf⟩ := leafAt_of_modifyAt h
    obtain ⟨t₁, up₁, h₁, hbal₁, hheight, _⟩ := modifyAt_spec hbal hleaf hact
    rw [h₁] at h
    cases h
    exact ⟨hbal₁, hheight⟩

/-- The heavier sides of the tree lead down to a leaf that was split. -/
def Sprout : LeafTree τ D K V → Prop
  | node _ _ l r b =>
      b = 0 ∧ l.isLeaf = true ∧ r.isLeaf = true ∨ b = -1 ∧ Sprout l ∨ b = 1 ∧ Sprout r
  | _ => False

theorem height_of_isLeaf {t : LeafTree τ D K V} (h : t.isLeaf = true) : t.height = 0 := by
  cases t with
  | stub d => rfl
  | leaf tag k v n => rfl
  | node tag k l r b => cases h

theorem Sprout.grown {t : LeafTree τ D K V} (h : t.Sprout) : Grown t := by
  cases t with
  | stub d => exact h.elim
  | leaf tag k v n => exact h.elim
  | node tag k l r b =>
    refine ⟨tag, k, l, r, b, rfl, ?_⟩
    rcases h with ⟨_, hl, hr⟩ | ⟨rfl, _⟩ | ⟨rfl, _⟩
    · right
      rw [height_node, height_of_isLeaf hl, height_of_isLeaf hr, max_self]
    · exact .inl (by decide)
    · exact .inl (by decide)

theorem raiseLeft_up {k : K} {l r t : LeafTree τ D K V} {b : Int8} {higher : Bool}
    (h : raiseLeft k l r b higher = some (t, true)) :
    higher = true ∧ b = 0 ∧ t = node none k l r (-1) := by
  unfold raiseLeft at h
  split at h
  · cases l with
    | stub d => cases h
    | leaf tag k v n => cases h
    | node tag kl ll lr bl =>
      simp only at h
      split at h
      · cases h
      · obtain ⟨_, _, heq⟩ := Option.map_eq_some_iff.1 h
        cases heq
  · simp only [Option.some.injEq, Prod.mk.injEq, Bool.and_eq_true, beq_iff_eq] at h
    obtain ⟨ht, rfl, rfl⟩ := h
    exact ⟨rfl, rfl, ht.symm⟩

theorem raiseRight_up {k : K} {l r t : LeafTree τ D K V} {b : Int8} {higher : Bool}
    (h : raiseRight k l r b higher = some (t, true)) :
    higher = true ∧ b = 0 ∧ t = node none k l r 1 := by
  unfold raiseRight at h
  split at h
  · cases r with
    | stub d => cases h
    | leaf tag k v n => cases h
    | node tag kr rl rr br =>
      simp only at h
      split at h
      · cases h
      · obtain ⟨_, _, heq⟩ := Option.map_eq_some_iff.1 h
        cases heq
  · simp only [Option.some.injEq, Prod.mk.injEq, Bool.and_eq_true, beq_iff_eq] at h
    obtain ⟨ht, rfl, rfl⟩ := h
    exact ⟨rfl, rfl, ht.symm⟩

/-- A tree that has no balance to restore gets higher along its heavier sides. -/
theorem modifyAt_sprout {t t' : LeafTree τ D K V} {path : List Bool} {act : Action K V}
    {changed : Bool} (h : modifyAt t path act = some (t', changed, true)) : t'.Sprout := by
  induction t generalizing path t' changed with
  | stub d => cases path <;> cases h
  | leaf tag k v n =>
    cases path with
    | nil =>
      cases act with
      | keep => cases h
      | update value => cases h
      | insert key value =>
        cases h
        exact .inl ⟨rfl, rfl, rfl⟩
    | cons d path => cases h
  | node tag k l r b ihl ihr =>
    cases path with
    | nil => cases h
    | cons d path =>
      cases d with
      | true =>
        obtain ⟨l', up', hl, h⟩ := modifyAt_left h
        cases changed with
        | false => exact absurd h.2 (by simp)
        | true =>
          obtain ⟨rfl, rfl, rfl⟩ := raiseLeft_up h
          exact .inr (.inl ⟨rfl, ihl hl⟩)
      | false =>
        obtain ⟨r', up', hr, h⟩ := modifyAt_right h
        cases changed with
        | false => exact absurd h.2 (by simp)
        | true =>
          obtain ⟨rfl, rfl, rfl⟩ := raiseRight_up h
          exact .inr (.inr ⟨rfl, ihr hr⟩)

/-! ## Removing a leaf -/

section

variable [LinearOrder K] {lo hi : K}

theorem setLastNext_spec {t : LeafTree τ D K V} (hchain : Chain lo hi t) (hbal : t.Balanced) {n : K}
    (hn : hi ≤ n) :
    ∃ t' visits, setLastNext t n = some (t', visits) ∧ t'.Balanced ∧ t'.height = t.height
      ∧ t'.entries = t.entries ∧ Chain lo n t' := by
  induction t generalizing lo hi with
  | stub d => exact hchain.elim
  | leaf tag k v n' =>
    obtain ⟨rfl, rfl, hlt⟩ := hchain
    exact ⟨_, _, rfl, trivial, rfl, rfl, rfl, rfl, hlt.trans_le hn⟩
  | node tag k l r b _ ihr =>
    obtain ⟨r', visits, hset, hr', hh, hent, hc⟩ := ihr hchain.2 hbal.2.1 hn
    refine ⟨node none k l r' b, tag.toList ++ visits, by rw [setLastNext, hset]; rfl, ?_, ?_, ?_,
      hchain.1, hc⟩
    · exact hbal.1.node hr' (by rw [hh]; exact hbal.2.2)
    · rw [height_node, height_node, hh]
    · rw [entries_node, entries_node, hent]

theorem setFirst_spec {t : LeafTree τ D K V} (hchain : Chain lo hi t) (hbal : t.Balanced) {k : K}
    (hk : k ≤ lo) (v : V) :
    ∃ t' visits, setFirst t k v = some (t', visits) ∧ t'.Balanced ∧ t'.height = t.height
      ∧ (∀ v₀ rest, t.entries = (lo, v₀) :: rest → t'.entries = (k, v) :: rest)
      ∧ Chain k hi t' := by
  induction t generalizing lo hi with
  | stub d => exact hchain.elim
  | leaf tag k' v' n' =>
    obtain ⟨rfl, rfl, hlt⟩ := hchain
    refine ⟨_, _, rfl, trivial, rfl, ?_, rfl, rfl, hk.trans_lt hlt⟩
    intro v₀ rest h
    rw [entries_leaf, List.cons.injEq] at h
    rw [entries_leaf, h.2]
  | node tag k' l r b ihl _ =>
    obtain ⟨l', visits, hset, hl', hh, hent, hc⟩ := ihl hchain.1 hbal.1 hk
    refine ⟨node none k' l' r b, tag.toList ++ visits, by rw [setFirst, hset]; rfl, ?_, ?_, ?_,
      hc, hchain.2⟩
    · exact hl'.node hbal.2.1 (by rw [hh]; exact hbal.2.2)
    · rw [height_node, height_node, hh]
    · intro v₀ rest h
      obtain ⟨w, rest', hl⟩ := hchain.1.entries_eq_cons
      rw [entries_node, hl, List.cons_append, List.cons.injEq] at h
      rw [entries_node, hent w rest' hl, List.cons_append, h.2]

theorem removeMax_spec {t : LeafTree τ D K V} (hchain : Chain lo hi t) (hbal : t.Balanced)
    (hnode : t.isNode = true) :
    ∃ t' down s visits, removeMax t = some (t', down, s, visits) ∧ t'.Balanced
      ∧ t'.height + down.toNat = t.height ∧ t.entries = t'.entries ++ [s] ∧ Chain lo s.1 t' := by
  induction t generalizing lo hi with
  | stub d => cases hnode
  | leaf tag k v n => cases hnode
  | node tag k l r b _ ihr =>
    obtain ⟨hl, hr, hb⟩ := balanced_node_iff.1 hbal
    cases r with
    | stub d => exact hchain.2.elim
    | leaf tr kr vr nr =>
      refine ⟨l, true, (kr, vr), _, rfl, hl, ?_, rfl, ?_⟩
      · simp only [height_leaf, height_node, Bool.toNat_true]
        omega
      · obtain ⟨rfl, _, _⟩ := hchain.2
        exact hchain.1
    | node tr kr rl rr br =>
      obtain ⟨r', down, s, visits, hrem, hr', hh, hent, hc⟩ := ihr hchain.2 hr rfl
      obtain ⟨t', down', visits', hlow, hre⟩ := lowerRight_spec k hl hr' hb hh
      refine ⟨t', down', s, tag.toList ++ visits ++ visits', ?_, hre.balanced, hre.height, ?_,
        hre.chain lo s.1 hchain.1 hc⟩
      · rw [removeMax, hrem, Option.bind_some, hlow]
        rfl
      · rw [entries_node, hent, hre.entries, List.append_assoc]

/-- The comparisons of a key with the inner nodes on its search path, up to the
first equal one. -/
def cmpPath (key : K) : LeafTree τ D K V → List Ordering
  | node _ k l r _ =>
      if key < k then .lt :: cmpPath key l else if key = k then [.eq] else .gt :: cmpPath key r
  | _ => []

/-- A leaf removed: the tree stays a balanced chain, and one binding is gone. -/
theorem deleteAt_spec {t : LeafTree τ D K V} (hchain : Chain lo hi t) (hbal : t.Balanced) {key : K}
    (hlo : lo < key) {v : V} (hmem : (key, v) ∈ t.entries) (more : List Ordering) :
    ∃ t' down visits, deleteAt t (cmpPath key t ++ more) = some (t', down, visits)
      ∧ t'.Balanced ∧ t'.height + down.toNat = t.height
      ∧ (∃ pre post, t.entries = pre ++ (key, v) :: post ∧ t'.entries = pre ++ post)
      ∧ Chain lo hi t' := by
  induction t generalizing lo hi with
  | stub d => exact hchain.elim
  | leaf tag k w n =>
    rw [entries_leaf, List.mem_singleton] at hmem
    cases hmem
    exact absurd hchain.1.symm hlo.ne
  | node tag k l r b ihl ihr =>
    obtain ⟨hl, hr, hb⟩ := balanced_node_iff.1 hbal
    have hside := List.mem_append.1 hmem
    rcases lt_trichotomy key k with hlt | rfl | hgt
    · -- the binding is on the left
      have hin : (key, v) ∈ l.entries := by
        rcases hside with h | h
        · exact h
        · exact absurd (hchain.2.mem_entries h).1 (not_le.2 hlt)
      have hnode : l.isNode = true := by
        cases l with
        | stub d => exact hchain.1.elim
        | leaf tl kl vl nl =>
          rw [entries_leaf, List.mem_singleton] at hin
          cases hin
          exact absurd hchain.1.1.symm hlo.ne
        | node tl kl ll lr bl => rfl
      obtain ⟨l', down, visits, hdel, hl', hh, ⟨pre, post, hent, hent'⟩, hc⟩ :=
        ihl hchain.1 hl hlo hin
      obtain ⟨t', down', visits', hlow, hre⟩ := lowerLeft_spec k hl' hr hb hh
      refine ⟨t', down', tag.toList ++ visits ++ visits', ?_, hre.balanced, hre.height,
        ⟨pre, post ++ r.entries, ?_, ?_⟩, hre.chain lo hi hc hchain.2⟩
      · rw [cmpPath, if_pos hlt, List.cons_append, deleteAt, if_pos hnode, hdel, Option.bind_some,
          hlow]
        rfl
      · rw [entries_node, hent, List.append_assoc, List.cons_append]
      · rw [hre.entries, hent', List.append_assoc]
    · -- the binding is the first one on the right
      obtain ⟨w, rest, hfirst⟩ := hchain.2.entries_eq_cons
      have hw : w = v := by
        have hsorted := hchain.sorted
        rw [entries_node, hfirst] at hsorted
        rcases hside with h | h
        · exact absurd (hchain.1.mem_entries h).2 (lt_irrefl key)
        · rw [hfirst] at h
          rcases List.mem_cons.1 h with h | h
          · exact (congrArg Prod.snd h).symm
          · have := (List.pairwise_cons.1 (List.pairwise_append.1 hsorted).2.1).1 _ h
            exact absurd this (lt_irrefl key)
      subst hw
      rw [cmpPath, if_neg (lt_irrefl key), if_pos rfl, List.cons_append]
      by_cases hrleaf : r.isLeaf = true
      · -- the right child is the leaf: drop it, and link the last leaf on the left
        cases r with
        | stub d => cases hrleaf
        | node tr kr rl rr br => cases hrleaf
        | leaf tr kr vr nr =>
          obtain ⟨rfl, rfl, hlt⟩ := hchain.2
          obtain ⟨l', visits, hset, hl', hh, hent, hc⟩ := setLastNext_spec hchain.1 hl hlt.le
          refine ⟨l', true, tag.toList ++ tr.toList ++ visits, ?_, hl', ?_, ⟨l.entries, [], ?_, ?_⟩,
            hc⟩
          · rw [deleteAt, deleteRoot, hset]
            rfl
          · simp only [height_leaf, height_node, Bool.toNat_true, hh]
            omega
          · rw [entries_node, hfirst]
            rw [entries_leaf, List.cons.injEq] at hfirst
            rw [hfirst.2]
          · rw [hent, List.append_nil]
      · cases hlcase : l with
        | stub d =>
          subst hlcase
          exact hchain.1.elim
        | leaf tl kl vl nl =>
          -- the left child is a leaf: copy it over the removed one
          subst hlcase
          obtain ⟨rfl, rfl, hlt⟩ := hchain.1
          obtain ⟨r', visits, hset, hr', hh, hent, hc⟩ := setFirst_spec hchain.2 hr hlt.le vl
          refine ⟨r', true, tag.toList ++ tl.toList ++ visits, ?_, hr', ?_,
            ⟨[(kl, vl)], rest, ?_, ?_⟩, hc⟩
          · cases r with
            | stub d => exact hchain.2.elim
            | leaf tr kr vr nr => exact absurd rfl hrleaf
            | node tr kr rl rr br =>
              rw [deleteAt, deleteRoot, hset]
              rfl
          · simp only [height_leaf, height_node, Bool.toNat_true, hh]
            omega
          · rw [entries_node, entries_leaf, hfirst]
          · rw [hent w rest hfirst]
            rfl
        | node tl kl ll lr bl =>
          -- the last leaf on the left takes the place of the removed one
          obtain ⟨l', down, s, visits, hrem, hl', hh, hent, hc⟩ :=
            removeMax_spec hchain.1 hl (by rw [hlcase]; rfl)
          have hs : s.1 < key := by
            have hmem' : s ∈ l.entries := by rw [hent]; simp
            exact (hchain.1.mem_entries hmem').2
          obtain ⟨r', visits', hset, hr', hh', hent', hc'⟩ := setFirst_spec hchain.2 hr hs.le s.2
          obtain ⟨t', down', visits'', hlow, hre⟩ :=
            lowerLeft_spec s.1 hl' hr' (by rw [hh']; exact hb) hh
          refine ⟨t', down', tag.toList ++ visits ++ visits' ++ visits'', ?_, hre.balanced, ?_,
            ⟨l.entries, rest, ?_, ?_⟩, hre.chain lo hi hc hc'⟩
          · cases r with
            | stub d => exact hchain.2.elim
            | leaf tr kr vr nr => exact absurd rfl hrleaf
            | node tr kr rl rr br =>
              rw [hlcase] at hrem
              rw [deleteAt, deleteRoot, hrem, Option.bind_some, hset, Option.bind_some, hlow]
              rfl
          · rw [← hlcase, hre.height, hh']
            rfl
          · rw [← hlcase, entries_node, hfirst]
          · rw [hre.entries, hent' w rest hfirst, hent, List.append_assoc]
            rfl
    · -- the binding is on the right
      have hin : (key, v) ∈ r.entries := by
        rcases hside with h | h
        · exact absurd (hchain.1.mem_entries h).2 (not_lt.2 hgt.le)
        · exact h
      have hnode : r.isNode = true := by
        cases r with
        | stub d => exact hchain.2.elim
        | leaf tr kr vr nr =>
          rw [entries_leaf, List.mem_singleton] at hin
          cases hin
          exact absurd hchain.2.1.symm hgt.ne
        | node tr kr rl rr br => rfl
      obtain ⟨r', down, visits, hdel, hr', hh, ⟨pre, post, hent, hent'⟩, hc⟩ :=
        ihr hchain.2 hr hgt hin
      obtain ⟨t', down', visits', hlow, hre⟩ := lowerRight_spec k hl hr' hb hh
      refine ⟨t', down', tag.toList ++ visits ++ visits', ?_, hre.balanced, hre.height,
        ⟨l.entries ++ pre, post, ?_, ?_⟩, hre.chain lo hi hchain.1 hc⟩
      · rw [cmpPath, if_neg (not_lt.2 hgt.le), if_neg hgt.ne', List.cons_append, deleteAt,
          if_pos hnode, hdel, Option.bind_some, hlow]
        rfl
      · rw [entries_node, hent, List.append_assoc]
      · rw [hre.entries, hent', List.append_assoc]

end

end Sparkz.Lib.LeafTree
