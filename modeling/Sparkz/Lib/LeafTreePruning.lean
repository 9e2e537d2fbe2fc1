import Sparkz.Lib.LeafTree

/-!
# Pruned leaf-oriented trees

A pruned tree has stubs in place of some subtrees.  An operation that succeeds on a
pruned tree does the same on the full one; and an operation that succeeds on the full
tree does the same on the pruned one, as long as the nodes it visits were kept.

* `Pruned` — one tree is another one with stubs in place of `hid`den subtrees.
* `Pruned.modifyAt`, `Pruned.deleteAt` — from the pruned tree to the full one.
* `Pruned.modifyAt_kept`, `Pruned.deleteAt_kept` — from the full tree to the one in
  which the subtrees below nodes not `seen` are hidden.
* `allTags` — the tags of a tree; operations visit tagged nodes of the tree only, and
  bring in no tag.
-/

namespace Sparkz.Lib.LeafTree

variable {τ D K V : Type}

/-- `Pruned label hid s t`: the tree `s` is `t` with stubs, carrying the label, in
place of some subtrees, all of them `hid`. -/
inductive Pruned (label : LeafTree τ D K V → D) (hid : LeafTree τ D K V → Prop) :
    LeafTree τ D K V → LeafTree τ D K V → Prop
  | cut {t : LeafTree τ D K V} : hid t → Pruned label hid (stub (label t)) t
  | leaf (tag : Option τ) (k : K) (v : V) (n : K) :
      Pruned label hid (leaf tag k v n) (leaf tag k v n)
  | node (tag : Option τ) (k : K) {l l' r r' : LeafTree τ D K V} (b : Int8) :
      Pruned label hid l l' → Pruned label hid r r' →
      Pruned label hid (node tag k l r b) (node tag k l' r' b)

/-! ## From the pruned tree to the full one -/

section

variable {label : LeafTree τ D K V → D} {hid : LeafTree τ D K V → Prop}
  {s t sl tl sr tr : LeafTree τ D K V}

theorem Pruned.tags_eq_of_node {tag : Option τ} {k : K} {l r : LeafTree τ D K V} {b : Int8}
    (h : Pruned label hid (LeafTree.node tag k l r b) t) :
    ∃ l' r', t = LeafTree.node tag k l' r' b ∧ Pruned label hid l l' ∧ Pruned label hid r r' := by
  cases h with
  | node tag k b hl hr => exact ⟨_, _, rfl, hl, hr⟩

theorem Pruned.doubleLeft {k : K} (hl : Pruned label hid sl tl) (hr : Pruned label hid sr tr)
    (h : LeafTree.doubleLeft k sl sr = some s) :
    ∃ t, LeafTree.doubleLeft k tl tr = some t ∧ Pruned label hid s t := by
  unfold LeafTree.doubleLeft at h
  split at h
  · obtain ⟨rl', rr', rfl, hrl, hrr⟩ := hr.tags_eq_of_node
    obtain ⟨ml', mr', rfl, hml, hmr⟩ := hrl.tags_eq_of_node
    obtain ⟨b, hb, rfl⟩ := Option.map_eq_some_iff.1 h
    exact ⟨_, by rw [LeafTree.doubleLeft, hb, Option.map_some],
      .node _ _ _ (.node _ _ _ hl hml) (.node _ _ _ hmr hrr)⟩
  · cases h

theorem Pruned.doubleRight {k : K} (hl : Pruned label hid sl tl) (hr : Pruned label hid sr tr)
    (h : LeafTree.doubleRight k sl sr = some s) :
    ∃ t, LeafTree.doubleRight k tl tr = some t ∧ Pruned label hid s t := by
  unfold LeafTree.doubleRight at h
  split at h
  · obtain ⟨ll', lr', rfl, hll, hlr⟩ := hl.tags_eq_of_node
    obtain ⟨ml', mr', rfl, hml, hmr⟩ := hlr.tags_eq_of_node
    obtain ⟨b, hb, rfl⟩ := Option.map_eq_some_iff.1 h
    exact ⟨_, by rw [LeafTree.doubleRight, hb, Option.map_some],
      .node _ _ _ (.node _ _ _ hll hml) (.node _ _ _ hmr hr)⟩
  · cases h

theorem Pruned.raiseLeft {k : K} {b : Int8} {higher up : Bool} (hl : Pruned label hid sl tl)
    (hr : Pruned label hid sr tr) (h : LeafTree.raiseLeft k sl sr b higher = some (s, up)) :
    ∃ t, LeafTree.raiseLeft k tl tr b higher = some (t, up) ∧ Pruned label hid s t := by
  unfold LeafTree.raiseLeft at h ⊢
  split at h
  · rename_i hrot
    rw [if_pos hrot]
    split at h
    · obtain ⟨ll', lr', rfl, hll, hlr⟩ := hl.tags_eq_of_node
      split at h
      · rename_i hbl
        cases h
        simp only [if_pos hbl]
        exact ⟨_, rfl, .node _ _ _ hll (.node _ _ _ hlr hr)⟩
      · rename_i hbl
        obtain ⟨s', hs', heq⟩ := Option.map_eq_some_iff.1 h
        cases heq
        obtain ⟨t, ht, hp⟩ := hl.doubleRight hr hs'
        simp only [if_neg hbl]
        exact ⟨t, by rw [ht, Option.map_some], hp⟩
    · cases h
  · rename_i hrot
    cases h
    rw [if_neg hrot]
    exact ⟨_, rfl, .node _ _ _ hl hr⟩

theorem Pruned.raiseRight {k : K} {b : Int8} {higher up : Bool} (hl : Pruned label hid sl tl)
    (hr : Pruned label hid sr tr) (h : LeafTree.raiseRight k sl sr b higher = some (s, up)) :
    ∃ t, LeafTree.raiseRight k tl tr b higher = some (t, up) ∧ Pruned label hid s t := by
  unfold LeafTree.raiseRight at h ⊢
  split at h
  · rename_i hrot
    rw [if_pos hrot]
    split at h
    · obtain ⟨rl', rr', rfl, hrl, hrr⟩ := hr.tags_eq_of_node
      split at h
      · rename_i hbr
        cases h
        simp only [if_pos hbr]
        exact ⟨_, rfl, .node _ _ _ (.node _ _ _ hl hrl) hrr⟩
      · rename_i hbr
        obtain ⟨s', hs', heq⟩ := Option.map_eq_some_iff.1 h
        cases heq
        obtain ⟨t, ht, hp⟩ := hl.doubleLeft hr hs'
        simp only [if_neg hbr]
        exact ⟨t, by rw [ht, Option.map_some], hp⟩
    · cases h
  · rename_i hrot
    cases h
    rw [if_neg hrot]
    exact ⟨_, rfl, .node _ _ _ hl hr⟩

/-- The middle of a double left rotation is an inner node. -/
theorem doubleLeft_middle {k : K} {l r : LeafTree τ D K V} (h : LeafTree.doubleLeft k l r = some s)
    {tag : Option τ} {kr : K} {rl rr : LeafTree τ D K V} {br : Int8}
    (hr : r = LeafTree.node tag kr rl rr br) : rl.isNode = true := by
  subst hr
  cases rl with
  | stub d => cases h
  | leaf t k v n => cases h
  | node t k l r b => rfl

/-- The middle of a double right rotation is an inner node. -/
theorem doubleRight_middle {k : K} {l r : LeafTree τ D K V}
    (h : LeafTree.doubleRight k l r = some s) {tag : Option τ} {kl : K}
    {ll lr : LeafTree τ D K V} {bl : Int8} (hl : l = LeafTree.node tag kl ll lr bl) :
    lr.isNode = true := by
  subst hl
  cases lr with
  | stub d => cases h
  | leaf t k v n => cases h
  | node t k l r b => rfl

theorem Pruned.tags_eq (h : Pruned label hid s t) (hs : s.isNode = true) : s.tags = t.tags := by
  cases h with
  | cut h => cases hs
  | leaf => rfl
  | node => rfl

theorem Pruned.lowerLeft {k : K} {b : Int8} {lower down : Bool} {visits : List τ}
    (hl : Pruned label hid sl tl) (hr : Pruned label hid sr tr)
    (h : LeafTree.lowerLeft k sl sr b lower = some (s, down, visits)) :
    ∃ t, LeafTree.lowerLeft k tl tr b lower = some (t, down, visits) ∧ Pruned label hid s t := by
  unfold LeafTree.lowerLeft at h ⊢
  split at h
  · rename_i hrot
    rw [if_pos hrot]
    split at h
    · obtain ⟨rl', rr', rfl, hrl, hrr⟩ := hr.tags_eq_of_node
      split at h
      · rename_i hbr
        obtain ⟨s', hs', heq⟩ := Option.map_eq_some_iff.1 h
        cases heq
        obtain ⟨t, ht, hp⟩ := hl.doubleLeft hr hs'
        simp only [if_pos hbr]
        exact ⟨t, by rw [ht, Option.map_some, hrl.tags_eq (doubleLeft_middle hs' rfl)], hp⟩
      · rename_i hbr
        cases h
        simp only [if_neg hbr]
        exact ⟨_, rfl, .node _ _ _ (.node _ _ _ hl hrl) hrr⟩
    · cases h
  · rename_i hrot
    cases h
    rw [if_neg hrot]
    exact ⟨_, rfl, .node _ _ _ hl hr⟩

theorem Pruned.lowerRight {k : K} {b : Int8} {lower down : Bool} {visits : List τ}
    (hl : Pruned label hid sl tl) (hr : Pruned label hid sr tr)
    (h : LeafTree.lowerRight k sl sr b lower = some (s, down, visits)) :
    ∃ t, LeafTree.lowerRight k tl tr b lower = some (t, down, visits) ∧ Pruned label hid s t := by
  unfold LeafTree.lowerRight at h ⊢
  split at h
  · rename_i hrot
    rw [if_pos hrot]
    split at h
    · obtain ⟨ll', lr', rfl, hll, hlr⟩ := hl.tags_eq_of_node
      split at h
      · rename_i hbl
        obtain ⟨s', hs', heq⟩ := Option.map_eq_some_iff.1 h
        cases heq
        obtain ⟨t, ht, hp⟩ := hl.doubleRight hr hs'
        simp only [if_pos hbl]
        exact ⟨t, by rw [ht, Option.map_some, hlr.tags_eq (doubleRight_middle hs' rfl)], hp⟩
      · rename_i hbl
        cases h
        simp only [if_neg hbl]
        exact ⟨_, rfl, .node _ _ _ hll (.node _ _ _ hlr hr)⟩
    · cases h
  · rename_i hrot
    cases h
    rw [if_neg hrot]
    exact ⟨_, rfl, .node _ _ _ hl hr⟩

/-- **A change made on a pruned tree** is made on the full tree alike, along the same
nodes, and the results are related in the same way. -/
theorem Pruned.modifyAt {path : List Bool} {act : Action K V} {changed up : Bool}
    {s' : LeafTree τ D K V} (hp : Pruned label hid s t)
    (h : LeafTree.modifyAt s path act = some (s', changed, up)) :
    pathTags s path = pathTags t path
    ∧ ∃ t', LeafTree.modifyAt t path act = some (t', changed, up) ∧ Pruned label hid s' t' := by
  induction hp generalizing path s' changed up with
  | cut _ => cases path <;> cases h
  | leaf tag k v n =>
    refine ⟨rfl, s', h, ?_⟩
    cases path with
    | cons d path => cases h
    | nil =>
      cases act with
      | keep => cases h; exact .leaf _ _ _ _
      | update value => cases h; exact .leaf _ _ _ _
      | insert key value => cases h; exact .node _ _ _ (.leaf _ _ _ _) (.leaf _ _ _ _)
  | @node tag k l l' r r' b hl hr ihl ihr =>
    cases path with
    | nil => cases h
    | cons d path =>
      cases d with
      | true =>
        rw [LeafTree.modifyAt] at h ⊢
        obtain ⟨⟨sl', ch, hi⟩, hmod, h⟩ := Option.bind_eq_some_iff.1 h
        obtain ⟨htags, tl', htmod, hp'⟩ := ihl hmod
        refine ⟨by rw [pathTags, pathTags, htags], ?_⟩
        rw [htmod, Option.bind_some]
        cases ch with
        | false =>
          cases h
          exact ⟨_, rfl, .node _ _ _ hl hr⟩
        | true =>
          simp only [if_true] at h ⊢
          obtain ⟨⟨x, up'⟩, hraise, heq⟩ := Option.map_eq_some_iff.1 h
          cases heq
          obtain ⟨y, hy, hxy⟩ := hp'.raiseLeft hr hraise
          exact ⟨y, by rw [hy, Option.map_some], hxy⟩
      | false =>
        rw [LeafTree.modifyAt] at h ⊢
        obtain ⟨⟨sr', ch, hi⟩, hmod, h⟩ := Option.bind_eq_some_iff.1 h
        obtain ⟨htags, tr', htmod, hp'⟩ := ihr hmod
        refine ⟨by rw [pathTags, pathTags, htags], ?_⟩
        rw [htmod, Option.bind_some]
        cases ch with
        | false =>
          cases h
          exact ⟨_, rfl, .node _ _ _ hl hr⟩
        | true =>
          simp only [if_true] at h ⊢
          obtain ⟨⟨x, up'⟩, hraise, heq⟩ := Option.map_eq_some_iff.1 h
          cases heq
          obtain ⟨y, hy, hxy⟩ := hl.raiseRight hp' hraise
          exact ⟨y, by rw [hy, Option.map_some], hxy⟩

theorem Pruned.setLastNext {n : K} {visits : List τ} {s' : LeafTree τ D K V}
    (hp : Pruned label hid s t) (h : LeafTree.setLastNext s n = some (s', visits)) :
    ∃ t', LeafTree.setLastNext t n = some (t', visits) ∧ Pruned label hid s' t' := by
  induction hp generalizing s' visits with
  | cut _ => cases h
  | leaf tag k v n =>
    cases h
    exact ⟨_, rfl, .leaf _ _ _ _⟩
  | node tag k b hl hr _ ihr =>
    rw [LeafTree.setLastNext] at h ⊢
    obtain ⟨⟨sr', vr⟩, hset, heq⟩ := Option.map_eq_some_iff.1 h
    cases heq
    obtain ⟨tr', ht, hp'⟩ := ihr hset
    exact ⟨_, by rw [ht, Option.map_some], .node _ _ _ hl hp'⟩

theorem Pruned.setFirst {k : K} {v : V} {visits : List τ} {s' : LeafTree τ D K V}
    (hp : Pruned label hid s t) (h : LeafTree.setFirst s k v = some (s', visits)) :
    ∃ t', LeafTree.setFirst t k v = some (t', visits) ∧ Pruned label hid s' t' := by
  induction hp generalizing s' visits with
  | cut _ => cases h
  | leaf tag k v n =>
    cases h
    exact ⟨_, rfl, .leaf _ _ _ _⟩
  | node tag k b hl hr ihl _ =>
    rw [LeafTree.setFirst] at h ⊢
    obtain ⟨⟨sl', vl⟩, hset, heq⟩ := Option.map_eq_some_iff.1 h
    cases heq
    obtain ⟨tl', ht, hp'⟩ := ihl hset
    exact ⟨_, by rw [ht, Option.map_some], .node _ _ _ hp' hr⟩

theorem Pruned.removeMax {down : Bool} {e : K × V} {visits : List τ} {s' : LeafTree τ D K V}
    (hp : Pruned label hid s t) (h : LeafTree.removeMax s = some (s', down, e, visits)) :
    ∃ t', LeafTree.removeMax t = some (t', down, e, visits) ∧ Pruned label hid s' t' := by
  induction hp generalizing s' down e visits with
  | cut _ => cases h
  | leaf tag k v n => cases h
  | node tag k b hl hr _ ihr =>
    cases hr with
    | cut _ => cases h
    | leaf tr kr vr nr =>
      cases h
      exact ⟨_, rfl, hl⟩
    | node tr kr br hrl hrr =>
      rw [LeafTree.removeMax] at h ⊢
      obtain ⟨⟨sr', dr, er, vr⟩, hrem, h⟩ := Option.bind_eq_some_iff.1 h
      obtain ⟨⟨x, down', vx⟩, hlow, heq⟩ := Option.map_eq_some_iff.1 h
      cases heq
      obtain ⟨tr', ht, hp'⟩ := ihr hrem
      obtain ⟨y, hy, hxy⟩ := hl.lowerRight hp' hlow
      exact ⟨y, by rw [ht, Option.bind_some, hy, Option.map_some], hxy⟩

theorem Pruned.isNode (hp : Pruned label hid s t) (hs : s.isNode = true) : t.isNode = true := by
  cases hp with
  | cut _ => cases hs
  | leaf => cases hs
  | node => rfl

theorem Pruned.deleteRoot {tag : Option τ} {b : Int8} {down : Bool} {visits : List τ}
    (hl : Pruned label hid sl tl) (hr : Pruned label hid sr tr)
    (h : LeafTree.deleteRoot tag sl sr b = some (s, down, visits)) :
    ∃ t, LeafTree.deleteRoot tag tl tr b = some (t, down, visits) ∧ Pruned label hid s t := by
  cases hr with
  | cut _ => cases h
  | leaf tag' kr vr nr =>
    rw [LeafTree.deleteRoot] at h ⊢
    obtain ⟨⟨x, vx⟩, hset, heq⟩ := Option.map_eq_some_iff.1 h
    cases heq
    obtain ⟨y, hy, hxy⟩ := hl.setLastNext hset
    exact ⟨y, by rw [hy, Option.map_some], hxy⟩
  | node tag' kr br hrl hrr =>
    have hr := Pruned.node tag' kr br hrl hrr
    cases hl with
    | cut _ => cases h
    | leaf tag'' kl vl nl =>
      rw [LeafTree.deleteRoot] at h ⊢
      obtain ⟨⟨x, vx⟩, hset, heq⟩ := Option.map_eq_some_iff.1 h
      cases heq
      obtain ⟨y, hy, hxy⟩ := hr.setFirst hset
      exact ⟨y, by rw [hy, Option.map_some], hxy⟩
    | node tag'' kl bl hll hlr =>
      have hl := Pruned.node tag'' kl bl hll hlr
      rw [LeafTree.deleteRoot] at h ⊢
      obtain ⟨⟨x, dx, e, vx⟩, hrem, h⟩ := Option.bind_eq_some_iff.1 h
      obtain ⟨⟨y, vy⟩, hset, h⟩ := Option.bind_eq_some_iff.1 h
      obtain ⟨⟨z, dz, vz⟩, hlow, heq⟩ := Option.map_eq_some_iff.1 h
      cases heq
      obtain ⟨x', hx', hpx⟩ := hl.removeMax hrem
      obtain ⟨y', hy', hpy⟩ := hr.setFirst hset
      obtain ⟨z', hz', hpz⟩ := hpx.lowerLeft hpy hlow
      exact ⟨z', by rw [hx', Option.bind_some, hy', Option.bind_some, hz', Option.map_some], hpz⟩

/-- **A removal made on a pruned tree** is made on the full tree alike. -/
theorem Pruned.deleteAt {cmps : List Ordering} {down : Bool} {visits : List τ}
    {s' : LeafTree τ D K V} (hp : Pruned label hid s t)
    (h : LeafTree.deleteAt s cmps = some (s', down, visits)) :
    ∃ t', LeafTree.deleteAt t cmps = some (t', down, visits) ∧ Pruned label hid s' t' := by
  induction hp generalizing cmps s' down visits with
  | cut _ => cases h
  | leaf tag k v n => cases h
  | @node tag k l l' r r' b hl hr ihl ihr =>
    cases cmps with
    | nil => cases h
    | cons c cmps =>
      cases c with
      | lt =>
        rw [LeafTree.deleteAt] at h ⊢
        split at h
        · rename_i hnode
          obtain ⟨⟨x, dx, vx⟩, hdel, h⟩ := Option.bind_eq_some_iff.1 h
          obtain ⟨⟨z, dz, vz⟩, hlow, heq⟩ := Option.map_eq_some_iff.1 h
          cases heq
          obtain ⟨x', hx', hpx⟩ := ihl hdel
          obtain ⟨z', hz', hpz⟩ := hpx.lowerLeft hr hlow
          rw [if_pos (hl.isNode hnode)]
          exact ⟨z', by rw [hx', Option.bind_some, hz', Option.map_some], hpz⟩
        · cases h
      | eq => exact hl.deleteRoot hr h
      | gt =>
        rw [LeafTree.deleteAt] at h ⊢
        split at h
        · rename_i hnode
          obtain ⟨⟨x, dx, vx⟩, hdel, h⟩ := Option.bind_eq_some_iff.1 h
          obtain ⟨⟨z, dz, vz⟩, hlow, heq⟩ := Option.map_eq_some_iff.1 h
          cases heq
          obtain ⟨x', hx', hpx⟩ := ihr hdel
          obtain ⟨z', hz', hpz⟩ := hl.lowerRight hpx hlow
          rw [if_pos (hr.isNode hnode)]
          exact ⟨z', by rw [hx', Option.bind_some, hz', Option.map_some], hpz⟩
        · cases h

end

/-! ## From the full tree to the pruned one -/

/-- The root is tagged, and its tag was not seen. -/
def Unseen (seen : τ → Prop) (t : LeafTree τ D K V) : Prop := ∃ x ∈ t.tags, ¬ seen x

/-- A tree that just got higher: its root is new, and so is the root of the side to
which it does not lean the other way. -/
def Opened (t : LeafTree τ D K V) : Prop :=
  ∃ k l r b, t = node none k l r b ∧ (b < 0 ∨ r.tags = []) ∧ (b > 0 ∨ l.tags = [])

theorem raiseLeft_fresh {k : K} {l r t : LeafTree τ D K V} {b : Int8} {higher up : Bool}
    (h : raiseLeft k l r b higher = some (t, up)) (hl : l.tags = []) :
    t.tags = [] ∧ (up = true → Opened t) := by
  unfold raiseLeft at h
  split at h
  · split at h
    · split at h
      · cases h
        exact ⟨rfl, fun h => (by cases h)⟩
      · obtain ⟨t', ht', heq⟩ := Option.map_eq_some_iff.1 h
        cases heq
        unfold doubleRight at ht'
        split at ht'
        · obtain ⟨b', _, rfl⟩ := Option.map_eq_some_iff.1 ht'
          exact ⟨rfl, fun h => (by cases h)⟩
        · cases ht'
    · cases h
  · cases h
    refine ⟨rfl, ?_⟩
    intro hup
    simp only [Bool.and_eq_true, beq_iff_eq] at hup
    obtain ⟨rfl, rfl⟩ := hup
    exact ⟨k, l, r, _, rfl, .inl (by decide), .inr hl⟩

theorem raiseRight_fresh {k : K} {l r t : LeafTree τ D K V} {b : Int8} {higher up : Bool}
    (h : raiseRight k l r b higher = some (t, up)) (hr : r.tags = []) :
    t.tags = [] ∧ (up = true → Opened t) := by
  unfold raiseRight at h
  split at h
  · split at h
    · split at h
      · cases h
        exact ⟨rfl, fun h => (by cases h)⟩
      · obtain ⟨t', ht', heq⟩ := Option.map_eq_some_iff.1 h
        cases heq
        unfold doubleLeft at ht'
        split at ht'
        · obtain ⟨b', _, rfl⟩ := Option.map_eq_some_iff.1 ht'
          exact ⟨rfl, fun h => (by cases h)⟩
        · cases ht'
    · cases h
  · cases h
    refine ⟨rfl, ?_⟩
    intro hup
    simp only [Bool.and_eq_true, beq_iff_eq] at hup
    obtain ⟨rfl, rfl⟩ := hup
    exact ⟨k, l, r, _, rfl, .inr hr, .inl (by decide)⟩

/-- A changed tree has a new root. -/
theorem modifyAt_fresh {t t' : LeafTree τ D K V} {path : List Bool} {act : Action K V} {up : Bool}
    (h : modifyAt t path act = some (t', true, up)) : t'.tags = [] ∧ (up = true → Opened t') := by
  induction t generalizing path t' up with
  | stub d => cases path <;> cases h
  | leaf tag k v n =>
    cases path with
    | cons d path => cases h
    | nil =>
      cases act with
      | keep => cases h
      | update value =>
        cases h
        exact ⟨rfl, fun h => (by cases h)⟩
      | insert key value =>
        cases h
        exact ⟨rfl, fun _ => ⟨_, _, _, _, rfl, .inr rfl, .inr rfl⟩⟩
  | node tag k l r b ihl ihr =>
    cases path with
    | nil => cases h
    | cons d path =>
      cases d with
      | true =>
        rw [modifyAt] at h
        obtain ⟨⟨l', ch, hi⟩, hmod, h⟩ := Option.bind_eq_some_iff.1 h
        cases ch with
        | false => cases h
        | true =>
          simp only [if_true] at h
          obtain ⟨⟨x, up'⟩, hraise, heq⟩ := Option.map_eq_some_iff.1 h
          cases heq
          exact raiseLeft_fresh hraise (ihl hmod).1
      | false =>
        rw [modifyAt] at h
        obtain ⟨⟨r', ch, hi⟩, hmod, h⟩ := Option.bind_eq_some_iff.1 h
        cases ch with
        | false => cases h
        | true =>
          simp only [if_true] at h
          obtain ⟨⟨x, up'⟩, hraise, heq⟩ := Option.map_eq_some_iff.1 h
          cases heq
          exact raiseRight_fresh hraise (ihr hmod).1

section

variable {label : LeafTree τ D K V → D} {seen : τ → Prop} {s t sl tl sr tr : LeafTree τ D K V}

theorem Pruned.node_of_seen (hp : Pruned label (Unseen seen) s t) {tag : Option τ} {k : K}
    {l r : LeafTree τ D K V} {b : Int8} (ht : t = LeafTree.node tag k l r b)
    (hseen : ∀ x ∈ tag.toList, seen x) :
    ∃ l' r', s = LeafTree.node tag k l' r' b ∧ Pruned label (Unseen seen) l' l
      ∧ Pruned label (Unseen seen) r' r := by
  subst ht
  cases hp with
  | cut h =>
    obtain ⟨x, hx, hnot⟩ := h
    exact absurd (hseen x hx) hnot
  | node tag k b hl hr => exact ⟨_, _, rfl, hl, hr⟩

theorem Pruned.leaf_of_seen (hp : Pruned label (Unseen seen) s t) {tag : Option τ} {k : K} {v : V}
    {n : K} (ht : t = LeafTree.leaf tag k v n) (hseen : ∀ x ∈ tag.toList, seen x) :
    s = LeafTree.leaf tag k v n := by
  subst ht
  cases hp with
  | cut h =>
    obtain ⟨x, hx, hnot⟩ := h
    exact absurd (hseen x hx) hnot
  | leaf => rfl

theorem Pruned.doubleLeft_kept {k : K} (hr : Pruned label (Unseen seen) sr tr)
    (sl : LeafTree τ D K V) (h : LeafTree.doubleLeft k tl tr = some t) {tag : Option τ} {kr : K}
    {rl rr : LeafTree τ D K V} {br : Int8} (htr : tr = LeafTree.node tag kr rl rr br)
    (hseen : ∀ x ∈ tag.toList, seen x) (hseen' : ∀ x ∈ rl.tags, seen x) :
    ∃ s, LeafTree.doubleLeft k sl sr = some s := by
  obtain ⟨rl', rr', rfl, hrl, _⟩ := hr.node_of_seen htr hseen
  subst htr
  cases rl with
  | stub d => cases h
  | leaf tm km vm nm => cases h
  | node tm km ml mr bm =>
    obtain ⟨ml', mr', rfl, _, _⟩ := hrl.node_of_seen rfl hseen'
    rw [LeafTree.doubleLeft] at h ⊢
    obtain ⟨b, hb, _⟩ := Option.map_eq_some_iff.1 h
    exact ⟨_, by rw [hb, Option.map_some]⟩

theorem Pruned.doubleRight_kept {k : K} (hl : Pruned label (Unseen seen) sl tl)
    (sr : LeafTree τ D K V) (h : LeafTree.doubleRight k tl tr = some t) {tag : Option τ} {kl : K}
    {ll lr : LeafTree τ D K V} {bl : Int8} (htl : tl = LeafTree.node tag kl ll lr bl)
    (hseen : ∀ x ∈ tag.toList, seen x) (hseen' : ∀ x ∈ lr.tags, seen x) :
    ∃ s, LeafTree.doubleRight k sl sr = some s := by
  obtain ⟨ll', lr', rfl, _, hlr⟩ := hl.node_of_seen htl hseen
  subst htl
  cases lr with
  | stub d => cases h
  | leaf tm km vm nm => cases h
  | node tm km ml mr bm =>
    obtain ⟨ml', mr', rfl, _, _⟩ := hlr.node_of_seen rfl hseen'
    rw [LeafTree.doubleRight] at h ⊢
    obtain ⟨b, hb, _⟩ := Option.map_eq_some_iff.1 h
    exact ⟨_, by rw [hb, Option.map_some]⟩

theorem Pruned.raiseLeft_kept {k : K} {b : Int8} {higher up : Bool}
    (hl : Pruned label (Unseen seen) sl tl) (sr : LeafTree τ D K V)
    (h : LeafTree.raiseLeft k tl tr b higher = some (t, up)) (hopen : higher = true → Opened tl) :
    ∃ s, LeafTree.raiseLeft k sl sr b higher = some (s, up) := by
  unfold LeafTree.raiseLeft at h ⊢
  split at h
  · rename_i hrot
    rw [if_pos hrot]
    have hhigher : higher = true := by
      rw [Bool.and_eq_true] at hrot
      exact hrot.1
    obtain ⟨kl, ll, lr, bl, rfl, hlean, _⟩ := hopen hhigher
    obtain ⟨ll', lr', rfl, hll, hlr⟩ := hl.node_of_seen rfl (by simp)
    simp only at h ⊢
    split at h
    · rename_i hbl
      cases h
      exact ⟨_, by rw [if_pos hbl]⟩
    · rename_i hbl
      obtain ⟨t', ht', heq⟩ := Option.map_eq_some_iff.1 h
      cases heq
      have hnew : lr.tags = [] := hlean.resolve_left hbl
      obtain ⟨s, hs⟩ := hl.doubleRight_kept sr ht' rfl (by simp) (by simp [hnew])
      exact ⟨s, by rw [if_neg hbl, hs, Option.map_some]⟩
  · rename_i hrot
    cases h
    exact ⟨_, by rw [if_neg hrot]⟩

theorem Pruned.raiseRight_kept {k : K} {b : Int8} {higher up : Bool}
    (hr : Pruned label (Unseen seen) sr tr) (sl : LeafTree τ D K V)
    (h : LeafTree.raiseRight k tl tr b higher = some (t, up)) (hopen : higher = true → Opened tr) :
    ∃ s, LeafTree.raiseRight k sl sr b higher = some (s, up) := by
  unfold LeafTree.raiseRight at h ⊢
  split at h
  · rename_i hrot
    rw [if_pos hrot]
    have hhigher : higher = true := by
      rw [Bool.and_eq_true] at hrot
      exact hrot.1
    obtain ⟨kr, rl, rr, br, rfl, _, hlean⟩ := hopen hhigher
    obtain ⟨rl', rr', rfl, hrl, hrr⟩ := hr.node_of_seen rfl (by simp)
    simp only at h ⊢
    split at h
    · rename_i hbr
      cases h
      exact ⟨_, by rw [if_pos hbr]⟩
    · rename_i hbr
      obtain ⟨t', ht', heq⟩ := Option.map_eq_some_iff.1 h
      cases heq
      have hnew : rl.tags = [] := hlean.resolve_left hbr
      obtain ⟨s, hs⟩ := hr.doubleLeft_kept sl ht' rfl (by simp) (by simp [hnew])
      exact ⟨s, by rw [if_neg hbr, hs, Option.map_some]⟩
  · rename_i hrot
    cases h
    exact ⟨_, by rw [if_neg hrot]⟩

/-- **A change made on the full tree** is made on the pruned one alike, if the nodes
on the path were kept. -/
theorem Pruned.modifyAt_kept {path : List Bool} {act : Action K V} {changed up : Bool}
    {t' : LeafTree τ D K V} (hp : Pruned label (Unseen seen) s t)
    (h : LeafTree.modifyAt t path act = some (t', changed, up))
    (hseen : ∀ x ∈ pathTags t path, seen x) :
    ∃ s', LeafTree.modifyAt s path act = some (s', changed, up) := by
  induction hp generalizing path t' changed up with
  | @cut t hcut =>
    obtain ⟨x, hx, hnot⟩ := hcut
    refine absurd (hseen x ?_) hnot
    cases t with
    | stub d => cases hx
    | leaf tag k v n => exact hx
    | node tag k l r b =>
      cases path with
      | nil => cases h
      | cons d path => cases d <;> exact List.mem_append_left _ hx
  | leaf tag k v n => exact ⟨_, h⟩
  | @node tag k l l' r r' b hl hr ihl ihr =>
    cases path with
    | nil => cases h
    | cons d path =>
      cases d with
      | true =>
        rw [LeafTree.modifyAt] at h ⊢
        obtain ⟨⟨tl', ch, hi⟩, hmod, h⟩ := Option.bind_eq_some_iff.1 h
        obtain ⟨sl', hsmod⟩ := ihl hmod fun x hx => hseen x (List.mem_append_right _ hx)
        rw [hsmod, Option.bind_some]
        cases ch with
        | false =>
          cases h
          exact ⟨_, rfl⟩
        | true =>
          simp only [if_true] at h ⊢
          obtain ⟨⟨x, up'⟩, hraise, heq⟩ := Option.map_eq_some_iff.1 h
          cases heq
          obtain ⟨_, tl'', htl'', hp'⟩ := hl.modifyAt hsmod
          rw [hmod] at htl''
          cases htl''
          obtain ⟨y, hy⟩ := hp'.raiseLeft_kept r hraise (modifyAt_fresh hmod).2
          exact ⟨y, by rw [hy, Option.map_some]⟩
      | false =>
        rw [LeafTree.modifyAt] at h ⊢
        obtain ⟨⟨tr', ch, hi⟩, hmod, h⟩ := Option.bind_eq_some_iff.1 h
        obtain ⟨sr', hsmod⟩ := ihr hmod fun x hx => hseen x (List.mem_append_right _ hx)
        rw [hsmod, Option.bind_some]
        cases ch with
        | false =>
          cases h
          exact ⟨_, rfl⟩
        | true =>
          simp only [if_true] at h ⊢
          obtain ⟨⟨x, up'⟩, hraise, heq⟩ := Option.map_eq_some_iff.1 h
          cases heq
          obtain ⟨_, tr'', htr'', hp'⟩ := hr.modifyAt hsmod
          rw [hmod] at htr''
          cases htr''
          obtain ⟨y, hy⟩ := hp'.raiseRight_kept l hraise (modifyAt_fresh hmod).2
          exact ⟨y, by rw [hy, Option.map_some]⟩

theorem Pruned.lowerLeft_kept {k : K} {b : Int8} {lower down : Bool} {visits : List τ}
    (hr : Pruned label (Unseen seen) sr tr) (sl : LeafTree τ D K V)
    (h : LeafTree.lowerLeft k tl tr b lower = some (t, down, visits))
    (hseen : ∀ x ∈ visits, seen x) :
    ∃ s visits', LeafTree.lowerLeft k sl sr b lower = some (s, down, visits') := by
  unfold LeafTree.lowerLeft at h ⊢
  split at h
  · rename_i hrot
    rw [if_pos hrot]
    split at h
    · rename_i tag kr rl rr br
      split at h
      · rename_i hbr
        obtain ⟨t', ht', heq⟩ := Option.map_eq_some_iff.1 h
        cases heq
        have hroot : ∀ x ∈ tag.toList, seen x := fun x hx => hseen x (List.mem_append_left _ hx)
        obtain ⟨rl', rr', rfl, hrl, hrr⟩ := hr.node_of_seen rfl hroot
        obtain ⟨s, hs⟩ := hr.doubleLeft_kept sl ht' rfl hroot
          fun x hx => hseen x (List.mem_append_right _ hx)
        exact ⟨s, _, by simp only [if_pos hbr]; rw [hs, Option.map_some]⟩
      · rename_i hbr
        cases h
        obtain ⟨rl', rr', rfl, hrl, hrr⟩ := hr.node_of_seen rfl hseen
        simp only [if_neg hbr]
        exact ⟨_, _, rfl⟩
    · cases h
  · rename_i hrot
    cases h
    exact ⟨_, _, by rw [if_neg hrot]⟩

theorem Pruned.lowerRight_kept {k : K} {b : Int8} {lower down : Bool} {visits : List τ}
    (hl : Pruned label (Unseen seen) sl tl) (sr : LeafTree τ D K V)
    (h : LeafTree.lowerRight k tl tr b lower = some (t, down, visits))
    (hseen : ∀ x ∈ visits, seen x) :
    ∃ s visits', LeafTree.lowerRight k sl sr b lower = some (s, down, visits') := by
  unfold LeafTree.lowerRight at h ⊢
  split at h
  · rename_i hrot
    rw [if_pos hrot]
    split at h
    · rename_i tag kl ll lr bl
      split at h
      · rename_i hbl
        obtain ⟨t', ht', heq⟩ := Option.map_eq_some_iff.1 h
        cases heq
        have hroot : ∀ x ∈ tag.toList, seen x := fun x hx => hseen x (List.mem_append_left _ hx)
        obtain ⟨ll', lr', rfl, hll, hlr⟩ := hl.node_of_seen rfl hroot
        obtain ⟨s, hs⟩ := hl.doubleRight_kept sr ht' rfl hroot
          fun x hx => hseen x (List.mem_append_right _ hx)
        exact ⟨s, _, by simp only [if_pos hbl]; rw [hs, Option.map_some]⟩
      · rename_i hbl
        cases h
        obtain ⟨ll', lr', rfl, hll, hlr⟩ := hl.node_of_seen rfl hseen
        simp only [if_neg hbl]
        exact ⟨_, _, rfl⟩
    · cases h
  · rename_i hrot
    cases h
    exact ⟨_, _, by rw [if_neg hrot]⟩

theorem Pruned.setLastNext_kept {n : K} {visits : List τ} {t' : LeafTree τ D K V}
    (hp : Pruned label (Unseen seen) s t) (h : LeafTree.setLastNext t n = some (t', visits))
    (hseen : ∀ x ∈ visits, seen x) :
    ∃ s' visits', LeafTree.setLastNext s n = some (s', visits') := by
  induction t generalizing s t' visits with
  | stub d => cases h
  | leaf tag k v n' =>
    cases h
    obtain rfl := hp.leaf_of_seen rfl hseen
    exact ⟨_, _, rfl⟩
  | node tag k l r b _ ihr =>
    rw [LeafTree.setLastNext] at h
    obtain ⟨⟨r', vr⟩, hset, heq⟩ := Option.map_eq_some_iff.1 h
    cases heq
    obtain ⟨sl', sr', rfl, _, hr⟩ := hp.node_of_seen rfl
      fun x hx => hseen x (List.mem_append_left _ hx)
    obtain ⟨x, vx, hx⟩ := ihr hr hset fun x hx => hseen x (List.mem_append_right _ hx)
    exact ⟨_, _, by rw [LeafTree.setLastNext, hx, Option.map_some]⟩

theorem Pruned.setFirst_kept {k : K} {v : V} {visits : List τ} {t' : LeafTree τ D K V}
    (hp : Pruned label (Unseen seen) s t) (h : LeafTree.setFirst t k v = some (t', visits))
    (hseen : ∀ x ∈ visits, seen x) :
    ∃ s' visits', LeafTree.setFirst s k v = some (s', visits') := by
  induction t generalizing s t' visits with
  | stub d => cases h
  | leaf tag k v n =>
    cases h
    obtain rfl := hp.leaf_of_seen rfl hseen
    exact ⟨_, _, rfl⟩
  | node tag k' l r b ihl _ =>
    rw [LeafTree.setFirst] at h
    obtain ⟨⟨l', vl⟩, hset, heq⟩ := Option.map_eq_some_iff.1 h
    cases heq
    obtain ⟨sl', sr', rfl, hl, _⟩ := hp.node_of_seen rfl
      fun x hx => hseen x (List.mem_append_left _ hx)
    obtain ⟨x, vx, hx⟩ := ihl hl hset fun x hx => hseen x (List.mem_append_right _ hx)
    exact ⟨_, _, by rw [LeafTree.setFirst, hx, Option.map_some]⟩

/-- The root is among the visited nodes of a removal. -/
theorem removeMax_visits {down : Bool} {e : K × V} {visits : List τ} {t' : LeafTree τ D K V}
    (h : LeafTree.removeMax t = some (t', down, e, visits)) : ∃ more, visits = t.tags ++ more := by
  cases t with
  | stub d => cases h
  | leaf tag k v n => cases h
  | node tag k l r b =>
    cases r with
    | stub d => cases h
    | leaf tr kr vr nr =>
      cases h
      exact ⟨_, rfl⟩
    | node tr kr rl rr br =>
      rw [LeafTree.removeMax] at h
      obtain ⟨res, _, h⟩ := Option.bind_eq_some_iff.1 h
      obtain ⟨x, _, heq⟩ := Option.map_eq_some_iff.1 h
      cases heq
      exact ⟨res.2.2.2 ++ x.2.2, by rw [List.append_assoc]; rfl⟩

theorem setFirst_visits {k : K} {v : V} {visits : List τ} {t' : LeafTree τ D K V}
    (h : LeafTree.setFirst t k v = some (t', visits)) : ∃ more, visits = t.tags ++ more := by
  cases t with
  | stub d => cases h
  | leaf tag k' v' n =>
    cases h
    exact ⟨[], (List.append_nil _).symm⟩
  | node tag k' l r b =>
    rw [LeafTree.setFirst] at h
    obtain ⟨x, _, heq⟩ := Option.map_eq_some_iff.1 h
    cases heq
    exact ⟨_, rfl⟩

theorem deleteRoot_visits {tag : Option τ} {l r : LeafTree τ D K V} {b : Int8} {down : Bool}
    {visits : List τ} {t' : LeafTree τ D K V}
    (h : LeafTree.deleteRoot tag l r b = some (t', down, visits)) :
    ∃ more, visits = tag.toList ++ more := by
  unfold LeafTree.deleteRoot at h
  split at h
  · cases h
  · obtain ⟨x, _, heq⟩ := Option.map_eq_some_iff.1 h
    cases heq
    exact ⟨_, List.append_assoc _ _ _⟩
  · split at h
    · cases h
    · obtain ⟨x, _, heq⟩ := Option.map_eq_some_iff.1 h
      cases heq
      exact ⟨_, List.append_assoc _ _ _⟩
    · obtain ⟨x, _, h⟩ := Option.bind_eq_some_iff.1 h
      obtain ⟨y, _, h⟩ := Option.bind_eq_some_iff.1 h
      obtain ⟨z, _, heq⟩ := Option.map_eq_some_iff.1 h
      cases heq
      exact ⟨x.2.2.2 ++ (y.2 ++ z.2.2), by simp only [List.append_assoc]⟩

theorem deleteAt_visits {cmps : List Ordering} {down : Bool} {visits : List τ}
    {t' : LeafTree τ D K V} (h : LeafTree.deleteAt t cmps = some (t', down, visits)) :
    ∃ more, visits = t.tags ++ more := by
  cases t with
  | stub d => cases h
  | leaf tag k v n => cases h
  | node tag k l r b =>
    cases cmps with
    | nil => cases h
    | cons c cmps =>
      cases c with
      | eq => exact deleteRoot_visits h
      | lt =>
        rw [LeafTree.deleteAt] at h
        split at h
        · obtain ⟨x, _, h⟩ := Option.bind_eq_some_iff.1 h
          obtain ⟨z, _, heq⟩ := Option.map_eq_some_iff.1 h
          cases heq
          exact ⟨_, List.append_assoc _ _ _⟩
        · cases h
      | gt =>
        rw [LeafTree.deleteAt] at h
        split at h
        · obtain ⟨x, _, h⟩ := Option.bind_eq_some_iff.1 h
          obtain ⟨z, _, heq⟩ := Option.map_eq_some_iff.1 h
          cases heq
          exact ⟨_, List.append_assoc _ _ _⟩
        · cases h

theorem Pruned.removeMax_kept {down : Bool} {e : K × V} {visits : List τ} {t' : LeafTree τ D K V}
    (hp : Pruned label (Unseen seen) s t) (h : LeafTree.removeMax t = some (t', down, e, visits))
    (hseen : ∀ x ∈ visits, seen x) :
    ∃ s' visits', LeafTree.removeMax s = some (s', down, e, visits') := by
  induction t generalizing s t' down e visits with
  | stub d => cases h
  | leaf tag k v n => cases h
  | node tag k l r b _ ihr =>
    cases r with
    | stub d => cases h
    | leaf tr kr vr nr =>
      cases h
      obtain ⟨sl', sr', rfl, _, hr⟩ := hp.node_of_seen rfl
        fun x hx => hseen x (List.mem_append_left _ hx)
      obtain rfl := hr.leaf_of_seen rfl fun x hx => hseen x (List.mem_append_right _ hx)
      exact ⟨_, _, rfl⟩
    | node tr kr rl rr br =>
      rw [LeafTree.removeMax] at h
      obtain ⟨⟨r', dr, er, vr⟩, hrem, h⟩ := Option.bind_eq_some_iff.1 h
      obtain ⟨⟨x, down', vx⟩, hlow, heq⟩ := Option.map_eq_some_iff.1 h
      cases heq
      simp only [List.mem_append] at hseen
      obtain ⟨sl', sr', rfl, hl, hr⟩ := hp.node_of_seen rfl fun x hx => hseen x (.inl (.inl hx))
      obtain ⟨more, rfl⟩ := removeMax_visits hrem
      obtain ⟨y, vy, hy⟩ := ihr hr hrem fun x hx => hseen x (.inl (.inr hx))
      obtain ⟨srl, srr, rfl, _, _⟩ := hr.node_of_seen rfl fun x hx =>
        hseen x (.inl (.inr (List.mem_append_left _ hx)))
      obtain ⟨z, vz, hz⟩ := hl.lowerRight_kept y hlow fun x hx => hseen x (.inr hx)
      exact ⟨z, _, by rw [LeafTree.removeMax, hy, Option.bind_some, hz, Option.map_some]⟩

theorem Pruned.deleteRoot_kept {tag : Option τ} {b : Int8} {down : Bool} {visits : List τ}
    (hl : Pruned label (Unseen seen) sl tl) (hr : Pruned label (Unseen seen) sr tr)
    (h : LeafTree.deleteRoot tag tl tr b = some (t, down, visits))
    (hseen : ∀ x ∈ visits, seen x) :
    ∃ s visits', LeafTree.deleteRoot tag sl sr b = some (s, down, visits') := by
  unfold LeafTree.deleteRoot at h
  split at h
  · cases h
  · rename_i tr' kr vr nr
    obtain ⟨⟨x, vx⟩, hset, heq⟩ := Option.map_eq_some_iff.1 h
    cases heq
    simp only [List.mem_append] at hseen
    obtain rfl := hr.leaf_of_seen rfl fun x hx => hseen x (.inl (.inr hx))
    obtain ⟨y, vy, hy⟩ := hl.setLastNext_kept hset fun x hx => hseen x (.inr hx)
    exact ⟨y, _, by rw [LeafTree.deleteRoot, hy, Option.map_some]⟩
  · split at h
    · cases h
    · obtain ⟨⟨x, vx⟩, hset, heq⟩ := Option.map_eq_some_iff.1 h
      cases heq
      simp only [List.mem_append] at hseen
      obtain rfl := hl.leaf_of_seen rfl fun x hx => hseen x (.inl (.inr hx))
      obtain ⟨y, vy, hy⟩ := hr.setFirst_kept hset fun x hx => hseen x (.inr hx)
      obtain ⟨more, rfl⟩ := setFirst_visits hset
      obtain ⟨srl, srr, rfl, _, _⟩ := hr.node_of_seen rfl fun x hx =>
        hseen x (.inr (List.mem_append_left _ hx))
      exact ⟨y, _, by rw [LeafTree.deleteRoot, hy, Option.map_some]⟩
    · obtain ⟨⟨x, dx, e, vx⟩, hrem, h⟩ := Option.bind_eq_some_iff.1 h
      obtain ⟨⟨y, vy⟩, hset, h⟩ := Option.bind_eq_some_iff.1 h
      obtain ⟨⟨z, dz, vz⟩, hlow, heq⟩ := Option.map_eq_some_iff.1 h
      cases heq
      simp only [List.mem_append] at hseen
      obtain ⟨x', vx', hx'⟩ := hl.removeMax_kept hrem fun x hx => hseen x (.inl (.inl (.inr hx)))
      obtain ⟨y', vy', hy'⟩ := hr.setFirst_kept hset fun x hx => hseen x (.inl (.inr hx))
      obtain ⟨more, rfl⟩ := removeMax_visits hrem
      obtain ⟨more', rfl⟩ := setFirst_visits hset
      obtain ⟨y'', hy'', hpy⟩ := hr.setFirst hy'
      rw [hset] at hy''
      cases hy''
      obtain ⟨z', vz', hz'⟩ := hpy.lowerLeft_kept x' hlow fun x hx => hseen x (.inr hx)
      obtain ⟨srl, srr, rfl, _, _⟩ := hr.node_of_seen rfl fun x hx =>
        hseen x (.inl (.inr (List.mem_append_left _ hx)))
      obtain ⟨sll, slr, rfl, _, _⟩ := hl.node_of_seen rfl fun x hx =>
        hseen x (.inl (.inl (.inr (List.mem_append_left _ hx))))
      exact ⟨z', _, by
        rw [LeafTree.deleteRoot, hx', Option.bind_some, hy', Option.bind_some, hz',
          Option.map_some]⟩

theorem Pruned.isNode_of_seen (hp : Pruned label (Unseen seen) s t) (ht : t.isNode = true)
    (hseen : ∀ x ∈ t.tags, seen x) : s.isNode = true := by
  cases t with
  | stub d => cases ht
  | leaf tag k v n => cases ht
  | node tag k l r b =>
    obtain ⟨l', r', rfl, _, _⟩ := hp.node_of_seen rfl hseen
    rfl

/-- **A removal made on the full tree** is made on the pruned one alike, if the visited
nodes were kept. -/
theorem Pruned.deleteAt_kept {cmps : List Ordering} {down : Bool} {visits : List τ}
    {t' : LeafTree τ D K V} (hp : Pruned label (Unseen seen) s t)
    (h : LeafTree.deleteAt t cmps = some (t', down, visits)) (hseen : ∀ x ∈ visits, seen x) :
    ∃ s' visits', LeafTree.deleteAt s cmps = some (s', down, visits') := by
  induction t generalizing s cmps t' down visits with
  | stub d => cases h
  | leaf tag k v n => cases h
  | node tag k l r b ihl ihr =>
    obtain ⟨more, hmore⟩ := deleteAt_visits h
    obtain ⟨sl, sr, rfl, hl, hr⟩ := hp.node_of_seen rfl fun x hx =>
      hseen x (hmore ▸ List.mem_append_left _ hx)
    cases cmps with
    | nil => cases h
    | cons c cmps =>
      cases c with
      | eq => exact hl.deleteRoot_kept hr h hseen
      | lt =>
        rw [LeafTree.deleteAt] at h ⊢
        split at h
        · rename_i hnode
          obtain ⟨⟨x, dx, vx⟩, hdel, h⟩ := Option.bind_eq_some_iff.1 h
          obtain ⟨⟨z, dz, vz⟩, hlow, heq⟩ := Option.map_eq_some_iff.1 h
          cases heq
          simp only [List.mem_append] at hseen
          obtain ⟨x', vx', hx'⟩ := ihl hl hdel fun x hx => hseen x (.inl (.inr hx))
          obtain ⟨more', rfl⟩ := deleteAt_visits hdel
          obtain ⟨z', vz', hz'⟩ := hr.lowerLeft_kept x' hlow fun x hx => hseen x (.inr hx)
          rw [if_pos (hl.isNode_of_seen hnode fun x hx =>
            hseen x (.inl (.inr (List.mem_append_left _ hx))))]
          exact ⟨z', _, by rw [hx', Option.bind_some, hz', Option.map_some]⟩
        · cases h
      | gt =>
        rw [LeafTree.deleteAt] at h ⊢
        split at h
        · rename_i hnode
          obtain ⟨⟨x, dx, vx⟩, hdel, h⟩ := Option.bind_eq_some_iff.1 h
          obtain ⟨⟨z, dz, vz⟩, hlow, heq⟩ := Option.map_eq_some_iff.1 h
          cases heq
          simp only [List.mem_append] at hseen
          obtain ⟨x', vx', hx'⟩ := ihr hr hdel fun x hx => hseen x (.inl (.inr hx))
          obtain ⟨more', rfl⟩ := deleteAt_visits hdel
          obtain ⟨z', vz', hz'⟩ := hl.lowerRight_kept x' hlow fun x hx => hseen x (.inr hx)
          rw [if_pos (hr.isNode_of_seen hnode fun x hx =>
            hseen x (.inl (.inr (List.mem_append_left _ hx))))]
          exact ⟨z', _, by rw [hx', Option.bind_some, hz', Option.map_some]⟩
        · cases h

end

/-! ## Pruning -/

/-- Cut the tree at each tagged node that was not seen. -/
def prune (label : LeafTree τ D K V → D) (seen : τ → Bool) : LeafTree τ D K V → LeafTree τ D K V
  | stub d => stub d
  | leaf tag k v n => if tag.all seen then leaf tag k v n else stub (label (leaf tag k v n))
  | node tag k l r b =>
      if tag.all seen then node tag k (prune label seen l) (prune label seen r) b
      else stub (label (node tag k l r b))

/-- There are no stubs in the tree. -/
def Full : LeafTree τ D K V → Prop
  | stub _ => False
  | leaf _ _ _ _ => True
  | node _ _ l r _ => Full l ∧ Full r

theorem not_all_iff {tag : Option τ} {seen : τ → Bool} (h : ¬ tag.all seen = true) :
    ∃ x ∈ tag.toList, ¬ seen x = true := by
  cases tag with
  | none => exact absurd rfl h
  | some x => exact ⟨x, by simp, h⟩

theorem prune_pruned (label : LeafTree τ D K V → D) (seen : τ → Bool) {t : LeafTree τ D K V}
    (h : t.Full) : Pruned label (Unseen fun x => seen x = true) (prune label seen t) t := by
  induction t with
  | stub d => exact h.elim
  | leaf tag k v n =>
    rw [prune]
    split
    · exact .leaf _ _ _ _
    · rename_i hnot
      exact .cut (not_all_iff hnot)
  | node tag k l r b ihl ihr =>
    rw [prune]
    split
    · exact .node _ _ _ (ihl h.1) (ihr h.2)
    · rename_i hnot
      exact .cut (not_all_iff hnot)

end Sparkz.Lib.LeafTree
