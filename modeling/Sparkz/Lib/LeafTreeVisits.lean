import Sparkz.Lib.LeafTreeSearch
import Sparkz.Lib.LeafTreeTags

/-!
# How many inner nodes an operation visits

The nodes that were in a tree before some operations have tags, and those that the operations
have made have none.

* `Capped n` — no inner node with a tag is higher than `n`; the operations keep this.
* `pathTags_count` — a way down passes at most `n` inner nodes with a tag.
* `lowerLeft_count`, `lowerRight_count` — a rotation visits two more, where there is one.
* `deleteAt_count` — the removal of a leaf visits at most `5 * n / 2 + 1`, whatever has become of
  the tree; `pathTags_subset_visits` — the search for the leaf is among that.
* `innerCount_prune_le`, `countP_innerTags_le` — so many inner nodes are left of the tree before
  the operations when it is cut at the nodes that were not visited.
-/

namespace Sparkz.Lib.LeafTree

variable {τ D K V : Type}

/-- No inner node with a tag is higher than `n`, and `inner` tells the tags of inner nodes from
those of leaves. -/
def Capped (inner : τ → Bool) (n : ℕ) : LeafTree τ D K V → Prop
  | stub _ => True
  | leaf tag _ _ _ => ∀ x ∈ tag.toList, inner x = false
  | node tag _ l r _ => Capped inner n l ∧ Capped inner n r
      ∧ (tag.isSome = true → max l.height r.height + 1 ≤ n)

section

variable {inner : τ → Bool} {n : ℕ} {l r t t' : LeafTree τ D K V} {k : K} {b : Int8}
  {tag : Option τ} {visits : List τ}

theorem capped_new :
    Capped inner n (node none k l r b) ↔ Capped inner n l ∧ Capped inner n r :=
  ⟨fun h => ⟨h.1, h.2.1⟩, fun h => ⟨h.1, h.2, fun h => by cases h⟩⟩

theorem capped_newLeaf {v : V} {nk : K} : Capped inner n (leaf none k v nk : LeafTree τ D K V) :=
  fun _ hx => by cases hx

/-! ## The operations keep the cap -/

theorem Capped.doubleLeft (hl : Capped inner n l) (hr : Capped inner n r)
    (h : doubleLeft k l r = some t) : Capped inner n t := by
  obtain ⟨tr, kr, tm, km, ml, mr, bm, rr, br, rfl⟩ : ∃ tr kr tm km ml mr bm rr br,
      r = node tr kr (node tm km ml mr bm) rr br := by
    unfold LeafTree.doubleLeft at h
    split at h
    · exact ⟨_, _, _, _, _, _, _, _, _, rfl⟩
    · cases h
  obtain ⟨b', _, rfl⟩ := Option.map_eq_some_iff.1 h
  rw [capped_new, capped_new, capped_new]
  exact ⟨⟨hl, hr.1.1⟩, hr.1.2.1, hr.2.1⟩

theorem Capped.doubleRight (hl : Capped inner n l) (hr : Capped inner n r)
    (h : doubleRight k l r = some t) : Capped inner n t := by
  obtain ⟨tl, kl, ll, tm, km, ml, mr, bm, bl, rfl⟩ : ∃ tl kl ll tm km ml mr bm bl,
      l = node tl kl ll (node tm km ml mr bm) bl := by
    unfold LeafTree.doubleRight at h
    split at h
    · exact ⟨_, _, _, _, _, _, _, _, _, rfl⟩
    · cases h
  obtain ⟨b', _, rfl⟩ := Option.map_eq_some_iff.1 h
  rw [capped_new, capped_new, capped_new]
  exact ⟨⟨hl.1, hl.2.1.1⟩, hl.2.1.2.1, hr⟩

theorem Capped.raiseLeft {higher up : Bool} (hl : Capped inner n l) (hr : Capped inner n r)
    (h : raiseLeft k l r b higher = some (t, up)) : Capped inner n t := by
  unfold LeafTree.raiseLeft at h
  split at h
  · split at h
    · split at h
      · cases h
        rw [capped_new, capped_new]
        exact ⟨hl.1, hl.2.1, hr⟩
      · obtain ⟨t', ht', heq⟩ := Option.map_eq_some_iff.1 h
        cases heq
        exact hl.doubleRight hr ht'
    · cases h
  · cases h
    exact capped_new.2 ⟨hl, hr⟩

theorem Capped.raiseRight {higher up : Bool} (hl : Capped inner n l) (hr : Capped inner n r)
    (h : raiseRight k l r b higher = some (t, up)) : Capped inner n t := by
  unfold LeafTree.raiseRight at h
  split at h
  · split at h
    · split at h
      · cases h
        rw [capped_new, capped_new]
        exact ⟨⟨hl, hr.1⟩, hr.2.1⟩
      · obtain ⟨t', ht', heq⟩ := Option.map_eq_some_iff.1 h
        cases heq
        exact hl.doubleLeft hr ht'
    · cases h
  · cases h
    exact capped_new.2 ⟨hl, hr⟩

theorem Capped.lowerLeft {lower down : Bool} (hl : Capped inner n l) (hr : Capped inner n r)
    (h : lowerLeft k l r b lower = some (t, down, visits)) : Capped inner n t := by
  unfold LeafTree.lowerLeft at h
  split at h
  · split at h
    · split at h
      · obtain ⟨t', ht', heq⟩ := Option.map_eq_some_iff.1 h
        cases heq
        exact hl.doubleLeft hr ht'
      · cases h
        rw [capped_new, capped_new]
        exact ⟨⟨hl, hr.1⟩, hr.2.1⟩
    · cases h
  · cases h
    exact capped_new.2 ⟨hl, hr⟩

theorem Capped.lowerRight {lower down : Bool} (hl : Capped inner n l) (hr : Capped inner n r)
    (h : lowerRight k l r b lower = some (t, down, visits)) : Capped inner n t := by
  unfold LeafTree.lowerRight at h
  split at h
  · split at h
    · split at h
      · obtain ⟨t', ht', heq⟩ := Option.map_eq_some_iff.1 h
        cases heq
        exact hl.doubleRight hr ht'
      · cases h
        rw [capped_new, capped_new]
        exact ⟨hl.1, hl.2.1, hr⟩
    · cases h
  · cases h
    exact capped_new.2 ⟨hl, hr⟩

theorem Capped.modifyAt {path : List Bool} {act : Action K V} {changed up : Bool}
    (ht : Capped inner n t) (h : modifyAt t path act = some (t', changed, up)) :
    Capped inner n t' := by
  induction t generalizing path t' changed up with
  | stub d => cases h
  | leaf tag k v nk =>
    cases path with
    | cons d path => cases h
    | nil =>
      cases act with
      | keep =>
        cases h
        exact ht
      | update value =>
        cases h
        exact capped_newLeaf
      | insert key value =>
        cases h
        exact capped_new.2 ⟨capped_newLeaf, capped_newLeaf⟩
  | node tag k l r b ihl ihr =>
    cases path with
    | nil => cases h
    | cons d path =>
      cases d with
      | true =>
        obtain ⟨⟨l', changed', up'⟩, hmod, h⟩ := Option.bind_eq_some_iff.1 h
        cases changed' with
        | false =>
          cases h
          exact ht
        | true =>
          obtain ⟨⟨t₁, up₁⟩, hraise, heq⟩ := Option.map_eq_some_iff.1 h
          cases heq
          exact (ihl ht.1 hmod).raiseLeft ht.2.1 hraise
      | false =>
        obtain ⟨⟨r', changed', up'⟩, hmod, h⟩ := Option.bind_eq_some_iff.1 h
        cases changed' with
        | false =>
          cases h
          exact ht
        | true =>
          obtain ⟨⟨t₁, up₁⟩, hraise, heq⟩ := Option.map_eq_some_iff.1 h
          cases heq
          exact ht.1.raiseRight (ihr ht.2.1 hmod) hraise

theorem Capped.setLastNext {nk : K} (ht : Capped inner n t)
    (h : setLastNext t nk = some (t', visits)) : Capped inner n t' := by
  induction t generalizing t' visits with
  | stub d => cases h
  | leaf tag k v nk' =>
    cases h
    exact capped_newLeaf
  | node tag k l r b _ ihr =>
    obtain ⟨⟨r', vr⟩, hset, heq⟩ := Option.map_eq_some_iff.1 h
    cases heq
    exact capped_new.2 ⟨ht.1, ihr ht.2.1 hset⟩

theorem Capped.setFirst {v : V} (ht : Capped inner n t) (h : setFirst t k v = some (t', visits)) :
    Capped inner n t' := by
  induction t generalizing t' visits with
  | stub d => cases h
  | leaf tag k' v' nk =>
    cases h
    exact capped_newLeaf
  | node tag k' l r b ihl _ =>
    obtain ⟨⟨l', vl⟩, hset, heq⟩ := Option.map_eq_some_iff.1 h
    cases heq
    exact capped_new.2 ⟨ihl ht.1 hset, ht.2.1⟩

theorem Capped.removeMax {down : Bool} {e : K × V} (ht : Capped inner n t)
    (h : removeMax t = some (t', down, e, visits)) : Capped inner n t' := by
  induction t generalizing t' down e visits with
  | stub d => cases h
  | leaf tag k v nk => cases h
  | node tag k l r b _ ihr =>
    cases r with
    | stub d => cases h
    | leaf tr kr vr nr =>
      cases h
      exact ht.1
    | node tr kr rl rr br =>
      obtain ⟨⟨r', dr, er, vr⟩, hrem, h⟩ := Option.bind_eq_some_iff.1 h
      obtain ⟨⟨y, down', vy⟩, hlow, heq⟩ := Option.map_eq_some_iff.1 h
      cases heq
      exact ht.1.lowerRight (ihr ht.2.1 hrem) hlow

theorem Capped.deleteRoot {down : Bool} (hl : Capped inner n l) (hr : Capped inner n r)
    (h : deleteRoot tag l r b = some (t', down, visits)) : Capped inner n t' := by
  unfold LeafTree.deleteRoot at h
  split at h
  · cases h
  · obtain ⟨⟨y, vy⟩, hset, heq⟩ := Option.map_eq_some_iff.1 h
    cases heq
    exact hl.setLastNext hset
  · split at h
    · cases h
    · obtain ⟨⟨y, vy⟩, hset, heq⟩ := Option.map_eq_some_iff.1 h
      cases heq
      exact hr.setFirst hset
    · obtain ⟨⟨y, dy, e, vy⟩, hrem, h⟩ := Option.bind_eq_some_iff.1 h
      obtain ⟨⟨z, vz⟩, hset, h⟩ := Option.bind_eq_some_iff.1 h
      obtain ⟨⟨w, dw, vw⟩, hlow, heq⟩ := Option.map_eq_some_iff.1 h
      cases heq
      exact (hl.removeMax hrem).lowerLeft (hr.setFirst hset) hlow

theorem Capped.deleteAt {cmps : List Ordering} {down : Bool} (ht : Capped inner n t)
    (h : deleteAt t cmps = some (t', down, visits)) : Capped inner n t' := by
  induction t generalizing cmps t' down visits with
  | stub d => cases h
  | leaf tag k v nk => cases h
  | node tag k l r b ihl ihr =>
    cases cmps with
    | nil => cases h
    | cons c cmps =>
      cases c with
      | eq => exact ht.1.deleteRoot ht.2.1 h
      | lt =>
        rw [LeafTree.deleteAt] at h
        split at h
        · obtain ⟨⟨y, dy, vy⟩, hdel, h⟩ := Option.bind_eq_some_iff.1 h
          obtain ⟨⟨w, dw, vw⟩, hlow, heq⟩ := Option.map_eq_some_iff.1 h
          cases heq
          exact (ihl ht.1 hdel).lowerLeft ht.2.1 hlow
        · cases h
      | gt =>
        rw [LeafTree.deleteAt] at h
        split at h
        · obtain ⟨⟨y, dy, vy⟩, hdel, h⟩ := Option.bind_eq_some_iff.1 h
          obtain ⟨⟨w, dw, vw⟩, hlow, heq⟩ := Option.map_eq_some_iff.1 h
          cases heq
          exact ht.1.lowerRight (ihr ht.2.1 hdel) hlow
        · cases h

/-! ## How many visits there are -/

/-- The tag of a root counts only if the tree is no higher than `n`. -/
theorem Capped.tags_count (ht : Capped inner n t) :
    t.tags.countP inner = 0 ∨ t.tags.countP inner ≤ 1 ∧ t.height ≤ n := by
  cases t with
  | stub d => exact .inl rfl
  | leaf tag k v nk => exact .inl (List.countP_eq_zero.2 fun x hx => by simp [ht x hx])
  | node tag k l r b =>
    cases tag with
    | none => exact .inl rfl
    | some x => exact .inr ⟨List.countP_le_length, ht.2.2 rfl⟩

/-- A way down. -/
theorem Capped.pathTags_count (ht : Capped inner n t) (path : List Bool) :
    (pathTags t path).countP inner ≤ t.height ∧ (pathTags t path).countP inner ≤ n := by
  induction t generalizing path with
  | stub d => exact ⟨Nat.zero_le _, Nat.zero_le _⟩
  | leaf tag k v nk =>
    have hzero : (pathTags (leaf tag k v nk : LeafTree τ D K V) path).countP inner = 0 := by
      rw [pathTags]
      exact List.countP_eq_zero.2 fun x hx => by simp [ht x hx]
    omega
  | node tag k l r b ihl ihr =>
    have hroot : tag.toList.countP inner = 0
        ∨ tag.toList.countP inner ≤ 1 ∧ max l.height r.height + 1 ≤ n := ht.tags_count
    cases path with
    | nil => exact ⟨Nat.zero_le _, Nat.zero_le _⟩
    | cons d path =>
      rw [height_node]
      cases d with
      | true =>
        have := ihl ht.1 path
        rw [pathTags, List.countP_append]
        omega
      | false =>
        have := ihr ht.2.1 path
        rw [pathTags, List.countP_append]
        omega

/-- The change of the last leaf visits a way down. -/
theorem exists_path_of_setLastNext {nk : K} (h : setLastNext t nk = some (t', visits)) :
    ∃ path, visits = pathTags t path := by
  induction t generalizing t' visits with
  | stub d => cases h
  | leaf tag k v nk' =>
    cases h
    exact ⟨[], rfl⟩
  | node tag k l r b _ ihr =>
    obtain ⟨⟨r', vr⟩, hset, heq⟩ := Option.map_eq_some_iff.1 h
    cases heq
    obtain ⟨path, rfl⟩ := ihr hset
    exact ⟨false :: path, rfl⟩

/-- The change of the first leaf visits the way of a key that was met. -/
theorem visits_of_setFirst [LinearOrder K] {v : V} (h : setFirst t k v = some (t', visits))
    (key : K) : visits = pathTags t (searchPath key true t) := by
  induction t generalizing t' visits with
  | stub d => cases h
  | leaf tag k' v' nk =>
    cases h
    rfl
  | node tag k' l r b ihl _ =>
    obtain ⟨⟨l', vl⟩, hset, heq⟩ := Option.map_eq_some_iff.1 h
    cases heq
    rw [searchPath, pathTags, ← ihl hset]

/-- No node on the way to a first leaf that was changed has a tag. -/
theorem setFirst_new {v : V} (h : setFirst t k v = some (t', visits)) :
    t'.tags = [] ∧ ∀ tag k' l r b, t' = node tag k' l r b → l.tags = [] := by
  cases t with
  | stub d => cases h
  | leaf tag k' v' nk =>
    cases h
    exact ⟨rfl, fun _ _ _ _ _ h => by cases h⟩
  | node tag k' l r b =>
    obtain ⟨⟨l', vl⟩, hset, heq⟩ := Option.map_eq_some_iff.1 h
    cases heq
    refine ⟨rfl, fun _ _ _ _ _ h => ?_⟩
    cases h
    cases l with
    | stub d => cases hset
    | leaf tag k' v' nk =>
      cases hset
      rfl
    | node tag k' ll lr bl =>
      obtain ⟨⟨y, vy⟩, _, heq⟩ := Option.map_eq_some_iff.1 hset
      cases heq
      rfl

/-- A rotation on the way back visits the sibling, which is higher by one than the part that got
lower was, and perhaps a child of it. -/
theorem lowerLeft_count {lower down : Bool} {hl : ℕ} (hr : Capped inner n r) (hbal : r.Balanced)
    (hb : Tilt b hl r.height) (h : lowerLeft k l r b lower = some (t, down, visits)) :
    visits.countP inner = 0 ∨ r.height = hl + 1
      ∧ (visits.countP inner ≤ 1 ∧ hl ≤ n ∨ visits.countP inner ≤ 2 ∧ hl + 1 ≤ n) := by
  unfold lowerLeft at h
  split at h
  · rename_i hrot
    have hheight : r.height = hl + 1 := by
      rcases hb with ⟨rfl, _⟩ | ⟨rfl, _⟩ | ⟨rfl, heq⟩
      · simp at hrot
      · simp at hrot
      · exact heq
    split at h
    · rename_i tr kr rl rr br
      have hroot : tr.toList.countP inner = 0
          ∨ tr.toList.countP inner ≤ 1 ∧ max rl.height rr.height + 1 ≤ n := hr.tags_count
      have hsum := hheight
      rw [height_node] at hsum
      split at h
      · rename_i hbr
        obtain ⟨t', _, heq⟩ := Option.map_eq_some_iff.1 h
        cases heq
        have hmid := hr.1.tags_count
        obtain ⟨_, _, ⟨rfl, _⟩ | ⟨rfl, _⟩ | ⟨rfl, _⟩⟩ := balanced_node_iff.1 hbal
        · rw [List.countP_append]
          omega
        · simp at hbr
        · simp at hbr
      · cases h
        omega
    · cases h
  · cases h
    exact .inl rfl

theorem lowerRight_count {lower down : Bool} {hr : ℕ} (hl : Capped inner n l) (hbal : l.Balanced)
    (hb : Tilt b l.height hr) (h : lowerRight k l r b lower = some (t, down, visits)) :
    visits.countP inner = 0 ∨ l.height = hr + 1
      ∧ (visits.countP inner ≤ 1 ∧ hr ≤ n ∨ visits.countP inner ≤ 2 ∧ hr + 1 ≤ n) := by
  unfold lowerRight at h
  split at h
  · rename_i hrot
    have hheight : l.height = hr + 1 := by
      rcases hb with ⟨rfl, heq⟩ | ⟨rfl, _⟩ | ⟨rfl, _⟩
      · exact heq
      · simp at hrot
      · simp at hrot
    split at h
    · rename_i tl kl ll lr bl
      have hroot : tl.toList.countP inner = 0
          ∨ tl.toList.countP inner ≤ 1 ∧ max ll.height lr.height + 1 ≤ n := hl.tags_count
      have hsum := hheight
      rw [height_node] at hsum
      split at h
      · rename_i hbl
        obtain ⟨t', _, heq⟩ := Option.map_eq_some_iff.1 h
        cases heq
        have hmid := hl.2.1.tags_count
        obtain ⟨_, _, ⟨rfl, _⟩ | ⟨rfl, _⟩ | ⟨rfl, _⟩⟩ := balanced_node_iff.1 hbal
        · simp at hbl
        · simp at hbl
        · rw [List.countP_append]
          omega
      · cases h
        omega
    · cases h
  · cases h
    exact .inl rfl

/-- After the first leaf was changed, a rotation visits no node with a tag. -/
theorem lowerLeft_setFirst {lower down : Bool} {v : V} {vz : List τ}
    (hset : setFirst r k v = some (t, vz)) (h : lowerLeft k l t b lower = some (t', down, visits)) :
    visits = [] := by
  obtain ⟨hroot, hleft⟩ := setFirst_new hset
  unfold lowerLeft at h
  split at h
  · split at h
    · rename_i tr kr rl rr br
      have htr : tr.toList = [] := hroot
      have hrl : rl.tags = [] := hleft _ _ _ _ _ rfl
      split at h
      · obtain ⟨t', _, heq⟩ := Option.map_eq_some_iff.1 h
        cases heq
        rw [htr, hrl, List.append_nil]
      · cases h
        exact htr
    · cases h
  · cases h
    rfl

/-! ## A leaf removed -/

/-- The removal of the last leaf: half as many nodes again as there are on the way, for the
rotations. -/
theorem removeMax_count {down : Bool} {e : K × V} (ht : Capped inner n t) (hbal : t.Balanced)
    (h : removeMax t = some (t', down, e, visits)) :
    2 * visits.countP inner ≤ 3 * t.height ∧ 2 * visits.countP inner ≤ 3 * n + 2 := by
  induction t generalizing t' down e visits with
  | stub d => cases h
  | leaf tag k v nk => cases h
  | node tag k l r b _ ihr =>
    have hroot : tag.toList.countP inner = 0
        ∨ tag.toList.countP inner ≤ 1 ∧ max l.height r.height + 1 ≤ n := ht.tags_count
    obtain ⟨hbl, hbr, hb⟩ := balanced_node_iff.1 hbal
    cases r with
    | stub d => cases h
    | leaf tr kr vr nr =>
      cases h
      have hleaf : tr.toList.countP inner = 0 :=
        List.countP_eq_zero.2 fun x hx => by simp [ht.2.1 x hx]
      rw [List.countP_append, height_node]
      omega
    | node tr kr rl rr br =>
      obtain ⟨⟨r', dr, er, vr⟩, hrem, h⟩ := Option.bind_eq_some_iff.1 h
      obtain ⟨⟨y, down', vy⟩, hlow, heq⟩ := Option.map_eq_some_iff.1 h
      cases heq
      have hdown := ihr ht.2.1 hbr hrem
      have hback := lowerRight_count ht.1 hbl hb hlow
      simp only [List.countP_append]
      rw [height_node]
      omega

/-- The removal of a root and of the first leaf on its right. -/
theorem deleteRoot_count [LinearOrder K] {down : Bool} (ht : Capped inner n (node tag k l r b))
    (hbal : (node tag k l r b).Balanced) (h : deleteRoot tag l r b = some (t', down, visits)) :
    2 * visits.countP inner ≤ 5 * (max l.height r.height + 1)
      ∧ 2 * visits.countP inner ≤ 5 * n + 2 := by
  have hroot : tag.toList.countP inner = 0
      ∨ tag.toList.countP inner ≤ 1 ∧ max l.height r.height + 1 ≤ n := ht.tags_count
  obtain ⟨hl, hr, _⟩ := ht
  have hlower {tag : Option τ} {k : K} {v : V} {nk : K}
      (hleaf : Capped inner n (leaf tag k v nk : LeafTree τ D K V)) :
      tag.toList.countP inner = 0 := List.countP_eq_zero.2 fun x hx => by simp [hleaf x hx]
  cases r with
  | stub d => cases h
  | leaf tr kr vr nr =>
    obtain ⟨⟨y, vy⟩, hset, heq⟩ := Option.map_eq_some_iff.1 h
    cases heq
    obtain ⟨path, rfl⟩ := exists_path_of_setLastNext hset
    have hpath := hl.pathTags_count path
    have hleaf := hlower hr
    simp only [List.countP_append]
    omega
  | node tr kr rl rr br =>
    cases l with
    | stub d => cases h
    | leaf tl kl vl nl =>
      obtain ⟨⟨y, vy⟩, hset, heq⟩ := Option.map_eq_some_iff.1 h
      cases heq
      obtain rfl := visits_of_setFirst hset kl
      have hpath := hr.pathTags_count (searchPath kl true (node tr kr rl rr br))
      have hleaf := hlower hl
      simp only [List.countP_append]
      omega
    | node tl kl ll lr bl =>
      obtain ⟨⟨y, dy, e, vy⟩, hrem, h⟩ := Option.bind_eq_some_iff.1 h
      obtain ⟨⟨z, vz⟩, hset, h⟩ := Option.bind_eq_some_iff.1 h
      obtain ⟨⟨w, dw, vw⟩, hlow, heq⟩ := Option.map_eq_some_iff.1 h
      cases heq
      obtain rfl := lowerLeft_setFirst hset hlow
      obtain rfl := visits_of_setFirst hset kl
      have hpath := hr.pathTags_count (searchPath kl true (node tr kr rl rr br))
      have hmax := removeMax_count hl hbal.1 hrem
      simp only [List.countP_append, List.countP_nil]
      omega

/-- **A leaf removed**: on the second way down half as many nodes again as there are on it, for
the rotations, and the rest of the first way. -/
theorem deleteAt_count [LinearOrder K] {cmps : List Ordering} {down : Bool}
    (ht : Capped inner n t) (hbal : t.Balanced) (h : deleteAt t cmps = some (t', down, visits)) :
    2 * visits.countP inner ≤ 5 * t.height ∧ 2 * visits.countP inner ≤ 5 * n + 2 := by
  induction t generalizing cmps t' down visits with
  | stub d => cases h
  | leaf tag k v nk => cases h
  | node tag k l r b ihl ihr =>
    have hroot : tag.toList.countP inner = 0
        ∨ tag.toList.countP inner ≤ 1 ∧ max l.height r.height + 1 ≤ n := ht.tags_count
    obtain ⟨hbl, hbr, hb⟩ := balanced_node_iff.1 hbal
    cases cmps with
    | nil => cases h
    | cons c cmps =>
      cases c with
      | eq => exact deleteRoot_count ht hbal h
      | lt =>
        rw [deleteAt] at h
        split at h
        · obtain ⟨⟨y, dy, vy⟩, hdel, h⟩ := Option.bind_eq_some_iff.1 h
          obtain ⟨⟨w, dw, vw⟩, hlow, heq⟩ := Option.map_eq_some_iff.1 h
          cases heq
          have hdown := ihl ht.1 hbl hdel
          have hback := lowerLeft_count ht.2.1 hbr hb hlow
          simp only [List.countP_append]
          rw [height_node]
          omega
        · cases h
      | gt =>
        rw [deleteAt] at h
        split at h
        · obtain ⟨⟨y, dy, vy⟩, hdel, h⟩ := Option.bind_eq_some_iff.1 h
          obtain ⟨⟨w, dw, vw⟩, hlow, heq⟩ := Option.map_eq_some_iff.1 h
          cases heq
          have hdown := ihr ht.2.1 hbr hdel
          have hback := lowerRight_count ht.1 hbl hb hlow
          simp only [List.countP_append]
          rw [height_node]
          omega
        · cases h

/-- The search for the leaf passes no other nodes than its removal. -/
theorem pathTags_subset_visits [LinearOrder K] {key : K} {more : List Ordering} {down : Bool}
    (h : deleteAt t (cmpPath key t ++ more) = some (t', down, visits)) :
    pathTags t (searchPath key false t) ⊆ visits := by
  induction t generalizing t' down visits with
  | stub d => exact List.nil_subset _
  | leaf tag k v nk => cases h
  | node tag k l r b ihl ihr =>
    rw [cmpPath] at h
    rw [searchPath]
    rcases lt_trichotomy key k with hlt | rfl | hgt
    · rw [if_pos hlt, List.cons_append, deleteAt] at h
      rw [if_pos hlt, pathTags]
      split at h
      · obtain ⟨⟨y, dy, vy⟩, hdel, h⟩ := Option.bind_eq_some_iff.1 h
        obtain ⟨⟨w, dw, vw⟩, _, heq⟩ := Option.map_eq_some_iff.1 h
        cases heq
        refine List.append_subset.2 ⟨fun x hx => ?_, fun x hx => ?_⟩
        · exact List.mem_append_left _ (List.mem_append_left _ hx)
        · exact List.mem_append_left _ (List.mem_append_right _ (ihl hdel hx))
      · cases h
    · rw [if_neg (lt_irrefl _), if_pos rfl, List.cons_append, deleteAt] at h
      unfold deleteRoot at h
      rw [if_neg (lt_irrefl _), if_pos rfl, pathTags]
      split at h
      · cases h
      · obtain ⟨⟨y, vy⟩, _, heq⟩ := Option.map_eq_some_iff.1 h
        cases heq
        exact List.subset_append_left _ _
      · split at h
        · cases h
        · obtain ⟨⟨y, vy⟩, hset, heq⟩ := Option.map_eq_some_iff.1 h
          cases heq
          rw [← visits_of_setFirst hset]
          refine List.append_subset.2 ⟨fun x hx => ?_, List.subset_append_right _ _⟩
          exact List.mem_append_left _ (List.mem_append_left _ hx)
        · obtain ⟨⟨y, dy, e, vy⟩, _, h⟩ := Option.bind_eq_some_iff.1 h
          obtain ⟨⟨z, vz⟩, hset, h⟩ := Option.bind_eq_some_iff.1 h
          obtain ⟨⟨w, dw, vw⟩, _, heq⟩ := Option.map_eq_some_iff.1 h
          cases heq
          rw [← visits_of_setFirst hset]
          refine List.append_subset.2 ⟨fun x hx => ?_, fun x hx => ?_⟩
          · exact List.mem_append_left _ (List.mem_append_left _ (List.mem_append_left _ hx))
          · exact List.mem_append_left _ (List.mem_append_right _ hx)
    · rw [if_neg (not_lt.2 hgt.le), if_neg hgt.ne', List.cons_append, deleteAt] at h
      rw [if_neg (not_lt.2 hgt.le), if_neg hgt.ne', pathTags]
      split at h
      · obtain ⟨⟨y, dy, vy⟩, hdel, h⟩ := Option.bind_eq_some_iff.1 h
        obtain ⟨⟨w, dw, vw⟩, _, heq⟩ := Option.map_eq_some_iff.1 h
        cases heq
        refine List.append_subset.2 ⟨fun x hx => ?_, fun x hx => ?_⟩
        · exact List.mem_append_left _ (List.mem_append_left _ hx)
        · exact List.mem_append_left _ (List.mem_append_right _ (ihr hdel hx))
      · cases h

end

/-! ## The tree before the operations -/

/-- The tags of the inner nodes. -/
def innerTags : LeafTree τ D K V → List τ
  | node tag _ l r _ => tag.toList ++ innerTags l ++ innerTags r
  | _ => []

/-- The number of inner nodes. -/
def innerCount : LeafTree τ D K V → ℕ
  | node _ _ l r _ => innerCount l + innerCount r + 1
  | _ => 0

/-- All nodes have tags. -/
def AllTagged : LeafTree τ D K V → Prop
  | stub _ => True
  | leaf tag _ _ _ => tag.isSome = true
  | node tag _ l r _ => tag.isSome = true ∧ AllTagged l ∧ AllTagged r

section

variable {t : LeafTree τ D K V} {inner seen : τ → Bool} {n : ℕ}

theorem innerTags_sublist (t : LeafTree τ D K V) : t.innerTags.Sublist t.allTags := by
  induction t with
  | stub d => exact .refl _
  | leaf tag k v nk => exact List.nil_sublist _
  | node tag k l r b ihl ihr => exact ((List.Sublist.refl _).append ihl).append ihr

/-- A tree is capped by its height, when its tags differ. -/
theorem capped_of_nodup (hnodup : t.allTags.Nodup)
    (hinner : ∀ x ∈ t.allTags, inner x = true → x ∈ t.innerTags) (hn : t.height ≤ n) :
    Capped inner n t := by
  induction t with
  | stub d => trivial
  | leaf tag k v nk =>
    intro x hx
    by_contra hne
    rw [Bool.not_eq_false] at hne
    cases hinner x hx hne
  | node tag k l r b ihl ihr =>
    rw [height_node] at hn
    obtain ⟨hleft, hr, hdisj⟩ := List.nodup_append.1 hnodup
    obtain ⟨_, hl, hdisj'⟩ := List.nodup_append.1 hleft
    refine ⟨ihl hl (fun x hx hix => ?_) (by omega), ihr hr (fun x hx hix => ?_) (by omega),
      fun _ => hn⟩
    · rcases List.mem_append.1 (hinner x (List.mem_append_left _ (List.mem_append_right _ hx)) hix)
        with hmem | hmem
      · rcases List.mem_append.1 hmem with hmem | hmem
        · exact absurd rfl (hdisj' x hmem x hx)
        · exact hmem
      · have hxr := (innerTags_sublist r).subset hmem
        exact absurd rfl (hdisj x (List.mem_append_right _ hx) x hxr)
    · rcases List.mem_append.1 (hinner x (List.mem_append_right _ hx) hix) with hmem | hmem
      · rcases List.mem_append.1 hmem with hmem | hmem
        · exact absurd rfl (hdisj x (List.mem_append_left _ hmem) x hx)
        · have hxl := (innerTags_sublist l).subset hmem
          exact absurd rfl (hdisj x (List.mem_append_right _ hxl) x hx)
      · exact hmem

/-- The inner nodes of a pruned tree have tags that were seen. -/
theorem innerCount_prune_le (label : LeafTree τ D K V → D) (ht : t.AllTagged) :
    (prune label seen t).innerCount ≤ t.innerTags.countP seen := by
  induction t with
  | stub d => exact Nat.zero_le _
  | leaf tag k v nk =>
    rw [prune]
    split <;> exact Nat.zero_le _
  | node tag k l r b ihl ihr =>
    obtain ⟨htag, hl, hr⟩ := ht
    obtain ⟨x, rfl⟩ := Option.isSome_iff_exists.1 htag
    rw [prune]
    split
    · rename_i hseen
      have hx : seen x = true := hseen
      have := ihl hl
      have := ihr hr
      rw [innerCount, innerTags, List.countP_append, List.countP_append, Option.toList,
        List.countP_singleton, if_pos hx]
      omega
    · exact Nat.zero_le _

/-- The tags of inner nodes that were visited, when these differ. -/
theorem countP_innerTags_le [DecidableEq τ] (hnodup : t.allTags.Nodup) {V W : List τ}
    (hsub : V ⊆ W) :
    t.innerTags.countP (fun x => decide (x ∈ V)) ≤ W.countP fun x => decide (x ∈ t.innerTags) := by
  rw [List.countP_eq_length_filter, List.countP_eq_length_filter]
  have hfilter := (hnodup.sublist (innerTags_sublist t)).filter fun x => decide (x ∈ V)
  refine (hfilter.subperm fun x hx => ?_).length_le
  obtain ⟨hmem, hx⟩ := List.mem_filter.1 hx
  exact List.mem_filter.2 ⟨hsub (of_decide_eq_true hx), decide_eq_true hmem⟩

end

end Sparkz.Lib.LeafTree
