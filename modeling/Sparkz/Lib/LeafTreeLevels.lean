import Sparkz.Lib.LeafTreeSearch

/-!
# Leaf-oriented treaps

Leaf-oriented search trees in which the key of each inner node has a level: a node has a
higher level than its left child, and no lower one than its right child.  The balances are
not used; they are 0.

* `liftLeft`, `liftRight` — put a changed child below a root, or above it where its level
  demands that; `changeAt` — change, or split, the leaf at the end of a path.
* `changeAt_spec` — the tree stays a chain and its bindings change in one place, whatever
  the levels are.
* `Heaped`, `changeAt_heaped` — the order of the levels, which a change keeps.
* `eq_of_entries` — the bindings determine the tree.
-/

namespace Sparkz.Lib.LeafTree

variable {τ D K V : Type}

section

variable (cmp : K → K → Ordering)

/-- Put a changed left child below a root; `cmp` compares the levels of two keys. -/
def liftLeft (k : K) (l r : LeafTree τ D K V) : LeafTree τ D K V :=
  match l with
  | node _ kl ll lr _ =>
      if (cmp kl k).isGE then node none kl ll (node none k lr r 0) 0 else node none k l r 0
  | _ => node none k l r 0

/-- Put a changed right child below a root. -/
def liftRight (k : K) (l r : LeafTree τ D K V) : LeafTree τ D K V :=
  match r with
  | node _ kr rl rr _ =>
      if (cmp kr k).isGT then node none kr (node none k l rl 0) rr 0 else node none k l r 0
  | _ => node none k l r 0

/-- Follow the path (`true` is left), act on the leaf there, and restore the order of the
levels on the way back. -/
def changeAt : LeafTree τ D K V → List Bool → Action K V → Option (LeafTree τ D K V)
  | leaf _ k _ n, [], .update v => some (leaf none k v n)
  | leaf _ k v n, [], .insert key value =>
      some (node none key (leaf none k v key) (leaf none key value n) 0)
  | node _ k l r _, true :: path, act => (changeAt l path act).map fun l' => liftLeft cmp k l' r
  | node _ k l r _, false :: path, act => (changeAt r path act).map fun r' => liftRight cmp k l r'
  | _, _, _ => none

variable {cmp}

variable (cmp) in
theorem liftLeft_cases (k : K) (l r : LeafTree τ D K V) :
    liftLeft cmp k l r = node none k l r 0
      ∨ ∃ tag kl ll lr b, l = node tag kl ll lr b ∧ (cmp kl k).isGE
        ∧ liftLeft cmp k l r = node none kl ll (node none k lr r 0) 0 := by
  cases l with
  | stub d => exact .inl rfl
  | leaf tag k' v n => exact .inl rfl
  | node tag kl ll lr b =>
    by_cases hge : (cmp kl k).isGE
    · exact .inr ⟨tag, kl, ll, lr, b, rfl, hge, if_pos hge⟩
    · exact .inl (if_neg hge)

variable (cmp) in
theorem liftRight_cases (k : K) (l r : LeafTree τ D K V) :
    liftRight cmp k l r = node none k l r 0
      ∨ ∃ tag kr rl rr b, r = node tag kr rl rr b ∧ (cmp kr k).isGT
        ∧ liftRight cmp k l r = node none kr (node none k l rl 0) rr 0 := by
  cases r with
  | stub d => exact .inl rfl
  | leaf tag k' v n => exact .inl rfl
  | node tag kr rl rr b =>
    by_cases hgt : (cmp kr k).isGT
    · exact .inr ⟨tag, kr, rl, rr, b, rfl, hgt, if_pos hgt⟩
    · exact .inl (if_neg hgt)

@[simp] theorem entries_liftLeft (k : K) (l r : LeafTree τ D K V) :
    (liftLeft cmp k l r).entries = l.entries ++ r.entries := by
  rcases liftLeft_cases cmp k l r with heq | ⟨_, kl, ll, lr, b, rfl, _, heq⟩
  · rw [heq, entries_node]
  · rw [heq, entries_node, entries_node, entries_node, List.append_assoc]

@[simp] theorem entries_liftRight (k : K) (l r : LeafTree τ D K V) :
    (liftRight cmp k l r).entries = l.entries ++ r.entries := by
  rcases liftRight_cases cmp k l r with heq | ⟨_, kr, rl, rr, b, rfl, _, heq⟩
  · rw [heq, entries_node]
  · rw [heq, entries_node, entries_node, entries_node, List.append_assoc]

theorem Chain.liftLeft [LinearOrder K] {lo hi k : K} {l r : LeafTree τ D K V} (hl : Chain lo k l)
    (hr : Chain k hi r) : Chain lo hi (liftLeft cmp k l r) := by
  rcases liftLeft_cases cmp k l r with heq | ⟨_, kl, ll, lr, b, rfl, _, heq⟩
  · rw [heq]
    exact ⟨hl, hr⟩
  · rw [heq]
    exact ⟨hl.1, hl.2, hr⟩

theorem Chain.liftRight [LinearOrder K] {lo hi k : K} {l r : LeafTree τ D K V} (hl : Chain lo k l)
    (hr : Chain k hi r) : Chain lo hi (liftRight cmp k l r) := by
  rcases liftRight_cases cmp k l r with heq | ⟨_, kr, rl, rr, b, rfl, _, heq⟩
  · rw [heq]
    exact ⟨hl, hr⟩
  · rw [heq]
    exact ⟨⟨hl, hr.1⟩, hr.2⟩

variable (cmp) in
/-- **A leaf changed, or split**: the tree stays a chain where the new key fits, and its
bindings change in one place. -/
theorem changeAt_spec [LinearOrder K] {t : LeafTree τ D K V} {lo hi : K} (h : Chain lo hi t)
    {path : List Bool} {k : K} {v : V} {n : K} {act : Action K V}
    (hleaf : leafAt t path = some (k, v, n)) (hact : act ≠ .keep) (hfits : act.Fits k n) :
    ∃ t', changeAt cmp t path act = some t' ∧ Chain lo hi t'
      ∧ ∃ pre post, t.entries = pre ++ (k, v) :: post
        ∧ t'.entries = pre ++ act.bindings k v ++ post := by
  induction t generalizing path lo hi with
  | stub d => exact h.elim
  | leaf tag k' v' n' =>
    cases path with
    | cons d path => cases hleaf
    | nil =>
      cases hleaf
      obtain ⟨rfl, rfl, hlt⟩ := h
      cases act with
      | keep => exact absurd rfl hact
      | update value => exact ⟨_, rfl, ⟨rfl, rfl, hlt⟩, [], [], rfl, rfl⟩
      | insert key value =>
        exact ⟨_, rfl, ⟨⟨rfl, rfl, hfits.1⟩, rfl, rfl, hfits.2⟩, [], [], rfl, rfl⟩
  | node tag k' l r b ihl ihr =>
    cases path with
    | nil => cases hleaf
    | cons d path =>
      cases d with
      | true =>
        obtain ⟨l', hrun, hchain, pre, post, hent, hent'⟩ := ihl h.1 hleaf
        refine ⟨LeafTree.liftLeft cmp k' l' r, by rw [changeAt, hrun, Option.map_some],
          hchain.liftLeft h.2, pre, post ++ r.entries, ?_, ?_⟩
        · rw [entries_node, hent, List.append_assoc, List.cons_append]
        · rw [entries_liftLeft, hent', List.append_assoc]
      | false =>
        obtain ⟨r', hrun, hchain, pre, post, hent, hent'⟩ := ihr h.2 hleaf
        refine ⟨LeafTree.liftRight cmp k' l r', by rw [changeAt, hrun, Option.map_some],
          h.1.liftRight hchain, l.entries ++ pre, post, ?_, ?_⟩
        · rw [entries_node, hent, List.append_assoc]
        · rw [entries_liftRight, hent', List.append_assoc, List.append_assoc, List.append_assoc]

end

/-! ## The order of the levels -/

/-- The key of the root, if it is an inner node. -/
def rootKey : LeafTree τ D K V → Option K
  | node _ k _ _ _ => some k
  | _ => none

/-- The keys of the inner nodes, in order. -/
def innerKeys : LeafTree τ D K V → List K
  | node _ k l r _ => innerKeys l ++ k :: innerKeys r
  | _ => []

/-- The keys that an action gives to inner nodes. -/
def Action.newKeys : Action K V → List K
  | .insert key _ => [key]
  | _ => []

section

variable {L : Type*} [LinearOrder L] (level : K → L)

/-- **The order of the levels**: higher than to the left, and not lower than to the right. -/
def Heaped : LeafTree τ D K V → Prop
  | node _ k l r _ => Heaped l ∧ Heaped r ∧ (∀ kl ∈ l.rootKey, level kl < level k)
      ∧ ∀ kr ∈ r.rootKey, level kr ≤ level k
  | _ => True

variable {level} {t l r : LeafTree τ D K V} {k : K}

theorem mem_innerKeys_of_rootKey (h : k ∈ t.rootKey) : k ∈ t.innerKeys := by
  cases t with
  | stub d => cases h
  | leaf tag k' v n => cases h
  | node tag k' l r b =>
    cases h
    exact List.mem_append_right _ List.mem_cons_self

/-- No level is higher than that of the root. -/
theorem Heaped.le_root (h : Heaped level t) :
    ∀ j ∈ t.innerKeys, ∃ k ∈ t.rootKey, level j ≤ level k := by
  induction t with
  | stub d => exact fun j hj => by cases hj
  | leaf tag k v n => exact fun j hj => by cases hj
  | node tag k l r b ihl ihr =>
    obtain ⟨hl, hr, hleft, hright⟩ := h
    refine fun j hj => ⟨k, rfl, ?_⟩
    rcases List.mem_append.1 hj with hj | hj
    · obtain ⟨kl, hkl, hle⟩ := ihl hl j hj
      exact hle.trans (hleft kl hkl).le
    · rcases List.mem_cons.1 hj with rfl | hj
      · exact le_refl _
      · obtain ⟨kr, hkr, hle⟩ := ihr hr j hj
        exact hle.trans (hright kr hkr)

/-- The order of the levels holds of all keys below a node. -/
theorem heaped_node_iff {tag : Option τ} {b : Int8} :
    Heaped level (node tag k l r b) ↔ Heaped level l ∧ Heaped level r
      ∧ (∀ j ∈ l.innerKeys, level j < level k) ∧ ∀ j ∈ r.innerKeys, level j ≤ level k := by
  constructor
  · rintro ⟨hl, hr, hleft, hright⟩
    refine ⟨hl, hr, fun j hj => ?_, fun j hj => ?_⟩
    · obtain ⟨kl, hkl, hle⟩ := hl.le_root j hj
      exact hle.trans_lt (hleft kl hkl)
    · obtain ⟨kr, hkr, hle⟩ := hr.le_root j hj
      exact hle.trans (hright kr hkr)
  · rintro ⟨hl, hr, hleft, hright⟩
    exact ⟨hl, hr, fun kl hkl => hleft kl (mem_innerKeys_of_rootKey hkl),
      fun kr hkr => hright kr (mem_innerKeys_of_rootKey hkr)⟩

/-- The order of two keys by their levels. -/
def byLevel (level : K → L) (j k : K) : Ordering := compare (level j) (level k)

theorem isGE_byLevel {j : K} : (byLevel level j k).isGE ↔ level k ≤ level j := by
  rw [byLevel, Ordering.isGE_iff_ne_lt]
  exact (not_congr compare_lt_iff_lt).trans not_lt

theorem isGT_byLevel {j : K} : (byLevel level j k).isGT ↔ level k < level j := by
  rw [byLevel, Ordering.isGT_iff_eq_gt, compare_gt_iff_gt]

@[simp] theorem innerKeys_node (tag : Option τ) (k : K) (l r : LeafTree τ D K V) (b : Int8) :
    (node tag k l r b).innerKeys = l.innerKeys ++ k :: r.innerKeys := rfl

theorem innerKeys_liftLeft {cmp : K → K → Ordering} (k : K) (l r : LeafTree τ D K V) :
    (liftLeft cmp k l r).innerKeys = l.innerKeys ++ k :: r.innerKeys := by
  rcases liftLeft_cases cmp k l r with heq | ⟨_, kl, ll, lr, b, rfl, _, heq⟩
  · rw [heq, innerKeys_node]
  · rw [heq, innerKeys_node, innerKeys_node, innerKeys_node, List.append_assoc, List.cons_append]

theorem innerKeys_liftRight {cmp : K → K → Ordering} (k : K) (l r : LeafTree τ D K V) :
    (liftRight cmp k l r).innerKeys = l.innerKeys ++ k :: r.innerKeys := by
  rcases liftRight_cases cmp k l r with heq | ⟨_, kr, rl, rr, b, rfl, _, heq⟩
  · rw [heq, innerKeys_node]
  · rw [heq, innerKeys_node, innerKeys_node, innerKeys_node, List.append_assoc, List.cons_append]

/-- A root that was not there before is new, and nothing else is. -/
theorem perm_of_newRoot {tag : Option τ} {b : Int8} {old new : List K}
    (hnew : new.length ≤ 1) (hperm : (node tag k l r b).innerKeys.Perm (new ++ old))
    (hk : k ∉ old) : (l.innerKeys ++ r.innerKeys).Perm old := by
  rw [innerKeys_node] at hperm
  have hmem : k ∈ new := by
    rcases List.mem_append.1 (hperm.mem_iff.1 (List.mem_append_right _ List.mem_cons_self)) with
      h | h
    · exact h
    · exact absurd h hk
  obtain rfl : new = [k] := by
    match new with
    | [j] => rw [List.mem_singleton.1 hmem]
  exact (List.perm_middle.symm.trans hperm).cons_inv

/-- A root above its changed left child. -/
theorem Heaped.liftLeft {l' : LeafTree τ D K V} {new : List K} (hnew : new.length ≤ 1)
    (hl' : Heaped level l') (hr : Heaped level r) (hperm : l'.innerKeys.Perm (new ++ l.innerKeys))
    (hleft : ∀ j ∈ l.innerKeys, level j < level k) (hright : ∀ j ∈ r.innerKeys, level j ≤ level k) :
    Heaped level (liftLeft (byLevel level) k l' r) := by
  cases l' with
  | stub d => exact heaped_node_iff.2 ⟨trivial, hr, (fun j hj => by cases hj), hright⟩
  | leaf tag k' v n => exact heaped_node_iff.2 ⟨trivial, hr, (fun j hj => by cases hj), hright⟩
  | node tag kl ll lr b =>
    rw [LeafTree.liftLeft]
    split
    · rename_i hge
      rw [isGE_byLevel] at hge
      -- the new left child is the new key, and all keys below it were there before
      have hkl : kl ∉ l.innerKeys := fun h => not_lt.2 hge (hleft kl h)
      have hbelow := perm_of_newRoot hnew hperm hkl
      obtain ⟨hll, hlr, hll', _⟩ := heaped_node_iff.1 hl'
      have hinner : Heaped level (node none k lr r 0) :=
        heaped_node_iff.2 ⟨hlr, hr,
          fun j hj => hleft j (hbelow.mem_iff.1 (List.mem_append_right _ hj)), hright⟩
      exact ⟨hll, hinner, fun j hj => hll' j (mem_innerKeys_of_rootKey hj),
        fun j hj => by cases hj; exact hge⟩
    · rename_i hge
      rw [isGE_byLevel, not_le] at hge
      exact ⟨hl', hr, fun j hj => by cases hj; exact hge,
        fun j hj => hright j (mem_innerKeys_of_rootKey hj)⟩

/-- A root above its changed right child. -/
theorem Heaped.liftRight {r' : LeafTree τ D K V} {new : List K} (hnew : new.length ≤ 1)
    (hl : Heaped level l) (hr' : Heaped level r') (hperm : r'.innerKeys.Perm (new ++ r.innerKeys))
    (hleft : ∀ j ∈ l.innerKeys, level j < level k) (hright : ∀ j ∈ r.innerKeys, level j ≤ level k) :
    Heaped level (liftRight (byLevel level) k l r') := by
  cases r' with
  | stub d => exact heaped_node_iff.2 ⟨hl, trivial, hleft, fun j hj => by cases hj⟩
  | leaf tag k' v n => exact heaped_node_iff.2 ⟨hl, trivial, hleft, fun j hj => by cases hj⟩
  | node tag kr rl rr b =>
    rw [LeafTree.liftRight]
    split
    · rename_i hgt
      rw [isGT_byLevel] at hgt
      have hkr : kr ∉ r.innerKeys := fun h => not_le.2 hgt (hright kr h)
      have hbelow := perm_of_newRoot hnew hperm hkr
      obtain ⟨hrl, hrr, _, hrr'⟩ := heaped_node_iff.1 hr'
      have hinner : Heaped level (node none k l rl 0) :=
        heaped_node_iff.2 ⟨hl, hrl, hleft,
          fun j hj => hright j (hbelow.mem_iff.1 (List.mem_append_left _ hj))⟩
      exact ⟨hinner, hrr, fun j hj => by cases hj; exact hgt,
        fun j hj => hrr' j (mem_innerKeys_of_rootKey hj)⟩
    · rename_i hgt
      rw [isGT_byLevel, not_lt] at hgt
      exact ⟨hl, hr', fun j hj => hleft j (mem_innerKeys_of_rootKey hj),
        fun j hj => by cases hj; exact hgt⟩

/-- **A change keeps the order of the levels**, and the keys of the inner nodes but for a
new one. -/
theorem changeAt_heaped {t' : LeafTree τ D K V} {path : List Bool} {act : Action K V}
    (h : Heaped level t) (hrun : changeAt (byLevel level) t path act = some t') :
    Heaped level t' ∧ t'.innerKeys.Perm (act.newKeys ++ t.innerKeys) := by
  have hnew : act.newKeys.length ≤ 1 := by
    cases act with
    | keep => exact Nat.zero_le _
    | update value => exact Nat.zero_le _
    | insert key value => exact le_refl _
  induction t generalizing path t' with
  | stub d => cases path <;> cases hrun
  | leaf tag k v n =>
    cases path with
    | cons d path => cases hrun
    | nil =>
      cases act with
      | keep => cases hrun
      | update value =>
        cases hrun
        exact ⟨trivial, List.Perm.refl _⟩
      | insert key value =>
        cases hrun
        exact ⟨⟨trivial, trivial, (fun _ hj => by cases hj), (fun _ hj => by cases hj)⟩,
          List.Perm.refl _⟩
  | node tag k l r b ihl ihr =>
    obtain ⟨hl, hr, hleft, hright⟩ := heaped_node_iff.1 h
    cases path with
    | nil => cases hrun
    | cons d path =>
      cases d with
      | true =>
        obtain ⟨l', hrunl, rfl⟩ := Option.map_eq_some_iff.1 hrun
        obtain ⟨hl', hperm⟩ := ihl hl hrunl
        refine ⟨Heaped.liftLeft hnew hl' hr hperm hleft hright, ?_⟩
        rw [innerKeys_liftLeft, innerKeys_node, ← List.append_assoc]
        exact hperm.append_right _
      | false =>
        obtain ⟨r', hrunr, rfl⟩ := Option.map_eq_some_iff.1 hrun
        obtain ⟨hr', hperm⟩ := ihr hr hrunr
        refine ⟨Heaped.liftRight hnew hl hr' hperm hleft hright, ?_⟩
        rw [innerKeys_liftRight, innerKeys_node]
        have hcomm : ((l.innerKeys ++ [k]) ++ (act.newKeys ++ r.innerKeys)).Perm
            (act.newKeys ++ ((l.innerKeys ++ [k]) ++ r.innerKeys)) :=
          List.perm_append_comm_assoc _ _ _
        rw [List.append_assoc, List.append_assoc, List.singleton_append, List.singleton_append]
          at hcomm
        exact ((hperm.cons k).append_left _).trans hcomm

/-! ## The bindings determine the tree -/

/-- Without tags, stubs and balances. -/
def Bare : LeafTree τ D K V → Prop
  | stub _ => False
  | leaf tag _ _ _ => tag = none
  | node tag _ l r b => tag = none ∧ b = 0 ∧ Bare l ∧ Bare r

section

variable [LinearOrder K] {t' : LeafTree τ D K V} {lo hi : K}

/-- The inner nodes have the keys of the leaves, but for the first one. -/
theorem Chain.keys_eq (h : Chain lo hi t) : t.entries.map Prod.fst = lo :: t.innerKeys := by
  induction t generalizing lo hi with
  | stub d => exact h.elim
  | leaf tag k v n =>
    obtain ⟨rfl, _, _⟩ := h
    rfl
  | node tag k l r b ihl ihr =>
    rw [entries_node, List.map_append, ihl h.1, ihr h.2]
    rfl

/-- The bindings on the left of a key. -/
theorem Chain.entries_left (hl : Chain lo k l) (hr : Chain k hi r) :
    (l.entries ++ r.entries).filter (fun e => e.1 < k) = l.entries := by
  have hleft : l.entries.filter (fun e => e.1 < k) = l.entries :=
    List.filter_eq_self.2 fun e he => decide_eq_true (hl.mem_entries he).2
  have hright : r.entries.filter (fun e => e.1 < k) = [] :=
    List.filter_eq_nil_iff.2 fun e he => by simpa using (hr.mem_entries he).1
  rw [List.filter_append, hleft, hright, List.append_nil]

/-- The root has the first of the keys with the highest level. -/
theorem Heaped.root_eq {tag tag' : Option τ} {k' : K} {l' r' : LeafTree τ D K V} {b b' : Int8}
    (h : Heaped level (node tag k l r b)) (h' : Heaped level (node tag' k' l' r' b'))
    (hc : Chain lo hi (node tag k l r b)) (hc' : Chain lo hi (node tag' k' l' r' b'))
    (hkeys : (node tag k l r b).innerKeys = (node tag' k' l' r' b').innerKeys) : k = k' := by
  -- the keys on the left of the later one include the other one
  have hlt : ∀ {tag tag' : Option τ} {k k' : K} {l r l' r' : LeafTree τ D K V} {b b' : Int8},
      Heaped level (node tag k l r b) → Heaped level (node tag' k' l' r' b') →
      Chain lo hi (node tag' k' l' r' b') →
      (node tag k l r b).innerKeys = (node tag' k' l' r' b').innerKeys → ¬ k < k' := by
    intro tag tag' k k' l r l' r' b b' h h' hc' hkeys hkk
    obtain ⟨_, _, hleft', _⟩ := heaped_node_iff.1 h'
    obtain ⟨kt, hkt, hle⟩ := h.le_root k'
      (hkeys ▸ List.mem_append_right _ List.mem_cons_self)
    cases hkt
    have hmem : k ∈ (node tag' k' l' r' b').innerKeys :=
      hkeys ▸ List.mem_append_right _ List.mem_cons_self
    rcases List.mem_append.1 hmem with hk | hk
    · exact not_lt.2 hle (hleft' k hk)
    · have hkr : k ∈ r'.entries.map Prod.fst := by rwa [hc'.2.keys_eq]
      obtain ⟨e, he, rfl⟩ := List.mem_map.1 hkr
      exact not_lt.2 (hc'.2.mem_entries he).1 hkk
  exact le_antisymm (not_lt.1 (hlt h' h hc hkeys.symm)) (not_lt.1 (hlt h h' hc' hkeys))

/-- **The bindings determine the tree.** -/
theorem eq_of_entries (hb : Bare t) (hb' : Bare t') (hh : Heaped level t) (hh' : Heaped level t')
    (hc : Chain lo hi t) (hc' : Chain lo hi t') (hent : t.entries = t'.entries) : t = t' := by
  have hkeys : ∀ {t t' : LeafTree τ D K V} {lo hi : K}, Chain lo hi t → Chain lo hi t' →
      t.entries = t'.entries → t.innerKeys = t'.innerKeys := by
    intro t t' lo hi hc hc' hent
    have := congrArg (List.map Prod.fst) hent
    rw [hc.keys_eq, hc'.keys_eq] at this
    exact (List.cons.inj this).2
  induction t generalizing t' lo hi with
  | stub d => exact hb.elim
  | leaf tag k v n =>
    cases t' with
    | stub d => exact hb'.elim
    | leaf tag' k' v' n' =>
      obtain ⟨rfl, rfl, _⟩ := hc
      obtain ⟨rfl, rfl, _⟩ := hc'
      obtain rfl : tag = none := hb
      obtain rfl : tag' = none := hb'
      cases hent
      rfl
    | node tag' k' l' r' b' =>
      have := congrArg List.length (hkeys hc hc' hent)
      simp [innerKeys] at this
  | node tag k l r b ihl ihr =>
    cases t' with
    | stub d => exact hb'.elim
    | leaf tag' k' v' n' =>
      have := congrArg List.length (hkeys hc hc' hent)
      simp [innerKeys] at this
    | node tag' k' l' r' b' =>
      obtain ⟨rfl, rfl, hbl, hbr⟩ := hb
      obtain ⟨rfl, rfl, hbl', hbr'⟩ := hb'
      obtain rfl : k = k' := hh.root_eq hh' hc hc' (hkeys hc hc' hent)
      have hleft : l.entries = l'.entries := by
        rw [← hc.1.entries_left hc.2, ← hc'.1.entries_left hc'.2, ← entries_node none k l r 0,
          hent, entries_node]
      have hright : r.entries = r'.entries := by
        rw [entries_node, entries_node, hleft] at hent
        exact List.append_cancel_left hent
      rw [ihl hbl hbl' hh.1 hh'.1 hc.1 hc'.1 hleft, ihr hbr hbr' hh.2.1 hh'.2.1 hc.2 hc'.2 hright]

end

end

end Sparkz.Lib.LeafTree
