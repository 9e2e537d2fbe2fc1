import Sparkz.Legacy.TreapRun
import Sparkz.Legacy.Run

/-!
# The treap does not depend on its history

With `IntLevel`s the tree of a treap is ordered by the levels of its keys, and there is only
one such tree with given bindings.

* `insertAll` — `InsertOrUpdate` operations one after the other; `lastValue` — the finite
  map that they end with.
* `insertAll_spec` — after them the tree is a chain, ordered by levels, with these bindings.
* `treap_history_independent` — the tree and its root hash depend on the map only.
-/

namespace Sparkz.Legacy.Treaps

open Sparkz.Lib Sparkz.Lib.LeafTree Sparkz.Avl

/-- A level function with values in `IntLevel`. -/
def intLevels (levelFunc : ADKey → Int32) (key : ADKey) : Level := .intLevel (levelFunc key)

/-- `IntLevel`s are ordered as signed numbers. -/
theorem levelOrder_intLevels (levelFunc : ADKey → Int32) :
    levelOrder (intLevels levelFunc) = byLevel fun key => (levelFunc key).toInt := rfl

/-- The tree of a node has no tags and no balances. -/
theorem ProverNodes.bare_tree (n : ProverNodes) : Bare n.tree := by
  induction n with
  | leaf labelOpt key value nextLeafKey => rfl
  | proverNode labelOpt key left right ihl ihr => exact ⟨rfl, rfl, ihl, ihr⟩

/-- The value of the last operation on a key. -/
def lastValue (operations : List (ADKey × ADValue)) (key : ADKey) : Option ADValue :=
  (operations.reverse.find? fun e => e.1 = key ∧ InRange e.1).map Prod.snd

theorem lastValue_append (operations : List (ADKey × ADValue)) (e : ADKey × ADValue)
    (key : ADKey) : lastValue (operations ++ [e]) key
      = if key = e.1 ∧ InRange e.1 then some e.2 else lastValue operations key := by
  rw [lastValue, List.reverse_append, List.reverse_singleton, List.singleton_append,
    List.find?_cons]
  by_cases h : e.1 = key ∧ InRange e.1
  · rw [if_pos ⟨h.1.symm, h.2⟩, decide_eq_true h]
    rfl
  · rw [if_neg fun h' => h ⟨h'.1.symm, h'.2⟩, decide_eq_false h]
    rfl

section

variable (hf : CryptographicHash) (levelFunc : ADKey → Int32)

/-- The treap after `InsertOrUpdate` operations on an empty one. -/
def insertAll (operations : List (ADKey × ADValue)) : Treap :=
  operations.foldl
    (fun treap e => (treap.run hf (intLevels levelFunc) (.insertOrUpdate e.1 e.2)).2) (.new none)

/-- What is true of the treap after the operations: its caches are right, its leaves are a
chain, its inner nodes are ordered by levels, and its bindings are those of the map, besides
the one of the first leaf. -/
structure Inserted (treap : Treap) (operations : List (ADKey × ADValue)) : Prop where
  stands : treap.Stands hf (intLevels levelFunc)
  heaped : Heaped (fun key => (levelFunc key).toInt) treap.topNode.tree
  get_eq : ∀ key, treap.topNode.tree.get key
    = if key = negativeInfinity then some ⟨[], by simp⟩ else lastValue operations key

theorem inserted_new : Inserted hf levelFunc (.new none) [] where
  stands := Treap.new_stands hf (intLevels levelFunc)
  heaped := trivial
  get_eq := fun key => by
    by_cases h : key = negativeInfinity
    · rw [if_pos h, h]
      exact (get_eq_some_iff (Treap.new_stands hf (intLevels levelFunc)).chain).2
        (List.mem_singleton_self _)
    · rw [if_neg h]
      refine get_eq_none_iff.2 fun e he => ?_
      rw [List.mem_singleton.1 he]
      exact Ne.symm h

variable {hf levelFunc}

/-- One more operation. -/
theorem Inserted.run {treap : Treap} {operations : List (ADKey × ADValue)}
    (h : Inserted hf levelFunc treap operations) (e : ADKey × ADValue) :
    Inserted hf levelFunc (treap.run hf (intLevels levelFunc) (.insertOrUpdate e.1 e.2)).2
      (operations ++ [e]) := by
  by_cases hkey : InRange e.1
  · have hspec := Treap.run_spec (.insertOrUpdate e.1 e.2) h.stands hkey
    obtain ⟨treap', hrun, hstands, hchange, v, hnew, hself, hother⟩ := hspec
    rw [hrun]
    obtain rfl : e.2 = v := by cases hnew; rfl
    rw [levelOrder_intLevels] at hchange
    refine ⟨hstands, (changeAt_heaped h.heaped hchange).1, fun key => ?_⟩
    rw [lastValue_append]
    by_cases hk : key = e.1
    · rw [hk, if_neg hkey.1.ne', if_pos ⟨rfl, hkey⟩]
      exact hself
    · rw [if_neg fun h' : key = e.1 ∧ InRange e.1 => hk h'.1]
      exact (hother key hk).trans (h.get_eq key)
  · have hout : ¬ InRange (Operation.insertOrUpdate e.1 e.2).key := hkey
    rw [Treap.run_outOfRange hout]
    refine ⟨h.stands, h.heaped, fun key => ?_⟩
    rw [lastValue_append, if_neg fun h' : key = e.1 ∧ InRange e.1 => hkey h'.2]
    exact h.get_eq key

variable (hf levelFunc)

/-- **After any operations** the tree is an ordered chain with the bindings of the map. -/
theorem insertAll_spec (operations : List (ADKey × ADValue)) :
    Inserted hf levelFunc (insertAll hf levelFunc operations) operations := by
  induction operations using List.reverseRecOn with
  | nil => exact inserted_new hf levelFunc
  | append_singleton operations e ih =>
    rw [insertAll, List.foldl_append]
    exact ih.run e

variable {hf levelFunc}

theorem Inserted.tree_eq {treap treap' : Treap} {operations operations' : List (ADKey × ADValue)}
    (h : Inserted hf levelFunc treap operations) (h' : Inserted hf levelFunc treap' operations')
    (hmap : lastValue operations = lastValue operations') :
    treap.topNode.tree = treap'.topNode.tree := by
  refine eq_of_entries treap.topNode.bare_tree treap'.topNode.bare_tree h.heaped h'.heaped
    h.stands.chain h'.stands.chain ?_
  refine entries_eq_of_get h.stands.chain h'.stands.chain fun key => ?_
  rw [h.get_eq, h'.get_eq, hmap]

end

/-- **The treap does not depend on its history.**  After any `InsertOrUpdate` operations on
an empty treap its leaves cover the keys from one infinity to the other, each level is
higher than that of the left child and not lower than that of the right one, and the values
are those of the last operations; with the same map at the end, the trees and the root
hashes are the same. -/
theorem treap_history_independent (hf : CryptographicHash) (levelFunc : ADKey → Int32) :
    (∀ operations,
      Chain negativeInfinity positiveInfinity (insertAll hf levelFunc operations).topNode.tree
      ∧ Heaped (fun key => (levelFunc key).toInt) (insertAll hf levelFunc operations).topNode.tree
      ∧ ∀ key, InRange key →
        (insertAll hf levelFunc operations).topNode.tree.get key = lastValue operations key)
    ∧ ∀ operations operations', lastValue operations = lastValue operations' →
      (insertAll hf levelFunc operations).topNode.tree
          = (insertAll hf levelFunc operations').topNode.tree
        ∧ ((insertAll hf levelFunc operations).rootHash hf (intLevels levelFunc)).1
          = ((insertAll hf levelFunc operations').rootHash hf (intLevels levelFunc)).1 := by
  refine ⟨fun operations => ?_, fun operations operations' hmap => ?_⟩
  · have h := insertAll_spec hf levelFunc operations
    refine ⟨h.stands.chain, h.heaped, fun key hkey => ?_⟩
    rw [h.get_eq, if_neg hkey.1.ne']
  · have h := insertAll_spec hf levelFunc operations
    have h' := insertAll_spec hf levelFunc operations'
    have htree := h.tree_eq h' hmap
    refine ⟨htree, ?_⟩
    rw [(Treap.rootHash_spec h.stands).1, (Treap.rootHash_spec h'.stands).1, htree]

/-- Two keys with one level, put in in either order. -/
theorem treap_history_independent_twoKeys :
    ((insertAll smallParams.hf (fun _ => 0)
        [(⟨[1]⟩, longValue 1), (⟨[2]⟩, longValue 2)]).rootHash smallParams.hf
          (intLevels fun _ => 0)).1
      = ((insertAll smallParams.hf (fun _ => 0)
          [(⟨[2]⟩, longValue 2), (⟨[1]⟩, longValue 1)]).rootHash smallParams.hf
            (intLevels fun _ => 0)).1 := by
  refine ((treap_history_independent smallParams.hf fun _ => 0).2 _ _ (funext fun key => ?_)).2
  have hne : (⟨[2]⟩ : ADKey) ≠ ⟨[1]⟩ := by decide
  have htwo : ∀ x y : ADKey × ADValue, lastValue [x, y] key
      = if key = y.1 ∧ InRange y.1 then some y.2
        else if key = x.1 ∧ InRange x.1 then some x.2 else none := fun x y => by
    rw [show [x, y] = ([] ++ [x]) ++ [y] from rfl, lastValue_append, lastValue_append]
    rfl
  rw [htwo, htwo]
  by_cases h : key = ⟨[2]⟩
  · simp [h, hne]
  · simp [h]

end Sparkz.Legacy.Treaps
