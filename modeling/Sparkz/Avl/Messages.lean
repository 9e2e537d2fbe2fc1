import Sparkz.Avl.Represent

/-!
# What is hashed for the labels of a tree

* `leafMessage_inj`, `internalMessage_inj` — a message determines the fields of its node, if
  the lengths of the keys or of one label are known.
* `treeMessages` — all messages for the labels of a tree.
* `eq_of_treeLabel` — without collisions, two chains with the same label start at the same
  key.
-/

namespace Sparkz.Avl

open Sparkz.Lib Sparkz.Lib.LeafTree

/-- What is hashed for the labels of a tree. -/
def treeMessages (hf : CryptographicHash) : Tree → List (List UInt8)
  | .stub _ => []
  | .leaf _ k v n => [leafMessage k v n]
  | .node _ _ l r b =>
      internalMessage b (treeLabel hf l) (treeLabel hf r)
        :: (treeMessages hf l ++ treeMessages hf r)

theorem leafMessage_inj {k k' n n' : ADKey} {v v' : ADValue}
    (h : leafMessage k v n = leafMessage k' v' n') (hk : k.length = k'.length)
    (hn : n.length = n'.length) : k = k' ∧ v = v' ∧ n = n' := by
  obtain ⟨h, hnext⟩ := List.append_inj' (List.cons.inj h).2 hn
  obtain ⟨hkey, hvalue⟩ := List.append_inj h hk
  refine ⟨?_, ?_, ?_⟩
  · cases k
    cases k'
    exact congrArg ADKey.mk hkey
  · cases v
    cases v'
    cases hvalue
    rfl
  · cases n
    cases n'
    exact congrArg ADKey.mk hnext

theorem internalMessage_inj {b b' : Balance} {l l' r r' : Digest}
    (h : internalMessage b l r = internalMessage b' l' r')
    (hlen : l.length = l'.length ∨ r.length = r'.length) : b = b' ∧ l = l' ∧ r = r' := by
  have h₁ : b.toUInt8 :: (l ++ r) = b'.toUInt8 :: (l' ++ r') := (List.cons.inj h).2
  obtain ⟨hb, hlr⟩ := List.cons.inj h₁
  have hb' : b = b' := by
    cases b
    cases b'
    exact congrArg Int8.ofUInt8 hb
  rcases hlen with hlen | hlen
  · exact ⟨hb', List.append_inj hlr hlen⟩
  · exact ⟨hb', List.append_inj' hlr hlen⟩

variable {hf : CryptographicHash} {t t' : Tree} {lo hi lo' hi' : ADKey}

theorem length_treeLabel (hf : CryptographicHash) (hchain : Chain lo hi t) :
    (treeLabel hf t).length = hf.digestSize := by
  cases t with
  | stub d => exact hchain.elim
  | leaf tag k v n => exact hf.length_hash _
  | node tag k l r b => exact hf.length_hash _

/-- The keys of a chain have a fixed length. -/
structure KeyLength (n : ℕ) (t : Tree) (hi : ADKey) : Prop where
  entries : ∀ e ∈ t.entries, e.1.length = n
  last : hi.length = n

theorem KeyLength.left {n : ℕ} {tag : Option Ref} {k : ADKey} {l r : Tree} {b : Balance}
    (h : KeyLength n (.node tag k l r b) hi) (hr : Chain k hi' r) : KeyLength n l k := by
  obtain ⟨v, rest, hent⟩ := hr.entries_eq_cons
  refine ⟨fun e he => h.entries e (List.mem_append_left _ he),
    h.entries (k, v) (List.mem_append_right _ ?_)⟩
  rw [hent]
  exact List.mem_cons_self

theorem KeyLength.right {n : ℕ} {tag : Option Ref} {k : ADKey} {l r : Tree} {b : Balance}
    (h : KeyLength n (.node tag k l r b) hi) : KeyLength n r hi :=
  ⟨fun e he => h.entries e (List.mem_append_right _ he), h.last⟩

/-- **Chains with the same label** start at the same key, if nothing collides. -/
theorem eq_of_treeLabel {n : ℕ} (h : Chain lo hi t) (h' : Chain lo' hi' t')
    (hn : KeyLength n t hi) (hn' : KeyLength n t' hi')
    (hfree : hf.CollisionFree (treeMessages hf t ++ treeMessages hf t'))
    (hlabel : treeLabel hf t = treeLabel hf t') : lo = lo' := by
  induction t generalizing t' lo hi lo' hi' with
  | stub d => exact h.elim
  | leaf tag k v nk =>
    cases t' with
    | stub d => exact h'.elim
    | leaf tag' k' v' nk' =>
      obtain ⟨rfl, rfl, -⟩ := h
      obtain ⟨rfl, rfl, -⟩ := h'
      have hmessage := hfree _ (List.mem_append_left _ (List.mem_singleton_self _)) _
        (List.mem_append_right _ (List.mem_singleton_self _)) hlabel
      have hk := (hn.entries (k, v) (List.mem_singleton_self _)).trans
        (hn'.entries (k', v') (List.mem_singleton_self _)).symm
      exact (leafMessage_inj hmessage hk (hn.last.trans hn'.last.symm)).1
    | node tag' k' l' r' b' =>
      have hmessage := hfree _ (List.mem_append_left _ (List.mem_singleton_self _)) _
        (List.mem_append_right _ List.mem_cons_self) hlabel
      cases hmessage
  | node tag k l r b ihl ihr =>
    cases t' with
    | stub d => exact h'.elim
    | leaf tag' k' v' nk' =>
      have hmessage := hfree _ (List.mem_append_left _ List.mem_cons_self) _
        (List.mem_append_right _ (List.mem_singleton_self _)) hlabel
      cases hmessage
    | node tag' k' l' r' b' =>
      have hmessage := hfree _ (List.mem_append_left _ List.mem_cons_self) _
        (List.mem_append_right _ List.mem_cons_self) hlabel
      obtain ⟨_, hl, _⟩ := internalMessage_inj hmessage
        (.inl ((length_treeLabel hf h.1).trans (length_treeLabel hf h'.1).symm))
      refine ihl h.1 h'.1 (hn.left h.2) (hn'.left h'.2) (hfree.mono fun m hm => ?_) hl
      simp only [treeMessages, List.mem_append, List.mem_cons] at hm ⊢
      tauto

end Sparkz.Avl
