import Sparkz.Lib.Fallible
import Sparkz.Lib.LeafTreeSearch
import Sparkz.Avl.Messages
import Sparkz.Avl.Serialization

/-!
# What a snapshot that verifies says

The label of a manifest commits to the leaves, the balances and the shape of the tree, but
not to the keys of its inner nodes.

* `Shows` — nodes stand for a tree up to the keys of its inner nodes; `Copies` — with these
  keys, and with all children there.
* `Received`, `received_of_bytes` — what can be read from bytes.
* `Received.shows` — without collisions, what has the label of a tree stands for it.
* `KeysOf`, `KeysSent` — the keys that were sent are those of the tree.
* `combine_authentic` — what is combined has the digest of the tree, and it passes the check
  and answers lookups as the tree does if and only if these keys are right.
-/

namespace Sparkz.Avl.Serialization

open Sparkz.Lib Sparkz.Lib.LeafTree
open BatchAVLProver (Checked)

/-- The nodes stand for the tree, but for the keys of its inner nodes. -/
inductive Shows (hf : CryptographicHash) : ProverNodes → Tree → Prop
  | null {t : Tree} : Shows hf .null t
  | leaf {tag : Option Ref} {k nk : ADKey} {v : ADValue} :
      Shows hf (.proverLeaf k v nk) (.leaf tag k v nk)
  | node {tag : Option Ref} {k k' : ADKey} {l r : ProverNodes} {tl tr : Tree} {b : Balance}
      (hl : Shows hf l tl) (hr : Shows hf r tr) (hl₀ : l ≠ .null) (hr₀ : r ≠ .null) :
      Shows hf (.internalProverNode k l r b) (.node tag k' tl tr b)
  | proxy {tag : Option Ref} {k k' : ADKey} {l r : ProverNodes} {tl tr : Tree} {b : Balance}
      (hl : Shows hf l tl) (hr : Shows hf r tr) :
      Shows hf (.proxyInternalNode k (treeLabel hf tl) (treeLabel hf tr) l r b)
        (.node tag k' tl tr b)

/-- The nodes stand for the tree, with all children and the keys of its inner nodes. -/
inductive Copies : ProverNodes → Tree → Prop
  | leaf {tag : Option Ref} {k nk : ADKey} {v : ADValue} :
      Copies (.proverLeaf k v nk) (.leaf tag k v nk)
  | node {tag : Option Ref} {k : ADKey} {l r : ProverNodes} {tl tr : Tree} {b : Balance}
      (hl : Copies l tl) (hr : Copies r tr) :
      Copies (.internalProverNode k l r b) (.node tag k tl tr b)
  | proxy {tag : Option Ref} {k : ADKey} {leftLabel rightLabel : Digest} {l r : ProverNodes}
      {tl tr : Tree} {b : Balance} (hl : Copies l tl) (hr : Copies r tr) :
      Copies (.proxyInternalNode k leftLabel rightLabel l r b) (.node tag k tl tr b)

/-- Nodes that can be read from bytes: no proxy has children, and only the last field of a
leaf that is there can be cut short. -/
inductive Received (hf : CryptographicHash) (keyLength : ℕ) : ProverNodes → Prop
  | leaf {k nk : ADKey} {v : ADValue} (hk : k.length ≤ keyLength) (hnk : nk.length ≤ keyLength)
      (hv : k.length + nk.length < 2 * keyLength → v.bytes = []) :
      Received hf keyLength (.proverLeaf k v nk)
  | node {k : ADKey} {l r : ProverNodes} {b : Balance} (hl : Received hf keyLength l)
      (hr : Received hf keyLength r) : Received hf keyLength (.internalProverNode k l r b)
  | proxy {k : ADKey} {leftLabel rightLabel : Digest} {b : Balance}
      (hl : leftLabel.length = hf.digestSize) (hr : rightLabel.length = hf.digestSize) :
      Received hf keyLength (.proxyInternalNode k leftLabel rightLabel .null .null b)

section

variable {hf : CryptographicHash} {keyLength : ℕ} {n : ProverNodes} {t : Tree} {lo hi : ADKey}

/-! ## Reading -/

theorem received_leafFromBytes (bytes : List UInt8) :
    Received hf keyLength (leafFromBytes keyLength bytes) := by
  have hk : (slice bytes 1 (keyLength + 1)).length = min (keyLength + 1) bytes.length - 1 := by
    rw [slice, List.length_drop, List.length_take]
    rfl
  have hnk : (slice bytes (keyLength + 1) (2 * keyLength + 1)).length
      = min (2 * keyLength + 1) bytes.length - (keyLength + 1) := by
    rw [slice, List.length_drop, List.length_take]
    congr 1
  refine .leaf ?_ ?_ fun hshort => ?_
  · rw [ADKey.length, hk]
    omega
  · rw [ADKey.length, hnk]
    omega
  · rw [ADKey.length, ADKey.length, hk, hnk] at hshort
    have hnil : slice bytes (2 * keyLength + 1) bytes.length = [] := by
      refine List.eq_nil_of_length_eq_zero ?_
      rw [slice, List.length_drop, List.length_take]
      omega
    rw [mkValue, hnil]
    rfl

theorem length_of_byteArrayToDigest {bytes : List UInt8} {d : Digest}
    (h : byteArrayToDigest hf bytes = .ok d) : d.length = hf.digestSize := by
  unfold byteArrayToDigest at h
  split at h
  · rename_i hlen
    cases h
    exact hlen
  · cases h

theorem received_proxyFromBytes {bytes : List UInt8}
    (h : proxyFromBytes hf keyLength bytes = .ok n) : Received hf keyLength n := by
  unfold proxyFromBytes at h
  obtain ⟨b, _, h⟩ := bind_eq_ok.1 h
  obtain ⟨leftLabel, hl, h⟩ := bind_eq_ok.1 h
  obtain ⟨rightLabel, hr, h⟩ := bind_eq_ok.1 h
  cases h
  exact .proxy (length_of_byteArrayToDigest hl) (length_of_byteArrayToDigest hr)

theorem received_nodesLoop {fuel : ℕ} {bytes : List UInt8}
    (h : nodesLoop hf keyLength fuel bytes = .ok n) : Received hf keyLength n := by
  induction fuel generalizing bytes n with
  | zero => cases h
  | succ fuel ih =>
    rw [nodesLoop] at h
    obtain ⟨tag, _, h⟩ := bind_eq_ok.1 h
    split at h
    · cases h
      exact received_leafFromBytes bytes
    · split at h
      · obtain ⟨b, _, h⟩ := bind_eq_ok.1 h
        obtain ⟨leftLength, _, h⟩ := bind_eq_ok.1 h
        obtain ⟨left, hleft, h⟩ := bind_eq_ok.1 h
        obtain ⟨right, hright, h⟩ := bind_eq_ok.1 h
        obtain ⟨leftKey, _, h⟩ := bind_eq_ok.1 h
        obtain ⟨rightKey, _, h⟩ := bind_eq_ok.1 h
        split at h
        · cases h
          exact .node (ih hleft) (ih hright)
        · cases h
      · split at h
        · exact received_proxyFromBytes h
        · cases h

theorem byteHead_ne_notTerminating (bytes : List UInt8) :
    byteHead bytes ≠ .error .notTerminating := by
  cases bytes <;> simp [byteHead]

theorem intFromByteArray_ne_notTerminating (bytes : List UInt8) :
    intFromByteArray bytes ≠ .error .notTerminating := by
  unfold intFromByteArray
  split <;> simp

theorem key_ne_notTerminating (n : ProverNodes) : n.key ≠ .error .notTerminating := by
  cases n <;> simp [ProverNodes.key]

theorem proxyFromBytes_ne_notTerminating (bytes : List UInt8) :
    proxyFromBytes hf keyLength bytes ≠ .error .notTerminating := by
  have hdigest : ∀ bytes, byteArrayToDigest hf bytes ≠ .error .notTerminating := by
    intro bytes
    unfold byteArrayToDigest
    split <;> simp
  intro h
  rcases bind_eq_error.1 h with h | ⟨_, _, h⟩
  · exact byteHead_ne_notTerminating _ h
  rcases bind_eq_error.1 h with h | ⟨_, _, h⟩
  · exact hdigest _ h
  rcases bind_eq_error.1 h with h | ⟨_, _, h⟩
  · exact hdigest _ h
  cases h

theorem ne_nil_of_nodesLoop {fuel : ℕ} {bytes : List UInt8}
    (h : nodesLoop hf keyLength fuel bytes = .ok n) : bytes ≠ [] := by
  rintro rfl
  cases fuel with
  | zero => cases h
  | succ fuel => cases h

/-- Enough steps are allowed for the loop over the bytes: both parts of an inner node are
shorter than it. -/
theorem nodesLoop_ne_notTerminating {fuel : ℕ} {bytes : List UInt8} (hlt : bytes.length < fuel) :
    nodesLoop hf keyLength fuel bytes ≠ .error .notTerminating := by
  induction fuel generalizing bytes with
  | zero => exact absurd hlt (Nat.not_lt_zero _)
  | succ fuel ih =>
    intro h
    rw [nodesLoop] at h
    rcases bind_eq_error.1 h with h | ⟨tag, htag, h⟩
    · exact byteHead_ne_notTerminating _ h
    have hpos : 0 < bytes.length := by
      cases bytes with
      | nil => cases htag
      | cons byte bytes => exact Nat.succ_pos _
    split at h
    · cases h
    split at h
    · rcases bind_eq_error.1 h with h | ⟨b, _, h⟩
      · exact byteHead_ne_notTerminating _ h
      rcases bind_eq_error.1 h with h | ⟨leftLength, _, h⟩
      · exact intFromByteArray_ne_notTerminating _ h
      rcases bind_eq_error.1 h with h | ⟨left, hleft, h⟩
      · refine ih ?_ h
        rw [slice, List.length_drop, List.length_take]
        omega
      rcases bind_eq_error.1 h with h | ⟨right, _, h⟩
      · refine ih ?_ h
        have hne := List.length_pos_iff.2 (ne_nil_of_nodesLoop hleft)
        rw [slice, List.length_drop, List.length_take] at hne ⊢
        omega
      rcases bind_eq_error.1 h with h | ⟨leftKey, _, h⟩
      · exact key_ne_notTerminating _ h
      rcases bind_eq_error.1 h with h | ⟨rightKey, _, h⟩
      · exact key_ne_notTerminating _ h
      split at h <;> cases h
    · split at h
      · exact proxyFromBytes_ne_notTerminating _ h
      · cases h

theorem Received.ne_null (h : Received hf keyLength n) : n ≠ .null := by
  rintro rfl
  cases h

theorem Received.label (h : Received hf keyLength n) :
    ∃ d, n.label hf = .ok d ∧ d.length = hf.digestSize := by
  induction h with
  | leaf hk hnk hv => exact ⟨_, rfl, hf.length_hash _⟩
  | node hl hr ihl ihr =>
    obtain ⟨dl, hdl, _⟩ := ihl
    obtain ⟨dr, hdr, _⟩ := ihr
    exact ⟨_, by rw [ProverNodes.label, hdl, hdr]; rfl, hf.length_hash _⟩
  | proxy hl hr => exact ⟨_, rfl, hf.length_hash _⟩

/-! ## What the label says -/

/-- A leaf that was read and that has the message of a leaf of the tree is that leaf. -/
theorem eq_of_leafMessage {k k' nk nk' : ADKey} {v v' : ADValue}
    (h : Received hf keyLength (.proverLeaf k v nk))
    (hmessage : leafMessage k v nk = leafMessage k' v' nk') (hk' : k'.length = keyLength)
    (hnk' : nk'.length = keyLength) : k = k' ∧ v = v' ∧ nk = nk' := by
  cases h with
  | leaf hk hnk hv =>
    have hlen := congrArg List.length hmessage
    simp only [leafMessage, List.length_cons, List.length_append] at hlen
    simp only [ADKey.length] at hk hnk hv hk' hnk'
    have hfull : ¬ k.bytes.length + nk.bytes.length < 2 * keyLength := by
      intro hshort
      rw [hv hshort, List.length_nil] at hlen
      omega
    exact leafMessage_inj hmessage (by simp only [ADKey.length]; omega)
      (by simp only [ADKey.length]; omega)

/-- **What was read and has the label of a tree** stands for it, if nothing collides. -/
theorem Received.shows (h : Received hf keyLength n) (hchain : Chain lo hi t)
    (hkeys : KeyLength keyLength t hi) (hlabel : n.label hf = .ok (treeLabel hf t))
    (hfree : hf.CollisionFree (treeMessages hf t ++ n.messages hf)) : Shows hf n t := by
  induction h generalizing t lo hi with
  | @leaf k nk v hk hnk hv =>
    have hread : Received hf keyLength (.proverLeaf k v nk) := .leaf hk hnk hv
    cases t with
    | stub d => exact hchain.elim
    | leaf tag k' v' nk' =>
      obtain ⟨rfl, rfl, -⟩ := hchain
      have hmessage := hfree _ (List.mem_append_right _ (List.mem_singleton_self _)) _
        (List.mem_append_left _ (List.mem_singleton_self _)) (Except.ok.inj hlabel)
      obtain ⟨rfl, rfl, rfl⟩ := eq_of_leafMessage hread hmessage
        (hkeys.entries (k', v') (List.mem_singleton_self _)) hkeys.last
      exact .leaf
    | node tag k' l r b =>
      have hmessage := hfree _ (List.mem_append_right _ (List.mem_singleton_self _)) _
        (List.mem_append_left _ List.mem_cons_self) (Except.ok.inj hlabel)
      cases hmessage
  | @node k l r b hl hr ihl ihr =>
    obtain ⟨dl, hdl, hlen⟩ := hl.label
    obtain ⟨dr, hdr, _⟩ := hr.label
    have hmessages : ProverNodes.messages hf (.internalProverNode k l r b)
        = internalMessage b dl dr :: (l.messages hf ++ r.messages hf) := by
      rw [ProverNodes.messages, hdl, hdr]
      rfl
    rw [hmessages] at hfree
    rw [ProverNodes.label, hdl, hdr] at hlabel
    cases t with
    | stub d => exact hchain.elim
    | leaf tag k' v' nk' =>
      have hmessage := hfree _ (List.mem_append_right _ List.mem_cons_self) _
        (List.mem_append_left _ (List.mem_singleton_self _)) (Except.ok.inj hlabel)
      cases hmessage
    | node tag k' tl tr b' =>
      have hmessage := hfree _ (List.mem_append_right _ List.mem_cons_self) _
        (List.mem_append_left _ List.mem_cons_self) (Except.ok.inj hlabel)
      obtain ⟨rfl, rfl, rfl⟩ := internalMessage_inj hmessage
        (.inl (hlen.trans (length_treeLabel hf hchain.1).symm))
      refine .node (ihl hchain.1 (hkeys.left hchain.2) hdl (hfree.mono fun m hm => ?_))
        (ihr hchain.2 hkeys.right hdr (hfree.mono fun m hm => ?_)) hl.ne_null hr.ne_null
      · simp only [treeMessages, List.mem_append, List.mem_cons] at hm ⊢
        tauto
      · simp only [treeMessages, List.mem_append, List.mem_cons] at hm ⊢
        tauto
  | @proxy k leftLabel rightLabel b hl hr =>
    cases t with
    | stub d => exact hchain.elim
    | leaf tag k' v' nk' =>
      have hmessage := hfree _ (List.mem_append_right _ List.mem_cons_self) _
        (List.mem_append_left _ (List.mem_singleton_self _)) (Except.ok.inj hlabel)
      cases hmessage
    | node tag k' tl tr b' =>
      have hmessage := hfree _ (List.mem_append_right _ List.mem_cons_self) _
        (List.mem_append_left _ List.mem_cons_self) (Except.ok.inj hlabel)
      obtain ⟨rfl, rfl, rfl⟩ := internalMessage_inj hmessage
        (.inl (hl.trans (length_treeLabel hf hchain.1).symm))
      exact .proxy .null .null

theorem Shows.label (h : Shows hf n t) (hn : n ≠ .null) : n.label hf = .ok (treeLabel hf t) := by
  induction h with
  | null => exact absurd rfl hn
  | leaf => rfl
  | node hl hr hl₀ hr₀ ihl ihr =>
    rw [ProverNodes.label, ihl hl₀, ihr hr₀]
    rfl
  | proxy hl hr => rfl

/-! ## Combining -/

/-- The keys of the inner nodes of a subtree that was sent are those of the tree, and none of
its nodes is a proxy. -/
def KeysOf : ProverNodes → Tree → Prop
  | .internalProverNode k l r _, .node _ k' tl tr _ => k = k' ∧ KeysOf l tl ∧ KeysOf r tr
  | .proxyInternalNode _ _ _ _ _ _, _ => False
  | _, _ => True

/-- The keys of the inner nodes of a manifest, and those of the subtrees that its proxies
name, are those of the tree. -/
def KeysSent (hf : CryptographicHash) (subtrees : List BatchAVLProverSubtree) :
    ProverNodes → Tree → Prop
  | .internalProverNode k l r _, .node _ k' tl tr _ =>
      k = k' ∧ KeysSent hf subtrees l tl ∧ KeysSent hf subtrees r tr
  | .proxyInternalNode k leftLabel rightLabel _ _ _, .node _ k' tl tr _ =>
      k = k' ∧ (∀ s, findSubtree hf leftLabel subtrees = .ok s → KeysOf s tl)
        ∧ ∀ s, findSubtree hf rightLabel subtrees = .ok s → KeysOf s tr
  | _, _ => True

theorem Received.copies_iff (h : Received hf keyLength n) (hs : Shows hf n t) :
    Copies n t ↔ KeysOf n t := by
  induction hs with
  | null => cases h
  | leaf => exact ⟨fun _ => trivial, fun _ => .leaf⟩
  | node hl hr hl₀ hr₀ ihl ihr =>
    cases h with
    | node hl' hr' =>
      rw [KeysOf, ← ihl hl', ← ihr hr']
      constructor
      · intro hc
        cases hc with
        | node hcl hcr => exact ⟨rfl, hcl, hcr⟩
      · rintro ⟨rfl, hcl, hcr⟩
        exact .node hcl hcr
  | proxy hl hr =>
    cases h with
    | proxy _ _ =>
      constructor
      · intro hc
        cases hc with
        | proxy hcl hcr => cases hcl
      · exact fun hc => hc.elim

theorem findSubtree_spec {label : Digest} {subtrees : List BatchAVLProverSubtree}
    {s : ProverNodes} (h : findSubtree hf label subtrees = .ok s) :
    ∃ subtree ∈ subtrees, subtree.subtreeTop = s ∧ s.label hf = .ok label := by
  induction subtrees with
  | nil => cases h
  | cons subtree subtrees ih =>
    rw [findSubtree] at h
    obtain ⟨id, hid, h⟩ := bind_eq_ok.1 h
    split at h
    · rename_i heq
      cases h
      exact ⟨subtree, List.mem_cons_self, rfl, heq ▸ hid⟩
    · obtain ⟨subtree', hmem, hs⟩ := ih h
      exact ⟨subtree', List.mem_cons_of_mem _ hmem, hs⟩

variable {subtrees : List BatchAVLProverSubtree}

/-- A subtree that is found under the label of a tree stands for it. -/
theorem shows_of_findSubtree (hsub : ∀ s ∈ subtrees, Received hf keyLength s.subtreeTop)
    (hchain : Chain lo hi t) (hkeys : KeyLength keyLength t hi)
    (hfree : hf.CollisionFree
      (treeMessages hf t ++ subtrees.flatMap fun s => s.subtreeTop.messages hf))
    {s : ProverNodes} (h : findSubtree hf (treeLabel hf t) subtrees = .ok s) :
    Received hf keyLength s ∧ Shows hf s t ∧ s.label hf = .ok (treeLabel hf t) := by
  obtain ⟨subtree, hmem, rfl, hlabel⟩ := findSubtree_spec h
  refine ⟨hsub _ hmem, (hsub _ hmem).shows hchain hkeys hlabel (hfree.mono fun m hm => ?_), hlabel⟩
  rcases List.mem_append.1 hm with hm | hm
  · exact List.mem_append_left _ hm
  · exact List.mem_append_right _ (List.mem_flatMap.2 ⟨subtree, hmem, hm⟩)

/-- The children of a proxy, if its labels are distinct. -/
theorem setChild_both {leftLabel rightLabel : Digest} {left right : ProverNodes}
    (hleft : left.label hf = .ok leftLabel) (hright : right.label hf = .ok rightLabel)
    (hne : rightLabel ≠ leftLabel) (children : ProverNodes × ProverNodes) :
    setChild hf leftLabel rightLabel children left = .ok (left, children.2)
    ∧ setChild hf leftLabel rightLabel children right = .ok (children.1, right) := by
  constructor
  · rw [setChild, hleft]
    show (if leftLabel = leftLabel then _ else _ : Except RestoreError _) = _
    rw [if_pos rfl]
    rfl
  · rw [setChild, hright]
    show (if rightLabel = leftLabel then _ else _ : Except RestoreError _) = _
    rw [if_neg hne, if_pos rfl]
    rfl

/-- **What `mutateLoop` makes of a manifest** that stands for a tree: all proxies get their
children. -/
theorem mutateLoop_spec (hsub : ∀ s ∈ subtrees, Received hf keyLength s.subtreeTop)
    (h : Received hf keyLength n) (hs : Shows hf n t) (hchain : Chain lo hi t)
    (hkeys : KeyLength keyLength t hi)
    (hfree : hf.CollisionFree
      (treeMessages hf t ++ subtrees.flatMap fun s => s.subtreeTop.messages hf))
    {n' : ProverNodes} (hrun : mutateLoop hf subtrees n = .ok n') :
    Shows hf n' t ∧ n' ≠ .null ∧ (Copies n' t ↔ KeysSent hf subtrees n t) := by
  induction hs generalizing lo hi n' with
  | null => cases h
  | leaf =>
    cases hrun
    exact ⟨.leaf, by simp, fun _ => trivial, fun _ => .leaf⟩
  | @node tag k k' l r tl tr b hl hr hl₀ hr₀ ihl ihr =>
    cases h with
    | node hl' hr' =>
      rw [mutateLoop] at hrun
      obtain ⟨l', hleft, hrun⟩ := bind_eq_ok.1 hrun
      obtain ⟨r', hright, hrun⟩ := bind_eq_ok.1 hrun
      cases hrun
      obtain ⟨hsl, hnl, hcl⟩ := ihl hl' hchain.1 (hkeys.left hchain.2) (hfree.mono fun m hm => by
        simp only [treeMessages, List.mem_append, List.mem_cons] at hm ⊢
        tauto) hleft
      obtain ⟨hsr, hnr, hcr⟩ := ihr hr' hchain.2 hkeys.right (hfree.mono fun m hm => by
        simp only [treeMessages, List.mem_append, List.mem_cons] at hm ⊢
        tauto) hright
      refine ⟨.node hsl hsr hnl hnr, by simp, ?_⟩
      rw [KeysSent, ← hcl, ← hcr]
      constructor
      · intro hc
        cases hc with
        | node hcl hcr => exact ⟨rfl, hcl, hcr⟩
      · rintro ⟨rfl, hcl, hcr⟩
        exact .node hcl hcr
  | @proxy tag k k' l r tl tr b hl hr _ _ =>
    cases h with
    | proxy _ _ =>
      have hfreel : hf.CollisionFree
          (treeMessages hf tl ++ subtrees.flatMap fun s => s.subtreeTop.messages hf) :=
        hfree.mono fun m hm => by
          simp only [treeMessages, List.mem_append, List.mem_cons] at hm ⊢
          tauto
      have hfreer : hf.CollisionFree
          (treeMessages hf tr ++ subtrees.flatMap fun s => s.subtreeTop.messages hf) :=
        hfree.mono fun m hm => by
          simp only [treeMessages, List.mem_append, List.mem_cons] at hm ⊢
          tauto
      have hne : treeLabel hf tr ≠ treeLabel hf tl := by
        intro heq
        refine hchain.1.lt.ne' (eq_of_treeLabel hchain.2 hchain.1 hkeys.right
          (hkeys.left hchain.2) (hfree.mono fun m hm => ?_) heq)
        simp only [treeMessages, List.mem_append, List.mem_cons] at hm ⊢
        tauto
      rw [mutateLoop, if_pos (.inl rfl)] at hrun
      obtain ⟨left, hleft, hrun⟩ := bind_eq_ok.1 hrun
      obtain ⟨right, hright, hrun⟩ := bind_eq_ok.1 hrun
      obtain ⟨hreadl, hsl, hlabell⟩ :=
        shows_of_findSubtree hsub hchain.1 (hkeys.left hchain.2) hfreel hleft
      obtain ⟨hreadr, hsr, hlabelr⟩ :=
        shows_of_findSubtree hsub hchain.2 hkeys.right hfreer hright
      have hset := setChild_both hlabell hlabelr hne
      obtain ⟨children, hchildren, hrun⟩ := bind_eq_ok.1 hrun
      cases (hset _).1.symm.trans hchildren
      obtain ⟨children', hchildren', hrun⟩ := bind_eq_ok.1 hrun
      cases (hset _).2.symm.trans hchildren'
      cases hrun
      refine ⟨.proxy hsl hsr, by simp, ?_⟩
      rw [KeysSent, hleft, hright]
      simp only [Except.ok.injEq, forall_eq']
      rw [← hreadl.copies_iff hsl, ← hreadr.copies_iff hsr]
      constructor
      · intro hc
        cases hc with
        | proxy hcl hcr => exact ⟨rfl, hcl, hcr⟩
      · rintro ⟨rfl, hcl, hcr⟩
        exact .proxy hcl hcr

/-! ## What the prover does -/

theorem Copies.checkChildKey (h : Copies n t) (cond : ADKey → Bool)
    (hcond : ∀ tag k l r b, t = .node tag k l r b → cond k = true) :
    RestoredProver.checkChildKey n cond = true := by
  cases h with
  | leaf => rfl
  | node hl hr => exact hcond _ _ _ _ _ rfl
  | proxy hl hr => exact hcond _ _ _ _ _ rfl

/-- All checks of a tree were passed. -/
structure Passed (res : Checked) (lo hi : ADKey) (t : Tree) : Prop where
  first : res.minLeaf.key = lo
  last : res.maxLeaf.nextLeafKey = hi
  height : res.height = t.height
  ok : res.ok = true

/-- The check at the root of a copy. -/
theorem passed_checkInner {l r : ProverNodes} {tl tr : Tree} {k : ADKey} {b : Balance}
    {tag : Option Ref} (hl : Copies l tl) (hr : Copies r tr)
    (hchain : Chain lo hi (.node tag k tl tr b : Tree))
    (hbal : (LeafTree.node tag k tl tr b : Tree).Balanced) {left right : Checked}
    (hleft : Passed left lo k tl) (hright : Passed right k hi tr) :
    Passed (RestoredProver.checkInner k b l r left right) lo hi (.node tag k tl tr b) := by
  refine ⟨hleft.first, hright.last, ?_, ?_⟩
  · show max left.height right.height + 1 = _
    rw [hleft.height, hright.height]
    rfl
  · have hkl : RestoredProver.checkChildKey l (fun kl => decide (kl < k)) = true := by
      refine hl.checkChildKey _ fun tag kl tll tlr bl heq => decide_eq_true ?_
      rw [heq] at hchain
      exact hchain.1.2.lt
    have hkr : RestoredProver.checkChildKey r (fun kr => decide (kr > k)) = true := by
      refine hr.checkChildKey _ fun tag kr trl trr br heq => decide_eq_true ?_
      rw [heq] at hchain
      exact hchain.2.1.lt
    have hb : b ≥ -1 ∧ b ≤ 1 ∧ b.toInt = (right.height : ℤ) - left.height := by
      rw [hleft.height, hright.height]
      obtain ⟨_, _, ⟨rfl, hh⟩ | ⟨rfl, hh⟩ | ⟨rfl, hh⟩⟩ := hbal
      · refine ⟨by decide, by decide, ?_⟩
        have hb : (-1 : Int8).toInt = -1 := rfl
        omega
      · refine ⟨by decide, by decide, ?_⟩
        have hb : (0 : Int8).toInt = 0 := rfl
        omega
      · refine ⟨by decide, by decide, ?_⟩
        have hb : (1 : Int8).toInt = 1 := rfl
        omega
    simp only [RestoredProver.checkInner, hkl, hkr, hleft.last, hright.first, hleft.ok, hright.ok,
      decide_eq_true hb, decide_true, Bool.and_self]

/-- A copy of the tree passes the check. -/
theorem Copies.checkTreeHelper (h : Copies n t) (hchain : Chain lo hi t) (hbal : t.Balanced) :
    ∃ res, RestoredProver.checkTreeHelper n = .ok res ∧ Passed res lo hi t := by
  induction h generalizing lo hi with
  | leaf =>
    obtain ⟨rfl, rfl, -⟩ := hchain
    exact ⟨_, rfl, rfl, rfl, rfl, rfl⟩
  | node hl hr ihl ihr =>
    obtain ⟨left, hleft, hpl⟩ := ihl hchain.1 hbal.1
    obtain ⟨right, hright, hpr⟩ := ihr hchain.2 hbal.2.1
    exact ⟨_, by rw [RestoredProver.checkTreeHelper, hleft, hright]; rfl,
      passed_checkInner hl hr hchain hbal hpl hpr⟩
  | proxy hl hr ihl ihr =>
    obtain ⟨left, hleft, hpl⟩ := ihl hchain.1 hbal.1
    obtain ⟨right, hright, hpr⟩ := ihr hchain.2 hbal.2.1
    exact ⟨_, by rw [RestoredProver.checkTreeHelper, hleft, hright]; rfl,
      passed_checkInner hl hr hchain hbal hpl hpr⟩

/-- The check at an inner node finds its key at the first leaf on the right. -/
theorem key_of_checkInner {l r : ProverNodes} {k : ADKey} {b : Balance} {left right : Checked}
    (h : (RestoredProver.checkInner k b l r left right).ok = true) :
    right.minLeaf.key = k ∧ left.ok = true ∧ right.ok = true := by
  simp only [RestoredProver.checkInner, Bool.and_eq_true, decide_eq_true_eq] at h
  exact ⟨h.1.1.1.2, h.1.2, h.2⟩

/-- What passes the check and stands for the tree is a copy of it. -/
theorem Shows.copies_of_check (h : Shows hf n t) (hchain : Chain lo hi t) {res : Checked}
    (hres : RestoredProver.checkTreeHelper n = .ok res) :
    res.minLeaf.key = lo ∧ (res.ok = true → Copies n t) := by
  induction h generalizing lo hi res with
  | null => cases hres
  | leaf =>
    cases hres
    exact ⟨hchain.1, fun _ => .leaf⟩
  | node hl hr hl₀ hr₀ ihl ihr =>
    obtain ⟨left, hleft, hres⟩ := bind_eq_ok.1 hres
    obtain ⟨right, hright, hres⟩ := bind_eq_ok.1 hres
    cases hres
    obtain ⟨hfirst, hcl⟩ := ihl hchain.1 hleft
    obtain ⟨hmiddle, hcr⟩ := ihr hchain.2 hright
    refine ⟨hfirst, fun hok => ?_⟩
    obtain ⟨hkey, hokl, hokr⟩ := key_of_checkInner hok
    obtain rfl := hkey.symm.trans hmiddle
    exact .node (hcl hokl) (hcr hokr)
  | proxy hl hr ihl ihr =>
    obtain ⟨left, hleft, hres⟩ := bind_eq_ok.1 hres
    obtain ⟨right, hright, hres⟩ := bind_eq_ok.1 hres
    cases hres
    obtain ⟨hfirst, hcl⟩ := ihl hchain.1 hleft
    obtain ⟨hmiddle, hcr⟩ := ihr hchain.2 hright
    refine ⟨hfirst, fun hok => ?_⟩
    obtain ⟨hkey, hokl, hokr⟩ := key_of_checkInner hok
    obtain rfl := hkey.symm.trans hmiddle
    exact .proxy (hcl hokl) (hcr hokr)

/-- The walk answers as the search in the tree does. -/
def Answers (key : ADKey) (n : ProverNodes) (t : Tree) : Prop :=
  ∀ found k v nk, leafAt t (searchPath key found t) = some (k, v, nk) →
    RestoredProver.lookupWalk key found n = .ok (if found || meets key t then some v else none)

/-- The walk at an inner node. -/
theorem lookupWalk_inner {key : ADKey} {l r : ProverNodes} {tl tr : Tree} {tag : Option Ref}
    {k : ADKey} {b : Balance} (hl : Answers key l tl) (hr : Answers key r tr) {found : Bool}
    {k' nk : ADKey} {v : ADValue} (hleaf : leafAt (.node tag k tl tr b : Tree)
      (searchPath key found (.node tag k tl tr b : Tree)) = some (k', v, nk)) :
    (if found then RestoredProver.lookupWalk key true l
      else
        match compare key k with
        | .eq => RestoredProver.lookupWalk key true r
        | .lt => RestoredProver.lookupWalk key false l
        | .gt => RestoredProver.lookupWalk key false r)
      = .ok (if found || meets key (.node tag k tl tr b : Tree) then some v else none) := by
  cases found with
  | true => exact hl true _ _ _ hleaf
  | false =>
    rw [if_neg (by decide), meets, Bool.false_or]
    rw [searchPath] at hleaf
    rcases lt_trichotomy key k with hlt | rfl | hgt
    · rw [if_pos hlt] at hleaf ⊢
      rw [compare_lt_iff_lt.2 hlt]
      exact hl false _ _ _ hleaf
    · rw [if_neg (lt_irrefl key), if_pos rfl] at hleaf ⊢
      rw [compare_eq_iff_eq.2 rfl]
      exact hr true _ _ _ hleaf
    · rw [if_neg hgt.not_gt, if_neg hgt.ne'] at hleaf ⊢
      rw [compare_gt_iff_gt.2 hgt]
      exact hr false _ _ _ hleaf

/-- A copy of the tree answers lookups as the search in the tree does. -/
theorem Copies.answers (h : Copies n t) (key : ADKey) : Answers key n t := by
  induction h with
  | leaf =>
    intro found k v nk hleaf
    cases found with
    | true =>
      cases hleaf
      rfl
    | false =>
      cases hleaf
      rfl
  | node hl hr ihl ihr => exact fun found k v nk hleaf => lookupWalk_inner ihl ihr hleaf
  | proxy hl hr ihl ihr => exact fun found k v nk hleaf => lookupWalk_inner ihl ihr hleaf

end

/-! ## Authenticity -/

section

variable {P : TreeParams} {t : Tree} {bytes : List UInt8} {pieces : List (List UInt8)}
  {manifest : BatchAVLProverManifest} {subtrees : List BatchAVLProverSubtree}
  {p : RestoredProver}

theorem received_of_manifestFromBytes {hf : CryptographicHash} {keyLength : ℕ}
    (h : manifestFromBytes hf keyLength bytes = .ok manifest) :
    Received hf keyLength manifest.root := by
  obtain ⟨height, _, h⟩ := bind_eq_ok.1 h
  obtain ⟨root, hroot, h⟩ := bind_eq_ok.1 h
  cases h
  exact received_nodesLoop hroot

theorem received_of_subtreeFromBytes {hf : CryptographicHash} {keyLength : ℕ}
    {subtree : BatchAVLProverSubtree} (h : subtreeFromBytes hf keyLength bytes = .ok subtree) :
    Received hf keyLength subtree.subtreeTop := by
  obtain ⟨top, htop, h⟩ := bind_eq_ok.1 h
  cases h
  exact received_nodesLoop htop

theorem received_of_forall₂ {hf : CryptographicHash} {keyLength : ℕ}
    (h : List.Forall₂ (fun b s => subtreeFromBytes hf keyLength b = .ok s) pieces subtrees) :
    ∀ s ∈ subtrees, Received hf keyLength s.subtreeTop := by
  induction h with
  | nil => simp
  | cons hs _ ih => exact List.forall_mem_cons.2 ⟨received_of_subtreeFromBytes hs, ih⟩

/-- A manifest that verifies has the label and the height. -/
theorem of_verify {hf : CryptographicHash} {label : Digest} {height : ℤ}
    (h : manifest.verify hf label height = .ok true) :
    manifest.root.label hf = .ok label ∧ manifest.rootHeight = height := by
  obtain ⟨id, hid, h⟩ := bind_eq_ok.1 h
  have hboth := Except.ok.inj h
  rw [Bool.and_eq_true, beq_iff_eq, beq_iff_eq] at hboth
  exact ⟨hboth.1 ▸ hid, hboth.2.symm⟩

theorem mutateLoop_of_combine {hf : CryptographicHash} {keyLength : ℕ}
    {valueLengthOpt : Option ℕ}
    (h : combine hf manifest subtrees keyLength valueLengthOpt = .ok p) :
    ∃ root, mutateLoop hf subtrees manifest.root = .ok root
      ∧ p = ⟨keyLength, valueLengthOpt, root, manifest.rootHeight⟩ := by
  unfold combine at h
  split at h
  · cases h
  · obtain ⟨root, hroot, h⟩ := bind_eq_ok.1 h
    cases h
    exact ⟨root, hroot, rfl⟩

/-- **What a snapshot that verifies says.**  Where nothing collides, a manifest with the label
and the height of a tree, and subtrees that can be combined with it, give a prover with its
digest.  The prover passes its check and answers lookups as the tree does if and only if the
keys of the inner nodes that were sent are those of the tree, and no subtree that is used has a
proxy. -/
theorem combine_authentic
    (hchain : Chain P.negativeInfinityKey P.positiveInfinityKey t) (hbal : t.Balanced)
    (hlen : ∀ e ∈ t.entries, e.1.length = P.keyLength)
    (hmanifest : manifestFromBytes P.hf P.keyLength bytes = .ok manifest)
    (hsubtrees : List.Forall₂ (fun b s => subtreeFromBytes P.hf P.keyLength b = .ok s) pieces
      subtrees)
    (hfree : P.hf.CollisionFree (treeMessages P.hf t ++ manifest.root.messages P.hf
      ++ subtrees.flatMap fun s => s.subtreeTop.messages P.hf))
    (hverify : manifest.verify P.hf (treeLabel P.hf t) t.height = .ok true)
    (hcombine : combine P.hf manifest subtrees P.keyLength P.valueLengthOpt = .ok p) :
    p.digest P.hf = (if t.height < 256 then
        .ok (treeLabel P.hf t ++ [UInt8.ofNat t.height]) else .error .assertionFailed)
    ∧ ((p.checkTree = .ok () ∧ ∀ key, P.negativeInfinityKey < key → key < P.positiveInfinityKey →
          key.length = P.keyLength → p.unauthenticatedLookup key = .ok (t.get key))
      ↔ KeysSent P.hf subtrees manifest.root t) := by
  have hkeys : KeyLength P.keyLength t P.positiveInfinityKey := ⟨hlen, List.length_replicate⟩
  have hroot := received_of_manifestFromBytes hmanifest
  obtain ⟨hlabel, hheight⟩ := of_verify hverify
  have hshows := hroot.shows hchain hkeys hlabel
    (hfree.mono fun m hm => List.mem_append_left _ hm)
  obtain ⟨root, hrun, rfl⟩ := mutateLoop_of_combine hcombine
  obtain ⟨hshows', hne, hiff⟩ := mutateLoop_spec (received_of_forall₂ hsubtrees) hroot hshows
    hchain hkeys (hfree.mono fun m hm => by simp only [List.mem_append] at hm ⊢; tauto) hrun
  rw [← hiff]
  refine ⟨?_, fun ⟨hcheck, _⟩ => ?_, fun hcopies => ⟨?_, fun key hlo hhi _ => ?_⟩⟩
  · rw [RestoredProver.digest]
    simp only [hheight]
    by_cases hlt : t.height < 256
    · rw [if_pos (by simp; omega), if_pos hlt, hshows'.label hne]
      rfl
    · rw [if_neg (by simp; omega), if_neg hlt]
  · obtain ⟨res, hres, hcheck⟩ := bind_eq_ok.1 hcheck
    split at hcheck
    · rename_i hok
      exact (hshows'.copies_of_check hchain hres).2 hok.2.2.2
    · cases hcheck
  · obtain ⟨res, hres, hpassed⟩ := hcopies.checkTreeHelper hchain hbal
    rw [RestoredProver.checkTree]
    simp only [hres]
    show (if _ then _ else _ : Except RestoreError Unit) = _
    rw [if_pos ⟨hpassed.first, hpassed.last, by rw [hpassed.height, hheight], hpassed.ok⟩]
    rfl
  · obtain ⟨k, v, nk, hleaf, _⟩ := search_spec hchain hlo hhi
    rw [RestoredProver.unauthenticatedLookup, hcopies.answers key false k v nk hleaf,
      get_of_search hchain hlo hhi hleaf, Bool.false_or]

/-- Keys and values of one byte, with a hash that shows the first four bytes. -/
def smallParams : TreeParams where
  keyLength := 1
  valueLengthOpt := some 1
  valueLength_lt := by simp
  collectChangedNodes := false
  hf :=
    { digestSize := 4
      digestSize_pos := CryptographicHash.four_pos
      hash := fun message => (message ++ [0, 0, 0, 0]).take 4
      length_hash := CryptographicHash.length_take_four }

/-- A tree with three keys. -/
def threeKeyTree : Tree :=
  .node none ⟨[8]⟩
    (.node none ⟨[5]⟩ (.leaf none ⟨[0]⟩ (.ofByte 0) ⟨[5]⟩)
      (.leaf none ⟨[5]⟩ (.ofByte 7) ⟨[8]⟩) 0)
    (.node none ⟨[12]⟩ (.leaf none ⟨[8]⟩ (.ofByte 7) ⟨[12]⟩)
      (.leaf none ⟨[12]⟩ (.ofByte 9) ⟨[255]⟩) 0) 0

/-- The manifest that stops at the children of its root. -/
def threeKeyManifest : BatchAVLProverManifest where
  root := .internalProverNode ⟨[8]⟩
    (.proxyInternalNode ⟨[5]⟩ [0, 0, 0, 5] [0, 5, 7, 8] .null .null 0)
    (.proxyInternalNode ⟨[12]⟩ [0, 8, 7, 12] [0, 12, 9, 255] .null .null 0) 0
  rootHeight := 2

/-- The subtrees that it names. -/
def threeKeySubtrees : List BatchAVLProverSubtree :=
  [⟨.proverLeaf ⟨[0]⟩ (.ofByte 0) ⟨[5]⟩⟩, ⟨.proverLeaf ⟨[5]⟩ (.ofByte 7) ⟨[8]⟩⟩,
    ⟨.proverLeaf ⟨[8]⟩ (.ofByte 7) ⟨[12]⟩⟩, ⟨.proverLeaf ⟨[12]⟩ (.ofByte 9) ⟨[255]⟩⟩]

/-- The prover that is made of them. -/
def threeKeyProver : RestoredProver where
  keyLength := 1
  valueLengthOpt := some 1
  topNode := .internalProverNode ⟨[8]⟩
    (.proxyInternalNode ⟨[5]⟩ [0, 0, 0, 5] [0, 5, 7, 8] (.proverLeaf ⟨[0]⟩ (.ofByte 0) ⟨[5]⟩)
      (.proverLeaf ⟨[5]⟩ (.ofByte 7) ⟨[8]⟩) 0)
    (.proxyInternalNode ⟨[12]⟩ [0, 8, 7, 12] [0, 12, 9, 255]
      (.proverLeaf ⟨[8]⟩ (.ofByte 7) ⟨[12]⟩) (.proverLeaf ⟨[12]⟩ (.ofByte 9) ⟨[255]⟩) 0) 0
  rootNodeHeight := 2

theorem keysSent_threeKey :
    KeysSent smallParams.hf threeKeySubtrees threeKeyManifest.root threeKeyTree := by
  refine ⟨rfl, ⟨rfl, fun s hs => ?_, fun s hs => ?_⟩, rfl, fun s hs => ?_, fun s hs => ?_⟩
  all_goals
    cases hs
    trivial

/-- A manifest with two proxies and four subtrees. -/
theorem combine_authentic_threeKeys :
    threeKeyProver.digest smallParams.hf = .ok [1, 0, 1, 0, 2]
    ∧ threeKeyProver.checkTree = .ok ()
    ∧ ∀ key, smallParams.negativeInfinityKey < key → key < smallParams.positiveInfinityKey →
        key.length = smallParams.keyLength →
        threeKeyProver.unauthenticatedLookup key = .ok (threeKeyTree.get key) := by
  have hmanifest : manifestFromBytes smallParams.hf smallParams.keyLength
      [0, 0, 0, 2, 1, 0, 8, 0, 0, 0, 11, 2, 0, 5, 0, 0, 0, 5, 0, 5, 7, 8,
        2, 0, 12, 0, 8, 7, 12, 0, 12, 9, 255] = .ok threeKeyManifest := by
    decide +kernel
  have hsubtrees : List.Forall₂
      (fun b s => subtreeFromBytes smallParams.hf smallParams.keyLength b = .ok s)
      [[0, 0, 5, 0], [0, 5, 8, 7], [0, 8, 12, 7], [0, 12, 255, 9]] threeKeySubtrees :=
    .cons (by decide +kernel) (.cons (by decide +kernel) (.cons (by decide +kernel)
      (.cons (by decide +kernel) .nil)))
  have hchain : Chain smallParams.negativeInfinityKey smallParams.positiveInfinityKey
      threeKeyTree :=
    ⟨⟨⟨rfl, rfl, by decide⟩, ⟨rfl, rfl, by decide⟩⟩, ⟨rfl, rfl, by decide⟩, ⟨rfl, rfl, by decide⟩⟩
  have hbal : threeKeyTree.Balanced :=
    ⟨⟨trivial, trivial, by decide⟩, ⟨trivial, trivial, by decide⟩, by decide⟩
  have hcombine : combine smallParams.hf threeKeyManifest threeKeySubtrees smallParams.keyLength
      smallParams.valueLengthOpt = .ok threeKeyProver := by rfl
  obtain ⟨hdigest, hkeys⟩ := combine_authentic hchain hbal (by decide) hmanifest hsubtrees
    (by decide) (by rfl) hcombine
  exact ⟨hdigest, hkeys.2 keysSent_threeKey⟩

/-- A tree with one key. -/
def oneKeyTree : Tree :=
  .node none ⟨[5]⟩ (.leaf none ⟨[0]⟩ ⟨[0], by decide⟩ ⟨[5]⟩)
    (.leaf none ⟨[5]⟩ ⟨[9], by decide⟩ ⟨[255]⟩) 0

/-- A manifest for it that gives some key for its root. -/
def oneKeyManifest (key : ADKey) : BatchAVLProverManifest where
  root := .internalProverNode key (.proverLeaf ⟨[0]⟩ ⟨[0], by decide⟩ ⟨[5]⟩)
    (.proverLeaf ⟨[5]⟩ ⟨[9], by decide⟩ ⟨[255]⟩) 0
  rootHeight := 1

/-- The prover that is made of it. -/
def oneKeyProver (key : ADKey) : RestoredProver :=
  ⟨1, some 1, (oneKeyManifest key).root, 1⟩

/-- Another key for the root: nothing that is checked depends on it, and the key of the tree
is not found. -/
theorem oneKeyManifest_wrongKey :
    manifestFromBytes smallParams.hf smallParams.keyLength
        [0, 0, 0, 1, 1, 0, 3, 0, 0, 0, 4, 0, 0, 5, 0, 0, 5, 255, 9] = .ok (oneKeyManifest ⟨[3]⟩)
    ∧ Chain smallParams.negativeInfinityKey smallParams.positiveInfinityKey oneKeyTree
    ∧ oneKeyTree.Balanced
    ∧ smallParams.hf.CollisionFree
        (treeMessages smallParams.hf oneKeyTree
          ++ (oneKeyManifest ⟨[3]⟩).root.messages smallParams.hf)
    ∧ (oneKeyManifest ⟨[3]⟩).verify smallParams.hf (treeLabel smallParams.hf oneKeyTree)
        oneKeyTree.height = .ok true
    ∧ combine smallParams.hf (oneKeyManifest ⟨[3]⟩) [] 1 (some 1) = .ok (oneKeyProver ⟨[3]⟩)
    ∧ (oneKeyProver ⟨[3]⟩).checkTree = .error .requirementFailed
    ∧ (oneKeyProver ⟨[3]⟩).unauthenticatedLookup ⟨[5]⟩ = .ok none
    ∧ oneKeyTree.get ⟨[5]⟩ = some ⟨[9], by decide⟩ :=
  ⟨by decide +kernel, ⟨⟨rfl, rfl, by decide⟩, ⟨rfl, rfl, by decide⟩⟩,
    ⟨trivial, trivial, by decide⟩, by decide, rfl, rfl, rfl, rfl, rfl⟩

end

end Sparkz.Avl.Serialization
