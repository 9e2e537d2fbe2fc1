import Sparkz.Lib.Fallible
import Sparkz.Avl.Messages
import Sparkz.Avl.Serialization

/-!
# Snapshots as bytes

* `Mirrors` — nodes stand for a tree with its keys and labels; where a frontier is allowed,
  some of them are proxies without children.
* `ProverNodes.plain` — what is read back: a proxy with children is written as an ordinary
  node.
* `slice_append` — what a slice of a concatenation is.
* `nodesLoop_nodesToBytes`, `nodesFromBytes_nodesToBytes` — reading what was written.
-/

namespace Sparkz.Avl.Serialization

open Sparkz.Lib Sparkz.Lib.LeafTree

/-- The nodes stand for the tree.  In a frontier there are proxies without children. -/
inductive Mirrors (hf : CryptographicHash) (frontier : Bool) : ProverNodes → Tree → Prop
  | leaf {tag : Option Ref} {k nk : ADKey} {v : ADValue} :
      Mirrors hf frontier (.proverLeaf k v nk) (.leaf tag k v nk)
  | node {tag : Option Ref} {k : ADKey} {l r : ProverNodes} {tl tr : Tree} {b : Balance}
      (hl : Mirrors hf frontier l tl) (hr : Mirrors hf frontier r tr) :
      Mirrors hf frontier (.internalProverNode k l r b) (.node tag k tl tr b)
  | proxy {tag : Option Ref} {k : ADKey} {l r : ProverNodes} {tl tr : Tree} {b : Balance}
      (hl : Mirrors hf frontier l tl) (hr : Mirrors hf frontier r tr) :
      Mirrors hf frontier (.proxyInternalNode k (treeLabel hf tl) (treeLabel hf tr) l r b)
        (.node tag k tl tr b)
  | empty {tag : Option Ref} {k : ADKey} {tl tr : Tree} {b : Balance} (h : frontier = true) :
      Mirrors hf frontier
        (.proxyInternalNode k (treeLabel hf tl) (treeLabel hf tr) .null .null b)
        (.node tag k tl tr b)

/-- The nodes as they are read back. -/
def ProverNodes.plain : ProverNodes → ProverNodes
  | .proxyInternalNode k leftLabel rightLabel l r b =>
      if l = .null ∨ r = .null then .proxyInternalNode k leftLabel rightLabel .null .null b
      else .internalProverNode k l.plain r.plain b
  | .internalProverNode k l r b => .internalProverNode k l.plain r.plain b
  | n => n

section

variable {hf : CryptographicHash} {frontier : Bool} {n : ProverNodes} {t : Tree}
  {lo hi : ADKey} {keyLength : ℕ}

theorem Mirrors.ne_null (h : Mirrors hf frontier n t) : n ≠ .null := by
  rintro rfl
  cases h

theorem Mirrors.label (h : Mirrors hf frontier n t) : n.label hf = .ok (treeLabel hf t) := by
  induction h with
  | leaf => rfl
  | node hl hr ihl ihr =>
    rw [ProverNodes.label, ihl, ihr]
    rfl
  | proxy hl hr => rfl
  | empty h => rfl

/-- What is read back stands for the same tree. -/
theorem Mirrors.plain (h : Mirrors hf frontier n t) : Mirrors hf frontier n.plain t := by
  induction h with
  | leaf => exact .leaf
  | node hl hr ihl ihr => exact .node ihl ihr
  | proxy hl hr ihl ihr =>
    rw [ProverNodes.plain, if_neg (not_or.2 ⟨hl.ne_null, hr.ne_null⟩)]
    exact .node ihl ihr
  | empty h =>
    rw [ProverNodes.plain, if_pos (.inl rfl)]
    exact .empty h

/-- The key of the root lies between the ends of its tree, and it is not the lower one unless
the root is a leaf. -/
theorem Mirrors.key (h : Mirrors hf frontier n t) (hchain : Chain lo hi t) :
    ∃ k, n.key = .ok k ∧ n.plain.key = .ok k ∧ lo ≤ k ∧ k < hi := by
  have hplain := h.plain
  cases h with
  | leaf =>
    obtain ⟨rfl, rfl, hlt⟩ := hchain
    exact ⟨_, rfl, rfl, le_rfl, hlt⟩
  | node hl hr => exact ⟨_, rfl, rfl, hchain.1.lt.le, hchain.2.lt⟩
  | proxy hl hr =>
    refine ⟨_, rfl, ?_, hchain.1.lt.le, hchain.2.lt⟩
    rw [ProverNodes.plain, if_neg (not_or.2 ⟨hl.ne_null, hr.ne_null⟩)]
    rfl
  | empty h =>
    refine ⟨_, rfl, ?_, hchain.1.lt.le, hchain.2.lt⟩
    rw [ProverNodes.plain, if_pos (.inl rfl)]
    rfl

/-! ## Slices of what was written -/

/-- The part of a concatenation between the ends of one piece. -/
theorem slice_append {a m c : List UInt8} {i j : ℤ} (hi : i = a.length)
    (hj : j = a.length + m.length) : slice (a ++ m ++ c) i j = m := by
  have hj' : j.toNat = (a ++ m).length := by
    rw [List.length_append]
    omega
  have hi' : i.toNat = a.length := by omega
  rw [slice, hi', hj', List.take_left, List.drop_left]

theorem intFromByteArray_toBytes {x : ℕ} (hx : x < 2 ^ 31) :
    intFromByteArray (toBytes 4 x) = .ok x := by
  rw [intFromByteArray, if_neg (by simp), List.take_of_length_le (by simp),
    signed_ofBytes_toBytes hx]

/-! ## Reading what was written -/

/-- The bytes of an inner node. -/
def innerBytes (k : ADKey) (b : Balance) (leftBytes rightBytes : List UInt8) : List UInt8 :=
  [1, b.toUInt8] ++ k.bytes ++ toBytes 4 leftBytes.length ++ leftBytes ++ rightBytes

/-- The parts of the bytes of an inner node. -/
theorem slices_innerBytes {k : ADKey} (hk : k.length = keyLength) (b : Balance)
    (leftBytes rightBytes : List UInt8) :
    let bytes := innerBytes k b leftBytes rightBytes
    slice bytes 1 2 = [b.toUInt8] ∧ slice bytes 2 (keyLength + 2) = k.bytes
    ∧ slice bytes (keyLength + 2) (keyLength + 6) = toBytes 4 leftBytes.length
    ∧ slice bytes (keyLength + 6) (keyLength + 6 + leftBytes.length) = leftBytes
    ∧ slice bytes (keyLength + 6 + leftBytes.length) bytes.length = rightBytes
    ∧ bytes.length = keyLength + 6 + leftBytes.length + rightBytes.length := by
  intro bytes
  have hlen : bytes.length = keyLength + 6 + leftBytes.length + rightBytes.length := by
    simp only [bytes, innerBytes, List.length_append, List.length_cons, List.length_nil,
      length_toBytes]
    have : k.bytes.length = keyLength := hk
    omega
  have hk' : k.bytes.length = keyLength := hk
  refine ⟨?_, ?_, ?_, ?_, ?_, hlen⟩
  · exact slice_append (a := [1]) (m := [b.toUInt8])
      (c := k.bytes ++ toBytes 4 leftBytes.length ++ leftBytes ++ rightBytes) rfl rfl
  · have := slice_append (a := [1, b.toUInt8]) (m := k.bytes)
      (c := toBytes 4 leftBytes.length ++ leftBytes ++ rightBytes) (i := 2) (j := keyLength + 2)
      rfl (by simp; omega)
    simpa [bytes, innerBytes] using this
  · have := slice_append (a := [1, b.toUInt8] ++ k.bytes) (m := toBytes 4 leftBytes.length)
      (c := leftBytes ++ rightBytes) (i := keyLength + 2) (j := keyLength + 6)
      (by simp; omega) (by simp; omega)
    simpa [bytes, innerBytes] using this
  · refine slice_append ?_ ?_
    · simp
      omega
    · simp
      omega
  · have := slice_append (a := [1, b.toUInt8] ++ k.bytes ++ toBytes 4 leftBytes.length ++ leftBytes)
      (m := rightBytes) (c := []) (i := keyLength + 6 + leftBytes.length) (j := bytes.length)
      (by simp; omega) (by rw [hlen]; simp; omega)
    simpa [bytes, innerBytes] using this

/-- An inner node is read from its bytes, if both parts are. -/
theorem nodesLoop_inner {k : ADKey} {b : Balance} {l r : ProverNodes} {kl kr : ADKey}
    {leftBytes rightBytes : List UInt8} {fuel : ℕ} (hk : k.length = keyLength)
    (hl : nodesLoop hf keyLength fuel leftBytes = .ok l)
    (hr : nodesLoop hf keyLength fuel rightBytes = .ok r)
    (hkl : l.key = .ok kl) (hkr : r.key = .ok kr) (hlt : kl < k) (hle : k ≤ kr)
    (hlen : (innerBytes k b leftBytes rightBytes).length < 2 ^ 31) :
    nodesLoop hf keyLength (fuel + 1) (innerBytes k b leftBytes rightBytes)
      = .ok (.internalProverNode k l r b) := by
  obtain ⟨h₁, h₂, h₃, h₄, h₅, h₆⟩ := slices_innerBytes hk b leftBytes rightBytes
  rw [h₆] at hlen
  have hmiddle : wrapInt (keyLength + 6 + leftBytes.length) = keyLength + 6 + leftBytes.length :=
    wrapInt_of_lt (by omega) (by omega)
  have htag : byteHead (innerBytes k b leftBytes rightBytes) = .ok 1 := rfl
  rw [nodesLoop, htag, h₁, h₂, h₃, intFromByteArray_toBytes (by omega)]
  show (Except.bind (nodesLoop hf keyLength fuel (slice (innerBytes k b leftBytes rightBytes)
    (keyLength + 6) (wrapInt (keyLength + 6 + leftBytes.length)))) _ : Except _ _) = _
  rw [hmiddle, h₄, hl]
  show (Except.bind (nodesLoop hf keyLength fuel (slice (innerBytes k b leftBytes rightBytes)
    (keyLength + 6 + leftBytes.length) (innerBytes k b leftBytes rightBytes).length)) _
      : Except _ _) = _
  rw [h₅, hr]
  show (Except.bind l.key _ : Except _ _) = _
  rw [hkl]
  show (Except.bind r.key _ : Except _ _) = _
  rw [hkr]
  exact if_pos ⟨hlt, hle⟩

/-- An inner node is read from its bytes above what its children were written as. -/
theorem nodesLoop_children {tag : Option Ref} {k : ADKey} {b : Balance} {l r : ProverNodes}
    {tl tr : Tree} (hl : Mirrors hf frontier l tl) (hr : Mirrors hf frontier r tr)
    (hchain : Chain lo hi (.node tag k tl tr b : Tree))
    (hkeys : KeyLength keyLength (.node tag k tl tr b) hi) {leftBytes rightBytes : List UInt8}
    (hleft : ∀ fuel, leftBytes.length < 2 ^ 31 → leftBytes.length < fuel →
      nodesLoop hf keyLength fuel leftBytes = .ok l.plain)
    (hright : ∀ fuel, rightBytes.length < 2 ^ 31 → rightBytes.length < fuel →
      nodesLoop hf keyLength fuel rightBytes = .ok r.plain) {fuel : ℕ}
    (hlen : (innerBytes k b leftBytes rightBytes).length < 2 ^ 31)
    (hfuel : (innerBytes k b leftBytes rightBytes).length < fuel) :
    nodesLoop hf keyLength fuel (innerBytes k b leftBytes rightBytes)
      = .ok (.internalProverNode k l.plain r.plain b) := by
  have hk : k.length = keyLength := (hkeys.left hchain.2).last
  have hbytes := (slices_innerBytes hk b leftBytes rightBytes).2.2.2.2.2
  obtain ⟨kl, _, hkl, _, hlt⟩ := hl.key hchain.1
  obtain ⟨kr, _, hkr, hle, _⟩ := hr.key hchain.2
  obtain ⟨fuel, rfl⟩ := Nat.exists_eq_add_of_lt (Nat.zero_lt_of_lt hfuel)
  rw [Nat.zero_add]
  exact nodesLoop_inner hk (hleft fuel (by omega) (by omega)) (hright fuel (by omega) (by omega))
    hkl hkr hlt hle hlen

/-- A proxy without children is read from its bytes. -/
theorem proxyFromBytes_bytes {k : ADKey} (hk : k.length = keyLength) {leftLabel rightLabel : Digest}
    (hl : leftLabel.length = hf.digestSize) (hr : rightLabel.length = hf.digestSize) (b : Balance) :
    proxyFromBytes hf keyLength ([2, b.toUInt8] ++ k.bytes ++ leftLabel ++ rightLabel)
      = .ok (.proxyInternalNode k leftLabel rightLabel .null .null b) := by
  have hk' : k.bytes.length = keyLength := hk
  have hs₁ := slice_append (a := [2]) (m := [b.toUInt8]) (c := k.bytes ++ leftLabel ++ rightLabel)
    (i := 1) (j := 2) rfl rfl
  have hs₂ := slice_append (a := [2, b.toUInt8]) (m := k.bytes) (c := leftLabel ++ rightLabel)
    (i := 2) (j := keyLength + 2) rfl (by simp; omega)
  have hs₃ := slice_append (a := [2, b.toUInt8] ++ k.bytes) (m := leftLabel) (c := rightLabel)
    (i := keyLength + 2) (j := keyLength + 2 + hf.digestSize) (by simp; omega) (by simp; omega)
  have hs₄ := slice_append (a := [2, b.toUInt8] ++ k.bytes ++ leftLabel) (m := rightLabel) (c := [])
    (i := keyLength + 2 + hf.digestSize) (j := keyLength + 2 + 2 * hf.digestSize)
    (by simp; omega) (by simp; omega)
  have hbytes : [2] ++ [b.toUInt8] ++ (k.bytes ++ leftLabel ++ rightLabel)
      = [2, b.toUInt8] ++ k.bytes ++ leftLabel ++ rightLabel := by simp
  have hbytes' : [2, b.toUInt8] ++ k.bytes ++ (leftLabel ++ rightLabel)
      = [2, b.toUInt8] ++ k.bytes ++ leftLabel ++ rightLabel := by simp
  rw [hbytes] at hs₁
  rw [hbytes'] at hs₂
  rw [List.append_nil] at hs₄
  rw [proxyFromBytes, hs₁, hs₂, hs₃, hs₄]
  show (Except.bind (byteArrayToDigest hf leftLabel) _ : Except _ _) = _
  rw [byteArrayToDigest, if_pos hl]
  show (Except.bind (byteArrayToDigest hf rightLabel) _ : Except _ _) = _
  rw [byteArrayToDigest, if_pos hr]
  rfl

/-- **Reading what was written.** -/
theorem nodesLoop_nodesToBytes (h : Mirrors hf frontier n t) (hchain : Chain lo hi t)
    (hkeys : KeyLength keyLength t hi) :
    ∃ bytes, nodesToBytes n = .ok bytes ∧ ∀ fuel, bytes.length < 2 ^ 31 → bytes.length < fuel →
      nodesLoop hf keyLength fuel bytes = .ok n.plain := by
  induction h generalizing lo hi with
  | @leaf tag k nk v =>
    obtain ⟨rfl, rfl, -⟩ := hchain
    have hk : k.bytes.length = keyLength := hkeys.entries (k, v) (List.mem_singleton_self _)
    have hnk : nk.bytes.length = keyLength := hkeys.last
    refine ⟨_, rfl, fun fuel _ hfuel => ?_⟩
    obtain ⟨fuel, rfl⟩ := Nat.exists_eq_add_of_lt (Nat.zero_lt_of_lt hfuel)
    rw [Nat.zero_add]
    have hbytes : leafFromBytes keyLength (0 :: (k.bytes ++ nk.bytes ++ v.bytes))
        = .proverLeaf k v nk := by
      have hs₁ := slice_append (a := [0]) (m := k.bytes) (c := nk.bytes ++ v.bytes) (i := 1)
        (j := keyLength + 1) rfl (by simp; omega)
      have hs₂ := slice_append (a := 0 :: k.bytes) (m := nk.bytes) (c := v.bytes)
        (i := keyLength + 1) (j := 2 * keyLength + 1) (by simp; omega) (by simp; omega)
      have hs₃ := slice_append (a := 0 :: (k.bytes ++ nk.bytes)) (m := v.bytes) (c := [])
        (i := 2 * keyLength + 1) (j := (0 :: (k.bytes ++ nk.bytes ++ v.bytes)).length)
        (by simp; omega) (by simp; omega)
      simp only [List.cons_append, List.nil_append, List.append_nil,
        ← List.append_assoc] at hs₁ hs₂ hs₃
      rw [leafFromBytes, hs₁, hs₂, hs₃, mkValue_bytes]
    exact congrArg Except.ok hbytes
  | @node tag k l r tl tr b hl hr ihl ihr =>
    obtain ⟨leftBytes, hlb, hleft⟩ := ihl hchain.1 (hkeys.left hchain.2)
    obtain ⟨rightBytes, hrb, hright⟩ := ihr hchain.2 hkeys.right
    exact ⟨innerBytes k b leftBytes rightBytes, by rw [nodesToBytes, hlb, hrb]; rfl,
      fun fuel hlen hfuel => nodesLoop_children hl hr hchain hkeys hleft hright hlen hfuel⟩
  | @proxy tag k l r tl tr b hl hr ihl ihr =>
    obtain ⟨leftBytes, hlb, hleft⟩ := ihl hchain.1 (hkeys.left hchain.2)
    obtain ⟨rightBytes, hrb, hright⟩ := ihr hchain.2 hkeys.right
    have hne : ¬ (l = .null ∨ r = .null) := not_or.2 ⟨hl.ne_null, hr.ne_null⟩
    refine ⟨innerBytes k b leftBytes rightBytes, by rw [nodesToBytes, if_neg hne, hlb, hrb]; rfl,
      fun fuel hlen hfuel => ?_⟩
    rw [ProverNodes.plain, if_neg hne]
    exact nodesLoop_children hl hr hchain hkeys hleft hright hlen hfuel
  | @empty tag k tl tr b hfrontier =>
    refine ⟨_, by rw [nodesToBytes, if_pos (.inl rfl)], fun fuel _ hfuel => ?_⟩
    obtain ⟨fuel, rfl⟩ := Nat.exists_eq_add_of_lt (Nat.zero_lt_of_lt hfuel)
    rw [Nat.zero_add, ProverNodes.plain, if_pos (.inl rfl)]
    exact proxyFromBytes_bytes (hkeys.left hchain.2).last (length_treeLabel hf hchain.1)
      (length_treeLabel hf hchain.2) b

/-- Nodes that stand for a tree can be written, and are read back. -/
theorem nodesFromBytes_nodesToBytes (h : Mirrors hf frontier n t) (hchain : Chain lo hi t)
    (hkeys : KeyLength keyLength t hi) :
    ∃ bytes, nodesToBytes n = .ok bytes
      ∧ (bytes.length < 2 ^ 31 → nodesFromBytes hf keyLength bytes = .ok n.plain) := by
  obtain ⟨bytes, hbytes, hread⟩ := nodesLoop_nodesToBytes h hchain hkeys
  exact ⟨bytes, hbytes, fun hlen => hread _ hlen (Nat.lt_succ_self _)⟩

end

end Sparkz.Avl.Serialization
