import Sparkz.Avl.ProofGeneration
import Sparkz.Avl.ProofParsing

/-!
# What the verifier reads

* `Packable`, `Joined` — a tree that can be packed, with leaves that are read back although
  their keys are left out.
* `parseNodes_pack` — the loop over the proof reads a packed tree back.
* `new_spec` — a verifier on a proof stands for the tree in it.
-/

namespace Sparkz.Avl

open Sparkz.Lib Sparkz.Lib.LeafTree

/-! ## Bytes at a position -/

section

variable {proof x y : List UInt8} {i : ℕ}

theorem prefix_drop_append :
    (x ++ y) <+: proof.drop i ↔ x <+: proof.drop i ∧ y <+: proof.drop (i + x.length) := by
  constructor
  · rintro ⟨z, hz⟩
    refine ⟨⟨y ++ z, by rw [← List.append_assoc, hz]⟩, z, ?_⟩
    rw [← List.drop_drop, ← hz, List.append_assoc, List.drop_left]
  · rintro ⟨⟨z, hz⟩, z', hz'⟩
    refine ⟨z', ?_⟩
    rw [← List.drop_drop, ← hz, List.drop_left] at hz'
    rw [List.append_assoc, hz', hz]

theorem slice_of_prefix (h : x <+: proof.drop i) : slice proof i (i + x.length : ℕ) = x := by
  rw [slice, Int.toNat_natCast, Int.toNat_natCast, List.drop_take, Nat.add_sub_cancel_left]
  exact (List.prefix_iff_eq_take.1 h).symm

theorem length_of_prefix (h : x <+: proof.drop i) (hx : x ≠ []) :
    i + x.length ≤ proof.length := by
  have hle := h.length_le
  rw [List.length_drop] at hle
  have := List.length_pos_iff.2 hx
  omega

theorem head_of_read {b : UInt8} (h : (b :: x) <+: proof.drop i) : proof[i]? = some b := by
  obtain ⟨z, hz⟩ := h
  have : (proof.drop i)[0]? = some b := by rw [← hz]; rfl
  rwa [List.getElem?_drop, Nat.add_zero] at this

end

/-! ## Packed trees -/

section

variable {P : TreeParams} {t : Tree}

/-- What was there before is left alone. -/
theorem pack_append (P : TreeParams) (t : Tree) (bytes : List UInt8) (afterLeaf : Bool) :
    pack P t (bytes, afterLeaf)
      = (bytes ++ (pack P t ([], afterLeaf)).1, (pack P t ([], afterLeaf)).2) := by
  induction t generalizing bytes afterLeaf with
  | stub l => simp only [pack, List.nil_append, List.append_assoc]
  | leaf tag k v n => simp only [pack, List.nil_append]
  | node tag k l r b ihl ihr =>
    rw [pack, pack, ihl bytes, ihr (bytes ++ _), ihr (pack P l ([], afterLeaf)).1]
    simp only [List.append_assoc]

/-- A packed inner node: its children, and its balance. -/
theorem pack_node (P : TreeParams) (tag : Option Ref) (k : ADKey) (l r : Tree) (b : Balance)
    (afterLeaf : Bool) :
    (pack P (.node tag k l r b) ([], afterLeaf)).1
      = (pack P l ([], afterLeaf)).1 ++ (pack P r ([], (pack P l ([], afterLeaf)).2)).1
        ++ [b.toUInt8] := by
  rw [pack, pack_append P r]

/-- The number of nodes. -/
def nodeCount : Tree → ℕ
  | .stub _ => 1
  | .leaf _ _ _ _ => 1
  | .node _ _ l r _ => nodeCount l + nodeCount r + 1

/-- A tree that can be packed: labels, keys and values have their lengths, and the balances
are no marks of another item. -/
def Packable (P : TreeParams) : Tree → Prop
  | .stub l => l.length = P.labelLength
  | .leaf _ k v n => k.length = P.keyLength ∧ n.length = P.keyLength
      ∧ ∀ vl ∈ P.valueLengthOpt, v.length = vl
  | .node _ _ l r b => Packable P l ∧ Packable P r ∧ (b = -1 ∨ b = 0 ∨ b = 1)

/-- The next key of the leaf that was read last, unless a label came after it. -/
def nextAfter : Tree → Option ADKey → Option ADKey
  | .stub _, _ => none
  | .leaf _ _ _ n, _ => some n
  | .node _ _ l r _, previous => nextAfter r (nextAfter l previous)

/-- A leaf after another leaf has the next key of that one. -/
def Joined : Tree → Option ADKey → Prop
  | .stub _, _ => True
  | .leaf _ k _ _, previous => ∀ next ∈ previous, k = next
  | .node _ _ l r _, previous => Joined l previous ∧ Joined r (nextAfter l previous)

/-- The packer knows when a leaf came last. -/
theorem isSome_nextAfter (P : TreeParams) (t : Tree) (previous : Option ADKey) :
    (pack P t ([], previous.isSome)).2 = (nextAfter t previous).isSome := by
  induction t generalizing previous with
  | stub l => rfl
  | leaf tag k v n => rfl
  | node tag k l r b ihl ihr =>
    rw [pack, pack_append P r, ihl, nextAfter]
    exact ihr _

/-- Each node takes a byte at least. -/
theorem nodeCount_le (P : TreeParams) (t : Tree) (afterLeaf : Bool) :
    nodeCount t ≤ (pack P t ([], afterLeaf)).1.length := by
  induction t generalizing afterLeaf with
  | stub l => simp [pack, nodeCount]
  | leaf tag k v n =>
    simp only [pack, packLeaf, nodeCount, List.nil_append, List.length_append,
      List.length_singleton]
    omega
  | node tag k l r b ihl ihr =>
    have hl := ihl afterLeaf
    have hr := ihr (pack P l ([], afterLeaf)).2
    rw [pack_node, nodeCount, List.length_append, List.length_append, List.length_singleton]
    omega

/-- A chain with keys and values of the right lengths can be packed, cut wherever. -/
theorem packable_prune {lo hi : ADKey} (hchain : Chain lo hi t) (hbal : t.Balanced)
    (hhi : hi.length = P.keyLength)
    (hentries : ∀ e ∈ t.entries, e.1.length = P.keyLength
      ∧ ∀ vl ∈ P.valueLengthOpt, e.2.length = vl)
    (seen : Ref → Bool) : Packable P (prune (treeLabel P.hf) seen t) := by
  induction t generalizing lo hi with
  | stub l => exact hchain.elim
  | leaf tag k v n =>
    rw [prune]
    split
    · obtain ⟨-, rfl, -⟩ := hchain
      obtain ⟨hk, hv⟩ := hentries (k, v) (List.mem_singleton_self _)
      exact ⟨hk, hhi, hv⟩
    · exact P.hf.length_hash _
  | node tag k l r b ihl ihr =>
    rw [prune]
    split
    · obtain ⟨hcl, hcr⟩ := hchain
      obtain ⟨hbl, hbr, hb⟩ := balanced_node.1 hbal
      have hk : k.length = P.keyLength := by
        obtain ⟨v, rest, hcons⟩ := hcr.entries_eq_cons
        refine (hentries (k, v) (List.mem_append_right _ ?_)).1
        rw [hcons]
        exact List.mem_cons_self
      refine ⟨ihl hcl hbl hk fun e he => hentries e (List.mem_append_left _ he),
        ihr hcr hbr hhi fun e he => hentries e (List.mem_append_right _ he), ?_⟩
      exact hb.imp And.left (Or.imp And.left And.left)
    · exact P.hf.length_hash _

/-- The leaves of a chain follow each other, wherever it is cut. -/
theorem joined_prune {lo hi : ADKey} (hchain : Chain lo hi t) (label : Tree → Digest)
    (seen : Ref → Bool) {previous : Option ADKey} (hprevious : ∀ next ∈ previous, lo = next) :
    Joined (prune label seen t) previous
      ∧ ∀ next ∈ nextAfter (prune label seen t) previous, hi = next := by
  induction t generalizing lo hi previous with
  | stub l => exact hchain.elim
  | leaf tag k v n =>
    rw [prune]
    split
    · obtain ⟨rfl, rfl, -⟩ := hchain
      exact ⟨hprevious, fun next hnext => Option.some.inj hnext⟩
    · exact ⟨trivial, fun next hnext => by cases hnext⟩
  | node tag k l r b ihl ihr =>
    rw [prune]
    split
    · obtain ⟨hjl, hnl⟩ := ihl hchain.1 hprevious
      obtain ⟨hjr, hnr⟩ := ihr hchain.2 hnl
      exact ⟨⟨hjl, hjr⟩, hnr⟩
    · exact ⟨trivial, fun next hnext => by cases hnext⟩

end

/-! ## New nodes of the verifier -/

section

variable {hf : CryptographicHash} {h : Heap}

/-- A label that was read. -/
theorem yields_stub (hf : CryptographicHash) (h : Heap) (l : Digest) :
    Yields .verifier hf h (h ++ [⟨false, some l, .labelOnlyNode l⟩]) ∅ [] (.stub l) h.length :=
  ⟨step_append _ _ _ _, ∅,
    ⟨rfl, ⟨_, getElem?_append_length _ _, rfl, fun _ hl => (Option.some.inj hl).symm⟩, rfl⟩,
    fun _ hy => absurd hy (Set.notMem_empty _)⟩

/-- A leaf that was read. -/
theorem yields_leaf (hf : CryptographicHash) (h : Heap) (tag : Option Ref) (k : ADKey)
    (v : ADValue) (n : ADKey) :
    Yields .verifier hf h (h ++ [⟨false, none, .verifierLeaf k v n⟩]) ∅ [] (.leaf tag k v n)
      h.length :=
  ⟨step_append _ _ _ _, _, ⟨true, holds_append _ _, rfl, rfl⟩, fun _ hy => .inr hy.1.ge⟩

/-- An inner node on top of two trees that were read. -/
theorem yields_node {l r : Tree} {lx rx : Ref} {Ml Mr : Set Ref}
    (hl : Represents .verifier hf h l lx Ml) (hr : Represents .verifier hf h r rx Mr)
    (hlr : ∀ y ∈ Ml, y ∉ Mr) (tag : Option Ref) (k : ADKey) (b : Balance) :
    Yields .verifier hf h (h ++ [⟨false, none, .internalVerifierNode lx rx b⟩]) (Ml ∪ Mr) []
      (.node tag k l r b) h.length := by
  have hstep : Step .verifier h (h ++ [⟨false, none, .internalVerifierNode lx rx b⟩]) ∅ [] :=
    step_append _ _ _ _
  refine ⟨hstep.mono fun _ hy => absurd hy (Set.notMem_empty _), _,
    ⟨true, lx, rx, Ml, Mr, holds_append _ _, rfl,
      hl.step hstep fun _ _ => Set.notMem_empty _, hr.step hstep fun _ _ => Set.notMem_empty _,
      fun hmem => absurd (hl.footprint_lt hmem) (lt_irrefl _),
      fun hmem => absurd (hr.footprint_lt hmem) (lt_irrefl _), hlr,
      (fun hnew => by cases hnew), rfl⟩, ?_⟩
  rintro y (hy | hy)
  · exact .inr hy.1.ge
  · exact .inl hy

end

/-! ## Reading a packed tree -/

section

variable {P : TreeParams} {proof : List UInt8} {i : ℕ} {k n : ADKey} {v : ADValue}

/-- The length of a packed value, and where the value starts. -/
theorem parseValueLength_pack (hv : ∀ vl ∈ P.valueLengthOpt, v.length = vl)
    (hlen : proof.length < 2 ^ 31)
    (hread : ((if P.valueLengthOpt.isNone then toBytes 4 v.length else []) ++ v.bytes)
      <+: proof.drop i) (s : TreeState VerifierNav) :
    ∃ j, parseValueLength P proof i s = .ok (v.length, ((j : ℕ) : ℤ)) s
      ∧ j = i + (if P.valueLengthOpt.isNone then toBytes 4 v.length else []).length
      ∧ v.bytes <+: proof.drop j := by
  obtain ⟨hl, hbytes⟩ := prefix_drop_append.1 hread
  rw [parseValueLength]
  cases hvl : P.valueLengthOpt with
  | some vl =>
    rw [hvl] at hbytes
    exact ⟨i, by rw [hv vl hvl]; rfl, rfl, hbytes⟩
  | none =>
    rw [hvl] at hl hbytes
    simp only [Option.isNone_none, if_true] at hl hbytes ⊢
    have hpos := length_of_prefix hl (by simp [toBytes])
    rw [length_toBytes] at hpos hbytes ⊢
    have hslice := slice_of_prefix hl
    rw [length_toBytes] at hslice
    have hwrap : wrapInt ((i : ℤ) + 4) = ((i + 4 : ℕ) : ℤ) := wrapInt_add (b := 4) (by omega)
    rw [hwrap, hslice, length_toBytes, if_neg (lt_irrefl 4),
      signed_ofBytes_toBytes (show v.length < 2 ^ 31 from v.length_lt)]
    exact ⟨i + 4, rfl, rfl, hbytes⟩

/-- What is left of the round for a leaf once its key is known. -/
theorem parseLeaf_pack (hn : n.length = P.keyLength)
    (hv : ∀ vl ∈ P.valueLengthOpt, v.length = vl) (hlen : proof.length < 2 ^ 31)
    (hread : (n.bytes ++ ((if P.valueLengthOpt.isNone then toBytes 4 v.length else []) ++ v.bytes))
      <+: proof.drop i) (hend : i + (n.bytes
        ++ ((if P.valueLengthOpt.isNone then toBytes 4 v.length else []) ++ v.bytes)).length
        ≤ proof.length) (s : TreeState VerifierNav) :
    ∃ j, slice proof i (wrapInt (i + P.keyLength)) = n.bytes
      ∧ parseValueLength P proof (wrapInt (i + P.keyLength)) s = .ok (v.length, ((j : ℕ) : ℤ)) s
      ∧ wrapInt (j + v.length) = ((i + (n.bytes ++ ((if P.valueLengthOpt.isNone then
          toBytes 4 v.length else []) ++ v.bytes)).length : ℕ) : ℤ)
      ∧ slice proof j (wrapInt (j + v.length)) = v.bytes := by
  obtain ⟨hnext, hrest⟩ := prefix_drop_append.1 hread
  have hkey : n.bytes.length = P.keyLength := hn
  simp only [List.length_append] at hend ⊢
  obtain ⟨j, hrun, hj, hvalue⟩ := parseValueLength_pack hv hlen hrest s
  have hwrap : wrapInt ((i : ℤ) + P.keyLength) = ((i + P.keyLength : ℕ) : ℤ) :=
    wrapInt_add (by omega)
  have hvlen : v.bytes.length = v.length := rfl
  have hstop : wrapInt ((j : ℤ) + v.length) = ((j + v.length : ℕ) : ℤ) := wrapInt_add (by omega)
  refine ⟨j, ?_, ?_, ?_, ?_⟩
  · rw [hwrap, ← hkey]
    exact slice_of_prefix hnext
  · rw [hwrap, ← hkey]
    exact hrun
  · rw [hstop, Nat.cast_inj, hj, hvlen]
    omega
  · rw [hstop, ← hvlen]
    exact slice_of_prefix hvalue

/-- The round for a packed leaf. -/
theorem parseNode_packLeaf {previous : Option ADKey} {tag : Option Ref}
    (hpack : Packable P (.leaf tag k v n)) (hprevious : ∀ next ∈ previous, k = next)
    (hlen : proof.length < 2 ^ 31)
    (hread : packLeaf P previous.isSome k v n <+: proof.drop i) (num : ℤ) (stack : List Ref)
    (s : TreeState VerifierNav) :
    parseNode P proof ⟨num, stack, i, previous⟩ BatchAVLProver.leafInPackagedProof s
      = .ok ⟨num, s.heap.length :: stack, ((i + (packLeaf P previous.isSome k v n).length : ℕ) : ℤ),
          some n⟩ { s with heap := s.heap ++ [⟨false, none, .verifierLeaf k v n⟩] } := by
  obtain ⟨hk, hn, hv⟩ := hpack
  have hlabel : BatchAVLProver.leafInPackagedProof ≠ BatchAVLProver.labelInPackagedProof := by
    decide
  have hne : packLeaf P previous.isSome k v n ≠ [] := by simp [packLeaf]
  have hend := length_of_prefix hread hne
  have hsucc : wrapInt ((i : ℤ) + 1) = ((i + 1 : ℕ) : ℤ) := by
    have := List.length_pos_iff.2 hne
    exact wrapInt_succ (by omega)
  rw [packLeaf] at hread hend ⊢
  simp only [List.append_assoc] at hread hend ⊢
  obtain ⟨_, hread⟩ := prefix_drop_append.1 hread
  rw [List.length_append] at hend
  rw [parseNode, if_neg hlabel, if_pos rfl]
  simp only [List.length_singleton] at hread hend
  rw [hsucc]
  cases previous with
  | some next =>
    obtain rfl := hprevious next rfl
    simp only [Option.isSome_some, if_true, List.nil_append] at hread hend ⊢
    obtain ⟨j, hnext, hrun, hstop, hvalue⟩ :=
      parseLeaf_pack hn hv hlen hread (by omega) s
    rw [bind_ok hrun]
    simp only
    rw [hvalue, hstop, hnext, mkValue_bytes, bind_ok (newNode_ok _)]
    simp only [List.length_append, List.length_singleton, ← add_assoc]
    rfl
  | none =>
    simp only [Option.isSome_none, Bool.false_eq_true, if_false] at hread hend ⊢
    obtain ⟨hkey, hread⟩ := prefix_drop_append.1 hread
    rw [List.length_append] at hend
    have hklen : k.bytes.length = P.keyLength := hk
    obtain ⟨j, hnext, hrun, hstop, hvalue⟩ :=
      parseLeaf_pack hn hv hlen hread (by omega) s
    have hwrap : wrapInt (((i + 1 : ℕ) : ℤ) + P.keyLength)
        = ((i + 1 + k.bytes.length : ℕ) : ℤ) := by
      rw [← hklen]
      exact wrapInt_add (by omega)
    rw [hwrap, bind_ok hrun]
    simp only
    rw [hvalue, hstop, hnext, slice_of_prefix hkey, mkValue_bytes, bind_ok (newNode_ok _)]
    simp only [List.length_append, List.length_singleton, ← add_assoc]
    rfl

/-- One round of the loop. -/
theorem parseNodes_round {limit : Option ℤ} {num fuel : ℕ} {stack : List Ref}
    {previous : Option ADKey} {b : UInt8} {s s' : TreeState VerifierNav} {st' : ParseState}
    (hb : proof[i]? = some b) (hend : b ≠ BatchAVLProver.endOfTreeInPackagedProof)
    (hnum : num + 1 < 2 ^ 31) (hlimit : ∀ most ∈ limit, ((num + 1 : ℕ) : ℤ) ≤ most)
    (hnode : parseNode P proof ⟨((num + 1 : ℕ) : ℤ), stack, i, previous⟩ b s = .ok st' s') :
    parseNodes P proof limit (fuel + 1) ⟨num, stack, i, previous⟩ s
      = parseNodes P proof limit fuel st' s' := by
  have hbyte : proofByte proof (i : ℤ) s = .ok b s := by
    rw [proofByte, if_neg (by omega), Int.toNat_natCast, hb]
    rfl
  have hwithin : (limit.any fun most => decide (most < ((num + 1 : ℕ) : ℤ))) = false := by
    cases limit with
    | none => rfl
    | some most => simpa using hlimit most rfl
  rw [parseNodes, bind_ok hbyte, if_neg hend]
  simp only [wrapInt_succ hnum]
  rw [hwithin, if_neg Bool.false_ne_true, bind_ok hnode]

/-- **A packed tree is read back**, whatever is on the stack and whatever follows. -/
theorem parseNodes_pack {limit : Option ℤ} {t : Tree} {previous : Option ADKey}
    (hpack : Packable P t) (hjoined : Joined t previous) (hlen : proof.length < 2 ^ 31) {num : ℕ}
    (hnum : num ≤ i) (hlimit : ∀ most ∈ limit, ((num + nodeCount t : ℕ) : ℤ) ≤ most)
    (hread : (pack P t ([], previous.isSome)).1 <+: proof.drop i) (fuel : ℕ) (stack : List Ref)
    (s : TreeState VerifierNav) :
    ∃ root heap, parseNodes P proof limit (fuel + nodeCount t) ⟨num, stack, i, previous⟩ s
      = parseNodes P proof limit fuel
          ⟨((num + nodeCount t : ℕ) : ℤ), root :: stack,
            ((i + (pack P t ([], previous.isSome)).1.length : ℕ) : ℤ), nextAfter t previous⟩
          { s with heap := heap }
      ∧ Yields .verifier P.hf s.heap heap ∅ [] t root := by
  induction t generalizing previous num i fuel stack s with
  | stub l =>
    have hl : l.length = P.labelLength := hpack
    have hpacked : (pack P (.stub l) ([], previous.isSome)).1
        = BatchAVLProver.labelInPackagedProof :: l := rfl
    rw [hpacked] at hread ⊢
    have hend := length_of_prefix hread (List.cons_ne_nil _ _)
    rw [List.length_cons] at hend
    have hlabel : l <+: proof.drop (i + 1) :=
      (prefix_drop_append (x := [BatchAVLProver.labelInPackagedProof]).1 hread).2
    refine ⟨s.heap.length, _, ?_, yields_stub _ _ l⟩
    refine parseNodes_round (head_of_read hread) (by decide) (by omega) hlimit ?_
    have hstop : wrapInt (((i + 1 : ℕ) : ℤ) + P.labelLength) = ((i + 1 + l.length : ℕ) : ℤ) := by
      rw [← hl]
      exact wrapInt_add (by omega)
    rw [parseNode, if_pos rfl, wrapInt_succ (by omega), hstop, slice_of_prefix hlabel,
      List.length_cons, Nat.add_comm l.length 1, ← add_assoc]
    rfl
  | leaf tag k v n =>
    have hpacked : (pack P (.leaf tag k v n) ([], previous.isSome)).1
        = packLeaf P previous.isSome k v n := rfl
    rw [hpacked] at hread ⊢
    have hend := length_of_prefix hread (by simp [packLeaf])
    refine ⟨s.heap.length, _, ?_, yields_leaf _ _ tag k v n⟩
    have hbyte : proof[i]? = some BatchAVLProver.leafInPackagedProof := by
      rw [packLeaf, List.append_assoc, List.append_assoc, List.append_assoc] at hread
      exact head_of_read hread
    have hpos : 0 < (packLeaf P previous.isSome k v n).length := by
      rw [List.length_pos_iff]
      simp [packLeaf]
    exact parseNodes_round hbyte (by decide) (by omega) hlimit
      (parseNode_packLeaf hpack hjoined hlen hread _ _ _)
  | node tag k l r b ihl ihr =>
    obtain ⟨hpl, hpr, hb⟩ := hpack
    rw [pack_node, isSome_nextAfter] at hread ⊢
    rw [List.append_assoc] at hread
    obtain ⟨hl, hread⟩ := prefix_drop_append.1 hread
    obtain ⟨hr, hbal⟩ := prefix_drop_append.1 hread
    set ll := (pack P l ([], previous.isSome)).1.length with hll
    set lr := (pack P r ([], (nextAfter l previous).isSome)).1.length with hlr
    have hcl : nodeCount l ≤ ll := nodeCount_le P l _
    have hcr : nodeCount r ≤ lr := nodeCount_le P r _
    have hend := length_of_prefix hbal (List.cons_ne_nil _ _)
    rw [List.length_singleton] at hend
    rw [nodeCount] at hlimit
    have hnumr : num + nodeCount l ≤ i + ll := by omega
    obtain ⟨lx, h₁, hrun₁, hstep₁, Ml, hrepl, hMl⟩ :=
      ihl hpl hjoined.1 hnum (fun most hmost => (hlimit most hmost).trans' (by push_cast; omega)) hl
        (fuel + 1 + nodeCount r) stack s
    obtain ⟨rx, h₂, hrun₂, hstep₂, Mr, hrepr, hMr⟩ :=
      ihr hpr hjoined.2 hnumr
        (fun most hmost => (hlimit most hmost).trans' (by push_cast; omega)) hr (fuel + 1)
        (lx :: stack) { s with heap := h₁ }
    have hl₂ := hrepl.step hstep₂ fun _ _ => Set.notMem_empty _
    have hapart : ∀ y ∈ Ml, y ∉ Mr := by
      intro y hy hyr
      have hlt := hrepl.footprint_lt hy
      rcases hMr y hyr with hmem | hle
      · exact Set.notMem_empty _ hmem
      · exact absurd hlt (not_lt.2 hle)
    have hmark : b.toUInt8 ≠ BatchAVLProver.endOfTreeInPackagedProof
        ∧ b.toUInt8 ≠ BatchAVLProver.labelInPackagedProof
        ∧ b.toUInt8 ≠ BatchAVLProver.leafInPackagedProof := by
      rcases hb with rfl | rfl | rfl <;> decide
    have hnode : parseNode P proof ⟨((num + nodeCount l + nodeCount r + 1 : ℕ) : ℤ),
        rx :: lx :: stack, ((i + ll + lr : ℕ) : ℤ), nextAfter r (nextAfter l previous)⟩
        b.toUInt8 { s with heap := h₂ } = _ :=
      parseNode_internal hmark.2.1 hmark.2.2 { s with heap := h₂ }
    simp only at hnode
    rw [wrapInt_succ (by omega), Int8.toInt8_toUInt8] at hnode
    have hsteps : Step .verifier s.heap h₂ ∅ ([] ++ []) :=
      hstep₁.trans hstep₂ (fun _ hy => hy) fun _ hy => .inl hy
    refine ⟨h₂.length, _, ?_,
      Yields.after hsteps (yields_node hl₂ hrepr hapart tag k b) (fun _ hy => hy) ?_⟩
    · have hfuel : fuel + nodeCount (.node tag k l r b : Tree)
          = fuel + 1 + nodeCount r + nodeCount l := by
        rw [nodeCount]
        omega
      rw [hfuel, hrun₁, hrun₂, parseNodes_round (head_of_read hbal) hmark.1 (by omega)
        (fun most hmost => (hlimit most hmost).trans' (by push_cast; omega)) hnode]
      simp only [List.length_append, List.length_singleton, nodeCount, nextAfter, ← add_assoc,
        ← hll, ← hlr]
    · rintro y (hy | hy)
      · exact hMl y hy
      · exact .inr (((hMr y hy).resolve_left (Set.notMem_empty y)).trans' hstep₁.length_le)

end

/-! ## The new verifier -/

/-- A tree has the label of what is left of it when it is cut. -/
theorem treeLabel_of_pruned {hf : CryptographicHash} {hid : Tree → Prop} {s t : Tree}
    (h : Pruned (treeLabel hf) hid s t) : treeLabel hf s = treeLabel hf t := by
  induction h with
  | cut _ => rfl
  | leaf tag k v n => rfl
  | node tag k b _ _ ihl ihr => rw [treeLabel, treeLabel, ihl, ihr]

section

variable {P : TreeParams} {t : Tree} {directions : List UInt8} {height : UInt8}
  {maxNumOperations maxDeletes : Option ℤ}

theorem Packable.length_label (h : Packable P t) : (treeLabel P.hf t).length = P.labelLength := by
  cases t with
  | stub l => exact h
  | leaf tag k v n => exact P.hf.length_hash _
  | node tag k l r b => exact P.hf.length_hash _

/-- The loop ends at the mark behind the tree. -/
theorem parseNodes_end {proof : List UInt8} {limit : Option ℤ} {i fuel : ℕ}
    (h : proof[i]? = some BatchAVLProver.endOfTreeInPackagedProof) (num : ℤ) (stack : List Ref)
    (previous : Option ADKey) (s : TreeState VerifierNav) :
    parseNodes P proof limit (fuel + 1) ⟨num, stack, i, previous⟩ s
      = .ok ⟨num, stack, i, previous⟩ s := by
  have hbyte : proofByte proof (i : ℤ) s = .ok BatchAVLProver.endOfTreeInPackagedProof s := by
    rw [proofByte, if_neg (by omega), Int.toNat_natCast, h]
    rfl
  rw [parseNodes, bind_ok hbyte, if_pos rfl]
  rfl

/-- **The verifier reads the tree of a proof.**  The directions start behind the tree. -/
theorem new_spec (hkey : 0 < P.keyLength) (hpack : Packable P t) (hjoined : Joined t none)
    {proof : List UInt8} (hproof : proof = (pack P t ([], false)).1
      ++ [BatchAVLProver.endOfTreeInPackagedProof] ++ directions)
    (hlen : proof.length < 2 ^ 31) (hn : ∀ n ∈ maxNumOperations, n ≤ 2 ^ 30)
    (hlimit : ∀ most ∈ limitFor (treeLabel P.hf t ++ [height]) maxNumOperations maxDeletes,
      (nodeCount t : ℤ) ≤ most) {fuel : ℕ} (hfuel : nodeCount t < fuel) :
    ∃ root M heap, BatchAVLVerifier.new P proof (treeLabel P.hf t ++ [height]) maxNumOperations
        maxDeletes fuel
      = ⟨⟨heap, (height.toNat : ℤ), [], [], none,
          ⟨wrapInt (8 * ((pack P t ([], false)).1.length + 1 : ℕ)), 0, 0⟩⟩, some root⟩
      ∧ Represents .verifier P.hf heap t root M := by
  obtain ⟨fuel, rfl⟩ : ∃ f, fuel = f + 1 + nodeCount t := ⟨fuel - 1 - nodeCount t, by omega⟩
  set digest := treeLabel P.hf t ++ [height] with hdigest
  set len := (pack P t ([], false)).1.length with hlendef
  have hdlen : digest.length = P.labelLength + 1 := by
    rw [hdigest, List.length_append, hpack.length_label, List.length_singleton]
  have hlast : digest.getLastD 0 = height := by simp [hdigest]
  have hread : (pack P t ([], (none : Option ADKey).isSome)).1 <+: proof.drop 0 := by
    rw [hproof, List.append_assoc]
    exact List.prefix_append _ _
  have hmark : proof[0 + len]? = some BatchAVLProver.endOfTreeInPackagedProof := by
    rw [hproof, Nat.zero_add, List.append_assoc, List.getElem?_append_right (le_refl _),
      Nat.sub_self]
    rfl
  have hwithin : len + 1 < 2 ^ 31 := by
    rw [hproof, List.length_append, List.length_append, List.length_singleton] at hlen
    omega
  set start : TreeState VerifierNav := { emptyState with rootNodeHeight := (height.toNat : ℤ) }
    with hstart
  obtain ⟨root, heap, hrun, hstep, M, hrep, hM⟩ := parseNodes_pack hpack hjoined hlen
    (le_refl (0 : ℕ)) (fun most hmost => by simpa using hlimit most hmost) hread (fuel + 1) [] start
  rw [Option.isSome_none, ← hlendef, parseNodes_end hmark] at hrun
  obtain ⟨heap', hlabel, hcached⟩ := label_spec (s := { start with heap := heap }) hrep
    (Nat.lt_succ_of_lt hrep.height_lt)
  refine ⟨root, M, heap', ?_, hcached.kept hrep⟩
  have hrun' : reconstructedTree P digest proof maxNumOperations maxDeletes
      (fuel + 1 + nodeCount t) emptyState = .ok root ⟨heap', (height.toNat : ℤ), [], [], none,
        ⟨wrapInt (8 * (len + 1 : ℕ)), 0, 0⟩⟩ := by
    have hroot : wrapInt (((0 + len : ℕ) : ℤ) + 1) = ((len + 1 : ℕ) : ℤ) := by
      rw [Nat.zero_add]
      exact wrapInt_succ hwithin
    change parseNodes P proof (limitFor digest maxNumOperations maxDeletes)
      (fuel + 1 + nodeCount t) emptyParse start = _ at hrun
    refine (reconstructedTree_eq hdlen hkey hn _).trans ?_
    rw [hlast]
    refine (bind_ok hrun).trans ?_
    rw [takeRoot]
    simp only
    rw [bind_ok (get_ok _), bind_ok hlabel, if_pos (List.prefix_append _ _), hroot, mul_comm]
    rfl
  rw [emptyState] at hrun'
  rw [BatchAVLVerifier.new, hrun']

end

end Sparkz.Avl
