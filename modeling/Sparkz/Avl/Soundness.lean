import Sparkz.Avl.Messages
import Sparkz.Avl.ProofReconstruction
import Sparkz.Avl.ProverMap
import Sparkz.Avl.VerifierRun

/-!
# The verifier accepts nothing else

* `pruned_of_label` — without collisions, a tree that was read and has the label of the
  prover's tree is that tree, cut somewhere.
* `reads_of_descend` — where the verifier comes to a leaf, it has read the way there from the
  proof.
* `BatchAVLVerifier.Stands` — the verifier has a part of the tree; `Stands.performed` — an
  operation that succeeds is the operation on the tree.
* `mapRun`, `sound` — all operations that succeed are those of the map, and the digest is that
  of a prover that performs them; `not_sound` — a tree that only passes its check is not enough.
-/

namespace Sparkz.Avl

open Sparkz.Lib Sparkz.Lib.LeafTree

/-! ## What the label of a tree determines -/

section

variable {P : TreeParams} {s t : Tree} {lo hi : ADKey} {previous : Option ADKey}

/-- A leaf that was read, with the message of a leaf whose keys have their length. -/
theorem LeafRead.eq {k k' n n' : ADKey} {v v' : ADValue} (hread : LeafRead P k v n previous)
    (hprevious : ∀ next ∈ previous, next.length = P.keyLength) (hk : k'.length = P.keyLength)
    (hn : n'.length = P.keyLength) (h : leafMessage k v n = leafMessage k' v' n') :
    k = k' ∧ v = v' ∧ n = n' := by
  have htotal : k.length + v.length + n.length = k'.length + v'.length + n'.length := by
    have hlen := congrArg List.length h
    simp only [leafMessage, List.length_cons, List.length_append] at hlen
    rw [ADKey.length, ADKey.length, ADKey.length, ADKey.length, ADValue.length, ADValue.length]
    omega
  cases previous with
  | none =>
    rcases hread with ⟨hk', hn'⟩ | hshort
    · exact leafMessage_inj h (hk'.trans hk.symm) (hn'.trans hn.symm)
    · omega
  | some next =>
    obtain ⟨rfl, hn' | hshort⟩ := hread
    · exact leafMessage_inj h ((hprevious k rfl).trans hk.symm) (hn'.trans hn.symm)
    · have := hprevious k rfl
      omega

/-- **What has the label of a tree is the tree**, cut somewhere, if nothing collides.  A verifier
does not mind the tags of its nodes and the keys of its inner nodes. -/
theorem pruned_of_label (hscan : Scanned P s previous)
    (hprevious : ∀ next ∈ previous, next.length = P.keyLength) (hchain : Chain lo hi t)
    (hkeys : KeyLength P.keyLength t hi)
    (hfree : P.hf.CollisionFree (treeMessages P.hf t ++ treeMessages P.hf s))
    (hlabel : treeLabel P.hf s = treeLabel P.hf t) :
    ∃ s', Pruned (treeLabel P.hf) (fun _ => True) s' t
      ∧ (∀ heap x M, Represents .verifier P.hf heap s x M → Represents .verifier P.hf heap s' x M)
      ∧ ∀ next ∈ nextAfter s previous, next.length = P.keyLength := by
  induction s generalizing t lo hi previous with
  | stub l =>
    obtain rfl : l = treeLabel P.hf t := hlabel
    exact ⟨_, .cut trivial, fun _ _ _ h => h, fun next hnext => by cases hnext⟩
  | leaf tag k v n =>
    cases t with
    | stub l' => exact hchain.elim
    | leaf tag' k' v' n' =>
      have hmessage := hfree _ (List.mem_append_right _ (List.mem_singleton_self _)) _
        (List.mem_append_left _ (List.mem_singleton_self _)) hlabel
      obtain ⟨rfl, rfl, -⟩ := hchain
      have hk := hkeys.entries _ (List.mem_singleton_self _)
      obtain ⟨rfl, rfl, rfl⟩ := hscan.eq hprevious hk hkeys.last hmessage
      refine ⟨_, .leaf tag' k v n, ?_, fun next hnext => ?_⟩
      · rintro heap x M ⟨isNew, hx, htag, hM⟩
        exact ⟨isNew, hx, htag, hM⟩
      · cases hnext
        exact hkeys.last
    | node tag' k' l' r' b' =>
      have hmessage := hfree _ (List.mem_append_right _ (List.mem_singleton_self _)) _
        (List.mem_append_left _ List.mem_cons_self) hlabel
      cases hmessage
  | node tag k l r b ihl ihr =>
    cases t with
    | stub l' => exact hchain.elim
    | leaf tag' k' v' n' =>
      have hmessage := hfree _ (List.mem_append_right _ List.mem_cons_self) _
        (List.mem_append_left _ (List.mem_singleton_self _)) hlabel
      cases hmessage
    | node tag' k' l' r' b' =>
      have hmessage := hfree _ (List.mem_append_right _ List.mem_cons_self) _
        (List.mem_append_left _ List.mem_cons_self) hlabel
      obtain ⟨rfl, hl, hr⟩ := internalMessage_inj hmessage
        (.inl (hscan.1.length_label.trans (length_treeLabel P.hf hchain.1).symm))
      have hfreel : P.hf.CollisionFree (treeMessages P.hf l' ++ treeMessages P.hf l) := by
        refine hfree.mono fun m hm => ?_
        simp only [treeMessages, List.mem_append, List.mem_cons] at hm ⊢
        tauto
      have hfreer : P.hf.CollisionFree (treeMessages P.hf r' ++ treeMessages P.hf r) := by
        refine hfree.mono fun m hm => ?_
        simp only [treeMessages, List.mem_append, List.mem_cons] at hm ⊢
        tauto
      obtain ⟨sl, hpl, hrepl, hnextl⟩ :=
        ihl hscan.1 hprevious hchain.1 (hkeys.left hchain.2) hfreel hl
      obtain ⟨sr, hpr, hrepr, hnextr⟩ := ihr hscan.2 hnextl hchain.2 hkeys.right hfreer hr
      refine ⟨_, .node tag' k' b hpl hpr, ?_, hnextr⟩
      rintro heap x M ⟨isNew, lx, rx, Ml, Mr, hx, htag, hreprl, hreprr, hrest⟩
      have hx' : Holds heap x (nodeContent .verifier isNew k' lx rx b)
          (treeLabel P.hf (.node tag' k' sl sr b)) := by
        rw [treeLabel, treeLabel_of_pruned hpl, treeLabel_of_pruned hpr, ← hl, ← hr]
        exact hx
      exact ⟨isNew, lx, rx, Ml, Mr, hx', htag, hrepl _ _ _ hreprl, hrepr _ _ _ hreprr, hrest⟩

end

/-! ## The way that was read -/

section

variable {P : TreeParams} {proof : List UInt8} {operation : Operation} {t : Tree} {i : ℕ}
  {path : List Bool} {nav nav' : VerifierNav}

/-- Every `Int` is what is left of a number of 32 bits. -/
theorem exists_wrapInt (x : ℤ) : ∃ i < 2 ^ 32, wrapInt x = wrapInt (i : ℕ) := by
  refine ⟨(x % 2 ^ 32).toNat, by omega, ?_⟩
  rw [Int.toNat_of_nonneg (Int.emod_nonneg x (by norm_num))]
  exact (Int.emod_bmod x (2 ^ 32)).symm

/-- A step of the verifier that does not throw has read a bit of the proof. -/
theorem bit_of_nextDirectionIsLeft (hi : i < 2 ^ 32) (hnav : nav.directionsIndex = wrapInt i)
    (key : ADKey) (nodeKey : Option ADKey) {d : Bool}
    (hrun : verifierNextDirectionIsLeft proof key nodeKey nav = .ok d nav') :
    i < 2 ^ 31 ∧ i < 8 * proof.length ∧ bitAt proof i = d
      ∧ nav'.directionsIndex = wrapInt ((i + 1 : ℕ) : ℤ) := by
  have hwrap := wrapInt_cases (x := i) (by omega) (by omega)
  by_cases hin : 0 ≤ wrapInt i ∧ wrapInt i < 8 * proof.length
  · have h₁ : i < 2 ^ 31 := by omega
    have h₂ : i < 8 * proof.length := by omega
    obtain ⟨nav₁, hstep, hindex, _⟩ := verifierNextDirectionIsLeft_ok h₁ h₂ hnav key nodeKey
    rw [hstep] at hrun
    cases hrun
    exact ⟨h₁, h₂, rfl, hindex⟩
  · have hbit : proofBit proof nav.directionsIndex nav = .error .indexOutOfBounds nav := by
      rw [proofBit_eq, hnav, if_neg hin]
    change EStateM.bind (proofBit proof nav.directionsIndex) _ nav = _ at hrun
    rw [EStateM.bind, hbit] at hrun
    cases hrun

/-- **Where the verifier comes to a leaf**, it has read the way there. -/
theorem reads_of_descend (hi : i < 2 ^ 32) (hnav : nav.directionsIndex = wrapInt i)
    {act : Option (Action ADKey ADValue)} {old : Option ADValue}
    (hway : descend P (verifierNavigation proof) operation t nav = .ok (path, act, old) nav') :
    Reads proof i path ∧ i + path.length < 2 ^ 32 := by
  induction t generalizing path nav i with
  | stub l => cases hway
  | leaf tag k v n =>
    obtain ⟨_, _, _, _, _, hleaf, _⟩ := descend_leafAt hway
    cases path with
    | nil => exact ⟨trivial, hi⟩
    | cons d path => cases hleaf
  | node tag k l r b ihl ihr =>
    rw [descend_node] at hway
    cases hdir : (verifierNavigation proof).nextDirectionIsLeft operation.key
        (nodeKey (verifierNavigation proof).mode k) nav with
    | error e nav₁ =>
      rw [hdir] at hway
      cases hway
    | ok d nav₁ =>
      obtain ⟨h₁, h₂, hbit, hindex⟩ := bit_of_nextDirectionIsLeft hi hnav operation.key none hdir
      rw [hdir] at hway
      simp only at hway
      cases hrest : descend P (verifierNavigation proof) operation (if d then l else r) nav₁ with
      | error e nav₂ =>
        rw [hrest] at hway
        cases hway
      | ok way nav₂ =>
        obtain ⟨path', act', old'⟩ := way
        rw [hrest] at hway
        cases hway
        have hreads : Reads proof (i + 1) path' ∧ i + 1 + path'.length < 2 ^ 32 := by
          cases d with
          | true => exact ihl (by omega) hindex hrest
          | false => exact ihr (by omega) hindex hrest
        have hlen : i + (d :: path').length < 2 ^ 32 := by
          rw [List.length_cons]
          omega
        exact ⟨⟨h₁, h₂, hbit, hreads.1⟩, hlen⟩

/-- The last bit of a way that was read can be counted. -/
theorem Reads.count (h : Reads proof i path) (hne : path ≠ []) : i + path.length ≤ 2 ^ 31 := by
  induction path generalizing i with
  | nil => exact absurd rfl hne
  | cons d path ih =>
    rw [List.length_cons]
    by_cases hnil : path = []
    · rw [hnil, List.length_nil]
      exact h.1
    · have := ih h.2.2.2 hnil
      omega

/-- What the verifier accepts at a leaf. -/
theorem key_of_matches {key k n : ADKey} {found : Bool}
    (h : verifierKeyMatchesLeaf key k n nav = .ok found nav') :
    found = decide (k = key) ∧ k ≤ key ∧ (k = key ∨ k < key ∧ key < n) := by
  unfold verifierKeyMatchesLeaf at h
  cases hcmp : compare key k with
  | lt =>
    simp only [hcmp] at h
    cases h
  | eq =>
    simp only [hcmp] at h
    cases h
    obtain rfl := compare_eq_iff_eq.1 hcmp
    exact ⟨(decide_eq_true rfl).symm, le_rfl, .inl rfl⟩
  | gt =>
    have hlt := compare_gt_iff_gt.1 hcmp
    simp only [hcmp] at h
    split at h
    · rename_i hnext
      cases h
      exact ⟨(decide_eq_false hlt.ne).symm, hlt.le, .inr ⟨hlt, hnext⟩⟩
    · cases h

end

/-! ## The verifier -/

namespace BatchAVLVerifier

/-- **The verifier stands for a tree**: it has this tree, cut somewhere, and it has read `n`
bits. -/
structure Stands (P : TreeParams) (v : BatchAVLVerifier) (t : Tree) (n : ℕ) : Prop where
  root : ∃ x s M, v.topNode = some x ∧ Represents .verifier P.hf v.tree.heap s x M
    ∧ Pruned (treeLabel P.hf) (fun _ => True) s t
  height : v.tree.rootNodeHeight = t.height
  index : ∃ i < 2 ^ 32, n ≤ i ∧ v.tree.nav.directionsIndex = wrapInt (i : ℕ)

section

variable {P : TreeParams} {v v' : BatchAVLVerifier} {t : Tree} {proof : List UInt8}
  {operation : Operation} {old : Option ADValue} {n : ℕ}

/-- Only operations on keys in range succeed. -/
theorem inRange_of_performed (hrun : v.performOneOperation P proof operation = (.ok old, v')) :
    P.InRange operation.key := by
  by_contra hkey
  obtain ⟨e, _, hthrow⟩ := returnResult_outOfRange (verifierNavigation proof) hkey
  rw [performOneOperation] at hrun
  split at hrun
  · cases hrun
  · rw [hthrow] at hrun
    cases hrun

/-- **An operation that succeeds** is the operation on the tree, and the bits that it reads can be
counted. -/
theorem Stands.performed (h : v.Stands P t n)
    (hchain : Chain P.negativeInfinityKey P.positiveInfinityKey t) (hbal : t.Balanced)
    (hrun : v.performOneOperation P proof operation = (.ok old, v')) :
    old = t.get operation.key ∧ ∃ act t' dh visits,
      leafAction P operation (t.get operation.key) = .ok act
      ∧ operate t (searchPath operation.key false t) act = some (t', dh, visits)
      ∧ Operated P.negativeInfinityKey P.positiveInfinityKey operation.key t t'
          (newValue (t.get operation.key) act)
      ∧ (searchPath operation.key false t ≠ [] →
        n + (searchPath operation.key false t).length ≤ 2 ^ 31)
      ∧ v'.Stands P t' (n + (searchPath operation.key false t).length) := by
  have hkey := inRange_of_performed hrun
  obtain ⟨x, s, M, htop, hrep, hp⟩ := h.root
  obtain ⟨i, hi, hni, hindex⟩ := h.index
  rw [performOneOperation, htop] at hrun
  set start := { v.tree with nav :=
    { v.tree.nav with replayIndex := v.tree.nav.directionsIndex } } with hstart
  simp only at hrun
  rw [returnResult_inRange hkey] at hrun
  have hrep' : Represents (verifierNavigation proof).mode P.hf start.heap s x M := hrep
  have hindex' : start.nav.directionsIndex = wrapInt (i : ℤ) := hindex
  cases hway : descend P (verifierNavigation proof) operation s start.nav with
  | error e nav' =>
    rw [performOperation_error hrep' hway] at hrun
    cases hrun
  | ok way nav' =>
    obtain ⟨path, act, old'⟩ := way
    -- the leaf where the verifier comes to is the one where the search for the key ends
    obtain ⟨k, value, n, n₁, found, hleaf, hmatch, hold, hact⟩ := descend_leafAt hway
    obtain ⟨hfound, hle, hbetween⟩ := key_of_matches hmatch
    have hleaf' := leafAt_of_pruned hp hleaf
    have hnext : operation.key < n := by
      rcases hbetween with rfl | hbetween
      · exact (hchain.of_leafAt hleaf').2.1
      · exact hbetween.2
    obtain ⟨rfl, hmeets⟩ := path_eq_search hchain hkey.1 hleaf' hle hnext
    have hget : t.get operation.key = if k = operation.key then some value else none := by
      rw [get_of_search hchain hkey.1 hkey.2.1 hleaf']
      exact if_congr hmeets rfl rfl
    have hold' : old' = t.get operation.key := by
      rw [hold, hfound, hget]
      exact if_congr (decide_eq_true_iff) rfl rfl
    rw [hold'] at hact
    obtain ⟨t', dh, visits, hop, hheight, hdone⟩ :=
      operate_spec hchain hbal hkey.1 hkey.2.1 hact
    -- the way was read from the proof, and is read again for a deletion
    obtain ⟨hreads, hlen⟩ := reads_of_descend hi hindex' hway
    rw [hget] at hact
    rw [descend_verifier hleaf hreads hbetween hindex' hact] at hway
    cases hway
    have hreplays : act = none → Replays (verifierNavigation proof)
        ⟨wrapInt ((i + (searchPath operation.key false t).length : ℕ) : ℤ),
          lastRight (searchPath operation.key false t) i start.nav.lastRightStep,
          start.nav.replayIndex⟩ (replayOf (searchPath operation.key false t)) := by
      rintro rfl
      exact replays_verifier hreads hindex
        (.inr ⟨false_mem_searchPath (hmeets.2 (eq_of_removed hact)), _, rfl⟩)
    have hdescend := descend_verifier hleaf hreads hbetween hindex' hact
    have hsim := performOperation_spec hrep' hdescend hreplays
    cases hperformed : performOperation P (verifierNavigation proof) operation x start with
    | error e s₁ =>
      rw [hperformed] at hrun
      cases hrun
    | ok res s₁ =>
      obtain ⟨x', old₁⟩ := res
      rw [hperformed] at hrun
      cases hrun
      obtain ⟨⟨s', dh', visits'⟩, hop', rfl, hnav, hroot, hyields⟩ := hsim.of_ok hperformed
      obtain ⟨t₁, hop₁, hp'⟩ := operate_pruned hp hop'
      rw [hop] at hop₁
      cases hop₁
      obtain ⟨M', hrep₁, _⟩ := hyields.2
      refine ⟨hget.symm, act, t', dh, visits, hget ▸ hact, hop, hget ▸ hdone, fun hne => ?_,
        ⟨x', s', M', rfl, hrep₁, hp'⟩, ?_, _, hlen, Nat.add_le_add_right hni _, ?_⟩
      · exact (Nat.add_le_add_right hni _).trans (hreads.count hne)
      · exact (hroot.trans (congrArg (· + dh) h.height)).trans hheight.symm
      · rw [replays_verifier_kept hnav]

/-- The digest of the verifier is that of the tree. -/
theorem Stands.digest (h : v.Stands P t n) : (v.digest P).1 = (treeDigest P t).map some := by
  obtain ⟨x, s, M, htop, hrep, hp⟩ := h.root
  obtain ⟨heap, hrun, _⟩ := digest_of_pruned htop hrep hp h.height
  rw [hrun]

/-- Operations one after another: what they return, if all of them succeed. -/
def performAll (P : TreeParams) (proof : List UInt8) :
    List Operation → BatchAVLVerifier → Option (List (Option ADValue) × BatchAVLVerifier)
  | [], v => some ([], v)
  | operation :: operations, v =>
      match v.performOneOperation P proof operation with
      | (.error _, _) => none
      | (.ok old, v') => (performAll P proof operations v').map fun res => (old :: res.1, res.2)

end

end BatchAVLVerifier

/-! ## Runs -/

/-- Operations on a finite map: the values that their keys had, and the map after them. -/
def mapRun (P : TreeParams) : List Operation → SortedMap ADKey ADValue →
    Option (List (Option ADValue) × SortedMap ADKey ADValue)
  | [], m => some ([], m)
  | operation :: operations, m =>
      (mapStep P m operation).bind fun m' => (mapRun P operations m').map fun res =>
        (m.get operation.key :: res.1, res.2)

section

variable {P : TreeParams} {v v' : BatchAVLVerifier} {p : BatchAVLProver} {t t' : Tree}
  {proof : List UInt8} {operation : Operation} {m : SortedMap ADKey ADValue}
  {olds : List (Option ADValue)}

theorem get_of_entries_eq (hm : m.entries = t.entries) (key : ADKey) : m.get key = t.get key := by
  rw [LeafTree.get, ← hm]
  rfl

/-- An operation on a tree is one on the map of its leaves. -/
theorem mapStep_of_operated (hm : m.entries = t.entries) (hkey : P.InRange operation.key)
    {act : Option (Action ADKey ADValue)}
    (hact : leafAction P operation (t.get operation.key) = .ok act)
    (hop : Operated P.negativeInfinityKey P.positiveInfinityKey operation.key t t'
      (newValue (t.get operation.key) act)) :
    ∃ m', mapStep P m operation = some m' ∧ m'.entries = t'.entries := by
  rw [← get_of_entries_eq hm] at hact
  obtain ⟨m', hstep, hself, hother⟩ := mapStep_of_leafAction hkey hact
  refine ⟨m', hstep, ?_⟩
  obtain ⟨m₁, hm₁⟩ : ∃ m₁ : SortedMap ADKey ADValue, m₁.entries = t'.entries :=
    ⟨⟨t'.entries, hop.chain.sorted⟩, rfl⟩
  have hmap : m' = m₁ := by
    refine SortedMap.ext_get fun key => ?_
    rw [get_of_entries_eq hm₁]
    by_cases heq : key = operation.key
    · rw [heq, hself, hop.get_self, get_of_entries_eq hm]
    · rw [hother key heq, hop.get_other key heq, get_of_entries_eq hm]
  rw [hmap, hm₁]

/-- **All operations that succeed** are those of the map, and the prover performs them too, if it
has recorded no more bits than the verifier has read. -/
theorem BatchAVLVerifier.Stands.performedAll {operations : List Operation} {bits : List Bool}
    (hlt : P.negativeInfinityKey < P.positiveInfinityKey) (h : v.Stands P t bits.length)
    (hp : p.Stands P t) (hrec : p.tree.nav.Records bits) (hm : m.entries = t.entries)
    (hrun : v.performAll P proof operations = some (olds, v')) :
    ∃ m' p' t' n, mapRun P operations m = some (olds, m')
      ∧ p.performAll P operations = (.ok (), p') ∧ v'.Stands P t' n ∧ p'.Stands P t' := by
  induction operations generalizing v p t m olds bits with
  | nil =>
    cases hrun
    exact ⟨m, p, t, _, rfl, rfl, h, hp⟩
  | cons operation operations ih =>
    rw [performAll] at hrun
    split at hrun
    · cases hrun
    · rename_i old v₁ hperformed
      obtain ⟨⟨olds', v₂⟩, hrest, heq⟩ := Option.map_eq_some_iff.1 hrun
      cases heq
      have hkey := inRange_of_performed hperformed
      obtain ⟨rfl, act, t₁, dh, visits, hact, hop, hdone, hcount, h₁⟩ :=
        h.performed (hp.chain hlt) hp.balanced hperformed
      -- a way without steps needs no room
      have hfits : bits.length + (searchPath operation.key false t).length ≤ 2 ^ 31 := by
        by_cases hnil : searchPath operation.key false t = []
        · rw [hnil]
          exact hrec.count
        · exact hcount hnil
      obtain ⟨p₁, hprover, hp₁⟩ :=
        BatchAVLProver.performOneOperation_performed hp hrec hfits hkey hact hop
      obtain ⟨m₁, hstep, hm₁⟩ := mapStep_of_operated hm hkey hact hdone
      rw [← List.length_append] at h₁
      obtain ⟨m', p', t', n, hmap, hall, h', hp'⟩ := ih h₁ hp₁.stands hp₁.records hm₁ hrest
      refine ⟨m', p', t', n, ?_, ?_, h', hp'⟩
      · rw [mapRun, hstep, Option.bind_some, hmap, get_of_entries_eq hm]
        rfl
      · rw [BatchAVLProver.performAll, hprover]
        exact hall

end

/-! ## What is hashed -/

/-- The tree below a node, without tags. -/
def treeAt (heap : Heap) : ℕ → Ref → Option Tree
  | 0, _ => none
  | fuel + 1, x =>
      match (heap[x]?).map Node.content with
      | none => none
      | some (.labelOnlyNode l) => some (.stub l)
      | some (.proverLeaf _ k v n) => some (.leaf none k v n)
      | some (.verifierLeaf k v n) => some (.leaf none k v n)
      | some (.internalProverNode _ k l r b) =>
          (treeAt heap fuel l).bind fun l => (treeAt heap fuel r).map fun r => .node none k l r b
      | some (.internalVerifierNode l r b) =>
          (treeAt heap fuel l).bind fun l => (treeAt heap fuel r).map fun r => .node none ⟨[]⟩ l r b

/-- The byte strings that are hashed for the labels below a node. -/
def hashedBelow (hf : CryptographicHash) (heap : Heap) (x : Ref) : List (List UInt8) :=
  ((treeAt heap (heap.length + 1) x).map (treeMessages hf)).getD []

/-- What the prover hashes for its tree. -/
def BatchAVLProver.hashed (P : TreeParams) (p : BatchAVLProver) : List (List UInt8) :=
  hashedBelow P.hf p.tree.heap p.topNode

/-- What the verifier hashes for its tree. -/
def BatchAVLVerifier.hashed (P : TreeParams) (v : BatchAVLVerifier) : List (List UInt8) :=
  (v.topNode.map (hashedBelow P.hf v.tree.heap)).getD []

section

variable {mode : Mode} {hf : CryptographicHash} {heap : Heap} {t : Tree} {x : Ref} {M : Set Ref}

theorem treeAt_spec (hr : Represents mode hf heap t x M) {fuel : ℕ} (hfuel : t.height < fuel) :
    ∃ t', treeAt heap fuel x = some t' ∧ treeMessages hf t' = treeMessages hf t
      ∧ treeLabel hf t' = treeLabel hf t := by
  induction t generalizing x M fuel with
  | stub l =>
    obtain ⟨fuel, rfl⟩ := Nat.exists_eq_succ_of_ne_zero (Nat.ne_of_gt (Nat.zero_lt_of_lt hfuel))
    obtain ⟨_, ⟨o, ho, hc, _⟩, _⟩ := hr
    exact ⟨.stub l, by rw [treeAt, ho, Option.map_some, hc], rfl, rfl⟩
  | leaf tag k v n =>
    obtain ⟨fuel, rfl⟩ := Nat.exists_eq_succ_of_ne_zero (Nat.ne_of_gt (Nat.zero_lt_of_lt hfuel))
    obtain ⟨isNew, ⟨o, ho, hc, _⟩, _⟩ := hr
    refine ⟨.leaf none k v n, ?_, rfl, rfl⟩
    rw [treeAt, ho, Option.map_some, hc]
    cases mode with
    | prover => rfl
    | verifier => rfl
  | node tag k l r b ihl ihr =>
    obtain ⟨fuel, rfl⟩ := Nat.exists_eq_succ_of_ne_zero (Nat.ne_of_gt (Nat.zero_lt_of_lt hfuel))
    obtain ⟨isNew, lx, rx, Ml, Mr, ⟨o, ho, hc, _⟩, _, hl, hr, _⟩ := hr
    rw [height_node] at hfuel
    obtain ⟨l', hlt, hlm, hll⟩ := ihl hl (show l.height < fuel by omega)
    obtain ⟨r', hrt, hrm, hrl⟩ := ihr hr (show r.height < fuel by omega)
    have hread : ∃ k', treeAt heap (fuel + 1) x = some (.node none k' l' r' b) := by
      rw [treeAt, ho, Option.map_some, hc]
      cases mode with
      | prover =>
        refine ⟨k, ?_⟩
        simp only [nodeContent, hlt, hrt, Option.bind_some, Option.map_some]
      | verifier =>
        refine ⟨⟨[]⟩, ?_⟩
        simp only [nodeContent, hlt, hrt, Option.bind_some, Option.map_some]
    obtain ⟨k', hread⟩ := hread
    refine ⟨_, hread, ?_, ?_⟩
    · rw [treeMessages, treeMessages, hlm, hrm, hll, hrl]
    · rw [treeLabel, treeLabel, hll, hrl]

theorem hashedBelow_eq (hr : Represents mode hf heap t x M) :
    hashedBelow hf heap x = treeMessages hf t := by
  obtain ⟨t', hread, hmessages, _⟩ := treeAt_spec hr (Nat.lt_succ_of_lt hr.height_lt)
  rw [hashedBelow, hread]
  exact hmessages

end

/-! ## Soundness -/

/-- A verifier without a tree performs nothing. -/
theorem BatchAVLVerifier.performAll_of_none {P : TreeParams} {proof : List UInt8}
    {v v' : BatchAVLVerifier} {operations : List Operation} {olds : List (Option ADValue)}
    (htop : v.topNode = none) (hrun : v.performAll P proof operations = some (olds, v')) :
    operations = [] ∧ olds = [] ∧ v' = v := by
  cases operations with
  | nil =>
    cases hrun
    exact ⟨rfl, rfl, rfl⟩
  | cons operation operations =>
    rw [performAll, performOneOperation, htop] at hrun
    cases hrun

/-- **Soundness.**  Whatever bytes are taken for a proof, operations that the verifier accepts
return the values of the map in the tree, and the digest after them is that of a prover that had
recorded no directions and performs them. -/
theorem sound (P : TreeParams) (hkey : P.keyLength < 2 ^ 31) (hlabel : P.labelLength < 2 ^ 31)
    {p : BatchAVLProver} {t : Tree} (hp : p.Stands P t) (hrec : p.tree.nav.Records [])
    (hkeys : ∀ e ∈ t.entries, e.1.length = P.keyLength) {m : SortedMap ADKey ADValue}
    (hm : m.entries = t.entries) {d : Digest} (hd : (p.digest P).1 = .ok d) (proof : List UInt8)
    (maxNumOperations maxDeletes : Option ℤ) (fuel : ℕ)
    (hfree : P.hf.CollisionFree (p.hashed P
      ++ (BatchAVLVerifier.new P proof d maxNumOperations maxDeletes fuel).hashed P))
    {operations : List Operation} {olds : List (Option ADValue)} {v' : BatchAVLVerifier}
    (hrun : (BatchAVLVerifier.new P proof d maxNumOperations maxDeletes fuel).performAll P proof
      operations = some (olds, v')) :
    ∃ m' p', mapRun P operations m = some (olds, m') ∧ p.performAll P operations = (.ok (), p')
      ∧ (v'.topNode = none ∧ operations = [] ∨ (v'.digest P).1 = (p'.digest P).1.map some) := by
  cases htop : (BatchAVLVerifier.new P proof d maxNumOperations maxDeletes fuel).topNode with
  | none =>
    obtain ⟨rfl, rfl, rfl⟩ := BatchAVLVerifier.performAll_of_none htop hrun
    exact ⟨m, p, rfl, rfl, .inl ⟨htop, rfl⟩⟩
  | some x =>
    rw [(BatchAVLProver.digest_spec hp).1] at hd
    split at hd
    · rename_i hheight
      cases hd
      obtain ⟨Mp, hprover⟩ := hp.represents
      have hbyte : (UInt8.ofNat t.height).toNat = t.height := UInt8.toNat_ofNat_of_lt' hheight
      have hlen : (treeLabel P.hf t).length = P.labelLength := by
        cases t with
        | stub l => exact absurd hprover.1 (by decide)
        | leaf tag k v n => exact P.hf.length_hash _
        | node tag k l r b => exact P.hf.length_hash _
      obtain ⟨hpos, s, M, hrep, hscan, hroot, hrootHeight, i, hindex⟩ :=
        new_reads hkey hlabel hlen htop
      have hlt := (infinities_lt_iff P).2 hpos
      rw [BatchAVLProver.hashed, hashedBelow_eq hprover, BatchAVLVerifier.hashed, htop,
        Option.map_some, Option.getD_some, hashedBelow_eq hrep] at hfree
      obtain ⟨s', hpruned, hrep', _⟩ := pruned_of_label hscan (fun _ hnone => by cases hnone)
        (hp.chain hlt) ⟨hkeys, List.length_replicate⟩ hfree hroot
      obtain ⟨j, hj, hij⟩ := exists_wrapInt i
      have hstands : BatchAVLVerifier.Stands P _ t ([] : List Bool).length :=
        ⟨⟨x, s', M, htop, hrep' _ _ _ hrep, hpruned⟩, hrootHeight.trans (congrArg Nat.cast hbyte),
          j, hj, Nat.zero_le j, hindex.trans hij⟩
      obtain ⟨m', p', t', _, hmap, hall, hv', hp'⟩ := hstands.performedAll hlt hp hrec hm hrun
      refine ⟨m', p', hmap, hall, .inr ?_⟩
      rw [hv'.digest, (BatchAVLProver.digest_spec hp').1]
      rfl
    · cases hd

open BatchAVLProver (oneByteKeys sentinelValue)

/-- The proof for an insertion into an empty tree and a lookup. -/
def smallProof : List UInt8 := [2, 0, 255, 0, 0, 0, 0, 4, 0]

/-- A value is inserted into an empty tree, and looked up. -/
theorem sound_smallProof :
    ∃ v' p', (BatchAVLVerifier.new oneByteKeys smallProof [0, 0, 255, 0, 0] none none 3).performAll
        oneByteKeys smallProof [.insert ⟨[5]⟩ (.ofByte 1), .lookup ⟨[5]⟩]
          = some ([none, some (.ofByte 1)], v')
      ∧ (BatchAVLProver.new oneByteKeys).performAll oneByteKeys
        [.insert ⟨[5]⟩ (.ofByte 1), .lookup ⟨[5]⟩] = (.ok (), p')
      ∧ (v'.digest oneByteKeys).1 = (p'.digest oneByteKeys).1.map some := by
  have holds : ((BatchAVLVerifier.new oneByteKeys smallProof [0, 0, 255, 0, 0] none none
      3).performAll oneByteKeys smallProof [.insert ⟨[5]⟩ (.ofByte 1), .lookup ⟨[5]⟩]).map Prod.fst
        = some [none, some (.ofByte 1)] := by decide +kernel
  obtain ⟨⟨_, v'⟩, hrun, rfl⟩ := Option.map_eq_some_iff.1 holds
  obtain ⟨m', p', hmap, hall, ⟨_, hnil⟩ | hdigest⟩ := sound oneByteKeys (by decide) (by decide)
    (BatchAVLProver.new_stands oneByteKeys) (.nil rfl rfl) (by decide)
    (m := ⟨[(⟨[0]⟩, sentinelValue oneByteKeys)], List.pairwise_singleton _ _⟩) rfl
    (by decide +kernel) _ none none 3 (by decide +kernel) hrun
  · cases hnil
  · exact ⟨v', p', hrun, hall, hdigest⟩

/-! ## Trees that pass the check -/

/-- A leaf of a prover, with no bytes as its value. -/
def emptyLeaf (key next : List UInt8) : Node :=
  ⟨false, none, .proverLeaf false ⟨key⟩ (sentinelValue oneByteKeys) ⟨next⟩⟩

/-- An inner node of a prover. -/
def innerNode (key : List UInt8) (left right : Ref) (b : Balance) : Node :=
  ⟨false, none, .internalProverNode false ⟨key⟩ left right b⟩

/-- A prover whose leaves have the keys 0, 10, 200, 100 and 150. -/
def unordered : BatchAVLProver :=
  .onTree [emptyLeaf [0] [10], emptyLeaf [10] [200], emptyLeaf [200] [100], emptyLeaf [100] [150],
    emptyLeaf [150] [255], innerNode [200] 1 2 0, innerNode [10] 0 5 1, innerNode [150] 3 4 0,
    innerNode [100] 6 7 (-1)] 8 3

/-- It shows the leaf with the key 10, for the key 150. -/
def unorderedProof : List UInt8 :=
  [3, 0, 0, 10, 0, 2, 10, 200, 0, 0, 0, 0, 3, 0, 200, 100, 0, 0, 1, 3, 1, 0, 0, 100, 255, 4, 5]

/-- A prover with a key of two bytes. -/
def longKey : BatchAVLProver :=
  .onTree [emptyLeaf [0] [5, 5], emptyLeaf [5, 5] [255], innerNode [5, 5] 0 1 0] 2 1

/-- It shows the second leaf, with the second byte of the key as the value. -/
def longKeyProof : List UInt8 := [3, 0, 0, 5, 5, 2, 5, 255, 0, 0, 0, 1, 5, 0, 4, 0]

/-- The check of the tree is not enough: it does not compare the keys of all leaves, nor their
lengths.  Without collisions, the verifier finds that a key of `unordered` is missing, and a
key that is not in `longKey`. -/
theorem not_sound :
    (unordered.checkTree oneByteKeys false = .ok ()
      ∧ (unordered.digest oneByteKeys).1 = .ok [1, 255, 1, 1, 3]
      ∧ oneByteKeys.hf.CollisionFree (unordered.hashed oneByteKeys
        ++ (BatchAVLVerifier.new oneByteKeys unorderedProof [1, 255, 1, 1, 3] none none 10).hashed
          oneByteKeys)
      ∧ (unordered.performOneOperation oneByteKeys (.lookup ⟨[150]⟩)).1
        = .ok (some (sentinelValue oneByteKeys))
      ∧ ((BatchAVLVerifier.new oneByteKeys unorderedProof [1, 255, 1, 1, 3] none none
        10).performOneOperation oneByteKeys unorderedProof (.lookup ⟨[150]⟩)).1 = .ok none)
    ∧ longKey.checkTree oneByteKeys false = .ok ()
      ∧ (longKey.digest oneByteKeys).1 = .ok [1, 0, 0, 0, 1]
      ∧ oneByteKeys.hf.CollisionFree (longKey.hashed oneByteKeys
        ++ (BatchAVLVerifier.new oneByteKeys longKeyProof [1, 0, 0, 0, 1] none none 10).hashed
          oneByteKeys)
      ∧ (longKey.performOneOperation oneByteKeys (.lookup ⟨[5]⟩)).1 = .ok none
      ∧ ((BatchAVLVerifier.new oneByteKeys longKeyProof [1, 0, 0, 0, 1] none none
        10).performOneOperation oneByteKeys longKeyProof (.lookup ⟨[5]⟩)).1
          = .ok (some (.ofByte 5)) := by
  decide +kernel

end Sparkz.Avl
