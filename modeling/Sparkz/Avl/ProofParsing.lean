import Sparkz.Avl.BatchAVLVerifier
import Sparkz.Lib.CounterMachine

/-!
# When the verifier is constructed

`reconstructedTree` has two loops.  The one that computes a logarithm doubles an `Int`,
which is 0 after 32 rounds; the one over the proof advances by lengths that it reads
from the proof, and the length of a value may be negative.

* `items` — the loop over the proof as a machine with one counter: where the next item
  starts, whether a leaf came last, and how many nodes are on the stack.
* `parseNodes_spec` — the loop follows the machine until it stops or the limit on the
  nodes is exceeded; `label_ends` — the label of a tree that was read is computed.
* `Constructs` — the construction ends; `constructs_iff` says when it does.
-/

namespace Sparkz.Avl

open Sparkz.Lib

/-! ## The loop over the proof, without the nodes -/

section

variable (P : TreeParams) (proof : List UInt8)

/-- The byte at a position. -/
def byteAt (i : ℤ) : Option UInt8 := if i < 0 then none else proof[i.toNat]?

/-- Where the leaf ends whose fields start at `i`, if the length of its value can be
read.  After another leaf the key is not in the proof. -/
def leafEnd (i : ℤ) (afterLeaf : Bool) : Option ℤ :=
  let i := if afterLeaf then i else wrapInt (i + P.keyLength)
  let i := wrapInt (i + P.keyLength)
  match P.valueLengthOpt with
  | some vl => some (wrapInt (i + vl))
  | none =>
      let bytes := slice proof i (wrapInt (i + 4))
      if bytes.length < 4 then none
      else some (wrapInt (wrapInt (i + 4) + signed 32 (ofBytes bytes)))

/-- One item of the proof, from its position. -/
def itemStep (here : ℤ × Bool) (depth : ℕ) : Option ((ℤ × Bool) × ℕ) :=
  match byteAt proof here.1 with
  | none => none
  | some n =>
      if n = BatchAVLProver.endOfTreeInPackagedProof then none
      else if n = BatchAVLProver.labelInPackagedProof then
        some ((wrapInt (wrapInt (here.1 + 1) + P.labelLength), false), depth + 1)
      else if n = BatchAVLProver.leafInPackagedProof then
        (leafEnd P proof (wrapInt (here.1 + 1)) here.2).map fun stop => ((stop, true), depth + 1)
      else if depth < 2 then none
      else some ((wrapInt (here.1 + 1), here.2), depth - 1)

theorem itemStep_shift {here here' : ℤ × Bool} {d d' : ℕ} (k : ℕ)
    (h : itemStep P proof here d = some (here', d')) :
    itemStep P proof here (d + k) = some (here', d' + k) := by
  unfold itemStep at h ⊢
  cases hbyte : byteAt proof here.1 with
  | none => rw [hbyte] at h; cases h
  | some n =>
    rw [hbyte] at h
    simp only at h ⊢
    split_ifs at h ⊢ with hend hlabel hleaf hdepth hdepth' hdepth'
    · cases h
      rw [Nat.add_right_comm]
    · obtain ⟨stop, hstop, heq⟩ := Option.map_eq_some_iff.1 h
      cases heq
      rw [hstop, Option.map_some, Nat.add_right_comm]
    · omega
    · cases h
      rw [Nat.sub_add_comm (by omega)]

/-- The items of the proof. -/
def items : CounterMachine (ℤ × Bool) where
  step := itemStep P proof
  step_shift := itemStep_shift P proof

/-- Items start only within the proof. -/
theorem itemStep_within {here : ℤ × Bool} {depth : ℕ} (h : itemStep P proof here depth ≠ none) :
    here ∈ Set.Ico (0 : ℤ) proof.length ×ˢ (Set.univ : Set Bool) := by
  refine ⟨?_, Set.mem_univ _⟩
  unfold itemStep at h
  cases hbyte : byteAt proof here.1 with
  | none => rw [hbyte] at h; exact absurd rfl h
  | some n =>
    unfold byteAt at hbyte
    split_ifs at hbyte with hneg
    have hlt := (List.getElem?_eq_some_iff.1 hbyte).1
    exact ⟨by omega, by omega⟩

/-- The items come to an end exactly if no position is come back to with a stack that
is not smaller. -/
theorem items_halts_iff {s : (ℤ × Bool) × ℕ} :
    (items P proof).Halts s ↔ ¬ (items P proof).Recurs s :=
  (items P proof).halts_iff ((Set.finite_Ico _ _).prod Set.finite_univ)
    fun _ _ h => itemStep_within P proof h

end

/-! ## The nodes that are read -/

section

variable {N : Type}

/-- Every inner node was made after its children. -/
def Layered (h : Heap) : Prop :=
  ∀ (x : Ref) (o : Node), h[x]? = some o → ∀ key left right b,
    o.content.view = .internalNode key left right b → left < x ∧ right < x

/-- Labels are cached; nothing else changes. -/
def SameContents (h h' : Heap) : Prop := h'.map (·.content) = h.map (·.content)

theorem SameContents.refl (h : Heap) : SameContents h h := rfl

theorem SameContents.trans {h₀ h₁ h₂ : Heap} (h₀₁ : SameContents h₀ h₁)
    (h₁₂ : SameContents h₁ h₂) : SameContents h₀ h₂ :=
  Eq.trans h₁₂ h₀₁

theorem SameContents.layered {h h' : Heap} (hs : SameContents h h') (hL : Layered h) :
    Layered h' := by
  intro x o' ho' key left right b hview
  have hmap : (h'.map (·.content))[x]? = some o'.content := by rw [List.getElem?_map, ho']; rfl
  rw [hs, List.getElem?_map, Option.map_eq_some_iff] at hmap
  obtain ⟨o, ho, hcontent⟩ := hmap
  exact hL x o ho key left right b (hcontent ▸ hview)

theorem sameContents_set {h : Heap} {x : Ref} {o : Node} (ho : h[x]? = some o)
    (l : Option Digest) : SameContents h (h.set x { o with labelOpt := l }) := by
  obtain ⟨hlt, rfl⟩ := List.getElem?_eq_some_iff.1 ho
  have hlt' : x < (h.map (·.content)).length := by rwa [List.length_map]
  have hx : h[x].content = (h.map (·.content))[x] := (List.getElem_map _).symm
  rw [SameContents, List.map_set]
  exact (congrArg _ hx).trans (List.set_getElem_self _)

theorem layered_append {h : Heap} (hL : Layered h) (o : Node)
    (ho : ∀ key left right b, o.content.view = .internalNode key left right b →
      left < h.length ∧ right < h.length) : Layered (h ++ [o]) := by
  intro x o' ho' key left right b hview
  rcases lt_or_ge x h.length with hx | hx
  · rw [List.getElem?_append_left hx] at ho'
    exact hL x o' ho' key left right b hview
  · rw [List.getElem?_append_right hx] at ho'
    obtain ⟨hlt, rfl⟩ := List.getElem?_eq_some_iff.1 ho'
    obtain ⟨hl, hr⟩ := ho key left right b (by simpa using hview)
    exact ⟨lt_of_lt_of_le hl hx, lt_of_lt_of_le hr hx⟩

/-- The computation comes to an end, with an exception or with a result. -/
def Ends {α : Type} (post : α → TreeState N → Prop) :
    EStateM.Result AvlError (TreeState N) α → Prop
  | .ok a s => post a s
  | .error e _ => e ≠ .notTerminating

theorem Ends.bind {α β : Type} {x : TreeM N α} {f : α → TreeM N β} {s : TreeState N}
    {post : α → TreeState N → Prop} {post' : β → TreeState N → Prop} (hx : Ends post (x s))
    (hf : ∀ a s', post a s' → Ends post' (f a s')) : Ends post' ((x >>= f) s) := by
  cases hrun : x s with
  | ok a s' =>
    rw [hrun] at hx
    rw [bind_ok hrun]
    exact hf a s' hx
  | error e s' =>
    rw [hrun] at hx
    rw [bind_error hrun]
    exact hx

/-- The label of a node is computed by way of nodes made before it. -/
theorem label_ends (hf : CryptographicHash) {fuel : ℕ} {x : Ref} {s : TreeState N}
    (hL : Layered s.heap) (hx : x < fuel) :
    Ends (fun _ s' => SameContents s.heap s'.heap) (label hf fuel x s) := by
  induction fuel generalizing x s with
  | zero => exact absurd hx (Nat.not_lt_zero x)
  | succ fuel ih =>
    cases ho : s.heap[x]? with
    | none =>
      rw [label, bind_error (show getNode x s = .error .nullPointer s by simp only [getNode, ho])]
      exact fun h => by cases h
    | some o =>
      rw [label, bind_ok (getNode_ok ho)]
      cases o.labelOpt with
      | some l => exact SameContents.refl s.heap
      | none =>
        have hcache : ∀ (l : Digest) (s' : TreeState N), SameContents s.heap s'.heap →
            Ends (fun _ s'' => SameContents s.heap s''.heap)
              ((do
                let o' ← getNode x
                setNode x { o' with labelOpt := some l }
                pure l : TreeM N Digest) s') := by
          intro l s' hs
          cases ho' : s'.heap[x]? with
          | none =>
            rw [bind_error (show getNode x s' = .error .nullPointer s' by simp only [getNode, ho'])]
            exact fun h => by cases h
          | some o' =>
            rw [bind_ok (getNode_ok ho')]
            exact hs.trans (sameContents_set ho' _)
        cases hview : o.content.view with
        | labelOnlyNode l => exact hcache l s (.refl s.heap)
        | leaf k v nk => exact hcache _ s (.refl s.heap)
        | internalNode key left right b =>
          obtain ⟨hl, hr⟩ := hL x o ho key left right b hview
          have hle : x ≤ fuel := Nat.lt_succ_iff.1 hx
          refine Ends.bind (ih hL (lt_of_lt_of_le hl hle)) fun leftLabel s₁ hs₁ => ?_
          refine Ends.bind (ih (hs₁.layered hL) (lt_of_lt_of_le hr hle)) fun rightLabel s₂ hs₂ => ?_
          exact hcache _ s₂ (hs₁.trans hs₂)

end

/-! ## The loop over the proof -/

section

variable (P : TreeParams) (proof : List UInt8)

/-- Where the loop is: the position, whether a leaf came last, and the number of nodes. -/
def ParseState.place (st : ParseState) : (ℤ × Bool) × ℕ :=
  ((st.i, st.previousLeaf.isSome), st.s.length)

/-- The nodes read so far. -/
structure Parsed (st : ParseState) (s : TreeState VerifierNav) : Prop where
  layered : Layered s.heap
  stack : ∀ x ∈ st.s, x < s.heap.length

variable {P} {proof}

theorem proofByte_eq {i : ℤ} {s : TreeState VerifierNav} :
    proofByte proof i s
      = match byteAt proof i with
        | none => .error .indexOutOfBounds s
        | some n => .ok n s := by
  unfold proofByte byteAt
  split_ifs with hneg
  · rfl
  · cases proof[i.toNat]? with
    | none => rfl
    | some n => rfl

/-- A node without children, or with two nodes of the stack as children. -/
theorem Parsed.push {st st' : ParseState} {s : TreeState VerifierNav} (hp : Parsed st s) {o : Node}
    {rest : List Ref} (ho : ∀ key left right b, o.content.view = .internalNode key left right b →
      left ∈ st.s ∧ right ∈ st.s) (hrest : ∀ x ∈ rest, x ∈ st.s)
    (hst : st'.s = s.heap.length :: rest) : Parsed st' { s with heap := s.heap ++ [o] } where
  layered := layered_append hp.layered o fun key left right b hview =>
    ⟨hp.stack _ (ho key left right b hview).1, hp.stack _ (ho key left right b hview).2⟩
  stack := by
    intro x hx
    rw [List.length_append, List.length_singleton]
    rw [hst] at hx
    rcases List.mem_cons.1 hx with rfl | hx
    · exact Nat.lt_succ_self _
    · exact Nat.lt_succ_of_lt (hp.stack x (hrest x hx))

variable (P proof) in
/-- The round for a label. -/
theorem parseNode_label (st : ParseState) (s : TreeState VerifierNav) :
    ∃ l, parseNode P proof st BatchAVLProver.labelInPackagedProof s
      = .ok ⟨st.numNodes, s.heap.length :: st.s, wrapInt (wrapInt (st.i + 1) + P.labelLength), none⟩
          { s with heap := s.heap ++ [⟨false, some l, .labelOnlyNode l⟩] } :=
  ⟨_, rfl⟩

variable (P proof) in
/-- The round for a leaf. -/
theorem parseNode_leaf (st : ParseState) (s : TreeState VerifierNav) :
    match leafEnd P proof (wrapInt (st.i + 1)) st.previousLeaf.isSome with
    | none => parseNode P proof st BatchAVLProver.leafInPackagedProof s
        = .error .requirementFailed s
    | some stop => ∃ key value nextLeafKey,
        parseNode P proof st BatchAVLProver.leafInPackagedProof s
          = .ok ⟨st.numNodes, s.heap.length :: st.s, stop, some nextLeafKey⟩
              { s with heap :=
                s.heap ++ [⟨false, none, .verifierLeaf key value nextLeafKey⟩] } := by
  obtain ⟨numNodes, stack, i, previousLeaf⟩ := st
  have hlabel : BatchAVLProver.leafInPackagedProof ≠ BatchAVLProver.labelInPackagedProof := by
    decide
  unfold leafEnd parseNode parseValueLength
  rw [if_neg hlabel, if_pos rfl]
  cases previousLeaf with
  | none =>
    cases P.valueLengthOpt with
    | some vl => exact ⟨_, _, _, rfl⟩
    | none =>
      simp only [Option.isSome_none, Bool.false_eq_true, if_false]
      split_ifs with hlength
      · rfl
      · exact ⟨_, _, _, rfl⟩
  | some nextLeafKey =>
    cases P.valueLengthOpt with
    | some vl => exact ⟨_, _, _, rfl⟩
    | none =>
      simp only [Option.isSome_some, if_true]
      split_ifs with hlength
      · rfl
      · exact ⟨_, _, _, rfl⟩

/-- The round for an inner node. -/
theorem parseNode_internal {st : ParseState} {n : UInt8}
    (hlabel : n ≠ BatchAVLProver.labelInPackagedProof)
    (hleaf : n ≠ BatchAVLProver.leafInPackagedProof) (s : TreeState VerifierNav) :
    parseNode P proof st n s
      = match st.s with
        | right :: left :: rest =>
            .ok ⟨st.numNodes, s.heap.length :: rest, wrapInt (st.i + 1), st.previousLeaf⟩
              { s with heap :=
                s.heap ++ [⟨false, none, .internalVerifierNode left right n.toInt8⟩] }
        | _ => .error .noSuchElement s := by
  obtain ⟨numNodes, stack, i, previousLeaf⟩ := st
  rw [parseNode, if_neg hlabel, if_neg hleaf]
  match stack with
  | [] => rfl
  | [_] => rfl
  | _ :: _ :: _ => rfl

/-- One round of the loop makes the step of the machine, or throws where there is none. -/
theorem parseNode_spec {st : ParseState} {s : TreeState VerifierNav} {n : UInt8}
    (hp : Parsed st s) (hn : byteAt proof st.i = some n)
    (hend : n ≠ BatchAVLProver.endOfTreeInPackagedProof) :
    match itemStep P proof st.place.1 st.place.2 with
    | none => ∃ e s', parseNode P proof st n s = .error e s' ∧ e ≠ .notTerminating
    | some place => ∃ st' s', parseNode P proof st n s = .ok st' s' ∧ st'.place = place
        ∧ st'.numNodes = st.numNodes ∧ Parsed st' s' := by
  rw [itemStep, show byteAt proof st.place.1.1 = some n from hn]
  simp only
  rw [if_neg hend]
  by_cases hlabel : n = BatchAVLProver.labelInPackagedProof
  · obtain ⟨l, hrun⟩ := parseNode_label P proof st s
    rw [if_pos hlabel, hlabel]
    exact ⟨_, _, hrun, rfl, rfl,
      hp.push (o := ⟨false, some l, .labelOnlyNode l⟩) (fun _ _ _ _ h => by cases h)
        (fun _ h => h) rfl⟩
  · rw [if_neg hlabel]
    by_cases hleaf : n = BatchAVLProver.leafInPackagedProof
    · have hrun := parseNode_leaf P proof st s
      rw [if_pos hleaf, hleaf]
      cases hstop : leafEnd P proof (wrapInt (st.i + 1)) st.previousLeaf.isSome with
      | none =>
        rw [hstop] at hrun
        rw [show leafEnd P proof (wrapInt (st.place.1.1 + 1)) st.place.1.2 = none from hstop]
        exact ⟨_, _, hrun, fun h => by cases h⟩
      | some stop =>
        rw [hstop] at hrun
        rw [show leafEnd P proof (wrapInt (st.place.1.1 + 1)) st.place.1.2 = some stop from hstop]
        obtain ⟨key, value, nextLeafKey, hrun⟩ := hrun
        exact ⟨_, _, hrun, rfl, rfl,
          hp.push (o := ⟨false, none, .verifierLeaf key value nextLeafKey⟩)
            (fun _ _ _ _ h => by cases h) (fun _ h => h) rfl⟩
    · rw [if_neg hleaf, parseNode_internal hlabel hleaf]
      match hstack : st.s with
      | [] =>
        rw [if_pos (by rw [ParseState.place, hstack]; exact Nat.succ_pos 1)]
        exact ⟨_, _, rfl, fun h => by cases h⟩
      | [_] =>
        rw [if_pos (by rw [ParseState.place, hstack]; exact Nat.lt_succ_self 1)]
        exact ⟨_, _, rfl, fun h => by cases h⟩
      | right :: left :: rest =>
        rw [if_neg (by rw [ParseState.place, hstack]; simp)]
        refine ⟨_, _, rfl, ?_, rfl,
          hp.push (o := ⟨false, none, .internalVerifierNode left right n.toInt8⟩)
            (fun _ _ _ _ h => ?_) (fun _ h => ?_) rfl⟩
        · rw [ParseState.place, ParseState.place, hstack]
          rfl
        · cases h
          rw [hstack]
          exact ⟨List.mem_cons_of_mem _ List.mem_cons_self, List.mem_cons_self⟩
        · rw [hstack]
          exact List.mem_cons_of_mem _ (List.mem_cons_of_mem _ h)

variable (P proof) in
/-- After so many rounds the loop still goes on: the machine has not stopped, and the
number of nodes has never been above the limit. -/
def Continues (limit : Option ℤ) (fuel : ℕ) (st : ParseState) : Prop :=
  (items P proof).run fuel st.place ≠ none
    ∧ ∀ j < fuel, ∀ most ∈ limit, wrapInt (st.numNodes + (j + 1 : ℕ)) ≤ most

/-- The first of several rounds. -/
theorem continues_succ {limit : Option ℤ} {fuel : ℕ} {st : ParseState} :
    Continues P proof limit (fuel + 1) st ↔
      (∀ most ∈ limit, wrapInt (st.numNodes + 1) ≤ most) ∧
        ∃ place, itemStep P proof st.place.1 st.place.2 = some place
          ∧ (items P proof).run fuel place ≠ none
          ∧ ∀ j < fuel, ∀ most ∈ limit,
              wrapInt (wrapInt (st.numNodes + 1) + (j + 1 : ℕ)) ≤ most := by
  have hround : ∀ j : ℕ, wrapInt (wrapInt (st.numNodes + 1) + (j + 1 : ℕ))
      = wrapInt (st.numNodes + (j + 1 + 1 : ℕ)) := fun j => by
    rw [wrapInt_add_wrapInt]
    congr 1
    push_cast
    ring
  have hrun : (items P proof).run (fuel + 1) st.place
      = (itemStep P proof st.place.1 st.place.2).bind ((items P proof).run fuel) := rfl
  constructor
  · rintro ⟨hsome, hlimit⟩
    refine ⟨fun most hmost => hlimit 0 (Nat.succ_pos fuel) most hmost, ?_⟩
    cases hstep : itemStep P proof st.place.1 st.place.2 with
    | none => exact absurd (by rw [hrun, hstep]; rfl) hsome
    | some place =>
      rw [hrun, hstep] at hsome
      exact ⟨place, rfl, hsome, fun j hj most hmost =>
        hround j ▸ hlimit (j + 1) (Nat.succ_lt_succ hj) most hmost⟩
  · rintro ⟨hfirst, place, hstep, hsome, hlimit⟩
    refine ⟨by rw [hrun, hstep]; exact hsome, fun j hj most hmost => ?_⟩
    cases j with
    | zero => exact hfirst most hmost
    | succ j => exact hround j ▸ hlimit j (Nat.lt_of_succ_lt_succ hj) most hmost

variable (P proof) in
/-- **The loop over the proof** ends within so many rounds, unless it still goes on. -/
theorem parseNodes_spec (limit : Option ℤ) (fuel : ℕ) {st : ParseState}
    {s : TreeState VerifierNav} (hp : Parsed st s) :
    match parseNodes P proof limit fuel st s with
    | .ok st' s' => Parsed st' s' ∧ ¬ Continues P proof limit fuel st
    | .error e _ => e = .notTerminating ↔ Continues P proof limit fuel st := by
  induction fuel generalizing st s with
  | zero =>
    exact iff_of_true rfl ⟨Option.some_ne_none _, fun j hj => absurd hj (Nat.not_lt_zero j)⟩
  | succ fuel ih =>
    cases hbyte : byteAt proof st.i with
    | none =>
      have hstep : itemStep P proof st.place.1 st.place.2 = none := by
        rw [itemStep, show byteAt proof st.place.1.1 = none from hbyte]
      rw [parseNodes, bind_error (by rw [proofByte_eq, hbyte])]
      refine iff_of_false (fun h => by cases h) fun h => ?_
      obtain ⟨_, place, hplace, _⟩ := continues_succ.1 h
      rw [hstep] at hplace
      cases hplace
    | some n =>
      have hread : proofByte proof st.i s = .ok n s := by rw [proofByte_eq, hbyte]
      rw [parseNodes, bind_ok hread]
      by_cases hend : n = BatchAVLProver.endOfTreeInPackagedProof
      · have hstep : itemStep P proof st.place.1 st.place.2 = none := by
          rw [itemStep, show byteAt proof st.place.1.1 = some n from hbyte]
          exact if_pos hend
        rw [if_pos hend]
        refine ⟨hp, fun h => ?_⟩
        obtain ⟨_, place, hplace, _⟩ := continues_succ.1 h
        rw [hstep] at hplace
        cases hplace
      · rw [if_neg hend]
        by_cases hlimit : ∀ most ∈ limit, wrapInt (st.numNodes + 1) ≤ most
        · have hany : (limit.any fun most => most < wrapInt (st.numNodes + 1)) = false := by
            cases limit with
            | none => rfl
            | some most => simpa using hlimit most rfl
          have hnumNodes : ParseState.place { st with numNodes := wrapInt (st.numNodes + 1) }
              = st.place := rfl
          simp only [hany, Bool.false_eq_true, if_false]
          have hp₁ : Parsed { st with numNodes := wrapInt (st.numNodes + 1) } s :=
            ⟨hp.layered, hp.stack⟩
          have hround := parseNode_spec (P := P) hp₁ hbyte hend
          rw [hnumNodes] at hround
          cases hstep : itemStep P proof st.place.1 st.place.2 with
          | none =>
            rw [hstep] at hround
            obtain ⟨e, s', hrun, he⟩ := hround
            rw [bind_error hrun]
            refine iff_of_false he fun h => ?_
            obtain ⟨_, place, hplace, _⟩ := continues_succ.1 h
            rw [hstep] at hplace
            cases hplace
          | some place =>
            rw [hstep] at hround
            obtain ⟨st', s', hrun, hplace, hnum, hp'⟩ := hround
            have hcont : Continues P proof limit (fuel + 1) st
                ↔ Continues P proof limit fuel st' := by
              rw [continues_succ, Continues, hplace, hnum]
              constructor
              · rintro ⟨_, place', hplace', hrest⟩
                rw [hstep] at hplace'
                cases hplace'
                exact hrest
              · exact fun hrest => ⟨hlimit, place, hstep, hrest⟩
            rw [bind_ok hrun, hcont]
            exact ih hp'
        · have hany : (limit.any fun most => most < wrapInt (st.numNodes + 1)) = true := by
            cases limit with
            | none => exact absurd (fun _ h => by cases h) hlimit
            | some most => simpa using hlimit
          simp only [hany, if_true]
          exact iff_of_false (fun h => by cases h) fun h => hlimit (continues_succ.1 h).1

end

/-! ## The limit on the nodes -/

/-- The largest number of nodes that a proof for `n` operations with `d` deletions may
have, for a tree of height `h`, with its sums and products as `Int`s. -/
def nodeBound (h n d : ℤ) : ℤ :=
  let temp := 1 + max h (Nat.clog 2 n.toNat)
  wrapInt ((n + d) * (2 * h + 1) + d * (temp + temp / 2) + 1)

/-- Up to 2 ^ 30 operations the loop finds the logarithm. -/
theorem logNumOpsLoop_ok {n : ℤ} (hn : n ≤ 2 ^ 30) {k fuel : ℕ} (hk : k ≤ Nat.clog 2 n.toNat)
    (hfuel : Nat.clog 2 n.toNat < k + fuel) :
    logNumOpsLoop n fuel (2 ^ k) k = .ok (Nat.clog 2 n.toNat) := by
  have hmost : Nat.clog 2 n.toNat ≤ 30 := Nat.clog_le_of_le_pow (by omega)
  induction fuel generalizing k with
  | zero => omega
  | succ fuel ih =>
    have hlt : (2 : ℤ) ^ k < n ↔ k < Nat.clog 2 n.toNat := by
      rw [Nat.lt_clog_iff_pow_lt (by norm_num), ← Nat.cast_lt (α := ℤ)]
      push_cast
      have := pow_pos (show (0 : ℤ) < 2 by norm_num) k
      omega
    rw [logNumOpsLoop]
    by_cases hlog : k < Nat.clog 2 n.toNat
    · have hdouble : wrapInt (2 ^ k * 2) = 2 ^ (k + 1) := by
        rw [← pow_succ]
        refine wrapInt_of_lt (by positivity) (lt_of_le_of_lt (b := 2 ^ 30) ?_ (by norm_num))
        exact pow_le_pow_right₀ (by norm_num) (by omega)
      rw [if_pos (hlt.2 hlog), hdouble]
      exact_mod_cast ih hlog (by omega)
    · rw [if_neg (mt hlt.1 hlog)]
      congr 2
      omega

/-- Above 2 ^ 30 operations the loop never ends: the doubled number becomes negative and
then 0. -/
theorem logNumOpsLoop_diverges {n : ℤ} (hn : 2 ^ 30 < n) (fuel k : ℕ) (logNumOps : ℤ) :
    logNumOpsLoop n fuel (wrapInt (2 ^ k)) logNumOps = .error .notTerminating := by
  induction fuel generalizing k logNumOps with
  | zero => rfl
  | succ fuel ih =>
    have hlt : wrapInt (2 ^ k) < n := by
      rcases Nat.lt_or_ge k 31 with hk | hk
      · interval_cases k <;> exact lt_of_le_of_lt (by decide) hn
      · obtain ⟨r, rfl⟩ := Nat.exists_eq_add_of_le hk
        have hle : wrapInt (2 ^ (31 + r)) ≤ 0 := by
          cases r with
          | zero => decide
          | succ r =>
            have hdvd : ((2 ^ 32 : ℕ) : ℤ) ∣ 2 ^ (31 + (r + 1)) :=
              ⟨2 ^ r, by push_cast; ring⟩
            exact le_of_eq (Int.bmod_eq_zero_of_dvd hdvd)
        omega
    have hdouble : wrapInt (wrapInt (2 ^ k) * 2) = wrapInt (2 ^ (k + 1)) := by
      rw [pow_succ]
      exact Int.bmod_mul_bmod
    rw [logNumOpsLoop, if_pos hlt, hdouble]
    exact ih (k + 1) (logNumOps + 1)

theorem maxNodes_ok {n : ℤ} (hn : n ≤ 2 ^ 30) (h d : ℤ) :
    maxNodes h n d = .ok (nodeBound h n d) := by
  have hmost : Nat.clog 2 n.toNat ≤ 30 := Nat.clog_le_of_le_pow (by omega)
  have hlog : logNumOpsLoop n 34 1 0 = .ok (Nat.clog 2 n.toNat) :=
    logNumOpsLoop_ok hn (Nat.zero_le _) (by omega)
  show (logNumOpsLoop n 34 1 0).bind _ = _
  rw [hlog]
  rfl

theorem maxNodes_diverges {n : ℤ} (hn : 2 ^ 30 < n) (h d : ℤ) :
    maxNodes h n d = .error .notTerminating := by
  have hlog : logNumOpsLoop n 34 1 0 = .error .notTerminating := logNumOpsLoop_diverges hn 34 0 0
  show (logNumOpsLoop n 34 1 0).bind _ = _
  rw [hlog]
  rfl

/-! ## When the construction ends -/

/-- The limit on the nodes for the arguments of the constructor. -/
def limitFor (startingDigest : Digest) (maxNumOperations maxDeletes : Option ℤ) : Option ℤ :=
  maxNumOperations.map fun n =>
    nodeBound (startingDigest.getLastD 0).toNat n (maxDeletes.getD n)

/-- The state before anything is read. -/
def emptyState : TreeState VerifierNav := ⟨[], 0, [], [], none, ⟨0, 0, 0⟩⟩

/-- The loop variables before anything is read. -/
def emptyParse : ParseState := ⟨0, [], 0, none⟩

section

variable {P : TreeParams} {startingDigest : Digest} {proof : List UInt8}
  {maxNumOperations maxDeletes : Option ℤ}

variable (P startingDigest) in
/-- What `reconstructedTree` does after the loops. -/
def takeRoot (st : ParseState) : TreeM VerifierNav Ref := do
  match st.s with
  | [root] =>
      let l ← label P.hf ((← get).heap.length + 1) root
      if l <+: startingDigest then
        modify fun s => { s with
          nav := { s.nav with directionsIndex := wrapInt (wrapInt (st.i + 1) * 8) } }
        return root
      else throw .requirementFailed
  | _ => throw .requirementFailed

theorem takeRoot_ends {st : ParseState} {s : TreeState VerifierNav} (hp : Parsed st s) :
    Ends (fun _ _ => True) (takeRoot P startingDigest st s) := by
  obtain ⟨numNodes, stack, i, previousLeaf⟩ := st
  match stack with
  | [] => exact fun h => by cases h
  | [root] =>
    have hroot : root < s.heap.length + 1 := Nat.lt_succ_of_lt (hp.stack root List.mem_cons_self)
    unfold takeRoot
    simp only
    rw [bind_ok (get_ok s)]
    refine Ends.bind (label_ends P.hf hp.layered hroot) fun l s' _ => ?_
    split_ifs with hprefix
    · trivial
    · exact fun h => by cases h
  | _ :: _ :: _ => exact fun h => by cases h

/-- `reconstructedTree` once the limit is known. -/
theorem reconstructedTree_eq (hdigest : startingDigest.length = P.labelLength + 1)
    (hkey : 0 < P.keyLength) (hn : ∀ n ∈ maxNumOperations, n ≤ 2 ^ 30) (fuel : ℕ) :
    reconstructedTree P startingDigest proof maxNumOperations maxDeletes fuel emptyState
      = (parseNodes P proof (limitFor startingDigest maxNumOperations maxDeletes) fuel emptyParse
          >>= takeRoot P startingDigest)
        { emptyState with rootNodeHeight := (startingDigest.getLastD 0).toNat } := by
  have hrequire : ¬ ¬ (0 < P.labelLength ∧ 0 < P.keyLength
      ∧ startingDigest.length = P.labelLength + 1) :=
    not_not.2 ⟨P.hf.digestSize_pos, hkey, hdigest⟩
  rw [reconstructedTree, if_neg hrequire]
  cases maxNumOperations with
  | none => rfl
  | some n =>
    rw [bind_ok (modify_ok _ _)]
    simp only [maxNodes_ok (hn n rfl)]
    rfl

/-- **The reconstruction ends** within so many rounds unless one of its loops goes on. -/
theorem reconstructedTree_ends_iff (hdigest : startingDigest.length = P.labelLength + 1)
    (hkey : 0 < P.keyLength) (fuel : ℕ) :
    Ends (fun _ _ => True)
        (reconstructedTree P startingDigest proof maxNumOperations maxDeletes fuel emptyState)
      ↔ (∀ n ∈ maxNumOperations, n ≤ 2 ^ 30)
        ∧ ¬ Continues P proof (limitFor startingDigest maxNumOperations maxDeletes) fuel
            emptyParse := by
  by_cases hn : ∀ n ∈ maxNumOperations, n ≤ 2 ^ 30
  · rw [reconstructedTree_eq hdigest hkey hn, and_iff_right hn]
    have hempty : Parsed emptyParse
        { emptyState with rootNodeHeight := (startingDigest.getLastD 0).toNat } :=
      ⟨fun x o ho => by simp [emptyState] at ho, fun x hx => by simp [emptyParse] at hx⟩
    have hparse := parseNodes_spec P proof (limitFor startingDigest maxNumOperations maxDeletes)
      fuel hempty
    cases hrun : parseNodes P proof (limitFor startingDigest maxNumOperations maxDeletes) fuel
        emptyParse { emptyState with rootNodeHeight := (startingDigest.getLastD 0).toNat } with
    | ok st s =>
      rw [hrun] at hparse
      rw [bind_ok hrun]
      exact iff_of_true (takeRoot_ends hparse.1) hparse.2
    | error e s =>
      rw [hrun] at hparse
      rw [bind_error hrun]
      exact not_congr hparse
  · refine iff_of_false (fun h => ?_) fun h => hn h.1
    have hrequire : ¬ ¬ (0 < P.labelLength ∧ 0 < P.keyLength
        ∧ startingDigest.length = P.labelLength + 1) :=
      not_not.2 ⟨P.hf.digestSize_pos, hkey, hdigest⟩
    rw [reconstructedTree, if_neg hrequire, bind_ok (modify_ok _ _)] at h
    cases maxNumOperations with
    | none => exact hn fun _ h => by cases h
    | some n =>
      have hlarge : 2 ^ 30 < n := by simpa using hn
      simp only [maxNodes_diverges hlarge] at h
      exact h rfl

/-- Counting up, an `Int` exceeds every limit but the largest `Int`. -/
theorem continues_iff {limit : Option ℤ} (hlimit : ∀ most ∈ limit, most < 2 ^ 31) :
    (∀ fuel, Continues P proof limit fuel emptyParse)
      ↔ ¬ (items P proof).Halts ((0, false), 0) ∧ ∀ most ∈ limit, most = 2 ^ 31 - 1 := by
  constructor
  · intro h
    refine ⟨fun ⟨fuel, hfuel⟩ => (h fuel).1 hfuel, fun most hmost => ?_⟩
    have hcount : wrapInt (2 ^ 31 - 1) ≤ most := by
      have hround := (h (2 ^ 31 - 1)).2 (2 ^ 31 - 2) (by norm_num) most hmost
      norm_num [emptyParse] at hround ⊢
      exact hround
    rw [wrapInt_of_lt (by norm_num) (by norm_num)] at hcount
    have := hlimit most hmost
    omega
  · rintro ⟨hhalts, hmax⟩ fuel
    refine ⟨fun hnone => hhalts ⟨fuel, hnone⟩, fun j _ most hmost => ?_⟩
    have := wrapInt_lt (emptyParse.numNodes + (j + 1 : ℕ))
    rw [hmax most hmost]
    omega

end

/-- The arguments of the constructor that the requirements do not refuse; `vl` is an
`Int`. -/
def checkedParams (hf : CryptographicHash) (keyLength : ℤ) (valueLengthOpt : Option ℤ) :
    Option TreeParams :=
  if h : 0 < keyLength ∧ ∀ vl ∈ valueLengthOpt, 0 ≤ vl ∧ vl < 2 ^ 31 then
    some
      { keyLength := keyLength.toNat
        valueLengthOpt := valueLengthOpt.map Int.toNat
        valueLength_lt := by
          intro vl hvl
          obtain ⟨x, hx, rfl⟩ := Option.mem_map.1 hvl
          have := h.2 x hx
          omega
        collectChangedNodes := false
        hf := hf }
  else none

theorem keyLength_pos_of_checked {hf : CryptographicHash} {keyLength : ℤ}
    {valueLengthOpt : Option ℤ} {P : TreeParams}
    (hP : P ∈ checkedParams hf keyLength valueLengthOpt) : 0 < P.keyLength := by
  unfold checkedParams at hP
  split_ifs at hP with h
  · cases hP
    exact Int.lt_toNat.2 h.1
  · cases hP

/-- The construction of a verifier ends: a requirement on the arguments fails, or from
some number of rounds on the reconstruction of the tree returns or throws. -/
def Constructs (hf : CryptographicHash) (startingDigest : Digest) (proof : List UInt8)
    (keyLength : ℤ) (valueLengthOpt maxNumOperations maxDeletes : Option ℤ) : Prop :=
  ∀ P ∈ checkedParams hf keyLength valueLengthOpt, ∃ rounds, ∀ fuel ≥ rounds,
    Ends (fun _ _ => True)
      (reconstructedTree P startingDigest proof maxNumOperations maxDeletes fuel emptyState)

/-- Once the loop has stopped it stays so. -/
theorem Continues.le {P : TreeParams} {proof : List UInt8} {limit : Option ℤ} {fuel fuel' : ℕ}
    {st : ParseState} (h : Continues P proof limit fuel' st) (hle : fuel ≤ fuel') :
    Continues P proof limit fuel st := by
  obtain ⟨r, rfl⟩ := Nat.exists_eq_add_of_le hle
  refine ⟨fun hnone => h.1 ?_, fun j hj => h.2 j (by omega)⟩
  rw [CounterMachine.run_add, hnone]
  rfl

/-- For admissible arguments and a digest of the right length, the reconstruction ends
exactly if both loops do. -/
theorem reconstruction_ends_iff {P : TreeParams} {startingDigest : Digest} {proof : List UInt8}
    {maxNumOperations maxDeletes : Option ℤ} (hkey : 0 < P.keyLength)
    (hdigest : startingDigest.length = P.labelLength + 1) :
    (∃ rounds, ∀ fuel ≥ rounds, Ends (fun _ _ => True)
        (reconstructedTree P startingDigest proof maxNumOperations maxDeletes fuel emptyState))
      ↔ (∀ n ∈ maxNumOperations, n ≤ 2 ^ 30)
        ∧ (¬ (items P proof).Recurs ((0, false), 0)
          ∨ ∃ most ∈ limitFor startingDigest maxNumOperations maxDeletes, most ≠ 2 ^ 31 - 1) := by
  have hlimit : ∀ most ∈ limitFor startingDigest maxNumOperations maxDeletes, most < 2 ^ 31 := by
    intro most hmost
    obtain ⟨n, _, rfl⟩ := Option.mem_map.1 hmost
    exact wrapInt_lt _
  have hloop : (∃ rounds, ∀ fuel ≥ rounds,
        ¬ Continues P proof (limitFor startingDigest maxNumOperations maxDeletes) fuel emptyParse)
      ↔ ¬ (items P proof).Recurs ((0, false), 0)
        ∨ ∃ most ∈ limitFor startingDigest maxNumOperations maxDeletes, most ≠ 2 ^ 31 - 1 := by
    rw [← items_halts_iff, ← not_iff_not, not_or, not_exists]
    push Not
    rw [← continues_iff hlimit]
    exact ⟨fun h fuel => let ⟨_, hle, hc⟩ := h fuel; hc.le hle, fun h r => ⟨r, le_refl r, h r⟩⟩
  simp only [reconstructedTree_ends_iff hdigest hkey]
  constructor
  · rintro ⟨rounds, h⟩
    exact ⟨(h rounds (le_refl rounds)).1, hloop.1 ⟨rounds, fun fuel hf => (h fuel hf).2⟩⟩
  · rintro ⟨hn, hrest⟩
    obtain ⟨rounds, h⟩ := hloop.2 hrest
    exact ⟨rounds, fun fuel hf => ⟨hn, h fuel hf⟩⟩

/-- **When a verifier is constructed.**  The construction ends exactly if the digest has
the wrong length, or there are at most 2 ^ 30 operations and either no item of the proof
is come back to with at least as many nodes on the stack, or the limit on the nodes is
not the largest `Int`. -/
theorem constructs_iff (hf : CryptographicHash) (startingDigest : Digest) (proof : List UInt8)
    (keyLength : ℤ) (valueLengthOpt maxNumOperations maxDeletes : Option ℤ) :
    Constructs hf startingDigest proof keyLength valueLengthOpt maxNumOperations maxDeletes
      ↔ ∀ P ∈ checkedParams hf keyLength valueLengthOpt,
        startingDigest.length = P.labelLength + 1 →
          (∀ n ∈ maxNumOperations, n ≤ 2 ^ 30)
          ∧ (¬ (items P proof).Recurs ((0, false), 0)
            ∨ ∃ most ∈ limitFor startingDigest maxNumOperations maxDeletes,
                most ≠ 2 ^ 31 - 1) := by
  refine forall₂_congr fun P hP => ?_
  have hkey := keyLength_pos_of_checked hP
  by_cases hdigest : startingDigest.length = P.labelLength + 1
  · rw [reconstruction_ends_iff hkey hdigest]
    exact ⟨fun h _ => h, fun h => h hdigest⟩
  · refine iff_of_true ⟨0, fun fuel _ => ?_⟩ fun h => absurd h hdigest
    rw [reconstructedTree, if_pos fun h => hdigest h.2.2]
    exact fun h => by cases h

/-- A hash of four bytes. -/
def firstFourBytes : CryptographicHash where
  digestSize := 4
  digestSize_pos := CryptographicHash.four_pos
  hash := fun message => (message ++ [0, 0, 0, 0]).take 4
  length_hash := CryptographicHash.length_take_four

/-- A label and a leaf with a value of length -12, which is read back to the start. -/
def backwardProof : List UInt8 := [3, 9, 9, 9, 9, 2, 1, 2, 255, 255, 255, 244]

/-- With keys of one byte the verifier reads `backwardProof` for ever, and for more than
2 ^ 30 operations it never comes to read a proof. -/
theorem not_constructs :
    ¬ Constructs firstFourBytes [0, 0, 0, 0, 0] backwardProof 1 none none none
      ∧ ¬ Constructs firstFourBytes [0, 0, 0, 0, 0] [4] 1 none (some (2 ^ 30 + 1)) none := by
  have hchecked : checkedParams firstFourBytes 1 none
      = some ⟨1, none, (fun _ h => by cases h), false, firstFourBytes⟩ :=
    dif_pos ⟨by norm_num, fun _ h => by cases h⟩
  constructor
  · intro h
    have hends := (reconstruction_ends_iff (by decide) rfl).1 (h _ hchecked)
    rcases hends.2 with hrecurs | ⟨most, hmost, _⟩
    · -- the leaf after the label is come to again, with one more label below it
      exact hrecurs ⟨1, 2, (5, false), 1, 2, by norm_num, by decide +kernel, by decide +kernel⟩
    · cases hmost
  · intro h
    have hends := (reconstruction_ends_iff (by decide) rfl).1 (h _ hchecked)
    exact absurd (hends.1 _ rfl) (by norm_num)

end Sparkz.Avl
