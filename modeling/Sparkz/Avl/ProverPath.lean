import Sparkz.Lib.LeafTreeSearch
import Sparkz.Avl.Perform
import Sparkz.Avl.BatchAVLProver

/-!
# The way of the prover

The prover compares keys on its way down, records a bit for each step and finds its way
again from the bits.

* `ProverNav.Records` — the directions are a string of bits.
* `descend_prover` — the way down is the search path, and what is found is what the search
  finds; `Walked` says what the way leaves behind.
* `replays_prover`, `replayOf_searchPath` — the replay of the way gives the comparisons on
  it, which are those with the keys of the inner nodes.
* `undoDirections_ok` — a failed operation takes its bits back.
-/

namespace Sparkz.Avl

open Sparkz.Lib Sparkz.Lib.LeafTree

/-- The directions recorded so far are these bits.  The count of 2 ^ 31 bits is negative. -/
structure ProverNav.Records (nav : ProverNav) (bits : List Bool) : Prop where
  packs : Packs nav.directions bits
  length : nav.directionsBitLength = wrapInt bits.length
  count : bits.length ≤ 2 ^ 31

theorem ProverNav.Records.nil {nav : ProverNav} (hdirections : nav.directions = [])
    (hlength : nav.directionsBitLength = 0) : nav.Records [] where
  packs := hdirections ▸ Packs.nil
  length := hlength
  count := Nat.zero_le _

theorem ProverNav.Records.of_packs {directions : List UInt8} {bits : List Bool}
    (hpacks : Packs directions bits) (hcount : bits.length ≤ 2 ^ 31) (nav : ProverNav) :
    ProverNav.Records { nav with
      directions := directions
      directionsBitLength := wrapInt bits.length } bits :=
  ⟨hpacks, by simp only, hcount⟩

/-- The bits are counted, where their number is not negative. -/
theorem ProverNav.Records.length_eq {nav : ProverNav} {bits : List Bool} (h : nav.Records bits)
    (hlt : bits.length < 2 ^ 31) : nav.directionsBitLength = bits.length := by
  rw [h.length, wrapInt_of_lt (Int.natCast_nonneg _) (by exact_mod_cast hlt)]

/-! ## Indices of bits -/

theorem directionsByte_natCast (directions : List UInt8) (i : ℕ) :
    directionsByte directions i = directions[i / 8]? := by
  rw [directionsByte, if_neg (by omega), Int.toNat_natCast]

theorem toNat_emod_eight (i : ℕ) : ((i : ℤ) % 8).toNat = i % 8 := by
  omega

section

variable {nav : ProverNav} {bits : List Bool}

/-- One more bit is recorded, if the others can be counted. -/
theorem recordDirection_ok (h : nav.Records bits) (hroom : bits.length < 2 ^ 31) (d : Bool) :
    ∃ directions, recordDirection d nav = .ok () { nav with
        directions := directions
        directionsBitLength := wrapInt (bits ++ [d]).length }
      ∧ Packs directions (bits ++ [d]) := by
  have hpacks := h.packs
  have hlen := h.length_eq hroom
  have hlength : wrapInt (bits ++ [d]).length = wrapInt (nav.directionsBitLength + 1) := by
    rw [hlen, List.length_append, List.length_singleton, Nat.cast_add, Nat.cast_one]
  rw [hlength]
  by_cases hnew : bits.length % 8 = 0
  · refine ⟨nav.directions ++ [if d then 1 else 0], ?_, hpacks.push_byte hnew d⟩
    show (if nav.directionsBitLength % 8 = 0 then _ else _ : EStateM AvlError ProverNav Unit) nav
      = _
    rw [if_pos (by rw [hlen]; omega)]
    rfl
  · have hold : ¬ nav.directionsBitLength % 8 = 0 := by
      rw [hlen]
      omega
    cases d with
    | false =>
      refine ⟨nav.directions, ?_, hpacks.push_zero hnew⟩
      show (if nav.directionsBitLength % 8 = 0 then _ else _ : EStateM AvlError ProverNav Unit) nav
        = _
      rw [if_neg hold]
      rfl
    | true =>
      have hlt : bits.length / 8 < nav.directions.length := by
        rw [hpacks.length]
        omega
      have hbyte := List.getElem?_eq_getElem hlt
      refine ⟨_, ?_, hpacks.push_bit hnew hbyte⟩
      show (if nav.directionsBitLength % 8 = 0 then _ else _ : EStateM AvlError ProverNav Unit) nav
        = _
      rw [if_neg hold]
      simp only [if_true, hlen, directionsByte_natCast, hbyte, toNat_emod_eight, Int.toNat_natCast]
      rfl

/-- What the prover decides at an inner node. -/
theorem proverDirection_ok (nav : ProverNav) (key k : ADKey) :
    proverDirection key (some k) nav
      = if nav.found then .ok true nav
        else if key < k then .ok true nav
        else if key = k then
          .ok false { nav with found := true, lastRightStep := nav.directionsBitLength }
        else .ok false nav := by
  by_cases hfound : nav.found = true
  · show (if nav.found then _ else _ : EStateM AvlError ProverNav Bool) nav = _
    rw [if_pos hfound, if_pos hfound]
    rfl
  · show (if nav.found then _ else _ : EStateM AvlError ProverNav Bool) nav = _
    rw [if_neg hfound, if_neg hfound]
    rcases lt_trichotomy key k with hlt | rfl | hgt
    · simp only [compare_lt_iff_lt.2 hlt, if_pos hlt]
      rfl
    · simp only [compare_eq_iff_eq.2 rfl, lt_irrefl, if_false, if_true]
      rfl
    · simp only [compare_gt_iff_gt.2 hgt, if_neg hgt.not_gt, if_neg hgt.ne']
      rfl

/-- A step of the prover, by what it decides and what it records. -/
theorem nextDirectionIsLeft_eq {key : ADKey} {nodeKey : Option ADKey} {d : Bool} {nav₁ : ProverNav}
    (hdir : proverDirection key nodeKey nav = .ok d nav₁) :
    proverNextDirectionIsLeft key nodeKey nav
      = match recordDirection d nav₁ with
        | .ok () nav₂ => .ok d nav₂
        | .error e nav₂ => .error e nav₂ := by
  show EStateM.bind (proverDirection key nodeKey) _ nav = _
  rw [EStateM.bind, hdir]
  show EStateM.bind (recordDirection d) _ nav₁ = _
  rw [EStateM.bind]
  cases recordDirection d nav₁ <;> rfl

/-- A step of the prover at an inner node, with the bit that it records. -/
theorem nextDirectionIsLeft_ok (h : nav.Records bits) (hroom : bits.length < 2 ^ 31)
    (key k : ADKey) :
    ∃ nav', proverNextDirectionIsLeft key (some k) nav = .ok (nav.found || decide (key < k)) nav'
      ∧ nav'.Records (bits ++ [nav.found || decide (key < k)])
      ∧ nav'.replayIndex = nav.replayIndex
      ∧ nav'.found = (nav.found || decide (key = k))
      ∧ nav'.lastRightStep
          = if nav.found = false ∧ key = k then (bits.length : ℤ) else nav.lastRightStep := by
  have hstep : ∀ {d : Bool} {nav₁ : ProverNav}, proverDirection key (some k) nav = .ok d nav₁ →
      nav₁.Records bits → ∃ nav', proverNextDirectionIsLeft key (some k) nav = .ok d nav'
        ∧ nav'.Records (bits ++ [d]) ∧ nav'.replayIndex = nav₁.replayIndex
        ∧ nav'.found = nav₁.found ∧ nav'.lastRightStep = nav₁.lastRightStep := by
    intro d nav₁ hdir hrec
    obtain ⟨directions, hok, hpacks⟩ := recordDirection_ok hrec hroom d
    have hcount : (bits ++ [d]).length ≤ 2 ^ 31 := by
      rw [List.length_append, List.length_singleton]
      omega
    have hrecs := ProverNav.Records.of_packs hpacks hcount nav₁
    refine ⟨_, ?_, hrecs, rfl, rfl, rfl⟩
    rw [nextDirectionIsLeft_eq hdir, hok]
  have hdir := proverDirection_ok nav key k
  cases hfound : nav.found with
  | true =>
    rw [hfound, if_pos rfl] at hdir
    obtain ⟨nav', hok, hrec, hreplay, hf, hlast⟩ := hstep hdir h
    exact ⟨nav', hok, hrec, hreplay, hf.trans hfound, by rw [hlast]; simp⟩
  | false =>
    rw [hfound, if_neg Bool.false_ne_true] at hdir
    rcases lt_trichotomy key k with hlt | rfl | hgt
    · rw [if_pos hlt] at hdir
      obtain ⟨nav', hok, hrec, hreplay, hf, hlast⟩ := hstep hdir h
      exact ⟨nav', by simpa [hlt] using hok, by simpa [hlt] using hrec, hreplay,
        by simp [hf, hfound, hlt.ne], by simp [hlast, hlt.ne]⟩
    · rw [if_neg (lt_irrefl _), if_pos rfl] at hdir
      obtain ⟨nav', hok, hrec, hreplay, hf, hlast⟩ := hstep hdir ⟨h.packs, h.length, h.count⟩
      exact ⟨nav', by simpa using hok, by simpa using hrec, hreplay, by simp [hf],
        by simp [hlast, h.length_eq hroom]⟩
    · rw [if_neg hgt.not_gt, if_neg hgt.ne'] at hdir
      obtain ⟨nav', hok, hrec, hreplay, hf, hlast⟩ := hstep hdir h
      exact ⟨nav', by simpa [hgt.not_gt] using hok, by simpa [hgt.not_gt] using hrec, hreplay,
        by simp [hf, hfound, hgt.ne'], by simp [hlast, hgt.ne']⟩

end

/-! ## The whole way -/

/-- What the way down to a key leaves behind: its directions, and where it met the key. -/
structure Walked (key : ADKey) (t : Tree) (bits : List Bool) (nav nav' : ProverNav) : Prop where
  records : nav'.Records (bits ++ searchPath key nav.found t)
  found : nav'.found = false
  replayIndex : nav'.replayIndex = nav.replayIndex
  kept : nav.found = true → nav'.lastRightStep = nav.lastRightStep
  met : nav.found = false → meets key t = true → ∃ pre post,
    searchPath key false t = pre ++ false :: post ∧ false ∉ post
      ∧ nav'.lastRightStep = ((bits.length + pre.length : ℕ) : ℤ)

/-- Once the key is met, the way only goes left. -/
theorem false_notMem_searchPath_true (key : ADKey) (t : Tree) : false ∉ searchPath key true t := by
  induction t with
  | stub d => simp [searchPath]
  | leaf tag k v n => simp [searchPath]
  | node tag k l r b ihl ihr => simpa [searchPath] using ihl

/-- One step before the rest of the way. -/
theorem Walked.cons {key : ADKey} {t c : Tree} {bits : List Bool} {d : Bool}
    {nav nav₁ nav' : ProverNav} (hwalk : Walked key c (bits ++ [d]) nav₁ nav')
    (hpath : searchPath key nav.found t = d :: searchPath key nav₁.found c)
    (hreplay : nav₁.replayIndex = nav.replayIndex)
    (hkept : nav.found = true → nav₁.found = true ∧ nav₁.lastRightStep = nav.lastRightStep)
    (hmet : nav.found = false → meets key t = true →
      nav₁.found = true ∧ d = false ∧ nav₁.lastRightStep = bits.length
        ∨ nav₁.found = false ∧ meets key c = true) : Walked key t bits nav nav' where
  records := by
    have := hwalk.records
    rwa [List.append_assoc, List.singleton_append, ← hpath] at this
  found := hwalk.found
  replayIndex := hwalk.replayIndex.trans hreplay
  kept h := (hwalk.kept (hkept h).1).trans (hkept h).2
  met h hmeets := by
    rw [h] at hpath
    rcases hmet h hmeets with ⟨hfound, rfl, hlast⟩ | ⟨hfound, hmeets'⟩
    · refine ⟨[], searchPath key true c, by rw [hpath, hfound]; rfl,
        false_notMem_searchPath_true key c, ?_⟩
      rw [hwalk.kept hfound, hlast, List.length_nil, Nat.add_zero]
    · obtain ⟨pre, post, hsplit, hpost, hlast⟩ := hwalk.met hfound hmeets'
      refine ⟨d :: pre, post, by rw [hpath, hfound, hsplit]; rfl, hpost, ?_⟩
      rw [hlast, List.length_append, List.length_singleton, List.length_cons]
      congr 1
      omega

/-- A key that is met is met on the right. -/
theorem false_mem_searchPath {key : ADKey} {t : Tree} (hmeets : meets key t = true) :
    false ∈ searchPath key false t := by
  induction t with
  | stub d => cases hmeets
  | leaf tag k v n => cases hmeets
  | node tag k l r b ihl ihr =>
    rw [meets] at hmeets
    rw [searchPath]
    split
    · rename_i hlt
      rw [if_pos hlt] at hmeets
      exact List.mem_cons_of_mem _ (ihl hmeets)
    · split <;> exact List.mem_cons_self ..

section

variable {P : TreeParams} {operation : Operation} {t : Tree} {nav : ProverNav} {bits : List Bool}
  {lo hi : ADKey}

/-- **The way of the prover** is the search path, if its bits can be counted, and it finds what
the search finds. -/
theorem descend_prover (hchain : Chain lo hi t) (h : nav.Records bits)
    (hroom : bits.length + (searchPath operation.key nav.found t).length ≤ 2 ^ 31) :
    ∃ nav' k v n, leafAt t (searchPath operation.key nav.found t) = some (k, v, n)
      ∧ Walked operation.key t bits nav nav'
      ∧ descend P proverNavigation operation t nav
          = match leafAction P operation
              (if nav.found || meets operation.key t then some v else none) with
            | .ok act => .ok (searchPath operation.key nav.found t, act,
                if nav.found || meets operation.key t then some v else none) nav'
            | .error e => .error e nav' := by
  induction t generalizing lo hi nav bits with
  | stub d => exact hchain.elim
  | leaf tag k v n =>
    refine ⟨{ nav with found := false }, k, v, n, ?_, ?_, ?_⟩
    · cases nav.found <;> rfl
    · refine ⟨?_, rfl, rfl, fun _ => rfl, fun _ hmeets => by cases hmeets⟩
      have hnil : searchPath operation.key nav.found (.leaf tag k v n : Tree) = [] := by
        cases nav.found <;> rfl
      rw [hnil, List.append_nil]
      exact ⟨h.packs, h.length, h.count⟩
    · have hnil : searchPath operation.key nav.found (.leaf tag k v n : Tree) = [] := by
        cases nav.found <;> rfl
      have hmatch : proverNavigation.keyMatchesLeaf operation.key k n nav
          = .ok nav.found { nav with found := false } := rfl
      have hmeets : meets operation.key (.leaf tag k v n : Tree) = false := rfl
      rw [hnil, hmeets, Bool.or_false]
      cases hact : leafAction P operation (if nav.found = true then some v else none) with
      | ok act =>
        rw [descend_leaf, hmatch]
        simp only [hact]
      | error e =>
        rw [descend_leaf, hmatch]
        simp only [hact]
  | node tag k l r b ihl ihr =>
    have hstep : bits.length < 2 ^ 31 := by
      have := length_searchPath_pos operation.key nav.found tag k l r b
      omega
    have hrest : ∀ {d found : Bool} {c : Tree},
        searchPath operation.key nav.found (.node tag k l r b : Tree)
          = d :: searchPath operation.key found c →
        (bits ++ [d]).length + (searchPath operation.key found c).length ≤ 2 ^ 31 := by
      intro d found c hpath
      rw [hpath, List.length_cons] at hroom
      rw [List.length_append, List.length_singleton]
      omega
    obtain ⟨nav₁, hdir, hrec, hreplay, hfound, hlast⟩ :=
      nextDirectionIsLeft_ok h hstep operation.key k
    have hdir' : proverNavigation.nextDirectionIsLeft operation.key
        (nodeKey proverNavigation.mode k) nav = _ := hdir
    rw [descend_node, hdir']
    simp only
    cases hf : nav.found with
    | true =>
      rw [hf, Bool.true_or] at hdir hrec hfound
      have hpath : searchPath operation.key nav.found (.node tag k l r b : Tree)
          = true :: searchPath operation.key nav₁.found l := by
        rw [hf, hfound]
        rfl
      obtain ⟨nav', k', v', n', hleaf, hwalk, hway⟩ := ihl hchain.1 hrec (hrest hpath)
      rw [hfound] at hleaf hway
      refine ⟨nav', k', v', n', hleaf, hwalk.cons hpath hreplay ?_ ?_, ?_⟩
      · exact fun _ => ⟨hfound, by simpa [hf] using hlast⟩
      · intro h
        rw [hf] at h
        cases h
      · rw [Bool.true_or, if_pos rfl, hway, Bool.true_or, Bool.true_or]
        cases leafAction P operation (if true = true then some v' else none) <;> rfl
    | false =>
      rw [hf, Bool.false_or] at hdir hrec hfound
      simp only [Bool.false_or]
      have hnot : ∀ {p : Prop}, nav.found = true → p := fun h => by
        rw [hf] at h
        cases h
      rcases lt_trichotomy operation.key k with hlt | heq | hgt
      · rw [decide_eq_true hlt] at hdir hrec
        rw [decide_eq_false hlt.ne] at hfound
        have hpath : searchPath operation.key false (.node tag k l r b : Tree)
            = true :: searchPath operation.key false l := by rw [searchPath, if_pos hlt]
        obtain ⟨nav', k', v', n', hleaf, hwalk, hway⟩ :=
          ihl hchain.1 hrec (hrest (by rw [hf, hfound, hpath]))
        rw [hfound] at hleaf hway
        have hmeets : meets operation.key (.node tag k l r b : Tree) = meets operation.key l := by
          rw [meets, if_pos hlt]
        refine ⟨nav', k', v', n', by rw [hpath]; exact hleaf, hwalk.cons ?_ hreplay hnot ?_, ?_⟩
        · rw [hf, hfound, hpath]
        · exact fun _ h => .inr ⟨hfound, hmeets ▸ h⟩
        · rw [decide_eq_true hlt, if_pos rfl, hway, hmeets, hpath, Bool.false_or]
          cases leafAction P operation (if meets operation.key l = true then some v' else none) <;>
            rfl
      · rw [decide_eq_false heq.not_lt] at hdir hrec
        rw [decide_eq_true heq] at hfound
        rw [if_pos ⟨hf, heq⟩] at hlast
        have hpath : searchPath operation.key false (.node tag k l r b : Tree)
            = false :: searchPath operation.key true r := by
          rw [searchPath, if_neg heq.not_lt, if_pos heq]
        obtain ⟨nav', k', v', n', hleaf, hwalk, hway⟩ :=
          ihr hchain.2 hrec (hrest (by rw [hf, hfound, hpath]))
        rw [hfound] at hleaf hway
        have hmeets : meets operation.key (.node tag k l r b : Tree) = true := by
          rw [meets, if_neg heq.not_lt, if_pos heq]
        refine ⟨nav', k', v', n', by rw [hpath]; exact hleaf, hwalk.cons ?_ hreplay hnot ?_, ?_⟩
        · rw [hf, hfound, hpath]
        · exact fun _ _ => .inl ⟨hfound, rfl, hlast⟩
        · rw [decide_eq_false heq.not_lt, if_neg Bool.false_ne_true, hway, hmeets, hpath,
            Bool.true_or]
          cases leafAction P operation (if true = true then some v' else none) <;> rfl
      · rw [decide_eq_false hgt.not_gt] at hdir hrec
        rw [decide_eq_false hgt.ne'] at hfound
        have hpath : searchPath operation.key false (.node tag k l r b : Tree)
            = false :: searchPath operation.key false r := by
          rw [searchPath, if_neg hgt.not_gt, if_neg hgt.ne']
        obtain ⟨nav', k', v', n', hleaf, hwalk, hway⟩ :=
          ihr hchain.2 hrec (hrest (by rw [hf, hfound, hpath]))
        rw [hfound] at hleaf hway
        have hmeets : meets operation.key (.node tag k l r b : Tree) = meets operation.key r := by
          rw [meets, if_neg hgt.not_gt, if_neg hgt.ne']
        refine ⟨nav', k', v', n', by rw [hpath]; exact hleaf, hwalk.cons ?_ hreplay hnot ?_, ?_⟩
        · rw [hf, hfound, hpath]
        · exact fun _ h => .inr ⟨hfound, hmeets ▸ h⟩
        · rw [decide_eq_false hgt.not_gt, if_neg Bool.false_ne_true, hway, hmeets, hpath,
            Bool.false_or]
          cases leafAction P operation (if meets operation.key r = true then some v' else none) <;>
            rfl

end

/-! ## The replay -/

section

variable {nav nav' : ProverNav} {bits more : List Bool}

/-- A step of a replay, wherever it is. -/
theorem proverReplayComparison_cases (nav : ProverNav) :
    (∃ c, proverReplayComparison nav
          = .ok c { nav with replayIndex := wrapInt (nav.replayIndex + 1) }
        ∧ (nav.replayIndex = nav.lastRightStep
          ∨ 0 ≤ nav.replayIndex ∧ nav.replayIndex < 8 * nav.directions.length))
      ∨ proverReplayComparison nav = .error .indexOutOfBounds nav := by
  change (∃ c, (if nav.replayIndex = nav.lastRightStep then _ else _ :
    EStateM AvlError ProverNav ℤ) nav = _ ∧ _) ∨ (if nav.replayIndex = nav.lastRightStep then _
      else _ : EStateM AvlError ProverNav ℤ) nav = _
  by_cases hlast : nav.replayIndex = nav.lastRightStep
  · rw [if_pos hlast]
    exact .inl ⟨0, rfl, .inl hlast⟩
  · rw [if_neg hlast]
    cases hbyte : directionsByte nav.directions nav.replayIndex with
    | none => exact .inr rfl
    | some byte =>
      rw [directionsByte] at hbyte
      split at hbyte
      · cases hbyte
      · have hlt := (List.getElem?_eq_some_iff.1 hbyte).1
        refine .inl ⟨if byte.toNat.testBit (nav.replayIndex % 8).toNat then -1 else 1, ?_,
          .inr (by omega)⟩
        simp only
        split <;> rfl

/-- A replayed step, where the bit is recorded. -/
theorem proverReplayComparison_ok (h : Packs nav.directions bits) {i : ℕ}
    (hi : nav.replayIndex = i) (hlt : i < bits.length) :
    proverReplayComparison nav = .ok (if (i : ℤ) = nav.lastRightStep then 0
        else if bits.getD i false then -1 else 1)
      { nav with replayIndex := wrapInt (i + 1 : ℕ) } := by
  have hbyte : i / 8 < nav.directions.length := by
    rw [h.length]
    omega
  have hbit : nav.directions[i / 8].toNat.testBit (i % 8) = bits.getD i false := by
    rw [← h.bit, bitAt, List.getD_eq_getElem _ _ hbyte]
  show (if nav.replayIndex = nav.lastRightStep then _ else _ : EStateM AvlError ProverNav ℤ) nav = _
  rw [← hbit, hi, Nat.cast_add, Nat.cast_one]
  split
  · rfl
  · rw [directionsByte_natCast, List.getElem?_eq_getElem hbyte, toNat_emod_eight]
    simp only
    split <;> rfl

/-- **The replay of the prover** gives the comparisons on its way. -/
theorem replays_prover (path : List Bool) (hpacks : Packs nav.directions (bits ++ path))
    (hroom : bits.length + path.length ≤ 2 ^ 31) (hreplay : nav.replayIndex = wrapInt bits.length)
    (hlast : false ∉ path ∧ nav.lastRightStep < bits.length ∨ ∃ pre post,
      path = pre ++ false :: post ∧ false ∉ post
        ∧ nav.lastRightStep = ((bits.length + pre.length : ℕ) : ℤ)) :
    Replays proverNavigation nav (replayOf path) := by
  induction path generalizing nav bits with
  | nil => trivial
  | cons d path ih =>
    rw [List.length_cons] at hroom
    have hlt : bits.length < (bits ++ d :: path).length := by
      rw [List.length_append, List.length_cons]
      omega
    have hbit : (bits ++ d :: path).getD bits.length false = d := by
      rw [List.getD_append_right _ _ _ _ (le_refl _), Nat.sub_self]
      rfl
    have hcount : wrapInt bits.length = bits.length :=
      wrapInt_of_lt (Int.natCast_nonneg _) (by omega)
    have hstep := proverReplayComparison_ok hpacks (hreplay.trans hcount) hlt
    rw [hbit] at hstep
    have hlen : (bits ++ [d]).length = bits.length + 1 := by simp
    have hrest : (false ∉ path ∧ nav.lastRightStep < (bits ++ [d]).length ∨ ∃ pre post,
        path = pre ++ false :: post ∧ false ∉ post
          ∧ nav.lastRightStep = (((bits ++ [d]).length + pre.length : ℕ) : ℤ)) →
        Replays proverNavigation { nav with replayIndex := wrapInt (bits.length + 1 : ℕ) }
          (replayOf path) := by
      refine @ih { nav with replayIndex := wrapInt (bits.length + 1 : ℕ) } (bits ++ [d]) ?_ ?_ ?_
      · rwa [List.append_assoc, List.singleton_append]
      · omega
      · rw [hlen]
    rcases hlast with ⟨hleft, hpast⟩ | ⟨pre, post, hsplit, hpost, hat⟩
    · obtain rfl : d = true := by
        cases d with
        | true => rfl
        | false => exact absurd (List.mem_cons_self ..) hleft
      refine ⟨_, ?_, hrest (.inl ⟨fun h => hleft (List.mem_cons_of_mem _ h), by omega⟩)⟩
      rw [if_neg (by omega), if_pos rfl] at hstep
      exact hstep
    · cases pre with
      | nil =>
        obtain ⟨rfl, rfl⟩ := List.cons.inj hsplit
        have hmem : replayOf (false :: path) = .eq :: replayOf path := by
          rw [replayOf, if_neg hpost]
        rw [hmem]
        refine ⟨_, ?_, hrest (.inl ⟨hpost, by simp at hat; omega⟩)⟩
        rw [if_pos (by simp at hat; omega)] at hstep
        exact hstep
      | cons d' pre =>
        obtain ⟨rfl, rfl⟩ := List.cons.inj hsplit
        have hnext := hrest (.inr ⟨pre, post, rfl, hpost, by simp at hat ⊢; omega⟩)
        rw [if_neg (by simp at hat; omega)] at hstep
        cases d with
        | true => exact ⟨_, hstep, hnext⟩
        | false =>
          have hmem : replayOf (false :: (pre ++ false :: post))
              = .gt :: replayOf (pre ++ false :: post) := by
            rw [replayOf, if_pos (by simp)]
          show Replays proverNavigation nav (replayOf (false :: (pre ++ false :: post)))
          rw [hmem]
          exact ⟨_, hstep, hnext⟩

/-- The comparisons on the way to a key that is met. -/
theorem replayOf_searchPath {key : ADKey} {t : Tree} (hmeets : meets key t = true) :
    ∃ more, replayOf (searchPath key false t) = cmpPath key t ++ more := by
  induction t with
  | stub d => cases hmeets
  | leaf tag k v n => cases hmeets
  | node tag k l r b ihl ihr =>
    rw [meets] at hmeets
    rw [searchPath, cmpPath]
    rcases lt_trichotomy key k with hlt | rfl | hgt
    · rw [if_pos hlt] at hmeets
      obtain ⟨more, hl⟩ := ihl hmeets
      exact ⟨more, by rw [if_pos hlt, if_pos hlt, replayOf, hl]; rfl⟩
    · refine ⟨replayOf (searchPath key true r), ?_⟩
      rw [if_neg (lt_irrefl _), if_pos rfl, if_neg (lt_irrefl _), if_pos rfl, replayOf,
        if_neg (false_notMem_searchPath_true key r)]
      rfl
    · rw [if_neg hgt.not_gt, if_neg hgt.ne'] at hmeets
      obtain ⟨more, hr⟩ := ihr hmeets
      refine ⟨more, ?_⟩
      rw [if_neg hgt.not_gt, if_neg hgt.ne', if_neg hgt.not_gt, if_neg hgt.ne', replayOf, hr,
        if_pos (false_mem_searchPath hmeets)]
      rfl

/-- The bytes of the first bits are left. -/
theorem trimEnd_of_packs (h : Packs nav.directions (bits ++ more))
    (hroom : bits.length + 7 < 2 ^ 31) (hlen : (bits ++ more).length < 2 ^ 31) :
    BatchAVLProver.trimEnd nav.directions
        (wrapInt (nav.directions.length - (wrapInt (bits.length + 7)).tdiv 8))
      = nav.directions.take ((bits.length + 7) / 8) := by
  have hbytes := h.length
  have hold : (wrapInt (bits.length + 7)).tdiv 8 = (((bits.length + 7) / 8 : ℕ) : ℤ) := by
    have hsum := wrapInt_add (b := 7) hroom
    rw [Nat.cast_ofNat] at hsum
    rw [hsum, Int.natCast_tdiv_eq_ediv]
    omega
  rw [List.length_append] at hbytes hlen
  have hrest : ((nav.directions.length : ℤ) - ((bits.length + 7) / 8 : ℕ)).toNat
      = nav.directions.length - (bits.length + 7) / 8 := by
    omega
  rw [BatchAVLProver.trimEnd, hold, wrapInt_of_lt (by omega) (by omega), hrest,
    Nat.sub_sub_self (by omega)]

/-- The bits of a way that failed are taken back. -/
theorem undoDirections_ok (h : Packs nav.directions (bits ++ more))
    (hreplay : nav.replayIndex = bits.length) (hroom : bits.length + 7 < 2 ^ 31)
    (hlen : (bits ++ more).length < 2 ^ 31) :
    ∃ nav', BatchAVLProver.undoDirections nav = .ok () nav' ∧ nav'.Records bits
      ∧ nav'.found = nav.found := by
  have hcount : nav.replayIndex = wrapInt bits.length := by
    rw [hreplay, wrapInt_of_lt (Int.natCast_nonneg _) (by omega)]
  have hpacks := h.take_mask rfl
  have htrim := trimEnd_of_packs h hroom hlen
  rw [← hreplay] at htrim
  have htake : bits.length % 8 > 0 → nav.directions.take ((bits.length + 7) / 8) ≠ [] := by
    intro hpad hnil
    have hbytes := h.length
    rw [List.length_append] at hbytes
    have := congrArg List.length hnil
    rw [List.length_take, List.length_nil] at this
    omega
  set nav' : ProverNav := { nav with
    directions := nav.directions.take ((bits.length + 7) / 8)
    directionsBitLength := nav.replayIndex } with hnav'
  have hrun : BatchAVLProver.undoDirections nav
      = (if nav.replayIndex % 8 > 0 then
          if nav'.directions = [] then throw .indexOutOfBounds
          else modify fun n => { n with
            directions := nav'.directions.modify (nav'.directions.length - 1) fun byte =>
              UInt8.ofNat (byte.toNat &&& (2 ^ (nav.replayIndex % 8).toNat - 1)) }
        else pure () : EStateM AvlError ProverNav Unit) nav' := by
    rw [hnav', ← htrim]
    rfl
  have hmod : (nav.replayIndex % 8).toNat = bits.length % 8 := by
    rw [hreplay, toNat_emod_eight]
  rw [← hmod] at hpacks htake
  rw [hrun]
  by_cases hpad : (nav.replayIndex % 8).toNat > 0
  · rw [if_pos hpad] at hpacks
    rw [if_pos (by omega), if_neg (htake hpad)]
    exact ⟨_, rfl, ⟨hpacks, hcount, by omega⟩, rfl⟩
  · rw [if_neg hpad] at hpacks
    rw [if_neg (by omega)]
    exact ⟨_, rfl, ⟨hpacks, hcount, by omega⟩, rfl⟩

end

end Sparkz.Avl
