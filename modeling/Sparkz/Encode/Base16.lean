import Sparkz.Encode.BytesEncoder

/-!
# Base 16

Bytes as hexadecimal digits, through a table that is indexed by the code of a character.

* `hexIndex` — the table, as the code fills it; `hexIndex_spec` says what is in it.
* `encode`, `decode` — two digits for a byte; digits of either case are read.
* `lawful` — every byte string is read back, exactly the strings of an even number of digits
  are read, and they are written in lower case.
-/

namespace Sparkz.Base16

/-- `Alphabet`. -/
def alphabet : List UInt16 := codeUnits "0123456789abcdefABCDEF"

/-- The digits that are written. -/
def hexArray : List UInt16 := codeUnits "0123456789abcdef"

/-- `toUpper` of a letter in lower case. -/
def toUpper (c : UInt16) : UInt16 := c - 32

/-- The values of the characters: `-1` everywhere, but for the digits in either case. -/
def hexIndex : List Int8 :=
  let index := List.replicate 128 (-1)
  let index := hexArray.zipIdx.foldl (fun index (c, i) => index.set c.toNat (.ofNat i)) index
  (codeUnits "abcdef").foldl
    (fun index c => index.set (toUpper c).toNat (index.getD c.toNat (-1))) index

/-- A digit; the code asks for those below 16 only. -/
def hexDigit (i : ℕ) : UInt16 := hexArray.getD i 0

/-- The two digits of each byte. -/
def encode (input : List UInt8) : List UInt16 :=
  input.flatMap fun b =>
    let v := b.toNat
    [hexDigit (v >>> 4), hexDigit (v &&& 0x0F)]

/-- The text of the error. -/
def invalidCharacters : String := "invalid characters encountered in Hex data"

/-- The loop of `decode`, which takes two characters at a time. -/
def decodeLoop : List UInt16 → Except String (List UInt8)
  | c1 :: c2 :: rest =>
    if 0 < c1 ∧ c1 < 127 ∧ 0 < c2 ∧ c2 < 127 then
      let b1 := (hexIndex.getD c1.toNat (-1)).toInt32
      let b2 := (hexIndex.getD c2.toNat (-1)).toInt32
      if b1 ||| b2 < 0 then .error invalidCharacters
      else (decodeLoop rest).map fun out => (b1 <<< 4 ||| b2).toInt8.toUInt8 :: out
    else .error invalidCharacters
  | _ => .ok []

/-- `decode(input)`, with the text of its error. -/
def decode (input : List UInt16) : Except String (List UInt8) :=
  if input.length % 2 ≠ 0 then .error s!"invalid length {input.length} of Hex data"
  else decodeLoop input

/-- Base 16 as an encoder. -/
def encoder : BytesEncoder := ⟨alphabet, encode, decode⟩

/-! ## Digits -/

theorem alphabet_eq : alphabet = [
    48, 49, 50, 51, 52, 53, 54, 55, 56, 57, 97, 98, 99, 100, 101, 102, 65, 66, 67, 68, 69, 70] :=
  codeUnits_ofList _

theorem hexArray_eq : hexArray = [
    48, 49, 50, 51, 52, 53, 54, 55, 56, 57, 97, 98, 99, 100, 101, 102] :=
  codeUnits_ofList _

/-- The table when it has been filled. -/
theorem hexIndex_eq : hexIndex = List.replicate 48 (-1) ++ [0, 1, 2, 3, 4, 5, 6, 7, 8, 9]
    ++ List.replicate 7 (-1) ++ [10, 11, 12, 13, 14, 15] ++ List.replicate 26 (-1)
    ++ [10, 11, 12, 13, 14, 15] ++ List.replicate 25 (-1) := by
  have hletters : codeUnits "abcdef" = [97, 98, 99, 100, 101, 102] := codeUnits_ofList _
  rw [hexIndex, hexArray_eq, hletters]
  decide +kernel

/-- The character reads as the digit `i`, and is that digit in one of the two cases. -/
structure Reads (c : UInt16) (i : Fin 16) : Prop where
  pos : 0 < c
  lt : c < 127
  index : hexIndex.getD c.toNat (-1) = .ofNat i
  lowerCase : lowerCase c = hexDigit i

theorem hexIndex_all : hexIndex.zipIdx.all (fun (v, n) => decide (v = -1
    ∨ UInt16.ofNat n ∈ alphabet ∧ v.toNatClampNeg < 16 ∧ v = .ofNat v.toNatClampNeg
      ∧ lowerCase (.ofNat n) = hexDigit v.toNatClampNeg)) = true := by
  simp only [hexDigit, alphabet_eq, hexArray_eq, hexIndex_eq]
  decide +kernel

theorem length_hexIndex : hexIndex.length = 128 := by
  rw [hexIndex_eq]
  rfl

/-- What an entry of the table says about its character. -/
theorem hexIndex_spec {n : ℕ} (h : n < 128) : hexIndex.getD n (-1) = -1
    ∨ UInt16.ofNat n ∈ alphabet ∧ (hexIndex.getD n (-1)).toNatClampNeg < 16
      ∧ hexIndex.getD n (-1) = .ofNat (hexIndex.getD n (-1)).toNatClampNeg
      ∧ lowerCase (.ofNat n) = hexDigit (hexIndex.getD n (-1)).toNatClampNeg := by
  have hn := h.trans_eq length_hexIndex.symm
  have hmem : (hexIndex.getD n (-1), n) ∈ hexIndex.zipIdx := by
    rw [List.mem_zipIdx_iff_getElem?, List.getD_eq_getElem _ _ hn]
    exact List.getElem?_eq_getElem hn
  exact of_decide_eq_true (List.all_eq_true.1 hexIndex_all _ hmem)

theorem alphabet_all : alphabet.all (fun c =>
    decide (0 < c ∧ c < 127 ∧ hexIndex.getD c.toNat (-1) ≠ -1)) = true := by
  rw [alphabet_eq, hexIndex_eq]
  decide +kernel

theorem alphabet_range : ∀ c ∈ alphabet, 0 < c ∧ c < 127 ∧ hexIndex.getD c.toNat (-1) ≠ -1 :=
  fun c hc => of_decide_eq_true (List.all_eq_true.1 alphabet_all c hc)

/-- A character is either none of the alphabet, which the code sees by its range or in the
table, or it reads as a digit. -/
theorem char_cases (c : UInt16) :
    (c ∉ alphabet ∧ (0 < c ∧ c < 127 → hexIndex.getD c.toNat (-1) = -1))
      ∨ (c ∈ alphabet ∧ ∃ i, Reads c i) := by
  by_cases hc : c.toNat < 128
  · have hspec := hexIndex_spec hc
    simp only [UInt16.ofNat_toNat] at hspec
    rcases hspec with hindex | ⟨hmem, hdigit, hindex, hlower⟩
    · exact .inl ⟨fun hmem => (alphabet_range c hmem).2.2 hindex, fun _ => hindex⟩
    · obtain ⟨hpos, hlt, -⟩ := alphabet_range c hmem
      exact .inr ⟨hmem, ⟨_, hdigit⟩, hpos, hlt, hindex, hlower⟩
  · have hrange : ¬c < 127 := fun hlt => hc (by
      have := UInt16.lt_iff_toNat_lt.1 hlt
      have h127 : (127 : UInt16).toNat = 127 := rfl
      omega)
    exact .inl ⟨fun hmem => hrange (alphabet_range c hmem).2.1, fun h => absurd h.2 hrange⟩

theorem reads_of_mem {c : UInt16} (h : c ∈ alphabet) : ∃ i, Reads c i := by
  rcases char_cases c with ⟨hmem, -⟩ | ⟨-, hreads⟩
  · exact absurd h hmem
  · exact hreads

/-- A digit in lower case reads as itself. -/
theorem hexDigit_spec : ∀ i : Fin 16, hexDigit i ∈ alphabet ∧ 0 < hexDigit i ∧ hexDigit i < 127 ∧
    hexIndex.getD (hexDigit i).toNat (-1) = .ofNat i ∧ lowerCase (hexDigit i) = hexDigit i := by
  simp only [hexDigit, alphabet_eq, hexArray_eq, hexIndex_eq]
  decide +kernel

theorem reads_hexDigit (i : Fin 16) : Reads (hexDigit i) i :=
  ⟨(hexDigit_spec i).2.1, (hexDigit_spec i).2.2.1, (hexDigit_spec i).2.2.2.1,
    (hexDigit_spec i).2.2.2.2⟩

/-! ## Pairs of digits -/

/-- The byte of two digits, as the code puts it together. -/
theorem pair_spec : ∀ i j : Fin 16,
    0 ≤ ((Int8.ofNat i).toInt32 ||| (Int8.ofNat j).toInt32) ∧
    ((Int8.ofNat i).toInt32 <<< 4 ||| (Int8.ofNat j).toInt32).toInt8.toUInt8
      = UInt8.ofNat (16 * i + j) := by
  decide +kernel

/-- And as it takes it apart. -/
theorem encode_pair (i j : Fin 16) :
    encode [UInt8.ofNat (16 * i + j)] = [hexDigit i, hexDigit j] := by
  have hbyte : (UInt8.ofNat (16 * i + j)).toNat = 16 * i + j :=
    UInt8.toNat_ofNat_of_lt' (show 16 * (i : ℕ) + j < 256 by omega)
  have hhigh : (16 * i + j : ℕ) >>> 4 = i := by
    rw [Nat.shiftRight_eq_div_pow]
    omega
  have hlow : (16 * i + j : ℕ) &&& 0x0F = j := by
    rw [Nat.and_two_pow_sub_one_eq_mod _ 4]
    omega
  show [hexDigit ((UInt8.ofNat (16 * i + j)).toNat >>> 4),
    hexDigit ((UInt8.ofNat (16 * i + j)).toNat &&& 0x0F)] = _
  rw [hbyte, hhigh, hlow]

/-- Every byte has its two digits. -/
theorem exists_pair (b : UInt8) : ∃ i j : Fin 16, b = UInt8.ofNat (16 * i + j) := by
  have hlt := b.toNat_lt
  refine ⟨⟨b.toNat / 16, by omega⟩, ⟨b.toNat % 16, Nat.mod_lt _ (by norm_num)⟩, ?_⟩
  rw [Nat.div_add_mod, UInt8.ofNat_toNat]

theorem neg_or {x y : Int8} (h : x = -1 ∨ y = -1) : x.toInt32 ||| y.toInt32 < 0 := by
  have hneg : (-1 : Int8).toInt32 = -1 := by decide
  rcases h with rfl | rfl
  · rw [hneg, Int32.neg_one_or]
    decide
  · rw [hneg, Int32.or_neg_one]
    decide

variable {c1 c2 : UInt16} {rest s : List UInt16}

theorem decodeLoop_pair {i j : Fin 16} (h1 : Reads c1 i) (h2 : Reads c2 j) :
    decodeLoop (c1 :: c2 :: rest)
      = (decodeLoop rest).map (UInt8.ofNat (16 * i + j) :: ·) := by
  obtain ⟨hpos, hbyte⟩ := pair_spec i j
  rw [decodeLoop, if_pos ⟨h1.pos, h1.lt, h2.pos, h2.lt⟩]
  simp only [h1.index, h2.index, hbyte]
  rw [if_neg (Int32.not_lt.2 hpos)]

theorem decodeLoop_error (h : c1 ∉ alphabet ∨ c2 ∉ alphabet) :
    decodeLoop (c1 :: c2 :: rest) = .error invalidCharacters := by
  rw [decodeLoop]
  split
  · rename_i hrange
    have hneg : hexIndex.getD c1.toNat (-1) = -1 ∨ hexIndex.getD c2.toNat (-1) = -1 := by
      rcases h with h1 | h2
      · rcases char_cases c1 with ⟨-, hindex⟩ | ⟨hmem, -⟩
        · exact .inl (hindex ⟨hrange.1, hrange.2.1⟩)
        · exact absurd hmem h1
      · rcases char_cases c2 with ⟨-, hindex⟩ | ⟨hmem, -⟩
        · exact .inr (hindex hrange.2.2)
        · exact absurd hmem h2
    exact if_pos (neg_or hneg)
  · rfl

/-! ## The codec -/

theorem encode_cons (i j : Fin 16) (b : List UInt8) :
    encode (UInt8.ofNat (16 * i + j) :: b) = hexDigit i :: hexDigit j :: encode b := by
  have happend : encode (UInt8.ofNat (16 * i + j) :: b)
      = encode [UInt8.ofNat (16 * i + j)] ++ encode b := by
    rw [← List.singleton_append]
    exact List.flatMap_append
  rw [happend, encode_pair]
  rfl

theorem length_encode (b : List UInt8) : (encode b).length = 2 * b.length := by
  induction b with
  | nil => rfl
  | cons x b ih =>
    obtain ⟨i, j, rfl⟩ := exists_pair x
    rw [encode_cons, List.length_cons, List.length_cons, ih, List.length_cons]
    ring

theorem lt_of_mem_encode {b : List UInt8} {c : UInt16} (h : c ∈ encode b) : c < 127 := by
  induction b with
  | nil => cases h
  | cons x b ih =>
    obtain ⟨i, j, rfl⟩ := exists_pair x
    rw [encode_cons] at h
    rcases List.mem_cons.1 h with rfl | h
    · exact (reads_hexDigit i).lt
    · rcases List.mem_cons.1 h with rfl | h
      · exact (reads_hexDigit j).lt
      · exact ih h

theorem decodeLoop_encode (b : List UInt8) : decodeLoop (encode b) = .ok b := by
  induction b with
  | nil => rfl
  | cons x b ih =>
    obtain ⟨i, j, rfl⟩ := exists_pair x
    rw [encode_cons, decodeLoop_pair (reads_hexDigit i) (reads_hexDigit j), ih]
    rfl

theorem decode_encode (b : List UInt8) : decode (encode b) = .ok b := by
  rw [decode, if_neg (by rw [length_encode]; omega), decodeLoop_encode]

/-- On an even number of characters the loop succeeds for digits only, and what it returns
is written as these digits in lower case. -/
theorem decodeLoop_spec (s : List UInt16) (heven : s.length % 2 = 0) :
    (∃ b, decodeLoop s = .ok b ∧ encode b = s.map lowerCase ∧ ∀ c ∈ s, c ∈ alphabet)
      ∨ (decodeLoop s = .error invalidCharacters ∧ ∃ c ∈ s, c ∉ alphabet) := by
  induction s using List.twoStepInduction with
  | nil => exact .inl ⟨[], rfl, rfl, fun c hc => absurd hc List.not_mem_nil⟩
  | singleton c => simp at heven
  | cons_cons c1 c2 rest ih _ =>
    by_cases hpair : c1 ∈ alphabet ∧ c2 ∈ alphabet
    · obtain ⟨i, hi⟩ := reads_of_mem hpair.1
      obtain ⟨j, hj⟩ := reads_of_mem hpair.2
      have hrest : rest.length % 2 = 0 := by
        rw [List.length_cons, List.length_cons] at heven
        omega
      rw [decodeLoop_pair hi hj]
      rcases ih hrest with ⟨b, hb, hencode, hmem⟩ | ⟨herror, c, hc, hmem⟩
      · refine .inl ⟨UInt8.ofNat (16 * i + j) :: b, by rw [hb]; rfl, ?_, ?_⟩
        · rw [encode_cons, hencode, List.map_cons, List.map_cons, hi.lowerCase, hj.lowerCase]
        · exact List.forall_mem_cons.2 ⟨hpair.1, List.forall_mem_cons.2 ⟨hpair.2, hmem⟩⟩
      · exact .inr ⟨by rw [herror]; rfl, c, by simp [hc], hmem⟩
    · have hbad : c1 ∉ alphabet ∨ c2 ∉ alphabet := not_and_or.1 hpair
      refine .inr ⟨decodeLoop_error hbad, ?_⟩
      rcases hbad with h1 | h2
      · exact ⟨c1, by simp, h1⟩
      · exact ⟨c2, by simp, h2⟩

/-- Every byte string is read back, the strings of an even number of digits in either case are
read, and their bytes are written in lower case. -/
theorem lawful : encoder.Lawful (fun s => s.length % 2 = 0 ∧ ∀ c ∈ s, c ∈ alphabet)
    (·.map lowerCase) where
  decode_encode := decode_encode
  decode_iff s := by
    show (∃ b, decode s = .ok b) ↔ _
    rw [decode]
    split
    · rename_i hodd
      exact iff_of_false (fun ⟨_, h⟩ => by cases h) fun h => hodd h.1
    · rename_i heven
      rw [not_not] at heven
      rcases decodeLoop_spec s heven with ⟨b, hb, -, hmem⟩ | ⟨herror, c, hc, hmem⟩
      · exact iff_of_true ⟨b, hb⟩ ⟨heven, hmem⟩
      · exact iff_of_false (fun ⟨_, h⟩ => by rw [herror] at h; cases h) fun h => hmem (h.2 c hc)
  encode_decode s b h := by
    have hdecode : decode s = .ok b := h
    rw [decode] at hdecode
    split at hdecode
    · cases hdecode
    · rename_i heven
      rcases decodeLoop_spec s (not_not.1 heven) with ⟨b', hb', hencode, -⟩ | ⟨herror, -⟩
      · rw [hb'] at hdecode
        cases hdecode
        exact hencode
      · rw [herror] at hdecode
        cases hdecode

end Sparkz.Base16
