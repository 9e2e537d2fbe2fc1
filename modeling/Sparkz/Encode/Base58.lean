import Sparkz.Encode.BytesEncoder
import Sparkz.Lib.Radix

/-!
# Base 58

The custom form of base 58 in which addresses are written.  Arrays, strings and big numbers have
a largest size here, as they have in the code.

* `encode`, `decode` — the two directions; `toByteArray` is the conversion of a big number
  to bytes, which may put a sign byte in front.
* `encode_eq`, `decode_eq` — both change the base of a word of digits and keep its leading
  zeros, while the numbers are in the range of a `BigInteger`.
* `inRange_pow_iff` — how many characters may be read.
* `base58_codec` — which arrays are read back, and which strings are read;
  `not_base58_codec` — an array and a string that are too long.
-/

namespace Sparkz.Base58

open Lib Lib.Radix

/-- `Alphabet`. -/
def alphabet : List UInt16 :=
  codeUnits "123456789ABCDEFGHJKLMNPQRSTUVWXYZabcdefghijkmnopqrstuvwxyz"

/-- The places of the characters from `'1'` to `'z'` in the alphabet. -/
def decodeTable : List ℤ := [
  0, 1, 2, 3, 4, 5, 6, 7, 8, -1, -1, -1, -1, -1, -1, -1, 9, 10, 11, 12, 13, 14, 15, 16, -1, 17, 18,
  19, 20, 21, -1, 22, 23, 24, 25, 26, 27, 28, 29, 30, 31, 32, -1, -1, -1, -1, -1, -1, 33, 34, 35,
  36, 37, 38, 39, 40, 41, 42, 43, -1, 44, 45, 46, 47, 48, 49, 50, 51, 52, 53, 54, 55, 56, 57]

/-- `Base`. -/
def base : ℕ := 58

/-- What the codec throws. -/
inductive Thrown
  /-- `ArithmeticException("BigInteger would overflow supported range")`. -/
  | arithmetic
  /-- `OutOfMemoryError`, of a string that grows beyond the longest one. -/
  | outOfMemory
  /-- `NegativeArraySizeException`. -/
  | negativeArraySize
  /-- `AssertionError`, of a failed `ensuring`. -/
  | assertion (message : String)

/-- `Int.MaxValue`, the largest `bitLength`. -/
def maxBits : ℕ := 2 ^ 31 - 1

/-- What a `BigInteger` can hold of the nonnegative numbers: those whose `bitLength` is an
`Int`. -/
def InRange (n : ℕ) : Prop := n.size ≤ maxBits

instance (n : ℕ) : Decidable (InRange n) := inferInstanceAs (Decidable (_ ≤ _))

/-- A computed number as a `BigInteger`. -/
def checkRange (n : ℕ) : Except Thrown ℕ := if InRange n then .ok n else .error .arithmetic

/-- The string of the given characters, while there is one of that length. -/
def build (s : List UInt16) : Except Thrown (Sized UInt16) :=
  if h : s.length < 2 ^ 31 then .ok ⟨s, h⟩ else .error .outOfMemory

theorem length_emptyString : ([] : List UInt16).length < 2 ^ 31 := Nat.two_pow_pos 31

/-- The string before any character. -/
def emptyString : Sized UInt16 := ⟨[], length_emptyString⟩

/-- `s.insert(0, c)`. -/
def insert (c : UInt16) (s : Sized UInt16) : Except Thrown (Sized UInt16) := build (c :: s.items)

/-- A character of the alphabet; the code asks for those at places below `base` only. -/
def charAt (i : ℕ) : UInt16 := alphabet.getD i 0

theorem div_base_lt {bi : ℕ} (h : base ≤ bi) : bi / base < bi :=
  Nat.div_lt_self (lt_of_lt_of_le (by decide) h) (by decide)

/-- The loop of `encode`: the digits of a positive number, put in front of `s`. -/
def encodeLoop (bi : ℕ) (s : Sized UInt16) : Except Thrown (Sized UInt16) :=
  if base ≤ bi then (insert (charAt (bi % base)) s).bind (encodeLoop (bi / base))
  else insert (charAt bi) s
termination_by bi
decreasing_by exact div_base_lt ‹_›

/-- `encode(input)`. -/
def encode (input : Sized UInt8) : Except Thrown (Sized UInt16) := do
  let bi ← checkRange (ofBytes input.items)
  let s ← (if 0 < bi then encodeLoop bi emptyString else .ok emptyString)
  (input.items.takeWhile (· == 0)).foldlM (fun ss _ => insert (charAt 0) ss) s

/-- The bytes of a nonnegative number in two's complement, as few as hold it and its sign. -/
def toByteArray (n : ℕ) : List UInt8 := toBytes (n.size / 8 + 1) n

/-- The place of a character in the alphabet, or `-1`. The last place that is looked up is that
of the last entry. -/
def toBase58 (c : UInt16) : ℤ :=
  let x := c.toNat
  if x < 49 then -1 else if x ≤ 122 then decodeTable.getD (x - 49) (-1) else -1

/-- The text of a failed `ensuring`. -/
def wrongChar : String := "assertion failed: Wrong char in Base58 string"

/-- One character, with the power of the base at its place. -/
def decodeChar (ch : UInt16) : ℕ × ℕ → Except Thrown (ℕ × ℕ) := fun (bi, k) => do
  let alphaIndex := toBase58 ch
  if alphaIndex ≠ -1 then
    let digit ← checkRange (alphaIndex.toNat * k)
    let bi ← checkRange (bi + digit)
    let k ← checkRange (k * base)
    return (bi, k)
  else .error (.assertion wrongChar)

/-- Works backwards through the string. -/
def decodeToBigInteger (input : Sized UInt16) : Except Thrown ℕ :=
  (input.items.foldrM decodeChar (0, 1)).map Prod.fst

/-- Whether the first byte is there for the sign only, as the number of bytes to drop. -/
def stripSignBytePos (bytes : List UInt8) : ℕ :=
  let stripSignByte := 1 < bytes.length ∧ bytes.getD 0 0 = 0 ∧ (bytes.getD 1 0).toInt8 < 0
  if stripSignByte then 1 else 0

/-- A new array, whose length is computed in `Int`s: two lengths of arrays. -/
def newArray (bytes : List UInt8) : Except Thrown (Sized UInt8) :=
  if h : bytes.length < 2 ^ 31 then .ok ⟨bytes, h⟩ else .error .negativeArraySize

/-- `decode(input)`. -/
def decode (input : Sized UInt16) : Except Thrown (Sized UInt8) := do
  let decoded ← decodeToBigInteger input
  let bytes := if decoded = 0 then [] else toByteArray decoded
  let leadingZeros := (input.items.takeWhile (· == charAt 0)).length
  newArray (List.replicate leadingZeros 0 ++ bytes.drop (stripSignBytePos bytes))

/-! ## Characters and digits -/

theorem alphabet_eq : alphabet = [
    49, 50, 51, 52, 53, 54, 55, 56, 57, 65, 66, 67, 68, 69, 70, 71, 72, 74, 75, 76, 77, 78, 80,
    81, 82, 83, 84, 85, 86, 87, 88, 89, 90, 97, 98, 99, 100, 101, 102, 103, 104, 105, 106, 107, 109,
    110, 111, 112, 113, 114, 115, 116, 117, 118, 119, 120, 121, 122] :=
  codeUnits_ofList _

theorem length_alphabet : alphabet.length = 58 := by
  rw [alphabet_eq]
  rfl

theorem charAt_eq {d : ℕ} (h : d < 58) :
    ∃ hd : d < alphabet.length, charAt d = alphabet[d] :=
  ⟨h.trans_eq length_alphabet.symm, List.getD_eq_getElem _ _ (h.trans_eq length_alphabet.symm)⟩

theorem alphabet_all : alphabet.zipIdx.all (fun (c, i) => decide (toBase58 c = i)) = true := by
  rw [alphabet_eq]
  decide +kernel

theorem toBase58_charAt {d : ℕ} (h : d < 58) : toBase58 (charAt d) = d := by
  obtain ⟨hd, hc⟩ := charAt_eq h
  have hmem : (charAt d, d) ∈ alphabet.zipIdx := by
    rw [List.mk_mem_zipIdx_iff_getElem?, hc]
    exact List.getElem?_eq_getElem hd
  exact of_decide_eq_true (List.all_eq_true.1 alphabet_all _ hmem)

theorem decodeTable_all : decodeTable.zipIdx.all (fun (v, i) => decide (v = -1
    ∨ v.toNat < 58 ∧ charAt v.toNat = UInt16.ofNat (i + 49))) = true := by
  simp only [charAt, alphabet_eq]
  decide +kernel

/-- What an entry of the table says: no character of the alphabet, or the place of one. -/
theorem decodeTable_spec {n : ℕ} (h : n < 74) : decodeTable.getD n (-1) = -1
    ∨ (decodeTable.getD n (-1)).toNat < 58
      ∧ charAt (decodeTable.getD n (-1)).toNat = UInt16.ofNat (n + 49) := by
  have hmem : (decodeTable.getD n (-1), n) ∈ decodeTable.zipIdx := by
    rw [List.mk_mem_zipIdx_iff_getElem?, List.getD_eq_getElem _ _ h]
    exact List.getElem?_eq_getElem h
  exact of_decide_eq_true (List.all_eq_true.1 decodeTable_all _ hmem)

/-- Of the digits, zero alone has the character of zero. -/
theorem charAt_beq {d : ℕ} (h : d < 58) : (charAt d == charAt 0) = (d == 0) := by
  rw [Bool.eq_iff_iff, beq_iff_eq, beq_iff_eq]
  refine ⟨fun heq => ?_, fun heq => by rw [heq]⟩
  have hplace := toBase58_charAt h
  rw [heq, toBase58_charAt (by norm_num)] at hplace
  exact_mod_cast hplace.symm

theorem charAt_mem {d : ℕ} (h : d < 58) : charAt d ∈ alphabet := by
  obtain ⟨hd, hc⟩ := charAt_eq h
  rw [hc]
  exact List.getElem_mem hd

theorem exists_charAt {c : UInt16} (h : c ∈ alphabet) : ∃ d < 58, charAt d = c := by
  obtain ⟨d, hd, hc⟩ := List.mem_iff_getElem.1 h
  refine ⟨d, hd.trans_eq length_alphabet, ?_⟩
  rw [charAt, List.getD_eq_getElem _ _ hd, hc]

/-- What is looked up as no character is none of the alphabet. -/
theorem notMem_of_toBase58 {c : UInt16} (h : toBase58 c = -1) : c ∉ alphabet := by
  intro hmem
  obtain ⟨d, hd, rfl⟩ := exists_charAt hmem
  have hplace := toBase58_charAt hd
  omega

/-- A character is either none of the alphabet, or the character of a digit. -/
theorem toBase58_cases (c : UInt16) :
    (c ∉ alphabet ∧ toBase58 c = -1) ∨ ∃ d < 58, charAt d = c := by
  by_cases hnone : toBase58 c = -1
  · exact .inl ⟨notMem_of_toBase58 hnone, hnone⟩
  by_cases hlow : c.toNat < 49
  · exact absurd (if_pos hlow) hnone
  by_cases hhigh : c.toNat ≤ 122
  · have hlook : toBase58 c = decodeTable.getD (c.toNat - 49) (-1) := by
      rw [toBase58]
      simp only [if_neg hlow, if_pos hhigh]
    have hspec := decodeTable_spec (show c.toNat - 49 < 74 by omega)
    simp only [← hlook, Nat.sub_add_cancel (not_lt.1 hlow), UInt16.ofNat_toNat] at hspec
    exact .inr ⟨_, hspec.resolve_left hnone⟩
  · refine absurd ?_ hnone
    rw [toBase58]
    simp only [if_neg hlow, if_neg hhigh]

/-- The strings over the alphabet are those of words of digits. -/
theorem exists_word {s : List UInt16} (h : ∀ c ∈ s, c ∈ alphabet) :
    ∃ w : List ℕ, (∀ d ∈ w, d < 58) ∧ w.map charAt = s := by
  induction s with
  | nil => exact ⟨[], by simp, rfl⟩
  | cons c s ih =>
    obtain ⟨w, hw, hs⟩ := ih fun e he => h e (List.mem_cons_of_mem c he)
    rcases toBase58_cases c with ⟨hmem, -⟩ | ⟨d, hd, hc⟩
    · exact absurd (h c List.mem_cons_self) hmem
    · exact ⟨d :: w, List.forall_mem_cons.2 ⟨hd, hw⟩, by rw [List.map_cons, hc, hs]⟩

/-! ## The range of a big number -/

theorem inRange_iff {n : ℕ} : InRange n ↔ n < 2 ^ maxBits := Nat.size_le

theorem InRange.mono {m n : ℕ} (h : InRange n) (hle : m ≤ n) : InRange m :=
  (Nat.size_le_size hle).trans h

/-- As many characters as `decode` can read. -/
def maxLength : ℕ := 366591091

/-- A bound on a large power, from bounds on smaller ones. -/
theorem pow_le_pow_of_blocks {a b p q r t : ℕ} (m : ℕ) (hblock : a ^ p ≤ b ^ q)
    (hrest : a ^ r ≤ b ^ t) : a ^ (p * m + r) ≤ b ^ (q * m + t) := by
  rw [pow_add, pow_add, pow_mul, pow_mul]
  exact Nat.mul_le_mul (Nat.pow_le_pow_left hblock m) hrest

theorem inRange_pow_maxLength : InRange (58 ^ maxLength) := by
  have hblock : (58 : ℕ) ^ 15681 ≤ 2 ^ 91859 := by decide +kernel
  have hrest : (58 : ℕ) ^ 673 ≤ 2 ^ 3943 := by decide +kernel
  have hlen : maxLength = 15681 * 23378 + 673 := by norm_num [maxLength]
  have hbits : 91859 * 23378 + 3943 < maxBits := by norm_num [maxBits]
  have hle := pow_le_pow_of_blocks 23378 hblock hrest
  rw [← hlen] at hle
  have hlt := pow_lt_pow_right₀ (show (1 : ℕ) < 2 by norm_num) hbits
  exact inRange_iff.2 (lt_of_le_of_lt hle hlt)

theorem not_inRange_pow_succ : ¬ InRange (58 ^ (maxLength + 1)) := by
  have hblock : (2 : ℕ) ^ 304533 ≤ 58 ^ 51986 := by decide +kernel
  have hrest : (2 : ℕ) ^ 221464 ≤ 58 ^ 37806 := by decide +kernel
  have hbits : maxBits = 304533 * 7051 + 221464 := by norm_num [maxBits]
  have hlen : maxLength + 1 = 51986 * 7051 + 37806 := by norm_num [maxLength]
  have hle := pow_le_pow_of_blocks 7051 hblock hrest
  rw [← hbits, ← hlen] at hle
  exact fun hrange => absurd (inRange_iff.1 hrange) (not_lt.2 hle)

/-- The powers of the base that are in range. -/
theorem inRange_pow_iff {n : ℕ} : InRange (58 ^ n) ↔ n ≤ maxLength := by
  constructor
  · intro h
    by_contra hlong
    exact not_inRange_pow_succ (h.mono (Nat.pow_le_pow_right (by norm_num) (not_le.1 hlong)))
  · intro h
    exact inRange_pow_maxLength.mono (Nat.pow_le_pow_right (by norm_num) h)

/-! ## From bytes to a string -/

/-- A string that is built on from a shorter one. -/
theorem build_bind {l l' : List UInt16} {f : Sized UInt16 → Except Thrown (Sized UInt16)}
    (hle : l.length ≤ l'.length) (hf : ∀ s, s.items = l → f s = build l') :
    (build l).bind f = build l' := by
  rw [build]
  split
  · exact hf _ rfl
  · rename_i hlong
    rw [build, dif_neg (fun h => hlong (hle.trans_lt h))]
    rfl

theorem build_items (s : Sized UInt16) : build s.items = .ok s := dif_pos s.length_lt

theorem build_eq_ok {l : List UInt16} {s : Sized UInt16} (h : build l = .ok s) : s.items = l := by
  rw [build] at h
  split at h
  · cases h
    rfl
  · cases h

theorem encodeLoop_eq {bi : ℕ} (h : 0 < bi) (s : Sized UInt16) :
    encodeLoop bi s = build ((Nat.digits 58 bi).reverse.map charAt ++ s.items) := by
  induction bi using Nat.strong_induction_on generalizing s with
  | h bi ih =>
    rw [encodeLoop]
    split
    · rename_i hle
      have hpos : 0 < bi / base := Nat.div_pos hle (by decide)
      have hdigits : Nat.digits 58 bi = bi % 58 :: Nat.digits 58 (bi / 58) :=
        Nat.digits_def' (by norm_num) h
      rw [hdigits, List.reverse_cons, List.map_append, List.append_assoc]
      refine build_bind (by simp) fun s' hs' => ?_
      rw [ih _ (div_base_lt hle) hpos, hs']
      rfl
    · rename_i hlt
      rw [Nat.digits_of_lt 58 bi h.ne' (not_le.1 hlt)]
      rfl

theorem foldlM_insert {α : Type} (c : UInt16) (l : List α) (s : Sized UInt16) :
    l.foldlM (fun ss _ => insert c ss) s = build (List.replicate l.length c ++ s.items) := by
  induction l generalizing s with
  | nil => exact (build_items s).symm
  | cons _ l ih =>
    rw [List.foldlM_cons, List.length_cons, List.replicate_succ', List.append_assoc]
    refine build_bind (by simp) fun s' hs' => ?_
    rw [ih, hs']
    rfl

/-- The zeros at the head of a word, seen through an encoding of its digits that tells
zero apart. -/
theorem length_takeWhile_map {α : Type} [BEq α] (f : ℕ → α) {w : List ℕ} {c : α}
    (h : ∀ d ∈ w, (f d == c) = (d == 0)) : ((w.map f).takeWhile (· == c)).length = zeros w := by
  induction w with
  | nil => rfl
  | cons d w ih =>
    have hw := ih fun e he => h e (List.mem_cons_of_mem d he)
    have hd := h d List.mem_cons_self
    by_cases hzero : d = 0
    · rw [hzero] at hd ⊢
      rw [List.map_cons, List.takeWhile_cons_of_pos (by rw [hd]; rfl), List.length_cons, hw]
      rfl
    · have hneg : (f d == c) = false := by rw [hd]; simpa using hzero
      rw [List.map_cons, List.takeWhile_cons_of_neg (by rw [hneg]; simp), zeros_cons_of_ne hzero]
      rfl

theorem zeros_ofByteString (b : List UInt8) :
    zeros (ofByteString b) = (b.takeWhile (· == 0)).length := by
  have h := length_takeWhile_map UInt8.ofNat (w := ofByteString b) (c := 0) fun d hd => ?_
  · rw [map_ofByteString] at h
    exact h.symm
  · have hlt := ofByteString_lt b d hd
    rw [Bool.eq_iff_iff, beq_iff_eq, beq_iff_eq, ← UInt8.toNat_inj, UInt8.toNat_ofNat_of_lt' hlt]
    rfl

/-- **Encoding** changes the base of the digits. -/
theorem encode_eq (input : Sized UInt8) :
    encode input = if InRange (ofBytes input.items)
      then build ((convert 256 58 (ofByteString input.items)).map charAt)
      else .error .arithmetic := by
  have hdigits : (if 0 < ofBytes input.items then encodeLoop (ofBytes input.items) emptyString
        else .ok emptyString)
      = build ((Nat.digits 58 (ofBytes input.items)).reverse.map charAt) := by
    split
    · rename_i hpos
      rw [encodeLoop_eq hpos]
      exact congrArg build (List.append_nil _)
    · rename_i hzero
      rw [Nat.eq_zero_of_not_pos hzero, Nat.digits_zero]
      exact (build_items emptyString).symm
  have hword : (convert 256 58 (ofByteString input.items)).map charAt
      = List.replicate (zeros (ofByteString input.items)) (charAt 0)
        ++ (Nat.digits 58 (ofBytes input.items)).reverse.map charAt := by
    rw [convert, numeral, List.map_append, List.map_replicate, ← ofBytes_eq]
  rw [encode, checkRange]
  split
  · change Except.bind (if 0 < ofBytes input.items then _ else _) _ = _
    rw [hdigits, hword]
    refine build_bind (by simp) fun s hs => ?_
    rw [foldlM_insert, ← zeros_ofByteString, hs]
  · rfl

/-! ## From a string to bytes -/

theorem length_digits (n : ℕ) : (Nat.digits 256 n).length = (n.size + 7) / 8 := by
  have hle (k : ℕ) : (Nat.digits 256 n).length ≤ k ↔ n.size ≤ 8 * k := by
    rw [Nat.digits_length_le_iff (by norm_num), Nat.size_le, pow_mul]
    norm_num
  have hfirst := hle (Nat.digits 256 n).length
  have hsecond := hle ((n.size + 7) / 8)
  omega

/-- A byte with its high bit set is negative. -/
theorem toInt8_neg {x : UInt8} (h : 128 ≤ x.toNat) : x.toInt8 < 0 := by
  have hint : x.toInt8.toInt = x.toBitVec.toInt := rfl
  have hlt := x.toNat_lt
  have hnat : x.toNat = x.toBitVec.toNat := rfl
  rw [Int8.lt_iff_toInt_lt, hint, BitVec.toInt_eq_toNat_cond, if_neg (by omega)]
  show ((x.toBitVec.toNat : ℤ) - 2 ^ 8 : ℤ) < 0
  omega

theorem stripSignBytePos_zero_cons {x : UInt8} (h : 128 ≤ x.toNat) (rest : List UInt8) :
    stripSignBytePos (0 :: x :: rest) = 1 :=
  if_pos ⟨by simp, rfl, toInt8_neg h⟩

theorem stripSignBytePos_cons_of_ne {x : UInt8} (h : x ≠ 0) (rest : List UInt8) :
    stripSignBytePos (x :: rest) = 0 :=
  if_neg fun hstrip => h hstrip.2.1

/-- The conversion puts a sign byte in front exactly if it is then cut off. -/
theorem drop_stripSignBytePos {n : ℕ} (h : 0 < n) :
    (toByteArray n).drop (stripSignBytePos (toByteArray n)) = toBytes ((n.size + 7) / 8) n := by
  have hsize : 0 < n.size := Nat.size_pos.2 h
  obtain ⟨m, hm⟩ : ∃ m, (n.size + 7) / 8 = m + 1 := ⟨(n.size + 7) / 8 - 1, by omega⟩
  have hpow (k : ℕ) : 2 ^ (8 * k) = 256 ^ k := by rw [pow_mul]; norm_num
  have hbelow : n < 256 ^ (m + 1) := by
    rw [← hpow]
    exact Nat.size_le.1 (by omega)
  have hquot : n / 256 ^ m < 256 := by
    rw [Nat.div_lt_iff_lt_mul (by positivity), mul_comm, ← pow_succ]
    exact hbelow
  have htop : toBytes (m + 1) n = UInt8.ofNat (n / 256 ^ m) :: toBytes m (n % 256 ^ m) := rfl
  have hbyte : (UInt8.ofNat (n / 256 ^ m)).toNat = n / 256 ^ m := UInt8.toNat_ofNat_of_lt' hquot
  rw [hm, toByteArray]
  by_cases hfull : n.size % 8 = 0
  · -- All bits of the highest byte are taken, so the sign needs one more.
    have hlen : n.size / 8 + 1 = m + 1 + 1 := by omega
    have hhigh : 128 ≤ n / 256 ^ m := by
      rw [Nat.le_div_iff_mul_le (by positivity), ← hpow]
      have hpow' : 128 * 2 ^ (8 * m) = 2 ^ (8 * m + 7) := by rw [pow_add]; ring
      rw [hpow']
      exact Nat.lt_size.1 (by omega)
    have hbytes : toBytes (m + 1 + 1) n = 0 :: toBytes (m + 1) n := by
      rw [toBytes, Nat.div_eq_of_lt hbelow, Nat.mod_eq_of_lt hbelow]
      rfl
    rw [hlen, hbytes, htop, stripSignBytePos_zero_cons (by rwa [hbyte])]
    rfl
  · have hlen : n.size / 8 + 1 = m + 1 := by omega
    have hpos : 1 ≤ n / 256 ^ m := by
      rw [Nat.le_div_iff_mul_le (by positivity), ← hpow, one_mul]
      exact Nat.lt_size.1 (by omega)
    have hne : UInt8.ofNat (n / 256 ^ m) ≠ 0 := by
      intro hzero
      rw [hzero] at hbyte
      have : (0 : UInt8).toNat = 0 := rfl
      omega
    rw [hlen, htop, stripSignBytePos_cons_of_ne hne]
    rfl

theorem decoded_bytes (n : ℕ) :
    (if n = 0 then [] else toByteArray n).drop
        (stripSignBytePos (if n = 0 then [] else toByteArray n))
      = (Nat.digits 256 n).reverse.map UInt8.ofNat := by
  split
  · rename_i hzero
    rw [hzero, Nat.digits_zero]
    rfl
  · rename_i hne
    have hlt : n < 256 ^ (Nat.digits 256 n).length := Nat.lt_base_pow_length_digits (by norm_num)
    have hword := map_toBytes hlt
    rw [Nat.sub_self] at hword
    rw [drop_stripSignBytePos (Nat.pos_of_ne_zero hne), ← length_digits,
      ← map_ofByteString (toBytes _ n), hword]
    rfl

theorem decodeChar_charAt {d bi k : ℕ} (hd : d < 58) (hbi : bi < k) :
    decodeChar (charAt d) (bi, k)
      = if InRange (k * 58) then .ok (bi + d * k, k * 58) else .error .arithmetic := by
  have hplace := toBase58_charAt hd
  have hdigit : d * k ≤ k * 58 := by rw [mul_comm]; exact Nat.mul_le_mul_left k hd.le
  have hsum : bi + d * k ≤ k * 58 := by
    have hle : d * k ≤ 57 * k := Nat.mul_le_mul_right k (Nat.le_of_lt_succ hd)
    omega
  rw [decodeChar]
  simp only [hplace]
  rw [if_pos (by omega), Int.toNat_natCast]
  by_cases hrange : InRange (k * 58)
  · rw [checkRange, if_pos (hrange.mono hdigit)]
    show (checkRange (bi + d * k)).bind _ = _
    rw [checkRange, if_pos (hrange.mono hsum), if_pos hrange]
    show (checkRange (k * 58)).bind _ = _
    rw [checkRange, if_pos hrange]
    rfl
  · -- Whichever number is too large first, the error is the same.
    rw [if_neg hrange, checkRange]
    split
    · show (checkRange (bi + d * k)).bind _ = _
      rw [checkRange]
      split
      · show (checkRange (k * 58)).bind _ = _
        rw [checkRange, if_neg hrange]
        rfl
      · rfl
    · rfl

theorem decodeChar_error {c : UInt16} (h : c ∉ alphabet) (acc : ℕ × ℕ) :
    decodeChar c acc = .error (.assertion wrongChar) := by
  rcases toBase58_cases c with ⟨-, hplace⟩ | ⟨d, hd, rfl⟩
  · rw [decodeChar]
    simp only [hplace]
    rfl
  · exact absurd (charAt_mem hd) h

theorem foldrM_decodeChar {w : List ℕ} (h : ∀ d ∈ w, d < 58) :
    (w.map charAt).foldrM decodeChar (0, 1)
      = if InRange (58 ^ w.length) then .ok (value 58 w, 58 ^ w.length)
        else .error .arithmetic := by
  induction w with
  | nil =>
    have hone : InRange (58 ^ ([] : List ℕ).length) := inRange_pow_iff.2 (Nat.zero_le maxLength)
    rw [if_pos hone]
    rfl
  | cons d w ih =>
    have hw (e : ℕ) (he : e ∈ w) : e < 58 := h e (List.mem_cons_of_mem d he)
    rw [List.map_cons, List.foldrM_cons, ih hw, value_cons, List.length_cons, pow_succ,
      add_comm (d * _)]
    split
    · rw [← decodeChar_charAt (h d List.mem_cons_self) (value_lt (by norm_num) hw)]
      exact pure_bind _ _
    · rename_i hrange
      rw [if_neg fun hsucc => hrange (hsucc.mono (Nat.le_mul_of_pos_right _ (by norm_num)))]
      rfl

theorem foldrM_decodeChar_error {s : List UInt16} {c : UInt16} (hc : c ∈ s) (h : c ∉ alphabet) :
    ∃ e, s.foldrM decodeChar (0, 1) = .error e := by
  induction s with
  | nil => cases hc
  | cons c' s ih =>
    rw [List.foldrM_cons]
    cases hrest : s.foldrM decodeChar (0, 1) with
    | error e => exact ⟨e, rfl⟩
    | ok acc =>
      rcases List.mem_cons.1 hc with rfl | hmem
      · exact ⟨_, decodeChar_error h acc⟩
      · obtain ⟨e, he⟩ := ih hmem
        rw [he] at hrest
        cases hrest

theorem decodeToBigInteger_eq {s : Sized UInt16} {w : List ℕ} (hw : ∀ d ∈ w, d < 58)
    (hs : s.items = w.map charAt) :
    decodeToBigInteger s
      = if InRange (58 ^ w.length) then .ok (value 58 w) else .error .arithmetic := by
  rw [decodeToBigInteger, hs, foldrM_decodeChar hw]
  split <;> rfl

theorem newArray_eq {bytes : List UInt8} (h : bytes.length < 2 ^ 31) :
    newArray bytes = .ok ⟨bytes, h⟩ := dif_pos h

/-- **Decoding** changes the base of the digits back. -/
theorem decode_eq {s : Sized UInt16} {w : List ℕ} (hw : ∀ d ∈ w, d < 58)
    (hs : s.items = w.map charAt) (hrange : InRange (58 ^ w.length)) :
    ∃ b, decode s = .ok b ∧ b.items = (convert 58 256 w).map UInt8.ofNat := by
  have hdecoded : decodeToBigInteger s = .ok (value 58 w) := by
    rw [decodeToBigInteger_eq hw hs, if_pos hrange]
  have hzeros : (s.items.takeWhile (· == charAt 0)).length = zeros w := by
    rw [hs]
    exact length_takeWhile_map charAt fun d hd => charAt_beq (hw d hd)
  have hword : (convert 58 256 w).map UInt8.ofNat = List.replicate (zeros w) 0
      ++ (Nat.digits 256 (value 58 w)).reverse.map UInt8.ofNat := by
    rw [convert, numeral, List.map_append, List.map_replicate]
    rfl
  have hlen : ((convert 58 256 w).map UInt8.ofNat).length < 2 ^ 31 := by
    have hlt := s.length_lt
    rw [hs, List.length_map] at hlt
    rw [List.length_map]
    exact (length_convert_le (by norm_num) (by norm_num) hw).trans_lt hlt
  refine ⟨⟨_, hlen⟩, ?_, rfl⟩
  rw [← newArray_eq, decode, hdecoded, hword, ← decoded_bytes, ← hzeros]
  rfl

theorem decode_error {s : Sized UInt16} {w : List ℕ} (hw : ∀ d ∈ w, d < 58)
    (hs : s.items = w.map charAt) (hrange : ¬ InRange (58 ^ w.length)) :
    decode s = .error .arithmetic := by
  rw [decode, decodeToBigInteger_eq hw hs, if_neg hrange]
  rfl

/-! ## The codec -/

/-- How many characters an array is written with: one for each zero that it begins with, and
the digits of its number. -/
def width (b : List UInt8) : ℕ :=
  (b.takeWhile (· == 0)).length + (Nat.digits 58 (ofBytes b)).length

theorem length_convert (b : List UInt8) :
    (convert 256 58 (ofByteString b)).length = width b := by
  rw [convert, numeral, List.length_append, List.length_replicate, List.length_reverse,
    ← ofBytes_eq, zeros_ofByteString, width]

theorem encode_eq_ok {b : Sized UInt8} {s : Sized UInt16} (h : encode b = .ok s) :
    s.items = (convert 256 58 (ofByteString b.items)).map charAt := by
  rw [encode_eq] at h
  split at h
  · exact build_eq_ok h
  · cases h

/-- An array is read back exactly if its characters are not too many. -/
theorem decode_encode_iff (b : Sized UInt8) :
    (∃ s, encode b = .ok s ∧ decode s = .ok b) ↔ width b.items ≤ maxLength := by
  have hword := convert_lt (a := 256) (w := ofByteString b.items) (show 1 < 58 by norm_num)
  rw [← length_convert, ← inRange_pow_iff]
  constructor
  · rintro ⟨s, hs, hb⟩
    by_contra hrange
    rw [decode_error hword (encode_eq_ok hs) hrange] at hb
    cases hb
  · intro hrange
    have hbytes : InRange (ofBytes b.items) := by
      refine hrange.mono ?_
      rw [ofBytes_eq, ← value_convert 256 58]
      exact (value_lt (by norm_num) hword).le
    have hshort : ((convert 256 58 (ofByteString b.items)).map charAt).length < 2 ^ 31 := by
      have hle := inRange_pow_iff.1 hrange
      rw [List.length_map]
      exact hle.trans_lt (by rw [maxLength]; norm_num)
    obtain ⟨b', hb', hitems⟩ := decode_eq (s := ⟨_, hshort⟩) hword rfl hrange
    rw [convert_convert (by norm_num) (ofByteString_lt b.items), map_ofByteString] at hitems
    obtain rfl : b' = b := Sized.ext hitems
    refine ⟨⟨_, hshort⟩, ?_, hb'⟩
    rw [encode_eq, if_pos hbytes]
    exact dif_pos hshort

/-- Of an array of fewer than `2 ^ 28` bytes the characters are not too many. -/
theorem width_le {b : List UInt8} (h : b.length < 2 ^ 28) : width b ≤ maxLength := by
  have hbase : 58 ^ width b ≤ 2 ^ 6 * 256 ^ b.length := by
    have hzeros := zeros_le (ofByteString b)
    have hlt := value_lt_of_zeros (by norm_num) (ofByteString_lt b)
    rw [← ofBytes_eq, zeros_ofByteString, ofByteString, List.length_map] at hlt
    rw [zeros_ofByteString, ofByteString, List.length_map] at hzeros
    have hdigits : 58 ^ (Nat.digits 58 (ofBytes b)).length
        ≤ 2 ^ 6 * 256 ^ (b.length - (b.takeWhile (· == 0)).length) := by
      by_cases hzero : ofBytes b = 0
      · rw [hzero, Nat.digits_zero, List.length_nil, pow_zero]
        exact Nat.one_le_iff_ne_zero.2 (by positivity)
      · calc 58 ^ (Nat.digits 58 (ofBytes b)).length ≤ 58 * ofBytes b :=
              Nat.base_pow_length_digits_le' 56 _ hzero
          _ ≤ 2 ^ 6 * _ := Nat.mul_le_mul (by norm_num) hlt.le
    calc 58 ^ width b
        = 58 ^ (b.takeWhile (· == 0)).length * 58 ^ (Nat.digits 58 (ofBytes b)).length := by
          rw [width, pow_add]
      _ ≤ 256 ^ (b.takeWhile (· == 0)).length
          * (2 ^ 6 * 256 ^ (b.length - (b.takeWhile (· == 0)).length)) :=
          Nat.mul_le_mul (Nat.pow_le_pow_left (by norm_num) _) hdigits
      _ = 2 ^ 6 * 256 ^ b.length := by
          rw [mul_left_comm, ← pow_add, Nat.add_sub_cancel' hzeros]
  rw [← inRange_pow_iff, inRange_iff]
  calc 58 ^ width b ≤ 2 ^ 6 * 256 ^ b.length := hbase
    _ = 2 ^ (6 + 8 * b.length) := by rw [pow_add, pow_mul]; norm_num
    _ < 2 ^ maxBits := Nat.pow_lt_pow_right Nat.one_lt_two (by rw [maxBits]; omega)

/-- Exactly the strings over the alphabet are read that are not too long. -/
theorem decode_isOk_iff (s : Sized UInt16) :
    (∃ b, decode s = .ok b) ↔ (∀ c ∈ s.items, c ∈ alphabet) ∧ s.items.length ≤ maxLength := by
  constructor
  · rintro ⟨b, hb⟩
    have hmem : ∀ c ∈ s.items, c ∈ alphabet := by
      intro c hc
      by_contra hmem
      obtain ⟨e, he⟩ := foldrM_decodeChar_error hc hmem
      rw [decode, decodeToBigInteger, he] at hb
      cases hb
    obtain ⟨w, hw, hs⟩ := exists_word hmem
    refine ⟨hmem, ?_⟩
    rw [← hs, List.length_map, ← inRange_pow_iff]
    by_contra hrange
    rw [decode_error hw hs.symm hrange] at hb
    cases hb
  · rintro ⟨hmem, hlen⟩
    obtain ⟨w, hw, hs⟩ := exists_word hmem
    rw [← hs, List.length_map, ← inRange_pow_iff] at hlen
    obtain ⟨b, hb, -⟩ := decode_eq hw hs.symm hlen
    exact ⟨b, hb⟩

/-- What a string is read as is written as that string. -/
theorem encode_of_decode {s : Sized UInt16} {b : Sized UInt8} (h : decode s = .ok b) :
    encode b = .ok s := by
  obtain ⟨hmem, hlen⟩ := (decode_isOk_iff s).1 ⟨b, h⟩
  obtain ⟨w, hw, hs⟩ := exists_word hmem
  rw [← hs, List.length_map, ← inRange_pow_iff] at hlen
  obtain ⟨b', hb', hitems⟩ := decode_eq hw hs.symm hlen
  obtain rfl : b' = b := Except.ok.inj (hb'.symm.trans h)
  have hbytes : ofBytes b'.items = value 58 w := by
    rw [ofBytes_eq, hitems, ofByteString_map (convert_lt (by norm_num)), value_convert]
  rw [encode_eq, hbytes, if_pos (hlen.mono (value_lt (by norm_num) hw).le), hitems,
    ofByteString_map (convert_lt (by norm_num)), convert_convert (by norm_num) hw, hs]
  exact build_items s

/-- The number of an array whose first bit is set. -/
theorem le_ofBytes_cons {x : UInt8} (b : List UInt8) (h : 128 ≤ x.toNat) :
    2 ^ (8 * b.length + 7) ≤ ofBytes (x :: b) := by
  rw [ofBytes_eq]
  change _ ≤ value 256 (x.toNat :: ofByteString b)
  rw [value_cons, ofByteString, List.length_map]
  calc 2 ^ (8 * b.length + 7) = 128 * 256 ^ b.length := by
        rw [pow_add, pow_mul, mul_comm]; norm_num
    _ ≤ x.toNat * 256 ^ b.length := Nat.mul_le_mul_right _ h
    _ ≤ _ := Nat.le_add_right _ _

/-- **Base 58** reads back exactly the arrays that are written with no more characters than a
`BigInteger` can take, among them all of fewer than `2 ^ 28` bytes; it reads exactly the strings
over its alphabet with no more characters, and writes what such a string is read as as that
string. -/
theorem base58_codec :
    (∀ b : Sized UInt8, (∃ s, encode b = .ok s ∧ decode s = .ok b)
      ↔ width b.items ≤ maxLength)
    ∧ (∀ b : Sized UInt8, b.items.length < 2 ^ 28 → width b.items ≤ maxLength)
    ∧ (∀ s : Sized UInt16, (∃ b, decode s = .ok b)
      ↔ (∀ c ∈ s.items, c ∈ alphabet) ∧ s.items.length ≤ maxLength)
    ∧ (∀ (s : Sized UInt16) (b : Sized UInt8), decode s = .ok b → encode b = .ok s) :=
  ⟨decode_encode_iff, fun _ => width_le, decode_isOk_iff, fun _ _ => encode_of_decode⟩

/-- An array of `2 ^ 28` bytes whose first bit is set has no number, and a string of ones that is
too long is not read. -/
theorem not_base58_codec :
    (¬ ∀ b : Sized UInt8, ∃ s, encode b = .ok s ∧ decode s = .ok b)
    ∧ ¬ ∀ s : Sized UInt16, (∃ b, decode s = .ok b) ↔ ∀ c ∈ s.items, c ∈ alphabet := by
  constructor
  · intro hall
    have hlen : (List.replicate (2 ^ 28) (255 : UInt8)).length < 2 ^ 31 := by
      rw [List.length_replicate]
      norm_num
    obtain ⟨s, hs, -⟩ := hall ⟨List.replicate (2 ^ 28) 255, hlen⟩
    have hrange : ¬ InRange (ofBytes (List.replicate (2 ^ 28) (255 : UInt8))) := by
      have hsize : List.replicate (2 ^ 28) (255 : UInt8) = 255 :: List.replicate (2 ^ 28 - 1) 255 :=
        List.replicate_succ
      have hbits : maxBits = 8 * (2 ^ 28 - 1) + 7 := by norm_num [maxBits]
      have hle := le_ofBytes_cons (List.replicate (2 ^ 28 - 1) 255) (show 128 ≤ (255 : UInt8).toNat
        by decide)
      rw [List.length_replicate, ← hbits, ← hsize] at hle
      exact fun h => absurd (inRange_iff.1 h) (not_lt.2 hle)
    rw [encode_eq, if_neg hrange] at hs
    cases hs
  · intro hall
    have hlen : (List.replicate (maxLength + 1) (charAt 0)).length < 2 ^ 31 := by
      rw [List.length_replicate, maxLength]
      norm_num
    have hmem : ∀ c ∈ List.replicate (maxLength + 1) (charAt 0), c ∈ alphabet := by
      intro c hc
      rw [List.eq_of_mem_replicate hc]
      exact charAt_mem (by norm_num)
    have hread := (decode_isOk_iff _).1 ((hall ⟨_, hlen⟩).2 hmem)
    have hle := hread.2
    rw [List.length_replicate] at hle
    omega

end Sparkz.Base58
