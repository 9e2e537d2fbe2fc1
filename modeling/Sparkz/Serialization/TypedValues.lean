import Mathlib
import Sparkz.Serialization.VLQ

/-!
# Typed values

What is written with the methods of `VLQWriter` is read back by the matching methods of
`VLQReader`.

* `putShort`, `putInt`, `putBoolean`, `putBits` — the methods of the writer that
  handshakes do not use.
* `Kind` — the pairs of a put and a get method, `Kind.Admits` — the values in range.
* `getULong_putULong`, `decode_encode_zigZagInt`, `getBits_putBits` and their likes —
  each method by itself.
* `getAll_putAll` — any sequence of values, `getAll_alike` — over any source;
  `length_putULong` — the size of a number.
-/

namespace Sparkz.Serialization

namespace VLQWriter

/-- `put(x)`. -/
def put (x : UInt8) : List UInt8 := [x]

/-- `putBoolean(x)`. -/
def putBoolean (x : Bool) : List UInt8 := put (if x then 0x01 else 0x00)

/-- `encodeZigZagInt(n)`: the sign bit is spread over the word. -/
def encodeZigZagInt (n : UInt32) : UInt32 := (n <<< 1) ^^^ ((0 : UInt32) - (n >>> 31))

/-- `putULong` of an `Int`, which is widened with its sign. -/
def putULongOfInt (n : UInt32) : List UInt8 := putULong n.toInt32.toInt64.toUInt64

/-- `putInt(x)`. -/
def putInt (x : UInt32) : List UInt8 := putULongOfInt (encodeZigZagInt x)

/-- `putShort(x)`: the short is widened with its sign. -/
def putShort (x : UInt16) : List UInt8 :=
  putULongOfInt (encodeZigZagInt x.toInt16.toInt32.toUInt32)

/-- `putBytes(xs)`. -/
def putBytes (xs : List UInt8) : List UInt8 := xs

/-- `putBits(xs)`: the number of bytes is computed on the `Int`. -/
def putBits (xs : List Bool) : Option (List UInt8) :=
  if xs = [] then some []
  else
    (BitSet.copyOf (BitSet.toByteArray xs) ((Int32.ofNat xs.length + 7) >>> 3).toInt).map putBytes

end VLQWriter

open VLQReader VLQWriter

/-! ## Numbers -/

theorem continued_bit (b : UInt8) : ((b &&& 0x7F) ||| 0x80) &&& 0x7F = b &&& 0x7F := by
  have hall : ∀ b : BitVec 8, ((b &&& 0x7F) ||| 0x80) &&& 0x7F = b &&& 0x7F := by decide
  exact UInt8.toBitVec_inj.1 (hall b.toBitVec)

theorem last_bit {b : UInt8} (h : b.toNat < 2 ^ 7) : b &&& 0x80 = 0 := by
  have hsmall : ∀ n < 2 ^ 7, n &&& (0x80 : UInt8).toNat = 0 := by decide
  apply UInt8.toNat_inj.1
  rw [UInt8.toNat_and]
  exact hsmall _ h

theorem toNat_payload (value : UInt64) :
    (value.toUInt8 &&& 0x7F).toUInt64.toNat = value.toNat % 2 ^ 7 := by
  rw [UInt8.toNat_toUInt64, UInt8.toNat_and, UInt64.toNat_toUInt8]
  show value.toNat % 2 ^ 8 &&& (2 ^ 7 - 1) = _
  rw [Nat.and_two_pow_sub_one_eq_mod, Nat.mod_mod_of_dvd _ (by decide)]

theorem toNat_shiftRight_seven (value : UInt64) : (value >>> 7).toNat = value.toNat / 2 ^ 7 := by
  rw [UInt64.toNat_shiftRight]
  exact Nat.shiftRight_eq_div_pow _ _

/-- The loop of the writer stops at the last seven bits. -/
theorem and_not_0x7F_iff (value : UInt64) : value &&& ~~~0x7F = 0 ↔ value.toNat < 2 ^ 7 := by
  refine ⟨fun h => ?_, and_not_0x7F⟩
  by_contra hlarge
  obtain ⟨i, hi, hbit⟩ := Nat.exists_ge_and_testBit_of_ge_two_pow (Nat.le_of_not_lt hlarge)
  have hlt : i < 64 := by
    by_contra hge
    have hpow : value.toNat < 2 ^ i :=
      lt_of_lt_of_le value.toNat_lt (Nat.pow_le_pow_right (by omega) (Nat.le_of_not_lt hge))
    rw [Nat.testBit_lt_two_pow hpow] at hbit
    cases hbit
  have hmask : ∀ i < 64, 7 ≤ i → (~~~0x7F : UInt64).toNat.testBit i = true := by decide
  have hzero : (value &&& ~~~0x7F).toNat.testBit i = false := by
    rw [h]
    exact Nat.zero_testBit i
  rw [UInt64.toNat_and, Nat.testBit_and, hbit, hmask i hlt hi] at hzero
  cases hzero

/-- The step of the reader's loop: the payload is put above the bits read so far. -/
theorem toNat_or_shiftLeft {acc payload : UInt64} {shift : ℕ} (hacc : acc.toNat < 2 ^ shift)
    (hshift : shift < 64) (hfit : payload.toNat * 2 ^ shift < 2 ^ 64) :
    (acc ||| payload <<< UInt64.ofNat shift).toNat = acc.toNat + payload.toNat * 2 ^ shift := by
  have hamount : (UInt64.ofNat shift).toNat % 64 = shift := by
    rw [UInt64.toNat_ofNat', Nat.mod_eq_of_lt (lt_trans hshift (by decide)),
      Nat.mod_eq_of_lt hshift]
  rw [UInt64.toNat_or, UInt64.toNat_shiftLeft, hamount, Nat.shiftLeft_eq, Nat.mod_eq_of_lt hfit,
    Nat.or_comm, Nat.mul_comm, ← Nat.two_pow_add_eq_or_of_lt hacc, Nat.add_comm]

/-- What the writer's loop writes, the reader's loop puts above the bits read so far. -/
theorem getULongFrom_putULongFrom (turns shift : ℕ) (acc value : UInt64) (rest : List UInt8)
    (hturns : shift + 7 * turns = 70) (hshift : shift < 64) (hacc : acc.toNat < 2 ^ shift)
    (hvalue : value.toNat * 2 ^ shift < 2 ^ 64) :
    listSource.getULongFrom turns shift acc (putULongFrom turns value ++ rest)
      = some (UInt64.ofNat (acc.toNat + value.toNat * 2 ^ shift), rest) := by
  induction turns generalizing shift acc value with
  | zero => omega
  | succ turns ih =>
    have hdiv : value.toNat / 2 ^ 7 * 2 ^ 7 + value.toNat % 2 ^ 7 = value.toNat := by
      rw [Nat.mul_comm]
      exact Nat.div_add_mod _ _
    have hpayload : (value.toNat % 2 ^ 7) * 2 ^ shift < 2 ^ 64 :=
      lt_of_le_of_lt (Nat.mul_le_mul_right _ (Nat.mod_le _ _)) hvalue
    have hstep : (acc ||| (value.toUInt8 &&& 0x7F).toUInt64 <<< UInt64.ofNat shift).toNat
        = acc.toNat + value.toNat % 2 ^ 7 * 2 ^ shift := by
      rw [toNat_or_shiftLeft hacc hshift (by rwa [toNat_payload]), toNat_payload]
    rw [putULongFrom]
    split
    · rename_i hlast
      rw [and_not_0x7F_iff] at hlast
      have hbyte : value.toUInt8.toNat < 2 ^ 7 := by
        rw [UInt64.toNat_toUInt8]
        exact lt_of_le_of_lt (Nat.mod_le _ _) hlast
      refine bind_eq_some.2 ⟨value.toUInt8, rest, rfl, ?_⟩
      rw [if_pos (last_bit hbyte)]
      refine pure_eq_some.2 ⟨?_, rfl⟩
      rw [← UInt64.ofNat_toNat (x := acc ||| _), hstep, Nat.mod_eq_of_lt hlast]
    · rename_i hlong
      rw [and_not_0x7F_iff, Nat.not_lt] at hlong
      -- another byte follows, so that there is room above this one
      have hroom : shift + 7 < 64 := by
        rw [← Nat.pow_lt_pow_iff_right (show 1 < 2 by omega), Nat.pow_add, Nat.mul_comm]
        exact lt_of_le_of_lt (Nat.mul_le_mul_right _ hlong) hvalue
      have hpow : 2 ^ (shift + 7) = 2 ^ 7 * 2 ^ shift := by rw [Nat.pow_add, Nat.mul_comm]
      refine bind_eq_some.2 ⟨_, putULongFrom turns (value >>> 7) ++ rest, rfl, ?_⟩
      rw [if_neg (continued_byte value), continued_bit, ih (shift + 7) _ _ (by omega) hroom]
      · rw [hstep, toNat_shiftRight_seven, hpow, ← Nat.mul_assoc, Nat.add_assoc, ← Nat.add_mul,
          Nat.add_comm (_ % _), hdiv]
      · rw [hstep, hpow]
        calc acc.toNat + value.toNat % 2 ^ 7 * 2 ^ shift
            < 2 ^ shift + value.toNat % 2 ^ 7 * 2 ^ shift := Nat.add_lt_add_right hacc _
          _ = (value.toNat % 2 ^ 7 + 1) * 2 ^ shift := by ring
          _ ≤ 2 ^ 7 * 2 ^ shift := Nat.mul_le_mul_right _ (Nat.mod_lt _ (by decide))
      · rw [toNat_shiftRight_seven, hpow, ← Nat.mul_assoc]
        exact lt_of_le_of_lt (Nat.mul_le_mul_right _ (Nat.div_mul_le_self _ _)) hvalue

/-- **Numbers**: every word is read back, and nothing after it is touched. -/
theorem getULong_putULong (x : UInt64) (rest : List UInt8) :
    getULong (putULong x ++ rest) = some (x, rest) := by
  have h := getULongFrom_putULongFrom 10 0 0 x rest rfl (by decide) (by decide)
    (by rw [Nat.pow_zero, Nat.mul_one]; exact x.toNat_lt)
  rw [getULong, VLQSource.getULong, putULong, h, Nat.pow_zero, Nat.mul_one]
  show some (UInt64.ofNat (0 + x.toNat), rest) = _
  rw [Nat.zero_add, UInt64.ofNat_toNat]

theorem le_length_putULongFrom (turns n : ℕ) (value : UInt64) (hn : n < turns)
    (h : 2 ^ (7 * n) ≤ value.toNat) : n + 1 ≤ (putULongFrom turns value).length := by
  induction turns generalizing n value with
  | zero => omega
  | succ turns ih =>
    rw [putULongFrom]
    split
    · rename_i hlast
      rw [and_not_0x7F_iff] at hlast
      have hsmall : 7 * n < 7 := (Nat.pow_lt_pow_iff_right (show 1 < 2 by omega)).1
        (lt_of_le_of_lt h hlast)
      rw [List.length_singleton]
      omega
    · cases n with
      | zero => simp
      | succ n =>
        rw [List.length_cons]
        refine Nat.succ_le_succ (ih n _ (by omega) ?_)
        rw [toNat_shiftRight_seven, Nat.le_div_iff_mul_le (by positivity), ← Nat.pow_add]
        exact h

/-- **The size of a number**: one byte for every seven bits, and at least one. -/
theorem length_putULong (x : UInt64) :
    (putULong x).length = max 1 ((x.toNat.size + 6) / 7) ∧ (putULong x).length ≤ 10 := by
  have hbits : x.toNat.size ≤ 64 := Nat.size_le.2 x.toNat_lt
  have hlower : ∀ n < 10, 2 ^ (7 * n) ≤ x.toNat → n + 1 ≤ (putULong x).length :=
    fun n hn h => le_length_putULongFrom 10 n x hn h
  have hupper : ∀ n, x.toNat < 2 ^ (7 * (n + 1)) → (putULong x).length ≤ n + 1 :=
    fun n h => length_putULongFrom_le 10 n x h
  have hle : (putULong x).length ≤ max 1 ((x.toNat.size + 6) / 7) := by
    refine le_trans (hupper ((x.toNat.size + 6) / 7 - 1) (Nat.size_le.1 (by omega))) (by omega)
  refine ⟨le_antisymm hle ?_, by omega⟩
  by_cases hsmall : x.toNat.size ≤ 7
  · have hpos : 0 < (putULong x).length := List.length_pos_iff.2 (putULong_ne_nil x)
    omega
  · have := hlower ((x.toNat.size + 6) / 7 - 1) (by omega) (Nat.lt_size.1 (by omega))
    omega

/-! ## Signed numbers -/

/-- The zig-zag code at any width: the bits are doubled, and flipped when the sign bit is
set; the lowest bit says so to the decoder. -/
theorem decode_encode_zigZag_bits {w : ℕ} (x : BitVec (w + 1)) :
    (((x <<< 1) ^^^ (0#(w + 1) - (x >>> w))) >>> 1)
      ^^^ (0#(w + 1) - (((x <<< 1) ^^^ (0#(w + 1) - (x >>> w))) &&& 1#(w + 1))) = x := by
  have hshift : ∀ i, (x >>> w).getLsbD i = (decide (i = 0) && x.getLsbD w) := by
    intro i
    rw [BitVec.getLsbD_ushiftRight]
    by_cases hi : i = 0
    · simp [hi]
    · rw [BitVec.getLsbD_of_ge x (w + i) (by omega)]
      simp [hi]
  have hones : 0#(w + 1) - 1#(w + 1) = BitVec.allOnes (w + 1) := by
    rw [BitVec.zero_sub, BitVec.neg_one_eq_allOnes]
  have hlow : ∀ y : BitVec (w + 1),
      y &&& 1#(w + 1) = if y.getLsbD 0 then 1#(w + 1) else 0#(w + 1) := by
    intro y
    ext i hi
    cases i with
    | zero => cases h : y.getLsbD 0 <;> simp_all [BitVec.getLsbD_eq_getElem]
    | succ i => cases h : y.getLsbD 0 <;> simp
  cases hsign : x.getLsbD w with
  | false =>
    have hzero : x >>> w = 0#(w + 1) := by
      ext i hi
      rw [← BitVec.getLsbD_eq_getElem, hshift, hsign]
      simp
    have heven : ((x <<< 1) ^^^ 0#(w + 1)).getLsbD 0 = false := by simp
    rw [hzero, BitVec.sub_zero, hlow, if_neg (by rw [heven]; simp), BitVec.sub_zero]
    ext i hi
    by_cases hi' : i = w
    · simp [← BitVec.getLsbD_eq_getElem, hi', hsign]
    · simp [← BitVec.getLsbD_eq_getElem, Nat.add_comm 1 i, show i < w by omega]
  | true =>
    have hone : x >>> w = 1#(w + 1) := by
      ext i hi
      rw [← BitVec.getLsbD_eq_getElem, hshift, hsign]
      simp
    have hodd : ((x <<< 1) ^^^ BitVec.allOnes (w + 1)).getLsbD 0 = true := by simp
    rw [hone, hones, hlow, if_pos hodd, hones]
    ext i hi
    by_cases hi' : i = w
    · simp [← BitVec.getLsbD_eq_getElem, hi', hsign]
    · have hlt : i < w := by omega
      simp [← BitVec.getLsbD_eq_getElem, Nat.add_comm 1 i, hlt, Nat.le_of_lt hlt]

theorem decode_encode_zigZagLong (n : UInt64) : decodeZigZagLong (encodeZigZagLong n) = n :=
  UInt64.toBitVec_inj.1 (decode_encode_zigZag_bits (w := 63) n.toBitVec)

theorem decode_encode_zigZagInt (n : UInt32) : decodeZigZagInt (encodeZigZagInt n) = n :=
  UInt32.toBitVec_inj.1 (decode_encode_zigZag_bits (w := 31) n.toBitVec)

theorem getLong_putLong (x : UInt64) (rest : List UInt8) :
    getLong (putLong x ++ rest) = some (x, rest) := by
  refine bind_eq_some.2 ⟨_, _, getULong_putULong _ rest, ?_⟩
  rw [decode_encode_zigZagLong]
  rfl

theorem setWidth_signExtend_of_le {v w : ℕ} (h : v ≤ w) (n : BitVec v) :
    (n.signExtend w).setWidth v = n := by
  ext i hi
  rw [BitVec.getElem_setWidth, BitVec.getLsbD_signExtend, if_pos hi, BitVec.getLsbD_eq_getElem hi,
    decide_eq_true (lt_of_lt_of_le hi h), Bool.true_and]

theorem toUInt32_widen (n : UInt32) : n.toInt32.toInt64.toUInt64.toUInt32 = n :=
  UInt32.toBitVec_inj.1 (setWidth_signExtend_of_le (w := 64) (by decide) n.toBitVec)

theorem toUInt16_widen (n : UInt16) : n.toInt16.toInt32.toUInt32.toUInt16 = n :=
  UInt16.toBitVec_inj.1 (setWidth_signExtend_of_le (w := 32) (by decide) n.toBitVec)

theorem getInt_putInt (x : UInt32) (rest : List UInt8) :
    listSource.getInt (putInt x ++ rest) = some (x, rest) := by
  refine bind_eq_some.2 ⟨_, _, getULong_putULong _ rest, ?_⟩
  rw [toUInt32_widen, decode_encode_zigZagInt]
  rfl

theorem getShort_putShort (x : UInt16) (rest : List UInt8) :
    listSource.getShort (putShort x ++ rest) = some (x, rest) := by
  refine bind_eq_some.2 ⟨_, _, getULong_putULong _ rest, ?_⟩
  rw [toUInt32_widen, decode_encode_zigZagInt, toUInt16_widen]
  rfl

/-! ## Unsigned numbers -/

theorem getUByte_putUByte {x : ℤ} (h : 0 ≤ x ∧ x ≤ 0xFF) :
    ∃ out, putUByte x = some out ∧ ∀ rest, getUByte (out ++ rest) = some (x.toNat, rest) := by
  refine ⟨_, if_pos h, fun rest => bind_eq_some.2 ⟨_, rest, rfl, pure_eq_some.2 ⟨?_, rfl⟩⟩⟩
  rw [UInt8.toNat_ofNat', Nat.mod_eq_of_lt (by omega)]

theorem getUInt_putUInt {x : ℤ} (h : 0 ≤ x ∧ x ≤ 0xFFFFFFFF) :
    ∃ out, putUInt x = some out ∧ ∀ rest, getUInt (out ++ rest) = some (x.toNat, rest) := by
  refine ⟨_, if_pos h, fun rest => bind_eq_some.2 ⟨_, _, getULong_putULong _ rest, ?_⟩⟩
  have hnat : (UInt64.ofNat x.toNat).toNat = x.toNat := by
    rw [UInt64.toNat_ofNat', Nat.mod_eq_of_lt (by omega)]
  have hint : (UInt64.ofNat x.toNat).toInt64.toInt = x := by
    show (UInt64.ofNat x.toNat).toBitVec.toInt = x
    rw [BitVec.toInt_eq_toNat_cond]
    simp
    omega
  rw [hint, if_pos h]
  exact pure_eq_some.2 ⟨hnat, rfl⟩

theorem getUShort_putUShort {x : ℤ} (h : 0 ≤ x ∧ x ≤ 0xFFFF) :
    ∃ out, putUShort x = some out ∧ ∀ rest, getUShort (out ++ rest) = some (x.toNat, rest) := by
  have hput : putUShort x = some (putULong (UInt64.ofNat x.toNat)) := by
    rw [putUShort, if_pos h, putUInt, if_pos (by omega)]
  refine ⟨_, hput, fun rest => bind_eq_some.2 ⟨_, _, getULong_putULong _ rest, ?_⟩⟩
  have hint : (UInt64.ofNat x.toNat).toUInt32.toInt32.toInt = x := by
    show (UInt64.ofNat x.toNat).toUInt32.toBitVec.toInt = x
    rw [BitVec.toInt_eq_toNat_cond]
    simp
    omega
  rw [hint, if_pos h]
  exact pure_eq_some.2 ⟨rfl, rfl⟩

/-! ## Booleans, bytes and bits -/

theorem getBoolean_putBoolean (x : Bool) (rest : List UInt8) :
    listSource.getBoolean (putBoolean x ++ rest) = some (x, rest) := by
  cases x <;> rfl

theorem getBytes_append {size : ℤ} {xs : List UInt8} (h : (xs.length : ℤ) = size)
    (rest : List UInt8) : getBytes size (xs ++ rest) = some (xs, rest) := by
  have hfits : ¬(size < 0 ∨ ((xs ++ rest).length : ℤ) < size) := by
    rw [List.length_append]
    omega
  have hsize : size.toNat = xs.length := by omega
  rw [getBytes, if_neg hfits, hsize, List.take_left, List.drop_left]

theorem getLsbD_byteAt (bits : List Bool) (i : ℕ) {j : ℕ} (hj : j < 8) :
    (BitSet.byteAt bits i).toBitVec.getLsbD j = bits.getD (8 * i + j) false := by
  show (BitVec.setWidth 8 _).getLsbD j = _
  rw [BitVec.getLsbD_setWidth, decide_eq_true hj, Bool.true_and, BitVec.getLsbD_ofBoolListLE]
  simp only [List.getD_eq_getElem?_getD, List.getElem?_take_of_lt hj, List.getElem?_drop]

theorem rdropWhile_append_zeros (bytes : List UInt8) :
    bytes.rdropWhile (· == 0)
      ++ List.replicate (bytes.length - (bytes.rdropWhile (· == 0)).length) 0 = bytes := by
  induction bytes using List.reverseRecOn with
  | nil => rfl
  | append_singleton bytes b ih =>
    have hle : (bytes.rdropWhile (· == 0)).length ≤ bytes.length :=
      (List.rdropWhile_prefix (· == 0) bytes).length_le
    rw [List.rdropWhile_concat]
    split
    · rename_i hb
      obtain rfl : b = 0 := by simpa using hb
      rw [List.length_append, List.length_singleton, Nat.sub_add_comm hle, List.replicate_succ',
        ← List.append_assoc, ih]
    · simp

/-- The padding puts back the zeros that `toByteArray` leaves out. -/
theorem copyOf_toByteArray (bits : List Bool) :
    BitSet.copyOf (BitSet.toByteArray bits) ((bits.length + 7) / 8 : ℕ)
      = some ((List.range ((bits.length + 7) / 8)).map (BitSet.byteAt bits)) := by
  have hpad := rdropWhile_append_zeros
    ((List.range ((bits.length + 7) / 8)).map (BitSet.byteAt bits))
  have hle := (List.rdropWhile_prefix (· == 0)
    ((List.range ((bits.length + 7) / 8)).map (BitSet.byteAt bits))).length_le
  rw [List.length_map, List.length_range] at hpad hle
  rw [BitSet.copyOf, if_neg (by omega), Int.toNat_natCast, BitSet.toByteArray,
    List.take_of_length_le hle, hpad]

/-- The number of bytes, computed on the `Int`. -/
theorem toInt_bytes_of_bits {n : ℕ} (h : n + 7 < 2 ^ 31) :
    ((Int32.ofNat n + 7) >>> 3).toInt = ((n + 7) / 8 : ℕ) := by
  have hsum : (Int32.ofNat n + 7).toInt = n + 7 := by
    rw [Int32.toInt_add, Int32.toInt_ofNat_of_lt (by omega)]
    exact Int.bmod_eq_of_le (by simp; omega) (by simp; omega)
  have hshift : ((Int32.ofNat n + 7) >>> 3).toBitVec
      = (Int32.ofNat n + 7).toBitVec.sshiftRight 3 := by
    rw [Int32.toBitVec_shiftRight]
    rfl
  show ((Int32.ofNat n + 7) >>> 3).toBitVec.toInt = _
  rw [hshift, BitVec.toInt_sshiftRight]
  show (Int32.ofNat n + 7).toInt >>> (3 : ℕ) = _
  rw [hsum, Int.shiftRight_eq_div_pow]
  omega

/-- **Bits** are read back from the bytes that they are packed in. -/
theorem getBits_putBits {size : Int32} {xs : List Bool} (hsize : (xs.length : ℤ) = size.toInt)
    (h : xs.length + 7 < 2 ^ 31) :
    ∃ out, putBits xs = some out ∧
      ∀ rest, listSource.getBits size (out ++ rest) = some (xs, rest) := by
  obtain rfl : size = Int32.ofNat xs.length := by
    apply Int32.toInt_inj.1
    rw [Int32.toInt_ofNat_of_lt (by omega), hsize]
  by_cases hempty : xs = []
  · subst hempty
    exact ⟨[], rfl, fun rest => rfl⟩
  · have hpos : 0 < xs.length := List.length_pos_iff.2 hempty
    have hlength : (Int32.ofNat xs.length).toInt = xs.length :=
      Int32.toInt_ofNat_of_lt (by omega)
    have hne : Int32.ofNat xs.length ≠ 0 := by
      intro h0
      rw [h0] at hlength
      exact absurd hlength (by show (0 : ℤ) ≠ _; omega)
    have hnonneg : ¬Int32.ofNat xs.length < 0 := by
      rw [Int32.lt_iff_toInt_lt, hlength]
      show ¬(xs.length : ℤ) < 0
      omega
    refine ⟨_, by rw [putBits, if_neg hempty, toInt_bytes_of_bits h, copyOf_toByteArray]; rfl,
      fun rest => ?_⟩
    rw [VLQSource.getBits, if_neg hne]
    refine bind_eq_some.2 ⟨_, rest, getBytes_append ?_ rest, ?_⟩
    · rw [toInt_bytes_of_bits h, putBytes, List.length_map, List.length_range]
    · rw [if_neg hnonneg]
      refine pure_eq_some.2 ⟨?_, rfl⟩
      rw [hlength, Int.toNat_natCast]
      refine List.ext_getElem (by simp) fun i hi hi' => ?_
      have hbyte : i / 8 < (xs.length + 7) / 8 := by omega
      rw [List.getElem_map, List.getElem_range, BitSet.get, putBytes]
      rw [List.getD_eq_getElem _ _ (by simpa using hbyte), List.getElem_map, List.getElem_range,
        getLsbD_byteAt xs _ (Nat.mod_lt _ (by decide)), Nat.div_add_mod,
        List.getD_eq_getElem _ _ hi']

/-! ## Sequences of values -/

/-- The put methods with the get methods that match them.  An array is read with its size
as the argument; `pair` is two values one after the other, as `putValue` may write them. -/
inductive Kind
  | byte | uByte | boolean | short | uShort | int | uInt | long | uLong
  | bytes (size : Int32)
  | bits (size : Int32)
  | option (kind : Kind)
  | pair (first second : Kind)

namespace Kind

/-- What the methods take and return. -/
def Value : Kind → Type
  | byte => UInt8
  | uByte | uShort | uInt => ℤ
  | boolean => Bool
  | short => UInt16
  | int => UInt32
  | long | uLong => UInt64
  | bytes _ => List UInt8
  | bits _ => List Bool
  | option kind => Option kind.Value
  | pair first second => first.Value × second.Value

/-- The bytes that the put method appends. -/
def put : (kind : Kind) → kind.Value → Option (List UInt8)
  | byte, x => some (VLQWriter.put x)
  | uByte, x => putUByte x
  | boolean, x => some (putBoolean x)
  | short, x => some (putShort x)
  | uShort, x => putUShort x
  | int, x => some (putInt x)
  | uInt, x => putUInt x
  | long, x => some (putLong x)
  | uLong, x => some (putULong x)
  | bytes _, x => some (putBytes x)
  | bits _, x => putBits x
  | option kind, x => putOption x kind.put
  | pair first second, x => do
      let out ← first.put x.1
      let out' ← second.put x.2
      return out ++ out'

/-- The get method that matches. -/
def get {σ : Type} (source : VLQSource σ) : (kind : Kind) → StateT σ Option kind.Value
  | byte => source.getByte
  | uByte => do
      let x ← source.getUByte
      return (x : ℤ)
  | boolean => source.getBoolean
  | short => source.getShort
  | uShort => do
      let x ← source.getUShort
      return (x : ℤ)
  | int => source.getInt
  | uInt => do
      let x ← source.getUInt
      return (x : ℤ)
  | long => source.getLong
  | uLong => source.getULong
  | bytes size => source.getBytes size.toInt
  | bits size => source.getBits size
  | option kind => source.getOption (get source kind)
  | pair first second => do
      let x ← get source first
      let y ← get source second
      return (x, y)

/-- The values in the range of the put method: what the `require` of the unsigned kinds
asks for, arrays of the size that they are read with, and bits whose number of bytes can be
computed on an `Int`. -/
def Admits : (kind : Kind) → kind.Value → Prop
  | uByte, (x : ℤ) => 0 ≤ x ∧ x ≤ 0xFF
  | uShort, (x : ℤ) => 0 ≤ x ∧ x ≤ 0xFFFF
  | uInt, (x : ℤ) => 0 ≤ x ∧ x ≤ 0xFFFFFFFF
  | bytes size, (x : List UInt8) => (x.length : ℤ) = size.toInt
  | bits size, (x : List Bool) => (x.length : ℤ) = size.toInt ∧ x.length + 7 < 2 ^ 31
  | option kind, x => ∀ y, x = some y → kind.Admits y
  | pair first second, x => first.Admits x.1 ∧ second.Admits x.2
  | _, _ => True

/-- **One value** is written, and read back without touching what follows. -/
theorem get_put (kind : Kind) (x : kind.Value) (h : kind.Admits x) :
    ∃ out, kind.put x = some out ∧
      ∀ rest, kind.get listSource (out ++ rest) = some (x, rest) := by
  have hnat : ∀ {r : VLQReader ℕ} {y : ℤ} {out : List UInt8} (_ : 0 ≤ y)
      (_ : ∀ rest, r (out ++ rest) = some (y.toNat, rest)) (rest : List UInt8),
      (do let z ← r; return (z : ℤ) : VLQReader ℤ) (out ++ rest) = some (y, rest) :=
    fun hy hr rest =>
      bind_eq_some.2 ⟨_, rest, hr rest, pure_eq_some.2 ⟨Int.toNat_of_nonneg hy, rfl⟩⟩
  induction kind with
  | byte => exact ⟨_, rfl, fun rest => rfl⟩
  | uByte =>
    obtain ⟨out, hput, hget⟩ := getUByte_putUByte h
    exact ⟨out, hput, hnat h.1 hget⟩
  | boolean => exact ⟨_, rfl, getBoolean_putBoolean x⟩
  | short => exact ⟨_, rfl, getShort_putShort x⟩
  | uShort =>
    obtain ⟨out, hput, hget⟩ := getUShort_putUShort h
    exact ⟨out, hput, hnat h.1 hget⟩
  | int => exact ⟨_, rfl, getInt_putInt x⟩
  | uInt =>
    obtain ⟨out, hput, hget⟩ := getUInt_putUInt h
    exact ⟨out, hput, hnat h.1 hget⟩
  | long => exact ⟨_, rfl, getLong_putLong x⟩
  | uLong => exact ⟨_, rfl, getULong_putULong x⟩
  | bytes size => exact ⟨_, rfl, getBytes_append h⟩
  | bits size => exact getBits_putBits h.1 h.2
  | option kind ih =>
    cases x with
    | none => exact ⟨_, rfl, fun rest => rfl⟩
    | some y =>
      obtain ⟨out, hput, hget⟩ := ih y (h y rfl)
      have hsome : putOption (some y) kind.put = some (1 :: out) := by
        rw [putOption, hput]
        rfl
      refine ⟨1 :: out, hsome, fun rest => ?_⟩
      refine bind_eq_some.2 ⟨1, out ++ rest, rfl, ?_⟩
      rw [if_pos (by decide)]
      exact bind_eq_some.2 ⟨y, rest, hget rest, rfl⟩
  | pair first second ih ih' =>
    obtain ⟨out, hput, hget⟩ := ih x.1 h.1
    obtain ⟨out', hput', hget'⟩ := ih' x.2 h.2
    have hboth : (pair first second).put x = some (out ++ out') := by
      show ((first.put x.1).bind fun out => (second.put x.2).bind fun out' => some (out ++ out'))
        = _
      rw [hput, hput']
      rfl
    refine ⟨out ++ out', hboth, fun rest => ?_⟩
    rw [List.append_assoc]
    exact bind_eq_some.2 ⟨x.1, out' ++ rest, hget _, bind_eq_some.2 ⟨x.2, rest, hget' rest, rfl⟩⟩

theorem get_alike {σ τ : Type} {R : σ → τ → Prop} {source : VLQSource σ} {source' : VLQSource τ}
    (h : source.Alike R source') (kind : Kind) :
    Lib.Alike R (kind.get source) (kind.get source') := by
  induction kind with
  | byte => exact h.getByte
  | uByte => exact h.getUByte.bind fun _ => .pure _
  | boolean => exact h.getBoolean
  | short => exact h.getShort
  | uShort => exact h.getUShort.bind fun _ => .pure _
  | int => exact h.getInt
  | uInt => exact h.getUInt.bind fun _ => .pure _
  | long => exact h.getLong
  | uLong => exact h.getULong
  | bytes size => exact h.getBytes _
  | bits size => exact h.getBits size
  | option kind ih => exact h.getOption ih
  | pair first second ih ih' => exact ih.bind fun _ => ih'.bind fun _ => .pure _

end Kind

/-- A value with the methods that it is written and read with. -/
structure TypedValue where
  kind : Kind
  value : kind.Value

/-- The bytes that a sequence of put calls appends; they are taken to fit in the sink, which
counts them in an `Int`. -/
def putAll : List TypedValue → Option (List UInt8)
  | [] => some []
  | v :: values => do
      let out ← v.kind.put v.value
      let out' ← putAll values
      return out ++ out'

/-- A sequence of get calls. -/
def getAll {σ : Type} (source : VLQSource σ) : List Kind → StateT σ Option (List TypedValue)
  | [] => return []
  | kind :: kinds => do
      let x ← kind.get source
      let values ← getAll source kinds
      return ⟨kind, x⟩ :: values

theorem getAll_alike {σ τ : Type} {R : σ → τ → Prop} {source : VLQSource σ}
    {source' : VLQSource τ} (h : source.Alike R source') (kinds : List Kind) :
    Lib.Alike R (getAll source kinds) (getAll source' kinds) := by
  induction kinds with
  | nil => exact .pure _
  | cons kind kinds ih => exact (Kind.get_alike h kind).bind fun _ => ih.bind fun _ => .pure _

/-- **Sequences**: values in range are written without an error, and read back in order
without touching what follows. -/
theorem getAll_putAll (values : List TypedValue) (h : ∀ v ∈ values, v.kind.Admits v.value) :
    ∃ out, putAll values = some out ∧ ∀ rest,
      getAll listSource (values.map TypedValue.kind) (out ++ rest) = some (values, rest) := by
  induction values with
  | nil => exact ⟨[], rfl, fun rest => rfl⟩
  | cons v values ih =>
    obtain ⟨out, hput, hget⟩ := Kind.get_put v.kind v.value (h v (by simp))
    obtain ⟨out', hput', hget'⟩ := ih fun v' hv' => h v' (by simp [hv'])
    refine ⟨out ++ out', by rw [putAll, hput, hput']; rfl, fun rest => ?_⟩
    rw [List.append_assoc]
    exact bind_eq_some.2 ⟨v.value, out' ++ rest, hget _,
      bind_eq_some.2 ⟨values, rest, hget' rest, rfl⟩⟩

end Sparkz.Serialization
