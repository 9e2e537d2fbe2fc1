import Mathlib

/-!
# Byte strings

Numbers and bit strings written as bytes.

* `toBytes`, `ofBytes` — big-endian numbers; `ofBytes_toBytes` reads back what was
  written, and `signed` reads a number in two's complement.
* `wrapInt` — a number brought into the range of 32 bits.
* `bitAt` — a byte string as a string of bits, the lowest bit of each byte first.
* `Packs` — the bytes that hold a string of bits; one bit more (`push_byte`, `push_bit`,
  `push_zero`), and the first bits alone (`take_mask`).
-/

namespace Sparkz.Lib

/-! ## Big-endian numbers -/

/-- The `n` lowest bytes of a number, the highest one first. -/
def toBytes : ℕ → ℕ → List UInt8
  | 0, _ => []
  | n + 1, x => UInt8.ofNat (x / 256 ^ n) :: toBytes n (x % 256 ^ n)

/-- The number whose bytes are given, the highest one first. -/
def ofBytes (bytes : List UInt8) : ℕ := bytes.foldl (fun acc b => acc * 256 + b.toNat) 0

/-- A number below `2 ^ w` read in two's complement. -/
def signed (w x : ℕ) : ℤ := if x < 2 ^ (w - 1) then x else (x : ℤ) - 2 ^ w

@[simp] theorem length_toBytes (n x : ℕ) : (toBytes n x).length = n := by
  induction n generalizing x with
  | zero => rfl
  | succ n ih => rw [toBytes, List.length_cons, ih]

theorem ofBytes_append_singleton (bytes : List UInt8) (b : UInt8) :
    ofBytes (bytes ++ [b]) = ofBytes bytes * 256 + b.toNat := by
  rw [ofBytes, List.foldl_append]
  rfl

theorem foldl_ofBytes (bytes : List UInt8) (acc : ℕ) :
    bytes.foldl (fun acc b => acc * 256 + b.toNat) acc
      = acc * 256 ^ bytes.length + ofBytes bytes := by
  induction bytes using List.reverseRecOn with
  | nil => simp [ofBytes]
  | append_singleton bytes b ih =>
    rw [List.foldl_append, ofBytes_append_singleton, ih]
    simp only [List.foldl_cons, List.foldl_nil, List.length_append, List.length_singleton, pow_succ]
    ring

/-- Reading back the bytes of a number. -/
theorem ofBytes_toBytes (n x : ℕ) (h : x < 256 ^ n) : ofBytes (toBytes n x) = x := by
  induction n generalizing x with
  | zero =>
    have hx : x = 0 := by simpa using h
    rw [hx]
    rfl
  | succ n ih =>
    have hdiv : x / 256 ^ n < 256 := by
      rw [Nat.div_lt_iff_lt_mul (by positivity), mul_comm, ← pow_succ]
      exact h
    have hbyte : (UInt8.ofNat (x / 256 ^ n)).toNat = x / 256 ^ n := by
      rw [UInt8.toNat_ofNat']
      exact Nat.mod_eq_of_lt hdiv
    have hrest := ih (x % 256 ^ n) (Nat.mod_lt _ (by positivity))
    show ofBytes (UInt8.ofNat (x / 256 ^ n) :: toBytes n (x % 256 ^ n)) = x
    have hcons : ofBytes (UInt8.ofNat (x / 256 ^ n) :: toBytes n (x % 256 ^ n))
        = (x / 256 ^ n) * 256 ^ n + ofBytes (toBytes n (x % 256 ^ n)) := by
      have := foldl_ofBytes (toBytes n (x % 256 ^ n)) (x / 256 ^ n)
      rw [length_toBytes] at this
      rw [← this, ofBytes, List.foldl_cons, hbyte, Nat.zero_mul, Nat.zero_add]
    rw [hcons, hrest, mul_comm]
    exact Nat.div_add_mod x _

/-! ## Numbers of 32 bits -/

/-- A sum or product of `Int`s. -/
def wrapInt (x : ℤ) : ℤ := x.bmod (2 ^ 32)

theorem wrapInt_of_lt {x : ℤ} (h₀ : 0 ≤ x) (h : x < 2 ^ 31) : wrapInt x = x :=
  Int.bmod_eq_of_le (by omega) (by omega)

theorem wrapInt_lt (x : ℤ) : wrapInt x < 2 ^ 31 :=
  lt_of_lt_of_le (Int.bmod_lt (by norm_num)) (by norm_num)

theorem wrapInt_add {a b : ℕ} (h : a + b < 2 ^ 31) : wrapInt (a + b) = ((a + b : ℕ) : ℤ) := by
  rw [← Nat.cast_add]
  exact wrapInt_of_lt (Int.natCast_nonneg _) (by exact_mod_cast h)

theorem wrapInt_succ {a : ℕ} (h : a + 1 < 2 ^ 31) : wrapInt (a + 1) = ((a + 1 : ℕ) : ℤ) :=
  wrapInt_add (b := 1) h

theorem wrapInt_add_wrapInt (x y : ℤ) : wrapInt (wrapInt x + y) = wrapInt (x + y) :=
  Int.bmod_add_bmod

/-- The lowest bits stay. -/
theorem wrapInt_emod_eight (x : ℤ) : wrapInt x % 8 = x % 8 := by
  rw [wrapInt, Int.bmod_def]
  split <;> omega

/-- Only the first number that is too large for an `Int` has a sign. -/
theorem wrapInt_nonneg_iff {n : ℕ} (h : n ≤ 2 ^ 31) : 0 ≤ wrapInt n ↔ n < 2 ^ 31 := by
  constructor
  · intro hnonneg
    by_contra hge
    obtain rfl : n = 2 ^ 31 := by omega
    exact absurd hnonneg (by decide)
  · intro hlt
    rw [wrapInt_of_lt (by omega) (by omega)]
    omega

/-- A number written in four bytes is read back, if it is not negative then. -/
theorem signed_ofBytes_toBytes {n : ℕ} (h : n < 2 ^ 31) :
    signed 32 (ofBytes (toBytes 4 n)) = n := by
  rw [ofBytes_toBytes 4 n (by norm_num; omega), signed, if_pos (by simpa using h)]

/-! ## Bit strings -/

/-- Bit `i` of a byte string, `false` behind its end. -/
def bitAt (bytes : List UInt8) (i : ℕ) : Bool := (bytes.getD (i / 8) 0).toNat.testBit (i % 8)

theorem bitAt_of_le {bytes : List UInt8} {i : ℕ} (h : 8 * bytes.length ≤ i) :
    bitAt bytes i = false := by
  have hlen : bytes.length ≤ i / 8 := by omega
  rw [bitAt, List.getD_eq_default _ _ hlen]
  simp

theorem bitAt_append_left {a b : List UInt8} {i : ℕ} (h : i < 8 * a.length) :
    bitAt (a ++ b) i = bitAt a i := by
  have hlt : i / 8 < a.length := by omega
  rw [bitAt, bitAt, List.getD_append _ _ _ _ hlt]

theorem bitAt_append_right (a b : List UInt8) (i : ℕ) :
    bitAt (a ++ b) (8 * a.length + i) = bitAt b i := by
  have hdiv : (8 * a.length + i) / 8 = a.length + i / 8 := by omega
  have hmod : (8 * a.length + i) % 8 = i % 8 := by omega
  rw [bitAt, bitAt, hdiv, hmod, List.getD_append_right _ _ _ _ (by omega), Nat.add_sub_cancel_left]

/-- The bits of one byte. -/
theorem bitAt_singleton (b : UInt8) {i : ℕ} (h : i < 8) : bitAt [b] i = b.toNat.testBit i := by
  have hdiv : i / 8 = 0 := by omega
  have hmod : i % 8 = i := by omega
  rw [bitAt, hdiv, hmod]
  rfl

/-- Replacing a byte changes its bits only. -/
theorem bitAt_set {bytes : List UInt8} {j : ℕ} (hj : j < bytes.length) (b : UInt8) (i : ℕ) :
    bitAt (bytes.set j b) i = if i / 8 = j then b.toNat.testBit (i % 8) else bitAt bytes i := by
  unfold bitAt
  split
  · rename_i h
    rw [h, List.getD_eq_getElem?_getD, List.getElem?_set_self hj]
    rfl
  · rename_i h
    rw [List.getD_eq_getElem?_getD, List.getElem?_set_ne (Ne.symm h), ← List.getD_eq_getElem?_getD]

/-- A byte is determined by its bits. -/
theorem byte_ext {b c : UInt8} (h : ∀ i < 8, b.toNat.testBit i = c.toNat.testBit i) : b = c := by
  refine UInt8.toNat_inj.1 (Nat.eq_of_testBit_eq fun i => ?_)
  by_cases hi : i < 8
  · exact h i hi
  · have hpow : 2 ^ 8 ≤ 2 ^ i := Nat.pow_le_pow_right (by norm_num) (by omega)
    rw [Nat.testBit_lt_two_pow (b.toNat_lt.trans_le hpow),
      Nat.testBit_lt_two_pow (c.toNat_lt.trans_le hpow)]

/-- A byte string is determined by its length and its bits. -/
theorem bytes_ext {a b : List UInt8} (hlen : a.length = b.length)
    (h : ∀ i, bitAt a i = bitAt b i) : a = b := by
  refine List.ext_getElem hlen fun j hja hjb => byte_ext fun i hi => ?_
  have hdiv : (8 * j + i) / 8 = j := by omega
  have hmod : (8 * j + i) % 8 = i := by omega
  have hbit := h (8 * j + i)
  rw [bitAt, bitAt, hdiv, hmod, List.getD_eq_getElem _ _ hja, List.getD_eq_getElem _ _ hjb] at hbit
  exact hbit

/-- The bytes hold the bits, and no other bit of the last byte is set. -/
structure Packs (bytes : List UInt8) (bits : List Bool) : Prop where
  length : bytes.length = (bits.length + 7) / 8
  bit : ∀ i, bitAt bytes i = bits.getD i false

namespace Packs

variable {bytes bytes' : List UInt8} {bits more : List Bool}

theorem nil : Packs [] [] := ⟨rfl, fun i => by simp [bitAt]⟩

theorem unique (h : Packs bytes bits) (h' : Packs bytes' bits) : bytes = bytes' :=
  bytes_ext (h.length.trans h'.length.symm) fun i => (h.bit i).trans (h'.bit i).symm

/-- The bits after one more. -/
theorem getD_append_singleton (bits : List Bool) (bit : Bool) (i : ℕ) :
    (bits ++ [bit]).getD i false = if i = bits.length then bit else bits.getD i false := by
  rcases lt_trichotomy i bits.length with hlt | rfl | hgt
  · rw [List.getD_append _ _ _ _ hlt, if_neg hlt.ne]
  · simp
  · rw [List.getD_eq_default _ _ (by simpa using hgt), if_neg hgt.ne',
      List.getD_eq_default _ _ hgt.le]

/-- A bit in a new byte. -/
theorem push_byte (h : Packs bytes bits) (hnew : bits.length % 8 = 0) (bit : Bool) :
    Packs (bytes ++ [if bit then 1 else 0]) (bits ++ [bit]) := by
  have hlen : 8 * bytes.length = bits.length := by
    rw [h.length]
    omega
  refine ⟨by rw [List.length_append, List.length_append, h.length]; simp; omega, fun i => ?_⟩
  rw [getD_append_singleton]
  by_cases hi : i < 8 * bytes.length
  · rw [bitAt_append_left hi, h.bit, if_neg (by omega)]
  · obtain ⟨j, rfl⟩ := Nat.exists_eq_add_of_le (not_lt.1 hi)
    rw [bitAt_append_right, hlen, List.getD_eq_default bits _ (Nat.le_add_right _ _)]
    by_cases hj : j < 8
    · rw [bitAt_singleton _ hj]
      cases bit with
      | true =>
        have hone : (if true = true then (1 : UInt8) else 0).toNat = 2 ^ 0 := rfl
        rw [hone, Nat.testBit_two_pow]
        grind
      | false => simp
    · rw [bitAt_of_le (by simp; omega), if_neg (by omega)]

/-- A bit that is not set, in a byte that is there. -/
theorem push_zero (h : Packs bytes bits) (hold : bits.length % 8 ≠ 0) :
    Packs bytes (bits ++ [false]) := by
  refine ⟨by rw [h.length, List.length_append]; simp; omega, fun i => ?_⟩
  rw [getD_append_singleton, h.bit]
  split
  · rename_i hi
    rw [List.getD_eq_default _ _ hi.ge]
  · rfl

/-- A bit set in a byte that is there. -/
theorem push_bit (h : Packs bytes bits) (hold : bits.length % 8 ≠ 0) {byte : UInt8}
    (hbyte : bytes[bits.length / 8]? = some byte) :
    Packs (bytes.set (bits.length / 8)
      (UInt8.ofNat (byte.toNat ||| 1 <<< (bits.length % 8)))) (bits ++ [true]) := by
  have hlt : bits.length / 8 < bytes.length := by
    rw [h.length]
    omega
  refine ⟨by rw [List.length_set, h.length, List.length_append]; simp; omega, fun i => ?_⟩
  rw [getD_append_singleton, bitAt_set hlt]
  by_cases hi : i / 8 = bits.length / 8
  · have hmod : i % 8 < 8 := Nat.mod_lt _ (by norm_num)
    have hsmall : byte.toNat ||| 1 <<< (bits.length % 8) < 2 ^ 8 := by
      refine Nat.or_lt_two_pow byte.toNat_lt ?_
      rw [Nat.one_shiftLeft]
      exact Nat.pow_lt_pow_right (by norm_num) (Nat.mod_lt _ (by norm_num))
    have hold : byte.toNat.testBit (i % 8) = bits.getD i false := by
      rw [← h.bit i, bitAt, hi, List.getD_eq_getElem?_getD, hbyte]
      rfl
    rw [if_pos hi, UInt8.toNat_ofNat', Nat.mod_eq_of_lt hsmall, Nat.testBit_or, hold,
      Nat.one_shiftLeft, Nat.testBit_two_pow]
    grind
  · rw [if_neg hi, h.bit, if_neg (by rintro rfl; exact hi rfl)]

/-- The first bits of a byte. -/
theorem testBit_mask (byte : UInt8) (n i : ℕ) :
    (UInt8.ofNat (byte.toNat &&& (2 ^ n - 1))).toNat.testBit i
      = (byte.toNat.testBit i && decide (i < n)) := by
  have hsmall : byte.toNat &&& (2 ^ n - 1) < 2 ^ 8 := lt_of_le_of_lt Nat.and_le_left byte.toNat_lt
  rw [UInt8.toNat_ofNat', Nat.mod_eq_of_lt hsmall, Nat.testBit_and, Nat.testBit_two_pow_sub_one]

/-- The bytes hold any number of bits for which there is room. -/
theorem exists_prefix (h : Packs bytes bits) {n : ℕ} (hn : n ≤ 8 * bytes.length) :
    ∃ first more, Packs bytes (first ++ more) ∧ first.length = n := by
  have hroom : bits.length ≤ 8 * bytes.length := by
    rw [h.length]
    omega
  set full := bits ++ List.replicate (8 * bytes.length - bits.length) false with hfull
  have hlen : full.length = 8 * bytes.length := by
    rw [hfull, List.length_append, List.length_replicate]
    omega
  have hpacks : Packs bytes full := by
    refine ⟨by rw [hlen]; omega, fun i => ?_⟩
    rw [h.bit, hfull]
    rcases lt_or_ge i bits.length with hi | hi
    · rw [List.getD_append _ _ _ _ hi]
    · rw [List.getD_append_right _ _ _ _ hi, List.getD_eq_default _ _ hi]
      rw [List.getD_eq_getElem?_getD, List.getElem?_replicate]
      split <;> rfl
  refine ⟨full.take n, full.drop n, by rwa [List.take_append_drop], ?_⟩
  rw [List.length_take, hlen]
  exact min_eq_left hn

/-- The first bits, as whole bytes with the rest of the last one cleared. -/
theorem take_mask (h : Packs bytes (bits ++ more)) {trimmed : List UInt8}
    (htrim : trimmed = bytes.take ((bits.length + 7) / 8)) :
    Packs (if bits.length % 8 > 0 then trimmed.modify (trimmed.length - 1) fun byte =>
        UInt8.ofNat (byte.toNat &&& (2 ^ (bits.length % 8) - 1)) else trimmed) bits := by
  have hlen : trimmed.length = (bits.length + 7) / 8 := by
    rw [htrim, List.length_take, h.length, List.length_append]
    omega
  have hbits : ∀ i < 8 * trimmed.length, bitAt trimmed i = (bits ++ more).getD i false := by
    intro i hi
    rw [← h.bit i, bitAt, bitAt, List.getD_eq_getElem?_getD, List.getD_eq_getElem?_getD, htrim,
      List.getElem?_take_of_lt (by omega)]
  have hfirst : ∀ i < bits.length, bitAt trimmed i = bits.getD i false := fun i hi => by
    rw [hbits i (by omega), List.getD_append _ _ _ _ hi]
  split
  · rename_i hpad
    have hlast : trimmed.length - 1 = bits.length / 8 := by omega
    have hlt : bits.length / 8 < trimmed.length := by omega
    rw [hlast, List.modify_eq_set_get _ hlt]
    refine ⟨by rw [List.length_set, hlen], fun i => ?_⟩
    rw [bitAt_set hlt]
    by_cases hi : i / 8 = bits.length / 8
    · have hbyte :
          (trimmed.get ⟨bits.length / 8, hlt⟩).toNat.testBit (i % 8) = bitAt trimmed i := by
        rw [bitAt, hi, List.getD_eq_getElem _ _ hlt]
        rfl
      rw [if_pos hi, testBit_mask, hbyte]
      by_cases hlo : i < bits.length
      · rw [hfirst i hlo, decide_eq_true (by omega), Bool.and_true]
      · rw [decide_eq_false (by omega), Bool.and_false, List.getD_eq_default _ _ (by omega)]
    · rw [if_neg hi]
      by_cases hlo : i < bits.length
      · exact hfirst i hlo
      · rw [bitAt_of_le (by omega), List.getD_eq_default _ _ (by omega)]
  · rename_i hfull
    refine ⟨hlen, fun i => ?_⟩
    by_cases hlo : i < bits.length
    · exact hfirst i hlo
    · rw [bitAt_of_le (by omega), List.getD_eq_default _ _ (by omega)]

end Packs

end Sparkz.Lib
