import Sparkz.Serialization.Readers

/-!
# What the narrow methods admit

The methods of the VLQ reader and writer that convert to a narrower type before they check
a range.

* `getUShort_eq`, `getUInt_eq` — the two unsigned readers, by the number that `getULong`
  reads: the first one looks at its lower 32 bits only.
* `readsInRange_iff` — where they read exactly the numbers in their ranges.
* `putShortString_iff` — the size of a short string goes through a signed byte, so it is at
  most 127.
* `roundTrips_iff` — the strings that are read back.
-/

namespace Sparkz.Serialization

open Lib VLQReader VLQWriter

/-! ## Unsigned numbers -/

/-- A 64-bit word as a signed number is in the range of `getUInt`. -/
theorem toInt64_inRange (v : UInt64) :
    (0 ≤ v.toInt64.toInt ∧ v.toInt64.toInt ≤ 0xFFFFFFFF) ↔ v.toNat ≤ 0xFFFFFFFF := by
  have hint : v.toInt64.toInt = v.toBitVec.toInt := rfl
  have hnat : v.toNat = v.toBitVec.toNat := rfl
  rw [hint, hnat, BitVec.toInt_eq_toNat_cond]
  have := v.toBitVec.isLt
  split <;> omega

/-- The lower 32 bits of a word as a signed number. -/
theorem toInt32_eq (v : UInt64) :
    v.toUInt32.toInt32.toInt = if 2 * (v.toNat % 2 ^ 32) < 2 ^ 32 then (v.toNat % 2 ^ 32 : ℤ)
      else (v.toNat % 2 ^ 32 : ℤ) - 2 ^ 32 := by
  have hint : v.toUInt32.toInt32.toInt = v.toUInt32.toBitVec.toInt := rfl
  have hnat : v.toUInt32.toBitVec.toNat = v.toNat % 2 ^ 32 := UInt64.toNat_toUInt32 v
  rw [hint, BitVec.toInt_eq_toNat_cond, hnat]
  norm_cast

theorem toInt32_inRange (v : UInt64) :
    (0 ≤ v.toUInt32.toInt32.toInt ∧ v.toUInt32.toInt32.toInt ≤ 0xFFFF)
      ↔ v.toNat % 2 ^ 32 ≤ 0xFFFF := by
  rw [toInt32_eq]
  split <;> omega

section Source

variable {σ : Type} {source : VLQSource σ} {s s' : σ} {v : UInt64}

theorem getUInt_eq (h : source.getULong s = some (v, s')) :
    source.getUInt s = if v.toNat ≤ 0xFFFFFFFF then some (v.toNat, s') else none := by
  have hrun : source.getUInt s = (if 0 ≤ v.toInt64.toInt ∧ v.toInt64.toInt ≤ 0xFFFFFFFF
      then return v.toNat else failure : StateT σ Option ℕ) s' := by
    show (source.getULong s).bind _ = _
    rw [h]
    rfl
  rw [hrun]
  simp only [toInt64_inRange]
  split <;> rfl

/-- The word is cut to its lower 32 bits before the check, so that is what is checked and
returned. -/
theorem getUShort_eq (h : source.getULong s = some (v, s')) :
    source.getUShort s
      = if v.toNat % 2 ^ 32 ≤ 0xFFFF then some (v.toNat % 2 ^ 32, s') else none := by
  have hrun : source.getUShort s
      = (if 0 ≤ v.toUInt32.toInt32.toInt ∧ v.toUInt32.toInt32.toInt ≤ 0xFFFF
        then return v.toUInt32.toInt32.toInt.toNat else failure : StateT σ Option ℕ) s' := by
    show (source.getULong s).bind _ = _
    rw [h]
    rfl
  rw [hrun]
  simp only [toInt32_inRange]
  split
  · rename_i hle
    have hsmall : v.toUInt32.toInt32.toInt.toNat = v.toNat % 2 ^ 32 := by
      rw [toInt32_eq, if_pos (by omega)]
      omega
    rw [hsmall]
    rfl
  · rfl

/-- The reader succeeds exactly on the numbers up to `most`, and returns the number that
was read. -/
structure InRange (get : StateT σ Option ℕ) (most : ℕ) (s : σ) (v : UInt64) : Prop where
  succeeds : (∃ x t, get s = some (x, t)) ↔ v.toNat ≤ most
  value : ∀ x t, get s = some (x, t) → x = v.toNat

theorem getUInt_inRange (h : source.getULong s = some (v, s')) :
    InRange source.getUInt 4294967295 s v := by
  refine ⟨?_, fun x t hget => ?_⟩
  · rw [getUInt_eq h]
    split
    · rename_i hle
      exact iff_of_true ⟨_, _, rfl⟩ hle
    · rename_i hnot
      exact iff_of_false (by simp) hnot
  · rw [getUInt_eq h] at hget
    split at hget
    · cases hget
      rfl
    · cases hget

theorem getUShort_inRange_iff (h : source.getULong s = some (v, s')) :
    InRange source.getUShort 65535 s v ↔ v.toNat < 2 ^ 32 ∨ 65535 < v.toNat % 2 ^ 32 := by
  constructor
  · intro hrange
    by_contra hnot
    rw [not_or, not_lt, not_lt] at hnot
    have hget := getUShort_eq h
    rw [if_pos hnot.2] at hget
    have := hrange.succeeds.1 ⟨_, _, hget⟩
    omega
  · intro hv
    refine ⟨?_, fun x t hget => ?_⟩
    · rw [getUShort_eq h]
      split
      · exact iff_of_true ⟨_, _, rfl⟩ (by omega)
      · exact iff_of_false (by simp) (by omega)
    · rw [getUShort_eq h] at hget
      split at hget
      · cases hget
        omega
      · cases hget

/-- **Unsigned readers** read exactly the numbers in their ranges, and no other one as one of
these, exactly if the number has at most 32 bits or its lower 32 bits are out of the range of
`getUShort`, which looks at no others. -/
theorem readsInRange_iff (source : VLQSource σ) (s s' : σ) (v : UInt64)
    (h : source.getULong s = some (v, s')) :
    (InRange source.getUShort 65535 s v ∧ InRange source.getUInt 4294967295 s v)
      ↔ v.toNat < 2 ^ 32 ∨ 65535 < v.toNat % 2 ^ 32 :=
  (and_iff_left (getUInt_inRange h)).trans (getUShort_inRange_iff h)

end Source

/-- The bytes of the number five. -/
theorem readsInRange_five :
    listSource.getULong [5] = some (5, []) ∧ InRange listSource.getUShort 65535 [5] 5 := by
  have hread : listSource.getULong [5] = some (5, []) := by decide
  exact ⟨hread, ((readsInRange_iff listSource [5] [] 5 hread).2 (.inl (by decide))).1⟩

/-- The number `2 ^ 32 + 5` is read as an unsigned short. -/
theorem getUShort_truncates :
    listSource.getULong [0x85, 0x80, 0x80, 0x80, 0x10] = some (4294967301, [])
    ∧ listSource.getUShort [0x85, 0x80, 0x80, 0x80, 0x10] = some (5, [])
    ∧ ¬InRange listSource.getUShort 65535 [0x85, 0x80, 0x80, 0x80, 0x10] 4294967301 := by
  have hread : listSource.getUShort [0x85, 0x80, 0x80, 0x80, 0x10] = some (5, []) := by decide
  refine ⟨by decide, hread, fun h => ?_⟩
  exact absurd (h.value 5 [] hread) (by decide)

/-! ## Short strings -/

/-- A small size survives the signed byte that it goes through. -/
theorem toInt_ofNat {n : ℕ} (h : n < 128) : (UInt8.ofNat n).toInt8.toInt = n := by
  show (UInt8.ofNat n).toBitVec.toInt = n
  rw [BitVec.toInt_eq_toNat_cond]
  simp
  omega

/-- A larger one becomes negative. -/
theorem toInt_ofNat_neg {n : ℕ} (h : 128 ≤ n) (hn : n < 256) :
    (UInt8.ofNat n).toInt8.toInt < 0 := by
  show (UInt8.ofNat n).toBitVec.toInt < 0
  rw [BitVec.toInt_eq_toNat_cond]
  simp
  omega

theorem getShortString_putShortString {s : List UInt8} (h : s.length < 128) :
    ∃ out, putShortString s = some out ∧ ∀ rest, getShortString (out ++ rest) = some (s, rest) := by
  obtain ⟨size, hput, hget⟩ := getUByte_putUByte (x := s.length) (by omega)
  refine ⟨size ++ s, ?_, fun rest => ?_⟩
  · rw [putShortString, if_pos (by omega), toInt_ofNat h, hput]
    rfl
  · rw [List.append_assoc]
    exact bind_eq_some.2 ⟨_, _, hget _, getBytes_append rfl rest⟩

/-- The writer throws from 128 bytes on, though it requires less than 256 only. -/
theorem putShortString_iff {s : List UInt8} :
    (∃ out, putShortString s = some out) ↔ s.length < 128 := by
  constructor
  · rintro ⟨out, hout⟩
    by_contra hlong
    rw [putShortString] at hout
    split at hout
    · rename_i hlt
      have hneg := toInt_ofNat_neg (not_lt.1 hlong) hlt
      rw [putUByte, if_neg (by omega)] at hout
      cases hout
    · cases hout
  · intro h
    obtain ⟨out, hput, -⟩ := getShortString_putShortString h
    exact ⟨out, hput⟩

/-- `s.getBytes`, with UTF-8 as the charset of the platform. -/
def getBytesUtf8 (s : String) : List UInt8 := s.toByteArray.data.toList

section Strings

-- what the decoder makes of bytes that are no UTF-8
variable (malformed : List UInt8 → String)

/-- `new String(bytes)`. -/
def newString (bytes : List UInt8) : String :=
  (String.fromUTF8? ⟨bytes.toArray⟩).getD (malformed bytes)

theorem newString_getBytesUtf8 (s : String) : newString malformed (getBytesUtf8 s) = s := by
  have hbytes : (⟨(getBytesUtf8 s).toArray⟩ : ByteArray) = s.toByteArray := by
    rw [getBytesUtf8, Array.toArray_toList]
  have hvalid : String.fromUTF8? s.toByteArray = some s := dif_pos s.isValidUTF8
  rw [newString, hbytes, hvalid, Option.getD_some]

-- what `getByteString` of the iterator of a byte string does
variable (getByteString : List UInt8 → ℤ → Option (List UInt8 × List UInt8))

/-- `getShortString()`, with the string that the bytes stand for. -/
def getString {σ : Type} (source : VLQSource σ) : StateT σ Option String :=
  newString malformed <$> source.getShortString

/-- The string is written, and wherever its bytes are next, both readers return it and are
then after them. -/
def RoundTrips (s : String) : Prop :=
  ∃ out, putShortString (getBytesUtf8 s) = some out
    ∧ (∀ (r : VLQByteBufferReader) (rest : List UInt8), r.Remains (out ++ rest) →
      ∃ r', getString malformed VLQByteBufferReader.reader.toVLQSource r = some (s, r')
        ∧ r'.Remains rest)
    ∧ ∀ (r : VLQByteStringReader) (rest : List UInt8), r.it = out ++ rest →
      ∃ r', getString malformed (VLQByteStringReader.reader getByteString).toVLQSource r
          = some (s, r') ∧ r'.it = rest

variable {malformed} in
/-- What is read from a list of bytes is read by a reader that cannot be told apart from it. -/
theorem getString_alike {σ : Type} {R : σ → List UInt8 → Prop} {source : VLQSource σ}
    (h : source.Alike R listSource) {r : σ} {out rest : List UInt8} {s : String}
    (hr : R r (out ++ rest))
    (hget : VLQReader.getShortString (out ++ rest) = some (getBytesUtf8 s, rest)) :
    ∃ r', getString malformed source r = some (s, r') ∧ R r' rest := by
  obtain ⟨r', hread, hrest⟩ := h.getShortString.symm.of_some hr hget
  refine ⟨r', ?_, hrest⟩
  show (source.getShortString r).bind (fun p => some (newString malformed p.1, p.2)) = _
  rw [hread, Option.bind_some, newString_getBytesUtf8]

/-- **Short strings** are read back exactly if they have at most 127 bytes. -/
theorem roundTrips_iff (s : String) :
    RoundTrips malformed getByteString s ↔ (getBytesUtf8 s).length ≤ 127 := by
  constructor
  · rintro ⟨out, hput, -⟩
    exact Nat.le_of_lt_succ (putShortString_iff.1 ⟨out, hput⟩)
  · intro h
    obtain ⟨out, hput, hget⟩ := getShortString_putShortString (Nat.lt_succ_of_le h)
    refine ⟨out, hput, fun r rest hr => ?_, fun r rest hr => ?_⟩
    · exact getString_alike VLQByteBufferReader.alike_listSource hr (hget rest)
    · exact getString_alike (VLQByteStringReader.alike_listSource getByteString) hr (hget rest)

end Strings

/-- A string of letters has one byte for each of them. -/
theorem length_getBytesUtf8_letters (n : ℕ) :
    (getBytesUtf8 (String.ofList (List.replicate n 'a'))).length = n := by
  have hsize : 'a'.utf8Size = 1 := rfl
  simp [getBytesUtf8, List.utf8Encode, hsize]

/-- A string of 128 letters is not written. -/
theorem not_roundTrips :
    ¬∀ (malformed : List UInt8 → String)
      (getByteString : List UInt8 → ℤ → Option (List UInt8 × List UInt8)) (s : String),
      (getBytesUtf8 s).length < 256 → RoundTrips malformed getByteString s := by
  intro h
  have hlength := length_getBytesUtf8_letters 128
  obtain ⟨out, hput, -⟩ := h (fun _ => "") (fun _ _ => none)
    (String.ofList (List.replicate 128 'a')) (by omega)
  have := putShortString_iff.1 ⟨out, hput⟩
  omega

end Sparkz.Serialization
