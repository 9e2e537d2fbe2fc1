import Sparkz.Encode.Base16

/-!
# Ids of modifiers

An id is the string of the hexadecimal digits of its bytes.  The lengths of arrays and strings
are `Int`s here, and so is the length of the buffer that `encode` asks for.

* `Base16.encodeArray`, `Base16.decodeString` — the codec on them, with what it throws.
* `bytesToId`, `idToBytes` — the ids.
* `IsHexDigit`, `mem_alphabet_iff` — the characters that are read, by their codes.
* `base16_codec` — the codec, and the ids as its two sides; `not_base16_codec` — an array that
  is too long for a string.
-/

namespace Sparkz

namespace Base16

/-- What the codec throws. -/
inductive Thrown
  /-- `NegativeArraySizeException`. -/
  | negativeArraySize
  /-- `IOException(errorMsg)`. -/
  | io (errorMsg : String)

/-- The length of the buffer: `input.length * 2`. -/
def bufferLength (input : Sized UInt8) : Int32 := Int32.ofNat input.items.length * 2

theorem bufferLength_neg_iff (input : Sized UInt8) :
    bufferLength input < 0 ↔ 2 ^ 30 ≤ input.items.length := by
  have hlt := input.length_lt
  have htwo : (2 : Int32).toInt = 2 := by decide
  have hzero : (0 : Int32).toInt = 0 := by decide
  rw [bufferLength, Int32.lt_iff_toInt_lt, Int32.toInt_mul, Int32.toInt_ofNat_of_lt hlt, htwo,
    hzero, Int.bmod_def]
  split <;> omega

theorem length_encode_lt {input : Sized UInt8} (h : ¬ bufferLength input < 0) :
    (encode input.items).length < 2 ^ 31 := by
  rw [bufferLength_neg_iff] at h
  rw [length_encode]
  omega

theorem length_of_decode {s : List UInt16} {b : List UInt8} (h : decode s = .ok b) :
    s.length = 2 * b.length := by
  have hlen := congrArg List.length (lawful.encode_decode s b h)
  rw [List.length_map] at hlen
  exact hlen.symm.trans (length_encode b)

theorem length_decode_lt {input : Sized UInt16} {out : List UInt8}
    (h : decode input.items = .ok out) : out.length < 2 ^ 31 := by
  have hlt := input.length_lt
  rw [length_of_decode h] at hlt
  omega

/-- `encode(input)`. -/
def encodeArray (input : Sized UInt8) : Except Thrown (Sized UInt16) :=
  if input.items.length = 0 then .ok ⟨[], Nat.two_pow_pos 31⟩
  else if h : bufferLength input < 0 then .error .negativeArraySize
  else .ok ⟨encode input.items, length_encode_lt h⟩

/-- `decode(input)`. -/
def decodeString (input : Sized UInt16) : Except Thrown (Sized UInt8) :=
  match h : decode input.items with
  | .error errorMsg => .error (.io errorMsg)
  | .ok out => .ok ⟨out, length_decode_lt h⟩

end Base16

/-! ## Ids -/

namespace Util

/-- `bytesToId(bytes)`. -/
def bytesToId (bytes : Sized UInt8) : Except Base16.Thrown (Sized UInt16) :=
  Base16.encodeArray bytes

/-- `idToBytes(id)`, which throws what `decode` fails with. -/
def idToBytes (id : Sized UInt16) : Except Base16.Thrown (Sized UInt8) := Base16.decodeString id

end Util

namespace Base16

/-! ## The characters -/

/-- A digit, or a letter from a to f in lower case. -/
def IsLowerHexDigit (c : UInt16) : Prop := 48 ≤ c ∧ c ≤ 57 ∨ 97 ≤ c ∧ c ≤ 102

/-- A hexadecimal digit in either case. -/
def IsHexDigit (c : UInt16) : Prop := IsLowerHexDigit c ∨ 65 ≤ c ∧ c ≤ 70

instance (c : UInt16) : Decidable (IsLowerHexDigit c) := inferInstanceAs (Decidable (_ ∨ _))

instance (c : UInt16) : Decidable (IsHexDigit c) := inferInstanceAs (Decidable (_ ∨ _))

theorem alphabet_spec : ∀ n : Fin 128,
    (UInt16.ofNat n ∈ alphabet ↔ IsHexDigit (.ofNat n))
      ∧ (IsHexDigit (.ofNat n) →
        (lowerCase (.ofNat n) = .ofNat n ↔ IsLowerHexDigit (.ofNat n))) := by
  simp only [alphabet_eq]
  decide +kernel

theorem IsHexDigit.toNat_lt {c : UInt16} (h : IsHexDigit c) : c.toNat < 128 := by
  simp only [IsHexDigit, IsLowerHexDigit, UInt16.le_iff_toNat_le] at h
  have h57 : (57 : UInt16).toNat = 57 := rfl
  have h102 : (102 : UInt16).toNat = 102 := rfl
  have h70 : (70 : UInt16).toNat = 70 := rfl
  omega

/-- The alphabet has the hexadecimal digits, and nothing else. -/
theorem mem_alphabet_iff {c : UInt16} : c ∈ alphabet ↔ IsHexDigit c := by
  by_cases hc : c.toNat < 128
  · have hspec := (alphabet_spec ⟨c.toNat, hc⟩).1
    simpa only [UInt16.ofNat_toNat] using hspec
  · refine iff_of_false (fun hmem => hc ?_) fun h => hc h.toNat_lt
    have hlt := UInt16.lt_iff_toNat_lt.1 (alphabet_range c hmem).2.1
    have h127 : (127 : UInt16).toNat = 127 := rfl
    omega

/-- Of the digits, those in lower case stay as they are. -/
theorem lowerCase_eq_iff {c : UInt16} (h : IsHexDigit c) : lowerCase c = c ↔ IsLowerHexDigit c := by
  have hspec := (alphabet_spec ⟨c.toNat, h.toNat_lt⟩).2
  simp only [UInt16.ofNat_toNat] at hspec
  exact hspec h

/-! ## The codec -/

theorem encodeArray_of_lt {b : Sized UInt8} (h : b.items.length < 2 ^ 30) :
    ∃ s, encodeArray b = .ok s ∧ s.items = encode b.items := by
  have hbuffer : ¬ bufferLength b < 0 := by
    rw [bufferLength_neg_iff]
    exact not_le.2 h
  by_cases hempty : b.items.length = 0
  · rw [encodeArray, if_pos hempty, List.eq_nil_of_length_eq_zero hempty]
    exact ⟨_, rfl, rfl⟩
  · rw [encodeArray, if_neg hempty, dif_neg hbuffer]
    exact ⟨_, rfl, rfl⟩

theorem encodeArray_of_le {b : Sized UInt8} (h : 2 ^ 30 ≤ b.items.length) :
    encodeArray b = .error .negativeArraySize := by
  rw [encodeArray, if_neg (by omega), dif_pos ((bufferLength_neg_iff b).2 h)]

theorem decodeString_eq_ok_iff {s : Sized UInt16} {b : Sized UInt8} :
    decodeString s = .ok b ↔ decode s.items = .ok b.items := by
  rw [decodeString]
  split
  · rename_i herror
    refine iff_of_false (fun h => by cases h) fun h => ?_
    rw [herror] at h
    cases h
  · rename_i out hout
    constructor
    · intro h
      cases h
      exact hout
    · intro h
      obtain rfl := Except.ok.inj (hout.symm.trans h)
      rfl

theorem decodeString_isOk_iff (s : Sized UInt16) :
    (∃ b, decodeString s = .ok b) ↔ s.items.length % 2 = 0 ∧ ∀ c ∈ s.items, IsHexDigit c := by
  have hdecode : (∃ b, decodeString s = .ok b) ↔ ∃ b, decode s.items = .ok b := by
    constructor
    · rintro ⟨b, hb⟩
      exact ⟨b.items, decodeString_eq_ok_iff.1 hb⟩
    · rintro ⟨b, hb⟩
      exact ⟨⟨b, length_decode_lt hb⟩, decodeString_eq_ok_iff.2 hb⟩
  rw [hdecode]
  refine (lawful.decode_iff s.items).trans (and_congr_right fun _ => ?_)
  exact forall₂_congr fun c _ => mem_alphabet_iff

/-- Bytes that were read from a string fit into a string. -/
theorem length_lt_of_decodeString {s : Sized UInt16} {b : Sized UInt8}
    (h : decodeString s = .ok b) : b.items.length < 2 ^ 30 := by
  have hlt := s.length_lt
  rw [length_of_decode (decodeString_eq_ok_iff.1 h)] at hlt
  omega

theorem decodeString_encodeArray {b : Sized UInt8} (h : b.items.length < 2 ^ 30) :
    ∃ s, encodeArray b = .ok s ∧ decodeString s = .ok b := by
  obtain ⟨s, hs, heq⟩ := encodeArray_of_lt h
  refine ⟨s, hs, decodeString_eq_ok_iff.2 ?_⟩
  rw [heq]
  exact decode_encode b.items

theorem encodeArray_decodeString {s : Sized UInt16} {b : Sized UInt8}
    (h : decodeString s = .ok b) :
    ∃ s', encodeArray b = .ok s' ∧ s'.items = s.items.map lowerCase := by
  obtain ⟨s', hs', heq⟩ := encodeArray_of_lt (length_lt_of_decodeString h)
  have hdecode := decodeString_eq_ok_iff.1 h
  exact ⟨s', hs', heq.trans (lawful.encode_decode s.items b.items hdecode)⟩

/-- What is written has digits in lower case only. -/
theorem isLowerHexDigit_of_mem_encode {b : List UInt8} {c : UInt16} (h : c ∈ encode b) :
    IsLowerHexDigit c := by
  have hdigits := (lawful.decode_iff (encode b)).1 ⟨b, decode_encode b⟩
  have hdigit := mem_alphabet_iff.1 (hdigits.2 c h)
  have hnormal : (encode b).map lowerCase = (encode b).map id :=
    (lawful.normal_encode b).trans (List.map_id _).symm
  exact (lowerCase_eq_iff hdigit).1 (List.map_inj_left.1 hnormal c h)

end Base16

/-! ## Ids and their bytes -/

namespace Util

open Base16

/-- An id: an even number of hexadecimal digits in lower case. -/
def IsModifierId (id : Sized UInt16) : Prop :=
  id.items.length % 2 = 0 ∧ ∀ c ∈ id.items, IsLowerHexDigit c

theorem idToBytes_bytesToId {b : Sized UInt8} (h : b.items.length < 2 ^ 30) :
    ∃ id, bytesToId b = .ok id ∧ IsModifierId id ∧ idToBytes id = .ok b := by
  obtain ⟨id, hid, heq⟩ := encodeArray_of_lt h
  refine ⟨id, hid, ⟨?_, fun c hc => ?_⟩, decodeString_eq_ok_iff.2 ?_⟩
  · rw [heq, length_encode]
    exact Nat.mul_mod_right 2 _
  · rw [heq] at hc
    exact isLowerHexDigit_of_mem_encode hc
  · rw [heq]
    exact decode_encode b.items

theorem bytesToId_idToBytes {id : Sized UInt16} (h : IsModifierId id) :
    ∃ b, idToBytes id = .ok b ∧ b.items.length < 2 ^ 30 ∧ bytesToId b = .ok id := by
  obtain ⟨b, hb⟩ := (decodeString_isOk_iff id).2 ⟨h.1, fun c hc => .inl (h.2 c hc)⟩
  obtain ⟨id', hid', heq⟩ := encodeArray_decodeString hb
  have hself : id.items.map lowerCase = id.items := by
    refine (List.map_congr_left fun c hc => ?_).trans (List.map_id id.items)
    exact (lowerCase_eq_iff (.inl (h.2 c hc))).2 (h.2 c hc)
  obtain rfl : id' = id := Sized.ext (heq.trans hself)
  exact ⟨b, hb, length_lt_of_decodeString hb, hid'⟩

/-- **The codec and the ids.**  An array of fewer than `2 ^ 30` bytes is written and read back,
and a longer one has no string.  A string is read just if it has an even number of hexadecimal
digits, and is written again in lower case.  So ids and their bytes are two sides of one thing. -/
theorem base16_codec :
    (∀ b : Sized UInt8, b.items.length < 2 ^ 30 →
      ∃ s, encodeArray b = .ok s ∧ decodeString s = .ok b)
    ∧ (∀ b : Sized UInt8, 2 ^ 30 ≤ b.items.length → encodeArray b = .error .negativeArraySize)
    ∧ (∀ s : Sized UInt16, (∃ b, decodeString s = .ok b)
      ↔ s.items.length % 2 = 0 ∧ ∀ c ∈ s.items, IsHexDigit c)
    ∧ (∀ (s : Sized UInt16) (b : Sized UInt8), decodeString s = .ok b →
      ∃ s', encodeArray b = .ok s' ∧ s'.items = s.items.map lowerCase)
    ∧ (∀ b : Sized UInt8, b.items.length < 2 ^ 30 →
      ∃ id, bytesToId b = .ok id ∧ IsModifierId id ∧ idToBytes id = .ok b)
    ∧ (∀ id : Sized UInt16, IsModifierId id →
      ∃ b, idToBytes id = .ok b ∧ b.items.length < 2 ^ 30 ∧ bytesToId b = .ok id) :=
  ⟨fun _ => decodeString_encodeArray, fun _ => encodeArray_of_le, decodeString_isOk_iff,
    fun _ _ => encodeArray_decodeString, fun _ => idToBytes_bytesToId,
    fun _ => bytesToId_idToBytes⟩

/-- The buffer for an array of `2 ^ 30` bytes would have a negative length. -/
theorem not_base16_codec :
    ¬ ∀ b : Sized UInt8, ∃ s, encodeArray b = .ok s ∧ decodeString s = .ok b := by
  intro hall
  have hlt : (List.replicate (2 ^ 30) (0 : UInt8)).length < 2 ^ 31 := by
    rw [List.length_replicate]
    norm_num
  obtain ⟨s, hs, _⟩ := hall ⟨List.replicate (2 ^ 30) 0, hlt⟩
  rw [encodeArray_of_le List.length_replicate.ge] at hs
  cases hs

end Util

end Sparkz
