import Sparkz.Lib.Bytes

/-!
# Encoders of bytes as text

The interface of the encoders, and what it is for.

* `Sized` — arrays and strings, whose length is an `Int`.
* `BytesEncoder` — an alphabet, `encode` and `decode`.
* `BytesEncoder.Lawful` — the strings that an encoder reads and the form in which it writes
  them again; `eq_of_encode`, `decode_eq_ok_iff`.
-/

namespace Sparkz

/-- The UTF-16 code units of a character. -/
def utf16 (c : Char) : List UInt16 :=
  if c.toNat < 0x10000 then [.ofNat c.toNat]
  else [.ofNat (0xD800 + (c.toNat - 0x10000) / 0x400),
    .ofNat (0xDC00 + (c.toNat - 0x10000) % 0x400)]

/-- The UTF-16 code units of a string; the strings here are lists of code units, each one of the
source's characters. -/
def codeUnits (s : String) : List UInt16 := s.toList.flatMap utf16

theorem codeUnits_ofList (l : List Char) : codeUnits (String.ofList l) = l.flatMap utf16 := by
  rw [codeUnits, String.toList_ofList]

/-- A character of plain text in lower case. -/
def lowerCase (c : UInt16) : UInt16 := if 65 ≤ c ∧ c ≤ 90 then c + 32 else c

/-- An array, or a string as its code units: its length is an `Int`. -/
@[ext] structure Sized (α : Type) where
  items : List α
  length_lt : items.length < 2 ^ 31

/-- An encoder: the allowed characters, and the two directions. Decoding fails with a message
on an incorrect character. -/
structure BytesEncoder where
  alphabet : List UInt16
  encode : List UInt8 → List UInt16
  decode : List UInt16 → Except String (List UInt8)

namespace BytesEncoder

/-- What is written is read back, exactly the strings in `valid` are read, and the bytes of
such a string are written as `normal` of it. -/
structure Lawful (E : BytesEncoder) (valid : List UInt16 → Prop)
    (normal : List UInt16 → List UInt16) : Prop where
  decode_encode : ∀ b, E.decode (E.encode b) = .ok b
  decode_iff : ∀ s, (∃ b, E.decode s = .ok b) ↔ valid s
  encode_decode : ∀ s b, E.decode s = .ok b → E.encode b = normal s

namespace Lawful

variable {E : BytesEncoder} {valid : List UInt16 → Prop} {normal : List UInt16 → List UInt16}
  {b b' : List UInt8} {s : List UInt16}

/-- Different bytes are written differently. -/
theorem eq_of_encode (h : E.Lawful valid normal) (heq : E.encode b = E.encode b') : b = b' := by
  have hread := h.decode_encode b
  rw [heq, h.decode_encode b'] at hread
  exact (Except.ok.inj hread).symm

/-- What is written is in normal form. -/
theorem normal_encode (h : E.Lawful valid normal) (b : List UInt8) :
    normal (E.encode b) = E.encode b :=
  (h.encode_decode (E.encode b) b (h.decode_encode b)).symm

/-- The strings that are read as given bytes are the valid ones with the same normal form. -/
theorem decode_eq_ok_iff (h : E.Lawful valid normal) :
    E.decode s = .ok b ↔ valid s ∧ normal s = E.encode b := by
  constructor
  · intro hdecode
    exact ⟨(h.decode_iff s).1 ⟨b, hdecode⟩, (h.encode_decode s b hdecode).symm⟩
  · rintro ⟨hvalid, hnormal⟩
    obtain ⟨b', hdecode⟩ := (h.decode_iff s).2 hvalid
    rw [← h.encode_decode s b' hdecode] at hnormal
    rw [hdecode, h.eq_of_encode hnormal]

end Lawful

end BytesEncoder

/-- A character below the letters in lower case is no letter. -/
theorem eq_of_lowerCase {c d : UInt16} (h : lowerCase c = d) (hd : d < 97) : c = d := by
  rw [lowerCase] at h
  split at h
  · rename_i hletter
    have hlow := UInt16.le_iff_toNat_le.1 hletter.1
    have hhigh := UInt16.le_iff_toNat_le.1 hletter.2
    have hlt := UInt16.lt_iff_toNat_lt.1 hd
    rw [← h, UInt16.toNat_add] at hlt
    have h65 : (65 : UInt16).toNat = 65 := rfl
    have h90 : (90 : UInt16).toNat = 90 := rfl
    have h32 : (32 : UInt16).toNat = 32 := rfl
    have h97 : (97 : UInt16).toNat = 97 := rfl
    omega
  · exact h

end Sparkz
