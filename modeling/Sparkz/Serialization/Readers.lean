import Mathlib
import Sparkz.Serialization.TypedValues

/-!
# The two readers

`VLQByteBufferReader` reads from a `ByteBuffer` and `VLQByteStringReader` from a
`ByteString` and its iterator.

* `VLQByteBufferReader`, `VLQByteStringReader` — the readers; what the iterator of the
  byte string does in `getByteString` is a parameter, since akka gives it.
* `Op`, `Reader.perform` — the operations of a reader, `Interchangeable` — two readers
  that give the same results, `Within` — the operations that stay inside the bytes.
* `getAll_readers` — both readers give back what was written.
* `interchangeable_iff` — they are interchangeable as long as no chunk is taken and no
  position is set outside of the bytes.
-/

namespace Sparkz.Serialization

open Lib

/-- The methods of the trait `Reader` that an implementation gives. -/
structure Reader (σ : Type) extends VLQSource σ where
  peekByte : σ → Option UInt8
  getChunk : ℤ → StateT σ Option (List UInt8)
  mark : σ → σ
  consumed : σ → ℤ
  position : σ → ℤ
  setPosition : ℤ → σ → Option σ
  remaining : σ → ℤ

/-! ## The reader of a byte buffer -/

/-- The array of the buffer, its position and the field `_mark`.  The limit of a wrapped
array is its length. -/
structure VLQByteBufferReader where
  array : List UInt8
  position : ℕ
  mark : ℕ

namespace VLQByteBufferReader

/-- A reader over `ByteBuffer.wrap(bytes)`. -/
def wrap (bytes : List UInt8) : VLQByteBufferReader := ⟨bytes, 0, 0⟩

/-- `buf.remaining()`. -/
def remaining (r : VLQByteBufferReader) : ℤ := r.array.length - r.position

/-- `getByte()`. -/
def getByte : StateT VLQByteBufferReader Option UInt8 := fun r =>
  (r.array[r.position]?).map fun b => (b, { r with position := r.position + 1 })

/-- `getBytes(size)`: the size is checked, and a negative one makes the allocation throw. -/
def getBytes (size : ℤ) : StateT VLQByteBufferReader Option (List UInt8) := fun r =>
  if r.remaining < size then none
  else if size < 0 then none
  else some ((r.array.drop r.position).take size.toNat,
    { r with position := r.position + size.toNat })

theorem getBytes_eq_none {size : ℤ} {r : VLQByteBufferReader}
    (h : size < 0 ∨ r.remaining < size) : getBytes size r = none := by
  rw [getBytes]
  split
  · rfl
  · rename_i hmore
    rw [if_pos (h.resolve_right hmore)]

/-- `position_=(p)`: `buf.position(p)` throws outside of the buffer. -/
def setPosition (p : ℤ) (r : VLQByteBufferReader) : Option VLQByteBufferReader :=
  if p < 0 ∨ (r.array.length : ℤ) < p then none else some { r with position := p.toNat }

/-- The methods of the reader. -/
def reader : Reader VLQByteBufferReader where
  getByte := getByte
  getBytes := getBytes
  peekByte r := r.array[r.position]?
  getChunk := getBytes
  mark r := { r with mark := r.position }
  consumed r := r.position - r.mark
  position r := r.position
  setPosition := setPosition
  remaining := remaining

end VLQByteBufferReader

/-! ## The reader of a byte string -/

/-- The byte string, its iterator and the fields `_position` and `_mark`. -/
structure VLQByteStringReader where
  byteString : List UInt8
  it : List UInt8
  position : ℤ
  mark : ℤ

namespace VLQByteStringReader

/-- A reader over a byte string. -/
def make (bytes : List UInt8) : VLQByteStringReader := ⟨bytes, bytes, 0, 0⟩

/-- `getByte()`. -/
def getByte : StateT VLQByteStringReader Option UInt8 := fun r =>
  match r.it with
  | [] => none
  | b :: it => some (b, { r with it, position := r.position + 1 })

/-- `getBytes(size)`. -/
def getBytes (size : ℤ) : StateT VLQByteStringReader Option (List UInt8) := fun r =>
  if (r.it.length : ℤ) < size then none
  else if size < 0 then none
  else some (r.it.take size.toNat,
    { r with it := r.it.drop size.toNat, position := r.position + size })

/-- `byteString(position)`. -/
def peekByte (r : VLQByteStringReader) : Option UInt8 :=
  if r.position < 0 then none else r.byteString[r.position.toNat]?

/-- `position_=(p)`: the iterator starts anew and drops as many bytes as there are. -/
def setPosition (p : ℤ) (r : VLQByteStringReader) : Option VLQByteStringReader :=
  some { r with position := p, it := r.byteString.drop p.toNat }

section getByteString

-- what `it.getByteString(size)` returns and leaves, or that it throws
variable (getByteString : List UInt8 → ℤ → Option (List UInt8 × List UInt8))

/-- `getChunk(size)`: only the iterator moves. -/
def getChunk (size : ℤ) : StateT VLQByteStringReader Option (List UInt8) := fun r =>
  (getByteString r.it size).map fun p => (p.1, { r with it := p.2 })

/-- The methods of the reader. -/
def reader : Reader VLQByteStringReader where
  getByte := getByte
  getBytes := getBytes
  peekByte := peekByte
  getChunk := getChunk getByteString
  mark r := { r with mark := r.position }
  consumed r := r.position - r.mark
  position r := r.position
  setPosition := setPosition
  remaining r := r.it.length

end getByteString

end VLQByteStringReader

/-! ## Operations -/

/-- The operations of a reader. -/
inductive Op
  | getByte | peekByte | getUByte | getBoolean
  | getShort | getUShort | getInt | getUInt | getLong | getULong
  | getBytes (size : Int32)
  | getBits (size : Int32)
  | getChunk (size : Int32)
  | getShortString
  | mark | consumed | position
  | setPosition (p : Int32)
  | remaining

/-- What an operation returns. -/
inductive Op.Result
  | byte (x : UInt8) | boolean (x : Bool) | short (x : UInt16) | int (x : UInt32)
  | long (x : UInt64) | number (x : ℤ) | bytes (x : List UInt8) | bits (x : List Bool)
  | done
  deriving DecidableEq

/-- An operation by its method. -/
def Reader.perform {σ : Type} (reader : Reader σ) : Op → StateT σ Option Op.Result
  | .getByte => .byte <$> reader.getByte
  | .peekByte => fun s => (reader.peekByte s).map fun b => (.byte b, s)
  | .getUByte => (fun n : ℕ => .number n) <$> reader.getUByte
  | .getBoolean => .boolean <$> reader.getBoolean
  | .getShort => .short <$> reader.getShort
  | .getUShort => (fun n : ℕ => .number n) <$> reader.getUShort
  | .getInt => .int <$> reader.getInt
  | .getUInt => (fun n : ℕ => .number n) <$> reader.getUInt
  | .getLong => .long <$> reader.getLong
  | .getULong => .long <$> reader.getULong
  | .getBytes size => .bytes <$> reader.getBytes size.toInt
  | .getBits size => .bits <$> reader.getBits size
  | .getChunk size => .bytes <$> reader.getChunk size.toInt
  | .getShortString => .bytes <$> reader.getShortString
  | .mark => fun s => some (.done, reader.mark s)
  | .consumed => fun s => some (.number (reader.consumed s), s)
  | .position => fun s => some (.number (reader.position s), s)
  | .setPosition p => fun s => (reader.setPosition p.toInt s).map fun s' => (.done, s')
  | .remaining => fun s => some (.number (reader.remaining s), s)

/-- Step by step, both readers fail, or both return the same result and are then at the
same position, with as many bytes consumed and remaining. -/
def Interchangeable {σ τ : Type} (reader : Reader σ) (reader' : Reader τ) :
    σ → τ → List Op → Prop
  | _, _, [] => True
  | s, t, op :: ops =>
      match reader.perform op s, reader'.perform op t with
      | some (x, s'), some (y, t') =>
          x = y ∧ reader.position s' = reader'.position t' ∧
            reader.consumed s' = reader'.consumed t' ∧
            reader.remaining s' = reader'.remaining t' ∧ Interchangeable reader reader' s' t' ops
      | none, none => True
      | _, _ => False

/-! ## Both readers read what was written -/

/-- A byte buffer and the bytes that it has not read. -/
def VLQByteBufferReader.Remains (r : VLQByteBufferReader) (bytes : List UInt8) : Prop :=
  r.position ≤ r.array.length ∧ r.array.drop r.position = bytes

theorem VLQByteBufferReader.alike_listSource :
    VLQByteBufferReader.reader.toVLQSource.Alike VLQByteBufferReader.Remains listSource where
  getByte := by
    rintro r bytes ⟨hle, rfl⟩
    show Option.Rel _ (VLQByteBufferReader.getByte r) (VLQReader.getByte _)
    rw [VLQByteBufferReader.getByte]
    by_cases hlt : r.position < r.array.length
    · rw [List.drop_eq_getElem_cons hlt, List.getElem?_eq_getElem hlt]
      exact .some ⟨rfl, Nat.succ_le_of_lt hlt, rfl⟩
    · rw [List.drop_of_length_le (by omega), List.getElem?_eq_none (by omega)]
      exact .none
  getBytes size := by
    rintro r bytes ⟨hle, rfl⟩
    show Option.Rel _ (VLQByteBufferReader.getBytes size r) (VLQReader.getBytes size _)
    rw [VLQByteBufferReader.getBytes, VLQReader.getBytes, VLQByteBufferReader.remaining,
      List.length_drop]
    by_cases hmore : (r.array.length : ℤ) - r.position < size
    · rw [if_pos hmore, if_pos (by omega)]
      exact .none
    · rw [if_neg hmore]
      by_cases hneg : size < 0
      · rw [if_pos hneg, if_pos (by omega)]
        exact .none
      · rw [if_neg hneg, if_neg (by omega)]
        refine .some ⟨rfl, ?_, (List.drop_drop ..).symm⟩
        show r.position + size.toNat ≤ r.array.length
        omega

section getByteString

variable (getByteString : List UInt8 → ℤ → Option (List UInt8 × List UInt8))

theorem VLQByteStringReader.alike_listSource :
    (VLQByteStringReader.reader getByteString).toVLQSource.Alike (fun r bytes => r.it = bytes)
      listSource where
  getByte := by
    rintro r bytes rfl
    show Option.Rel _ (VLQByteStringReader.getByte r) (VLQReader.getByte _)
    rw [VLQByteStringReader.getByte]
    cases r.it with
    | nil => exact .none
    | cons b it => exact .some ⟨rfl, rfl⟩
  getBytes size := by
    rintro r bytes rfl
    show Option.Rel _ (VLQByteStringReader.getBytes size r) (VLQReader.getBytes size _)
    rw [VLQByteStringReader.getBytes, VLQReader.getBytes]
    by_cases hmore : (r.it.length : ℤ) < size
    · rw [if_pos hmore, if_pos (.inr hmore)]
      exact .none
    · rw [if_neg hmore]
      by_cases hneg : size < 0
      · rw [if_pos hneg, if_pos (.inl hneg)]
        exact .none
      · rw [if_neg hneg, if_neg (by omega)]
        exact .some ⟨rfl, rfl⟩

/-- **Round trip**: values in range are written without an error, the matching get calls of
both readers return them in order and consume all bytes; a number takes one byte for every
seven bits. -/
theorem getAll_readers (values : List TypedValue) (h : ∀ v ∈ values, v.kind.Admits v.value) :
    (∃ bytes, putAll values = some bytes ∧
      (∃ r, getAll VLQByteBufferReader.reader.toVLQSource (values.map TypedValue.kind)
          (VLQByteBufferReader.wrap bytes) = some (values, r) ∧ r.remaining = 0) ∧
      ∃ r, getAll (VLQByteStringReader.reader getByteString).toVLQSource
          (values.map TypedValue.kind) (VLQByteStringReader.make bytes) = some (values, r) ∧
        r.it = []) ∧
    ∀ x : UInt64, (VLQWriter.putULong x).length = max 1 ((x.toNat.size + 6) / 7) ∧
      (VLQWriter.putULong x).length ≤ 10 := by
  refine ⟨?_, length_putULong⟩
  obtain ⟨bytes, hput, hget⟩ := getAll_putAll values h
  have hlist := hget []
  rw [List.append_nil] at hlist
  have hbuffer := getAll_alike VLQByteBufferReader.alike_listSource (values.map TypedValue.kind)
  have hstring := getAll_alike (VLQByteStringReader.alike_listSource getByteString)
    (values.map TypedValue.kind)
  obtain ⟨r, hr, hle, hdrop⟩ := hbuffer.symm.of_some (s := bytes)
    (t := VLQByteBufferReader.wrap bytes) ⟨Nat.zero_le _, rfl⟩ hlist
  obtain ⟨r', hr', hit⟩ := hstring.symm.of_some (s := bytes)
    (t := VLQByteStringReader.make bytes) rfl hlist
  refine ⟨bytes, hput, ⟨r, hr, ?_⟩, r', hr', hit⟩
  have hlength := List.drop_eq_nil_iff.1 hdrop
  rw [VLQByteBufferReader.remaining]
  omega

end getByteString

/-- The largest number, and an option of bits. -/
theorem getAll_readers_ten_bytes :
    ∃ bytes, putAll [⟨.uLong, (0xFFFFFFFFFFFFFFFF : UInt64)⟩,
        ⟨.option (.bits 3), some [true, false, true]⟩] = some bytes ∧
      ∃ r, getAll VLQByteBufferReader.reader.toVLQSource [.uLong, .option (.bits 3)]
          (VLQByteBufferReader.wrap bytes)
        = some ([⟨.uLong, (0xFFFFFFFFFFFFFFFF : UInt64)⟩,
            ⟨.option (.bits 3), some [true, false, true]⟩], r) ∧ r.remaining = 0 := by
  obtain ⟨⟨bytes, hput, hbuffer, -⟩, -⟩ := getAll_readers (fun _ _ => none)
    [⟨.uLong, (0xFFFFFFFFFFFFFFFF : UInt64)⟩, ⟨.option (.bits 3), some [true, false, true]⟩] (by
      intro v hv
      obtain rfl | hv := List.mem_cons.1 hv
      · trivial
      · obtain rfl := List.mem_singleton.1 hv
        intro y hy
        obtain rfl := Option.some.inj hy
        exact ⟨rfl, by decide⟩)
  exact ⟨bytes, hput, hbuffer⟩

/-! ## Where the readers differ -/

/-- Both readers hold the same bytes and are at the same place in them. -/
structure SameCursor (r : VLQByteBufferReader) (s : VLQByteStringReader) : Prop where
  bytes : s.byteString = r.array
  inside : r.position ≤ r.array.length
  it : s.it = r.array.drop r.position
  position : s.position = r.position
  mark : s.mark = r.mark

namespace SameCursor

variable {getByteString : List UInt8 → ℤ → Option (List UInt8 × List UInt8)}

theorem wrap (bytes : List UInt8) :
    SameCursor (VLQByteBufferReader.wrap bytes) (VLQByteStringReader.make bytes) :=
  ⟨rfl, Nat.zero_le _, rfl, rfl, rfl⟩

theorem length_it {r : VLQByteBufferReader} {s : VLQByteStringReader} (h : SameCursor r s) :
    (s.it.length : ℤ) = r.remaining := by
  have := h.inside
  rw [h.it, List.length_drop, VLQByteBufferReader.remaining]
  omega

theorem alike : VLQByteBufferReader.reader.toVLQSource.Alike SameCursor
    (VLQByteStringReader.reader getByteString).toVLQSource where
  getByte := by
    intro r s h
    show Option.Rel _ (VLQByteBufferReader.getByte r) (VLQByteStringReader.getByte s)
    rw [VLQByteBufferReader.getByte, VLQByteStringReader.getByte]
    have hle := h.inside
    by_cases hlt : r.position < r.array.length
    · rw [h.it, List.drop_eq_getElem_cons hlt, List.getElem?_eq_getElem hlt]
      refine .some ⟨rfl, h.bytes, Nat.succ_le_of_lt hlt, rfl, ?_, h.mark⟩
      show s.position + 1 = _
      rw [h.position]
      rfl
    · rw [h.it, List.drop_of_length_le (by omega), List.getElem?_eq_none (by omega)]
      exact .none
  getBytes size := by
    intro r s h
    show Option.Rel _ (VLQByteBufferReader.getBytes size r) (VLQByteStringReader.getBytes size s)
    rw [VLQByteBufferReader.getBytes, VLQByteStringReader.getBytes, h.length_it]
    by_cases hmore : r.remaining < size
    · rw [if_pos hmore, if_pos hmore]
      exact .none
    · rw [if_neg hmore, if_neg hmore]
      by_cases hneg : size < 0
      · rw [if_pos hneg, if_pos hneg]
        exact .none
      · rw [if_neg hneg, if_neg hneg]
        rw [VLQByteBufferReader.remaining] at hmore
        refine .some ⟨by rw [h.it], h.bytes, ?_, ?_, ?_, h.mark⟩
        · show r.position + size.toNat ≤ r.array.length
          omega
        · show s.it.drop size.toNat = r.array.drop (r.position + size.toNat)
          rw [h.it, List.drop_drop]
        · show s.position + size = ((r.position + size.toNat : ℕ) : ℤ)
          rw [h.position]
          omega

end SameCursor

section getByteString

variable (getByteString : List UInt8 → ℤ → Option (List UInt8 × List UInt8))

/-- The operation stays inside the bytes: a chunk is empty, or asks for a size that no
bytes remain for and that makes `getByteString` throw as well. -/
def Op.Within (r : VLQByteBufferReader) : Op → Prop
  | .getChunk size =>
      size.toInt = 0 ∨ (size.toInt < 0 ∨ r.remaining < size.toInt) ∧
        getByteString (r.array.drop r.position) size.toInt = none
  | .setPosition p => 0 ≤ p.toInt ∧ p.toInt ≤ r.array.length
  | _ => True

/-- Every operation that is reached stays inside the bytes. -/
def Within : VLQByteBufferReader → List Op → Prop
  | _, [] => True
  | r, op :: ops => op.Within getByteString r ∧
      ∀ x r', VLQByteBufferReader.reader.perform op r = some (x, r') → Within r' ops

variable {getByteString}

/-- An operation inside the bytes gives the same on both readers. -/
theorem SameCursor.perform
    (hchunk : ∀ it size, 0 ≤ size → size ≤ (it.length : ℤ) →
      getByteString it size = some (it.take size.toNat, it.drop size.toNat))
    {r : VLQByteBufferReader} {s : VLQByteStringReader} (h : SameCursor r s) {op : Op}
    (hop : op.Within getByteString r) :
    Option.Rel (fun p q => p.1 = q.1 ∧ SameCursor p.2 q.2)
      (VLQByteBufferReader.reader.perform op r)
      ((VLQByteStringReader.reader getByteString).perform op s) := by
  cases op with
  | getByte => exact SameCursor.alike.getByte.map _ r s h
  | peekByte =>
    show Option.Rel _ ((r.array[r.position]?).map _) ((VLQByteStringReader.peekByte s).map _)
    rw [VLQByteStringReader.peekByte, h.position, if_neg (by omega), Int.toNat_natCast, h.bytes]
    cases r.array[r.position]? with
    | none => exact .none
    | some b => exact .some ⟨rfl, h⟩
  | getUByte => exact SameCursor.alike.getUByte.map _ r s h
  | getBoolean => exact SameCursor.alike.getBoolean.map _ r s h
  | getShort => exact SameCursor.alike.getShort.map _ r s h
  | getUShort => exact SameCursor.alike.getUShort.map _ r s h
  | getInt => exact SameCursor.alike.getInt.map _ r s h
  | getUInt => exact SameCursor.alike.getUInt.map _ r s h
  | getLong => exact SameCursor.alike.getLong.map _ r s h
  | getULong => exact SameCursor.alike.getULong.map _ r s h
  | getBytes size => exact (SameCursor.alike.getBytes _).map _ r s h
  | getBits size => exact (SameCursor.alike.getBits _).map _ r s h
  | getShortString => exact SameCursor.alike.getShortString.map _ r s h
  | getChunk size =>
    refine Alike.rel_map _ ?_
    show Option.Rel _ (VLQByteBufferReader.getBytes size.toInt r)
      (VLQByteStringReader.getChunk getByteString size.toInt s)
    rw [VLQByteStringReader.getChunk, h.it]
    obtain hzero | ⟨hout, hthrows⟩ := hop
    · have hle := h.inside
      rw [hzero, hchunk _ 0 (Int.le_refl 0) (Int.natCast_nonneg _), VLQByteBufferReader.getBytes,
        VLQByteBufferReader.remaining, if_neg (by omega), if_neg (by omega)]
      exact .some ⟨rfl, h.bytes, h.inside, rfl, h.position, h.mark⟩
    · rw [hthrows, VLQByteBufferReader.getBytes_eq_none hout]
      exact .none
  | mark => exact .some ⟨rfl, h.bytes, h.inside, h.it, h.position, h.position⟩
  | consumed =>
    refine .some ⟨?_, h⟩
    show Op.Result.number (r.position - r.mark) = .number (s.position - s.mark)
    rw [h.position, h.mark]
  | position =>
    refine .some ⟨?_, h⟩
    show Op.Result.number r.position = .number s.position
    rw [h.position]
  | setPosition p =>
    show Option.Rel _ ((VLQByteBufferReader.setPosition p.toInt r).map _) (some _)
    rw [VLQByteBufferReader.setPosition, if_neg (by have := hop.1; have := hop.2; omega)]
    refine .some ⟨rfl, h.bytes, ?_, ?_, ?_, h.mark⟩
    · exact Int.toNat_le.2 hop.2
    · show s.byteString.drop p.toInt.toNat = _
      rw [h.bytes]
    · exact (Int.toNat_of_nonneg hop.1).symm
  | remaining =>
    refine .some ⟨?_, h⟩
    show Op.Result.number r.remaining = .number s.it.length
    rw [h.length_it]

/-- **An operation outside of the bytes** is told apart at once: the byte string reader
does not fail, or it stays at its position. -/
theorem SameCursor.perform_outside
    (hchunk : ∀ it size, 0 ≤ size → size ≤ (it.length : ℤ) →
      getByteString it size = some (it.take size.toNat, it.drop size.toNat))
    {r : VLQByteBufferReader} {s : VLQByteStringReader} (h : SameCursor r s) {op : Op}
    (hop : ¬op.Within getByteString r) (ops : List Op) :
    ¬Interchangeable VLQByteBufferReader.reader (VLQByteStringReader.reader getByteString) r s
      (op :: ops) := by
  intro hsame
  rw [Interchangeable] at hsame
  cases op with
  | getChunk size =>
    have hstring : (VLQByteStringReader.reader getByteString).perform (.getChunk size) s
        = (getByteString s.it size.toInt).map fun p => (.bytes p.1, { s with it := p.2 }) := by
      show (Op.Result.bytes <$> VLQByteStringReader.getChunk getByteString size.toInt) s = _
      rw [Alike.map_apply, VLQByteStringReader.getChunk, Option.map_map]
      rfl
    have hbuffer : VLQByteBufferReader.reader.perform (.getChunk size) r
        = (VLQByteBufferReader.getBytes size.toInt r).map fun p => (.bytes p.1, p.2) :=
      Alike.map_apply _ _ _
    obtain ⟨hsize, hout⟩ := not_or.1 hop
    by_cases hinside : size.toInt < 0 ∨ r.remaining < size.toInt
    · -- the byte string reader goes on where the byte buffer reader throws
      obtain ⟨p, hp⟩ := Option.ne_none_iff_exists'.1 fun hnone => hout ⟨hinside, hnone⟩
      rw [← h.it] at hp
      rw [hstring, hp, hbuffer, VLQByteBufferReader.getBytes_eq_none hinside] at hsame
      exact hsame
    · -- the byte string reader stays where the byte buffer reader moves on
      rw [not_or, Int.not_lt, Int.not_lt, ← h.length_it] at hinside
      have hlength := h.length_it
      rw [hstring, hchunk _ _ hinside.1 hinside.2, hbuffer, VLQByteBufferReader.getBytes,
        if_neg (by omega), if_neg (by omega)] at hsame
      have hposition : ((r.position + size.toInt.toNat : ℕ) : ℤ) = s.position := hsame.2.1
      rw [h.position] at hposition
      omega
  | setPosition p =>
    have hbuffer : VLQByteBufferReader.reader.perform (.setPosition p) r = none := by
      show (VLQByteBufferReader.setPosition p.toInt r).map _ = none
      have houtside : p.toInt < 0 ∨ (r.array.length : ℤ) < p.toInt := by
        by_contra hnot
        rw [not_or, Int.not_lt, Int.not_lt] at hnot
        exact hop hnot
      rw [VLQByteBufferReader.setPosition, if_pos houtside]
      rfl
    rw [hbuffer] at hsame
    exact hsame
  | _ => exact hop trivial

/-- **Where the readers are interchangeable**: exactly where no chunk is taken that is not
empty, and no position is set outside of the bytes. -/
theorem interchangeable_iff
    (hchunk : ∀ it size, 0 ≤ size → size ≤ (it.length : ℤ) →
      getByteString it size = some (it.take size.toNat, it.drop size.toNat))
    (bytes : List UInt8) (ops : List Op) :
    Interchangeable VLQByteBufferReader.reader (VLQByteStringReader.reader getByteString)
        (VLQByteBufferReader.wrap bytes) (VLQByteStringReader.make bytes) ops
      ↔ Within getByteString (VLQByteBufferReader.wrap bytes) ops := by
  have hstart := SameCursor.wrap bytes
  generalize VLQByteBufferReader.wrap bytes = r, VLQByteStringReader.make bytes = s at hstart
  induction ops generalizing r s with
  | nil => exact ⟨fun _ => trivial, fun _ => trivial⟩
  | cons op ops ih =>
    by_cases hop : op.Within getByteString r
    · have hstep := hstart.perform hchunk hop
      rw [Interchangeable, Within]
      generalize VLQByteBufferReader.reader.perform op r = p,
        (VLQByteStringReader.reader getByteString).perform op s = q at hstep
      cases hstep with
      | none => exact ⟨fun _ => ⟨hop, fun x r' hr' => by cases hr'⟩, fun _ => trivial⟩
      | @some p q hpq =>
        obtain ⟨hresult, hcursor⟩ := hpq
        constructor
        · intro hsame
          refine ⟨hop, fun x r' hr' => ?_⟩
          obtain rfl := Option.some.inj hr'
          exact (ih _ _ hcursor).1 hsame.2.2.2.2
        · intro hwithin
          refine ⟨hresult, hcursor.position.symm, ?_, hcursor.length_it.symm,
            (ih _ _ hcursor).2 (hwithin.2 _ _ rfl)⟩
          show (p.2.position : ℤ) - p.2.mark = q.2.position - q.2.mark
          rw [hcursor.position, hcursor.mark]
    · exact ⟨fun h => absurd h (hstart.perform_outside hchunk hop ops), fun h => absurd h.1 hop⟩

end getByteString

/-- A byte string iterator that takes as many bytes as there are. -/
def takeByteString (it : List UInt8) (size : ℤ) : Option (List UInt8 × List UInt8) :=
  some (it.take size.toNat, it.drop size.toNat)

/-- Without a chunk, and with a position inside, the readers agree on these bytes. -/
theorem interchangeable_iff_two_bytes :
    Interchangeable VLQByteBufferReader.reader (VLQByteStringReader.reader takeByteString)
      (VLQByteBufferReader.wrap [0x80, 0x01]) (VLQByteStringReader.make [0x80, 0x01])
      [.getULong, .setPosition 1, .getChunk 0, .getByte] := by
  refine (interchangeable_iff (fun _ _ _ _ => rfl) [0x80, 0x01] _).2 ?_
  refine ⟨trivial, fun x r hr => ?_⟩
  obtain ⟨-, rfl⟩ := Prod.mk.inj (Option.some.inj hr)
  refine ⟨⟨by decide, by decide⟩, fun x r hr => ?_⟩
  obtain ⟨-, rfl⟩ := Prod.mk.inj (Option.some.inj hr)
  exact ⟨.inl rfl, fun x r hr => ⟨trivial, fun _ _ _ => trivial⟩⟩

/-- After a chunk of one byte the two readers are at different positions. -/
theorem chunk_moves_one_reader :
    ¬∀ bytes ops, Interchangeable VLQByteBufferReader.reader
      (VLQByteStringReader.reader takeByteString) (VLQByteBufferReader.wrap bytes)
      (VLQByteStringReader.make bytes) ops := by
  intro h
  have hposition := (h [7] [.getChunk 1]).2.1
  exact absurd hposition (by decide)

end Sparkz.Serialization
