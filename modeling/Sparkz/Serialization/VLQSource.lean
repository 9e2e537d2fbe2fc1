import Mathlib
import Sparkz.Lib.Alike

/-!
# The methods of the VLQ reader over any source

`VLQReader` is a trait: its methods are written with `getByte` and `getBytes`, which an
implementation gives.  A method fails where the code throws.

* `VLQSource` — what an implementation gives.
* `getULong`, `getShort`, `getBits` and their likes — the methods of the trait:
  variable-length numbers have seven bits a byte, the lowest first.
* `VLQReader`, `listSource` — the reader that takes bytes off the front of a list.
* `VLQSource.Alike` — sources that cannot be told apart; the methods cannot be told apart
  over them.

A `Long` is a 64-bit word, an `Int` is a 32-bit word and a `Short` is a 16-bit word.  A string
is the byte string of its UTF-8 encoding.
-/

namespace Sparkz.Serialization

open Lib

/-! ## Bit vectors -/

namespace BitSet

/-- The byte that holds the eight bits from `8 * i` on, the lowest first. -/
def byteAt (bits : List Bool) (i : ℕ) : UInt8 :=
  UInt8.ofBitVec ((BitVec.ofBoolListLE ((bits.drop (8 * i)).take 8)).setWidth 8)

/-- `toByteArray`: it stops at the last bit that is set. -/
def toByteArray (bits : List Bool) : List UInt8 :=
  ((List.range ((bits.length + 7) / 8)).map (byteAt bits)).rdropWhile (· == 0)

/-- `valueOf(bytes).get(i)`. -/
def get (bytes : List UInt8) (i : ℕ) : Bool :=
  (bytes.getD (i / 8) 0).toBitVec.getLsbD (i % 8)

/-- `Arrays.copyOf(bytes, size)`: cut or filled with zeros, a negative size throws. -/
def copyOf (bytes : List UInt8) (size : ℤ) : Option (List UInt8) :=
  if size < 0 then none
  else some (bytes.take size.toNat ++ List.replicate (size.toNat - bytes.length) 0)

end BitSet

/-! ## The trait -/

/-- `decodeZigZagLong(n)`. -/
def VLQReader.decodeZigZagLong (n : UInt64) : UInt64 := (n >>> 1) ^^^ ((0 : UInt64) - (n &&& 1))

/-- `decodeZigZagInt(n)`. -/
def VLQReader.decodeZigZagInt (n : UInt32) : UInt32 := (n >>> 1) ^^^ ((0 : UInt32) - (n &&& 1))

open VLQReader (decodeZigZagInt decodeZigZagLong)

/-- What an implementation gives to the trait. -/
structure VLQSource (σ : Type) where
  getByte : StateT σ Option UInt8
  getBytes : ℤ → StateT σ Option (List UInt8)

namespace VLQSource

variable {σ α : Type} (source : VLQSource σ)

/-- `getUByte()`. -/
def getUByte : StateT σ Option ℕ := do
  let b ← source.getByte
  return b.toNat

/-- `getBoolean()`. -/
def getBoolean : StateT σ Option Bool := do
  let b ← source.getByte
  return b == 0x01

/-- The loop of `getULong`, from a given shift on; the shift goes up by seven in each
turn and has to stay below 64. -/
def getULongFrom : ℕ → ℕ → UInt64 → StateT σ Option UInt64
  | 0, _, _ => failure
  | turns + 1, shift, result => do
      let b ← source.getByte
      let result := result ||| ((b &&& 0x7F).toUInt64 <<< UInt64.ofNat shift)
      if b &&& 0x80 = 0 then return result else getULongFrom turns (shift + 7) result

/-- `getULong()`. -/
def getULong : StateT σ Option UInt64 := source.getULongFrom 10 0 0

/-- `getShort()`. -/
def getShort : StateT σ Option UInt16 := do
  let n ← source.getULong
  return (decodeZigZagInt n.toUInt32).toUInt16

/-- `getUShort()`: the word is cut to 32 bits before the range check. -/
def getUShort : StateT σ Option ℕ := do
  let x ← source.getULong
  let x := x.toUInt32.toInt32.toInt
  if 0 ≤ x ∧ x ≤ 0xFFFF then return x.toNat else failure

/-- `getInt()`. -/
def getInt : StateT σ Option UInt32 := do
  let n ← source.getULong
  return decodeZigZagInt n.toUInt32

/-- `getUInt()`: the word is a signed number in the range check. -/
def getUInt : StateT σ Option ℕ := do
  let x ← source.getULong
  if 0 ≤ x.toInt64.toInt ∧ x.toInt64.toInt ≤ 0xFFFFFFFF then return x.toNat else failure

/-- `getLong()`. -/
def getLong : StateT σ Option UInt64 := do
  let n ← source.getULong
  return decodeZigZagLong n

/-- `getBits(size)`: the number of bytes is computed on the `Int`, and the array of the
bits is allocated after they are read. -/
def getBits (size : Int32) : StateT σ Option (List Bool) := do
  if size = 0 then return []
  else
    let bitSet ← source.getBytes ((size + 7) >>> 3).toInt
    if size < 0 then failure
    else return (List.range size.toInt.toNat).map (BitSet.get bitSet)

/-- `getOption(getValue)`. -/
def getOption (getValue : StateT σ Option α) : StateT σ Option (Option α) := do
  let tag ← source.getByte
  if tag ≠ 0 then
    let v ← getValue
    return some v
  else return none

/-- `getShortString()`. -/
def getShortString : StateT σ Option (List UInt8) := do
  let size ← source.getUByte
  source.getBytes size

end VLQSource

/-! ## Lists of bytes -/

/-- A reader: the value read and the bytes that remain. -/
abbrev VLQReader := StateT (List UInt8) Option

namespace VLQReader

/-- `getByte()`. -/
def getByte : VLQReader UInt8
  | [] => none
  | b :: bytes => some (b, bytes)

/-- `remaining`. -/
def remaining : VLQReader ℕ := fun bytes => some (bytes.length, bytes)

/-- `getBytes(size)`: a negative size makes the array allocation throw. -/
def getBytes (size : ℤ) : VLQReader (List UInt8) := fun bytes =>
  if size < 0 ∨ (bytes.length : ℤ) < size then none
  else some (bytes.take size.toNat, bytes.drop size.toNat)

end VLQReader

/-- The reader that takes bytes off the front of a list. -/
@[reducible] def listSource : VLQSource (List UInt8) := ⟨VLQReader.getByte, VLQReader.getBytes⟩

/-! ## Sources that cannot be told apart -/

namespace VLQSource

variable {σ τ α : Type} {R : σ → τ → Prop} {source : VLQSource σ} {source' : VLQSource τ}

/-- The two methods of the sources are alike. -/
structure Alike (R : σ → τ → Prop) (source : VLQSource σ) (source' : VLQSource τ) : Prop where
  getByte : Lib.Alike R source.getByte source'.getByte
  getBytes : ∀ size, Lib.Alike R (source.getBytes size) (source'.getBytes size)

namespace Alike

variable (h : Alike R source source')

include h

theorem getUByte : Lib.Alike R source.getUByte source'.getUByte :=
  h.getByte.bind fun _ => .pure _

theorem getBoolean : Lib.Alike R source.getBoolean source'.getBoolean :=
  h.getByte.bind fun _ => .pure _

theorem getULongFrom (turns shift : ℕ) (acc : UInt64) :
    Lib.Alike R (source.getULongFrom turns shift acc) (source'.getULongFrom turns shift acc) := by
  induction turns generalizing shift acc with
  | zero => exact .failure
  | succ turns ih => exact h.getByte.bind fun b => .ite (.pure _) (ih _ _)

theorem getULong : Lib.Alike R source.getULong source'.getULong :=
  h.getULongFrom 10 0 0

theorem getShort : Lib.Alike R source.getShort source'.getShort :=
  h.getULong.bind fun _ => .pure _

theorem getUShort : Lib.Alike R source.getUShort source'.getUShort :=
  h.getULong.bind fun _ => .ite (.pure _) .failure

theorem getInt : Lib.Alike R source.getInt source'.getInt :=
  h.getULong.bind fun _ => .pure _

theorem getUInt : Lib.Alike R source.getUInt source'.getUInt :=
  h.getULong.bind fun _ => .ite (.pure _) .failure

theorem getLong : Lib.Alike R source.getLong source'.getLong :=
  h.getULong.bind fun _ => .pure _

theorem getBits (size : Int32) : Lib.Alike R (source.getBits size) (source'.getBits size) :=
  .ite (.pure _) ((h.getBytes _).bind fun _ => .ite .failure (.pure _))

theorem getOption {getValue : StateT σ Option α} {getValue' : StateT τ Option α}
    (hvalue : Lib.Alike R getValue getValue') :
    Lib.Alike R (source.getOption getValue) (source'.getOption getValue') :=
  h.getByte.bind fun _ => .ite (hvalue.bind fun _ => .pure _) (.pure _)

theorem getShortString : Lib.Alike R source.getShortString source'.getShortString :=
  h.getUByte.bind fun _ => h.getBytes _

end Alike

end VLQSource

end Sparkz.Serialization
