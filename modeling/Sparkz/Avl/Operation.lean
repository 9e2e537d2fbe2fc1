import Sparkz.Lib.Bytes

/-!
# Keys, values and operations of the authenticated tree

* `ADKey`, `ADValue` — byte strings; keys are ordered as unsigned bytes, from the
  first on, as `ByteArray.compare` orders them.  A value is a JVM array and therefore
  shorter than `2 ^ 31`.
* `CryptographicHash` — a hash function with digests of a fixed, positive size;
  `CollisionFree` — it has no collision among given messages.
* `Operation`, `Operation.updateFn` — the operations, and what each modification does
  to the value it finds.
-/

namespace Sparkz.Avl

open Sparkz.Lib

/-- `ADKey`. -/
structure ADKey where
  bytes : List UInt8
  deriving DecidableEq, Repr

/-- The bytes of a key as unsigned numbers. -/
def ADKey.rank (k : ADKey) : List ℕ := k.bytes.map UInt8.toNat

theorem ADKey.rank_injective : Function.Injective ADKey.rank := by
  rintro ⟨a⟩ ⟨b⟩ h
  have hinj : Function.Injective (List.map UInt8.toNat) :=
    List.map_injective_iff.2 fun x y hxy => UInt8.toNat_inj.1 hxy
  exact congrArg ADKey.mk (hinj h)

/-- `ByteArray.compare`: the lexicographic order on unsigned bytes. -/
instance : LinearOrder ADKey := LinearOrder.lift' ADKey.rank ADKey.rank_injective

/-- The number of bytes of a key. -/
def ADKey.length (k : ADKey) : ℕ := k.bytes.length

/-- `ADValue`. -/
structure ADValue where
  bytes : List UInt8
  length_lt : bytes.length < 2 ^ 31
  deriving DecidableEq

/-- The number of bytes of a value. -/
def ADValue.length (v : ADValue) : ℕ := v.bytes.length

theorem ADValue.length_singleton_lt (b : UInt8) : [b].length < 2 ^ 31 := by
  rw [List.length_singleton]
  norm_num

/-- A value of one byte. -/
def ADValue.ofByte (b : UInt8) : ADValue := ⟨[b], length_singleton_lt b⟩

/-- A digest. -/
abbrev Digest := List UInt8

/-- `CryptographicHash`, on the concatenation of what it is given. -/
structure CryptographicHash where
  digestSize : ℕ
  digestSize_pos : 0 < digestSize
  hash : List UInt8 → Digest
  length_hash : ∀ message, (hash message).length = digestSize

/-- `prefixedHash`, on the concatenation of its inputs. -/
def CryptographicHash.prefixedHash (hf : CryptographicHash) (pre : UInt8) (input : List UInt8) :
    Digest :=
  hf.hash (pre :: input)

@[simp] theorem CryptographicHash.length_prefixedHash (hf : CryptographicHash) (pre : UInt8)
    (input : List UInt8) : (hf.prefixedHash pre input).length = hf.digestSize :=
  hf.length_hash _

theorem CryptographicHash.four_pos : 0 < 4 := by norm_num

theorem CryptographicHash.length_take_four (message : List UInt8) :
    ((message ++ [0, 0, 0, 0]).take 4).length = 4 := by
  simp

/-- No two distinct messages of a list have the same hash. -/
def CryptographicHash.CollisionFree (hf : CryptographicHash) (messages : List (List UInt8)) :
    Prop :=
  ∀ m₁ ∈ messages, ∀ m₂ ∈ messages, hf.hash m₁ = hf.hash m₂ → m₁ = m₂

instance (hf : CryptographicHash) (messages : List (List UInt8)) :
    Decidable (hf.CollisionFree messages) :=
  inferInstanceAs (Decidable (∀ m₁ ∈ messages, ∀ m₂ ∈ messages, hf.hash m₁ = hf.hash m₂ → m₁ = m₂))

theorem CryptographicHash.CollisionFree.mono {hf : CryptographicHash} {M M' : List (List UInt8)}
    (h : hf.CollisionFree M) (hsub : M' ⊆ M) : hf.CollisionFree M' :=
  fun m₁ h₁ m₂ h₂ => h m₁ (hsub h₁) m₂ (hsub h₂)

/-! ## Operations -/

/-- Why an update function refuses a value. -/
inductive UpdateError where
  | keyAlreadyExists (key : ADKey)
  | keyDoesNotExist (key : ADKey)
  | decreaseNonExistingValue
  | newValueIsNegative
  | illegalValueLength
  | arithmeticOverflow
  | other (message : String)
  deriving DecidableEq

/-- `UpdateFunction`. -/
abbrev UpdateFunction := Option ADValue → Except UpdateError (Option ADValue)

/-- `Longs.toByteArray`, as a value. -/
def longValue (x : Int64) : ADValue where
  bytes := toBytes 8 (x.toInt % 2 ^ 64).toNat
  length_lt := by rw [length_toBytes]; norm_num

/-- `Longs.fromByteArray`: the first eight bytes as a signed number. -/
def longOfValue (v : ADValue) : Except UpdateError Int64 :=
  if v.length < 8 then .error .illegalValueLength
  else .ok (Int64.ofInt (signed 64 (ofBytes (v.bytes.take 8))))

/-- `Math.addExact`. -/
def addExact (x y : Int64) : Except UpdateError Int64 :=
  let sum := x.toInt + y.toInt
  if -2 ^ 63 ≤ sum ∧ sum < 2 ^ 63 then .ok (Int64.ofInt sum) else .error .arithmeticOverflow

/-- The operations; `modification` is any other implementation of `Modification`. -/
inductive Operation where
  | lookup (key : ADKey)
  | unknownModification
  | insert (key : ADKey) (value : ADValue)
  | update (key : ADKey) (value : ADValue)
  | insertOrUpdate (key : ADKey) (value : ADValue)
  | remove (key : ADKey)
  | removeIfExists (key : ADKey)
  | updateLongBy (key : ADKey) (delta : Int64)
  | modification (key : ADKey) (updateFn : UpdateFunction)

namespace Operation

/-- `operation.key`. -/
def key : Operation → ADKey
  | lookup key => key
  | unknownModification => ⟨[]⟩
  | insert key _ => key
  | update key _ => key
  | insertOrUpdate key _ => key
  | remove key => key
  | removeIfExists key => key
  | updateLongBy key _ => key
  | modification key _ => key

/-- The update function of `UpdateLongBy`. -/
def updateLongByFn (delta : Int64) : UpdateFunction := fun old =>
  if delta = 0 then .ok old
  else
    match old with
    | none =>
        if delta > 0 then .ok (some (longValue delta)) else .error .decreaseNonExistingValue
    | some oldV => do
        let newVal ← addExact (← longOfValue oldV) delta
        if newVal = 0 then .ok none
        else if newVal > 0 then .ok (some (longValue newVal))
        else .error .newValueIsNegative

/-- `m.updateFn`; a `Lookup` has none. -/
def updateFn : Operation → Option UpdateFunction
  | lookup _ => none
  | unknownModification => some fun old => .ok old
  | insert key value => some fun
      | none => .ok (some value)
      | some _ => .error (.keyAlreadyExists key)
  | update key value => some fun
      | none => .error (.keyDoesNotExist key)
      | some _ => .ok (some value)
  | insertOrUpdate _ value => some fun _ => .ok (some value)
  | remove key => some fun
      | none => .error (.keyDoesNotExist key)
      | some _ => .ok none
  | removeIfExists _ => some fun _ => .ok none
  | updateLongBy _ delta => some (updateLongByFn delta)
  | modification _ fn => some fn

end Operation

end Sparkz.Avl
