import Mathlib
import Sparkz.Encode.Base16
import Sparkz.Network.MessageSerializer
import Sparkz.Serialization.Readers

/-!
# Modifier messages

The model of `ModifiersSpec`, of the ids of modifiers as `Base16` strings and of the part
of `responseFromLocal` that splits modifiers over several messages.

* `bytesToId`, `idToBytes` — ids; `idToBytes_bytesToId`.
* `serialize`, `parse` — the message, with the size limits of both sides.
* `sendByParts` — the batches that a response is sent in.
* `sendByParts_spec` — the batches are not empty, and are the modifiers in order.
* `response_received` — every batch is written whole and accepted, and the receiver gets
  back the modifiers.

The sizes are 32-bit numbers.
-/

namespace Sparkz.Network

open Sparkz.Serialization

/-! ## Ids -/

/-- `bytesToId(bytes)`: digits, which are plain characters. -/
def bytesToId (bytes : List UInt8) : String :=
  String.ofList ((Base16.encode bytes).map fun c => Char.ofNat c.toNat)

/-- `idToBytes(id)`. -/
def idToBytes (id : String) : Option (List UInt8) := (Base16.decode (codeUnits id)).toOption

/-- The digits of an id are its code units. -/
theorem codeUnits_bytesToId (bytes : List UInt8) :
    codeUnits (bytesToId bytes) = Base16.encode bytes := by
  have hdigit : ∀ c ∈ Base16.encode bytes, utf16 (Char.ofNat c.toNat) = [c] := by
    intro c hc
    have hlt : c.toNat < 128 := (UInt16.lt_iff_toNat_lt.1 (Base16.lt_of_mem_encode hc)).trans
      (by decide)
    have hchar : (Char.ofNat c.toNat).toNat = c.toNat := by
      rw [Char.toNat_ofNat, if_pos (.inl (by omega))]
    rw [utf16, hchar, if_pos (by omega), UInt16.ofNat_toNat]
  rw [bytesToId, codeUnits_ofList, List.flatMap_map]
  exact (List.flatMap_congr hdigit).trans (List.flatMap_singleton' _)

theorem idToBytes_bytesToId (bytes : List UInt8) : idToBytes (bytesToId bytes) = some bytes := by
  rw [idToBytes, codeUnits_bytesToId, Base16.decode_encode]
  rfl

/-- `NodeViewModifier.ModifierIdSize`, which the code reads from the configuration: this is its
default. -/
def modifierIdSize : ℕ := 32

/-- The id is the `Base16` form of as many bytes as ids have. -/
def IsModifierId (id : String) : Prop :=
  ∃ bytes : List UInt8, bytes.length = modifierIdSize ∧ bytesToId bytes = id

/-! ## Messages -/

/-- `ModifiersData`: the modifiers with their ids and bytes. -/
structure ModifiersData where
  typeId : UInt8
  modifiers : List (String × List UInt8)
  deriving DecidableEq

namespace ModifiersSpec

/-- `ModifiersSpec.HeaderLength`. -/
def headerLength : ℤ := 5

section maxMessageSize

variable (maxMessageSize : ℤ)

/-- One step of the fold of `serialize`. -/
def countStep (p : ℕ × ℤ) (m : String × List UInt8) : ℕ × ℤ :=
  let size := (p.2 + modifierIdSize + 4 + m.2.length).bmod (2 ^ 32)
  (if size ≤ maxMessageSize then p.1 + 1 else p.1, size)

/-- `msgCount` and `msgSize`: the number of modifiers within the limit, and the size. -/
def countFitting (modifiers : List (String × List UInt8)) : ℕ × ℤ :=
  modifiers.foldl (countStep maxMessageSize) (0, headerLength)

/-- The bytes of one modifier. -/
def serializeModifier (m : String × List UInt8) : Option (List UInt8) := do
  let id ← idToBytes m.1
  let size ← VLQWriter.putUInt m.2.length
  return VLQWriter.putBytes id ++ size ++ VLQWriter.putBytes m.2

/-- `serialize(data, w)`. -/
def serialize (data : ModifiersData) : Option (List UInt8) :=
  if data.modifiers = [] then none
  else do
    let msgCount := (countFitting maxMessageSize data.modifiers).1
    let count ← VLQWriter.putUInt msgCount
    let modifiers ← (data.modifiers.take msgCount).mapM serializeModifier
    return VLQWriter.put data.typeId ++ count ++ modifiers.flatten

variable {σ : Type} (source : VLQSource σ)

/-- `getUInt().toIntExact`. -/
def getIntExact : StateT σ Option ℕ := do
  let n ← source.getUInt
  if n ≤ 0x7FFFFFFF then return n else failure

/-- The loop of `parse`, from the size of what is read so far. -/
def parseModifiers : ℕ → ℤ → StateT σ Option (List (String × List UInt8))
  | 0, _ => return []
  | count + 1, msgSize => do
      let id ← source.getBytes modifierIdSize
      let objBytesCnt ← getIntExact source
      let newMsgSize := (msgSize + modifierIdSize + objBytesCnt).bmod (2 ^ 32)
      if newMsgSize > maxMessageSize then failure
      else
        let obj ← source.getBytes objBytesCnt
        let rest ← parseModifiers count newMsgSize
        return (bytesToId id, obj) :: rest

/-- `parse(r)`. -/
def parse : StateT σ Option ModifiersData := do
  let typeId ← source.getByte
  let count ← getIntExact source
  let modifiers ← parseModifiers maxMessageSize source count headerLength
  return ⟨typeId, modifiers⟩

/-- `parseBytes(bytes)`, with a reader of a byte buffer. -/
def parseBytes (bytes : List UInt8) : Option ModifiersData :=
  (parse maxMessageSize VLQByteBufferReader.reader.toVLQSource
    (VLQByteBufferReader.wrap bytes)).map Prod.fst

end maxMessageSize

end ModifiersSpec

/-! ## Splitting a response -/

section maxModifiersSpecMessageSize

variable (maxModifiersSpecMessageSize : ℤ)

/-- The `takeWhile` of `sendByParts`, from the size of what is taken so far. -/
def takeBatch : ℤ → List (String × List UInt8) → List (String × List UInt8)
  | _, [] => []
  | size, m :: mods =>
      let size := (size + (modifierIdSize + 4 + m.2.length)).bmod (2 ^ 32)
      if size < maxModifiersSpecMessageSize then m :: takeBatch size mods else []

/-- `sendByParts(mods)`: the batches that are sent.  It does not end when a batch stays
empty, so the number of turns is limited. -/
def sendByParts : ℕ → List (String × List UInt8) → Option (List (List (String × List UInt8)))
  | 0, _ => none
  | turns + 1, mods =>
      let size : ℤ := headerLength + checksumLength
      let batch := takeBatch maxModifiersSpecMessageSize size mods
      let remaining := mods.drop batch.length
      if remaining ≠ [] then (sendByParts turns remaining).map fun batches => batch :: batches
      else some [batch]

end maxModifiersSpecMessageSize

/-- What a modifier takes in the sum of a batch. -/
def partSize (m : String × List UInt8) : ℤ := modifierIdSize + 4 + m.2.length

/-- What the modifiers take, with the header of the message. -/
def partsSize (mods : List (String × List UInt8)) : ℤ :=
  headerLength + checksumLength + (mods.map partSize).sum

theorem partSize_pos (m : String × List UInt8) : 0 < partSize m := by
  unfold partSize
  omega

theorem sum_partSize_nonneg (mods : List (String × List UInt8)) : 0 ≤ (mods.map partSize).sum :=
  List.sum_nonneg fun x hx => by
    obtain ⟨m, -, rfl⟩ := List.mem_map.1 hx
    exact (partSize_pos m).le

theorem length_le_sum_partSize (mods : List (String × List UInt8)) :
    (mods.length : ℤ) ≤ (mods.map partSize).sum := by
  induction mods with
  | nil => rfl
  | cons m mods ih =>
    have hpos := partSize_pos m
    rw [List.map_cons, List.sum_cons, List.length_cons]
    omega

theorem sum_partSize_le_of_sublist {batch mods : List (String × List UInt8)}
    (h : batch.Sublist mods) : (batch.map partSize).sum ≤ (mods.map partSize).sum :=
  (h.map partSize).sum_le_sum fun x hx => by
    obtain ⟨m, -, rfl⟩ := List.mem_map.1 hx
    exact (partSize_pos m).le

theorem bmod_eq_self {n : ℤ} (hlow : 0 ≤ n) (hhigh : n < 2 ^ 31) : n.bmod (2 ^ 32) = n :=
  Int.bmod_eq_of_le (by simp; omega) (by simp; omega)

/-- A batch is a beginning of the modifiers, and stays below the limit. -/
theorem takeBatch_spec (limit : ℤ) {size : ℤ} {mods : List (String × List UInt8)}
    (hsize : 0 ≤ size) (hint : size + (mods.map partSize).sum < 2 ^ 31) :
    takeBatch limit size mods <+: mods ∧
      (takeBatch limit size mods = [] ∨
        size + ((takeBatch limit size mods).map partSize).sum < limit) := by
  induction mods generalizing size with
  | nil => exact ⟨List.prefix_refl _, .inl rfl⟩
  | cons m mods ih =>
    have hpos := partSize_pos m
    have hrest := sum_partSize_nonneg mods
    rw [List.map_cons, List.sum_cons] at hint
    have hstep : (size + (modifierIdSize + 4 + m.2.length)).bmod (2 ^ 32) = size + partSize m :=
      bmod_eq_self (by rw [← partSize]; omega) (by rw [← partSize]; omega)
    rw [takeBatch, hstep]
    split
    · rename_i hfits
      have hsize' : 0 ≤ size + partSize m := by omega
      obtain ⟨hstart, hsum⟩ := ih hsize' (by omega)
      refine ⟨List.cons_prefix_cons.2 ⟨rfl, hstart⟩, .inr ?_⟩
      rw [List.map_cons, List.sum_cons]
      obtain hempty | hsum := hsum
      · rw [hempty, List.map_nil, List.sum_nil]
        omega
      · omega
    · exact ⟨List.nil_prefix, .inl rfl⟩

theorem takeBatch_ne_nil {limit size : ℤ} {m : String × List UInt8}
    {mods : List (String × List UInt8)} (hsize : 0 ≤ size) (hfits : size + partSize m < limit)
    (hint : size + partSize m < 2 ^ 31) : takeBatch limit size (m :: mods) ≠ [] := by
  have hpos := partSize_pos m
  have hstep : (size + (modifierIdSize + 4 + m.2.length)).bmod (2 ^ 32) = size + partSize m :=
    bmod_eq_self (by rw [← partSize]; omega) (by rw [← partSize]; omega)
  rw [takeBatch, hstep, if_pos hfits]
  exact List.cons_ne_nil _ _

/-- **The batches** are not empty, stay below the limit and are the modifiers in order. -/
theorem sendByParts_spec {limit : ℤ} {mods : List (String × List UInt8)} (hne : mods ≠ [])
    (hfits : ∀ m ∈ mods, (headerLength + checksumLength : ℤ) + partSize m < limit)
    (hint : partsSize mods < 2 ^ 31) {turns : ℕ} (hturns : mods.length ≤ turns) :
    ∃ batches, sendByParts limit turns mods = some batches ∧ batches.flatten = mods ∧
      ∀ batch ∈ batches, batch ≠ [] ∧ partsSize batch < limit := by
  induction turns generalizing mods with
  | zero => exact absurd (List.length_eq_zero_iff.1 (Nat.le_zero.1 hturns)) hne
  | succ turns ih =>
    have hsize : (0 : ℤ) ≤ headerLength + checksumLength := by decide
    obtain ⟨hstart, hsum⟩ := takeBatch_spec limit hsize hint
    have hbatch : takeBatch limit (headerLength + checksumLength) mods ≠ [] := by
      cases mods with
      | nil => exact absurd rfl hne
      | cons m mods =>
        have hrest := sum_partSize_nonneg mods
        rw [partsSize, List.map_cons, List.sum_cons] at hint
        exact takeBatch_ne_nil hsize (hfits m (by simp)) (by omega)
    have hbelow := hsum.resolve_left hbatch
    generalize hb : takeBatch limit (headerLength + checksumLength) mods = batch at *
    obtain ⟨remaining, rfl⟩ := hstart
    rw [sendByParts, hb, List.drop_left]
    by_cases hmore : remaining = []
    · rw [if_neg (not_not.2 hmore), hmore, List.append_nil]
      exact ⟨[batch], rfl, by simp, by simpa using ⟨hbatch, hbelow⟩⟩
    · have hpos : 0 < batch.length := List.length_pos_iff.2 hbatch
      have hnonneg := sum_partSize_nonneg batch
      rw [partsSize, List.map_append, List.sum_append] at hint
      rw [List.length_append] at hturns
      obtain ⟨batches, hsend, hflatten, hall⟩ := ih hmore
        (fun m hm => hfits m (List.mem_append_right _ hm)) (by rw [partsSize]; omega) (by omega)
      rw [if_pos hmore, hsend]
      refine ⟨batch :: batches, rfl, by rw [List.flatten_cons, hflatten], fun b hbmem => ?_⟩
      obtain rfl | hbmem := List.mem_cons.1 hbmem
      · exact ⟨hbatch, hbelow⟩
      · exact hall b hbmem

/-! ## Reading what was written -/

namespace ModifiersSpec

theorem countStep_eq {limit : ℤ} (c : ℕ) {size : ℤ} (hsize : 0 ≤ size)
    {m : String × List UInt8} (hint : size + partSize m < 2 ^ 31) :
    countStep limit (c, size) m
      = (if size + partSize m ≤ limit then c + 1 else c, size + partSize m) := by
  have hpos := partSize_pos m
  have hsum : size + modifierIdSize + 4 + m.2.length = size + partSize m := by
    rw [partSize]
    omega
  rw [countStep]
  simp only [hsum, bmod_eq_self (show 0 ≤ size + partSize m by omega) hint]

theorem foldl_countStep {limit : ℤ} {mods : List (String × List UInt8)} (c : ℕ) {s : ℤ}
    (hs : 0 ≤ s) (hlimit : s + (mods.map partSize).sum ≤ limit)
    (hint : s + (mods.map partSize).sum < 2 ^ 31) :
    (mods.foldl (countStep limit) (c, s)).1 = c + mods.length := by
  induction mods generalizing c s with
  | nil => rfl
  | cons m mods ih =>
    have hpos := partSize_pos m
    have hrest := sum_partSize_nonneg mods
    rw [List.map_cons, List.sum_cons] at hlimit hint
    rw [List.foldl_cons, countStep_eq c hs (by omega), if_pos (by omega),
      ih (c + 1) (by omega) (by omega) (by omega), List.length_cons]
    omega

/-- Within the limit the fold of `serialize` counts every modifier. -/
theorem countFitting_eq {limit : ℤ} {mods : List (String × List UInt8)}
    (hlimit : headerLength + (mods.map partSize).sum ≤ limit)
    (hint : headerLength + (mods.map partSize).sum < 2 ^ 31) :
    (countFitting limit mods).1 = mods.length := by
  rw [countFitting, foldl_countStep 0 (by decide) hlimit hint, Nat.zero_add]

section alike

variable {σ τ : Type} {R : σ → τ → Prop} {source : VLQSource σ} {source' : VLQSource τ}

theorem getIntExact_alike (h : source.Alike R source') :
    Lib.Alike R (getIntExact source) (getIntExact source') :=
  h.getUInt.bind fun _ => .ite (.pure _) .failure

theorem parseModifiers_alike (h : source.Alike R source') (limit : ℤ) (count : ℕ) (msgSize : ℤ) :
    Lib.Alike R (parseModifiers limit source count msgSize)
      (parseModifiers limit source' count msgSize) := by
  induction count generalizing msgSize with
  | zero => exact .pure _
  | succ count ih =>
    exact (h.getBytes _).bind fun _ => (getIntExact_alike h).bind fun _ =>
      .ite .failure ((h.getBytes _).bind fun _ => (ih _).bind fun _ => .pure _)

theorem parse_alike (h : source.Alike R source') (limit : ℤ) :
    Lib.Alike R (parse limit source) (parse limit source') :=
  h.getByte.bind fun _ => (getIntExact_alike h).bind fun _ =>
    (parseModifiers_alike h limit _ _).bind fun _ => .pure _

end alike

open VLQReader in
theorem getIntExact_putUInt {n : ℕ} (h : n < 2 ^ 31) :
    ∃ out, VLQWriter.putUInt n = some out ∧
      ∀ rest, getIntExact listSource (out ++ rest) = some (n, rest) := by
  obtain ⟨out, hput, hget⟩ := getUInt_putUInt (x := n) (by omega)
  refine ⟨out, hput, fun rest => bind_eq_some.2 ⟨n, rest, ?_, ?_⟩⟩
  · simpa only [Int.toNat_natCast] using hget rest
  · rw [if_pos (by omega)]
    rfl

open VLQReader in
/-- The modifiers are read back, as long as they are within the limit. -/
theorem parseModifiers_serializeModifier {mods : List (String × List UInt8)}
    (hids : ∀ m ∈ mods, IsModifierId m.1) (hlength : ∀ m ∈ mods, partSize m < 2 ^ 31) :
    ∃ pieces, mods.mapM serializeModifier = some pieces ∧
      ∀ limit msgSize rest, 0 ≤ msgSize → msgSize + (mods.map partSize).sum ≤ limit →
        msgSize + (mods.map partSize).sum < 2 ^ 31 →
        parseModifiers limit listSource mods.length msgSize (pieces.flatten ++ rest)
          = some (mods, rest) := by
  induction mods with
  | nil => exact ⟨[], rfl, fun _ _ _ _ _ _ => rfl⟩
  | cons m mods ih =>
    obtain ⟨id, hidlength, hid⟩ := hids m (by simp)
    obtain ⟨pieces, hpieces, hparse⟩ := ih (fun m' hm' => hids m' (by simp [hm']))
      fun m' hm' => hlength m' (by simp [hm'])
    have hsmall := hlength m (by simp)
    rw [partSize] at hsmall
    obtain ⟨size, hput, hget⟩ := getIntExact_putUInt (n := m.2.length) (by omega)
    have hidBytes : idToBytes m.1 = some id := by
      rw [← hid]
      exact idToBytes_bytesToId id
    have hpiece : serializeModifier m = some (id ++ size ++ m.2) := by
      rw [serializeModifier, hidBytes, hput]
      rfl
    refine ⟨(id ++ size ++ m.2) :: pieces, ?_, fun limit msgSize rest hmsg hle hlt => ?_⟩
    · rw [List.mapM_cons, hpiece, hpieces]
      rfl
    · have hpos := partSize_pos m
      have hsum := sum_partSize_nonneg mods
      rw [List.map_cons, List.sum_cons] at hle hlt
      have hbmod : (msgSize + modifierIdSize + m.2.length).bmod (2 ^ 32)
          = msgSize + modifierIdSize + m.2.length :=
        bmod_eq_self (by omega) (by rw [partSize] at hlt; omega)
      rw [List.length_cons, List.flatten_cons, List.append_assoc, List.append_assoc,
        List.append_assoc]
      refine bind_eq_some.2 ⟨id, _, getBytes_append (by rw [hidlength]) _, ?_⟩
      refine bind_eq_some.2 ⟨m.2.length, _, hget _, ?_⟩
      rw [hbmod, if_neg (by rw [partSize] at hle; omega)]
      refine bind_eq_some.2 ⟨m.2, _, getBytes_append rfl _, ?_⟩
      refine bind_eq_some.2 ⟨mods, rest, hparse limit _ rest (by omega) ?_ ?_, ?_⟩
      · rw [partSize] at hle
        omega
      · rw [partSize] at hlt
        omega
      · rw [show bytesToId id = m.1 from hid]
        rfl

open VLQReader in
/-- What is written for modifiers within the limit is accepted. -/
theorem parseBytes_written (typeId : UInt8) {limit : ℤ} {mods : List (String × List UInt8)}
    (hids : ∀ m ∈ mods, IsModifierId m.1)
    (hlimit : headerLength + (mods.map partSize).sum ≤ limit)
    (hint : headerLength + (mods.map partSize).sum < 2 ^ 31) :
    ∃ count pieces, VLQWriter.putUInt mods.length = some count
      ∧ mods.mapM serializeModifier = some pieces
      ∧ parseBytes limit (VLQWriter.put typeId ++ count ++ pieces.flatten)
        = some ⟨typeId, mods⟩ := by
  have hpart : ∀ m ∈ mods, partSize m ≤ (mods.map partSize).sum := fun m hm =>
    List.single_le_sum (fun x hx => by
      obtain ⟨m', -, rfl⟩ := List.mem_map.1 hx
      exact (partSize_pos m').le) _ (List.mem_map_of_mem hm)
  have hlength := length_le_sum_partSize mods
  have hheader : headerLength = 5 := rfl
  obtain ⟨pieces, hpieces, hparse⟩ := parseModifiers_serializeModifier hids
    fun m hm => by have := hpart m hm; omega
  obtain ⟨count, hput, hget⟩ := getIntExact_putUInt (n := mods.length) (by omega)
  refine ⟨count, pieces, hput, hpieces, ?_⟩
  have hlist : parse limit listSource (VLQWriter.put typeId ++ count ++ pieces.flatten)
      = some (⟨typeId, mods⟩, []) := by
    rw [List.append_assoc]
    refine bind_eq_some.2 ⟨typeId, count ++ pieces.flatten, rfl, ?_⟩
    refine bind_eq_some.2 ⟨mods.length, pieces.flatten, hget _, ?_⟩
    refine bind_eq_some.2 ⟨mods, [], ?_, rfl⟩
    have := hparse limit headerLength [] (by decide) hlimit hint
    rwa [List.append_nil] at this
  obtain ⟨r, hr, -⟩ := (parse_alike VLQByteBufferReader.alike_listSource limit).symm.of_some
    (t := VLQByteBufferReader.wrap _) ⟨Nat.zero_le _, rfl⟩ hlist
  rw [parseBytes, hr]
  rfl

/-- **A message** within the limit is written whole, and is accepted. -/
theorem parseBytes_serialize {limit : ℤ} {data : ModifiersData} (hne : data.modifiers ≠ [])
    (hids : ∀ m ∈ data.modifiers, IsModifierId m.1)
    (hlimit : headerLength + (data.modifiers.map partSize).sum ≤ limit)
    (hint : headerLength + (data.modifiers.map partSize).sum < 2 ^ 31) :
    ∃ out, serialize limit data = some out ∧ parseBytes limit out = some data := by
  obtain ⟨count, pieces, hput, hpieces, hparse⟩ :=
    parseBytes_written data.typeId hids hlimit hint
  refine ⟨_, ?_, hparse⟩
  rw [serialize, if_neg hne, countFitting_eq hlimit hint]
  simp only [List.take_length, hput, hpieces]
  rfl

end ModifiersSpec

theorem mapM_mapM_eq_some {α β γ : Type} {f : α → Option β} {g : β → Option γ} {h : α → γ}
    {xs : List α} (hall : ∀ x ∈ xs, ∃ y, f x = some y ∧ g y = some (h x)) :
    ∃ ys, xs.mapM f = some ys ∧ ys.mapM g = some (xs.map h) := by
  induction xs with
  | nil => exact ⟨[], rfl, rfl⟩
  | cons x xs ih =>
    obtain ⟨y, hf, hg⟩ := hall x (by simp)
    obtain ⟨ys, hfs, hgs⟩ := ih fun x' hx' => hall x' (by simp [hx'])
    refine ⟨y :: ys, ?_, ?_⟩
    · rw [List.mapM_cons, hf, hfs]
      rfl
    · rw [List.mapM_cons, hg, hgs]
      rfl

/-- **A response loses nothing**: for modifiers that fit in a message each, the batches are
not empty and are the modifiers in order; every batch is written whole and is accepted, and
the messages hold the modifiers in order. -/
theorem response_received (typeId : UInt8) {limit : ℤ} {mods : List (String × List UInt8)}
    (hne : mods ≠ []) (hids : ∀ m ∈ mods, IsModifierId m.1)
    (hfits : ∀ m ∈ mods, (13 + 32 + 4 + m.2.length : ℤ) < limit)
    (hint : 13 + (mods.map fun m => (32 + 4 + m.2.length : ℤ)).sum < 2 ^ 31) :
    ∃ batches outs received, sendByParts limit mods.length mods = some batches ∧
      (∀ batch ∈ batches, batch ≠ []) ∧ batches.flatten = mods ∧
      (∀ batch ∈ batches, (ModifiersSpec.countFitting limit batch).1 = batch.length) ∧
      batches.mapM (fun batch => ModifiersSpec.serialize limit ⟨typeId, batch⟩) = some outs ∧
      outs.mapM (ModifiersSpec.parseBytes limit) = some received ∧
      received.flatMap ModifiersData.modifiers = mods := by
  have hpart : ∀ m : String × List UInt8, partSize m = 32 + 4 + m.2.length := fun m => rfl
  have htotal : partsSize mods < 2 ^ 31 := hint
  have hlower := sum_partSize_nonneg mods
  obtain ⟨batches, hsend, hflatten, hall⟩ := sendByParts_spec hne
    (fun m hm => by
      have := hfits m hm
      rw [hpart]
      show (13 : ℤ) + _ < limit
      omega) htotal (Nat.le_refl _)
  have hbound : ∀ batch ∈ batches,
      ModifiersSpec.headerLength + (batch.map partSize).sum ≤ limit ∧
      ModifiersSpec.headerLength + (batch.map partSize).sum < 2 ^ 31 := by
    intro batch hbatch
    have hle : (batch.map partSize).sum ≤ (mods.map partSize).sum := by
      rw [← hflatten]
      exact sum_partSize_le_of_sublist (List.sublist_flatten_of_mem hbatch)
    have hbelow : (13 : ℤ) + (batch.map partSize).sum < limit := (hall batch hbatch).2
    have hsum : (13 : ℤ) + (mods.map partSize).sum < 2 ^ 31 := htotal
    rw [show ModifiersSpec.headerLength = 5 from rfl]
    omega
  have hmessages : ∀ batch ∈ batches, ∃ out,
      ModifiersSpec.serialize limit ⟨typeId, batch⟩ = some out ∧
        ModifiersSpec.parseBytes limit out = some ⟨typeId, batch⟩ := by
    intro batch hbatch
    have hne : (⟨typeId, batch⟩ : ModifiersData).modifiers ≠ [] := (hall batch hbatch).1
    refine ModifiersSpec.parseBytes_serialize hne (fun m hm => hids m ?_)
      (hbound batch hbatch).1 (hbound batch hbatch).2
    rw [← hflatten]
    exact List.mem_flatten.2 ⟨batch, hbatch, hm⟩
  obtain ⟨outs, houts, hreceived⟩ := mapM_mapM_eq_some hmessages
  refine ⟨batches, outs, _, hsend, fun batch hbatch => (hall batch hbatch).1, hflatten,
    fun batch hbatch =>
      ModifiersSpec.countFitting_eq (hbound batch hbatch).1 (hbound batch hbatch).2,
    houts, hreceived, ?_⟩
  rw [List.flatMap_map]
  show batches.flatMap (fun batch => batch) = mods
  rw [← hflatten, List.flatMap_id']

/-- Two modifiers that need a message each. -/
def twoModifiers : List (String × List UInt8) :=
  [(bytesToId (List.replicate 32 1), [1, 2, 3]), (bytesToId (List.replicate 32 2), [4])]

theorem isModifierId_of_mem_twoModifiers : ∀ m ∈ twoModifiers, IsModifierId m.1 := by
  intro m hm
  obtain rfl | hm := List.mem_cons.1 hm
  · exact ⟨_, rfl, rfl⟩
  · obtain rfl := List.mem_singleton.1 hm
    exact ⟨_, rfl, rfl⟩

theorem response_received_two_messages :
    ∃ batches outs received, sendByParts 60 2 twoModifiers = some batches ∧
      (∀ batch ∈ batches, batch ≠ []) ∧ batches.flatten = twoModifiers ∧
      (∀ batch ∈ batches, (ModifiersSpec.countFitting 60 batch).1 = batch.length) ∧
      batches.mapM (fun batch => ModifiersSpec.serialize 60 ⟨33, batch⟩) = some outs ∧
      outs.mapM (ModifiersSpec.parseBytes 60) = some received ∧
      received.flatMap ModifiersData.modifiers = twoModifiers :=
  response_received 33 (List.cons_ne_nil _ _) isModifierId_of_mem_twoModifiers (by decide)
    (by decide)

end Sparkz.Network
