import Sparkz.Network.ModifiersSpec

/-!
# Inventory messages

The model of `InvSpec` and of `RequestModifierSpec`, which writes and reads the same.

* `InvSpec.serialize`, `InvSpec.parse` — the ids of modifiers of one type, at least one
  and at most as many as the settings say.
* `parseBytes_serialize` — a message is read back.
* `wellFormed_of_parseBytes` — what any bytes are read as is a message that can be written.
-/

namespace Sparkz.Network

open Sparkz.Serialization

/-- `InvData`. -/
structure InvData where
  typeId : UInt8
  ids : List String
  deriving DecidableEq

namespace InvSpec

section maxInvObjects

variable (maxInvObjects : ℤ)

/-- The bytes of one id; the code asserts their number. -/
def serializeId (id : String) : Option (List UInt8) := do
  let bytes ← idToBytes id
  if bytes.length = modifierIdSize then return VLQWriter.putBytes bytes else failure

/-- `serialize(data, w)`. -/
def serialize (data : InvData) : Option (List UInt8) :=
  if data.ids = [] then none
  else if (data.ids.length : ℤ) ≤ maxInvObjects then do
    let count ← VLQWriter.putUInt data.ids.length
    let ids ← data.ids.mapM serializeId
    return VLQWriter.put data.typeId ++ count ++ ids.flatten
  else none

variable {σ : Type} (source : VLQSource σ)

/-- The ids that `parse` reads. -/
def parseIds : ℕ → StateT σ Option (List String)
  | 0 => return []
  | count + 1 => do
      let bytes ← source.getBytes modifierIdSize
      let ids ← parseIds count
      return bytesToId bytes :: ids

/-- `parse(r)`. -/
def parse : StateT σ Option InvData := do
  let typeId ← source.getByte
  let count ← ModifiersSpec.getIntExact source
  if 0 < count ∧ (count : ℤ) ≤ maxInvObjects then
    let ids ← parseIds source count
    return ⟨typeId, ids⟩
  else failure

/-- `parseBytes(bytes)`, with a reader of a byte buffer. -/
def parseBytes (bytes : List UInt8) : Option InvData :=
  (parse maxInvObjects VLQByteBufferReader.reader.toVLQSource
    (VLQByteBufferReader.wrap bytes)).map Prod.fst

end maxInvObjects

/-- The messages that can be written and are read back. -/
structure WellFormed (maxInvObjects : ℤ) (data : InvData) : Prop where
  nonempty : data.ids ≠ []
  length_le : (data.ids.length : ℤ) ≤ maxInvObjects
  isModifierId : ∀ id ∈ data.ids, IsModifierId id

/-- Some of the ids of a message make a message again. -/
theorem WellFormed.sublist {maxInvObjects : ℤ} {data : InvData} (h : WellFormed maxInvObjects data)
    {ids : List String} (hids : ids.Sublist data.ids) (hne : ids ≠ []) :
    WellFormed maxInvObjects ⟨data.typeId, ids⟩ where
  nonempty := hne
  length_le := le_trans (Int.ofNat_le.2 hids.length_le) h.length_le
  isModifierId id hid := h.isModifierId id (hids.subset hid)

/-! ## Reading what was written -/

theorem serializeId_bytesToId {bytes : List UInt8} (h : bytes.length = modifierIdSize) :
    serializeId (bytesToId bytes) = some bytes := by
  rw [serializeId, idToBytes_bytesToId]
  exact if_pos h

section alike

variable {σ τ : Type} {R : σ → τ → Prop} {source : VLQSource σ} {source' : VLQSource τ}

theorem parseIds_alike (h : source.Alike R source') (count : ℕ) :
    Lib.Alike R (parseIds source count) (parseIds source' count) := by
  induction count with
  | zero => exact .pure _
  | succ count ih => exact (h.getBytes _).bind fun _ => ih.bind fun _ => .pure _

theorem parse_alike (h : source.Alike R source') (maxInvObjects : ℤ) :
    Lib.Alike R (parse maxInvObjects source) (parse maxInvObjects source') :=
  h.getByte.bind fun _ => (ModifiersSpec.getIntExact_alike h).bind fun _ =>
    .ite ((parseIds_alike h _).bind fun _ => .pure _) .failure

end alike

open VLQReader in
/-- The ids are read back. -/
theorem parseIds_serializeId {ids : List String} (hids : ∀ id ∈ ids, IsModifierId id) :
    ∃ pieces, ids.mapM serializeId = some pieces ∧
      ∀ rest, parseIds listSource ids.length (pieces.flatten ++ rest) = some (ids, rest) := by
  induction ids with
  | nil => exact ⟨[], rfl, fun _ => rfl⟩
  | cons id ids ih =>
    obtain ⟨bytes, hlength, hid⟩ := hids id (by simp)
    obtain ⟨pieces, hpieces, hparse⟩ := ih fun id' hid' => hids id' (by simp [hid'])
    have hpiece : serializeId id = some bytes := by
      rw [← hid]
      exact serializeId_bytesToId hlength
    refine ⟨bytes :: pieces, ?_, fun rest => ?_⟩
    · rw [List.mapM_cons, hpiece, hpieces]
      rfl
    · rw [List.length_cons, List.flatten_cons, List.append_assoc]
      refine bind_eq_some.2 ⟨bytes, _, getBytes_append (by rw [hlength]) _, ?_⟩
      refine bind_eq_some.2 ⟨ids, rest, hparse rest, ?_⟩
      rw [hid]
      rfl

open VLQReader in
/-- **A message** is written, and is read back. -/
theorem parseBytes_serialize {maxInvObjects : ℤ} (hmax : maxInvObjects < 2 ^ 31) {data : InvData}
    (h : WellFormed maxInvObjects data) :
    ∃ out, serialize maxInvObjects data = some out ∧ parseBytes maxInvObjects out = some data := by
  have hlength := h.length_le
  have hpos : 0 < data.ids.length := List.length_pos_iff.2 h.nonempty
  obtain ⟨pieces, hpieces, hparse⟩ := parseIds_serializeId h.isModifierId
  obtain ⟨count, hput, hget⟩ := ModifiersSpec.getIntExact_putUInt (n := data.ids.length) (by omega)
  refine ⟨VLQWriter.put data.typeId ++ count ++ pieces.flatten, ?_, ?_⟩
  · rw [serialize, if_neg h.nonempty, if_pos hlength, hput, hpieces]
    rfl
  · have hlist : parse maxInvObjects listSource
        (VLQWriter.put data.typeId ++ count ++ pieces.flatten) = some (data, []) := by
      rw [List.append_assoc]
      refine bind_eq_some.2 ⟨data.typeId, count ++ pieces.flatten, rfl, ?_⟩
      refine bind_eq_some.2 ⟨data.ids.length, pieces.flatten, hget _, ?_⟩
      rw [if_pos ⟨hpos, hlength⟩]
      refine bind_eq_some.2 ⟨data.ids, [], ?_, rfl⟩
      have := hparse []
      rwa [List.append_nil] at this
    obtain ⟨r, hr, -⟩ :=
      (parse_alike VLQByteBufferReader.alike_listSource maxInvObjects).symm.of_some
        (t := VLQByteBufferReader.wrap _) ⟨Nat.zero_le _, rfl⟩ hlist
    rw [parseBytes, hr]
    rfl

/-! ## Writing what was read -/

open VLQReader in
theorem isModifierId_of_parseIds {count : ℕ} {ids : List String} {bytes rest : List UInt8}
    (h : parseIds listSource count bytes = some (ids, rest)) :
    ids.length = count ∧ ∀ id ∈ ids, IsModifierId id := by
  induction count generalizing ids bytes rest with
  | zero =>
    obtain ⟨rfl, -⟩ := Prod.mk.inj (Option.some.inj h)
    exact ⟨rfl, by simp⟩
  | succ count ih =>
    obtain ⟨id, rest', hid, h⟩ := bind_eq_some.1 h
    obtain ⟨ids', rest'', hids, h⟩ := bind_eq_some.1 h
    obtain ⟨rfl, -⟩ := Prod.mk.inj (Option.some.inj h)
    obtain ⟨hlength, hall⟩ := ih hids
    refine ⟨by rw [List.length_cons, hlength], fun id' hid' => ?_⟩
    obtain rfl | hid' := List.mem_cons.1 hid'
    · exact ⟨id, (getBytes_length hid).2, rfl⟩
    · exact hall id' hid'

open VLQReader in
/-- **Whatever bytes** are accepted as a message can be written as one. -/
theorem wellFormed_of_parseBytes {maxInvObjects : ℤ} {bytes : List UInt8} {data : InvData}
    (h : parseBytes maxInvObjects bytes = some data) : WellFormed maxInvObjects data := by
  obtain ⟨⟨data', r⟩, hr, rfl⟩ := Option.map_eq_some_iff.1 h
  obtain ⟨rest, hparse, -⟩ :=
    (parse_alike VLQByteBufferReader.alike_listSource maxInvObjects).of_some
      (t := bytes) ⟨Nat.zero_le _, rfl⟩ hr
  obtain ⟨typeId, _, -, hparse⟩ := bind_eq_some.1 hparse
  obtain ⟨count, _, -, hparse⟩ := bind_eq_some.1 hparse
  split at hparse
  · rename_i hcount
    obtain ⟨ids, _, hids, hparse⟩ := bind_eq_some.1 hparse
    obtain ⟨rfl, -⟩ := Prod.mk.inj (Option.some.inj hparse)
    obtain ⟨hlength, hall⟩ := isModifierId_of_parseIds hids
    subst hlength
    exact ⟨List.length_pos_iff.1 hcount.1, hcount.2, hall⟩
  · cases hparse

end InvSpec

namespace RequestModifierSpec

/-- `serialize(data, w)`. -/
def serialize (maxInvObjects : ℤ) (data : InvData) : Option (List UInt8) :=
  InvSpec.serialize maxInvObjects data

/-- `parseBytes(bytes)`, of a `parse` that is the one of `InvSpec`. -/
def parseBytes (maxInvObjects : ℤ) (bytes : List UInt8) : Option InvData :=
  InvSpec.parseBytes maxInvObjects bytes

end RequestModifierSpec

end Sparkz.Network
