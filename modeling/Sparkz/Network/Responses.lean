import Sparkz.Network.InvSpec
import Sparkz.Network.SynchronizerCalls

/-!
# Answers to requests

The model of the part of `NodeViewSynchronizer` that supplies other nodes: what it finds
for a request, and the messages that it sends the modifiers in.

* `NetworkSettings` — the settings of a node, with both halves of its serializers.
* `modifiersReq`, `responseFromLocal` — the two handlers.
* `parseObject` — what the receiver makes of the bytes of a modifier.
* `Answerable` — modifiers that fit in a message each and are parsed back.
* `responseBytes_spec` — the messages are accepted and hold the modifiers in order.

A modifier is a transaction or a persistent one.  The ids are strings, as on the wire.
-/

namespace Sparkz.Network

open Sparkz.Serialization

/-- The settings of a node: those of its synchronizer, the limits of its messages, and the
writing half of `modifierSerializers`. -/
structure NetworkSettings (TX PMOD : Type) extends SynchronizerSettings String TX PMOD where
  maxInvObjects : ℤ
  maxModifiersSpecMessageSize : ℤ
  toBytes : ModifierTypeId → Option (TX ⊕ PMOD → List UInt8)

/-- What `modifiersReq` asks of the two readers. -/
structure ModifierReaders (TX PMOD : Type) where
  getAll : List String → List TX
  modifierById : String → Option PMOD

namespace NetworkSettings

variable {TX PMOD : Type} (s : NetworkSettings TX PMOD)

/-- `m.id`. -/
def modifierId : TX ⊕ PMOD → String := Sum.elim s.txId s.pmodId

/-- `m.modifierTypeId`. -/
def modifierTypeId : TX ⊕ PMOD → ModifierTypeId :=
  Sum.elim (fun _ => transactionTypeId) s.pmodTypeId

/-- `modifiersReq(invData, remote)`: the modifiers of the `ResponseFromLocal` that the actor
sends itself. -/
def modifiersReq (readersOpt : Option (ModifierReaders TX PMOD)) (invData : InvData) :
    Option (List (TX ⊕ PMOD)) :=
  readersOpt.map fun readers =>
    if invData.typeId = transactionTypeId then
      if s.handlingTransactionsEnabled then (readers.getAll invData.ids).map .inl else []
    else (invData.ids.filterMap readers.modifierById).map .inr

/-- `responseFromLocal`: the messages that are sent, all of the type of the first modifier.
It does not end when `sendByParts` does not. -/
def responseFromLocal (modifiers : List (TX ⊕ PMOD)) : Option (List ModifiersData) :=
  match modifiers with
  | [] => some []
  | head :: _ =>
      let modType := s.modifierTypeId head
      match s.toBytes modType with
      | some toBytes =>
          let mods := modifiers.map fun m => (s.modifierId m, toBytes m)
          (sendByParts s.maxModifiersSpecMessageSize mods.length mods).map fun batches =>
            batches.map fun batch => ⟨modType, batch⟩
      | none => some []

/-- The bytes of the messages, as the connection handlers write them. -/
def responseBytes (modifiers : List (TX ⊕ PMOD)) : List (List UInt8) :=
  ((s.responseFromLocal modifiers).getD []).filterMap
    (ModifiersSpec.serialize s.maxModifiersSpecMessageSize)

/-- The modifier that the receiver parses from the bytes, and what its reader has remaining. -/
def parseObject (typeId : ModifierTypeId) (bytes : List UInt8) : Option ((TX ⊕ PMOD) × ℕ) :=
  if typeId = transactionTypeId then
    s.transactionSerializer.bind fun serializer =>
      (serializer bytes).map fun p => (.inl p.1, p.2)
  else
    (s.modifierSerializers typeId).bind fun serializer =>
      (serializer bytes).map fun p => (.inr p.1, p.2)

/-- The modifiers of a message, as far as they are parsed. -/
def deliveredObjects (bytes : List UInt8) : List (TX ⊕ PMOD) :=
  match ModifiersSpec.parseBytes s.maxModifiersSpecMessageSize bytes with
  | some data => data.modifiers.filterMap fun p => (s.parseObject data.typeId p.2).map Prod.fst
  | none => []

/-- A modifier of the type that fits in a message of its own, has an id of the right length
and is parsed back whole. -/
structure Transmissible (typeId : ModifierTypeId) (m : TX ⊕ PMOD) : Prop where
  modifierTypeId : s.modifierTypeId m = typeId
  isModifierId : IsModifierId (s.modifierId m)
  written : ∃ toBytes, s.toBytes typeId = some toBytes ∧
    (headerLength + checksumLength : ℤ) + partSize (s.modifierId m, toBytes m)
      < s.maxModifiersSpecMessageSize ∧
    s.parseObject typeId (toBytes m) = some (m, 0)

/-- Modifiers of the type that can be transmitted, all in one response. -/
structure Answerable (typeId : ModifierTypeId) (modifiers : List (TX ⊕ PMOD)) : Prop where
  transmissible : ∀ m ∈ modifiers, s.Transmissible typeId m
  size_lt : ∀ toBytes, s.toBytes typeId = some toBytes →
    partsSize (modifiers.map fun m => (s.modifierId m, toBytes m)) < 2 ^ 31

/-- The bytes are accepted as a message, and each of its modifiers is parsed whole and has the
id that it is sent under. -/
def Readable (bytes : List UInt8) (data : ModifiersData) : Prop :=
  ModifiersSpec.parseBytes s.maxModifiersSpecMessageSize bytes = some data ∧
    ∀ p ∈ data.modifiers, ∃ m, s.parseObject data.typeId p.2 = some (m, 0) ∧ p.1 = s.modifierId m

variable {s}

/-- The batches of a response, as they are written and read. -/
theorem parseBytes_serialize_batch {limit : ℤ} {mods batch : List (String × List UInt8)}
    (typeId : UInt8) (hids : ∀ m ∈ mods, IsModifierId m.1) (hint : partsSize mods < 2 ^ 31)
    (hsub : batch.Sublist mods) (hne : batch ≠ []) (hbelow : partsSize batch < limit) :
    ∃ out, ModifiersSpec.serialize limit ⟨typeId, batch⟩ = some out ∧
      ModifiersSpec.parseBytes limit out = some ⟨typeId, batch⟩ := by
  have hle := sum_partSize_le_of_sublist hsub
  have hheader : (headerLength + checksumLength : ℤ) = 13 := rfl
  have hmessage : ModifiersSpec.headerLength = 5 := rfl
  rw [partsSize, hheader] at hint hbelow
  have hmodifiers : (⟨typeId, batch⟩ : ModifiersData).modifiers ≠ [] := hne
  apply ModifiersSpec.parseBytes_serialize hmodifiers fun m hm => hids m (hsub.subset hm)
  · rw [hmessage]
    show 5 + (batch.map partSize).sum ≤ limit
    omega
  · rw [hmessage]
    show 5 + (batch.map partSize).sum < 2 ^ 31
    omega

theorem deliveredObjects_eq {bytes : List UInt8} {data : ModifiersData}
    (h : ModifiersSpec.parseBytes s.maxModifiersSpecMessageSize bytes = some data) :
    s.deliveredObjects bytes
      = data.modifiers.filterMap fun p => (s.parseObject data.typeId p.2).map Prod.fst := by
  rw [deliveredObjects, h]

/-- The ids that the modifiers of a readable message are sent under are their own. -/
theorem Readable.map_fst {bytes : List UInt8} {data : ModifiersData} (h : s.Readable bytes data) :
    data.modifiers.map Prod.fst = (s.deliveredObjects bytes).map s.modifierId := by
  obtain ⟨hparse, hall⟩ := h
  rw [deliveredObjects_eq hparse]
  generalize data.modifiers = modifiers at hall
  induction modifiers with
  | nil => rfl
  | cons p modifiers ih =>
    obtain ⟨m, hm, hid⟩ := hall p (by simp)
    rw [List.map_cons, List.filterMap_cons, hm, Option.map_some, List.map_cons, hid,
      ih fun q hq => hall q (by simp [hq])]

/-- Bytes that were made of modifiers are parsed into them. -/
theorem filterMap_parseObject {typeId : ModifierTypeId} {modifiers : List (TX ⊕ PMOD)}
    {toBytes : TX ⊕ PMOD → List UInt8}
    (hall : ∀ m ∈ modifiers, s.parseObject typeId (toBytes m) = some (m, 0)) :
    (modifiers.map fun m => (s.modifierId m, toBytes m)).filterMap
      (fun p => (s.parseObject typeId p.2).map Prod.fst) = modifiers := by
  induction modifiers with
  | nil => rfl
  | cons m modifiers ih =>
    rw [List.map_cons, List.filterMap_cons, hall m (by simp), Option.map_some,
      ih fun m' hm' => hall m' (by simp [hm'])]

/-- The messages that are written for batches, when each of them is read back. -/
theorem filterMap_serialize {typeId : ModifierTypeId}
    {batches : List (List (String × List UInt8))}
    (hall : ∀ batch ∈ batches, ∃ out,
      ModifiersSpec.serialize s.maxModifiersSpecMessageSize ⟨typeId, batch⟩ = some out ∧
      ModifiersSpec.parseBytes s.maxModifiersSpecMessageSize out = some ⟨typeId, batch⟩) :
    ∃ outs, (batches.map fun batch => (⟨typeId, batch⟩ : ModifiersData)).filterMap
        (ModifiersSpec.serialize s.maxModifiersSpecMessageSize) = outs ∧
      (∀ out ∈ outs, ∃ batch ∈ batches,
        ModifiersSpec.parseBytes s.maxModifiersSpecMessageSize out = some ⟨typeId, batch⟩) ∧
      outs.flatMap s.deliveredObjects
        = batches.flatten.filterMap fun p => (s.parseObject typeId p.2).map Prod.fst := by
  induction batches with
  | nil => exact ⟨[], rfl, by simp, rfl⟩
  | cons batch batches ih =>
    obtain ⟨out, hout, hparse⟩ := hall batch (by simp)
    obtain ⟨outs, houts, hread, hobjects⟩ := ih fun b hb => hall b (by simp [hb])
    refine ⟨out :: outs, ?_, fun out' hout' => ?_, ?_⟩
    · rw [List.map_cons, List.filterMap_cons, hout, houts]
    · obtain rfl | hout' := List.mem_cons.1 hout'
      · exact ⟨batch, by simp, hparse⟩
      · obtain ⟨b, hb, hb'⟩ := hread out' hout'
        exact ⟨b, by simp [hb], hb'⟩
    · rw [List.flatMap_cons, List.flatten_cons, List.filterMap_append, hobjects,
        deliveredObjects_eq hparse]

/-- **A response** to a request for modifiers that can be transmitted: every message is
readable, and together they hold the modifiers in order. -/
theorem responseBytes_spec {typeId : ModifierTypeId} {modifiers : List (TX ⊕ PMOD)}
    (h : s.Answerable typeId modifiers) :
    (∀ out ∈ s.responseBytes modifiers, ∃ data, s.Readable out data) ∧
      (s.responseBytes modifiers).flatMap s.deliveredObjects = modifiers := by
  cases hcase : modifiers with
  | nil => exact ⟨by simp [responseBytes, responseFromLocal], rfl⟩
  | cons head rest =>
    rw [← hcase]
    obtain ⟨hhead, -, toBytes, hser, -⟩ := h.transmissible head (by simp [hcase])
    have hwritten : ∀ m ∈ modifiers, (headerLength + checksumLength : ℤ)
        + partSize (s.modifierId m, toBytes m) < s.maxModifiersSpecMessageSize ∧
        s.parseObject typeId (toBytes m) = some (m, 0) := by
      intro m hm
      obtain ⟨toBytes', hser', hfits⟩ := (h.transmissible m hm).written
      obtain rfl := Option.some.inj (hser.symm.trans hser')
      exact hfits
    have hint := h.size_lt toBytes hser
    generalize hmods : (modifiers.map fun m => (s.modifierId m, toBytes m)) = mods at hint
    have hmem : ∀ p ∈ mods, ∃ m ∈ modifiers, (s.modifierId m, toBytes m) = p := by
      intro p hp
      rw [← hmods] at hp
      exact List.mem_map.1 hp
    have hids : ∀ p ∈ mods, IsModifierId p.1 := by
      intro p hp
      obtain ⟨m, hm, rfl⟩ := hmem p hp
      exact (h.transmissible m hm).isModifierId
    have hne : mods ≠ [] := by
      rw [← hmods, hcase]
      exact List.cons_ne_nil _ _
    obtain ⟨batches, hsend, hflatten, hbatches⟩ := sendByParts_spec hne
      (fun p hp => by
        obtain ⟨m, hm, rfl⟩ := hmem p hp
        exact (hwritten m hm).1) hint le_rfl
    have hresponse : s.responseFromLocal modifiers
        = some (batches.map fun batch => ⟨typeId, batch⟩) := by
      rw [hcase] at hmods ⊢
      simp only [responseFromLocal, hhead, hser, hmods, hsend]
      rfl
    obtain ⟨outs, houts, hread, hobjects⟩ := filterMap_serialize fun batch hbatch =>
      parseBytes_serialize_batch typeId hids hint (hflatten ▸ List.sublist_flatten_of_mem hbatch)
        (hbatches batch hbatch).1 (hbatches batch hbatch).2
    rw [responseBytes, hresponse, Option.getD_some, houts]
    constructor
    · intro out hout
      obtain ⟨batch, hbatch, hparse⟩ := hread out hout
      refine ⟨⟨typeId, batch⟩, hparse, fun p hp => ?_⟩
      obtain ⟨m, hm, rfl⟩ := hmem p (hflatten ▸ List.mem_flatten.2 ⟨batch, hbatch, hp⟩)
      exact ⟨m, (hwritten m hm).2, rfl⟩
    · rw [hobjects, hflatten, ← hmods]
      exact filterMap_parseObject fun m hm => (hwritten m hm).2

end NetworkSettings

end Sparkz.Network
