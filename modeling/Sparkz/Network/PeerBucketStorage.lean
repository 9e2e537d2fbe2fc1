import Mathlib
import Sparkz.Lib.Bytes
import Sparkz.Lib.LinkedMap
import Sparkz.Lib.GuardedRun
import Sparkz.Network.NetworkAddressWrapper
import Sparkz.Network.PeerConnectionHandler

/-!
# Buckets of peers

The model of `PeerBucketStorage`: peers are kept in slots, which are computed from their
addresses with a hash function, and a second table leads from addresses to slots.

* `PeerDatabaseValue`, `PeerBucketValue` — what is stored.
* `getBucket`, `getBucketPosition`, `getPeerIndexes` — the slot of an address, which depends on
  its host string.
* `add`, `updateExistingPeer`, `remove`, `clear` and the lookups — the storage.
* `Inverse` — the two tables are inverse to each other, `Kept` — with what keeps them so.
* `tables_inverse_iff` — they stay inverse exactly as long as peers are added to free slots,
  and to the slots that they have.

The clock is an argument of the operations that read it.  Two addresses are equal if their IP
addresses and ports are: the host string, which the code reads from an address, is not compared
and is kept beside it.
-/

namespace Sparkz.Network

open Sparkz.Lib

/-! ## Values -/

/-- `PeerConfidence`. -/
inductive PeerConfidence where
  | unknown | low | medium | high | forger
  deriving DecidableEq, Repr

/-- `PeerDatabaseValue`, with the host string of the address. -/
structure PeerDatabaseValue where
  address : InetSocketAddress
  hostString : List Char
  peerInfo : PeerInfo
  confidence : PeerConfidence
  deriving DecidableEq, Repr

/-- `hasBeenUpdated(otherPeerDbValue)`. -/
def PeerDatabaseValue.hasBeenUpdated (v other : PeerDatabaseValue) : Bool :=
  let isSameAddress := v.address == other.address
  let confidenceChanged := v.confidence != other.confidence
  let peerInfoChanged := !v.peerInfo.equals other.peerInfo
  isSameAddress && (confidenceChanged || peerInfoChanged)

/-- `PeerBucketValue`: a `NewPeerBucketValue` or a `TriedPeerBucketValue`. -/
structure PeerBucketValue where
  peerDatabaseValue : PeerDatabaseValue
  isNew : Bool
  deriving DecidableEq, Repr

/-- The address that a value is stored under. -/
def PeerBucketValue.address (v : PeerBucketValue) : InetSocketAddress := v.peerDatabaseValue.address

/-! ## Slots -/

/-- `BucketConfig`. -/
structure BucketConfig where
  buckets : ℤ
  bucketPositions : ℤ
  bucketSubgroups : ℤ

/-- What addresses are hashed with: `Blake2b256`, and the key. -/
structure BucketHashing where
  blake2b256 : List UInt8 → List UInt8
  nKey : ℤ

/-- The parameters of a storage. -/
structure BucketSettings where
  hashing : BucketHashing
  bucketConfig : BucketConfig
  isNewPeer : Bool

/-- `Ints.toByteArray`. -/
def intBytes (n : ℤ) : List UInt8 := toBytes 4 (n % 2 ^ 32).toNat

/-- `ByteBuffer.wrap(bytes).getInt`. -/
def getInt (bytes : List UInt8) : ℤ := signed 32 (ofBytes (bytes.take 4))

/-- `PeerBucketHashContentImpl`: an address with its host string. -/
structure PeerBucketHashContent where
  address : InetSocketAddress
  hostString : List Char
  deriving DecidableEq

namespace PeerBucketHashContent

variable (c : PeerBucketHashContent)

/-- The host string and the port, as bytes. -/
def getHashAsBytes : List UInt8 :=
  c.hostString.flatMap String.utf8EncodeChar ++ intBytes c.address.port

/-- `getAddressGroup(address)`. -/
def getAddressGroup : Option (List UInt8) :=
  (NetworkAddressWrapper.of c.address.address c.hostString).getAddressGroup

end PeerBucketHashContent

/-- What a value is hashed as. -/
def PeerDatabaseValue.hashContent (v : PeerDatabaseValue) : PeerBucketHashContent :=
  ⟨v.address, v.hostString⟩

/-- `getHashContent(peerBucketValue)`. -/
def PeerBucketValue.getHashContent (v : PeerBucketValue) : PeerBucketHashContent :=
  v.peerDatabaseValue.hashContent

namespace BucketSettings

variable (s : BucketSettings)

/-- `hash2` of `getBucket`, which does not exist where the address has no group. -/
def bucketHash (hashContent : PeerBucketHashContent) : Option (List UInt8) :=
  let hash1Content := intBytes s.hashing.nKey ++ hashContent.getHashAsBytes
  let hInt := getInt (s.hashing.blake2b256 hash1Content)
  hashContent.getAddressGroup.map fun addressGroup =>
    s.hashing.blake2b256 (intBytes s.hashing.nKey ++ addressGroup
      ++ intBytes (hInt.tmod s.bucketConfig.bucketSubgroups))

/-- `getBucket(hashContent)`: the remainder has the sign of the number. -/
def getBucket (hashContent : PeerBucketHashContent) : Option ℤ :=
  (s.bucketHash hashContent).map fun hash2 => (getInt hash2).tmod s.bucketConfig.buckets

/-- `hash1` of `getBucketPosition`. -/
def positionHash (nBucket : ℤ) (peerAddress : PeerBucketHashContent) : List UInt8 :=
  s.hashing.blake2b256 (intBytes s.hashing.nKey ++ intBytes (if s.isNewPeer then 1 else 0)
    ++ intBytes nBucket ++ peerAddress.getHashAsBytes)

/-- `getBucketPosition(nBucket, peerAddress)`. -/
def getBucketPosition (nBucket : ℤ) (peerAddress : PeerBucketHashContent) : ℤ :=
  (getInt (s.positionHash nBucket peerAddress)).tmod s.bucketConfig.bucketPositions

/-- `getPeerIndexes(peerHashContent)`. -/
def getPeerIndexes (peerHashContent : PeerBucketHashContent) : Option (ℤ × ℤ) :=
  (s.getBucket peerHashContent).map fun bucket =>
    (bucket, s.getBucketPosition bucket peerHashContent)

end BucketSettings

/-- `NOT_FOUND_PEER_INDEXES`. -/
def notFoundPeerIndexes : ℤ × ℤ := (-1, -1)

/-! ## The storage -/

/-- `PeerBucketStorage`: the values with the times at which they were put, and the slots of
the addresses. -/
structure PeerBucketStorage where
  table : LinkedMap (ℤ × ℤ) (PeerBucketValue × ℤ)
  reverseTable : LinkedMap InetSocketAddress (ℤ × ℤ)

namespace PeerBucketStorage

/-- A storage without peers. -/
def empty : PeerBucketStorage := ⟨.empty, .empty⟩

variable (s : BucketSettings) (b : PeerBucketStorage)

/-- The tables with a peer in a slot. -/
def putAt (indexes : ℤ × ℤ) (v : PeerBucketValue) (now : ℤ) : PeerBucketStorage where
  table := b.table.put indexes (v, now)
  reverseTable := b.reverseTable.put v.address indexes

/-- `add(peerBucketValue)`: it throws for an address without a group. -/
def add (v : PeerBucketValue) (now : ℤ) : Option PeerBucketStorage :=
  (s.getPeerIndexes v.getHashContent).map fun indexes => b.putAt indexes v now

/-- `updateExistingPeer(peerBucketValue)`: it throws for an address without a slot. -/
def updateExistingPeer (v : PeerBucketValue) (now : ℤ) : Option PeerBucketStorage :=
  (b.reverseTable.get? v.address).map fun indexes =>
    { b with table := b.table.put indexes (v, now) }

/-- `tryGetIndexesFromPeerAddress(address)`. -/
def tryGetIndexesFromPeerAddress (address : InetSocketAddress) : ℤ × ℤ :=
  (b.reverseTable.get? address).getD notFoundPeerIndexes

/-- `remove(address)`. -/
def remove (address : InetSocketAddress) : PeerBucketStorage :=
  let peerIndexes := b.tryGetIndexesFromPeerAddress address
  if peerIndexes ≠ notFoundPeerIndexes then
    ⟨b.table.remove peerIndexes, b.reverseTable.remove address⟩
  else b

/-- `clear()`. -/
def clear (_ : PeerBucketStorage) : PeerBucketStorage := empty

/-- `bucketPositionIsAlreadyTaken(peerBucketValue)`, where the address has a group. -/
def bucketPositionIsAlreadyTaken (v : PeerBucketValue) : Option Bool :=
  (s.getPeerIndexes v.getHashContent).map fun indexes => b.table.contains indexes

/-- `contains(address)`. -/
def contains (address : InetSocketAddress) : Bool :=
  b.tryGetIndexesFromPeerAddress address != notFoundPeerIndexes

/-- `getStoredPeerByAddress(address)`: it throws where the slot of the address is empty. -/
def getStoredPeerByAddress (address : InetSocketAddress) : Option (Option PeerBucketValue) :=
  let indexes := b.tryGetIndexesFromPeerAddress address
  if indexes ≠ notFoundPeerIndexes then (b.table.get? indexes).map fun p => some p.1
  else some none

/-- `getStoredPeerByIndexes(bucket, bucketPosition)`. -/
def getStoredPeerByIndexes (indexes : ℤ × ℤ) : Option PeerBucketValue :=
  (b.table.get? indexes).map Prod.fst

/-- `getPeers`. -/
def getPeers : LinkedMap InetSocketAddress PeerDatabaseValue :=
  LinkedMap.empty.putAll (b.table.entries.map fun e =>
    (e.2.1.peerDatabaseValue.address, e.2.1.peerDatabaseValue))

/-! ## Inverse tables -/

/-- The storage has a value of the address in a slot. -/
def HoldsAt (indexes : ℤ × ℤ) (address : InetSocketAddress) : Prop :=
  ∃ v time, b.table.get? indexes = some (v, time) ∧ v.address = address

/-- The tables are inverse to each other, lookups by address return a value of the address
and do not throw, removing an address removes no other one, and `contains` agrees with
`getPeers`. -/
structure Inverse : Prop where
  inverse : ∀ address indexes,
    b.reverseTable.get? address = some indexes ↔ b.HoldsAt indexes address
  stored : ∀ address, ∃ found, b.getStoredPeerByAddress address = some found ∧
    ∀ v, found = some v → v.address = address
  removed : ∀ address indexes v time, b.table.get? indexes = some (v, time) →
    v.address ≠ address → (b.remove address).table.get? indexes = some (v, time)
  contained : ∀ address, b.contains address = true ↔ address ∈ b.getPeers.keys

/-- What keeps the tables inverse: no address leads to the slot that stands for a missing one. -/
structure Kept : Prop where
  inverse : ∀ address indexes,
    b.reverseTable.get? address = some indexes ↔ b.HoldsAt indexes address
  found : ∀ address indexes, b.reverseTable.get? address = some indexes →
    indexes ≠ notFoundPeerIndexes

/-- The slot is free or holds the address itself, it is none that stands for a missing address,
and the address has no other slot. -/
structure Fits (indexes : ℤ × ℤ) (address : InetSocketAddress) : Prop where
  free : ∀ v, b.getStoredPeerByIndexes indexes = some v → v.address = address
  slot : indexes ≠ notFoundPeerIndexes
  stays : ∀ indexes', b.reverseTable.get? address = some indexes' → indexes' = indexes

variable {s b}

theorem getStoredPeerByIndexes_eq_some {indexes : ℤ × ℤ} {v : PeerBucketValue} :
    b.getStoredPeerByIndexes indexes = some v ↔ ∃ time, b.table.get? indexes = some (v, time) := by
  rw [getStoredPeerByIndexes, Option.map_eq_some_iff]
  constructor
  · rintro ⟨⟨v', time⟩, hget, rfl⟩
    exact ⟨time, hget⟩
  · rintro ⟨time, hget⟩
    exact ⟨(v, time), hget, rfl⟩

/-- A taken slot has a peer. -/
theorem bucketPositionIsAlreadyTaken_eq {v : PeerBucketValue} {indexes : ℤ × ℤ}
    (hslot : s.getPeerIndexes v.getHashContent = some indexes) :
    b.bucketPositionIsAlreadyTaken s v = some (b.getStoredPeerByIndexes indexes).isSome := by
  rw [bucketPositionIsAlreadyTaken, hslot, Option.map_some, LinkedMap.contains,
    getStoredPeerByIndexes, Option.isSome_map]

/-- A slot holds a value of one address at most. -/
theorem HoldsAt.unique {indexes : ℤ × ℤ} {a a' : InetSocketAddress} (h : b.HoldsAt indexes a)
    (h' : b.HoldsAt indexes a') : a = a' := by
  obtain ⟨v, time, hget, rfl⟩ := h
  obtain ⟨v', time', hget', rfl⟩ := h'
  rw [hget] at hget'
  rw [(Prod.mk.inj (Option.some.inj hget')).1]

theorem holdsAt_put {m : LinkedMap (ℤ × ℤ) (PeerBucketValue × ℤ)}
    {r : LinkedMap InetSocketAddress (ℤ × ℤ)} {indexes indexes' : ℤ × ℤ} {v : PeerBucketValue}
    {now : ℤ} {address : InetSocketAddress} :
    HoldsAt ⟨m.put indexes (v, now), r⟩ indexes' address ↔
      indexes' = indexes ∧ v.address = address
        ∨ indexes' ≠ indexes ∧ HoldsAt ⟨m, r⟩ indexes' address := by
  unfold HoldsAt
  simp only [LinkedMap.get?_put]
  by_cases hi : indexes' = indexes
  · simp [hi]
  · simp [hi]

theorem holdsAt_remove {m : LinkedMap (ℤ × ℤ) (PeerBucketValue × ℤ)}
    {r : LinkedMap InetSocketAddress (ℤ × ℤ)} {indexes indexes' : ℤ × ℤ}
    {address : InetSocketAddress} :
    HoldsAt ⟨m.remove indexes, r⟩ indexes' address ↔
      indexes' ≠ indexes ∧ HoldsAt ⟨m, r⟩ indexes' address := by
  unfold HoldsAt
  simp only [LinkedMap.get?_remove]
  by_cases hi : indexes' = indexes
  · simp [hi]
  · simp [hi]

/-- `getPeers` has the addresses of the values in the table. -/
theorem mem_keys_getPeers {address : InetSocketAddress} :
    address ∈ b.getPeers.keys ↔ ∃ indexes, b.HoldsAt indexes address := by
  rw [getPeers, LinkedMap.mem_keys_putAll, List.map_map, List.mem_map]
  constructor
  · rintro (hempty | ⟨e, he, rfl⟩)
    · cases hempty
    · exact ⟨e.1, e.2.1, e.2.2, LinkedMap.get?_of_mem_entries he, rfl⟩
  · rintro ⟨indexes, v, time, hget, rfl⟩
    exact .inr ⟨_, LinkedMap.mem_entries_of_get? hget, rfl⟩

namespace Kept

theorem empty : PeerBucketStorage.empty.Kept where
  inverse address indexes := by
    constructor
    · intro h
      cases h
    · rintro ⟨v, time, hget, -⟩
      cases hget
  found address indexes h := by cases h

theorem tryGet_eq (h : b.Kept) {address : InetSocketAddress} {indexes : ℤ × ℤ}
    (hget : b.reverseTable.get? address = some indexes) :
    b.tryGetIndexesFromPeerAddress address = indexes ∧ indexes ≠ notFoundPeerIndexes :=
  ⟨by rw [tryGetIndexesFromPeerAddress, hget, Option.getD_some], h.found _ _ hget⟩

theorem contains_iff (h : b.Kept) {address : InetSocketAddress} :
    b.contains address = true ↔ ∃ indexes, b.reverseTable.get? address = some indexes := by
  rw [PeerBucketStorage.contains, bne_iff_ne]
  constructor
  · intro hne
    cases hget : b.reverseTable.get? address with
    | none => exact absurd (by rw [tryGetIndexesFromPeerAddress, hget, Option.getD_none]) hne
    | some indexes => exact ⟨indexes, rfl⟩
  · rintro ⟨indexes, hget⟩
    rw [(h.tryGet_eq hget).1]
    exact (h.tryGet_eq hget).2

/-- An address that is not found leads to no slot. -/
theorem get?_of_not_contains (h : b.Kept) {address : InetSocketAddress}
    (hnot : b.contains address = false) : b.reverseTable.get? address = none := by
  cases hget : b.reverseTable.get? address with
  | none => rfl
  | some indexes =>
    rw [h.contains_iff.2 ⟨indexes, hget⟩] at hnot
    cases hnot

theorem getStoredPeerByAddress_spec (h : b.Kept) (address : InetSocketAddress) :
    (b.contains address = false ∧ b.getStoredPeerByAddress address = some none) ∨
      ∃ indexes v time, b.reverseTable.get? address = some indexes ∧
        b.table.get? indexes = some (v, time) ∧ v.address = address ∧
        b.contains address = true ∧ b.getStoredPeerByAddress address = some (some v) := by
  cases hget : b.reverseTable.get? address with
  | none =>
    have htry : b.tryGetIndexesFromPeerAddress address = notFoundPeerIndexes := by
      rw [tryGetIndexesFromPeerAddress, hget, Option.getD_none]
    refine .inl ⟨by rw [PeerBucketStorage.contains, htry, bne_self_eq_false], ?_⟩
    rw [getStoredPeerByAddress, htry]
    rfl
  | some indexes =>
    obtain ⟨htry, hne⟩ := h.tryGet_eq hget
    obtain ⟨v, time, htable, haddress⟩ := (h.inverse _ _).1 hget
    refine .inr ⟨indexes, v, time, rfl, htable, haddress, h.contains_iff.2 ⟨_, hget⟩, ?_⟩
    simp only [getStoredPeerByAddress, htry, if_pos hne, htable, Option.map_some]

/-- `getPeers` has the values of the table under their addresses. -/
theorem get?_getPeers (h : b.Kept) (address : InetSocketAddress) :
    b.getPeers.get? address = (b.reverseTable.get? address).bind fun indexes =>
      (b.table.get? indexes).map fun p => p.1.peerDatabaseValue := by
  have hslot : ∀ e ∈ b.table.entries, e.2.1.address = address →
      b.reverseTable.get? address = some e.1 := by
    intro e he haddress
    exact (h.inverse _ _).2 ⟨e.2.1, e.2.2, LinkedMap.get?_of_mem_entries he, haddress⟩
  cases hget : b.reverseTable.get? address with
  | none =>
    refine LinkedMap.get?_putAll_of_not_mem ?_
    intro e he haddr
    obtain ⟨e', he', rfl⟩ := List.mem_map.1 he
    rw [hslot e' he' haddr] at hget
    cases hget
  | some indexes =>
    obtain ⟨v, time, htable, haddress⟩ := (h.inverse _ _).1 hget
    rw [Option.bind_some, htable, Option.map_some]
    refine LinkedMap.get?_putAll_of_mem
      (List.mem_map.2 ⟨_, LinkedMap.mem_entries_of_get? htable, ?_⟩) ?_
    · exact Prod.ext haddress rfl
    · intro e he haddr
      obtain ⟨e', he', rfl⟩ := List.mem_map.1 he
      have htable' := LinkedMap.get?_of_mem_entries he'
      rw [Option.some.inj ((hslot e' he' haddr).symm.trans hget), htable] at htable'
      rw [← Option.some.inj htable']

theorem mem_getPeers_iff (h : b.Kept) (address : InetSocketAddress) :
    address ∈ b.getPeers.keys ↔ b.contains address = true := by
  rw [mem_keys_getPeers, h.contains_iff]
  exact exists_congr fun indexes => (h.inverse _ _).symm

theorem remove_eq (h : b.Kept) {address : InetSocketAddress} {indexes : ℤ × ℤ}
    (hget : b.reverseTable.get? address = some indexes) :
    b.remove address = ⟨b.table.remove indexes, b.reverseTable.remove address⟩ := by
  obtain ⟨htry, hne⟩ := h.tryGet_eq hget
  simp only [PeerBucketStorage.remove, htry, if_pos hne]

theorem remove_eq_self {address : InetSocketAddress}
    (hget : b.reverseTable.get? address = none) : b.remove address = b := by
  have htry : b.tryGetIndexesFromPeerAddress address = notFoundPeerIndexes := by
    rw [tryGetIndexesFromPeerAddress, hget, Option.getD_none]
  simp only [PeerBucketStorage.remove, htry, ne_eq, not_true_eq_false, if_false]

theorem toInverse (h : b.Kept) : b.Inverse where
  inverse := h.inverse
  stored address := by
    obtain ⟨-, hstored⟩ | ⟨-, v, -, -, -, haddress, -, hstored⟩ :=
      h.getStoredPeerByAddress_spec address
    · exact ⟨none, hstored, fun v hv => by cases hv⟩
    · refine ⟨some v, hstored, fun v' hv' => ?_⟩
      rwa [← Option.some.inj hv']
  removed address indexes v time htable hne := by
    cases hget : b.reverseTable.get? address with
    | none => rwa [remove_eq_self hget]
    | some indexes' =>
      rw [h.remove_eq hget, LinkedMap.get?_remove, if_neg, htable]
      rintro rfl
      obtain ⟨v', time', htable', haddress⟩ := (h.inverse _ _).1 hget
      rw [htable] at htable'
      exact hne ((Prod.mk.inj (Option.some.inj htable')).1 ▸ haddress)
  contained address := (h.mem_getPeers_iff address).symm

/-! ### What the operations keep -/

theorem putAt (h : b.Kept) {indexes : ℤ × ℤ} {v : PeerBucketValue}
    (hfits : b.Fits indexes v.address) (now : ℤ) : (b.putAt indexes v now).Kept where
  inverse address indexes' := by
    rw [PeerBucketStorage.putAt, holdsAt_put, LinkedMap.get?_put]
    by_cases haddress : address = v.address
    · rw [if_pos haddress, haddress, Option.some.injEq]
      constructor
      · rintro rfl
        exact .inl ⟨rfl, rfl⟩
      · rintro (⟨rfl, -⟩ | ⟨-, hholds⟩)
        · rfl
        · exact (hfits.stays _ ((h.inverse _ _).2 hholds)).symm
    · rw [if_neg haddress, h.inverse]
      constructor
      · intro hholds
        refine .inr ⟨?_, hholds⟩
        rintro rfl
        obtain ⟨w, time, htable, rfl⟩ := hholds
        exact haddress (hfits.free w (getStoredPeerByIndexes_eq_some.2 ⟨time, htable⟩))
      · rintro (⟨-, hv⟩ | ⟨-, hholds⟩)
        · exact absurd hv.symm haddress
        · exact hholds
  found address indexes' hget := by
    rw [PeerBucketStorage.putAt, LinkedMap.get?_put] at hget
    split at hget
    · rw [← Option.some.inj hget]
      exact hfits.slot
    · exact h.found _ _ hget

theorem updateExistingPeer (h : b.Kept) {v : PeerBucketValue} {now : ℤ} {b' : PeerBucketStorage}
    (hb' : b.updateExistingPeer v now = some b') : b'.Kept := by
  obtain ⟨indexes, hget, rfl⟩ := Option.map_eq_some_iff.1 hb'
  refine ⟨fun address indexes' => ?_, h.found⟩
  rw [holdsAt_put]
  show b.reverseTable.get? address = some indexes' ↔ _ ∨ _ ∧ b.HoldsAt indexes' address
  by_cases hi : indexes' = indexes
  · rw [hi]
    have hholds := (h.inverse _ _).1 hget
    constructor
    · intro hother
      exact .inl ⟨rfl, hholds.unique ((h.inverse _ _).1 hother)⟩
    · rintro (⟨-, rfl⟩ | ⟨hne, -⟩)
      · exact hget
      · exact absurd rfl hne
  · rw [h.inverse]
    simp [hi]

theorem remove (h : b.Kept) (address : InetSocketAddress) : (b.remove address).Kept := by
  cases hget : b.reverseTable.get? address with
  | none => rwa [remove_eq_self hget]
  | some indexes =>
    rw [h.remove_eq hget]
    refine ⟨fun a i => ?_, fun a i ha => ?_⟩
    · rw [holdsAt_remove, LinkedMap.get?_remove]
      show _ ↔ _ ∧ b.HoldsAt i a
      have hholds := (h.inverse _ _).1 hget
      by_cases haddress : a = address
      · rw [if_pos haddress, haddress]
        constructor
        · intro hcontra
          cases hcontra
        · rintro ⟨hne, hother⟩
          have := (h.inverse _ _).2 hother
          rw [hget] at this
          exact absurd (Option.some.inj this).symm hne
      · rw [if_neg haddress, h.inverse]
        constructor
        · intro hother
          refine ⟨?_, hother⟩
          rintro rfl
          exact haddress (hother.unique hholds)
        · exact fun hboth => hboth.2
    · rw [LinkedMap.get?_remove] at ha
      split at ha
      · cases ha
      · exact h.found _ _ ha

/-! ### What the operations do to the addresses -/

theorem contains_putAt (h : b.Kept) {indexes : ℤ × ℤ} {v : PeerBucketValue}
    (hfits : b.Fits indexes v.address) (now : ℤ) (address : InetSocketAddress) :
    (b.putAt indexes v now).contains address = true
      ↔ address = v.address ∨ b.contains address = true := by
  rw [(h.putAt hfits now).contains_iff, h.contains_iff, PeerBucketStorage.putAt]
  simp only [LinkedMap.get?_put]
  by_cases haddress : address = v.address
  · simp [haddress]
  · simp [haddress]

theorem contains_updateExistingPeer {v : PeerBucketValue} {now : ℤ}
    {b' : PeerBucketStorage} (hb' : b.updateExistingPeer v now = some b')
    (address : InetSocketAddress) : b'.contains address = b.contains address := by
  obtain ⟨indexes, -, rfl⟩ := Option.map_eq_some_iff.1 hb'
  rfl

theorem contains_remove (h : b.Kept) (removed address : InetSocketAddress) :
    (b.remove removed).contains address = true ↔
      b.contains address = true ∧ address ≠ removed := by
  rw [(h.remove removed).contains_iff, h.contains_iff]
  cases hget : b.reverseTable.get? removed with
  | none =>
    rw [remove_eq_self hget]
    constructor
    · rintro ⟨indexes, haddress⟩
      refine ⟨⟨indexes, haddress⟩, ?_⟩
      rintro rfl
      rw [hget] at haddress
      cases haddress
    · exact fun hboth => hboth.1
  | some indexes =>
    rw [h.remove_eq hget]
    simp only [LinkedMap.get?_remove]
    by_cases haddress : address = removed
    · simp [haddress]
    · simp [haddress]

/-- What is stored after an address was removed was stored before, and is none of it. -/
theorem getStoredPeerByIndexes_remove (h : b.Kept) {removed : InetSocketAddress}
    {indexes : ℤ × ℤ} {v : PeerBucketValue}
    (hv : (b.remove removed).getStoredPeerByIndexes indexes = some v) :
    b.getStoredPeerByIndexes indexes = some v ∧ v.address ≠ removed := by
  obtain ⟨time, htable⟩ := getStoredPeerByIndexes_eq_some.1 hv
  have hcontains := (h.contains_remove removed v.address).1
    ((h.remove removed).contains_iff.2 ⟨indexes, ((h.remove removed).inverse _ _).2
      ⟨v, time, htable, rfl⟩⟩)
  refine ⟨getStoredPeerByIndexes_eq_some.2 ⟨time, ?_⟩, hcontains.2⟩
  cases hget : b.reverseTable.get? removed with
  | none => rwa [remove_eq_self hget] at htable
  | some indexes' =>
    rw [h.remove_eq hget, LinkedMap.get?_remove] at htable
    split at htable
    · cases htable
    · exact htable

theorem contains_of_getStoredPeerByIndexes (h : b.Kept) {indexes : ℤ × ℤ} {v : PeerBucketValue}
    (hv : b.getStoredPeerByIndexes indexes = some v) : b.contains v.address = true := by
  obtain ⟨time, htable⟩ := getStoredPeerByIndexes_eq_some.1 hv
  exact h.contains_iff.2 ⟨indexes, (h.inverse _ _).2 ⟨v, time, htable, rfl⟩⟩

/-- A free slot fits an address that is not found. -/
theorem fits (h : b.Kept) {indexes : ℤ × ℤ} {address : InetSocketAddress}
    (hnot : b.contains address = false) (hslot : indexes ≠ notFoundPeerIndexes)
    (hfree : ∀ v, b.getStoredPeerByIndexes indexes = some v → v.address = address) :
    b.Fits indexes address :=
  ⟨hfree, hslot, fun indexes' hget => by cases (h.get?_of_not_contains hnot).symm.trans hget⟩

end Kept

/-! ## Runs -/

/-- The operations of the storage. -/
inductive Op where
  | add (v : PeerBucketValue) (now : ℤ)
  | updateExistingPeer (v : PeerBucketValue) (now : ℤ)
  | remove (address : InetSocketAddress)
  | clear

/-- An operation; one that throws changes nothing. -/
def perform (s : BucketSettings) (b : PeerBucketStorage) : Op → PeerBucketStorage
  | .add v now => (b.add s v now).getD b
  | .updateExistingPeer v now => (b.updateExistingPeer v now).getD b
  | .remove address => b.remove address
  | .clear => b.clear

/-- A peer that is added has a slot that fits. -/
def AddsToFreeSlot (s : BucketSettings) (b : PeerBucketStorage) : Op → Prop
  | .add v _ => ∀ indexes, s.getPeerIndexes v.getHashContent = some indexes →
      b.Fits indexes v.address
  | _ => True

/-- An addition to a slot that fits adds the address, if it does not throw. -/
theorem Kept.add (h : b.Kept) {v : PeerBucketValue}
    (hfits : ∀ indexes, s.getPeerIndexes v.getHashContent = some indexes →
      b.Fits indexes v.address) (now : ℤ) :
    ((b.add s v now).getD b).Kept
    ∧ (∀ address, ((b.add s v now).getD b).contains address = true →
      address = v.address ∨ b.contains address = true)
    ∧ ∀ indexes w, ((b.add s v now).getD b).getStoredPeerByIndexes indexes = some w →
      w = v ∨ b.getStoredPeerByIndexes indexes = some w := by
  rw [PeerBucketStorage.add]
  cases hslot : s.getPeerIndexes v.getHashContent with
  | none => exact ⟨h, fun _ => .inr, fun _ _ => .inr⟩
  | some indexes =>
    have hfit := hfits indexes hslot
    refine ⟨h.putAt hfit now, fun address => (h.contains_putAt hfit now address).1,
      fun indexes' w hw => ?_⟩
    obtain ⟨time, htable⟩ := getStoredPeerByIndexes_eq_some.1 hw
    rw [Option.map_some, Option.getD_some, PeerBucketStorage.putAt, LinkedMap.get?_put] at htable
    split at htable
    · exact .inl (Prod.mk.inj (Option.some.inj htable)).1.symm
    · exact .inr (getStoredPeerByIndexes_eq_some.2 ⟨time, htable⟩)

theorem Kept.perform (h : b.Kept) {op : Op} (hop : AddsToFreeSlot s b op) :
    (b.perform s op).Kept := by
  cases op with
  | add v now => exact (h.add hop now).1
  | updateExistingPeer v now =>
    rw [PeerBucketStorage.perform]
    cases hupdate : b.updateExistingPeer v now with
    | none => exact h
    | some b' => exact h.updateExistingPeer hupdate
  | remove address => exact h.remove address
  | clear => exact .empty

/-- **A peer in a slot that does not fit** breaks the tables. -/
theorem Kept.not_inverse_putAt (h : b.Kept) {indexes : ℤ × ℤ} {v : PeerBucketValue}
    (hfits : ¬b.Fits indexes v.address) (now : ℤ) : ¬(b.putAt indexes v now).Inverse := by
  intro hinverse
  have hnew : (b.putAt indexes v now).reverseTable.get? v.address = some indexes := by
    rw [PeerBucketStorage.putAt, LinkedMap.get?_put, if_pos rfl]
  refine hfits ⟨fun w hw => ?_, fun hslot => ?_, fun indexes' hget => ?_⟩
  · -- the address of `w` still leads to the slot, which holds `v` now
    obtain ⟨time, htable⟩ := getStoredPeerByIndexes_eq_some.1 hw
    by_contra hne
    have hold : (b.putAt indexes v now).reverseTable.get? w.address = some indexes := by
      rw [PeerBucketStorage.putAt, LinkedMap.get?_put, if_neg hne]
      exact (h.inverse _ _).2 ⟨w, time, htable, rfl⟩
    exact hne (((hinverse.inverse _ _).1 hold).unique ((hinverse.inverse _ _).1 hnew))
  · -- the address is stored, and taken for a missing one
    have hcontains : (b.putAt indexes v now).contains v.address = false := by
      rw [PeerBucketStorage.contains, tryGetIndexesFromPeerAddress, hnew, Option.getD_some, hslot,
        bne_self_eq_false]
    have hmem : v.address ∈ (b.putAt indexes v now).getPeers.keys :=
      mem_keys_getPeers.2 ⟨_, holdsAt_put.2 (.inl ⟨rfl, rfl⟩)⟩
    rw [(hinverse.contained _).2 hmem] at hcontains
    cases hcontains
  · -- the other slot still holds a value of the address, which leads to the new one
    by_contra hne
    have hold : (b.putAt indexes v now).HoldsAt indexes' v.address :=
      holdsAt_put.2 (.inr ⟨hne, (h.inverse _ _).1 hget⟩)
    rw [(hinverse.inverse _ _).2 hold] at hnew
    exact hne (Option.some.inj hnew)

theorem Kept.addsToFreeSlot (h : b.Kept) {op : Op} (hinverse : (b.perform s op).Inverse) :
    AddsToFreeSlot s b op := by
  cases op with
  | add v now =>
    intro indexes hslot
    by_contra hfits
    refine h.not_inverse_putAt hfits now ?_
    rwa [PeerBucketStorage.perform, PeerBucketStorage.add, hslot] at hinverse
  | _ => trivial

/-- Every peer that is added in the run has a slot that fits. -/
def FreeSlots (s : BucketSettings) (b : PeerBucketStorage) (ops : List Op) : Prop :=
  Along (perform s) (AddsToFreeSlot s) b ops

/-- **Where the tables are inverse**: in all states of exactly those runs that add every
peer to a free slot, or to its own, and to no second one. -/
theorem tables_inverse_iff (s : BucketSettings) (ops : List Op) :
    (∀ pre, pre <+: ops → (pre.foldl (perform s) .empty).Inverse) ↔ FreeSlots s .empty ops :=
  along_iff (I := Kept) (fun _ _ hkept hfree => hkept.perform hfree)
    (fun _ hkept => hkept.toInverse) (fun _ _ hkept hinverse => hkept.addsToFreeSlot hinverse)
    .empty ops

/-! ### Two peers in one slot -/

/-- A hash function that puts every peer into the first slot. -/
def oneSlot : BucketSettings where
  hashing := ⟨fun _ => [0, 0, 0, 0], 0⟩
  bucketConfig := ⟨1024, 64, 64⟩
  isNewPeer := true

/-- A peer that is known by its address. -/
def peerAt (address : InetSocketAddress) : PeerBucketValue :=
  ⟨⟨address, hostAddress address.address, ⟨⟨[], ⟨0, 0, 1⟩, [], some address, []⟩, 0, none⟩,
    .unknown⟩, true⟩

/-- The address of the first of two peers in one slot leads to the second one. -/
theorem slot_shared :
    ¬∀ (s : BucketSettings) (ops : List Op), (ops.foldl (perform s) .empty).Inverse := by
  intro h
  have hinverse := h oneSlot [.add (peerAt ⟨[88, 0, 0, 1], 9084, .inl rfl, by decide⟩) 0,
    .add (peerAt ⟨[88, 0, 0, 2], 9084, .inl rfl, by decide⟩) 0]
  obtain ⟨v, time, htable, haddress⟩ :=
    (hinverse.inverse ⟨[88, 0, 0, 1], 9084, .inl rfl, by decide⟩ (0, 0)).1 (by decide)
  have hsecond : (List.foldl (perform oneSlot) .empty
      [.add (peerAt ⟨[88, 0, 0, 1], 9084, .inl rfl, by decide⟩) 0,
        .add (peerAt ⟨[88, 0, 0, 2], 9084, .inl rfl, by decide⟩) 0]).table.get? (0, 0)
      = some (peerAt ⟨[88, 0, 0, 2], 9084, .inl rfl, by decide⟩, 0) := by decide
  obtain ⟨rfl, -⟩ := Prod.mk.inj (Option.some.inj (hsecond.symm.trans htable))
  exact absurd haddress (by decide)

end PeerBucketStorage

end Sparkz.Network
