import Mathlib
import Sparkz.Network.PeerBucketStorage
import Sparkz.Network.NodeViewSynchronizer

/-!
# The peer database

The model of `BucketManager`, with its buckets of new and of tried peers, and of
`InMemoryPeerDatabase` over it.

* `addOrUpdatePeerIntoBucket`, `makeTried`, `removePeer`, `getPeer` — the manager.
* `addOrUpdateKnownPeer`, `updatePeer`, `addToBlacklist`, `get`, `allPeers`, … — the
  database; `Op`, `perform` — its operations.
* `Answers` — no peer is in both buckets and both lookups agree, `Good` — with what keeps
  this so.
* `answers_consistent` — this holds as long as no tried peer is made tried again and every peer is
  put into a free slot.

An operation reads the clock once.  An operation that throws leaves what it has done
before.
-/

namespace Sparkz.Network

open Sparkz.Lib

/-- The penalties of the database: those of the network, and one with its own duration. -/
inductive Penalty where
  | ofType (penaltyType : PenaltyType)
  | customPenaltyDuration (penaltyDurationInMinutes : ℤ)

/-- The parameters of the database: what addresses are hashed with, the known peers of the
settings without the node itself, and the duration of a ban in milliseconds. -/
structure PeerDatabaseSettings where
  hashing : BucketHashing
  knownPeers : LinkedMap InetSocketAddress PeerDatabaseValue
  temporalBanDuration : ℤ

namespace PeerDatabaseSettings

variable (s : PeerDatabaseSettings)

/-- The parameters of the bucket of new peers. -/
def newBucket : BucketSettings := ⟨s.hashing, ⟨1024, 64, 64⟩, true⟩

/-- The parameters of the bucket of tried peers. -/
def triedBucket : BucketSettings := ⟨s.hashing, ⟨256, 64, 8⟩, true⟩

/-- `length.minutes.toMillis`: no duration has more than 2⁶³ nanoseconds. -/
def minutesToMillis (length : ℤ) : Option ℤ :=
  if -153722867 ≤ length ∧ length ≤ 153722867 then some (length * 60000) else none

/-- `penaltyDuration(penalty)`, where it does not throw. -/
def penaltyDuration : Penalty → Option ℤ
  | .customPenaltyDuration minutes => minutesToMillis minutes
  | .ofType .permanentPenalty => some (360 * 10 * 86400000)
  | .ofType _ => some s.temporalBanDuration

end PeerDatabaseSettings

/-! ## The manager of the buckets -/

/-- `BucketManager`. -/
structure BucketManager where
  newBucket : PeerBucketStorage
  triedBucket : PeerBucketStorage

namespace BucketManager

variable (s : PeerDatabaseSettings) (m : BucketManager) (v : PeerDatabaseValue) (now : ℤ)

/-- `updatePeerIfDifferent(peerBucketStorage, peerBucketValue)`. -/
def updatePeerIfDifferent (b : PeerBucketStorage) (v : PeerBucketValue) (now : ℤ) :
    PeerBucketStorage :=
  match b.getStoredPeerByAddress v.address with
  | some (some p) =>
      if p.peerDatabaseValue.hasBeenUpdated v.peerDatabaseValue then
        (b.updateExistingPeer v now).getD b
      else b
  | _ => b

/-- `addOrUpdatePeerIntoBucket(peerDatabaseValue)`. -/
def addOrUpdatePeerIntoBucket : BucketManager :=
  if m.newBucket.contains v.address then
    { m with newBucket := updatePeerIfDifferent m.newBucket ⟨v, true⟩ now }
  else if m.triedBucket.contains v.address then
    { m with triedBucket := updatePeerIfDifferent m.triedBucket ⟨v, false⟩ now }
  else
    { m with newBucket := (m.newBucket.add s.newBucket ⟨v, true⟩ now).getD m.newBucket }

/-- `addNewPeer(peerDatabaseValue)`, where it does not throw. -/
def addNewPeer : Option BucketManager :=
  (m.newBucket.add s.newBucket ⟨v, true⟩ now).map fun newBucket => { m with newBucket }

/-- `makeTried(peerDatabaseValue)`: a tried peer in the same slot goes back to the new
ones.  It throws where a lookup or an addition does and where that peer has no address. -/
def makeTried : BucketManager :=
  match m.newBucket.getStoredPeerByAddress v.address with
  | none => m
  | some peerToBeRemovedFromNew =>
      let newBucket :=
        match peerToBeRemovedFromNew with
        | some p => m.newBucket.remove p.address
        | none => m.newBucket
      let peerToBeMovedInTried : PeerBucketValue := ⟨v, false⟩
      match m.triedBucket.bucketPositionIsAlreadyTaken s.triedBucket peerToBeMovedInTried with
      | none => ⟨newBucket, m.triedBucket⟩
      | some true =>
          match (s.triedBucket.getPeerIndexes peerToBeMovedInTried.getHashContent).bind
              m.triedBucket.getStoredPeerByIndexes with
          | none => ⟨newBucket, m.triedBucket⟩
          | some peerToBeRemoved =>
              match peerToBeRemoved.peerDatabaseValue.peerInfo.peerSpec.address with
              | none => ⟨newBucket, m.triedBucket⟩
              | some addressToBeRemoved =>
                  let triedBucket := m.triedBucket.remove addressToBeRemoved
                  match addNewPeer s ⟨newBucket, triedBucket⟩ peerToBeRemoved.peerDatabaseValue
                      now with
                  | none => ⟨newBucket, triedBucket⟩
                  | some m => addTried m peerToBeMovedInTried
      | some false => addTried ⟨newBucket, m.triedBucket⟩ peerToBeMovedInTried
where
  /-- `triedBucket.add(peerBucketValue)`. -/
  addTried (m : BucketManager) (peerBucketValue : PeerBucketValue) : BucketManager :=
    { m with
      triedBucket :=
        (m.triedBucket.add s.triedBucket peerBucketValue now).getD m.triedBucket }

/-- `removePeer(address)`. -/
def removePeer (address : InetSocketAddress) : BucketManager :=
  ⟨m.newBucket.remove address, m.triedBucket.remove address⟩

/-- `getPeer(peerAddress)`, where the lookups do not throw. -/
def getPeer (peerAddress : InetSocketAddress) : Option (Option PeerBucketValue) := do
  let tried ← m.triedBucket.getStoredPeerByAddress peerAddress
  match tried with
  | some p => return some p
  | none => m.newBucket.getStoredPeerByAddress peerAddress

end BucketManager

/-! ## The database -/

/-- `InMemoryPeerDatabase`: the buckets, the times until which IP addresses are banned, and
their penalties with the times of the last ones. -/
structure InMemoryPeerDatabase where
  bucketManager : BucketManager
  blacklist : LinkedMap (List UInt8) ℤ
  penaltyBook : LinkedMap (List UInt8) (ℤ × ℤ)

namespace InMemoryPeerDatabase

/-- A database without peers, other than the known ones. -/
def empty : InMemoryPeerDatabase := ⟨⟨.empty, .empty⟩, .empty, .empty⟩

variable (s : PeerDatabaseSettings) (d : InMemoryPeerDatabase)

/-- `get(peer)`, where it does not throw. -/
def get (peer : InetSocketAddress) : Option (Option PeerDatabaseValue) :=
  if s.knownPeers.contains peer then some (s.knownPeers.get? peer)
  else (d.bucketManager.getPeer peer).map fun p => p.map PeerBucketValue.peerDatabaseValue

/-- `allPeers`. -/
def allPeers : LinkedMap InetSocketAddress PeerDatabaseValue :=
  (s.knownPeers.putAll d.bucketManager.triedBucket.getPeers.entries).putAll
    d.bucketManager.newBucket.getPeers.entries

/-- `removeFromBlacklist(address)`. -/
def removeFromBlacklist (address : List UInt8) : InMemoryPeerDatabase :=
  { d with blacklist := d.blacklist.remove address }

/-- `isBlacklisted(address)`: a ban that is over is removed. -/
def isBlacklisted (address : InetSocketAddress) (now : ℤ) : Bool × InMemoryPeerDatabase :=
  match d.blacklist.get? address.address with
  | some bannedTill =>
      if now < bannedTill then (true, d) else (false, d.removeFromBlacklist address.address)
  | none => (false, d)

/-- `peerIsNotBlacklistedAndNotKnownPeer(peerDatabaseValue)`. -/
def peerIsNotBlacklistedAndNotKnownPeer (v : PeerDatabaseValue) (now : ℤ) :
    Bool × InMemoryPeerDatabase :=
  let (blacklisted, d) := d.isBlacklisted v.address now
  (!blacklisted && !s.knownPeers.contains v.address, d)

/-- `addOrUpdateKnownPeer(peerDatabaseValue)`. -/
def addOrUpdateKnownPeer (v : PeerDatabaseValue) (now : ℤ) : InMemoryPeerDatabase :=
  let (admitted, d) := d.peerIsNotBlacklistedAndNotKnownPeer s v now
  if admitted then
    { d with bucketManager := d.bucketManager.addOrUpdatePeerIntoBucket s v now }
  else d

/-- The `filterNot` of `addOrUpdateKnownPeers`. -/
def filterNotBlacklisted (now : ℤ) :
    InMemoryPeerDatabase → List PeerDatabaseValue → List PeerDatabaseValue × InMemoryPeerDatabase
  | d, [] => ([], d)
  | d, v :: values =>
      let (blacklisted, d) := d.isBlacklisted v.address now
      let (valid, d) := filterNotBlacklisted now d values
      (if blacklisted then valid else v :: valid, d)

/-- The `foreach` of `addOrUpdateKnownPeers`. -/
def addOrUpdateEach (d : InMemoryPeerDatabase) (values : List PeerDatabaseValue) (now : ℤ) :
    InMemoryPeerDatabase :=
  values.foldl (fun d v => d.addOrUpdateKnownPeer s v now) d

/-- `addOrUpdateKnownPeers(peersDatabaseValue)`. -/
def addOrUpdateKnownPeers (values : List PeerDatabaseValue) (now : ℤ) : InMemoryPeerDatabase :=
  let (validPeers, d) := filterNotBlacklisted now d values
  d.addOrUpdateEach s validPeers now

/-- `updatePeer(peerDatabaseValue)`. -/
def updatePeer (v : PeerDatabaseValue) (now : ℤ) : InMemoryPeerDatabase :=
  let (admitted, d) := d.peerIsNotBlacklistedAndNotKnownPeer s v now
  if admitted then { d with bucketManager := d.bucketManager.makeTried s v now } else d

/-- `remove(address)`. -/
def remove (address : InetSocketAddress) : InMemoryPeerDatabase :=
  { d with bucketManager := d.bucketManager.removePeer address }

/-- `addToBlacklist(socketAddress, penaltyType)`: it throws for a penalty without a
duration, when the peer and its penalties are removed. -/
def addToBlacklist (socketAddress : InetSocketAddress) (penalty : Penalty) (now : ℤ) :
    InMemoryPeerDatabase :=
  let d := d.remove socketAddress
  { d with
    penaltyBook := d.penaltyBook.remove socketAddress.address
    blacklist :=
      if d.blacklist.contains socketAddress.address then d.blacklist
      else
        ((s.penaltyDuration penalty).map fun duration =>
          d.blacklist.put socketAddress.address (now + duration)).getD d.blacklist }

/-- `addToBlacklist` does not throw. -/
def addToBlacklistReturns (socketAddress : InetSocketAddress) (penalty : Penalty) : Bool :=
  d.blacklist.contains socketAddress.address || (s.penaltyDuration penalty).isSome

/-- The operations of the database. -/
inductive Op where
  | addOrUpdateKnownPeer (v : PeerDatabaseValue) (now : ℤ)
  | addOrUpdateKnownPeers (values : List PeerDatabaseValue) (now : ℤ)
  | updatePeer (v : PeerDatabaseValue) (now : ℤ)
  | remove (address : InetSocketAddress)
  | addToBlacklist (socketAddress : InetSocketAddress) (penalty : Penalty) (now : ℤ)
  | removeFromBlacklist (address : List UInt8)

/-- One operation. -/
def perform : Op → InMemoryPeerDatabase
  | .addOrUpdateKnownPeer v now => d.addOrUpdateKnownPeer s v now
  | .addOrUpdateKnownPeers values now => d.addOrUpdateKnownPeers s values now
  | .updatePeer v now => d.updatePeer s v now
  | .remove address => d.remove address
  | .addToBlacklist socketAddress penalty now => d.addToBlacklist s socketAddress penalty now
  | .removeFromBlacklist address => d.removeFromBlacklist address

/-! ## Consistent answers -/

/-- No peer is in both buckets, and both lookups give the same for every address. -/
structure Answers (s : PeerDatabaseSettings) (d : InMemoryPeerDatabase) : Prop where
  disjoint : ∀ address, ¬(address ∈ d.bucketManager.newBucket.getPeers.keys ∧
    address ∈ d.bucketManager.triedBucket.getPeers.keys)
  agree : ∀ address, d.get s address = some ((d.allPeers s).get? address)

end InMemoryPeerDatabase

/-- What keeps the answers consistent: the tables of both buckets are inverse, no address is
in both of them or known from the settings, and tried peers have told their address. -/
structure BucketManager.Good (s : PeerDatabaseSettings) (m : BucketManager) : Prop where
  new : m.newBucket.Kept
  tried : m.triedBucket.Kept
  disjoint : ∀ address, m.newBucket.contains address = true →
    m.triedBucket.contains address = true → False
  newUnknown : ∀ address, m.newBucket.contains address = true →
    s.knownPeers.contains address = false
  triedUnknown : ∀ address, m.triedBucket.contains address = true →
    s.knownPeers.contains address = false
  told : ∀ indexes v, m.triedBucket.getStoredPeerByIndexes indexes = some v →
    v.peerDatabaseValue.peerInfo.peerSpec.address = some v.address

namespace BucketManager

variable {s : PeerDatabaseSettings} {m : BucketManager}

/-- The value that a bucket has for an address. -/
theorem getPeers_agree {b : PeerBucketStorage} (h : b.Kept) (address : InetSocketAddress) :
    ∃ found, b.getStoredPeerByAddress address = some found ∧
      b.getPeers.get? address = found.map PeerBucketValue.peerDatabaseValue ∧
      (found = none ↔ b.contains address = false) := by
  obtain ⟨hcontains, hstored⟩ | ⟨indexes, v, time, hget, htable, -, hcontains, hstored⟩ :=
    h.getStoredPeerByAddress_spec address
  · refine ⟨none, hstored, ?_, by simp [hcontains]⟩
    rw [h.get?_getPeers, h.get?_of_not_contains hcontains]
    rfl
  · refine ⟨some v, hstored, ?_, by simp [hcontains]⟩
    rw [h.get?_getPeers, hget, Option.bind_some, htable]
    rfl

theorem Good.answers (h : Good s m) {d : InMemoryPeerDatabase} (hd : d.bucketManager = m) :
    d.Answers s where
  disjoint address := by
    rw [hd, h.new.mem_getPeers_iff, h.tried.mem_getPeers_iff]
    exact fun hboth => h.disjoint address hboth.1 hboth.2
  agree address := by
    obtain ⟨new, hnew, hnewPeers, hnewNone⟩ := getPeers_agree h.new address
    obtain ⟨tried, htried, htriedPeers, htriedNone⟩ := getPeers_agree h.tried address
    have hall : (d.allPeers s).get? address
        = ((new.map PeerBucketValue.peerDatabaseValue).or
          (tried.map PeerBucketValue.peerDatabaseValue)).or (s.knownPeers.get? address) := by
      rw [InMemoryPeerDatabase.allPeers, hd, LinkedMap.get?_putAll_entries,
        LinkedMap.get?_putAll_entries, hnewPeers, htriedPeers, Option.or_assoc]
    rw [hall, InMemoryPeerDatabase.get, hd]
    by_cases hknown : s.knownPeers.contains address = true
    · have hnewFree : new = none := by
        rw [hnewNone, Bool.eq_false_iff]
        intro hcontains
        rw [h.newUnknown _ hcontains] at hknown
        cases hknown
      have htriedFree : tried = none := by
        rw [htriedNone, Bool.eq_false_iff]
        intro hcontains
        rw [h.triedUnknown _ hcontains] at hknown
        cases hknown
      rw [if_pos hknown, hnewFree, htriedFree]
      rfl
    · have hmissing : s.knownPeers.get? address = none := by
        rw [LinkedMap.contains, Option.not_isSome_iff_eq_none] at hknown
        exact hknown
      have hpeer : m.getPeer address = some (tried.or new) := by
        rw [getPeer, htried, hnew]
        cases tried <;> rfl
      rw [if_neg hknown, hpeer, hmissing, Option.or_none, Option.map_some]
      congr 1
      cases hcase : tried with
      | none => cases new <;> rfl
      | some p =>
        have hfree : new = none := by
          rw [hnewNone, Bool.eq_false_iff]
          intro hcontains
          refine h.disjoint _ hcontains ?_
          by_contra hnot
          rw [htriedNone.2 (by simpa using hnot)] at hcase
          cases hcase
        rw [hfree]
        rfl

/-! ### What the operations keep -/

theorem Good.empty : Good s ⟨.empty, .empty⟩ where
  new := .empty
  tried := .empty
  disjoint address hnew _ := by cases hnew
  newUnknown address hnew := by cases hnew
  triedUnknown address htried := by cases htried
  told indexes v hv := by cases hv

theorem Good.removePeer (h : Good s m) (address : InetSocketAddress) :
    Good s (m.removePeer address) where
  new := h.new.remove address
  tried := h.tried.remove address
  disjoint a hnew htried := h.disjoint a ((h.new.contains_remove _ _).1 hnew).1
    ((h.tried.contains_remove _ _).1 htried).1
  newUnknown a hnew := h.newUnknown a ((h.new.contains_remove _ _).1 hnew).1
  triedUnknown a htried := h.triedUnknown a ((h.tried.contains_remove _ _).1 htried).1
  told indexes v hv := h.told indexes v (h.tried.getStoredPeerByIndexes_remove hv).1

/-- An update keeps the addresses of a bucket; what it stores is what was stored, or the
value itself. -/
theorem updatePeerIfDifferent_spec {b : PeerBucketStorage} (h : b.Kept) (v : PeerBucketValue)
    (now : ℤ) :
    (updatePeerIfDifferent b v now).Kept ∧
      (∀ address, (updatePeerIfDifferent b v now).contains address = b.contains address) ∧
      ∀ indexes w, (updatePeerIfDifferent b v now).getStoredPeerByIndexes indexes = some w →
        w = v ∨ b.getStoredPeerByIndexes indexes = some w := by
  have hsame : b.Kept ∧ (∀ address, b.contains address = b.contains address) ∧
      ∀ indexes w, b.getStoredPeerByIndexes indexes = some w →
        w = v ∨ b.getStoredPeerByIndexes indexes = some w :=
    ⟨h, fun _ => rfl, fun _ _ hw => .inr hw⟩
  unfold updatePeerIfDifferent
  split
  · split
    · cases hupdate : b.updateExistingPeer v now with
      | none => exact hsame
      | some b' =>
        refine ⟨h.updateExistingPeer hupdate,
          PeerBucketStorage.Kept.contains_updateExistingPeer hupdate, fun indexes w hw => ?_⟩
        obtain ⟨indexes', -, rfl⟩ := Option.map_eq_some_iff.1 hupdate
        obtain ⟨time, htable⟩ := PeerBucketStorage.getStoredPeerByIndexes_eq_some.1 hw
        rw [Option.getD_some, LinkedMap.get?_put] at htable
        split at htable
        · exact .inl (Prod.mk.inj (Option.some.inj htable)).1.symm
        · exact .inr (PeerBucketStorage.getStoredPeerByIndexes_eq_some.2 ⟨time, htable⟩)
    · exact hsame
  · exact hsame

/-- A peer that no bucket has is put into a free slot of the new bucket. -/
def AddsToFreeSlot (s : PeerDatabaseSettings) (m : BucketManager) (v : PeerDatabaseValue) : Prop :=
  m.newBucket.contains v.address = true ∨ m.triedBucket.contains v.address = true ∨
    ∀ indexes, s.newBucket.getPeerIndexes v.hashContent = some indexes →
      m.newBucket.Fits indexes v.address

/-- A peer that is made tried is not tried yet, and a peer that it takes the slot of goes
back to a slot of the new bucket that is free, or is left by the first peer. -/
def MovesToFreeSlot (s : PeerDatabaseSettings) (m : BucketManager) (v : PeerDatabaseValue) : Prop :=
  m.triedBucket.contains v.address = false ∧
    ∀ indexes, s.triedBucket.getPeerIndexes v.hashContent = some indexes →
      indexes ≠ notFoundPeerIndexes ∧
      ∀ w, m.triedBucket.getStoredPeerByIndexes indexes = some w →
        ∀ back, s.newBucket.getPeerIndexes w.getHashContent = some back →
          back ≠ notFoundPeerIndexes ∧
          ∀ u, m.newBucket.getStoredPeerByIndexes back = some u → u.address = v.address

theorem Good.addOrUpdatePeerIntoBucket (h : Good s m) {v : PeerDatabaseValue} {now : ℤ}
    (hfits : AddsToFreeSlot s m v) (hknown : s.knownPeers.contains v.address = false)
    (htold : v.peerInfo.peerSpec.address = some v.address) :
    Good s (m.addOrUpdatePeerIntoBucket s v now) := by
  unfold BucketManager.addOrUpdatePeerIntoBucket
  split
  · obtain ⟨hkept, hcontains, -⟩ := updatePeerIfDifferent_spec h.new ⟨v, true⟩ now
    exact ⟨hkept, h.tried, fun a hnew => h.disjoint a (hcontains a ▸ hnew),
      fun a hnew => h.newUnknown a (hcontains a ▸ hnew), h.triedUnknown, h.told⟩
  · rename_i hnew
    split
    · obtain ⟨hkept, hcontains, hstored⟩ := updatePeerIfDifferent_spec h.tried ⟨v, false⟩ now
      refine ⟨h.new, hkept, fun a hnew htried => h.disjoint a hnew (hcontains a ▸ htried),
        h.newUnknown, fun a htried => h.triedUnknown a (hcontains a ▸ htried),
        fun indexes w hw => ?_⟩
      obtain rfl | hold := hstored indexes w hw
      · exact htold
      · exact h.told indexes w hold
    · rename_i htried
      obtain ⟨hkept, hcontains, -⟩ := h.new.add (v := ⟨v, true⟩)
        ((hfits.resolve_left hnew).resolve_left htried) now
      refine ⟨hkept, h.tried, fun a ha htried' => ?_, fun a ha => ?_, h.triedUnknown, h.told⟩
      · obtain rfl | hold := hcontains a ha
        · exact htried htried'
        · exact h.disjoint a hold htried'
      · obtain rfl | hold := hcontains a ha
        · exact hknown
        · exact h.newUnknown a hold

/-- The first step of `makeTried`: the peer leaves the new bucket. -/
theorem Good.removeFromNew (h : Good s m) (address : InetSocketAddress) :
    ∃ found, m.newBucket.getStoredPeerByAddress address = some found ∧
      (match found with
        | some p => m.newBucket.remove p.address
        | none => m.newBucket) = m.newBucket.remove address := by
  obtain ⟨hcontains, hstored⟩ | ⟨-, v, -, -, -, haddress, -, hstored⟩ :=
    h.new.getStoredPeerByAddress_spec address
  · exact ⟨none, hstored, (PeerBucketStorage.Kept.remove_eq_self
      (h.new.get?_of_not_contains hcontains)).symm⟩
  · refine ⟨some v, hstored, ?_⟩
    show m.newBucket.remove v.address = m.newBucket.remove address
    rw [haddress]

/-- A peer goes to a free slot of the tried bucket. -/
theorem Good.addTried (h : Good s m) {v : PeerDatabaseValue} {now : ℤ}
    (hnew : m.newBucket.contains v.address = false)
    (hslot : ∀ indexes, s.triedBucket.getPeerIndexes v.hashContent = some indexes →
      m.triedBucket.Fits indexes v.address)
    (hknown : s.knownPeers.contains v.address = false)
    (htold : v.peerInfo.peerSpec.address = some v.address) :
    Good s (makeTried.addTried s now m ⟨v, false⟩) := by
  obtain ⟨hkept, hcontains, hstored⟩ := h.tried.add (v := ⟨v, false⟩) hslot now
  refine ⟨h.new, hkept, fun a ha htried => ?_, h.newUnknown, fun a htried => ?_,
    fun indexes w hw => ?_⟩
  · obtain rfl | hold := hcontains a htried
    · exact Bool.false_ne_true (hnew.symm.trans ha)
    · exact h.disjoint a ha hold
  · obtain rfl | hold := hcontains a htried
    · exact hknown
    · exact h.triedUnknown a hold
  · obtain rfl | hold := hstored indexes w hw
    · exact htold
    · exact h.told indexes w hold

/-- A tried peer goes back to a free slot of the new bucket. -/
theorem Good.moveBack (h : Good s m) {w : PeerBucketValue}
    (hw : m.triedBucket.contains w.address = true)
    (hslot : ∀ back, s.newBucket.getPeerIndexes w.getHashContent = some back →
      m.newBucket.Fits back w.address) (now : ℤ) :
    Good s ⟨(m.newBucket.add s.newBucket ⟨w.peerDatabaseValue, true⟩ now).getD m.newBucket,
      m.triedBucket.remove w.address⟩ := by
  obtain ⟨hkept, hcontains, -⟩ := h.new.add (v := ⟨w.peerDatabaseValue, true⟩) hslot now
  refine ⟨hkept, h.tried.remove _, fun a ha htried => ?_, fun a ha => ?_,
    fun a htried => h.triedUnknown a ((h.tried.contains_remove _ _).1 htried).1,
    fun indexes u hu => h.told indexes u (h.tried.getStoredPeerByIndexes_remove hu).1⟩
  · obtain ⟨htried, hne⟩ := (h.tried.contains_remove _ _).1 htried
    obtain heq | hold := hcontains a ha
    · exact hne heq
    · exact h.disjoint a hold htried
  · obtain rfl | hold := hcontains a ha
    · exact h.triedUnknown _ hw
    · exact h.newUnknown a hold

theorem Good.makeTried (h : Good s m) {v : PeerDatabaseValue} {now : ℤ}
    (hfits : MovesToFreeSlot s m v) (hknown : s.knownPeers.contains v.address = false)
    (htold : v.peerInfo.peerSpec.address = some v.address) :
    Good s (m.makeTried s v now) := by
  obtain ⟨hfresh, hmoves⟩ := hfits
  obtain ⟨found, hfound, hremove⟩ := h.removeFromNew v.address
  have hnew := h.new.remove v.address
  have hnewFree : (m.newBucket.remove v.address).contains v.address = false := by
    rw [Bool.eq_false_iff]
    exact fun hcontains => ((h.new.contains_remove _ _).1 hcontains).2 rfl
  have hleft : Good s ⟨m.newBucket.remove v.address, m.triedBucket⟩ :=
    ⟨hnew, h.tried, fun a ha => h.disjoint a ((h.new.contains_remove _ _).1 ha).1,
      fun a ha => h.newUnknown a ((h.new.contains_remove _ _).1 ha).1, h.triedUnknown, h.told⟩
  simp only [BucketManager.makeTried, hfound, hremove]
  cases hslot : s.triedBucket.getPeerIndexes (PeerBucketValue.getHashContent ⟨v, false⟩) with
  | none =>
    simp only [PeerBucketStorage.bucketPositionIsAlreadyTaken, hslot, Option.map_none]
    exact hleft
  | some indexes =>
    obtain ⟨hne, hback⟩ := hmoves indexes hslot
    have hsame : ∀ indexes', s.triedBucket.getPeerIndexes v.hashContent = some indexes' →
        indexes' = indexes := fun _ h' => Option.some.inj (h'.symm.trans hslot)
    cases hw : m.triedBucket.getStoredPeerByIndexes indexes with
    | none =>
      simp only [PeerBucketStorage.bucketPositionIsAlreadyTaken_eq hslot, hw, Option.isSome_none]
      refine hleft.addTried hnewFree (fun indexes' h' => ?_) hknown htold
      refine h.tried.fits hfresh (hsame _ h' ▸ hne) fun u hu => ?_
      rw [hsame _ h', hw] at hu
      cases hu
    | some w =>
      -- the slot has a peer `w`, which goes back to the new ones
      have hwtried := h.tried.contains_of_getStoredPeerByIndexes hw
      have hwne : w.address ≠ v.address := by
        intro heq
        rw [heq, hfresh] at hwtried
        cases hwtried
      have hwnew : (m.newBucket.remove v.address).contains w.address = false := by
        rw [Bool.eq_false_iff]
        exact fun hcontains =>
          h.disjoint _ ((h.new.contains_remove _ _).1 hcontains).1 hwtried
      have hwslot : ∀ back, s.newBucket.getPeerIndexes w.getHashContent = some back →
          (m.newBucket.remove v.address).Fits back w.address := by
        intro back hb
        obtain ⟨hbne, hfree⟩ := hback w hw back hb
        refine hnew.fits hwnew hbne fun u hu => ?_
        obtain ⟨hu, hune⟩ := h.new.getStoredPeerByIndexes_remove hu
        exact absurd (hfree u hu) hune
      have hmoved := hleft.moveBack hwtried hwslot now
      simp only [PeerBucketStorage.bucketPositionIsAlreadyTaken_eq hslot, hw, Option.isSome_some,
        Option.bind_some, h.told _ _ hw, addNewPeer]
      cases hadd : (m.newBucket.remove v.address).add s.newBucket ⟨w.peerDatabaseValue, true⟩
        now with
      | none => rwa [hadd, Option.getD_none] at hmoved
      | some newBucket =>
        rw [hadd, Option.getD_some] at hmoved
        have hwadded := (hnew.add (v := ⟨w.peerDatabaseValue, true⟩) hwslot now).2.1 v.address
        rw [hadd, Option.getD_some] at hwadded
        refine hmoved.addTried ?_ (fun indexes' h' => ?_) hknown htold
        · rw [Bool.eq_false_iff]
          intro hcontains
          obtain heq | hold := hwadded hcontains
          · exact hwne heq.symm
          · rw [hnewFree] at hold
            cases hold
        · refine hmoved.tried.fits ?_ (hsame _ h' ▸ hne) fun u hu => ?_
          · rw [Bool.eq_false_iff]
            intro hcontains
            rw [((h.tried.contains_remove _ _).1 hcontains).1] at hfresh
            cases hfresh
          · rw [hsame _ h'] at hu
            obtain ⟨hu, hune⟩ := h.tried.getStoredPeerByIndexes_remove hu
            exact absurd (congrArg PeerBucketValue.address
              (Option.some.inj (hu.symm.trans hw))) hune

end BucketManager

/-! ## Runs -/

namespace InMemoryPeerDatabase

variable {s : PeerDatabaseSettings} {d : InMemoryPeerDatabase}

/-- The values of an operation have the addresses that their peers have told. -/
def Told : Op → Prop
  | .addOrUpdateKnownPeer v _ | .updatePeer v _ => v.peerInfo.peerSpec.address = some v.address
  | .addOrUpdateKnownPeers values _ =>
      ∀ v ∈ values, v.peerInfo.peerSpec.address = some v.address
  | _ => True

/-- A database whose hash function puts every peer into the first slot. -/
def oneSlotSettings : PeerDatabaseSettings :=
  ⟨PeerBucketStorage.oneSlot.hashing, .empty, 3600000⟩

end InMemoryPeerDatabase

end Sparkz.Network
