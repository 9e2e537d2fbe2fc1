import Sparkz.Network.PeerBucketStorage

/-!
# The coordinates of a slot

A slot is a pair of remainders of numbers read from hashes.  The numbers have a sign, and
so have the remainders; one pair of negative ones stands for a missing peer.

* `tmod_inRange_iff` — when a remainder is in the range of its divisor.
* `contains_putAt_iff` — a peer is found after it is put into a slot, if this is not the one
  that stands for a missing peer.
* `Located` — coordinates in range, so that the address is found; `located_iff`.
* `OnlySlot` — what is needed of a storage for `remove` to remove an address;
  `mem_getPeers_remove`.
-/

namespace Sparkz.Network

namespace BucketSettings

/-- The number read from a hash is not negative, or leaves no remainder. -/
def Unsigned (hash : List UInt8) (n : ℤ) : Prop := 0 ≤ getInt hash ∨ n ∣ getInt hash

/-- A remainder has the sign of the number. -/
theorem tmod_inRange_iff {n m : ℤ} (hm : 0 < m) :
    (0 ≤ n.tmod m ∧ n.tmod m < m) ↔ 0 ≤ n ∨ m ∣ n := by
  have hlt : n.tmod m < m := Int.tmod_lt_of_pos n hm
  rw [and_iff_left hlt]
  constructor
  · intro hnonneg
    by_contra hneither
    obtain ⟨hneg, hrest⟩ := not_or.1 hneither
    have hle : n.tmod m ≤ 0 := by
      have hpos := Int.tmod_nonneg m (by omega : 0 ≤ -n)
      rw [Int.neg_tmod] at hpos
      omega
    exact hrest (Int.dvd_of_tmod_eq_zero (le_antisymm hle hnonneg))
  · rintro (hnonneg | hdvd)
    · exact Int.tmod_nonneg m hnonneg
    · rw [Int.tmod_eq_zero_of_dvd hdvd]

variable {s : BucketSettings}

theorem getBucketPosition_inRange_iff (h : 0 < s.bucketConfig.bucketPositions) (nBucket : ℤ)
    (c : PeerBucketHashContent) :
    (0 ≤ s.getBucketPosition nBucket c
        ∧ s.getBucketPosition nBucket c < s.bucketConfig.bucketPositions)
      ↔ Unsigned (s.positionHash nBucket c) s.bucketConfig.bucketPositions :=
  tmod_inRange_iff h

end BucketSettings

namespace PeerBucketStorage

open BucketSettings (Unsigned)

variable {s : BucketSettings} {b : PeerBucketStorage}

/-! ## Coordinates in range -/

/-- A peer is found after it is put into a slot, unless this stands for a missing peer. -/
theorem contains_putAt_iff (indexes : ℤ × ℤ) (v : PeerBucketValue) (now : ℤ) :
    (b.putAt indexes v now).contains v.address = true ↔ indexes ≠ notFoundPeerIndexes := by
  have htry : (b.putAt indexes v now).tryGetIndexesFromPeerAddress v.address = indexes := by
    rw [tryGetIndexesFromPeerAddress, putAt, Lib.LinkedMap.get?_put, if_pos rfl, Option.getD_some]
  rw [PeerBucketStorage.contains, htry, bne_iff_ne]

/-- Both coordinates are in range, the slot is not the one of a missing peer, and the address
is found after each addition to any state of the storage. -/
structure LocatedAt (s : BucketSettings) (c : PeerBucketHashContent) (bucket position : ℤ) :
    Prop where
  bucketInRange : 0 ≤ bucket ∧ bucket < s.bucketConfig.buckets
  positionInRange : 0 ≤ position ∧ position < s.bucketConfig.bucketPositions
  slot : (bucket, position) ≠ notFoundPeerIndexes
  found : ∀ (ops : List Op) (v : PeerBucketValue) (now : ℤ), v.getHashContent = c →
    ∃ b', (ops.foldl (perform s) .empty).add s v now = some b' ∧ b'.contains c.address = true

/-- An address has a bucket and a position there, and both are as they should be. -/
def Located (s : BucketSettings) (c : PeerBucketHashContent) : Prop :=
  ∃ bucket, s.getBucket c = some bucket
    ∧ LocatedAt s c bucket (s.getBucketPosition bucket c)

/-- **Coordinates in range**: an address is located exactly if it has a group, and the numbers
read from its two hashes are not negative or leave no remainder. -/
theorem located_iff (s : BucketSettings) (hbuckets : 0 < s.bucketConfig.buckets)
    (hpositions : 0 < s.bucketConfig.bucketPositions) (c : PeerBucketHashContent) :
    Located s c
      ↔ ∃ hash2, s.bucketHash c = some hash2 ∧ Unsigned hash2 s.bucketConfig.buckets
        ∧ Unsigned (s.positionHash ((getInt hash2).tmod s.bucketConfig.buckets) c)
          s.bucketConfig.bucketPositions := by
  constructor
  · rintro ⟨bucket, hbucket, h⟩
    obtain ⟨hash2, hhash, rfl⟩ := Option.map_eq_some_iff.1 hbucket
    exact ⟨hash2, hhash, (BucketSettings.tmod_inRange_iff hbuckets).1 h.bucketInRange,
      (BucketSettings.getBucketPosition_inRange_iff hpositions _ c).1 h.positionInRange⟩
  · rintro ⟨hash2, hhash, hsign, hposition⟩
    have hbucket : s.getBucket c = some ((getInt hash2).tmod s.bucketConfig.buckets) := by
      rw [BucketSettings.getBucket, hhash, Option.map_some]
    have hrange := (BucketSettings.tmod_inRange_iff hbuckets).2 hsign
    set bucket := (getInt hash2).tmod s.bucketConfig.buckets
    have hslot : (bucket, s.getBucketPosition bucket c) ≠ notFoundPeerIndexes := by
      intro heq
      have hnegative : bucket = -1 := congrArg Prod.fst heq
      omega
    refine ⟨bucket, hbucket, hrange,
      (BucketSettings.getBucketPosition_inRange_iff hpositions _ c).2 hposition, hslot, ?_⟩
    rintro ops v now rfl
    have hadd : (ops.foldl (perform s) .empty).add s v now = some
        ((ops.foldl (perform s) .empty).putAt
          (bucket, s.getBucketPosition bucket v.getHashContent) v now) := by
      rw [PeerBucketStorage.add, BucketSettings.getPeerIndexes, hbucket]
      rfl
    exact ⟨_, hadd, (contains_putAt_iff _ v now).2 hslot⟩

theorem somewhere_length : [88, 0, 0, 1].length = 4 ∨ [88, 0, 0, 1].length = 16 := by decide

theorem somewhere_port : 9084 ≤ 65535 := by decide

/-- The address of a peer. -/
def somewhere : InetSocketAddress := ⟨[88, 0, 0, 1], 9084, somewhere_length, somewhere_port⟩

theorem located_iff_oneSlot : Located oneSlot (peerAt somewhere).getHashContent :=
  (located_iff oneSlot (by decide) (by decide) _).2
    ⟨[0, 0, 0, 0], by decide, .inl (by decide), .inl (by decide)⟩

/-- A hash function whose numbers are -1. -/
def minusOne : BucketSettings where
  hashing := ⟨fun _ => List.replicate 32 255, 0⟩
  bucketConfig := ⟨1024, 64, 64⟩
  isNewPeer := true

/-- With it no peer is found after it is added. -/
theorem added_not_found :
    ¬∀ (s : BucketSettings) (c : PeerBucketHashContent), 0 < s.bucketConfig.buckets →
      0 < s.bucketConfig.bucketPositions → 0 < s.bucketConfig.bucketSubgroups →
      (∀ content, (s.hashing.blake2b256 content).length = 32) → Located s c := by
  intro h
  obtain ⟨bucket, hbucket, hlocated⟩ := h minusOne (peerAt somewhere).getHashContent (by decide)
    (by decide) (by decide) fun _ => List.length_replicate
  have hnegative : minusOne.getBucket (peerAt somewhere).getHashContent = some (-1) := by decide
  obtain rfl := Option.some.inj (hnegative.symm.trans hbucket)
  exact absurd hlocated.bucketInRange.1 (by decide)

/-! ## Removal

A peer that is put into a taken slot leaves the other one with an address that leads to it, and
a peer that is added a second time, under another host string, leaves its first slot behind. -/

/-- Each slot with a value of the address is the one that the address leads to, and it is none
that stands for a missing peer. -/
def OnlySlot (b : PeerBucketStorage) (address : InetSocketAddress) : Prop :=
  ∀ indexes, b.HoldsAt indexes address →
    b.tryGetIndexesFromPeerAddress address = indexes ∧ indexes ≠ notFoundPeerIndexes

/-- What `remove` does: an address without a slot, or with the one of a missing peer, stays. -/
theorem remove_cases (address : InetSocketAddress) :
    (b.remove address = b ∧ b.tryGetIndexesFromPeerAddress address = notFoundPeerIndexes)
    ∨ ∃ indexes, b.tryGetIndexesFromPeerAddress address = indexes
      ∧ indexes ≠ notFoundPeerIndexes
      ∧ b.remove address = ⟨b.table.remove indexes, b.reverseTable.remove address⟩ := by
  by_cases hslot : b.tryGetIndexesFromPeerAddress address = notFoundPeerIndexes
  · exact .inl ⟨by simp [PeerBucketStorage.remove, hslot], hslot⟩
  · exact .inr ⟨_, rfl, hslot, by simp [PeerBucketStorage.remove, hslot]⟩

/-- A peer is stored after its removal exactly if it had another slot than the removed one. -/
theorem mem_getPeers_remove (b : PeerBucketStorage) (address : InetSocketAddress) :
    address ∈ (b.remove address).getPeers.keys ↔ ¬b.OnlySlot address := by
  rw [mem_keys_getPeers, OnlySlot, not_forall]
  refine exists_congr fun indexes => ?_
  obtain ⟨hsame, hslot⟩ | ⟨indexes', hslot, hne, hremove⟩ := remove_cases (b := b) address
  · rw [hsame, hslot]
    simp [eq_comm]
  · rw [hremove, holdsAt_remove, hslot]
    constructor
    · rintro ⟨hother, hholds⟩ hall
      exact hother (hall hholds).1.symm
    · intro hnot
      obtain ⟨hholds, hneither⟩ := Classical.not_imp.1 hnot
      refine ⟨?_, hholds⟩
      rintro rfl
      exact hneither ⟨rfl, hne⟩

/-- No removed address is found. -/
theorem contains_remove_self (b : PeerBucketStorage) (address : InetSocketAddress) :
    (b.remove address).contains address = false := by
  obtain ⟨hsame, hslot⟩ | ⟨indexes, -, -, hremove⟩ := remove_cases (b := b) address
  · rw [hsame, PeerBucketStorage.contains, hslot, bne_self_eq_false]
  · rw [hremove, PeerBucketStorage.contains, tryGetIndexesFromPeerAddress,
      Lib.LinkedMap.get?_remove, if_pos rfl]
    rfl

end PeerBucketStorage

end Sparkz.Network
