import Sparkz.Network.BucketCoordinates

/-!
# Backup and restore of a bucket

The model of `PeerBucketBackupper`: the values of a storage are persisted as a sequence
and added to an empty storage at the next start, when another key is drawn.

* `Traversal` — an order in which the table of a storage is gone through: `getPeers` and
  `getPeersAsBucketValue` depend on it, where an address has several slots.
* `restore` — what is done with the persisted values; `Restores` — the restored storage has the
  same peers and finds them.
* `restores_iff` — it does exactly if each value that keeps its new slot is the last one of its
  address, or the same, and the last ones keep theirs.
-/

namespace Sparkz.Network

open Sparkz.Lib

/-- The parameters of a storage with another key. -/
def BucketSettings.withKey (s : BucketSettings) (nKey : ℤ) : BucketSettings :=
  { s with hashing := { s.hashing with nKey := nKey } }

/-- `==` of values: the host strings are not compared. -/
def PeerDatabaseValue.Same (v w : PeerDatabaseValue) : Prop :=
  v.address = w.address ∧ v.peerInfo.equals w.peerInfo ∧ v.confidence = w.confidence

theorem PeerDatabaseValue.Same.symm {v w : PeerDatabaseValue} (h : v.Same w) : w.Same v :=
  ⟨h.1.symm, (PeerInfo.equals_comm ..).trans h.2.1, h.2.2.symm⟩

namespace PeerBucketStorage

/-! ## Persisted values -/

/-- An order in which the table is gone through, with the values in this order:
`getPeersAsBucketValue`. -/
structure Traversal (b : PeerBucketStorage) where
  values : List PeerBucketValue
  perm : values.Perm (b.table.entries.map fun e => e.2.1)

namespace Traversal

variable {b : PeerBucketStorage}

/-- The order in which the slots were first taken. -/
def inserted (b : PeerBucketStorage) : Traversal b := ⟨_, .refl _⟩

/-- `getPeers`, in this order: the last value of an address stays. -/
def getPeers (t : Traversal b) : LinkedMap InetSocketAddress PeerDatabaseValue :=
  LinkedMap.empty.putAll (t.values.map fun v => (v.address, v.peerDatabaseValue))

theorem mem_values {t : Traversal b} {v : PeerBucketValue} :
    v ∈ t.values ↔ ∃ indexes time, b.table.get? indexes = some (v, time) := by
  rw [t.perm.mem_iff, List.mem_map]
  constructor
  · rintro ⟨⟨indexes, w, time⟩, he, rfl⟩
    exact ⟨indexes, time, LinkedMap.get?_of_mem_entries he⟩
  · rintro ⟨indexes, time, hget⟩
    exact ⟨(indexes, v, time), LinkedMap.mem_entries_of_get? hget, rfl⟩

/-- The last value of an address is the peer. -/
theorem get?_getPeers_last {t : Traversal b} {pre post : List PeerBucketValue}
    {v : PeerBucketValue} (hvalues : t.values = pre ++ v :: post)
    (hlast : ∀ w ∈ post, w.address ≠ v.address) :
    t.getPeers.get? v.address = some v.peerDatabaseValue := by
  rw [getPeers, hvalues, List.map_append, List.map_cons]
  refine LinkedMap.get?_putAll_last _ _ fun e he => ?_
  obtain ⟨w, hw, rfl⟩ := List.mem_map.1 he
  exact hlast w hw

/-- Every peer is the last value of its address. -/
theorem exists_last {t : Traversal b} {address : InetSocketAddress} {p : PeerDatabaseValue}
    (h : t.getPeers.get? address = some p) :
    ∃ pre v post, t.values = pre ++ v :: post ∧ v.address = address
      ∧ (∀ w ∈ post, w.address ≠ address) ∧ v.peerDatabaseValue = p := by
  have hsome : ∃ v ∈ t.values, v.address = address := by
    by_contra hnot
    have hnone : t.getPeers.get? address = none := by
      refine LinkedMap.get?_putAll_of_not_mem fun e he heq => ?_
      obtain ⟨v, hv, rfl⟩ := List.mem_map.1 he
      exact hnot ⟨v, hv, heq⟩
    rw [hnone] at h
    cases h
  obtain ⟨pre, v, post, hvalues, rfl, hlast⟩ := LinkedMap.exists_last hsome
  refine ⟨pre, v, post, hvalues, rfl, hlast, ?_⟩
  rw [get?_getPeers_last hvalues hlast] at h
  exact Option.some.inj h

/-- The address of every value has a peer. -/
theorem exists_peer (t : Traversal b) {v : PeerBucketValue} (hv : v ∈ t.values) :
    ∃ p, t.getPeers.get? v.address = some p := by
  obtain ⟨pre, w, post, hvalues, heq, hlast⟩ :=
    LinkedMap.exists_last (p := fun w : PeerBucketValue => w.address = v.address) ⟨v, hv, rfl⟩
  refine ⟨w.peerDatabaseValue, ?_⟩
  rw [← heq] at hlast ⊢
  exact get?_getPeers_last hvalues hlast

end Traversal

/-! ## Restored values -/

/-- `restore()`, with the time at which each peer is added, where no addition throws. -/
def restore (s : BucketSettings) (b : PeerBucketStorage) (peersList : List PeerBucketValue)
    (time : PeerBucketValue → ℤ) : Option PeerBucketStorage :=
  peersList.foldlM (fun b v => b.add s v (time v)) b

variable {s : BucketSettings} {b : PeerBucketStorage}

/-- The restored storage has the same peers as the first one, in whatever order its table is
gone through, and finds each of them. -/
structure Restores (t : Traversal b) (b' : PeerBucketStorage) : Prop where
  peers : ∀ t' : Traversal b', ∀ address,
    Option.Rel PeerDatabaseValue.Same (t'.getPeers.get? address) (t.getPeers.get? address)
  found : ∀ t' : Traversal b', ∀ address v, t'.getPeers.get? address = some v →
    ∃ w, b'.getStoredPeerByAddress address = some (some w) ∧ w.peerDatabaseValue.Same v

/-- The slot of a value. -/
def slotOf (s : BucketSettings) (v : PeerBucketValue) : Option (ℤ × ℤ) :=
  s.getPeerIndexes v.getHashContent

/-- All values have slots.  The last one of each address has a slot of a peer, which no later
value takes; a value whose slot no later one takes is the same as the last of its address. -/
structure OwnSlots (s : BucketSettings) (t : Traversal b) : Prop where
  slots : ∀ v ∈ t.values, (slotOf s v).isSome = true
  last : ∀ pre v post, t.values = pre ++ v :: post → (∀ w ∈ post, w.address ≠ v.address) →
    slotOf s v ≠ some notFoundPeerIndexes ∧ ∀ w ∈ post, slotOf s w ≠ slotOf s v
  stays : ∀ pre v post, t.values = pre ++ v :: post → (∀ w ∈ post, slotOf s w ≠ slotOf s v) →
    ∃ w, t.getPeers.get? v.address = some w ∧ v.peerDatabaseValue.Same w

/-- The storage with the values put into their slots, one after the other. -/
def putEach (s : BucketSettings) (b : PeerBucketStorage) (values : List PeerBucketValue)
    (time : PeerBucketValue → ℤ) : PeerBucketStorage where
  table := b.table.putAll
    (values.map fun v => ((slotOf s v).getD notFoundPeerIndexes, v, time v))
  reverseTable := b.reverseTable.putAll
    (values.map fun v => (v.address, (slotOf s v).getD notFoundPeerIndexes))

theorem restore_eq_some_iff {values : List PeerBucketValue} {time : PeerBucketValue → ℤ}
    {b' : PeerBucketStorage} :
    restore s b values time = some b'
      ↔ (∀ v ∈ values, (slotOf s v).isSome = true) ∧ putEach s b values time = b' := by
  induction values generalizing b with
  | nil => simp [restore, putEach, LinkedMap.putAll]
  | cons v values ih =>
    have hstep : restore s b (v :: values) time
        = (slotOf s v).bind fun indexes => restore s (b.putAt indexes v (time v)) values time := by
      rw [restore, List.foldlM_cons, PeerBucketStorage.add, slotOf]
      cases s.getPeerIndexes v.getHashContent <;> rfl
    rw [hstep]
    cases hslot : slotOf s v with
    | none =>
      refine iff_of_false (fun h => by cases h) fun h => ?_
      have hsome := h.1 v List.mem_cons_self
      rw [hslot] at hsome
      cases hsome
    | some indexes =>
      rw [Option.bind_some, ih]
      have hput : putEach s (b.putAt indexes v (time v)) values time
          = putEach s b (v :: values) time := by
        simp [putEach, putAt, LinkedMap.putAll, hslot]
      rw [hput, List.forall_mem_cons, hslot]
      simp

/-- A value whose slot no later one takes is stored there. -/
theorem get?_table_putEach (b : PeerBucketStorage) (pre : List PeerBucketValue)
    {post : List PeerBucketValue} {v : PeerBucketValue} {indexes : ℤ × ℤ}
    (time : PeerBucketValue → ℤ) (hslot : slotOf s v = some indexes)
    (hslots : ∀ w ∈ post, (slotOf s w).isSome = true)
    (hstays : ∀ w ∈ post, slotOf s w ≠ slotOf s v) :
    (putEach s b (pre ++ v :: post) time).table.get? indexes = some (v, time v) := by
  rw [putEach, List.map_append, List.map_cons, hslot, Option.getD_some]
  refine LinkedMap.get?_putAll_last _ _ fun e he heq => ?_
  obtain ⟨w, hw, rfl⟩ := List.mem_map.1 he
  obtain ⟨indexes', hw'⟩ := Option.isSome_iff_exists.1 (hslots w hw)
  rw [hw', Option.getD_some] at heq
  exact hstays w hw (hw'.trans (hslot ▸ congrArg some heq))

/-- The last value of an address leads to its slot. -/
theorem get?_reverseTable_putEach {pre post : List PeerBucketValue} {v : PeerBucketValue}
    {indexes : ℤ × ℤ} (time : PeerBucketValue → ℤ) (hslot : slotOf s v = some indexes)
    (hlast : ∀ w ∈ post, w.address ≠ v.address) :
    (putEach s b (pre ++ v :: post) time).reverseTable.get? v.address = some indexes := by
  simp only [putEach, List.map_append, List.map_cons, hslot, Option.getD_some]
  refine LinkedMap.get?_putAll_last b.reverseTable _ fun e he => ?_
  obtain ⟨w, hw, rfl⟩ := List.mem_map.1 he
  exact hlast w hw

/-- What is stored is the last value of its slot. -/
theorem of_get?_table_putEach {values : List PeerBucketValue} {time : PeerBucketValue → ℤ}
    {indexes : ℤ × ℤ} {v : PeerBucketValue} {t : ℤ}
    (hslots : ∀ w ∈ values, (slotOf s w).isSome = true)
    (hget : (putEach s empty values time).table.get? indexes = some (v, t)) :
    ∃ pre post, values = pre ++ v :: post ∧ slotOf s v = some indexes
      ∧ ∀ w ∈ post, slotOf s w ≠ slotOf s v := by
  have hsome : ∃ w ∈ values, slotOf s w = some indexes := by
    by_contra hnot
    have hnone : (putEach s empty values time).table.get? indexes = none := by
      refine LinkedMap.get?_putAll_of_not_mem fun e he heq => ?_
      obtain ⟨w, hw, rfl⟩ := List.mem_map.1 he
      obtain ⟨indexes', hw'⟩ := Option.isSome_iff_exists.1 (hslots w hw)
      rw [hw', Option.getD_some] at heq
      exact hnot ⟨w, hw, heq ▸ hw'⟩
    rw [hnone] at hget
    cases hget
  obtain ⟨pre, w, post, rfl, hslot, hpost⟩ := LinkedMap.exists_last hsome
  have hstays : ∀ u ∈ post, slotOf s u ≠ slotOf s w := by rwa [hslot]
  have hstored := get?_table_putEach empty pre time hslot
    (fun u hu => hslots u (List.mem_append_right _ (List.mem_cons_of_mem _ hu))) hstays
  rw [hstored] at hget
  obtain ⟨rfl, -⟩ := Prod.mk.inj (Option.some.inj hget)
  exact ⟨pre, post, rfl, hslot, hstays⟩

/-! ## When the peers are restored -/

variable {t : Traversal b} {time : PeerBucketValue → ℤ}

/-- What follows a value that no later value is like follows every value that is like it. -/
theorem subset_of_last {pre post pre' post' : List PeerBucketValue} {v w : PeerBucketValue}
    (heq : pre ++ v :: post = pre' ++ w :: post') (hnot : w ∉ post) : post ⊆ post' := by
  obtain ⟨mid, -, hmid⟩ | ⟨mid, -, hmid⟩ := List.append_eq_append_iff.1 heq
  · cases mid with
    | nil => exact (List.cons.inj hmid).2 ▸ fun _ h => h
    | cons u mid =>
      have hmem : w ∈ post := (List.cons.inj hmid).2 ▸ List.mem_append_right _ List.mem_cons_self
      exact absurd hmem hnot
  · cases mid with
    | nil => exact (List.cons.inj hmid).2 ▸ fun _ h => h
    | cons u mid =>
      rw [(List.cons.inj hmid).2]
      exact fun _ h => List.mem_append_right _ (List.mem_cons_of_mem _ h)

/-- A later value is among the values. -/
theorem mem_of_mem_post {values pre post : List PeerBucketValue} {v w : PeerBucketValue}
    (hvalues : values = pre ++ v :: post) (hw : w ∈ post) : w ∈ values :=
  hvalues ▸ List.mem_append_right _ (List.mem_cons_of_mem _ hw)

theorem OwnSlots.restores (h : OwnSlots s t) : Restores t (putEach s empty t.values time) := by
  -- the last value of an address is stored, and found
  have hlast : ∀ pre v post, t.values = pre ++ v :: post →
      (∀ w ∈ post, w.address ≠ v.address) →
      ∃ indexes, indexes ≠ notFoundPeerIndexes
        ∧ (putEach s empty t.values time).reverseTable.get? v.address = some indexes
        ∧ (putEach s empty t.values time).table.get? indexes = some (v, time v) := by
    intro pre v post hvalues hpost
    obtain ⟨hslot, hstays⟩ := h.last pre v post hvalues hpost
    have hv : v ∈ t.values := hvalues ▸ List.mem_append_right _ List.mem_cons_self
    obtain ⟨indexes, hindexes⟩ := Option.isSome_iff_exists.1 (h.slots v hv)
    refine ⟨indexes, fun heq => hslot (heq ▸ hindexes), ?_, ?_⟩
    · rw [hvalues]
      exact get?_reverseTable_putEach time hindexes hpost
    · rw [hvalues]
      exact get?_table_putEach empty pre time hindexes
        (fun w hw => h.slots w (mem_of_mem_post hvalues hw)) hstays
  -- what is stored of an address is the same as its peer
  have hsame : ∀ t' : Traversal (putEach s empty t.values time), ∀ address p,
      t'.getPeers.get? address = some p →
      ∃ q, t.getPeers.get? address = some q ∧ p.Same q := by
    intro t' address p hp
    obtain ⟨pre, v, post, hvalues, rfl, -, rfl⟩ := t'.exists_last hp
    have hv : v ∈ t'.values := hvalues ▸ List.mem_append_right _ List.mem_cons_self
    obtain ⟨indexes, u, hget⟩ := Traversal.mem_values.1 hv
    obtain ⟨pre', post', hvalues', -, hstays⟩ := of_get?_table_putEach h.slots hget
    exact h.stays pre' v post' hvalues' hstays
  constructor
  · intro t' address
    cases hp : t'.getPeers.get? address with
    | some p =>
      obtain ⟨q, hq, hpq⟩ := hsame t' address p hp
      rw [hq]
      exact .some hpq
    | none =>
      cases hq : t.getPeers.get? address with
      | none => exact .none
      | some q =>
        obtain ⟨pre, v, post, hvalues, rfl, hpost, -⟩ := t.exists_last hq
        obtain ⟨indexes, -, -, hget⟩ := hlast pre v post hvalues hpost
        have hv : v ∈ t'.values := Traversal.mem_values.2 ⟨indexes, time v, hget⟩
        obtain ⟨p, hp'⟩ := t'.exists_peer hv
        rw [hp] at hp'
        cases hp'
  · intro t' address p hp
    obtain ⟨q, hq, hpq⟩ := hsame t' address p hp
    obtain ⟨pre, v, post, hvalues, rfl, hpost, rfl⟩ := t.exists_last hq
    obtain ⟨indexes, hne, hreverse, hget⟩ := hlast pre v post hvalues hpost
    refine ⟨v, ?_, hpq.symm⟩
    simp only [getStoredPeerByAddress, tryGetIndexesFromPeerAddress, hreverse, Option.getD_some,
      if_pos hne, hget, Option.map_some]

theorem Restores.ownSlots (hslots : ∀ v ∈ t.values, (slotOf s v).isSome = true)
    (h : Restores t (putEach s empty t.values time)) : OwnSlots s t := by
  set b' := putEach s empty t.values time with hb'
  have hmem : ∀ pre v post, t.values = pre ++ v :: post → v ∈ t.values :=
    fun pre v post hvalues => hvalues ▸ List.mem_append_right _ List.mem_cons_self
  refine ⟨hslots, fun pre v post hvalues hpost => ?_, fun pre v post hvalues hstays => ?_⟩
  · -- the peer of the address is found in the slot of its last value
    obtain ⟨indexes, hindexes⟩ := Option.isSome_iff_exists.1 (hslots v (hmem pre v post hvalues))
    have hreverse : b'.reverseTable.get? v.address = some indexes := by
      rw [hb', hvalues]
      exact get?_reverseTable_putEach time hindexes hpost
    have hpeer := h.peers (Traversal.inserted b') v.address
    rw [t.get?_getPeers_last hvalues hpost] at hpeer
    cases hp : (Traversal.inserted b').getPeers.get? v.address with
    | none =>
      rw [hp] at hpeer
      cases hpeer
    | some p =>
      obtain ⟨w, hw, hwp⟩ := h.found _ _ _ hp
      rw [hp] at hpeer
      obtain ⟨haddress, -, -⟩ : p.Same v.peerDatabaseValue := by
        cases hpeer with
        | some hsame => exact hsame
      simp only [getStoredPeerByAddress, tryGetIndexesFromPeerAddress, hreverse,
        Option.getD_some] at hw
      split at hw
      · rename_i hne
        obtain ⟨⟨w', time'⟩, hget, heq⟩ := Option.map_eq_some_iff.1 hw
        obtain rfl := Option.some.inj heq
        obtain ⟨pre', post', hvalues', hslot, hstays⟩ := of_get?_table_putEach hslots hget
        have hnot : w' ∉ post := fun hpost' => hpost w' hpost' (hwp.1.trans haddress)
        refine ⟨fun hslot' => hne (Option.some.inj (hindexes.symm.trans hslot')), fun u hu => ?_⟩
        rw [hindexes, ← hslot]
        exact hstays u (subset_of_last (hvalues.symm.trans hvalues') hnot hu)
      · cases hw
  · -- in some order the value is the last one of its address
    obtain ⟨indexes, hindexes⟩ := Option.isSome_iff_exists.1 (hslots v (hmem pre v post hvalues))
    have hget : b'.table.get? indexes = some (v, time v) := by
      rw [hb', hvalues]
      exact get?_table_putEach empty pre time hindexes
        (fun w hw => hslots w (mem_of_mem_post hvalues hw)) hstays
    have hv : v ∈ (Traversal.inserted b').values := Traversal.mem_values.2 ⟨indexes, time v, hget⟩
    obtain ⟨others, rest, hothers⟩ := List.append_of_mem hv
    let t' : Traversal b' := ⟨others ++ rest ++ [v], by
      refine .trans ?_ (Traversal.inserted b').perm
      rw [hothers, List.append_assoc]
      exact (List.perm_append_singleton v rest).append_left others⟩
    have hpeer := h.peers t' v.address
    have hlast : t'.values = (others ++ rest) ++ v :: [] := rfl
    rw [t'.get?_getPeers_last hlast fun w hw => absurd hw List.not_mem_nil] at hpeer
    cases hq : t.getPeers.get? v.address with
    | none =>
      rw [hq] at hpeer
      cases hpeer
    | some q =>
      rw [hq] at hpeer
      cases hpeer with
      | some hsame => exact ⟨q, rfl, hsame⟩

/-- **Backup and restore**: the values of a storage, persisted in any order, are restored under
another key exactly if the last value of each address keeps its new slot, which is none of a
missing peer, and every other value that keeps its slot is the same. -/
theorem restores_iff (s : BucketSettings) (nKey : ℤ) {b : PeerBucketStorage} (t : Traversal b)
    (time : PeerBucketValue → ℤ) :
    (∃ b', restore (s.withKey nKey) empty t.values time = some b' ∧ Restores t b')
      ↔ OwnSlots (s.withKey nKey) t := by
  constructor
  · rintro ⟨b', hrestore, h⟩
    obtain ⟨hslots, rfl⟩ := restore_eq_some_iff.1 hrestore
    exact h.ownSlots hslots
  · intro h
    exact ⟨_, restore_eq_some_iff.2 ⟨h.slots, rfl⟩, h.restores⟩

/-! ### Two peers in one slot of the new key -/

/-- A hash function whose numbers are the last byte of what it hashes, or zero under the
key 1. -/
def lastByte : BucketSettings where
  hashing := ⟨fun content => if content.take 4 = [0, 0, 0, 1] then List.replicate 32 0
    else 0 :: 0 :: 0 :: content.getLastD 0 :: List.replicate 28 0, 0⟩
  bucketConfig := ⟨1024, 64, 64⟩
  isNewPeer := true

theorem elsewhere_port : 9085 ≤ 65535 := by decide

/-- The address of another peer. -/
def elsewhere : InetSocketAddress := ⟨[88, 0, 0, 1], 9085, somewhere_length, elsewhere_port⟩

/-- Two peers are added. -/
def twoPeers : List Op := [.add (peerAt somewhere) 0, .add (peerAt elsewhere) 0]

/-- Under the new key the second peer takes the slot of the first one, which is lost. -/
theorem not_restores :
    ¬∀ (s : BucketSettings) (nKey : ℤ) (ops : List Op),
      ∃ b', restore (s.withKey nKey) empty
          (Traversal.inserted (ops.foldl (perform s) empty)).values (fun _ => 0) = some b'
        ∧ Restores (Traversal.inserted (ops.foldl (perform s) empty)) b' := by
  intro h
  obtain ⟨b', hrestore, hrestores⟩ := h lastByte 1 twoPeers
  have hlost : (restore (lastByte.withKey 1) empty
      (Traversal.inserted (twoPeers.foldl (perform lastByte) empty)).values fun _ => 0).map
        (fun b => (Traversal.inserted b).getPeers.get? somewhere) = some none := by decide
  have hkept : (Traversal.inserted (twoPeers.foldl (perform lastByte) empty)).getPeers.get?
      somewhere = some (peerAt somewhere).peerDatabaseValue := by decide
  rw [hrestore, Option.map_some] at hlost
  have hpeer := hrestores.peers (Traversal.inserted b') somewhere
  rw [Option.some.inj hlost, hkept] at hpeer
  cases hpeer

end PeerBucketStorage

end Sparkz.Network
