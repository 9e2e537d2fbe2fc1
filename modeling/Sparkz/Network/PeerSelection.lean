import Sparkz.Network.PeerBucketStorage

/-!
# The choice of a peer to connect to

The model of `RandomPeerForConnectionExcluding`: of the peers that are neither excluded
nor blacklisted, a random one of the best confidence.

* `goodCandidateFilter`, `groupBy`, `choose` — the choice.  The random number generator
  and the order in which the map of the groups is traversed are parameters.
* `pool`, `choose_eq` — the sequence from which a choice is made, and the bound of the
  index into it.
* `ChoosesAll` — a choice is made among all and only the preferred candidates.
* `choosesAll_iff` — where it is: in the last tier the index is below the number of
  groups, so only as many candidates as there are groups can be chosen.
-/

namespace Sparkz.Network

open Sparkz.Lib

/-- `goodCandidateFilter(excludedPeers, blacklistedPeers, p)`: is `p` no candidate? -/
def goodCandidateFilter (excludedPeers : List (Option InetSocketAddress))
    (blacklistedPeers : List (List UInt8)) (p : PeerDatabaseValue) : Bool :=
  excludedPeers.contains p.peerInfo.peerSpec.address || blacklistedPeers.contains p.address.address

/-- The order in which a map with confidences as its keys is traversed. -/
structure GroupOrder where
  confidences : List PeerConfidence
  nodup : confidences.Nodup
  complete : ∀ c, c ∈ confidences

/-- The groups of a `Map[PeerConfidence, Seq[PeerDatabaseValue]]`. -/
abbrev Groups := List (PeerConfidence × List PeerDatabaseValue)

/-- `groupBy(_.confidence)`. -/
def groupBy (order : GroupOrder) (peers : List PeerDatabaseValue) : Groups :=
  (order.confidences.map fun c => (c, peers.filter fun p => p.confidence = c)).filter
    fun g => !g.2.isEmpty

/-- `getOrElse(confidence, Seq())`. -/
def Groups.getOrElse (groups : Groups) (confidence : PeerConfidence) : List PeerDatabaseValue :=
  ((groups.find? fun g => g.1 = confidence).map Prod.snd).getD []

/-- `values.flatten.toSeq`. -/
def Groups.flatten (groups : Groups) : List PeerDatabaseValue := groups.flatMap Prod.snd

/-- What `nextInt` of a `SecureRandom` returns for each bound. -/
structure SecureRandom where
  nextInt : ℕ → ℕ
  nextInt_lt : ∀ n, 0 < n → nextInt n < n

/-- `Some(seq(secureRandom.nextInt(n)).peerInfo)`: it throws outside the sequence. -/
def SecureRandom.pick (random : SecureRandom) (seq : List PeerDatabaseValue) (n : ℕ) :
    Option (Option PeerInfo) :=
  seq[random.nextInt n]?.map fun p => some p.peerInfo

/-- `RandomPeerForConnectionExcluding(excludedPeers, onlyKnownPeers)`. -/
structure RandomPeerForConnectionExcluding where
  excludedPeers : List (Option InetSocketAddress)
  onlyKnownPeers : Bool

namespace RandomPeerForConnectionExcluding

variable (r : RandomPeerForConnectionExcluding)
  (peers : LinkedMap InetSocketAddress PeerDatabaseValue) (blacklistedPeers : List (List UInt8))
  (order : GroupOrder)

/-- The peers that are neither excluded nor blacklisted. -/
def remaining : List PeerDatabaseValue :=
  (peers.entries.map Prod.snd).filter fun p =>
    !goodCandidateFilter r.excludedPeers blacklistedPeers p

/-- `choose(peers, blacklistedPeers, sparkzContext)`. -/
def choose (random : SecureRandom) : Option (Option PeerInfo) :=
  let candidates := groupBy order (r.remaining peers blacklistedPeers)
  let knownPeersCandidates := candidates.getOrElse .high
  let forgerCandidates := candidates.getOrElse .forger
  if r.onlyKnownPeers then
    if knownPeersCandidates ≠ [] then
      random.pick knownPeersCandidates knownPeersCandidates.length
    else some none
  else
    if forgerCandidates ≠ [] then random.pick forgerCandidates forgerCandidates.length
    else if knownPeersCandidates ≠ [] then
      random.pick knownPeersCandidates knownPeersCandidates.length
    else if candidates ≠ [] then random.pick candidates.flatten candidates.length
    else some none

/-! ## The candidates -/

/-- The remaining peers of a confidence. -/
def ofConfidence (c : PeerConfidence) : List PeerDatabaseValue :=
  (r.remaining peers blacklistedPeers).filter fun p => p.confidence = c

/-- The preferred candidates: the known peers where no others are wanted, else the forgers,
else the known peers, else all that remain. -/
def preferred : List PeerDatabaseValue :=
  if r.onlyKnownPeers then r.ofConfidence peers blacklistedPeers .high
  else if r.ofConfidence peers blacklistedPeers .forger ≠ [] then
    r.ofConfidence peers blacklistedPeers .forger
  else if r.ofConfidence peers blacklistedPeers .high ≠ [] then
    r.ofConfidence peers blacklistedPeers .high
  else r.remaining peers blacklistedPeers

/-- The choice is made among all and only the preferred candidates. -/
structure ChoosesAll : Prop where
  only : ∀ random info, r.choose peers blacklistedPeers order random = some (some info) →
    ∃ address p, peers.get? address = some p ∧ p.peerInfo = info
      ∧ info.peerSpec.address ∉ r.excludedPeers ∧ p.address.address ∉ blacklistedPeers
      ∧ p ∈ r.preferred peers blacklistedPeers
  none_iff : ∀ random, r.choose peers blacklistedPeers order random = some none
    ↔ r.preferred peers blacklistedPeers = []
  all : ∀ p ∈ r.preferred peers blacklistedPeers,
    ∃ random, r.choose peers blacklistedPeers order random = some (some p.peerInfo)

/-- The last tier: no peer of a high confidence or of a forger remains. -/
def LastTier : Prop :=
  r.onlyKnownPeers = false ∧ ∀ p ∈ r.remaining peers blacklistedPeers,
    p.confidence ≠ .forger ∧ p.confidence ≠ .high

/-- In the last tier, the first candidates of the groups, as many as there are groups, have
the infos of all of them. -/
def InReach : Prop :=
  r.LastTier peers blacklistedPeers → ∀ p ∈ r.remaining peers blacklistedPeers,
    p.peerInfo ∈ ((groupBy order (r.remaining peers blacklistedPeers)).flatten.take
      (groupBy order (r.remaining peers blacklistedPeers)).length).map fun p => p.peerInfo

end RandomPeerForConnectionExcluding

/-! ## Groups -/

section Groups

variable {order : GroupOrder} {peers : List PeerDatabaseValue}

theorem mem_groupBy {g : PeerConfidence × List PeerDatabaseValue} :
    g ∈ groupBy order peers
      ↔ g.2 = peers.filter (fun p => p.confidence = g.1) ∧ g.2 ≠ [] := by
  obtain ⟨c, group⟩ := g
  simp only [groupBy, List.mem_filter, List.mem_map, Prod.mk.injEq, Bool.not_eq_true',
    List.isEmpty_eq_false_iff]
  constructor
  · rintro ⟨⟨c', _, rfl, rfl⟩, hne⟩
    exact ⟨rfl, hne⟩
  · rintro ⟨hgroup, hne⟩
    exact ⟨⟨c, order.complete c, rfl, hgroup.symm⟩, hne⟩

theorem getOrElse_groupBy (c : PeerConfidence) :
    (groupBy order peers).getOrElse c = peers.filter fun p => p.confidence = c := by
  rw [Groups.getOrElse]
  cases hfind : (groupBy order peers).find? fun g => g.1 = c with
  | none =>
    rw [List.find?_eq_none] at hfind
    by_contra hne
    exact hfind (c, peers.filter fun p => p.confidence = c)
      (mem_groupBy.2 ⟨rfl, fun h => hne h.symm⟩) (by simp)
  | some g =>
    have hc : g.1 = c := by simpa using List.find?_some hfind
    rw [Option.map_some, Option.getD_some, ← hc]
    exact (mem_groupBy.1 (List.mem_of_find?_eq_some hfind)).1

theorem mem_flatten_groupBy {p : PeerDatabaseValue} :
    p ∈ (groupBy order peers).flatten ↔ p ∈ peers := by
  rw [Groups.flatten, List.mem_flatMap]
  constructor
  · rintro ⟨g, hg, hp⟩
    rw [(mem_groupBy.1 hg).1] at hp
    exact (List.mem_filter.1 hp).1
  · intro hp
    have hmem : p ∈ peers.filter fun q => q.confidence = p.confidence := by simp [hp]
    exact ⟨(p.confidence, _), mem_groupBy.2 ⟨rfl, List.ne_nil_of_mem hmem⟩, hmem⟩

/-- There are no more groups than candidates. -/
theorem length_groupBy_le (order : GroupOrder) (peers : List PeerDatabaseValue) :
    (groupBy order peers).length ≤ (groupBy order peers).flatten.length := by
  have hne : ∀ g ∈ groupBy order peers, g.2 ≠ [] := fun g hg => (mem_groupBy.1 hg).2
  generalize groupBy order peers = groups at hne
  induction groups with
  | nil => exact le_refl _
  | cons g groups ih =>
    have hpos := List.length_pos_iff.2 (hne g List.mem_cons_self)
    have hrest := ih fun g' hg' => hne g' (List.mem_cons_of_mem _ hg')
    rw [Groups.flatten] at hrest ⊢
    rw [List.flatMap_cons, List.length_append, List.length_cons]
    omega

/-- The groups have each candidate once. -/
theorem flatten_groupBy_perm (h : peers.Nodup) : (groupBy order peers).flatten.Perm peers := by
  refine (List.perm_ext_iff_of_nodup ?_ h).2 fun p => mem_flatten_groupBy
  refine List.nodup_flatMap.2 ⟨fun g hg => ?_, ?_⟩
  · rw [(mem_groupBy.1 hg).1]
    exact h.filter _
  · refine List.Pairwise.sublist List.filter_sublist (List.pairwise_map.2 ?_)
    refine order.nodup.imp ?_
    intro c c' hne p hp hp'
    have hc : p.confidence = c := by simpa using (List.mem_filter.1 hp).2
    have hc' : p.confidence = c' := by simpa using (List.mem_filter.1 hp').2
    exact hne (hc.symm.trans hc')

theorem groupBy_eq_nil : groupBy order peers = [] ↔ peers = [] := by
  constructor
  · intro h
    refine List.eq_nil_iff_forall_not_mem.2 ?_
    intro p hp
    have hmem : p ∈ (groupBy order peers).flatten := mem_flatten_groupBy.2 hp
    rw [h] at hmem
    cases hmem
  · rintro rfl
    refine List.eq_nil_iff_forall_not_mem.2 ?_
    intro g hg
    exact (mem_groupBy.1 hg).2 (mem_groupBy.1 hg).1

end Groups

/-! ## Choosing from a sequence -/

namespace SecureRandom

variable {seq : List PeerDatabaseValue} {n : ℕ}

/-- A pick returns one of the first `n`. -/
theorem pick_mem (random : SecureRandom) (hpos : 0 < n) (hle : n ≤ seq.length) :
    ∃ p ∈ seq.take n, random.pick seq n = some (some p.peerInfo) := by
  have hlt := random.nextInt_lt n hpos
  have hseq : random.nextInt n < seq.length := hlt.trans_le hle
  refine ⟨seq[random.nextInt n], ?_, ?_⟩
  · have htake : random.nextInt n < (seq.take n).length := by
      rw [List.length_take]
      omega
    have heq : (seq.take n)[random.nextInt n] = seq[random.nextInt n] := List.getElem_take
    rw [← heq]
    exact List.getElem_mem htake
  · rw [pick, List.getElem?_eq_getElem hseq, Option.map_some]

/-- Each of the first `n` is picked by some generator. -/
theorem exists_pick {p : PeerDatabaseValue} (hp : p ∈ seq.take n) :
    ∃ random : SecureRandom, random.pick seq n = some (some p.peerInfo) := by
  obtain ⟨i, hi, rfl⟩ := List.getElem_of_mem hp
  rw [List.length_take] at hi
  refine ⟨⟨fun m => if m = n then i else 0, fun m hm => ?_⟩, ?_⟩
  · split <;> omega
  · have hseq : i < seq.length := by omega
    simp [pick, List.getElem?_eq_getElem hseq, List.getElem_take]

end SecureRandom

/-! ## What is chosen -/

namespace RandomPeerForConnectionExcluding

variable {r : RandomPeerForConnectionExcluding}
  {peers : LinkedMap InetSocketAddress PeerDatabaseValue} {blacklistedPeers : List (List UInt8)}
  {order : GroupOrder}

theorem mem_remaining {p : PeerDatabaseValue} :
    p ∈ r.remaining peers blacklistedPeers ↔ (∃ address, peers.get? address = some p)
      ∧ p.peerInfo.peerSpec.address ∉ r.excludedPeers ∧ p.address.address ∉ blacklistedPeers := by
  simp only [remaining, List.mem_filter, List.mem_map, goodCandidateFilter, Bool.not_or,
    Bool.and_eq_true, Bool.not_eq_true', List.contains_eq_mem, decide_eq_false_iff_not]
  refine and_congr_left fun _ => ?_
  constructor
  · rintro ⟨e, he, rfl⟩
    exact ⟨e.1, LinkedMap.get?_of_mem_entries he⟩
  · rintro ⟨address, hget⟩
    exact ⟨(address, p), LinkedMap.mem_entries_of_get? hget, rfl⟩

variable (r peers blacklistedPeers order) in
/-- The sequence from which a choice is made, and the bound of the index into it. -/
def pool : List PeerDatabaseValue × ℕ :=
  if r.onlyKnownPeers = false
      ∧ r.ofConfidence peers blacklistedPeers .forger = []
      ∧ r.ofConfidence peers blacklistedPeers .high = [] then
    ((groupBy order (r.remaining peers blacklistedPeers)).flatten,
      (groupBy order (r.remaining peers blacklistedPeers)).length)
  else (r.preferred peers blacklistedPeers, (r.preferred peers blacklistedPeers).length)

theorem getOrElse_remaining (c : PeerConfidence) :
    (groupBy order (r.remaining peers blacklistedPeers)).getOrElse c
      = r.ofConfidence peers blacklistedPeers c :=
  getOrElse_groupBy c

/-- A choice is none without preferred candidates, else it is a pick from the pool. -/
theorem choose_eq (random : SecureRandom) :
    r.choose peers blacklistedPeers order random
      = if r.preferred peers blacklistedPeers = [] then some none
        else random.pick (r.pool peers blacklistedPeers order).1
          (r.pool peers blacklistedPeers order).2 := by
  simp only [choose, getOrElse_remaining, pool, preferred]
  by_cases honly : r.onlyKnownPeers = true
  · by_cases hhigh : r.ofConfidence peers blacklistedPeers .high = [] <;> simp [honly, hhigh]
  · by_cases hforger : r.ofConfidence peers blacklistedPeers .forger = []
    · by_cases hhigh : r.ofConfidence peers blacklistedPeers .high = []
      · by_cases hnone : r.remaining peers blacklistedPeers = []
        · simp [honly, hforger, hhigh, hnone, groupBy_eq_nil.2]
        · simp [honly, hforger, hhigh, hnone, groupBy_eq_nil]
      · simp [honly, hforger, hhigh]
    · simp [honly, hforger]

variable (r peers blacklistedPeers order) in
/-- The pool has the preferred candidates, and the bound is not beyond them. -/
theorem pool_spec :
    (∀ p, p ∈ (r.pool peers blacklistedPeers order).1 ↔ p ∈ r.preferred peers blacklistedPeers)
    ∧ (r.pool peers blacklistedPeers order).2 ≤ (r.pool peers blacklistedPeers order).1.length
    ∧ (r.preferred peers blacklistedPeers ≠ [] → 0 < (r.pool peers blacklistedPeers order).2) := by
  rw [pool]
  split
  · rename_i hlast
    obtain ⟨hall, hforger, hhigh⟩ := hlast
    have hpreferred : r.preferred peers blacklistedPeers = r.remaining peers blacklistedPeers := by
      simp [preferred, hall, hforger, hhigh]
    rw [hpreferred]
    refine ⟨fun p => mem_flatten_groupBy, length_groupBy_le _ _, fun hne => ?_⟩
    exact List.length_pos_iff.2 fun hnil => hne (groupBy_eq_nil.1 hnil)
  · exact ⟨fun _ => Iff.rfl, le_refl _, List.length_pos_iff.2⟩

theorem mem_preferred {p : PeerDatabaseValue} (hp : p ∈ r.preferred peers blacklistedPeers) :
    p ∈ r.remaining peers blacklistedPeers := by
  rw [preferred] at hp
  split at hp
  · exact (List.mem_filter.1 hp).1
  · split at hp
    · exact (List.mem_filter.1 hp).1
    · split at hp
      · exact (List.mem_filter.1 hp).1
      · exact hp

/-- The last tier, by the groups of the high confidences. -/
theorem lastTier_iff : r.LastTier peers blacklistedPeers ↔ r.onlyKnownPeers = false
    ∧ r.ofConfidence peers blacklistedPeers .forger = []
    ∧ r.ofConfidence peers blacklistedPeers .high = [] := by
  simp only [LastTier, ofConfidence, List.filter_eq_nil_iff, decide_eq_true_eq]
  exact and_congr_right fun _ => forall₂_and

/-- Every candidate of the pool can be picked exactly if the first ones, up to the bound, have
the infos of all. -/
theorem inReach_iff : r.InReach peers blacklistedPeers order
    ↔ ∀ p ∈ r.preferred peers blacklistedPeers,
      p.peerInfo ∈ ((r.pool peers blacklistedPeers order).1.take
        (r.pool peers blacklistedPeers order).2).map fun p => p.peerInfo := by
  rw [InReach, lastTier_iff, pool]
  split
  · rename_i hlast
    obtain ⟨hall, hforger, hhigh⟩ := hlast
    have hpreferred : r.preferred peers blacklistedPeers = r.remaining peers blacklistedPeers := by
      simp [preferred, hall, hforger, hhigh]
    rw [hpreferred]
    exact ⟨fun h => h ⟨hall, hforger, hhigh⟩, fun h _ => h⟩
  · rename_i hlast
    refine iff_of_true (fun h => absurd h hlast) ?_
    intro p hp
    rw [List.take_length]
    exact List.mem_map_of_mem hp

/-- **The choice of a peer** is made among all and only the preferred candidates exactly if, in
the last tier, the first candidates of the groups, as many as there are groups, have the infos
of all. -/
theorem choosesAll_iff (r : RandomPeerForConnectionExcluding)
    (peers : LinkedMap InetSocketAddress PeerDatabaseValue) (blacklistedPeers : List (List UInt8))
    (order : GroupOrder) :
    r.ChoosesAll peers blacklistedPeers order ↔ r.InReach peers blacklistedPeers order := by
  obtain ⟨hmem, hle, hpos⟩ := pool_spec r peers blacklistedPeers order
  rw [inReach_iff]
  set seq := (r.pool peers blacklistedPeers order).1
  set n := (r.pool peers blacklistedPeers order).2
  constructor
  · intro h p hp
    obtain ⟨random, hrandom⟩ := h.all p hp
    have hne := List.ne_nil_of_mem hp
    rw [choose_eq, if_neg hne] at hrandom
    obtain ⟨q, hq, hpick⟩ := random.pick_mem (hpos hne) hle
    rw [hpick] at hrandom
    exact List.mem_map.2 ⟨q, hq, Option.some.inj (Option.some.inj hrandom)⟩
  · intro h
    refine ⟨fun random info hchoose => ?_, fun random => ?_, fun p hp => ?_⟩
    · rw [choose_eq] at hchoose
      split at hchoose
      · cases hchoose
      · rename_i hne
        obtain ⟨q, hq, hpick⟩ := random.pick_mem (hpos hne) hle
        rw [hpick] at hchoose
        cases hchoose
        have hq' := (hmem q).1 (List.mem_of_mem_take hq)
        obtain ⟨⟨address, hget⟩, hexcluded, hblacklisted⟩ := mem_remaining.1 (mem_preferred hq')
        exact ⟨address, q, hget, rfl, hexcluded, hblacklisted, hq'⟩
    · rw [choose_eq]
      constructor
      · intro hchoose
        by_contra hne
        obtain ⟨q, _, hpick⟩ := random.pick_mem (hpos hne) hle
        rw [if_neg hne, hpick] at hchoose
        cases hchoose
      · intro hnil
        exact if_pos hnil
    · obtain ⟨q, hq, hinfo⟩ := List.mem_map.1 (h p hp)
      obtain ⟨random, hpick⟩ := SecureRandom.exists_pick hq
      refine ⟨random, ?_⟩
      rw [choose_eq, if_neg (List.ne_nil_of_mem hp), hpick, hinfo]

/-- Candidates with distinct infos are all in reach exactly if, in the last tier, there are as
many of them as there are confidences among them. -/
theorem inReach_iff_of_nodup
    (hnodup : ((r.remaining peers blacklistedPeers).map fun p => p.peerInfo).Nodup) :
    r.InReach peers blacklistedPeers order ↔ (r.LastTier peers blacklistedPeers →
      (groupBy order (r.remaining peers blacklistedPeers)).length
        = (r.remaining peers blacklistedPeers).length) := by
  refine forall_congr' fun _ => ?_
  set l := r.remaining peers blacklistedPeers
  have hperm : (groupBy order l).flatten.Perm l := flatten_groupBy_perm (hnodup.of_map _)
  have hinfos := (hperm.map fun p => p.peerInfo).nodup_iff.2 hnodup
  have hle := length_groupBy_le order l
  rw [← hperm.length_eq]
  constructor
  · intro h
    by_contra hne
    -- a candidate after those in reach has an info of its own
    have hlt : (groupBy order l).length < (groupBy order l).flatten.length := by omega
    rw [← List.take_append_drop (groupBy order l).length (groupBy order l).flatten,
      List.map_append, List.nodup_append] at hinfos
    obtain ⟨p, hp⟩ := List.exists_mem_of_ne_nil _ (List.drop_eq_nil_iff.not.2 (not_le.2 hlt))
    exact hinfos.2.2 _ (h p (hperm.mem_iff.1 (List.mem_of_mem_drop hp))) _
      (List.mem_map_of_mem hp) rfl
  · intro h p hp
    rw [h, List.take_length]
    exact List.mem_map_of_mem (hperm.mem_iff.2 hp)

/-! ### Two peers of one confidence -/

/-- The confidences as they are declared. -/
def confidences : List PeerConfidence := [.unknown, .low, .medium, .high, .forger]

theorem nodup_confidences : confidences.Nodup := by decide

theorem mem_confidences (c : PeerConfidence) : c ∈ confidences := by
  cases c <;> simp [confidences]

/-- The groups in the order in which the confidences are declared. -/
def declared : GroupOrder := ⟨confidences, nodup_confidences, mem_confidences⟩

theorem port_le : 9084 ≤ 65535 ∧ 9085 ≤ 65535 := by decide

/-- A peer that is known by its address and has the given time of its last handshake. -/
def discovered (address : InetSocketAddress) (lastHandshake : ℤ) : PeerDatabaseValue :=
  ⟨address, hostAddress address.address,
    ⟨⟨[], ⟨0, 0, 1⟩, [], some address, []⟩, lastHandshake, none⟩, .unknown⟩

/-- Of two unknown peers only one can be chosen. -/
theorem not_choosesAll :
    ¬∀ (r : RandomPeerForConnectionExcluding)
      (peers : LinkedMap InetSocketAddress PeerDatabaseValue)
      (blacklistedPeers : List (List UInt8)) (order : GroupOrder),
      r.ChoosesAll peers blacklistedPeers order := by
  intro h
  let first : InetSocketAddress := ⟨[88, 0, 0, 1], 9084, .inl rfl, port_le.1⟩
  let second : InetSocketAddress := ⟨[88, 0, 0, 1], 9085, .inl rfl, port_le.2⟩
  have hall := (h ⟨[], false⟩
    (LinkedMap.empty.putAll [(first, discovered first 0), (second, discovered second 0)]) []
    declared).all (discovered second 0) (by decide)
  obtain ⟨random, hchoose⟩ := hall
  have hzero : random.nextInt 1 = 0 := Nat.lt_one_iff.1 (random.nextInt_lt 1 Nat.one_pos)
  have hpick : random.pick [discovered first 0, discovered second 0] 1
      = some (some (discovered second 0).peerInfo) := hchoose
  rw [SecureRandom.pick, hzero] at hpick
  exact absurd hpick (by decide)

end RandomPeerForConnectionExcluding

end Sparkz.Network
