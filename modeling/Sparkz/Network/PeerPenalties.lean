import Sparkz.Network.BucketCoordinates
import Sparkz.Network.PeerDatabase

/-!
# Penalties and bans

The part of `InMemoryPeerDatabase` that keeps the scores of peers, and what `PeerManager`
does with a penalty: it adds up scores by IP address, and bans the address when its score
passes the threshold.

* `peerPenaltyScoreOverThreshold`, `blacklistedPeers` — the calls of the database that are
  not among its operations; `Call`, `call` — all that change it.
* `penalize` — the message `Penalize`.
* `penalize_bans_iff` — when a penalty that disconnects bans at once.
* `addToBlacklist_bans_iff` — when a ban takes effect.

A ban that is over stays until somebody asks for it, and keeps a new one out.  A ban of too
many minutes is no duration, and throws.
-/

namespace Sparkz.Network

open Sparkz.Lib

/-- The settings of the penalties. -/
structure PenaltySettings extends PeerDatabaseSettings where
  penaltyScoreThreshold : ℤ
  penaltySafeInterval : ℤ

namespace Penalty

/-- `penaltyScore`, a number of 32 bits. -/
def penaltyScore (s : PenaltySettings) : Penalty → ℤ
  | .ofType .nonDeliveryPenalty => 2
  | .ofType .misbehaviorPenalty => 10
  | .ofType .spamPenalty => 25
  | .ofType .permanentPenalty => 1000000000
  | .ofType .disconnectPenalty => (s.penaltyScoreThreshold + 1).bmod (2 ^ 32)
  | .customPenaltyDuration _ => 0

/-- `isPermanent`. -/
def isPermanent : Penalty → Bool
  | .ofType .permanentPenalty => true
  | _ => false

/-- The time that a penalty is meant to ban for, in milliseconds. -/
def banTime (s : PeerDatabaseSettings) : Penalty → ℤ
  | .customPenaltyDuration minutes => minutes * 60000
  | .ofType .permanentPenalty => 360 * 10 * 86400000
  | .ofType _ => s.temporalBanDuration

/-- It is no custom penalty of more minutes than a duration has. -/
def Bounded (penalty : Penalty) : Prop :=
  ∀ minutes, penalty = .customPenaltyDuration minutes → minutes ≤ 153722867

theorem penaltyDuration_eq {s : PeerDatabaseSettings} {penalty : Penalty}
    (hpositive : 0 < penalty.banTime s) :
    (penalty.Bounded ∧ s.penaltyDuration penalty = some (penalty.banTime s))
    ∨ (¬penalty.Bounded ∧ s.penaltyDuration penalty = none) := by
  cases penalty with
  | ofType penaltyType => exact .inl ⟨nofun, by cases penaltyType <;> rfl⟩
  | customPenaltyDuration minutes =>
    rw [banTime] at hpositive
    by_cases hle : minutes ≤ 153722867
    · refine .inl ⟨fun m hm => ?_, if_pos ⟨by omega, hle⟩⟩
      injection hm with hm
      exact hm ▸ hle
    · exact .inr ⟨fun h => hle (h minutes rfl), if_neg fun hboth => hle hboth.2⟩

end Penalty

namespace InMemoryPeerDatabase

section calls

variable (s : PenaltySettings) (d : InMemoryPeerDatabase)

/-- `newPenaltyScore` and `penaltyTs`: within the safe interval a penalty does not count,
if it is not a permanent one. -/
def newPenalty (socketAddress : InetSocketAddress) (penalty : Penalty) (now : ℤ) : ℤ × ℤ :=
  match d.penaltyBook.get? socketAddress.address with
  | some (penaltyScoreAcc, lastPenaltyTs) =>
      if now - lastPenaltyTs - s.penaltySafeInterval > 0 || penalty.isPermanent then
        ((penaltyScoreAcc + penalty.penaltyScore s).bmod (2 ^ 32), now)
      else (penaltyScoreAcc, lastPenaltyTs)
  | none => (penalty.penaltyScore s, now)

/-- `peerPenaltyScoreOverThreshold(socketAddress, penaltyType)`. -/
def peerPenaltyScoreOverThreshold (socketAddress : InetSocketAddress) (penalty : Penalty)
    (now : ℤ) : Bool × InMemoryPeerDatabase :=
  let new := d.newPenalty s socketAddress penalty now
  if new.1 > s.penaltyScoreThreshold then (true, d)
  else (false, { d with penaltyBook := d.penaltyBook.put socketAddress.address new })

/-- `blacklistedPeers`: the bans that are over are removed. -/
def blacklistedPeers (now : ℤ) : List (List UInt8) × InMemoryPeerDatabase :=
  let banned := d.blacklist.filter fun e => now < e.2
  (banned.keys, { d with blacklist := banned })

/-- Everything that can be called on a database and changes it. -/
inductive Call where
  | perform (op : Op)
  | isBlacklisted (address : InetSocketAddress) (now : ℤ)
  | blacklistedPeers (now : ℤ)
  | peerPenaltyScoreOverThreshold (socketAddress : InetSocketAddress) (penalty : Penalty) (now : ℤ)

/-- The database after a call. -/
def call : Call → InMemoryPeerDatabase
  | .perform op => d.perform s.toPeerDatabaseSettings op
  | .isBlacklisted address now => (d.isBlacklisted address now).2
  | .blacklistedPeers now => (d.blacklistedPeers now).2
  | .peerPenaltyScoreOverThreshold socketAddress penalty now =>
      (d.peerPenaltyScoreOverThreshold s socketAddress penalty now).2

/-- A database that calls lead to, at any times. -/
def Reachable (d : InMemoryPeerDatabase) : Prop :=
  Reaches (call s) (fun _ _ => True) empty d

/-- What `PeerManager` does on `Penalize(peer, penaltyType)`, and the peer that the sender
is told of with `DisconnectFromAddress`, if the ban does not throw. -/
def penalize (peer : InetSocketAddress) (penalty : Penalty) (now : ℤ) :
    Option InetSocketAddress × InMemoryPeerDatabase :=
  let (overThreshold, d) := d.peerPenaltyScoreOverThreshold s peer penalty now
  if overThreshold then
    (if d.addToBlacklistReturns s.toPeerDatabaseSettings peer penalty then some peer else none,
      d.addToBlacklist s.toPeerDatabaseSettings peer penalty now)
  else (none, d)

end calls

variable {s : PenaltySettings} {d : InMemoryPeerDatabase}

/-! ## Scores -/

/-- What a penalty adds is no number that a sum of scores could overflow with. -/
theorem penaltyScore_range (hlow : 0 < s.penaltyScoreThreshold)
    (hhigh : s.penaltyScoreThreshold < 2 ^ 30) (penalty : Penalty) :
    0 ≤ penalty.penaltyScore s ∧ penalty.penaltyScore s ≤ 2 ^ 30 := by
  cases penalty with
  | ofType penaltyType =>
    cases penaltyType with
    | disconnectPenalty =>
      rw [Penalty.penaltyScore, Int.bmod_eq_of_le (by simp; omega) (by simp; omega)]
      omega
    | _ => simp [Penalty.penaltyScore]
  | customPenaltyDuration minutes => simp [Penalty.penaltyScore]

theorem penaltyScore_disconnect (hlow : 0 < s.penaltyScoreThreshold)
    (hhigh : s.penaltyScoreThreshold < 2 ^ 30) :
    (Penalty.ofType .disconnectPenalty).penaltyScore s = s.penaltyScoreThreshold + 1 := by
  rw [Penalty.penaltyScore]
  exact Int.bmod_eq_of_le (by simp; omega) (by simp; omega)

/-- The scores in the book are within the threshold. -/
def ScoresWithin (s : PenaltySettings) (d : InMemoryPeerDatabase) : Prop :=
  ∀ address p, d.penaltyBook.get? address = some p → 0 ≤ p.1 ∧ p.1 ≤ s.penaltyScoreThreshold

/-- A score that is counted is not negative. -/
theorem ScoresWithin.newPenalty_nonneg (h : ScoresWithin s d) (hlow : 0 < s.penaltyScoreThreshold)
    (hhigh : s.penaltyScoreThreshold < 2 ^ 30) (socketAddress : InetSocketAddress)
    (penalty : Penalty) (now : ℤ) : 0 ≤ (d.newPenalty s socketAddress penalty now).1 := by
  have hscore := penaltyScore_range hlow hhigh penalty
  rw [newPenalty]
  split
  · rename_i acc last hget
    have hacc := h _ _ hget
    simp only at hacc
    split
    · show 0 ≤ (acc + penalty.penaltyScore s).bmod (2 ^ 32)
      rw [Int.bmod_eq_of_le (by simp; omega) (by simp; omega)]
      omega
    · exact hacc.1
  · exact hscore.1

end InMemoryPeerDatabase

/-! ## What the operations keep -/

namespace InMemoryPeerDatabase

variable {s : PenaltySettings} {t : PeerDatabaseSettings} {d d' d'' : InMemoryPeerDatabase}

/-- From one database to another the scores of some addresses are forgotten. -/
def KeepsScores (d d' : InMemoryPeerDatabase) : Prop :=
  ∀ address p, d'.penaltyBook.get? address = some p → d.penaltyBook.get? address = some p

theorem KeepsScores.refl (d : InMemoryPeerDatabase) : KeepsScores d d := fun _ _ h => h

theorem KeepsScores.trans (h : KeepsScores d d') (h' : KeepsScores d' d'') : KeepsScores d d'' :=
  fun address p hp => h address p (h' address p hp)

/-- No score changes. -/
theorem KeepsScores.of_eq (hbook : d'.penaltyBook = d.penaltyBook) : KeepsScores d d' :=
  fun _ _ hp => hbook ▸ hp

theorem keepsScores_isBlacklisted (address : InetSocketAddress) (now : ℤ) :
    KeepsScores d (d.isBlacklisted address now).2 := by
  rw [isBlacklisted]
  split
  · split
    · exact .refl d
    · exact .of_eq rfl
  · exact .refl d

/-- Anything may be done with the buckets of an admitted peer. -/
theorem keepsScores_of_admitted {v : PeerDatabaseValue} {now : ℤ}
    {f : BucketManager → BucketManager} :
    KeepsScores d (match d.peerIsNotBlacklistedAndNotKnownPeer t v now with
      | (admitted, d') =>
        if admitted then { d' with bucketManager := f d'.bucketManager } else d') := by
  have hbans : KeepsScores d (d.peerIsNotBlacklistedAndNotKnownPeer t v now).2 :=
    keepsScores_isBlacklisted v.address now
  generalize d.peerIsNotBlacklistedAndNotKnownPeer t v now = p at hbans ⊢
  obtain ⟨admitted, d'⟩ := p
  cases admitted with
  | false => exact hbans
  | true => exact hbans.trans (.of_eq rfl)

theorem keepsScores_addOrUpdateKnownPeer (v : PeerDatabaseValue) (now : ℤ) :
    KeepsScores d (d.addOrUpdateKnownPeer t v now) :=
  keepsScores_of_admitted (f := fun m => m.addOrUpdatePeerIntoBucket t v now)

theorem keepsScores_addOrUpdateEach (values : List PeerDatabaseValue) (now : ℤ) :
    KeepsScores d (d.addOrUpdateEach t values now) := by
  rw [addOrUpdateEach]
  induction values generalizing d with
  | nil => exact .refl d
  | cons v values ih => exact (keepsScores_addOrUpdateKnownPeer v now).trans ih

theorem keepsScores_filterNotBlacklisted (now : ℤ) (values : List PeerDatabaseValue) :
    KeepsScores d (filterNotBlacklisted now d values).2 := by
  induction values generalizing d with
  | nil => exact .refl d
  | cons v values ih => exact (keepsScores_isBlacklisted v.address now).trans ih

/-- **What an operation keeps.** -/
theorem keepsScores_perform (op : Op) : KeepsScores d (d.perform t op) := by
  cases op with
  | addOrUpdateKnownPeer v now => exact keepsScores_addOrUpdateKnownPeer v now
  | addOrUpdateKnownPeers values now =>
    exact (keepsScores_filterNotBlacklisted now values).trans (keepsScores_addOrUpdateEach _ now)
  | updatePeer v now => exact keepsScores_of_admitted (f := fun m => m.makeTried t v now)
  | remove address => exact .of_eq rfl
  | addToBlacklist socketAddress penalty now =>
    intro address p hp
    rw [perform, addToBlacklist, LinkedMap.get?_remove] at hp
    split at hp
    · cases hp
    · exact hp
  | removeFromBlacklist address => exact .of_eq rfl

/-! ### Reachable databases -/

/-- The scores of a database that calls lead to are within the threshold. -/
theorem Reachable.scoresWithin (h : Reachable s d) (hlow : 0 < s.penaltyScoreThreshold)
    (hhigh : s.penaltyScoreThreshold < 2 ^ 30) : ScoresWithin s d := by
  refine h.invariant (I := ScoresWithin s) ?_ fun address p hp => by cases hp
  intro d c hwithin _
  cases c with
  | perform op => exact fun address p hp => hwithin address p (keepsScores_perform op _ _ hp)
  | isBlacklisted address now =>
    exact fun a p hp => hwithin a p (keepsScores_isBlacklisted address now _ _ hp)
  | blacklistedPeers now => exact hwithin
  | peerPenaltyScoreOverThreshold socketAddress penalty now =>
    have hnonneg := hwithin.newPenalty_nonneg hlow hhigh socketAddress penalty now
    rw [call, peerPenaltyScoreOverThreshold]
    split
    · exact hwithin
    · rename_i hbelow
      intro address p hp
      rw [LinkedMap.get?_put] at hp
      split at hp
      · obtain rfl := Option.some.inj hp
        exact ⟨hnonneg, not_lt.1 hbelow⟩
      · exact hwithin address p hp

/-! ## Bans -/

/-- A ban takes effect if there is none that is over and still noted, and if it is noted. -/
theorem isBlacklisted_addToBlacklist {penalty : Penalty} (hpositive : 0 < penalty.banTime t)
    (peer : InetSocketAddress) (now : ℤ) :
    ((d.addToBlacklist t peer penalty now).isBlacklisted peer now).1 = true
      ↔ (∀ bannedTill, d.blacklist.get? peer.address = some bannedTill → now < bannedTill)
        ∧ (d.blacklist.get? peer.address = none → penalty.Bounded) := by
  have hnoted : (d.addToBlacklist t peer penalty now).blacklist.get? peer.address
      = (d.blacklist.get? peer.address).or ((t.penaltyDuration penalty).map (now + ·)) := by
    show (if d.blacklist.contains peer.address then d.blacklist
      else ((t.penaltyDuration penalty).map fun duration =>
        d.blacklist.put peer.address (now + duration)).getD d.blacklist).get? peer.address = _
    rw [LinkedMap.contains]
    cases hget : d.blacklist.get? peer.address with
    | some bannedTill => simp [hget]
    | none => cases t.penaltyDuration penalty <;> simp [LinkedMap.get?_put, hget]
  simp only [isBlacklisted, hnoted]
  cases d.blacklist.get? peer.address with
  | some bannedTill => by_cases hlt : now < bannedTill <;> simp [hlt]
  | none =>
    obtain ⟨hbounded, hduration⟩ | ⟨hbounded, hduration⟩ := Penalty.penaltyDuration_eq hpositive
    · simp [hduration, hbounded, hpositive]
    · simp [hduration, hbounded]

/-- A bucket has the peer: it is found there, or it is among the peers. -/
def InBucket (b : PeerBucketStorage) (peer : InetSocketAddress) : Prop :=
  b.contains peer = true ∨ peer ∈ b.getPeers.keys

theorem inBucket_remove_iff (b : PeerBucketStorage) (peer : InetSocketAddress) :
    ¬InBucket (b.remove peer) peer ↔ b.OnlySlot peer := by
  rw [InBucket, PeerBucketStorage.contains_remove_self, b.mem_getPeers_remove]
  simp

/-- The ban of a peer takes effect, and the peer is in no bucket. -/
structure Banned (d : InMemoryPeerDatabase) (peer : InetSocketAddress) (now : ℤ) : Prop where
  blacklisted : (d.isBlacklisted peer now).1 = true
  new : ¬InBucket d.bucketManager.newBucket peer
  tried : ¬InBucket d.bucketManager.triedBucket peer

/-- **A ban takes effect** and the peer leaves the buckets exactly if no ban of its IP
address is noted that is over, the penalty is within the bound of durations or a ban is noted,
and neither bucket has the peer in a slot that it is not found under. -/
theorem addToBlacklist_bans_iff (s : PenaltySettings) (d : InMemoryPeerDatabase)
    (peer : InetSocketAddress) {penalty : Penalty}
    (hpositive : 0 < penalty.banTime s.toPeerDatabaseSettings) (now : ℤ) :
    Banned (d.addToBlacklist s.toPeerDatabaseSettings peer penalty now) peer now
    ↔ (∀ bannedTill, d.blacklist.get? peer.address = some bannedTill → now < bannedTill)
      ∧ (d.blacklist.get? peer.address = none → penalty.Bounded)
      ∧ d.bucketManager.newBucket.OnlySlot peer ∧ d.bucketManager.triedBucket.OnlySlot peer := by
  have hban := isBlacklisted_addToBlacklist (d := d) hpositive peer now
  have hnew := inBucket_remove_iff d.bucketManager.newBucket peer
  have htried := inBucket_remove_iff d.bucketManager.triedBucket peer
  constructor
  · rintro ⟨hblacklisted, hleft, hleft'⟩
    obtain ⟨hover, hbounded⟩ := hban.1 hblacklisted
    exact ⟨hover, hbounded, hnew.1 hleft, htried.1 hleft'⟩
  · rintro ⟨hover, hbounded, honly, honly'⟩
    exact ⟨hban.2 ⟨hover, hbounded⟩, hnew.2 honly, htried.2 honly'⟩

/-- Settings of the reference configuration, with a hash function that puts every peer into
the first slot. -/
def referenceSettings : PenaltySettings := ⟨oneSlotSettings, 100, 60000⟩

theorem addToBlacklist_bans_iff_first :
    Banned (empty.addToBlacklist oneSlotSettings PeerBucketStorage.somewhere (.ofType .spamPenalty)
      0) PeerBucketStorage.somewhere 0 :=
  (addToBlacklist_bans_iff referenceSettings empty PeerBucketStorage.somewhere (by decide) 0).2
    ⟨nofun, (fun _ => nofun), (fun _ ⟨_, _, hget, _⟩ => nomatch hget),
      (fun _ ⟨_, _, hget, _⟩ => nomatch hget)⟩

/-- A peer that is banned again after its first ban is over. -/
theorem banned_again :
    ¬∀ (s : PenaltySettings) (d : InMemoryPeerDatabase) (peer : InetSocketAddress)
      (penalty : Penalty) (now : ℤ), Reachable s d →
      0 < penalty.banTime s.toPeerDatabaseSettings →
      Banned (d.addToBlacklist s.toPeerDatabaseSettings peer penalty now) peer now := by
  intro h
  have hbanned : Reachable referenceSettings (empty.call referenceSettings (.perform
      (.addToBlacklist PeerBucketStorage.somewhere (.ofType .spamPenalty) 0))) :=
    .single _ trivial
  have hagain := (h _ _ PeerBucketStorage.somewhere (.ofType .spamPenalty) 3600000 hbanned
    (by decide)).blacklisted
  rw [isBlacklisted_addToBlacklist (by decide)] at hagain
  exact absurd (hagain.1 3600000 rfl) (by decide)

/-! ## Penalties that disconnect -/

/-- The score of a penalty that disconnects is over the threshold, unless an earlier
penalty is still within the safe interval. -/
theorem ScoresWithin.overThreshold_iff (h : ScoresWithin s d) (hlow : 0 < s.penaltyScoreThreshold)
    (hhigh : s.penaltyScoreThreshold < 2 ^ 30) (peer : InetSocketAddress) (now : ℤ) :
    s.penaltyScoreThreshold < (d.newPenalty s peer (.ofType .disconnectPenalty) now).1
      ↔ ∀ p, d.penaltyBook.get? peer.address = some p → now - p.2 - s.penaltySafeInterval > 0 := by
  have hscore := penaltyScore_disconnect hlow hhigh
  rw [newPenalty]
  cases hget : d.penaltyBook.get? peer.address with
  | none => simp [hscore]
  | some p =>
    obtain ⟨acc, last⟩ := p
    have hacc := h _ _ hget
    simp only at hacc
    have hsum : (acc + (s.penaltyScoreThreshold + 1)).bmod (2 ^ 32)
        = acc + (s.penaltyScoreThreshold + 1) :=
      Int.bmod_eq_of_le (by simp; omega) (by simp; omega)
    by_cases hlate : now - last - s.penaltySafeInterval > 0
    · simp only [hlate, decide_true, Bool.true_or, if_true, hscore, hsum]
      refine iff_of_true (by omega) fun p hp => ?_
      obtain rfl := Option.some.inj hp
      exact hlate
    · simp only [hlate, decide_false, Penalty.isPermanent, Bool.or_self]
      refine iff_of_false (by simpa using hacc.2) fun hall => hlate (hall _ rfl)

/-- **A penalty that disconnects bans at once** exactly if no earlier penalty of the IP
address is within the safe interval, and no ban of it is noted that is over. -/
theorem penalize_bans_iff (s : PenaltySettings) (hlow : 0 < s.penaltyScoreThreshold)
    (hhigh : s.penaltyScoreThreshold < 2 ^ 30) (hduration : 0 < s.temporalBanDuration)
    {d : InMemoryPeerDatabase} (h : Reachable s d) (peer : InetSocketAddress) (now : ℤ) :
    ((d.peerPenaltyScoreOverThreshold s peer (.ofType .disconnectPenalty) now).1 = true
      ∧ (d.penalize s peer (.ofType .disconnectPenalty) now).1 = some peer
      ∧ ((d.penalize s peer (.ofType .disconnectPenalty) now).2.isBlacklisted peer now).1 = true)
    ↔ (∀ p, d.penaltyBook.get? peer.address = some p → now - p.2 - s.penaltySafeInterval > 0)
      ∧ ∀ bannedTill, d.blacklist.get? peer.address = some bannedTill → now < bannedTill := by
  have hover := (h.scoresWithin hlow hhigh).overThreshold_iff hlow hhigh peer now
  rw [← hover]
  by_cases hscore : s.penaltyScoreThreshold
      < (d.newPenalty s peer (.ofType .disconnectPenalty) now).1
  · have hcall : d.peerPenaltyScoreOverThreshold s peer (.ofType .disconnectPenalty) now
        = (true, d) := if_pos hscore
    have hpositive : 0 < (Penalty.ofType .disconnectPenalty).banTime s.toPeerDatabaseSettings :=
      hduration
    have hban := isBlacklisted_addToBlacklist (d := d) hpositive peer now
    have hbounded : (Penalty.ofType .disconnectPenalty).Bounded := nofun
    have hreturns : d.addToBlacklistReturns s.toPeerDatabaseSettings peer
        (.ofType .disconnectPenalty) = true := Bool.or_true _
    simp only [penalize, hcall, hreturns, if_true, hban, hbounded, implies_true, and_true, hscore,
      true_and]
  · have hcall : (d.peerPenaltyScoreOverThreshold s peer (.ofType .disconnectPenalty) now).1
        = false := by
      rw [peerPenaltyScoreOverThreshold, if_neg hscore]
    simp [hcall, hscore]

theorem penalize_bans_iff_first :
    (empty.peerPenaltyScoreOverThreshold referenceSettings PeerBucketStorage.somewhere
        (.ofType .disconnectPenalty) 0).1 = true
      ∧ (empty.penalize referenceSettings PeerBucketStorage.somewhere
        (.ofType .disconnectPenalty) 0).1 = some PeerBucketStorage.somewhere
      ∧ ((empty.penalize referenceSettings PeerBucketStorage.somewhere
        (.ofType .disconnectPenalty) 0).2.isBlacklisted PeerBucketStorage.somewhere 0).1 = true :=
  (penalize_bans_iff referenceSettings (by decide) (by decide) (by decide) .refl
    PeerBucketStorage.somewhere 0).2 ⟨nofun, nofun⟩

/-- A peer that sent spam just before. -/
theorem spared_within_safe_interval :
    ¬∀ (s : PenaltySettings) (d : InMemoryPeerDatabase) (peer : InetSocketAddress) (now : ℤ),
      0 < s.penaltyScoreThreshold → s.penaltyScoreThreshold < 2 ^ 30 →
      0 < s.temporalBanDuration → Reachable s d →
      (d.peerPenaltyScoreOverThreshold s peer (.ofType .disconnectPenalty) now).1 = true
        ∧ (d.penalize s peer (.ofType .disconnectPenalty) now).1 = some peer
        ∧ ((d.penalize s peer (.ofType .disconnectPenalty) now).2.isBlacklisted peer now).1
          = true := by
  intro h
  have hspam : Reachable referenceSettings (empty.call referenceSettings
      (.peerPenaltyScoreOverThreshold PeerBucketStorage.somewhere (.ofType .spamPenalty) 0)) :=
    .single _ trivial
  have hover := (h _ _ PeerBucketStorage.somewhere 1 (by decide) (by decide) (by decide) hspam).1
  revert hover
  decide

end InMemoryPeerDatabase

end Sparkz.Network
