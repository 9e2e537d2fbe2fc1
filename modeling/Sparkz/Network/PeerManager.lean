import Sparkz.Network.NetworkController
import Sparkz.Network.PeerPenalties

/-!
# The peer manager

The model of `PeerManager`: the actor that owns the database of peers and decides about
incoming connections.

* `PeerManager.Input`, `PeerManager.Output` — its messages and its answers.
* `PeerManager.receive` — the actor on one message.
* `receive_calls` — what it does with the database: calls of the database, at the time of
  the message.
* `Barred` — a ban is noted, and an address that was absent is in no bucket.
* `barred_call`, `barred_receive` — this stays so until the ban is over or lifted.

The answers to `RandomPeerForConnectionExcluding` and to the `GetPeers` messages, which read
the database only, are left out; what they do with the bans that are over is not.  A message
with the data of a peer has the host string of its address beside it.
-/

namespace Sparkz.Network

open Sparkz.Lib

/-- The settings of the actor, and those that tell the addresses of the node itself. -/
structure PeerManagerSettings extends PenaltySettings where
  network : NetworkControllerSettings

namespace PeerManager

/-- The messages that the actor receives. -/
inductive Input where
  | confirmConnection (connectionId : ConnectionId InetSocketAddress) (handlerRef : ℕ)
  | addOrUpdatePeer (peerInfo : PeerInfo) (hostString : List Char)
  | updatePeer (peerInfo : PeerInfo) (hostString : List Char)
  | penalize (peer : InetSocketAddress) (penalty : Penalty)
  | addPeersIfEmpty (peersSpec : List (PeerSpec × List Char))
  | addToBlacklist (address : InetSocketAddress) (penalty : Option Penalty)
  | removeFromBlacklist (address : List UInt8)
  | removePeer (address : InetSocketAddress)
  | getPeers

/-- The answers to the sender. -/
inductive Output where
  | connectionConfirmed (connectionId : ConnectionId InetSocketAddress) (handlerRef : ℕ)
  | connectionDenied (connectionId : ConnectionId InetSocketAddress) (handlerRef : ℕ)
  | disconnectFromAddress (address : InetSocketAddress)
  deriving DecidableEq

variable (s : PeerManagerSettings)

/-- `isSelf(peerSpec)`. -/
def isSelf (peerSpec : PeerSpec) : Bool :=
  peerSpec.declaredAddress.any (NetworkController.isSelf s.network)
    || peerSpec.localAddressOpt.any (NetworkController.isSelf s.network)

/-- The confidence in a peer that tells its features. -/
def peerConfidence (peerSpec : PeerSpec) : PeerConfidence :=
  if peerSpec.features.contains .forgerNode then .forger else .unknown

/-- `shouldAddPeer(peerSpec)`, where the lookup does not throw. -/
def shouldAddPeer (d : InMemoryPeerDatabase) (peerSpec : PeerSpec) : Option Bool :=
  match peerSpec.address with
  | some a => do
      let found ← d.get s.toPeerDatabaseSettings a
      return found.isNone && !isSelf s peerSpec
  | none => some false

/-- The `collect` of `AddPeersIfEmpty`, where no lookup throws. -/
def collectPeers (d : InMemoryPeerDatabase) :
    List (PeerSpec × List Char) → Option (List PeerDatabaseValue)
  | [] => some []
  | (peerSpec, hostString) :: peersSpec => do
      let added ← shouldAddPeer s d peerSpec
      let filteredPeers ← collectPeers d peersSpec
      match added, peerSpec.address with
      | true, some a =>
          return ⟨a, hostString, ⟨peerSpec, 0, none⟩, peerConfidence peerSpec⟩ :: filteredPeers
      | _, _ => return filteredPeers

/-- The actor on one message.  A peer without an address makes it throw, before it has
changed anything, and so does a lookup of `AddPeersIfEmpty`. -/
def receive (d : InMemoryPeerDatabase) (now : ℤ) : Input → InMemoryPeerDatabase × List Output
  | .confirmConnection connectionId handlerRef =>
      let (blacklisted, d) := d.isBlacklisted connectionId.remoteAddress now
      (d, [if blacklisted then .connectionDenied connectionId handlerRef
        else .connectionConfirmed connectionId handlerRef])
  | .addOrUpdatePeer peerInfo hostString =>
      match isSelf s peerInfo.peerSpec, peerInfo.peerSpec.address with
      | false, some a =>
          (d.addOrUpdateKnownPeer s.toPeerDatabaseSettings
            ⟨a, hostString, peerInfo, peerConfidence peerInfo.peerSpec⟩ now, [])
      | _, _ => (d, [])
  | .updatePeer peerInfo hostString =>
      match isSelf s peerInfo.peerSpec, peerInfo.peerSpec.address with
      | false, some a =>
          (d.updatePeer s.toPeerDatabaseSettings ⟨a, hostString, peerInfo, .unknown⟩ now, [])
      | _, _ => (d, [])
  | .penalize peer penalty =>
      let (disconnected, d) := d.penalize s.toPenaltySettings peer penalty now
      (d, disconnected.toList.map .disconnectFromAddress)
  | .addPeersIfEmpty peersSpec =>
      match collectPeers s d peersSpec with
      | some filteredPeers =>
          (d.addOrUpdateKnownPeers s.toPeerDatabaseSettings filteredPeers now, [])
      | none => (d, [])
  | .addToBlacklist address penalty =>
      (d.addToBlacklist s.toPeerDatabaseSettings address
        (penalty.getD (.ofType .misbehaviorPenalty)) now, [])
  | .removeFromBlacklist address => (d.removeFromBlacklist address, [])
  | .removePeer address => (d.remove address, [])
  | .getPeers => ((d.blacklistedPeers now).2, [])

end PeerManager

/-! ## Calls of the database -/

namespace InMemoryPeerDatabase

/-- The call reads the clock at the given time, if it reads it. -/
def Call.At (now : ℤ) : Call → Prop
  | .perform (.addOrUpdateKnownPeer _ t) => t = now
  | .perform (.addOrUpdateKnownPeers _ t) => t = now
  | .perform (.updatePeer _ t) => t = now
  | .perform (.addToBlacklist _ _ t) => t = now
  | .perform (.remove _) => True
  | .perform (.removeFromBlacklist _) => True
  | .isBlacklisted _ t => t = now
  | .blacklistedPeers t => t = now
  | .peerPenaltyScoreOverThreshold _ _ t => t = now

/-- The call lifts the ban of the IP address. -/
def Call.Lifts (ip : List UInt8) : Call → Prop
  | .perform (.removeFromBlacklist address) => address = ip
  | _ => False

end InMemoryPeerDatabase

namespace PeerManager

open InMemoryPeerDatabase

/-- The message lifts the ban of the IP address. -/
def Input.Lifts (ip : List UInt8) : Input → Prop
  | .removeFromBlacklist address => address = ip
  | _ => False

variable {s : PeerManagerSettings} {d : InMemoryPeerDatabase}

/-- **What a message does with the database**: calls at its time, and none of them lifts a
ban that the message does not. -/
theorem receive_calls (now : ℤ) (i : Input) :
    ∃ calls : List Call, (receive s d now i).1 = calls.foldl (call s.toPenaltySettings) d ∧
      ∀ c ∈ calls, c.At now ∧ ∀ ip, c.Lifts ip → i.Lifts ip := by
  cases i with
  | confirmConnection connectionId handlerRef =>
    exact ⟨[.isBlacklisted connectionId.remoteAddress now], rfl, by simp [Call.At, Call.Lifts]⟩
  | addOrUpdatePeer peerInfo hostString =>
    simp only [receive]
    split
    · exact ⟨[.perform (.addOrUpdateKnownPeer _ now)], rfl, by simp [Call.At, Call.Lifts]⟩
    · exact ⟨[], rfl, by simp⟩
  | updatePeer peerInfo hostString =>
    simp only [receive]
    split
    · exact ⟨[.perform (.updatePeer _ now)], rfl, by simp [Call.At, Call.Lifts]⟩
    · exact ⟨[], rfl, by simp⟩
  | penalize peer penalty =>
    simp only [receive, InMemoryPeerDatabase.penalize]
    split
    · exact ⟨[.peerPenaltyScoreOverThreshold peer penalty now,
        .perform (.addToBlacklist peer penalty now)], rfl, by simp [Call.At, Call.Lifts]⟩
    · exact ⟨[.peerPenaltyScoreOverThreshold peer penalty now], rfl, by simp [Call.At, Call.Lifts]⟩
  | addPeersIfEmpty peersSpec =>
    simp only [receive]
    split
    · exact ⟨[.perform (.addOrUpdateKnownPeers _ now)], rfl, by simp [Call.At, Call.Lifts]⟩
    · exact ⟨[], rfl, by simp⟩
  | addToBlacklist address penalty =>
    exact ⟨[.perform (.addToBlacklist address _ now)], rfl, by simp [Call.At, Call.Lifts]⟩
  | removeFromBlacklist address =>
    exact ⟨[.perform (.removeFromBlacklist address)], rfl,
      by simp [Call.At, Call.Lifts, Input.Lifts]⟩
  | removePeer address =>
    exact ⟨[.perform (.remove address)], rfl, by simp [Call.At, Call.Lifts]⟩
  | getPeers => exact ⟨[.blacklistedPeers now], rfl, by simp [Call.At, Call.Lifts]⟩

end PeerManager

/-! ## Bans -/

namespace InMemoryPeerDatabase

variable {s : PenaltySettings} {t : PeerDatabaseSettings} {d : InMemoryPeerDatabase}
  {wasAbsent : Prop} {a : InetSocketAddress} {till now : ℤ}

/-! ### Buckets -/

theorem inBucket_putAt {b : PeerBucketStorage} {v : PeerBucketValue} {indexes : ℤ × ℤ} {now : ℤ}
    (h : InBucket (b.putAt indexes v now) a) : v.address = a ∨ InBucket b a := by
  rcases h with hcontains | hmem
  · by_cases heq : a = v.address
    · exact .inl heq.symm
    · refine .inr (.inl ?_)
      rw [PeerBucketStorage.contains, PeerBucketStorage.tryGetIndexesFromPeerAddress,
        PeerBucketStorage.putAt, LinkedMap.get?_put, if_neg heq] at hcontains
      exact hcontains
  · obtain ⟨indexes, hholds⟩ := PeerBucketStorage.mem_keys_getPeers.1 hmem
    rcases PeerBucketStorage.holdsAt_put.1 hholds with ⟨-, heq⟩ | ⟨-, hholds⟩
    · exact .inl heq
    · exact .inr (.inr (PeerBucketStorage.mem_keys_getPeers.2 ⟨indexes, hholds⟩))

theorem inBucket_add {u : BucketSettings} {b b' : PeerBucketStorage} {v : PeerBucketValue}
    {now : ℤ} (hb' : b.add u v now = some b') (h : InBucket b' a) :
    v.address = a ∨ InBucket b a := by
  obtain ⟨indexes, -, rfl⟩ := Option.map_eq_some_iff.1 hb'
  exact inBucket_putAt h

/-- An addition that throws changes nothing. -/
theorem inBucket_getD_add {u : BucketSettings} {b : PeerBucketStorage} {v : PeerBucketValue}
    {now : ℤ} (h : InBucket ((b.add u v now).getD b) a) : v.address = a ∨ InBucket b a := by
  cases hadd : b.add u v now with
  | none =>
    rw [hadd] at h
    exact .inr h
  | some b' =>
    rw [hadd] at h
    exact inBucket_add hadd h

theorem inBucket_remove {b : PeerBucketStorage} {a' : InetSocketAddress}
    (h : InBucket (b.remove a') a) : InBucket b a := by
  unfold PeerBucketStorage.remove at h
  dsimp only at h
  split at h
  · rcases h with hcontains | hmem
    · left
      rw [PeerBucketStorage.contains, PeerBucketStorage.tryGetIndexesFromPeerAddress,
        LinkedMap.get?_remove] at hcontains
      split at hcontains
      · simp at hcontains
      · exact hcontains
    · obtain ⟨indexes, hholds⟩ := PeerBucketStorage.mem_keys_getPeers.1 hmem
      exact .inr (PeerBucketStorage.mem_keys_getPeers.2
        ⟨indexes, (PeerBucketStorage.holdsAt_remove.1 hholds).2⟩)
  · exact h

theorem inBucket_updatePeerIfDifferent {b : PeerBucketStorage} {v : PeerBucketValue} {now : ℤ}
    (h : InBucket (BucketManager.updatePeerIfDifferent b v now) a) :
    v.address = a ∨ InBucket b a := by
  unfold BucketManager.updatePeerIfDifferent at h
  split at h
  · split at h
    · unfold PeerBucketStorage.updateExistingPeer at h
      cases hget : b.reverseTable.get? v.address with
      | none =>
        rw [hget] at h
        exact .inr h
      | some indexes =>
        rw [hget] at h
        rcases h with hcontains | hmem
        · exact .inr (.inl hcontains)
        · obtain ⟨indexes', hholds⟩ := PeerBucketStorage.mem_keys_getPeers.1 hmem
          rcases PeerBucketStorage.holdsAt_put.1 hholds with ⟨-, heq⟩ | ⟨-, hholds⟩
          · exact .inl heq
          · exact .inr (.inr (PeerBucketStorage.mem_keys_getPeers.2 ⟨indexes', hholds⟩))
    · exact .inr h
  · exact .inr h

/-- No bucket has the address. -/
def Absent (a : InetSocketAddress) (m : BucketManager) : Prop :=
  ¬InBucket m.newBucket a ∧ ¬InBucket m.triedBucket a

theorem Absent.removePeer {m : BucketManager} (h : Absent a m) (a' : InetSocketAddress) :
    Absent a (m.removePeer a') :=
  ⟨fun hin => h.1 (inBucket_remove hin), fun hin => h.2 (inBucket_remove hin)⟩

theorem Absent.addOrUpdatePeerIntoBucket {m : BucketManager} (h : Absent a m)
    {v : PeerDatabaseValue} (hne : v.address ≠ a) (now : ℤ) :
    Absent a (m.addOrUpdatePeerIntoBucket t v now) := by
  obtain ⟨hnew, htried⟩ := h
  unfold BucketManager.addOrUpdatePeerIntoBucket
  split
  · exact ⟨fun hin => (inBucket_updatePeerIfDifferent hin).elim hne hnew, htried⟩
  · split
    · exact ⟨hnew, fun hin => (inBucket_updatePeerIfDifferent hin).elim hne htried⟩
    · exact ⟨fun hin => (inBucket_getD_add hin).elim hne hnew, htried⟩

/-- A peer that gives its slot up was among the tried ones. -/
theorem Absent.makeTried {m : BucketManager} (h : Absent a m) {v : PeerDatabaseValue}
    (hne : v.address ≠ a) (now : ℤ) : Absent a (m.makeTried t v now) := by
  unfold BucketManager.makeTried
  split
  · exact h
  · rename_i found _
    extract_lets newBucket moved
    have hnew : ¬InBucket newBucket a := by
      cases found with
      | none => exact h.1
      | some p => exact fun hin => h.1 (inBucket_remove hin)
    have hadd : ∀ m : BucketManager, Absent a m →
        Absent a (BucketManager.makeTried.addTried t now m moved) :=
      fun m hm => ⟨hm.1, fun hin => (inBucket_getD_add hin).elim hne hm.2⟩
    split
    · exact ⟨hnew, h.2⟩
    · split
      · exact ⟨hnew, h.2⟩
      · rename_i removed hremoved
        split
        · exact ⟨hnew, h.2⟩
        · have hother : removed.address ≠ a := by
            intro heq
            obtain ⟨indexes, -, hstored⟩ := Option.bind_eq_some_iff.1 hremoved
            obtain ⟨time, htable⟩ := PeerBucketStorage.getStoredPeerByIndexes_eq_some.1 hstored
            exact h.2 (.inr (PeerBucketStorage.mem_keys_getPeers.2 ⟨_, removed, time, htable, heq⟩))
          have htried : ∀ a', ¬InBucket (m.triedBucket.remove a') a :=
            fun a' hin => h.2 (inBucket_remove hin)
          extract_lets triedBucket
          split
          · exact ⟨hnew, htried _⟩
          · rename_i m' hm'
            obtain ⟨newBucket', hback, rfl⟩ := Option.map_eq_some_iff.1 hm'
            exact hadd _ ⟨fun hin => (inBucket_add hback hin).elim hother hnew, htried _⟩
    · exact hadd ⟨newBucket, m.triedBucket⟩ ⟨hnew, h.2⟩

/-! ### Calls -/

/-- A ban of the IP address is noted, and no bucket has the address if it was absent. -/
structure Barred (wasAbsent : Prop) (a : InetSocketAddress) (till : ℤ)
    (d : InMemoryPeerDatabase) : Prop where
  noted : d.blacklist.get? a.address = some till
  absent : wasAbsent → Absent a d.bucketManager

/-- A ban that is not over answers every question, and stays. -/
theorem noted_isBlacklisted (h : d.blacklist.get? a.address = some till) (hnow : now < till)
    (a' : InetSocketAddress) :
    (d.isBlacklisted a' now).2.blacklist.get? a.address = some till ∧
      (a'.address = a.address → (d.isBlacklisted a' now).1 = true) := by
  unfold isBlacklisted
  split
  · rename_i bannedTill hget
    split
    · exact ⟨h, fun _ => rfl⟩
    · rename_i hover
      have hne : a.address ≠ a'.address := by
        intro heq
        rw [heq, hget] at h
        exact hover (Option.some.inj h ▸ hnow)
      refine ⟨?_, fun heq => absurd heq.symm hne⟩
      rw [removeFromBlacklist, LinkedMap.get?_remove, if_neg hne]
      exact h
  · rename_i hget
    refine ⟨h, fun heq => ?_⟩
    rw [heq, h] at hget
    cases hget

theorem Barred.isBlacklisted (h : Barred wasAbsent a till d) (hnow : now < till)
    (a' : InetSocketAddress) :
    Barred wasAbsent a till (d.isBlacklisted a' now).2 := by
  refine ⟨(noted_isBlacklisted h.noted hnow a').1, ?_⟩
  unfold InMemoryPeerDatabase.isBlacklisted
  split
  · split
    · exact h.absent
    · exact h.absent
  · exact h.absent

/-- What is done with the buckets for an admitted peer is not done for a banned one. -/
theorem Barred.admitted (h : Barred wasAbsent a till d) (hnow : now < till) {v : PeerDatabaseValue}
    {f : BucketManager → BucketManager}
    (hf : v.address ≠ a → ∀ m, Absent a m → Absent a (f m)) :
    Barred wasAbsent a till (match d.peerIsNotBlacklistedAndNotKnownPeer t v now with
      | (admitted, d') =>
        if admitted then { d' with bucketManager := f d'.bucketManager } else d') := by
  have hbarred := h.isBlacklisted hnow v.address
  have hblacklisted := (noted_isBlacklisted h.noted hnow v.address).2
  unfold peerIsNotBlacklistedAndNotKnownPeer
  generalize d.isBlacklisted v.address now = p at hbarred hblacklisted ⊢
  obtain ⟨blacklisted, d'⟩ := p
  simp only at hbarred hblacklisted ⊢
  split
  · rename_i hadmitted
    have hne : v.address ≠ a := by
      intro heq
      rw [hblacklisted (by rw [heq])] at hadmitted
      simp at hadmitted
    exact ⟨hbarred.noted, fun hwas => hf hne _ (hbarred.absent hwas)⟩
  · exact hbarred

theorem Barred.addOrUpdateKnownPeer (h : Barred wasAbsent a till d) (hnow : now < till)
    (v : PeerDatabaseValue) : Barred wasAbsent a till (d.addOrUpdateKnownPeer t v now) :=
  h.admitted hnow fun hne _ habsent => habsent.addOrUpdatePeerIntoBucket hne now

theorem Barred.updatePeer (h : Barred wasAbsent a till d) (hnow : now < till)
    (v : PeerDatabaseValue) :
    Barred wasAbsent a till (d.updatePeer t v now) :=
  h.admitted hnow fun hne _ habsent => habsent.makeTried hne now

theorem Barred.filterNotBlacklisted (h : Barred wasAbsent a till d) (hnow : now < till)
    (values : List PeerDatabaseValue) :
    Barred wasAbsent a till (InMemoryPeerDatabase.filterNotBlacklisted now d values).2 := by
  induction values generalizing d with
  | nil => exact h
  | cons v values ih => exact ih (h.isBlacklisted hnow v.address)

theorem Barred.addOrUpdateEach (h : Barred wasAbsent a till d) (hnow : now < till)
    (values : List PeerDatabaseValue) :
    Barred wasAbsent a till (d.addOrUpdateEach t values now) := by
  rw [InMemoryPeerDatabase.addOrUpdateEach]
  induction values generalizing d with
  | nil => exact h
  | cons v values ih => exact ih (h.addOrUpdateKnownPeer hnow v)

theorem Barred.addToBlacklist (h : Barred wasAbsent a till d) (a' : InetSocketAddress)
    (penalty : Penalty) (now : ℤ) :
    Barred wasAbsent a till (d.addToBlacklist t a' penalty now) := by
  refine ⟨?_, fun hwas => (h.absent hwas).removePeer a'⟩
  show (if d.blacklist.contains a'.address then d.blacklist
    else ((t.penaltyDuration penalty).map fun duration =>
      d.blacklist.put a'.address (now + duration)).getD d.blacklist).get? a.address = some till
  split
  · exact h.noted
  · rename_i hfree
    have hne : a.address ≠ a'.address := by
      intro heq
      rw [LinkedMap.contains, ← heq, h.noted] at hfree
      exact hfree rfl
    cases t.penaltyDuration penalty with
    | none => exact h.noted
    | some duration =>
      rw [Option.map_some, Option.getD_some, LinkedMap.get?_put, if_neg hne]
      exact h.noted

/-- **A ban stays** through every call before it is over that does not lift it. -/
theorem barred_call (h : Barred wasAbsent a till d) (hnow : now < till) {c : Call} (hat : c.At now)
    (hlifts : ¬c.Lifts a.address) : Barred wasAbsent a till (d.call s c) := by
  cases c with
  | perform op =>
    cases op with
    | addOrUpdateKnownPeer v t =>
      obtain rfl : t = now := hat
      exact h.addOrUpdateKnownPeer hnow v
    | addOrUpdateKnownPeers values t =>
      obtain rfl : t = now := hat
      exact (h.filterNotBlacklisted hnow values).addOrUpdateEach hnow _
    | updatePeer v t =>
      obtain rfl : t = now := hat
      exact h.updatePeer hnow v
    | remove address =>
      exact ⟨h.noted, fun hwas => (h.absent hwas).removePeer address⟩
    | addToBlacklist socketAddress penalty t => exact h.addToBlacklist socketAddress penalty t
    | removeFromBlacklist address =>
      refine ⟨?_, h.absent⟩
      show (d.blacklist.remove address).get? a.address = some till
      rw [LinkedMap.get?_remove, if_neg fun heq => hlifts heq.symm]
      exact h.noted
  | isBlacklisted address t =>
    obtain rfl : t = now := hat
    exact h.isBlacklisted hnow address
  | blacklistedPeers t =>
    obtain rfl : t = now := hat
    refine ⟨?_, h.absent⟩
    apply LinkedMap.get?_of_mem_entries
    exact List.mem_filter.2 ⟨LinkedMap.mem_entries_of_get? h.noted, by simpa using hnow⟩
  | peerPenaltyScoreOverThreshold socketAddress penalty t =>
    rw [call, peerPenaltyScoreOverThreshold]
    split
    · exact h
    · exact ⟨h.noted, h.absent⟩

end InMemoryPeerDatabase

namespace PeerManager

open InMemoryPeerDatabase

variable {s : PeerManagerSettings} {d : InMemoryPeerDatabase} {wasAbsent : Prop}
  {a : InetSocketAddress} {till now : ℤ}

/-- **A ban stays** through every message before it is over that does not lift it. -/
theorem barred_receive (h : Barred wasAbsent a till d) (hnow : now < till) {i : Input}
    (hlifts : ¬i.Lifts a.address) : Barred wasAbsent a till (receive s d now i).1 := by
  obtain ⟨calls, hcalls, hall⟩ := receive_calls (s := s) (d := d) now i
  rw [hcalls]
  clear hcalls
  induction calls generalizing d with
  | nil => exact h
  | cons c calls ih =>
    obtain ⟨hat, hlift⟩ := hall c (by simp)
    exact ih (barred_call h hnow hat fun hc => hlifts (hlift _ hc))
      fun c' hc' => hall c' (by simp [hc'])

end PeerManager

end Sparkz.Network
