import Sparkz.Network.DeliveryTracker

/-!
# Per-peer accounting of the delivery tracker

`peerLimits` is meant to count, for every peer, the modifiers that are requested
from it and not delivered yet; `getPeerLimit` is what is left of its quota.  This
file says over which runs the counters are right.

* `TrackerCall`, `exec`, `Reachable` — a run of the tracker: any sequence of
  calls as the callers make them, each meeting a given condition.
* `outstanding`, `PeerLimitsExact` — the number of requested entries that name a
  peer, and the statement that every counter is that number.
* `peerLimits_exact` — along a run in which every modifier is received from the
  peer it was requested from (`SenderMatches`) the counters are exact, and in
  each state reached the next call keeps them exact just when it meets that
  condition too.
* `received_from_other_peer` — one delivery by another peer: its own counter
  goes down, the counter of the peer that was asked stays up for good.
-/

namespace Sparkz.Network

open Sparkz.Lib

namespace DeliveryTracker

variable {Address ModifierId : Type} [DecidableEq Address] [DecidableEq ModifierId]

/-! ## Runs -/

/-- A call on the tracker, with the clock reading it makes. -/
inductive TrackerCall (Address ModifierId : Type) where
  | setRequested (ids : List ModifierId) (typeId : ModifierTypeId) (cp : ConnectedPeer Address)
  | setReceived (id : ModifierId) (sender : ConnectedPeer Address) (now : ℤ)
  | setInvalid (id : ModifierId) (now : ℤ)
  | setHeld (id : ModifierId) (now : ℤ)
  | setUnknown (id : ModifierId) (now : ℤ)
  | onStillWaiting (cp : ConnectedPeer Address) (typeId : ModifierTypeId) (id : ModifierId)
      (now : ℤ)
  | clearStatusForModifier (id : ModifierId) (oldStatus : ModifiersStatus) (now : ℤ)

/-- The tracker after a call; a call that throws leaves it as it was. -/
def exec (settings : TrackerSettings) (t : DeliveryTracker Address ModifierId) :
    TrackerCall Address ModifierId → DeliveryTracker Address ModifierId
  | .setRequested ids typeId cp => t.setRequested ids typeId cp
  | .setReceived id sender now => t.setReceived id sender now
  | .setInvalid id now => (t.setInvalid settings id now).2
  | .setHeld id now => t.setHeld settings id now
  | .setUnknown id now => t.setUnknown settings id now
  | .onStillWaiting cp typeId id now => (t.onStillWaiting settings cp typeId id now).2
  | .clearStatusForModifier id oldStatus now =>
      match t.clearStatusForModifier settings id oldStatus now with
      | .ok t' => t'
      | .error _ => t

/-- How the callers call: `clearStatusForModifier` is given the status that the
modifier has (`checkDelivery` tests for `Requested` before it passes it). -/
def CallerOk (t : DeliveryTracker Address ModifierId) : TrackerCall Address ModifierId → Prop
  | .clearStatusForModifier id oldStatus _ => oldStatus = t.status id
  | _ => True

/-- The states of the tracker in runs all of whose calls meet `ok` in the state
they are made in. -/
inductive Reachable (settings : TrackerSettings)
    (ok : DeliveryTracker Address ModifierId → TrackerCall Address ModifierId → Prop) :
    DeliveryTracker Address ModifierId → Prop where
  | empty : Reachable settings ok empty
  | step {t : DeliveryTracker Address ModifierId} (c : TrackerCall Address ModifierId) :
      Reachable settings ok t → CallerOk t c → ok t c → Reachable settings ok (t.exec settings c)

/-! ## The accounting -/

/-- The number of modifier ids whose entry in `requested` names `p`. -/
def outstanding (t : DeliveryTracker Address ModifierId) (p : ConnectedPeer Address) : ℕ :=
  t.requested.countV fun info => info.peer.equals p

/-- Every counter is the number of its peer's outstanding requests. -/
def PeerLimitsExact (t : DeliveryTracker Address ModifierId) : Prop :=
  ∀ p : ConnectedPeer Address, t.peerLimit p = (t.outstanding p : ℤ)

/-- A modifier that is waited for is received from the peer it was requested
from. -/
def SenderMatches (t : DeliveryTracker Address ModifierId) :
    TrackerCall Address ModifierId → Prop
  | .setReceived id sender _ =>
      ∀ info, t.status id = .requested → t.requested.get? id = some info →
        info.peer.equals sender = true
  | _ => True

theorem equals_iff {p q : ConnectedPeer Address} :
    p.equals q = true ↔ p.connectionId.remoteAddress = q.connectionId.remoteAddress := by
  simp [ConnectedPeer.equals]

omit [DecidableEq ModifierId] in
/-- Exactness only depends on the two maps it compares. -/
theorem PeerLimitsExact.congr {t t' : DeliveryTracker Address ModifierId}
    (hr : t'.requested = t.requested) (hp : t'.peerLimits = t.peerLimits) :
    PeerLimitsExact t' ↔ PeerLimitsExact t := by
  simp only [PeerLimitsExact, peerLimit, outstanding, hr, hp]

/-! ### Counters going up and down -/

section

omit [DecidableEq ModifierId]

@[simp] theorem requested_incrementPeerLimitCounter (t : DeliveryTracker Address ModifierId)
    (q : ConnectedPeer Address) : (t.incrementPeerLimitCounter q).requested = t.requested := by
  unfold incrementPeerLimitCounter
  split <;> rfl

@[simp] theorem requested_decrementPeerLimitCounter (t : DeliveryTracker Address ModifierId)
    (q : ConnectedPeer Address) : (t.decrementPeerLimitCounter q).requested = t.requested := by
  unfold decrementPeerLimitCounter
  split
  · split <;> rfl
  · rfl

theorem peerLimit_incrementPeerLimitCounter (t : DeliveryTracker Address ModifierId)
    (q p : ConnectedPeer Address) :
    (t.incrementPeerLimitCounter q).peerLimit p
      = t.peerLimit p + (if q.equals p then 1 else 0) := by
  unfold incrementPeerLimitCounter
  by_cases hqp : q.connectionId.remoteAddress = p.connectionId.remoteAddress
  · rw [if_pos (equals_iff.2 hqp)]
    split
    · rename_i value hv
      simp [peerLimit, LinkedMap.get?_put, ← hqp, hv]
    · rename_i hv
      simp [peerLimit, LinkedMap.get?_put, ← hqp, hv]
  · rw [if_neg (fun h => hqp (equals_iff.1 h))]
    split <;> simp [peerLimit, LinkedMap.get?_put, Ne.symm hqp]

/-- A counter that is there goes down by one; no other counter moves. -/
theorem peerLimit_decrementPeerLimitCounter (t : DeliveryTracker Address ModifierId)
    (q p : ConnectedPeer Address) (h : q.equals p = true → t.peerLimit q ≠ 0) :
    (t.decrementPeerLimitCounter q).peerLimit p
      = t.peerLimit p - (if q.equals p then 1 else 0) := by
  unfold decrementPeerLimitCounter
  by_cases hqp : q.connectionId.remoteAddress = p.connectionId.remoteAddress
  · have hne := h (equals_iff.2 hqp)
    rw [if_pos (equals_iff.2 hqp)]
    split
    · rename_i value hv
      split
      · rename_i h1
        simp [peerLimit, LinkedMap.get?_remove, ← hqp, hv, h1]
      · simp [peerLimit, LinkedMap.get?_put, ← hqp, hv]
    · rename_i hv
      exact absurd (by simp [peerLimit, hv]) hne
  · rw [if_neg (fun h => hqp (equals_iff.1 h))]
    split
    · split
      · simp [peerLimit, LinkedMap.get?_remove, Ne.symm hqp]
      · simp [peerLimit, LinkedMap.get?_put, Ne.symm hqp]
    · simp

end

/-! ### What leaves the accounting alone -/

section

omit [DecidableEq Address] [DecidableEq ModifierId]

@[simp] theorem requested_scheduleRebroadcastIfNeeded (settings : TrackerSettings)
    (t : DeliveryTracker Address ModifierId) :
    (t.scheduleRebroadcastIfNeeded settings).requested = t.requested := by
  unfold scheduleRebroadcastIfNeeded
  split
  · simp only [scheduleOnce]
    split <;> rfl
  · rfl

@[simp] theorem peerLimits_scheduleRebroadcastIfNeeded (settings : TrackerSettings)
    (t : DeliveryTracker Address ModifierId) :
    (t.scheduleRebroadcastIfNeeded settings).peerLimits = t.peerLimits := by
  unfold scheduleRebroadcastIfNeeded
  split
  · simp only [scheduleOnce]
    split <;> rfl
  · rfl

@[simp] theorem requested_updateProcessingTime (settings : TrackerSettings)
    (t : DeliveryTracker Address ModifierId) (startTime now : ℤ) :
    (t.updateProcessingTime settings startTime now).requested = t.requested := by
  simp only [updateProcessingTime]
  split
  · split
    · rfl
    · split
      · rw [requested_scheduleRebroadcastIfNeeded]
      · rfl
  · rfl

@[simp] theorem peerLimits_updateProcessingTime (settings : TrackerSettings)
    (t : DeliveryTracker Address ModifierId) (startTime now : ℤ) :
    (t.updateProcessingTime settings startTime now).peerLimits = t.peerLimits := by
  simp only [updateProcessingTime]
  split
  · split
    · rfl
    · split
      · rw [peerLimits_scheduleRebroadcastIfNeeded]
      · rfl
  · rfl

end

/-! ### One requested id leaves, one enters -/

/-- By how much the counter of a peer exceeds the number of its outstanding
requests. -/
def slack (t : DeliveryTracker Address ModifierId) (p : ConnectedPeer Address) : ℤ :=
  t.peerLimit p - t.outstanding p

omit [DecidableEq ModifierId] in
theorem exact_iff_slack {t : DeliveryTracker Address ModifierId} :
    PeerLimitsExact t ↔ ∀ p, t.slack p = 0 := by
  simp only [PeerLimitsExact, slack, sub_eq_zero]

theorem outstanding_pos {t : DeliveryTracker Address ModifierId} {id : ModifierId}
    {info : RequestedInfo Address} (hget : t.requested.get? id = some info) :
    0 < t.outstanding info.peer := by
  have h := LinkedMap.countV_remove_some hget fun i => i.peer.equals info.peer
  rw [if_pos (equals_iff.2 rfl)] at h
  rw [outstanding]
  omega

theorem outstanding_dropRequested {t : DeliveryTracker Address ModifierId} {id : ModifierId}
    {info : RequestedInfo Address} (hget : t.requested.get? id = some info)
    (p : ConnectedPeer Address) :
    ((t.dropRequested id info).outstanding p : ℤ)
      = t.outstanding p - (if info.peer.equals p then 1 else 0) := by
  have h := LinkedMap.countV_remove_some hget fun info => info.peer.equals p
  have hcast : ((t.requested.remove id).countV fun info => info.peer.equals p : ℤ)
      + (if info.peer.equals p then 1 else 0) = t.outstanding p := by
    exact_mod_cast h
  simp only [outstanding, dropRequested] at hcast ⊢
  omega

/-- A requested id is dropped and the counter of `q`, which is there, goes down. -/
theorem slack_drop {t : DeliveryTracker Address ModifierId} {id : ModifierId}
    {info : RequestedInfo Address} (hget : t.requested.get? id = some info)
    {q : ConnectedPeer Address} (hq : t.peerLimit q ≠ 0) (p : ConnectedPeer Address) :
    ((t.dropRequested id info).decrementPeerLimitCounter q).slack p
      = t.slack p + (if info.peer.equals p then 1 else 0) - (if q.equals p then 1 else 0) := by
  have hout : ((t.dropRequested id info).decrementPeerLimitCounter q).outstanding p
      = (t.dropRequested id info).outstanding p := by
    rw [outstanding, outstanding, requested_decrementPeerLimitCounter]
  have hlimit : (t.dropRequested id info).peerLimit p = t.peerLimit p := rfl
  rw [slack, slack, hout, outstanding_dropRequested hget,
    peerLimit_decrementPeerLimitCounter (t.dropRequested id info) q p (fun _ => hq), hlimit]
  omega

/-- The private `setRequested` moves the counters with the entries. -/
theorem slack_setRequestedOne {t : DeliveryTracker Address ModifierId} {id : ModifierId}
    (h : ∀ info, t.requested.get? id = some info → t.peerLimit info.peer ≠ 0)
    (typeId : ModifierTypeId) (supplier : ConnectedPeer Address) (checksDone : ℤ)
    (p : ConnectedPeer Address) :
    (t.setRequestedOne id typeId supplier checksDone).slack p = t.slack p := by
  unfold setRequestedOne
  split
  · simp only [scheduleOnce]
    split
    · rename_i info hget
      have hcount : ((t.requested.put id ⟨supplier, t.nextTimer, checksDone⟩).countV
            (fun info => info.peer.equals p) : ℤ) + (if info.peer.equals p then 1 else 0)
          = t.outstanding p + (if supplier.equals p then 1 else 0) := by
        have := LinkedMap.countV_put_some (⟨supplier, t.nextTimer, checksDone⟩ :
          RequestedInfo Address) hget fun info => info.peer.equals p
        exact_mod_cast this
      split
      · rename_i hcon
        have hiff : info.peer.equals p = supplier.equals p := by
          simp [ConnectedPeer.equals, hcon]
        rw [hiff] at hcount
        simp only [slack, peerLimit, outstanding] at hcount ⊢
        omega
      · rw [slack, peerLimit_incrementPeerLimitCounter, peerLimit_decrementPeerLimitCounter]
        · simp only [slack, outstanding, requested_incrementPeerLimitCounter,
            requested_decrementPeerLimitCounter, peerLimit] at hcount ⊢
          omega
        · intro _
          exact h info hget
    · rename_i hget
      have hcount := LinkedMap.countV_put_none (⟨supplier, t.nextTimer, checksDone⟩ :
        RequestedInfo Address) hget fun info => info.peer.equals p
      rw [slack, peerLimit_incrementPeerLimitCounter]
      simp only [slack, outstanding, requested_incrementPeerLimitCounter, peerLimit] at hcount ⊢
      rw [hcount]
      push_cast
      omega
  · rfl

/-- A requested id is dropped and the counter of `q` goes down: the accounting
stays exact just when `q` is the peer the id was requested from. -/
theorem exact_drop_iff {t : DeliveryTracker Address ModifierId} {id : ModifierId}
    {info : RequestedInfo Address} (h : PeerLimitsExact t)
    (hget : t.requested.get? id = some info) (q : ConnectedPeer Address) :
    PeerLimitsExact ((t.dropRequested id info).decrementPeerLimitCounter q)
      ↔ info.peer.equals q = true := by
  constructor
  · intro hex
    -- at the peer that was asked, the counter would have to move
    by_contra hne
    have hqne : q.equals info.peer ≠ true := fun hc => hne (equals_iff.2 (equals_iff.1 hc).symm)
    have hlimit := hex info.peer
    rw [peerLimit_decrementPeerLimitCounter _ q info.peer (fun hc => absurd hc hqne),
      if_neg hqne, outstanding, requested_decrementPeerLimitCounter, ← outstanding,
      outstanding_dropRequested hget, if_pos (equals_iff.2 rfl)] at hlimit
    have hbefore : (t.dropRequested id info).peerLimit info.peer = t.outstanding info.peer :=
      h info.peer
    omega
  · intro heq
    have hpos : t.peerLimit q ≠ 0 := by
      have hinfo := outstanding_pos hget
      have hsame : t.peerLimit q = t.peerLimit info.peer := by
        rw [peerLimit, peerLimit, equals_iff.1 heq]
      rw [hsame, h info.peer]
      omega
    rw [exact_iff_slack] at h ⊢
    intro p
    have hiff : info.peer.equals p = q.equals p := by
      simp [ConnectedPeer.equals, equals_iff.1 heq]
    rw [slack_drop hget hpos, h p, hiff]
    omega

theorem exact_setRequestedOne {t : DeliveryTracker Address ModifierId} (h : PeerLimitsExact t)
    (id : ModifierId) (typeId : ModifierTypeId) (supplier : ConnectedPeer Address)
    (checksDone : ℤ) : PeerLimitsExact (t.setRequestedOne id typeId supplier checksDone) := by
  have hpos : ∀ info, t.requested.get? id = some info → t.peerLimit info.peer ≠ 0 := by
    intro info hget
    have := outstanding_pos hget
    rw [h info.peer]
    omega
  rw [exact_iff_slack] at h ⊢
  intro p
  rw [slack_setRequestedOne hpos, h p]

theorem exact_setRequested (ids : List ModifierId) (typeId : ModifierTypeId)
    (cp : ConnectedPeer Address) {t : DeliveryTracker Address ModifierId}
    (h : PeerLimitsExact t) : PeerLimitsExact (t.setRequested ids typeId cp) := by
  unfold setRequested
  induction ids generalizing t with
  | nil => exact h
  | cons id ids ih => exact ih (exact_setRequestedOne h id typeId cp 0)

/-! ### The operations -/

/-- Clearing a status keeps the accounting, whatever status the caller passes. -/
theorem exact_clearStatusForModifier {settings : TrackerSettings}
    {t t' : DeliveryTracker Address ModifierId} (h : PeerLimitsExact t) {id : ModifierId}
    {oldStatus : ModifiersStatus} {now : ℤ}
    (hok : t.clearStatusForModifier settings id oldStatus now = .ok t') : PeerLimitsExact t' := by
  unfold clearStatusForModifier at hok
  split at hok
  · split at hok
    · cases hok
    · rename_i info hget
      cases hok
      exact (exact_drop_iff h hget info.peer).2 (equals_iff.2 rfl)
  · split at hok
    · cases hok
      exact h
    · cases hok
      exact (PeerLimitsExact.congr (by simp) (by simp)).2 h
  · cases hok
    exact h

theorem exact_setCleared {settings : TrackerSettings} {t : DeliveryTracker Address ModifierId}
    (h : PeerLimitsExact t) (id : ModifierId) (newStatus : ModifiersStatus) (now : ℤ) :
    PeerLimitsExact (t.setCleared settings id newStatus now) := by
  unfold setCleared
  split
  · split
    · rename_i hok
      exact exact_clearStatusForModifier h hok
    · exact h
  · exact h

theorem exact_setInvalid {settings : TrackerSettings} {t : DeliveryTracker Address ModifierId}
    (h : PeerLimitsExact t) (id : ModifierId) (now : ℤ) :
    PeerLimitsExact (t.setInvalid settings id now).2 := by
  unfold setInvalid
  split
  · split
    · split
      · exact h
      · rename_i info hget
        exact (PeerLimitsExact.congr rfl rfl).1
          ((exact_drop_iff h hget info.peer).2 (equals_iff.2 rfl))
    · split
      · exact h
      · exact (PeerLimitsExact.congr (by simp) (by simp)).2 h
    · exact h
  · exact h

theorem exact_onStillWaiting {settings : TrackerSettings}
    {t : DeliveryTracker Address ModifierId} (h : PeerLimitsExact t) (cp : ConnectedPeer Address)
    (typeId : ModifierTypeId) (id : ModifierId) (now : ℤ) :
    PeerLimitsExact (t.onStillWaiting settings cp typeId id now).2 := by
  unfold onStillWaiting
  split
  · exact h
  · simp only
    split
    · exact exact_setRequestedOne (exact_setCleared h id .unknown now) id typeId cp _
    · exact exact_setCleared h id .unknown now

/-- `setReceived` charges the sender: exact just when the sender was asked. -/
theorem exact_setReceived_iff {t : DeliveryTracker Address ModifierId} (h : PeerLimitsExact t)
    (id : ModifierId) (sender : ConnectedPeer Address) (now : ℤ) :
    PeerLimitsExact (t.setReceived id sender now)
      ↔ SenderMatches t (.setReceived id sender now) := by
  unfold setReceived
  by_cases hst : t.status id = .requested
  · rw [hst, if_pos (by decide), if_pos (by decide)]
    split
    · rename_i hget
      refine iff_of_true h fun info _ hinfo => ?_
      rw [hget] at hinfo
      cases hinfo
    · rename_i info hget
      have hmatch : SenderMatches t (.setReceived id sender now)
          ↔ info.peer.equals sender = true := by
        constructor
        · intro hs
          exact hs info hst hget
        · intro heq info' _ hinfo
          rw [hget] at hinfo
          cases hinfo
          exact heq
      rw [hmatch, ← exact_drop_iff h hget sender]
      exact PeerLimitsExact.congr rfl rfl
  · refine iff_of_true ?_ fun _ hreq _ => absurd hreq hst
    -- from any other status the call is refused or does nothing
    have hcases : isCorrectTransition (t.status id) .received = false
        ∨ t.status id = .received := by
      revert hst
      cases t.status id <;> decide
    rcases hcases with hno | hrec
    · rw [hno, if_neg Bool.false_ne_true]
      exact h
    · rw [hrec, if_pos (by decide), if_neg (by simp)]
      exact h

/-- From an exact state, a call leads to an exact state just when it meets
`SenderMatches`. -/
theorem exact_exec_iff {settings : TrackerSettings} {t : DeliveryTracker Address ModifierId}
    (h : PeerLimitsExact t) (c : TrackerCall Address ModifierId) :
    PeerLimitsExact (t.exec settings c) ↔ SenderMatches t c := by
  cases c with
  | setReceived id sender now => exact exact_setReceived_iff h id sender now
  | setRequested ids typeId cp =>
      exact iff_of_true (exact_setRequested ids typeId cp h) trivial
  | setInvalid id now => exact iff_of_true (exact_setInvalid h id now) trivial
  | setHeld id now => exact iff_of_true (exact_setCleared h id .held now) trivial
  | setUnknown id now => exact iff_of_true (exact_setCleared h id .unknown now) trivial
  | onStillWaiting cp typeId id now =>
      exact iff_of_true (exact_onStillWaiting h cp typeId id now) trivial
  | clearStatusForModifier id oldStatus now =>
      refine iff_of_true ?_ trivial
      simp only [exec]
      split
      · rename_i hok
        exact exact_clearStatusForModifier h hok
      · exact h

omit [DecidableEq ModifierId] in
theorem exact_empty : PeerLimitsExact (empty : DeliveryTracker Address ModifierId) := by
  intro p
  rfl

/-! ## The accounting over whole runs -/

/-- **Exact quotas.**  In every state reached by calls that receive modifiers only
from the peers they were requested from, each counter is the number of the
peer's outstanding requests and `getPeerLimit` is the rest of its quota; and the
next call keeps it so just when it meets that condition. -/
theorem peerLimits_exact (settings : TrackerSettings) {t : DeliveryTracker Address ModifierId}
    (h : Reachable settings SenderMatches t) :
    (∀ p : ConnectedPeer Address, t.peerLimit p = (t.outstanding p : ℤ)
      ∧ t.getPeerLimit settings p = settings.maxRequestedPerPeer - (t.outstanding p : ℤ))
    ∧ ∀ c, CallerOk t c → (PeerLimitsExact (t.exec settings c) ↔ SenderMatches t c) := by
  have hex : PeerLimitsExact t := by
    induction h with
    | empty => exact exact_empty
    | step c _ _ hok ih => exact (exact_exec_iff ih c).2 hok
  refine ⟨fun p => ⟨hex p, ?_⟩, fun c _ => exact_exec_iff hex c⟩
  rw [getPeerLimit, hex p]

/-! ### Two peers, one modifier -/

/-- The settings with which the tests build a tracker. -/
def specSettings : TrackerSettings where
  maxDeliveryChecks := 2
  maxRequestedPerPeer := 3
  slowModeFeatureFlag := true
  slowModeThresholdMs := 100
  slowModeMaxRequested := 0
  averageProcessingTime := fun average _ => average
  rebroadcastEnabled := false
  rebroadcastQueueSize := 0
  rebroadcastBatchSize := 0

/-- An outgoing connection to the host numbered `n`. -/
def peerAt (n : ℕ) : ConnectedPeer ℕ := ⟨⟨n, 0, .outgoing⟩⟩

/-- Modifier `7` is requested from peer `1` and delivered by peer `1`: the hypotheses
of `peerLimits_exact` hold, and the whole quota is free again. -/
theorem received_from_asked_peer :
    (((empty : DeliveryTracker ℕ ℕ).exec specSettings (.setRequested [7] 101 (peerAt 1))).exec
        specSettings (.setReceived 7 (peerAt 1) 0)).getPeerLimit specSettings (peerAt 1)
      = 3 - ((((empty : DeliveryTracker ℕ ℕ).exec specSettings
        (.setRequested [7] 101 (peerAt 1))).exec specSettings
          (.setReceived 7 (peerAt 1) 0)).outstanding (peerAt 1) : ℤ) := by
  have hreach : Reachable specSettings SenderMatches
      (((empty : DeliveryTracker ℕ ℕ).exec specSettings (.setRequested [7] 101 (peerAt 1))).exec
        specSettings (.setReceived 7 (peerAt 1) 0)) := by
    refine .step _ (.step _ .empty trivial trivial) trivial ?_
    intro info _ hget
    have : (((empty : DeliveryTracker ℕ ℕ).exec specSettings
        (.setRequested [7] 101 (peerAt 1))).requested.get? 7) = some ⟨peerAt 1, 0, 0⟩ := by decide
    rw [this] at hget
    cases hget
    decide
  exact ((peerLimits_exact specSettings hreach).1 (peerAt 1)).2

/-- Modifier `7` is requested from peer `1` and delivered by peer `2`: nothing is
outstanding any more, but the counter of peer `1` stays at one and with it a
third of its quota is lost. -/
theorem received_from_other_peer :
    ∃ t : DeliveryTracker ℕ ℕ, Reachable specSettings (fun _ _ => True) t
      ∧ t.outstanding (peerAt 1) = 0 ∧ t.peerLimit (peerAt 1) = 1
      ∧ t.getPeerLimit specSettings (peerAt 1) = 2 := by
  refine ⟨((empty : DeliveryTracker ℕ ℕ).exec specSettings (.setRequested [7] 101 (peerAt 1))).exec
    specSettings (.setReceived 7 (peerAt 2) 0),
    .step _ (.step _ .empty trivial trivial) trivial trivial, ?_, ?_, ?_⟩ <;> decide

end DeliveryTracker

end Sparkz.Network
