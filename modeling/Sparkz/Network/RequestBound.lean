import Sparkz.Network.SynchronizerCalls

/-!
# How much is asked of one peer

`processInv` asks a peer for no more modifiers than its quota has left.  The quota
is read off a counter that other handlers move, and a retry asks again without
reading it, so the bound on what is asked of one peer is not automatic.

* `requestedFrom` — the modifiers in status `Requested` that a peer is asked for.
* `QuotaKept` — the condition on single calls: a delivery by a peer that was not
  asked does not push the counter of the deliverer below what it is asked for, and
  a retry goes to the peer that is asked already or to one below its limit.
* `QuotaCovers` — the invariant: counters never lag behind, and the bound holds.
* `requests_bounded` — the bound over every run that keeps to the condition.
* `requests_exceed_quota` — a run of the synchronizer that breaks it.
-/

namespace Sparkz.Network

open Sparkz.Lib

variable {Address ModifierId TX PMOD : Type} [DecidableEq Address] [DecidableEq ModifierId]

namespace DeliveryTracker

/-- The number of modifier ids in status `Requested` whose requested peer is `p`. -/
def requestedFrom (t : DeliveryTracker Address ModifierId) (p : ConnectedPeer Address) : ℕ :=
  t.requested.entries.countP fun e => t.status e.1 = .requested && e.2.peer.equals p

/-- The condition on single calls. -/
def QuotaKept (settings : TrackerSettings) : CallGuard Address ModifierId
  | t, .setReceived id sender _ =>
      ∀ info, t.status id = .requested → t.requested.get? id = some info →
        info.peer.equals sender = true
          ∨ t.peerLimits.get? sender.connectionId.remoteAddress = none
          ∨ (t.outstanding sender : ℤ) < t.peerLimit sender
  | t, .onStillWaiting cp _ id _ =>
      ∀ info, t.requested.get? id = some info → info.checks + 1 < settings.maxDeliveryChecks →
        info.peer.equals cp = true ∨ (t.outstanding cp : ℤ) < settings.maxRequestedPerPeer
  | _, _ => True

/-- No id has two marks, no counter lags behind what its peer is asked for, and no
peer is asked for more than the limit. -/
structure QuotaCovers (settings : TrackerSettings) (t : DeliveryTracker Address ModifierId) :
    Prop where
  exclusive : MarksExclusive t
  covered : ∀ p, 0 ≤ t.slack p
  bounded : ∀ p, (t.outstanding p : ℤ) ≤ settings.maxRequestedPerPeer

/-- When no id has two marks, every entry of `requested` has the status `Requested`. -/
theorem requestedFrom_eq_outstanding {t : DeliveryTracker Address ModifierId}
    (hex : MarksExclusive t) (p : ConnectedPeer Address) :
    t.requestedFrom p = t.outstanding p := by
  unfold requestedFrom outstanding LinkedMap.countV
  refine List.countP_congr ?_
  intro e he
  have hget : t.requested.get? e.1 = some e.2 := LinkedMap.get?_of_mem_entries he
  simp [status_of_get? hex hget]

/-- The invariant depends on the collections and the counters only. -/
theorem QuotaCovers.congr {settings : TrackerSettings} {t t' : DeliveryTracker Address ModifierId}
    (h : QuotaCovers settings t) (hex : MarksExclusive t') (hreq : t'.requested = t.requested)
    (hlim : t'.peerLimits = t.peerLimits) : QuotaCovers settings t' where
  exclusive := hex
  covered p := by
    have := h.covered p
    simpa only [slack, peerLimit, outstanding, hreq, hlim] using this
  bounded p := by
    have := h.bounded p
    simpa only [outstanding, hreq] using this

/-! ## Entries that leave -/

theorem QuotaCovers.limit_ne_zero {settings : TrackerSettings}
    {t : DeliveryTracker Address ModifierId} (h : QuotaCovers settings t) {id : ModifierId}
    {info : RequestedInfo Address} (hget : t.requested.get? id = some info) :
    t.peerLimit info.peer ≠ 0 := by
  have hpos := outstanding_pos hget
  have hcov := h.covered info.peer
  rw [slack] at hcov
  omega

/-- A requested id is dropped and the counter of `q` goes down, where `q` was asked
for the id, or has no counter, or has one to spare. -/
theorem QuotaCovers.drop {settings : TrackerSettings} {t : DeliveryTracker Address ModifierId}
    (h : QuotaCovers settings t) {id : ModifierId} {info : RequestedInfo Address}
    (hget : t.requested.get? id = some info) {q : ConnectedPeer Address}
    (hq : info.peer.equals q = true
      ∨ t.peerLimits.get? q.connectionId.remoteAddress = none
      ∨ (t.outstanding q : ℤ) < t.peerLimit q) :
    QuotaCovers settings ((t.dropRequested id info).decrementPeerLimitCounter q) where
  exclusive := ((touches_dropRequested t id info).trans
    (touches_decrementPeerLimitCounter _ _ q)).marksExclusive h.exclusive
  covered p := by
    have hp := h.covered p
    by_cases hnone : t.peerLimits.get? q.connectionId.remoteAddress = none
    · have hsame : (t.dropRequested id info).decrementPeerLimitCounter q
          = t.dropRequested id info := by
        have : (t.dropRequested id info).peerLimits.get? q.connectionId.remoteAddress = none :=
          hnone
        rw [decrementPeerLimitCounter, this]
      have hlimit : (t.dropRequested id info).peerLimit p = t.peerLimit p := rfl
      rw [hsame, slack, hlimit, outstanding_dropRequested hget]
      rw [slack] at hp
      split <;> omega
    · rcases hq with heq | hno | hlt
      · have hiff : info.peer.equals p = q.equals p := by
          simp [ConnectedPeer.equals, equals_iff.1 heq]
        have hne : t.peerLimit q ≠ 0 := by
          have hsame : t.peerLimit q = t.peerLimit info.peer := by
            rw [peerLimit, peerLimit, equals_iff.1 heq]
          rw [hsame]
          exact h.limit_ne_zero hget
        rw [slack_drop hget hne, hiff]
        omega
      · exact absurd hno hnone
      · have hne : t.peerLimit q ≠ 0 := by omega
        rw [slack_drop hget hne]
        by_cases hqp : q.equals p = true
        · -- the peer that loses one had one to spare
          have hsame : t.slack p = t.slack q := by
            have hadd := equals_iff.1 hqp
            simp only [slack, peerLimit, outstanding, ConnectedPeer.equals, hadd]
          rw [hsame, slack, if_pos hqp]
          split <;> omega
        · rw [if_neg hqp]
          split <;> omega
  bounded p := by
    have hp := h.bounded p
    rw [outstanding, requested_decrementPeerLimitCounter, ← outstanding,
      outstanding_dropRequested hget]
    split <;> omega

theorem QuotaCovers.clearStatusForModifier {settings : TrackerSettings}
    {t t' : DeliveryTracker Address ModifierId} (h : QuotaCovers settings t) {id : ModifierId}
    {oldStatus : ModifiersStatus} {now : ℤ}
    (hok : t.clearStatusForModifier settings id oldStatus now = .ok t') :
    QuotaCovers settings t' := by
  have hex := (touches_clearStatusForModifier hok).marksExclusive h.exclusive
  unfold DeliveryTracker.clearStatusForModifier at hok
  split at hok
  · split at hok
    · cases hok
    · rename_i info hget
      cases hok
      exact h.drop hget (.inl (equals_iff.2 rfl))
  · split at hok
    · cases hok
      exact h
    · cases hok
      exact h.congr hex (by simp) (by simp)
  · cases hok
    exact h

theorem QuotaCovers.setCleared {settings : TrackerSettings}
    {t : DeliveryTracker Address ModifierId} (h : QuotaCovers settings t) (id : ModifierId)
    (newStatus : ModifiersStatus) (now : ℤ) :
    QuotaCovers settings (t.setCleared settings id newStatus now) := by
  unfold DeliveryTracker.setCleared
  split
  · split
    · rename_i hok
      exact h.clearStatusForModifier hok
    · exact h
  · exact h

theorem QuotaCovers.setInvalid {settings : TrackerSettings}
    {t : DeliveryTracker Address ModifierId} (h : QuotaCovers settings t) (id : ModifierId)
    (now : ℤ) : QuotaCovers settings (t.setInvalid settings id now).2 := by
  have hex := (touches_setInvalid settings h.exclusive id now).marksExclusive h.exclusive
  revert hex
  unfold DeliveryTracker.setInvalid
  split
  · split
    · split
      · intro _
        exact h
      · rename_i info hget
        intro hex
        exact (h.drop hget (.inl (equals_iff.2 rfl))).congr hex rfl rfl
    · split
      · intro hex
        exact h.congr hex rfl rfl
      · intro hex
        exact h.congr hex (by simp) (by simp)
    · intro hex
      exact h.congr hex rfl rfl
  · intro _
    exact h

theorem QuotaCovers.setReceived {settings : TrackerSettings}
    {t : DeliveryTracker Address ModifierId} (h : QuotaCovers settings t) (id : ModifierId)
    (sender : ConnectedPeer Address) (now : ℤ)
    (hkept : QuotaKept settings t (.setReceived id sender now)) :
    QuotaCovers settings (t.setReceived id sender now) := by
  have hex := (touches_setReceived h.exclusive id sender now).marksExclusive h.exclusive
  revert hex
  unfold DeliveryTracker.setReceived
  split
  · rename_i hcorrect
    split
    · rename_i hne
      split
      · intro _
        exact h
      · rename_i info hget
        intro hex
        have hst : t.status id = .requested := by
          revert hcorrect hne
          cases t.status id <;> decide
        exact (h.drop hget (hkept info hst hget)).congr hex rfl rfl
    · intro _
      exact h
  · intro _
    exact h

/-! ## Entries that enter -/

theorem outstanding_setRequestedOne_le (t : DeliveryTracker Address ModifierId)
    (id : ModifierId) (typeId : ModifierTypeId) (supplier : ConnectedPeer Address)
    (checksDone : ℤ) (p : ConnectedPeer Address) :
    (t.setRequestedOne id typeId supplier checksDone).outstanding p
      ≤ t.outstanding p + (if supplier.equals p then 1 else 0) := by
  by_cases h : isCorrectTransition (t.status id) .requested = true
  · rw [outstanding, requested_setRequestedOne h]
    cases hget : t.requested.get? id with
    | none =>
      rw [LinkedMap.countV_put_none _ hget, outstanding]
    | some info =>
      have hput := LinkedMap.countV_put_some (⟨supplier, t.nextTimer, checksDone⟩ :
        RequestedInfo Address) hget fun info => info.peer.equals p
      simp only [outstanding] at hput ⊢
      omega
  · rw [setRequestedOne, if_neg h]
    omega

/-- One more id is asked of a peer that is below its limit. -/
theorem QuotaCovers.setRequestedOne {settings : TrackerSettings}
    {t : DeliveryTracker Address ModifierId} (h : QuotaCovers settings t) (id : ModifierId)
    (typeId : ModifierTypeId) (supplier : ConnectedPeer Address) (checksDone : ℤ)
    (hroom : (t.outstanding supplier : ℤ) < settings.maxRequestedPerPeer) :
    QuotaCovers settings (t.setRequestedOne id typeId supplier checksDone) where
  exclusive := (touches_setRequestedOne t id typeId supplier checksDone).marksExclusive h.exclusive
  covered p := by
    rw [slack_setRequestedOne fun info hget => h.limit_ne_zero hget]
    exact h.covered p
  bounded p := by
    have hle := outstanding_setRequestedOne_le t id typeId supplier checksDone p
    have hp := h.bounded p
    by_cases hsp : supplier.equals p = true
    · have hsame : t.outstanding p = t.outstanding supplier := by
        simp only [outstanding, ConnectedPeer.equals, equals_iff.1 hsp]
      rw [if_pos hsp, hsame] at hle
      omega
    · rw [if_neg hsp] at hle
      omega

/-- A list that fits into what is left of the quota is asked for. -/
theorem QuotaCovers.setRequested {settings : TrackerSettings} (typeId : ModifierTypeId)
    (cp : ConnectedPeer Address) (ids : List ModifierId)
    {t : DeliveryTracker Address ModifierId} (h : QuotaCovers settings t)
    (hroom : (t.outstanding cp : ℤ) + ids.length ≤ settings.maxRequestedPerPeer) :
    QuotaCovers settings (t.setRequested ids typeId cp) := by
  unfold DeliveryTracker.setRequested
  induction ids generalizing t with
  | nil => exact h
  | cons id ids ih =>
    rw [List.length_cons] at hroom
    push_cast at hroom
    have hle := outstanding_setRequestedOne_le t id typeId cp 0 cp
    rw [if_pos (equals_iff.2 rfl)] at hle
    rw [List.foldl_cons]
    refine ih (h.setRequestedOne id typeId cp 0 ?_) ?_
    · omega
    · omega

theorem QuotaCovers.onStillWaiting {settings : TrackerSettings}
    {t : DeliveryTracker Address ModifierId} (h : QuotaCovers settings t)
    (cp : ConnectedPeer Address) (typeId : ModifierTypeId) (id : ModifierId) (now : ℤ)
    (hkept : QuotaKept settings t (.onStillWaiting cp typeId id now)) :
    QuotaCovers settings (t.onStillWaiting settings cp typeId id now).2 := by
  unfold DeliveryTracker.onStillWaiting
  split
  · exact h
  · rename_i info hget
    have hunknown := h.setCleared id .unknown now
    simp only
    split
    · rename_i hchecks
      refine QuotaCovers.setRequestedOne hunknown id typeId cp _ ?_
      show ((t.setUnknown settings id now).outstanding cp : ℤ) < settings.maxRequestedPerPeer
      rw [setUnknown_requested settings h.exclusive hget, outstanding,
        requested_decrementPeerLimitCounter, ← outstanding, outstanding_dropRequested hget]
      have hcp := h.bounded cp
      rcases hkept info hget hchecks with heq | hlt
      · rw [if_pos heq]
        omega
      · split <;> omega
    · exact hunknown

/-! ## Calls and runs -/

/-- A call other than `setRequested` that meets the condition keeps the invariant. -/
theorem QuotaCovers.exec {settings : TrackerSettings} {t : DeliveryTracker Address ModifierId}
    (h : QuotaCovers settings t) (c : TrackerCall Address ModifierId)
    (hkept : QuotaKept settings t c) (hc : ¬ c.IsRequest) :
    QuotaCovers settings (t.exec settings c) := by
  cases c with
  | setRequested ids typeId cp => exact absurd trivial hc
  | setReceived id sender now => exact h.setReceived id sender now hkept
  | setInvalid id now => exact h.setInvalid id now
  | setHeld id now => exact h.setCleared id .held now
  | setUnknown id now => exact h.setCleared id .unknown now
  | onStillWaiting cp typeId id now => exact h.onStillWaiting cp typeId id now hkept
  | clearStatusForModifier id oldStatus now =>
    simp only [DeliveryTracker.exec]
    split
    · rename_i hok
      exact h.clearStatusForModifier hok
    · exact h

omit [DecidableEq Address] [DecidableEq ModifierId] in
theorem peerLimits_putInRebroadcastQueue (settings : TrackerSettings)
    (t : DeliveryTracker Address ModifierId) (id : ModifierId) :
    (t.putInRebroadcastQueue settings id).requested = t.requested
      ∧ (t.putInRebroadcastQueue settings id).peerLimits = t.peerLimits := by
  unfold putInRebroadcastQueue
  split
  · exact ⟨rfl, rfl⟩
  · exact ⟨rfl, rfl⟩

theorem QuotaCovers.calls {settings : TrackerSettings} {t t' : DeliveryTracker Address ModifierId}
    (h : QuotaCovers settings t) (hcalls : Calls settings (QuotaKept settings) t t') :
    QuotaCovers settings t' := by
  refine Reaches.invariant (I := QuotaCovers settings) ?_ h hcalls
  intro t c ht hc
  have hex := (touches_perform settings ht.exclusive c).marksExclusive ht.exclusive
  cases c with
  | tracker c => exact ht.exec c hc.1 hc.2
  | putInRebroadcastQueue id =>
    have hsame := peerLimits_putInRebroadcastQueue settings t id
    exact ht.congr hex hsame.1 hsame.2
  | getRebroadcastModifiers => exact ht.congr hex rfl rfl
  | scheduleRebroadcastIfNeeded =>
    exact ht.congr hex (requested_scheduleRebroadcastIfNeeded settings t)
      (peerLimits_scheduleRebroadcastIfNeeded settings t)
  | setSlowMode slowMode => exact ht.congr hex rfl rfl

theorem QuotaCovers.empty {settings : TrackerSettings}
    (hmax : 0 ≤ settings.maxRequestedPerPeer) :
    QuotaCovers settings (DeliveryTracker.empty : DeliveryTracker Address ModifierId) where
  exclusive := marksExclusive_empty
  covered _ := le_refl 0
  bounded _ := hmax

theorem quotaKept_of_routine (settings : TrackerSettings) (t : DeliveryTracker Address ModifierId)
    (c : TrackerCall Address ModifierId) (h : c.Routine) : QuotaKept settings t c := by
  cases c with
  | setReceived id sender now => exact absurd h not_false
  | onStillWaiting cp typeId id now => exact absurd h not_false
  | _ => trivial

end DeliveryTracker

open DeliveryTracker

namespace Synchronizing

/-- `processInv` asks for no more than what is left of the quota. -/
theorem length_newModifierIds_le (settings : SynchronizerSettings ModifierId TX PMOD)
    (t : DeliveryTracker Address ModifierId) (mempool : MempoolReader ModifierId TX)
    (history : HistoryReader ModifierId PMOD) (typeId : ModifierTypeId) (ids : List ModifierId)
    (peer : ConnectedPeer Address) :
    (NodeViewSynchronizer.newModifierIds settings t mempool history typeId ids peer).length
      ≤ (t.getPeerLimit settings.tracker peer).toNat := by
  rw [NodeViewSynchronizer.newModifierIds, List.length_take]
  exact min_le_left _ _

theorem quotaCovers_inv (settings : SynchronizerSettings ModifierId TX PMOD)
    (s : NodeViewSynchronizer Address ModifierId TX PMOD)
    (h : QuotaCovers settings.tracker s.deliveryTracker) (typeId : ModifierTypeId)
    (ids : List ModifierId) (peer : ConnectedPeer Address) :
    QuotaCovers settings.tracker (s.processInv settings typeId ids peer).1.deliveryTracker := by
  unfold NodeViewSynchronizer.processInv
  split
  · rename_i mempool history _ _
    simp only
    split
    · exact h
    · refine QuotaCovers.setRequested typeId peer _ h ?_
      have hlen := length_newModifierIds_le settings s.deliveryTracker mempool history typeId ids
        peer
      have hcov := h.covered peer
      have hbound := h.bounded peer
      rw [getPeerLimit] at hlen
      rw [slack] at hcov
      omega
  · exact h

/-- One event keeps the invariant. -/
theorem quotaCovers_step (settings : SynchronizerSettings ModifierId TX PMOD)
    (s : Synchronizing Address ModifierId TX PMOD) (e : Event Address ModifierId TX PMOD)
    (h : QuotaCovers settings.tracker s.tracker)
    (hok : Admits settings (QuotaKept settings.tracker) s e) :
    QuotaCovers settings.tracker (s.step settings e).tracker := by
  have hroutine : ∀ t (c : TrackerCall Address ModifierId), c.Routine →
      QuotaKept settings.tracker t c := quotaKept_of_routine settings.tracker
  cases e with
  | inv typeId ids peer => exact quotaCovers_inv settings s.synchronizer h typeId ids peer
  | modifiers typeId modifiers remote now =>
    exact h.calls (NodeViewSynchronizer.calls_modifiers _ _ _ _ _ hok)
  | viewHolder event now => exact h.calls (NodeViewSynchronizer.calls_viewHolder hroutine _ _ _)
  | fire timer =>
    simp only [step]
    split
    · exact h.congr h.exclusive rfl rfl
    · exact h
  | timerMessage now =>
    simp only [step]
    split
    · rename_i timer message mailbox hmail
      cases message with
      | checkDelivery peer typeId id =>
        refine h.calls (NodeViewSynchronizer.calls_checkDelivery hroutine _ _ _ _ _ ?_)
        exact hok timer peer typeId id (by rw [hmail]; rfl)
      | transactionRebroadcast =>
        exact h.calls (NodeViewSynchronizer.calls_transactionRebroadcast _)
    · exact h

/-- **Bounded requests.**  In every run whose deliveries and retries keep to
`QuotaKept`, no peer is ever asked for more than `maxRequestedPerPeer` modifiers. -/
theorem requests_bounded (settings : SynchronizerSettings ModifierId TX PMOD)
    (hmax : 0 ≤ settings.tracker.maxRequestedPerPeer) {s : Synchronizing Address ModifierId TX PMOD}
    (h : Reaches (step settings) (Admits settings (QuotaKept settings.tracker)) empty s)
    (p : ConnectedPeer Address) :
    (s.tracker.requestedFrom p : ℤ) ≤ settings.tracker.maxRequestedPerPeer := by
  have hcov : QuotaCovers settings.tracker s.tracker :=
    Reaches.invariant (I := fun s => QuotaCovers settings.tracker s.tracker)
      (fun s e hs hok => quotaCovers_step settings s e hs hok) (QuotaCovers.empty hmax) h
  rw [requestedFrom_eq_outstanding hcov.exclusive]
  exact hcov.bounded p

/-! ### Two peers with a quota of one -/

/-- Peer `1` is asked for block `7` and the delivery timer fires. -/
def firedTimer : Synchronizing ℕ ℕ ℕ ℕ :=
  ((readersReady.foldl (step (numberSettings 1)) empty).step (numberSettings 1)
    (.inv 101 [7] (peerAt 1))).step (numberSettings 1) (.fire 0)

/-- Peer `1` is asked for block `7`, asked again when the timer has fired, and then
delivers it: a run that keeps to the condition. -/
theorem requests_bounded_retry :
    (((firedTimer.step (numberSettings 1) (.timerMessage fun _ => 0)).step (numberSettings 1)
      (.modifiers 101 [(7, [7])] (peerAt 1) fun _ => 0)).tracker.requestedFrom (peerAt 1) : ℤ)
      ≤ 1 := by
  refine requests_bounded (numberSettings 1) (by decide) ?_ (peerAt 1)
  have hfired : Reaches (step (numberSettings 1))
      (Admits (numberSettings 1) (QuotaKept (numberSettings 1).tracker)) empty firedTimer :=
    .step (Event.fire 0) (.step (Event.inv 101 [7] (peerAt 1))
      (Reaches.foldl _ admits_readersReady) fun _ _ _ _ => trivial) trivial
  refine .step _ (.step _ hfired ?_) ?_
  · intro timer peer typeId id hhead _ _ info hget _
    have hmail : firedTimer.mailbox.head? = some (0, .checkDelivery (peerAt 1) 101 7) := by decide
    have hasked : firedTimer.tracker.requested.get? 7 = some ⟨peerAt 1, 0, 0⟩ := by decide
    rw [hmail] at hhead
    cases hhead
    rw [hasked] at hget
    cases hget
    exact .inl (by decide)
  · refine ⟨?_, trivial⟩
    intro info _ hget
    have hasked : (firedTimer.step (numberSettings 1)
        (.timerMessage fun _ => 0)).tracker.requested.get? 7 = some ⟨peerAt 1, 1, 1⟩ := by decide
    have hinfo : info = ⟨peerAt 1, 1, 1⟩ := Option.some.inj (hget.symm.trans hasked)
    rw [hinfo]
    exact .inl (by decide)

/-- Peer `2`, asked for block `1`, delivers block `7`, for which peer `1` is asked;
its counter is free again and its next inventory is asked for as well. -/
def otherPeerDelivers : List (Event ℕ ℕ ℕ ℕ) :=
  readersReady ++ [.inv 101 [1] (peerAt 2), .inv 101 [7] (peerAt 1),
    .modifiers 101 [(7, [7])] (peerAt 2) fun _ => 0, .inv 101 [3] (peerAt 2)]

/-- The timer of block `7`, for which peer `1` is asked, fires before the block
comes; the block is dropped from the cache and peer `2` is asked for it, peer `1`
for block `3`.  Then the message of the old timer makes peer `1` be asked again. -/
def lateTimer : List (Event ℕ ℕ ℕ ℕ) :=
  readersReady ++ [.inv 101 [7] (peerAt 1), .fire 0,
    .modifiers 101 [(7, [7])] (peerAt 1) fun _ => 0,
    .viewHolder (.modifiersProcessingResult [] [7]) fun _ => 0,
    .inv 101 [7] (peerAt 2), .inv 101 [3] (peerAt 1), .timerMessage fun _ => 0]

/-- Two runs after which a peer with a quota of one is asked for two modifiers. -/
theorem requests_exceed_quota :
    (∃ s : Synchronizing ℕ ℕ ℕ ℕ, Reaches (step (numberSettings 1)) (fun _ _ => True) empty s
      ∧ (numberSettings 1).tracker.maxRequestedPerPeer < s.tracker.requestedFrom (peerAt 2))
    ∧ ∃ s : Synchronizing ℕ ℕ ℕ ℕ, Reaches (step (numberSettings 1)) (fun _ _ => True) empty s
      ∧ (numberSettings 1).tracker.maxRequestedPerPeer < s.tracker.requestedFrom (peerAt 1) := by
  refine ⟨⟨otherPeerDelivers.foldl (step (numberSettings 1)) empty, ?_, ?_⟩,
    ⟨lateTimer.foldl (step (numberSettings 1)) empty, ?_, ?_⟩⟩
  · exact Reaches.foldl _ fun _ _ _ => trivial
  · decide
  · exact Reaches.foldl _ fun _ _ _ => trivial
  · decide

end Synchronizing

end Sparkz.Network
