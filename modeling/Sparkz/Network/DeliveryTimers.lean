import Sparkz.Network.SynchronizerCalls

/-!
# One delivery timer per requested modifier

When a modifier is requested, the tracker leaves a `CheckDelivery` message with the
scheduler and keeps the handle of its timer, so that it can cancel it when the
modifier comes.  A request for a modifier that is requested already overwrites the
handle and leaves the first timer running; `processInv` makes such a request when
an inventory lists an unknown id twice.

* `liveTimers` — the live `CheckDelivery` timers of an id; `TimerWaiting` — the
  timer of its present request has fired and its message is not handled yet.
* `DistinctRequests` — the condition: an inventory makes the synchronizer ask for
  each id once.
* `TimersExact` — the invariant: the live delivery timers are those whose handles
  `requested` keeps, and a handle whose timer is not live is in the mailbox.
* `one_timer_per_request` — the number of timers over every run that keeps to the
  condition.
* `repeated_id_leaves_two_timers` — a run that breaks it.
-/

namespace Sparkz.Network

open Sparkz.Lib

variable {Address ModifierId TX PMOD : Type} [DecidableEq Address] [DecidableEq ModifierId]

/-- The message asks about the modifier `id`. -/
def ScheduledMessage.isCheckOf (id : ModifierId) : ScheduledMessage Address ModifierId → Bool
  | .checkDelivery _ _ id' => id' = id
  | .transactionRebroadcast => false

namespace DeliveryTracker

/-- The scheduled, not yet fired and not cancelled `CheckDelivery` timers of `id`. -/
def liveTimers (t : DeliveryTracker Address ModifierId) (id : ModifierId) : ℕ :=
  t.timers.countV (ScheduledMessage.isCheckOf id)

/-- An inventory makes the synchronizer ask for each id once. -/
def DistinctRequests : CallGuard Address ModifierId
  | _, .setRequested ids _ _ => ids.Nodup
  | _, _ => True

/-- Timers, handles and mailbox agree. -/
structure TimersExact (mailbox : List (TimerId × ScheduledMessage Address ModifierId))
    (t : DeliveryTracker Address ModifierId) : Prop where
  exclusive : MarksExclusive t
  /-- Timers are named in the order in which they are scheduled. -/
  fresh : ∀ k m, t.timers.get? k = some m → k < t.nextTimer
  fired : ∀ k m, (k, m) ∈ mailbox → k < t.nextTimer ∧ t.timers.get? k = none
  /-- The handle of the rebroadcast timer is no handle of a delivery timer. -/
  rebroadcast : ∀ k, t.transactionRebroadcastEvent = some k →
    k < t.nextTimer ∧ ∀ m, t.timers.get? k = some m → m = .transactionRebroadcast
  /-- A live delivery timer is the one of the present request for its id. -/
  live : ∀ k m id, t.timers.get? k = some m → m.isCheckOf id = true →
    ∃ info, t.requested.get? id = some info ∧ info.cancellable = k
  /-- The timer of a request is live or its message is in the mailbox. -/
  own : ∀ id info, t.requested.get? id = some info →
    (∃ m, t.timers.get? info.cancellable = some m ∧ m.isCheckOf id = true)
      ∨ ∃ m, (info.cancellable, m) ∈ mailbox ∧ m.isCheckOf id = true

variable {mailbox : List (TimerId × ScheduledMessage Address ModifierId)}
variable {t t' : DeliveryTracker Address ModifierId}

/-! ## The scheduler's part of the state -/

/-- The timers, the next name and the handle of the rebroadcast timer. -/
def scheduler (t : DeliveryTracker Address ModifierId) :
    LinkedMap TimerId (ScheduledMessage Address ModifierId) × TimerId × Option TimerId :=
  (t.timers, t.nextTimer, t.transactionRebroadcastEvent)

section

omit [DecidableEq ModifierId]

@[simp] theorem scheduler_incrementPeerLimitCounter (t : DeliveryTracker Address ModifierId)
    (q : ConnectedPeer Address) : (t.incrementPeerLimitCounter q).scheduler = t.scheduler := by
  unfold incrementPeerLimitCounter
  split <;> rfl

@[simp] theorem scheduler_decrementPeerLimitCounter (t : DeliveryTracker Address ModifierId)
    (q : ConnectedPeer Address) : (t.decrementPeerLimitCounter q).scheduler = t.scheduler := by
  unfold decrementPeerLimitCounter
  split
  · split <;> rfl
  · rfl

end

theorem scheduler_setRequestedOne {id : ModifierId}
    (h : isCorrectTransition (t.status id) .requested = true) (typeId : ModifierTypeId)
    (supplier : ConnectedPeer Address) (checksDone : ℤ) :
    (t.setRequestedOne id typeId supplier checksDone).scheduler
      = (t.timers.put t.nextTimer (.checkDelivery supplier typeId id), t.nextTimer + 1,
          t.transactionRebroadcastEvent) := by
  rw [DeliveryTracker.setRequestedOne, if_pos h]
  simp only [scheduleOnce]
  split
  · split
    · rfl
    · rw [scheduler_incrementPeerLimitCounter, scheduler_decrementPeerLimitCounter]
      rfl
  · rw [scheduler_incrementPeerLimitCounter]
    rfl

theorem timers_setRequestedOne {id : ModifierId}
    (h : isCorrectTransition (t.status id) .requested = true) (typeId : ModifierTypeId)
    (supplier : ConnectedPeer Address) (checksDone : ℤ) :
    (t.setRequestedOne id typeId supplier checksDone).timers
      = t.timers.put t.nextTimer (.checkDelivery supplier typeId id) :=
  congrArg Prod.fst (scheduler_setRequestedOne h typeId supplier checksDone)

section

omit [DecidableEq Address]

/-- The invariant looks at the requests and the scheduler only. -/
theorem TimersExact.congr (h : TimersExact mailbox t) (hex : MarksExclusive t')
    (hreq : t'.requested = t.requested) (hsched : t'.scheduler = t.scheduler) :
    TimersExact mailbox t' := by
  simp only [scheduler, Prod.mk.injEq] at hsched
  obtain ⟨htim, hnext, hreb⟩ := hsched
  constructor
  · exact hex
  · rw [htim, hnext]
    exact h.fresh
  · rw [htim, hnext]
    exact h.fired
  · rw [htim, hnext, hreb]
    exact h.rebroadcast
  · rw [htim, hreq]
    exact h.live
  · rw [htim, hreq]
    exact h.own

theorem isCheckOf_inj {m : ScheduledMessage Address ModifierId} {id id' : ModifierId}
    (h : m.isCheckOf id = true) (h' : m.isCheckOf id' = true) : id = id' := by
  cases m with
  | checkDelivery peer typeId i =>
    simp only [ScheduledMessage.isCheckOf, decide_eq_true_eq] at h h'
    rw [← h, ← h']
  | transactionRebroadcast => cases h

end

/-! ## Single operations -/

omit [DecidableEq Address] in
/-- An entry leaves and its timer is cancelled. -/
theorem TimersExact.dropRequested (h : TimersExact mailbox t) {id : ModifierId}
    {info : RequestedInfo Address} (hget : t.requested.get? id = some info) :
    TimersExact mailbox (t.dropRequested id info) where
  exclusive := (touches_dropRequested t id info).marksExclusive h.exclusive
  fresh k m hk := by
    simp only [DeliveryTracker.dropRequested, cancel, LinkedMap.get?_remove] at hk
    split at hk
    · cases hk
    · exact h.fresh k m hk
  fired k m hmem := by
    have := h.fired k m hmem
    refine ⟨this.1, ?_⟩
    simp only [DeliveryTracker.dropRequested, cancel, LinkedMap.get?_remove, this.2, ite_self]
  rebroadcast k hk := by
    have := h.rebroadcast k hk
    refine ⟨this.1, fun m hm => ?_⟩
    simp only [DeliveryTracker.dropRequested, cancel, LinkedMap.get?_remove] at hm
    split at hm
    · cases hm
    · exact this.2 m hm
  live k m id' hk hm := by
    simp only [DeliveryTracker.dropRequested, cancel, LinkedMap.get?_remove] at hk ⊢
    split at hk
    · cases hk
    · rename_i hne
      obtain ⟨info', hget', hcan⟩ := h.live k m id' hk hm
      refine ⟨info', ?_, hcan⟩
      rw [if_neg ?_]
      · exact hget'
      · rintro rfl
        rw [hget] at hget'
        cases hget'
        exact hne hcan.symm
  own id' info' hget' := by
    simp only [DeliveryTracker.dropRequested, cancel, LinkedMap.get?_remove] at hget' ⊢
    split at hget'
    · cases hget'
    · rename_i hne
      rcases h.own id' info' hget' with ⟨m, hm, hof⟩ | hmail
      · refine .inl ⟨m, ?_, hof⟩
        rw [if_neg ?_]
        · exact hm
        · -- the cancelled timer is live for `id`, or it has fired
          intro hsame
          rcases h.own id info hget with ⟨m', hm', hof'⟩ | ⟨m', hmem, _⟩
          · rw [hsame, hm'] at hm
            cases hm
            exact hne (isCheckOf_inj hof hof')
          · rw [hsame, (h.fired _ _ hmem).2] at hm
            cases hm
      · exact .inr hmail

/-- A timer is started under a new name for a modifier that is not requested. -/
theorem TimersExact.setRequestedOne (h : TimersExact mailbox t) {id : ModifierId}
    (hget : t.requested.get? id = none) (typeId : ModifierTypeId)
    (supplier : ConnectedPeer Address) (checksDone : ℤ) :
    TimersExact mailbox (t.setRequestedOne id typeId supplier checksDone) := by
  by_cases hcorrect : isCorrectTransition (t.status id) .requested = true
  swap
  · rw [DeliveryTracker.setRequestedOne, if_neg hcorrect]
    exact h
  have hex := (touches_setRequestedOne t id typeId supplier checksDone).marksExclusive h.exclusive
  have hreq := requested_setRequestedOne hcorrect typeId supplier checksDone
  have hsched := scheduler_setRequestedOne hcorrect typeId supplier checksDone
  generalize t.setRequestedOne id typeId supplier checksDone = t' at hex hreq hsched
  simp only [scheduler, Prod.mk.injEq] at hsched
  obtain ⟨htim, hnext, hreb⟩ := hsched
  constructor
  case exclusive => exact hex
  case fresh =>
    intro k m hk
    rw [htim, LinkedMap.get?_put] at hk
    rw [hnext]
    split at hk
    · rename_i heq
      rw [heq]
      exact Nat.lt_succ_self _
    · exact Nat.lt_succ_of_lt (h.fresh k m hk)
  case fired =>
    intro k m hmem
    have hk := h.fired k m hmem
    rw [htim, hnext, LinkedMap.get?_put, if_neg (Nat.ne_of_lt hk.1)]
    exact ⟨Nat.lt_succ_of_lt hk.1, hk.2⟩
  case rebroadcast =>
    intro k hk
    rw [hreb] at hk
    have hold := h.rebroadcast k hk
    rw [htim, hnext, LinkedMap.get?_put, if_neg (Nat.ne_of_lt hold.1)]
    exact ⟨Nat.lt_succ_of_lt hold.1, hold.2⟩
  case live =>
    intro k m id' hk hm
    rw [htim, LinkedMap.get?_put] at hk
    rw [hreq, LinkedMap.get?_put]
    split at hk
    · rename_i heq
      cases hk
      have hid : id = id' := by simpa [ScheduledMessage.isCheckOf] using hm
      exact ⟨⟨supplier, t.nextTimer, checksDone⟩, if_pos hid.symm, heq.symm⟩
    · obtain ⟨info, hinfo, hcan⟩ := h.live k m id' hk hm
      refine ⟨info, ?_, hcan⟩
      rw [if_neg ?_]
      · exact hinfo
      · rintro rfl
        rw [hget] at hinfo
        cases hinfo
  case own =>
    intro id' info hinfo
    rw [hreq, LinkedMap.get?_put] at hinfo
    rw [htim]
    split at hinfo
    · rename_i heq
      cases hinfo
      refine .inl ⟨.checkDelivery supplier typeId id, ?_, ?_⟩
      · rw [LinkedMap.get?_put, if_pos rfl]
      · simp [ScheduledMessage.isCheckOf, heq]
    · rcases h.own id' info hinfo with ⟨m, hm, hof⟩ | hmail
      · refine .inl ⟨m, ?_, hof⟩
        rw [LinkedMap.get?_put, if_neg (Nat.ne_of_lt (h.fresh _ m hm))]
        exact hm
      · exact .inr hmail

section

omit [DecidableEq Address]

/-- A timer that is not a delivery timer is cancelled. -/
theorem TimersExact.cancel (h : TimersExact mailbox t) {k : TimerId}
    (hk : ∀ m, t.timers.get? k = some m → m = .transactionRebroadcast) :
    TimersExact mailbox (t.cancel k) := by
  have hkeep : ∀ k' m, (t.timers.remove k).get? k' = some m → t.timers.get? k' = some m := by
    intro k' m hk'
    rw [LinkedMap.get?_remove] at hk'
    split at hk'
    · cases hk'
    · exact hk'
  constructor
  case exclusive => exact h.exclusive
  case fresh => exact fun k' m hk' => h.fresh k' m (hkeep k' m hk')
  case fired =>
    intro k' m hmem
    have hold := h.fired k' m hmem
    refine ⟨hold.1, ?_⟩
    show (t.timers.remove k).get? k' = none
    rw [LinkedMap.get?_remove, hold.2, ite_self]
  case rebroadcast =>
    intro k' hk'
    have hold := h.rebroadcast k' hk'
    exact ⟨hold.1, fun m hm => hold.2 m (hkeep k' m hm)⟩
  case live => exact fun k' m id hk' hm => h.live k' m id (hkeep k' m hk') hm
  case own =>
    intro id info hinfo
    rcases h.own id info hinfo with ⟨m, hm, hof⟩ | hmail
    · refine .inl ⟨m, ?_, hof⟩
      show (t.timers.remove k).get? info.cancellable = some m
      rw [LinkedMap.get?_remove, if_neg ?_]
      · exact hm
      · intro hsame
        rw [hsame] at hm
        rw [hk m hm] at hof
        cases hof
    · exact .inr hmail

/-- The rebroadcast timer is started under a new name. -/
theorem TimersExact.scheduleRebroadcast (h : TimersExact mailbox t) :
    TimersExact mailbox { t.scheduleOnce .transactionRebroadcast with
      transactionRebroadcastEvent := some t.nextTimer } := by
  constructor
  case exclusive => exact h.exclusive
  case fresh =>
    intro k m hk
    simp only [scheduleOnce, LinkedMap.get?_put] at hk ⊢
    split at hk
    · rename_i heq
      rw [heq]
      exact Nat.lt_succ_self _
    · exact Nat.lt_succ_of_lt (h.fresh k m hk)
  case fired =>
    intro k m hmem
    have hold := h.fired k m hmem
    simp only [scheduleOnce, LinkedMap.get?_put, if_neg (Nat.ne_of_lt hold.1)]
    exact ⟨Nat.lt_succ_of_lt hold.1, hold.2⟩
  case rebroadcast =>
    intro k hk
    cases hk
    refine ⟨Nat.lt_succ_self _, fun m hm => ?_⟩
    simp only [scheduleOnce, LinkedMap.get?_put, if_true, Option.some.injEq] at hm
    exact hm.symm
  case live =>
    intro k m id hk hm
    simp only [scheduleOnce, LinkedMap.get?_put] at hk
    split at hk
    · cases hk
      cases hm
    · exact h.live k m id hk hm
  case own =>
    intro id info hinfo
    rcases h.own id info hinfo with ⟨m, hm, hof⟩ | hmail
    · refine .inl ⟨m, ?_, hof⟩
      simp only [scheduleOnce, LinkedMap.get?_put]
      rw [if_neg (Nat.ne_of_lt (h.fresh _ m hm))]
      exact hm
    · exact .inr hmail

end

omit [DecidableEq Address] in
theorem TimersExact.scheduleRebroadcastIfNeeded (h : TimersExact mailbox t)
    (settings : TrackerSettings) :
    TimersExact mailbox (t.scheduleRebroadcastIfNeeded settings) := by
  unfold DeliveryTracker.scheduleRebroadcastIfNeeded
  split
  · simp only
    cases hevent : t.transactionRebroadcastEvent with
    | none => exact h.scheduleRebroadcast
    | some k => exact (h.cancel (h.rebroadcast k hevent).2).scheduleRebroadcast
  · exact h

omit [DecidableEq Address] in
theorem TimersExact.updateProcessingTime (h : TimersExact mailbox t) (settings : TrackerSettings)
    (startTime now : ℤ) :
    TimersExact mailbox (t.updateProcessingTime settings startTime now) := by
  simp only [DeliveryTracker.updateProcessingTime]
  split
  · split
    · exact h.congr h.exclusive rfl rfl
    · split
      · refine TimersExact.scheduleRebroadcastIfNeeded ?_ settings
        exact h.congr h.exclusive rfl rfl
      · exact h.congr h.exclusive rfl rfl
  · exact h

/-! ## Calls -/

/-- An entry leaves, its timer is cancelled and some counter goes down. -/
theorem TimersExact.drop (h : TimersExact mailbox t) {id : ModifierId}
    {info : RequestedInfo Address} (hget : t.requested.get? id = some info)
    (q : ConnectedPeer Address) :
    TimersExact mailbox ((t.dropRequested id info).decrementPeerLimitCounter q) := by
  have hdrop := h.dropRequested hget
  refine hdrop.congr ?_ (by simp) (by simp)
  exact (touches_decrementPeerLimitCounter [] _ q).marksExclusive hdrop.exclusive

omit [DecidableEq Address] in
theorem TimersExact.dropReceived (h : TimersExact mailbox t) (settings : TrackerSettings)
    (id : ModifierId) (timestamp now : ℤ) :
    TimersExact mailbox ({ t with received := t.received.remove id }.updateProcessingTime settings
      timestamp now) := by
  have hdrop : TimersExact mailbox { t with received := t.received.remove id } :=
    h.congr ((touches_dropReceived t id).marksExclusive h.exclusive) rfl rfl
  exact hdrop.updateProcessingTime settings timestamp now

theorem TimersExact.clearStatusForModifier {settings : TrackerSettings} (h : TimersExact mailbox t)
    {id : ModifierId} {oldStatus : ModifiersStatus} {now : ℤ}
    (hok : t.clearStatusForModifier settings id oldStatus now = .ok t') :
    TimersExact mailbox t' := by
  unfold DeliveryTracker.clearStatusForModifier at hok
  split at hok
  · split at hok
    · cases hok
    · rename_i info hget
      cases hok
      exact h.drop hget info.peer
  · split at hok
    · cases hok
      exact h
    · cases hok
      exact h.dropReceived settings id _ now
  · cases hok
    exact h

theorem TimersExact.setCleared (h : TimersExact mailbox t) (settings : TrackerSettings)
    (id : ModifierId) (newStatus : ModifiersStatus) (now : ℤ) :
    TimersExact mailbox (t.setCleared settings id newStatus now) := by
  unfold DeliveryTracker.setCleared
  split
  · split
    · rename_i hok
      exact h.clearStatusForModifier hok
    · exact h
  · exact h

theorem TimersExact.setInvalid (h : TimersExact mailbox t) (settings : TrackerSettings)
    (id : ModifierId) (now : ℤ) : TimersExact mailbox (t.setInvalid settings id now).2 := by
  have hex := (touches_setInvalid settings h.exclusive id now).marksExclusive h.exclusive
  revert hex
  unfold DeliveryTracker.setInvalid
  split
  · split
    · split
      · intro _
        exact h
      · rename_i info hget
        intro hex
        exact (h.drop hget info.peer).congr hex rfl rfl
    · split
      · intro hex
        exact h.congr hex rfl rfl
      · intro hex
        exact (h.dropReceived settings id _ now).congr hex rfl rfl
    · intro hex
      exact h.congr hex rfl rfl
  · intro _
    exact h

theorem TimersExact.setReceived (h : TimersExact mailbox t) (id : ModifierId)
    (sender : ConnectedPeer Address) (now : ℤ) :
    TimersExact mailbox (t.setReceived id sender now) := by
  have hex := (touches_setReceived h.exclusive id sender now).marksExclusive h.exclusive
  revert hex
  unfold DeliveryTracker.setReceived
  split
  · split
    · split
      · intro _
        exact h
      · rename_i info hget
        intro hex
        exact (h.drop hget sender).congr hex rfl rfl
    · intro _
      exact h
  · intro _
    exact h

/-- After a retry the modifier is forgotten or has a new live timer. -/
theorem TimersExact.onStillWaiting (h : TimersExact mailbox t) (settings : TrackerSettings)
    (cp : ConnectedPeer Address) (typeId : ModifierTypeId) (id : ModifierId) (now : ℤ) :
    TimersExact mailbox (t.onStillWaiting settings cp typeId id now).2 := by
  unfold DeliveryTracker.onStillWaiting
  split
  · exact h
  · rename_i info hget
    have hunknown := h.setCleared settings id .unknown now
    have hnone : (t.setUnknown settings id now).requested.get? id = none := by
      rw [setUnknown_requested settings h.exclusive hget, requested_decrementPeerLimitCounter,
        requested_dropRequested, LinkedMap.get?_remove, if_pos rfl]
    simp only
    split
    · exact TimersExact.setRequestedOne hunknown hnone typeId cp _
    · exact hunknown

/-- Distinct ids that are not requested are asked for. -/
theorem TimersExact.setRequested (typeId : ModifierTypeId) (cp : ConnectedPeer Address)
    (ids : List ModifierId) (hnd : ids.Nodup) (h : TimersExact mailbox t)
    (hget : ∀ id ∈ ids, t.requested.get? id = none) :
    TimersExact mailbox (t.setRequested ids typeId cp) := by
  unfold DeliveryTracker.setRequested
  induction ids generalizing t with
  | nil => exact h
  | cons id ids ih =>
    rw [List.nodup_cons] at hnd
    rw [List.foldl_cons]
    refine ih hnd.2 (h.setRequestedOne (hget id (by simp)) typeId cp 0) ?_
    intro id' hid'
    have hne : id' ≠ id := fun heq => hnd.1 (heq ▸ hid')
    have hold := hget id' (List.mem_cons_of_mem _ hid')
    by_cases hcorrect : isCorrectTransition (t.status id) .requested = true
    · rw [requested_setRequestedOne hcorrect, LinkedMap.get?_put, if_neg hne]
      exact hold
    · rw [DeliveryTracker.setRequestedOne, if_neg hcorrect]
      exact hold

theorem TimersExact.exec (h : TimersExact mailbox t) (settings : TrackerSettings)
    (c : TrackerCall Address ModifierId) (hc : ¬ c.IsRequest) :
    TimersExact mailbox (t.exec settings c) := by
  cases c with
  | setRequested ids typeId cp => exact absurd trivial hc
  | setReceived id sender now => exact h.setReceived id sender now
  | setInvalid id now => exact h.setInvalid settings id now
  | setHeld id now => exact h.setCleared settings id .held now
  | setUnknown id now => exact h.setCleared settings id .unknown now
  | onStillWaiting cp typeId id now => exact h.onStillWaiting settings cp typeId id now
  | clearStatusForModifier id oldStatus now =>
    simp only [DeliveryTracker.exec]
    split
    · rename_i hok
      exact h.clearStatusForModifier hok
    · exact h

theorem TimersExact.calls {settings : TrackerSettings} {ok : CallGuard Address ModifierId}
    (h : TimersExact mailbox t) (hcalls : Calls settings ok t t') : TimersExact mailbox t' := by
  refine Reaches.invariant (I := TimersExact mailbox) ?_ h hcalls
  intro t c ht hc
  have hex := (touches_perform settings ht.exclusive c).marksExclusive ht.exclusive
  cases c with
  | tracker c => exact ht.exec settings c hc.2
  | putInRebroadcastQueue id =>
    revert hex
    simp only [perform, putInRebroadcastQueue]
    split
    · intro hex
      exact ht.congr hex rfl rfl
    · intro _
      exact ht
  | getRebroadcastModifiers => exact ht.congr hex rfl rfl
  | scheduleRebroadcastIfNeeded => exact ht.scheduleRebroadcastIfNeeded settings
  | setSlowMode slowMode => exact ht.congr hex rfl rfl

omit [DecidableEq Address] in
theorem TimersExact.empty :
    TimersExact [] (DeliveryTracker.empty : DeliveryTracker Address ModifierId) where
  exclusive := marksExclusive_empty
  fresh _ _ h := by cases h
  fired _ _ h := absurd h List.not_mem_nil
  rebroadcast _ h := by cases h
  live _ _ _ h := by cases h
  own _ _ h := by cases h

/-! ## Timers that fire -/

section

omit [DecidableEq Address]

/-- A timer fires: it is no longer live and its message waits. -/
theorem TimersExact.fire (h : TimersExact mailbox t) {k : TimerId}
    {m : ScheduledMessage Address ModifierId} (hk : t.timers.get? k = some m) :
    TimersExact (mailbox ++ [(k, m)]) (t.cancel k) := by
  have hkeep : ∀ k' m', (t.timers.remove k).get? k' = some m' → t.timers.get? k' = some m' := by
    intro k' m' hk'
    rw [LinkedMap.get?_remove] at hk'
    split at hk'
    · cases hk'
    · exact hk'
  constructor
  case exclusive => exact h.exclusive
  case fresh => exact fun k' m' hk' => h.fresh k' m' (hkeep k' m' hk')
  case fired =>
    intro k' m' hmem
    show k' < t.nextTimer ∧ (t.timers.remove k).get? k' = none
    rw [LinkedMap.get?_remove]
    rcases List.mem_append.1 hmem with hmem | hmem
    · have hold := h.fired k' m' hmem
      rw [hold.2, ite_self]
      exact ⟨hold.1, rfl⟩
    · cases List.mem_singleton.1 hmem
      exact ⟨h.fresh k m hk, if_pos rfl⟩
  case rebroadcast =>
    intro k' hk'
    have hold := h.rebroadcast k' hk'
    exact ⟨hold.1, fun m' hm' => hold.2 m' (hkeep k' m' hm')⟩
  case live => exact fun k' m' id hk' hm' => h.live k' m' id (hkeep k' m' hk') hm'
  case own =>
    intro id info hinfo
    rcases h.own id info hinfo with ⟨m', hm', hof⟩ | ⟨m', hmem, hof⟩
    · by_cases hsame : info.cancellable = k
      · rw [hsame, hk] at hm'
        cases hm'
        exact .inr ⟨m, by simp [hsame], hof⟩
      · refine .inl ⟨m', ?_, hof⟩
        show (t.timers.remove k).get? info.cancellable = some m'
        rw [LinkedMap.get?_remove, if_neg hsame]
        exact hm'
    · exact .inr ⟨m', List.mem_append_left _ hmem, hof⟩

/-- The oldest message is handled; its modifier is forgotten or has a live timer. -/
theorem TimersExact.tail {e : TimerId × ScheduledMessage Address ModifierId}
    (h : TimersExact (e :: mailbox) t)
    (hown : ∀ id info, e.2.isCheckOf id = true → t.requested.get? id = some info →
      ∃ m, t.timers.get? info.cancellable = some m ∧ m.isCheckOf id = true) :
    TimersExact mailbox t where
  exclusive := h.exclusive
  fresh := h.fresh
  fired k m hmem := h.fired k m (List.mem_cons_of_mem _ hmem)
  rebroadcast := h.rebroadcast
  live := h.live
  own id info hinfo := by
    rcases h.own id info hinfo with hlive | ⟨m, hmem, hof⟩
    · exact .inl hlive
    · rcases List.mem_cons.1 hmem with rfl | hmem
      · exact .inl (hown id info hof hinfo)
      · exact .inr ⟨m, hmem, hof⟩

end

/-- After a retry the modifier is forgotten or has a live timer. -/
theorem onStillWaiting_own (settings : TrackerSettings) (hex : MarksExclusive t)
    (cp : ConnectedPeer Address) (typeId : ModifierTypeId) (id : ModifierId) (now : ℤ)
    {info : RequestedInfo Address}
    (hinfo : (t.onStillWaiting settings cp typeId id now).2.requested.get? id = some info) :
    ∃ m, (t.onStillWaiting settings cp typeId id now).2.timers.get? info.cancellable = some m
      ∧ m.isCheckOf id = true := by
  revert hinfo
  unfold DeliveryTracker.onStillWaiting
  split
  · rename_i hget
    intro hinfo
    rw [hget] at hinfo
    cases hinfo
  · rename_i info₀ hget
    have hnone : (t.setUnknown settings id now).requested.get? id = none := by
      rw [setUnknown_requested settings hex hget, requested_decrementPeerLimitCounter,
        requested_dropRequested, LinkedMap.get?_remove, if_pos rfl]
    simp only
    split
    · intro hinfo
      by_cases hcorrect :
          isCorrectTransition ((t.setUnknown settings id now).status id) .requested = true
      · rw [requested_setRequestedOne hcorrect, LinkedMap.get?_put, if_pos rfl] at hinfo
        cases hinfo
        refine ⟨.checkDelivery cp typeId id, ?_, by simp [ScheduledMessage.isCheckOf]⟩
        simp only
        rw [timers_setRequestedOne hcorrect, LinkedMap.get?_put, if_pos rfl]
      · rw [setRequestedOne, if_neg hcorrect, hnone] at hinfo
        cases hinfo
    · intro hinfo
      rw [hnone] at hinfo
      cases hinfo

/-! ## Counting -/

section

omit [DecidableEq Address]

theorem TimersExact.liveTimers_eq_one (h : TimersExact mailbox t) {id : ModifierId}
    {info : RequestedInfo Address} (hget : t.requested.get? id = some info)
    (hmail : ∀ m, (info.cancellable, m) ∉ mailbox) : t.liveTimers id = 1 := by
  rcases h.own id info hget with ⟨m, hm, hof⟩ | ⟨m, hmem, _⟩
  · refine LinkedMap.countV_eq_one hm hof ?_
    intro k m' hk hof'
    obtain ⟨info', hget', hcan⟩ := h.live k m' id hk hof'
    rw [hget] at hget'
    cases hget'
    exact hcan.symm
  · exact absurd hmem (hmail m)

theorem TimersExact.liveTimers_eq_zero (h : TimersExact mailbox t) {id : ModifierId}
    (hget : t.requested.get? id = none) : t.liveTimers id = 0 := by
  refine LinkedMap.countV_eq_zero ?_
  intro k m hk
  by_contra hof
  obtain ⟨info, hinfo, _⟩ := h.live k m id hk (by simpa using hof)
  rw [hget] at hinfo
  cases hinfo

end

end DeliveryTracker

open DeliveryTracker

namespace Synchronizing

/-- The timer of the present request for `id` has fired and its message waits in the
mailbox. -/
def TimerWaiting (s : Synchronizing Address ModifierId TX PMOD) (id : ModifierId) : Prop :=
  ∃ info ∈ s.tracker.requested.get? id, info.cancellable ∈ s.mailbox.map Prod.fst

/-- One live timer while a modifier is requested and its timer message is not in the
mailbox, none when it is not requested. -/
def OneTimerEach (s : Synchronizing Address ModifierId TX PMOD) : Prop :=
  ∀ id, (s.tracker.status id = .requested → ¬ s.TimerWaiting id → s.tracker.liveTimers id = 1)
    ∧ (s.tracker.status id ≠ .requested → s.tracker.liveTimers id = 0)

theorem get?_newModifierIds {settings : SynchronizerSettings ModifierId TX PMOD}
    {t : DeliveryTracker Address ModifierId} {mempool : MempoolReader ModifierId TX}
    {history : HistoryReader ModifierId PMOD} {typeId : ModifierTypeId} {ids : List ModifierId}
    {peer : ConnectedPeer Address} :
    ∀ id ∈ NodeViewSynchronizer.newModifierIds settings t mempool history typeId ids peer,
      t.requested.get? id = none := by
  have hunknown : ∀ id keepers, t.statusIn id keepers = .unknown → t.requested.get? id = none := by
    intro id keepers h
    by_contra hsome
    have hcon : t.requested.contains id = true := by
      rw [LinkedMap.contains, Option.isSome_iff_ne_none]
      exact hsome
    rw [statusIn, hcon] at h
    split at h
    · cases h
    · simp at h
  intro id hid
  have hmem := List.mem_of_mem_take hid
  split at hmem
  · split at hmem
    · exact hunknown id _ (by simpa using (List.mem_filter.1 hmem).2)
    · exact absurd hmem List.not_mem_nil
  · exact hunknown id _ (by simpa using (List.mem_filter.1 hmem).2)

/-- After `checkDelivery` the modifier is not requested or has a live timer. -/
theorem checkDelivery_own (settings : SynchronizerSettings ModifierId TX PMOD)
    (s : NodeViewSynchronizer Address ModifierId TX PMOD)
    (hex : MarksExclusive s.deliveryTracker) (peer : ConnectedPeer Address)
    (typeId : ModifierTypeId) (id : ModifierId) (now : ModifierId → ℤ)
    {info : RequestedInfo Address}
    (hinfo : (s.checkDelivery settings peer typeId id now).1.deliveryTracker.requested.get? id
      = some info) :
    ∃ m, (s.checkDelivery settings peer typeId id now).1.deliveryTracker.timers.get?
        info.cancellable = some m ∧ m.isCheckOf id = true := by
  revert hinfo
  unfold NodeViewSynchronizer.checkDelivery
  split
  · split
    · intro hinfo
      simp only [NodeViewSynchronizer.deliveryTracker_withTracker, exec,
        clearStatusForModifier] at hinfo
      cases hget : s.deliveryTracker.requested.get? id with
      | none =>
        simp only [hget] at hinfo
        cases hinfo
      | some info₀ =>
        simp only [hget, requested_decrementPeerLimitCounter, requested_dropRequested,
          LinkedMap.get?_remove, if_true] at hinfo
        cases hinfo
    · intro hinfo
      exact onStillWaiting_own settings.tracker hex peer typeId id (now id) hinfo
  · rename_i hst
    intro hinfo
    exact absurd (status_of_get? hex hinfo) hst

/-- One event keeps timers, handles and mailbox in agreement. -/
theorem timersExact_step (settings : SynchronizerSettings ModifierId TX PMOD)
    (s : Synchronizing Address ModifierId TX PMOD) (e : Event Address ModifierId TX PMOD)
    (h : TimersExact s.mailbox s.tracker) (hok : Admits settings DistinctRequests s e) :
    TimersExact (s.step settings e).mailbox (s.step settings e).tracker := by
  have hfree : ∀ t (c : TrackerCall Address ModifierId), c.Routine → DistinctRequests t c := by
    intro t c hc
    cases c with
    | setRequested ids typeId cp => exact absurd hc not_false
    | _ => trivial
  cases e with
  | inv typeId ids peer =>
    show TimersExact s.mailbox
      (s.synchronizer.processInv settings typeId ids peer).1.deliveryTracker
    unfold NodeViewSynchronizer.processInv
    split
    · rename_i mempool history hmempool hhistory
      simp only
      split
      · exact h
      · exact TimersExact.setRequested typeId peer _ (hok mempool hmempool history hhistory) h
          get?_newModifierIds
    · exact h
  | modifiers typeId modifiers remote now =>
    exact h.calls (NodeViewSynchronizer.calls_modifiers _ _ _ _ _ hok)
  | viewHolder event now => exact h.calls (NodeViewSynchronizer.calls_viewHolder hfree _ _ _)
  | fire timer =>
    simp only [step]
    split
    · rename_i message hk
      exact h.fire hk
    · exact h
  | timerMessage now =>
    simp only [step]
    split
    · rename_i timer message mailbox hmail
      rw [hmail] at h
      cases message with
      | checkDelivery peer typeId id =>
        have hcalls : Calls settings.tracker DistinctRequests s.synchronizer.deliveryTracker
            (s.synchronizer.checkDelivery settings peer typeId id now).1.deliveryTracker :=
          NodeViewSynchronizer.calls_checkDelivery hfree s.synchronizer peer typeId id now
            fun _ _ => trivial
        refine (h.calls hcalls).tail ?_
        intro id' info hof hinfo
        have hid : id = id' := by simpa [ScheduledMessage.isCheckOf] using hof
        subst hid
        exact checkDelivery_own settings s.synchronizer h.exclusive peer typeId id now hinfo
      | transactionRebroadcast =>
        have hcalls : Calls settings.tracker DistinctRequests s.synchronizer.deliveryTracker
            (s.synchronizer.transactionRebroadcast settings).1.deliveryTracker :=
          NodeViewSynchronizer.calls_transactionRebroadcast s.synchronizer
        refine (h.calls hcalls).tail ?_
        intro id info hof
        cases hof
    · exact h

/-- **One live timer per request.**  In every run in which no inventory makes the
synchronizer ask twice for an id, a requested modifier whose timer message is not in
the mailbox has one live delivery timer, and a modifier that is not requested has
none. -/
theorem one_timer_per_request (settings : SynchronizerSettings ModifierId TX PMOD)
    {s : Synchronizing Address ModifierId TX PMOD}
    (h : Reaches (step settings) (Admits settings DistinctRequests) empty s) :
    OneTimerEach s := by
  have hexact : TimersExact s.mailbox s.tracker :=
    Reaches.invariant (I := fun s => TimersExact s.mailbox s.tracker)
      (fun s e hs hok => timersExact_step settings s e hs hok) TimersExact.empty h
  intro id
  constructor
  · intro hst hwait
    obtain ⟨info, hget⟩ := Option.isSome_iff_exists.1 (status_eq_requested_iff.1 hst).1
    refine hexact.liveTimers_eq_one hget ?_
    intro m hmem
    exact hwait ⟨info, hget, List.mem_map.2 ⟨_, hmem, rfl⟩⟩
  · intro hst
    refine hexact.liveTimers_eq_zero ?_
    by_contra hsome
    obtain ⟨info, hget⟩ := Option.ne_none_iff_exists'.1 hsome
    exact hst (status_of_get? hexact.exclusive hget)

/-! ### An inventory that names a block twice -/

/-- The readers are ready and peer `1` announces two blocks; the timer of the first
fires. -/
def twoAnnounced : Synchronizing ℕ ℕ ℕ ℕ :=
  ((readersReady.foldl (step (numberSettings 2)) empty).step (numberSettings 2)
    (.inv 101 [7, 8] (peerAt 1))).step (numberSettings 2) (.fire 0)

/-- Two blocks announced once each: a run that keeps to the condition, up to the
handling of the first timer message. -/
theorem one_timer_per_request_twoAnnounced :
    OneTimerEach (twoAnnounced.step (numberSettings 2) (.timerMessage fun _ => 0)) := by
  refine one_timer_per_request (numberSettings 2) ?_
  refine .step _ (.step (Event.fire 0) (.step (Event.inv 101 [7, 8] (peerAt 1))
    (Reaches.foldl _ admits_readersReady) ?_) trivial) ?_
  · intro mempool hmempool history hhistory
    cases hmempool
    cases hhistory
    show List.Nodup _
    decide
  · intro timer peer typeId id _ _ _
    trivial

/-- Block `7` listed twice in one inventory: it is requested, no timer message waits,
and two timers are live. -/
theorem repeated_id_leaves_two_timers :
    ∃ s : Synchronizing ℕ ℕ ℕ ℕ, Reaches (step (numberSettings 2)) (fun _ _ => True) empty s
      ∧ ¬ OneTimerEach s := by
  refine ⟨(readersReady ++ [Event.inv 101 [7, 7] (peerAt 1)]).foldl (step (numberSettings 2)) empty,
    Reaches.foldl _ fun _ _ _ => trivial, ?_⟩
  intro hone
  have hlive := (hone 7).1 (by decide) (by rintro ⟨info, _, hmem⟩; cases hmem)
  revert hlive
  decide

end Synchronizing

end Sparkz.Network
