import Sparkz.Network.SynchronizerCalls

/-!
# Received modifiers

Where the entries of `received` come from and where they go.

* `forgets_exec` — only `setReceived` makes a modifier received.
* `received_invalidate`, `received_setCleared` — after `setInvalid`, `setHeld` and
  `setUnknown` the modifier is not received.
* `modifiersFromRemote_received` — **what a peer delivers and becomes received is handed
  over**: it is in the message to the node view holder.
* `viewHolderEvents_clears` — the events that end the waiting for the holder.
-/

namespace Sparkz.Network

open Sparkz.Lib

namespace DeliveryTracker

variable {Address ModifierId : Type} [DecidableEq Address] [DecidableEq ModifierId]

/-- No modifier becomes received. -/
def Forgets (t t' : DeliveryTracker Address ModifierId) : Prop :=
  ∀ id, t'.received.contains id = true → t.received.contains id = true

section

omit [DecidableEq Address]

theorem Forgets.of_eq {t t' : DeliveryTracker Address ModifierId} (h : t'.received = t.received) :
    Forgets t t' := by
  intro id hid
  rwa [h] at hid

theorem Forgets.trans {t t' t'' : DeliveryTracker Address ModifierId} (h : Forgets t t')
    (h' : Forgets t' t'') : Forgets t t'' :=
  fun id hid => h id (h' id hid)

end

/-- `clearStatusForModifier` takes at most one entry out of `received`: that of its
modifier, when the old status is `Received`. -/
theorem received_clearStatusForModifier {settings : TrackerSettings}
    {t t' : DeliveryTracker Address ModifierId} {id : ModifierId} {oldStatus : ModifiersStatus}
    {now : ℤ} (h : t.clearStatusForModifier settings id oldStatus now = .ok t') (id' : ModifierId) :
    t'.received.contains id'
      = if oldStatus = .received ∧ id' = id then false else t.received.contains id' := by
  unfold clearStatusForModifier at h
  split at h
  · split at h
    · cases h
    · cases h
      simp
  · split at h
    · rename_i hget
      cases h
      -- nothing to remove
      by_cases hid : id' = id
      · simp [hid, LinkedMap.contains, hget]
      · simp [hid]
    · cases h
      by_cases hid : id' = id <;> simp [hid, LinkedMap.contains_remove]
  · rename_i hne
    cases h
    rw [if_neg fun hrec => hne hrec.1]

theorem forgets_clearStatusForModifier {settings : TrackerSettings}
    {t t' : DeliveryTracker Address ModifierId} {id : ModifierId} {oldStatus : ModifiersStatus}
    {now : ℤ} (h : t.clearStatusForModifier settings id oldStatus now = .ok t') : Forgets t t' := by
  intro id' hid'
  rw [received_clearStatusForModifier h] at hid'
  split at hid'
  · cases hid'
  · exact hid'

/-- `setHeld` and `setUnknown` never fail on a received modifier, and it is not received
afterwards. -/
theorem received_setCleared (settings : TrackerSettings) (t : DeliveryTracker Address ModifierId)
    (id : ModifierId) {newStatus : ModifiersStatus}
    (hnew : newStatus = .held ∨ newStatus = .unknown) (now : ℤ) :
    (t.setCleared settings id newStatus now).received.contains id = false := by
  by_cases hrec : t.received.contains id = true
  · have hst : t.status id = .received := status_eq_received_iff.2 hrec
    have hcorrect : isCorrectTransition (t.status id) newStatus = true := by
      rcases hnew with rfl | rfl <;> rw [hst] <;> rfl
    rw [setCleared, if_pos hcorrect]
    cases hclear : t.clearStatusForModifier settings id (t.status id) now with
    | ok t' =>
      simp only
      rw [received_clearStatusForModifier hclear, if_pos ⟨hst, rfl⟩]
    | error e =>
      rw [hst] at hclear
      unfold clearStatusForModifier at hclear
      simp only at hclear
      split at hclear <;> cases hclear
  · have hrec : t.received.contains id = false := by simpa using hrec
    unfold setCleared
    split
    · split
      · rename_i hclear
        by_contra hne
        have := forgets_clearStatusForModifier hclear id (by simpa using hne)
        rw [hrec] at this
        cases this
      · exact hrec
    · exact hrec

theorem forgets_setCleared (settings : TrackerSettings) (t : DeliveryTracker Address ModifierId)
    (id : ModifierId) (newStatus : ModifiersStatus) (now : ℤ) :
    Forgets t (t.setCleared settings id newStatus now) := by
  unfold setCleared
  split
  · split
    · exact forgets_clearStatusForModifier ‹_›
    · exact .of_eq rfl
  · exact .of_eq rfl

/-- After `setInvalid` the modifier is not received; the others are if they were. -/
theorem received_setInvalid (settings : TrackerSettings) (t : DeliveryTracker Address ModifierId)
    (id : ModifierId) (now : ℤ) :
    (t.setInvalid settings id now).2.received = t.received.remove id
    ∨ (t.setInvalid settings id now).2.received = t.received ∧ t.received.contains id = false := by
  rw [setInvalid, if_pos (isCorrectTransition_invalid _)]
  by_cases hrec : t.received.contains id = true
  · obtain ⟨⟨peer, timestamp⟩, hget⟩ := Option.isSome_iff_exists.1 hrec
    left
    simp [status_eq_received_iff.2 hrec, hget]
  · have hrec : t.received.contains id = false := by simpa using hrec
    have hst : t.status id ≠ .received := by
      rw [Ne, status_eq_received_iff, hrec]
      simp
    right
    split
    · split <;> simp [hrec]
    · exact absurd ‹_› hst
    · exact ⟨rfl, hrec⟩

theorem not_received_setInvalid (settings : TrackerSettings)
    (t : DeliveryTracker Address ModifierId) (id : ModifierId) (now : ℤ) :
    (t.setInvalid settings id now).2.received.contains id = false := by
  rcases received_setInvalid settings t id now with h | ⟨h, hrec⟩
  · simp [h, LinkedMap.contains_remove]
  · rw [h]
    exact hrec

theorem forgets_setInvalid (settings : TrackerSettings) (t : DeliveryTracker Address ModifierId)
    (id : ModifierId) (now : ℤ) : Forgets t (t.setInvalid settings id now).2 := by
  rcases received_setInvalid settings t id now with h | ⟨h, _⟩
  · intro id' hid'
    rw [h, LinkedMap.contains_remove, Bool.and_eq_true] at hid'
    exact hid'.2
  · exact .of_eq h

theorem forgets_setRequested (ids : List ModifierId) (typeId : ModifierTypeId)
    (cp : ConnectedPeer Address) (t : DeliveryTracker Address ModifierId) :
    Forgets t (t.setRequested ids typeId cp) := by
  unfold setRequested
  induction ids generalizing t with
  | nil => exact .of_eq rfl
  | cons id ids ih =>
    have hone : Forgets t (t.setRequestedOne id typeId cp 0) :=
      .of_eq (received_setRequestedOne t id typeId cp 0)
    exact hone.trans (ih _)

/-- The calls other than `setReceived`. -/
def TrackerCall.Receives : TrackerCall Address ModifierId → Prop
  | .setReceived _ _ _ => True
  | _ => False

/-- Only `setReceived` makes a modifier received. -/
theorem forgets_exec (settings : TrackerSettings) (t : DeliveryTracker Address ModifierId)
    (c : TrackerCall Address ModifierId) (hc : ¬ c.Receives) : Forgets t (t.exec settings c) := by
  cases c with
  | setReceived id sender now => exact absurd trivial hc
  | setRequested ids typeId cp => exact forgets_setRequested ids typeId cp t
  | setInvalid id now => exact forgets_setInvalid settings t id now
  | setHeld id now => exact forgets_setCleared settings t id .held now
  | setUnknown id now => exact forgets_setCleared settings t id .unknown now
  | onStillWaiting cp typeId id now =>
    simp only [exec, onStillWaiting]
    have hcleared := forgets_setCleared settings t id .unknown now
    split
    · exact .of_eq rfl
    · split
      · exact hcleared.trans (.of_eq (received_setRequestedOne _ _ _ _ _))
      · exact hcleared
  | clearStatusForModifier id oldStatus now =>
    simp only [exec]
    split
    · exact forgets_clearStatusForModifier ‹_›
    · exact .of_eq rfl

/-- `setReceived` makes at most its own modifier received. -/
theorem received_setReceived {t : DeliveryTracker Address ModifierId} {id : ModifierId}
    {sender : ConnectedPeer Address} {now : ℤ} {id' : ModifierId}
    (h : (t.setReceived id sender now).received.contains id' = true) :
    id' = id ∨ t.received.contains id' = true := by
  unfold setReceived at h
  split at h
  · split at h
    · split at h
      · exact .inr h
      · simp only [received_decrementPeerLimitCounter, received_dropRequested,
          LinkedMap.contains_put, Bool.or_eq_true, decide_eq_true_eq] at h
        exact h
    · exact .inr h
  · exact .inr h

/-- Calls none of which is a `setReceived` make nothing received. -/
theorem Calls.forgets {settings : TrackerSettings} {t t' : DeliveryTracker Address ModifierId}
    (h : Calls settings (fun _ c => ¬ c.Receives) t t') : Forgets t t' := by
  apply Reaches.invariant (I := Forgets t) _ (.of_eq rfl) h
  intro u c hu hc
  cases c with
  | tracker c => exact hu.trans (forgets_exec settings u c hc.1)
  | putInRebroadcastQueue id =>
    apply hu.trans
    simp only [perform, putInRebroadcastQueue]
    split
    · exact .of_eq rfl
    · exact .of_eq rfl
  | getRebroadcastModifiers => exact hu.trans (.of_eq rfl)
  | scheduleRebroadcastIfNeeded =>
    exact hu.trans (.of_eq (received_scheduleRebroadcastIfNeeded settings u))
  | setSlowMode slowMode => exact hu.trans (.of_eq rfl)

omit [DecidableEq Address] [DecidableEq ModifierId] in
theorem not_receives_of_routine (_ : DeliveryTracker Address ModifierId)
    (c : TrackerCall Address ModifierId) (h : c.Routine) : ¬ c.Receives := by
  cases c <;> simp_all [TrackerCall.Routine, TrackerCall.Receives]

end DeliveryTracker

open DeliveryTracker

namespace NodeViewSynchronizer

variable {Address ModifierId TX PMOD : Type} [DecidableEq Address] [DecidableEq ModifierId]

/-! ## What peers deliver -/

/-- The loop over parsed transactions makes at most their ids received. -/
theorem received_foldl_setReceived {remote : ConnectedPeer Address} {now : ModifierId → ℤ}
    {ids : List ModifierId} {t : DeliveryTracker Address ModifierId} {id : ModifierId}
    (h : (ids.foldl (fun t id => t.setReceived id remote (now id)) t).received.contains id = true) :
    id ∈ ids ∨ t.received.contains id = true := by
  induction ids generalizing t with
  | nil => exact .inr h
  | cons id' ids ih =>
    rcases ih h with hmem | hrec
    · exact .inl (List.mem_cons_of_mem _ hmem)
    · rcases received_setReceived hrec with rfl | hrec
      · exact .inl List.mem_cons_self
      · exact .inr hrec

/-- The validation makes a modifier received only when it also passes it on. -/
theorem received_validateAndSetStatus {settings : SynchronizerSettings ModifierId TX PMOD}
    {s : NodeViewSynchronizer Address ModifierId TX PMOD} {remote : ConnectedPeer Address}
    {pmod : PMOD} {now : ModifierId → ℤ} {id : ModifierId}
    (h : (s.validateAndSetStatus settings remote pmod now).2.1.deliveryTracker.received.contains id
      = true) :
    (s.validateAndSetStatus settings remote pmod now).1 = true ∧ id = settings.pmodId pmod
    ∨ s.deliveryTracker.received.contains id = true := by
  unfold validateAndSetStatus at h ⊢
  simp only at h ⊢
  split at h
  · exact .inr (forgets_setInvalid _ _ _ _ id h)
  · rename_i hparent
    rw [if_neg hparent]
    split at h
    · rename_i hr _
      split at h
      · exact .inr (forgets_setInvalid _ _ _ _ id h)
      · rcases received_setReceived h with rfl | hrec
        · exact .inl ⟨rfl, rfl⟩
        · exact .inr hrec
    · rcases received_setReceived h with rfl | hrec
      · exact .inl ⟨rfl, rfl⟩
      · exact .inr hrec

theorem received_validateAll {settings : SynchronizerSettings ModifierId TX PMOD}
    {remote : ConnectedPeer Address} {now : ModifierId → ℤ} {pmods : List PMOD}
    {s : NodeViewSynchronizer Address ModifierId TX PMOD} {id : ModifierId}
    (h : (validateAll settings remote now s pmods).2.1.deliveryTracker.received.contains id
      = true) :
    (∃ pmod ∈ (validateAll settings remote now s pmods).1, settings.pmodId pmod = id)
    ∨ s.deliveryTracker.received.contains id = true := by
  induction pmods generalizing s with
  | nil => exact .inr h
  | cons pmod pmods ih =>
    rcases ih h with ⟨m, hm, hid⟩ | hrec
    · refine .inl ⟨m, ?_, hid⟩
      simp only [validateAll]
      split
      · exact List.mem_cons_of_mem _ hm
      · exact hm
    · rcases received_validateAndSetStatus hrec with ⟨hok, rfl⟩ | hrec
      · refine .inl ⟨pmod, ?_, rfl⟩
        simp [validateAll, hok]
      · exact .inr hrec

/-- The modifier with the id is in a message to the node view holder. -/
def HandedOver (settings : SynchronizerSettings ModifierId TX PMOD) (id : ModifierId) :
    Sent Address ModifierId TX PMOD → Prop
  | .transactionsFromRemote txs => ∃ tx ∈ txs, settings.txId tx = id
  | .modifiersFromRemote pmods => ∃ pmod ∈ pmods, settings.pmodId pmod = id
  | _ => False

/-- **What a peer delivers and becomes received is handed over** to the node view
holder. -/
theorem modifiersFromRemote_received {settings : SynchronizerSettings ModifierId TX PMOD}
    {s : NodeViewSynchronizer Address ModifierId TX PMOD} {typeId : ModifierTypeId}
    {modifiers : List (ModifierId × List UInt8)} {remote : ConnectedPeer Address}
    {now : ModifierId → ℤ} {id : ModifierId}
    (h : (s.modifiersFromRemote settings typeId modifiers
      remote now).1.deliveryTracker.received.contains id = true) :
    (∃ sent ∈ (s.modifiersFromRemote settings typeId modifiers remote now).2,
      HandedOver settings id sent)
    ∨ s.deliveryTracker.received.contains id = true := by
  unfold modifiersFromRemote at h ⊢
  simp only at h ⊢
  by_cases htx : typeId = transactionTypeId
  · simp only [htx, if_true] at h ⊢
    cases hser : settings.transactionSerializer with
    | none =>
      simp only [hser] at h
      exact .inr h
    | some serializer =>
      simp only [hser] at h ⊢
      rcases received_foldl_setReceived h with hmem | hrec
      · obtain ⟨tx, htx', hid⟩ := List.mem_map.1 hmem
        exact .inl ⟨.transactionsFromRemote _, by simp, tx, htx', hid⟩
      · exact .inr hrec
  · simp only [htx, if_false] at h ⊢
    cases hser : settings.modifierSerializers typeId with
    | none =>
      simp only [hser] at h
      exact .inr h
    | some serializer =>
      simp only [hser] at h ⊢
      rcases received_validateAll h with ⟨pmod, hpmod, hid⟩ | hrec
      · refine .inl ⟨.modifiersFromRemote _, List.mem_append_right _ ?_, pmod, hpmod, hid⟩
        rw [if_neg (by simpa using List.ne_nil_of_mem hpmod)]
        exact List.mem_singleton_self _
      · exact .inr hrec

/-! ## What the holder reports -/

/-- The events of the holder after which the synchronizer does not wait for it with
this modifier any more. -/
inductive Clears (settings : SynchronizerSettings ModifierId TX PMOD) (id : ModifierId) :
    ViewHolderEvent ModifierId TX PMOD → Prop where
  | successfulTransaction {tx : TX} : settings.handlingTransactionsEnabled = true →
      settings.txId tx = id → Clears settings id (.successfulTransaction tx)
  | failedTransaction (immediateFailure : Bool) : settings.handlingTransactionsEnabled = true →
      Clears settings id (.failedTransaction id immediateFailure)
  | syntacticallySuccessfulModifier {pmod : PMOD} : settings.pmodId pmod = id →
      Clears settings id (.syntacticallySuccessfulModifier pmod)
  | syntacticallyFailedModification {pmod : PMOD} : settings.pmodId pmod = id →
      Clears settings id (.syntacticallyFailedModification pmod)
  | modifiersProcessingResult {applied cleared : List PMOD} {pmod : PMOD} : pmod ∈ cleared →
      settings.pmodId pmod = id → Clears settings id (.modifiersProcessingResult applied cleared)

theorem forgets_viewHolderEvents (settings : SynchronizerSettings ModifierId TX PMOD)
    (s : NodeViewSynchronizer Address ModifierId TX PMOD) (now : ModifierId → ℤ)
    (event : ViewHolderEvent ModifierId TX PMOD) :
    Forgets s.deliveryTracker (s.viewHolderEvents settings now event).1.deliveryTracker :=
  (calls_viewHolder not_receives_of_routine s now event).forgets

theorem received_foldl_setUnknown {settings : TrackerSettings} {now : ModifierId → ℤ}
    {ids : List ModifierId} {id : ModifierId} (hid : id ∈ ids)
    (t : DeliveryTracker Address ModifierId) :
    (ids.foldl (fun t id => t.setUnknown settings id (now id)) t).received.contains id = false := by
  have hforgets : ∀ (ids : List ModifierId) (t : DeliveryTracker Address ModifierId),
      Forgets t (ids.foldl (fun t id => t.setUnknown settings id (now id)) t) := by
    intro ids
    induction ids with
    | nil => exact fun t => .of_eq rfl
    | cons id' ids ih => exact fun t => (forgets_setCleared settings t id' .unknown _).trans (ih _)
  induction ids generalizing t with
  | nil => cases hid
  | cons id' ids ih =>
    by_cases hmem : id ∈ ids
    · exact ih hmem _
    · obtain rfl : id = id' := by simpa [hmem] using hid
      by_contra hne
      have hrec := hforgets ids _ id (by simpa using hne)
      rw [setUnknown, received_setCleared settings t id (.inr rfl)] at hrec
      cases hrec

/-- After such an event the modifier is not received. -/
theorem viewHolderEvents_clears {settings : SynchronizerSettings ModifierId TX PMOD}
    {id : ModifierId} {event : ViewHolderEvent ModifierId TX PMOD} (h : Clears settings id event)
    (s : NodeViewSynchronizer Address ModifierId TX PMOD) (now : ModifierId → ℤ) :
    (s.viewHolderEvents settings now event).1.deliveryTracker.received.contains id = false := by
  have hheld : ∀ id now, (s.deliveryTracker.setHeld settings.tracker id now).received.contains id
      = false := fun id now => received_setCleared settings.tracker _ id (.inl rfl) now
  cases h with
  | @successfulTransaction tx henabled hid =>
    subst hid
    simp only [viewHolderEvents, henabled, if_true]
    -- the broadcast only touches the rebroadcast queue
    have hcalls : Calls settings.tracker (fun _ c => ¬ c.Receives)
        (s.deliveryTracker.setHeld settings.tracker (settings.txId tx) (now (settings.txId tx)))
        (broadcastModifierInv settings (s.withTracker (s.deliveryTracker.setHeld settings.tracker
          (settings.txId tx) (now (settings.txId tx)))) transactionTypeId
          (settings.txId tx)).1.deliveryTracker :=
      calls_broadcastModifierInv (s.withTracker _) transactionTypeId (settings.txId tx)
    have hforgets := hcalls.forgets
    by_contra hne
    have hrec := hforgets _ (by simpa using hne)
    rw [hheld] at hrec
    cases hrec
  | failedTransaction immediateFailure henabled =>
    simp only [viewHolderEvents, henabled, if_true]
    exact not_received_setInvalid _ _ _ _
  | syntacticallySuccessfulModifier hid =>
    subst hid
    exact hheld _ _
  | syntacticallyFailedModification hid =>
    subst hid
    exact not_received_setInvalid _ _ _ _
  | modifiersProcessingResult hpmod hid =>
    subst hid
    exact received_foldl_setUnknown (List.mem_map_of_mem hpmod) _

/-- The other handlers make nothing received. -/
theorem forgets_processInv (settings : SynchronizerSettings ModifierId TX PMOD)
    (s : NodeViewSynchronizer Address ModifierId TX PMOD) (typeId : ModifierTypeId)
    (ids : List ModifierId) (peer : ConnectedPeer Address) :
    Forgets s.deliveryTracker (s.processInv settings typeId ids peer).1.deliveryTracker := by
  unfold processInv
  split
  · simp only
    split
    · exact .of_eq rfl
    · exact forgets_setRequested _ _ _ _
  · exact .of_eq rfl

end NodeViewSynchronizer

/-- Neither does the message of a timer. -/
theorem Synchronizing.forgets_receiveScheduled {Address ModifierId TX PMOD : Type}
    [DecidableEq Address] [DecidableEq ModifierId]
    (settings : SynchronizerSettings ModifierId TX PMOD)
    (s : NodeViewSynchronizer Address ModifierId TX PMOD) (now : ModifierId → ℤ)
    (message : ScheduledMessage Address ModifierId) :
    Forgets s.deliveryTracker (receiveScheduled settings s now message).1.deliveryTracker := by
  cases message with
  | checkDelivery peer typeId id =>
    exact (NodeViewSynchronizer.calls_checkDelivery not_receives_of_routine s peer typeId id now
      fun _ _ => not_false).forgets
  | transactionRebroadcast =>
    exact (NodeViewSynchronizer.calls_transactionRebroadcast s).forgets

end Sparkz.Network
