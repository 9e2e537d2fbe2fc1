import Sparkz.Network.NodeViewSynchronizer

/-!
# The calls that the synchronizer makes on its tracker

Every handler of the synchronizer changes the tracker by public calls only.  Three
kinds of calls are not always harmless: `setRequested`, `setReceived` and
`onStillWaiting`.  `Admits ok s e` says that those which the event `e` makes in
`s` meet the condition `ok`, each in the state in which it is made; the other
calls are left free.

* `Admits` — the condition of an event, by recursion along its loops.
* `calls_modifiers`, `calls_viewHolder`, `calls_timerMessage` — the tracker after
  an event is reached by calls that meet `ok`.
-/

namespace Sparkz.Network

open Sparkz.Lib

variable {Address ModifierId TX PMOD : Type} [DecidableEq Address] [DecidableEq ModifierId]

/-- A condition on calls, made in a state of the tracker. -/
abbrev CallGuard (Address ModifierId : Type) :=
  DeliveryTracker Address ModifierId → DeliveryTracker.TrackerCall Address ModifierId → Prop

namespace DeliveryTracker

/-- The calls that only forget or reject a modifier. -/
def TrackerCall.Routine : TrackerCall Address ModifierId → Prop
  | .setRequested _ _ _ => False
  | .setReceived _ _ _ => False
  | .onStillWaiting _ _ _ _ => False
  | _ => True

/-- A guard on public calls: the ones around the rebroadcast queue are free. -/
def PublicCall.Meets (ok : CallGuard Address ModifierId) (t : DeliveryTracker Address ModifierId) :
    PublicCall Address ModifierId → Prop
  | .tracker c => ok t c
  | _ => True

/-- The calls that ask a peer for modifiers of an inventory. -/
def TrackerCall.IsRequest : TrackerCall Address ModifierId → Prop
  | .setRequested _ _ _ => True
  | _ => False

/-- `t'` is reached from `t` by calls that meet the guard, none of which asks for
modifiers of an inventory. -/
def Calls (settings : TrackerSettings) (ok : CallGuard Address ModifierId)
    (t t' : DeliveryTracker Address ModifierId) : Prop :=
  Reaches (fun t c => t.perform settings c)
    (fun t c => PublicCall.Meets (fun t c => ok t c ∧ ¬ c.IsRequest) t c) t t'

theorem Calls.refl {settings : TrackerSettings} {ok : CallGuard Address ModifierId}
    (t : DeliveryTracker Address ModifierId) : Calls settings ok t t :=
  Reaches.refl

theorem Calls.trans {settings : TrackerSettings} {ok : CallGuard Address ModifierId}
    {t t' t'' : DeliveryTracker Address ModifierId} (h : Calls settings ok t t')
    (h' : Calls settings ok t' t'') : Calls settings ok t t'' :=
  Reaches.trans h h'

theorem Calls.one {settings : TrackerSettings} {ok : CallGuard Address ModifierId}
    {t : DeliveryTracker Address ModifierId} (c : TrackerCall Address ModifierId) (h : ok t c)
    (hc : ¬ c.IsRequest) : Calls settings ok t (t.exec settings c) :=
  Reaches.single (PublicCall.tracker c) ⟨h, hc⟩

end DeliveryTracker

open DeliveryTracker

namespace NodeViewSynchronizer

omit [DecidableEq Address] [DecidableEq ModifierId] in
@[simp] theorem deliveryTracker_withTracker (s : NodeViewSynchronizer Address ModifierId TX PMOD)
    (t : DeliveryTracker Address ModifierId) : (s.withTracker t).deliveryTracker = t := rfl

/-! ## The conditions of the loops -/

/-- The call that `validateAndSetStatus` makes. -/
def validationCall (settings : SynchronizerSettings ModifierId TX PMOD)
    (s : NodeViewSynchronizer Address ModifierId TX PMOD) (remote : ConnectedPeer Address)
    (pmod : PMOD) (now : ModifierId → ℤ) : TrackerCall Address ModifierId :=
  let id := settings.pmodId pmod
  if s.deliveryTracker.status (settings.parentId pmod) = .invalid then .setInvalid id (now id)
  else if s.historyReaderOpt.any (fun hr => hr.applicableTry pmod = .malformedModifierError) then
    .setInvalid id (now id)
  else .setReceived id remote (now id)

omit [DecidableEq Address] in
theorem not_isRequest_validationCall (settings : SynchronizerSettings ModifierId TX PMOD)
    (s : NodeViewSynchronizer Address ModifierId TX PMOD) (remote : ConnectedPeer Address)
    (pmod : PMOD) (now : ModifierId → ℤ) :
    ¬ (s.validationCall settings remote pmod now).IsRequest := by
  unfold validationCall
  simp only
  split
  · exact not_false
  · split
    · exact not_false
    · exact not_false

theorem validateAndSetStatus_tracker (settings : SynchronizerSettings ModifierId TX PMOD)
    (s : NodeViewSynchronizer Address ModifierId TX PMOD) (remote : ConnectedPeer Address)
    (pmod : PMOD) (now : ModifierId → ℤ) :
    (s.validateAndSetStatus settings remote pmod now).2.1.deliveryTracker
      = s.deliveryTracker.exec settings.tracker (s.validationCall settings remote pmod now) := by
  unfold validateAndSetStatus validationCall
  simp only
  split
  · rfl
  · cases s.historyReaderOpt with
    | none => rfl
    | some hr =>
      simp only [Option.any_some]
      split
      · rename_i hmal
        rw [if_pos (by simp [hmal])]
        rfl
      · rename_i hmal
        rw [if_neg (by simpa using hmal)]
        rfl

/-- Every call of the validation loop meets the guard. -/
def ValidatesOk (settings : SynchronizerSettings ModifierId TX PMOD)
    (ok : CallGuard Address ModifierId) (remote : ConnectedPeer Address) (now : ModifierId → ℤ) :
    NodeViewSynchronizer Address ModifierId TX PMOD → List PMOD → Prop
  | _, [] => True
  | s, pmod :: pmods =>
      ok s.deliveryTracker (s.validationCall settings remote pmod now)
        ∧ ValidatesOk settings ok remote now
            (s.validateAndSetStatus settings remote pmod now).2.1 pmods

/-- Every `setReceived` of the loop over parsed transactions meets the guard. -/
def ReceivesOk (ok : CallGuard Address ModifierId) (remote : ConnectedPeer Address)
    (now : ModifierId → ℤ) : DeliveryTracker Address ModifierId → List ModifierId → Prop
  | _, [] => True
  | t, id :: ids =>
      ok t (.setReceived id remote (now id))
        ∧ ReceivesOk ok remote now (t.setReceived id remote (now id)) ids

/-- The calls of a `Modifiers` message meet the guard. -/
def ModifiersOk (settings : SynchronizerSettings ModifierId TX PMOD)
    (ok : CallGuard Address ModifierId) (s : NodeViewSynchronizer Address ModifierId TX PMOD)
    (typeId : ModifierTypeId) (modifiers : List (ModifierId × List UInt8))
    (remote : ConnectedPeer Address) (now : ModifierId → ℤ) : Prop :=
  let requested := (processSpam s remote modifiers).1
  if typeId = transactionTypeId then
    match settings.transactionSerializer with
    | some serializer =>
        let parsed : List TX × List (Sent Address ModifierId TX PMOD) :=
          parseModifiers serializer settings.txId remote requested
        ReceivesOk ok remote now s.deliveryTracker (parsed.1.map settings.txId)
    | none => True
  else
    match settings.modifierSerializers typeId with
    | some serializer =>
        let parsed : List PMOD × List (Sent Address ModifierId TX PMOD) :=
          parseModifiers serializer settings.pmodId remote requested
        ValidatesOk settings ok remote now s parsed.1
    | none => True

/-! ## The handlers -/

section Handlers

variable {settings : SynchronizerSettings ModifierId TX PMOD} {ok : CallGuard Address ModifierId}

theorem calls_receives {remote : ConnectedPeer Address} {now : ModifierId → ℤ}
    (ids : List ModifierId) {t : DeliveryTracker Address ModifierId}
    (h : ReceivesOk ok remote now t ids) :
    Calls settings.tracker ok t
      (ids.foldl (fun t id => t.setReceived id remote (now id)) t) := by
  induction ids generalizing t with
  | nil => exact .refl t
  | cons id ids ih =>
    exact (Calls.one (.setReceived id remote (now id)) h.1 not_false).trans (ih h.2)

theorem calls_validateAll {remote : ConnectedPeer Address} {now : ModifierId → ℤ}
    (pmods : List PMOD) {s : NodeViewSynchronizer Address ModifierId TX PMOD}
    (h : ValidatesOk settings ok remote now s pmods) :
    Calls settings.tracker ok s.deliveryTracker
      (validateAll settings remote now s pmods).2.1.deliveryTracker := by
  induction pmods generalizing s with
  | nil => exact .refl _
  | cons pmod pmods ih =>
    have hone : Calls settings.tracker ok s.deliveryTracker
        (s.validateAndSetStatus settings remote pmod now).2.1.deliveryTracker := by
      rw [validateAndSetStatus_tracker]
      exact .one _ h.1 (not_isRequest_validationCall settings s remote pmod now)
    exact hone.trans (ih h.2)

theorem calls_modifiers (s : NodeViewSynchronizer Address ModifierId TX PMOD)
    (typeId : ModifierTypeId) (modifiers : List (ModifierId × List UInt8))
    (remote : ConnectedPeer Address) (now : ModifierId → ℤ)
    (h : s.ModifiersOk settings ok typeId modifiers remote now) :
    Calls settings.tracker ok s.deliveryTracker
      (s.modifiersFromRemote settings typeId modifiers remote now).1.deliveryTracker := by
  unfold ModifiersOk at h
  unfold modifiersFromRemote
  simp only at h ⊢
  split at h
  · rename_i htx
    rw [if_pos htx]
    cases hser : settings.transactionSerializer with
    | none => exact .refl _
    | some serializer =>
      rw [hser] at h
      exact calls_receives _ h
  · rename_i htx
    rw [if_neg htx]
    cases hser : settings.modifierSerializers typeId with
    | none => exact .refl _
    | some serializer =>
      rw [hser] at h
      exact calls_validateAll _ h

variable (hroutine : ∀ t (c : TrackerCall Address ModifierId), c.Routine → ok t c)

theorem calls_broadcastModifierInv (s : NodeViewSynchronizer Address ModifierId TX PMOD)
    (typeId : ModifierTypeId) (id : ModifierId) :
    Calls settings.tracker ok s.deliveryTracker
      (s.broadcastModifierInv settings typeId id).1.deliveryTracker := by
  unfold broadcastModifierInv
  split
  · exact Reaches.single (PublicCall.putInRebroadcastQueue id) trivial
  · split
    · exact .refl _
    · exact .refl _

theorem calls_broadcastAll (txs : List TX) (s : NodeViewSynchronizer Address ModifierId TX PMOD) :
    Calls settings.tracker ok s.deliveryTracker
      (broadcastAll settings s txs).1.deliveryTracker := by
  induction txs generalizing s with
  | nil => exact .refl _
  | cons tx txs ih =>
    exact (calls_broadcastModifierInv s transactionTypeId (settings.txId tx)).trans (ih _)

theorem calls_transactionRebroadcast (s : NodeViewSynchronizer Address ModifierId TX PMOD) :
    Calls settings.tracker ok s.deliveryTracker
      (s.transactionRebroadcast settings).1.deliveryTracker := by
  have htake : Calls settings.tracker ok s.deliveryTracker
      (s.deliveryTracker.getRebroadcastModifiers settings.tracker).2 :=
    Reaches.single PublicCall.getRebroadcastModifiers trivial
  have hschedule : ∀ t : DeliveryTracker Address ModifierId,
      Calls settings.tracker ok t (t.scheduleRebroadcastIfNeeded settings.tracker) :=
    fun t => Reaches.single PublicCall.scheduleRebroadcastIfNeeded trivial
  unfold transactionRebroadcast
  simp only
  split
  · exact (htake.trans (calls_broadcastAll _ (s.withTracker _))).trans (hschedule _)
  · exact htake.trans (hschedule _)

include hroutine

theorem calls_invalidate (s : NodeViewSynchronizer Address ModifierId TX PMOD) (id : ModifierId)
    (now : ModifierId → ℤ) (penaltyType : Option PenaltyType) :
    Calls settings.tracker ok s.deliveryTracker
      (s.invalidate settings id now penaltyType).1.deliveryTracker :=
  .one (.setInvalid id (now id)) (hroutine _ _ trivial) not_false

theorem calls_cleared (now : ModifierId → ℤ) (ids : List ModifierId)
    (t : DeliveryTracker Address ModifierId) :
    Calls settings.tracker ok t
      (ids.foldl (fun t id => t.setUnknown settings.tracker id (now id)) t) := by
  induction ids generalizing t with
  | nil => exact .refl t
  | cons id ids ih =>
    exact (Calls.one (.setUnknown id (now id)) (hroutine _ _ trivial) not_false).trans (ih _)

theorem calls_viewHolder (s : NodeViewSynchronizer Address ModifierId TX PMOD)
    (now : ModifierId → ℤ) (event : ViewHolderEvent ModifierId TX PMOD) :
    Calls settings.tracker ok s.deliveryTracker
      (s.viewHolderEvents settings now event).1.deliveryTracker := by
  have hheld : ∀ id, Calls settings.tracker ok s.deliveryTracker
      (s.deliveryTracker.setHeld settings.tracker id (now id)) :=
    fun id => .one (.setHeld id (now id)) (hroutine _ _ trivial) not_false
  cases event with
  | successfulTransaction tx =>
    simp only [viewHolderEvents]
    split
    · exact (hheld _).trans (calls_broadcastModifierInv (s.withTracker _) _ _)
    · exact .refl _
  | failedTransaction id immediateFailure =>
    simp only [viewHolderEvents]
    split
    · exact calls_invalidate hroutine s id now _
    · exact .refl _
  | syntacticallySuccessfulModifier pmod => exact hheld _
  | syntacticallyFailedModification pmod => exact calls_invalidate hroutine s _ now _
  | semanticallySuccessfulModifier pmod => exact calls_broadcastModifierInv s _ _
  | semanticallyFailedModification pmod => exact calls_invalidate hroutine s _ now _
  | changedHistory reader => exact .refl _
  | changedMempool reader => exact .refl _
  | modifiersProcessingResult applied cleared => exact calls_cleared hroutine now _ _

theorem calls_checkDelivery (s : NodeViewSynchronizer Address ModifierId TX PMOD)
    (peer : ConnectedPeer Address) (typeId : ModifierTypeId) (id : ModifierId)
    (now : ModifierId → ℤ)
    (h : s.deliveryTracker.status id = .requested → typeId ≠ transactionTypeId →
      ok s.deliveryTracker (.onStillWaiting peer typeId id (now id))) :
    Calls settings.tracker ok s.deliveryTracker
      (s.checkDelivery settings peer typeId id now).1.deliveryTracker := by
  unfold checkDelivery
  split
  · rename_i hst
    split
    · exact .one (.clearStatusForModifier id .requested (now id)) (hroutine _ _ trivial) not_false
    · rename_i htx
      exact .one (.onStillWaiting peer typeId id (now id)) (h hst htx) not_false
  · exact .refl _

end Handlers

end NodeViewSynchronizer

namespace Synchronizing

/-- The `setRequested`, `setReceived` and `onStillWaiting` calls of an event meet
the guard, each in the state in which it is made. -/
def Admits (settings : SynchronizerSettings ModifierId TX PMOD)
    (ok : CallGuard Address ModifierId) (s : Synchronizing Address ModifierId TX PMOD) :
    Event Address ModifierId TX PMOD → Prop
  | .inv typeId ids peer =>
      ∀ mempool ∈ s.synchronizer.mempoolReaderOpt, ∀ history ∈ s.synchronizer.historyReaderOpt,
        ok s.tracker (.setRequested (NodeViewSynchronizer.newModifierIds settings s.tracker mempool
          history typeId ids peer) typeId peer)
  | .modifiers typeId modifiers remote now =>
      s.synchronizer.ModifiersOk settings ok typeId modifiers remote now
  | .timerMessage now =>
      ∀ timer peer typeId id, s.mailbox.head? = some (timer, .checkDelivery peer typeId id) →
        s.tracker.status id = .requested → typeId ≠ transactionTypeId →
          ok s.tracker (.onStillWaiting peer typeId id (now id))
  | _ => True

/-! ## Blocks and transactions that are numbers -/

/-- A synchronizer whose transactions and blocks are numbers, each its own id and
its own one byte; a block's parent is never seen.  Every peer may be asked for
`quota` modifiers at a time. -/
def numberSettings (quota : ℤ) : SynchronizerSettings ℕ ℕ ℕ where
  tracker := { specSettings with maxRequestedPerPeer := quota }
  handlingTransactionsEnabled := true
  txId := fun tx => tx
  pmodId := fun pmod => pmod
  parentId := fun pmod => pmod + 1000
  pmodTypeId := fun _ => 101
  transactionSerializer := some fun bytes => bytes.head?.map fun b => (b.toNat, 0)
  modifierSerializers := fun _ => some fun bytes => bytes.head?.map fun b => (b.toNat, 0)

/-- The readers become ready, with nothing held and every block applicable. -/
def readersReady : List (Event ℕ ℕ ℕ ℕ) :=
  [.viewHolder (.changedHistory ⟨fun _ => false, fun _ => .success⟩) fun _ => 0,
    .viewHolder (.changedMempool ⟨fun _ => false, fun _ => []⟩) fun _ => 0]

theorem admits_readersReady {settings : SynchronizerSettings ℕ ℕ ℕ} {ok : CallGuard ℕ ℕ} :
    ∀ e ∈ readersReady, ∀ s, Admits settings ok s e := by
  intro e he s
  simp only [readersReady, List.mem_cons, List.not_mem_nil, or_false] at he
  rcases he with rfl | rfl
  · trivial
  · trivial

end Synchronizing

end Sparkz.Network
