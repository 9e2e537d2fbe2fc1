import Sparkz.Lib.GuardedRun
import Sparkz.Network.TrackerStatus

/-!
# The node view synchronizer

The model of the part of `NodeViewSynchronizer` that drives the delivery tracker:
inventories, delivered modifiers, delivery timers, rebroadcasts and the events of
the node view holder.

* `NodeViewSynchronizer` — the tracker and the two readers that the actor holds.
* `processInv`, `modifiersFromRemote`, `checkDelivery`, `transactionRebroadcast`,
  `viewHolderEvents` — the handlers, each with the messages that it sends.
* `Synchronizing`, `Event`, `step` — the actor with its scheduler: a timer fires
  at any moment, its message then waits in the mailbox, and a timer that is
  cancelled after that is handled all the same.

The serializers, the validation of a block by the history and the contents of the
mempool are parameters.  Peers and the node view holder may send anything at any
moment, so their messages are handled when they come; a message that was in the
mailbox before a timer fired is one that is handled before the timer's.
-/

namespace Sparkz.Network

open Sparkz.Lib

/-- `PenaltyType`, without the kind that the synchronizer never uses. -/
inductive PenaltyType where
  | nonDeliveryPenalty
  | misbehaviorPenalty
  | spamPenalty
  | permanentPenalty
  | disconnectPenalty
  deriving DecidableEq, Repr

/-- The result of `HistoryReader.applicableTry`: `Success`, `Failure` of a
`MalformedModifierError`, or any other `Failure`. -/
inductive Applicability where
  | success
  | malformedModifierError
  | otherError
  deriving DecidableEq, Repr

/-- What the synchronizer asks of its history reader. -/
structure HistoryReader (ModifierId PMOD : Type) where
  contains : ModifierId → Bool
  applicableTry : PMOD → Applicability

/-- What the synchronizer asks of its mempool reader. -/
structure MempoolReader (ModifierId TX : Type) where
  contains : ModifierId → Bool
  getAll : List ModifierId → List TX

/-- `SparkzSerializer.parseTry` on a reader over the given bytes: the object and
what the reader has remaining after it. -/
abbrev ParseTry (M : Type) := List UInt8 → Option (M × ℕ)

/-- The settings of the synchronizer, with the projections of its two kinds of
modifiers and `modifierSerializers`: the entry under `Transaction.ModifierTypeId`
and the others. -/
structure SynchronizerSettings (ModifierId TX PMOD : Type) where
  tracker : TrackerSettings
  handlingTransactionsEnabled : Bool
  txId : TX → ModifierId
  pmodId : PMOD → ModifierId
  parentId : PMOD → ModifierId
  pmodTypeId : PMOD → ModifierTypeId
  transactionSerializer : Option (ParseTry TX)
  modifierSerializers : ModifierTypeId → Option (ParseTry PMOD)

/-- `Transaction.ModifierTypeId`. -/
def transactionTypeId : ModifierTypeId := 2

/-- The messages that the synchronizer sends. -/
inductive Sent (Address ModifierId TX PMOD : Type) where
  | requestModifier (peer : ConnectedPeer Address) (typeId : ModifierTypeId)
      (ids : List ModifierId)
  | penalizePeer (address : Address) (penaltyType : PenaltyType)
  | transactionsFromRemote (txs : List TX)
  | modifiersFromRemote (pmods : List PMOD)
  | broadcastTransaction (typeId : ModifierTypeId) (ids : List ModifierId)
  | broadcastBlock (typeId : ModifierTypeId) (ids : List ModifierId)

/-- The state of the actor. -/
structure NodeViewSynchronizer (Address ModifierId TX PMOD : Type) where
  deliveryTracker : DeliveryTracker Address ModifierId
  historyReaderOpt : Option (HistoryReader ModifierId PMOD)
  mempoolReaderOpt : Option (MempoolReader ModifierId TX)

/-- The events of the node view holder that the synchronizer listens to. -/
inductive ViewHolderEvent (ModifierId TX PMOD : Type) where
  | successfulTransaction (tx : TX)
  | failedTransaction (id : ModifierId) (immediateFailure : Bool)
  | syntacticallySuccessfulModifier (pmod : PMOD)
  | syntacticallyFailedModification (pmod : PMOD)
  | semanticallySuccessfulModifier (pmod : PMOD)
  | semanticallyFailedModification (pmod : PMOD)
  | changedHistory (reader : HistoryReader ModifierId PMOD)
  | changedMempool (reader : MempoolReader ModifierId TX)
  | modifiersProcessingResult (applied cleared : List PMOD)

namespace NodeViewSynchronizer

variable {Address ModifierId TX PMOD : Type} [DecidableEq Address] [DecidableEq ModifierId]

/-- The actor as constructed. -/
def empty : NodeViewSynchronizer Address ModifierId TX PMOD where
  deliveryTracker := .empty
  historyReaderOpt := none
  mempoolReaderOpt := none

/-- The actor with another tracker. -/
def withTracker (s : NodeViewSynchronizer Address ModifierId TX PMOD)
    (t : DeliveryTracker Address ModifierId) : NodeViewSynchronizer Address ModifierId TX PMOD :=
  { s with deliveryTracker := t }

/-! ## Penalties and broadcasts -/

/-- `penalizeNonDeliveringPeer`, `penalizeSpammingPeer`, `penalizeMisbehavingPeer`,
`penalizeAndDisconnectPeer`: the same message with another penalty. -/
def penalize (penaltyType : PenaltyType) (peer : ConnectedPeer Address) :
    Sent Address ModifierId TX PMOD :=
  .penalizePeer peer.connectionId.remoteAddress penaltyType

/-- `broadcastModifierInv(m)`, of the type id and the id of `m`. -/
def broadcastModifierInv (settings : SynchronizerSettings ModifierId TX PMOD)
    (s : NodeViewSynchronizer Address ModifierId TX PMOD) (typeId : ModifierTypeId)
    (id : ModifierId) :
    NodeViewSynchronizer Address ModifierId TX PMOD × List (Sent Address ModifierId TX PMOD) :=
  if typeId = transactionTypeId ∧ s.deliveryTracker.slowMode = true then
    (s.withTracker (s.deliveryTracker.putInRebroadcastQueue settings.tracker id), [])
  else if typeId = transactionTypeId then (s, [.broadcastTransaction typeId [id]])
  else (s, [.broadcastBlock typeId [id]])

/-! ## Inventories -/

/-- The ids of an inventory that `processInv` asks for: the first `getPeerLimit`
of those whose status is `Unknown`. -/
def newModifierIds (settings : SynchronizerSettings ModifierId TX PMOD)
    (t : DeliveryTracker Address ModifierId) (mempool : MempoolReader ModifierId TX)
    (history : HistoryReader ModifierId PMOD) (typeId : ModifierTypeId) (ids : List ModifierId)
    (peer : ConnectedPeer Address) : List ModifierId :=
  (if typeId = transactionTypeId then
    if t.canRequestMoreTransactions settings.tracker && settings.handlingTransactionsEnabled then
      ids.filter fun mid => t.statusIn mid [mempool.contains] = .unknown
    else []
  else ids.filter fun mid => t.statusIn mid [history.contains] = .unknown).take
    (t.getPeerLimit settings.tracker peer).toNat

/-- `processInv(invData, peer)`. -/
def processInv (settings : SynchronizerSettings ModifierId TX PMOD)
    (s : NodeViewSynchronizer Address ModifierId TX PMOD) (typeId : ModifierTypeId)
    (ids : List ModifierId) (peer : ConnectedPeer Address) :
    NodeViewSynchronizer Address ModifierId TX PMOD × List (Sent Address ModifierId TX PMOD) :=
  match s.mempoolReaderOpt, s.historyReaderOpt with
  | some mempool, some history =>
      let new := newModifierIds settings s.deliveryTracker mempool history typeId ids peer
      if new.isEmpty then (s, [])
      else (s.withTracker (s.deliveryTracker.setRequested new typeId peer),
        [.requestModifier peer typeId new])
  | _, _ => (s, [])

/-! ## Delivered modifiers -/

/-- `processSpam(remote, typeId, modifiers)`. -/
def processSpam (s : NodeViewSynchronizer Address ModifierId TX PMOD)
    (remote : ConnectedPeer Address) (modifiers : List (ModifierId × List UInt8)) :
    List (ModifierId × List UInt8) × List (Sent Address ModifierId TX PMOD) :=
  let (requested, spam) := modifiers.partition fun m => s.deliveryTracker.status m.1 = .requested
  (requested, if spam.isEmpty then [] else [penalize .spamPenalty remote])

/-- One turn of the loop of `parseModifiers`. -/
def parseModifier {M : Type} (serializer : ParseTry M) (idOf : M → ModifierId)
    (remote : ConnectedPeer Address) (m : ModifierId × List UInt8) :
    Option M × List (Sent Address ModifierId TX PMOD) :=
  match serializer m.2 with
  | some (mod, remaining) =>
      if m.1 = idOf mod then
        (some mod, if remaining ≠ 0 then [penalize .misbehaviorPenalty remote] else [])
      else (none, [penalize .misbehaviorPenalty remote])
  | none => (none, [penalize .misbehaviorPenalty remote])

/-- `parseModifiers(modifiers, serializer, remote)`. -/
def parseModifiers {M : Type} (serializer : ParseTry M) (idOf : M → ModifierId)
    (remote : ConnectedPeer Address) (modifiers : List (ModifierId × List UInt8)) :
    List M × List (Sent Address ModifierId TX PMOD) :=
  let results := modifiers.map (parseModifier serializer idOf remote)
  (results.filterMap Prod.fst, results.flatMap Prod.snd)

/-- `validateAndSetStatus(remote, pmod)`. -/
def validateAndSetStatus (settings : SynchronizerSettings ModifierId TX PMOD)
    (s : NodeViewSynchronizer Address ModifierId TX PMOD) (remote : ConnectedPeer Address)
    (pmod : PMOD) (now : ModifierId → ℤ) :
    Bool × NodeViewSynchronizer Address ModifierId TX PMOD
      × List (Sent Address ModifierId TX PMOD) :=
  let id := settings.pmodId pmod
  let invalid := s.withTracker (s.deliveryTracker.setInvalid settings.tracker id (now id)).2
  let received := s.withTracker (s.deliveryTracker.setReceived id remote (now id))
  if s.deliveryTracker.status (settings.parentId pmod) = .invalid then
    (false, invalid, [penalize .disconnectPenalty remote])
  else
    match s.historyReaderOpt with
    | some hr =>
        match hr.applicableTry pmod with
        | .malformedModifierError => (false, invalid, [penalize .misbehaviorPenalty remote])
        | _ => (true, received, [])
    | none => (true, received, [])

/-- `parsed.filter(validateAndSetStatus(remote, _))`. -/
def validateAll (settings : SynchronizerSettings ModifierId TX PMOD)
    (remote : ConnectedPeer Address) (now : ModifierId → ℤ) :
    NodeViewSynchronizer Address ModifierId TX PMOD → List PMOD →
      List PMOD × NodeViewSynchronizer Address ModifierId TX PMOD
        × List (Sent Address ModifierId TX PMOD)
  | s, [] => ([], s, [])
  | s, pmod :: pmods =>
      let (ok, s', sent) := s.validateAndSetStatus settings remote pmod now
      let (valid, s'', sent') := validateAll settings remote now s' pmods
      (if ok then pmod :: valid else valid, s'', sent ++ sent')

/-- `modifiersFromRemote(data, remote)`. -/
def modifiersFromRemote (settings : SynchronizerSettings ModifierId TX PMOD)
    (s : NodeViewSynchronizer Address ModifierId TX PMOD) (typeId : ModifierTypeId)
    (modifiers : List (ModifierId × List UInt8)) (remote : ConnectedPeer Address)
    (now : ModifierId → ℤ) :
    NodeViewSynchronizer Address ModifierId TX PMOD × List (Sent Address ModifierId TX PMOD) :=
  let (requestedModifiers, spam) := s.processSpam remote modifiers
  if typeId = transactionTypeId then
    match settings.transactionSerializer with
    | some serializer =>
        let (parsed, penalties) :=
          parseModifiers serializer settings.txId remote requestedModifiers
        let t := (parsed.map settings.txId).foldl
          (fun t id => t.setReceived id remote (now id)) s.deliveryTracker
        (s.withTracker t, spam ++ penalties ++ [.transactionsFromRemote parsed])
    | none => (s, spam)
  else
    match settings.modifierSerializers typeId with
    | some serializer =>
        let (parsed, penalties) :=
          parseModifiers serializer settings.pmodId remote requestedModifiers
        let (valid, s', sent) := validateAll settings remote now s parsed
        (s', spam ++ penalties ++ sent
          ++ if valid.isEmpty then [] else [.modifiersFromRemote valid])
    | none => (s, spam)

/-! ## Timers -/

/-- `checkDelivery`, on `CheckDelivery(peer, modifierTypeId, modifierId)`. -/
def checkDelivery (settings : SynchronizerSettings ModifierId TX PMOD)
    (s : NodeViewSynchronizer Address ModifierId TX PMOD) (peer : ConnectedPeer Address)
    (typeId : ModifierTypeId) (id : ModifierId) (now : ModifierId → ℤ) :
    NodeViewSynchronizer Address ModifierId TX PMOD × List (Sent Address ModifierId TX PMOD) :=
  if s.deliveryTracker.status id = .requested then
    if typeId = transactionTypeId then
      (s.withTracker (s.deliveryTracker.exec settings.tracker
        (.clearStatusForModifier id .requested (now id))), [])
    else
      (s.withTracker (s.deliveryTracker.onStillWaiting settings.tracker peer typeId id (now id)).2,
        [penalize .nonDeliveryPenalty peer])
  else (s, [])

/-- `broadcastModifierInv` of each of the transactions in turn. -/
def broadcastAll (settings : SynchronizerSettings ModifierId TX PMOD) :
    NodeViewSynchronizer Address ModifierId TX PMOD → List TX →
      NodeViewSynchronizer Address ModifierId TX PMOD × List (Sent Address ModifierId TX PMOD)
  | s, [] => (s, [])
  | s, tx :: txs =>
      let (s', sent) := s.broadcastModifierInv settings transactionTypeId (settings.txId tx)
      let (s'', sent') := broadcastAll settings s' txs
      (s'', sent ++ sent')

/-- `transactionRebroadcast`. -/
def transactionRebroadcast (settings : SynchronizerSettings ModifierId TX PMOD)
    (s : NodeViewSynchronizer Address ModifierId TX PMOD) :
    NodeViewSynchronizer Address ModifierId TX PMOD × List (Sent Address ModifierId TX PMOD) :=
  let (mods, t) := s.deliveryTracker.getRebroadcastModifiers settings.tracker
  let s' := s.withTracker t
  let (s'', sent) := match s'.mempoolReaderOpt with
    | some mempool => broadcastAll settings s' (mempool.getAll mods)
    | none => (s', [])
  (s''.withTracker (s''.deliveryTracker.scheduleRebroadcastIfNeeded settings.tracker), sent)

/-! ## Events of the node view holder -/

/-- `setInvalid`, then `foreach` on the peer that it returns. -/
def invalidate (settings : SynchronizerSettings ModifierId TX PMOD)
    (s : NodeViewSynchronizer Address ModifierId TX PMOD) (id : ModifierId) (now : ModifierId → ℤ)
    (penaltyType : Option PenaltyType) :
    NodeViewSynchronizer Address ModifierId TX PMOD × List (Sent Address ModifierId TX PMOD) :=
  let (senderOpt, t) := s.deliveryTracker.setInvalid settings.tracker id (now id)
  (s.withTracker t, match senderOpt, penaltyType with
    | some sender, some penaltyType => [penalize penaltyType sender]
    | _, _ => [])

/-- `viewHolderEvents`; `requestMoreModifiers` does nothing here. -/
def viewHolderEvents (settings : SynchronizerSettings ModifierId TX PMOD)
    (s : NodeViewSynchronizer Address ModifierId TX PMOD) (now : ModifierId → ℤ) :
    ViewHolderEvent ModifierId TX PMOD →
      NodeViewSynchronizer Address ModifierId TX PMOD × List (Sent Address ModifierId TX PMOD)
  | .successfulTransaction tx =>
      if settings.handlingTransactionsEnabled then
        let id := settings.txId tx
        (s.withTracker
          (s.deliveryTracker.setHeld settings.tracker id (now id))).broadcastModifierInv
          settings transactionTypeId id
      else (s, [])
  | .failedTransaction id immediateFailure =>
      if settings.handlingTransactionsEnabled then
        s.invalidate settings id now (if immediateFailure then some .misbehaviorPenalty else none)
      else (s, [])
  | .syntacticallySuccessfulModifier pmod =>
      let id := settings.pmodId pmod
      (s.withTracker (s.deliveryTracker.setHeld settings.tracker id (now id)), [])
  | .syntacticallyFailedModification pmod =>
      s.invalidate settings (settings.pmodId pmod) now (some .disconnectPenalty)
  | .semanticallySuccessfulModifier pmod =>
      s.broadcastModifierInv settings (settings.pmodTypeId pmod) (settings.pmodId pmod)
  | .semanticallyFailedModification pmod =>
      s.invalidate settings (settings.pmodId pmod) now (some .disconnectPenalty)
  | .changedHistory reader => ({ s with historyReaderOpt := some reader }, [])
  | .changedMempool reader => ({ s with mempoolReaderOpt := some reader }, [])
  | .modifiersProcessingResult _ cleared =>
      (s.withTracker ((cleared.map settings.pmodId).foldl
        (fun t id => t.setUnknown settings.tracker id (now id)) s.deliveryTracker), [])

end NodeViewSynchronizer

/-! ## The actor and its scheduler -/

/-- The actor, and the messages of fired timers that wait in its mailbox, oldest
first, each with the name of its timer. -/
structure Synchronizing (Address ModifierId TX PMOD : Type) where
  synchronizer : NodeViewSynchronizer Address ModifierId TX PMOD
  mailbox : List (TimerId × ScheduledMessage Address ModifierId)

namespace Synchronizing

variable {Address ModifierId TX PMOD : Type} [DecidableEq Address] [DecidableEq ModifierId]

/-- What can happen next: a message of a peer, an event of the node view holder, a
timer that fires, or the oldest timer message being handled.  `now` is the clock
reading that is made for a modifier. -/
inductive Event (Address ModifierId TX PMOD : Type) where
  | inv (typeId : ModifierTypeId) (ids : List ModifierId) (peer : ConnectedPeer Address)
  | modifiers (typeId : ModifierTypeId) (modifiers : List (ModifierId × List UInt8))
      (remote : ConnectedPeer Address) (now : ModifierId → ℤ)
  | viewHolder (event : ViewHolderEvent ModifierId TX PMOD) (now : ModifierId → ℤ)
  | fire (timer : TimerId)
  | timerMessage (now : ModifierId → ℤ)

/-- The actor as constructed, with an empty mailbox. -/
def empty : Synchronizing Address ModifierId TX PMOD := ⟨.empty, []⟩

/-- The tracker of the actor. -/
def tracker (s : Synchronizing Address ModifierId TX PMOD) : DeliveryTracker Address ModifierId :=
  s.synchronizer.deliveryTracker

/-- `receive` on the message of a timer. -/
def receiveScheduled (settings : SynchronizerSettings ModifierId TX PMOD)
    (s : NodeViewSynchronizer Address ModifierId TX PMOD) (now : ModifierId → ℤ) :
    ScheduledMessage Address ModifierId →
      NodeViewSynchronizer Address ModifierId TX PMOD × List (Sent Address ModifierId TX PMOD)
  | .checkDelivery peer typeId id => s.checkDelivery settings peer typeId id now
  | .transactionRebroadcast => s.transactionRebroadcast settings

/-- One event.  A timer that is gone cannot fire, and an empty mailbox has nothing
to handle. -/
def step (settings : SynchronizerSettings ModifierId TX PMOD)
    (s : Synchronizing Address ModifierId TX PMOD) :
    Event Address ModifierId TX PMOD → Synchronizing Address ModifierId TX PMOD
  | .inv typeId ids peer =>
      { s with synchronizer := (s.synchronizer.processInv settings typeId ids peer).1 }
  | .modifiers typeId modifiers remote now =>
      { s with synchronizer :=
          (s.synchronizer.modifiersFromRemote settings typeId modifiers remote now).1 }
  | .viewHolder event now =>
      { s with synchronizer := (s.synchronizer.viewHolderEvents settings now event).1 }
  | .fire timer =>
      match s.tracker.timers.get? timer with
      | some message =>
          ⟨s.synchronizer.withTracker (s.tracker.cancel timer), s.mailbox ++ [(timer, message)]⟩
      | none => s
  | .timerMessage now =>
      match s.mailbox with
      | (_, message) :: mailbox =>
          ⟨(receiveScheduled settings s.synchronizer now message).1, mailbox⟩
      | [] => s

end Synchronizing

end Sparkz.Network
