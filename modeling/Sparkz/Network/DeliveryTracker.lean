import Sparkz.Lib.LinkedMap

/-!
# The delivery tracker

The model of `DeliveryTracker`: which modifiers were asked of which peer, which
were received, which are invalid, how much of its quota each peer uses, and the
delivery timers handed to the actor system's scheduler.

* `DeliveryTracker` — the mutable fields of the class, with the part of the
  scheduler that it talks to: the timers that are scheduled, not yet fired and
  not cancelled.
* `status`, `isCorrectTransition` — the derived status and the table of legal
  moves between statuses.
* `setRequested`, `setReceived`, `setInvalid`, `setHeld`, `setUnknown`,
  `onStillWaiting`, `clearStatusForModifier` — the operations.

A call to `System.nanoTime()` is an argument `now` of the operation that makes
it.  The floating point average of processing times is a parameter of the
settings; it only ever drives `slowMode`.
-/

namespace Sparkz.Network

open Sparkz.Lib

/-- `ConnectionDirection`. -/
inductive ConnectionDirection where
  | incoming
  | outgoing
  deriving DecidableEq, Repr

/-- `ConnectionId(remoteAddress, localAddress, direction)`. -/
structure ConnectionId (Address : Type) where
  remoteAddress : Address
  localAddress : Address
  direction : ConnectionDirection
  deriving DecidableEq, Repr

/-- `ConnectedPeer`, cut down to the field that the tracker reads. -/
structure ConnectedPeer (Address : Type) where
  connectionId : ConnectionId Address
  deriving DecidableEq, Repr

namespace ConnectedPeer

variable {Address : Type} [DecidableEq Address]

/-- `ConnectedPeer.equals`: two peers are the same one when their remote
addresses are; `hashCode` is that of the remote address too, so a map keyed by
peers is a map keyed by remote addresses. -/
def equals (p q : ConnectedPeer Address) : Bool :=
  p.connectionId.remoteAddress = q.connectionId.remoteAddress

end ConnectedPeer

/-- `ModifiersStatus`. -/
inductive ModifiersStatus where
  | unknown
  | requested
  | received
  | held
  | invalid
  deriving DecidableEq, Repr

/-- `ModifierTypeId`, a tagged byte. -/
abbrev ModifierTypeId := UInt8

/-- A message that the tracker leaves with the scheduler. -/
inductive ScheduledMessage (Address ModifierId : Type) where
  | checkDelivery (source : ConnectedPeer Address) (modifierTypeId : ModifierTypeId)
      (modifierId : ModifierId)
  | transactionRebroadcast
  deriving DecidableEq, Repr

/-- The name of a timer: what the code holds as a `Cancellable`. -/
abbrev TimerId := ℕ

/-- `RequestedInfo(peer, cancellable, checks)`. -/
structure RequestedInfo (Address : Type) where
  peer : ConnectedPeer Address
  cancellable : TimerId
  checks : ℤ
  deriving DecidableEq, Repr

/-- The settings that the tracker reads.  `averageProcessingTime average elapsed`
is the weighted mean that the code computes in doubles. -/
structure TrackerSettings where
  maxDeliveryChecks : ℤ
  maxRequestedPerPeer : ℤ
  slowModeFeatureFlag : Bool
  slowModeThresholdMs : ℤ
  slowModeMaxRequested : ℤ
  averageProcessingTime : ℤ → ℤ → ℤ
  rebroadcastEnabled : Bool
  rebroadcastQueueSize : ℕ
  rebroadcastBatchSize : ℕ

/-- The errors that `tryWithLogging` turns into a `Failure`. -/
inductive TrackerError (ModifierId : Type) where
  | illegalTransition (oldStatus newStatus : ModifiersStatus)
  | noSuchElement (id : ModifierId)
  | stopExpecting (id : ModifierId) (checks : ℤ)
  deriving DecidableEq, Repr

/-- The fields of `DeliveryTracker` and the live timers of its scheduler. -/
structure DeliveryTracker (Address ModifierId : Type) where
  requested : LinkedMap ModifierId (RequestedInfo Address)
  peerLimits : LinkedMap Address ℤ
  invalid : Finset ModifierId
  received : LinkedMap ModifierId (ConnectedPeer Address × ℤ)
  rebroadcastQueue : List ModifierId
  transactionRebroadcastEvent : Option TimerId
  averageProcessingTimeMs : ℤ
  slowMode : Bool
  timers : LinkedMap TimerId (ScheduledMessage Address ModifierId)
  nextTimer : TimerId

namespace DeliveryTracker

variable {Address ModifierId : Type} [DecidableEq Address] [DecidableEq ModifierId]

/-- A tracker as constructed. -/
def empty : DeliveryTracker Address ModifierId where
  requested := .empty
  peerLimits := .empty
  invalid := ∅
  received := .empty
  rebroadcastQueue := []
  transactionRebroadcastEvent := none
  averageProcessingTimeMs := 0
  slowMode := false
  timers := .empty
  nextTimer := 0

/-! ## The scheduler -/

/-- `system.scheduler.scheduleOnce`: the new timer is named by `nextTimer`. -/
def scheduleOnce (t : DeliveryTracker Address ModifierId)
    (message : ScheduledMessage Address ModifierId) : DeliveryTracker Address ModifierId :=
  { t with timers := t.timers.put t.nextTimer message, nextTimer := t.nextTimer + 1 }

/-- `Cancellable.cancel()`. -/
def cancel (t : DeliveryTracker Address ModifierId) (timer : TimerId) :
    DeliveryTracker Address ModifierId :=
  { t with timers := t.timers.remove timer }

/-! ## Statuses -/

/-- `status(modifierId, modifierKeepers)`; a keeper is given by its `contains`. -/
def statusIn (t : DeliveryTracker Address ModifierId) (id : ModifierId)
    (modifierKeepers : List (ModifierId → Bool)) : ModifiersStatus :=
  if t.received.contains id then .received
  else if t.requested.contains id then .requested
  else if id ∈ t.invalid then .invalid
  else if modifierKeepers.any (fun keeper => keeper id) then .held
  else .unknown

/-- `status(modifierId)`. -/
def status (t : DeliveryTracker Address ModifierId) (id : ModifierId) : ModifiersStatus :=
  t.statusIn id []

/-- `isCorrectTransition(oldStatus, newStatus)`. -/
def isCorrectTransition (oldStatus newStatus : ModifiersStatus) : Bool :=
  if oldStatus = newStatus then true
  else if newStatus = .invalid ∨ newStatus = .held then true
  else match oldStatus with
    | .unknown => newStatus = .requested
    | .requested => newStatus = .unknown ∨ newStatus = .received
    | .received => newStatus = .unknown
    | _ => false

/-! ## Peer quotas -/

/-- `incrementPeerLimitCounter(peer)`. -/
def incrementPeerLimitCounter (t : DeliveryTracker Address ModifierId)
    (peer : ConnectedPeer Address) : DeliveryTracker Address ModifierId :=
  match t.peerLimits.get? peer.connectionId.remoteAddress with
  | some value =>
      { t with peerLimits := t.peerLimits.put peer.connectionId.remoteAddress (value + 1) }
  | none => { t with peerLimits := t.peerLimits.put peer.connectionId.remoteAddress 1 }

/-- `decrementPeerLimitCounter(peer)`: a counter that reaches zero is dropped,
a missing one is left missing. -/
def decrementPeerLimitCounter (t : DeliveryTracker Address ModifierId)
    (peer : ConnectedPeer Address) : DeliveryTracker Address ModifierId :=
  match t.peerLimits.get? peer.connectionId.remoteAddress with
  | some value =>
      if value = 1 then
        { t with peerLimits := t.peerLimits.remove peer.connectionId.remoteAddress }
      else
        { t with peerLimits := t.peerLimits.put peer.connectionId.remoteAddress (value - 1) }
  | none => t

/-- `peerLimits.getOrElse(peer, 0)`. -/
def peerLimit (t : DeliveryTracker Address ModifierId) (peer : ConnectedPeer Address) : ℤ :=
  (t.peerLimits.get? peer.connectionId.remoteAddress).getD 0

/-- `getPeerLimit(peer)`. -/
def getPeerLimit (settings : TrackerSettings) (t : DeliveryTracker Address ModifierId)
    (peer : ConnectedPeer Address) : ℤ :=
  settings.maxRequestedPerPeer - t.peerLimit peer

/-! ## Slow mode and rebroadcast -/

/-- `canRequestMoreTransactions`. -/
def canRequestMoreTransactions (settings : TrackerSettings)
    (t : DeliveryTracker Address ModifierId) : Bool :=
  !(settings.slowModeFeatureFlag && t.slowMode
    && decide ((t.requested.size : ℤ) > settings.slowModeMaxRequested))

/-- `putInRebroadcastQueue(modifierId)`: the loop dequeues from the front until
the queue fits. -/
def putInRebroadcastQueue (settings : TrackerSettings) (t : DeliveryTracker Address ModifierId)
    (id : ModifierId) : DeliveryTracker Address ModifierId :=
  if settings.rebroadcastEnabled then
    let queue := t.rebroadcastQueue ++ [id]
    { t with rebroadcastQueue := queue.drop (queue.length - settings.rebroadcastQueueSize) }
  else t

/-- `getRebroadcastModifiers`. -/
def getRebroadcastModifiers (settings : TrackerSettings)
    (t : DeliveryTracker Address ModifierId) :
    List ModifierId × DeliveryTracker Address ModifierId :=
  (t.rebroadcastQueue.take settings.rebroadcastBatchSize,
    { t with rebroadcastQueue := t.rebroadcastQueue.drop settings.rebroadcastBatchSize })

/-- `scheduleRebroadcastIfNeeded()`. -/
def scheduleRebroadcastIfNeeded (settings : TrackerSettings)
    (t : DeliveryTracker Address ModifierId) : DeliveryTracker Address ModifierId :=
  if settings.rebroadcastEnabled && !t.rebroadcastQueue.isEmpty then
    let t' := match t.transactionRebroadcastEvent with
      | some timer => t.cancel timer
      | none => t
    { t'.scheduleOnce .transactionRebroadcast with
      transactionRebroadcastEvent := some t'.nextTimer }
  else t

/-- `updateProcessingTime(startTime)`, with `TimeUnit.NANOSECONDS.toMillis` the
division that truncates towards zero. -/
def updateProcessingTime (settings : TrackerSettings) (t : DeliveryTracker Address ModifierId)
    (startTime now : ℤ) : DeliveryTracker Address ModifierId :=
  if settings.slowModeFeatureFlag then
    let elapsedMs := (now - startTime).tdiv 1000000
    let average := settings.averageProcessingTime t.averageProcessingTimeMs elapsedMs
    let t' := { t with averageProcessingTimeMs := average }
    if average > settings.slowModeThresholdMs && !t'.slowMode then { t' with slowMode := true }
    else if average < settings.slowModeThresholdMs && t'.slowMode then
      { t' with slowMode := false }.scheduleRebroadcastIfNeeded settings
    else t'
  else t

/-! ## The operations -/

/-- `requested(id).cancellable.cancel()` and `requested.remove(id)`, the two lines
with which every operation takes an entry out of `requested`. -/
def dropRequested (t : DeliveryTracker Address ModifierId) (id : ModifierId)
    (info : RequestedInfo Address) : DeliveryTracker Address ModifierId :=
  { t.cancel info.cancellable with requested := t.requested.remove id }

/-- `clearStatusForModifier(id, oldStatus)`; `requested(id)` throws when `id` is
not there. -/
def clearStatusForModifier (settings : TrackerSettings) (t : DeliveryTracker Address ModifierId)
    (id : ModifierId) (oldStatus : ModifiersStatus) (now : ℤ) :
    Except (TrackerError ModifierId) (DeliveryTracker Address ModifierId) :=
  match oldStatus with
  | .requested =>
      match t.requested.get? id with
      | none => .error (.noSuchElement id)
      | some info => .ok ((t.dropRequested id info).decrementPeerLimitCounter info.peer)
  | .received =>
      match t.received.get? id with
      | none => .ok t
      | some (_, timestamp) =>
          .ok ({ t with received := t.received.remove id }.updateProcessingTime settings
            timestamp now)
  | _ => .ok t

/-- The private `setRequested(id, typeId, supplier, checksDone)`. -/
def setRequestedOne (t : DeliveryTracker Address ModifierId) (id : ModifierId)
    (typeId : ModifierTypeId) (supplier : ConnectedPeer Address) (checksDone : ℤ) :
    DeliveryTracker Address ModifierId :=
  if isCorrectTransition (t.status id) .requested then
    let cancellable := t.nextTimer
    let t' := t.scheduleOnce (.checkDelivery supplier typeId id)
    let old := t'.requested.get? id
    let t'' := { t' with requested := t'.requested.put id ⟨supplier, cancellable, checksDone⟩ }
    match old with
    | some info =>
        -- the same connection asked again is counted already
        if supplier.connectionId = info.peer.connectionId then t''
        else (t''.decrementPeerLimitCounter info.peer).incrementPeerLimitCounter supplier
    | none => t''.incrementPeerLimitCounter supplier
  else t

/-- `setRequested(ids, typeId, cp)`. -/
def setRequested (t : DeliveryTracker Address ModifierId) (ids : List ModifierId)
    (typeId : ModifierTypeId) (cp : ConnectedPeer Address) : DeliveryTracker Address ModifierId :=
  ids.foldl (fun t id => t.setRequestedOne id typeId cp 0) t

/-- `setInvalid(modifierId)`, with the peer it returns. -/
def setInvalid (settings : TrackerSettings) (t : DeliveryTracker Address ModifierId)
    (id : ModifierId) (now : ℤ) :
    Option (ConnectedPeer Address) × DeliveryTracker Address ModifierId :=
  if isCorrectTransition (t.status id) .invalid then
    match t.status id with
    | .requested =>
        match t.requested.get? id with
        | none => (none, t)
        | some info =>
            let t' := (t.dropRequested id info).decrementPeerLimitCounter info.peer
            (some info.peer, { t' with invalid := insert id t'.invalid })
    | .received =>
        match t.received.get? id with
        | none => (none, { t with invalid := insert id t.invalid })
        | some (peer, timestamp) =>
            let t' := { t with received := t.received.remove id }.updateProcessingTime settings
              timestamp now
            (some peer, { t' with invalid := insert id t'.invalid })
    | _ => (none, { t with invalid := insert id t.invalid })
  else (none, t)

/-- What `setHeld` and `setUnknown` share: check the transition, then clear the
old status. -/
def setCleared (settings : TrackerSettings) (t : DeliveryTracker Address ModifierId)
    (id : ModifierId) (newStatus : ModifiersStatus) (now : ℤ) :
    DeliveryTracker Address ModifierId :=
  if isCorrectTransition (t.status id) newStatus then
    match t.clearStatusForModifier settings id (t.status id) now with
    | .ok t' => t'
    | .error _ => t
  else t

/-- `setHeld(id)`. -/
def setHeld (settings : TrackerSettings) (t : DeliveryTracker Address ModifierId)
    (id : ModifierId) (now : ℤ) : DeliveryTracker Address ModifierId :=
  t.setCleared settings id .held now

/-- `setUnknown(id)`. -/
def setUnknown (settings : TrackerSettings) (t : DeliveryTracker Address ModifierId)
    (id : ModifierId) (now : ℤ) : DeliveryTracker Address ModifierId :=
  t.setCleared settings id .unknown now

/-- `setReceived(id, sender)`.  The counter that goes down is the sender's. -/
def setReceived (t : DeliveryTracker Address ModifierId) (id : ModifierId)
    (sender : ConnectedPeer Address) (now : ℤ) : DeliveryTracker Address ModifierId :=
  if isCorrectTransition (t.status id) .received then
    if t.status id ≠ .received then
      match t.requested.get? id with
      | none => t
      | some info =>
          let t' := (t.dropRequested id info).decrementPeerLimitCounter sender
          { t' with received := t'.received.put id (sender, now) }
    else t
  else t

/-- `onStillWaiting(cp, modifierTypeId, modifierId)`, with the `Try` it returns. -/
def onStillWaiting (settings : TrackerSettings) (t : DeliveryTracker Address ModifierId)
    (cp : ConnectedPeer Address) (typeId : ModifierTypeId) (id : ModifierId) (now : ℤ) :
    Except (TrackerError ModifierId) Unit × DeliveryTracker Address ModifierId :=
  match t.requested.get? id with
  | none => (.error (.noSuchElement id), t)
  | some info =>
      let checks := info.checks + 1
      let t' := t.setUnknown settings id now
      if checks < settings.maxDeliveryChecks then (.ok (), t'.setRequestedOne id typeId cp checks)
      else (.error (.stopExpecting id checks), t')

/-- `peerInfo(id)`. -/
def peerInfo (t : DeliveryTracker Address ModifierId) (id : ModifierId) :
    Option (ConnectedPeer Address) :=
  match t.status id with
  | .requested => (t.requested.get? id).map RequestedInfo.peer
  | .received => (t.received.get? id).map Prod.fst
  | _ => none

end DeliveryTracker

end Sparkz.Network
