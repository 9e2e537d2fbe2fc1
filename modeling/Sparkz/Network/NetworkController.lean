import Sparkz.Lib.LinkedMap
import Sparkz.Lib.GuardedRun
import Sparkz.Network.PeerConnectionHandler

/-!
# The network controller

The model of the part of `NetworkController` that keeps the table of connections:
dialling, connection events of the TCP manager, confirmations of the peer manager,
handshakes, terminations and the commands that close connections.

* `NetworkControllerSettings` — the settings, and what the controller asks of the
  machine that it runs on.
* `NetworkController` — the fields of the actor, `Input`, `Output` — its messages.
* `connectTo`, `handleNewConnectionCreation`, `createPeerConnectionHandler`,
  `handleHandshake`, … — the handlers, each with the messages that it sends.
* `receive` — the actor on one message.
* `Controlling`, `Event`, `step` — the controller between the TCP manager and the peer
  manager: the dials and the confirmations that are not answered yet.

Handlers are numbered in the order in which they are launched; the connection actors of
the TCP manager are numbers too.  `connections.values` comes in any order, which is a
setting.  The clock is an argument of the messages that make the controller read it.
-/

namespace Sparkz.Network

open Sparkz.Lib

/-! ## Addresses -/

namespace InetSocketAddress

/-- `isSiteLocalAddress`. -/
def isSiteLocalAddress (isa : InetSocketAddress) : Bool :=
  match isa.address with
  | [10, _, _, _] => true
  | [172, b, _, _] => b &&& 0xF0 == 16
  | [192, 168, _, _] => true
  | [_, _, _, _] => false
  | 0xFE :: b :: _ => b &&& 0xC0 == 0xC0
  | _ => false

/-- `isLoopbackAddress`. -/
def isLoopbackAddress (isa : InetSocketAddress) : Bool :=
  match isa.address with
  | [b, _, _, _] => b == 127
  | bytes => bytes == List.replicate 15 0 ++ [1]

/-- `isAnyLocalAddress`. -/
def isAnyLocalAddress (isa : InetSocketAddress) : Bool := isa.address.all (· == 0)

/-- `NetworkUtils.isLocalAddress(address)`. -/
def isLocalAddress (isa : InetSocketAddress) : Bool :=
  isa.isSiteLocalAddress || isa.isLoopbackAddress || isa.isAnyLocalAddress

/-- `new InetSocketAddress(isa.getAddress, port.getPort)`. -/
def withPort (isa port : InetSocketAddress) : InetSocketAddress :=
  ⟨isa.address, port.port, isa.address_length, port.port_le⟩

end InetSocketAddress

/-! ## State and messages -/

namespace NetworkController

/-- `ConnectedPeer(connectionId, handlerRef, lastMessage, peerInfo)`. -/
structure ConnectedPeer where
  connectionId : ConnectionId InetSocketAddress
  handlerRef : ℕ
  lastMessage : ℤ
  peerInfo : Option PeerInfo
  deriving DecidableEq, Repr

/-- `connections`. -/
abbrev Connections := LinkedMap InetSocketAddress ConnectedPeer

/-- The values of the map, in the order of their insertion. -/
def Connections.values (m : Connections) : List ConnectedPeer := m.entries.map Prod.snd

end NetworkController

open NetworkController

/-- The settings that the controller reads.  `listenAddresses` are the addresses that
`NetworkUtils.getListenAddresses` finds, `features` are those of the context, `values`
is the order in which the map of connections is traversed. -/
structure NetworkControllerSettings where
  bindAddress : InetSocketAddress
  listenAddresses : List InetSocketAddress
  externalNodeAddress : Option InetSocketAddress
  maxIncomingConnections : ℤ
  maxOutgoingConnections : ℤ
  maxForgerConnections : ℤ
  isForgerNode : Bool
  handlingTransactionsEnabled : Bool
  features : List PeerFeature
  networkMagic : List UInt8
  sessionId : UInt64
  connectionTimeout : ℤ
  inactiveConnectionDeadline : ℤ
  values : Connections → List NetworkController.ConnectedPeer
  values_perm : ∀ m, (values m).Perm m.values

/-- `maxConnections`, a 32-bit number. -/
def NetworkControllerSettings.maxConnections (s : NetworkControllerSettings) : ℤ :=
  (s.maxIncomingConnections + s.maxOutgoingConnections + s.maxForgerConnections).bmod (2 ^ 32)

/-- The fields of the actor that the modelled handlers use.  `launched` counts the
handlers that were started. -/
structure NetworkController where
  messageHandlers : LinkedMap UInt8 ℕ
  connections : Connections
  unconfirmedConnections : Finset InetSocketAddress
  lastIncomingMessageTime : ℤ
  launched : ℕ

namespace NetworkController

/-- The messages that the actor receives. -/
inductive Input where
  | message (msg : Message SelfPeer) (now : ℤ)
  | registerMessageSpecs (codes : List UInt8) (handler : ℕ)
  | connectTo (peer : PeerInfo)
  | disconnectFrom (handlerRef : ℕ)
  | penalizePeer (address : InetSocketAddress) (penaltyType : PenaltyType)
  | disconnectFromAddress (address : InetSocketAddress)
  | disconnectFromNode (address : InetSocketAddress)
  | connected (remoteAddress localAddress : InetSocketAddress) (sender : ℕ) (now : ℤ)
  | connectionConfirmed (connectionId : ConnectionId InetSocketAddress) (handlerRef : ℕ) (now : ℤ)
  | connectionDenied (connectionId : ConnectionId InetSocketAddress) (handlerRef : ℕ)
  | handshaked (peerInfo : PeerInfo) (sender : ℕ)
  | connectFailed (remoteAddress : InetSocketAddress) (now : ℤ)
  | terminated (ref : ℕ)
  | dropDeadConnections (now : ℤ)

/-- The messages that the actor sends, and the events that it publishes. -/
inductive Output where
  | toMessageHandler (handler : ℕ) (msg : Message SelfPeer)
  | connect (remoteAddress : InetSocketAddress)
  | close (connection : ℕ)
  | confirmConnection (connectionId : ConnectionId InetSocketAddress) (handlerRef : ℕ)
  | launch (handler connection : ℕ) (connectionId : ConnectionId InetSocketAddress)
      (selfAddress : Option InetSocketAddress) (peerFeatures : List PeerFeature)
  | closeConnection (handlerRef : ℕ)
  | removePeer (address : InetSocketAddress)
  | updatePeer (peerInfo : PeerInfo)
  | penalize (address : InetSocketAddress) (penaltyType : PenaltyType)
  | handshakedPeer (connectedPeer : ConnectedPeer)
  | disconnectedPeer (remoteAddress : InetSocketAddress)
  deriving DecidableEq, Repr

/-- The actor after its start. -/
def initial : NetworkController where
  messageHandlers := .empty
  connections := .empty
  unconfirmedConnections := ∅
  lastIncomingMessageTime := 0
  launched := 0

/-! ## Lookups -/

/-- `getPeerAddress(peer)`. -/
def getPeerAddress (peer : PeerInfo) : Option InetSocketAddress :=
  peer.peerSpec.localAddressOpt <|> peer.peerSpec.declaredAddress

/-- `connectionForHandler(handler)`. -/
def connectionForHandler (s : NetworkControllerSettings) (n : NetworkController) (handler : ℕ) :
    Option ConnectedPeer :=
  (s.values n.connections).find? fun connectedPeer => connectedPeer.handlerRef == handler

/-- The connection is known under the address: it is its remote address, or the peer has
told it. -/
def ConnectedPeer.isKnownAs (connectedPeer : ConnectedPeer) (peerAddress : InetSocketAddress) :
    Bool :=
  connectedPeer.connectionId.remoteAddress == peerAddress
    || connectedPeer.peerInfo.any fun peerInfo => getPeerAddress peerInfo == some peerAddress

/-- `connectionForPeerAddress(peerAddress)`. -/
def connectionForPeerAddress (s : NetworkControllerSettings) (n : NetworkController)
    (peerAddress : InetSocketAddress) : Option ConnectedPeer :=
  (s.values n.connections).find? fun connectedPeer => connectedPeer.isKnownAs peerAddress

/-- The connection has the given direction. -/
def ConnectedPeer.hasDirection (direction : ConnectionDirection) (p : ConnectedPeer) : Bool :=
  p.connectionId.direction == direction

/-- The peer has told that it is a forger. -/
def ConnectedPeer.isForger (p : ConnectedPeer) : Bool :=
  p.peerInfo.any fun peerInfo => peerInfo.peerSpec.features.contains .forgerNode

/-- `getOutgoingConnectionsSize`. -/
def getOutgoingConnectionsSize (n : NetworkController) : ℕ :=
  n.connections.countV (ConnectedPeer.hasDirection .outgoing)

/-- `getIncomingConnectionsSize`. -/
def getIncomingConnectionsSize (n : NetworkController) : ℕ :=
  n.connections.countV (ConnectedPeer.hasDirection .incoming)

/-- `getForgerConnectionsSize`. -/
def getForgerConnectionsSize (n : NetworkController) : ℕ :=
  n.connections.countV ConnectedPeer.isForger

/-- `canEstablishNewOutgoingConnection`. -/
def canEstablishNewOutgoingConnection (s : NetworkControllerSettings) (n : NetworkController) :
    Bool :=
  n.getOutgoingConnectionsSize < s.maxOutgoingConnections

/-- `canEstablishNewIncomingConnection`. -/
def canEstablishNewIncomingConnection (s : NetworkControllerSettings) (n : NetworkController) :
    Bool :=
  n.getIncomingConnectionsSize < s.maxIncomingConnections

/-- `canEstablishNewForgerConnection`. -/
def canEstablishNewForgerConnection (s : NetworkControllerSettings) (n : NetworkController) :
    Bool :=
  n.getForgerConnectionsSize < s.maxForgerConnections

/-- `shouldDropForgerConnection`. -/
def shouldDropForgerConnection (s : NetworkControllerSettings) (n : NetworkController) : Bool :=
  n.getForgerConnectionsSize > s.maxForgerConnections

/-- `shouldDropOutgoingConnection`. -/
def shouldDropOutgoingConnection (s : NetworkControllerSettings) (n : NetworkController) : Bool :=
  n.getOutgoingConnectionsSize > s.maxOutgoingConnections

/-- `shouldDropIncomingConnection`. -/
def shouldDropIncomingConnection (s : NetworkControllerSettings) (n : NetworkController) : Bool :=
  n.getIncomingConnectionsSize > s.maxIncomingConnections

/-- `isNewConnectionAndStillHaveRoom(remoteAddress)`. -/
def isNewConnectionAndStillHaveRoom (s : NetworkControllerSettings) (n : NetworkController)
    (remoteAddress : InetSocketAddress) : Bool :=
  (n.connectionForPeerAddress s remoteAddress).isNone && n.connections.size < s.maxConnections

/-- `isSelf(peerAddress)`. -/
def isSelf (s : NetworkControllerSettings) (peerAddress : InetSocketAddress) : Bool :=
  s.listenAddresses.contains peerAddress || s.externalNodeAddress == some peerAddress

/-- `getNodeAddressForPeer(localSocketAddress)`. -/
def getNodeAddressForPeer (s : NetworkControllerSettings)
    (localSocketAddress : InetSocketAddress) : Option InetSocketAddress :=
  match s.externalNodeAddress with
  | some extAddr => some extAddr
  | none =>
      if !localSocketAddress.isLocalAddress && localSocketAddress.port == s.bindAddress.port then
        some localSocketAddress
      else
        let listenAddrs := s.listenAddresses.filter fun addr => !addr.isLocalAddress
        (listenAddrs.find? fun addr => localSocketAddress.address == addr.address)
          <|> listenAddrs.head?

/-! ## Handlers -/

/-- `connectTo(peer)`. -/
def connectTo (s : NetworkControllerSettings) (n : NetworkController) (peer : PeerInfo) :
    NetworkController × List Output :=
  match getPeerAddress peer with
  | some remote =>
      if (n.connectionForPeerAddress s remote).isNone && !(remote ∈ n.unconfirmedConnections) then
        ({ n with unconfirmedConnections := insert remote n.unconfirmedConnections },
          [.connect remote])
      else (n, [])
  | none => (n, [])

/-- The features that a new handler tells its peer. -/
def peerFeatures (s : NetworkControllerSettings) (connectionId : ConnectionId InetSocketAddress) :
    List PeerFeature :=
  s.features ++ [.sessionId s.networkMagic s.sessionId]
    ++ (if s.handlingTransactionsEnabled then [] else [.transactionsDisabled])
    ++ (if connectionId.remoteAddress.isLocalAddress then
      [.localAddress (connectionId.localAddress.withPort s.bindAddress)] else [])
    ++ (if s.isForgerNode then [.forgerNode] else [])

/-- `createPeerConnectionHandler(connectionId, connection)`. -/
def createPeerConnectionHandler (s : NetworkControllerSettings) (n : NetworkController)
    (connectionId : ConnectionId InetSocketAddress) (connection : ℕ) (now : ℤ) :
    NetworkController × List Output :=
  let handler := n.launched
  ({ n with
      connections := n.connections.put connectionId.remoteAddress ⟨connectionId, handler, now, none⟩
      unconfirmedConnections := n.unconfirmedConnections.erase connectionId.remoteAddress
      launched := handler + 1 },
    [.launch handler connection connectionId (getNodeAddressForPeer s connectionId.localAddress)
      (peerFeatures s connectionId)])

/-- `handleNewConnectionCreation(remoteAddress, localAddress)`. -/
def handleNewConnectionCreation (s : NetworkControllerSettings) (n : NetworkController)
    (remoteAddress localAddress : InetSocketAddress) (sender : ℕ) (now : ℤ) :
    NetworkController × List Output :=
  if remoteAddress ∈ n.unconfirmedConnections then
    if n.canEstablishNewOutgoingConnection s || n.canEstablishNewForgerConnection s then
      n.createPeerConnectionHandler s ⟨remoteAddress, localAddress, .outgoing⟩ sender now
    else (n, [.close sender])
  else if n.canEstablishNewIncomingConnection s then
    (n, [.confirmConnection ⟨remoteAddress, localAddress, .incoming⟩ sender])
  else (n, [.close sender])

/-- `Connected(remoteAddress, localAddress)`. -/
def connected (s : NetworkControllerSettings) (n : NetworkController)
    (remoteAddress localAddress : InetSocketAddress) (sender : ℕ) (now : ℤ) :
    NetworkController × List Output :=
  if n.isNewConnectionAndStillHaveRoom s remoteAddress then
    n.handleNewConnectionCreation s remoteAddress localAddress sender now
  else (n, [.close sender])

/-- The peer is connected already, is this node itself or is from another network. -/
def shouldDropPeer (s : NetworkControllerSettings) (n : NetworkController) (peerInfo : PeerInfo)
    (peerHandlerRef : ℕ) (remoteAddress : InetSocketAddress) : Bool :=
  (n.connectionForPeerAddress s (peerInfo.peerSpec.address.getD remoteAddress)).any
      (fun connectedPeer => connectedPeer.handlerRef != peerHandlerRef)
    || (peerInfo.peerSpec.features.findSome? fun
        | .sessionId networkMagic sessionId =>
            some (networkMagic != s.networkMagic || sessionId == s.sessionId)
        | _ => none).getD (isSelf s remoteAddress)

/-- `isForgerConnection` in `handleHandshake`. -/
def isForgerConnection (s : NetworkControllerSettings) (peerInfo : PeerInfo) : Bool :=
  peerInfo.peerSpec.features.contains .forgerNode && s.isForgerNode

/-- `isConnectionLimitExhausted(peerInfo, isForgerConnection)`. -/
def isConnectionLimitExhausted (s : NetworkControllerSettings) (n : NetworkController)
    (peerInfo : PeerInfo) (isForgerConnection : Bool) : Bool :=
  (isForgerConnection && n.shouldDropForgerConnection s)
    || (!isForgerConnection && peerInfo.connectionType == some .incoming
      && n.shouldDropIncomingConnection s)
    || (!isForgerConnection && peerInfo.connectionType == some .outgoing
      && n.shouldDropOutgoingConnection s)

/-- `handleHandshake(peerInfo, peerHandlerRef)`. -/
def handleHandshake (s : NetworkControllerSettings) (n : NetworkController) (peerInfo : PeerInfo)
    (peerHandlerRef : ℕ) : NetworkController × List Output :=
  match n.connectionForHandler s peerHandlerRef with
  | some connectedPeer =>
      let remoteAddress := connectedPeer.connectionId.remoteAddress
      if n.shouldDropPeer s peerInfo peerHandlerRef remoteAddress
          || n.isConnectionLimitExhausted s peerInfo (isForgerConnection s peerInfo) then
        ({ n with connections := n.connections.remove remoteAddress },
          [.closeConnection connectedPeer.handlerRef,
            .removePeer (peerInfo.peerSpec.address.getD remoteAddress)])
      else
        let updatedConnectedPeer := { connectedPeer with peerInfo := some peerInfo }
        ({ n with connections := n.connections.put remoteAddress updatedConnectedPeer },
          [.updatePeer peerInfo, .handshakedPeer updatedConnectedPeer])
  | none => (n, [])

/-- `CommandFailed(c: Connect)`. -/
def connectFailed (s : NetworkControllerSettings) (n : NetworkController)
    (remoteAddress : InetSocketAddress) (now : ℤ) : NetworkController × List Output :=
  ({ n with unconfirmedConnections := n.unconfirmedConnections.erase remoteAddress },
    if now - n.lastIncomingMessageTime < s.connectionTimeout then [.removePeer remoteAddress]
    else [])

/-- `Terminated(ref)`. -/
def terminated (s : NetworkControllerSettings) (n : NetworkController) (ref : ℕ) :
    NetworkController × List Output :=
  match n.connectionForHandler s ref with
  | some connectedPeer =>
      let remoteAddress := connectedPeer.connectionId.remoteAddress
      ({ n with
          connections := n.connections.remove remoteAddress
          unconfirmedConnections := n.unconfirmedConnections.erase remoteAddress },
        [.disconnectedPeer remoteAddress])
  | none => (n, [])

/-- What both commands to close a connection do: the entries that are left, and what is
sent about the others. -/
def closeWhere (s : NetworkControllerSettings) (n : NetworkController)
    (peerAddress : InetSocketAddress) (keep : InetSocketAddress × ConnectedPeer → Bool) :
    NetworkController × List Output :=
  ({ n with connections := n.connections.filter keep },
    (s.values (n.connections.filter fun e => !keep e)).flatMap fun connectedPeer =>
      [.closeConnection connectedPeer.handlerRef, .disconnectedPeer peerAddress])

/-- `closeConnection(peerAddress)`. -/
def closeConnection (s : NetworkControllerSettings) (n : NetworkController)
    (peerAddress : InetSocketAddress) : NetworkController × List Output :=
  n.closeWhere s peerAddress fun e => e.2.connectionId.remoteAddress != peerAddress

/-- `closeConnectionFromNode(peerAddress)`. -/
def closeConnectionFromNode (s : NetworkControllerSettings) (n : NetworkController)
    (peerAddress : InetSocketAddress) : NetworkController × List Output :=
  n.closeWhere s peerAddress fun e => e.1 != peerAddress

/-- A message that came in from a peer. -/
def incomingMessage (n : NetworkController) (msg : Message SelfPeer) (now : ℤ) :
    NetworkController × List Output :=
  match msg.source with
  | some remote =>
      let remoteAddress := remote.connectionId.remoteAddress
      let forwarded := (n.messageHandlers.get? msg.messageCode).toList.map
        fun handler => .toMessageHandler handler msg
      match n.connections.get? remoteAddress with
      | some cp =>
          ({ n with
              connections := n.connections.put remoteAddress { cp with lastMessage := now }
              lastIncomingMessageTime := now }, forwarded)
      | none => (n, forwarded)
  | none => (n, [])

/-- The task of `scheduleDroppingDeadConnections`. -/
def dropDeadConnections (s : NetworkControllerSettings) (n : NetworkController) (now : ℤ) :
    NetworkController × List Output :=
  (n, ((s.values n.connections).filter
    fun cp => now - cp.lastMessage > s.inactiveConnectionDeadline).map
      fun cp => .closeConnection cp.handlerRef)

/-- The actor on one message. -/
def receive (s : NetworkControllerSettings) (n : NetworkController) :
    Input → NetworkController × List Output
  | .message msg now => n.incomingMessage msg now
  | .registerMessageSpecs codes handler =>
      let messageHandlers := codes.foldl (fun m code => m.put code handler) n.messageHandlers
      ({ n with messageHandlers := messageHandlers }, [])
  | .connectTo peer => n.connectTo s peer
  | .disconnectFrom handlerRef => (n, [.closeConnection handlerRef])
  | .penalizePeer address penaltyType => (n, [.penalize address penaltyType])
  | .disconnectFromAddress address => n.closeConnection s address
  | .disconnectFromNode address => n.closeConnectionFromNode s address
  | .connected remoteAddress localAddress sender now =>
      n.connected s remoteAddress localAddress sender now
  | .connectionConfirmed connectionId handlerRef now =>
      n.createPeerConnectionHandler s connectionId handlerRef now
  | .connectionDenied _ handlerRef => (n, [.close handlerRef])
  | .handshaked peerInfo sender => n.handleHandshake s peerInfo sender
  | .connectFailed remoteAddress now => n.connectFailed s remoteAddress now
  | .terminated ref => n.terminated s ref
  | .dropDeadConnections now => n.dropDeadConnections s now

end NetworkController

/-! ## The controller and its environment -/

/-- The controller, the dials that the TCP manager has not answered yet and the
confirmations that the peer manager has not answered yet. -/
structure Controlling where
  controller : NetworkController
  dials : List InetSocketAddress
  confirmations : List (ConnectionId InetSocketAddress × ℕ)

namespace Controlling

open NetworkController

/-- A message for the controller.  `Connected` comes for a dial, or for a connection
that a peer has opened, and looks the same. -/
inductive Event where
  | dialled (remoteAddress localAddress : InetSocketAddress) (sender : ℕ) (now : ℤ)
  | input (i : Input)

/-- The message as the controller sees it. -/
def Event.toInput : Event → Input
  | .dialled remoteAddress localAddress sender now =>
      .connected remoteAddress localAddress sender now
  | .input i => i

/-- The dial that the message answers. -/
def Event.dial : Event → Option InetSocketAddress
  | .dialled remoteAddress _ _ _ => some remoteAddress
  | .input (.connectFailed remoteAddress _) => some remoteAddress
  | _ => none

/-- The confirmation that the message answers. -/
def Event.confirmation : Event → Option (ConnectionId InetSocketAddress × ℕ)
  | .input (.connectionConfirmed connectionId handlerRef _) => some (connectionId, handlerRef)
  | .input (.connectionDenied connectionId handlerRef) => some (connectionId, handlerRef)
  | _ => none

/-- The dials among the messages sent. -/
def dialsOf (sent : List Output) : List InetSocketAddress :=
  sent.filterMap fun
    | .connect remoteAddress => some remoteAddress
    | _ => none

/-- The confirmations asked for among the messages sent. -/
def confirmationsOf (sent : List Output) : List (ConnectionId InetSocketAddress × ℕ) :=
  sent.filterMap fun
    | .confirmConnection connectionId handlerRef => some (connectionId, handlerRef)
    | _ => none

/-- Before the first message. -/
def initial : Controlling := ⟨NetworkController.initial, [], []⟩

/-- The controller handles one message. -/
def step (s : NetworkControllerSettings) (x : Controlling) (e : Event) : Controlling :=
  let (controller, sent) := x.controller.receive s e.toInput
  { controller := controller
    dials := e.dial.elim x.dials x.dials.erase ++ dialsOf sent
    confirmations := e.confirmation.elim x.confirmations x.confirmations.erase
      ++ confirmationsOf sent }

theorem step_controller (s : NetworkControllerSettings) (x : Controlling) (e : Event) :
    (x.step s e).controller = (x.controller.receive s e.toInput).1 := rfl

theorem step_dials (s : NetworkControllerSettings) (x : Controlling) (e : Event) :
    (x.step s e).dials = e.dial.elim x.dials x.dials.erase
      ++ dialsOf (x.controller.receive s e.toInput).2 := rfl

/-- The messages that can come: an answer to a dial or to a confirmation needs one, and
a handler tells the direction of its own connection with the handshake. -/
def Possible (s : NetworkControllerSettings) (x : Controlling) : Event → Bool
  | .dialled remoteAddress _ _ _ => remoteAddress ∈ x.dials
  | .input (.connectFailed remoteAddress _) => remoteAddress ∈ x.dials
  | .input (.connectionConfirmed connectionId handlerRef _) =>
      (connectionId, handlerRef) ∈ x.confirmations
  | .input (.connectionDenied connectionId handlerRef) =>
      (connectionId, handlerRef) ∈ x.confirmations
  | .input (.handshaked peerInfo sender) =>
      (x.controller.connectionForHandler s sender).all fun p =>
        peerInfo.connectionType == some p.connectionId.direction
  | _ => true

/-! ## A small network -/

theorem ownAddress_length : ([10, 0, 0, 1] : List UInt8).length = 4 ∨
    ([10, 0, 0, 1] : List UInt8).length = 16 := .inl rfl

theorem plainPort_le : 9084 ≤ 65535 := by decide

/-- A node with the given limits; its connections are traversed in the order in which
they came in. -/
def plainSettings (incoming outgoing forger : ℤ) : NetworkControllerSettings where
  bindAddress := ⟨[10, 0, 0, 1], 9084, ownAddress_length, plainPort_le⟩
  listenAddresses := [⟨[10, 0, 0, 1], 9084, ownAddress_length, plainPort_le⟩]
  externalNodeAddress := none
  maxIncomingConnections := incoming
  maxOutgoingConnections := outgoing
  maxForgerConnections := forger
  isForgerNode := true
  handlingTransactionsEnabled := true
  features := []
  networkMagic := [0, 1, 2, 3]
  sessionId := 7
  connectionTimeout := 1000
  inactiveConnectionDeadline := 60000
  values := Connections.values
  values_perm _ := .refl _

/-- A host of the test network. -/
def host (n : UInt8) : InetSocketAddress := ⟨[88, 0, 0, n], 9084, by simp, plainPort_le⟩

/-- What a peer tells about itself. -/
def peer (declared : Option InetSocketAddress) (features : List PeerFeature)
    (direction : Option ConnectionDirection) : PeerInfo :=
  ⟨⟨[97], ⟨0, 0, 1⟩, [], declared, features⟩, 0, direction⟩

end Controlling

end Sparkz.Network
