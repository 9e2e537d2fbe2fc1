import Sparkz.Lib.SortedMap
import Sparkz.Network.DeliveryTracker
import Sparkz.Network.NodeViewSynchronizer
import Sparkz.Network.MessageSerializer
import Sparkz.Network.PeerSpec

/-!
# The peer connection handler

The model of `PeerConnectionHandler`, the actor between the network controller and
one TCP connection.

* `Behaviour` — waiting for the handshake, writing, buffering after a failed write, or
  stopped.
* `Input`, `Output` — the messages that the actor receives and sends.
* `receiveAndHandleHandshake`, `localInterfaceWriting`, `localInterfaceBuffering`,
  `remoteInterface`, `closeCommands` — the partial functions that the behaviours are
  put together from, `receive` — the actor on one message, `run` — on many.

The clock that a handshake is stamped with is an argument of the message that makes
the actor read it.
-/

namespace Sparkz.Network

open Sparkz.Lib

/-- `PeerInfo`. -/
structure PeerInfo where
  peerSpec : PeerSpec
  lastHandshake : ℤ
  connectionType : Option ConnectionDirection
  deriving DecidableEq, Repr

namespace PeerInfo

/-- `equals(obj)`. -/
def equals (info other : PeerInfo) : Bool :=
  info.peerSpec.equals other.peerSpec && info.lastHandshake == other.lastHandshake
    && info.connectionType == other.connectionType

theorem equals_comm (info other : PeerInfo) : info.equals other = other.equals info := by
  rw [equals, equals, PeerSpec.equals_comm, Bool.beq_comm (a := info.lastHandshake),
    Bool.beq_comm (a := info.connectionType)]

end PeerInfo

/-- The `ConnectedPeer` that the handler makes of itself after the handshake. -/
structure SelfPeer where
  connectionId : ConnectionId InetSocketAddress
  peerInfo : PeerInfo
  deriving DecidableEq, Repr

/-- The constructor parameters that the handler works with. -/
structure ConnectionDescription where
  connectionId : ConnectionId InetSocketAddress
  handshakeSerializer : HandshakeSpec
  messageSerializer : MessageSerializer

/-- The receive functions that the actor switches between. -/
inductive Behaviour where
  | handshaking
  | workingCycleWriting
  | workingCycleBuffering
  | stopped
  deriving DecidableEq, Repr

/-- The fields of the actor. -/
structure PeerConnectionHandler where
  behaviour : Behaviour
  selfPeer : Option SelfPeer
  chunksBuffer : List UInt8
  outMessagesBuffer : SortedMap ℕ (List UInt8)
  outMessagesCounter : ℕ

namespace PeerConnectionHandler

/-- The messages that the actor receives. -/
inductive Input where
  | received (data : List UInt8) (now : ℤ)
  | message (msg : Message SelfPeer)
  | writeFailed (msg : List UInt8) (id : ℕ)
  | resumeWritingFailed
  | ack (id : ℕ)
  | writingResumed
  | handshakeTimeout
  | closeConnection
  | connectionClosed
  deriving DecidableEq, Repr

/-- The messages that the actor sends: to its connection, to the network controller,
and to itself. -/
inductive Output where
  | write (msg : List UInt8) (ack : Option ℕ)
  | resumeWriting
  | resumeReading
  | abort
  | handshaked (peerInfo : PeerInfo)
  | forward (msg : Message SelfPeer)
  | penalizePeer (address : InetSocketAddress) (penaltyType : PenaltyType)
  | closeSelf
  deriving DecidableEq, Repr

/-- Is the message for the network controller? -/
def Output.isForController : Output → Bool
  | .handshaked _ => true
  | .forward _ => true
  | .penalizePeer _ _ => true
  | _ => false

/-- The actor after `preStart`, which has sent its own handshake. -/
def fresh : PeerConnectionHandler where
  behaviour := .handshaking
  selfPeer := none
  chunksBuffer := []
  outMessagesBuffer := .empty
  outMessagesCounter := 0

/-! ## Handshake -/

/-- `receiveAndHandleHandshake`, with the handler that `handshaking` passes to it. -/
def receiveAndHandleHandshake (c : ConnectionDescription) (h : PeerConnectionHandler)
    (data : List UInt8) (now : ℤ) : PeerConnectionHandler × List Output :=
  match c.handshakeSerializer.parseBytesTry data with
  | some receivedHandshake =>
      let peerInfo : PeerInfo :=
        ⟨receivedHandshake.peerSpec, now, some c.connectionId.direction⟩
      ({ h with selfPeer := some ⟨c.connectionId, peerInfo⟩, behaviour := .workingCycleWriting },
        [.handshaked peerInfo, .resumeReading])
  | none =>
      (h, h.selfPeer.toList.map fun p =>
        .penalizePeer p.connectionId.remoteAddress .disconnectPenalty)

/-! ## Writing -/

/-- `writeFirst()`. -/
def writeFirst (h : PeerConnectionHandler) : List Output :=
  match h.outMessagesBuffer.head? with
  | some (id, msg) => [.write msg (some id)]
  | none => []

/-- `buffer(id, msg)`. -/
def buffer (h : PeerConnectionHandler) (id : ℕ) (msg : List UInt8) : PeerConnectionHandler :=
  { h with outMessagesBuffer := h.outMessagesBuffer.insert id msg }

/-- `pushAllWithNoAck()`. -/
def pushAllWithNoAck (h : PeerConnectionHandler) : List Output :=
  h.outMessagesBuffer.entries.map fun e => .write e.2 none

/-- `localInterfaceWriting`; `none` where it is not defined. -/
def localInterfaceWriting (c : ConnectionDescription) (h : PeerConnectionHandler) :
    Input → Option (PeerConnectionHandler × List Output)
  | .message msg =>
      let id := h.outMessagesCounter + 1
      some ({ h with outMessagesCounter := id },
        [.write (c.messageSerializer.serialize msg) (some id)])
  | .writeFailed msg id =>
      some ({ h.buffer id msg with behaviour := .workingCycleBuffering }, [.resumeWriting])
  | .ack _ => some (h, [])
  | .writingResumed => some (h, [])
  | _ => none

/-- `localInterfaceBuffering`; `none` where it is not defined. -/
def localInterfaceBuffering (c : ConnectionDescription) (h : PeerConnectionHandler) :
    Input → Option (PeerConnectionHandler × List Output)
  | .message msg =>
      let id := h.outMessagesCounter + 1
      some ({ h with outMessagesCounter := id }.buffer id (c.messageSerializer.serialize msg), [])
  | .writeFailed msg id => some (h.buffer id msg, [.resumeWriting])
  | .resumeWritingFailed => some (h, [])
  | .writingResumed => some (h, h.writeFirst)
  | .ack id =>
      let h' := { h with outMessagesBuffer := h.outMessagesBuffer.erase id }
      if h'.outMessagesBuffer.nonEmpty then some (h', h'.writeFirst)
      else some ({ h' with behaviour := .workingCycleWriting }, [])
  | _ => none

/-! ## Reading -/

/-- `remoteInterface`, on `Received(data)`: the loop `process()` takes the messages off
the buffer, and ends by banning the peer when what it finds is malicious. -/
def remoteInterface (c : ConnectionDescription) (h : PeerConnectionHandler) (data : List UInt8) :
    PeerConnectionHandler × List Output :=
  let (messages, rest, failure) :=
    Framing.receiveChunk (c.messageSerializer.decode h.selfPeer) h.chunksBuffer data
  let penalty : List Output := match failure with
    | some e =>
        if e.isMalicious then
          [.penalizePeer c.connectionId.remoteAddress .disconnectPenalty] else []
    | none => []
  ({ h with chunksBuffer := rest }, messages.map .forward ++ penalty ++ [.resumeReading])

/-- `closeCommands`; `none` where it is not defined. -/
def closeCommands (h : PeerConnectionHandler) :
    Input → Option (PeerConnectionHandler × List Output)
  | .closeConnection => some (h, h.pushAllWithNoAck ++ [.abort])
  | .connectionClosed => some ({ h with behaviour := .stopped }, [])
  | _ => none

/-! ## The actor -/

/-- What the two working cycles share behind their local interfaces; other input is
only logged. -/
def remoteOrClose (c : ConnectionDescription) (h : PeerConnectionHandler) :
    Input → PeerConnectionHandler × List Output
  | .received data _ => h.remoteInterface c data
  | input => (h.closeCommands input).getD (h, [])

/-- The actor on one message. -/
def receive (c : ConnectionDescription) (h : PeerConnectionHandler) (input : Input) :
    PeerConnectionHandler × List Output :=
  match h.behaviour with
  | .handshaking =>
      match input with
      | .received data now => h.receiveAndHandleHandshake c data now
      | .handshakeTimeout => (h, [.closeSelf])
      | input => (h.closeCommands input).getD (h, [])
  | .workingCycleWriting => (h.localInterfaceWriting c input).getD (h.remoteOrClose c input)
  | .workingCycleBuffering => (h.localInterfaceBuffering c input).getD (h.remoteOrClose c input)
  | .stopped => (h, [])

/-- The actor on a sequence of messages: its state and everything that it has sent. -/
def run (c : ConnectionDescription) :
    PeerConnectionHandler → List Input → PeerConnectionHandler × List Output
  | h, [] => (h, [])
  | h, input :: inputs =>
      let (h', sent) := h.receive c input
      let (h'', sent') := run c h' inputs
      (h'', sent ++ sent')

end PeerConnectionHandler

end Sparkz.Network
