import Sparkz.Serialization.VLQ

/-!
# Peer specifications and handshakes

The model of `PeerSpec`, the peer features of the repository, and the codec of
`HandshakeSpec`.

* `InetSocketAddress`, `PeerFeature`, `PeerSpec`, `Handshake` — the data.
* `PeerSpec.address`, `localAddressOpt` — the address under which a peer is known.
* `PeerSpec.serialize`, `PeerSpec.parse`, `HandshakeSpec.toBytes`,
  `HandshakeSpec.parse` — the codec.  A parser reads from the front of its input and
  does not look at what follows, except that a handshake must not be too long as a
  whole.
-/

namespace Sparkz.Network

open Sparkz.Serialization

/-- A resolved `InetSocketAddress`. -/
structure InetSocketAddress where
  address : List UInt8
  port : ℕ
  address_length : address.length = 4 ∨ address.length = 16
  port_le : port ≤ 65535
  deriving DecidableEq, Repr

namespace InetSocketAddress

/-- `InetAddress.getByAddress(bytes)`: an IPv4-mapped IPv6 address is an IPv4 one. -/
def getByAddress (bytes : List UInt8) : Option (List UInt8) :=
  if bytes.length = 4 then some bytes
  else if bytes.length = 16 then
    if bytes.take 12 = [0, 0, 0, 0, 0, 0, 0, 0, 0, 0, 0xFF, 0xFF] then some (bytes.drop 12)
    else some bytes
  else none

/-- `new InetSocketAddress(InetAddress.getByAddress(bytes), port)`. -/
def ofBytes (bytes : List UInt8) (port : ℕ) : Option InetSocketAddress :=
  match getByAddress bytes with
  | some address =>
      if h : (address.length = 4 ∨ address.length = 16) ∧ port ≤ 65535 then
        some ⟨address, port, h.1, h.2⟩
      else none
  | none => none

end InetSocketAddress

/-- `r.getUInt().toIntExact`, with which a port is read. -/
def getPort : VLQReader ℕ := do
  let port ← VLQReader.getUInt
  if port ≤ 2147483647 then return port else failure

/-- The `PeerFeature`s of the repository. -/
inductive PeerFeature where
  | sessionId (networkMagic : List UInt8) (sessionId : UInt64)
  | localAddress (address : InetSocketAddress)
  | forgerNode
  | transactionsDisabled
  deriving DecidableEq, Repr

namespace PeerFeature

/-- `featureId`. -/
def featureId : PeerFeature → UInt8
  | .localAddress _ => 2
  | .sessionId _ _ => 3
  | .transactionsDisabled => 4
  | .forgerNode => 5

/-- `bytes`, by the serializer of the feature. -/
def bytes : PeerFeature → Option (List UInt8)
  | .sessionId networkMagic session => some (networkMagic ++ VLQWriter.putLong session)
  | .localAddress isa => (VLQWriter.putUInt isa.port).map fun port => isa.address ++ port
  | .forgerNode => some []
  | .transactionsDisabled => some []

open VLQReader in
/-- The parser of the serializer that is registered under a feature id. -/
def parse : UInt8 → Option (VLQReader PeerFeature)
  | 2 => some do
      let fa ← getBytes 4
      let port ← getPort
      let isa ← StateT.lift (InetSocketAddress.ofBytes fa port)
      return .localAddress isa
  | 3 => some do
      let networkMagic ← getBytes 4
      let session ← getLong
      return .sessionId networkMagic session
  | 4 => some (pure .transactionsDisabled)
  | 5 => some (pure .forgerNode)
  | _ => none

end PeerFeature

/-- `Version`. -/
structure Version where
  firstDigit : UInt8
  secondDigit : UInt8
  thirdDigit : UInt8
  deriving DecidableEq, Repr

/-- `PeerSpec`. -/
structure PeerSpec where
  agentName : List UInt8
  protocolVersion : Version
  nodeName : List UInt8
  declaredAddress : Option InetSocketAddress
  features : List PeerFeature
  deriving DecidableEq, Repr

/-- `Handshake(peerSpec, time)`. -/
structure Handshake where
  peerSpec : PeerSpec
  time : UInt64
  deriving DecidableEq, Repr

namespace PeerSpec

/-- `localAddressOpt`. -/
def localAddressOpt (spec : PeerSpec) : Option InetSocketAddress :=
  spec.features.findSome? fun
    | .localAddress address => some address
    | _ => none

/-- `address`. -/
def address (spec : PeerSpec) : Option InetSocketAddress :=
  spec.declaredAddress <|> spec.localAddressOpt

/-- `equals(obj)`: the features are compared as sets, by their contents. -/
def equals (spec other : PeerSpec) : Bool :=
  spec.agentName == other.agentName && spec.protocolVersion == other.protocolVersion
    && spec.nodeName == other.nodeName && spec.declaredAddress == other.declaredAddress
    && (spec.features.all other.features.contains && other.features.all spec.features.contains)

theorem equals_comm (spec other : PeerSpec) : spec.equals other = other.equals spec := by
  rw [equals, equals, Bool.beq_comm (a := spec.agentName),
    Bool.beq_comm (a := spec.protocolVersion), Bool.beq_comm (a := spec.nodeName),
    Bool.beq_comm (a := spec.declaredAddress), Bool.and_comm (spec.features.all _)]

/-! ## The codec -/

open VLQWriter in
/-- The address in `PeerSpecSerializer.serialize`. -/
def putAddress (isa : InetSocketAddress) : Option (List UInt8) := do
  let port ← putUInt isa.port
  return UInt8.ofNat (isa.address.length + 4) :: isa.address ++ port

open VLQWriter in
/-- One feature in `PeerSpecSerializer.serialize`. -/
def putFeature (f : PeerFeature) : Option (List UInt8) := do
  let fBytes ← f.bytes
  if fBytes.length ≤ 32767 then
    let size ← putUShort fBytes.length
    return f.featureId :: size ++ fBytes
  else none

open VLQWriter in
/-- `PeerSpecSerializer.serialize(obj, w)`. -/
def serialize (spec : PeerSpec) : Option (List UInt8) := do
  let agentName ← putShortString spec.agentName
  let version := [spec.protocolVersion.firstDigit, spec.protocolVersion.secondDigit,
    spec.protocolVersion.thirdDigit]
  let nodeName ← putShortString spec.nodeName
  let declaredAddress ← putOption spec.declaredAddress putAddress
  if spec.features.length ≤ 127 then
    let features ← spec.features.mapM putFeature
    return agentName ++ version ++ nodeName ++ declaredAddress
      ++ UInt8.ofNat spec.features.length :: features.flatten
  else none

open VLQReader

/-- The declared address in `PeerSpecSerializer.parse`. -/
def getAddress : VLQReader InetSocketAddress := do
  let fas ← getUByte
  let fa ← getBytes (fas - 4)
  let port ← getPort
  StateT.lift (InetSocketAddress.ofBytes fa port)

/-- One feature in `PeerSpecSerializer.parse`: a feature without a registered
serializer, or one that cannot be parsed, is left out. -/
def getFeature (serializers : List UInt8) : VLQReader (Option PeerFeature) := do
  let featId ← getByte
  let featBytesCount ← getUShort
  if featBytesCount ≤ 32767 then
    let featChunk ← getBytes featBytesCount
    if featId ∈ serializers then
      return (PeerFeature.parse featId).bind fun parser => (parser featChunk).map Prod.fst
    else return none
  else failure

/-- `PeerSpecSerializer.parse(r)`, with the feature ids that have a serializer. -/
def parse (serializers : List UInt8) : VLQReader PeerSpec := do
  let appName ← getShortString
  if appName = [] then failure
  let firstDigit ← getByte
  let secondDigit ← getByte
  let thirdDigit ← getByte
  let nodeName ← getShortString
  let declaredAddressOpt ← getOption getAddress
  let featuresCount ← getByte
  let feats ← (List.range featuresCount.toInt8.toInt.toNat).mapM fun _ => getFeature serializers
  return ⟨appName, ⟨firstDigit, secondDigit, thirdDigit⟩, nodeName, declaredAddressOpt,
    feats.filterMap id⟩

end PeerSpec

/-- `HandshakeSpec(featureSerializers, sizeLimit)`. -/
structure HandshakeSpec where
  featureSerializers : List UInt8
  sizeLimit : ℤ

namespace HandshakeSpec

open VLQReader

/-- `toBytes(hs)`. -/
def toBytes (hs : Handshake) : Option (List UInt8) :=
  hs.peerSpec.serialize.map fun bytes => VLQWriter.putULong hs.time ++ bytes

/-- `parse(r)`. -/
def parse (spec : HandshakeSpec) : VLQReader Handshake := do
  let size ← remaining
  if (size : ℤ) ≤ spec.sizeLimit then
    let t ← getULong
    let data ← PeerSpec.parse spec.featureSerializers
    return ⟨data, t⟩
  else failure

/-- `parseBytesTry(bytes)`: what is left in the reader is not looked at. -/
def parseBytesTry (spec : HandshakeSpec) (bytes : List UInt8) : Option Handshake :=
  (spec.parse bytes).map Prod.fst

end HandshakeSpec

end Sparkz.Network
