import Sparkz.Serialization.Ranges
import Sparkz.Network.PeerSpec

/-!
# Handshakes are read back

What `HandshakeSpec.parse` makes of the bytes of a handshake.  All parts of it are read
back but for two kinds of addresses: the parser of a local address takes four bytes, and
an IPv6 address that stands for an IPv4 one is read as the IPv4 one.

* `Handshake.WellFormed` — the handshakes that the protocol admits.
* `PeerFeature.Readable`, `InetSocketAddress.Readable` — the features and addresses that
  their parsers give back; `getFeature_putFeature`, `getAddress_putAddress`.
* `parseBytesTry_toBytes_iff` — a handshake is read back exactly if its features and its
  declared address are readable.
-/

namespace Sparkz.Network

open Sparkz.Serialization VLQReader VLQWriter

/-! ## Addresses -/

/-- `InetAddress.getByAddress` gives the address back. -/
def InetSocketAddress.Readable (isa : InetSocketAddress) : Prop :=
  InetSocketAddress.getByAddress isa.address = some isa.address

instance (isa : InetSocketAddress) : Decidable isa.Readable :=
  inferInstanceAs (Decidable (_ = _))

/-- An address is read as an address with the same port; it is the same one if it is
readable. -/
theorem InetSocketAddress.ofBytes_address (isa : InetSocketAddress) :
    ∃ isa', InetSocketAddress.ofBytes isa.address isa.port = some isa'
      ∧ (isa' = isa ↔ isa.Readable) := by
  obtain ⟨address, port, hlen, hport⟩ := isa
  have hsome : ∃ a, InetSocketAddress.getByAddress address = some a
      ∧ (a.length = 4 ∨ a.length = 16) := by
    rw [InetSocketAddress.getByAddress]
    rcases hlen with h4 | h16
    · exact ⟨address, by rw [if_pos h4], .inl h4⟩
    · rw [if_neg (by omega), if_pos h16]
      split
      · exact ⟨address.drop 12, rfl, .inl (by rw [List.length_drop, h16])⟩
      · exact ⟨address, rfl, .inr h16⟩
  obtain ⟨a, ha, halen⟩ := hsome
  refine ⟨⟨a, port, halen, hport⟩, ?_, ?_⟩
  · simp only [InetSocketAddress.ofBytes, ha, dif_pos (And.intro halen hport)]
  · rw [InetSocketAddress.Readable, ha]
    simp

theorem getPort_putUInt {port : ℕ} (h : port ≤ 65535) :
    ∃ out, putUInt port = some out ∧ ∀ rest, getPort (out ++ rest) = some (port, rest) := by
  obtain ⟨out, hput, hget⟩ := getUInt_putUInt (x := port) (by omega)
  refine ⟨out, hput, fun rest => bind_eq_some.2 ⟨_, _, hget rest, ?_⟩⟩
  rw [Int.toNat_natCast, if_pos (by omega)]
  rfl

/-- **The declared address** is read back if it is readable, and nothing after it is
touched. -/
theorem getAddress_putAddress (isa : InetSocketAddress) :
    ∃ out isa', PeerSpec.putAddress isa = some out
      ∧ (∀ rest, PeerSpec.getAddress (out ++ rest) = some (isa', rest))
      ∧ (isa' = isa ↔ isa.Readable) := by
  obtain ⟨port, hput, hget⟩ := getPort_putUInt isa.port_le
  obtain ⟨isa', hof, hiff⟩ := isa.ofBytes_address
  refine ⟨UInt8.ofNat (isa.address.length + 4) :: isa.address ++ port, isa', ?_, fun rest => ?_,
    hiff⟩
  · simp [PeerSpec.putAddress, hput]
  · have hsize : ((UInt8.ofNat (isa.address.length + 4)).toNat : ℤ) - 4 = isa.address.length := by
      rw [UInt8.toNat_ofNat']
      rcases isa.address_length with h | h <;> rw [h] <;> rfl
    refine bind_eq_some.2 ⟨_, _, bind_eq_some.2 ⟨_, _, rfl, rfl⟩, ?_⟩
    refine bind_eq_some.2 ⟨isa.address, port ++ rest, ?_, ?_⟩
    · rw [hsize]
      exact (congrArg _ (List.append_assoc ..)).trans (getBytes_append rfl _)
    · exact bind_eq_some.2 ⟨_, _, hget rest, lift_eq_some.2 ⟨hof, rfl⟩⟩

/-! ## Features -/

namespace PeerFeature

/-- The magic of a session has four bytes. -/
def Admitted : PeerFeature → Prop
  | .sessionId networkMagic _ => networkMagic.length = 4
  | _ => True

instance : DecidablePred Admitted
  | .sessionId networkMagic _ => inferInstanceAs (Decidable (networkMagic.length = 4))
  | .localAddress _ => .isTrue trivial
  | .forgerNode => .isTrue trivial
  | .transactionsDisabled => .isTrue trivial

/-- The parser of a local address takes four bytes for it. -/
def Readable : PeerFeature → Prop
  | .localAddress isa => isa.address.length = 4
  | _ => True

instance : DecidablePred Readable
  | .sessionId _ _ => .isTrue trivial
  | .localAddress isa => inferInstanceAs (Decidable (isa.address.length = 4))
  | .forgerNode => .isTrue trivial
  | .transactionsDisabled => .isTrue trivial

/-- What the parser registered for a feature makes of bytes. -/
def parseTry (featureId : UInt8) (bytes : List UInt8) : Option PeerFeature :=
  (parse featureId).bind fun parser => (parser bytes).map Prod.fst

theorem parseTry_eq_some {featureId : UInt8} {parser : VLQReader PeerFeature}
    {bytes rest : List UInt8} {f : PeerFeature} (hparser : parse featureId = some parser)
    (hread : parser bytes = some (f, rest)) : parseTry featureId bytes = some f := by
  rw [parseTry, hparser]
  show (parser bytes).map Prod.fst = _
  rw [hread]
  rfl

/-- A local address is read with four bytes. -/
theorem parseTry_localAddress {isa : InetSocketAddress} {bytes : List UInt8}
    (h : parseTry 2 bytes = some (.localAddress isa)) : isa.address.length = 4 := by
  obtain ⟨⟨_, rest⟩, hread, rfl⟩ := Option.map_eq_some_iff.1 h
  obtain ⟨fa, mid, hfa, hread⟩ := bind_eq_some.1 hread
  obtain ⟨port, mid', -, hread⟩ := bind_eq_some.1 hread
  obtain ⟨isa', mid'', hof, hread⟩ := bind_eq_some.1 hread
  obtain ⟨heq, -⟩ := pure_eq_some.1 hread
  cases heq
  have hlen : fa.length = 4 := (getBytes_length hfa).2
  have haddress : InetSocketAddress.getByAddress fa = some fa := if_pos hlen
  have hof := (lift_eq_some.1 hof).1
  simp only [InetSocketAddress.ofBytes, haddress] at hof
  split at hof
  · cases hof
    exact hlen
  · cases hof

/-- **A feature** is read back from its bytes exactly if it is readable. -/
theorem parseTry_bytes {f : PeerFeature} (h : f.Admitted) :
    ∃ fBytes, f.bytes = some fBytes ∧ fBytes.length ≤ 32767
      ∧ (parseTry f.featureId fBytes = some f ↔ f.Readable) := by
  cases f with
  | sessionId magic session =>
    have hlen : magic.length = 4 := h
    refine ⟨magic ++ putLong session, rfl, ?_, fun _ => trivial, fun _ => ?_⟩
    · have := (length_putULong (encodeZigZagLong session)).2
      rw [List.length_append, hlen, putLong]
      omega
    · have hlong := getLong_putLong session []
      rw [List.append_nil] at hlong
      exact parseTry_eq_some rfl (bind_eq_some.2 ⟨_, _, getBytes_append (by rw [hlen]; rfl) _,
        bind_eq_some.2 ⟨_, _, hlong, rfl⟩⟩)
  | localAddress isa =>
    obtain ⟨port, hput, hget⟩ := getPort_putUInt isa.port_le
    have hbytes : (PeerFeature.localAddress isa).bytes = some (isa.address ++ port) := by
      rw [bytes, hput]
      rfl
    refine ⟨_, hbytes, ?_, fun hread => ?_, fun hread => ?_⟩
    · have hport : port.length ≤ 10 := by
        rw [putUInt_eq_some hput]
        exact (length_putULong _).2
      have := isa.address_length
      rw [List.length_append]
      omega
    · exact parseTry_localAddress hread
    · have hfour : isa.address.length = 4 := hread
      have hport := hget []
      rw [List.append_nil] at hport
      obtain ⟨isa', hof, hiff⟩ := isa.ofBytes_address
      obtain rfl := hiff.2 (if_pos hfour)
      exact parseTry_eq_some rfl (bind_eq_some.2 ⟨_, _, getBytes_append (by rw [hfour]; rfl) _,
        bind_eq_some.2 ⟨_, _, hport, bind_eq_some.2 ⟨_, _, lift_eq_some.2 ⟨hof, rfl⟩, rfl⟩⟩⟩)
  | forgerNode => exact ⟨[], rfl, by decide, fun _ => trivial, fun _ => rfl⟩
  | transactionsDisabled => exact ⟨[], rfl, by decide, fun _ => trivial, fun _ => rfl⟩

end PeerFeature

/-- One feature with its header: its serializer decides what is made of it. -/
theorem getFeature_putFeature {serializers : List UInt8} {f : PeerFeature} (h : f.Admitted)
    (hmem : f.featureId ∈ serializers) :
    ∃ out f', PeerSpec.putFeature f = some out
      ∧ (∀ rest, PeerSpec.getFeature serializers (out ++ rest) = some (f', rest))
      ∧ (f' = some f ↔ f.Readable) := by
  obtain ⟨fBytes, hbytes, hlen, hiff⟩ := f.parseTry_bytes h
  obtain ⟨size, hput, hget⟩ := getUShort_putUShort (x := fBytes.length) (by omega)
  refine ⟨f.featureId :: size ++ fBytes, _, ?_, fun rest => ?_, hiff⟩
  · simp [PeerSpec.putFeature, hbytes, hlen, hput]
  · refine bind_eq_some.2 ⟨_, _, rfl, bind_eq_some.2 ⟨fBytes.length, fBytes ++ rest, ?_, ?_⟩⟩
    · exact (congrArg _ (List.append_assoc ..)).trans (hget _)
    · rw [if_pos hlen]
      refine bind_eq_some.2 ⟨_, _, getBytes_append rfl rest, ?_⟩
      rw [if_pos hmem]
      rfl

/-- All features, one after the other. -/
theorem getFeatures_putFeatures {serializers : List UInt8} (features : List PeerFeature)
    (h : ∀ f ∈ features, f.Admitted ∧ f.featureId ∈ serializers) (turns : List ℕ)
    (hturns : turns.length = features.length) :
    ∃ outs feats, features.mapM PeerSpec.putFeature = some outs
      ∧ (∀ rest, (turns.mapM fun _ => PeerSpec.getFeature serializers) (outs.flatten ++ rest)
        = some (feats, rest))
      ∧ (feats.filterMap id = features ↔ ∀ f ∈ features, f.Readable)
      ∧ (feats.filterMap id).length ≤ features.length := by
  induction features generalizing turns with
  | nil =>
    obtain rfl := List.length_eq_zero_iff.1 hturns
    exact ⟨[], [], rfl, fun rest => rfl, by simp, by simp⟩
  | cons f features ih =>
    obtain ⟨turn, turns, rfl⟩ := List.exists_cons_of_length_eq_add_one hturns
    obtain ⟨hadm, hmem⟩ := h f (List.mem_cons_self ..)
    obtain ⟨out, f', hput, hget, hiff⟩ := getFeature_putFeature hadm hmem
    obtain ⟨outs, feats, hputs, hgets, hiffs, hlen⟩ :=
      ih (fun g hg => h g (List.mem_cons_of_mem _ hg)) turns (by simpa using hturns)
    refine ⟨out :: outs, f' :: feats, ?_, fun rest => ?_, ?_, ?_⟩
    · simp [List.mapM_cons, hput, hputs]
    · rw [List.mapM_cons, List.flatten_cons, List.append_assoc]
      exact bind_eq_some.2 ⟨_, _, hget _, bind_eq_some.2 ⟨_, _, hgets rest, rfl⟩⟩
    · cases f' with
      | none =>
        -- a feature that is dropped makes the list shorter
        refine iff_of_false (fun heq => ?_) fun hall => ?_
        · have hsame : feats.filterMap id = f :: features := heq
          rw [hsame, List.length_cons] at hlen
          omega
        · exact absurd (hiff.2 (hall f (List.mem_cons_self ..))) (by simp)
      | some g =>
        have hcons : (some g :: feats).filterMap id = g :: feats.filterMap id := rfl
        rw [hcons, List.cons.injEq, hiffs, List.forall_mem_cons, ← hiff, Option.some.injEq]
    · cases f' with
      | none => simpa using hlen.trans (Nat.le_succ _)
      | some g => simpa using hlen

/-! ## Handshakes -/

/-- The handshakes that the protocol admits: an agent name that is not empty, names of
less than 128 bytes, and at most 127 features that have a serializer. -/
structure Handshake.WellFormed (hs : Handshake) (spec : HandshakeSpec) : Prop where
  agentName_ne_nil : hs.peerSpec.agentName ≠ []
  agentName_lt : hs.peerSpec.agentName.length < 128
  nodeName_lt : hs.peerSpec.nodeName.length < 128
  features_le : hs.peerSpec.features.length ≤ 127
  admitted : ∀ f ∈ hs.peerSpec.features,
    f.Admitted ∧ f.featureId ∈ spec.featureSerializers

/-- The parsers of addresses give the addresses of the handshake back. -/
structure Handshake.Readable (hs : Handshake) : Prop where
  declaredAddress : ∀ isa ∈ hs.peerSpec.declaredAddress, isa.Readable
  features : ∀ f ∈ hs.peerSpec.features, f.Readable

theorem getOption_putAddress (address : Option InetSocketAddress) :
    ∃ out address', putOption address PeerSpec.putAddress = some out
      ∧ (∀ rest, getOption PeerSpec.getAddress (out ++ rest) = some (address', rest))
      ∧ (address' = address ↔ ∀ isa ∈ address, isa.Readable) := by
  cases address with
  | none => exact ⟨[0], none, rfl, fun rest => rfl, by simp⟩
  | some isa =>
    obtain ⟨out, isa', hput, hget, hiff⟩ := getAddress_putAddress isa
    refine ⟨1 :: out, some isa', ?_, fun rest => ?_, ?_⟩
    · simp [putOption, hput]
    · refine bind_eq_some.2 ⟨1, out ++ rest, rfl, ?_⟩
      rw [if_pos (by decide)]
      exact bind_eq_some.2 ⟨_, _, hget rest, rfl⟩
    · simpa using hiff

/-- **A handshake** is read back from its bytes exactly if its addresses are readable. -/
theorem parseBytesTry_toBytes_iff (spec : HandshakeSpec) (hs : Handshake)
    (hwf : hs.WellFormed spec) :
    ∃ bytes, HandshakeSpec.toBytes hs = some bytes
      ∧ ((bytes.length : ℤ) ≤ spec.sizeLimit →
        (spec.parseBytesTry bytes = some hs ↔ hs.Readable)) := by
  obtain ⟨⟨agentName, version, nodeName, declaredAddress, features⟩, time⟩ := hs
  obtain ⟨hne, hagent, hnode, hcount, hadm⟩ := hwf
  obtain ⟨outA, hputA, hgetA⟩ := getShortString_putShortString hagent
  obtain ⟨outN, hputN, hgetN⟩ := getShortString_putShortString hnode
  obtain ⟨outD, address', hputD, hgetD, hiffD⟩ := getOption_putAddress declaredAddress
  obtain ⟨outs, feats, hputF, hgetF, hiffF, -⟩ :=
    getFeatures_putFeatures features hadm (List.range features.length) (by simp)
  have hserialize : HandshakeSpec.toBytes
        ⟨⟨agentName, version, nodeName, declaredAddress, features⟩, time⟩
      = some (putULong time
        ++ (outA ++ [version.firstDigit, version.secondDigit, version.thirdDigit]
        ++ outN ++ outD ++ UInt8.ofNat features.length :: outs.flatten)) := by
    simp [HandshakeSpec.toBytes, PeerSpec.serialize, hputA, hputN, hputD, hputF, hcount]
  refine ⟨_, hserialize, fun hsize => ?_⟩
  have hparse : spec.parse (putULong time ++ (outA
        ++ [version.firstDigit, version.secondDigit, version.thirdDigit]
        ++ outN ++ outD ++ UInt8.ofNat features.length :: outs.flatten))
      = some (⟨⟨agentName, version, nodeName, address', feats.filterMap id⟩, time⟩, []) := by
    refine bind_eq_some.2 ⟨_, _, rfl, ?_⟩
    rw [if_pos hsize]
    refine bind_eq_some.2 ⟨_, _, getULong_putULong time _, bind_eq_some.2 ⟨_, [], ?_, rfl⟩⟩
    simp only [List.append_assoc]
    refine bind_eq_some.2 ⟨_, _, hgetA _, ?_⟩
    rw [if_neg hne]
    refine bind_eq_some.2 ⟨_, _, rfl, bind_eq_some.2 ⟨_, _, rfl, bind_eq_some.2 ⟨_, _, rfl, ?_⟩⟩⟩
    refine bind_eq_some.2 ⟨_, _, hgetN _, bind_eq_some.2 ⟨_, _, hgetD _, ?_⟩⟩
    refine bind_eq_some.2 ⟨_, _, rfl, bind_eq_some.2 ⟨feats, [], ?_, rfl⟩⟩
    rw [toInt_ofNat (Nat.lt_succ_of_le hcount), Int.toNat_natCast]
    have := hgetF []
    rwa [List.append_nil] at this
  rw [HandshakeSpec.parseBytesTry, hparse]
  simp only [Option.map_some, Option.some.injEq, Handshake.mk.injEq, PeerSpec.mk.injEq, true_and,
    and_true]
  rw [hiffD, hiffF]
  exact ⟨fun h => ⟨h.1, h.2⟩, fun h => ⟨h.1, h.2⟩⟩

/-- A peer that tells its IPv6 local address, and nothing else. -/
def localPeer : Handshake where
  peerSpec :=
    { agentName := [0x61]
      protocolVersion := ⟨0, 0, 1⟩
      nodeName := [0x62]
      declaredAddress := none
      features := [.localAddress ⟨[0xFE, 0x80, 0, 0, 0, 0, 0, 0, 0, 0, 0, 0, 0, 0, 0, 1], 9084,
        .inr rfl, by norm_num⟩] }
  time := 1

/-- The features of the repository, and the usual limit. -/
def handshakeSpec : HandshakeSpec := ⟨[2, 3, 4, 5], 8096⟩

theorem localPeer_wellFormed : localPeer.WellFormed handshakeSpec :=
  ⟨by decide, by decide, by decide, by decide, by decide⟩

/-- A peer that tells its IPv4 local address. -/
def lanPeer : Handshake where
  peerSpec := { localPeer.peerSpec with
    features := [.localAddress ⟨[192, 168, 0, 1], 9084, .inl rfl, by norm_num⟩] }
  time := 1

theorem lanPeer_wellFormed : lanPeer.WellFormed handshakeSpec :=
  ⟨by decide, by decide, by decide, by decide, by decide⟩

theorem parseBytesTry_toBytes_iff_lanPeer :
    ∃ bytes, HandshakeSpec.toBytes lanPeer = some bytes
      ∧ handshakeSpec.parseBytesTry bytes = some lanPeer := by
  obtain ⟨bytes, hbytes, hiff⟩ :=
    parseBytesTry_toBytes_iff handshakeSpec lanPeer lanPeer_wellFormed
  have hwritten : HandshakeSpec.toBytes lanPeer = some [1, 1, 0x61, 0, 0, 1, 1, 0x62, 0, 1,
      2, 6, 192, 168, 0, 1, 0xFC, 0x46] := by decide
  obtain rfl := Option.some.inj (hwritten.symm.trans hbytes)
  exact ⟨_, hbytes, (hiff (by decide)).2 ⟨by decide, by decide⟩⟩

/-- The local address of a peer in an IPv6 network is lost. -/
theorem localPeer_not_read :
    ¬ ∀ (spec : HandshakeSpec) (hs : Handshake), hs.WellFormed spec →
      ∀ bytes, HandshakeSpec.toBytes hs = some bytes → (bytes.length : ℤ) ≤ spec.sizeLimit →
        spec.parseBytesTry bytes = some hs := by
  intro h
  have hbytes : HandshakeSpec.toBytes localPeer = some [1, 1, 0x61, 0, 0, 1, 1, 0x62, 0, 1,
      2, 18, 0xFE, 0x80, 0, 0, 0, 0, 0, 0, 0, 0, 0, 0, 0, 0, 0, 1, 0xFC, 0x46] := by decide
  exact absurd (h handshakeSpec localPeer localPeer_wellFormed _ hbytes (by decide)) (by decide)

end Sparkz.Network
