import Sparkz.Network.HandshakeRoundTrip
import Sparkz.Network.HandshakeStream

/-!
# Peers messages

The model of `PeersSpec`, the message with which nodes tell each other about peers.  The
peers that a node tells about are such as it has read about itself, in a handshake or in
another such message.

* `PeersSpec.serialize`, `PeersSpec.parse` — the codec.
* `PeerSpec.read` — a peer with the strings that its names are read as.
* `PeerSpec.Accepted` — what any bytes are read as, `accepted_of_read`; such a peer is
  written exactly if it has short names, and is read back, `serialize_iff`,
  `read_serialize`.
* `PeersSpec.told_again` — **what a node has read about peers, it can tell word for word**,
  exactly if all names are short; they may have up to 255 bytes when they are read.
-/

namespace Sparkz.Network

open Sparkz.Serialization
open VLQReader VLQWriter

/-! ## Names -/

/-- What the decoder of UTF-8 puts in place of bytes that are none: some character. -/
structure Utf8Decoder where
  malformed : List UInt8 → String
  malformed_ne : ∀ bytes, malformed bytes ≠ ""

namespace Utf8Decoder

variable (decoder : Utf8Decoder)

/-- The bytes of the string that bytes are decoded to. -/
def decoded (bytes : List UInt8) : List UInt8 :=
  getBytesUtf8 (newString decoder.malformed bytes)

@[simp] theorem decoded_decoded (bytes : List UInt8) :
    decoder.decoded (decoder.decoded bytes) = decoder.decoded bytes := by
  rw [decoded, decoded, newString_getBytesUtf8]

theorem getBytesUtf8_ne_nil {s : String} (h : s ≠ "") : getBytesUtf8 s ≠ [] := by
  intro hnil
  apply h
  have hdata : s.toByteArray.data = #[] := Array.toList_eq_nil_iff.1 hnil
  apply String.toByteArray_inj.1
  exact ByteArray.ext hdata

theorem decoded_ne_nil {bytes : List UInt8} (h : bytes ≠ []) : decoder.decoded bytes ≠ [] := by
  apply getBytesUtf8_ne_nil
  unfold newString
  cases hvalid : String.fromUTF8? ⟨bytes.toArray⟩ with
  | none => exact decoder.malformed_ne bytes
  | some s =>
    rintro rfl
    unfold String.fromUTF8? at hvalid
    split at hvalid
    · have hdata : bytes.toArray = #[] :=
        congrArg (fun s => s.toByteArray.data) (Option.some.inj hvalid)
      exact h (by simpa using hdata)
    · cases hvalid

end Utf8Decoder

namespace PeerSpec

/-- The peer with its names as strings. -/
def decoded (decoder : Utf8Decoder) (spec : PeerSpec) : PeerSpec :=
  { spec with
    agentName := decoder.decoded spec.agentName
    nodeName := decoder.decoded spec.nodeName }

/-- `PeerSpecSerializer.parse(r)`, whose names are strings. -/
def read (decoder : Utf8Decoder) (serializers : List UInt8) : VLQReader PeerSpec := do
  let spec ← parse serializers
  return spec.decoded decoder

end PeerSpec

/-! ## Messages -/

namespace PeersSpec

/-- `serialize(peers, w)`. -/
def serialize (peers : List PeerSpec) : Option (List UInt8) := do
  let size ← putUInt peers.length
  let specs ← peers.mapM PeerSpec.serialize
  return size ++ specs.flatten

variable (decoder : Utf8Decoder) (serializers : List UInt8) (peersLimit : ℤ)

/-- `parse(r)`. -/
def parse : VLQReader (List PeerSpec) := do
  let length ← getUInt
  if length ≤ 2147483647 ∧ (length : ℤ) ≤ peersLimit then
    (List.range length).mapM fun _ => PeerSpec.read decoder serializers
  else failure

/-- `parseBytes(bytes)`: what is left in the reader is not looked at. -/
def parseBytes (bytes : List UInt8) : Option (List PeerSpec) :=
  (parse decoder serializers peersLimit bytes).map Prod.fst

end PeersSpec

/-! ## What is read -/

/-- An address that was made of bytes is one that bytes give back. -/
theorem InetSocketAddress.readable_of_ofBytes {bytes : List UInt8} {port : ℕ}
    {isa : InetSocketAddress} (h : ofBytes bytes port = some isa) : isa.Readable := by
  unfold ofBytes at h
  split at h
  · rename_i address haddress
    split at h
    · obtain rfl := Option.some.inj h
      unfold getByAddress at haddress
      split at haddress
      · rename_i hfour
        obtain rfl := Option.some.inj haddress
        exact if_pos hfour
      · rename_i hfour
        split at haddress
        · rename_i hsixteen
          split at haddress
          · obtain rfl := Option.some.inj haddress
            exact if_pos (by rw [List.length_drop, hsixteen])
          · rename_i hmapped
            obtain rfl := Option.some.inj haddress
            show getByAddress bytes = some bytes
            rw [getByAddress, if_neg hfour, if_pos hsixteen, if_neg hmapped]
        · cases haddress
    · cases h
  · cases h

/-- A feature is parsed as one that is read back, by the parser of its own id. -/
theorem PeerFeature.readable_of_parse {featId : UInt8} {parser : VLQReader PeerFeature}
    (hparser : parse featId = some parser) {chunk rest : List UInt8} {f : PeerFeature}
    (h : parser chunk = some (f, rest)) : f.featureId = featId ∧ f.Admitted ∧ f.Readable := by
  unfold parse at hparser
  split at hparser
  · obtain rfl := Option.some.inj hparser
    obtain ⟨fa, mid, hfa, h⟩ := bind_eq_some.1 h
    obtain ⟨port, mid', -, h⟩ := bind_eq_some.1 h
    obtain ⟨isa, mid'', hlift, h⟩ := bind_eq_some.1 h
    obtain ⟨hisa, rfl⟩ := lift_eq_some.1 hlift
    obtain ⟨rfl, rfl⟩ := pure_eq_some.1 h
    refine ⟨rfl, trivial, ?_⟩
    have hfour := (getBytes_length hfa).2
    have hle := (InetSocketAddress.ofBytes_eq_some hisa).1
    have := isa.address_length
    show isa.address.length = 4
    omega
  · obtain rfl := Option.some.inj hparser
    obtain ⟨magic, mid, hmagic, h⟩ := bind_eq_some.1 h
    obtain ⟨session, mid', -, h⟩ := bind_eq_some.1 h
    obtain ⟨rfl, rfl⟩ := pure_eq_some.1 h
    exact ⟨rfl, (getBytes_length hmagic).2, trivial⟩
  · obtain rfl := Option.some.inj hparser
    obtain ⟨rfl, rfl⟩ := pure_eq_some.1 h
    exact ⟨rfl, trivial, trivial⟩
  · obtain rfl := Option.some.inj hparser
    obtain ⟨rfl, rfl⟩ := pure_eq_some.1 h
    exact ⟨rfl, trivial, trivial⟩
  · cases hparser

namespace PeerSpec

/-- The peers that bytes are read as. -/
structure Accepted (decoder : Utf8Decoder) (serializers : List UInt8) (spec : PeerSpec) :
    Prop where
  agentName_ne_nil : spec.agentName ≠ []
  decoded_eq : spec.decoded decoder = spec
  declaredAddress : ∀ isa ∈ spec.declaredAddress, isa.Readable
  features_le : spec.features.length ≤ 127
  features : ∀ f ∈ spec.features, f.Admitted ∧ f.featureId ∈ serializers ∧ f.Readable

/-- Names that the size of a string has room for when it is written. -/
def ShortNames (spec : PeerSpec) : Prop :=
  spec.agentName.length < 128 ∧ spec.nodeName.length < 128

theorem readable_of_getAddress {bytes rest : List UInt8} {address : Option InetSocketAddress}
    (h : getOption getAddress bytes = some (address, rest)) : ∀ isa ∈ address, isa.Readable := by
  obtain ⟨tag, mid, -, h⟩ := bind_eq_some.1 h
  split at h
  · obtain ⟨isa, mid', hisa, h⟩ := bind_eq_some.1 h
    obtain ⟨rfl, rfl⟩ := pure_eq_some.1 h
    obtain ⟨fas, mid₁, -, hisa⟩ := bind_eq_some.1 hisa
    obtain ⟨fa, mid₂, -, hisa⟩ := bind_eq_some.1 hisa
    obtain ⟨port, mid₃, -, hisa⟩ := bind_eq_some.1 hisa
    intro isa' hisa'
    obtain rfl := Option.some.inj hisa'
    exact InetSocketAddress.readable_of_ofBytes (lift_eq_some.1 hisa).1
  · obtain ⟨rfl, rfl⟩ := pure_eq_some.1 h
    simp

theorem readable_of_getFeature {serializers bytes rest : List UInt8} {f : Option PeerFeature}
    (h : getFeature serializers bytes = some (f, rest)) :
    ∀ feature ∈ f, feature.Admitted ∧ feature.featureId ∈ serializers ∧ feature.Readable := by
  obtain ⟨featId, mid, -, h⟩ := bind_eq_some.1 h
  obtain ⟨count, mid', -, h⟩ := bind_eq_some.1 h
  split at h
  · obtain ⟨chunk, mid'', -, h⟩ := bind_eq_some.1 h
    split at h
    · rename_i hmem
      obtain ⟨hf, rfl⟩ := pure_eq_some.1 h
      intro feature hfeature
      rw [← hf, Option.mem_def, Option.bind_eq_some_iff] at hfeature
      obtain ⟨parser, hparser, hfeature⟩ := hfeature
      obtain ⟨⟨_, left⟩, hparsed, rfl⟩ := Option.map_eq_some_iff.1 hfeature
      obtain ⟨hid, hadmitted, hreadable⟩ := PeerFeature.readable_of_parse hparser hparsed
      exact ⟨hadmitted, hid ▸ hmem, hreadable⟩
    · obtain ⟨rfl, rfl⟩ := pure_eq_some.1 h
      simp
  · exact absurd h failure_ne_some

theorem readable_of_getFeatures {serializers : List UInt8} {turns : List ℕ}
    {bytes rest : List UInt8} {feats : List (Option PeerFeature)}
    (h : (turns.mapM fun _ => getFeature serializers) bytes = some (feats, rest)) :
    (feats.filterMap id).length ≤ turns.length ∧
      ∀ f ∈ feats.filterMap id, f.Admitted ∧ f.featureId ∈ serializers ∧ f.Readable := by
  induction turns generalizing bytes feats with
  | nil =>
    obtain ⟨rfl, rfl⟩ := pure_eq_some.1 h
    simp
  | cons _ turns ih =>
    rw [List.mapM_cons] at h
    obtain ⟨f, mid, hf, h⟩ := bind_eq_some.1 h
    obtain ⟨feats', mid', hfeats, h⟩ := bind_eq_some.1 h
    obtain ⟨rfl, rfl⟩ := pure_eq_some.1 h
    obtain ⟨hlength, hall⟩ := ih hfeats
    have hone := readable_of_getFeature hf
    cases f with
    | none => exact ⟨Nat.le_succ_of_le hlength, hall⟩
    | some feature =>
      refine ⟨Nat.succ_le_succ hlength, ?_⟩
      intro f' hf'
      obtain rfl | hf' := List.mem_cons.1 hf'
      · exact hone _ rfl
      · exact hall f' hf'

/-- **What any bytes are read as** is an accepted peer. -/
theorem accepted_of_read {decoder : Utf8Decoder} {serializers bytes rest : List UInt8}
    {spec : PeerSpec} (h : read decoder serializers bytes = some (spec, rest)) :
    spec.Accepted decoder serializers := by
  obtain ⟨raw, mid, hparse, h⟩ := bind_eq_some.1 h
  obtain ⟨rfl, rfl⟩ := pure_eq_some.1 h
  obtain ⟨appName, mid₁, -, h⟩ := bind_eq_some.1 hparse
  split at h
  · obtain ⟨_, _, hfail, -⟩ := bind_eq_some.1 h
    exact absurd hfail failure_ne_some
  · rename_i happName
    obtain ⟨firstDigit, mid₂, -, h⟩ := bind_eq_some.1 h
    obtain ⟨secondDigit, mid₃, -, h⟩ := bind_eq_some.1 h
    obtain ⟨thirdDigit, mid₄, -, h⟩ := bind_eq_some.1 h
    obtain ⟨nodeName, mid₅, -, h⟩ := bind_eq_some.1 h
    obtain ⟨declared, mid₆, hdeclared, h⟩ := bind_eq_some.1 h
    obtain ⟨count, mid₇, -, h⟩ := bind_eq_some.1 h
    obtain ⟨feats, mid₈, hfeats, h⟩ := bind_eq_some.1 h
    obtain ⟨rfl, rfl⟩ := pure_eq_some.1 h
    obtain ⟨hlength, hall⟩ := readable_of_getFeatures hfeats
    refine ⟨decoder.decoded_ne_nil happName, ?_, readable_of_getAddress hdeclared, ?_, hall⟩
    · simp [decoded]
    · -- the number of features goes through a signed byte
      have hcount := Int8.toInt_lt count.toInt8
      rw [List.length_range] at hlength
      exact hlength.trans (by omega)

/-! ## What is told again -/

variable {decoder : Utf8Decoder} {serializers : List UInt8} {spec : PeerSpec}

/-- An accepted peer with short names is written, and is read back. -/
theorem read_serialize (h : spec.Accepted decoder serializers) (hshort : spec.ShortNames) :
    ∃ out, spec.serialize = some out ∧
      ∀ rest, read decoder serializers (out ++ rest) = some (spec, rest) := by
  have hdecoded := h.decoded_eq
  obtain ⟨agentName, version, nodeName, declaredAddress, features⟩ := spec
  obtain ⟨outA, hputA, hgetA⟩ := getShortString_putShortString hshort.1
  obtain ⟨outN, hputN, hgetN⟩ := getShortString_putShortString hshort.2
  obtain ⟨outD, address', hputD, hgetD, hiffD⟩ := getOption_putAddress declaredAddress
  obtain ⟨outs, feats, hputF, hgetF, hiffF, -⟩ := getFeatures_putFeatures features
    (fun f hf => ⟨(h.features f hf).1, (h.features f hf).2.1⟩)
    (List.range features.length) (by simp)
  obtain rfl := hiffD.2 h.declaredAddress
  have hfeats := hiffF.2 fun f hf => (h.features f hf).2.2
  refine ⟨outA ++ [version.firstDigit, version.secondDigit, version.thirdDigit] ++ outN ++ outD
    ++ UInt8.ofNat features.length :: outs.flatten, ?_, fun rest => ?_⟩
  · simp [serialize, hputA, hputN, hputD, hputF, h.features_le]
  · refine bind_eq_some.2 ⟨_, rest, ?_, pure_eq_some.2 ⟨hdecoded, rfl⟩⟩
    simp only [List.append_assoc, List.cons_append]
    refine bind_eq_some.2 ⟨_, _, hgetA _, ?_⟩
    rw [if_neg h.agentName_ne_nil]
    refine bind_eq_some.2 ⟨_, _, rfl, bind_eq_some.2 ⟨_, _, rfl, bind_eq_some.2 ⟨_, _, rfl, ?_⟩⟩⟩
    refine bind_eq_some.2 ⟨_, _, hgetN _, bind_eq_some.2 ⟨_, _, hgetD _, ?_⟩⟩
    refine bind_eq_some.2 ⟨_, _, rfl, bind_eq_some.2 ⟨feats, rest, ?_, ?_⟩⟩
    · rw [toInt_ofNat (Nat.lt_succ_of_le h.features_le), Int.toNat_natCast]
      exact hgetF rest
    · exact pure_eq_some.2 ⟨by rw [hfeats], rfl⟩

/-- An accepted peer is written exactly if it has short names. -/
theorem serialize_iff (h : spec.Accepted decoder serializers) :
    (∃ out, spec.serialize = some out) ↔ spec.ShortNames := by
  constructor
  · rintro ⟨out, hout⟩
    obtain ⟨agentOut, hagentOut, hout⟩ := Option.bind_eq_some_iff.1 hout
    obtain ⟨nodeOut, hnodeOut, -⟩ := Option.bind_eq_some_iff.1 hout
    exact ⟨putShortString_iff.1 ⟨_, hagentOut⟩, putShortString_iff.1 ⟨_, hnodeOut⟩⟩
  · intro hshort
    obtain ⟨out, hout, -⟩ := read_serialize h hshort
    exact ⟨out, hout⟩

theorem mapM_read_serialize {peers : List PeerSpec}
    (h : ∀ p ∈ peers, p.Accepted decoder serializers ∧ p.ShortNames) (turns : List ℕ)
    (hturns : turns.length = peers.length) :
    ∃ outs, peers.mapM serialize = some outs ∧ ∀ rest,
      (turns.mapM fun _ => read decoder serializers) (outs.flatten ++ rest)
        = some (peers, rest) := by
  induction peers generalizing turns with
  | nil =>
    obtain rfl := List.length_eq_zero_iff.1 hturns
    exact ⟨[], rfl, fun _ => rfl⟩
  | cons p peers ih =>
    obtain ⟨turn, turns, rfl⟩ := List.exists_cons_of_length_eq_add_one hturns
    obtain ⟨haccepted, hshort⟩ := h p (List.mem_cons_self ..)
    obtain ⟨out, hout, hread⟩ := read_serialize haccepted hshort
    obtain ⟨outs, houts, hreads⟩ :=
      ih (fun q hq => h q (List.mem_cons_of_mem _ hq)) turns (by simpa using hturns)
    refine ⟨out :: outs, ?_, fun rest => ?_⟩
    · simp [List.mapM_cons, hout, houts]
    · rw [List.mapM_cons, List.flatten_cons, List.append_assoc]
      exact bind_eq_some.2 ⟨_, _, hread _, bind_eq_some.2 ⟨_, _, hreads rest, rfl⟩⟩

end PeerSpec

namespace PeersSpec

variable {decoder : Utf8Decoder} {serializers : List UInt8} {peers : List PeerSpec}

/-- Peers that are accepted are written exactly if all have short names. -/
theorem serialize_iff (h : ∀ p ∈ peers, p.Accepted decoder serializers)
    (hsize : peers.length < 2 ^ 31) :
    (∃ out, serialize peers = some out) ↔ ∀ p ∈ peers, p.ShortNames := by
  constructor
  · rintro ⟨out, hwritten⟩
    obtain ⟨size, -, hout⟩ := Option.bind_eq_some_iff.1 hwritten
    obtain ⟨specs, hspecs, -⟩ := Option.bind_eq_some_iff.1 hout
    intro p hp
    refine (PeerSpec.serialize_iff (h p hp)).1 ?_
    clear h hsize hwritten hout
    induction peers generalizing specs with
    | nil => cases hp
    | cons q peers ih =>
      rw [List.mapM_cons] at hspecs
      obtain ⟨one, hone, hspecs⟩ := Option.bind_eq_some_iff.1 hspecs
      obtain ⟨more, hmore, -⟩ := Option.bind_eq_some_iff.1 hspecs
      obtain rfl | hp := List.mem_cons.1 hp
      · exact ⟨one, hone⟩
      · exact ih more hmore hp
  · intro hshort
    obtain ⟨size, hput, -⟩ := getUInt_putUInt (x := peers.length) (by omega)
    obtain ⟨outs, houts, -⟩ := PeerSpec.mapM_read_serialize (fun p hp => ⟨h p hp, hshort p hp⟩)
      (List.range peers.length) (by simp)
    exact ⟨size ++ outs.flatten, by simp [serialize, hput, houts]⟩

/-- What was written of accepted peers is read as it was, if they are not too many. -/
theorem parseBytes_serialize (h : ∀ p ∈ peers, p.Accepted decoder serializers)
    (hsize : peers.length < 2 ^ 31) {out : List UInt8} (hout : serialize peers = some out)
    (peersLimit : ℤ) :
    parseBytes decoder serializers peersLimit out
      = if (peers.length : ℤ) ≤ peersLimit then some peers else none := by
  have hshort := (serialize_iff h hsize).1 ⟨out, hout⟩
  obtain ⟨size, hput, hget⟩ := getUInt_putUInt (x := peers.length) (by omega)
  obtain ⟨outs, houts, hreads⟩ := PeerSpec.mapM_read_serialize (fun p hp => ⟨h p hp, hshort p hp⟩)
    (List.range peers.length) (by simp)
  obtain rfl : size ++ outs.flatten = out := by simpa [serialize, hput, houts] using hout
  have hlength : getUInt (size ++ outs.flatten) = some (peers.length, outs.flatten) := by
    have := hget outs.flatten
    rwa [Int.toNat_natCast] at this
  by_cases hlimit : (peers.length : ℤ) ≤ peersLimit
  · have hparse : parse decoder serializers peersLimit (size ++ outs.flatten)
        = some (peers, []) := by
      refine bind_eq_some.2 ⟨_, _, hlength, ?_⟩
      rw [if_pos ⟨by omega, hlimit⟩]
      have := hreads []
      rwa [List.append_nil] at this
    rw [parseBytes, hparse, if_pos hlimit]
    rfl
  · have hparse : parse decoder serializers peersLimit (size ++ outs.flatten) = none := by
      show (getUInt (size ++ outs.flatten)).bind _ = none
      rw [hlength]
      show (if _ then _ else _ : VLQReader _) _ = none
      rw [if_neg fun hboth => hlimit hboth.2]
      rfl
    rw [parseBytes, hparse, if_neg hlimit]
    rfl

/-- **What a node has read about peers, it can tell again**, exactly if all their names
are short; whoever is told reads the same, up to the number of peers that it admits. -/
theorem told_again (decoder : Utf8Decoder) (serializers : List UInt8) (peersLimit : ℤ)
    (peers : List PeerSpec)
    (hread : ∀ p ∈ peers, ∃ bytes rest,
      PeerSpec.read decoder serializers bytes = some (p, rest))
    (hsize : peers.length < 2 ^ 31) :
    ((∃ out, serialize peers = some out)
      ↔ ∀ p ∈ peers, p.agentName.length < 128 ∧ p.nodeName.length < 128)
    ∧ ∀ out, serialize peers = some out →
      parseBytes decoder serializers peersLimit out
        = if (peers.length : ℤ) ≤ peersLimit then some peers else none := by
  have haccepted : ∀ p ∈ peers, p.Accepted decoder serializers := by
    intro p hp
    obtain ⟨bytes, rest, hread⟩ := hread p hp
    exact PeerSpec.accepted_of_read hread
  exact ⟨serialize_iff haccepted hsize,
    fun out hout => parseBytes_serialize haccepted hsize hout peersLimit⟩

theorem replacement_ne : ∀ _ : List UInt8, "\uFFFD" ≠ "" := fun _ => by decide

/-- The decoder that reads malformed bytes as the replacement character. -/
def replacing : Utf8Decoder := ⟨fun _ => "\uFFFD", replacement_ne⟩

/-- A peer with a name of one letter. -/
def named : PeerSpec := ⟨[97], ⟨0, 0, 1⟩, [], none, []⟩

theorem read_named :
    PeerSpec.read replacing [] [1, 97, 0, 0, 1, 0, 0, 0] = some (named, []) := by
  rfl

/-- Two peers are told, which a node that admits two reads and a node that admits one does
not. -/
theorem told_again_named :
    ∃ out, serialize [named, named] = some out
      ∧ parseBytes replacing [] 2 out = some [named, named]
      ∧ parseBytes replacing [] 1 out = none := by
  have hread : ∀ p ∈ [named, named], ∃ bytes rest,
      PeerSpec.read replacing [] bytes = some (p, rest) := by
    intro p hp
    obtain rfl : p = named := by simpa using hp
    exact ⟨_, _, read_named⟩
  have hshort : ∀ p ∈ [named, named], p.agentName.length < 128 ∧ p.nodeName.length < 128 := by
    decide
  obtain ⟨hwritten, htwo⟩ := told_again replacing [] 2 [named, named] hread (by decide)
  obtain ⟨-, hone⟩ := told_again replacing [] 1 [named, named] hread (by decide)
  obtain ⟨out, hout⟩ := hwritten.2 hshort
  exact ⟨out, hout, htwo out hout, hone out hout⟩

end PeersSpec

end Sparkz.Network
