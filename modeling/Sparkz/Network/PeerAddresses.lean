import Sparkz.Network.ConnectionTable

/-!
# Addresses of peers

* `tellsOne` — the declared and the local address of a peer are the same, where it tells both.
* `Distinct` — no two connections have the same address, and the address of a peer that tells
  one is not the remote address of another connection.
* `peers_distinct` — no peer is connected twice, as long as no accepted handshake tells an
  address that a connection has told as one of two, and no confirmation comes back for an
  address that another connection has told.
-/

namespace Sparkz.Network

open Sparkz.Lib

namespace NetworkController

variable {s : NetworkControllerSettings} {n : NetworkController} {i : Input} {m : Connections}
  {launched : ℕ}

/-! ## One connection for each peer -/

/-- The address that the peer of a connection has told, as the controller reads it. -/
def ConnectedPeer.told (p : ConnectedPeer) : Option InetSocketAddress :=
  p.peerInfo.bind getPeerAddress

theorem isKnownAs_iff {p : ConnectedPeer} {a : InetSocketAddress} :
    p.isKnownAs a = true ↔ p.connectionId.remoteAddress = a ∨ p.told = some a := by
  rw [ConnectedPeer.isKnownAs, Bool.or_eq_true, beq_iff_eq, ConnectedPeer.told]
  cases p.peerInfo <;> simp

/-- The declared and the local address of a peer are the same where it tells both. -/
def addressesAgree (peerInfo : PeerInfo) : Bool :=
  match peerInfo.peerSpec.declaredAddress, peerInfo.peerSpec.localAddressOpt with
  | some declared, some localAddress => declared == localAddress
  | _, _ => true

theorem getPeerAddress_eq {peerInfo : PeerInfo} (h : addressesAgree peerInfo = true) :
    getPeerAddress peerInfo = peerInfo.peerSpec.address := by
  rw [addressesAgree] at h
  rw [getPeerAddress, PeerSpec.address]
  cases hdeclared : peerInfo.peerSpec.declaredAddress with
  | none => cases peerInfo.peerSpec.localAddressOpt <;> rfl
  | some declared =>
    cases hlocal : peerInfo.peerSpec.localAddressOpt with
    | none => rfl
    | some localAddress =>
      rw [hdeclared, hlocal] at h
      rw [eq_of_beq h]

/-- The address of the specification that the peer of a connection has told. -/
def ConnectedPeer.peerAddress (p : ConnectedPeer) : Option InetSocketAddress :=
  p.peerInfo.bind fun peerInfo => peerInfo.peerSpec.address

/-- The peer of a connection has told one address, if any. -/
def ConnectedPeer.tellsOne (p : ConnectedPeer) : Bool := p.peerInfo.all addressesAgree

theorem told_eq_peerAddress {p : ConnectedPeer} (h : p.tellsOne = true) :
    p.told = p.peerAddress := by
  rw [ConnectedPeer.tellsOne] at h
  rw [ConnectedPeer.told, ConnectedPeer.peerAddress]
  cases hp : p.peerInfo with
  | none => rfl
  | some peerInfo =>
    rw [hp, Option.all_some] at h
    exact getPeerAddress_eq h

/-- The peer of a connection has told an address as its declared or its local one. -/
def ConnectedPeer.tells (p : ConnectedPeer) (a : InetSocketAddress) : Bool :=
  p.peerInfo.any fun peerInfo =>
    peerInfo.peerSpec.declaredAddress == some a || peerInfo.peerSpec.localAddressOpt == some a

theorem tells_of_peerAddress {p : ConnectedPeer} {a : InetSocketAddress}
    (h : p.peerAddress = some a) : p.tells a = true := by
  obtain ⟨peerInfo, hp, h⟩ := Option.bind_eq_some_iff.1 h
  rw [ConnectedPeer.tells, hp, Option.any_some, Bool.or_eq_true, beq_iff_eq, beq_iff_eq]
  rw [PeerSpec.address] at h
  cases hdeclared : peerInfo.peerSpec.declaredAddress with
  | none =>
    rw [hdeclared] at h
    exact .inr h
  | some declared =>
    rw [hdeclared] at h
    exact .inl h

theorem tells_of_told {p : ConnectedPeer} {a : InetSocketAddress} (h : p.told = some a) :
    p.tells a = true := by
  obtain ⟨peerInfo, hp, h⟩ := Option.bind_eq_some_iff.1 h
  rw [ConnectedPeer.tells, hp, Option.any_some, Bool.or_eq_true, beq_iff_eq, beq_iff_eq]
  rw [getPeerAddress] at h
  cases hlocal : peerInfo.peerSpec.localAddressOpt with
  | none =>
    rw [hlocal] at h
    exact .inl h
  | some localAddress =>
    rw [hlocal] at h
    exact .inr h

/-- Two connections do not have the same address, and the address of one that has told one
address only is not the remote address of the other. -/
structure Apart (p q : ConnectedPeer) : Prop where
  addresses : ∀ a, p.peerAddress = some a → q.peerAddress ≠ some a
  remote : p.tellsOne = true → ∀ a, p.peerAddress = some a → q.connectionId.remoteAddress ≠ a

/-- Any two connections of the table are apart. -/
def Distinct (m : Connections) : Prop :=
  ∀ e ∈ m.entries, ∀ e' ∈ m.entries, e.1 ≠ e'.1 → Apart e.2 e'.2

theorem Distinct.filter (h : Distinct m) (keep : InetSocketAddress × ConnectedPeer → Bool) :
    Distinct (m.filter keep) := by
  intro e he e' he'
  exact h e (List.mem_of_mem_filter he) e' (List.mem_of_mem_filter he')

/-- An entry is put into the table that is apart from the others. -/
theorem Distinct.put (h : Distinct m) {k : InetSocketAddress} {p : ConnectedPeer}
    (hout : ∀ e ∈ m.entries, e.1 ≠ k → Apart p e.2)
    (hin : ∀ e ∈ m.entries, e.1 ≠ k → Apart e.2 p) : Distinct (m.put k p) := by
  intro e he e' he' hne
  obtain rfl | ⟨hk, he⟩ := LinkedMap.mem_entries_put.1 he
  · obtain rfl | ⟨hk', he'⟩ := LinkedMap.mem_entries_put.1 he'
    · exact absurd rfl hne
    · exact hout e' he' hk'
  · obtain rfl | ⟨hk', he'⟩ := LinkedMap.mem_entries_put.1 he'
    · exact hin e he hk
    · exact h e he e' he' hne

/-- A connection comes in under an address that no other peer has told. -/
theorem Distinct.create (h : Distinct m) {k : InetSocketAddress} {p : ConnectedPeer}
    (hp : p.peerInfo = none) (hid : p.connectionId.remoteAddress = k)
    (hfree : ∀ e ∈ m.entries, e.1 ≠ k → e.2.told ≠ some k) : Distinct (m.put k p) := by
  have hnone : p.peerAddress = none := by rw [ConnectedPeer.peerAddress, hp]; rfl
  refine h.put (fun e he hk => ?_) (fun e he hk => ?_)
  · constructor
    · intro a ha
      rw [hnone] at ha
      cases ha
    · intro _ a ha
      rw [hnone] at ha
      cases ha
  · constructor
    · intro a _ hcontra
      rw [hnone] at hcontra
      cases hcontra
    · intro hone a ha hremote
      rw [hid] at hremote
      subst hremote
      exact hfree e he hk ((told_eq_peerAddress hone).trans ha)

/-- No connection that has told two addresses has told this one. -/
def clearOf (n : NetworkController) (a : InetSocketAddress) : Bool :=
  n.connections.entries.all fun e => e.2.tellsOne || !e.2.tells a

/-- Under an address that is looked up in vain, or found at `p`, no other connection is
known, if the connections that tell two addresses have not told it. -/
theorem Distinct.accepted (h : Distinct n.connections) (hwell : WellKept n.connections n.launched)
    {peerInfo : PeerInfo} {sender : ℕ} {p : ConnectedPeer} {a : InetSocketAddress}
    (hp : n.connectionForHandler s sender = some p)
    (hpeer : n.shouldDropPeer s peerInfo sender p.connectionId.remoteAddress = false)
    (ha : peerInfo.peerSpec.address = some a) (hclear : n.clearOf a = true) :
    ∀ e ∈ n.connections.entries, e.1 ≠ p.connectionId.remoteAddress → e.2.isKnownAs a = false := by
  intro e he hne
  rw [Bool.eq_false_iff]
  intro hknown
  -- some connection is found under the address, and it has the handler of `p`
  obtain ⟨q, hq⟩ : ∃ q, n.connectionForPeerAddress s a = some q := by
    rw [← Option.ne_none_iff_exists']
    intro hnone
    exact Bool.false_ne_true ((connectionForPeerAddress_eq_none.1 hnone e he).symm.trans hknown)
  obtain ⟨hqknown, k, hqmem⟩ := of_connectionForPeerAddress hq
  have hhandler : q.handlerRef = p.handlerRef := by
    rw [shouldDropPeer, ha, Option.getD_some, hq, Bool.or_eq_false_iff] at hpeer
    have hsender : q.handlerRef = sender := by simpa using hpeer.1
    rw [hsender, (of_connectionForHandler hp).1]
  have hmem := hwell.entry hp
  have hkey : k = p.connectionId.remoteAddress := hwell.apart _ hqmem _ hmem hhandler
  -- so it is `p` itself, and `e` is known under an address of `p`
  rw [hkey] at hqmem
  have hsame : q = p := Option.some.inj
    ((LinkedMap.get?_of_mem_entries hqmem).symm.trans (LinkedMap.get?_of_mem_entries hmem))
  rw [hsame] at hqknown
  -- who has told the address has told no other one
  have hone : ∀ e' ∈ n.connections.entries, e'.2.told = some a →
      e'.2.tellsOne = true ∧ e'.2.peerAddress = some a := by
    intro e' he' htold
    have hclear' := List.all_eq_true.1 hclear e' he'
    rw [tells_of_told htold, Bool.not_true, Bool.or_false] at hclear'
    exact ⟨hclear', (told_eq_peerAddress hclear').symm.trans htold⟩
  obtain hremote | htold := isKnownAs_iff.1 hqknown
  · obtain heremote | hetold := isKnownAs_iff.1 hknown
    · exact hne ((hwell.keyed e he).symm.trans (heremote.trans hremote.symm))
    · obtain ⟨heone, headdress⟩ := hone e he hetold
      exact (h e he _ hmem hne).remote heone a headdress hremote
  · obtain ⟨hpone, hpaddress⟩ := hone _ hmem htold
    have hpe := h _ hmem e he fun heq => hne heq.symm
    obtain heremote | hetold := isKnownAs_iff.1 hknown
    · exact hpe.remote hpone a hpaddress heremote
    · exact hpe.addresses a hpaddress (hone e he hetold).2

theorem Distinct.handshaked (h : Distinct n.connections)
    (hwell : WellKept n.connections n.launched) {peerInfo : PeerInfo} {sender : ℕ}
    {p : ConnectedPeer} (hp : n.connectionForHandler s sender = some p)
    (hpeer : n.shouldDropPeer s peerInfo sender p.connectionId.remoteAddress = false)
    (hclear : ∀ a, peerInfo.peerSpec.address = some a → n.clearOf a = true) :
    Distinct (n.connections.put p.connectionId.remoteAddress
      { p with peerInfo := some peerInfo }) := by
  -- no other connection has the address, nor comes from there
  have hother : ∀ e ∈ n.connections.entries, e.1 ≠ p.connectionId.remoteAddress → ∀ a,
      peerInfo.peerSpec.address = some a →
        e.2.connectionId.remoteAddress ≠ a ∧ e.2.peerAddress ≠ some a := by
    intro e he hk a ha
    have hunknown := h.accepted hwell hp hpeer ha (hclear a ha) e he hk
    rw [Bool.eq_false_iff, ne_eq, isKnownAs_iff, not_or] at hunknown
    refine ⟨hunknown.1, fun haddress => ?_⟩
    have hone := List.all_eq_true.1 (hclear a ha) e he
    rw [tells_of_peerAddress haddress, Bool.not_true, Bool.or_false] at hone
    exact hunknown.2 ((told_eq_peerAddress hone).trans haddress)
  refine h.put (fun e he hk => ?_) (fun e he hk => ?_)
  · exact ⟨fun a ha => (hother e he hk a ha).2, fun _ a ha => (hother e he hk a ha).1⟩
  · exact ⟨fun a ha ha' => (hother e he hk a ha').2 ha, (h e he _ (hwell.entry hp) hk).remote⟩

/-- The two things that keep peers apart: a handshake that is accepted does not tell an
address that a connection has told as one of two, and a confirmation does not come back for
an address that another connection has told. -/
def keepsApart (s : NetworkControllerSettings) (n : NetworkController) : Input → Bool
  | .handshaked peerInfo sender =>
      (n.connectionForHandler s sender).all fun p =>
        n.shouldDropPeer s peerInfo sender p.connectionId.remoteAddress
          || n.isConnectionLimitExhausted s peerInfo (isForgerConnection s peerInfo)
          || peerInfo.peerSpec.address.all n.clearOf
  | .connectionConfirmed connectionId _ _ =>
      n.connections.entries.all fun e =>
        e.1 == connectionId.remoteAddress || e.2.told != some connectionId.remoteAddress
  | _ => true

theorem Distinct.step (hstep : TableStep s n i m launched)
    (hwell : WellKept n.connections n.launched) (h : Distinct n.connections)
    (hkeeps : n.keepsApart s i = true) : Distinct m := by
  cases hstep with
  | kept => exact h
  | filtered _ keep => exact h.filter keep
  | @touched _ remoteAddress p now hp =>
    have hmem := LinkedMap.mem_entries_of_get? hp
    refine h.put (fun e he hk => ?_) (fun e he hk => ?_)
    · have hapart := h _ hmem e he fun heq => hk heq.symm
      exact ⟨hapart.addresses, hapart.remote⟩
    · have hapart := h e he _ hmem hk
      exact ⟨hapart.addresses, hapart.remote⟩
  | @dialled remoteAddress localAddress sender now hnew =>
    refine h.create rfl rfl ?_
    intro e he hk htold
    rw [isNewConnectionAndStillHaveRoom, Bool.and_eq_true, Option.isNone_iff_eq_none,
      connectionForPeerAddress_eq_none] at hnew
    have hknown : e.2.isKnownAs remoteAddress = true := isKnownAs_iff.2 (.inr htold)
    exact Bool.false_ne_true ((hnew.1 e he).symm.trans hknown)
  | confirmed connectionId handlerRef now =>
    refine h.create rfl rfl ?_
    intro e he hk htold
    rw [keepsApart, List.all_eq_true] at hkeeps
    have := hkeeps e he
    simp [hk, htold] at this
  | @handshaked peerInfo sender p hp hpeer hlimit =>
    refine h.handshaked hwell hp hpeer ?_
    intro a ha
    rw [keepsApart, hp, Option.all_some, hpeer, hlimit, ha] at hkeeps
    simpa using hkeeps

/-- No two entries have peers with the same address. -/
def PeersDistinct (m : Connections) : Prop :=
  ∀ e ∈ m.entries, ∀ e' ∈ m.entries, e.1 ≠ e'.1 →
    ∀ peerInfo ∈ e.2.peerInfo, ∀ peerInfo' ∈ e'.2.peerInfo,
      ∀ a, peerInfo.peerSpec.address = some a → peerInfo'.peerSpec.address ≠ some a

theorem Distinct.peersDistinct (h : Distinct m) : PeersDistinct m := by
  intro e he e' he' hne peerInfo hinfo peerInfo' hinfo' a ha ha'
  have haddress : e.2.peerAddress = some a := by
    rw [ConnectedPeer.peerAddress, Option.mem_def.1 hinfo, Option.bind_some, ha]
  have haddress' : e'.2.peerAddress = some a := by
    rw [ConnectedPeer.peerAddress, Option.mem_def.1 hinfo', Option.bind_some, ha']
  exact (h e he e' he' hne).addresses a haddress haddress'

end NetworkController

namespace Controlling

open NetworkController

variable {s : NetworkControllerSettings} {x : Controlling}

/-- **No peer is connected twice** in a run in which no accepted handshake tells an address
that a connection has told as one of two, and no confirmation comes back for an address that
another connection has told. -/
theorem peers_distinct
    (h : Reaches (step s)
      (fun x e => (Possible s x e && x.controller.keepsApart s e.toInput) = true) initial x) :
    PeersDistinct x.controller.connections := by
  have hempty : Distinct .empty := fun _ he => absurd he List.not_mem_nil
  have hrun := table_invariant (I := Distinct) hempty ?_ h
  · exact hrun.2.peersDistinct
  · intro x e m launched hok hwell hI htable
    rw [Bool.and_eq_true] at hok
    exact hI.step htable hwell hok.2

/-- Two peers with the same declared address open connections and shake hands; the first
one tells a local address, too. -/
def sameDeclared : List Event :=
  [.input (.connected (host 1) (host 9) 1 0),
    .input (.connectionConfirmed ⟨host 1, host 9, .incoming⟩ 1 0),
    .input (.handshaked (peer (some (host 5)) [.localAddress (host 6)] (some .incoming)) 0),
    .input (.connected (host 2) (host 9) 2 0),
    .input (.connectionConfirmed ⟨host 2, host 9, .incoming⟩ 2 0),
    .input (.handshaked (peer (some (host 5)) [] (some .incoming)) 1)]

/-- The same without the local address: the second one is dropped.  A third one tells two
addresses that nobody else has told. -/
def sameDeclaredOnly : List Event :=
  [.input (.connected (host 1) (host 9) 1 0),
    .input (.connectionConfirmed ⟨host 1, host 9, .incoming⟩ 1 0),
    .input (.handshaked (peer (some (host 5)) [] (some .incoming)) 0),
    .input (.connected (host 2) (host 9) 2 0),
    .input (.connectionConfirmed ⟨host 2, host 9, .incoming⟩ 2 0),
    .input (.handshaked (peer (some (host 5)) [] (some .incoming)) 1),
    .input (.connected (host 3) (host 9) 3 0),
    .input (.connectionConfirmed ⟨host 3, host 9, .incoming⟩ 3 0),
    .input (.handshaked (peer (some (host 7)) [.localAddress (host 8)] (some .incoming)) 2)]

theorem peers_distinct_sameDeclaredOnly :
    PeersDistinct (sameDeclaredOnly.foldl (step (plainSettings 5 5 0)) initial
      ).controller.connections :=
  peers_distinct (Reaches.of_meets _ (by decide))

/-- A peer that tells a declared and a local address is looked up under the local one
only, so that another peer with its declared address is accepted. -/
theorem peer_connected_twice :
    ∃ x, Reaches (step (plainSettings 5 5 0))
        (fun x e => Possible (plainSettings 5 5 0) x e = true) initial x
      ∧ ¬ PeersDistinct x.controller.connections := by
  refine ⟨_, Reaches.of_meets sameDeclared (by decide), ?_⟩
  intro h
  exact h (host 1, ⟨⟨host 1, host 9, .incoming⟩, 0, 0,
      some (peer (some (host 5)) [.localAddress (host 6)] (some .incoming))⟩) (by decide)
    (host 2, ⟨⟨host 2, host 9, .incoming⟩, 1, 0,
      some (peer (some (host 5)) [] (some .incoming))⟩) (by decide)
    (by decide) _ rfl _ rfl (host 5) rfl rfl

end Controlling

end Sparkz.Network
