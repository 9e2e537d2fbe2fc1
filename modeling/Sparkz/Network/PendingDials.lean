import Sparkz.Network.ConnectionTable

/-!
# Pending dials

* `DialsKept` — `unconfirmedConnections` are the dials that are not answered yet, each
  dialled once, and none of them has a connection.
* `dials_kept` — this holds as long as every dial that is answered becomes a connection,
  and nothing else becomes a connection with the address of a pending dial.
-/

namespace Sparkz.Network

open Sparkz.Lib

namespace NetworkController

variable {s : NetworkControllerSettings} {n : NetworkController}

/-! ## One message -/

/-- A message that neither dials nor answers a dial, and brings no connection. -/
structure Idle (n : NetworkController) (r : NetworkController × List Output) : Prop where
  unconfirmed : r.1.unconfirmedConnections = n.unconfirmedConnections
  dials : Controlling.dialsOf r.2 = []
  keys : r.1.connections.keys ⊆ n.connections.keys

/-- The connection for the address comes in; no dial is sent. -/
structure Opens (n : NetworkController) (remoteAddress : InetSocketAddress)
    (r : NetworkController × List Output) : Prop where
  unconfirmed : r.1.unconfirmedConnections = n.unconfirmedConnections.erase remoteAddress
  dials : Controlling.dialsOf r.2 = []
  keys : ∀ a ∈ r.1.connections.keys, a = remoteAddress ∨ a ∈ n.connections.keys

theorem keys_filter_subset (m : Connections) (keep : InetSocketAddress × ConnectedPeer → Bool) :
    (m.filter keep).keys ⊆ m.keys :=
  List.map_subset _ (List.filter_subset_self _)

theorem keys_put_subset {m : Connections} {k : InetSocketAddress} {p q : ConnectedPeer}
    (hp : m.get? k = some p) : (m.put k q).keys ⊆ m.keys := by
  intro a ha
  obtain rfl | ha := LinkedMap.mem_keys_put.1 ha
  · exact LinkedMap.contains_iff.1 (by rw [LinkedMap.contains, hp]; rfl)
  · exact ha

theorem opens_createPeerConnectionHandler (connectionId : ConnectionId InetSocketAddress)
    (connection : ℕ) (now : ℤ) :
    Opens n connectionId.remoteAddress
      (n.createPeerConnectionHandler s connectionId connection now) where
  unconfirmed := rfl
  dials := rfl
  keys _ ha := LinkedMap.mem_keys_put.1 ha

/-- `connectTo` does nothing, or dials an address that is free. -/
theorem connectTo_cases (s : NetworkControllerSettings) (n : NetworkController) (peer : PeerInfo) :
    n.connectTo s peer = (n, [])
      ∨ ∃ remote, n.connectionForPeerAddress s remote = none
        ∧ remote ∉ n.unconfirmedConnections
        ∧ n.connectTo s peer
          = ({ n with unconfirmedConnections := insert remote n.unconfirmedConnections },
              [.connect remote]) := by
  unfold connectTo
  split
  · rename_i remote _
    split
    · rename_i hnew
      rw [Bool.and_eq_true, Option.isNone_iff_eq_none, Bool.not_eq_true',
        decide_eq_false_iff_not] at hnew
      exact .inr ⟨remote, hnew.1, hnew.2, rfl⟩
    · exact .inl rfl
  · exact .inl rfl

/-- A new connection that a dial for its address is pending for is accepted. -/
def accepts (s : NetworkControllerSettings) (n : NetworkController)
    (remoteAddress : InetSocketAddress) : Bool :=
  n.isNewConnectionAndStillHaveRoom s remoteAddress
    && (n.canEstablishNewOutgoingConnection s || n.canEstablishNewForgerConnection s)

theorem connected_accepted {remoteAddress : InetSocketAddress} (localAddress : InetSocketAddress)
    (sender : ℕ) (now : ℤ) (hpending : remoteAddress ∈ n.unconfirmedConnections)
    (h : n.accepts s remoteAddress = true) :
    Opens n remoteAddress (n.connected s remoteAddress localAddress sender now) := by
  rw [accepts, Bool.and_eq_true] at h
  rw [connected, if_pos h.1, handleNewConnectionCreation, if_pos hpending, if_pos h.2]
  exact opens_createPeerConnectionHandler ⟨remoteAddress, localAddress, .outgoing⟩ sender now

theorem connected_idle {remoteAddress : InetSocketAddress} (localAddress : InetSocketAddress)
    (sender : ℕ) (now : ℤ)
    (h : remoteAddress ∈ n.unconfirmedConnections → n.accepts s remoteAddress = false) :
    Idle n (n.connected s remoteAddress localAddress sender now) := by
  have hclose : Idle n (n, [.close sender]) := ⟨rfl, rfl, List.Subset.refl _⟩
  unfold connected
  split
  · rename_i hnew
    unfold handleNewConnectionCreation
    split
    · rename_i hpending
      split
      · rename_i hroom
        have hrefused := h hpending
        rw [accepts, hnew, hroom] at hrefused
        cases hrefused
      · exact hclose
    · split
      · exact ⟨rfl, rfl, List.Subset.refl _⟩
      · exact hclose
  · exact hclose

theorem handleHandshake_idle (hwell : WellKept n.connections n.launched) (peerInfo : PeerInfo)
    (sender : ℕ) : Idle n (n.handleHandshake s peerInfo sender) := by
  unfold handleHandshake
  split
  · rename_i p hp
    dsimp only
    split
    · exact ⟨rfl, rfl, keys_filter_subset _ _⟩
    · exact ⟨rfl, rfl, keys_put_subset (LinkedMap.get?_of_mem_entries (hwell.entry hp))⟩
  · exact ⟨rfl, rfl, List.Subset.refl _⟩

theorem incomingMessage_idle (msg : Message SelfPeer) (now : ℤ) :
    Idle n (n.incomingMessage msg now) := by
  have hforward : ∀ o : Option ℕ, Controlling.dialsOf
      (o.toList.map fun handler => .toMessageHandler handler msg) = [] := by
    intro o
    cases o <;> rfl
  unfold incomingMessage
  split
  · dsimp only
    split
    · rename_i hp
      exact ⟨rfl, hforward _, keys_put_subset hp⟩
    · exact ⟨rfl, hforward _, List.Subset.refl _⟩
  · exact ⟨rfl, rfl, List.Subset.refl _⟩

theorem closeWhere_idle (peerAddress : InetSocketAddress)
    (keep : InetSocketAddress × ConnectedPeer → Bool) :
    Idle n (n.closeWhere s peerAddress keep) where
  unconfirmed := rfl
  dials := by
    show Controlling.dialsOf (List.flatMap _ _) = []
    rw [Controlling.dialsOf, List.filterMap_eq_nil_iff]
    intro out hout
    obtain ⟨p, -, hout⟩ := List.mem_flatMap.1 hout
    simp only [List.mem_cons, List.not_mem_nil, or_false] at hout
    obtain rfl | rfl := hout <;> rfl
  keys := keys_filter_subset _ _

theorem dropDeadConnections_idle (now : ℤ) : Idle n (n.dropDeadConnections s now) where
  unconfirmed := rfl
  dials := by
    show Controlling.dialsOf (List.map _ _) = []
    rw [Controlling.dialsOf, List.filterMap_eq_nil_iff]
    intro out hout
    obtain ⟨p, -, rfl⟩ := List.mem_map.1 hout
    rfl
  keys := List.Subset.refl _

end NetworkController

/-! ## Runs -/

namespace Controlling

open NetworkController

variable {s : NetworkControllerSettings} {x : Controlling}

/-- The unconfirmed connections are the pending dials; an address is dialled once, and
not while there is a connection with it. -/
structure DialsKept (x : Controlling) : Prop where
  unconfirmed : ∀ a, a ∈ x.controller.unconfirmedConnections ↔ a ∈ x.dials
  once : x.dials.Nodup
  unconnected : ∀ a ∈ x.dials, a ∉ x.controller.connections.keys

/-- A dial that is answered becomes a connection, and no other connection comes in with
the address of a pending dial. -/
def keepsDials (s : NetworkControllerSettings) (x : Controlling) : Event → Bool
  | .dialled remoteAddress _ _ _ => x.controller.accepts s remoteAddress
  | .input (.connected remoteAddress _ _ _) =>
      !(remoteAddress ∈ x.dials && x.controller.accepts s remoteAddress)
  | .input (.connectionConfirmed connectionId _ _) => connectionId.remoteAddress ∉ x.dials
  | _ => true

theorem DialsKept.idle (h : DialsKept x) {e : Event} (he : e.dial = none)
    (hidle : Idle x.controller (x.controller.receive s e.toInput)) : DialsKept (x.step s e) := by
  have hdials : (x.step s e).dials = x.dials := by
    rw [step_dials, he, hidle.dials, List.append_nil]
    rfl
  constructor
  · intro a
    rw [hdials, step_controller, hidle.unconfirmed, h.unconfirmed a]
  · rw [hdials]
    exact h.once
  · rw [hdials]
    intro a ha hkey
    exact h.unconnected a ha (hidle.keys hkey)

/-- The dial of the address is answered, or was not pending. -/
theorem DialsKept.opens (h : DialsKept x) {e : Event} {remoteAddress : InetSocketAddress}
    (he : e.dial.elim x.dials x.dials.erase = x.dials.erase remoteAddress)
    (hopens : Opens x.controller remoteAddress (x.controller.receive s e.toInput)) :
    DialsKept (x.step s e) := by
  have hdials : (x.step s e).dials = x.dials.erase remoteAddress := by
    rw [step_dials, he, hopens.dials, List.append_nil]
  constructor
  · intro a
    rw [hdials, step_controller, hopens.unconfirmed, Finset.mem_erase, h.once.mem_erase_iff,
      h.unconfirmed a]
  · rw [hdials]
    exact h.once.erase _
  · rw [hdials]
    intro a ha hkey
    rw [h.once.mem_erase_iff] at ha
    obtain heq | hkey := hopens.keys a hkey
    · exact ha.1 heq
    · exact h.unconnected a ha.2 hkey

theorem DialsKept.connectTo (h : DialsKept x)
    (hwell : WellKept x.controller.connections x.controller.launched) (peer : PeerInfo) :
    DialsKept (x.step s (.input (.connectTo peer))) := by
  have hreceive : x.controller.receive s (.connectTo peer) = x.controller.connectTo s peer := rfl
  obtain hnone | ⟨remote, hfree, hnew, hdial⟩ := connectTo_cases s x.controller peer
  · refine h.idle rfl ?_
    rw [Event.toInput, hreceive, hnone]
    exact ⟨rfl, rfl, List.Subset.refl _⟩
  · rw [h.unconfirmed] at hnew
    have hdials : (x.step s (.input (.connectTo peer))).dials = x.dials ++ [remote] := by
      rw [step_dials, Event.toInput, hreceive, hdial]
      rfl
    constructor
    · intro a
      rw [hdials, step_controller, Event.toInput, hreceive, hdial, Finset.mem_insert,
        List.mem_append, List.mem_singleton, h.unconfirmed a, or_comm]
    · rw [hdials, List.nodup_append]
      refine ⟨h.once, List.nodup_singleton _, ?_⟩
      rintro a ha b hb rfl
      exact hnew (List.mem_singleton.1 hb ▸ ha)
    · rw [hdials, step_controller, Event.toInput, hreceive, hdial]
      intro a ha hkey
      obtain ha | ha := List.mem_append.1 ha
      · exact h.unconnected a ha hkey
      · -- the address has no connection, for none is known under it
        obtain rfl := List.mem_singleton.1 ha
        obtain ⟨e, he, hekey⟩ := List.mem_map.1 hkey
        have hknown := connectionForPeerAddress_eq_none.1 hfree e he
        rw [ConnectedPeer.isKnownAs, hwell.keyed e he, hekey] at hknown
        simp at hknown

theorem DialsKept.terminated (h : DialsKept x)
    (hwell : WellKept x.controller.connections x.controller.launched) (ref : ℕ) :
    DialsKept (x.step s (.input (.terminated ref))) := by
  refine h.idle rfl ?_
  show Idle x.controller (x.controller.terminated s ref)
  unfold NetworkController.terminated
  split
  · rename_i p hp
    -- the address of a connection has no pending dial
    have hkey : p.connectionId.remoteAddress ∈ x.controller.connections.keys :=
      List.mem_map.2 ⟨_, hwell.entry hp, rfl⟩
    refine ⟨Finset.erase_eq_of_notMem ?_, rfl, keys_filter_subset _ _⟩
    rw [h.unconfirmed]
    intro hdial
    exact h.unconnected _ hdial hkey
  · exact ⟨rfl, rfl, List.Subset.refl _⟩

theorem DialsKept.connectFailed (h : DialsKept x) (remoteAddress : InetSocketAddress) (now : ℤ) :
    DialsKept (x.step s (.input (.connectFailed remoteAddress now))) := by
  refine h.opens (e := .input (.connectFailed remoteAddress now)) rfl ⟨rfl, ?_, fun a ha => .inr ha⟩
  show dialsOf (if _ then [.removePeer remoteAddress] else []) = []
  split <;> rfl

theorem DialsKept.step (h : DialsKept x)
    (hwell : WellKept x.controller.connections x.controller.launched) {e : Event}
    (hpossible : Possible s x e = true) (hkeeps : x.keepsDials s e = true) :
    DialsKept (x.step s e) := by
  cases e with
  | dialled remoteAddress localAddress sender now =>
    rw [Possible, decide_eq_true_iff] at hpossible
    exact h.opens rfl (connected_accepted localAddress sender now
      ((h.unconfirmed _).2 hpossible) hkeeps)
  | input i =>
    cases i with
    | connected remoteAddress localAddress sender now =>
      refine h.idle rfl (connected_idle localAddress sender now ?_)
      intro hpending
      rw [keepsDials, decide_eq_true ((h.unconfirmed _).1 hpending)] at hkeeps
      simpa using hkeeps
    | connectionConfirmed connectionId handlerRef now =>
      rw [keepsDials, decide_eq_true_iff] at hkeeps
      refine h.opens ?_ (opens_createPeerConnectionHandler connectionId handlerRef now)
      exact (List.erase_of_not_mem hkeeps).symm
    | connectTo peer => exact h.connectTo hwell peer
    | connectFailed remoteAddress now => exact h.connectFailed remoteAddress now
    | terminated ref => exact h.terminated hwell ref
    | handshaked peerInfo sender => exact h.idle rfl (handleHandshake_idle hwell peerInfo sender)
    | message msg now => exact h.idle rfl (incomingMessage_idle msg now)
    | disconnectFromAddress address => exact h.idle rfl (closeWhere_idle address _)
    | disconnectFromNode address => exact h.idle rfl (closeWhere_idle address _)
    | dropDeadConnections now => exact h.idle rfl (dropDeadConnections_idle now)
    | registerMessageSpecs codes handler => exact h.idle rfl ⟨rfl, rfl, List.Subset.refl _⟩
    | disconnectFrom handlerRef => exact h.idle rfl ⟨rfl, rfl, List.Subset.refl _⟩
    | penalizePeer address penaltyType => exact h.idle rfl ⟨rfl, rfl, List.Subset.refl _⟩
    | connectionDenied connectionId handlerRef => exact h.idle rfl ⟨rfl, rfl, List.Subset.refl _⟩

/-- **Pending dials.**  In every run in which each dial that is answered becomes a
connection, and no other connection comes in with the address of a pending dial, the
unconfirmed connections are the dials that are not answered yet. -/
theorem dials_kept
    (h : Reaches (Controlling.step s) (fun x e => (Possible s x e && x.keepsDials s e) = true)
      initial x) :
    ∀ a, a ∈ x.controller.unconfirmedConnections ↔ a ∈ x.dials := by
  have hinitial : DialsKept initial :=
    ⟨fun _ => Iff.rfl, List.nodup_nil, fun _ ha => absurd ha List.not_mem_nil⟩
  have hrun := Reaches.invariant (I := fun x => WellKept x.controller.connections
    x.controller.launched ∧ DialsKept x) ?_ ⟨wellKept_initial, hinitial⟩ h
  · exact hrun.2.unconfirmed
  · rintro x e ⟨hwell, hI⟩ hok
    rw [Bool.and_eq_true] at hok
    exact ⟨hwell.step (receive_table s x.controller e.toInput), hI.step hwell hok.1 hok.2⟩

/-- Two peers are dialled, and both answer. -/
def twoDials : List Event :=
  [.input (.connectTo (peer (some (host 1)) [] none)),
    .input (.connectTo (peer (some (host 2)) [] none)),
    .dialled (host 1) (host 9) 1 0, .dialled (host 2) (host 9) 2 0]

theorem dials_kept_oneAnswered :
    let x := (twoDials.take 3).foldl (Controlling.step (plainSettings 1 1 0)) initial
    host 2 ∈ x.controller.unconfirmedConnections
      ∧ host 1 ∉ x.controller.unconfirmedConnections := by
  intro x
  have hkept := dials_kept (s := plainSettings 1 1 0) (x := x)
    (Reaches.of_meets (twoDials.take 3) (by decide))
  constructor
  · exact (hkept (host 2)).2 (by decide)
  · intro hmem
    exact absurd ((hkept (host 1)).1 hmem) (by decide)

/-- With room for one outgoing connection, the second dial is answered and refused, and its
address stays unconfirmed. -/
theorem refused_dial_stays :
    ∃ x, Reaches (Controlling.step (plainSettings 1 1 0))
        (fun x e => Possible (plainSettings 1 1 0) x e = true) initial x
      ∧ host 2 ∈ x.controller.unconfirmedConnections ∧ host 2 ∉ x.dials :=
  ⟨_, Reaches.of_meets twoDials (by decide), by decide, by decide⟩

end Controlling

end Sparkz.Network
