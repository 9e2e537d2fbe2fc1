import Sparkz.Network.NetworkController

/-!
# What a message does to the table of connections

* `TableStep` — the ways in which one message changes `connections`: entries are dropped,
  one is stamped, a connection comes in without its peer information, or a handshake
  adds it.
* `receive_table` — every message changes the table in one of these ways.
* `WellKept` — an entry stands under its remote address, and has its handler to itself;
  this holds in every state that is reached.
* `table_invariant` — what the steps of the table keep holds in every state reached.
-/

namespace Sparkz.Network

open Sparkz.Lib

namespace NetworkController

/-! ## Lookups -/

section Lookups

variable {s : NetworkControllerSettings} {n : NetworkController} {p : ConnectedPeer}

theorem mem_values (s : NetworkControllerSettings) (m : Connections) (p : ConnectedPeer) :
    p ∈ s.values m ↔ ∃ k, (k, p) ∈ m.entries := by
  rw [(s.values_perm m).mem_iff, Connections.values]
  simp

theorem of_connectionForHandler {handler : ℕ} (h : n.connectionForHandler s handler = some p) :
    p.handlerRef = handler ∧ ∃ k, (k, p) ∈ n.connections.entries := by
  refine ⟨?_, (mem_values s _ p).1 (List.mem_of_find?_eq_some h)⟩
  simpa using List.find?_some h

theorem of_connectionForPeerAddress {a : InetSocketAddress}
    (h : n.connectionForPeerAddress s a = some p) :
    p.isKnownAs a = true ∧ ∃ k, (k, p) ∈ n.connections.entries := by
  refine ⟨?_, (mem_values s _ p).1 (List.mem_of_find?_eq_some h)⟩
  simpa using List.find?_some h

theorem connectionForPeerAddress_eq_none {a : InetSocketAddress} :
    n.connectionForPeerAddress s a = none
      ↔ ∀ e ∈ n.connections.entries, e.2.isKnownAs a = false := by
  rw [connectionForPeerAddress, List.find?_eq_none]
  constructor
  · intro h e he
    simpa using h e.2 ((mem_values s _ _).2 ⟨e.1, he⟩)
  · intro h q hq
    obtain ⟨k, hk⟩ := (mem_values s _ q).1 hq
    simpa using h (k, q) hk

end Lookups

/-! ## One message -/

/-- What one message does to the table of connections, and to the number of handlers. -/
inductive TableStep (s : NetworkControllerSettings) (n : NetworkController) :
    Input → Connections → ℕ → Prop
  | kept (i : Input) : TableStep s n i n.connections n.launched
  | filtered (i : Input) (keep : InetSocketAddress × ConnectedPeer → Bool) :
      TableStep s n i (n.connections.filter keep) n.launched
  | touched (i : Input) {remoteAddress : InetSocketAddress} {p : ConnectedPeer} (now : ℤ)
      (hp : n.connections.get? remoteAddress = some p) :
      TableStep s n i (n.connections.put remoteAddress { p with lastMessage := now }) n.launched
  | dialled {remoteAddress : InetSocketAddress} (localAddress : InetSocketAddress) (sender : ℕ)
      (now : ℤ) (hnew : n.isNewConnectionAndStillHaveRoom s remoteAddress = true) :
      TableStep s n (.connected remoteAddress localAddress sender now)
        (n.connections.put remoteAddress
          ⟨⟨remoteAddress, localAddress, .outgoing⟩, n.launched, now, none⟩) (n.launched + 1)
  | confirmed (connectionId : ConnectionId InetSocketAddress) (handlerRef : ℕ) (now : ℤ) :
      TableStep s n (.connectionConfirmed connectionId handlerRef now)
        (n.connections.put connectionId.remoteAddress ⟨connectionId, n.launched, now, none⟩)
        (n.launched + 1)
  | handshaked {peerInfo : PeerInfo} {sender : ℕ} {p : ConnectedPeer}
      (hp : n.connectionForHandler s sender = some p)
      (hpeer : n.shouldDropPeer s peerInfo sender p.connectionId.remoteAddress = false)
      (hlimit : n.isConnectionLimitExhausted s peerInfo (isForgerConnection s peerInfo) = false) :
      TableStep s n (.handshaked peerInfo sender)
        (n.connections.put p.connectionId.remoteAddress { p with peerInfo := some peerInfo })
        n.launched

variable (s : NetworkControllerSettings) (n : NetworkController)

theorem connected_table (remoteAddress localAddress : InetSocketAddress) (sender : ℕ) (now : ℤ) :
    TableStep s n (.connected remoteAddress localAddress sender now)
      (n.connected s remoteAddress localAddress sender now).1.connections
      (n.connected s remoteAddress localAddress sender now).1.launched := by
  unfold connected
  split
  · rename_i hnew
    unfold handleNewConnectionCreation
    split
    · split
      · exact .dialled localAddress sender now hnew
      · exact .kept _
    · split
      · exact .kept _
      · exact .kept _
  · exact .kept _

theorem handleHandshake_table (peerInfo : PeerInfo) (sender : ℕ) :
    TableStep s n (.handshaked peerInfo sender)
      (n.handleHandshake s peerInfo sender).1.connections
      (n.handleHandshake s peerInfo sender).1.launched := by
  unfold handleHandshake
  split
  · rename_i p hp
    dsimp only
    split
    · exact .filtered _ _
    · rename_i hkept
      rw [Bool.not_eq_true, Bool.or_eq_false_iff] at hkept
      exact .handshaked hp hkept.1 hkept.2
  · exact .kept _

/-- **Every message** changes the table in one of the listed ways. -/
theorem receive_table (i : Input) :
    TableStep s n i (n.receive s i).1.connections (n.receive s i).1.launched := by
  cases i with
  | message msg now =>
    show TableStep s n _ (n.incomingMessage msg now).1.connections
      (n.incomingMessage msg now).1.launched
    unfold incomingMessage
    split
    · dsimp only
      split
      · rename_i hp
        exact .touched _ now hp
      · exact .kept _
    · exact .kept _
  | connectTo peer =>
    show TableStep s n _ (n.connectTo s peer).1.connections (n.connectTo s peer).1.launched
    unfold connectTo
    split
    · split
      · exact .kept _
      · exact .kept _
    · exact .kept _
  | disconnectFromAddress address => exact .filtered _ _
  | disconnectFromNode address => exact .filtered _ _
  | connected remoteAddress localAddress sender now => exact connected_table s n _ _ _ _
  | connectionConfirmed connectionId handlerRef now => exact .confirmed _ _ _
  | handshaked peerInfo sender => exact handleHandshake_table s n _ _
  | terminated ref =>
    show TableStep s n _ (n.terminated s ref).1.connections (n.terminated s ref).1.launched
    unfold terminated
    split
    · exact .filtered _ _
    · exact .kept _
  | _ => exact .kept _

/-! ## A well-kept table -/

/-- Every entry stands under its remote address, and no two have the same handler. -/
structure WellKept (m : Connections) (launched : ℕ) : Prop where
  keyed : ∀ e ∈ m.entries, e.2.connectionId.remoteAddress = e.1
  started : ∀ e ∈ m.entries, e.2.handlerRef < launched
  apart : ∀ e ∈ m.entries, ∀ e' ∈ m.entries, e.2.handlerRef = e'.2.handlerRef → e.1 = e'.1

variable {s n} {m : Connections} {launched : ℕ}

theorem WellKept.filter (h : WellKept m launched)
    (keep : InetSocketAddress × ConnectedPeer → Bool) : WellKept (m.filter keep) launched where
  keyed e he := h.keyed e (List.mem_of_mem_filter he)
  started e he := h.started e (List.mem_of_mem_filter he)
  apart e he e' he' := h.apart e (List.mem_of_mem_filter he) e' (List.mem_of_mem_filter he')

/-- An entry is replaced by one with the same connection and handler. -/
theorem WellKept.replace (h : WellKept m launched) {k : InetSocketAddress} {p q : ConnectedPeer}
    (hp : (k, p) ∈ m.entries) (hid : q.connectionId = p.connectionId)
    (hhandler : q.handlerRef = p.handlerRef) : WellKept (m.put k q) launched where
  keyed e he := by
    obtain rfl | ⟨-, he⟩ := LinkedMap.mem_entries_put.1 he
    · show q.connectionId.remoteAddress = k
      rw [hid]
      exact h.keyed _ hp
    · exact h.keyed e he
  started e he := by
    obtain rfl | ⟨-, he⟩ := LinkedMap.mem_entries_put.1 he
    · show q.handlerRef < launched
      rw [hhandler]
      exact h.started _ hp
    · exact h.started e he
  apart e he e' he' hsame := by
    obtain rfl | ⟨hne, he⟩ := LinkedMap.mem_entries_put.1 he
    · obtain rfl | ⟨hne', he'⟩ := LinkedMap.mem_entries_put.1 he'
      · rfl
      · exact h.apart (k, p) hp e' he' (hhandler ▸ hsame)
    · obtain rfl | ⟨hne', he'⟩ := LinkedMap.mem_entries_put.1 he'
      · exact h.apart e he (k, p) hp (hhandler ▸ hsame)
      · exact h.apart e he e' he' hsame

/-- A connection comes in with a new handler. -/
theorem WellKept.create (h : WellKept m launched) (p : ConnectedPeer)
    (hhandler : p.handlerRef = launched) :
    WellKept (m.put p.connectionId.remoteAddress p) (launched + 1) where
  keyed e he := by
    obtain rfl | ⟨-, he⟩ := LinkedMap.mem_entries_put.1 he
    · rfl
    · exact h.keyed e he
  started e he := by
    obtain rfl | ⟨-, he⟩ := LinkedMap.mem_entries_put.1 he
    · exact Nat.lt_succ_of_le (Nat.le_of_eq hhandler)
    · exact Nat.lt_succ_of_lt (h.started e he)
  apart e he e' he' hsame := by
    obtain rfl | ⟨hne, he⟩ := LinkedMap.mem_entries_put.1 he
    · obtain rfl | ⟨hne', he'⟩ := LinkedMap.mem_entries_put.1 he'
      · rfl
      · exact absurd (hsame.symm.trans hhandler) (Nat.ne_of_lt (h.started e' he'))
    · obtain rfl | ⟨hne', he'⟩ := LinkedMap.mem_entries_put.1 he'
      · exact absurd (hsame.trans hhandler) (Nat.ne_of_lt (h.started e he))
      · exact h.apart e he e' he' hsame

/-- The entry of a handler stands under its remote address. -/
theorem WellKept.entry {p : ConnectedPeer} {handler : ℕ} (h : WellKept n.connections n.launched)
    (hp : n.connectionForHandler s handler = some p) :
    (p.connectionId.remoteAddress, p) ∈ n.connections.entries := by
  obtain ⟨-, k, hk⟩ := of_connectionForHandler hp
  have hkey : p.connectionId.remoteAddress = k := h.keyed _ hk
  rwa [hkey]

theorem WellKept.step {i : Input} (hstep : TableStep s n i m launched)
    (h : WellKept n.connections n.launched) : WellKept m launched := by
  cases hstep with
  | kept => exact h
  | filtered => exact h.filter _
  | touched _ now hp => exact h.replace (LinkedMap.mem_entries_of_get? hp) rfl rfl
  | dialled localAddress sender now hnew =>
    exact h.create ⟨⟨_, localAddress, .outgoing⟩, n.launched, now, none⟩ rfl
  | confirmed connectionId handlerRef now =>
    exact h.create ⟨connectionId, n.launched, now, none⟩ rfl
  | handshaked hp _ _ => exact h.replace (h.entry hp) rfl rfl

theorem wellKept_initial : WellKept initial.connections initial.launched where
  keyed _ he := absurd he List.not_mem_nil
  started _ he := absurd he List.not_mem_nil
  apart _ he := absurd he List.not_mem_nil

end NetworkController

/-! ## Runs -/

namespace Controlling

open NetworkController

variable {s : NetworkControllerSettings} {x : Controlling}

/-- What holds of the table at the start and is kept by `TableStep` under the guard
holds of it in every state that is reached. -/
theorem table_invariant {I : Connections → Prop} {ok : Controlling → Event → Prop}
    (hinitial : I .empty)
    (hstep : ∀ (x : Controlling) (e : Event) (m : Connections) (launched : ℕ), ok x e →
      WellKept x.controller.connections x.controller.launched → I x.controller.connections →
      TableStep s x.controller e.toInput m launched → I m)
    (h : Reaches (step s) ok initial x) :
    WellKept x.controller.connections x.controller.launched ∧ I x.controller.connections := by
  refine Reaches.invariant (I := fun x => WellKept x.controller.connections x.controller.launched
    ∧ I x.controller.connections) ?_ ⟨wellKept_initial, hinitial⟩ h
  rintro x e ⟨hwell, hI⟩ hok
  have htable := receive_table s x.controller e.toInput
  exact ⟨hwell.step htable, hstep x e _ _ hok hwell hI htable⟩

end Controlling

end Sparkz.Network
