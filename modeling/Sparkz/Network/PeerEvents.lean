import Mathlib
import Sparkz.Network.ConnectionTable

/-!
# Events of connected peers

What the controller publishes about its peers, and the handlers that it has started, beside
its table of connections.

* `PeerEvents`, `step` — the controller with the last event of each address, the handlers that
  are alive, and those that have sent their handshake.
* `Bracketed` — the events say which connections are handshaked, and every handler that is
  alive has an entry.
* `Effect`, `receive_effect` — what one message does to the table, and what is sent with it.
* `bracketed_iff` — the events bracket the connections exactly as long as no confirmed
  connection takes the place of one that is handshaked or alive.
-/

namespace Sparkz.Network

open Sparkz.Lib NetworkController

/-- What is published about a peer. -/
inductive PeerEvent where
  | handshakedPeer
  | disconnectedPeer
  deriving DecidableEq, Repr

/-- The controller, the last event of each remote address, the handlers that were created,
have not terminated and were not told to close, and the handlers that have sent their
handshake. -/
structure PeerEvents where
  controller : NetworkController
  lastEvents : LinkedMap InetSocketAddress PeerEvent
  live : Finset ℕ
  shaken : Finset ℕ

namespace PeerEvents

/-- The events among the messages sent. -/
def eventsOf (sent : List Output) : List (InetSocketAddress × PeerEvent) :=
  sent.filterMap fun
    | .handshakedPeer connectedPeer =>
        some (connectedPeer.connectionId.remoteAddress, .handshakedPeer)
    | .disconnectedPeer remoteAddress => some (remoteAddress, .disconnectedPeer)
    | _ => none

/-- The handlers that are created. -/
def createdOf (sent : List Output) : List ℕ :=
  sent.filterMap fun
    | .launch handler _ _ _ _ => some handler
    | _ => none

/-- The handlers that are told to close. -/
def closedOf (sent : List Output) : List ℕ :=
  sent.filterMap fun
    | .closeConnection handlerRef => some handlerRef
    | _ => none

/-- The handler that has terminated. -/
def terminatedBy : Input → Finset ℕ
  | .terminated ref => {ref}
  | _ => ∅

/-- The handler that sends its handshake. -/
def shakenBy : Input → Finset ℕ
  | .handshaked _ sender => {sender}
  | _ => ∅

/-- Before the first message. -/
def initial : PeerEvents := ⟨NetworkController.initial, .empty, ∅, ∅⟩

/-- The controller handles one message. -/
def step (s : NetworkControllerSettings) (x : PeerEvents) (i : Input) : PeerEvents :=
  let (controller, sent) := x.controller.receive s i
  { controller := controller
    lastEvents := x.lastEvents.putAll (eventsOf sent)
    live := ((x.live ∪ (createdOf sent).toFinset) \ (closedOf sent).toFinset) \ terminatedBy i
    shaken := x.shaken ∪ shakenBy i }

/-- The handler is that of some entry. -/
def HasEntry (m : Connections) (handler : ℕ) : Prop :=
  ∃ remoteAddress p, m.get? remoteAddress = some p ∧ p.handlerRef = handler

/-- The last event of an address is `HandshakedPeer` just when its entry has the peer
information, and every handler that is alive has an entry. -/
structure Bracketed (x : PeerEvents) : Prop where
  events : ∀ remoteAddress, x.lastEvents.get? remoteAddress = some .handshakedPeer ↔
    ∃ p, x.controller.connections.get? remoteAddress = some p ∧ p.peerInfo.isSome = true
  handlers : ∀ handler ∈ x.live, HasEntry x.controller.connections handler

/-- A handler sends its handshake once. -/
def ShakesOnce (x : PeerEvents) : Input → Prop
  | .handshaked _ sender => sender ∉ x.shaken
  | _ => True

/-- A confirmed connection does not take the place of one that is handshaked or alive. -/
def TakesFreePlace (x : PeerEvents) : Input → Prop
  | .connectionConfirmed connectionId _ _ => ∀ p,
      x.controller.connections.get? connectionId.remoteAddress = some p →
        p.peerInfo = none ∧ p.handlerRef ∉ x.live
  | _ => True

/-! ## What one message does -/

/-- What one message does to the table of connections, with the events, the handlers that are
created and those that are told to close. -/
inductive Effect (n : NetworkController) (i : Input) :
    Connections → List (InetSocketAddress × PeerEvent) → List ℕ → List ℕ → Prop
  | kept (closed : List ℕ) : Effect n i n.connections [] [] closed
  | touched {remoteAddress : InetSocketAddress} {p : NetworkController.ConnectedPeer}
      (now : ℤ) (hp : n.connections.get? remoteAddress = some p) :
      Effect n i (n.connections.put remoteAddress { p with lastMessage := now }) [] [] []
  | created (p : NetworkController.ConnectedPeer) (hhandler : p.handlerRef = n.launched)
      (hinfo : p.peerInfo = none)
      (hplace : (∃ handlerRef now, i = .connectionConfirmed p.connectionId handlerRef now) ∨
        n.connections.get? p.connectionId.remoteAddress = none) :
      Effect n i (n.connections.put p.connectionId.remoteAddress p) [] [n.launched] []
  | handshaked {peerInfo : PeerInfo} {p : NetworkController.ConnectedPeer}
      (hi : i = .handshaked peerInfo p.handlerRef)
      (hp : n.connections.get? p.connectionId.remoteAddress = some p) :
      Effect n i
        (n.connections.put p.connectionId.remoteAddress { p with peerInfo := some peerInfo })
        [(p.connectionId.remoteAddress, .handshakedPeer)] [] []
  | dropped {peerInfo : PeerInfo} {p : NetworkController.ConnectedPeer}
      (hi : i = .handshaked peerInfo p.handlerRef)
      (hp : n.connections.get? p.connectionId.remoteAddress = some p) :
      Effect n i (n.connections.remove p.connectionId.remoteAddress) [] [] [p.handlerRef]
  | disconnected {remoteAddress : InetSocketAddress} {p : NetworkController.ConnectedPeer}
      (closed : List ℕ) (hp : n.connections.get? remoteAddress = some p)
      (hgone : p.handlerRef ∈ closed ∨ i = .terminated p.handlerRef) :
      Effect n i (n.connections.remove remoteAddress) [(remoteAddress, .disconnectedPeer)] []
        closed

section Effects

variable (s : NetworkControllerSettings) (n : NetworkController)

/-- What a handler of the controller sends has the effect of the table it leaves. -/
def HasEffect (i : Input) (r : NetworkController × List Output) : Prop :=
  Effect n i r.1.connections (eventsOf r.2) (createdOf r.2) (closedOf r.2)

theorem connected_effect (h : WellKept n.connections n.launched)
    (remoteAddress localAddress : InetSocketAddress) (sender : ℕ) (now : ℤ) (i : Input) :
    HasEffect n i (n.connected s remoteAddress localAddress sender now) := by
  unfold NetworkController.connected
  split
  · rename_i hnew
    have hfree : n.connections.get? remoteAddress = none := by
      rw [isNewConnectionAndStillHaveRoom, Bool.and_eq_true, Option.isNone_iff_eq_none,
        connectionForPeerAddress_eq_none] at hnew
      by_contra hsome
      obtain ⟨p, hp⟩ := Option.ne_none_iff_exists'.1 hsome
      have hmem := LinkedMap.mem_entries_of_get? hp
      have hunknown := hnew.1 _ hmem
      rw [ConnectedPeer.isKnownAs, h.keyed _ hmem] at hunknown
      simp at hunknown
    unfold handleNewConnectionCreation
    split
    · split
      · exact .created ⟨⟨remoteAddress, localAddress, .outgoing⟩, n.launched, now, none⟩ rfl rfl
          (.inr hfree)
      · exact .kept _
    · split <;> exact .kept _
  · exact .kept _

theorem handleHandshake_effect (h : WellKept n.connections n.launched) (peerInfo : PeerInfo)
    (sender : ℕ) :
    HasEffect n (.handshaked peerInfo sender) (n.handleHandshake s peerInfo sender) := by
  unfold handleHandshake
  split
  · rename_i p hp
    have hentry := LinkedMap.get?_of_mem_entries (h.entry hp)
    obtain ⟨rfl, -⟩ := of_connectionForHandler hp
    dsimp only
    split
    · exact .dropped rfl hentry
    · exact .handshaked rfl hentry
  · exact .kept _

theorem terminated_effect (h : WellKept n.connections n.launched) (ref : ℕ) :
    HasEffect n (.terminated ref) (n.terminated s ref) := by
  unfold NetworkController.terminated
  split
  · rename_i p hp
    have hentry := LinkedMap.get?_of_mem_entries (h.entry hp)
    obtain ⟨rfl, -⟩ := of_connectionForHandler hp
    exact .disconnected _ hentry (.inr rfl)
  · exact .kept _

theorem incomingMessage_effect (msg : Message SelfPeer) (now : ℤ) (i : Input) :
    HasEffect n i (n.incomingMessage msg now) := by
  have hquiet : ∀ handlers : List ℕ,
      eventsOf (handlers.map fun handler => .toMessageHandler handler msg) = [] ∧
        createdOf (handlers.map fun handler => .toMessageHandler handler msg) = [] ∧
        closedOf (handlers.map fun handler => .toMessageHandler handler msg) = [] := by
    intro handlers
    simp [eventsOf, createdOf, closedOf]
  unfold incomingMessage
  split
  · dsimp only
    obtain ⟨hevents, hcreated, hclosed⟩ := hquiet (n.messageHandlers.get? msg.messageCode).toList
    split
    · rename_i hp
      rw [HasEffect, hevents, hcreated, hclosed]
      exact .touched now hp
    · rw [HasEffect, hevents, hcreated, hclosed]
      exact .kept _
  · exact .kept _

theorem closeWhere_effect (peerAddress : InetSocketAddress)
    (keep : InetSocketAddress × NetworkController.ConnectedPeer → Bool)
    (hkeep : ∀ e ∈ n.connections.entries, keep e = (e.1 != peerAddress)) (i : Input) :
    HasEffect n i (n.closeWhere s peerAddress keep) := by
  have hconnections : n.connections.filter keep = n.connections.remove peerAddress :=
    LinkedMap.ext_entries (List.filter_congr fun e he => by
      rw [hkeep e he, decide_not, bne, beq_eq_decide])
  -- the entries that are closed are those of the address
  have hclosed : (s.values (n.connections.filter fun e => !keep e)).Perm
      ((n.connections.entries.filter fun e => e.1 = peerAddress).map Prod.snd) := by
    have hfilter : n.connections.entries.filter (fun e => !keep e) =
        n.connections.entries.filter fun e => e.1 = peerAddress :=
      List.filter_congr fun e he => by rw [hkeep e he, bne, Bool.not_not, beq_eq_decide]
    rw [← hfilter]
    exact s.values_perm _
  rw [HasEffect, closeWhere, hconnections]
  obtain ⟨hfind, hsame⟩ | ⟨p, hfind⟩ := n.connections.find?_key peerAddress
  · rw [List.filter_eq_nil_iff.2 (List.find?_eq_none.1 hfind), List.map_nil,
      List.perm_nil] at hclosed
    rw [hclosed, hsame]
    exact .kept _
  · have hp : n.connections.get? peerAddress = some p := by
      rw [LinkedMap.get?, hfind, Option.map_some]
    rw [LinkedMap.filter_key_eq hp, List.map_singleton, List.perm_singleton] at hclosed
    rw [hclosed]
    exact .disconnected _ hp (.inl (List.mem_singleton_self _))

theorem receive_effect (h : WellKept n.connections n.launched) (i : Input) :
    HasEffect n i (n.receive s i) := by
  cases i with
  | message msg now => exact incomingMessage_effect n msg now _
  | connectTo peer =>
    show HasEffect n _ (n.connectTo s peer)
    unfold connectTo
    split
    · split <;> exact .kept _
    · exact .kept _
  | disconnectFromAddress address =>
    refine closeWhere_effect s n address _ (fun e he => ?_) _
    rw [h.keyed e he]
  | disconnectFromNode address => exact closeWhere_effect s n address _ (fun e he => rfl) _
  | connected remoteAddress localAddress sender now => exact connected_effect s n h _ _ _ _ _
  | connectionConfirmed connectionId handlerRef now =>
    exact .created ⟨connectionId, n.launched, now, none⟩ rfl rfl (.inl ⟨handlerRef, now, rfl⟩)
  | handshaked peerInfo sender => exact handleHandshake_effect s n h peerInfo sender
  | connectFailed remoteAddress now =>
    show HasEffect n _ (n.connectFailed s remoteAddress now)
    unfold connectFailed
    split <;> exact .kept _
  | terminated ref => exact terminated_effect s n h ref
  | dropDeadConnections now =>
    have hquiet : ∀ peers : List NetworkController.ConnectedPeer,
        eventsOf (peers.map fun cp => .closeConnection cp.handlerRef) = [] ∧
          createdOf (peers.map fun cp => .closeConnection cp.handlerRef) = [] := by
      intro peers
      simp [eventsOf, createdOf]
    show HasEffect n _ (n.dropDeadConnections s now)
    rw [HasEffect, dropDeadConnections, (hquiet _).1, (hquiet _).2]
    exact .kept _
  | disconnectFrom handlerRef => exact .kept _
  | penalizePeer address penaltyType => exact .kept _
  | connectionDenied connectionId handlerRef => exact .kept _
  | registerMessageSpecs codes handler => exact .kept _

end Effects

/-! ## Runs -/

variable {s : NetworkControllerSettings} {x : PeerEvents}

/-- What keeps the events in step: the table is well kept, and a handler whose entry has the
peer information has sent its handshake. -/
structure Kept (x : PeerEvents) : Prop extends Bracketed x where
  wellKept : WellKept x.controller.connections x.controller.launched
  shaken : ∀ remoteAddress p, x.controller.connections.get? remoteAddress = some p →
    p.peerInfo.isSome = true → p.handlerRef ∈ x.shaken

theorem HasEntry.put {m : Connections} {handler : ℕ} (h : HasEntry m handler)
    {a : InetSocketAddress} {p q : NetworkController.ConnectedPeer} (hp : m.get? a = some p)
    (hsame : q.handlerRef = p.handlerRef) : HasEntry (m.put a q) handler := by
  obtain ⟨a', p', hp', rfl⟩ := h
  by_cases heq : a' = a
  · obtain rfl := Option.some.inj ((heq ▸ hp').symm.trans hp)
    exact ⟨a, q, by rw [LinkedMap.get?_put, if_pos rfl], hsame⟩
  · exact ⟨a', p', by rw [LinkedMap.get?_put, if_neg heq, hp'], rfl⟩

theorem HasEntry.remove {m : Connections} {handler : ℕ} (h : HasEntry m handler)
    {a : InetSocketAddress} {p : NetworkController.ConnectedPeer} (hp : m.get? a = some p)
    (hother : p.handlerRef ≠ handler) : HasEntry (m.remove a) handler := by
  obtain ⟨a', p', hp', rfl⟩ := h
  refine ⟨a', p', ?_, rfl⟩
  rw [LinkedMap.get?_remove, if_neg ?_]
  · exact hp'
  · rintro rfl
    exact hother (congrArg NetworkController.ConnectedPeer.handlerRef
      (Option.some.inj (hp.symm.trans hp')))

section OneMessage

variable {i : Input} {m : Connections} {events : List (InetSocketAddress × PeerEvent)}
  {created closed : List ℕ}

/-- The events stay in step with the table. -/
theorem Kept.events_of_effect (h : Kept x)
    (heffect : Effect x.controller i m events created closed) (honce : ShakesOnce x i)
    (hfree : TakesFreePlace x i) (a : InetSocketAddress) :
    (x.lastEvents.putAll events).get? a = some .handshakedPeer ↔
      ∃ p, m.get? a = some p ∧ p.peerInfo.isSome = true := by
  have hold := h.events a
  cases heffect with
  | kept => exact hold
  | touched now hp =>
    rename_i remoteAddress p
    refine hold.trans ?_
    rw [LinkedMap.get?_put]
    split
    · rename_i heq
      rw [heq, hp]
      simp
    · rfl
  | created p hhandler hinfo hplace =>
    refine hold.trans ?_
    rw [LinkedMap.get?_put]
    split
    · -- no entry with the peer information was there
      rename_i heq
      have hnone : ∀ q, x.controller.connections.get? p.connectionId.remoteAddress = some q →
          q.peerInfo = none := by
        intro q hq
        obtain ⟨handlerRef, now, rfl⟩ | hnew := hplace
        · exact (hfree q hq).1
        · rw [hnew] at hq
          cases hq
      rw [heq]
      constructor
      · rintro ⟨q, hq, hsome⟩
        rw [hnone q hq] at hsome
        cases hsome
      · rintro ⟨q, hq, hsome⟩
        rw [← Option.some.inj hq, hinfo] at hsome
        cases hsome
    · rfl
  | handshaked hi hp =>
    rename_i peerInfo p
    show (x.lastEvents.put p.connectionId.remoteAddress .handshakedPeer).get? a = _ ↔ _
    rw [LinkedMap.get?_put, LinkedMap.get?_put]
    split
    · simp
    · exact hold
  | dropped hi hp =>
    rename_i peerInfo p
    refine hold.trans ?_
    rw [LinkedMap.get?_remove]
    split
    · -- the handler has sent no handshake before
      rename_i heq
      subst hi
      rw [heq]
      constructor
      · rintro ⟨q, hq, hsome⟩
        obtain rfl := Option.some.inj (hp.symm.trans hq)
        exact absurd (h.shaken _ _ hp hsome) honce
      · rintro ⟨q, hq, -⟩
        cases hq
    · rfl
  | disconnected closed hp hgone =>
    rename_i remoteAddress p
    show (x.lastEvents.put remoteAddress .disconnectedPeer).get? a = _ ↔ _
    rw [LinkedMap.get?_put, LinkedMap.get?_remove]
    split
    · simp
    · exact hold

/-- Handlers that stay alive keep an entry. -/
theorem Kept.handlers_of_effect (h : Kept x)
    (heffect : Effect x.controller i m events created closed) (hfree : TakesFreePlace x i)
    {handler : ℕ} (hlive : handler ∈ x.live ∨ handler ∈ created) (hclosed : handler ∉ closed)
    (hterminated : handler ∉ terminatedBy i) : HasEntry m handler := by
  cases heffect with
  | kept => exact h.handlers handler (hlive.resolve_right List.not_mem_nil)
  | touched now hp => exact (h.handlers handler (hlive.resolve_right List.not_mem_nil)).put hp rfl
  | created p hhandler hinfo hplace =>
    obtain hlive | hnew := hlive
    · obtain ⟨a, q, hq, rfl⟩ := h.handlers handler hlive
      refine ⟨a, q, ?_, rfl⟩
      rw [LinkedMap.get?_put, if_neg ?_]
      · exact hq
      · rintro rfl
        obtain ⟨handlerRef, now, rfl⟩ | hfresh := hplace
        · exact (hfree q hq).2 hlive
        · rw [hfresh] at hq
          cases hq
    · rw [List.mem_singleton.1 hnew]
      exact ⟨p.connectionId.remoteAddress, p, by rw [LinkedMap.get?_put, if_pos rfl], hhandler⟩
  | handshaked hi hp => exact (h.handlers handler (hlive.resolve_right List.not_mem_nil)).put hp rfl
  | dropped hi hp =>
    refine (h.handlers handler (hlive.resolve_right List.not_mem_nil)).remove hp ?_
    rintro rfl
    exact hclosed (List.mem_singleton_self _)
  | disconnected closed hp hgone =>
    refine (h.handlers handler (hlive.resolve_right List.not_mem_nil)).remove hp ?_
    rintro rfl
    obtain hgone | rfl := hgone
    · exact hclosed hgone
    · exact hterminated (Finset.mem_singleton_self _)

/-- A handler whose entry has the peer information has sent its handshake. -/
theorem Kept.shaken_of_effect (h : Kept x)
    (heffect : Effect x.controller i m events created closed) {a : InetSocketAddress}
    {q : NetworkController.ConnectedPeer} (hq : m.get? a = some q)
    (hinfo : q.peerInfo.isSome = true) : q.handlerRef ∈ x.shaken ∪ shakenBy i := by
  cases heffect with
  | kept => exact Finset.mem_union_left _ (h.shaken a q hq hinfo)
  | touched now hp =>
    rename_i remoteAddress p
    rw [LinkedMap.get?_put] at hq
    split at hq
    · obtain rfl := Option.some.inj hq
      exact Finset.mem_union_left _ (h.shaken remoteAddress p hp hinfo)
    · exact Finset.mem_union_left _ (h.shaken a q hq hinfo)
  | created p hhandler hnone hplace =>
    rw [LinkedMap.get?_put] at hq
    split at hq
    · rw [← Option.some.inj hq, hnone] at hinfo
      cases hinfo
    · exact Finset.mem_union_left _ (h.shaken a q hq hinfo)
  | handshaked hi hp =>
    rw [LinkedMap.get?_put] at hq
    split at hq
    · obtain rfl := Option.some.inj hq
      subst hi
      exact Finset.mem_union_right _ (Finset.mem_singleton_self _)
    · exact Finset.mem_union_left _ (h.shaken a q hq hinfo)
  | dropped hi hp =>
    rw [LinkedMap.get?_remove] at hq
    split at hq
    · cases hq
    · exact Finset.mem_union_left _ (h.shaken a q hq hinfo)
  | disconnected closed hp hgone =>
    rw [LinkedMap.get?_remove] at hq
    split at hq
    · cases hq
    · exact Finset.mem_union_left _ (h.shaken a q hq hinfo)

end OneMessage

theorem mem_live_step {i : Input} {handler : ℕ} : handler ∈ (x.step s i).live ↔
    (handler ∈ x.live ∨ handler ∈ createdOf (x.controller.receive s i).2) ∧
      handler ∉ closedOf (x.controller.receive s i).2 ∧ handler ∉ terminatedBy i := by
  simp [step, and_assoc]

theorem Kept.step (h : Kept x) {i : Input} (honce : ShakesOnce x i) (hfree : TakesFreePlace x i) :
    Kept (x.step s i) := by
  have heffect := receive_effect s x.controller h.wellKept i
  refine ⟨⟨h.events_of_effect heffect honce hfree, fun handler hlive => ?_⟩,
    h.wellKept.step (receive_table s x.controller i),
    fun a q hq hinfo => h.shaken_of_effect heffect hq hinfo⟩
  obtain ⟨hlive, hclosed, hterminated⟩ := mem_live_step.1 hlive
  exact h.handlers_of_effect heffect hfree hlive hclosed hterminated

/-- A confirmed connection that takes the place of another breaks the bracket. -/
theorem Kept.takesFreePlace (h : Kept x) {i : Input} (hafter : Bracketed (x.step s i)) :
    TakesFreePlace x i := by
  cases i with
  | connectionConfirmed connectionId handlerRef now =>
    intro p hp
    have hmem := LinkedMap.mem_entries_of_get? hp
    have htable : ∀ a,
        (x.step s (.connectionConfirmed connectionId handlerRef now)).controller.connections.get? a
          = if a = connectionId.remoteAddress then
              some ⟨connectionId, x.controller.launched, now, none⟩
            else x.controller.connections.get? a := fun a => LinkedMap.get?_put _ _ _ a
    constructor
    · -- the last event of the address would be `HandshakedPeer`
      by_contra hinfo
      have hshaken := (h.events connectionId.remoteAddress).2
        ⟨p, hp, Option.isSome_iff_ne_none.2 hinfo⟩
      obtain ⟨q, hq, hsome⟩ := (hafter.events connectionId.remoteAddress).1 hshaken
      rw [htable, if_pos rfl] at hq
      rw [← Option.some.inj hq] at hsome
      cases hsome
    · -- the handler would be without an entry
      intro hlive
      obtain ⟨a, q, hq, hhandler⟩ := hafter.handlers p.handlerRef
        (mem_live_step.2 ⟨.inl hlive, List.not_mem_nil, Finset.notMem_empty _⟩)
      rw [htable] at hq
      split at hq
      · rw [← Option.some.inj hq] at hhandler
        exact absurd hhandler (Nat.ne_of_gt (h.wellKept.started _ hmem))
      · rename_i hne
        exact hne (h.wellKept.apart _ (LinkedMap.mem_entries_of_get? hq) _ hmem hhandler)
  | _ => trivial

theorem Kept.initial : Kept initial where
  events a := ⟨fun h => (by cases h), fun ⟨_, hp, _⟩ => (by cases hp)⟩
  handlers handler h := by cases h
  wellKept := wellKept_initial
  shaken a p hp := by cases hp

/-- **Events bracket connections** in all states of exactly those runs in which no confirmed
connection takes the place of one that is handshaked or alive. -/
theorem bracketed_iff (s : NetworkControllerSettings) (inputs : List Input)
    (honce : Along (step s) ShakesOnce initial inputs) :
    (∀ pre, pre <+: inputs → Bracketed (pre.foldl (step s) initial)) ↔
      Along (step s) TakesFreePlace initial inputs :=
  along_iff_of_env (I := Kept) (P := Bracketed) (fun _ _ h honce hfree => h.step honce hfree)
    (fun _ h => h.toBracketed) (fun _ _ h _ hafter => h.takesFreePlace hafter) .initial honce

/-! ### One connection, and two from one address -/

open Controlling

/-- A connection is opened, shakes hands and terminates. -/
theorem one_connection : Bracketed ([.connected (host 1) (host 2) 5 0,
    .connectionConfirmed ⟨host 1, host 2, .incoming⟩ 5 0,
    .handshaked (peer none [] (some .incoming)) 0, .terminated 0].foldl
      (step (plainSettings 5 5 5)) initial) := by
  refine (bracketed_iff (plainSettings 5 5 5) _ ?_).2 ?_ _ List.prefix_rfl
  · exact ⟨trivial, trivial, Finset.notMem_empty _, trivial, trivial⟩
  · exact ⟨trivial, fun p hp => (by cases hp), trivial, trivial, trivial⟩

/-- Two connections from one address are confirmed; the second one takes the place of the
first, which has shaken hands. -/
theorem place_taken :
    ¬∀ (s : NetworkControllerSettings) (inputs : List Input),
      Along (step s) ShakesOnce initial inputs → Bracketed (inputs.foldl (step s) initial) := by
  intro h
  have hbracketed := h (plainSettings 5 5 5)
    [.connected (host 1) (host 2) 5 0, .connected (host 1) (host 2) 6 0,
      .connectionConfirmed ⟨host 1, host 2, .incoming⟩ 5 0,
      .handshaked (peer none [] (some .incoming)) 0,
      .connectionConfirmed ⟨host 1, host 2, .incoming⟩ 6 0]
    ⟨trivial, trivial, trivial, Finset.notMem_empty _, trivial, trivial⟩
  obtain ⟨p, hp, hinfo⟩ := (hbracketed.events (host 1)).1 (by decide)
  obtain rfl := Option.some.inj hp
  cases hinfo

end PeerEvents

end Sparkz.Network
