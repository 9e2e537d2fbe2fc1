import Sparkz.Network.ConnectionTable

/-!
# Limits on connections

* `LimitsKept` — the table is not larger than `maxConnections`, with no more incoming
  connections than `maxIncomingConnections`.
* `limits_kept` — this holds as long as there still is room when a confirmation comes
  back: the room is looked for when the connection opens, and not again.
* `HandshakedLimits` — the limits on the connections that have shaken hands.
* `handshaked_limits` — they hold as long as a forger finds room: the controller counts
  the forgers without the one that is shaking hands, and drops it only when they are
  already too many.
-/

namespace Sparkz.Network

open Sparkz.Lib

namespace NetworkController

variable {s : NetworkControllerSettings} {n : NetworkController} {i : Input} {m : Connections}
  {launched : ℕ}

/-! ## All connections -/

/-- The table is within the limits on all and on incoming connections. -/
structure LimitsKept (s : NetworkControllerSettings) (m : Connections) : Prop where
  size : (m.size : ℤ) ≤ s.maxConnections
  incoming : (m.countV (ConnectedPeer.hasDirection .incoming) : ℤ) ≤ s.maxIncomingConnections

/-- There is room for a connection beside those with other remote addresses. -/
def hasRoomBeside (s : NetworkControllerSettings) (n : NetworkController)
    (remoteAddress : InetSocketAddress) : Bool :=
  (n.connections.remove remoteAddress).size < s.maxConnections
    && (n.connections.remove remoteAddress).countV (ConnectedPeer.hasDirection .incoming)
      < s.maxIncomingConnections

/-- An entry is replaced by one of the same direction. -/
theorem LimitsKept.replace (h : LimitsKept s m) {k : InetSocketAddress} {p q : ConnectedPeer}
    (hp : m.get? k = some p) (hid : q.connectionId = p.connectionId) :
    LimitsKept s (m.put k q) where
  size := by
    rw [LinkedMap.size_put_same hp]
    exact h.size
  incoming := by
    rw [LinkedMap.countV_put_same hp]
    · exact h.incoming
    · rw [ConnectedPeer.hasDirection, ConnectedPeer.hasDirection, hid]

theorem LimitsKept.step (hstep : TableStep s n i m launched)
    (hwell : WellKept n.connections n.launched) (h : LimitsKept s n.connections)
    (hroom : ∀ connectionId handlerRef now, i = .connectionConfirmed connectionId handlerRef now →
      n.hasRoomBeside s connectionId.remoteAddress = true) : LimitsKept s m := by
  cases hstep with
  | kept => exact h
  | filtered _ keep =>
    refine ⟨le_trans ?_ h.size, le_trans ?_ h.incoming⟩
    · exact_mod_cast List.length_filter_le _ _
    · exact_mod_cast n.connections.countV_filter_le keep _
  | touched _ now hp => exact h.replace hp rfl
  | @dialled remoteAddress localAddress sender now hnew =>
    rw [isNewConnectionAndStillHaveRoom, Bool.and_eq_true, decide_eq_true_iff] at hnew
    constructor
    · have hle := n.connections.size_remove_le remoteAddress
      rw [LinkedMap.size_put]
      push_cast
      omega
    · rw [LinkedMap.countV_put, if_neg (by simp [ConnectedPeer.hasDirection])]
      have hle := n.connections.countV_remove_le remoteAddress
        (ConnectedPeer.hasDirection .incoming)
      have := h.incoming
      omega
  | confirmed connectionId handlerRef now =>
    have hbeside := hroom _ _ _ rfl
    rw [hasRoomBeside, Bool.and_eq_true, decide_eq_true_iff, decide_eq_true_iff] at hbeside
    obtain ⟨hsize, hincoming⟩ := hbeside
    constructor
    · rw [LinkedMap.size_put]
      push_cast
      omega
    · rw [LinkedMap.countV_put]
      split <;> omega
  | handshaked hp _ _ =>
    exact h.replace (LinkedMap.get?_of_mem_entries (hwell.entry hp)) rfl

/-! ## Connections that have shaken hands -/

/-- The connection has the given direction, and its peer has shaken hands without
telling that it is a forger. -/
def ConnectedPeer.isPlain (direction : ConnectionDirection) (p : ConnectedPeer) : Bool :=
  p.hasDirection direction && p.peerInfo.isSome && !p.isForger

/-- The setting that limits a direction. -/
def maxOf (s : NetworkControllerSettings) : ConnectionDirection → ℤ
  | .incoming => s.maxIncomingConnections
  | .outgoing => s.maxOutgoingConnections

/-- The connections that have shaken hands are within the limits. -/
structure HandshakedLimits (s : NetworkControllerSettings) (m : Connections) : Prop where
  forger : (m.countV ConnectedPeer.isForger : ℤ) ≤ s.maxForgerConnections
  plain : ∀ d, (m.countV (ConnectedPeer.isPlain d) : ℤ) ≤ maxOf s d

theorem isPlain_hasDirection {d : ConnectionDirection} {p : ConnectedPeer}
    (h : p.isPlain d = true) : p.hasDirection d = true := by
  rw [ConnectedPeer.isPlain, Bool.and_eq_true, Bool.and_eq_true] at h
  exact h.1.1

/-- Entries that are not counted come in, or entries leave. -/
theorem HandshakedLimits.create (h : HandshakedLimits s m) {k : InetSocketAddress}
    {p : ConnectedPeer} (hp : p.peerInfo = none) : HandshakedLimits s (m.put k p) where
  forger := by
    have hle := m.countV_remove_le k ConnectedPeer.isForger
    have := h.forger
    rw [LinkedMap.countV_put, if_neg (by simp [ConnectedPeer.isForger, hp])]
    omega
  plain d := by
    have hle := m.countV_remove_le k (ConnectedPeer.isPlain d)
    have := h.plain d
    rw [LinkedMap.countV_put, if_neg (by simp [ConnectedPeer.isPlain, hp])]
    omega

/-- A handshake without the forger feature that found room among the connections of its
direction. -/
theorem not_exhausted {peerInfo : PeerInfo} {d : ConnectionDirection}
    (h : n.isConnectionLimitExhausted s peerInfo false = false)
    (hd : peerInfo.connectionType = some d) :
    (n.connections.countV (ConnectedPeer.hasDirection d) : ℤ) ≤ maxOf s d := by
  rw [isConnectionLimitExhausted, hd] at h
  cases d with
  | incoming =>
    simpa [shouldDropIncomingConnection, getIncomingConnectionsSize, maxOf] using h
  | outgoing =>
    simpa [shouldDropOutgoingConnection, getOutgoingConnectionsSize, maxOf] using h

/-- The handshake of the entry `p` is accepted. -/
theorem HandshakedLimits.handshaked (h : HandshakedLimits s n.connections) {p : ConnectedPeer}
    {peerInfo : PeerInfo} (hp : n.connections.get? p.connectionId.remoteAddress = some p)
    (hlimit : n.isConnectionLimitExhausted s peerInfo (isForgerConnection s peerInfo) = false)
    (hd : peerInfo.connectionType = some p.connectionId.direction)
    (hforger : peerInfo.peerSpec.features.contains .forgerNode = true →
      ((n.connections.remove p.connectionId.remoteAddress).countV ConnectedPeer.isForger : ℤ)
        < s.maxForgerConnections) :
    HandshakedLimits s
      (n.connections.put p.connectionId.remoteAddress { p with peerInfo := some peerInfo }) := by
  have hisForger : ConnectedPeer.isForger { p with peerInfo := some peerInfo }
      = peerInfo.peerSpec.features.contains .forgerNode := rfl
  by_cases hfeature : peerInfo.peerSpec.features.contains .forgerNode = true
  · constructor
    · have := hforger hfeature
      rw [LinkedMap.countV_put, if_pos (hisForger.trans hfeature)]
      push_cast
      omega
    · intro d
      have hplain : ConnectedPeer.isPlain d { p with peerInfo := some peerInfo } = false := by
        rw [ConnectedPeer.isPlain, hisForger, hfeature]
        simp
      have hle := n.connections.countV_remove_le p.connectionId.remoteAddress
        (ConnectedPeer.isPlain d)
      have := h.plain d
      rw [LinkedMap.countV_put, if_neg (by simp [hplain])]
      omega
  · have hno : isForgerConnection s peerInfo = false := by
      rw [isForgerConnection, Bool.eq_false_of_not_eq_true hfeature, Bool.false_and]
    rw [hno] at hlimit
    constructor
    · have hle := n.connections.countV_remove_le p.connectionId.remoteAddress
        ConnectedPeer.isForger
      have := h.forger
      rw [LinkedMap.countV_put, if_neg (by rwa [hisForger])]
      omega
    · intro d
      by_cases hsame : p.connectionId.direction = d
      · -- all connections of this direction are within its limit
        have hall := not_exhausted hlimit (hd.trans (congrArg some hsame))
        have hmono := LinkedMap.countV_mono
          (n.connections.put p.connectionId.remoteAddress { p with peerInfo := some peerInfo })
          (fun q => isPlain_hasDirection (d := d) (p := q))
        have hput : (n.connections.put p.connectionId.remoteAddress
            { p with peerInfo := some peerInfo }).countV (ConnectedPeer.hasDirection d)
              = n.connections.countV (ConnectedPeer.hasDirection d) :=
          LinkedMap.countV_put_same hp rfl
        omega
      · have hle := n.connections.countV_remove_le p.connectionId.remoteAddress
          (ConnectedPeer.isPlain d)
        have := h.plain d
        rw [LinkedMap.countV_put, if_neg]
        · omega
        · simp [ConnectedPeer.isPlain, ConnectedPeer.hasDirection, hsame]

/-- The forger that shakes hands finds room among the other forgers, unless it is
dropped anyway. -/
def forgerFits (s : NetworkControllerSettings) (n : NetworkController) : Input → Bool
  | .handshaked peerInfo sender =>
      (n.connectionForHandler s sender).all fun p =>
        n.shouldDropPeer s peerInfo sender p.connectionId.remoteAddress
          || !peerInfo.peerSpec.features.contains .forgerNode
          || (n.connections.remove p.connectionId.remoteAddress).countV ConnectedPeer.isForger
            < s.maxForgerConnections
  | _ => true

theorem HandshakedLimits.step (hstep : TableStep s n i m launched)
    (hwell : WellKept n.connections n.launched) (h : HandshakedLimits s n.connections)
    (hdirection : ∀ peerInfo sender, i = .handshaked peerInfo sender →
      ∀ p ∈ n.connectionForHandler s sender,
        peerInfo.connectionType = some p.connectionId.direction)
    (hfits : n.forgerFits s i = true) : HandshakedLimits s m := by
  cases hstep with
  | kept => exact h
  | filtered _ keep =>
    refine ⟨le_trans ?_ h.forger, fun d => le_trans ?_ (h.plain d)⟩
    · exact_mod_cast n.connections.countV_filter_le keep _
    · exact_mod_cast n.connections.countV_filter_le keep _
  | touched _ now hp =>
    constructor
    · rw [LinkedMap.countV_put_same hp]
      · exact h.forger
      · rfl
    · intro d
      rw [LinkedMap.countV_put_same hp]
      · exact h.plain d
      · rfl
  | dialled localAddress sender now hnew => exact h.create rfl
  | confirmed connectionId handlerRef now => exact h.create rfl
  | handshaked hp hpeer hlimit =>
    refine h.handshaked (LinkedMap.get?_of_mem_entries (hwell.entry hp)) hlimit
      (hdirection _ _ rfl _ hp) ?_
    intro hfeature
    rw [forgerFits, hp, Option.all_some, hpeer, hfeature] at hfits
    simpa using hfits

end NetworkController

/-! ## Runs -/

namespace Controlling

open NetworkController

variable {s : NetworkControllerSettings} {x : Controlling}

/-- There is room when a confirmation comes back. -/
def roomAtConfirmation (s : NetworkControllerSettings) (x : Controlling) : Event → Bool
  | .input (.connectionConfirmed connectionId _ _) =>
      x.controller.hasRoomBeside s connectionId.remoteAddress
  | _ => true

/-- **The limit on connections.**  In every run in which there still is room when a
confirmation comes back, the table of connections is within the limits. -/
theorem limits_kept (hmax : 0 ≤ s.maxConnections) (hincoming : 0 ≤ s.maxIncomingConnections)
    (h : Reaches (step s) (fun x e => (Possible s x e && x.roomAtConfirmation s e) = true)
      initial x) :
    LimitsKept s x.controller.connections := by
  refine (table_invariant (I := LimitsKept s) ⟨hmax, hincoming⟩ ?_ h).2
  intro x e m launched hok hwell hI htable
  refine hI.step htable hwell ?_
  intro connectionId handlerRef now he
  rw [Bool.and_eq_true] at hok
  cases e with
  | dialled => cases he
  | input i =>
    cases he
    exact hok.2

/-- Two peers open connections at the same time, and both are confirmed. -/
def twoIncoming : List Event :=
  [.input (.connected (host 1) (host 9) 1 0), .input (.connected (host 2) (host 9) 2 0),
    .input (.connectionConfirmed ⟨host 1, host 9, .incoming⟩ 1 0),
    .input (.connectionConfirmed ⟨host 2, host 9, .incoming⟩ 2 0)]

theorem limits_kept_oneConfirmed :
    LimitsKept (plainSettings 1 0 0)
      ((twoIncoming.take 3).foldl (step (plainSettings 1 0 0)) initial).controller.connections :=
  limits_kept (by decide) (by decide) (Reaches.of_meets _ (by decide))

/-- With room for one connection, two are accepted. -/
theorem confirmations_exceed_limit :
    ∃ x, Reaches (step (plainSettings 1 0 0))
        (fun x e => Possible (plainSettings 1 0 0) x e = true) initial x
      ∧ (plainSettings 1 0 0).maxConnections < x.controller.connections.size
      ∧ (plainSettings 1 0 0).maxIncomingConnections < x.controller.getIncomingConnectionsSize :=
  ⟨_, Reaches.of_meets twoIncoming (by decide), by decide, by decide⟩

/-- **The limits after the handshake.**  In every run in which the forgers that shake
hands find room among the other forgers, the connections that have shaken hands are
within their limits. -/
theorem handshaked_limits (hforger : 0 ≤ s.maxForgerConnections) (hplain : ∀ d, 0 ≤ maxOf s d)
    (h : Reaches (step s)
      (fun x e => (Possible s x e && x.controller.forgerFits s e.toInput) = true) initial x) :
    HandshakedLimits s x.controller.connections := by
  refine (table_invariant (I := HandshakedLimits s) ⟨hforger, hplain⟩ ?_ h).2
  intro x e m launched hok hwell hI htable
  rw [Bool.and_eq_true] at hok
  refine hI.step htable hwell ?_ hok.2
  intro peerInfo sender he p hp
  cases e with
  | dialled => cases he
  | input i =>
    cases he
    have hpossible := hok.1
    rw [Possible, hp, Option.all_some, beq_iff_eq] at hpossible
    exact hpossible

/-- Two forgers are dialled, connected and shake hands. -/
def twoForgers : List Event :=
  [.input (.connectTo (peer (some (host 1)) [] none)),
    .input (.connectTo (peer (some (host 2)) [] none)),
    .dialled (host 1) (host 9) 1 0, .dialled (host 2) (host 9) 2 0,
    .input (.handshaked (peer (some (host 1)) [.forgerNode] (some .outgoing)) 0),
    .input (.handshaked (peer (some (host 2)) [.forgerNode] (some .outgoing)) 1)]

theorem handshaked_limits_oneForger :
    HandshakedLimits (plainSettings 5 2 1)
      ((twoForgers.take 5).foldl (step (plainSettings 5 2 1)) initial).controller.connections :=
  handshaked_limits (by decide) (fun d => by cases d <;> decide) (Reaches.of_meets _ (by decide))

/-- With room for one forger, two shake hands with a forger node. -/
theorem forgers_exceed_limit :
    (plainSettings 5 2 1).isForgerNode = true
      ∧ ∃ x, Reaches (step (plainSettings 5 2 1))
          (fun x e => Possible (plainSettings 5 2 1) x e = true) initial x
        ∧ (plainSettings 5 2 1).maxForgerConnections < x.controller.getForgerConnectionsSize :=
  ⟨rfl, _, Reaches.of_meets twoForgers (by decide), by decide⟩

end Controlling

end Sparkz.Network
