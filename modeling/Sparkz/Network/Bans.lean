import Sparkz.Network.ConnectionTable
import Sparkz.Network.PeerManager

/-!
# Bans across two actors

The network controller and the peer manager with the messages that are under way between
them: the controller asks before it takes an incoming connection, and passes penalties on;
the manager bans, and tells the controller to disconnect.  Meanwhile other connections are
made and lost, and confirmations of the banned peer may be on their way.

* `Banning` — the two actors and their mailboxes, `step` — one actor handles one message.
* `Plain`, `Meanwhile` — what the others send.
* `KeptOut` — the invariant after a ban: a confirmation that is under way is followed by
  the order to disconnect.
* `banned_kept_out` — the banned peer has no incoming connection once the order is read,
  and is not in the database, for as long as the ban lasts.

The manager does not ask about connections that the node has dialled itself.
-/

namespace Sparkz.Network

open Sparkz.Lib

/-- The answer as the controller receives it. -/
def PeerManager.Output.toInput (now : ℤ) : PeerManager.Output → NetworkController.Input
  | .connectionConfirmed connectionId handlerRef => .connectionConfirmed connectionId handlerRef now
  | .connectionDenied connectionId handlerRef => .connectionDenied connectionId handlerRef
  | .disconnectFromAddress address => .disconnectFromAddress address

/-- The two actors, and what they have not read from each other, oldest first. -/
structure Banning where
  controller : NetworkController
  database : InMemoryPeerDatabase
  toManager : List PeerManager.Input
  toController : List PeerManager.Output

namespace Banning

/-- What happens next: an actor reads the next message of the other one, or a message of
somebody else. -/
inductive Event where
  | controllerReads (now : ℤ)
  | managerReads (now : ℤ)
  | controllerHears (i : NetworkController.Input)
  | managerHears (i : PeerManager.Input) (now : ℤ)

/-- The host string of an address that was received from a peer: it is the text of the IP
address. -/
def receivedHostString (peerSpec : PeerSpec) : List Char :=
  (peerSpec.address.map fun a => hostAddress a.address).getD []

/-- The messages for the manager among those that the controller sends. -/
def managerMessages (sent : List NetworkController.Output) : List PeerManager.Input :=
  sent.filterMap fun
    | .confirmConnection connectionId handlerRef =>
        some (.confirmConnection connectionId handlerRef)
    | .removePeer address => some (.removePeer address)
    | .updatePeer peerInfo => some (.updatePeer peerInfo (receivedHostString peerInfo.peerSpec))
    | .penalize address penaltyType => some (.penalize address (.ofType penaltyType))
    | _ => none

variable (s : PeerManagerSettings)

/-- Before the first message. -/
def start : Banning := ⟨.initial, .empty, [], []⟩

/-- The controller handles a message. -/
def controllerHandles (x : Banning) (i : NetworkController.Input) : Banning :=
  let (controller, sent) := x.controller.receive s.network i
  { x with controller := controller, toManager := x.toManager ++ managerMessages sent }

/-- One message. -/
def step (x : Banning) : Event → Banning
  | .controllerReads now =>
      match x.toController with
      | [] => x
      | answer :: rest => { x with toController := rest }.controllerHandles s (answer.toInput now)
  | .managerReads now =>
      match x.toManager with
      | [] => x
      | message :: rest =>
          let (database, answers) := PeerManager.receive s x.database now message
          { x with
            database := database
            toManager := rest
            toController := x.toController ++ answers }
  | .controllerHears i => x.controllerHandles s i
  | .managerHears i now => { x with database := (PeerManager.receive s x.database now i).1 }

end Banning

/-- Only the peer manager answers about connections. -/
def NetworkController.Input.IsAnswer : NetworkController.Input → Prop
  | .connectionConfirmed _ _ _ => True
  | .connectionDenied _ _ => True
  | _ => False

namespace Banning

/-- The messages of everybody else. -/
def Plain (_ : Banning) : Event → Prop
  | .controllerHears i => ¬i.IsAnswer
  | _ => True

/-- The messages while a ban lasts: it is not over, and is not lifted. -/
def Meanwhile (a : InetSocketAddress) (till : ℤ) (_ : Banning) : Event → Prop
  | .controllerReads _ => True
  | .managerReads now => now < till
  | .controllerHears i => ¬i.IsAnswer
  | .managerHears i now => now < till ∧ ¬i.Lifts a.address

/-! ## The table of connections -/

/-- The answer lets the peer in. -/
def Confirms (a : InetSocketAddress) : PeerManager.Output → Prop
  | .connectionConfirmed connectionId _ => connectionId.remoteAddress = a
  | _ => False

/-- The peer has no connection that it has opened. -/
def NoIncoming (a : InetSocketAddress) (m : NetworkController.Connections) : Prop :=
  ∀ e ∈ m.entries, e.2.connectionId.remoteAddress = a → e.2.connectionId.direction = .outgoing

variable {s : PeerManagerSettings} {a : InetSocketAddress} {till : ℤ} {x y : Banning}

/-- A connection gets in with a confirmation only. -/
theorem NoIncoming.receive {n : NetworkController} (h : NoIncoming a n.connections)
    {i : NetworkController.Input}
    (hi : ∀ id handlerRef now, i = .connectionConfirmed id handlerRef now → id.remoteAddress ≠ a) :
    NoIncoming a (n.receive s.network i).1.connections := by
  have htable := NetworkController.receive_table s.network n i
  generalize (n.receive s.network i).1.connections = m at htable ⊢
  generalize (n.receive s.network i).1.launched = launched at htable
  cases htable with
  | kept => exact h
  | filtered _ keep => exact fun e he => h e (List.mem_of_mem_filter he)
  | touched _ now hp =>
    intro e he
    obtain rfl | ⟨-, he⟩ := LinkedMap.mem_entries_put.1 he
    · have hold := h _ (LinkedMap.mem_entries_of_get? hp)
      exact hold
    · exact h e he
  | dialled localAddress sender now hnew =>
    intro e he
    obtain rfl | ⟨-, he⟩ := LinkedMap.mem_entries_put.1 he
    · exact fun _ => rfl
    · exact h e he
  | confirmed connectionId handlerRef now =>
    intro e he
    obtain rfl | ⟨-, he⟩ := LinkedMap.mem_entries_put.1 he
    · exact fun heq => absurd heq (hi _ _ _ rfl)
    · exact h e he
  | handshaked hp hpeer hlimit =>
    intro e he
    obtain rfl | ⟨-, he⟩ := LinkedMap.mem_entries_put.1 he
    · obtain ⟨-, k, hk⟩ := NetworkController.of_connectionForHandler hp
      have hold := h _ hk
      exact hold
    · exact h e he

theorem noIncoming_closeConnection (n : NetworkController) :
    NoIncoming a (n.closeConnection s.network a).1.connections := by
  intro e he heq
  obtain ⟨-, hkeep⟩ := List.mem_filter.1 he
  simp [heq] at hkeep

/-! ## The manager -/

/-- A peer whose ban is noted is not let in. -/
theorem not_confirms_receive {d : InMemoryPeerDatabase} {now : ℤ}
    (hnoted : d.blacklist.get? a.address = some till) (hnow : now < till) (i : PeerManager.Input) :
    ∀ m ∈ (PeerManager.receive s d now i).2, ¬Confirms a m := by
  cases i with
  | confirmConnection connectionId handlerRef =>
    have hblacklisted := (InMemoryPeerDatabase.noted_isBlacklisted hnoted hnow
      connectionId.remoteAddress).2
    intro m hm
    have hm : m = if (d.isBlacklisted connectionId.remoteAddress now).1
        then .connectionDenied connectionId handlerRef
        else .connectionConfirmed connectionId handlerRef := List.mem_singleton.1 hm
    rw [hm]
    by_cases heq : connectionId.remoteAddress = a
    · rw [hblacklisted (by rw [heq])]
      exact fun hconfirms => hconfirms
    · split
      · exact fun hconfirms => hconfirms
      · exact heq
  | addOrUpdatePeer peerInfo hostString =>
    simp only [PeerManager.receive]
    split <;> simp
  | updatePeer peerInfo hostString =>
    simp only [PeerManager.receive]
    split <;> simp
  | penalize peer penalty => simp [PeerManager.receive, Confirms]
  | addPeersIfEmpty peersSpec =>
    simp only [PeerManager.receive]
    split <;> simp
  | _ => simp [PeerManager.receive]

/-- The controller never asks to lift a ban. -/
theorem not_lifts_managerMessages (ip : List UInt8) (sent : List NetworkController.Output) :
    ∀ m ∈ managerMessages sent, ¬m.Lifts ip := by
  intro m hm
  obtain ⟨output, -, houtput⟩ := List.mem_filterMap.1 hm
  cases output <;> simp at houtput <;> subst houtput <;> exact fun hlifts => hlifts

/-- No message for the manager lifts a ban. -/
def Keeping (x : Banning) : Prop := ∀ a, ∀ m ∈ x.toManager, ¬PeerManager.Input.Lifts a m

theorem Keeping.controllerHandles (h : Keeping x) (i : NetworkController.Input) :
    Keeping (x.controllerHandles s i) := by
  intro ip m hm
  rcases List.mem_append.1 hm with hm | hm
  · exact h ip m hm
  · exact not_lifts_managerMessages ip _ m hm

theorem Keeping.step (h : Keeping x) (e : Event) : Keeping (x.step s e) := by
  cases e with
  | controllerReads now =>
    simp only [Banning.step]
    split
    · exact h
    · exact Keeping.controllerHandles (x := { x with toController := _ }) h _
  | managerReads now =>
    simp only [Banning.step]
    split
    · exact h
    · rename_i message rest hread
      intro ip m hm
      exact h ip m (hread ▸ List.mem_cons_of_mem _ hm)
  | controllerHears i => exact h.controllerHandles i
  | managerHears i now => exact h

/-! ## After a ban -/

/-- A confirmation that is under way is followed by the order to disconnect; without the
order there is none, and no connection either. -/
def Leaving (a : InetSocketAddress) (toController : List PeerManager.Output)
    (m : NetworkController.Connections) : Prop :=
  (∃ pre post, toController = pre ++ .disconnectFromAddress a :: post ∧
    ∀ answer ∈ post, ¬Confirms a answer) ∨
  (∀ answer ∈ toController, ¬Confirms a answer) ∧ NoIncoming a m

/-- Answers that do not let the peer in come last. -/
theorem Leaving.append {toController answers : List PeerManager.Output}
    {m : NetworkController.Connections} (h : Leaving a toController m)
    (hanswers : ∀ answer ∈ answers, ¬Confirms a answer) :
    Leaving a (toController ++ answers) m := by
  rcases h with ⟨pre, post, rfl, hpost⟩ | ⟨hnone, hout⟩
  · refine .inl ⟨pre, post ++ answers, by simp, fun answer hmem => ?_⟩
    exact (List.mem_append.1 hmem).elim (hpost answer) (hanswers answer)
  · refine .inr ⟨fun answer hmem => ?_, hout⟩
    exact (List.mem_append.1 hmem).elim (hnone answer) (hanswers answer)

/-- **The invariant** after a ban. -/
structure KeptOut (wasAbsent : Prop) (a : InetSocketAddress) (till : ℤ) (x : Banning) : Prop where
  barred : InMemoryPeerDatabase.Barred wasAbsent a till x.database
  keeping : Keeping x
  leaving : Leaving a x.toController x.controller.connections

/-- The controller reads the next answer. -/
theorem Leaving.read {n : NetworkController} {answer : PeerManager.Output}
    {rest : List PeerManager.Output} (h : Leaving a (answer :: rest) n.connections) (now : ℤ) :
    Leaving a rest (n.receive s.network (answer.toInput now)).1.connections := by
  rcases h with ⟨pre, post, hsplit, hpost⟩ | ⟨hnone, hout⟩
  · cases pre with
    | nil =>
      obtain ⟨rfl, rfl⟩ := List.cons.inj hsplit
      exact .inr ⟨hpost, noIncoming_closeConnection n⟩
    | cons first pre =>
      obtain ⟨-, rfl⟩ := List.cons.inj hsplit
      exact .inl ⟨pre, post, rfl, hpost⟩
  · refine .inr ⟨fun answer' hmem => hnone answer' (List.mem_cons_of_mem _ hmem), hout.receive ?_⟩
    intro id handlerRef now' hinput heq
    have hother := hnone answer (by simp)
    cases answer with
    | connectionConfirmed connectionId handlerRef' =>
      obtain ⟨rfl, -, -⟩ := NetworkController.Input.connectionConfirmed.inj hinput
      exact hother heq
    | connectionDenied connectionId handlerRef' => cases hinput
    | disconnectFromAddress address => cases hinput

/-- A message that is no answer leaves a peer that is kept out where it is. -/
theorem Leaving.hears {n : NetworkController} {toController : List PeerManager.Output}
    (h : Leaving a toController n.connections) {i : NetworkController.Input} (hi : ¬i.IsAnswer) :
    Leaving a toController (n.receive s.network i).1.connections := by
  rcases h with hleaving | ⟨hnone, hout⟩
  · exact .inl hleaving
  · refine .inr ⟨hnone, hout.receive ?_⟩
    rintro id handlerRef now rfl
    exact absurd trivial hi

/-- **One message** keeps the banned peer out. -/
theorem KeptOut.step {wasAbsent : Prop} (h : KeptOut wasAbsent a till x) {e : Event}
    (he : Meanwhile a till x e) :
    KeptOut wasAbsent a till (x.step s e) := by
  have hkeeping := h.keeping.step (s := s) e
  cases e with
  | controllerReads now =>
    simp only [Banning.step] at hkeeping ⊢
    split at hkeeping
    · exact h
    · rename_i answer rest hread
      have hleaving := h.leaving
      rw [hread] at hleaving
      exact ⟨h.barred, hkeeping, hleaving.read now⟩
  | managerReads now =>
    simp only [Banning.step] at hkeeping ⊢
    split at hkeeping
    · exact h
    · rename_i message rest hread
      exact ⟨PeerManager.barred_receive h.barred he
        (h.keeping _ message (hread ▸ List.mem_cons_self)), hkeeping,
        h.leaving.append (not_confirms_receive h.barred.noted he message)⟩
  | controllerHears i => exact ⟨h.barred, hkeeping, h.leaving.hears he⟩
  | managerHears i now =>
    exact ⟨PeerManager.barred_receive h.barred he.1 he.2, hkeeping, h.leaving⟩

theorem keeping_run (hrun : Reaches (step s) Plain start x) : Keeping x :=
  hrun.invariant (fun _ e h _ => h.step e) fun _ m hm => by cases hm

/-- The manager bans: the order to disconnect is the last answer under way. -/
theorem keptOut_ban (hkeeping : Keeping x) {penalty : Penalty} {rest : List PeerManager.Input}
    {now : ℤ} (hmessage : x.toManager = .penalize a penalty :: rest)
    (hban : (x.database.penalize s.toPenaltySettings a penalty now).1 = some a)
    (hnoted : (x.step s (.managerReads now)).database.blacklist.get? a.address = some till) :
    KeptOut (InMemoryPeerDatabase.Absent a (x.step s (.managerReads now)).database.bucketManager)
      a till (x.step s (.managerReads now)) := by
  refine ⟨⟨hnoted, fun habsent => habsent⟩, hkeeping.step _, .inl ⟨x.toController, [], ?_, by simp⟩⟩
  simp only [Banning.step, hmessage, PeerManager.receive, hban]
  rfl

/-- **A banned peer is kept out.**  The manager reads a penalty and bans the peer, until the
noted time.  In every run from there that ends before that time and in which nobody lifts
the ban, in whatever order the two actors get to their messages: as soon as the order to
disconnect is no longer under way, the peer has no connection that it has opened; and if
the ban has taken it out of the buckets, it is in none of them. -/
theorem banned_kept_out (hstart : Reaches (step s) Plain start x) {penalty : Penalty}
    {rest : List PeerManager.Input} {now : ℤ}
    (hmessage : x.toManager = .penalize a penalty :: rest)
    (hban : (x.database.penalize s.toPenaltySettings a penalty now).1 = some a)
    (hnoted : (x.step s (.managerReads now)).database.blacklist.get? a.address = some till)
    (hrun : Reaches (step s) (Meanwhile a till) (x.step s (.managerReads now)) y) :
    (.disconnectFromAddress a ∉ y.toController → NoIncoming a y.controller.connections) ∧
    (InMemoryPeerDatabase.Absent a (x.step s (.managerReads now)).database.bucketManager →
      InMemoryPeerDatabase.Absent a y.database.bucketManager) := by
  have hkept := hrun.invariant (fun _ _ h he => h.step he)
    (keptOut_ban (keeping_run hstart) hmessage hban hnoted)
  refine ⟨fun hread => ?_, hkept.barred.absent⟩
  rcases hkept.leaving with ⟨pre, post, hsplit, -⟩ | ⟨-, hout⟩
  · rw [hsplit] at hread
    simp at hread
  · exact hout

/-- A node with room for one connection of each kind. -/
def oneRoomSettings : PeerManagerSettings :=
  ⟨InMemoryPeerDatabase.referenceSettings, Controlling.plainSettings 1 1 1⟩

/-- A peer connects, is confirmed, and is reported before the controller knows. -/
def reported : Banning :=
  [.controllerHears (.connected (Controlling.host 1) (Controlling.host 0) 0 0), .managerReads 0,
    .controllerHears (.penalizePeer (Controlling.host 1) .permanentPenalty)].foldl
    (step oneRoomSettings) start

/-- The peer gets its connection and loses it again. -/
def disconnected : Banning :=
  [.controllerReads 1, .controllerReads 2].foldl (step oneRoomSettings)
    (reported.step oneRoomSettings (.managerReads 0))

theorem banned_kept_out_reported :
    (reported.step oneRoomSettings (.managerReads 0)).toController
      = [.connectionConfirmed ⟨Controlling.host 1, Controlling.host 0, .incoming⟩ 0,
        .disconnectFromAddress (Controlling.host 1)] ∧
    NoIncoming (Controlling.host 1) disconnected.controller.connections ∧
    InMemoryPeerDatabase.Absent (Controlling.host 1) disconnected.database.bucketManager := by
  have hstart : Reaches (step oneRoomSettings) Plain start reported :=
    Reaches.foldl _ (by simp [Plain, NetworkController.Input.IsAnswer])
  have hrun : Reaches (step oneRoomSettings) (Meanwhile (Controlling.host 1) 311040000000)
      (reported.step oneRoomSettings (.managerReads 0)) disconnected :=
    Reaches.foldl _ (by simp [Meanwhile])
  have hnoted : (reported.step oneRoomSettings (.managerReads 0)).database.blacklist.get?
      (Controlling.host 1).address = some 311040000000 := rfl
  obtain ⟨hout, habsent⟩ := banned_kept_out hstart rfl rfl hnoted hrun
  refine ⟨rfl, hout ?_, habsent ⟨?_, ?_⟩⟩
  · have hread : disconnected.toController = [] := rfl
    rw [hread]
    simp
  · intro hin
    rcases hin with hcontains | hmem
    · cases hcontains
    · cases hmem
  · intro hin
    rcases hin with hcontains | hmem
    · cases hcontains
    · cases hmem

end Banning

end Sparkz.Network
