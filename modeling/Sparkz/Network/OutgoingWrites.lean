import Sparkz.Lib.GuardedRun
import Sparkz.Lib.RetriedWrites
import Sparkz.Network.MessageStream

/-!
# Outgoing writes

A handler in its working cycle and its TCP connection, which was registered with
`useResumeWriting`.

* `Outgoing`, `Move`, `step` — the handler, the connection and the two mailboxes between
  them; the moves come in any order.
* `Simulates`, `simulates_step` — the handler and the connection are a sender and a receiver
  of writes that are retried, until a write is accepted again.
* `Unsent` — no write is on its way that was accepted or is on its way already.
* `accepted_increasing_iff` — the connection accepts the writes in the order of their ids
  exactly if it takes up no write again while it is free.
-/

namespace Sparkz.Network.PeerConnectionHandler

open Sparkz.Lib

/-! ## The handler and its connection -/

/-- Is it a command that concerns writing? -/
def Output.isWriting : Output → Bool
  | .write _ _ => true
  | .resumeWriting => true
  | _ => false

/-- The id that a write is to be acknowledged with. -/
def Output.ackId? : Output → Option ℕ
  | .write _ ack => ack
  | _ => none

/-- The handler, the commands and the events on their way between it and the connection,
and the state of the connection: the accepted write that is not complete, told by its
`Ack` if it has one, whether writing is suspended, and whether the handler waits for
`WritingResumed`.  `accepted` are the ids of all `Ack`s whose writes were accepted. -/
structure Outgoing where
  handler : PeerConnectionHandler
  commands : List Output
  events : List Input
  pending : Option (Option ℕ)
  suspended : Bool
  interested : Bool
  accepted : List ℕ

namespace Outgoing

/-- The working cycle begins.  The write of the handshake, which has no `Ack`, may still
be pending. -/
def start (h : PeerConnectionHandler) (handshakePending : Bool) : Outgoing where
  handler := h
  commands := []
  events := []
  pending := if handshakePending then some none else none
  suspended := false
  interested := false
  accepted := []

/-- What happens next: a message from somewhere else comes to the handler, the handler
takes up an event, the connection takes up a command or completes its write. -/
inductive Move where
  | given (input : Input)
  | deliver
  | process
  | complete

/-- The handler receives a message. -/
def receive (c : ConnectionDescription) (x : Outgoing) (input : Input) : Outgoing :=
  { x with
    handler := (x.handler.receive c input).1
    commands := x.commands ++ (x.handler.receive c input).2.filter Output.isWriting }

/-- The connection takes up a command.  The handler only logs that a write without `Ack`
failed. -/
def process (x : Outgoing) : Outgoing :=
  match x.commands with
  | .write msg ack :: commands =>
      if x.pending.isNone && !x.suspended then
        { x with commands := commands, pending := some ack, accepted := x.accepted ++ ack.toList }
      else
        { x with
          commands := commands, suspended := true
          events := x.events ++ (ack.map (Input.writeFailed msg)).toList }
  | .resumeWriting :: commands =>
      if x.pending.isNone then
        { x with
          commands := commands, suspended := false, events := x.events ++ [.writingResumed] }
      else if x.interested then
        { x with
          commands := commands, suspended := false, events := x.events ++ [.resumeWritingFailed] }
      else { x with commands := commands, suspended := false, interested := true }
  | _ :: commands => { x with commands := commands }
  | [] => x

/-- The connection completes its write. -/
def complete (x : Outgoing) : Outgoing :=
  match x.pending with
  | some ack =>
      { x with
        pending := none
        interested := false
        events := x.events ++ (ack.map Input.ack).toList
          ++ if x.interested then [.writingResumed] else [] }
  | none => x

/-- One move. -/
def step (c : ConnectionDescription) (x : Outgoing) : Move → Outgoing
  | .given input => x.receive c input
  | .deliver =>
      match x.events with
      | [] => x
      | event :: events => receive c { x with events := events } event
  | .process => x.process
  | .complete => x.complete

/-- The messages from somewhere else that the handler may get before it is to close the
connection. -/
def Move.isOpen : Move → Bool
  | .given (.message _) => true
  | .given (.received _ _) => true
  | .given _ => false
  | _ => true

/-- When the connection takes up a write that it has accepted before, a write is pending
or writing is suspended. -/
def refusesRepeated (x : Outgoing) : Move → Bool
  | .process =>
      match x.commands with
      | .write _ (some id) :: _ => !(id ∈ x.accepted) || x.pending.isSome || x.suspended
      | _ => true
  | _ => true

/-- The write of the head of a buffer is not on its way to the connection, and was not
accepted by it. -/
def headIsUnsent (x : Outgoing) (buffer : SortedMap ℕ (List UInt8)) : Bool :=
  match buffer.head? with
  | some (id, _) => !(id ∈ x.accepted) && !(id ∈ x.commands.filterMap Output.ackId?)
  | none => true

/-- When the handler is buffering and takes up an event that makes it write the head of its
buffer, this write is not on its way and was not accepted. -/
def writesHeadOnce (x : Outgoing) : Move → Bool
  | .deliver =>
      match x.handler.behaviour, x.events with
      | .workingCycleBuffering, .writingResumed :: _ =>
          x.headIsUnsent x.handler.outMessagesBuffer
      | .workingCycleBuffering, .ack id :: _ =>
          x.headIsUnsent (x.handler.outMessagesBuffer.erase id)
      | _, _ => true
  | _ => true

/-! ## The connection as a receiver of retried writes -/

/-- A command is that of the sender. -/
inductive SameCommand : Output → RetriedWrites.Command → Prop
  | fresh (msg : List UInt8) (id : ℕ) : SameCommand (.write msg (some id)) (.fresh id)
  | again (msg : List UInt8) (id : ℕ) : SameCommand (.write msg (some id)) (.again id)
  | resume : SameCommand .resumeWriting .resume

/-- An event is a reply of the receiver. -/
inductive SameReply : Input → RetriedWrites.Reply → Prop
  | ack (id : ℕ) : SameReply (.ack id) (.ack id)
  | failed (msg : List UInt8) (id : ℕ) : SameReply (.writeFailed msg id) (.failed id)
  | failedAgain (msg : List UInt8) (id : ℕ) : SameReply (.writeFailed msg id) (.failedAgain id)
  | resumed : SameReply .writingResumed .notice
  | resumeFailed : SameReply .resumeWritingFailed .notice

/-- The handler does what the sender does. -/
structure SameSender (h : PeerConnectionHandler) (s : RetriedWrites) : Prop where
  behaviour : h.behaviour = if s.buffering then .workingCycleBuffering else .workingCycleWriting
  buffer : ∀ id, id ∈ s.buffer ↔ id ∈ h.outMessagesBuffer.keys
  counter : s.counter = h.outMessagesCounter

/-- The handler and the connection do what the sender and the receiver do. -/
structure Simulates (x : Outgoing) (s : RetriedWrites) : Prop where
  sender : SameSender x.handler s
  commands : List.Forall₂ SameCommand x.commands s.commands
  events : List.Forall₂ SameReply x.events s.replies
  pending : s.pending = x.pending.join
  suspended : s.suspended = x.suspended
  accepted : s.accepted = x.accepted

theorem exists_of_forall₂ {α β : Type} {R : α → β → Prop} {l : List α} {l' : List β} {a : α}
    (h : List.Forall₂ R l l') (ha : a ∈ l) : ∃ b ∈ l', R a b := by
  induction h with
  | nil => cases ha
  | cons hr _ ih =>
    obtain rfl | ha := List.mem_cons.1 ha
    · exact ⟨_, List.mem_cons_self .., hr⟩
    · obtain ⟨b, hb, hab⟩ := ih ha
      exact ⟨b, List.mem_cons_of_mem _ hb, hab⟩

theorem forall₂_concat {α β : Type} {R : α → β → Prop} {l : List α} {l' : List β} {a : α} {b : β}
    (h : List.Forall₂ R l l') (hab : R a b) : List.Forall₂ R (l ++ [a]) (l' ++ [b]) :=
  List.rel_append h (.cons hab .nil)

section Simulation

variable {c : ConnectionDescription} {x : Outgoing} {s : RetriedWrites}

theorem SameSender.receive_writing {h : PeerConnectionHandler} (hs : SameSender h s)
    (hb : s.buffering = false) (input : Input) :
    h.receive c input = (h.localInterfaceWriting c input).getD (h.remoteOrClose c input) := by
  have hw : h.behaviour = .workingCycleWriting := by
    rw [hs.behaviour, hb]
    rfl
  simp only [PeerConnectionHandler.receive, hw]

theorem SameSender.receive_buffering {h : PeerConnectionHandler} (hs : SameSender h s)
    (hb : s.buffering = true) (input : Input) :
    h.receive c input = (h.localInterfaceBuffering c input).getD (h.remoteOrClose c input) := by
  have hw : h.behaviour = .workingCycleBuffering := by
    rw [hs.behaviour, hb]
    rfl
  simp only [PeerConnectionHandler.receive, hw]

/-- The smallest write of the sender is the head of the handler's buffer. -/
theorem isLeast_head? {buffer : Set ℕ} {m : SortedMap ℕ (List UInt8)} {e : ℕ × List UInt8}
    (hbuffer : ∀ id, id ∈ buffer ↔ id ∈ m.keys) (he : m.head? = some e) :
    IsLeast buffer e.1 := by
  obtain ⟨hmem, hle⟩ := SortedMap.head?_le he
  exact ⟨(hbuffer e.1).2 hmem, fun id hid => hle id ((hbuffer id).1 hid)⟩

theorem SameSender.receive_received {h : PeerConnectionHandler} (hs : SameSender h s)
    (data : List UInt8) (now : ℤ) :
    h.receive c (.received data now) = h.remoteInterface c data := by
  cases hb : s.buffering with
  | false =>
    rw [hs.receive_writing hb]
    rfl
  | true =>
    rw [hs.receive_buffering hb]
    rfl

/-- Reading does not write. -/
theorem isWriting_remoteInterface (h : PeerConnectionHandler) (data : List UInt8) :
    (h.remoteInterface c data).2.filter Output.isWriting = [] := by
  rw [List.filter_eq_nil_iff]
  intro out hout
  simp only [remoteInterface, List.mem_append, List.mem_map, List.mem_singleton] at hout
  obtain (⟨msg, -, rfl⟩ | hout) | rfl := hout
  · exact Bool.false_ne_true
  · split at hout
    · split at hout
      · rw [List.mem_singleton.1 hout]
        exact Bool.false_ne_true
      · cases hout
    · cases hout
  · exact Bool.false_ne_true

/-- A message from somewhere else is a new write, or no step. -/
theorem simulates_given {input : Input} (hsim : Simulates x s)
    (hopen : (Move.given input).isOpen = true) :
    ∃ s', Relation.ReflTransGen RetriedWrites.Step s s' ∧ Simulates (x.receive c input) s' := by
  have hsender := hsim.sender
  cases input with
  | message msg =>
    cases hb : s.buffering with
    | false =>
      refine ⟨_, .single (.send hb), ?_⟩
      have hreceive : x.handler.receive c (.message msg) =
          ({ x.handler with outMessagesCounter := x.handler.outMessagesCounter + 1 },
            [.write (c.messageSerializer.serialize msg)
              (some (x.handler.outMessagesCounter + 1))]) := by
        rw [hsender.receive_writing hb]
        rfl
      rw [Outgoing.receive, hreceive]
      refine { hsim with sender := ?_, commands := ?_ }
      · exact { hsender with counter := congrArg (· + 1) hsender.counter }
      · rw [hsender.counter]
        exact forall₂_concat hsim.commands (.fresh _ _)
    | true =>
      refine ⟨_, .single (.keep hb), ?_⟩
      have hreceive : x.handler.receive c (.message msg) =
          (buffer { x.handler with outMessagesCounter := x.handler.outMessagesCounter + 1 }
            (x.handler.outMessagesCounter + 1) (c.messageSerializer.serialize msg), []) := by
        rw [hsender.receive_buffering hb]
        rfl
      rw [Outgoing.receive, hreceive]
      refine { hsim with sender := ?_, commands := ?_ }
      · refine { hsender with buffer := ?_, counter := congrArg (· + 1) hsender.counter }
        intro id
        rw [Set.mem_insert_iff, hsender.counter, hsender.buffer]
        exact SortedMap.mem_keys_insert.symm
      · rw [List.filter_nil, List.append_nil]
        exact hsim.commands
  | received data now =>
    refine ⟨s, .refl, ?_⟩
    rw [Outgoing.receive, hsender.receive_received, isWriting_remoteInterface, List.append_nil]
    exact { hsim with sender := { hsender with } }
  | _ => cases hopen

theorem Simulates.replies_cons {event : Input} {events : List Input} (hsim : Simulates x s)
    (he : x.events = event :: events) :
    ∃ r rs, s.replies = r :: rs ∧ SameReply event r ∧ List.Forall₂ SameReply events rs := by
  have hevents := hsim.events
  rw [he] at hevents
  cases hr : s.replies with
  | nil =>
    rw [hr] at hevents
    cases hevents
  | cons r rs =>
    rw [hr, List.forall₂_cons] at hevents
    exact ⟨r, rs, rfl, hevents⟩

/-- An event that the handler takes up without doing anything. -/
theorem Simulates.ignore {event : Input} {events : List Input} {rs : List RetriedWrites.Reply}
    (hsim : Simulates x s) (hreceive : x.handler.receive c event = (x.handler, []))
    (hevents : List.Forall₂ SameReply events rs) :
    Simulates (receive c { x with events := events } event) { s with replies := rs } := by
  rw [Outgoing.receive, hreceive, List.filter_nil, List.append_nil]
  exact { hsim with sender := { hsim.sender with }, events := hevents }

/-- What an acknowledgement does in the working cycle. -/
theorem simulates_ack {id : ℕ} {events : List Input} {rs : List RetriedWrites.Reply}
    (hsim : Simulates x s) (hr : s.replies = .ack id :: rs)
    (hevents : List.Forall₂ SameReply events rs) :
    ∃ s', RetriedWrites.Step s s'
      ∧ Simulates (receive c { x with events := events } (.ack id)) s' := by
  have hsender := hsim.sender
  cases hb : s.buffering with
  | false =>
    have hreceive : x.handler.receive c (.ack id) = (x.handler, []) := by
      rw [hsender.receive_writing hb]
      rfl
    exact ⟨_, .ackWriting hr hb, hsim.ignore hreceive hevents⟩
  | true =>
    have hbuffer : ∀ i, i ∈ s.buffer \ {id} ↔ i ∈ (x.handler.outMessagesBuffer.erase id).keys := by
      intro i
      rw [SortedMap.mem_keys_erase, ← hsender.buffer, Set.mem_sdiff, Set.mem_singleton_iff,
        and_comm]
    have hreceive := hsender.receive_buffering (c := c) hb (.ack id)
    simp only [localInterfaceBuffering] at hreceive
    cases hhead : (x.handler.outMessagesBuffer.erase id).head? with
    | some e =>
      refine ⟨_, .ackNext hr hb (isLeast_head? hbuffer hhead), ?_⟩
      have hnonEmpty : (x.handler.outMessagesBuffer.erase id).nonEmpty = true := by
        rw [SortedMap.nonEmpty_iff]
        exact List.ne_nil_of_mem (SortedMap.head?_le hhead).1
      rw [if_pos hnonEmpty, Option.getD_some, writeFirst, hhead] at hreceive
      rw [Outgoing.receive, hreceive]
      refine { hsim with sender := ?_, commands := ?_, events := hevents }
      · exact { hsender with buffer := hbuffer }
      · exact forall₂_concat hsim.commands (.again _ _)
    | none =>
      have hkeys : (x.handler.outMessagesBuffer.erase id).keys = [] := by
        rw [SortedMap.keys, List.head?_eq_none_iff.1 hhead, List.map_nil]
      have hempty : s.buffer \ {id} = ∅ := by
        rw [Set.eq_empty_iff_forall_notMem]
        intro i hi
        have hmem := (hbuffer i).1 hi
        rw [hkeys] at hmem
        cases hmem
      refine ⟨_, .ackLast hr hb hempty, ?_⟩
      have hnone : ¬ (x.handler.outMessagesBuffer.erase id).nonEmpty = true := by
        rw [SortedMap.nonEmpty_iff, not_not]
        exact hkeys
      rw [if_neg hnone, Option.getD_some] at hreceive
      rw [Outgoing.receive, hreceive, List.filter_nil, List.append_nil]
      exact { hsim with
        sender := { hsender with behaviour := rfl, buffer := hbuffer }
        events := hevents }

/-- What the failure of a write does in the working cycle. -/
theorem simulates_writeFailed {msg : List UInt8} {id : ℕ} {events : List Input}
    {r : RetriedWrites.Reply} {rs : List RetriedWrites.Reply} (hsim : Simulates x s)
    (hr : s.replies = r :: rs) (hsame : SameReply (.writeFailed msg id) r)
    (hevents : List.Forall₂ SameReply events rs) :
    ∃ s', RetriedWrites.Step s s' ∧
      Simulates (receive c { x with events := events } (.writeFailed msg id)) s' := by
  have hsender := hsim.sender
  have hreceive : x.handler.receive c (.writeFailed msg id) =
      ({ x.handler.buffer id msg with behaviour := .workingCycleBuffering }, [.resumeWriting]) := by
    cases hb : s.buffering with
    | false =>
      rw [hsender.receive_writing hb]
      rfl
    | true =>
      rw [hsender.receive_buffering hb]
      have hbehaviour := hsender.behaviour
      rw [hb, if_pos rfl] at hbehaviour
      rw [localInterfaceBuffering, Option.getD_some, buffer, ← hbehaviour]
  have hbuffer : ∀ i, i ∈ insert id s.buffer ↔
      i ∈ (x.handler.outMessagesBuffer.insert id msg).keys := by
    intro i
    rw [Set.mem_insert_iff, hsender.buffer]
    exact SortedMap.mem_keys_insert.symm
  have hafter : Simulates (receive c { x with events := events } (.writeFailed msg id))
      { s with
        replies := rs
        buffer := insert id s.buffer
        buffering := true
        commands := s.commands ++ [.resume] } := by
    rw [Outgoing.receive, hreceive]
    exact { hsim with
      sender := { hsender with behaviour := rfl, buffer := hbuffer }
      commands := forall₂_concat hsim.commands .resume
      events := hevents }
  cases hsame with
  | failed => exact ⟨_, .failed hr, hafter⟩
  | failedAgain => exact ⟨_, .failedAgain hr, hafter⟩

/-- What `WritingResumed` does in the working cycle. -/
theorem simulates_writingResumed {events : List Input} {rs : List RetriedWrites.Reply}
    (hsim : Simulates x s) (hr : s.replies = .notice :: rs)
    (hevents : List.Forall₂ SameReply events rs) :
    ∃ s', RetriedWrites.Step s s' ∧
      Simulates (receive c { x with events := events } .writingResumed) s' := by
  have hsender := hsim.sender
  cases hb : s.buffering with
  | false =>
    have hreceive : x.handler.receive c .writingResumed = (x.handler, []) := by
      rw [hsender.receive_writing hb]
      rfl
    exact ⟨_, .notice hr, hsim.ignore hreceive hevents⟩
  | true =>
    have hreceive : x.handler.receive c .writingResumed = (x.handler, x.handler.writeFirst) := by
      rw [hsender.receive_buffering hb]
      rfl
    rw [writeFirst] at hreceive
    cases hhead : x.handler.outMessagesBuffer.head? with
    | some e =>
      rw [hhead] at hreceive
      refine ⟨_, .retry hr hb (isLeast_head? hsender.buffer hhead), ?_⟩
      rw [Outgoing.receive, hreceive]
      exact { hsim with
        sender := { hsender with }
        commands := forall₂_concat hsim.commands (.again _ _)
        events := hevents }
    | none =>
      rw [hhead] at hreceive
      exact ⟨_, .notice hr, hsim.ignore hreceive hevents⟩

/-- What the failure of `ResumeWriting` does in the working cycle. -/
theorem simulates_resumeWritingFailed {events : List Input} {rs : List RetriedWrites.Reply}
    (hsim : Simulates x s) (hr : s.replies = .notice :: rs)
    (hevents : List.Forall₂ SameReply events rs) :
    ∃ s', RetriedWrites.Step s s' ∧
      Simulates (receive c { x with events := events } .resumeWritingFailed) s' := by
  have hreceive : x.handler.receive c .resumeWritingFailed = (x.handler, []) := by
    cases hb : s.buffering with
    | false =>
      rw [hsim.sender.receive_writing hb]
      rfl
    | true =>
      rw [hsim.sender.receive_buffering hb]
      rfl
  exact ⟨_, .notice hr, hsim.ignore hreceive hevents⟩

/-- An event that the handler takes up is a step of the sender. -/
theorem simulates_deliver {event : Input} {events : List Input} (hsim : Simulates x s)
    (he : x.events = event :: events) :
    ∃ s', RetriedWrites.Step s s' ∧ Simulates (receive c { x with events := events } event) s' := by
  obtain ⟨r, rs, hr, hsame, hevents⟩ := hsim.replies_cons he
  cases event with
  | ack id =>
    cases hsame
    exact simulates_ack hsim hr hevents
  | writeFailed msg id => exact simulates_writeFailed hsim hr hsame hevents
  | writingResumed =>
    cases hsame
    exact simulates_writingResumed hsim hr hevents
  | resumeWritingFailed =>
    cases hsame
    exact simulates_resumeWritingFailed hsim hr hevents
  | _ => cases hsame

/-- The first command of the connection is that of the receiver. -/
theorem Simulates.commands_cons {command : Output} {commands : List Output} (hsim : Simulates x s)
    (hx : x.commands = command :: commands) :
    ∃ d ds, s.commands = d :: ds ∧ SameCommand command d
      ∧ List.Forall₂ SameCommand commands ds := by
  have hcommands := hsim.commands
  rw [hx] at hcommands
  cases hd : s.commands with
  | nil =>
    rw [hd] at hcommands
    cases hcommands
  | cons d ds =>
    rw [hd, List.forall₂_cons] at hcommands
    exact ⟨d, ds, rfl, hcommands⟩

/-- A write that finds the connection free is accepted. -/
theorem simulates_accept {msg : List UInt8} {ack : Option ℕ} {commands : List Output}
    (hsim : Simulates x s) (hx : x.commands = .write msg ack :: commands)
    (hp : x.pending = none) (hs : x.suspended = false) (hnew : ∀ id ∈ ack, id ∉ x.accepted) :
    ∃ s', RetriedWrites.Step s s' ∧ Simulates
      { x with commands := commands, pending := some ack, accepted := x.accepted ++ ack.toList }
      s' := by
  obtain ⟨d, ds, hd, hsame, hcommands⟩ := hsim.commands_cons hx
  have hpending : s.pending = none := by rw [hsim.pending, hp, Option.join_none]
  have hsuspended : s.suspended = false := by rw [hsim.suspended, hs]
  have haccepted := hsim.accepted
  cases hsame with
  | fresh _ id =>
    have hid : id ∉ s.accepted := haccepted ▸ hnew id rfl
    refine ⟨_, .acceptFresh hd hpending hsuspended hid, ?_⟩
    exact { hsim with
      sender := { hsim.sender with }
      commands := hcommands
      pending := rfl
      accepted := congrArg (· ++ [id]) haccepted }
  | again _ id =>
    have hid : id ∉ s.accepted := haccepted ▸ hnew id rfl
    refine ⟨_, .acceptAgain hd hpending hsuspended hid, ?_⟩
    exact { hsim with
      sender := { hsim.sender with }
      commands := hcommands
      pending := rfl
      accepted := congrArg (· ++ [id]) haccepted }

/-- Every write may be rejected. -/
theorem simulates_reject {msg : List UInt8} {ack : Option ℕ} {commands : List Output}
    (hsim : Simulates x s) (hx : x.commands = .write msg ack :: commands) :
    ∃ s', RetriedWrites.Step s s' ∧ Simulates
      { x with
        commands := commands, suspended := true
        events := x.events ++ (ack.map (Input.writeFailed msg)).toList } s' := by
  obtain ⟨d, ds, hd, hsame, hcommands⟩ := hsim.commands_cons hx
  cases hsame with
  | fresh _ id =>
    refine ⟨_, .rejectFresh hd, ?_⟩
    exact { hsim with
      sender := { hsim.sender with }
      commands := hcommands
      events := forall₂_concat hsim.events (.failed msg id)
      suspended := rfl }
  | again _ id =>
    refine ⟨_, .rejectAgain hd, ?_⟩
    exact { hsim with
      sender := { hsim.sender with }
      commands := hcommands
      events := forall₂_concat hsim.events (.failedAgain msg id)
      suspended := rfl }

/-- Writing is resumed, and the handler may be told so. -/
theorem simulates_resume {commands : List Output} (told : Option Input) (interested : Bool)
    (hsim : Simulates x s) (hx : x.commands = .resumeWriting :: commands)
    (htold : ∀ event, told = some event → SameReply event .notice) :
    ∃ s', Relation.ReflTransGen RetriedWrites.Step s s' ∧ Simulates
      { x with
        commands := commands, suspended := false, events := x.events ++ told.toList
        interested := interested } s' := by
  obtain ⟨d, ds, hd, hsame, hcommands⟩ := hsim.commands_cons hx
  cases hsame
  cases told with
  | none =>
    refine ⟨_, .single (.resume hd), ?_⟩
    exact { hsim with
      sender := { hsim.sender with }
      commands := hcommands
      events := (List.append_nil x.events).symm ▸ hsim.events
      suspended := rfl }
  | some event =>
    refine ⟨_, .tail (.single (.resume hd)) .note, ?_⟩
    exact { hsim with
      sender := { hsim.sender with }
      commands := hcommands
      events := forall₂_concat hsim.events (htold event rfl)
      suspended := rfl }

/-- What the connection does with a command are steps of the receiver. -/
theorem simulates_process (hsim : Simulates x s) (hrefuses : x.refusesRepeated .process = true) :
    ∃ s', Relation.ReflTransGen RetriedWrites.Step s s' ∧ Simulates x.process s' := by
  rw [process]
  split
  · rename_i msg ack commands hx
    split
    · rename_i hfree
      rw [Bool.and_eq_true, Option.isNone_iff_eq_none, Bool.not_eq_true'] at hfree
      have hnew : ∀ id ∈ ack, id ∉ x.accepted := by
        rintro id rfl
        simpa [refusesRepeated, hx, hfree.1, hfree.2] using hrefuses
      obtain ⟨s', hstep, hsim'⟩ := simulates_accept hsim hx hfree.1 hfree.2 hnew
      exact ⟨s', .single hstep, hsim'⟩
    · obtain ⟨s', hstep, hsim'⟩ := simulates_reject hsim hx
      exact ⟨s', .single hstep, hsim'⟩
  · rename_i commands hx
    split
    · refine simulates_resume (some .writingResumed) x.interested hsim hx ?_
      rintro _ ⟨⟩
      exact .resumed
    · split
      · refine simulates_resume (some .resumeWritingFailed) x.interested hsim hx ?_
        rintro _ ⟨⟩
        exact .resumeFailed
      · have hresume := simulates_resume none true hsim hx (by simp)
        rwa [Option.toList_none, List.append_nil] at hresume
  · rename_i command commands hwrite hresume hx
    obtain ⟨d, ds, -, hsame, -⟩ := hsim.commands_cons hx
    cases hsame with
    | fresh msg id => exact absurd rfl (hwrite msg (some id))
    | again msg id => exact absurd rfl (hwrite msg (some id))
    | resume => exact absurd rfl hresume
  · exact ⟨s, .refl, hsim⟩

/-- The completion of a write is a step of the receiver, but for the write of the
handshake. -/
theorem simulates_complete (hsim : Simulates x s) :
    ∃ s', Relation.ReflTransGen RetriedWrites.Step s s' ∧ Simulates x.complete s' := by
  rw [complete]
  split
  · rename_i ack hp
    have hpending := hsim.pending
    rw [hp, Option.join_some] at hpending
    obtain ⟨s', hsteps, hsim'⟩ : ∃ s', Relation.ReflTransGen RetriedWrites.Step s s' ∧ Simulates
        { x with
          pending := none, interested := false
          events := x.events ++ (ack.map Input.ack).toList } s' := by
      cases ack with
      | none =>
        refine ⟨s, .refl, ?_⟩
        exact { hsim with
          sender := { hsim.sender with }
          events := (List.append_nil x.events).symm ▸ hsim.events
          pending := hpending }
      | some id =>
        refine ⟨_, .single (.complete hpending), ?_⟩
        exact { hsim with
          sender := { hsim.sender with }
          events := forall₂_concat hsim.events (.ack id)
          pending := rfl }
    split
    · refine ⟨_, hsteps.tail .note, ?_⟩
      exact { hsim' with
        sender := { hsim'.sender with }
        events := forall₂_concat hsim'.events .resumed }
    · refine ⟨s', hsteps, ?_⟩
      rw [List.append_nil]
      exact hsim'
  · exact ⟨s, .refl, hsim⟩

/-- **Every move** is a run of the sender and the receiver, unless the connection accepts a
write again. -/
theorem simulates_step {move : Move} (hsim : Simulates x s) (hopen : move.isOpen = true)
    (hrefuses : x.refusesRepeated move = true) :
    ∃ s', Relation.ReflTransGen RetriedWrites.Step s s' ∧ Simulates (step c x move) s' := by
  cases move with
  | given input => exact simulates_given hsim hopen
  | deliver =>
    rw [step]
    split
    · exact ⟨s, .refl, hsim⟩
    · rename_i event events he
      obtain ⟨s', hstep, hsim'⟩ := simulates_deliver (c := c) hsim he
      exact ⟨s', .single hstep, hsim'⟩
  | process => exact simulates_process hsim hrefuses
  | complete => exact simulates_complete hsim

end Simulation

/-! ## Writes that are sent once -/

section Unsent

variable {c : ConnectionDescription} {x : Outgoing} {s : RetriedWrites}

/-- No write was accepted twice, and none that is on its way was accepted. -/
def Unsent (x : Outgoing) : Prop := (x.accepted ++ x.commands.filterMap Output.ackId?).Nodup

theorem ackIds_filter_isWriting (outs : List Output) :
    (outs.filter Output.isWriting).filterMap Output.ackId? = outs.filterMap Output.ackId? := by
  rw [List.filterMap_filter]
  refine List.filterMap_congr ?_
  rintro (_ | _) _ <;> rfl

/-- A message that makes the handler write at most what was not sent. -/
theorem Unsent.receive {input : Input} {events : List Input} (h : Unsent x) (ids : List ℕ)
    (hout : (x.handler.receive c input).2.filterMap Output.ackId? = ids) (hnodup : ids.Nodup)
    (hnew : ∀ id ∈ ids, id ∉ x.accepted ∧ id ∉ x.commands.filterMap Output.ackId?) :
    Unsent (receive c { x with events := events } input) := by
  rw [Unsent, Outgoing.receive, List.filterMap_append, ackIds_filter_isWriting, hout,
    ← List.append_assoc]
  refine List.Nodup.append h hnodup ?_
  intro id hmem hid
  exact (List.mem_append.1 hmem).elim (hnew id hid).1 (hnew id hid).2

/-- A message that makes the handler write nothing. -/
theorem Unsent.receive_none {input : Input} {events : List Input} (h : Unsent x)
    (hout : (x.handler.receive c input).2.filterMap Output.ackId? = []) :
    Unsent (Outgoing.receive c { x with events := events } input) :=
  h.receive [] hout List.nodup_nil (by simp)

/-- An event that makes the handler write the head of its buffer. -/
theorem Unsent.receive_writeFirst {h' : PeerConnectionHandler} {input : Input}
    {events : List Input} (h : Unsent x)
    (hreceive : x.handler.receive c input = (h', h'.writeFirst))
    (hhead : x.headIsUnsent h'.outMessagesBuffer = true) :
    Unsent (Outgoing.receive c { x with events := events } input) := by
  rw [headIsUnsent] at hhead
  rw [writeFirst] at hreceive
  cases hid : h'.outMessagesBuffer.head? with
  | none =>
    rw [hid] at hreceive
    exact h.receive_none (by rw [hreceive]; rfl)
  | some e =>
    rw [hid] at hreceive hhead
    simp only [Bool.and_eq_true, Bool.not_eq_true', decide_eq_false_iff_not] at hhead
    refine h.receive [e.1] (by rw [hreceive]; rfl) (List.nodup_singleton _) ?_
    intro id hmem
    rwa [List.mem_singleton.1 hmem]

/-- What the handler takes up keeps this, if it writes no head of its buffer again. -/
theorem Unsent.deliver {event : Input} {events : List Input} (h : Unsent x)
    (hsim : Simulates x s) (he : x.events = event :: events)
    (honce : x.writesHeadOnce .deliver = true) :
    Unsent (Outgoing.receive c { x with events := events } event) := by
  obtain ⟨r, rs, -, hsame, -⟩ := hsim.replies_cons he
  have hsender := hsim.sender
  cases hb : s.buffering with
  | false =>
    -- a handler that is not buffering writes nothing
    refine h.receive_none ?_
    rw [hsender.receive_writing hb]
    cases hsame <;> rfl
  | true =>
    have hbehaviour := hsender.behaviour
    rw [hb, if_pos rfl] at hbehaviour
    have hreceive := hsender.receive_buffering (c := c) hb
    simp only [writesHeadOnce, hbehaviour, he] at honce
    cases hsame with
    | ack id =>
      have hack := hreceive (.ack id)
      simp only [localInterfaceBuffering] at hack
      split at hack
      · exact h.receive_writeFirst hack honce
      · exact h.receive_none (by rw [hack]; rfl)
    | failed msg id => exact h.receive_none (by rw [hreceive]; rfl)
    | failedAgain msg id => exact h.receive_none (by rw [hreceive]; rfl)
    | resumed => exact h.receive_writeFirst (hreceive .writingResumed) honce
    | resumeFailed => exact h.receive_none (by rw [hreceive]; rfl)

/-- A message from somewhere else is written with a new number. -/
theorem Unsent.given {input : Input} (h : Unsent x) (hsim : Simulates x s)
    (hopen : (Move.given input).isOpen = true)
    (hle : ∀ id, id ∈ x.accepted ∨ id ∈ x.commands.filterMap Output.ackId? → id ≤ s.counter) :
    Unsent (x.receive c input) := by
  have hsender := hsim.sender
  cases input with
  | message msg =>
    cases hb : s.buffering with
    | false =>
      refine h.receive [x.handler.outMessagesCounter + 1] ?_ (List.nodup_singleton _) ?_
      · rw [hsender.receive_writing hb]
        rfl
      · intro id hid
        rw [List.mem_singleton.1 hid, ← hsender.counter]
        constructor
        · intro hmem
          exact Nat.not_succ_le_self _ (hle _ (.inl hmem))
        · intro hmem
          exact Nat.not_succ_le_self _ (hle _ (.inr hmem))
    | true =>
      refine h.receive_none ?_
      rw [hsender.receive_buffering hb]
      rfl
  | received data now =>
    refine h.receive_none ?_
    rw [hsender.receive_received, ← ackIds_filter_isWriting, isWriting_remoteInterface]
    rfl
  | _ => cases hopen

/-- What the connection takes up is accepted or gone. -/
theorem Unsent.process (h : Unsent x) : Unsent x.process := by
  rw [Outgoing.process]
  rw [Unsent] at h
  split
  · rename_i msg ack commands hx
    have hids : x.commands.filterMap Output.ackId? =
        ack.toList ++ commands.filterMap Output.ackId? := by
      rw [hx]
      cases ack <;> rfl
    rw [hids, ← List.append_assoc] at h
    split
    · exact h
    · refine h.sublist ?_
      exact (List.sublist_append_left _ _).append_right _
  · rename_i commands hx
    rw [hx] at h
    split
    · exact h
    · split <;> exact h
  · rename_i command commands hwrite hresume hx
    rw [hx] at h
    exact h.sublist (((List.sublist_cons_self command commands).filterMap _).append_left _)
  · exact h

/-- A write that was not accepted before need not be refused. -/
theorem Unsent.refusesRepeated (h : Unsent x) (move : Move) : x.refusesRepeated move = true := by
  cases move with
  | process =>
    rw [Outgoing.refusesRepeated]
    split
    · rename_i msg id commands hx
      rw [Unsent, hx, List.nodup_append] at h
      have hnot : id ∉ x.accepted := by
        intro hmem
        exact h.2.2 id hmem id (List.mem_cons_self ..) rfl
      simp [hnot]
    · rfl
  | _ => rfl

end Unsent

/-! ## Runs -/

section Runs

variable {c : ConnectionDescription} {x : Outgoing} {s : RetriedWrites}

/-- A handler that has written nothing yet. -/
theorem simulates_start {h : PeerConnectionHandler} (handshakePending : Bool)
    (hh : h.behaviour = .workingCycleWriting) (hempty : h.outMessagesBuffer.keys = []) :
    Simulates (start h handshakePending) (.start h.outMessagesCounter) where
  sender := by
    refine ⟨hh, ?_, rfl⟩
    intro id
    rw [RetriedWrites.start, start, hempty]
    simp
  commands := .nil
  events := .nil
  pending := by cases handshakePending <;> rfl
  suspended := rfl
  accepted := rfl

/-- A run that accepts no write again is one of the sender and the receiver. -/
theorem simulates_run {moves : List Move} (hsim : Simulates x s)
    (hopen : ∀ move ∈ moves, move.isOpen = true)
    (hmeets : Reaches.Meets (step c) refusesRepeated x moves = true) :
    ∃ s', Relation.ReflTransGen RetriedWrites.Step s s' ∧
      Simulates (moves.foldl (step c) x) s' := by
  induction moves generalizing x s with
  | nil => exact ⟨s, .refl, hsim⟩
  | cons move moves ih =>
    rw [Reaches.Meets, Bool.and_eq_true] at hmeets
    obtain ⟨s₁, hstep, hsim₁⟩ := simulates_step (c := c) hsim (hopen move (by simp)) hmeets.1
    obtain ⟨s₂, hsteps, hsim₂⟩ :=
      ih hsim₁ (fun m hm => hopen m (List.mem_cons_of_mem _ hm)) hmeets.2
    exact ⟨s₂, hstep.trans hsteps, hsim₂⟩

/-- What was accepted stays accepted. -/
theorem accepted_grows (move : Move) : x.accepted <+: (step c x move).accepted := by
  cases move with
  | given input => exact List.prefix_refl _
  | deliver =>
    rw [step]
    split <;> exact List.prefix_refl _
  | process =>
    rw [step, process]
    split
    · split
      · exact List.prefix_append _ _
      · exact List.prefix_refl _
    · split
      · exact List.prefix_refl _
      · split <;> exact List.prefix_refl _
    · exact List.prefix_refl _
    · exact List.prefix_refl _
  | complete =>
    rw [step, complete]
    split <;> exact List.prefix_refl _

theorem accepted_grows_run (moves : List Move) :
    x.accepted <+: (moves.foldl (step c) x).accepted := by
  induction moves generalizing x with
  | nil => exact List.prefix_refl _
  | cons move moves ih => exact (accepted_grows move).trans ih

/-- A write that is accepted again is out of order. -/
theorem refusesRepeated_of_increasing {move : Move}
    (h : (step c x move).accepted.Pairwise (· < ·)) : x.refusesRepeated move = true := by
  cases move with
  | process =>
    rw [refusesRepeated]
    split
    · rename_i msg id commands hx
      by_contra hnot
      simp only [Bool.or_eq_true, Bool.not_eq_true', decide_eq_false_iff_not, not_or, not_not,
        Bool.not_eq_true, Option.isSome_eq_false_iff] at hnot
      obtain ⟨⟨hmem, hp⟩, hs⟩ := hnot
      rw [step, process, hx] at h
      simp only [hp, hs, Bool.not_false, Bool.and_self, if_true] at h
      rw [List.pairwise_append] at h
      exact Nat.lt_irrefl id (h.2.2 id hmem id (List.mem_cons_self ..))
    · rfl
  | _ => rfl

theorem meets_of_increasing {moves : List Move}
    (h : (moves.foldl (step c) x).accepted.Pairwise (· < ·)) :
    Reaches.Meets (step c) refusesRepeated x moves = true := by
  induction moves generalizing x with
  | nil => rfl
  | cons move moves ih =>
    rw [Reaches.Meets, Bool.and_eq_true]
    have hone : (step c x move).accepted.Pairwise (· < ·) :=
      h.sublist (accepted_grows_run moves).sublist
    exact ⟨refusesRepeated_of_increasing hone, ih h⟩

/-- The numbers that are on their way were given out. -/
theorem Simulates.le_counter {base id : ℕ} (hsim : Simulates x s)
    (hreach : Relation.ReflTransGen RetriedWrites.Step (.start base) s)
    (hid : id ∈ x.accepted ∨ id ∈ x.commands.filterMap Output.ackId?) : id ≤ s.counter := by
  refine RetriedWrites.le_counter hreach ?_
  rw [hsim.accepted]
  refine hid.imp_right fun hmem => ?_
  obtain ⟨command, hcommand, hack⟩ := List.mem_filterMap.1 hmem
  obtain ⟨d, hd, hsame⟩ := exists_of_forall₂ hsim.commands hcommand
  cases hsame with
  | fresh _ i => exact .inl (Option.some.inj hack ▸ hd)
  | again _ i => exact .inr (Option.some.inj hack ▸ hd)
  | resume => cases hack

/-- A handler that never writes the head of its buffer again while this write is on its way or
was accepted has no write accepted again. -/
theorem meets_of_writesHeadOnce {base : ℕ} {moves : List Move} (hsim : Simulates x s)
    (hreach : Relation.ReflTransGen RetriedWrites.Step (.start base) s) (hunsent : Unsent x)
    (hopen : ∀ move ∈ moves, move.isOpen = true)
    (honce : Reaches.Meets (step c) writesHeadOnce x moves = true) :
    Reaches.Meets (step c) refusesRepeated x moves = true := by
  induction moves generalizing x s with
  | nil => rfl
  | cons move moves ih =>
    rw [Reaches.Meets, Bool.and_eq_true] at honce ⊢
    have hone := hopen move (List.mem_cons_self ..)
    have hrefuses := hunsent.refusesRepeated move
    refine ⟨hrefuses, ?_⟩
    obtain ⟨s', hsteps, hsim'⟩ := simulates_step (c := c) hsim hone hrefuses
    refine ih hsim' (hreach.trans hsteps) ?_ (fun m hm => hopen m (List.mem_cons_of_mem _ hm))
      honce.2
    cases move with
    | given input => exact hunsent.given hsim hone fun _ => hsim.le_counter hreach
    | deliver =>
      rw [step]
      split
      · exact hunsent
      · rename_i event events he
        exact hunsent.deliver hsim he honce.1
    | process => exact hunsent.process
    | complete =>
      rw [step, complete]
      split <;> exact hunsent

/-- **The connection accepts the writes in the order of their ids**, each at most once, exactly
when it is not free whenever it takes up a write that it has accepted before.  It takes up no
such write if the handler never writes the head of its buffer when this write is on its way
to the connection or was accepted by it. -/
theorem accepted_increasing_iff (c : ConnectionDescription) (h : PeerConnectionHandler)
    (handshakePending : Bool) (moves : List Move) (hh : h.behaviour = .workingCycleWriting)
    (hempty : h.outMessagesBuffer.keys = []) (hopen : ∀ move ∈ moves, move.isOpen = true) :
    ((moves.foldl (step c) (start h handshakePending)).accepted.Pairwise (· < ·) ↔
      Reaches.Meets (step c) refusesRepeated (start h handshakePending) moves = true) ∧
    (Reaches.Meets (step c) writesHeadOnce (start h handshakePending) moves = true →
      (moves.foldl (step c) (start h handshakePending)).accepted.Pairwise (· < ·)) := by
  have hsim := simulates_start handshakePending hh hempty
  have hincreasing :
      Reaches.Meets (step c) refusesRepeated (start h handshakePending) moves = true →
      (moves.foldl (step c) (start h handshakePending)).accepted.Pairwise (· < ·) := by
    intro hmeets
    obtain ⟨s, hreach, hsim'⟩ := simulates_run hsim hopen hmeets
    rw [← hsim'.accepted]
    exact RetriedWrites.accepted_increasing hreach
  refine ⟨⟨meets_of_increasing, hincreasing⟩, ?_⟩
  intro honce
  exact hincreasing (meets_of_writesHeadOnce hsim .refl List.nodup_nil hopen honce)

end Runs

/-! ## Two runs -/

/-- The handler at the start of its working cycle. -/
def working : PeerConnectionHandler := { fresh with behaviour := .workingCycleWriting }

/-- A message to be written. -/
def toWrite : Move := .given (.message ⟨1, [], none⟩)

/-- The second write comes while the first one is pending, and is written twice again: after
the acknowledgement of the first one and after `WritingResumed`.  The connection takes up the
last of these writes when the one before it is still pending. -/
def slowWrites : List Move :=
  [toWrite, toWrite, .process, .process, .deliver, .process, .complete, .deliver, .deliver,
    .process, .process, .complete, .deliver, .deliver, .process, .deliver, toWrite, .process]

theorem accepted_increasing_iff_slowWrites :
    (slowWrites.foldl (step plainConnection) (start working false)).accepted = [1, 2, 3] ∧
      (slowWrites.foldl (step plainConnection) (start working false)).accepted.Pairwise (· < ·) :=
  ⟨by decide, (accepted_increasing_iff plainConnection working false slowWrites rfl rfl
    (by decide)).1.2 (by decide)⟩

/-- The same, but the connection completes the second write before it takes it up again. -/
def fastWrites : List Move :=
  [toWrite, toWrite, .process, .process, .deliver, .process, .complete, .deliver, .deliver,
    .process, .complete, .process]

/-- The second message is written twice. -/
theorem second_write_repeated :
    (∀ move ∈ fastWrites, move.isOpen = true) ∧
      (fastWrites.foldl (step plainConnection) (start working false)).accepted = [1, 2, 2] ∧
      ¬ (fastWrites.foldl (step plainConnection) (start working false)).accepted.Pairwise
        (· < ·) := by
  decide

end Outgoing

end Sparkz.Network.PeerConnectionHandler
