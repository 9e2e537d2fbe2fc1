import Mathlib
import Sparkz.Lib.GuardedRun
import Sparkz.Network.NodeViewSynchronizer
import Sparkz.Network.PeerSpec

/-!
# The request tracker

The model of `RequestTracker`, which stands before the network controller and watches that
peers answer requests of one kind: it remembers whom it has asked, and punishes a peer that
does not answer in time, or answers without being asked.

* `receive`, `verifyDelivery` — the handlers, each with the messages that it sends.
* `Tracking`, `Event`, `step` — the actor with the clock, the questions to the controller that
  are not answered yet, and the timers; every request that is sent has a number.
* `Prompt`, `Unpunished` — what a peer owes, and what it may expect.
* `prompt_unpunished` — a prompt peer is never punished as long as no two requests to it
  overlap and no timer of an answered request fires during a later one; once all requests are
  answered, these are the only runs.

`ConnectedPeer.equals` compares remote addresses, so a peer is given by its remote address.
What the controller answers to a question is a parameter.  A timer's message is handled at
any moment from its due time on.
-/

namespace Sparkz.Network

open Sparkz.Lib

/-- `MessageSpec`, by its code and its protocol version. -/
structure MessageSpec where
  messageCode : UInt8
  protocolVersion : Version
  deriving DecidableEq, Repr

/-- `Message(spec, input, source)`. -/
structure SpecMessage (Address : Type) where
  spec : MessageSpec
  input : List UInt8
  source : Option Address
  deriving DecidableEq, Repr

/-- `SendingStrategy`. -/
inductive SendingStrategy (Address : Type) where
  | sendToRandom
  | broadcast
  | broadcastTransaction
  | broadcastBlock
  | broadcastExceptOf (exceptOf : List Address)
  | sendToPeer (chosenPeer : Address)
  | sendToPeers (chosenPeers : List Address)
  | sendToRandomFromChosen (chosenPeers : List Address)
  deriving DecidableEq, Repr

/-- The parameters of the tracker; the timeout is in nanoseconds. -/
structure RequestTrackerSettings where
  trackedRequestCode : UInt8
  trackedResponseCode : UInt8
  deliveryTimeout : ℤ
  penalizeNonDelivery : Bool

/-- The state of the actor. -/
structure RequestTracker (Address : Type) where
  handler : Option ℕ
  requestTracker : Finset (UInt8 × Address)

namespace RequestTracker

variable {Address : Type} [DecidableEq Address]

/-- What other actors send; `any` stands for everything that is none of the others. -/
inductive Input (Address : Type) where
  | registerMessageSpecs (specs : List MessageSpec) (handler : ℕ)
  | sendToNetwork (message : SpecMessage Address) (sendingStrategy : SendingStrategy Address)
  | message (m : SpecMessage Address)
  | any (content : ℕ)
  deriving DecidableEq, Repr

/-- What the actor sends: to the network controller, or to its handler.  It registers
itself for the specs of its handler. -/
inductive Output (Address : Type) where
  | registerMessageSpecs (specs : List MessageSpec)
  | getFilteredConnectedPeers (sendingStrategy : SendingStrategy Address) (version : Version)
  | sendToNetwork (message : SpecMessage Address) (sendingStrategy : SendingStrategy Address)
  | penalizePeer (address : Address) (penaltyType : PenaltyType)
  | toController (any : Input Address)
  | toHandler (actor : ℕ) (any : Input Address)
  deriving DecidableEq, Repr

/-- The actor as constructed. -/
def empty : RequestTracker Address := ⟨none, ∅⟩

variable (s : RequestTrackerSettings) (t : RequestTracker Address)

/-- `handler.foreach(actor => actor ! any)`. -/
def tellHandler (any : Input Address) : List (Output Address) :=
  t.handler.toList.map fun actor => .toHandler actor any

/-- `forward`. -/
def forward (fromController : Bool) (any : Input Address) : List (Output Address) :=
  if fromController then t.tellHandler any else [.toController any]

/-- `receiveResponse`, on a message from `remote`. -/
def receiveResponse (m : SpecMessage Address) (remote : Address) :
    RequestTracker Address × List (Output Address) :=
  if (s.trackedRequestCode, remote) ∈ t.requestTracker then
    ({ t with requestTracker := t.requestTracker.erase (s.trackedRequestCode, remote) },
      t.tellHandler (.message m))
  else (t, [.penalizePeer remote .spamPenalty])

/-- `receive`, but for the messages of timers; `fromController` says whether the sender is
the network controller.  A tracked request only leads to a question to the controller. -/
def receive (fromController : Bool) :
    Input Address → RequestTracker Address × List (Output Address)
  | .registerMessageSpecs specs handler =>
      ({ t with handler := some handler }, [.registerMessageSpecs specs])
  | .sendToNetwork m strategy =>
      if m.spec.messageCode = s.trackedRequestCode then
        (t, [.getFilteredConnectedPeers strategy m.spec.protocolVersion])
      else (t, t.forward fromController (.sendToNetwork m strategy))
  | .message m =>
      match m.source with
      | some remote =>
          if m.spec.messageCode = s.trackedResponseCode then t.receiveResponse s m remote
          else (t, t.forward fromController (.message m))
      | none => (t, t.forward fromController (.message m))
  | .any content => (t, t.forward fromController (.any content))

/-- `verifyDelivery`. -/
def verifyDelivery (requestKey : UInt8 × Address) (remote : Address) :
    RequestTracker Address × List (Output Address) :=
  ({ t with requestTracker := t.requestTracker.erase requestKey },
    if requestKey ∈ t.requestTracker ∧ s.penalizeNonDelivery then
      [.penalizePeer remote .nonDeliveryPenalty]
    else [])

end RequestTracker

/-! ## The actor and its timers -/

/-- A tracked request: its number, when its timer is due, and the peer. -/
structure SentRequest (Address : Type) where
  number : ℕ
  due : ℤ
  remote : Address
  deriving DecidableEq, Repr

/-- The actor, the time, the tracked messages whose receivers the controller has been asked
for with the times of their arrival, the timers, the requests that their peers have not
answered, and the number of requests so far. -/
structure Tracking (Address : Type) where
  tracker : RequestTracker Address
  now : ℤ
  asked : List (ℤ × SpecMessage Address)
  timers : List (SentRequest Address)
  unanswered : List (SentRequest Address)
  requests : ℕ

namespace Tracking

open RequestTracker

variable {Address : Type} [DecidableEq Address]

/-- The actor as constructed. -/
def empty : Tracking Address := ⟨.empty, 0, [], [], [], 0⟩

/-- What can happen next: time passes; a message comes, which is a response to the request
with the given number if it is a response; the controller answers the `n`th question that is
open; or the message of the `n`th timer is handled. -/
inductive Event (Address : Type) where
  | wait (elapsed : ℕ)
  | input (fromController : Bool) (any : Input Address) (request : ℕ)
  | filteredConnectedPeers (n : ℕ) (peers : List Address)
  | verifyDelivery (n : ℕ)

variable (s : RequestTrackerSettings) (x : Tracking Address)

/-- The tracked message that came at `start` is sent to one peer. -/
def sendTo (start : ℤ) (x : Tracking Address) (peer : Address) : Tracking Address :=
  let requestKey := (s.trackedRequestCode, peer)
  let elapsed := x.now - start
  let request : SentRequest Address := ⟨x.requests, x.now + (s.deliveryTimeout - elapsed), peer⟩
  { x with
    tracker := { x.tracker with requestTracker := insert requestKey x.tracker.requestTracker }
    timers := x.timers ++ [request]
    unanswered := x.unanswered ++ [request]
    requests := x.requests + 1 }

/-- A message that comes: a tracked request is kept until the controller has answered, and a
response answers its request. -/
def noted (x : Tracking Address) (any : Input Address) (request : ℕ) : Tracking Address :=
  match any with
  | .sendToNetwork m _ =>
      if m.spec.messageCode = s.trackedRequestCode then
        { x with asked := x.asked ++ [(x.now, m)] }
      else x
  | .message m =>
      if m.spec.messageCode = s.trackedResponseCode then
        { x with unanswered :=
            x.unanswered.eraseP fun r => r.number = request ∧ m.source = some r.remote }
      else x
  | _ => x

/-- One event, with what is sent.  A timer that is not due does nothing. -/
def step : Event Address → Tracking Address × List (Output Address)
  | .wait elapsed => ({ x with now := x.now + elapsed }, [])
  | .input fromController any request =>
      let (t, sent) := x.tracker.receive s fromController any
      ({ x.noted s any request with tracker := t }, sent)
  | .filteredConnectedPeers n peers =>
      match x.asked[n]? with
      | some (start, m) =>
          (peers.foldl (sendTo s start) { x with asked := x.asked.eraseIdx n },
            peers.map fun peer => .sendToNetwork m (.sendToPeer peer))
      | none => (x, [])
  | .verifyDelivery n =>
      match x.timers[n]? with
      | some r =>
          if r.due ≤ x.now then
            let (t, sent) := x.tracker.verifyDelivery s (s.trackedRequestCode, r.remote) r.remote
            ({ x with tracker := t, timers := x.timers.eraseIdx n }, sent)
          else (x, [])
      | none => (x, [])

/-- The state after an event. -/
def after (e : Event Address) : Tracking Address := (x.step s e).1

/-! ## Prompt peers -/

variable {s} {x} {p : Address}

/-- A response of the peer `p`. -/
def IsResponse (s : RequestTrackerSettings) (p : Address) (m : SpecMessage Address) : Prop :=
  m.spec.messageCode = s.trackedResponseCode ∧ m.source = some p

/-- A response of the peer answers a request to it that it has not answered yet. -/
def Answers (s : RequestTrackerSettings) (p : Address) (x : Tracking Address) :
    Event Address → Prop
  | .input _ (.message m) request =>
      IsResponse s p m → ∃ r ∈ x.unanswered, r.number = request ∧ r.remote = p
  | _ => True

/-- The peer answers once, and before the timeout of the request is over. -/
def Prompt (s : RequestTrackerSettings) (p : Address) (x : Tracking Address) (e : Event Address) :
    Prop :=
  Answers s p x e ∧ ∀ r ∈ (x.after s e).unanswered, r.remote = p → (x.after s e).now < r.due

/-- The responses of the peer go to the handler. -/
def Forwards (s : RequestTrackerSettings) (p : Address) (x : Tracking Address) :
    Event Address → Prop
  | .input fromController (.message m) request => IsResponse s p m →
      (x.step s (.input fromController (.message m) request)).2 = x.tracker.tellHandler (.message m)
  | _ => True

/-- The peer is not punished, and its responses go to the handler. -/
def Unpunished (s : RequestTrackerSettings) (p : Address) (x : Tracking Address)
    (e : Event Address) : Prop :=
  (∀ penalty, Output.penalizePeer p penalty ∉ (x.step s e).2) ∧ Forwards s p x e

/-- How many requests the peer has not answered. -/
def owed (p : Address) (x : Tracking Address) : ℕ := x.unanswered.countP fun r => r.remote = p

/-- No request is sent to the peer while it has not answered another, and no timer of a
request that it has answered fires while it has not answered another. -/
def InOrder (p : Address) (x : Tracking Address) : Event Address → Prop
  | .filteredConnectedPeers n peers => ∀ question, x.asked[n]? = some question →
      p ∈ peers → x.owed p + peers.count p ≤ 1
  | .verifyDelivery n => ∀ r, x.timers[n]? = some r → r.due ≤ x.now → r.remote = p →
      r ∉ x.unanswered → x.owed p = 0
  | _ => True

/-- Whether the tracker remembers the peer, as a number. -/
def marks (s : RequestTrackerSettings) (p : Address) (x : Tracking Address) : ℕ :=
  if (s.trackedRequestCode, p) ∈ x.tracker.requestTracker then 1 else 0

/-- What an event does to the requests that the peer owes an answer to, and to the memory of
the tracker. -/
inductive Effect (s : RequestTrackerSettings) (p : Address) (x : Tracking Address)
    (e : Event Address) : Prop where
  | quiet (howed : (x.after s e).owed p = x.owed p) (hmarks : (x.after s e).marks s p = x.marks s p)
      (hunpunished : Unpunished s p x e) (horder : InOrder p x e)
  | answered (howed : (x.after s e).owed p + 1 = x.owed p) (hmarks : (x.after s e).marks s p = 0)
      (hunpunished : Unpunished s p x e ↔ x.marks s p = 1) (horder : InOrder p x e)
  | requested (count : ℕ) (hcount : 0 < count) (howed : (x.after s e).owed p = x.owed p + count)
      (hmarks : (x.after s e).marks s p = 1) (hunpunished : Unpunished s p x e)
      (horder : InOrder p x e ↔ x.owed p + count ≤ 1)
  | stale (howed : (x.after s e).owed p = x.owed p) (hmarks : (x.after s e).marks s p = 0)
      (hunpunished : x.marks s p = 0 → Unpunished s p x e)
      (horder : InOrder p x e ↔ x.owed p = 0)

/-! ### Messages -/

omit [DecidableEq Address] in
theorem not_penalizePeer_mem_tellHandler {t : RequestTracker Address} {any : Input Address}
    {penalty : PenaltyType} : Output.penalizePeer p penalty ∉ t.tellHandler any := by
  simp [tellHandler]

omit [DecidableEq Address] in
theorem not_penalizePeer_mem_forward {t : RequestTracker Address} {fromController : Bool}
    {any : Input Address} {penalty : PenaltyType} :
    Output.penalizePeer p penalty ∉ t.forward fromController any := by
  rw [forward]
  split
  · exact not_penalizePeer_mem_tellHandler
  · simp

/-- Removing a counted element counts one less. -/
theorem countP_eraseP_add_one {α : Type} {l : List α} {found counted : α → Bool}
    (h : ∀ a, found a = true → counted a = true) (hex : ∃ a ∈ l, found a = true) :
    (l.eraseP found).countP counted + 1 = l.countP counted := by
  obtain ⟨a, hmem, ha⟩ := hex
  obtain ⟨a, l₁, l₂, -, ha, rfl, herase⟩ := List.exists_of_eraseP hmem ha
  rw [herase, List.countP_append, List.countP_append, List.countP_cons_of_pos (h a ha)]
  omega

/-- Removing an element that is not counted changes nothing. -/
theorem countP_eraseP_eq {α : Type} {l : List α} {found counted : α → Bool}
    (h : ∀ a, found a = true → counted a = false) :
    (l.eraseP found).countP counted = l.countP counted := by
  obtain hsame | ⟨a, l₁, l₂, -, ha, rfl, herase⟩ := List.exists_or_eq_self_of_eraseP found l
  · rw [hsame]
  · rw [herase, List.countP_append, List.countP_append,
      List.countP_cons_of_neg (by simp [h a ha])]

/-- The handlers leave a peer alone whose response it is not. -/
theorem receive_other (t : RequestTracker Address) (fromController : Bool)
    {any : Input Address} (hnot : ∀ m, any = .message m → ¬IsResponse s p m) :
    (∀ penalty, Output.penalizePeer p penalty ∉ (t.receive s fromController any).2) ∧
      ((s.trackedRequestCode, p) ∈ (t.receive s fromController any).1.requestTracker ↔
        (s.trackedRequestCode, p) ∈ t.requestTracker) := by
  cases any with
  | registerMessageSpecs specs handler => exact ⟨by simp [receive], Iff.rfl⟩
  | sendToNetwork m strategy =>
    rw [receive]
    split
    · exact ⟨by simp, Iff.rfl⟩
    · exact ⟨fun _ => not_penalizePeer_mem_forward, Iff.rfl⟩
  | any content => exact ⟨fun _ => not_penalizePeer_mem_forward, Iff.rfl⟩
  | message m =>
    cases hsource : m.source with
    | none =>
      simp only [receive, hsource]
      exact ⟨fun _ => not_penalizePeer_mem_forward, trivial⟩
    | some remote =>
      by_cases hcode : m.spec.messageCode = s.trackedResponseCode
      · have hremote : p ≠ remote := by
          rintro rfl
          exact hnot m rfl ⟨hcode, hsource⟩
        simp only [receive, hsource, hcode, if_true, receiveResponse]
        split
        · refine ⟨fun _ => not_penalizePeer_mem_tellHandler, ?_⟩
          simp [hremote]
        · simp [hremote]
      · simp only [receive, hsource, hcode, if_false]
        exact ⟨fun _ => not_penalizePeer_mem_forward, trivial⟩

theorem owed_noted_other {any : Input Address} {request : ℕ}
    (hnot : ∀ m, any = .message m → ¬IsResponse s p m) :
    (x.noted s any request).owed p = x.owed p := by
  cases any with
  | message m =>
    rw [noted]
    split
    · rename_i hcode
      refine countP_eraseP_eq fun r hr => ?_
      simp only [decide_eq_true_eq, decide_eq_false_iff_not] at hr ⊢
      rintro rfl
      exact hnot m rfl ⟨hcode, hr.2⟩
    · rfl
  | sendToNetwork m strategy =>
    rw [noted]
    split <;> rfl
  | _ => rfl

/-- An input that is no response of the peer. -/
theorem effect_input_other {fromController : Bool} {any : Input Address} {request : ℕ}
    (hnot : ∀ m, any = .message m → ¬IsResponse s p m) :
    Effect s p x (.input fromController any request) := by
  obtain ⟨hpenalty, hmarks⟩ := receive_other x.tracker fromController hnot
  refine .quiet (owed_noted_other hnot) ?_ ⟨hpenalty, ?_⟩ trivial
  · simp only [marks, after, step, hmarks]
  · cases any with
    | message m => exact fun hresponse => absurd hresponse (hnot m rfl)
    | _ => trivial

/-- A response of the peer. -/
theorem effect_response {fromController : Bool} {m : SpecMessage Address} {request : ℕ}
    (hresponse : IsResponse s p m)
    (hanswers : Answers s p x (.input fromController (.message m) request)) :
    Effect s p x (.input fromController (.message m) request) := by
  obtain ⟨r, hr, hnumber, hremote⟩ := hanswers hresponse
  obtain ⟨hcode, hsource⟩ := hresponse
  have hreceive : x.step s (.input fromController (.message m) request) =
      ({ x.noted s (.message m) request with tracker := (x.tracker.receiveResponse s m p).1 },
        (x.tracker.receiveResponse s m p).2) := by
    simp only [step, receive, hsource, hcode, if_true]
  have howed : (x.after s (.input fromController (.message m) request)).owed p + 1 = x.owed p := by
    rw [after, hreceive, owed, owed, noted, if_pos hcode]
    refine countP_eraseP_add_one (fun a ha => ?_) ⟨r, hr, by simp [hnumber, hremote, hsource]⟩
    simp only [decide_eq_true_eq] at ha ⊢
    exact (Option.some.inj (hsource.symm.trans ha.2)).symm
  refine .answered howed ?_ ?_ trivial
  · rw [after, hreceive, marks, receiveResponse]
    split <;> simp [*]
  · rw [Unpunished, Forwards, hreceive, receiveResponse, marks]
    split
    · simp [not_penalizePeer_mem_tellHandler]
    · simp

/-! ### Requests and timers -/

/-- Sending to a list of peers: what one of them owes, and that it is remembered. -/
theorem foldl_sendTo (start : ℤ) (peers : List Address) :
    (peers.foldl (sendTo s start) x).owed p = x.owed p + peers.count p ∧
      (peers.foldl (sendTo s start) x).marks s p = if p ∈ peers then 1 else x.marks s p := by
  induction peers generalizing x with
  | nil => simp
  | cons peer peers ih =>
    obtain ⟨howed, hmarks⟩ := ih (x := sendTo s start x peer)
    rw [List.foldl_cons, howed, hmarks]
    have hone : (sendTo s start x peer).owed p = x.owed p + if peer = p then 1 else 0 := by
      simp only [owed, sendTo, List.countP_append, List.countP_singleton, decide_eq_true_eq]
    constructor
    · rw [hone, List.count_cons]
      simp only [beq_iff_eq]
      omega
    · by_cases hpeer : p = peer
      · simp [hpeer, marks, sendTo]
      · simp [hpeer, marks, sendTo]

theorem effect_filteredConnectedPeers (n : ℕ) (peers : List Address) :
    Effect s p x (.filteredConnectedPeers n peers) := by
  cases hasked : x.asked[n]? with
  | none =>
    have hstep : x.step s (.filteredConnectedPeers n peers) = (x, []) := by
      simp only [step, hasked]
    refine .quiet ?_ ?_ ⟨?_, trivial⟩ fun question hquestion => ?_
    · rw [after, hstep]
    · rw [after, hstep]
    · simp [hstep]
    · rw [hasked] at hquestion
      cases hquestion
  | some question =>
    obtain ⟨start, m⟩ := question
    have hstep : x.step s (.filteredConnectedPeers n peers) =
        (peers.foldl (sendTo s start) { x with asked := x.asked.eraseIdx n },
          peers.map fun peer => .sendToNetwork m (.sendToPeer peer)) := by
      simp only [step, hasked]
    have hunpunished : Unpunished s p x (.filteredConnectedPeers n peers) :=
      ⟨by simp [hstep], trivial⟩
    obtain ⟨howed, hmarks⟩ := foldl_sendTo (s := s) (p := p)
      (x := { x with asked := x.asked.eraseIdx n }) start peers
    by_cases hp : p ∈ peers
    · refine .requested (peers.count p) (List.count_pos_iff.2 hp) ?_ ?_ hunpunished ?_
      · rw [after, hstep]
        exact howed
      · rw [after, hstep, hmarks, if_pos hp]
      · exact ⟨fun horder => horder _ hasked hp, fun hle _ _ _ => hle⟩
    · rw [List.count_eq_zero_of_not_mem hp, Nat.add_zero] at howed
      rw [if_neg hp] at hmarks
      refine .quiet ?_ ?_ hunpunished fun _ _ hp' => absurd hp' hp
      · rw [after, hstep]
        exact howed
      · rw [after, hstep]
        exact hmarks

/-- A request that is due is not one that a prompt peer owes an answer to. -/
theorem effect_verifyDelivery (htimely : ∀ r ∈ x.unanswered, r.remote = p → x.now < r.due)
    (n : ℕ) : Effect s p x (.verifyDelivery n) := by
  by_cases hfires : ∃ r, x.timers[n]? = some r ∧ r.due ≤ x.now
  · obtain ⟨r, htimer, hdue⟩ := hfires
    have hstep : x.step s (.verifyDelivery n) =
        ({ x with
            tracker := (x.tracker.verifyDelivery s (s.trackedRequestCode, r.remote) r.remote).1
            timers := x.timers.eraseIdx n },
          (x.tracker.verifyDelivery s (s.trackedRequestCode, r.remote) r.remote).2) := by
      simp only [step, htimer, hdue, if_true]
    have howed : (x.after s (.verifyDelivery n)).owed p = x.owed p := by
      rw [after, hstep, owed, owed]
    by_cases hremote : r.remote = p
    · have hanswered : r ∉ x.unanswered := fun hr =>
        absurd (htimely r hr hremote) (not_lt.2 hdue)
      refine .stale howed ?_ (fun hmarks => ⟨?_, trivial⟩) ?_
      · simp [after, hstep, marks, RequestTracker.verifyDelivery, hremote]
      · rw [marks] at hmarks
        simp only [hstep, RequestTracker.verifyDelivery, hremote]
        split at hmarks
        · cases hmarks
        · rename_i hnot
          simp [hnot]
      · refine ⟨fun horder => horder r htimer hdue hremote hanswered, fun hzero _ _ _ _ _ => hzero⟩
    · refine .quiet howed ?_ ⟨?_, trivial⟩ ?_
      · simp [after, hstep, marks, RequestTracker.verifyDelivery, Ne.symm hremote]
      · intro penalty
        simp only [hstep, RequestTracker.verifyDelivery]
        split <;> simp [Ne.symm hremote]
      · intro r' htimer' _ hremote'
        obtain rfl := Option.some.inj (htimer.symm.trans htimer')
        exact absurd hremote' hremote
  · have hstep : x.step s (.verifyDelivery n) = (x, []) := by
      cases htimer : x.timers[n]? with
      | none => simp only [step, htimer]
      | some r =>
        have hdue : ¬r.due ≤ x.now := fun hdue => hfires ⟨r, htimer, hdue⟩
        simp only [step, htimer, hdue, if_false]
    refine .quiet ?_ ?_ ⟨?_, trivial⟩ fun r htimer hdue => absurd ⟨r, htimer, hdue⟩ hfires
    · rw [after, hstep]
    · rw [after, hstep]
    · simp [hstep]

/-- **What one event does** to a prompt peer. -/
theorem effect (htimely : ∀ r ∈ x.unanswered, r.remote = p → x.now < r.due) {e : Event Address}
    (hprompt : Prompt s p x e) : Effect s p x e := by
  cases e with
  | wait elapsed => exact .quiet rfl rfl ⟨by simp [step], trivial⟩ trivial
  | filteredConnectedPeers n peers => exact effect_filteredConnectedPeers n peers
  | verifyDelivery n => exact effect_verifyDelivery htimely n
  | input fromController any request =>
    by_cases hresponse : ∃ m, any = .message m ∧ IsResponse s p m
    · obtain ⟨m, rfl, hm⟩ := hresponse
      exact effect_response hm hprompt.1
    · exact effect_input_other fun m hm hresponse' => hresponse ⟨m, hm, hresponse'⟩

/-! ### Runs -/

/-- What holds of a prompt peer: its requests are not due, and it is not remembered without
one. -/
structure Owes (s : RequestTrackerSettings) (p : Address) (x : Tracking Address) : Prop where
  timely : ∀ r ∈ x.unanswered, r.remote = p → x.now < r.due
  marks_le : x.marks s p ≤ x.owed p

theorem marks_le_one : x.marks s p ≤ 1 := by
  rw [marks]
  split <;> omega

theorem Owes.kept (h : Owes s p x) {e : Event Address} (hprompt : Prompt s p x e) :
    Owes s p (x.after s e) := by
  refine ⟨hprompt.2, ?_⟩
  have hle := h.marks_le
  cases effect h.timely hprompt with
  | quiet howed hmarks => omega
  | answered howed hmarks => omega
  | requested count hcount howed hmarks => omega
  | stale howed hmarks => omega

/-- In order, the peer is remembered just as long as it owes an answer. -/
theorem Owes.unpunished (h : Owes s p x) (heq : x.owed p = x.marks s p) {e : Event Address}
    (hprompt : Prompt s p x e) (horder : InOrder p x e) :
    Unpunished s p x e ∧ (x.after s e).owed p = (x.after s e).marks s p := by
  have hone := marks_le_one (s := s) (x := x) (p := p)
  cases effect h.timely hprompt with
  | quiet howed hmarks hunpunished => exact ⟨hunpunished, by omega⟩
  | answered howed hmarks hunpunished => exact ⟨hunpunished.2 (by omega), by omega⟩
  | requested count hcount howed hmarks hunpunished horder' =>
    have hle := horder'.1 horder
    exact ⟨hunpunished, by omega⟩
  | stale howed hmarks hunpunished horder' =>
    have hzero := horder'.1 horder
    exact ⟨hunpunished (by omega), by omega⟩

/-- A peer that is not punished falls behind, once it is out of order, for good. -/
theorem Owes.behind (h : Owes s p x) {e : Event Address} (hprompt : Prompt s p x e)
    (hunpunished : Unpunished s p x e) :
    x.owed p - x.marks s p ≤ (x.after s e).owed p - (x.after s e).marks s p ∧
      (¬InOrder p x e → 0 < (x.after s e).owed p - (x.after s e).marks s p) := by
  have hone := marks_le_one (s := s) (x := x) (p := p)
  have hle := h.marks_le
  cases effect h.timely hprompt with
  | quiet howed hmarks _ horder => exact ⟨by omega, fun hnot => absurd horder hnot⟩
  | answered howed hmarks hiff horder =>
    have hmarked := hiff.1 hunpunished
    exact ⟨by omega, fun hnot => absurd horder hnot⟩
  | requested count hcount howed hmarks _ horder =>
    refine ⟨by omega, fun hnot => ?_⟩
    rw [horder] at hnot
    omega
  | stale howed hmarks _ horder =>
    refine ⟨by omega, fun hnot => ?_⟩
    rw [horder] at hnot
    omega

theorem Owes.unpunished_along (h : Owes s p x) (heq : x.owed p = x.marks s p)
    {events : List (Event Address)} (hprompt : Along (after s) (Prompt s p) x events)
    (horder : Along (after s) (InOrder p) x events) :
    Along (after s) (Unpunished s p) x events := by
  induction events generalizing x with
  | nil => trivial
  | cons e events ih =>
    obtain ⟨hunpunished, heq'⟩ := h.unpunished heq hprompt.1 horder.1
    exact ⟨hunpunished, ih (h.kept hprompt.1) heq' hprompt.2 horder.2⟩

theorem Owes.behind_along (h : Owes s p x) {events : List (Event Address)}
    (hprompt : Along (after s) (Prompt s p) x events)
    (hunpunished : Along (after s) (Unpunished s p) x events) :
    x.owed p - x.marks s p ≤
      (events.foldl (after s) x).owed p - (events.foldl (after s) x).marks s p := by
  induction events generalizing x with
  | nil => exact le_rfl
  | cons e events ih =>
    exact (h.behind hprompt.1 hunpunished.1).1.trans
      (ih (h.kept hprompt.1) hprompt.2 hunpunished.2)

theorem Owes.inOrder_along (h : Owes s p x) {events : List (Event Address)}
    (hprompt : Along (after s) (Prompt s p) x events)
    (hunpunished : Along (after s) (Unpunished s p) x events)
    (hall : (events.foldl (after s) x).owed p = 0) : Along (after s) (InOrder p) x events := by
  induction events generalizing x with
  | nil => trivial
  | cons e events ih =>
    have hafter := h.kept hprompt.1
    refine ⟨?_, ih hafter hprompt.2 hunpunished.2 hall⟩
    by_contra hnot
    have hbehind := (h.behind hprompt.1 hunpunished.1).2 hnot
    have hlater := hafter.behind_along hprompt.2 hunpunished.2
    rw [List.foldl_cons] at hall
    omega

theorem owes_empty : Owes s p (empty : Tracking Address) :=
  ⟨fun _ hr => (by cases hr), by simp [marks, empty, RequestTracker.empty]⟩

/-- **A prompt peer is not punished**, and all its responses go to the handler, as long as its
requests are in order; in a run at the end of which it has answered all of them, only then. -/
theorem prompt_unpunished (s : RequestTrackerSettings) (p : Address)
    (events : List (Event Address)) (hprompt : Along (after s) (Prompt s p) empty events) :
    (Along (after s) (InOrder p) empty events → Along (after s) (Unpunished s p) empty events) ∧
      ((events.foldl (after s) empty).owed p = 0 →
        Along (after s) (Unpunished s p) empty events →
          Along (after s) (InOrder p) empty events) := by
  refine ⟨fun horder => owes_empty.unpunished_along ?_ hprompt horder,
    fun hall hunpunished => owes_empty.inOrder_along hprompt hunpunished hall⟩
  simp [owed, marks, empty, RequestTracker.empty]

/-! ### One request, and two that overlap -/

/-- A tracker of requests with code 1 and responses with code 2. -/
def twoCodes : RequestTrackerSettings := ⟨1, 2, 10, true⟩

/-- A request is sent to peer 1. -/
def requestSent : List (Event ℕ) :=
  [.input false (.sendToNetwork ⟨⟨1, ⟨0, 0, 1⟩⟩, [], none⟩ .sendToRandom) 0,
    .filteredConnectedPeers 0 [1]]

/-- Peer 1 answers the request with a given number. -/
def responseReceived (request : ℕ) : Event ℕ :=
  .input true (.message ⟨⟨2, ⟨0, 0, 1⟩⟩, [], some 1⟩) request

/-- A request is answered before its timer fires. -/
theorem one_request :
    Along (after twoCodes) (Unpunished twoCodes 1) empty
      (requestSent ++ [responseReceived 0, .wait 10, .verifyDelivery 0]) := by
  refine (prompt_unpunished twoCodes 1 _ ?_).1 ?_
  · exact ⟨⟨trivial, by decide⟩, ⟨trivial, by decide⟩,
      ⟨fun _ => ⟨⟨0, 10, 1⟩, by decide, rfl, rfl⟩, by decide⟩, ⟨trivial, by decide⟩,
      ⟨trivial, by decide⟩, trivial⟩
  · exact ⟨trivial, fun _ _ _ => by decide, trivial, trivial, fun _ _ _ _ _ => by decide, trivial⟩

/-- Two requests overlap, and the second response is taken for spam. -/
theorem second_response_punished :
    ¬∀ (s : RequestTrackerSettings) (p : ℕ) (events : List (Event ℕ)),
      Along (after s) (Prompt s p) empty events →
        Along (after s) (Unpunished s p) empty events := by
  intro h
  have hall := h twoCodes 1
    (requestSent ++ requestSent ++ [responseReceived 0, responseReceived 1])
    ⟨⟨trivial, by decide⟩, ⟨trivial, by decide⟩, ⟨trivial, by decide⟩, ⟨trivial, by decide⟩,
      ⟨fun _ => ⟨⟨0, 10, 1⟩, by decide, rfl, rfl⟩, by decide⟩,
      ⟨fun _ => ⟨⟨1, 10, 1⟩, by decide, rfl, rfl⟩, by decide⟩, trivial⟩
  obtain ⟨-, -, -, -, -, ⟨hpenalty, -⟩, -⟩ := hall
  exact hpenalty .spamPenalty (by decide)

end Tracking

end Sparkz.Network
