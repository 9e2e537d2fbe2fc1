import Mathlib.Data.Set.Basic
import Mathlib.Order.Bounds.Basic
import Mathlib.Data.List.Basic
import Mathlib.Tactic

/-!
# Writes that are retried

A sender numbers its writes and sends them to a receiver that takes one write at a time:
a write that comes while another one is pending, or while writing is suspended, is
rejected and suspends writing until the receiver is told to resume.  The sender collects
the writes that were rejected in a buffer, and tries its smallest one again after every
acknowledgement and after every resumption; it sends nothing new while the buffer is not
empty.  Commands and replies come in the order in which they were sent.

* `RetriedWrites`, `Step` — the sender, the receiver and the messages between them.  A
  write is marked as fresh when it is sent for the first time.  A write that was accepted
  before is not accepted again: this is a condition on the runs, not a property of them.
* `Good` — the invariant.  The fresh writes stand together among the commands, those that
  were rejected come before them, and nothing resumes writing in between.
* `Good.step`, `accepted_increasing` — the writes are accepted in their order.
-/

namespace Sparkz.Lib

/-- What the sender tells the receiver. -/
inductive RetriedWrites.Command where
  | fresh (id : ℕ)
  | again (id : ℕ)
  | resume
  deriving DecidableEq

/-- What the receiver answers. -/
inductive RetriedWrites.Reply where
  | ack (id : ℕ)
  | failed (id : ℕ)
  | failedAgain (id : ℕ)
  | notice
  deriving DecidableEq

open RetriedWrites

/-- The sender, the receiver and what is on its way between them. -/
structure RetriedWrites where
  buffering : Bool
  buffer : Set ℕ
  counter : ℕ
  commands : List Command
  replies : List Reply
  pending : Option ℕ
  suspended : Bool
  accepted : List ℕ

namespace RetriedWrites

/-- Nothing has been sent; the next write has the number after `base`. -/
def start (base : ℕ) : RetriedWrites where
  buffering := false
  buffer := ∅
  counter := base
  commands := []
  replies := []
  pending := none
  suspended := false
  accepted := []

/-- The steps of the sender and of the receiver. -/
inductive Step (s : RetriedWrites) : RetriedWrites → Prop
  | send (h : s.buffering = false) :
      Step s { s with
        counter := s.counter + 1
        commands := s.commands ++ [.fresh (s.counter + 1)] }
  | keep (h : s.buffering = true) :
      Step s { s with
        counter := s.counter + 1
        buffer := insert (s.counter + 1) s.buffer }
  | failed {b : ℕ} {rs : List Reply} (h : s.replies = .failed b :: rs) :
      Step s { s with
        replies := rs
        buffer := insert b s.buffer
        buffering := true
        commands := s.commands ++ [.resume] }
  | failedAgain {b : ℕ} {rs : List Reply} (h : s.replies = .failedAgain b :: rs) :
      Step s { s with
        replies := rs
        buffer := insert b s.buffer
        buffering := true
        commands := s.commands ++ [.resume] }
  | notice {rs : List Reply} (h : s.replies = .notice :: rs) : Step s { s with replies := rs }
  | retry {rs : List Reply} {b : ℕ} (h : s.replies = .notice :: rs) (hb : s.buffering = true)
      (hleast : IsLeast s.buffer b) :
      Step s { s with
        replies := rs
        commands := s.commands ++ [.again b] }
  | ackWriting {i : ℕ} {rs : List Reply} (h : s.replies = .ack i :: rs)
      (hb : s.buffering = false) : Step s { s with replies := rs }
  | ackNext {i b : ℕ} {rs : List Reply} (h : s.replies = .ack i :: rs) (hb : s.buffering = true)
      (hleast : IsLeast (s.buffer \ {i}) b) :
      Step s { s with
        replies := rs
        buffer := s.buffer \ {i}
        commands := s.commands ++ [.again b] }
  | ackLast {i : ℕ} {rs : List Reply} (h : s.replies = .ack i :: rs) (hb : s.buffering = true)
      (hempty : s.buffer \ {i} = ∅) :
      Step s { s with
        replies := rs
        buffer := s.buffer \ {i}
        buffering := false }
  | rejectFresh {b : ℕ} {cs : List Command} (h : s.commands = .fresh b :: cs) :
      Step s { s with
        commands := cs
        replies := s.replies ++ [.failed b]
        suspended := true }
  | rejectAgain {b : ℕ} {cs : List Command} (h : s.commands = .again b :: cs) :
      Step s { s with
        commands := cs
        replies := s.replies ++ [.failedAgain b]
        suspended := true }
  | acceptFresh {b : ℕ} {cs : List Command} (h : s.commands = .fresh b :: cs)
      (hp : s.pending = none) (hs : s.suspended = false) (hnew : b ∉ s.accepted) :
      Step s { s with
        commands := cs
        pending := some b
        accepted := s.accepted ++ [b] }
  | acceptAgain {b : ℕ} {cs : List Command} (h : s.commands = .again b :: cs)
      (hp : s.pending = none) (hs : s.suspended = false) (hnew : b ∉ s.accepted) :
      Step s { s with
        commands := cs
        pending := some b
        accepted := s.accepted ++ [b] }
  | resume {cs : List Command} (h : s.commands = .resume :: cs) :
      Step s { s with
        commands := cs
        suspended := false }
  | complete {b : ℕ} (h : s.pending = some b) :
      Step s { s with
        replies := s.replies ++ [.ack b]
        pending := none }
  | note : Step s { s with replies := s.replies ++ [.notice] }

/-- The fresh writes among the rejected ones. -/
def failedIds (replies : List Reply) : List ℕ :=
  replies.filterMap fun
    | .failed b => some b
    | _ => none

/-- The writes that are acknowledged. -/
def ackIds (replies : List Reply) : List ℕ :=
  replies.filterMap fun
    | .ack i => some i
    | _ => none

@[simp] theorem failedIds_append (l l' : List Reply) :
    failedIds (l ++ l') = failedIds l ++ failedIds l' := List.filterMap_append

@[simp] theorem ackIds_append (l l' : List Reply) : ackIds (l ++ l') = ackIds l ++ ackIds l' :=
  List.filterMap_append

theorem mem_failedIds {b : ℕ} {l : List Reply} : b ∈ failedIds l ↔ .failed b ∈ l := by
  rw [failedIds, List.mem_filterMap]
  constructor
  · rintro ⟨r, hr, h⟩
    cases r with
    | failed b' => rwa [← Option.some.inj h]
    | _ => cases h
  · intro h
    exact ⟨_, h, rfl⟩

theorem mem_ackIds {i : ℕ} {l : List Reply} : i ∈ ackIds l ↔ .ack i ∈ l := by
  rw [ackIds, List.mem_filterMap]
  constructor
  · rintro ⟨r, hr, h⟩
    cases r with
    | ack i' => rwa [← Option.some.inj h]
    | _ => cases h
  · intro h
    exact ⟨_, h, rfl⟩

/-- The writes up to `k` were accepted.  Among the commands the fresh writes `fs` stand
together, behind `old` and before `new`. -/
structure Good (base : ℕ) (s : RetriedWrites) (k : ℕ) (old : List Command) (fs : List ℕ)
    (new : List Command) : Prop where
  commands : s.commands = old ++ (fs.map .fresh ++ new)
  noneOld : ∀ b, .fresh b ∉ old
  noneNew : ∀ b, .fresh b ∉ new
  counted : base ≤ k ∧ k ≤ s.counter
  accepted : ∀ x, x ∈ s.accepted ↔ base < x ∧ x ≤ k
  increasing : s.accepted.Pairwise (· < ·)
  order : (failedIds s.replies ++ fs).Pairwise (· < ·)
  range : ∀ x ∈ failedIds s.replies ++ fs, k < x ∧ x ≤ s.counter ∧ x ∉ s.buffer
  cover : ∀ x, k < x → x ≤ s.counter → x ∈ s.buffer ∨ x ∈ failedIds s.replies ++ fs
  buffered : ∀ b ∈ s.buffer, base < b ∧ b ≤ s.counter
  writing : s.buffering = false → new = [] ∧ s.buffer = ∅
  nonempty : s.buffering = true → s.buffer.Nonempty
  least : s.buffering = true → ∀ x ∈ failedIds s.replies ++ fs, ∃ b ∈ s.buffer, b < x
  blocked : ∀ x y, k < x → x ∈ s.buffer ∨ .failed x ∈ s.replies → y ∈ fs → x < y →
    s.suspended = true ∧ .resume ∉ old
  failing : s.buffering = false → ∀ x, .failed x ∈ s.replies →
    s.suspended = true ∧ .resume ∉ old
  again : ∀ b, .again b ∈ s.commands → base < b ∧ (k < b → b = k + 1 ∧ b ∈ s.buffer)
  againOld : ∀ b, .again b ∈ old → k < b → fs = []
  failedAgain : ∀ b, .failedAgain b ∈ s.replies → base < b ∧ (k < b → b ∈ s.buffer)
  stale : ∀ b ≤ k, .again b ∈ s.commands ∨ .failedAgain b ∈ s.replies → b ∉ s.buffer →
    .ack b ∉ s.replies ∧ s.pending ≠ some b
  acks : (ackIds s.replies ++ s.pending.toList).Nodup
  acked : ∀ i, .ack i ∈ s.replies ∨ s.pending = some i → base < i ∧ i ≤ k
  ackBuffered : ∀ i, .ack i ∈ s.replies ∨ s.pending = some i → i ∈ s.buffer → fs = []
  ackBehind : s.replies.Pairwise fun r r' => ∀ i x, r = .ack i → i ∈ s.buffer → r' ≠ .failed x

theorem mem_of_tail {α : Type} {l l' : List α} {a : α} (h : l = a :: l') : ∀ b ∈ l', b ∈ l := by
  intro b hb
  rw [h]
  exact List.mem_cons_of_mem _ hb

theorem good_start (base : ℕ) : Good base (start base) base [] [] [] := by
  constructor <;> simp [start, failedIds, ackIds]

/-! ## The sender -/

section Sender

variable {base k : ℕ} {s : RetriedWrites} {old new : List Command} {fs : List ℕ}

/-- A new write is sent. -/
theorem Good.send (h : Good base s k old fs new) (hb : s.buffering = false) :
    Good base { s with
      counter := s.counter + 1
      commands := s.commands ++ [.fresh (s.counter + 1)] } k old (fs ++ [s.counter + 1]) [] := by
  obtain ⟨hnew, hempty⟩ := h.writing hb
  subst hnew
  have hcommands : s.commands = old ++ fs.map .fresh := by rw [h.commands, List.append_nil]
  have hno : ∀ x, x ∉ s.buffer := by simp [hempty]
  refine { h with
    commands := ?_, noneNew := ?_, counted := ?_, order := ?_, range := ?_, cover := ?_,
    buffered := ?_, writing := ?_, least := ?_, blocked := ?_, again := ?_, againOld := ?_,
    stale := ?_, ackBuffered := ?_ }
  · simp [hcommands]
  · simp
  · exact ⟨h.counted.1, Nat.le_succ_of_le h.counted.2⟩
  · rw [← List.append_assoc, List.pairwise_append]
    refine ⟨h.order, List.pairwise_singleton _ _, ?_⟩
    intro x hx y hy
    rw [List.mem_singleton.1 hy]
    exact Nat.lt_succ_of_le (h.range x hx).2.1
  · intro x hx
    rw [← List.append_assoc, List.mem_append, List.mem_singleton] at hx
    obtain hx | rfl := hx
    · obtain ⟨hk, hc, hn⟩ := h.range x hx
      exact ⟨hk, Nat.le_succ_of_le hc, hn⟩
    · exact ⟨Nat.lt_succ_of_le h.counted.2, Nat.le_refl _, hno _⟩
  · intro x hk hc
    rw [← List.append_assoc, List.mem_append, List.mem_singleton]
    have hc : x ≤ s.counter + 1 := hc
    obtain hc | rfl := Nat.le_succ_iff.1 hc
    · exact (h.cover x hk hc).imp_right .inl
    · exact .inr (.inr rfl)
  · exact fun b hmem => absurd hmem (hno b)
  · exact fun _ => ⟨rfl, hempty⟩
  · intro htrue
    exact absurd (hb.symm.trans htrue) Bool.false_ne_true
  · intro x y _ hx _ _
    obtain hx | hx := hx
    · exact absurd hx (hno x)
    · exact h.failing hb x hx
  · intro b hmem
    rw [List.mem_append, List.mem_singleton] at hmem
    obtain hmem | hmem := hmem
    · exact h.again b hmem
    · cases hmem
  · intro b hmem hk
    have hin : .again b ∈ s.commands := by rw [hcommands]; exact List.mem_append_left _ hmem
    exact absurd ((h.again b hin).2 hk).2 (hno b)
  · intro b hk hmem
    rw [List.mem_append, List.mem_singleton] at hmem
    refine h.stale b hk (hmem.imp_left fun hmem => ?_)
    obtain hmem | hmem := hmem
    · exact hmem
    · cases hmem
  · exact fun i _ hmem => absurd hmem (hno i)

/-- A new write is kept in the buffer. -/
theorem Good.keep (h : Good base s k old fs new) (hb : s.buffering = true) :
    Good base { s with
      counter := s.counter + 1
      buffer := insert (s.counter + 1) s.buffer } k old fs new := by
  refine { h with
    counted := ?_, range := ?_, cover := ?_, buffered := ?_, writing := ?_, nonempty := ?_,
    least := ?_, blocked := ?_, again := ?_, failedAgain := ?_, stale := ?_, ackBuffered := ?_,
    ackBehind := ?_ }
  · exact ⟨h.counted.1, Nat.le_succ_of_le h.counted.2⟩
  · intro x hx
    obtain ⟨hk, hc, hn⟩ := h.range x hx
    refine ⟨hk, Nat.le_succ_of_le hc, ?_⟩
    rintro (rfl | hmem)
    · exact Nat.not_succ_le_self _ hc
    · exact hn hmem
  · intro x hk hc
    obtain hc | rfl := Nat.le_succ_iff.1 hc
    · exact (h.cover x hk hc).imp_left (Set.mem_insert_of_mem _)
    · exact .inl (Set.mem_insert _ _)
  · rintro b (rfl | hmem)
    · exact ⟨Nat.lt_succ_of_le (h.counted.1.trans h.counted.2), Nat.le_refl _⟩
    · exact ⟨(h.buffered b hmem).1, Nat.le_succ_of_le (h.buffered b hmem).2⟩
  · intro hfalse
    exact absurd (hb.symm.trans hfalse) (Bool.false_ne_true ·.symm)
  · exact fun _ => Set.insert_nonempty _ _
  · intro _ x hx
    obtain ⟨b, hmem, hlt⟩ := h.least hb x hx
    exact ⟨b, Set.mem_insert_of_mem _ hmem, hlt⟩
  · intro x y hk hx hy hlt
    have hyc : y ≤ s.counter := (h.range y (List.mem_append_right _ hy)).2.1
    refine h.blocked x y hk (hx.imp_left fun hx => ?_) hy hlt
    obtain rfl | hx := hx
    · omega
    · exact hx
  · intro b hmem
    exact ⟨(h.again b hmem).1, fun hk => ⟨((h.again b hmem).2 hk).1,
      Set.mem_insert_of_mem _ ((h.again b hmem).2 hk).2⟩⟩
  · intro b hmem
    exact ⟨(h.failedAgain b hmem).1,
      fun hk => Set.mem_insert_of_mem _ ((h.failedAgain b hmem).2 hk)⟩
  · intro b hk hmem hn
    exact h.stale b hk hmem fun hin => hn (Set.mem_insert_of_mem _ hin)
  · intro i hack hmem
    obtain rfl | hmem := hmem
    · have := (h.acked _ hack).2
      have := h.counted.2
      omega
    · exact h.ackBuffered i hack hmem
  · refine h.ackBehind.imp_of_mem ?_
    intro r r' hr _ hrr i x heq hmem
    obtain rfl | hmem := hmem
    · have := (h.acked (s.counter + 1) (.inl (heq ▸ hr))).2
      have := h.counted.2
      omega
    · exact hrr i x heq hmem

/-- A reply is dropped that says nothing about a write, or comes when it says nothing new. -/
theorem Good.drop (h : Good base s k old fs new) {r : Reply} {rs : List Reply}
    (hr : s.replies = r :: rs) (hfailed : ∀ b, r ≠ .failed b) :
    Good base { s with replies := rs } k old fs new := by
  have hids : failedIds s.replies = failedIds rs := by
    rw [hr]
    cases r with
    | failed b => exact absurd rfl (hfailed b)
    | _ => rfl
  have hsub := mem_of_tail hr
  refine { h with
    order := hids ▸ h.order, range := hids ▸ h.range, cover := hids ▸ h.cover,
    least := hids ▸ h.least, blocked := ?_, failing := ?_, failedAgain := ?_, stale := ?_,
    acks := ?_, acked := ?_, ackBuffered := ?_, ackBehind := ?_ }
  · intro x y hk hx
    exact h.blocked x y hk (hx.imp_right (hsub _))
  · intro hb x hx
    exact h.failing hb x (hsub _ hx)
  · intro b hmem
    exact h.failedAgain b (hsub _ hmem)
  · intro b hk hmem hn
    obtain ⟨hack, hp⟩ := h.stale b hk (hmem.imp_right (hsub _)) hn
    exact ⟨fun hmem => hack (hsub _ hmem), hp⟩
  · have hacks := h.acks
    rw [hr] at hacks
    refine hacks.sublist (List.Sublist.append_right ?_ _)
    exact (List.sublist_cons_self r rs).filterMap _
  · intro i hi
    exact h.acked i (hi.imp_left (hsub _))
  · intro i hi
    exact h.ackBuffered i (hi.imp_left (hsub _))
  · have hbehind := h.ackBehind
    rw [hr] at hbehind
    exact (List.pairwise_cons.1 hbehind).2

/-- A fresh write that was rejected comes into the buffer. -/
theorem Good.insertFailed (h : Good base s k old fs new) {b : ℕ} {rs : List Reply}
    (hr : s.replies = .failed b :: rs) :
    Good base { s with replies := rs, buffer := insert b s.buffer, buffering := true }
      k old fs new := by
  have hids : failedIds s.replies = b :: failedIds rs := by rw [hr]; rfl
  have hsub := mem_of_tail hr
  have horder := h.order
  rw [hids, List.cons_append, List.pairwise_cons] at horder
  obtain ⟨hfirst, horder⟩ := horder
  have hrange := h.range
  rw [hids, List.cons_append] at hrange
  obtain ⟨hk, hc, hn⟩ := hrange b (by simp)
  have hnotAcked : ∀ i, .ack i ∈ s.replies ∨ s.pending = some i → i ≠ b := by
    rintro i hi rfl
    exact absurd (h.acked i hi).2 (Nat.not_le_of_lt hk)
  refine { h with
    order := horder, range := ?_, cover := ?_, buffered := ?_, writing := ?_, nonempty := ?_,
    least := ?_, blocked := ?_, failing := ?_, again := ?_, failedAgain := ?_, stale := ?_,
    acks := ?_, acked := ?_, ackBuffered := ?_, ackBehind := ?_ }
  · intro x hx
    obtain ⟨hxk, hxc, hxn⟩ := hrange x (List.mem_cons_of_mem _ hx)
    refine ⟨hxk, hxc, ?_⟩
    rintro (rfl | hmem)
    · exact absurd (hfirst x hx) (Nat.lt_irrefl x)
    · exact hxn hmem
  · intro x hxk hxc
    obtain hx | hx := h.cover x hxk hxc
    · exact .inl (Set.mem_insert_of_mem _ hx)
    · rw [hids, List.cons_append, List.mem_cons] at hx
      obtain rfl | hx := hx
      · exact .inl (Set.mem_insert _ _)
      · exact .inr hx
  · rintro b' (rfl | hmem)
    · exact ⟨Nat.lt_of_le_of_lt h.counted.1 hk, hc⟩
    · exact h.buffered b' hmem
  · exact fun hfalse => absurd hfalse (by simp)
  · exact fun _ => Set.insert_nonempty _ _
  · exact fun _ x hx => ⟨b, Set.mem_insert _ _, hfirst x hx⟩
  · intro x y hxk hx
    refine h.blocked x y hxk ?_
    obtain (rfl | hx) | hx := hx
    · exact .inr (hr ▸ List.mem_cons_self ..)
    · exact .inl hx
    · exact .inr (hsub _ hx)
  · exact fun hfalse => absurd hfalse (by simp)
  · intro b' hmem
    obtain ⟨hbase, hnext⟩ := h.again b' hmem
    exact ⟨hbase, fun hk' => ⟨(hnext hk').1, Set.mem_insert_of_mem _ (hnext hk').2⟩⟩
  · intro b' hmem
    obtain ⟨hbase, hbuf⟩ := h.failedAgain b' (hsub _ hmem)
    exact ⟨hbase, fun hk' => Set.mem_insert_of_mem _ (hbuf hk')⟩
  · intro b' hk' hmem hn'
    obtain ⟨hack, hp⟩ := h.stale b' hk' (hmem.imp_right (hsub _))
      (fun hin => hn' (Set.mem_insert_of_mem _ hin))
    exact ⟨fun hmem => hack (hsub _ hmem), hp⟩
  · have hacks := h.acks
    rwa [hr] at hacks
  · exact fun i hi => h.acked i (hi.imp_left (hsub _))
  · intro i hi hmem
    have hi' := hi.imp_left (hsub (.ack i))
    exact h.ackBuffered i hi' (Set.mem_of_mem_insert_of_ne hmem (hnotAcked i hi'))
  · have hbehind := h.ackBehind
    rw [hr] at hbehind
    refine (List.pairwise_cons.1 hbehind).2.imp_of_mem ?_
    intro r r' hmem _ hrr i x heq hi
    exact hrr i x heq
      (Set.mem_of_mem_insert_of_ne hi (hnotAcked i (.inl (hsub _ (heq ▸ hmem)))))

/-- A write comes into the buffer that is in it already or was accepted before, and whose
acknowledgement is not on its way unless it is in the buffer. -/
theorem Good.insertBuffered (h : Good base s k old fs new) {b : ℕ} (hbase : base < b)
    (hlater : k < b → b ∈ s.buffer)
    (hstale : b ≤ k → b ∉ s.buffer → .ack b ∉ s.replies ∧ s.pending ≠ some b) :
    Good base { s with buffer := insert b s.buffer, buffering := true } k old fs new := by
  -- an acknowledgement that is on its way is not for a write that comes into the buffer
  have hacked : ∀ i, .ack i ∈ s.replies ∨ s.pending = some i → i ∈ insert b s.buffer →
      i ∈ s.buffer := by
    rintro i hi (rfl | hin)
    · by_contra hn
      obtain ⟨hack, hp⟩ := hstale (h.acked i hi).2 hn
      exact hi.elim hack hp
    · exact hin
  have hnew : ∀ x, k < x → x ∈ insert b s.buffer → x ∈ s.buffer := by
    rintro x hx (rfl | hin)
    · exact hlater hx
    · exact hin
  refine { h with
    range := ?_, cover := ?_, buffered := ?_, writing := ?_, nonempty := ?_, least := ?_,
    blocked := ?_, failing := ?_, again := ?_, failedAgain := ?_, stale := ?_, ackBuffered := ?_,
    ackBehind := ?_ }
  · intro x hx
    obtain ⟨hxk, hxc, hxn⟩ := h.range x hx
    exact ⟨hxk, hxc, fun hin => hxn (hnew x hxk hin)⟩
  · intro x hxk hxc
    exact (h.cover x hxk hxc).imp_left (Set.mem_insert_of_mem _)
  · rintro b' (rfl | hin)
    · refine ⟨hbase, ?_⟩
      by_cases hk : k < b'
      · exact (h.buffered b' (hlater hk)).2
      · exact Nat.le_trans (Nat.le_of_not_lt hk) h.counted.2
    · exact h.buffered b' hin
  · exact fun hfalse => absurd hfalse (by simp)
  · exact fun _ => Set.insert_nonempty _ _
  · intro _ x hx
    by_cases hk : k < b
    · -- the write is in the buffer already
      have hb : s.buffering = true := by
        by_contra hfalse
        have hempty := (h.writing (Bool.eq_false_of_not_eq_true hfalse)).2
        rw [hempty] at hlater
        exact hlater hk
      obtain ⟨b', hb', hlt⟩ := h.least hb x hx
      exact ⟨b', Set.mem_insert_of_mem _ hb', hlt⟩
    · exact ⟨b, Set.mem_insert _ _, Nat.lt_of_le_of_lt (Nat.le_of_not_lt hk) (h.range x hx).1⟩
  · exact fun x y hxk hx => h.blocked x y hxk (hx.imp_left (hnew x hxk))
  · exact fun hfalse => absurd hfalse (by simp)
  · intro b' hin
    obtain ⟨hbase, hnext⟩ := h.again b' hin
    exact ⟨hbase, fun hk' => ⟨(hnext hk').1, Set.mem_insert_of_mem _ (hnext hk').2⟩⟩
  · intro b' hin
    obtain ⟨hbase, hbuf⟩ := h.failedAgain b' hin
    exact ⟨hbase, fun hk' => Set.mem_insert_of_mem _ (hbuf hk')⟩
  · exact fun b' hk' hin hn' => h.stale b' hk' hin fun hin => hn' (Set.mem_insert_of_mem _ hin)
  · exact fun i hi hin => h.ackBuffered i hi (hacked i hi hin)
  · refine h.ackBehind.imp_of_mem ?_
    intro r r' hmem _ hrr i x heq hi
    exact hrr i x heq (hacked i (.inl (heq ▸ hmem)) hi)

/-- A write that was rejected when it was tried again comes into the buffer. -/
theorem Good.insertFailedAgain (h : Good base s k old fs new) {b : ℕ} {rs : List Reply}
    (hr : s.replies = .failedAgain b :: rs) :
    Good base { s with replies := rs, buffer := insert b s.buffer, buffering := true }
      k old fs new := by
  have hsub := mem_of_tail hr
  have hmem : .failedAgain b ∈ s.replies := hr ▸ List.mem_cons_self ..
  obtain ⟨hbase, hlater⟩ := h.failedAgain b hmem
  refine (h.drop hr (by simp)).insertBuffered hbase hlater ?_
  intro hk hn
  obtain ⟨hack, hp⟩ := h.stale b hk (.inr hmem) hn
  exact ⟨fun hin => hack (hsub _ hin), hp⟩

/-- Writing is to be resumed. -/
theorem Good.appendResume (h : Good base s k old fs new) (hb : s.buffering = true) :
    Good base { s with commands := s.commands ++ [.resume] } k old fs (new ++ [.resume]) := by
  have hmem : ∀ b, Command.again b ∈ s.commands ++ [.resume] → Command.again b ∈ s.commands := by
    intro b hin
    simpa using hin
  refine { h with
    commands := ?_, noneNew := ?_, writing := ?_, again := ?_, stale := ?_ }
  · simp [h.commands]
  · simpa using h.noneNew
  · exact fun hfalse => absurd (hb.symm.trans hfalse) (by simp)
  · exact fun b hin => h.again b (hmem b hin)
  · exact fun b hk hin => h.stale b hk (hin.imp_left (hmem b))

/-- The smallest write of the buffer is tried again. -/
theorem Good.appendAgain (h : Good base s k old fs new) (hb : s.buffering = true) {b : ℕ}
    (hleast : IsLeast s.buffer b) :
    Good base { s with commands := s.commands ++ [.again b] } k old fs (new ++ [.again b]) := by
  have hmem : ∀ b', Command.again b' ∈ s.commands ++ [.again b] →
      Command.again b' ∈ s.commands ∨ b' = b := by
    intro b' hin
    simpa using hin
  refine { h with
    commands := ?_, noneNew := ?_, writing := ?_, again := ?_, stale := ?_ }
  · simp [h.commands]
  · simpa using h.noneNew
  · exact fun hfalse => absurd (hb.symm.trans hfalse) (by simp)
  · intro b' hin
    obtain hin | rfl := hmem b' hin
    · exact h.again b' hin
    · refine ⟨(h.buffered b' hleast.1).1, fun hk => ⟨?_, hleast.1⟩⟩
      -- the next write is in the buffer, or behind a write of the buffer
      by_contra hne
      have hle : k + 1 ≤ s.counter := Nat.le_trans hk (h.buffered b' hleast.1).2
      obtain hnext | hnext := h.cover (k + 1) (Nat.lt_succ_self k) hle
      · have := hleast.2 hnext
        omega
      · obtain ⟨b'', hb'', hlt⟩ := h.least hb _ hnext
        have := hleast.2 hb''
        omega
  · intro b' hk hin hn
    refine h.stale b' hk (hin.imp_left fun hin => ?_) hn
    obtain hin | rfl := hmem b' hin
    · exact hin
    · exact absurd hleast.1 hn

/-- When no fresh write is on its way, the commands need not be told apart. -/
theorem Good.join (h : Good base s k old [] new) : Good base s k (old ++ new) [] [] where
  __ := h
  commands := by simpa using h.commands
  noneOld b hmem := (List.mem_append.1 hmem).elim (h.noneOld b) (h.noneNew b)
  noneNew b := List.not_mem_nil
  writing hb := ⟨rfl, (h.writing hb).2⟩
  blocked x y _ _ hy := absurd hy List.not_mem_nil
  failing hb x hx := by
    rw [(h.writing hb).1, List.append_nil]
    exact h.failing hb x hx
  againOld _ _ _ := rfl

/-- The acknowledgement of a write of the buffer comes: no fresh write is on its way. -/
theorem Good.ack_buffered (h : Good base s k old fs new) {i : ℕ} {rs : List Reply}
    (hr : s.replies = .ack i :: rs) (hi : i ∈ s.buffer) : fs = [] ∧ failedIds rs = [] := by
  refine ⟨h.ackBuffered i (.inl (hr ▸ List.mem_cons_self ..)) hi, ?_⟩
  have hbehind := h.ackBehind
  rw [hr, List.pairwise_cons] at hbehind
  rw [List.eq_nil_iff_forall_not_mem]
  intro x hx
  exact hbehind.1 _ (mem_failedIds.1 hx) i x rfl hi rfl

/-- A write is acknowledged and leaves the buffer; what is left in it decides whether the
sender goes on buffering. -/
theorem Good.ackBuffering (h : Good base s k old fs new) (hb : s.buffering = true) {i : ℕ}
    {rs : List Reply} (hr : s.replies = .ack i :: rs) (hne : (s.buffer \ {i}).Nonempty) :
    Good base { s with replies := rs, buffer := s.buffer \ {i} } k old fs new := by
  have hids : failedIds s.replies = failedIds rs := by rw [hr]; rfl
  have hsub := mem_of_tail hr
  have hle : i ≤ k := (h.acked i (.inl (hr ▸ List.mem_cons_self ..))).2
  have hstay : ∀ x, k < x → x ∈ s.buffer → x ∈ s.buffer \ {i} := by
    rintro x hx hin
    refine ⟨hin, ?_⟩
    rintro rfl
    exact absurd hle (Nat.not_le_of_lt hx)
  have hacks := h.acks
  rw [hr] at hacks
  have honce : i ∉ ackIds rs ++ s.pending.toList ∧ (ackIds rs ++ s.pending.toList).Nodup :=
    List.nodup_cons.1 hacks
  refine { h with
    order := hids ▸ h.order, range := ?_, cover := ?_, buffered := ?_, writing := ?_,
    nonempty := fun _ => hne, least := ?_, blocked := ?_, failing := ?_, again := ?_,
    failedAgain := ?_, stale := ?_, acks := honce.2, acked := ?_, ackBuffered := ?_,
    ackBehind := ?_ }
  · intro x hx
    obtain ⟨hxk, hxc, hxn⟩ := h.range x (hids ▸ hx)
    exact ⟨hxk, hxc, fun hin => hxn hin.1⟩
  · intro x hxk hxc
    exact (hids ▸ h.cover x hxk hxc).imp_left (hstay x hxk)
  · exact fun b hin => h.buffered b hin.1
  · exact fun hfalse => absurd (hb.symm.trans hfalse) (by simp)
  · intro _ x hx
    obtain ⟨b, hbmem, hlt⟩ := h.least hb x (hids ▸ hx)
    refine ⟨b, ⟨hbmem, ?_⟩, hlt⟩
    rintro rfl
    obtain ⟨hfs, hnone⟩ := h.ack_buffered hr hbmem
    rw [hfs, hnone] at hx
    cases hx
  · intro x y hxk hx
    exact h.blocked x y hxk (hx.imp And.left (hsub _))
  · exact fun hfalse => absurd (hb.symm.trans hfalse) (by simp)
  · intro b hin
    obtain ⟨hbase, hnext⟩ := h.again b hin
    exact ⟨hbase, fun hk => ⟨(hnext hk).1, hstay b hk (hnext hk).2⟩⟩
  · intro b hin
    obtain ⟨hbase, hbuf⟩ := h.failedAgain b (hsub _ hin)
    exact ⟨hbase, fun hk => hstay b hk (hbuf hk)⟩
  · intro b hk hin hn
    by_cases heq : b = i
    · subst heq
      refine ⟨fun hack => honce.1 (List.mem_append_left _ (mem_ackIds.2 hack)), fun hp => ?_⟩
      exact honce.1 (List.mem_append_right _ (by rw [hp]; simp))
    · obtain ⟨hack, hp⟩ := h.stale b hk (hin.imp_right (hsub _)) (fun hin => hn ⟨hin, heq⟩)
      exact ⟨fun hmem => hack (hsub _ hmem), hp⟩
  · exact fun j hj => h.acked j (hj.imp_left (hsub _))
  · exact fun j hj hin => h.ackBuffered j (hj.imp_left (hsub _)) hin.1
  · have hbehind := h.ackBehind
    rw [hr] at hbehind
    refine (List.pairwise_cons.1 hbehind).2.imp ?_
    exact fun hrr j x heq hin => hrr j x heq hin.1

/-- The last write of the buffer is acknowledged, and the sender stops buffering. -/
theorem Good.ackLast (h : Good base s k old fs new) (hb : s.buffering = true) {i : ℕ}
    {rs : List Reply} (hr : s.replies = .ack i :: rs) (hempty : s.buffer \ {i} = ∅) :
    Good base { s with replies := rs, buffer := s.buffer \ {i}, buffering := false }
      k (old ++ new) [] [] := by
  have honly : ∀ b ∈ s.buffer, b = i := by
    intro b hin
    by_contra hne
    have hmem : b ∈ s.buffer \ {i} := ⟨hin, hne⟩
    rw [hempty] at hmem
    exact hmem
  have hi : i ∈ s.buffer := by
    obtain ⟨b, hin⟩ := h.nonempty hb
    exact honly b hin ▸ hin
  obtain ⟨rfl, hnone⟩ := h.ack_buffered hr hi
  have hdropped := h.join.drop hr (by simp)
  have hle : i ≤ k := (h.acked i (.inl (hr ▸ List.mem_cons_self ..))).2
  have hgone : ∀ b, b ∉ s.buffer \ {i} := by simp [hempty]
  have hacks := h.acks
  rw [hr] at hacks
  have honce : i ∉ ackIds rs ++ s.pending.toList := (List.nodup_cons.1 hacks).1
  have hlow : ∀ b, k < b → b ∉ s.buffer := by
    rintro b hk hin
    exact absurd (honly b hin ▸ hle) (Nat.not_le_of_lt hk)
  refine { hdropped with
    range := ?_, cover := ?_, buffered := ?_, writing := fun _ => ⟨rfl, hempty⟩,
    nonempty := ?_, least := ?_, blocked := ?_, failing := ?_, again := ?_,
    failedAgain := ?_, stale := ?_, ackBuffered := ?_, ackBehind := ?_ }
  · intro x hx
    obtain ⟨hxk, hxc, -⟩ := hdropped.range x hx
    exact ⟨hxk, hxc, hgone x⟩
  · intro x hxk hxc
    exact (hdropped.cover x hxk hxc).imp_left fun hin => absurd hin (hlow x hxk)
  · exact fun b hin => absurd hin (hgone b)
  · exact fun htrue => absurd htrue (by simp)
  · exact fun htrue => absurd htrue (by simp)
  · exact fun x y _ _ hy => absurd hy List.not_mem_nil
  · intro _ x hx
    have hmem : x ∈ failedIds rs := mem_failedIds.2 hx
    rw [hnone] at hmem
    cases hmem
  · intro b hin
    exact ⟨(hdropped.again b hin).1, fun hk => absurd ((hdropped.again b hin).2 hk).2 (hlow b hk)⟩
  · intro b hin
    exact ⟨(hdropped.failedAgain b hin).1,
      fun hk => absurd ((hdropped.failedAgain b hin).2 hk) (hlow b hk)⟩
  · intro b hk hin _
    by_cases heq : b = i
    · subst heq
      refine ⟨fun hack => honce (List.mem_append_left _ (mem_ackIds.2 hack)), fun hp => ?_⟩
      exact honce (List.mem_append_right _ (by rw [hp]; simp))
    · exact hdropped.stale b hk hin fun hin => heq (honly b hin)
  · exact fun j _ hin => absurd hin (hgone j)
  · refine hdropped.ackBehind.imp ?_
    exact fun _ j x _ hin => absurd hin (hgone j)

end Sender

/-! ## The receiver -/

section Receiver

variable {base k b : ℕ} {s : RetriedWrites} {old new : List Command} {fs : List ℕ}

/-- A fresh write at the head of the commands is the first one of `fs`. -/
theorem Good.head_fresh (h : Good base s k old fs new) {cs : List Command}
    (hc : s.commands = .fresh b :: cs) :
    old = [] ∧ ∃ fs', fs = b :: fs' ∧ cs = fs'.map .fresh ++ new := by
  have hcommands := h.commands
  rw [hc] at hcommands
  cases old with
  | cons c old =>
    obtain ⟨rfl, -⟩ := List.cons.inj hcommands
    exact absurd (List.mem_cons_self ..) (h.noneOld b)
  | nil =>
    cases fs with
    | nil =>
      have hmem : Command.fresh b ∈ new := by
        rw [List.nil_append, List.map_nil, List.nil_append] at hcommands
        exact hcommands ▸ List.mem_cons_self ..
      exact absurd hmem (h.noneNew b)
    | cons b' fs =>
      obtain ⟨heq, hcs⟩ := List.cons.inj hcommands
      obtain rfl := Command.fresh.inj heq
      exact ⟨rfl, fs, rfl, hcs⟩

/-- Another command at the head of the commands is the first one of `old`, when the
commands are told apart in the right way. -/
theorem Good.head_other (h : Good base s k old fs new) {c : Command} {cs : List Command}
    (hc : s.commands = c :: cs) (hfresh : ∀ b, c ≠ .fresh b) :
    ∃ old' fs' new', Good base s k (c :: old') fs' new'
      ∧ cs = old' ++ (fs'.map .fresh ++ new') := by
  have hcommands := h.commands
  rw [hc] at hcommands
  cases old with
  | cons c' old =>
    obtain ⟨rfl, hcs⟩ := List.cons.inj hcommands
    exact ⟨old, fs, new, h, hcs⟩
  | nil =>
    cases fs with
    | cons b fs => exact absurd (List.cons.inj hcommands).1 (hfresh b)
    | nil =>
      rw [List.nil_append, List.map_nil, List.nil_append] at hcommands
      subst hcommands
      exact ⟨cs, [], [], h.join, by simp⟩

/-- A fresh write is rejected. -/
theorem Good.rejectFresh (h : Good base s k [] (b :: fs) new) :
    Good base { s with
      commands := fs.map .fresh ++ new
      replies := s.replies ++ [.failed b]
      suspended := true } k [] fs new := by
  have hids : failedIds (s.replies ++ [.failed b]) ++ fs = failedIds s.replies ++ b :: fs := by
    rw [failedIds_append, List.append_assoc]
    rfl
  have hsub : ∀ c ∈ fs.map Command.fresh ++ new, c ∈ s.commands :=
    mem_of_tail h.commands
  have hack : ∀ i, Reply.ack i ∈ s.replies ++ [.failed b] → Reply.ack i ∈ s.replies := by
    intro i hi
    simpa using hi
  have hagain : ∀ i, Reply.failedAgain i ∈ s.replies ++ [.failed b] →
      Reply.failedAgain i ∈ s.replies := by
    intro i hi
    simpa using hi
  -- no acknowledgement is on its way for a write of the buffer
  have hnone : ∀ i, .ack i ∈ s.replies ∨ s.pending = some i → i ∉ s.buffer := by
    intro i hi hin
    cases h.ackBuffered i hi hin
  refine { h with
    commands := rfl, order := hids ▸ h.order, range := hids ▸ h.range, cover := hids ▸ h.cover,
    least := hids ▸ h.least, blocked := ?_, failing := ?_, again := ?_, againOld := ?_,
    failedAgain := ?_, stale := ?_, acks := ?_, acked := ?_, ackBuffered := ?_, ackBehind := ?_ }
  · exact fun _ _ _ _ _ _ => ⟨rfl, List.not_mem_nil⟩
  · exact fun _ _ _ => ⟨rfl, List.not_mem_nil⟩
  · exact fun b' hin => h.again b' (hsub _ hin)
  · exact fun b' hin => absurd hin List.not_mem_nil
  · exact fun b' hin => h.failedAgain b' (hagain b' hin)
  · intro b' hk hin hn
    obtain ⟨hno, hp⟩ := h.stale b' hk (hin.imp (hsub _) (hagain b')) hn
    exact ⟨fun hin => hno (hack b' hin), hp⟩
  · rw [ackIds_append]
    simpa [ackIds] using h.acks
  · exact fun i hi => h.acked i (hi.imp_left (hack i))
  · exact fun i hi hin => absurd hin (hnone i (hi.imp_left (hack i)))
  · rw [List.pairwise_append]
    refine ⟨h.ackBehind, List.pairwise_singleton _ _, ?_⟩
    rintro r hr r' - i x rfl hin
    exact absurd hin (hnone i (.inl hr))

/-- A write that was tried again is rejected. -/
theorem Good.rejectAgain (h : Good base s k (.again b :: old) fs new) :
    Good base { s with
      commands := old ++ (fs.map .fresh ++ new)
      replies := s.replies ++ [.failedAgain b]
      suspended := true } k old fs new := by
  have hids : failedIds (s.replies ++ [.failedAgain b]) = failedIds s.replies := by
    rw [failedIds_append]
    exact List.append_nil _
  have hhead : .again b ∈ s.commands := by
    rw [h.commands]
    exact List.mem_cons_self ..
  have hsub : ∀ c ∈ old ++ (fs.map Command.fresh ++ new), c ∈ s.commands :=
    mem_of_tail h.commands
  have hfailed : ∀ x, Reply.failed x ∈ s.replies ++ [.failedAgain b] →
      Reply.failed x ∈ s.replies := by
    intro x hx
    simpa using hx
  have hack : ∀ i, Reply.ack i ∈ s.replies ++ [.failedAgain b] → Reply.ack i ∈ s.replies := by
    intro i hi
    simpa using hi
  have hagain : ∀ i, Reply.failedAgain i ∈ s.replies ++ [.failedAgain b] →
      Reply.failedAgain i ∈ s.replies ∨ i = b := by
    intro i hi
    simpa using hi
  refine { h with
    commands := rfl, noneOld := ?_, order := hids ▸ h.order, range := hids ▸ h.range,
    cover := hids ▸ h.cover, least := hids ▸ h.least, blocked := ?_, failing := ?_, again := ?_,
    againOld := ?_, failedAgain := ?_, stale := ?_, acks := ?_, acked := ?_, ackBuffered := ?_,
    ackBehind := ?_ }
  · exact fun b' hin => h.noneOld b' (List.mem_cons_of_mem _ hin)
  · intro x y hk hx hy hlt
    obtain ⟨-, hno⟩ := h.blocked x y hk (hx.imp_right (hfailed x)) hy hlt
    exact ⟨rfl, fun hin => hno (List.mem_cons_of_mem _ hin)⟩
  · intro hb x hx
    obtain ⟨-, hno⟩ := h.failing hb x (hfailed x hx)
    exact ⟨rfl, fun hin => hno (List.mem_cons_of_mem _ hin)⟩
  · exact fun b' hin => h.again b' (hsub _ hin)
  · exact fun b' hin => h.againOld b' (List.mem_cons_of_mem _ hin)
  · intro b' hin
    obtain hin | rfl := hagain b' hin
    · exact h.failedAgain b' hin
    · exact ⟨(h.again b' hhead).1, fun hk => ((h.again b' hhead).2 hk).2⟩
  · intro b' hk hin hn
    have hitem : .again b' ∈ s.commands ∨ .failedAgain b' ∈ s.replies := by
      obtain hin | hin := hin
      · exact .inl (hsub _ hin)
      · obtain hin | rfl := hagain b' hin
        · exact .inr hin
        · exact .inl hhead
    obtain ⟨hno, hp⟩ := h.stale b' hk hitem hn
    exact ⟨fun hin => hno (hack b' hin), hp⟩
  · rw [ackIds_append]
    simpa [ackIds] using h.acks
  · exact fun i hi => h.acked i (hi.imp_left (hack i))
  · exact fun i hi => h.ackBuffered i (hi.imp_left (hack i))
  · rw [List.pairwise_append]
    refine ⟨h.ackBehind, List.pairwise_singleton _ _, ?_⟩
    rintro r hr r' hr' i x rfl hin
    rw [List.mem_singleton.1 hr']
    simp

/-- Writing is resumed. -/
theorem Good.resume (h : Good base s k (.resume :: old) fs new) :
    Good base { s with commands := old ++ (fs.map .fresh ++ new), suspended := false }
      k old fs new := by
  have hsub : ∀ c ∈ old ++ (fs.map Command.fresh ++ new), c ∈ s.commands :=
    mem_of_tail h.commands
  refine { h with
    commands := rfl, noneOld := ?_, blocked := ?_, failing := ?_, again := ?_, againOld := ?_,
    stale := ?_ }
  · exact fun b hin => h.noneOld b (List.mem_cons_of_mem _ hin)
  · intro x y hk hx hy hlt
    exact absurd (List.mem_cons_self ..) (h.blocked x y hk hx hy hlt).2
  · intro hb x hx
    exact absurd (List.mem_cons_self ..) (h.failing hb x hx).2
  · exact fun b hin => h.again b (hsub _ hin)
  · exact fun b hin => h.againOld b (List.mem_cons_of_mem _ hin)
  · exact fun b hk hin => h.stale b hk (hin.imp_left (hsub _))

/-- The pending write is complete. -/
theorem Good.complete (h : Good base s k old fs new) (hp : s.pending = some b) :
    Good base { s with replies := s.replies ++ [.ack b], pending := none } k old fs new := by
  have hids : failedIds (s.replies ++ [.ack b]) = failedIds s.replies := by
    rw [failedIds_append]
    exact List.append_nil _
  have hfailed : ∀ x, Reply.failed x ∈ s.replies ++ [.ack b] → Reply.failed x ∈ s.replies := by
    intro x hx
    simpa using hx
  have hagain : ∀ i, Reply.failedAgain i ∈ s.replies ++ [.ack b] →
      Reply.failedAgain i ∈ s.replies := by
    intro i hi
    simpa using hi
  have hack : ∀ i, Reply.ack i ∈ s.replies ++ [.ack b] ∨ none = some i →
      Reply.ack i ∈ s.replies ∨ s.pending = some i := by
    rintro i (hi | hi)
    · rw [List.mem_append, List.mem_singleton] at hi
      obtain hi | hi := hi
      · exact .inl hi
      · exact .inr (Reply.ack.inj hi ▸ hp)
    · cases hi
  refine { h with
    order := hids ▸ h.order, range := hids ▸ h.range, cover := hids ▸ h.cover,
    least := hids ▸ h.least, blocked := ?_, failing := ?_, failedAgain := ?_, stale := ?_,
    acks := ?_, acked := ?_, ackBuffered := ?_, ackBehind := ?_ }
  · exact fun x y hk hx => h.blocked x y hk (hx.imp_right (hfailed x))
  · exact fun hb x hx => h.failing hb x (hfailed x hx)
  · exact fun b' hin => h.failedAgain b' (hagain b' hin)
  · intro b' hk hin hn
    obtain ⟨hno, hnp⟩ := h.stale b' hk (hin.imp_right (hagain b')) hn
    refine ⟨fun hin => ?_, by simp⟩
    exact (hack b' (.inl hin)).elim hno hnp
  · have hacks := h.acks
    rw [hp] at hacks
    rw [ackIds_append, Option.toList_none, List.append_nil]
    exact hacks
  · exact fun i hi => h.acked i (hack i hi)
  · exact fun i hi => h.ackBuffered i (hack i hi)
  · rw [List.pairwise_append]
    refine ⟨h.ackBehind, List.pairwise_singleton _ _, ?_⟩
    rintro r hr r' hr' i x rfl hin
    rw [List.mem_singleton.1 hr']
    simp

/-- A notice is sent. -/
theorem Good.note (h : Good base s k old fs new) :
    Good base { s with replies := s.replies ++ [.notice] } k old fs new := by
  have hids : failedIds (s.replies ++ [.notice]) = failedIds s.replies := by
    rw [failedIds_append]
    exact List.append_nil _
  have hsub : ∀ r, r ∈ s.replies ++ [.notice] → r ≠ .notice → r ∈ s.replies := by
    intro r hr hne
    rw [List.mem_append, List.mem_singleton] at hr
    exact hr.resolve_right hne
  refine { h with
    order := hids ▸ h.order, range := hids ▸ h.range, cover := hids ▸ h.cover,
    least := hids ▸ h.least, blocked := ?_, failing := ?_, failedAgain := ?_, stale := ?_,
    acks := ?_, acked := ?_, ackBuffered := ?_, ackBehind := ?_ }
  · exact fun x y hk hx => h.blocked x y hk (hx.imp_right fun hx => hsub _ hx (by simp))
  · exact fun hb x hx => h.failing hb x (hsub _ hx (by simp))
  · exact fun b' hin => h.failedAgain b' (hsub _ hin (by simp))
  · intro b' hk hin hn
    obtain ⟨hno, hnp⟩ := h.stale b' hk (hin.imp_right fun hin => hsub _ hin (by simp)) hn
    exact ⟨fun hin => hno (hsub _ hin (by simp)), hnp⟩
  · rw [ackIds_append]
    simpa [ackIds] using h.acks
  · exact fun i hi => h.acked i (hi.imp_left fun hi => hsub _ hi (by simp))
  · exact fun i hi => h.ackBuffered i (hi.imp_left fun hi => hsub _ hi (by simp))
  · rw [List.pairwise_append]
    refine ⟨h.ackBehind, List.pairwise_singleton _ _, ?_⟩
    rintro r hr r' hr' i x rfl hin
    rw [List.mem_singleton.1 hr']
    simp

/-- The accepted writes after the next one. -/
theorem Good.accepted_next (h : Good base s k old fs new) (x : ℕ) :
    x ∈ s.accepted ++ [k + 1] ↔ base < x ∧ x ≤ k + 1 := by
  have := h.counted.1
  rw [List.mem_append, List.mem_singleton, h.accepted x]
  omega

theorem Good.increasing_next (h : Good base s k old fs new) :
    (s.accepted ++ [k + 1]).Pairwise (· < ·) := by
  rw [List.pairwise_append]
  refine ⟨h.increasing, List.pairwise_singleton _ _, ?_⟩
  intro x hx y hy
  rw [List.mem_singleton.1 hy]
  exact Nat.lt_succ_of_le ((h.accepted x).1 hx).2

/-- The next write becomes pending when none is. -/
theorem Good.acks_next (h : Good base s k old fs new) (hp : s.pending = none) :
    (ackIds s.replies ++ [k + 1]).Nodup := by
  have hacks := h.acks
  rw [hp, Option.toList_none, List.append_nil] at hacks
  rw [List.nodup_append]
  refine ⟨hacks, List.nodup_singleton _, ?_⟩
  rintro i hi j hj rfl
  have hle := (h.acked i (.inl (mem_ackIds.1 hi))).2
  have heq := List.mem_singleton.1 hj
  omega

theorem Good.acked_next (h : Good base s k old fs new) (i : ℕ)
    (hi : .ack i ∈ s.replies ∨ some (k + 1) = some i) : base < i ∧ i ≤ k + 1 := by
  obtain hi | hi := hi
  · obtain ⟨hbase, hle⟩ := h.acked i (.inl hi)
    exact ⟨hbase, Nat.le_succ_of_le hle⟩
  · obtain rfl := Option.some.inj hi
    exact ⟨Nat.lt_succ_of_le h.counted.1, Nat.le_refl _⟩

/-- A fresh write is accepted only when it is the next one, and then no fresh write has
been rejected: else writing would be suspended. -/
theorem Good.fresh_next (h : Good base s k [] (b :: fs) new) (hs : s.suspended = false) :
    b = k + 1 ∧ failedIds s.replies = [] := by
  have hopen : ∀ x y, k < x → x ∈ s.buffer ∨ .failed x ∈ s.replies → y ∈ b :: fs → ¬ x < y := by
    intro x y hk hx hy hlt
    have htrue := (h.blocked x y hk hx hy hlt).1
    exact Bool.false_ne_true (hs.symm.trans htrue)
  obtain ⟨hkb, hbc, -⟩ := h.range b (by simp)
  have horder := List.pairwise_append.1 h.order
  constructor
  · by_contra hne
    have hlt : k + 1 < b := by omega
    obtain hnext | hnext := h.cover (k + 1) (Nat.lt_succ_self k) (by omega)
    · exact hopen (k + 1) b (Nat.lt_succ_self k) (.inl hnext) (by simp) hlt
    · rw [List.mem_append, mem_failedIds, List.mem_cons] at hnext
      obtain hnext | hnext | hnext := hnext
      · exact hopen (k + 1) b (Nat.lt_succ_self k) (.inr hnext) (by simp) hlt
      · omega
      · have := (List.pairwise_cons.1 horder.2.1).1 _ hnext
        omega
  · rw [List.eq_nil_iff_forall_not_mem]
    intro x hx
    refine hopen x b (h.range x (List.mem_append_left _ hx)).1 (.inr (mem_failedIds.1 hx))
      (by simp) ?_
    exact horder.2.2 x hx b (by simp)

/-- A fresh write is accepted. -/
theorem Good.acceptFresh (h : Good base s k [] (b :: fs) new) (hp : s.pending = none)
    (hs : s.suspended = false) :
    Good base { s with
      commands := fs.map .fresh ++ new
      pending := some b
      accepted := s.accepted ++ [b] } b [] fs new := by
  obtain ⟨rfl, hnone⟩ := h.fresh_next hs
  have hrange := h.range
  rw [hnone, List.nil_append] at hrange
  obtain ⟨hkb, hbc, hbn⟩ := hrange _ (List.mem_cons_self ..)
  have horder := h.order
  rw [hnone, List.nil_append, List.pairwise_cons] at horder
  have hsub : ∀ c ∈ fs.map Command.fresh ++ new, c ∈ s.commands :=
    mem_of_tail h.commands
  have hlater : ∀ x, k + 1 < x → k < x := fun x hx => Nat.lt_of_succ_lt hx
  have hack : ∀ i, .ack i ∈ s.replies ∨ some (k + 1) = some i → i ∉ s.buffer := by
    rintro i (hi | hi) hin
    · cases h.ackBuffered i (.inl hi) hin
    · exact hbn (Option.some.inj hi ▸ hin)
  refine { h with
    commands := rfl, counted := ⟨Nat.le_succ_of_le h.counted.1, hbc⟩, accepted := h.accepted_next,
    increasing := h.increasing_next, order := ?_, range := ?_, cover := ?_, least := ?_,
    blocked := ?_, failing := ?_, again := ?_, againOld := ?_, failedAgain := ?_, stale := ?_,
    acks := h.acks_next hp, acked := h.acked_next, ackBuffered := ?_ }
  · rw [hnone]
    exact horder.2
  · rw [hnone]
    intro x hx
    obtain ⟨-, hxc, hxn⟩ := hrange x (List.mem_cons_of_mem _ hx)
    exact ⟨horder.1 x hx, hxc, hxn⟩
  · intro x hx hxc
    have hcover := h.cover x (hlater x hx) hxc
    rw [hnone, List.nil_append] at hcover ⊢
    refine hcover.imp_right fun hin => (List.mem_cons.1 hin).resolve_left ?_
    omega
  · intro hb x hx
    rw [hnone] at hx
    exact h.least hb x (List.mem_append_right _ (List.mem_cons_of_mem _ hx))
  · exact fun x y hx hin hy => h.blocked x y (hlater x hx) hin (List.mem_cons_of_mem _ hy)
  · intro _ x hx
    have hmem := mem_failedIds.2 hx
    rw [hnone] at hmem
    cases hmem
  · intro b hin
    obtain ⟨hbase, hnext⟩ := h.again b (hsub _ hin)
    refine ⟨hbase, fun hlt => ?_⟩
    have := (hnext (hlater b hlt)).1
    omega
  · exact fun b hin => absurd hin List.not_mem_nil
  · intro b hin
    obtain ⟨hbase, hbuf⟩ := h.failedAgain b hin
    exact ⟨hbase, fun hlt => hbuf (hlater b hlt)⟩
  · intro b hk hin hn
    obtain hlt | rfl := Nat.lt_or_eq_of_le hk
    · refine ⟨(h.stale b (Nat.le_of_lt_succ hlt) (hin.imp_left (hsub _)) hn).1, ?_⟩
      intro heq
      have := Option.some.inj heq
      omega
    · -- a write that was rejected is in the buffer
      obtain hin | hin := hin
      · exact absurd ((h.again _ (hsub _ hin)).2 hkb).2 hn
      · exact absurd ((h.failedAgain _ hin).2 hkb) hn
  · exact fun i hi hin => absurd hin (hack i hi)

/-- A write that was tried again is accepted for the first time. -/
theorem Good.acceptAgain (h : Good base s k (.again b :: old) fs new) (hp : s.pending = none)
    (hnew : b ∉ s.accepted) :
    Good base { s with
      commands := old ++ (fs.map .fresh ++ new)
      pending := some b
      accepted := s.accepted ++ [b] } b old fs new := by
  have hsub : ∀ c ∈ old ++ (fs.map Command.fresh ++ new), c ∈ s.commands :=
    mem_of_tail h.commands
  have hhead : .again b ∈ s.commands := by
    rw [h.commands]
    exact List.mem_cons_self ..
  obtain ⟨hbase, hnext⟩ := h.again b hhead
  have hkb : k < b := by
    by_contra hle
    exact hnew ((h.accepted b).2 ⟨hbase, Nat.le_of_not_lt hle⟩)
  obtain ⟨rfl, hin⟩ := hnext hkb
  obtain rfl := h.againOld _ (List.mem_cons_self ..) hkb
  have hbuffering : s.buffering ≠ false := by
    intro hb
    rw [(h.writing hb).2] at hin
    exact hin
  have hlater : ∀ x, k + 1 < x → k < x := fun x hx => Nat.lt_of_succ_lt hx
  refine { h with
    commands := rfl, noneOld := ?_, counted := ⟨Nat.le_succ_of_le h.counted.1, ?_⟩,
    accepted := h.accepted_next, increasing := h.increasing_next, range := ?_, cover := ?_,
    blocked := ?_, failing := ?_, again := ?_, againOld := fun _ _ _ => rfl, failedAgain := ?_,
    stale := ?_, acks := h.acks_next hp, acked := h.acked_next, ackBuffered := fun _ _ _ => rfl }
  · exact fun b' hmem => h.noneOld b' (List.mem_cons_of_mem _ hmem)
  · exact (h.buffered _ hin).2
  · intro x hx
    obtain ⟨hxk, hxc, hxn⟩ := h.range x hx
    refine ⟨Nat.lt_of_le_of_ne hxk ?_, hxc, hxn⟩
    rintro rfl
    exact hxn hin
  · exact fun x hx hxc => h.cover x (hlater x hx) hxc
  · exact fun x y _ _ hy => absurd hy List.not_mem_nil
  · exact fun hb => absurd hb hbuffering
  · intro b' hmem
    obtain ⟨hbase', hnext'⟩ := h.again b' (hsub _ hmem)
    refine ⟨hbase', fun hlt => ?_⟩
    have := (hnext' (hlater b' hlt)).1
    omega
  · intro b' hmem
    obtain ⟨hbase', hbuf⟩ := h.failedAgain b' hmem
    exact ⟨hbase', fun hlt => hbuf (hlater b' hlt)⟩
  · intro b' hk hmem hn
    obtain hlt | rfl := Nat.lt_or_eq_of_le hk
    · refine ⟨(h.stale b' (Nat.le_of_lt_succ hlt) (hmem.imp_left (hsub _)) hn).1, ?_⟩
      intro heq
      have := Option.some.inj heq
      omega
    · exact absurd hin hn

end Receiver

/-! ## Runs -/

/-- **One step** keeps the invariant. -/
theorem Good.step {base k : ℕ} {s t : RetriedWrites} {old new : List Command} {fs : List ℕ}
    (h : Good base s k old fs new) (hstep : Step s t) :
    ∃ k' old' fs' new', Good base t k' old' fs' new' := by
  cases hstep with
  | send hb => exact ⟨k, old, _, [], h.send hb⟩
  | keep hb => exact ⟨k, old, fs, new, h.keep hb⟩
  | failed hr => exact ⟨k, old, fs, _, (h.insertFailed hr).appendResume rfl⟩
  | failedAgain hr => exact ⟨k, old, fs, _, (h.insertFailedAgain hr).appendResume rfl⟩
  | notice hr => exact ⟨k, old, fs, new, h.drop hr (by simp)⟩
  | retry hr hb hleast => exact ⟨k, old, fs, _, (h.drop hr (by simp)).appendAgain hb hleast⟩
  | ackWriting hr hb => exact ⟨k, old, fs, new, h.drop hr (by simp)⟩
  | ackNext hr hb hleast =>
    exact ⟨k, old, fs, _, (h.ackBuffering hb hr ⟨_, hleast.1⟩).appendAgain hb hleast⟩
  | ackLast hr hb hempty => exact ⟨k, _, [], [], h.ackLast hb hr hempty⟩
  | rejectFresh hc =>
    obtain ⟨rfl, fs', rfl, rfl⟩ := h.head_fresh hc
    exact ⟨k, [], fs', new, h.rejectFresh⟩
  | rejectAgain hc =>
    obtain ⟨old', fs', new', h', rfl⟩ := h.head_other hc (by simp)
    exact ⟨k, old', fs', new', h'.rejectAgain⟩
  | acceptFresh hc hp hs hnew =>
    obtain ⟨rfl, fs', rfl, rfl⟩ := h.head_fresh hc
    exact ⟨_, [], fs', new, h.acceptFresh hp hs⟩
  | acceptAgain hc hp hs hnew =>
    obtain ⟨old', fs', new', h', rfl⟩ := h.head_other hc (by simp)
    exact ⟨_, old', fs', new', h'.acceptAgain hp hnew⟩
  | resume hc =>
    obtain ⟨old', fs', new', h', rfl⟩ := h.head_other hc (by simp)
    exact ⟨k, old', fs', new', h'.resume⟩
  | complete hp => exact ⟨k, old, fs, new, h.complete hp⟩
  | note => exact ⟨k, old, fs, new, h.note⟩

theorem exists_good {base : ℕ} {s : RetriedWrites}
    (h : Relation.ReflTransGen Step (start base) s) : ∃ k old fs new, Good base s k old fs new := by
  induction h with
  | refl => exact ⟨base, [], [], [], good_start base⟩
  | tail _ hstep ih =>
    obtain ⟨k, old, fs, new, hgood⟩ := ih
    exact hgood.step hstep

/-- No write has a number that was not given out. -/
theorem le_counter {base b : ℕ} {s : RetriedWrites}
    (h : Relation.ReflTransGen Step (start base) s)
    (hb : b ∈ s.accepted ∨ .fresh b ∈ s.commands ∨ .again b ∈ s.commands) : b ≤ s.counter := by
  obtain ⟨k, old, fs, new, hgood⟩ := exists_good h
  obtain hb | hb | hb := hb
  · exact ((hgood.accepted b).1 hb).2.trans hgood.counted.2
  · rw [hgood.commands, List.mem_append, List.mem_append, List.mem_map] at hb
    obtain hb | ⟨b', hb, heq⟩ | hb := hb
    · exact absurd hb (hgood.noneOld b)
    · rw [← Command.fresh.inj heq]
      exact (hgood.range b' (List.mem_append_right _ hb)).2.1
    · exact absurd hb (hgood.noneNew b)
  · by_contra hlt
    have hk := hgood.counted.2
    have hnext := (hgood.again b hb).2 (by omega)
    exact hlt (hgood.buffered b hnext.2).2

/-- **The writes are accepted in their order**, each at most once. -/
theorem accepted_increasing {base : ℕ} {s : RetriedWrites}
    (h : Relation.ReflTransGen Step (start base) s) : s.accepted.Pairwise (· < ·) := by
  obtain ⟨k, old, fs, new, hgood⟩ := exists_good h
  exact hgood.increasing

end RetriedWrites

end Sparkz.Lib
