import Sparkz.Network.ModifiersSpec

/-!
# The limits of modifier messages

A message is cut to the modifiers within its limit, and a response is split into messages
within another one.  The first always gives a message, if an empty one; the second stays
at a modifier that is too long for a message of its own.

* `fitting` — the longest beginning of the modifiers within a limit.
* `codec_longest_prefix` — what is written of a message, and read back.
* `Sendable` — every modifier finds room behind those before it, or in a message of its
  own; `sendByParts_ends_iff`.

The accounts of the two sides differ: a size is counted with four bytes, and written with
as many as it takes.
-/

namespace Sparkz.Network

open Sparkz.Serialization

/-! ## The modifiers within a limit -/

/-- The modifiers within the limit, from the size of those before them. -/
def fitting (limit : ℤ) : ℤ → List (String × List UInt8) → List (String × List UInt8)
  | _, [] => []
  | size, m :: mods =>
      if size + partSize m ≤ limit then m :: fitting limit (size + partSize m) mods else []

theorem fitting_prefix (limit size : ℤ) (mods : List (String × List UInt8)) :
    fitting limit size mods <+: mods := by
  induction mods generalizing size with
  | nil => exact List.prefix_refl _
  | cons m mods ih =>
    rw [fitting]
    split
    · exact List.cons_prefix_cons.2 ⟨rfl, ih _⟩
    · exact List.nil_prefix

theorem fitting_le {limit size : ℤ} (h : size ≤ limit) (mods : List (String × List UInt8)) :
    size + ((fitting limit size mods).map partSize).sum ≤ limit := by
  induction mods generalizing size with
  | nil => simpa [fitting] using h
  | cons m mods ih =>
    rw [fitting]
    split
    · rename_i hfits
      rw [List.map_cons, List.sum_cons, ← add_assoc]
      exact ih hfits
    · simpa using h

/-- No longer beginning is within the limit. -/
theorem prefix_fitting {limit size : ℤ} {front mods : List (String × List UInt8)}
    (hfront : front <+: mods) (hle : size + (front.map partSize).sum ≤ limit) :
    front <+: fitting limit size mods := by
  induction mods generalizing size front with
  | nil =>
    rw [List.prefix_nil.1 hfront]
    exact List.nil_prefix
  | cons m mods ih =>
    cases front with
    | nil => exact List.nil_prefix
    | cons m' front =>
      obtain ⟨rfl, hrest⟩ := List.cons_prefix_cons.1 hfront
      rw [List.map_cons, List.sum_cons, ← add_assoc] at hle
      have hnonneg := sum_partSize_nonneg front
      rw [fitting, if_pos (by omega)]
      exact List.cons_prefix_cons.2 ⟨rfl, ih hrest hle⟩

namespace ModifiersSpec

/-- Behind the limit nothing is counted any more. -/
theorem foldl_countStep_of_lt {limit : ℤ} (c : ℕ) {size : ℤ} (hsize : 0 ≤ size)
    (hlt : limit < size) {mods : List (String × List UInt8)}
    (hint : size + (mods.map partSize).sum < 2 ^ 31) :
    (mods.foldl (countStep limit) (c, size)).1 = c := by
  induction mods generalizing size with
  | nil => rfl
  | cons m mods ih =>
    have hpos := partSize_pos m
    have hrest := sum_partSize_nonneg mods
    rw [List.map_cons, List.sum_cons] at hint
    rw [List.foldl_cons, countStep_eq c hsize (by omega), if_neg (by omega)]
    exact ih (by omega) (by omega) (by omega)

/-- **The fold of `serialize`** counts the modifiers within the limit. -/
theorem foldl_countStep_fitting (limit : ℤ) (c : ℕ) {size : ℤ} (hsize : 0 ≤ size)
    {mods : List (String × List UInt8)} (hint : size + (mods.map partSize).sum < 2 ^ 31) :
    (mods.foldl (countStep limit) (c, size)).1 = c + (fitting limit size mods).length := by
  induction mods generalizing c size with
  | nil => rfl
  | cons m mods ih =>
    have hpos := partSize_pos m
    have hrest := sum_partSize_nonneg mods
    rw [List.map_cons, List.sum_cons] at hint
    rw [List.foldl_cons, countStep_eq c hsize (by omega), fitting]
    split
    · rw [ih (c + 1) (by omega) (by omega), List.length_cons]
      omega
    · rename_i hlong
      exact foldl_countStep_of_lt c (by omega) (by omega) (by omega)

/-! ### The bytes that are written -/

/-- A number below `2 ^ 28` is written with at most four bytes. -/
theorem length_putUInt_le_four {n : ℕ} (hn : n < 2 ^ 28) {out : List UInt8}
    (h : VLQWriter.putUInt n = some out) : out.length ≤ 4 := by
  rw [putUInt_eq_some h, VLQWriter.putULong]
  refine VLQWriter.length_putULongFrom_le 10 3 _ ?_
  rw [UInt64.toNat_ofNat']
  exact lt_of_le_of_lt (Nat.mod_le _ _) hn

theorem length_serializeModifier_le {m : String × List UInt8} (hid : IsModifierId m.1)
    (hm : m.2.length < 2 ^ 28) {piece : List UInt8} (h : serializeModifier m = some piece) :
    (piece.length : ℤ) ≤ partSize m := by
  obtain ⟨id, hidlength, hid⟩ := hid
  have hidBytes : idToBytes m.1 = some id := by
    rw [← hid]
    exact idToBytes_bytesToId id
  rw [serializeModifier, hidBytes] at h
  obtain ⟨size, hsize, hpiece⟩ : ∃ size, VLQWriter.putUInt m.2.length = some size
      ∧ some (VLQWriter.putBytes id ++ size ++ VLQWriter.putBytes m.2) = some piece :=
    Option.bind_eq_some_iff.1 h
  obtain rfl := Option.some.inj hpiece
  have hfour := length_putUInt_le_four hm hsize
  simp only [VLQWriter.putBytes, List.length_append, hidlength, partSize]
  omega

theorem length_pieces_le {mods : List (String × List UInt8)}
    (hids : ∀ m ∈ mods, IsModifierId m.1) (hlength : ∀ m ∈ mods, m.2.length < 2 ^ 28)
    {pieces : List (List UInt8)} (h : mods.mapM serializeModifier = some pieces) :
    (pieces.flatten.length : ℤ) ≤ (mods.map partSize).sum := by
  induction mods generalizing pieces with
  | nil =>
    obtain rfl := Option.some.inj h
    rfl
  | cons m mods ih =>
    rw [List.mapM_cons] at h
    obtain ⟨piece, hpiece, h⟩ := Option.bind_eq_some_iff.1 h
    obtain ⟨rest, hrest, h⟩ := Option.bind_eq_some_iff.1 h
    obtain rfl := Option.some.inj h
    have hone := length_serializeModifier_le (hids m (by simp)) (hlength m (by simp)) hpiece
    have hmany := ih (fun m' hm' => hids m' (by simp [hm']))
      (fun m' hm' => hlength m' (by simp [hm'])) hrest
    rw [List.flatten_cons, List.length_append, List.map_cons, List.sum_cons]
    omega

/-- **The codec**: of a message the longest beginning within the limit is written, with no
more bytes than the limit, and is read back. -/
theorem codec_longest_prefix {limit : ℤ} (hlow : 5 ≤ limit) (hhigh : limit < 2 ^ 28)
    {data : ModifiersData} (hne : data.modifiers ≠ [])
    (hids : ∀ m ∈ data.modifiers, IsModifierId m.1)
    (hint : 5 + (data.modifiers.map fun m => (32 + 4 + m.2.length : ℤ)).sum < 2 ^ 31) :
    ∃ kept out, serialize limit data = some out
      ∧ parseBytes limit out = some ⟨data.typeId, kept⟩
      ∧ kept <+: data.modifiers
      ∧ 5 + (kept.map fun m => (32 + 4 + m.2.length : ℤ)).sum ≤ limit
      ∧ (∀ mods, mods <+: data.modifiers →
        5 + (mods.map fun m => (32 + 4 + m.2.length : ℤ)).sum ≤ limit → mods <+: kept)
      ∧ (out.length : ℤ) ≤ limit := by
  have hpart : (fun m : String × List UInt8 => (32 + 4 + m.2.length : ℤ)) = partSize := rfl
  rw [hpart] at hint ⊢
  have hheader : headerLength = 5 := rfl
  have hfront := fitting_prefix limit 5 data.modifiers
  have hle := fitting_le hlow data.modifiers
  have hcount : (countFitting limit data.modifiers).1
      = (fitting limit 5 data.modifiers).length := by
    rw [countFitting, hheader, foldl_countStep_fitting limit 0 (by decide) hint, Nat.zero_add]
  have htake := List.prefix_iff_eq_take.1 hfront
  generalize hkept : fitting limit 5 data.modifiers = kept at *
  have hkeptIds : ∀ m ∈ kept, IsModifierId m.1 := fun m hm => hids m (hfront.subset hm)
  obtain ⟨count, pieces, hput, hpieces, hparse⟩ :=
    parseBytes_written data.typeId hkeptIds hle (by omega)
  refine ⟨kept, _, ?_, hparse, hfront, hle, fun mods hmods hmodsLe => ?_, ?_⟩
  · rw [serialize, if_neg hne]
    simp only [hcount, ← htake, hput, hpieces]
    rfl
  · rw [← hkept]
    exact prefix_fitting hmods hmodsLe
  · -- the numbers take no more bytes than they are counted with
    have hlengths := length_le_sum_partSize kept
    have hsmall : ∀ m ∈ kept, m.2.length < 2 ^ 28 := by
      intro m hm
      have hsub := List.single_le_sum (fun x hx => by
        obtain ⟨m', -, rfl⟩ := List.mem_map.1 hx
        exact (partSize_pos m').le) _ (List.mem_map_of_mem (f := partSize) hm)
      rw [partSize] at hsub
      omega
    have hcountLength := length_putUInt_le_four (by omega) hput
    have hpiecesLength := length_pieces_le hkeptIds hsmall hpieces
    simp only [VLQWriter.put, List.length_append, List.length_singleton]
    omega

theorem codec_longest_prefix_cut :
    ∃ kept out, serialize 50 ⟨33, twoModifiers⟩ = some out
      ∧ parseBytes 50 out = some ⟨33, kept⟩
      ∧ kept <+: twoModifiers
      ∧ 5 + (kept.map fun m => (32 + 4 + m.2.length : ℤ)).sum ≤ 50
      ∧ (∀ mods, mods <+: twoModifiers →
        5 + (mods.map fun m => (32 + 4 + m.2.length : ℤ)).sum ≤ 50 → mods <+: kept)
      ∧ (out.length : ℤ) ≤ 50 :=
  have hne : (⟨33, twoModifiers⟩ : ModifiersData).modifiers ≠ [] := List.cons_ne_nil _ _
  codec_longest_prefix (by decide) (by decide) hne isModifierId_of_mem_twoModifiers (by decide)

end ModifiersSpec

/-! ## The parts of a response

A batch ends before the first modifier that does not find room behind those of the batch,
and the next one begins with it.  If it does not find room there either, this batch is
empty, and so are all those after it. -/

section parts

variable (limit : ℤ)

/-- What `sendByParts` counts for a batch, with a modifier more. -/
def sizeWith (size : ℤ) (m : String × List UInt8) : ℤ := (size + partSize m).bmod (2 ^ 32)

/-- What it counts for an empty batch. -/
def emptySize : ℤ := headerLength + checksumLength

/-- What it has counted behind a modifier, which may begin a batch. -/
def nextSize (size : ℤ) (m : String × List UInt8) : ℤ :=
  if sizeWith size m < limit then sizeWith size m else sizeWith emptySize m

/-- Every modifier finds room behind those before it, or in a message of its own. -/
def Sendable : ℤ → List (String × List UInt8) → Prop
  | _, [] => True
  | size, m :: mods =>
      (sizeWith emptySize m < limit ∨ sizeWith size m < limit)
        ∧ Sendable (nextSize limit size m) mods

/-- `sendByParts` ends: some number of turns is enough. -/
def Ends (mods : List (String × List UInt8)) : Prop :=
  ∃ turns batches, sendByParts limit turns mods = some batches

variable {limit}

theorem takeBatch_cons (size : ℤ) (m : String × List UInt8) (mods : List (String × List UInt8)) :
    takeBatch limit size (m :: mods)
      = if sizeWith size m < limit then m :: takeBatch limit (sizeWith size m) mods else [] := rfl

/-- A turn of `sendByParts`: what a batch leaves is sent after it. -/
theorem ends_iff (mods : List (String × List UInt8)) :
    Ends limit mods ↔ mods.drop (takeBatch limit emptySize mods).length = []
      ∨ Ends limit (mods.drop (takeBatch limit emptySize mods).length) := by
  have hturn : ∀ turns, sendByParts limit (turns + 1) mods
      = if mods.drop (takeBatch limit emptySize mods).length ≠ [] then
          (sendByParts limit turns (mods.drop (takeBatch limit emptySize mods).length)).map
            fun batches => takeBatch limit emptySize mods :: batches
        else some [takeBatch limit emptySize mods] := fun _ => rfl
  by_cases hdone : mods.drop (takeBatch limit emptySize mods).length = []
  · refine iff_of_true ⟨1, [takeBatch limit emptySize mods], ?_⟩ (Or.inl hdone)
    rw [hturn, if_neg (not_not.2 hdone)]
  · constructor
    · rintro ⟨turns, batches, hsend⟩
      cases turns with
      | zero => cases hsend
      | succ turns =>
        rw [hturn, if_pos hdone] at hsend
        obtain ⟨batches', hsend', -⟩ := Option.map_eq_some_iff.1 hsend
        exact Or.inr ⟨turns, batches', hsend'⟩
    · rintro (hdone' | ⟨turns, batches, hsend⟩)
      · exact absurd hdone' hdone
      · refine ⟨turns + 1, takeBatch limit emptySize mods :: batches, ?_⟩
        rw [hturn, if_pos hdone, hsend, Option.map_some]

/-- Where the first modifier finds no room, it is never sent. -/
theorem not_ends {m : String × List UInt8} {mods : List (String × List UInt8)}
    (hlong : ¬sizeWith emptySize m < limit) : ¬Ends limit (m :: mods) := by
  rintro ⟨turns, batches, hsend⟩
  induction turns generalizing batches with
  | zero => cases hsend
  | succ turns ih =>
    have hbatch : takeBatch limit (headerLength + checksumLength) (m :: mods) = [] := by
      rw [takeBatch_cons]
      exact if_neg hlong
    rw [sendByParts, hbatch, List.length_nil, List.drop_zero, if_pos (List.cons_ne_nil m mods)]
      at hsend
    obtain ⟨batches', hsend', -⟩ := Option.map_eq_some_iff.1 hsend
    exact ih batches' hsend'

/-- The rest of a batch that is begun, and the batches after it. -/
theorem sendable_iff (size : ℤ) (mods : List (String × List UInt8)) :
    Sendable limit size mods ↔ mods.drop (takeBatch limit size mods).length = []
      ∨ Ends limit (mods.drop (takeBatch limit size mods).length) := by
  induction mods generalizing size with
  | nil => exact iff_of_true trivial (Or.inl rfl)
  | cons m mods ih =>
    rw [Sendable, takeBatch_cons, nextSize]
    by_cases hroom : sizeWith size m < limit
    · rw [if_pos hroom, if_pos hroom, List.length_cons, List.drop_succ_cons, ← ih]
      exact and_iff_right (Or.inr hroom)
    · rw [if_neg hroom, if_neg hroom, List.length_nil, List.drop_zero]
      have hcons : ¬m :: mods = [] := List.cons_ne_nil m mods
      by_cases hown : sizeWith emptySize m < limit
      · -- the next batch begins with it
        rw [ends_iff, takeBatch_cons, if_pos hown, List.length_cons, List.drop_succ_cons, ← ih]
        simp [hown, hcons]
      · have hstuck : ¬Ends limit (m :: mods) := not_ends hown
        simp [hown, hroom, hcons, hstuck]

/-- Without overflow, a modifier that finds room finds it in a message of its own. -/
theorem sendable_iff_forall {size : ℤ} (hsize : emptySize ≤ size)
    {mods : List (String × List UInt8)} (hint : size + (mods.map partSize).sum < 2 ^ 31) :
    Sendable limit size mods ↔ ∀ m ∈ mods, emptySize + partSize m < limit := by
  have hempty : emptySize = 13 := rfl
  induction mods generalizing size with
  | nil => simp [Sendable]
  | cons m mods ih =>
    have hpos := partSize_pos m
    have hrest := sum_partSize_nonneg mods
    rw [List.map_cons, List.sum_cons] at hint
    have hbehind : sizeWith size m = size + partSize m := bmod_eq_self (by omega) (by omega)
    have hown : sizeWith emptySize m = emptySize + partSize m :=
      bmod_eq_self (by omega) (by omega)
    have hnext : emptySize ≤ nextSize limit size m ∧ nextSize limit size m ≤ size + partSize m := by
      rw [nextSize, hbehind, hown]
      split <;> omega
    have hmany := ih hnext.1 (by omega)
    rw [List.forall_mem_cons, Sendable, hbehind, hown]
    refine and_congr ?_ hmany
    omega

end parts

/-- **`sendByParts` ends** if every modifier finds room behind those before it or in a
message of its own, and else never.  As long as the sizes do not overflow, this is room in
a message of its own. -/
theorem sendByParts_ends_iff (limit : ℤ) (mods : List (String × List UInt8)) :
    ((∃ turns batches, sendByParts limit turns mods = some batches)
      ↔ Sendable limit emptySize mods)
    ∧ (partsSize mods < 2 ^ 31 →
      ((∃ turns batches, sendByParts limit turns mods = some batches)
        ↔ ∀ m ∈ mods, (13 + (32 + 4 + m.2.length) : ℤ) < limit)) := by
  have hends : Ends limit mods ↔ Sendable limit emptySize mods := by
    rw [ends_iff, sendable_iff]
  exact ⟨hends, fun hint => hends.trans (sendable_iff_forall le_rfl hint)⟩

/-- Two modifiers that have room in messages of 60 bytes; under a limit of 50 bytes not both
have. -/
theorem sendByParts_ends_iff_two :
    (∃ turns batches, sendByParts 60 turns twoModifiers = some batches)
    ∧ ¬∃ turns batches, sendByParts 50 turns twoModifiers = some batches := by
  constructor
  · exact ((sendByParts_ends_iff 60 twoModifiers).2 (by decide)).2 (by decide)
  · intro hends
    exact absurd (((sendByParts_ends_iff 50 twoModifiers).2 (by decide)).1 hends) (by decide)

/-- A modifier that a message has room for, but a message with the bytes of its header and
checksum has not. -/
theorem sendByParts_never_ends :
    ¬∀ (limit : ℤ) (mods : List (String × List UInt8)), 0 < limit → mods ≠ [] →
      ∃ turns batches, sendByParts limit turns mods = some batches := by
  intro h
  have hlong : ¬sizeWith emptySize (bytesToId (List.replicate 32 1), List.replicate 11 7) < 60 := by
    decide
  exact not_ends hlong
    (h 60 [(bytesToId (List.replicate 32 1), List.replicate 11 7)] (by decide) (by decide))

end Sparkz.Network
