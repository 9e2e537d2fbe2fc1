import Mathlib
import Sparkz.Lib.Bytes
import Sparkz.Lib.Fallible

/-!
# Byte strings of records

Numbers of four bytes, and byte strings that are cut into records of one size.

* `intToBytes`, `intOfBytes` — signed numbers of 32 bits; each is read back from the other.
* `grouped` — the pieces of a list; `flatten_grouped`, `grouped_flatten`.
* `mapM_records`, `mapM_range`, `flatMap_of_mapM` — records that are read back piece by piece.
* `flatMap_split` — a record in front of and behind the others.
-/

namespace Sparkz.Lib

/-! ## Numbers of four bytes -/

/-- A number of 32 bits in two's complement, the highest byte first. -/
def intToBytes (x : ℤ) : List UInt8 := toBytes 4 (x % 2 ^ 32).toNat

/-- The number of the first four bytes. -/
def intOfBytes (bytes : List UInt8) : ℤ := signed 32 (ofBytes (bytes.take 4))

@[simp] theorem length_intToBytes (x : ℤ) : (intToBytes x).length = 4 := length_toBytes _ _

theorem ofBytes_cons (b : UInt8) (bytes : List UInt8) :
    ofBytes (b :: bytes) = b.toNat * 256 ^ bytes.length + ofBytes bytes := by
  have h := foldl_ofBytes bytes b.toNat
  simpa [ofBytes] using h

theorem ofBytes_lt (bytes : List UInt8) : ofBytes bytes < 256 ^ bytes.length := by
  induction bytes with
  | nil => simp [ofBytes]
  | cons b bytes ih =>
    have hb : b.toNat + 1 ≤ 256 := b.toNat_lt
    have hmul : (b.toNat + 1) * 256 ^ bytes.length ≤ 256 * 256 ^ bytes.length :=
      Nat.mul_le_mul_right _ hb
    rw [ofBytes_cons, List.length_cons, pow_succ]
    linarith

/-- Writing the number of some bytes gives the bytes. -/
theorem toBytes_ofBytes (bytes : List UInt8) : toBytes bytes.length (ofBytes bytes) = bytes := by
  induction bytes with
  | nil => rfl
  | cons b bytes ih =>
    have hlt := ofBytes_lt bytes
    have hdiv : (b.toNat * 256 ^ bytes.length + ofBytes bytes) / 256 ^ bytes.length = b.toNat := by
      rw [mul_comm, Nat.mul_add_div (by positivity), Nat.div_eq_of_lt hlt, add_zero]
    have hmod : (b.toNat * 256 ^ bytes.length + ofBytes bytes) % 256 ^ bytes.length
        = ofBytes bytes := by
      rw [mul_comm, Nat.mul_add_mod, Nat.mod_eq_of_lt hlt]
    rw [List.length_cons, toBytes, ofBytes_cons, hdiv, hmod, ih, UInt8.ofNat_toNat]

theorem intOfBytes_range (bytes : List UInt8) :
    -2 ^ 31 ≤ intOfBytes bytes ∧ intOfBytes bytes < 2 ^ 31 := by
  have hlt := ofBytes_lt (bytes.take 4)
  have hpow : 256 ^ (bytes.take 4).length ≤ 256 ^ 4 :=
    Nat.pow_le_pow_right (by norm_num) (List.length_take_le _ _)
  unfold intOfBytes signed
  split <;> omega

theorem intOfBytes_append {x : ℤ} (hlow : -2 ^ 31 ≤ x) (hhigh : x < 2 ^ 31) (rest : List UInt8) :
    intOfBytes (intToBytes x ++ rest) = x := by
  have htake : (intToBytes x ++ rest).take 4 = intToBytes x := by
    simp
  rw [intOfBytes, htake, intToBytes, ofBytes_toBytes _ _ (by omega)]
  unfold signed
  split <;> omega

theorem intToBytes_intOfBytes (bytes : List UInt8) (h : 4 ≤ bytes.length) :
    intToBytes (intOfBytes bytes) = bytes.take 4 := by
  have hlength : (bytes.take 4).length = 4 := by simp [h]
  have hlt := ofBytes_lt (bytes.take 4)
  have hback := toBytes_ofBytes (bytes.take 4)
  rw [hlength] at hlt hback
  have hnat : (intOfBytes bytes % 2 ^ 32).toNat = ofBytes (bytes.take 4) := by
    unfold intOfBytes signed
    split <;> omega
  rw [intToBytes, hnat, hback]

/-! ## Groups -/

variable {α β ε : Type}

/-- The first `n` groups of a list. -/
def groups (size : ℕ) : ℕ → List α → List (List α)
  | 0, _ => []
  | n + 1, l => l.take size :: groups size n (l.drop size)

/-- The groups of a list; the last one may be shorter. -/
def grouped (size : ℕ) (l : List α) : List (List α) := groups size ((l.length + size - 1) / size) l

@[simp] theorem length_groups (size n : ℕ) (l : List α) : (groups size n l).length = n := by
  induction n generalizing l with
  | zero => rfl
  | succ n ih => simp [groups, ih]

theorem length_grouped (size : ℕ) (l : List α) :
    (grouped size l).length = (l.length + size - 1) / size := length_groups _ _ _

theorem flatten_groups {size n : ℕ} {l : List α} (h : l.length ≤ size * n) :
    (groups size n l).flatten = l := by
  induction n generalizing l with
  | zero =>
    have hnil : l = [] := by simpa using h
    simp [groups, hnil]
  | succ n ih =>
    have hrest : (l.drop size).length ≤ size * n := by
      rw [List.length_drop]
      rw [Nat.mul_succ] at h
      omega
    simp [groups, ih hrest]

/-- The groups are the list. -/
theorem flatten_grouped {size : ℕ} (hsize : 0 < size) (l : List α) :
    (grouped size l).flatten = l := by
  apply flatten_groups
  have hmod := Nat.mod_lt (l.length + size - 1) hsize
  have hdiv := Nat.div_add_mod (l.length + size - 1) size
  omega

theorem length_le_of_mem_groups {size n : ℕ} {l : List α} :
    ∀ g ∈ groups size n l, g.length ≤ size := by
  induction n generalizing l with
  | zero => simp [groups]
  | succ n ih =>
    intro g hg
    rcases List.mem_cons.1 hg with rfl | hg
    · exact List.length_take_le _ _
    · exact ih g hg

theorem groups_flatten {size : ℕ} {gs : List (List α)} (h : ∀ g ∈ gs, g.length = size) :
    groups size gs.length gs.flatten = gs := by
  induction gs with
  | nil => rfl
  | cons g gs ih =>
    have hg : g.length = size := h g (by simp)
    have hrest := ih fun g' hg' => h g' (by simp [hg'])
    simp [groups, ← hg]
    simpa [hg] using hrest

theorem length_flatten_of_length {size : ℕ} {gs : List (List α)} (h : ∀ g ∈ gs, g.length = size) :
    gs.flatten.length = size * gs.length := by
  induction gs with
  | nil => simp
  | cons g gs ih =>
    rw [List.flatten_cons, List.length_append, ih fun g' hg' => h g' (by simp [hg']),
      h g (by simp), List.length_cons, Nat.mul_succ, add_comm]

/-- Lists of one size are the groups of what they make together. -/
theorem grouped_flatten {size : ℕ} (hsize : 0 < size) {gs : List (List α)}
    (h : ∀ g ∈ gs, g.length = size) : grouped size gs.flatten = gs := by
  have hcount : (gs.flatten.length + size - 1) / size = gs.length := by
    rw [length_flatten_of_length h]
    have hsum : size * gs.length + size - 1 = (size - 1) + size * gs.length := by omega
    rw [hsum, Nat.add_mul_div_left _ _ hsize, Nat.div_eq_of_lt (by omega), zero_add]
  rw [grouped, hcount, groups_flatten h]

/-! ## Reading piece by piece -/

theorem mapM_ok_cons {f : α → Except ε β} {a : α} {l : List α} {ys : List β} :
    (a :: l).mapM f = .ok ys ↔ ∃ b bs, f a = .ok b ∧ l.mapM f = .ok bs ∧ ys = b :: bs := by
  rw [List.mapM_cons]
  show (f a).bind _ = _ ↔ _
  rw [bind_eq_ok]
  constructor
  · rintro ⟨b, hb, h⟩
    obtain ⟨bs, hbs, h⟩ := bind_eq_ok.1 h
    cases h
    exact ⟨b, bs, hb, hbs, rfl⟩
  · rintro ⟨b, bs, hb, hbs, rfl⟩
    exact ⟨b, hb, bind_eq_ok.2 ⟨bs, hbs, rfl⟩⟩

/-- Records that are read back one by one are read back. -/
theorem mapM_records {write : β → α} {read : α → Except ε β} {xs : List β}
    (h : ∀ x ∈ xs, read (write x) = .ok x) : (xs.map write).mapM read = .ok xs := by
  induction xs with
  | nil => rfl
  | cons x xs ih =>
    exact mapM_ok_cons.2 ⟨x, xs, h x (by simp), ih fun x' hx' => h x' (by simp [hx']), rfl⟩

/-- What is read piece by piece is written back piece by piece. -/
theorem flatMap_of_mapM {write : β → List α} {read : List α → Except ε β} {gs : List (List α)}
    {xs : List β} (hread : gs.mapM read = .ok xs)
    (h : ∀ g ∈ gs, ∀ x, read g = .ok x → write x = g) :
    xs.flatMap write = gs.flatten ∧ xs.length = gs.length := by
  induction gs generalizing xs with
  | nil =>
    cases hread
    simp
  | cons g gs ih =>
    obtain ⟨x, xs, hx, hxs, rfl⟩ := mapM_ok_cons.1 hread
    obtain ⟨hflat, hlen⟩ := ih hxs fun g' hg' => h g' (by simp [hg'])
    simp [hflat, hlen, h g (by simp) x hx]

/-- Values that are made one by one from their places. -/
theorem mapM_range {l : List β} {f : ℕ → Except ε β}
    (h : ∀ i (hi : i < l.length), f i = .ok (l.get ⟨i, hi⟩)) :
    (List.range l.length).mapM f = .ok l := by
  induction l generalizing f with
  | nil => rfl
  | cons b l ih =>
    rw [List.length_cons, List.range_succ_eq_map]
    refine mapM_ok_cons.2 ⟨b, l, h 0 (Nat.succ_pos _), ?_, rfl⟩
    rw [List.mapM_map]
    exact ih fun i hi => h (i + 1) (Nat.succ_lt_succ hi)

/-- What holds of all values that can be made holds of those that were. -/
theorem of_mapM_ok {f : α → Except ε β} {p : β → Prop} (hf : ∀ a b, f a = .ok b → p b)
    {l : List α} {ys : List β} (h : l.mapM f = .ok ys) :
    ys.length = l.length ∧ ∀ y ∈ ys, p y := by
  induction l generalizing ys with
  | nil =>
    cases h
    simp
  | cons a l ih =>
    obtain ⟨b, bs, hb, hbs, rfl⟩ := mapM_ok_cons.1 h
    obtain ⟨hlen, hall⟩ := ih hbs
    exact ⟨congrArg Nat.succ hlen, List.forall_mem_cons.2 ⟨hf a b hb, hall⟩⟩

theorem length_flatMap_of_length {f : α → List β} {n : ℕ} {l : List α}
    (h : ∀ a ∈ l, (f a).length = n) : (l.flatMap f).length = n * l.length := by
  rw [List.flatMap_def, length_flatten_of_length, List.length_map]
  intro g hg
  obtain ⟨a, ha, rfl⟩ := List.mem_map.1 hg
  exact h a ha

/-- One record, the ones in front of it and the ones behind it. -/
theorem flatMap_split (f : α → List β) {l : List α} {i : ℕ} (hi : i < l.length) :
    l.flatMap f = (l.take i).flatMap f ++ f (l.get ⟨i, hi⟩) ++ (l.drop (i + 1)).flatMap f := by
  have hsplit : l = l.take i ++ l.get ⟨i, hi⟩ :: l.drop (i + 1) := by simp
  conv_lhs => rw [hsplit]
  rw [List.flatMap_append, List.flatMap_cons, List.append_assoc]

end Sparkz.Lib
