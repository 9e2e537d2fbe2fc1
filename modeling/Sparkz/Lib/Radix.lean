import Sparkz.Lib.Bytes

/-!
# Numerals with leading zeros

Words of digits, the highest one first, and the change from one base to another that keeps
the leading zeros.

* `value`, `zeros`, `numeral` — the number that a word writes, its leading zeros, and the
  word with given ones; `numeral_zeros_value` says that a word is determined by the two.
* `convert_convert` — changing the base and back.
* `map_toBytes` — the bytes of a number as a word in base 256.
-/

namespace Sparkz.Lib.Radix

/-- The number that a word of digits writes in a base. -/
def value (b : ℕ) (w : List ℕ) : ℕ := Nat.ofDigits b w.reverse

/-- How many zeros a word begins with. -/
def zeros (w : List ℕ) : ℕ := (w.takeWhile (· == 0)).length

/-- A number of zeros, and then the digits of `n`. -/
def numeral (b k n : ℕ) : List ℕ := List.replicate k 0 ++ (Nat.digits b n).reverse

/-- The word in another base for the same number, behind as many zeros. -/
def convert (a b : ℕ) (w : List ℕ) : List ℕ := numeral b (zeros w) (value a w)

variable {a b k n d : ℕ} {w : List ℕ}

@[simp] theorem value_nil : value b [] = 0 := rfl

theorem value_cons : value b (d :: w) = d * b ^ w.length + value b w := by
  rw [value, List.reverse_cons, Nat.ofDigits_append, Nat.ofDigits_singleton, List.length_reverse,
    mul_comm, add_comm]
  rfl

theorem value_append_singleton : value b (w ++ [d]) = d + b * value b w := by
  rw [value, List.reverse_append, List.reverse_singleton, List.singleton_append,
    Nat.ofDigits_cons]
  rfl

@[simp] theorem zeros_cons_zero : zeros (0 :: w) = zeros w + 1 := rfl

theorem zeros_cons_of_ne (h : d ≠ 0) : zeros (d :: w) = 0 := by
  rw [zeros, List.takeWhile_cons_of_neg (by simpa using h)]
  rfl

/-- Without a zero at its head, a word consists of the digits of its number. -/
theorem digits_value_cons (hb : 1 < b) (h : ∀ e ∈ d :: w, e < b) (hd : d ≠ 0) :
    (Nat.digits b (value b (d :: w))).reverse = d :: w := by
  have hdigits : Nat.digits b (value b (d :: w)) = (d :: w).reverse := by
    refine Nat.digits_ofDigits b hb _ (fun e he => h e (List.mem_reverse.1 he)) fun hne => ?_
    simpa using hd
  rw [hdigits, List.reverse_reverse]

/-- A word is determined by its leading zeros and its number. -/
theorem numeral_zeros_value (hb : 1 < b) (h : ∀ d ∈ w, d < b) :
    numeral b (zeros w) (value b w) = w := by
  induction w with
  | nil => exact congrArg List.reverse (Nat.digits_zero b)
  | cons d w ih =>
    by_cases hd : d = 0
    · have hw := ih fun e he => h e (List.mem_cons_of_mem d he)
      have hvalue : value b (0 :: w) = value b w := by rw [value_cons, zero_mul, zero_add]
      rw [hd, zeros_cons_zero, hvalue, numeral, List.replicate_succ, List.cons_append]
      exact congrArg (0 :: ·) hw
    · rw [numeral, zeros_cons_of_ne hd, digits_value_cons hb h hd]
      rfl

theorem zeros_numeral (b k n : ℕ) : zeros (numeral b k n) = k := by
  induction k with
  | zero =>
    have hnum : numeral b 0 n = (Nat.digits b n).reverse := rfl
    rw [hnum]
    cases hdigits : (Nat.digits b n).reverse with
    | nil => rfl
    | cons d w =>
      have hne : Nat.digits b n ≠ [] := fun hnil => by rw [hnil] at hdigits; cases hdigits
      have hlast : (Nat.digits b n).getLast hne = d := by
        have hhead := List.head_reverse (l := Nat.digits b n) (by simpa using hne)
        simp only [hdigits, List.head_cons] at hhead
        exact hhead.symm
      refine zeros_cons_of_ne ?_
      rw [← hlast]
      exact Nat.getLast_digit_ne_zero b fun hzero => hne (by rw [hzero, Nat.digits_zero])
  | succ k ih =>
    have hnum : numeral b (k + 1) n = 0 :: numeral b k n := by
      rw [numeral, List.replicate_succ, List.cons_append]
      rfl
    rw [hnum, zeros_cons_zero, ih]

theorem value_numeral (b k n : ℕ) : value b (numeral b k n) = n := by
  rw [value, numeral, List.reverse_append, List.reverse_reverse, Nat.ofDigits_append,
    Nat.ofDigits_digits, List.reverse_replicate, Nat.ofDigits_replicate_zero, mul_zero, add_zero]

theorem numeral_lt (hb : 1 < b) : ∀ d ∈ numeral b k n, d < b := by
  intro d hd
  rcases List.mem_append.1 hd with hzero | hdigit
  · rw [List.eq_of_mem_replicate hzero]
    omega
  · exact Nat.digits_lt_base hb (List.mem_reverse.1 hdigit)

theorem convert_lt (hb : 1 < b) : ∀ d ∈ convert a b w, d < b := numeral_lt hb

/-- Changing the base and back. -/
theorem convert_convert (ha : 1 < a) (h : ∀ d ∈ w, d < a) :
    convert b a (convert a b w) = w := by
  show numeral a (zeros (convert a b w)) (value b (convert a b w)) = w
  rw [convert, zeros_numeral, value_numeral, numeral_zeros_value ha h]

theorem value_lt (hb : 1 < b) (h : ∀ d ∈ w, d < b) : value b w < b ^ w.length := by
  have hlt := Nat.ofDigits_lt_base_pow_length hb (l := w.reverse) fun d hd =>
    h d (List.mem_reverse.1 hd)
  rwa [List.length_reverse] at hlt

/-- The zeros of a word say nothing about its number. -/
theorem value_lt_of_zeros (hb : 1 < b) (h : ∀ d ∈ w, d < b) :
    value b w < b ^ (w.length - zeros w) := by
  induction w with
  | nil => exact Nat.one_pos
  | cons d w ih =>
    by_cases hd : d = 0
    · rw [hd, value_cons, zeros_cons_zero, List.length_cons, zero_mul, zero_add,
        Nat.add_sub_add_right]
      exact ih fun e he => h e (List.mem_cons_of_mem d he)
    · rw [zeros_cons_of_ne hd]
      exact value_lt hb h

theorem zeros_le (w : List ℕ) : zeros w ≤ w.length := (List.takeWhile_sublist _).length_le

theorem value_convert (a b : ℕ) (w : List ℕ) : value b (convert a b w) = value a w :=
  value_numeral b _ _

/-- A larger base needs no more digits. -/
theorem length_convert_le (ha : 1 < a) (hab : a ≤ b) (h : ∀ d ∈ w, d < a) :
    (convert a b w).length ≤ w.length := by
  have hdigits : (Nat.digits b (value a w)).length ≤ w.length - zeros w := by
    rw [Nat.digits_length_le_iff (ha.trans_le hab)]
    exact (value_lt_of_zeros ha h).trans_le (Nat.pow_le_pow_left hab _)
  have hzeros := zeros_le w
  rw [convert, numeral, List.length_append, List.length_replicate, List.length_reverse]
  omega

/-! ## Bytes -/

/-- The digits of a byte string. -/
def ofByteString (bytes : List UInt8) : List ℕ := bytes.map UInt8.toNat

theorem ofByteString_lt (bytes : List UInt8) : ∀ d ∈ ofByteString bytes, d < 256 := by
  intro d hd
  obtain ⟨x, -, rfl⟩ := List.mem_map.1 hd
  exact x.toNat_lt

theorem map_ofByteString (bytes : List UInt8) :
    (ofByteString bytes).map UInt8.ofNat = bytes := by
  rw [ofByteString, List.map_map]
  exact (List.map_congr_left fun x _ => UInt8.ofNat_toNat).trans (List.map_id bytes)

theorem ofByteString_map (h : ∀ d ∈ w, d < 256) : ofByteString (w.map UInt8.ofNat) = w := by
  rw [ofByteString, List.map_map]
  refine (List.map_congr_left fun d hd => ?_).trans (List.map_id w)
  exact UInt8.toNat_ofNat_of_lt' (h d hd)

theorem ofBytes_eq (bytes : List UInt8) : ofBytes bytes = value 256 (ofByteString bytes) := by
  induction bytes using List.reverseRecOn with
  | nil => rfl
  | append_singleton bytes x ih =>
    have hword : ofByteString (bytes ++ [x]) = ofByteString bytes ++ [x.toNat] :=
      List.map_append
    rw [ofBytes_append_singleton, ih, hword, value_append_singleton]
    exact (add_comm _ _).trans (congrArg _ (mul_comm _ _))

/-- The bytes of a number are its digits behind the zeros that fill the length. -/
theorem map_toBytes (h : n < 256 ^ k) :
    ofByteString (toBytes k n) = numeral 256 (k - (Nat.digits 256 n).length) n := by
  have hvalue : value 256 (ofByteString (toBytes k n)) = n := by
    rw [← ofBytes_eq, ofBytes_toBytes k n h]
  have hword := numeral_zeros_value (by norm_num) (ofByteString_lt (toBytes k n))
  have hlen : (ofByteString (toBytes k n)).length = k := by
    rw [ofByteString, List.length_map, length_toBytes]
  rw [hvalue] at hword
  have hzeros : zeros (ofByteString (toBytes k n)) = k - (Nat.digits 256 n).length := by
    rw [← hword, numeral, List.length_append, List.length_replicate, List.length_reverse] at hlen
    omega
  rw [← hzeros, hword]

end Sparkz.Lib.Radix
