import Mathlib

/-!
# Insertion-ordered finite maps

A finite map kept as the list of its bindings in the order the keys were first
put, each key occurring once: the behaviour of Scala's `mutable.LinkedHashMap`,
and of `mutable.Map` where nothing depends on the order.

* `get?`, `contains`, `put`, `remove` — the operations.  `put` on a present key
  replaces the value where it stands, on an absent one it appends a binding.
* `get?_put`, `get?_remove` — the map laws; `putAll` — the bindings of a list.
* `countV` — how many bindings carry a value with a given property, and how
  `put` and `remove` move that number (`countV_put_none`, `countV_put_some`,
  `countV_remove_some`, `countV_put`); when it is none or one (`countV_eq_zero`, `countV_eq_one`).
-/

namespace Sparkz.Lib

/-- A finite map with its bindings in insertion order. -/
structure LinkedMap (K : Type*) (V : Type*) where
  /-- The bindings, oldest first. -/
  entries : List (K × V)
  /-- No key is bound twice. -/
  nodup : (entries.map Prod.fst).Nodup

namespace LinkedMap

variable {K V : Type*}

theorem ext_entries {m n : LinkedMap K V} (h : m.entries = n.entries) : m = n := by
  cases m; cases n; cases h; rfl

/-- The map without bindings. -/
def empty : LinkedMap K V := ⟨[], List.nodup_nil⟩

@[simp] theorem entries_empty : (empty : LinkedMap K V).entries = [] := rfl

/-- The keys, in insertion order. -/
def keys (m : LinkedMap K V) : List K := m.entries.map Prod.fst

/-- The number of bindings. -/
def size (m : LinkedMap K V) : ℕ := m.entries.length

theorem length_keys (m : LinkedMap K V) : m.keys.length = m.size := by
  simp [keys, size]

theorem keys_nodup (m : LinkedMap K V) : m.keys.Nodup := m.nodup

/-- The number of bindings whose value satisfies `p`. -/
def countV (p : V → Bool) (m : LinkedMap K V) : ℕ := m.entries.countP fun e => p e.2

@[simp] theorem countV_empty (p : V → Bool) : (empty : LinkedMap K V).countV p = 0 := rfl

/-- Keep the bindings with a given property. -/
def filter (m : LinkedMap K V) (p : K × V → Bool) : LinkedMap K V where
  entries := m.entries.filter p
  nodup := m.nodup.sublist (List.filter_sublist.map _)

theorem mem_keys_of_mem_filter {m : LinkedMap K V} {p : K × V → Bool} {k : K}
    (h : k ∈ (m.filter p).keys) : k ∈ m.keys :=
  (List.filter_sublist.map Prod.fst).subset h

theorem size_eq_countV (m : LinkedMap K V) : m.size = m.countV fun _ => true := by
  rw [size, countV, List.countP_true]

theorem countV_filter_le (m : LinkedMap K V) (keep : K × V → Bool) (p : V → Bool) :
    (m.filter keep).countV p ≤ m.countV p :=
  List.filter_sublist.countP_le

theorem countV_mono {p q : V → Bool} (m : LinkedMap K V) (h : ∀ v, p v = true → q v = true) :
    m.countV p ≤ m.countV q :=
  List.countP_mono_left fun e _ => h e.2

variable [DecidableEq K]

/-- The value bound to `k`. -/
def get? (m : LinkedMap K V) (k : K) : Option V :=
  (m.entries.find? fun e => e.1 = k).map Prod.snd

/-- Is `k` bound? -/
def contains (m : LinkedMap K V) (k : K) : Bool := (m.get? k).isSome

/-- Unbind `k`. -/
def remove (m : LinkedMap K V) (k : K) : LinkedMap K V where
  entries := m.entries.filter fun e => e.1 ≠ k
  nodup := m.nodup.sublist (List.filter_sublist.map _)

theorem mem_entries_of_get? {m : LinkedMap K V} {k : K} {v : V} (h : m.get? k = some v) :
    (k, v) ∈ m.entries := by
  rw [get?, Option.map_eq_some_iff] at h
  obtain ⟨⟨k', v'⟩, hfind, hv⟩ := h
  have hk : k' = k := by simpa using List.find?_some hfind
  have hmem := List.mem_of_find?_eq_some hfind
  simp only at hv
  rwa [hk, hv] at hmem

theorem get?_of_mem_entries {m : LinkedMap K V} {k : K} {v : V} (h : (k, v) ∈ m.entries) :
    m.get? k = some v := by
  obtain ⟨e, he⟩ : ∃ e, m.entries.find? (fun e => e.1 = k) = some e := by
    rw [← Option.isSome_iff_exists, List.find?_isSome]
    exact ⟨(k, v), h, by simp⟩
  have hek : e.1 = k := by simpa using List.find?_some he
  have hev : e = (k, v) :=
    List.inj_on_of_nodup_map m.nodup (List.mem_of_find?_eq_some he) h (by simpa using hek)
  rw [get?, he, hev]
  rfl

theorem get?_eq_some_iff {m : LinkedMap K V} {k : K} {v : V} :
    m.get? k = some v ↔ (k, v) ∈ m.entries :=
  ⟨mem_entries_of_get?, get?_of_mem_entries⟩

theorem get?_eq_none_iff {m : LinkedMap K V} {k : K} : m.get? k = none ↔ k ∉ m.keys := by
  rw [get?, Option.map_eq_none_iff, List.find?_eq_none]
  simp only [keys, List.mem_map, decide_eq_true_eq, not_exists, not_and]

theorem contains_iff {m : LinkedMap K V} {k : K} : m.contains k = true ↔ k ∈ m.keys := by
  rw [contains, Option.isSome_iff_ne_none, Ne, get?_eq_none_iff, not_not]

@[simp] theorem get?_empty (k : K) : (empty : LinkedMap K V).get? k = none := rfl

/-- Bind `k` to `v`: in place when `k` is bound already, at the end otherwise. -/
def put (m : LinkedMap K V) (k : K) (v : V) : LinkedMap K V where
  entries :=
    if m.contains k then m.entries.map fun e => if e.1 = k then (k, v) else e
    else m.entries ++ [(k, v)]
  nodup := by
    split
    · have hkeys : (m.entries.map fun e => if e.1 = k then (k, v) else e).map Prod.fst
          = m.entries.map Prod.fst := by
        rw [List.map_map]
        refine List.map_congr_left ?_
        intro e _
        by_cases he : e.1 = k <;> simp [he]
      rw [hkeys]
      exact m.nodup
    · rename_i hk
      rw [contains_iff] at hk
      rw [List.map_append, List.nodup_append]
      refine ⟨m.nodup, by simp, ?_⟩
      rintro a ha b hb rfl
      simp only [List.map_cons, List.map_nil, List.mem_singleton] at hb
      exact hk (hb ▸ ha)

theorem entries_put_of_not_mem {m : LinkedMap K V} {k : K} (v : V) (h : k ∉ m.keys) :
    (m.put k v).entries = m.entries ++ [(k, v)] := by
  rw [← contains_iff] at h
  simp [put, h]

theorem entries_put_of_mem {m : LinkedMap K V} {k : K} (v : V) (h : k ∈ m.keys) :
    (m.put k v).entries = m.entries.map fun e => if e.1 = k then (k, v) else e := by
  rw [← contains_iff] at h
  simp [put, h]

/-- A search for `k` finds its binding; if there is none, there is nothing to unbind. -/
theorem find?_key (m : LinkedMap K V) (k : K) :
    (m.entries.find? (fun e => e.1 = k) = none ∧ m.remove k = m) ∨
      ∃ v, m.entries.find? (fun e => e.1 = k) = some (k, v) := by
  cases hfind : m.entries.find? fun e => e.1 = k with
  | none =>
    refine .inl ⟨rfl, ext_entries (List.filter_eq_self.2 ?_)⟩
    intro e he
    simpa using List.find?_eq_none.1 hfind e he
  | some e =>
    obtain rfl : e.1 = k := by simpa using List.find?_some hfind
    exact .inr ⟨e.2, rfl⟩

/-- There is one binding of a key. -/
theorem filter_key_eq {m : LinkedMap K V} {k : K} {v : V} (h : m.get? k = some v) :
    m.entries.filter (fun e => e.1 = k) = [(k, v)] := by
  have hmem := mem_entries_of_get? h
  have hnodup := m.nodup
  generalize m.entries = l at hmem hnodup
  induction l with
  | nil => cases hmem
  | cons e l ih =>
    rw [List.map_cons, List.nodup_cons] at hnodup
    by_cases hkey : e.1 = k
    · have hrest : ∀ e' ∈ l, e'.1 ≠ k := fun e' he' heq =>
        hnodup.1 (List.mem_map.2 ⟨e', he', heq.trans hkey.symm⟩)
      have he : e = (k, v) := by
        obtain he | he := List.mem_cons.1 hmem
        · exact he.symm
        · exact absurd rfl (hrest _ he)
      rw [List.filter_cons_of_pos (by simpa using hkey), he,
        List.filter_eq_nil_iff.2 fun e' he' => by simpa using hrest e' he']
    · rw [List.filter_cons_of_neg (by simpa using hkey)]
      obtain rfl | he := List.mem_cons.1 hmem
      · exact absurd rfl hkey
      · exact ih he hnodup.2

theorem get?_remove (m : LinkedMap K V) (k k' : K) :
    (m.remove k).get? k' = if k' = k then none else m.get? k' := by
  by_cases hk : k' = k
  · rw [if_pos hk, get?_eq_none_iff, keys, remove, hk]
    simp
  · rw [if_neg hk]
    refine Option.ext fun v => ?_
    rw [get?_eq_some_iff, get?_eq_some_iff, remove, List.mem_filter]
    simp [hk]

theorem get?_put (m : LinkedMap K V) (k : K) (v : V) (k' : K) :
    (m.put k v).get? k' = if k' = k then some v else m.get? k' := by
  refine Option.ext fun w => ?_
  rw [get?_eq_some_iff]
  by_cases hk : k ∈ m.keys
  · rw [entries_put_of_mem v hk, List.mem_map]
    by_cases hkk : k' = k
    · subst hkk
      obtain ⟨e, he, hek⟩ := List.mem_map.1 hk
      rw [if_pos rfl, Option.some.injEq]
      constructor
      · rintro ⟨e', -, heq⟩
        by_cases h' : e'.1 = k'
        · rw [if_pos h'] at heq
          exact (Prod.mk.inj heq).2
        · rw [if_neg h'] at heq
          exact absurd (congrArg Prod.fst heq) h'
      · rintro rfl
        exact ⟨e, he, by rw [if_pos hek]⟩
    · rw [if_neg hkk, get?_eq_some_iff]
      constructor
      · rintro ⟨e', he', heq⟩
        by_cases h' : e'.1 = k
        · rw [if_pos h'] at heq
          exact absurd (congrArg Prod.fst heq).symm hkk
        · rw [if_neg h'] at heq
          exact heq ▸ he'
      · intro h
        exact ⟨(k', w), h, by rw [if_neg hkk]⟩
  · rw [entries_put_of_not_mem v hk, List.mem_append, List.mem_singleton, Prod.mk.injEq]
    by_cases hkk : k' = k
    · subst hkk
      have hnot : (k', w) ∉ m.entries := fun h => hk (List.mem_map.2 ⟨_, h, rfl⟩)
      simp [hnot, eq_comm]
    · simp [hkk, get?_eq_some_iff]

theorem contains_put (m : LinkedMap K V) (k : K) (v : V) (k' : K) :
    (m.put k v).contains k' = (decide (k' = k) || m.contains k') := by
  rw [contains, get?_put]
  by_cases h : k' = k <;> simp [h, contains]

theorem contains_remove (m : LinkedMap K V) (k k' : K) :
    (m.remove k).contains k' = (!decide (k' = k) && m.contains k') := by
  rw [contains, get?_remove]
  by_cases h : k' = k <;> simp [h, contains]

theorem mem_keys_remove {m : LinkedMap K V} {k k' : K} :
    k' ∈ (m.remove k).keys ↔ k' ≠ k ∧ k' ∈ m.keys := by
  rw [← contains_iff, contains_remove, Bool.and_eq_true, contains_iff]
  simp

theorem mem_keys_put {m : LinkedMap K V} {k k' : K} {v : V} :
    k' ∈ (m.put k v).keys ↔ k' = k ∨ k' ∈ m.keys := by
  rw [← contains_iff, contains_put, Bool.or_eq_true, contains_iff]
  simp

theorem mem_entries_put {m : LinkedMap K V} {k : K} {v : V} {e : K × V} :
    e ∈ (m.put k v).entries ↔ e = (k, v) ∨ e.1 ≠ k ∧ e ∈ m.entries := by
  obtain ⟨k', v'⟩ := e
  rw [← get?_eq_some_iff, get?_put, ← get?_eq_some_iff]
  by_cases h : k' = k
  · simp [h, eq_comm]
  · simp [h]

/-! ## Many bindings at once -/

/-- Put the bindings of a list one after the other: `++`, and `toMap` on the empty map. -/
def putAll (m : LinkedMap K V) (l : List (K × V)) : LinkedMap K V :=
  l.foldl (fun m e => m.put e.1 e.2) m

theorem get?_putAll_of_not_mem {m : LinkedMap K V} {l : List (K × V)} {k : K}
    (h : ∀ e ∈ l, e.1 ≠ k) : (m.putAll l).get? k = m.get? k := by
  induction l generalizing m with
  | nil => rfl
  | cons e l ih =>
    rw [putAll, List.foldl_cons, ← putAll, ih fun e' he' => h e' (List.mem_cons_of_mem _ he'),
      get?_put, if_neg fun heq => h e (by simp) heq.symm]

theorem mem_keys_putAll {m : LinkedMap K V} {l : List (K × V)} {k : K} :
    k ∈ (m.putAll l).keys ↔ k ∈ m.keys ∨ k ∈ l.map Prod.fst := by
  induction l generalizing m with
  | nil => simp [putAll]
  | cons e l ih =>
    rw [putAll, List.foldl_cons, ← putAll, ih, mem_keys_put, List.map_cons, List.mem_cons]
    tauto

/-- All bindings of `k` in the list have the same value. -/
theorem get?_putAll_of_mem {m : LinkedMap K V} {l : List (K × V)} {k : K} {v : V}
    (hmem : (k, v) ∈ l) (h : ∀ e ∈ l, e.1 = k → e.2 = v) : (m.putAll l).get? k = some v := by
  induction l generalizing m with
  | nil => cases hmem
  | cons e l ih =>
    rw [putAll, List.foldl_cons, ← putAll]
    by_cases hin : (k, v) ∈ l
    · exact ih hin fun e' he' => h e' (List.mem_cons_of_mem _ he')
    · have hnot : ∀ e' ∈ l, e'.1 ≠ k := by
        rintro ⟨k', v'⟩ he' rfl
        obtain rfl := h _ (List.mem_cons_of_mem _ he') rfl
        exact hin he'
      obtain rfl := (List.mem_cons.1 hmem).resolve_right hin
      rw [get?_putAll_of_not_mem hnot, get?_put, if_pos rfl]

/-- The last binding of a key is what a list of bindings leaves. -/
theorem get?_putAll_last (m : LinkedMap K V) (pre : List (K × V)) {post : List (K × V)} {k : K}
    {v : V} (h : ∀ e ∈ post, e.1 ≠ k) : (m.putAll (pre ++ (k, v) :: post)).get? k = some v := by
  have hsplit : m.putAll (pre ++ (k, v) :: post) = ((m.putAll pre).put k v).putAll post := by
    simp only [putAll, List.foldl_append, List.foldl_cons]
  rw [hsplit, get?_putAll_of_not_mem h, get?_put, if_pos rfl]

/-- A list that has some element has a last one. -/
theorem exists_last {α : Type*} {p : α → Prop} {l : List α} (h : ∃ x ∈ l, p x) :
    ∃ pre x post, l = pre ++ x :: post ∧ p x ∧ ∀ y ∈ post, ¬p y := by
  induction l with
  | nil =>
    obtain ⟨x, hx, -⟩ := h
    cases hx
  | cons a l ih =>
    by_cases hlater : ∃ x ∈ l, p x
    · obtain ⟨pre, x, post, rfl, hx, hpost⟩ := ih hlater
      exact ⟨a :: pre, x, post, rfl, hx, hpost⟩
    · obtain ⟨x, hx, hp⟩ := h
      obtain rfl | hx := List.mem_cons.1 hx
      · exact ⟨[], x, l, rfl, hp, fun y hy hy' => hlater ⟨y, hy, hy'⟩⟩
      · exact absurd ⟨x, hx, hp⟩ hlater

/-- The second of two maps wins. -/
theorem get?_putAll_entries (m n : LinkedMap K V) (k : K) :
    (m.putAll n.entries).get? k = (n.get? k).or (m.get? k) := by
  cases hget : n.get? k with
  | none =>
    refine get?_putAll_of_not_mem fun e he heq => ?_
    exact get?_eq_none_iff.1 hget (List.mem_map.2 ⟨e, he, heq⟩)
  | some v =>
    refine get?_putAll_of_mem (mem_entries_of_get? hget) fun e he heq => ?_
    have hsame := get?_of_mem_entries he
    rw [heq, hget] at hsame
    exact (Option.some.inj hsame).symm

/-! ## Counting values -/

/-- In a list with distinct keys, dropping the binding of `k` takes away exactly
its own contribution to the count. -/
theorem countP_filter_key {l : List (K × V)} (hnd : (l.map Prod.fst).Nodup) {k : K} {v : V}
    (hmem : (k, v) ∈ l) (p : V → Bool) :
    (l.filter fun e => e.1 ≠ k).countP (fun e => p e.2) + (if p v then 1 else 0)
      = l.countP fun e => p e.2 := by
  induction l with
  | nil => exact absurd hmem List.not_mem_nil
  | cons e l ih =>
    rw [List.map_cons, List.nodup_cons] at hnd
    rcases List.mem_cons.1 hmem with rfl | hmem'
    · have hrest : (l.filter fun e => e.1 ≠ k) = l := by
        rw [List.filter_eq_self]
        intro e he
        have hne : e.1 ≠ k := fun h => hnd.1 (List.mem_map.2 ⟨e, he, h⟩)
        simp [hne]
      rw [List.filter_cons_of_neg (by simp), hrest, List.countP_cons]
    · have hne : e.1 ≠ k := fun h => hnd.1 (List.mem_map.2 ⟨_, hmem', h.symm⟩)
      rw [List.filter_cons_of_pos (by simpa using hne), List.countP_cons, List.countP_cons,
        ← ih hnd.2 hmem']
      omega

theorem countV_remove_some {m : LinkedMap K V} {k : K} {v : V} (h : m.get? k = some v)
    (p : V → Bool) : (m.remove k).countV p + (if p v then 1 else 0) = m.countV p :=
  countP_filter_key m.nodup (mem_entries_of_get? h) p

theorem countV_put_none {m : LinkedMap K V} {k : K} (v : V) (h : m.get? k = none)
    (p : V → Bool) : (m.put k v).countV p = m.countV p + (if p v then 1 else 0) := by
  rw [countV, entries_put_of_not_mem v (get?_eq_none_iff.1 h), List.countP_append]
  simp [countV]

/-- Replacing the value of `k` in place swaps its contribution to the count. -/
theorem countP_map_key {l : List (K × V)} (hnd : (l.map Prod.fst).Nodup) {k : K} {w : V}
    (hmem : (k, w) ∈ l) (v : V) (p : V → Bool) :
    (l.map fun e => if e.1 = k then (k, v) else e).countP (fun e => p e.2)
        + (if p w then 1 else 0)
      = l.countP (fun e => p e.2) + (if p v then 1 else 0) := by
  induction l with
  | nil => exact absurd hmem List.not_mem_nil
  | cons e l ih =>
    rw [List.map_cons, List.nodup_cons] at hnd
    rw [List.map_cons, List.countP_cons, List.countP_cons]
    rcases List.mem_cons.1 hmem with rfl | hmem'
    · have hrest : (l.map fun e => if e.1 = k then (k, v) else e) = l := by
        conv_rhs => rw [← List.map_id l]
        refine List.map_congr_left ?_
        intro e he
        have hne : e.1 ≠ k := fun h => hnd.1 (List.mem_map.2 ⟨e, he, h⟩)
        simp [hne]
      rw [hrest, if_pos rfl]
      simp only
      omega
    · have hne : e.1 ≠ k := fun h => hnd.1 (List.mem_map.2 ⟨_, hmem', h.symm⟩)
      have := ih hnd.2 hmem'
      rw [if_neg hne]
      omega

theorem countV_put_some {m : LinkedMap K V} {k : K} {w : V} (v : V) (h : m.get? k = some w)
    (p : V → Bool) :
    (m.put k v).countV p + (if p w then 1 else 0) = m.countV p + (if p v then 1 else 0) := by
  have hmem := mem_entries_of_get? h
  rw [countV, entries_put_of_mem v (List.mem_map.2 ⟨_, hmem, rfl⟩)]
  exact countP_map_key m.nodup hmem v p

theorem countV_put_same {m : LinkedMap K V} {k : K} {v w : V} {p : V → Bool}
    (h : m.get? k = some w) (hsame : p v = p w) : (m.put k v).countV p = m.countV p := by
  have hput := countV_put_some v h p
  rw [hsame] at hput
  omega

/-- Binding `k` is unbinding it and adding the new value. -/
theorem countV_put (m : LinkedMap K V) (k : K) (v : V) (p : V → Bool) :
    (m.put k v).countV p = (m.remove k).countV p + (if p v then 1 else 0) := by
  cases hget : m.get? k with
  | some w =>
    have hput := countV_put_some v hget p
    have hremove := countV_remove_some hget p
    omega
  | none =>
    have hsame : m.remove k = m := by
      refine ext_entries ?_
      rw [remove, List.filter_eq_self]
      intro e he
      have hne : e.1 ≠ k := fun h => get?_eq_none_iff.1 hget (List.mem_map.2 ⟨e, he, h⟩)
      simp [hne]
    rw [countV_put_none v hget, hsame]

theorem countV_remove_le (m : LinkedMap K V) (k : K) (p : V → Bool) :
    (m.remove k).countV p ≤ m.countV p :=
  m.countV_filter_le _ p

theorem size_remove_le (m : LinkedMap K V) (k : K) : (m.remove k).size ≤ m.size :=
  List.length_filter_le _ _

theorem size_put (m : LinkedMap K V) (k : K) (v : V) :
    (m.put k v).size = (m.remove k).size + 1 := by
  rw [size_eq_countV, size_eq_countV, countV_put, if_pos rfl]

theorem size_put_same {m : LinkedMap K V} {k : K} {v w : V} (h : m.get? k = some w) :
    (m.put k v).size = m.size := by
  rw [size_eq_countV, size_eq_countV]
  exact countV_put_same h rfl

theorem countV_eq_zero {m : LinkedMap K V} {p : V → Bool}
    (h : ∀ k v, m.get? k = some v → p v = false) : m.countV p = 0 := by
  rw [countV, List.countP_eq_zero]
  rintro ⟨k, v⟩ hmem
  simp [h k v (get?_of_mem_entries hmem)]

/-- A property that the value of `k` has and no other value is counted once. -/
theorem countV_eq_one {m : LinkedMap K V} {p : V → Bool} {k : K} {v : V}
    (hget : m.get? k = some v) (hv : p v = true)
    (h : ∀ k' v', m.get? k' = some v' → p v' = true → k' = k) : m.countV p = 1 := by
  have hrest : (m.remove k).countV p = 0 := by
    refine countV_eq_zero ?_
    intro k' v' hget'
    rw [get?_remove] at hget'
    split at hget'
    · cases hget'
    · rename_i hne
      by_contra hp
      exact hne (h k' v' hget' (by simpa using hp))
  have := countV_remove_some hget p
  rw [if_pos hv, hrest] at this
  omega

end LinkedMap

end Sparkz.Lib
