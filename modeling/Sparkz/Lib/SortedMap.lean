import Mathlib

/-!
# Finite maps in the order of their keys

The bindings of a finite map kept in increasing order of the keys: the behaviour of
Scala's immutable `TreeMap`.

* `insert`, `erase`, `head?` — the operations; `insert` on a present key replaces its
  value.
* `mem_keys_insert`, `mem_keys_erase` — the keys after an operation.
* `head?_le` — the head has the smallest key.
* `get` — the value of a key; `get_insert`, `get_erase` — the values after an operation;
  `ext_get` — a map is determined by its values.
-/

namespace Sparkz.Lib

/-- A finite map with its bindings in increasing order of the keys. -/
structure SortedMap (K V : Type*) [LinearOrder K] where
  /-- The bindings, smallest key first. -/
  entries : List (K × V)
  sorted : entries.Pairwise fun e e' => e.1 < e'.1

namespace SortedMap

variable {K V : Type*} [LinearOrder K]

/-- The map without bindings. -/
def empty : SortedMap K V := ⟨[], List.Pairwise.nil⟩

/-- The keys, in increasing order. -/
def keys (m : SortedMap K V) : List K := m.entries.map Prod.fst

/-- The binding with the smallest key. -/
def head? (m : SortedMap K V) : Option (K × V) := m.entries.head?

/-- `nonEmpty`. -/
def nonEmpty (m : SortedMap K V) : Bool := !m.entries.isEmpty

/-- Put a binding in its place in a list. -/
def insertEntry (k : K) (v : V) : List (K × V) → List (K × V)
  | [] => [(k, v)]
  | e :: es =>
      if k < e.1 then (k, v) :: e :: es
      else if k = e.1 then (k, v) :: es
      else e :: insertEntry k v es

theorem mem_insertEntry {k : K} {v : V} {es : List (K × V)} {e : K × V} :
    e ∈ insertEntry k v es → e = (k, v) ∨ e ∈ es := by
  induction es with
  | nil =>
    intro h
    exact .inl (List.mem_singleton.1 h)
  | cons e' es ih =>
    intro h
    rw [insertEntry] at h
    split at h
    · rcases List.mem_cons.1 h with rfl | h
      · exact .inl rfl
      · exact .inr h
    · split at h
      · rcases List.mem_cons.1 h with rfl | h
        · exact .inl rfl
        · exact .inr (List.mem_cons_of_mem _ h)
      · rcases List.mem_cons.1 h with rfl | h
        · exact .inr (List.mem_cons_self ..)
        · rcases ih h with rfl | h
          · exact .inl rfl
          · exact .inr (List.mem_cons_of_mem _ h)

theorem sorted_insertEntry {k : K} {v : V} {es : List (K × V)}
    (h : es.Pairwise fun e e' => e.1 < e'.1) :
    (insertEntry k v es).Pairwise fun e e' => e.1 < e'.1 := by
  induction es with
  | nil => exact List.pairwise_singleton _ _
  | cons e es ih =>
    rw [List.pairwise_cons] at h
    rw [insertEntry]
    split
    · rename_i hlt
      refine List.pairwise_cons.2 ⟨?_, List.pairwise_cons.2 h⟩
      intro e' he'
      rcases List.mem_cons.1 he' with rfl | he'
      · exact hlt
      · exact lt_trans hlt (h.1 e' he')
    · split
      · rename_i heq
        refine List.pairwise_cons.2 ⟨?_, h.2⟩
        intro e' he'
        exact heq ▸ h.1 e' he'
      · rename_i hnlt hne
        refine List.pairwise_cons.2 ⟨?_, ih h.2⟩
        intro e' he'
        rcases mem_insertEntry he' with rfl | he'
        · exact lt_of_le_of_ne (not_lt.1 hnlt) (Ne.symm hne)
        · exact h.1 e' he'

/-- Bind `k` to `v`. -/
def insert (m : SortedMap K V) (k : K) (v : V) : SortedMap K V :=
  ⟨insertEntry k v m.entries, sorted_insertEntry m.sorted⟩

/-- Unbind `k`. -/
def erase (m : SortedMap K V) (k : K) : SortedMap K V :=
  ⟨m.entries.filter fun e => e.1 ≠ k, m.sorted.filter _⟩

theorem mem_keys_insert {m : SortedMap K V} {k k' : K} {v : V} :
    k' ∈ (m.insert k v).keys ↔ k' = k ∨ k' ∈ m.keys := by
  show k' ∈ (insertEntry k v m.entries).map Prod.fst ↔ k' = k ∨ k' ∈ m.entries.map Prod.fst
  induction m.entries with
  | nil => simp [insertEntry]
  | cons e es ih =>
    rw [insertEntry]
    split
    · simp
    · split
      · rename_i heq
        simp [heq]
      · rw [List.map_cons, List.mem_cons, ih, List.map_cons, List.mem_cons]
        tauto

theorem mem_keys_erase {m : SortedMap K V} {k k' : K} :
    k' ∈ (m.erase k).keys ↔ k' ≠ k ∧ k' ∈ m.keys := by
  simp only [keys, erase, List.mem_map, List.mem_filter, decide_eq_true_eq]
  constructor
  · rintro ⟨e, ⟨hmem, hne⟩, rfl⟩
    exact ⟨hne, e, hmem, rfl⟩
  · rintro ⟨hne, e, hmem, rfl⟩
    exact ⟨e, ⟨hmem, hne⟩, rfl⟩

theorem nonEmpty_iff {m : SortedMap K V} : m.nonEmpty = true ↔ m.keys ≠ [] := by
  simp [nonEmpty, keys]

/-- The head is a binding of the map, and no key is smaller. -/
theorem head?_le {m : SortedMap K V} {k : K} {v : V} (h : m.head? = some (k, v)) :
    k ∈ m.keys ∧ ∀ k' ∈ m.keys, k ≤ k' := by
  obtain ⟨es, hes⟩ : ∃ es, m.entries = (k, v) :: es := List.head?_eq_some_iff.1 h
  have hsorted := m.sorted
  rw [hes, List.pairwise_cons] at hsorted
  rw [keys, hes]
  refine ⟨by simp, ?_⟩
  intro k' hk'
  obtain ⟨e, he, rfl⟩ := List.mem_map.1 hk'
  rcases List.mem_cons.1 he with rfl | he
  · exact le_refl _
  · exact le_of_lt (hsorted.1 e he)

/-! ## Values -/

/-- The value of a key. -/
def get (m : SortedMap K V) (k : K) : Option V := (m.entries.find? fun e => e.1 = k).map Prod.snd

theorem get_eq_some_iff {m : SortedMap K V} {k : K} {v : V} :
    m.get k = some v ↔ (k, v) ∈ m.entries := by
  obtain ⟨entries, hsorted⟩ := m
  show (entries.find? fun e => e.1 = k).map Prod.snd = some v ↔ (k, v) ∈ entries
  induction entries with
  | nil => simp
  | cons e es ih =>
    obtain ⟨hlt, hsorted⟩ := List.pairwise_cons.1 hsorted
    by_cases hk : e.1 = k
    · have hnot : (k, v) ∉ es := fun hmem => (hlt _ hmem).ne hk
      rw [List.find?_cons_of_pos (by simpa using hk), List.mem_cons, or_iff_left hnot,
        Option.map_some, Option.some.injEq, Prod.ext_iff]
      exact ⟨fun hv => ⟨hk.symm, hv.symm⟩, fun h => h.2.symm⟩
    · have hne : (k, v) ≠ e := fun heq => hk (heq ▸ rfl)
      rw [List.find?_cons_of_neg (by simpa using hk), ih hsorted, List.mem_cons,
        or_iff_right hne]

/-- A map is determined by its values. -/
theorem ext_get {m m' : SortedMap K V} (h : ∀ k, m.get k = m'.get k) : m = m' := by
  have hnodup : ∀ m : SortedMap K V, m.entries.Nodup := fun m =>
    m.sorted.imp fun hlt heq => hlt.ne (congrArg Prod.fst heq)
  have hperm : m.entries.Perm m'.entries := by
    refine (List.perm_ext_iff_of_nodup (hnodup m) (hnodup m')).2 fun e => ?_
    rw [← get_eq_some_iff, ← get_eq_some_iff, h]
  have hentries := hperm.eq_of_pairwise (fun e f _ _ hef hfe => absurd hfe hef.asymm)
    m.sorted m'.sorted
  cases m
  cases m'
  cases hentries
  rfl

theorem get_insert (m : SortedMap K V) (k k' : K) (v : V) :
    (m.insert k v).get k' = if k' = k then some v else m.get k' := by
  obtain ⟨entries, hsorted⟩ := m
  show ((insertEntry k v entries).find? fun e => e.1 = k').map Prod.snd
    = if k' = k then some v else (entries.find? fun e => e.1 = k').map Prod.snd
  induction entries with
  | nil =>
    rw [insertEntry]
    by_cases hk : k' = k
    · rw [if_pos hk, List.find?_cons_of_pos (by simp [hk])]
      rfl
    · rw [if_neg hk, List.find?_cons_of_neg (by simpa using Ne.symm hk)]
  | cons e es ih =>
    rw [insertEntry]
    by_cases hk : k' = k
    · subst hk
      rw [if_pos rfl]
      split
      · rw [List.find?_cons_of_pos (by simp)]
        rfl
      · split
        · rw [List.find?_cons_of_pos (by simp)]
          rfl
        · rename_i hne
          rw [List.find?_cons_of_neg (by simpa using Ne.symm hne),
            ih (List.pairwise_cons.1 hsorted).2, if_pos rfl]
    · rw [if_neg hk] at ih ⊢
      split
      · rw [List.find?_cons_of_neg (by simpa using Ne.symm hk)]
      · split
        · rename_i heq
          rw [List.find?_cons_of_neg (by simpa using Ne.symm hk),
            List.find?_cons_of_neg (by simpa [← heq] using Ne.symm hk)]
        · rw [List.find?_cons, List.find?_cons]
          split
          · rfl
          · exact ih (List.pairwise_cons.1 hsorted).2

theorem get_erase (m : SortedMap K V) (k k' : K) :
    (m.erase k).get k' = if k' = k then none else m.get k' := by
  refine Option.ext fun v => ?_
  have hmem : (k', v) ∈ (m.erase k).entries ↔ (k', v) ∈ m.entries ∧ k' ≠ k := by
    simp [erase]
  by_cases hk : k' = k
  · rw [if_pos hk, get_eq_some_iff, hmem]
    simp [hk]
  · rw [if_neg hk, get_eq_some_iff, get_eq_some_iff, hmem]
    simp [hk]

end SortedMap

end Sparkz.Lib
