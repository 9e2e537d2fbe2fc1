import Sparkz.Lib.LeafTreeBalance

/-!
# Searching a leaf-oriented tree

* `searchPath` — the way to a key: once an inner node with the key is met, it goes right
  there and then always left.  `meets` — is there such a node?
* `search_spec` — the way ends at the leaf that has the key, if it was met, and at the leaf
  whose gap the key falls into otherwise.
* `path_eq_search` — no other way leads to such a leaf.
* `get` — the value of a key; `get_of_search` — what the leaf at the end of the way says
  about it; `get_update`, `get_insert`, `get_remove` — what a change of the bindings does.
-/

namespace Sparkz.Lib.LeafTree

variable {τ D K V : Type} [LinearOrder K]

/-- The way to a key that was, or was not, met. -/
def searchPath (key : K) : Bool → LeafTree τ D K V → List Bool
  | true, node _ _ l _ _ => true :: searchPath key true l
  | false, node _ k l r _ =>
      if key < k then true :: searchPath key false l
      else if key = k then false :: searchPath key true r
      else false :: searchPath key false r
  | _, _ => []

/-- Is there an inner node with the key on the way to it? -/
def meets (key : K) : LeafTree τ D K V → Bool
  | node _ k l r _ => if key < k then meets key l else if key = k then true else meets key r
  | _ => false

/-- The value of a key. -/
def get (t : LeafTree τ D K V) (key : K) : Option V :=
  (t.entries.find? fun e => e.1 = key).map Prod.snd

variable {t t' : LeafTree τ D K V} {lo hi key : K}

/-- The way through an inner node has a step. -/
theorem length_searchPath_pos (key : K) (found : Bool) (tag : Option τ) (k : K)
    (l r : LeafTree τ D K V) (b : Int8) :
    0 < (searchPath key found (node tag k l r b)).length := by
  cases found with
  | true => exact Nat.succ_pos _
  | false =>
    rw [searchPath]
    split
    · exact Nat.succ_pos _
    · split <;> exact Nat.succ_pos _

/-- Once the key is met, the way leads to the first leaf. -/
theorem leafAt_searchPath_true (h : Chain lo hi t) :
    ∃ v n, leafAt t (searchPath key true t) = some (lo, v, n) ∧ (lo, v) ∈ t.entries := by
  induction t generalizing lo hi with
  | stub d => exact h.elim
  | leaf tag k v n =>
    obtain ⟨rfl, rfl, -⟩ := h
    exact ⟨v, n, rfl, List.mem_singleton_self _⟩
  | node tag k l r b ihl _ =>
    obtain ⟨v, n, hleaf, hmem⟩ := ihl h.1
    exact ⟨v, n, hleaf, List.mem_append_left _ hmem⟩

/-- **The way to a key** ends at its leaf if the key is met, and otherwise at the leaf whose
gap it falls into. -/
theorem search_spec (h : Chain lo hi t) (hlo : lo < key) (hhi : key < hi) :
    ∃ k v n, leafAt t (searchPath key false t) = some (k, v, n) ∧ (k, v) ∈ t.entries
      ∧ (meets key t = true → k = key)
      ∧ (meets key t = false → k < key ∧ key < n ∧ ∀ e ∈ t.entries, e.1 ≠ key) := by
  induction t generalizing lo hi with
  | stub d => exact h.elim
  | leaf tag k v n =>
    obtain ⟨rfl, rfl, -⟩ := h
    refine ⟨k, v, n, rfl, List.mem_singleton_self _, fun hm => (by cases hm),
      fun _ => ⟨hlo, hhi, ?_⟩⟩
    intro e he
    rw [List.mem_singleton.1 he]
    exact hlo.ne
  | node tag k l r b ihl ihr =>
    rw [searchPath, meets]
    rcases lt_trichotomy key k with hlt | rfl | hgt
    · obtain ⟨kl, v, n, hleaf, hmem, hmet, hgap⟩ := ihl h.1 hlo hlt
      rw [if_pos hlt, if_pos hlt]
      refine ⟨kl, v, n, hleaf, List.mem_append_left _ hmem, hmet, fun hm => ?_⟩
      obtain ⟨h₁, h₂, h₃⟩ := hgap hm
      refine ⟨h₁, h₂, fun e he => ?_⟩
      rcases List.mem_append.1 he with he | he
      · exact h₃ e he
      · exact (hlt.trans_le (h.2.mem_entries he).1).ne'
    · obtain ⟨v, n, hleaf, hmem⟩ : ∃ v n, leafAt r (searchPath key true r) = some (key, v, n) ∧
          (key, v) ∈ r.entries := leafAt_searchPath_true h.2
      rw [if_neg (lt_irrefl key), if_pos rfl, if_neg (lt_irrefl key), if_pos rfl]
      exact ⟨key, v, n, hleaf, List.mem_append_right _ hmem, fun _ => rfl, fun hm => (by cases hm)⟩
    · obtain ⟨kr, v, n, hleaf, hmem, hmet, hgap⟩ := ihr h.2 hgt hhi
      rw [if_neg (not_lt.2 hgt.le), if_neg hgt.ne', if_neg (not_lt.2 hgt.le), if_neg hgt.ne']
      refine ⟨kr, v, n, hleaf, List.mem_append_right _ hmem, hmet, fun hm => ?_⟩
      obtain ⟨h₁, h₂, h₃⟩ := hgap hm
      refine ⟨h₁, h₂, fun e he => ?_⟩
      rcases List.mem_append.1 he with he | he
      · exact ((h.1.mem_entries he).2.trans hgt).ne
      · exact h₃ e he

/-- The leaf at the end of a way: its keys lie between the ends of the chain, and the second
one is the key of a leaf again unless the chain ends there. -/
theorem Chain.of_leafAt (h : Chain lo hi t) {path : List Bool} {k : K} {v : V} {n : K}
    (hleaf : leafAt t path = some (k, v, n)) :
    lo ≤ k ∧ k < n ∧ n ≤ hi ∧ (k, v) ∈ t.entries ∧ (n = hi ∨ ∃ w, (n, w) ∈ t.entries) := by
  induction t generalizing lo hi path with
  | stub d => exact h.elim
  | leaf tag k' v' n' =>
    obtain ⟨rfl, rfl, hlt⟩ := h
    cases path with
    | nil =>
      cases hleaf
      exact ⟨le_rfl, hlt, le_rfl, List.mem_singleton_self _, .inl rfl⟩
    | cons d path => cases hleaf
  | node tag k' l r b ihl ihr =>
    cases path with
    | nil => cases hleaf
    | cons d path =>
      cases d with
      | true =>
        obtain ⟨h₁, h₂, h₃, h₄, h₅⟩ := ihl h.1 hleaf
        refine ⟨h₁, h₂, h₃.trans h.2.lt.le, List.mem_append_left _ h₄, .inr ?_⟩
        rcases h₅ with rfl | ⟨w, hw⟩
        · obtain ⟨w, rest, hent⟩ := h.2.entries_eq_cons
          exact ⟨w, List.mem_append_right _ (hent ▸ List.mem_cons_self)⟩
        · exact ⟨w, List.mem_append_left _ hw⟩
      | false =>
        obtain ⟨h₁, h₂, h₃, h₄, h₅⟩ := ihr h.2 hleaf
        refine ⟨h.1.lt.le.trans h₁, h₂, h₃, List.mem_append_right _ h₄, h₅.imp_right ?_⟩
        rintro ⟨w, hw⟩
        exact ⟨w, List.mem_append_right _ hw⟩

/-- The only way to the first leaf. -/
theorem path_eq_first (h : Chain lo hi t) {path : List Bool} {v : V} {n : K}
    (hleaf : leafAt t path = some (lo, v, n)) : path = searchPath key true t := by
  induction t generalizing hi path with
  | stub d => exact h.elim
  | leaf tag k' v' n' =>
    cases path with
    | nil => rfl
    | cons d path => cases hleaf
  | node tag k' l r b ihl ihr =>
    cases path with
    | nil => cases hleaf
    | cons d path =>
      cases d with
      | true =>
        rw [searchPath]
        exact congrArg _ (ihl h.1 hleaf)
      | false => exact absurd (h.2.of_leafAt hleaf).1 (not_le.2 h.1.lt)

/-- **The only way to a key**: the leaf whose gap it falls into, or that has it, is found by
the search. -/
theorem path_eq_search (h : Chain lo hi t) (hlo : lo < key) {path : List Bool} {k : K} {v : V}
    {n : K} (hleaf : leafAt t path = some (k, v, n)) (hk : k ≤ key) (hn : key < n) :
    path = searchPath key false t ∧ (meets key t = true ↔ k = key) := by
  induction t generalizing lo hi path with
  | stub d => exact h.elim
  | leaf tag k' v' n' =>
    obtain ⟨rfl, -, -⟩ := h
    cases path with
    | nil =>
      cases hleaf
      exact ⟨rfl, fun hm => (by cases hm), fun hm => absurd hm hlo.ne⟩
    | cons d path => cases hleaf
  | node tag k' l r b ihl ihr =>
    rw [searchPath, meets]
    cases path with
    | nil => cases hleaf
    | cons d path =>
      cases d with
      | true =>
        have hlt : key < k' := hn.trans_le (h.1.of_leafAt hleaf).2.2.1
        rw [if_pos hlt, if_pos hlt]
        obtain ⟨hpath, hmeets⟩ := ihl h.1 hlo hleaf
        exact ⟨congrArg _ hpath, hmeets⟩
      | false =>
        have hge : k' ≤ k := (h.2.of_leafAt hleaf).1
        rw [if_neg (not_lt.2 (hge.trans hk)), if_neg (not_lt.2 (hge.trans hk))]
        by_cases heq : key = k'
        · obtain rfl : k = k' := le_antisymm (hk.trans heq.le) hge
          rw [if_pos heq, if_pos heq]
          exact ⟨congrArg _ (path_eq_first h.2 hleaf), fun _ => heq.symm, fun _ => rfl⟩
        · rw [if_neg heq, if_neg heq]
          obtain ⟨hpath, hmeets⟩ :=
            ihr h.2 (lt_of_le_of_ne (hge.trans hk) (Ne.symm heq)) hleaf
          exact ⟨congrArg _ hpath, hmeets⟩

/-! ## Values -/

theorem mem_of_get {v : V} (h : t.get key = some v) : (key, v) ∈ t.entries := by
  rw [get, Option.map_eq_some_iff] at h
  obtain ⟨⟨k, w⟩, hfind, rfl⟩ := h
  have hk : k = key := by simpa using List.find?_some hfind
  exact hk ▸ List.mem_of_find?_eq_some hfind

theorem get_eq_some_iff (h : Chain lo hi t) {v : V} :
    t.get key = some v ↔ (key, v) ∈ t.entries := by
  refine ⟨mem_of_get, fun hmem => ?_⟩
  obtain ⟨pre, post, hent⟩ := List.append_of_mem hmem
  have hsorted := h.sorted
  rw [hent, List.pairwise_append] at hsorted
  have hpre : pre.find? (fun e => e.1 = key) = none := by
    rw [List.find?_eq_none]
    intro e he heq
    have hlt := hsorted.2.2 e he (key, v) (List.mem_cons_self ..)
    exact hlt.ne (by simpa using heq)
  rw [get, hent, List.find?_append, hpre, Option.none_or, List.find?_cons_of_pos (by simp)]
  rfl

theorem get_eq_none_iff : t.get key = none ↔ ∀ e ∈ t.entries, e.1 ≠ key := by
  rw [get, Option.map_eq_none_iff, List.find?_eq_none]
  simp

/-- The value of a key is the one of the leaf at the end of its way. -/
theorem get_of_search (h : Chain lo hi t) (hlo : lo < key) (hhi : key < hi) {k : K} {v : V} {n : K}
    (hleaf : leafAt t (searchPath key false t) = some (k, v, n)) :
    t.get key = if meets key t then some v else none := by
  obtain ⟨k', v', n', hleaf', hmem, hmet, hgap⟩ := search_spec h hlo hhi
  rw [hleaf] at hleaf'
  cases hleaf'
  cases hm : meets key t with
  | true =>
    rw [if_pos rfl, get_eq_some_iff h]
    rwa [hmet hm] at hmem
  | false =>
    rw [if_neg Bool.false_ne_true, get_eq_none_iff]
    exact (hgap hm).2.2

/-- A key that has a value is met. -/
theorem meets_of_isSome (h : Chain lo hi t) (hlo : lo < key) (hhi : key < hi)
    (hs : (t.get key).isSome = true) : meets key t = true := by
  obtain ⟨k, v, n, hleaf, _⟩ := search_spec h hlo hhi
  rw [get_of_search h hlo hhi hleaf] at hs
  cases hmeets : meets key t with
  | true => rfl
  | false =>
    rw [hmeets] at hs
    cases hs

/-- A tree that has the same bindings but for those of one key. -/
theorem get_of_entries (h : Chain lo hi t) (h' : Chain lo hi t') {new : Option V}
    (hent : ∀ k v, (k, v) ∈ t'.entries ↔ k ≠ key ∧ (k, v) ∈ t.entries ∨ k = key ∧ new = some v)
    (key' : K) : t'.get key' = if key' = key then new else t.get key' := by
  refine Option.ext fun w => ?_
  rw [get_eq_some_iff h', hent]
  by_cases hk : key' = key
  · simp [hk]
  · simp [hk, get_eq_some_iff h]

/-- Two chains with the same values have the same bindings. -/
theorem entries_eq_of_get {lo' hi' : K} (h : Chain lo hi t) (h' : Chain lo' hi' t')
    (hget : ∀ key, t.get key = t'.get key) : t.entries = t'.entries := by
  have hnodup : ∀ {s : LeafTree τ D K V} {lo hi : K}, Chain lo hi s → s.entries.Nodup :=
    fun hs => hs.sorted.imp fun hlt heq => hlt.ne (congrArg Prod.fst heq)
  have hperm : t.entries.Perm t'.entries := by
    refine (List.perm_ext_iff_of_nodup (hnodup h) (hnodup h')).2 fun e => ?_
    rw [← get_eq_some_iff h, ← get_eq_some_iff h', hget]
  exact hperm.eq_of_pairwise (fun e f _ _ hef hfe => absurd hfe hef.asymm) h.sorted h'.sorted

/-- No other binding has the key of a binding. -/
theorem Chain.ne_of_entries (h : Chain lo hi t) {pre post : List (K × V)} {k : K} {v : V}
    (hent : t.entries = pre ++ (k, v) :: post) {e : K × V} (he : e ∈ pre ∨ e ∈ post) : e.1 ≠ k := by
  have hsorted := h.sorted
  rw [hent, List.pairwise_append, List.pairwise_cons] at hsorted
  rcases he with he | he
  · exact (hsorted.2.2 e he (k, v) (List.mem_cons_self ..)).ne
  · exact (hsorted.2.1.1 e he).ne'

/-- A value is changed. -/
theorem get_update (h : Chain lo hi t) (h' : Chain lo hi t') {pre post : List (K × V)} {v w : V}
    (hent : t.entries = pre ++ (key, v) :: post) (hent' : t'.entries = pre ++ (key, w) :: post)
    (key' : K) : t'.get key' = if key' = key then some w else t.get key' := by
  refine get_of_entries h h' ?_ key'
  intro k u
  have hne := fun he => h.ne_of_entries (e := (k, u)) hent he
  rw [hent, hent']
  simp only [List.mem_append, List.mem_cons, Prod.mk.injEq, Option.some.injEq]
  constructor
  · rintro (hin | ⟨rfl, rfl⟩ | hin)
    · exact .inl ⟨hne (.inl hin), .inl hin⟩
    · exact .inr ⟨rfl, rfl⟩
    · exact .inl ⟨hne (.inr hin), .inr (.inr hin)⟩
  · rintro (⟨hk, hin | ⟨rfl, -⟩ | hin⟩ | ⟨rfl, rfl⟩)
    · exact .inl hin
    · exact absurd rfl hk
    · exact .inr (.inr hin)
    · exact .inr (.inl ⟨rfl, rfl⟩)

/-- A binding is put behind another one. -/
theorem get_insert (h : Chain lo hi t) (h' : Chain lo hi t') {pre post : List (K × V)} {k : K}
    {v w : V} (hnone : t.get key = none) (hent : t.entries = pre ++ (k, v) :: post)
    (hent' : t'.entries = pre ++ [(k, v), (key, w)] ++ post) (key' : K) :
    t'.get key' = if key' = key then some w else t.get key' := by
  refine get_of_entries h h' ?_ key'
  intro k' u
  have hne := fun he => get_eq_none_iff.1 hnone (k', u) he
  rw [hent] at hne ⊢
  rw [hent']
  simp only [List.mem_append, List.mem_cons, Prod.mk.injEq, Option.some.injEq, List.not_mem_nil,
    or_false] at hne ⊢
  constructor
  · rintro ((hin | hin | ⟨rfl, rfl⟩) | hin)
    · exact .inl ⟨hne (.inl hin), .inl hin⟩
    · exact .inl ⟨hne (.inr (.inl hin)), .inr (.inl hin)⟩
    · exact .inr ⟨rfl, rfl⟩
    · exact .inl ⟨hne (.inr (.inr hin)), .inr (.inr hin)⟩
  · rintro (⟨-, hin | hin | hin⟩ | ⟨rfl, rfl⟩)
    · exact .inl (.inl hin)
    · exact .inl (.inr (.inl hin))
    · exact .inr hin
    · exact .inl (.inr (.inr ⟨rfl, rfl⟩))

/-- A binding is removed. -/
theorem get_remove (h : Chain lo hi t) (h' : Chain lo hi t') {pre post : List (K × V)} {v : V}
    (hent : t.entries = pre ++ (key, v) :: post) (hent' : t'.entries = pre ++ post) (key' : K) :
    t'.get key' = if key' = key then none else t.get key' := by
  refine get_of_entries h h' ?_ key'
  intro k u
  have hne := fun he => h.ne_of_entries (e := (k, u)) hent he
  rw [hent, hent']
  simp only [List.mem_append, List.mem_cons, Prod.mk.injEq]
  constructor
  · intro hin
    exact .inl ⟨hne hin, hin.imp_right .inr⟩
  · rintro (⟨hk, hin | ⟨rfl, -⟩ | hin⟩ | ⟨-, hin⟩)
    · exact .inl hin
    · exact absurd rfl hk
    · exact .inr hin
    · cases hin

end Sparkz.Lib.LeafTree
