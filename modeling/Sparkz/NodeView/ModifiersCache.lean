import Sparkz.Lib.LinkedMap
import Sparkz.NodeView.Holder

/-!
# The modifiers cache

The model of `DefaultModifiersCache`: modifiers that wait for their application,
in the order in which they came, with the eviction queue of `LRUCache`.

* `put`, `remove`, `findCandidateKey`, `popCandidate`, `cleanOverfull` — the
  operations.  The scan for a candidate removes every modifier that it meets and
  that can never be applied, before it stops at the first applicable one.
* `scan_eq` — what a scan does: it finds the first applicable entry and removes the
  `doomed` ones before it.
* `popCandidate_none`, `popCandidate_some` — what is left after a candidate was
  looked for.
* `removeUntilCorrectSize_spec` — what leaves an overfull cache is returned.
-/

namespace Sparkz.NodeView

open Sparkz.Lib

/-- `DefaultModifiersCache(maxSize)`. -/
structure ModifiersCache (Id PMOD : Type) where
  maxSize : ℕ
  one_le_maxSize : 1 ≤ maxSize
  cache : LinkedMap Id PMOD
  evictionQueue : List Id

namespace ModifiersCache

variable {Id PMOD HIS MS : Type} [DecidableEq Id]

/-- A new cache. -/
def new (maxSize : ℕ) (h : 1 ≤ maxSize) : ModifiersCache Id PMOD :=
  ⟨maxSize, h, .empty, []⟩

/-- `modifierById(modifierId)`. -/
def modifierById (c : ModifiersCache Id PMOD) (modifierId : Id) : Option PMOD :=
  c.cache.get? modifierId

/-- `contains(id)`. -/
def contains (c : ModifiersCache Id PMOD) (id : Id) : Bool := (c.modifierById id).isSome

/-- `size`. -/
def size (c : ModifiersCache Id PMOD) : ℕ := c.cache.size

/-- The number of removed keys that the eviction queue may hold. -/
def cleaningThreshold : ℕ := 50

/-- `onPut(key)`. -/
def onPut (c : ModifiersCache Id PMOD) (key : Id) : ModifiersCache Id PMOD :=
  let evictionQueue := c.evictionQueue ++ [key]
  if evictionQueue.length > c.maxSize + cleaningThreshold then
    { c with evictionQueue := evictionQueue.filter fun k => c.contains k }
  else { c with evictionQueue := evictionQueue }

/-- `put(key, value)`. -/
def put (c : ModifiersCache Id PMOD) (key : Id) (value : PMOD) : ModifiersCache Id PMOD :=
  if c.contains key then c
  else onPut { c with cache := c.cache.put key value } key

/-- `remove(key)`. -/
def remove (c : ModifiersCache Id PMOD) (key : Id) : Option PMOD × ModifiersCache Id PMOD :=
  (c.cache.get? key, { c with cache := c.cache.remove key })

/-- The search of `findCandidateKey` through the given entries. -/
def scan (ops : ChainOps Id PMOD HIS MS) (history : HIS) :
    List (Id × PMOD) → ModifiersCache Id PMOD → Option Id × ModifiersCache Id PMOD
  | [], c => (none, c)
  | (k, v) :: rest, c =>
      match ops.applicableTry history v with
      | .ok _ => (some k, c)
      | .error e =>
          if e.isRecoverable then scan ops history rest c
          else scan ops history rest (c.remove k).2

/-- `findCandidateKey(history)`, with the cache that the search leaves. -/
def findCandidateKey (ops : ChainOps Id PMOD HIS MS) (history : HIS)
    (c : ModifiersCache Id PMOD) : Option Id × ModifiersCache Id PMOD :=
  scan ops history c.cache.entries c

/-- `popCandidate(history)`. -/
def popCandidate (ops : ChainOps Id PMOD HIS MS) (history : HIS)
    (c : ModifiersCache Id PMOD) : Option PMOD × ModifiersCache Id PMOD :=
  match findCandidateKey ops history c with
  | (none, c') => (none, c')
  | (some k, c') => c'.remove k

/-- `removeUntilCorrectSize(acc)` on a cache with the eviction queue given first. -/
def removeUntilCorrectSize (c : ModifiersCache Id PMOD) :
    List Id → List PMOD → List PMOD × ModifiersCache Id PMOD
  | [], acc => (acc, { c with evictionQueue := [] })
  | k :: queue, acc =>
      if c.size ≤ c.maxSize then (acc, { c with evictionQueue := k :: queue })
      else
        match c.remove k with
        | (some removed, c') => removeUntilCorrectSize c' queue (removed :: acc)
        | (none, c') => removeUntilCorrectSize c' queue acc

/-- `cleanOverfull()`. -/
def cleanOverfull (c : ModifiersCache Id PMOD) : List PMOD × ModifiersCache Id PMOD :=
  removeUntilCorrectSize c c.evictionQueue []

/-! ## Putting -/

@[simp] theorem onPut_cache (c : ModifiersCache Id PMOD) (k : Id) :
    (c.onPut k).cache = c.cache := by
  simp only [onPut]
  split <;> rfl

@[simp] theorem onPut_maxSize (c : ModifiersCache Id PMOD) (k : Id) :
    (c.onPut k).maxSize = c.maxSize := by
  simp only [onPut]
  split <;> rfl

@[simp] theorem put_maxSize (c : ModifiersCache Id PMOD) (k : Id) (v : PMOD) :
    (c.put k v).maxSize = c.maxSize := by
  unfold put
  split
  · rfl
  · simp

theorem contains_iff {c : ModifiersCache Id PMOD} {k : Id} :
    c.contains k = true ↔ k ∈ c.cache.keys :=
  LinkedMap.contains_iff

/-- A put binds its key, if it was free, and changes no other binding. -/
theorem get?_put (c : ModifiersCache Id PMOD) (k : Id) (v : PMOD) (k' : Id) :
    (c.put k v).cache.get? k' = if k' = k then some ((c.cache.get? k).getD v)
      else c.cache.get? k' := by
  unfold put
  split
  · rename_i h
    obtain ⟨w, hw⟩ := Option.isSome_iff_exists.1 h
    split
    · rename_i hk
      have hw' : c.cache.get? k = some w := hw
      rw [hk, hw']
      rfl
    · rfl
  · rename_i h
    have hnone : c.cache.get? k = none := by
      simpa [contains, modifierById] using h
    rw [onPut_cache, LinkedMap.get?_put, hnone]
    rfl

theorem mem_keys_put {c : ModifiersCache Id PMOD} {k k' : Id} {v : PMOD} :
    k' ∈ (c.put k v).cache.keys ↔ k' = k ∨ k' ∈ c.cache.keys := by
  unfold put
  split
  · rename_i h
    have hk := contains_iff.1 h
    constructor
    · exact Or.inr
    · rintro (rfl | h')
      · exact hk
      · exact h'
  · rw [onPut_cache, LinkedMap.mem_keys_put]

/-! ## Scanning -/

/-- The keys that a scan of the entries removes: those of the modifiers that can
never be applied, up to the first applicable one. -/
def doomed (ops : ChainOps Id PMOD HIS MS) (history : HIS) : List (Id × PMOD) → List Id
  | [] => []
  | (k, v) :: rest =>
      match ops.applicableTry history v with
      | .ok _ => []
      | .error e =>
          if e.isRecoverable then doomed ops history rest else k :: doomed ops history rest

/-- The key of the first applicable modifier. -/
def firstApplicable (ops : ChainOps Id PMOD HIS MS) (history : HIS) :
    List (Id × PMOD) → Option Id
  | [] => none
  | (k, v) :: rest =>
      match ops.applicableTry history v with
      | .ok _ => some k
      | .error _ => firstApplicable ops history rest

/-- Remove keys one after the other. -/
def dropKeys (c : ModifiersCache Id PMOD) (ks : List Id) : ModifiersCache Id PMOD :=
  ks.foldl (fun c k => (c.remove k).2) c

theorem scan_eq (ops : ChainOps Id PMOD HIS MS) (history : HIS) (l : List (Id × PMOD))
    (c : ModifiersCache Id PMOD) :
    scan ops history l c
      = (firstApplicable ops history l, dropKeys c (doomed ops history l)) := by
  induction l generalizing c with
  | nil => rfl
  | cons e rest ih =>
    obtain ⟨k, v⟩ := e
    rw [scan, firstApplicable, doomed]
    split
    · rfl
    · split
      · exact ih c
      · rw [ih]
        rfl

@[simp] theorem dropKeys_maxSize (c : ModifiersCache Id PMOD) (ks : List Id) :
    (c.dropKeys ks).maxSize = c.maxSize := by
  induction ks generalizing c with
  | nil => rfl
  | cons k ks ih => exact ih _

@[simp] theorem remove_maxSize (c : ModifiersCache Id PMOD) (k : Id) :
    (c.remove k).2.maxSize = c.maxSize := rfl

theorem get?_remove (c : ModifiersCache Id PMOD) (k k' : Id) :
    (c.remove k).2.cache.get? k' = if k' = k then none else c.cache.get? k' :=
  LinkedMap.get?_remove _ _ _

theorem get?_dropKeys (c : ModifiersCache Id PMOD) (ks : List Id) (k : Id) :
    (c.dropKeys ks).cache.get? k = if k ∈ ks then none else c.cache.get? k := by
  induction ks generalizing c with
  | nil => rfl
  | cons k' ks ih =>
    have h := ih (c.remove k').2
    rw [get?_remove] at h
    show ((c.remove k').2.dropKeys ks).cache.get? k = _
    rw [h]
    by_cases hk : k = k'
    · simp [hk]
    · simp [hk]

section

omit [DecidableEq Id]

/-- A doomed key is bound to a modifier that can never be applied. -/
theorem mem_doomed {ops : ChainOps Id PMOD HIS MS} {history : HIS} {l : List (Id × PMOD)}
    {k : Id} (h : k ∈ doomed ops history l) :
    ∃ v e, (k, v) ∈ l ∧ ops.applicableTry history v = .error e ∧ e.isRecoverable = false := by
  induction l with
  | nil => cases h
  | cons entry rest ih =>
    obtain ⟨k', v'⟩ := entry
    rw [doomed] at h
    split at h
    · cases h
    · rename_i e he
      split at h
      · obtain ⟨v, e, hmem, htry, hrec⟩ := ih h
        exact ⟨v, e, List.mem_cons_of_mem _ hmem, htry, hrec⟩
      · rename_i hrec
        rcases List.mem_cons.1 h with rfl | h
        · exact ⟨v', e, List.mem_cons_self, he, by simpa using hrec⟩
        · obtain ⟨v, e, hmem, htry, hrec⟩ := ih h
          exact ⟨v, e, List.mem_cons_of_mem _ hmem, htry, hrec⟩

theorem firstApplicable_some {ops : ChainOps Id PMOD HIS MS} {history : HIS}
    {l : List (Id × PMOD)} {k : Id} (h : firstApplicable ops history l = some k) :
    ∃ v, (k, v) ∈ l ∧ ops.applicableTry history v = .ok () := by
  induction l with
  | nil => cases h
  | cons entry rest ih =>
    obtain ⟨k', v'⟩ := entry
    rw [firstApplicable] at h
    split at h
    · rename_i htry
      cases h
      exact ⟨v', List.mem_cons_self, htry⟩
    · obtain ⟨v, hmem, htry⟩ := ih h
      exact ⟨v, List.mem_cons_of_mem _ hmem, htry⟩

theorem firstApplicable_none {ops : ChainOps Id PMOD HIS MS} {history : HIS}
    {l : List (Id × PMOD)} (h : firstApplicable ops history l = none) {k : Id} {v : PMOD}
    (hmem : (k, v) ∈ l) : ∃ e, ops.applicableTry history v = .error e := by
  induction l with
  | nil => cases hmem
  | cons entry rest ih =>
    obtain ⟨k', v'⟩ := entry
    rw [firstApplicable] at h
    split at h
    · cases h
    · rename_i e he
      rcases List.mem_cons.1 hmem with heq | hmem
      · cases heq
        exact ⟨e, he⟩
      · exact ih h hmem

end

/-- In a cache, a doomed key is not the key of an applicable modifier. -/
theorem not_mem_doomed {ops : ChainOps Id PMOD HIS MS} {history : HIS}
    {c : ModifiersCache Id PMOD} {k : Id} {v : PMOD} (hget : c.cache.get? k = some v)
    (htry : ops.applicableTry history v = .ok ()) :
    k ∉ doomed ops history c.cache.entries := by
  intro h
  obtain ⟨w, e, hmem, hfail, _⟩ := mem_doomed h
  rw [LinkedMap.get?_of_mem_entries hmem] at hget
  cases hget
  rw [htry] at hfail
  cases hfail

/-- No candidate: the doomed modifiers are gone, and what is left cannot be applied. -/
theorem popCandidate_none {ops : ChainOps Id PMOD HIS MS} {history : HIS}
    {c c' : ModifiersCache Id PMOD} (h : popCandidate ops history c = (none, c')) :
    c' = c.dropKeys (doomed ops history c.cache.entries)
    ∧ ∀ k v, c.cache.get? k = some v → ∃ e, ops.applicableTry history v = .error e := by
  rw [popCandidate, findCandidateKey, scan_eq] at h
  cases hfirst : firstApplicable ops history c.cache.entries with
  | none =>
    rw [hfirst] at h
    cases h
    refine ⟨rfl, ?_⟩
    intro k v hget
    exact firstApplicable_none hfirst (LinkedMap.mem_entries_of_get? hget)
  | some k =>
    rw [hfirst] at h
    obtain ⟨v, hmem, htry⟩ := firstApplicable_some hfirst
    have hget := LinkedMap.get?_of_mem_entries hmem
    have hnone := congrArg Prod.fst h
    simp only [remove, get?_dropKeys, if_neg (not_mem_doomed hget htry), hget] at hnone
    cases hnone

/-- A candidate: it was applicable and is gone, and so are the doomed modifiers
that stood before it. -/
theorem popCandidate_some {ops : ChainOps Id PMOD HIS MS} {history : HIS}
    {c c' : ModifiersCache Id PMOD} {m : PMOD} (h : popCandidate ops history c = (some m, c')) :
    ∃ k, c.cache.get? k = some m ∧ ops.applicableTry history m = .ok ()
      ∧ k ∉ doomed ops history c.cache.entries
      ∧ c' = ((c.dropKeys (doomed ops history c.cache.entries)).remove k).2 := by
  rw [popCandidate, findCandidateKey, scan_eq] at h
  cases hfirst : firstApplicable ops history c.cache.entries with
  | none =>
    rw [hfirst] at h
    cases h
  | some k =>
    rw [hfirst] at h
    obtain ⟨v, hmem, htry⟩ := firstApplicable_some hfirst
    have hget := LinkedMap.get?_of_mem_entries hmem
    have hnot := not_mem_doomed hget htry
    have hpop := congrArg Prod.fst h
    simp only [remove, get?_dropKeys, if_neg hnot, hget] at hpop
    cases hpop
    exact ⟨k, hget, htry, hnot, (congrArg Prod.snd h).symm⟩

/-! ## Sizes -/

theorem size_remove_of_get? {c : ModifiersCache Id PMOD} {k : Id} {v : PMOD}
    (h : c.cache.get? k = some v) : (c.remove k).2.size + 1 = c.size := by
  have hcount := LinkedMap.countV_remove_some h (fun _ => true)
  simp only [LinkedMap.countV, List.countP_true, if_true] at hcount
  exact hcount

theorem size_remove_le (c : ModifiersCache Id PMOD) (k : Id) : (c.remove k).2.size ≤ c.size := by
  show (c.cache.entries.filter _).length ≤ _
  exact List.length_filter_le _ _

theorem size_dropKeys_le (c : ModifiersCache Id PMOD) (ks : List Id) :
    (c.dropKeys ks).size ≤ c.size := by
  induction ks generalizing c with
  | nil => exact le_refl _
  | cons k ks ih => exact (ih _).trans (size_remove_le c k)

/-- A candidate found makes the cache smaller. -/
theorem size_popCandidate {ops : ChainOps Id PMOD HIS MS} {history : HIS}
    {c c' : ModifiersCache Id PMOD} {m : PMOD} (h : popCandidate ops history c = (some m, c')) :
    c'.size < c.size := by
  obtain ⟨k, hget, _, hnot, rfl⟩ := popCandidate_some h
  have hdrop : (c.dropKeys (doomed ops history c.cache.entries)).cache.get? k = some m := by
    rw [get?_dropKeys, if_neg hnot, hget]
  have h1 := size_remove_of_get? hdrop
  have h2 := size_dropKeys_le c (doomed ops history c.cache.entries)
  omega

/-! ## Evicting -/

/-- The eviction removes bindings and returns what they held, besides what it was
given. -/
theorem removeUntilCorrectSize_spec (c : ModifiersCache Id PMOD) (queue : List Id)
    (acc : List PMOD) :
    (∀ k v, (removeUntilCorrectSize c queue acc).2.cache.get? k = some v →
      c.cache.get? k = some v)
    ∧ (∀ k v, c.cache.get? k = some v →
      (removeUntilCorrectSize c queue acc).2.cache.get? k = some v
        ∨ v ∈ (removeUntilCorrectSize c queue acc).1)
    ∧ (∀ v ∈ acc, v ∈ (removeUntilCorrectSize c queue acc).1)
    ∧ ∀ v ∈ (removeUntilCorrectSize c queue acc).1,
      v ∈ acc ∨ ∃ k, c.cache.get? k = some v
        ∧ (removeUntilCorrectSize c queue acc).2.cache.get? k = none := by
  induction queue generalizing c acc with
  | nil => exact ⟨fun _ _ h => h, fun _ _ h => .inl h, fun _ h => h, fun _ h => .inl h⟩
  | cons q queue ih =>
    rw [removeUntilCorrectSize]
    split
    · exact ⟨fun _ _ h => h, fun _ _ h => .inl h, fun _ h => h, fun _ h => .inl h⟩
    · have hget : ∀ k v, (c.remove q).2.cache.get? k = some v → c.cache.get? k = some v := by
        intro k v h
        rw [get?_remove] at h
        split at h
        · cases h
        · exact h
      split
      · rename_i removed c' hremove
        obtain ⟨hq, rfl⟩ := Prod.mk.inj hremove
        obtain ⟨h1, h2, h3, h4⟩ := ih (c.remove q).2 (removed :: acc)
        refine ⟨fun k v h => hget k v (h1 k v h), ?_, fun v h => h3 v (List.mem_cons_of_mem _ h),
          ?_⟩
        · intro k v h
          by_cases hk : k = q
          · subst hk
            have hv : some removed = some v := hq.symm.trans h
            cases hv
            exact .inr (h3 _ List.mem_cons_self)
          · exact h2 k v (by rw [get?_remove, if_neg hk, h])
        · intro v hv
          rcases h4 v hv with hv | ⟨k, hk, hgone⟩
          · rcases List.mem_cons.1 hv with rfl | hv
            · refine .inr ⟨q, hq, ?_⟩
              by_contra hne
              obtain ⟨w, hw⟩ := Option.ne_none_iff_exists'.1 hne
              have := h1 q w hw
              rw [get?_remove, if_pos rfl] at this
              cases this
            · exact .inl hv
          · exact .inr ⟨k, hget k v hk, hgone⟩
      · rename_i c' hremove
        obtain ⟨hq, rfl⟩ := Prod.mk.inj hremove
        have hq' : c.cache.get? q = none := hq
        obtain ⟨h1, h2, h3, h4⟩ := ih (c.remove q).2 acc
        refine ⟨fun k v h => hget k v (h1 k v h), ?_, h3, ?_⟩
        · intro k v h
          have hk : k ≠ q := by
            rintro rfl
            rw [hq'] at h
            cases h
          exact h2 k v (by rw [get?_remove, if_neg hk, h])
        · intro v hv
          rcases h4 v hv with hv | ⟨k, hk, hgone⟩
          · exact .inl hv
          · exact .inr ⟨k, hget k v hk, hgone⟩

/-- A cache that is not overfull is left as it is. -/
theorem cleanOverfull_of_le {c : ModifiersCache Id PMOD} (h : c.size ≤ c.maxSize) :
    cleanOverfull c = ([], c) := by
  rw [cleanOverfull]
  cases hq : c.evictionQueue with
  | nil =>
    rw [removeUntilCorrectSize]
    cases c
    cases hq
    rfl
  | cons k queue =>
    rw [removeUntilCorrectSize, if_pos h]
    cases c
    cases hq
    rfl

end ModifiersCache

end Sparkz.NodeView
