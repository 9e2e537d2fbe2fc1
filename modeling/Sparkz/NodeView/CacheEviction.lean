import Sparkz.NodeView.ModifiersCache

/-!
# What the modifiers cache evicts

The runs of an `LRUCache`: any order of `put`, `remove`, `popCandidate` and
`cleanOverfull`.  The search for a candidate is the subclass's own; it may remove
modifiers on its way, as that of `DefaultModifiersCache` does (`popFound_scan`).

* `removeUntilCorrectSize_split` — a clean-up takes a front part of the eviction
  queue and unbinds its keys.
* `Queued` — every cached key is in the eviction queue: the invariant of all runs
  (`Call.queued`), and what bounds the size after a clean-up.
* `Clocked` — a run with the time of the `put` that inserted each entry;
  `Ordered` — the cached keys stand in the queue in the order of their insertion.
  It is an invariant of the runs that put no key that is still queued.
-/

namespace Sparkz.NodeView

open Sparkz.Lib

namespace ModifiersCache

variable {Id PMOD HIS MS : Type} [DecidableEq Id]

/-! ## The calls of a cache -/

/-- What a subclass does to find a candidate: the key that it finds and the keys
that it removes on the way. -/
def Search (Id PMOD HIS : Type) : Type := HIS → ModifiersCache Id PMOD → Option Id × List Id

/-- The search of `DefaultModifiersCache`. -/
def scanSearch (ops : ChainOps Id PMOD HIS MS) : Search Id PMOD HIS := fun history c =>
  (firstApplicable ops history c.cache.entries, doomed ops history c.cache.entries)

/-- `popCandidate(history)` with the given search. -/
def popFound (search : Search Id PMOD HIS) (history : HIS) (c : ModifiersCache Id PMOD) :
    Option PMOD × ModifiersCache Id PMOD :=
  match (search history c).1 with
  | none => (none, c.dropKeys (search history c).2)
  | some k => (c.dropKeys (search history c).2).remove k

/-- The candidate that `DefaultModifiersCache` pops. -/
theorem popFound_scan (ops : ChainOps Id PMOD HIS MS) (history : HIS)
    (c : ModifiersCache Id PMOD) :
    popFound (scanSearch ops) history c = popCandidate ops history c := by
  rw [popCandidate, findCandidateKey, scan_eq, popFound, scanSearch]
  cases firstApplicable ops history c.cache.entries <;> rfl

/-- A call of an operation that changes the cache. -/
inductive Call (Id PMOD HIS : Type)
  | put (key : Id) (value : PMOD)
  | remove (key : Id)
  | popCandidate (history : HIS)
  | cleanOverfull

/-- The cache after a call. -/
def Call.run (search : Search Id PMOD HIS) (call : Call Id PMOD HIS)
    (c : ModifiersCache Id PMOD) : ModifiersCache Id PMOD :=
  match call with
  | .put key value => c.put key value
  | .remove key => (c.remove key).2
  | .popCandidate history => (popFound search history c).2
  | .cleanOverfull => (ModifiersCache.cleanOverfull c).2

/-- The cache after some calls. -/
def after (search : Search Id PMOD HIS) (c : ModifiersCache Id PMOD)
    (calls : List (Call Id PMOD HIS)) : ModifiersCache Id PMOD :=
  calls.foldl (fun c call => call.run search c) c

/-! ## Unbinding several keys -/

theorem dropKeys_evictionQueue (c : ModifiersCache Id PMOD) (ks : List Id) :
    (c.dropKeys ks).evictionQueue = c.evictionQueue := by
  induction ks generalizing c with
  | nil => rfl
  | cons k ks ih => exact ih _

theorem mem_keys_of_remove {c : ModifiersCache Id PMOD} {k k' : Id}
    (h : k' ∈ (c.remove k).2.cache.keys) : k' ∈ c.cache.keys :=
  (LinkedMap.mem_keys_remove.1 h).2

theorem mem_keys_of_dropKeys {c : ModifiersCache Id PMOD} {ks : List Id} {k : Id}
    (h : k ∈ (c.dropKeys ks).cache.keys) : k ∈ c.cache.keys := by
  induction ks generalizing c with
  | nil => exact h
  | cons k' ks ih => exact mem_keys_of_remove (ih h)

/-- A search for a candidate unbinds keys and leaves the queue as it is. -/
theorem popFound_spec (search : Search Id PMOD HIS) (history : HIS) (c : ModifiersCache Id PMOD) :
    (popFound search history c).2.evictionQueue = c.evictionQueue
    ∧ (popFound search history c).2.maxSize = c.maxSize
    ∧ ∀ k ∈ (popFound search history c).2.cache.keys, k ∈ c.cache.keys := by
  rw [popFound]
  cases (search history c).1 with
  | none =>
    refine ⟨dropKeys_evictionQueue c _, dropKeys_maxSize c _, ?_⟩
    intro k hk
    exact mem_keys_of_dropKeys hk
  | some k' =>
    refine ⟨dropKeys_evictionQueue c _, dropKeys_maxSize c _, ?_⟩
    intro k hk
    exact mem_keys_of_dropKeys (mem_keys_of_remove hk)

/-! ## Cleaning up -/

/-- Unbind the keys of a list. -/
def without (c : ModifiersCache Id PMOD) (taken queue : List Id) : ModifiersCache Id PMOD :=
  { c with cache := c.cache.filter fun e => e.1 ∉ taken, evictionQueue := queue }

/-- The entries with a key in the list. -/
def held (c : ModifiersCache Id PMOD) (taken : List Id) : List (Id × PMOD) :=
  c.cache.entries.filter fun e => e.1 ∈ taken

theorem without_nil (c : ModifiersCache Id PMOD) (queue : List Id) :
    c.without [] queue = { c with evictionQueue := queue } := by
  have h : c.cache.filter (fun e => e.1 ∉ ([] : List Id)) = c.cache :=
    LinkedMap.ext_entries (by simp [LinkedMap.filter])
  rw [without, h]

theorem without_remove (c : ModifiersCache Id PMOD) (q : Id) (taken queue : List Id) :
    (c.remove q).2.without taken queue = c.without (q :: taken) queue := by
  have h : (c.cache.remove q).filter (fun e => e.1 ∉ taken)
      = c.cache.filter (fun e => e.1 ∉ q :: taken) := by
    refine LinkedMap.ext_entries ?_
    simp only [LinkedMap.filter, LinkedMap.remove, List.filter_filter]
    refine List.filter_congr ?_
    intro e _
    by_cases he : e.1 = q <;> simp [he]
  rw [without, without, ← h]
  rfl

theorem mem_keys_without {c : ModifiersCache Id PMOD} {taken queue : List Id} {k : Id} :
    k ∈ (c.without taken queue).cache.keys ↔ k ∈ c.cache.keys ∧ k ∉ taken := by
  simp only [without, LinkedMap.keys, LinkedMap.filter, List.mem_map, List.mem_filter,
    decide_eq_true_eq]
  constructor
  · rintro ⟨e, ⟨he, hnot⟩, rfl⟩
    exact ⟨⟨e, he, rfl⟩, hnot⟩
  · rintro ⟨⟨e, he, rfl⟩, hnot⟩
    exact ⟨e, ⟨he, hnot⟩, rfl⟩

/-- The entries with one more key. -/
theorem held_cons {c : ModifiersCache Id PMOD} {q : Id} {v : PMOD} (taken : List Id)
    (h : c.cache.get? q = some v) :
    (c.held (q :: taken)).Perm ((q, v) :: (c.remove q).2.held taken) := by
  have hsplit := List.filter_append_perm (fun e : Id × PMOD => e.1 = q) (c.held (q :: taken))
  have hfirst : (c.held (q :: taken)).filter (fun e => e.1 = q) = [(q, v)] := by
    rw [← LinkedMap.filter_key_eq h, held, List.filter_filter]
    refine List.filter_congr ?_
    intro e _
    by_cases he : e.1 = q <;> simp [he]
  have hrest : (c.held (q :: taken)).filter (fun e => !decide (e.1 = q))
      = (c.remove q).2.held taken := by
    simp only [held, remove, LinkedMap.remove, List.filter_filter]
    refine List.filter_congr ?_
    intro e _
    by_cases he : e.1 = q <;> simp [he]
  rw [hfirst, hrest] at hsplit
  exact hsplit.symm

theorem held_cons_none {c : ModifiersCache Id PMOD} {q : Id} (taken : List Id)
    (h : c.cache.get? q = none) : c.held (q :: taken) = (c.remove q).2.held taken := by
  have hnot := LinkedMap.get?_eq_none_iff.1 h
  simp only [held, remove, LinkedMap.remove, List.filter_filter]
  refine List.filter_congr ?_
  intro e he
  have hne : e.1 ≠ q := by
    rintro rfl
    exact hnot (List.mem_map_of_mem he)
  simp [hne]

theorem remove_of_none {c : ModifiersCache Id PMOD} {q : Id} (h : c.cache.get? q = none) :
    (c.remove q).2.size = c.size := by
  have hnot := LinkedMap.get?_eq_none_iff.1 h
  simp only [size, remove, LinkedMap.size, LinkedMap.remove]
  rw [List.filter_eq_self.2]
  intro e he
  simp only [ne_eq, decide_not, Bool.not_eq_eq_eq_not, Bool.not_true, decide_eq_false_iff_not]
  rintro rfl
  exact hnot (List.mem_map_of_mem he)

/-- The clean-up takes keys from the front of the queue, unbinds them and returns
what they held.  It stops as soon as the cache is small enough. -/
theorem removeUntilCorrectSize_split (c : ModifiersCache Id PMOD) (queue : List Id)
    (acc : List PMOD) :
    ∃ taken rest, queue = taken ++ rest
      ∧ (removeUntilCorrectSize c queue acc).2 = c.without taken rest
      ∧ (removeUntilCorrectSize c queue acc).1.Perm (acc ++ (c.held taken).map Prod.snd)
      ∧ (rest ≠ [] → (c.without taken rest).size ≤ c.maxSize)
      ∧ (taken ≠ [] → c.maxSize ≤ (c.without taken rest).size) := by
  induction queue generalizing c acc with
  | nil =>
    refine ⟨[], [], rfl, ?_, ?_, fun h => absurd rfl h, fun h => absurd rfl h⟩
    · rw [removeUntilCorrectSize, without_nil]
    · simp [removeUntilCorrectSize, held]
  | cons q queue ih =>
    rw [removeUntilCorrectSize]
    split
    · rename_i hle
      refine ⟨[], q :: queue, rfl, ?_, ?_, fun _ => ?_, fun h => absurd rfl h⟩
      · rw [without_nil]
      · simp [held]
      · rw [without_nil]
        exact hle
    · rename_i hlt
      -- whatever the queued key held, the clean-up goes on without it
      have hgo : ∀ acc', (c.cache.get? q).toList ++ acc = acc' →
          ∃ taken rest, q :: queue = taken ++ rest
            ∧ (removeUntilCorrectSize (c.remove q).2 queue acc').2 = c.without taken rest
            ∧ (removeUntilCorrectSize (c.remove q).2 queue acc').1.Perm
                (acc ++ (c.held taken).map Prod.snd)
            ∧ (rest ≠ [] → (c.without taken rest).size ≤ c.maxSize)
            ∧ (taken ≠ [] → c.maxSize ≤ (c.without taken rest).size) := by
        intro acc' hacc
        obtain ⟨taken, rest, hqueue, hstate, hvalues, hstop, hsize⟩ := ih (c.remove q).2 acc'
        rw [without_remove] at hstate hstop hsize
        refine ⟨q :: taken, rest, by rw [hqueue]; rfl, hstate, ?_, hstop, fun _ => ?_⟩
        · refine hvalues.trans ?_
          cases hget : c.cache.get? q with
          | none =>
            rw [hget] at hacc
            rw [held_cons_none taken hget, ← hacc]
            exact List.Perm.refl _
          | some v =>
            rw [hget] at hacc
            rw [← hacc]
            have hperm := (held_cons taken hget).map Prod.snd
            exact List.perm_middle.symm.trans (hperm.append_left acc).symm
        · by_cases htaken : taken = []
          · rw [htaken, ← without_remove, without_nil]
            show c.maxSize ≤ (c.remove q).2.size
            cases hget : c.cache.get? q with
            | none =>
              rw [remove_of_none hget]
              omega
            | some v =>
              have := size_remove_of_get? hget
              omega
          · exact hsize htaken
      cases hget : c.cache.get? q with
      | none =>
        have hremove : c.remove q = (none, (c.remove q).2) := by rw [← hget]; rfl
        rw [hremove]
        exact hgo acc (by rw [hget]; rfl)
      | some v =>
        have hremove : c.remove q = (some v, (c.remove q).2) := by rw [← hget]; rfl
        rw [hremove]
        exact hgo (v :: acc) (by rw [hget]; rfl)

/-! ## Every cached key is queued -/

/-- Every cached key is in the eviction queue. -/
def Queued (c : ModifiersCache Id PMOD) : Prop := ∀ k ∈ c.cache.keys, k ∈ c.evictionQueue

omit [DecidableEq Id] in
theorem queued_new (maxSize : ℕ) (h : 1 ≤ maxSize) :
    Queued (new maxSize h : ModifiersCache Id PMOD) := by
  intro k hk
  simp [new, LinkedMap.keys] at hk

theorem put_of_mem {c : ModifiersCache Id PMOD} {key : Id} (h : key ∈ c.cache.keys) (value : PMOD) :
    c.put key value = c := by
  rw [put, if_pos (contains_iff.2 h)]

theorem put_of_not_mem {c : ModifiersCache Id PMOD} {key : Id} (h : key ∉ c.cache.keys)
    (value : PMOD) : c.put key value = onPut { c with cache := c.cache.put key value } key := by
  rw [put, if_neg fun hc => h (contains_iff.1 hc)]

/-- A put of a new key queues it; the scan takes only keys that are not cached. -/
theorem evictionQueue_put {c : ModifiersCache Id PMOD} {key : Id} (h : key ∉ c.cache.keys)
    (value : PMOD) :
    (c.put key value).evictionQueue.Sublist (c.evictionQueue ++ [key])
    ∧ ∀ k ∈ (c.put key value).cache.keys, k ∈ c.evictionQueue ++ [key] →
        k ∈ (c.put key value).evictionQueue := by
  rw [put_of_not_mem h, onPut_cache, onPut]
  split
  · refine ⟨List.filter_sublist, ?_⟩
    intro k hk hqueue
    exact List.mem_filter.2 ⟨hqueue, contains_iff.2 hk⟩
  · exact ⟨List.Sublist.refl _, fun k _ hqueue => hqueue⟩

/-- A call keeps every cached key queued. -/
theorem Call.queued (search : Search Id PMOD HIS) (call : Call Id PMOD HIS)
    {c : ModifiersCache Id PMOD} (h : Queued c) : Queued (call.run search c) := by
  intro k hk
  cases call with
  | put key value =>
    by_cases hkey : key ∈ c.cache.keys
    · rw [run, put_of_mem hkey] at hk ⊢
      exact h k hk
    · refine (evictionQueue_put hkey value).2 k hk ?_
      rcases mem_keys_put.1 hk with rfl | hk
      · simp
      · exact List.mem_append_left _ (h k hk)
  | remove key => exact h k (mem_keys_of_remove hk)
  | popCandidate history =>
    obtain ⟨hqueue, _, hkeys⟩ := popFound_spec search history c
    rw [run, hqueue]
    exact h k (hkeys k hk)
  | cleanOverfull =>
    obtain ⟨taken, rest, hqueue, hstate, _⟩ := removeUntilCorrectSize_split c c.evictionQueue []
    rw [run, ModifiersCache.cleanOverfull, hstate] at hk ⊢
    obtain ⟨hk, hnot⟩ := mem_keys_without.1 hk
    have hmem := h k hk
    rw [hqueue, List.mem_append] at hmem
    exact hmem.resolve_left hnot

theorem Call.maxSize (search : Search Id PMOD HIS) (call : Call Id PMOD HIS)
    (c : ModifiersCache Id PMOD) : (call.run search c).maxSize = c.maxSize := by
  cases call with
  | put key value => exact put_maxSize c key value
  | remove key => rfl
  | popCandidate history => exact (popFound_spec search history c).2.1
  | cleanOverfull =>
    obtain ⟨taken, rest, _, hstate, _⟩ := removeUntilCorrectSize_split c c.evictionQueue []
    rw [run, ModifiersCache.cleanOverfull, hstate]
    rfl

theorem after_maxSize (search : Search Id PMOD HIS) (c : ModifiersCache Id PMOD)
    (calls : List (Call Id PMOD HIS)) : (after search c calls).maxSize = c.maxSize := by
  induction calls generalizing c with
  | nil => rfl
  | cons call calls ih =>
    rw [after, List.foldl_cons, ← after, ih]
    exact call.maxSize search c

theorem after_queued (search : Search Id PMOD HIS) {c : ModifiersCache Id PMOD} (h : Queued c)
    (calls : List (Call Id PMOD HIS)) : Queued (after search c calls) := by
  induction calls generalizing c with
  | nil => exact h
  | cons call calls ih => exact ih (call.queued search h)

/-- A clean-up of a cache with all its keys queued ends small enough, since it can
unbind every key that it holds. -/
theorem Queued.size_le {c : ModifiersCache Id PMOD} (h : Queued c) {taken rest : List Id}
    (hqueue : c.evictionQueue = taken ++ rest)
    (hstop : rest ≠ [] → (c.without taken rest).size ≤ c.maxSize) :
    (c.without taken rest).size ≤ c.maxSize := by
  by_cases hrest : rest = []
  · have hkeys : (c.without taken rest).cache.keys = [] := by
      refine List.eq_nil_iff_forall_not_mem.2 ?_
      intro k hk
      obtain ⟨hk, hnot⟩ := mem_keys_without.1 hk
      have hmem := h k hk
      rw [hqueue, hrest, List.append_nil] at hmem
      exact hnot hmem
    rw [size, ← LinkedMap.length_keys, hkeys]
    exact Nat.zero_le _
  · exact hstop hrest

theorem length_held (c : ModifiersCache Id PMOD) (taken queue : List Id) :
    (c.held taken).length + (c.without taken queue).size = c.size := by
  have hsplit := (List.filter_append_perm (fun e : Id × PMOD => decide (e.1 ∈ taken))
    c.cache.entries).length_eq
  rw [List.length_append] at hsplit
  rw [size, size, LinkedMap.size, LinkedMap.size, ← hsplit, held, without, LinkedMap.filter]
  simp only [decide_not]

theorem held_without (c : ModifiersCache Id PMOD) (taken queue : List Id) :
    c.cache.entries.filter (fun e => !(c.without taken queue).contains e.1) = c.held taken := by
  refine List.filter_congr ?_
  intro e he
  have hkey : e.1 ∈ c.cache.keys := List.mem_map_of_mem he
  by_cases htaken : e.1 ∈ taken
  · have hnot : ¬ (c.without taken queue).contains e.1 = true := by
      rw [contains_iff, mem_keys_without]
      exact fun h => h.2 htaken
    simp [htaken, hnot]
  · have hkept : (c.without taken queue).contains e.1 = true := by
      rw [contains_iff, mem_keys_without]
      exact ⟨hkey, htaken⟩
    simp [htaken, hkept]

theorem entries_without (c : ModifiersCache Id PMOD) (taken queue : List Id) :
    (c.without taken queue).cache.entries
      = c.cache.entries.filter fun e => (c.without taken queue).contains e.1 := by
  rw [without, LinkedMap.filter]
  refine List.filter_congr ?_
  intro e he
  have hkey : e.1 ∈ c.cache.keys := List.mem_map_of_mem he
  have hkept : (c.without taken queue).contains e.1 = true ↔ e.1 ∉ taken := by
    rw [contains_iff, mem_keys_without]
    exact and_iff_right hkey
  rw [Bool.eq_iff_iff, decide_eq_true_eq]
  exact hkept.symm

/-- In every run every cached key is queued.  So a clean-up leaves at most `maxSize`
entries: it does nothing when there are no more than that, else it removes just as
many as are too many, keeps the others as they are and returns the values of the
removed ones. -/
theorem cleanOverfull_sound (search : Search Id PMOD HIS) (maxSize : ℕ) (h : 1 ≤ maxSize)
    (calls : List (Call Id PMOD HIS)) :
    let c : ModifiersCache Id PMOD := after search (new maxSize h) calls
    let cleaned := cleanOverfull c
    (∀ k ∈ c.cache.keys, k ∈ c.evictionQueue)
    ∧ cleaned.2.size ≤ maxSize
    ∧ (c.size ≤ maxSize → cleaned = ([], c))
    ∧ (maxSize < c.size → cleaned.2.size = maxSize ∧ cleaned.1.length = c.size - maxSize)
    ∧ cleaned.2.cache.entries = c.cache.entries.filter (fun e => cleaned.2.contains e.1)
    ∧ cleaned.1.Perm
        ((c.cache.entries.filter fun e => !cleaned.2.contains e.1).map Prod.snd) := by
  intro c cleaned
  have hqueued : Queued c := after_queued search (queued_new maxSize h) calls
  have hmax : c.maxSize = maxSize := after_maxSize search _ calls
  obtain ⟨taken, rest, hqueue, hstate, hvalues, hstop, hsize⟩ :=
    removeUntilCorrectSize_split c c.evictionQueue []
  have hle := hqueued.size_le hqueue hstop
  have hlength := length_held c taken rest
  have hcount := hvalues.length_eq
  rw [List.nil_append, List.length_map] at hcount
  rw [hmax] at hle hsize
  have hcleaned : cleaned.2 = c.without taken rest := hstate
  refine ⟨hqueued, ?_, fun hsmall => cleanOverfull_of_le (hmax ▸ hsmall), fun hover => ?_, ?_, ?_⟩
  · rw [hcleaned]
    exact hle
  · have hreturned : cleaned.1.length = (c.held taken).length := hcount
    rw [hcleaned, hreturned]
    have htaken : taken ≠ [] := by
      rintro rfl
      rw [without_nil] at hle
      exact absurd hle (not_le.2 hover)
    have := hsize htaken
    omega
  · rw [hcleaned]
    exact entries_without c taken rest
  · rw [hcleaned, held_without]
    exact hvalues

/-- A subclass that finds no candidate. -/
def noCandidate : Search ℕ ℕ Unit := fun _ _ => (none, [])

theorem cleanOverfull_sound_two :
    let c := after noCandidate (new 1 (le_refl 1)) [.put 1 10, .put 2 20]
    1 < c.size ∧ (cleanOverfull c).2.size ≤ 1 ∧ (cleanOverfull c).1.length = c.size - 1 := by
  have hsound := cleanOverfull_sound noCandidate 1 (le_refl 1) [.put 1 10, .put 2 20]
  have hover : 1 < (after noCandidate (new 1 (le_refl 1)) [.put 1 10, .put 2 20]).size := by decide
  exact ⟨hover, hsound.2.1, (hsound.2.2.2.1 hover).2⟩

/-! ## The order of the evictions -/

/-- A cache in a run, with the number of calls made and for each cached key the
time of the `put` that inserted its entry. -/
structure Clocked (Id PMOD : Type) where
  cache : ModifiersCache Id PMOD
  now : ℕ
  insertedAt : Id → ℕ

/-- The time of the insertion after a call: a `put` of a key that is not cached sets it. -/
def Call.insertedAt (call : Call Id PMOD HIS) (s : Clocked Id PMOD) : Id → ℕ :=
  match call with
  | .put key _ => if s.cache.contains key then s.insertedAt
      else Function.update s.insertedAt key s.now
  | _ => s.insertedAt

/-- A call, with its time. -/
def Clocked.step (search : Search Id PMOD HIS) (s : Clocked Id PMOD) (call : Call Id PMOD HIS) :
    Clocked Id PMOD :=
  ⟨call.run search s.cache, s.now + 1, call.insertedAt s⟩

/-- The run of the calls on a new cache. -/
def Clocked.run (search : Search Id PMOD HIS) (maxSize : ℕ) (h : 1 ≤ maxSize)
    (calls : List (Call Id PMOD HIS)) : Clocked Id PMOD :=
  calls.foldl (Clocked.step search) ⟨new maxSize h, 0, fun _ => 0⟩

/-- A clean-up evicts the oldest entries: what it leaves was inserted later than what
it removes. -/
def Clocked.EvictsOldest (s : Clocked Id PMOD) : Prop :=
  s.cache.maxSize < s.cache.size →
    ∀ removed ∈ s.cache.cache.keys, removed ∉ (cleanOverfull s.cache).2.cache.keys →
    ∀ kept ∈ (cleanOverfull s.cache).2.cache.keys, s.insertedAt removed < s.insertedAt kept

/-- The call inserts no key that an earlier entry has left in the eviction queue. -/
def Call.NotQueued (c : ModifiersCache Id PMOD) : Call Id PMOD HIS → Prop
  | .put key _ => key ∉ c.cache.keys → key ∉ c.evictionQueue
  | _ => True

/-- No call of the run inserts a key that is still in the eviction queue. -/
def NoneQueued (search : Search Id PMOD HIS) :
    ModifiersCache Id PMOD → List (Call Id PMOD HIS) → Prop
  | _, [] => True
  | c, call :: calls => call.NotQueued c ∧ NoneQueued search (call.run search c) calls

/-- The cached keys stand in the eviction queue in the order of their insertion. -/
structure Clocked.Ordered (s : Clocked Id PMOD) : Prop where
  queued : Queued s.cache
  past : ∀ k ∈ s.cache.cache.keys, s.insertedAt k < s.now
  sorted : s.cache.evictionQueue.Pairwise fun k k' =>
    k ∈ s.cache.cache.keys → k' ∈ s.cache.cache.keys → s.insertedAt k < s.insertedAt k'

omit [DecidableEq Id] in
/-- A call that inserts nothing, and unbinds keys or shortens the queue. -/
theorem Clocked.Ordered.shrink {s : Clocked Id PMOD} (h : s.Ordered) {c : ModifiersCache Id PMOD}
    (hqueued : Queued c) (hkeys : ∀ k ∈ c.cache.keys, k ∈ s.cache.cache.keys)
    (hqueue : c.evictionQueue.Sublist s.cache.evictionQueue) :
    Clocked.Ordered ⟨c, s.now + 1, s.insertedAt⟩ := by
  refine ⟨hqueued, ?_, ?_⟩
  · intro k hk
    exact Nat.lt_succ_of_lt (h.past k (hkeys k hk))
  · refine (h.sorted.sublist hqueue).imp ?_
    intro k k' hlt hk hk'
    exact hlt (hkeys k hk) (hkeys k' hk')

/-- A put of a new key: it is the last one in the queue, and the latest. -/
theorem Clocked.Ordered.insert {s : Clocked Id PMOD} (h : s.Ordered) {key : Id} (value : PMOD)
    (hkey : key ∉ s.cache.cache.keys) (hnot : key ∉ s.cache.evictionQueue)
    (hqueued : Queued (s.cache.put key value)) :
    Clocked.Ordered ⟨s.cache.put key value, s.now + 1,
      Function.update s.insertedAt key s.now⟩ := by
  have hold : ∀ k ∈ s.cache.cache.keys, k ≠ key := by
    rintro k hk rfl
    exact hkey hk
  refine ⟨hqueued, ?_, ?_⟩
  · intro k hk
    rcases mem_keys_put.1 hk with rfl | hk
    · simp
    · show Function.update s.insertedAt key s.now k < s.now + 1
      rw [Function.update_of_ne (hold k hk)]
      exact Nat.lt_succ_of_lt (h.past k hk)
  · refine List.Pairwise.sublist (evictionQueue_put hkey value).1 ?_
    refine List.pairwise_append.2 ⟨?_, List.pairwise_singleton _ _, ?_⟩
    · refine h.sorted.imp_of_mem ?_
      intro k k' hk hk' hlt hin hin'
      have hne : k ≠ key := fun heq => hnot (heq ▸ hk)
      have hne' : k' ≠ key := fun heq => hnot (heq ▸ hk')
      simp only
      rw [Function.update_of_ne hne, Function.update_of_ne hne']
      exact hlt ((mem_keys_put.1 hin).resolve_left hne) ((mem_keys_put.1 hin').resolve_left hne')
    · intro k hk k' hk' hin _
      obtain rfl := List.mem_singleton.1 hk'
      have hne : k ≠ k' := fun heq => hnot (heq ▸ hk)
      simp only
      rw [Function.update_of_ne hne, Function.update_self]
      exact h.past k ((mem_keys_put.1 hin).resolve_left hne)

/-- A call that inserts no queued key keeps the queue in order. -/
theorem Clocked.Ordered.step (search : Search Id PMOD HIS) {s : Clocked Id PMOD} (h : s.Ordered)
    {call : Call Id PMOD HIS} (hcall : call.NotQueued s.cache) :
    (Clocked.step search s call).Ordered := by
  have hqueued := call.queued search h.queued
  cases call with
  | put key value =>
    by_cases hkey : key ∈ s.cache.cache.keys
    · have hat : (Call.put key value : Call Id PMOD HIS).insertedAt s = s.insertedAt := by
        rw [Call.insertedAt, if_pos (contains_iff.2 hkey)]
      rw [Clocked.step, hat]
      rw [Call.run, put_of_mem hkey] at hqueued ⊢
      exact h.shrink hqueued (fun _ hk => hk) (List.Sublist.refl _)
    · have hat : (Call.put key value : Call Id PMOD HIS).insertedAt s
          = Function.update s.insertedAt key s.now := by
        rw [Call.insertedAt, if_neg fun hc => hkey (contains_iff.1 hc)]
      rw [Clocked.step, hat]
      exact h.insert value hkey (hcall hkey) hqueued
  | remove key =>
    exact h.shrink hqueued (fun k hk => mem_keys_of_remove hk) (List.Sublist.refl _)
  | popCandidate history =>
    obtain ⟨hqueue, _, hkeys⟩ := popFound_spec search history s.cache
    refine h.shrink hqueued hkeys ?_
    rw [Call.run, hqueue]
  | cleanOverfull =>
    obtain ⟨taken, rest, hqueue, hstate, _⟩ :=
      removeUntilCorrectSize_split s.cache s.cache.evictionQueue []
    have hcleaned : Call.run search .cleanOverfull s.cache = s.cache.without taken rest := hstate
    rw [Clocked.step]
    rw [hcleaned] at hqueued ⊢
    refine h.shrink hqueued (fun k hk => (mem_keys_without.1 hk).1) ?_
    rw [hqueue]
    exact List.sublist_append_right taken rest

theorem Clocked.Ordered.steps (search : Search Id PMOD HIS) {s : Clocked Id PMOD} (h : s.Ordered)
    {calls : List (Call Id PMOD HIS)} (hcalls : NoneQueued search s.cache calls) :
    (calls.foldl (Clocked.step search) s).Ordered := by
  induction calls generalizing s with
  | nil => exact h
  | cons call calls ih => exact ih (h.step search hcalls.1) hcalls.2

/-- With the queue in order a clean-up evicts the oldest entries. -/
theorem Clocked.Ordered.evictsOldest {s : Clocked Id PMOD} (h : s.Ordered) : s.EvictsOldest := by
  intro _ removed hremoved hgone kept hkept
  obtain ⟨taken, rest, hqueue, hstate, _⟩ :=
    removeUntilCorrectSize_split s.cache s.cache.evictionQueue []
  have hcleaned : (cleanOverfull s.cache).2 = s.cache.without taken rest := hstate
  rw [hcleaned, mem_keys_without] at hgone hkept
  have htaken : removed ∈ taken := by
    by_contra hnot
    exact hgone ⟨hremoved, hnot⟩
  have hrest : kept ∈ rest := by
    have hmem := h.queued kept hkept.1
    rw [hqueue, List.mem_append] at hmem
    exact hmem.resolve_left hkept.2
  have hsorted := h.sorted
  rw [hqueue, List.pairwise_append] at hsorted
  exact hsorted.2.2 removed htaken kept hrest hremoved hkept.1

/-- In every run that inserts no key that is still in the eviction queue, every clean-up
evicts the oldest entries. -/
theorem evictsOldest_of_noneQueued (search : Search Id PMOD HIS) (maxSize : ℕ) (h : 1 ≤ maxSize)
    (calls : List (Call Id PMOD HIS)) (hcalls : NoneQueued search (new maxSize h) calls) :
    (Clocked.run search maxSize h calls).EvictsOldest := by
  refine Clocked.Ordered.evictsOldest (Clocked.Ordered.steps search ?_ hcalls)
  refine ⟨queued_new maxSize h, ?_, List.Pairwise.nil⟩
  intro k hk
  simp [new, LinkedMap.keys] at hk

theorem evictsOldest_two :
    NoneQueued noCandidate (new 1 (le_refl 1)) [.put 1 10, .put 2 20]
    ∧ (Clocked.run noCandidate 1 (le_refl 1) [.put 1 10, .put 2 20]).EvictsOldest := by
  have hcalls : NoneQueued noCandidate (new 1 (le_refl 1)) [.put 1 10, .put 2 20] := by
    refine ⟨fun _ => ?_, fun _ => ?_, trivial⟩ <;> decide
  exact ⟨hcalls, evictsOldest_of_noneQueued noCandidate 1 (le_refl 1) _ hcalls⟩

/-- A key that was removed and put again is evicted by its old place in the queue, though
another entry is older. -/
theorem evicts_newest :
    ¬ ∀ calls, (Clocked.run noCandidate 1 (le_refl 1) calls).EvictsOldest := by
  intro hall
  have hlt := hall [.put 1 10, .remove 1, .put 2 20, .put 1 10] (by decide) 1 (by decide)
    (by decide) 2 (by decide)
  exact absurd hlt (by decide)

end ModifiersCache

end Sparkz.NodeView
