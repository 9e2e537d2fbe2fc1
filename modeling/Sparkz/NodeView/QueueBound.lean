import Sparkz.NodeView.CacheEviction

/-!
# The size of the eviction queue

A removed key stays in the eviction queue until the scan of `onPut` takes it out.  The scan
asks only whether a key is cached, so it keeps what an earlier entry has left for a key that is
cached again.

* `KeepsBound` — what a put is to do: when the queue outgrows `maxSize + cleaningThreshold`,
  each cached key is left in it once.
* `NoneLeft`, `keepsBound_iff` — a put does so exactly when the queue does not outgrow this
  size, or has no such place of an earlier entry.
* `after_nodup` — the runs that put no key that is still queued queue no key twice.
* `evictionQueue_bounded` — both, over all runs; `evictionQueue_unbounded` — a key that is put
  and removed again and again fills the queue.
-/

namespace Sparkz.NodeView

open Sparkz.Lib

namespace ModifiersCache

variable {Id PMOD HIS MS : Type} [DecidableEq Id]

/-! ## The scan of a put -/

/-- The put from `c` to `c'` keeps the queue bounded. -/
structure KeepsBound (c c' : ModifiersCache Id PMOD) : Prop where
  length_le : c'.evictionQueue.length ≤ max c'.size (c'.maxSize + cleaningThreshold)
  once : c.maxSize + cleaningThreshold < c.evictionQueue.length + 1 →
    c'.evictionQueue.Perm c'.cache.keys

/-- No place in the queue is left from an earlier entry of the key or of a cached key. -/
structure NoneLeft (c : ModifiersCache Id PMOD) (key : Id) : Prop where
  notQueued : key ∉ c.evictionQueue
  once : ∀ k ∈ c.cache.keys, c.evictionQueue.count k = 1

section

variable {c : ModifiersCache Id PMOD} {key : Id}

theorem evictionQueue_put_of_le (h : key ∉ c.cache.keys) (value : PMOD)
    (hroom : c.evictionQueue.length + 1 ≤ c.maxSize + cleaningThreshold) :
    (c.put key value).evictionQueue = c.evictionQueue ++ [key] := by
  rw [put_of_not_mem h, onPut, if_neg]
  rw [List.length_append, List.length_singleton]
  exact not_lt.2 hroom

theorem evictionQueue_put_of_lt (h : key ∉ c.cache.keys) (value : PMOD)
    (hfull : c.maxSize + cleaningThreshold < c.evictionQueue.length + 1) :
    (c.put key value).evictionQueue
      = (c.evictionQueue ++ [key]).filter fun k => (c.put key value).contains k := by
  have hcache : (c.put key value).cache = c.cache.put key value := by
    rw [put_of_not_mem h, onPut_cache]
  have hput : (c.put key value).evictionQueue = (c.evictionQueue ++ [key]).filter
      fun k => ((c.cache.put key value).get? k).isSome := by
    rw [put_of_not_mem h, onPut, if_pos]
    · rfl
    · rw [List.length_append, List.length_singleton]
      exact hfull
  rw [hput, ← hcache]
  rfl

/-- The scan keeps every place of a key that is cached, and no other. -/
theorem count_put (h : key ∉ c.cache.keys) (value : PMOD)
    (hfull : c.maxSize + cleaningThreshold < c.evictionQueue.length + 1) (k : Id) :
    (c.put key value).evictionQueue.count k
      = if k ∈ (c.put key value).cache.keys then (c.evictionQueue ++ [key]).count k else 0 := by
  rw [evictionQueue_put_of_lt h value hfull]
  split
  · rename_i hk
    exact List.count_filter (contains_iff.2 hk)
  · rename_i hk
    refine List.count_eq_zero_of_not_mem fun hmem => hk ?_
    exact contains_iff.1 (List.mem_filter.1 hmem).2

/-- The scan leaves each cached key once, just if nothing was left from earlier entries. -/
theorem perm_put_iff (h : key ∉ c.cache.keys) (value : PMOD)
    (hfull : c.maxSize + cleaningThreshold < c.evictionQueue.length + 1) :
    (c.put key value).evictionQueue.Perm (c.put key value).cache.keys ↔ NoneLeft c key := by
  have hcount := count_put h value hfull
  have hnodup := (c.put key value).cache.keys_nodup
  have hself : (c.evictionQueue ++ [key]).count key = c.evictionQueue.count key + 1 := by
    rw [List.count_append, List.count_singleton_self]
  have hother : ∀ k ≠ key, (c.evictionQueue ++ [key]).count k = c.evictionQueue.count k := by
    intro k hk
    rw [List.count_append, List.count_eq_zero_of_not_mem fun hmem => hk (List.mem_singleton.1 hmem),
      Nat.add_zero]
  rw [List.perm_iff_count]
  constructor
  · intro hperm
    refine ⟨fun hmem => ?_, fun k hk => ?_⟩
    · have hkey := mem_keys_put (c := c) (v := value).2 (.inl (rfl : key = key))
      have hone := hperm key
      rw [hcount, if_pos hkey, hself, List.count_eq_one_of_mem hnodup hkey] at hone
      exact absurd hmem (List.count_eq_zero.1 (Nat.succ.inj hone))
    · have hne : k ≠ key := fun heq => h (heq ▸ hk)
      have hcached := mem_keys_put (v := value).2 (.inr hk : k = key ∨ k ∈ c.cache.keys)
      have hone := hperm k
      rw [hcount, if_pos hcached, hother k hne, List.count_eq_one_of_mem hnodup hcached] at hone
      exact hone
  · intro hnone k
    rw [hcount]
    split
    · rename_i hcached
      rw [List.count_eq_one_of_mem hnodup hcached]
      rcases mem_keys_put.1 hcached with rfl | hk
      · rw [hself, List.count_eq_zero_of_not_mem hnone.notQueued]
      · rw [hother k fun heq => h (heq ▸ hk), hnone.once k hk]
    · rename_i hcached
      exact (List.count_eq_zero_of_not_mem hcached).symm

/-- **When a put keeps the queue bounded**: if there is room for the key, or nothing is left from
earlier entries. -/
theorem keepsBound_iff (h : key ∉ c.cache.keys) (value : PMOD) :
    KeepsBound c (c.put key value)
      ↔ c.evictionQueue.length + 1 ≤ c.maxSize + cleaningThreshold ∨ NoneLeft c key := by
  by_cases hroom : c.evictionQueue.length + 1 ≤ c.maxSize + cleaningThreshold
  · refine iff_of_true ⟨?_, fun hfull => absurd hroom (not_le.2 hfull)⟩ (.inl hroom)
    rw [evictionQueue_put_of_le h value hroom, put_maxSize, List.length_append,
      List.length_singleton]
    exact le_max_of_le_right hroom
  · have hfull := not_le.1 hroom
    rw [or_iff_right hroom, ← perm_put_iff h value hfull]
    refine ⟨fun hkeeps => hkeeps.once hfull, fun hperm => ⟨?_, fun _ => hperm⟩⟩
    rw [hperm.length_eq, LinkedMap.length_keys]
    exact le_max_left _ _

end

/-! ## Runs that put no queued key -/

/-- A call that inserts no queued key queues no key twice. -/
theorem Call.nodup (search : Search Id PMOD HIS) {c : ModifiersCache Id PMOD}
    (h : c.evictionQueue.Nodup) {call : Call Id PMOD HIS} (hcall : call.NotQueued c) :
    (call.run search c).evictionQueue.Nodup := by
  cases call with
  | put key value =>
    by_cases hkey : key ∈ c.cache.keys
    · rw [run, put_of_mem hkey]
      exact h
    · refine (evictionQueue_put hkey value).1.nodup ?_
      refine List.nodup_append.2 ⟨h, List.nodup_singleton key, ?_⟩
      rintro k hk k' hk' rfl
      obtain rfl := List.mem_singleton.1 hk'
      exact hcall hkey hk
  | remove key => exact h
  | popCandidate history =>
    rw [run, (popFound_spec search history c).1]
    exact h
  | cleanOverfull =>
    obtain ⟨taken, rest, hqueue, hstate, _⟩ := removeUntilCorrectSize_split c c.evictionQueue []
    rw [hqueue] at h
    rw [run, ModifiersCache.cleanOverfull, hstate]
    exact (List.nodup_append.1 h).2.1

theorem after_nodup (search : Search Id PMOD HIS) {c : ModifiersCache Id PMOD}
    (h : c.evictionQueue.Nodup) {calls : List (Call Id PMOD HIS)}
    (hcalls : NoneQueued search c calls) : (after search c calls).evictionQueue.Nodup := by
  induction calls generalizing c with
  | nil => exact h
  | cons call calls ih => exact ih (call.nodup search h hcalls.1) hcalls.2

theorem after_append (search : Search Id PMOD HIS) (c : ModifiersCache Id PMOD)
    (calls calls' : List (Call Id PMOD HIS)) :
    after search c (calls ++ calls') = after search (after search c calls) calls' :=
  List.foldl_append

theorem noneQueued_append (search : Search Id PMOD HIS) {c : ModifiersCache Id PMOD}
    {calls calls' : List (Call Id PMOD HIS)} :
    NoneQueued search c (calls ++ calls')
      ↔ NoneQueued search c calls ∧ NoneQueued search (after search c calls) calls' := by
  induction calls generalizing c with
  | nil => exact (iff_of_eq (true_and _)).symm
  | cons call calls ih =>
    rw [List.cons_append, NoneQueued, NoneQueued, ih, and_assoc]
    rfl

/-- With no key twice in the queue, nothing is left from earlier entries. -/
theorem noneLeft_of_nodup {c : ModifiersCache Id PMOD} {key : Id} (hqueued : Queued c)
    (h : c.evictionQueue.Nodup) (hkey : key ∉ c.evictionQueue) : NoneLeft c key :=
  ⟨hkey, fun k hk => List.count_eq_one_of_mem h (hqueued k hk)⟩

/-- **The eviction queue stays bounded** in every run that inserts no key that is still in it.
In any run, a put of a new key keeps it bounded just if there is room for the key in the queue,
or nothing in it is left from earlier entries of the key and of the cached ones. -/
theorem evictionQueue_bounded (search : Search Id PMOD HIS) (maxSize : ℕ) (h : 1 ≤ maxSize)
    (calls : List (Call Id PMOD HIS)) (key : Id) (value : PMOD)
    (hkey : key ∉ (after search (new maxSize h) calls : ModifiersCache Id PMOD).cache.keys) :
    let c : ModifiersCache Id PMOD := after search (new maxSize h) calls
    (NoneQueued search (new maxSize h) (calls ++ [.put key value]) →
      KeepsBound c (c.put key value))
    ∧ (KeepsBound c (c.put key value)
      ↔ c.evictionQueue.length + 1 ≤ maxSize + cleaningThreshold ∨ NoneLeft c key) := by
  intro c
  have hqueued : Queued c := after_queued search (queued_new maxSize h) calls
  have hmax : c.maxSize = maxSize := after_maxSize search _ calls
  have hiff := keepsBound_iff hkey value
  rw [hmax] at hiff
  refine ⟨fun hcalls => hiff.2 (.inr ?_), hiff⟩
  obtain ⟨hbefore, hput, _⟩ := (noneQueued_append search).1 hcalls
  exact noneLeft_of_nodup hqueued (after_nodup search List.nodup_nil hbefore) (hput hkey)

theorem evictionQueue_bounded_two :
    KeepsBound (after noCandidate (new 1 (le_refl 1)) [.put 1 10, .remove 1])
      ((after noCandidate (new 1 (le_refl 1)) [.put 1 10, .remove 1]).put 2 20) := by
  have hbounded := evictionQueue_bounded noCandidate 1 (le_refl 1) [.put 1 10, .remove 1] 2 20
    (by decide)
  refine hbounded.1 ⟨fun _ => ?_, trivial, fun _ => ?_, trivial⟩ <;> decide

/-! ## A key that comes back -/

/-- The key 1, put and removed again and again. -/
def backAndForth : ℕ → List (Call ℕ ℕ Unit)
  | 0 => []
  | n + 1 => backAndForth n ++ [.put 1 10, .remove 1]

/-- The scan keeps all places of the key, since it is cached when the scan is made. -/
theorem put_backAndForth {c : ModifiersCache ℕ ℕ} {n : ℕ} (hcache : c.cache.keys = [])
    (hqueue : c.evictionQueue = List.replicate n 1) :
    (c.put 1 10).evictionQueue = List.replicate (n + 1) 1 := by
  have hkey : 1 ∉ c.cache.keys := by simp [hcache]
  by_cases hroom : c.evictionQueue.length + 1 ≤ c.maxSize + cleaningThreshold
  · rw [evictionQueue_put_of_le hkey 10 hroom, hqueue, List.replicate_succ']
  · rw [evictionQueue_put_of_lt hkey 10 (not_le.1 hroom), hqueue, ← List.replicate_succ',
      List.filter_replicate_of_pos]
    exact contains_iff.2 (mem_keys_put.2 (.inl rfl))

theorem after_backAndForth (n : ℕ) :
    (after noCandidate (new 1 (le_refl 1)) (backAndForth n)).cache.keys = []
    ∧ (after noCandidate (new 1 (le_refl 1)) (backAndForth n)).evictionQueue
      = List.replicate n 1 := by
  induction n with
  | zero => exact ⟨rfl, rfl⟩
  | succ n ih =>
    rw [backAndForth, after_append]
    refine ⟨?_, put_backAndForth ih.1 ih.2⟩
    refine List.eq_nil_iff_forall_not_mem.2 fun k hk => ?_
    obtain ⟨hne, hk⟩ := LinkedMap.mem_keys_remove.1 hk
    rcases mem_keys_put.1 hk with rfl | hk
    · exact hne rfl
    · rw [ih.1] at hk
      exact List.not_mem_nil hk

/-- There is no bound on the queue: after any number of puts of a key that is removed in
between, it has the key that many times. -/
theorem evictionQueue_unbounded (n : ℕ) :
    ((after noCandidate (new 1 (le_refl 1)) (backAndForth n)).put 1 10).evictionQueue
      = List.replicate (n + 1) 1 :=
  put_backAndForth (after_backAndForth n).1 (after_backAndForth n).2

/-- With a cache for one entry, the queue has 52 places after the 52nd put. -/
theorem not_evictionQueue_bounded :
    ¬ ∀ (calls : List (Call ℕ ℕ Unit)) (key value : ℕ),
      let c := after noCandidate (new 1 (le_refl 1)) calls
      key ∉ c.cache.keys →
        (c.put key value).evictionQueue.length
          ≤ max (c.put key value).size (1 + cleaningThreshold) := by
  intro hall
  have hkey : 1 ∉ (after noCandidate (new 1 (le_refl 1)) (backAndForth 51)).cache.keys := by
    rw [(after_backAndForth 51).1]
    exact List.not_mem_nil
  have hle := hall (backAndForth 51) 1 10 hkey
  rw [evictionQueue_unbounded, List.length_replicate] at hle
  have hsize : ((after noCandidate (new 1 (le_refl 1)) (backAndForth 51)).put 1 10).size = 1 := by
    decide +kernel
  rw [hsize] at hle
  exact absurd hle (by decide)

end ModifiersCache

end Sparkz.NodeView
