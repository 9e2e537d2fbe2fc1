import Sparkz.NodeView.ModifiersCache

/-!
# Modifiers from remote peers

The node view holder as an actor: its node view, its modifiers cache and the
messages that it receives.

* `applyLoop`, `processRemoteModifiers` — a message of modifiers fills the cache,
  the loop applies what can be applied, and the overfull cache is cleaned.
* `receive`, `Reachable` — the messages, and the states that they lead to.
* `processRemoteModifiers_reported` — **what leaves the cache is reported**, as
  applied or as cleared, if and only if no scan of the loop meets a modifier that
  can never be applied: such a modifier is removed without a word
  (`removed_unreported`).
-/

namespace Sparkz.NodeView

open Sparkz.Lib

variable {Id PMOD TX HIS MS VL MP : Type} [DecidableEq Id]

/-- The state of the actor. -/
structure Node (Id PMOD TX HIS MS VL MP : Type) where
  modifiersCache : ModifiersCache Id PMOD
  holder : Holder Id PMOD TX HIS MS VL MP

/-- `applyLoop(applied)`, for at most `n` calls. -/
def applyLoop (ops : NodeViewOps Id PMOD TX HIS MS VL MP) (fuel : ℕ) :
    ℕ → Node Id PMOD TX HIS MS VL MP → List PMOD →
      Outcome (Node Id PMOD TX HIS MS VL MP × List PMOD)
  | 0, _, _ => .outOfFuel
  | n + 1, node, applied =>
      match node.modifiersCache.popCandidate ops.chain node.holder.history with
      | (none, c) => .value (⟨c, node.holder⟩, applied)
      | (some mod, c) =>
          match pmodModify ops fuel node.holder mod with
          | .value holder => applyLoop ops fuel n ⟨c, holder⟩ (mod :: applied)
          | .thrown e => .thrown e
          | .outOfFuel => .outOfFuel

/-- `mods.foreach(m => modifiersCache.put(m.id, m))`. -/
def putAll (ops : NodeViewOps Id PMOD TX HIS MS VL MP) (c : ModifiersCache Id PMOD)
    (mods : List PMOD) : ModifiersCache Id PMOD :=
  mods.foldl (fun c m => c.put (ops.chain.id m) m) c

/-- The node with the modifiers of a message in its cache. -/
def fill (ops : NodeViewOps Id PMOD TX HIS MS VL MP) (node : Node Id PMOD TX HIS MS VL MP)
    (mods : List PMOD) : Node Id PMOD TX HIS MS VL MP :=
  { node with modifiersCache := putAll ops node.modifiersCache mods }

/-- `processRemoteModifiers` on `ModifiersFromRemote(mods)`.  Each call of the loop
takes a modifier out of the cache, so one more call than the cache has modifiers is
enough. -/
def processRemoteModifiers (ops : NodeViewOps Id PMOD TX HIS MS VL MP) (fuel : ℕ)
    (node : Node Id PMOD TX HIS MS VL MP) (mods : List PMOD) :
    Outcome (Node Id PMOD TX HIS MS VL MP) :=
  let filled := fill ops node mods
  match applyLoop ops fuel (filled.modifiersCache.size + 1) filled [] with
  | .value (looped, applied) =>
      let (cleared, c) := looped.modifiersCache.cleanOverfull
      .value ⟨c, looped.holder.publish [.modifiersProcessingResult applied cleared]⟩
  | .thrown e => .thrown e
  | .outOfFuel => .outOfFuel

/-- The messages that change the node. -/
inductive Message (Id PMOD TX : Type) where
  | modifiersFromRemote (modifiers : List PMOD)
  | locallyGeneratedModifier (pmod : PMOD)
  | newTransactions (txs : List TX)
  | eliminateTransactions (ids : List Id)

/-- `receive`. -/
def receive (ops : NodeViewOps Id PMOD TX HIS MS VL MP) (fuel : ℕ)
    (node : Node Id PMOD TX HIS MS VL MP) :
    Message Id PMOD TX → Outcome (Node Id PMOD TX HIS MS VL MP)
  | .modifiersFromRemote mods => processRemoteModifiers ops fuel node mods
  | .locallyGeneratedModifier pmod =>
      match pmodModify ops fuel node.holder pmod with
      | .value holder => .value { node with holder := holder }
      | .thrown e => .thrown e
      | .outOfFuel => .outOfFuel
  | .newTransactions txs =>
      if ops.mempool.handlingTransactionsEnabled then
        .value { node with holder := txs.foldl (txModify ops) node.holder }
      else
        let events := txs.map fun tx => Event.failedTransaction (ops.mempool.txId tx)
          (.other "Transactions handling disabled") false
        .value { node with holder := node.holder.publish events }
  | .eliminateTransactions ids =>
      let updatedPool := ops.mempool.filter node.holder.memoryPool fun tx =>
        !ids.contains (ops.mempool.txId tx)
      let updated := updateNodeView node.holder none none none (some updatedPool)
      let events := ids.map fun id => Event.failedTransaction id (.other "Became invalid") false
      .value { node with holder := updated.publish events }

/-- The nodes reached from an empty cache by messages. -/
inductive Reachable (ops : NodeViewOps Id PMOD TX HIS MS VL MP) :
    Node Id PMOD TX HIS MS VL MP → Prop
  | start (maxSize : ℕ) (h : 1 ≤ maxSize) (holder : Holder Id PMOD TX HIS MS VL MP) :
      Reachable ops ⟨.new maxSize h, holder⟩
  | step {node node' : Node Id PMOD TX HIS MS VL MP} {fuel : ℕ} (message : Message Id PMOD TX) :
      Reachable ops node → receive ops fuel node message = .value node' → Reachable ops node'

/-! ## Cached modifiers stand under their ids -/

/-- Each cached modifier is bound to its id. -/
def Keyed (ops : NodeViewOps Id PMOD TX HIS MS VL MP) (c : ModifiersCache Id PMOD) : Prop :=
  ∀ k v, c.cache.get? k = some v → ops.chain.id v = k

/-- A cache with no more bindings than a keyed one is keyed. -/
theorem Keyed.mono {ops : NodeViewOps Id PMOD TX HIS MS VL MP} {c c' : ModifiersCache Id PMOD}
    (hc : Keyed ops c) (h : ∀ k v, c'.cache.get? k = some v → c.cache.get? k = some v) :
    Keyed ops c' :=
  fun k v hv => hc k v (h k v hv)

theorem get?_of_dropKeys {c : ModifiersCache Id PMOD} {ks : List Id} {k : Id} {v : PMOD}
    (h : (c.dropKeys ks).cache.get? k = some v) : c.cache.get? k = some v := by
  rw [ModifiersCache.get?_dropKeys] at h
  split at h
  · cases h
  · exact h

theorem get?_of_remove {c : ModifiersCache Id PMOD} {k' k : Id} {v : PMOD}
    (h : (c.remove k').2.cache.get? k = some v) : c.cache.get? k = some v := by
  rw [ModifiersCache.get?_remove] at h
  split at h
  · cases h
  · exact h

/-- The search for a candidate binds nothing. -/
theorem get?_of_popCandidate {ops : ChainOps Id PMOD HIS MS} {history : HIS}
    {c c' : ModifiersCache Id PMOD} {found : Option PMOD}
    (h : c.popCandidate ops history = (found, c')) {k : Id} {v : PMOD}
    (hv : c'.cache.get? k = some v) : c.cache.get? k = some v := by
  cases found with
  | none =>
    obtain ⟨rfl, _⟩ := ModifiersCache.popCandidate_none h
    exact get?_of_dropKeys hv
  | some m =>
    obtain ⟨k', _, _, _, rfl⟩ := ModifiersCache.popCandidate_some h
    exact get?_of_dropKeys (get?_of_remove hv)

theorem Keyed.put {ops : NodeViewOps Id PMOD TX HIS MS VL MP} {c : ModifiersCache Id PMOD}
    (hc : Keyed ops c) (m : PMOD) : Keyed ops (c.put (ops.chain.id m) m) := by
  intro k v hv
  rw [ModifiersCache.get?_put] at hv
  split at hv
  · rename_i hk
    cases hget : c.cache.get? (ops.chain.id m) with
    | none =>
      rw [hget] at hv
      cases hv
      exact hk.symm
    | some w =>
      rw [hget] at hv
      cases hv
      rw [hk]
      exact hc _ _ hget
  · exact hc k v hv

theorem Keyed.putAll {ops : NodeViewOps Id PMOD TX HIS MS VL MP} (mods : List PMOD)
    {c : ModifiersCache Id PMOD} (hc : Keyed ops c) : Keyed ops (putAll ops c mods) := by
  induction mods generalizing c with
  | nil => exact hc
  | cons m mods ih => exact ih (hc.put m)

theorem mem_keys_putAll {ops : NodeViewOps Id PMOD TX HIS MS VL MP} {mods : List PMOD}
    {c : ModifiersCache Id PMOD} {k : Id} :
    k ∈ (putAll ops c mods).cache.keys
      ↔ k ∈ c.cache.keys ∨ ∃ m ∈ mods, ops.chain.id m = k := by
  induction mods generalizing c with
  | nil => simp [putAll]
  | cons m mods ih =>
    show k ∈ (NodeView.putAll ops (c.put (ops.chain.id m) m) mods).cache.keys ↔ _
    rw [ih, ModifiersCache.mem_keys_put]
    constructor
    · rintro ((rfl | h) | ⟨m', h, rfl⟩)
      · exact .inr ⟨m, List.mem_cons_self, rfl⟩
      · exact .inl h
      · exact .inr ⟨m', List.mem_cons_of_mem _ h, rfl⟩
    · rintro (h | ⟨m', h, rfl⟩)
      · exact .inl (.inr h)
      · rcases List.mem_cons.1 h with rfl | h
        · exact .inl (.inl rfl)
        · exact .inr ⟨m', h, rfl⟩

/-! ## The loop -/

/-- The loop from a node ends at another one, with the modifiers that it applied,
the last one first. -/
inductive Loops (ops : NodeViewOps Id PMOD TX HIS MS VL MP) (fuel : ℕ) :
    Node Id PMOD TX HIS MS VL MP → Node Id PMOD TX HIS MS VL MP → List PMOD → Prop
  | done {node : Node Id PMOD TX HIS MS VL MP} {c : ModifiersCache Id PMOD} :
      node.modifiersCache.popCandidate ops.chain node.holder.history = (none, c) →
      Loops ops fuel node ⟨c, node.holder⟩ []
  | more {node looped : Node Id PMOD TX HIS MS VL MP} {m : PMOD} {c : ModifiersCache Id PMOD}
      {holder : Holder Id PMOD TX HIS MS VL MP} {mods : List PMOD} :
      node.modifiersCache.popCandidate ops.chain node.holder.history = (some m, c) →
      pmodModify ops fuel node.holder m = .value holder →
      Loops ops fuel ⟨c, holder⟩ looped mods →
      Loops ops fuel node looped (mods ++ [m])

theorem applyLoop_loops {ops : NodeViewOps Id PMOD TX HIS MS VL MP} {fuel n : ℕ}
    {node looped : Node Id PMOD TX HIS MS VL MP} {acc applied : List PMOD}
    (h : applyLoop ops fuel n node acc = .value (looped, applied)) :
    ∃ mods, applied = mods ++ acc ∧ Loops ops fuel node looped mods := by
  induction n generalizing node acc with
  | zero => cases h
  | succ n ih =>
    rw [applyLoop] at h
    split at h
    · rename_i c hpop
      cases h
      exact ⟨[], rfl, .done hpop⟩
    · rename_i m c hpop
      split at h
      · rename_i holder hmod
        obtain ⟨mods, rfl, hloops⟩ := ih h
        exact ⟨mods ++ [m], by simp, .more hpop hmod hloops⟩
      · cases h
      · cases h

/-- A message that is handled: the loop ends, and what it applied is published with
what the eviction cleared. -/
theorem processRemoteModifiers_value {ops : NodeViewOps Id PMOD TX HIS MS VL MP} {fuel : ℕ}
    {node node' : Node Id PMOD TX HIS MS VL MP} {mods : List PMOD}
    (h : processRemoteModifiers ops fuel node mods = .value node') :
    ∃ looped applied, Loops ops fuel (fill ops node mods) looped applied
      ∧ node' = ⟨looped.modifiersCache.cleanOverfull.2, looped.holder.publish
          [.modifiersProcessingResult applied looped.modifiersCache.cleanOverfull.1]⟩ := by
  unfold processRemoteModifiers at h
  simp only at h
  split at h
  · rename_i looped applied hloop
    obtain ⟨mods', hmods, hloops⟩ := applyLoop_loops hloop
    cases h
    rw [List.append_nil] at hmods
    exact ⟨looped, applied, hmods ▸ hloops, rfl⟩
  · cases h
  · cases h

/-- The nodes at which the loop looks for a candidate. -/
inductive Scans (ops : NodeViewOps Id PMOD TX HIS MS VL MP) (fuel : ℕ) :
    Node Id PMOD TX HIS MS VL MP → Node Id PMOD TX HIS MS VL MP → Prop
  | here {node : Node Id PMOD TX HIS MS VL MP} : Scans ops fuel node node
  | later {node n : Node Id PMOD TX HIS MS VL MP} {m : PMOD} {c : ModifiersCache Id PMOD}
      {holder : Holder Id PMOD TX HIS MS VL MP} :
      node.modifiersCache.popCandidate ops.chain node.holder.history = (some m, c) →
      pmodModify ops fuel node.holder m = .value holder →
      Scans ops fuel ⟨c, holder⟩ n → Scans ops fuel node n

/-- The keys that a scan at this node removes: those of modifiers that can never be
applied and stand before the first applicable one. -/
def doomedAt (ops : NodeViewOps Id PMOD TX HIS MS VL MP) (node : Node Id PMOD TX HIS MS VL MP) :
    List Id :=
  ModifiersCache.doomed ops.chain node.holder.history node.modifiersCache.cache.entries

omit [DecidableEq Id] in
theorem mem_keys_of_doomedAt {ops : NodeViewOps Id PMOD TX HIS MS VL MP}
    {node : Node Id PMOD TX HIS MS VL MP} {k : Id} (h : k ∈ doomedAt ops node) :
    k ∈ node.modifiersCache.cache.keys := by
  obtain ⟨v, _, hmem, _⟩ := ModifiersCache.mem_doomed h
  exact List.mem_map.2 ⟨(k, v), hmem, rfl⟩

theorem mem_keys_iff {c : ModifiersCache Id PMOD} {k : Id} :
    k ∈ c.cache.keys ↔ ∃ v, c.cache.get? k = some v := by
  rw [← LinkedMap.contains_iff, LinkedMap.contains, Option.isSome_iff_exists]

/-- The keys that are left after a search without success. -/
theorem mem_keys_popCandidate_none {ops : NodeViewOps Id PMOD TX HIS MS VL MP}
    {node : Node Id PMOD TX HIS MS VL MP} {c : ModifiersCache Id PMOD}
    (h : node.modifiersCache.popCandidate ops.chain node.holder.history = (none, c)) {k : Id} :
    k ∈ c.cache.keys ↔ k ∈ node.modifiersCache.cache.keys ∧ k ∉ doomedAt ops node := by
  obtain ⟨rfl, _⟩ := ModifiersCache.popCandidate_none h
  rw [mem_keys_iff, mem_keys_iff, ModifiersCache.get?_dropKeys]
  unfold doomedAt
  split
  · rename_i hk
    simp [hk]
  · rename_i hk
    simp [hk]

/-- The keys that are left after a candidate was popped. -/
theorem mem_keys_popCandidate_some {ops : NodeViewOps Id PMOD TX HIS MS VL MP}
    {node : Node Id PMOD TX HIS MS VL MP} {m : PMOD} {c : ModifiersCache Id PMOD}
    (hkeyed : Keyed ops node.modifiersCache)
    (h : node.modifiersCache.popCandidate ops.chain node.holder.history = (some m, c)) :
    ops.chain.id m ∈ node.modifiersCache.cache.keys
    ∧ ops.chain.id m ∉ doomedAt ops node
    ∧ ∀ k, k ∈ c.cache.keys ↔ k ∈ node.modifiersCache.cache.keys ∧ k ∉ doomedAt ops node
        ∧ k ≠ ops.chain.id m := by
  obtain ⟨k', hget, _, hnot, rfl⟩ := ModifiersCache.popCandidate_some h
  obtain rfl := hkeyed k' m hget
  refine ⟨mem_keys_iff.2 ⟨m, hget⟩, hnot, ?_⟩
  intro k
  rw [mem_keys_iff, mem_keys_iff, ModifiersCache.get?_remove, ModifiersCache.get?_dropKeys]
  unfold doomedAt
  by_cases hk : k = ops.chain.id m
  · simp [hk]
  · by_cases hd : k ∈ ModifiersCache.doomed ops.chain node.holder.history
        node.modifiersCache.cache.entries
    · simp [hd]
    · simp [hk, hd]

/-- The loop binds nothing. -/
theorem Loops.get? {ops : NodeViewOps Id PMOD TX HIS MS VL MP} {fuel : ℕ}
    {node looped : Node Id PMOD TX HIS MS VL MP} {mods : List PMOD}
    (h : Loops ops fuel node looped mods) {k : Id} {v : PMOD}
    (hv : looped.modifiersCache.cache.get? k = some v) :
    node.modifiersCache.cache.get? k = some v := by
  induction h with
  | done hpop => exact get?_of_popCandidate hpop hv
  | more hpop _ _ ih => exact get?_of_popCandidate hpop (ih hv)

theorem Loops.mem_keys {ops : NodeViewOps Id PMOD TX HIS MS VL MP} {fuel : ℕ}
    {node looped : Node Id PMOD TX HIS MS VL MP} {mods : List PMOD}
    (h : Loops ops fuel node looped mods) {k : Id}
    (hk : k ∈ looped.modifiersCache.cache.keys) : k ∈ node.modifiersCache.cache.keys := by
  obtain ⟨v, hv⟩ := mem_keys_iff.1 hk
  exact mem_keys_iff.2 ⟨v, h.get? hv⟩

/-- What the loop applies was cached. -/
theorem Loops.applied_mem {ops : NodeViewOps Id PMOD TX HIS MS VL MP} {fuel : ℕ}
    {node looped : Node Id PMOD TX HIS MS VL MP} {mods : List PMOD}
    (h : Loops ops fuel node looped mods) (hkeyed : Keyed ops node.modifiersCache) :
    ∀ m ∈ mods, ops.chain.id m ∈ node.modifiersCache.cache.keys := by
  induction h with
  | done _ => intro m hm; cases hm
  | more hpop _ _ ih =>
    have hkeyed' := hkeyed.mono fun _ _ hv => get?_of_popCandidate hpop hv
    obtain ⟨hmem, _, hkeys⟩ := mem_keys_popCandidate_some hkeyed hpop
    intro m hm
    rcases List.mem_append.1 hm with hm | hm
    · exact ((hkeys _).1 (ih hkeyed' m hm)).1
    · rw [List.mem_singleton.1 hm]
      exact hmem

/-- A cached modifier is still cached after the loop, or was applied, or was doomed
in one of the scans. -/
theorem Loops.accounted {ops : NodeViewOps Id PMOD TX HIS MS VL MP} {fuel : ℕ}
    {node looped : Node Id PMOD TX HIS MS VL MP} {mods : List PMOD}
    (h : Loops ops fuel node looped mods) (hkeyed : Keyed ops node.modifiersCache) {k : Id}
    (hk : k ∈ node.modifiersCache.cache.keys) :
    k ∈ looped.modifiersCache.cache.keys ∨ k ∈ mods.map ops.chain.id
      ∨ ∃ s, Scans ops fuel node s ∧ k ∈ doomedAt ops s := by
  induction h with
  | @done node c hpop =>
    by_cases hd : k ∈ doomedAt ops node
    · exact .inr (.inr ⟨node, .here, hd⟩)
    · exact .inl ((mem_keys_popCandidate_none hpop).2 ⟨hk, hd⟩)
  | @more node looped m c holder mods hpop hmod _ ih =>
    have hkeyed' := hkeyed.mono fun _ _ hv => get?_of_popCandidate hpop hv
    obtain ⟨_, _, hkeys⟩ := mem_keys_popCandidate_some hkeyed hpop
    by_cases hd : k ∈ doomedAt ops node
    · exact .inr (.inr ⟨node, .here, hd⟩)
    · by_cases hm : k = ops.chain.id m
      · exact .inr (.inl (by simp [hm]))
      · rcases ih hkeyed' ((hkeys k).2 ⟨hk, hd, hm⟩) with h | h | ⟨s, hs, hds⟩
        · exact .inl h
        · exact .inr (.inl (by simp only [List.map_append, List.mem_append]; exact .inl h))
        · exact .inr (.inr ⟨s, .later hpop hmod hs, hds⟩)

/-- A doomed modifier was cached, and is neither cached after the loop nor applied. -/
theorem Loops.doomed {ops : NodeViewOps Id PMOD TX HIS MS VL MP} {fuel : ℕ}
    {node looped s : Node Id PMOD TX HIS MS VL MP} {mods : List PMOD}
    (h : Loops ops fuel node looped mods) (hkeyed : Keyed ops node.modifiersCache)
    (hs : Scans ops fuel node s) {k : Id} (hd : k ∈ doomedAt ops s) :
    k ∈ node.modifiersCache.cache.keys ∧ k ∉ looped.modifiersCache.cache.keys
      ∧ k ∉ mods.map ops.chain.id := by
  induction h with
  | @done node c hpop =>
    cases hs with
    | here =>
      refine ⟨mem_keys_of_doomedAt hd, ?_, List.not_mem_nil⟩
      intro hk
      exact ((mem_keys_popCandidate_none hpop).1 hk).2 hd
    | later hpop' _ _ =>
      rw [hpop] at hpop'
      cases hpop'
  | @more node looped m c holder mods hpop hmod hloops ih =>
    have hkeyed' := hkeyed.mono fun _ _ hv => get?_of_popCandidate hpop hv
    obtain ⟨_, hmd, hkeys⟩ := mem_keys_popCandidate_some hkeyed hpop
    cases hs with
    | here =>
      have hgone : k ∉ c.cache.keys := fun hk => ((hkeys k).1 hk).2.1 hd
      refine ⟨mem_keys_of_doomedAt hd, fun hk => hgone (hloops.mem_keys hk), ?_⟩
      rw [List.map_append, List.mem_append]
      rintro (hm | hm)
      · obtain ⟨m', hm', rfl⟩ := List.mem_map.1 hm
        exact hgone (hloops.applied_mem hkeyed' m' hm')
      · rw [List.map_singleton, List.mem_singleton] at hm
        exact hmd (hm ▸ hd)
    | later hpop' hmod' hs' =>
      rw [hpop] at hpop'
      cases hpop'
      rw [hmod] at hmod'
      cases hmod'
      obtain ⟨hmem, hlooped, hmods⟩ := ih hkeyed' hs'
      obtain ⟨hmem', _, hne⟩ := (hkeys k).1 hmem
      refine ⟨hmem', hlooped, ?_⟩
      rw [List.map_append, List.mem_append]
      rintro (hm | hm)
      · exact hmods hm
      · rw [List.map_singleton, List.mem_singleton] at hm
        exact hne hm

theorem Keyed.loops {ops : NodeViewOps Id PMOD TX HIS MS VL MP} {fuel : ℕ}
    {node looped : Node Id PMOD TX HIS MS VL MP} {mods : List PMOD}
    (hkeyed : Keyed ops node.modifiersCache) (h : Loops ops fuel node looped mods) :
    Keyed ops looped.modifiersCache :=
  hkeyed.mono fun _ _ hv => h.get? hv

theorem Keyed.cleanOverfull {ops : NodeViewOps Id PMOD TX HIS MS VL MP}
    {c : ModifiersCache Id PMOD} (hc : Keyed ops c) : Keyed ops c.cleanOverfull.2 :=
  hc.mono (ModifiersCache.removeUntilCorrectSize_spec c _ _).1

/-- In every reachable node, the cached modifiers stand under their ids. -/
theorem Reachable.keyed {ops : NodeViewOps Id PMOD TX HIS MS VL MP}
    {node : Node Id PMOD TX HIS MS VL MP} (h : Reachable ops node) :
    Keyed ops node.modifiersCache := by
  induction h with
  | start maxSize h holder => intro k v hv; cases hv
  | step message _ hreceive ih =>
    cases message with
    | modifiersFromRemote mods =>
      obtain ⟨looped, applied, hloops, rfl⟩ := processRemoteModifiers_value hreceive
      have hfilled : Keyed ops (fill ops _ mods).modifiersCache := ih.putAll mods
      exact (hfilled.loops hloops).cleanOverfull
    | locallyGeneratedModifier pmod =>
      simp only [receive] at hreceive
      split at hreceive <;> cases hreceive
      exact ih
    | newTransactions txs =>
      simp only [receive] at hreceive
      split at hreceive <;> cases hreceive <;> exact ih
    | eliminateTransactions ids =>
      cases hreceive
      exact ih

/-! ## Reports -/

/-- The law of the report on one message: each modifier that was cached or came
with the message, and is not cached afterwards, is published as applied or as
cleared. -/
def Reported (ops : NodeViewOps Id PMOD TX HIS MS VL MP) (node node' : Node Id PMOD TX HIS MS VL MP)
    (mods : List PMOD) : Prop :=
  ∃ applied cleared,
    node'.holder.published.getLast? = some (.modifiersProcessingResult applied cleared)
    ∧ ∀ k, (k ∈ node.modifiersCache.cache.keys ∨ ∃ m ∈ mods, ops.chain.id m = k) →
      k ∉ node'.modifiersCache.cache.keys →
      k ∈ (applied ++ cleared).map ops.chain.id

/-- **No modifier leaves the cache unreported**, from a reachable node, if and only
if no scan of the loop meets, before its candidate, a modifier that can never be
applied. -/
theorem processRemoteModifiers_reported {ops : NodeViewOps Id PMOD TX HIS MS VL MP} {fuel : ℕ}
    {node node' : Node Id PMOD TX HIS MS VL MP} {mods : List PMOD} (hreach : Reachable ops node)
    (h : processRemoteModifiers ops fuel node mods = .value node') :
    Reported ops node node' mods
      ↔ ∀ s, Scans ops fuel (fill ops node mods) s → doomedAt ops s = [] := by
  obtain ⟨looped, applied, hloops, rfl⟩ := processRemoteModifiers_value h
  have hkeyed : Keyed ops (fill ops node mods).modifiersCache := hreach.keyed.putAll mods
  obtain ⟨hkept, hcleared, _, hfrom⟩ :=
    ModifiersCache.removeUntilCorrectSize_spec looped.modifiersCache
      looped.modifiersCache.evictionQueue []
  constructor
  · rintro ⟨applied', cleared', hlast, hlaw⟩ s hs
    -- the published event is the one of this message
    have hev : applied = applied' ∧ looped.modifiersCache.cleanOverfull.1 = cleared' := by
      simpa [Holder.publish] using hlast
    obtain ⟨rfl, rfl⟩ := hev
    by_contra hne
    obtain ⟨k, hk⟩ := List.exists_mem_of_ne_nil _ hne
    obtain ⟨hfilled, hlooped, hmods⟩ := hloops.doomed hkeyed hs hk
    have hgone : k ∉ looped.modifiersCache.cleanOverfull.2.cache.keys := by
      intro hmem
      obtain ⟨v, hv⟩ := mem_keys_iff.1 hmem
      exact hlooped (mem_keys_iff.2 ⟨v, hkept k v hv⟩)
    have hrep := hlaw k (mem_keys_putAll.1 hfilled) hgone
    rw [List.map_append, List.mem_append] at hrep
    rcases hrep with hrep | hrep
    · exact hmods hrep
    · obtain ⟨v, hv, rfl⟩ := List.mem_map.1 hrep
      rcases hfrom v hv with hv | ⟨k', hk', _⟩
      · cases hv
      · have := hkeyed.loops hloops k' v hk'
        exact hlooped (mem_keys_iff.2 ⟨v, this ▸ hk'⟩)
  · intro hnone
    refine ⟨applied, looped.modifiersCache.cleanOverfull.1, by simp [Holder.publish], ?_⟩
    intro k hk hgone
    have hfilled : k ∈ (fill ops node mods).modifiersCache.cache.keys := mem_keys_putAll.2 hk
    rw [List.map_append, List.mem_append]
    rcases hloops.accounted hkeyed hfilled with hlooped | happlied | ⟨s, hs, hd⟩
    · obtain ⟨v, hv⟩ := mem_keys_iff.1 hlooped
      rcases hcleared k v hv with hv' | hv'
      · exact absurd (mem_keys_iff.2 ⟨v, hv'⟩) hgone
      · exact .inr (List.mem_map.2 ⟨v, hv', hkeyed.loops hloops k v hv⟩)
    · exact .inl happlied
    · rw [hnone s hs] at hd
      cases hd

/-! ## A history of numbers -/

/-- A history of numbers in which the parent of `n` is `n - 1`; it asks for nothing
to be applied to the state. -/
def countingChain : ChainOps ℕ ℕ (List ℕ) Unit where
  id m := m
  contains history id := history.contains id
  applicableTry history m :=
    if history.contains m then .error (.malformedModifierError "already in history")
    else if history.contains (m - 1) then .ok ()
    else .error (.recoverableModifierError "parent is missing")
  append history m := .ok (m :: history, ⟨none, [], [], fun h => absurd rfl h⟩)
  reportModifierIsValid history _ := .ok history
  reportModifierIsInvalid history _ progressInfo := .ok (history, progressInfo)
  openSurfaceIds history := history.take 1
  version _ := 0
  applyModifier _ _ := .ok ()
  rollbackTo _ _ := .ok ()

/-- The node view over `countingChain`, without wallet and transactions. -/
def countingOps : NodeViewOps ℕ ℕ Unit (List ℕ) Unit Unit Unit where
  chain := countingChain
  vault := ⟨fun _ _ => (), fun _ _ => (), fun _ _ => .ok ()⟩
  mempool := ⟨fun _ => 0, fun _ => [], none, fun _ _ => .ok (), fun _ _ => (), fun _ _ => (), false⟩

/-- A node over the history `[0]` with nothing cached. -/
def countingNode : Node ℕ ℕ Unit (List ℕ) Unit Unit Unit :=
  ⟨.new 2 (by decide), ⟨[0], (), (), (), []⟩⟩

/-- The child of the genesis comes alone, and is reported. -/
theorem child_reported :
    ∃ node', processRemoteModifiers countingOps 1 countingNode [1] = .value node'
    ∧ Reported countingOps countingNode node' [1] := by
  refine ⟨_, rfl, ?_⟩
  have hreach : Reachable countingOps countingNode := .start 2 _ _
  have hrun : processRemoteModifiers countingOps 1 countingNode [1] = .value _ := rfl
  refine (processRemoteModifiers_reported hreach hrun).2 ?_
  intro s hs
  cases hs with
  | here => rfl
  | later hpop hmod hs' =>
    cases hpop
    cases hmod
    cases hs' with
    | here => rfl
    | later hpop' _ _ => cases hpop'

/-- The genesis comes once more: it is put into the cache, removed by the first
scan, and neither reported as applied nor as cleared. -/
theorem removed_unreported :
    Reachable countingOps countingNode
    ∧ ∃ node', processRemoteModifiers countingOps 1 countingNode [0] = .value node'
      ∧ node'.modifiersCache.cache.keys = []
      ∧ ¬ Reported countingOps countingNode node' [0] := by
  refine ⟨.start 2 _ _, _, rfl, rfl, ?_⟩
  rintro ⟨applied, cleared, hlast, hlaw⟩
  cases hlast
  exact absurd (hlaw 0 (.inr ⟨0, List.mem_cons_self, rfl⟩) List.not_mem_nil) List.not_mem_nil

end Sparkz.NodeView
