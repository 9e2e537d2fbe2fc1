import Sparkz.NodeView.ViewChanges

/-!
# What becomes of a modifier

A modifier that is handed to the node view holder waits in the cache, is announced as
one of the outcomes that a listener acts on, or is dropped: a scan removes it from the
cache without an announcement, or the loop takes it out although the history contains
it already.

* `Settles` — the announcements that settle what becomes of an id.
* `droppedFrom`, `dropped` — the ids that the handling of a message drops, read off the
  loop of the source.
* `receive_settled` — **every id has one of the three fates**, whatever the message.
-/

namespace Sparkz.NodeView

open Sparkz.Lib

variable {Id PMOD TX HIS MS VL MP : Type} [DecidableEq Id]

/-- The announcements that settle what becomes of the modifier or the transaction with
this id; those about transactions where transactions are handled. -/
inductive Settles (ops : NodeViewOps Id PMOD TX HIS MS VL MP) (id : Id) :
    Event Id PMOD TX HIS MS VL MP → Prop where
  | syntacticallySuccessfulModifier {pmod : PMOD} : ops.chain.id pmod = id →
      Settles ops id (.syntacticallySuccessfulModifier pmod)
  | syntacticallyFailedModification {pmod : PMOD} (e : Throwable) : ops.chain.id pmod = id →
      Settles ops id (.syntacticallyFailedModification pmod e)
  | modifiersProcessingResult {applied cleared : List PMOD} {pmod : PMOD} : pmod ∈ cleared →
      ops.chain.id pmod = id → Settles ops id (.modifiersProcessingResult applied cleared)
  | successfulTransaction {tx : TX} : ops.mempool.handlingTransactionsEnabled = true →
      ops.mempool.txId tx = id → Settles ops id (.successfulTransaction tx)
  | failedTransaction (e : Throwable) (immediateFailure : Bool) :
      ops.mempool.handlingTransactionsEnabled = true →
      Settles ops id (.failedTransaction id e immediateFailure)

/-- The ids that `applyLoop`, for at most `n` calls, takes out of the cache without an
announcement about them. -/
def droppedFrom (ops : NodeViewOps Id PMOD TX HIS MS VL MP) (fuel : ℕ) :
    ℕ → Node Id PMOD TX HIS MS VL MP → List Id
  | 0, _ => []
  | n + 1, node =>
      doomedAt ops node ++
        match node.modifiersCache.popCandidate ops.chain node.holder.history with
        | (none, _) => []
        | (some mod, c) =>
            let known := if ops.chain.contains node.holder.history (ops.chain.id mod) then
              [ops.chain.id mod] else []
            match pmodModify ops fuel node.holder mod with
            | .value holder => known ++ droppedFrom ops fuel n ⟨c, holder⟩
            | _ => known

/-- The ids that the handling of a message drops.  Transactions that are refused
altogether are announced as failed, but no listener acts on that. -/
def dropped (ops : NodeViewOps Id PMOD TX HIS MS VL MP) (fuel : ℕ)
    (node : Node Id PMOD TX HIS MS VL MP) : Message Id PMOD TX → List Id
  | .modifiersFromRemote mods =>
      let filled := fill ops node mods
      droppedFrom ops fuel (filled.modifiersCache.size + 1) filled
  | .newTransactions txs =>
      if ops.mempool.handlingTransactionsEnabled then [] else txs.map ops.mempool.txId
  | _ => []

/-- The ids that a message hands over. -/
def Carries (ops : NodeViewOps Id PMOD TX HIS MS VL MP) (id : Id) : Message Id PMOD TX → Prop
  | .modifiersFromRemote mods => ∃ m ∈ mods, ops.chain.id m = id
  | .newTransactions txs => ∃ tx ∈ txs, ops.mempool.txId tx = id
  | _ => False

/-! ## The loop -/

/-- A modifier that the history did not contain is settled by `pmodModify`. -/
theorem Modifies.settled {ops : NodeViewOps Id PMOD TX HIS MS VL MP}
    {h h' : Holder Id PMOD TX HIS MS VL MP} {pmod : PMOD} (hmod : Modifies ops h pmod h') :
    ∃ events, h'.published = h.published ++ events
      ∧ (ops.chain.contains h.history (ops.chain.id pmod) = false →
        ∃ event ∈ events, Settles ops (ops.chain.id pmod) event) := by
  have happended : ∀ history, Settles ops (ops.chain.id pmod)
      (.syntacticallySuccessfulModifier pmod)
      ∧ .syntacticallySuccessfulModifier pmod ∈ appended ops pmod history :=
    fun history => ⟨.syntacticallySuccessfulModifier rfl, by simp [appended]⟩
  cases hmod with
  | known hknown => exact ⟨[], by simp, fun hnew => by rw [hknown] at hnew; cases hnew⟩
  | @rejected e _ _ =>
    exact ⟨_, rfl, fun _ => ⟨.syntacticallyFailedModification pmod e, by simp,
      .syntacticallyFailedModification e rfl⟩⟩
  | @extended history _ _ _ =>
    refine ⟨_, (published_updateNodeView _ _ _ _ _).trans (List.append_assoc _ _ _), fun _ =>
      ⟨_, ?_, (happended history).1⟩⟩
    simp [(happended history).2]
  | @updated history _ _ _ _ _ _ _ _ _ _ =>
    refine ⟨_, (published_updateNodeView _ _ _ _ _).trans (List.append_assoc _ _ _), fun _ =>
      ⟨_, ?_, (happended history).1⟩⟩
    simp [(happended history).2]
  | @notUpdated history _ _ _ _ _ _ _ _ _ =>
    refine ⟨_, (published_updateNodeView _ _ _ _ _).trans (List.append_assoc _ _ _), fun _ =>
      ⟨_, ?_, (happended history).1⟩⟩
    simp [(happended history).2]

/-- A cached modifier is cached after the loop, settled, or dropped. -/
theorem applyLoop_settled {ops : NodeViewOps Id PMOD TX HIS MS VL MP} {fuel n : ℕ}
    {node looped : Node Id PMOD TX HIS MS VL MP} {acc applied : List PMOD}
    (hkeyed : Keyed ops node.modifiersCache)
    (h : applyLoop ops fuel n node acc = .value (looped, applied)) :
    ∃ events, looped.holder.published = node.holder.published ++ events
      ∧ ∀ k ∈ node.modifiersCache.cache.keys,
        k ∈ looped.modifiersCache.cache.keys ∨ (∃ event ∈ events, Settles ops k event)
        ∨ k ∈ droppedFrom ops fuel n node := by
  induction n generalizing node acc with
  | zero => cases h
  | succ n ih =>
    rw [applyLoop] at h
    split at h
    · rename_i c hpop
      cases h
      refine ⟨[], (List.append_nil _).symm, fun k hk => ?_⟩
      by_cases hd : k ∈ doomedAt ops node
      · exact .inr (.inr (by simp [droppedFrom, hd]))
      · exact .inl ((mem_keys_popCandidate_none hpop).2 ⟨hk, hd⟩)
    · rename_i m c hpop
      split at h
      · rename_i holder hmod
        have hkeyed' : Keyed ops c := hkeyed.mono fun _ _ hv => get?_of_popCandidate hpop hv
        obtain ⟨_, _, hkeys⟩ := mem_keys_popCandidate_some hkeyed hpop
        obtain ⟨events, hpublished, hsettled⟩ := (pmodModify_modifies hmod).settled
        obtain ⟨events', hpublished', hrest⟩ := ih hkeyed' h
        refine ⟨events ++ events', by rw [hpublished', hpublished, List.append_assoc], ?_⟩
        intro k hk
        have hdropped : ∀ k, k ∈ doomedAt ops node
            ∨ k = ops.chain.id m ∧ ops.chain.contains node.holder.history (ops.chain.id m) = true
            ∨ k ∈ droppedFrom ops fuel n ⟨c, holder⟩ → k ∈ droppedFrom ops fuel (n + 1) node := by
          rintro k (hd | ⟨rfl, hknown⟩ | hd)
          · simp [droppedFrom, hd]
          · simp [droppedFrom, hpop, hmod, hknown]
          · simp [droppedFrom, hpop, hmod, hd]
        by_cases hd : k ∈ doomedAt ops node
        · exact .inr (.inr (hdropped k (.inl hd)))
        by_cases hm : k = ops.chain.id m
        · -- the candidate itself
          subst hm
          by_cases hknown : ops.chain.contains node.holder.history (ops.chain.id m) = true
          · exact .inr (.inr (hdropped _ (.inr (.inl ⟨rfl, hknown⟩))))
          · obtain ⟨event, hevent, hsettles⟩ := hsettled (by simpa using hknown)
            exact .inr (.inl ⟨event, List.mem_append_left _ hevent, hsettles⟩)
        · rcases hrest k ((hkeys k).2 ⟨hk, hd, hm⟩) with hc | ⟨event, hevent, hsettles⟩ | hd'
          · exact .inl hc
          · exact .inr (.inl ⟨event, List.mem_append_right _ hevent, hsettles⟩)
          · exact .inr (.inr (hdropped k (.inr (.inr hd'))))
      · cases h
      · cases h

/-! ## Messages -/

/-- The fate of an id after the handling of a message: cached, settled or dropped. -/
def Fate (ops : NodeViewOps Id PMOD TX HIS MS VL MP) (node' : Node Id PMOD TX HIS MS VL MP)
    (events : List (Event Id PMOD TX HIS MS VL MP)) (droppedIds : List Id) (k : Id) : Prop :=
  k ∈ node'.modifiersCache.cache.keys ∨ (∃ event ∈ events, Settles ops k event) ∨ k ∈ droppedIds

theorem processRemoteModifiers_settled {ops : NodeViewOps Id PMOD TX HIS MS VL MP} {fuel : ℕ}
    {node node' : Node Id PMOD TX HIS MS VL MP} {mods : List PMOD}
    (hkeyed : Keyed ops node.modifiersCache)
    (h : processRemoteModifiers ops fuel node mods = .value node') :
    ∃ events, node'.holder.published = node.holder.published ++ events
      ∧ ∀ k, k ∈ node.modifiersCache.cache.keys ∨ (∃ m ∈ mods, ops.chain.id m = k) →
        Fate ops node' events (dropped ops fuel node (.modifiersFromRemote mods)) k := by
  unfold processRemoteModifiers at h
  simp only at h
  split at h
  · rename_i looped applied hloop
    cases h
    have hfilled : Keyed ops (fill ops node mods).modifiersCache := hkeyed.putAll mods
    obtain ⟨events, hpublished, hloopSettled⟩ := applyLoop_settled hfilled hloop
    obtain ⟨loopMods, _, hloops⟩ := applyLoop_loops hloop
    obtain ⟨_, hcleared, _, _⟩ := ModifiersCache.removeUntilCorrectSize_spec looped.modifiersCache
      looped.modifiersCache.evictionQueue []
    refine ⟨events ++ [.modifiersProcessingResult applied looped.modifiersCache.cleanOverfull.1],
      ?_, ?_⟩
    · rw [Holder.publish, hpublished, List.append_assoc]
      rfl
    · intro k hk
      rcases hloopSettled k (mem_keys_putAll.2 hk) with hcached | ⟨event, hevent, hsettles⟩ | hd
      · -- what the eviction removes it reports
        obtain ⟨v, hv⟩ := mem_keys_iff.1 hcached
        rcases hcleared k v hv with hv' | hv'
        · exact .inl (mem_keys_iff.2 ⟨v, hv'⟩)
        · have hid : ops.chain.id v = k := hfilled.loops hloops k v hv
          exact .inr (.inl ⟨_, List.mem_append_right _ (List.mem_singleton_self _),
            .modifiersProcessingResult hv' hid⟩)
      · exact .inr (.inl ⟨event, List.mem_append_left _ hevent, hsettles⟩)
      · exact .inr (.inr hd)
  · cases h
  · cases h

omit [DecidableEq Id] in
theorem Transacts.settled {ops : NodeViewOps Id PMOD TX HIS MS VL MP}
    (henabled : ops.mempool.handlingTransactionsEnabled = true)
    {h h' : Holder Id PMOD TX HIS MS VL MP} {tx : TX} (htransacts : Transacts ops h tx h') :
    ∃ events, h'.published = h.published ++ events
      ∧ ∃ event ∈ events, Settles ops (ops.mempool.txId tx) event := by
  cases htransacts with
  | pooled _ _ =>
    exact ⟨_, (congrArg (· ++ _) (published_updateNodeView _ _ _ _ _)).trans
      (List.append_assoc _ _ _), _, List.mem_append_right _ (List.mem_singleton_self _),
      .successfulTransaction henabled rfl⟩
  | failed e => exact ⟨_, rfl, _, List.mem_singleton_self _, .failedTransaction e true henabled⟩

omit [DecidableEq Id] in
/-- Each transaction of a message is settled, where transactions are handled. -/
theorem foldl_txModify_settled {ops : NodeViewOps Id PMOD TX HIS MS VL MP}
    (henabled : ops.mempool.handlingTransactionsEnabled = true) (txs : List TX)
    (h : Holder Id PMOD TX HIS MS VL MP) :
    ∃ events, (txs.foldl (txModify ops) h).published = h.published ++ events
      ∧ ∀ tx ∈ txs, ∃ event ∈ events, Settles ops (ops.mempool.txId tx) event := by
  induction txs generalizing h with
  | nil => exact ⟨[], (List.append_nil _).symm, fun _ hm => (by cases hm)⟩
  | cons tx txs ih =>
    obtain ⟨events, hpublished, event, hevent, hsettles⟩ :=
      (txModify_transacts ops h tx).settled henabled
    obtain ⟨events', hpublished', hrest⟩ := ih (txModify ops h tx)
    refine ⟨events ++ events', ?_, ?_⟩
    · rw [List.foldl_cons, hpublished', hpublished, List.append_assoc]
    intro tx' htx'
    rcases List.mem_cons.1 htx' with rfl | htx'
    · exact ⟨event, List.mem_append_left _ hevent, hsettles⟩
    · obtain ⟨event', hevent', hsettles'⟩ := hrest tx' htx'
      exact ⟨event', List.mem_append_right _ hevent', hsettles'⟩

/-- **Every id has one of the three fates**: what is cached, and what the message hands
over, is cached after the handling of any message, settled by an announcement, or
dropped. -/
theorem receive_settled {ops : NodeViewOps Id PMOD TX HIS MS VL MP} {fuel : ℕ}
    {node node' : Node Id PMOD TX HIS MS VL MP} {message : Message Id PMOD TX}
    (hkeyed : Keyed ops node.modifiersCache) (h : receive ops fuel node message = .value node') :
    ∃ events, node'.holder.published = node.holder.published ++ events
      ∧ ∀ k, k ∈ node.modifiersCache.cache.keys ∨ Carries ops k message →
        Fate ops node' events (dropped ops fuel node message) k := by
  cases message with
  | modifiersFromRemote mods => exact processRemoteModifiers_settled hkeyed h
  | locallyGeneratedModifier pmod =>
    simp only [receive] at h
    split at h <;> cases h
    rename_i hmod
    obtain ⟨events, hpublished, _⟩ := (pmodModify_modifies hmod).settled
    exact ⟨events, hpublished, fun k hk => .inl (hk.resolve_right id)⟩
  | newTransactions txs =>
    simp only [receive] at h
    split at h <;> cases h
    · rename_i henabled
      obtain ⟨events, hpublished, hsettled⟩ := foldl_txModify_settled henabled txs node.holder
      refine ⟨events, hpublished, ?_⟩
      rintro k (hk | ⟨tx, htx, rfl⟩)
      · exact .inl hk
      · exact .inr (.inl (hsettled tx htx))
    · rename_i hdisabled
      refine ⟨_, rfl, ?_⟩
      rintro k (hk | ⟨tx, htx, rfl⟩)
      · exact .inl hk
      · refine .inr (.inr ?_)
        rw [dropped, if_neg hdisabled]
        exact List.mem_map_of_mem htx
  | eliminateTransactions ids =>
    cases h
    obtain ⟨events, hpublished⟩ : ∃ events, (eliminate ops node.holder ids).published
        = node.holder.published ++ events :=
      ⟨_, (congrArg (· ++ _) (published_updateNodeView _ _ _ _ _)).trans (List.append_assoc _ _ _)⟩
    exact ⟨events, hpublished, fun k hk => .inl (hk.resolve_right id)⟩

end Sparkz.NodeView
