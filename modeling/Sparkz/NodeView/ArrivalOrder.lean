import Sparkz.NodeView.RemoteModifiers
import Sparkz.NodeView.UpdateState

/-!
# The arrival order of remote modifiers

Over a history in which a modifier can be applied as soon as its parent is there,
the order in which modifiers come does not matter, nor how they are split into
messages: the modifiers cache keeps what came too early.

* `ParentHistory` — the laws of such a history; `UpdatesEnd` — that the state and
  the vault can be rolled back, and that the history runs out of alternatives.
* `Closed` — the ids that can be reached: those present at first, and each given
  modifier whose parent can be reached.
* `Settled` — the invariant after each message: no applicable modifier is cached,
  and every modifier that came is contained or cached.
* `contained_eq_closed` — **arrival order does not matter**: each message is handled,
  none leaves an applicable modifier in the cache, and after the last one the
  history contains exactly the `Closed` ids.
* `alternatives_without_end` — where the alternatives do not run out, a message is never
  handled.
-/

namespace Sparkz.NodeView

open Sparkz.Lib

variable {Id PMOD TX HIS MS VL MP : Type} [DecidableEq Id]

/-- A history that takes a modifier just when it contains its parent but not the
modifier itself, and whose validity reports leave the contained ids alone. -/
structure ParentHistory (chain : ChainOps Id PMOD HIS MS) (parent : PMOD → Id) : Prop where
  applicable_iff : ∀ h m, chain.applicableTry h m = .ok ()
    ↔ chain.contains h (parent m) = true ∧ chain.contains h (chain.id m) = false
  parent_missing : ∀ h m, chain.contains h (parent m) = false →
    chain.contains h (chain.id m) = false →
    ∃ e, chain.applicableTry h m = .error e ∧ e.isRecoverable = true
  already_contained : ∀ h m, chain.contains h (chain.id m) = true →
    chain.contains h (parent m) = true →
    ∃ e, chain.applicableTry h m = .error e ∧ e.isRecoverable = false
  append_adds : ∀ h m, chain.applicableTry h m = .ok () →
    ∃ h' info, chain.append h m = .ok (h', info)
      ∧ ∀ i, chain.contains h' i = true ↔ chain.contains h i = true ∨ i = chain.id m
  valid_keeps : ∀ h m h', chain.reportModifierIsValid h m = .ok h' →
    chain.contains h' = chain.contains h
  invalid_keeps : ∀ h m info h' info', chain.reportModifierIsInvalid h m info = .ok (h', info') →
    chain.contains h' = chain.contains h

/-- The state and the vault can be rolled back, and no sequence of alternatives to
failed modifiers goes on for ever. -/
structure UpdatesEnd (ops : NodeViewOps Id PMOD TX HIS MS VL MP) : Prop where
  rollbackTo_ok : ∀ s v, ∃ s', ops.chain.rollbackTo s v = .ok s'
  rollback_ok : ∀ v i, ∃ v', ops.vault.rollback v i = .ok v'
  alternatives_end : ∀ r, Acc (fun next r => (updateRound ops.chain r).1 = .inl next) r

/-! ## One modifier -/

section

variable {chain : ChainOps Id PMOD HIS MS} {parent : PMOD → Id}

omit [DecidableEq Id] in
/-- The contained ids and the alternative after a fold of `applyStateStep`. -/
theorem foldl_applyStateStep_contains (hist : ParentHistory chain parent) {history : HIS}
    {progressInfo : ProgressInfo Id PMOD} {mods : List PMOD} {s : MS} {h₀ : HIS}
    {suffix : List PMOD} {events events' : List (UpdateEvent PMOD)}
    {info : UpdateInformation Id PMOD HIS MS}
    (h₀_contains : chain.contains h₀ = chain.contains history)
    (h : mods.foldl (applyStateStep chain history progressInfo)
      (.ok ⟨h₀, s, none, none, suffix⟩, events) = (.ok info, events')) :
    chain.contains info.history = chain.contains history
      ∧ (info.failedMod.isSome → info.alternativeProgressInfo.isSome) := by
  induction mods generalizing h₀ s suffix events with
  | nil =>
    cases h
    exact ⟨h₀_contains, fun h => (by cases h)⟩
  | cons m mods ih =>
    rw [List.foldl_cons, applyStateStep] at h
    simp only [Option.isNone_none, if_true] at h
    split at h
    · split at h
      · rename_i newHis hreport
        exact ih (hist.valid_keeps _ _ _ hreport) h
      · rw [foldl_applyStateStep_error] at h
        cases h
    · split at h
      · rename_i newHis newProgressInfo hreport
        rw [foldl_applyStateStep_failed _ _ _ rfl] at h
        cases h
        exact ⟨hist.invalid_keeps _ _ _ _ _ hreport, fun _ => rfl⟩
      · rw [foldl_applyStateStep_error] at h
        cases h

/-- Where every rollback succeeds, each round has a state to apply its progress info
to. -/
theorem stateToApply_ok (hroll : ∀ s v, ∃ s', chain.rollbackTo s v = .ok s')
    (r : Round Id PMOD HIS MS) : ∃ s suffix, stateToApply chain r = (.ok s, suffix) := by
  unfold stateToApply
  split
  · rename_i hswitch
    have hsome := r.progressInfo.branchPoint_isSome (by
      simpa [ProgressInfo.chainSwitchingNeeded] using hswitch)
    obtain ⟨b, hb⟩ := Option.isSome_iff_exists.1 hsome
    rw [hb]
    simp only
    split
    · obtain ⟨s', hs'⟩ := hroll r.state b
      exact ⟨s', _, by rw [hs']⟩
    · exact ⟨_, _, rfl⟩
  · exact ⟨_, _, rfl⟩

/-- A round keeps the contained ids, in its next round and in its result. -/
theorem updateRound_contains (hist : ParentHistory chain parent) {r : Round Id PMOD HIS MS}
    {result : Round Id PMOD HIS MS ⊕ UpdateResult PMOD HIS MS} {events : List (UpdateEvent PMOD)}
    (h : updateRound chain r = (result, events)) :
    (∀ next, result = .inl next → chain.contains next.history = chain.contains r.history)
    ∧ ∀ newHistory s suffix, result = .inr (.returned newHistory s suffix) →
      chain.contains newHistory = chain.contains r.history := by
  unfold updateRound at h
  split at h
  · split at h
    · rename_i info events' happly
      obtain ⟨hcontains, _⟩ := foldl_applyStateStep_contains hist rfl happly
      split at h
      · cases h
        refine ⟨?_, fun _ _ _ h => (by cases h)⟩
        rintro next ⟨⟩
        exact hcontains
      · cases h
        exact ⟨fun _ h => (by cases h), fun _ _ _ h => (by cases h)⟩
      · cases h
        refine ⟨fun _ h => (by cases h), ?_⟩
        rintro newHistory s suffix ⟨⟩
        exact hcontains
    · cases h
      refine ⟨fun _ h => (by cases h), ?_⟩
      rintro newHistory s suffix ⟨⟩
      rfl
  · cases h
    exact ⟨fun _ h => (by cases h), fun _ _ _ h => (by cases h)⟩

/-- A run keeps the contained ids. -/
theorem updateState_contains (hist : ParentHistory chain parent) {fuel : ℕ}
    {r : Round Id PMOD HIS MS} {newHistory : HIS} {s : Except Throwable MS} {suffix : List PMOD}
    {events : List (UpdateEvent PMOD)}
    (h : updateState chain fuel r = some (.returned newHistory s suffix, events)) :
    chain.contains newHistory = chain.contains r.history := by
  induction fuel generalizing r events with
  | zero => cases h
  | succ fuel ih =>
    rw [updateState] at h
    split at h
    · rename_i next events₁ hround
      obtain ⟨⟨result, events'⟩, hres, heq⟩ := Option.map_eq_some_iff.1 h
      cases heq
      rw [ih hres]
      exact (updateRound_contains hist hround).1 next rfl
    · rename_i result events₁ hround
      cases h
      exact (updateRound_contains hist hround).2 _ _ _ rfl

end

section

variable {ops : NodeViewOps Id PMOD TX HIS MS VL MP} {parent : PMOD → Id}

/-- A round that can roll back ends with another round or returns. -/
theorem updateRound_returns (hist : ParentHistory ops.chain parent) (ends : UpdatesEnd ops)
    (r : Round Id PMOD HIS MS) :
    (∃ next events, updateRound ops.chain r = (.inl next, events))
    ∨ ∃ newHistory s suffix events,
      updateRound ops.chain r = (.inr (.returned newHistory s suffix), events) := by
  obtain ⟨s, suffix, hs⟩ := stateToApply_ok ends.rollbackTo_ok r
  unfold updateRound
  rw [hs]
  simp only
  split
  · rename_i info events happly
    obtain ⟨_, halternative⟩ := foldl_applyStateStep_contains hist rfl happly
    split
    · exact .inl ⟨_, _, rfl⟩
    · rename_i hfailed hnone
      have := halternative (by rw [hfailed]; rfl)
      rw [hnone] at this
      cases this
    · exact .inr ⟨_, _, _, _, rfl⟩
  · exact .inr ⟨_, _, _, _, rfl⟩

/-- `updateState` returns, with enough fuel. -/
theorem updateState_returns (hist : ParentHistory ops.chain parent) (ends : UpdatesEnd ops)
    (r : Round Id PMOD HIS MS) :
    ∃ fuel₀ newHistory s suffix events, ∀ fuel ≥ fuel₀,
      updateState ops.chain fuel r = some (.returned newHistory s suffix, events) := by
  induction ends.alternatives_end r with
  | intro r _ ih =>
    rcases updateRound_returns hist ends r with ⟨next, events, hround⟩ |
      ⟨newHistory, s, suffix, events, hround⟩
    · obtain ⟨fuel₀, newHistory, s, suffix, events', hfuel⟩ := ih next (by rw [hround])
      refine ⟨fuel₀ + 1, newHistory, s, suffix, events ++ events', ?_⟩
      intro fuel hge
      obtain ⟨n, rfl⟩ := Nat.exists_eq_add_of_le hge
      rw [show fuel₀ + 1 + n = fuel₀ + n + 1 by omega, updateState, hround]
      simp only [hfuel (fuel₀ + n) (by omega), Option.map_some]
    · refine ⟨1, newHistory, s, suffix, events, ?_⟩
      intro fuel hge
      obtain ⟨n, rfl⟩ := Nat.exists_eq_add_of_le hge
      rw [Nat.add_comm, updateState, hround]

theorem vaultToScan_ok (ends : UpdatesEnd ops) (v : VL) (progressInfo : ProgressInfo Id PMOD) :
    ∃ v', vaultToScan ops.vault v progressInfo = .ok v' := by
  unfold vaultToScan
  split
  · rename_i hswitch
    have hsome := progressInfo.branchPoint_isSome (by
      simpa [ProgressInfo.chainSwitchingNeeded] using hswitch)
    obtain ⟨b, hb⟩ := Option.isSome_iff_exists.1 hsome
    rw [hb]
    exact ends.rollback_ok v b
  · exact ⟨v, rfl⟩

/-- An applicable modifier is handled, with enough fuel. -/
theorem pmodModify_ends (hist : ParentHistory ops.chain parent) (ends : UpdatesEnd ops)
    (h : Holder Id PMOD TX HIS MS VL MP) {m : PMOD}
    (happlicable : ops.chain.applicableTry h.history m = .ok ()) :
    ∃ fuel₀ h', ∀ fuel ≥ fuel₀, pmodModify ops fuel h m = .value h' := by
  obtain ⟨_, hnot⟩ := (hist.applicable_iff _ _).1 happlicable
  obtain ⟨history, info, happend, _⟩ := hist.append_adds _ _ happlicable
  obtain ⟨fuel₀, newHistory, s, suffix, events, hfuel⟩ :=
    updateState_returns hist ends ⟨history, h.minimalState, info, []⟩
  have hsame : ∀ fuel ≥ fuel₀, pmodModify ops fuel h m = pmodModify ops fuel₀ h m := by
    intro fuel hge
    simp only [pmodModify, Holder.publish, hnot, happend, hfuel fuel hge, hfuel fuel₀ le_rfl]
  have hvalue : ∃ h', pmodModify ops fuel₀ h m = .value h' := by
    unfold pmodModify
    simp only [Holder.publish, hnot, Bool.false_eq_true, if_false, happend]
    split
    · exact ⟨_, rfl⟩
    · simp only [hfuel fuel₀ le_rfl]
      cases s with
      | error e => exact ⟨_, rfl⟩
      | ok s =>
        obtain ⟨v, hv⟩ := vaultToScan_ok ends h.vault info
        simp only [hv]
        exact ⟨_, rfl⟩
  obtain ⟨h', hh'⟩ := hvalue
  exact ⟨fuel₀, h', fun fuel hge => (hsame fuel hge).trans hh'⟩

/-- An applicable modifier that is handled adds its id to the contained ones. -/
theorem pmodModify_contains (hist : ParentHistory ops.chain parent) {fuel : ℕ}
    {h h' : Holder Id PMOD TX HIS MS VL MP} {m : PMOD}
    (happlicable : ops.chain.applicableTry h.history m = .ok ())
    (hmod : pmodModify ops fuel h m = .value h') (i : Id) :
    ops.chain.contains h'.history i = true
      ↔ ops.chain.contains h.history i = true ∨ i = ops.chain.id m := by
  obtain ⟨_, hnot⟩ := (hist.applicable_iff _ _).1 happlicable
  obtain ⟨history, info, happend, hadds⟩ := hist.append_adds _ _ happlicable
  rw [← hadds i]
  unfold pmodModify at hmod
  simp only [Holder.publish, hnot, Bool.false_eq_true, if_false, happend] at hmod
  split at hmod
  · cases hmod
    rfl
  · split at hmod
    · cases hmod
    · cases hmod
    · rename_i newHistory s suffix events hupdate
      split at hmod
      · cases hmod
      · cases hmod
        rw [← updateState_contains hist hupdate]
        rfl
    · rename_i newHistory e suffix events hupdate
      cases hmod
      rw [← updateState_contains hist hupdate]
      rfl

/-! ## One message -/

/-- The loop ends, with enough fuel. -/
theorem applyLoop_ends (hist : ParentHistory ops.chain parent) (ends : UpdatesEnd ops) (k : ℕ)
    (node : Node Id PMOD TX HIS MS VL MP) (hk : node.modifiersCache.size < k) (acc : List PMOD) :
    ∃ fuel₀ result, ∀ fuel ≥ fuel₀, applyLoop ops fuel k node acc = .value result := by
  induction k generalizing node acc with
  | zero => omega
  | succ k ih =>
    cases hpop : node.modifiersCache.popCandidate ops.chain node.holder.history with
    | mk found c =>
      cases found with
      | none =>
        refine ⟨0, (⟨c, node.holder⟩, acc), ?_⟩
        intro fuel _
        rw [applyLoop, hpop]
      | some m =>
        obtain ⟨_, _, happlicable, _⟩ := ModifiersCache.popCandidate_some hpop
        obtain ⟨fuel₁, holder, hmod⟩ := pmodModify_ends hist ends node.holder happlicable
        have hsize := ModifiersCache.size_popCandidate hpop
        obtain ⟨fuel₂, result, hloop⟩ := ih ⟨c, holder⟩ (show c.size < k by omega) (m :: acc)
        refine ⟨max fuel₁ fuel₂, result, ?_⟩
        intro fuel hge
        rw [applyLoop, hpop]
        simp only [hmod fuel (le_trans (le_max_left _ _) hge)]
        exact hloop fuel (le_trans (le_max_right _ _) hge)

/-- Each message is handled, with enough fuel. -/
theorem processRemoteModifiers_ends (hist : ParentHistory ops.chain parent)
    (ends : UpdatesEnd ops) (node : Node Id PMOD TX HIS MS VL MP) (mods : List PMOD) :
    ∃ fuel₀ node', ∀ fuel ≥ fuel₀,
      processRemoteModifiers ops fuel node mods = .value node' := by
  obtain ⟨fuel₀, ⟨looped, applied⟩, hloop⟩ := applyLoop_ends hist ends
    ((fill ops node mods).modifiersCache.size + 1) (fill ops node mods) (Nat.lt_succ_self _) []
  refine ⟨fuel₀, ⟨looped.modifiersCache.cleanOverfull.2, looped.holder.publish
    [.modifiersProcessingResult applied looped.modifiersCache.cleanOverfull.1]⟩, ?_⟩
  intro fuel hge
  simp only [processRemoteModifiers, hloop fuel hge]

/-- The ids that can be reached from the `present` ones by given modifiers. -/
inductive Closed (chain : ChainOps Id PMOD HIS MS) (parent : PMOD → Id) (present : Id → Prop)
    (given : Set PMOD) : Id → Prop
  | present {i : Id} : present i → Closed chain parent present given i
  | child {m : PMOD} : m ∈ given → Closed chain parent present given (parent m) →
      Closed chain parent present given (chain.id m)

omit [DecidableEq Id] in
theorem Closed.mono {chain : ChainOps Id PMOD HIS MS} {present : Id → Prop}
    {given given' : Set PMOD} (hsub : given ⊆ given') {i : Id}
    (h : Closed chain parent present given i) : Closed chain parent present given' i := by
  induction h with
  | present h => exact .present h
  | child hm _ ih => exact .child (hsub hm) ih

/-- The invariant between messages, and in the loop, when the modifiers `given` have
come: what is contained can be reached, each given modifier is contained or cached,
and nothing else is cached. -/
structure Tracked (ops : NodeViewOps Id PMOD TX HIS MS VL MP) (parent : PMOD → Id)
    (present : Id → Prop) (given : Set PMOD) (node : Node Id PMOD TX HIS MS VL MP) : Prop where
  started : ∀ i, present i → ops.chain.contains node.holder.history i = true
  closed : ∀ i, ops.chain.contains node.holder.history i = true →
    Closed ops.chain parent present given i
  cached : ∀ k v, node.modifiersCache.cache.get? k = some v → v ∈ given ∧ ops.chain.id v = k
  kept : ∀ m ∈ given, ops.chain.contains node.holder.history (ops.chain.id m) = true
    ∨ node.modifiersCache.cache.get? (ops.chain.id m) = some m

/-- No cached modifier can be applied. -/
def NoneApplicable (ops : NodeViewOps Id PMOD TX HIS MS VL MP)
    (node : Node Id PMOD TX HIS MS VL MP) : Prop :=
  ∀ k v, node.modifiersCache.cache.get? k = some v →
    ops.chain.applicableTry node.holder.history v ≠ .ok ()

variable {present : Id → Prop} {given : Set PMOD}

/-- A modifier that a scan removes is contained. -/
theorem contains_of_doomed (hist : ParentHistory ops.chain parent)
    {node : Node Id PMOD TX HIS MS VL MP} {m : PMOD}
    (hcached : node.modifiersCache.cache.get? (ops.chain.id m) = some m)
    (hd : ops.chain.id m ∈ doomedAt ops node) :
    ops.chain.contains node.holder.history (ops.chain.id m) = true := by
  obtain ⟨v, e, hmem, htry, hrec⟩ := ModifiersCache.mem_doomed hd
  rw [LinkedMap.get?_of_mem_entries hmem] at hcached
  cases hcached
  by_contra hnot
  rw [Bool.not_eq_true] at hnot
  by_cases hparent : ops.chain.contains node.holder.history (parent m) = true
  · rw [(hist.applicable_iff _ _).2 ⟨hparent, hnot⟩] at htry
    cases htry
  · obtain ⟨e', htry', hrec'⟩ := hist.parent_missing _ m (by simpa using hparent) hnot
    rw [htry] at htry'
    cases htry'
    rw [hrec] at hrec'
    cases hrec'

/-- The loop keeps the invariant, and leaves nothing applicable in the cache. -/
theorem Tracked.loops (hist : ParentHistory ops.chain parent) {fuel : ℕ}
    {node looped : Node Id PMOD TX HIS MS VL MP} {mods : List PMOD}
    (ht : Tracked ops parent present given node) (h : Loops ops fuel node looped mods) :
    Tracked ops parent present given looped ∧ NoneApplicable ops looped := by
  induction h with
  | @done node c hpop =>
    obtain ⟨hc, hnone⟩ := ModifiersCache.popCandidate_none hpop
    change c = node.modifiersCache.dropKeys (doomedAt ops node) at hc
    have hsub : ∀ k v, c.cache.get? k = some v → node.modifiersCache.cache.get? k = some v :=
      fun k v => get?_of_popCandidate hpop
    refine ⟨⟨ht.started, ht.closed, fun k v hv => ht.cached k v (hsub k v hv), ?_⟩, ?_⟩
    · intro m hm
      rcases ht.kept m hm with hin | hcached
      · exact .inl hin
      · by_cases hd : ops.chain.id m ∈ doomedAt ops node
        · have hin := contains_of_doomed hist hcached hd
          exact .inl hin
        · refine .inr ?_
          rw [hc, ModifiersCache.get?_dropKeys, if_neg hd]
          exact hcached
    · intro k v hv hok
      obtain ⟨e, he⟩ := hnone k v (hsub k v hv)
      rw [show ops.chain.applicableTry node.holder.history v = .ok () from hok] at he
      cases he
  | @more node looped m c holder mods hpop hmod _ ih =>
    obtain ⟨k, hget, happlicable, hnot, hc⟩ := ModifiersCache.popCandidate_some hpop
    change c = ((node.modifiersCache.dropKeys (doomedAt ops node)).remove k).2 at hc
    obtain ⟨hgiven, rfl⟩ := ht.cached k m hget
    have hcontains := pmodModify_contains hist happlicable hmod
    have hparent := ((hist.applicable_iff _ _).1 happlicable).1
    refine ih ⟨?_, ?_, ?_, ?_⟩
    · intro i hi
      exact (hcontains i).2 (.inl (ht.started i hi))
    · intro i hi
      rcases (hcontains i).1 hi with hi | rfl
      · exact ht.closed i hi
      · exact .child hgiven (ht.closed _ hparent)
    · intro k v hv
      exact ht.cached k v (get?_of_popCandidate hpop hv)
    · intro m' hm'
      rcases ht.kept m' hm' with hin | hcached
      · exact .inl ((hcontains _).2 (.inl hin))
      · by_cases hid : ops.chain.id m' = ops.chain.id m
        · exact .inl ((hcontains _).2 (.inr hid))
        · by_cases hd : ops.chain.id m' ∈ doomedAt ops node
          · exact .inl ((hcontains _).2 (.inl (contains_of_doomed hist hcached hd)))
          · refine .inr ?_
            show c.cache.get? _ = _
            rw [hc, ModifiersCache.get?_remove, if_neg hid, ModifiersCache.get?_dropKeys, if_neg hd]
            exact hcached

/-- A modifier that comes is cached, if it is not yet. -/
theorem Tracked.put {node : Node Id PMOD TX HIS MS VL MP}
    (ht : Tracked ops parent present given node) {m : PMOD}
    (hinj : Set.InjOn ops.chain.id (insert m given)) :
    Tracked ops parent present (insert m given)
      { node with modifiersCache := node.modifiersCache.put (ops.chain.id m) m } := by
  have hsub : given ⊆ insert m given := Set.subset_insert m given
  have hsame : ∀ w, node.modifiersCache.cache.get? (ops.chain.id m) = some w → w = m := by
    intro w hw
    obtain ⟨hw', hid⟩ := ht.cached _ w hw
    exact hinj (hsub hw') (Set.mem_insert m given) hid
  refine ⟨ht.started, fun i hi => (ht.closed i hi).mono hsub, ?_, ?_⟩
  · intro k v hv
    rw [ModifiersCache.get?_put] at hv
    split at hv
    · rename_i hk
      cases hget : node.modifiersCache.cache.get? (ops.chain.id m) with
      | none =>
        rw [hget] at hv
        cases hv
        exact ⟨Set.mem_insert m given, hk.symm⟩
      | some w =>
        rw [hget] at hv
        obtain rfl : w = v := by simpa using hv
        rw [hsame w hget]
        exact ⟨Set.mem_insert m given, hk.symm⟩
    · obtain ⟨hv', hid⟩ := ht.cached k v hv
      exact ⟨hsub hv', hid⟩
  · intro m' hm'
    rw [ModifiersCache.get?_put]
    by_cases hid : ops.chain.id m' = ops.chain.id m
    · have hm : m' = m := hinj hm' (Set.mem_insert m given) hid
      subst hm
      rw [if_pos rfl]
      cases hget : node.modifiersCache.cache.get? (ops.chain.id m') with
      | none => exact .inr rfl
      | some w =>
        rw [hsame w hget]
        exact .inr rfl
    · rw [if_neg hid]
      rcases hm' with rfl | hm'
      · exact absurd rfl hid
      · exact ht.kept m' hm'

/-- The modifiers of a message come one after the other. -/
theorem Tracked.fill {mods : List PMOD} {node : Node Id PMOD TX HIS MS VL MP}
    (ht : Tracked ops parent present given node)
    (hinj : Set.InjOn ops.chain.id (given ∪ {m | m ∈ mods})) :
    Tracked ops parent present (given ∪ {m | m ∈ mods}) (fill ops node mods) := by
  induction mods generalizing given node with
  | nil =>
    have hset : given ∪ {m | m ∈ ([] : List PMOD)} = given := by simp
    rw [hset]
    exact ht
  | cons m mods ih =>
    have hset : given ∪ {m' | m' ∈ m :: mods} = insert m given ∪ {m' | m' ∈ mods} := by
      ext m'
      simp only [Set.mem_union, Set.mem_ofPred_eq, List.mem_cons, Set.mem_insert_iff]
      tauto
    rw [hset] at hinj ⊢
    exact ih (ht.put (hinj.mono Set.subset_union_left)) hinj

/-- With no more modifiers given than it may hold, the cache is not overfull. -/
theorem Tracked.size_le {node : Node Id PMOD TX HIS MS VL MP}
    (ht : Tracked ops parent present given node) {all : Finset PMOD} (hsub : given ⊆ all) :
    node.modifiersCache.size ≤ all.card := by
  have hkeys : node.modifiersCache.cache.keys.toFinset ⊆ all.image ops.chain.id := by
    intro k hk
    obtain ⟨v, hv⟩ := mem_keys_iff.1 (List.mem_toFinset.1 hk)
    obtain ⟨hgiven, hid⟩ := ht.cached k v hv
    exact Finset.mem_image.2 ⟨v, hsub hgiven, hid⟩
  calc node.modifiersCache.size = node.modifiersCache.cache.keys.length :=
        (LinkedMap.length_keys _).symm
    _ = node.modifiersCache.cache.keys.toFinset.card :=
        (List.toFinset_card_of_nodup (LinkedMap.keys_nodup _)).symm
    _ ≤ (all.image ops.chain.id).card := Finset.card_le_card hkeys
    _ ≤ all.card := Finset.card_image_le

theorem putAll_maxSize (c : ModifiersCache Id PMOD) (mods : List PMOD) :
    (putAll ops c mods).maxSize = c.maxSize := by
  induction mods generalizing c with
  | nil => rfl
  | cons m mods ih =>
    show (putAll ops (c.put _ m) mods).maxSize = _
    rw [ih, ModifiersCache.put_maxSize]

theorem Loops.maxSize {fuel : ℕ} {node looped : Node Id PMOD TX HIS MS VL MP} {mods : List PMOD}
    (h : Loops ops fuel node looped mods) :
    looped.modifiersCache.maxSize = node.modifiersCache.maxSize := by
  induction h with
  | done hpop =>
    obtain ⟨rfl, _⟩ := ModifiersCache.popCandidate_none hpop
    exact ModifiersCache.dropKeys_maxSize _ _
  | more hpop _ _ ih =>
    obtain ⟨k, _, _, _, rfl⟩ := ModifiersCache.popCandidate_some hpop
    rw [ih]
    exact ModifiersCache.dropKeys_maxSize _ _

/-- The state of the node between messages. -/
structure Settled (ops : NodeViewOps Id PMOD TX HIS MS VL MP) (parent : PMOD → Id)
    (present : Id → Prop) (given : Set PMOD) (maxSize : ℕ)
    (node : Node Id PMOD TX HIS MS VL MP) : Prop where
  tracked : Tracked ops parent present given node
  noneApplicable : NoneApplicable ops node
  maxSize_eq : node.modifiersCache.maxSize = maxSize

/-- A message is handled and leaves the node settled again. -/
theorem Settled.message (hist : ParentHistory ops.chain parent) {all : Finset PMOD} {fuel : ℕ}
    {maxSize : ℕ} {node node' : Node Id PMOD TX HIS MS VL MP} {mods : List PMOD}
    (hs : Settled ops parent present given maxSize node) (hinj : Set.InjOn ops.chain.id all)
    (hcard : all.card ≤ maxSize) (hsub : given ∪ {m | m ∈ mods} ⊆ all)
    (h : processRemoteModifiers ops fuel node mods = .value node') :
    Settled ops parent present (given ∪ {m | m ∈ mods}) maxSize node' := by
  obtain ⟨looped, applied, hloops, rfl⟩ := processRemoteModifiers_value h
  obtain ⟨ht, hnone⟩ := (hs.tracked.fill (hinj.mono hsub)).loops hist hloops
  have hmax : looped.modifiersCache.maxSize = maxSize := by
    rw [hloops.maxSize, ← hs.maxSize_eq]
    exact putAll_maxSize _ _
  have hsize : looped.modifiersCache.size ≤ looped.modifiersCache.maxSize := by
    rw [hmax]
    exact (ht.size_le hsub).trans hcard
  rw [ModifiersCache.cleanOverfull_of_le hsize]
  exact ⟨⟨ht.started, ht.closed, ht.cached, ht.kept⟩, hnone, hmax⟩

/-! ## All messages -/

/-- Handle messages of modifiers one after the other. -/
def processMessages (ops : NodeViewOps Id PMOD TX HIS MS VL MP) (fuel : ℕ) :
    Node Id PMOD TX HIS MS VL MP → List (List PMOD) → Outcome (Node Id PMOD TX HIS MS VL MP)
  | node, [] => .value node
  | node, mods :: messages =>
      match processRemoteModifiers ops fuel node mods with
      | .value node' => processMessages ops fuel node' messages
      | .thrown e => .thrown e
      | .outOfFuel => .outOfFuel

/-- The modifiers of messages. -/
def modifiersOf (messages : List (List PMOD)) : Set PMOD := {m | ∃ mods ∈ messages, m ∈ mods}

theorem modifiersOf_cons (mods : List PMOD) (messages : List (List PMOD)) :
    modifiersOf (mods :: messages) = {m | m ∈ mods} ∪ modifiersOf messages := by
  ext m
  simp [modifiersOf]

/-- Messages are handled, with enough fuel, and the node is settled after each of
them. -/
theorem Settled.messages (hist : ParentHistory ops.chain parent) (ends : UpdatesEnd ops)
    {all : Finset PMOD} {maxSize : ℕ} (hinj : Set.InjOn ops.chain.id all)
    (hcard : all.card ≤ maxSize) (messages : List (List PMOD))
    {node : Node Id PMOD TX HIS MS VL MP} (hs : Settled ops parent present given maxSize node)
    (hsub : given ∪ modifiersOf messages ⊆ all) :
    ∃ fuel₀, ∀ fuel ≥ fuel₀, ∀ done rest, messages = done ++ rest →
      ∃ node', processMessages ops fuel node done = .value node'
        ∧ Settled ops parent present (given ∪ modifiersOf done) maxSize node' := by
  induction messages generalizing given node with
  | nil =>
    refine ⟨0, ?_⟩
    intro fuel _ done rest hsplit
    obtain ⟨rfl, _⟩ := List.append_eq_nil_iff.1 hsplit.symm
    refine ⟨node, rfl, ?_⟩
    have hset : given ∪ modifiersOf ([] : List (List PMOD)) = given := by simp [modifiersOf]
    rwa [hset]
  | cons mods messages ih =>
    rw [modifiersOf_cons, ← Set.union_assoc] at hsub
    obtain ⟨fuel₁, node₁, hprocess⟩ := processRemoteModifiers_ends hist ends node mods
    have hs₁ := hs.message hist hinj hcard (Set.subset_union_left.trans hsub)
      (hprocess fuel₁ le_rfl)
    obtain ⟨fuel₂, hrest⟩ := ih hs₁ hsub
    refine ⟨max fuel₁ fuel₂, ?_⟩
    intro fuel hge done rest hsplit
    cases done with
    | nil =>
      refine ⟨node, rfl, ?_⟩
      have hset : given ∪ modifiersOf ([] : List (List PMOD)) = given := by simp [modifiersOf]
      rwa [hset]
    | cons mods' done =>
      rw [List.cons_append, List.cons.injEq] at hsplit
      obtain ⟨rfl, hsplit⟩ := hsplit
      obtain ⟨node', hnode', hs'⟩ := hrest fuel (le_trans (le_max_right _ _) hge) done rest hsplit
      refine ⟨node', ?_, ?_⟩
      · rw [processMessages, hprocess fuel (le_trans (le_max_left _ _) hge)]
        exact hnode'
      · rwa [modifiersOf_cons, ← Set.union_assoc]

/-- In a settled node the contained ids are the closed ones. -/
theorem Settled.contains_iff (hist : ParentHistory ops.chain parent) {maxSize : ℕ}
    {node : Node Id PMOD TX HIS MS VL MP} (hs : Settled ops parent present given maxSize node)
    (i : Id) : ops.chain.contains node.holder.history i = true
      ↔ Closed ops.chain parent present given i := by
  constructor
  · exact hs.tracked.closed i
  · intro h
    induction h with
    | present h => exact hs.tracked.started _ h
    | @child m hm _ ih =>
      rcases hs.tracked.kept m hm with hin | hcached
      · exact hin
      · by_contra hnot
        rw [Bool.not_eq_true] at hnot
        exact hs.noneApplicable _ m hcached ((hist.applicable_iff _ _).2 ⟨ih, hnot⟩)

/-- **Arrival order does not matter.**  The modifiers of `all`, no more than the
cache may hold, come in any order, with repetitions, in any messages.  Then every
message is handled, after each of them no applicable modifier is left in the cache,
and after the last one the contained ids are those present at first, closed under
adding each modifier of `all` whose parent is there. -/
theorem contained_eq_closed (hist : ParentHistory ops.chain parent) (ends : UpdatesEnd ops)
    (all : Finset PMOD) (hinj : Set.InjOn ops.chain.id all) {maxSize : ℕ} (hmax : 1 ≤ maxSize)
    (hcard : all.card ≤ maxSize) (holder : Holder Id PMOD TX HIS MS VL MP)
    (messages : List (List PMOD)) (hall : ∀ m, m ∈ all ↔ ∃ mods ∈ messages, m ∈ mods) :
    ∃ fuel₀, ∀ fuel ≥ fuel₀,
      (∀ done rest, messages = done ++ rest →
        ∃ node, processMessages ops fuel ⟨.new maxSize hmax, holder⟩ done = .value node
          ∧ NoneApplicable ops node)
      ∧ ∃ node, processMessages ops fuel ⟨.new maxSize hmax, holder⟩ messages = .value node
        ∧ ∀ i, ops.chain.contains node.holder.history i = true
          ↔ Closed ops.chain parent (fun i => ops.chain.contains holder.history i = true)
            all i := by
  have hmods : modifiersOf messages = all := by
    ext m
    exact (hall m).symm
  have hstart : Settled ops parent (fun i => ops.chain.contains holder.history i = true) ∅ maxSize
      ⟨.new maxSize hmax, holder⟩ := by
    refine ⟨⟨fun _ h => h, fun _ h => .present h, ?_, fun _ h => absurd h (Set.notMem_empty _)⟩,
      ?_, rfl⟩
    · intro k v hv
      cases hv
    · intro k v hv
      cases hv
  obtain ⟨fuel₀, hrun⟩ := hstart.messages hist ends hinj hcard messages
    (by rw [Set.empty_union, hmods])
  refine ⟨fuel₀, fun fuel hge => ⟨?_, ?_⟩⟩
  · intro done rest hsplit
    obtain ⟨node, hnode, hs⟩ := hrun fuel hge done rest hsplit
    exact ⟨node, hnode, hs.noneApplicable⟩
  · obtain ⟨node, hnode, hs⟩ := hrun fuel hge messages [] (List.append_nil _).symm
    rw [Set.empty_union, hmods] at hs
    exact ⟨node, hnode, hs.contains_iff hist⟩

end

/-! ## Numbers in any order -/

theorem parentHistory_countingChain : ParentHistory countingChain (fun m => m - 1) where
  applicable_iff h m := by
    simp only [countingChain]
    split_ifs <;> simp_all
  parent_missing h m hparent hid := by
    refine ⟨.recoverableModifierError "parent is missing", ?_, rfl⟩
    simp only [countingChain] at hparent hid ⊢
    rw [if_neg (by rw [hid]; decide), if_neg (by rw [hparent]; decide)]
  already_contained h m hid _ := by
    refine ⟨.malformedModifierError "already in history", ?_, rfl⟩
    simp only [countingChain] at hid ⊢
    rw [if_pos hid]
  append_adds h m _ := by
    refine ⟨_, _, rfl, ?_⟩
    intro i
    simp [countingChain, or_comm]
  valid_keeps h m h' heq := by
    cases heq
    rfl
  invalid_keeps h m info h' info' heq := by
    cases heq
    rfl

/-- No block fails over `countingChain`. -/
theorem foldl_countingChain (history : List ℕ) (progressInfo : ProgressInfo ℕ ℕ) (mods : List ℕ)
    (info : UpdateInformation ℕ ℕ (List ℕ) Unit) (hinfo : info.failedMod = none)
    (events : List (UpdateEvent ℕ)) :
    ∃ info' events', info'.failedMod = none
      ∧ mods.foldl (applyStateStep countingChain history progressInfo) (.ok info, events)
        = (.ok info', events') := by
  induction mods generalizing info events with
  | nil => exact ⟨info, events, hinfo, rfl⟩
  | cons m mods ih =>
    rw [List.foldl_cons, applyStateStep]
    simp only [hinfo, Option.isNone_none, if_true, countingChain]
    exact ih _ rfl _

theorem rollbackTo_countingChain (s : Unit) (v : ℕ) :
    ∃ s', countingChain.rollbackTo s v = .ok s' :=
  ⟨(), rfl⟩

theorem updatesEnd_countingOps : UpdatesEnd countingOps where
  rollbackTo_ok := rollbackTo_countingChain
  rollback_ok v i := ⟨(), rfl⟩
  alternatives_end r := by
    refine ⟨r, fun next hnext => ?_⟩
    obtain ⟨s, suffix, hto⟩ := stateToApply_ok rollbackTo_countingChain r
    obtain ⟨info, events, hfailed, hfold⟩ := foldl_countingChain r.history r.progressInfo
      r.progressInfo.toApply ⟨r.history, s, none, none, suffix⟩ rfl []
    unfold updateRound at hnext
    simp only [show countingOps.chain = countingChain from rfl, hto, applyState, hfold, hfailed]
      at hnext
    cases hnext

/-- Blocks `1`, `2` and `3` come in the wrong order and twice: all are contained in
the end. -/
theorem three_blocks_arrive : ∃ fuel₀, ∀ fuel ≥ fuel₀,
    ∃ node, processMessages countingOps fuel ⟨.new 3 (by decide), ⟨[0], (), (), (), []⟩⟩
        [[3, 2], [1, 2]] = .value node
      ∧ countingChain.contains node.holder.history 3 = true := by
  obtain ⟨fuel₀, h⟩ := contained_eq_closed parentHistory_countingChain updatesEnd_countingOps
    {1, 2, 3} (fun a _ b _ h => h) (show 1 ≤ 3 by decide) (by decide) ⟨[0], (), (), (), []⟩
    [[3, 2], [1, 2]] (by intro m; simp; tauto)
  refine ⟨fuel₀, fun fuel hge => ?_⟩
  obtain ⟨_, node, hnode, hiff⟩ := h fuel hge
  refine ⟨node, hnode, (hiff 3).2 ?_⟩
  exact .child (m := 3) (by simp) (.child (m := 2) (by simp) (.child (m := 1) (by simp)
    (.present rfl)))

/-! ## Alternatives without end -/

theorem isSome_branchPoint (h : ([] : List ℕ) ≠ []) : (none : Option ℕ).isSome := absurd rfl h

/-- Apply one block to the state. -/
def applyOne (m : ℕ) : ProgressInfo ℕ ℕ := ⟨none, [], [m], isSome_branchPoint⟩

/-- The history of numbers, with a state that takes no block: the alternative to a block is the
block itself. -/
def refusingChain : ChainOps ℕ ℕ (List ℕ) Unit :=
  { countingChain with
    append := fun history m => .ok (m :: history, applyOne m)
    applyModifier := fun _ _ => .error (.malformedModifierError "refused") }

/-- The node view over `refusingChain`. -/
def refusingOps : NodeViewOps ℕ ℕ Unit (List ℕ) Unit Unit Unit :=
  { countingOps with chain := refusingChain }

theorem parentHistory_refusingChain : ParentHistory refusingChain (fun m => m - 1) where
  applicable_iff := parentHistory_countingChain.applicable_iff
  parent_missing := parentHistory_countingChain.parent_missing
  already_contained := parentHistory_countingChain.already_contained
  append_adds h m _ := by
    refine ⟨_, _, rfl, fun i => ?_⟩
    simp [refusingChain, countingChain, or_comm]
  valid_keeps := parentHistory_countingChain.valid_keeps
  invalid_keeps := parentHistory_countingChain.invalid_keeps

/-- Each round asks for the same one again. -/
theorem updateState_refusingChain (fuel : ℕ) (history : List ℕ) (m : ℕ) :
    updateState refusingChain fuel ⟨history, (), applyOne m, []⟩ = none := by
  induction fuel with
  | zero => rfl
  | succ fuel ih =>
    rw [updateState]
    show (updateState refusingChain fuel _).map _ = none
    rw [ih, Option.map_none]

/-- A block that can be applied comes, and its message is never handled. -/
theorem alternatives_without_end :
    ¬∀ (ops : NodeViewOps ℕ ℕ Unit (List ℕ) Unit Unit Unit) (parent : ℕ → ℕ),
      ParentHistory ops.chain parent →
      ∀ all : Finset ℕ, Set.InjOn ops.chain.id all → ∀ (maxSize : ℕ) (hmax : 1 ≤ maxSize),
      all.card ≤ maxSize → ∀ (holder : Holder ℕ ℕ Unit (List ℕ) Unit Unit Unit)
        (messages : List (List ℕ)), (∀ m, m ∈ all ↔ ∃ mods ∈ messages, m ∈ mods) →
      ∃ fuel node, processMessages ops fuel ⟨.new maxSize hmax, holder⟩ messages = .value node := by
  intro h
  obtain ⟨fuel, node, hnode⟩ := h refusingOps (fun m => m - 1) parentHistory_refusingChain {1}
    (fun a _ b _ h => h) 1 le_rfl (by decide) ⟨[0], (), (), (), []⟩ [[1]] (by simp)
  have hmod : pmodModify refusingOps fuel ⟨[0], (), (), (), []⟩ 1 = .outOfFuel := by
    have happend : refusingOps.chain.append [0] 1 = .ok ([1, 0], applyOne 1) := rfl
    have hround : updateState refusingOps.chain fuel ⟨[1, 0], (), applyOne 1, []⟩ = none :=
      updateState_refusingChain fuel [1, 0] 1
    have htoApply : (applyOne 1).toApply.isEmpty = false := rfl
    unfold pmodModify
    rw [if_neg (by decide)]
    simp only [Holder.publish, happend, htoApply, Bool.false_eq_true, if_false, hround]
  have hpop : ∃ c, (fill refusingOps ⟨.new 1 le_rfl, ⟨[0], (), (), (), []⟩⟩
      [1]).modifiersCache.popCandidate refusingOps.chain [0] = (some 1, c) := ⟨_, rfl⟩
  have hprocess : processRemoteModifiers refusingOps fuel
      ⟨.new 1 le_rfl, ⟨[0], (), (), (), []⟩⟩ [1] = .outOfFuel := by
    obtain ⟨c, hpop⟩ := hpop
    simp only [processRemoteModifiers, applyLoop, fill] at hpop ⊢
    simp only [hpop, hmod]
  rw [processMessages, hprocess] at hnode
  cases hnode

end Sparkz.NodeView
