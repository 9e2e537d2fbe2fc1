import Sparkz.NodeView.RemoteModifiers
import Sparkz.NodeView.UpdateState

/-!
# What the messages do to the node view

Everything that a message can do to the node view, said once: `Modifies` for a
persistent modifier, `Transacts` for a transaction, `Alters` for any of the changes
of which the handling of a message is made, `Leads` for runs of messages.  Facts
about whole runs are inductions over them.

* `Leads.changes` — **a run of messages is a run of changes**.
* `followed_current` — **the announcements tell the whole story**: a subscriber
  that keeps the component of the last announcement of each kind has exactly the
  components of the node view, after any run.
* `applied_once` — **no modifier is appended twice**: in a run with a history that
  forgets nothing, the modifiers announced as syntactically successful have
  pairwise distinct ids, and the history contains all of them.
-/

namespace Sparkz.NodeView

open Sparkz.Lib

variable {Id PMOD TX HIS MS VL MP : Type} [DecidableEq Id]

/-! ## What an update of the state reports -/

/-- What every round of a run keeps, given the round and the events published
before it, holds of the last round. -/
theorem updateState_run {ops : ChainOps Id PMOD HIS MS}
    {P : Round Id PMOD HIS MS → List (UpdateEvent PMOD) → Prop}
    (hstep : ∀ r next past events, P r past → updateRound ops r = (.inl next, events) →
      P next (past ++ events))
    {fuel : ℕ} {r : Round Id PMOD HIS MS} {result : UpdateResult PMOD HIS MS}
    {past events : List (UpdateEvent PMOD)} (hr : P r past)
    (hrun : updateState ops fuel r = some (result, events)) :
    ∃ last before lastEvents, P last before ∧ updateRound ops last = (.inr result, lastEvents)
      ∧ past ++ events = before ++ lastEvents := by
  induction fuel generalizing r past events with
  | zero => cases hrun
  | succ fuel ih =>
    rw [updateState] at hrun
    split at hrun
    · rename_i next events₁ hround
      obtain ⟨⟨result', events'⟩, hres, heq⟩ := Option.map_eq_some_iff.1 hrun
      cases heq
      obtain ⟨last, before, lastEvents, hlast, hresult, hevents⟩ :=
        ih (hstep r next past events₁ hr hround) hres
      exact ⟨last, before, lastEvents, hlast, hresult, by rw [← hevents, List.append_assoc]⟩
    · rename_i result' events₁ hround
      cases hrun
      exact ⟨r, past, _, hr, hround, rfl⟩

omit [DecidableEq Id] in
/-- The fold of `applyState`: each modifier that it adds to the suffix is announced,
and the history is the one it was given or a report made on it. -/
theorem foldl_applyStateStep_announced {ops : ChainOps Id PMOD HIS MS} {history : HIS}
    {progressInfo : ProgressInfo Id PMOD} {P : HIS → Prop} (hP : P history)
    (hvalid : ∀ h h' m, P h → ops.reportModifierIsValid h m = .ok h' → P h')
    (hinvalid : ∀ h h' m info info', P h →
      ops.reportModifierIsInvalid h m info = .ok (h', info') → P h')
    {mods : List PMOD} {h₀ : HIS} {s : MS} {suffix : List PMOD}
    {events events' : List (UpdateEvent PMOD)} {info : UpdateInformation Id PMOD HIS MS}
    (h₀P : P h₀)
    (h : mods.foldl (applyStateStep ops history progressInfo)
      (.ok ⟨h₀, s, none, none, suffix⟩, events) = (.ok info, events')) :
    P info.history ∧ (∀ e ∈ events, e ∈ events')
      ∧ ∀ m ∈ info.suffix, m ∈ suffix ∨ .semanticallySuccessfulModifier m ∈ events' := by
  induction mods generalizing h₀ s suffix events with
  | nil =>
    cases h
    exact ⟨h₀P, fun _ he => he, fun _ hm => .inl hm⟩
  | cons m mods ih =>
    rw [List.foldl_cons, applyStateStep] at h
    simp only [Option.isNone_none, if_true] at h
    split at h
    · split at h
      · rename_i newHis hreport
        obtain ⟨hhistory, hevents, hsuffix⟩ := ih (hvalid _ _ _ hP hreport) h
        refine ⟨hhistory, fun e he => hevents e (by simp [he]), ?_⟩
        intro m' hm'
        rcases hsuffix m' hm' with hm' | hm'
        · rcases List.mem_append.1 hm' with hm' | hm'
          · exact .inl hm'
          · rw [List.mem_singleton.1 hm']
            exact .inr (hevents _ (by simp))
        · exact .inr hm'
      · rw [foldl_applyStateStep_error] at h
        cases h
    · split at h
      · rename_i newHis newProgressInfo hreport
        rw [foldl_applyStateStep_failed _ _ _ rfl] at h
        cases h
        exact ⟨hinvalid _ _ _ _ _ hP hreport, fun e he => by simp [he], fun _ hm => .inl hm⟩
      · rw [foldl_applyStateStep_error] at h
        cases h

/-- The first half of a round only shortens the suffix. -/
theorem mem_of_mem_stateToApply {ops : ChainOps Id PMOD HIS MS} {r : Round Id PMOD HIS MS}
    {m : PMOD} (h : m ∈ (stateToApply ops r).2) : m ∈ r.suffixApplied := by
  have htrim : ∀ point, m ∈ trimChainSuffix ops r.suffixApplied point → m ∈ r.suffixApplied := by
    intro point hm
    unfold trimChainSuffix at hm
    split at hm
    · cases hm
    · exact List.mem_of_mem_drop hm
  unfold stateToApply at h
  split at h
  · split at h
    · exact h
    · split at h
      · exact htrim _ h
      · cases h
  · exact h

/-- A property of histories that the round has, with the suffix announced. -/
structure Announced (P : HIS → Prop) (r : Round Id PMOD HIS MS) (past : List (UpdateEvent PMOD)) :
    Prop where
  history : P r.history
  suffix : ∀ m ∈ r.suffixApplied, .semanticallySuccessfulModifier m ∈ past

/-- One round keeps both, and its result has them. -/
theorem Announced.round {ops : ChainOps Id PMOD HIS MS} {P : HIS → Prop}
    (hvalid : ∀ h h' m, P h → ops.reportModifierIsValid h m = .ok h' → P h')
    (hinvalid : ∀ h h' m info info', P h →
      ops.reportModifierIsInvalid h m info = .ok (h', info') → P h')
    {r : Round Id PMOD HIS MS} {past events : List (UpdateEvent PMOD)} (hr : Announced P r past)
    {outcome : Round Id PMOD HIS MS ⊕ UpdateResult PMOD HIS MS}
    (h : updateRound ops r = (outcome, events)) :
    (∀ next, outcome = .inl next → Announced P next (past ++ events))
    ∧ ∀ newHistory state suffix, outcome = .inr (.returned newHistory state suffix) →
        P newHistory ∧ ∀ m ∈ suffix, .semanticallySuccessfulModifier m ∈ past ++ events := by
  have htrimmed : ∀ m ∈ (stateToApply ops r).2, .semanticallySuccessfulModifier m ∈ past :=
    fun m hm => hr.suffix m (mem_of_mem_stateToApply hm)
  unfold updateRound at h
  split at h
  · rename_i state suffixTrimmed hto
    rw [hto] at htrimmed
    split at h
    · rename_i info events' happly
      obtain ⟨hhistory, _, hsuffix⟩ :=
        foldl_applyStateStep_announced hr.history hvalid hinvalid hr.history happly
      have hannounced : ∀ m ∈ info.suffix, .semanticallySuccessfulModifier m ∈ past ++ events' := by
        intro m hm
        rcases hsuffix m hm with hm | hm
        · exact List.mem_append_left _ (htrimmed m hm)
        · exact List.mem_append_right _ hm
      split at h <;> cases h
      · refine ⟨?_, fun _ _ _ h => (by cases h)⟩
        rintro next ⟨⟩
        exact ⟨hhistory, hannounced⟩
      · exact ⟨fun _ h => (by cases h), fun _ _ _ h => (by cases h)⟩
      · refine ⟨fun _ h => (by cases h), ?_⟩
        rintro _ _ _ ⟨⟩
        exact ⟨hhistory, hannounced⟩
    · cases h
      refine ⟨fun _ h => (by cases h), ?_⟩
      rintro _ _ _ ⟨⟩
      exact ⟨hr.history, fun m hm => List.mem_append_left _ (htrimmed m hm)⟩
  · cases h
    exact ⟨fun _ h => (by cases h), fun _ _ _ h => (by cases h)⟩

/-- What `updateState` returns: each of the modifiers was announced as semantically
successful, and the history has what reports keep. -/
theorem updateState_announced {ops : ChainOps Id PMOD HIS MS} {P : HIS → Prop}
    (hvalid : ∀ h h' m, P h → ops.reportModifierIsValid h m = .ok h' → P h')
    (hinvalid : ∀ h h' m info info', P h →
      ops.reportModifierIsInvalid h m info = .ok (h', info') → P h')
    {fuel : ℕ} {history newHistory : HIS} {s : MS} {newState : Except Throwable MS}
    {progressInfo : ProgressInfo Id PMOD} {blocksApplied : List PMOD}
    {events : List (UpdateEvent PMOD)} (hP : P history)
    (h : updateState ops fuel ⟨history, s, progressInfo, []⟩
      = some (.returned newHistory newState blocksApplied, events)) :
    P newHistory ∧ ∀ m ∈ blocksApplied, .semanticallySuccessfulModifier m ∈ events := by
  have hfirst : Announced P (⟨history, s, progressInfo, []⟩ : Round Id PMOD HIS MS) [] :=
    ⟨hP, fun _ hm => (by cases hm)⟩
  obtain ⟨last, before, lastEvents, hlast, hround, hevents⟩ :=
    updateState_run (P := Announced P)
      (fun _ next _ _ hr hround => (hr.round hvalid hinvalid hround).1 next rfl) hfirst h
  obtain ⟨hnew, hblocks⟩ := (hlast.round hvalid hinvalid hround).2 _ _ _ rfl
  rw [← hevents] at hblocks
  exact ⟨hnew, hblocks⟩

/-! ## One modifier -/

/-- The announcements made before the state is updated, when the history took the
modifier. -/
def appended (ops : NodeViewOps Id PMOD TX HIS MS VL MP) (pmod : PMOD) (history : HIS) :
    List (Event Id PMOD TX HIS MS VL MP) :=
  [.startingPersistentModifierApplication pmod, .syntacticallySuccessfulModifier pmod,
    .newOpenSurface (ops.chain.openSurfaceIds history)]

/-- What `pmodModify` can make of a node view. -/
inductive Modifies (ops : NodeViewOps Id PMOD TX HIS MS VL MP)
    (h : Holder Id PMOD TX HIS MS VL MP) (pmod : PMOD) : Holder Id PMOD TX HIS MS VL MP → Prop where
  | known : ops.chain.contains h.history (ops.chain.id pmod) = true → Modifies ops h pmod h
  | rejected {e : Throwable} : ops.chain.contains h.history (ops.chain.id pmod) = false →
      ops.chain.append h.history pmod = .error e →
      Modifies ops h pmod (h.publish [.startingPersistentModifierApplication pmod,
        .syntacticallyFailedModification pmod e])
  | extended {history : HIS} {info : ProgressInfo Id PMOD} :
      ops.chain.contains h.history (ops.chain.id pmod) = false →
      ops.chain.append h.history pmod = .ok (history, info) →
      Modifies ops h pmod (updateNodeView (h.publish (appended ops pmod history)) (some history)
        none none none)
  | updated {history newHistory : HIS} {info : ProgressInfo Id PMOD} {fuel : ℕ} {newState : MS}
      {blocksApplied : List PMOD} {events : List (UpdateEvent PMOD)} {newVault : VL} :
      ops.chain.contains h.history (ops.chain.id pmod) = false →
      ops.chain.append h.history pmod = .ok (history, info) →
      updateState ops.chain fuel ⟨history, h.minimalState, info, []⟩
        = some (.returned newHistory (.ok newState) blocksApplied, events) →
      Modifies ops h pmod (updateNodeView
        (h.publish (appended ops pmod history ++ events.map .update)) (some newHistory)
        (some newState) (some newVault)
        (some (updateMemPool ops info.toRemove blocksApplied h.memoryPool newState)))
  | notUpdated {history newHistory : HIS} {info : ProgressInfo Id PMOD} {fuel : ℕ} {e : Throwable}
      {blocksApplied : List PMOD} {events : List (UpdateEvent PMOD)} :
      ops.chain.contains h.history (ops.chain.id pmod) = false →
      ops.chain.append h.history pmod = .ok (history, info) →
      updateState ops.chain fuel ⟨history, h.minimalState, info, []⟩
        = some (.returned newHistory (.error e) blocksApplied, events) →
      Modifies ops h pmod (updateNodeView
        (h.publish (appended ops pmod history ++ events.map .update)) (some newHistory)
        none none none)

omit [DecidableEq Id] in
theorem publish_publish (h : Holder Id PMOD TX HIS MS VL MP)
    (events events' : List (Event Id PMOD TX HIS MS VL MP)) :
    (h.publish events).publish events' = h.publish (events ++ events') := by
  simp [Holder.publish]

/-- `pmodModify` does one of these. -/
theorem pmodModify_modifies {ops : NodeViewOps Id PMOD TX HIS MS VL MP} {fuel : ℕ}
    {h h' : Holder Id PMOD TX HIS MS VL MP} {pmod : PMOD}
    (hrun : pmodModify ops fuel h pmod = .value h') : Modifies ops h pmod h' := by
  unfold pmodModify at hrun
  split at hrun
  · rename_i hknown
    cases hrun
    exact .known hknown
  · rename_i hnew
    have hnew' : ops.chain.contains h.history (ops.chain.id pmod) = false := by simpa using hnew
    simp only [publish_publish] at hrun
    split at hrun
    · rename_i e happend
      cases hrun
      exact .rejected hnew' happend
    · rename_i history info happend
      split at hrun
      · cases hrun
        exact .extended hnew' happend
      · split at hrun
        · cases hrun
        · cases hrun
        · rename_i hupdate
          split at hrun
          · cases hrun
          · cases hrun
            exact .updated hnew' happend hupdate
        · rename_i hupdate
          cases hrun
          exact .notUpdated hnew' happend hupdate

/-! ## One transaction -/

/-- What `txModify` can make of a node view. -/
inductive Transacts (ops : NodeViewOps Id PMOD TX HIS MS VL MP)
    (h : Holder Id PMOD TX HIS MS VL MP) (tx : TX) : Holder Id PMOD TX HIS MS VL MP → Prop where
  | pooled {newPool : MP} : isValid ops h.minimalState tx = true →
      ops.mempool.put h.memoryPool tx = .ok newPool →
      Transacts ops h tx ((updateNodeView h none none (some (ops.vault.scanOffchain h.vault tx))
        (some newPool)).publish [.successfulTransaction tx])
  | failed (e : Throwable) :
      Transacts ops h tx (h.publish [.failedTransaction (ops.mempool.txId tx) e true])

omit [DecidableEq Id] in
/-- `txModify` does one of these. -/
theorem txModify_transacts (ops : NodeViewOps Id PMOD TX HIS MS VL MP)
    (h : Holder Id PMOD TX HIS MS VL MP) (tx : TX) : Transacts ops h tx (txModify ops h tx) := by
  unfold txModify
  cases hv : ops.mempool.validate with
  | none =>
    simp only
    split
    · exact .pooled (by simp [isValid, hv]) ‹_›
    · exact .failed _
  | some validate =>
    cases hr : validate h.minimalState tx with
    | ok u =>
      simp only [hr]
      split
      · exact .pooled (by simp [isValid, hv, hr, Except.isOk, Except.toBool]) ‹_›
      · exact .failed _
    | error e =>
      simp only [hr]
      exact .failed e

/-! ## One message, and runs of messages -/

/-- The node view after an `EliminateTransactions`. -/
def eliminate (ops : NodeViewOps Id PMOD TX HIS MS VL MP) (h : Holder Id PMOD TX HIS MS VL MP)
    (ids : List Id) : Holder Id PMOD TX HIS MS VL MP :=
  (updateNodeView h none none none (some (ops.mempool.filter h.memoryPool fun tx =>
    !ids.contains (ops.mempool.txId tx)))).publish
      (ids.map fun id => Event.failedTransaction id (.other "Became invalid") false)

/-- The changes of the node view of which the handling of every message is made. -/
inductive Alters (ops : NodeViewOps Id PMOD TX HIS MS VL MP)
    (h : Holder Id PMOD TX HIS MS VL MP) : Holder Id PMOD TX HIS MS VL MP → Prop where
  | modified {pmod : PMOD} {h' : Holder Id PMOD TX HIS MS VL MP} :
      Modifies ops h pmod h' → Alters ops h h'
  | transacted {tx : TX} {h' : Holder Id PMOD TX HIS MS VL MP} :
      ops.mempool.handlingTransactionsEnabled = true → Transacts ops h tx h' → Alters ops h h'
  | eliminated (ids : List Id) : Alters ops h (eliminate ops h ids)
  | refused (txs : List TX) :
      Alters ops h (h.publish (txs.map fun tx => Event.failedTransaction (ops.mempool.txId tx)
        (.other "Transactions handling disabled") false))
  | processed (applied cleared : List PMOD) :
      Alters ops h (h.publish [.modifiersProcessingResult applied cleared])

/-- Changes, one after the other. -/
abbrev Changes (ops : NodeViewOps Id PMOD TX HIS MS VL MP) :
    Holder Id PMOD TX HIS MS VL MP → Holder Id PMOD TX HIS MS VL MP → Prop :=
  Relation.ReflTransGen (Alters ops)

/-- A run of messages, each handled without an exception, leads from one node to
another. -/
def Leads (ops : NodeViewOps Id PMOD TX HIS MS VL MP) :
    Node Id PMOD TX HIS MS VL MP → Node Id PMOD TX HIS MS VL MP → Prop :=
  Relation.ReflTransGen fun node node' =>
    ∃ fuel message, receive ops fuel node message = .value node'

theorem Loops.changes {ops : NodeViewOps Id PMOD TX HIS MS VL MP} {fuel : ℕ}
    {node looped : Node Id PMOD TX HIS MS VL MP} {mods : List PMOD}
    (h : Loops ops fuel node looped mods) : Changes ops node.holder looped.holder := by
  induction h with
  | done _ => exact .refl
  | more _ hmod _ ih => exact .head (.modified (pmodModify_modifies hmod)) ih

theorem changes_foldl_txModify {ops : NodeViewOps Id PMOD TX HIS MS VL MP}
    (henabled : ops.mempool.handlingTransactionsEnabled = true) (txs : List TX)
    (h : Holder Id PMOD TX HIS MS VL MP) : Changes ops h (txs.foldl (txModify ops) h) := by
  induction txs generalizing h with
  | nil => exact .refl
  | cons tx txs ih => exact .head (.transacted henabled (txModify_transacts ops h tx)) (ih _)

/-- The handling of a message is made of changes. -/
theorem receive_changes {ops : NodeViewOps Id PMOD TX HIS MS VL MP} {fuel : ℕ}
    {node node' : Node Id PMOD TX HIS MS VL MP} {message : Message Id PMOD TX}
    (h : receive ops fuel node message = .value node') : Changes ops node.holder node'.holder := by
  cases message with
  | modifiersFromRemote mods =>
    obtain ⟨looped, applied, hloops, rfl⟩ := processRemoteModifiers_value h
    have hloop : Changes ops node.holder looped.holder := hloops.changes
    exact hloop.tail (.processed applied _)
  | locallyGeneratedModifier pmod =>
    simp only [receive] at h
    split at h <;> cases h
    rename_i hmod
    exact .single (.modified (pmodModify_modifies hmod))
  | newTransactions txs =>
    simp only [receive] at h
    split at h <;> cases h
    · rename_i henabled
      exact changes_foldl_txModify henabled txs _
    · exact .single (.refused txs)
  | eliminateTransactions ids =>
    cases h
    exact .single (.eliminated ids)

/-- **A run of messages is a run of changes** of the node view. -/
theorem Leads.changes {ops : NodeViewOps Id PMOD TX HIS MS VL MP}
    {node node' : Node Id PMOD TX HIS MS VL MP} (h : Leads ops node node') :
    Changes ops node.holder node'.holder := by
  induction h with
  | refl => exact .refl
  | tail _ hstep ih =>
    obtain ⟨fuel, message, hreceive⟩ := hstep
    exact ih.trans (receive_changes hreceive)

/-- What every change keeps is kept by any number of them. -/
theorem Changes.invariant {ops : NodeViewOps Id PMOD TX HIS MS VL MP}
    {P : Holder Id PMOD TX HIS MS VL MP → Prop}
    (hkept : ∀ h h', P h → Alters ops h h' → P h')
    {h h' : Holder Id PMOD TX HIS MS VL MP} (hchanges : Changes ops h h') (hP : P h) : P h' := by
  induction hchanges with
  | refl => exact hP
  | tail _ halters ih => exact hkept _ _ ih halters

/-! ## A subscriber to the announcements -/

/-- The components that a subscriber was told of last. -/
structure Followed (HIS MS VL MP : Type) where
  history : HIS
  minimalState : MS
  vault : VL
  memoryPool : MP

namespace Followed

/-- The subscriber hears an event. -/
def hear (f : Followed HIS MS VL MP) : Event Id PMOD TX HIS MS VL MP → Followed HIS MS VL MP
  | .changedHistory history => { f with history := history }
  | .changedState state => { f with minimalState := state }
  | .changedVault vault => { f with vault := vault }
  | .changedMempool mempool => { f with memoryPool := mempool }
  | _ => f

/-- A subscriber who knows the components of a node view. -/
def current (h : Holder Id PMOD TX HIS MS VL MP) : Followed HIS MS VL MP :=
  ⟨h.history, h.minimalState, h.vault, h.memoryPool⟩

section

omit [DecidableEq Id]

theorem foldl_hear_update (f : Followed HIS MS VL MP) (events : List (UpdateEvent PMOD)) :
    (events.map (.update : _ → Event Id PMOD TX HIS MS VL MP)).foldl hear f = f := by
  induction events with
  | nil => rfl
  | cons e events ih => exact ih

theorem foldl_hear_failed {α : Type} (f : Followed HIS MS VL MP) (l : List α) (id : α → Id)
    (e : Throwable) (now : Bool) :
    (l.map fun a => (Event.failedTransaction (id a) e now : Event Id PMOD TX HIS MS VL MP)).foldl
      hear f = f := by
  induction l with
  | nil => rfl
  | cons a l ih => exact ih

end

end Followed

/-- The announcements of `updateNodeView`. -/
def replaced (history : Option HIS) (state : Option MS) (vault : Option VL) (mempool : Option MP) :
    List (Event Id PMOD TX HIS MS VL MP) :=
  (history.map Event.changedHistory).toList ++ (state.map Event.changedState).toList
    ++ (vault.map Event.changedVault).toList ++ (mempool.map Event.changedMempool).toList

omit [DecidableEq Id] in
theorem published_updateNodeView (h : Holder Id PMOD TX HIS MS VL MP) (history : Option HIS)
    (state : Option MS) (vault : Option VL) (mempool : Option MP) :
    (updateNodeView h history state vault mempool).published
      = h.published ++ replaced history state vault mempool := by
  simp [updateNodeView, replaced]

/-- From `h` to `h'` events were published, and who hears them is taken from the
components of `h` to those of `h'`. -/
def Tells (h h' : Holder Id PMOD TX HIS MS VL MP) (events : List (Event Id PMOD TX HIS MS VL MP)) :
    Prop :=
  h'.published = h.published ++ events ∧ events.foldl Followed.hear (.current h) = .current h'

section

omit [DecidableEq Id]

theorem Tells.trans {h₁ h₂ h₃ : Holder Id PMOD TX HIS MS VL MP}
    {events events' : List (Event Id PMOD TX HIS MS VL MP)} (h : Tells h₁ h₂ events)
    (h' : Tells h₂ h₃ events') : Tells h₁ h₃ (events ++ events') := by
  refine ⟨by rw [h'.1, h.1, List.append_assoc], ?_⟩
  rw [List.foldl_append, h.2]
  exact h'.2

theorem Tells.publish (h : Holder Id PMOD TX HIS MS VL MP)
    {events : List (Event Id PMOD TX HIS MS VL MP)}
    (hsilent : ∀ f : Followed HIS MS VL MP, events.foldl Followed.hear f = f) :
    Tells h (h.publish events) events :=
  ⟨rfl, hsilent _⟩

/-- Each replaced component is announced. -/
theorem Tells.updateNodeView (h : Holder Id PMOD TX HIS MS VL MP) (history : Option HIS)
    (state : Option MS) (vault : Option VL) (mempool : Option MP) :
    Tells h (updateNodeView h history state vault mempool)
      (replaced history state vault mempool) := by
  refine ⟨published_updateNodeView h history state vault mempool, ?_⟩
  cases history <;> cases state <;> cases vault <;> cases mempool <;> rfl

theorem tells_appended (ops : NodeViewOps Id PMOD TX HIS MS VL MP)
    (h : Holder Id PMOD TX HIS MS VL MP) (pmod : PMOD) (history : HIS)
    (events : List (UpdateEvent PMOD)) :
    Tells h (h.publish (appended ops pmod history ++ events.map .update))
      (appended ops pmod history ++ events.map .update) := by
  apply Tells.publish
  intro f
  rw [List.foldl_append, Followed.foldl_hear_update]
  rfl

end

/-- One change is told. -/
theorem Alters.tells {ops : NodeViewOps Id PMOD TX HIS MS VL MP}
    {h h' : Holder Id PMOD TX HIS MS VL MP} (halters : Alters ops h h') :
    ∃ events, Tells h h' events := by
  cases halters with
  | @modified pmod _ hmod =>
    cases hmod with
    | known _ => exact ⟨[], by simp [Tells]⟩
    | rejected _ _ => exact ⟨_, .publish h fun _ => rfl⟩
    | @extended history _ _ _ =>
      have hpublished := tells_appended ops h pmod history []
      simp only [List.map_nil, List.append_nil] at hpublished
      exact ⟨_, hpublished.trans (.updateNodeView _ _ _ _ _)⟩
    | updated _ _ _ => exact ⟨_, (tells_appended ops h _ _ _).trans (.updateNodeView _ _ _ _ _)⟩
    | notUpdated _ _ _ => exact ⟨_, (tells_appended ops h _ _ _).trans (.updateNodeView _ _ _ _ _)⟩
  | transacted _ htransacts =>
    cases htransacts with
    | pooled _ _ =>
      exact ⟨_, (Tells.updateNodeView h none none _ _).trans (.publish _ fun _ => rfl)⟩
    | failed e => exact ⟨_, .publish h fun _ => rfl⟩
  | eliminated ids =>
    exact ⟨_, (Tells.updateNodeView h none none none _).trans
      (.publish _ fun f => Followed.foldl_hear_failed f ids _ _ _)⟩
  | refused txs => exact ⟨_, .publish h fun f => Followed.foldl_hear_failed f txs _ _ _⟩
  | processed applied cleared => exact ⟨_, .publish h fun _ => rfl⟩

theorem Changes.tells {ops : NodeViewOps Id PMOD TX HIS MS VL MP}
    {h h' : Holder Id PMOD TX HIS MS VL MP} (hchanges : Changes ops h h') :
    ∃ events, Tells h h' events := by
  induction hchanges with
  | refl => exact ⟨[], by simp [Tells]⟩
  | tail _ halters ih =>
    obtain ⟨events, hevents⟩ := ih
    obtain ⟨events', hevents'⟩ := halters.tells
    exact ⟨_, hevents.trans hevents'⟩

/-- **The announcements tell the whole story**: what a run of messages publishes
takes a subscriber from the components before it to those after it. -/
theorem followed_current {ops : NodeViewOps Id PMOD TX HIS MS VL MP}
    {node node' : Node Id PMOD TX HIS MS VL MP} (h : Leads ops node node') :
    ∃ events, node'.holder.published = node.holder.published ++ events
      ∧ events.foldl Followed.hear (.current node.holder) = .current node'.holder :=
  h.changes.tells

/-! ## No modifier twice -/

/-- A history that contains what is appended to it and forgets nothing. -/
structure Remembers (ops : ChainOps Id PMOD HIS MS) : Prop where
  appended : ∀ h m h' info, ops.append h m = .ok (h', info) → ops.contains h' (ops.id m) = true
  append : ∀ h m h' info, ops.append h m = .ok (h', info) →
    ∀ k, ops.contains h k = true → ops.contains h' k = true
  reportModifierIsValid : ∀ h m h', ops.reportModifierIsValid h m = .ok h' →
    ∀ k, ops.contains h k = true → ops.contains h' k = true
  reportModifierIsInvalid : ∀ h m info h' info',
    ops.reportModifierIsInvalid h m info = .ok (h', info') →
    ∀ k, ops.contains h k = true → ops.contains h' k = true

/-- The ids of the modifiers that events announce as syntactically successful. -/
def successfulIds (ops : NodeViewOps Id PMOD TX HIS MS VL MP)
    (events : List (Event Id PMOD TX HIS MS VL MP)) : List Id :=
  events.filterMap fun
    | .syntacticallySuccessfulModifier pmod => some (ops.chain.id pmod)
    | _ => none

section

omit [DecidableEq Id]

@[simp] theorem successfulIds_append (ops : NodeViewOps Id PMOD TX HIS MS VL MP)
    (events events' : List (Event Id PMOD TX HIS MS VL MP)) :
    successfulIds ops (events ++ events')
      = successfulIds ops events ++ successfulIds ops events' := by
  simp [successfulIds]

@[simp] theorem successfulIds_update (ops : NodeViewOps Id PMOD TX HIS MS VL MP)
    (events : List (UpdateEvent PMOD)) : successfulIds ops (events.map .update) = [] := by
  simp [successfulIds]

@[simp] theorem successfulIds_failed {α : Type} (ops : NodeViewOps Id PMOD TX HIS MS VL MP)
    (l : List α) (id : α → Id) (e : Throwable) (now : Bool) :
    successfulIds ops (l.map fun a => Event.failedTransaction (id a) e now) = [] := by
  simp [successfulIds]

@[simp] theorem successfulIds_replaced (ops : NodeViewOps Id PMOD TX HIS MS VL MP)
    (history : Option HIS) (state : Option MS) (vault : Option VL) (mempool : Option MP) :
    successfulIds ops (replaced history state vault mempool) = [] := by
  cases history <;> cases state <;> cases vault <;> cases mempool <;> rfl

@[simp] theorem successfulIds_appended (ops : NodeViewOps Id PMOD TX HIS MS VL MP) (pmod : PMOD)
    (history : HIS) : successfulIds ops (appended ops pmod history) = [ops.chain.id pmod] := rfl

end

/-- From `h` to `h'` the history forgot nothing, and the modifiers announced as
successful are different ones, new to the history of `h` and known to that of `h'`. -/
structure Once (ops : NodeViewOps Id PMOD TX HIS MS VL MP) (h h' : Holder Id PMOD TX HIS MS VL MP)
    (events : List (Event Id PMOD TX HIS MS VL MP)) : Prop where
  published : h'.published = h.published ++ events
  remembered : ∀ k, ops.chain.contains h.history k = true → ops.chain.contains h'.history k = true
  nodup : (successfulIds ops events).Nodup
  new : ∀ k ∈ successfulIds ops events, ops.chain.contains h.history k = false
  known : ∀ k ∈ successfulIds ops events, ops.chain.contains h'.history k = true

omit [DecidableEq Id] in
theorem Once.trans {ops : NodeViewOps Id PMOD TX HIS MS VL MP}
    {h₁ h₂ h₃ : Holder Id PMOD TX HIS MS VL MP}
    {events events' : List (Event Id PMOD TX HIS MS VL MP)} (h : Once ops h₁ h₂ events)
    (h' : Once ops h₂ h₃ events') :
    Once ops h₁ h₃ (events ++ events') where
  published := by rw [h'.published, h.published, List.append_assoc]
  remembered k hk := h'.remembered k (h.remembered k hk)
  nodup := by
    rw [successfulIds_append]
    refine h.nodup.append h'.nodup ?_
    -- what the first events announce is known when the second ones are made
    intro k hk hk'
    have hknown := h.known k hk
    rw [h'.new k hk'] at hknown
    cases hknown
  new k hk := by
    rw [successfulIds_append] at hk
    rcases List.mem_append.1 hk with hk | hk
    · exact h.new k hk
    · by_contra hold
      have hknown := h.remembered k (by simpa using hold)
      rw [h'.new k hk] at hknown
      cases hknown
  known k hk := by
    rw [successfulIds_append] at hk
    rcases List.mem_append.1 hk with hk | hk
    · exact h'.remembered k (h.known k hk)
    · exact h'.known k hk

omit [DecidableEq Id] in
/-- Announcements of nothing new, over the same history. -/
theorem Once.silent {ops : NodeViewOps Id PMOD TX HIS MS VL MP}
    {h h' : Holder Id PMOD TX HIS MS VL MP} {events : List (Event Id PMOD TX HIS MS VL MP)}
    (hhistory : h'.history = h.history) (hpublished : h'.published = h.published ++ events)
    (hsilent : successfulIds ops events = []) : Once ops h h' events where
  published := hpublished
  remembered k hk := by rw [hhistory]; exact hk
  nodup := by rw [hsilent]; exact List.nodup_nil
  new := by simp [hsilent]
  known := by simp [hsilent]

omit [DecidableEq Id] in
theorem Once.replaced {ops : NodeViewOps Id PMOD TX HIS MS VL MP}
    (h : Holder Id PMOD TX HIS MS VL MP) (state : Option MS) (vault : Option VL)
    (mempool : Option MP) : Once ops h (updateNodeView h none state vault mempool)
      (NodeView.replaced none state vault mempool) :=
  .silent rfl (published_updateNodeView h none state vault mempool) (by simp)

omit [DecidableEq Id] in
/-- A modifier that the history took, and that it did not contain. -/
theorem Once.one {ops : NodeViewOps Id PMOD TX HIS MS VL MP}
    {h h' : Holder Id PMOD TX HIS MS VL MP} {pmod : PMOD}
    {events : List (Event Id PMOD TX HIS MS VL MP)}
    (hnew : ops.chain.contains h.history (ops.chain.id pmod) = false)
    (hpublished : h'.published = h.published ++ events)
    (hids : successfulIds ops events = [ops.chain.id pmod])
    (hremembered : ∀ k, ops.chain.contains h.history k = true →
      ops.chain.contains h'.history k = true)
    (hknown : ops.chain.contains h'.history (ops.chain.id pmod) = true) : Once ops h h' events where
  published := hpublished
  remembered := hremembered
  nodup := by rw [hids]; exact List.nodup_singleton _
  new := by simpa [hids] using hnew
  known := by simpa [hids] using hknown

theorem Modifies.once {ops : NodeViewOps Id PMOD TX HIS MS VL MP} (laws : Remembers ops.chain)
    {h h' : Holder Id PMOD TX HIS MS VL MP} {pmod : PMOD} (hmod : Modifies ops h pmod h') :
    ∃ events, Once ops h h' events := by
  -- whatever the reports made of the history, it has what it had after `append`
  have hreports : ∀ {history newHistory : HIS} {info : ProgressInfo Id PMOD} {fuel : ℕ}
      {newState : Except Throwable MS} {blocksApplied : List PMOD}
      {events : List (UpdateEvent PMOD)},
      updateState ops.chain fuel ⟨history, h.minimalState, info, []⟩
        = some (.returned newHistory newState blocksApplied, events) →
      ∀ k, ops.chain.contains history k = true → ops.chain.contains newHistory k = true := by
    intro history newHistory info fuel newState blocksApplied events hupdate
    apply (updateState_announced (P := fun his => ∀ k, ops.chain.contains history k = true →
      ops.chain.contains his k = true) ?_ ?_ (fun _ hk => hk) hupdate).1
    · intro his his' m hhis hreport k hk
      exact laws.reportModifierIsValid _ _ _ hreport k (hhis k hk)
    · intro his his' m info info' hhis hreport k hk
      exact laws.reportModifierIsInvalid _ _ _ _ _ hreport k (hhis k hk)
  cases hmod with
  | known _ => exact ⟨[], .silent rfl (by simp) rfl⟩
  | rejected _ _ => exact ⟨_, .silent rfl rfl rfl⟩
  | extended hnew happend =>
    exact ⟨_, .one hnew ((published_updateNodeView _ _ _ _ _).trans (List.append_assoc _ _ _))
      (by simp) (laws.append _ _ _ _ happend) (laws.appended _ _ _ _ happend)⟩
  | updated hnew happend hupdate =>
    exact ⟨_, .one hnew ((published_updateNodeView _ _ _ _ _).trans (List.append_assoc _ _ _))
      (by simp) (fun k hk => hreports hupdate k (laws.append _ _ _ _ happend k hk))
      (hreports hupdate _ (laws.appended _ _ _ _ happend))⟩
  | notUpdated hnew happend hupdate =>
    exact ⟨_, .one hnew ((published_updateNodeView _ _ _ _ _).trans (List.append_assoc _ _ _))
      (by simp) (fun k hk => hreports hupdate k (laws.append _ _ _ _ happend k hk))
      (hreports hupdate _ (laws.appended _ _ _ _ happend))⟩

theorem Alters.once {ops : NodeViewOps Id PMOD TX HIS MS VL MP} (laws : Remembers ops.chain)
    {h h' : Holder Id PMOD TX HIS MS VL MP} (halters : Alters ops h h') :
    ∃ events, Once ops h h' events := by
  cases halters with
  | modified hmod => exact hmod.once laws
  | transacted _ htransacts =>
    cases htransacts with
    | pooled _ _ => exact ⟨_, (Once.replaced h none _ _).trans (.silent rfl rfl rfl)⟩
    | failed e => exact ⟨_, .silent rfl rfl rfl⟩
  | eliminated ids =>
    exact ⟨_, (Once.replaced h none none _).trans
      (.silent rfl rfl (successfulIds_failed _ _ _ _ _))⟩
  | refused txs => exact ⟨_, .silent rfl rfl (successfulIds_failed _ _ _ _ _)⟩
  | processed applied cleared => exact ⟨_, .silent rfl rfl rfl⟩

theorem Changes.once {ops : NodeViewOps Id PMOD TX HIS MS VL MP} (laws : Remembers ops.chain)
    {h h' : Holder Id PMOD TX HIS MS VL MP} (hchanges : Changes ops h h') :
    ∃ events, Once ops h h' events := by
  induction hchanges with
  | refl => exact ⟨[], .silent rfl (by simp) rfl⟩
  | tail _ halters ih =>
    obtain ⟨events, hevents⟩ := ih
    obtain ⟨events', hevents'⟩ := halters.once laws
    exact ⟨_, hevents.trans hevents'⟩

/-- **No modifier is appended twice**, in any run of messages with a history that
forgets nothing: the modifiers that the run announces as syntactically successful
are different ones, none of them was contained before the run, and all of them are
contained after it. -/
theorem applied_once {ops : NodeViewOps Id PMOD TX HIS MS VL MP} (laws : Remembers ops.chain)
    {node node' : Node Id PMOD TX HIS MS VL MP} (h : Leads ops node node') :
    ∃ events, node'.holder.published = node.holder.published ++ events
      ∧ (successfulIds ops events).Nodup
      ∧ ∀ k ∈ successfulIds ops events, ops.chain.contains node.holder.history k = false
          ∧ ops.chain.contains node'.holder.history k = true := by
  obtain ⟨events, honce⟩ := h.changes.once laws
  exact ⟨events, honce.published, honce.nodup, fun k hk => ⟨honce.new k hk, honce.known k hk⟩⟩

theorem remembers_countingChain : Remembers countingChain where
  appended _ _ _ _ h := by cases h; simp [countingChain]
  append _ _ _ _ h k hk := by
    cases h
    have hmem := hk
    simp only [countingChain, List.contains_eq_mem, decide_eq_true_eq] at hmem ⊢
    exact List.mem_cons_of_mem _ hmem
  reportModifierIsValid _ _ _ h k hk := by cases h; exact hk
  reportModifierIsInvalid _ _ _ _ _ h k hk := by cases h; exact hk

/-- The child of the genesis comes twice and its own child after it: the first is
appended once. -/
theorem applied_once_counting : ∃ node' events, Leads countingOps countingNode node'
    ∧ node'.holder.published = events ∧ successfulIds countingOps events = [1, 2]
    ∧ (successfulIds countingOps events).Nodup := by
  let second : Node ℕ ℕ Unit (List ℕ) Unit Unit Unit := match
      receive countingOps 1 countingNode (.locallyGeneratedModifier 1) with
    | .value node => node
    | _ => countingNode
  let third : Node ℕ ℕ Unit (List ℕ) Unit Unit Unit := match
      receive countingOps 1 second (.modifiersFromRemote [1, 2]) with
    | .value node => node
    | _ => countingNode
  have hleads : Leads countingOps countingNode third :=
    .tail (.single ⟨1, .locallyGeneratedModifier 1, rfl⟩) ⟨1, .modifiersFromRemote [1, 2], rfl⟩
  obtain ⟨events, hevents, hnodup, _⟩ := applied_once remembers_countingChain hleads
  have hids : successfulIds countingOps events = [1, 2] := by
    rw [← List.nil_append events, ← show countingNode.holder.published = [] from rfl, ← hevents]
    rfl
  exact ⟨third, events, hleads, hevents, hids, hnodup⟩

end Sparkz.NodeView
