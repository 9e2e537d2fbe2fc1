import Sparkz.NodeView.ModifierFates
import Sparkz.Network.ReceivedModifiers

/-!
# The synchronizer and the node view holder together

The two actors of a node, each with what waits in its mailbox.  Peers, timers and local
sources may act at any moment, and the two mailboxes are handled in their order, at any
speed.

* `Actors`, `Step`, `Runs` — the states of the two actors, what can happen next, and
  runs from the start of both.
* `received_accounted` — **no received modifier is lost on the way**: whatever the
  synchronizer holds for received is in the mailbox of the holder, in its cache, in an
  announcement that waits in the mailbox of the synchronizer, or was dropped by the
  holder without a word; `received_settled` — when both mailboxes are empty it is in the
  cache or was dropped.
* `readers_current` — **the synchronizer catches up**: once it has handled what waits in
  its mailbox its two readers are those of the history and of the pool that the holder
  has; `requests_unknown` — then it asks no peer for what the node has.
-/

namespace Sparkz.Network

open Sparkz.Lib Sparkz.NodeView

variable {Address Id TX PMOD HIS MS VL MP : Type} [DecidableEq Address] [DecidableEq Id]

/-! ## The two actors -/

/-- What the two actors of a node are given. -/
structure AssemblySettings (Id TX PMOD HIS MS VL MP : Type) where
  tracker : TrackerSettings
  ops : NodeViewOps Id PMOD TX HIS MS VL MP
  parentId : PMOD → Id
  pmodTypeId : PMOD → ModifierTypeId
  transactionSerializer : Option (ParseTry TX)
  modifierSerializers : ModifierTypeId → Option (ParseTry PMOD)
  poolContains : MP → Id → Bool
  poolGetAll : MP → List Id → List TX

namespace AssemblySettings

variable (settings : AssemblySettings Id TX PMOD HIS MS VL MP)

/-- The settings of the synchronizer. -/
def synchronizer : SynchronizerSettings Id TX PMOD where
  tracker := settings.tracker
  handlingTransactionsEnabled := settings.ops.mempool.handlingTransactionsEnabled
  txId := settings.ops.mempool.txId
  pmodId := settings.ops.chain.id
  parentId := settings.parentId
  pmodTypeId := settings.pmodTypeId
  transactionSerializer := settings.transactionSerializer
  modifierSerializers := settings.modifierSerializers

/-- `history.getReader`. -/
def historyReader (history : HIS) : HistoryReader Id PMOD where
  contains := settings.ops.chain.contains history
  applicableTry pmod :=
    match settings.ops.chain.applicableTry history pmod with
    | .ok _ => .success
    | .error (.malformedModifierError _) => .malformedModifierError
    | .error _ => .otherError

/-- `memoryPool.getReader`. -/
def mempoolReader (pool : MP) : MempoolReader Id TX where
  contains := settings.poolContains pool
  getAll := settings.poolGetAll pool

/-- An event of the holder as the synchronizer gets it, when it is subscribed to it. -/
def heard : NodeView.Event Id PMOD TX HIS MS VL MP → Option (ViewHolderEvent Id TX PMOD)
  | .successfulTransaction tx => some (.successfulTransaction tx)
  | .failedTransaction id _ immediateFailure => some (.failedTransaction id immediateFailure)
  | .syntacticallySuccessfulModifier pmod => some (.syntacticallySuccessfulModifier pmod)
  | .syntacticallyFailedModification pmod _ => some (.syntacticallyFailedModification pmod)
  | .update (.semanticallySuccessfulModifier pmod) => some (.semanticallySuccessfulModifier pmod)
  | .update (.semanticallyFailedModification pmod _) => some (.semanticallyFailedModification pmod)
  | .changedHistory history => some (.changedHistory (settings.historyReader history))
  | .changedMempool pool => some (.changedMempool (settings.mempoolReader pool))
  | .modifiersProcessingResult applied cleared => some (.modifiersProcessingResult applied cleared)
  | _ => none

end AssemblySettings

/-- The messages that the holder receives: those that change the node view, and the
question that the synchronizer asks when it starts. -/
inductive HolderMessage (Id PMOD TX : Type) where
  | message (message : NodeView.Message Id PMOD TX)
  | getNodeViewChanges

/-- What the synchronizer sends to the holder. -/
def Sent.toHolder : Sent Address Id TX PMOD → Option (HolderMessage Id PMOD TX)
  | .transactionsFromRemote txs => some (.message (.newTransactions txs))
  | .modifiersFromRemote pmods => some (.message (.modifiersFromRemote pmods))
  | _ => none

/-- The states of the two actors, and what waits in the mailbox of each, oldest first. -/
structure Actors (Address Id TX PMOD HIS MS VL MP : Type) where
  synchronizing : Synchronizing Address Id TX PMOD
  node : Node Id PMOD TX HIS MS VL MP
  toHolder : List (HolderMessage Id PMOD TX)
  toSynchronizer : List (ViewHolderEvent Id TX PMOD)

/-- The two actors at their start: nothing is cached, and the synchronizer has asked for
the readers. -/
def Actors.start (maxSize : ℕ) (hsize : 1 ≤ maxSize) (holder : Holder Id PMOD TX HIS MS VL MP) :
    Actors Address Id TX PMOD HIS MS VL MP :=
  ⟨.empty, ⟨.new maxSize hsize, holder⟩, [.getNodeViewChanges], []⟩

/-- What can happen next.  The list holds the ids that the holder drops in the step. -/
inductive Step (settings : AssemblySettings Id TX PMOD HIS MS VL MP)
    (s : Actors Address Id TX PMOD HIS MS VL MP) :
    Actors Address Id TX PMOD HIS MS VL MP → List Id → Prop where
  | inv (typeId : ModifierTypeId) (ids : List Id) (peer : ConnectedPeer Address) :
      Step settings s { s with
        synchronizing := s.synchronizing.step settings.synchronizer (.inv typeId ids peer) } []
  | modifiers (typeId : ModifierTypeId) (modifiers : List (Id × List UInt8))
      (remote : ConnectedPeer Address) (now : Id → ℤ) :
      Step settings s { s with
        synchronizing :=
          s.synchronizing.step settings.synchronizer (.modifiers typeId modifiers remote now)
        toHolder := s.toHolder ++ (s.synchronizing.synchronizer.modifiersFromRemote
          settings.synchronizer typeId modifiers remote now).2.filterMap Sent.toHolder } []
  | fire (timer : TimerId) :
      Step settings s { s with
        synchronizing := s.synchronizing.step settings.synchronizer (.fire timer) } []
  | timerMessage (now : Id → ℤ) :
      Step settings s { s with
        synchronizing := s.synchronizing.step settings.synchronizer (.timerMessage now) } []
  | hears {event : ViewHolderEvent Id TX PMOD} {rest : List (ViewHolderEvent Id TX PMOD)}
      (now : Id → ℤ) : s.toSynchronizer = event :: rest →
      Step settings s { s with
        synchronizing := s.synchronizing.step settings.synchronizer (.viewHolder event now)
        toSynchronizer := rest } []
  | localMessage (message : NodeView.Message Id PMOD TX) :
      Step settings s { s with toHolder := s.toHolder ++ [.message message] } []
  | receives {message : NodeView.Message Id PMOD TX} {rest : List (HolderMessage Id PMOD TX)}
      {node : Node Id PMOD TX HIS MS VL MP} (fuel : ℕ) : s.toHolder = .message message :: rest →
      receive settings.ops fuel s.node message = .value node →
      Step settings s { s with
        node := node
        toHolder := rest
        toSynchronizer := s.toSynchronizer ++
          (node.holder.published.drop s.node.holder.published.length).filterMap settings.heard }
        (dropped settings.ops fuel s.node message)
  | answers {rest : List (HolderMessage Id PMOD TX)} : s.toHolder = .getNodeViewChanges :: rest →
      Step settings s { s with
        toHolder := rest
        toSynchronizer := s.toSynchronizer ++
          [.changedHistory (settings.historyReader s.node.holder.history),
            .changedMempool (settings.mempoolReader s.node.holder.memoryPool)] } []

/-- A run from the start of the two actors, with the ids that the holder dropped on it. -/
inductive Runs (settings : AssemblySettings Id TX PMOD HIS MS VL MP) :
    Actors Address Id TX PMOD HIS MS VL MP → List Id → Prop where
  | start (maxSize : ℕ) (hsize : 1 ≤ maxSize) (holder : Holder Id PMOD TX HIS MS VL MP) :
      Runs settings (.start maxSize hsize holder) []
  | step {s s' : Actors Address Id TX PMOD HIS MS VL MP} {before ids : List Id} :
      Runs settings s before → Step settings s s' ids → Runs settings s' (before ++ ids)

/-- The tracker of the synchronizer. -/
def Actors.tracker (s : Actors Address Id TX PMOD HIS MS VL MP) : DeliveryTracker Address Id :=
  s.synchronizing.tracker

/-! ## Received modifiers -/

/-- Where a received modifier can be. -/
inductive Whereabouts (settings : AssemblySettings Id TX PMOD HIS MS VL MP)
    (s : Actors Address Id TX PMOD HIS MS VL MP) (droppedIds : List Id) (id : Id) : Prop where
  | inFlight {message : NodeView.Message Id PMOD TX} : .message message ∈ s.toHolder →
      Carries settings.ops id message → Whereabouts settings s droppedIds id
  | cached : id ∈ s.node.modifiersCache.cache.keys → Whereabouts settings s droppedIds id
  | reported {event : ViewHolderEvent Id TX PMOD} : event ∈ s.toSynchronizer →
      NodeViewSynchronizer.Clears settings.synchronizer id event →
      Whereabouts settings s droppedIds id
  | dropped : id ∈ droppedIds → Whereabouts settings s droppedIds id

/-- Every received modifier is somewhere. -/
structure Linked (settings : AssemblySettings Id TX PMOD HIS MS VL MP)
    (s : Actors Address Id TX PMOD HIS MS VL MP) (droppedIds : List Id) : Prop where
  reachable : Reachable settings.ops s.node
  accounted : ∀ id, s.tracker.received.contains id = true → Whereabouts settings s droppedIds id

omit [DecidableEq Address] in
/-- A step that makes nothing received, and leaves everything where it is. -/
theorem Linked.forgets {settings : AssemblySettings Id TX PMOD HIS MS VL MP}
    {s : Actors Address Id TX PMOD HIS MS VL MP} {droppedIds : List Id}
    (h : Linked settings s droppedIds) {synchronizing : Synchronizing Address Id TX PMOD}
    (hforgets : DeliveryTracker.Forgets s.tracker synchronizing.tracker)
    (toHolder : List (HolderMessage Id PMOD TX))
    (toSynchronizer : List (ViewHolderEvent Id TX PMOD)) :
    Linked settings { s with
      synchronizing := synchronizing
      toHolder := s.toHolder ++ toHolder
      toSynchronizer := s.toSynchronizer ++ toSynchronizer } droppedIds where
  reachable := h.reachable
  accounted id hid := by
    cases h.accounted id (hforgets id hid) with
    | inFlight hmem hcarries => exact .inFlight (List.mem_append_left _ hmem) hcarries
    | cached hmem => exact .cached hmem
    | reported hmem hclears => exact .reported (List.mem_append_left _ hmem) hclears
    | dropped hmem => exact .dropped hmem

omit [DecidableEq Id] in
/-- What settles a modifier is heard, and clears it. -/
theorem heard_clears {settings : AssemblySettings Id TX PMOD HIS MS VL MP} {id : Id}
    {event : NodeView.Event Id PMOD TX HIS MS VL MP} (h : Settles settings.ops id event) :
    ∃ event', settings.heard event = some event'
      ∧ NodeViewSynchronizer.Clears settings.synchronizer id event' := by
  cases h with
  | syntacticallySuccessfulModifier hid => exact ⟨_, rfl, .syntacticallySuccessfulModifier hid⟩
  | syntacticallyFailedModification e hid => exact ⟨_, rfl, .syntacticallyFailedModification hid⟩
  | modifiersProcessingResult hmem hid => exact ⟨_, rfl, .modifiersProcessingResult hmem hid⟩
  | successfulTransaction henabled hid => exact ⟨_, rfl, .successfulTransaction henabled hid⟩
  | failedTransaction e now henabled => exact ⟨_, rfl, .failedTransaction now henabled⟩

omit [DecidableEq Address] in
/-- The holder handles a message. -/
theorem Linked.receives {settings : AssemblySettings Id TX PMOD HIS MS VL MP}
    {s : Actors Address Id TX PMOD HIS MS VL MP} {droppedIds : List Id}
    (h : Linked settings s droppedIds) {message : NodeView.Message Id PMOD TX}
    {rest : List (HolderMessage Id PMOD TX)} {node : Node Id PMOD TX HIS MS VL MP} {fuel : ℕ}
    (hmailbox : s.toHolder = .message message :: rest)
    (hreceive : receive settings.ops fuel s.node message = .value node) :
    Linked settings { s with
      node := node
      toHolder := rest
      toSynchronizer := s.toSynchronizer ++
        (node.holder.published.drop s.node.holder.published.length).filterMap settings.heard }
      (droppedIds ++ dropped settings.ops fuel s.node message) where
  reachable := h.reachable.step message hreceive
  accounted id hid := by
    obtain ⟨events, hpublished, hfates⟩ := receive_settled h.reachable.keyed hreceive
    have hnews : node.holder.published.drop s.node.holder.published.length = events := by
      rw [hpublished, List.drop_left]
    -- what the holder had, or was handed, has one of the three fates
    have hfate : id ∈ s.node.modifiersCache.cache.keys ∨ Carries settings.ops id message →
        Whereabouts settings { s with
          node := node
          toHolder := rest
          toSynchronizer := s.toSynchronizer ++
            (node.holder.published.drop s.node.holder.published.length).filterMap settings.heard }
          (droppedIds ++ dropped settings.ops fuel s.node message) id := by
      intro hhad
      rcases hfates id hhad with hcached | ⟨event, hevent, hsettles⟩ | hdropped
      · exact .cached hcached
      · obtain ⟨event', hheard, hclears⟩ := heard_clears hsettles
        refine .reported (List.mem_append_right _ ?_) hclears
        rw [hnews]
        exact List.mem_filterMap.2 ⟨event, hevent, hheard⟩
      · exact .dropped (List.mem_append_right _ hdropped)
    cases h.accounted id hid with
    | @inFlight message' hmem hcarries =>
      rw [hmailbox] at hmem
      rcases List.mem_cons.1 hmem with heq | hmem
      · cases heq
        exact hfate (.inr hcarries)
      · exact .inFlight hmem hcarries
    | cached hmem => exact hfate (.inl hmem)
    | reported hmem hclears => exact .reported (List.mem_append_left _ hmem) hclears
    | dropped hmem => exact .dropped (List.mem_append_left _ hmem)

/-- The synchronizer handles an event. -/
theorem Linked.hears {settings : AssemblySettings Id TX PMOD HIS MS VL MP}
    {s : Actors Address Id TX PMOD HIS MS VL MP} {droppedIds : List Id}
    (h : Linked settings s droppedIds) {event : ViewHolderEvent Id TX PMOD}
    {rest : List (ViewHolderEvent Id TX PMOD)} (now : Id → ℤ)
    (hmailbox : s.toSynchronizer = event :: rest) :
    Linked settings { s with
      synchronizing := s.synchronizing.step settings.synchronizer (.viewHolder event now)
      toSynchronizer := rest } droppedIds where
  reachable := h.reachable
  accounted id hid := by
    have hbefore := NodeViewSynchronizer.forgets_viewHolderEvents settings.synchronizer
      s.synchronizing.synchronizer now event id hid
    cases h.accounted id hbefore with
    | inFlight hmem hcarries => exact .inFlight hmem hcarries
    | cached hmem => exact .cached hmem
    | dropped hmem => exact .dropped hmem
    | reported hmem hclears =>
      rw [hmailbox] at hmem
      rcases List.mem_cons.1 hmem with rfl | hmem
      · -- the event that was waited for: the modifier is not received any more
        have hcleared := NodeViewSynchronizer.viewHolderEvents_clears hclears
          s.synchronizing.synchronizer now
        rw [show (s.synchronizing.synchronizer.viewHolderEvents settings.synchronizer now
          _).1.deliveryTracker.received.contains id = true from hid] at hcleared
        cases hcleared
      · exact .reported hmem hclears

/-- A peer delivers modifiers. -/
theorem Linked.modifiers {settings : AssemblySettings Id TX PMOD HIS MS VL MP}
    {s : Actors Address Id TX PMOD HIS MS VL MP} {droppedIds : List Id}
    (h : Linked settings s droppedIds) (typeId : ModifierTypeId)
    (modifiers : List (Id × List UInt8)) (remote : ConnectedPeer Address) (now : Id → ℤ) :
    Linked settings { s with
      synchronizing := s.synchronizing.step settings.synchronizer
        (.modifiers typeId modifiers remote now)
      toHolder := s.toHolder ++ (s.synchronizing.synchronizer.modifiersFromRemote
        settings.synchronizer typeId modifiers remote now).2.filterMap Sent.toHolder }
      droppedIds where
  reachable := h.reachable
  accounted id hid := by
    rcases NodeViewSynchronizer.modifiersFromRemote_received hid with
      ⟨sent, hsent, hhanded⟩ | hbefore
    · have hmessage : ∀ message, sent.toHolder = some (.message message) →
          HolderMessage.message message ∈ s.toHolder
            ++ (s.synchronizing.synchronizer.modifiersFromRemote settings.synchronizer typeId
              modifiers remote now).2.filterMap Sent.toHolder :=
        fun message hm => List.mem_append_right _ (List.mem_filterMap.2 ⟨sent, hsent, hm⟩)
      cases sent with
      | transactionsFromRemote txs => exact .inFlight (hmessage _ rfl) hhanded
      | modifiersFromRemote pmods => exact .inFlight (hmessage _ rfl) hhanded
      | requestModifier _ _ _ => cases hhanded
      | penalizePeer _ _ => cases hhanded
      | broadcastTransaction _ _ => cases hhanded
      | broadcastBlock _ _ => cases hhanded
    · cases h.accounted id hbefore with
      | inFlight hmem hcarries => exact .inFlight (List.mem_append_left _ hmem) hcarries
      | cached hmem => exact .cached hmem
      | reported hmem hclears => exact .reported hmem hclears
      | dropped hmem => exact .dropped hmem

/-- Every step keeps the received modifiers accounted for. -/
theorem Linked.step {settings : AssemblySettings Id TX PMOD HIS MS VL MP}
    {s s' : Actors Address Id TX PMOD HIS MS VL MP} {droppedIds ids : List Id}
    (h : Linked settings s droppedIds) (hstep : Step settings s s' ids) :
    Linked settings s' (droppedIds ++ ids) := by
  have hquiet : ∀ synchronizing : Synchronizing Address Id TX PMOD,
      DeliveryTracker.Forgets s.tracker synchronizing.tracker →
      Linked settings { s with synchronizing := synchronizing } (droppedIds ++ []) := by
    intro synchronizing hforgets
    simpa using h.forgets hforgets [] []
  cases hstep with
  | inv typeId ids peer =>
    exact hquiet _ (NodeViewSynchronizer.forgets_processInv _ _ typeId ids peer)
  | fire timer =>
    apply hquiet
    simp only [Synchronizing.step]
    split
    · exact .of_eq rfl
    · exact .of_eq rfl
  | timerMessage now =>
    apply hquiet
    simp only [Synchronizing.step]
    split
    · exact Synchronizing.forgets_receiveScheduled _ _ now _
    · exact .of_eq rfl
  | modifiers typeId modifiers remote now =>
    rw [List.append_nil]
    exact h.modifiers typeId modifiers remote now
  | hears now hmailbox =>
    rw [List.append_nil]
    exact h.hears now hmailbox
  | localMessage message =>
    have hsame : DeliveryTracker.Forgets s.tracker s.synchronizing.tracker := .of_eq rfl
    simpa using h.forgets hsame [.message message] []
  | receives fuel hmailbox hreceive => exact h.receives hmailbox hreceive
  | @answers rest hmailbox =>
    rw [List.append_nil]
    refine ⟨h.reachable, fun id hid => ?_⟩
    cases h.accounted id hid with
    | @inFlight message hmem hcarries =>
      rw [hmailbox] at hmem
      exact .inFlight (by simpa using hmem) hcarries
    | cached hmem => exact .cached hmem
    | reported hmem hclears => exact .reported (List.mem_append_left _ hmem) hclears
    | dropped hmem => exact .dropped hmem

theorem Runs.linked {settings : AssemblySettings Id TX PMOD HIS MS VL MP}
    {s : Actors Address Id TX PMOD HIS MS VL MP} {droppedIds : List Id}
    (h : Runs settings s droppedIds) : Linked settings s droppedIds := by
  induction h with
  | start maxSize hsize holder => exact ⟨.start maxSize hsize holder, fun id hid => by cases hid⟩
  | step _ hstep ih => exact ih.step hstep

/-- **No received modifier is lost on the way**, in any run of the two actors: whatever
the synchronizer holds for received waits in the mailbox of the holder, is cached, is
cleared by an event that waits in the mailbox of the synchronizer, or was dropped. -/
theorem received_accounted {settings : AssemblySettings Id TX PMOD HIS MS VL MP}
    {s : Actors Address Id TX PMOD HIS MS VL MP} {droppedIds : List Id}
    (h : Runs settings s droppedIds) {id : Id} (hid : s.tracker.status id = .received) :
    Whereabouts settings s droppedIds id :=
  h.linked.accounted id (DeliveryTracker.status_eq_received_iff.1 hid)

/-- With nothing left to handle, a received modifier is cached or was dropped. -/
theorem received_settled {settings : AssemblySettings Id TX PMOD HIS MS VL MP}
    {s : Actors Address Id TX PMOD HIS MS VL MP} {droppedIds : List Id}
    (h : Runs settings s droppedIds) (hholder : s.toHolder = [])
    (hsynchronizer : s.toSynchronizer = []) {id : Id} (hid : s.tracker.status id = .received) :
    id ∈ s.node.modifiersCache.cache.keys ∨ id ∈ droppedIds := by
  cases h.linked.accounted id (DeliveryTracker.status_eq_received_iff.1 hid) with
  | inFlight hmem _ => rw [hholder] at hmem; cases hmem
  | cached hmem => exact .inl hmem
  | reported hmem _ => rw [hsynchronizer] at hmem; cases hmem
  | dropped hmem => exact .inr hmem

/-! ## The readers -/

/-- The two readers that the synchronizer holds. -/
structure Readers (Id TX PMOD : Type) where
  history : Option (HistoryReader Id PMOD)
  mempool : Option (MempoolReader Id TX)

/-- What an event makes of the readers. -/
def Readers.hear (r : Readers Id TX PMOD) : ViewHolderEvent Id TX PMOD → Readers Id TX PMOD
  | .changedHistory reader => { r with history := some reader }
  | .changedMempool reader => { r with mempool := some reader }
  | _ => r

namespace NodeViewSynchronizer

/-- The readers of a synchronizer. -/
def readers (s : NodeViewSynchronizer Address Id TX PMOD) : Readers Id TX PMOD :=
  ⟨s.historyReaderOpt, s.mempoolReaderOpt⟩

section

omit [DecidableEq Address] [DecidableEq Id]

@[simp] theorem readers_withTracker (s : NodeViewSynchronizer Address Id TX PMOD)
    (t : DeliveryTracker Address Id) : (s.withTracker t).readers = s.readers := rfl

@[simp] theorem readers_broadcastModifierInv (settings : SynchronizerSettings Id TX PMOD)
    (s : NodeViewSynchronizer Address Id TX PMOD) (typeId : ModifierTypeId) (id : Id) :
    (s.broadcastModifierInv settings typeId id).1.readers = s.readers := by
  unfold broadcastModifierInv
  split
  · rfl
  · split <;> rfl

end

omit [DecidableEq Address] [DecidableEq Id] in
@[simp] theorem readers_broadcastAll (settings : SynchronizerSettings Id TX PMOD) (txs : List TX)
    (s : NodeViewSynchronizer Address Id TX PMOD) :
    (broadcastAll settings s txs).1.readers = s.readers := by
  induction txs generalizing s with
  | nil => rfl
  | cons tx txs ih => simp [broadcastAll, ih]

theorem readers_validateAndSetStatus (settings : SynchronizerSettings Id TX PMOD)
    (s : NodeViewSynchronizer Address Id TX PMOD) (remote : ConnectedPeer Address) (pmod : PMOD)
    (now : Id → ℤ) : (s.validateAndSetStatus settings remote pmod now).2.1.readers = s.readers := by
  unfold validateAndSetStatus
  simp only
  split
  · rfl
  · split
    · split <;> rfl
    · rfl

theorem readers_validateAll (settings : SynchronizerSettings Id TX PMOD)
    (remote : ConnectedPeer Address) (now : Id → ℤ) (pmods : List PMOD)
    (s : NodeViewSynchronizer Address Id TX PMOD) :
    (validateAll settings remote now s pmods).2.1.readers = s.readers := by
  induction pmods generalizing s with
  | nil => rfl
  | cons pmod pmods ih =>
    simp only [validateAll]
    rw [ih, readers_validateAndSetStatus]

theorem readers_processInv (settings : SynchronizerSettings Id TX PMOD)
    (s : NodeViewSynchronizer Address Id TX PMOD) (typeId : ModifierTypeId) (ids : List Id)
    (peer : ConnectedPeer Address) :
    (s.processInv settings typeId ids peer).1.readers = s.readers := by
  unfold processInv
  split
  · simp only
    split <;> rfl
  · rfl

theorem readers_modifiersFromRemote (settings : SynchronizerSettings Id TX PMOD)
    (s : NodeViewSynchronizer Address Id TX PMOD) (typeId : ModifierTypeId)
    (modifiers : List (Id × List UInt8)) (remote : ConnectedPeer Address) (now : Id → ℤ) :
    (s.modifiersFromRemote settings typeId modifiers remote now).1.readers = s.readers := by
  unfold modifiersFromRemote
  simp only
  split
  · split <;> rfl
  · split
    · exact readers_validateAll _ _ _ _ _
    · rfl

theorem readers_checkDelivery (settings : SynchronizerSettings Id TX PMOD)
    (s : NodeViewSynchronizer Address Id TX PMOD) (peer : ConnectedPeer Address)
    (typeId : ModifierTypeId) (id : Id) (now : Id → ℤ) :
    (s.checkDelivery settings peer typeId id now).1.readers = s.readers := by
  unfold checkDelivery
  split
  · split <;> rfl
  · rfl

omit [DecidableEq Address] [DecidableEq Id] in
theorem readers_transactionRebroadcast (settings : SynchronizerSettings Id TX PMOD)
    (s : NodeViewSynchronizer Address Id TX PMOD) :
    (s.transactionRebroadcast settings).1.readers = s.readers := by
  unfold transactionRebroadcast
  simp only
  split
  · simp
  · rfl

theorem readers_viewHolderEvents (settings : SynchronizerSettings Id TX PMOD)
    (s : NodeViewSynchronizer Address Id TX PMOD) (now : Id → ℤ)
    (event : ViewHolderEvent Id TX PMOD) :
    (s.viewHolderEvents settings now event).1.readers = s.readers.hear event := by
  cases event with
  | successfulTransaction tx =>
    simp only [viewHolderEvents]
    split
    · rw [readers_broadcastModifierInv]
      rfl
    · rfl
  | failedTransaction id immediateFailure =>
    simp only [viewHolderEvents]
    split <;> rfl
  | semanticallySuccessfulModifier pmod => exact readers_broadcastModifierInv settings s _ _
  | syntacticallySuccessfulModifier pmod => rfl
  | syntacticallyFailedModification pmod => rfl
  | semanticallyFailedModification pmod => rfl
  | changedHistory reader => rfl
  | changedMempool reader => rfl
  | modifiersProcessingResult applied cleared => rfl

end NodeViewSynchronizer

/-- The readers are those of the components that a subscriber knows; a reader may be
missing where that is not `strict`. -/
structure Readers.Follow (settings : AssemblySettings Id TX PMOD HIS MS VL MP) (strict : Prop)
    (r : Readers Id TX PMOD) (f : Followed HIS MS VL MP) : Prop where
  history : r.history = some (settings.historyReader f.history) ∨ ¬ strict ∧ r.history = none
  mempool : r.mempool = some (settings.mempoolReader f.memoryPool) ∨ ¬ strict ∧ r.mempool = none

section

omit [DecidableEq Id]

theorem Readers.Follow.mono {settings : AssemblySettings Id TX PMOD HIS MS VL MP}
    {strict strict' : Prop} {r : Readers Id TX PMOD} {f : Followed HIS MS VL MP}
    (h : r.Follow settings strict f) (hmono : strict' → strict) : r.Follow settings strict' f where
  history := h.history.imp_right fun hr => ⟨fun hs => hr.1 (hmono hs), hr.2⟩
  mempool := h.mempool.imp_right fun hr => ⟨fun hs => hr.1 (hmono hs), hr.2⟩

/-- An event of the holder, heard as the synchronizer hears it. -/
theorem Readers.Follow.heard {settings : AssemblySettings Id TX PMOD HIS MS VL MP} {strict : Prop}
    {r : Readers Id TX PMOD} {f : Followed HIS MS VL MP} (h : r.Follow settings strict f)
    (event : NodeView.Event Id PMOD TX HIS MS VL MP) :
    ((settings.heard event).toList.foldl Readers.hear r).Follow settings strict (f.hear event) := by
  cases event with
  | changedHistory history => exact ⟨.inl rfl, h.mempool⟩
  | changedMempool pool => exact ⟨h.history, .inl rfl⟩
  | update event => cases event <;> exact h
  | startingPersistentModifierApplication pmod => exact h
  | syntacticallySuccessfulModifier pmod => exact h
  | syntacticallyFailedModification pmod e => exact h
  | newOpenSurface ids => exact h
  | changedState state => exact ⟨h.history, h.mempool⟩
  | changedVault vault => exact ⟨h.history, h.mempool⟩
  | successfulTransaction tx => exact h
  | failedTransaction id e immediateFailure => exact h
  | modifiersProcessingResult applied cleared => exact h

end

omit [DecidableEq Id] in
theorem Readers.Follow.foldl_heard {settings : AssemblySettings Id TX PMOD HIS MS VL MP}
    {strict : Prop} {r : Readers Id TX PMOD} {f : Followed HIS MS VL MP}
    (h : r.Follow settings strict f) (events : List (NodeView.Event Id PMOD TX HIS MS VL MP)) :
    ((events.filterMap settings.heard).foldl Readers.hear r).Follow settings strict
      (events.foldl Followed.hear f) := by
  induction events generalizing r f with
  | nil => exact h
  | cons event events ih =>
    have hone := h.heard event
    cases hheard : settings.heard event with
    | none =>
      rw [hheard] at hone
      rw [List.filterMap_cons_none hheard, List.foldl_cons]
      exact ih hone
    | some event' =>
      rw [hheard] at hone
      rw [List.filterMap_cons_some hheard, List.foldl_cons, List.foldl_cons]
      exact ih hone

/-- The readers that the synchronizer will have when it has handled what waits. -/
def Actors.comingReaders (s : Actors Address Id TX PMOD HIS MS VL MP) : Readers Id TX PMOD :=
  s.toSynchronizer.foldl Readers.hear s.synchronizing.synchronizer.readers

/-- They are those of the node view; one may be missing while the question of the
synchronizer is on its way. -/
def ReadersCome (settings : AssemblySettings Id TX PMOD HIS MS VL MP)
    (s : Actors Address Id TX PMOD HIS MS VL MP) : Prop :=
  s.comingReaders.Follow settings (HolderMessage.getNodeViewChanges ∉ s.toHolder)
    (.current s.node.holder)

theorem ReadersCome.step {settings : AssemblySettings Id TX PMOD HIS MS VL MP}
    {s s' : Actors Address Id TX PMOD HIS MS VL MP} {ids : List Id} (h : ReadersCome settings s)
    (hstep : Step settings s s' ids) : ReadersCome settings s' := by
  -- steps that leave the readers and both mailboxes alone
  have hquiet : ∀ synchronizing : Synchronizing Address Id TX PMOD,
      synchronizing.synchronizer.readers = s.synchronizing.synchronizer.readers →
      ReadersCome settings { s with synchronizing := synchronizing } := by
    intro synchronizing hreaders
    unfold ReadersCome Actors.comingReaders at h ⊢
    rw [hreaders]
    exact h
  cases hstep with
  | inv typeId ids peer => exact hquiet _ (NodeViewSynchronizer.readers_processInv _ _ _ _ _)
  | fire timer =>
    apply hquiet
    simp only [Synchronizing.step]
    split <;> rfl
  | timerMessage now =>
    apply hquiet
    simp only [Synchronizing.step]
    split
    · rename_i message _ _
      cases message with
      | checkDelivery peer typeId id => exact NodeViewSynchronizer.readers_checkDelivery _ _ _ _ _ _
      | transactionRebroadcast => exact NodeViewSynchronizer.readers_transactionRebroadcast _ _
    · rfl
  | modifiers typeId modifiers remote now =>
    have hsame := hquiet
      (s.synchronizing.step settings.synchronizer (.modifiers typeId modifiers remote now))
      (NodeViewSynchronizer.readers_modifiersFromRemote _ _ _ _ _ _)
    apply Readers.Follow.mono hsame
    intro hnot
    simp only [List.mem_append, not_or] at hnot
    exact hnot.1
  | @hears event rest now hmailbox =>
    unfold ReadersCome Actors.comingReaders at h ⊢
    rw [hmailbox, List.foldl_cons] at h
    rw [← NodeViewSynchronizer.readers_viewHolderEvents settings.synchronizer _ now event] at h
    exact h
  | localMessage message =>
    apply Readers.Follow.mono h
    intro hnot
    simpa using hnot
  | @receives message rest node fuel hmailbox hreceive =>
    obtain ⟨events, hpublished, htold⟩ := (receive_changes hreceive).tells
    have hnews : node.holder.published.drop s.node.holder.published.length = events := by
      rw [hpublished, List.drop_left]
    have hstrict := Readers.Follow.foldl_heard h events
    rw [htold] at hstrict
    unfold ReadersCome Actors.comingReaders
    rw [List.foldl_append, hnews]
    apply hstrict.mono
    intro hnot
    rw [hmailbox]
    simpa using hnot
  | answers hmailbox =>
    unfold ReadersCome Actors.comingReaders
    rw [List.foldl_append]
    exact ⟨.inl rfl, .inl rfl⟩

theorem Runs.readersCome {settings : AssemblySettings Id TX PMOD HIS MS VL MP}
    {s : Actors Address Id TX PMOD HIS MS VL MP} {droppedIds : List Id}
    (h : Runs settings s droppedIds) : ReadersCome settings s := by
  induction h with
  | start maxSize hsize holder =>
    exact ⟨.inr ⟨fun hnot => hnot (List.mem_singleton_self _), rfl⟩,
      .inr ⟨fun hnot => hnot (List.mem_singleton_self _), rfl⟩⟩
  | step _ hstep ih => exact ih.step hstep

omit [DecidableEq Id] in
/-- A reader that follows is the one of the component. -/
theorem Readers.Follow.eq_of_some {settings : AssemblySettings Id TX PMOD HIS MS VL MP}
    {strict : Prop} {r : Readers Id TX PMOD} {f : Followed HIS MS VL MP}
    (h : r.Follow settings strict f) :
    (∀ reader, r.history = some reader → reader = settings.historyReader f.history)
    ∧ ∀ reader, r.mempool = some reader → reader = settings.mempoolReader f.memoryPool := by
  constructor
  · intro reader hreader
    rcases h.history with hr | ⟨_, hr⟩
    · rw [hreader] at hr
      exact Option.some.inj hr
    · rw [hreader] at hr
      cases hr
  · intro reader hreader
    rcases h.mempool with hr | ⟨_, hr⟩
    · rw [hreader] at hr
      exact Option.some.inj hr
    · rw [hreader] at hr
      cases hr

/-- **The synchronizer catches up**, in any run of the two actors: the readers that it
will have when it has handled what waits in its mailbox are those of the history and of
the pool that the holder has, and it will have both once the holder has answered its
question. -/
theorem readers_current {settings : AssemblySettings Id TX PMOD HIS MS VL MP}
    {s : Actors Address Id TX PMOD HIS MS VL MP} {droppedIds : List Id}
    (h : Runs settings s droppedIds) :
    (∀ reader, s.comingReaders.history = some reader →
      reader = settings.historyReader s.node.holder.history)
    ∧ (∀ reader, s.comingReaders.mempool = some reader →
      reader = settings.mempoolReader s.node.holder.memoryPool)
    ∧ (HolderMessage.getNodeViewChanges ∉ s.toHolder →
      s.comingReaders.history.isSome = true ∧ s.comingReaders.mempool.isSome = true) := by
  obtain ⟨hhistory, hmempool⟩ := h.readersCome.eq_of_some
  refine ⟨hhistory, hmempool, fun hanswered => ⟨?_, ?_⟩⟩
  · rcases h.readersCome.history with hr | ⟨hnot, _⟩
    · simp [hr]
    · exact absurd hanswered hnot
  · rcases h.readersCome.mempool with hr | ⟨hnot, _⟩
    · simp [hr]
    · exact absurd hanswered hnot

omit [DecidableEq Address] in
/-- An id whose status is unknown to a keeper is none of the keeper's. -/
theorem DeliveryTracker.not_kept_of_unknown {t : DeliveryTracker Address Id} {id : Id}
    {keeper : Id → Bool} (h : t.statusIn id [keeper] = .unknown) :
    keeper id = false ∧ t.status id = .unknown := by
  simp only [DeliveryTracker.status, DeliveryTracker.statusIn, List.any_cons, List.any_nil,
    Bool.or_false, Bool.false_eq_true, if_false] at h ⊢
  split at h
  · cases h
  · split at h
    · cases h
    · split at h
      · cases h
      · split at h
        · cases h
        · rename_i hkeeper
          simp_all

/-- **It asks for nothing that the node has**: an inventory that comes when the
synchronizer has handled all events is answered by requests for such modifiers only as
neither the history nor the pool has, and as are in no state of processing. -/
theorem requests_unknown {settings : AssemblySettings Id TX PMOD HIS MS VL MP}
    {s : Actors Address Id TX PMOD HIS MS VL MP} {droppedIds : List Id}
    (h : Runs settings s droppedIds) (hheard : s.toSynchronizer = []) (typeId : ModifierTypeId)
    (ids : List Id) (peer : ConnectedPeer Address) :
    ∀ sent ∈ (s.synchronizing.synchronizer.processInv settings.synchronizer typeId ids peer).2,
      ∃ new, sent = .requestModifier peer typeId new ∧ ∀ id ∈ new, id ∈ ids
        ∧ s.tracker.status id = .unknown
        ∧ if typeId = transactionTypeId then
            settings.poolContains s.node.holder.memoryPool id = false
          else settings.ops.chain.contains s.node.holder.history id = false := by
  obtain ⟨hhistory, hmempool⟩ := h.readersCome.eq_of_some
  have hcoming : s.comingReaders = s.synchronizing.synchronizer.readers := by
    rw [Actors.comingReaders, hheard, List.foldl_nil]
  rw [hcoming] at hhistory hmempool
  intro sent hsent
  unfold NodeViewSynchronizer.processInv at hsent
  split at hsent
  · rename_i mempool history hpool hhis
    simp only at hsent
    split at hsent
    · cases hsent
    · refine ⟨_, List.mem_singleton.1 hsent, fun id hid => ?_⟩
      -- the readers are the current ones
      obtain rfl := hhistory history hhis
      obtain rfl := hmempool mempool hpool
      unfold NodeViewSynchronizer.newModifierIds at hid
      replace hid := List.mem_of_mem_take hid
      split at hid
      · rename_i htx
        rw [if_pos htx]
        split at hid
        · obtain ⟨hmem, hunknown⟩ := List.mem_filter.1 hid
          obtain ⟨hkeeper, hstatus⟩ :=
            DeliveryTracker.not_kept_of_unknown (of_decide_eq_true hunknown)
          exact ⟨hmem, hstatus, hkeeper⟩
        · cases hid
      · rename_i htx
        rw [if_neg htx]
        obtain ⟨hmem, hunknown⟩ := List.mem_filter.1 hid
        obtain ⟨hkeeper, hstatus⟩ :=
          DeliveryTracker.not_kept_of_unknown (of_decide_eq_true hunknown)
        exact ⟨hmem, hstatus, hkeeper⟩
  · cases hsent

/-! ## A node over numbers -/

/-- The node of `countingOps`, without slow mode and rebroadcast. -/
def countingSettings : AssemblySettings ℕ Unit ℕ (List ℕ) Unit Unit Unit where
  tracker := DeliveryTracker.plainSettings
  ops := countingOps
  parentId pmod := pmod - 1
  pmodTypeId _ := 7
  transactionSerializer := none
  modifierSerializers _ := some fun bytes => bytes.head?.map fun b => (b.toNat, 0)
  poolContains _ _ := false
  poolGetAll _ _ := []

/-- The connection to a peer. -/
def onlyPeer : ConnectedPeer ℕ := ⟨⟨1, 0, .outgoing⟩⟩

/-- The actors over the history `[0]`, after the readers have come and the modifier 2 was
announced, requested and delivered: it waits in the cache for its parent. -/
theorem exists_orphan_run : ∃ (s : Actors ℕ ℕ Unit ℕ (List ℕ) Unit Unit Unit)
    (droppedIds : List ℕ), Runs countingSettings s droppedIds ∧ s.toHolder = []
      ∧ s.toSynchronizer = [] ∧ s.tracker.status 2 = .received ∧ droppedIds = []
      ∧ s.node.modifiersCache.cache.keys = [2]
      ∧ (s.synchronizing.synchronizer.processInv countingSettings.synchronizer 7 [0, 1, 2]
        onlyPeer).2 = [.requestModifier onlyPeer 7 [1]] := by
  have started : Runs countingSettings (.start 2 (by decide) ⟨[0], (), (), (), []⟩ :
      Actors ℕ ℕ Unit ℕ (List ℕ) Unit Unit Unit) [] := .start 2 _ _
  have answered := started.step (.answers rfl)
  have ready := (answered.step (.hears (fun _ => 0) rfl)).step (.hears (fun _ => 0) rfl)
  have requested := ready.step (.inv 7 [2] onlyPeer)
  have delivered := requested.step (.modifiers 7 [(2, [2])] onlyPeer fun _ => 0)
  have handled := delivered.step (.receives 1 rfl rfl)
  have settled := handled.step (.hears (fun _ => 0) rfl)
  exact ⟨_, _, settled, rfl, rfl, by decide, rfl, rfl, rfl⟩

/-- The modifier that waits for its parent is accounted for: the cache has it. -/
theorem received_accounted_orphan : ∃ (s : Actors ℕ ℕ Unit ℕ (List ℕ) Unit Unit Unit)
    (droppedIds : List ℕ), s.tracker.status 2 = .received ∧ s.toHolder = []
      ∧ s.toSynchronizer = [] ∧ Whereabouts countingSettings s droppedIds 2 := by
  obtain ⟨s, droppedIds, hruns, hholder, hsynchronizer, hstatus, _⟩ := exists_orphan_run
  exact ⟨s, droppedIds, hstatus, hholder, hsynchronizer, received_accounted hruns hstatus⟩

/-- The synchronizer has the readers of the history `[0]` and of the pool. -/
theorem readers_current_orphan : ∃ (s : Actors ℕ ℕ Unit ℕ (List ℕ) Unit Unit Unit)
    (droppedIds : List ℕ), Runs countingSettings s droppedIds
      ∧ s.comingReaders.history.isSome = true ∧ s.comingReaders.mempool.isSome = true := by
  obtain ⟨s, droppedIds, hruns, hholder, _⟩ := exists_orphan_run
  exact ⟨s, droppedIds, hruns, (readers_current hruns).2.2 (by simp [hholder])⟩

/-- An inventory of the genesis, of the missing parent and of the waiting modifier: only
the parent is asked for. -/
theorem requests_unknown_orphan : ∃ (s : Actors ℕ ℕ Unit ℕ (List ℕ) Unit Unit Unit)
    (droppedIds : List ℕ), Runs countingSettings s droppedIds
      ∧ (s.synchronizing.synchronizer.processInv countingSettings.synchronizer 7 [0, 1, 2]
        onlyPeer).2 = [.requestModifier onlyPeer 7 [1]]
      ∧ countingChain.contains s.node.holder.history 1 = false := by
  obtain ⟨s, droppedIds, hruns, _, hsynchronizer, _, _, _, hsent⟩ := exists_orphan_run
  refine ⟨s, droppedIds, hruns, hsent, ?_⟩
  have hlaw := requests_unknown hruns hsynchronizer 7 [0, 1, 2] onlyPeer
  rw [hsent] at hlaw
  obtain ⟨new, hnew, hall⟩ := hlaw _ (List.mem_singleton_self _)
  cases hnew
  exact (hall 1 (List.mem_singleton_self _)).2.2

end Sparkz.Network
