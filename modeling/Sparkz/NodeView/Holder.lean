import Mathlib

/-!
# The node view holder

The model of `NodeViewHolder`: a node view is a history, a minimal state, a vault
and a memory pool, and a persistent modifier is applied to all four together.

* `ProgressInfo` — what the history answers to a new modifier: the modifiers to
  remove and to apply, and the branch point when something is removed.
* `ChainOps`, `VaultOps`, `MempoolOps` — the abstract members of `History` and
  `MinimalState`, of `Vault` and of `MemoryPool` that the holder calls.  All of
  them are persistent: an operation returns the new component and leaves the old
  one alone.
* `applyState`, `updateRound`, `updateState` — the application of a progress info
  to the state, with its retries on the alternatives that the history offers
  after a failed modifier.  One call of the tail recursive `updateState` of the
  source is one round here; `updateState` runs rounds as long as its fuel lasts.
* `pmodModify`, `txModify` — the handling of one modifier, and of one transaction.

The event stream is the list of published events.
-/

namespace Sparkz.NodeView

/-- An exception, with the class that the holder tests for. -/
inductive Throwable where
  | recoverableModifierError (message : String)
  | malformedModifierError (message : String)
  | other (message : String)
  deriving DecidableEq, Repr

/-- `e.isInstanceOf[RecoverableModifierError]`. -/
def Throwable.isRecoverable : Throwable → Bool
  | .recoverableModifierError _ => true
  | _ => false

/-- `ProgressInfo(branchPoint, toRemove, toApply)`, with the `require` of its
constructor. -/
structure ProgressInfo (Id PMOD : Type) where
  branchPoint : Option Id
  toRemove : List PMOD
  toApply : List PMOD
  branchPoint_isSome : toRemove ≠ [] → branchPoint.isSome

/-- `progressInfo.chainSwitchingNeeded`. -/
def ProgressInfo.chainSwitchingNeeded {Id PMOD : Type} (info : ProgressInfo Id PMOD) : Bool :=
  !info.toRemove.isEmpty

/-- The events published while a progress info is applied to the state. -/
inductive UpdateEvent (PMOD : Type) where
  | semanticallySuccessfulModifier (pmod : PMOD)
  | semanticallyFailedModification (pmod : PMOD) (e : Throwable)
  | rollbackFailed

/-- The events that the holder publishes. -/
inductive Event (Id PMOD TX HIS MS VL MP : Type) where
  | startingPersistentModifierApplication (pmod : PMOD)
  | syntacticallySuccessfulModifier (pmod : PMOD)
  | syntacticallyFailedModification (pmod : PMOD) (e : Throwable)
  | update (event : UpdateEvent PMOD)
  | newOpenSurface (ids : List Id)
  | changedHistory (history : HIS)
  | changedState (state : MS)
  | changedVault (vault : VL)
  | changedMempool (mempool : MP)
  | successfulTransaction (tx : TX)
  | failedTransaction (id : Id) (e : Throwable) (immediateFailure : Bool)
  | modifiersProcessingResult (applied cleared : List PMOD)

/-- The members of `History` and `MinimalState` that the holder calls, and the id
of a modifier. -/
structure ChainOps (Id PMOD HIS MS : Type) where
  id : PMOD → Id
  contains : HIS → Id → Bool
  applicableTry : HIS → PMOD → Except Throwable Unit
  append : HIS → PMOD → Except Throwable (HIS × ProgressInfo Id PMOD)
  reportModifierIsValid : HIS → PMOD → Except Throwable HIS
  reportModifierIsInvalid : HIS → PMOD → ProgressInfo Id PMOD →
    Except Throwable (HIS × ProgressInfo Id PMOD)
  openSurfaceIds : HIS → List Id
  version : MS → Id
  applyModifier : MS → PMOD → Except Throwable MS
  rollbackTo : MS → Id → Except Throwable MS

/-- The members of `Vault`. -/
structure VaultOps (Id PMOD TX VL : Type) where
  scanOffchain : VL → TX → VL
  scanPersistent : VL → PMOD → VL
  rollback : VL → Id → Except Throwable VL

/-- The members of `MemoryPool` and of transactions that the holder calls.
`validate` is there when the state is a `TransactionValidation`. -/
structure MempoolOps (Id PMOD TX MS MP : Type) where
  txId : TX → Id
  transactions : PMOD → List TX
  validate : Option (MS → TX → Except Throwable Unit)
  put : MP → TX → Except Throwable MP
  putWithoutCheck : MP → List TX → MP
  filter : MP → (TX → Bool) → MP
  handlingTransactionsEnabled : Bool

/-- Everything that the holder is given. -/
structure NodeViewOps (Id PMOD TX HIS MS VL MP : Type) where
  chain : ChainOps Id PMOD HIS MS
  vault : VaultOps Id PMOD TX VL
  mempool : MempoolOps Id PMOD TX MS MP

section

variable {Id PMOD TX HIS MS VL MP : Type} [DecidableEq Id]

/-! ## Updating the state -/

/-- `UpdateInformation`. -/
structure UpdateInformation (Id PMOD HIS MS : Type) where
  history : HIS
  state : MS
  failedMod : Option PMOD
  alternativeProgressInfo : Option (ProgressInfo Id PMOD)
  suffix : List PMOD

/-- `trimChainSuffix(suffix, rollbackPoint)`. -/
def trimChainSuffix (ops : ChainOps Id PMOD HIS MS) (suffix : List PMOD)
    (rollbackPoint : Id) : List PMOD :=
  match suffix.findIdx? fun m => ops.id m = rollbackPoint with
  | none => []
  | some idx => suffix.drop idx

/-- One step of the fold in `applyState`: both reports are made on the history
that `applyState` was given. -/
def applyStateStep (ops : ChainOps Id PMOD HIS MS) (history : HIS)
    (progressInfo : ProgressInfo Id PMOD)
    (acc : Except Throwable (UpdateInformation Id PMOD HIS MS) × List (UpdateEvent PMOD))
    (modToApply : PMOD) :
    Except Throwable (UpdateInformation Id PMOD HIS MS) × List (UpdateEvent PMOD) :=
  match acc with
  | (.error ex, events) => (.error ex, events)
  | (.ok updateInfo, events) =>
      if updateInfo.failedMod.isNone then
        match ops.applyModifier updateInfo.state modToApply with
        | .ok stateAfterApply =>
            match ops.reportModifierIsValid history modToApply with
            | .ok newHis =>
                (.ok ⟨newHis, stateAfterApply, none, none, updateInfo.suffix ++ [modToApply]⟩,
                  events ++ [.semanticallySuccessfulModifier modToApply])
            | .error e => (.error e, events)
        | .error e =>
            match ops.reportModifierIsInvalid history modToApply progressInfo with
            | .ok (newHis, newProgressInfo) =>
                (.ok ⟨newHis, updateInfo.state, some modToApply, some newProgressInfo,
                    updateInfo.suffix⟩,
                  events ++ [.semanticallyFailedModification modToApply e])
            | .error e' => (.error e', events)
      else (.ok updateInfo, events)

/-- `applyState(history, stateToApply, suffixTrimmed, progressInfo)`. -/
def applyState (ops : ChainOps Id PMOD HIS MS) (history : HIS) (stateToApply : MS)
    (suffixTrimmed : List PMOD) (progressInfo : ProgressInfo Id PMOD) :
    Except Throwable (UpdateInformation Id PMOD HIS MS) × List (UpdateEvent PMOD) :=
  progressInfo.toApply.foldl (applyStateStep ops history progressInfo)
    (.ok ⟨history, stateToApply, none, none, suffixTrimmed⟩, [])

/-- The arguments of one call of `updateState`. -/
structure Round (Id PMOD HIS MS : Type) where
  history : HIS
  state : MS
  progressInfo : ProgressInfo Id PMOD
  suffixApplied : List PMOD

/-- How a call of `updateState` ends: it returns a triple, or it runs into the
`???` that stands behind a failed rollback. -/
inductive UpdateResult (PMOD HIS MS : Type) where
  | returned (history : HIS) (newState : Except Throwable MS) (suffix : List PMOD)
  | notImplemented (e : Throwable)

/-- The first half of a call: the state to apply the progress info to, and the
suffix that is kept. -/
def stateToApply (ops : ChainOps Id PMOD HIS MS) (r : Round Id PMOD HIS MS) :
    Except Throwable MS × List PMOD :=
  if r.progressInfo.chainSwitchingNeeded then
    match r.progressInfo.branchPoint with
    | none => (.error (.other "None.get"), r.suffixApplied)
    | some branchingPoint =>
        if ops.version r.state ≠ branchingPoint then
          (ops.rollbackTo r.state branchingPoint,
            trimChainSuffix ops r.suffixApplied branchingPoint)
        else (.ok r.state, [])
  else (.ok r.state, r.suffixApplied)

/-- One call of `updateState` up to its tail call: the next arguments, or the
result, with the events published. -/
def updateRound (ops : ChainOps Id PMOD HIS MS) (r : Round Id PMOD HIS MS) :
    (Round Id PMOD HIS MS ⊕ UpdateResult PMOD HIS MS) × List (UpdateEvent PMOD) :=
  match stateToApply ops r with
  | (.ok state, suffixTrimmed) =>
      match applyState ops r.history state suffixTrimmed r.progressInfo with
      | (.ok info, events) =>
          match info.failedMod, info.alternativeProgressInfo with
          | some _, some alternative =>
              (.inl ⟨info.history, info.state, alternative, info.suffix⟩, events)
          | some _, none => (.inr (.notImplemented (.other "None.get")), events)
          | none, _ => (.inr (.returned info.history (.ok info.state) info.suffix), events)
      | (.error ex, events) => (.inr (.returned r.history (.error ex) suffixTrimmed), events)
  | (.error e, _) => (.inr (.notImplemented e), [.rollbackFailed])

/-- `updateState(history, state, progressInfo, suffixApplied)`, `none` when it
takes more than `fuel` rounds. -/
def updateState (ops : ChainOps Id PMOD HIS MS) :
    ℕ → Round Id PMOD HIS MS →
      Option (UpdateResult PMOD HIS MS × List (UpdateEvent PMOD))
  | 0, _ => none
  | fuel + 1, r =>
      match updateRound ops r with
      | (.inl next, events) =>
          (updateState ops fuel next).map fun result => (result.1, events ++ result.2)
      | (.inr result, events) => some (result, events)

/-! ## The node view -/

/-- The node view and what was published so far. -/
structure Holder (Id PMOD TX HIS MS VL MP : Type) where
  history : HIS
  minimalState : MS
  vault : VL
  memoryPool : MP
  published : List (Event Id PMOD TX HIS MS VL MP)

/-- `updateNodeView`: replace the given components and announce each of them. -/
def updateNodeView (h : Holder Id PMOD TX HIS MS VL MP) (updatedHistory : Option HIS)
    (updatedState : Option MS) (updatedVault : Option VL) (updatedMempool : Option MP) :
    Holder Id PMOD TX HIS MS VL MP where
  history := updatedHistory.getD h.history
  minimalState := updatedState.getD h.minimalState
  vault := updatedVault.getD h.vault
  memoryPool := updatedMempool.getD h.memoryPool
  published := h.published
    ++ (updatedHistory.map Event.changedHistory).toList
    ++ (updatedState.map Event.changedState).toList
    ++ (updatedVault.map Event.changedVault).toList
    ++ (updatedMempool.map Event.changedMempool).toList

/-- Publish events. -/
def Holder.publish (h : Holder Id PMOD TX HIS MS VL MP)
    (events : List (Event Id PMOD TX HIS MS VL MP)) : Holder Id PMOD TX HIS MS VL MP :=
  { h with published := h.published ++ events }

/-- Does the state, where it validates transactions, accept `tx`? -/
def isValid (ops : NodeViewOps Id PMOD TX HIS MS VL MP) (state : MS) (tx : TX) : Bool :=
  match ops.mempool.validate with
  | some validate => (validate state tx).isOk
  | none => true

/-- `updateMemPool(blocksRemoved, blocksApplied, memPool, state)`. -/
def updateMemPool (ops : NodeViewOps Id PMOD TX HIS MS VL MP)
    (blocksRemoved blocksApplied : List PMOD) (memPool : MP) (state : MS) : MP :=
  if ops.mempool.handlingTransactionsEnabled then
    let rolledBackTxs := blocksRemoved.flatMap ops.mempool.transactions
    let appliedTxs := blocksApplied.flatMap ops.mempool.transactions
    ops.mempool.filter (ops.mempool.putWithoutCheck memPool rolledBackTxs) fun tx =>
      !appliedTxs.any (fun t => ops.mempool.txId t = ops.mempool.txId tx) && isValid ops state tx
  else memPool

/-- How the handling of a message ends: with a new holder, with an exception, or
not within the fuel given to `updateState`. -/
inductive Outcome (α : Type) where
  | value (a : α)
  | thrown (e : Throwable)
  | outOfFuel

/-- The vault that `pmodModify` starts from: rolled back to the branch point when
the chain is switched, with `.get` on both options. -/
def vaultToScan (ops : VaultOps Id PMOD TX VL) (vault : VL)
    (progressInfo : ProgressInfo Id PMOD) : Except Throwable VL :=
  if progressInfo.chainSwitchingNeeded then
    match progressInfo.branchPoint with
    | none => .error (.other "None.get")
    | some branchPoint => ops.rollback vault branchPoint
  else .ok vault

/-- `pmodModify(pmod)`.  `blocksApplied.foreach(newVault.scanPersistent)` calls
`scanPersistent` on one and the same vault and drops what it returns. -/
def pmodModify (ops : NodeViewOps Id PMOD TX HIS MS VL MP) (fuel : ℕ)
    (h : Holder Id PMOD TX HIS MS VL MP) (pmod : PMOD) :
    Outcome (Holder Id PMOD TX HIS MS VL MP) :=
  if ops.chain.contains h.history (ops.chain.id pmod) then .value h
  else
    let h₁ := h.publish [.startingPersistentModifierApplication pmod]
    match ops.chain.append h₁.history pmod with
    | .error e => .value (h₁.publish [.syntacticallyFailedModification pmod e])
    | .ok (historyBeforeStUpdate, progressInfo) =>
        let h₂ := h₁.publish [.syntacticallySuccessfulModifier pmod,
          .newOpenSurface (ops.chain.openSurfaceIds historyBeforeStUpdate)]
        if progressInfo.toApply.isEmpty then
          .value (updateNodeView h₂ (some historyBeforeStUpdate) none none none)
        else
          match updateState ops.chain fuel
              ⟨historyBeforeStUpdate, h₂.minimalState, progressInfo, []⟩ with
          | none => .outOfFuel
          | some (.notImplemented e, _) => .thrown e
          | some (.returned newHistory (.ok newMinState) blocksApplied, events) =>
              let h₃ := h₂.publish (events.map .update)
              let newMemPool := updateMemPool ops progressInfo.toRemove blocksApplied
                h₃.memoryPool newMinState
              match vaultToScan ops.vault h₃.vault progressInfo with
              | .error e => .thrown e
              | .ok newVault =>
                  -- the results of the scans are not kept
                  let _ := blocksApplied.map (ops.vault.scanPersistent newVault)
                  .value (updateNodeView h₃ (some newHistory) (some newMinState) (some newVault)
                    (some newMemPool))
          | some (.returned newHistory (.error _) _, events) =>
              .value
                (updateNodeView (h₂.publish (events.map .update)) (some newHistory) none none none)

/-- `txModify(tx)`. -/
def txModify (ops : NodeViewOps Id PMOD TX HIS MS VL MP)
    (h : Holder Id PMOD TX HIS MS VL MP) (tx : TX) : Holder Id PMOD TX HIS MS VL MP :=
  let errorOpt := match ops.mempool.validate with
    | some validate =>
        match validate h.minimalState tx with
        | .ok _ => none
        | .error e => some e
    | none => none
  match errorOpt with
  | none =>
      match ops.mempool.put h.memoryPool tx with
      | .ok newPool =>
          (updateNodeView h none none (some (ops.vault.scanOffchain h.vault tx))
            (some newPool)).publish [.successfulTransaction tx]
      | .error e => h.publish [.failedTransaction (ops.mempool.txId tx) e true]
  | some e => h.publish [.failedTransaction (ops.mempool.txId tx) e true]

end

end Sparkz.NodeView
