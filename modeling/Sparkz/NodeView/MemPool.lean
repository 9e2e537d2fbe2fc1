import Sparkz.Lib.LinkedMap
import Sparkz.NodeView.ViewChanges

/-!
# The memory pool over runs of the holder

The holder checks a transaction against the state before it pools it, and checks all
pooled transactions again whenever the state changes.  Both facts below hold for any
run of messages, with reorganisations, failed modifiers and eliminations in any order.

* `PoolLaws` — a memory pool as a map from ids to transactions;
  `SimpleBoxTransactionMemPool` is one (`SimpleBoxTransactionMemPool.poolLaws`).
* `pooled_valid` — **what is pooled is valid**: every pooled transaction passes the
  validation of the current state.
* `pooled_accounted` — **no transaction is dropped without a word**: what was pooled
  is still pooled, or an announcement of the run says why it is not.
* `get?_updateMemPool` — what a reorganisation makes of the pool, exactly.
-/

namespace Sparkz.NodeView

open Sparkz.Lib

variable {Id PMOD TX HIS MS VL MP : Type} [DecidableEq Id]

/-! ## The pool as a map -/

/-- The last of the transactions with the given id. -/
def lastWithId (txId : TX → Id) (txs : List TX) (id : Id) : Option TX :=
  txs.reverse.find? fun tx => txId tx = id

/-- A memory pool whose content is `get?`: what each operation of the holder does to
the transaction pooled under an id. -/
structure PoolLaws (ops : MempoolOps Id PMOD TX MS MP) (get? : MP → Id → Option TX) : Prop where
  keyed : ∀ p id tx, get? p id = some tx → ops.txId tx = id
  put : ∀ p tx p', ops.put p tx = .ok p' →
    ∀ id, get? p' id = if ops.txId tx = id then some tx else get? p id
  putWithoutCheck : ∀ p txs id,
    get? (ops.putWithoutCheck p txs) id = (lastWithId ops.txId txs id).or (get? p id)
  filter : ∀ p keep id, get? (ops.filter p keep) id = (get? p id).filter keep

/-- `SimpleBoxTransactionMemPool`: the transactions under their ids.  The pool of the
source is changed in place, and every operation returns it. -/
structure SimpleBoxTransactionMemPool (txId : TX → Id) where
  unconfirmed : LinkedMap Id TX
  /-- Each transaction is bound to its id. -/
  keyed : ∀ id tx, unconfirmed.get? id = some tx → txId tx = id

namespace SimpleBoxTransactionMemPool

variable {txId : TX → Id}

/-- `emptyPool`. -/
def emptyPool : SimpleBoxTransactionMemPool txId := ⟨.empty, fun _ _ h => by cases h⟩

/-- `modifierById(id)`. -/
def modifierById (p : SimpleBoxTransactionMemPool txId) (id : Id) : Option TX :=
  p.unconfirmed.get? id

/-- `contains(id)`. -/
def contains (p : SimpleBoxTransactionMemPool txId) (id : Id) : Bool := p.unconfirmed.contains id

/-- `getAll(ids)`. -/
def getAll (p : SimpleBoxTransactionMemPool txId) (ids : List Id) : List TX :=
  ids.filterMap p.modifierById

/-- `put(tx)`, which always succeeds. -/
def put (p : SimpleBoxTransactionMemPool txId) (tx : TX) : SimpleBoxTransactionMemPool txId where
  unconfirmed := p.unconfirmed.put (txId tx) tx
  keyed id tx' h := by
    rw [LinkedMap.get?_put] at h
    split at h
    · cases h
      exact Eq.symm ‹_›
    · exact p.keyed id tx' h

/-- `putWithoutCheck(txs)`. -/
def putWithoutCheck (p : SimpleBoxTransactionMemPool txId) (txs : List TX) :
    SimpleBoxTransactionMemPool txId :=
  txs.foldl put p

/-- `filter(condition)`. -/
def filter (p : SimpleBoxTransactionMemPool txId) (condition : TX → Bool) :
    SimpleBoxTransactionMemPool txId where
  unconfirmed := p.unconfirmed.filter fun e => condition e.2
  keyed id tx h := by
    rw [LinkedMap.get?_eq_some_iff] at h
    exact p.keyed id tx (LinkedMap.get?_eq_some_iff.2 (List.mem_of_mem_filter h))

/-- `size`. -/
def size (p : SimpleBoxTransactionMemPool txId) : ℕ := p.unconfirmed.size

theorem modifierById_put (p : SimpleBoxTransactionMemPool txId) (tx : TX) (id : Id) :
    (p.put tx).modifierById id = if txId tx = id then some tx else p.modifierById id := by
  simp only [modifierById, put, LinkedMap.get?_put, eq_comm]

theorem modifierById_putWithoutCheck (txs : List TX) (p : SimpleBoxTransactionMemPool txId)
    (id : Id) :
    (p.putWithoutCheck txs).modifierById id = (lastWithId txId txs id).or (p.modifierById id) := by
  induction txs generalizing p with
  | nil => rfl
  | cons tx txs ih =>
    rw [putWithoutCheck, List.foldl_cons, ← putWithoutCheck, ih, modifierById_put]
    rw [lastWithId, lastWithId, List.reverse_cons, List.find?_append, Option.or_assoc]
    congr 1
    by_cases h : txId tx = id
    · simp [h]
    · simp [h]

theorem modifierById_filter (p : SimpleBoxTransactionMemPool txId) (condition : TX → Bool)
    (id : Id) :
    (p.filter condition).modifierById id = (p.modifierById id).filter condition := by
  ext tx
  simp only [modifierById, filter, Option.filter_eq_some_iff, LinkedMap.get?_eq_some_iff,
    LinkedMap.filter, List.mem_filter]

/-- What the holder calls on the pool. -/
def mempoolOps (txId : TX → Id) (transactions : PMOD → List TX)
    (validate : Option (MS → TX → Except Throwable Unit)) (handlingTransactionsEnabled : Bool) :
    MempoolOps Id PMOD TX MS (SimpleBoxTransactionMemPool txId) where
  txId := txId
  transactions := transactions
  validate := validate
  put p tx := .ok (p.put tx)
  putWithoutCheck := putWithoutCheck
  filter := filter
  handlingTransactionsEnabled := handlingTransactionsEnabled

theorem poolLaws (txId : TX → Id) (transactions : PMOD → List TX)
    (validate : Option (MS → TX → Except Throwable Unit)) (enabled : Bool) :
    PoolLaws (mempoolOps txId transactions validate enabled) modifierById where
  keyed p id tx h := p.keyed id tx h
  put p tx p' h id := by
    cases h
    exact p.modifierById_put tx id
  putWithoutCheck p txs id := modifierById_putWithoutCheck txs p id
  filter p keep id := p.modifierById_filter keep id

end SimpleBoxTransactionMemPool

/-! ## What is pooled is valid -/

/-- The pool after a change of the state: the transactions of the removed modifiers
are put back, and what the new state rejects or an applied modifier contains goes. -/
theorem get?_updateMemPool {ops : NodeViewOps Id PMOD TX HIS MS VL MP} {get? : MP → Id → Option TX}
    (laws : PoolLaws ops.mempool get?)
    (henabled : ops.mempool.handlingTransactionsEnabled = true) (removed applied : List PMOD)
    (p : MP) (state : MS) (id : Id) :
    get? (updateMemPool ops removed applied p state) id
      = ((lastWithId ops.mempool.txId (removed.flatMap ops.mempool.transactions) id).or
          (get? p id)).filter fun tx =>
        !(applied.flatMap ops.mempool.transactions).any
            (fun t => ops.mempool.txId t = ops.mempool.txId tx) && isValid ops state tx := by
  simp only [updateMemPool, henabled, if_true, laws.filter, laws.putWithoutCheck]

/-- Each pooled transaction passes the validation of the state. -/
def PooledValid (ops : NodeViewOps Id PMOD TX HIS MS VL MP) (get? : MP → Id → Option TX)
    (h : Holder Id PMOD TX HIS MS VL MP) : Prop :=
  ∀ id tx, get? h.memoryPool id = some tx → isValid ops h.minimalState tx = true

theorem PooledValid.alters {ops : NodeViewOps Id PMOD TX HIS MS VL MP}
    {get? : MP → Id → Option TX} (laws : PoolLaws ops.mempool get?)
    (henabled : ops.mempool.handlingTransactionsEnabled = true)
    {h h' : Holder Id PMOD TX HIS MS VL MP} (hvalid : PooledValid ops get? h)
    (halters : Alters ops h h') : PooledValid ops get? h' := by
  cases halters with
  | modified hmod =>
    cases hmod with
    | known _ => exact hvalid
    | rejected _ _ => exact hvalid
    | extended _ _ => exact hvalid
    | notUpdated _ _ _ => exact hvalid
    | updated _ _ _ =>
      -- the whole pool is checked against the new state
      intro id tx htx
      simp only [updateNodeView, Holder.publish, Option.getD_some] at htx ⊢
      rw [get?_updateMemPool laws henabled, Option.filter_eq_some_iff, Bool.and_eq_true] at htx
      exact htx.2.2
  | transacted _ htransacts =>
    cases htransacts with
    | failed e => exact hvalid
    | pooled hok hput =>
      intro id tx htx
      simp only [updateNodeView, Holder.publish, Option.getD_some, Option.getD_none] at htx ⊢
      rw [laws.put _ _ _ hput] at htx
      split at htx
      · cases htx
        exact hok
      · exact hvalid id tx htx
  | eliminated ids =>
    intro id tx htx
    simp only [eliminate, updateNodeView, Holder.publish, Option.getD_some,
      Option.getD_none] at htx ⊢
    rw [laws.filter, Option.filter_eq_some_iff] at htx
    exact hvalid id tx htx.1
  | refused txs => exact hvalid
  | processed applied cleared => exact hvalid

/-- **What is pooled is valid**: where transactions are handled, and each pooled one
is valid before a run of messages, each pooled one is valid in the state after it. -/
theorem pooled_valid {ops : NodeViewOps Id PMOD TX HIS MS VL MP} {get? : MP → Id → Option TX}
    (laws : PoolLaws ops.mempool get?)
    (henabled : ops.mempool.handlingTransactionsEnabled = true)
    {node node' : Node Id PMOD TX HIS MS VL MP} (h : Leads ops node node')
    (hvalid : PooledValid ops get? node.holder) : PooledValid ops get? node'.holder :=
  h.changes.invariant (fun _ _ hP halters => hP.alters laws henabled halters) hvalid

/-! ## Nothing is dropped without a word -/

/-- The announcements that say why the transaction with this id is not pooled: an
applied modifier contains it, the new state does not accept it, or it failed. -/
inductive Explains (ops : NodeViewOps Id PMOD TX HIS MS VL MP) (id : Id) :
    Event Id PMOD TX HIS MS VL MP → Prop where
  | applied {pmod : PMOD} {tx : TX} : tx ∈ ops.mempool.transactions pmod →
      ops.mempool.txId tx = id → Explains ops id (.update (.semanticallySuccessfulModifier pmod))
  | invalid {state : MS} {tx : TX} : ops.mempool.txId tx = id → isValid ops state tx = false →
      Explains ops id (.changedState state)
  | failed (e : Throwable) (immediateFailure : Bool) :
      Explains ops id (.failedTransaction id e immediateFailure)

/-- Each transaction of `h` is still pooled in `h'`, or the events published between
them say why not. -/
def Accounted (ops : NodeViewOps Id PMOD TX HIS MS VL MP) (get? : MP → Id → Option TX)
    (h h' : Holder Id PMOD TX HIS MS VL MP) : Prop :=
  ∃ events, h'.published = h.published ++ events ∧
    ∀ id, (get? h.memoryPool id).isSome = true →
      (get? h'.memoryPool id).isSome = true ∨ ∃ event ∈ events, Explains ops id event

section

omit [DecidableEq Id]

theorem Accounted.kept {ops : NodeViewOps Id PMOD TX HIS MS VL MP} {get? : MP → Id → Option TX}
    {h h' : Holder Id PMOD TX HIS MS VL MP} {events : List (Event Id PMOD TX HIS MS VL MP)}
    (hpublished : h'.published = h.published ++ events) (hpool : h'.memoryPool = h.memoryPool) :
    Accounted ops get? h h' :=
  ⟨events, hpublished, fun _ hid => .inl (by rw [hpool]; exact hid)⟩

theorem Accounted.trans {ops : NodeViewOps Id PMOD TX HIS MS VL MP} {get? : MP → Id → Option TX}
    {h₁ h₂ h₃ : Holder Id PMOD TX HIS MS VL MP} (h : Accounted ops get? h₁ h₂)
    (h' : Accounted ops get? h₂ h₃) : Accounted ops get? h₁ h₃ := by
  obtain ⟨events, hpublished, hkept⟩ := h
  obtain ⟨events', hpublished', hkept'⟩ := h'
  refine ⟨events ++ events', by rw [hpublished', hpublished, List.append_assoc], ?_⟩
  intro id hid
  rcases hkept id hid with hpooled | ⟨event, hevent, hexplains⟩
  · rcases hkept' id hpooled with hpooled' | ⟨event, hevent, hexplains⟩
    · exact .inl hpooled'
    · exact .inr ⟨event, List.mem_append_right _ hevent, hexplains⟩
  · exact .inr ⟨event, List.mem_append_left _ hevent, hexplains⟩

end

/-- A transaction that the update of the pool drops is in an applied modifier, or the
new state rejects one with its id. -/
theorem updateMemPool_accounted {ops : NodeViewOps Id PMOD TX HIS MS VL MP}
    {get? : MP → Id → Option TX} (laws : PoolLaws ops.mempool get?) (removed applied : List PMOD)
    (p : MP) (state : MS) {id : Id} (hid : (get? p id).isSome = true) :
    (get? (updateMemPool ops removed applied p state) id).isSome = true
    ∨ (∃ pmod ∈ applied, ∃ tx ∈ ops.mempool.transactions pmod, ops.mempool.txId tx = id)
    ∨ ∃ tx, ops.mempool.txId tx = id ∧ isValid ops state tx = false := by
  by_cases henabled : ops.mempool.handlingTransactionsEnabled = true
  · rw [get?_updateMemPool laws henabled]
    -- the transaction under the id once those of the removed modifiers are back
    obtain ⟨tx, htx, htxid⟩ : ∃ tx, (lastWithId ops.mempool.txId
        (removed.flatMap ops.mempool.transactions) id).or (get? p id) = some tx
        ∧ ops.mempool.txId tx = id := by
      cases hlast : lastWithId ops.mempool.txId (removed.flatMap ops.mempool.transactions) id with
      | some tx => exact ⟨tx, rfl, by simpa using List.find?_some hlast⟩
      | none =>
        obtain ⟨tx, htx⟩ := Option.isSome_iff_exists.1 hid
        exact ⟨tx, by simp [htx], laws.keyed p id tx htx⟩
    rw [htx]
    by_cases hstate : isValid ops state tx = true
    · by_cases happlied : ∃ pmod ∈ applied, ∃ t ∈ ops.mempool.transactions pmod,
          ops.mempool.txId t = id
      · exact .inr (.inl happlied)
      · apply Or.inl
        rw [Option.filter_some, if_pos]
        · rfl
        · simp only [hstate, Bool.and_true, Bool.not_eq_true', List.any_eq_false,
            List.mem_flatMap, decide_eq_true_eq, forall_exists_index, and_imp]
          intro t pmod hpmod ht heq
          exact happlied ⟨pmod, hpmod, t, ht, heq.trans htxid⟩
    · exact .inr (.inr ⟨tx, htxid, by simpa using hstate⟩)
  · rw [updateMemPool, if_neg henabled]
    exact .inl hid

theorem Alters.accounted {ops : NodeViewOps Id PMOD TX HIS MS VL MP}
    {get? : MP → Id → Option TX} (laws : PoolLaws ops.mempool get?)
    {h h' : Holder Id PMOD TX HIS MS VL MP} (halters : Alters ops h h') :
    Accounted ops get? h h' := by
  cases halters with
  | modified hmod =>
    cases hmod with
    | known _ => exact .kept (List.append_nil _).symm rfl
    | rejected _ _ => exact .kept rfl rfl
    | extended _ _ =>
      exact .kept ((published_updateNodeView _ _ _ _ _).trans (List.append_assoc _ _ _)) rfl
    | notUpdated _ _ _ =>
      exact .kept ((published_updateNodeView _ _ _ _ _).trans (List.append_assoc _ _ _)) rfl
    | @updated history newHistory info fuel newState blocksApplied events newVault _ _ hupdate =>
      refine ⟨_, (published_updateNodeView _ _ _ _ _).trans (List.append_assoc _ _ _), ?_⟩
      intro id hid
      -- each applied modifier was announced
      have hannounced := (updateState_announced (P := fun _ => True) (fun _ _ _ _ _ => trivial)
        (fun _ _ _ _ _ _ _ => trivial) trivial hupdate).2
      rcases updateMemPool_accounted laws info.toRemove blocksApplied h.memoryPool newState hid with
        hpooled | ⟨pmod, hpmod, tx, htx, htxid⟩ | ⟨tx, htxid, hinvalid⟩
      · exact .inl hpooled
      · refine .inr ⟨_, ?_, .applied htx htxid⟩
        simp [hannounced pmod hpmod]
      · refine .inr ⟨.changedState newState, ?_, .invalid htxid hinvalid⟩
        simp [replaced]
  | @transacted tx _ _ htransacts =>
    cases htransacts with
    | failed e => exact .kept rfl rfl
    | @pooled newPool _ hput =>
      refine ⟨replaced none none (some (ops.vault.scanOffchain h.vault tx)) (some newPool)
        ++ [.successfulTransaction tx], ?_, ?_⟩
      · rw [Holder.publish, published_updateNodeView, List.append_assoc]
      · intro id hid
        apply Or.inl
        simp only [updateNodeView, Holder.publish, Option.getD_some, laws.put _ _ _ hput]
        split
        · rfl
        · exact hid
  | eliminated ids =>
    refine ⟨replaced none none none (some (ops.mempool.filter h.memoryPool fun tx =>
        !ids.contains (ops.mempool.txId tx)))
      ++ ids.map fun id => Event.failedTransaction id (.other "Became invalid") false, ?_, ?_⟩
    · rw [eliminate, Holder.publish, published_updateNodeView, List.append_assoc]
    · intro id hid
      obtain ⟨tx, htx⟩ := Option.isSome_iff_exists.1 hid
      have htxid := laws.keyed _ _ _ htx
      by_cases hmem : id ∈ ids
      · refine .inr ⟨_, ?_, .failed (.other "Became invalid") false⟩
        simp [hmem]
      · apply Or.inl
        simp [eliminate, updateNodeView, Holder.publish, laws.filter, htx, htxid, hmem]
  | refused txs => exact .kept rfl rfl
  | processed applied cleared => exact .kept rfl rfl

/-- **No transaction is dropped without a word**, in any run of messages: a transaction
that is pooled before it is pooled after it, or one of the announcements of the run
says that a modifier with it was applied, that a state came which does not accept it,
or that it failed. -/
theorem pooled_accounted {ops : NodeViewOps Id PMOD TX HIS MS VL MP} {get? : MP → Id → Option TX}
    (laws : PoolLaws ops.mempool get?) {node node' : Node Id PMOD TX HIS MS VL MP}
    (h : Leads ops node node') : Accounted ops get? node.holder node'.holder :=
  h.changes.invariant (P := Accounted ops get? node.holder)
    (fun _ _ hP halters => hP.trans (halters.accounted laws))
    (.kept (List.append_nil _).symm rfl)

/-! ## A ledger of numbers -/

/-- A node view over blocks of numbers.  The state is the list of the numbers spent,
and a number is valid as long as none with the same last digit is spent. -/
def spendingOps : NodeViewOps ℕ (ℕ × List ℕ) ℕ (List ℕ) (List ℕ) Unit
    (SimpleBoxTransactionMemPool (fun tx : ℕ => tx)) where
  chain :=
    { id := Prod.fst
      contains := fun history id => history.contains id
      applicableTry := fun _ _ => .ok ()
      append := fun history block =>
        .ok (block.1 :: history, ⟨none, [], [block], fun h => absurd rfl h⟩)
      reportModifierIsValid := fun history _ => .ok history
      reportModifierIsInvalid := fun history _ info => .ok (history, info)
      openSurfaceIds := fun history => history.take 1
      version := fun _ => 0
      applyModifier := fun spent block => .ok (spent ++ block.2)
      rollbackTo := fun spent _ => .ok spent }
  vault := ⟨fun _ _ => (), fun _ _ => (), fun _ _ => .ok ()⟩
  mempool := SimpleBoxTransactionMemPool.mempoolOps (fun tx => tx) Prod.snd
    (some fun spent tx =>
      if spent.all fun t => t % 10 ≠ tx % 10 then .ok () else .error (.other "double spend"))
    true

/-- A node with nothing spent and nothing pooled. -/
def unspentNode : Node ℕ (ℕ × List ℕ) ℕ (List ℕ) (List ℕ) Unit
    (SimpleBoxTransactionMemPool (fun tx : ℕ => tx)) :=
  ⟨.new 2 one_le_two, ⟨[0], [], (), .emptyPool, []⟩⟩

/-- The handling of a message, `node` itself when it is not handled. -/
def received (node : Node ℕ (ℕ × List ℕ) ℕ (List ℕ) (List ℕ) Unit
      (SimpleBoxTransactionMemPool (fun tx : ℕ => tx)))
    (message : Message ℕ (ℕ × List ℕ) ℕ) : Node ℕ (ℕ × List ℕ) ℕ (List ℕ) (List ℕ) Unit
      (SimpleBoxTransactionMemPool (fun tx : ℕ => tx)) :=
  match receive spendingOps 1 node message with
  | .value node' => node'
  | _ => node

/-- Three transactions are pooled, and a block with the first of them comes. -/
def spentNode : Node ℕ (ℕ × List ℕ) ℕ (List ℕ) (List ℕ) Unit
    (SimpleBoxTransactionMemPool (fun tx : ℕ => tx)) :=
  received (received unspentNode (.newTransactions [11, 21, 12])) (.modifiersFromRemote [(1, [11])])

theorem leads_spentNode : Leads spendingOps unspentNode spentNode :=
  .tail (.single ⟨1, .newTransactions [11, 21, 12], rfl⟩) ⟨1, .modifiersFromRemote [(1, [11])], rfl⟩

/-- What is left in the pool is valid. -/
theorem pooled_valid_spending :
    spentNode.holder.minimalState = [11]
    ∧ spentNode.holder.memoryPool.getAll [11, 21, 12] = [12]
    ∧ PooledValid spendingOps SimpleBoxTransactionMemPool.modifierById spentNode.holder :=
  ⟨rfl, rfl, pooled_valid (SimpleBoxTransactionMemPool.poolLaws _ _ _ _) rfl leads_spentNode
    fun _ _ h => by cases h⟩

/-- The two transactions that are gone are accounted for. -/
theorem pooled_accounted_spending :
    Accounted spendingOps SimpleBoxTransactionMemPool.modifierById
      (received unspentNode (.newTransactions [11, 21, 12])).holder spentNode.holder
    ∧ spentNode.holder.memoryPool.getAll [11, 21] = [] :=
  ⟨pooled_accounted (SimpleBoxTransactionMemPool.poolLaws _ _ _ _)
    (.single ⟨1, .modifiersFromRemote [(1, [11])], rfl⟩), rfl⟩

end Sparkz.NodeView
