import Sparkz.NodeView.UpdateState

/-!
# Validity reports and vault scans

Two laws about what the node view holder passes on while it applies modifiers,
and the runs on which it keeps them.

* **The validity reports** — the history returned is the one passed in with every
  report made on it in turn.  `applyState` makes each report on the history it was
  given, so of the reports of one round only the last survives: the law holds on
  runs with at most one report a round (`updateState_history`) and fails on two
  valid modifiers (`two_reports`).
* **The vault** — the vault stored is the previous one, rolled back if need be,
  after a scan of each applied block.  The results of the scans are dropped:
  `pmodModify_vault_iff` says that the law holds for a vault just when its scans
  change nothing, and on an update just when no block was applied; `scan_dropped`
  is one applied block.
-/

namespace Sparkz.NodeView

variable {Id PMOD TX HIS MS VL MP : Type} [DecidableEq Id]

/-! ## Reports -/

/-- A report to the history. -/
inductive Report (Id PMOD : Type) where
  | valid (modifier : PMOD)
  | invalid (modifier : PMOD) (progressInfo : ProgressInfo Id PMOD)

/-- Make a report on a history. -/
def makeReport (ops : ChainOps Id PMOD HIS MS) (history : HIS) :
    Report Id PMOD → Except Throwable HIS
  | .valid m => ops.reportModifierIsValid history m
  | .invalid m progressInfo =>
      (ops.reportModifierIsInvalid history m progressInfo).map Prod.fst

/-- The reports on modifiers processed from state `s` on: valid for each one that
could be applied, invalid for the first that could not. -/
def reportsFrom (ops : ChainOps Id PMOD HIS MS) (progressInfo : ProgressInfo Id PMOD) :
    MS → List PMOD → List (Report Id PMOD)
  | _, [] => []
  | s, m :: mods =>
      match ops.applyModifier s m with
      | .ok s' => .valid m :: reportsFrom ops progressInfo s' mods
      | .error _ => [.invalid m progressInfo]

/-- The reports of one round. -/
def roundReports (ops : ChainOps Id PMOD HIS MS) (r : Round Id PMOD HIS MS) :
    List (Report Id PMOD) :=
  match (stateToApply ops r).1 with
  | .ok s => reportsFrom ops r.progressInfo s r.progressInfo.toApply
  | .error _ => []

/-- The reports of a run, in the order of processing, across all alternatives. -/
def runReports (ops : ChainOps Id PMOD HIS MS) : ℕ → Round Id PMOD HIS MS → List (Report Id PMOD)
  | 0, _ => []
  | fuel + 1, r =>
      match (updateRound ops r).1 with
      | .inl next => roundReports ops r ++ runReports ops fuel next
      | .inr _ => roundReports ops r

/-- A round that processes at most one modifier: it has at most one to apply, or
the first one fails. -/
def SingleReport (ops : ChainOps Id PMOD HIS MS) (r : Round Id PMOD HIS MS) : Prop :=
  ∀ s, (stateToApply ops r).1 = .ok s →
    match r.progressInfo.toApply with
    | [] => True
    | [_] => True
    | m :: _ => ∃ e, ops.applyModifier s m = .error e

omit [DecidableEq Id] in
/-- With at most one modifier processed, the history that `applyState` returns is
the given one with the report on it. -/
theorem applyState_history {ops : ChainOps Id PMOD HIS MS} {history : HIS} {s : MS}
    {suffix : List PMOD} {progressInfo : ProgressInfo Id PMOD}
    {info : UpdateInformation Id PMOD HIS MS} {events : List (UpdateEvent PMOD)}
    (hsingle : match progressInfo.toApply with
      | [] => True
      | [_] => True
      | m :: _ => ∃ e, ops.applyModifier s m = .error e)
    (h : applyState ops history s suffix progressInfo = (.ok info, events)) :
    (reportsFrom ops progressInfo s progressInfo.toApply).foldlM (makeReport ops) history
      = .ok info.history := by
  unfold applyState at h
  cases hmods : progressInfo.toApply with
  | nil =>
    rw [hmods] at h
    cases h
    rfl
  | cons m mods =>
    rw [hmods, List.foldl_cons, applyStateStep] at h
    simp only [Option.isNone_none, if_true] at h
    split at h
    · rename_i s' happly
      -- the only modifier there is
      have hnil : mods = [] := by
        rw [hmods] at hsingle
        cases mods with
        | nil => rfl
        | cons m' mods' =>
          obtain ⟨e, he⟩ := hsingle
          rw [happly] at he
          cases he
      subst hnil
      split at h
      · rename_i newHis hreport
        cases h
        simp [reportsFrom, happly, makeReport, hreport]
      · cases h
    · rename_i e happly
      split at h
      · rename_i newHis newProgressInfo hreport
        rw [foldl_applyStateStep_failed _ _ _ rfl] at h
        cases h
        simp [reportsFrom, happly, makeReport, hreport, Except.map]
      · rw [foldl_applyStateStep_error] at h
        cases h

/-- One round with at most one report hands on, or returns, the history with it. -/
theorem updateRound_history {ops : ChainOps Id PMOD HIS MS} {r : Round Id PMOD HIS MS}
    (hsingle : SingleReport ops r) {result : Round Id PMOD HIS MS ⊕ UpdateResult PMOD HIS MS}
    {events : List (UpdateEvent PMOD)} (h : updateRound ops r = (result, events)) :
    (∀ next, result = .inl next →
      (roundReports ops r).foldlM (makeReport ops) r.history = .ok next.history)
    ∧ ∀ newHistory s suffix, result = .inr (.returned newHistory (.ok s) suffix) →
      (roundReports ops r).foldlM (makeReport ops) r.history = .ok newHistory := by
  unfold updateRound at h
  split at h
  · rename_i s suffix hto
    have hs : (stateToApply ops r).1 = .ok s := by rw [hto]
    have hreports : roundReports ops r
        = reportsFrom ops r.progressInfo s r.progressInfo.toApply := by
      rw [roundReports, hs]
    split at h
    · rename_i info events' happly
      have hinfo := applyState_history (hsingle s hs) happly
      rw [← hreports] at hinfo
      split at h
      · cases h
        refine ⟨?_, fun _ _ _ h => (by cases h)⟩
        rintro next ⟨⟩
        exact hinfo
      · cases h
        exact ⟨fun _ h => (by cases h), fun _ _ _ h => (by cases h)⟩
      · cases h
        refine ⟨fun _ h => (by cases h), ?_⟩
        rintro newHistory s suffix ⟨⟩
        exact hinfo
    · cases h
      exact ⟨fun _ h => (by cases h), fun _ _ _ h => (by cases h)⟩
  · cases h
    exact ⟨fun _ h => (by cases h), fun _ _ _ h => (by cases h)⟩

/-- **No report is lost**, on every run whose rounds each process at most one
modifier: the history returned is the one passed in with all reports of the run
made on it, each on the history that the previous one returned. -/
theorem updateState_history {ops : ChainOps Id PMOD HIS MS} {fuel : ℕ}
    {first : Round Id PMOD HIS MS} {newHistory : HIS} {s : MS} {suffix : List PMOD}
    {events : List (UpdateEvent PMOD)}
    (hsingle : ∀ r, Reaches ops first r → SingleReport ops r)
    (hrun : updateState ops fuel first = some (.returned newHistory (.ok s) suffix, events)) :
    (runReports ops fuel first).foldlM (makeReport ops) first.history = .ok newHistory := by
  have hgen : ∀ fuel r events, Reaches ops first r →
      updateState ops fuel r = some (.returned newHistory (.ok s) suffix, events) →
      (runReports ops fuel r).foldlM (makeReport ops) r.history = .ok newHistory := by
    intro fuel
    induction fuel with
    | zero => intro r events _ h; cases h
    | succ fuel ih =>
      intro r events hreach h
      rw [updateState] at h
      rw [runReports]
      split at h
      · rename_i next events₁ hround
        obtain ⟨⟨result, events'⟩, hres, heq⟩ := Option.map_eq_some_iff.1 h
        cases heq
        have hnext := (updateRound_history (hsingle r hreach) hround).1 next rfl
        simp only [hround, List.foldlM_append, hnext]
        exact ih next events' (hreach.tail hround) hres
      · rename_i result events₁ hround
        cases h
        simp only [hround]
        exact (updateRound_history (hsingle r hreach) hround).2 _ _ _ rfl
  exact hgen fuel first events .refl hrun

/-- A run with one block a round, where `updateState_history` applies: block `3`
fails and block `5` is applied instead. -/
theorem one_report_a_round :
    (runReports (logOps [3] restartAt5) 2
        ⟨[], [], ⟨none, [], [3], fun h => absurd rfl h⟩, []⟩).foldlM
        (makeReport (logOps [3] restartAt5)) []
      = .ok [(3, false), (5, true)] := by
  have hrun : updateState (logOps [3] restartAt5) 2
      ⟨[], [], ⟨none, [], [3], fun h => absurd rfl h⟩, []⟩
      = some (.returned [(3, false), (5, true)] (.ok [5]) [5], _) := rfl
  refine updateState_history ?_ hrun
  intro r hr
  rcases reaches_two ⟨[(3, false)], [], restartAt5, []⟩ rfl rfl hr with rfl | rfl
  · intro s _
    trivial
  · intro s _
    trivial

/-- Blocks `1` and `2` are applied in one round: the history returned knows of the
report on block `2` only. -/
theorem two_reports :
    (updateState (logOps [] restartAt5) 1
        ⟨[], [], ⟨none, [], [1, 2], fun h => absurd rfl h⟩, []⟩).map Prod.fst
        = some (.returned [(2, true)] (.ok [2, 1]) [1, 2])
      ∧ (runReports (logOps [] restartAt5) 1
          ⟨[], [], ⟨none, [], [1, 2], fun h => absurd rfl h⟩, []⟩).foldlM
          (makeReport (logOps [] restartAt5)) []
        = .ok [(1, true), (2, true)] :=
  ⟨rfl, rfl⟩

/-! ## The vault -/

/-- A successful update stores the vault that the scans start from. -/
theorem pmodModify_vault {ops : NodeViewOps Id PMOD TX HIS MS VL MP} {fuel : ℕ}
    {h : Holder Id PMOD TX HIS MS VL MP} {pmod : PMOD} {history newHistory : HIS}
    {progressInfo : ProgressInfo Id PMOD} {newState : MS} {blocksApplied : List PMOD}
    {events : List (UpdateEvent PMOD)} {base : VL}
    (hnew : ops.chain.contains h.history (ops.chain.id pmod) = false)
    (happend : ops.chain.append h.history pmod = .ok (history, progressInfo))
    (hne : progressInfo.toApply.isEmpty = false)
    (hupdate : updateState ops.chain fuel ⟨history, h.minimalState, progressInfo, []⟩
      = some (.returned newHistory (.ok newState) blocksApplied, events))
    (hbase : vaultToScan ops.vault h.vault progressInfo = .ok base) :
    ∃ h', pmodModify ops fuel h pmod = .value h' ∧ h'.vault = base := by
  unfold pmodModify
  simp only [Holder.publish, hnew, Bool.false_eq_true, if_false, happend, hne, hupdate, hbase]
  exact ⟨_, rfl, rfl⟩

/-- A successful update of the state in `pmodModify`: the modifier is new, its
append gives something to apply, and `updateState` ends with `blocksApplied`. -/
structure Updates (chain : ChainOps Id PMOD HIS MS) (fuel : ℕ) (history : HIS) (state : MS)
    (pmod : PMOD) (progressInfo : ProgressInfo Id PMOD) (blocksApplied : List PMOD) : Prop where
  isNew : chain.contains history (chain.id pmod) = false
  nonempty : progressInfo.toApply.isEmpty = false
  ends : ∃ history' newHistory newState events,
    chain.append history pmod = .ok (history', progressInfo)
    ∧ updateState chain fuel ⟨history', state, progressInfo, []⟩
      = some (.returned newHistory (.ok newState) blocksApplied, events)

/-- The law of the vault on one update: the vault stored is the fold of
`scanPersistent` over the applied blocks from the (rolled back) previous one. -/
def VaultFollows (chain : ChainOps Id PMOD HIS MS) (vault : VaultOps Id PMOD TX VL)
    (mempool : MempoolOps Id PMOD TX MS MP) (fuel : ℕ) (history : HIS) (state : MS) (pool : MP)
    (pmod : PMOD) (progressInfo : ProgressInfo Id PMOD) (blocksApplied : List PMOD) : Prop :=
  ∀ (v base : VL) (published : List (Event Id PMOD TX HIS MS VL MP)),
    vaultToScan vault v progressInfo = .ok base →
    ∃ h', pmodModify ⟨chain, vault, mempool⟩ fuel ⟨history, state, v, pool, published⟩ pmod
        = .value h'
      ∧ h'.vault = blocksApplied.foldl vault.scanPersistent base

/-- On one update the law says that the scans change nothing. -/
theorem vaultFollows_iff {chain : ChainOps Id PMOD HIS MS} {vault : VaultOps Id PMOD TX VL}
    {mempool : MempoolOps Id PMOD TX MS MP} {fuel : ℕ} {history : HIS} {state : MS} {pool : MP}
    {pmod : PMOD} {progressInfo : ProgressInfo Id PMOD} {blocksApplied : List PMOD}
    (h : Updates chain fuel history state pmod progressInfo blocksApplied) :
    VaultFollows chain vault mempool fuel history state pool pmod progressInfo blocksApplied
      ↔ ∀ v base, vaultToScan vault v progressInfo = .ok base →
        blocksApplied.foldl vault.scanPersistent base = base := by
  obtain ⟨history', newHistory, newState, events, happend, hupdate⟩ := h.ends
  have hstored : ∀ v base (published : List (Event Id PMOD TX HIS MS VL MP)),
      vaultToScan vault v progressInfo = .ok base →
      ∃ h', pmodModify ⟨chain, vault, mempool⟩ fuel ⟨history, state, v, pool, published⟩ pmod
          = .value h' ∧ h'.vault = base := by
    intro v base published hbase
    let ops : NodeViewOps Id PMOD TX HIS MS VL MP := ⟨chain, vault, mempool⟩
    let holder : Holder Id PMOD TX HIS MS VL MP := ⟨history, state, v, pool, published⟩
    have hnew : ops.chain.contains holder.history (ops.chain.id pmod) = false := h.isNew
    exact pmodModify_vault hnew happend h.nonempty hupdate hbase
  constructor
  · intro hlaw v base hbase
    obtain ⟨h', hh', hfold⟩ := hlaw v base [] hbase
    obtain ⟨h'', hh'', hv⟩ := hstored v base [] hbase
    rw [hh'] at hh''
    cases hh''
    rw [← hfold, hv]
  · intro hfold v base published hbase
    obtain ⟨h', hh', hv⟩ := hstored v base published hbase
    exact ⟨h', hh', by rw [hv, hfold v base hbase]⟩

/-- A vault that writes down what it scans. -/
def logVault (Id PMOD TX : Type) : VaultOps Id PMOD TX (List PMOD) where
  scanOffchain v _ := v
  scanPersistent v m := v ++ [m]
  rollback v _ := .ok v

section

omit [DecidableEq Id]

theorem foldl_logVault (l acc : List PMOD) :
    l.foldl (logVault Id PMOD TX).scanPersistent acc = acc ++ l := by
  induction l generalizing acc with
  | nil => simp
  | cons m l ih => rw [List.foldl_cons, ih]; simp [logVault]

theorem vaultToScan_logVault (v : List PMOD) (progressInfo : ProgressInfo Id PMOD) :
    vaultToScan (logVault Id PMOD TX) v progressInfo = .ok v := by
  unfold vaultToScan
  split
  · rename_i hswitch
    have hsome := progressInfo.branchPoint_isSome (by
      simpa [ProgressInfo.chainSwitchingNeeded] using hswitch)
    obtain ⟨b, hb⟩ := Option.isSome_iff_exists.1 hsome
    rw [hb]
    rfl
  · rfl

end

/-- A chain with nothing in it, to which each modifier can be applied. -/
def emptyChain (Id PMOD : Type) [Inhabited Id] : ChainOps Id PMOD Unit Unit where
  id _ := default
  contains _ _ := false
  applicableTry _ _ := .ok ()
  append _ m := .ok ((), ⟨none, [], [m], fun h => absurd rfl h⟩)
  reportModifierIsValid _ _ := .ok ()
  reportModifierIsInvalid _ _ progressInfo := .ok ((), progressInfo)
  openSurfaceIds _ := []
  version _ := default
  applyModifier _ _ := .ok ()
  rollbackTo _ _ := .ok ()

/-- A memory pool that ignores transactions. -/
def noMempool (Id PMOD TX MS : Type) [Inhabited Id] : MempoolOps Id PMOD TX MS Unit where
  txId _ := default
  transactions _ := []
  validate := none
  put _ _ := .ok ()
  putWithoutCheck _ _ := ()
  filter _ _ := ()
  handlingTransactionsEnabled := false

theorem emptyChain_updates [Inhabited Id] (m : PMOD) :
    Updates (emptyChain Id PMOD) 1 () () m ⟨none, [], [m], fun h => absurd rfl h⟩ [m] where
  isNew := rfl
  nonempty := rfl
  ends := ⟨(), (), (), _, rfl, rfl⟩

/-- **The vault does not follow the applied blocks.**  An implementation of `Vault`
keeps the law on every successful update if and only if its `scanPersistent` leaves
each vault as it is; and a successful update keeps it with every implementation if
and only if no block was applied. -/
theorem pmodModify_vault_iff [Inhabited Id] :
    (∀ (VL : Type) (vault : VaultOps Id PMOD TX VL),
      (∀ (HIS MS MP : Type) (chain : ChainOps Id PMOD HIS MS)
          (mempool : MempoolOps Id PMOD TX MS MP) (fuel : ℕ) (history : HIS) (state : MS)
          (pool : MP) (pmod : PMOD) (progressInfo : ProgressInfo Id PMOD)
          (blocksApplied : List PMOD),
        Updates chain fuel history state pmod progressInfo blocksApplied →
        VaultFollows chain vault mempool fuel history state pool pmod progressInfo blocksApplied)
        ↔ ∀ v m, vault.scanPersistent v m = v)
    ∧ ∀ (HIS MS MP : Type) (chain : ChainOps Id PMOD HIS MS)
        (mempool : MempoolOps Id PMOD TX MS MP) (fuel : ℕ) (history : HIS) (state : MS)
        (pool : MP) (pmod : PMOD) (progressInfo : ProgressInfo Id PMOD)
        (blocksApplied : List PMOD),
      Updates chain fuel history state pmod progressInfo blocksApplied →
      ((∀ (VL : Type) (vault : VaultOps Id PMOD TX VL),
          VaultFollows chain vault mempool fuel history state pool pmod progressInfo blocksApplied)
        ↔ blocksApplied = []) := by
  constructor
  · intro VL vault
    constructor
    · intro hlaw v m
      have h := hlaw Unit Unit Unit (emptyChain Id PMOD) (noMempool Id PMOD TX Unit) 1 () () () m
        _ _ (emptyChain_updates m)
      exact (vaultFollows_iff (emptyChain_updates m)).1 h v v rfl
    · intro hid HIS MS MP chain mempool fuel history state pool pmod progressInfo blocks h
      refine (vaultFollows_iff h).2 fun v base _ => ?_
      clear h
      induction blocks with
      | nil => rfl
      | cons m blocks ih => rw [List.foldl_cons, hid, ih]
  · intro HIS MS MP chain mempool fuel history state pool pmod progressInfo blocks h
    constructor
    · intro hlaw
      have hfold := (vaultFollows_iff h).1 (hlaw (List PMOD) (logVault Id PMOD TX)) [] []
        (vaultToScan_logVault [] progressInfo)
      rw [foldl_logVault] at hfold
      simpa using hfold
    · rintro rfl VL vault
      exact (vaultFollows_iff h).2 fun _ _ _ => rfl

/-- Block `1` is applied and the vault, which notes each scanned block, stays empty. -/
theorem scan_dropped :
    Updates (emptyChain ℕ ℕ) 1 () () 1 ⟨none, [], [1], fun h => absurd rfl h⟩ [1]
    ∧ (∃ h', pmodModify ⟨emptyChain ℕ ℕ, logVault ℕ ℕ Unit, noMempool ℕ ℕ Unit Unit⟩ 1
          ⟨(), (), [], (), []⟩ 1 = .value h'
        ∧ h'.vault = [])
    ∧ [1].foldl (logVault ℕ ℕ Unit).scanPersistent [] = [1]
    ∧ ¬ VaultFollows (emptyChain ℕ ℕ) (logVault ℕ ℕ Unit) (noMempool ℕ ℕ Unit Unit) 1 () () ()
        1 ⟨none, [], [1], fun h => absurd rfl h⟩ [1] := by
  refine ⟨emptyChain_updates 1, ⟨_, rfl, rfl⟩, rfl, ?_⟩
  intro hlaw
  have h := (vaultFollows_iff (emptyChain_updates 1)).1 hlaw [] [] rfl
  cases h

end Sparkz.NodeView
