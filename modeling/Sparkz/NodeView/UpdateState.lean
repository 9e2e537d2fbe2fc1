import Sparkz.NodeView.Holder

/-!
# The suffix that an update of the state applies

`updateState` is meant to return the modifiers that lead from the state at the
branch point to the new state.  `trimChainSuffix` keeps the part of the suffix
*from* the rollback point on instead of the part up to it, so this holds on runs
whose rollbacks all go back behind the applied suffix and fails after a rollback
into it.

* `Reaches`, `updateState_induct` — the rounds of a run, and induction over a run
  that ends.
* `applyAll` — modifiers applied in order; `foldl_applyStateStep_path` says that a
  round appends to the suffix what it applied.
* `updateState_suffix` — the returned suffix is what was applied, when every chain
  switch goes back behind it (`BehindSuffix`).
* `rollback_into_suffix` — a run in which it is not.
-/

namespace Sparkz.NodeView

variable {Id PMOD TX HIS MS VL MP : Type} [DecidableEq Id]

/-! ## Runs of `updateState` -/

/-- The rounds that the run of `updateState` from `first` goes through. -/
inductive Reaches (ops : ChainOps Id PMOD HIS MS) (first : Round Id PMOD HIS MS) :
    Round Id PMOD HIS MS → Prop where
  | refl : Reaches ops first first
  | tail {r next : Round Id PMOD HIS MS} {events : List (UpdateEvent PMOD)} :
      Reaches ops first r → updateRound ops r = (.inl next, events) → Reaches ops first next

/-- Induction over a run that ends with a result: a property of rounds that each
tail call keeps holds of the last round, the one that gives the result. -/
theorem updateState_induct {ops : ChainOps Id PMOD HIS MS}
    {P : Round Id PMOD HIS MS → Prop}
    (hstep : ∀ r next events, P r → updateRound ops r = (.inl next, events) → P next)
    {fuel : ℕ} {r : Round Id PMOD HIS MS} {result : UpdateResult PMOD HIS MS}
    {events : List (UpdateEvent PMOD)} (hr : P r)
    (hrun : updateState ops fuel r = some (result, events)) :
    ∃ last events', P last ∧ updateRound ops last = (.inr result, events') := by
  induction fuel generalizing r events with
  | zero => cases hrun
  | succ fuel ih =>
    rw [updateState] at hrun
    split at hrun
    · rename_i next events₁ hround
      obtain ⟨⟨result', events'⟩, hres, heq⟩ := Option.map_eq_some_iff.1 hrun
      cases heq
      exact ih (hstep r next events₁ hr hround) hres
    · rename_i result' events₁ hround
      cases hrun
      exact ⟨r, _, hr, hround⟩

/-! ## The fold of `applyState` -/

/-- Apply modifiers in order, stopping at the first failure. -/
def applyAll (ops : ChainOps Id PMOD HIS MS) (base : MS) (path : List PMOD) :
    Except Throwable MS :=
  path.foldlM ops.applyModifier base

section

omit [DecidableEq Id]

@[simp] theorem applyAll_nil (ops : ChainOps Id PMOD HIS MS) (base : MS) :
    applyAll ops base [] = .ok base := rfl

theorem applyAll_cons_ok {ops : ChainOps Id PMOD HIS MS} {base s : MS} {m : PMOD}
    (h : ops.applyModifier base m = .ok s) (path : List PMOD) :
    applyAll ops base (m :: path) = applyAll ops s path := by
  rw [applyAll, List.foldlM_cons, h]
  rfl

theorem applyAll_cons_error {ops : ChainOps Id PMOD HIS MS} {base : MS} {m : PMOD}
    {e : Throwable} (h : ops.applyModifier base m = .error e) (path : List PMOD) :
    applyAll ops base (m :: path) = .error e := by
  rw [applyAll, List.foldlM_cons, h]
  rfl

theorem applyAll_append {ops : ChainOps Id PMOD HIS MS} {base s : MS}
    {path : List PMOD} (h : applyAll ops base path = .ok s) (path' : List PMOD) :
    applyAll ops base (path ++ path') = applyAll ops s path' := by
  rw [applyAll] at h
  rw [applyAll, List.foldlM_append, h]
  rfl

theorem foldl_applyStateStep_error (ops : ChainOps Id PMOD HIS MS) (history : HIS)
    (progressInfo : ProgressInfo Id PMOD) (ex : Throwable)
    (events : List (UpdateEvent PMOD)) (mods : List PMOD) :
    mods.foldl (applyStateStep ops history progressInfo) (.error ex, events)
      = (.error ex, events) := by
  induction mods with
  | nil => rfl
  | cons m mods ih => exact ih

/-- Once a modifier has failed, the rest of the fold does nothing. -/
theorem foldl_applyStateStep_failed (ops : ChainOps Id PMOD HIS MS) (history : HIS)
    (progressInfo : ProgressInfo Id PMOD) {info : UpdateInformation Id PMOD HIS MS}
    (hfailed : info.failedMod.isNone = false) (events : List (UpdateEvent PMOD))
    (mods : List PMOD) :
    mods.foldl (applyStateStep ops history progressInfo) (.ok info, events)
      = (.ok info, events) := by
  induction mods with
  | nil => rfl
  | cons m mods ih =>
    rw [List.foldl_cons, applyStateStep]
    simp only [hfailed, Bool.false_eq_true, if_false]
    exact ih

end

omit [DecidableEq Id] in
/-- The fold appends to the suffix exactly the modifiers that it applied. -/
theorem foldl_applyStateStep_path {ops : ChainOps Id PMOD HIS MS} {history : HIS}
    {progressInfo : ProgressInfo Id PMOD} {mods : List PMOD} {h₀ : HIS} {s : MS}
    {suffix : List PMOD} {events events' : List (UpdateEvent PMOD)}
    {info : UpdateInformation Id PMOD HIS MS}
    (h : mods.foldl (applyStateStep ops history progressInfo)
      (.ok ⟨h₀, s, none, none, suffix⟩, events) = (.ok info, events')) :
    ∃ done, info.suffix = suffix ++ done ∧ applyAll ops s done = .ok info.state := by
  induction mods generalizing h₀ s suffix events with
  | nil =>
    cases h
    exact ⟨[], by simp, rfl⟩
  | cons m mods ih =>
    rw [List.foldl_cons, applyStateStep] at h
    simp only [Option.isNone_none, if_true] at h
    split at h
    · rename_i s' happly
      split at h
      · obtain ⟨done, hsuffix, hdone⟩ := ih h
        refine ⟨m :: done, by rw [hsuffix, List.append_assoc, List.singleton_append], ?_⟩
        rw [applyAll_cons_ok happly]
        exact hdone
      · rw [foldl_applyStateStep_error] at h
        cases h
    · split at h
      · rw [foldl_applyStateStep_failed _ _ _ rfl] at h
        cases h
        exact ⟨[], by simp, rfl⟩
      · rw [foldl_applyStateStep_error] at h
        cases h

/-! ## The applied suffix -/

/-- Applying a modifier sets the version to its id. -/
def VersionIsId (ops : ChainOps Id PMOD HIS MS) : Prop :=
  ∀ s m s', ops.applyModifier s m = .ok s' → ops.version s' = ops.id m

/-- A rollback to a version on the applied path succeeds and restores a state of
that path with that version. -/
def RollbackRestores (ops : ChainOps Id PMOD HIS MS) : Prop :=
  ∀ base path s v, applyAll ops base path = .ok s →
    (∃ i s', applyAll ops base (path.take i) = .ok s' ∧ ops.version s' = v) →
    ∃ i s', applyAll ops base (path.take i) = .ok s' ∧ ops.version s' = v
      ∧ ops.rollbackTo s v = .ok s'

/-- The state at the initial branch point: the initial state when no chain switch
is needed, the state that the first rollback leads to otherwise. -/
def BranchState (ops : ChainOps Id PMOD HIS MS) (history : HIS) (state : MS)
    (progressInfo : ProgressInfo Id PMOD) (base : MS) : Prop :=
  (stateToApply ops ⟨history, state, progressInfo, []⟩).1 = .ok base

/-- The branch point of a round, if it switches chains, is not earlier than the
initial one: it is the version of the state `base` at the initial branch point or
lies on the path applied since. -/
def NotEarlier (ops : ChainOps Id PMOD HIS MS) (base : MS)
    (r : Round Id PMOD HIS MS) : Prop :=
  ∀ b, r.progressInfo.chainSwitchingNeeded = true → r.progressInfo.branchPoint = some b →
    b = ops.version base ∨ b ∈ r.suffixApplied.map ops.id

/-- The branch point of a round, if it switches chains, is none of the modifiers
applied so far. -/
def BehindSuffix (ops : ChainOps Id PMOD HIS MS) (r : Round Id PMOD HIS MS) : Prop :=
  ∀ b, r.progressInfo.chainSwitchingNeeded = true → r.progressInfo.branchPoint = some b →
    b ∉ r.suffixApplied.map ops.id

omit [DecidableEq Id] in
/-- After a non-empty path, the version is the id of its last modifier. -/
theorem version_mem_of_applyAll {ops : ChainOps Id PMOD HIS MS} (hver : VersionIsId ops)
    {base s : MS} {path : List PMOD} (hpath : applyAll ops base path = .ok s)
    (hne : path ≠ []) : ops.version s ∈ path.map ops.id := by
  induction path generalizing base with
  | nil => exact absurd rfl hne
  | cons m path ih =>
    cases happly : ops.applyModifier base m with
    | error e =>
      rw [applyAll_cons_error happly] at hpath
      cases hpath
    | ok s₁ =>
      rw [applyAll_cons_ok happly] at hpath
      cases path with
      | nil =>
        cases hpath
        simp [hver base m s happly]
      | cons m' path =>
        exact List.mem_cons_of_mem _ (ih hpath (List.cons_ne_nil _ _))

omit [DecidableEq Id] in
/-- The only state on the path with a version that no modifier of the path sets is
the first one. -/
theorem eq_base_of_version_notMem {ops : ChainOps Id PMOD HIS MS}
    (hver : VersionIsId ops) {base s' : MS} {path : List PMOD} {i : ℕ}
    (hpath : applyAll ops base (path.take i) = .ok s')
    (hnot : ops.version s' ∉ path.map ops.id) : s' = base := by
  by_cases hne : path.take i = []
  · rw [hne] at hpath
    cases hpath
    rfl
  · refine absurd ?_ hnot
    obtain ⟨m, hm, hid⟩ := List.mem_map.1 (version_mem_of_applyAll hver hpath hne)
    exact List.mem_map.2 ⟨m, List.mem_of_mem_take hm, hid⟩

theorem trimChainSuffix_of_notMem {ops : ChainOps Id PMOD HIS MS}
    {suffix : List PMOD} {b : Id} (h : b ∉ suffix.map ops.id) :
    trimChainSuffix ops suffix b = [] := by
  have hnone : suffix.findIdx? (fun m => ops.id m = b) = none := by
    rw [List.findIdx?_eq_none_iff]
    intro m hm
    simpa using fun hid => h (List.mem_map.2 ⟨m, hm, hid⟩)
  rw [trimChainSuffix, hnone]

/-- What every round of a run is about: the suffix leads from `base` to the state. -/
def SuffixApplied (ops : ChainOps Id PMOD HIS MS) (base : MS)
    (r : Round Id PMOD HIS MS) : Prop :=
  applyAll ops base r.suffixApplied = .ok r.state

/-- A rollback behind the suffix leads back to `base` and trims everything. -/
theorem stateToApply_path {ops : ChainOps Id PMOD HIS MS} (hver : VersionIsId ops)
    (hroll : RollbackRestores ops) {base s : MS} {suffix : List PMOD} {r : Round Id PMOD HIS MS}
    (hpath : SuffixApplied ops base r) (hearly : NotEarlier ops base r)
    (hbehind : BehindSuffix ops r) (hto : stateToApply ops r = (.ok s, suffix)) :
    applyAll ops base suffix = .ok s := by
  unfold stateToApply at hto
  split at hto
  · rename_i hswitch
    split at hto
    · cases hto
    · rename_i b hb
      have hnot := hbehind b hswitch hb
      have hbase : b = ops.version base := (hearly b hswitch hb).resolve_right hnot
      split at hto
      · rw [trimChainSuffix_of_notMem hnot] at hto
        obtain ⟨hrb, hnil⟩ := Prod.mk.inj hto
        subst hnil
        obtain ⟨i, s', htake, hv, hback⟩ := hroll base _ _ b hpath ⟨0, base, rfl, hbase.symm⟩
        rw [hrb] at hback
        cases hback
        rw [eq_base_of_version_notMem hver htake (hv ▸ hnot)]
        rfl
      · rename_i hversion
        cases hto
        -- the version is that of `base`, so nothing has been applied yet
        have hempty : r.suffixApplied = [] := by
          by_contra hne
          exact hnot (not_not.1 hversion ▸ version_mem_of_applyAll hver hpath hne)
        rw [SuffixApplied, hempty] at hpath
        exact hpath
  · cases hto
    exact hpath

/-- A round that starts with the right suffix hands on, or returns, the right
suffix. -/
theorem updateRound_path {ops : ChainOps Id PMOD HIS MS} {base s : MS}
    {suffix : List PMOD} {r : Round Id PMOD HIS MS}
    (hto : stateToApply ops r = (.ok s, suffix))
    (hpath : applyAll ops base suffix = .ok s) :
    (∀ next events, updateRound ops r = (.inl next, events) → SuffixApplied ops base next)
    ∧ ∀ history s' suffix' events,
        updateRound ops r = (.inr (.returned history (.ok s') suffix'), events) →
        applyAll ops base suffix' = .ok s' := by
  have hinfo : ∀ info events,
      applyState ops r.history s suffix r.progressInfo = (.ok info, events) →
      applyAll ops base info.suffix = .ok info.state := by
    intro info events happly
    obtain ⟨done, hsuffix, hdone⟩ := foldl_applyStateStep_path happly
    rw [hsuffix, applyAll_append hpath]
    exact hdone
  unfold updateRound
  rw [hto]
  simp only
  split
  · rename_i info events happly
    split
    · refine ⟨fun next events' h => ?_, fun _ _ _ _ h => (by cases h)⟩
      cases h
      exact hinfo info _ happly
    · exact ⟨fun _ _ h => (by cases h), fun _ _ _ _ h => (by cases h)⟩
    · refine ⟨fun _ _ h => (by cases h), fun history s' suffix' events' h => ?_⟩
      cases h
      exact hinfo info _ happly
  · exact ⟨fun _ _ h => (by cases h), fun _ _ _ _ h => (by cases h)⟩

/-- The first round starts from `base` with nothing applied. -/
theorem stateToApply_first {ops : ChainOps Id PMOD HIS MS} {history : HIS}
    {state base : MS} {progressInfo : ProgressInfo Id PMOD}
    (hbase : BranchState ops history state progressInfo base) :
    stateToApply ops ⟨history, state, progressInfo, []⟩ = (.ok base, []) := by
  refine Prod.ext hbase ?_
  unfold stateToApply
  split
  · split
    · rfl
    · split <;> rfl
  · rfl

/-- **The returned suffix is what was applied**, on every run whose chain switches
all go back behind the suffix: from the state at the initial branch point, the
returned modifiers in order lead exactly to the new state. -/
theorem updateState_suffix {ops : ChainOps Id PMOD HIS MS} (hver : VersionIsId ops)
    (hroll : RollbackRestores ops) {fuel : ℕ} {history newHistory : HIS} {state base s : MS}
    {progressInfo : ProgressInfo Id PMOD} {suffix : List PMOD}
    {events : List (UpdateEvent PMOD)}
    (hbase : BranchState ops history state progressInfo base)
    (hearly : ∀ r, Reaches ops ⟨history, state, progressInfo, []⟩ r → NotEarlier ops base r)
    (hbehind : ∀ r, Reaches ops ⟨history, state, progressInfo, []⟩ r → BehindSuffix ops r)
    (hrun : updateState ops fuel ⟨history, state, progressInfo, []⟩
      = some (.returned newHistory (.ok s) suffix, events)) :
    applyAll ops base suffix = .ok s := by
  set first : Round Id PMOD HIS MS := ⟨history, state, progressInfo, []⟩ with hfirst
  have hnil : applyAll ops base [] = .ok base := rfl
  have hpathFirst := updateRound_path (stateToApply_first hbase) hnil
  have hround : ∀ r, SuffixApplied ops base r → Reaches ops first r → ∀ result events',
      updateRound ops r = (result, events') →
      (∀ next, result = .inl next → SuffixApplied ops base next)
      ∧ ∀ h' s' suffix', result = .inr (.returned h' (.ok s') suffix') →
          applyAll ops base suffix' = .ok s' := by
    intro r hpath hreach result events' hr
    cases hto : stateToApply ops r with
    | mk outcome trimmed =>
      cases outcome with
      | error e =>
        rw [updateRound, hto] at hr
        cases hr
        exact ⟨fun _ h => (by cases h), fun _ _ _ h => (by cases h)⟩
      | ok s₁ =>
        have hs₁ := stateToApply_path hver hroll hpath (hearly r hreach) (hbehind r hreach) hto
        obtain ⟨hnext, hret⟩ := updateRound_path hto hs₁
        exact ⟨fun next h => hnext next events' (h ▸ hr),
          fun h' s' suffix' h => hret h' s' suffix' events' (h ▸ hr)⟩
  cases fuel with
  | zero => cases hrun
  | succ fuel =>
    rw [updateState] at hrun
    split at hrun
    · rename_i next events₁ hnext
      obtain ⟨⟨result', events'⟩, hres, heq⟩ := Option.map_eq_some_iff.1 hrun
      cases heq
      obtain ⟨last, events₂, ⟨hlast, hreach⟩, hfinal⟩ := updateState_induct
        (P := fun r => SuffixApplied ops base r ∧ Reaches ops first r)
        (fun r next events' hr h => ⟨(hround r hr.1 hr.2 _ _ h).1 next rfl, hr.2.tail h⟩)
        ⟨hpathFirst.1 next events₁ hnext, Reaches.refl.tail hnext⟩ hres
      exact (hround last hlast hreach _ _ hfinal).2 _ _ _ rfl
    · rename_i result' events₁ hdone
      cases hrun
      exact hpathFirst.2 _ _ _ _ hdone

/-! ### A chain of numbered blocks -/

theorem nothing_removed : ([] : List ℕ) ≠ [] → (none : Option ℕ).isSome := fun h => absurd rfl h

/-- A concrete chain for the examples: blocks are numbers, a state is the list of
the blocks applied, newest first, `0` is the version before any block, and a
history is the list of the reports made on it.  The blocks in `bad` cannot be
applied; the history answers a failure with `alternative`. -/
def logOps (bad : List ℕ) (alternative : ProgressInfo ℕ ℕ) :
    ChainOps ℕ ℕ (List (ℕ × Bool)) (List ℕ) where
  id := fun m => m
  contains := fun _ _ => false
  applicableTry := fun _ _ => .ok ()
  append := fun h m => .ok (h, ⟨none, [], [m], nothing_removed⟩)
  reportModifierIsValid := fun h m => .ok (h ++ [(m, true)])
  reportModifierIsInvalid := fun h m _ => .ok (h ++ [(m, false)], alternative)
  openSurfaceIds := fun _ => []
  version := fun s => s.headD 0
  applyModifier := fun s m => if m ∈ bad then .error (.other "bad block") else .ok (m :: s)
  rollbackTo := fun s v =>
    match s.dropWhile fun m => m ≠ v with
    | [] => if v = 0 then .ok [] else .error (.other "no such version")
    | m :: s' => .ok (m :: s')

theorem logOps_applyModifier {bad : List ℕ} {alternative : ProgressInfo ℕ ℕ} {s s' : List ℕ}
    {m : ℕ} (h : (logOps bad alternative).applyModifier s m = .ok s') : s' = m :: s := by
  simp only [logOps] at h
  split at h
  · cases h
  · cases h
    rfl

theorem versionIsId_logOps (bad : List ℕ) (alternative : ProgressInfo ℕ ℕ) :
    VersionIsId (logOps bad alternative) := by
  intro s m s' h
  rw [logOps_applyModifier h]
  rfl

theorem logOps_applyAll {bad : List ℕ} {alternative : ProgressInfo ℕ ℕ} {path base s : List ℕ}
    (h : applyAll (logOps bad alternative) base path = .ok s) : s = path.reverse ++ base := by
  induction path generalizing base with
  | nil =>
    cases h
    rfl
  | cons m path ih =>
    cases happly : (logOps bad alternative).applyModifier base m with
    | error e =>
      rw [applyAll_cons_error happly] at h
      cases h
    | ok s₁ =>
      rw [applyAll_cons_ok happly] at h
      rw [ih h, logOps_applyModifier happly]
      simp

omit [DecidableEq Id] in
/-- The part of an applied path up to some point was applied too. -/
theorem applyAll_take {ops : ChainOps Id PMOD HIS MS} {base s : MS} {path : List PMOD}
    (h : applyAll ops base path = .ok s) (i : ℕ) :
    ∃ s', applyAll ops base (path.take i) = .ok s' := by
  induction path generalizing base i with
  | nil => exact ⟨base, by simp⟩
  | cons m path ih =>
    cases i with
    | zero => exact ⟨base, by simp⟩
    | succ i =>
      cases happly : ops.applyModifier base m with
      | error e =>
        rw [applyAll_cons_error happly] at h
        cases h
      | ok s₁ =>
        rw [applyAll_cons_ok happly] at h
        obtain ⟨s', hs'⟩ := ih h i
        exact ⟨s', by rw [List.take_succ_cons, applyAll_cons_ok happly, hs']⟩

/-- Dropping blocks until the version fits stops at the newest point of the path
that has it. -/
theorem logOps_rollbackTo (bad : List ℕ) (alternative : ProgressInfo ℕ ℕ) {base : List ℕ} {v : ℕ}
    (path : List ℕ) (h : ∃ i, ((path.take i).reverse ++ base).headD 0 = v) :
    ∃ i, ((path.take i).reverse ++ base).headD 0 = v
      ∧ (logOps bad alternative).rollbackTo (path.reverse ++ base) v
        = .ok ((path.take i).reverse ++ base) := by
  induction path using List.reverseRecOn with
  | nil =>
    obtain ⟨i, hi⟩ := h
    refine ⟨0, by simpa using hi, ?_⟩
    cases base with
    | nil =>
      have hv : v = 0 := by simpa using hi.symm
      simp [logOps, hv]
    | cons m base =>
      have hv : m = v := by simpa using hi
      simp [logOps, hv]
  | append_singleton path m ih =>
    by_cases hm : m = v
    · have htake : (path ++ [m]).take (path.length + 1) = path ++ [m] :=
        List.take_of_length_le (by simp)
      refine ⟨path.length + 1, by rw [htake]; simp [hm], ?_⟩
      rw [htake]
      simp [logOps, hm]
    · obtain ⟨i, hi⟩ := h
      have hle : i ≤ path.length := by
        by_contra hlt
        rw [List.take_of_length_le (by simp; omega)] at hi
        exact hm (by simpa using hi)
      obtain ⟨j, hj, hback⟩ := ih ⟨i, by rwa [List.take_append_of_le_length hle] at hi⟩
      have htake : (path ++ [m]).take (min j path.length) = path.take j := by
        rw [List.take_append_of_le_length (min_le_right _ _), List.take_eq_take_iff]
        omega
      refine ⟨min j path.length, by rw [htake]; exact hj, ?_⟩
      rw [htake, ← hback]
      simp [logOps, hm]

theorem rollbackRestores_logOps (bad : List ℕ) (alternative : ProgressInfo ℕ ℕ) :
    RollbackRestores (logOps bad alternative) := by
  rintro base path s v hpath ⟨i, s', hs', hv⟩
  have hpoint : ((path.take i).reverse ++ base).headD 0 = v := by
    rw [← logOps_applyAll hs']
    exact hv
  obtain ⟨j, hj, hback⟩ := logOps_rollbackTo bad alternative path ⟨i, hpoint⟩
  obtain ⟨s'', hs''⟩ := applyAll_take hpath j
  have heq := logOps_applyAll hs''
  refine ⟨j, s'', hs'', ?_, ?_⟩
  · rw [heq]
    exact hj
  · rw [logOps_applyAll hpath, heq]
    exact hback

/-- Back to the start, then block `5`. -/
def restartAt5 : ProgressInfo ℕ ℕ := ⟨some 0, [2, 1], [5], fun _ => rfl⟩

/-- Back to block `1`, then block `4`. -/
def forkAt1 : ProgressInfo ℕ ℕ := ⟨some 1, [2], [4], fun _ => rfl⟩

/-- The first round of the examples: blocks `1`, `2` and `3`, of which `3` is bad. -/
def firstRound : Round ℕ ℕ (List (ℕ × Bool)) (List ℕ) :=
  ⟨[], [], ⟨none, [], [1, 2, 3], nothing_removed⟩, []⟩

/-- The round after the failure of block `3`. -/
def secondRound (alternative : ProgressInfo ℕ ℕ) : Round ℕ ℕ (List (ℕ × Bool)) (List ℕ) :=
  ⟨[(3, false)], [2, 1], alternative, [1, 2]⟩

/-- A run of two rounds goes through no other. -/
theorem reaches_two {ops : ChainOps Id PMOD HIS MS} {first : Round Id PMOD HIS MS}
    (second : Round Id PMOD HIS MS) {result : UpdateResult PMOD HIS MS}
    {events events' : List (UpdateEvent PMOD)}
    (hfirst : updateRound ops first = (.inl second, events))
    (hsecond : updateRound ops second = (.inr result, events')) {r : Round Id PMOD HIS MS}
    (h : Reaches ops first r) : r = first ∨ r = second := by
  induction h with
  | refl => exact Or.inl rfl
  | tail _ hround ih =>
    rcases ih with rfl | rfl
    · rw [hfirst] at hround
      cases hround
      exact Or.inr rfl
    · rw [hsecond] at hround
      cases hround

/-- A run that rolls back behind its suffix, where `updateState_suffix` applies: the
answer `[5]` leads from the initial state to the new one. -/
theorem rollback_behind_suffix :
    updateState (logOps [3] restartAt5) 2 firstRound
        = some (.returned [(3, false), (5, true)] (.ok [5]) [5],
          [.semanticallySuccessfulModifier 1, .semanticallySuccessfulModifier 2,
            .semanticallyFailedModification 3 (.other "bad block"),
            .semanticallySuccessfulModifier 5])
      ∧ applyAll (logOps [3] restartAt5) [] [5] = .ok [5] := by
  refine ⟨rfl, ?_⟩
  have hbase : BranchState (logOps [3] restartAt5) firstRound.history firstRound.state
      firstRound.progressInfo [] := rfl
  have hrun : updateState (logOps [3] restartAt5) 2 firstRound
      = some (.returned [(3, false), (5, true)] (.ok [5]) [5], _) := rfl
  refine updateState_suffix (versionIsId_logOps _ _) (rollbackRestores_logOps _ _) hbase ?_ ?_ hrun
  · intro r hr b hswitch hb
    rcases reaches_two (secondRound _) rfl rfl hr with rfl | rfl
    · cases hswitch
    · cases hb
      exact Or.inl rfl
  · intro r hr b hswitch hb
    rcases reaches_two (secondRound _) rfl rfl hr with rfl | rfl
    · cases hswitch
    · cases hb
      decide

/-- A rollback into the suffix: blocks `1` and `2` are applied, block `3` fails, and
the history goes back to block `1` and on to block `4`.  The new state has the
blocks `1` and `4` applied, but `updateState` answers `1`, `2`, `4`, and these
lead elsewhere.  All assumptions on rollbacks, versions and branch points hold. -/
theorem rollback_into_suffix :
    VersionIsId (logOps [3] forkAt1) ∧ RollbackRestores (logOps [3] forkAt1)
      ∧ BranchState (logOps [3] forkAt1) firstRound.history firstRound.state
          firstRound.progressInfo []
      ∧ (∀ r, Reaches (logOps [3] forkAt1) firstRound r →
          NotEarlier (logOps [3] forkAt1) [] r)
      ∧ (updateState (logOps [3] forkAt1) 2 firstRound).map Prod.fst
          = some (.returned [(3, false), (4, true)] (.ok [4, 1]) [1, 2, 4])
      ∧ applyAll (logOps [3] forkAt1) [] [1, 2, 4] = .ok [4, 2, 1] := by
  refine ⟨versionIsId_logOps _ _, rollbackRestores_logOps _ _, rfl, ?_, rfl, rfl⟩
  intro r hr b hswitch hb
  rcases reaches_two (secondRound _) rfl rfl hr with rfl | rfl
  · cases hswitch
  · cases hb
    exact Or.inr (by decide)

end Sparkz.NodeView
