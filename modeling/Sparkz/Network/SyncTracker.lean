import Mathlib
import Sparkz.Lib.GuardedRun
import Sparkz.Lib.LinkedMap

/-!
# The sync tracker

The model of `SyncTracker`: what the node knows of the histories of its peers, when it has
sent its own sync info to them, and whether any of them is ahead.

* `updateStatus`, `clearStatus`, `updateLastSyncSentTime`, `peersToSyncWith` — the operations.
* `Follows` — the last neighbour event says whether some peer is ahead, and the events take
  turns.
* `follows_iff` — they do exactly as long as no call of `clearStatus` drops the last senior.

`ConnectedPeer.equals` compares remote addresses, so a peer is given by its remote address
here, and the maps are keyed by these.  An operation reads the clock once.
-/

namespace Sparkz.Network

open Sparkz.Lib

/-- `HistoryComparisonResult`. -/
inductive HistoryComparisonResult where
  | equal
  | younger
  | fork
  | older
  | nonsense
  | unknown
  deriving DecidableEq, Repr

/-- The settings that the tracker reads, in milliseconds. -/
structure SyncSettings where
  syncInterval : ℤ
  syncIntervalStable : ℤ
  syncStatusRefresh : ℤ
  syncStatusRefreshStable : ℤ

/-- What the tracker publishes on the event stream. -/
inductive NeighbourEvent where
  | betterNeighbourAppeared
  | noBetterNeighbour
  deriving DecidableEq, Repr

/-- The fields of `SyncTracker`.  `schedule` is the delay of the task that sends
`SendLocalSyncInfo`. -/
structure SyncTracker (Address : Type) where
  schedule : Option ℤ
  statuses : LinkedMap Address HistoryComparisonResult
  lastSyncSentTime : LinkedMap Address ℤ
  lastSyncInfoSentTime : ℤ
  stableSyncRegime : Bool

namespace SyncTracker

variable {Address : Type} [DecidableEq Address]

/-- A tracker as constructed. -/
def empty : SyncTracker Address := ⟨none, .empty, .empty, 0, false⟩

variable (s : SyncSettings) (t : SyncTracker Address)

/-- `maxInterval()`. -/
def maxInterval : ℤ :=
  if t.stableSyncRegime then s.syncStatusRefreshStable else s.syncStatusRefresh

/-- `minInterval()`. -/
def minInterval : ℤ := if t.stableSyncRegime then s.syncIntervalStable else s.syncInterval

/-- `scheduleSendSyncInfo()`: the old task is cancelled. -/
def scheduleSendSyncInfo : SyncTracker Address := { t with schedule := some (t.minInterval s) }

/-- `numOfSeniors()`. -/
def numOfSeniors : ℕ := t.statuses.countV fun status => status = .older

/-- `isFirstTimeTrackingPeer(peer)`. -/
def isFirstTimeTrackingPeer (peer : Address) : Bool := !t.lastSyncSentTime.contains peer

/-- `updateLastSyncSentTime(peer)`. -/
def updateLastSyncSentTime (peer : Address) (now : ℤ) : SyncTracker Address :=
  { t with lastSyncSentTime := t.lastSyncSentTime.put peer now, lastSyncInfoSentTime := now }

/-- `updateStatus(peer, status)`, with the events that it publishes. -/
def updateStatus (peer : Address) (status : HistoryComparisonResult) (now : ℤ) :
    SyncTracker Address × List NeighbourEvent :=
  let seniorsBefore := t.numOfSeniors
  let t := { t with statuses := t.statuses.put peer status }
  let t := if t.isFirstTimeTrackingPeer peer then t.updateLastSyncSentTime peer now else t
  let seniorsAfter := t.numOfSeniors
  let (t, events) :=
    if seniorsBefore > 0 ∧ seniorsAfter = 0 then
      ({ t with stableSyncRegime := true }.scheduleSendSyncInfo s, [.noBetterNeighbour])
    else (t, [])
  if seniorsBefore = 0 ∧ seniorsAfter > 0 then (t, events ++ [.betterNeighbourAppeared])
  else (t, events)

/-- `clearStatus(remote)`. -/
def clearStatus (remote : Address) : SyncTracker Address :=
  { t with
    statuses := match t.statuses.entries.find? fun e => e.1 = remote with
      | some (peer, _) => t.statuses.remove peer
      | none => t.statuses
    lastSyncSentTime := match t.lastSyncSentTime.entries.find? fun e => e.1 = remote with
      | some (peer, _) => t.lastSyncSentTime.remove peer
      | none => t.lastSyncSentTime }

/-- `outdatedPeers()`. -/
def outdatedPeers (now : ℤ) : List Address :=
  (t.lastSyncSentTime.filter fun e => now - e.2 > t.maxInterval s).keys

/-- The peers of a status. -/
def peersOf (status : HistoryComparisonResult) : List Address :=
  (t.statuses.filter fun e => e.2 = status).keys

/-- `nonOutdated` of `peersToSyncWith()`, before it is filtered.  `choice` stands for the
random number. -/
def nonOutdatedPeers (choice : ℕ) : List Address :=
  let unknowns := t.peersOf .unknown
  let forks := t.peersOf .fork
  let elders := t.peersOf .older
  (match elders[choice % elders.length]? with
    | some elder => elder :: unknowns
    | none => unknowns) ++ forks

/-- `peersToSyncWith()`. -/
def peersToSyncWith (choice : ℕ) (now : ℤ) : List Address × SyncTracker Address :=
  let outdated := t.outdatedPeers s now
  let peers :=
    if outdated ≠ [] then outdated
    else (t.nonOutdatedPeers choice).filter fun p =>
      now - (t.lastSyncSentTime.get? p).getD 0 ≥ t.minInterval s
  (peers, peers.foldl (fun t peer => t.updateLastSyncSentTime peer now) t)

/-! ## What the operations do -/

variable {s : SyncSettings} {t : SyncTracker Address}

/-- Some tracked peer is ahead. -/
def HasSenior (t : SyncTracker Address) : Prop := ∃ peer, t.statuses.get? peer = some .older

theorem numOfSeniors_pos_iff : 0 < t.numOfSeniors ↔ t.HasSenior := by
  rw [numOfSeniors, LinkedMap.countV, List.countP_pos_iff]
  constructor
  · rintro ⟨⟨peer, status⟩, hmem, holder⟩
    obtain rfl : status = .older := by simpa using holder
    exact ⟨peer, LinkedMap.get?_of_mem_entries hmem⟩
  · rintro ⟨peer, hpeer⟩
    exact ⟨(peer, .older), LinkedMap.mem_entries_of_get? hpeer, by simp⟩

@[simp] theorem statuses_updateLastSyncSentTime (peer : Address) (now : ℤ) :
    (t.updateLastSyncSentTime peer now).statuses = t.statuses := rfl

@[simp] theorem statuses_updateStatus (peer : Address) (status : HistoryComparisonResult)
    (now : ℤ) : (t.updateStatus s peer status now).1.statuses = t.statuses.put peer status := by
  unfold updateStatus
  dsimp only
  split_ifs <;> rfl

@[simp] theorem statuses_clearStatus (remote : Address) :
    (t.clearStatus remote).statuses = t.statuses.remove remote := by
  unfold clearStatus
  obtain ⟨hfind, hsame⟩ | ⟨status, hfind⟩ := t.statuses.find?_key remote
  · simp only [hfind, hsame]
  · simp only [hfind]

@[simp] theorem lastSyncSentTime_clearStatus (remote : Address) :
    (t.clearStatus remote).lastSyncSentTime = t.lastSyncSentTime.remove remote := by
  unfold clearStatus
  obtain ⟨hfind, hsame⟩ | ⟨time, hfind⟩ := t.lastSyncSentTime.find?_key remote
  · simp only [hfind, hsame]
  · simp only [hfind]

/-- `updateStatus` publishes one event if seniors have appeared or have gone. -/
theorem events_updateStatus (peer : Address) (status : HistoryComparisonResult) (now : ℤ) :
    (t.updateStatus s peer status now).2 =
      if 0 < t.numOfSeniors ∧ (t.updateStatus s peer status now).1.numOfSeniors = 0 then
        [.noBetterNeighbour]
      else if t.numOfSeniors = 0 ∧ 0 < (t.updateStatus s peer status now).1.numOfSeniors then
        [.betterNeighbourAppeared]
      else [] := by
  have hafter : (t.updateStatus s peer status now).1.numOfSeniors =
      ({ t with statuses := t.statuses.put peer status } : SyncTracker Address).numOfSeniors := by
    rw [numOfSeniors, statuses_updateStatus, numOfSeniors]
  have hfirst : ∀ t' : SyncTracker Address,
      (if t'.isFirstTimeTrackingPeer peer then t'.updateLastSyncSentTime peer now
        else t').numOfSeniors = t'.numOfSeniors := fun t' => by split <;> rfl
  rw [hafter]
  unfold updateStatus
  dsimp only
  rw [hfirst]
  split_ifs <;> first | rfl | omega

/-! ### Tracked peers -/

/-- All tracked peers are among the given ones. -/
structure TracksOnly (t : SyncTracker Address) (peers : Finset Address) : Prop where
  statuses : ∀ peer ∈ t.statuses.keys, peer ∈ peers
  lastSyncSentTime : ∀ peer ∈ t.lastSyncSentTime.keys, peer ∈ peers

variable {peers : Finset Address}

theorem mem_keys_updateStatus {peer p : Address} {status : HistoryComparisonResult} {now : ℤ} :
    p ∈ (t.updateStatus s peer status now).1.lastSyncSentTime.keys ↔
      p = peer ∨ p ∈ t.lastSyncSentTime.keys := by
  have hfirst : ∀ t' : SyncTracker Address,
      p ∈ (if t'.isFirstTimeTrackingPeer peer then t'.updateLastSyncSentTime peer now
        else t').lastSyncSentTime.keys ↔ p = peer ∨ p ∈ t'.lastSyncSentTime.keys := by
    intro t'
    split
    · exact LinkedMap.mem_keys_put
    · rename_i hnot
      have htracked : t'.lastSyncSentTime.contains peer = true := by
        simpa [isFirstTimeTrackingPeer] using hnot
      refine ⟨.inr, ?_⟩
      rintro (rfl | hp)
      · exact LinkedMap.contains_iff.1 htracked
      · exact hp
  rw [← hfirst { t with statuses := t.statuses.put peer status }]
  unfold updateStatus
  dsimp only
  split_ifs <;> rfl

theorem TracksOnly.updateStatus (h : t.TracksOnly peers) (peer : Address)
    (status : HistoryComparisonResult) (now : ℤ) :
    (t.updateStatus s peer status now).1.TracksOnly (insert peer peers) where
  statuses p hp := by
    rw [statuses_updateStatus, LinkedMap.mem_keys_put] at hp
    obtain rfl | hp := hp
    · exact Finset.mem_insert_self _ _
    · exact Finset.mem_insert_of_mem (h.statuses p hp)
  lastSyncSentTime p hp := by
    obtain rfl | hp := mem_keys_updateStatus.1 hp
    · exact Finset.mem_insert_self _ _
    · exact Finset.mem_insert_of_mem (h.lastSyncSentTime p hp)

theorem TracksOnly.clearStatus (h : t.TracksOnly peers) (remote : Address) :
    (t.clearStatus remote).TracksOnly (peers.erase remote) where
  statuses p hp := by
    rw [statuses_clearStatus, LinkedMap.mem_keys_remove] at hp
    exact Finset.mem_erase.2 ⟨hp.1, h.statuses p hp.2⟩
  lastSyncSentTime p hp := by
    rw [lastSyncSentTime_clearStatus, LinkedMap.mem_keys_remove] at hp
    exact Finset.mem_erase.2 ⟨hp.1, h.lastSyncSentTime p hp.2⟩

theorem TracksOnly.foldl_updateLastSyncSentTime (h : t.TracksOnly peers) (now : ℤ)
    {l : List Address} (hl : ∀ peer ∈ l, peer ∈ peers) :
    (l.foldl (fun t peer => t.updateLastSyncSentTime peer now) t).TracksOnly peers := by
  induction l generalizing t with
  | nil => exact h
  | cons peer l ih =>
    refine ih ⟨h.statuses, fun p hp => ?_⟩ fun p hp => hl p (List.mem_cons_of_mem _ hp)
    obtain rfl | hp := LinkedMap.mem_keys_put.1 hp
    · exact hl p List.mem_cons_self
    · exact h.lastSyncSentTime p hp

omit [DecidableEq Address] in
theorem mem_statuses_of_mem_nonOutdatedPeers {choice : ℕ} {peer : Address}
    (h : peer ∈ t.nonOutdatedPeers choice) : peer ∈ t.statuses.keys := by
  rw [nonOutdatedPeers, List.mem_append] at h
  obtain h | h := h
  · split at h
    · rename_i elder helder
      obtain rfl | h := List.mem_cons.1 h
      · exact LinkedMap.mem_keys_of_mem_filter (List.mem_of_getElem? helder)
      · exact LinkedMap.mem_keys_of_mem_filter h
    · exact LinkedMap.mem_keys_of_mem_filter h
  · exact LinkedMap.mem_keys_of_mem_filter h

/-- The peers to sync with are tracked ones. -/
theorem TracksOnly.peersToSyncWith (h : t.TracksOnly peers) (choice : ℕ) (now : ℤ) :
    (t.peersToSyncWith s choice now).2.TracksOnly peers := by
  refine h.foldl_updateLastSyncSentTime now fun peer hpeer => ?_
  split at hpeer
  · exact h.lastSyncSentTime peer (LinkedMap.mem_keys_of_mem_filter hpeer)
  · exact h.statuses peer
      (mem_statuses_of_mem_nonOutdatedPeers (List.mem_of_mem_filter hpeer))

/-! ## Neighbour events -/

/-- The calls that change statuses. -/
inductive Call (Address : Type) where
  | updateStatus (peer : Address) (status : HistoryComparisonResult) (now : ℤ)
  | clearStatus (remote : Address)

/-- A tracker and the events that it has published, oldest first. -/
structure Published (Address : Type) where
  tracker : SyncTracker Address
  events : List NeighbourEvent

/-- One call. -/
def perform (s : SyncSettings) (x : Published Address) : Call Address → Published Address
  | .updateStatus peer status now =>
      ⟨(x.tracker.updateStatus s peer status now).1,
        x.events ++ (x.tracker.updateStatus s peer status now).2⟩
  | .clearStatus remote => ⟨x.tracker.clearStatus remote, x.events⟩

/-- Some peer is ahead just when the last event says so; the events take turns, and the
first one says that a peer is ahead. -/
structure Follows (x : Published Address) : Prop where
  senior_iff : x.tracker.HasSenior ↔ x.events.getLast? = some .betterNeighbourAppeared
  alternating : x.events.IsChain (· ≠ ·)
  starts : ∀ event, x.events.head? = some event → event = .betterNeighbourAppeared

/-- A call of `clearStatus` does not drop the last senior. -/
def KeepsSenior (x : Published Address) : Call Address → Prop
  | .clearStatus remote => x.tracker.statuses.get? remote = some .older →
      ∃ peer, peer ≠ remote ∧ x.tracker.statuses.get? peer = some .older
  | _ => True

theorem hasSenior_clearStatus (remote : Address) : (t.clearStatus remote).HasSenior ↔
    ∃ peer, peer ≠ remote ∧ t.statuses.get? peer = some .older := by
  simp only [HasSenior, statuses_clearStatus, LinkedMap.get?_remove]
  refine exists_congr fun peer => ?_
  by_cases h : peer = remote
  · simp [h]
  · simp [h]

/-- An event that says what has changed keeps the events in step. -/
theorem Follows.append {x : Published Address} (h : Follows x) {event : NeighbourEvent}
    (hbefore : x.tracker.HasSenior ↔ event = .noBetterNeighbour)
    (hafter : t.HasSenior ↔ event = .betterNeighbourAppeared) :
    Follows ⟨t, x.events ++ [event]⟩ where
  senior_iff := by
    rw [List.getLast?_concat, Option.some.injEq]
    exact hafter
  alternating := by
    refine List.isChain_append.2 ⟨h.alternating, List.isChain_singleton _, ?_⟩
    rintro last hlast _ ⟨⟩ rfl
    have hsenior := h.senior_iff
    rw [hbefore, Option.mem_def.1 hlast, Option.some.injEq] at hsenior
    cases last <;> simp at hsenior
  starts first hfirst := by
    cases hevents : x.events with
    | nil =>
      rw [hevents, List.nil_append, List.head?_cons, Option.some.injEq] at hfirst
      have hsenior := h.senior_iff
      rw [hbefore, hevents] at hsenior
      rw [← hfirst]
      cases event with
      | betterNeighbourAppeared => rfl
      | noBetterNeighbour => simp at hsenior
    | cons e events =>
      refine h.starts first ?_
      rw [hevents] at hfirst ⊢
      exact hfirst

theorem Follows.updateStatus {x : Published Address} (h : Follows x) (peer : Address)
    (status : HistoryComparisonResult) (now : ℤ) :
    Follows (perform s x (.updateStatus peer status now)) := by
  have hevents := events_updateStatus (s := s) (t := x.tracker) peer status now
  rw [perform, hevents]
  split_ifs with hgone happeared
  · refine h.append ?_ ?_
    · simp [← numOfSeniors_pos_iff, hgone.1]
    · simp [← numOfSeniors_pos_iff, hgone.2]
  · refine h.append ?_ ?_
    · simp [← numOfSeniors_pos_iff, happeared.1]
    · simp [← numOfSeniors_pos_iff, happeared.2]
  · rw [List.append_nil]
    refine ⟨?_, h.alternating, h.starts⟩
    show (x.tracker.updateStatus s peer status now).1.HasSenior ↔ _
    rw [← h.senior_iff, ← numOfSeniors_pos_iff, ← numOfSeniors_pos_iff]
    omega

theorem Follows.clearStatus_iff {x : Published Address} (h : Follows x) (remote : Address) :
    Follows (perform s x (.clearStatus remote)) ↔ KeepsSenior x (.clearStatus remote) := by
  constructor
  · intro hafter hremote
    have hsenior : (x.tracker.clearStatus remote).HasSenior :=
      hafter.senior_iff.2 (h.senior_iff.1 ⟨remote, hremote⟩)
    exact (hasSenior_clearStatus remote).1 hsenior
  · intro hkeeps
    refine ⟨?_, h.alternating, h.starts⟩
    show (x.tracker.clearStatus remote).HasSenior ↔
      x.events.getLast? = some .betterNeighbourAppeared
    rw [← h.senior_iff, hasSenior_clearStatus]
    constructor
    · rintro ⟨peer, -, hpeer⟩
      exact ⟨peer, hpeer⟩
    · rintro ⟨peer, hpeer⟩
      by_cases heq : peer = remote
      · exact hkeeps (heq ▸ hpeer)
      · exact ⟨peer, heq, hpeer⟩

theorem Follows.empty : Follows (⟨empty, []⟩ : Published Address) where
  senior_iff := by simp [HasSenior, SyncTracker.empty]
  alternating := .nil
  starts event h := by simp at h

/-- **Neighbour events follow the seniors** in all states of exactly those runs in which no
call of `clearStatus` drops the last senior. -/
theorem follows_iff (s : SyncSettings) (calls : List (Call Address)) :
    (∀ pre, pre <+: calls → Follows (pre.foldl (perform s) ⟨empty, []⟩)) ↔
      Along (perform s) KeepsSenior ⟨empty, []⟩ calls := by
  refine along_iff (I := Follows) (fun x call h hkeeps => ?_) (fun _ h => h)
    (fun x call h hafter => ?_) .empty calls
  · cases call with
    | updateStatus peer status now => exact h.updateStatus peer status now
    | clearStatus remote => exact (h.clearStatus_iff remote).2 hkeeps
  · cases call with
    | updateStatus peer status now => trivial
    | clearStatus remote => exact (h.clearStatus_iff remote).1 hafter

/-- The only senior is dropped, and no event tells of it. -/
theorem senior_dropped :
    ¬∀ (s : SyncSettings) (calls : List (Call ℕ)),
      Follows (calls.foldl (perform s) ⟨empty, []⟩) := by
  intro h
  have hafter := h ⟨0, 0, 0, 0⟩ [.updateStatus 1 .older 0, .clearStatus 1]
  obtain ⟨peer, hpeer⟩ := hafter.senior_iff.2 (by decide)
  cases hpeer

end SyncTracker

end Sparkz.Network
