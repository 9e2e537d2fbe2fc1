import Mathlib
import Sparkz.Network.DeliveryTracker
import Sparkz.Network.SyncTracker

/-!
# Synchronization with peers

The model of the part of `NodeViewSynchronizer` that drives the sync tracker: the events of
peers that come and go, their sync info, and the messages that the actor sends itself about
their statuses.

* `processSync`, `processSyncStatus`, `sendSync`, … — the handlers, each with the messages
  that it sends.
* `Event`, `step` — the actor with the messages to itself that wait in its mailbox.
* `NoGhosts` — all tracked peers are connected.
* `noGhosts_iff` — they are exactly as long as no status is handled after its peer has gone.

The history is a parameter.  Messages of other actors are handled when they come: one that
was in the mailbox before a message of the actor to itself is handled before it.
-/

namespace Sparkz.Network

open Sparkz.Lib

/-- What the synchronizer asks of its history reader about sync info. -/
structure SyncReader (ModifierId SI : Type) where
  continuationIds : SI → ℕ → List (ModifierTypeId × ModifierId)
  compare : SI → HistoryComparisonResult
  syncInfo : SI

/-- `OtherNodeSyncingStatus(remote, status, ext)`. -/
structure OtherNodeSyncingStatus (Address ModifierId : Type) where
  remote : Address
  status : HistoryComparisonResult
  ext : List (ModifierTypeId × ModifierId)

/-- What is sent to the network. -/
inductive SyncSent (Address ModifierId SI : Type) where
  | inv (remote : Address) (typeId : ModifierTypeId) (ids : List ModifierId)
  | syncInfo (peers : List Address) (info : SI)

/-- The actor, the messages to itself in its mailbox, oldest first, and the peers that were
handshaked and have not been disconnected since. -/
structure PeerSync (Address ModifierId SI : Type) where
  statusTracker : SyncTracker Address
  historyReaderOpt : Option (SyncReader ModifierId SI)
  mailbox : List (OtherNodeSyncingStatus Address ModifierId)
  connected : Finset Address

namespace PeerSync

variable {Address ModifierId SI : Type} [DecidableEq Address] (s : SyncSettings)

/-- The actor after `preStart()`. -/
def started : PeerSync Address ModifierId SI :=
  ⟨SyncTracker.empty.scheduleSendSyncInfo s, none, [], ∅⟩

/-! ## The handlers -/

/-- `processSync(syncInfo, remote)`, with the message that the actor sends itself. -/
def processSync (historyReaderOpt : Option (SyncReader ModifierId SI)) (desiredInvObjects : ℕ)
    (syncInfo : SI) (remote : Address) : List (OtherNodeSyncingStatus Address ModifierId) :=
  match historyReaderOpt with
  | some historyReader =>
      let ext := historyReader.continuationIds syncInfo desiredInvObjects
      let comparison := historyReader.compare syncInfo
      [⟨remote, comparison, ext⟩]
  | none => []

/-- `sendExtension(remote, status, ext)`: one inventory for each type. -/
def sendExtension (remote : Address) (ext : List (ModifierTypeId × ModifierId)) :
    List (SyncSent Address ModifierId SI) :=
  (ext.map Prod.fst).dedup.map fun mid =>
    .inv remote mid ((ext.filter fun e => e.1 = mid).map Prod.snd)

/-- `processSyncStatus`. -/
def processSyncStatus (t : SyncTracker Address) (m : OtherNodeSyncingStatus Address ModifierId)
    (now : ℤ) : SyncTracker Address × List (SyncSent Address ModifierId SI) :=
  ((t.updateStatus s m.remote m.status now).1,
    match m.status with
    | .younger | .fork => sendExtension m.remote m.ext
    | _ => [])

/-- `sendSync(syncTracker, history)`. -/
def sendSync (t : SyncTracker Address) (history : SyncReader ModifierId SI) (choice : ℕ)
    (now : ℤ) : SyncTracker Address × List (SyncSent Address ModifierId SI) :=
  let (peers, t) := t.peersToSyncWith s choice now
  (t, if peers ≠ [] then [.syncInfo peers history.syncInfo] else [])

/-! ## The actor -/

/-- What the actor handles next; `otherNodeSyncingStatus` is its oldest message to itself. -/
inductive Event (Address ModifierId SI : Type) where
  | handshakedPeer (remote : Address) (now : ℤ)
  | disconnectedPeer (remote : Address)
  | syncInfo (syncInfo : SI) (remote : Address)
  | otherNodeSyncingStatus (now : ℤ)
  | sendLocalSyncInfo (choice : ℕ) (now : ℤ)
  | changedHistory (reader : SyncReader ModifierId SI)

/-- One event. -/
def step (desiredInvObjects : ℕ) (x : PeerSync Address ModifierId SI) :
    Event Address ModifierId SI → PeerSync Address ModifierId SI
  | .handshakedPeer remote now =>
      { x with
        statusTracker := (x.statusTracker.updateStatus s remote .unknown now).1
        connected := insert remote x.connected }
  | .disconnectedPeer remote =>
      { x with
        statusTracker := x.statusTracker.clearStatus remote
        connected := x.connected.erase remote }
  | .syncInfo syncInfo remote =>
      { x with mailbox :=
          x.mailbox ++ processSync x.historyReaderOpt desiredInvObjects syncInfo remote }
  | .otherNodeSyncingStatus now =>
      match x.mailbox with
      | m :: mailbox =>
          { x with
            statusTracker := (processSyncStatus s x.statusTracker m now :
              SyncTracker Address × List (SyncSent Address ModifierId SI)).1
            mailbox := mailbox }
      | [] => x
  | .sendLocalSyncInfo choice now =>
      match x.historyReaderOpt with
      | some history =>
          { x with statusTracker := (sendSync s x.statusTracker history choice now).1 }
      | none => x
  | .changedHistory reader => { x with historyReaderOpt := some reader }

/-! ## Ghosts -/

variable {s : SyncSettings} {desiredInvObjects : ℕ} {x : PeerSync Address ModifierId SI}

/-- All tracked peers are connected. -/
def NoGhosts (x : PeerSync Address ModifierId SI) : Prop := x.statusTracker.TracksOnly x.connected

/-- The peer of a status is still connected when the status is handled. -/
def FromConnected (x : PeerSync Address ModifierId SI) : Event Address ModifierId SI → Prop
  | .otherNodeSyncingStatus _ => ∀ m, x.mailbox.head? = some m → m.remote ∈ x.connected
  | _ => True

theorem noGhosts_step (h : NoGhosts x) {e : Event Address ModifierId SI}
    (hconnected : FromConnected x e) : NoGhosts (x.step s desiredInvObjects e) := by
  cases e with
  | handshakedPeer remote now => exact SyncTracker.TracksOnly.updateStatus h remote .unknown now
  | disconnectedPeer remote => exact SyncTracker.TracksOnly.clearStatus h remote
  | syncInfo syncInfo remote => exact h
  | otherNodeSyncingStatus now =>
    rw [step]
    split
    · rename_i m mailbox hmailbox
      have hremote : m.remote ∈ x.connected := hconnected m (by rw [hmailbox, List.head?_cons])
      have htracks := SyncTracker.TracksOnly.updateStatus (s := s) h m.remote m.status now
      rwa [Finset.insert_eq_of_mem hremote] at htracks
    · exact h
  | sendLocalSyncInfo choice now =>
    rw [step]
    split
    · exact SyncTracker.TracksOnly.peersToSyncWith h choice now
    · exact h
  | changedHistory reader => exact h

/-- A status that is handled after its peer has gone makes a ghost of it. -/
theorem fromConnected_of_noGhosts_step {e : Event Address ModifierId SI}
    (h : NoGhosts (x.step s desiredInvObjects e)) : FromConnected x e := by
  cases e with
  | otherNodeSyncingStatus now =>
    intro m hm
    obtain ⟨mailbox, hmailbox⟩ := List.head?_eq_some_iff.1 hm
    rw [NoGhosts, step, hmailbox] at h
    refine h.statuses m.remote ?_
    show m.remote ∈ (x.statusTracker.updateStatus s m.remote m.status now).1.statuses.keys
    rw [SyncTracker.statuses_updateStatus]
    exact LinkedMap.mem_keys_put.2 (.inl rfl)
  | _ => trivial

omit [DecidableEq Address] in
theorem noGhosts_started : NoGhosts (started s : PeerSync Address ModifierId SI) :=
  ⟨fun _ h => (by cases h), fun _ h => (by cases h)⟩

/-- **No ghost peers** in all states of exactly those runs in which every status is handled
while its peer is connected. -/
theorem noGhosts_iff (s : SyncSettings) (desiredInvObjects : ℕ)
    (events : List (Event Address ModifierId SI)) :
    (∀ pre, pre <+: events → NoGhosts (pre.foldl (step s desiredInvObjects) (started s))) ↔
      Along (step s desiredInvObjects) FromConnected (started s) events :=
  along_iff (I := NoGhosts) (fun _ _ h hconnected => noGhosts_step h hconnected) (fun _ h => h)
    (fun _ _ _ h => fromConnected_of_noGhosts_step h) noGhosts_started events

/-- The peer is disconnected between its sync info and its status. -/
theorem disconnected_between :
    ¬∀ (s : SyncSettings) (desiredInvObjects : ℕ) (events : List (Event ℕ ℕ Unit)),
      NoGhosts (events.foldl (step s desiredInvObjects) (started s)) := by
  intro h
  have hghost := h ⟨0, 0, 0, 0⟩ 0 [.changedHistory ⟨fun _ _ => [], fun _ => .equal, ()⟩,
    .handshakedPeer 1 0, .syncInfo () 1, .disconnectedPeer 1, .otherNodeSyncingStatus 0]
  exact absurd (hghost.statuses 1 (by decide)) (by decide)

end PeerSync

end Sparkz.Network
