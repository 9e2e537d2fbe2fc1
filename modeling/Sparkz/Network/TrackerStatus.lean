import Sparkz.Network.PeerQuota

/-!
# The status machine of the delivery tracker

A modifier's status is not stored: `status` derives it from membership in three
collections, asked in a fixed order.  This file shows that the collections never
overlap, so that the order does not matter, and what that gives over whole runs.

* `marks` — which of the three collections hold an id; `Exclusive` — at most one
  of them does.
* `Touches ids t t'` — going from `t` to `t'` moves no mark outside `ids`, keeps
  the marks of every id exclusive and takes no id out of `Invalid`.  One lemma
  per operation proves it (`touches_exec`, `touches_perform`).
* `status_machine` — the status machine over every run of calls.
* `setHeld_held_iff` — which modifiers are held after `setHeld`.

The calls are all those that the class offers, with any arguments: here
`clearStatusForModifier` may be handed a status that the modifier does not have.
-/

namespace Sparkz.Network

open Sparkz.Lib

namespace DeliveryTracker

variable {Address ModifierId : Type} [DecidableEq Address] [DecidableEq ModifierId]

/-! ## Runs of all public calls -/

/-- Everything that can be called on a tracker from outside; `slowMode` is a
public variable. -/
inductive PublicCall (Address ModifierId : Type) where
  | tracker (c : TrackerCall Address ModifierId)
  | putInRebroadcastQueue (id : ModifierId)
  | getRebroadcastModifiers
  | scheduleRebroadcastIfNeeded
  | setSlowMode (slowMode : Bool)

/-- The tracker after a public call. -/
def perform (settings : TrackerSettings) (t : DeliveryTracker Address ModifierId) :
    PublicCall Address ModifierId → DeliveryTracker Address ModifierId
  | .tracker c => t.exec settings c
  | .putInRebroadcastQueue id => t.putInRebroadcastQueue settings id
  | .getRebroadcastModifiers => (t.getRebroadcastModifiers settings).2
  | .scheduleRebroadcastIfNeeded => t.scheduleRebroadcastIfNeeded settings
  | .setSlowMode slowMode => { t with slowMode := slowMode }

/-- The tracker after a sequence of public calls. -/
def run (settings : TrackerSettings) (t : DeliveryTracker Address ModifierId)
    (calls : List (PublicCall Address ModifierId)) : DeliveryTracker Address ModifierId :=
  calls.foldl (fun t c => t.perform settings c) t

/-- The transitions that a call asks for, each with the modifier it concerns.
`onStillWaiting` first asks for `Unknown`; `clearStatusForModifier` asks for no
transition, it only forgets. -/
def TrackerCall.transitions :
    TrackerCall Address ModifierId → List (ModifierId × ModifiersStatus)
  | .setRequested ids _ _ => ids.map fun id => (id, .requested)
  | .setReceived id _ _ => [(id, .received)]
  | .setInvalid id _ => [(id, .invalid)]
  | .setHeld id _ => [(id, .held)]
  | .setUnknown id _ => [(id, .unknown)]
  | .onStillWaiting _ _ id _ => [(id, .unknown)]
  | .clearStatusForModifier _ _ _ => []

/-- The ids that a call is about. -/
def TrackerCall.ids : TrackerCall Address ModifierId → List ModifierId
  | .setRequested ids _ _ => ids
  | .setReceived id _ _ => [id]
  | .setInvalid id _ => [id]
  | .setHeld id _ => [id]
  | .setUnknown id _ => [id]
  | .onStillWaiting _ _ id _ => [id]
  | .clearStatusForModifier id _ _ => [id]

/-- The ids that a public call is about; the rebroadcast queue is no part of any
status. -/
def PublicCall.ids : PublicCall Address ModifierId → List ModifierId
  | .tracker c => c.ids
  | _ => []

/-! ## Marks -/

/-- Which of `requested`, `received` and `invalid` hold a modifier id. -/
structure Marks where
  requested : Bool
  received : Bool
  invalid : Bool
  deriving DecidableEq, Repr

/-- The marks of one id. -/
def marks (t : DeliveryTracker Address ModifierId) (id : ModifierId) : Marks where
  requested := t.requested.contains id
  received := t.received.contains id
  invalid := decide (id ∈ t.invalid)

/-- At most one collection holds the id. -/
def Marks.Exclusive (m : Marks) : Prop :=
  (m.requested && m.received) = false ∧ (m.requested && m.invalid) = false
    ∧ (m.received && m.invalid) = false

/-- The id is in `invalid` and nowhere else. -/
def Marks.Rejected (m : Marks) : Prop :=
  m.requested = false ∧ m.received = false ∧ m.invalid = true

section

omit [DecidableEq Address]

/-- The status is read off the marks and the keepers. -/
theorem statusIn_congr {t t' : DeliveryTracker Address ModifierId} {id : ModifierId}
    (h : t'.marks id = t.marks id) (keepers : List (ModifierId → Bool)) :
    t'.statusIn id keepers = t.statusIn id keepers := by
  simp only [marks, Marks.mk.injEq, decide_eq_decide] at h
  simp only [statusIn, h]

theorem status_eq_invalid_iff {t : DeliveryTracker Address ModifierId} {id : ModifierId} :
    t.status id = .invalid ↔ (t.marks id).Rejected := by
  simp only [status, statusIn, marks, Marks.Rejected]
  cases t.received.contains id <;> cases t.requested.contains id <;>
    by_cases h : id ∈ t.invalid <;> simp [h]

theorem status_eq_requested_iff {t : DeliveryTracker Address ModifierId} {id : ModifierId} :
    t.status id = .requested ↔ t.requested.contains id = true ∧ t.received.contains id = false := by
  simp only [status, statusIn]
  cases t.received.contains id <;> cases t.requested.contains id <;>
    by_cases h : id ∈ t.invalid <;> simp [h]

theorem status_eq_received_iff {t : DeliveryTracker Address ModifierId} {id : ModifierId} :
    t.status id = .received ↔ t.received.contains id = true := by
  simp only [status, statusIn]
  cases t.received.contains id <;> cases t.requested.contains id <;>
    by_cases h : id ∈ t.invalid <;> simp [h]

end

/-! ### What moves no mark -/

section

omit [DecidableEq ModifierId]

@[simp] theorem received_incrementPeerLimitCounter (t : DeliveryTracker Address ModifierId)
    (q : ConnectedPeer Address) : (t.incrementPeerLimitCounter q).received = t.received := by
  unfold incrementPeerLimitCounter
  split <;> rfl

@[simp] theorem invalid_incrementPeerLimitCounter (t : DeliveryTracker Address ModifierId)
    (q : ConnectedPeer Address) : (t.incrementPeerLimitCounter q).invalid = t.invalid := by
  unfold incrementPeerLimitCounter
  split <;> rfl

@[simp] theorem received_decrementPeerLimitCounter (t : DeliveryTracker Address ModifierId)
    (q : ConnectedPeer Address) : (t.decrementPeerLimitCounter q).received = t.received := by
  unfold decrementPeerLimitCounter
  split
  · split <;> rfl
  · rfl

@[simp] theorem invalid_decrementPeerLimitCounter (t : DeliveryTracker Address ModifierId)
    (q : ConnectedPeer Address) : (t.decrementPeerLimitCounter q).invalid = t.invalid := by
  unfold decrementPeerLimitCounter
  split
  · split <;> rfl
  · rfl

end

section

omit [DecidableEq Address] [DecidableEq ModifierId]

@[simp] theorem received_scheduleRebroadcastIfNeeded (settings : TrackerSettings)
    (t : DeliveryTracker Address ModifierId) :
    (t.scheduleRebroadcastIfNeeded settings).received = t.received := by
  unfold scheduleRebroadcastIfNeeded
  split
  · simp only [scheduleOnce]
    split <;> rfl
  · rfl

@[simp] theorem invalid_scheduleRebroadcastIfNeeded (settings : TrackerSettings)
    (t : DeliveryTracker Address ModifierId) :
    (t.scheduleRebroadcastIfNeeded settings).invalid = t.invalid := by
  unfold scheduleRebroadcastIfNeeded
  split
  · simp only [scheduleOnce]
    split <;> rfl
  · rfl

@[simp] theorem received_updateProcessingTime (settings : TrackerSettings)
    (t : DeliveryTracker Address ModifierId) (startTime now : ℤ) :
    (t.updateProcessingTime settings startTime now).received = t.received := by
  simp only [updateProcessingTime]
  split
  · split
    · rfl
    · split
      · rw [received_scheduleRebroadcastIfNeeded]
      · rfl
  · rfl

@[simp] theorem invalid_updateProcessingTime (settings : TrackerSettings)
    (t : DeliveryTracker Address ModifierId) (startTime now : ℤ) :
    (t.updateProcessingTime settings startTime now).invalid = t.invalid := by
  simp only [updateProcessingTime]
  split
  · split
    · rfl
    · split
      · rw [invalid_scheduleRebroadcastIfNeeded]
      · rfl
  · rfl

end

section

omit [DecidableEq Address]

@[simp] theorem requested_dropRequested (t : DeliveryTracker Address ModifierId)
    (id : ModifierId) (info : RequestedInfo Address) :
    (t.dropRequested id info).requested = t.requested.remove id := rfl

@[simp] theorem received_dropRequested (t : DeliveryTracker Address ModifierId)
    (id : ModifierId) (info : RequestedInfo Address) :
    (t.dropRequested id info).received = t.received := rfl

@[simp] theorem invalid_dropRequested (t : DeliveryTracker Address ModifierId)
    (id : ModifierId) (info : RequestedInfo Address) :
    (t.dropRequested id info).invalid = t.invalid := rfl

end

/-! ## What an operation may touch -/

/-- From `t` to `t'` only the ids of the list change their marks, no id gets two
marks and no rejected id loses its mark. -/
structure Touches (ids : List ModifierId) (t t' : DeliveryTracker Address ModifierId) : Prop where
  others : ∀ id ∉ ids, t'.marks id = t.marks id
  exclusive : ∀ id, (t.marks id).Exclusive → (t'.marks id).Exclusive
  rejected : ∀ id, (t.marks id).Rejected → (t'.marks id).Rejected

section

omit [DecidableEq Address]

theorem Touches.refl (ids : List ModifierId) (t : DeliveryTracker Address ModifierId) :
    Touches ids t t :=
  ⟨fun _ _ => rfl, fun _ h => h, fun _ h => h⟩

theorem Touches.trans {ids : List ModifierId} {t t' t'' : DeliveryTracker Address ModifierId}
    (h : Touches ids t t') (h' : Touches ids t' t'') : Touches ids t t'' where
  others id hid := (h'.others id hid).trans (h.others id hid)
  exclusive id hex := h'.exclusive id (h.exclusive id hex)
  rejected id hre := h'.rejected id (h.rejected id hre)

theorem Touches.mono {ids ids' : List ModifierId} {t t' : DeliveryTracker Address ModifierId}
    (hsub : ∀ id ∈ ids, id ∈ ids') (h : Touches ids t t') : Touches ids' t t' where
  others id hid := h.others id fun hmem => hid (hsub id hmem)
  exclusive := h.exclusive
  rejected := h.rejected

/-- The same three collections: nothing is touched. -/
theorem Touches.of_eq {ids : List ModifierId} {t t' : DeliveryTracker Address ModifierId}
    (hreq : t'.requested = t.requested) (hrec : t'.received = t.received)
    (hinv : t'.invalid = t.invalid) : Touches ids t t' := by
  have hmarks : ∀ id, t'.marks id = t.marks id := by
    intro id
    simp only [marks, hreq, hrec, hinv]
  exact ⟨fun id _ => hmarks id, fun id h => hmarks id ▸ h, fun id h => hmarks id ▸ h⟩

/-- One id gets the marks `m`, every other one keeps its own. -/
theorem Touches.single {id : ModifierId} {t t' : DeliveryTracker Address ModifierId} (m : Marks)
    (hmarks : ∀ id', t'.marks id' = if id' = id then m else t.marks id')
    (hex : (t.marks id).Exclusive → m.Exclusive) (hre : (t.marks id).Rejected → m.Rejected) :
    Touches [id] t t' where
  others id' hid' := by
    rw [hmarks, if_neg (by simpa using hid')]
  exclusive id' h := by
    rw [hmarks]
    split
    · rename_i heq
      exact hex (heq ▸ h)
    · exact h
  rejected id' h := by
    rw [hmarks]
    split
    · rename_i heq
      exact hre (heq ▸ h)
    · exact h

/-- An entry of `requested` is dropped, whatever happens to the counters. -/
theorem touches_dropRequested (t : DeliveryTracker Address ModifierId) (id : ModifierId)
    (info : RequestedInfo Address) : Touches [id] t (t.dropRequested id info) := by
  refine .single ⟨false, (t.marks id).received, (t.marks id).invalid⟩ ?_ ?_ ?_
  · intro id'
    by_cases h : id' = id
    · simp [marks, LinkedMap.contains_remove, h]
    · simp only [marks, requested_dropRequested, received_dropRequested, invalid_dropRequested,
        LinkedMap.contains_remove, h, decide_false, Bool.not_false, Bool.true_and, if_false]
      rfl
  · intro h
    exact ⟨rfl, rfl, h.2.2⟩
  · intro h
    exact ⟨rfl, h.2.1, h.2.2⟩

/-- An entry of `received` is dropped. -/
theorem touches_dropReceived (t : DeliveryTracker Address ModifierId) (id : ModifierId) :
    Touches [id] t { t with received := t.received.remove id } := by
  refine .single ⟨(t.marks id).requested, false, (t.marks id).invalid⟩ ?_ ?_ ?_
  · intro id'
    by_cases h : id' = id <;> simp [marks, LinkedMap.contains_remove, h]
  · intro h
    exact ⟨by simp, h.2.1, rfl⟩
  · intro h
    exact ⟨h.1, rfl, h.2.2⟩

/-- An id that is neither requested nor received becomes invalid. -/
theorem touches_insertInvalid {t : DeliveryTracker Address ModifierId} {id : ModifierId}
    (hreq : t.requested.contains id = false) (hrec : t.received.contains id = false) :
    Touches [id] t { t with invalid := insert id t.invalid } := by
  refine .single ⟨false, false, true⟩ ?_ (fun _ => ⟨rfl, rfl, rfl⟩) (fun _ => ⟨rfl, rfl, rfl⟩)
  intro id'
  by_cases h : id' = id
  · simp [marks, h, hreq, hrec]
  · simp [marks, h]

/-- An id that is neither requested nor invalid becomes received. -/
theorem touches_putReceived {t : DeliveryTracker Address ModifierId} {id : ModifierId}
    (hreq : t.requested.contains id = false) (hinv : id ∉ t.invalid)
    (v : ConnectedPeer Address × ℤ) :
    Touches [id] t { t with received := t.received.put id v } := by
  refine .single ⟨false, true, false⟩ ?_ (fun _ => ⟨rfl, rfl, rfl⟩) ?_
  · intro id'
    by_cases h : id' = id
    · simp [marks, h, hreq, hinv, LinkedMap.contains_put]
    · simp [marks, h, LinkedMap.contains_put]
  · intro h
    exact absurd h.2.2 (by simp [marks, hinv])

end

/-! ### The operations -/

/-- No id has two marks. -/
def MarksExclusive (t : DeliveryTracker Address ModifierId) : Prop :=
  ∀ id, (t.marks id).Exclusive

omit [DecidableEq Address] in
theorem Touches.marksExclusive {ids : List ModifierId}
    {t t' : DeliveryTracker Address ModifierId} (h : Touches ids t t')
    (hex : MarksExclusive t) : MarksExclusive t' :=
  fun id => h.exclusive id (hex id)

theorem contains_of_get? {V : Type} {m : LinkedMap ModifierId V} {id : ModifierId} {v : V}
    (h : m.get? id = some v) : m.contains id = true := by
  simp [LinkedMap.contains, h]

theorem touches_decrementPeerLimitCounter (ids : List ModifierId)
    (t : DeliveryTracker Address ModifierId) (q : ConnectedPeer Address) :
    Touches ids t (t.decrementPeerLimitCounter q) :=
  .of_eq (by simp) (by simp) (by simp)

omit [DecidableEq Address] in
theorem touches_updateProcessingTime (ids : List ModifierId) (settings : TrackerSettings)
    (t : DeliveryTracker Address ModifierId) (startTime now : ℤ) :
    Touches ids t (t.updateProcessingTime settings startTime now) :=
  .of_eq (by simp) (by simp) (by simp)

theorem touches_clearStatusForModifier {settings : TrackerSettings}
    {t t' : DeliveryTracker Address ModifierId} {id : ModifierId} {oldStatus : ModifiersStatus}
    {now : ℤ} (hok : t.clearStatusForModifier settings id oldStatus now = .ok t') :
    Touches [id] t t' := by
  unfold clearStatusForModifier at hok
  split at hok
  · split at hok
    · cases hok
    · rename_i info hget
      cases hok
      exact (touches_dropRequested t id info).trans (touches_decrementPeerLimitCounter _ _ _)
  · split at hok
    · cases hok
      exact .refl _ _
    · cases hok
      exact (touches_dropReceived t id).trans (touches_updateProcessingTime _ _ _ _ _)
  · cases hok
    exact .refl _ _

theorem touches_setCleared (settings : TrackerSettings) (t : DeliveryTracker Address ModifierId)
    (id : ModifierId) (newStatus : ModifiersStatus) (now : ℤ) :
    Touches [id] t (t.setCleared settings id newStatus now) := by
  unfold setCleared
  split
  · split
    · rename_i hok
      exact touches_clearStatusForModifier hok
    · exact .refl _ _
  · exact .refl _ _

theorem requested_setRequestedOne {t : DeliveryTracker Address ModifierId} {id : ModifierId}
    (h : isCorrectTransition (t.status id) .requested = true) (typeId : ModifierTypeId)
    (supplier : ConnectedPeer Address) (checksDone : ℤ) :
    (t.setRequestedOne id typeId supplier checksDone).requested
      = t.requested.put id ⟨supplier, t.nextTimer, checksDone⟩ := by
  rw [setRequestedOne, if_pos h]
  simp only [scheduleOnce]
  split
  · split
    · rfl
    · simp
  · simp

@[simp] theorem received_setRequestedOne (t : DeliveryTracker Address ModifierId)
    (id : ModifierId) (typeId : ModifierTypeId) (supplier : ConnectedPeer Address)
    (checksDone : ℤ) :
    (t.setRequestedOne id typeId supplier checksDone).received = t.received := by
  unfold setRequestedOne
  simp only [scheduleOnce]
  split
  · split
    · split
      · rfl
      · simp
    · simp
  · rfl

@[simp] theorem invalid_setRequestedOne (t : DeliveryTracker Address ModifierId)
    (id : ModifierId) (typeId : ModifierTypeId) (supplier : ConnectedPeer Address)
    (checksDone : ℤ) :
    (t.setRequestedOne id typeId supplier checksDone).invalid = t.invalid := by
  unfold setRequestedOne
  simp only [scheduleOnce]
  split
  · split
    · split
      · rfl
      · simp
    · simp
  · rfl

omit [DecidableEq Address] in
/-- The ids that may be requested: those without marks and those that are
requested already. -/
theorem not_received_of_correct {t : DeliveryTracker Address ModifierId} {id : ModifierId}
    (h : isCorrectTransition (t.status id) .requested = true) :
    t.received.contains id = false ∧ (t.requested.contains id = true ∨ id ∉ t.invalid) := by
  revert h
  simp only [status, statusIn]
  cases t.received.contains id <;> cases t.requested.contains id <;>
    by_cases h : id ∈ t.invalid <;> simp [h, isCorrectTransition]

theorem status_setRequestedOne {t : DeliveryTracker Address ModifierId} {id : ModifierId}
    (h : isCorrectTransition (t.status id) .requested = true) (typeId : ModifierTypeId)
    (supplier : ConnectedPeer Address) (checksDone : ℤ) :
    (t.setRequestedOne id typeId supplier checksDone).status id = .requested := by
  rw [status_eq_requested_iff, requested_setRequestedOne h, received_setRequestedOne,
    LinkedMap.contains_put]
  exact ⟨by simp, (not_received_of_correct h).1⟩

theorem touches_setRequestedOne (t : DeliveryTracker Address ModifierId) (id : ModifierId)
    (typeId : ModifierTypeId) (supplier : ConnectedPeer Address) (checksDone : ℤ) :
    Touches [id] t (t.setRequestedOne id typeId supplier checksDone) := by
  by_cases h : isCorrectTransition (t.status id) .requested = true
  · have hst := not_received_of_correct h
    refine .single ⟨true, false, (t.marks id).invalid⟩ ?_ ?_ ?_
    · intro id'
      rw [marks, requested_setRequestedOne h]
      by_cases hid : id' = id
      · simp [marks, hid, hst.1, LinkedMap.contains_put]
      · simp [marks, hid, LinkedMap.contains_put]
    · intro hex
      refine ⟨rfl, ?_, rfl⟩
      rcases hst.2 with hreq | hinv
      · simpa [marks, hreq] using hex.2.1
      · simp [marks, hinv]
    · intro hre
      rcases hst.2 with hreq | hinv
      · exact absurd hre.1 (by simp [marks, hreq])
      · exact absurd hre.2.2 (by simp [marks, hinv])
  · rw [setRequestedOne, if_neg h]
    exact .refl _ _

theorem touches_setRequested (ids : List ModifierId) (typeId : ModifierTypeId)
    (cp : ConnectedPeer Address) (t : DeliveryTracker Address ModifierId) :
    Touches ids t (t.setRequested ids typeId cp) := by
  unfold setRequested
  induction ids generalizing t with
  | nil => exact .refl _ _
  | cons id ids ih =>
    have hone := touches_setRequestedOne t id typeId cp 0
    have hrest := ih (t.setRequestedOne id typeId cp 0)
    rw [List.foldl_cons]
    exact (hone.mono (by simp)).trans (hrest.mono (by simp; tauto))

omit [DecidableEq Address] in
theorem status_of_get? {t : DeliveryTracker Address ModifierId} (hex : MarksExclusive t)
    {id : ModifierId} {info : RequestedInfo Address} (hget : t.requested.get? id = some info) :
    t.status id = .requested := by
  have hcon := contains_of_get? hget
  have hrec : t.received.contains id = false := by
    simpa [marks, hcon] using (hex id).1
  exact status_eq_requested_iff.2 ⟨hcon, hrec⟩

/-- Forgetting a requested modifier: its entry goes, and the counter of the peer that
was asked goes down. -/
theorem setUnknown_requested (settings : TrackerSettings)
    {t : DeliveryTracker Address ModifierId} (hex : MarksExclusive t) {id : ModifierId}
    {info : RequestedInfo Address} (hget : t.requested.get? id = some info) (now : ℤ) :
    t.setUnknown settings id now
      = (t.dropRequested id info).decrementPeerLimitCounter info.peer := by
  have hst := status_of_get? hex hget
  simp only [setUnknown, setCleared, hst, clearStatusForModifier, hget]
  rfl

theorem touches_setInvalid (settings : TrackerSettings) {t : DeliveryTracker Address ModifierId}
    (hex : MarksExclusive t) (id : ModifierId) (now : ℤ) :
    Touches [id] t (t.setInvalid settings id now).2 := by
  have hmark := hex id
  unfold setInvalid
  split
  · split
    · rename_i hst
      split
      · exact .refl _ _
      · rename_i info hget
        refine ((touches_dropRequested t id info).trans
          (touches_decrementPeerLimitCounter _ _ info.peer)).trans (touches_insertInvalid ?_ ?_)
        · simp [LinkedMap.contains_remove]
        · simpa using (status_eq_requested_iff.1 hst).2
    · rename_i hst
      have hrec := status_eq_received_iff.1 hst
      split
      · rename_i hget
        rw [LinkedMap.contains, hget] at hrec
        cases hrec
      · rename_i peer timestamp hget
        refine ((touches_dropReceived t id).trans
          (touches_updateProcessingTime _ settings _ timestamp now)).trans
          (touches_insertInvalid ?_ ?_)
        · have := hmark.1
          simpa [marks, hrec] using this
        · simp [LinkedMap.contains_remove]
    · rename_i hreq hrec
      have hrec' : t.received.contains id = false := by
        by_contra h
        exact hrec (status_eq_received_iff.2 (by simpa using h))
      refine touches_insertInvalid ?_ hrec'
      by_contra h
      exact hreq (status_eq_requested_iff.2 ⟨by simpa using h, hrec'⟩)
  · exact .refl _ _

theorem touches_setReceived {t : DeliveryTracker Address ModifierId} (hex : MarksExclusive t)
    (id : ModifierId) (sender : ConnectedPeer Address) (now : ℤ) :
    Touches [id] t (t.setReceived id sender now) := by
  have hmark := hex id
  unfold setReceived
  split
  · split
    · split
      · exact .refl _ _
      · rename_i info hget
        refine ((touches_dropRequested t id info).trans
          (touches_decrementPeerLimitCounter _ _ sender)).trans (touches_putReceived ?_ ?_ _)
        · simp [LinkedMap.contains_remove]
        · have := hmark.2.1
          simpa [marks, contains_of_get? hget] using this
    · exact .refl _ _
  · exact .refl _ _

theorem touches_onStillWaiting (settings : TrackerSettings)
    (t : DeliveryTracker Address ModifierId) (cp : ConnectedPeer Address)
    (typeId : ModifierTypeId) (id : ModifierId) (now : ℤ) :
    Touches [id] t (t.onStillWaiting settings cp typeId id now).2 := by
  have hunknown := touches_setCleared settings t id .unknown now
  unfold onStillWaiting
  split
  · exact .refl _ _
  · simp only
    split
    · exact hunknown.trans (touches_setRequestedOne _ id typeId cp _)
    · exact hunknown

theorem touches_exec (settings : TrackerSettings) {t : DeliveryTracker Address ModifierId}
    (hex : MarksExclusive t) (c : TrackerCall Address ModifierId) :
    Touches c.ids t (t.exec settings c) := by
  cases c with
  | setRequested ids typeId cp => exact touches_setRequested ids typeId cp t
  | setReceived id sender now => exact touches_setReceived hex id sender now
  | setInvalid id now => exact touches_setInvalid settings hex id now
  | setHeld id now => exact touches_setCleared settings t id .held now
  | setUnknown id now => exact touches_setCleared settings t id .unknown now
  | onStillWaiting cp typeId id now =>
      exact touches_onStillWaiting settings t cp typeId id now
  | clearStatusForModifier id oldStatus now =>
      simp only [exec]
      split
      · rename_i hok
        exact touches_clearStatusForModifier hok
      · exact .refl _ _

theorem touches_perform (settings : TrackerSettings) {t : DeliveryTracker Address ModifierId}
    (hex : MarksExclusive t) (c : PublicCall Address ModifierId) :
    Touches c.ids t (t.perform settings c) := by
  cases c with
  | tracker c => exact touches_exec settings hex c
  | putInRebroadcastQueue id =>
      simp only [perform, putInRebroadcastQueue]
      split
      · exact .of_eq rfl rfl rfl
      · exact .refl _ _
  | getRebroadcastModifiers => exact .of_eq rfl rfl rfl
  | scheduleRebroadcastIfNeeded =>
      exact .of_eq (requested_scheduleRebroadcastIfNeeded settings t)
        (received_scheduleRebroadcastIfNeeded settings t)
        (invalid_scheduleRebroadcastIfNeeded settings t)
  | setSlowMode slowMode => exact .of_eq rfl rfl rfl

/-! ### Refused transitions -/

theorem isCorrectTransition_invalid (oldStatus : ModifiersStatus) :
    isCorrectTransition oldStatus .invalid = true := by
  cases oldStatus <;> rfl

theorem isCorrectTransition_held (oldStatus : ModifiersStatus) :
    isCorrectTransition oldStatus .held = true := by
  cases oldStatus <;> rfl

theorem exec_refused (settings : TrackerSettings) {t : DeliveryTracker Address ModifierId}
    (hex : MarksExclusive t) (c : TrackerCall Address ModifierId) (hne : c.transitions ≠ [])
    (h : ∀ x ∈ c.transitions, isCorrectTransition (t.status x.1) x.2 = false) :
    t.exec settings c = t := by
  cases c with
  | setRequested ids typeId cp =>
    have hids : ∀ id ∈ ids, isCorrectTransition (t.status id) .requested = false := by
      intro id hid
      exact h (id, .requested) (List.mem_map.2 ⟨id, hid, rfl⟩)
    clear h hne
    show ids.foldl (fun t id => t.setRequestedOne id typeId cp 0) t = t
    induction ids with
    | nil => rfl
    | cons id ids ih =>
      have hone : t.setRequestedOne id typeId cp 0 = t := by
        rw [setRequestedOne, hids id (by simp)]
        rfl
      rw [List.foldl_cons, hone]
      exact ih fun id' hid' => hids id' (List.mem_cons_of_mem _ hid')
  | setReceived id sender now =>
    have hid := h (id, .received) (by simp [TrackerCall.transitions])
    simp only [exec, setReceived, hid]
    rfl
  | setInvalid id now =>
    have hid := h (id, .invalid) (by simp [TrackerCall.transitions])
    rw [isCorrectTransition_invalid] at hid
    cases hid
  | setHeld id now =>
    have hid := h (id, .held) (by simp [TrackerCall.transitions])
    rw [isCorrectTransition_held] at hid
    cases hid
  | setUnknown id now =>
    have hid := h (id, .unknown) (by simp [TrackerCall.transitions])
    simp only [exec, setUnknown, setCleared, hid]
    rfl
  | onStillWaiting cp typeId id now =>
    have hid := h (id, .unknown) (by simp [TrackerCall.transitions])
    have hnone : t.requested.get? id = none := by
      by_contra hsome
      obtain ⟨info, hget⟩ := Option.ne_none_iff_exists'.1 hsome
      rw [status_of_get? hex hget] at hid
      cases hid
    simp only [exec, onStillWaiting, hnone]
  | clearStatusForModifier id oldStatus now => exact absurd rfl hne

/-- In a list handed to `setRequested`, the ids whose transition is refused make no
difference. -/
theorem setRequested_filter (ids : List ModifierId) (typeId : ModifierTypeId)
    (cp : ConnectedPeer Address) (t : DeliveryTracker Address ModifierId) :
    t.setRequested ids typeId cp
      = t.setRequested (ids.filter fun id => isCorrectTransition (t.status id) .requested)
          typeId cp := by
  suffices hgen : ∀ t' : DeliveryTracker Address ModifierId,
      (∀ id, isCorrectTransition (t'.status id) .requested
        = isCorrectTransition (t.status id) .requested) →
      t'.setRequested ids typeId cp
        = t'.setRequested (ids.filter fun id => isCorrectTransition (t.status id) .requested)
            typeId cp from hgen t fun _ => rfl
  induction ids with
  | nil => exact fun _ _ => rfl
  | cons id ids ih =>
    intro t' ht'
    by_cases hid : isCorrectTransition (t.status id) .requested = true
    · rw [List.filter_cons_of_pos (by simpa using hid)]
      refine ih (t'.setRequestedOne id typeId cp 0) ?_
      -- asking for one id does not change which transitions are legal
      intro id'
      rw [← ht' id']
      by_cases hidd : id' = id
      · subst hidd
        have hid' := (ht' id').trans hid
        rw [status_setRequestedOne hid', hid']
        rfl
      · have hother := (touches_setRequestedOne t' id typeId cp 0).others id' (by simpa using hidd)
        rw [show (t'.setRequestedOne id typeId cp 0).status id' = t'.status id' from
          statusIn_congr hother []]
    · rw [List.filter_cons_of_neg (by simpa using hid)]
      have hone : t'.setRequestedOne id typeId cp 0 = t' := by
        rw [setRequestedOne, ht' id, if_neg hid]
      show (t'.setRequestedOne id typeId cp 0).setRequested ids typeId cp = _
      rw [hone]
      exact ih t' ht'

/-! ## Whole runs -/

omit [DecidableEq Address] in
theorem marksExclusive_empty : MarksExclusive (empty : DeliveryTracker Address ModifierId) := by
  intro id
  exact ⟨rfl, rfl, rfl⟩

/-- Along a run the marks stay exclusive and no rejected id comes back. -/
theorem run_marks (settings : TrackerSettings) (calls : List (PublicCall Address ModifierId))
    {t : DeliveryTracker Address ModifierId} (hex : MarksExclusive t) :
    MarksExclusive (t.run settings calls)
      ∧ ∀ id, (t.marks id).Rejected → ((t.run settings calls).marks id).Rejected := by
  unfold run
  induction calls generalizing t with
  | nil => exact ⟨hex, fun _ h => h⟩
  | cons c calls ih =>
    have hstep := touches_perform settings hex c
    have hrest := ih (hstep.marksExclusive hex)
    rw [List.foldl_cons]
    exact ⟨hrest.1, fun id h => hrest.2 id (hstep.rejected id h)⟩

/-- **The status machine.**  After any sequence of public calls with any arguments:
the three collections are pairwise disjoint; a call that asks only for forbidden
transitions changes nothing, and the forbidden ids in a list of requests make no
difference; a call changes the status of no id that it is not about, whatever the
keepers hold; and an id that is invalid stays so, whatever is called later. -/
theorem status_machine (settings : TrackerSettings)
    (calls : List (PublicCall Address ModifierId)) :
    let t := (empty : DeliveryTracker Address ModifierId).run settings calls
    (∀ id, ¬ (id ∈ t.requested.keys ∧ id ∈ t.received.keys)
      ∧ ¬ (id ∈ t.requested.keys ∧ id ∈ t.invalid)
      ∧ ¬ (id ∈ t.received.keys ∧ id ∈ t.invalid))
    ∧ (∀ c : TrackerCall Address ModifierId, c.transitions ≠ [] →
        (∀ x ∈ c.transitions, isCorrectTransition (t.status x.1) x.2 = false) →
        t.exec settings c = t)
    ∧ (∀ ids typeId cp, t.setRequested ids typeId cp
        = t.setRequested (ids.filter fun id => isCorrectTransition (t.status id) .requested)
            typeId cp)
    ∧ (∀ c : PublicCall Address ModifierId, ∀ id ∉ c.ids, ∀ keepers,
        (t.perform settings c).statusIn id keepers = t.statusIn id keepers)
    ∧ (∀ id, t.status id = .invalid → ∀ later, (t.run settings later).status id = .invalid) := by
  intro t
  have hex : MarksExclusive t := (run_marks settings calls marksExclusive_empty).1
  refine ⟨?_, ?_, ?_, ?_, ?_⟩
  · intro id
    obtain ⟨h1, h2, h3⟩ := hex id
    simp only [marks, Bool.and_eq_false_imp, decide_eq_false_iff_not] at h1 h2 h3
    simp only [← LinkedMap.contains_iff]
    refine ⟨?_, ?_, ?_⟩
    · rintro ⟨hreq, hrec⟩
      rw [h1 hreq] at hrec
      cases hrec
    · rintro ⟨hreq, hinv⟩
      exact h2 hreq hinv
    · rintro ⟨hrec, hinv⟩
      exact h3 hrec hinv
  · intro c hne h
    exact exec_refused settings hex c hne h
  · intro ids typeId cp
    exact setRequested_filter ids typeId cp t
  · intro c id hid keepers
    exact statusIn_congr ((touches_perform settings hex c).others id hid) keepers
  · intro id hinv later
    rw [status_eq_invalid_iff] at hinv ⊢
    exact (run_marks settings later hex).2 id hinv

/-! ## Held modifiers

`Held` is read off a keeper, so a modifier is held as soon as the tracker has no mark of
it.  The table of transitions lets every status go to `Held`; clearing an `Invalid` one
clears nothing. -/

omit [DecidableEq Address] in
/-- A modifier that a keeper has is held if no collection has it. -/
theorem statusIn_eq_held_iff {t : DeliveryTracker Address ModifierId} {id : ModifierId}
    {keepers : List (ModifierId → Bool)}
    (hkeeper : keepers.any (fun keeper => keeper id) = true) :
    t.statusIn id keepers = .held ↔ t.marks id = ⟨false, false, false⟩ := by
  simp only [statusIn, marks, hkeeper]
  cases t.received.contains id <;> cases t.requested.contains id <;>
    by_cases h : id ∈ t.invalid <;> simp [h]

/-- `setHeld` takes the modifier out of `requested` and `received`. -/
theorem marks_setHeld (settings : TrackerSettings) {t : DeliveryTracker Address ModifierId}
    (hex : MarksExclusive t) (id : ModifierId) (now : ℤ) :
    (t.setHeld settings id now).marks id = ⟨false, false, (t.marks id).invalid⟩ := by
  obtain ⟨hreqrec, -, -⟩ := hex id
  simp only [marks] at hreqrec
  rw [setHeld, setCleared, if_pos (isCorrectTransition_held _)]
  by_cases hrec : t.received.contains id = true
  · -- received: its entry goes
    obtain ⟨⟨peer, timestamp⟩, hget⟩ := Option.isSome_iff_exists.1 hrec
    have hreq : t.requested.contains id = false := by simpa [hrec] using hreqrec
    simp [status_eq_received_iff.2 hrec, clearStatusForModifier, hget, marks, hreq,
      LinkedMap.contains_remove]
  · have hrec : t.received.contains id = false := by simpa using hrec
    by_cases hreq : t.requested.contains id = true
    · -- requested: its entry goes
      obtain ⟨info, hget⟩ := Option.isSome_iff_exists.1 hreq
      simp [status_eq_requested_iff.2 ⟨hreq, hrec⟩, clearStatusForModifier, hget, marks, hrec,
        LinkedMap.contains_remove]
    · -- neither: nothing is cleared
      have hreq : t.requested.contains id = false := by simpa using hreq
      have hclear : t.clearStatusForModifier settings id (t.status id) now = .ok t := by
        by_cases h : id ∈ t.invalid <;> simp [status, statusIn, hrec, hreq, h,
          clearStatusForModifier]
      simp [hclear, marks, hrec, hreq]

/-- **`setHeld` reaches `Held`** for the modifiers that are not in `invalid`, and for no
other, in every state that public calls lead to. -/
theorem setHeld_held_iff (settings : TrackerSettings)
    (calls : List (PublicCall Address ModifierId)) (id : ModifierId) (now : ℤ)
    {keepers : List (ModifierId → Bool)}
    (hkeeper : keepers.any (fun keeper => keeper id) = true) :
    let t := (empty : DeliveryTracker Address ModifierId).run settings calls
    (t.setHeld settings id now).statusIn id keepers = .held ↔ id ∉ t.invalid := by
  intro t
  have hex : MarksExclusive t := (run_marks settings calls marksExclusive_empty).1
  rw [statusIn_eq_held_iff hkeeper, marks_setHeld settings hex]
  simp [marks]

/-- Settings without slow mode and rebroadcast. -/
def plainSettings : TrackerSettings where
  maxDeliveryChecks := 2
  maxRequestedPerPeer := 3
  slowModeFeatureFlag := false
  slowModeThresholdMs := 0
  slowModeMaxRequested := 0
  averageProcessingTime _ elapsed := elapsed
  rebroadcastEnabled := false
  rebroadcastQueueSize := 0
  rebroadcastBatchSize := 0

/-- The modifier 7 was asked for and has come, the modifier 8 is invalid: only the first one is
held. -/
theorem setHeld_held_iff_received :
    let t := (empty : DeliveryTracker ℕ ℕ).run plainSettings
      [.tracker (.setRequested [7, 8] 1 (peerAt 5)), .tracker (.setReceived 7 (peerAt 5) 3),
        .tracker (.setInvalid 8 4)]
    (t.setHeld plainSettings 7 9).statusIn 7 [fun _ => true] = .held
      ∧ (t.setHeld plainSettings 8 9).statusIn 8 [fun _ => true] ≠ .held := by
  constructor
  · exact (setHeld_held_iff plainSettings _ 7 9 rfl).2 (by decide)
  · intro hheld
    exact absurd (by decide) ((setHeld_held_iff plainSettings _ 8 9 rfl).1 hheld)

/-- A modifier that was once invalid and is then applied on another way. -/
theorem setHeld_invalid :
    ¬∀ (settings : TrackerSettings) (calls : List (PublicCall ℕ ℕ)) (id : ℕ) (now : ℤ)
      (keepers : List (ℕ → Bool)), keepers.any (fun keeper => keeper id) = true →
      (((empty : DeliveryTracker ℕ ℕ).run settings calls).setHeld settings id now).statusIn id
        keepers = .held := by
  intro h
  have hheld := h plainSettings [.tracker (.setInvalid 7 0)] 7 0 [fun _ => true] rfl
  revert hheld
  decide

end DeliveryTracker

end Sparkz.Network
