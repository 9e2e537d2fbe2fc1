import Sparkz.Network.Exchange

/-!
# Honest peers

What the handlers of the synchronizer do in a fair network, and from it the invariant of the
exchange over whole runs.

* `touches_viewHolderEvents`, `touches_receiveScheduled` — what moves no mark of a modifier
  that the node waits for.
* `processInv_spec`, `modifiersFromRemote_spec` — the two handlers of peers' messages.
* `Sound.step` — the invariant, one lemma for each event.
* `asked_accounted` — what holds in every fair run; `honest_unpunished` — what holds if the
  holder takes what was delivered.
-/

namespace Sparkz.Network

open Sparkz.Lib

namespace DeliveryTracker

variable {Address ModifierId : Type} [DecidableEq Address] [DecidableEq ModifierId]

/-! ## Marks -/

omit [DecidableEq Address] in
theorem Touches.status_eq {ids : List ModifierId} {t t' : DeliveryTracker Address ModifierId}
    (h : Touches ids t t') {id : ModifierId} (hid : id ∉ ids) : t'.status id = t.status id :=
  statusIn_congr (h.others id hid) []

/-- What is asked for and was not known before is requested afterwards. -/
theorem status_setRequested {ids : List ModifierId} (typeId : ModifierTypeId)
    (cp : ConnectedPeer Address) {t : DeliveryTracker Address ModifierId}
    (h : ∀ id ∈ ids, t.status id = .unknown ∨ t.status id = .requested) :
    ∀ id ∈ ids, (t.setRequested ids typeId cp).status id = .requested := by
  induction ids generalizing t with
  | nil => simp
  | cons id ids ih =>
    have hcorrect : isCorrectTransition (t.status id) .requested = true := by
      rcases h id (by simp) with hst | hst
      · rw [hst]
        rfl
      · rw [hst]
        rfl
    have hone := status_setRequestedOne hcorrect typeId cp 0
    have htouches := touches_setRequestedOne t id typeId cp 0
    have hrest : ∀ id' ∈ ids, (t.setRequestedOne id typeId cp 0).status id' = .unknown ∨
        (t.setRequestedOne id typeId cp 0).status id' = .requested := by
      intro id' hid'
      by_cases heq : id' = id
      · rw [heq]
        exact .inr hone
      · rw [htouches.status_eq (by simpa using heq)]
        exact h id' (by simp [hid'])
    intro id' hid'
    show ((t.setRequestedOne id typeId cp 0).setRequested ids typeId cp).status id' = .requested
    by_cases hmem : id' ∈ ids
    · exact ih hrest id' hmem
    · obtain rfl : id' = id := by simpa [hmem] using hid'
      rw [(touches_setRequested ids typeId cp _).status_eq hmem]
      exact hone

@[simp] theorem invalid_setReceived (t : DeliveryTracker Address ModifierId) (id : ModifierId)
    (sender : ConnectedPeer Address) (now : ℤ) :
    (t.setReceived id sender now).invalid = t.invalid := by
  unfold setReceived
  split
  · split
    · split
      · rfl
      · simp
    · rfl
  · rfl

/-- Receiving something makes nothing else invalid. -/
theorem status_setReceived_ne_invalid {t : DeliveryTracker Address ModifierId}
    (hex : MarksExclusive t) {id : ModifierId} (h : t.status id ≠ .invalid) (id' : ModifierId)
    (sender : ConnectedPeer Address) (now : ℤ) :
    (t.setReceived id' sender now).status id ≠ .invalid := by
  intro hinvalid
  apply h
  rw [status_eq_invalid_iff] at hinvalid ⊢
  have hmem : (t.marks id).invalid = true := by
    have hafter := hinvalid.2.2
    simpa [marks] using hafter
  obtain ⟨-, hreq, hrec⟩ := hex id
  rw [hmem, Bool.and_true] at hreq hrec
  exact ⟨hreq, hrec, hmem⟩

theorem touches_receives {remote : ConnectedPeer Address} {now : ModifierId → ℤ}
    (ids : List ModifierId) {t : DeliveryTracker Address ModifierId} (hex : MarksExclusive t) :
    Touches ids t (ids.foldl (fun t id => t.setReceived id remote (now id)) t) := by
  induction ids generalizing t with
  | nil => exact .refl _ _
  | cons id ids ih =>
    have hone := touches_setReceived hex id remote (now id)
    exact (hone.mono (by simp)).trans ((ih (hone.marksExclusive hex)).mono (by simp; tauto))

theorem touches_clears (settings : TrackerSettings) {now : ModifierId → ℤ}
    (ids : List ModifierId) (t : DeliveryTracker Address ModifierId) :
    Touches ids t (ids.foldl (fun t id => t.setUnknown settings id (now id)) t) := by
  induction ids generalizing t with
  | nil => exact .refl _ _
  | cons id ids ih =>
    have hone := touches_setCleared settings t id .unknown (now id)
    exact (hone.mono (by simp)).trans ((ih _).mono (by simp; tauto))

/-- Calls around the rebroadcast queue touch nothing. -/
theorem Calls.touches {settings : TrackerSettings} {t t' : DeliveryTracker Address ModifierId}
    (h : Calls settings (fun _ _ => False) t t') (hex : MarksExclusive t) : Touches [] t t' := by
  apply Reaches.invariant (I := Touches [] t) _ (.refl _ _) h
  intro u c hu hc
  cases c with
  | tracker c => exact hc.1.elim
  | putInRebroadcastQueue id =>
    exact hu.trans (touches_perform settings (hu.marksExclusive hex) (.putInRebroadcastQueue id))
  | getRebroadcastModifiers =>
    exact hu.trans (touches_perform settings (hu.marksExclusive hex) .getRebroadcastModifiers)
  | scheduleRebroadcastIfNeeded =>
    exact hu.trans (touches_perform settings (hu.marksExclusive hex) .scheduleRebroadcastIfNeeded)
  | setSlowMode slowMode =>
    exact hu.trans (touches_perform settings (hu.marksExclusive hex) (.setSlowMode slowMode))

end DeliveryTracker

open DeliveryTracker

/-! ## Handlers -/

namespace NodeViewSynchronizer

section frames

variable {Address ModifierId TX PMOD : Type} [DecidableEq Address] [DecidableEq ModifierId]
  (s : SynchronizerSettings ModifierId TX PMOD)

/-- An event of the holder touches the modifiers that it settles. -/
theorem touches_viewHolderEvents {x : NodeViewSynchronizer Address ModifierId TX PMOD}
    (hex : MarksExclusive x.deliveryTracker) (now : ModifierId → ℤ)
    (event : ViewHolderEvent ModifierId TX PMOD) :
    Touches (event.ids s) x.deliveryTracker (x.viewHolderEvents s now event).1.deliveryTracker := by
  have hbroadcast : ∀ (x : NodeViewSynchronizer Address ModifierId TX PMOD) ids typeId id,
      MarksExclusive x.deliveryTracker → Touches ids x.deliveryTracker
        (x.broadcastModifierInv s typeId id).1.deliveryTracker := fun x ids typeId id hex =>
    ((calls_broadcastModifierInv x typeId id).touches hex).mono (by simp)
  have hinvalid : ∀ id penaltyType, Touches [id] x.deliveryTracker
      (x.invalidate s id now penaltyType).1.deliveryTracker :=
    fun id _ => touches_setInvalid s.tracker hex id (now id)
  have hheld : ∀ id, Touches [id] x.deliveryTracker
      (x.deliveryTracker.setHeld s.tracker id (now id)) :=
    fun id => touches_setCleared s.tracker _ id .held (now id)
  cases event with
  | successfulTransaction tx =>
    simp only [viewHolderEvents]
    split
    · exact (hheld _).trans (hbroadcast (x.withTracker _) _ _ _ ((hheld _).marksExclusive hex))
    · exact .refl _ _
  | failedTransaction id immediateFailure =>
    simp only [viewHolderEvents]
    split
    · exact hinvalid _ _
    · exact .refl _ _
  | syntacticallySuccessfulModifier pmod => exact hheld _
  | syntacticallyFailedModification pmod => exact hinvalid _ _
  | semanticallySuccessfulModifier pmod => exact hbroadcast x _ _ _ hex
  | semanticallyFailedModification pmod => exact hinvalid _ _
  | changedHistory reader => exact .refl _ _
  | changedMempool reader => exact .refl _ _
  | modifiersProcessingResult applied cleared => exact touches_clears s.tracker _ _

/-- A modifier that is neither waited for nor received is nobody's fault. -/
theorem invalidate_unknown {x : NodeViewSynchronizer Address ModifierId TX PMOD} {id : ModifierId}
    (hrequested : x.deliveryTracker.status id ≠ .requested)
    (hreceived : x.deliveryTracker.status id ≠ .received) (now : ModifierId → ℤ)
    (penaltyType : Option PenaltyType) : (x.invalidate s id now penaltyType).2 = [] := by
  have hnone : (x.deliveryTracker.setInvalid s.tracker id (now id)).1 = none := by
    unfold DeliveryTracker.setInvalid
    split
    · split
      · contradiction
      · contradiction
      · rfl
    · rfl
  simp only [invalidate, hnone]

/-- The message of a timer for a modifier that is not waited for touches nothing. -/
theorem touches_receiveScheduled {x : NodeViewSynchronizer Address ModifierId TX PMOD}
    (hex : MarksExclusive x.deliveryTracker) (now : ModifierId → ℤ)
    {message : ScheduledMessage Address ModifierId}
    (h : ∀ peer typeId id, message = .checkDelivery peer typeId id →
      x.deliveryTracker.status id ≠ .requested) :
    Touches [] x.deliveryTracker
      (Synchronizing.receiveScheduled s x now message).1.deliveryTracker := by
  cases message with
  | checkDelivery peer typeId id =>
    rw [Synchronizing.receiveScheduled, checkDelivery, if_neg (h peer typeId id rfl)]
    exact .refl _ _
  | transactionRebroadcast => exact (calls_transactionRebroadcast x).touches hex

/-- **An inventory** is answered by at most one request: for modifiers of the inventory that
were unknown, which are requested then. -/
theorem processInv_spec (x : NodeViewSynchronizer Address ModifierId TX PMOD)
    (typeId : ModifierTypeId) (ids : List ModifierId) (peer : ConnectedPeer Address) :
    x.processInv s typeId ids peer = (x, []) ∨
      ∃ new, new ≠ [] ∧ new.Sublist ids ∧ (∀ id ∈ new, x.deliveryTracker.status id = .unknown) ∧
        x.processInv s typeId ids peer
          = (x.withTracker (x.deliveryTracker.setRequested new typeId peer),
            [.requestModifier peer typeId new]) := by
  unfold processInv
  split
  · rename_i mempool history _ _
    generalize hnew : newModifierIds s x.deliveryTracker mempool history typeId ids peer = new
    have hunknown : ∀ keeper id, x.deliveryTracker.statusIn id [keeper] = .unknown →
        x.deliveryTracker.status id = .unknown := by
      intro keeper id h
      simp only [status, statusIn] at h ⊢
      split at h
      · cases h
      · split at h
        · cases h
        · split at h
          · cases h
          · rename_i hrec hreq hinv
            rw [if_neg hrec, if_neg hreq, if_neg hinv]
            simp
    have hsub : new.Sublist ids ∧ ∀ id ∈ new, x.deliveryTracker.status id = .unknown := by
      rw [← hnew, newModifierIds]
      refine ⟨(List.take_sublist _ _).trans ?_, fun id hid => ?_⟩
      · split
        · split
          · exact List.filter_sublist
          · exact List.nil_sublist _
        · exact List.filter_sublist
      · have hmem := List.mem_of_mem_take hid
        split at hmem
        · split at hmem
          · exact hunknown _ id (by simpa using (List.mem_filter.1 hmem).2)
          · cases hmem
        · exact hunknown _ id (by simpa using (List.mem_filter.1 hmem).2)
    cases new with
    | nil => exact .inl rfl
    | cons id new => exact .inr ⟨id :: new, List.cons_ne_nil _ _, hsub.1, hsub.2, rfl⟩
  · exact .inl rfl

omit [DecidableEq Address] in
/-- Modifiers that are parsed whole and have their ids are parsed without a penalty. -/
theorem parseModifiers_of_forall {M : Type} {serializer : ParseTry M} {idOf : M → ModifierId}
    {modifiers : List (ModifierId × List UInt8)} (remote : ConnectedPeer Address)
    (h : ∀ p ∈ modifiers, ∃ m, serializer p.2 = some (m, 0) ∧ p.1 = idOf m) :
    parseModifiers serializer idOf remote modifiers
      = (modifiers.filterMap fun p => (serializer p.2).map Prod.fst,
        ([] : List (Sent Address ModifierId TX PMOD))) := by
  have hone : ∀ p ∈ modifiers, parseModifier serializer idOf remote p
      = ((serializer p.2).map Prod.fst, ([] : List (Sent Address ModifierId TX PMOD))) := by
    intro p hp
    obtain ⟨m, hm, hid⟩ := h p hp
    rw [parseModifier, hm]
    simp [hid]
  rw [parseModifiers, List.map_congr_left hone]
  simp [List.filterMap_map, List.flatMap_map]

end frames

section exchange

open Exchange

variable {Address TX PMOD : Type} [DecidableEq Address] {s : NetworkSettings TX PMOD}

/-- Modifiers that the node takes are all valid, and are received. -/
theorem validateAll_of_takes (remote : ConnectedPeer Address) (now : String → ℤ)
    {pmods : List PMOD} {x : NodeViewSynchronizer Address String TX PMOD}
    (hex : MarksExclusive x.deliveryTracker) (h : ∀ pmod ∈ pmods, Takes s x pmod) :
    validateAll s.toSynchronizerSettings remote now x pmods
      = (pmods, x.withTracker ((pmods.map s.pmodId).foldl
        (fun t id => t.setReceived id remote (now id)) x.deliveryTracker), []) := by
  induction pmods generalizing x with
  | nil => rfl
  | cons pmod pmods ih =>
    obtain ⟨hparent, hhistory⟩ := h pmod (by simp)
    have hone : x.validateAndSetStatus s.toSynchronizerSettings remote pmod now
        = (true, x.withTracker (x.deliveryTracker.setReceived (s.pmodId pmod) remote
          (now (s.pmodId pmod))), []) := by
      unfold validateAndSetStatus
      simp only [if_neg hparent]
      split
      · rename_i hr hreader
        split
        · rename_i hmalformed
          exact absurd hmalformed (hhistory hr hreader)
        · rfl
      · rfl
    have htouches := touches_setReceived hex (s.pmodId pmod) remote (now (s.pmodId pmod))
    -- receiving one modifier leaves the node willing to take the others
    have hrest := ih (x := x.withTracker (x.deliveryTracker.setReceived (s.pmodId pmod) remote
      (now (s.pmodId pmod)))) (htouches.marksExclusive hex) fun pmod' hpmod' =>
        ⟨status_setReceived_ne_invalid hex (h pmod' (by simp [hpmod'])).1 _ remote _,
          (h pmod' (by simp [hpmod'])).2⟩
    rw [validateAll, hone]
    simp only [hrest]
    rfl

omit [DecidableEq Address] in
/-- What a peer sends that was asked for is not spam. -/
theorem processSpam_of_requested {x : NodeViewSynchronizer Address String TX PMOD}
    {modifiers : List (String × List UInt8)} (remote : ConnectedPeer Address)
    (h : ∀ p ∈ modifiers, x.deliveryTracker.status p.1 = .requested) :
    x.processSpam remote modifiers = (modifiers, []) := by
  have hall : modifiers.partition (fun p => x.deliveryTracker.status p.1 = .requested)
      = (modifiers, []) := by
    rw [List.partition_eq_filter_filter]
    congr 1
    · exact List.filter_eq_self.2 (by simpa using h)
    · exact List.filter_eq_nil_iff.2 (by simpa using h)
  rw [processSpam, hall]
  rfl

omit [DecidableEq Address] in
/-- What the modifiers of a message are, when one serializer parses all of them. -/
theorem parsed_of_serializer {M : Type} {serializer : ParseTry M} {wrap : M → TX ⊕ PMOD}
    {idOf : M → String} (remote : ConnectedPeer Address)
    (hid : ∀ m, s.modifierId (wrap m) = idOf m) {modifiers : List (String × List UInt8)}
    (h : ∀ p ∈ modifiers, ∃ m, (serializer p.2).map (fun q => (wrap q.1, q.2)) = some (m, 0) ∧
      p.1 = s.modifierId m) :
    ∃ parsed, (modifiers.filterMap fun p => ((serializer p.2).map fun q => (wrap q.1, q.2)).map
        Prod.fst) = parsed.map wrap ∧
      parseModifiers serializer idOf remote modifiers
        = (parsed, ([] : List (Sent Address String TX PMOD))) := by
  refine ⟨modifiers.filterMap fun p => (serializer p.2).map Prod.fst, ?_, ?_⟩
  · rw [List.map_filterMap]
    simp only [Option.map_map]
    rfl
  · apply parseModifiers_of_forall
    intro p hp
    obtain ⟨m, hm, hpid⟩ := h p hp
    obtain ⟨⟨m', remaining⟩, hm', hpair⟩ := Option.map_eq_some_iff.1 hm
    obtain ⟨rfl, rfl⟩ := Prod.mk.inj hpair
    exact ⟨m', hm', hpid.trans (hid m')⟩

/-- **A message** of an honest peer: its modifiers are handed over, no penalty is sent, and
no other modifier is touched. -/
theorem modifiersFromRemote_spec {x : NodeViewSynchronizer Address String TX PMOD}
    (hex : MarksExclusive x.deliveryTracker) {bytes : List UInt8} {data : ModifiersData}
    (h : s.Readable bytes data)
    (hrequested : ∀ m ∈ s.deliveredObjects bytes,
      x.deliveryTracker.status (s.modifierId m) = .requested)
    (htakes : ∀ pmod, .inr pmod ∈ s.deliveredObjects bytes → Takes s x pmod)
    (remote : ConnectedPeer Address) (now : String → ℤ) {r : _}
    (hr : x.modifiersFromRemote s.toSynchronizerSettings data.typeId data.modifiers remote now
      = r) :
    Touches ((s.deliveredObjects bytes).map s.modifierId) x.deliveryTracker r.1.deliveryTracker ∧
      asked r.2 = [] ∧ handed r.2 = s.deliveredObjects bytes ∧ ∀ m ∈ r.2, ¬ IsPenalty m := by
  have hspam : x.processSpam remote data.modifiers = (data.modifiers, []) := by
    apply processSpam_of_requested
    intro p hp
    have hmem := h.map_fst ▸ List.mem_map_of_mem (f := Prod.fst) hp
    obtain ⟨m, hm, hid⟩ := List.mem_map.1 hmem
    rw [← hid]
    exact hrequested m hm
  obtain ⟨hparse, hall⟩ := h
  rw [NetworkSettings.deliveredObjects_eq hparse] at htakes ⊢
  subst hr
  unfold modifiersFromRemote
  simp only [hspam]
  have hempty : (∀ p ∈ data.modifiers, ∃ m : TX ⊕ PMOD, none = some (m, 0) ∧
      p.1 = s.modifierId m) → data.modifiers = [] := by
    intro hnone
    apply List.eq_nil_iff_forall_not_mem.2
    intro p hp
    obtain ⟨m, hm, -⟩ := hnone p hp
    cases hm
  by_cases htx : data.typeId = transactionTypeId
  · simp only [htx, if_true, NetworkSettings.parseObject] at hall ⊢
    cases hser : s.transactionSerializer with
    | none =>
      rw [hser] at hall
      rw [hempty hall]
      exact ⟨.refl _ _, rfl, rfl, by simp⟩
    | some serializer =>
      simp only [hser, Option.bind_some] at hall ⊢
      have hid : ∀ tx, s.modifierId (.inl tx) = s.txId tx := fun _ => rfl
      obtain ⟨txs, hobjects, hparsed⟩ := parsed_of_serializer remote hid hall
      rw [hobjects]
      simp only [hparsed, List.nil_append]
      refine ⟨?_, rfl, by simp [handed], by simp [IsPenalty]⟩
      rw [List.map_map]
      exact touches_receives (txs.map s.txId) hex
  · simp only [htx, if_false, NetworkSettings.parseObject] at hall htakes ⊢
    cases hser : s.modifierSerializers data.typeId with
    | none =>
      rw [hser] at hall
      rw [hempty hall]
      exact ⟨.refl _ _, rfl, rfl, by simp⟩
    | some serializer =>
      simp only [hser, Option.bind_some] at hall htakes ⊢
      have hid : ∀ pmod, s.modifierId (.inr pmod) = s.pmodId pmod := fun _ => rfl
      obtain ⟨pmods, hobjects, hparsed⟩ := parsed_of_serializer remote hid hall
      rw [hobjects] at htakes ⊢
      have hvalid := validateAll_of_takes remote now hex
        fun pmod hpmod => htakes pmod (List.mem_map_of_mem hpmod)
      simp only [hparsed, hvalid, List.nil_append]
      refine ⟨?_, ?_, ?_, ?_⟩
      · rw [List.map_map]
        exact touches_receives (pmods.map s.pmodId) hex
      · cases pmods <;> rfl
      · cases pmods <;> simp [handed]
      · cases pmods <;> simp [IsPenalty]

end exchange

end NodeViewSynchronizer

/-! ## The invariant -/

namespace Exchange

variable {Address TX PMOD : Type} [DecidableEq Address] {s : NetworkSettings TX PMOD}
  {x : Exchange Address TX PMOD}

/-- What holds in a fair network: what is under way can be read, every modifier of it is
under way once and is waited for, and the ledger is balanced. -/
structure Sound (s : NetworkSettings TX PMOD) (x : Exchange Address TX PMOD) : Prop where
  exclusive : MarksExclusive x.node.deliveryTracker
  answerable : ∀ r ∈ x.responses, ∃ typeId, s.Answerable typeId r.2
  readable : ∀ d ∈ x.deliveries, ∃ data, s.Readable d.2 data
  waited : ∀ id ∈ x.outstanding s, x.node.deliveryTracker.status id = .requested
  once : (x.outstanding s).Nodup
  accounted : Accounted s x

theorem perm_eraseIdx {α : Type} {l : List α} {i : ℕ} {a : α} (h : l[i]? = some a) :
    l.Perm (a :: l.eraseIdx i) := by
  obtain ⟨hi, rfl⟩ := List.getElem?_eq_some_iff.1 h
  exact (List.getElem_cons_eraseIdx_perm hi).symm

/-- What is taken out of a list of messages. -/
theorem perm_flatMap_eraseIdx {α β : Type} {l : List α} {i : ℕ} {a : α} (h : l[i]? = some a)
    (f : α → List β) : (l.flatMap f).Perm (f a ++ (l.eraseIdx i).flatMap f) :=
  (perm_eraseIdx h).flatMap_right f

section

omit [DecidableEq Address]

/-- A request for nothing is not written. -/
theorem requestsOf_eq_nil {sent : List (Sent Address String TX PMOD)} (h : asked sent = []) :
    requestsOf s sent = [] := by
  rw [asked, List.flatMap_eq_nil_iff] at h
  rw [requestsOf, List.flatMap_eq_nil_iff]
  intro m hm
  have hids := h m hm
  cases m with
  | requestModifier peer typeId ids =>
    obtain rfl : ids = [] := hids
    rfl
  | _ => rfl

theorem asked_append (sent sent' : List (Sent Address String TX PMOD)) :
    asked (sent ++ sent') = asked sent ++ asked sent' :=
  List.flatMap_append

theorem handed_append (sent sent' : List (Sent Address String TX PMOD)) :
    handed (sent ++ sent') = handed sent ++ handed sent' :=
  List.flatMap_append

end

omit [DecidableEq Address] in
/-- Nothing happens to what is under way when the node neither asks nor hands over anything
and touches nothing that it waits for. -/
theorem Sound.handled {ids : List String} {r : _} (h : Sound s x)
    (htouches : Touches ids x.node.deliveryTracker r.1.deliveryTracker)
    (hids : ∀ id ∈ ids, x.node.deliveryTracker.status id ≠ .requested)
    (hasked : asked r.2 = []) (hhanded : handed r.2 = []) : Sound s (x.handled s r) := by
  have hrequests : (x.handled s r).requests = x.requests := by
    show x.requests ++ requestsOf s r.2 = x.requests
    rw [requestsOf_eq_nil hasked, List.append_nil]
  have hrequesting : (x.handled s r).requesting s = x.requesting s := by
    rw [requesting, hrequests]
    rfl
  have houtstanding : (x.handled s r).outstanding s = x.outstanding s := by
    rw [outstanding, hrequesting]
    rfl
  have hsent : (x.handled s r).sent = x.sent ++ r.2 := rfl
  refine ⟨htouches.marksExclusive h.exclusive, h.answerable, h.readable, ?_, ?_, ⟨?_, ?_⟩⟩
  · intro id hid
    rw [houtstanding] at hid
    have hwaited := h.waited id hid
    show r.1.deliveryTracker.status id = .requested
    rw [htouches.status_eq fun hmem => hids id hmem hwaited]
    exact hwaited
  · rw [houtstanding]
    exact h.once
  · rw [hsent, asked_append, hasked, List.append_nil, hrequesting]
    exact h.accounted.asked
  · rw [hsent, handed_append, hhanded, List.append_nil]
    exact h.accounted.served

omit [DecidableEq Address] in
/-- An announcement asks for nothing. -/
theorem sent_broadcastModifierInv (settings : SynchronizerSettings String TX PMOD)
    (node : NodeViewSynchronizer Address String TX PMOD) (typeId : ModifierTypeId) (id : String) :
    asked (node.broadcastModifierInv settings typeId id).2 = [] ∧
      handed (node.broadcastModifierInv settings typeId id).2 = [] ∧
      ∀ m ∈ (node.broadcastModifierInv settings typeId id).2, ¬ IsPenalty m := by
  unfold NodeViewSynchronizer.broadcastModifierInv
  split
  · exact ⟨rfl, rfl, by simp⟩
  · split <;> simp [asked, handed, IsPenalty]

omit [DecidableEq Address] in
/-- The message of a timer for the rebroadcast asks for nothing. -/
theorem sent_broadcastAll (settings : SynchronizerSettings String TX PMOD) (txs : List TX)
    (node : NodeViewSynchronizer Address String TX PMOD) :
    asked (NodeViewSynchronizer.broadcastAll settings node txs).2 = [] ∧
      handed (NodeViewSynchronizer.broadcastAll settings node txs).2 = [] ∧
      ∀ m ∈ (NodeViewSynchronizer.broadcastAll settings node txs).2, ¬ IsPenalty m := by
  induction txs generalizing node with
  | nil => exact ⟨rfl, rfl, by simp [NodeViewSynchronizer.broadcastAll]⟩
  | cons tx txs ih =>
    obtain ⟨hasked, hhanded, hpenalty⟩ :=
      sent_broadcastModifierInv settings node transactionTypeId (settings.txId tx)
    obtain ⟨hasked', hhanded', hpenalty'⟩ :=
      ih (node.broadcastModifierInv settings transactionTypeId (settings.txId tx)).1
    simp only [NodeViewSynchronizer.broadcastAll]
    refine ⟨by rw [asked_append, hasked, hasked']; rfl,
      by rw [handed_append, hhanded, hhanded']; rfl,
      fun m hm => ?_⟩
    exact (List.mem_append.1 hm).elim (hpenalty m) (hpenalty' m)

/-- What an event of the holder makes the node send asks for nothing. -/
theorem sent_viewHolderEvents (settings : SynchronizerSettings String TX PMOD)
    (node : NodeViewSynchronizer Address String TX PMOD) (now : String → ℤ)
    (event : ViewHolderEvent String TX PMOD) :
    asked (node.viewHolderEvents settings now event).2 = [] ∧
      handed (node.viewHolderEvents settings now event).2 = [] := by
  have hinvalid : ∀ id penaltyType, asked (node.invalidate settings id now penaltyType).2 = [] ∧
      handed (node.invalidate settings id now penaltyType).2 = [] := by
    intro id penaltyType
    simp only [NodeViewSynchronizer.invalidate]
    split <;> exact ⟨rfl, rfl⟩
  have hbroadcast : ∀ (node : NodeViewSynchronizer Address String TX PMOD) typeId id,
      asked (node.broadcastModifierInv settings typeId id).2 = [] ∧
        handed (node.broadcastModifierInv settings typeId id).2 = [] :=
    fun node typeId id => ⟨(sent_broadcastModifierInv settings node typeId id).1,
      (sent_broadcastModifierInv settings node typeId id).2.1⟩
  cases event with
  | successfulTransaction tx =>
    simp only [NodeViewSynchronizer.viewHolderEvents]
    split
    · exact hbroadcast _ _ _
    · exact ⟨rfl, rfl⟩
  | failedTransaction id immediateFailure =>
    simp only [NodeViewSynchronizer.viewHolderEvents]
    split
    · exact hinvalid _ _
    · exact ⟨rfl, rfl⟩
  | syntacticallyFailedModification pmod => exact hinvalid _ _
  | semanticallySuccessfulModifier pmod => exact hbroadcast _ _ _
  | semanticallyFailedModification pmod => exact hinvalid _ _
  | _ => exact ⟨rfl, rfl⟩

/-- An event that refuses nothing that is waited for or received penalizes nobody. -/
theorem unpunished_viewHolderEvents {settings : SynchronizerSettings String TX PMOD}
    {node : NodeViewSynchronizer Address String TX PMOD} (now : String → ℤ)
    {event : ViewHolderEvent String TX PMOD}
    (h : ∀ id ∈ event.refused settings, node.deliveryTracker.status id ≠ .requested ∧
      node.deliveryTracker.status id ≠ .received) :
    ∀ m ∈ (node.viewHolderEvents settings now event).2, ¬ IsPenalty m := by
  have hinvalid : ∀ id ∈ event.refused settings, ∀ penaltyType,
      ∀ m ∈ (node.invalidate settings id now penaltyType).2, ¬ IsPenalty m := by
    intro id hid penaltyType m hm
    rw [NodeViewSynchronizer.invalidate_unknown settings (h id hid).1 (h id hid).2] at hm
    cases hm
  have hbroadcast : ∀ (node : NodeViewSynchronizer Address String TX PMOD) typeId id,
      ∀ m ∈ (node.broadcastModifierInv settings typeId id).2, ¬ IsPenalty m :=
    fun node typeId id => (sent_broadcastModifierInv settings node typeId id).2.2
  cases event with
  | successfulTransaction tx =>
    simp only [NodeViewSynchronizer.viewHolderEvents]
    split
    · exact hbroadcast _ _ _
    · simp
  | failedTransaction id immediateFailure =>
    simp only [NodeViewSynchronizer.viewHolderEvents]
    split
    · exact hinvalid _ List.mem_cons_self _
    · simp
  | syntacticallyFailedModification pmod => exact hinvalid _ List.mem_cons_self _
  | semanticallySuccessfulModifier pmod => exact hbroadcast _ _ _
  | semanticallyFailedModification pmod => exact hinvalid _ List.mem_cons_self _
  | _ => simp [NodeViewSynchronizer.viewHolderEvents]

theorem Sound.viewHolder (h : Sound s x) {event : ViewHolderEvent String TX PMOD}
    {now : String → ℤ} (hfair : Fair s x (.viewHolder event now)) :
    Sound s (x.step s (.viewHolder event now)) := by
  have htouches := NodeViewSynchronizer.touches_viewHolderEvents s.toSynchronizerSettings
    h.exclusive now event
  obtain ⟨hasked, hhanded⟩ := sent_viewHolderEvents s.toSynchronizerSettings x.node now event
  exact h.handled htouches hfair hasked hhanded

/-- What the message of a timer for a modifier that is not waited for makes the node send. -/
theorem sent_receiveScheduled {message : ScheduledMessage Address String} {now : String → ℤ}
    (hfair : Fair s x (.scheduled message now)) :
    asked (Synchronizing.receiveScheduled s.toSynchronizerSettings x.node now message).2 = [] ∧
      handed (Synchronizing.receiveScheduled s.toSynchronizerSettings x.node now message).2 = [] ∧
      ∀ m ∈ (Synchronizing.receiveScheduled s.toSynchronizerSettings x.node now message).2,
        ¬ IsPenalty m := by
  cases message with
  | checkDelivery peer typeId id =>
    rw [Synchronizing.receiveScheduled, NodeViewSynchronizer.checkDelivery,
      if_neg (hfair peer typeId id rfl)]
    exact ⟨rfl, rfl, by simp⟩
  | transactionRebroadcast =>
    simp only [Synchronizing.receiveScheduled, NodeViewSynchronizer.transactionRebroadcast]
    split
    · exact sent_broadcastAll _ _ _
    · exact ⟨rfl, rfl, by simp⟩

theorem Sound.scheduled (h : Sound s x) {message : ScheduledMessage Address String}
    {now : String → ℤ} (hfair : Fair s x (.scheduled message now)) :
    Sound s (x.step s (.scheduled message now)) := by
  have htouches := NodeViewSynchronizer.touches_receiveScheduled s.toSynchronizerSettings
    h.exclusive now hfair
  obtain ⟨hasked, hhanded, -⟩ := sent_receiveScheduled hfair
  exact h.handled htouches (by simp) hasked hhanded

/-- **A request** for modifiers that were unknown is under way, and they are waited for. -/
theorem Sound.request (h : Sound s x) {peer : ConnectedPeer Address} {typeId : ModifierTypeId}
    {new : List String} {bytes : List UInt8} (hnodup : new.Nodup)
    (hunknown : ∀ id ∈ new, x.node.deliveryTracker.status id = .unknown)
    (hserialize : RequestModifierSpec.serialize s.maxInvObjects ⟨typeId, new⟩ = some bytes)
    (hparse : RequestModifierSpec.parseBytes s.maxInvObjects bytes = some ⟨typeId, new⟩) :
    Sound s (x.handled s (x.node.withTracker (x.node.deliveryTracker.setRequested new typeId peer),
      [.requestModifier peer typeId new])) := by
  generalize hy : x.handled s (x.node.withTracker _, _) = y
  have htracker : y.node.deliveryTracker
      = x.node.deliveryTracker.setRequested new typeId peer := by
    rw [← hy]
    rfl
  have htouches := touches_setRequested new typeId peer x.node.deliveryTracker
  have hrequesting : y.requesting s = x.requesting s ++ new := by
    rw [← hy]
    simp [Exchange.handled, requesting, requestsOf, requestIds, hserialize, hparse]
  have hrest : y.underway s = x.underway s ∧ y.lacking = x.lacking ∧ y.served = x.served ∧
      y.responses = x.responses ∧ y.deliveries = x.deliveries := by
    rw [← hy]
    exact ⟨rfl, rfl, rfl, rfl, rfl⟩
  obtain ⟨hunderway, hlacking, hserved, hresponses, hdeliveries⟩ := hrest
  have hsent : y.sent = x.sent ++ [.requestModifier peer typeId new] := by
    rw [← hy]
    rfl
  have hnew : ∀ id ∈ new, id ∉ x.outstanding s := by
    intro id hid hout
    have hrequested := h.waited id hout
    rw [hunknown id hid] at hrequested
    cases hrequested
  have hperm : (y.outstanding s).Perm (new ++ x.outstanding s) := by
    rw [outstanding, outstanding, hrequesting, hunderway, List.append_assoc]
    exact List.perm_append_comm_assoc _ _ _
  refine ⟨?_, hresponses ▸ h.answerable, hdeliveries ▸ h.readable, ?_, ?_, ⟨?_, ?_⟩⟩
  · rw [htracker]
    exact htouches.marksExclusive h.exclusive
  · intro id hid
    rw [htracker]
    rcases List.mem_append.1 (hperm.subset hid) with hmem | hmem
    · exact status_setRequested typeId peer (fun id' hid' => .inl (hunknown id' hid')) id hmem
    · rw [htouches.status_eq fun hmem' => hnew id hmem' hmem]
      exact h.waited id hmem
  · rw [hperm.nodup_iff]
    exact List.nodup_append'.2 ⟨hnodup, h.once, hnew⟩
  · rw [hsent, asked_append, hrequesting, hlacking, hserved]
    apply List.perm_iff_count.2
    intro id
    have hcount := List.perm_iff_count.1 h.accounted.asked id
    have hone : asked [(.requestModifier peer typeId new : Sent Address String TX PMOD)] = new := by
      simp [asked]
    simp only [List.count_append, hone] at hcount ⊢
    omega
  · rw [hserved, hsent, handed_append, hunderway]
    show x.served.Perm (x.underway s ++ (handed x.sent ++ []))
    rw [List.append_nil]
    exact h.accounted.served

theorem Sound.inv (hmax : s.maxInvObjects < 2 ^ 31) (h : Sound s x) {peer : ConnectedPeer Address}
    {bytes : List UInt8} (hfair : Fair s x (.inv peer bytes)) :
    Sound s (x.step s (.inv peer bytes)) := by
  obtain ⟨data, hparse, hnodup⟩ := hfair
  have hwell := InvSpec.wellFormed_of_parseBytes hparse
  simp only [step, parseAndHandle, hparse]
  rcases NodeViewSynchronizer.processInv_spec s.toSynchronizerSettings x.node data.typeId data.ids
    peer with hnone | ⟨new, hne, hsub, hunknown, hsome⟩
  · rw [hnone]
    exact h.handled (.refl [] _) (by simp) rfl rfl
  · rw [hsome]
    obtain ⟨out, hserialize, hread⟩ := InvSpec.parseBytes_serialize hmax (hwell.sublist hsub hne)
    exact h.request (hnodup.sublist hsub) hunknown hserialize hread

/-- The modifiers that a peer finds are among those it was asked for. -/
theorem Supplies.subperm {readers : ModifierReaders TX PMOD} {data : InvData}
    (h : Supplies s readers data) {objs : List (TX ⊕ PMOD)}
    (hobjs : s.modifiersReq (some readers) data = some objs) :
    (objs.map s.modifierId).Subperm data.ids := by
  obtain rfl := Option.some.inj hobjs
  split
  · split
    · rw [List.map_map]
      exact h.getAll
    · exact List.nil_subperm
  · rw [List.map_map]
    apply List.Sublist.subperm
    have hfound := h.modifierById
    generalize data.ids = ids at hfound
    induction ids with
    | nil => exact List.Sublist.refl _
    | cons id ids ih =>
      have hrest := ih fun id' hid' => hfound id' (by simp [hid'])
      cases hget : readers.modifierById id with
      | none =>
        rw [List.filterMap_cons, hget]
        exact hrest.cons id
      | some pmod =>
        rw [List.filterMap_cons, hget]
        have hid : (s.modifierId ∘ Sum.inr) pmod = id := hfound id (by simp) pmod hget
        rw [List.map_cons, hid]
        exact hrest.cons_cons id

omit [DecidableEq Address] in
/-- Messages move on while the node does nothing. -/
theorem Sound.moved {y : Exchange Address TX PMOD} (h : Sound s x) (hnode : y.node = x.node)
    (hanswerable : ∀ r ∈ y.responses, ∃ typeId, s.Answerable typeId r.2)
    (hreadable : ∀ d ∈ y.deliveries, ∃ data, s.Readable d.2 data)
    (hout : (y.outstanding s).Subperm (x.outstanding s)) (haccounted : Accounted s y) :
    Sound s y where
  exclusive := hnode ▸ h.exclusive
  answerable := hanswerable
  readable := hreadable
  waited id hid := hnode ▸ h.waited id (hout.subset hid)
  once := by
    obtain ⟨l, hperm, hsub⟩ := hout
    exact hperm.nodup_iff.1 (h.once.sublist hsub)
  accounted := haccounted

/-- **A peer reads a request**: what it has is under way, the rest is missing. -/
theorem Sound.serve (h : Sound s x) {i : ℕ} {readersOpt : Option (ModifierReaders TX PMOD)}
    (hfair : Fair s x (.serve i readersOpt)) : Sound s (x.step s (.serve i readersOpt)) := by
  cases hget : x.requests[i]? with
  | none =>
    rw [step, hget]
    exact h
  | some r =>
    obtain ⟨peer, bytes⟩ := r
    have hrequests := perm_flatMap_eraseIdx hget fun r => requestIds s r.2
    cases hparse : RequestModifierSpec.parseBytes s.maxInvObjects bytes with
    | none =>
      have hids : requestIds s bytes = [] := by
        rw [requestIds, hparse]
        rfl
      simp only [hids, List.nil_append] at hrequests
      simp only [step, hget, hparse]
      refine h.moved rfl h.answerable h.readable ?_ ⟨?_, h.accounted.served⟩
      · exact (hrequests.append_right _).symm.subperm
      · exact h.accounted.asked.trans ((hrequests.append_right _).append_right _)
    | some data =>
      have hids : requestIds s bytes = data.ids := by
        rw [requestIds, hparse]
        rfl
      simp only [hids] at hrequests
      simp only [step, hget, hparse]
      generalize hobjs : s.modifiersReq readersOpt data = objs
      have hfound : ((objs.getD []).map s.modifierId).Subperm data.ids ∧
          ∀ r ∈ objs.toList.map fun objs => (peer, objs), ∃ typeId, s.Answerable typeId r.2 := by
        cases readersOpt with
        | none =>
          obtain rfl : none = objs := hobjs
          exact ⟨List.nil_subperm, by simp⟩
        | some readers =>
          have hsupplies := hfair peer bytes data readers hget hparse rfl
          obtain ⟨found, rfl⟩ : ∃ found, some found = objs := ⟨_, hobjs⟩
          exact ⟨hsupplies.subperm hobjs, by simpa using ⟨_, hsupplies.answerable found hobjs⟩⟩
      obtain ⟨hsubperm, hanswerable⟩ := hfound
      have hresponses : (objs.toList.map fun objs => (peer, objs)).flatMap Prod.snd
          = objs.getD [] := by
        cases objs <;> simp
      have hrequesting : ∀ id, (x.requesting s).count id = data.ids.count id
          + ((x.requests.eraseIdx i).flatMap fun r => requestIds s r.2).count id := by
        intro id
        rw [requesting, List.perm_iff_count.1 hrequests id, List.count_append]
      have hdiff : ∀ id, data.ids.count id = ((objs.getD []).map s.modifierId).count id
          + (data.ids.diff ((objs.getD []).map s.modifierId)).count id := by
        intro id
        have hle := hsubperm.count_le id
        rw [List.count_diff]
        omega
      refine h.moved rfl ?_ h.readable ?_ ⟨?_, ?_⟩
      · intro r hr
        exact (List.mem_append.1 hr).elim (h.answerable r) (hanswerable r)
      · apply List.subperm_ext_iff.2
        intro id _
        have h1 := hrequesting id
        have h2 := hdiff id
        simp only [outstanding, requesting, underway, List.flatMap_append, hresponses,
          List.map_append, List.count_append] at h1 ⊢
        omega
      · apply List.perm_iff_count.2
        intro id
        have hasked := List.perm_iff_count.1 h.accounted.asked id
        have h1 := hrequesting id
        have h2 := hdiff id
        simp only [requesting, List.map_append, List.count_append] at hasked h1 ⊢
        omega
      · have hserved := h.accounted.served.append_right (objs.getD [])
        simp only [underway, List.flatMap_append, hresponses, List.append_assoc] at hserved ⊢
        apply hserved.trans
        apply List.Perm.append_left
        rw [← List.append_assoc]
        exact List.perm_append_comm

/-- **A peer answers**: the messages hold what it has found. -/
theorem Sound.respond (h : Sound s x) (i : ℕ) : Sound s (x.step s (.respond i)) := by
  cases hget : x.responses[i]? with
  | none =>
    rw [step, hget]
    exact h
  | some r =>
    obtain ⟨peer, modifiers⟩ := r
    obtain ⟨typeId, hanswerable⟩ := h.answerable _ (List.mem_of_getElem? hget)
    obtain ⟨hreadable, hobjects⟩ := NetworkSettings.responseBytes_spec hanswerable
    have hresponses := perm_flatMap_eraseIdx hget Prod.snd
    simp only [step, hget]
    have hunderway : (x.underway s).Perm ((x.responses.eraseIdx i).flatMap Prod.snd
        ++ (x.deliveries ++ (s.responseBytes modifiers).map fun bytes => (peer, bytes)).flatMap
          fun d => s.deliveredObjects d.2) := by
      have hwritten : ((s.responseBytes modifiers).map fun bytes => (peer, bytes)).flatMap
          (fun d => s.deliveredObjects d.2) = modifiers := by
        rw [List.flatMap_map]
        exact hobjects
      rw [underway, List.flatMap_append, hwritten, ← List.append_assoc]
      apply (hresponses.append_right _).trans
      rw [List.append_assoc]
      exact List.perm_append_comm
    refine h.moved rfl (fun r hr => h.answerable r (List.mem_of_mem_eraseIdx hr)) ?_ ?_
      ⟨h.accounted.asked, ?_⟩
    · intro d hd
      rcases List.mem_append.1 hd with hmem | hmem
      · exact h.readable d hmem
      · obtain ⟨bytes, hbytes, rfl⟩ := List.mem_map.1 hmem
        exact hreadable bytes hbytes
    · exact ((hunderway.map s.modifierId).append_left _).symm.subperm
    · exact h.accounted.served.trans (hunderway.append_right _)

/-- What arrives was asked for, and is handed over without a penalty. -/
theorem Sound.modifiersFromRemote (h : Sound s x) {i : ℕ} {now : String → ℤ}
    (hfair : Fair s x (.deliver i now)) {peer : ConnectedPeer Address} {bytes : List UInt8}
    (hget : x.deliveries[i]? = some (peer, bytes)) {data : ModifiersData}
    (hreadable : s.Readable bytes data) {r : _}
    (hr : x.node.modifiersFromRemote s.toSynchronizerSettings data.typeId data.modifiers peer now
      = r) :
    Touches ((s.deliveredObjects bytes).map s.modifierId) x.node.deliveryTracker
        r.1.deliveryTracker ∧
      asked r.2 = [] ∧ handed r.2 = s.deliveredObjects bytes ∧ ∀ m ∈ r.2, ¬ IsPenalty m := by
  have hwaited : ∀ m ∈ s.deliveredObjects bytes,
      x.node.deliveryTracker.status (s.modifierId m) = .requested := by
    intro m hm
    have hunderway : m ∈ x.underway s := List.mem_append_right _
      (List.mem_flatMap.2 ⟨(peer, bytes), List.mem_of_getElem? hget, hm⟩)
    exact h.waited _ (List.mem_append_right _ (List.mem_map_of_mem hunderway))
  exact NodeViewSynchronizer.modifiersFromRemote_spec h.exclusive hreadable hwaited
    (fun pmod hpmod => hfair peer bytes pmod hget hpmod) peer now hr

/-- **An answer arrives**: its modifiers are handed over. -/
theorem Sound.deliver (h : Sound s x) {i : ℕ} {now : String → ℤ}
    (hfair : Fair s x (.deliver i now)) : Sound s (x.step s (.deliver i now)) := by
  cases hget : x.deliveries[i]? with
  | none =>
    rw [step, hget]
    exact h
  | some d =>
    obtain ⟨peer, bytes⟩ := d
    obtain ⟨data, hreadable⟩ := h.readable _ (List.mem_of_getElem? hget)
    have hdeliveries := perm_flatMap_eraseIdx hget fun d => s.deliveredObjects d.2
    generalize hrest : ((x.deliveries.eraseIdx i).flatMap fun d => s.deliveredObjects d.2) = rest
      at hdeliveries
    have hunderway : (x.underway s).Perm
        (s.deliveredObjects bytes ++ (x.responses.flatMap Prod.snd ++ rest)) :=
      (hdeliveries.append_left _).trans (List.perm_append_comm_assoc _ _ _)
    have houtstanding : (x.outstanding s).Perm ((s.deliveredObjects bytes).map s.modifierId
        ++ (x.requesting s ++ (x.responses.flatMap Prod.snd ++ rest).map s.modifierId)) := by
      apply ((hunderway.map s.modifierId).append_left _).trans
      rw [List.map_append]
      exact List.perm_append_comm_assoc _ _ _
    obtain ⟨-, -, hdisjoint⟩ := List.nodup_append'.1 (houtstanding.nodup_iff.1 h.once)
    obtain ⟨htouches, hasked, hhanded, -⟩ := h.modifiersFromRemote hfair hget hreadable rfl
    simp only [step, hget, parseAndHandle, hreadable.1]
    generalize x.node.modifiersFromRemote s.toSynchronizerSettings data.typeId data.modifiers peer
      now = r at htouches hasked hhanded
    generalize hy : ({ x with deliveries := x.deliveries.eraseIdx i } :
      Exchange Address TX PMOD).handled s r = y
    have hnode : y.node = r.1 ∧ y.sent = x.sent ++ r.2 ∧ y.lacking = x.lacking ∧
        y.served = x.served ∧ y.responses = x.responses ∧
        y.deliveries = x.deliveries.eraseIdx i := by
      rw [← hy]
      exact ⟨rfl, rfl, rfl, rfl, rfl, rfl⟩
    obtain ⟨hnode, hsent, hlacking, hserved, hresponses, hleft⟩ := hnode
    have hrequesting : y.requesting s = x.requesting s := by
      rw [← hy]
      simp only [Exchange.handled, requesting, requestsOf_eq_nil hasked, List.append_nil]
    have hyunderway : y.underway s = x.responses.flatMap Prod.snd ++ rest := by
      rw [underway, hresponses, hleft, hrest]
    have hyout : y.outstanding s
        = x.requesting s ++ (x.responses.flatMap Prod.snd ++ rest).map s.modifierId := by
      rw [outstanding, hrequesting, hyunderway]
    rw [← hyout] at houtstanding hdisjoint
    refine ⟨?_, hresponses ▸ h.answerable, ?_, ?_, ?_, ⟨?_, ?_⟩⟩
    · rw [hnode]
      exact htouches.marksExclusive h.exclusive
    · intro d hd
      rw [hleft] at hd
      exact h.readable d (List.mem_of_mem_eraseIdx hd)
    · intro id hid
      rw [hnode, htouches.status_eq fun hmem => hdisjoint hmem hid]
      exact h.waited id (houtstanding.symm.subset (List.mem_append_right _ hid))
    · exact (List.nodup_append'.1 (houtstanding.nodup_iff.1 h.once)).2.1
    · rw [hsent, asked_append, hasked, List.append_nil, hrequesting, hlacking, hserved]
      exact h.accounted.asked
    · rw [hserved, hsent, handed_append, hhanded, hyunderway]
      apply (h.accounted.served.trans (hunderway.append_right _)).trans
      rw [List.append_assoc]
      apply List.perm_append_comm.trans
      rw [List.append_assoc]

/-- **The invariant** is kept by every fair step. -/
theorem Sound.step (hmax : s.maxInvObjects < 2 ^ 31) (h : Sound s x) (e : Event Address TX PMOD)
    (hfair : Fair s x e) : Sound s (x.step s e) := by
  cases e with
  | inv peer bytes => exact h.inv hmax hfair
  | serve i readersOpt => exact h.serve hfair
  | respond i => exact h.respond i
  | deliver i now => exact h.deliver hfair
  | viewHolder event now => exact h.viewHolder hfair
  | scheduled message now => exact h.scheduled hfair

omit [DecidableEq Address] in
theorem sound_start : Sound s (start : Exchange Address TX PMOD) where
  exclusive := marksExclusive_empty
  answerable := by simp [start]
  readable := by simp [start]
  waited := by simp [start, outstanding, requesting, underway]
  once := by simp [start, outstanding, requesting, underway]
  accounted := ⟨.refl _, .refl _⟩

theorem sound_run (hmax : s.maxInvObjects < 2 ^ 31)
    (hrun : Reaches (fun x e => step s x e) (Fair s) start x) : Sound s x :=
  hrun.invariant (fun _ e h hfair => h.step hmax e hfair) sound_start

/-! ### Penalties -/

omit [DecidableEq Address] in
theorem unpunished_handled {r : _} (h : ∀ m ∈ x.sent, ¬ IsPenalty m)
    (hr : ∀ m ∈ r.2, ¬ IsPenalty m) : ∀ m ∈ (x.handled s r).sent, ¬ IsPenalty m := by
  intro m hm
  exact (List.mem_append.1 hm).elim (h m) (hr m)

/-- **No step penalizes anybody**, where the holder takes what was delivered. -/
theorem Sound.unpunished (hsound : Sound s x) (h : ∀ m ∈ x.sent, ¬ IsPenalty m)
    (e : Event Address TX PMOD) (hfair : Fair s x e) (haccepts : Accepts s x e) :
    ∀ m ∈ (x.step s e).sent, ¬ IsPenalty m := by
  cases e with
  | inv peer bytes =>
    obtain ⟨data, hparse, -⟩ := hfair
    simp only [Exchange.step, parseAndHandle, hparse]
    refine unpunished_handled h ?_
    rcases NodeViewSynchronizer.processInv_spec s.toSynchronizerSettings x.node data.typeId
      data.ids peer with hnone | ⟨new, -, -, -, hsome⟩
    · simp [hnone]
    · simp [hsome, IsPenalty]
  | serve i readersOpt =>
    have hsent : (x.step s (.serve i readersOpt)).sent = x.sent := by
      simp only [Exchange.step]
      split
      · split <;> rfl
      · rfl
    rwa [hsent]
  | respond i =>
    have hsent : (x.step s (.respond i)).sent = x.sent := by
      simp only [Exchange.step]
      split <;> rfl
    rwa [hsent]
  | deliver i now =>
    cases hget : x.deliveries[i]? with
    | none => rwa [Exchange.step, hget]
    | some d =>
      obtain ⟨peer, bytes⟩ := d
      obtain ⟨data, hreadable⟩ := hsound.readable _ (List.mem_of_getElem? hget)
      simp only [Exchange.step, hget, parseAndHandle, hreadable.1]
      exact unpunished_handled h (hsound.modifiersFromRemote hfair hget hreadable rfl).2.2.2
  | viewHolder event now =>
    refine unpunished_handled h (unpunished_viewHolderEvents now fun id hid => ⟨?_, ?_⟩)
    · exact hfair id (event.refused_subset _ hid)
    · exact haccepts id hid
  | scheduled message now => exact unpunished_handled h (sent_receiveScheduled hfair).2.2

/-- A run goes on, with the state that it comes to. -/
theorem reaches_step {x y : Exchange Address TX PMOD}
    (hrun : Reaches (fun x e => step s x e) (fun x e => Fair s x e ∧ Accepts s x e) start x)
    (e : Event Address TX PMOD) (hfair : Fair s x e) (haccepts : Accepts s x e)
    (heq : x.step s e = y) :
    Reaches (fun x e => step s x e) (fun x e => Fair s x e ∧ Accepts s x e) start y :=
  heq ▸ hrun.step e ⟨hfair, haccepts⟩

/-! ## One block -/

/-- The id of a block that is a byte. -/
def blockId (b : UInt8) : String := bytesToId (List.replicate 32 b)

/-- Blocks of type 1 that are bytes. -/
def blockSettings : NetworkSettings UInt8 UInt8 where
  tracker := specSettings
  handlingTransactionsEnabled := true
  txId := blockId
  pmodId := blockId
  parentId _ := ""
  pmodTypeId _ := 1
  transactionSerializer := none
  modifierSerializers _ := some fun bytes => bytes.head?.map fun b => (b, bytes.length - 1)
  maxInvObjects := 400
  maxModifiersSpecMessageSize := 2048
  toBytes _ := some (Sum.elim (fun b => [b]) (fun b => [b]))

/-- The peer that has the block 7. -/
def blockPeer : ConnectedPeer ℕ := ⟨⟨1, 2, .outgoing⟩⟩

/-- It has no other one. -/
def blockReaders : ModifierReaders UInt8 UInt8 := ⟨fun _ => [], fun _ => some 7⟩

theorem isModifierId_blockId (b : UInt8) : IsModifierId (blockId b) :=
  ⟨List.replicate 32 b, List.length_replicate, rfl⟩

/-- The node when its readers are ready. -/
def readyNode : NodeViewSynchronizer ℕ String UInt8 UInt8 where
  deliveryTracker := .empty
  historyReaderOpt := some ⟨fun _ => false, fun _ => .success⟩
  mempoolReaderOpt := some ⟨fun _ => false, fun _ => []⟩

/-- The node when it has asked for the block. -/
def askingNode : NodeViewSynchronizer ℕ String UInt8 UInt8 :=
  readyNode.withTracker (DeliveryTracker.setRequested .empty [blockId 7] 1 blockPeer)

theorem readyNode_inv : readyNode.processInv blockSettings.toSynchronizerSettings 1 [blockId 7]
    blockPeer = (askingNode, [.requestModifier blockPeer 1 [blockId 7]]) := rfl

theorem block_response : blockSettings.responseFromLocal [.inr 7]
    = some [⟨1, [(blockId 7, [7])]⟩] := rfl

theorem block_takes (pmod : UInt8) : Takes blockSettings askingNode pmod := by
  constructor
  · intro h
    have hmark := (status_eq_invalid_iff.1 h).2.2
    simp [marks, setRequested, NodeViewSynchronizer.withTracker, askingNode,
      DeliveryTracker.empty] at hmark
  · intro hr hhr
    obtain rfl := Option.some.inj hhr
    simp

theorem block_supplies : Supplies blockSettings blockReaders ⟨1, [blockId 7]⟩ where
  getAll := List.nil_subperm
  modifierById id hid pmod hpmod := by
    obtain rfl := Option.some.inj hpmod
    exact (List.mem_singleton.1 hid).symm
  answerable objs hobjs := by
    obtain rfl := Option.some.inj hobjs
    refine ⟨fun m hm => ?_, fun toBytes hser => ?_⟩
    · obtain rfl : m = .inr 7 := by simpa [transactionTypeId, blockReaders] using hm
      exact ⟨rfl, isModifierId_blockId 7, _, rfl, by decide, rfl⟩
    · obtain rfl := Option.some.inj hser
      decide

/-- In a fair run the block is announced, asked for, found, sent and handed over. -/
theorem block_run : ∃ x : Exchange ℕ UInt8 UInt8,
    Reaches (fun x e => step blockSettings x e)
        (fun x e => Fair blockSettings x e ∧ Accepts blockSettings x e) start x ∧
      handed x.sent = [.inr 7] := by
  have hids : ∀ id ∈ [blockId 7], IsModifierId id := by simpa using isModifierId_blockId 7
  have hwell : InvSpec.WellFormed blockSettings.maxInvObjects ⟨1, [blockId 7]⟩ :=
    ⟨List.cons_ne_nil _ _, by decide, hids⟩
  obtain ⟨bytes, hserialize, hparse⟩ :=
    InvSpec.parseBytes_serialize (show blockSettings.maxInvObjects < 2 ^ 31 by decide) hwell
  have hsize : partsSize [(blockId 7, [(7 : UInt8)])]
      < blockSettings.maxModifiersSpecMessageSize := by decide
  obtain ⟨out, hout, hread⟩ := NetworkSettings.parseBytes_serialize_batch 1
    (by simpa using isModifierId_blockId 7) (by decide) (List.Sublist.refl [(blockId 7, [7])])
    (List.cons_ne_nil _ _) hsize
  have hresponse : blockSettings.responseBytes [.inr 7] = [out] := by
    rw [NetworkSettings.responseBytes, block_response, Option.getD_some, List.filterMap_cons, hout]
    rfl
  have hobjects : blockSettings.deliveredObjects out = [.inr 7] := by
    rw [NetworkSettings.deliveredObjects_eq hread]
    rfl
  have hhistory : Reaches (fun x e => step blockSettings x e)
      (fun x e => Fair blockSettings x e ∧ Accepts blockSettings x e) start
      ⟨{ readyNode with mempoolReaderOpt := none }, [], [], [], [], [], []⟩ :=
    reaches_step .refl
      (.viewHolder (.changedHistory ⟨fun _ => false, fun _ => .success⟩) fun _ => 0)
      (by intro id hid; cases hid) (by intro id hid; cases hid) rfl
  have hready := reaches_step (y := ⟨readyNode, [], [], [], [], [], []⟩) hhistory
    (.viewHolder (.changedMempool ⟨fun _ => false, fun _ => []⟩) fun _ => 0)
    (by intro id hid; cases hid) (by intro id hid; cases hid) rfl
  have hasked := reaches_step (y := ⟨askingNode, [(blockPeer, bytes)], [], [],
      [.requestModifier blockPeer 1 [blockId 7]], [], []⟩) hready (.inv blockPeer bytes)
    ⟨_, hparse, by simp⟩ trivial <| by
      simp only [step, parseAndHandle, hparse, readyNode_inv, handled, requestsOf,
        List.flatMap_cons, RequestModifierSpec.serialize, hserialize]
      rfl
  have hserved := reaches_step (y := ⟨askingNode, [], [(blockPeer, [.inr 7])], [],
      [.requestModifier blockPeer 1 [blockId 7]], [], [.inr 7]⟩) hasked
    (.serve 0 (some blockReaders))
    (by
      intro peer bytes' data readers hget hdata hreaders
      obtain ⟨rfl, rfl⟩ := Prod.mk.inj (Option.some.inj hget)
      obtain rfl := Option.some.inj (hparse.symm.trans hdata)
      obtain rfl := Option.some.inj hreaders
      exact block_supplies) trivial <| by
      simp only [step, List.getElem?_cons_zero, RequestModifierSpec.parseBytes, hparse]
      rfl
  have hsent := reaches_step (y := ⟨askingNode, [], [], [(blockPeer, out)],
      [.requestModifier blockPeer 1 [blockId 7]], [], [.inr 7]⟩) hserved (.respond 0) trivial
    trivial <| by
      simp only [step, List.getElem?_cons_zero, hresponse]
      rfl
  refine ⟨_, hsent.step (.deliver 0 fun _ => 0) ⟨?_, ?_⟩, ?_⟩
  · intro peer bytes' pmod hget hpmod
    exact block_takes pmod
  · exact trivial
  · simp only [step, List.getElem?_cons_zero, parseAndHandle, hread]
    rfl

/-! ## The results -/

/-- **Honest peers are not penalized**: in every fair run in which the holder takes what was
delivered, in whatever order messages are read and answered, the node penalizes nobody. -/
theorem honest_unpunished (hmax : s.maxInvObjects < 2 ^ 31)
    (hrun : Reaches (fun x e => step s x e) (fun x e => Fair s x e ∧ Accepts s x e) start x) :
    ∀ m ∈ x.sent, ¬ IsPenalty m :=
  (hrun.invariant (I := fun x => Sound s x ∧ ∀ m ∈ x.sent, ¬ IsPenalty m)
    (fun _ e h hok => ⟨h.1.step hmax e hok.1, h.1.unpunished h.2 e hok.1 hok.2⟩)
    ⟨sound_start, by simp [start]⟩).2

theorem honest_unpunished_block : ∃ x : Exchange ℕ UInt8 UInt8,
    handed x.sent = [.inr 7] ∧ ∀ m ∈ x.sent, ¬ IsPenalty m := by
  obtain ⟨x, hrun, hhanded⟩ := block_run
  exact ⟨x, hhanded, honest_unpunished (by decide) hrun⟩

/-- **Nothing that was asked for is lost**, served twice or altered: in every fair run the
ledger is balanced, and what is under way is waited for. -/
theorem asked_accounted (hmax : s.maxInvObjects < 2 ^ 31)
    (hrun : Reaches (fun x e => step s x e) (Fair s) start x) :
    Accounted s x ∧ (x.outstanding s).Nodup ∧
      ∀ id ∈ x.outstanding s, x.node.deliveryTracker.status id = .requested :=
  ⟨(sound_run hmax hrun).accounted, (sound_run hmax hrun).once, (sound_run hmax hrun).waited⟩

theorem asked_accounted_block : ∃ x : Exchange ℕ UInt8 UInt8,
    handed x.sent = [.inr 7] ∧ Accounted blockSettings x ∧ (x.outstanding blockSettings).Nodup ∧
      ∀ id ∈ x.outstanding blockSettings, x.node.deliveryTracker.status id = .requested := by
  obtain ⟨x, hrun, hhanded⟩ := block_run
  exact ⟨x, hhanded, asked_accounted (by decide) (hrun.mono fun _ _ hok => hok.1)⟩

end Exchange

end Sparkz.Network
