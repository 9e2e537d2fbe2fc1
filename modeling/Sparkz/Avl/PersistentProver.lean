import Sparkz.Avl.LightClient
import Sparkz.Lib.Replies

/-!
# The persistent prover

The model of `PersistentBatchAVLProver`, which saves the root of its tree at each proof and
can go back to any of them.  Saved trees share nodes with each other and with the present one.

* `VersionedAVLStorage`, `KeepsVersions` — a storage, and one that keeps what it is given;
  `VersionedAVLStorageMock` is one (`VersionedAVLStorageMock.keepsVersions`).
* `PersistentBatchAVLProver` — the prover with its calls.
* `VersionedMap` — what the calls are for: a finite map whose versions can be saved and brought
  back.
* `Counted` — runs that leave room for the bits of each operation.
* `persistent_refines` — **the persistent prover is a map with versions**, over all such runs of
  calls, with operations pending or not, and with versions brought back in any order.
* `create_restores` — **nothing saved is lost** when the store is opened again.
* `clients_follow` — **clients that know only the digest follow** such a prover, from batch to
  batch and back.
-/

namespace Sparkz.Avl

open Sparkz.Lib Sparkz.Lib.LeafTree

/-! ## Storages -/

/-- `VersionedAVLStorage`, with states `σ`.  Of the prover that it is updated from, a storage
reads the digest, and the root with its height. -/
structure VersionedAVLStorage (σ : Type) where
  update : σ → Digest → Ref × ℤ → List (List UInt8 × List UInt8) → Except AvlError Unit × σ
  rollback : σ → Digest → Except AvlError (Ref × ℤ) × σ
  version : σ → Option Digest

namespace VersionedAVLStorage

variable {σ : Type}

/-- The root that a storage would go back to. -/
def saved (S : VersionedAVLStorage σ) (st : σ) (version : Digest) : Option (Ref × ℤ) :=
  (S.rollback st version).1.toOption

/-- **The storage keeps versions** of `n` bytes: an update adds one, and nothing else changes
what there is to go back to. -/
structure KeepsVersions (S : VersionedAVLStorage σ) (n : ℕ) : Prop where
  update : ∀ st version root additionalData, version.length = n →
    (S.update st version root additionalData).1 = .ok ()
      ∧ S.saved (S.update st version root additionalData).2
        = Function.update (S.saved st) version (some root)
  rollback : ∀ st version, S.saved (S.rollback st version).2 = S.saved st

/-- **The storage can be opened again**: its version is one that it can go back to, and stays its
version then. -/
structure Reopens (S : VersionedAVLStorage σ) : Prop where
  saved : ∀ st version, S.version st = some version → (S.saved st version).isSome = true
  version : ∀ st version, S.version st = some version →
    S.version (S.rollback st version).2 = some version

end VersionedAVLStorage

/-- `InitialVersion`. -/
def VersionedAVLStorageMock.initialVersion : Digest := List.replicate 33 11

/-- `VersionedAVLStorageMock`. -/
structure VersionedAVLStorageMock where
  v : Digest
  savedNodes : Digest → Option (Ref × ℤ)
  length_v : v.length = 33
  saved_v : v ≠ VersionedAVLStorageMock.initialVersion → (savedNodes v).isSome = true

namespace VersionedAVLStorageMock

/-- A new storage. -/
def new : VersionedAVLStorageMock :=
  ⟨initialVersion, fun _ => none, List.length_replicate, fun hne => absurd rfl hne⟩

/-- A storage that has saved a root under a version. -/
def save (st : VersionedAVLStorageMock) (newDigest : Digest) (root : Ref × ℤ)
    (hlen : newDigest.length = 33) : VersionedAVLStorageMock where
  v := newDigest
  savedNodes := Function.update st.savedNodes newDigest (some root)
  length_v := hlen
  saved_v := fun _ => by rw [Function.update_self]; rfl

/-- `update(prover, additionalData)`. -/
def update (st : VersionedAVLStorageMock) (newDigest : Digest) (root : Ref × ℤ)
    (_additionalData : List (List UInt8 × List UInt8)) :
    Except AvlError Unit × VersionedAVLStorageMock :=
  if h : st.v.length = newDigest.length then
    (.ok (), st.save newDigest root (h.symm.trans st.length_v))
  else (.error .assertionFailed, st)

/-- `rollback(version)`. -/
def rollback (st : VersionedAVLStorageMock) (version : Digest) :
    Except AvlError (Ref × ℤ) × VersionedAVLStorageMock :=
  match st.savedNodes version with
  | some root => (.ok root, st)
  | none => (.error .noSuchElement, st)

/-- `version`. -/
def version (st : VersionedAVLStorageMock) : Option Digest :=
  if st.v = initialVersion then none else some st.v

/-- The mock as a storage. -/
def storage : VersionedAVLStorage VersionedAVLStorageMock := ⟨update, rollback, version⟩

theorem saved_eq (st : VersionedAVLStorageMock) : storage.saved st = st.savedNodes := by
  funext version
  show (rollback st version).1.toOption = _
  rw [rollback]
  cases st.savedNodes version <;> rfl

theorem rollback_snd (st : VersionedAVLStorageMock) (version : Digest) :
    (storage.rollback st version).2 = st := by
  show (rollback st version).2 = st
  rw [rollback]
  cases st.savedNodes version <;> rfl

theorem keepsVersions : storage.KeepsVersions 33 where
  update := by
    intro st version root additionalData hlen
    have hrun : storage.update st version root additionalData
        = (.ok (), st.save version root hlen) :=
      dif_pos (st.length_v.trans hlen.symm)
    rw [hrun, saved_eq, saved_eq]
    exact ⟨rfl, rfl⟩
  rollback := by
    intro st version
    rw [rollback_snd]

theorem reopens : storage.Reopens where
  saved := by
    intro st version hversion
    change VersionedAVLStorageMock.version st = some version at hversion
    rw [VersionedAVLStorageMock.version] at hversion
    split at hversion
    · cases hversion
    · rename_i hne
      cases hversion
      rw [saved_eq]
      exact st.saved_v hne
  version := by
    intro st version hversion
    rw [rollback_snd, hversion]

end VersionedAVLStorageMock

/-! ## The prover -/

/-- `PersistentBatchAVLProver`.  Whether changed nodes are collected is a parameter of its
prover, and lost when it goes back to a version. -/
structure PersistentBatchAVLProver (σ : Type) where
  avlProver : BatchAVLProver
  collectChangedNodes : Bool
  storage : σ

namespace PersistentBatchAVLProver

variable {σ : Type} (P : TreeParams) (S : VersionedAVLStorage σ)

/-- The parameters of the present prover. -/
def params (s : PersistentBatchAVLProver σ) : TreeParams := P.collecting s.collectChangedNodes

/-- `digest`, with the labels that it caches. -/
def digest (s : PersistentBatchAVLProver σ) :
    Except AvlError Digest × PersistentBatchAVLProver σ :=
  let res := s.avlProver.digest (s.params P)
  (res.1, { s with avlProver := res.2 })

/-- `unauthenticatedLookup(key)`. -/
def unauthenticatedLookup (s : PersistentBatchAVLProver σ) (key : ADKey) :
    Except AvlError (Option ADValue) :=
  s.avlProver.unauthenticatedLookup key

/-- `performOneOperation(operation)`. -/
def performOneOperation (s : PersistentBatchAVLProver σ) (operation : Operation) :
    Except AvlError (Option ADValue) × PersistentBatchAVLProver σ :=
  let res := s.avlProver.performOneOperation (s.params P) operation
  (res.1, { s with avlProver := res.2 })

/-- `storage.update(avlProver, additionalData)`. -/
def updateStorage (s : PersistentBatchAVLProver σ)
    (additionalData : List (List UInt8 × List UInt8)) :
    Except AvlError Unit × PersistentBatchAVLProver σ :=
  match s.avlProver.digest (s.params P) with
  | (.error e, p) => (.error e, { s with avlProver := p })
  | (.ok d, p) =>
      let res := S.update s.storage d (p.topNode, p.tree.rootNodeHeight) additionalData
      (res.1, { s with avlProver := p, storage := res.2 })

/-- `generateProofAndUpdateStorage(additionalData)`: the root is saved before the proof is
made. -/
def generateProofAndUpdateStorage (s : PersistentBatchAVLProver σ)
    (additionalData : List (List UInt8 × List UInt8)) :
    Except AvlError (List UInt8) × PersistentBatchAVLProver σ :=
  match updateStorage P S s additionalData with
  | (.error e, s) => (.error e, s)
  | (.ok (), s) =>
      let res := s.avlProver.generateProof (s.params P)
      (res.1, { s with avlProver := res.2 })

/-- `rollback(version)`: a new prover is made on the nodes that were saved. -/
def rollback (s : PersistentBatchAVLProver σ) (version : Digest) :
    Except AvlError Unit × PersistentBatchAVLProver σ :=
  match S.rollback s.storage version with
  | (.error e, st) => (.error e, { s with storage := st })
  | (.ok root, st) => (.ok (), ⟨.onTree s.avlProver.tree.heap root.1 root.2, true, st⟩)

/-- `checkTree(postProof)`. -/
def checkTree (s : PersistentBatchAVLProver σ) (postProof : Bool) : Except AvlError Unit :=
  s.avlProver.checkTree (s.params P) postProof

/-- The condition that `create` ensures, with the labels that it caches. -/
def ensured (s : PersistentBatchAVLProver σ) (paranoidChecks : Bool) :
    Except AvlError Bool × PersistentBatchAVLProver σ :=
  match S.version s.storage with
  | none => (.error .noSuchElement, s)
  | some version =>
      match digest P s with
      | (.error e, s) => (.error e, s)
      | (.ok d, s) =>
          (.ok (decide (version = d) && (!paranoidChecks || (checkTree P s true).isOk)), s)

/-- `create(avlBatchProver, versionedStorage, additionalData, paranoidChecks)`. -/
def create (avlBatchProver : BatchAVLProver) (versionedStorage : σ)
    (additionalData : List (List UInt8 × List UInt8)) (paranoidChecks : Bool) :
    Except AvlError (PersistentBatchAVLProver σ) :=
  let s : PersistentBatchAVLProver σ := ⟨avlBatchProver, P.collectChangedNodes, versionedStorage⟩
  let started : Except AvlError Unit × PersistentBatchAVLProver σ :=
    match S.version versionedStorage with
    | some version => rollback S s version
    | none =>
        let res := generateProofAndUpdateStorage P S s additionalData
        (res.1.map fun _ => (), res.2)
  match started with
  | (.error e, _) => .error e
  | (.ok (), s) =>
      match ensured P S s paranoidChecks with
      | (.error e, _) => .error e
      | (.ok true, s) => .ok s
      | (.ok false, _) => .error .assertionFailed

/-- The calls of the public methods. -/
inductive Call where
  | performOneOperation (operation : Operation)
  | generateProofAndUpdateStorage (additionalData : List (List UInt8 × List UInt8))
  | rollback (version : Digest)
  | digest
  | unauthenticatedLookup (key : ADKey)
  | checkTree (postProof : Bool)

/-- What the calls return. -/
inductive Reply where
  | value (v : Option ADValue)
  | proof (bytes : List UInt8)
  | digest (d : Digest)
  | unit
  deriving DecidableEq

/-- One call. -/
def call (s : PersistentBatchAVLProver σ) :
    Call → Except AvlError Reply × PersistentBatchAVLProver σ
  | .performOneOperation operation =>
      let res := performOneOperation P s operation
      (res.1.map .value, res.2)
  | .generateProofAndUpdateStorage additionalData =>
      let res := generateProofAndUpdateStorage P S s additionalData
      (res.1.map .proof, res.2)
  | .rollback version =>
      let res := rollback S s version
      (res.1.map fun _ => .unit, res.2)
  | .digest =>
      let res := digest P s
      (res.1.map .digest, res.2)
  | .unauthenticatedLookup key => ((unauthenticatedLookup s key).map .value, s)
  | .checkTree postProof => ((checkTree P s postProof).map fun _ => .unit, s)

/-- There is room for the bits of a call. -/
def RoomFor (s : PersistentBatchAVLProver σ) : Call → Prop
  | .performOneOperation operation => s.avlProver.HasRoom operation
  | _ => True

instance (s : PersistentBatchAVLProver σ) (c : Call) : Decidable (s.RoomFor c) :=
  match c with
  | .performOneOperation operation => inferInstanceAs (Decidable (s.avlProver.HasRoom operation))
  | .generateProofAndUpdateStorage _ => inferInstanceAs (Decidable True)
  | .rollback _ => inferInstanceAs (Decidable True)
  | .digest => inferInstanceAs (Decidable True)
  | .unauthenticatedLookup _ => inferInstanceAs (Decidable True)
  | .checkTree _ => inferInstanceAs (Decidable True)

/-- All bits are counted in the course of calls: there is room for each operation. -/
abbrev Counted (s : PersistentBatchAVLProver σ) (calls : List Call) : Prop :=
  Along (fun s c => (call P S s c).2) RoomFor s calls

end PersistentBatchAVLProver

/-! ## A map with versions -/

/-- A finite map with the digest of its present version, and the maps that were saved under
digests. -/
structure VersionedMap where
  current : SortedMap ADKey ADValue
  version : Except AvlError Digest
  saved : Digest → Option (SortedMap ADKey ADValue)

namespace VersionedMap

open PersistentBatchAVLProver (Call Reply)

/-- What the calls should do to a map with versions, and what they should reply. -/
inductive Step (P : TreeParams) (a : VersionedMap) :
    Call → Except AvlError Reply → VersionedMap → Prop
  /-- An operation returns the old value of its key, and makes a new version. -/
  | performed {operation : Operation} {m : SortedMap ADKey ADValue}
      (version : Except AvlError Digest) : mapStep P a.current operation = some m →
      Step P a (.performOneOperation operation) (.ok (.value (a.current.get operation.key)))
        ⟨m, version, a.saved⟩
  | refused {operation : Operation} {e : AvlError} : mapStep P a.current operation = none →
      e.isRefusal = true → Step P a (.performOneOperation operation) (.error e) a
  /-- The present version is saved under its digest, if it has one. -/
  | saved {data : List (List UInt8 × List UInt8)} {d : Digest} (proof : List UInt8) :
      a.version = .ok d → Step P a (.generateProofAndUpdateStorage data) (.ok (.proof proof))
        { a with saved := Function.update a.saved d (some a.current) }
  | notSaved {data : List (List UInt8 × List UInt8)} {e : AvlError} : a.version = .error e →
      Step P a (.generateProofAndUpdateStorage data) (.error e) a
  /-- What was saved last under the version is back, and the version with it. -/
  | restored {version : Digest} {m : SortedMap ADKey ADValue} : a.saved version = some m →
      Step P a (.rollback version) (.ok .unit) ⟨m, .ok version, a.saved⟩
  | unknown {version : Digest} {e : AvlError} : a.saved version = none →
      Step P a (.rollback version) (.error e) a
  | digest : Step P a .digest (a.version.map .digest) a
  | lookedUp {key : ADKey} {old : Option ADValue} : (P.InRange key → old = a.current.get key) →
      Step P a (.unauthenticatedLookup key) (.ok (.value old)) a
  /-- The tree always passes its check, but for the flags that are asked for after a proof. -/
  | checked {postProof : Bool} {reply : Except AvlError Reply} :
      (postProof = false → reply = .ok .unit) → Step P a (.checkTree postProof) reply a

end VersionedMap

/-! ## What is published -/

/-- What the clients of a persistent prover are told: a batch with its proof, or the version that
the prover has gone back to. -/
inductive News where
  | published (b : Publication)
  | rolledBack (version : Digest)

namespace News

/-- The digest that a client knows afterwards. -/
def digest : News → Digest
  | published b => b.digest
  | rolledBack version => version

/-- An `Int` can count the bits of the proof, if there is one. -/
def Fits : News → Prop
  | published b => b.proof.length ≤ 2 ^ 28
  | rolledBack _ => True

instance : DecidablePred Fits
  | published b => inferInstanceAs (Decidable (b.proof.length ≤ 2 ^ 28))
  | rolledBack _ => inferInstanceAs (Decidable True)

/-- A client that knows the digest `d` is told something: its digest then, if it accepts it. -/
def follow (P : TreeParams) (d : Digest) : News → Option Digest
  | published b => if b.accepted P d then some b.digest else none
  | rolledBack version => some version

end News

namespace PersistentBatchAVLProver

variable {σ : Type} (P : TreeParams) (S : VersionedAVLStorage σ)

/-- The operations that were performed since the last proof or rollback, after a call. -/
def pendingAfter (pending : List (Operation × Option ADValue)) :
    Call → Except AvlError Reply → List (Operation × Option ADValue)
  | .performOneOperation operation, .ok (.value old) => pending ++ [(operation, old)]
  | .generateProofAndUpdateStorage _, .ok _ => []
  | .rollback _, .ok _ => []
  | _, _ => pending

/-- What the clients are told after a call. -/
def announced (s : PersistentBatchAVLProver σ) (pending : List (Operation × Option ADValue)) :
    Call → Except AvlError Reply → Option News
  | .generateProofAndUpdateStorage _, .ok (.proof bytes) =>
      match (digest P s).1 with
      | .ok d => some (.published ⟨pending, bytes, d⟩)
      | .error _ => none
  | .rollback version, .ok _ => some (.rolledBack version)
  | _, _ => none

/-! ## Saved trees -/

/-- **What is saved**: a root with its height, from which a prover can go on with the map. -/
def Archived (heap : Heap) (version : Digest) (root : Ref × ℤ) (m : SortedMap ADKey ADValue) :
    Prop :=
  ∃ t, (BatchAVLProver.onTree heap root.1 root.2).Onward P t t [] ∧ TreeHolds P t m
    ∧ treeDigest P t = .ok version

/-- **The persistent prover tracks** the map with versions: it has the present map and digest,
owes its clients a proof of what is pending, and has saved the maps that are saved. -/
structure Tracks (s : PersistentBatchAVLProver σ) (a : VersionedMap) (d : Digest)
    (pending : List (Operation × Option ADValue)) : Prop where
  prover : ∃ t₀ t V bits, s.avlProver.Owes P d pending t₀ t V bits ∧ TreeHolds P t a.current
    ∧ treeDigest P t = a.version
  archive : ∀ version, Option.Rel (Archived P s.avlProver.tree.heap version)
    (S.saved s.storage version) (a.saved version)

section

variable {P : TreeParams} {S : VersionedAVLStorage σ} {heap heap' : Heap}
  {version d : Digest} {root : Ref × ℤ} {m : SortedMap ADKey ADValue}
  {s : PersistentBatchAVLProver σ} {a : VersionedMap}
  {pending : List (Operation × Option ADValue)}

/-- What is saved stays, whatever is done to new nodes. -/
theorem Archived.preserved (h : Archived P heap version root m)
    (hkept : Preserves P heap heap') : Archived P heap' version root m := by
  obtain ⟨t, hon, hm, hd⟩ := h
  have hheight : root.2 = t.height := hon.stands.height
  refine ⟨t, ?_, hm, hd⟩
  rw [hheight]
  exact hon.onTree (hkept _ _ hon.old) hon.nodup

/-- Saved trees stay. -/
theorem Tracks.archived (h : Tracks P S s a d pending)
    (hkept : Preserves P s.avlProver.tree.heap heap') (version : Digest) :
    Option.Rel (Archived P heap' version) (S.saved s.storage version) (a.saved version) := by
  have hrel := h.archive version
  generalize S.saved s.storage version = root, a.saved version = m at hrel ⊢
  cases hrel with
  | none => exact .none
  | some hsaved => exact .some (hsaved.preserved hkept)

/-- The storage does not matter to the prover, as long as it has the same versions. -/
theorem Tracks.storage (h : Tracks P S s a d pending) {st : σ}
    (hst : S.saved st = S.saved s.storage) :
    Tracks P S { s with storage := st } a d pending where
  prover := h.prover
  archive := by
    intro version
    rw [hst]
    exact h.archive version

theorem length_of_treeDigest {t : Tree} {x : Ref} {M : Set Ref}
    (hr : Represents .prover P.hf heap t x M) (hd : treeDigest P t = .ok d) :
    d.length = P.labelLength + 1 := by
  rw [treeDigest] at hd
  split at hd
  · cases hd
    rw [List.length_append, hr.length_label, List.length_singleton]
    rfl
  · cases hd

/-! ## One call -/

/-- A client that knows the digest `d` knows `d'` when it was told the news, if there are any. -/
def Told (P : TreeParams) (d : Digest) : Option News → Digest → Prop
  | none, d' => d' = d
  | some news, d' =>
      d' = news.digest ∧ (0 < P.keyLength → news.Fits → news.follow P d = some d')

/-- An operation. -/
theorem Tracks.performOneOperation (h : Tracks P S s a d pending) (operation : Operation)
    (hroom : s.avlProver.HasRoom operation) :
    ∃ a' r s', call P S s (.performOneOperation operation) = (r, s')
      ∧ VersionedMap.Step P a (.performOneOperation operation) r a'
      ∧ Tracks P S s' a' d (pendingAfter pending (.performOneOperation operation) r)
      ∧ announced P s pending (.performOneOperation operation) r = none := by
  obtain ⟨t₀, t, V, bits, howes, hm, hversion⟩ := h.prover
  rcases howes.perform hm s.collectChangedNodes operation hroom with
    ⟨e, p', hrun, he, hstep, howes', hkept⟩
    | ⟨m', t', V', bits', p', hrun, hstep, hm', howes', hkept⟩
  · refine ⟨a, .error e, { s with avlProver := p' }, ?_, .refused hstep he,
      ⟨⟨t₀, t, V, bits, howes', hm, hversion⟩, h.archived hkept⟩, rfl⟩
    simp only [call, PersistentBatchAVLProver.performOneOperation, params, hrun]
    rfl
  · refine ⟨_, .ok (.value (a.current.get operation.key)), { s with avlProver := p' }, ?_,
      .performed (treeDigest P t') hstep,
      ⟨⟨t₀, t', V', bits', howes', hm', rfl⟩, h.archived hkept⟩, rfl⟩
    simp only [call, PersistentBatchAVLProver.performOneOperation, params, hrun]
    rfl

/-- A proof: the root is saved, and the clients are told what was pending. -/
theorem Tracks.generateProofAndUpdateStorage (hkeeps : S.KeepsVersions (P.labelLength + 1))
    (h : Tracks P S s a d pending) (data : List (List UInt8 × List UInt8)) :
    ∃ a' d' r s', call P S s (.generateProofAndUpdateStorage data) = (r, s')
      ∧ VersionedMap.Step P a (.generateProofAndUpdateStorage data) r a'
      ∧ Tracks P S s' a' d' (pendingAfter pending (.generateProofAndUpdateStorage data) r)
      ∧ Told P d (announced P s pending (.generateProofAndUpdateStorage data) r) d' := by
  obtain ⟨t₀, t, V, bits, howes, hm, hversion⟩ := h.prover
  obtain ⟨p₁, hdigest, howes₁, hkept₁⟩ := howes.digestCall s.collectChangedNodes
  rw [hversion] at hdigest
  cases hd : a.version with
  | error e =>
    rw [hd] at hdigest
    refine ⟨a, d, .error e, { s with avlProver := p₁ }, ?_, .notSaved hd,
      ⟨⟨t₀, t, V, bits, howes₁, hm, hversion⟩, h.archived hkept₁⟩, rfl⟩
    simp only [call, PersistentBatchAVLProver.generateProofAndUpdateStorage, updateStorage, params,
      hdigest]
    rfl
  | ok d' =>
    rw [hd] at hdigest hversion
    obtain ⟨M, hrep⟩ := howes₁.onward.stands.represents
    obtain ⟨hupdated, hsaved⟩ := hkeeps.update s.storage d'
      (p₁.topNode, p₁.tree.rootNodeHeight) data (length_of_treeDigest hrep hversion)
    obtain ⟨proof, p', t', hrun, hbare, howes', hrep', hkept, haccepted⟩ :=
      howes₁.generateProof hversion s.collectChangedNodes
    have hm' : TreeHolds P t' a.current := (entries_eq_of_bare hbare).trans hm
    set st := (S.update s.storage d' (p₁.topNode, p₁.tree.rootNodeHeight) data).2 with hst
    refine ⟨_, d', .ok (.proof proof), { s with avlProver := p', storage := st }, ?_,
      .saved proof hd, ⟨⟨t', t', [], [], howes', hm', howes'.digest.trans hd.symm⟩, ?_⟩, ?_⟩
    · have hupdate : S.update s.storage d' (p₁.topNode, p₁.tree.rootNodeHeight) data
          = (.ok (), st) := Prod.ext hupdated rfl
      simp only [call, PersistentBatchAVLProver.generateProofAndUpdateStorage, updateStorage,
        params, hdigest, hupdate, hrun]
      rfl
    · -- the new version is the present tree, the others are where they were
      intro version
      show Option.Rel _ (S.saved st version) (Function.update a.saved d' (some a.current) version)
      rw [hsaved]
      by_cases heq : version = d'
      · subst heq
        rw [Function.update_self, Function.update_self]
        refine .some ⟨t', ?_, hm', howes'.digest⟩
        have hheight : p₁.tree.rootNodeHeight = t'.height :=
          howes₁.onward.stands.height.trans (congrArg _ (height_eq_of_bare hbare).symm)
        show (BatchAVLProver.onTree _ p₁.topNode p₁.tree.rootNodeHeight).Onward P t' t' []
        rw [hheight]
        exact howes'.onward.onTree hrep' howes'.onward.nodup
      · rw [Function.update_of_ne heq, Function.update_of_ne heq]
        exact h.archived (hkept₁.trans hkept) version
    · have hnow : (PersistentBatchAVLProver.digest P s).1 = .ok d' := congrArg Prod.fst hdigest
      simp only [announced, hnow]
      refine ⟨rfl, fun hkey hfits => ?_⟩
      rw [News.follow, if_pos (haccepted hkey hfits)]

/-- A rollback: an unknown version changes nothing, and what was saved is back. -/
theorem rollback_spec (hkeeps : S.KeepsVersions (P.labelLength + 1))
    {saved : Digest → Option (SortedMap ADKey ADValue)}
    (harchive : ∀ version, Option.Rel (Archived P s.avlProver.tree.heap version)
      (S.saved s.storage version) (saved version)) (version : Digest) :
    (∃ e st, saved version = none
      ∧ PersistentBatchAVLProver.rollback S s version = (.error e, { s with storage := st })
      ∧ S.saved st = S.saved s.storage)
    ∨ ∃ m s', saved version = some m
      ∧ PersistentBatchAVLProver.rollback S s version = (.ok (), s')
      ∧ s'.storage = (S.rollback s.storage version).2
      ∧ Tracks P S s' ⟨m, .ok version, saved⟩ version [] := by
  have hst := hkeeps.rollback s.storage version
  have hrel := harchive version
  cases hrun : S.rollback s.storage version with
  | mk res st =>
    rw [hrun] at hst
    cases res with
    | error e =>
      have hnone : S.saved s.storage version = none := by
        rw [VersionedAVLStorage.saved, hrun]
        rfl
      rw [hnone] at hrel
      refine .inl ⟨e, st, ?_, ?_, hst⟩
      · generalize saved version = m at hrel ⊢
        cases hrel
        rfl
      · simp only [PersistentBatchAVLProver.rollback, hrun]
    | ok root =>
      have hsome : S.saved s.storage version = some root := by
        rw [VersionedAVLStorage.saved, hrun]
        rfl
      rw [hsome] at hrel
      obtain ⟨m, hm, harchived⟩ : ∃ m, saved version = some m
          ∧ Archived P s.avlProver.tree.heap version root m := by
        generalize saved version = m at hrel ⊢
        cases hrel with
        | some harchived => exact ⟨_, rfl, harchived⟩
      obtain ⟨t, hon, htree, hd⟩ := harchived
      refine .inr ⟨m, ⟨.onTree s.avlProver.tree.heap root.1 root.2, true, st⟩, hm, ?_, rfl,
        ⟨⟨t, t, [], [], hon.owes (.nil rfl rfl) hd, htree, hd⟩, fun version' => ?_⟩⟩
      · simp only [PersistentBatchAVLProver.rollback, hrun]
      · show Option.Rel _ (S.saved st version') _
        rw [hst]
        exact harchive version'

/-- The clients are told the version that is back. -/
theorem Tracks.rollback (hkeeps : S.KeepsVersions (P.labelLength + 1))
    (h : Tracks P S s a d pending) (version : Digest) :
    ∃ a' d' r s', call P S s (.rollback version) = (r, s')
      ∧ VersionedMap.Step P a (.rollback version) r a'
      ∧ Tracks P S s' a' d' (pendingAfter pending (.rollback version) r)
      ∧ Told P d (announced P s pending (.rollback version) r) d' := by
  rcases rollback_spec hkeeps h.archive version with
    ⟨e, st, hnone, hrun, hst⟩ | ⟨m, s', hm, hrun, _, htracks⟩
  · refine ⟨a, d, .error e, { s with storage := st }, ?_, .unknown hnone, h.storage hst, rfl⟩
    simp only [call, hrun]
    rfl
  · refine ⟨_, version, .ok .unit, s', ?_, .restored hm, htracks, rfl, fun _ _ => rfl⟩
    simp only [call, hrun]
    rfl

/-- **One call** does to the map with versions what it should, and the clients are told all that
they have to know. -/
theorem Tracks.call (hkeeps : S.KeepsVersions (P.labelLength + 1))
    (h : Tracks P S s a d pending) {c : Call} (hroom : s.RoomFor c) :
    ∃ a' d', VersionedMap.Step P a c (call P S s c).1 a'
      ∧ Tracks P S (call P S s c).2 a' d' (pendingAfter pending c (call P S s c).1)
      ∧ Told P d (announced P s pending c (call P S s c).1) d' := by
  obtain ⟨t₀, t, V, bits, howes, hm, hversion⟩ := h.prover
  cases c with
  | performOneOperation operation =>
    obtain ⟨a', r, s', hcall, hstep, htracks, hquiet⟩ := h.performOneOperation operation hroom
    rw [hcall, hquiet]
    exact ⟨a', d, hstep, htracks, rfl⟩
  | generateProofAndUpdateStorage data =>
    obtain ⟨a', d', r, s', hcall, hstep, htracks, htold⟩ :=
      h.generateProofAndUpdateStorage hkeeps data
    rw [hcall]
    exact ⟨a', d', hstep, htracks, htold⟩
  | rollback version =>
    obtain ⟨a', d', r, s', hcall, hstep, htracks, htold⟩ := h.rollback hkeeps version
    rw [hcall]
    exact ⟨a', d', hstep, htracks, htold⟩
  | digest =>
    obtain ⟨p', hrun, howes', hkept⟩ := howes.digestCall s.collectChangedNodes
    have hcall : PersistentBatchAVLProver.call P S s .digest
        = (a.version.map .digest, { s with avlProver := p' }) := by
      simp only [PersistentBatchAVLProver.call, PersistentBatchAVLProver.digest, params, hrun,
        hversion]
    rw [hcall]
    exact ⟨a, d, .digest, ⟨⟨t₀, t, V, bits, howes', hm, hversion⟩, h.archived hkept⟩, rfl⟩
  | unauthenticatedLookup key =>
    obtain ⟨old, hrun, hold⟩ := howes.onward.unauthenticatedLookup hm key
    have hcall : PersistentBatchAVLProver.call P S s (.unauthenticatedLookup key)
        = (.ok (.value old), s) := by
      simp only [PersistentBatchAVLProver.call,
        PersistentBatchAVLProver.unauthenticatedLookup, hrun]
      rfl
    rw [hcall]
    exact ⟨a, d, .lookedUp hold, h, rfl⟩
  | checkTree postProof =>
    refine ⟨a, d, .checked fun hfalse => ?_, h, rfl⟩
    subst hfalse
    have hrun := (howes.onward.collecting s.collectChangedNodes).checkTree
    simp only [PersistentBatchAVLProver.call, PersistentBatchAVLProver.checkTree, params, hrun]
    rfl

/-! ## Runs -/

/-- What `create` has done when it succeeds on a storage without versions. -/
theorem create_ok {p : BatchAVLProver} {st : σ} (hversion : S.version st = none)
    {data : List (List UInt8 × List UInt8)} {paranoidChecks : Bool}
    (hcreate : create P S p st data paranoidChecks = .ok s) :
    ∃ proof s₁, PersistentBatchAVLProver.generateProofAndUpdateStorage P S
        ⟨p, P.collectChangedNodes, st⟩ data = (.ok proof, s₁)
      ∧ s = (PersistentBatchAVLProver.digest P s₁).2 := by
  rw [create, hversion] at hcreate
  cases hrun : PersistentBatchAVLProver.generateProofAndUpdateStorage P S
      ⟨p, P.collectChangedNodes, st⟩ data with
  | mk res s₁ =>
    rw [hrun] at hcreate
    cases res with
    | error e => cases hcreate
    | ok proof =>
      refine ⟨proof, s₁, rfl, ?_⟩
      simp only [Except.map, ensured] at hcreate
      cases hnew : S.version s₁.storage with
      | none =>
        rw [hnew] at hcreate
        cases hcreate
      | some version =>
        rw [hnew] at hcreate
        simp only at hcreate
        cases hdigest : PersistentBatchAVLProver.digest P s₁ with
        | mk res s₂ =>
          rw [hdigest] at hcreate
          cases res with
          | error e => cases hcreate
          | ok d =>
            simp only at hcreate
            generalize (decide (version = d) && _) = ok at hcreate
            cases ok with
            | false => cases hcreate
            | true =>
              cases hcreate
              rfl

/-- The digest is that of the present version. -/
theorem Tracks.digest (h : Tracks P S s a d pending) :
    (PersistentBatchAVLProver.digest P s).1 = a.version
      ∧ Tracks P S (PersistentBatchAVLProver.digest P s).2 a d pending := by
  obtain ⟨t₀, t, V, bits, howes, hm, hversion⟩ := h.prover
  obtain ⟨p', hrun, howes', hkept⟩ := howes.digestCall s.collectChangedNodes
  rw [PersistentBatchAVLProver.digest, params, hrun]
  exact ⟨hversion, ⟨t₀, t, V, bits, howes', hm, hversion⟩, h.archived hkept⟩

/-- Where nothing is pending, the clients know the present digest. -/
theorem Tracks.version_eq (h : Tracks P S s a d []) : a.version = .ok d := by
  obtain ⟨t₀, t, V, bits, howes, _, hversion⟩ := h.prover
  obtain ⟨outcomes, hops, _⟩ := howes.operates
  cases hops
  rw [← hversion, howes.digest]

/-- A new prover on a storage without versions tracks the empty map, and has saved it. -/
theorem create_tracks (hkeeps : S.KeepsVersions (P.labelLength + 1)) {st : σ}
    (hempty : ∀ version, S.saved st version = none) (hversion : S.version st = none)
    {data : List (List UInt8 × List UInt8)} {paranoidChecks : Bool}
    (hcreate : create P S (BatchAVLProver.new P) st data paranoidChecks = .ok s) :
    ∃ d, Tracks P S s ⟨.empty, .ok d, Function.update (fun _ => none) d (some .empty)⟩ d [] := by
  obtain ⟨proof, s₁, hrun, rfl⟩ := create_ok hversion hcreate
  have hstart : Tracks P S ⟨.new P, P.collectChangedNodes, st⟩
      ⟨.empty, treeDigest P (firstTree P), fun _ => none⟩
      (treeLabel P.hf (firstTree P) ++ [0]) [] := by
    refine ⟨⟨firstTree P, firstTree P, [], [], ?_, rfl, rfl⟩, fun version => ?_⟩
    · exact (BatchAVLProver.new_lives P).onward.owes (.nil rfl rfl) rfl
    · rw [hempty version]
      exact .none
  obtain ⟨a', d', r, s', hcall, hstep, htracks, _⟩ :=
    hstart.generateProofAndUpdateStorage hkeeps data
  rw [PersistentBatchAVLProver.call, hrun] at hcall
  cases hcall
  cases hstep with
  | saved _ hd =>
    have hnow : treeDigest P (firstTree P) = .ok d' := htracks.version_eq
    rw [hnow] at hd htracks
    cases hd
    exact ⟨d', htracks.digest.2⟩

/-- In every run of calls whose bits are counted, the replies are allowed, and the prover tracks
the map. -/
theorem tracks_run (hkeeps : S.KeepsVersions (P.labelLength + 1)) {st : σ}
    (hempty : ∀ version, S.saved st version = none) (hversion : S.version st = none)
    {data : List (List UInt8 × List UInt8)} {paranoidChecks : Bool}
    (hcreate : create P S (BatchAVLProver.new P) st data paranoidChecks = .ok s)
    {calls : List Call} (hcounted : Counted P S s calls) :
    ∃ d a d' pending, Allows (VersionedMap.Step P)
        ⟨.empty, .ok d, Function.update (fun _ => none) d (some .empty)⟩ calls
        (repliesOf (call P S) s calls) a
      ∧ Tracks P S (stateAfter (call P S) s calls) a d' pending := by
  obtain ⟨d, hstart⟩ := create_tracks hkeeps hempty hversion hcreate
  have hcall : ∀ s a c, (∃ d pending, Tracks P S s a d pending) → RoomFor s c →
      ∃ a', VersionedMap.Step P a c (call P S s c).1 a'
        ∧ ∃ d pending, Tracks P S (call P S s c).2 a' d pending := by
    rintro s a c ⟨d, pending, h⟩ hroom
    obtain ⟨a', d', hstep, h', _⟩ := h.call hkeeps hroom
    exact ⟨a', hstep, d', _, h'⟩
  obtain ⟨a, hallows, d', pending, htracks⟩ := allows_repliesOf hcall ⟨d, [], hstart⟩ hcounted
  exact ⟨d, a, d', pending, hallows, htracks⟩

/-- The prover has the leaves of the present map. -/
theorem Tracks.maps (h : Tracks P S s a d pending) : s.avlProver.Maps P a.current := by
  obtain ⟨t₀, t, V, bits, howes, hm, _⟩ := h.prover
  exact howes.onward.maps hm

/-- **The persistent prover is a map with versions**: in every run of calls whose bits are
counted, what it replies is what should be replied by a map that is saved and brought back, and it
has the leaves of that map. -/
theorem persistent_refines (P : TreeParams) (hkeeps : S.KeepsVersions (P.labelLength + 1)) {st : σ}
    (hempty : ∀ version, S.saved st version = none) (hversion : S.version st = none)
    {data : List (List UInt8 × List UInt8)} {paranoidChecks : Bool}
    {s : PersistentBatchAVLProver σ}
    (hcreate : create P S (BatchAVLProver.new P) st data paranoidChecks = .ok s)
    {calls : List Call} (hcounted : Counted P S s calls) :
    ∃ d a, Allows (VersionedMap.Step P)
        ⟨.empty, .ok d, Function.update (fun _ => none) d (some .empty)⟩ calls
        (repliesOf (call P S) s calls) a
      ∧ (stateAfter (call P S) s calls).avlProver.Maps P a.current := by
  obtain ⟨d, a, d', pending, hallows, htracks⟩ := tracks_run hkeeps hempty hversion hcreate hcounted
  exact ⟨d, a, hallows, htracks.maps⟩

/-- A new prover whose nodes are behind those that are there already. -/
def newBehind (P : TreeParams) (heap : Heap) : BatchAVLProver :=
  .onTree (heap ++ (BatchAVLProver.new P).tree.heap) heap.length 0

/-- **A store that is opened again** after any run of calls whose bits are counted, whatever was
pending, has the map that was saved last under its version, and its digest. -/
theorem create_restores (P : TreeParams) (hkeeps : S.KeepsVersions (P.labelLength + 1))
    (hreopens : S.Reopens) {st : σ} (hempty : ∀ version, S.saved st version = none)
    (hversion : S.version st = none) {data : List (List UInt8 × List UInt8)}
    {paranoidChecks : Bool} {s : PersistentBatchAVLProver σ}
    (hcreate : create P S (BatchAVLProver.new P) st data paranoidChecks = .ok s)
    {calls : List Call} (hcounted : Counted P S s calls) {version : Digest}
    (hlast : S.version (stateAfter (call P S) s calls).storage = some version)
    (data' : List (List UInt8 × List UInt8)) :
    ∃ d a m s', Allows (VersionedMap.Step P)
        ⟨.empty, .ok d, Function.update (fun _ => none) d (some .empty)⟩ calls
        (repliesOf (call P S) s calls) a
      ∧ a.saved version = some m
      ∧ create P S (newBehind P (stateAfter (call P S) s calls).avlProver.tree.heap)
        (stateAfter (call P S) s calls).storage data' false = .ok s'
      ∧ (digest P s').1 = .ok version ∧ s'.avlProver.Maps P m := by
  obtain ⟨d, a, d', pending, hallows, htracks⟩ := tracks_run hkeeps hempty hversion hcreate hcounted
  set s₁ := stateAfter (call P S) s calls with hs₁
  set s₂ : PersistentBatchAVLProver σ :=
    ⟨newBehind P s₁.avlProver.tree.heap, P.collectChangedNodes, s₁.storage⟩ with hs₂
  have hbehind : Preserves P s₁.avlProver.tree.heap s₂.avlProver.tree.heap :=
    (step_append .prover _ _ ∅).preserves
  have hsome := hreopens.saved _ _ hlast
  rcases rollback_spec (s := s₂) hkeeps (htracks.archived hbehind) version with
    ⟨e, st', hnone, _⟩ | ⟨m, s₃, hm, hrun, hst, hback⟩
  · have hrel := htracks.archive version
    rw [hnone] at hrel
    generalize S.saved s₁.storage version = root at hsome hrel
    cases hrel
    cases hsome
  · have hagain : S.version s₃.storage = some version := by
      rw [hst]
      exact hreopens.version _ _ hlast
    obtain ⟨hdigest, hback'⟩ := hback.digest
    refine ⟨d, a, m, (digest P s₃).2, hallows, hm, ?_, hback'.digest.1, hback'.maps⟩
    rw [create, hlast]
    simp only [← hs₂, hrun, ensured, hagain]
    generalize digest P s₃ = res at hdigest
    obtain ⟨res, s₄⟩ := res
    obtain rfl : res = .ok version := hdigest
    simp

end

/-! ### A run that goes back -/

section

open BatchAVLProver (oneByteKeys)

theorem length_take_append (message : List UInt8) :
    ((message ++ List.replicate 32 0).take 32).length = 32 := by
  rw [List.length_take, List.length_append, List.length_replicate]
  omega

/-- Keys of one byte, with a hash that shows the first 32 bytes. -/
def wideHash : TreeParams :=
  { oneByteKeys with
    hf :=
      { digestSize := 32
        digestSize_pos := Nat.succ_pos 31
        hash := fun message => (message ++ List.replicate 32 0).take 32
        length_hash := length_take_append } }

/-- The prover that is created on a new storage. -/
def created : Except AvlError (PersistentBatchAVLProver VersionedAVLStorageMock) :=
  create wideHash VersionedAVLStorageMock.storage (BatchAVLProver.new wideHash) .new [] true

theorem exists_created : ∃ s, created = .ok s := by
  have hok : created.isOk = true := by decide +kernel
  cases h : created with
  | error e =>
    rw [h] at hok
    cases hok
  | ok s => exact ⟨s, rfl⟩

/-- The version with one key. -/
def firstVersion : Digest := [1, 0, 0, 0, 5] ++ List.replicate 27 0 ++ [1]

/-- A key is inserted and saved.  An insertion is still pending when the prover goes back; then
the first key is removed, and it goes back once more. -/
def goBack : List Call :=
  [.performOneOperation (.insert ⟨[5]⟩ (.ofByte 1)), .generateProofAndUpdateStorage [],
    .performOneOperation (.insert ⟨[7]⟩ (.ofByte 2)), .rollback firstVersion,
    .performOneOperation (.remove ⟨[5]⟩), .generateProofAndUpdateStorage [],
    .rollback firstVersion, .rollback [], .unauthenticatedLookup ⟨[5]⟩]

theorem goBack_counted {s : PersistentBatchAVLProver VersionedAVLStorageMock}
    (hs : created = .ok s) : Counted wideHash VersionedAVLStorageMock.storage s goBack := by
  have hcounted : created.toOption.all fun s => decide
      (Counted wideHash VersionedAVLStorageMock.storage s goBack) := by
    decide +kernel
  rw [hs] at hcounted
  exact of_decide_eq_true hcounted

theorem persistent_refines_goBack :
    ∃ s d a, created = .ok s
      ∧ Allows (VersionedMap.Step wideHash)
        ⟨.empty, .ok d, Function.update (fun _ => none) d (some .empty)⟩ goBack
        (repliesOf (call wideHash VersionedAVLStorageMock.storage) s goBack) a
      ∧ (stateAfter (call wideHash VersionedAVLStorageMock.storage) s goBack).avlProver.Maps
        wideHash a.current := by
  obtain ⟨s, hs⟩ := exists_created
  obtain ⟨d, a, hallows, hmaps⟩ := persistent_refines wideHash
    VersionedAVLStorageMock.keepsVersions
    (fun version => congrFun (VersionedAVLStorageMock.saved_eq .new) version) rfl hs
    (goBack_counted hs)
  exact ⟨s, d, a, hs, hallows, hmaps⟩

/-- The store is opened again while the second insertion is pending. -/
theorem create_restores_goBack :
    ∃ s m s', created = .ok s
      ∧ create wideHash VersionedAVLStorageMock.storage
        (newBehind wideHash (stateAfter (call wideHash VersionedAVLStorageMock.storage) s
          (goBack.take 3)).avlProver.tree.heap)
        (stateAfter (call wideHash VersionedAVLStorageMock.storage) s (goBack.take 3)).storage []
        false = .ok s'
      ∧ (digest wideHash s').1 = .ok firstVersion ∧ s'.avlProver.Maps wideHash m := by
  obtain ⟨s, hs⟩ := exists_created
  have hlast : created.toOption.all fun s => decide (VersionedAVLStorageMock.storage.version
      (stateAfter (call wideHash VersionedAVLStorageMock.storage) s (goBack.take 3)).storage
        = some firstVersion) := by
    decide +kernel
  rw [hs] at hlast
  have hcounted : Counted wideHash VersionedAVLStorageMock.storage s
      (goBack.take 3 ++ goBack.drop 3) := goBack_counted hs
  obtain ⟨d, a, m, s', _, _, hcreate, hdigest, hmaps⟩ := create_restores wideHash
    VersionedAVLStorageMock.keepsVersions VersionedAVLStorageMock.reopens
    (fun version => congrFun (VersionedAVLStorageMock.saved_eq .new) version) rfl hs
    hcounted.left (of_decide_eq_true hlast) []
  exact ⟨s, m, s', hs, hcreate, hdigest, hmaps⟩

/-- The marks that the pending insertion has left do not pass the paranoid check. -/
example : created.toOption.all (fun s =>
    !(create wideHash VersionedAVLStorageMock.storage
      (newBehind wideHash (stateAfter (call wideHash VersionedAVLStorageMock.storage) s
        (goBack.take 3)).avlProver.tree.heap)
      (stateAfter (call wideHash VersionedAVLStorageMock.storage) s (goBack.take 3)).storage []
      true).isOk) = true := by
  decide +kernel

end

end PersistentBatchAVLProver


/-! ## The clients of a persistent prover -/

/-- A persistent prover, with the operations that its clients have not been told. -/
structure Publisher (σ : Type) where
  prover : PersistentBatchAVLProver σ
  pending : List (Operation × Option ADValue)

namespace Publisher

open PersistentBatchAVLProver

variable {σ : Type}

/-- One call, and what the clients are told after it. -/
def call (P : TreeParams) (S : VersionedAVLStorage σ) (n : Publisher σ) (c : Call) :
    Option News × Publisher σ :=
  let res := PersistentBatchAVLProver.call P S n.prover c
  (announced P n.prover n.pending c res.1, ⟨res.2, pendingAfter n.pending c res.1⟩)

/-- All that the clients are told in the course of calls. -/
def news (P : TreeParams) (S : VersionedAVLStorage σ) (n : Publisher σ) (calls : List Call) :
    List News :=
  (repliesOf (call P S) n calls).reduceOption

section

variable {P : TreeParams} {S : VersionedAVLStorage σ}

/-- The map of the prover, and the digest that its clients know, before and after a call. -/
def Hears (P : TreeParams) (x : VersionedMap × Digest) (_c : Call) (news : Option News)
    (y : VersionedMap × Digest) : Prop :=
  Told P x.2 news y.2

/-- The clients know the digest that the operations of the publisher are pending since. -/
def Informs (P : TreeParams) (S : VersionedAVLStorage σ) (n : Publisher σ)
    (x : VersionedMap × Digest) : Prop :=
  Tracks P S n.prover x.1 x.2 n.pending

theorem informs_call (hkeeps : S.KeepsVersions (P.labelLength + 1)) (n : Publisher σ)
    (x : VersionedMap × Digest) (c : Call) (h : Informs P S n x) (hroom : n.prover.RoomFor c) :
    ∃ y, Hears P x c (call P S n c).1 y ∧ Informs P S (call P S n c).2 y := by
  obtain ⟨a', d', _, h', htold⟩ := Tracks.call hkeeps h hroom
  exact ⟨(a', d'), htold, h'⟩

/-- A client that is told everything follows. -/
theorem follow_of_allows (hkey : 0 < P.keyLength) {x y : VersionedMap × Digest} {calls : List Call}
    {told : List (Option News)} (h : Allows (Hears P) x calls told y)
    (hfits : ∀ n ∈ told.reduceOption, n.Fits) :
    told.reduceOption.foldlM (News.follow P) x.2 = some y.2 := by
  induction h with
  | nil x => rfl
  | @cons x x' y c news calls told hstep _ ih =>
    cases news with
    | none =>
      have hd : x'.2 = x.2 := hstep
      rw [List.reduceOption_cons_of_none] at hfits ⊢
      rw [← hd]
      exact ih hfits
    | some n =>
      rw [List.reduceOption_cons_of_some] at hfits ⊢
      obtain ⟨_, hfollow⟩ := hstep
      rw [List.foldlM_cons, hfollow hkey (hfits n List.mem_cons_self)]
      exact ih fun n' hn' => hfits n' (List.mem_cons_of_mem _ hn')

end

/-- **The clients follow**: in every run of calls whose bits are counted, a client that knows the
digest at the start accepts all batches that are published, with versions brought back in between,
if an `Int` can count the bits of their proofs.  Where nothing is pending it has the digest of
the prover. -/
theorem clients_follow (P : TreeParams) (hkey : 0 < P.keyLength) {S : VersionedAVLStorage σ}
    (hkeeps : S.KeepsVersions (P.labelLength + 1)) {st : σ}
    (hempty : ∀ version, S.saved st version = none) (hversion : S.version st = none)
    {data : List (List UInt8 × List UInt8)} {paranoidChecks : Bool}
    {s : PersistentBatchAVLProver σ}
    (hcreate : create P S (BatchAVLProver.new P) st data paranoidChecks = .ok s)
    {calls : List Call} (hcounted : Counted P S s calls)
    (hfits : ∀ n ∈ news P S ⟨s, []⟩ calls, n.Fits) :
    ∃ d₀ d, (digest P s).1 = .ok d₀
      ∧ (news P S ⟨s, []⟩ calls).foldlM (News.follow P) d₀ = some d
      ∧ ((stateAfter (call P S) ⟨s, []⟩ calls).pending = [] →
        (digest P (stateAfter (call P S) ⟨s, []⟩ calls).prover).1 = .ok d) := by
  obtain ⟨d₀, hstart⟩ := create_tracks hkeeps hempty hversion hcreate
  have hversion₀ := hstart.digest.1.trans hstart.version_eq
  generalize VersionedMap.mk .empty (.ok d₀) _ = a₀ at hstart
  have hinitial : Informs P S ⟨s, []⟩ (a₀, d₀) := hstart
  obtain ⟨⟨a, d⟩, htold, htracks⟩ := allows_repliesOf (informs_call hkeeps) hinitial
    ((along_comap Publisher.prover fun _ _ => rfl).2 hcounted)
  refine ⟨d₀, d, hversion₀, follow_of_allows hkey htold hfits, fun hnil => ?_⟩
  rw [Informs, hnil] at htracks
  exact htracks.digest.1.trans htracks.version_eq

/-- Four pieces of news are followed: two batches, and two returns to the same version. -/
theorem clients_follow_goBack :
    ∃ s d₀ d, created = .ok s ∧ (digest wideHash s).1 = .ok d₀
      ∧ (news wideHash VersionedAVLStorageMock.storage ⟨s, []⟩ goBack).foldlM
        (News.follow wideHash) d₀ = some d
      ∧ (digest wideHash (stateAfter (call wideHash VersionedAVLStorageMock.storage) ⟨s, []⟩
        goBack).prover).1 = .ok d := by
  obtain ⟨s, hs⟩ := exists_created
  have hfits : created.toOption.all fun s => decide
      (∀ n ∈ news wideHash VersionedAVLStorageMock.storage ⟨s, []⟩ goBack, n.Fits) := by
    decide +kernel
  have hpending : created.toOption.all fun s => decide
      ((stateAfter (call wideHash VersionedAVLStorageMock.storage) ⟨s, []⟩ goBack).pending
        = []) := by
    decide +kernel
  rw [hs] at hfits hpending
  obtain ⟨d₀, d, hd₀, hfollow, hd⟩ := clients_follow wideHash Nat.one_pos
    VersionedAVLStorageMock.keepsVersions
    (fun version => congrFun (VersionedAVLStorageMock.saved_eq .new) version) rfl hs
    (goBack_counted hs) (of_decide_eq_true hfits)
  exact ⟨s, d₀, d, hs, hd₀, hfollow, hd (of_decide_eq_true hpending)⟩

end Publisher

end Sparkz.Avl
