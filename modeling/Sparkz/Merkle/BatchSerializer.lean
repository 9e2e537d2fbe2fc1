import Sparkz.Lib.Records
import Sparkz.Merkle.BatchMerkleProof

/-!
# Batch proofs as bytes

The model of `BatchMerkleProofSerializer` for a hash of 32 bytes.  The bytes start with the
numbers of indices and of proofs; the empty digest is written as 32 zero bytes.

* `serialize`, `deserialize` — the source; the sizes of the two parts are products of 32 bits.
* `deserialize_serialize` — a proof is read back if its bytes fit in an array.
* `deserialize_parts` — what is known of bytes that are accepted.
* `serializer_bijective_iff` — where one proof has one encoding.
-/

namespace Sparkz.Merkle

open Sparkz.Avl (Digest)
open Sparkz.Lib

/-- What can be thrown on the way from and to bytes. -/
inductive BytesError where
  | invalidInput
  | illegalArgument
  | indexOutOfBounds
  deriving DecidableEq

namespace BatchMerkleProofSerializer

/-- `hf.DigestSize`. -/
def digestSize : ℕ := 32

/-- `indexSize`. -/
def indexSize : ℕ := 4

/-- `sideSize`. -/
def sideSize : ℕ := 1

/-- `indicesSize`. -/
def indicesSize : ℕ := digestSize + indexSize

/-- `proofsSize`. -/
def proofsSize : ℕ := digestSize + sideSize

/-! ## Writing -/

/-- The bytes of an index and its digest. -/
def indexToBytes (i : ℤ × Digest) : List UInt8 := intToBytes i.1 ++ i.2

/-- `indicesToBytes`. -/
def indicesToBytes (indices : List (ℤ × Digest)) : List UInt8 := indices.flatMap indexToBytes

/-- The bytes of a digest of the proof and its side. -/
def proofToBytes (p : Digest × Side) : List UInt8 :=
  if p.1.isEmpty then List.replicate 32 0 ++ [p.2] else p.1 ++ [p.2]

/-- `proofsToBytes`. -/
def proofsToBytes (proofs : List (Digest × Side)) : List UInt8 := proofs.flatMap proofToBytes

/-- What `serialize` concatenates. -/
def bytesOf (bmp : BatchMerkleProof) : List UInt8 :=
  intToBytes bmp.indices.length ++ intToBytes bmp.proofs.length ++ indicesToBytes bmp.indices
    ++ proofsToBytes bmp.proofs

/-- `serialize(bmp)`: no array is longer. -/
def serialize (bmp : BatchMerkleProof) : Option (List UInt8) :=
  if (bytesOf bmp).length < 2 ^ 31 then some (bytesOf bmp) else none

/-! ## Reading -/

/-- One index with its digest. -/
def indexFromBytes (b : List UInt8) : Except BytesError (ℤ × Digest) :=
  if (b.take indexSize).length < 4 then .error .illegalArgument
  else .ok (intOfBytes b, (b.take indicesSize).drop indexSize)

/-- `indicesFromBytes`. -/
def indicesFromBytes (bytes : List UInt8) : Except BytesError (List (ℤ × Digest)) :=
  (grouped indicesSize bytes).mapM indexFromBytes

/-- One digest of the proof with its side. -/
def proofFromBytes (b : List UInt8) : Except BytesError (Digest × Side) :=
  let hashBytes := b.take digestSize
  let hash := if hashBytes.all (· == 0) then [] else hashBytes
  match b[digestSize]? with
  | none => .error .indexOutOfBounds
  | some side => .ok (hash, side)

/-- `proofsFromBytes`. -/
def proofsFromBytes (bytes : List UInt8) : Except BytesError (List (Digest × Side)) :=
  (grouped proofsSize bytes).mapM proofFromBytes

/-- `numIndices`. -/
def numIndices (bytes : List UInt8) : ℤ := intOfBytes bytes

/-- `numProofs`. -/
def numProofs (bytes : List UInt8) : ℤ := intOfBytes (bytes.drop 4)

/-- A product of `Int`s. -/
def sizeOf (number : ℤ) (size : ℕ) : ℤ := (number * size).bmod (2 ^ 32)

/-- `deserialize(bytes)`. -/
def deserialize (bytes : List UInt8) : Except BytesError BatchMerkleProof :=
  if bytes.length < 8 then .error .invalidInput
  else
    let size := sizeOf (numIndices bytes) indicesSize
    let indices := (bytes.drop 8).take size.toNat
    let proofs := (bytes.drop 8).drop size.toNat
    if indices.length ≠ size ∨ proofs.length ≠ sizeOf (numProofs bytes) proofsSize then
      .error .invalidInput
    else
      (indicesFromBytes indices).bind fun indices =>
        (proofsFromBytes proofs).map fun proofs => ⟨indices, proofs⟩

/-! ## Sizes -/

/-- What the types of the code say of a proof, and what is asked of its digests. -/
structure Encodable (p : BatchMerkleProof) : Prop where
  index : ∀ x ∈ p.indices, -2 ^ 31 ≤ x.1 ∧ x.1 < 2 ^ 31
  indexDigest : ∀ x ∈ p.indices, x.2.length = digestSize
  proofDigest : ∀ x ∈ p.proofs, x.1 = [] ∨ x.1.length = digestSize ∧ ∃ b ∈ x.1, b ≠ 0

variable {p : BatchMerkleProof}

theorem length_indicesToBytes {indices : List (ℤ × Digest)}
    (h : ∀ x ∈ indices, x.2.length = digestSize) :
    (indicesToBytes indices).length = indicesSize * indices.length := by
  have hlength : ∀ g ∈ indices.map indexToBytes, g.length = indicesSize := by
    intro g hg
    obtain ⟨x, hx, rfl⟩ := List.mem_map.1 hg
    simp [indexToBytes, h x hx, indicesSize, indexSize, add_comm]
  rw [indicesToBytes, List.flatMap_def, length_flatten_of_length hlength, List.length_map]

theorem length_proofToBytes {x : Digest × Side}
    (h : x.1 = [] ∨ x.1.length = digestSize) : (proofToBytes x).length = proofsSize := by
  unfold proofToBytes
  rcases h with h | h
  · simp [h, proofsSize, digestSize, sideSize]
  · have hne : x.1.isEmpty = false := by
      rw [List.isEmpty_eq_false_iff, ← List.length_pos_iff, h]
      decide
    simp [hne, h, proofsSize, sideSize]

theorem length_proofsToBytes {proofs : List (Digest × Side)}
    (h : ∀ x ∈ proofs, x.1 = [] ∨ x.1.length = digestSize) :
    (proofsToBytes proofs).length = proofsSize * proofs.length := by
  have hlength : ∀ g ∈ proofs.map proofToBytes, g.length = proofsSize := by
    intro g hg
    obtain ⟨x, hx, rfl⟩ := List.mem_map.1 hg
    exact length_proofToBytes (h x hx)
  rw [proofsToBytes, List.flatMap_def, length_flatten_of_length hlength, List.length_map]

theorem Encodable.length_bytesOf (h : Encodable p) :
    (bytesOf p).length = 8 + 36 * p.indices.length + 33 * p.proofs.length := by
  have hproof : ∀ x ∈ p.proofs, x.1 = [] ∨ x.1.length = digestSize :=
    fun x hx => (h.proofDigest x hx).imp_right And.left
  simp only [bytesOf, List.length_append, length_intToBytes, length_indicesToBytes h.indexDigest,
    length_proofsToBytes hproof, indicesSize, proofsSize, digestSize, indexSize, sideSize]

/-! ## Reading back -/

theorem indexFromBytes_indexToBytes {x : ℤ × Digest} (hlow : -2 ^ 31 ≤ x.1) (hhigh : x.1 < 2 ^ 31)
    (hdigest : x.2.length = digestSize) : indexFromBytes (indexToBytes x) = .ok x := by
  have hint := intOfBytes_append hlow hhigh x.2
  have htake : x.2.take digestSize = x.2 := by rw [← hdigest, List.take_length]
  simp [indexFromBytes, indexToBytes, indexSize, indicesSize, hint, htake, List.take_append]

theorem proofFromBytes_proofToBytes {x : Digest × Side}
    (h : x.1 = [] ∨ x.1.length = digestSize ∧ ∃ b ∈ x.1, b ≠ 0) :
    proofFromBytes (proofToBytes x) = .ok x := by
  obtain ⟨hash, side⟩ := x
  rcases h with rfl | ⟨hlength, b, hb, hzero⟩
  · simp [proofFromBytes, proofToBytes, digestSize]
  · have hne : hash.isEmpty = false := by
      rw [List.isEmpty_eq_false_iff]
      exact List.ne_nil_of_mem hb
    have hall : hash.all (· == 0) = false := by
      rw [List.all_eq_false]
      exact ⟨b, hb, by simpa using hzero⟩
    have htake : (hash ++ [side]).take digestSize = hash := by
      rw [← hlength, List.take_left]
    have hside : (hash ++ [side])[digestSize]? = some side := by
      rw [← hlength, List.getElem?_concat_length]
    simp [proofFromBytes, proofToBytes, hne, htake, hall, hside]

theorem sizeOf_eq {number size : ℕ} (h : number * size < 2 ^ 31) :
    sizeOf number size = number * size := by
  unfold sizeOf
  have hcast : ((number : ℤ) * size) = ((number * size : ℕ) : ℤ) := by push_cast; rfl
  rw [Int.bmod_eq_of_le] <;> simp only [hcast] <;> omega

/-- **A proof is read back** from its bytes. -/
theorem deserialize_serialize (h : Encodable p) (hsize : (bytesOf p).length < 2 ^ 31) :
    deserialize (bytesOf p) = .ok p := by
  obtain ⟨indices, proofs⟩ := p
  have hlength := h.length_bytesOf
  simp only at hlength
  have hproof : ∀ x ∈ proofs, x.1 = [] ∨ x.1.length = digestSize :=
    fun x hx => (h.proofDigest x hx).imp_right And.left
  have hindicesLength : (indicesToBytes indices).length = indicesSize * indices.length :=
    length_indicesToBytes h.indexDigest
  have hproofsLength := length_proofsToBytes hproof
  have hnumIndices : numIndices (bytesOf ⟨indices, proofs⟩) = indices.length := by
    rw [numIndices, bytesOf, List.append_assoc, List.append_assoc]
    exact intOfBytes_append (by simp only; omega) (by simp only; omega) _
  have hnumProofs : numProofs (bytesOf ⟨indices, proofs⟩) = proofs.length := by
    have hdrop : (bytesOf ⟨indices, proofs⟩).drop 4
        = intToBytes proofs.length ++ (indicesToBytes indices ++ proofsToBytes proofs) := by
      simp [bytesOf]
    rw [numProofs, hdrop]
    exact intOfBytes_append (by omega) (by omega) _
  have hbody : (bytesOf ⟨indices, proofs⟩).drop 8
      = indicesToBytes indices ++ proofsToBytes proofs := by
    simp [bytesOf, List.drop_append]
  have hindices : indicesFromBytes (indicesToBytes indices) = .ok indices := by
    rw [indicesFromBytes, indicesToBytes, List.flatMap_def, grouped_flatten (by decide)]
    · exact mapM_records fun x hx => indexFromBytes_indexToBytes (h.index x hx).1 (h.index x hx).2
        (h.indexDigest x hx)
    · intro g hg
      obtain ⟨x, hx, rfl⟩ := List.mem_map.1 hg
      simp [indexToBytes, h.indexDigest x hx, indicesSize, indexSize, add_comm]
  have hproofs : proofsFromBytes (proofsToBytes proofs) = .ok proofs := by
    rw [proofsFromBytes, proofsToBytes, List.flatMap_def, grouped_flatten (by decide)]
    · exact mapM_records fun x hx => proofFromBytes_proofToBytes (h.proofDigest x hx)
    · intro g hg
      obtain ⟨x, hx, rfl⟩ := List.mem_map.1 hg
      exact length_proofToBytes (hproof x hx)
  have hsizeIndices : sizeOf indices.length indicesSize = (indicesToBytes indices).length := by
    rw [sizeOf_eq (by simp only [indicesSize, digestSize, indexSize]; omega), hindicesLength]
    push_cast
    ring
  have hsizeProofs : sizeOf proofs.length proofsSize = (proofsToBytes proofs).length := by
    rw [sizeOf_eq (by simp only [proofsSize, digestSize, sideSize]; omega), hproofsLength]
    push_cast
    ring
  have hlong : ¬(bytesOf ⟨indices, proofs⟩).length < 8 := by omega
  simp only [deserialize, if_neg hlong, hnumIndices, hnumProofs, hbody, hsizeIndices, hsizeProofs,
    Int.toNat_natCast, List.take_left, List.drop_left, ne_eq, not_true_eq_false, or_self, if_false,
    hindices, hproofs]
  rfl

/-! ## Bytes that are accepted -/

theorem indexToBytes_of_indexFromBytes {g : List UInt8} {x : ℤ × Digest}
    (hlength : g.length ≤ indicesSize) (h : indexFromBytes g = .ok x) : indexToBytes x = g := by
  unfold indexFromBytes at h
  split at h
  · cases h
  · rename_i hfour
    cases h
    have hlong : 4 ≤ g.length := by
      simp only [indexSize, List.length_take] at hfour
      omega
    rw [indexToBytes, intToBytes_intOfBytes g hlong, List.take_of_length_le hlength, indexSize,
      List.take_append_drop]

theorem length_of_proofFromBytes {g : List UInt8} {x : Digest × Side}
    (h : proofFromBytes g = .ok x) : digestSize < g.length := by
  by_contra hshort
  have hnone : g[digestSize]? = none := List.getElem?_eq_none (not_lt.1 hshort)
  simp [proofFromBytes, hnone] at h

theorem proofToBytes_of_proofFromBytes {g : List UInt8} {x : Digest × Side}
    (hlength : g.length = proofsSize) (h : proofFromBytes g = .ok x) : proofToBytes x = g := by
  have hlt : digestSize < g.length := length_of_proofFromBytes h
  have hg : g.take digestSize ++ [g[digestSize]] = g := by
    rw [List.take_append_getElem]
    exact List.take_of_length_le hlength.le
  have htake : (g.take digestSize).length = 32 := by
    rw [List.length_take]
    exact min_eq_left hlt.le
  simp only [proofFromBytes, List.getElem?_eq_getElem hlt] at h
  cases h
  by_cases hzero : (g.take digestSize).all (· == 0) = true
  · have hreplicate : g.take digestSize = List.replicate 32 0 := by
      rw [List.eq_replicate_iff]
      exact ⟨htake, by simpa using hzero⟩
    rw [if_pos hzero, proofToBytes, ← hreplicate]
    exact hg
  · have hne : (g.take digestSize).isEmpty = false := by
      rw [List.isEmpty_eq_false_iff, ← List.length_pos_iff, htake]
      decide
    rw [if_neg hzero, proofToBytes, if_neg (by simp [hne])]
    exact hg

/-- The numbers in the header, and the parts. -/
structure Parts (bytes : List UInt8) (p : BatchMerkleProof) : Prop where
  long : 8 ≤ bytes.length
  body : bytes.drop 8 = indicesToBytes p.indices ++ proofsToBytes p.proofs
  indicesSize : ((indicesToBytes p.indices).length : ℤ) = sizeOf (numIndices bytes) indicesSize
  proofsSize : ((proofsToBytes p.proofs).length : ℤ) = sizeOf (numProofs bytes) proofsSize
  indicesCount : p.indices.length = ((indicesToBytes p.indices).length + 35) / 36
  proofsCount : (proofsToBytes p.proofs).length = 33 * p.proofs.length

theorem mem_of_mapM_ok {α β : Type} {f : α → Except BytesError β} {l : List α} {ys : List β}
    (h : l.mapM f = .ok ys) : ∀ a ∈ l, ∃ b, f a = .ok b := by
  induction l generalizing ys with
  | nil => simp
  | cons a l ih =>
    obtain ⟨b, bs, hb, hbs, -⟩ := mapM_ok_cons.1 h
    intro a' ha'
    rcases List.mem_cons.1 ha' with rfl | ha'
    · exact ⟨b, hb⟩
    · exact ih hbs a' ha'

/-- **What is accepted** is a header with the bytes of the parts. -/
theorem deserialize_parts {bytes : List UInt8} (h : deserialize bytes = .ok p) :
    Parts bytes p := by
  unfold deserialize at h
  split at h
  · cases h
  · rename_i hlong
    simp only at h
    split at h
    · cases h
    · rename_i hsizes
      rw [not_or, not_not, not_not] at hsizes
      obtain ⟨indices, hindices, h⟩ := bind_eq_ok.1 h
      obtain ⟨proofs, hproofs, rfl⟩ := map_eq_ok.1 h
      set I := (bytes.drop 8).take (sizeOf (numIndices bytes) indicesSize).toNat with hI
      set P := (bytes.drop 8).drop (sizeOf (numIndices bytes) indicesSize).toNat with hP
      have hIwrite : ∀ g ∈ grouped indicesSize I, ∀ x, indexFromBytes g = .ok x →
          indexToBytes x = g :=
        fun g hg x hx => indexToBytes_of_indexFromBytes (length_le_of_mem_groups g hg) hx
      obtain ⟨hIflat, hIcount⟩ := flatMap_of_mapM hindices hIwrite
      have hPlength : ∀ g ∈ grouped proofsSize P, g.length = proofsSize := by
        intro g hg
        obtain ⟨x, hx⟩ := mem_of_mapM_ok hproofs g hg
        have hle := length_le_of_mem_groups g hg
        have hlt := length_of_proofFromBytes hx
        simp only [proofsSize, sideSize] at hle ⊢
        omega
      have hPwrite : ∀ g ∈ grouped proofsSize P, ∀ x, proofFromBytes g = .ok x →
          proofToBytes x = g :=
        fun g hg x hx => proofToBytes_of_proofFromBytes (hPlength g hg) hx
      obtain ⟨hPflat, hPcount⟩ := flatMap_of_mapM hproofs hPwrite
      have hPsize := length_flatten_of_length hPlength
      rw [flatten_grouped (by decide)] at hIflat hPflat hPsize
      have hIbytes : indicesToBytes indices = I := hIflat
      have hPbytes : proofsToBytes proofs = P := hPflat
      refine ⟨by omega, ?_, ?_, ?_, ?_, ?_⟩
      · rw [hIbytes, hPbytes, hI, hP, List.take_append_drop]
      · rw [hIbytes]
        exact hsizes.1
      · rw [hPbytes]
        exact hsizes.2
      · show indices.length = _
        rw [hIbytes, hIcount, length_grouped]
        rfl
      · show _ = 33 * proofs.length
        rw [hPbytes, hPcount]
        exact hPsize

/-- The bytes of an accepted proof differ from the accepted ones in the header only. -/
theorem Parts.bytesOf_eq_iff {bytes : List UInt8} (h : Parts bytes p)
    (hbytes : bytes.length < 2 ^ 31) :
    bytesOf p = bytes
      ↔ numIndices bytes = p.indices.length ∧ numProofs bytes = p.proofs.length := by
  have hlength := congrArg List.length h.body
  simp only [List.length_drop, List.length_append] at hlength
  have hlong := h.long
  have hcountI := h.indicesCount
  have hcountP := h.proofsCount
  have hheader : bytes = bytes.take 4 ++ ((bytes.drop 4).take 4 ++ bytes.drop 8) := by
    have hdrop : bytes.drop 8 = (bytes.drop 4).drop 4 := by simp
    rw [hdrop, List.take_append_drop, List.take_append_drop]
  have hfirst : intToBytes (numIndices bytes) = bytes.take 4 := intToBytes_intOfBytes _ (by omega)
  have hsecond : intToBytes (numProofs bytes) = (bytes.drop 4).take 4 := by
    apply intToBytes_intOfBytes
    rw [List.length_drop]
    omega
  constructor
  · intro heq
    constructor
    · rw [← heq, numIndices, bytesOf, List.append_assoc, List.append_assoc]
      exact intOfBytes_append (by omega) (by omega) _
    · have hdrop : (bytesOf p).drop 4
          = intToBytes p.proofs.length ++ (indicesToBytes p.indices ++ proofsToBytes p.proofs) := by
        simp [bytesOf]
      rw [← heq, numProofs, hdrop]
      exact intOfBytes_append (by omega) (by omega) _
  · rintro ⟨hI, hP⟩
    conv_rhs => rw [hheader, h.body, ← hfirst, ← hsecond, hI, hP]
    simp [bytesOf]

/-- No two numbers of 32 bits have the same product with an odd number. -/
theorem number_of_product {number count : ℤ} (hlow : -2 ^ 31 ≤ number) (hhigh : number < 2 ^ 31)
    (hcount : 0 ≤ count) (hsize : 33 * count < 2 ^ 31)
    (h : 33 * count = (number * 33).bmod (2 ^ 32)) : number = count := by
  have hcut := Int.bmod_add_bdiv (number * 33) (2 ^ 32)
  have hdvd : (2 : ℤ) ^ 32 ∣ 33 * (number - count) := by
    refine ⟨(number * 33).bdiv (2 ^ 32), ?_⟩
    rw [← h] at hcut
    norm_num at hcut ⊢
    linarith
  have hodd : IsCoprime ((2 : ℤ) ^ 32) 33 := by
    rw [Int.isCoprime_iff_gcd_eq_one]
    decide
  have hzero := Int.eq_zero_of_abs_lt_dvd (hodd.dvd_of_dvd_mul_left hdvd) (by
    rw [abs_lt]
    constructor <;> linarith)
  linarith

/-- A number is that of the records that its product makes room for, unless bits of the
product are lost. -/
theorem number_eq_count_iff {number size : ℤ} (hpos : 0 ≤ size) (hsize : size < 2 ^ 31)
    (h : size = (number * 36).bmod (2 ^ 32)) :
    number = (size + 35) / 36 ↔ 0 ≤ number ∧ number * 36 < 2 ^ 31 := by
  have hcut := Int.bmod_add_bdiv (number * 36) (2 ^ 32)
  rw [← h] at hcut
  generalize (number * 36).bdiv (2 ^ 32) = k at hcut
  norm_num at hcut hsize ⊢
  constructor
  · intro hnumber
    omega
  · intro hrange
    omega

/-- A proof is written and read back if its bytes fit in an array. -/
theorem serialize_read_back_iff (hp : Encodable p) :
    (∃ bytes, serialize p = some bytes ∧ deserialize bytes = .ok p)
      ↔ 8 + 36 * p.indices.length + 33 * p.proofs.length < 2 ^ 31 := by
  rw [← hp.length_bytesOf]
  constructor
  · rintro ⟨bytes, hwrite, -⟩
    by_contra hlong
    rw [serialize, if_neg hlong] at hwrite
    cases hwrite
  · intro hsize
    exact ⟨_, if_pos hsize, deserialize_serialize hp hsize⟩

/-- Accepted bytes are those of the proof they give if the number of indices times the size
of an index loses no sign bit and no cut bit. -/
theorem serialize_eq_some_iff {bytes : List UInt8} (hbytes : bytes.length < 2 ^ 31)
    (hread : deserialize bytes = .ok p) :
    serialize p = some bytes
      ↔ 0 ≤ numIndices bytes ∧ numIndices bytes * indicesSize < 2 ^ 31 := by
  have hparts := deserialize_parts hread
  have hbody := congrArg List.length hparts.body
  have hlong := hparts.long
  have hsizeI := hparts.indicesSize
  have hsizeP := hparts.proofsSize
  have hcountI := hparts.indicesCount
  have hcountP := hparts.proofsCount
  have hiff := hparts.bytesOf_eq_iff hbytes
  have hrangeP : -2 ^ 31 ≤ numProofs bytes ∧ numProofs bytes < 2 ^ 31 := intOfBytes_range _
  simp only [List.length_drop, List.length_append] at hbody
  have hproofs : numProofs bytes = p.proofs.length := by
    rw [hcountP] at hsizeP
    push_cast at hsizeP
    exact number_of_product hrangeP.1 hrangeP.2 (by omega) (by omega) hsizeP
  have hwrite : serialize p = some bytes ↔ bytesOf p = bytes := by
    unfold serialize
    constructor
    · intro h
      split at h
      · exact Option.some.inj h
      · cases h
    · rintro rfl
      rw [if_pos hbytes]
  have hindices : ((p.indices.length : ℕ) : ℤ) = ((indicesToBytes p.indices).length + 35) / 36 := by
    omega
  rw [hwrite, hiff, and_iff_left hproofs, hindices]
  exact number_eq_count_iff (by omega) (by omega) hsizeI

/-- **One encoding.**  A proof whose bytes fit in an array is read back; and bytes that are
accepted are the bytes of the proof they give if and only if their number of indices times the
size of an index is a number that no sign bit or cut bit is lost of. -/
theorem serializer_bijective_iff (p : BatchMerkleProof) (bytes : List UInt8) :
    (Encodable p → ((∃ out, serialize p = some out ∧ deserialize out = .ok p)
      ↔ 8 + 36 * p.indices.length + 33 * p.proofs.length < 2 ^ 31))
    ∧ (bytes.length < 2 ^ 31 → deserialize bytes = .ok p →
      (serialize p = some bytes
        ↔ 0 ≤ numIndices bytes ∧ numIndices bytes * indicesSize < 2 ^ 31)) :=
  ⟨serialize_read_back_iff, serialize_eq_some_iff⟩

/-- A header whose number of indices, times their size, is a multiple of 2 ^ 32. -/
def cutHeader : List UInt8 := [64, 0, 0, 0, 0, 0, 0, 0]

theorem deserialize_cutHeader : deserialize cutHeader = .ok ⟨[], []⟩ := by
  have hindices : numIndices cutHeader = 2 ^ 30 := by decide
  have hproofs : numProofs cutHeader = 0 := by decide
  have hsize : sizeOf (2 ^ 30) indicesSize = 0 := by decide
  have hzero : sizeOf 0 proofsSize = 0 := by decide
  have hempty : cutHeader.drop 8 = [] := rfl
  rw [deserialize, hindices, hproofs, hsize, hzero, hempty]
  rfl

/-- A proof of one index, with one digest. -/
def oneIndex : BatchMerkleProof where
  indices := [(1, List.replicate 32 7)]
  proofs := [(List.replicate 32 9, MerkleProof.leftSide)]

theorem encodable_oneIndex : Encodable oneIndex := by
  constructor
  all_goals
    intro x hx
    obtain rfl := List.mem_singleton.1 hx
  · decide
  · rfl
  · exact .inr ⟨rfl, 9, by decide, by decide⟩

/-- This proof is read back, and the cut header is no encoding of what it is read as. -/
theorem serializer_bijective_iff_cutHeader :
    (∃ bytes, serialize oneIndex = some bytes ∧ deserialize bytes = .ok oneIndex)
    ∧ serialize ⟨[], []⟩ ≠ some cutHeader := by
  constructor
  · exact ((serializer_bijective_iff oneIndex []).1 encodable_oneIndex).2 (by decide)
  · intro hwrite
    have hsmall := ((serializer_bijective_iff ⟨[], []⟩ cutHeader).2 (by decide)
      deserialize_cutHeader).1 hwrite
    exact absurd hsmall.2 (by decide)

/-- A proof with two encodings. -/
theorem serializer_not_bijective :
    ¬((∀ p, Encodable p → ∃ bytes, serialize p = some bytes ∧ deserialize bytes = .ok p)
      ∧ ∀ bytes p, bytes.length < 2 ^ 31 → deserialize bytes = .ok p →
        serialize p = some bytes) := by
  rintro ⟨-, h⟩
  have hwrite := h cutHeader ⟨[], []⟩ (by decide) deserialize_cutHeader
  revert hwrite
  decide

end BatchMerkleProofSerializer

end Sparkz.Merkle
