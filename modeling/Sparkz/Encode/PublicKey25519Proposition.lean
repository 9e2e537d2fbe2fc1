import Sparkz.Encode.Base16

/-!
# Addresses of public keys

A public key is written as its version byte, its bytes and the first bytes of their hash, in
base 16.

* `address`, `validPubKey` — the address of a key, and the key of an address.
* `validPubKey_eq_ok_iff` — which strings are read as a given key: the version byte is not
  looked at.
* `singleAddress_iff` — the strings that are the address of the key that they are read as.
-/

namespace Sparkz

/-- `Ed25519.KeyLength`. -/
def Ed25519.keyLength : ℕ := 32

/-- `Constants25519.PubKeyLength`. -/
def Constants25519.pubKeyLength : ℕ := 32

/-- A public key, which has the length that the constructor requires. -/
structure PublicKey25519Proposition where
  pubKeyBytes : List UInt8
  length_pubKeyBytes : pubKeyBytes.length = Ed25519.keyLength

namespace PublicKey25519Proposition

open Ed25519 Constants25519

/-- The constructor. -/
def ofBytes (pubKeyBytes : List UInt8) : Except String PublicKey25519Proposition :=
  if h : pubKeyBytes.length = keyLength then .ok ⟨pubKeyBytes, h⟩
  else .error (s!"requirement failed: Incorrect pubKey length, {keyLength} expected, "
    ++ s!"{pubKeyBytes.length} found")

/-- `AddressVersion`. -/
def addressVersion : UInt8 := 1

/-- `ChecksumLength`. -/
def checksumLength : ℕ := 4

/-- `AddressLength`: the version byte, the key and the checksum. -/
def addressLength : ℕ := 1 + pubKeyLength + checksumLength

/-- The encoder of `SparkzEncoding`. -/
def encoder : BytesEncoder := Base16.encoder

section Checksum

-- `Blake2b256.hash`.
variable (hash : List UInt8 → List UInt8)

/-- `calcCheckSum(bytes)`. -/
def calcCheckSum (bytes : List UInt8) : List UInt8 := (hash bytes).take checksumLength

/-- `bytesWithVersion`. -/
def bytesWithVersion (p : PublicKey25519Proposition) : List UInt8 := addressVersion :: p.pubKeyBytes

/-- `address`. -/
def address (p : PublicKey25519Proposition) : List UInt16 :=
  encoder.encode (p.bytesWithVersion ++ calcCheckSum hash p.bytesWithVersion)

/-- `validPubKey(address)`, with the texts of its errors. -/
def validPubKey (address : List UInt16) : Except String PublicKey25519Proposition := do
  let addressBytes ← encoder.decode address
  if addressBytes.length ≠ addressLength then .error "Wrong address length"
  else
    let checkSum := addressBytes.rtake checksumLength
    let checkSumGenerated := calcCheckSum hash (addressBytes.rdrop checksumLength)
    if checkSum = checkSumGenerated then ofBytes (addressBytes.rdrop checksumLength).tail
    else .error "Wrong checksum"

/-- The layout of an address with any version byte. -/
def layout (version : UInt8) (p : PublicKey25519Proposition) : List UInt8 :=
  version :: p.pubKeyBytes ++ calcCheckSum hash (version :: p.pubKeyBytes)

variable {hash} {s : List UInt16} {p : PublicKey25519Proposition} {version : UInt8}

theorem ofBytes_pubKeyBytes (p : PublicKey25519Proposition) : ofBytes p.pubKeyBytes = .ok p :=
  dif_pos p.length_pubKeyBytes

theorem ofBytes_eq_ok {bytes : List UInt8} (h : ofBytes bytes = .ok p) : p.pubKeyBytes = bytes := by
  rw [ofBytes] at h
  split at h
  · cases h
    rfl
  · cases h

theorem length_calcCheckSum (hhash : ∀ m, 4 ≤ (hash m).length) (bytes : List UInt8) :
    (calcCheckSum hash bytes).length = checksumLength :=
  List.length_take_of_le (hhash bytes)

theorem address_eq (p : PublicKey25519Proposition) :
    p.address hash = encoder.encode (p.layout hash addressVersion) := rfl

/-- The last bytes of an address are cut off by their number. -/
theorem rtake_append {a b : List UInt8} (h : b.length = checksumLength) :
    (a ++ b).rtake checksumLength = b ∧ (a ++ b).rdrop checksumLength = a := by
  rw [List.rtake, List.rdrop, List.length_append, h, Nat.add_sub_cancel]
  exact ⟨List.drop_left, List.take_left⟩

/-- A string is read as a key exactly if it decodes to the layout of that key with some version
byte. -/
theorem validPubKey_eq_ok_iff (hhash : ∀ m, 4 ≤ (hash m).length) :
    validPubKey hash s = .ok p
      ↔ ∃ version, encoder.decode s = .ok (p.layout hash version) := by
  constructor
  · intro h
    rw [validPubKey] at h
    cases hdecode : encoder.decode s with
    | error e => rw [hdecode] at h; cases h
    | ok addressBytes =>
      rw [hdecode] at h
      change (if _ then _ else _) = _ at h
      split at h
      · cases h
      rename_i hlen
      rw [not_not] at hlen
      split at h
      · rename_i hsum
        have hkey := ofBytes_eq_ok h
        have hsplit : addressBytes.rdrop checksumLength ++ addressBytes.rtake checksumLength
            = addressBytes := List.take_append_drop _ _
        cases hfront : addressBytes.rdrop checksumLength with
        | nil =>
          have : (addressBytes.rdrop checksumLength).length = 33 := by
            rw [List.rdrop, List.length_take, hlen]
            rfl
          rw [hfront] at this
          cases this
        | cons version key =>
          rw [hfront, List.tail_cons] at hkey
          refine ⟨version, congrArg _ ?_⟩
          rw [layout, hkey, ← hfront, ← hsum, hsplit]
      · cases h
  · rintro ⟨version, hdecode⟩
    have hcut := rtake_append (a := version :: p.pubKeyBytes)
      (length_calcCheckSum hhash (version :: p.pubKeyBytes))
    have hlen : (p.layout hash version).length = addressLength := by
      rw [layout, List.length_append, List.length_cons, p.length_pubKeyBytes,
        length_calcCheckSum hhash]
      rfl
    rw [validPubKey, hdecode]
    change (if _ then _ else _) = _
    rw [if_neg (not_not.2 hlen), layout, hcut.1, hcut.2, if_pos rfl, List.tail_cons]
    exact ofBytes_pubKeyBytes p

/-- What an address decodes to, as what it looks like. -/
theorem decode_eq_layout_iff {bytes : List UInt8} :
    encoder.decode s = .ok bytes ↔ (s.length % 2 = 0 ∧ ∀ c ∈ s, c ∈ Base16.alphabet)
      ∧ s.map lowerCase = encoder.encode bytes :=
  Base16.lawful.decode_eq_ok_iff

theorem codeUnits_version : codeUnits "01" = [48, 49] := codeUnits_ofList _

/-- The digits of the version byte, among those of all bytes. -/
theorem hexDigits_version (i j : Fin 16) :
    [Base16.hexDigit i, Base16.hexDigit j] = codeUnits "01"
      ↔ UInt8.ofNat (16 * i + j) = addressVersion := by
  have hdigit : ∀ i : Fin 16, (Base16.hexDigit i = 48 ↔ i.val = 0)
      ∧ (Base16.hexDigit i = 49 ↔ i.val = 1) := by
    simp only [Base16.hexDigit, Base16.hexArray_eq]
    decide +kernel
  have hbyte : (UInt8.ofNat (16 * i + j)).toNat = 16 * i + j :=
    UInt8.toNat_ofNat_of_lt' (show 16 * (i : ℕ) + j < 256 by omega)
  have hone : addressVersion.toNat = 1 := rfl
  rw [codeUnits_version, List.cons_eq_cons, List.cons_eq_cons, (hdigit i).1, (hdigit j).2,
    ← UInt8.toNat_inj, hbyte, hone]
  simp only [and_true]
  omega

theorem eq_of_map_lowerCase {t : List UInt16} (h : t.map lowerCase = codeUnits "01") :
    t = codeUnits "01" := by
  rw [codeUnits_version] at h ⊢
  obtain ⟨c, t', rfl, hc, h'⟩ := List.map_eq_cons_iff.1 h
  obtain ⟨d, t'', rfl, hd, h''⟩ := List.map_eq_cons_iff.1 h'
  rw [eq_of_lowerCase hc (by decide), eq_of_lowerCase hd (by decide), List.map_eq_nil_iff.1 h'']

/-- The first two characters are the version byte. -/
theorem take_two_iff {rest : List UInt8}
    (h : s.map lowerCase = encoder.encode (version :: rest)) :
    s.take 2 = codeUnits "01" ↔ version = addressVersion := by
  obtain ⟨i, j, rfl⟩ := Base16.exists_pair version
  have htake : (s.take 2).map lowerCase = [Base16.hexDigit i, Base16.hexDigit j] := by
    rw [List.map_take, h]
    exact congrArg (List.take 2) (Base16.encode_cons i j rest)
  rw [← hexDigits_version, ← htake]
  constructor
  · intro heq
    rw [heq, codeUnits_version]
    decide
  · exact eq_of_map_lowerCase

end Checksum

/-- **Addresses**: a key is read from its address, and a string that is read as a key is that
key's address, up to the case of its digits, exactly if it begins with the version byte. -/
theorem singleAddress_iff (hash : List UInt8 → List UInt8) (hhash : ∀ m, 4 ≤ (hash m).length) :
    (∀ p, validPubKey hash (address hash p) = .ok p)
    ∧ ∀ s p, validPubKey hash s = .ok p →
        (s.map lowerCase = (address hash p).map lowerCase ↔ s.take 2 = codeUnits "01") := by
  constructor
  · intro p
    exact (validPubKey_eq_ok_iff hhash).2 ⟨addressVersion, Base16.lawful.decode_encode _⟩
  · intro s p h
    obtain ⟨version, hdecode⟩ := (validPubKey_eq_ok_iff hhash).1 h
    have hs := (decode_eq_layout_iff.1 hdecode).2
    have haddress : (address hash p).map lowerCase = address hash p :=
      Base16.lawful.normal_encode (p.layout hash addressVersion)
    rw [take_two_iff hs, haddress, hs, address_eq]
    constructor
    · intro heq
      exact (List.cons.inj (Base16.lawful.eq_of_encode heq)).1
    · rintro rfl
      rfl

/-- The key of zeros. -/
def zeroKey : PublicKey25519Proposition := ⟨List.replicate 32 0, List.length_replicate⟩

/-- The address of the key of zeros begins with the version byte. -/
theorem singleAddress_zeroKey :
    (address (fun m => m ++ [0, 0, 0, 0]) zeroKey).take 2 = codeUnits "01" := by
  have h := singleAddress_iff (fun m => m ++ [0, 0, 0, 0]) fun m => by
    rw [List.length_append]
    exact Nat.le_add_left 4 m.length
  exact (h.2 (address (fun m => m ++ [0, 0, 0, 0]) zeroKey) zeroKey (h.1 zeroKey)).1 rfl

/-- The key of zeros is read from a second string, which has `2` for its version. -/
theorem second_address :
    validPubKey (fun m => m ++ [0, 0, 0, 0])
        (codeUnits "02000000000000000000000000000000000000000000000000000000000000000002000000")
      = .ok zeroKey
    ∧ (codeUnits
        "02000000000000000000000000000000000000000000000000000000000000000002000000").map
          lowerCase
      ≠ (address (fun m => m ++ [0, 0, 0, 0]) zeroKey).map lowerCase := by
  have hlayout : codeUnits
        "02000000000000000000000000000000000000000000000000000000000000000002000000"
      = encoder.encode (zeroKey.layout (fun m => m ++ [0, 0, 0, 0]) 2) := by
    have hdigits : codeUnits
          "02000000000000000000000000000000000000000000000000000000000000000002000000"
        = [48, 50] ++ List.replicate 64 48 ++ [48, 50] ++ List.replicate 6 48 :=
      codeUnits_ofList _
    show _ = Base16.encode ([2] ++ List.replicate 32 0 ++ [2, 0, 0, 0])
    rw [hdigits]
    simp only [Base16.encode, Base16.hexDigit, Base16.hexArray_eq]
    decide +kernel
  have hhash (m : List UInt8) : 4 ≤ (m ++ [0, 0, 0, 0]).length := by
    rw [List.length_append]
    exact Nat.le_add_left 4 m.length
  rw [hlayout]
  refine ⟨(validPubKey_eq_ok_iff hhash).2 ⟨2, Base16.lawful.decode_encode _⟩, fun heq => ?_⟩
  rw [address_eq] at heq
  have hlayouts := (Base16.lawful.normal_encode _).symm.trans
    (heq.trans (Base16.lawful.normal_encode _))
  exact absurd (List.cons.inj (Base16.lawful.eq_of_encode hlayouts)).1 (by decide)

end PublicKey25519Proposition

end Sparkz
