import Mathlib
import Sparkz.Network.PeerSpec

/-!
# Addresses as text

The model of `NetworkAddressWrapper`, which tells the kinds of IP addresses apart by their
text, and of the group that an address is hashed with.

* `hostAddress` — the text of an IP address; a peer that was looked up by a name has that name
  for its host string instead.
* `NetworkAddressWrapper` — the parts of the text, and the tests; those of an IPv4 address look
  at the host string.
* `getAddressGroup` — the group, which does not exist where a test throws.
* `getAddressGroup_hostAddress` — an address that is known by its own text has a group.

Texts are lists of characters.  A test that throws is `none`.
-/

namespace Sparkz.Network

/-! ## Texts -/

/-- The 16-bit numbers of an IPv6 address. -/
def ipv6Groups : List UInt8 → List ℕ
  | high :: low :: rest => (high.toNat * 256 + low.toNat) :: ipv6Groups rest
  | _ => []

/-- The numbers of an IP address, as text. -/
def addressParts (address : List UInt8) : List (List Char) :=
  if address.length = 4 then address.map fun b => Nat.toDigits 10 b.toNat
  else (ipv6Groups address).map (Nat.toDigits 16)

/-- The character between the numbers. -/
def addressSeparator (address : List UInt8) : Char := if address.length = 4 then '.' else ':'

/-- `getHostAddress`, without the scope of an IPv6 address, which comes last. -/
def hostAddress (address : List UInt8) : List Char :=
  [addressSeparator address].intercalate (addressParts address)

/-- `split(separator)`: empty parts at the end are left out, unless there is one part only. -/
def split (separator : Char) (text : List Char) : List (List Char) :=
  let parts := text.splitOn separator
  if parts.length = 1 then parts else parts.rdropWhile List.isEmpty

/-- `Character.digit(c, 10)`, for plain characters. -/
def digit? (c : Char) : Option ℕ := if '0' ≤ c ∧ c ≤ '9' then some (c.toNat - 48) else none

/-- The number that digits write. -/
def parseDigits (text : List Char) : Option ℕ :=
  if text = [] then none else text.foldlM (fun n c => (digit? c).map (10 * n + ·)) 0

/-- `Integer.parseInt`. -/
def parseInt : List Char → Option ℤ
  | '-' :: text => do
      let n ← parseDigits text
      if n ≤ 2147483648 then return -n else failure
  | '+' :: text => do
      let n ← parseDigits text
      if n ≤ 2147483647 then return n else failure
  | text => do
      let n ← parseDigits text
      if n ≤ 2147483647 then return n else failure

/-! ## Kinds of addresses -/

/-- `isSiteLocalAddress` of an IP address. -/
def isSiteLocalAddress : List UInt8 → Bool
  | [a, b, _, _] => a == 10 || a == 172 && b &&& 0xF0 == 16 || a == 192 && b == 168
  | a :: b :: _ => a == 0xFE && b &&& 0xC0 == 0xC0
  | _ => false

/-- `isLoopbackAddress`. -/
def isLoopbackAddress (address : List UInt8) : Bool :=
  if address.length = 4 then address.head? == some 127
  else address == List.replicate 15 0 ++ [1]

/-- `isAnyLocalAddress`. -/
def isAnyLocalAddress (address : List UInt8) : Bool := address.all (· == 0)

/-- `NetworkUtils.isLocalAddress(address)`. -/
def isLocalAddress (address : List UInt8) : Bool :=
  isSiteLocalAddress address || isLoopbackAddress address || isAnyLocalAddress address

/-- `a && b`, where `b` is not looked at if `a` is false. -/
def both (a b : Option Bool) : Option Bool := a.bind fun x => if x then b else some false

/-- `a || b`, where `b` is not looked at if `a` is true. -/
def either (a b : Option Bool) : Option Bool := a.bind fun x => if x then some true else b

/-- `NetworkAddressWrapper(address)`: the IP address, and the parts of its text. -/
structure NetworkAddressWrapper where
  address : List UInt8
  stringAddr : List (List Char)

namespace NetworkAddressWrapper

/-- The constructor, with the host string of the address. -/
def of (address : List UInt8) (hostString : List Char) : NetworkAddressWrapper :=
  ⟨address, if address.length = 4 then split '.' hostString else split ':' (hostAddress address)⟩

variable (na : NetworkAddressWrapper)

/-- `isLocal`. -/
def isLocal : Bool := isLocalAddress na.address

/-- `isIPv4`. -/
def isIPv4 : Bool := na.address.length == 4

/-- `isIPv6`. -/
def isIPv6 : Bool := na.address.length == 16

/-- `stringAddr(index) == text`. -/
def partIs (index : ℕ) (text : String) : Option Bool :=
  na.stringAddr[index]?.map (· == text.toList)

/-- `isBetween(stringAddr(index), lower, higher)`. -/
def isBetween (index : ℕ) (lower higher : ℤ) : Option Bool := do
  let str ← na.stringAddr[index]?
  let num ← parseInt str
  return lower ≤ num && num ≤ higher

/-- `isRFC1918`: private networks. -/
def isRFC1918 : Option Bool :=
  both na.isIPv4 (either (na.partIs 0 "10")
    (either (both (na.partIs 0 "192") (na.partIs 1 "168"))
      (both (na.partIs 0 "172") (na.isBetween 1 16 31))))

/-- `isRFC2544`: inter-network communications. -/
def isRFC2544 : Option Bool :=
  both na.isIPv4 (both (na.partIs 0 "198") (na.isBetween 1 18 19))

/-- `isRFC6598`: NAT of an ISP. -/
def isRFC6598 : Option Bool :=
  both na.isIPv4 (both (na.partIs 0 "100") (na.isBetween 1 64 127))

/-- `isRFC5737`: documentation. -/
def isRFC5737 : Option Bool :=
  both na.isIPv4
    (either (both (na.partIs 0 "192") (both (na.partIs 1 "0") (na.partIs 2 "2")))
      (either (both (na.partIs 0 "198") (both (na.partIs 1 "51") (na.partIs 2 "100")))
        (both (na.partIs 0 "203") (both (na.partIs 1 "0") (na.partIs 2 "113")))))

/-- `isRFC3927`: autoconfiguration. -/
def isRFC3927 : Option Bool :=
  both na.isIPv4 (both (na.partIs 0 "169") (na.partIs 1 "254"))

/-- `isRFC3964`: 6to4 tunnelling. -/
def isRFC3964 : Option Bool := both na.isIPv6 (na.partIs 0 "2002")

/-- `isRFC4380`: Teredo tunnelling. -/
def isRFC4380 : Option Bool := both na.isIPv6 (both (na.partIs 0 "2001") (na.partIs 1 "0"))

/-- `isRFC6052`: well-known prefix. -/
def isRFC6052 : Option Bool := both na.isIPv6 (both (na.partIs 0 "64") (na.partIs 1 "ff9b"))

/-- `isRFC6145`: translated IPv4 addresses. -/
def isRFC6145 : Option Bool := both na.isIPv6 (na.partIs 3 "ffff")

/-- `isRoutable`. -/
def isRoutable : Option Bool :=
  (either na.isRFC1918 (either na.isRFC2544 (either na.isRFC3927
    (either na.isRFC6598 (either na.isRFC5737 na.isLocal))))).map (!·)

/-- `hasLinkedIPv4`. -/
def hasLinkedIPv4 : Option Bool :=
  both na.isRoutable (either na.isIPv4 (either na.isRFC6145 (either na.isRFC6052
    (either na.isRFC3964 na.isRFC4380))))

/-- `getSubNum(index)`. -/
def getSubNum (index : ℕ) : Option (List UInt8) :=
  na.stringAddr[index]?.map fun part => part.flatMap String.utf8EncodeChar

/-- The loop of `getAddressGroup`: the class of the address, and as many parts as are to be
included. -/
def group (nClass : UInt8) (addressSubGroupToInclude : ℕ) : Option (List UInt8) :=
  (List.range addressSubGroupToInclude).foldlM
    (fun result index => (na.getSubNum index).map (result ++ ·)) [nClass]

/-- `getAddressGroup(peerAddress)`. -/
def getAddressGroup : Option (List UInt8) :=
  if na.isLocal then na.group 255 0
  else do
    let routable ← na.isRoutable
    if routable then
      let linked ← na.hasLinkedIPv4
      if linked then na.group 1 1 else na.group 2 2
    else na.group 0 0

end NetworkAddressWrapper

/-! ## The text of an IP address -/

/-- No separator is a digit. -/
theorem notMem_toDigits {b : ℕ} (hb : 1 < b) (hle : b ≤ 16) {c : Char}
    (hc : ∀ d < 16, Nat.digitChar d ≠ c) (n : ℕ) : c ∉ Nat.toDigits b n := by
  induction n using Nat.strong_induction_on with
  | h n ih =>
    rw [Nat.toDigits_eq_if hb]
    split
    · rename_i hlt
      simpa using (hc n (hlt.trans_le hle)).symm
    · rename_i hge
      have hquot : n / b < n := Nat.div_lt_self (by omega) hb
      have hrest : n % b < 16 := (Nat.mod_lt n (by omega)).trans_le hle
      rw [List.mem_append, List.mem_singleton]
      exact not_or.2 ⟨ih _ hquot, (hc _ hrest).symm⟩

/-- Nothing is lost when an address is split into its numbers. -/
theorem split_hostAddress {address : List UInt8} {parts : List (List Char)}
    (hparts : addressParts address = parts) (hlen : 1 < parts.length) :
    split (addressSeparator address) (hostAddress address) = parts := by
  have hpart : ∀ part ∈ parts, part ≠ [] ∧ addressSeparator address ∉ part := by
    intro part hpart
    rw [← hparts, addressParts] at hpart
    rw [addressSeparator]
    split at hpart
    · rename_i hfour
      obtain ⟨b, -, rfl⟩ := List.mem_map.1 hpart
      rw [if_pos hfour]
      exact ⟨Nat.toDigits_ne_nil, notMem_toDigits (by norm_num) (by norm_num) (by decide) _⟩
    · rename_i hsix
      obtain ⟨n, -, rfl⟩ := List.mem_map.1 hpart
      rw [if_neg hsix]
      exact ⟨Nat.toDigits_ne_nil, notMem_toDigits (by norm_num) (by norm_num) (by decide) _⟩
  have hne : parts ≠ [] := by
    rintro rfl
    simp at hlen
  have hsplit : (hostAddress address).splitOn (addressSeparator address) = parts := by
    rw [hostAddress, hparts]
    exact List.splitOn_intercalate _ (fun part h => (hpart part h).2) hne
  rw [split, hsplit]
  simp only [if_neg (Nat.ne_of_gt hlen)]
  refine List.rdropWhile_eq_self_iff.2 fun hl => ?_
  simpa using (hpart _ (List.getLast_mem hl)).1

theorem length_ipv6Groups {address : List UInt8} (h : address.length = 16) :
    (ipv6Groups address).length = 8 := by
  match address, h with
  | [_, _, _, _, _, _, _, _, _, _, _, _, _, _, _, _], _ => rfl

theorem length_addressParts {address : List UInt8}
    (h : address.length = 4 ∨ address.length = 16) : 4 ≤ (addressParts address).length := by
  rw [addressParts]
  split
  · rename_i hfour
    rw [List.length_map, hfour]
  · rename_i hsix
    rw [List.length_map, length_ipv6Groups (h.resolve_left hsix)]
    norm_num

theorem parseInt_toDigits : ∀ n : Fin 256, (parseInt (Nat.toDigits 10 n)).isSome = true := by
  decide +kernel

theorem isSome_both {a b : Option Bool} (ha : a.isSome = true) (hb : b.isSome = true) :
    (both a b).isSome = true := by
  obtain ⟨x, rfl⟩ := Option.isSome_iff_exists.1 ha
  cases x
  · rfl
  · exact hb

theorem isSome_either {a b : Option Bool} (ha : a.isSome = true) (hb : b.isSome = true) :
    (either a b).isSome = true := by
  obtain ⟨x, rfl⟩ := Option.isSome_iff_exists.1 ha
  cases x
  · exact hb
  · rfl

namespace NetworkAddressWrapper

variable {na : NetworkAddressWrapper}

/-- The first four parts are there, and those of an IPv4 address are numbers. -/
structure Readable (na : NetworkAddressWrapper) : Prop where
  part : ∀ index < 4, ∃ part, na.stringAddr[index]? = some part
    ∧ (na.isIPv4 = true → (parseInt part).isSome = true)

/-- A test of IPv4 addresses does not look at the others. -/
theorem isSome_ofIPv4 {a : Option Bool} (ha : na.isIPv4 = true → a.isSome = true) :
    (both na.isIPv4 a).isSome = true := by
  cases hfour : na.isIPv4 with
  | false => rfl
  | true => exact ha hfour

namespace Readable

variable (h : Readable na)
include h

theorem partIs {index : ℕ} (hlt : index < 4) (text : String) :
    (na.partIs index text).isSome = true := by
  obtain ⟨part, hpart, -⟩ := h.part index hlt
  rw [NetworkAddressWrapper.partIs, hpart]
  rfl

theorem isBetween {index : ℕ} (hlt : index < 4) (hfour : na.isIPv4 = true) (lower higher : ℤ) :
    (na.isBetween index lower higher).isSome = true := by
  obtain ⟨part, hpart, hnumber⟩ := h.part index hlt
  obtain ⟨num, hnum⟩ := Option.isSome_iff_exists.1 (hnumber hfour)
  rw [NetworkAddressWrapper.isBetween, hpart]
  show (parseInt part >>= fun num => _).isSome = true
  rw [hnum]
  rfl

theorem isRoutable : na.isRoutable.isSome = true := by
  have h0 := h.partIs (show 0 < 4 by norm_num)
  have h1 := h.partIs (show 1 < 4 by norm_num)
  have h2 := h.partIs (show 2 < 4 by norm_num)
  have hbetween (hfour : na.isIPv4 = true) := h.isBetween (show 1 < 4 by norm_num) hfour
  rw [NetworkAddressWrapper.isRoutable, Option.isSome_map]
  refine isSome_either (isSome_ofIPv4 fun hfour => ?_)
    (isSome_either (isSome_ofIPv4 fun hfour => ?_) (isSome_either (isSome_ofIPv4 fun _ => ?_)
      (isSome_either (isSome_ofIPv4 fun hfour => ?_)
        (isSome_either (isSome_ofIPv4 fun _ => ?_) rfl))))
  · exact isSome_either (h0 _) (isSome_either (isSome_both (h0 _) (h1 _))
      (isSome_both (h0 _) (hbetween hfour _ _)))
  · exact isSome_both (h0 _) (hbetween hfour _ _)
  · exact isSome_both (h0 _) (h1 _)
  · exact isSome_both (h0 _) (hbetween hfour _ _)
  · exact isSome_either (isSome_both (h0 _) (isSome_both (h1 _) (h2 _)))
      (isSome_either (isSome_both (h0 _) (isSome_both (h1 _) (h2 _)))
        (isSome_both (h0 _) (isSome_both (h1 _) (h2 _))))

theorem hasLinkedIPv4 : na.hasLinkedIPv4.isSome = true := by
  have h0 := h.partIs (show 0 < 4 by norm_num)
  have h1 := h.partIs (show 1 < 4 by norm_num)
  have h3 := h.partIs (show 3 < 4 by norm_num)
  exact isSome_both h.isRoutable (isSome_either rfl (isSome_either (isSome_both rfl (h3 _))
    (isSome_either (isSome_both rfl (isSome_both (h0 _) (h1 _)))
      (isSome_either (isSome_both rfl (h0 _)) (isSome_both rfl (isSome_both (h0 _) (h1 _)))))))

theorem getSubNum {index : ℕ} (hlt : index < 4) :
    ∃ bytes, na.getSubNum index = some bytes := by
  obtain ⟨part, hpart, -⟩ := h.part index hlt
  rw [NetworkAddressWrapper.getSubNum, hpart]
  exact ⟨_, rfl⟩

/-- It has a group. -/
theorem getAddressGroup : ∃ group, na.getAddressGroup = some group := by
  obtain ⟨routable, hroutable⟩ := Option.isSome_iff_exists.1 h.isRoutable
  obtain ⟨linked, hlinked⟩ := Option.isSome_iff_exists.1 h.hasLinkedIPv4
  obtain ⟨first, hfirst⟩ := h.getSubNum (show 0 < 4 by norm_num)
  obtain ⟨second, hsecond⟩ := h.getSubNum (show 1 < 4 by norm_num)
  rw [NetworkAddressWrapper.getAddressGroup, hroutable, hlinked]
  split
  · exact ⟨_, rfl⟩
  · cases routable
    · exact ⟨_, rfl⟩
    · cases linked
      · simp [NetworkAddressWrapper.group, List.range_succ, hfirst, hsecond]
      · simp [NetworkAddressWrapper.group, List.range_succ, hfirst]

end Readable

/-- An address that is known by its own text is readable, and so is every IPv6 address. -/
theorem readable_of {address : List UInt8} {hostString : List Char}
    (hlen : address.length = 4 ∨ address.length = 16)
    (htext : address.length = 4 → hostString = hostAddress address) :
    Readable (.of address hostString) where
  part index hlt := by
    have hfour := length_addressParts hlen
    have hsplit : split (addressSeparator address) (hostAddress address) = addressParts address :=
      split_hostAddress rfl (by omega)
    have hparts : (of address hostString).stringAddr = addressParts address := by
      rw [of]
      show (if address.length = 4 then _ else _) = _
      split
      · rename_i h
        rwa [addressSeparator, if_pos h, ← htext h] at hsplit
      · rename_i h
        rwa [addressSeparator, if_neg h] at hsplit
    have hindex : index < (addressParts address).length := by omega
    refine ⟨(addressParts address)[index], ?_, fun hfour => ?_⟩
    · rw [hparts, List.getElem?_eq_getElem hindex]
    · have hmem := List.getElem_mem hindex
      have hlength : address.length = 4 := by simpa [isIPv4, of] using hfour
      simp only [addressParts, if_pos hlength] at hmem ⊢
      obtain ⟨b, -, hb⟩ := List.mem_map.1 hmem
      rw [← hb]
      exact parseInt_toDigits ⟨b.toNat, b.toNat_lt⟩

/-- **An address that is known by its own text has a group.** -/
theorem getAddressGroup_hostAddress {address : List UInt8}
    (hlen : address.length = 4 ∨ address.length = 16) :
    ∃ group, (of address (hostAddress address)).getAddressGroup = some group :=
  (readable_of hlen fun _ => rfl).getAddressGroup

end NetworkAddressWrapper

end Sparkz.Network
