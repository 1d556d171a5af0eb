import Megalo.Address.Basic
import Megalo.Lib.LeadingBits
import Megalo.Lib.MachineInt
import Megalo.Lib.Throw

/-!
# Subnets

- `createMask` shifts an `int`, so it has no result for the two shortest prefixes of a 32-bit type (`createMask_eq` for
  the others);
- the masks and broadcast addresses of IPv4 are right for these (`IPv4Address.subnetMask_eq`,
  `IPv4Address.broadcastAddress_eq`); the network address keeps the bits behind the prefix instead of the prefix, so it
  is right only for `0.0.0.0` (`ipv4_subnets_iff`);
- IPv6 goes by the byte in which the prefix ends. The mask has no ones in front of that, so it is right only for less
  than eight bits, and the network address only where the first byte is zero as well (`ipv6_subnets_iff`).
-/

namespace Megalo

open LeadingBits MachineInt

/-- `1 << n`, for an `int`. -/
def shiftOne (n : ℕ) : Except Undefined ℤ :=
  if 32 ≤ n then .error .shiftWidth
  else if 31 ≤ n then .error .overflow
  else .ok (2 ^ n)

/-- `CreateMask`, for a type of `n` bytes. -/
def createMask (n : ℕ) (bits : UInt32) : Except Undefined (BitVec (8 * n)) := do
  let v ← shiftOne (sizeSub (n * 8) bits.toNat)
  return BitVec.ofInt (8 * n) (v - 1)

theorem createMask_eq {n : ℕ} {bits : UInt32} (h : bits.toNat ≤ 8 * n) (hlt : 8 * n - bits.toNat < 31) :
    createMask n bits = .ok (behind (8 * n) bits.toNat) := by
  have hsub : sizeSub (n * 8) bits.toNat = 8 * n - bits.toNat := by
    rw [sizeSub_of_le (by omega), Nat.mul_comm]
  have hpow : ((2 : ℤ) ^ (8 * n - bits.toNat) - 1) = ((2 ^ (8 * n - bits.toNat) - 1 : ℕ) : ℤ) := by
    rw [Nat.cast_sub Nat.one_le_two_pow]
    push_cast
    rfl
  rw [createMask, hsub, shiftOne, if_neg (by omega), if_neg (by omega), Throw.ok_bind, hpow, BitVec.ofInt_natCast]
  rfl

/-- The shortest prefixes of a 32-bit address. -/
theorem createMask_error {bits : UInt32} (h : bits.toNat < 2) : ∃ u, createMask 4 bits = .error u := by
  obtain h0 | h1 : bits.toNat = 0 ∨ bits.toNat = 1 := by omega
  · refine ⟨.shiftWidth, ?_⟩
    rw [createMask, h0]
    rfl
  · refine ⟨.overflow, ?_⟩
    rw [createMask, h1]
    rfl

/-! ## IPv4 -/

namespace IPv4Address

/-- The address with `f` of its number and the mask, where the prefix is not too long. -/
def withMask (a : IPv4Address) (prefixLen : UInt32) (f : BitVec 32 → BitVec 32 → BitVec 32) :
    Except Undefined (Option IPv4Address) := do
  if 32 < prefixLen then
    return none
  let mask ← createMask 4 prefixLen
  return some ⟨{ a.addr with addr := f a.addr.addr (byteswapOnLittleEndian 4 mask) }⟩

/-- `broadcastAddress`. -/
def broadcastAddress (a : IPv4Address) (prefixLen : UInt32) : Except Undefined (Option IPv4Address) :=
  a.withMask prefixLen fun addr mask => addr ||| mask

/-- `networkAddress`. -/
def networkAddress (a : IPv4Address) (prefixLen : UInt32) : Except Undefined (Option IPv4Address) :=
  a.withMask prefixLen fun addr mask => addr &&& mask

/-- `subnetMask`. -/
def subnetMask (prefixLen : UInt32) : Except Undefined IPv4Address := do
  let mask ← createMask 4 prefixLen
  return ⟨{ family := afInet, port := 0, addr := ~~~byteswapOnLittleEndian 4 mask }⟩

/-- The subnet of an address: its mask has the leading bits, the network address and the broadcast address are those
of the subnet, and keep the port and the family. -/
structure Subnet (a : IPv4Address) (prefixLen : UInt32) (mask network broadcast : IPv4Address) : Prop where
  maskCall : subnetMask prefixLen = .ok mask
  networkCall : a.networkAddress prefixLen = .ok (some network)
  broadcastCall : a.broadcastAddress prefixLen = .ok (some broadcast)
  leading : ∀ i < 32, mask.number.getMsbD i = decide (i < prefixLen.toNat)
  networkNumber : network.number = a.number &&& mask.number
  broadcastNumber : broadcast.number = a.number ||| ~~~mask.number
  between : network.number ≤ a.number ∧ a.number ≤ broadcast.number
  networkKept : network.getPort = a.getPort ∧ network.addr.family = a.addr.family
  broadcastKept : broadcast.getPort = a.getPort ∧ broadcast.addr.family = a.addr.family

variable {a : IPv4Address} {prefixLen : UInt32}

theorem subnetMask_eq (hp : prefixLen.toNat ≤ 32) (h : 2 ≤ prefixLen.toNat) :
    ∃ mask, subnetMask prefixLen = .ok mask ∧ mask.number = ~~~behind 32 prefixLen.toNat := by
  have hnot := byteswapOnLittleEndian_not (n := 4) (byteswapOnLittleEndian 4 (behind 32 prefixLen.toNat))
  rw [byteswapOnLittleEndian_self] at hnot
  have hcall : subnetMask prefixLen = .ok ⟨{ family := afInet, port := 0,
                                             addr := ~~~byteswapOnLittleEndian 4 (behind 32 prefixLen.toNat) }⟩ := by
    rw [subnetMask, createMask_eq hp (by omega)]
    rfl
  exact ⟨_, hcall, hnot⟩

theorem withMask_eq (hp : prefixLen.toNat ≤ 32) (h : 2 ≤ prefixLen.toNat) (f : BitVec 32 → BitVec 32 → BitVec 32) :
    a.withMask prefixLen f = .ok (some
      ⟨{ a.addr with addr := f a.addr.addr (byteswapOnLittleEndian 4 (behind 32 prefixLen.toNat)) }⟩) := by
  have hle : ¬ 32 < prefixLen := by
    rw [UInt32.lt_iff_toNat_lt]
    exact Nat.not_lt.mpr hp
  rw [withMask, if_neg hle, createMask_eq hp (by omega)]
  rfl

theorem broadcastAddress_eq (hp : prefixLen.toNat ≤ 32) (h : 2 ≤ prefixLen.toNat) :
    ∃ broadcast, a.broadcastAddress prefixLen = .ok (some broadcast) ∧
      broadcast.number = a.number ||| behind 32 prefixLen.toNat ∧
      broadcast.getPort = a.getPort ∧ broadcast.addr.family = a.addr.family := by
  have hor := byteswapOnLittleEndian_or (n := 4) a.addr.addr (byteswapOnLittleEndian 4 (behind 32 prefixLen.toNat))
  rw [byteswapOnLittleEndian_self] at hor
  have hcall := withMask_eq (a := a) hp h fun addr mask => addr ||| mask
  exact ⟨_, hcall, hor, rfl, rfl⟩

/-- The network address keeps what is behind the prefix. -/
theorem networkAddress_eq (hp : prefixLen.toNat ≤ 32) (h : 2 ≤ prefixLen.toNat) :
    ∃ network, a.networkAddress prefixLen = .ok (some network) ∧
      network.number = a.number &&& behind 32 prefixLen.toNat ∧
      network.getPort = a.getPort ∧ network.addr.family = a.addr.family := by
  have hand := byteswapOnLittleEndian_and (n := 4) a.addr.addr (byteswapOnLittleEndian 4 (behind 32 prefixLen.toNat))
  rw [byteswapOnLittleEndian_self] at hand
  have hcall := withMask_eq (a := a) hp h fun addr mask => addr &&& mask
  exact ⟨_, hcall, hand, rfl, rfl⟩

end IPv4Address

/-- **IPv4 subnets**: an address and a prefix length of at most 32 have their subnet exactly where the address is
`0.0.0.0` and the prefix has two bits at least. -/
theorem ipv4_subnets_iff (a : IPv4Address) (prefixLen : UInt32) (hp : prefixLen.toNat ≤ 32) :
    (∃ mask network broadcast, a.Subnet prefixLen mask network broadcast) ↔
      2 ≤ prefixLen.toNat ∧ a.number = 0 := by
  constructor
  · rintro ⟨mask, network, broadcast, h⟩
    have h2 : 2 ≤ prefixLen.toNat := by
      by_contra hlt
      obtain ⟨u, hu⟩ := createMask_error (Nat.lt_of_not_le hlt)
      have hmask := h.maskCall
      rw [IPv4Address.subnetMask, hu] at hmask
      cases hmask
    obtain ⟨mask', hmask, hm⟩ := IPv4Address.subnetMask_eq hp h2
    obtain ⟨network', hnetwork, hn, -⟩ := IPv4Address.networkAddress_eq (a := a) hp h2
    obtain rfl : mask' = mask := Except.ok.inj (hmask.symm.trans h.maskCall)
    obtain rfl : network' = network := Option.some.inj (Except.ok.inj (hnetwork.symm.trans h.networkCall))
    have hand := h.networkNumber
    rw [hn, hm] at hand
    exact ⟨h2, and_not_eq_and.mp hand⟩
  · rintro ⟨h2, hzero⟩
    obtain ⟨mask, hmask, hm⟩ := IPv4Address.subnetMask_eq hp h2
    obtain ⟨network, hnetwork, hn, hnport, hnfamily⟩ := IPv4Address.networkAddress_eq (a := a) hp h2
    obtain ⟨broadcast, hbroadcast, hb, hbport, hbfamily⟩ := IPv4Address.broadcastAddress_eq (a := a) hp h2
    refine ⟨mask, network, broadcast, hmask, hnetwork, hbroadcast, ?_, ?_, ?_, ⟨?_, ?_⟩, ⟨hnport, hnfamily⟩,
      ⟨hbport, hbfamily⟩⟩
    · intro i hi
      rw [hm, getMsbD_not_behind hi]
    · rw [hn, hm]
      exact and_not_eq_and.mpr hzero
    · rw [hb, hm, BitVec.not_not]
    · rw [hn]
      exact and_le _ _
    · rw [hb]
      exact le_or _ _

/-- The address `0.0.0.0`, with a prefix of 24 bits. -/
theorem ipv4_subnets_any :
    ∃ mask network broadcast, (IPv4Address.new 0 80).Subnet 24 mask network broadcast :=
  (ipv4_subnets_iff (IPv4Address.new 0 80) 24 (by decide)).mpr ⟨by decide, IPv4Address.number_new 0 80⟩

/-- The address `192.168.1.77` with a prefix of 24 bits: its network is `0.0.0.77`. No mask has a prefix of no bits. -/
theorem ipv4_network_complement :
    (IPv4Address.new 0xc0a8014d 80).networkAddress 24 = .ok (some (IPv4Address.new 0x4d 80)) ∧
      IPv4Address.subnetMask 0 = .error .shiftWidth ∧ IPv4Address.subnetMask 1 = .error .overflow ∧
      ¬ ∃ mask network broadcast, (IPv4Address.new 0xc0a8014d 80).Subnet 24 mask network broadcast := by
  have hnetwork : (IPv4Address.new 0xc0a8014d 80).networkAddress 24 = .ok (some (IPv4Address.new 0x4d 80)) := by
    decide
  have hmask : IPv4Address.subnetMask 24 = .ok ⟨{ family := afInet, port := 0, addr := 0x00ffffff }⟩ := by
    decide
  refine ⟨hnetwork, by decide, by decide, ?_⟩
  rintro ⟨mask, network, broadcast, h⟩
  obtain rfl := Except.ok.inj (hmask.symm.trans h.maskCall)
  obtain rfl := Option.some.inj (Except.ok.inj (hnetwork.symm.trans h.networkCall))
  exact absurd h.networkNumber (by decide)

/-! ## IPv6 -/

/-- `s6_addr[i] = f(s6_addr[i])`, for the sixteen bytes that there are. -/
def updateByte (addr : Vector UInt8 16) (i : ℕ) (f : UInt8 → UInt8) : Except Undefined (Vector UInt8 16) :=
  if h : i < 16 then .ok (addr.set i (f addr[i])) else .error .outOfBounds

/-- The loop that sets the bytes from one on. -/
def fillFrom (addr : Vector UInt8 16) (i : ℕ) (v : UInt8) : Vector UInt8 16 :=
  (List.range' i (16 - i)).foldl (fun addr j => addr.setIfInBounds j v) addr

theorem getElem_foldl_setIfInBounds (l : List ℕ) (addr : Vector UInt8 16) (v : UInt8) {j : ℕ} (hj : j < 16) :
    (l.foldl (fun addr j => addr.setIfInBounds j v) addr)[j] = if j ∈ l then v else addr[j] := by
  induction l generalizing addr with
  | nil => rfl
  | cons i l ih =>
    rw [List.foldl_cons, ih, Vector.getElem_setIfInBounds hj]
    by_cases hij : i = j
    · simp [hij]
    · simp [hij, Ne.symm hij]

theorem getElem_fillFrom (addr : Vector UInt8 16) (i : ℕ) (v : UInt8) {j : ℕ} (hj : j < 16) :
    (fillFrom addr i v)[j] = if i ≤ j then v else addr[j] := by
  have hmem : j ∈ List.range' i (16 - i) ↔ i ≤ j := by
    rw [List.mem_range'_1]
    omega
  rw [fillFrom, getElem_foldl_setIfInBounds]
  simp only [hmem]

/-- The bits of a byte behind the first `p`. -/
def byteBehind (p : ℕ) : UInt8 := UInt8.ofBitVec (behind 8 p)

namespace IPv6Address

/-- The address with `f` of the byte in which the prefix ends and the mask, and with `v` in the bytes behind it. -/
def withMask (a : IPv6Address) (prefixLen : UInt32) (f : UInt8 → UInt8 → UInt8) (v : UInt8) :
    Except Undefined IPv6Address := do
  let mask ← createMask 1 (prefixLen % 8)
  let addr ← updateByte a.addr.addr (prefixLen / 8).toNat fun b => f b (UInt8.ofBitVec mask)
  return ⟨{ a.addr with addr := fillFrom addr ((prefixLen / 8).toNat + 1) v }⟩

/-- `broadcastAddress`. -/
def broadcastAddress (a : IPv6Address) (prefixLen : UInt32) : Except Undefined IPv6Address :=
  a.withMask prefixLen (fun b mask => b ||| mask) 0xff

/-- `networkAddress`. -/
def networkAddress (a : IPv6Address) (prefixLen : UInt32) : Except Undefined IPv6Address :=
  a.withMask prefixLen (fun b mask => b &&& mask) 0x00

/-- `subnetMask`. -/
def subnetMask (prefixLen : UInt32) : Except Undefined IPv6Address := do
  let mask ← createMask 1 (prefixLen % 8)
  let addr ← updateByte (Vector.replicate 16 0) (prefixLen / 8).toNat fun _ => ~~~UInt8.ofBitVec mask
  return ⟨{ family := afInet6, port := 0, flowinfo := 0, addr, scopeId := 0 }⟩

/-- The subnet of an address, byte by byte. -/
structure Subnet (a : IPv6Address) (prefixLen : UInt32) (mask network broadcast : IPv6Address) : Prop where
  maskCall : subnetMask prefixLen = .ok mask
  networkCall : a.networkAddress prefixLen = .ok network
  broadcastCall : a.broadcastAddress prefixLen = .ok broadcast
  leading : ∀ (i : ℕ) (hi : i < 16), ∀ j < 8,
    mask.addr.addr[i].toBitVec.getMsbD j = decide (8 * i + j < prefixLen.toNat)
  networkBytes : ∀ (i : ℕ) (hi : i < 16), network.addr.addr[i] = a.addr.addr[i] &&& mask.addr.addr[i]
  broadcastBytes : ∀ (i : ℕ) (hi : i < 16), broadcast.addr.addr[i] = a.addr.addr[i] ||| ~~~mask.addr.addr[i]

variable {a : IPv6Address} {prefixLen : UInt32}

theorem createMask_byte (prefixLen : UInt32) : ∃ mask, createMask 1 (prefixLen % 8) = .ok mask ∧
    UInt8.ofBitVec mask = byteBehind (prefixLen.toNat % 8) := by
  have hmod : (prefixLen % 8).toNat = prefixLen.toNat % 8 := UInt32.toNat_mod _ _
  refine ⟨_, createMask_eq (by omega) (by omega), ?_⟩
  rw [hmod]
  rfl

theorem toNat_div_eight (prefixLen : UInt32) : (prefixLen / 8).toNat = prefixLen.toNat / 8 := UInt32.toNat_div _ _

theorem updateByte_eq {addr : Vector UInt8 16} {i : ℕ} (hi : i < 16) (f : UInt8 → UInt8) :
    updateByte addr i f = .ok (addr.set i (f addr[i])) := dif_pos hi

/-- The mask has no ones in front of the byte in which the prefix ends. -/
theorem subnetMask_eq (h : prefixLen.toNat < 128) : ∃ mask, subnetMask prefixLen = .ok mask ∧
    ∀ (i : ℕ) (hi : i < 16), mask.addr.addr[i] =
      if prefixLen.toNat / 8 = i then ~~~byteBehind (prefixLen.toNat % 8) else 0 := by
  have hlt : prefixLen.toNat / 8 < 16 := by omega
  obtain ⟨m, hm, hb⟩ := createMask_byte prefixLen
  let addr := (Vector.replicate 16 0).set (prefixLen.toNat / 8) (~~~UInt8.ofBitVec m)
  have hcall : subnetMask prefixLen = .ok ⟨{ family := afInet6, port := 0, flowinfo := 0, addr, scopeId := 0 }⟩ := by
    rw [subnetMask, hm, Throw.ok_bind, toNat_div_eight, updateByte_eq hlt]
    rfl
  refine ⟨_, hcall, fun i hi => ?_⟩
  simp only [addr, Vector.getElem_set, hb, Vector.getElem_replicate]

theorem subnetMask_error (h : prefixLen.toNat = 128) : subnetMask prefixLen = .error .outOfBounds := by
  obtain ⟨m, hm, -⟩ := createMask_byte prefixLen
  rw [subnetMask, hm, toNat_div_eight, h]
  rfl

theorem withMask_eq (h : prefixLen.toNat < 128) (f : UInt8 → UInt8 → UInt8) (v : UInt8) :
    ∃ b, a.withMask prefixLen f v = .ok b ∧ ∀ (i : ℕ) (hi : i < 16), b.addr.addr[i] =
      if prefixLen.toNat / 8 < i then v
      else if prefixLen.toNat / 8 = i then f a.addr.addr[i] (byteBehind (prefixLen.toNat % 8))
      else a.addr.addr[i] := by
  have hlt : prefixLen.toNat / 8 < 16 := by omega
  obtain ⟨m, hm, hb⟩ := createMask_byte prefixLen
  let addr := a.addr.addr.set (prefixLen.toNat / 8) (f a.addr.addr[prefixLen.toNat / 8] (UInt8.ofBitVec m))
  have hcall : a.withMask prefixLen f v =
      .ok ⟨{ a.addr with addr := fillFrom addr (prefixLen.toNat / 8 + 1) v }⟩ := by
    rw [withMask, hm, Throw.ok_bind, toNat_div_eight, updateByte_eq hlt]
    rfl
  refine ⟨_, hcall, fun i hi => ?_⟩
  simp only [addr, getElem_fillFrom, Vector.getElem_set, hb, Nat.succ_le_iff]
  by_cases hq : prefixLen.toNat / 8 = i
  · subst hq
    rfl
  · simp only [if_neg hq]

end IPv6Address

theorem getMsbD_not_byteBehind {p j : ℕ} (hj : j < 8) : (~~~byteBehind p).toBitVec.getMsbD j = decide (j < p) :=
  getMsbD_not_behind hj

theorem byte_and_not_eq {b m : UInt8} : b &&& m = b &&& ~~~m ↔ b = 0 := by
  rw [← UInt8.toBitVec_inj, ← UInt8.toBitVec_inj]
  exact and_not_eq_and

/-- **IPv6 subnets**: an address and a prefix length of at most 128 have their subnet exactly where the prefix has less
than eight bits and the first byte of the address is zero. -/
theorem ipv6_subnets_iff (a : IPv6Address) (prefixLen : UInt32) (hp : prefixLen.toNat ≤ 128) :
    (∃ mask network broadcast, a.Subnet prefixLen mask network broadcast) ↔
      prefixLen.toNat < 8 ∧ a.addr.addr[0] = 0 := by
  constructor
  · rintro ⟨mask, network, broadcast, h⟩
    have h128 : prefixLen.toNat < 128 := by
      rcases Nat.lt_or_eq_of_le hp with hlt | heq
      · exact hlt
      · have hmask := h.maskCall
        rw [IPv6Address.subnetMask_error heq] at hmask
        cases hmask
    obtain ⟨mask', hmask, hm⟩ := IPv6Address.subnetMask_eq h128
    obtain rfl : mask' = mask := Except.ok.inj (hmask.symm.trans h.maskCall)
    have h8 : prefixLen.toNat < 8 := by
      by_contra hge
      have hbit := h.leading 0 (by omega) 0 (by omega)
      rw [hm 0 (by omega), if_neg (by omega), decide_eq_true (by omega)] at hbit
      cases hbit
    obtain ⟨network', hnetwork, hn⟩ := IPv6Address.withMask_eq (a := a) h128 (fun b mask => b &&& mask) 0x00
    obtain rfl : network' = network := Except.ok.inj (hnetwork.symm.trans h.networkCall)
    have hq : prefixLen.toNat / 8 = 0 := by omega
    have hand := h.networkBytes 0 (by omega)
    rw [hn 0 (by omega), hm 0 (by omega), if_neg (by omega), if_pos hq, if_pos hq] at hand
    exact ⟨h8, byte_and_not_eq.mp hand⟩
  · rintro ⟨h8, hzero⟩
    have hq : prefixLen.toNat / 8 = 0 := by omega
    have hr : prefixLen.toNat % 8 = prefixLen.toNat := by omega
    have h128 : prefixLen.toNat < 128 := by omega
    obtain ⟨mask, hmask, hm⟩ := IPv6Address.subnetMask_eq h128
    obtain ⟨network, hnetwork, hn⟩ := IPv6Address.withMask_eq (a := a) h128 (fun b mask => b &&& mask) 0x00
    obtain ⟨broadcast, hbroadcast, hb⟩ := IPv6Address.withMask_eq (a := a) h128 (fun b mask => b ||| mask) 0xff
    simp only [hq, hr] at hm hn hb
    refine ⟨mask, network, broadcast, hmask, hnetwork, hbroadcast, ?_, ?_, ?_⟩
    · intro i hi j hj
      rw [hm i hi]
      rcases Nat.eq_zero_or_pos i with rfl | hpos
      · rw [if_pos rfl, getMsbD_not_byteBehind hj, Nat.mul_zero, Nat.zero_add]
      · rw [if_neg (by omega), decide_eq_false (by omega)]
        exact BitVec.getMsbD_zero
    · intro i hi
      rw [hn i hi, hm i hi]
      rcases Nat.eq_zero_or_pos i with rfl | hpos
      · rw [if_neg (by omega), if_pos rfl, if_pos rfl]
        exact byte_and_not_eq.mpr hzero
      · rw [if_pos hpos, if_neg (by omega), UInt8.and_zero]
    · intro i hi
      rw [hb i hi, hm i hi]
      rcases Nat.eq_zero_or_pos i with rfl | hpos
      · rw [if_neg (by omega), if_pos rfl, if_pos rfl, UInt8.not_not]
      · rw [if_pos hpos, if_neg (by omega)]
        exact UInt8.or_neg_one.symm

/-- The loopback address `::1`, with a prefix of four bits. -/
theorem ipv6_subnets_loopback :
    ∃ mask network broadcast,
      (IPv6Address.new #v[0, 0, 0, 0, 0, 0, 0, 0, 0, 0, 0, 0, 0, 0, 0, 1] 80).Subnet 4 mask network broadcast :=
  (ipv6_subnets_iff (IPv6Address.new #v[0, 0, 0, 0, 0, 0, 0, 0, 0, 0, 0, 0, 0, 0, 0, 1] 80) 4 (by decide)).mpr
    ⟨by decide, rfl⟩

/-- The address `fe80::1` with a prefix of 64 bits, whose mask has no ones. A prefix of 128 bits ends behind the bytes.
-/
theorem ipv6_mask_empty :
    IPv6Address.subnetMask 64 = .ok (IPv6Address.new (Vector.replicate 16 0) 0) ∧
      IPv6Address.subnetMask 128 = .error .outOfBounds ∧
      ¬ ∃ mask network broadcast,
        (IPv6Address.new #v[0xfe, 0x80, 0, 0, 0, 0, 0, 0, 0, 0, 0, 0, 0, 0, 0, 1] 80).Subnet 64
          mask network broadcast := by
  have hmask : IPv6Address.subnetMask 64 = .ok (IPv6Address.new (Vector.replicate 16 0) 0) := by decide
  refine ⟨hmask, by decide, ?_⟩
  rintro ⟨mask, network, broadcast, h⟩
  obtain rfl := Except.ok.inj (hmask.symm.trans h.maskCall)
  exact absurd (h.leading 0 (by decide) 0 (by decide)) (by decide)

end Megalo
