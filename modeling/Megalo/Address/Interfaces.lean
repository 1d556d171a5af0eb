import Megalo.Address.Basic
import Megalo.Lib.SetBits
import Megalo.Lib.Throw
import Megalo.Util.Chars
import Mathlib.Algebra.BigOperators.Group.List.Basic
import Mathlib.Data.List.Lex

/-!
# The addresses of interfaces

- `countBytes` clears one bit after another, which ends with none left: it adds their number to what its counter holds
  before the loop (`countBytes_eq`), and the source does not set that. So a prefix length is the number of bits of its
  netmask exactly where the counters hold zero, or add up to it (`prefix_length_iff`);
- `getInterfaceAddresses` collects the addresses of the interfaces of a family under their names
  (`getInterfaceAddresses_exact`), and its sibling picks those of one name.
-/

namespace Megalo

/-! ## Prefix lengths -/

section CountBytes

variable {w : ℕ}

/-- One bit less. -/
theorem toNat_and_pred {value : BitVec w} (h : value ≠ 0) :
    (value &&& (value - 1)).toNat = value.toNat &&& (value.toNat - 1) := by
  have hne : value.toNat ≠ 0 := fun h0 => h (BitVec.eq_of_toNat_eq h0)
  have hw : 0 < w := by
    rcases Nat.eq_zero_or_pos w with rfl | hw
    · exact absurd (BitVec.eq_nil value) h
    · exact hw
  have hone : (1 : BitVec w).toNat = 1 := BitVec.toNat_one hw
  have hle : (1 : BitVec w) ≤ value := by
    rw [BitVec.le_def, hone]
    omega
  rw [BitVec.toNat_and, BitVec.toNat_sub_of_le hle, hone]

/-- `CountBytes`, where `result` is what the counter holds before the loop. -/
def countBytes (value : BitVec w) (result : UInt32) : UInt32 :=
  if value = 0 then result else countBytes (value &&& (value - 1)) (result + 1)
termination_by value.toNat
decreasing_by
  rw [toNat_and_pred (by assumption)]
  exact SetBits.and_pred_lt fun h0 => ‹value ≠ 0› (BitVec.eq_of_toNat_eq h0)

/-- The number of bits is added to what the counter holds. -/
theorem countBytes_eq (value : BitVec w) (result : UInt32) :
    countBytes value result = result + UInt32.ofNat (SetBits.count value.toNat) := by
  fun_induction countBytes value result with
  | case1 result => simp [SetBits.count_zero]
  | case2 value result h ih =>
    have hne : value.toNat ≠ 0 := fun h0 => h (BitVec.eq_of_toNat_eq h0)
    have hcount := SetBits.count_and_pred hne
    rw [ih, toNat_and_pred h, ← hcount, UInt32.ofNat_add, UInt32.add_assoc, UInt32.add_comm 1]
    rfl

end CountBytes

/-- The prefix length of an `AF_INET6` netmask, with what the counters of the sixteen calls hold. -/
def prefixLength6 (netmask : Vector UInt8 16) (results : Vector UInt32 16) : UInt32 :=
  (netmask.toList.zip results.toList).foldl (fun n e => n + countBytes e.1.toBitVec e.2) 0

theorem foldl_countBytes (bytes : List UInt8) (results : List UInt32) (n : UInt32)
    (h : bytes.length = results.length) :
    (bytes.zip results).foldl (fun n e => n + countBytes e.1.toBitVec e.2) n =
      n + results.sum + UInt32.ofNat (bytes.map fun b => SetBits.count b.toNat).sum := by
  induction bytes generalizing results n with
  | nil =>
    obtain rfl := List.length_eq_zero_iff.mp h.symm
    simp
  | cons b bytes ih =>
    cases results with
    | nil => cases h
    | cons r results =>
      rw [List.zip_cons_cons, List.foldl_cons, ih results _ (Nat.succ.inj h), countBytes_eq, List.map_cons,
        List.sum_cons, List.sum_cons, UInt32.ofNat_add]
      change n + (r + UInt32.ofNat (SetBits.count b.toNat)) + results.sum + _ = _
      grind

/-- No count of bits is as much as a `uint32_t` wraps at, so it comes out exactly where nothing else is added. -/
theorem toNat_add_ofNat_eq {r : UInt32} {n : ℕ} (h : n < 2 ^ 32) : (r + UInt32.ofNat n).toNat = n ↔ r = 0 := by
  have hn : (UInt32.ofNat n).toNat = n := UInt32.toNat_ofNat_of_lt' h
  constructor
  · intro hr
    have heq : r + UInt32.ofNat n = 0 + UInt32.ofNat n := by
      rw [UInt32.zero_add, ← UInt32.toNat_inj, hr, hn]
    exact (UInt32.add_left_inj _).mp heq
  · rintro rfl
    rw [UInt32.zero_add, hn]

theorem sum_count_le (bytes : List UInt8) : (bytes.map fun b => SetBits.count b.toNat).sum ≤ 8 * bytes.length := by
  induction bytes with
  | nil => rfl
  | cons b bytes ih =>
    have hb : SetBits.count b.toNat ≤ 8 := SetBits.count_le b.toNat_lt
    rw [List.map_cons, List.sum_cons, List.length_cons]
    omega

theorem toNat_countBytes_eq {netmask : BitVec 32} {result : UInt32} :
    (countBytes netmask result).toNat = SetBits.count netmask.toNat ↔ result = 0 := by
  have hle : SetBits.count netmask.toNat ≤ 32 := SetBits.count_le netmask.isLt
  rw [countBytes_eq]
  exact toNat_add_ofNat_eq (by omega)

theorem toNat_prefixLength6_eq {netmask : Vector UInt8 16} {results : Vector UInt32 16} :
    (prefixLength6 netmask results).toNat = (netmask.toList.map fun b => SetBits.count b.toNat).sum ↔
      results.toList.sum = 0 := by
  have hlen : netmask.toList.length = results.toList.length := by simp
  have hle := sum_count_le netmask.toList
  rw [Vector.length_toList] at hle
  rw [prefixLength6, foldl_countBytes _ _ 0 hlen, UInt32.zero_add]
  exact toNat_add_ofNat_eq (by omega)

/-- **Prefix lengths**: that of a 32-bit netmask is the number of its bits exactly where the counter of `CountBytes`
holds zero before the loop, and that of sixteen bytes exactly where their counters add up to it. -/
theorem prefix_length_iff (netmask : BitVec 32) (result : UInt32) (netmask6 : Vector UInt8 16)
    (results : Vector UInt32 16) :
    ((countBytes netmask result).toNat = SetBits.count netmask.toNat ↔ result = 0) ∧
      ((prefixLength6 netmask6 results).toNat = (netmask6.toList.map fun b => SetBits.count b.toNat).sum ↔
        results.toList.sum = 0) :=
  ⟨toNat_countBytes_eq, toNat_prefixLength6_eq⟩

/-- The netmask `255.255.255.0`, and a counter that holds seven: the prefix length is 31, with 24 bits. -/
theorem prefix_length_garbage :
    (countBytes (0x00ffffff#32) 7).toNat = 31 ∧ SetBits.count (0x00ffffff#32).toNat = 24 ∧
      ¬ ∀ (netmask : BitVec 32) (result : UInt32),
        (countBytes netmask result).toNat = SetBits.count netmask.toNat := by
  have hcount : SetBits.count (0x00ffffff#32).toNat = 24 := by decide
  have hbytes : (countBytes (0x00ffffff#32) 7).toNat = 31 := by
    rw [countBytes_eq, hcount]
    rfl
  refine ⟨hbytes, hcount, fun h => ?_⟩
  have h7 := h (0x00ffffff#32) 7
  rw [hbytes, hcount] at h7
  cases h7

/-! ## Interfaces -/

/-- `ifaddrs`. -/
structure Ifaddrs where
  name : List UInt8
  addr : Option Sockaddr
  netmask : Option Sockaddr

/-- A pointer that is read through. -/
def deref {α : Type} : Option α → Except Undefined α
  | some a => .ok a
  | none => .error .nullPointer

/-- The address and the prefix length of an interface, where it is of the family; `results` is what the counters of
`CountBytes` hold. -/
def interfaceAddress (next : Ifaddrs) (family : BitVec 32) (results : Vector UInt32 16) :
    Except Undefined (Option (Address × UInt32)) := do
  let addr ← deref next.addr
  if family ≠ afUnspec.setWidth 32 ∧ family ≠ addr.family.setWidth 32 then
    return none
  else if addr.family = afInet then
    let netmask ← deref next.netmask
    return (Address.create (some addr)).map fun a => (a, countBytes netmask.toIn.addr results[0])
  else if addr.family = afInet6 then
    let netmask ← deref next.netmask
    return (Address.create (some addr)).map fun a => (a, prefixLength6 netmask.toIn6.addr results)
  else
    return none

/-- `std::multimap::insert`: behind the entries of the same name. -/
def insertName {α : Type} (e : List UInt8 × α) (m : List (List UInt8 × α)) : List (List UInt8 × α) :=
  m.takeWhile (fun e' => decide (e'.1 ≤ e.1)) ++ e :: m.dropWhile (fun e' => decide (e'.1 ≤ e.1))

/-- The loop over the interfaces. -/
def collect (family : BitVec 32) : List (Ifaddrs × Vector UInt32 16) → List (List UInt8 × Address × UInt32) →
    Except Undefined (List (List UInt8 × Address × UInt32))
  | [], result => return result
  | (next, results) :: l, result => do
    let r ← interfaceAddress next family results
    collect family l (r.elim result fun r => insertName (next.name, r) result)

/-- `GetInterfaceAddresses`, where `getifaddrs` gives the interfaces. -/
def getInterfaceAddresses (result : List (List UInt8 × Address × UInt32)) (family : BitVec 32)
    (interfaces : Option (List (Ifaddrs × Vector UInt32 16))) :
    Except Undefined (Bool × List (List UInt8 × Address × UInt32)) :=
  match interfaces with
  | none => return (false, result)
  | some l => do
    let result ← collect family l result
    return (!result.isEmpty, result)

theorem deref_ok {α : Type} {p : Option α} {a : α} (h : deref p = .ok a) : p = some a := by
  cases p with
  | none => cases h
  | some a' => exact congrArg some (Except.ok.inj h)

theorem mem_insertName {α : Type} {e e' : List UInt8 × α} {m : List (List UInt8 × α)} :
    e' ∈ insertName e m ↔ e' = e ∨ e' ∈ m := by
  have hm := List.takeWhile_append_dropWhile (p := fun e' : List UInt8 × α => decide (e'.1 ≤ e.1)) (l := m)
  conv_rhs => rw [← hm]
  rw [insertName, List.mem_append, List.mem_cons, List.mem_append]
  tauto

/-- What is there after the loop. -/
theorem mem_collect {family : BitVec 32} {l : List (Ifaddrs × Vector UInt32 16)}
    {result result' : List (List UInt8 × Address × UInt32)} (h : collect family l result = .ok result')
    (e : List UInt8 × Address × UInt32) :
    e ∈ result' ↔ e ∈ result ∨ ∃ i ∈ l, e.1 = i.1.name ∧ interfaceAddress i.1 family i.2 = .ok (some e.2) := by
  induction l generalizing result with
  | nil =>
    cases h
    simp
  | cons i l ih =>
    obtain ⟨next, results⟩ := i
    obtain ⟨r, hr, h⟩ := Throw.bind_eq_ok_iff.mp h
    rw [ih h]
    cases r with
    | none => simp [hr]
    | some r =>
      have hmem : e ∈ insertName (next.name, r) result ↔ e = (next.name, r) ∨ e ∈ result := mem_insertName
      have hhead : e = (next.name, r) ↔
          e.1 = next.name ∧ interfaceAddress next family results = .ok (some e.2) := by
        rw [hr, Prod.ext_iff, Except.ok.injEq, Option.some.injEq, eq_comm (a := r)]
      simp only [Option.elim_some, List.mem_cons, exists_eq_or_imp]
      rw [hmem, hhead]
      tauto

/-- An address that is made for an interface is of a family that has netmasks, and goes by the one of the interface. -/
theorem interfaceAddress_some {next : Ifaddrs} {family : BitVec 32} {results : Vector UInt32 16} {a : Address}
    {n : UInt32} (h : interfaceAddress next family results = .ok (some (a, n))) :
    ∃ addr netmask, next.addr = some addr ∧ next.netmask = some netmask ∧
      (a = .ipv4 ⟨addr.toIn⟩ ∧ n = countBytes netmask.toIn.addr results[0] ∨
        a = .ipv6 ⟨addr.toIn6⟩ ∧ n = prefixLength6 netmask.toIn6.addr results) := by
  obtain ⟨addr, haddr, h⟩ := Throw.bind_eq_ok_iff.mp h
  split at h
  · cases h
  · split at h
    · rename_i hinet
      obtain ⟨netmask, hmask, h⟩ := Throw.bind_eq_ok_iff.mp h
      rw [Address.create, if_pos hinet] at h
      cases h
      exact ⟨addr, netmask, deref_ok haddr, deref_ok hmask, .inl ⟨rfl, rfl⟩⟩
    · split at h
      · rename_i hinet hinet6
        obtain ⟨netmask, hmask, h⟩ := Throw.bind_eq_ok_iff.mp h
        rw [Address.create, if_neg hinet, if_pos hinet6] at h
        cases h
        exact ⟨addr, netmask, deref_ok haddr, deref_ok hmask, .inr ⟨rfl, rfl⟩⟩
      · cases h

/-- Where the counters hold zero, every address is reported under the name of an interface that has it, with the number
of bits of its netmask. -/
theorem getInterfaceAddresses_exact {family : BitVec 32} {l : List (Ifaddrs × Vector UInt32 16)} {found : Bool}
    {result : List (List UInt8 × Address × UInt32)} {e : List UInt8 × Address × UInt32}
    (h : getInterfaceAddresses [] family (some l) = .ok (found, result)) (he : e ∈ result)
    (hl : ∀ i ∈ l, i.2 = Vector.replicate 16 0) :
    ∃ i ∈ l, e.1 = i.1.name ∧ ∃ addr netmask, i.1.addr = some addr ∧ i.1.netmask = some netmask ∧
      (e.2.1 = .ipv4 ⟨addr.toIn⟩ ∧ e.2.2.toNat = SetBits.count netmask.toIn.addr.toNat ∨
        e.2.1 = .ipv6 ⟨addr.toIn6⟩ ∧
          e.2.2.toNat = (netmask.toIn6.addr.toList.map fun b => SetBits.count b.toNat).sum) := by
  obtain ⟨result', hc, h⟩ := Throw.bind_eq_ok_iff.mp h
  cases h
  obtain hnil | ⟨i, hi, hname, hr⟩ := (mem_collect hc e).mp he
  · cases hnil
  · have hzero := hl i hi
    obtain ⟨addr, netmask, haddr, hmask, ⟨ha, hn⟩ | ⟨ha, hn⟩⟩ := interfaceAddress_some hr
    · refine ⟨i, hi, hname, addr, netmask, haddr, hmask, .inl ⟨ha, ?_⟩⟩
      rw [hn, toNat_countBytes_eq, hzero]
      rfl
    · refine ⟨i, hi, hname, addr, netmask, haddr, hmask, .inr ⟨ha, ?_⟩⟩
      rw [hn, toNat_prefixLength6_eq, hzero]
      rfl

/-- `GetInterfaceAddresses` of one name. -/
def getInterfaceAddressesOf (result : List (Address × UInt32)) (iface : List UInt8) (family : BitVec 32)
    (interfaces : Option (List (Ifaddrs × Vector UInt32 16))) : Except Undefined (Bool × List (Address × UInt32)) :=
  if iface = [] ∨ iface = bytes "*" then
    let result := if family = afInet.setWidth 32 ∨ family = afUnspec.setWidth 32 then
      result ++ [(.ipv4 (.new 0 0), 0)] else result
    let result := if family = afInet6.setWidth 32 ∨ family = afUnspec.setWidth 32 then
      result ++ [(.ipv6 (.new (Vector.replicate 16 0) 0), 0)] else result
    return (true, result)
  else do
    let r ← getInterfaceAddresses [] family interfaces
    if r.1 then
      let result := result ++ (r.2.filter fun e => e.1 = iface).map Prod.snd
      return (!result.isEmpty, result)
    else
      return (false, result)

end Megalo
