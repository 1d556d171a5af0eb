import Megalo.ByteArray.RoundTrip

/-!
# Socket addresses

- `byteswapOnLittleEndian` turns the numbers of an address from the byte order of the network into that of the machine,
  and back (`byteswapOnLittleEndian_self`); it goes bit by bit, so `&`, `|` and `~` may be done in either;
- `Undefined` has the errors of a run that are not exceptions;
- `Sockaddr` is an address in memory, `SockaddrIn` and `SockaddrIn6` what the memory of the two families is read as;
- `Address` has the classes that `Address::Create` picks by the family.
-/

namespace Megalo

/-- What the language leaves undefined. -/
inductive Undefined
  | nullPointer
  | outOfBounds
  | shiftWidth
  | overflow
  deriving DecidableEq

/-! ## Byte order -/

namespace ByteArray

variable {n : ℕ}

theorem getLsbD_byteswap (v : BitVec (8 * n)) {i : ℕ} (hi : i < 8 * n) :
    (byteswap n v).getLsbD i = v.getLsbD (8 * (n - 1 - i / 8) + i % 8) := by
  have hdiv : i / 8 < (hostBytes n v).length := by
    rw [length_hostBytes]
    omega
  rw [byteswap, getLsbD_ofHostBytes n _ i hi, List.getD_eq_getElem?_getD, List.getElem?_reverse hdiv, length_hostBytes,
    ← List.getD_eq_getElem?_getD, getLsbD_hostBytes n v (by omega) (Nat.mod_lt _ (by decide))]

theorem byteswap_and (v v' : BitVec (8 * n)) : byteswap n (v &&& v') = byteswap n v &&& byteswap n v' := by
  apply BitVec.eq_of_getLsbD_eq
  intro i hi
  rw [BitVec.getLsbD_and, getLsbD_byteswap _ hi, getLsbD_byteswap _ hi, getLsbD_byteswap _ hi, BitVec.getLsbD_and]

theorem byteswap_or (v v' : BitVec (8 * n)) : byteswap n (v ||| v') = byteswap n v ||| byteswap n v' := by
  apply BitVec.eq_of_getLsbD_eq
  intro i hi
  rw [BitVec.getLsbD_or, getLsbD_byteswap _ hi, getLsbD_byteswap _ hi, getLsbD_byteswap _ hi, BitVec.getLsbD_or]

theorem byteswap_not (v : BitVec (8 * n)) : byteswap n (~~~v) = ~~~byteswap n v := by
  apply BitVec.eq_of_getLsbD_eq
  intro i hi
  have hlt : 8 * (n - 1 - i / 8) + i % 8 < 8 * n := by omega
  rw [BitVec.getLsbD_not, getLsbD_byteswap _ hi, getLsbD_byteswap _ hi, BitVec.getLsbD_not]
  simp [hi, hlt]

end ByteArray

/-- `byteswapOnLittleEndian`, for a type of `n` bytes. -/
def byteswapOnLittleEndian (n : ℕ) (v : BitVec (8 * n)) : BitVec (8 * n) :=
  if ByteArray.byteOrder = .little then ByteArray.byteswap n v else v

section ByteOrder

variable {n : ℕ} (v v' : BitVec (8 * n))

theorem byteswapOnLittleEndian_eq : byteswapOnLittleEndian n v = ByteArray.byteswap n v := if_pos rfl

@[simp] theorem byteswapOnLittleEndian_self : byteswapOnLittleEndian n (byteswapOnLittleEndian n v) = v := by
  rw [byteswapOnLittleEndian_eq, byteswapOnLittleEndian_eq, ByteArray.byteswap_byteswap]

@[simp] theorem byteswapOnLittleEndian_and :
    byteswapOnLittleEndian n (v &&& v') = byteswapOnLittleEndian n v &&& byteswapOnLittleEndian n v' := by
  simp only [byteswapOnLittleEndian_eq, ByteArray.byteswap_and]

@[simp] theorem byteswapOnLittleEndian_or :
    byteswapOnLittleEndian n (v ||| v') = byteswapOnLittleEndian n v ||| byteswapOnLittleEndian n v' := by
  simp only [byteswapOnLittleEndian_eq, ByteArray.byteswap_or]

@[simp] theorem byteswapOnLittleEndian_not : byteswapOnLittleEndian n (~~~v) = ~~~byteswapOnLittleEndian n v := by
  simp only [byteswapOnLittleEndian_eq, ByteArray.byteswap_not]

end ByteOrder

/-! ## Addresses -/

/-- `AF_UNSPEC`. -/
def afUnspec : BitVec 16 := 0

/-- `AF_INET`. -/
def afInet : BitVec 16 := 2

/-- `AF_INET6`. -/
def afInet6 : BitVec 16 := 10

/-- `sockaddr_in`. -/
structure SockaddrIn where
  family : BitVec 16
  port : BitVec 16
  addr : BitVec 32
  deriving DecidableEq

/-- `sockaddr_in6`. -/
structure SockaddrIn6 where
  family : BitVec 16
  port : BitVec 16
  flowinfo : BitVec 32
  addr : Vector UInt8 16
  scopeId : BitVec 32
  deriving DecidableEq

/-- `sockaddr`: the family of an address, and the memory behind it. -/
structure Sockaddr where
  family : BitVec 16
  data : List UInt8
  deriving DecidableEq

namespace Sockaddr

/-- The cast to `sockaddr_in`. -/
def toIn (a : Sockaddr) : SockaddrIn where
  family := a.family
  port := ByteArray.ofHostBytes 2 (a.data.take 2)
  addr := ByteArray.ofHostBytes 4 ((a.data.drop 2).take 4)

/-- The cast to `sockaddr_in6`. -/
def toIn6 (a : Sockaddr) : SockaddrIn6 where
  family := a.family
  port := ByteArray.ofHostBytes 2 (a.data.take 2)
  flowinfo := ByteArray.ofHostBytes 4 ((a.data.drop 2).take 4)
  addr := Vector.ofFn fun i => a.data.getD (6 + i) 0
  scopeId := ByteArray.ofHostBytes 4 ((a.data.drop 22).take 4)

end Sockaddr

/-- `IPv4Address`. -/
structure IPv4Address where
  addr : SockaddrIn
  deriving DecidableEq

/-- `IPv6Address`. -/
structure IPv6Address where
  addr : SockaddrIn6
  deriving DecidableEq

/-- `UnknownAddress`. -/
structure UnknownAddress where
  addr : Sockaddr
  deriving DecidableEq

/-- The addresses that `Address::Create` makes. -/
inductive Address
  | ipv4 (a : IPv4Address)
  | ipv6 (a : IPv6Address)
  | unknown (a : UnknownAddress)
  deriving DecidableEq

/-- `Address::Create`. -/
def Address.create : Option Sockaddr → Option Address
  | none => none
  | some a =>
    if a.family = afInet then some (.ipv4 ⟨a.toIn⟩)
    else if a.family = afInet6 then some (.ipv6 ⟨a.toIn6⟩)
    else some (.unknown ⟨a⟩)

namespace IPv4Address

/-- The constructor, of an address and a port in the byte order of the machine. -/
def new (address : BitVec 32) (port : BitVec 16) : IPv4Address where
  addr := { family := afInet, port := byteswapOnLittleEndian 2 port, addr := byteswapOnLittleEndian 4 address }

/-- The address as a number, as `insert` prints it. -/
def number (a : IPv4Address) : BitVec 32 := byteswapOnLittleEndian 4 a.addr.addr

/-- `getPort`. -/
def getPort (a : IPv4Address) : BitVec 32 := (byteswapOnLittleEndian 2 a.addr.port).setWidth 32

@[simp] theorem number_new (address : BitVec 32) (port : BitVec 16) : (new address port).number = address :=
  byteswapOnLittleEndian_self (n := 4) address

@[simp] theorem getPort_new (address : BitVec 32) (port : BitVec 16) : (new address port).getPort = port.setWidth 32 :=
  congrArg (BitVec.setWidth 32) (byteswapOnLittleEndian_self (n := 2) port)

end IPv4Address

namespace IPv6Address

/-- The constructor, of the bytes of an address and a port in the byte order of the machine. -/
def new (address : Vector UInt8 16) (port : BitVec 16) : IPv6Address where
  addr := { family := afInet6, port := byteswapOnLittleEndian 2 port, flowinfo := 0, addr := address, scopeId := 0 }

/-- `getPort`. -/
def getPort (a : IPv6Address) : BitVec 32 := (byteswapOnLittleEndian 2 a.addr.port).setWidth 32

@[simp] theorem getPort_new (address : Vector UInt8 16) (port : BitVec 16) :
    (new address port).getPort = port.setWidth 32 :=
  congrArg (BitVec.setWidth 32) (byteswapOnLittleEndian_self (n := 2) port)

end IPv6Address

end Megalo
