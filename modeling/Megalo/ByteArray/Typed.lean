import Megalo.ByteArray.Invariant

/-!
# Typed reads and writes, and calls in a row

- `writeFixed` and `readFixed` are the integers of a fixed width, in the byte order of the array; `writeUint32`,
  `readUint32` and their 64-bit siblings the integers of variable length; then the strings, with a length in front;
- `Call` is a call of a member that changes the array and `byteArraySys` the runs of calls that complete;
- every call keeps the invariant (`Call.keeps_run`), which gives `representation_invariant`.

A `float` or `double` is its bit pattern, a `std::string` its bytes; a string that `std::string` can hold finds memory.
-/

namespace Megalo

namespace ByteArray

/-! ## Integers of a fixed width -/

/-- `MEGALO_BYTE_ORDER`: that of the machine. -/
def byteOrder : Endian := .little

/-- The memory of an integer of `n` bytes. -/
def hostBytes (n : Nat) (v : BitVec (8 * n)) : List UInt8 :=
  (List.range n).map fun i => UInt8.ofBitVec (v.extractLsb' (8 * i) 8)

/-- The integer of `n` bytes in some memory. -/
def ofHostBytes (n : Nat) (bytes : List UInt8) : BitVec (8 * n) :=
  bytes.foldr (fun b v => v <<< 8 ||| b.toBitVec.setWidth (8 * n)) 0

/-- `byteswap`. -/
def byteswap (n : Nat) (v : BitVec (8 * n)) : BitVec (8 * n) := ofHostBytes n (hostBytes n v).reverse

/-- The integer writes of more than one byte. -/
def writeFixed (n : Nat) (v : BitVec (8 * n)) : BufferM Unit := do
  let b ← get
  write (hostBytes n (if b.endian ≠ byteOrder then byteswap n v else v))

/-- The macro `XX`. -/
def readFixed (n : Nat) : BufferM (BitVec (8 * n)) := do
  let bytes ← read n
  let b ← get
  return if b.endian = byteOrder then ofHostBytes n bytes else byteswap n (ofHostBytes n bytes)

def writeFint8 (value : Int8) : BufferM Unit := write (hostBytes 1 value.toBitVec)
def writeFuint8 (value : UInt8) : BufferM Unit := write (hostBytes 1 value.toBitVec)
def writeFint16 (value : Int16) : BufferM Unit := writeFixed 2 value.toBitVec
def writeFuint16 (value : UInt16) : BufferM Unit := writeFixed 2 value.toBitVec
def writeFint32 (value : Int32) : BufferM Unit := writeFixed 4 value.toBitVec
def writeFuint32 (value : UInt32) : BufferM Unit := writeFixed 4 value.toBitVec
def writeFint64 (value : Int64) : BufferM Unit := writeFixed 8 value.toBitVec
def writeFuint64 (value : UInt64) : BufferM Unit := writeFixed 8 value.toBitVec

def readFint8 : BufferM Int8 := do return .ofBitVec (ofHostBytes 1 (← read 1))
def readFuint8 : BufferM UInt8 := do return .ofBitVec (ofHostBytes 1 (← read 1))
def readFint16 : BufferM Int16 := do return .ofBitVec (← readFixed 2)
def readFuint16 : BufferM UInt16 := do return .ofBitVec (← readFixed 2)
def readFint32 : BufferM Int32 := do return .ofBitVec (← readFixed 4)
def readFuint32 : BufferM UInt32 := do return .ofBitVec (← readFixed 4)
def readFint64 : BufferM Int64 := do return .ofBitVec (← readFixed 8)
def readFuint64 : BufferM UInt64 := do return .ofBitVec (← readFixed 8)

/-! ## Integers of variable length -/

/-- `EncodeZigzag32`. -/
def encodeZigzag32 (v : Int32) : UInt32 := if v < 0 then (-v).toUInt32 * 2 - 1 else (v * 2).toUInt32

/-- `EncodeZigzag64`, whose result is a `uint32_t`. -/
def encodeZigzag64 (v : Int64) : UInt32 := if v < 0 then ((-v).toUInt64 * 2 - 1).toUInt32 else (v * 2).toUInt64.toUInt32

/-- `DecodeZigzag32`. -/
def decodeZigzag32 (v : UInt32) : Int32 := ((v >>> 1) ^^^ -(v &&& 1)).toInt32

/-- `DecodeZigzag64`. -/
def decodeZigzag64 (v : UInt64) : Int64 := ((v >>> 1) ^^^ -(v &&& 1)).toInt64

/-- The array `tmp` of `writeUint32` and `writeUint64`, which has room for `room` bytes. -/
def varint : Nat → Nat → List UInt8
  | 0, _ => []
  | room + 1, value =>
    if value ≥ 0x80 then UInt8.ofNat (value &&& 0x7f ||| 0x80) :: varint room (value >>> 7) else [UInt8.ofNat value]

def writeUint32 (value : UInt32) : BufferM Unit := write (varint 5 value.toNat)
def writeInt32 (value : Int32) : BufferM Unit := writeUint32 (encodeZigzag32 value)
def writeUint64 (value : UInt64) : BufferM Unit := write (varint 10 value.toNat)
def writeInt64 (value : Int64) : BufferM Unit := writeUint64 (encodeZigzag64 value).toUInt64

/-- The loop of `readUint32`, over the values of `i`. -/
def readVarint32 : List UInt32 → UInt32 → BufferM UInt32
  | [], result => return result
  | i :: is, result => do
    let b ← readFuint8
    if b < 0x80 then return result ||| (b.toUInt32 <<< i)
    else readVarint32 is (result ||| ((b &&& 0x7f).toUInt32 <<< i))

/-- The loop of `readUint64`, over the values of `i`. -/
def readVarint64 : List UInt64 → UInt64 → BufferM UInt64
  | [], result => return result
  | i :: is, result => do
    let b ← readFuint8
    if b < 0x80 then return result ||| (b.toUInt64 <<< i)
    else readVarint64 is (result ||| ((b &&& 0x7f).toUInt64 <<< i))

def readUint32 : BufferM UInt32 := readVarint32 [0, 7, 14, 21, 28] 0
def readInt32 : BufferM Int32 := do return decodeZigzag32 (← readUint32)
def readUint64 : BufferM UInt64 := readVarint64 [0, 7, 14, 21, 28, 35, 42, 49, 56, 63] 0
def readInt64 : BufferM Int64 := do return decodeZigzag64 (← readUint64)

def writeFloat (bits : UInt32) : BufferM Unit := writeFuint32 bits
def writeDouble (bits : UInt64) : BufferM Unit := writeFuint64 bits
def readFloat : BufferM UInt32 := readFuint32
def readDouble : BufferM UInt64 := readFuint64

/-! ## Strings -/

/-- `std::string::max_size()`. -/
def stringMaxSize : Nat := 0x3fffffffffffffff

/-- `buff.resize(len)` and the `read` into it. -/
def readChars (len : Nat) : BufferM (List UInt8) := do
  if len > stringMaxSize then throw .lengthError
  read len

def writeStringF16 (value : List UInt8) : BufferM Unit := do writeFuint16 (.ofNat value.length); write value
def writeStringF32 (value : List UInt8) : BufferM Unit := do writeFuint32 (.ofNat value.length); write value
def writeStringF64 (value : List UInt8) : BufferM Unit := do writeFuint64 (.ofNat value.length); write value
def writeStringVint (value : List UInt8) : BufferM Unit := do writeUint64 (.ofNat value.length); write value
def writeStringWithoutLength (value : List UInt8) : BufferM Unit := write value

def readStringF16 : BufferM (List UInt8) := do readChars (← readFuint16).toNat
def readStringF32 : BufferM (List UInt8) := do readChars (← readFuint32).toNat
def readStringF64 : BufferM (List UInt8) := do readChars (← readFuint64).toNat
def readStringVint : BufferM (List UInt8) := do readChars (← readUint64).toNat

/-! ## Calls -/

/-- A value that a typed member writes. -/
inductive Value
  | fint8 (v : Int8) | fuint8 (v : UInt8) | fint16 (v : Int16) | fuint16 (v : UInt16)
  | fint32 (v : Int32) | fuint32 (v : UInt32) | fint64 (v : Int64) | fuint64 (v : UInt64)
  | int32 (v : Int32) | uint32 (v : UInt32) | int64 (v : Int64) | uint64 (v : UInt64)
  | float (bits : UInt32) | double (bits : UInt64)
  | stringF16 (s : List UInt8) | stringF32 (s : List UInt8) | stringF64 (s : List UInt8) | stringVint (s : List UInt8)

/-- A typed member that reads. -/
inductive Kind
  | fint8 | fuint8 | fint16 | fuint16 | fint32 | fuint32 | fint64 | fuint64
  | int32 | uint32 | int64 | uint64 | float | double
  | stringF16 | stringF32 | stringF64 | stringVint

/-- The write of a value. -/
def Value.write : Value → BufferM Unit
  | fint8 v => writeFint8 v | fuint8 v => writeFuint8 v | fint16 v => writeFint16 v | fuint16 v => writeFuint16 v
  | fint32 v => writeFint32 v | fuint32 v => writeFuint32 v | fint64 v => writeFint64 v | fuint64 v => writeFuint64 v
  | int32 v => writeInt32 v | uint32 v => writeUint32 v | int64 v => writeInt64 v | uint64 v => writeUint64 v
  | float bits => writeFloat bits | double bits => writeDouble bits
  | stringF16 s => writeStringF16 s | stringF32 s => writeStringF32 s
  | stringF64 s => writeStringF64 s | stringVint s => writeStringVint s

/-- The read of a kind of value. -/
def Kind.read : Kind → BufferM Value
  | fint8 => .fint8 <$> readFint8 | fuint8 => .fuint8 <$> readFuint8
  | fint16 => .fint16 <$> readFint16 | fuint16 => .fuint16 <$> readFuint16
  | fint32 => .fint32 <$> readFint32 | fuint32 => .fuint32 <$> readFuint32
  | fint64 => .fint64 <$> readFint64 | fuint64 => .fuint64 <$> readFuint64
  | int32 => .int32 <$> readInt32 | uint32 => .uint32 <$> readUint32
  | int64 => .int64 <$> readInt64 | uint64 => .uint64 <$> readUint64
  | float => .float <$> readFloat | double => .double <$> readDouble
  | stringF16 => .stringF16 <$> readStringF16 | stringF32 => .stringF32 <$> readStringF32
  | stringF64 => .stringF64 <$> readStringF64 | stringVint => .stringVint <$> readStringVint

/-- A call of a member that is not `const`. -/
inductive Call
  | write (buf : List UInt8)
  | writeValue (v : Value)
  | writeStringWithoutLength (s : List UInt8)
  | read (size : Nat)
  | readValue (k : Kind)
  | setPosition (v : Nat)
  | clear
  | getWriteBuffers (len : Nat)
  | readFromFile (file : Option (List UInt8))
  | setIsLittleEndian (val : Bool)

/-- Run a call. -/
def Call.run : Call → BufferM Unit
  | write buf => ByteArray.write buf
  | writeValue v => v.write
  | writeStringWithoutLength s => ByteArray.writeStringWithoutLength s
  | read size => do let _ ← ByteArray.read size
  | readValue k => do let _ ← k.read
  | setPosition v => ByteArray.setPosition v
  | clear => ByteArray.clear
  | getWriteBuffers len => do let _ ← ByteArray.getWriteBuffers len
  | readFromFile file => do let _ ← ByteArray.readFromFile file
  | setIsLittleEndian val => ByteArray.setIsLittleEndian val

end ByteArray

/-- A `ByteArray` in use: the runs of calls that return or throw. -/
def byteArraySys : Transition.Sys ByteArray ByteArray.Call where
  init b := ∃ baseSize heap, 0 < baseSize ∧ b = .new baseSize heap
  step b c := ByteArray.completed (c.run b)

namespace ByteArray

/-! ## Every call keeps the invariant -/

section

variable {β γ : Type}

theorem Keeps.map {m : BufferM β} (hm : Keeps m) (f : β → γ) : Keeps (f <$> m) := hm.bind fun _ => keeps_pure _

end

theorem keeps_writeFixed (n : Nat) (v : BitVec (8 * n)) : Keeps (writeFixed n v) :=
  keeps_get.bind fun _ => keeps_write _

theorem keeps_readFixed (n : Nat) : Keeps (readFixed n) :=
  (keeps_read n).bind fun _ => keeps_get.bind fun _ => keeps_pure _

theorem keeps_readFuint8 : Keeps readFuint8 := (keeps_read 1).bind fun _ => keeps_pure _

theorem keeps_readVarint32 (is : List UInt32) (result : UInt32) : Keeps (readVarint32 is result) := by
  induction is generalizing result with
  | nil => exact keeps_pure _
  | cons i is ih =>
    refine keeps_readFuint8.bind fun b => ?_
    split
    · exact keeps_pure _
    · exact ih _

theorem keeps_readVarint64 (is : List UInt64) (result : UInt64) : Keeps (readVarint64 is result) := by
  induction is generalizing result with
  | nil => exact keeps_pure _
  | cons i is ih =>
    refine keeps_readFuint8.bind fun b => ?_
    split
    · exact keeps_pure _
    · exact ih _

theorem keeps_readChars (len : Nat) : Keeps (readChars len) := by
  unfold readChars
  split
  · exact (keeps_throw _).bind fun _ => keeps_read len
  · exact keeps_read len

theorem Value.keeps_write (v : Value) : Keeps v.write := by
  cases v with
  | fint8 v | fuint8 v => exact ByteArray.keeps_write (hostBytes 1 v.toBitVec)
  | int32 v | uint32 v | int64 v | uint64 v => exact ByteArray.keeps_write _
  | fint16 v | fuint16 v => exact keeps_writeFixed 2 _
  | fint32 v | fuint32 v | float v => exact keeps_writeFixed 4 _
  | fint64 v | fuint64 v | double v => exact keeps_writeFixed 8 _
  | stringF16 s => exact (keeps_writeFixed 2 _).bind fun _ => ByteArray.keeps_write s
  | stringF32 s => exact (keeps_writeFixed 4 _).bind fun _ => ByteArray.keeps_write s
  | stringF64 s => exact (keeps_writeFixed 8 _).bind fun _ => ByteArray.keeps_write s
  | stringVint s => exact (ByteArray.keeps_write _).bind fun _ => ByteArray.keeps_write s

theorem Kind.keeps_read (k : Kind) : Keeps k.read := by
  have hfixed (n : Nat) {β : Type} (f : BitVec (8 * n) → β) : Keeps (do return f (← readFixed n)) :=
    (keeps_readFixed n).bind fun _ => keeps_pure _
  have h32 : Keeps readUint32 := keeps_readVarint32 _ _
  have h64 : Keeps readUint64 := keeps_readVarint64 _ _
  cases k with
  | fint8 => exact ((ByteArray.keeps_read 1).bind fun _ => keeps_pure _).map _
  | fuint8 => exact keeps_readFuint8.map _
  | fint16 => exact (hfixed 2 Int16.ofBitVec).map _
  | fuint16 => exact (hfixed 2 UInt16.ofBitVec).map _
  | fint32 => exact (hfixed 4 Int32.ofBitVec).map _
  | fuint32 | float => exact (hfixed 4 UInt32.ofBitVec).map _
  | fint64 => exact (hfixed 8 Int64.ofBitVec).map _
  | fuint64 | double => exact (hfixed 8 UInt64.ofBitVec).map _
  | int32 => exact (h32.bind fun _ => keeps_pure _).map _
  | uint32 => exact h32.map _
  | int64 => exact (h64.bind fun _ => keeps_pure _).map _
  | uint64 => exact h64.map _
  | stringF16 => exact ((hfixed 2 UInt16.ofBitVec).bind fun _ => keeps_readChars _).map _
  | stringF32 => exact ((hfixed 4 UInt32.ofBitVec).bind fun _ => keeps_readChars _).map _
  | stringF64 => exact ((hfixed 8 UInt64.ofBitVec).bind fun _ => keeps_readChars _).map _
  | stringVint => exact (h64.bind fun _ => keeps_readChars _).map _

theorem Call.keeps_run (c : Call) : Keeps c.run := by
  cases c with
  | write buf | writeStringWithoutLength buf => exact ByteArray.keeps_write buf
  | writeValue v => exact v.keeps_write
  | read size => exact (ByteArray.keeps_read size).bind fun _ => keeps_pure _
  | readValue k => exact k.keeps_read.bind fun _ => keeps_pure _
  | setPosition v => exact keeps_setPosition v
  | clear => exact keeps_clear
  | getWriteBuffers len => exact (keeps_getWriteBuffers len).bind fun _ => keeps_pure _
  | readFromFile file => exact (keeps_readFromFile file).bind fun _ => keeps_pure _
  | setIsLittleEndian val => exact keeps_setIsLittleEndian val

theorem inv_reachable {b : ByteArray} (h : byteArraySys.Reachable b) : b.Inv := by
  refine h.invariant ?_ fun b c b' hi _ hs => c.keeps_run b b' hi hs
  rintro b ⟨baseSize, heap, hb, rfl⟩
  exact inv_new hb heap

end ByteArray

/-- **The representation invariant.** In every state that calls which return or throw reach, all nodes have the base
size, the capacity is what they hold together, the position is within the size and that within the capacity, and the
cursor is the node that holds the position, or null exactly when the position is the capacity. -/
theorem representation_invariant {b : ByteArray} (h : byteArraySys.Reachable b) :
    (∀ n ∈ b.nodes, n.size = b.baseSize) ∧ b.capacity = b.baseSize * b.nodes.length ∧
      b.position ≤ b.size ∧ b.size ≤ b.capacity ∧ (b.cur = none ↔ b.position = b.capacity) ∧
      ∀ i, b.cur = some i → i = b.position / b.baseSize ∧ i < b.nodes.length := by
  have hi := ByteArray.inv_reachable h
  have hcur := hi.cur
  refine ⟨hi.sized, hi.capacity, hi.position, hi.size, ?_, fun i hci => ?_⟩
  · rw [hcur]
    split <;> simp_all
  · rw [hcur] at hci
    split at hci
    · cases hci
    · rename_i hne
      cases hci
      have hlt : b.position < b.capacity := by
        have := hi.position
        have := hi.size
        omega
      refine ⟨rfl, ?_⟩
      rw [Nat.div_lt_iff_lt_mul hi.base, Nat.mul_comm, ← hi.capacity]
      exact hlt

/-- Nodes of two bytes: a write that ends on the end of a node, a typed one, a failed read and a move to the end. -/
theorem representation_invariant_end : ∃ b : ByteArray, b.position = 6 ∧ b.capacity = 6 ∧ b.cur = none := by
  obtain ⟨b, hb, hp⟩ := byteArraySys.reachable_of_exec (.new 2 fun _ _ => 0) ⟨2, _, by decide, rfl⟩
    [.write [1, 2], .writeValue (.fuint16 3), .read 1, .getWriteBuffers 1, .setPosition 6]
    (p := fun b => b.position == 6 && b.capacity == 6) rfl
  rw [Bool.and_eq_true, beq_iff_eq, beq_iff_eq] at hp
  exact ⟨b, hp.1, hp.2, (representation_invariant hb).2.2.2.2.1.2 (hp.1.trans hp.2.symm)⟩

end Megalo
