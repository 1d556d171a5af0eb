import Megalo.Lib.MachineInt
import Mathlib.Data.List.Basic
import Mathlib.Logic.Basic

/-!
# `ByteArray`: the chain of nodes and its cursor

The chain that `m_root` heads is the list `nodes`, and `m_cur` is the index `cur` of a node of it, or null. An operation
is a `BufferM`: it returns or throws, and keeps the state it had when it threw. The copy loops walk the chain from
`m_cur` on, and return the chain they leave and how often they stepped to `next`.

What `new char[s]` holds before it is written is `heap`, for each allocation in turn. A `size_t` is a natural number;
where the source subtracts, `sizeSub` wraps. The quotient of `addCapacity` is rounded up in integers, which is what its
`ceil` of a `double` gives for sizes below 2^53.
-/

namespace Megalo

open MachineInt

/-- A byte order, of an integer type on the wire. -/
inductive Endian
  | little
  | big
  deriving DecidableEq

/-- `ByteArray::Node`. -/
structure Node where
  size : Nat
  ptr : List UInt8
  length_ptr : ptr.length = size

/-- `ByteArray`. -/
structure ByteArray where
  baseSize : Nat
  position : Nat
  size : Nat
  capacity : Nat
  endian : Endian
  nodes : List Node
  cur : Option Nat
  heap : Nat → Nat → UInt8
  allocs : Nat

/-- What an operation can throw, and what it must not do. -/
inductive BufferFault
  | outOfRange
  | lengthError
  | nullDeref
  | outOfBounds
  deriving DecidableEq

/-- An operation on a `ByteArray`. -/
abbrev BufferM := EStateM BufferFault ByteArray

namespace BufferM

variable {β γ : Type} {m : BufferM β} {b b' : ByteArray} {v : β} {f : BufferFault}

theorem bind_ok (h : m b = .ok v b') (k : β → BufferM γ) : (m >>= k) b = k v b' := by
  show EStateM.bind m k b = _
  rw [EStateM.bind, h]

theorem bind_error (h : m b = .error f b') (k : β → BufferM γ) : (m >>= k) b = .error f b' := by
  show EStateM.bind m k b = _
  rw [EStateM.bind, h]

@[simp]
theorem get_bind (k : ByteArray → BufferM γ) : (get >>= k) b = k b b := rfl

@[simp]
theorem set_bind (k : PUnit → BufferM γ) : (set b' >>= k) b = k ⟨⟩ b' := rfl

@[simp]
theorem modify_bind (g : ByteArray → ByteArray) (k : PUnit → BufferM γ) : (modify g >>= k) b = k ⟨⟩ (g b) := rfl

@[simp]
theorem modify_apply (g : ByteArray → ByteArray) : (modify g : BufferM PUnit) b = .ok ⟨⟩ (g b) := rfl

@[simp]
theorem pure_apply (v : β) : (pure v : BufferM β) b = .ok v b := rfl

@[simp]
theorem throw_apply (f : BufferFault) : (throw f : BufferM β) b = .error f b := rfl

end BufferM

/-- An element of the vector that `getWriteBuffers` fills: a node, an offset in it and a length. -/
structure IoVec where
  node : Nat
  offset : Nat
  len : Nat

namespace Node

/-- `Node(size_t)`, whose memory holds the given bytes. -/
def new (garbage : Nat → UInt8) (s : Nat) : Node := ⟨s, (List.range s).map garbage, by simp⟩

/-- `memcpy(ptr + npos, bytes, bytes.length)`. -/
def copyIn (n : Node) (npos : Nat) (bytes : List UInt8) : Except BufferFault Node :=
  if h : npos + bytes.length ≤ n.size then
    .ok ⟨n.size, n.ptr.take npos ++ (bytes ++ n.ptr.drop (npos + bytes.length)), by
      have := n.length_ptr
      simp only [List.length_append, List.length_take, List.length_drop]
      omega⟩
  else .error .outOfBounds

/-- `memcpy(_, ptr + npos, size)`. -/
def copyOut (n : Node) (npos size : Nat) : Except BufferFault (List UInt8) :=
  if npos + size ≤ n.size then .ok ((n.ptr.drop npos).take size) else .error .outOfBounds

end Node

namespace ByteArray

/-- The constructor. -/
def new (baseSize : Nat) (heap : Nat → Nat → UInt8) : ByteArray :=
  { baseSize := baseSize, position := 0, size := 0, capacity := baseSize, endian := .big
    nodes := [.new (heap 0) baseSize], cur := some 0, heap := heap, allocs := 1 }

def getReadSize (b : ByteArray) : Nat := sizeSub b.size b.position

def getCapacity (b : ByteArray) : Nat := sizeSub b.capacity b.position

/-- `ceil(1.0 * size / m_baseSize)`. -/
def ceilDiv (size baseSize : Nat) : Nat := (size + (baseSize - 1)) / baseSize

/-- `count` times `new Node(m_baseSize)`. -/
def newNodes (b : ByteArray) (count : Nat) : List Node :=
  (List.range count).map fun i => .new (b.heap (b.allocs + i)) b.baseSize

/-- The node at an index of the chain, or null. -/
def link (nodes : List Node) (i : Nat) : Option Nat := if i < nodes.length then some i else none

/-- `addCapacity`. -/
def addCapacity (size : Nat) (b : ByteArray) : ByteArray :=
  if size = 0 then b
  else
    let oldCap := b.getCapacity
    if oldCap ≥ size then b
    else
      let count := ceilDiv (size - oldCap) b.baseSize
      let nodes := b.nodes ++ b.newNodes count
      { b with
        nodes := nodes
        capacity := b.capacity + count * b.baseSize
        cur := if oldCap = 0 then link nodes b.nodes.length else b.cur
        allocs := b.allocs + count }

/-! ## Loops along the chain -/

/-- The loop of `write`. -/
def writeLoop : List Node → Nat → List UInt8 → Except BufferFault (List Node × Nat)
  | [], _, _ => .error .nullDeref
  | cur :: next, npos, buf =>
    let ncap := sizeSub cur.size npos
    if ncap ≥ buf.length then do
      let cur' ← cur.copyIn npos buf
      pure (cur' :: next, if cur.size = npos + buf.length then 1 else 0)
    else do
      let cur' ← cur.copyIn npos (buf.take ncap)
      let (next', steps) ← writeLoop next 0 (buf.drop ncap)
      pure (cur' :: next', steps + 1)

/-- The loop of `read`. -/
def readLoop : List Node → Nat → Nat → Except BufferFault (List UInt8 × Nat)
  | [], _, _ => .error .nullDeref
  | cur :: next, npos, size =>
    if size = 0 then .ok ([], 0)
    else
      let ncap := sizeSub cur.size npos
      if ncap ≥ size then do
        let bytes ← cur.copyOut npos size
        pure (bytes, if cur.size = npos + size then 1 else 0)
      else do
        let bytes ← cur.copyOut npos ncap
        let (bytes', steps) ← readLoop next 0 (size - ncap)
        pure (bytes ++ bytes', steps + 1)

/-- The loop of `setPosition`. -/
def seekLoop : List Node → Nat → Except BufferFault Nat
  | [], _ => .error .nullDeref
  | cur :: next, v =>
    if v > cur.size then (seekLoop next (v - cur.size)).map (· + 1)
    else .ok (if v = cur.size then 1 else 0)

/-- The loop of `getWriteBuffers`, from the node at index `i`. -/
def gatherLoop : List Node → Nat → Nat → Nat → Except BufferFault (List IoVec)
  | [], _, _, _ => .error .nullDeref
  | cur :: next, i, npos, len =>
    let ncap := sizeSub cur.size npos
    if ncap ≥ len then .ok [⟨i, npos, len⟩]
    else do
      let iovs ← gatherLoop next (i + 1) 0 (len - ncap)
      pure (⟨i, npos, ncap⟩ :: iovs)

/-! ## Operations -/

/-- Run a loop along the chain from `m_cur` on. -/
def fromCur {β : Type} (loop : List Node → Except BufferFault β) : BufferM β := fun b =>
  match b.cur with
  | none => .error .nullDeref b
  | some i => match loop (b.nodes.drop i) with
    | .error f => .error f b
    | .ok x => .ok x b

/-- Step `m_cur` to `next` so many times and advance `m_position`. -/
def advance (steps count : Nat) (b : ByteArray) : ByteArray :=
  { b with cur := b.cur.bind fun i => link b.nodes (i + steps), position := b.position + count }

/-- Put the nodes from `m_cur` on. -/
def setFromCur (nodes : List Node) (b : ByteArray) : ByteArray :=
  { b with nodes := b.cur.elim b.nodes fun i => b.nodes.take i ++ nodes }

/-- `write(buf, size)`. -/
def write (buf : List UInt8) : BufferM Unit := do
  if buf.length = 0 then return
  modify (addCapacity buf.length)
  let b ← get
  let (nodes, steps) ← fromCur fun chain => writeLoop chain (b.position % b.baseSize) buf
  modify fun b => (b.setFromCur nodes).advance steps buf.length
  modify fun b => { b with size := if b.position > b.size then b.position else b.size }

/-- `read(buf, size)`. -/
def read (size : Nat) : BufferM (List UInt8) := do
  let b ← get
  if size > b.getReadSize then throw .outOfRange
  let (bytes, steps) ← fromCur fun chain => readLoop chain (b.position % b.baseSize) size
  modify (advance steps size)
  return bytes

/-- `setPosition`. -/
def setPosition (v : Nat) : BufferM Unit := do
  let b ← get
  if v > b.capacity then throw .outOfRange
  set { b with position := v, size := if v > b.size then v else b.size, cur := some 0 }
  let steps ← fromCur fun chain => seekLoop chain v
  modify fun b => { b with cur := link b.nodes steps }

/-- `clear`. -/
def clear : BufferM Unit :=
  modify fun b => { b with position := 0, size := 0, capacity := b.baseSize, nodes := b.nodes.take 1, cur := some 0 }

/-- `getWriteBuffers`: the elements that it appends to its vector, and its result. -/
def getWriteBuffers (len : Nat) : BufferM (List IoVec × Nat) := do
  if len = 0 then return ([], 0)
  modify (addCapacity len)
  let b ← get
  let iovs ← fromCur fun chain => gatherLoop chain (b.cur.getD 0) (b.position % b.baseSize) len
  return (iovs, len)

/-- What the calls of `ifs.read(buff, m_baseSize)` yield until one of them meets the end of the file. -/
def fileChunks (baseSize : Nat) (file : List UInt8) : List (List UInt8) :=
  (List.range (file.length / baseSize + 1)).map fun i => (file.drop (i * baseSize)).take baseSize

/-- `readFromFile`, of a file that can be opened or not. -/
def readFromFile : Option (List UInt8) → BufferM Bool
  | none => return false
  | some file => do
    let b ← get
    (fileChunks b.baseSize file).forM write
    return true

/-- `setIsLittleEndian`. -/
def setIsLittleEndian (val : Bool) : BufferM Unit :=
  modify fun b => { b with endian := if val then .little else .big }

end ByteArray

end Megalo
