import Mathlib.Data.Nat.Notation
import Mathlib.Algebra.Order.Ring.Nat

/-!
# Descriptor contexts and their manager

- `FdCtx` is what the hooks keep for a descriptor; its constructor `FdCtx.new` asks the kernel for the file, and makes a
  socket non-blocking;
- `FdManager` is the table of contexts: `lookup` is the read-locked part of `get`, `store` the write-locked one.
  Contexts are shared, so the table holds their addresses. Its size is compared as a number here, and as `(int)` in the
  source: up to `2 ^ 31` entries that is the same, and beyond them `FdTable` has the comparison of the source.
-/

namespace Megalo

/-- `O_NONBLOCK`. -/
def oNonblock : BitVec 32 := 0x800#32

/-- `flags & O_NONBLOCK`, as the condition of an `if` or converted to `bool`. -/
def hasNonblock (flags : BitVec 32) : Bool := flags &&& oNonblock != 0#32

/-- The bit that `O_NONBLOCK` is. -/
theorem hasNonblock_eq (flags : BitVec 32) : hasNonblock flags = flags.getLsbD 11 := by
  have hbit : flags &&& oNonblock = if flags.getLsbD 11 then oNonblock else 0#32 := by
    apply BitVec.eq_of_getLsbD_eq
    intro i hi
    have hn : oNonblock.getLsbD i = decide (i = 11) := by
      revert i
      decide
    rw [BitVec.getLsbD_and, hn]
    by_cases h : i = 11
    · subst h
      cases flags.getLsbD 11 <;> decide
    · cases flags.getLsbD 11 <;> simp [h, hn]
  rw [hasNonblock, hbit]
  cases flags.getLsbD 11 <;> decide

@[simp] theorem hasNonblock_or (flags : BitVec 32) : hasNonblock (flags ||| oNonblock) = true := by
  rw [hasNonblock_eq, BitVec.getLsbD_or, show oNonblock.getLsbD 11 = true by decide, Bool.or_true]

@[simp] theorem hasNonblock_and_not (flags : BitVec 32) : hasNonblock (flags &&& ~~~oNonblock) = false := by
  rw [hasNonblock_eq, BitVec.getLsbD_and, show (~~~oNonblock).getLsbD 11 = false by decide, Bool.and_false]

/-- An open file: whether it is a socket, and its status flags. -/
structure KernelFile where
  isSocket : Bool
  flags : BitVec 32
  deriving DecidableEq

namespace KernelFile

/-- The flags that `F_SETFL` may change: `O_APPEND`, `O_NONBLOCK`, `O_ASYNC`, `O_DIRECT` and `O_NOATIME`. -/
def setflMask : BitVec 32 := 0x46c00#32

/-- `fcntl_f(fd, F_SETFL, arg)`, when the kernel accepts it. -/
def setFlags (file : KernelFile) (arg : BitVec 32) : KernelFile :=
  { file with flags := (arg &&& setflMask) ||| (file.flags &&& ~~~setflMask) }

@[simp] theorem isSocket_setFlags (file : KernelFile) (arg : BitVec 32) :
    (file.setFlags arg).isSocket = file.isSocket :=
  rfl

@[simp] theorem hasNonblock_setFlags (file : KernelFile) (arg : BitVec 32) :
    hasNonblock (file.setFlags arg).flags = hasNonblock arg := by
  simp only [hasNonblock_eq, setFlags, BitVec.getLsbD_or, BitVec.getLsbD_and]
  rw [show setflMask.getLsbD 11 = true by decide, show (~~~setflMask).getLsbD 11 = false by decide]
  simp

/-- `ioctl_f(fd, FIONBIO, &v)`, when the kernel accepts it. -/
def setFionbio (file : KernelFile) (v : Bool) : KernelFile :=
  { file with flags := if v then file.flags ||| oNonblock else file.flags &&& ~~~oNonblock }

@[simp] theorem hasNonblock_setFionbio (file : KernelFile) (v : Bool) :
    hasNonblock (file.setFionbio v).flags = v := by
  cases v <;> simp [setFionbio]

end KernelFile

/-- `SO_RCVTIMEO` or `SO_SNDTIMEO`. -/
inductive TimeoutType
  | recv
  | send
  deriving DecidableEq

/-- `(uint64_t)-1`. -/
def noTimeout : ℕ := 2 ^ 64 - 1

/-- The context of a descriptor. -/
structure FdCtx where
  isInit : Bool
  isSocket : Bool
  sysNonblock : Bool
  userNonblock : Bool
  isClosed : Bool
  fd : ℕ
  recvTimeout : ℕ
  sendTimeout : ℕ
  deriving DecidableEq

namespace FdCtx

/-- `FdCtx::init`, with the file that `fstat` finds; also that file afterwards. -/
def init (c : FdCtx) (file : Option KernelFile) : FdCtx × Option KernelFile :=
  if c.isInit then (c, file)
  else
    let c := { c with recvTimeout := noTimeout, sendTimeout := noTimeout }
    let c := match file with
      | none => { c with isInit := false, isSocket := false }
      | some f => { c with isInit := true, isSocket := f.isSocket }
    if c.isSocket then
      ({ c with sysNonblock := true, userNonblock := false, isClosed := false },
        file.map fun f => if hasNonblock f.flags then f else f.setFlags (f.flags ||| oNonblock))
    else ({ c with sysNonblock := false, userNonblock := false, isClosed := false }, file)

/-- `FdCtx::FdCtx`. -/
def new (fd : ℕ) (file : Option KernelFile) : FdCtx × Option KernelFile :=
  init
    { isInit := false, isSocket := false, sysNonblock := false, userNonblock := false, isClosed := false, fd := fd,
      recvTimeout := noTimeout, sendTimeout := noTimeout } file

def setUserNonblock (c : FdCtx) (v : Bool) : FdCtx := { c with userNonblock := v }

def setTimeout (c : FdCtx) (type : TimeoutType) (v : ℕ) : FdCtx :=
  if type = .recv then { c with recvTimeout := v } else { c with sendTimeout := v }

def getTimeout (c : FdCtx) (type : TimeoutType) : ℕ := if type = .recv then c.recvTimeout else c.sendTimeout

@[simp] theorem getTimeout_setTimeout (c : FdCtx) (type : TimeoutType) (v : ℕ) :
    (c.setTimeout type v).getTimeout type = v := by
  cases type <;> rfl

theorem getTimeout_setTimeout_of_ne (c : FdCtx) {type type' : TimeoutType} (h : type' ≠ type) (v : ℕ) :
    (c.setTimeout type v).getTimeout type' = c.getTimeout type' := by
  cases type <;> cases type' <;> first | rfl | exact absurd rfl h

@[simp] theorem setTimeout_getTimeout (c : FdCtx) (type : TimeoutType) : c.setTimeout type (c.getTimeout type) = c := by
  cases type <;> rfl

/-- What a context is for a descriptor that the user has not touched. -/
structure Untouched (c : FdCtx) : Prop where
  userNonblock : c.userNonblock = false
  getTimeout : ∀ type, c.getTimeout type = noTimeout

theorem new_untouched (fd : ℕ) (file : Option KernelFile) : (new fd file).1.Untouched := by
  refine ⟨?_, fun type => ?_⟩
  · cases file with
    | none => rfl
    | some f => cases h : f.isSocket <;> simp [new, init, h]
  · cases file with
    | none => cases type <;> rfl
    | some f => cases h : f.isSocket <;> cases type <;> simp [new, init, h, FdCtx.getTimeout]

/-- The constructor leaves the file what it is. -/
theorem new_file (fd : ℕ) (file : Option KernelFile) :
    (new fd file).2.map KernelFile.isSocket = file.map KernelFile.isSocket := by
  cases file with
  | none => rfl
  | some f =>
    cases h : f.isSocket with
    | false => simp [new, init, h]
    | true =>
      simp only [new, init, h, Bool.false_eq_true, if_false, if_true, Option.map_some, Option.some.injEq]
      split <;> simp [h]

/-- The constructor makes a socket non-blocking. -/
theorem new_socket (fd : ℕ) (f : KernelFile) (h : f.isSocket = true) :
    (new fd (some f)).1.isSocket = true ∧ (new fd (some f)).1.sysNonblock = true ∧
      (new fd (some f)).1.isClosed = false ∧
      ∃ f', (new fd (some f)).2 = some f' ∧ f'.isSocket = true ∧ hasNonblock f'.flags = true := by
  have hnew : new fd (some f) = ((new fd (some f)).1,
      some (if hasNonblock f.flags then f else f.setFlags (f.flags ||| oNonblock))) := by
    simp [new, init, h]
  refine ⟨by simp [new, init, h], by simp [new, init, h], by simp [new, init, h], _, congrArg Prod.snd hnew, ?_, ?_⟩
  · split <;> simp [h]
  · split
    · assumption
    · simp

end FdCtx

/-- The manager: `m_datas`, by descriptor, which the constructor gives 64 entries. -/
structure FdManager where
  datas : List (Option ℕ)
  le_length : 64 ≤ datas.length

namespace FdManager

/-- `FdManager::FdManager`. -/
def new : FdManager where
  datas := List.replicate 64 none
  le_length := by simp

/-- `m_datas[fd]`, or null beyond the end. -/
def data (m : FdManager) (fd : ℕ) : Option ℕ := m.datas[fd]?.join

/-- The first part of `get`: `some` what it returns, or `none` when it goes on to create a context. -/
def lookup (m : FdManager) (fd : ℕ) (autoCreated : Bool) : Option (Option ℕ) :=
  if m.datas.length ≤ fd then if autoCreated = false then some none else none
  else if (m.data fd).isSome ∨ autoCreated = false then some (m.data fd) else none

/-- The second part of `get`, with the address of the new context. -/
def store (m : FdManager) (fd ctx : ℕ) : FdManager where
  datas :=
    -- the table only grows, since `fd * 1.5` is above `fd`
    (m.datas ++ List.replicate (if m.datas.length ≤ fd then fd * 3 / 2 - m.datas.length else 0) none).set fd (some ctx)
  le_length := by
    rw [List.length_set, List.length_append]
    exact Nat.le_add_right_of_le m.le_length

/-- `FdManager::del`. -/
def del (m : FdManager) (fd : ℕ) : FdManager where
  datas := if m.datas.length ≤ fd then m.datas else m.datas.set fd none
  le_length := by
    split
    · exact m.le_length
    · rw [List.length_set]
      exact m.le_length

variable (m : FdManager) (fd : ℕ)

@[simp] theorem data_new : new.data fd = none := by
  rw [data, new, List.getElem?_replicate]
  split <;> rfl

theorem data_of_length_le (h : m.datas.length ≤ fd) : m.data fd = none := by
  rw [data, List.getElem?_eq_none h]
  rfl

/-- `lookup` by what the table has for the descriptor. -/
theorem lookup_eq (autoCreated : Bool) :
    m.lookup fd autoCreated = if (m.data fd).isSome ∨ autoCreated = false then some (m.data fd) else none := by
  rw [lookup]
  split
  · rename_i h
    rw [m.data_of_length_le fd h]
    simp
  · rfl

theorem lookup_some {autoCreated : Bool} {ctx : Option ℕ} (h : m.lookup fd autoCreated = some ctx) :
    ctx = m.data fd := by
  rw [lookup_eq] at h
  split at h
  · exact (Option.some.inj h).symm
  · cases h

theorem lookup_of_data {ctx : ℕ} (h : m.data fd = some ctx) (autoCreated : Bool) :
    m.lookup fd autoCreated = some (some ctx) := by
  rw [lookup_eq, h, if_pos (.inl rfl)]

@[simp] theorem data_store_self (ctx : ℕ) : (m.store fd ctx).data fd = some ctx := by
  have hlt : fd < (m.datas ++
      List.replicate (if m.datas.length ≤ fd then fd * 3 / 2 - m.datas.length else 0) none).length := by
    rw [List.length_append, List.length_replicate]
    have := m.le_length
    split <;> omega
  rw [data, store, List.getElem?_set_self hlt]
  rfl

theorem data_store_of_ne {fd' : ℕ} (h : fd' ≠ fd) (ctx : ℕ) : (m.store fd ctx).data fd' = m.data fd' := by
  rw [data, store, List.getElem?_set_ne h.symm, data]
  by_cases hl : fd' < m.datas.length
  · rw [List.getElem?_append_left hl]
  · rw [List.getElem?_append_right (Nat.le_of_not_lt hl), List.getElem?_replicate,
      List.getElem?_eq_none (Nat.le_of_not_lt hl)]
    split <;> split <;> rfl

@[simp] theorem data_del_self : (m.del fd).data fd = none := by
  rw [data, del]
  split
  · rename_i h
    rw [List.getElem?_eq_none h]
    rfl
  · rename_i h
    rw [List.getElem?_set_self (Nat.lt_of_not_le h)]
    rfl

theorem data_del_of_ne {fd' : ℕ} (h : fd' ≠ fd) : (m.del fd).data fd' = m.data fd' := by
  rw [data, del]
  split
  · rfl
  · rw [List.getElem?_set_ne h.symm, data]

end FdManager

end Megalo
