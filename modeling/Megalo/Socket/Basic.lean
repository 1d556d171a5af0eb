import Megalo.Lib.System
import Mathlib.Data.Int.Notation
import Mathlib.Logic.Function.Basic

/-!
# `Socket`

- `Sockets A` is the `Socket` objects of a process and the table of its descriptors; an object is known by its number,
  in the order in which they were made. `A` is the addresses;
- what the system calls return is given to the methods. Every call of a method names a descriptor: `call` notes one that
  is not open, and `closeFd` one that is closed again;
- what a method does without a wait is one step. `connect`, `accept` and the transfers wait in `do_io` and
  `connect_with_timeout`, where other fibers go on. They keep the number that `m_sock` was when they were called: they
  try again with it, and register for events of it, whatever became of the object (`again`). The fiber has a pointer to
  the object as long as it is in such a call.

A descriptor that `accept` gets and does not store anywhere is `lost`.
-/

namespace Megalo

/-- What the process has of a descriptor: `lost` is open, and nobody knows it. -/
inductive FdStatus
  | closed
  | opened
  | lost
  deriving DecidableEq

namespace Sockets

/-- A `Socket`. -/
structure Socket (A : Type*) where
  sock : ℤ
  family : ℤ
  type : ℤ
  protocol : ℤ
  isConnected : Bool
  localAddress : Option A
  remoteAddress : Option A

/-- The constructor. -/
def Socket.new {A : Type*} (family type protocol : ℤ) : Socket A :=
  { sock := -1, family, type, protocol, isConnected := false, localAddress := none, remoteAddress := none }

/-- `isValid`. -/
def Socket.isValid {A : Type*} (o : Socket A) : Bool := o.sock ≠ -1

end Sockets

/-- What `getsockname` and `getpeername` give, when they do not fail. -/
structure Names (A : Type*) where
  sockname : Option A
  peername : Option A

/-- The methods that wait. -/
inductive CallKind
  | connect
  | accept
  | transfer
  deriving DecidableEq

/-- A call of such a method that did not return: the object, and the number that it goes on with. -/
structure SocketCall where
  sock : Nat
  fd : ℤ
  kind : CallKind
  deriving DecidableEq

/-- The objects, which of them are not destroyed, how many were made, the descriptors, the calls that did not return,
whether a system call on the descriptor of an object named one that is not open, and whether one of a call that did not
return named one that is not the object's any more. -/
structure Sockets (A : Type*) where
  socks : Nat → Sockets.Socket A
  live : Nat → Bool
  count : Nat
  fds : ℤ → FdStatus
  calls : List SocketCall
  misuse : Bool
  strayed : Bool

namespace Sockets

variable {A : Type*}

/-- No object, and no descriptor. -/
def new (A : Type*) : Sockets A where
  socks _ := .new 0 0 0
  live _ := false
  count := 0
  fds _ := .closed
  calls := []
  misuse := false
  strayed := false

variable (s : Sockets A) (i : Nat)

def setSock (o : Socket A) : Sockets A := { s with socks := Function.update s.socks i o }

/-- A new object. -/
def make (o : Socket A) : Sockets A :=
  { s.setSock s.count o with live := Function.update s.live s.count true, count := s.count + 1 }

/-- A system call on the descriptor of the object. -/
def call : Sockets A :=
  { s with misuse := s.misuse || ((s.socks i).isValid && s.fds (s.socks i).sock ≠ .opened) }

/-- A method begins to wait, behind its first system call. -/
def enter (kind : CallKind) : Sockets A :=
  { s.call i with calls := ⟨i, (s.socks i).sock, kind⟩ :: s.calls }

/-- A call returns. -/
def leave (c : SocketCall) : Sockets A := { s with calls := s.calls.erase c }

/-- A system call, with the number that the method was called for. -/
def again (c : SocketCall) : Sockets A :=
  { s with
    strayed := s.strayed || (c.fd ≠ -1 && (s.fds c.fd ≠ .opened || (s.socks c.sock).sock ≠ c.fd)) }

/-- The kernel opens a descriptor that is not in use, or fails. -/
def Fresh (ret : ℤ) : Prop := ret = -1 ∨ 0 ≤ ret ∧ s.fds ret = .closed

instance (ret : ℤ) : Decidable (s.Fresh ret) := inferInstanceAs (Decidable (_ ∨ _))

/-- The object gets a descriptor, or none. -/
def openFd (ret : ℤ) : Sockets A :=
  { s.setSock i { s.socks i with sock := ret } with
    fds := if ret = -1 then s.fds else Function.update s.fds ret .opened }

/-- `::close` of the descriptor of the object, which forgets it. -/
def closeFd : Sockets A :=
  { (s.call i).setSock i { s.socks i with sock := -1 } with
    fds := Function.update s.fds (s.socks i).sock .closed }

/-- `setOption`. -/
def setOption : Sockets A := s.call i

/-- `initSock`; `SOCK_STREAM` is 1. -/
def initSock : Sockets A :=
  let s := s.setOption i
  if (s.socks i).type = 1 then s.setOption i else s

/-- `newSock`. -/
def newSock (ret : ℤ) : Sockets A :=
  let s := s.openFd i ret
  if ret ≠ -1 then s.initSock i else s

/-- `getLocalAddress`. -/
def getLocalAddress (names : Names A) : Sockets A :=
  match (s.socks i).localAddress with
  | some _ => s
  | none =>
    let s := s.call i
    match names.sockname with
    | none => s
    | some a => s.setSock i { s.socks i with localAddress := some a }

/-- `getRemoteAddress`. -/
def getRemoteAddress (names : Names A) : Sockets A :=
  match (s.socks i).remoteAddress with
  | some _ => s
  | none =>
    let s := s.call i
    match names.peername with
    | none => s
    | some a => s.setSock i { s.socks i with remoteAddress := some a }

/-- `close`. -/
def close : Sockets A × Bool :=
  if (s.socks i).isConnected = false ∧ (s.socks i).sock = -1 then (s, true)
  else
    let s := s.setSock i { s.socks i with isConnected := false }
    if (s.socks i).sock ≠ -1 then (s.closeFd i, false) else (s, false)

/-- The beginning of `bind` and of `connect`: a descriptor, when there is none. -/
def ensure (ret : ℤ) : Sockets A := if !(s.socks i).isValid then s.newSock i ret else s

/-- `bind`. -/
def bind (getFamily : A → ℤ) (addr : A) (ret bound : ℤ) (names : Names A) : Sockets A × Bool :=
  let s := s.ensure i ret
  if !(s.socks i).isValid then (s, false)
  else if getFamily addr ≠ (s.socks i).family then (s, false)
  else
    let s := s.call i
    if bound ≠ 0 then (s, false) else (s.getLocalAddress i names, true)

/-- `connect`, up to the first system call of `::connect`; the result is there when it is not called. -/
def connect (getFamily : A → ℤ) (addr : A) (ret : ℤ) : Sockets A × Option Bool :=
  let s := (s.setSock i { s.socks i with remoteAddress := some addr }).ensure i ret
  if !(s.socks i).isValid then (s, some false)
  else if getFamily addr ≠ (s.socks i).family then (s, some false)
  else (s.enter i .connect, none)

/-- `connect`, from the return of `::connect` on. -/
def connected (rt : ℤ) (names : Names A) : Sockets A × Bool :=
  if rt ≠ 0 then ((s.close i).1, false)
  else
    let s := s.setSock i { s.socks i with isConnected := true }
    ((s.getRemoteAddress i names).getLocalAddress i names, true)

/-- `reconnect`, up to the first system call of `::connect`. -/
def reconnect (getFamily : A → ℤ) (ret : ℤ) : Sockets A × Option Bool :=
  match (s.socks i).remoteAddress with
  | none => (s, some false)
  | some addr => (s.setSock i { s.socks i with localAddress := none }).connect i getFamily addr ret

/-- `listen`. -/
def listen (rt : ℤ) : Sockets A × Bool :=
  if !(s.socks i).isValid then (s, false)
  else
    let s := s.call i
    if rt ≠ 0 then (s, false) else (s, true)

/-- `send`, `recv` and the others of their kind, up to the first system call. -/
def transfer : Sockets A := if (s.socks i).isConnected then s.enter i .transfer else s

/-- `init`, of an object that was just made; `managed` is what the context of the descriptor says. -/
def init (sock : ℤ) (managed : Bool) (names : Names A) : Sockets A × Bool :=
  if managed then
    let s := s.openFd i sock
    let s := (s.setSock i { s.socks i with isConnected := true }).initSock i
    ((s.getLocalAddress i names).getRemoteAddress i names, true)
  else ({ s with fds := Function.update s.fds sock .lost }, false)

/-- The destructor. -/
def destroy : Sockets A := { (s.close i).1 with live := Function.update s.live i false }

/-- `accept`, up to the first system call. The object that it makes is nobody else's until it returns, so it is made
there. -/
def accept : Sockets A := s.enter i .accept

/-- `accept`, from the return of `::accept` on; the new object is destroyed again when it fails. -/
def accepted (newsock : ℤ) (managed : Bool) (names : Names A) : Sockets A :=
  let o := s.socks i
  let j := s.count
  let s := s.make (.new o.family o.type o.protocol)
  if newsock = -1 then s.destroy j
  else
    let (s, ok) := s.init j newsock managed names
    if ok then s else s.destroy j

/-- `CreateTCP` and the others that only make an object. -/
def create (family type : ℤ) : Sockets A := s.make (.new family type 0)

/-- `CreateUDP` and the others for `SOCK_DGRAM`, which is 2. -/
def createUDP (family ret : ℤ) : Sockets A :=
  let j := s.count
  let s := (s.make (.new family 2 0)).newSock j ret
  s.setSock j { s.socks j with isConnected := true }

end Sockets

/-- A method, or the return of one that waited, with what the system calls in it return; or a system call of one that
waits. `option` is `getOption`, `setOption` and the cancel methods. -/
inductive SocketOp (A : Type*)
  | create (family type : ℤ)
  | createUDP (family ret : ℤ)
  | bind (i : Nat) (addr : A) (ret bound : ℤ) (names : Names A)
  | listen (i : Nat) (rt : ℤ)
  | connect (i : Nat) (addr : A) (ret : ℤ)
  | reconnect (i : Nat) (ret : ℤ)
  | connected (i : Nat) (fd rt : ℤ) (names : Names A)
  | accept (i : Nat)
  | accepted (i : Nat) (fd newsock : ℤ) (managed : Bool) (names : Names A)
  | transfer (i : Nat)
  | transferred (i : Nat) (fd : ℤ)
  | again (c : SocketCall)
  | option (i : Nat)
  | close (i : Nat)
  | destroy (i : Nat)

namespace Sockets

variable {A : Type*} (getFamily : A → ℤ)

/-- One step, on an object that is not destroyed; nobody destroys one that a fiber is still in. -/
def step (s : Sockets A) : SocketOp A → Option (Sockets A)
  | .create family type => some (s.create family type)
  | .createUDP family ret => if s.Fresh ret then some (s.createUDP family ret) else none
  | .bind i addr ret bound names =>
    if s.live i = true ∧ s.Fresh ret then some (s.bind i getFamily addr ret bound names).1 else none
  | .listen i rt => if s.live i = true then some (s.listen i rt).1 else none
  | .connect i addr ret => if s.live i = true ∧ s.Fresh ret then some (s.connect i getFamily addr ret).1 else none
  | .reconnect i ret => if s.live i = true ∧ s.Fresh ret then some (s.reconnect i getFamily ret).1 else none
  | .connected i fd rt names =>
    if ⟨i, fd, .connect⟩ ∈ s.calls then some ((s.leave ⟨i, fd, .connect⟩).connected i rt names).1 else none
  | .accept i => if s.live i = true then some (s.accept i) else none
  | .accepted i fd newsock managed names =>
    if ⟨i, fd, .accept⟩ ∈ s.calls ∧ s.Fresh newsock then
      some ((s.leave ⟨i, fd, .accept⟩).accepted i newsock managed names)
    else none
  | .transfer i => if s.live i = true then some (s.transfer i) else none
  | .transferred i fd => if ⟨i, fd, .transfer⟩ ∈ s.calls then some (s.leave ⟨i, fd, .transfer⟩) else none
  | .again c => if c ∈ s.calls then some (s.again c) else none
  | .option i => if s.live i = true then some (s.call i) else none
  | .close i => if s.live i = true then some (s.close i).1 else none
  | .destroy i => if s.live i = true ∧ ∀ c ∈ s.calls, c.sock ≠ i then some (s.destroy i) else none

end Sockets

/-- Fibers with the sockets of a process, in any order of steps. -/
def socketSys {A : Type*} (getFamily : A → ℤ) : Transition.Sys (Sockets A) (SocketOp A) where
  init s := s = .new A
  step := Sockets.step getFamily

end Megalo
