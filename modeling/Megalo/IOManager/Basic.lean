import Megalo.Lib.MachineInt
import Megalo.Lib.Throw
import Megalo.Scheduler.Basic
import Mathlib.Data.List.Basic
import Mathlib.Data.BitVec

/-!
# `IOManager`: the event table

- `FdContext` is the registrations of one descriptor: the mask `events` and one `EventContext` for each event.
- `FdContext.addEvent`, `delEvent`, `cancelEvent`, `cancelAll` and `dispatch` (the body of the loop of `idle`) are what
  the source does under the mutex of the context. Each returns a `Locked`: its result, the context afterwards, what it
  adds to `m_pendingEventCount`, and what happened to registrations.
- `contextResize` and `lookup` are the accesses of the table `m_fdContexts`, and the operations of `IOManager` put a
  lookup and a locked part together.

The outcome of `epoll_ctl` is a function of its operation and mask; a failed assertion, a null scheduler and an index
outside the table are a `Fault`. The counter is an integer, so that it could fall below zero.
-/

namespace Megalo

open MachineInt

/-- `IOManager::Event`, without `NONE`. -/
inductive Event
  | read
  | write
  deriving DecidableEq

/-- A mask of events, of `epoll` bits or both: `READ` and `WRITE` have the values of `EPOLLIN` and `EPOLLOUT`. -/
abbrev EventMask := BitVec 32

namespace Event

/-- The value of the enumerator. -/
def bit : Event → EventMask
  | read => 0x01#32
  | write => 0x04#32

end Event

/-- The mask contains the event. -/
def EventMask.has (mask : EventMask) (e : Event) : Bool := mask &&& e.bit != 0#32

def epollErr : EventMask := 0x08#32
def epollHup : EventMask := 0x10#32
def epollEt : EventMask := 0x80000000#32

/-- The operation of an `epoll_ctl` call. -/
inductive EpollOp
  | add
  | mod
  | del
  deriving DecidableEq

/-- The operation for a mask that replaces `zero` when it is not empty. -/
def EpollOp.of (mask : EventMask) (zero : EpollOp) : EpollOp := if mask != 0#32 then .mod else zero

/-- Whether an `epoll_ctl` call with this operation and mask succeeds. -/
abbrev EpollCtl := EpollOp → EventMask → Bool

/-- `FdContext::EventContext`; `none` is a null pointer or an empty function. -/
structure EventContext (ς φ κ : Type*) where
  scheduler : Option ς
  fiber : Option φ
  cb : Option κ

/-- What happened to a registration of an event: it was made, handed to its scheduler, or dropped. -/
inductive LogKind (ς φ κ : Type*)
  | registered (scheduler : Option ς) (task : Task φ κ)
  | scheduled (scheduler : ς) (task : Task φ κ)
  | dropped

/-- `IOManager::FdContext`. -/
structure FdContext (ς φ κ : Type*) where
  read : EventContext ς φ κ
  write : EventContext ς φ κ
  fd : Nat
  events : EventMask

/-- How an operation fails to return. -/
inductive Fault
  | addEventRegistered
  | contextInUse
  | fiberNotExec
  | triggerEvent
  | cancelAllEvents
  | nullScheduler
  | outOfBounds
  deriving DecidableEq

/-- The calling thread: `Scheduler::GetThis()`, `Fiber::GetThis()`, and whether that fiber's state is `EXEC`. -/
structure Caller (ς φ : Type*) where
  scheduler : Option ς
  fiber : φ
  exec : Bool

/-- What a locked section returns. `pending` is what it adds to `m_pendingEventCount`; `log` is newest first. -/
structure Locked (ς φ κ β : Type*) where
  ret : β
  ctx : FdContext ς φ κ
  pending : Int
  log : List (Event × LogKind ς φ κ)

variable {ς φ κ : Type*}

/-- An empty context. -/
def EventContext.empty : EventContext ς φ κ := ⟨none, none, none⟩

namespace FdContext

/-- `new FdContext`, with its descriptor. -/
def new (fd : Nat) : FdContext ς φ κ := { read := .empty, write := .empty, fd := fd, events := 0#32 }

/-- `getContext`. -/
def getContext (ctx : FdContext ς φ κ) : Event → EventContext ς φ κ
  | .read => ctx.read
  | .write => ctx.write

def setEvents (ctx : FdContext ς φ κ) (events : EventMask) : FdContext ς φ κ := { ctx with events := events }

/-- Assign through the reference that `getContext` returns. -/
def setContext (ctx : FdContext ς φ κ) (e : Event) (c : EventContext ς φ κ) : FdContext ς φ κ :=
  match e with
  | .read => { ctx with read := c }
  | .write => { ctx with write := c }

/-- `triggerEvent`: the context, and what was pushed to which scheduler. `schedule` swaps the task out of the
context, and pushes nothing when it is null. -/
def triggerEvent (ctx : FdContext ς φ κ) (event : Event) :
    Except Fault (FdContext ς φ κ × List (Event × LogKind ς φ κ)) :=
  if !ctx.events.has event then .error .triggerEvent
  else
    let c := ctx.getContext event
    match c.scheduler with
    | none => .error .nullScheduler
    | some s =>
      let ctx := ctx.setEvents (ctx.events &&& ~~~event.bit)
      match c.cb, c.fiber with
      | some f, _ => .ok (ctx.setContext event ⟨none, c.fiber, none⟩, [(event, .scheduled s (.cb f))])
      | none, some f => .ok (ctx.setContext event ⟨none, none, none⟩, [(event, .scheduled s (.fiber f))])
      | none, none => .ok (ctx.setContext event ⟨none, none, none⟩, [])

/-- `addEvent` after the lookup. -/
def addEvent (ctl : EpollCtl) (caller : Caller ς φ) (event : Event) (cb : Option κ) (ctx : FdContext ς φ κ) :
    Except Fault (Locked ς φ κ Int) :=
  if ctx.events.has event then .error .addEventRegistered
  else
    let op := EpollOp.of ctx.events .add
    if !ctl op (epollEt ||| ctx.events ||| event.bit) then .ok ⟨-1, ctx, 0, []⟩
    else
      let ctx := ctx.setEvents (ctx.events ||| event.bit)
      let c := ctx.getContext event
      if c.scheduler.isSome || c.cb.isSome || c.fiber.isSome then .error .contextInUse
      else match cb with
        | some f => .ok ⟨0, ctx.setContext event ⟨caller.scheduler, c.fiber, some f⟩, 1,
            [(event, .registered caller.scheduler (.cb f))]⟩
        | none =>
          if !caller.exec then .error .fiberNotExec
          else .ok ⟨0, ctx.setContext event ⟨caller.scheduler, some caller.fiber, c.cb⟩, 1,
            [(event, .registered caller.scheduler (.fiber caller.fiber))]⟩

/-- `delEvent` after the lookup. -/
def delEvent (ctl : EpollCtl) (event : Event) (ctx : FdContext ς φ κ) : Locked ς φ κ Bool :=
  if !ctx.events.has event then ⟨false, ctx, 0, []⟩
  else
    let newEvent := ctx.events &&& ~~~event.bit
    let op := EpollOp.of newEvent .del
    if !ctl op (epollEt ||| newEvent) then ⟨false, ctx, 0, []⟩
    else ⟨true, (ctx.setEvents newEvent).setContext event .empty, -1, [(event, .dropped)]⟩

/-- `cancelEvent` after the lookup. -/
def cancelEvent (ctl : EpollCtl) (event : Event) (ctx : FdContext ς φ κ) : Except Fault (Locked ς φ κ Bool) :=
  if !ctx.events.has event then .ok ⟨false, ctx, 0, []⟩
  else
    let newEvent := ctx.events &&& ~~~event.bit
    let op := EpollOp.of newEvent .del
    if !ctl op (epollEt ||| newEvent) then .ok ⟨false, ctx, 0, []⟩
    else do
      let (ctx, log) ← ctx.triggerEvent event
      pure ⟨true, ctx, -1, log⟩

/-- Trigger the event and count it down, when the mask asks for it. -/
def triggerIf (mask : EventMask) (event : Event) (r : Locked ς φ κ Bool) : Except Fault (Locked ς φ κ Bool) :=
  if mask.has event then do
    let (ctx, log) ← r.ctx.triggerEvent event
    pure { r with ctx := ctx, pending := r.pending - 1, log := log ++ r.log }
  else .ok r

/-- `cancelAll` after the lookup. -/
def cancelAll (ctl : EpollCtl) (ctx : FdContext ς φ κ) : Except Fault (Locked ς φ κ Bool) :=
  if ctx.events == 0#32 then .ok ⟨false, ctx, 0, []⟩
  else if !ctl .del 0#32 then .ok ⟨false, ctx, 0, []⟩
  else do
    let r ← triggerIf ctx.events .read ⟨true, ctx, 0, []⟩
    let r ← triggerIf r.ctx.events .write r
    if r.ctx.events == 0#32 then pure r else .error .cancelAllEvents

/-- The events that `idle` takes for real: on an error or a hang-up, all that are registered. -/
def realEvents (ctx : FdContext ς φ κ) (bits : EventMask) : EventMask :=
  let bits := if bits &&& (epollErr ||| epollHup) != 0#32 then
      bits ||| ((Event.read.bit ||| Event.write.bit) &&& ctx.events) else bits
  (if bits.has .read then Event.read.bit else 0#32) ||| (if bits.has .write then Event.write.bit else 0#32)

/-- The body of the loop of `idle` for one reported descriptor; the result says whether events were triggered. -/
def dispatch (ctl : EpollCtl) (bits : EventMask) (ctx : FdContext ς φ κ) : Except Fault (Locked ς φ κ Bool) :=
  let real := ctx.realEvents bits
  if ctx.events &&& real == 0#32 then .ok ⟨false, ctx, 0, []⟩
  else
    let left := ctx.events &&& ~~~real
    let op := EpollOp.of left .del
    if !ctl op (epollEt ||| left) then .ok ⟨false, ctx, 0, []⟩
    else do
      let r ← triggerIf real .read ⟨true, ctx, 0, []⟩
      triggerIf real .write r

end FdContext

/-- A locked section, with the outcome of the one `epoll_ctl` it calls, if it calls it. -/
inductive LockedOp (ς φ κ : Type*)
  | addEvent (ctl : EpollCtl) (caller : Caller ς φ) (event : Event) (cb : Option κ)
  | delEvent (ctl : EpollCtl) (event : Event)
  | cancelEvent (ctl : EpollCtl) (event : Event)
  | cancelAll (ctl : EpollCtl)
  | dispatch (ctl : EpollCtl) (bits : EventMask)

/-- Run a locked section; the result says whether it succeeded. -/
def LockedOp.run (ctx : FdContext ς φ κ) : LockedOp ς φ κ → Except Fault (Locked ς φ κ Bool)
  | addEvent ctl caller event cb => (ctx.addEvent ctl caller event cb).map fun r => { r with ret := r.ret == 0 }
  | delEvent ctl event => .ok (ctx.delEvent ctl event)
  | cancelEvent ctl event => ctx.cancelEvent ctl event
  | cancelAll ctl => ctx.cancelAll ctl
  | dispatch ctl bits => ctx.dispatch ctl bits

/-- What the section is told about `epoll_ctl`. -/
def LockedOp.ctl : LockedOp ς φ κ → EpollCtl
  | addEvent ctl _ _ _ | delEvent ctl _ | cancelEvent ctl _ | cancelAll ctl | dispatch ctl _ => ctl

/-! ## The table -/

/-- `contextResize`: shrink, or fill the new slots with new contexts. -/
def contextResize {α : Type*} (new : Nat → α) (size : Nat) (fdContexts : List α) : List α :=
  fdContexts.take size ++ (List.range' fdContexts.length (size - fdContexts.length)).map new

/-- `m_fdContexts[fd]`. -/
def slot {α : Type*} (fdContexts : List α) (fd : Int) : Except Fault α :=
  if fd < 0 then .error .outOfBounds
  else match fdContexts[fd.toNat]? with
    | some c => .ok c
    | none => .error .outOfBounds

/-- The argument `fd * 1.5` of `contextResize`, as a `size_t`. -/
def growSize (fd : Int) : Nat := (fd * 3 / 2).toNat

/-- The lookup of `delEvent`, `cancelEvent` and `cancelAll`; `none` is their early `return false`. -/
def lookup {α : Type*} (fdContexts : List α) (fd : Int) : Except Fault (Option α) :=
  if intSize fdContexts.length ≤ fd then .ok none else (slot fdContexts fd).map some

/-- The lookup of `addEvent`, which grows the table: the table and the slot. -/
def lookupGrow {α : Type*} (new : Nat → α) (fdContexts : List α) (fd : Int) : Except Fault (List α × α) :=
  if intSize fdContexts.length > fd then (slot fdContexts fd).map fun c => (fdContexts, c)
  else
    let fdContexts := contextResize new (growSize fd) fdContexts
    (slot fdContexts fd).map fun c => (fdContexts, c)

/-! ## The manager -/

/-- An `IOManager`, and what happened to registrations, newest first. -/
structure IOManager (ς φ κ : Type*) where
  fdContexts : List (FdContext ς φ κ)
  pendingEventCount : Int
  log : List (Nat × Event × LogKind ς φ κ)

namespace IOManager

/-- The constructor. -/
def new : IOManager ς φ κ := { fdContexts := contextResize FdContext.new 32 [], pendingEventCount := 0, log := [] }

/-- Write back what a locked section did to the context of `fd`. -/
def commit {β : Type*} (m : IOManager ς φ κ) (fd : Int) (r : Locked ς φ κ β) : IOManager ς φ κ :=
  { fdContexts := m.fdContexts.set fd.toNat r.ctx
    pendingEventCount := m.pendingEventCount + r.pending
    log := r.log.map (fun l => (fd.toNat, l)) ++ m.log }

def addEvent (ctl : EpollCtl) (caller : Caller ς φ) (fd : Int) (event : Event) (cb : Option κ) (m : IOManager ς φ κ) :
    Except Fault (Int × IOManager ς φ κ) := do
  let (fdContexts, ctx) ← lookupGrow FdContext.new m.fdContexts fd
  let r ← ctx.addEvent ctl caller event cb
  pure (r.ret, commit { m with fdContexts := fdContexts } fd r)

def delEvent (ctl : EpollCtl) (fd : Int) (event : Event) (m : IOManager ς φ κ) :
    Except Fault (Bool × IOManager ς φ κ) := do
  match ← lookup m.fdContexts fd with
  | none => pure (false, m)
  | some ctx =>
    let r := ctx.delEvent ctl event
    pure (r.ret, m.commit fd r)

def cancelEvent (ctl : EpollCtl) (fd : Int) (event : Event) (m : IOManager ς φ κ) :
    Except Fault (Bool × IOManager ς φ κ) := do
  match ← lookup m.fdContexts fd with
  | none => pure (false, m)
  | some ctx =>
    let r ← ctx.cancelEvent ctl event
    pure (r.ret, m.commit fd r)

def cancelAll (ctl : EpollCtl) (fd : Int) (m : IOManager ς φ κ) : Except Fault (Bool × IOManager ς φ κ) := do
  match ← lookup m.fdContexts fd with
  | none => pure (false, m)
  | some ctx =>
    let r ← ctx.cancelAll ctl
    pure (r.ret, m.commit fd r)

/-- One turn of the loop of `idle`, for the context of `fd` and the bits reported for it. -/
def dispatch (ctl : EpollCtl) (fd : Int) (bits : EventMask) (m : IOManager ς φ κ) :
    Except Fault (Bool × IOManager ς φ κ) := do
  let ctx ← slot m.fdContexts fd
  let r ← ctx.dispatch ctl bits
  pure (r.ret, m.commit fd r)

/-- A call for a descriptor, or a turn of the loop of `idle`; the result says whether it succeeded. -/
def call (fd : Int) (m : IOManager ς φ κ) : LockedOp ς φ κ → Except Fault (Bool × IOManager ς φ κ)
  | .addEvent ctl caller event cb => (m.addEvent ctl caller fd event cb).map fun r => (r.1 == 0, r.2)
  | .delEvent ctl event => m.delEvent ctl fd event
  | .cancelEvent ctl event => m.cancelEvent ctl fd event
  | .cancelAll ctl => m.cancelAll ctl fd
  | .dispatch ctl bits => m.dispatch ctl fd bits

/-- The manager that the call leaves. -/
def run (fd : Int) (m : IOManager ς φ κ) (op : LockedOp ς φ κ) : Except Fault (IOManager ς φ κ) :=
  (m.call fd op).map Prod.snd

end IOManager

end Megalo
