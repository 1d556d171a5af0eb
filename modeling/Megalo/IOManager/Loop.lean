import Megalo.Lib.MachineInt
import Megalo.Scheduler.Basic
import Megalo.Timer.Due

/-!
# The threads of an `IOManager`

- `IOLoop n` is the threads of a `Scheduler n` with what `IOManager` adds: where each thread is in `IOManager::idle`
  (`IdlePc`), `m_idleThreadCount`, the unread bytes of the pipe that `tickle` writes to, the `TimerManager`,
  `m_pendingEventCount`, and the flags that `stop` sets;
- `ioLoopSys n` interleaves the steps of the scheduler with those of `idle` and with what other code does: it schedules,
  adds and changes timers, registers events, and stops. Every read of shared state, every critical section and every
  call of `tickle` is a step of its own.

`stopping` holds `m_mutex` while it reads `m_fibers` and then `m_activeThreadCount`. Which tasks an event triggers is
arbitrary, and so is when `epoll_wait` returns: a thread that waits may go on at any time, and with the pipe among its
events only when there is a byte in it. A deadline is reckoned from the reading of the clock in `getNextTimer`. A signal
may interrupt the wait, and then `idle` waits again with the same timeout, from that time on.
-/

namespace Megalo

open MachineInt

namespace Scheduler

variable {n : Nat}

/-- `tickle_me` behind the scan of a thread: an entry was skipped for its thread, or entries are left behind the one
that is taken. -/
def tickleMe (s : Scheduler n) (w : Fin n) : Bool :=
  let i := s.fibers.findIdx (s.takes w)
  (s.fibers.take i).any (fun ft => ft.thread.any (· ≠ w.val)) || i + 1 < s.fibers.length

/-- `schedule(begin, end)` of callbacks; those that are null are dropped. -/
def scheduleCbs (s : Scheduler n) : List (Option Nat) → Scheduler n
  | [] => s
  | some c :: cbs => (s.schedule (.cb c) none).scheduleCbs cbs
  | none :: cbs => s.scheduleCbs cbs

end Scheduler

/-! ## `idle` -/

/-- What `epoll_wait` is asked for: to return at once, to wait until the time `d`, with the timeout that leads there, or
to wait for an event only. -/
inductive Wait
  | poll
  | deadline (d timeout : Nat)
  | forever
  deriving DecidableEq

/-- The timeout of `epoll_wait` for what `getNextTimer` returned: at most `MAX_TIMEOUT`, as an `int`. -/
def epollTimeout (timeout : UInt64) : Int :=
  if timeout = ~~~0 then 1000 else if 1000 < intSize timeout.toNat then 1000 else intSize timeout.toNat

/-- The wait that `getNextTimer` at the time `now` leads to. -/
def Wait.after (now timeout : UInt64) : Wait :=
  if epollTimeout timeout < 0 then .forever
  else if epollTimeout timeout = 0 then .poll
  else .deadline (now.toNat + (epollTimeout timeout).toNat) (epollTimeout timeout).toNat

/-- The wait once more, from the time `now` on: the timeout is that of the first one. -/
def Wait.again (now : UInt64) : Wait → Wait
  | .deadline _ timeout => .deadline (now.toNat + timeout) timeout
  | wait => wait

/-- What `stopping` reads next, once `getNextTimer` has found no timer. -/
inductive Reading
  | pending
  | queue
  | active
  deriving DecidableEq

/-- Where an idle fiber is: about to call `getNextTimer`; in `stopping`; about to call `epoll_wait`; in it; about to
call `listExpiredCb`, with the pipe among its events or not; about to schedule what expired; in the loop over the
events; about to call `swapOut`. -/
inductive IdlePc
  | top
  | stopping (reading : Reading) (wait : Wait)
  | wait (wait : Wait)
  | blocked (wait : Wait)
  | woken (tickled : Bool)
  | expired (cbs : List (Option Nat)) (tickled : Bool)
  | events (tickled : Bool)
  | leave
  deriving DecidableEq

/-- The thread in `stopping`: one in its idle fiber, or the one that calls `stop`. -/
abbrev Evaluator (n : Nat) := Option (Fin n)

/-- What a read of `stopping` leads to. -/
inductive Answer
  | next (reading : Reading)
  | returns (b : Bool)
  deriving DecidableEq

/-- The threads of an `IOManager`. A thread owes a call of `tickle` between the scan or the push that asks for it and
the call; other threads that do so are counted, apart for `schedule` and for `onTimerInsertAtFront`. -/
structure IOLoop (n : Nat) where
  sched : Scheduler n
  owes : Fin n → Bool
  idler : Fin n → IdlePc
  stopper : Option Reading
  idleThreadCount : Nat
  scheduling : Nat
  inserting : Nat
  pipe : Nat
  timers : TimerManager Nat
  pendingEventCount : Nat
  mutex : Option (Evaluator n)
  autoStop : Bool
  stopping : Bool

namespace IOLoop

variable {n : Nat}

/-- All threads enter `run`. -/
def new (n : Nat) (mem : Nat → Timer Nat) (now : UInt64) : IOLoop n where
  sched := .new n
  owes _ := false
  idler _ := .top
  stopper := none
  idleThreadCount := 0
  scheduling := 0
  inserting := 0
  pipe := 0
  timers := .new mem now
  pendingEventCount := 0
  mutex := none
  autoStop := false
  stopping := false

def setIdler (s : IOLoop n) (w : Fin n) (pc : IdlePc) : IOLoop n := { s with idler := Function.update s.idler w pc }

/-- The thread owes a call of `tickle`, or none. -/
def owe (s : IOLoop n) (w : Fin n) (b : Bool) : IOLoop n := { s with owes := Function.update s.owes w b }

/-- `IOManager::tickle`. -/
def tickle (s : IOLoop n) : IOLoop n := if s.idleThreadCount = 0 then s else { s with pipe := s.pipe + 1 }

/-- A step of the scheduler. -/
def run (s : IOLoop n) (a : Scheduler.Label n) : Option (IOLoop n) :=
  ((schedSys n).step s.sched a).map fun sched => { s with sched }

/-- A step of a thread in `run`: it calls `tickle` first when it owes it, and the scan and `schedule` take the mutex. -/
def advance (s : IOLoop n) (w : Fin n) : Option (IOLoop n) :=
  if s.owes w then none
  else match (s.sched.workers w).pc with
    | .scan => if s.mutex.isSome then none else (s.run (.advance w)).map (·.owe w (s.sched.tickleMe w))
    | .on .schedule _ _ => if s.mutex.isSome then none else (s.run (.advance w)).map (·.owe w s.sched.fibers.isEmpty)
    | .nothing =>
      (s.run (.advance w)).map fun t =>
        { t with idleThreadCount := t.idleThreadCount + if (t.sched.workers w).pc = .idling then 1 else 0 }
    | _ => s.run (.advance w)

/-- `schedule`, called by other code: the thread that calls it owes a call of `tickle` when `m_fibers` was empty. -/
def push (s : IOLoop n) (a : Scheduler.Label n) : Option (IOLoop n) :=
  if s.mutex.isSome then none
  else (s.run a).map fun t => { t with scheduling := t.scheduling + if s.sched.fibers.isEmpty then 1 else 0 }

/-- A step of the scheduler, or of the code around it. The idle fibers are not left to it. -/
def schedStep (s : IOLoop n) (a : Scheduler.Label n) : Option (IOLoop n) :=
  match a with
  | .advance w => s.advance w
  | .scheduleFiber f thread => s.push (.scheduleFiber f thread)
  | .scheduleCb c thread => s.push (.scheduleCb c thread)
  | .idleOutcome _ _ => none
  | .outcome w o => s.run (.outcome w o)
  | .newFiber cb => s.run (.newFiber cb)
  | .keep w => s.run (.keep w)
  | .release f => s.run (.release f)
  | .destroy f => s.run (.destroy f)

/-- The idle fiber hands its thread back, and `m_idleThreadCount` is decremented. -/
def leaveIdle (s : IOLoop n) (w : Fin n) (returns : Bool) : Option (IOLoop n) :=
  (s.run (.idleOutcome w returns)).map fun t => { t.setIdler w .top with idleThreadCount := t.idleThreadCount - 1 }

/-- `getNextTimer` at the time `now`, and what `stopping` and `idle` make of its result. -/
def getNextTimer (s : IOLoop n) (now : UInt64) : IOLoop n × IdlePc :=
  let r := s.timers.getNextTimer now
  ({ s with timers := r.2 },
    if r.1 = ~~~0 then .stopping .pending (.after now r.1) else .wait (.after now r.1))

/-- One read of `stopping`. -/
def read (s : IOLoop n) (e : Evaluator n) : Reading → Option (IOLoop n × Answer)
  | .pending => some (s, if s.pendingEventCount = 0 then .next .queue else .returns false)
  | .queue =>
    if s.mutex.isSome then none
    else if s.autoStop && s.stopping && s.sched.fibers.isEmpty then some ({ s with mutex := some e }, .next .active)
    else some (s, .returns false)
  | .active => some ({ s with mutex := none }, .returns (s.sched.activeThreadCount = 0))

/-- What `idle` does with the answer of `stopping`. -/
def afterRead (w : Fin n) (wait : Wait) : IOLoop n × Answer → Option (IOLoop n)
  | (s, .next reading) => some (s.setIdler w (.stopping reading wait))
  | (s, .returns false) => some (s.setIdler w (.wait wait))
  | (s, .returns true) => s.leaveIdle w true

/-- `listExpiredCb`. -/
def listExpired (s : IOLoop n) (w : Fin n) (now : UInt64) (key : Nat) (tickled : Bool) : Option (IOLoop n) :=
  if s.timers.live key then none
  else (s.timers.listExpiredCb now key).toOption.map fun r =>
    { s with timers := r.2 }.setIdler w (.expired r.1 tickled)

/-- The next step of a thread in its idle fiber; `now` is what the clock says, and `key` the address of the timer that
`listExpiredCb` searches with. -/
def idle (s : IOLoop n) (w : Fin n) (now : UInt64) (key : Nat) : Option (IOLoop n) :=
  if s.owes w || (s.sched.workers w).pc ≠ .idling then none
  else match s.idler w with
    | .top => some ((s.getNextTimer now).1.setIdler w (s.getNextTimer now).2)
    | .stopping reading wait => (s.read (some w) reading).bind (afterRead w wait)
    | .wait .poll => none
    | .wait wait => some (s.setIdler w (.blocked wait))
    | .blocked _ => none
    | .woken tickled => s.listExpired w now key tickled
    | .expired [] tickled => some (s.setIdler w (.events tickled))
    | .expired cbs tickled =>
      if s.mutex.isSome then none
      else some (({ s with sched := s.sched.scheduleCbs cbs }.owe w s.sched.fibers.isEmpty).setIdler w
        (.events tickled))
    | .events true => some ({ s with pipe := 0 }.setIdler w (.events false))
    | .events false => some (s.setIdler w .leave)
    | .leave => s.leaveIdle w false

/-- `epoll_wait` returns. -/
def wake (s : IOLoop n) (w : Fin n) (tickled : Bool) : Option (IOLoop n) :=
  if tickled && s.pipe = 0 then none
  else match s.idler w with
    | .wait .poll | .blocked _ => some (s.setIdler w (.woken tickled))
    | _ => none

/-- A signal interrupts `epoll_wait` at the time `now`: it returns `EINTR`, and `idle` calls it again. -/
def interrupt (s : IOLoop n) (w : Fin n) (now : UInt64) : Option (IOLoop n) :=
  match s.idler w with
  | .blocked wait => some (s.setIdler w (.blocked (wait.again now)))
  | _ => none

/-- `triggerEvent` in the loop over the events: the fiber or the callback of the context is scheduled. -/
def trigger (s : IOLoop n) (w : Fin n) (task : Task Nat Nat) : Option (IOLoop n) :=
  if s.owes w || s.mutex.isSome then none
  else match s.idler w with
    | .events _ =>
      (s.run (match task with
        | .fiber f => .scheduleFiber f none
        | .cb c => .scheduleCb c none)).map (·.owe w s.sched.fibers.isEmpty)
    | _ => none

/-- A call of other code on the timers. -/
def timer (s : IOLoop n) (op : TimerOp Nat) : Option (IOLoop n) :=
  if op.ByUser = true ∧ op.Enabled s.timers then
    (op.run s.timers).toOption.map fun timers =>
      { s with timers, inserting := s.inserting + if op.atFront s.timers then 1 else 0 }
  else none

/-- The next step of the thread that calls `stop`, in `stopping`. -/
def evaluate (s : IOLoop n) (now : UInt64) : Option (IOLoop n) :=
  match s.stopper with
  | none =>
    some { (s.getNextTimer now).1 with
      stopper := match (s.getNextTimer now).2 with
        | .stopping reading _ => some reading
        | _ => none }
  | some reading =>
    (s.read none reading).map fun r =>
      { r.1 with stopper := match r.2 with
        | .next reading => some reading
        | .returns _ => none }

/-- A step of a thread or of other code. -/
inductive Label (n : Nat)
  | sched (a : Scheduler.Label n)
  | tickle (w : Fin n)
  | tickleScheduled
  | tickleInserted
  | tickleStop
  | idle (w : Fin n) (now : UInt64) (key : Nat)
  | wake (w : Fin n) (tickled : Bool)
  | interrupt (w : Fin n) (now : UInt64)
  | trigger (w : Fin n) (task : Task Nat Nat)
  | timer (op : TimerOp Nat)
  | addEvent
  | removeEvent
  | setAutoStop
  | setStopping
  | evaluate (now : UInt64)

/-- The step of each label, when it is enabled. -/
def step (s : IOLoop n) : Label n → Option (IOLoop n)
  | .sched a => s.schedStep a
  | .tickle w => if s.owes w then some (s.tickle.owe w false) else none
  | .tickleScheduled =>
    if s.scheduling = 0 then none else some { s.tickle with scheduling := s.scheduling - 1 }
  | .tickleInserted => if s.inserting = 0 then none else some { s.tickle with inserting := s.inserting - 1 }
  | .tickleStop => some s.tickle
  | .idle w now key => s.idle w now key
  | .wake w tickled => s.wake w tickled
  | .interrupt w now => s.interrupt w now
  | .trigger w task => s.trigger w task
  | .timer op => s.timer op
  | .addEvent => some { s with pendingEventCount := s.pendingEventCount + 1 }
  | .removeEvent =>
    if s.pendingEventCount = 0 then none else some { s with pendingEventCount := s.pendingEventCount - 1 }
  | .setAutoStop => some { s with autoStop := true }
  | .setStopping => some { s with stopping := true }
  | .evaluate now => s.evaluate now

end IOLoop

/-- The threads of an `IOManager`, until an assertion fails. -/
def ioLoopSys (n : Nat) : Transition.Sys (IOLoop n) (IOLoop.Label n) where
  init s := ∃ mem now, s = .new n mem now
  step s a := if s.sched.failed = none then s.step a else none

end Megalo
