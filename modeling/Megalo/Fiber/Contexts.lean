import Megalo.Scheduler.Basic

/-!
# Contexts of fibers

- `Contexts n` is `n` threads with their thread locals, and the fibers with the contexts they hold; `running` is the
  stack that a thread executes on, and `frames` the locals of `MainFunc` and `CalllerMainFunc` on the stacks of fibers.
- `setcontext` goes on where a context was saved: at the start of one of these functions, or on the stack that
  `swapcontext` was called on. A context that `getcontext` left in the constructor of a main fiber leads nowhere.
- `FiberOp` is what code does to fibers, and `Contexts.step` what that does to the state.

A switch is one step here: what other threads see between the change of a state and the switch is another matter. The
object of a main fiber is named by its thread, as a thread makes no second one.
-/

namespace Megalo

/-- A stack, and the fiber it belongs to: that of a thread itself, or that of a fiber. -/
inductive Flow (n : Nat)
  | thread (w : Fin n)
  | fiber (f : Nat)
  deriving DecidableEq

/-- What `m_ctx` holds: what `getcontext` left, the start of a function on the stack of the fiber, or the place of a
`swapcontext` on a stack. -/
inductive SavedContext (n : Nat)
  | constructor
  | entry (useCaller : Bool)
  | switched (flow : Flow n)
  deriving DecidableEq

/-- A `Fiber`. -/
structure FiberObject (n : Nat) where
  id : Nat
  state : FiberState
  stack : Bool
  cb : Option Nat
  ctx : SavedContext n

/-- The locals of `MainFunc` or `CalllerMainFunc`, and whether it came to its last switch. -/
structure MainFrame (n : Nat) where
  cur : Flow n
  useCaller : Bool
  ended : Bool

/-- What stops the program: an assertion, a null pointer, or a context that was never saved. -/
inductive ContextFault
  | reset
  | swapIn
  | call
  | yield
  | neverReach
  | null
  | stale
  deriving DecidableEq

/-- The threads and the fibers. -/
structure Contexts (n : Nat) where
  fibers : Flow n → FiberObject n
  count : Nat
  fiberId : Nat
  tFiber : Fin n → Option (Flow n)
  tThreadFiber : Fin n → Option (Flow n)
  tSchedulerFiber : Fin n → Option (Flow n)
  running : Fin n → Flow n
  frames : Nat → MainFrame n

namespace Contexts

variable {n : Nat}

/-- Threads without fibers. -/
def new (n : Nat) : Contexts n where
  fibers _ := { id := 0, state := .init, stack := false, cb := none, ctx := .constructor }
  count := 0
  fiberId := 0
  tFiber _ := none
  tThreadFiber _ := none
  tSchedulerFiber _ := none
  running := .thread
  frames f := { cur := .fiber f, useCaller := false, ended := false }

variable (s : Contexts n) (w : Fin n) (f : Flow n)

def setFiber (o : FiberObject n) : Contexts n := { s with fibers := Function.update s.fibers f o }

variable {s f} in
theorem setFiber_same {o : FiberObject n} : (s.setFiber f o).fibers f = o := Function.update_self _ _ _

variable {s f} in
theorem setFiber_other {o : FiberObject n} {g : Flow n} (h : g ≠ f) : (s.setFiber f o).fibers g = s.fibers g :=
  Function.update_of_ne h _ _

def setState (state : FiberState) : Contexts n := s.setFiber f { s.fibers f with state }

/-- `SetThis`. -/
def setThis : Contexts n := { s with tFiber := Function.update s.tFiber w (some f) }

/-- `GetThis`: a thread without a fiber makes its main fiber. -/
def getThis : Contexts n × Flow n :=
  match s.tFiber w with
  | some f => (s, f)
  | none =>
    let made := s.setFiber (.thread w) { id := 0, state := .exec, stack := false, cb := none, ctx := .constructor }
    ({ made.setThis w (.thread w) with tThreadFiber := Function.update s.tThreadFiber w (some (.thread w)) }, .thread w)

/-- `GetFiberId`. -/
def getFiberId : Nat := ((s.tFiber w).map fun f => (s.fibers f).id).getD 0

/-- The constructor of a fiber with a stack. -/
def newFiber (cb : Option Nat) (useCaller : Bool) : Contexts n :=
  { s.setFiber (.fiber s.count) { id := s.fiberId + 1, state := .init, stack := true, cb, ctx := .entry useCaller } with
    count := s.count + 1, fiberId := s.fiberId + 1 }

/-- `reset`. -/
def reset (cb : Option Nat) : Except ContextFault (Contexts n) :=
  let o := s.fibers f
  if o.stack = true ∧ (o.state = .term ∨ o.state = .init) then
    .ok (s.setFiber f { o with cb, ctx := .entry false, state := .init })
  else .error .reset

/-- A context is loaded; at the start of `MainFunc`, `GetThis` is called. -/
def setcontext : Except ContextFault (Contexts n) :=
  match (s.fibers f).ctx with
  | .constructor => .error .stale
  | .entry useCaller =>
    let (t, cur) := s.getThis w
    match f with
    | .thread _ => .error .stale
    | .fiber g =>
      .ok { t with
        running := Function.update s.running w (.fiber g)
        frames := Function.update s.frames g { cur, useCaller, ended := false } }
  | .switched (.thread v) => .ok { s with running := Function.update s.running w (.thread v) }
  | .switched (.fiber g) =>
    if (s.frames g).ended = true then .error .neverReach
    else .ok { s with running := Function.update s.running w (.fiber g) }

/-- `swapcontext(&from->m_ctx, &to->m_ctx)`. -/
def swapcontext (source target : Flow n) : Except ContextFault (Contexts n) :=
  (s.setFiber source { s.fibers source with ctx := .switched (s.running w) }).setcontext w target

/-- `swapIn`. -/
def swapIn : Except ContextFault (Contexts n) :=
  if (s.fibers f).state = .exec then .error .swapIn
  else
    match s.tSchedulerFiber w with
    | none => .error .null
    | some main => ((s.setThis w f).setState f .exec).swapcontext w main f

/-- `swapOut`. -/
def swapOut : Except ContextFault (Contexts n) :=
  match s.tSchedulerFiber w with
  | none => .error .null
  | some main => (s.setThis w main).swapcontext w f main

/-- `call`. -/
def call : Except ContextFault (Contexts n) :=
  if (s.fibers f).state = .exec then .error .call
  else
    match s.tThreadFiber w with
    | none => .error .null
    | some own => ((s.setThis w f).setState f .exec).swapcontext w own f

/-- `back`. -/
def back : Except ContextFault (Contexts n) :=
  match s.tThreadFiber w with
  | none => .error .null
  | some own => (s.setThis w own).swapcontext w f own

/-- `YieldToReady` and `YieldToHold`. -/
def yield (ready : Bool) : Except ContextFault (Contexts n) :=
  let (t, cur) := s.getThis w
  if (t.fibers cur).state = .exec then (t.setState cur (if ready then .ready else .hold)).swapOut w cur
  else .error .yield

/-- The rest of `MainFunc` or `CalllerMainFunc`, when `m_cb` returned or threw. -/
def finish (returns : Bool) : Option (Except ContextFault (Contexts n)) :=
  match s.running w with
  | .thread _ => none
  | .fiber f =>
    let frame := s.frames f
    let o := s.fibers frame.cur
    let o' := if returns then { o with cb := none, state := .term } else { o with state := .except }
    let t := { s.setFiber frame.cur o' with frames := Function.update s.frames f { frame with ended := true } }
    some (if frame.useCaller then t.back w frame.cur else t.swapOut w frame.cur)

/-- The beginning of `Scheduler::run` on a thread that is not the root thread. -/
def run : Contexts n :=
  let (t, cur) := s.getThis w
  { t with tSchedulerFiber := Function.update s.tSchedulerFiber w (some cur) }

/-- `Scheduler::Scheduler` with `use_caller`: the root fiber is made. -/
def construct (cb : Option Nat) : Contexts n :=
  let t := (s.getThis w).1
  { t.newFiber cb true with tSchedulerFiber := Function.update s.tSchedulerFiber w (some (.fiber s.count)) }

end Contexts

/-- What code does to fibers. -/
inductive FiberOp (n : Nat)
  | getThis (w : Fin n)
  | new (cb : Option Nat)
  | reset (f : Nat) (cb : Option Nat)
  | run (w : Fin n)
  | construct (w : Fin n) (cb : Option Nat)
  | swapIn (w : Fin n) (f : Nat)
  | call (w : Fin n) (f : Nat)
  | yield (w : Fin n) (ready : Bool)
  | finish (w : Fin n) (returns : Bool)

/-- One step; `none` when the thread has nothing to finish. -/
def Contexts.step {n : Nat} (s : Contexts n) : FiberOp n → Option (Except ContextFault (Contexts n))
  | .getThis w => some (.ok (s.getThis w).1)
  | .new cb => some (.ok (s.newFiber cb false))
  | .reset f cb => some (s.reset (.fiber f) cb)
  | .run w => some (.ok (s.run w))
  | .construct w cb => some (.ok (s.construct w cb))
  | .swapIn w f => some (s.swapIn w (.fiber f))
  | .call w f => some (s.call w (.fiber f))
  | .yield w ready => some (s.yield w ready)
  | .finish w returns => s.finish w returns

end Megalo
