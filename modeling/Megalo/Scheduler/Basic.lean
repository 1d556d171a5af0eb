import Megalo.Lib.System
import Mathlib.Logic.Function.Basic
import Mathlib.Data.Fintype.Basic

/-!
# `Scheduler` and `Fiber`

- `Fiber` is a fiber with the state its assertions test, and `Fiber.reset`, `swapIn`, `leave`, `swapOut` and `destroy`
  are what the source does to it.
- `Scheduler n` is `n` threads in `Scheduler::run`, the list `m_fibers` they take from, and all fibers. A thread makes
  one step at a time (`Scheduler.advance`): the scan of `m_fibers` is one step, as the mutex is held, and so is every
  access of a fiber's state outside the mutex.
- `schedSys n` interleaves these steps with the outcomes of the tasks, and with what code outside the scheduler does:
  it makes fibers, keeps and drops pointers to them, and schedules fibers and callbacks at any time.
- `Stepped` lists the ways a step is taken, and every step is one of them (`step_cases`): what a step keeps is proved by
  cases on it.

A failed assertion ends the process: no step is enabled after it.
-/

namespace Megalo

/-- What a scheduler is given. -/
inductive Task (φ κ : Type*)
  | fiber (f : φ)
  | cb (c : κ)
  deriving DecidableEq

/-! ## Fibers -/

/-- `Fiber::State`. -/
inductive FiberState
  | init
  | hold
  | exec
  | term
  | ready
  | except
  deriving DecidableEq

/-- The assertions of `Fiber`. -/
inductive FiberAssertion
  | reset
  | swapIn
  | yield
  | destructor
  deriving DecidableEq

/-- How the code a fiber runs hands the thread back. -/
inductive Outcome
  | returns
  | throwsException
  | throwsOther
  | yieldToReady
  | yieldToHold
  deriving DecidableEq

/-- The outcome is a throw. -/
def Outcome.isThrow : Outcome → Bool
  | throwsException | throwsOther => true
  | _ => false

/-- `m_state`, `m_cb`, whether `m_ctx` is where the fiber last left off, whether its own stack keeps a pointer to it
(`cur` in `MainFunc`), whether something outside the scheduler keeps one, and whether it is destroyed. -/
structure Fiber where
  state : FiberState
  cb : Option Nat
  saved : Bool
  cur : Bool
  outside : Bool
  destroyed : Bool

namespace Fiber

/-- `Fiber(cb)`. -/
def new (cb : Option Nat) (outside : Bool) : Fiber :=
  { state := .init, cb, saved := true, cur := false, outside, destroyed := false }

/-- `Fiber::reset`. -/
def reset (fiber : Fiber) (cb : Option Nat) : Except FiberAssertion Fiber :=
  if fiber.state = .term ∨ fiber.state = .init then .ok { fiber with cb, saved := true, state := .init }
  else .error .reset

/-- `Fiber::swapIn`: the fiber goes on from `m_ctx`. -/
def swapIn (fiber : Fiber) : Except FiberAssertion Fiber :=
  if fiber.state ≠ .exec then .ok { fiber with state := .exec, saved := false, cur := true } else .error .swapIn

/-- What `YieldToReady`, `YieldToHold` and `MainFunc` write before they call `swapOut`. -/
def leave (fiber : Fiber) : Outcome → Except FiberAssertion Fiber
  | .returns => .ok { fiber with cb := none, state := .term, cur := false }
  | .throwsException | .throwsOther => .ok { fiber with state := .except, cur := false }
  | .yieldToReady => if fiber.state = .exec then .ok { fiber with state := .ready } else .error .yield
  | .yieldToHold => if fiber.state = .exec then .ok { fiber with state := .hold } else .error .yield

/-- `Fiber::swapOut`: the context is saved. -/
def swapOut (fiber : Fiber) : Fiber := { fiber with saved := true }

/-- `~Fiber`. -/
def destroy (fiber : Fiber) : Except FiberAssertion Fiber :=
  if fiber.state = .init ∨ fiber.state = .term then .ok { fiber with destroyed := true } else .error .destructor

end Fiber

/-! ## Threads in `run` -/

/-- `Scheduler::FiberAndThread`; no thread is `-1`. -/
structure FiberAndThread where
  task : Task Nat Nat
  thread : Option Nat

/-- Which branch of `run` switches to a fiber. -/
inductive Branch
  | fiber
  | cb
  deriving DecidableEq

/-- Where a thread is with the fiber it switches to: about to call `swapIn`; running it; in `swapOut`, after the new
state is written; back in `run`; about to read the state, to schedule the fiber again, to write `HOLD`, or to call
`reset(nullptr)`. -/
inductive Phase
  | swapIn
  | running
  | swapOut
  | back
  | settle
  | schedule
  | hold
  | resetNull
  deriving DecidableEq

/-- Where a thread is: at the scan, with a task it has taken, in some phase of a branch, after a scan that found
nothing, in its idle fiber, or out of the loop. -/
inductive Pc
  | scan
  | taken (task : Task Nat Nat)
  | on (phase : Phase) (branch : Branch) (f : Nat)
  | nothing
  | idling
  | exited
  deriving DecidableEq

/-- Where the state of the fiber, read after `swapIn`, makes a branch go on. -/
def Pc.afterSwapIn (branch : Branch) (f : Nat) : FiberState → Pc
  | .ready => .on .schedule branch f
  | .term | .except =>
    match branch with
    | .fiber => .scan
    | .cb => .on .resetNull .cb f
  | .init | .hold | .exec => .on .hold branch f

/-- A thread in `run`: where it is, `cb_fiber`, and the state of `idle_fiber`. -/
structure Worker where
  pc : Pc
  cbFiber : Option Nat
  idle : FiberState

namespace Worker

/-- At the start of `run`. -/
def new : Worker := { pc := .scan, cbFiber := none, idle := .init }

/-- The fiber that a task makes the thread switch to: for a callback the cached one, when there is one. -/
def target (wk : Worker) : Task Nat Nat → Option Nat
  | .fiber f => some f
  | .cb _ => wk.cbFiber

/-- The fiber the thread is engaged with, from the scan that takes the task to the end of its work after `swapIn`. -/
def engaged (wk : Worker) : Option Nat :=
  match wk.pc with
  | .taken task => wk.target task
  | .on _ _ f => some f
  | _ => none

/-- The thread has a pointer to the fiber, in `ft` or `cb_fiber`. -/
def Refers (wk : Worker) (f : Nat) : Prop := wk.engaged = some f ∨ wk.cbFiber = some f

instance (wk : Worker) (f : Nat) : Decidable (wk.Refers f) :=
  inferInstanceAs (Decidable (wk.engaged = some f ∨ wk.cbFiber = some f))

end Worker

/-- `n` threads in `run`, `m_fibers`, `m_activeThreadCount`, the fibers, how many were made, and the assertion that
failed. -/
structure Scheduler (n : Nat) where
  workers : Fin n → Worker
  fibers : List FiberAndThread
  activeThreadCount : Nat
  heap : Nat → Fiber
  count : Nat
  failed : Option FiberAssertion

namespace Scheduler

variable {n : Nat}

/-- Nothing is scheduled, and every thread enters `run`. -/
def new (n : Nat) : Scheduler n where
  workers _ := .new
  fibers := []
  activeThreadCount := 0
  heap _ := .new none false
  count := 0
  failed := none

def setWorker (s : Scheduler n) (w : Fin n) (wk : Worker) : Scheduler n :=
  { s with workers := Function.update s.workers w wk }

/-- The thread goes on to another place. -/
def goto (s : Scheduler n) (w : Fin n) (pc : Pc) : Scheduler n := s.setWorker w { s.workers w with pc }

def setFiber (s : Scheduler n) (f : Nat) (fiber : Fiber) : Scheduler n :=
  { s with heap := Function.update s.heap f fiber }

/-- A call that asserts: its result is stored and the thread goes on to `pc`, or the process ends. -/
def store (s : Scheduler n) (w : Fin n) (f : Nat) (pc : Pc) : Except FiberAssertion Fiber → Scheduler n
  | .ok fiber => (s.setFiber f fiber).goto w pc
  | .error a => { s with failed := some a }

/-- `schedule`: `m_fibers.push_back`. -/
def schedule (s : Scheduler n) (task : Task Nat Nat) (thread : Option Nat) : Scheduler n :=
  { s with fibers := s.fibers ++ [{ task, thread }] }

/-- The scan of thread `w` does not skip the entry: it is not for another thread, and its fiber is not `EXEC`. -/
def takes (s : Scheduler n) (w : Fin n) (ft : FiberAndThread) : Bool :=
  (ft.thread.all fun k : Nat => k = w.val) &&
    match ft.task with
    | .fiber f => (s.heap f).state ≠ .exec
    | .cb _ => true

/-- The entry that thread `w` takes. -/
def next (s : Scheduler n) (w : Fin n) : Option FiberAndThread := s.fibers.find? (s.takes w)

/-- The scan: the first entry that is not skipped is erased and the thread is active. -/
def scan (s : Scheduler n) (w : Fin n) : Scheduler n :=
  match s.next w with
  | some ft =>
    { s.goto w (.taken ft.task) with
      fibers := s.fibers.eraseP (s.takes w), activeThreadCount := s.activeThreadCount + 1 }
  | none => s.goto w .nothing

/-- The branches of `run` for a task: up to the call of `swapIn`. -/
def branch (s : Scheduler n) (w : Fin n) : Task Nat Nat → Scheduler n
  | .fiber f =>
    if (s.heap f).state ≠ .term ∧ (s.heap f).state ≠ .except then s.goto w (.on .swapIn .fiber f)
    else { s.goto w .scan with activeThreadCount := s.activeThreadCount - 1 }
  | .cb c =>
    match (s.workers w).cbFiber with
    | some f => s.store w f (.on .swapIn .cb f) ((s.heap f).reset (some c))
    | none =>
      { (s.setFiber s.count (.new (some c) false)).setWorker w
          { s.workers w with pc := .on .swapIn .cb s.count, cbFiber := some s.count } with
        count := s.count + 1 }

/-- What follows in each phase. The code that the fiber runs is not the scheduler's (`outcome`). -/
def proceed (s : Scheduler n) (w : Fin n) (branch : Branch) (f : Nat) : Phase → Option (Scheduler n)
  | .swapIn => some (s.store w f (.on .running branch f) (s.heap f).swapIn)
  | .running => none
  | .swapOut => some (s.store w f (.on .back branch f) (.ok (s.heap f).swapOut))
  | .back => some { s.goto w (.on .settle branch f) with activeThreadCount := s.activeThreadCount - 1 }
  | .settle => some (s.goto w (.afterSwapIn branch f (s.heap f).state))
  | .schedule => some ((s.schedule (.fiber f) none).goto w .scan)
  | .hold =>
    some ((s.setFiber f { s.heap f with state := .hold }).setWorker w
      { s.workers w with
        pc := .scan
        cbFiber := match branch with
          | .fiber => (s.workers w).cbFiber
          | .cb => none })
  | .resetNull => some (s.store w f .scan ((s.heap f).reset none))

/-- After a scan that found nothing: the loop ends when the idle fiber has ended, or the thread runs it. -/
def idle (s : Scheduler n) (w : Fin n) : Scheduler n :=
  if (s.workers w).idle = .term then s.setWorker w { s.workers w with pc := .exited, cbFiber := none }
  else if (s.workers w).idle ≠ .exec then s.setWorker w { s.workers w with pc := .idling, idle := .exec }
  else { s with failed := some .swapIn }

/-- The next step of a thread. -/
def advance (s : Scheduler n) (w : Fin n) : Option (Scheduler n) :=
  match (s.workers w).pc with
  | .scan => some (s.scan w)
  | .taken task => some (s.branch w task)
  | .on phase branch f => s.proceed w branch f phase
  | .nothing => some (s.idle w)
  | .idling | .exited => none

/-- The code of a task hands the thread back. A fiber with no `m_cb` throws `std::bad_function_call`. -/
def outcome (s : Scheduler n) (w : Fin n) (o : Outcome) : Option (Scheduler n) :=
  match (s.workers w).pc with
  | .on .running branch f =>
    if (s.heap f).cb.isSome ∨ o = .throwsException then
      some (s.store w f (.on .swapOut branch f) ((s.heap f).leave o))
    else none
  | _ => none

/-- The idle fiber of a thread returns, or hands the thread back, and `run` writes `HOLD`. -/
def idleOutcome (s : Scheduler n) (w : Fin n) (returns : Bool) : Option (Scheduler n) :=
  match (s.workers w).pc with
  | .idling => some (s.setWorker w { s.workers w with pc := .scan, idle := if returns then .term else .hold })
  | _ => none

/-! ## Code outside the scheduler -/

/-- `new Fiber(cb)`. -/
def newFiber (s : Scheduler n) (cb : Nat) : Scheduler n :=
  { s.setFiber s.count (.new (some cb) true) with count := s.count + 1 }

/-- The fiber has an owner: a pointer outside, on its own stack, in `m_fibers`, or of a thread. -/
def Owned (s : Scheduler n) (f : Nat) : Prop :=
  (s.heap f).outside = true ∨ (s.heap f).cur = true ∨
    (s.fibers.any fun ft => match ft.task with
      | .fiber g => g = f
      | .cb _ => false) = true ∨
    ∃ w, (s.workers w).Refers f

instance (s : Scheduler n) (f : Nat) : Decidable (s.Owned f) := inferInstanceAs (Decidable (_ ∨ _ ∨ _ ∨ _))

/-- A step of a thread or of other code. -/
inductive Label (n : Nat)
  | advance (w : Fin n)
  | outcome (w : Fin n) (o : Outcome)
  | idleOutcome (w : Fin n) (returns : Bool)
  | newFiber (cb : Nat)
  | keep (w : Fin n)
  | release (f : Nat)
  | scheduleFiber (f : Nat) (thread : Option Nat)
  | scheduleCb (c : Nat) (thread : Option Nat)
  | destroy (f : Nat)

/-- The step of each label, when it is enabled. -/
def step (s : Scheduler n) : Label n → Option (Scheduler n)
  | .advance w => s.advance w
  | .outcome w o => s.outcome w o
  | .idleOutcome w returns => s.idleOutcome w returns
  | .newFiber cb => some (s.newFiber cb)
  | .keep w =>
    -- `Fiber::GetThis()` in the code of a task, as in `addEvent` and the hooks
    match (s.workers w).pc with
    | .on .running _ f => some (s.setFiber f { s.heap f with outside := true })
    | _ => none
  | .release f => some (s.setFiber f { s.heap f with outside := false })
  | .scheduleFiber f thread => if f < s.count ∧ (s.heap f).outside then some (s.schedule (.fiber f) thread) else none
  | .scheduleCb c thread => some (s.schedule (.cb c) thread)
  | .destroy f =>
    if f < s.count ∧ (s.heap f).destroyed = false ∧ ¬ s.Owned f then
      some (match (s.heap f).destroy with
        | .ok fiber => s.setFiber f fiber
        | .error a => { s with failed := some a })
    else none

/-! ## What a step is -/

/-- The ways a step is taken, each with what enables it. -/
inductive Stepped (s : Scheduler n) : Label n → Scheduler n → Prop
  | scan {w} (hpc : (s.workers w).pc = .scan) : Stepped s (.advance w) (s.scan w)
  | branch {w task} (hpc : (s.workers w).pc = .taken task) : Stepped s (.advance w) (s.branch w task)
  | proceed {w phase branch f t} (hpc : (s.workers w).pc = .on phase branch f)
      (ht : s.proceed w branch f phase = some t) : Stepped s (.advance w) t
  | idle {w} (hpc : (s.workers w).pc = .nothing) : Stepped s (.advance w) (s.idle w)
  | outcome {w branch f o} (hpc : (s.workers w).pc = .on .running branch f)
      (ho : (s.heap f).cb.isSome ∨ o = .throwsException) :
      Stepped s (.outcome w o) (s.store w f (.on .swapOut branch f) ((s.heap f).leave o))
  | idleOutcome {w returns} (hpc : (s.workers w).pc = .idling) :
      Stepped s (.idleOutcome w returns)
        (s.setWorker w { s.workers w with pc := .scan, idle := if returns then .term else .hold })
  | newFiber {cb} : Stepped s (.newFiber cb) (s.newFiber cb)
  | keep {w branch f} (hpc : (s.workers w).pc = .on .running branch f) :
      Stepped s (.keep w) (s.setFiber f { s.heap f with outside := true })
  | release {f} : Stepped s (.release f) (s.setFiber f { s.heap f with outside := false })
  | scheduleFiber {f thread} (hf : f < s.count) (hout : (s.heap f).outside = true) :
      Stepped s (.scheduleFiber f thread) (s.schedule (.fiber f) thread)
  | scheduleCb {c thread} : Stepped s (.scheduleCb c thread) (s.schedule (.cb c) thread)
  | destroy {f fiber} (hf : f < s.count) (hlive : (s.heap f).destroyed = false) (hown : ¬ s.Owned f)
      (hd : (s.heap f).destroy = .ok fiber) : Stepped s (.destroy f) (s.setFiber f fiber)
  | destructor {f e} (hf : f < s.count) (hlive : (s.heap f).destroyed = false) (hown : ¬ s.Owned f)
      (hd : (s.heap f).destroy = .error e) : Stepped s (.destroy f) { s with failed := some e }

theorem step_cases {s t : Scheduler n} {a : Label n} (hst : s.step a = some t) : s.Stepped a t := by
  cases a with
  | advance w =>
    simp only [step, advance] at hst
    split at hst
    · obtain rfl := Option.some.inj hst
      exact .scan ‹_›
    · obtain rfl := Option.some.inj hst
      exact .branch ‹_›
    · exact .proceed ‹_› hst
    · obtain rfl := Option.some.inj hst
      exact .idle ‹_›
    · cases hst
    · cases hst
  | outcome w o =>
    simp only [step, outcome] at hst
    split at hst
    · split at hst
      · obtain rfl := Option.some.inj hst
        exact .outcome ‹_› ‹_›
      · cases hst
    · cases hst
  | idleOutcome w returns =>
    simp only [step, idleOutcome] at hst
    split at hst
    · obtain rfl := Option.some.inj hst
      exact .idleOutcome ‹_›
    · cases hst
  | newFiber cb =>
    obtain rfl := Option.some.inj hst
    exact .newFiber
  | keep w =>
    simp only [step] at hst
    split at hst
    · obtain rfl := Option.some.inj hst
      exact .keep ‹_›
    · cases hst
  | release f =>
    obtain rfl := Option.some.inj hst
    exact .release
  | scheduleFiber f thread =>
    simp only [step] at hst
    split at hst
    · rename_i hf
      obtain rfl := Option.some.inj hst
      exact .scheduleFiber hf.1 hf.2
    · cases hst
  | scheduleCb c thread =>
    obtain rfl := Option.some.inj hst
    exact .scheduleCb
  | destroy f =>
    simp only [step] at hst
    split at hst
    · rename_i hdead
      obtain ⟨hf, hlive, hown⟩ := hdead
      obtain rfl := Option.some.inj hst
      cases hd : (s.heap f).destroy with
      | ok fiber => exact .destroy hf hlive hown hd
      | error e => exact .destructor hf hlive hown hd
    · cases hst

end Scheduler

/-- `n` threads in `Scheduler::run`, until an assertion fails. -/
def schedSys (n : Nat) : Transition.Sys (Scheduler n) (Scheduler.Label n) where
  init s := s = .new n
  step s a := if s.failed = none then s.step a else none

end Megalo
