import Megalo.Lib.OrdSet
import Megalo.Lib.System
import Mathlib.Logic.Function.Basic

/-!
# Timers: the source's `Timer` and `TimerManager`

- `Timer.comparator` orders timers by `(next, address)`, an address being a `Nat`; `TimerManager.timers` is the set
  `m_timers` ordered by it, as the sequence of addresses its iteration yields.
- `Timer.cancel`, `Timer.refresh`, `Timer.reset`, `addTimer`, `listExpiredCb` and `getNextTimer` are the operations.
  A clock reading and the address an allocation returns are arguments; `uint64_t` is `UInt64`, so the sums wrap.
- What the standard leaves undefined is a `SetFault`: erasing the end iterator, and writing the key of a timer while
  the set holds it. Every write of `next` goes through `setNext`, which makes the second check.
-/

namespace Megalo

/-- A `Timer` object; `γ` is the callbacks and `cb = none` the empty `std::function`. -/
structure Timer (γ : Type*) where
  recurring : Bool
  ms : UInt64
  next : UInt64
  cb : Option γ

/-- Misuse of `std::set`. -/
inductive SetFault
  | eraseEnd
  | keyChanged
  deriving DecidableEq

/-- A `TimerManager` with the `Timer` objects it was asked for; `live` are the addresses of objects not yet freed. -/
structure TimerManager (γ : Type*) where
  mem : Nat → Timer γ
  live : Nat → Bool
  timers : List Nat
  tickled : Bool
  previousTime : UInt64

variable {γ : Type*}

namespace Timer

/-- The constructor behind `addTimer`. -/
def new (now ms : UInt64) (cb : Option γ) (recurring : Bool) : Timer γ :=
  { recurring := recurring, ms := ms, next := now + ms, cb := cb }

/-- The constructor of the key that `listExpiredCb` searches with. -/
def ofNext (next : UInt64) : Timer γ := { recurring := false, ms := 0, next := next, cb := none }

/-- `Timer::Comparator`, on possibly null pointers. -/
def comparator (mem : Nat → Timer γ) : Option Nat → Option Nat → Bool
  | none, none => false
  | none, some _ => true
  | some _, none => false
  | some lhs, some rhs =>
    if (mem lhs).next < (mem rhs).next then true
    else if (mem lhs).next > (mem rhs).next then false
    else lhs < rhs

/-- The comparator on the members of the set, which are not null. -/
def less (mem : Nat → Timer γ) (lhs rhs : Nat) : Bool := comparator mem (some lhs) (some rhs)

end Timer

namespace TimerManager

/-- The constructor; `mem` is whatever the memory holds. -/
def new (mem : Nat → Timer γ) (now : UInt64) : TimerManager γ :=
  { mem := mem, live := fun _ => false, timers := [], tickled := false, previousTime := now }

/-! ## The set and the fields -/

def setCb (m : TimerManager γ) (a : Nat) (cb : Option γ) : TimerManager γ :=
  { m with mem := Function.update m.mem a { m.mem a with cb := cb } }

def setMs (m : TimerManager γ) (a : Nat) (ms : UInt64) : TimerManager γ :=
  { m with mem := Function.update m.mem a { m.mem a with ms := ms } }

/-- Write `m_next`, the key of the set. -/
def setNext (m : TimerManager γ) (a : Nat) (next : UInt64) : Except SetFault (TimerManager γ) :=
  if a ∈ m.timers then .error .keyChanged
  else .ok { m with mem := Function.update m.mem a { m.mem a with next := next } }

/-- `m_timers.find`; `none` is `m_timers.end()`. -/
def find (m : TimerManager γ) (a : Nat) : Option Nat := OrdSet.find (Timer.less m.mem) a m.timers

/-- `m_timers.erase` on an iterator. -/
def erase (m : TimerManager γ) (it : Option Nat) : Except SetFault (TimerManager γ) :=
  match it.bind fun i => OrdSet.eraseAt i m.timers with
  | some timers => .ok { m with timers := timers }
  | none => .error .eraseEnd

/-- `m_timers.insert`, with the position of the element. -/
def insert (m : TimerManager γ) (a : Nat) : TimerManager γ × Nat :=
  let r := OrdSet.insert (Timer.less m.mem) a m.timers
  ({ m with timers := r.1 }, r.2.1)

/-! ## The operations of the manager -/

/-- `addTimer(Timer::ptr, lock)`; the flag says whether `onTimerInsertAtFront` is called. -/
def addTimerPtr (m : TimerManager γ) (a : Nat) : TimerManager γ × Bool :=
  let r := m.insert a
  let atFront := r.2 == 0 && !r.1.tickled
  (if atFront then { r.1 with tickled := true } else r.1, atFront)

/-- `addTimer`; `a` is the address of the new `Timer`. -/
def addTimer (m : TimerManager γ) (now ms : UInt64) (cb : Option γ) (recurring : Bool) (a : Nat) :
    TimerManager γ × Bool :=
  addTimerPtr { m with mem := Function.update m.mem a (Timer.new now ms cb recurring)
                       live := Function.update m.live a true } a

/-- `getNextTimer`. -/
def getNextTimer (m : TimerManager γ) (now : UInt64) : UInt64 × TimerManager γ :=
  let m := { m with tickled := false }
  match m.timers with
  | [] => (~~~0, m)
  | a :: _ => (if now ≥ (m.mem a).next then 0 else (m.mem a).next - now, m)

/-- `deleteClockRollover`; the threshold is an hour, and its subtraction wraps. -/
def deleteClockRollover (m : TimerManager γ) (now : UInt64) : Bool × TimerManager γ :=
  (now < m.previousTime && now < m.previousTime - 60 * 60 * 1000, { m with previousTime := now })

/-- The loop of `listExpiredCb` over the timers it took out of the set. -/
def collectExpired (now : UInt64) : List Nat → TimerManager γ → Except SetFault (List (Option γ) × TimerManager γ)
  | [], m => .ok ([], m)
  | a :: expired, m => do
    let cb := (m.mem a).cb
    let m ← if (m.mem a).recurring then do
        let m ← m.setNext a (now + (m.mem a).ms)
        pure (m.insert a).1
      else pure (m.setCb a none)
    let (cbs, m) ← collectExpired now expired m
    pure (cb :: cbs, m)

/-- How many timers `listExpiredCb` takes from the front of the set; `key` is the address of its local timer. -/
def expiredCount (m : TimerManager γ) (now : UInt64) (rollover : Bool) (key : Nat) : Nat :=
  let it := if rollover then m.timers.length
    else OrdSet.lowerBound (Timer.less (Function.update m.mem key (Timer.ofNext now))) key m.timers
  it + ((m.timers.drop it).takeWhile fun a => (m.mem a).next == now).length

/-- `listExpiredCb`. -/
def listExpiredCb (m : TimerManager γ) (now : UInt64) (key : Nat) :
    Except SetFault (List (Option γ) × TimerManager γ) :=
  match m.timers with
  | [] => .ok ([], m)
  | first :: _ =>
    let (rollover, m) := m.deleteClockRollover now
    if !rollover && (m.mem first).next > now then .ok ([], m)
    else
      let it := m.expiredCount now rollover key
      collectExpired now (m.timers.take it) { m with timers := m.timers.drop it }

end TimerManager

/-! ## The operations of a timer -/

namespace Timer

/-- `cancel`. -/
def cancel (m : TimerManager γ) (a : Nat) : Except SetFault (Bool × TimerManager γ) :=
  if (m.mem a).cb.isSome then do
    let m := m.setCb a none
    let m ← m.erase (m.find a)
    pure (true, m)
  else pure (false, m)

/-- `refresh`. -/
def refresh (m : TimerManager γ) (now : UInt64) (a : Nat) : Except SetFault (Bool × TimerManager γ) :=
  if (m.mem a).cb.isNone then pure (false, m)
  else match m.find a with
    | none => pure (false, m)
    | some it => do
      let m ← m.erase (some it)
      let m ← m.setNext a (now + (m.mem a).ms)
      pure (true, (m.insert a).1)

/-- `reset`; the second flag says whether `onTimerInsertAtFront` is called. -/
def reset (m : TimerManager γ) (now ms : UInt64) (fromNow : Bool) (a : Nat) :
    Except SetFault (Bool × Bool × TimerManager γ) :=
  if ms == (m.mem a).ms && !fromNow then pure (true, false, m)
  else if (m.mem a).cb.isNone then pure (false, false, m)
  else match m.find a with
    | none => pure (false, false, m)
    | some it => do
      let m ← m.erase (some it)
      let start := if fromNow then now else (m.mem a).next - (m.mem a).ms
      let m := m.setMs a ms
      let m ← m.setNext a (start + (m.mem a).ms)
      let (m, atFront) := m.addTimerPtr a
      pure (true, atFront, m)

end Timer

/-! ## Runs -/

/-- One call on the manager or on one of its timers. `release` is the end of the last pointer to a timer outside
the set. -/
inductive TimerOp (γ : Type*)
  | addTimer (now ms : UInt64) (cb : γ) (recurring : Bool) (a : Nat)
  | cancel (a : Nat)
  | refresh (now : UInt64) (a : Nat)
  | reset (now ms : UInt64) (fromNow : Bool) (a : Nat)
  | listExpiredCb (now : UInt64) (key : Nat)
  | getNextTimer (now : UInt64)
  | release (a : Nat)

namespace TimerOp

/-- Allocations return unused addresses, and a timer is used through a pointer that keeps it alive. -/
def Enabled (m : TimerManager γ) : TimerOp γ → Prop
  | addTimer _ _ _ _ a => m.live a = false
  | cancel a => m.live a = true
  | refresh _ a => m.live a = true
  | reset _ _ _ a => m.live a = true
  | listExpiredCb _ key => m.live key = false
  | getNextTimer _ => True
  | release a => m.live a = true ∧ a ∉ m.timers

instance (m : TimerManager γ) : DecidablePred (Enabled m)
  | addTimer _ _ _ _ a => inferInstanceAs (Decidable (m.live a = false))
  | cancel a => inferInstanceAs (Decidable (m.live a = true))
  | refresh _ a => inferInstanceAs (Decidable (m.live a = true))
  | reset _ _ _ a => inferInstanceAs (Decidable (m.live a = true))
  | listExpiredCb _ key => inferInstanceAs (Decidable (m.live key = false))
  | getNextTimer _ => inferInstanceAs (Decidable True)
  | release a => inferInstanceAs (Decidable (m.live a = true ∧ a ∉ m.timers))

/-- The manager after the call, without the results. -/
def run (m : TimerManager γ) : TimerOp γ → Except SetFault (TimerManager γ)
  | addTimer now ms cb recurring a => .ok (m.addTimer now ms (some cb) recurring a).1
  | cancel a => (Timer.cancel m a).map (·.2)
  | refresh now a => (Timer.refresh m now a).map (·.2)
  | reset now ms fromNow a => (Timer.reset m now ms fromNow a).map (·.2.2)
  | listExpiredCb now key => (m.listExpiredCb now key).map (·.2)
  | getNextTimer now => .ok (m.getNextTimer now).2
  | release a => .ok { m with live := Function.update m.live a false }

end TimerOp

/-- The runs of one manager under arbitrary clock readings. -/
def timerSys (γ : Type*) : Transition.Sys (TimerManager γ) (TimerOp γ) where
  init m := ∃ mem now, m = TimerManager.new mem now
  step m op := if op.Enabled m then (op.run m).toOption else none

end Megalo
