import Megalo.IOManager.Basic
import Megalo.Timer.Expiry

/-!
# Timeouts of concurrent calls of `do_io`

- `doIoSys` is any number of calls of `do_io` on one descriptor, step by step, over the timers of the `IOManager`:
  workers that read the clock and then run `listExpiredCb` under the lock, callbacks that were handed out and run later,
  events of the descriptor, and other code that uses the timers. Each call shares one `timer_info` among its waits;
- `IoCall.TimedOut`: the call returns `ETIMEDOUT`. It does so only when `listExpiredCb` has taken out a timer of its
  own, and the time of the call has passed since it armed the first one, as long as no `listExpiredCb` takes the
  reading of the clock for a rollover (`io_times_out_by_own_timer`);
- that needs more than a clock that does not go back: a worker that is held up between its reading and the lock for more
  than an hour makes every timer expire at once (`stale_reading_times_out`).
-/

namespace Megalo

/-- Where a call is: about to call the underlying function, to construct its timer, to add it to the set (with the
reading of the constructor), or to call `addEvent`; held; resumed and about to cancel its timer, or to test
`cancelled`; or returned, with `ETIMEDOUT` or not. -/
inductive IoPc
  | call
  | construct
  | addTimer (now : UInt64)
  | addEvent
  | held
  | cancelTimer
  | test
  | returned (timedOut : Bool)
  deriving DecidableEq

/-- A call: its event and its timeout, where it is, the timer of its wait, and `tinfo->cancelled`. Also the reading of
the constructor of its first timer, and whether `listExpiredCb` has taken out a timer of its own. -/
structure IoCall where
  event : Event
  timeout : Option UInt64
  pc : IoPc
  timer : Option Nat
  cancelled : Bool
  first : Option UInt64
  expired : Bool

namespace IoCall

/-- At the call of `do_io`. -/
def new (event : Event) (timeout : Option UInt64) : IoCall :=
  { event := event, timeout := timeout, pc := .call, timer := none, cancelled := false, first := none
    expired := false }

/-- The call returns `-1` with `ETIMEDOUT`. -/
def TimedOut (c : IoCall) : Prop := c.pc = .returned true

/-- The timeout of the call has passed since its first timer. -/
def DueBy (c : IoCall) (now : UInt64) : Prop :=
  ∃ first timeout, c.first = some first ∧ c.timeout = some timeout ∧ first.toNat + timeout.toNat ≤ now.toNat

end IoCall

/-- The timers, whose callbacks are those of a call or other ones; the clock, and the readings of the workers in
`listExpiredCb`; the calls; the call registered for each event, and how often each is queued; and the callbacks that
were handed out, by the call they are of: not yet run, past the test, and past the write of `cancelled`. -/
structure DoIoState where
  manager : TimerManager (Option Nat)
  clock : UInt64
  readings : Nat → Option UInt64
  calls : List IoCall
  registered : Event → Option Nat
  queued : Nat → Nat
  handedOut : List Nat
  tested : List Nat
  marked : List Nat

namespace DoIoState

def setCall (s : DoIoState) (i : Nat) (c : IoCall) : DoIoState := { s with calls := s.calls.set i c }

/-- What `triggerEvent` does: the call registered for the event is queued. -/
def trigger (s : DoIoState) (e : Event) : DoIoState :=
  match s.registered e with
  | some i => { s with
      registered := Function.update s.registered e none
      queued := Function.update s.queued i (s.queued i + 1) }
  | none => s

/-- `listExpiredCb` has handed out callbacks. -/
def handOut (s : DoIoState) (w : Nat) (r : List (Option (Option Nat)) × TimerManager (Option Nat)) : DoIoState :=
  let ids := r.1.filterMap fun cb => cb.join
  { s with
    manager := r.2
    readings := Function.update s.readings w none
    calls := s.calls.mapIdx fun i c => { c with expired := c.expired || decide (i ∈ ids) }
    handedOut := s.handedOut ++ ids }

/-- `timer->cancel()` on the timer of a wait, which the call keeps alive. -/
def cancelTimer (s : DoIoState) (timer : Option Nat) : Option DoIoState :=
  match timer with
  | some a =>
    if s.manager.live a = true then (Timer.cancel s.manager a).toOption.map fun r => { s with manager := r.2 } else none
  | none => some s

end DoIoState

/-- A call that other code may make: it has no pointer to the timers of the calls. -/
def TimerOp.Foreign (s : DoIoState) : TimerOp (Option Nat) → Prop
  | addTimer _ _ cb _ _ => cb = none
  | cancel a | refresh _ a | reset _ _ _ a | release a =>
    (∀ c ∈ s.calls, c.timer ≠ some a) ∧ (s.manager.mem a).cb.join = none
  | getNextTimer _ => True
  | listExpiredCb _ _ => False

instance (s : DoIoState) : (op : TimerOp (Option Nat)) → Decidable (op.Foreign s)
  | .addTimer _ _ cb _ _ => inferInstanceAs (Decidable (cb = none))
  | .cancel a | .refresh _ a | .reset _ _ _ a | .release a =>
    inferInstanceAs (Decidable ((∀ c ∈ s.calls, c.timer ≠ some a) ∧ (s.manager.mem a).cb.join = none))
  | .getNextTimer _ => inferInstanceAs (Decidable True)
  | .listExpiredCb _ _ => inferInstanceAs (Decidable False)

/-- The clock advances; a call starts, or takes a step, the underlying call returning `EAGAIN` or not, and `addEvent`
succeeding or not; the event comes; a worker reads the clock in `listExpiredCb`, or runs the part of it under the
lock; a callback that was handed out takes a step, the `epoll_ctl` of `cancelEvent` succeeding or not; other code uses
the timers. -/
inductive DoIoLabel
  | tick (now : UInt64)
  | start (event : Event) (timeout : Option UInt64)
  | call (i : Nat) (again : Bool)
  | construct (i : Nat)
  | addTimer (i a : Nat)
  | addEvent (i : Nat) (ok : Bool)
  | deliver (e : Event)
  | resume (i : Nat)
  | cancelTimer (i : Nat)
  | test (i : Nat)
  | readClock (w : Nat)
  | expire (w key : Nat)
  | callbackTest (i : Nat)
  | callbackMark (i : Nat)
  | callbackCancelEvent (i : Nat) (ok : Bool)
  | other (op : TimerOp (Option Nat))

/-- The step of a call at a given point. -/
def DoIoState.atPc (s : DoIoState) (i : Nat) (pc : IoPc) (f : IoCall → Option DoIoState) : Option DoIoState :=
  (s.calls[i]?).bind fun c => if c.pc = pc then f c else none

/-- The step of each label, when it is enabled. -/
def DoIoState.step (s : DoIoState) : DoIoLabel → Option DoIoState
  | .tick now => if s.clock ≤ now then some { s with clock := now } else none
  | .start event timeout => some { s with calls := s.calls ++ [.new event timeout] }
  | .call i again => s.atPc i .call fun c =>
    some (s.setCall i { c with
      pc := if again then if c.timeout.isSome then .construct else .addEvent else .returned false })
  | .construct i => s.atPc i .construct fun c =>
    c.timeout.bind fun timeout =>
      -- the sum does not wrap
      if s.clock.toNat + timeout.toNat < 2 ^ 64 then
        some (s.setCall i { c with pc := .addTimer s.clock, first := some (c.first.getD s.clock) })
      else none
  | .addTimer i a =>
    (s.calls[i]?).bind fun c =>
      match c.pc, c.timeout with
      | .addTimer now, some timeout =>
        if s.manager.live a = false then
          some ({ s with manager := (s.manager.addTimer now timeout (some (some i)) false a).1 }.setCall i
            { c with pc := .addEvent, timer := some a })
        else none
      | _, _ => none
  | .addEvent i ok => s.atPc i .addEvent fun c =>
    if ok then
      -- the event is not registered: `addEvent` asserts it
      if s.registered c.event = none then
        some ({ s with registered := Function.update s.registered c.event (some i) }.setCall i { c with pc := .held })
      else none
    else (s.cancelTimer c.timer).map fun s => s.setCall i { c with pc := .returned false }
  | .deliver e => some (s.trigger e)
  | .resume i => s.atPc i .held fun c =>
    if 0 < s.queued i then
      some ({ s with queued := Function.update s.queued i (s.queued i - 1) }.setCall i { c with pc := .cancelTimer })
    else none
  | .cancelTimer i => s.atPc i .cancelTimer fun c =>
    (s.cancelTimer c.timer).map fun s => s.setCall i { c with pc := .test, timer := none }
  | .test i => s.atPc i .test fun c =>
    some (s.setCall i { c with pc := if c.cancelled then .returned true else .call })
  | .readClock w => some { s with readings := Function.update s.readings w (some s.clock) }
  | .expire w key =>
    (s.readings w).bind fun now =>
      if s.manager.live key = false then (s.manager.listExpiredCb now key).toOption.map (s.handOut w) else none
  | .callbackTest i =>
    if i ∈ s.handedOut then
      (s.calls[i]?).map fun c =>
        let s := { s with handedOut := s.handedOut.erase i }
        match c.pc with
        -- `!t`: the call has returned, and with it its `tinfo`
        | .returned _ => s
        | _ => if c.cancelled then s else { s with tested := i :: s.tested }
    else none
  | .callbackMark i =>
    if i ∈ s.tested then
      (s.calls[i]?).map fun c =>
        { s with tested := s.tested.erase i, marked := i :: s.marked }.setCall i { c with cancelled := true }
    else none
  | .callbackCancelEvent i ok =>
    if i ∈ s.marked then
      (s.calls[i]?).map fun c =>
        -- of whatever call is registered for the event now
        let s := { s with marked := s.marked.erase i }
        if ok then s.trigger c.event else s
    else none
  | .other op =>
    if op.Foreign s ∧ op.Enabled s.manager then
      (op.run s.manager).toOption.map fun m => { s with manager := m }
    else none

/-- Calls of `do_io` on one descriptor, and what else uses the timers. -/
def doIoSys : Transition.Sys DoIoState DoIoLabel where
  init s := ∃ mem now, s =
    { manager := .new mem now, clock := now, readings := fun _ => none, calls := [], registered := fun _ => none,
      queued := fun _ => 0, handedOut := [], tested := [], marked := [] }
  step := DoIoState.step

/-- No `listExpiredCb` takes its reading of the clock for a rollover. -/
def DoIoLabel.NoRollover (s : DoIoState) : DoIoLabel → Prop
  | expire w _ => ∀ now ∈ s.readings w, (s.manager.deleteClockRollover now).1 = false
  | _ => True

instance (s : DoIoState) : (a : DoIoLabel) → Decidable (a.NoRollover s)
  -- over the reading there is, not over all 64-bit numbers
  | .expire w _ => Option.decidableForallMem (s.readings w)
  | .tick _ | .start .. | .call .. | .construct _ | .addTimer .. | .addEvent .. | .deliver _ | .resume _
  | .cancelTimer _ | .test _ | .readClock _ | .callbackTest _ | .callbackMark _ | .callbackCancelEvent ..
  | .other _ =>
    inferInstanceAs (Decidable True)

/-! ## The invariant -/

namespace IoCall

/-- A call: its first timer was constructed in time, a `cancelled` call is due, and so is one that has timed out. -/
structure Ok (c : IoCall) (clock : UInt64) : Prop where
  first : ∀ first ∈ c.first, first ≤ clock
  inserting : ∀ now, c.pc = .addTimer now → ∃ first timeout, c.first = some first ∧ c.timeout = some timeout ∧
    first ≤ now ∧ now.toNat + timeout.toNat < 2 ^ 64
  cancelled : c.cancelled = true → c.expired = true ∧ c.DueBy clock
  timedOut : c.TimedOut → c.expired = true ∧ c.DueBy clock

theorem Ok.new (event : Event) (timeout : Option UInt64) (clock : UInt64) : (IoCall.new event timeout).Ok clock where
  first _ h := by cases h
  inserting _ h := by cases h
  cancelled h := by cases h
  timedOut h := by cases h

theorem DueBy.mono {c : IoCall} {t t' : UInt64} (h : c.DueBy t) (hle : t ≤ t') : c.DueBy t' := by
  obtain ⟨first, timeout, hf, ht, hsum⟩ := h
  exact ⟨first, timeout, hf, ht, Nat.le_trans hsum (UInt64.le_iff_toNat_le.1 hle)⟩

theorem Ok.mono {c : IoCall} {t t' : UInt64} (h : c.Ok t) (hle : t ≤ t') : c.Ok t' where
  first f hf := UInt64.le_trans (h.first f hf) hle
  inserting := h.inserting
  cancelled hc := ⟨(h.cancelled hc).1, (h.cancelled hc).2.mono hle⟩
  timedOut ht := ⟨(h.timedOut ht).1, (h.timedOut ht).2.mono hle⟩

/-- A call that goes on, neither to the insertion of its timer nor to a timeout. -/
theorem Ok.move {c : IoCall} {t : UInt64} (h : c.Ok t) {pc : IoPc} (timer : Option Nat)
    (hadd : ∀ now, pc ≠ .addTimer now) (hret : pc ≠ .returned true) : Ok { c with pc := pc, timer := timer } t where
  first := h.first
  inserting now hpc := absurd hpc (hadd now)
  cancelled := h.cancelled
  timedOut ht := absurd ht hret

/-- What the timers and the callbacks of a call rely on. -/
structure Keeps (c c' : IoCall) : Prop where
  timeout : c'.timeout = c.timeout
  first : ∀ first, c.first = some first → c'.first = some first
  expired : c.expired = true → c'.expired = true

theorem Keeps.rfl {c : IoCall} (pc : IoPc) (timer : Option Nat) (cancelled : Bool) :
    c.Keeps { c with pc := pc, timer := timer, cancelled := cancelled } where
  timeout := Eq.refl _
  first _ hf := hf
  expired he := he

theorem DueBy.keep {c c' : IoCall} {t : UInt64} (h : c.DueBy t) (hk : c.Keeps c') : c'.DueBy t := by
  obtain ⟨first, timeout, hf, ht, hsum⟩ := h
  exact ⟨first, timeout, hk.first first hf, hk.timeout.trans ht, hsum⟩

end IoCall

namespace DoIoState

variable {s t : DoIoState}

/-- A timer of a call in the set is due no earlier than the timeout of the call after its first timer; a callback of a
call that was handed out is due; readings are not newer than the clock; and every call is in order. -/
structure Inv (s : DoIoState) : Prop where
  timers : s.manager.Inv []
  armed : ∀ a ∈ s.manager.timers, ∀ i, (s.manager.mem a).cb = some (some i) → (s.manager.mem a).recurring = false ∧
    ∃ c, s.calls[i]? = some c ∧ c.DueBy (s.manager.mem a).next
  handed : ∀ i, i ∈ s.handedOut ∨ i ∈ s.tested ∨ i ∈ s.marked →
    ∃ c, s.calls[i]? = some c ∧ c.expired = true ∧ c.DueBy s.clock
  readings : ∀ w, ∀ now ∈ s.readings w, now ≤ s.clock
  calls : ∀ (i : Nat) c, s.calls[i]? = some c → c.Ok s.clock

/-- Calls are only added or kept. -/
def KeepsCalls (s t : DoIoState) : Prop :=
  ∀ (i : Nat) (c : IoCall), s.calls[i]? = some c → ∃ c', t.calls[i]? = some c' ∧ c.Keeps c'

theorem Inv.of_calls (hi : s.Inv) (hm : t.manager = s.manager) (hclock : t.clock = s.clock)
    (hr : t.readings = s.readings)
    (hh : ∀ i, i ∈ t.handedOut ∨ i ∈ t.tested ∨ i ∈ t.marked → i ∈ s.handedOut ∨ i ∈ s.tested ∨ i ∈ s.marked)
    (hk : s.KeepsCalls t) (hok : ∀ (i : Nat) c, t.calls[i]? = some c → c.Ok s.clock) : t.Inv := by
  refine ⟨hm ▸ hi.timers, fun a ha i hcb => ?_, fun i hin => ?_, fun w now hw => ?_, fun i c hc => hclock ▸ hok i c hc⟩
  · rw [hm] at ha hcb ⊢
    obtain ⟨hrec, c, hc, hdue⟩ := hi.armed a ha i hcb
    obtain ⟨c', hc', hkeep⟩ := hk i c hc
    exact ⟨hrec, c', hc', hdue.keep hkeep⟩
  · obtain ⟨c, hc, hexp, hdue⟩ := hi.handed i (hh i hin)
    obtain ⟨c', hc', hkeep⟩ := hk i c hc
    exact ⟨c', hc', hkeep.expired hexp, hclock ▸ hdue.keep hkeep⟩
  · rw [hr] at hw
    exact hclock ▸ hi.readings w now hw

theorem KeepsCalls.refl (h : t.calls = s.calls) : s.KeepsCalls t := fun _ c hc =>
  ⟨c, h ▸ hc, ⟨rfl, fun _ hf => hf, fun he => he⟩⟩

/-- One call is replaced. -/
theorem keepsCalls_setCall {i : Nat} {c c' : IoCall} (hc : s.calls[i]? = some c) (hk : c.Keeps c')
    (ht : t.calls = s.calls.set i c') : s.KeepsCalls t := by
  intro j d hd
  rw [ht]
  by_cases hj : i = j
  · subst hj
    obtain rfl := Option.some.inj (hc.symm.trans hd)
    have hlt := (List.getElem?_eq_some_iff.1 hc).1
    exact ⟨c', List.getElem?_set_self hlt, hk⟩
  · exact ⟨d, by rw [List.getElem?_set_ne hj]; exact hd, ⟨rfl, fun _ hf => hf, fun he => he⟩⟩

theorem ok_setCall (hi : s.Inv) {i : Nat} {c : IoCall} (hok : c.Ok s.clock) {j : Nat} {d : IoCall}
    (hd : (s.calls.set i c)[j]? = some d) : d.Ok s.clock := by
  rcases List.mem_or_eq_of_mem_set (List.mem_of_getElem? hd) with hmem | rfl
  · obtain ⟨k, hk⟩ := List.getElem?_of_mem hmem
    exact hi.calls k d hk
  · exact hok

/-- A step of one call that leaves the timers and the callbacks alone. -/
theorem Inv.setCall (hi : s.Inv) {i : Nat} {c c' : IoCall} (hc : s.calls[i]? = some c) (hk : c.Keeps c')
    (hok : c'.Ok s.clock) : (s.setCall i c').Inv :=
  hi.of_calls rfl rfl rfl (fun _ h => h) (keepsCalls_setCall hc hk rfl) fun _ _ hd => ok_setCall hi hok hd

/-! ## Steps on the timers -/

/-- Other timers, which meet the invariant. -/
theorem Inv.withManager (hi : s.Inv) {m : TimerManager (Option Nat)} (hm : m.Inv [])
    (h : ∀ a ∈ m.timers, ∀ i, (m.mem a).cb = some (some i) →
      a ∈ s.manager.timers ∧ m.mem a = s.manager.mem a ∨
        (m.mem a).recurring = false ∧ ∃ c, s.calls[i]? = some c ∧ c.DueBy (m.mem a).next) :
    Inv { s with manager := m } := by
  refine ⟨hm, fun a ha i hcb => ?_, hi.handed, hi.readings, hi.calls⟩
  rcases h a ha i hcb with ⟨ha', hmem⟩ | hnew
  · have hcb : (m.mem a).cb = some (some i) := hcb
    rw [hmem] at hcb
    have harmed := hi.armed a ha' i hcb
    rw [← hmem] at harmed
    exact harmed
  · exact hnew

/-- A call on the timers, that is not about the timer of a call. -/
theorem inv_run (hi : s.Inv) (op : TimerOp (Option Nat)) (he : op.Enabled s.manager)
    (hexp : ∀ now key, op ≠ .listExpiredCb now key) {m : TimerManager (Option Nat)} (hrun : op.run s.manager = .ok m)
    (hother : ∀ a ∈ s.manager.timers, ∀ i, (m.mem a).cb = some (some i) → (s.manager.mem a).cb = some (some i) →
      op.target ≠ some a)
    (hadd : ∀ now ms i recurring a, op ≠ .addTimer now ms (some i) recurring a) : Inv { s with manager := m } := by
  obtain ⟨m₁, hrun₁, hinv⟩ := TimerManager.inv_run hi.timers op he
  obtain rfl := Except.ok.inj (hrun.symm.trans hrun₁)
  refine hi.withManager hinv fun a ha i hcb => .inl ?_
  rcases TimerManager.run_armed hi.timers _ he hexp hrun ha hcb with ⟨ha', hcb'⟩ | ⟨now, ms, recurring, rfl⟩
  · exact ⟨ha', (TimerManager.run_mem _ hexp hrun (hother a ha' i hcb hcb')).1⟩
  · exact absurd rfl (hadd now ms i recurring a)

theorem inv_other (hi : s.Inv) {op : TimerOp (Option Nat)} (hop : op.Foreign s) (he : op.Enabled s.manager)
    {m : TimerManager (Option Nat)} (hrun : op.run s.manager = .ok m) : Inv { s with manager := m } := by
  have hcb : ∀ a i, (s.manager.mem a).cb = some (some i) → (s.manager.mem a).cb.join ≠ none := fun a i h => by
    rw [h]
    simp
  cases op with
  | addTimer now ms cb recurring a =>
    obtain rfl : cb = none := hop
    refine inv_run hi _ he (by simp) hrun (fun b hb i _ _ ht => ?_) (by simp)
    -- the new timer was not there
    obtain rfl : a = b := Option.some.inj ht
    exact Bool.noConfusion ((hi.timers.live a hb).symm.trans he)
  | cancel a | refresh now a | reset now ms fromNow a | release a =>
    refine inv_run hi _ he (by simp) hrun (fun b _ i _ hcb' ht => ?_) (by simp)
    obtain rfl : a = b := Option.some.inj ht
    exact hcb a i hcb' hop.2
  | getNextTimer now => exact inv_run hi _ he (by simp) hrun (fun _ _ _ _ _ ht => by cases ht) (by simp)
  | listExpiredCb now key => exact hop.elim

theorem inv_cancelTimer (hi : s.Inv) {timer : Option Nat} (h : s.cancelTimer timer = some t) :
    t.Inv ∧ t.calls = s.calls ∧ t.clock = s.clock := by
  unfold cancelTimer at h
  split at h
  · rename_i a
    simp only [Option.ite_none_right_eq_some] at h
    obtain ⟨hlive, h⟩ := h
    obtain ⟨r, m, hcancel, -⟩ := TimerManager.cancel_inv hi.timers hlive
    rw [hcancel] at h
    cases h
    refine ⟨inv_run hi (.cancel a) hlive (by simp) (by rw [TimerOp.run, hcancel]; rfl) (fun b _ i hcb _ ht => ?_)
      (by simp), rfl, rfl⟩
    -- a cancelled timer has no callback
    obtain rfl : a = b := Option.some.inj ht
    rw [(TimerManager.cancel_mem hcancel).2.2] at hcb
    cases hcb
  · obtain rfl := Option.some.inj h
    exact ⟨hi, rfl, rfl⟩

/-- A timer of a call is added, with the reading of its constructor. -/
theorem inv_addTimer (hi : s.Inv) {i a : Nat} {c : IoCall} (hc : s.calls[i]? = some c) {now timeout : UInt64}
    (hpc : c.pc = .addTimer now) (htimeout : c.timeout = some timeout) (ha : s.manager.live a = false) :
    Inv { s with manager := (s.manager.addTimer now timeout (some (some i)) false a).1 } := by
  obtain ⟨first, timeout', hfirst, htimeout', hle, hsum⟩ := (hi.calls i c hc).inserting now hpc
  obtain rfl := Option.some.inj (htimeout.symm.trans htimeout')
  have hexp : ∀ now' key, TimerOp.addTimer now timeout (some i) false a ≠ .listExpiredCb now' key := by simp
  refine hi.withManager (TimerManager.addTimer_inv hi.timers now timeout (some i) false ha) fun b hb j hcb => ?_
  rcases TimerManager.run_armed hi.timers (.addTimer now timeout (some i) false a) ha hexp rfl hb hcb with
    ⟨hb', -⟩ | ⟨_, _, _, hop⟩
  · refine .inl ⟨hb', (TimerManager.run_mem (.addTimer now timeout (some i) false a) hexp rfl fun ht => ?_).1⟩
    obtain rfl : a = b := Option.some.inj ht
    exact Bool.noConfusion ((hi.timers.live a hb').symm.trans ha)
  · cases hop
    have hmem : (s.manager.addTimer now timeout (some (some i)) false a).1.mem a =
        Timer.new now timeout (some (some i)) false := by
      rw [TimerManager.addTimer, (TimerManager.addTimerPtr_mem _ a).1]
      exact Function.update_self ..
    rw [hmem]
    refine .inr ⟨rfl, c, hc, first, timeout, hfirst, htimeout, ?_⟩
    show first.toNat + timeout.toNat ≤ (now + timeout).toNat
    rw [UInt64.toNat_add, Nat.mod_eq_of_lt hsum]
    exact Nat.add_le_add_right (UInt64.le_iff_toNat_le.1 hle) _

/-- Without a rollover `listExpiredCb` hands out callbacks of calls that are due. -/
theorem inv_handOut (hi : s.Inv) {w key : Nat} {now : UInt64} (hnow : s.readings w = some now)
    (hkey : s.manager.live key = false) (hrollover : (s.manager.deleteClockRollover now).1 = false)
    {r : List (Option (Option Nat)) × TimerManager (Option Nat)} (hexpired : s.manager.listExpiredCb now key = .ok r) :
    (s.handOut w r).Inv := by
  obtain ⟨cbs, m⟩ := r
  obtain ⟨_, _, hok, hinv⟩ := TimerManager.listExpiredCb_inv hi.timers now key
  rw [hexpired] at hok
  cases hok
  obtain ⟨l, hl, rfl, hlive, hmem, hdue⟩ := TimerManager.listExpiredCb_spec hi.timers hkey hexpired
  let ids := (l.map fun a => (s.manager.mem a).cb).filterMap fun cb => cb.join
  have hids : ∀ i ∈ ids, ∃ c, s.calls[i]? = some c ∧ c.DueBy s.clock := fun i hin => by
    obtain ⟨cb, hcb, hjoin⟩ := List.mem_filterMap.1 hin
    obtain ⟨a, ha, rfl⟩ := List.mem_map.1 hcb
    have hcb : (s.manager.mem a).cb = some (some i) := Option.join_eq_some_iff.1 hjoin
    obtain ⟨-, c, hc, hdueby⟩ := hi.armed a (hl.subset ha) i hcb
    have hle := (hdue hrollover a (hl.subset ha)).1 ha
    exact ⟨c, hc, hdueby.mono (UInt64.le_trans hle (hi.readings w now hnow))⟩
  have hcalls : ∀ i : Nat, (s.handOut w (l.map fun a => (s.manager.mem a).cb, m)).calls[i]? =
      (s.calls[i]?).map fun c => { c with expired := c.expired || decide (i ∈ ids) } := fun i => List.getElem?_mapIdx
  have hkeep : ∀ (c : IoCall) (b : Bool), c.Keeps { c with expired := c.expired || b } := fun c b =>
    ⟨rfl, fun _ hf => hf, fun he => by rw [he, Bool.true_or]⟩
  refine ⟨hinv, fun a ha i hcb => ?_, fun i hin => ?_, fun w' now' hw => ?_, fun i c hc => ?_⟩
  · have hcb : (m.mem a).cb = some (some i) := hcb
    have hlive' : s.manager.live a = true := hlive ▸ hinv.live a ha
    by_cases hal : a ∈ l
    · rw [hmem a, if_pos hal] at hcb
      obtain ⟨hrec, hcb⟩ := TimerManager.recurring_of_expired hcb
      rw [(hi.armed a (hl.subset hal) i hcb).1] at hrec
      cases hrec
    · rw [hmem a, if_neg hal] at hcb
      have hat := (hi.timers.armed a hlive' List.not_mem_nil).2 (by rw [hcb]; rfl)
      obtain ⟨hrec, c, hc, hdueby⟩ := hi.armed a hat i hcb
      rw [show (s.handOut w (l.map fun a => (s.manager.mem a).cb, m)).manager.mem a = m.mem a from rfl, hmem a,
        if_neg hal]
      exact ⟨hrec, _, by rw [hcalls, hc, Option.map_some], hdueby.keep (hkeep c _)⟩
  · have hin : (i ∈ s.handedOut ∨ i ∈ s.tested ∨ i ∈ s.marked) ∨ i ∈ ids := by
      rcases hin with hin | hin
      · rcases List.mem_append.1 hin with hin | hin
        · exact .inl (.inl hin)
        · exact .inr hin
      · exact .inl (.inr hin)
    rcases hin with hin | hin
    · obtain ⟨c, hc, hexp, hdueby⟩ := hi.handed i hin
      exact ⟨_, by rw [hcalls, hc, Option.map_some], (hkeep c _).expired hexp, hdueby.keep (hkeep c _)⟩
    · obtain ⟨c, hc, hdueby⟩ := hids i hin
      refine ⟨_, by rw [hcalls, hc, Option.map_some], ?_, hdueby.keep (hkeep c _)⟩
      rw [decide_eq_true hin, Bool.or_true]
  · by_cases hww : w' = w
    · subst hww
      rw [show (s.handOut w' _).readings w' = none from Function.update_self ..] at hw
      cases hw
    · rw [show (s.handOut w _).readings w' = s.readings w' from Function.update_of_ne hww ..] at hw
      exact hi.readings w' now' hw
  · rw [hcalls] at hc
    obtain ⟨c, hc', rfl⟩ := Option.map_eq_some_iff.1 hc
    have hok := hi.calls i c hc'
    refine ⟨hok.first, hok.inserting, fun h => ?_, fun h => ?_⟩
    · obtain ⟨hexp, hdueby⟩ := hok.cancelled h
      exact ⟨(hkeep c _).expired hexp, hdueby.keep (hkeep c _)⟩
    · obtain ⟨hexp, hdueby⟩ := hok.timedOut h
      exact ⟨(hkeep c _).expired hexp, hdueby.keep (hkeep c _)⟩

/-! ## Steps of the calls -/

theorem atPc_some {i : Nat} {pc : IoPc} {f : IoCall → Option DoIoState} (h : s.atPc i pc f = some t) :
    ∃ c, s.calls[i]? = some c ∧ c.pc = pc ∧ f c = some t := by
  obtain ⟨c, hc, h⟩ := Option.bind_eq_some_iff.1 h
  rw [Option.ite_none_right_eq_some] at h
  exact ⟨c, hc, h.1, h.2⟩

/-- The registrations and the queue do not matter, and of the callbacks on their way it only matters which they are. -/
theorem Inv.withCallbacks (hi : s.Inv) {registered : Event → Option Nat} {queued : Nat → Nat}
    {handedOut tested marked : List Nat}
    (hh : ∀ i, i ∈ handedOut ∨ i ∈ tested ∨ i ∈ marked → i ∈ s.handedOut ∨ i ∈ s.tested ∨ i ∈ s.marked) :
    Inv { s with registered, queued, handedOut, tested, marked } :=
  hi.of_calls rfl rfl rfl hh (.refl rfl) hi.calls

theorem Inv.trigger (hi : s.Inv) (e : Event) : (s.trigger e).Inv := by
  unfold DoIoState.trigger
  split
  · exact hi.withCallbacks fun _ h => h
  · exact hi

theorem inv_construct (hi : s.Inv) {i : Nat} {c : IoCall} (hc : s.calls[i]? = some c) {timeout : UInt64}
    (htimeout : c.timeout = some timeout) (hsum : s.clock.toNat + timeout.toNat < 2 ^ 64) :
    (s.setCall i { c with pc := .addTimer s.clock, first := some (c.first.getD s.clock) }).Inv := by
  have hok := hi.calls i c hc
  have hkeep : c.Keeps { c with pc := .addTimer s.clock, first := some (c.first.getD s.clock) } :=
    ⟨rfl, fun first hf => by simp [hf], fun he => he⟩
  have hfirst : c.first.getD s.clock ≤ s.clock := by
    cases hf : c.first with
    | none => exact UInt64.le_refl _
    | some first => exact hok.first first hf
  refine hi.setCall hc hkeep ⟨fun first hf => ?_, fun now hpc => ?_, fun h => ?_, fun h => by cases h⟩
  · obtain rfl := Option.some.inj hf
    exact hfirst
  · cases hpc
    exact ⟨_, timeout, rfl, htimeout, hfirst, hsum⟩
  · exact ⟨(hok.cancelled h).1, (hok.cancelled h).2.keep hkeep⟩

theorem inv_start (hi : s.Inv) (event : Event) (timeout : Option UInt64) :
    Inv { s with calls := s.calls ++ [.new event timeout] } := by
  refine hi.of_calls rfl rfl rfl (fun _ h => h) (fun i c hc => ?_) fun i c hc => ?_
  · refine ⟨c, ?_, .rfl c.pc c.timer c.cancelled⟩
    rw [List.getElem?_append_left (List.getElem?_eq_some_iff.1 hc).1]
    exact hc
  · rcases List.mem_append.1 (List.mem_of_getElem? hc) with hmem | hmem
    · obtain ⟨j, hj⟩ := List.getElem?_of_mem hmem
      exact hi.calls j c hj
    · obtain rfl := List.mem_singleton.1 hmem
      exact .new event timeout s.clock

theorem inv_callbackMark (hi : s.Inv) {i : Nat} {c : IoCall} (hc : s.calls[i]? = some c) (hin : i ∈ s.tested) :
    ({ s with tested := s.tested.erase i, marked := i :: s.marked }.setCall i { c with cancelled := true }).Inv := by
  obtain ⟨c', hc', hexp, hdue⟩ := hi.handed i (.inr (.inl hin))
  obtain rfl := Option.some.inj (hc.symm.trans hc')
  have hok := hi.calls i c hc
  have hok' : IoCall.Ok { c with cancelled := true } s.clock :=
    ⟨hok.first, hok.inserting, fun _ => ⟨hexp, hdue⟩, hok.timedOut⟩
  refine hi.of_calls rfl rfl rfl (fun j h => ?_) (keepsCalls_setCall hc (.rfl c.pc c.timer true) rfl) fun j d hd =>
    ok_setCall hi hok' hd
  rcases h with h | h | h
  · exact .inl h
  · exact .inr (.inl (List.mem_of_mem_erase h))
  · rcases List.mem_cons.1 h with rfl | h
    · exact .inr (.inl hin)
    · exact .inr (.inr h)

/-- The clock advances. -/
theorem inv_tick (hi : s.Inv) {now : UInt64} (h : s.step (.tick now) = some t) : t.Inv := by
  simp only [step, Option.ite_none_right_eq_some] at h
  obtain ⟨hle, h⟩ := h
  cases h
  refine ⟨hi.timers, hi.armed, fun i hin => ?_, fun w now' hw => UInt64.le_trans (hi.readings w now' hw) hle,
    fun i c hc => (hi.calls i c hc).mono hle⟩
  obtain ⟨c, hc, hexp, hdue⟩ := hi.handed i hin
  exact ⟨c, hc, hexp, hdue.mono hle⟩

/-- The underlying function returns. -/
theorem inv_call (hi : s.Inv) {i : Nat} {again : Bool} (h : s.step (.call i again) = some t) : t.Inv := by
  obtain ⟨c, hc, -, h⟩ := atPc_some h
  cases h
  refine hi.setCall hc (.rfl _ _ _) ((hi.calls i c hc).move c.timer (fun now => ?_) ?_)
  · split
    · split <;> exact IoPc.noConfusion
    · exact IoPc.noConfusion
  · split
    · split <;> exact IoPc.noConfusion
    · simp

/-- A call adds its timer to the set. -/
theorem inv_insert (hi : s.Inv) {i a : Nat} (h : s.step (.addTimer i a) = some t) : t.Inv := by
  obtain ⟨c, hc, h⟩ := Option.bind_eq_some_iff.1 h
  split at h
  · rename_i now timeout hpc htimeout
    rw [Option.ite_none_right_eq_some] at h
    cases h.2
    exact (inv_addTimer hi hc hpc htimeout h.1).setCall hc (.rfl _ _ _)
      ((hi.calls i c hc).move (some a) (fun _ => IoPc.noConfusion) IoPc.noConfusion)
  · cases h

/-- A call registers for its event, or gives up. -/
theorem inv_addEvent (hi : s.Inv) {i : Nat} {ok : Bool} (h : s.step (.addEvent i ok) = some t) : t.Inv := by
  obtain ⟨c, hc, -, h⟩ := atPc_some h
  split at h
  · rw [Option.ite_none_right_eq_some] at h
    cases h.2
    have hi' : Inv { s with registered := Function.update s.registered c.event (some i) } :=
      hi.withCallbacks fun _ h => h
    exact hi'.setCall hc (.rfl _ _ _) ((hi.calls i c hc).move c.timer (fun _ => IoPc.noConfusion) IoPc.noConfusion)
  · obtain ⟨s', hs', rfl⟩ := Option.map_eq_some_iff.1 h
    obtain ⟨hi', hcalls, hclock⟩ := inv_cancelTimer hi hs'
    exact hi'.setCall (hcalls ▸ hc) (.rfl _ _ _)
      (hclock ▸ (hi.calls i c hc).move c.timer (fun _ => IoPc.noConfusion) (by simp))

/-- A call that was held goes on. -/
theorem inv_resume (hi : s.Inv) {i : Nat} (h : s.step (.resume i) = some t) : t.Inv := by
  obtain ⟨c, hc, -, h⟩ := atPc_some h
  rw [Option.ite_none_right_eq_some] at h
  cases h.2
  have hi' : Inv { s with queued := Function.update s.queued i (s.queued i - 1) } := hi.withCallbacks fun _ h => h
  exact hi'.setCall hc (.rfl _ _ _) ((hi.calls i c hc).move c.timer (fun _ => IoPc.noConfusion) IoPc.noConfusion)

/-- A call cancels its timer. -/
theorem inv_unset (hi : s.Inv) {i : Nat} (h : s.step (.cancelTimer i) = some t) : t.Inv := by
  obtain ⟨c, hc, -, h⟩ := atPc_some h
  obtain ⟨s', hs', rfl⟩ := Option.map_eq_some_iff.1 h
  obtain ⟨hi', hcalls, hclock⟩ := inv_cancelTimer hi hs'
  exact hi'.setCall (hcalls ▸ hc) (.rfl _ _ _)
    (hclock ▸ (hi.calls i c hc).move none (fun _ => IoPc.noConfusion) IoPc.noConfusion)

/-- A call looks at `cancelled`: it times out only when its timer has said so. -/
theorem inv_test (hi : s.Inv) {i : Nat} (h : s.step (.test i) = some t) : t.Inv := by
  obtain ⟨c, hc, -, h⟩ := atPc_some h
  cases h
  have hok := hi.calls i c hc
  refine hi.setCall hc (.rfl _ _ _) ?_
  split
  · rename_i hcancelled
    refine ⟨hok.first, fun now hpc => ?_, hok.cancelled, fun _ => hok.cancelled hcancelled⟩
    cases hpc
  · exact hok.move c.timer (fun _ => IoPc.noConfusion) IoPc.noConfusion

/-- A worker reads the clock. -/
theorem inv_readClock (hi : s.Inv) {w : Nat} (h : s.step (.readClock w) = some t) : t.Inv := by
  cases h
  refine ⟨hi.timers, hi.armed, hi.handed, fun w' now hw => ?_, hi.calls⟩
  by_cases hww : w' = w
  · subst hww
    simp only [Function.update_self, Option.mem_def, Option.some.injEq] at hw
    exact hw ▸ UInt64.le_refl _
  · simp only [Function.update_of_ne hww] at hw
    exact hi.readings w' now hw

/-- A worker hands callbacks out. -/
theorem inv_expire (hi : s.Inv) {w key : Nat} (ha : (DoIoLabel.expire w key).NoRollover s)
    (h : s.step (.expire w key) = some t) : t.Inv := by
  obtain ⟨now, hnow, h⟩ := Option.bind_eq_some_iff.1 h
  rw [Option.ite_none_right_eq_some] at h
  obtain ⟨hkey, h⟩ := h
  cases hr : s.manager.listExpiredCb now key with
  | error e =>
    rw [hr] at h
    cases h
  | ok r =>
    rw [hr] at h
    cases h
    exact inv_handOut hi hnow hkey (ha now hnow) hr

/-- A callback that was handed out is dropped, or goes on. -/
theorem inv_callbackTest (hi : s.Inv) {i : Nat} (h : s.step (.callbackTest i) = some t) : t.Inv := by
  simp only [step, Option.ite_none_right_eq_some] at h
  obtain ⟨hin, h⟩ := h
  obtain ⟨c, hc, rfl⟩ := Option.map_eq_some_iff.1 h
  have hdrop : Inv { s with handedOut := s.handedOut.erase i } :=
    hi.withCallbacks fun j hj => hj.imp_left List.mem_of_mem_erase
  have hgo : Inv { s with handedOut := s.handedOut.erase i, tested := i :: s.tested } := by
    refine hi.withCallbacks fun j hj => ?_
    rcases hj with hj | hj | hj
    · exact .inl (List.mem_of_mem_erase hj)
    · rcases List.mem_cons.1 hj with rfl | hj
      · exact .inl hin
      · exact .inr (.inl hj)
    · exact .inr (.inr hj)
  split
  · exact hdrop
  · split
    · exact hdrop
    · exact hgo

/-- A callback cancels the event. -/
theorem inv_callbackCancelEvent (hi : s.Inv) {i : Nat} {ok : Bool}
    (h : s.step (.callbackCancelEvent i ok) = some t) : t.Inv := by
  simp only [step, Option.ite_none_right_eq_some] at h
  obtain ⟨hin, h⟩ := h
  obtain ⟨c, hc, rfl⟩ := Option.map_eq_some_iff.1 h
  have hdone : Inv { s with marked := s.marked.erase i } :=
    hi.withCallbacks fun j hj => hj.imp_right fun h => h.imp_right List.mem_of_mem_erase
  split
  · exact hdone.trigger c.event
  · exact hdone

/-- Other code uses the timers. -/
theorem inv_foreign (hi : s.Inv) {op : TimerOp (Option Nat)} (h : s.step (.other op) = some t) : t.Inv := by
  simp only [step, Option.ite_none_right_eq_some] at h
  obtain ⟨⟨hop, he⟩, h⟩ := h
  cases hr : op.run s.manager with
  | error e =>
    rw [hr] at h
    cases h
  | ok m =>
    rw [hr] at h
    cases h
    exact inv_other hi hop he hr

/-- Every step that sees no rollover keeps the invariant. -/
theorem inv_step {a : DoIoLabel} (hi : s.Inv) (ha : a.NoRollover s) (h : s.step a = some t) : t.Inv := by
  cases a with
  | tick now => exact inv_tick hi h
  | start event timeout =>
    cases h
    exact inv_start hi event timeout
  | call i again => exact inv_call hi h
  | construct i =>
    obtain ⟨c, hc, -, h⟩ := atPc_some h
    obtain ⟨timeout, htimeout, h⟩ := Option.bind_eq_some_iff.1 h
    rw [Option.ite_none_right_eq_some] at h
    cases h.2
    exact inv_construct hi hc htimeout h.1
  | addTimer i a => exact inv_insert hi h
  | addEvent i ok => exact inv_addEvent hi h
  | deliver e =>
    cases h
    exact hi.trigger e
  | resume i => exact inv_resume hi h
  | cancelTimer i => exact inv_unset hi h
  | test i => exact inv_test hi h
  | readClock w => exact inv_readClock hi h
  | expire w key => exact inv_expire hi ha h
  | callbackTest i => exact inv_callbackTest hi h
  | callbackMark i =>
    simp only [step, Option.ite_none_right_eq_some] at h
    obtain ⟨hin, h⟩ := h
    obtain ⟨c, hc, rfl⟩ := Option.map_eq_some_iff.1 h
    exact inv_callbackMark hi hc hin
  | callbackCancelEvent i ok => exact inv_callbackCancelEvent hi h
  | other op => exact inv_foreign hi h

theorem inv_init (h : doIoSys.init s) : s.Inv := by
  obtain ⟨mem, now, rfl⟩ := h
  refine ⟨TimerManager.new_inv mem now, fun a ha => ?_, fun i hin => ?_, fun w now' hw => ?_, fun i c hc => ?_⟩
  · cases ha
  · simp at hin
  · cases hw
  · simp at hc

theorem inv_reachableWhen (h : doIoSys.ReachableWhen (fun s a => a.NoRollover s) s) : s.Inv :=
  h.invariant (fun _ => inv_init) fun _ _ _ hi ha hs => inv_step hi ha hs

end DoIoState

/-- A reading that is not older than that of the `listExpiredCb` before is not taken for a rollover. -/
theorem DoIoLabel.noRollover_of_le {s : DoIoState} {w key : Nat}
    (h : ∀ now ∈ s.readings w, s.manager.previousTime ≤ now) : (DoIoLabel.expire w key).NoRollover s :=
  fun now hnow => TimerManager.deleteClockRollover_of_le (h now hnow)

/-- **A call times out only by its own expired timer**, and not before its timeout has passed since it armed its first
one, in runs in which no `listExpiredCb` takes its reading of the clock for a rollover. -/
theorem io_times_out_by_own_timer {s : DoIoState} (h : doIoSys.ReachableWhen (fun s a => a.NoRollover s) s) {c : IoCall}
    (hc : c ∈ s.calls) (ht : c.TimedOut) : c.expired = true ∧ c.DueBy s.clock := by
  obtain ⟨i, hi⟩ := List.getElem?_of_mem hc
  exact ((DoIoState.inv_reachableWhen h).calls i c hi).timedOut ht

/-- The clock reads 1000, with nothing in the timers. -/
def newDoIo (now : UInt64) : DoIoState :=
  { manager := .new (fun _ => .ofNext 0) now, clock := now, readings := fun _ => none, calls := [],
    registered := fun _ => none, queued := fun _ => 0, handedOut := [], tested := [], marked := [] }

/-- What the callback of call 0 and then the call itself do once the callback has been handed out. -/
def timeoutSteps : List DoIoLabel :=
  [.callbackTest 0, .callbackMark 0, .callbackCancelEvent 0 true, .resume 0, .cancelTimer 0, .test 0]

/-- A call with a timeout of 1 s, whose timer expires after 2 s. -/
theorem io_times_out_by_own_timer_expired : ∃ c : IoCall, c.TimedOut ∧ c.expired = true ∧ c.DueBy 3000 := by
  obtain ⟨s, hs, hp⟩ := doIoSys.reachableWhen_of_exec (fun s a => a.NoRollover s) (newDoIo 1000) ⟨_, _, rfl⟩
    ([.start .read (some 1000), .call 0 true, .construct 0, .addTimer 0 1, .addEvent 0 true, .tick 3000, .readClock 0,
      .expire 0 2] ++ timeoutSteps)
    (p := fun s => s.clock == 3000 && s.calls.any fun c => c.pc == .returned true) rfl
  rw [Bool.and_eq_true, beq_iff_eq, List.any_eq_true] at hp
  obtain ⟨hclock, c, hc, hpc⟩ := hp
  have ht : c.TimedOut := beq_iff_eq.1 hpc
  exact ⟨c, ht, hclock ▸ io_times_out_by_own_timer hs hc ht⟩

/-- Worker 0 reads the clock at 1000 s and is held up. Worker 1 runs `listExpiredCb` at 5000 s, and a call with a
timeout of 60 s adds its timer. Then worker 0 goes on. -/
def staleOrder : List DoIoLabel :=
  [.other (.addTimer 1000000 100000000 none false 9), .readClock 0, .tick 5000000, .readClock 1, .expire 1 2,
    .start .read (some 60000), .call 0 true, .construct 0, .addTimer 0 1, .addEvent 0 true, .expire 0 2] ++ timeoutSteps

/-- The old reading makes the timer of the call expire at once. -/
theorem stale_reading_times_out : ∃ s, doIoSys.Reachable s ∧ ∃ c ∈ s.calls, c.TimedOut ∧ ¬c.DueBy s.clock := by
  obtain ⟨s, hs, hp⟩ := doIoSys.reachable_of_exec (newDoIo 1000000) ⟨_, _, rfl⟩ staleOrder
    (p := fun s => s.clock == 5000000 && s.calls.any fun c =>
      c.pc == .returned true && c.first == some 5000000 && c.timeout == some 60000) rfl
  rw [Bool.and_eq_true, beq_iff_eq, List.any_eq_true] at hp
  obtain ⟨hclock, c, hc, hpc⟩ := hp
  simp only [Bool.and_eq_true, beq_iff_eq] at hpc
  obtain ⟨⟨ht, hfirst⟩, htimeout⟩ := hpc
  refine ⟨s, hs, c, hc, ht, fun ⟨first, timeout, hf, hto, hle⟩ => ?_⟩
  rw [hfirst] at hf
  rw [htimeout] at hto
  cases hf
  cases hto
  rw [hclock] at hle
  exact absurd hle (by decide)

end Megalo
