import Megalo.Lib.System
import Mathlib.Logic.Function.Basic

/-!
# Timed waits of hooked calls

- `waitSys` is one fiber in `do_io` or `connect_with_timeout` with a finite timeout, and other workers that expire its
  timers, run their callbacks step by step, and deliver its event. `do_io` tries again after a wait and shares its
  `timer_info` among the waits, so a callback left over from an earlier wait can still run;
- `WaitState.Stuck`: the fiber is held with its event registered, the callback of its timer has finished, and nothing is
  queued that would resume it. That state is reachable when the callback runs before `addEvent` (`timed_wait_stuck`);
- it is not reachable as long as the callback of the current wait does not finish between the two calls, nor leaves the
  event registered (`WaitLabel.Clears`): `timed_wait_not_stuck`.
-/

namespace Megalo

/-- The hooked function. -/
inductive HookedCall
  | doIo
  | connectWithTimeout
  deriving DecidableEq

/-- Where the fiber is: about to call the underlying function, to arm its timer, to call `addEvent` or to call
`YieldToHold`; held; resumed and about to cancel its timer, or to test `cancelled`; or returned. -/
inductive WaitPc
  | call
  | arm
  | addEvent
  | yieldToHold
  | held
  | cancelTimer
  | test
  | returned
  deriving DecidableEq

/-- A condition timer: not there yet, in the timer set, taken out of it by `cancel`, or extracted by `listExpiredCb`
with its callback not yet run, past its test, past its write of `cancelled`, or finished. -/
inductive TimerPhase
  | absent
  | armed
  | stopped
  | extracted
  | tested
  | marked
  | finished
  deriving DecidableEq

/-- The fiber, the number of its current wait, the timer of each wait, `tinfo->cancelled`, whether its event is
registered, and how often the fiber is queued. -/
structure WaitState where
  pc : WaitPc
  wait : Nat
  timers : Nat → TimerPhase
  cancelled : Bool
  registered : Bool
  wakeups : Nat

namespace WaitState

/-- At the call of the hooked function. -/
def new : WaitState :=
  { pc := .call, wait := 0, timers := fun _ => .absent, cancelled := false, registered := false, wakeups := 0 }

def setTimer (s : WaitState) (k : Nat) (t : TimerPhase) : WaitState := { s with timers := Function.update s.timers k t }

/-- `timer->cancel()`. -/
def cancelTimer (s : WaitState) : WaitState := if s.timers s.wait = .armed then s.setTimer s.wait .stopped else s

/-- What `triggerEvent` does: the fiber is queued. -/
def trigger (s : WaitState) : WaitState := { s with registered := false, wakeups := s.wakeups + 1 }

end WaitState

/-- A step of the fiber, of a callback, or of the loop of `idle`. The underlying call returns `EAGAIN` (`EINPROGRESS`
for `connect`) or not, and `addEvent` and the `epoll_ctl` of `cancelEvent` succeed or not. -/
inductive WaitLabel
  | call (again : Bool)
  | arm
  | addEvent (rt : Bool)
  | yieldToHold
  | resume
  | cancelTimer
  | test
  | expire (k : Nat)
  | callbackTest (k : Nat)
  | callbackMark (k : Nat)
  | callbackCancelEvent (k : Nat) (ctl : Bool)
  | deliver

/-- The step of each label, when it is enabled. -/
def WaitState.step (hooked : HookedCall) (s : WaitState) : WaitLabel → Option WaitState
  | .call again => if s.pc = .call then some { s with pc := if again then .arm else .returned } else none
  | .arm => if s.pc = .arm then some { s.setTimer s.wait .armed with pc := .addEvent } else none
  | .addEvent rt =>
    if s.pc = .addEvent then
      some (if rt then { s with pc := .yieldToHold, registered := true } else { s.cancelTimer with pc := .returned })
    else none
  | .yieldToHold => if s.pc = .yieldToHold then some { s with pc := .held } else none
  | .resume =>
    if s.pc = .held ∧ 0 < s.wakeups then some { s with pc := .cancelTimer, wakeups := s.wakeups - 1 } else none
  | .cancelTimer => if s.pc = .cancelTimer then some { s.cancelTimer with pc := .test } else none
  | .test =>
    if s.pc = .test then
      some (if s.cancelled then { s with pc := .returned }
        else match hooked with
          | .doIo => { s with pc := .call, wait := s.wait + 1 }
          | .connectWithTimeout => { s with pc := .returned })
    else none
  | .expire k => if s.timers k = .armed then some (s.setTimer k .extracted) else none
  | .callbackTest k =>
    -- `!t` when the function has returned and with it its `tinfo`
    if s.timers k = .extracted then
      some (s.setTimer k (if s.pc = .returned ∨ s.cancelled then .finished else .tested))
    else none
  | .callbackMark k => if s.timers k = .tested then some { s.setTimer k .marked with cancelled := true } else none
  | .callbackCancelEvent k ctl =>
    if s.timers k = .marked then
      some (if s.registered ∧ ctl then (s.setTimer k .finished).trigger else s.setTimer k .finished)
    else none
  | .deliver => if s.registered then some s.trigger else none

/-- One fiber in a hooked call, and the other workers. -/
def waitSys (hooked : HookedCall) : Transition.Sys WaitState WaitLabel where
  init s := s = .new
  step s a := s.step hooked a

/-- The fiber is held, its event is registered, the callback of its timer has finished, and the fiber is not queued. -/
def WaitState.Stuck (s : WaitState) : Prop :=
  s.pc = .held ∧ s.registered = true ∧ s.timers s.wait = .finished ∧ s.wakeups = 0

instance (s : WaitState) : Decidable s.Stuck := inferInstanceAs (Decidable (_ ∧ _ ∧ _ ∧ _))

/-- The callback of the current wait does not end between the arming of its timer and `addEvent`, and where it ends with
the event registered it clears it: its `epoll_ctl` succeeds, and it does not find `cancelled` set by another
callback. -/
def WaitLabel.Clears (s : WaitState) : WaitLabel → Prop
  | callbackCancelEvent k ctl => k = s.wait → s.pc ≠ .addEvent ∧ (s.registered = true → ctl = true)
  | callbackTest k => k = s.wait → s.cancelled = true → s.pc ≠ .addEvent ∧ s.registered = false
  | _ => True

instance (s : WaitState) : (a : WaitLabel) → Decidable (a.Clears s)
  | .callbackCancelEvent k ctl =>
    inferInstanceAs (Decidable (k = s.wait → s.pc ≠ .addEvent ∧ (s.registered = true → ctl = true)))
  | .callbackTest k =>
    inferInstanceAs (Decidable (k = s.wait → s.cancelled = true → s.pc ≠ .addEvent ∧ s.registered = false))
  | .call _ | .arm | .addEvent _ | .yieldToHold | .resume | .cancelTimer | .test | .expire _ | .callbackMark _
  | .deliver =>
    inferInstanceAs (Decidable True)

/-! ## The invariant -/

namespace WaitState

/-- The fiber is about to be held, or held. -/
def Waiting (s : WaitState) : Prop := s.pc = .yieldToHold ∨ s.pc = .held

/-- Timers of waits to come are absent; an event is registered, or the fiber queued once, only while it waits; and the
event is neither registered nor about to be once the callback of the current timer has finished. -/
structure Inv (s : WaitState) : Prop where
  absent : ∀ k, s.wait < k ∨ k = s.wait ∧ (s.pc = .call ∨ s.pc = .arm) → s.timers k = .absent
  registered : s.registered = true → s.Waiting ∧ s.wakeups = 0
  queued : 0 < s.wakeups → s.Waiting ∧ s.wakeups = 1
  finished : s.timers s.wait = .finished → s.pc ≠ .addEvent ∧ s.registered = false

variable {s t : WaitState}

@[simp] theorem timers_setTimer (k : Nat) (t : TimerPhase) :
    (s.setTimer k t).timers = Function.update s.timers k t := rfl
@[simp] theorem wait_setTimer (k : Nat) (t : TimerPhase) : (s.setTimer k t).wait = s.wait := rfl

theorem inv_new : new.Inv where
  absent _ _ := rfl
  registered h := by cases h
  queued h := by cases h
  finished h := by cases h

/-- A timer that is there moves on; when it is the current one and finishes, the event is not registered. -/
theorem Inv.setTimer (hi : s.Inv) {k : Nat} (hk : s.timers k ≠ .absent) {t : TimerPhase}
    (ht : k = s.wait → t = .finished → s.pc ≠ .addEvent ∧ s.registered = false) : (s.setTimer k t).Inv where
  absent j hj := by
    rw [timers_setTimer, Function.update_of_ne]
    · exact hi.absent j hj
    · rintro rfl
      exact hk (hi.absent j hj)
  registered := hi.registered
  queued := hi.queued
  finished hf := by
    rw [timers_setTimer, wait_setTimer] at hf
    by_cases h : s.wait = k
    · subst h
      rw [Function.update_self] at hf
      exact ht rfl hf
    · rw [Function.update_of_ne h] at hf
      exact hi.finished hf

theorem Inv.cancelTimer (hi : s.Inv) : s.cancelTimer.Inv := by
  unfold WaitState.cancelTimer
  split
  · rename_i h
    exact hi.setTimer (by rw [h]; decide) fun _ h => by cases h
  · exact hi

/-- The event is delivered, and the fiber queued. -/
theorem Inv.trigger (hi : s.Inv) (hr : s.registered = true) : s.trigger.Inv where
  absent := hi.absent
  registered h := by cases h
  queued _ := ⟨(hi.registered hr).1, by rw [WaitState.trigger, (hi.registered hr).2]⟩
  finished hf := ⟨(hi.finished hf).1, rfl⟩

/-- The fiber moves on from a point at which it does not wait. -/
theorem Inv.move (hi : s.Inv) (hw : ¬s.Waiting) {pc : WaitPc}
    (hpc : pc = .call ∨ pc = .arm → s.timers s.wait = .absent) (hadd : pc ≠ .addEvent) : Inv { s with pc := pc } where
  absent j hj := by
    rcases hj with hj | ⟨rfl, hj⟩
    · exact hi.absent j (.inl hj)
    · exact hpc hj
  registered h := absurd (hi.registered h).1 hw
  queued h := absurd (hi.queued h).1 hw
  finished _ := ⟨hadd, by
    rw [Bool.eq_false_iff]
    exact fun h => hw (hi.registered h).1⟩

theorem Inv.idle (hi : s.Inv) (hw : ¬s.Waiting) : s.registered = false ∧ s.wakeups = 0 :=
  ⟨Bool.eq_false_iff.2 fun h => hw (hi.registered h).1,
    Nat.eq_zero_of_not_pos fun h => hw (hi.queued h).1⟩

@[simp] theorem pc_cancelTimer : s.cancelTimer.pc = s.pc := by
  unfold cancelTimer
  split <;> rfl

theorem waiting_cancelTimer : s.cancelTimer.Waiting ↔ s.Waiting := by rw [Waiting, Waiting, pc_cancelTimer]

/-- Steps of the fiber keep the invariant. -/
theorem Inv.arm (hi : s.Inv) (hpc : s.pc = .arm) : Inv { s.setTimer s.wait .armed with pc := .addEvent } := by
  obtain ⟨hr, hq⟩ := hi.idle (by rw [Waiting, hpc]; decide)
  refine ⟨fun k hk => ?_, fun h => ?_, fun h => ?_, fun h => ?_⟩
  · rcases hk with hk | ⟨-, hk⟩
    · exact (Function.update_of_ne (Nat.ne_of_gt hk) _ _).trans (hi.absent k (.inl hk))
    · rcases hk with hk | hk <;> cases hk
  · exact absurd (hr.symm.trans h) (by decide)
  · exact absurd h (Nat.not_lt.2 (Nat.le_of_eq hq))
  · have harmed : Function.update s.timers s.wait TimerPhase.armed s.wait = .armed := Function.update_self ..
    exact absurd (harmed.symm.trans h) (by decide)

theorem Inv.addEvent (hi : s.Inv) (hpc : s.pc = .addEvent) :
    Inv { s with pc := .yieldToHold, registered := true } := by
  obtain ⟨-, hq⟩ := hi.idle (by rw [Waiting, hpc]; decide)
  refine ⟨fun k hk => ?_, fun _ => ⟨.inl rfl, hq⟩, fun h => absurd h (Nat.not_lt.2 (Nat.le_of_eq hq)), fun h => ?_⟩
  · rcases hk with hk | ⟨-, hk⟩
    · exact hi.absent k (.inl hk)
    · rcases hk with hk | hk <;> cases hk
  · exact absurd hpc (hi.finished h).1

theorem Inv.yieldToHold (hi : s.Inv) : Inv { s with pc := .held } := by
  refine ⟨fun k hk => ?_, fun h => ⟨.inr rfl, (hi.registered h).2⟩, fun h => ⟨.inr rfl, (hi.queued h).2⟩,
    fun h => ⟨WaitPc.noConfusion, (hi.finished h).2⟩⟩
  rcases hk with hk | ⟨-, hk⟩
  · exact hi.absent k (.inl hk)
  · rcases hk with hk | hk <;> cases hk

theorem Inv.resume (hi : s.Inv) (hq : 0 < s.wakeups) :
    Inv { s with pc := .cancelTimer, wakeups := s.wakeups - 1 } := by
  have hone := (hi.queued hq).2
  have hr : s.registered = false := by
    rw [Bool.eq_false_iff]
    intro h
    have := (hi.registered h).2
    omega
  refine ⟨fun k hk => ?_, fun h => ?_, fun h => ?_, fun _ => ⟨WaitPc.noConfusion, hr⟩⟩
  · rcases hk with hk | ⟨-, hk⟩
    · exact hi.absent k (.inl hk)
    · rcases hk with hk | hk <;> cases hk
  · exact absurd (hr.symm.trans h) (by decide)
  · simp only at h
    omega

theorem Inv.retry (hi : s.Inv) (hpc : s.pc = .test) : Inv { s with pc := .call, wait := s.wait + 1 } := by
  obtain ⟨hr, hq⟩ := hi.idle (by rw [Waiting, hpc]; decide)
  have hnext : s.timers (s.wait + 1) = .absent := hi.absent _ (.inl (Nat.lt_succ_self _))
  refine ⟨fun k hk => ?_, fun h => ?_, fun h => ?_, fun h => ?_⟩
  · rcases hk with hk | ⟨rfl, -⟩
    · exact hi.absent k (.inl (Nat.lt_of_succ_lt hk))
    · exact hnext
  · exact absurd (hr.symm.trans h) (by decide)
  · exact absurd h (Nat.not_lt.2 (Nat.le_of_eq hq))
  · exact absurd (hnext.symm.trans h) (by decide)

/-- Every step that meets the condition keeps the invariant. -/
theorem Inv.step (hi : s.Inv) {hooked : HookedCall} {a : WaitLabel} (ha : a.Clears s)
    (h : s.step hooked a = some t) : t.Inv := by
  have hw {pc : WaitPc} (h : s.pc = pc) (h₁ : pc ≠ .yieldToHold) (h₂ : pc ≠ .held) : ¬s.Waiting := by
    rintro (h' | h') <;> rw [h] at h'
    · exact h₁ h'
    · exact h₂ h'
  have hne : ¬(WaitPc.returned = .call ∨ WaitPc.returned = .arm) := by decide
  cases a with
  | call again =>
    simp only [WaitState.step] at h
    split at h <;> cases h
    rename_i hpc
    refine hi.move (hw hpc (by decide) (by decide)) (fun _ => hi.absent _ (.inr ⟨rfl, .inl hpc⟩)) ?_
    cases again <;> decide
  | arm =>
    simp only [WaitState.step] at h
    split at h <;> cases h
    rename_i hpc
    exact hi.arm hpc
  | addEvent rt =>
    simp only [WaitState.step] at h
    split at h <;> cases h
    rename_i hpc
    cases rt with
    | true => exact hi.addEvent hpc
    | false =>
      refine hi.cancelTimer.move ?_ (fun h => absurd h hne) (by decide)
      rw [waiting_cancelTimer]
      exact hw hpc (by decide) (by decide)
  | yieldToHold =>
    simp only [WaitState.step] at h
    split at h <;> cases h
    exact hi.yieldToHold
  | resume =>
    simp only [WaitState.step] at h
    split at h <;> cases h
    rename_i hpc
    exact hi.resume hpc.2
  | cancelTimer =>
    simp only [WaitState.step] at h
    split at h <;> cases h
    rename_i hpc
    refine hi.cancelTimer.move ?_ (fun h => absurd h (by decide)) (by decide)
    rw [waiting_cancelTimer]
    exact hw hpc (by decide) (by decide)
  | test =>
    simp only [WaitState.step] at h
    split at h <;> cases h
    rename_i hpc
    have hret := hi.move (hw hpc (by decide) (by decide)) (fun h => absurd h hne) (by decide)
    split
    · exact hret
    · cases hooked with
      | doIo => exact hi.retry hpc
      | connectWithTimeout => exact hret
  | expire k =>
    simp only [WaitState.step] at h
    split at h <;> cases h
    rename_i hk
    exact hi.setTimer (by rw [hk]; decide) fun _ h => by cases h
  | callbackTest k =>
    simp only [WaitState.step] at h
    split at h <;> cases h
    rename_i hk
    refine hi.setTimer (by rw [hk]; decide) fun hkw hf => ?_
    split at hf
    · rename_i hc
      rcases hc with hc | hc
      · exact ⟨by rw [hc]; decide, (hi.idle (hw hc (by decide) (by decide))).1⟩
      · exact ha hkw hc
    · cases hf
  | callbackMark k =>
    simp only [WaitState.step] at h
    split at h <;> cases h
    rename_i hk
    have hi' := hi.setTimer (k := k) (t := .marked) (by rw [hk]; decide) fun _ h => by cases h
    exact ⟨hi'.absent, hi'.registered, hi'.queued, hi'.finished⟩
  | callbackCancelEvent k ctl =>
    simp only [WaitState.step] at h
    split at h <;> cases h
    rename_i hk
    have habsent : s.timers k ≠ .absent := by rw [hk]; decide
    split
    · rename_i hr
      -- clearing the event first, the callback finishes with it not registered
      have hi' := (hi.trigger hr.1).setTimer (k := k) (t := .finished) habsent fun hkw _ => ⟨(ha hkw).1, rfl⟩
      exact hi'
    · rename_i hr
      refine hi.setTimer habsent fun hkw _ => ⟨(ha hkw).1, ?_⟩
      rw [Bool.eq_false_iff]
      exact fun h => hr ⟨h, (ha hkw).2 h⟩
  | deliver =>
    simp only [WaitState.step] at h
    split at h <;> cases h
    rename_i hr
    exact hi.trigger hr

end WaitState

/-- **A timed wait does not get stuck** in runs whose callbacks clear the event of their wait. -/
theorem timed_wait_not_stuck {hooked : HookedCall} {s : WaitState}
    (h : (waitSys hooked).ReachableWhen (fun s a => a.Clears s) s) : ¬s.Stuck := by
  have hi : s.Inv := h.invariant (fun s hs => by rw [hs]; exact WaitState.inv_new) fun s a t hi ha hs => hi.step ha hs
  rintro ⟨-, hr, hf, -⟩
  exact absurd (hr.symm.trans (hi.finished hf).2) (by decide)

/-- A wait that is ended by its timer: the callback runs while the fiber is held, and queues it. -/
theorem timed_wait_not_stuck_expired : ∃ s : WaitState, s.pc = .held ∧ s.timers s.wait = .finished ∧ 0 < s.wakeups ∧
    ¬s.Stuck := by
  obtain ⟨s, hs, hp⟩ := (waitSys .doIo).reachableWhen_of_exec (fun s a => a.Clears s) .new rfl
    [.call true, .arm, .addEvent true, .yieldToHold, .expire 0, .callbackTest 0, .callbackMark 0,
      .callbackCancelEvent 0 true]
    (p := fun s => s.pc == .held && s.timers s.wait == .finished && decide (0 < s.wakeups)) rfl
  rw [Bool.and_eq_true, Bool.and_eq_true, beq_iff_eq, beq_iff_eq, decide_eq_true_eq] at hp
  exact ⟨s, hp.1.1, hp.1.2, hp.2, timed_wait_not_stuck hs⟩

/-- The order in which the callback runs between the arming of the timer and `addEvent`. -/
def stuckOrder : List WaitLabel :=
  [.call true, .arm, .expire 0, .callbackTest 0, .callbackMark 0, .callbackCancelEvent 0 true, .addEvent true,
    .yieldToHold]

/-- The callback runs before `addEvent`, finds nothing to cancel, and the fiber is held for good: in `do_io` and in
`connect_with_timeout`. -/
theorem timed_wait_stuck : (∃ s : WaitState, (waitSys .doIo).Reachable s ∧ s.Stuck) ∧
    ∃ s : WaitState, (waitSys .connectWithTimeout).Reachable s ∧ s.Stuck := by
  constructor
  · obtain ⟨s, hs, hp⟩ := (waitSys .doIo).reachable_of_exec .new rfl stuckOrder (p := fun s => decide s.Stuck)
      rfl
    exact ⟨s, hs, of_decide_eq_true hp⟩
  · obtain ⟨s, hs, hp⟩ := (waitSys .connectWithTimeout).reachable_of_exec .new rfl stuckOrder
      (p := fun s => decide s.Stuck) rfl
    exact ⟨s, hs, of_decide_eq_true hp⟩

end Megalo
