import Megalo.Timer.Expiry
import Mathlib.Data.List.Count
import Mathlib.Algebra.Order.Ring.Int

/-!
# Hooked sleeps

- `SleepCall.ms` is the time for which `sleep`, `usleep` and `nanosleep` add a timer, with the wrapping of the
  arithmetic of the source: `unsigned int` in `sleep`, `int` in `nanosleep`;
- `sleepSys` is one sleeping fiber and any other use of the timers of the `IOManager`, under a clock that does not go
  back: `listExpiredCb` may hand out the callback of the fiber, which later puts it back in the run queue. Its readings
  may come out of order, as long as none is taken for a rollover (`SleepLabel.NoRollover`);
- `SleepState.Punctual`: the fiber is put back once and not early. That holds of every such run exactly when the time of
  the call in milliseconds has not wrapped (`sleep_punctual`).
-/

namespace Megalo

/-- `struct timespec`. -/
structure Timespec where
  tvSec : Int64
  tvNsec : Int64

/-- `req->tv_sec * 1000 + req->tv_nsec / 1000 / 1000`. -/
def Timespec.sum (req : Timespec) : ℤ := req.tvSec.toInt * 1000 + (req.tvNsec.toInt.tdiv 1000).tdiv 1000

/-- A call of one of the three hooks. -/
inductive SleepCall
  | sleep (seconds : UInt32)
  | usleep (usec : UInt32)
  | nanosleep (req : Timespec)

namespace SleepCall

/-- The time that the hook gives to `addTimer`. `nanosleep` has it in an `int`. -/
def ms : SleepCall → UInt64
  | sleep seconds => (seconds * 1000).toUInt64
  | usleep usec => (usec / 1000).toUInt64
  | nanosleep req => UInt64.ofInt (req.sum.bmod (2 ^ 32))

/-- The time that the caller asks for, in nanoseconds. -/
def requested : SleepCall → ℤ
  | sleep seconds => seconds.toNat * 10 ^ 9
  | usleep usec => usec.toNat * 10 ^ 3
  | nanosleep req => req.tvSec.toInt * 10 ^ 9 + req.tvNsec.toInt

/-- The time in milliseconds, rounded down. -/
def floorMs (call : SleepCall) : ℤ := call.requested / 10 ^ 6

/-- The time in milliseconds, rounded up. -/
def ceilMs (call : SleepCall) : ℤ := -(-call.requested / 10 ^ 6)

/-- The time in milliseconds fits the type in which the hook computes it, and is not negative. -/
def Fits : SleepCall → Prop
  | sleep seconds => seconds.toNat * 1000 < 2 ^ 32
  | usleep _ => True
  | nanosleep req => 0 ≤ req.sum ∧ req.sum < 2 ^ 31

end SleepCall

/-- What a timer is for: to put the fiber back in the run queue, or something else. -/
inductive SleepCb
  | schedule
  | other
  deriving DecidableEq

/-- The timers, the clock, the timer of the fiber while it is in the set, the clock reading of its constructor, the
last reading of `listExpiredCb` since then, how many callbacks that schedule the fiber have been handed out and not
run, and how often the fiber was put back. -/
structure SleepState where
  manager : TimerManager SleepCb
  clock : UInt64
  timer : Option Nat
  start : Option UInt64
  expired : Option UInt64
  pending : Nat
  woken : Nat

/-- A call that other code may make: it has no pointer to the timer of the fiber. -/
def TimerOp.foreign (timer : Option Nat) : TimerOp SleepCb → Bool
  | addTimer _ _ cb _ a => cb == .other && some a != timer
  | cancel a | refresh _ a | reset _ _ _ a | release a => some a != timer
  | getNextTimer _ => true
  | listExpiredCb _ _ => false

/-- The clock advances, the fiber goes to sleep, other code uses the timers, `listExpiredCb` runs with a clock
reading, or a worker runs a callback that was handed out. -/
inductive SleepLabel
  | tick (now : UInt64)
  | sleep (now : UInt64) (a : Nat)
  | other (op : TimerOp SleepCb)
  | expire (now : UInt64) (key : Nat)
  | runCallback

/-- `listExpiredCb` has handed out callbacks. -/
def SleepState.handOut (s : SleepState) (now : UInt64) (r : List (Option SleepCb) × TimerManager SleepCb) :
    SleepState :=
  { s with
    manager := r.2
    timer := if some .schedule ∈ r.1 then none else s.timer
    expired := some now
    pending := s.pending + r.1.count (some .schedule) }

/-- The step of each label, when it is enabled. -/
def SleepState.step (call : SleepCall) (s : SleepState) : SleepLabel → Option SleepState
  | .tick now => if s.clock ≤ now ∧ now.toNat < 2 ^ 63 then some { s with clock := now } else none
  | .sleep now a =>
    if s.start = none ∧ now ≤ s.clock ∧ s.manager.live a = false then
      some { s with
        manager := (s.manager.addTimer now call.ms (some .schedule) false a).1
        timer := some a
        start := some now
        expired := none }
    else none
  | .other op =>
    if op.foreign s.timer ∧ op.Enabled s.manager then
      (op.run s.manager).toOption.map fun m => { s with manager := m }
    else none
  | .expire now key =>
    if s.manager.live key = false ∧ now ≤ s.clock then
      (s.manager.listExpiredCb now key).toOption.map (s.handOut now)
    else none
  | .runCallback => if 0 < s.pending then some { s with pending := s.pending - 1, woken := s.woken + 1 } else none

/-- One sleeping fiber, and the timers. -/
def sleepSys (call : SleepCall) : Transition.Sys SleepState SleepLabel where
  init s := ∃ mem now, now.toNat < 2 ^ 63 ∧
    s = { manager := .new mem now, clock := now, timer := none, start := none, expired := none, pending := 0
          woken := 0 }
  step := SleepState.step call

/-- No `listExpiredCb` takes its reading of the clock for a rollover. -/
def SleepLabel.NoRollover (s : SleepState) : SleepLabel → Prop
  | expire now _ => (s.manager.deleteClockRollover now).1 = false
  | _ => True

/-- The fiber is put back at most once, not before the time it asked for has passed, and by the first `listExpiredCb`
after it. -/
structure SleepState.Punctual (call : SleepCall) (s : SleepState) : Prop where
  once : s.pending + s.woken ≤ 1
  notEarly : 0 < s.woken → ∃ start, s.start = some start ∧ start.toNat + call.floorMs ≤ s.clock.toNat
  back : ∀ start ∈ s.start, ∀ now ∈ s.expired, start.toNat + call.ceilMs ≤ now.toNat → s.pending + s.woken = 1

/-! ## The time of the timer -/

namespace SleepCall

variable {call : SleepCall}

/-- The sum of `nanosleep` is the time in milliseconds, rounded one way or the other. -/
theorem sum_bounds (req : Timespec) : (nanosleep req).floorMs ≤ req.sum ∧ req.sum ≤ (nanosleep req).ceilMs ∧
    req.sum ≤ (nanosleep req).floorMs + 1 ∧ (nanosleep req).ceilMs ≤ req.sum + 1 := by
  simp only [floorMs, ceilMs, requested, Timespec.sum]
  generalize req.tvSec.toInt = sec
  generalize req.tvNsec.toInt = nsec
  rcases Int.le_total 0 nsec with h | h
  · rw [Int.tdiv_eq_ediv_of_nonneg h, Int.tdiv_eq_ediv_of_nonneg (Int.ediv_nonneg h (by decide))]
    omega
  · obtain ⟨k, hk, rfl⟩ : ∃ k, 0 ≤ k ∧ nsec = -k := ⟨-nsec, by omega, by omega⟩
    rw [Int.neg_tdiv, Int.neg_tdiv, Int.tdiv_eq_ediv_of_nonneg hk,
      Int.tdiv_eq_ediv_of_nonneg (Int.ediv_nonneg hk (by decide))]
    omega

/-- The `int` of `nanosleep` differs from the sum by a multiple of `2 ^ 32`, and is converted to `uint64_t`. -/
theorem ms_nanosleep (req : Timespec) : ∃ t k : ℤ, t = req.sum - 2 ^ 32 * k ∧ -2 ^ 31 ≤ t ∧ t < 2 ^ 31 ∧
    ((nanosleep req).ms.toNat : ℤ) = if 0 ≤ t then t else 2 ^ 64 + t := by
  have hlo : -2 ^ 31 ≤ req.sum.bmod (2 ^ 32) := Int.le_bmod (m := 2 ^ 32) (by decide)
  have hhi : req.sum.bmod (2 ^ 32) < 2 ^ 31 := Int.bmod_lt (m := 2 ^ 32) (by decide)
  refine ⟨req.sum.bmod (2 ^ 32), req.sum.bdiv (2 ^ 32), Int.bmod_eq_self_sub_mul_bdiv .., hlo, hhi, ?_⟩
  rw [ms, UInt64.ofInt, UInt64.toNat_ofNat']
  generalize req.sum.bmod (2 ^ 32) = t at *
  split <;> omega

theorem toNat_ms_sleep (seconds : UInt32) : (sleep seconds).ms.toNat = seconds.toNat * 1000 % 2 ^ 32 := by
  simp [ms]

theorem toNat_ms_usleep (usec : UInt32) : (usleep usec).ms.toNat = usec.toNat / 1000 := by simp [ms]

/-- A time that fits is the time of the timer. -/
theorem Fits.ms_bounds (h : call.Fits) : call.floorMs ≤ call.ms.toNat ∧ (call.ms.toNat : ℤ) ≤ call.ceilMs ∧
    call.ms.toNat < 2 ^ 32 := by
  cases call with
  | sleep seconds =>
    rw [toNat_ms_sleep, Nat.mod_eq_of_lt h]
    simp only [floorMs, ceilMs, requested, Fits] at *
    omega
  | usleep usec =>
    rw [toNat_ms_usleep]
    have := usec.toNat_lt
    simp only [floorMs, ceilMs, requested]
    omega
  | nanosleep req =>
    obtain ⟨hfloor, hceil, -, -⟩ := sum_bounds req
    obtain ⟨t, k, ht, hlo, hhi, hms⟩ := ms_nanosleep req
    obtain ⟨hpos, hlt⟩ := h
    have htsum : t = req.sum := by omega
    rw [if_pos (by omega), htsum] at hms
    omega

/-- A time that does not fit gives a timer that is due too early, or a time below zero one that is not due at once. -/
theorem ms_of_not_fits (h : ¬call.Fits) :
    (call.ms.toNat : ℤ) < call.floorMs ∧ call.ms.toNat < 2 ^ 32 ∨
      0 < call.floorMs ∧ 2 ^ 64 - 2 ^ 31 ≤ call.ms.toNat ∨
      call.ceilMs ≤ 0 ∧ 2 ^ 64 - 2 ^ 31 ≤ call.ms.toNat ∨
      call.ceilMs < 0 ∧ call.ms.toNat < 2 ^ 31 := by
  cases call with
  | sleep seconds =>
    refine .inl ?_
    rw [toNat_ms_sleep]
    simp only [floorMs, requested, Fits] at *
    omega
  | usleep usec => exact absurd trivial h
  | nanosleep req =>
    obtain ⟨-, -, hfloor, hceil⟩ := sum_bounds req
    obtain ⟨t, k, ht, hlo, hhi, hms⟩ := ms_nanosleep req
    rw [Fits, not_and_or] at h
    rcases h with h | h
    · by_cases hpos : 0 ≤ t
      · rw [if_pos hpos] at hms
        omega
      · rw [if_neg hpos] at hms
        omega
    · by_cases hpos : 0 ≤ t
      · rw [if_pos hpos] at hms
        omega
      · rw [if_neg hpos] at hms
        omega

end SleepCall

/-! ## The invariant -/

namespace SleepState

variable {call : SleepCall} {s t : SleepState}

/-- While the timer of the fiber is in the set it is the only one that schedules the fiber, no reading of
`listExpiredCb` has come to its time, and nothing was handed out; afterwards its callback was handed out once, in
time. -/
structure Inv (call : SleepCall) (s : SleepState) : Prop where
  timers : s.manager.Inv []
  clock : s.clock.toNat < 2 ^ 63
  only : ∀ a ∈ s.manager.timers, (s.manager.mem a).cb = some .schedule → s.timer = some a
  armed : ∀ a, s.timer = some a → ∃ start, s.start = some start ∧ start ≤ s.clock ∧ s.manager.live a = true ∧
    s.manager.mem a = Timer.new start call.ms (some .schedule) false ∧ s.pending + s.woken = 0 ∧
    ∀ now ∈ s.expired, ¬start + call.ms ≤ now
  unarmed : s.timer = none → s.start = none ∧ s.pending + s.woken = 0 ∨
    ∃ start, s.start = some start ∧ start ≤ s.clock ∧ s.pending + s.woken = 1 ∧ start + call.ms ≤ s.clock

theorem inv_init (h : (sleepSys call).init s) : s.Inv call := by
  obtain ⟨mem, now, hnow, rfl⟩ := h
  refine ⟨TimerManager.new_inv mem now, hnow, fun a ha => ?_, fun a ha => ?_, fun _ => .inl ⟨rfl, rfl⟩⟩
  · cases ha
  · cases ha

theorem inv_tick (hi : s.Inv call) {now : UInt64} (hle : s.clock ≤ now) (hlt : now.toNat < 2 ^ 63) :
    Inv call { s with clock := now } := by
  refine ⟨hi.timers, hlt, hi.only, fun a ha => ?_, fun hnone => ?_⟩
  · obtain ⟨start, hstart, hclock, hrest⟩ := hi.armed a ha
    exact ⟨start, hstart, UInt64.le_trans hclock hle, hrest⟩
  · rcases hi.unarmed hnone with h | ⟨start, hstart, hclock, hwoken, hdue⟩
    · exact .inl h
    · exact .inr ⟨start, hstart, UInt64.le_trans hclock hle, hwoken, UInt64.le_trans hdue hle⟩

/-- A fiber that does not sleep yet has no timer. -/
theorem Inv.timer_none (hi : s.Inv call) (hstart : s.start = none) : s.timer = none ∧ s.pending + s.woken = 0 := by
  cases htimer : s.timer with
  | some a =>
    obtain ⟨start, h, -⟩ := hi.armed a htimer
    rw [hstart] at h
    cases h
  | none =>
    rcases hi.unarmed htimer with h | ⟨start, h, -⟩
    · exact ⟨rfl, h.2⟩
    · rw [hstart] at h
      cases h

theorem inv_sleep (hi : s.Inv call) {now : UInt64} {a : Nat} (hstart : s.start = none) (hnow : now ≤ s.clock)
    (ha : s.manager.live a = false) :
    Inv call { s with
      manager := (s.manager.addTimer now call.ms (some .schedule) false a).1
      timer := some a
      start := some now
      expired := none } := by
  obtain ⟨htimer, hwoken⟩ := hi.timer_none hstart
  have hmem := (TimerManager.addTimerPtr_mem { s.manager with
    mem := Function.update s.manager.mem a (Timer.new now call.ms (some .schedule) false)
    live := Function.update s.manager.live a true } a)
  refine ⟨TimerManager.addTimer_inv hi.timers now call.ms .schedule false ha, hi.clock, fun b hb hcb => ?_,
    fun b hb => ?_, fun h => by cases h⟩
  · have hrun := TimerManager.run_armed hi.timers (.addTimer now call.ms .schedule false a) ha (by simp) rfl hb hcb
    rcases hrun with ⟨hb', hcb'⟩ | ⟨_, _, _, hop⟩
    · rw [hi.only b hb' hcb'] at htimer
      cases htimer
    · cases hop
      rfl
  · obtain rfl := Option.some.inj hb
    refine ⟨now, rfl, hnow, ?_, ?_, hwoken, by simp⟩
    · rw [TimerManager.addTimer, hmem.2]
      exact Function.update_self ..
    · rw [TimerManager.addTimer, hmem.1]
      exact Function.update_self ..

theorem foreign_spec {timer : Option Nat} {op : TimerOp SleepCb} (h : op.foreign timer = true) :
    (∀ now key, op ≠ .listExpiredCb now key) ∧ (∀ a, timer = some a → op.target ≠ some a) ∧
      ∀ now ms recurring a, op ≠ .addTimer now ms .schedule recurring a := by
  cases op with
  | addTimer now ms cb recurring a =>
    simp only [TimerOp.foreign, Bool.and_eq_true, beq_iff_eq, bne_iff_ne] at h
    refine ⟨by simp, fun b hb e => h.2 (hb ▸ e), fun _ _ _ _ e => ?_⟩
    rw [h.1] at e
    cases e
  | cancel a | refresh now a | reset now ms fromNow a | release a =>
    simp only [TimerOp.foreign, bne_iff_ne] at h
    exact ⟨by simp, fun b hb e => h (hb ▸ e), by simp⟩
  | getNextTimer now => exact ⟨by simp, by simp [TimerOp.target], by simp⟩
  | listExpiredCb now key => cases h

theorem inv_other (hi : s.Inv call) {op : TimerOp SleepCb} (hop : op.foreign s.timer = true) (he : op.Enabled s.manager)
    {m : TimerManager SleepCb} (hrun : op.run s.manager = .ok m) : Inv call { s with manager := m } := by
  obtain ⟨hexp, htarget, hadd⟩ := foreign_spec hop
  obtain ⟨m₁, hrun₁, hinv⟩ := TimerManager.inv_run hi.timers op he
  obtain rfl := Except.ok.inj (hrun.symm.trans hrun₁)
  refine ⟨hinv, hi.clock, fun a ha hcb => ?_, fun a ha => ?_, hi.unarmed⟩
  · rcases TimerManager.run_armed hi.timers _ he hexp hrun ha hcb with ⟨ha', hcb'⟩ | ⟨now, ms, recurring, rfl⟩
    · exact hi.only a ha' hcb'
    · exact absurd rfl (hadd now ms recurring a)
  · obtain ⟨start, hstart, hclock, hlive, hmem, hrest⟩ := hi.armed a ha
    obtain ⟨hmem', hlive'⟩ := TimerManager.run_mem _ hexp hrun (htarget a ha)
    exact ⟨start, hstart, hclock, hlive'.trans hlive, hmem'.trans hmem, hrest⟩

/-- How often the callback of one timer is in a list of callbacks. -/
theorem count_map_eq {α β : Type*} [DecidableEq α] [BEq β] [LawfulBEq β] {l : List α} (hnd : l.Nodup) {f : α → β}
    {x : β} {a : α} (h : ∀ b ∈ l, f b = x ↔ b = a) : (l.map f).count x = if a ∈ l then 1 else 0 := by
  rw [List.count, List.countP_map, ← hnd.count, List.count]
  exact List.countP_congr fun b hb => by simpa using h b hb

theorem pending_handOut (now : UInt64) (r : List (Option SleepCb) × TimerManager SleepCb) :
    (s.handOut now r).pending = s.pending + r.1.count (some .schedule) := rfl

section HandsOut

variable {l : List Nat}

/-- Timers of the set hand out the callback of the fiber exactly when the timer of the fiber is one of them. -/
theorem Inv.mem_callbacks (hi : s.Inv call) (hl : l.Sublist s.manager.timers) :
    some .schedule ∈ l.map (fun a => (s.manager.mem a).cb) ↔ ∃ a ∈ l, s.timer = some a := by
  rw [List.mem_map]
  constructor
  · rintro ⟨b, hb, hcb⟩
    exact ⟨b, hb, hi.only b (hl.subset hb) hcb⟩
  · rintro ⟨a, ha, htimer⟩
    obtain ⟨start, -, -, -, hnew, -⟩ := hi.armed a htimer
    exact ⟨a, ha, by rw [hnew, Timer.new]⟩

/-- They hand it out once. -/
theorem Inv.count_callbacks (hi : s.Inv call) (hl : l.Sublist s.manager.timers) {a : Nat} (htimer : s.timer = some a) :
    (l.map fun a => (s.manager.mem a).cb).count (some .schedule) = if a ∈ l then 1 else 0 := by
  apply count_map_eq (hi.timers.nodup.sublist hl)
  intro b hb
  constructor
  · intro hcb
    exact (Option.some.inj (htimer.symm.trans (hi.only b (hl.subset hb) hcb))).symm
  · rintro rfl
    obtain ⟨start, -, -, -, hnew, -⟩ := hi.armed b htimer
    rw [hnew]
    rfl

end HandsOut

/-- What `listExpiredCb` does with the timer of the fiber: it hands out its callback if it is due, and leaves it
otherwise. -/
theorem expire_spec (hi : s.Inv call) {now : UInt64} {key : Nat}
    (hroll : (s.manager.deleteClockRollover now).1 = false) (h : s.step call (.expire now key) = some t) :
    now ≤ s.clock ∧ t.manager.Inv [] ∧ t.clock = s.clock ∧ t.start = s.start ∧ t.expired = some now ∧
      t.woken = s.woken ∧
      (∀ a ∈ t.manager.timers, (t.manager.mem a).cb = some .schedule → s.timer = some a ∧ t.timer = s.timer) ∧
      (s.timer = none → t.timer = none ∧ t.pending = s.pending) ∧
      ∀ a start, s.timer = some a → s.start = some start →
        if start + call.ms ≤ now then t.timer = none ∧ t.pending = s.pending + 1
        else t.timer = some a ∧ t.pending = s.pending ∧ t.manager.live a = true ∧
          t.manager.mem a = s.manager.mem a := by
  simp only [step, Option.ite_none_right_eq_some] at h
  obtain ⟨⟨hkey, hnow⟩, h⟩ := h
  obtain ⟨cbs, m, hexpired, hinv⟩ := TimerManager.listExpiredCb_inv hi.timers now key
  obtain ⟨l, hl, rfl, hlive, hmem, hdue⟩ := TimerManager.listExpiredCb_spec hi.timers hkey hexpired
  rw [hexpired] at h
  cases h
  have hdue := hdue hroll
  have hmemcbs := hi.mem_callbacks hl
  refine ⟨hnow, hinv, rfl, rfl, rfl, rfl, fun b hb hcb => ?_, fun hnone => ?_, fun a start htimer hstart => ?_⟩
  · have hlive' : s.manager.live b = true := hlive ▸ hinv.live b hb
    have hcb : (m.mem b).cb = some .schedule := hcb
    by_cases hbl : b ∈ l
    · -- the timer of the fiber is not recurring
      rw [hmem b, if_pos hbl] at hcb
      obtain ⟨hrec, hcb⟩ := TimerManager.recurring_of_expired hcb
      obtain ⟨start, -, -, -, hnew, -⟩ := hi.armed b (hi.only b (hl.subset hbl) hcb)
      rw [hnew] at hrec
      cases hrec
    · rw [hmem b, if_neg hbl] at hcb
      have htimer := hi.only b ((hi.timers.armed b hlive' List.not_mem_nil).2 (by rw [hcb]; rfl)) hcb
      refine ⟨htimer, if_neg fun hin => ?_⟩
      obtain ⟨a, ha, htimer'⟩ := hmemcbs.1 hin
      rw [htimer] at htimer'
      cases htimer'
      exact hbl ha
  · have hnot : some .schedule ∉ l.map (fun a => (s.manager.mem a).cb) := fun hin => by
      obtain ⟨a, -, htimer⟩ := hmemcbs.1 hin
      rw [hnone] at htimer
      cases htimer
    exact ⟨(if_neg hnot).trans hnone, by rw [pending_handOut, List.count_eq_zero.2 hnot, Nat.add_zero]⟩
  · obtain ⟨start', hstart', -, hlive', hnew, -⟩ := hi.armed a htimer
    obtain rfl := Option.some.inj (hstart.symm.trans hstart')
    have hat : a ∈ s.manager.timers := (hi.timers.armed a hlive' List.not_mem_nil).2 (by rw [hnew]; rfl)
    have hmeml : a ∈ l ↔ start + call.ms ≤ now := by
      rw [hdue a hat, hnew]
      rfl
    have hcount := hi.count_callbacks hl htimer
    have hin : some .schedule ∈ l.map (fun a => (s.manager.mem a).cb) ↔ a ∈ l := by
      rw [hmemcbs, htimer]
      constructor
      · rintro ⟨b, hb, hab⟩
        exact Option.some.inj hab ▸ hb
      · intro ha
        exact ⟨a, ha, rfl⟩
    split
    · rename_i hle
      exact ⟨if_pos (hin.2 (hmeml.2 hle)), by rw [pending_handOut, hcount, if_pos (hmeml.2 hle)]⟩
    · rename_i hle
      have hal : a ∉ l := fun h => hle (hmeml.1 h)
      refine ⟨(if_neg fun h => hal (hin.1 h)).trans htimer, ?_, (congrFun hlive a).trans hlive', ?_⟩
      · rw [pending_handOut, hcount, if_neg hal, Nat.add_zero]
      · exact (hmem a).trans (if_neg hal)

theorem inv_expire (hi : s.Inv call) {now : UInt64} {key : Nat}
    (hroll : (s.manager.deleteClockRollover now).1 = false) (h : s.step call (.expire now key) = some t) :
    t.Inv call := by
  obtain ⟨hnow, hinv, hclock, hstart, hexpired, hwoken, honly, hnone, hsome⟩ := expire_spec hi hroll h
  refine ⟨hinv, hclock ▸ hi.clock, fun a ha hcb => ?_, fun a ha => ?_, fun ht => ?_⟩
  · obtain ⟨htimer, heq⟩ := honly a ha hcb
    exact heq.trans htimer
  · cases htimer : s.timer with
    | none =>
      rw [(hnone htimer).1] at ha
      cases ha
    | some b =>
      obtain ⟨start, hs, hle, hlive, hnew, hwoke, -⟩ := hi.armed b htimer
      have hcase := hsome b start htimer hs
      split at hcase
      · rw [hcase.1] at ha
        cases ha
      · rename_i hdue
        obtain ⟨htimer', hpending, hlive', hmem⟩ := hcase
        obtain rfl := Option.some.inj (htimer'.symm.trans ha)
        refine ⟨start, hstart.trans hs, hclock ▸ hle, hlive', hmem.trans hnew, ?_, ?_⟩
        · rw [hpending, hwoken]
          exact hwoke
        · rw [hexpired]
          intro now' hnow'
          cases hnow'
          exact hdue
  · cases htimer : s.timer with
    | none =>
      rw [hstart, hclock, (hnone htimer).2, hwoken]
      exact hi.unarmed htimer
    | some b =>
      obtain ⟨start, hs, hle, -, -, hwoke, -⟩ := hi.armed b htimer
      have hcase := hsome b start htimer hs
      split at hcase
      · rename_i hdue
        refine .inr ⟨start, hstart.trans hs, hclock ▸ hle, ?_, hclock ▸ UInt64.le_trans hdue hnow⟩
        rw [hcase.2, hwoken]
        omega
      · rw [hcase.1] at ht
        cases ht

theorem inv_step {a : SleepLabel} (hi : s.Inv call) (ha : a.NoRollover s) (h : s.step call a = some t) :
    t.Inv call := by
  cases a with
  | tick now =>
    simp only [step, Option.ite_none_right_eq_some] at h
    obtain ⟨⟨hle, hlt⟩, h⟩ := h
    cases h
    exact inv_tick hi hle hlt
  | sleep now a =>
    simp only [step, Option.ite_none_right_eq_some] at h
    obtain ⟨⟨hstart, hnow, ha⟩, h⟩ := h
    cases h
    exact inv_sleep hi hstart hnow ha
  | other op =>
    simp only [step, Option.ite_none_right_eq_some] at h
    obtain ⟨⟨hop, he⟩, h⟩ := h
    obtain ⟨m, hm, rfl⟩ := Option.map_eq_some_iff.1 h
    cases hrun : op.run s.manager with
    | error e =>
      rw [hrun] at hm
      cases hm
    | ok m' =>
      rw [hrun] at hm
      cases hm
      exact inv_other hi hop he hrun
  | expire now key => exact inv_expire hi ha h
  | runCallback =>
    simp only [step, Option.ite_none_right_eq_some] at h
    obtain ⟨hpos, h⟩ := h
    cases h
    have hsum : s.pending - 1 + (s.woken + 1) = s.pending + s.woken := by omega
    refine ⟨hi.timers, hi.clock, hi.only, fun a ha => ?_, fun hnone => ?_⟩
    · obtain ⟨start, -, -, -, -, hwoken, -⟩ := hi.armed a ha
      omega
    · rw [hsum]
      exact hi.unarmed hnone

theorem inv_reachable (h : (sleepSys call).ReachableWhen (fun s a => a.NoRollover s) s) : s.Inv call :=
  h.invariant (fun _ => inv_init) fun _ _ _ hi ha hs => inv_step hi ha hs

/-! ## The runs of a call whose time fits -/

theorem Inv.punctual (hi : s.Inv call) (hfits : call.Fits) : s.Punctual call := by
  obtain ⟨hfloor, hceil, hlt⟩ := hfits.ms_bounds
  have hclock := hi.clock
  -- the time of the timer does not wrap
  have hsum : ∀ start, start ≤ s.clock → (start + call.ms).toNat = start.toNat + call.ms.toNat := fun start hle => by
    have := UInt64.le_iff_toNat_le.1 hle
    rw [UInt64.toNat_add, Nat.mod_eq_of_lt (by omega)]
  cases htimer : s.timer with
  | some a =>
    obtain ⟨start, hstart, hle, -, -, hwoken, hexpired⟩ := hi.armed a htimer
    refine ⟨by omega, by omega, fun start' hs now hn hle' => ?_⟩
    obtain rfl := Option.some.inj (hstart.symm.trans hs)
    refine absurd (UInt64.le_iff_toNat_le.2 ?_) (hexpired now hn)
    rw [hsum start hle]
    omega
  | none =>
    rcases hi.unarmed htimer with ⟨hstart, hwoken⟩ | ⟨start, hstart, hle, hwoken, hdue⟩
    · refine ⟨by omega, by omega, fun start hs => ?_⟩
      rw [hstart] at hs
      cases hs
    · refine ⟨by omega, fun _ => ⟨start, hstart, ?_⟩, fun _ _ _ _ _ => hwoken⟩
      have hdue := UInt64.le_iff_toNat_le.1 hdue
      rw [hsum start hle] at hdue
      omega

/-! ## Runs of any call -/

/-- A run in which the fiber goes to sleep at one time, and `listExpiredCb` is called once, with a reading that is not
newer than the clock. -/
theorem exists_expired (call : SleepCall) {start clock now : UInt64} (hstart : start ≤ clock) (hnow : now ≤ clock)
    (hclock : clock.toNat < 2 ^ 63) : ∃ s, (sleepSys call).ReachableWhen (fun s a => a.NoRollover s) s ∧
      s.start = some start ∧ s.expired = some now ∧ s.clock = clock ∧ s.woken = 0 ∧
      s.pending = if start + call.ms ≤ now then 1 else 0 := by
  let s₀ : SleepState :=
    { manager := .new (fun _ => .ofNext 0) 0, clock := 0, timer := none, start := none, expired := none, pending := 0,
      woken := 0 }
  let s₁ : SleepState := { s₀ with
    manager := (s₀.manager.addTimer start call.ms (some .schedule) false 0).1
    clock := clock
    timer := some 0
    start := some start }
  have hprevious : s₁.manager.previousTime = 0 := by
    simp only [s₁, s₀, TimerManager.addTimer, TimerManager.addTimerPtr]
    split <;> rfl
  have hlive : s₁.manager.live 1 = false := by
    rw [show s₁.manager.live = _ from (TimerManager.addTimerPtr_mem _ 0).2]
    rfl
  have htick : (sleepSys call).step s₀ (.tick clock) = some { s₀ with clock := clock } :=
    if_pos ⟨UInt64.zero_le, hclock⟩
  have hsleep : (sleepSys call).step { s₀ with clock := clock } (.sleep start 0) = some s₁ :=
    if_pos ⟨rfl, hstart, rfl⟩
  have h₀ : (sleepSys call).ReachableWhen (fun s a => a.NoRollover s) s₀ := .init ⟨_, 0, by decide, rfl⟩
  have h₁ : (sleepSys call).ReachableWhen (fun s a => a.NoRollover s) s₁ :=
    (h₀.tail (SleepLabel.tick clock) trivial htick).tail (SleepLabel.sleep start 0) trivial hsleep
  have hi := inv_reachable h₁
  obtain ⟨cbs, m, hexpired, -⟩ := TimerManager.listExpiredCb_inv hi.timers now 1
  have hroll : (s₁.manager.deleteClockRollover now).1 = false :=
    TimerManager.deleteClockRollover_of_le (hprevious ▸ UInt64.zero_le)
  have hstep : step call s₁ (.expire now 1) = some (s₁.handOut now (cbs, m)) := by
    simp only [step, hlive, hexpired, show s₁.clock = clock from rfl, hnow]
    rfl
  obtain ⟨-, -, hclock', hstart', hexpired', hwoken', -, -, hcase⟩ := expire_spec hi hroll hstep
  refine ⟨s₁.handOut now (cbs, m), h₁.tail (.expire now 1) hroll hstep, hstart', hexpired', hclock', hwoken', ?_⟩
  have hcase := hcase 0 start rfl rfl
  by_cases hdue : start + call.ms ≤ now
  · rw [if_pos hdue] at hcase ⊢
    exact hcase.2
  · rw [if_neg hdue] at hcase ⊢
    exact hcase.2.1

/-- A worker runs the callback. -/
theorem exists_woken (call : SleepCall) {start clock : UInt64} (hstart : start ≤ clock) (hclock : clock.toNat < 2 ^ 63)
    (hdue : start + call.ms ≤ clock) :
    ∃ s, (sleepSys call).ReachableWhen (fun s a => a.NoRollover s) s ∧ s.start = some start ∧ s.clock = clock ∧
      s.woken = 1 := by
  obtain ⟨s, hs, hs', -, hc, hwoken, hpending⟩ := exists_expired call hstart (UInt64.le_refl clock) hclock
  rw [if_pos hdue] at hpending
  refine ⟨{ s with pending := s.pending - 1, woken := s.woken + 1 }, hs.tail .runCallback trivial ?_, hs', hc, ?_⟩
  · simp [sleepSys, step, hpending]
  · simp only [hwoken, Nat.zero_add]

end SleepState

/-- **Hooked sleeps are punctual** in every run without a rollover exactly when the time in milliseconds fits the type
in which the hook computes it. -/
theorem sleep_punctual (call : SleepCall) :
    (∀ s, (sleepSys call).ReachableWhen (fun s a => a.NoRollover s) s → s.Punctual call) ↔ call.Fits := by
  refine ⟨fun h => ?_, fun hfits s hs => (SleepState.inv_reachable hs).punctual hfits⟩
  by_contra hnot
  -- the fiber is back before its time
  have hearly : ∀ start clock : UInt64, start ≤ clock → clock.toNat < 2 ^ 63 → start + call.ms ≤ clock →
      (start.toNat : ℤ) + call.floorMs ≤ clock.toNat := fun start clock hle hlt hdue => by
    obtain ⟨s, hs, hstart, hclock, hwoken⟩ := SleepState.exists_woken call hle hlt hdue
    obtain ⟨start', hstart', hle'⟩ := (h s hs).notEarly (by omega)
    obtain rfl := Option.some.inj (hstart.symm.trans hstart')
    rwa [hclock] at hle'
  -- the fiber is not back when its time has come
  have hlate : ∀ start : UInt64, start.toNat < 2 ^ 63 → ¬start + call.ms ≤ 0 → ¬(start.toNat : ℤ) + call.ceilMs ≤ 0 :=
    fun start hlt hdue hle => by
      obtain ⟨s, hs, hstart, hexpired, -, hwoken, hpending⟩ :=
        SleepState.exists_expired call (UInt64.le_refl start) UInt64.zero_le hlt
      rw [if_neg hdue] at hpending
      have := (h s hs).back start hstart 0 hexpired (by simpa using hle)
      omega
  rcases SleepCall.ms_of_not_fits hnot with ⟨hlt, hms⟩ | ⟨hpos, hms⟩ | ⟨hneg, hms⟩ | ⟨hneg, hms⟩
  · have hle := hearly 0 call.ms UInt64.zero_le (by omega) (by simp)
    rw [UInt64.toNat_zero] at hle
    omega
  · -- the sum wraps
    have hdue : (0x80000000 + call.ms : UInt64) ≤ 0x80000000 := by
      have := call.ms.toNat_lt
      rw [UInt64.le_iff_toNat_le, UInt64.toNat_add, show (0x80000000 : UInt64).toNat = 2 ^ 31 from rfl]
      omega
    have hle := hearly 0x80000000 0x80000000 (UInt64.le_refl _) (by decide) hdue
    omega
  · refine hlate 0 (by decide) ?_ (by simpa using hneg)
    rw [UInt64.le_iff_toNat_le, UInt64.zero_add, UInt64.toNat_zero]
    omega
  · refine hlate 1 (by decide) ?_ ?_
    · rw [UInt64.le_iff_toNat_le, UInt64.toNat_add, UInt64.toNat_one, UInt64.toNat_zero]
      omega
    · rw [UInt64.toNat_one]
      omega

/-- A sleep of 4294968 s, which is 704 ms more than `2 ^ 32` ms, ends after 704 ms. -/
theorem long_sleep_early : ∃ s, (sleepSys (.sleep 4294968)).ReachableWhen (fun s a => a.NoRollover s) s ∧
    ¬s.Punctual (.sleep 4294968) := by
  obtain ⟨s, hs, hstart, hclock, hwoken⟩ := SleepState.exists_woken (.sleep 4294968)
    (by decide : (0 : UInt64) ≤ 704) (by decide) (by decide)
  refine ⟨s, hs, fun hp => ?_⟩
  obtain ⟨start, hstart', hle⟩ := hp.notEarly (by omega)
  obtain rfl := Option.some.inj (hstart.symm.trans hstart')
  rw [hclock] at hle
  exact absurd hle (by decide)

end Megalo
