import Megalo.IOManager.Loop
import Megalo.Scheduler.Turns
import Megalo.Timer.Invariant

/-!
# The moves of the threads of an `IOManager`

- `Move` is one constructor for each kind of step, with what the step finds and what it leaves; `step_move`: every step
  is one;
- `Formed` is what is true of every state: the scheduler and the timers are as their own modules prove, a thread is
  inside `idle` only while `run` runs its idle fiber, and `m_idleThreadCount` is the number of these threads
  (`formed_reachable`).
-/

namespace Megalo

namespace IOLoop

variable {n : Nat} {s t : IOLoop n} {w : Fin n}

/-! ## Fields -/

section Fields

variable (s : IOLoop n) (w : Fin n)

@[simp] theorem setIdler_idler (pc : IdlePc) : (s.setIdler w pc).idler = Function.update s.idler w pc := rfl
@[simp] theorem setIdler_sched (pc : IdlePc) : (s.setIdler w pc).sched = s.sched := rfl
@[simp] theorem setIdler_timers (pc : IdlePc) : (s.setIdler w pc).timers = s.timers := rfl

@[simp] theorem owe_owes (b : Bool) : (s.owe w b).owes = Function.update s.owes w b := rfl
@[simp] theorem owe_sched (b : Bool) : (s.owe w b).sched = s.sched := rfl
@[simp] theorem owe_idler (b : Bool) : (s.owe w b).idler = s.idler := rfl
@[simp] theorem owe_pipe (b : Bool) : (s.owe w b).pipe = s.pipe := rfl
@[simp] theorem owe_timers (b : Bool) : (s.owe w b).timers = s.timers := rfl

/-- `tickle` writes to the pipe, unless no idle fiber runs. -/
theorem tickle_eq : s.tickle = { s with pipe := s.pipe + if s.idleThreadCount = 0 then 0 else 1 } := by
  unfold tickle
  split <;> rfl

end Fields

end IOLoop

/-- What `schedule` of other code puts into `m_fibers`. -/
def Scheduler.Label.pushes {n : Nat} : Scheduler.Label n → Option FiberAndThread
  | .scheduleFiber f thread => some { task := .fiber f, thread }
  | .scheduleCb c thread => some { task := .cb c, thread }
  | _ => none

/-- Such a step puts the entry in. -/
theorem Scheduler.step_pushes {n : Nat} {s t : Scheduler n} {a : Label n} {ft : FiberAndThread}
    (hft : a.pushes = some ft) (hst : s.step a = some t) : t = s.schedule ft.task ft.thread := by
  cases step_cases hst with
  | scheduleFiber | scheduleCb =>
    obtain rfl := Option.some.inj hft
    rfl
  | scan | branch | proceed | idle | outcome | idleOutcome | newFiber | keep | release | destroy | destructor =>
    cases hft

/-- What is read next after an answer. -/
def Answer.reading? : Answer → Option Reading
  | .next reading => some reading
  | .returns _ => none

/-- What an idle fiber reads next, in `stopping`. -/
def IdlePc.reading? : IdlePc → Option Reading
  | .stopping reading _ => some reading
  | _ => none

namespace IOLoop

variable {n : Nat} {s t : IOLoop n} {w : Fin n}

/-! ## Moves -/

/-- The idle fiber has handed its thread back. -/
def left (s : IOLoop n) (w : Fin n) (returns : Bool) : IOLoop n :=
  { s with
    sched := s.sched.setWorker w
      { s.sched.workers w with pc := .scan, idle := if returns then .term else .hold }
    idler := Function.update s.idler w .top
    idleThreadCount := s.idleThreadCount - 1 }

/-- `getNextTimer` reads the timers. -/
theorem getNextTimer_same (m : TimerManager Nat) (now : UInt64) :
    (m.getNextTimer now).2.timers = m.timers ∧ (m.getNextTimer now).2.mem = m.mem := by
  unfold TimerManager.getNextTimer
  dsimp only
  split <;> exact ⟨rfl, rfl⟩

/-- One read of `stopping`, with what it leads to. -/
inductive Reads (s : IOLoop n) (e : Evaluator n) : Reading → IOLoop n → Answer → Prop
  | noEvent (hpending : s.pendingEventCount = 0) : Reads s e .pending s (.next .queue)
  | event (hpending : s.pendingEventCount ≠ 0) : Reads s e .pending s (.returns false)
  | empty (hmutex : s.mutex = none) (hauto : s.autoStop = true) (hstopping : s.stopping = true)
      (hfibers : s.sched.fibers = []) :
    Reads s e .queue { s with mutex := some e } (.next .active)
  | queued (hmutex : s.mutex = none) : Reads s e .queue s (.returns false)
  | active : Reads s e .active { s with mutex := none } (.returns (s.sched.activeThreadCount = 0))

/-- What a step does, in the order of the labels: the scheduler's own steps, the calls of `tickle`, the steps of an idle
fiber, and those of other code. -/
inductive Move (s : IOLoop n) : Label n → IOLoop n → Prop
  | inner {a : Scheduler.Label n} {sched : Scheduler n} (hinner : a.Inner s.sched) (hst : s.sched.step a = some sched) :
    Move s (.sched a) { s with sched }
  | scan {w : Fin n} (hpc : (s.sched.workers w).pc = .scan) (hmutex : s.mutex = none) :
    Move s (.sched (.advance w)) ({ s with sched := s.sched.scan w }.owe w (s.sched.tickleMe w))
  | putBack {w : Fin n} {b : Branch} {f : Nat} (hpc : (s.sched.workers w).pc = .on .schedule b f)
      (hmutex : s.mutex = none) :
    Move s (.sched (.advance w))
      ({ s with sched := (s.sched.schedule (.fiber f) none).goto w .scan }.owe w s.sched.fibers.isEmpty)
  | idles {w : Fin n} (hpc : (s.sched.workers w).pc = .nothing) :
    Move s (.sched (.advance w))
      { s with
        sched := s.sched.idle w
        idleThreadCount := s.idleThreadCount + if ((s.sched.idle w).workers w).pc = .idling then 1 else 0 }
  | push {a : Scheduler.Label n} {ft : FiberAndThread} (hft : a.pushes = some ft) (hmutex : s.mutex = none)
      (hst : s.sched.step a = some (s.sched.schedule ft.task ft.thread)) :
    Move s (.sched a)
      { s with
        sched := s.sched.schedule ft.task ft.thread
        scheduling := s.scheduling + if s.sched.fibers.isEmpty then 1 else 0 }
  | tickle {w : Fin n} (howes : s.owes w = true) : Move s (.tickle w) (s.tickle.owe w false)
  | tickleScheduled (h : s.scheduling ≠ 0) :
    Move s .tickleScheduled { s.tickle with scheduling := s.scheduling - 1 }
  | tickleInserted (h : s.inserting ≠ 0) : Move s .tickleInserted { s.tickle with inserting := s.inserting - 1 }
  | tickleStop : Move s .tickleStop s.tickle
  | asks {w : Fin n} {now : UInt64} {key : Nat} (hpc : (s.sched.workers w).pc = .idling) (hidler : s.idler w = .top) :
    Move s (.idle w now key) ((s.getNextTimer now).1.setIdler w (s.getNextTimer now).2)
  | reads {w : Fin n} {now : UInt64} {key : Nat} {reading next : Reading} {wait : Wait} {r : IOLoop n}
      (hpc : (s.sched.workers w).pc = .idling) (hidler : s.idler w = .stopping reading wait)
      (hread : s.Reads (some w) reading r (.next next)) :
    Move s (.idle w now key) (r.setIdler w (.stopping next wait))
  | goesOn {w : Fin n} {now : UInt64} {key : Nat} {reading : Reading} {wait : Wait} {r : IOLoop n}
      (hpc : (s.sched.workers w).pc = .idling) (hidler : s.idler w = .stopping reading wait)
      (hread : s.Reads (some w) reading r (.returns false)) :
    Move s (.idle w now key) (r.setIdler w (.wait wait))
  | stops {w : Fin n} {now : UInt64} {key : Nat} {reading : Reading} {wait : Wait} {r : IOLoop n}
      (hpc : (s.sched.workers w).pc = .idling) (hidler : s.idler w = .stopping reading wait)
      (hread : s.Reads (some w) reading r (.returns true)) :
    Move s (.idle w now key) (r.left w true)
  | blocks {w : Fin n} {now : UInt64} {key : Nat} {wait : Wait} (hpc : (s.sched.workers w).pc = .idling)
      (hidler : s.idler w = .wait wait) :
    Move s (.idle w now key) (s.setIdler w (.blocked wait))
  | expires {w : Fin n} {now : UInt64} {key : Nat} {tickled : Bool} {cbs : List (Option Nat)}
      {timers : TimerManager Nat} (hpc : (s.sched.workers w).pc = .idling) (hidler : s.idler w = .woken tickled)
      (hlive : s.timers.live key = false) (hexpired : s.timers.listExpiredCb now key = .ok (cbs, timers)) :
    Move s (.idle w now key) ({ s with timers }.setIdler w (.expired cbs tickled))
  | noneExpired {w : Fin n} {now : UInt64} {key : Nat} {tickled : Bool} (hpc : (s.sched.workers w).pc = .idling)
      (hidler : s.idler w = .expired [] tickled) :
    Move s (.idle w now key) (s.setIdler w (.events tickled))
  | schedules {w : Fin n} {now : UInt64} {key : Nat} {tickled : Bool} {cbs : List (Option Nat)}
      (hpc : (s.sched.workers w).pc = .idling) (hidler : s.idler w = .expired cbs tickled) (hmutex : s.mutex = none) :
    Move s (.idle w now key)
      (({ s with sched := s.sched.scheduleCbs cbs }.owe w s.sched.fibers.isEmpty).setIdler w (.events tickled))
  | drains {w : Fin n} {now : UInt64} {key : Nat} (hpc : (s.sched.workers w).pc = .idling)
      (hidler : s.idler w = .events true) :
    Move s (.idle w now key) ({ s with pipe := 0 }.setIdler w (.events false))
  | leaves {w : Fin n} {now : UInt64} {key : Nat} (hpc : (s.sched.workers w).pc = .idling)
      (hidler : s.idler w = .events false) :
    Move s (.idle w now key) (s.setIdler w .leave)
  | swapsOut {w : Fin n} {now : UInt64} {key : Nat} (hpc : (s.sched.workers w).pc = .idling)
      (hidler : s.idler w = .leave) :
    Move s (.idle w now key) (s.left w false)
  | polled {w : Fin n} {tickled : Bool} (hpipe : tickled = true → s.pipe ≠ 0) (hidler : s.idler w = .wait .poll) :
    Move s (.wake w tickled) (s.setIdler w (.woken tickled))
  | wakes {w : Fin n} {tickled : Bool} {wait : Wait} (hpipe : tickled = true → s.pipe ≠ 0)
      (hidler : s.idler w = .blocked wait) :
    Move s (.wake w tickled) (s.setIdler w (.woken tickled))
  | waitsAgain {w : Fin n} {now : UInt64} {wait : Wait} (hidler : s.idler w = .blocked wait) :
    Move s (.interrupt w now) (s.setIdler w (.blocked (wait.again now)))
  | triggers {w : Fin n} {task : Task Nat Nat} {tickled : Bool} {a : Scheduler.Label n}
      (hidler : s.idler w = .events tickled) (hft : a.pushes = some { task, thread := none }) (hmutex : s.mutex = none)
      (hst : s.sched.step a = some (s.sched.schedule task none)) :
    Move s (.trigger w task) ({ s with sched := s.sched.schedule task none }.owe w s.sched.fibers.isEmpty)
  | timer {op : TimerOp Nat} {timers : TimerManager Nat} (huser : op.ByUser = true) (henabled : op.Enabled s.timers)
      (hrun : op.run s.timers = .ok timers) :
    Move s (.timer op) { s with timers, inserting := s.inserting + if op.atFront s.timers then 1 else 0 }
  | addEvent : Move s .addEvent { s with pendingEventCount := s.pendingEventCount + 1 }
  | removeEvent : Move s .removeEvent { s with pendingEventCount := s.pendingEventCount - 1 }
  | setAutoStop : Move s .setAutoStop { s with autoStop := true }
  | setStopping : Move s .setStopping { s with stopping := true }
  | stopAsks {now : UInt64} (hstopper : s.stopper = none) :
    Move s (.evaluate now) { (s.getNextTimer now).1 with stopper := (s.getNextTimer now).2.reading? }
  | stopReads {now : UInt64} {reading : Reading} {r : IOLoop n} {answer : Answer} (hstopper : s.stopper = some reading)
      (hread : s.Reads none reading r answer) :
    Move s (.evaluate now) { r with stopper := answer.reading? }

/-- A step of the scheduler is taken while no assertion has failed. -/
theorem run_some {a : Scheduler.Label n} (h : s.run a = some t) :
    ∃ sched, s.sched.step a = some sched ∧ t = { s with sched } := by
  obtain ⟨sched, hst, rfl⟩ := Option.map_eq_some_iff.mp h
  simp only [schedSys] at hst
  split at hst
  · exact ⟨sched, hst, rfl⟩
  · cases hst

theorem leaveIdle_some {returns : Bool} (h : s.leaveIdle w returns = some t) :
    (s.sched.workers w).pc = .idling ∧ t = s.left w returns := by
  obtain ⟨r, hr, rfl⟩ := Option.map_eq_some_iff.mp h
  obtain ⟨sched, hst, rfl⟩ := run_some hr
  cases Scheduler.step_cases hst with
  | idleOutcome hpc => exact ⟨hpc, rfl⟩

theorem read_some {e : Evaluator n} {reading : Reading} {r : IOLoop n × Answer} (h : s.read e reading = some r) :
    s.Reads e reading r.1 r.2 := by
  cases reading with
  | pending =>
    obtain rfl := Option.some.inj h
    by_cases hpending : s.pendingEventCount = 0
    · simp only [hpending, if_true]
      exact .noEvent hpending
    · simp only [hpending, if_false]
      exact .event hpending
  | queue =>
    simp only [read] at h
    split at h
    · cases h
    · rename_i hmutex
      rw [Bool.not_eq_true, Option.isSome_eq_false_iff, Option.isNone_iff_eq_none] at hmutex
      split at h
      · rename_i hstop
        obtain rfl := Option.some.inj h
        rw [Bool.and_eq_true, Bool.and_eq_true, List.isEmpty_iff] at hstop
        exact .empty hmutex hstop.1.1 hstop.1.2 hstop.2
      · obtain rfl := Option.some.inj h
        exact .queued hmutex
  | active =>
    obtain rfl := Option.some.inj h
    exact .active

theorem advance_move (h : s.advance w = some t) : s.Move (.sched (.advance w)) t := by
  unfold advance at h
  split at h
  · cases h
  · split at h
    · rename_i hpc
      split at h
      · cases h
      · rename_i hmutex
        obtain ⟨r, hr, rfl⟩ := Option.map_eq_some_iff.mp h
        obtain ⟨sched, hst, rfl⟩ := run_some hr
        simp only [Scheduler.step, Scheduler.advance, hpc, Option.some.injEq] at hst
        subst hst
        exact .scan hpc (by simpa using hmutex)
    · rename_i b f hpc
      split at h
      · cases h
      · rename_i hmutex
        obtain ⟨r, hr, rfl⟩ := Option.map_eq_some_iff.mp h
        obtain ⟨sched, hst, rfl⟩ := run_some hr
        simp only [Scheduler.step, Scheduler.advance, hpc, Scheduler.proceed, Option.some.injEq] at hst
        subst hst
        exact .putBack hpc (by simpa using hmutex)
    · rename_i hpc
      obtain ⟨r, hr, rfl⟩ := Option.map_eq_some_iff.mp h
      obtain ⟨sched, hst, rfl⟩ := run_some hr
      simp only [Scheduler.step, Scheduler.advance, hpc, Option.some.injEq] at hst
      subst hst
      exact .idles hpc
    · rename_i hscan hschedule hnothing
      obtain ⟨sched, hst, rfl⟩ := run_some h
      exact .inner ⟨hscan, hnothing, hschedule⟩ hst

theorem push_move {a : Scheduler.Label n} {ft : FiberAndThread} (hft : a.pushes = some ft) (h : s.push a = some t) :
    s.Move (.sched a) t := by
  unfold push at h
  split at h
  · cases h
  · rename_i hmutex
    rw [Bool.not_eq_true, Option.isSome_eq_false_iff, Option.isNone_iff_eq_none] at hmutex
    obtain ⟨r, hr, rfl⟩ := Option.map_eq_some_iff.mp h
    obtain ⟨sched, hst, rfl⟩ := run_some hr
    obtain rfl := Scheduler.step_pushes hft hst
    exact .push hft hmutex hst

theorem idle_move {now : UInt64} {key : Nat} (h : s.idle w now key = some t) : s.Move (.idle w now key) t := by
  unfold idle at h
  split at h
  · cases h
  · rename_i hcond
    have hpc : (s.sched.workers w).pc = .idling := by
      by_contra hne
      exact hcond (by simp [hne])
    split at h
    · obtain rfl := Option.some.inj h
      exact .asks hpc ‹_›
    · rename_i reading wait hidler
      obtain ⟨⟨r, answer⟩, hr, hafter⟩ := Option.bind_eq_some_iff.mp h
      have hread := read_some hr
      cases answer with
      | next reading' =>
        obtain rfl := Option.some.inj hafter
        exact .reads hpc hidler hread
      | returns b =>
        cases b with
        | false =>
          obtain rfl := Option.some.inj hafter
          exact .goesOn hpc hidler hread
        | true =>
          obtain ⟨-, rfl⟩ := leaveIdle_some hafter
          exact .stops hpc hidler hread
    · cases h
    · obtain rfl := Option.some.inj h
      exact .blocks hpc ‹_›
    · cases h
    · rename_i tickled hidler
      unfold listExpired at h
      split at h
      · cases h
      · rename_i hlive
        rw [Bool.not_eq_true] at hlive
        obtain ⟨r, hr, rfl⟩ := Option.map_eq_some_iff.mp h
        cases hexpired : s.timers.listExpiredCb now key with
        | ok r' =>
          rw [hexpired] at hr
          obtain rfl := Option.some.inj hr
          exact .expires hpc hidler hlive hexpired
        | error e =>
          rw [hexpired] at hr
          cases hr
    · obtain rfl := Option.some.inj h
      exact .noneExpired hpc ‹_›
    · rename_i cbs tickled _ hidler
      split at h
      · cases h
      · rename_i hmutex
        obtain rfl := Option.some.inj h
        exact .schedules hpc hidler (by simpa using hmutex)
    · obtain rfl := Option.some.inj h
      exact .drains hpc ‹_›
    · obtain rfl := Option.some.inj h
      exact .leaves hpc ‹_›
    · obtain ⟨-, rfl⟩ := leaveIdle_some h
      exact .swapsOut hpc ‹_›

theorem wake_move {tickled : Bool} (h : s.wake w tickled = some t) : s.Move (.wake w tickled) t := by
  unfold wake at h
  split at h
  · cases h
  · rename_i hcond
    have hpipe : tickled = true → s.pipe ≠ 0 := fun htickled hzero => hcond (by simp [htickled, hzero])
    split at h
    · obtain rfl := Option.some.inj h
      exact .polled hpipe ‹_›
    · obtain rfl := Option.some.inj h
      exact .wakes hpipe ‹_›
    · cases h

theorem interrupt_move {now : UInt64} (h : s.interrupt w now = some t) : s.Move (.interrupt w now) t := by
  unfold interrupt at h
  split at h
  · obtain rfl := Option.some.inj h
    exact .waitsAgain ‹_›
  · cases h

theorem trigger_move {task : Task Nat Nat} (h : s.trigger w task = some t) : s.Move (.trigger w task) t := by
  unfold trigger at h
  split at h
  · cases h
  · rename_i hcond
    have hmutex : s.mutex = none := by
      rw [Bool.or_eq_true, not_or] at hcond
      simpa using hcond.2
    split at h
    · rename_i tickled hidler
      obtain ⟨r, hr, rfl⟩ := Option.map_eq_some_iff.mp h
      obtain ⟨sched, hst, rfl⟩ := run_some hr
      cases task with
      | fiber f | cb c =>
        obtain rfl := Scheduler.step_pushes rfl hst
        exact .triggers hidler rfl hmutex hst
    · cases h

theorem evaluate_move {now : UInt64} (h : s.evaluate now = some t) : s.Move (.evaluate now) t := by
  unfold evaluate at h
  split at h
  · rename_i hstopper
    obtain rfl := Option.some.inj h
    exact .stopAsks hstopper
  · rename_i reading hstopper
    obtain ⟨r, hr, rfl⟩ := Option.map_eq_some_iff.mp h
    exact .stopReads hstopper (read_some hr)

/-- **Moves.** Every step is one. -/
theorem step_move {a : Label n} (h : s.step a = some t) : s.Move a t := by
  cases a with
  | sched a =>
    cases a with
    | advance w => exact advance_move h
    | scheduleFiber f thread => exact push_move rfl h
    | scheduleCb c thread => exact push_move rfl h
    | idleOutcome w returns => cases h
    | outcome | newFiber | keep | release | destroy =>
      obtain ⟨sched, hst, rfl⟩ := run_some h
      exact .inner trivial hst
  | tickle w =>
    simp only [step] at h
    split at h
    · obtain rfl := Option.some.inj h
      exact .tickle ‹_›
    · cases h
  | tickleScheduled =>
    simp only [step] at h
    split at h
    · cases h
    · obtain rfl := Option.some.inj h
      exact .tickleScheduled ‹_›
  | tickleInserted =>
    simp only [step] at h
    split at h
    · cases h
    · obtain rfl := Option.some.inj h
      exact .tickleInserted ‹_›
  | tickleStop =>
    obtain rfl := Option.some.inj h
    exact .tickleStop
  | idle w now key => exact idle_move h
  | wake w tickled => exact wake_move h
  | interrupt w now => exact interrupt_move h
  | trigger w task => exact trigger_move h
  | timer op =>
    simp only [step, timer] at h
    split at h
    · rename_i hop
      obtain ⟨timers, htimers, rfl⟩ := Option.map_eq_some_iff.mp h
      cases hrun : op.run s.timers with
      | ok m =>
        rw [hrun] at htimers
        obtain rfl := Option.some.inj htimers
        exact .timer hop.1 hop.2 hrun
      | error e =>
        rw [hrun] at htimers
        cases htimers
    · cases h
  | addEvent =>
    obtain rfl := Option.some.inj h
    exact .addEvent
  | removeEvent =>
    simp only [step] at h
    split at h
    · cases h
    · obtain rfl := Option.some.inj h
      exact .removeEvent
  | setAutoStop =>
    obtain rfl := Option.some.inj h
    exact .setAutoStop
  | setStopping =>
    obtain rfl := Option.some.inj h
    exact .setStopping
  | evaluate now => exact evaluate_move h

end IOLoop

/-! ## What is true of every state -/

namespace Scheduler

variable {n : Nat} {s : Scheduler n} {w : Fin n}

theorem step_scan (hpc : (s.workers w).pc = .scan) : s.step (.advance w) = some (s.scan w) := by
  simp only [step, advance, hpc]

theorem step_putBack {b : Branch} {f : Nat} (hpc : (s.workers w).pc = .on .schedule b f) :
    s.step (.advance w) = some ((s.schedule (.fiber f) none).goto w .scan) := by
  simp only [step, advance, hpc, proceed]

theorem step_idle (hpc : (s.workers w).pc = .nothing) : s.step (.advance w) = some (s.idle w) := by
  simp only [step, advance, hpc]

/-- Callbacks go to the end of `m_fibers`, and nothing else changes. -/
theorem scheduleCbs_eq (cbs : List (Option Nat)) (s : Scheduler n) : ∃ fts : List FiberAndThread,
    s.scheduleCbs cbs = { s with fibers := s.fibers ++ fts } ∧ ∀ ft ∈ fts, ∀ f, ft.task ≠ .fiber f := by
  induction cbs generalizing s with
  | nil => exact ⟨[], by rw [scheduleCbs, List.append_nil], nofun⟩
  | cons cb cbs ih =>
    cases cb with
    | none => exact ih s
    | some c =>
      obtain ⟨fts, heq, hfts⟩ := ih (s.schedule (.cb c) none)
      refine ⟨{ task := .cb c, thread := none } :: fts, ?_, fun ft hft f => ?_⟩
      · rw [scheduleCbs, heq]
        simp only [schedule, List.append_assoc, List.singleton_append]
      · rcases List.mem_cons.mp hft with rfl | hft
        · exact nofun
        · exact hfts ft hft f

end Scheduler

/-- The thread runs its idle fiber. -/
def Worker.isIdling (wk : Worker) : Bool := wk.pc = .idling

namespace IOLoop

variable {n : Nat} {s t : IOLoop n} {w : Fin n}

/-- The scheduler and the timers are well formed, a thread inside `idle` is one whose idle fiber `run` runs, and the two
counters count. -/
structure Formed (s : IOLoop n) : Prop where
  sched : s.sched.Formed
  active : s.sched.ActiveCounted
  timers : s.timers.Inv []
  idler : ∀ w, s.idler w ≠ .top → (s.sched.workers w).pc = .idling
  idle : s.idleThreadCount = Count.count Worker.isIdling s.sched.workers

namespace Formed

/-- Nothing it is about changes. -/
theorem congr (h : s.Formed) (hsched : t.sched = s.sched) (htimers : t.timers.Inv []) (hidler : t.idler = s.idler)
    (hidle : t.idleThreadCount = s.idleThreadCount) : t.Formed where
  sched := hsched ▸ h.sched
  active := hsched ▸ h.active
  timers := htimers
  idler w hw := by rw [hidler] at hw; rw [hsched]; exact h.idler w hw
  idle := by rw [hidle, hsched, h.idle]

/-- A step of the scheduler that lets no thread into its idle fiber or out of it. -/
theorem elsewhere (h : s.Formed) {a : Scheduler.Label n} (ha : a.Elsewhere s.sched)
    (hst : s.sched.step a = some t.sched) (htimers : t.timers = s.timers) (hidler : t.idler = s.idler)
    (hidle : t.idleThreadCount = s.idleThreadCount) : t.Formed where
  sched := Scheduler.formed_step h.sched hst
  active := Scheduler.active_step h.active hst
  timers := htimers ▸ h.timers
  idler w hw := by
    rw [hidler] at hw
    exact (Scheduler.step_idling hst ha w).mpr (h.idler w hw)
  idle := by
    rw [hidle, h.idle]
    exact Count.count_congr fun v => decide_eq_decide.mpr (Scheduler.step_idling hst ha v).symm

/-- An idle fiber goes on. -/
theorem setIdler (h : s.Formed) (hpc : (s.sched.workers w).pc = .idling) (pc : IdlePc) : (s.setIdler w pc).Formed where
  sched := h.sched
  active := h.active
  timers := h.timers
  idler v hv := by
    by_cases hvw : v = w
    · rw [hvw]
      exact hpc
    · rw [setIdler_idler, Function.update_of_ne hvw] at hv
      exact h.idler v hv
  idle := h.idle

/-- An idle fiber hands its thread back. -/
theorem left (h : s.Formed) (hpc : (s.sched.workers w).pc = .idling) (returns : Bool) : (s.left w returns).Formed where
  sched := by
    refine h.sched.setWorker (fun f hf => ?_) fun hidle => ?_
    · rcases hf with hf | hf
      · cases hf
      · exact h.sched.workers w f (.inr hf)
    · cases returns <;> cases hidle
  active := by
    refine h.active.trans (Count.count_update (p := fun wk : Worker => wk.pc.holds) ?_).symm
    rw [hpc]
    rfl
  timers := h.timers
  idler v hv := by
    simp only [IOLoop.left, Scheduler.setWorker_workers] at hv ⊢
    by_cases hvw : v = w
    · rw [hvw, Function.update_self] at hv
      exact absurd rfl hv
    · rw [Function.update_of_ne hvw] at hv
      rw [Function.update_of_ne hvw]
      exact h.idler v hv
  idle := by
    have hidling : (s.sched.workers w).isIdling = true := decide_eq_true hpc
    simp only [IOLoop.left, Scheduler.setWorker_workers]
    have hleave := Count.count_leave hidling
      (w := { s.sched.workers w with pc := .scan, idle := if returns then .term else .hold }) rfl
    rw [h.idle, hleave, Nat.add_sub_cancel]

/-- A thread whose scan found nothing runs its idle fiber, or leaves the loop. -/
theorem idles (h : s.Formed) (hpc : (s.sched.workers w).pc = .nothing) :
    ({ s with
      sched := s.sched.idle w
      idleThreadCount := s.idleThreadCount + if ((s.sched.idle w).workers w).pc = .idling then 1 else 0 } :
      IOLoop n).Formed := by
  have hst := Scheduler.step_idle hpc
  obtain ⟨-, -, hothers, -⟩ := Scheduler.idle_turn s.sched w
  have hnot : (s.sched.workers w).isIdling = false := decide_eq_false (by rw [hpc]; exact nofun)
  have hworkers : (s.sched.idle w).workers = Function.update s.sched.workers w ((s.sched.idle w).workers w) := by
    funext v
    by_cases hv : v = w
    · rw [hv, Function.update_self]
    · rw [Function.update_of_ne hv, hothers v hv]
  refine ⟨Scheduler.formed_step h.sched hst, Scheduler.active_step h.active hst, h.timers, fun v hv => ?_, ?_⟩
  · have hvw : v ≠ w := fun e => by
      have := h.idler v hv
      rw [e, hpc] at this
      cases this
    show ((s.sched.idle w).workers v).pc = .idling
    rw [hothers v hvw]
    exact h.idler v hv
  · show s.idleThreadCount + _ = Count.count Worker.isIdling (s.sched.idle w).workers
    rw [hworkers, Function.update_self, h.idle]
    split
    · rename_i hidling
      rw [Count.count_enter hnot (decide_eq_true hidling)]
    · rename_i hother
      rw [Nat.add_zero, Count.count_update]
      rw [hnot]
      exact decide_eq_false hother

theorem getNextTimer (h : s.timers.Inv []) (now : UInt64) : (s.timers.getNextTimer now).2.Inv [] := by
  obtain ⟨m, hm, hinv⟩ := TimerManager.inv_run h (.getNextTimer now) trivial
  obtain rfl := Except.ok.inj hm
  exact hinv

end Formed

/-- A push of other code lets no thread into its idle fiber or out of it. -/
theorem pushes_elsewhere {a : Scheduler.Label n} {ft : FiberAndThread} {s : Scheduler n} (h : a.pushes = some ft) :
    a.Elsewhere s := by
  cases a with
  | scheduleFiber | scheduleCb => trivial
  | advance | outcome | idleOutcome | newFiber | keep | release | destroy => cases h

theorem Reads.frame {e : Evaluator n} {reading : Reading} {r : IOLoop n} {answer : Answer}
    (h : s.Reads e reading r answer) : ∃ mutex, r = { s with mutex } := by
  cases h with
  | noEvent | event | queued => exact ⟨s.mutex, rfl⟩
  | empty => exact ⟨some e, rfl⟩
  | active => exact ⟨none, rfl⟩

/-- Every step keeps it. -/
theorem formed_move {a : Label n} (h : s.Formed) (hm : s.Move a t) : t.Formed := by
  cases hm with
  | inner hinner hst => exact h.elsewhere hinner.elsewhere hst rfl rfl rfl
  | scan hpc =>
    exact h.elsewhere (by simp [Scheduler.Label.Elsewhere, hpc]) (Scheduler.step_scan hpc) rfl rfl rfl
  | putBack hpc =>
    exact h.elsewhere (by simp [Scheduler.Label.Elsewhere, hpc]) (Scheduler.step_putBack hpc) rfl rfl rfl
  | idles hpc => exact h.idles hpc
  | @push a ft hft hmutex hst => exact h.elsewhere (pushes_elsewhere hft) hst rfl rfl rfl
  | tickle | tickleScheduled | tickleInserted | tickleStop =>
    rw [tickle_eq]
    exact h.congr rfl h.timers rfl rfl
  | asks hpc =>
    exact Formed.setIdler (s := (s.getNextTimer _).1) (h.congr rfl (Formed.getNextTimer h.timers _) rfl rfl) hpc _
  | reads hpc _ hread | goesOn hpc _ hread =>
    obtain ⟨mutex, rfl⟩ := hread.frame
    exact Formed.setIdler (s := { s with mutex }) (h.congr rfl h.timers rfl rfl) hpc _
  | stops hpc _ hread =>
    obtain ⟨mutex, rfl⟩ := hread.frame
    exact Formed.left (s := { s with mutex }) (h.congr rfl h.timers rfl rfl) hpc _
  | blocks hpc | noneExpired hpc | leaves hpc => exact h.setIdler hpc _
  | @expires w now key tickled cbs timers hpc _ hlive hexpired =>
    obtain ⟨m, hm, hinv⟩ := TimerManager.inv_run h.timers (.listExpiredCb now key) hlive
    simp only [TimerOp.run, hexpired, Except.map, Except.ok.injEq] at hm
    subst hm
    exact Formed.setIdler (s := { s with timers }) (h.congr rfl hinv rfl rfl) hpc _
  | @schedules w now key tickled cbs hpc =>
    obtain ⟨fts, heq, hfts⟩ := Scheduler.scheduleCbs_eq cbs s.sched
    rw [heq]
    refine Formed.setIdler (s := IOLoop.owe { s with sched := { s.sched with fibers := s.sched.fibers ++ fts } } w _)
      ⟨⟨fun ft hft f hf => ?_, h.sched.workers, h.sched.idle⟩, h.active, h.timers, h.idler, h.idle⟩ hpc _
    rcases List.mem_append.mp hft with hft | hft
    · exact h.sched.queued ft hft f hf
    · exact absurd hf (hfts ft hft f)
  | drains hpc => exact Formed.setIdler (s := { s with pipe := 0 }) (h.congr rfl h.timers rfl rfl) hpc _
  | swapsOut hpc => exact h.left hpc _
  | @polled w tickled _ hidler => exact h.setIdler (h.idler w (by simp [hidler])) _
  | @wakes w tickled wait _ hidler => exact h.setIdler (h.idler w (by simp [hidler])) _
  | @waitsAgain w now wait hidler => exact h.setIdler (h.idler w (by simp [hidler])) _
  | @triggers w task tickled a hidler hft hmutex hst => exact h.elsewhere (pushes_elsewhere hft) hst rfl rfl rfl
  | @timer op timers huser henabled hrun =>
    obtain ⟨m, hm, hinv⟩ := TimerManager.inv_run h.timers op henabled
    obtain rfl := Except.ok.inj (hrun.symm.trans hm)
    exact h.congr rfl hinv rfl rfl
  | addEvent | removeEvent | setAutoStop | setStopping => exact h.congr rfl h.timers rfl rfl
  | stopAsks => exact h.congr rfl (Formed.getNextTimer h.timers _) rfl rfl
  | stopReads _ hread =>
    obtain ⟨mutex, rfl⟩ := hread.frame
    exact h.congr rfl h.timers rfl rfl

theorem new_formed (mem : Nat → Timer Nat) (now : UInt64) : (new n mem now).Formed where
  sched := Scheduler.formed_reachable (.init rfl)
  active := (Count.count_of_none fun _ => rfl).symm
  timers := TimerManager.new_inv mem now
  idler _ hw := absurd rfl hw
  idle := (Count.count_of_none fun _ => rfl).symm

theorem move_of_step {a : Label n} (hst : (ioLoopSys n).step s a = some t) : s.Move a t := by
  simp only [ioLoopSys] at hst
  split at hst
  · exact step_move hst
  · cases hst

/-- **Every state is well formed.** -/
theorem formed_reachable (h : (ioLoopSys n).Reachable s) : s.Formed := by
  refine h.invariant (I := Formed) ?_ ?_
  · rintro _ ⟨mem, now, rfl⟩
    exact new_formed mem now
  · intro s a t hI _ hst
    exact formed_move hI (move_of_step hst)

/-- What holds at the start, and is kept by every move that meets a condition, holds after a run of such moves. -/
theorem invariant_of_moves {C : IOLoop n → Label n → Prop} {I : IOLoop n → Prop}
    (hnew : ∀ mem now, I (.new n mem now))
    (hmove : ∀ s a t, s.Formed → I s → C s a → s.Move a t → I t) (h : (ioLoopSys n).ReachableWhen C s) : I s := by
  refine h.invariant_of_reachable ?_ ?_
  · rintro _ ⟨mem, now, rfl⟩
    exact hnew mem now
  · intro s a t hr hI hok hst
    exact hmove s a t (formed_reachable hr) hI hok (move_of_step hst)

end IOLoop

end Megalo
