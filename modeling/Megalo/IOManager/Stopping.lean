import Megalo.IOManager.LoopMoves
import Mathlib.Data.Fintype.Option

/-!
# When `stopping` returns true

- `ReturnsTrue`: a thread is at the last read of `stopping`, and finds that `m_activeThreadCount` is zero.
  `NoPrematureStop`: there is nothing left to do then (`Quiet`);
- this fails (`no_premature_stop_fails`): between the decrement of `m_activeThreadCount` and the push that puts a fiber
  back, the fiber is in neither of the places that `stopping` reads;
- it holds in runs in which nothing passes from one of these places to another behind the thread that reads them
  (`KeepsOrder`, `no_premature_stop`). `Orderly` is what their steps keep: what a thread has read so far is still true.
-/

namespace Megalo

/-- The thread is about to put a fiber back into `m_fibers`, or about to read that its fiber is `READY`. -/
def Pc.putsBack (heap : Nat → Fiber) : Pc → Bool
  | .on .schedule _ _ => true
  | .on .settle _ f => (heap f).state = .ready
  | _ => false

/-- The thread is about to decrement `m_activeThreadCount` for a fiber that is `READY`, or to read that it is. -/
def Pc.handsOver (heap : Nat → Fiber) : Pc → Bool
  | .on .back _ f | .on .settle _ f => (heap f).state = .ready
  | _ => false

/-- The thread has switched from the fiber, and has not decremented `m_activeThreadCount` yet. -/
def Pc.switched (f : Nat) : Pc → Bool
  | .on .swapOut _ g | .on .back _ g => g = f
  | _ => false

/-- The idle fiber has taken expired callbacks out of their timers, and has not scheduled them. -/
def IdlePc.hasExpired : IdlePc → Bool
  | .expired (_ :: _) _ => true
  | _ => false

namespace IOLoop

variable {n : Nat} {s t : IOLoop n} {w v : Fin n}

/-- What the thread reads next, in `stopping`. -/
def reading (s : IOLoop n) : Evaluator n → Option Reading
  | some w => (s.idler w).reading?
  | none => s.stopper

/-- The read that the thread makes next is the last one, and `stopping` returns true. -/
def ReturnsTrue (s : IOLoop n) (e : Evaluator n) : Prop :=
  ∃ reading r, s.reading e = some reading ∧ s.read e reading = some (r, .returns true)

/-- It is the read of `m_activeThreadCount`, which is zero. -/
theorem returnsTrue_iff {e : Evaluator n} :
    s.ReturnsTrue e ↔ s.reading e = some .active ∧ s.sched.activeThreadCount = 0 := by
  constructor
  · rintro ⟨reading, r, he, hread⟩
    have hreads := read_some hread
    generalize hanswer : Answer.returns true = answer at hreads
    cases hreads with
    | noEvent | event | empty | queued => cases hanswer
    | active => exact ⟨he, of_decide_eq_true (Answer.returns.inj hanswer).symm⟩
  · rintro ⟨he, hzero⟩
    refine ⟨.active, { s with mutex := none }, he, ?_⟩
    simp only [read, hzero, decide_true]

instance (s : IOLoop n) (e : Evaluator n) : Decidable (s.ReturnsTrue e) := decidable_of_iff' _ returnsTrue_iff

/-- No task is queued or executed, no `READY` fiber waits to be put back, no expired callback to be scheduled, no timer
is pending, and no event is registered. -/
structure Quiet (s : IOLoop n) : Prop where
  fibers : s.sched.fibers = []
  executed : ∀ w, (s.sched.workers w).pc.holds = false
  putBack : ∀ w, (s.sched.workers w).pc.putsBack s.sched.heap = false
  expired : ∀ w, (s.idler w).hasExpired = false
  timers : s.timers.timers = []
  events : s.pendingEventCount = 0

/-- `stopping` returns true only when there is nothing left to do. -/
def NoPrematureStop (s : IOLoop n) : Prop := ∀ e, s.ReturnsTrue e → s.Quiet

/-- Nobody is about to put a fiber back, or has expired callbacks that are not scheduled. -/
def NoneInHand (s : IOLoop n) : Prop :=
  ∀ w, (s.sched.workers w).pc.putsBack s.sched.heap = false ∧ (s.idler w).hasExpired = false

instance (s : IOLoop n) : Decidable s.NoneInHand := inferInstanceAs (Decidable (∀ _, _ ∧ _))

/-- What a thread in `stopping` finds next stays true: the clock does not read zero when it calls `getNextTimer`, and
when it finds `m_fibers` empty, with both flags set, nobody has a fiber or callbacks in hand that belong there. -/
def ReadsInOrder (s : IOLoop n) (now : UInt64) : Option Reading → Prop
  | none => now ≠ 0
  | some .queue => s.autoStop = true → s.stopping = true → s.sched.fibers = [] → s.NoneInHand
  | _ => True

/-- The step moves nothing behind the back of a thread in `stopping`: no timer is armed while a thread is past its call
of `getNextTimer`, no event is registered while one is past its read of `m_pendingEventCount`, and while one holds
`m_mutex`, no thread decrements `m_activeThreadCount` for a fiber that is `READY`, or reads that its fiber is. -/
def KeepsOrder (s : IOLoop n) : Label n → Prop
  | .sched a => s.mutex ≠ none → ∀ w ∈ a.thread, (s.sched.workers w).pc.handsOver s.sched.heap = false
  | .idle w now _ =>
    match s.idler w with
    | .top => s.ReadsInOrder now none
    | .stopping reading _ => s.ReadsInOrder now (some reading)
    | _ => True
  | .evaluate now => s.ReadsInOrder now s.stopper
  | .timer op => op.due s.timers = none ∨ ∀ e, s.reading e = none
  | .addEvent => ∀ e, s.reading e ≠ some .queue ∧ s.reading e ≠ some .active
  | _ => True

instance (s : IOLoop n) (now : UInt64) : DecidablePred (s.ReadsInOrder now)
  | none => inferInstanceAs (Decidable (now ≠ 0))
  | some .queue =>
    inferInstanceAs (Decidable (s.autoStop = true → s.stopping = true → s.sched.fibers = [] → s.NoneInHand))
  | some .pending | some .active => .isTrue trivial

instance (s : IOLoop n) : DecidablePred (KeepsOrder s)
  | .sched a => inferInstanceAs (Decidable (s.mutex ≠ none → ∀ w ∈ a.thread,
      (s.sched.workers w).pc.handsOver s.sched.heap = false))
  | .idle w now _ =>
    match h : s.idler w with
    | .top => decidable_of_iff (s.ReadsInOrder now none) (by simp [KeepsOrder, h])
    | .stopping reading _ => decidable_of_iff (s.ReadsInOrder now (some reading)) (by simp [KeepsOrder, h])
    | .wait _ | .blocked _ | .woken _ | .expired _ _ | .events _ | .leave => .isTrue (by simp [KeepsOrder, h])
  | .evaluate now => inferInstanceAs (Decidable (s.ReadsInOrder now s.stopper))
  | .timer op => inferInstanceAs (Decidable (op.due s.timers = none ∨ ∀ e, s.reading e = none))
  | .addEvent => inferInstanceAs (Decidable (∀ e, s.reading e ≠ some .queue ∧ s.reading e ≠ some .active))
  | .tickle _ | .tickleScheduled | .tickleInserted | .tickleStop | .wake _ _ | .interrupt _ _ | .trigger _ _
  | .removeEvent | .setAutoStop | .setStopping => .isTrue trivial

/-! ## Turns and `READY` fibers -/

section Goes

variable {count f g : Nat} {pc pc' : Pc} {x y : FiberState} {b : Branch}

/-- A thread that comes to the push that puts a fiber back has read that its fiber is `READY`. -/
theorem goes_schedule (h : Pc.Goes count f pc x pc' y) (hpc' : pc' = .on .schedule b g) :
    x = .ready ∧ ∃ b', pc = .on .settle b' f := by
  cases h with
  | run | skip | reset | make | swapIn | leave | swapOut | back | hold | resetNull => cases hpc'
  | settle b' f =>
    cases x with
    | ready => exact ⟨rfl, b', rfl⟩
    | init | hold | exec => cases hpc'
    | term | except => cases b' <;> cases hpc'

/-- A thread comes to read the state of the fiber that it is at. -/
theorem goes_settle (h : Pc.Goes count f pc x pc' y) (hpc' : pc' = .on .settle b g) : g = f := by
  cases h with
  | run | skip | reset | make | swapIn | leave | swapOut | hold | resetNull => cases hpc'
  | back =>
    cases hpc'
    rfl
  | settle b' f =>
    cases x with
    | ready | init | hold | exec => cases hpc'
    | term | except => cases b' <;> cases hpc'

theorem goes_switched (h : Pc.Goes count f pc x pc' y) (hpc : pc.switched g = true) : f = g := by
  cases h with
  | run | skip | reset | make | swapIn | leave | settle | hold | resetNull => cases hpc
  | swapOut | back => exact of_decide_eq_true hpc

/-- A thread that is at a `READY` fiber after a turn has just switched from it, or found it so on its way to it, or
hands it over. -/
theorem goes_ready (h : Pc.Goes count f pc x pc' y) (hy : y = .ready) :
    pc'.switched f = true ∨ (x = .ready ∧ pc.switched f = false ∧ ∀ b g, pc' ≠ .on .settle b g) ∨
      x = .ready ∧ ∃ b, pc = .on .back b f ∨ pc = .on .settle b f := by
  cases h with
  | run | skip => exact .inr (.inl ⟨hy, rfl, nofun⟩)
  | reset | make | swapIn | hold | resetNull => cases hy
  | leave | swapOut => exact .inl (decide_eq_true rfl)
  | back b => exact .inr (.inr ⟨hy, b, .inl rfl⟩)
  | settle b => exact .inr (.inr ⟨hy, b, .inr rfl⟩)

end Goes

/-! ## What is true while `m_mutex` is held -/

/-- `m_fibers` is empty, and nobody has anything in hand that belongs there, but for a fiber that another thread has
switched from. -/
structure Locked (s : IOLoop n) : Prop where
  fibers : s.sched.fibers = []
  schedule : ∀ w b f, (s.sched.workers w).pc ≠ .on .schedule b f
  settle : ∀ w b f, (s.sched.workers w).pc = .on .settle b f → (s.sched.heap f).state = .ready →
    ∃ v, (s.sched.workers v).pc.switched f = true
  expired : ∀ w, (s.idler w).hasExpired = false

theorem NoneInHand.locked (h : s.NoneInHand) (hfibers : s.sched.fibers = []) : s.Locked where
  fibers := hfibers
  schedule w b f hpc := by
    have hno := (h w).1
    rw [hpc] at hno
    cases hno
  settle w b f hpc hready := by
    have hno := (h w).1
    rw [hpc, Pc.putsBack, hready] at hno
    cases hno
  expired w := (h w).2

namespace Locked

/-- The scheduler stays as it is, and nobody takes expired callbacks. -/
theorem congr (h : s.Locked) (hsched : t.sched = s.sched) (hexpired : ∀ w, (t.idler w).hasExpired = false) :
    t.Locked where
  fibers := by rw [hsched]; exact h.fibers
  schedule := by rw [hsched]; exact h.schedule
  settle := by rw [hsched]; exact h.settle
  expired := hexpired

/-- An idle fiber goes on. -/
theorem setIdler (h : s.Locked) {pc : IdlePc} (hpc : pc.hasExpired = false) : (s.setIdler w pc).Locked := by
  refine h.congr rfl fun v => ?_
  rw [setIdler_idler]
  by_cases hvw : v = w
  · rw [hvw, Function.update_self, hpc]
  · rw [Function.update_of_ne hvw]
    exact h.expired v

/-- A thread goes from one place without a fiber to another. -/
theorem away (h : s.Locked) (hfibers : t.sched.fibers = s.sched.fibers) (hheap : t.sched.heap = s.sched.heap)
    (hothers : ∀ v, v ≠ w → (t.sched.workers v).pc = (s.sched.workers v).pc)
    (hold : ∀ p b f, (s.sched.workers w).pc ≠ .on p b f) (hnew : ∀ p b f, (t.sched.workers w).pc ≠ .on p b f)
    (hexpired : ∀ v, (t.idler v).hasExpired = false) : t.Locked where
  fibers := hfibers.trans h.fibers
  schedule v b f hpc := by
    by_cases hvw : v = w
    · exact hnew _ b f (hvw ▸ hpc)
    · exact h.schedule v b f (hothers v hvw ▸ hpc)
  settle v b f hpc hready := by
    by_cases hvw : v = w
    · exact absurd (hvw ▸ hpc) (hnew _ b f)
    · rw [hheap] at hready
      obtain ⟨u, hu⟩ := h.settle v b f (hothers v hvw ▸ hpc) hready
      have huw : u ≠ w := by
        rintro rfl
        unfold Pc.switched at hu
        split at hu
        · exact hold _ _ _ ‹_›
        · exact hold _ _ _ ‹_›
        · cases hu
      exact ⟨u, by rw [hothers u huw]; exact hu⟩
  expired := hexpired

/-- A turn of a thread, but for one that hands a `READY` fiber over. -/
theorem turn (h : s.Locked) {a : Scheduler.Label n} {sched : Scheduler n} (hfibers : sched.fibers = s.sched.fibers)
    (hturn : s.sched.Turn a sched) (hok : ∀ w ∈ a.thread, (s.sched.workers w).pc.handsOver s.sched.heap = false) :
    ({ s with sched } : IOLoop n).Locked := by
  cases hturn with
  | still hworkers hstate hnew =>
    have hpc : ∀ v, (sched.workers v).pc = (s.sched.workers v).pc := fun v => by rw [hworkers]
    refine ⟨hfibers.trans h.fibers, fun v b f hv => h.schedule v b f (hpc v ▸ hv), fun v b f hv hready => ?_, h.expired⟩
    have hready : (s.sched.heap f).state = .ready := by
      by_cases hf : f = s.sched.count
      · subst hf
        rcases hnew with hnew | hnew
        · exact hnew ▸ hready
        · have := hnew.symm.trans hready
          cases this
      · exact hstate f hf ▸ hready
    obtain ⟨u, hu⟩ := h.settle v b f (hpc v ▸ hv) hready
    exact ⟨u, by rw [hpc u]; exact hu⟩
  | goes w f ha hpc hstate hgoes =>
    have hnot : ∀ b, (s.sched.workers w).pc = .on .back b f ∨ (s.sched.workers w).pc = .on .settle b f →
        (s.sched.heap f).state ≠ .ready := by
      intro b hpc hready
      have hno := hok w (by rw [ha]; rfl)
      rcases hpc with hpc | hpc <;> rw [hpc, Pc.handsOver, hready] at hno <;> cases hno
    refine ⟨hfibers.trans h.fibers, fun v b g hv => ?_, fun v b g hv hready => ?_, h.expired⟩
    · by_cases hvw : v = w
      · obtain ⟨hready, b', hsettle⟩ := goes_schedule hgoes (hvw ▸ hv)
        exact hnot b' (.inr hsettle) hready
      · exact h.schedule v b g (hpc v hvw ▸ hv)
    · by_cases hg : g = f
      · subst hg
        rcases goes_ready hgoes hready with hswitched | ⟨hx, hold, hsettle⟩ | ⟨hx, b', hat⟩
        · exact ⟨w, hswitched⟩
        · have hvw : v ≠ w := fun e => hsettle b g (e ▸ hv)
          obtain ⟨u, hu⟩ := h.settle v b g (hpc v hvw ▸ hv) hx
          have huw : u ≠ w := by
            rintro rfl
            rw [hold] at hu
            cases hu
          exact ⟨u, by rw [hpc u huw]; exact hu⟩
        · exact absurd hx (hnot b' hat)
      · have hvw : v ≠ w := fun e => hg (goes_settle hgoes (e ▸ hv))
        obtain ⟨u, hu⟩ := h.settle v b g (hpc v hvw ▸ hv) (hstate g hg ▸ hready)
        have huw : u ≠ w := by
          rintro rfl
          exact hg (goes_switched hgoes hu).symm
        exact ⟨u, by rw [hpc u huw]; exact hu⟩

end Locked

/-! ## What a step keeps -/

/-- The thread that holds `m_mutex` is the one at the last read, and what a thread has read so far is still true. -/
structure Orderly (s : IOLoop n) : Prop where
  mutex : ∀ e, s.mutex = some e ↔ s.reading e = some .active
  timers : ∀ e, s.reading e ≠ none → s.timers.timers = []
  events : ∀ e, s.reading e = some .queue ∨ s.reading e = some .active → s.pendingEventCount = 0
  locked : s.mutex ≠ none → s.Locked

theorem reading_setIdler (pc : IdlePc) (e : Evaluator n) :
    (s.setIdler w pc).reading e = if e = some w then pc.reading? else s.reading e := by
  cases e with
  | none => rfl
  | some v =>
    by_cases hvw : v = w
    · simp only [reading, setIdler_idler, hvw, Function.update_self, if_true]
    · simp only [reading, setIdler_idler, Function.update_of_ne hvw, Option.some.injEq, hvw, if_false]

theorem reading_left (returns : Bool) (e : Evaluator n) :
    (s.left w returns).reading e = if e = some w then none else s.reading e :=
  reading_setIdler .top e

theorem reading_stopper (r : Option Reading) (e : Evaluator n) :
    ({ s with stopper := r } : IOLoop n).reading e = if e = none then r else s.reading e := by
  cases e with
  | none => rfl
  | some v => rfl

theorem reading_congr (hidler : t.idler = s.idler) (hstopper : t.stopper = s.stopper) (e : Evaluator n) :
    t.reading e = s.reading e := by
  cases e with
  | none => exact hstopper
  | some w => simp only [reading, hidler]

/-- `~0ull` is what `getNextTimer` returns when there is no timer. -/
theorem timers_of_getNextTimer {m : TimerManager Nat} {now : UInt64} (hnow : now ≠ 0)
    (h : (m.getNextTimer now).1 = ~~~0) : m.timers = [] := by
  unfold TimerManager.getNextTimer at h
  cases htimers : m.timers with
  | nil => rfl
  | cons first rest =>
    simp only [htimers] at h
    split at h
    · exact absurd h (by decide)
    · rename_i hdue
      have hlt : now.toNat < (m.mem first).next.toNat := UInt64.lt_iff_toNat_lt.mp (UInt64.not_le.mp hdue)
      have hmax := congrArg UInt64.toNat h
      rw [UInt64.toNat_sub_of_le _ _ (UInt64.le_iff_toNat_le.mpr (Nat.le_of_lt hlt))] at hmax
      have hbound := (m.mem first).next.toNat_lt
      have hvalue : (~~~0 : UInt64).toNat = 2 ^ 64 - 1 := by decide
      have hzero : now.toNat ≠ 0 := fun e => hnow (UInt64.toNat_inj.mp e)
      omega

/-- A thread goes on to `stopping` only when there is no timer. -/
theorem getNextTimer_reading {now : UInt64} (hnow : now ≠ 0) (h : (s.getNextTimer now).2.reading? ≠ none) :
    (s.getNextTimer now).2.reading? = some .pending ∧ s.timers.timers = [] := by
  unfold getNextTimer at h ⊢
  dsimp only at h ⊢
  split at h
  · rename_i hmax
    rw [if_pos hmax]
    exact ⟨rfl, timers_of_getNextTimer hnow hmax⟩
  · exact absurd rfl h

theorem getNextTimer_hasExpired (s : IOLoop n) (now : UInt64) : (s.getNextTimer now).2.hasExpired = false := by
  unfold getNextTimer
  dsimp only
  split <;> rfl

theorem listExpiredCb_empty {m m' : TimerManager Nat} {now : UInt64} {key : Nat} {cbs : List (Option Nat)}
    (hempty : m.timers = []) (h : m.listExpiredCb now key = .ok (cbs, m')) : cbs = [] ∧ m'.timers = [] := by
  unfold TimerManager.listExpiredCb at h
  rw [hempty] at h
  obtain ⟨hcbs, rfl⟩ := Prod.mk.inj (Except.ok.inj h)
  exact ⟨hcbs.symm, hempty⟩

namespace Orderly

/-- Nobody reads anything, and what has been read stays true. -/
theorem congr (h : s.Orderly) (hmutex : t.mutex = s.mutex) (hreading : ∀ e, t.reading e = s.reading e)
    (htimers : ∀ e, s.reading e ≠ none → s.timers.timers = [] → t.timers.timers = [])
    (hevents : ∀ e, s.reading e = some .queue ∨ s.reading e = some .active → s.pendingEventCount = 0 →
      t.pendingEventCount = 0)
    (hlocked : s.mutex ≠ none → s.Locked → t.Locked) : t.Orderly where
  mutex e := by rw [hmutex, hreading]; exact h.mutex e
  timers e he := by
    rw [hreading] at he
    exact htimers e he (h.timers e he)
  events e he := by
    rw [hreading] at he
    exact hevents e he (h.events e he)
  locked he := by
    rw [hmutex] at he
    exact hlocked he (h.locked he)

/-- What `stopping` reads from the timers and the events is as before. -/
theorem frame (h : s.Orderly) (hmutex : t.mutex = s.mutex) (hidler : t.idler = s.idler)
    (hstopper : t.stopper = s.stopper) (htimers : t.timers = s.timers)
    (hevents : t.pendingEventCount = s.pendingEventCount) (hlocked : s.mutex ≠ none → s.Locked → t.Locked) :
    t.Orderly :=
  h.congr hmutex (reading_congr hidler hstopper) (fun _ _ hempty => by rw [htimers, hempty])
    (fun _ _ hzero => hevents.trans hzero) hlocked

/-- A thread calls `getNextTimer`, from `idle` or `stop`. -/
theorem asks (h : s.Orderly) {e : Evaluator n} {r : Option Reading} (hold : s.reading e = none)
    (hreading : ∀ e', t.reading e' = if e' = e then r else s.reading e')
    (hr : r ≠ none → r = some .pending ∧ s.timers.timers = []) (hmutex : t.mutex = s.mutex)
    (htimers : t.timers.timers = s.timers.timers) (hevents : t.pendingEventCount = s.pendingEventCount)
    (hlocked : s.Locked → t.Locked) : t.Orderly where
  mutex e' := by
    rw [hmutex, hreading, h.mutex]
    split
    · rename_i he
      rw [he, hold]
      refine ⟨nofun, fun hactive => ?_⟩
      have hpending := (hr (by rw [hactive]; exact nofun)).1
      rw [hactive] at hpending
      cases hpending
    · rfl
  timers e' he' := by
    rw [htimers]
    rw [hreading] at he'
    split at he'
    · exact (hr he').2
    · exact h.timers e' he'
  events e' he' := by
    rw [hevents]
    rw [hreading] at he'
    split at he'
    · rcases he' with he' | he'
      · have hpending := (hr (by rw [he']; exact nofun)).1
        rw [he'] at hpending
        cases hpending
      · have hpending := (hr (by rw [he']; exact nofun)).1
        rw [he'] at hpending
        cases hpending
    · exact h.events e' he'
  locked he' := by
    rw [hmutex] at he'
    exact hlocked (h.locked he')

/-- A thread makes a read of `stopping`. -/
theorem read (h : s.Orderly) {e : Evaluator n} {reading : Reading} {r : IOLoop n} {answer : Answer} {now : UInt64}
    (hold : s.reading e = some reading) (hread : s.Reads e reading r answer) (hok : s.ReadsInOrder now (some reading))
    (hreading : ∀ e', t.reading e' = if e' = e then answer.reading? else s.reading e') (hmutex : t.mutex = r.mutex)
    (htimers : t.timers = s.timers) (hevents : t.pendingEventCount = s.pendingEventCount)
    (hlocked : answer ≠ .returns true → s.Locked → t.Locked) : t.Orderly := by
  have htimers' : ∀ e', t.reading e' ≠ none → t.timers.timers = [] := fun _ _ => by
    rw [htimers]
    exact h.timers e (by rw [hold]; exact nofun)
  -- the lock stays where it is while the thread is at another read
  have hmutex' : t.mutex = s.mutex → answer.reading? ≠ some .active → reading ≠ .active →
      ∀ e', t.mutex = some e' ↔ t.reading e' = some .active := by
    intro hm hanswer hne e'
    rw [hm, hreading, h.mutex]
    split
    · rename_i he
      rw [he, hold]
      exact ⟨fun hr => absurd (Option.some.inj hr) hne, fun hr => absurd hr hanswer⟩
    · rfl
  have hevents' : answer.reading? = none ∨ s.pendingEventCount = 0 → ∀ e', t.reading e' = some .queue ∨
      t.reading e' = some .active → t.pendingEventCount = 0 := by
    intro hor e' he'
    rw [hevents]
    rcases hor with hnone | hzero
    · rw [hreading, hnone] at he'
      split at he'
      · rcases he' with he' | he' <;> cases he'
      · exact h.events e' he'
    · exact hzero
  cases hread with
  | noEvent hpending =>
    refine ⟨hmutex' hmutex nofun nofun, htimers', hevents' (.inr hpending), fun hm => ?_⟩
    exact hlocked nofun (h.locked (hmutex ▸ hm))
  | event =>
    refine ⟨hmutex' hmutex nofun nofun, htimers', hevents' (.inl rfl), fun hm => ?_⟩
    exact hlocked nofun (h.locked (hmutex ▸ hm))
  | empty hfree hauto hstopping hfibers =>
    refine ⟨fun e' => ?_, htimers', hevents' (.inr (h.events e (.inl hold))), fun _ => ?_⟩
    · rw [hmutex, hreading]
      by_cases he : e' = e
      · rw [if_pos he, he]
        exact ⟨fun _ => rfl, fun _ => rfl⟩
      · rw [if_neg he, ← h.mutex, hfree]
        exact ⟨fun hr => absurd (Option.some.inj hr).symm he, nofun⟩
    · exact hlocked nofun ((hok hauto hstopping hfibers).locked hfibers)
  | queued hfree =>
    refine ⟨hmutex' hmutex nofun nofun, htimers', hevents' (.inl rfl), fun hm => ?_⟩
    exact absurd (hmutex.trans hfree) hm
  | active =>
    refine ⟨fun e' => ?_, htimers', hevents' (.inl rfl), fun hm => absurd hmutex hm⟩
    rw [hmutex, hreading]
    by_cases he : e' = e
    · rw [if_pos he]
      exact ⟨nofun, nofun⟩
    · rw [if_neg he, ← h.mutex, (h.mutex e).mpr hold]
      exact ⟨nofun, fun hr => absurd (Option.some.inj hr).symm he⟩

/-- An idle fiber that is not in `stopping` goes on. -/
theorem goes (h : s.Orderly) {pc : IdlePc} (hold : (s.idler w).reading? = none) (hnew : pc.reading? = none)
    (hmutex : t.mutex = s.mutex) (hidler : t.idler = Function.update s.idler w pc) (hstopper : t.stopper = s.stopper)
    (htimers : s.timers.timers = [] → t.timers.timers = []) (hevents : t.pendingEventCount = s.pendingEventCount)
    (hlocked : s.mutex ≠ none → s.Locked → t.Locked) : t.Orderly := by
  refine h.congr hmutex (fun e => ?_) (fun _ _ => htimers) (fun _ _ hz => hevents.trans hz) hlocked
  cases e with
  | none => exact hstopper
  | some v =>
    simp only [reading, hidler]
    by_cases hvw : v = w
    · rw [hvw, Function.update_self, hnew, hold]
    · rw [Function.update_of_ne hvw]

end Orderly

/-- A thread that goes away from its idle fiber. -/
theorem Locked.left (h : s.Locked) (hpc : (s.sched.workers w).pc = .idling) (returns : Bool) :
    (s.left w returns).Locked := by
  have hw : ((s.left w returns).sched.workers w).pc = .scan := by
    simp only [IOLoop.left, Scheduler.setWorker_workers, Function.update_self]
  refine h.away (w := w) rfl rfl (fun v hv => ?_) (by simp [hpc]) (by simp [hw]) fun v => ?_
  · simp only [IOLoop.left, Scheduler.setWorker_workers, Function.update_of_ne hv]
  · simp only [IOLoop.left]
    by_cases hvw : v = w
    · rw [hvw, Function.update_self]
      rfl
    · rw [Function.update_of_ne hvw]
      exact h.expired v

/-- A thread behind a scan that found nothing. -/
theorem Locked.idles (h : s.Locked) (hpc : (s.sched.workers w).pc = .nothing) {idleThreadCount : Nat} :
    ({ s with sched := s.sched.idle w, idleThreadCount } : IOLoop n).Locked := by
  obtain ⟨hfibers, hheap, hothers, hw⟩ := Scheduler.idle_turn s.sched w
  refine h.away (w := w) hfibers hheap (fun v hv => by rw [hothers v hv]) (by rw [hpc]; exact nofun) ?_ h.expired
  intro p b f hon
  have hon : ((s.sched.idle w).workers w).pc = .on p b f := hon
  rcases hw with hw | hw | hw
  · rw [hw] at hon
    cases hon
  · rw [hw] at hon
    cases hon
  · rw [hw, hpc] at hon
    cases hon

/-- Every step that keeps order keeps it. -/
theorem orderly_move (hf : s.Formed) (h : s.Orderly) {a : Label n} (hok : s.KeepsOrder a) (hm : s.Move a t) :
    t.Orderly := by
  cases hm with
  | inner hinner hst =>
    obtain ⟨hfibers, hturn⟩ := Scheduler.step_turn hst hinner
    exact h.frame rfl rfl rfl rfl rfl fun hm hlocked => hlocked.turn hfibers hturn (hok hm)
  | scan hpc hmutex | putBack hpc hmutex | push _ hmutex =>
    exact h.frame rfl rfl rfl rfl rfl fun hm => absurd hmutex hm
  | idles hpc => exact h.frame rfl rfl rfl rfl rfl fun _ hlocked => hlocked.idles hpc
  | tickle | tickleScheduled | tickleInserted | tickleStop =>
    rw [tickle_eq]
    exact h.frame rfl rfl rfl rfl rfl fun _ hlocked => hlocked.congr rfl hlocked.expired
  | @asks w now key hpc hidler =>
    simp only [KeepsOrder, hidler] at hok
    refine h.asks (e := some w) (by simp only [reading, hidler]; rfl) (fun e => ?_) (getNextTimer_reading hok) rfl
      (getNextTimer_same s.timers now).1 rfl fun hlocked => ?_
    · rw [reading_setIdler, reading_congr (s := s) (t := (s.getNextTimer now).1) rfl rfl]
    · exact Locked.setIdler (s := (s.getNextTimer now).1) (hlocked.congr rfl hlocked.expired)
        (getNextTimer_hasExpired s now)
  | @reads w now key reading next wait r hpc hidler hread =>
    obtain ⟨mutex, rfl⟩ := hread.frame
    simp only [KeepsOrder, hidler] at hok
    refine h.read (by simp only [IOLoop.reading, hidler]; rfl) hread hok (fun e => ?_) rfl rfl rfl fun _ hlocked => ?_
    · rw [reading_setIdler, reading_congr (s := s) (t := { s with mutex }) rfl rfl]
      rfl
    · exact Locked.setIdler (s := { s with mutex }) (hlocked.congr rfl hlocked.expired) rfl
  | @goesOn w now key reading wait r hpc hidler hread =>
    obtain ⟨mutex, rfl⟩ := hread.frame
    simp only [KeepsOrder, hidler] at hok
    refine h.read (by simp only [IOLoop.reading, hidler]; rfl) hread hok (fun e => ?_) rfl rfl rfl fun _ hlocked => ?_
    · rw [reading_setIdler, reading_congr (s := s) (t := { s with mutex }) rfl rfl]
      rfl
    · exact Locked.setIdler (s := { s with mutex }) (hlocked.congr rfl hlocked.expired) rfl
  | @stops w now key reading wait r hpc hidler hread =>
    obtain ⟨mutex, rfl⟩ := hread.frame
    simp only [KeepsOrder, hidler] at hok
    refine h.read (by simp only [IOLoop.reading, hidler]; rfl) hread hok (fun e => ?_) rfl rfl rfl
      fun hne => absurd rfl hne
    rw [reading_left, reading_congr (s := s) (t := { s with mutex }) rfl rfl]
    rfl
  | blocks hpc hidler | leaves hpc hidler | noneExpired hpc hidler =>
    exact h.goes (by rw [hidler]; rfl) rfl rfl rfl rfl id rfl fun _ hlocked => hlocked.setIdler rfl
  | polled _ hidler | wakes _ hidler | waitsAgain hidler =>
    exact h.goes (by rw [hidler]; rfl) rfl rfl rfl rfl id rfl fun _ hlocked => hlocked.setIdler rfl
  | @expires w now key tickled cbs timers hpc hidler hlive hexpired =>
    refine h.goes (by rw [hidler]; rfl) rfl rfl rfl rfl (fun hempty => (listExpiredCb_empty hempty hexpired).2) rfl
      fun hm hlocked => ?_
    obtain ⟨e, he⟩ := Option.ne_none_iff_exists'.mp hm
    have hempty := h.timers e (by rw [(h.mutex e).mp he]; exact nofun)
    rw [(listExpiredCb_empty hempty hexpired).1]
    exact Locked.setIdler (s := { s with timers }) (hlocked.congr rfl hlocked.expired) rfl
  | schedules hpc hidler hmutex =>
    exact h.goes (by rw [hidler]; rfl) rfl rfl rfl rfl id rfl fun hm => absurd hmutex hm
  | drains hpc hidler =>
    exact h.goes (by rw [hidler]; rfl) rfl rfl rfl rfl id rfl fun _ hlocked =>
      Locked.setIdler (s := { s with pipe := 0 }) (hlocked.congr rfl hlocked.expired) rfl
  | @swapsOut w now key hpc hidler =>
    have htop : (s.left w false).idler = Function.update s.idler w .top := rfl
    exact h.goes (by rw [hidler]; rfl) rfl rfl htop rfl id rfl fun _ hlocked => hlocked.left hpc _
  | triggers _ _ hmutex => exact h.frame rfl rfl rfl rfl rfl fun hm => absurd hmutex hm
  | @timer op timers huser henabled hrun =>
    refine h.congr rfl (reading_congr rfl rfl) (fun e he hempty => ?_) (fun _ _ => id)
      fun _ hlocked => hlocked.congr rfl hlocked.expired
    have hdue := hok.resolve_right fun hnone => he (hnone e)
    refine List.eq_nil_iff_forall_not_mem.mpr fun a ha => ?_
    rcases TimerManager.run_due hf.timers huser henabled hrun a ha with ⟨b, hb, -⟩ | ⟨ha, -⟩
    · rw [hempty] at hb
      cases hb
    · rw [hdue] at ha
      cases ha
  | addEvent =>
    exact h.congr rfl (reading_congr rfl rfl) (fun _ _ => id)
      (fun e he => absurd he (not_or.mpr (hok e))) fun _ hlocked => hlocked.congr rfl hlocked.expired
  | removeEvent =>
    exact h.congr rfl (reading_congr rfl rfl) (fun _ _ => id) (fun _ _ hz => by simp only [hz, Nat.zero_sub])
      fun _ hlocked => hlocked.congr rfl hlocked.expired
  | setAutoStop | setStopping =>
    exact h.frame rfl rfl rfl rfl rfl fun _ hlocked => hlocked.congr rfl hlocked.expired
  | @stopAsks now hstopper =>
    have hnow : now ≠ 0 := by
      simp only [KeepsOrder, hstopper] at hok
      exact hok
    refine h.asks (e := none) hstopper (fun e => ?_) (getNextTimer_reading hnow) rfl
      (getNextTimer_same s.timers now).1 rfl fun hlocked => hlocked.congr rfl hlocked.expired
    rw [reading_stopper, reading_congr (s := s) (t := (s.getNextTimer now).1) rfl rfl]
  | @stopReads now reading r answer hstopper hread =>
    obtain ⟨mutex, rfl⟩ := hread.frame
    simp only [KeepsOrder, hstopper] at hok
    refine h.read (e := none) hstopper hread hok (fun e => ?_) rfl rfl rfl
      fun _ hlocked => hlocked.congr rfl hlocked.expired
    rw [reading_stopper, reading_congr (s := s) (t := { s with mutex }) rfl rfl]

/-- At the last read the thread has found everything empty, and nobody has anything in hand. -/
theorem Orderly.quiet (h : s.Orderly) (hactive : s.sched.ActiveCounted) {e : Evaluator n} (he : s.ReturnsTrue e) :
    s.Quiet := by
  obtain ⟨hreading, hzero⟩ := returnsTrue_iff.mp he
  have hlocked := h.locked (by rw [(h.mutex e).mpr hreading]; exact nofun)
  have hholds : ∀ w, (s.sched.workers w).pc.holds = false :=
    Count.count_eq_zero (p := fun wk : Worker => wk.pc.holds) (hactive.symm.trans hzero)
  refine ⟨hlocked.fibers, hholds, fun w => ?_, hlocked.expired, h.timers e (by rw [hreading]; exact nofun),
    h.events e (.inr hreading)⟩
  unfold Pc.putsBack
  split
  · exact absurd ‹_› (hlocked.schedule w _ _)
  · rename_i b f hpc
    refine decide_eq_false fun hready => ?_
    obtain ⟨v, hv⟩ := hlocked.settle w b f hpc hready
    have hnot := hholds v
    unfold Pc.switched at hv
    split at hv
    · rename_i hon
      rw [hon] at hnot
      cases hnot
    · rename_i hon
      rw [hon] at hnot
      cases hnot
    · cases hv
  · rfl

/-- **No premature stop** in runs whose steps all keep order. -/
theorem no_premature_stop {n : Nat} {s : IOLoop n} (h : (ioLoopSys n).ReachableWhen KeepsOrder s) :
    s.NoPrematureStop := by
  have horderly : s.Orderly := by
    refine invariant_of_moves ?_ (fun s a t hf hI hok hm => orderly_move hf hI hok hm) h
    intro mem now
    refine ⟨fun e => ?_, fun _ _ => rfl, fun _ _ => rfl, fun hm => absurd rfl hm⟩
    cases e with
    | none => exact ⟨nofun, nofun⟩
    | some w => exact ⟨nofun, nofun⟩
  exact fun e he => horderly.quiet (formed_reachable h.reachable).active he

/-- A thread goes on with a task that it has taken until the fiber has returned and it is about to scan again. -/
def finishes (w : Fin n) : List (Label n) :=
  [.sched (.advance w), .sched (.advance w), .sched (.outcome w .returns), .sched (.advance w), .sched (.advance w),
    .sched (.advance w), .sched (.advance w)]

/-- A thread waits for a timer and an event, runs the callbacks of both, and finds the flags of `stop` set. -/
theorem no_premature_stop_idle : ∃ s : IOLoop 1, s.NoPrematureStop ∧ s.ReturnsTrue (some 0) ∧ s.Quiet := by
  obtain ⟨s, hs, htest⟩ := Transition.Sys.reachableWhen_of_exec (S := ioLoopSys 1) KeepsOrder
    (.new 1 (fun _ => Timer.ofNext 0) 0) ⟨_, _, rfl⟩
    ([.timer (.addTimer 100 10 8 false 40), .tickleInserted, .addEvent, .sched (.advance 0), .sched (.advance 0),
        .idle 0 100 50, .idle 0 100 50, .wake 0 false, .idle 0 111 50, .idle 0 111 50, .tickle 0, .trigger 0 (.cb 9),
        .removeEvent, .idle 0 111 50, .idle 0 111 50, .sched (.advance 0), .tickle 0] ++ finishes 0 ++
      [.sched (.advance 0)] ++ finishes 0 ++
      [.sched (.advance 0), .sched (.advance 0), .setAutoStop, .setStopping, .idle 0 112 50, .idle 0 112 50,
        .idle 0 112 50])
    (p := fun s => decide (s.ReturnsTrue (some 0))) (by decide +kernel)
  have hreturns := of_decide_eq_true htest
  exact ⟨s, no_premature_stop hs, hreturns, no_premature_stop hs _ hreturns⟩

/-- Thread 0 runs a callback, which calls `YieldToReady`. Between its decrement and its push `stopping` returns true to
thread 1. -/
theorem no_premature_stop_fails : ¬ ∀ s : IOLoop 2, (ioLoopSys 2).Reachable s → s.NoPrematureStop := by
  intro hall
  obtain ⟨s, hs, htest⟩ := Transition.Sys.reachable_of_exec (S := ioLoopSys 2)
    (.new 2 (fun _ => Timer.ofNext 0) 0) ⟨_, _, rfl⟩
    [.sched (.advance 1), .sched (.advance 1), .sched (.scheduleCb 7 none), .tickleScheduled, .sched (.advance 0),
      .sched (.advance 0), .sched (.advance 0), .sched (.outcome 0 .yieldToReady), .sched (.advance 0),
      .sched (.advance 0), .setAutoStop, .setStopping, .idle 1 100 0, .idle 1 100 0, .idle 1 100 0]
    (p := fun s => decide (s.ReturnsTrue (some 1) ∧ (s.sched.workers 0).pc.putsBack s.sched.heap = true))
    rfl
  obtain ⟨hreturns, hready⟩ := of_decide_eq_true htest
  have hnot := (hall s hs (some 1) hreturns).putBack 0
  rw [hready] at hnot
  cases hnot

end IOLoop

end Megalo
