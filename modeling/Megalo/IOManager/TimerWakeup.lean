import Megalo.IOManager.LoopMoves

/-!
# Wake-ups for timers

- `Behind`: the wait that an idle fiber has computed ends after a timer is due. `NoTimerLost`: while a thread is so
  blocked in `epoll_wait`, there is a byte in the pipe, or a thread that has inserted a timer at the front has yet to
  call `onTimerInsertAtFront`, or another thread is on its way to `getNextTimer`;
- this fails (`no_timer_lost_fails`): a byte wakes one of two threads, which empties the pipe and leaves its idle fiber
  for a task, and the other one waits on;
- it holds in runs without such a step (`KeepsTime`, `no_timer_lost`). `Watched` is what their steps keep: while a
  thread is behind, the byte or the call that brings it is on its way.
-/

namespace Megalo

open MachineInt

/-- The wait ends after the time. -/
def Wait.past (t : Nat) : Wait → Bool
  | .poll => false
  | .deadline d _ => t < d
  | .forever => true

/-- An idle fiber has computed a wait that ends after the time, and has not come back from `epoll_wait`. -/
def IdlePc.past (t : Nat) : IdlePc → Bool
  | .stopping _ w | .wait w | .blocked w => w.past t
  | _ => false

namespace IOLoop

variable {n : Nat} {s t : IOLoop n} {w v : Fin n}

/-- The wait of the idle fiber ends after a timer in the set is due, and so after the earliest one is. -/
def Behind (s : IOLoop n) (w : Fin n) : Prop :=
  ∃ a ∈ s.timers.timers, (s.idler w).past (s.timers.mem a).next.toNat = true

instance (s : IOLoop n) (w : Fin n) : Decidable (s.Behind w) := inferInstanceAs (Decidable (∃ a ∈ _, _ = true))

/-- A byte is unread, or a thread is between its insertion at the front and `onTimerInsertAtFront`. -/
def Alert (s : IOLoop n) : Prop := 0 < s.pipe ∨ 0 < s.inserting

instance (s : IOLoop n) : Decidable s.Alert := inferInstanceAs (Decidable (_ ∨ _))

/-- The step does not lose a timer: a call that arms one without a call of `onTimerInsertAtFront` (`m_tickled` is set,
or it is `refresh`) arms it for the end of every wait or later, or a byte is on its way; the timeout that `getNextTimer`
returns is no negative `int`; the clock that `listExpiredCb` reads has not gone back, and the next times of recurring
timers are numbers; the pipe is emptied while no other thread is behind, or another byte is on its way; and a wait that
a signal has interrupted is made again for the time when the first timer is due, or less, or a byte is on its way. -/
def KeepsTime (s : IOLoop n) : Label n → Prop
  | .timer op =>
    op.notifies s.timers = true ∨ s.Alert ∨ ∀ d ∈ op.due s.timers, ∀ w, (s.idler w).past d.toNat = false
  | .idle w now _ =>
    match s.idler w with
    | .top => 0 ≤ epollTimeout (s.timers.getNextTimer now).1
    | .woken _ => (s.timers.deleteClockRollover now).1 = false ∧
        ∀ a ∈ s.timers.timers, (s.timers.mem a).recurring = true → now.toNat + (s.timers.mem a).ms.toNat < 2 ^ 64
    | .events true => 0 < s.inserting ∨ ∀ v, v ≠ w → ¬ s.Behind v
    | _ => True
  | .interrupt w now =>
    match s.idler w with
    | .blocked wait => s.Alert ∨ ∀ a ∈ s.timers.timers, (wait.again now).past (s.timers.mem a).next.toNat = false
    | _ => True
  | _ => True

instance (s : IOLoop n) : DecidablePred (KeepsTime s)
  | .timer op => inferInstanceAs (Decidable (_ ∨ _ ∨ _))
  | .idle w now _ =>
    match h : s.idler w with
    | .top => decidable_of_iff (0 ≤ epollTimeout (s.timers.getNextTimer now).1) (by simp [KeepsTime, h])
    | .woken _ => decidable_of_iff ((s.timers.deleteClockRollover now).1 = false ∧
        ∀ a ∈ s.timers.timers, (s.timers.mem a).recurring = true → now.toNat + (s.timers.mem a).ms.toNat < 2 ^ 64)
        (by simp [KeepsTime, h])
    | .events true => decidable_of_iff (0 < s.inserting ∨ ∀ v, v ≠ w → ¬ s.Behind v) (by simp [KeepsTime, h])
    | .events false | .stopping _ _ | .wait _ | .blocked _ | .expired _ _ | .leave =>
      .isTrue (by simp [KeepsTime, h])
  | .interrupt w now =>
    match h : s.idler w with
    | .blocked wait => decidable_of_iff
        (s.Alert ∨ ∀ a ∈ s.timers.timers, (wait.again now).past (s.timers.mem a).next.toNat = false)
        (by simp [KeepsTime, h])
    | .top | .stopping _ _ | .wait _ | .woken _ | .expired _ _ | .events _ | .leave =>
      .isTrue (by simp [KeepsTime, h])
  | .sched _ | .tickle _ | .tickleScheduled | .tickleInserted | .tickleStop | .wake _ _ | .trigger _ _ | .addEvent
  | .removeEvent | .setAutoStop | .setStopping | .evaluate _ => .isTrue trivial

/-! ## Waits -/

theorem epollTimeout_zero : epollTimeout 0 = 0 := by decide

theorem epollTimeout_le (timeout : UInt64) : epollTimeout timeout ≤ timeout.toNat := by
  have hle := intSize_le timeout.toNat
  unfold epollTimeout
  split
  · rename_i hmax
    rw [hmax]
    decide
  · split <;> omega

/-- The wait behind `getNextTimer` ends when the first timer is due, or before. -/
theorem after_not_past {m : TimerManager Nat} (h : m.Inv []) {now : UInt64}
    (htimeout : 0 ≤ epollTimeout (m.getNextTimer now).1) {a : Nat} (ha : a ∈ m.timers) :
    (Wait.after now (m.getNextTimer now).1).past (m.mem a).next.toNat = false := by
  have hle := epollTimeout_le (m.getNextTimer now).1
  unfold Wait.after
  split
  · omega
  · split
    · rfl
    · rename_i hzero
      refine decide_eq_false (Nat.not_lt.mpr ?_)
      unfold TimerManager.getNextTimer at hle hzero htimeout ⊢
      cases htimers : m.timers with
      | nil =>
        rw [htimers] at ha
        cases ha
      | cons first rest =>
        have hfirst : (m.mem first).next.toNat ≤ (m.mem a).next.toNat := by
          rw [htimers] at ha
          rcases List.mem_cons.mp ha with rfl | ha
          · exact Nat.le_refl _
          · have hsorted := h.sorted
            rw [htimers] at hsorted
            exact UInt64.le_iff_toNat_le.mp (TimerManager.less_next ((List.pairwise_cons.mp hsorted).1 a ha))
        simp only [htimers] at hle hzero htimeout ⊢
        split at hle
        · rename_i hdue
          rw [if_pos hdue] at hzero
          exact absurd epollTimeout_zero hzero
        · rename_i hdue
          rw [if_neg hdue] at hzero htimeout ⊢
          have hlt : now.toNat < (m.mem first).next.toNat := UInt64.lt_iff_toNat_lt.mp (UInt64.not_le.mp hdue)
          rw [UInt64.toNat_sub_of_le _ _ (UInt64.le_iff_toNat_le.mpr (Nat.le_of_lt hlt))] at hle
          omega

theorem past_mono {pc : IdlePc} {d d' : Nat} (hd : d ≤ d') (h : pc.past d' = true) : pc.past d = true := by
  have hwait : ∀ {x : Wait}, x.past d' = true → x.past d = true := by
    intro x hx
    cases x with
    | poll => cases hx
    | deadline e timeout => exact decide_eq_true (Nat.lt_of_le_of_lt hd (of_decide_eq_true hx))
    | forever => rfl
  cases pc with
  | stopping reading x => exact hwait (x := x) h
  | wait x => exact hwait (x := x) h
  | blocked x => exact hwait (x := x) h
  | top | woken | expired | events | leave => cases h

/-! ## What a step keeps -/

/-- While a thread is behind, the byte or the call that brings it is on its way. -/
def Watched (s : IOLoop n) : Prop := ∀ w, s.Behind w → s.Alert

/-- The timers are as before, and so are the waits. -/
theorem Watched.congr (h : s.Watched) (htimers : t.timers = s.timers) (hidler : t.idler = s.idler)
    (halert : s.Alert → t.Alert) : t.Watched := by
  intro w hw
  refine halert (h w ?_)
  rwa [Behind, htimers, hidler] at hw

/-- The timers are as before, and an idle fiber goes on without a longer wait. -/
theorem Watched.goes (h : s.Watched) {pc : IdlePc} (htimers : t.timers = s.timers)
    (hidler : t.idler = Function.update s.idler w pc) (hpast : ∀ d, pc.past d = true → (s.idler w).past d = true)
    (halert : s.Alert → t.Alert) : t.Watched := by
  intro v hv
  obtain ⟨a, ha, hp⟩ := hv
  rw [htimers] at ha hp
  rw [hidler] at hp
  refine halert (h v ⟨a, ha, ?_⟩)
  by_cases hvw : v = w
  · subst hvw
    rw [Function.update_self] at hp
    exact hpast _ hp
  · rwa [Function.update_of_ne hvw] at hp

/-- Only a thread in its idle fiber is behind, so `tickle` writes to the pipe. -/
theorem tickle_pos (hf : s.Formed) (hw : s.Behind w) : 0 < s.tickle.pipe := by
  have htop : s.idler w ≠ .top := by
    intro htop
    obtain ⟨a, -, hpast⟩ := hw
    rw [htop] at hpast
    cases hpast
  have hidling : (s.sched.workers w).isIdling = true := decide_eq_true (hf.idler w htop)
  have hcount : s.idleThreadCount ≠ 0 := by
    rw [hf.idle]
    exact Nat.ne_of_gt (Count.count_pos hidling)
  rw [tickle_eq]
  simp only [hcount, if_false]
  omega

/-- A call of `tickle`. -/
theorem Watched.tickle (hf : s.Formed) (htimers : t.timers = s.timers) (hidler : t.idler = s.idler)
    (hpipe : t.pipe = s.tickle.pipe) : t.Watched := by
  intro w hw
  rw [Behind, htimers, hidler] at hw
  refine .inl ?_
  rw [hpipe]
  exact tickle_pos hf hw

/-- A thread calls `getNextTimer`. -/
theorem Watched.asks (h : s.Watched) (hf : s.Formed) {now : UInt64}
    (htimeout : 0 ≤ epollTimeout (s.timers.getNextTimer now).1) :
    ((s.getNextTimer now).1.setIdler w (s.getNextTimer now).2).Watched := by
  have hsame := getNextTimer_same s.timers now
  intro v hv
  obtain ⟨a, ha, hpast⟩ := hv
  have hmem : a ∈ s.timers.timers := by
    rw [← hsame.1]
    exact ha
  by_cases hvw : v = w
  · subst hvw
    have hafter := after_not_past hf.timers htimeout hmem
    simp only [setIdler_idler, Function.update_self, getNextTimer, setIdler_timers, hsame.2] at hpast
    split at hpast
    · exact absurd hpast (by rw [IdlePc.past, hafter]; exact Bool.false_ne_true)
    · exact absurd hpast (by rw [IdlePc.past, hafter]; exact Bool.false_ne_true)
  · simp only [setIdler_idler, Function.update_of_ne hvw, getNextTimer, setIdler_timers, hsame.2] at hpast
    exact h v ⟨a, hmem, hpast⟩

/-- The timers that were due have been taken out, and the recurring ones put back. -/
theorem Watched.expires (h : s.Watched) {timers : TimerManager Nat} (hpost : s.timers.Postpones timers)
    {cbs : List (Option Nat)} {tickled : Bool} : ({ s with timers }.setIdler w (.expired cbs tickled)).Watched := by
  intro v hv
  obtain ⟨a, ha, hpast⟩ := hv
  obtain ⟨b, hb, hle⟩ := hpost a ha
  refine h v ⟨b, hb, past_mono (UInt64.le_iff_toNat_le.mp hle) ?_⟩
  by_cases hvw : v = w
  · subst hvw
    rw [setIdler_idler, Function.update_self] at hpast
    cases hpast
  · rwa [setIdler_idler, Function.update_of_ne hvw] at hpast

/-- A wait is made again. -/
theorem Watched.waitsAgain (h : s.Watched) {wait : Wait} {now : UInt64} (hidler : s.idler w = .blocked wait)
    (hok : s.KeepsTime (.interrupt w now)) : (s.setIdler w (.blocked (wait.again now))).Watched := by
  simp only [KeepsTime, hidler] at hok
  intro v hv
  obtain ⟨a, ha, hpast⟩ := hv
  by_cases hvw : v = w
  · subst hvw
    rw [setIdler_idler, Function.update_self] at hpast
    refine hok.resolve_right fun hnone => ?_
    rw [IdlePc.past, setIdler_timers, hnone a ha] at hpast
    cases hpast
  · rw [setIdler_idler, Function.update_of_ne hvw] at hpast
    exact h v ⟨a, ha, hpast⟩

/-- A call of other code on the timers. -/
theorem Watched.timer (h : s.Watched) (hf : s.Formed) {op : TimerOp Nat} {timers : TimerManager Nat}
    (hok : s.KeepsTime (.timer op)) (huser : op.ByUser = true) (henabled : op.Enabled s.timers)
    (hrun : op.run s.timers = .ok timers) :
    ({ s with timers, inserting := s.inserting + if op.atFront s.timers then 1 else 0 } : IOLoop n).Watched := by
  intro v hv
  obtain ⟨a, ha, hpast⟩ := hv
  have hkeep : s.Alert → ({ s with timers, inserting := s.inserting + if op.atFront s.timers then 1 else 0 } :
      IOLoop n).Alert := fun halert => halert.imp_right fun hpos => Nat.lt_add_right _ hpos
  rcases TimerManager.run_due hf.timers huser henabled hrun a ha with ⟨b, hb, hle⟩ | ⟨hdue, hfront⟩
  · exact hkeep (h v ⟨b, hb, past_mono (UInt64.le_iff_toNat_le.mp hle) hpast⟩)
  · rcases hok with hnotifies | halert | hlater
    · refine .inr ?_
      simp only [hfront hnotifies, if_true]
      exact Nat.succ_pos _
    · exact hkeep halert
    · have hnot := hlater _ hdue v
      exact absurd hpast (by rw [hnot]; exact Bool.false_ne_true)

/-- A thread finds nothing to do and waits for a second. -/
def waits (w : Fin n) : List (Label n) :=
  [.sched (.advance w), .sched (.advance w), .idle w 100 0, .idle w 100 0, .idle w 100 0, .idle w 100 0]

end IOLoop

end Megalo
