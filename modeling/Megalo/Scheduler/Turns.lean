import Megalo.Lib.Count
import Megalo.Scheduler.Exclusive
import Megalo.Scheduler.Transfer

/-!
# Where a step takes a thread and its fiber

- `Pc.Goes` is what a thread does between a scan that takes a task and the next scan: where it goes, and what becomes of
  the state of the fiber it is at. The push that puts a fiber back is not among it;
- `step_turn`: every step but the scan, that push, the idle fiber and `schedule` is such a turn of one thread, or leaves
  the threads and the states of the fibers as they are;
- `idle_turn` is the step behind a scan that found nothing;
- `active_step`: `m_activeThreadCount` is the number of threads that hold an entry.
-/

namespace Megalo

/-- A thread goes on from a place to another, and its fiber from a state to another; `count` is how many fibers were
made. -/
inductive Pc.Goes (count : Nat) : Nat → Pc → FiberState → Pc → FiberState → Prop
  | run (f : Nat) (x : FiberState) : Goes count f (.taken (.fiber f)) x (.on .swapIn .fiber f) x
  | skip (f : Nat) (x : FiberState) : Goes count f (.taken (.fiber f)) x .scan x
  | reset (f c : Nat) {x : FiberState} (hx : x ≠ .exec) : Goes count f (.taken (.cb c)) x (.on .swapIn .cb f) .init
  | make (c : Nat) (x : FiberState) : Goes count count (.taken (.cb c)) x (.on .swapIn .cb count) .init
  | swapIn (b : Branch) (f : Nat) (x : FiberState) : Goes count f (.on .swapIn b f) x (.on .running b f) .exec
  | leave (b : Branch) (f : Nat) (x y : FiberState) : Goes count f (.on .running b f) x (.on .swapOut b f) y
  | swapOut (b : Branch) (f : Nat) (x : FiberState) : Goes count f (.on .swapOut b f) x (.on .back b f) x
  | back (b : Branch) (f : Nat) (x : FiberState) : Goes count f (.on .back b f) x (.on .settle b f) x
  | settle (b : Branch) (f : Nat) (x : FiberState) : Goes count f (.on .settle b f) x (.afterSwapIn b f x) x
  | hold (b : Branch) (f : Nat) (x : FiberState) : Goes count f (.on .hold b f) x .scan .hold
  | resetNull (b : Branch) (f : Nat) (x : FiberState) : Goes count f (.on .resetNull b f) x .scan .init

namespace Scheduler

variable {n : Nat} {s t : Scheduler n} {w : Fin n}

/-- The thread that a step is of. -/
def Label.thread : Label n → Option (Fin n)
  | .advance w | .outcome w _ => some w
  | _ => none

/-- The threads stay as they are and the states of the fibers too, but for a new one; or the thread goes on. -/
inductive Turn (s : Scheduler n) (a : Label n) (t : Scheduler n) : Prop
  | still (hworkers : t.workers = s.workers)
      (hstate : ∀ f, f ≠ s.count → (t.heap f).state = (s.heap f).state)
      (hnew : (t.heap s.count).state = (s.heap s.count).state ∨ (t.heap s.count).state = .init)
  | goes (w : Fin n) (f : Nat) (ha : a.thread = some w) (hpc : ∀ v, v ≠ w → (t.workers v).pc = (s.workers v).pc)
      (hstate : ∀ g, g ≠ f → (t.heap g).state = (s.heap g).state)
      (h : Pc.Goes s.count f (s.workers w).pc (s.heap f).state (t.workers w).pc (t.heap f).state)

namespace Turn

variable {a : Label n}

/-- Nothing that a turn is about changes. -/
theorem refl_of (hworkers : t.workers = s.workers) (hstate : ∀ f, (t.heap f).state = (s.heap f).state) : s.Turn a t :=
  .still hworkers (fun f _ => hstate f) (.inl (hstate s.count))

/-- The thread goes on, and a fiber is written. -/
theorem write {wk : Worker} {f : Nat} {fiber : Fiber} (ha : a.thread = some w)
    (hworkers : t.workers = Function.update s.workers w wk) (hheap : t.heap = Function.update s.heap f fiber)
    (h : Pc.Goes s.count f (s.workers w).pc (s.heap f).state wk.pc fiber.state) : s.Turn a t := by
  refine .goes w f ha (fun v hv => ?_) (fun g hg => ?_) ?_
  · rw [hworkers, Function.update_of_ne hv]
  · rw [hheap, Function.update_of_ne hg]
  · rw [hworkers, hheap, Function.update_self, Function.update_self]
    exact h

/-- The thread goes on, and no fiber is written. -/
theorem move {wk : Worker} {f : Nat} (ha : a.thread = some w) (hworkers : t.workers = Function.update s.workers w wk)
    (hheap : t.heap = s.heap)
    (h : Pc.Goes s.count f (s.workers w).pc (s.heap f).state wk.pc (s.heap f).state) : s.Turn a t :=
  have hsame : t.heap = Function.update s.heap f (s.heap f) := by rw [hheap, Function.update_eq_self]
  .write ha hworkers hsame h

/-- A call that asserts. -/
theorem store {f : Nat} {pc : Pc} {r : Except FiberAssertion Fiber} (ha : a.thread = some w)
    (h : ∀ fiber, r = .ok fiber → Pc.Goes s.count f (s.workers w).pc (s.heap f).state pc fiber.state) :
    s.Turn a (s.store w f pc r) := by
  cases r with
  | ok fiber => exact .write (w := w) (f := f) ha rfl rfl (h fiber rfl)
  | error a => exact .refl_of rfl fun _ => rfl

/-- A fiber is written, and its state stays. -/
theorem setFiber {f : Nat} {fiber : Fiber} (h : fiber.state = (s.heap f).state) : s.Turn a (s.setFiber f fiber) := by
  refine .refl_of rfl fun g => ?_
  rw [setFiber_heap]
  by_cases hg : g = f
  · rw [hg, Function.update_self, h]
  · rw [Function.update_of_ne hg]

end Turn

/-- Neither the scan, nor the push that puts a fiber back, nor a step behind a scan that found nothing, nor one of an
idle fiber, nor `schedule`. -/
def Label.Inner (s : Scheduler n) : Label n → Prop
  | .advance w => (s.workers w).pc ≠ .scan ∧ (s.workers w).pc ≠ .nothing ∧ ∀ b f, (s.workers w).pc ≠ .on .schedule b f
  | .idleOutcome _ _ | .scheduleFiber _ _ | .scheduleCb _ _ => False
  | _ => True

theorem Label.Inner.elsewhere {a : Label n} (h : a.Inner s) : a.Elsewhere s := by
  cases a with
  | advance w => exact h.2.1
  | idleOutcome w returns => exact h.elim
  | scheduleFiber f thread | scheduleCb c thread => exact h.elim
  | outcome | newFiber | keep | release | destroy => trivial

theorem Fiber.reset_state {fiber fiber' : Fiber} {cb : Option Nat} (h : fiber.reset cb = .ok fiber') :
    fiber.state ≠ .exec ∧ fiber'.state = .init := by
  unfold Fiber.reset at h
  split at h
  · rename_i hstate
    obtain rfl := Except.ok.inj h
    refine ⟨fun hexec => ?_, rfl⟩
    rw [hexec] at hstate
    rcases hstate with hstate | hstate <;> cases hstate
  · cases h

theorem branch_turn {task : Task Nat Nat} (hpc : (s.workers w).pc = .taken task) :
    (s.branch w task).fibers = s.fibers ∧ s.Turn (.advance w) (s.branch w task) := by
  cases task with
  | fiber f =>
    simp only [branch]
    split
    · exact ⟨rfl, .move (w := w) rfl rfl rfl (by rw [hpc]; exact .run f _)⟩
    · exact ⟨rfl, .move (w := w) rfl rfl rfl (by rw [hpc]; exact .skip f _)⟩
  | cb c =>
    simp only [branch]
    split
    · rename_i f hcb
      refine ⟨store_fibers, .store rfl fun fiber hr => ?_⟩
      obtain ⟨hexec, hinit⟩ := Fiber.reset_state hr
      rw [hpc, hinit]
      exact .reset f c hexec
    · exact ⟨rfl, .write (w := w) (f := s.count) rfl rfl rfl (by rw [hpc]; exact .make c _)⟩

theorem proceed_turn {branch : Branch} {phase : Phase} {f : Nat} (hpc : (s.workers w).pc = .on phase branch f)
    (hphase : phase ≠ .schedule) (ht : s.proceed w branch f phase = some t) :
    t.fibers = s.fibers ∧ s.Turn (.advance w) t := by
  cases phase with
  | running => cases ht
  | schedule => exact absurd rfl hphase
  | swapIn =>
    obtain rfl := Option.some.inj ht
    refine ⟨store_fibers, .store rfl fun fiber hr => ?_⟩
    rw [hpc, Fiber.exec_of_swapIn hr]
    exact .swapIn branch f _
  | swapOut =>
    obtain rfl := Option.some.inj ht
    refine ⟨store_fibers, .store rfl fun fiber hr => ?_⟩
    obtain rfl := Except.ok.inj hr
    rw [hpc]
    exact .swapOut branch f _
  | back =>
    obtain rfl := Option.some.inj ht
    exact ⟨rfl, .move (w := w) rfl rfl rfl (by rw [hpc]; exact .back branch f _)⟩
  | settle =>
    obtain rfl := Option.some.inj ht
    exact ⟨rfl, .move (w := w) rfl rfl rfl (by rw [hpc]; exact .settle branch f _)⟩
  | hold =>
    obtain rfl := Option.some.inj ht
    exact ⟨rfl, .write (w := w) (f := f) rfl rfl rfl (by rw [hpc]; exact .hold branch f _)⟩
  | resetNull =>
    obtain rfl := Option.some.inj ht
    refine ⟨store_fibers, .store rfl fun fiber hr => ?_⟩
    rw [hpc, (Fiber.reset_state hr).2]
    exact .resetNull branch f _

/-- **Turns.** -/
theorem step_turn {a : Label n} (hst : s.step a = some t) (ha : a.Inner s) : t.fibers = s.fibers ∧ s.Turn a t := by
  cases step_cases hst with
  | scan hpc => exact absurd hpc ha.1
  | branch hpc => exact branch_turn hpc
  | @proceed w phase branch f t hpc ht =>
    exact proceed_turn hpc (fun hphase => ha.2.2 branch f (hphase ▸ hpc)) ht
  | idle hpc => exact absurd hpc ha.2.1
  | @outcome w branch f o hpc ho =>
    exact ⟨store_fibers, .store rfl fun fiber _ => by rw [hpc]; exact .leave branch f _ _⟩
  | idleOutcome | scheduleFiber | scheduleCb => exact ha.elim
  | newFiber =>
    refine ⟨rfl, .still rfl (fun f hf => ?_) (.inr ?_)⟩
    · exact congrArg Fiber.state (Function.update_of_ne hf ..)
    · exact congrArg Fiber.state (Function.update_self (f := s.heap) ..)
  | keep | release => exact ⟨rfl, .setFiber rfl⟩
  | destroy hf hlive hown hd =>
    refine ⟨rfl, .setFiber ?_⟩
    unfold Fiber.destroy at hd
    split at hd
    · obtain rfl := Except.ok.inj hd
      rfl
    · cases hd
  | destructor => exact ⟨rfl, .refl_of rfl fun _ => rfl⟩

/-- Behind a scan that found nothing a thread leaves the loop, or runs its idle fiber. -/
theorem idle_turn (s : Scheduler n) (w : Fin n) :
    (s.idle w).fibers = s.fibers ∧ (s.idle w).heap = s.heap ∧ (∀ v, v ≠ w → (s.idle w).workers v = s.workers v) ∧
      (((s.idle w).workers w).pc = .exited ∨ ((s.idle w).workers w).pc = .idling ∨
        ((s.idle w).workers w).pc = (s.workers w).pc) := by
  unfold idle
  split
  · refine ⟨rfl, rfl, fun v hv => Function.update_of_ne hv .., .inl ?_⟩
    exact congrArg Worker.pc (Function.update_self w _ s.workers)
  · split
    · refine ⟨rfl, rfl, fun v hv => Function.update_of_ne hv .., .inr (.inl ?_)⟩
      exact congrArg Worker.pc (Function.update_self w _ s.workers)
    · exact ⟨rfl, rfl, fun _ _ => rfl, .inr (.inr rfl)⟩

/-! ## `m_activeThreadCount` -/

/-- The number of threads that hold an entry. -/
def ActiveCounted (s : Scheduler n) : Prop :=
  s.activeThreadCount = Count.count (fun wk : Worker => wk.pc.holds) s.workers

theorem active_step (h : s.ActiveCounted) {a : Label n} (hst : s.step a = some t) : t.ActiveCounted := by
  have hsteady : ∀ {start : Option (Fin n × Nat)}, s.Steady start t → t.ActiveCounted := fun ht =>
    ht.active.trans (h.trans (Count.count_congr fun v => (ht.holds v).symm))
  have heffect := step_effect hst
  cases htr : s.transfer a with
  | put ft =>
    rw [htr] at heffect
    exact hsteady heffect.2
  | take w i =>
    rw [htr] at heffect
    obtain ⟨ft, -, -, -, hactive, hholds, hworkers⟩ := heffect
    rw [ActiveCounted, hactive, hworkers, h, Count.count_enter (p := fun wk : Worker => wk.pc.holds) hholds rfl]
  | finish w =>
    rw [htr] at heffect
    obtain ⟨-, hactive, hholds, pc, hpc, hworkers⟩ := heffect
    have hleave := Count.count_leave (p := fun wk : Worker => wk.pc.holds) (w := { s.workers w with pc }) hholds hpc
    rw [ActiveCounted, hactive, hworkers, h, hleave, Nat.add_sub_cancel]
  | start w f =>
    rw [htr] at heffect
    exact hsteady heffect.2.2
  | none =>
    rw [htr] at heffect
    exact hsteady heffect.2

end Scheduler

end Megalo
