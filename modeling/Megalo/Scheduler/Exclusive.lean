import Megalo.Scheduler.Engaged

/-!
# One thread runs a fiber at a time

- `Scheduler.OneThread`: a thread at `swapIn` finds the fiber's context saved and nobody executing the fiber, and no two
  threads execute one fiber;
- the scan skips a fiber only while its state is `EXEC`. A thread is engaged with its fiber for longer: from the scan to
  the write of `EXEC`, and from the write of the new state in the fiber to the end of the work after `swapIn`. A task
  for the fiber that is taken meanwhile breaks the property (`one_thread_fails`);
- in runs without such a step (`TakesFree`) the property holds (`one_thread`), by the lease of fibers to threads
  (`exclusive_step`).
-/

namespace Megalo

/-- Nobody executes the fiber, and its context is saved. -/
def Fiber.Stopped (fiber : Fiber) : Prop := fiber.state ≠ .exec ∧ fiber.saved = true

/-- The fiber of a thread at `pc`, when no other thread is engaged with it. -/
def Pc.Fits : Pc → Fiber → Prop
  | .on .running _ _, fiber => fiber.state = .exec
  | .on .swapOut _ _, fiber => fiber.state ≠ .exec
  | _, fiber => fiber.Stopped

theorem Pc.Fits.congr {pc : Pc} {fiber fiber' : Fiber} (h : pc.Fits fiber) (hstate : fiber'.state = fiber.state)
    (hsaved : fiber'.saved = fiber.saved) : pc.Fits fiber' := by
  cases pc with
  | on phase branch f => cases phase <;> simpa [Pc.Fits, Fiber.Stopped, hstate, hsaved] using h
  | scan | taken | nothing | idling | exited => simpa [Pc.Fits, Fiber.Stopped, hstate, hsaved] using h

theorem Fiber.stopped_new (cb : Option Nat) (outside : Bool) : (Fiber.new cb outside).Stopped := ⟨nofun, rfl⟩

theorem Fiber.stopped_of_reset {fiber fiber' : Fiber} {cb : Option Nat} (h : fiber.reset cb = .ok fiber') :
    fiber'.Stopped := by
  unfold Fiber.reset at h
  split at h
  · cases h
    exact ⟨nofun, rfl⟩
  · cases h

theorem Fiber.exec_of_swapIn {fiber fiber' : Fiber} (h : fiber.swapIn = .ok fiber') : fiber'.state = .exec := by
  unfold Fiber.swapIn at h
  split at h
  · cases h
    rfl
  · cases h

theorem Fiber.left_of_leave {fiber fiber' : Fiber} {o : Outcome} (h : fiber.leave o = .ok fiber') :
    fiber'.state ≠ .exec := by
  cases o with
  | returns | throwsException | throwsOther =>
    cases h
    nofun
  | yieldToReady | yieldToHold =>
    simp only [Fiber.leave] at h
    split at h
    · cases h
      nofun
    · cases h

namespace Scheduler

variable {n : Nat} {s t : Scheduler n} {w : Fin n} {f : Nat}

/-- The thread executes the fiber's code, or is in its `swapOut`. -/
def Executes (s : Scheduler n) (w : Fin n) (f : Nat) : Prop :=
  ∃ branch, (s.workers w).pc = .on .running branch f ∨ (s.workers w).pc = .on .swapOut branch f

/-- A thread at `swapIn` finds the context saved and nobody executing the fiber; no two threads execute one fiber. -/
structure OneThread (s : Scheduler n) : Prop where
  swapIn : ∀ w branch f, (s.workers w).pc = .on .swapIn branch f →
    (∀ v, ¬ s.Executes v f) ∧ (s.heap f).saved = true
  executes : ∀ v w f, s.Executes v f → s.Executes w f → v = w

/-- No other thread is engaged with the fiber the task runs. -/
def Undisputed (s : Scheduler n) (w : Fin n) (task : Task Nat Nat) : Prop :=
  ∀ f ∈ (s.workers w).target task, ∀ v, v ≠ w → (s.workers v).engaged ≠ some f

instance (s : Scheduler n) (w : Fin n) (task : Task Nat Nat) : Decidable (s.Undisputed w task) :=
  inferInstanceAs (Decidable (∀ f ∈ (s.workers w).target task, ∀ v, v ≠ w → (s.workers v).engaged ≠ some f))

/-- The thread that takes a task in the step, and the task. -/
def taking (s : Scheduler n) : Label n → Option (Fin n × Task Nat Nat)
  | .advance w =>
    match (s.workers w).pc with
    | .scan => (s.next w).map fun ft => (w, ft.task)
    | _ => none
  | _ => none

/-- No task is taken whose fiber another thread is engaged with. -/
def TakesFree (s : Scheduler n) (a : Label n) : Prop := ∀ p ∈ s.taking a, s.Undisputed p.1 p.2

instance (s : Scheduler n) (a : Label n) : Decidable (s.TakesFree a) :=
  inferInstanceAs (Decidable (∀ p ∈ s.taking a, s.Undisputed p.1 p.2))

/-! ## The lease of fibers to threads -/

/-- Every fiber has one thread at most, and fits its place. -/
abbrev Exclusive (s : Scheduler n) : Prop := s.Leased Pc.Fits Fiber.Stopped

/-- What the lease says of a fiber does not depend on its other fields. -/
theorem Exclusive.flags (h : s.Exclusive) {fiber : Fiber} (hstate : fiber.state = (s.heap f).state)
    (hsaved : fiber.saved = (s.heap f).saved) : (s.setFiber f fiber).Exclusive := by
  refine h.setFiber (fun v _ hfit => hfit.congr hstate hsaved) fun hstop => ?_
  exact ⟨hstate ▸ hstop.1, hsaved.trans hstop.2⟩

theorem engaged_on {phase : Phase} {branch : Branch} (hpc : (s.workers w).pc = .on phase branch f) :
    (s.workers w).engaged = some f := by
  simp [Worker.engaged, hpc]

theorem scan_exclusive (h : s.Exclusive) (hpc : (s.workers w).pc = .scan) (hok : s.TakesFree (.advance w)) :
    (s.scan w).Exclusive := by
  have hnone : (s.workers w).engaged = none := by simp [Worker.engaged, hpc]
  unfold scan
  cases hnext : s.next w with
  | some ft =>
    have hfree : s.Undisputed w ft.task := hok (w, ft.task) (by simp [taking, hpc, hnext])
    exact h.take hnone fun f hf => ⟨hfree f hf, fun hs => hs⟩
  | none => exact h.away hnone rfl

theorem branch_exclusive (h : s.Exclusive) (hk : s.Formed) {task : Task Nat Nat}
    (hpc : (s.workers w).pc = .taken task) : (s.branch w task).Exclusive := by
  have htgt : (s.workers w).engaged = (s.workers w).target task := by simp [Worker.engaged, hpc]
  cases task with
  | fiber f =>
    have hstop : (s.heap f).Stopped := by simpa [hpc, Pc.Fits] using Lease.Leased.held h htgt
    simp only [branch]
    split
    · exact h.goto htgt rfl hstop
    · exact h.drop htgt hstop
  | cb c =>
    cases hcb : (s.workers w).cbFiber with
    | some f =>
      simp only [branch, hcb]
      exact h.store (htgt.trans hcb) rfl fun fiber hr => Fiber.stopped_of_reset hr
    | none =>
      simp only [branch, hcb]
      refine h.make (htgt.trans hcb) (fun v hv => ?_) rfl (Fiber.stopped_new _ _)
      exact Nat.lt_irrefl _ (hk.workers v _ (.inl hv))

theorem proceed_exclusive (h : s.Exclusive) {branch : Branch} {phase : Phase}
    (hpc : (s.workers w).pc = .on phase branch f) (ht : s.proceed w branch f phase = some t) : t.Exclusive := by
  have hf := engaged_on hpc
  have hfit : (Pc.on phase branch f).Fits (s.heap f) := hpc ▸ Lease.Leased.held h hf
  cases phase with
  | swapIn =>
    obtain rfl := Option.some.inj ht
    exact h.store hf rfl fun fiber hr => Fiber.exec_of_swapIn hr
  | running => cases ht
  | swapOut =>
    obtain rfl := Option.some.inj ht
    exact h.write hf rfl ⟨hfit, rfl⟩
  | back =>
    obtain rfl := Option.some.inj ht
    exact h.goto hf rfl hfit
  | settle =>
    obtain rfl := Option.some.inj ht
    cases (s.heap f).state with
    | ready | init | hold | exec => exact h.goto hf rfl hfit
    | term | except =>
      cases branch with
      | fiber => exact h.drop hf hfit
      | cb => exact h.goto hf rfl hfit
  | schedule =>
    obtain rfl := Option.some.inj ht
    exact h.drop hf hfit
  | hold =>
    obtain rfl := Option.some.inj ht
    exact h.leave hf rfl ⟨nofun, hfit.2⟩
  | resetNull =>
    obtain rfl := Option.some.inj ht
    cases hr : (s.heap f).reset none with
    | ok fiber => exact h.leave hf rfl (Fiber.stopped_of_reset hr)
    | error a => exact h

/-- Every step that takes no disputed task keeps the lease. -/
theorem exclusive_step (h : s.Exclusive) (hk : s.Formed) {a : Label n} (hok : s.TakesFree a)
    (hst : s.step a = some t) : t.Exclusive := by
  cases step_cases hst with
  | scan hpc => exact scan_exclusive h hpc hok
  | branch hpc => exact branch_exclusive h hk hpc
  | proceed hpc ht => exact proceed_exclusive h hpc ht
  | @idle w hpc =>
    have hnone : (s.workers w).engaged = none := by simp [Worker.engaged, hpc]
    unfold idle
    split
    · exact h.away hnone rfl
    · split
      · exact h.away hnone rfl
      · exact h
  | outcome hpc ho => exact h.store (engaged_on hpc) rfl fun fiber hr => Fiber.left_of_leave hr
  | idleOutcome hpc => exact h.away (by simp [Worker.engaged, hpc]) rfl
  | newFiber =>
    refine h.setFiber (fun v hv => ?_) fun _ => Fiber.stopped_new _ _
    exact absurd (hk.workers v _ (.inl hv)) (Nat.lt_irrefl _)
  | keep hpc => exact h.flags rfl rfl
  | release => exact h.flags rfl rfl
  | scheduleFiber | scheduleCb | destructor => exact h
  | destroy hf hlive hown hd =>
    unfold Fiber.destroy at hd
    split at hd
    · cases hd
      exact h.flags rfl rfl
    · cases hd

theorem exclusive_reachable (h : (schedSys n).ReachableWhen TakesFree s) : s.Exclusive := by
  refine h.invariant_of_reachable ?_ ?_
  · intro s hs
    subst hs
    constructor
    · intro v w f hv
      cases hv
    · intro v f hv
      cases hv
    · intro f _
      exact ⟨nofun, rfl⟩
  · intro s a t hs hI hok hst
    simp only [schedSys] at hst
    split at hst
    · exact exclusive_step hI (formed_reachable hs) hok hst
    · cases hst

/-! ## The property -/

theorem Executes.engaged (h : s.Executes w f) : (s.workers w).engaged = some f := by
  obtain ⟨branch, h | h⟩ := h
  · exact engaged_on h
  · exact engaged_on h

/-- In runs in which no task is taken whose fiber another thread is engaged with, one thread runs a fiber at a time, and
from its saved context. -/
theorem one_thread {n : Nat} {s : Scheduler n} (h : (schedSys n).ReachableWhen TakesFree s) : s.OneThread := by
  have hlease := exclusive_reachable h
  constructor
  · intro w branch f hpc
    have hf := engaged_on hpc
    constructor
    · intro v hv
      obtain rfl := Lease.Leased.exclusive hlease hv.engaged hf
      obtain ⟨b, hb | hb⟩ := hv
      · rw [hpc] at hb
        cases hb
      · rw [hpc] at hb
        cases hb
    · have hfit : (s.workers w).pc.Fits (s.heap f) := Lease.Leased.held hlease hf
      rw [hpc] at hfit
      exact hfit.2
  · intro v w f hv hw
    exact Lease.Leased.exclusive hlease hv.engaged hw.engaged

/-- A fiber is scheduled again when its first run is over, and a second thread comes to its `swapIn`. -/
theorem one_thread_again : ∃ s : Scheduler 2, s.OneThread ∧ (s.workers 1).pc = .on .swapIn .fiber 0 := by
  obtain ⟨s, hs, hp⟩ := Transition.Sys.reachableWhen_of_exec (S := schedSys 2) TakesFree (.new 2) rfl
    [.newFiber 0, .scheduleFiber 0 none, .advance 0, .advance 0, .advance 0, .outcome 0 .yieldToHold, .advance 0,
      .advance 0, .advance 0, .advance 0, .scheduleFiber 0 none, .advance 1, .advance 1]
    (p := fun s => decide ((s.workers 1).pc = .on .swapIn .fiber 0)) rfl
  exact ⟨s, one_thread hs, of_decide_eq_true hp⟩

/-- A fiber is scheduled after it wrote `HOLD` and before its context is saved: a second thread runs it while the first
is still in its `swapOut`. -/
theorem one_thread_fails : ¬ ∀ n, ∀ s : Scheduler n, (schedSys n).Reachable s → s.OneThread := by
  intro h
  obtain ⟨s, hs, hp⟩ := Transition.Sys.reachable_of_exec (S := schedSys 2) (.new 2) rfl
    [.newFiber 0, .scheduleFiber 0 none, .advance 0, .advance 0, .advance 0, .outcome 0 .yieldToHold,
      .scheduleFiber 0 none, .advance 1, .advance 1, .advance 1]
    (p := fun s => decide ((s.workers 0).pc = .on .swapOut .fiber 0 ∧ (s.workers 1).pc = .on .running .fiber 0))
    rfl
  obtain ⟨h0, h1⟩ := of_decide_eq_true hp
  have : (0 : Fin 2) = 1 := (h 2 s hs).executes 0 1 0 ⟨.fiber, .inr h0⟩ ⟨.fiber, .inl h1⟩
  exact absurd this (by decide)

end Scheduler

end Megalo
