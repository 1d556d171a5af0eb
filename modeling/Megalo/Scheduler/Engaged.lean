import Megalo.Lib.Lease
import Megalo.Scheduler.Basic

/-!
# Which thread is engaged with which fiber

- `Formed`: the fibers in `m_fibers` and in the threads were made, so a new fiber is nobody's, and `idle_fiber` is
  `EXEC` only while the thread runs it. This is true in every state (`formed_reachable`);
- `Leased P Q`: no two threads are engaged with one fiber, `P` relates where a thread is to its fiber, and `Q` is true
  of the fibers no thread is engaged with. There is a rule for each kind of step: a thread takes a task (`Leased.take`),
  makes a fiber (`Leased.make`), goes on with its fiber (`Leased.goto`, `Leased.store`), gives it up (`Leased.leave`),
  or is engaged with none (`Leased.away`), and other code writes a fiber (`Leased.setFiber`).
-/

namespace Megalo

/-- After `swapIn` a thread is done with its fiber, or goes on with it. -/
theorem Pc.afterSwapIn_cases (branch : Branch) (f : Nat) (state : FiberState) :
    Pc.afterSwapIn branch f state = .scan ∨ ∃ phase b, Pc.afterSwapIn branch f state = .on phase b f := by
  cases state with
  | ready | init | hold | exec => exact .inr ⟨_, _, rfl⟩
  | term | except =>
    cases branch with
    | fiber => exact .inl rfl
    | cb => exact .inr ⟨_, _, rfl⟩

namespace Scheduler

variable {n : Nat} {s t : Scheduler n} {w : Fin n} {f : Nat}

@[simp] theorem setWorker_workers (s : Scheduler n) (w : Fin n) (wk : Worker) :
    (s.setWorker w wk).workers = Function.update s.workers w wk := rfl

@[simp] theorem goto_workers (s : Scheduler n) (w : Fin n) (pc : Pc) :
    (s.goto w pc).workers = Function.update s.workers w { s.workers w with pc } := rfl

@[simp] theorem setFiber_heap (s : Scheduler n) (f : Nat) (fiber : Fiber) :
    (s.setFiber f fiber).heap = Function.update s.heap f fiber := rfl

/-! ## What is true of every state -/

/-- The fibers in `m_fibers` and in the threads were made, and `idle_fiber` is `EXEC` only while its thread runs it. -/
structure Formed (s : Scheduler n) : Prop where
  queued : ∀ ft ∈ s.fibers, ∀ f, ft.task = .fiber f → f < s.count
  workers : ∀ w f, (s.workers w).Refers f → f < s.count
  idle : ∀ w, (s.workers w).idle = .exec → (s.workers w).pc = .idling

namespace Formed

theorem setWorker (h : s.Formed) {wk : Worker} (hw : ∀ f, wk.Refers f → f < s.count)
    (hi : wk.idle = .exec → wk.pc = .idling) : (s.setWorker w wk).Formed := by
  refine ⟨h.queued, fun v f hv => ?_, fun v hv => ?_⟩
  · rw [setWorker_workers] at hv
    by_cases hvw : v = w
    · subst hvw
      rw [Function.update_self] at hv
      exact hw f hv
    · rw [Function.update_of_ne hvw] at hv
      exact h.workers v f hv
  · rw [setWorker_workers] at hv ⊢
    by_cases hvw : v = w
    · subst hvw
      rw [Function.update_self] at hv ⊢
      exact hi hv
    · rw [Function.update_of_ne hvw] at hv ⊢
      exact h.idle v hv

/-- A thread outside its idle fiber goes on, with `cb_fiber` as it is. -/
theorem goto (h : s.Formed) {pc : Pc} (hpc : (s.workers w).pc ≠ .idling)
    (hw : ∀ f, { s.workers w with pc }.engaged = some f → f < s.count) : (s.goto w pc).Formed := by
  refine h.setWorker (fun f hf => ?_) fun hi => absurd (h.idle w hi) hpc
  rcases hf with hf | hf
  · exact hw f hf
  · exact h.workers w f (.inr hf)

theorem setFiber (h : s.Formed) (fiber : Fiber) : (s.setFiber f fiber).Formed := ⟨h.queued, h.workers, h.idle⟩

theorem store (h : s.Formed) {pc : Pc} (hpc : (s.workers w).pc ≠ .idling)
    (hw : ∀ f, { s.workers w with pc }.engaged = some f → f < s.count) (r : Except FiberAssertion Fiber) :
    (s.store w f pc r).Formed := by
  cases r with
  | ok fiber => exact (h.setFiber fiber).goto hpc hw
  | error a => exact ⟨h.queued, h.workers, h.idle⟩

theorem schedule (h : s.Formed) {task : Task Nat Nat} (ht : ∀ f, task = .fiber f → f < s.count)
    (thread : Option Nat) : (s.schedule task thread).Formed := by
  refine ⟨fun ft hft => ?_, h.workers, h.idle⟩
  rcases List.mem_append.mp hft with hft | hft
  · exact h.queued ft hft
  · obtain rfl := List.mem_singleton.mp hft
    exact ht

/-- One more fiber is made. -/
theorem make (h : s.Formed) : ({ s with count := s.count + 1 } : Scheduler n).Formed :=
  ⟨fun ft hft f hf => Nat.lt_succ_of_lt (h.queued ft hft f hf), fun v f hv => Nat.lt_succ_of_lt (h.workers v f hv),
    h.idle⟩

end Formed

theorem scan_formed (h : s.Formed) (hpc : (s.workers w).pc = .scan) : (s.scan w).Formed := by
  have hni : (s.workers w).pc ≠ .idling := by simp [hpc]
  unfold scan
  split
  · rename_i ft hft
    have hmem : ft ∈ s.fibers := List.mem_of_find?_eq_some hft
    have hgo : (s.goto w (.taken ft.task)).Formed := by
      refine h.goto hni fun f hf => ?_
      cases htask : ft.task with
      | fiber g =>
        rw [htask] at hf
        obtain rfl : g = f := Option.some.inj hf
        exact h.queued ft hmem g htask
      | cb c =>
        rw [htask] at hf
        exact h.workers w f (.inr hf)
    exact ⟨fun ft' hft' => hgo.queued ft' (List.mem_of_mem_eraseP hft'), hgo.workers, hgo.idle⟩
  · exact h.goto hni fun f hf => nomatch hf

theorem branch_formed (h : s.Formed) {task : Task Nat Nat} (hpc : (s.workers w).pc = .taken task) :
    (s.branch w task).Formed := by
  have hni : (s.workers w).pc ≠ .idling := by simp [hpc]
  cases task with
  | fiber f =>
    have hf : f < s.count := h.workers w f (.inl (by simp [Worker.engaged, hpc, Worker.target]))
    simp only [branch]
    split
    · refine h.goto hni fun g hg => ?_
      obtain rfl : f = g := Option.some.inj hg
      exact hf
    · have hgo : (s.goto w .scan).Formed := h.goto hni fun g hg => nomatch hg
      exact ⟨hgo.queued, hgo.workers, hgo.idle⟩
  | cb c =>
    cases hcb : (s.workers w).cbFiber with
    | some f =>
      simp only [branch, hcb]
      refine h.store hni (fun g hg => ?_) _
      obtain rfl : f = g := Option.some.inj hg
      exact h.workers w f (.inr hcb)
    | none =>
      simp only [branch, hcb]
      have hmade := h.make.setFiber (f := s.count) (.new (some c) false)
      have hset : (Scheduler.setWorker _ w
          { s.workers w with pc := .on .swapIn .cb s.count, cbFiber := some s.count }).Formed :=
        hmade.setWorker
          (fun g hg => by
            rcases hg with hg | hg
            · obtain rfl : s.count = g := Option.some.inj hg
              exact Nat.lt_succ_self _
            · obtain rfl : s.count = g := Option.some.inj hg
              exact Nat.lt_succ_self _)
          fun hi => absurd (h.idle w hi) hni
      exact ⟨hset.queued, hset.workers, hset.idle⟩

theorem proceed_formed (h : s.Formed) {branch : Branch} {phase : Phase}
    (hpc : (s.workers w).pc = .on phase branch f) (ht : s.proceed w branch f phase = some t) : t.Formed := by
  have hni : (s.workers w).pc ≠ .idling := by simp [hpc]
  have hf : f < s.count := h.workers w f (.inl (by simp [Worker.engaged, hpc]))
  have hon : ∀ p : Phase, ∀ b : Branch, ∀ g, { s.workers w with pc := .on p b f }.engaged = some g → g < s.count := by
    intro p b g hg
    obtain rfl : f = g := Option.some.inj hg
    exact hf
  have hscan : (s.goto w .scan).Formed := h.goto hni fun g hg => nomatch hg
  cases phase with
  | swapIn =>
    obtain rfl := Option.some.inj ht
    exact h.store hni (hon _ _) _
  | running => cases ht
  | swapOut =>
    obtain rfl := Option.some.inj ht
    exact h.store hni (hon _ _) _
  | back =>
    obtain rfl := Option.some.inj ht
    have hgo := h.goto hni (hon .settle branch)
    exact ⟨hgo.queued, hgo.workers, hgo.idle⟩
  | settle =>
    obtain rfl := Option.some.inj ht
    rcases Pc.afterSwapIn_cases branch f (s.heap f).state with hpc' | ⟨p, b, hpc'⟩
    · rw [hpc']
      exact hscan
    · rw [hpc']
      exact h.goto hni (hon p b)
  | schedule =>
    obtain rfl := Option.some.inj ht
    refine (h.schedule (fun g hg => ?_) none).goto hni fun g hg => nomatch hg
    obtain rfl : f = g := Task.fiber.inj hg
    exact hf
  | hold =>
    obtain rfl := Option.some.inj ht
    refine (h.setFiber _).setWorker (fun g hg => ?_) fun hi => absurd (h.idle w hi) hni
    rcases hg with hg | hg
    · cases hg
    · cases branch with
      | fiber => exact h.workers w g (.inr hg)
      | cb => cases hg
  | resetNull =>
    obtain rfl := Option.some.inj ht
    refine h.store hni (fun g hg => ?_) _
    cases hg

theorem idle_formed (h : s.Formed) : (s.idle w).Formed := by
  unfold idle
  split
  · rename_i hterm
    refine h.setWorker (fun g hg => ?_) fun hi => ?_
    · rcases hg with hg | hg <;> cases hg
    · exact absurd (hterm.symm.trans hi) nofun
  · split
    · refine h.setWorker (fun g hg => ?_) fun _ => rfl
      rcases hg with hg | hg
      · cases hg
      · exact h.workers w g (.inr hg)
    · exact ⟨h.queued, h.workers, h.idle⟩

theorem formed_step (h : s.Formed) {a : Label n} (hst : s.step a = some t) : t.Formed := by
  cases step_cases hst with
  | scan hpc => exact scan_formed h hpc
  | branch hpc => exact branch_formed h hpc
  | proceed hpc ht => exact proceed_formed h hpc ht
  | idle hpc => exact idle_formed h
  | @outcome w branch f o hpc ho =>
    refine h.store (by simp [hpc]) (fun g hg => ?_) _
    obtain rfl : f = g := Option.some.inj hg
    exact h.workers w f (.inl (by simp [Worker.engaged, hpc]))
  | @idleOutcome w returns hpc =>
    refine h.setWorker (fun g hg => ?_) fun hi => ?_
    · rcases hg with hg | hg
      · cases hg
      · exact h.workers w g (.inr hg)
    · cases returns <;> cases hi
  | newFiber => exact h.make.setFiber _
  | keep hpc => exact h.setFiber _
  | release => exact h.setFiber _
  | @scheduleFiber f thread hf hout =>
    refine h.schedule (fun g hg => ?_) thread
    obtain rfl : f = g := Task.fiber.inj hg
    exact hf
  | @scheduleCb c thread =>
    refine h.schedule (fun g hg => ?_) thread
    cases hg
  | destroy => exact h.setFiber _
  | destructor => exact ⟨h.queued, h.workers, h.idle⟩

theorem formed_reachable {s : Scheduler n} (h : (schedSys n).Reachable s) : s.Formed := by
  refine h.invariant ?_ ?_
  · intro s hs
    subst hs
    refine ⟨?_, ?_, ?_⟩
    · intro ft hft
      cases hft
    · intro w f hf
      rcases hf with hf | hf <;> cases hf
    · intro w hw
      cases hw
  · intro s a t hI _ hst
    simp only [schedSys] at hst
    split at hst
    · exact formed_step hI hst
    · cases hst

/-! ## One thread for each fiber -/

/-- No two threads are engaged with one fiber; `P` of a thread's place and its fiber, `Q` of the fibers no thread is
engaged with. -/
def Leased (P : Pc → Fiber → Prop) (Q : Fiber → Prop) (s : Scheduler n) : Prop :=
  Lease.Leased Worker.engaged (fun wk => P wk.pc) Q s.workers s.heap

namespace Leased

variable {P : Pc → Fiber → Prop} {Q : Fiber → Prop}

/-- A thread engaged with `f` or none goes on to be engaged with `f` or none. -/
theorem turn (h : s.Leased P Q) {wk : Worker} {fiber : Fiber}
    (hs : ∀ g, (s.workers w).engaged = some g → g = f) (hn : ∀ v, v ≠ w → (s.workers v).engaged ≠ some f)
    (hw : ∀ g, wk.engaged = some g → g = f) (hP : wk.engaged = some f → P wk.pc fiber)
    (hQ : wk.engaged = none → Q fiber) : ((s.setFiber f fiber).setWorker w wk).Leased P Q :=
  Lease.Leased.update h hs hn hw hP hQ

/-- A thread writes its fiber and goes on with it. -/
theorem write (h : s.Leased P Q) (hf : (s.workers w).engaged = some f) {wk : Worker} {fiber : Fiber}
    (hw : wk.engaged = some f) (hP : P wk.pc fiber) : ((s.setFiber f fiber).setWorker w wk).Leased P Q := by
  refine h.turn ?_ (Lease.Leased.nobody h hf) ?_ (fun _ => hP) ?_
  · intro g hg
    exact Option.some.inj (hg.symm.trans hf)
  · intro g hg
    exact Option.some.inj (hg.symm.trans hw)
  · intro hg
    rw [hw] at hg
    cases hg

/-- A thread writes its fiber and gives it up. -/
theorem leave (h : s.Leased P Q) (hf : (s.workers w).engaged = some f) {wk : Worker} {fiber : Fiber}
    (hw : wk.engaged = none) (hQ : Q fiber) : ((s.setFiber f fiber).setWorker w wk).Leased P Q := by
  refine h.turn ?_ (Lease.Leased.nobody h hf) ?_ ?_ (fun _ => hQ)
  · intro g hg
    exact Option.some.inj (hg.symm.trans hf)
  · intro g hg
    rw [hw] at hg
    cases hg
  · intro hg
    rw [hw] at hg
    cases hg

theorem setFiber_self (s : Scheduler n) (f : Nat) : s.setFiber f (s.heap f) = s := by
  simp [Scheduler.setFiber]

/-- A thread goes on with its fiber as it is. -/
theorem goto (h : s.Leased P Q) (hf : (s.workers w).engaged = some f) {pc : Pc}
    (hw : { s.workers w with pc }.engaged = some f) (hP : P pc (s.heap f)) : (s.goto w pc).Leased P Q := by
  have : ((s.setFiber f (s.heap f)).goto w pc).Leased P Q := h.write hf hw hP
  rwa [setFiber_self] at this

/-- A thread gives its fiber up as it is. -/
theorem drop (h : s.Leased P Q) (hf : (s.workers w).engaged = some f) (hQ : Q (s.heap f)) :
    (s.goto w .scan).Leased P Q := by
  have : ((s.setFiber f (s.heap f)).goto w .scan).Leased P Q := h.leave hf rfl hQ
  rwa [setFiber_self] at this

/-- A thread stores the result of a call on its fiber and goes on with the fiber. -/
theorem store (h : s.Leased P Q) (hf : (s.workers w).engaged = some f) {pc : Pc}
    (hw : { s.workers w with pc }.engaged = some f) {r : Except FiberAssertion Fiber}
    (hP : ∀ fiber, r = .ok fiber → P pc fiber) : (s.store w f pc r).Leased P Q := by
  cases r with
  | ok fiber => exact h.write hf hw (hP fiber rfl)
  | error a => exact h

/-- A thread engaged with none takes a task. -/
theorem take (h : s.Leased P Q) (hs : (s.workers w).engaged = none) {task : Task Nat Nat}
    (hn : ∀ f, (s.workers w).target task = some f →
      (∀ v, v ≠ w → (s.workers v).engaged ≠ some f) ∧ (Q (s.heap f) → P (.taken task) (s.heap f))) :
    (s.goto w (.taken task)).Leased P Q := by
  cases htgt : (s.workers w).target task with
  | none =>
    refine Lease.Leased.turn h ?_ fun k hk => ?_
    · rw [hs]
      exact htgt
    · have : (s.workers w).target task = some k := hk
      rw [htgt] at this
      cases this
  | some f =>
    obtain ⟨hv, hP⟩ := hn f htgt
    have hfree : Q (s.heap f) := by
      refine Lease.Leased.free h fun v hvf => ?_
      by_cases hvw : v = w
      · subst hvw
        rw [hs] at hvf
        cases hvf
      · exact hv v hvw hvf
    have : ((s.setFiber f (s.heap f)).goto w (.taken task)).Leased P Q := by
      refine h.turn ?_ hv ?_ (fun _ => hP hfree) ?_
      · intro g hg
        rw [hs] at hg
        cases hg
      · intro g hg
        exact Option.some.inj (hg.symm.trans htgt)
      · intro hg
        exact absurd (hg.symm.trans htgt) nofun
    rwa [setFiber_self] at this

/-- A thread engaged with none goes on with a fiber that nobody has. -/
theorem make (h : s.Leased P Q) (hs : (s.workers w).engaged = none) (hn : ∀ v, (s.workers v).engaged ≠ some f)
    {wk : Worker} {fiber : Fiber} (hw : wk.engaged = some f) (hP : P wk.pc fiber) :
    ((s.setFiber f fiber).setWorker w wk).Leased P Q := by
  refine h.turn ?_ (fun v _ => hn v) ?_ (fun _ => hP) ?_
  · intro g hg
    rw [hs] at hg
    cases hg
  · intro g hg
    exact Option.some.inj (hg.symm.trans hw)
  · intro hg
    rw [hw] at hg
    cases hg

/-- A thread that is engaged with none stays so. -/
theorem away (h : s.Leased P Q) (hs : (s.workers w).engaged = none) {wk : Worker} (hw : wk.engaged = none) :
    (s.setWorker w wk).Leased P Q := by
  refine Lease.Leased.turn h (hw.trans hs.symm) fun k hk => ?_
  rw [hw] at hk
  cases hk

/-- Other code writes a fiber. -/
theorem setFiber (h : s.Leased P Q) {fiber : Fiber}
    (hP : ∀ v, (s.workers v).engaged = some f → P (s.workers v).pc (s.heap f) → P (s.workers v).pc fiber)
    (hQ : Q (s.heap f) → Q fiber) : (s.setFiber f fiber).Leased P Q := by
  refine Lease.Leased.write h (fun v k hv => ?_) fun k hk => ?_
  · have hold := Lease.Leased.held h hv
    by_cases hkf : k = f
    · subst hkf
      rw [setFiber_heap, Function.update_self]
      exact hP v hv hold
    · rw [setFiber_heap, Function.update_of_ne hkf]
      exact hold
  · have hold := Lease.Leased.free h hk
    by_cases hkf : k = f
    · subst hkf
      rw [setFiber_heap, Function.update_self]
      exact hQ hold
    · rw [setFiber_heap, Function.update_of_ne hkf]
      exact hold

end Leased

end Scheduler

end Megalo
