import Megalo.Scheduler.Conservation
import Megalo.Scheduler.Turns

/-!
# What is left when all threads are out of `run`

A thread ends its loop behind a scan that found nothing, when its idle fiber has ended. Until that scan it is live:
whatever is scheduled meanwhile, it comes to look at `m_fibers` again. Behind a scan that found nothing it is so still,
when its idle fiber has not ended.

- `Executed`: a fiber whose state is `EXEC` is run by some thread, so no entry is skipped for its state when none runs;
- `scannedSys n` is `tracedSys n` with the thread of the last scan;
- `Covered`: either some thread is live, or what is left is not for the thread that scanned last. Every step keeps this,
  as long as tasks are scheduled only while some thread is live (`Fed`);
- `drained`: once all threads are out, every task was taken and finished, but for those that are for another thread
  than the one that scanned last.

The idle fiber may end at any time here, so this does not depend on what `stopping` says, or whose `idle` it is.
-/

namespace Megalo

/-- The thread scans again before it can end its loop. -/
def Worker.live (wk : Worker) : Bool :=
  match wk.pc with
  | .nothing => wk.idle ≠ .term
  | .exited => false
  | _ => true

/-- At any place in the loop but behind a scan that found nothing. -/
theorem Worker.live_of_pc {wk : Worker} (hnothing : wk.pc ≠ .nothing) (hexited : wk.pc ≠ .exited) : wk.live = true := by
  unfold live
  split
  · exact absurd ‹_› hnothing
  · exact absurd ‹_› hexited
  · rfl

theorem Pc.in_loop_of_goes {count f : Nat} {pc pc' : Pc} {x x' : FiberState} (h : Pc.Goes count f pc x pc' x') :
    pc' ≠ .nothing ∧ pc' ≠ .exited := by
  cases h with
  | settle b f x =>
    rcases Pc.afterSwapIn_cases b f x with he | ⟨p, b', he⟩
    · rw [he]; exact ⟨nofun, nofun⟩
    · rw [he]; exact ⟨nofun, nofun⟩
  | _ => exact ⟨nofun, nofun⟩

namespace Scheduler

variable {n : Nat} {s t : Scheduler n} {w : Fin n} {f : Nat}

/-- Some thread scans again. -/
def Live (s : Scheduler n) : Prop := ∃ w, (s.workers w).live = true

instance (s : Scheduler n) : Decidable s.Live := inferInstanceAs (Decidable (∃ w, (s.workers w).live = true))

/-- Other code schedules only while some thread scans again. -/
def Fed (s : Scheduler n) : Label n → Prop
  | .scheduleFiber _ _ | .scheduleCb _ _ => s.Live
  | _ => True

instance (s : Scheduler n) : DecidablePred s.Fed
  | .scheduleFiber _ _ | .scheduleCb _ _ => inferInstanceAs (Decidable s.Live)
  | .advance _ | .outcome _ _ | .idleOutcome _ _ | .newFiber _ | .keep _ | .release _ | .destroy _ =>
    inferInstanceAs (Decidable True)

theorem workers_same (s : Scheduler n) (w : Fin n) (wk : Worker) : (s.setWorker w wk).workers w = wk :=
  Function.update_self ..

theorem workers_other (s : Scheduler n) {v w : Fin n} (wk : Worker) (h : v ≠ w) :
    (s.setWorker w wk).workers v = s.workers v :=
  Function.update_of_ne h ..

/-- A write that keeps the state of a fiber keeps those of all. -/
theorem setFiber_state (fiber : Fiber) (h : fiber.state = (s.heap f).state) (g : Nat) :
    ((s.setFiber f fiber).heap g).state = (s.heap g).state := by
  by_cases hgf : g = f
  · rw [hgf, ← h]
    exact congrArg Fiber.state (Function.update_self (f := s.heap) ..)
  · exact congrArg Fiber.state (Function.update_of_ne hgf ..)

/-! ## Fibers in `EXEC` -/

/-- A fiber in `EXEC` is run by a thread. -/
def Executed (s : Scheduler n) : Prop :=
  ∀ f, (s.heap f).state = .exec → ∃ w branch, (s.workers w).pc = .on .running branch f

theorem Executed.congr (h : s.Executed) (hworkers : t.workers = s.workers)
    (hstate : ∀ f, (t.heap f).state = .exec → (s.heap f).state = .exec) : t.Executed := by
  intro f hf
  rw [hworkers]
  exact h f (hstate f hf)

/-- A thread that runs nothing goes on. -/
theorem Executed.move (h : s.Executed) (wk : Worker) (hw : ∀ branch f, (s.workers w).pc ≠ .on .running branch f) :
    (s.setWorker w wk).Executed := by
  intro f hf
  obtain ⟨v, branch, hv⟩ := h f hf
  have hvw : v ≠ w := fun he => hw branch f (he ▸ hv)
  exact ⟨v, branch, by rw [workers_other _ _ hvw]; exact hv⟩

/-- A thread writes its fiber and goes on. -/
theorem Executed.write (h : s.Executed) (wk : Worker) (fiber : Fiber)
    (hw : ∀ branch g, (s.workers w).pc = .on .running branch g → g = f)
    (hfiber : fiber.state = .exec → ∃ branch, wk.pc = .on .running branch f) :
    ((s.setFiber f fiber).setWorker w wk).Executed := by
  intro g hg
  by_cases hgf : g = f
  · subst hgf
    have hexec : fiber.state = .exec := by simpa [setFiber, setWorker] using hg
    obtain ⟨branch, hpc⟩ := hfiber hexec
    exact ⟨w, branch, by rw [workers_same]; exact hpc⟩
  · have hexec : (s.heap g).state = .exec := by simpa [setFiber, setWorker, Function.update_of_ne hgf] using hg
    obtain ⟨v, branch, hv⟩ := h g hexec
    have hvw : v ≠ w := fun he => hgf (hw branch g (he ▸ hv))
    exact ⟨v, branch, by rw [workers_other _ _ hvw]; exact hv⟩

theorem Executed.store (h : s.Executed) {pc : Pc} {r : Except FiberAssertion Fiber}
    (hw : ∀ branch g, (s.workers w).pc = .on .running branch g → g = f)
    (hr : ∀ fiber, r = .ok fiber → fiber.state = .exec → ∃ branch, pc = .on .running branch f) :
    (s.store w f pc r).Executed := by
  cases r with
  | ok fiber => exact h.write _ fiber hw (hr fiber rfl)
  | error a => exact h.congr rfl fun _ => id

theorem branch_executed (h : s.Executed) {task : Task Nat Nat} (hpc : (s.workers w).pc = .taken task) :
    (s.branch w task).Executed := by
  have hw : ∀ branch f, (s.workers w).pc ≠ .on .running branch f := fun branch f he => by rw [hpc] at he; cases he
  cases task with
  | fiber f =>
    simp only [branch]
    split
    · exact h.move _ hw
    · exact (h.move { s.workers w with pc := .scan } hw).congr rfl fun _ => id
  | cb c =>
    simp only [branch]
    split
    · refine h.store (fun b g hg => absurd hg (hw b g)) fun fiber hr hexec => ?_
      rw [(Fiber.reset_state hr).2] at hexec
      cases hexec
    · have hmade := h.write (w := w) (f := s.count)
        { s.workers w with pc := .on .swapIn .cb s.count, cbFiber := some s.count } (.new (some c) false)
        (fun b g hg => absurd hg (hw b g)) fun he => by cases he
      exact hmade.congr rfl fun _ => id

theorem proceed_executed (h : s.Executed) {branch : Branch} {phase : Phase}
    (hpc : (s.workers w).pc = .on phase branch f) (ht : s.proceed w branch f phase = some t) : t.Executed := by
  cases phase with
  | running => cases ht
  | swapIn =>
    obtain rfl := Option.some.inj ht
    exact h.store (fun b g hg => by rw [hpc] at hg; cases hg) fun fiber hr hexec => ⟨branch, rfl⟩
  | swapOut =>
    obtain rfl := Option.some.inj ht
    have hw : ∀ b g, (s.workers w).pc ≠ .on .running b g := fun b g he => by rw [hpc] at he; cases he
    have hmoved := h.move { s.workers w with pc := .on .back branch f } hw
    exact hmoved.congr rfl fun g hg => (setFiber_state (s.heap f).swapOut rfl g).symm.trans hg
  | back =>
    obtain rfl := Option.some.inj ht
    have hw : ∀ b g, (s.workers w).pc ≠ .on .running b g := fun b g he => by rw [hpc] at he; cases he
    exact (h.move { s.workers w with pc := .on .settle branch f } hw).congr rfl fun _ => id
  | settle =>
    obtain rfl := Option.some.inj ht
    exact h.move _ fun b g he => by rw [hpc] at he; cases he
  | schedule =>
    obtain rfl := Option.some.inj ht
    have hw : ∀ b g, (s.workers w).pc ≠ .on .running b g := fun b g he => by rw [hpc] at he; cases he
    exact (h.move { s.workers w with pc := .scan } hw).congr rfl fun _ => id
  | hold =>
    obtain rfl := Option.some.inj ht
    exact h.write _ _ (fun b g hg => by rw [hpc] at hg; cases hg) nofun
  | resetNull =>
    obtain rfl := Option.some.inj ht
    refine h.store (fun b g hg => by rw [hpc] at hg; cases hg) fun fiber hr hexec => ?_
    rw [(Fiber.reset_state hr).2] at hexec
    cases hexec

theorem executed_step (h : s.Executed) {a : Label n} (hst : s.step a = some t) : t.Executed := by
  cases step_cases hst with
  | @scan w hpc =>
    have hw : ∀ b g, (s.workers w).pc ≠ .on .running b g := fun b g he => by rw [hpc] at he; cases he
    unfold scan
    split
    · rename_i ft _
      exact (h.move { s.workers w with pc := .taken ft.task } hw).congr rfl fun _ => id
    · exact h.move _ hw
  | branch hpc => exact branch_executed h hpc
  | proceed hpc ht => exact proceed_executed h hpc ht
  | @idle w hpc =>
    have hw : ∀ b g, (s.workers w).pc ≠ .on .running b g := fun b g he => by rw [hpc] at he; cases he
    unfold idle
    split
    · exact h.move _ hw
    · split
      · exact h.move _ hw
      · exact h.congr rfl fun _ => id
  | @outcome w branch f o hpc ho =>
    refine h.store (fun b g hg => ?_) fun fiber hr hexec => absurd hexec (Fiber.left_of_leave hr)
    rw [hpc] at hg
    cases hg
    rfl
  | idleOutcome hpc => exact h.move _ fun b g he => by rw [hpc] at he; cases he
  | newFiber =>
    refine h.congr rfl fun g hg => ?_
    by_cases hgc : g = s.count
    · subst hgc
      simp [newFiber, setFiber, Fiber.new] at hg
    · simpa [newFiber, setFiber, Function.update_of_ne hgc] using hg
  | keep | release => exact h.congr rfl fun g hg => (setFiber_state _ (by rfl) g).symm.trans hg
  | scheduleFiber | scheduleCb | destructor => exact h.congr rfl fun _ => id
  | @destroy f fiber hf hlive hown hd =>
    unfold Fiber.destroy at hd
    split at hd
    · obtain rfl := Except.ok.inj hd
      refine h.congr rfl fun g hg => ?_
      by_cases hgf : g = f
      · subst hgf
        simpa [setFiber] using hg
      · simpa [setFiber, Function.update_of_ne hgf] using hg
    · cases hd

/-! ## The last scan -/

/-- The thread of the last scan, behind a step. -/
def lastScan (s : Scheduler n) (a : Label n) (last : Option (Fin n)) : Option (Fin n) :=
  match a with
  | .advance w => if (s.workers w).pc = .scan then some w else last
  | _ => last

end Scheduler

/-- `tracedSys n`, with the thread of the last scan. -/
def scannedSys (n : Nat) :
    Transition.Sys ((Scheduler n × Ledger.Book FiberAndThread (Fin n)) × Option (Fin n)) (Scheduler.Label n) :=
  (tracedSys n).recorded none fun p => p.1.lastScan

namespace Scheduler

variable {n : Nat} {s t : Scheduler n} {w : Fin n} {f : Nat} {b : Ledger.Book FiberAndThread (Fin n)}
  {last : Option (Fin n)}

/-- What is left is for other threads than the one that scanned last. -/
def LeftBy (s : Scheduler n) (last : Option (Fin n)) : Prop :=
  ∀ ft ∈ s.fibers, ∃ k w, ft.thread = some k ∧ last = some w ∧ k ≠ w.val

/-- Some thread is live, or what is left was left by the last scan. -/
def Covered (s : Scheduler n) (last : Option (Fin n)) : Prop := s.Live ∨ s.LeftBy last

theorem Covered.congr (h : s.Covered last) (hworkers : t.workers = s.workers) (hfibers : t.fibers = s.fibers) :
    t.Covered last := by
  rcases h with ⟨w, hw⟩ | h
  · exact .inl ⟨w, by rw [hworkers]; exact hw⟩
  · exact .inr fun ft hft => h ft (hfibers ▸ hft)

/-- A thread that goes on in the loop is live. -/
theorem live_of_pc (hnothing : (t.workers w).pc ≠ .nothing) (hexited : (t.workers w).pc ≠ .exited) : t.Live :=
  ⟨w, Worker.live_of_pc hnothing hexited⟩

theorem live_of_worker {wk : Worker} (h : t.workers = Function.update s.workers w wk) (hlive : wk.live = true) :
    t.Live :=
  ⟨w, by rw [h, Function.update_self]; exact hlive⟩

/-- The last thread that is live finds nothing: whatever is left is for others. -/
theorem scan_covered (h : s.Executed) (hpc : (s.workers w).pc = .scan) : (s.scan w).Covered (some w) := by
  unfold scan
  cases hnext : s.next w with
  | some ft => exact .inl (live_of_worker (w := w) rfl rfl)
  | none =>
    by_cases hothers : ∃ v, v ≠ w ∧ (s.workers v).live = true
    · obtain ⟨v, hvw, hv⟩ := hothers
      exact .inl ⟨v, by rw [goto, workers_other _ _ hvw]; exact hv⟩
    · refine .inr fun ft hft => ?_
      have hrunning : ∀ v b f, (s.workers v).pc ≠ .on .running b f := by
        intro v b f hv
        by_cases hvw : v = w
        · rw [hvw, hpc] at hv
          cases hv
        · exact hothers ⟨v, hvw, Worker.live_of_pc (by rw [hv]; nofun) (by rw [hv]; nofun)⟩
      have hstate : ∀ f, (s.heap f).state ≠ .exec := fun f hf => by
        obtain ⟨v, b, hv⟩ := h f hf
        exact hrunning v b f hv
      have hskipped : s.takes w ft = false := by simpa using List.find?_eq_none.mp hnext ft hft
      have hpinned : (ft.thread.all fun k : Nat => decide (k = w.val)) = false := by
        cases htask : ft.task with
        | fiber f => simpa [takes, htask, hstate f] using hskipped
        | cb c => simpa [takes, htask] using hskipped
      cases hthread : ft.thread with
      | none => rw [hthread] at hpinned; cases hpinned
      | some k =>
        rw [hthread] at hpinned
        exact ⟨k, w, rfl, rfl, by simpa using hpinned⟩

/-- A step between two scans leaves its thread live. -/
theorem inner_covered (h : s.Covered last) {a : Label n} (ha : a.Inner s) (hst : s.step a = some t) :
    t.Covered last := by
  obtain ⟨hfibers, hturn⟩ := step_turn hst ha
  cases hturn with
  | still hworkers _ _ => exact h.congr hworkers hfibers
  | goes w f _ _ _ hgoes =>
    obtain ⟨hnothing, hexited⟩ := Pc.in_loop_of_goes hgoes
    exact .inl (live_of_pc hnothing hexited)

/-- Behind a scan that found nothing only a thread that is not live leaves the loop. -/
theorem idle_covered (h : s.Covered last) (hpc : (s.workers w).pc = .nothing) : (s.idle w).Covered last := by
  unfold idle
  split
  · rename_i hidle
    refine h.imp (fun ⟨v, hv⟩ => ?_) id
    have hvw : v ≠ w := fun he => by
      rw [he, Worker.live, hpc, hidle] at hv
      cases hv
    exact ⟨v, by rw [workers_other _ _ hvw]; exact hv⟩
  · split
    · exact .inl (live_of_worker (w := w) rfl rfl)
    · exact h.congr rfl rfl

/-- No other step but the scan is one of a thread that scans. -/
theorem lastScan_other {a : Label n} (h : ∀ w, a = .advance w → (s.workers w).pc ≠ .scan) :
    s.lastScan a last = last := by
  cases a with
  | advance w => exact if_neg (h w rfl)
  | _ => rfl

theorem covered_step (h : s.Covered last) (hx : s.Executed) {a : Label n} (hok : s.Fed a) (hst : s.step a = some t) :
    t.Covered (s.lastScan a last) := by
  have hinner : a.Inner s → t.Covered (s.lastScan a last) := by
    intro ha
    rw [lastScan_other fun w he => by subst he; exact ha.1]
    exact inner_covered h ha hst
  cases step_cases hst with
  | @scan w hpc =>
    rw [lastScan, if_pos hpc]
    exact scan_covered hx hpc
  | @idle w hpc =>
    rw [lastScan_other fun v he => by cases he; rw [hpc]; nofun]
    exact idle_covered h hpc
  | @idleOutcome w returns hpc => exact .inl (live_of_worker (w := w) rfl rfl)
  | scheduleFiber hf hout => exact .inl hok
  | scheduleCb => exact .inl hok
  | @proceed w phase branch f _ hpc ht =>
    by_cases hphase : phase = .schedule
    · subst hphase
      obtain rfl := Option.some.inj ht
      exact .inl (live_of_worker (w := w) rfl rfl)
    · refine hinner ⟨?_, ?_, ?_⟩
      · rw [hpc]; nofun
      · rw [hpc]; nofun
      · intro b g hg
        rw [hpc] at hg
        cases hg
        exact hphase rfl
  | branch hpc =>
    refine hinner ⟨?_, ?_, ?_⟩
    · rw [hpc]; nofun
    · rw [hpc]; nofun
    · rw [hpc]; nofun
  | outcome | newFiber | keep | release | destroy | destructor => exact hinner trivial

/-- Runs in which tasks are scheduled only while some thread scans again. -/
theorem covered_reachable (h : (scannedSys n).ReachableWhen (fun p a => p.1.1.Fed a) ((s, b), last)) :
    s.Executed ∧ s.Covered last := by
  refine h.invariant (I := fun p => p.1.1.Executed ∧ p.1.1.Covered p.2) ?_ ?_
  · rintro ⟨_, _⟩ ⟨rfl, rfl⟩
    exact ⟨nofun, .inr nofun⟩
  · rintro ⟨⟨s, b⟩, last⟩ a ⟨⟨t, b'⟩, last'⟩ ⟨hx, hc⟩ hok hst
    obtain ⟨hst, rfl⟩ := Transition.Sys.recorded_step hst
    obtain ⟨t', ht, he⟩ := Option.map_eq_some_iff.mp hst
    cases he
    simp only [schedSys] at ht
    split at ht
    · exact ⟨executed_step hx ht, covered_step hc hx hok ht⟩
    · cases ht

/-- Every run of the scheduler with a book is one with the thread of the last scan. -/
theorem scanned_of_reachable (h : (tracedSys n).ReachableWhen (fun p a => p.1.Fed a) (s, b)) :
    ∃ last, (scannedSys n).ReachableWhen (fun p a => p.1.1.Fed a) ((s, b), last) :=
  h.recorded

/-- **No task is left behind.** When all threads are out of `run`, each task that was scheduled is finished with, unless
it is for one thread and the last scan was that of another one. -/
theorem drained (h : (scannedSys n).ReachableWhen (fun p a => p.1.1.Fed a) ((s, b), last))
    (hend : ∀ w, (s.workers w).pc = .exited) :
    ∀ id < b.items.length, id ∈ b.finished ∨
      ∃ ft k w, b.items[id]? = some ft ∧ ft.thread = some k ∧ last = some w ∧ k ≠ w.val := by
  intro id hid
  have htraced : (tracedSys n).ReachableWhen (fun p a => p.1.Fed a) (s, b) := Transition.Sys.ReachableWhen.of_recorded h
  have hconserved := task_conservation htraced.reachable
  obtain ⟨p, hp, -⟩ := hconserved.balanced.place id hid
  cases p with
  | finished => exact .inl hp
  | held w =>
    have hheld := hconserved.held w
    rw [hend w, show b.held w = some id from hp] at hheld
    cases hheld
  | queued =>
    have hmem : b.items[id]? ∈ b.waiting := List.mem_map_of_mem hp
    rw [← hconserved.fibers] at hmem
    obtain ⟨ft, hft, hitem⟩ := List.mem_map.mp hmem
    rcases (covered_reachable h).2 with ⟨w, hw⟩ | hleft
    · rw [Worker.live, hend w] at hw
      cases hw
    · obtain ⟨k, w, hk, hlast, hne⟩ := hleft ft hft
      exact .inr ⟨ft, k, w, hitem.symm, hk, hlast, hne⟩

/-- A fiber that puts itself back, on the only thread; a callback is scheduled behind a scan that found nothing. -/
theorem drained_fiber : ∃ (s : Scheduler 1) (b : Ledger.Book FiberAndThread (Fin 1)) (last : Option (Fin 1)),
    (s.workers 0).pc = .exited ∧ b.items.length = 3 ∧ ∀ id < b.items.length, id ∈ b.finished ∨
      ∃ ft k w, b.items[id]? = some ft ∧ ft.thread = some k ∧ last = some w ∧ k ≠ w.val := by
  obtain ⟨p, hp, htest⟩ := Transition.Sys.reachableWhen_of_exec (S := scannedSys 1) (fun p a => p.1.1.Fed a)
    ((.new 1, .new), none) ⟨rfl, rfl⟩
    [.newFiber 0, .scheduleFiber 0 none, .advance 0, .advance 0, .advance 0, .outcome 0 .yieldToReady, .advance 0,
      .advance 0, .advance 0, .advance 0, .advance 0, .advance 0, .advance 0, .outcome 0 .returns, .advance 0,
      .advance 0, .advance 0, .advance 0, .scheduleCb 0 none, .advance 0, .idleOutcome 0 true, .advance 0, .advance 0,
      .advance 0, .outcome 0 .returns, .advance 0, .advance 0, .advance 0, .advance 0, .advance 0, .advance 0]
    (p := fun p => decide ((p.1.1.workers 0).pc = .exited ∧ p.1.2.items.length = 3)) rfl
  obtain ⟨hpc, hlength⟩ := of_decide_eq_true htest
  exact ⟨p.1.1, p.1.2, p.2, hpc, hlength, drained hp fun w => by rw [Subsingleton.elim w 0]; exact hpc⟩

/-- A callback is scheduled for a thread that is out already. -/
example : (((scannedSys 2).restrict fun p a => p.1.1.Fed a).exec ((.new 2, .new), none)
    [.advance 1, .advance 1, .idleOutcome 1 true, .advance 1, .advance 1, .scheduleCb 0 (some 1), .advance 0,
      .advance 0, .idleOutcome 0 true, .advance 0, .advance 0]).map
    (fun p => decide ((∀ w, (p.1.1.workers w).pc = .exited) ∧ p.1.2.queue = [0] ∧ p.2 = some 0)) = some true := rfl

end Scheduler

end Megalo
