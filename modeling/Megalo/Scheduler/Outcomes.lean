import Megalo.Scheduler.Exclusive

/-!
# Outcomes of the tasks

- a callback that throws leaves `cb_fiber` in `EXCEPT`, which `reset(nullptr)` does not allow, and a fiber that throws
  fails the assertion of `~Fiber` with its last pointer (`throw_survives_fails`);
- `Survives`: the steps that throw in a fiber that something else keeps, and that take a callback when `cb_fiber` can be
  reset (it can not while it waits after `YieldToReady`). In runs of such steps no assertion fails, and every thread
  that is back from a task goes on to the scan and takes the next one (`throw_survives`).
-/

namespace Megalo

/-- A fiber that waits has `cur` on its stack, and one that has thrown is kept outside. -/
structure Fiber.Kept (fiber : Fiber) : Prop where
  cur : fiber.state = .hold ∨ fiber.state = .ready → fiber.cur = true
  outside : fiber.state = .except → fiber.outside = true

/-- `Fiber::reset` does not assert. -/
def Fiber.Resettable (fiber : Fiber) : Prop := fiber.state = .init ∨ fiber.state = .term

instance (fiber : Fiber) : Decidable fiber.Resettable :=
  inferInstanceAs (Decidable (fiber.state = .init ∨ fiber.state = .term))

/-- How many steps a thread that is back from a task is from the scan, at most. -/
def Phase.rank : Phase → Nat
  | .swapIn | .running => 0
  | .swapOut => 4
  | .back => 3
  | .settle => 2
  | .schedule | .hold | .resetNull => 1

/-- The fiber that `run` resets for a task. -/
def Worker.resets (wk : Worker) : Task Nat Nat → Option Nat
  | .fiber _ => none
  | .cb _ => wk.cbFiber

/-- The state a thread at `pc` expects its fiber in. A callback does not throw. -/
def Pc.Expects : Pc → FiberState → Prop
  | .taken (.cb _), state => state = .init ∨ state = .term
  | .on .running _ _, state => state = .exec
  | .on .hold _ _, state => state = .hold
  | .on .resetNull _ _, state => state = .term
  | .on .swapIn _ _, state => state ≠ .exec
  | .on _ .fiber _, state => state ≠ .exec ∧ state ≠ .init
  | .on _ .cb _, state => state ≠ .exec ∧ state ≠ .init ∧ state ≠ .except
  | _, state => state ≠ .exec

/-- The fiber of a thread at `pc`. -/
structure Pc.Safe (pc : Pc) (fiber : Fiber) : Prop where
  kept : fiber.Kept
  expects : pc.Expects fiber.state
  running : fiber.state = .exec → fiber.cur = true

/-- A fiber that no thread is engaged with. -/
structure Fiber.Parked (fiber : Fiber) : Prop where
  kept : fiber.Kept
  state : fiber.state ≠ .exec

/-- A fiber starts, or is reset. -/
theorem Fiber.kept_of_init {fiber : Fiber} (h : fiber.state = .init) : fiber.Kept where
  cur hs := by simp [h] at hs
  outside hs := by simp [h] at hs

theorem Fiber.parked_of_init {fiber : Fiber} (h : fiber.state = .init) : fiber.Parked where
  kept := kept_of_init h
  state := by simp [h]

theorem Pc.safe_of_init {pc : Pc} {fiber : Fiber} (h : fiber.state = .init) (hpc : pc.Expects .init) :
    pc.Safe fiber where
  kept := Fiber.kept_of_init h
  expects := h ▸ hpc
  running hs := by simp [h] at hs

theorem Fiber.reset_ok (fiber : Fiber) (h : fiber.state = .term ∨ fiber.state = .init) (cb : Option Nat) :
    fiber.reset cb = .ok { fiber with cb, saved := true, state := .init } := by
  rw [Fiber.reset, if_pos h]

theorem Fiber.swapIn_ok (fiber : Fiber) (h : fiber.state ≠ .exec) :
    fiber.swapIn = .ok { fiber with state := .exec, saved := false, cur := true } := by
  rw [Fiber.swapIn, if_pos h]

namespace Scheduler

variable {n : Nat} {s t : Scheduler n} {w : Fin n} {f : Nat}

/-- The branch and the fiber whose code throws in the step. -/
def throwing (s : Scheduler n) : Label n → Option (Branch × Nat)
  | .outcome w o =>
    match (s.workers w).pc with
    | .on .running branch f => if o.isThrow then some (branch, f) else none
    | _ => none
  | _ => none

/-- The fiber whose pointer outside the scheduler is dropped in the step. -/
def releasing : Label n → Option Nat
  | .release f => some f
  | _ => none

/-- A task is taken only if its fiber is not disputed and, for a callback, `cb_fiber` can be reset; only the code of a
scheduled fiber throws, one that is kept outside, and it is not released after that. -/
structure Survives (s : Scheduler n) (a : Label n) : Prop where
  takes : s.TakesFree a
  resets : ∀ p ∈ s.taking a, ∀ f ∈ (s.workers p.1).resets p.2, (s.heap f).Resettable
  throws : ∀ p ∈ s.throwing a, p.1 = .fiber ∧ (s.heap p.2).outside = true
  releases : ∀ f ∈ releasing a, (s.heap f).state ≠ .except

instance (s : Scheduler n) (a : Label n) : Decidable (s.Survives a) :=
  decidable_of_iff
    (s.TakesFree a ∧ (∀ p ∈ s.taking a, ∀ f ∈ (s.workers p.1).resets p.2, (s.heap f).Resettable) ∧
      (∀ p ∈ s.throwing a, p.1 = .fiber ∧ (s.heap p.2).outside = true) ∧ ∀ f ∈ releasing a, (s.heap f).state ≠ .except)
    ⟨fun ⟨h₁, h₂, h₃, h₄⟩ => ⟨h₁, h₂, h₃, h₄⟩, fun h => ⟨h.takes, h.resets, h.throws, h.releases⟩⟩

/-- The thread's own steps lead to the scan without a failed assertion, and there it takes the next task. -/
def GoesOn (s : Scheduler n) (w : Fin n) : Prop :=
  ∃ k t, (schedSys n).exec s (List.replicate k (.advance w)) = some t ∧ t.failed = none ∧ (t.workers w).pc = .scan ∧
    ∀ ft, t.next w = some ft →
      ∃ u, (schedSys n).step t (.advance w) = some u ∧ (u.workers w).pc = .taken ft.task

/-! ## No assertion fails -/

/-- No assertion has failed, and every fiber has one thread at most and is as its place expects. -/
structure Sound (s : Scheduler n) : Prop where
  failed : s.failed = none
  lease : s.Leased Pc.Safe Fiber.Parked

/-- A call on a fiber that does not assert. -/
theorem Sound.store (h : s.Sound) (hf : (s.workers w).engaged = some f) {pc : Pc}
    (hw : { s.workers w with pc }.engaged = some f) {r : Except FiberAssertion Fiber} {fiber : Fiber}
    (hr : r = .ok fiber) (hP : pc.Safe fiber) : (s.store w f pc r).Sound := by
  subst hr
  exact ⟨h.failed, h.lease.write hf hw hP⟩

theorem scan_sound (h : s.Sound) (hpc : (s.workers w).pc = .scan) (hok : s.Survives (.advance w)) :
    (s.scan w).Sound := by
  have hnone : (s.workers w).engaged = none := by simp [Worker.engaged, hpc]
  unfold scan
  cases hnext : s.next w with
  | some ft =>
    have hmem : (w, ft.task) ∈ s.taking (.advance w) := by simp [taking, hpc, hnext]
    refine ⟨h.failed, h.lease.take hnone fun f hf => ⟨hok.takes _ hmem f hf, fun hp => ⟨hp.kept, ?_, ?_⟩⟩⟩
    · have hcb := hok.resets _ hmem
      cases htask : ft.task with
      | fiber g => exact hp.state
      | cb c =>
        rw [htask] at hcb hf
        exact hcb f hf
    · exact fun hexec => absurd hexec hp.state
  | none => exact ⟨h.failed, h.lease.away hnone rfl⟩

theorem branch_sound (h : s.Sound) (hk : s.Formed) {task : Task Nat Nat} (hpc : (s.workers w).pc = .taken task) :
    (s.branch w task).Sound := by
  have htgt : (s.workers w).engaged = (s.workers w).target task := by simp [Worker.engaged, hpc]
  cases task with
  | fiber f =>
    have hsafe : (s.workers w).pc.Safe (s.heap f) := Lease.Leased.held h.lease htgt
    rw [hpc] at hsafe
    simp only [branch]
    split
    · exact ⟨h.failed, h.lease.goto htgt rfl ⟨hsafe.kept, hsafe.expects, hsafe.running⟩⟩
    · exact ⟨h.failed, h.lease.drop htgt ⟨hsafe.kept, hsafe.expects⟩⟩
  | cb c =>
    cases hcb : (s.workers w).cbFiber with
    | some f =>
      have hsafe : (s.workers w).pc.Safe (s.heap f) := Lease.Leased.held h.lease (htgt.trans hcb)
      rw [hpc] at hsafe
      have hreset := (s.heap f).reset_ok hsafe.expects.symm (some c)
      simp only [branch, hcb]
      exact h.store (htgt.trans hcb) rfl hreset (Pc.safe_of_init rfl (by simp [Pc.Expects]))
    | none =>
      simp only [branch, hcb]
      refine ⟨h.failed, h.lease.make (htgt.trans hcb) (fun v hv => ?_) rfl (Pc.safe_of_init rfl (by simp [Pc.Expects]))⟩
      exact Nat.lt_irrefl _ (hk.workers v _ (.inl hv))

theorem proceed_sound (h : s.Sound) {branch : Branch} {phase : Phase}
    (hpc : (s.workers w).pc = .on phase branch f) (ht : s.proceed w branch f phase = some t) : t.Sound := by
  have hf := engaged_on hpc
  have hsafe : (Pc.on phase branch f).Safe (s.heap f) := hpc ▸ Lease.Leased.held h.lease hf
  cases phase with
  | swapIn =>
    obtain rfl := Option.some.inj ht
    exact h.store hf rfl ((s.heap f).swapIn_ok hsafe.expects) ⟨⟨nofun, nofun⟩, rfl, fun _ => rfl⟩
  | running => cases ht
  | swapOut =>
    obtain rfl := Option.some.inj ht
    refine h.store hf rfl rfl ⟨⟨hsafe.kept.cur, hsafe.kept.outside⟩, ?_, hsafe.running⟩
    cases branch <;> exact hsafe.expects
  | back =>
    obtain rfl := Option.some.inj ht
    refine ⟨h.failed, h.lease.goto hf rfl ⟨hsafe.kept, ?_, hsafe.running⟩⟩
    cases branch <;> exact hsafe.expects
  | settle =>
    obtain rfl := Option.some.inj ht
    have hne : (s.heap f).state ≠ .exec ∧ (s.heap f).state ≠ .init := by
      cases branch with
      | fiber => exact hsafe.expects
      | cb => exact ⟨hsafe.expects.1, hsafe.expects.2.1⟩
    cases hstate : (s.heap f).state with
    | init => exact absurd hstate hne.2
    | exec => exact absurd hstate hne.1
    | hold => exact ⟨h.failed, h.lease.goto hf rfl ⟨hsafe.kept, hstate, hsafe.running⟩⟩
    | ready =>
      refine ⟨h.failed, h.lease.goto hf rfl ⟨hsafe.kept, ?_, hsafe.running⟩⟩
      cases branch <;> exact hsafe.expects
    | term =>
      cases branch with
      | fiber => exact ⟨h.failed, h.lease.drop hf ⟨hsafe.kept, hne.1⟩⟩
      | cb => exact ⟨h.failed, h.lease.goto hf rfl ⟨hsafe.kept, hstate, hsafe.running⟩⟩
    | except =>
      cases branch with
      | fiber => exact ⟨h.failed, h.lease.drop hf ⟨hsafe.kept, hne.1⟩⟩
      | cb => exact absurd hstate hsafe.expects.2.2
  | schedule =>
    obtain rfl := Option.some.inj ht
    refine ⟨h.failed, h.lease.drop hf ⟨hsafe.kept, ?_⟩⟩
    cases branch with
    | fiber => exact hsafe.expects.1
    | cb => exact hsafe.expects.1
  | hold =>
    obtain rfl := Option.some.inj ht
    have hhold : (s.heap f).state = .hold := hsafe.expects
    exact ⟨h.failed, h.lease.leave hf rfl ⟨⟨fun _ => hsafe.kept.cur (.inl hhold), nofun⟩, nofun⟩⟩
  | resetNull =>
    obtain rfl := Option.some.inj ht
    rw [(s.heap f).reset_ok (.inl hsafe.expects) none]
    exact ⟨h.failed, h.lease.leave hf rfl (Fiber.parked_of_init rfl)⟩

theorem outcome_sound (h : s.Sound) {branch : Branch} {o : Outcome} (hpc : (s.workers w).pc = .on .running branch f)
    (hok : s.Survives (.outcome w o)) : (s.store w f (.on .swapOut branch f) ((s.heap f).leave o)).Sound := by
  have hf := engaged_on hpc
  have hsafe : (s.workers w).pc.Safe (s.heap f) := Lease.Leased.held h.lease hf
  rw [hpc] at hsafe
  have hexec : (s.heap f).state = .exec := hsafe.expects
  have hthrow : o.isThrow = true → branch = .fiber ∧ (s.heap f).outside = true := fun ho =>
    hok.throws (branch, f) (by simp [throwing, hpc, ho])
  cases o with
  | returns =>
    refine h.store hf rfl rfl ⟨⟨by simp, by simp⟩, ?_, by simp⟩
    cases branch with
    | fiber => exact ⟨by simp, by simp⟩
    | cb => exact ⟨by simp, by simp, by simp⟩
  | throwsException | throwsOther =>
    obtain ⟨rfl, hout⟩ := hthrow rfl
    exact h.store hf rfl rfl ⟨⟨by simp, fun _ => hout⟩, ⟨by simp, by simp⟩, by simp⟩
  | yieldToReady | yieldToHold =>
    refine h.store hf rfl (if_pos hexec) ⟨⟨fun _ => hsafe.running hexec, by simp⟩, ?_, by simp⟩
    cases branch with
    | fiber => exact ⟨by simp, by simp⟩
    | cb => exact ⟨by simp, by simp, by simp⟩

theorem idle_sound (h : s.Sound) (hk : s.Formed) (hpc : (s.workers w).pc = .nothing) : (s.idle w).Sound := by
  have hnone : (s.workers w).engaged = none := by simp [Worker.engaged, hpc]
  unfold idle
  split
  · exact ⟨h.failed, h.lease.away hnone rfl⟩
  · split
    · exact ⟨h.failed, h.lease.away hnone rfl⟩
    · rename_i hexec
      have := hk.idle w (not_not.mp hexec)
      rw [hpc] at this
      cases this

/-- Other code changes a fiber but not its state. -/
theorem Sound.flags (h : s.Sound) {fiber : Fiber} (hstate : fiber.state = (s.heap f).state)
    (hcur : fiber.cur = (s.heap f).cur)
    (hout : fiber.state = .except → (s.heap f).outside = true → fiber.outside = true) :
    (s.setFiber f fiber).Sound := by
  have hkept : (s.heap f).Kept → fiber.Kept := fun hk =>
    ⟨fun hs => hcur.trans (hk.cur (hstate ▸ hs)), fun hs => hout hs (hk.outside (hstate ▸ hs))⟩
  refine ⟨h.failed, h.lease.setFiber (fun v _ hsafe => ⟨hkept hsafe.kept, ?_, ?_⟩) fun hp => ⟨hkept hp.kept, ?_⟩⟩
  · exact hstate ▸ hsafe.expects
  · exact fun hs => hcur.trans (hsafe.running (hstate ▸ hs))
  · exact hstate ▸ hp.state

/-- A fiber without an owner is destroyed without a failed assertion. -/
theorem destroy_ok (h : s.Sound) (hown : ¬ s.Owned f) :
    (s.heap f).destroy = .ok { s.heap f with destroyed := true } := by
  have hp : (s.heap f).Parked := Lease.Leased.free h.lease fun v hv => hown (.inr (.inr (.inr ⟨v, .inl hv⟩)))
  have hcur : ¬ ((s.heap f).state = .hold ∨ (s.heap f).state = .ready) := fun hs => hown (.inr (.inl (hp.kept.cur hs)))
  have hout : (s.heap f).state ≠ .except := fun hs => hown (.inl (hp.kept.outside hs))
  rw [Fiber.destroy, if_pos]
  cases hstate : (s.heap f).state with
  | init => exact .inl rfl
  | term => exact .inr rfl
  | hold => exact absurd (.inl hstate) hcur
  | ready => exact absurd (.inr hstate) hcur
  | exec => exact absurd hstate hp.state
  | except => exact absurd hstate hout

theorem sound_step (h : s.Sound) (hk : s.Formed) {a : Label n} (hok : s.Survives a) (hst : s.step a = some t) :
    t.Sound := by
  cases step_cases hst with
  | scan hpc => exact scan_sound h hpc hok
  | branch hpc => exact branch_sound h hk hpc
  | proceed hpc ht => exact proceed_sound h hpc ht
  | idle hpc => exact idle_sound h hk hpc
  | outcome hpc ho => exact outcome_sound h hpc hok
  | idleOutcome hpc => exact ⟨h.failed, h.lease.away (by simp [Worker.engaged, hpc]) rfl⟩
  | newFiber =>
    refine ⟨h.failed, h.lease.setFiber (fun v hv => ?_) fun _ => Fiber.parked_of_init rfl⟩
    exact absurd (hk.workers v _ (.inl hv)) (Nat.lt_irrefl _)
  | keep hpc => exact h.flags rfl rfl fun _ _ => rfl
  | @release f => exact h.flags rfl rfl fun hs => absurd hs (hok.releases f rfl)
  | scheduleFiber | scheduleCb => exact ⟨h.failed, h.lease⟩
  | destroy hf hlive hown hd =>
    obtain rfl := Except.ok.inj ((destroy_ok h hown).symm.trans hd)
    exact h.flags rfl rfl fun _ ho => ho
  | destructor hf hlive hown hd => cases (destroy_ok h hown).symm.trans hd

theorem sound_reachable (h : (schedSys n).ReachableWhen Survives s) : s.Sound := by
  refine h.invariant_of_reachable ?_ ?_
  · intro s hs
    subst hs
    refine ⟨rfl, ⟨?_, ?_, ?_⟩⟩
    · intro v w f hv
      cases hv
    · intro v f hv
      cases hv
    · intro f _
      exact Fiber.parked_of_init rfl
  · intro s a t hs hI hok hst
    simp only [schedSys] at hst
    split at hst
    · exact sound_step hI (formed_reachable hs) hok hst
    · cases hst

/-! ## The way back to the scan -/

/-- A step of a thread that is not at the scan takes no task. -/
theorem survives_advance {phase : Phase} {branch : Branch} (hpc : (s.workers w).pc = .on phase branch f) :
    s.Survives (.advance w) := by
  have htake : s.taking (.advance w) = none := by simp [taking, hpc]
  constructor
  · intro p hp
    rw [htake] at hp
    cases hp
  · intro p hp
    rw [htake] at hp
    cases hp
  · intro p hp
    cases hp
  · intro f hf
    cases hf

/-- A thread that is back from a task is done with it in one step, or one phase further. -/
theorem proceed_rank (h : s.Sound) {phase : Phase} {branch : Branch} (hpc : (s.workers w).pc = .on phase branch f)
    (hrank : 0 < phase.rank) : ∃ t, s.proceed w branch f phase = some t ∧ ((t.workers w).pc = .scan ∨
      ∃ phase' branch', (t.workers w).pc = .on phase' branch' f ∧ 0 < phase'.rank ∧ phase'.rank < phase.rank) := by
  cases phase with
  | swapIn | running => cases hrank
  | swapOut => exact ⟨_, rfl, .inr ⟨.back, branch, by simp [store], by decide, by decide⟩⟩
  | back => exact ⟨_, rfl, .inr ⟨.settle, branch, by simp, by decide, by decide⟩⟩
  | settle =>
    refine ⟨_, rfl, ?_⟩
    cases (s.heap f).state with
    | ready => exact .inr ⟨.schedule, branch, by simp [Pc.afterSwapIn], by decide, by decide⟩
    | init | hold | exec => exact .inr ⟨.hold, branch, by simp [Pc.afterSwapIn], by decide, by decide⟩
    | term | except =>
      cases branch with
      | fiber => exact .inl (by simp [Pc.afterSwapIn])
      | cb => exact .inr ⟨.resetNull, .cb, by simp [Pc.afterSwapIn], by decide, by decide⟩
  | schedule => exact ⟨_, rfl, .inl (by simp)⟩
  | hold => exact ⟨_, rfl, .inl (by simp)⟩
  | resetNull =>
    have hsafe : (s.workers w).pc.Safe (s.heap f) := Lease.Leased.held h.lease (engaged_on hpc)
    rw [hpc] at hsafe
    refine ⟨_, rfl, .inl ?_⟩
    rw [(s.heap f).reset_ok (.inl hsafe.expects)]
    simp [store]

/-- At the scan, the next entry that is not skipped is taken. -/
theorem goesOn_scan (h : s.Sound) (hpc : (s.workers w).pc = .scan) : s.GoesOn w := by
  refine ⟨0, s, rfl, h.failed, hpc, fun ft hft => ⟨s.scan w, ?_, ?_⟩⟩
  · simp [schedSys, h.failed, step, advance, hpc]
  · simp [scan, hft]

/-- One more step of the thread. -/
theorem GoesOn.step (hst : (schedSys n).step s (.advance w) = some t) (h : t.GoesOn w) : s.GoesOn w := by
  obtain ⟨k, u, hu, h⟩ := h
  refine ⟨k + 1, u, ?_, h⟩
  simpa [List.replicate_succ, Transition.Sys.exec, hst] using hu

theorem goesOn_of_rank {s : Scheduler n} {phase : Phase} {branch : Branch}
    (h : (schedSys n).ReachableWhen Survives s) (hpc : (s.workers w).pc = .on phase branch f)
    (hrank : 0 < phase.rank) : s.GoesOn w := by
  obtain ⟨t, ht, hnext⟩ := proceed_rank (sound_reachable h) hpc hrank
  have hst : (schedSys n).step s (.advance w) = some t := by
    simp [schedSys, (sound_reachable h).failed, Scheduler.step, advance, hpc, ht]
  have hreach := h.tail (.advance w) (survives_advance hpc) hst
  rcases hnext with hscan | ⟨phase', branch', hpc', hrank', hlt⟩
  · exact (goesOn_scan (sound_reachable hreach) hscan).step hst
  · exact (goesOn_of_rank hreach hpc' hrank').step hst
termination_by phase.rank

/-! ## The property -/

/-- In runs of steps that `Survives` allows no assertion of `Fiber` fails, and a thread that is back from a task,
whatever its outcome, goes on to the next one. -/
theorem throw_survives {n : Nat} {s : Scheduler n} (h : (schedSys n).ReachableWhen Survives s) :
    s.failed = none ∧ ∀ w phase branch f, (s.workers w).pc = .on phase branch f → phase ≠ .swapIn →
      phase ≠ .running → s.GoesOn w := by
  refine ⟨(sound_reachable h).failed, fun w phase branch f hpc hswap hrun => ?_⟩
  refine goesOn_of_rank h hpc ?_
  cases phase with
  | swapIn => exact absurd rfl hswap
  | running => exact absurd rfl hrun
  | swapOut | back | settle | schedule | hold | resetNull => decide

/-- The code of a fiber throws, and the thread goes on. -/
theorem throw_survives_fiber : ∃ s : Scheduler 1, s.failed = none ∧ (s.heap 0).state = .except ∧ s.GoesOn 0 := by
  obtain ⟨s, hs, hp⟩ := Transition.Sys.reachableWhen_of_exec (S := schedSys 1) Survives (.new 1) rfl
    [.newFiber 0, .scheduleFiber 0 none, .advance 0, .advance 0, .advance 0, .outcome 0 .throwsOther]
    (p := fun s => decide ((s.heap 0).state = .except ∧ (s.workers 0).pc = .on .swapOut .fiber 0)) rfl
  obtain ⟨hstate, hpc⟩ := of_decide_eq_true hp
  obtain ⟨hfailed, hon⟩ := throw_survives hs
  exact ⟨s, hfailed, hstate, hon 0 .swapOut .fiber 0 hpc nofun nofun⟩

/-- One thread is enough: a callback throws, or a fiber throws and loses its last pointer. -/
theorem throw_survives_fails :
    (∃ s, (schedSys 1).Reachable s ∧ s.failed = some .reset) ∧
    (∃ s, (schedSys 1).Reachable s ∧ s.failed = some .destructor) ∧
    ¬ ∀ n, ∀ s : Scheduler n, (schedSys n).Reachable s → s.failed = none := by
  have hthrow : ∃ s, (schedSys 1).Reachable s ∧ s.failed = some .reset := by
    obtain ⟨s, hs, hp⟩ := Transition.Sys.reachable_of_exec (S := schedSys 1) (.new 1) rfl
      [.scheduleCb 0 none, .advance 0, .advance 0, .advance 0, .outcome 0 .throwsException, .advance 0, .advance 0,
        .advance 0, .advance 0] (p := fun s => decide (s.failed = some .reset)) rfl
    exact ⟨s, hs, of_decide_eq_true hp⟩
  refine ⟨hthrow, ?_, fun h => ?_⟩
  · obtain ⟨s, hs, hp⟩ := Transition.Sys.reachable_of_exec (S := schedSys 1) (.new 1) rfl
      [.newFiber 0, .scheduleFiber 0 none, .release 0, .advance 0, .advance 0, .advance 0, .outcome 0 .throwsOther,
        .advance 0, .advance 0, .advance 0, .destroy 0] (p := fun s => decide (s.failed = some .destructor))
      rfl
    exact ⟨s, hs, of_decide_eq_true hp⟩
  · obtain ⟨s, hs, hfailed⟩ := hthrow
    exact nomatch (h 1 s hs).symm.trans hfailed

end Scheduler

end Megalo
