import Megalo.Scheduler.Transfer

/-!
# Tasks that are for one thread

- `affinitySys n` is `schedSys n` with the ways back into `m_fibers` that the hooks and `IOManager` use (`Reentry`), and
  with `Pins`, which keep the thread that a task was scheduled for where the code forgets it;
- `Affine`: a task that was given a thread is only run by that thread. This is so in runs whose steps all keep the
  thread (`KeepsThread`, `thread_affinity`): the thread is in the entry of `m_fibers` only, and no way back into
  `m_fibers` writes it there again, so one `YieldToReady` loses it (`thread_affinity_fails`).
-/

namespace Megalo

/-- The fiber of an entry. -/
def FiberAndThread.fiber? (ft : FiberAndThread) : Option Nat :=
  match ft.task with
  | .fiber f => some f
  | .cb _ => none

namespace Scheduler

/-- A step of the scheduler, or a way back into `m_fibers` for a fiber that has yielded to `HOLD`: `triggerEvent`
schedules `ctx.fiber`, and the timer of `sleep`, `usleep` or `nanosleep` schedules the fiber with thread `-1`. -/
inductive Reentry (n : Nat)
  | step (a : Label n)
  | triggerEvent (f : Nat)
  | sleepTimer (f : Nat)

/-- The step of the scheduler. -/
def Reentry.label {n : Nat} : Reentry n → Label n
  | .step a => a
  | .triggerEvent f => .scheduleFiber f none
  | .sleepTimer f => .scheduleFiber f none

/-- The thread that a fiber was scheduled for, or the callback that it runs, and the `thread` of the entry that a thread
has taken. -/
structure Pins (n : Nat) where
  fiber : Nat → Option Nat
  ft : Fin n → Option Nat

namespace Pins

variable {n : Nat}

/-- Nothing was scheduled. -/
def new : Pins n := { fiber := fun _ => none, ft := fun _ => none }

/-- The fiber gets a thread, or none. -/
def set (p : Pins n) (f : Nat) (pin : Option Nat) : Pins n := { p with fiber := Function.update p.fiber f pin }

theorem set_self (p : Pins n) (f : Nat) (pin : Option Nat) : (p.set f pin).fiber f = pin := Function.update_self ..

theorem set_of_ne (p : Pins n) {f g : Nat} (pin : Option Nat) (h : g ≠ f) : (p.set f pin).fiber g = p.fiber g :=
  Function.update_of_ne h ..

/-- The thread of an entry is that of its fiber, unless the fiber has one. -/
def put (p : Pins n) (ft : FiberAndThread) : Pins n :=
  match ft.fiber? with
  | some f => p.set f ((p.fiber f).or ft.thread)
  | none => p

/-- The step in the pins. -/
def record (p : Pins n) (s : Scheduler n) : Transfer n → Pins n
  | .put ft => p.put ft
  | .take w i => { p with ft := Function.update p.ft w (s.fibers[i]?.bind FiberAndThread.thread) }
  | .start w f => p.set f (p.ft w)
  | .finish _ | .none => p

end Pins

end Scheduler

open Scheduler

/-- `schedSys n`, with the ways back into `m_fibers` and the pins. -/
def affinitySys (n : Nat) : Transition.Sys (Scheduler n × Pins n) (Reentry n) where
  init p := p = (.new n, .new)
  step p a := ((schedSys n).step p.1 a.label).map fun t => (t, p.2.record p.1 (p.1.transfer a.label))

namespace Scheduler

variable {n : Nat} {s t : Scheduler n} {p : Pins n} {w : Fin n} {f k : Nat}

/-- A task that was given a thread is only run by that thread. -/
structure Affine (s : Scheduler n) (p : Pins n) : Prop where
  fibers : ∀ w f k, (s.workers w).pc.runs f = true → p.fiber f = some k → k = w.val
  callbacks : ∀ w c k, (s.workers w).pc = .taken (.cb c) → p.ft w = some k → k = w.val

/-- All entries of the fiber are for the thread, and no other thread runs it. -/
def AllFor (s : Scheduler n) (f k : Nat) : Prop :=
  (∀ ft ∈ s.fibers, ft.fiber? = some f → ft.thread = some k) ∧ ∀ v, (s.workers v).pc.runs f = true → k = v.val

instance (s : Scheduler n) (f k : Nat) : Decidable (s.AllFor f k) := inferInstanceAs (Decidable (_ ∧ _))

/-- The entry that a step puts into `m_fibers`. -/
def Transfer.entry : Transfer n → Option FiberAndThread
  | put ft => some ft
  | _ => Option.none

/-- The callback that a step starts: the thread and the fiber. -/
def Transfer.starting : Transfer n → Option (Fin n × Nat)
  | start w f => some (w, f)
  | _ => Option.none

/-- A fiber with a thread is put into `m_fibers` for that thread, and a fiber gets a thread, as one or for a callback,
when it is for no other thread. -/
structure KeepsThread (q : Scheduler n × Pins n) (a : Reentry n) : Prop where
  keeps : ∀ ft ∈ (q.1.transfer a.label).entry, ∀ f ∈ ft.fiber?, ∀ k ∈ q.2.fiber f, ft.thread = some k
  gets : ∀ ft ∈ (q.1.transfer a.label).entry, ∀ f ∈ ft.fiber?, q.2.fiber f = none →
    ∀ k ∈ ft.thread, q.1.AllFor f k
  starts : ∀ wf ∈ (q.1.transfer a.label).starting, ∀ k ∈ q.2.ft wf.1, q.1.AllFor wf.2 k

/-- The invariant: the entries of a fiber with a thread are for that thread as well. -/
structure Pinned (s : Scheduler n) (p : Pins n) : Prop where
  runs : ∀ w f k, (s.workers w).pc.runs f = true → p.fiber f = some k → k = w.val
  taken : ∀ w task k, (s.workers w).pc = .taken task → p.ft w = some k → k = w.val
  queued : ∀ ft ∈ s.fibers, ∀ f k, ft.fiber? = some f → p.fiber f = some k → ft.thread = some k

namespace Pinned

/-- Where no thread starts a fiber, the pins of the fibers that are run stay what they were. -/
theorem steady (h : s.Pinned p) (ht : s.Steady none t) (hfibers : t.fibers = s.fibers) : t.Pinned p where
  runs w f k hruns := by
    rcases ht.runs w f hruns with hold | hnew
    · exact h.runs w f k hold
    · cases hnew
  taken w task k hpc := h.taken w task k (ht.taken w task hpc)
  queued ft hft := h.queued ft (hfibers ▸ hft)

/-- One fiber gets a thread, or loses it: the others are as before. -/
theorem repin (h : s.Pinned p) {pin : Option Nat} (hpin : ∀ k, pin = some k → s.AllFor f k) :
    s.Pinned (p.set f pin) where
  runs w g k hruns hk := by
    by_cases hg : g = f
    · subst hg
      rw [Pins.set_self] at hk
      exact (hpin k hk).2 w hruns
    · rw [Pins.set_of_ne p pin hg] at hk
      exact h.runs w g k hruns hk
  taken := h.taken
  queued ft hft g k hfiber hk := by
    by_cases hg : g = f
    · subst hg
      rw [Pins.set_self] at hk
      exact (hpin k hk).1 ft hft hfiber
    · rw [Pins.set_of_ne p pin hg] at hk
      exact h.queued ft hft g k hfiber hk

/-- What is run and queued for a fiber with a thread is for that thread. -/
theorem allFor (h : s.Pinned p) (hk : p.fiber f = some k) : s.AllFor f k :=
  ⟨fun ft hft hfiber => h.queued ft hft f k hfiber hk, fun v hv => h.runs v f k hv hk⟩

theorem put (h : s.Pinned p) {ft : FiberAndThread} (hfibers : t.fibers = s.fibers ++ [ft]) (ht : s.Steady none t)
    (hkeeps : ∀ f ∈ ft.fiber?, ∀ k ∈ p.fiber f, ft.thread = some k)
    (hgets : ∀ f ∈ ft.fiber?, p.fiber f = none → ∀ k ∈ ft.thread, s.AllFor f k) : t.Pinned (p.put ft) := by
  have hpins : s.Pinned (p.put ft) := by
    cases hf : ft.fiber? with
    | none => rwa [Pins.put, hf]
    | some f =>
      simp only [Pins.put, hf]
      refine h.repin fun k hk => ?_
      cases hp : p.fiber f with
      | some k' =>
        rw [hp, Option.some_or] at hk
        cases hk
        exact h.allFor hp
      | none =>
        rw [hp, Option.none_or] at hk
        exact hgets f hf hp k hk
  refine ⟨fun w f k hruns => ?_, fun w task k hpc => hpins.taken w task k (ht.taken w task hpc), ?_⟩
  · rcases ht.runs w f hruns with hold | hnew
    · exact hpins.runs w f k hold
    · cases hnew
  · intro ft' hft' f k hfiber hk
    rw [hfibers] at hft'
    rcases List.mem_append.mp hft' with hold | hnew
    · exact hpins.queued ft' hold f k hfiber hk
    · obtain rfl := List.mem_singleton.mp hnew
      simp only [Pins.put, hfiber, Pins.set_self] at hk
      cases hp : p.fiber f with
      | some k' =>
        rw [hp, Option.some_or] at hk
        cases hk
        exact hkeeps f hfiber k hp
      | none =>
        rwa [hp, Option.none_or] at hk

theorem take (h : s.Pinned p) {i : Nat} {ft : FiberAndThread} (hi : s.fibers[i]? = some ft)
    (htakes : s.takes w ft = true) (hfibers : t.fibers = s.fibers.eraseIdx i)
    (hworkers : t.workers = Function.update s.workers w { s.workers w with pc := .taken ft.task }) :
    t.Pinned (p.record s (.take w i)) := by
  have hthread : ∀ k, ft.thread = some k → k = w.val := by
    intro k hk
    rw [takes, hk, Bool.and_eq_true] at htakes
    simpa using htakes.1
  constructor
  · intro v f k hruns hk
    rw [hworkers] at hruns
    by_cases hv : v = w
    · subst hv
      rw [Function.update_self] at hruns
      cases htask : ft.task with
      | fiber g =>
        rw [htask] at hruns
        obtain rfl : g = f := of_decide_eq_true hruns
        exact hthread k (h.queued ft (List.mem_of_getElem? hi) g k (by rw [FiberAndThread.fiber?, htask]) hk)
      | cb c =>
        rw [htask] at hruns
        cases hruns
    · rw [Function.update_of_ne hv] at hruns
      exact h.runs v f k hruns hk
  · intro v task k hpc hk
    rw [hworkers] at hpc
    simp only [Pins.record] at hk
    by_cases hv : v = w
    · subst hv
      rw [Function.update_self, hi] at hk
      exact hthread k hk
    · rw [Function.update_of_ne hv] at hpc hk
      exact h.taken v task k hpc hk
  · intro ft' hft' f k hfiber hk
    rw [hfibers] at hft'
    exact h.queued ft' (List.mem_of_mem_eraseIdx hft') f k hfiber hk

theorem finish (h : s.Pinned p) (hfibers : t.fibers = s.fibers) {pc : Pc} (hpc : pc.holds = false)
    (hworkers : t.workers = Function.update s.workers w { s.workers w with pc }) : t.Pinned p := by
  constructor
  · intro v f k hruns
    rw [hworkers] at hruns
    by_cases hv : v = w
    · subst hv
      rw [Function.update_self] at hruns
      exact nomatch hpc.symm.trans (Pc.holds_of_runs hruns)
    · rw [Function.update_of_ne hv] at hruns
      exact h.runs v f k hruns
  · intro v task k hv
    rw [hworkers] at hv
    by_cases hvw : v = w
    · subst hvw
      rw [Function.update_self] at hv
      have htaken : pc = .taken task := hv
      rw [htaken] at hpc
      cases hpc
    · rw [Function.update_of_ne hvw] at hv
      exact h.taken v task k hv
  · rw [hfibers]
    exact h.queued

theorem start (h : s.Pinned p) (hpc : ∃ c, (s.workers w).pc = .taken (.cb c)) (hfibers : t.fibers = s.fibers)
    (ht : s.Steady (some (w, f)) t) (hstarts : ∀ k ∈ p.ft w, s.AllFor f k) :
    t.Pinned (p.record s (.start w f)) := by
  have hpins : s.Pinned (p.record s (.start w f)) := h.repin hstarts
  refine ⟨fun v g k hruns hk => ?_, fun v task k hv => hpins.taken v task k (ht.taken v task hv), ?_⟩
  · rcases ht.runs v g hruns with hold | hnew
    · exact hpins.runs v g k hold hk
    · cases hnew
      obtain ⟨c, hpc⟩ := hpc
      rw [Pins.record, Pins.set_self] at hk
      exact h.taken w (.cb c) k hpc hk
  · rw [hfibers]
    exact hpins.queued

/-- A step that keeps the thread of every task keeps the invariant. -/
theorem step (h : s.Pinned p) {a : Reentry n} (hok : KeepsThread (s, p) a) (hst : s.step a.label = some t) :
    t.Pinned (p.record s (s.transfer a.label)) := by
  have heffect := step_effect hst
  obtain ⟨hkeeps, hgets, hstarts⟩ := hok
  simp only at hkeeps hgets hstarts
  cases htr : s.transfer a.label with
  | put ft =>
    rw [htr] at heffect hkeeps hgets
    exact h.put heffect.1 heffect.2 (hkeeps ft rfl) (hgets ft rfl)
  | take w i =>
    rw [htr] at heffect
    obtain ⟨ft, hi, htakes, hfibers, -, -, hworkers⟩ := heffect
    exact h.take hi htakes hfibers hworkers
  | start w f =>
    rw [htr] at heffect hstarts
    exact h.start heffect.1 heffect.2.1 heffect.2.2 (hstarts (w, f) rfl)
  | finish w =>
    rw [htr] at heffect
    obtain ⟨hfibers, -, -, pc, hpc, hworkers⟩ := heffect
    exact h.finish hfibers hpc hworkers
  | none =>
    rw [htr] at heffect
    exact h.steady heffect.2 heffect.1

end Pinned

/-- **Tasks stay on their thread.** In runs whose steps put a fiber with a thread into `m_fibers` for that thread only,
and give a thread to no fiber that is for another one, a task that was given a thread is only run by that thread. -/
theorem thread_affinity {n : Nat} {s : Scheduler n} {p : Pins n}
    (h : (affinitySys n).ReachableWhen KeepsThread (s, p)) : s.Affine p := by
  have hpinned : s.Pinned p := by
    refine h.invariant (I := fun q => q.1.Pinned q.2) ?_ ?_
    · rintro _ rfl
      constructor
      · intro w f k hruns
        cases hruns
      · intro w task k hpc
        cases hpc
      · intro ft hft
        cases hft
    · rintro ⟨s, p⟩ a ⟨t, p'⟩ hI hok hst
      obtain ⟨t', ht, he⟩ := Option.map_eq_some_iff.mp hst
      cases he
      simp only [schedSys] at ht
      split at ht
      · exact hI.step hok ht
      · cases ht
  exact ⟨hpinned.runs, fun w c k => hpinned.taken w (.cb c) k⟩

instance (q : Scheduler n × Pins n) (a : Reentry n) : Decidable (KeepsThread q a) :=
  decidable_of_iff
    ((∀ ft ∈ (q.1.transfer a.label).entry, ∀ f ∈ ft.fiber?, ∀ k ∈ q.2.fiber f, ft.thread = some k) ∧
      (∀ ft ∈ (q.1.transfer a.label).entry, ∀ f ∈ ft.fiber?, q.2.fiber f = none → ∀ k ∈ ft.thread, q.1.AllFor f k) ∧
      ∀ wf ∈ (q.1.transfer a.label).starting, ∀ k ∈ q.2.ft wf.1, q.1.AllFor wf.2 k)
    ⟨fun h => ⟨h.1, h.2.1, h.2.2⟩, fun h => ⟨h.keeps, h.gets, h.starts⟩⟩

/-- None of the ways back into `m_fibers` keeps the thread of a fiber that has one. -/
theorem not_keepsThread_reentry {q : Scheduler n × Pins n} (hpin : q.2.fiber f = some k) :
    ¬ KeepsThread q (.triggerEvent f) ∧ ¬ KeepsThread q (.sleepTimer f) ∧
      ∀ w branch, (q.1.workers w).pc = .on .schedule branch f → ¬ KeepsThread q (.step (.advance w)) := by
  have hlost : ∀ a, q.1.transfer (Reentry.label a) = .put { task := .fiber f, thread := none } → ¬ KeepsThread q a := by
    intro a ha hok
    have hentry : { task := .fiber f, thread := none } ∈ (q.1.transfer a.label).entry := by rw [ha]; rfl
    cases hok.keeps _ hentry f rfl k hpin
  refine ⟨hlost _ rfl, hlost _ rfl, fun w branch hpc => hlost _ ?_⟩
  simp only [Reentry.label, transfer, hpc]

/-- A fiber is scheduled for thread 1, which runs it; the other one has nothing. -/
theorem thread_affinity_kept : ∃ (s : Scheduler 2) (p : Pins 2),
    s.Affine p ∧ (s.workers 1).pc = .on .running .fiber 0 ∧ p.fiber 0 = some 1 := by
  obtain ⟨q, hq, htest⟩ := Transition.Sys.reachableWhen_of_exec (S := affinitySys 2) KeepsThread (.new 2, .new) rfl
    [.step (.newFiber 0), .step (.scheduleFiber 0 (some 1)), .step (.advance 0), .step (.advance 1),
      .step (.advance 1), .step (.advance 1)]
    (p := fun q => decide ((q.1.workers 1).pc = .on .running .fiber 0 ∧ q.2.fiber 0 = some 1)) rfl
  obtain ⟨hpc, hpin⟩ := of_decide_eq_true htest
  exact ⟨q.1, q.2, thread_affinity hq, hpc, hpin⟩

/-- The fiber yields to `READY`, and the other thread takes it. -/
theorem thread_affinity_fails :
    ¬ ∀ n, ∀ (s : Scheduler n) (p : Pins n), (affinitySys n).Reachable (s, p) → s.Affine p := by
  intro h
  obtain ⟨q, hq, htest⟩ := Transition.Sys.reachable_of_exec (S := affinitySys 2) (.new 2, .new) rfl
    [.step (.newFiber 0), .step (.scheduleFiber 0 (some 1)), .step (.advance 1), .step (.advance 1),
      .step (.advance 1), .step (.outcome 1 .yieldToReady), .step (.advance 1), .step (.advance 1),
      .step (.advance 1), .step (.advance 1), .step (.advance 0), .step (.advance 0), .step (.advance 0)]
    (p := fun q => decide ((q.1.workers 0).pc = .on .running .fiber 0 ∧ q.2.fiber 0 = some 1)) rfl
  obtain ⟨hpc, hpin⟩ := of_decide_eq_true htest
  have hruns : (q.1.workers 0).pc.runs 0 = true := by rw [hpc]; rfl
  exact absurd ((h 2 q.1 q.2 hq).fibers 0 0 1 hruns hpin) (by decide)

end Scheduler

end Megalo
