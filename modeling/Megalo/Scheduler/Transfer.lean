import Megalo.Scheduler.Engaged

/-!
# What a step does to the tasks

- `transfer` is what a step does to the entries of `m_fibers`: one is put in, a thread takes one, starts the callback of
  the one it took, or is done with it;
- `step_effect` is what it does to `m_fibers`, to `m_activeThreadCount` and to where the threads are, and `step_idling`
  which threads are in their idle fiber.

`schedule` drops a task that is null: such a call is no step.
-/

namespace Megalo

/-- From the scan that takes an entry up to the decrement of `m_activeThreadCount` that belongs to it. -/
def Pc.holds : Pc → Bool
  | .taken _ | .on .swapIn _ _ | .on .running _ _ | .on .swapOut _ _ | .on .back _ _ => true
  | _ => false

/-- The thread has taken the fiber, or runs it, up to the end of its `swapOut`. -/
def Pc.runs (f : Nat) : Pc → Bool
  | .taken (.fiber g) | .on .swapIn _ g | .on .running _ g | .on .swapOut _ g => g = f
  | _ => false

theorem Pc.holds_of_runs {pc : Pc} {f : Nat} (h : pc.runs f = true) : pc.holds = true := by
  unfold Pc.runs at h
  split at h <;> first | rfl | cases h

namespace Scheduler

variable {n : Nat} {s t : Scheduler n} {w : Fin n}

/-! ## What a step does to the entries -/

/-- An entry is put in, a thread takes the one at a place of `m_fibers`, starts the callback of the one it took on a
fiber, or is done with the one it took. -/
inductive Transfer (n : Nat)
  | put (ft : FiberAndThread)
  | take (w : Fin n) (i : Nat)
  | start (w : Fin n) (f : Nat)
  | finish (w : Fin n)
  | none

/-- What the step does to the entries. -/
def transfer (s : Scheduler n) : Label n → Transfer n
  | .advance w =>
    match (s.workers w).pc with
    | .scan => if (s.next w).isSome then .take w (s.fibers.findIdx (s.takes w)) else .none
    | .taken (.fiber f) =>
      if (s.heap f).state ≠ .term ∧ (s.heap f).state ≠ .except then .none else .finish w
    | .taken (.cb _) => .start w ((s.workers w).cbFiber.getD s.count)
    | .on .back _ _ => .finish w
    | .on .schedule _ f => .put { task := .fiber f, thread := none }
    | _ => .none
  | .scheduleFiber f thread => .put { task := .fiber f, thread }
  | .scheduleCb c thread => .put { task := .cb c, thread }
  | _ => .none

/-- No thread takes an entry or is done with one, and what a thread runs it ran before, or it starts it. -/
structure Steady (s : Scheduler n) (start : Option (Fin n × Nat)) (t : Scheduler n) : Prop where
  active : t.activeThreadCount = s.activeThreadCount
  holds : ∀ v, (t.workers v).pc.holds = (s.workers v).pc.holds
  taken : ∀ v task, (t.workers v).pc = .taken task → (s.workers v).pc = .taken task
  runs : ∀ v f, (t.workers v).pc.runs f = true → (s.workers v).pc.runs f = true ∨ start = some (v, f)

variable {start : Option (Fin n × Nat)}

/-- The threads stay where they are. -/
theorem Steady.still (hactive : t.activeThreadCount = s.activeThreadCount) (hworkers : t.workers = s.workers) :
    s.Steady start t :=
  ⟨hactive, fun _ => by rw [hworkers], fun _ _ h => by rwa [hworkers] at h, fun _ _ h => .inl (by rwa [hworkers] at h)⟩

/-- A thread goes on, and holds as much as before. -/
theorem Steady.turn {wk : Worker} (hactive : t.activeThreadCount = s.activeThreadCount)
    (hworkers : t.workers = Function.update s.workers w wk) (hholds : wk.pc.holds = (s.workers w).pc.holds)
    (htaken : ∀ task, wk.pc ≠ .taken task)
    (hruns : ∀ f, wk.pc.runs f = true → (s.workers w).pc.runs f = true ∨ start = some (w, f)) : s.Steady start t := by
  refine ⟨hactive, fun v => ?_, fun v task hv => ?_, fun v f hv => ?_⟩
  · rw [hworkers]
    by_cases hvw : v = w
    · subst hvw
      rw [Function.update_self, hholds]
    · rw [Function.update_of_ne hvw]
  · rw [hworkers] at hv
    by_cases hvw : v = w
    · subst hvw
      rw [Function.update_self] at hv
      exact absurd hv (htaken task)
    · rwa [Function.update_of_ne hvw] at hv
  · rw [hworkers] at hv
    by_cases hvw : v = w
    · subst hvw
      rw [Function.update_self] at hv
      exact hruns f hv
    · rw [Function.update_of_ne hvw] at hv
      exact .inl hv

/-- Storing the result of a call on a fiber, in a phase that holds as much as before. -/
theorem Steady.store {f : Nat} (pc : Pc) (hholds : pc.holds = (s.workers w).pc.holds)
    (htaken : ∀ task, pc ≠ .taken task)
    (hruns : ∀ f, pc.runs f = true → (s.workers w).pc.runs f = true ∨ start = some (w, f))
    (r : Except FiberAssertion Fiber) : s.Steady start (s.store w f pc r) := by
  cases r with
  | ok fiber => exact .turn (w := w) rfl rfl hholds htaken hruns
  | error a => exact .still rfl rfl

theorem store_fibers {f : Nat} {pc : Pc} {r : Except FiberAssertion Fiber} :
    (s.store w f pc r).fibers = s.fibers := by
  cases r <;> rfl

/-- What a step from `s` to `t` does, as the transfer says. -/
def Effect (s t : Scheduler n) : Transfer n → Prop
  | .put ft => t.fibers = s.fibers ++ [ft] ∧ s.Steady none t
  | .take w i => ∃ ft, s.fibers[i]? = some ft ∧ s.takes w ft = true ∧ t.fibers = s.fibers.eraseIdx i ∧
      t.activeThreadCount = s.activeThreadCount + 1 ∧ (s.workers w).pc.holds = false ∧
      t.workers = Function.update s.workers w { s.workers w with pc := .taken ft.task }
  | .finish w => t.fibers = s.fibers ∧ t.activeThreadCount = s.activeThreadCount - 1 ∧
      (s.workers w).pc.holds = true ∧ ∃ pc : Pc, pc.holds = false ∧
        t.workers = Function.update s.workers w { s.workers w with pc }
  | .start w f => (∃ c, (s.workers w).pc = .taken (.cb c)) ∧ t.fibers = s.fibers ∧ s.Steady (some (w, f)) t
  | .none => t.fibers = s.fibers ∧ s.Steady none t

/-- The first entry that satisfies `p` is at its place, and that is what `eraseP` erases. -/
theorem find?_findIdx {α : Type*} {p : α → Bool} {l : List α} {x : α} (h : l.find? p = some x) :
    p x = true ∧ l[l.findIdx p]? = some x ∧ l.eraseP p = l.eraseIdx (l.findIdx p) := by
  induction l with
  | nil => cases h
  | cons y l ih =>
    cases hy : p y with
    | true =>
      rw [List.find?_cons_of_pos hy] at h
      cases h
      simp [List.findIdx_cons, hy]
    | false =>
      rw [List.find?_cons_of_neg (by simp [hy])] at h
      obtain ⟨hx, hget, herase⟩ := ih h
      simp [List.findIdx_cons, hy, hx, hget, herase]

theorem scan_effect (hpc : (s.workers w).pc = .scan) : s.Effect (s.scan w) (s.transfer (.advance w)) := by
  cases hnext : s.next w with
  | some ft =>
    obtain ⟨hx, hget, herase⟩ := find?_findIdx hnext
    simp only [transfer, hpc, hnext, Option.isSome_some, if_true, scan]
    exact ⟨ft, hget, hx, herase, rfl, by rw [hpc]; rfl, rfl⟩
  | none =>
    simp only [transfer, hpc, hnext, Option.isSome_none, Bool.false_eq_true, if_false, scan]
    exact ⟨rfl, .turn (w := w) rfl rfl (by rw [hpc]; rfl) nofun nofun⟩

theorem branch_effect {task : Task Nat Nat} (hpc : (s.workers w).pc = .taken task) :
    s.Effect (s.branch w task) (s.transfer (.advance w)) := by
  have hholds : (s.workers w).pc.holds = true := by rw [hpc]; rfl
  cases task with
  | fiber f =>
    simp only [transfer, hpc, branch]
    split
    · exact ⟨rfl, .turn (w := w) rfl rfl hholds.symm (by simp) fun g hg => .inl (by rw [hpc]; exact hg)⟩
    · exact ⟨rfl, rfl, hholds, .scan, rfl, rfl⟩
  | cb c =>
    simp only [transfer, hpc, branch]
    cases hcb : (s.workers w).cbFiber with
    | some f =>
      have hstarts : ∀ g, (Pc.on .swapIn .cb f).runs g = true → some (w, f) = some (w, g) :=
        fun g hg => by rw [of_decide_eq_true hg]
      exact ⟨⟨c, hpc⟩, store_fibers, Steady.store (.on .swapIn .cb f) hholds.symm (by simp)
        (fun g hg => .inr (hstarts g hg)) _⟩
    | none =>
      have hstarts : ∀ g, (Pc.on .swapIn .cb s.count).runs g = true → some (w, s.count) = some (w, g) :=
        fun g hg => by rw [of_decide_eq_true hg]
      exact ⟨⟨c, hpc⟩, rfl, .turn (w := w) rfl rfl hholds.symm (by simp) fun g hg => .inr (hstarts g hg)⟩

theorem afterSwapIn_holds (branch : Branch) (f : Nat) (state : FiberState) :
    (Pc.afterSwapIn branch f state).holds = false ∧ ∀ task, Pc.afterSwapIn branch f state ≠ .taken task := by
  cases state with
  | ready | init | hold | exec => exact ⟨rfl, nofun⟩
  | term | except =>
    cases branch with
    | fiber => exact ⟨rfl, nofun⟩
    | cb => exact ⟨rfl, nofun⟩

theorem proceed_effect {branch : Branch} {phase : Phase} {f : Nat} (hpc : (s.workers w).pc = .on phase branch f)
    (ht : s.proceed w branch f phase = some t) : s.Effect t (s.transfer (.advance w)) := by
  cases phase with
  | running => cases ht
  | swapIn =>
    obtain rfl := Option.some.inj ht
    simp only [transfer, hpc]
    exact ⟨store_fibers, Steady.store (.on .running branch f) (by rw [hpc]; rfl) nofun
      (fun g hg => .inl (by rw [hpc]; exact hg)) _⟩
  | swapOut =>
    obtain rfl := Option.some.inj ht
    simp only [transfer, hpc]
    exact ⟨store_fibers, Steady.store (.on .back branch f) (by rw [hpc]; rfl) nofun nofun (.ok _)⟩
  | back =>
    obtain rfl := Option.some.inj ht
    simp only [transfer, hpc]
    exact ⟨rfl, rfl, by rw [hpc]; rfl, .on .settle branch f, rfl, rfl⟩
  | settle =>
    obtain rfl := Option.some.inj ht
    obtain ⟨hholds, htaken⟩ := afterSwapIn_holds branch f (s.heap f).state
    simp only [transfer, hpc]
    exact ⟨rfl, .turn (w := w) rfl rfl (by rw [hpc]; exact hholds) htaken fun g hg =>
      nomatch hholds.symm.trans (Pc.holds_of_runs hg)⟩
  | schedule =>
    obtain rfl := Option.some.inj ht
    simp only [transfer, hpc]
    exact ⟨rfl, .turn (w := w) rfl rfl (by rw [hpc]; rfl) nofun nofun⟩
  | hold =>
    obtain rfl := Option.some.inj ht
    simp only [transfer, hpc]
    exact ⟨rfl, .turn (w := w) rfl rfl (by rw [hpc]; rfl) nofun nofun⟩
  | resetNull =>
    obtain rfl := Option.some.inj ht
    simp only [transfer, hpc]
    exact ⟨store_fibers, Steady.store .scan (by rw [hpc]; rfl) nofun nofun _⟩

theorem idle_effect (hpc : (s.workers w).pc = .nothing) : s.Effect (s.idle w) (s.transfer (.advance w)) := by
  simp only [transfer, hpc, idle]
  split
  · exact ⟨rfl, .turn (w := w) rfl rfl (by rw [hpc]; rfl) nofun nofun⟩
  · split
    · exact ⟨rfl, .turn (w := w) rfl rfl (by rw [hpc]; rfl) nofun nofun⟩
    · exact ⟨rfl, .still rfl rfl⟩

/-- Every step does to `m_fibers`, the threads and `m_activeThreadCount` what its transfer says. -/
theorem step_effect {a : Label n} (hst : s.step a = some t) : s.Effect t (s.transfer a) := by
  cases step_cases hst with
  | scan hpc => exact scan_effect hpc
  | branch hpc => exact branch_effect hpc
  | proceed hpc ht => exact proceed_effect hpc ht
  | idle hpc => exact idle_effect hpc
  | outcome hpc ho =>
    exact ⟨store_fibers, Steady.store (.on .swapOut _ _) (by rw [hpc]; rfl) (by simp)
      (fun g hg => .inl (by rw [hpc]; exact hg)) _⟩
  | @idleOutcome w returns hpc =>
    exact ⟨rfl, .turn (w := w) rfl rfl (by rw [hpc]; rfl) (by simp) (by simp [Pc.runs])⟩
  | newFiber | keep | release | scheduleFiber | scheduleCb | destroy | destructor => exact ⟨rfl, .still rfl rfl⟩

/-! ## Threads in their idle fiber -/

/-- A thread that goes on from elsewhere than a scan that found nothing does not come to its idle fiber. -/
theorem advance_workers (hst : s.advance w = some t) (hpc : (s.workers w).pc ≠ .nothing) :
    (s.workers w).pc ≠ .idling ∧
      (t.workers = s.workers ∨ ∃ wk : Worker, t.workers = Function.update s.workers w wk ∧ wk.pc ≠ .idling) := by
  have hstore : ∀ {f : Nat} {pc : Pc} (r : Except FiberAssertion Fiber), pc ≠ .idling →
      ((s.store w f pc r).workers = s.workers ∨
        ∃ wk : Worker, (s.store w f pc r).workers = Function.update s.workers w wk ∧ wk.pc ≠ .idling) := by
    intro f pc r hne
    cases r with
    | ok fiber => exact .inr ⟨_, rfl, hne⟩
    | error a => exact .inl rfl
  simp only [advance] at hst
  split at hst
  · rename_i hscan
    obtain rfl := Option.some.inj hst
    refine ⟨by simp [hscan], .inr ?_⟩
    unfold scan
    split <;> exact ⟨_, rfl, by simp⟩
  · rename_i task htaken
    obtain rfl := Option.some.inj hst
    refine ⟨by simp [htaken], ?_⟩
    cases task with
    | fiber f =>
      simp only [branch]
      split <;> exact .inr ⟨_, rfl, by simp⟩
    | cb c =>
      simp only [branch]
      split
      · exact hstore _ (by simp)
      · exact .inr ⟨_, rfl, by simp⟩
  · rename_i phase branch f hon
    refine ⟨by simp [hon], ?_⟩
    cases phase with
    | running => cases hst
    | swapIn | swapOut | resetNull =>
      obtain rfl := Option.some.inj hst
      exact hstore _ (by simp)
    | back | schedule | hold =>
      obtain rfl := Option.some.inj hst
      exact .inr ⟨_, rfl, by simp⟩
    | settle =>
      obtain rfl := Option.some.inj hst
      refine .inr ⟨_, rfl, ?_⟩
      rcases Pc.afterSwapIn_cases branch f (s.heap f).state with he | ⟨p, b, he⟩
      · exact (by simp [he] : Pc.afterSwapIn branch f (s.heap f).state ≠ .idling)
      · exact (by simp [he] : Pc.afterSwapIn branch f (s.heap f).state ≠ .idling)
  · rename_i hnothing
    exact absurd hnothing hpc
  · cases hst
  · cases hst

/-- A step is not taken from a scan that found nothing, and not by an idle fiber. -/
def Label.Elsewhere (s : Scheduler n) : Label n → Prop
  | .advance w => (s.workers w).pc ≠ .nothing
  | .idleOutcome _ _ => False
  | _ => True

/-- Such a step leaves the threads that are in their idle fiber there, and lets no other one in. -/
theorem step_idling {a : Label n} (hst : s.step a = some t) (ha : a.Elsewhere s) (v : Fin n) :
    (t.workers v).pc = .idling ↔ (s.workers v).pc = .idling := by
  have hturn : ∀ {w : Fin n} {wk : Worker}, t.workers = Function.update s.workers w wk → wk.pc ≠ .idling →
      (s.workers w).pc ≠ .idling → ((t.workers v).pc = .idling ↔ (s.workers v).pc = .idling) := by
    intro w wk hworkers hwk hw
    rw [hworkers]
    by_cases hv : v = w
    · subst hv
      rw [Function.update_self]
      exact ⟨fun h => absurd h hwk, fun h => absurd h hw⟩
    · rw [Function.update_of_ne hv]
  cases a with
  | advance w =>
    obtain ⟨hw, hworkers | ⟨wk, hworkers, hwk⟩⟩ := advance_workers hst ha
    · rw [hworkers]
    · exact hturn hworkers hwk hw
  | idleOutcome w returns => exact ha.elim
  | outcome w o =>
    cases step_cases hst with
    | @outcome _ branch f _ hpc ho =>
      cases hr : (s.heap f).leave o with
      | ok fiber =>
        rw [hr] at hturn
        exact hturn rfl (by simp) (by simp [hpc])
      | error e => rfl
  | newFiber cb | keep w | release f | scheduleFiber f thread | scheduleCb c thread | destroy f =>
    cases step_cases hst <;> rfl

end Scheduler

end Megalo
