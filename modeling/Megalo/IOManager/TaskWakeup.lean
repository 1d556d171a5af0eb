import Megalo.IOManager.LoopMoves

/-!
# Wake-ups for tasks

- `NoTaskLost`: while a thread is blocked in `epoll_wait` and `m_fibers` holds an entry that it could take, the thread
  is being notified (`Notified`): there is a byte in the pipe, or a thread owes a call of `tickle`, or one is on its way
  to scan `m_fibers`;
- this fails (`no_task_lost_fails`): a `tickle` between the scan of a thread and its `++m_idleThreadCount` is dropped;
- it holds in runs without such a step, and without a push that calls no `tickle` while nobody is notified
  (`KeepsTasks`, `no_task_lost`). `Served` is what their steps keep, of every thread between its scan and the return of
  `epoll_wait`: an entry that a scan leaves behind is answered by the call of `tickle` that this scan asks for, and one
  that no scan could take before by the thread that has just switched from its fiber.
-/

namespace Megalo

/-- A thread that is on its way to scan `m_fibers`. -/
def Pc.toScan : Pc → Bool
  | .scan | .on .swapOut _ _ | .on .back _ _ | .on .settle _ _ | .on .schedule _ _ | .on .hold _ _
  | .on .resetNull _ _ => true
  | _ => false

/-- An idle fiber that has come back from `epoll_wait` and is on its way to hand its thread back. -/
def IdlePc.awake : IdlePc → Bool
  | .woken _ | .expired _ _ | .events _ | .leave => true
  | _ => false

namespace IOLoop

variable {n : Nat} {s t : IOLoop n} {w v : Fin n}

/-- The thread is on its way to scan `m_fibers`. -/
def TowardsScan (s : IOLoop n) (w : Fin n) : Prop :=
  (s.sched.workers w).pc.toScan = true ∨ (s.sched.workers w).pc = .idling ∧ (s.idler w).awake = true

instance (s : IOLoop n) (w : Fin n) : Decidable (s.TowardsScan w) := inferInstanceAs (Decidable (_ ∨ _ ∧ _))

/-- The thread is between a scan that found nothing and the return of `epoll_wait`. -/
def Asleep (s : IOLoop n) (w : Fin n) : Prop :=
  (s.sched.workers w).pc = .nothing ∨ (s.sched.workers w).pc = .idling ∧ (s.idler w).awake = false

instance (s : IOLoop n) (w : Fin n) : Decidable (s.Asleep w) := inferInstanceAs (Decidable (_ ∨ _ ∧ _))

/-- A scan of the thread would take an entry. -/
def CanTake (s : IOLoop n) (w : Fin n) : Prop := ∃ ft ∈ s.sched.fibers, s.sched.takes w ft = true

instance (s : IOLoop n) (w : Fin n) : Decidable (s.CanTake w) := inferInstanceAs (Decidable (∃ ft ∈ _, _ = true))

/-- A byte is unread, or a thread is between its push or its scan and the call of `tickle` that this asks for, or one is
on its way to scan `m_fibers`. -/
def Notified (s : IOLoop n) : Prop := 0 < s.pipe ∨ 0 < s.scheduling ∨ ∃ u, s.owes u = true ∨ s.TowardsScan u

instance (s : IOLoop n) : Decidable s.Notified := inferInstanceAs (Decidable (_ ∨ _ ∨ _))

/-- A thread that is blocked while there is a task for it is being notified. -/
def NoTaskLost (s : IOLoop n) : Prop := ∀ w d, s.idler w = .blocked d → s.CanTake w → s.Notified

/-- No thread with a task for it is between the scan that missed it and `++m_idleThreadCount`. -/
def NoneEntering (s : IOLoop n) : Prop := ∀ w, (s.sched.workers w).pc = .nothing → ¬ s.CanTake w

instance (s : IOLoop n) : Decidable s.NoneEntering := inferInstanceAs (Decidable (∀ _, _ → ¬ _))

/-- The step does not lose a task: a push of other code that finds entries in `m_fibers`, and so calls no `tickle`, is
made while someone is being notified, or for no thread that sleeps; and a call of `tickle` that `m_idleThreadCount`
drops is made while someone else is being notified, or while no thread is about to be counted. -/
def KeepsTasks (s : IOLoop n) : Label n → Prop
  | .sched a =>
    ∀ ft ∈ a.pushes, s.sched.fibers.isEmpty = true ∨ s.Notified ∨ ∀ w, s.Asleep w → s.sched.takes w ft = false
  | .tickle w => s.idleThreadCount ≠ 0 ∨ (s.owe w false).Notified ∨ s.NoneEntering
  | .tickleScheduled =>
    s.idleThreadCount ≠ 0 ∨ ({ s with scheduling := s.scheduling - 1 } : IOLoop n).Notified ∨ s.NoneEntering
  | _ => True

instance (s : IOLoop n) : DecidablePred (KeepsTasks s)
  | .sched a => inferInstanceAs (Decidable (∀ ft ∈ a.pushes, _ ∨ _ ∨ ∀ w, s.Asleep w → s.sched.takes w ft = false))
  | .tickle _ => inferInstanceAs (Decidable (_ ∨ _ ∨ _))
  | .tickleScheduled => inferInstanceAs (Decidable (_ ∨ _ ∨ _))
  | .tickleInserted | .tickleStop | .idle _ _ _ | .wake _ _ | .interrupt _ _ | .trigger _ _ | .timer _ | .addEvent
  | .removeEvent | .setAutoStop | .setStopping | .evaluate _ => .isTrue trivial

/-! ## The scan -/

/-- A scan that does not ask for a call of `tickle` leaves no entry that a thread could take. -/
theorem scan_leaves {s : Scheduler n} (h : s.tickleMe w = false) {ft : FiberAndThread} (hft : ft ∈ (s.scan w).fibers)
    (v : Fin n) : s.takes v ft = false := by
  rw [Scheduler.tickleMe, Bool.or_eq_false_iff, decide_eq_false_iff_not, Nat.not_lt] at h
  obtain ⟨hskipped, hlast⟩ := h
  -- what is left lies before the place where the scan ended
  have hbefore : ft ∈ s.fibers.take (s.fibers.findIdx (s.takes w)) := by
    unfold Scheduler.scan at hft
    split at hft
    · rename_i ft' hnext
      obtain ⟨-, -, herase⟩ := Scheduler.find?_findIdx hnext
      simp only [herase] at hft
      rw [List.eraseIdx_eq_take_drop_succ, List.drop_eq_nil_of_le hlast, List.append_nil] at hft
      exact hft
    · rename_i hnext
      have hend : s.fibers.findIdx (s.takes w) = s.fibers.length :=
        List.findIdx_eq_length.mpr fun ft' hft' =>
        Bool.eq_false_iff.mpr (List.find?_eq_none.mp hnext ft' hft')
      rw [hend, List.take_length]
      exact hft
  have hthread : ft.thread.any (· ≠ w.val) = false := by
    rw [List.any_eq_false] at hskipped
    simpa using hskipped ft hbefore
  have hnot : s.takes w ft = false := by
    obtain ⟨i, hi, hget⟩ := List.mem_iff_getElem.mp hbefore
    rw [List.length_take] at hi
    rw [← hget, List.getElem_take]
    simpa using List.not_of_lt_findIdx (Nat.lt_of_lt_of_le hi (Nat.min_le_left ..))
  -- it was not skipped for its thread, so its fiber is `EXEC`
  cases hth : ft.thread with
  | none => simpa [Scheduler.takes, hth] using hnot
  | some k =>
    have hk : k = w.val := by simpa [hth] using hthread
    simp only [Scheduler.takes, hth, Option.all_some, hk, decide_true, Bool.true_and] at hnot
    simp only [Scheduler.takes, hnot, Bool.and_false]

/-! ## What a step keeps -/

/-- Every thread that sleeps while there is a task for it is being notified. -/
def Served (s : IOLoop n) : Prop := ∀ w, s.Asleep w → s.CanTake w → s.Notified

theorem Notified.scan (h : s.TowardsScan w) : s.Notified := .inr (.inr ⟨w, .inr h⟩)

theorem Asleep.congr (h : s.Asleep w) (hpc : (t.sched.workers w).pc = (s.sched.workers w).pc)
    (hidler : t.idler w = s.idler w) : t.Asleep w := by
  rwa [Asleep, hpc, hidler]

theorem TowardsScan.congr (h : s.TowardsScan w) (hpc : (t.sched.workers w).pc = (s.sched.workers w).pc)
    (hidler : t.idler w = s.idler w) : t.TowardsScan w := by
  rwa [TowardsScan, hpc, hidler]

theorem takes_congr {s t : Scheduler n} {ft : FiberAndThread}
    (hstate : ∀ f, ft.task = .fiber f → (t.heap f).state = (s.heap f).state) : t.takes w ft = s.takes w ft := by
  unfold Scheduler.takes
  cases htask : ft.task with
  | fiber f => simp only [hstate f htask]
  | cb c => rfl

/-- Threads are asleep and notified as before, and there are no more tasks for them. -/
theorem Served.congr (h : s.Served) (hasleep : ∀ v, t.Asleep v → s.Asleep v)
    (htake : ∀ v, t.Asleep v → t.CanTake v → s.CanTake v) (hnotified : s.Notified → t.Notified) : t.Served :=
  fun v hv hcan => hnotified (h v (hasleep v hv) (htake v hv hcan))

/-- Nothing that it is about changes but the pipe, which has no fewer bytes. -/
theorem Served.frame (h : s.Served) (hsched : t.sched = s.sched) (hidler : t.idler = s.idler) (howes : t.owes = s.owes)
    (hscheduling : t.scheduling = s.scheduling) (hpipe : s.pipe ≤ t.pipe) : t.Served := by
  refine h.congr (fun v hv => ?_) (fun v _ hcan => ?_) fun hn => ?_
  · exact hv.congr (by rw [hsched]) (by rw [hidler])
  · rwa [CanTake, hsched] at hcan
  · rcases hn with hn | hn | ⟨u, hu⟩
    · exact .inl (Nat.lt_of_lt_of_le hn hpipe)
    · exact .inr (.inl (hscheduling ▸ hn))
    · refine .inr (.inr ⟨u, ?_⟩)
      rw [howes]
      exact hu.imp_right fun hscan => hscan.congr (by rw [hsched]) (by rw [hidler])

/-- An idle fiber that has not come back from `epoll_wait` goes on. -/
theorem Served.sleeps (h : s.Served) {pc : IdlePc} (hpc : (s.sched.workers w).pc = .idling)
    (hsched : t.sched = s.sched) (hidler : t.idler = Function.update s.idler w pc) (howes : t.owes = s.owes)
    (hscheduling : t.scheduling = s.scheduling) (hpipe : t.pipe = s.pipe) (hold : (s.idler w).awake = false) :
    t.Served := by
  have hother : ∀ v, v ≠ w → t.idler v = s.idler v := fun v hv => by rw [hidler, Function.update_of_ne hv]
  refine h.congr (fun v hv => ?_) (fun v _ hcan => ?_) fun hn => ?_
  · by_cases hvw : v = w
    · rw [hvw]
      exact .inr ⟨hpc, hold⟩
    · exact hv.congr (by rw [hsched]) (hother v hvw).symm
  · rwa [CanTake, hsched] at hcan
  · rcases hn with hn | hn | ⟨u, hu⟩
    · exact .inl (hpipe ▸ hn)
    · exact .inr (.inl (hscheduling ▸ hn))
    · refine .inr (.inr ⟨u, ?_⟩)
      rw [howes]
      refine hu.imp_right fun hscan => ?_
      by_cases huw : u = w
      · rw [huw, TowardsScan, hpc, hold] at hscan
        rcases hscan with hscan | ⟨-, hscan⟩ <;> cases hscan
      · exact hscan.congr (by rw [hsched]) (hother u huw)

/-- Where a turn of a thread leads: towards the scan, or from a task it has taken to the fiber that runs it. -/
theorem goes_cases {count f : Nat} {pc pc' : Pc} {x y : FiberState} (h : Pc.Goes count f pc x pc' y) :
    pc'.toScan = true ∨ pc.toScan = false ∧ pc ≠ .idling ∧ pc' ≠ .nothing ∧ pc' ≠ .idling ∧
      (y ≠ .exec → x ≠ .exec ∨ f = count) := by
  cases h with
  | run => exact .inr ⟨rfl, nofun, nofun, nofun, fun hy => .inl hy⟩
  | reset _ _ hx => exact .inr ⟨rfl, nofun, nofun, nofun, fun _ => .inl hx⟩
  | make => exact .inr ⟨rfl, nofun, nofun, nofun, fun _ => .inr rfl⟩
  | swapIn => exact .inr ⟨rfl, nofun, nofun, nofun, fun hy => absurd rfl hy⟩
  | skip | leave | swapOut | back | hold | resetNull => exact .inl rfl
  | settle b f =>
    refine .inl ?_
    cases x with
    | ready | init | hold | exec => rfl
    | term | except => cases b <;> rfl

/-- A turn of a thread: what becomes a task for someone is the fiber of a thread that goes towards the scan. -/
theorem Served.turn (h : s.Served) (hf : s.sched.Formed) {a : Scheduler.Label n} {sched : Scheduler n}
    (hfibers : sched.fibers = s.sched.fibers) (hturn : s.sched.Turn a sched) :
    ({ s with sched } : IOLoop n).Served := by
  cases hturn with
  | still hworkers hstate hnew =>
    have hpc : ∀ v, (sched.workers v).pc = (s.sched.workers v).pc := fun v => by rw [hworkers]
    refine h.congr (fun v hv => ?_) (fun v _ hcan => ?_) fun hn => ?_
    · exact hv.congr (hpc v).symm rfl
    · obtain ⟨ft, hft, htakes⟩ := hcan
      simp only [hfibers] at hft
      refine ⟨ft, hft, ?_⟩
      rwa [← takes_congr fun f htask => hstate f (Nat.ne_of_lt (hf.queued ft hft f htask))]
    · refine hn.imp_right (Or.imp_right fun ⟨u, hu⟩ => ⟨u, hu.imp_right fun hscan => ?_⟩)
      exact hscan.congr (hpc u) rfl
  | goes w f _ hpc hstate hgoes =>
    rcases goes_cases hgoes with hscan | ⟨hscan, hidling, hnothing', hidling', hexec⟩
    · exact fun v _ _ => .scan (w := w) (.inl hscan)
    · have hne : ∀ v, ({ s with sched } : IOLoop n).Asleep v → v ≠ w := by
        rintro v (hv | ⟨hv, -⟩) rfl
        · exact hnothing' hv
        · exact hidling' hv
      refine h.congr (fun v hv => ?_) (fun v _ hcan => ?_) fun hn => ?_
      · exact hv.congr (hpc v (hne v hv)).symm rfl
      · obtain ⟨ft, hft, htakes⟩ := hcan
        simp only [hfibers] at hft
        refine ⟨ft, hft, ?_⟩
        by_cases htask : ft.task = .fiber f
        · simp only [Scheduler.takes, htask, Bool.and_eq_true, decide_eq_true_eq] at htakes ⊢
          exact ⟨htakes.1, (hexec htakes.2).resolve_right (Nat.ne_of_lt (hf.queued ft hft f htask))⟩
        · rwa [← takes_congr fun g hg => hstate g fun e => htask (e ▸ hg)]
      · refine hn.imp_right (Or.imp_right fun ⟨u, hu⟩ => ⟨u, hu.imp_right fun hu => ?_⟩)
        have huw : u ≠ w := by
          rintro rfl
          rcases hu with hu | ⟨hu, -⟩
          · rw [hscan] at hu
            cases hu
          · exact hidling hu
        exact hu.congr (hpc u huw) rfl

/-- The scan: it takes what it can, and asks for a call of `tickle` when it leaves what another thread could take. -/
theorem served_scan : (owe { s with sched := s.sched.scan w } w (s.sched.tickleMe w)).Served := by
  intro v _ hcan
  cases htickle : s.sched.tickleMe w with
  | true => exact .inr (.inr ⟨w, .inl (by rw [owe_owes, Function.update_self])⟩)
  | false =>
    obtain ⟨ft, hft, htakes⟩ := hcan
    have hleft := scan_leaves htickle hft v
    have hsame : (s.sched.scan w).takes v ft = s.sched.takes v ft := by
      refine takes_congr fun f _ => ?_
      unfold Scheduler.scan
      split <;> rfl
    rw [owe_sched, hsame, hleft] at htakes
    cases htakes

/-- A thread whose scan found nothing runs its idle fiber, or leaves the loop. -/
theorem Served.idles (h : s.Served) (hpc : (s.sched.workers w).pc = .nothing) {idleThreadCount : Nat} :
    ({ s with sched := s.sched.idle w, idleThreadCount } : IOLoop n).Served := by
  obtain ⟨hfibers, hheap, hothers, hw⟩ := Scheduler.idle_turn s.sched w
  refine h.congr (fun v hv => ?_) (fun v _ hcan => ?_) fun hn => ?_
  · by_cases hvw : v = w
    · rw [hvw]
      exact .inl hpc
    · exact hv.congr (by rw [hothers v hvw]) rfl
  · obtain ⟨ft, hft, htakes⟩ := hcan
    simp only [hfibers] at hft
    refine ⟨ft, hft, ?_⟩
    rwa [← takes_congr fun f _ => by rw [hheap]]
  · refine hn.imp_right (Or.imp_right fun ⟨u, hu⟩ => ⟨u, hu.imp_right fun hu => ?_⟩)
    have huw : u ≠ w := by
      rintro rfl
      rw [TowardsScan, hpc] at hu
      rcases hu with hu | ⟨hu, -⟩ <;> cases hu
    exact hu.congr (by rw [hothers u huw]) rfl

/-- A push of other code. -/
theorem Served.push (h : s.Served) {ft : FiberAndThread}
    (hok : s.sched.fibers.isEmpty = true ∨ s.Notified ∨ ∀ w, s.Asleep w → s.sched.takes w ft = false) :
    ({ s with
      sched := s.sched.schedule ft.task ft.thread
      scheduling := s.scheduling + if s.sched.fibers.isEmpty then 1 else 0 } : IOLoop n).Served := by
  have hkeep : s.Notified → ({ s with
      sched := s.sched.schedule ft.task ft.thread
      scheduling := s.scheduling + if s.sched.fibers.isEmpty then 1 else 0 } : IOLoop n).Notified :=
    Or.imp_right (Or.imp (fun hpos => Nat.lt_add_right _ hpos) fun ⟨u, hu⟩ =>
      ⟨u, hu.imp_right fun hscan => hscan.congr rfl rfl⟩)
  intro v hv hcan
  have hasleep : s.Asleep v := hv.congr rfl rfl
  rcases hok with hempty | hn | hnot
  · refine .inr (.inl ?_)
    simp only [hempty, if_true]
    exact Nat.succ_pos _
  · exact hkeep hn
  · obtain ⟨ft', hft', htakes⟩ := hcan
    rcases List.mem_append.mp hft' with hft' | hft'
    · exact hkeep (h v hasleep ⟨ft', hft', htakes⟩)
    · rw [List.mem_singleton.mp hft'] at htakes
      have htrue : s.sched.takes v ft = true := htakes
      rw [hnot v hasleep] at htrue
      cases htrue

/-- A call of `tickle`: it is not dropped while an idle fiber runs. -/
theorem Served.tickle (hf : s.Formed) (hok : s.idleThreadCount ≠ 0 ∨ t.Notified ∨ s.NoneEntering)
    (hsched : t.sched = s.sched) (hidler : t.idler = s.idler) (hpipe : t.pipe = s.tickle.pipe) : t.Served := by
  intro v hv hcan
  have hbyte : s.idleThreadCount ≠ 0 → t.Notified := fun hcount => by
    refine .inl ?_
    rw [hpipe, tickle_eq]
    simp only [hcount, if_false]
    exact Nat.succ_pos _
  rcases hok with hcount | hn | hnone
  · exact hbyte hcount
  · exact hn
  · have hasleep : s.Asleep v := hv.congr (by rw [hsched]) (by rw [hidler])
    rw [CanTake, hsched] at hcan
    rcases hasleep with hnothing | ⟨hidling, -⟩
    · exact absurd hcan (hnone v hnothing)
    · refine hbyte ?_
      have hcounted : (s.sched.workers v).isIdling = true := decide_eq_true hidling
      rw [hf.idle]
      exact Nat.ne_of_gt (Count.count_pos hcounted)

/-- A call of `tickle` that is dropped changes nothing. -/
theorem tickle_dropped (h : ¬ s.idleThreadCount ≠ 0) : s.tickle = s := if_pos (not_not.mp h)

/-- Every step that does not lose a task keeps it. -/
theorem served_move (hf : s.Formed) (h : s.Served) {a : Label n} (hok : s.KeepsTasks a) (hm : s.Move a t) :
    t.Served := by
  have hawake : ∀ {w : Fin n}, (t.sched.workers w).pc = .idling → (t.idler w).awake = true → t.Served :=
    fun hpc hidler _ _ _ => .scan (.inr ⟨hpc, hidler⟩)
  cases hm with
  | inner hinner hst =>
    obtain ⟨hfibers, hturn⟩ := Scheduler.step_turn hst hinner
    exact h.turn hf.sched hfibers hturn
  | scan => exact served_scan
  | @putBack w =>
    refine fun _ _ _ => .scan (w := w) (.inl ?_)
    simp only [owe_sched, Scheduler.goto_workers, Function.update_self]
    rfl
  | idles hpc => exact h.idles hpc
  | push hft => exact h.push (hok _ hft)
  | tickle | tickleScheduled =>
    refine .tickle hf ?_ (by simp [tickle_eq]) (by simp [tickle_eq]) (by simp [tickle_eq])
    by_cases hcount : s.idleThreadCount ≠ 0
    · exact .inl hcount
    · rw [tickle_dropped hcount]
      exact hok
  | tickleInserted | tickleStop =>
    exact h.frame (by simp [tickle_eq]) (by simp [tickle_eq]) (by simp [tickle_eq]) (by simp [tickle_eq])
      (by simp [tickle_eq])
  | asks hpc hidler => exact h.sleeps hpc rfl rfl rfl rfl rfl (by rw [hidler]; rfl)
  | reads hpc hidler hread | goesOn hpc hidler hread =>
    obtain ⟨mutex, rfl⟩ := hread.frame
    exact h.sleeps hpc rfl rfl rfl rfl rfl (by rw [hidler]; rfl)
  | @stops w | @swapsOut w =>
    refine fun _ _ _ => .scan (w := w) (.inl ?_)
    simp only [left, Scheduler.setWorker_workers, Function.update_self]
    rfl
  | blocks hpc hidler => exact h.sleeps hpc rfl rfl rfl rfl rfl (by rw [hidler]; rfl)
  | @waitsAgain w now wait hidler =>
    exact h.sleeps (hf.idler w (by simp [hidler])) rfl rfl rfl rfl rfl (by rw [hidler]; rfl)
  | @expires w | @noneExpired w | @drains w | @leaves w =>
    exact hawake (w := w) ‹_› (by rw [setIdler_idler, Function.update_self]; rfl)
  | @schedules w now key tickled cbs hpc =>
    obtain ⟨fts, heq, -⟩ := Scheduler.scheduleCbs_eq cbs s.sched
    refine hawake (w := w) ?_ (by rw [setIdler_idler, Function.update_self]; rfl)
    rw [setIdler_sched, owe_sched, heq]
    exact hpc
  | @polled w tickled _ hidler | @wakes w tickled _ _ hidler =>
    exact hawake (w := w) (hf.idler w (by simp [hidler]))
      (by rw [setIdler_idler, Function.update_self]; rfl)
  | @triggers w task tickled a hidler =>
    exact hawake (w := w) (hf.idler w (by simp [hidler])) (by rw [owe_idler, hidler]; rfl)
  | timer | addEvent | removeEvent | setAutoStop | setStopping | stopAsks =>
    exact h.frame rfl rfl rfl rfl (Nat.le_refl _)
  | stopReads hstopper hread =>
    obtain ⟨mutex, rfl⟩ := hread.frame
    exact h.frame rfl rfl rfl rfl (Nat.le_refl _)

/-- **No task is lost** in runs whose steps all keep tasks. -/
theorem no_task_lost {n : Nat} {s : IOLoop n} (h : (ioLoopSys n).ReachableWhen KeepsTasks s) : s.NoTaskLost := by
  have hserved : s.Served := by
    refine invariant_of_moves ?_ (fun s a t hf hI hok hm => served_move hf hI hok hm) h
    rintro mem now w - ⟨ft, hft, -⟩
    cases hft
  intro w d hidler hcan
  have hpc := (formed_reachable h.reachable).idler w (by simp [hidler])
  exact hserved w (.inr ⟨hpc, by rw [hidler]; rfl⟩) hcan

/-- A thread waits, and a callback is scheduled. -/
theorem no_task_lost_alone :
    ∃ s : IOLoop 1, s.NoTaskLost ∧ s.idler 0 = .blocked (.deadline 1100 1000) ∧ s.CanTake 0 := by
  obtain ⟨s, hs, htest⟩ := Transition.Sys.reachableWhen_of_exec (S := ioLoopSys 1) KeepsTasks
    (.new 1 (fun _ => Timer.ofNext 0) 0) ⟨_, _, rfl⟩
    [.sched (.advance 0), .sched (.advance 0), .idle 0 100 0, .idle 0 100 0, .idle 0 100 0, .idle 0 100 0,
      .sched (.scheduleCb 7 none)]
    (p := fun s => decide (s.idler 0 = .blocked (.deadline 1100 1000) ∧ s.CanTake 0)) rfl
  exact ⟨s, no_task_lost hs, of_decide_eq_true htest⟩

/-- A callback is scheduled behind the scan of the only thread. The call of `tickle` finds no idle thread, and the
thread goes on to wait. -/
theorem no_task_lost_fails : ¬ ∀ s : IOLoop 1, (ioLoopSys 1).Reachable s → s.NoTaskLost := by
  intro hall
  obtain ⟨s, hs, htest⟩ := Transition.Sys.reachable_of_exec (S := ioLoopSys 1)
    (.new 1 (fun _ => Timer.ofNext 0) 0) ⟨_, _, rfl⟩
    [.sched (.advance 0), .sched (.scheduleCb 7 none), .tickleScheduled, .sched (.advance 0), .idle 0 100 0,
      .idle 0 100 0, .idle 0 100 0, .idle 0 100 0]
    (p := fun s => decide (s.idler 0 = .blocked (.deadline 1100 1000) ∧ s.CanTake 0 ∧ ¬ s.Notified)) rfl
  obtain ⟨hblocked, hcan, hnot⟩ := of_decide_eq_true htest
  exact hnot (hall s hs 0 _ hblocked hcan)

end IOLoop

end Megalo
