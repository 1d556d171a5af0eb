import Megalo.Lib.Ledger
import Megalo.Scheduler.Transfer

/-!
# Where a scheduled task is

- `tracedSys n` is `schedSys n` with a book of the entries of `m_fibers`: it takes the same steps and only writes them
  down (`traced_of_reachable`);
- `Conserved`: every entry that was ever scheduled is in one place, and `m_activeThreadCount` is the number of threads
  that hold one. This is so in every state of every run (`task_conservation`).
-/

namespace Megalo

open Ledger

namespace Scheduler

variable {n : Nat}

/-- The transfer in the book. -/
def Transfer.record (b : Book FiberAndThread (Fin n)) : Transfer n → Book FiberAndThread (Fin n)
  | .put ft => b.put ft
  | .take w i => b.take w i
  | .finish w => b.finish w
  | .start _ _ | .none => b

end Scheduler

/-- `schedSys n`, with a book of the entries. -/
def tracedSys (n : Nat) :
    Transition.Sys (Scheduler n × Book FiberAndThread (Fin n)) (Scheduler.Label n) where
  init p := p = (.new n, .new)
  step p a := ((schedSys n).step p.1 a).map fun t => (t, (p.1.transfer a).record p.2)

namespace Scheduler

variable {n : Nat} {s t : Scheduler n} {w : Fin n} {b : Book FiberAndThread (Fin n)} {start : Option (Fin n × Nat)}

/-- The book only writes down what happens: every run of the scheduler is one with a book. -/
theorem traced_of_reachable (h : (schedSys n).Reachable s) : ∃ b, (tracedSys n).Reachable (s, b) := by
  obtain ⟨s₀, h₀, hsteps⟩ := h
  induction hsteps with
  | refl =>
    subst h₀
    exact ⟨.new, .init rfl⟩
  | @tail t u a _ _ hst ih =>
    obtain ⟨b, hb⟩ := ih
    have htraced : (tracedSys n).step (t, b) a = some (u, (t.transfer a).record b) := by
      simp only [tracedSys, hst, Option.map_some]
    exact ⟨_, hb.tail a trivial htraced⟩

/-- Every entry that was ever scheduled waits in `m_fibers`, or is held by the one thread that took it, or is done with;
`m_activeThreadCount` is the number of threads that hold one. -/
structure Conserved (s : Scheduler n) (b : Book FiberAndThread (Fin n)) : Prop where
  balanced : b.Balanced
  fibers : s.fibers.map some = b.waiting
  held : ∀ w, (b.held w).isSome = (s.workers w).pc.holds
  task : ∀ w task, (s.workers w).pc = .taken task →
    ∃ id ft, b.held w = some id ∧ b.items[id]? = some ft ∧ ft.task = task
  pinned : ∀ id w ft k, (id, w) ∈ b.taken → b.items[id]? = some ft → ft.thread = some k → k = w.val
  active : s.activeThreadCount = Count.count (fun wk : Worker => wk.pc.holds) s.workers

namespace Conserved

/-- The threads that hold an entry, counted in the book. -/
theorem card_holds (hheld : ∀ w, (b.held w).isSome = (s.workers w).pc.holds) :
    b.holders = Count.count (fun wk : Worker => wk.pc.holds) s.workers :=
  Count.count_congr hheld

theorem holders (h : s.Conserved b) : s.activeThreadCount = b.holders := h.active.trans (card_holds h.held).symm

/-- No entry is put in, taken or done with. -/
theorem steady (h : s.Conserved b) (hfibers : t.fibers = s.fibers) (ht : s.Steady start t) : t.Conserved b where
  balanced := h.balanced
  fibers := by rw [hfibers, h.fibers]
  held w := by rw [h.held w, ht.holds w]
  task w task hpc := h.task w task (ht.taken w task hpc)
  pinned := h.pinned
  active := by
    rw [ht.active, h.active]
    exact (Count.count_congr ht.holds).symm

/-- An entry is put in. -/
theorem put (h : s.Conserved b) {ft : FiberAndThread} (hfibers : t.fibers = s.fibers ++ [ft]) (ht : s.Steady start t) :
    t.Conserved (b.put ft) where
  balanced := h.balanced.put ft
  fibers := by rw [hfibers, List.map_append, h.fibers, h.balanced.waiting_put]; rfl
  held w := (h.held w).trans (ht.holds w).symm
  task w task hpc := by
    obtain ⟨id, ft', hheld, hget, htask⟩ := h.task w task (ht.taken w task hpc)
    refine ⟨id, ft', hheld, ?_, htask⟩
    rw [Book.put, List.getElem?_append_left (List.getElem?_eq_some_iff.mp hget).1, hget]
  pinned id w ft' k hin hget := by
    have hlt := h.balanced.taken_known id (List.mem_map_of_mem hin)
    rw [Book.put, List.getElem?_append_left hlt] at hget
    exact h.pinned id w ft' k hin hget
  active := by
    rw [ht.active, h.active]
    exact (Count.count_congr ht.holds).symm

/-- A thread takes an entry. -/
theorem take (h : s.Conserved b) {i : Nat} {ft : FiberAndThread} (hi : s.fibers[i]? = some ft)
    (htakes : s.takes w ft = true) (hfibers : t.fibers = s.fibers.eraseIdx i)
    (hactive : t.activeThreadCount = s.activeThreadCount + 1) (hholds : (s.workers w).pc.holds = false)
    (hworkers : t.workers = Function.update s.workers w { s.workers w with pc := .taken ft.task }) :
    t.Conserved (b.take w i) := by
  have hwaiting : b.waiting[i]? = some (some ft) := by rw [← h.fibers, List.getElem?_map, hi]; rfl
  obtain ⟨id, hid, hget⟩ : ∃ id, b.queue[i]? = some id ∧ b.items[id]? = some ft := by
    rw [Book.waiting, List.getElem?_map] at hwaiting
    exact Option.map_eq_some_iff.mp hwaiting
  have hnone : b.held w = none := by
    have := h.held w
    rwa [hholds, Option.isSome_eq_false_iff, Option.isNone_iff_eq_none] at this
  have hbook := Book.Balanced.take_eq (w := w) hid
  have hheld : ∀ v, ((b.take w i).held v).isSome = (t.workers v).pc.holds := by
    intro v
    rw [hbook, hworkers]
    by_cases hv : v = w
    · simp [hv, Pc.holds]
    · simp [Function.update_of_ne hv, h.held v]
  constructor
  · exact h.balanced.take hid hnone
  · rw [hfibers, Book.Balanced.waiting_take hid, ← h.fibers, List.eraseIdx_map]
  · exact hheld
  · intro v task hpc
    rw [hworkers] at hpc
    rw [hbook]
    by_cases hv : v = w
    · subst hv
      rw [Function.update_self] at hpc
      exact ⟨id, ft, Function.update_self .., hget, Pc.taken.inj hpc⟩
    · rw [Function.update_of_ne hv] at hpc
      obtain ⟨id', ft', hheld, hget', htask⟩ := h.task v task hpc
      exact ⟨id', ft', by rw [← hheld]; exact Function.update_of_ne hv .., hget', htask⟩
  · intro id' v ft' k hin hget' hk
    rw [hbook] at hin hget'
    rcases List.mem_append.mp hin with hin | hin
    · exact h.pinned id' v ft' k hin hget' hk
    · obtain ⟨rfl, rfl⟩ := Prod.mk.inj (List.mem_singleton.mp hin)
      obtain rfl := Option.some.inj (hget.symm.trans hget')
      rw [takes, hk, Bool.and_eq_true] at htakes
      simpa using htakes.1
  · rw [← card_holds hheld, hactive, h.holders, Book.Balanced.holders_take hid hnone]

/-- A thread is done with its entry. -/
theorem finish (h : s.Conserved b) (hfibers : t.fibers = s.fibers)
    (hactive : t.activeThreadCount = s.activeThreadCount - 1) (hholds : (s.workers w).pc.holds = true) {pc : Pc}
    (hpc : pc.holds = false) (hworkers : t.workers = Function.update s.workers w { s.workers w with pc }) :
    t.Conserved (b.finish w) := by
  obtain ⟨id, hid⟩ : ∃ id, b.held w = some id := by
    rw [← Option.isSome_iff_exists, h.held w, hholds]
  have hbook := Book.Balanced.finish_eq hid
  have hheld : ∀ v, ((b.finish w).held v).isSome = (t.workers v).pc.holds := by
    intro v
    rw [hbook, hworkers]
    by_cases hv : v = w
    · simp [hv, hpc]
    · simp [Function.update_of_ne hv, h.held v]
  constructor
  · exact h.balanced.finish hid
  · rw [hfibers, h.fibers, hbook]
    rfl
  · exact hheld
  · intro v task hv
    rw [hworkers] at hv
    by_cases hvw : v = w
    · subst hvw
      rw [Function.update_self] at hv
      have : pc = .taken task := hv
      rw [this] at hpc
      cases hpc
    · rw [Function.update_of_ne hvw] at hv
      obtain ⟨id', ft, hheld, hget, htask⟩ := h.task v task hv
      rw [hbook]
      exact ⟨id', ft, by rw [← hheld]; exact Function.update_of_ne hvw .., hget, htask⟩
  · rw [hbook]
    exact h.pinned
  · rw [← card_holds hheld, hactive, h.holders, Book.Balanced.holders_finish hid, Nat.add_sub_cancel]

/-- Every step keeps the book. -/
theorem step (h : s.Conserved b) {a : Label n} (hst : s.step a = some t) : t.Conserved ((s.transfer a).record b) := by
  have heffect := step_effect hst
  cases htr : s.transfer a with
  | put ft =>
    rw [htr] at heffect
    exact h.put heffect.1 heffect.2
  | take w i =>
    rw [htr] at heffect
    obtain ⟨ft, hi, htakes, hfibers, hactive, hholds, hworkers⟩ := heffect
    exact h.take hi htakes hfibers hactive hholds hworkers
  | finish w =>
    rw [htr] at heffect
    obtain ⟨hfibers, hactive, hholds, pc, hpc, hworkers⟩ := heffect
    exact h.finish hfibers hactive hholds hpc hworkers
  | start w f =>
    rw [htr] at heffect
    exact h.steady heffect.2.1 heffect.2.2
  | none =>
    rw [htr] at heffect
    exact h.steady heffect.1 heffect.2

end Conserved

/-- **Tasks are conserved.** In every state that any number of threads in `run` and any other code reach, every entry
that was scheduled is in exactly one place and was taken at most once, only by the thread it is for, and
`m_activeThreadCount` is the number of threads between taking an entry and the decrement that belongs to it. -/
theorem task_conservation {n : Nat} {s : Scheduler n} {b : Book FiberAndThread (Fin n)}
    (h : (tracedSys n).Reachable (s, b)) : s.Conserved b := by
  refine h.invariant (I := fun p => p.1.Conserved p.2) ?_ ?_
  · rintro _ rfl
    constructor
    · exact Book.balanced_new
    · rfl
    · intro w
      rfl
    · intro w task hpc
      cases hpc
    · intro id w ft k hin
      cases hin
    · exact (Count.count_of_none fun _ => rfl).symm
  · rintro ⟨s, b⟩ a ⟨t, b'⟩ hI _ hst
    obtain ⟨t', ht, he⟩ := Option.map_eq_some_iff.mp hst
    cases he
    simp only [schedSys] at ht
    split at ht
    · exact hI.step ht
    · cases ht

/-- A fiber and a callback are scheduled; one thread holds the fiber, and the callback, which is for the other one,
waits. -/
theorem task_conservation_two : ∃ (s : Scheduler 2) (b : Book FiberAndThread (Fin 2)),
    s.Conserved b ∧ b.held 0 = some 0 ∧ b.queue = [1] ∧ s.activeThreadCount = 1 := by
  obtain ⟨p, hp, htest⟩ := Transition.Sys.reachable_of_exec (S := tracedSys 2) (.new 2, .new) rfl
    [.newFiber 0, .scheduleFiber 0 none, .scheduleCb 0 (some 1), .advance 0, .advance 0]
    (p := fun p => decide (p.2.held 0 = some 0 ∧ p.2.queue = [1] ∧ p.1.activeThreadCount = 1)) rfl
  obtain ⟨hheld, hqueue, hactive⟩ := of_decide_eq_true htest
  exact ⟨p.1, p.2, task_conservation hp, hheld, hqueue, hactive⟩

end Scheduler

end Megalo
