import Megalo.Timer.Basic

/-!
# The timer set stays ordered and holds exactly the armed timers

`Inv out` is the invariant while the timers `out` are outside the set in the middle of an operation: the set is sorted,
its members are alive, and an alive timer that is not in `out` is in the set iff its callback is not empty. One lemma
for each access of the set moves a timer into or out of `out` (`Inv.erase`, `Inv.setNext`, `Inv.insert`); the
operations are sequences of these accesses, so they keep `Inv []` and meet no `SetFault` (`inv_run`).
-/

namespace Megalo

variable {γ : Type*}

/-! ## The order -/

/-- Two timers compare by time, then by address. -/
theorem Timer.less_iff (mem : Nat → Timer γ) (a b : Nat) :
    Timer.less mem a b = true ↔ (mem a).next < (mem b).next ∨ (mem a).next = (mem b).next ∧ a < b := by
  simp only [less, comparator, UInt64.lt_iff_toNat_lt, gt_iff_lt, ← UInt64.toNat_inj]
  split
  · simp_all
  · split
    · simp only [Bool.false_eq_true, false_iff]; omega
    · simp only [decide_eq_true_eq]; omega

theorem Timer.less_strictTotal (mem : Nat → Timer γ) : OrdSet.StrictTotal (Timer.less mem) where
  irrefl a := by
    rw [← Bool.not_eq_true, less_iff]
    simp
  trans a b c := by
    simp only [less_iff, UInt64.lt_iff_toNat_lt, ← UInt64.toNat_inj]
    omega
  total a b h := by
    simp only [less_iff, UInt64.lt_iff_toNat_lt, ← UInt64.toNat_inj]
    omega

/-- Writing a timer that is not in the list keeps the list sorted. -/
theorem Timer.sorted_update {mem : Nat → Timer γ} {l : List Nat} {a : Nat} (t : Timer γ)
    (hs : OrdSet.Sorted (Timer.less mem) l) (ha : a ∉ l) :
    OrdSet.Sorted (Timer.less (Function.update mem a t)) l := by
  refine hs.congr fun x hx y hy => ?_
  have hxa : x ≠ a := fun e => ha (e ▸ hx)
  have hya : y ≠ a := fun e => ha (e ▸ hy)
  simp [less, comparator, Function.update_of_ne hxa, Function.update_of_ne hya]

/-- The order only reads the keys. -/
theorem Timer.less_congr {mem mem' : Nat → Timer γ} (h : ∀ a, (mem' a).next = (mem a).next) :
    Timer.less mem' = Timer.less mem := by
  funext a b
  simp [less, comparator, h]

namespace TimerManager

theorem less_setCb (m : TimerManager γ) (a : Nat) (cb : Option γ) :
    Timer.less (m.setCb a cb).mem = Timer.less m.mem := Timer.less_congr fun b => by
  by_cases e : b = a
  · subst e; simp [setCb]
  · simp [setCb, Function.update_of_ne e]

/-! ## The invariant -/

/-- The invariant while the timers `out` are taken out of the set. -/
structure Inv (m : TimerManager γ) (out : List Nat) : Prop where
  sorted : OrdSet.Sorted (Timer.less m.mem) m.timers
  live : ∀ a ∈ m.timers, m.live a = true
  out_live : ∀ a ∈ out, m.live a = true
  out_timers : ∀ a ∈ out, a ∉ m.timers
  armed : ∀ a, m.live a = true → a ∉ out → (a ∈ m.timers ↔ (m.mem a).cb.isSome = true)

variable {m : TimerManager γ} {a : Nat} {out : List Nat}

theorem Inv.nodup (h : m.Inv out) : m.timers.Nodup := h.sorted.nodup (Timer.less_strictTotal _)

/-- Erasing what `find` finds removes that member. -/
theorem erase_find (hs : OrdSet.Sorted (Timer.less m.mem) m.timers) (ha : a ∈ m.timers) :
    ∃ i timers, m.find a = some i ∧ m.erase (some i) = .ok { m with timers := timers } ∧
      OrdSet.Sorted (Timer.less m.mem) timers ∧ ∀ b, b ∈ timers ↔ b ∈ m.timers ∧ b ≠ a := by
  obtain ⟨i, timers, hf, he, hs, hm⟩ := OrdSet.eraseAt_find (Timer.less_strictTotal m.mem) hs ha
  exact ⟨i, timers, hf, by simp [erase, he], hs, hm⟩

/-- The invariant after a member has left the set. -/
theorem Inv.removed (h : m.Inv out) (ha : a ∈ m.timers) {timers : List Nat}
    (hs : OrdSet.Sorted (Timer.less m.mem) timers) (hm : ∀ b, b ∈ timers ↔ b ∈ m.timers ∧ b ≠ a) :
    Inv { m with timers := timers } (a :: out) := by
  refine ⟨hs, fun b hb => h.live b ((hm b).1 hb).1, ?_, ?_, ?_⟩
  · intro b hb
    rcases List.mem_cons.1 hb with rfl | hb
    · exact h.live b ha
    · exact h.out_live b hb
  · intro b hb hbt
    rcases List.mem_cons.1 hb with rfl | hb
    · exact ((hm b).1 hbt).2 rfl
    · exact h.out_timers b hb ((hm b).1 hbt).1
  · intro b hl hb
    rw [List.mem_cons, not_or] at hb
    rw [← h.armed b hl hb.2, hm b]
    exact ⟨fun hb' => hb'.1, fun hb' => ⟨hb', hb.1⟩⟩

/-- Writing a timer that is outside the set. -/
theorem Inv.update (h : m.Inv out) (t : Timer γ) (ha : a ∈ out) :
    Inv { m with mem := Function.update m.mem a t } out where
  sorted := Timer.sorted_update t h.sorted (h.out_timers a ha)
  live := h.live
  out_live := h.out_live
  out_timers := h.out_timers
  armed b hl hb := by
    have hba : b ≠ a := fun e => hb (e ▸ ha)
    simpa [Function.update_of_ne hba] using h.armed b hl hb

/-- The key of a timer outside the set may be written. -/
theorem Inv.setNext (h : m.Inv out) (next : UInt64) (ha : a ∈ out) :
    m.setNext a next = .ok { m with mem := Function.update m.mem a { m.mem a with next := next } } ∧
      Inv { m with mem := Function.update m.mem a { m.mem a with next := next } } out :=
  ⟨by simp [TimerManager.setNext, h.out_timers a ha], h.update _ ha⟩

/-- Inserting an armed timer that is outside the set. -/
theorem Inv.insert (h : m.Inv (a :: out)) (hout : a ∉ out) (hcb : (m.mem a).cb.isSome = true) :
    Inv (m.insert a).1 out := by
  have ht := Timer.less_strictTotal m.mem
  have ha := h.out_timers a List.mem_cons_self
  have hm : ∀ b, b ∈ (m.insert a).1.timers ↔ b = a ∨ b ∈ m.timers := fun b => OrdSet.mem_insert ht h.sorted ha
  refine ⟨h.sorted.insert ht ha, ?_, fun b hb => h.out_live b (List.mem_cons_of_mem _ hb), ?_, ?_⟩
  · intro b hb
    rcases (hm b).1 hb with rfl | hb
    · exact h.out_live b List.mem_cons_self
    · exact h.live b hb
  · intro b hb hbt
    rcases (hm b).1 hbt with rfl | hbt
    · exact hout hb
    · exact h.out_timers b (List.mem_cons_of_mem _ hb) hbt
  · intro b hl hb
    rw [hm b]
    by_cases e : b = a
    · subst e; simpa [TimerManager.insert] using hcb
    · simpa [e, TimerManager.insert] using h.armed b hl (by simp [e, hb])

/-- A timer whose callback is empty may stay outside the set. -/
theorem Inv.drop (h : m.Inv (a :: out)) (hcb : (m.mem a).cb = none) : m.Inv out where
  sorted := h.sorted
  live := h.live
  out_live b hb := h.out_live b (List.mem_cons_of_mem _ hb)
  out_timers b hb := h.out_timers b (List.mem_cons_of_mem _ hb)
  armed b hl hb := by
    by_cases e : b = a
    · subst e; simp [hcb, h.out_timers b List.mem_cons_self]
    · exact h.armed b hl (by simp [e, hb])

/-! ## The operations of the manager -/

theorem addTimerPtr_inv (h : m.Inv (a :: out)) (hout : a ∉ out) (hcb : (m.mem a).cb.isSome = true) :
    Inv (m.addTimerPtr a).1 out := by
  have hi := h.insert hout hcb
  unfold addTimerPtr
  dsimp only
  split
  · exact { hi with }
  · exact hi

theorem addTimer_inv (h : m.Inv []) (now ms : UInt64) (cb : γ) (recurring : Bool) (ha : m.live a = false) :
    Inv (m.addTimer now ms (some cb) recurring a).1 [] := by
  have hat : a ∉ m.timers := fun hat => by rw [h.live a hat] at ha; cases ha
  refine addTimerPtr_inv ⟨Timer.sorted_update _ h.sorted hat, ?_, ?_, ?_, ?_⟩ List.not_mem_nil (by simp [Timer.new])
  · intro b hb
    have hba : b ≠ a := fun e => hat (e ▸ hb)
    simpa [Function.update_of_ne hba] using h.live b hb
  · simp
  · simpa using hat
  · intro b hl hb
    have hba : b ≠ a := by simpa using hb
    simp only [Function.update_of_ne hba] at hl ⊢
    exact h.armed b hl List.not_mem_nil

/-- The loop of `listExpiredCb` puts back the recurring timers and empties the others' callbacks. -/
theorem collectExpired_inv (now : UInt64) (expired : List Nat) {m : TimerManager γ} (hnd : expired.Nodup)
    (h : m.Inv expired) (hcb : ∀ a ∈ expired, (m.mem a).cb.isSome = true) :
    ∃ cbs m', collectExpired now expired m = .ok (cbs, m') ∧ m'.Inv [] := by
  induction expired generalizing m with
  | nil => exact ⟨[], m, rfl, h⟩
  | cons a expired ih =>
    obtain ⟨hna, hnd⟩ := List.nodup_cons.1 hnd
    have hne : ∀ b ∈ expired, b ≠ a := fun b hb e => hna (e ▸ hb)
    cases hr : (m.mem a).recurring with
    | true =>
      obtain ⟨hok, hinv⟩ := h.setNext (now + (m.mem a).ms) List.mem_cons_self
      have hinv' := hinv.insert hna (by simpa using hcb a List.mem_cons_self)
      obtain ⟨cbs, m', hc, hm'⟩ := ih hnd hinv' (fun b hb => by
        simpa [TimerManager.insert, Function.update_of_ne (hne b hb)] using hcb b (List.mem_cons_of_mem _ hb))
      refine ⟨(m.mem a).cb :: cbs, m', ?_, hm'⟩
      rw [collectExpired, if_pos hr, hok]
      simp only [bind, Except.bind, pure, Except.pure, hc]
    | false =>
      have hinv := (h.update { m.mem a with cb := none } List.mem_cons_self).drop (by simp)
      obtain ⟨cbs, m', hc, hm'⟩ := ih hnd hinv (fun b hb => by
        simpa [Function.update_of_ne (hne b hb)] using hcb b (List.mem_cons_of_mem _ hb))
      refine ⟨(m.mem a).cb :: cbs, m', ?_, hm'⟩
      rw [collectExpired, if_neg (by simp [hr])]
      simp only [bind, Except.bind, pure, Except.pure, setCb, hc]

theorem listExpiredCb_inv (h : m.Inv []) (now : UInt64) (key : Nat) :
    ∃ cbs m', m.listExpiredCb now key = .ok (cbs, m') ∧ m'.Inv [] := by
  unfold listExpiredCb
  split
  · exact ⟨[], m, rfl, h⟩
  · dsimp only
    have h' : (m.deleteClockRollover now).2.Inv [] := { h with }
    split
    · exact ⟨[], _, rfl, h'⟩
    · generalize (m.deleteClockRollover now).2.expiredCount now (m.deleteClockRollover now).1 key = n
      have hnd : (m.timers.take n ++ m.timers.drop n).Nodup := by rw [List.take_append_drop]; exact h.nodup
      rw [List.nodup_append] at hnd
      refine collectExpired_inv now _ hnd.1 ⟨h.sorted.drop n, ?_, ?_, ?_, ?_⟩ ?_
      · exact fun b hb => h.live b (List.mem_of_mem_drop hb)
      · exact fun b hb => h.live b (List.mem_of_mem_take hb)
      · exact fun b hb hb' => hnd.2.2 b hb b hb' rfl
      · intro b hl hb
        have hsplit : b ∈ m.timers ↔ b ∈ m.timers.take n ∨ b ∈ m.timers.drop n := by
          rw [← List.mem_append, List.take_append_drop]
        refine Iff.trans ?_ (h.armed b hl List.not_mem_nil)
        rw [hsplit]
        exact ⟨Or.inr, fun hb' => hb'.resolve_left hb⟩
      · intro b hb
        have hb' := List.mem_of_mem_take hb
        exact (h.armed b (h.live b hb') List.not_mem_nil).1 hb'

/-! ## The operations of a timer -/

theorem cancel_inv (h : m.Inv []) (ha : m.live a = true) :
    ∃ r m', Timer.cancel m a = .ok (r, m') ∧ m'.Inv [] := by
  unfold Timer.cancel
  split
  · rename_i hcb
    have hat := (h.armed a ha List.not_mem_nil).2 hcb
    obtain ⟨i, timers, hf, he, hs, hm⟩ := erase_find (m := m.setCb a none) (by rw [less_setCb]; exact h.sorted) hat
    refine ⟨true, { m.setCb a none with timers := timers }, ?_, ?_⟩
    · simp only [hf, he, bind, Except.bind, pure, Except.pure]
    · have hi := h.removed hat (by rw [← less_setCb m a none]; exact hs) hm
      exact (hi.update { m.mem a with cb := none } List.mem_cons_self).drop (by simp)
  · exact ⟨false, m, rfl, h⟩

theorem refresh_inv (h : m.Inv []) (now : UInt64) (ha : m.live a = true) :
    ∃ r m', Timer.refresh m now a = .ok (r, m') ∧ m'.Inv [] := by
  unfold Timer.refresh
  split
  · exact ⟨false, m, rfl, h⟩
  · rename_i hcb
    rw [Option.isNone_iff_eq_none, ← ne_eq, Option.ne_none_iff_isSome] at hcb
    have hat := (h.armed a ha List.not_mem_nil).2 hcb
    obtain ⟨i, timers, hf, he, hs, hm⟩ := erase_find h.sorted hat
    have hi := h.removed hat hs hm
    obtain ⟨hn, hi⟩ := hi.setNext (now + (m.mem a).ms) List.mem_cons_self
    refine ⟨true, _, ?_, hi.insert List.not_mem_nil (by simpa using hcb)⟩
    simp only [hf, he, hn, bind, Except.bind, pure, Except.pure]

theorem reset_inv (h : m.Inv []) (now ms : UInt64) (fromNow : Bool) (ha : m.live a = true) :
    ∃ r atFront m', Timer.reset m now ms fromNow a = .ok (r, atFront, m') ∧ m'.Inv [] := by
  unfold Timer.reset
  split
  · exact ⟨true, false, m, rfl, h⟩
  · split
    · exact ⟨false, false, m, rfl, h⟩
    · rename_i hcb
      rw [Option.isNone_iff_eq_none, ← ne_eq, Option.ne_none_iff_isSome] at hcb
      have hat := (h.armed a ha List.not_mem_nil).2 hcb
      obtain ⟨i, timers, hf, he, hs, hm⟩ := erase_find h.sorted hat
      have hi := (h.removed hat hs hm).update { m.mem a with ms := ms } List.mem_cons_self
      obtain ⟨hn, hi⟩ := hi.setNext ((if fromNow then now else (m.mem a).next - (m.mem a).ms) + ms) List.mem_cons_self
      have hp := addTimerPtr_inv hi List.not_mem_nil (by simpa using hcb)
      simp only [hf, he, setMs, Function.update_self, hn, bind, Except.bind, pure, Except.pure]
      exact ⟨true, _, _, rfl, by simpa only [Function.update_self] using hp⟩

/-! ## Runs -/

/-- Every call keeps the invariant and meets no fault. -/
theorem inv_run (h : m.Inv []) (op : TimerOp γ) (he : op.Enabled m) : ∃ m', op.run m = .ok m' ∧ m'.Inv [] := by
  cases op with
  | addTimer now ms cb recurring a => exact ⟨_, rfl, addTimer_inv h now ms cb recurring he⟩
  | cancel a =>
    obtain ⟨r, m', hr, hi⟩ := cancel_inv h he
    exact ⟨m', by rw [TimerOp.run, hr]; rfl, hi⟩
  | refresh now a =>
    obtain ⟨r, m', hr, hi⟩ := refresh_inv h now he
    exact ⟨m', by rw [TimerOp.run, hr]; rfl, hi⟩
  | reset now ms fromNow a =>
    obtain ⟨r, atFront, m', hr, hi⟩ := reset_inv h now ms fromNow he
    exact ⟨m', by rw [TimerOp.run, hr]; rfl, hi⟩
  | listExpiredCb now key =>
    obtain ⟨cbs, m', hr, hi⟩ := listExpiredCb_inv h now key
    exact ⟨m', by rw [TimerOp.run, hr]; rfl, hi⟩
  | getNextTimer now =>
    refine ⟨_, rfl, ?_⟩
    unfold getNextTimer
    dsimp only
    split <;> exact { h with }
  | release a =>
    refine ⟨_, rfl, h.sorted, ?_, by simp, by simp, ?_⟩
    · intro b hb
      have hba : b ≠ a := fun e => he.2 (e ▸ hb)
      simpa [Function.update_of_ne hba] using h.live b hb
    · intro b hl _
      have hba : b ≠ a := fun e => by simp [e] at hl
      exact h.armed b (by simpa [Function.update_of_ne hba] using hl) List.not_mem_nil

theorem new_inv (mem : Nat → Timer γ) (now : UInt64) : (TimerManager.new mem now).Inv [] := by
  refine ⟨List.Pairwise.nil, ?_, ?_, ?_, ?_⟩ <;> simp [TimerManager.new]

/-- Every reachable manager satisfies the invariant. -/
theorem inv_reachable (h : (timerSys γ).Reachable m) : m.Inv [] := by
  refine h.invariant (I := fun m => m.Inv []) ?_ ?_
  · rintro _ ⟨mem, now, rfl⟩
    exact new_inv mem now
  · intro m op m' hi _ hs
    simp only [timerSys] at hs
    split at hs
    · rename_i he
      obtain ⟨m₁, hr, hi₁⟩ := inv_run hi op he
      rw [hr] at hs
      cases hs
      exact hi₁
    · cases hs

end TimerManager

/-- **The timer set.** In every reachable manager the set is strictly ordered by time and address and holds no timer
twice, an alive timer is in it iff its callback is not empty, `find` in `cancel` finds the armed timer itself, and no
call erases the end iterator or writes the key of a timer while the set holds it. -/
theorem timer_set_invariant {m : TimerManager γ} (h : (timerSys γ).Reachable m) :
    OrdSet.Sorted (Timer.less m.mem) m.timers ∧ m.timers.Nodup ∧
      (∀ a, m.live a = true → (a ∈ m.timers ↔ (m.mem a).cb ≠ none)) ∧
      (∀ a, m.live a = true → (m.mem a).cb ≠ none →
        ∃ i, (m.setCb a none).find a = some i ∧ m.timers[i]? = some a) ∧
      ∀ op : TimerOp γ, op.Enabled m → ∃ m', op.run m = .ok m' := by
  have hi := TimerManager.inv_reachable h
  have harmed : ∀ a, m.live a = true → (a ∈ m.timers ↔ (m.mem a).cb ≠ none) := fun a ha => by
    rw [Option.ne_none_iff_isSome]
    exact hi.armed a ha List.not_mem_nil
  refine ⟨hi.sorted, hi.nodup, harmed, fun a ha hcb => ?_, fun op he => ?_⟩
  · refine OrdSet.find_of_mem (Timer.less_strictTotal _) ?_ ((harmed a ha).2 hcb)
    rw [TimerManager.less_setCb]
    exact hi.sorted
  · obtain ⟨m', hr, -⟩ := TimerManager.inv_run hi op he
    exact ⟨m', hr⟩

/-- Two timers, of which the second, recurring one expires and is armed again behind the first. -/
theorem timer_set_invariant_expired : ∃ m : TimerManager Nat, m.timers = [20, 10] ∧
    OrdSet.Sorted (Timer.less m.mem) m.timers ∧ ∃ m', (TimerOp.cancel 10).run m = .ok m' := by
  obtain ⟨m, hm, hp⟩ := (timerSys Nat).reachable_of_exec (TimerManager.new (fun _ => Timer.ofNext 0) 0)
    ⟨_, _, rfl⟩ [.addTimer 0 5 7 true 10, .addTimer 0 8 9 false 20, .listExpiredCb 6 30]
    (p := fun m => m.timers == [20, 10] && m.live 10) rfl
  rw [Bool.and_eq_true, beq_iff_eq] at hp
  obtain ⟨hs, -, -, -, hr⟩ := timer_set_invariant hm
  exact ⟨m, hp.1, hs, hr (.cancel 10) hp.2⟩

end Megalo
