import Megalo.Timer.Expiry

/-!
# Timers with an empty callback

`addTimer` may be given an empty `std::function`. Such a timer is in the set without being armed, so `cancel`,
`refresh` and `reset` do not touch it, and it leaves the set when it expires.

- `timerCallSys` is the runs of a manager with such timers;
- `TimerManager.join` is the manager seen from one whose callbacks say whether they were empty from the start, in which
  every timer of the set is armed: the calls on it are the calls on that one (`listExpiredCb_join`, `cancel_join`,
  `refresh_join`, `reset_join`), or do nothing where the timer's callback is empty (`run_empty`);
- `Represents m m̂` is the relation of the two along a run (`represents_reachable`).
-/

namespace Megalo

universe u

variable {γ : Type u}

/-! ## Runs -/

/-- One call on the manager or on one of its timers; `addEmpty` is `addTimer` with an empty callback. -/
inductive TimerCall (γ : Type u)
  | op (op : TimerOp γ)
  | addEmpty (now ms : UInt64) (recurring : Bool) (a : Nat)

namespace TimerCall

def Enabled (m : TimerManager γ) : TimerCall γ → Prop
  | op o => o.Enabled m
  | addEmpty _ _ _ a => m.live a = false

instance (m : TimerManager γ) : DecidablePred (Enabled m)
  | op o => inferInstanceAs (Decidable (o.Enabled m))
  | addEmpty _ _ _ a => inferInstanceAs (Decidable (m.live a = false))

/-- The manager after the call, without the results. -/
def run (m : TimerManager γ) : TimerCall γ → Except SetFault (TimerManager γ)
  | op o => o.run m
  | addEmpty now ms recurring a => .ok (m.addTimer now ms none recurring a).1

/-- The address of the timer that the call constructs. -/
def constructs : TimerCall γ → Option Nat
  | op (.addTimer _ _ _ _ a) | addEmpty _ _ _ a => some a
  | _ => none

end TimerCall

/-- The runs of one manager under arbitrary clock readings, with timers that have an empty callback. -/
def timerCallSys (γ : Type u) : Transition.Sys (TimerManager γ) (TimerCall γ) where
  init m := ∃ mem now, m = TimerManager.new mem now
  step m call := if call.Enabled m then (call.run m).toOption else none

theorem timerCallSys_step {m m' : TimerManager γ} {call : TimerCall γ} :
    (timerCallSys γ).step m call = some m' ↔ call.Enabled m ∧ call.run m = .ok m' := by
  simp only [timerCallSys]
  split
  · rename_i he
    cases call.run m with
    | error e => simp [Except.toOption]
    | ok m₁ => simp [Except.toOption, he]
  · rename_i he
    simp [he]

/-! ## The two managers -/

/-- The timer, seen from one whose callback says whether it was empty from the start. -/
def Timer.join (t : Timer (Option γ)) : Timer γ :=
  { recurring := t.recurring, ms := t.ms, next := t.next, cb := t.cb.join }

namespace TimerManager

/-- The manager, seen from one whose callbacks say whether they were empty from the start. -/
def join (m : TimerManager (Option γ)) : TimerManager γ :=
  { mem := fun a => (m.mem a).join, live := m.live, timers := m.timers, tickled := m.tickled
    previousTime := m.previousTime }

variable {m m' : TimerManager (Option γ)} {a : Nat} {now : UInt64}

@[simp] theorem join_timers (m : TimerManager (Option γ)) : m.join.timers = m.timers := rfl

@[simp] theorem join_recurring (m : TimerManager (Option γ)) (a : Nat) :
    (m.join.mem a).recurring = (m.mem a).recurring := rfl

@[simp] theorem join_ms (m : TimerManager (Option γ)) (a : Nat) : (m.join.mem a).ms = (m.mem a).ms := rfl

@[simp] theorem join_next (m : TimerManager (Option γ)) (a : Nat) : (m.join.mem a).next = (m.mem a).next := rfl

@[simp] theorem deleteClockRollover_join (m : TimerManager (Option γ)) (now : UInt64) :
    m.join.deleteClockRollover now = ((m.deleteClockRollover now).1, (m.deleteClockRollover now).2.join) := rfl

/-- Writing a timer and forgetting why its callback is empty commute. -/
theorem update_join (mem : Nat → Timer (Option γ)) (a : Nat) (t : Timer (Option γ)) :
    Function.update (fun b => (mem b).join) a t.join = fun b => (Function.update mem a t b).join :=
  (Function.comp_update Timer.join mem a t).symm

theorem less_join (mem : Nat → Timer (Option γ)) :
    Timer.less (fun a => (mem a).join) = Timer.less mem := by
  funext a b
  simp [Timer.less, Timer.comparator, Timer.join]

theorem join_less (m : TimerManager (Option γ)) : Timer.less m.join.mem = Timer.less m.mem := less_join m.mem

theorem setCb_join (m : TimerManager (Option γ)) (a : Nat) : m.join.setCb a none = (m.setCb a none).join := by
  have hmem := update_join m.mem a { m.mem a with cb := none }
  simp only [setCb, join, ← hmem]
  rfl

theorem setMs_join (m : TimerManager (Option γ)) (a : Nat) (ms : UInt64) :
    m.join.setMs a ms = (m.setMs a ms).join := by
  have hmem := update_join m.mem a { m.mem a with ms := ms }
  simp only [setMs, join, ← hmem]
  rfl

theorem setNext_join (m : TimerManager (Option γ)) (a : Nat) (next : UInt64) :
    m.join.setNext a next = (m.setNext a next).map join := by
  have hmem := update_join m.mem a { m.mem a with next := next }
  unfold setNext
  rw [join_timers]
  by_cases ha : a ∈ m.timers
  · rw [if_pos ha, if_pos ha]
    rfl
  · rw [if_neg ha, if_neg ha]
    simp only [Except.map, join, ← hmem]
    rfl

theorem find_join (m : TimerManager (Option γ)) (a : Nat) : m.join.find a = m.find a := by
  rw [find, find, join_less, join_timers]

theorem erase_join (m : TimerManager (Option γ)) (it : Option Nat) : m.join.erase it = (m.erase it).map join := by
  rw [erase, erase, join_timers]
  cases it.bind fun i => OrdSet.eraseAt i m.timers with
  | none => rfl
  | some timers => rfl

theorem insert_join (m : TimerManager (Option γ)) (a : Nat) :
    m.join.insert a = ((m.insert a).1.join, (m.insert a).2) := by
  rw [insert, insert, join_less, join_timers]
  rfl

theorem addTimerPtr_join (m : TimerManager (Option γ)) (a : Nat) :
    m.join.addTimerPtr a = ((m.addTimerPtr a).1.join, (m.addTimerPtr a).2) := by
  unfold addTimerPtr
  rw [insert_join]
  dsimp only
  rw [show (m.insert a).1.join.tickled = (m.insert a).1.tickled from rfl]
  split <;> rfl

theorem addTimer_join (m : TimerManager (Option γ)) (now ms : UInt64) (cb : Option (Option γ)) (recurring : Bool)
    (a : Nat) : m.join.addTimer now ms cb.join recurring a =
      ((m.addTimer now ms cb recurring a).1.join, (m.addTimer now ms cb recurring a).2) := by
  have hmem := update_join m.mem a (Timer.new now ms cb recurring)
  unfold addTimer
  rw [← addTimerPtr_join]
  simp only [join, ← hmem]
  rfl

/-! ## Expiry -/

theorem collectExpired_join (now : UInt64) (l : List Nat) (m : TimerManager (Option γ)) :
    collectExpired now l m.join = (collectExpired now l m).map fun r => (r.1.map Option.join, r.2.join) := by
  induction l generalizing m with
  | nil => rfl
  | cons a l ih =>
    simp only [collectExpired]
    rw [join_recurring, join_ms]
    cases (m.mem a).recurring with
    | true =>
      simp only [if_true, setNext_join]
      cases m.setNext a (now + (m.mem a).ms) with
      | error e => rfl
      | ok m₁ =>
        simp only [Except.map, bind, Except.bind, pure, Except.pure, insert_join, ih]
        cases collectExpired now l (m₁.insert a).1 with
        | error e => rfl
        | ok r => rfl
    | false =>
      simp only [Bool.false_eq_true, if_false, setCb_join, bind, Except.bind, pure, Except.pure, ih]
      cases collectExpired now l (m.setCb a none) with
      | error e => rfl
      | ok r => rfl

theorem expiredCount_join (m : TimerManager (Option γ)) (now : UInt64) (rollover : Bool) (key : Nat) :
    m.join.expiredCount now rollover key = m.expiredCount now rollover key := by
  have hmem := update_join m.mem key (Timer.ofNext now)
  have hless : Timer.less (Function.update m.join.mem key (Timer.ofNext now)) =
      Timer.less (Function.update m.mem key (Timer.ofNext now)) := by
    rw [← less_join, ← hmem]
    rfl
  unfold expiredCount
  rw [hless]
  rfl

theorem listExpiredCb_join (m : TimerManager (Option γ)) (now : UInt64) (key : Nat) :
    m.join.listExpiredCb now key = (m.listExpiredCb now key).map fun r => (r.1.map Option.join, r.2.join) := by
  have hcount := expiredCount_join (m.deleteClockRollover now).2 now (m.deleteClockRollover now).1 key
  unfold listExpiredCb
  rw [join_timers]
  cases m.timers with
  | nil => rfl
  | cons first rest =>
    dsimp only
    rw [deleteClockRollover_join]
    dsimp only
    rw [hcount, join_next]
    split
    · rfl
    · exact collectExpired_join now _ { (m.deleteClockRollover now).2 with
        timers := (m.deleteClockRollover now).2.timers.drop
          ((m.deleteClockRollover now).2.expiredCount now (m.deleteClockRollover now).1 key) }

/-! ## The operations of a timer -/

/-- A callback that was not empty from the start is empty on both sides or on neither. -/
theorem isSome_join (hcb : (m.mem a).cb ≠ some none) : (m.join.mem a).cb.isSome = (m.mem a).cb.isSome := by
  show (m.mem a).cb.join.isSome = _
  cases h : (m.mem a).cb with
  | none => rfl
  | some cb =>
    cases cb with
    | none => exact absurd h hcb
    | some f => rfl

theorem isNone_join (hcb : (m.mem a).cb ≠ some none) : (m.join.mem a).cb.isNone = (m.mem a).cb.isNone := by
  rw [← Option.not_isSome, ← Option.not_isSome, isSome_join hcb]

theorem cancel_join (hcb : (m.mem a).cb ≠ some none) :
    Timer.cancel m.join a = (Timer.cancel m a).map fun r => (r.1, r.2.join) := by
  unfold Timer.cancel
  rw [isSome_join hcb]
  split
  · simp only [setCb_join, find_join, erase_join]
    cases (m.setCb a none).erase ((m.setCb a none).find a) with
    | error e => rfl
    | ok m₁ => rfl
  · rfl

theorem refresh_join (hcb : (m.mem a).cb ≠ some none) :
    Timer.refresh m.join now a = (Timer.refresh m now a).map fun r => (r.1, r.2.join) := by
  unfold Timer.refresh
  rw [isNone_join hcb, find_join]
  split
  · rfl
  · cases m.find a with
    | none => rfl
    | some it =>
      simp only [erase_join]
      cases m.erase (some it) with
      | error e => rfl
      | ok m₁ =>
        simp only [Except.map, bind, Except.bind]
        rw [join_ms, setNext_join]
        cases m₁.setNext a (now + (m₁.mem a).ms) with
        | error e => rfl
        | ok m₂ =>
          simp only [Except.map, pure, Except.pure]
          rw [insert_join]

theorem reset_join {ms : UInt64} {fromNow : Bool} (hcb : (m.mem a).cb ≠ some none) :
    Timer.reset m.join now ms fromNow a =
      (Timer.reset m now ms fromNow a).map fun r => (r.1, r.2.1, r.2.2.join) := by
  unfold Timer.reset
  rw [isNone_join hcb, find_join, join_ms]
  split
  · rfl
  · split
    · rfl
    · cases m.find a with
      | none => rfl
      | some it =>
        simp only [erase_join]
        cases m.erase (some it) with
        | error e => rfl
        | ok m₁ =>
          simp only [Except.map, bind, Except.bind]
          rw [setMs_join, setNext_join, join_ms, join_ms, join_next]
          cases (m₁.setMs a ms).setNext a
            ((if fromNow then now else (m₁.mem a).next - (m₁.mem a).ms) + ((m₁.setMs a ms).mem a).ms) with
          | error e => rfl
          | ok m₂ =>
            simp only [Except.map, pure, Except.pure]
            rw [addTimerPtr_join]

theorem getNextTimer_join (m : TimerManager (Option γ)) (now : UInt64) :
    (m.join.getNextTimer now).2 = (m.getNextTimer now).2.join := by
  unfold getNextTimer
  dsimp only
  rw [join_timers]
  split <;> rfl

end TimerManager

/-! ## The relation along a run -/

open TimerManager

/-- A timer whose callback is empty is not touched. -/
theorem TimerOp.run_empty {m : TimerManager γ} {a : Nat} (hcb : (m.mem a).cb = none) (now ms : UInt64)
    (fromNow : Bool) : Timer.cancel m a = .ok (false, m) ∧ Timer.refresh m now a = .ok (false, m) ∧
      Timer.reset m now ms fromNow a = .ok (ms == (m.mem a).ms && !fromNow, false, m) := by
  refine ⟨?_, ?_, ?_⟩
  · rw [Timer.cancel, hcb]
    rfl
  · rw [Timer.refresh, hcb]
    rfl
  · rw [Timer.reset, hcb]
    split
    · rename_i hsame
      rw [hsame]
      rfl
    · rename_i hsame
      rw [Bool.not_eq_true] at hsame
      rw [hsame]
      rfl

/-- A call is a call of the manager that is represented, or does nothing. -/
theorem TimerCall.run_join {m : TimerManager (Option γ)} {call : TimerCall γ} (he : call.Enabled m.join) :
    (∃ o : TimerOp (Option γ), o.Enabled m ∧ (op o).constructs = call.constructs ∧
      call.run m.join = (o.run m).map join) ∨ call.run m.join = .ok m.join := by
  have hempty : ∀ a, (m.mem a).cb = some none → (m.join.mem a).cb = none := fun a ha => by
    simp only [join, Timer.join, ha, Option.join_some]
  cases call with
  | addEmpty now ms recurring a =>
    refine .inl ⟨.addTimer now ms none recurring a, he, rfl, ?_⟩
    exact congrArg (fun r => Except.ok r.1) (addTimer_join m now ms (some none) recurring a)
  | op o =>
    cases o with
    | addTimer now ms cb recurring a =>
      refine .inl ⟨.addTimer now ms (some cb) recurring a, he, rfl, ?_⟩
      exact congrArg (fun r => Except.ok r.1) (addTimer_join m now ms (some (some cb)) recurring a)
    | cancel a =>
      by_cases hcb : (m.mem a).cb = some none
      · refine .inr ?_
        rw [run, TimerOp.run, (TimerOp.run_empty (hempty a hcb) 0 0 false).1]
        rfl
      · refine .inl ⟨.cancel a, he, rfl, ?_⟩
        rw [run, TimerOp.run, cancel_join hcb, TimerOp.run]
        cases Timer.cancel m a <;> rfl
    | refresh now a =>
      by_cases hcb : (m.mem a).cb = some none
      · refine .inr ?_
        rw [run, TimerOp.run, (TimerOp.run_empty (hempty a hcb) now 0 false).2.1]
        rfl
      · refine .inl ⟨.refresh now a, he, rfl, ?_⟩
        rw [run, TimerOp.run, refresh_join hcb, TimerOp.run]
        cases Timer.refresh m now a <;> rfl
    | reset now ms fromNow a =>
      by_cases hcb : (m.mem a).cb = some none
      · refine .inr ?_
        rw [run, TimerOp.run, (TimerOp.run_empty (hempty a hcb) now ms fromNow).2.2]
        rfl
      · refine .inl ⟨.reset now ms fromNow a, he, rfl, ?_⟩
        rw [run, TimerOp.run, reset_join hcb, TimerOp.run]
        cases Timer.reset m now ms fromNow a <;> rfl
    | listExpiredCb now key =>
      refine .inl ⟨.listExpiredCb now key, he, rfl, ?_⟩
      rw [run, TimerOp.run, listExpiredCb_join, TimerOp.run]
      cases m.listExpiredCb now key <;> rfl
    | getNextTimer now =>
      exact .inl ⟨.getNextTimer now, he, rfl, congrArg Except.ok (getNextTimer_join m now)⟩
    | release a => exact .inl ⟨.release a, he, rfl, rfl⟩

/-- The first manager is the second one, without what its callbacks say, and the second one keeps the invariant of the
timer set. -/
structure Represents (m : TimerManager γ) (m' : TimerManager (Option γ)) : Prop where
  eq : m = m'.join
  inv : m'.Inv []

/-- A timer whose callback has been emptied stays as it is until its address is used again. -/
theorem TimerOp.run_cb_none {m m' : TimerManager γ} {o : TimerOp γ} (h : m.Inv []) (he : o.Enabled m)
    (hrun : o.run m = .ok m') {a : Nat} (hcb : (m.mem a).cb = none) (ha : (TimerCall.op o).constructs ≠ some a) :
    (m'.mem a).cb = none := by
  cases o with
  | addTimer now ms cb recurring b =>
    rw [(run_mem _ (fun _ _ e => by cases e) hrun ha).1, hcb]
  | cancel b =>
    obtain ⟨⟨r, m₁⟩, hr, rfl⟩ := Throw.map_eq_ok_iff.1 hrun
    obtain ⟨hmem, -, hb⟩ := cancel_mem hr
    by_cases hab : a = b
    · rw [hab, hb]
    · rw [hmem a hab, hcb]
  | refresh now b =>
    obtain ⟨⟨r, m₁⟩, hr, rfl⟩ := Throw.map_eq_ok_iff.1 hrun
    obtain ⟨hmem, -, hb⟩ := refresh_mem hr
    by_cases hab : a = b
    · rw [hab, hb, ← hab, hcb]
    · rw [hmem a hab, hcb]
  | reset now ms fromNow b =>
    obtain ⟨⟨r, atFront, m₁⟩, hr, rfl⟩ := Throw.map_eq_ok_iff.1 hrun
    obtain ⟨hmem, -, hb⟩ := reset_mem hr
    by_cases hab : a = b
    · rw [hab, hb, ← hab, hcb]
    · rw [hmem a hab, hcb]
  | listExpiredCb now key =>
    obtain ⟨⟨cbs, m₁⟩, hr, rfl⟩ := Throw.map_eq_ok_iff.1 hrun
    obtain ⟨-, -, hmem⟩ := listExpiredCb_due h he hr
    rw [hmem]
    split
    · unfold expired
      split
      · exact hcb
      · rfl
    · exact hcb
  | getNextTimer now =>
    obtain rfl := Except.ok.inj hrun
    unfold TimerManager.getNextTimer
    dsimp only
    split <;> exact hcb
  | release b =>
    obtain rfl := Except.ok.inj hrun
    exact hcb

/-- One call keeps the relation. -/
theorem Represents.run {m : TimerManager γ} {m₁ : TimerManager (Option γ)} (h : Represents m m₁) {call : TimerCall γ}
    (he : call.Enabled m) : ∃ m' m₁', call.run m = .ok m' ∧ Represents m' m₁' ∧
      ∀ a, (m₁.mem a).cb = none → call.constructs ≠ some a → (m₁'.mem a).cb = none := by
  obtain ⟨rfl, hi⟩ := h
  rcases TimerCall.run_join he with ⟨o, heo, hconstructs, hrun⟩ | hrun
  · obtain ⟨m₁', hr, hi'⟩ := inv_run hi o heo
    refine ⟨m₁'.join, m₁', by rw [hrun, hr]; rfl, ⟨rfl, hi'⟩, fun a hcb ha => ?_⟩
    exact TimerOp.run_cb_none hi heo hr hcb (hconstructs ▸ ha)
  · exact ⟨m₁.join, m₁, hrun, ⟨rfl, hi⟩, fun a hcb _ => hcb⟩

theorem represents_new (mem : Nat → Timer γ) (now : UInt64) :
    Represents (TimerManager.new mem now)
      (TimerManager.new (fun a => { mem a with cb := (mem a).cb.map some }) now) := by
  refine ⟨?_, new_inv _ _⟩
  have hmem : ∀ t : Timer γ, Timer.join { t with cb := t.cb.map some } = t := by
    rintro ⟨recurring, ms, next, cb⟩
    cases cb <;> rfl
  simp only [join, TimerManager.new, hmem]

/-- Every reachable manager represents one that keeps the invariant of the timer set. -/
theorem represents_reachable {m : TimerManager γ} (h : (timerCallSys γ).Reachable m) : ∃ m₁, Represents m m₁ := by
  refine h.invariant (I := fun m => ∃ m₁, Represents m m₁) ?_ ?_
  · rintro _ ⟨mem, now, rfl⟩
    exact ⟨_, represents_new mem now⟩
  · rintro m call m' ⟨m₁, hm⟩ - hs
    obtain ⟨he, hrun⟩ := timerCallSys_step.1 hs
    obtain ⟨m₂, m₁', hrun', hm', -⟩ := hm.run he
    obtain rfl := Except.ok.inj (hrun.symm.trans hrun')
    exact ⟨m₁', hm'⟩

end Megalo
