import Megalo.Timer.Empty

/-!
# What `cancel`, `refresh` and `reset` report

- `cancel_spec`, `refresh_spec` and `reset_spec` are the three calls on an armed manager: what they return, and what
  they write;
- `TimerHistory` is a manager with what its timers were last armed for and which of them were given a callback, and
  `Recorded` its invariant: the next time of a timer is the time it was last armed plus its period;
- `Truthful` says what a call should report, and `truthful_iff` when it does.
-/

namespace Megalo

universe u

variable {γ : Type u}

namespace TimerManager

variable {m : TimerManager γ} {a : Nat}

/-! ## The calls on an armed manager -/

theorem cb_isNone_iff (h : m.Inv []) (ha : m.live a = true) : (m.mem a).cb.isNone = true ↔ a ∉ m.timers := by
  rw [h.armed a ha List.not_mem_nil, ← Option.not_isSome, Bool.not_eq_true', Bool.not_eq_true]

theorem cancel_spec (h : m.Inv []) (ha : m.live a = true) :
    ∃ m', Timer.cancel m a = .ok (decide (a ∈ m.timers), m') ∧ m'.Inv [] ∧ (a ∉ m.timers → m' = m) ∧
      m'.live = m.live ∧ m'.mem = Function.update m.mem a { m.mem a with cb := none } := by
  have harmed := h.armed a ha List.not_mem_nil
  obtain ⟨r, m', hr, hi⟩ := cancel_inv h ha
  have hr' := hr
  unfold Timer.cancel at hr'
  by_cases hat : a ∈ m.timers
  · rw [if_pos (harmed.1 hat)] at hr'
    obtain ⟨m₁, herase, hret⟩ := Throw.bind_eq_ok_iff.1 hr'
    obtain ⟨rfl, rfl⟩ := Prod.mk.inj (Except.ok.inj hret)
    have hlive : m₁.live = (m.setCb a none).live := erase_live herase
    refine ⟨m₁, by rw [hr, decide_eq_true hat], hi, fun hnot => absurd hat hnot, hlive, ?_⟩
    rw [(erase_some herase).1]
    rfl
  · have hcb : ¬ (m.mem a).cb.isSome = true := fun hcb => hat (harmed.2 hcb)
    rw [if_neg hcb] at hr'
    obtain ⟨rfl, rfl⟩ := Prod.mk.inj (Except.ok.inj hr')
    rw [Bool.not_eq_true, Option.isSome_eq_false_iff, Option.isNone_iff_eq_none] at hcb
    refine ⟨m, by rw [hr, decide_eq_false hat], hi, fun _ => rfl, rfl, ?_⟩
    rw [← hcb, Function.update_eq_self]

theorem refresh_spec (h : m.Inv []) (now : UInt64) (ha : m.live a = true) :
    ∃ m', Timer.refresh m now a = .ok (decide (a ∈ m.timers), m') ∧ m'.Inv [] ∧ (a ∉ m.timers → m' = m) ∧
      m'.live = m.live ∧
      (a ∈ m.timers → m'.mem = Function.update m.mem a { m.mem a with next := now + (m.mem a).ms }) := by
  have hnone := cb_isNone_iff h ha
  obtain ⟨r, m', hr, hi⟩ := refresh_inv h now ha
  have hr' := hr
  unfold Timer.refresh at hr'
  by_cases hat : a ∈ m.timers
  · obtain ⟨i, timers, hf, he, -, -⟩ := erase_find h.sorted hat
    rw [if_neg fun hcb => hnone.1 hcb hat, hf] at hr'
    obtain ⟨m₁, herase, hr'⟩ := Throw.bind_eq_ok_iff.1 hr'
    obtain ⟨m₂, hnext, hret⟩ := Throw.bind_eq_ok_iff.1 hr'
    obtain ⟨rfl, rfl⟩ := Prod.mk.inj (Except.ok.inj hret)
    obtain ⟨-, rfl⟩ := setNext_some hnext
    have hlive : m₁.live = m.live := erase_live herase
    refine ⟨_, by rw [hr, decide_eq_true hat], hi, fun hnot => absurd hat hnot, hlive, fun _ => ?_⟩
    show Function.update m₁.mem a _ = _
    rw [(erase_some herase).1]
  · rw [if_pos (hnone.2 hat)] at hr'
    obtain ⟨rfl, rfl⟩ := Prod.mk.inj (Except.ok.inj hr')
    exact ⟨m, by rw [hr, decide_eq_false hat], hi, fun _ => rfl, rfl, fun hin => absurd hin hat⟩

theorem reset_spec (h : m.Inv []) (now ms : UInt64) (fromNow : Bool) (ha : m.live a = true)
    (hms : ¬ (ms == (m.mem a).ms && !fromNow) = true) :
    ∃ atFront m', Timer.reset m now ms fromNow a = .ok (decide (a ∈ m.timers), atFront, m') ∧ m'.Inv [] ∧
      (a ∉ m.timers → m' = m) ∧ m'.live = m.live ∧
      (a ∈ m.timers → m'.mem = Function.update m.mem a
        { m.mem a with ms := ms, next := (if fromNow then now else (m.mem a).next - (m.mem a).ms) + ms }) := by
  have hnone := cb_isNone_iff h ha
  obtain ⟨r, atFront, m', hr, hi⟩ := reset_inv h now ms fromNow ha
  have hr' := hr
  unfold Timer.reset at hr'
  rw [if_neg hms] at hr'
  by_cases hat : a ∈ m.timers
  · obtain ⟨i, timers, hf, he, -, -⟩ := erase_find h.sorted hat
    rw [if_neg fun hcb => hnone.1 hcb hat, hf] at hr'
    obtain ⟨m₁, herase, hr'⟩ := Throw.bind_eq_ok_iff.1 hr'
    obtain ⟨m₂, hnext, hret⟩ := Throw.bind_eq_ok_iff.1 hr'
    have hret : (true, (m₂.addTimerPtr a).2, (m₂.addTimerPtr a).1) = (r, atFront, m') := Except.ok.inj hret
    obtain ⟨rfl, hret'⟩ := Prod.mk.inj hret
    obtain ⟨-, rfl⟩ := Prod.mk.inj hret'
    obtain ⟨-, rfl⟩ := setNext_some hnext
    have hlive : m₁.live = m.live := erase_live herase
    refine ⟨_, _, by rw [hr, decide_eq_true hat], hi, fun hnot => absurd hat hnot, ?_, fun _ => ?_⟩
    · rw [(addTimerPtr_mem _ a).2]
      exact hlive
    · rw [(addTimerPtr_mem _ a).1]
      simp only [setMs, Function.update_self, Function.update_idem, (erase_some herase).1]
  · rw [if_pos (hnone.2 hat)] at hr'
    obtain ⟨rfl, hret⟩ := Prod.mk.inj (Except.ok.inj hr')
    obtain ⟨-, rfl⟩ := Prod.mk.inj hret
    exact ⟨_, m, by rw [hr, decide_eq_false hat], hi, fun _ => rfl, rfl, fun hin => absurd hin hat⟩

/-- A `reset` to the timer's own period, not from now, looks at nothing else. -/
theorem reset_same (m : TimerManager γ) (now : UInt64) (a : Nat) :
    Timer.reset m now (m.mem a).ms false a = .ok (true, false, m) := by
  simp [Timer.reset, pure, Except.pure]

end TimerManager

/-! ## What the timers were armed for -/

/-- A manager with, for each timer, the time that its period was last counted from, and whether `addTimer` was given a
callback that is not empty. -/
structure TimerHistory (γ : Type u) where
  manager : TimerManager γ
  armedAt : Nat → UInt64
  given : Nat → Bool

namespace TimerHistory

/-- The times after a call: a timer is armed when it is added, when it expires and is recurring, and when `refresh`, or
`reset` from now, has put it back into the set. -/
def armedAfter (s : TimerHistory γ) : TimerCall γ → Nat → UInt64
  | .op (.addTimer now _ _ _ a) | .addEmpty now _ _ a => Function.update s.armedAt a now
  | .op (.refresh now a) =>
    match Timer.refresh s.manager now a with
    | .ok (true, _) => Function.update s.armedAt a now
    | _ => s.armedAt
  | .op (.reset now ms fromNow a) =>
    match Timer.reset s.manager now ms fromNow a with
    | .ok (true, _) => if fromNow then Function.update s.armedAt a now else s.armedAt
    | _ => s.armedAt
  | .op (.listExpiredCb now _) => fun a =>
    if a ∈ s.manager.dueTimers now ∧ (s.manager.mem a).recurring = true then now else s.armedAt a
  | _ => s.armedAt

/-- Which timers were given a callback, after a call. -/
def givenAfter (s : TimerHistory γ) : TimerCall γ → Nat → Bool
  | .op (.addTimer _ _ _ _ a) => Function.update s.given a true
  | .addEmpty _ _ _ a => Function.update s.given a false
  | _ => s.given

end TimerHistory

/-- The runs of `timerCallSys` with what they record. -/
def timerHistorySys (γ : Type u) : Transition.Sys (TimerHistory γ) (TimerCall γ) where
  init s := ∃ mem now, s.manager = TimerManager.new mem now ∧ s.given = fun _ => false
  step s call := ((timerCallSys γ).step s.manager call).map fun m =>
    { manager := m, armedAt := s.armedAfter call, given := s.givenAfter call }

/-- Every reachable manager is reached with a history. -/
theorem history_reachable {m : TimerManager γ} (h : (timerCallSys γ).Reachable m) :
    ∃ s, (timerHistorySys γ).Reachable s ∧ s.manager = m := by
  refine h.invariant (I := fun m => ∃ s, (timerHistorySys γ).Reachable s ∧ s.manager = m) ?_ ?_
  · rintro _ ⟨mem, now, rfl⟩
    exact ⟨⟨_, fun _ => 0, fun _ => false⟩, .init ⟨mem, now, rfl, rfl⟩, rfl⟩
  · rintro _ call m' ⟨s, hs, rfl⟩ - hstep
    refine ⟨⟨m', s.armedAfter call, s.givenAfter call⟩, hs.tail call trivial ?_, rfl⟩
    simp only [timerHistorySys, hstep, Option.map_some]

/-- What a history records, beside the manager whose callbacks say whether they were empty from the start. -/
structure Recorded (m : TimerManager γ) (armedAt : Nat → UInt64) (given : Nat → Bool)
    (m₁ : TimerManager (Option γ)) : Prop where
  represents : Represents m m₁
  given : ∀ a, given a = true → (m₁.mem a).cb ≠ some none
  next : ∀ a, m₁.live a = true → (m₁.mem a).next = armedAt a + (m₁.mem a).ms

namespace Recorded

open TimerManager

variable {m m' : TimerManager γ} {m₁ m₁' : TimerManager (Option γ)} {armedAt : Nat → UInt64} {given : Nat → Bool}
  {a : Nat} {now ms : UInt64}

theorem inv (h : Recorded m armedAt given m₁) : m₁.Inv [] := h.represents.inv

theorem next_eq (h : Recorded m armedAt given m₁) (ha : m.live a = true) :
    (m.mem a).next = armedAt a + (m.mem a).ms := by
  obtain rfl := h.represents.eq
  exact h.next a ha

/-- A call that writes one timer, and gives it no callback. -/
theorem update (h : Recorded m armedAt given m₁) {t : Timer (Option γ)} (start : UInt64) (hi : m₁'.Inv [])
    (hlive : m₁'.live = m₁.live) (hmem : m₁'.mem = Function.update m₁.mem a t)
    (hcb : t.cb = (m₁.mem a).cb ∨ t.cb = none) (hnext : m₁.live a = true → t.next = start + t.ms) :
    Recorded m₁'.join (Function.update armedAt a start) given m₁' where
  represents := ⟨rfl, hi⟩
  given b hb := by
    rw [hmem]
    by_cases hba : b = a
    · rw [hba, Function.update_self]
      rcases hcb with hcb | hcb
      · rw [hcb]
        exact h.given a (hba ▸ hb)
      · simp [hcb]
    · rw [Function.update_of_ne hba]
      exact h.given b hb
  next b hb := by
    rw [hlive] at hb
    rw [hmem]
    by_cases hba : b = a
    · rw [hba, Function.update_self, Function.update_self]
      exact hnext (hba ▸ hb)
    · rw [Function.update_of_ne hba, Function.update_of_ne hba]
      exact h.next b hb

/-- A call that writes no timer. -/
theorem of_mem (h : Recorded m armedAt given m₁) (hrep : Represents m' m₁') (hmem : m₁'.mem = m₁.mem)
    (hlive : ∀ a, m₁'.live a = true → m₁.live a = true) : Recorded m' armedAt given m₁' where
  represents := hrep
  given a ha := hmem ▸ h.given a ha
  next a ha := hmem ▸ h.next a (hlive a ha)

/-- A call that constructs a timer. -/
theorem addTimer (h : Recorded m armedAt given m₁) (now ms : UInt64) (cb : Option γ) (recurring : Bool)
    (ha : m.live a = false) :
    Recorded (m.addTimer now ms cb recurring a).1 (Function.update armedAt a now) (Function.update given a cb.isSome)
      (m₁.addTimer now ms (some cb) recurring a).1 := by
  have hmem : (m₁.addTimer now ms (some cb) recurring a).1.mem =
      Function.update m₁.mem a (Timer.new now ms (some cb) recurring) := by
    rw [TimerManager.addTimer, (addTimerPtr_mem _ a).1]
  have hlive : (m₁.addTimer now ms (some cb) recurring a).1.live = Function.update m₁.live a true := by
    rw [TimerManager.addTimer, (addTimerPtr_mem _ a).2]
  obtain rfl := h.represents.eq
  refine ⟨⟨?_, addTimer_inv h.inv now ms cb recurring ha⟩, fun b hb => ?_, fun b hb => ?_⟩
  · exact congrArg Prod.fst (addTimer_join m₁ now ms (some cb) recurring a)
  · rw [hmem]
    by_cases hba : b = a
    · rw [hba, Function.update_self] at hb
      rw [hba, Function.update_self]
      cases cb with
      | none => cases hb
      | some f => simp [Timer.new]
    · rw [Function.update_of_ne hba] at hb ⊢
      exact h.given b hb
  · rw [hmem]
    rw [hlive] at hb
    by_cases hba : b = a
    · rw [hba, Function.update_self, Function.update_self]
      rfl
    · rw [Function.update_of_ne hba] at hb
      rw [Function.update_of_ne hba, Function.update_of_ne hba]
      exact h.next b hb

/-- A timer whose callback is empty is one that has been emptied, or was empty from the start. -/
theorem cases_cb (h : Recorded m armedAt given m₁) (a : Nat) :
    (m.mem a).cb = none ∧ (m₁.mem a).cb = some none ∨ (m₁.mem a).cb ≠ some none := by
  obtain rfl := h.represents.eq
  by_cases hcb : (m₁.mem a).cb = some none
  · refine .inl ⟨?_, hcb⟩
    simp only [join, Timer.join, hcb, Option.join_some]
  · exact .inr hcb

theorem cancel (h : Recorded m armedAt given m₁) (ha : m.live a = true) :
    ∃ r m' m₁', Timer.cancel m a = .ok (r, m') ∧ Recorded m' armedAt given m₁' ∧ (r = false → m' = m) ∧
      (given a = true → (r = true ↔ a ∈ m.timers)) := by
  rcases h.cases_cb a with ⟨hcb, hempty⟩ | hcb
  · exact ⟨_, m, m₁, (TimerOp.run_empty hcb 0 0 false).1, h, fun _ => rfl, fun hg => absurd hempty (h.given a hg)⟩
  · obtain rfl := h.represents.eq
    obtain ⟨m₁', hr, hi, hsame, hlive, hmem⟩ := cancel_spec h.inv ha
    refine ⟨decide (a ∈ m₁.timers), m₁'.join, m₁', by rw [cancel_join hcb, hr]; rfl, ?_, fun hr => ?_,
      fun _ => decide_eq_true_iff⟩
    · have hrec := h.update (armedAt a) hi hlive hmem (.inr rfl) (h.next a)
      rwa [Function.update_eq_self] at hrec
    · rw [hsame (of_decide_eq_false hr)]

theorem refresh (h : Recorded m armedAt given m₁) (now : UInt64) (ha : m.live a = true) :
    ∃ r m' m₁', Timer.refresh m now a = .ok (r, m') ∧
      Recorded m' (if r then Function.update armedAt a now else armedAt) given m₁' ∧ (r = false → m' = m) ∧
      (given a = true → (r = true ↔ a ∈ m.timers)) := by
  rcases h.cases_cb a with ⟨hcb, hempty⟩ | hcb
  · exact ⟨_, m, m₁, (TimerOp.run_empty hcb now 0 false).2.1, h, fun _ => rfl,
      fun hg => absurd hempty (h.given a hg)⟩
  · obtain rfl := h.represents.eq
    obtain ⟨m₁', hr, hi, hsame, hlive, hmem⟩ := refresh_spec h.inv now ha
    refine ⟨decide (a ∈ m₁.timers), m₁'.join, m₁', by rw [refresh_join hcb, hr]; rfl, ?_, fun hr => ?_,
      fun _ => decide_eq_true_iff⟩
    · by_cases hat : a ∈ m₁.timers
      · rw [if_pos (decide_eq_true hat)]
        exact h.update now hi hlive (hmem hat) (.inl rfl) fun _ => rfl
      · rw [if_neg (by simpa using hat), hsame hat]
        exact h
    · rw [hsame (of_decide_eq_false hr)]

/-- A timer that `reset` has put back is in the set with the new period. -/
theorem reset_armed {m : TimerManager γ} (h : m.Inv []) {m' : TimerManager γ} (hi : m'.Inv []) {t : Timer γ}
    (hlive : m'.live = m.live) (hmem : m'.mem = Function.update m.mem a t) (hcb : t.cb = (m.mem a).cb)
    (hat : a ∈ m.timers) : a ∈ m'.timers := by
  have ha := h.live a hat
  rw [hi.armed a (hlive ▸ ha) List.not_mem_nil, hmem, Function.update_self, hcb]
  exact (h.armed a ha List.not_mem_nil).1 hat

theorem reset (h : Recorded m armedAt given m₁) (now ms : UInt64) (fromNow : Bool) (ha : m.live a = true)
    (hms : ¬ (ms == (m.mem a).ms && !fromNow) = true) :
    ∃ r atFront m' m₁', Timer.reset m now ms fromNow a = .ok (r, atFront, m') ∧
      Recorded m' (if r && fromNow then Function.update armedAt a now else armedAt) given m₁' ∧ (r = false → m' = m) ∧
      (given a = true → (r = true ↔ a ∈ m.timers)) ∧ m'.live = m.live ∧
      (r = true → a ∈ m'.timers ∧ (m'.mem a).ms = ms) := by
  rcases h.cases_cb a with ⟨hcb, hempty⟩ | hcb
  · have hrun := (TimerOp.run_empty hcb now ms fromNow).2.2
    rw [Bool.not_eq_true] at hms
    rw [hms] at hrun
    exact ⟨_, _, m, m₁, hrun, h, fun _ => rfl, fun hg => absurd hempty (h.given a hg), rfl, fun hr => by cases hr⟩
  · obtain rfl := h.represents.eq
    obtain ⟨atFront, m₁', hr, hi, hsame, hlive, hmem⟩ := reset_spec h.inv now ms fromNow ha hms
    refine ⟨decide (a ∈ m₁.timers), atFront, m₁'.join, m₁', by rw [reset_join hcb, hr]; rfl, ?_, fun hr => ?_,
      fun _ => decide_eq_true_iff, hlive, fun hr => ?_⟩
    · by_cases hat : a ∈ m₁.timers
      · have hrec := h.update (if fromNow then now else (m₁.mem a).next - (m₁.mem a).ms) hi hlive (hmem hat)
          (.inl rfl) fun _ => rfl
        rw [decide_eq_true hat, Bool.true_and]
        cases fromNow with
        | true => exact hrec
        | false =>
          -- the time it was last armed is what the code computes
          have hstart : (m₁.mem a).next - (m₁.mem a).ms = armedAt a := by
            rw [h.next a ha, UInt64.add_sub_cancel]
          simp only [Bool.false_eq_true, if_false] at hrec ⊢
          rwa [hstart, Function.update_eq_self] at hrec
      · rw [if_neg (by simp [hat]), hsame hat]
        exact h
    · rw [hsame (of_decide_eq_false hr)]
    · have hat := of_decide_eq_true hr
      refine ⟨reset_armed h.inv hi hlive (hmem hat) rfl hat, ?_⟩
      show (m₁'.mem a).ms = ms
      rw [hmem hat, Function.update_self]

theorem listExpiredCb (h : Recorded m armedAt given m₁) (now : UInt64) {key : Nat} (hkey : m.live key = false) :
    ∃ cbs m' m₁', m.listExpiredCb now key = .ok (cbs, m') ∧
      Recorded m' (fun a => if a ∈ m.dueTimers now ∧ (m.mem a).recurring = true then now else armedAt a) given m₁' := by
  obtain rfl := h.represents.eq
  obtain ⟨cbs, m₁', hr, hi⟩ := listExpiredCb_inv h.inv now key
  obtain ⟨-, hlive, hmem⟩ := listExpiredCb_due h.inv hkey hr
  refine ⟨_, m₁'.join, m₁', by rw [listExpiredCb_join, hr]; rfl, ⟨rfl, hi⟩, fun a ha => ?_, fun a ha => ?_⟩
  · have hgiven := h.given a ha
    rw [hmem]
    unfold expired
    split
    · split
      · exact hgiven
      · simp
    · exact hgiven
  · rw [hlive] at ha
    have hnext := h.next a ha
    show _ = (if a ∈ m₁.dueTimers now ∧ (m₁.mem a).recurring = true then now else armedAt a) + _
    rw [hmem]
    by_cases hd : a ∈ m₁.dueTimers now
    · rw [if_pos hd, expired]
      cases hrec' : (m₁.mem a).recurring with
      | true => simp [hd]
      | false => simpa using hnext
    · rw [if_neg hd, if_neg fun hd' => hd hd'.1]
      exact hnext

end Recorded

/-- One call keeps what a history records. -/
theorem recorded_step {s s' : TimerHistory γ} {call : TimerCall γ}
    (h : ∃ m₁, Recorded s.manager s.armedAt s.given m₁) (hs : (timerHistorySys γ).step s call = some s') :
    ∃ m₁, Recorded s'.manager s'.armedAt s'.given m₁ := by
  obtain ⟨m₁, h⟩ := h
  obtain ⟨m', hstep, rfl⟩ := Option.map_eq_some_iff.1 hs
  obtain ⟨he, hrun⟩ := timerCallSys_step.1 hstep
  cases call with
  | addEmpty now ms recurring a =>
    obtain rfl := Except.ok.inj hrun
    exact ⟨_, h.addTimer now ms none recurring he⟩
  | op o =>
    cases o with
    | addTimer now ms cb recurring a =>
      obtain rfl := Except.ok.inj hrun
      exact ⟨_, h.addTimer now ms (some cb) recurring he⟩
    | cancel a =>
      obtain ⟨⟨r, m₂⟩, hcall, rfl⟩ := Throw.map_eq_ok_iff.1 hrun
      obtain ⟨r', m₂', m₁', hcall', hrec, -⟩ := h.cancel he
      obtain ⟨-, rfl⟩ := Prod.mk.inj (Except.ok.inj (hcall.symm.trans hcall'))
      exact ⟨m₁', hrec⟩
    | refresh now a =>
      obtain ⟨⟨r, m₂⟩, hcall, rfl⟩ := Throw.map_eq_ok_iff.1 hrun
      obtain ⟨r', m₂', m₁', hcall', hrec, -⟩ := h.refresh now he
      obtain ⟨rfl, rfl⟩ := Prod.mk.inj (Except.ok.inj (hcall.symm.trans hcall'))
      refine ⟨m₁', ?_⟩
      simp only [TimerHistory.armedAfter, TimerHistory.givenAfter, hcall]
      cases r <;> exact hrec
    | reset now ms fromNow a =>
      obtain ⟨⟨r, atFront, m₂⟩, hcall, rfl⟩ := Throw.map_eq_ok_iff.1 hrun
      by_cases hms : (ms == (s.manager.mem a).ms && !fromNow) = true
      · rw [Bool.and_eq_true, beq_iff_eq, Bool.not_eq_true'] at hms
        obtain ⟨rfl, rfl⟩ := hms
        have hsame := TimerManager.reset_same s.manager now a
        obtain ⟨-, hm₂⟩ := Prod.mk.inj (Except.ok.inj (hcall.symm.trans hsame))
        obtain ⟨-, rfl⟩ := Prod.mk.inj hm₂
        refine ⟨m₁, ?_⟩
        simp only [TimerHistory.armedAfter, TimerHistory.givenAfter, hsame]
        exact h
      · obtain ⟨r', atFront', m₂', m₁', hcall', hrec, -⟩ := h.reset now ms fromNow he hms
        obtain ⟨rfl, hm₂⟩ := Prod.mk.inj (Except.ok.inj (hcall.symm.trans hcall'))
        obtain ⟨-, rfl⟩ := Prod.mk.inj hm₂
        refine ⟨m₁', ?_⟩
        simp only [TimerHistory.armedAfter, TimerHistory.givenAfter, hcall]
        cases r <;> exact hrec
    | listExpiredCb now key =>
      obtain ⟨⟨cbs, m₂⟩, hcall, rfl⟩ := Throw.map_eq_ok_iff.1 hrun
      obtain ⟨cbs', m₂', m₁', hcall', hrec⟩ := h.listExpiredCb now he
      obtain ⟨-, rfl⟩ := Prod.mk.inj (Except.ok.inj (hcall.symm.trans hcall'))
      exact ⟨m₁', hrec⟩
    | getNextTimer now =>
      obtain rfl := Except.ok.inj hrun
      obtain ⟨m₁', hrun₁, hi⟩ := TimerManager.inv_run h.inv (.getNextTimer now) trivial
      obtain rfl := Except.ok.inj hrun₁
      obtain ⟨hmem, hlive⟩ : (m₁.getNextTimer now).2.mem = m₁.mem ∧ (m₁.getNextTimer now).2.live = m₁.live := by
        unfold TimerManager.getNextTimer
        dsimp only
        split <;> exact ⟨rfl, rfl⟩
      refine ⟨_, h.of_mem ⟨?_, hi⟩ hmem fun b hb => hlive ▸ hb⟩
      rw [h.represents.eq]
      exact TimerManager.getNextTimer_join m₁ now
    | release a =>
      obtain rfl := Except.ok.inj hrun
      rw [h.represents.eq] at he
      obtain ⟨m₁', hrun₁, hi⟩ := TimerManager.inv_run h.inv (.release a) he
      obtain rfl := Except.ok.inj hrun₁
      refine ⟨_, h.of_mem ⟨?_, hi⟩ rfl fun b hb => ?_⟩
      · rw [h.represents.eq]
        rfl
      · by_cases hba : b = a
        · simp [hba] at hb
        · simpa [Function.update_of_ne hba] using hb

theorem recorded_reachable {s : TimerHistory γ} (h : (timerHistorySys γ).Reachable s) :
    ∃ m₁, Recorded s.manager s.armedAt s.given m₁ := by
  refine h.invariant (I := fun s => ∃ m₁, Recorded s.manager s.armedAt s.given m₁) ?_
    fun s call s' hs _ hstep => recorded_step hs hstep
  rintro ⟨_, armedAt, _⟩ ⟨mem, now, rfl, rfl⟩
  exact ⟨_, ⟨represents_new mem now, fun a ha => (by cases ha), fun a ha => (by cases ha)⟩⟩

/-! ## The report -/

/-- A call on a timer that returns whether it was pending. -/
inductive TimerRequest
  | cancel
  | refresh (now : UInt64)
  | reset (now ms : UInt64) (fromNow : Bool)

/-- What the call returns, and the manager after it. -/
def TimerRequest.run (m : TimerManager γ) (a : Nat) : TimerRequest → Except SetFault (Bool × TimerManager γ)
  | cancel => Timer.cancel m a
  | refresh now => Timer.refresh m now a
  | reset now ms fromNow => (Timer.reset m now ms fromNow a).map fun r => (r.1, r.2.2)

/-- The call reports truthfully: it returns true iff the timer is pending, has changed nothing when it returns false,
and when `reset` returns true the timer is pending with the new period, counted from now or from where it was
counted. -/
def Truthful (s : TimerHistory γ) (a : Nat) (request : TimerRequest) : Prop :=
  ∃ r m', request.run s.manager a = .ok (r, m') ∧ (r = true ↔ a ∈ s.manager.timers) ∧ (r = false → m' = s.manager) ∧
    ∀ now ms fromNow, request = .reset now ms fromNow → r = true →
      a ∈ m'.timers ∧ (m'.mem a).ms = ms ∧ (m'.mem a).next = (if fromNow then now else s.armedAt a) + ms

/-- A cancelled timer is not pending, and a `reset` to its own period returns true. -/
theorem reset_cancelled_reports_true : ∃ s : TimerHistory Nat, (timerHistorySys Nat).Reachable s ∧
    s.manager.live 10 = true ∧ s.given 10 = true ∧ ¬ Truthful s 10 (.reset 1 5 false) := by
  obtain ⟨s, hs, hp⟩ := (timerHistorySys Nat).reachable_of_exec
    ⟨TimerManager.new (fun _ => Timer.ofNext 0) 0, fun _ => 0, fun _ => false⟩ ⟨_, _, rfl, rfl⟩
    [.op (.addTimer 0 5 7 false 10), .op (.cancel 10)]
    (p := fun s => s.manager.live 10 && s.given 10 && s.manager.timers == [] && (s.manager.mem 10).ms == 5)
    rfl
  simp only [Bool.and_eq_true, beq_iff_eq] at hp
  obtain ⟨⟨⟨hlive, hgiven⟩, htimers⟩, hms⟩ := hp
  refine ⟨s, hs, hlive, hgiven, ?_⟩
  rintro ⟨r, m', hcall, hr, -⟩
  have hrun : TimerRequest.run s.manager 10 (.reset 1 5 false) = .ok (true, s.manager) := by
    rw [TimerRequest.run, ← hms, TimerManager.reset_same]
    rfl
  obtain ⟨rfl, -⟩ := Prod.mk.inj (Except.ok.inj (hrun.symm.trans hcall))
  have hpending := hr.1 rfl
  rw [htimers] at hpending
  cases hpending

/-- **What the calls on a timer report.** In every reachable manager, `cancel`, `refresh` and `reset` report truthfully
about a timer that was given a callback, but for a `reset` to its own period, not from now, when it is not pending: it
returns true. -/
theorem truthful_iff {s : TimerHistory γ} (h : (timerHistorySys γ).Reachable s) {a : Nat}
    (hlive : s.manager.live a = true) (hgiven : s.given a = true) (request : TimerRequest) :
    Truthful s a request ↔
      ¬ ((∃ now, request = .reset now (s.manager.mem a).ms false) ∧ a ∉ s.manager.timers) := by
  obtain ⟨m₁, hrec⟩ := recorded_reachable h
  cases request with
  | cancel =>
    obtain ⟨r, m', m₁', hcall, -, hsame, hr⟩ := hrec.cancel hlive
    refine iff_of_true ⟨r, m', hcall, hr hgiven, hsame, fun now ms fromNow e => by cases e⟩ ?_
    rintro ⟨⟨now, e⟩, -⟩
    cases e
  | refresh now =>
    obtain ⟨r, m', m₁', hcall, -, hsame, hr⟩ := hrec.refresh now hlive
    refine iff_of_true ⟨r, m', hcall, hr hgiven, hsame, fun now' ms fromNow e => by cases e⟩ ?_
    rintro ⟨⟨now', e⟩, -⟩
    cases e
  | reset now ms fromNow =>
    by_cases hms : (ms == (s.manager.mem a).ms && !fromNow) = true
    · rw [Bool.and_eq_true, beq_iff_eq, Bool.not_eq_true'] at hms
      obtain ⟨rfl, rfl⟩ := hms
      have hrun : TimerRequest.run s.manager a (.reset now (s.manager.mem a).ms false) = .ok (true, s.manager) := by
        rw [TimerRequest.run, TimerManager.reset_same]
        rfl
      constructor
      · rintro ⟨r, m', hcall, hr, -⟩ ⟨-, hat⟩
        obtain ⟨rfl, -⟩ := Prod.mk.inj (Except.ok.inj (hrun.symm.trans hcall))
        exact hat (hr.1 rfl)
      · intro hcond
        have hat : a ∈ s.manager.timers := by_contra fun hat => hcond ⟨⟨now, rfl⟩, hat⟩
        refine ⟨true, s.manager, hrun, iff_of_true rfl hat, fun _ => rfl, fun now' ms' fromNow' e _ => ?_⟩
        obtain ⟨rfl, rfl, rfl⟩ := TimerRequest.reset.inj e
        exact ⟨hat, rfl, hrec.next_eq hlive⟩
    · obtain ⟨r, atFront, m', m₁', hcall, hrec', hsame, hr, hlive', hreset⟩ := hrec.reset now ms fromNow hlive hms
      refine iff_of_true ⟨r, m', ?_, hr hgiven, hsame, ?_⟩ ?_
      · rw [TimerRequest.run, hcall]
        rfl
      · intro now' ms' fromNow' e hr
        obtain ⟨rfl, rfl, rfl⟩ := TimerRequest.reset.inj e
        obtain ⟨hat, hperiod⟩ := hreset hr
        have hnext := hrec'.next_eq (a := a) (hlive' ▸ hlive)
        rw [hperiod, hr, Bool.true_and] at hnext
        refine ⟨hat, hperiod, hnext.trans ?_⟩
        cases fromNow with
        | true => simp
        | false => rfl
      · rintro ⟨⟨now', e⟩, -⟩
        cases e
        simp at hms

/-- A pending timer is cancelled. -/
theorem truthful_iff_pending : ∃ s : TimerHistory Nat, 10 ∈ s.manager.timers ∧ Truthful s 10 .cancel := by
  obtain ⟨s, hs, hp⟩ := (timerHistorySys Nat).reachable_of_exec
    ⟨TimerManager.new (fun _ => Timer.ofNext 0) 0, fun _ => 0, fun _ => false⟩ ⟨_, _, rfl, rfl⟩
    [.op (.addTimer 0 5 7 true 10), .op (.listExpiredCb 6 30)]
    (p := fun s => s.manager.live 10 && s.given 10 && s.manager.timers == [10]) rfl
  simp only [Bool.and_eq_true, beq_iff_eq] at hp
  refine ⟨s, by simp [hp.2], (truthful_iff hs hp.1.1 hp.1.2 .cancel).2 ?_⟩
  rintro ⟨⟨now, e⟩, -⟩
  cases e

end Megalo
