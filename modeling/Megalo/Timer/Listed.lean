import Megalo.Timer.Empty
import Mathlib.Data.List.Nodup

/-!
# `listExpiredCb` hands out exactly the timers that are due

- `listed` is the timers that are due, or all of them after the clock has gone back by more than an hour; it is what
  the code takes out of the set as long as `m_previousTime - 60 * 60 * 1000` does not wrap (`dueTimers_eq_listed`);
- `listExpiredCb_inv_due` is one call on a manager that keeps the invariant of the timer set, and
  `Represents.listExpiredCb` the same call when some of the timers have an empty callback;
- a timer whose callback has been emptied stays out of the set until its address is used again (`not_mem_steps`).
-/

namespace Megalo

universe u

variable {γ : Type u}

namespace TimerManager

variable {m m' : TimerManager γ} {now : UInt64} {key : Nat}

/-- The timers that are due, in the order of the set; all of them after a clock rollover. -/
def listed (m : TimerManager γ) (now : UInt64) : List Nat :=
  m.timers.filter fun a => decide (now.toNat + 3600000 < m.previousTime.toNat) || (m.mem a).next ≤ now

theorem dueTimers_eq_listed (hprev : 3600000 ≤ m.previousTime.toNat) : m.dueTimers now = m.listed now := by
  have hsub : (m.previousTime - 60 * 60 * 1000).toNat = m.previousTime.toNat - 3600000 :=
    UInt64.toNat_sub_of_le _ _ (UInt64.le_iff_toNat_le.2 hprev)
  have hroll : (m.deleteClockRollover now).1 = decide (now.toNat + 3600000 < m.previousTime.toNat) := by
    simp only [deleteClockRollover, UInt64.lt_iff_toNat_lt, hsub, ← Bool.decide_and]
    refine decide_eq_decide.2 ?_
    omega
  rw [dueTimers, listed, hroll]

/-- One call, with what it leaves in the set. -/
theorem listExpiredCb_inv_due (h : m.Inv []) (now : UInt64) (hkey : m.live key = false) :
    ∃ m', m.listExpiredCb now key = .ok ((m.dueTimers now).map (fun a => (m.mem a).cb), m') ∧ m'.Inv [] ∧
      m'.live = m.live ∧
      (∀ a, m'.mem a = if a ∈ m.dueTimers now then expired now (m.mem a) else m.mem a) ∧
      ∀ a, a ∈ m'.timers ↔ a ∈ m.timers ∧ (a ∈ m.dueTimers now → (m.mem a).recurring = true) := by
  obtain ⟨cbs, m', hcall, hi⟩ := listExpiredCb_inv h now key
  obtain ⟨rfl, hlive, hmem⟩ := listExpiredCb_due h hkey hcall
  refine ⟨m', hcall, hi, hlive, hmem, fun a => ?_⟩
  cases ha : m.live a with
  | false =>
    have hm : a ∉ m.timers := fun hm => by rw [h.live a hm] at ha; cases ha
    have hm' : a ∉ m'.timers := fun hm' => by rw [← hlive, hi.live a hm'] at ha; cases ha
    exact ⟨fun hin => absurd hin hm', fun hin => absurd hin.1 hm⟩
  | true =>
    have harmed := h.armed a ha List.not_mem_nil
    have harmed' := hi.armed a (by rw [hlive, ha]) List.not_mem_nil
    rw [harmed', harmed, hmem]
    by_cases hdue : a ∈ m.dueTimers now
    · have hcb := harmed.1 (List.mem_of_mem_filter hdue)
      rw [if_pos hdue]
      cases hrec : (m.mem a).recurring with
      | true => simp [expired, hrec, hcb]
      | false => simp [expired, hrec, hcb, hdue]
    · rw [if_neg hdue]
      simp [hdue]

end TimerManager

open TimerManager

variable {m m' : TimerManager γ} {m₁ : TimerManager (Option γ)} {now : UInt64} {key a : Nat}

theorem expired_join (t : Timer (Option γ)) : (expired now t).join = expired now t.join := by
  unfold expired
  rw [show t.join.recurring = t.recurring from rfl]
  split <;> rfl

theorem Represents.listExpiredCb (h : Represents m m₁) (now : UInt64) (hkey : m.live key = false) :
    ∃ m' m₁', m.listExpiredCb now key = .ok ((m.dueTimers now).map (fun a => (m.mem a).cb), m') ∧
      Represents m' m₁' ∧ m'.live = m.live ∧
      (∀ a, m'.mem a = if a ∈ m.dueTimers now then expired now (m.mem a) else m.mem a) ∧
      (∀ a, a ∈ m'.timers ↔ a ∈ m.timers ∧ (a ∈ m.dueTimers now → (m.mem a).recurring = true)) ∧
      ∀ a ∈ m.dueTimers now, (m.mem a).recurring = false → (m₁'.mem a).cb = none := by
  obtain ⟨rfl, hi⟩ := h
  obtain ⟨m₁', hcall, hi', hlive, hmem, htimers⟩ := listExpiredCb_inv_due hi now hkey
  refine ⟨m₁'.join, m₁', ?_, ⟨rfl, hi'⟩, hlive, fun a => ?_, htimers, fun a ha hrec => ?_⟩
  · rw [listExpiredCb_join, hcall, Except.map, List.map_map]
    rfl
  · show (m₁'.mem a).join = if a ∈ m₁.dueTimers now then expired now (m₁.mem a).join else (m₁.mem a).join
    rw [hmem, ← expired_join]
    split <;> rfl
  · have ha' : a ∈ m₁.dueTimers now := ha
    have hrec' : (m₁.mem a).recurring = false := hrec
    rw [hmem, if_pos ha', expired, if_neg (by simp [hrec'])]

/-- A timer whose callback has been emptied stays out of the set until its address is used again. -/
theorem not_mem_steps (h : Represents m m₁) (hcb : (m₁.mem a).cb = none)
    (hs : (timerCallSys γ).Steps (fun _ call => call.constructs ≠ some a) m m') :
    ∃ m₁', Represents m' m₁' ∧ (m₁'.mem a).cb = none := by
  induction hs with
  | refl => exact ⟨m₁, h, hcb⟩
  | tail call _ hcall hstep ih =>
    obtain ⟨m₂, h₂, hcb₂⟩ := ih
    obtain ⟨he, hrun⟩ := timerCallSys_step.1 hstep
    obtain ⟨m'', m₁', hrun', hrep, hnone⟩ := h₂.run he
    obtain rfl := Except.ok.inj (hrun.symm.trans hrun')
    exact ⟨m₁', hrep, hnone a hcb₂ hcall⟩

theorem Represents.not_mem (h : Represents m m₁) (hcb : (m₁.mem a).cb = none) : a ∉ m.timers := by
  obtain ⟨rfl, hi⟩ := h
  intro ha
  have hsome := (hi.armed a (hi.live a ha) List.not_mem_nil).1 ha
  rw [hcb] at hsome
  cases hsome

theorem Represents.nodup (h : Represents m m₁) : m.timers.Nodup := by
  obtain ⟨rfl, hi⟩ := h
  exact hi.nodup

/-- **The timers that `listExpiredCb` hands out.** In every reachable manager, whatever the clock says, they are the
timers that are due, in the order of the set, or all timers when the clock has gone back by more than an hour. Then a
recurring one is in the set once, due a period later; any other is out of it with an empty callback, and no later call
hands it out; the remaining timers are as they were. -/
theorem listExpiredCb_hands_out_due {m : TimerManager γ} (h : (timerCallSys γ).Reachable m) (now : UInt64) {key : Nat}
    (hkey : m.live key = false) (hprev : 3600000 ≤ m.previousTime.toNat) :
    ∃ m', m.listExpiredCb now key = .ok ((m.listed now).map (fun a => (m.mem a).cb), m') ∧
      (∀ a ∈ m.listed now, (m.mem a).recurring = true →
        m'.timers.count a = 1 ∧ m'.mem a = { m.mem a with next := now + (m.mem a).ms }) ∧
      (∀ a ∈ m.listed now, (m.mem a).recurring = false →
        a ∉ m'.timers ∧ m'.mem a = { m.mem a with cb := none } ∧
          ∀ m'', (timerCallSys γ).Steps (fun _ call => call.constructs ≠ some a) m' m'' →
            a ∉ m''.timers ∧ ∀ now' key', m''.live key' = false → ∃ m₃, m''.listExpiredCb now' key' =
              .ok ((m''.dueTimers now').map (fun b => (m''.mem b).cb), m₃) ∧ a ∉ m''.dueTimers now') ∧
      ∀ a, a ∉ m.listed now → m'.mem a = m.mem a ∧ (a ∈ m'.timers ↔ a ∈ m.timers) := by
  obtain ⟨m₁, hm⟩ := represents_reachable h
  obtain ⟨m', m₁', hcall, hm', hlive, hmem, htimers, hnone⟩ := hm.listExpiredCb now hkey
  rw [dueTimers_eq_listed hprev] at hcall hmem htimers hnone
  refine ⟨m', hcall, fun a ha hrec => ⟨?_, ?_⟩, fun a ha hrec => ⟨?_, ?_, fun m'' hs => ?_⟩, fun a ha => ⟨?_, ?_⟩⟩
  · exact List.count_eq_one_of_mem hm'.nodup ((htimers a).2 ⟨List.mem_of_mem_filter ha, fun _ => hrec⟩)
  · rw [hmem, if_pos ha, expired, if_pos hrec]
  · exact hm'.not_mem (hnone a ha hrec)
  · rw [hmem, if_pos ha, expired, if_neg (by simp [hrec])]
  · obtain ⟨m₂, hm₂, hcb⟩ := not_mem_steps hm' (hnone a ha hrec) hs
    have hout := hm₂.not_mem hcb
    refine ⟨hout, fun now' key' hkey' => ?_⟩
    obtain ⟨m₃, -, hcall', -⟩ := hm₂.listExpiredCb now' hkey'
    exact ⟨m₃, hcall', fun hdue => hout (List.mem_of_mem_filter hdue)⟩
  · rw [hmem, if_neg ha]
  · rw [htimers]
    exact ⟨And.left, fun hin => ⟨hin, fun hdue => absurd hdue ha⟩⟩

/-- A recurring timer and one with an empty callback are due, a third one is not. -/
theorem listExpiredCb_hands_out_due_two : ∃ m : TimerManager Nat, (timerCallSys Nat).Reachable m ∧
    m.listed 3600010 = [30, 20] ∧ ∃ cbs m', m.listExpiredCb 3600010 5 = .ok (cbs, m') ∧ m'.timers.count 20 = 1 ∧
      30 ∉ m'.timers ∧ m'.mem 10 = m.mem 10 := by
  obtain ⟨m, hm, hp⟩ := (timerCallSys Nat).reachable_of_exec (TimerManager.new (fun _ => Timer.ofNext 0) 3600000)
    ⟨_, _, rfl⟩ [.op (.addTimer 3600000 50 7 false 10), .op (.addTimer 3600000 10 8 true 20),
      .addEmpty 3600000 4 false 30]
    (p := fun m => m.listed 3600010 == [30, 20] && !m.live 5 && m.previousTime == 3600000 &&
      (m.mem 20).recurring && !(m.mem 30).recurring) rfl
  simp only [Bool.and_eq_true, beq_iff_eq, Bool.not_eq_true'] at hp
  obtain ⟨⟨⟨⟨hlisted, hkey⟩, hprev⟩, hrec⟩, honce⟩ := hp
  obtain ⟨m', hcall, hrecurring, hone, hother⟩ := listExpiredCb_hands_out_due hm 3600010 hkey (by rw [hprev]; decide)
  refine ⟨m, hm, hlisted, _, m', hcall, (hrecurring 20 (by simp [hlisted]) hrec).1,
    (hone 30 (by simp [hlisted]) honce).1, (hother 10 (by simp [hlisted])).1⟩

end Megalo
