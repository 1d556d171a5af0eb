import Megalo.Lib.Throw
import Megalo.Timer.Invariant
import Mathlib.Algebra.Order.Ring.Nat
import Mathlib.Data.List.TakeWhile

/-!
# Which calls make a timer due earlier

- `Postpones m m'`: every timer in the set of `m'` is due no earlier than one in the set of `m`, so a wait that ends
  before every timer of `m` is due ends before those of `m'`;
- a call of other code postpones, but for the timer that it arms (`TimerOp.due`); when it is one that calls
  `onTimerInsertAtFront` for a timer that comes first (`TimerOp.notifies`), it does so or postpones (`run_due`);
- `listExpiredCb` postpones when the clock has not gone back and does not wrap (`listExpiredCb_postpones`).
-/

namespace Megalo

variable {γ : Type*}

namespace TimerManager

/-- Every timer in the second set is due no earlier than one in the first. -/
def Postpones (m m' : TimerManager γ) : Prop := ∀ a ∈ m'.timers, ∃ b ∈ m.timers, (m.mem b).next ≤ (m'.mem a).next

variable {m m' : TimerManager γ} {a : Nat} {now : UInt64}

/-- Fewer timers, with the same times. -/
theorem Postpones.of_subset (htimers : ∀ a ∈ m'.timers, a ∈ m.timers)
    (hnext : ∀ a ∈ m'.timers, (m'.mem a).next = (m.mem a).next) : m.Postpones m' :=
  fun a ha => ⟨a, htimers a ha, by rw [hnext a ha]; exact UInt64.le_refl _⟩

/-! ## Arming -/

theorem less_next {mem : Nat → Timer γ} {a b : Nat} (h : Timer.less mem a b = true) : (mem a).next ≤ (mem b).next := by
  rw [Timer.less_iff] at h
  rcases h with h | ⟨h, -⟩
  · exact UInt64.le_of_lt h
  · rw [h]
    exact UInt64.le_refl _

/-- `addTimer(Timer::ptr, lock)`: a timer that comes first is notified when `m_tickled` is not set; one that does not is
due no earlier than another. -/
theorem addTimerPtr_due (hs : OrdSet.Sorted (Timer.less m.mem) m.timers) (ha : a ∉ m.timers) :
    (m.addTimerPtr a).1.mem = m.mem ∧ (∀ b ∈ (m.addTimerPtr a).1.timers, b = a ∨ b ∈ m.timers) ∧
      (m.tickled = false → (m.addTimerPtr a).2 = true ∨ ∃ b ∈ m.timers, (m.mem b).next ≤ (m.mem a).next) := by
  refine ⟨?_, fun b hb => ?_, fun htickled => ?_⟩
  · unfold addTimerPtr
    dsimp only
    split <;> rfl
  · have hinsert : b ∈ (m.insert a).1.timers := by
      unfold addTimerPtr at hb
      dsimp only at hb
      split at hb <;> exact hb
    exact OrdSet.mem_of_mem_insert hinsert
  · by_cases hpos : (m.insert a).2 = 0
    · refine .inl ?_
      have htickled' : (m.insert a).1.tickled = false := htickled
      simp [addTimerPtr, hpos, htickled']
    · obtain ⟨b, hb, hlt⟩ := OrdSet.lt_of_insert_pos (Timer.less_strictTotal m.mem) hs ha hpos
      exact .inr ⟨b, hb, less_next hlt⟩

end TimerManager

namespace TimerOp

/-- A call that other code makes. `getNextTimer` and `listExpiredCb` are called by `idle` and `stopping`. -/
def ByUser : TimerOp γ → Bool
  | listExpiredCb _ _ | getNextTimer _ => false
  | _ => true

/-- The call goes on to `onTimerInsertAtFront`. -/
def atFront (m : TimerManager γ) : TimerOp γ → Bool
  | addTimer now ms cb recurring a => (m.addTimer now ms (some cb) recurring a).2
  | reset now ms fromNow a =>
    match Timer.reset m now ms fromNow a with
    | .ok r => r.2.1
    | .error _ => false
  | _ => false

/-- The time for which a call of other code arms a timer. -/
def due (m : TimerManager γ) : TimerOp γ → Option UInt64
  | addTimer now ms _ _ _ => some (now + ms)
  | refresh now a => if (m.mem a).cb.isNone then none else some (now + (m.mem a).ms)
  | reset now ms fromNow a =>
    if ms == (m.mem a).ms && !fromNow || (m.mem a).cb.isNone then none
    else some ((if fromNow then now else (m.mem a).next - (m.mem a).ms) + ms)
  | _ => none

/-- The call would go on to `onTimerInsertAtFront` with a timer that comes first. -/
def notifies (m : TimerManager γ) : TimerOp γ → Bool
  | addTimer _ _ _ _ _ | reset _ _ _ _ => !m.tickled
  | _ => false

end TimerOp

namespace TimerManager

variable {m m' : TimerManager γ} {a : Nat} {now : UInt64}

theorem erase_some {it : Option Nat} (h : m.erase it = .ok m') :
    m'.mem = m.mem ∧ m'.tickled = m.tickled ∧ m'.timers.Sublist m.timers := by
  unfold erase at h
  split at h
  · rename_i timers htimers
    obtain rfl := Except.ok.inj h
    obtain ⟨i, -, hi⟩ := Option.bind_eq_some_iff.mp htimers
    unfold OrdSet.eraseAt at hi
    split at hi
    · obtain rfl := Option.some.inj hi
      exact ⟨rfl, rfl, List.eraseIdx_sublist _ _⟩
    · cases hi
  · cases h

theorem setNext_some {next : UInt64} (h : m.setNext a next = .ok m') :
    a ∉ m.timers ∧ m' = { m with mem := Function.update m.mem a { m.mem a with next := next } } := by
  unfold setNext at h
  split at h
  · cases h
  · obtain rfl := Except.ok.inj h
    exact ⟨‹_›, rfl⟩

theorem setCb_next (m : TimerManager γ) (a : Nat) (cb : Option γ) (b : Nat) :
    ((m.setCb a cb).mem b).next = (m.mem b).next := by
  by_cases hb : b = a
  · simp only [setCb, hb, Function.update_self]
  · simp only [setCb, Function.update_of_ne hb]

theorem cancel_due {r : Bool} (h : Timer.cancel m a = .ok (r, m')) : m.Postpones m' := by
  unfold Timer.cancel at h
  split at h
  · obtain ⟨m₁, herase, hr⟩ := Throw.bind_eq_ok_iff.1 h
    obtain ⟨-, rfl⟩ := Prod.mk.inj (Except.ok.inj hr)
    obtain ⟨hmem, -, htimers⟩ := erase_some herase
    exact .of_subset (fun b hb => htimers.subset hb) fun b _ => by rw [hmem, setCb_next]
  · obtain ⟨-, rfl⟩ := Prod.mk.inj (Except.ok.inj h)
    exact .of_subset (fun _ hb => hb) fun _ _ => rfl

theorem addTimer_due (h : m.Inv []) {ms : UInt64} {cb : γ} {recurring : Bool} (ha : m.live a = false) :
    ∀ b ∈ (m.addTimer now ms (some cb) recurring a).1.timers,
      (∃ c ∈ m.timers, (m.mem c).next ≤ ((m.addTimer now ms (some cb) recurring a).1.mem b).next) ∨
        now + ms = ((m.addTimer now ms (some cb) recurring a).1.mem b).next ∧
          ((!m.tickled) = true → (m.addTimer now ms (some cb) recurring a).2 = true) := by
  have hat : a ∉ m.timers := fun hat => by rw [h.live a hat] at ha; cases ha
  have hold : ∀ c ∈ m.timers, Function.update m.mem a (Timer.new now ms (some cb) recurring) c = m.mem c := fun c hc =>
    Function.update_of_ne (fun e : c = a => hat (e ▸ hc)) ..
  obtain ⟨hmem, htimers, hfront⟩ := addTimerPtr_due (m := { m with
    mem := Function.update m.mem a (Timer.new now ms (some cb) recurring)
    live := Function.update m.live a true }) (Timer.sorted_update _ h.sorted hat) hat
  intro b hb
  simp only [addTimer, hmem]
  rcases htimers b hb with rfl | hb
  · by_cases hflag : (!m.tickled) = true
    · rw [Bool.not_eq_true'] at hflag
      rcases hfront hflag with hfront | ⟨c, hc, hle⟩
      · exact .inr ⟨by rw [Function.update_self]; rfl, fun _ => hfront⟩
      · exact .inl ⟨c, hc, by rw [← hold c hc]; exact hle⟩
    · exact .inr ⟨by rw [Function.update_self]; rfl, fun hn => absurd hn hflag⟩
  · exact .inl ⟨b, hb, by rw [hold b hb]; exact UInt64.le_refl _⟩

theorem refresh_due {r : Bool} (h : Timer.refresh m now a = .ok (r, m')) :
    ∀ b ∈ m'.timers, (∃ c ∈ m.timers, (m.mem c).next ≤ (m'.mem b).next) ∨
      (TimerOp.refresh (γ := γ) now a).due m = some (m'.mem b).next := by
  have hsame : m.Postpones m := .of_subset (fun _ hb => hb) fun _ _ => rfl
  unfold Timer.refresh at h
  split at h
  · obtain ⟨-, rfl⟩ := Prod.mk.inj (Except.ok.inj h)
    exact fun b hb => .inl (hsame b hb)
  · rename_i hcb
    split at h
    · obtain ⟨-, rfl⟩ := Prod.mk.inj (Except.ok.inj h)
      exact fun b hb => .inl (hsame b hb)
    · obtain ⟨m₁, herase, h⟩ := Throw.bind_eq_ok_iff.1 h
      obtain ⟨m₂, hnext, hr⟩ := Throw.bind_eq_ok_iff.1 h
      obtain ⟨-, rfl⟩ := Prod.mk.inj (Except.ok.inj hr)
      obtain ⟨hmem, -, htimers⟩ := erase_some herase
      obtain ⟨-, rfl⟩ := setNext_some hnext
      intro b hb
      show (∃ c ∈ m.timers, (m.mem c).next ≤ (Function.update m₁.mem a _ b).next) ∨
        _ = some (Function.update m₁.mem a _ b).next
      by_cases hba : b = a
      · refine .inr ?_
        rw [hba, Function.update_self, TimerOp.due, if_neg hcb, hmem]
      · rcases OrdSet.mem_of_mem_insert hb with hb | hb
        · exact absurd hb hba
        · rw [Function.update_of_ne hba, hmem]
          exact .inl ⟨b, htimers.subset hb, UInt64.le_refl _⟩

/-- The end of `reset`: the timer is out of the set, and is armed again. -/
theorem armed_due (h : m.Inv []) {m₁ m₂ : TimerManager γ} {ms : UInt64} {fromNow : Bool} (hmem₁ : m₁.mem = m.mem)
    (htickled₁ : m₁.tickled = m.tickled) (htimers₁ : m₁.timers.Sublist m.timers)
    (hnext : (m₁.setMs a ms).setNext a
      ((if fromNow then now else (m₁.mem a).next - (m₁.mem a).ms) + ((m₁.setMs a ms).mem a).ms) = .ok m₂)
    (hcond : ¬ (ms == (m.mem a).ms && !fromNow || (m.mem a).cb.isNone) = true) :
    ∀ b ∈ (m₂.addTimerPtr a).1.timers, (∃ c ∈ m.timers, (m.mem c).next ≤ ((m₂.addTimerPtr a).1.mem b).next) ∨
      (TimerOp.reset (γ := γ) now ms fromNow a).due m = some ((m₂.addTimerPtr a).1.mem b).next ∧
        ((!m.tickled) = true → (m₂.addTimerPtr a).2 = true) := by
  obtain ⟨hat, hm₂⟩ := setNext_some hnext
  have hsorted₁ : OrdSet.Sorted (Timer.less m₁.mem) m₁.timers := by
    rw [hmem₁]
    exact List.Pairwise.sublist htimers₁ h.sorted
  have hms₁ : ((m₁.setMs a ms).mem a).ms = ms := by simp only [setMs, Function.update_self]
  have hsorted₂ : OrdSet.Sorted (Timer.less m₂.mem) m₂.timers := by
    rw [hm₂]
    exact Timer.sorted_update _ (Timer.sorted_update _ hsorted₁ hat) hat
  have hother : ∀ c, c ≠ a → m₂.mem c = m.mem c := fun c hc => by
    simp only [hm₂, setMs, Function.update_of_ne hc, hmem₁]
  have hdue : (TimerOp.reset (γ := γ) now ms fromNow a).due m = some (m₂.mem a).next := by
    rw [TimerOp.due, if_neg hcond, hm₂, ← hmem₁]
    simp only [Function.update_self, hms₁]
  have hsub : ∀ c ∈ m₂.timers, c ∈ m.timers := fun c hc => by
    rw [hm₂] at hc
    exact htimers₁.subset hc
  have hat₂ : a ∉ m₂.timers := by
    rw [hm₂]
    exact hat
  have htickled₂ : m₂.tickled = m.tickled := by
    rw [hm₂]
    exact htickled₁
  obtain ⟨hmem, htimers, hfront⟩ := addTimerPtr_due hsorted₂ hat₂
  intro b hb
  rw [hmem]
  rcases htimers b hb with rfl | hb
  · by_cases hflag : (!m.tickled) = true
    · rw [Bool.not_eq_true'] at hflag
      rcases hfront (htickled₂.trans hflag) with hfront | ⟨c, hc, hle⟩
      · exact .inr ⟨hdue, fun _ => hfront⟩
      · rw [hother c fun e => hat₂ (e ▸ hc)] at hle
        exact .inl ⟨c, hsub c hc, hle⟩
    · exact .inr ⟨hdue, fun hn => absurd hn hflag⟩
  · rw [hother b fun e => hat₂ (e ▸ hb)]
    exact .inl ⟨b, hsub b hb, UInt64.le_refl _⟩

theorem reset_due (h : m.Inv []) {ms : UInt64} {fromNow r atFront : Bool}
    (hreset : Timer.reset m now ms fromNow a = .ok (r, atFront, m')) :
    ∀ b ∈ m'.timers, (∃ c ∈ m.timers, (m.mem c).next ≤ (m'.mem b).next) ∨
      (TimerOp.reset (γ := γ) now ms fromNow a).due m = some (m'.mem b).next ∧
        ((!m.tickled) = true → atFront = true) := by
  have hsame : m.Postpones m := .of_subset (fun _ hb => hb) fun _ _ => rfl
  unfold Timer.reset at hreset
  split at hreset
  · obtain ⟨-, hr⟩ := Prod.mk.inj (Except.ok.inj hreset)
    obtain ⟨-, rfl⟩ := Prod.mk.inj hr
    exact fun b hb => .inl (hsame b hb)
  · rename_i hms
    split at hreset
    · obtain ⟨-, hr⟩ := Prod.mk.inj (Except.ok.inj hreset)
      obtain ⟨-, rfl⟩ := Prod.mk.inj hr
      exact fun b hb => .inl (hsame b hb)
    · rename_i hcb
      split at hreset
      · obtain ⟨-, hr⟩ := Prod.mk.inj (Except.ok.inj hreset)
        obtain ⟨-, rfl⟩ := Prod.mk.inj hr
        exact fun b hb => .inl (hsame b hb)
      · obtain ⟨m₁, herase, hreset⟩ := Throw.bind_eq_ok_iff.1 hreset
        obtain ⟨m₂, hnext, hr⟩ := Throw.bind_eq_ok_iff.1 hreset
        have hr : (true, (m₂.addTimerPtr a).2, (m₂.addTimerPtr a).1) = (r, atFront, m') := Except.ok.inj hr
        obtain ⟨-, hr⟩ := Prod.mk.inj hr
        obtain ⟨rfl, rfl⟩ := Prod.mk.inj hr
        obtain ⟨hmem₁, htickled₁, htimers₁⟩ := erase_some herase
        exact armed_due h hmem₁ htickled₁ htimers₁ hnext (by rw [Bool.or_eq_true, not_or]; exact ⟨hms, hcb⟩)

/-- A call of other code: every timer in the set afterwards is due no earlier than one before, or is the one that the
call arms. -/
theorem run_due (h : m.Inv []) {op : TimerOp γ} (huser : op.ByUser = true) (he : op.Enabled m)
    (hrun : op.run m = .ok m') :
    ∀ b ∈ m'.timers, (∃ c ∈ m.timers, (m.mem c).next ≤ (m'.mem b).next) ∨
      op.due m = some (m'.mem b).next ∧ (op.notifies m = true → op.atFront m = true) := by
  cases op with
  | addTimer now ms cb recurring a =>
    obtain rfl := Except.ok.inj hrun
    intro b hb
    rcases addTimer_due h he b hb with hle | ⟨hnext, hfront⟩
    · exact .inl hle
    · exact .inr ⟨congrArg some hnext, hfront⟩
  | cancel a =>
    cases hr : Timer.cancel m a with
    | error e =>
      rw [TimerOp.run, hr] at hrun
      cases hrun
    | ok r =>
      rw [TimerOp.run, hr] at hrun
      obtain rfl := Except.ok.inj hrun
      exact fun b hb => .inl (cancel_due hr b hb)
  | refresh now a =>
    cases hr : Timer.refresh m now a with
    | error e =>
      rw [TimerOp.run, hr] at hrun
      cases hrun
    | ok r =>
      rw [TimerOp.run, hr] at hrun
      obtain rfl := Except.ok.inj hrun
      intro b hb
      rcases refresh_due hr b hb with hle | hdue
      · exact .inl hle
      · exact .inr ⟨hdue, by simp [TimerOp.notifies]⟩
  | reset now ms fromNow a =>
    cases hr : Timer.reset m now ms fromNow a with
    | error e =>
      rw [TimerOp.run, hr] at hrun
      cases hrun
    | ok r =>
      rw [TimerOp.run, hr] at hrun
      obtain rfl := Except.ok.inj hrun
      intro b hb
      rcases reset_due h hr b hb with hle | ⟨hdue, hfront⟩
      · exact .inl hle
      · refine .inr ⟨hdue, fun hn => ?_⟩
        simp only [TimerOp.atFront, hr]
        exact hfront hn
  | listExpiredCb now key => cases huser
  | getNextTimer now => cases huser
  | release a =>
    obtain rfl := Except.ok.inj hrun
    exact fun b hb => .inl ⟨b, hb, UInt64.le_refl _⟩

/-! ## Expiry -/

/-- A timer after its callback has been handed out. -/
def expired (now : UInt64) (t : Timer γ) : Timer γ :=
  if t.recurring then { t with next := now + t.ms } else { t with cb := none }

/-- A timer that still has a callback then is recurring. -/
theorem recurring_of_expired {t : Timer γ} {cb : γ} (h : (expired now t).cb = some cb) :
    t.recurring = true ∧ t.cb = some cb := by
  unfold expired at h
  split at h
  · exact ⟨‹_›, h⟩
  · cases h

/-- One round of the loop of `listExpiredCb`. -/
theorem collectExpired_cons {l : List Nat} {cbs : List (Option γ)} (h : collectExpired now (a :: l) m = .ok (cbs, m')) :
    ∃ m₁ cbs', m₁.live = m.live ∧ m₁.mem = Function.update m.mem a (expired now (m.mem a)) ∧
      (∀ b ∈ m₁.timers, b ∈ m.timers ∨ b = a ∧ (m.mem a).recurring = true) ∧
      collectExpired now l m₁ = .ok (cbs', m') ∧ cbs = (m.mem a).cb :: cbs' := by
  rw [collectExpired] at h
  split at h
  · rename_i hrec
    obtain ⟨m₁, hnext, h⟩ := Throw.bind_eq_ok_iff.1 h
    obtain ⟨m₂, hm₂, h⟩ := Throw.bind_eq_ok_iff.1 h
    obtain rfl := Except.ok.inj hm₂
    obtain ⟨⟨cbs', m₃⟩, hm₃, h⟩ := Throw.bind_eq_ok_iff.1 h
    obtain ⟨rfl, rfl⟩ := Prod.mk.inj (Except.ok.inj h)
    obtain ⟨-, rfl⟩ := setNext_some hnext
    refine ⟨_, cbs', ?_, ?_, fun b hb => ?_, hm₃, rfl⟩
    · rfl
    · simp [insert, expired, hrec]
    · exact (OrdSet.mem_of_mem_insert hb).symm.imp_right fun hba => ⟨hba, hrec⟩
  · rename_i hrec
    obtain ⟨m₁, hm₁, h⟩ := Throw.bind_eq_ok_iff.1 h
    obtain rfl := Except.ok.inj hm₁
    obtain ⟨⟨cbs', m₂⟩, hm₂, h⟩ := Throw.bind_eq_ok_iff.1 h
    obtain ⟨rfl, rfl⟩ := Prod.mk.inj (Except.ok.inj h)
    refine ⟨m.setCb a none, cbs', ?_, ?_, fun b hb => .inl hb, hm₂, rfl⟩
    · rfl
    · simp [setCb, expired, hrec]

/-- Without a rollover the timers that expire are due. -/
theorem next_le_of_expired (h : m.Inv []) {key : Nat} (hkey : m.live key = false) {b : Nat}
    (hb : b ∈ m.timers.take (m.expiredCount now false key)) : (m.mem b).next ≤ now := by
  simp only [expiredCount, Bool.false_eq_true, if_false] at hb
  rw [List.take_add, List.mem_append] at hb
  rcases hb with hb | hb
  · have hbk : b ≠ key := fun e => by
      have := h.live b (List.mem_of_mem_take hb)
      rw [e, hkey] at this
      cases this
    have hle := less_next (OrdSet.lt_of_mem_take_lowerBound hb)
    rwa [Function.update_of_ne hbk, Function.update_self] at hle
  · rw [← List.prefix_iff_eq_take.mp (List.takeWhile_prefix _)] at hb
    have := List.mem_takeWhile_imp hb
    rw [beq_iff_eq] at this
    rw [this]
    exact UInt64.le_refl _

end TimerManager

end Megalo
