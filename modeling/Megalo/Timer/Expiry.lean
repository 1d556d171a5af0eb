import Megalo.Timer.Due

/-!
# What the calls do to the timers

- a call of other code writes only the timer it is about (`run_mem`), and arms no timer with another callback but by
  `addTimer` (`run_armed`);
- `listExpiredCb` hands out the callbacks of the timers that are due (`dueTimers`), each once and in the order of the
  set, empties those that are not recurring, and leaves the other timers as they are (`listExpiredCb_due`).
-/

namespace Megalo

variable {γ : Type*}

/-- The timer that a call is about. -/
def TimerOp.target : TimerOp γ → Option Nat
  | addTimer _ _ _ _ a | cancel a | refresh _ a | reset _ _ _ a | release a => some a
  | listExpiredCb _ _ | getNextTimer _ => none

namespace TimerManager

variable {m m' : TimerManager γ} {a b : Nat} {now : UInt64}

/-! ## Calls of other code -/

theorem addTimerPtr_mem (m : TimerManager γ) (a : Nat) :
    (m.addTimerPtr a).1.mem = m.mem ∧ (m.addTimerPtr a).1.live = m.live := by
  unfold addTimerPtr
  dsimp only
  split <;> exact ⟨rfl, rfl⟩

theorem erase_live {it : Option Nat} (h : m.erase it = .ok m') : m'.live = m.live := by
  unfold erase at h
  split at h
  · obtain rfl := Except.ok.inj h
    rfl
  · cases h

theorem setCb_mem_of_ne (hb : b ≠ a) (cb : Option γ) : (m.setCb a cb).mem b = m.mem b := Function.update_of_ne hb ..

theorem cancel_mem {r : Bool} (h : Timer.cancel m a = .ok (r, m')) :
    (∀ b, b ≠ a → m'.mem b = m.mem b) ∧ m'.live = m.live ∧ (m'.mem a).cb = none := by
  unfold Timer.cancel at h
  split at h
  · obtain ⟨m₁, herase, hr⟩ := Throw.bind_eq_ok_iff.1 h
    obtain ⟨-, rfl⟩ := Prod.mk.inj (Except.ok.inj hr)
    obtain ⟨hmem, -, -⟩ := erase_some herase
    rw [hmem, erase_live herase]
    exact ⟨fun b hb => setCb_mem_of_ne hb none, rfl, by simp [setCb]⟩
  · rename_i hcb
    obtain ⟨-, rfl⟩ := Prod.mk.inj (Except.ok.inj h)
    exact ⟨fun _ _ => rfl, rfl, by simpa using hcb⟩

theorem refresh_mem {r : Bool} (h : Timer.refresh m now a = .ok (r, m')) :
    (∀ b, b ≠ a → m'.mem b = m.mem b) ∧ m'.live = m.live ∧ (m'.mem a).cb = (m.mem a).cb := by
  unfold Timer.refresh at h
  split at h
  · obtain ⟨-, rfl⟩ := Prod.mk.inj (Except.ok.inj h)
    exact ⟨fun _ _ => rfl, rfl, rfl⟩
  · split at h
    · obtain ⟨-, rfl⟩ := Prod.mk.inj (Except.ok.inj h)
      exact ⟨fun _ _ => rfl, rfl, rfl⟩
    · obtain ⟨m₁, herase, h⟩ := Throw.bind_eq_ok_iff.1 h
      obtain ⟨m₂, hnext, hr⟩ := Throw.bind_eq_ok_iff.1 h
      obtain ⟨-, rfl⟩ := Prod.mk.inj (Except.ok.inj hr)
      obtain ⟨hmem, -, -⟩ := erase_some herase
      obtain ⟨-, rfl⟩ := setNext_some hnext
      simp only [insert]
      rw [hmem, erase_live herase]
      exact ⟨fun b hb => Function.update_of_ne hb .., rfl, by rw [Function.update_self]⟩

theorem reset_mem {ms : UInt64} {fromNow r atFront : Bool} (h : Timer.reset m now ms fromNow a = .ok (r, atFront, m')) :
    (∀ b, b ≠ a → m'.mem b = m.mem b) ∧ m'.live = m.live ∧ (m'.mem a).cb = (m.mem a).cb := by
  have hsame : ∀ {r' atFront' : Bool}, (Except.ok (r', atFront', m) : Except SetFault _) = .ok (r, atFront, m') →
      (∀ b, b ≠ a → m'.mem b = m.mem b) ∧ m'.live = m.live ∧ (m'.mem a).cb = (m.mem a).cb := fun h => by
    obtain ⟨-, h⟩ := Prod.mk.inj (Except.ok.inj h)
    obtain ⟨-, rfl⟩ := Prod.mk.inj h
    exact ⟨fun _ _ => rfl, rfl, rfl⟩
  unfold Timer.reset at h
  split at h
  · exact hsame h
  · split at h
    · exact hsame h
    · split at h
      · exact hsame h
      · obtain ⟨m₁, herase, h⟩ := Throw.bind_eq_ok_iff.1 h
        obtain ⟨m₂, hnext, hr⟩ := Throw.bind_eq_ok_iff.1 h
        have hr : (true, (m₂.addTimerPtr a).2, (m₂.addTimerPtr a).1) = (r, atFront, m') := Except.ok.inj hr
        obtain ⟨-, hr⟩ := Prod.mk.inj hr
        obtain ⟨-, rfl⟩ := Prod.mk.inj hr
        obtain ⟨hmem, -, -⟩ := erase_some herase
        obtain ⟨-, rfl⟩ := setNext_some hnext
        rw [(addTimerPtr_mem _ a).1, (addTimerPtr_mem _ a).2]
        simp only [setMs]
        rw [hmem, erase_live herase]
        refine ⟨fun b hb => ?_, rfl, ?_⟩
        · rw [Function.update_of_ne hb, Function.update_of_ne hb]
        · rw [Function.update_self, Function.update_self]

/-- A call of other code writes only the timer that it is about. -/
theorem run_mem (op : TimerOp γ) (hexp : ∀ now key, op ≠ .listExpiredCb now key) (hrun : op.run m = .ok m')
    (hb : op.target ≠ some b) : m'.mem b = m.mem b ∧ m'.live b = m.live b := by
  cases op with
  | addTimer now ms cb recurring a =>
    have hba : b ≠ a := fun e => hb (congrArg some e.symm)
    obtain rfl := Except.ok.inj hrun
    rw [addTimer, (addTimerPtr_mem _ a).1, (addTimerPtr_mem _ a).2]
    exact ⟨Function.update_of_ne hba .., Function.update_of_ne hba ..⟩
  | cancel a =>
    obtain ⟨⟨r, m₁⟩, hr, rfl⟩ := Throw.map_eq_ok_iff.1 hrun
    obtain ⟨hmem, hlive, -⟩ := cancel_mem hr
    exact ⟨hmem b fun e => hb (congrArg some e.symm), congrFun hlive b⟩
  | refresh now a =>
    obtain ⟨⟨r, m₁⟩, hr, rfl⟩ := Throw.map_eq_ok_iff.1 hrun
    obtain ⟨hmem, hlive, -⟩ := refresh_mem hr
    exact ⟨hmem b fun e => hb (congrArg some e.symm), congrFun hlive b⟩
  | reset now ms fromNow a =>
    obtain ⟨⟨r, atFront, m₁⟩, hr, rfl⟩ := Throw.map_eq_ok_iff.1 hrun
    obtain ⟨hmem, hlive, -⟩ := reset_mem hr
    exact ⟨hmem b fun e => hb (congrArg some e.symm), congrFun hlive b⟩
  | listExpiredCb now key => exact absurd rfl (hexp now key)
  | getNextTimer now =>
    obtain rfl := Except.ok.inj hrun
    unfold getNextTimer
    dsimp only
    split <;> exact ⟨rfl, rfl⟩
  | release a =>
    obtain rfl := Except.ok.inj hrun
    exact ⟨rfl, Function.update_of_ne (fun e => hb (congrArg some e.symm)) ..⟩

/-- A timer in the set after a call of other code was there with its callback, or has been added by the call. -/
theorem run_armed (h : m.Inv []) (op : TimerOp γ) (he : op.Enabled m) (hexp : ∀ now key, op ≠ .listExpiredCb now key)
    (hrun : op.run m = .ok m') {cb : γ} (hb : b ∈ m'.timers) (hcb : (m'.mem b).cb = some cb) :
    (b ∈ m.timers ∧ (m.mem b).cb = some cb) ∨ ∃ now ms recurring, op = .addTimer now ms cb recurring b := by
  obtain ⟨m₁, hrun₁, h'⟩ := inv_run h op he
  obtain rfl := Except.ok.inj (hrun.symm.trans hrun₁)
  -- a timer with a callback is in the set while it is alive
  have hold : m.live b = true → (m.mem b).cb = some cb → b ∈ m.timers ∧ (m.mem b).cb = some cb := fun hlive hcb =>
    ⟨(h.armed b hlive List.not_mem_nil).2 (by rw [hcb]; rfl), hcb⟩
  by_cases ht : op.target = some b
  · cases op with
    | addTimer now ms cb' recurring a =>
      obtain rfl : a = b := Option.some.inj ht
      obtain rfl := Except.ok.inj hrun
      rw [addTimer, (addTimerPtr_mem _ a).1] at hcb
      simp only [Function.update_self, Timer.new, Option.some.injEq] at hcb
      exact .inr ⟨now, ms, recurring, by rw [hcb]⟩
    | cancel a =>
      obtain rfl : a = b := Option.some.inj ht
      obtain ⟨⟨r, m₁⟩, hr, rfl⟩ := Throw.map_eq_ok_iff.1 hrun
      rw [(cancel_mem hr).2.2] at hcb
      cases hcb
    | refresh now a =>
      obtain rfl : a = b := Option.some.inj ht
      obtain ⟨⟨r, m₁⟩, hr, rfl⟩ := Throw.map_eq_ok_iff.1 hrun
      exact .inl (hold he ((refresh_mem hr).2.2 ▸ hcb))
    | reset now ms fromNow a =>
      obtain rfl : a = b := Option.some.inj ht
      obtain ⟨⟨r, atFront, m₁⟩, hr, rfl⟩ := Throw.map_eq_ok_iff.1 hrun
      exact .inl (hold he ((reset_mem hr).2.2 ▸ hcb))
    | listExpiredCb now key => exact absurd rfl (hexp now key)
    | getNextTimer now => cases ht
    | release a =>
      obtain rfl : a = b := Option.some.inj ht
      obtain rfl := Except.ok.inj hrun
      exact .inl (hold he.1 hcb)
  · obtain ⟨hmem, hlive⟩ := run_mem op hexp hrun ht
    exact .inl (hold (hlive ▸ h'.live b hb) (hmem ▸ hcb))

/-! ## Expiry -/

/-- A clock that has not gone back has not rolled over. -/
theorem deleteClockRollover_of_le (h : m.previousTime ≤ now) : (m.deleteClockRollover now).1 = false := by
  have hlt : decide (now < m.previousTime) = false := decide_eq_false (UInt64.not_lt.2 h)
  simp only [deleteClockRollover, hlt, Bool.false_and]

/-- The loop of `listExpiredCb`, over timers that are out of the set. -/
theorem collectExpired_mem (now : UInt64) (l : List Nat) {m m' : TimerManager γ} {cbs : List (Option γ)} (hnd : l.Nodup)
    (h : collectExpired now l m = .ok (cbs, m')) :
    cbs = l.map (fun a => (m.mem a).cb) ∧ m'.live = m.live ∧
      ∀ b, m'.mem b = if b ∈ l then expired now (m.mem b) else m.mem b := by
  induction l generalizing m cbs with
  | nil =>
    obtain ⟨rfl, rfl⟩ := Prod.mk.inj (Except.ok.inj h)
    exact ⟨rfl, rfl, fun b => rfl⟩
  | cons a l ih =>
    obtain ⟨ha, hnd⟩ := List.nodup_cons.1 hnd
    obtain ⟨m₁, cbs', hlive₁, hmem₁, -, hrest, rfl⟩ := collectExpired_cons h
    obtain ⟨rfl, hlive, hmem⟩ := ih hnd hrest
    have hold : ∀ b ∈ l, m₁.mem b = m.mem b := fun b hb => by
      have hba : b ≠ a := fun e => ha (e ▸ hb)
      rw [hmem₁, Function.update_of_ne hba]
    refine ⟨?_, hlive.trans hlive₁, fun b => ?_⟩
    · rw [List.map_cons]
      exact congrArg _ (List.map_congr_left fun b hb => by rw [hold b hb])
    · rw [hmem]
      by_cases hba : b = a
      · subst hba
        rw [if_neg ha, if_pos List.mem_cons_self, hmem₁, Function.update_self]
      · by_cases hb : b ∈ l
        · rw [if_pos hb, if_pos (List.mem_cons_of_mem _ hb), hold b hb]
        · rw [if_neg hb, if_neg (by simp [hba, hb]), hmem₁, Function.update_of_ne hba]

/-- In an ordered list of numbers from a bound on, what is left after those at the bound is above it. -/
theorem lt_of_mem_dropWhile {l : List Nat} {f : Nat → UInt64} (hs : l.Pairwise fun a b => f a ≤ f b)
    (hge : ∀ c ∈ l, now ≤ f c) (hb : b ∈ l.dropWhile fun a => f a == now) : now < f b := by
  induction l with
  | nil => cases hb
  | cons c l ih =>
    obtain ⟨hc, hs⟩ := List.pairwise_cons.1 hs
    by_cases hnow : f c = now
    · rw [List.dropWhile_cons_of_pos (by simpa using hnow)] at hb
      exact ih hs (fun d hd => hge d (List.mem_cons_of_mem _ hd)) hb
    · rw [List.dropWhile_cons_of_neg (by simpa using hnow)] at hb
      have hlt : now < f c := UInt64.lt_of_le_of_ne (hge c List.mem_cons_self) fun e => hnow e.symm
      rcases List.mem_cons.1 hb with rfl | hb
      · exact hlt
      · exact UInt64.lt_of_lt_of_le hlt (hc b hb)

/-- Without a rollover a timer that stays in the set is not due. -/
theorem lt_next_of_kept (h : m.Inv []) {key : Nat} (hkey : m.live key = false)
    (hb : b ∈ m.timers.drop (m.expiredCount now false key)) : now < (m.mem b).next := by
  let less := Timer.less (Function.update m.mem key (Timer.ofNext now))
  let rest := m.timers.drop (OrdSet.lowerBound less key m.timers)
  have hkeyt : key ∉ m.timers := fun hk => by rw [h.live key hk] at hkey; cases hkey
  have hs : OrdSet.Sorted less m.timers := Timer.sorted_update _ h.sorted hkeyt
  have hrest : m.timers.drop (m.expiredCount now false key) = rest.dropWhile fun a => (m.mem a).next == now := by
    simp only [expiredCount, Bool.false_eq_true, if_false]
    rw [← List.drop_drop]
    calc rest.drop (rest.takeWhile fun a => (m.mem a).next == now).length
        = ((rest.takeWhile fun a => (m.mem a).next == now) ++ rest.dropWhile fun a => (m.mem a).next == now).drop
            (rest.takeWhile fun a => (m.mem a).next == now).length := by rw [List.takeWhile_append_dropWhile]
      _ = rest.dropWhile fun a => (m.mem a).next == now := List.drop_left
  rw [hrest] at hb
  refine lt_of_mem_dropWhile ((h.sorted.drop _).imp less_next) (fun c hc => ?_) hb
  -- nothing from the lower bound on comes before the key
  have hck : c ≠ key := fun e => hkeyt (e ▸ List.mem_of_mem_drop hc)
  have hlt := OrdSet.not_lt_of_mem_drop_lowerBound (Timer.less_strictTotal _) hs hc
  by_contra hnot
  have hltkey : less c key = true := by
    rw [Timer.less_iff, Function.update_of_ne hck, Function.update_self]
    exact .inl (UInt64.not_le.1 hnot)
  exact absurd (hlt.symm.trans hltkey) (by decide)

/-- The timers of the set that are due, in order; all of them after the clock has rolled over. -/
def dueTimers (m : TimerManager γ) (now : UInt64) : List Nat :=
  m.timers.filter fun a => (m.deleteClockRollover now).1 || (m.mem a).next ≤ now

/-- The timers that `listExpiredCb` takes from the front of the set are those that are due. -/
theorem take_expiredCount (h : m.Inv []) {key : Nat} (hkey : m.live key = false) :
    m.timers.take (m.expiredCount now (m.deleteClockRollover now).1 key) = m.dueTimers now := by
  cases hroll : (m.deleteClockRollover now).1 with
  | true =>
    have hall : m.timers.length ≤ m.expiredCount now true key := by
      simp only [expiredCount, if_true]
      omega
    rw [List.take_of_length_le hall, dueTimers, hroll]
    simp
  | false =>
    have hsplit := List.take_append_drop (m.expiredCount now false key) m.timers
    have hdue : ∀ b ∈ m.timers.take (m.expiredCount now false key), (m.mem b).next ≤ now := fun b hb =>
      next_le_of_expired h hkey hb
    have hkept : ∀ b ∈ m.timers.drop (m.expiredCount now false key), ¬ (m.mem b).next ≤ now := fun b hb =>
      UInt64.not_le.2 (lt_next_of_kept h hkey hb)
    rw [dueTimers, hroll]
    conv_rhs => rw [← hsplit]
    rw [List.filter_append, List.filter_eq_self.2 fun b hb => by simpa using hdue b hb,
      List.filter_eq_nil_iff.2 fun b hb => by simpa using hkept b hb, List.append_nil]

/-- When the first timer is not due, none is. -/
theorem dueTimers_eq_nil (h : m.Inv []) {first : Nat} {rest : List Nat} (hm : m.timers = first :: rest)
    (hroll : (m.deleteClockRollover now).1 = false) (hfirst : now < (m.mem first).next) : m.dueTimers now = [] := by
  have hsorted := h.sorted
  rw [hm] at hsorted
  rw [dueTimers, hroll, hm]
  refine List.filter_eq_nil_iff.2 fun b hb => ?_
  have hlt : now < (m.mem b).next := by
    rcases List.mem_cons.1 hb with rfl | hb
    · exact hfirst
    · exact UInt64.lt_of_lt_of_le hfirst (less_next ((List.pairwise_cons.1 hsorted).1 b hb))
  simpa using hlt

/-- **What `listExpiredCb` does.** It hands out the callbacks of the timers that are due, in order, and writes no other
timer. -/
theorem listExpiredCb_due (h : m.Inv []) {key : Nat} (hkey : m.live key = false) {cbs : List (Option γ)}
    (hexpired : m.listExpiredCb now key = .ok (cbs, m')) :
    cbs = (m.dueTimers now).map (fun a => (m.mem a).cb) ∧ m'.live = m.live ∧
      ∀ b, m'.mem b = if b ∈ m.dueTimers now then expired now (m.mem b) else m.mem b := by
  have hnil : m.dueTimers now = [] → (Except.ok (cbs, m') : Except SetFault _) = .ok ([], m) ∨
      (Except.ok (cbs, m') : Except SetFault _) = .ok ([], (m.deleteClockRollover now).2) →
      cbs = (m.dueTimers now).map (fun a => (m.mem a).cb) ∧ m'.live = m.live ∧
        ∀ b, m'.mem b = if b ∈ m.dueTimers now then expired now (m.mem b) else m.mem b := by
    intro hdue hr
    rw [hdue]
    rcases hr with hr | hr
    all_goals
      obtain ⟨rfl, rfl⟩ := Prod.mk.inj (Except.ok.inj hr)
      exact ⟨rfl, rfl, fun b => rfl⟩
  unfold listExpiredCb at hexpired
  split at hexpired
  · rename_i hm
    exact hnil (by rw [dueTimers, hm]; rfl) (.inl hexpired.symm)
  · rename_i first rest hm
    dsimp only at hexpired
    split at hexpired
    · rename_i hfirst
      rw [Bool.and_eq_true, Bool.not_eq_true'] at hfirst
      exact hnil (dueTimers_eq_nil h hm hfirst.1 (of_decide_eq_true hfirst.2)) (.inr hexpired.symm)
    · have htake : m.timers.take ((m.deleteClockRollover now).2.expiredCount now (m.deleteClockRollover now).1 key) =
        m.dueTimers now := take_expiredCount h hkey
      have htimers : (m.deleteClockRollover now).2.timers = m.timers := rfl
      rw [htimers, htake] at hexpired
      obtain ⟨hcbs, hlive, hmem⟩ := collectExpired_mem now _ (h.nodup.sublist List.filter_sublist) hexpired
      exact ⟨hcbs, hlive, hmem⟩

/-- `listExpiredCb_due` for a clock that may have rolled over: without a rollover the timers are those that are due. -/
theorem listExpiredCb_spec (h : m.Inv []) {key : Nat} (hkey : m.live key = false) {cbs : List (Option γ)}
    (hexpired : m.listExpiredCb now key = .ok (cbs, m')) :
    ∃ l : List Nat, l.Sublist m.timers ∧ cbs = l.map (fun a => (m.mem a).cb) ∧ m'.live = m.live ∧
      (∀ b, m'.mem b = if b ∈ l then expired now (m.mem b) else m.mem b) ∧
      ((m.deleteClockRollover now).1 = false → ∀ b ∈ m.timers, b ∈ l ↔ (m.mem b).next ≤ now) := by
  obtain ⟨hcbs, hlive, hmem⟩ := listExpiredCb_due h hkey hexpired
  refine ⟨m.dueTimers now, List.filter_sublist, hcbs, hlive, hmem, fun hroll b hb => ?_⟩
  rw [dueTimers, hroll, List.mem_filter]
  simp [hb]

end TimerManager

end Megalo
