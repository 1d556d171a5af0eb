import Megalo.IOManager.Bookkeeping

/-!
# Reports that are out of date

- whatever the contexts hold, a section that completes counts the bits it changes (`LockedOp.run_count`), and only a
  dispatch can trigger an event that is not registered (`LockedOp.triggerEvent_fault`): when some reported bits are
  registered and others are not any more (`Mixed`);
- `staleSys`: workers that take reports from `epoll_wait` and dispatch them one at a time, while other threads run the
  other sections on the same contexts;
- `stale_reports_harmless`: as long as no dispatch of a mixed report gets past its `epoll_ctl`, no assertion of
  `triggerEvent` fails and the counter is not below the number of registered events. A mixed report makes it fail
  (`stale_report_asserts`).
-/

namespace Megalo

variable {ς φ κ : Type*}

/-! ## Sections and the counter -/

namespace FdContext

variable {ctx ctx' : FdContext ς φ κ} {e : Event}

theorem has_and_not (m : EventMask) (e e' : Event) :
    EventMask.has (m &&& ~~~e.bit) e' = (m.has e' && decide (e' ≠ e)) := by
  have h : EventMask.has (~~~e.bit) e' = decide (e' ≠ e) := by cases e <;> cases e' <;> rfl
  rw [EventMask.has_and, h]

theorem has_or_bit (m : EventMask) (e e' : Event) :
    EventMask.has (m ||| e.bit) e' = (m.has e' || decide (e' = e)) := by
  have h : EventMask.has e.bit e' = decide (e' = e) := by cases e <;> cases e' <;> rfl
  rw [EventMask.has_or, h]

theorem count_clear (ctx' : FdContext ς φ κ) (he : ctx.events.has e = true)
    (h : ctx'.events = ctx.events &&& ~~~e.bit) :
    ctx'.count = ctx.count - 1 := by
  rw [count, count, h]
  simp only [has_and_not]
  cases e <;> simp [he]

theorem count_set (ctx' : FdContext ς φ κ) (he : ctx.events.has e = false) (h : ctx'.events = ctx.events ||| e.bit) :
    ctx'.count = ctx.count + 1 := by
  rw [count, count, h]
  simp only [has_or_bit]
  cases e
  · simp [he]; omega
  · simp [he]

@[simp] theorem events_setContext (c : EventContext ς φ κ) : (ctx.setContext e c).events = ctx.events := by
  cases e <;> rfl

/-- What `triggerEvent` does to the mask, and how it fails. -/
theorem triggerEvent_cases (ctx : FdContext ς φ κ) (e : Event) :
    (ctx.triggerEvent e = .error .triggerEvent ∧ ctx.events.has e = false) ∨
    (ctx.triggerEvent e = .error .nullScheduler ∧ ctx.events.has e = true) ∨
    ∃ ctx' log, ctx.triggerEvent e = .ok (ctx', log) ∧ ctx.events.has e = true ∧
      ctx'.events = ctx.events &&& ~~~e.bit := by
  unfold triggerEvent
  cases he : ctx.events.has e with
  | false => exact .inl ⟨rfl, rfl⟩
  | true =>
    refine .inr ?_
    simp only [Bool.not_true, Bool.false_eq_true, if_false]
    cases (ctx.getContext e).scheduler with
    | none => exact .inl ⟨rfl, trivial⟩
    | some s =>
      refine .inr ?_
      simp only
      split <;> exact ⟨_, _, rfl, trivial, events_setContext _⟩

/-- A section that went through `triggerIf`: the event was registered, and it counts one bit less. -/
theorem triggerIf_cases (mask : EventMask) (e : Event) (r : Locked ς φ κ Bool) :
    (triggerIf mask e r = .error .triggerEvent ∧ mask.has e = true ∧ r.ctx.events.has e = false) ∨
    (triggerIf mask e r = .error .nullScheduler) ∨
    ∃ r', triggerIf mask e r = .ok r' ∧ r'.pending - r'.ctx.count = r.pending - r.ctx.count ∧
      ∀ e', r'.ctx.events.has e' = (r.ctx.events.has e' && !(mask.has e && decide (e' = e))) := by
  unfold triggerIf
  cases hm : mask.has e with
  | false => exact .inr (.inr ⟨r, rfl, rfl, fun e' => by simp⟩)
  | true =>
    obtain ⟨ht, he⟩ | ⟨ht, -⟩ | ⟨ctx', log, ht, he, hc⟩ := triggerEvent_cases r.ctx e
    · exact .inl ⟨by rw [ht]; rfl, rfl, he⟩
    · exact .inr (.inl (by rw [ht]; rfl))
    · refine .inr (.inr ⟨_, by rw [ht]; rfl, ?_, fun e' => ?_⟩)
      · have := count_clear ctx' he hc
        simp only
        omega
      · simp only [hc, has_and_not]
        simp

/-- Some reported bit is not registered, while some event that the report covers is. -/
def Mixed (ctx : FdContext ς φ κ) (bits : EventMask) : Prop :=
  (∃ e, bits.has e = true ∧ ctx.events.has e = false) ∧
    ∃ e, ctx.events.has e = true ∧ (bits.has e = true ∨ bits &&& (epollErr ||| epollHup) ≠ 0#32)

theorem has_realEvents (ctx : FdContext ς φ κ) (bits : EventMask) (e : Event) : (ctx.realEvents bits).has e = true ↔
    bits.has e = true ∨ bits &&& (epollErr ||| epollHup) ≠ 0#32 ∧ ctx.events.has e = true := by
  rw [realEvents_eq, EventMask.has_of, Bool.or_eq_true, Bool.and_eq_true, bne_iff_ne]

end FdContext

namespace LockedOp

variable {ctx : FdContext ς φ κ} {op : LockedOp ς φ κ} {r : Locked ς φ κ Bool}

/-- How a section ends: it completes and counts the bits it changes, an assertion other than that of `triggerEvent`
fails or a scheduler is missing, or it is a dispatch of a mixed report whose `epoll_ctl` succeeds. -/
inductive Outcome (ctx : FdContext ς φ κ) : LockedOp ς φ κ → Except Fault (Locked ς φ κ Bool) → Prop
  | ok {op : LockedOp ς φ κ} {r : Locked ς φ κ Bool} (h : r.pending = r.ctx.count - ctx.count) : Outcome ctx op (.ok r)
  | error {op : LockedOp ς φ κ} {f : Fault} (h : f ≠ .triggerEvent) : Outcome ctx op (.error f)
  | mixed {ctl : EpollCtl} {bits : EventMask} (h : ctx.Mixed bits) (hctl : ctl ≠ fun _ _ => false) :
    Outcome ctx (.dispatch ctl bits) (.error .triggerEvent)

/-- A section that does nothing. -/
theorem Outcome.skip {ret : Bool} : Outcome ctx op (.ok ⟨ret, ctx, 0, []⟩) := .ok (by simp)

theorem addEvent_outcome (ctl : EpollCtl) (caller : Caller ς φ) (e : Event) (cb : Option κ) :
    Outcome ctx (.addEvent ctl caller e cb) ((addEvent ctl caller e cb).run ctx) := by
  rw [run, FdContext.addEvent]
  split
  · exact .error (by decide)
  · rename_i he
    rw [Bool.not_eq_true] at he
    simp only
    split
    · exact .skip
    · split
      · exact .error (by decide)
      · have hcount {c : EventContext ς φ κ} := FdContext.count_set
          ((ctx.setEvents (ctx.events ||| e.bit)).setContext e c) he (FdContext.events_setContext c)
        split
        · refine .ok ?_
          simp only [hcount]
          omega
        · split
          · exact .error (by decide)
          · refine .ok ?_
            simp only [hcount]
            omega

theorem delEvent_outcome (ctl : EpollCtl) (e : Event) : Outcome ctx (.delEvent ctl e) ((delEvent ctl e).run ctx) := by
  rw [run, FdContext.delEvent]
  split
  · exact .skip
  · rename_i he
    rw [Bool.not_eq_true, Bool.not_eq_false'] at he
    simp only
    split
    · exact .skip
    · have := FdContext.count_clear ((ctx.setEvents (ctx.events &&& ~~~e.bit)).setContext e .empty) he
        (FdContext.events_setContext _)
      refine .ok ?_
      simp only
      omega

theorem cancelEvent_outcome (ctl : EpollCtl) (e : Event) :
    Outcome ctx (.cancelEvent ctl e) ((cancelEvent ctl e).run ctx) := by
  rw [run, FdContext.cancelEvent]
  split
  · exact .skip
  · rename_i hn
    rw [Bool.not_eq_true, Bool.not_eq_false'] at hn
    simp only
    split
    · exact .skip
    · obtain ⟨-, he⟩ | ⟨ht, -⟩ | ⟨ctx', log, ht, he, hc⟩ := FdContext.triggerEvent_cases ctx e
      · rw [hn] at he; cases he
      · rw [ht]; exact .error (by decide)
      · rw [ht]
        have := FdContext.count_clear ctx' he hc
        refine .ok ?_
        simp only
        omega

theorem cancelAll_outcome (ctl : EpollCtl) : Outcome ctx (.cancelAll ctl) ((cancelAll ctl).run ctx) := by
  rw [run, FdContext.cancelAll]
  split
  · exact .skip
  · split
    · exact .skip
    · obtain ⟨-, h, h'⟩ | h | ⟨r₁, h₁, hc₁, -⟩ := FdContext.triggerIf_cases ctx.events .read ⟨true, ctx, 0, []⟩
      · rw [h] at h'; cases h'
      · rw [h]; exact .error (by decide)
      · obtain ⟨-, h, h'⟩ | h | ⟨r₂, h₂, hc₂, -⟩ := FdContext.triggerIf_cases r₁.ctx.events .write r₁
        · rw [h] at h'; cases h'
        · simp only [h₁, h, bind, Except.bind]; exact .error (by decide)
        · simp only [h₁, h₂, bind, Except.bind]
          split
          · refine .ok ?_
            simp only at hc₁
            omega
          · exact .error (by decide)

theorem dispatch_outcome (ctl : EpollCtl) (bits : EventMask) :
    Outcome ctx (.dispatch ctl bits) ((dispatch ctl bits).run ctx) := by
  rw [run, FdContext.dispatch]
  simp only
  split
  · exact .skip
  · rename_i hreal
    split
    · exact .skip
    · rename_i hctl
      -- an event taken for real that is not registered was reported, and some other one is registered
      have hmixed {e : Event} (he : (ctx.realEvents bits).has e = true) (hn : ctx.events.has e = false) :
          Outcome ctx (.dispatch ctl bits) (.error .triggerEvent) := by
        refine .mixed ⟨⟨e, ?_, hn⟩, ?_⟩ fun h => hctl (by rw [h]; rfl)
        · exact ((FdContext.has_realEvents ctx bits e).1 he).resolve_right fun h => by rw [hn] at h; cases h.2
        · by_contra hnone
          refine hreal (beq_iff_eq.2 ?_)
          rw [FdContext.realEvents_eq]
          refine EventMask.and_of_eq_zero _ fun e' he' => ?_
          rw [Bool.or_eq_true, Bool.and_eq_true, bne_iff_ne] at he'
          by_contra hreg
          rw [Bool.not_eq_false] at hreg
          exact hnone ⟨e', hreg, he'.imp id And.left⟩
      obtain ⟨h, he, hn⟩ | h | ⟨r₁, h₁, hc₁, hr₁⟩ :=
        FdContext.triggerIf_cases (ctx.realEvents bits) .read ⟨true, ctx, 0, []⟩
      · rw [h]; exact hmixed he hn
      · rw [h]; exact .error (by decide)
      · obtain ⟨h, he, hn⟩ | h | ⟨r₂, h₂, hc₂, -⟩ := FdContext.triggerIf_cases (ctx.realEvents bits) .write r₁
        · simp only [h₁, h, bind, Except.bind]
          refine hmixed he ?_
          rw [hr₁] at hn
          simpa using hn
        · simp only [h₁, h, bind, Except.bind]; exact .error (by decide)
        · simp only [h₁, h₂, bind, Except.bind]
          refine .ok ?_
          simp only at hc₁
          omega

theorem outcome (ctx : FdContext ς φ κ) : ∀ op : LockedOp ς φ κ, Outcome ctx op (op.run ctx)
  | .addEvent ctl caller e cb => addEvent_outcome ctl caller e cb
  | .delEvent ctl e => delEvent_outcome ctl e
  | .cancelEvent ctl e => cancelEvent_outcome ctl e
  | .cancelAll ctl => cancelAll_outcome ctl
  | .dispatch ctl bits => dispatch_outcome ctl bits

end LockedOp

/-! ## Workers and their reports -/

/-- The contexts, the counter, the reports that each worker still has to dispatch, and the fault that ended the run. -/
structure StaleState (ς φ κ : Type*) where
  fdContexts : List (FdContext ς φ κ)
  pendingEventCount : Int
  reports : Nat → List (Nat × EventMask)
  fault : Option Fault

namespace StaleState

/-- The number of registered events. -/
def registered (s : StaleState ς φ κ) : Int := (s.fdContexts.map FdContext.count).sum

/-- Run a section on the context at an index, under its mutex. -/
def locked (i : Nat) (op : LockedOp ς φ κ) (s : StaleState ς φ κ) : Option (StaleState ς φ κ) :=
  match s.fdContexts[i]? with
  | none => none
  | some ctx => match op.run ctx with
    | .error f => some { s with fault := some f }
    | .ok r => some { s with
        fdContexts := s.fdContexts.set i r.ctx, pendingEventCount := s.pendingEventCount + r.pending }

/-- The report is of registered events, and maybe of an error or a hang-up. -/
def reports? (s : StaleState ς φ κ) (report : Nat × EventMask) : Bool :=
  s.fdContexts[report.1]?.any fun ctx =>
    (!report.2.has .read || ctx.events.has .read) && (!report.2.has .write || ctx.events.has .write)

end StaleState

/-- A call by some thread, `epoll_wait` returning to a worker, or a worker's dispatch of its next report, with the
outcome of its `epoll_ctl`. -/
inductive StaleLabel (ς φ κ : Type*)
  | call (i : Nat) (op : LockedOp ς φ κ)
  | epollWait (worker : Nat) (events : List (Nat × EventMask))
  | dispatch (worker : Nat) (ctl : Bool)

/-- Workers of `idle` and threads that call the other operations. -/
def staleSys (ς φ κ : Type*) : Transition.Sys (StaleState ς φ κ) (StaleLabel ς φ κ) where
  init s := ∃ n, s = ⟨(List.range n).map .new, 0, fun _ => [], none⟩
  step s a :=
    if s.fault.isSome then none
    else match a with
      | .call _ (.dispatch _ _) => none
      | .call i op => s.locked i op
      | .epollWait worker events =>
        if (s.reports worker).isEmpty && events.all s.reports? then
          some { s with reports := Function.update s.reports worker events }
        else none
      | .dispatch worker ctl => match s.reports worker with
        | [] => none
        | (i, bits) :: rest =>
          ({ s with reports := Function.update s.reports worker rest }).locked i (.dispatch (fun _ _ => ctl) bits)

/-- The step is not a dispatch of a mixed report whose `epoll_ctl` succeeds. -/
def StaleLabel.NotMixed (s : StaleState ς φ κ) : StaleLabel ς φ κ → Prop
  | dispatch worker ctl => ctl = true → ∀ x ∈ (s.reports worker).head?, ∀ ctx ∈ s.fdContexts[x.1]?, ¬ctx.Mixed x.2
  | _ => True

namespace StaleState

variable {s t : StaleState ς φ κ}

/-- The counter is exact, and no assertion of `triggerEvent` failed. -/
structure Inv (s : StaleState ς φ κ) : Prop where
  pending : s.pendingEventCount = s.registered
  fault : s.fault ≠ some .triggerEvent

/-- A section that does not dispatch a mixed report keeps the invariant. -/
theorem Inv.locked (hi : s.Inv) {i : Nat} {op : LockedOp ς φ κ}
    (hop : ∀ ctl bits ctx, op = .dispatch ctl bits → s.fdContexts[i]? = some ctx → ctx.Mixed bits →
      ctl = fun _ _ => false)
    (h : s.locked i op = some t) : t.Inv := by
  unfold StaleState.locked at h
  split at h
  · cases h
  · rename_i ctx hctx
    have ho := LockedOp.outcome ctx op
    generalize op.run ctx = x at h ho
    cases ho with
    | ok hr =>
      cases h
      refine ⟨?_, hi.fault⟩
      have := hi.pending
      simp only [registered, IOManager.sum_map_set FdContext.count _ hctx] at this ⊢
      omega
    | error hf =>
      cases h
      exact ⟨hi.pending, fun h => hf (Option.some.inj h)⟩
    | mixed hm hctl => exact absurd (hop _ _ ctx rfl hctx hm) hctl

theorem Inv.step (hi : s.Inv) {a : StaleLabel ς φ κ} (ha : a.NotMixed s) (h : (staleSys ς φ κ).step s a = some t) :
    t.Inv := by
  simp only [staleSys] at h
  split at h
  · cases h
  · split at h
    · cases h
    · rename_i i op hop
      exact hi.locked (fun ctl bits ctx hd => absurd hd (hop ctl bits)) h
    · split at h
      · cases h
        exact ⟨hi.pending, hi.fault⟩
      · cases h
    · rename_i worker ctl
      split at h
      · cases h
      · rename_i i bits rest hrep
        refine Inv.locked (s := { s with reports := Function.update s.reports worker rest }) ⟨hi.pending, hi.fault⟩
          (fun ctl' bits' ctx hd hctx hm => ?_) h
        cases hd
        cases ctl with
        | false => rfl
        | true => exact absurd hm (ha rfl (i, bits) (by rw [hrep]; rfl) ctx hctx)

end StaleState

/-- **Stale reports** do not make an assertion of `triggerEvent` fail, and the counter is never below the number of
registered events, in runs without a dispatch of a mixed report. -/
theorem stale_reports_harmless {s : StaleState ς φ κ}
    (h : (staleSys ς φ κ).ReachableWhen (fun s a => a.NotMixed s) s) :
    s.fault ≠ some .triggerEvent ∧ s.registered ≤ s.pendingEventCount := by
  have hi : s.Inv := h.invariant (fun s hs => ?_) fun s a t hi ha hst => hi.step ha hst
  · exact ⟨hi.fault, le_of_eq hi.pending.symm⟩
  · obtain ⟨n, rfl⟩ := hs
    refine ⟨?_, fun h => by cases h⟩
    refine (List.sum_eq_zero fun x hx => ?_).symm
    simp only [List.mem_map] at hx
    obtain ⟨ctx, ⟨i, -, rfl⟩, rfl⟩ := hx
    exact FdContext.count_new i

/-! ## Runs -/

instance (ctx : FdContext ς φ κ) (bits : EventMask) : Decidable (ctx.Mixed bits) :=
  inferInstanceAs (Decidable ((∃ e, bits.has e = true ∧ ctx.events.has e = false) ∧
    ∃ e, ctx.events.has e = true ∧ (bits.has e = true ∨ bits &&& (epollErr ||| epollHup) ≠ 0#32)))

instance (s : StaleState ς φ κ) : (a : StaleLabel ς φ κ) → Decidable (a.NotMixed s)
  | .dispatch worker ctl => inferInstanceAs (Decidable (ctl = true →
      ∀ x ∈ (s.reports worker).head?, ∀ ctx ∈ s.fdContexts[x.1]?, ¬ctx.Mixed x.2))
  | .call _ _ | .epollWait _ _ => inferInstanceAs (Decidable True)

/-- Both events of descriptor 7 are registered and reported, and one of them or both are deleted before the dispatch. -/
def registerAndReport : List (StaleLabel Nat Nat Nat) :=
  [.call 7 (.addEvent (fun _ _ => true) ⟨some 1, 2, true⟩ .read (some 3)),
    .call 7 (.addEvent (fun _ _ => true) ⟨some 1, 2, true⟩ .write (some 4)),
    .epollWait 0 [(7, Event.read.bit ||| Event.write.bit)],
    .call 7 (.delEvent (fun _ _ => true) .read)]

/-- A report of which nothing is registered any more is dropped. -/
theorem stale_reports_harmless_deleted : ∃ s : StaleState Nat Nat Nat, s.reports 0 = [] ∧
    s.fault ≠ some .triggerEvent ∧ s.registered ≤ s.pendingEventCount := by
  obtain ⟨s, hs, hp⟩ := (staleSys Nat Nat Nat).reachableWhen_of_exec (fun s a => a.NotMixed s)
    ⟨(List.range 8).map .new, 0, fun _ => [], none⟩ ⟨8, rfl⟩
    (registerAndReport ++ [.call 7 (.delEvent (fun _ _ => true) .write), .dispatch 0 true])
    (p := fun s => (s.reports 0).isEmpty) rfl
  exact ⟨s, List.isEmpty_iff.1 hp, stale_reports_harmless hs⟩

/-- A report of which one event is registered and the other one not any more makes the assertion fail. -/
theorem stale_report_asserts : ∃ s : StaleState Nat Nat Nat, (staleSys Nat Nat Nat).Reachable s ∧
    s.fault = some .triggerEvent := by
  obtain ⟨s, hs, hp⟩ := (staleSys Nat Nat Nat).reachable_of_exec
    ⟨(List.range 8).map .new, 0, fun _ => [], none⟩ ⟨8, rfl⟩
    (registerAndReport ++ [.dispatch 0 true]) (p := fun s => s.fault == some .triggerEvent) rfl
  exact ⟨s, hs, beq_iff_eq.1 hp⟩

end Megalo
