import Megalo.IOManager.Slots
import Megalo.IOManager.Table
import Mathlib.Algebra.BigOperators.Group.List.Basic

/-!
# The bookkeeping of registrations

- `IOOp` is the calls of `IOManager` and the turns of the loop of `idle`, `ioSys` the runs of completed ones;
- `IOManager.Inv`: the contexts are well formed, the counter is the number of set bits, and what happened to each slot
  is a legal history that leaves what the slot holds. Every operation keeps it (`IOManager.Inv.run`), given that a
  thread that registers an event runs a scheduler, that the table does not outgrow an `int`, and that only registered
  bits are reported;
- `IOOp.Done`: what a call has done, by what it returned. A success moves the slots as `IOOp.move` says, and with
  `epoll_ctl` succeeding it is returned exactly when there is something to move (`IOManager.Inv.call_done`); calls for a
  descriptor that is not negative return (`IOManager.Inv.call_ok`);
- the bookkeeping of reachable states is `event_bookkeeping`. Both conditions on `addEvent` are needed
  (`event_bookkeeping_fails`).
-/

namespace Megalo

open MachineInt

variable {ς φ κ : Type*}

namespace IOManager

/-- What happened to one slot, newest first. -/
def history (m : IOManager ς φ κ) (fd : Nat) (e : Event) : List (LogKind ς φ κ) :=
  entriesOf e (m.log.filterMap fun l => if l.1 = fd then some l.2 else none)

/-- The registration that a slot of the table holds. -/
def registration (m : IOManager ς φ κ) (fd : Nat) (e : Event) : Option (ς × Task φ κ) :=
  m.fdContexts[fd]?.bind fun ctx => ctx.slots e

/-- The number of bits that are set. -/
def registered (m : IOManager ς φ κ) : Int := (m.fdContexts.map FdContext.count).sum

/-- The bit is set in the context of the descriptor. -/
def isRegistered (m : IOManager ς φ κ) (fd : Nat) (e : Event) : Bool := m.fdContexts[fd]?.any (·.events.has e)

/-- The context of a descriptor; where the table has none, a new one. -/
def context (m : IOManager ς φ κ) (fd : Nat) : FdContext ς φ κ := m.fdContexts[fd]?.getD (.new fd)

/-- The events, the contexts, the counter and what happened to registrations are the same. -/
def Same (m m' : IOManager ς φ κ) : Prop :=
  m'.context = m.context ∧ m'.pendingEventCount = m.pendingEventCount ∧ m'.log = m.log

end IOManager

/-! ## Operations -/

/-- A call for a descriptor, or a turn of the loop of `idle`. -/
structure IOOp (ς φ κ : Type*) where
  fd : Int
  op : LockedOp ς φ κ

namespace IOOp

/-- A dispatch reports registered bits only. -/
def Reported (m : IOManager ς φ κ) : IOOp ς φ κ → Prop
  | ⟨fd, .dispatch _ bits⟩ => ∀ e, bits.has e = true → m.isRegistered fd.toNat e = true
  | _ => True

/-- The thread that registers an event runs a scheduler. -/
def HasScheduler : IOOp ς φ κ → Prop
  | ⟨_, .addEvent _ caller _ _⟩ => caller.scheduler.isSome = true
  | _ => True

/-- The table does not outgrow an `int`. -/
def Fits : IOOp ς φ κ → Prop
  | ⟨fd, .addEvent _ _ _ _⟩ => growSize fd < intLimit
  | _ => True

/-- What a success does to a slot: the entry that it adds to the slot's history, if any. -/
def move (m : IOManager ς φ κ) (op : IOOp ς φ κ) (fd : Nat) (e : Event) : Option (LogKind ς φ κ) :=
  if op.fd = fd then op.op.move (m.registration fd) e else none

/-- The call returns: the descriptor is not negative, `addEvent` is called with a callback or by a fiber in execution
for an event that is not registered, and what is dispatched is a context of the table. -/
def Returns (m : IOManager ς φ κ) (op : IOOp ς φ κ) : Prop :=
  0 ≤ op.fd ∧ op.op.Returns (m.registration op.fd.toNat) ∧
    ∀ ctl bits, op.op = .dispatch ctl bits → op.fd < m.fdContexts.length

/-- What a call that returned `ret` has done. -/
structure Done (m : IOManager ς φ κ) (op : IOOp ς φ κ) (ret : Bool) (m' : IOManager ς φ κ) : Prop where
  failed : ret = false → m.Same m'
  succeeded : ret = true → (∃ fd e, (op.move m fd e).isSome = true) ∧ ∀ fd e,
    m'.history fd e = (op.move m fd e).toList ++ m.history fd e ∧
      m'.registration fd e = (op.move m fd e).elim (m.registration fd e) LogKind.leaves
  ctl_fails : op.op.ctl = (fun _ _ => false) → ret = false
  ctl_succeeds : op.op.ctl = (fun _ _ => true) → (∃ fd e, (op.move m fd e).isSome = true) → ret = true

end IOOp

/-- An `IOManager` in use: the runs of operations that complete. -/
def ioSys (ς φ κ : Type*) : Transition.Sys (IOManager ς φ κ) (IOOp ς φ κ) where
  init m := m = .new
  step m op := (m.run op.fd op.op).toOption

theorem ioSys_step {m m' : IOManager ς φ κ} {op : IOOp ς φ κ} :
    (ioSys ς φ κ).step m op = some m' ↔ m.run op.fd op.op = .ok m' := by
  show (m.run op.fd op.op).toOption = some m' ↔ _
  cases m.run op.fd op.op with
  | error e => exact ⟨fun h => (by cases h), fun h => by cases h⟩
  | ok m₁ => exact ⟨fun h => (by cases h; rfl), fun h => by cases h; rfl⟩

/-! ## The invariant -/

/-- The bookkeeping of a manager. -/
structure IOManager.Inv (m : IOManager ς φ κ) : Prop where
  wf : ∀ (i : Nat) (ctx : FdContext ς φ κ), m.fdContexts[i]? = some ctx → ctx.WellFormed ∧ ctx.fd = i
  pending : m.pendingEventCount = m.registered
  history : ∀ i e, SlotHistory (m.history i e) (m.registration i e)
  length : m.fdContexts.length < intLimit

namespace IOManager

variable {m : IOManager ς φ κ}

/-- The history of a slot after a locked section. -/
theorem history_commit {β : Type*} (fd : Int) (r : Locked ς φ κ β) (i : Nat) (e : Event) :
    (m.commit fd r).history i e = (if i = fd.toNat then entriesOf e r.log else []) ++ m.history i e := by
  simp only [history, commit, List.filterMap_append, entriesOf_append]
  congr 1
  rw [List.filterMap_map]
  by_cases h : i = fd.toNat
  · subst h
    simp
  · simp [h, Ne.symm h]

/-- Replacing one element of a sum. -/
theorem sum_map_set {α : Type*} (f : α → Int) {l : List α} {i : Nat} {x : α} (y : α) (h : l[i]? = some x) :
    ((l.set i y).map f).sum = (l.map f).sum + (f y - f x) := by
  induction l generalizing i with
  | nil => cases h
  | cons a l ih =>
    cases i with
    | zero =>
      cases h
      simp only [List.set_cons_zero, List.map_cons, List.sum_cons]
      omega
    | succ i =>
      simp only [List.set_cons_succ, List.map_cons, List.sum_cons]
      rw [ih (by simpa using h)]
      omega

/-- The registrations of a slot of the table. -/
theorem registration_of_slot {i : Nat} {ctx : FdContext ς φ κ} (hc : m.fdContexts[i]? = some ctx) :
    m.registration i = ctx.slots := by
  funext e
  rw [registration, hc, Option.bind_some]

/-- A sound section on a slot of the table keeps the bookkeeping. -/
theorem Inv.commit {β : Type*} (hi : m.Inv) {fd : Int} {ctx : FdContext ς φ κ} (hc : m.fdContexts[fd.toNat]? = some ctx)
    {r : Locked ς φ κ β} (hr : Locked.Sound ctx r) : (m.commit fd r).Inv where
  wf i c h := by
    simp only [IOManager.commit, List.getElem?_set] at h
    split at h
    · rename_i hfd
      subst hfd
      split at h
      · cases h
        exact ⟨hr.wf, hr.fd.trans (hi.wf _ _ hc).2⟩
      · cases h
    · exact hi.wf i c h
  pending := by
    have := hi.pending
    have := hr.pending
    simp only [registered, IOManager.commit, sum_map_set FdContext.count r.ctx hc] at *
    omega
  history i e := by
    have h := hi.history i e
    rw [history_commit]
    by_cases hfd : i = fd.toNat
    · subst hfd
      have hlt := (List.getElem?_eq_some_iff.1 hc).1
      simp only [registration, hc, Option.bind_some] at h
      simpa [registration, IOManager.commit, hlt] using hr.log e _ h
    · rw [if_neg hfd, List.nil_append, registration, IOManager.commit]
      simp only [List.getElem?_set, if_neg (Ne.symm hfd)]
      exact h
  length := by simpa [IOManager.commit] using hi.length

theorem registration_eq (m : IOManager ς φ κ) (fd : Nat) : m.registration fd = (m.context fd).slots := by
  funext e
  rw [registration, context]
  cases m.fdContexts[fd]? with
  | none => rw [Option.getD_none, FdContext.slots_new]; rfl
  | some ctx => rfl

/-- Growing the table leaves the contexts as they are. -/
theorem context_resize {n : Nat} (hn : m.fdContexts.length ≤ n) :
    context { m with fdContexts := contextResize FdContext.new n m.fdContexts } = m.context := by
  funext i
  rw [context, context, getElem?_contextResize _ hn]
  split
  · rfl
  · rename_i hlt
    rw [List.getElem?_eq_none (by omega : m.fdContexts.length ≤ i)]
    split <;> rfl

/-- Growing the table keeps the bookkeeping. -/
theorem Inv.resize (hi : m.Inv) {n : Nat} (hn : m.fdContexts.length ≤ n) (hlt : n < intLimit) :
    Inv { m with fdContexts := contextResize FdContext.new n m.fdContexts } := by
  have hnew := getElem?_contextResize (FdContext.new : Nat → FdContext ς φ κ) hn
  refine ⟨fun i ctx h => ?_, ?_, fun i e => ?_, ?_⟩
  · rw [hnew] at h
    split at h
    · exact hi.wf i ctx h
    · split at h
      · cases h
        exact ⟨FdContext.wellFormed_new i, rfl⟩
      · cases h
  · have hp := hi.pending
    have hz (l : List Nat) : ((l.map (FdContext.new : Nat → FdContext ς φ κ)).map FdContext.count).sum = 0 := by
      refine List.sum_eq_zero fun x hx => ?_
      rw [List.map_map, List.mem_map] at hx
      obtain ⟨i, -, rfl⟩ := hx
      exact FdContext.count_new i
    simp only [registered, contextResize_of_le _ hn, List.map_append, List.sum_append, hz] at hp ⊢
    omega
  · have h := hi.history i e
    rw [registration_eq] at h ⊢
    rw [context_resize hn]
    exact h
  · simpa [length_contextResize] using hlt

/-- A new manager. -/
theorem inv_new : (new : IOManager ς φ κ).Inv := by
  have h0 : Inv ({ fdContexts := [], pendingEventCount := 0, log := [] } : IOManager ς φ κ) :=
    ⟨fun i ctx h => (by cases h), rfl, fun i e => .nil, (by decide : 0 < intLimit)⟩
  exact h0.resize (Nat.zero_le 32) (by decide)

end IOManager

/-! ## Operations keep the bookkeeping -/

namespace IOManager

variable {m m' : IOManager ς φ κ} {fd : Int} {op : LockedOp ς φ κ}

theorem run_eq_ok : m.run fd op = .ok m' ↔ ∃ ret, m.call fd op = .ok (ret, m') := by
  rw [run, Throw.map_eq_ok_iff]
  exact ⟨fun ⟨⟨ret, _⟩, h, hm⟩ => ⟨ret, hm ▸ h⟩, fun ⟨ret, h⟩ => ⟨_, h, rfl⟩⟩

/-- The operations that look the descriptor up do nothing, as the table has no slot, or run their section on its
slot. -/
theorem lookup_cases (hlen : m.fdContexts.length < intLimit)
    {f : FdContext ς φ κ → Except Fault (Locked ς φ κ Bool)}
    (h : (do
      match ← lookup m.fdContexts fd with
      | none => pure (false, m)
      | some ctx =>
        let r ← f ctx
        pure (r.ret, m.commit fd r) : Except Fault (Bool × IOManager ς φ κ)) = .ok (ret, m')) :
    (m.fdContexts.length ≤ fd ∧ ret = false ∧ m' = m) ∨
      ∃ ctx r, slot m.fdContexts fd = .ok ctx ∧ f ctx = .ok r ∧ ret = r.ret ∧ m' = m.commit fd r := by
  obtain ⟨c, hl, hb⟩ := Throw.bind_eq_ok_iff.1 h
  cases c with
  | none =>
    cases hb
    unfold lookup at hl
    rw [intSize_of_lt hlen] at hl
    split at hl
    · rename_i hle
      exact .inl ⟨hle, rfl, rfl⟩
    · obtain ⟨c, -, hc⟩ := Throw.map_eq_ok_iff.1 hl
      cases hc
  | some ctx =>
    obtain ⟨r, hf, hb⟩ := Throw.bind_eq_ok_iff.1 hb
    cases hb
    exact .inr ⟨ctx, r, slot_of_lookup hl, hf, rfl, rfl⟩

/-- What returns is a section on a slot of the table, which `addEvent` may have grown, or nothing where the table has no
slot. -/
theorem call_cases (hlen : m.fdContexts.length < intLimit) (h : m.call fd op = .ok (ret, m')) :
    ((m.fdContexts.length ≤ fd ∧ ∀ e, op.move (fun _ => none) e = none) ∧ ret = false ∧ m' = m) ∨
      ∃ l ctx r, (l = m.fdContexts ∨ (∃ ctl caller e cb, op = .addEvent ctl caller e cb) ∧
          m.fdContexts.length ≤ growSize fd ∧ l = contextResize FdContext.new (growSize fd) m.fdContexts) ∧
        slot l fd = .ok ctx ∧ op.run ctx = .ok r ∧ ret = r.ret ∧ m' = commit { m with fdContexts := l } fd r := by
  cases op with
  | addEvent ctl caller event cb =>
    rw [call] at h
    obtain ⟨⟨rt, m₁⟩, hb, heq⟩ := Throw.map_eq_ok_iff.1 h
    cases heq
    rw [addEvent] at hb
    obtain ⟨⟨l, ctx⟩, hl, hb⟩ := Throw.bind_eq_ok_iff.1 hb
    obtain ⟨r, hr, hb⟩ := Throw.bind_eq_ok_iff.1 hb
    cases hb
    obtain ⟨hs, hl⟩ := lookupGrow_eq_ok hlen hl
    exact .inr ⟨l, ctx, { r with ret := r.ret == 0 }, hl.imp id fun hl => ⟨⟨_, _, _, _, rfl⟩, hl⟩, hs,
      by rw [LockedOp.run, hr]; rfl, rfl, rfl⟩
  | delEvent ctl event =>
    obtain ⟨hle, hm⟩ | ⟨ctx, r, hs, hr, hm⟩ := lookup_cases hlen (f := fun ctx => .ok (ctx.delEvent ctl event)) h
    · exact .inl ⟨⟨hle, FdContext.update_none rfl⟩, hm⟩
    · exact .inr ⟨_, ctx, r, .inl rfl, hs, hr, hm⟩
  | cancelEvent ctl event =>
    obtain ⟨hle, hm⟩ | ⟨ctx, r, hs, hr, hm⟩ := lookup_cases hlen (f := fun ctx => ctx.cancelEvent ctl event) h
    · exact .inl ⟨⟨hle, FdContext.update_none rfl⟩, hm⟩
    · exact .inr ⟨_, ctx, r, .inl rfl, hs, hr, hm⟩
  | cancelAll ctl =>
    obtain ⟨hle, hm⟩ | ⟨ctx, r, hs, hr, hm⟩ := lookup_cases hlen (f := fun ctx => ctx.cancelAll ctl) h
    · exact .inl ⟨⟨hle, fun _ => rfl⟩, hm⟩
    · exact .inr ⟨_, ctx, r, .inl rfl, hs, hr, hm⟩
  | dispatch ctl bits =>
    rw [call, dispatch] at h
    obtain ⟨ctx, hs, hb⟩ := Throw.bind_eq_ok_iff.1 h
    obtain ⟨r, hr, hb⟩ := Throw.bind_eq_ok_iff.1 hb
    cases hb
    exact .inr ⟨_, ctx, r, .inl rfl, hs, hr, rfl, rfl⟩

/-- A registration that returns. -/
theorem call_addEvent {ctl : EpollCtl} {caller : Caller ς φ} {e : Event} {cb : Option κ} {l : List (FdContext ς φ κ)}
    {ctx : FdContext ς φ κ} {r : Locked ς φ κ Int} (hl : lookupGrow FdContext.new m.fdContexts fd = .ok (l, ctx))
    (hr : ctx.addEvent ctl caller e cb = .ok r) :
    m.call fd (.addEvent ctl caller e cb) = .ok (r.ret == 0, commit { m with fdContexts := l } fd r) := by
  rw [call, addEvent, hl]
  show ((ctx.addEvent ctl caller e cb >>= fun r => _ : Except Fault _)).map _ = _
  rw [hr]
  rfl

/-- The conditions on an operation. -/
abbrev Allowed (m : IOManager ς φ κ) (op : IOOp ς φ κ) : Prop := op.Reported m ∧ op.HasScheduler ∧ op.Fits

/-- The table that a section works on has the bookkeeping, the section is legal on its slot, and the contexts are as
they were. -/
theorem Inv.table (hi : m.Inv) (hop : m.Allowed ⟨fd, op⟩) {l : List (FdContext ς φ κ)} {ctx : FdContext ς φ κ}
    (hl : l = m.fdContexts ∨ (∃ ctl caller e cb, op = .addEvent ctl caller e cb) ∧
      m.fdContexts.length ≤ growSize fd ∧ l = contextResize FdContext.new (growSize fd) m.fdContexts)
    (hc : l[fd.toNat]? = some ctx) :
    Inv { m with fdContexts := l } ∧ op.Legal ctx ∧ context { m with fdContexts := l } = m.context := by
  obtain ⟨hrep, hsch, hfit⟩ := hop
  obtain rfl | ⟨⟨ctl, caller, e, cb, rfl⟩, hle, rfl⟩ := hl
  · refine ⟨hi, ?_, rfl⟩
    cases op with
    | addEvent ctl caller event cb => exact hsch
    | dispatch ctl bits => exact fun e he => by simpa [isRegistered, hc] using hrep e he
    | _ => trivial
  · exact ⟨hi.resize hle hfit, hsch, context_resize hle⟩

/-- An operation that meets the conditions keeps the bookkeeping. -/
theorem Inv.run (hi : m.Inv) (hop : m.Allowed ⟨fd, op⟩) (h : m.run fd op = .ok m') : m'.Inv := by
  obtain ⟨ret, h⟩ := run_eq_ok.1 h
  obtain ⟨-, -, rfl⟩ | ⟨l, ctx, r, hl, hs, hr, -, rfl⟩ := call_cases hi.length h
  · exact hi
  · have hc := (slot_eq_ok.1 hs).2
    obtain ⟨hil, hlegal, -⟩ := hi.table hop hl hc
    exact hil.commit hc (LockedOp.run_sound (hil.wf _ _ hc).1 hlegal hr)

/-- A section that changed nothing. -/
theorem same_commit {l : List (FdContext ς φ κ)} {ctx : FdContext ς φ κ} (hc : l[fd.toNat]? = some ctx)
    (hctx : context { m with fdContexts := l } = m.context) (b : Bool) :
    m.Same (commit { m with fdContexts := l } fd ⟨b, ctx, 0, []⟩) := by
  refine ⟨?_, Int.add_zero _, rfl⟩
  rw [← hctx]
  funext i
  have hset : (commit { m with fdContexts := l } fd ⟨b, ctx, 0, []⟩).fdContexts[i]? = l[i]? := by
    simp only [IOManager.commit, List.getElem?_set]
    split
    · rename_i hfd
      subst hfd
      rw [if_pos (List.getElem?_eq_some_iff.1 hc).1, hc]
    · rfl
  rw [context, context, hset]

/-- An operation whose `epoll_ctl` fails returns failure and changes nothing but the size of the table. -/
theorem Inv.call_of_ctl (hi : m.Inv) (hctl : op.ctl = fun _ _ => false) (h : m.call fd op = .ok (ret, m')) :
    ret = false ∧ m.Same m' := by
  obtain ⟨-, rfl, rfl⟩ | ⟨l, ctx, r, hl, hs, hr, rfl, rfl⟩ := call_cases hi.length h
  · exact ⟨rfl, rfl, rfl, rfl⟩
  · have hctx : context { m with fdContexts := l } = m.context := by
      obtain rfl | ⟨-, hle, rfl⟩ := hl
      · rfl
      · exact context_resize hle
    rw [LockedOp.run_of_ctl hctl hr]
    exact ⟨rfl, same_commit (slot_eq_ok.1 hs).2 hctx false⟩

/-- What an operation logs. -/
theorem Inv.call_logs (hi : m.Inv) (h : m.call fd op = .ok (ret, m')) :
    ∃ new, m'.log = new ++ m.log ∧ ∀ l ∈ new, op.Logs l.2.2 := by
  obtain ⟨-, -, rfl⟩ | ⟨l, ctx, r, -, -, hr, -, rfl⟩ := call_cases hi.length h
  · exact ⟨[], rfl, fun l hl => by cases hl⟩
  · refine ⟨_, rfl, fun x hx => ?_⟩
    obtain ⟨y, hy, rfl⟩ := List.mem_map.1 hx
    exact LockedOp.run_logs hr y hy

/-- The registrations after a section. -/
theorem registration_commit {r : Locked ς φ κ Bool} (hlt : fd.toNat < m.fdContexts.length) (i : Nat) :
    (m.commit fd r).registration i = if i = fd.toNat then r.ctx.slots else m.registration i := by
  funext e
  simp only [registration, IOManager.commit, List.getElem?_set]
  by_cases hi : i = fd.toNat
  · subst hi
    rw [if_pos rfl, if_pos hlt, if_pos rfl]
    rfl
  · rw [if_neg (Ne.symm hi), if_neg hi, registration]

/-- What a call moves is what its section moves in the slot. -/
theorem move_of_slots {reg : Slots ς φ κ} (hreg : m.registration fd.toNat = reg) (h₀ : 0 ≤ fd) (i : Nat) (e : Event) :
    IOOp.move m ⟨fd, op⟩ i e = if i = fd.toNat then op.move reg e else none := by
  rw [IOOp.move]
  by_cases h : i = fd.toNat
  · subst h
    rw [if_pos (Int.toNat_of_nonneg h₀).symm, if_pos rfl, hreg]
  · rw [if_neg h, if_neg (by simp only; omega)]

/-- What a call that meets the conditions has done. -/
theorem Inv.call_done (hi : m.Inv) (hop : m.Allowed ⟨fd, op⟩) (h : m.call fd op = .ok (ret, m')) :
    IOOp.Done m ⟨fd, op⟩ ret m' := by
  obtain ⟨⟨hle, hnone⟩, rfl, rfl⟩ | ⟨l, ctx, r, hl, hs, hr, rfl, rfl⟩ := call_cases hi.length h
  · refine ⟨fun _ => ⟨rfl, rfl, rfl⟩, fun h => (by cases h), fun _ => rfl, fun _ ⟨i, e, hsome⟩ => ?_⟩
    -- the table has no slot for the descriptor, so nothing of it is registered
    rw [IOOp.move] at hsome
    split at hsome
    · rename_i hfd
      have hreg : m'.registration i = fun _ => none := by
        funext e
        rw [registration, List.getElem?_eq_none (by simp only at hfd; omega), Option.bind_none]
      rw [hreg, hnone] at hsome
      cases hsome
    · cases hsome
  · obtain ⟨hfd, hc⟩ := slot_eq_ok.1 hs
    obtain ⟨hil, hlegal, hctx⟩ := hi.table hop hl hc
    have hreg (i : Nat) : registration { m with fdContexts := l } i = m.registration i := by
      rw [registration_eq, registration_eq, hctx]
    have hslots : m.registration fd.toNat = ctx.slots := (hreg _).symm.trans (registration_of_slot hc)
    have hmove (i : Nat) (e : Event) : IOOp.move m ⟨fd, op⟩ i e = _ := move_of_slots hslots hfd i e
    obtain ⟨hwf, hcfd⟩ := hil.wf _ _ hc
    rw [FdContext.WellFormed, hcfd] at hwf
    rw [hwf] at hlegal hr
    have hfails := (hi.call_of_ctl · h)
    cases LockedOp.run_does hlegal hr with
    | failed hnone =>
      refine ⟨fun _ => ?_, fun h => (by cases h), fun _ => rfl, fun hctl ⟨i, e, hsome⟩ => ?_⟩
      · exact same_commit (by rw [← hwf]; exact hc) hctx false
      · rw [hmove] at hsome
        split at hsome
        · rw [hnone hctl] at hsome
          cases hsome
        · cases hsome
    | succeeded hret hsome hlegal hm =>
      refine ⟨fun h => absurd (hret.symm.trans h) (by decide), fun _ => ⟨?_, fun i e => ?_⟩,
        fun hctl => (hfails hctl).1, fun _ _ => hret⟩
      · obtain ⟨e, he⟩ := hsome
        exact ⟨fd.toNat, e, by rw [hmove, if_pos rfl]; exact he⟩
      · rw [history_commit, registration_commit (List.getElem?_eq_some_iff.1 hc).1, hmove, hreg]
        by_cases h : i = fd.toNat
        · subst h
          rw [if_pos rfl, if_pos rfl, if_pos rfl, hm.log, hm.ctx, FdContext.slots_ofSlots, hslots]
          exact ⟨rfl, rfl⟩
        · rw [if_neg h, if_neg h, if_neg h]
          exact ⟨rfl, rfl⟩

/-- The table does not get shorter. -/
theorem Inv.length_le (hi : m.Inv) (h : m.run fd op = .ok m') : m.fdContexts.length ≤ m'.fdContexts.length := by
  obtain ⟨ret, h⟩ := run_eq_ok.1 h
  obtain ⟨-, -, rfl⟩ | ⟨l, ctx, r, hl, -, -, -, rfl⟩ := call_cases hi.length h
  · exact Nat.le_refl _
  · simp only [IOManager.commit, List.length_set]
    obtain rfl | ⟨-, hle, rfl⟩ := hl
    · exact Nat.le_refl _
    · rwa [length_contextResize]

theorem slot_ok {α : Type*} {l : List α} {fd : Int} (h₀ : 0 ≤ fd) (h : fd < l.length) : ∃ c, slot l fd = .ok c := by
  have hlt : fd.toNat < l.length := by omega
  exact ⟨_, slot_eq_ok.2 ⟨h₀, List.getElem?_eq_getElem hlt⟩⟩

/-- The lookup of `addEvent` finds a slot: `fd * 1.5` is beyond the descriptor. -/
theorem Inv.lookupGrow_ok (hi : m.Inv) (h2 : 2 ≤ m.fdContexts.length) (h₀ : 0 ≤ fd) :
    ∃ r, lookupGrow FdContext.new m.fdContexts fd = .ok r := by
  unfold lookupGrow
  rw [intSize_of_lt hi.length]
  split
  · rename_i hfd
    obtain ⟨c, hs⟩ := slot_ok h₀ hfd
    exact ⟨_, by rw [hs]; rfl⟩
  · obtain ⟨c, hs⟩ := slot_ok (l := contextResize FdContext.new (growSize fd) m.fdContexts) h₀
      (by rw [length_contextResize, growSize]; omega)
    exact ⟨_, by simp only [hs]; rfl⟩

/-- The lookup of the other operations finds a slot or that there is none. -/
theorem Inv.lookup_ok (hi : m.Inv) (h₀ : 0 ≤ fd) :
    lookup m.fdContexts fd = .ok none ∨
      ∃ ctx, slot m.fdContexts fd = .ok ctx ∧ lookup m.fdContexts fd = .ok (some ctx) := by
  unfold lookup
  rw [intSize_of_lt hi.length]
  split
  · exact .inl rfl
  · rename_i hfd
    obtain ⟨ctx, hs⟩ := slot_ok h₀ (by omega : fd < m.fdContexts.length)
    exact .inr ⟨ctx, hs, by rw [hs]; rfl⟩

/-- On a slot of the table a section that meets the conditions returns. -/
theorem Inv.run_ok (hi : m.Inv) (hlegal : ∀ ctx, m.fdContexts[fd.toNat]? = some ctx → op.Legal ctx)
    (hret : op.Returns (m.registration fd.toNat)) {ctx : FdContext ς φ κ} (hs : slot m.fdContexts fd = .ok ctx) :
    ∃ r, op.run ctx = .ok r := by
  have hc := (slot_eq_ok.1 hs).2
  have hwf := (hi.wf _ _ hc).1
  have hl := hlegal ctx hc
  rw [registration_of_slot hc] at hret
  rw [FdContext.WellFormed] at hwf
  rw [hwf] at hl ⊢
  exact LockedOp.run_ok hl hret

/-- A call that meets the conditions returns. -/
theorem Inv.call_ok (hi : m.Inv) (h2 : 2 ≤ m.fdContexts.length) (hop : m.Allowed ⟨fd, op⟩)
    (hret : IOOp.Returns m ⟨fd, op⟩) : ∃ ret m', m.call fd op = .ok (ret, m') := by
  obtain ⟨h₀, hret, hdisp⟩ := hret
  have hsection {ctx : FdContext ς φ κ} (hs : slot m.fdContexts fd = .ok ctx) : ∃ r, op.run ctx = .ok r :=
    hi.run_ok (fun ctx hc => (hi.table hop (.inl rfl) hc).2.1) hret hs
  cases op with
  | addEvent ctl caller event cb =>
    obtain ⟨⟨l, ctx⟩, hl⟩ := hi.lookupGrow_ok h2 h₀
    obtain ⟨hs, hgrown⟩ := lookupGrow_eq_ok hi.length hl
    have htable (ctx : FdContext ς φ κ) (hc : l[fd.toNat]? = some ctx) :=
      hi.table hop (hgrown.imp id fun h => ⟨⟨_, _, _, _, rfl⟩, h⟩) hc
    obtain ⟨hil, -, hctx⟩ := htable ctx (slot_eq_ok.1 hs).2
    obtain ⟨r, hr⟩ := hil.run_ok (fun ctx hc => (htable ctx hc).2.1)
      (by rw [registration_eq, hctx, ← registration_eq]; exact hret) hs
    obtain ⟨r', ha, -⟩ := Throw.map_eq_ok_iff.1 hr
    exact ⟨_, _, call_addEvent hl ha⟩
  | delEvent ctl event =>
    rw [call, delEvent]
    obtain hl | ⟨ctx, -, hl⟩ := hi.lookup_ok h₀
    · exact ⟨_, _, by rw [hl]; rfl⟩
    · exact ⟨_, _, by rw [hl]; rfl⟩
  | cancelEvent ctl event =>
    rw [call, cancelEvent]
    obtain hl | ⟨ctx, hs, hl⟩ := hi.lookup_ok h₀
    · exact ⟨_, _, by rw [hl]; rfl⟩
    · obtain ⟨r, hr⟩ := hsection hs
      rw [LockedOp.run] at hr
      exact ⟨_, _, by rw [hl, Throw.ok_bind]; simp only [hr]; rfl⟩
  | cancelAll ctl =>
    rw [call, cancelAll]
    obtain hl | ⟨ctx, hs, hl⟩ := hi.lookup_ok h₀
    · exact ⟨_, _, by rw [hl]; rfl⟩
    · obtain ⟨r, hr⟩ := hsection hs
      rw [LockedOp.run] at hr
      exact ⟨_, _, by rw [hl, Throw.ok_bind]; simp only [hr]; rfl⟩
  | dispatch ctl bits =>
    rw [call, dispatch]
    obtain ⟨ctx, hs⟩ := slot_ok h₀ (hdisp ctl bits rfl)
    obtain ⟨r, hr⟩ := hsection hs
    rw [LockedOp.run] at hr
    exact ⟨_, _, by rw [hs, Throw.ok_bind, hr]; rfl⟩

/-- Bookkeeping holds in every state that operations meeting the conditions reach, and the table has the slots of the
constructor. -/
theorem inv_reachable (h : (ioSys ς φ κ).ReachableWhen (fun m op => m.Allowed op) m) :
    m.Inv ∧ 32 ≤ m.fdContexts.length := by
  refine h.invariant (I := fun m => m.Inv ∧ 32 ≤ m.fdContexts.length) ?_ fun m op m' ⟨hi, hlen⟩ hop hs => ?_
  · rintro m rfl
    exact ⟨inv_new, (length_contextResize _ _ _).ge⟩
  · have hs := ioSys_step.1 hs
    exact ⟨hi.run hop hs, hlen.trans (hi.length_le hs)⟩

end IOManager

/-- The context holds a scheduler and one task. -/
def EventContext.HasTask (c : EventContext ς φ κ) : Prop := c.scheduler.isSome = true ∧ c.fiber.isSome ≠ c.cb.isSome

theorem EventContext.hasTask_ofReg (r : Option (ς × Task φ κ)) : (ofReg r).HasTask ↔ r.isSome = true := by
  rcases r with _ | ⟨s, f | f⟩ <;> simp [HasTask, ofReg, empty]

/-- **The bookkeeping of events.** In every state that runs reach in which registering threads have a scheduler, the
table fits an `int` and dispatches report registered bits: a bit is set exactly when its context holds a scheduler and
one task, and the context is empty otherwise; the counter is the number of set bits; what happened to each slot is a
history that leaves what the slot holds, in which every registration but a pending one was handed to its scheduler or
dropped, once; an operation whose `epoll_ctl` fails leaves contexts, counter and histories as they are, and only
`delEvent` drops registrations; a call that meets the conditions has done what it returned (`IOOp.Done`), and it returns
unless the descriptor is negative or the event is registered already. -/
theorem event_bookkeeping {m : IOManager ς φ κ}
    (h : (ioSys ς φ κ).ReachableWhen (fun m op => op.Reported m ∧ op.HasScheduler ∧ op.Fits) m) :
    (∀ ctx ∈ m.fdContexts, ∀ e, (ctx.events.has e = true ↔ (ctx.getContext e).HasTask) ∧
        (ctx.events.has e = false → ctx.getContext e = .empty)) ∧
      m.pendingEventCount = m.registered ∧
      (∀ fd e, SlotHistory (m.history fd e) (m.registration fd e) ∧
        (m.registration fd e).isSome = m.isRegistered fd e ∧
        (m.history fd e).countP LogKind.isRegistered =
          (m.history fd e).countP LogKind.isEnd + (if m.isRegistered fd e then 1 else 0)) ∧
      (∀ (op : IOOp ς φ κ) ret m', m.call op.fd op.op = .ok (ret, m') →
        (op.op.ctl = (fun _ _ => false) → ret = false ∧ m.Same m') ∧
        ∃ new, m'.log = new ++ m.log ∧ ∀ l ∈ new, op.op.Logs l.2.2) ∧
      ∀ op : IOOp ς φ κ, op.Reported m ∧ op.HasScheduler ∧ op.Fits →
        (∀ ret m', m.call op.fd op.op = .ok (ret, m') → op.Done m ret m') ∧
        (op.Returns m → ∃ ret m', m.call op.fd op.op = .ok (ret, m')) := by
  obtain ⟨hi, hlen⟩ := IOManager.inv_reachable h
  have hreg (fd : Nat) (e : Event) : (m.registration fd e).isSome = m.isRegistered fd e := by
    rw [IOManager.registration, IOManager.isRegistered]
    cases hc : m.fdContexts[fd]? with
    | none => rfl
    | some ctx =>
      have hw := (hi.wf fd ctx hc).1
      rw [Option.bind_some, Option.any_some, hw, FdContext.has_events_ofSlots, FdContext.slots_ofSlots]
  refine ⟨fun ctx hctx e => ?_, hi.pending, fun fd e => ?_,
    fun op ret m' hr => ⟨fun hctl => hi.call_of_ctl hctl hr, hi.call_logs hr⟩,
    fun op hop => ⟨fun ret m' hr => hi.call_done hop hr, fun hret => hi.call_ok (by omega) hop hret⟩⟩
  · obtain ⟨i, hc⟩ := List.mem_iff_getElem?.1 hctx
    rw [(hi.wf i ctx hc).1, FdContext.has_events_ofSlots, FdContext.getContext_ofSlots]
    refine ⟨(EventContext.hasTask_ofReg _).symm, fun hn => ?_⟩
    rw [Option.isSome_eq_false_iff, Option.isNone_iff_eq_none] at hn
    rw [hn]
    rfl
  · have hh := hi.history fd e
    refine ⟨hh, hreg fd e, ?_⟩
    rw [hh.count, hreg]

/-! ## Runs -/

instance (m : IOManager ς φ κ) : (op : IOOp ς φ κ) → Decidable (op.Reported m)
  | ⟨fd, .dispatch _ bits⟩ => inferInstanceAs (Decidable (∀ e, bits.has e = true → m.isRegistered fd.toNat e = true))
  | ⟨_, .addEvent _ _ _ _⟩ | ⟨_, .delEvent _ _⟩ | ⟨_, .cancelEvent _ _⟩ | ⟨_, .cancelAll _⟩ =>
    inferInstanceAs (Decidable True)

instance : (op : IOOp ς φ κ) → Decidable op.HasScheduler
  | ⟨_, .addEvent _ caller _ _⟩ => inferInstanceAs (Decidable (caller.scheduler.isSome = true))
  | ⟨_, .dispatch _ _⟩ | ⟨_, .delEvent _ _⟩ | ⟨_, .cancelEvent _ _⟩ | ⟨_, .cancelAll _⟩ =>
    inferInstanceAs (Decidable True)

instance : (op : IOOp ς φ κ) → Decidable op.Fits
  | ⟨fd, .addEvent _ _ _ _⟩ => inferInstanceAs (Decidable (growSize fd < intLimit))
  | ⟨_, .dispatch _ _⟩ | ⟨_, .delEvent _ _⟩ | ⟨_, .cancelEvent _ _⟩ | ⟨_, .cancelAll _⟩ =>
    inferInstanceAs (Decidable True)

/-- Descriptor 40 is registered for both events, and a dispatch of `READ` leaves the other one. -/
theorem event_bookkeeping_dispatched : ∃ m : IOManager Nat Nat Nat, m.pendingEventCount = 1 ∧ m.registered = 1 ∧
    m.isRegistered 40 .write = true := by
  obtain ⟨m, hm, hp⟩ := (ioSys Nat Nat Nat).reachableWhen_of_exec
    (fun m op => op.Reported m ∧ op.HasScheduler ∧ op.Fits) .new rfl
    [⟨40, .addEvent (fun _ _ => true) ⟨some 1, 2, true⟩ .read none⟩,
      ⟨40, .addEvent (fun _ _ => true) ⟨some 1, 2, true⟩ .write (some 3)⟩,
      ⟨40, .dispatch (fun _ _ => true) Event.read.bit⟩]
    (p := fun m => m.pendingEventCount == 1 && m.isRegistered 40 .write) rfl
  rw [Bool.and_eq_true, beq_iff_eq] at hp
  exact ⟨m, hp.1, (event_bookkeeping hm).2.1 ▸ hp.1, hp.2⟩

section Overflow

/-- A table with more slots than an `int` counts, as `addEvent` for descriptor 5 sees it: it is shrunk to 7 slots. -/
theorem lookupGrow_overflow {α : Type*} (new : Nat → α) {l : List α} (h7 : 7 ≤ l.length) (hl : intSize l.length ≤ 5)
    {c : α} (hc : l[5]? = some c) : lookupGrow new l 5 = .ok (l.take 7, c) := by
  have hgrow : contextResize new (growSize 5) l = l.take 7 := by
    have hg : growSize 5 = 7 := by decide
    rw [contextResize, hg, Nat.sub_eq_zero_of_le h7]
    exact List.append_nil _
  have hs : slot (l.take 7) 5 = .ok c := slot_eq_ok.2 ⟨by decide, by rwa [List.getElem?_take_of_lt (by decide)]⟩
  rw [lookupGrow, if_neg (by omega), hgrow]
  show (slot (l.take 7) 5).map _ = _
  rw [hs]
  rfl

/-- The slots of a table that grew from the first one. -/
theorem getElem?_resize_new {n : Nat} (hn : 32 ≤ n) {i : Nat} (hi : i < n) :
    (contextResize FdContext.new n (IOManager.new : IOManager ς φ κ).fdContexts)[i]? = some (.new i) := by
  have h32 : (IOManager.new : IOManager ς φ κ).fdContexts.length = 32 := length_contextResize _ _ _
  rw [getElem?_contextResize _ (by omega), h32]
  split
  · rename_i h
    show (contextResize _ _ [])[i]? = _
    rw [getElem?_contextResize _ (Nat.zero_le 32)]
    simp [h]
  · rfl

/-- A descriptor whose table has more slots than an `int` counts, and then descriptor 5. -/
theorem registered_lost (fd n : Nat) (hn : growSize fd = n) (hfd : 32 ≤ fd) (hlt : fd < n) (hint : intSize n ≤ 5) :
    ∃ m : IOManager Nat Nat Nat, (ioSys Nat Nat Nat).ReachableWhen (fun m op => op.Reported m ∧ op.HasScheduler) m ∧
      m.pendingEventCount = 2 ∧ m.registered = 1 := by
  obtain ⟨r₁, h₁, hp₁, -⟩ := LockedOp.addEvent_new fd .read (⟨some 1, 2, true⟩ : Caller Nat Nat) rfl 7
  obtain ⟨r₂, h₂, hp₂, hc₂⟩ := LockedOp.addEvent_new 5 .read (⟨some 1, 2, true⟩ : Caller Nat Nat) rfl 7
  let big := contextResize FdContext.new n (IOManager.new : IOManager Nat Nat Nat).fdContexts
  have hlen : big.length = n := length_contextResize _ _ _
  have hbig {i : Nat} (hi : i < n) : big[i]? = some (.new i) := getElem?_resize_new (by omega) hi
  let m₁ := IOManager.commit { IOManager.new with fdContexts := big } fd r₁
  let m₂ := IOManager.commit { m₁ with fdContexts := m₁.fdContexts.take 7 } 5 r₂
  have hm₁ (i : Nat) (hi : i < 7) : m₁.fdContexts[i]? = some (.new i) := by
    show (big.set _ _)[i]? = _
    rw [List.getElem?_set_ne (by omega), hbig (by omega)]
  have hlen₁ : m₁.fdContexts.length = n := List.length_set.trans hlen
  have hg₁ : lookupGrow FdContext.new (IOManager.new : IOManager Nat Nat Nat).fdContexts fd = .ok (big, .new fd) := by
    have hsize : ¬intSize (IOManager.new : IOManager Nat Nat Nat).fdContexts.length > fd := by
      have : intSize (IOManager.new : IOManager Nat Nat Nat).fdContexts.length = 32 := by decide
      omega
    rw [lookupGrow, if_neg hsize, hn]
    show (slot big fd).map _ = _
    rw [slot_eq_ok.2 ⟨Int.natCast_nonneg fd, by rw [Int.toNat_natCast, hbig hlt]⟩]
    rfl
  have hg₂ : lookupGrow FdContext.new m₁.fdContexts 5 = .ok (m₁.fdContexts.take 7, .new 5) :=
    lookupGrow_overflow _ (by omega) (by rwa [hlen₁]) (hm₁ 5 (by decide))
  let op : LockedOp Nat Nat Nat := .addEvent (fun _ _ => true) ⟨some 1, 2, true⟩ .read (some 7)
  have hs₁ : (ioSys Nat Nat Nat).step .new ⟨fd, op⟩ = some m₁ :=
    ioSys_step.2 (IOManager.run_eq_ok.2 ⟨_, IOManager.call_addEvent hg₁ h₁⟩)
  have hs₂ : (ioSys Nat Nat Nat).step m₁ ⟨5, op⟩ = some m₂ :=
    ioSys_step.2 (IOManager.run_eq_ok.2 ⟨_, IOManager.call_addEvent hg₂ h₂⟩)
  have hok (m : IOManager Nat Nat Nat) (fd : Int) : IOOp.Reported m ⟨fd, op⟩ ∧ IOOp.HasScheduler ⟨fd, op⟩ :=
    ⟨trivial, rfl⟩
  have hr₁ : (ioSys Nat Nat Nat).ReachableWhen (fun m op => op.Reported m ∧ op.HasScheduler) m₁ :=
    .tail _ (.init rfl) (hok .new fd) hs₁
  have hr₂ : (ioSys Nat Nat Nat).ReachableWhen (fun m op => op.Reported m ∧ op.HasScheduler) m₂ :=
    .tail _ hr₁ (hok m₁ 5) hs₂
  refine ⟨m₂, hr₂, ?_, ?_⟩
  · show 0 + r₁.pending + r₂.pending = 2
    rw [hp₁, hp₂]
    rfl
  · have h5 : (m₁.fdContexts.take 7)[5]? = some (.new 5) := by
      rw [List.getElem?_take_of_lt (by decide), hm₁ 5 (by decide)]
    have h0 : ((m₁.fdContexts.take 7).map FdContext.count).sum = 0 := by
      refine List.sum_eq_zero fun x hx => ?_
      obtain ⟨ctx, hctx, rfl⟩ := List.mem_map.1 hx
      obtain ⟨i, hi⟩ := List.mem_iff_getElem?.1 hctx
      have h7 : i < 7 := by
        have := (List.getElem?_eq_some_iff.1 hi).1
        rw [List.length_take] at this
        omega
      rw [List.getElem?_take_of_lt h7, hm₁ i h7] at hi
      cases hi
      exact FdContext.count_new i
    show (((m₁.fdContexts.take 7).set 5 r₂.ctx).map FdContext.count).sum = 1
    rw [IOManager.sum_map_set FdContext.count r₂.ctx h5, h0, hc₂, FdContext.count_new]
    rfl

end Overflow

/-- Without the conditions the bookkeeping fails: a thread without a scheduler sets a bit and leaves no scheduler, and
descriptor 1500000000 makes the table so large that 5 then shrinks it to 7 slots, dropping a registration that the
counter still counts. -/
theorem event_bookkeeping_fails :
    (∃ m : IOManager Nat Nat Nat, (ioSys Nat Nat Nat).ReachableWhen (fun m op => op.Reported m ∧ op.Fits) m ∧
      ∃ ctx ∈ m.fdContexts, ctx.events.has .read = true ∧ ¬(ctx.getContext .read).HasTask) ∧
    ∃ m : IOManager Nat Nat Nat, (ioSys Nat Nat Nat).ReachableWhen (fun m op => op.Reported m ∧ op.HasScheduler) m ∧
      m.pendingEventCount = 2 ∧ m.registered = 1 := by
  refine ⟨?_, registered_lost 1500000000 2250000000 (by decide) (by decide) (by decide) (by decide)⟩
  obtain ⟨m, hm, hp⟩ := (ioSys Nat Nat Nat).reachableWhen_of_exec (fun m op => op.Reported m ∧ op.Fits)
    .new rfl [⟨5, .addEvent (fun _ _ => true) ⟨none, 2, true⟩ .read (some 7)⟩]
    (p := fun m => m.fdContexts.any fun ctx => ctx.events.has .read && (ctx.getContext .read).scheduler.isNone)
    rfl
  obtain ⟨ctx, hctx, hc⟩ := List.any_eq_true.1 hp
  rw [Bool.and_eq_true, Option.isNone_iff_eq_none] at hc
  refine ⟨m, hm, ctx, hctx, hc.1, fun ht => ?_⟩
  rw [EventContext.HasTask, hc.2] at ht
  cases ht.1

end Megalo
