import Megalo.IOManager.Basic
import Mathlib.Logic.Function.Basic
import Mathlib.Algebra.BigOperators.Group.List.Basic

/-!
# The registrations of one descriptor

`Slots` is what a context is for: for each event, the scheduler and the task that wait for it, if any. `ofSlots` is the
context that holds them, and `WellFormed` contexts are those of this form.

- `LockedOp.move` says what each section does to a slot when it succeeds: the entry that it logs (`LogKind`), which the
  slot must allow (`LogKind.Legal`) and which says what is left in the slot (`LogKind.leaves`);
- `LockedOp.Does`: a section that returns has failed and done nothing, or has moved every slot as it should, counted the
  bits it set and cleared and logged the moves. Every section does so (`addEvent_does`, `delEvent_does`,
  `cancelEvent_does`, `cancelAll_does`, `dispatch_does`), and returns (`run_ok`);
- so it is sound for the histories of the slots (`Locked.Sound`, `SlotHistory`).
-/

namespace Megalo

variable {ς φ κ : Type*}

instance (p : Event → Prop) [DecidablePred p] : Decidable (∀ e, p e) :=
  decidable_of_iff (p .read ∧ p .write) ⟨fun h e => by cases e; exacts [h.1, h.2], fun h => ⟨h _, h _⟩⟩

instance (p : Event → Prop) [DecidablePred p] : Decidable (∃ e, p e) :=
  decidable_of_iff (¬∀ e, ¬p e) not_forall_not

/-! ## Masks -/

namespace EventMask

/-- The mask with the given bits. -/
def ofBits (read write : Bool) : EventMask :=
  (if read then Event.read.bit else 0#32) ||| (if write then Event.write.bit else 0#32)

/-- The mask of a set of events. -/
def of (p : Event → Bool) : EventMask := ofBits (p .read) (p .write)

variable (p q : Event → Bool) (e : Event)

@[simp] theorem has_of : (of p).has e = p e := by
  have h : ∀ r w, (ofBits r w).has .read = r ∧ (ofBits r w).has .write = w := by decide
  cases e
  · exact (h _ _).1
  · exact (h _ _).2

theorem of_or : of p ||| e.bit = of (Function.update p e true) := by
  have h : ∀ r w, ofBits r w ||| Event.read.bit = ofBits true w ∧ ofBits r w ||| Event.write.bit = ofBits r true := by
    decide
  cases e
  · exact (h _ _).1
  · exact (h _ _).2

theorem of_and_not : of p &&& ~~~e.bit = of (Function.update p e false) := by
  have h : ∀ r w, ofBits r w &&& ~~~Event.read.bit = ofBits false w ∧
      ofBits r w &&& ~~~Event.write.bit = ofBits r false := by decide
  cases e
  · exact (h _ _).1
  · exact (h _ _).2

theorem of_eq_zero : of p = 0#32 ↔ ∀ e, p e = false := by
  have h : ∀ r w, ofBits r w = 0#32 ↔ r = false ∧ w = false := by decide
  refine (h _ _).trans ⟨fun h e => ?_, fun h => ⟨h .read, h .write⟩⟩
  cases e
  · exact h.1
  · exact h.2

/-- A mask without any of some events. -/
theorem and_of_eq_zero {m : EventMask} (h : ∀ e, p e = true → m.has e = false) : m &&& of p = 0#32 := by
  have hbit (e : Event) : m &&& (if p e then e.bit else 0#32) = 0#32 := by
    cases hp : p e with
    | false => exact BitVec.and_zero
    | true =>
      have := h e hp
      rw [has, bne_eq_false_iff_eq] at this
      simpa using this
  rw [of, ofBits, BitVec.and_or_distrib_left, hbit, hbit]
  rfl

theorem has_eq_getLsbD (m : EventMask) (e : Event) : m.has e = m.getLsbD (match e with | .read => 0 | .write => 2) := by
  have h : ∀ i < 32, (m &&& BitVec.twoPow 32 i != 0#32) = m.getLsbD i := fun i hi => by
    have hne : BitVec.twoPow 32 i ≠ 0#32 := fun h0 => by
      have := congrArg (·.getLsbD i) h0
      simp [hi] at this
    rw [BitVec.and_twoPow]
    cases m.getLsbD i <;> simp [hne]
  cases e
  · exact h 0 (by decide)
  · exact h 2 (by decide)

theorem has_or (m m' : EventMask) (e : Event) : (m ||| m').has e = (m.has e || m'.has e) := by
  simp only [has_eq_getLsbD, BitVec.getLsbD_or]

theorem has_and (m m' : EventMask) (e : Event) : (m &&& m').has e = (m.has e && m'.has e) := by
  simp only [has_eq_getLsbD, BitVec.getLsbD_and]

end EventMask

/-! ## Contexts and the registrations they hold -/

/-- The registrations of one descriptor. -/
abbrev Slots (ς φ κ : Type*) := Event → Option (ς × Task φ κ)

/-- The context of a registration. -/
def EventContext.ofReg : Option (ς × Task φ κ) → EventContext ς φ κ
  | none => .empty
  | some (s, .fiber f) => ⟨some s, some f, none⟩
  | some (s, .cb f) => ⟨some s, none, some f⟩

/-- The registration a context holds. -/
def EventContext.reg : EventContext ς φ κ → Option (ς × Task φ κ)
  | ⟨some s, some f, none⟩ => some (s, .fiber f)
  | ⟨some s, none, some f⟩ => some (s, .cb f)
  | _ => none

@[simp] theorem EventContext.reg_ofReg (r : Option (ς × Task φ κ)) : (ofReg r).reg = r := by
  rcases r with _ | ⟨s, f | f⟩ <;> rfl

namespace FdContext

/-- The context of a descriptor with the given registrations. -/
def ofSlots (fd : Nat) (reg : Slots ς φ κ) : FdContext ς φ κ :=
  { read := .ofReg (reg .read), write := .ofReg (reg .write), fd := fd
    events := EventMask.of fun e => (reg e).isSome }

/-- The registrations of a context. -/
def slots (ctx : FdContext ς φ κ) : Slots ς φ κ := fun e => (ctx.getContext e).reg

/-- The mask and the two contexts of the descriptor agree. -/
def WellFormed (ctx : FdContext ς φ κ) : Prop := ctx = ofSlots ctx.fd ctx.slots

/-- How many bits of the mask are set. -/
def count (ctx : FdContext ς φ κ) : Int :=
  (if ctx.events.has .read then 1 else 0) + (if ctx.events.has .write then 1 else 0)

variable (fd : Nat) (reg : Slots ς φ κ) (e : Event)

@[simp] theorem getContext_ofSlots : (ofSlots fd reg).getContext e = .ofReg (reg e) := by cases e <;> rfl

@[simp] theorem getContext_setEvents (ctx : FdContext ς φ κ) (m : EventMask) :
    (ctx.setEvents m).getContext e = ctx.getContext e := by cases e <;> rfl

@[simp] theorem slots_ofSlots : (ofSlots fd reg).slots = reg := by
  funext e
  simp [slots]

theorem wellFormed_ofSlots : (ofSlots fd reg).WellFormed := by
  show _ = ofSlots fd (ofSlots fd reg).slots
  rw [slots_ofSlots]

@[simp] theorem slots_new : (new fd : FdContext ς φ κ).slots = fun _ => none := by
  funext e
  cases e <;> rfl

theorem wellFormed_new : (new fd : FdContext ς φ κ).WellFormed := by
  unfold WellFormed
  rw [slots_new]
  simp [new, ofSlots, EventContext.ofReg, EventMask.of, EventMask.ofBits]

theorem events_ofSlots : (ofSlots fd reg).events = EventMask.of fun e => (reg e).isSome := rfl

@[simp] theorem has_events_ofSlots : (ofSlots fd reg).events.has e = (reg e).isSome := EventMask.has_of _ _

theorem count_ofSlots : (ofSlots fd reg).count =
    (if (reg .read).isSome then 1 else 0) + (if (reg .write).isSome then 1 else 0) := by simp [count]

@[simp] theorem count_new : (new fd : FdContext ς φ κ).count = 0 := by simp [count, new, EventMask.has]

/-- Writing one context and its bit writes one registration. -/
theorem setContext_ofSlots (r : Option (ς × Task φ κ)) :
    ((ofSlots fd reg).setEvents (EventMask.of (Function.update (fun e => (reg e).isSome) e r.isSome))).setContext e
      (.ofReg r) = ofSlots fd (Function.update reg e r) := by
  have hu : Function.update (fun e => (reg e).isSome) e r.isSome = fun e' => (Function.update reg e r e').isSome := by
    funext e'
    by_cases h : e' = e
    · subst h; simp
    · simp [h]
  rw [hu]
  cases e <;> rfl

/-- Setting a free slot counts one bit more, clearing a taken one a bit less. -/
theorem count_update (r : Option (ς × Task φ κ)) : (ofSlots fd (Function.update reg e r)).count =
    (ofSlots fd reg).count - (if (reg e).isSome then 1 else 0) + (if r.isSome then 1 else 0) := by
  cases e
  · simp [count_ofSlots, Function.update]; omega
  · simp [count_ofSlots, Function.update]

end FdContext

/-! ## Histories -/

/-- The histories of one slot, newest first, with the registration they leave: a registration goes into an empty slot,
and is either handed to its own scheduler or dropped. -/
inductive SlotHistory : List (LogKind ς φ κ) → Option (ς × Task φ κ) → Prop
  | nil : SlotHistory [] none
  | registered {h : List (LogKind ς φ κ)} (s : ς) (t : Task φ κ) :
      SlotHistory h none → SlotHistory (.registered (some s) t :: h) (some (s, t))
  | scheduled {h : List (LogKind ς φ κ)} {s : ς} {t : Task φ κ} :
      SlotHistory h (some (s, t)) → SlotHistory (.scheduled s t :: h) none
  | dropped {h : List (LogKind ς φ κ)} {r : ς × Task φ κ} : SlotHistory h (some r) → SlotHistory (.dropped :: h) none

namespace LogKind

/-- The entry makes a registration. -/
def isRegistered : LogKind ς φ κ → Bool
  | registered _ _ => true
  | _ => false

/-- The entry ends a registration. -/
def isEnd : LogKind ς φ κ → Bool
  | registered _ _ => false
  | _ => true

end LogKind

/-- Every registration but a pending one has ended exactly once. -/
theorem SlotHistory.count {h : List (LogKind ς φ κ)} {r : Option (ς × Task φ κ)} (hh : SlotHistory h r) :
    h.countP LogKind.isRegistered = h.countP LogKind.isEnd + (if r.isSome then 1 else 0) := by
  induction hh with
  | nil => rfl
  | registered s t _ ih => simpa [List.countP_cons, LogKind.isRegistered, LogKind.isEnd] using ih
  | scheduled _ ih => simpa [List.countP_cons, LogKind.isRegistered, LogKind.isEnd] using ih
  | dropped _ ih => simpa [List.countP_cons, LogKind.isRegistered, LogKind.isEnd] using ih

/-- The entries of one event. -/
def entriesOf (e : Event) (log : List (Event × LogKind ς φ κ)) : List (LogKind ς φ κ) :=
  log.filterMap fun l => if l.1 = e then some l.2 else none

@[simp] theorem entriesOf_nil (e : Event) : entriesOf e ([] : List (Event × LogKind ς φ κ)) = [] := rfl

@[simp] theorem entriesOf_append (e : Event) (l₁ l₂ : List (Event × LogKind ς φ κ)) :
    entriesOf e (l₁ ++ l₂) = entriesOf e l₁ ++ entriesOf e l₂ := List.filterMap_append

@[simp] theorem entriesOf_single (e e' : Event) (k : LogKind ς φ κ) :
    entriesOf e [(e', k)] = if e' = e then [k] else [] := by
  by_cases h : e' = e <;> simp [entriesOf, h]

/-! ## Moves of slots -/

namespace LogKind

/-- What the entry leaves in its slot. -/
def leaves : LogKind ς φ κ → Option (ς × Task φ κ)
  | registered s t => s.map (·, t)
  | scheduled _ _ => none
  | dropped => none

/-- The entry can come next in a slot that holds `r`. -/
def Legal (r : Option (ς × Task φ κ)) : LogKind ς φ κ → Prop
  | registered s _ => s.isSome = true ∧ r = none
  | scheduled s t => r = some (s, t)
  | dropped => r.isSome = true

end LogKind

/-- A legal entry prolongs the history. -/
theorem SlotHistory.cons {h : List (LogKind ς φ κ)} {r : Option (ς × Task φ κ)} {k : LogKind ς φ κ}
    (hh : SlotHistory h r) (hk : k.Legal r) : SlotHistory (k :: h) k.leaves := by
  cases k with
  | registered s t =>
    obtain ⟨hs, rfl⟩ := hk
    obtain ⟨s, rfl⟩ := Option.isSome_iff_exists.1 hs
    exact .registered s t hh
  | scheduled s t =>
    cases (hk : r = some (s, t))
    exact .scheduled hh
  | dropped =>
    obtain ⟨x, rfl⟩ := Option.isSome_iff_exists.1 (hk : r.isSome = true)
    exact .dropped hh

/-- The entry of a registration that is handed to its scheduler, if there is one. -/
def handOver (r : Option (ς × Task φ κ)) : Option (LogKind ς φ κ) := r.map fun x => .scheduled x.1 x.2

/-- The slots after moves. -/
def Slots.moved (reg : Slots ς φ κ) (move : Event → Option (LogKind ς φ κ)) : Slots ς φ κ :=
  fun e => (move e).elim (reg e) LogKind.leaves

namespace LockedOp

/-- What the section does to the slot of an event when it succeeds, if anything: `addEvent` registers, `delEvent` drops,
and the others hand over to schedulers, `dispatch` what was reported and on an error or a hang-up all. -/
def move (reg : Slots ς φ κ) : LockedOp ς φ κ → Event → Option (LogKind ς φ κ)
  | addEvent _ caller event cb => Function.update (fun _ => none) event
    (some (.registered caller.scheduler (cb.elim (.fiber caller.fiber) .cb)))
  | delEvent _ event => Function.update (fun _ => none) event ((reg event).map fun _ => .dropped)
  | cancelEvent _ event => Function.update (fun _ => none) event (handOver (reg event))
  | cancelAll _ => fun e => handOver (reg e)
  | dispatch _ bits => fun e =>
    if bits.has e || bits &&& (epollErr ||| epollHup) != 0#32 then handOver (reg e) else none

end LockedOp

/-- The section has moved the slots and counted and logged the moves. -/
structure Locked.Moves {β : Type*} (fd : Nat) (reg : Slots ς φ κ) (move : Event → Option (LogKind ς φ κ))
    (r : Locked ς φ κ β) : Prop where
  ctx : r.ctx = .ofSlots fd (reg.moved move)
  pending : r.pending = r.ctx.count - (FdContext.ofSlots fd reg).count
  log : ∀ e, entriesOf e r.log = (move e).toList

/-- What a section that returned has done: nothing when it failed, which it does not when `epoll_ctl` succeeds and there
is something to move; and what it is for when it succeeded. -/
inductive LockedOp.Does (fd : Nat) (reg : Slots ς φ κ) (op : LockedOp ς φ κ) : Locked ς φ κ Bool → Prop
  | failed (h : op.ctl = (fun _ _ => true) → ∀ e, op.move reg e = none) : Does fd reg op ⟨false, .ofSlots fd reg, 0, []⟩
  | succeeded {r : Locked ς φ κ Bool} (hret : r.ret = true) (hsome : ∃ e, (op.move reg e).isSome = true)
      (hlegal : ∀ e k, op.move reg e = some k → k.Legal (reg e)) (hmoves : r.Moves fd reg (op.move reg)) :
      Does fd reg op r

section Moves

variable {fd : Nat} {reg : Slots ς φ κ} {e : Event} {move : Event → Option (LogKind ς φ κ)}

theorem handOver_isSome {r : Option (ς × Task φ κ)} : (handOver r).isSome = r.isSome := Option.isSome_map

/-- Handing over is legal. -/
theorem handOver_legal {r : Option (ς × Task φ κ)} {k : LogKind ς φ κ} (h : handOver r = some k) : k.Legal r := by
  obtain ⟨⟨s, t⟩, hr, rfl⟩ := Option.map_eq_some_iff.1 h
  exact hr

@[simp] theorem Slots.moved_none : reg.moved (fun _ => none) = reg := rfl

/-- One move more. -/
theorem Slots.moved_update (k : LogKind ς φ κ) :
    reg.moved (Function.update move e (some k)) = Function.update (reg.moved move) e k.leaves := by
  funext e'
  by_cases he : e' = e
  · subst he
    simp [moved]
  · simp [moved, he]

/-- A section that does nothing. -/
theorem Locked.moves_none {β : Type*} (fd : Nat) (reg : Slots ς φ κ) (ret : β) :
    Locked.Moves fd reg (fun _ => none) ⟨ret, .ofSlots fd reg, 0, []⟩ where
  ctx := rfl
  pending := (sub_self _).symm
  log _ := rfl

/-- One move more on the context of a section. -/
theorem Locked.Moves.update {β : Type*} {r : Locked ς φ κ β} (hr : r.Moves fd reg move) (hmove : move e = none)
    (k : LogKind ς φ κ) {d : Int} (hd : d = (if k.leaves.isSome then 1 else 0) - (if (reg e).isSome then 1 else 0)) :
    Locked.Moves fd reg (Function.update move e (some k))
      ⟨r.ret, .ofSlots fd (Function.update (reg.moved move) e k.leaves), r.pending + d, [(e, k)] ++ r.log⟩ where
  ctx := by rw [Slots.moved_update]
  pending := by
    have hsame : reg.moved move e = reg e := by rw [Slots.moved, hmove, Option.elim_none]
    have hp := hr.pending
    rw [hr.ctx] at hp
    simp only [FdContext.count_update, hsame]
    omega
  log e' := by
    rw [entriesOf_append, entriesOf_single, hr.log]
    by_cases he : e' = e
    · subst he
      simp [hmove]
    · simp [he, Ne.symm he]

/-- A section that moves one slot. -/
theorem Locked.moves_single {β : Type*} (ret : β) (k : LogKind ς φ κ) {d : Int}
    (hd : d = (if k.leaves.isSome then 1 else 0) - (if (reg e).isSome then 1 else 0)) :
    Locked.Moves fd reg (Function.update (fun _ => none) e (some k))
      ⟨ret, .ofSlots fd (Function.update reg e k.leaves), d, [(e, k)]⟩ := by
  have h := (Locked.moves_none fd reg ret).update rfl k hd
  simpa only [Slots.moved_none, Int.zero_add, List.append_nil] using h

/-- A section that has moved one slot. -/
theorem LockedOp.Does.single {op : LockedOp ς φ κ} {k : LogKind ς φ κ} {r : Locked ς φ κ Bool}
    (hmove : op.move reg = Function.update (fun _ => none) e (some k)) (hlegal : k.Legal (reg e)) (hret : r.ret = true)
    (hr : r.Moves fd reg (Function.update (fun _ => none) e (some k))) : op.Does fd reg r := by
  refine .succeeded hret ⟨e, by rw [hmove, Function.update_self]; rfl⟩ (fun e' k' hk => ?_) (hmove ▸ hr)
  rw [hmove, Function.update_apply] at hk
  split at hk
  · rename_i he
    subst he
    cases hk
    exact hlegal
  · cases hk

/-- A section whose `epoll_ctl` fails. -/
theorem LockedOp.Does.of_ctl {op : LockedOp ς φ κ} {o : EpollOp} {mask : EventMask} (h : (!op.ctl o mask) = true) :
    op.Does fd reg ⟨false, .ofSlots fd reg, 0, []⟩ := by
  refine .failed fun htrue => ?_
  rw [htrue] at h
  cases h

end Moves

/-! ## The locked sections -/

namespace FdContext

variable {fd : Nat} {reg : Slots ς φ κ} {e : Event} {ctx : FdContext ς φ κ}

theorem triggerEvent_ofSlots {s : ς} {t : Task φ κ} (h : reg e = some (s, t)) :
    (ofSlots fd reg).triggerEvent e = .ok (ofSlots fd (Function.update reg e none), [(e, .scheduled s t)]) := by
  have hctx := setContext_ofSlots fd reg e none
  rw [Option.isSome_none, ← EventMask.of_and_not] at hctx
  unfold triggerEvent
  simp only [has_events_ofSlots, getContext_ofSlots, h]
  cases t with
  | fiber f => exact congrArg (fun c => Except.ok (c, _)) hctx
  | cb f => exact congrArg (fun c => Except.ok (c, _)) hctx

theorem addEvent_does {ctl : EpollCtl} {caller : Caller ς φ} {cb : Option κ} {r : Locked ς φ κ Int}
    (hs : caller.scheduler.isSome = true) (h : (ofSlots fd reg).addEvent ctl caller e cb = .ok r) :
    LockedOp.Does fd reg (.addEvent ctl caller e cb) { r with ret := r.ret == 0 } := by
  obtain ⟨s, hs⟩ := Option.isSome_iff_exists.1 hs
  unfold addEvent at h
  simp only [has_events_ofSlots, getContext_setEvents, getContext_ofSlots, hs] at h
  split at h
  · cases h
  · rename_i hn
    have hn : reg e = none := by simpa using hn
    have hctx (t : Task φ κ) := setContext_ofSlots fd reg e (some (s, t))
    simp only [Option.isSome_some, ← EventMask.of_or] at hctx
    have hdoes (t : Task φ κ) (ht : cb.elim (.fiber caller.fiber) .cb = t) :
        LockedOp.Does fd reg (.addEvent ctl caller e cb)
          ⟨true, ofSlots fd (Function.update reg e (some (s, t))), 1, [(e, .registered (some s) t)]⟩ := by
      have hmove : (LockedOp.addEvent ctl caller e cb).move reg =
          Function.update (fun _ => none) e (some (.registered (some s) t)) := by rw [LockedOp.move, hs, ht]
      exact .single hmove ⟨rfl, hn⟩ rfl
        (Locked.moves_single true (.registered (some s) t) (by simp [LogKind.leaves, hn]))
    split at h
    · rename_i hctl
      cases h
      exact .of_ctl hctl
    · split at h
      · cases h
      · split at h
        · cases h
          rename_i f
          have := hdoes (.cb f) rfl
          rw [← hctx] at this
          simp only [hn]
          exact this
        · split at h
          · cases h
          · cases h
            have := hdoes (.fiber caller.fiber) rfl
            rw [← hctx] at this
            simp only [hn]
            exact this

theorem addEvent_new (fd : Nat) (e : Event) (caller : Caller ς φ) (f : κ) :
    ∃ r, (new fd : FdContext ς φ κ).addEvent (fun _ _ => true) caller e (some f) = .ok r ∧ r.pending = 1 := by
  have hn : (new fd : FdContext ς φ κ).events.has e = false := by simp [new, EventMask.has]
  have hc (m : EventMask) : ((new fd : FdContext ς φ κ).setEvents m).getContext e = .empty := by cases e <;> rfl
  unfold addEvent
  simp only [hn, hc, EventContext.empty, Bool.false_eq_true, Bool.not_true, Option.isSome_none, Bool.or_self, if_false]
  exact ⟨_, rfl, rfl⟩

/-- An event that is not registered can be, with a callback or by a fiber in execution. -/
theorem addEvent_ok (fd : Nat) (ctl : EpollCtl) (caller : Caller ς φ) {cb : Option κ} (hn : reg e = none)
    (hcb : cb.isSome = true ∨ caller.exec = true) : ∃ r, (ofSlots fd reg).addEvent ctl caller e cb = .ok r := by
  unfold addEvent
  simp only [has_events_ofSlots, getContext_setEvents, getContext_ofSlots, hn, EventContext.ofReg, EventContext.empty,
    Option.isSome_none, Bool.or_self, Bool.false_eq_true, if_false]
  split
  · exact ⟨_, rfl⟩
  · cases cb with
    | some f => exact ⟨_, rfl⟩
    | none =>
      have hexec : caller.exec = true := hcb.resolve_left (by simp)
      simp only [hexec, Bool.not_true, Bool.false_eq_true, if_false]
      exact ⟨_, rfl⟩

/-- What is to be moved by a section for one event that is not registered. -/
theorem update_none {move : Event → Option (LogKind ς φ κ)} (h : move = Function.update (fun _ => none) e none) :
    ∀ e, move e = none := by
  intro e'
  rw [h, Function.update_apply, ite_self]

theorem delEvent_does (fd : Nat) (reg : Slots ς φ κ) (e : Event) (ctl : EpollCtl) :
    LockedOp.Does fd reg (.delEvent ctl e) ((ofSlots fd reg).delEvent ctl e) := by
  unfold delEvent
  simp only [has_events_ofSlots]
  split
  · rename_i hn
    have hn : reg e = none := by simpa using hn
    exact .failed fun _ => update_none (by rw [LockedOp.move, hn]; rfl)
  · rename_i hn
    obtain ⟨p, hp⟩ : ∃ p, reg e = some p := by
      rw [Bool.not_eq_true, Bool.not_eq_false'] at hn
      exact Option.isSome_iff_exists.1 hn
    split
    · rename_i hctl
      exact .of_ctl hctl
    · have hctx := setContext_ofSlots fd reg e none
      rw [Option.isSome_none, ← EventMask.of_and_not] at hctx
      have hmove : (LockedOp.delEvent ctl e).move reg = Function.update (fun _ => none) e (some .dropped) := by
        rw [LockedOp.move, hp]
        rfl
      have hm : Locked.Moves fd reg _ ⟨true, ofSlots fd (Function.update reg e none), -1, [(e, .dropped)]⟩ :=
        Locked.moves_single true .dropped (by simp [LogKind.leaves, hp])
      rw [← hctx] at hm
      have hlegal : LogKind.dropped.Legal (reg e) := by
        rw [hp]
        rfl
      exact .single hmove hlegal rfl hm

/-- Triggering an event whose slot was not moved before. -/
theorem triggerEvent_moves {r : Locked ς φ κ Bool} {move : Event → Option (LogKind ς φ κ)}
    (hr : r.Moves fd reg move) (hmove : move e = none) (he : (reg e).isSome = true) :
    ∃ ctx log, r.ctx.triggerEvent e = .ok (ctx, log) ∧ Locked.Moves fd reg (Function.update move e (handOver (reg e)))
      { r with ctx := ctx, pending := r.pending - 1, log := log ++ r.log } := by
  obtain ⟨⟨s, t⟩, hreg⟩ := Option.isSome_iff_exists.1 he
  have hsame : reg.moved move e = some (s, t) := by rw [Slots.moved, hmove, Option.elim_none, hreg]
  refine ⟨_, _, by rw [hr.ctx]; exact triggerEvent_ofSlots hsame, ?_⟩
  rw [hreg]
  exact hr.update hmove (.scheduled s t) (d := -1) (by simp [LogKind.leaves, hreg])

theorem cancelEvent_does (fd : Nat) (reg : Slots ς φ κ) (e : Event) (ctl : EpollCtl) :
    ∃ r, (ofSlots fd reg).cancelEvent ctl e = .ok r ∧ LockedOp.Does fd reg (.cancelEvent ctl e) r := by
  unfold cancelEvent
  simp only [has_events_ofSlots]
  split
  · rename_i hn
    have hn : reg e = none := by simpa using hn
    exact ⟨_, rfl, .failed fun _ => update_none (by rw [LockedOp.move, hn]; rfl)⟩
  · rename_i hn
    rw [Bool.not_eq_true, Bool.not_eq_false'] at hn
    split
    · rename_i hctl
      exact ⟨_, rfl, .of_ctl hctl⟩
    · obtain ⟨ctx, log, ht, hm⟩ := triggerEvent_moves (Locked.moves_none fd reg true) rfl hn
      obtain ⟨k, hk⟩ := Option.isSome_iff_exists.1 (handOver_isSome.trans hn)
      simp only [hk, Int.zero_sub, List.append_nil] at hm
      have hmove : (LockedOp.cancelEvent ctl e).move reg = Function.update (fun _ => none) e (some k) := by
        rw [LockedOp.move, hk]
      exact ⟨⟨true, ctx, -1, log⟩, by rw [ht]; rfl, .single hmove (handOver_legal hk) rfl hm⟩

/-- `triggerIf` on a section that did not move the slot before. -/
theorem triggerIf_moves (mask : EventMask) {r : Locked ς φ κ Bool} {move : Event → Option (LogKind ς φ κ)}
    (hr : r.Moves fd reg move) (hmove : move e = none) (hm : mask.has e = true → (reg e).isSome = true) :
    ∃ r', triggerIf mask e r = .ok r' ∧ r'.ret = r.ret ∧
      r'.Moves fd reg (Function.update move e (if mask.has e then handOver (reg e) else none)) := by
  unfold triggerIf
  split
  · rename_i hme
    obtain ⟨ctx, log, ht, hm⟩ := triggerEvent_moves hr hmove (hm hme)
    exact ⟨{ r with ctx := ctx, pending := r.pending - 1, log := log ++ r.log }, by rw [ht]; rfl, rfl, hm⟩
  · refine ⟨r, rfl, rfl, ?_⟩
    rw [← hmove, Function.update_eq_self]
    exact hr

/-- Both events in turn. -/
theorem triggerIf_both (mask : EventMask) (mask' : Locked ς φ κ Bool → EventMask) {r : Locked ς φ κ Bool}
    (hr : r.Moves fd reg (fun _ => none)) (hread : mask.has .read = true → (reg .read).isSome = true)
    (hmask : ∀ r', Locked.Moves fd reg
        (Function.update (fun _ => none) .read (if mask.has .read then handOver (reg .read) else none)) r' →
      (mask' r').has .write = mask.has .write)
    (hwrite : mask.has .write = true → (reg .write).isSome = true) :
    ∃ r₁ r₂, triggerIf mask .read r = .ok r₁ ∧ triggerIf (mask' r₁) .write r₁ = .ok r₂ ∧ r₂.ret = r.ret ∧
      r₂.Moves fd reg fun e => if mask.has e then handOver (reg e) else none := by
  obtain ⟨r₁, h₁, hret₁, hm₁⟩ := triggerIf_moves (e := .read) mask hr rfl hread
  have hw := hmask r₁ hm₁
  obtain ⟨r₂, h₂, hret₂, hm₂⟩ := triggerIf_moves (e := .write) (mask' r₁) hm₁ rfl (fun h => hwrite (hw ▸ h))
  refine ⟨r₁, r₂, h₁, h₂, hret₂.trans hret₁, ?_⟩
  rw [hw] at hm₂
  convert hm₂ using 1
  funext e
  cases e <;> rfl

theorem cancelAll_does (fd : Nat) (reg : Slots ς φ κ) (ctl : EpollCtl) :
    ∃ r, (ofSlots fd reg).cancelAll ctl = .ok r ∧ LockedOp.Does fd reg (.cancelAll ctl) r := by
  have hall (e : Event) : (if (ofSlots fd reg).events.has e then handOver (reg e) else none) = handOver (reg e) := by
    rw [has_events_ofSlots]
    cases reg e <;> rfl
  unfold cancelAll
  split
  · rename_i hz
    rw [events_ofSlots, beq_iff_eq, EventMask.of_eq_zero] at hz
    refine ⟨_, rfl, .failed fun _ e => ?_⟩
    have hn : reg e = none := by simpa using hz e
    show handOver (reg e) = none
    rw [hn]
    rfl
  · rename_i hz
    split
    · rename_i hctl
      exact ⟨_, rfl, .of_ctl hctl⟩
    · -- the second mask is what is left behind the first event
      obtain ⟨r₁, r₂, h₁, h₂, hret, hm⟩ := triggerIf_both (ofSlots fd reg).events
        (fun r => r.ctx.events) (Locked.moves_none fd reg true) (by simp)
        (fun r' hr' => by
          simp only [hr'.ctx, has_events_ofSlots]
          rfl) (by simp)
      simp only [hall] at hm
      have hleft : r₂.ctx.events = 0#32 := by
        rw [hm.ctx, events_ofSlots, EventMask.of_eq_zero]
        intro e
        rw [Slots.moved]
        cases reg e <;> rfl
      refine ⟨r₂, ?_, .succeeded hret ?_ (fun e k hk => handOver_legal hk) hm⟩
      · simp only [h₁, h₂, bind, Except.bind, pure, Except.pure, hleft, beq_self_eq_true, if_true]
      · refine Classical.byContradiction fun hno => hz ?_
        rw [events_ofSlots, beq_iff_eq, EventMask.of_eq_zero]
        exact fun e => Bool.eq_false_iff.2 fun he => hno ⟨e, handOver_isSome.trans he⟩

/-- The events that `idle` takes for real: those reported and, on an error or a hang-up, those registered. -/
theorem realEvents_eq (ctx : FdContext ς φ κ) (bits : EventMask) : ctx.realEvents bits =
    EventMask.of fun e => bits.has e || (bits &&& (epollErr ||| epollHup) != 0#32) && ctx.events.has e := by
  have hb : ∀ e e' : Event, EventMask.has e'.bit e = decide (e' = e) := fun e e' => by
    cases e <;> cases e' <;> rfl
  unfold realEvents
  split
  · rename_i h
    show EventMask.of _ = _
    congr 1
    funext e
    simp only [EventMask.has_or, EventMask.has_and, hb, h]
    cases e <;> simp
  · rename_i h
    rw [Bool.not_eq_true] at h
    show EventMask.of _ = _
    congr 1
    funext e
    simp [h]

/-- The registered ones of the events taken for real are those that `dispatch` moves. -/
theorem realEvents_move (fd : Nat) (reg : Slots ς φ κ) (ctl : EpollCtl) (bits : EventMask) (e : Event) :
    (if ((ofSlots fd reg).realEvents bits).has e then handOver (reg e) else none) =
      (LockedOp.dispatch ctl bits).move reg e := by
  show _ = if bits.has e || bits &&& (epollErr ||| epollHup) != 0#32 then handOver (reg e) else none
  rw [realEvents_eq, EventMask.has_of, has_events_ofSlots]
  cases reg e with
  | none => simp only [handOver, Option.map_none, ite_self]
  | some x => simp only [Option.isSome_some, Bool.and_true]

theorem dispatch_does (fd : Nat) (reg : Slots ς φ κ) (ctl : EpollCtl) {bits : EventMask}
    (hb : ∀ e, bits.has e = true → (reg e).isSome = true) :
    ∃ r, (ofSlots fd reg).dispatch ctl bits = .ok r ∧ LockedOp.Does fd reg (.dispatch ctl bits) r := by
  have hreal : ∀ e, ((ofSlots fd reg).realEvents bits).has e = true → (reg e).isSome = true := fun e he => by
    rw [realEvents_eq, EventMask.has_of, Bool.or_eq_true, Bool.and_eq_true, has_events_ofSlots] at he
    exact he.elim (hb e) And.right
  have hmove : (fun e => if ((ofSlots fd reg).realEvents bits).has e then handOver (reg e) else none) =
      (LockedOp.dispatch ctl bits).move reg := funext (realEvents_move fd reg ctl bits)
  unfold dispatch
  simp only
  split
  · rename_i hz
    rw [beq_iff_eq] at hz
    refine ⟨_, rfl, .failed fun _ e => ?_⟩
    have he : ((ofSlots fd reg).events &&& (ofSlots fd reg).realEvents bits).has e = false := by
      rw [hz]
      cases e <;> rfl
    rw [EventMask.has_and, has_events_ofSlots] at he
    rw [← realEvents_move fd reg ctl bits]
    cases hr : reg e with
    | none => simp only [handOver, Option.map_none, ite_self]
    | some x =>
      rw [hr, Option.isSome_some, Bool.true_and] at he
      rw [he]
      rfl
  · rename_i hz
    split
    · rename_i hctl
      exact ⟨_, rfl, .of_ctl hctl⟩
    · obtain ⟨r₁, r₂, h₁, h₂, hret, hm⟩ := triggerIf_both ((ofSlots fd reg).realEvents bits)
        (fun _ => (ofSlots fd reg).realEvents bits) (Locked.moves_none fd reg true)
        (hreal .read) (fun _ _ => rfl) (hreal .write)
      rw [hmove] at hm
      refine ⟨r₂, by simp only [h₁, h₂, bind, Except.bind], .succeeded hret ?_ (fun e k hk => ?_) hm⟩
      · refine Classical.byContradiction fun hno => hz ?_
        rw [beq_iff_eq, realEvents_eq]
        refine EventMask.and_of_eq_zero _ fun e he => Bool.eq_false_iff.2 fun hev => hno ⟨e, ?_⟩
        rw [← realEvents_move fd reg ctl bits, realEvents_eq, EventMask.has_of, if_pos he, handOver_isSome,
          ← has_events_ofSlots fd reg e]
        exact hev
      · rw [← hmove] at hk
        simp only at hk
        split at hk
        · exact handOver_legal hk
        · cases hk

end FdContext

/-! ## All sections -/

/-- The section turns the context `ctx` into a well-formed one of the same descriptor, counts the bits it changes, and
logs legal moves of the slots. -/
structure Locked.Sound {β : Type*} (ctx : FdContext ς φ κ) (r : Locked ς φ κ β) : Prop where
  wf : r.ctx.WellFormed
  fd : r.ctx.fd = ctx.fd
  pending : r.pending = r.ctx.count - ctx.count
  log : ∀ e h, SlotHistory h (ctx.slots e) → SlotHistory (entriesOf e r.log ++ h) (r.ctx.slots e)

/-- Legal moves are sound. -/
theorem Locked.Moves.sound {β : Type*} {fd : Nat} {reg : Slots ς φ κ} {move : Event → Option (LogKind ς φ κ)}
    {r : Locked ς φ κ β} (h : r.Moves fd reg move) (hl : ∀ e k, move e = some k → k.Legal (reg e)) :
    Locked.Sound (.ofSlots fd reg) r where
  wf := h.ctx ▸ FdContext.wellFormed_ofSlots _ _
  fd := by rw [h.ctx]; rfl
  pending := h.pending
  log e l hh := by
    rw [FdContext.slots_ofSlots] at hh
    rw [h.log, h.ctx, FdContext.slots_ofSlots, Slots.moved]
    cases hm : move e with
    | none => exact hh
    | some k => exact hh.cons (hl e k hm)

theorem LockedOp.Does.sound {fd : Nat} {reg : Slots ς φ κ} {op : LockedOp ς φ κ} {r : Locked ς φ κ Bool}
    (h : op.Does fd reg r) : Locked.Sound (.ofSlots fd reg) r := by
  cases h with
  | failed _ => exact (Locked.moves_none fd reg false).sound fun e k hk => by cases hk
  | succeeded _ _ hlegal hmoves => exact hmoves.sound hlegal

namespace LockedOp

variable {ctx : FdContext ς φ κ} {op : LockedOp ς φ κ} {r : Locked ς φ κ Bool}

/-- The thread that registers runs a scheduler, and what is reported is registered. -/
def Legal (ctx : FdContext ς φ κ) : LockedOp ς φ κ → Prop
  | addEvent _ caller _ _ => caller.scheduler.isSome = true
  | dispatch _ bits => ∀ e, bits.has e = true → ctx.events.has e = true
  | _ => True

/-- What every section does to a well-formed context. -/
theorem run_does {fd : Nat} {reg : Slots ς φ κ} (hop : op.Legal (.ofSlots fd reg))
    (h : op.run (.ofSlots fd reg) = .ok r) : op.Does fd reg r := by
  cases op with
  | addEvent ctl caller event cb =>
    obtain ⟨r', ha, rfl⟩ := Throw.map_eq_ok_iff.1 h
    exact FdContext.addEvent_does hop ha
  | delEvent ctl event =>
    cases h
    exact FdContext.delEvent_does fd reg event ctl
  | cancelEvent ctl event =>
    obtain ⟨r', hr, hd⟩ := FdContext.cancelEvent_does fd reg event ctl
    cases hr.symm.trans h
    exact hd
  | cancelAll ctl =>
    obtain ⟨r', hr, hd⟩ := FdContext.cancelAll_does fd reg ctl
    cases hr.symm.trans h
    exact hd
  | dispatch ctl bits =>
    obtain ⟨r', hr, hd⟩ := FdContext.dispatch_does fd reg ctl fun e he => by simpa using hop e he
    cases hr.symm.trans h
    exact hd

/-- The section returns: `addEvent` where the event is not registered, with a callback or by a fiber in execution, the
others always. -/
def Returns (reg : Slots ς φ κ) : LockedOp ς φ κ → Prop
  | addEvent _ caller event cb => reg event = none ∧ (cb.isSome = true ∨ caller.exec = true)
  | _ => True

theorem run_ok {fd : Nat} {reg : Slots ς φ κ} (hop : op.Legal (.ofSlots fd reg)) (hret : op.Returns reg) :
    ∃ r, op.run (.ofSlots fd reg) = .ok r := by
  cases op with
  | addEvent ctl caller event cb =>
    obtain ⟨r, hr⟩ := FdContext.addEvent_ok fd ctl caller hret.1 hret.2
    exact ⟨_, by rw [run, hr]; rfl⟩
  | delEvent ctl event => exact ⟨_, rfl⟩
  | cancelEvent ctl event => exact (FdContext.cancelEvent_does fd reg event ctl).imp fun _ => And.left
  | cancelAll ctl => exact (FdContext.cancelAll_does fd reg ctl).imp fun _ => And.left
  | dispatch ctl bits =>
    exact (FdContext.dispatch_does fd reg ctl fun e he => by simpa using hop e he).imp fun _ => And.left

/-- Every section is sound on a well-formed context. -/
theorem run_sound (hctx : ctx.WellFormed) (hop : op.Legal ctx) (h : op.run ctx = .ok r) : Locked.Sound ctx r := by
  obtain ⟨fd, reg, rfl⟩ : ∃ fd reg, ctx = .ofSlots fd reg := ⟨_, _, hctx⟩
  exact (run_does hop h).sound

/-- A callback registers on a new context when `epoll_ctl` succeeds. -/
theorem addEvent_new (fd : Nat) (e : Event) (caller : Caller ς φ) (hs : caller.scheduler.isSome = true) (f : κ) :
    ∃ r, (FdContext.new fd : FdContext ς φ κ).addEvent (fun _ _ => true) caller e (some f) = .ok r ∧ r.pending = 1 ∧
      r.ctx.count = 1 := by
  obtain ⟨r, hr, hp⟩ := FdContext.addEvent_new fd e caller f
  have hsound := @run_sound _ _ _ _ (.addEvent (fun _ _ => true) caller e (some f)) _ (FdContext.wellFormed_new fd) hs
    (by rw [run, hr]; rfl)
  have := hsound.pending
  simp only [FdContext.count_new] at this
  exact ⟨r, hr, hp, by omega⟩

/-- A section whose `epoll_ctl` fails does nothing. -/
theorem run_of_ctl (hctl : op.ctl = fun _ _ => false) (h : op.run ctx = .ok r) : r = ⟨false, ctx, 0, []⟩ := by
  cases op with
  | addEvent ctl caller event cb =>
    subst hctl
    simp only [run, FdContext.addEvent] at h
    split at h <;> cases h
    rfl
  | delEvent ctl event =>
    subst hctl
    cases h
    simp only [FdContext.delEvent]
    split <;> rfl
  | cancelEvent ctl event =>
    subst hctl
    simp only [run, FdContext.cancelEvent] at h
    split at h <;> cases h <;> rfl
  | cancelAll ctl =>
    subst hctl
    simp only [run, FdContext.cancelAll] at h
    split at h <;> cases h <;> rfl
  | dispatch ctl bits =>
    subst hctl
    simp only [run, FdContext.dispatch] at h
    split at h <;> cases h <;> rfl

/-- The entries a section can log: `addEvent` registers, `delEvent` drops, the others hand over to schedulers. -/
def Logs : LockedOp ς φ κ → LogKind ς φ κ → Prop
  | addEvent _ _ _ _, .registered _ _ => True
  | delEvent _ _, .dropped => True
  | cancelEvent _ _, .scheduled _ _ | cancelAll _, .scheduled _ _ | dispatch _ _, .scheduled _ _ => True
  | _, _ => False

/-- Every entry was handed to a scheduler. -/
def HandsOver (log : List (Event × LogKind ς φ κ)) : Prop := ∀ l ∈ log, ∃ s t, l.2 = .scheduled s t

theorem handsOver_nil : HandsOver ([] : List (Event × LogKind ς φ κ)) := fun _ hl => by cases hl

theorem triggerEvent_log {e : Event} {x : FdContext ς φ κ × List (Event × LogKind ς φ κ)}
    (h : ctx.triggerEvent e = .ok x) : HandsOver x.2 := by
  unfold FdContext.triggerEvent at h
  split at h
  · cases h
  · simp only at h
    split at h
    · cases h
    · split at h <;> cases h <;> simp [HandsOver]

theorem triggerIf_log {mask : EventMask} {e : Event} {r' : Locked ς φ κ Bool} (hr : HandsOver r.log)
    (h : FdContext.triggerIf mask e r = .ok r') : HandsOver r'.log := by
  unfold FdContext.triggerIf at h
  split at h
  · obtain ⟨x, ht, h⟩ := Throw.bind_eq_ok_iff.1 h
    cases h
    exact List.forall_mem_append.2 ⟨triggerEvent_log ht, hr⟩
  · cases h
    exact hr

theorem cancelEvent_log {ctl : EpollCtl} {event : Event} (h : ctx.cancelEvent ctl event = .ok r) : HandsOver r.log := by
  simp only [FdContext.cancelEvent] at h
  split at h
  · cases h
    exact handsOver_nil
  · split at h
    · cases h
      exact handsOver_nil
    · obtain ⟨x, ht, h⟩ := Throw.bind_eq_ok_iff.1 h
      cases h
      exact triggerEvent_log ht

theorem cancelAll_log {ctl : EpollCtl} (h : ctx.cancelAll ctl = .ok r) : HandsOver r.log := by
  simp only [FdContext.cancelAll] at h
  split at h
  · cases h
    exact handsOver_nil
  · split at h
    · cases h
      exact handsOver_nil
    · obtain ⟨r₁, h₁, h⟩ := Throw.bind_eq_ok_iff.1 h
      obtain ⟨r₂, h₂, h⟩ := Throw.bind_eq_ok_iff.1 h
      split at h <;> cases h
      exact triggerIf_log (triggerIf_log handsOver_nil h₁) h₂

theorem dispatch_log {ctl : EpollCtl} {bits : EventMask} (h : ctx.dispatch ctl bits = .ok r) : HandsOver r.log := by
  simp only [FdContext.dispatch] at h
  split at h
  · cases h
    exact handsOver_nil
  · split at h
    · cases h
      exact handsOver_nil
    · obtain ⟨r₁, h₁, h⟩ := Throw.bind_eq_ok_iff.1 h
      exact triggerIf_log (triggerIf_log handsOver_nil h₁) h

theorem logs_of_handsOver {log : List (Event × LogKind ς φ κ)} (hop : ∀ s t, op.Logs (.scheduled s t))
    (h : HandsOver log) : ∀ l ∈ log, op.Logs l.2 := by
  intro l hl
  obtain ⟨s, t, he⟩ := h l hl
  rw [he]
  exact hop s t

/-- What a section logs. -/
theorem run_logs (h : op.run ctx = .ok r) : ∀ l ∈ r.log, op.Logs l.2 := by
  cases op with
  | addEvent ctl caller event cb =>
    obtain ⟨r', ha, rfl⟩ := Throw.map_eq_ok_iff.1 h
    simp only [FdContext.addEvent] at ha
    split at ha
    · cases ha
    · split at ha
      · cases ha
        simp
      · split at ha
        · cases ha
        · split at ha
          · cases ha
            simp [Logs]
          · split at ha <;> cases ha
            simp [Logs]
  | delEvent ctl event =>
    cases h
    unfold FdContext.delEvent
    split
    · simp
    · simp only
      split <;> simp [Logs]
  | cancelEvent ctl event => exact logs_of_handsOver (fun _ _ => trivial) (cancelEvent_log h)
  | cancelAll ctl => exact logs_of_handsOver (fun _ _ => trivial) (cancelAll_log h)
  | dispatch ctl bits => exact logs_of_handsOver (fun _ _ => trivial) (dispatch_log h)

end LockedOp

end Megalo
