import Megalo.FdManager.Basic
import Megalo.Lib.System
import Mathlib.Logic.Function.Basic

/-!
# Concurrent calls of `FdManager::get`

- `lookupSys` is any number of threads in `get` and `del`. `get` gives up the read lock after the lookup and takes the
  write lock for the creation, so other calls come between the two;
- two threads that both found no context create one each, and each returns its own (`two_contexts`);
- as long as a context is only stored where there is none (`LookupLabel.Fills`), the contexts that `get` returns for a
  descriptor between two `del` are the same one; a store over a context always breaks that (`get_one_context`).
-/

namespace Megalo

/-- A thread that is not in `get`, or in it between the two locks. -/
inductive GetPc
  | idle
  | creating (fd : ℕ)
  deriving DecidableEq

/-- The manager, the contexts there have been by address, the threads, and the contexts that `get` has returned for each
descriptor since the last `del` of it. -/
structure LookupState where
  manager : FdManager
  ctxs : List FdCtx
  pc : ℕ → GetPc
  returned : ℕ → List ℕ

namespace LookupState

def new : LookupState := { manager := .new, ctxs := [], pc := fun _ => .idle, returned := fun _ => [] }

def setPc (s : LookupState) (thread : ℕ) (pc : GetPc) : LookupState :=
  { s with pc := Function.update s.pc thread pc }

/-- `get` returns to its caller. -/
def ret (s : LookupState) (fd : ℕ) (ctx : Option ℕ) : LookupState :=
  { s with returned := Function.update s.returned fd (ctx.toList ++ s.returned fd) }

/-- The part of `get` under the write lock: `new FdCtx(fd)`, the store, and the return. -/
def create (s : LookupState) (fd : ℕ) (file : Option KernelFile) : LookupState :=
  let ctx := s.ctxs.length
  { s with manager := s.manager.store fd ctx, ctxs := s.ctxs ++ [(FdCtx.new fd file).1] }.ret fd (some ctx)

def del (s : LookupState) (fd : ℕ) : LookupState :=
  { s with manager := s.manager.del fd, returned := Function.update s.returned fd [] }

/-- `setUserNonblock` through a context. -/
def setUserNonblock (s : LookupState) (ctx : ℕ) (v : Bool) : LookupState :=
  { s with ctxs := s.ctxs.modify ctx fun c => c.setUserNonblock v }

/-- `setTimeout` through a context. -/
def setTimeout (s : LookupState) (ctx : ℕ) (type : TimeoutType) (v : ℕ) : LookupState :=
  { s with ctxs := s.ctxs.modify ctx fun c => c.setTimeout type v }

end LookupState

/-- What is done under one lock, and what users do through a context. The creation comes with the file that `fstat`
finds. -/
inductive LookupLabel
  | lookup (thread fd : ℕ) (autoCreated : Bool)
  | create (thread : ℕ) (file : Option KernelFile)
  | del (fd : ℕ)
  | setUserNonblock (ctx : ℕ) (v : Bool)
  | setTimeout (ctx : ℕ) (type : TimeoutType) (v : ℕ)

/-- The step of each label, when it is enabled. -/
def LookupState.step (s : LookupState) : LookupLabel → Option LookupState
  | .lookup thread fd autoCreated =>
    if s.pc thread = .idle then
      some (match s.manager.lookup fd autoCreated with
        | some ctx => s.ret fd ctx
        | none => s.setPc thread (.creating fd))
    else none
  | .create thread file =>
    match s.pc thread with
    | .creating fd => some ((s.create fd file).setPc thread .idle)
    | .idle => none
  | .del fd => some (s.del fd)
  | .setUserNonblock ctx v => some (s.setUserNonblock ctx v)
  | .setTimeout ctx type v => some (s.setTimeout ctx type v)

/-- Threads that call `get` and `del`. -/
def lookupSys : Transition.Sys LookupState LookupLabel where
  init s := s = .new
  step := LookupState.step

/-- The contexts that `get` returned for a descriptor are one: what is set through one of them is seen through all. -/
structure LookupState.OneContext (s : LookupState) (fd : ℕ) : Prop where
  same : ∀ c ∈ s.returned fd, ∀ d ∈ s.returned fd, c = d
  userNonblock : ∀ c ∈ s.returned fd, ∀ d ∈ s.returned fd, ∀ v,
    ((s.setUserNonblock c v).ctxs[d]?).map FdCtx.userNonblock = some v
  timeout : ∀ c ∈ s.returned fd, ∀ d ∈ s.returned fd, ∀ type v,
    ((s.setTimeout c type v).ctxs[d]?).map (fun ctx => ctx.getTimeout type) = some v

/-- A context is stored only where there is none. -/
def LookupLabel.Fills (s : LookupState) : LookupLabel → Prop
  | .create thread _ => match s.pc thread with
    | .creating fd => s.manager.data fd = none
    | .idle => True
  | _ => True

instance (s : LookupState) : (a : LookupLabel) → Decidable (a.Fills s)
  | .create thread _ => match h : s.pc thread with
    | .creating fd => decidable_of_iff (s.manager.data fd = none) (by simp only [LookupLabel.Fills, h])
    | .idle => isTrue (by simp only [LookupLabel.Fills, h])
  | .lookup .. | .del _ | .setUserNonblock .. | .setTimeout .. => inferInstanceAs (Decidable True)

/-! ## What a step does -/

namespace LookupState

variable {s t : LookupState}

/-- The contexts, the table and what was returned, after a step: unchanged but for the fields of contexts; a return of
what the table has; a creation; or a `del`. -/
theorem step_cases {a : LookupLabel} (h : s.step a = some t) :
    t.ctxs.length = s.ctxs.length ∧ t.manager = s.manager ∧ t.returned = s.returned ∨
    (∃ fd, t.ctxs = s.ctxs ∧ t.manager = s.manager ∧
      t.returned = Function.update s.returned fd ((s.manager.data fd).toList ++ s.returned fd)) ∨
    (∃ thread file fd, a = .create thread file ∧ s.pc thread = .creating fd ∧
      t.ctxs.length = s.ctxs.length + 1 ∧ t.manager = s.manager.store fd s.ctxs.length ∧
      t.returned = Function.update s.returned fd (s.ctxs.length :: s.returned fd)) ∨
    (∃ fd, t.ctxs = s.ctxs ∧ t.manager = s.manager.del fd ∧ t.returned = Function.update s.returned fd []) := by
  cases a with
  | lookup thread fd autoCreated =>
    simp only [step] at h
    split at h
    · cases hl : s.manager.lookup fd autoCreated with
      | none =>
        rw [hl] at h
        cases h
        exact .inl ⟨rfl, rfl, rfl⟩
      | some ctx =>
        rw [hl] at h
        cases h
        obtain rfl := s.manager.lookup_some fd hl
        exact .inr (.inl ⟨fd, rfl, rfl, rfl⟩)
    · cases h
  | create thread file =>
    simp only [step] at h
    cases hp : s.pc thread with
    | idle => rw [hp] at h; cases h
    | creating fd =>
      rw [hp] at h
      cases h
      exact .inr (.inr (.inl ⟨thread, file, fd, rfl, hp, List.length_append, rfl, rfl⟩))
  | del fd =>
    cases h
    exact .inr (.inr (.inr ⟨fd, rfl, rfl, rfl⟩))
  | setUserNonblock ctx v =>
    cases h
    exact .inl ⟨List.length_modify .., rfl, rfl⟩
  | setTimeout ctx type v =>
    cases h
    exact .inl ⟨List.length_modify .., rfl, rfl⟩

/-! ## Invariants -/

/-- What the table has was returned, and what was returned exists. -/
structure Inv (s : LookupState) : Prop where
  stored : ∀ fd c, s.manager.data fd = some c → c ∈ s.returned fd
  exists_ : ∀ fd, ∀ c ∈ s.returned fd, c < s.ctxs.length

theorem inv_new : new.Inv where
  stored fd c h := by
    rw [show new.manager.data fd = none from FdManager.data_new fd] at h
    cases h
  exists_ fd c h := by cases h

/-- `Inv` where one descriptor changes. -/
theorem Inv.update (hi : s.Inv) (hlen : s.ctxs.length ≤ t.ctxs.length) {fd : ℕ}
    (hm : ∀ fd', fd' ≠ fd → t.manager.data fd' = s.manager.data fd') {l : List ℕ}
    (hr : t.returned = Function.update s.returned fd l) (hs : ∀ c, t.manager.data fd = some c → c ∈ l)
    (hl : ∀ c ∈ l, c < t.ctxs.length) : t.Inv where
  stored fd' c hd := by
    rw [hr]
    by_cases hf : fd' = fd
    · subst hf
      rw [Function.update_self]
      exact hs c hd
    · rw [Function.update_of_ne hf]
      exact hi.stored fd' c (by rwa [hm fd' hf] at hd)
  exists_ fd' c hd := by
    rw [hr] at hd
    by_cases hf : fd' = fd
    · subst hf
      rw [Function.update_self] at hd
      exact hl c hd
    · rw [Function.update_of_ne hf] at hd
      exact Nat.lt_of_lt_of_le (hi.exists_ fd' c hd) hlen

theorem inv_step {a : LookupLabel} (hi : s.Inv) (h : s.step a = some t) : t.Inv := by
  rcases step_cases h with ⟨hc, hm, hr⟩ | ⟨fd, hc, hm, hr⟩ | ⟨thread, file, fd, -, -, hc, hm, hr⟩ | ⟨fd, hc, hm, hr⟩
  · refine ⟨?_, ?_⟩
    · rw [hm, hr]
      exact hi.stored
    · rw [hc, hr]
      exact hi.exists_
  · refine hi.update (by rw [hc]) (fun fd' _ => by rw [hm]) hr (fun c hd => ?_) fun c hd => ?_
    · rw [hm] at hd
      simp [hd]
    · rw [hc]
      rcases List.mem_append.1 hd with hd | hd
      · exact hi.exists_ fd c (hi.stored fd c (by simpa using hd))
      · exact hi.exists_ fd c hd
  · refine hi.update (by omega) (fun fd' hf => by rw [hm, FdManager.data_store_of_ne _ _ hf]) hr (fun c hd => ?_)
      fun c hd => ?_
    · rw [hm, FdManager.data_store_self] at hd
      cases hd
      exact List.mem_cons_self
    · rcases List.mem_cons.1 hd with rfl | hd
      · omega
      · have := hi.exists_ fd c hd
        omega
  · refine hi.update (by rw [hc]) (fun fd' hf => by rw [hm, FdManager.data_del_of_ne _ _ hf]) hr (fun c hd => ?_)
      fun c hd => by cases hd
    rw [hm, FdManager.data_del_self] at hd
    cases hd

/-- What was returned for a descriptor is what the table has for it. -/
def Current (s : LookupState) : Prop := ∀ fd, ∀ c ∈ s.returned fd, s.manager.data fd = some c

/-- `Current` where one descriptor changes. -/
theorem Current.update (hc : s.Current) {fd : ℕ} (hm : ∀ fd', fd' ≠ fd → t.manager.data fd' = s.manager.data fd')
    {l : List ℕ} (hr : t.returned = Function.update s.returned fd l) (hl : ∀ c ∈ l, t.manager.data fd = some c) :
    t.Current := by
  intro fd' c hd
  rw [hr] at hd
  by_cases hf : fd' = fd
  · subst hf
    rw [Function.update_self] at hd
    exact hl c hd
  · rw [Function.update_of_ne hf] at hd
    rw [hm fd' hf]
    exact hc fd' c hd

theorem current_step {a : LookupLabel} (hc : s.Current) (ha : a.Fills s) (h : s.step a = some t) : t.Current := by
  rcases step_cases h with ⟨-, hm, hr⟩ | ⟨fd, -, hm, hr⟩ | ⟨thread, file, fd, rfl, hp, -, hm, hr⟩ | ⟨fd, -, hm, hr⟩
  · intro fd c hd
    rw [hm]
    exact hc fd c (by rwa [hr] at hd)
  · refine hc.update (fun fd' _ => by rw [hm]) hr fun c hd => ?_
    rw [hm]
    rcases List.mem_append.1 hd with hd | hd
    · simpa using hd
    · exact hc fd c hd
  · refine hc.update (fun fd' hf => by rw [hm, FdManager.data_store_of_ne _ _ hf]) hr fun c hd => ?_
    rcases List.mem_cons.1 hd with rfl | hd
    · rw [hm, FdManager.data_store_self]
    · -- nothing was returned where the table had nothing
      simp only [LookupLabel.Fills, hp] at ha
      rw [hc fd c hd] at ha
      cases ha
  · exact hc.update (fun fd' hf => by rw [hm, FdManager.data_del_of_ne _ _ hf]) hr fun c hd => by cases hd

theorem inv_reachable (h : lookupSys.Reachable s) : s.Inv :=
  h.invariant (fun s hs => by cases hs; exact inv_new) fun s a t hi _ hs => inv_step hi hs

/-- One context, once the returned ones are equal. -/
theorem OneContext.of_same (hi : s.Inv) {fd : ℕ} (h : ∀ c ∈ s.returned fd, ∀ d ∈ s.returned fd, c = d) :
    s.OneContext fd where
  same := h
  userNonblock c hc d hd v := by
    obtain rfl := h c hc d hd
    simp [setUserNonblock, List.getElem?_eq_getElem (hi.exists_ fd c hc), FdCtx.setUserNonblock]
  timeout c hc d hd type v := by
    obtain rfl := h c hc d hd
    simp [setTimeout, List.getElem?_eq_getElem (hi.exists_ fd c hc)]

/-- A store over a context: the old context and the new one were both returned. -/
theorem not_oneContext_of_overwrite (hi : s.Inv) {thread : ℕ} {file : Option KernelFile}
    (ha : ¬LookupLabel.Fills s (.create thread file)) (h : s.step (.create thread file) = some t) :
    ∃ fd, ¬t.OneContext fd := by
  cases hp : s.pc thread with
  | idle => simp [LookupLabel.Fills, hp] at ha
  | creating fd =>
    simp only [LookupLabel.Fills, hp] at ha
    obtain ⟨c, hc⟩ := Option.ne_none_iff_exists'.1 ha
    simp only [step, hp] at h
    cases h
    refine ⟨fd, fun hone => ?_⟩
    have hmem := hi.stored fd c hc
    have heq : s.ctxs.length = c := by
      apply hone.same
      · simp [create, ret, setPc]
      · simp [create, ret, setPc, hmem]
    exact Nat.ne_of_gt (hi.exists_ fd c hmem) heq

end LookupState

/-- **One context per descriptor.** As long as no context is stored over another, the contexts that `get` returns for a
descriptor between two `del` are one; the first store over another ends that. -/
theorem get_one_context (s : LookupState) :
    (lookupSys.ReachableWhen LookupLabel.Fills s → ∀ fd, s.OneContext fd) ∧
      ∀ a t, lookupSys.Reachable s → lookupSys.step s a = some t → ¬a.Fills s → ∃ fd, ¬t.OneContext fd := by
  refine ⟨fun h fd => ?_, fun a t hs h ha => ?_⟩
  · have hcur : s.Current :=
      h.invariant (fun s hs => by
        cases hs
        intro fd c hc
        cases hc) fun s a t hc ha hs => LookupState.current_step hc ha hs
    refine .of_same (LookupState.inv_reachable h.reachable) fun c hc d hd => ?_
    exact Option.some.inj ((hcur fd c hc).symm.trans (hcur fd d hd))
  · cases a with
    | create thread file => exact LookupState.not_oneContext_of_overwrite (LookupState.inv_reachable hs) ha h
    | lookup | del | setUserNonblock | setTimeout => exact absurd trivial ha

/-- Threads 1 and 2 ask for descriptor 5 one after the other. -/
theorem get_one_context_twice : ∃ s : LookupState, s.returned 5 = [0, 0] ∧ s.OneContext 5 := by
  obtain ⟨s, hs, hp⟩ := Transition.Sys.reachableWhen_of_exec (S := lookupSys) (fun s a => a.Fills s) .new rfl
    [.lookup 1 5 true, .create 1 (some ⟨true, 2⟩), .lookup 2 5 true]
    (p := fun s => decide (s.returned 5 = [0, 0])) rfl
  exact ⟨s, of_decide_eq_true hp, (get_one_context s).1 hs 5⟩

/-- Both look up descriptor 5 before either of them stores. -/
theorem two_contexts : ∃ s, lookupSys.Reachable s ∧ ¬s.OneContext 5 := by
  obtain ⟨s, hs, hp⟩ := Transition.Sys.reachable_of_exec (S := lookupSys) .new rfl
    [.lookup 1 5 true, .lookup 2 5 true, .create 1 (some ⟨true, 2⟩), .create 2 (some ⟨true, 0x802⟩)]
    (p := fun s => decide (s.returned 5 = [1, 0])) rfl
  refine ⟨s, hs, fun h => ?_⟩
  have hr : s.returned 5 = [1, 0] := of_decide_eq_true hp
  have := h.same 1 (by rw [hr]; decide) 0 (by rw [hr]; decide)
  cases this

end Megalo
