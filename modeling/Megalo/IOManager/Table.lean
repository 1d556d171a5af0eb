import Megalo.Lib.System
import Megalo.IOManager.Basic
import Mathlib.Logic.Function.Basic

/-!
# The table of contexts

- what a lookup reads (`slot_eq_ok`, `lookup_eq_some`, `lookupGrow_eq_ok`), and growth: `contextResize_of_le` keeps the
  slots there are;
- `growSys`: threads look contexts up as `addEvent` does, in two steps when the table has to grow. The size was tested
  under a lock given up before the table is resized, and a thread that resizes for a smaller descriptor than another one
  shrinks the table;
- as long as no thread resizes the table for a larger descriptor between another one's test of the size and its resize,
  and sizes fit an `int` (`GrowLabel.NotOvertaken`), a test is as good as one at the resize (`GrowState.Inv.test`), and
  every slot stays where it was found (`contexts_kept`).
-/

namespace Megalo

open MachineInt

variable {α : Type*}

/-! ## Lookups -/

theorem slot_eq_ok {l : List α} {fd : Int} {c : α} : slot l fd = .ok c ↔ 0 ≤ fd ∧ l[fd.toNat]? = some c := by
  unfold slot
  split
  · rename_i h
    exact ⟨fun h => (by cases h), fun h' => absurd h'.1 (by omega)⟩
  · rename_i h
    cases l[fd.toNat]? with
    | none => exact ⟨fun h => (by cases h), fun h => by cases h.2⟩
    | some c' => exact ⟨fun h => (by cases h; exact ⟨by omega, rfl⟩), fun h => by cases h.2; rfl⟩

/-- Without an overflow a lookup finds a slot exactly when there is one. -/
theorem lookup_eq_some {l : List α} (hl : l.length < intLimit) {fd : Int} {c : α} :
    lookup l fd = .ok (some c) ↔ slot l fd = .ok c := by
  unfold lookup
  rw [intSize_of_lt hl]
  split
  · rename_i h
    refine ⟨fun h => (by cases h), fun hs => ?_⟩
    obtain ⟨-, hs⟩ := slot_eq_ok.1 hs
    have := (List.getElem?_eq_some_iff.1 hs).1
    omega
  · cases slot l fd with
    | error e => exact ⟨fun h => (by cases h), fun h => by cases h⟩
    | ok c' => exact ⟨fun h => (by cases h; rfl), fun h => by cases h; rfl⟩

theorem slot_of_lookup {l : List α} {fd : Int} {c : α} (h : lookup l fd = .ok (some c)) : slot l fd = .ok c := by
  unfold lookup at h
  split at h
  · cases h
  · obtain ⟨c', hs, h⟩ := Throw.map_eq_ok_iff.1 h
    cases h
    exact hs

/-! ## Growth -/

/-- A resize that does not shrink keeps the slots and appends new ones. -/
theorem contextResize_of_le (new : Nat → α) {size : Nat} {l : List α} (h : l.length ≤ size) :
    contextResize new size l = l ++ (List.range' l.length (size - l.length)).map new := by
  rw [contextResize, List.take_of_length_le h]

theorem getElem?_contextResize (new : Nat → α) {size : Nat} {l : List α} (h : l.length ≤ size) (i : Nat) :
    (contextResize new size l)[i]? = if i < l.length then l[i]? else if i < size then some (new i) else none := by
  rw [contextResize_of_le _ h, List.getElem?_append]
  split
  · rfl
  · split
    · rw [List.getElem?_map, List.getElem?_range' (by omega)]
      simp only [Option.map_some]
      congr 2
      omega
    · rw [List.getElem?_eq_none]
      simp
      omega

theorem length_contextResize (new : Nat → α) (size : Nat) (l : List α) :
    (contextResize new size l).length = size := by
  simp only [contextResize, List.length_append, List.length_take, List.length_map, List.length_range']
  omega

/-- What a lookup of `addEvent` finds, and the table it leaves. -/
theorem lookupGrow_eq_ok {new : Nat → α} {l l' : List α} (hl : l.length < intLimit) {fd : Int} {c : α}
    (h : lookupGrow new l fd = .ok (l', c)) :
    slot l' fd = .ok c ∧ (l' = l ∨ l.length ≤ growSize fd ∧ l' = contextResize new (growSize fd) l) := by
  have hmap {l₁ : List α} (h : (slot l₁ fd).map (fun c => (l₁, c)) = .ok (l', c)) : l' = l₁ ∧ slot l₁ fd = .ok c := by
    obtain ⟨c', hs, h⟩ := Throw.map_eq_ok_iff.1 h
    cases h
    exact ⟨rfl, hs⟩
  unfold lookupGrow at h
  rw [intSize_of_lt hl] at h
  split at h
  · obtain ⟨rfl, hs⟩ := hmap h
    exact ⟨hs, .inl rfl⟩
  · rename_i hfd
    obtain ⟨rfl, hs⟩ := hmap h
    refine ⟨hs, .inr ⟨?_, rfl⟩⟩
    unfold growSize
    omega

/-! ## Concurrent growth -/

/-- An `FdContext` object: which resize created it, and its index. -/
structure ContextId where
  resize : Nat
  index : Nat
  deriving DecidableEq

/-- A call of `addEvent` between its two locks: its descriptor and, as a record for the proofs, the descriptors that
other calls have resized the table for since its test of the size. -/
structure GrowCall where
  fd : Nat
  since : List Nat
  deriving DecidableEq

/-- No call has resized the table for a larger descriptor meanwhile. -/
def GrowCall.NotOvertaken (c : GrowCall) : Prop := ∀ fd ∈ c.since, fd ≤ c.fd

/-- The table, how often it was resized, the threads' calls between the two locks of `addEvent`, and the contexts that
lookups of `addEvent` found, newest first. -/
structure GrowState where
  fdContexts : List ContextId
  resizes : Nat
  growing : Nat → Option GrowCall
  found : List (Nat × ContextId)

namespace GrowState

/-- After the constructor. -/
def new : GrowState :=
  { fdContexts := contextResize (⟨0, ·⟩) 32 [], resizes := 0, growing := fun _ => none, found := [] }

/-- `addEvent(fd)` by the thread up to the release of the read lock. -/
def check (thread fd : Nat) (s : GrowState) : Option GrowState :=
  if (s.growing thread).isSome then none
  else if intSize s.fdContexts.length > fd then
    match slot s.fdContexts fd with
    | .ok c => some { s with found := (fd, c) :: s.found }
    | .error _ => none
  else some { s with growing := Function.update s.growing thread (some ⟨fd, []⟩) }

/-- The calls between their locks after the thread has resized the table for `fd`. -/
def resized (growing : Nat → Option GrowCall) (thread fd : Nat) : Nat → Option GrowCall :=
  Function.update (fun i => (growing i).map fun c => { c with since := fd :: c.since }) thread none

/-- What the thread does under the write lock. -/
def grow (thread : Nat) (s : GrowState) : Option GrowState :=
  match s.growing thread with
  | none => none
  | some call =>
    let fdContexts := contextResize (⟨s.resizes + 1, ·⟩) (growSize call.fd) s.fdContexts
    match slot fdContexts call.fd with
    | .ok c => some
        { fdContexts := fdContexts
          resizes := s.resizes + 1
          growing := resized s.growing thread call.fd
          found := (call.fd, c) :: s.found }
    | .error _ => none

end GrowState

/-- A step of `addEvent` by a thread. -/
inductive GrowLabel
  | check (thread fd : Nat)
  | grow (thread : Nat)

/-- Threads that look contexts up as `addEvent` does. -/
def growSys : Transition.Sys GrowState GrowLabel where
  init s := s = .new
  step s
    | .check thread fd => s.check thread fd
    | .grow thread => s.grow thread

/-- No other thread has resized the table for a larger descriptor between the thread's test of the size and the resize
that it makes now, and the size that it asks for fits an `int`. -/
def GrowLabel.NotOvertaken (s : GrowState) : GrowLabel → Prop
  | check _ _ => True
  | grow thread => ∀ call ∈ s.growing thread, call.NotOvertaken ∧ growSize call.fd < intLimit

instance (c : GrowCall) : Decidable c.NotOvertaken := inferInstanceAs (Decidable (∀ fd ∈ c.since, fd ≤ c.fd))

instance (s : GrowState) : (a : GrowLabel) → Decidable (a.NotOvertaken s)
  | .check _ _ => inferInstanceAs (Decidable True)
  | .grow thread =>
    inferInstanceAs (Decidable (∀ call ∈ s.growing thread, call.NotOvertaken ∧ growSize call.fd < intLimit))

/-- The size fits an `int`, what was found is still there, and the table is still too small for a call whose test found
it so, as far as no larger descriptor came between. -/
structure GrowState.Inv (s : GrowState) : Prop where
  length : s.fdContexts.length < intLimit
  found : ∀ x ∈ s.found, slot s.fdContexts x.1 = .ok x.2
  test : ∀ thread call, s.growing thread = some call → call.NotOvertaken → s.fdContexts.length ≤ growSize call.fd

/-- What a step does: it finds a slot, waits for the write lock as the table has no slot for its descriptor, or resizes
the table and finds a slot. -/
theorem growSys_step {s t : GrowState} {a : GrowLabel} (h : growSys.step s a = some t) :
    (∃ fd c, slot s.fdContexts (fd : Nat) = .ok c ∧ t = { s with found := (fd, c) :: s.found }) ∨
    (∃ thread fd, intSize s.fdContexts.length ≤ (fd : Nat) ∧
      t = { s with growing := Function.update s.growing thread (some ⟨fd, []⟩) }) ∨
    ∃ thread call c, a = .grow thread ∧ s.growing thread = some call ∧
      slot (contextResize (⟨s.resizes + 1, ·⟩) (growSize call.fd) s.fdContexts) call.fd = .ok c ∧
      t = ⟨contextResize (⟨s.resizes + 1, ·⟩) (growSize call.fd) s.fdContexts, s.resizes + 1,
        GrowState.resized s.growing thread call.fd, (call.fd, c) :: s.found⟩ := by
  cases a with
  | check thread fd =>
    simp only [growSys, GrowState.check] at h
    split at h
    · cases h
    · split at h
      · split at h
        · rename_i hs
          cases h
          exact .inl ⟨fd, _, hs, rfl⟩
        · cases h
      · rename_i hfd
        cases h
        exact .inr (.inl ⟨thread, fd, by omega, rfl⟩)
  | grow thread =>
    simp only [growSys, GrowState.grow] at h
    split at h
    · cases h
    · rename_i call hcall
      split at h
      · rename_i hs
        cases h
        exact .inr (.inr ⟨thread, call, _, rfl, hcall, hs, rfl⟩)
      · cases h

/-- `fd * 1.5` grows with the descriptor and is no less than it. -/
theorem growSize_mono {fd fd' : Nat} (h : fd ≤ fd') : growSize fd ≤ growSize fd' := by
  unfold growSize
  omega

theorem le_growSize (fd : Nat) : fd ≤ growSize fd := by
  unfold growSize
  omega

/-- A resize of a call that was not overtaken does not shrink the table. -/
theorem GrowState.Inv.le_resize {s : GrowState} (hi : s.Inv) {thread : Nat} {call : GrowCall}
    (ha : (GrowLabel.grow thread).NotOvertaken s) (hcall : s.growing thread = some call) :
    s.fdContexts.length ≤ growSize call.fd :=
  hi.test thread call hcall (ha call hcall).1

/-- A step that meets the condition appends to the table. -/
theorem GrowLabel.NotOvertaken.append {s t : GrowState} {a : GrowLabel} (ha : a.NotOvertaken s) (hi : s.Inv)
    (h : growSys.step s a = some t) : s.fdContexts <+: t.fdContexts := by
  obtain ⟨fd, c, -, rfl⟩ | ⟨thread, fd, -, rfl⟩ | ⟨thread, call, c, rfl, hcall, -, rfl⟩ := growSys_step h
  · exact List.prefix_rfl
  · exact List.prefix_rfl
  · simp only
    rw [contextResize_of_le _ (hi.le_resize ha hcall)]
    exact List.prefix_append _ _

/-- A slot is still there in a longer table. -/
theorem slot_of_append {l l' : List α} (h : l <+: l') {fd : Int} {c : α} (hs : slot l fd = .ok c) :
    slot l' fd = .ok c := by
  obtain ⟨hfd, hs⟩ := slot_eq_ok.1 hs
  obtain ⟨l₂, rfl⟩ := h
  refine slot_eq_ok.2 ⟨hfd, ?_⟩
  rw [List.getElem?_append_left (List.getElem?_eq_some_iff.1 hs).1, hs]

/-- A call that was between its locks when the table was resized for `fd`. -/
theorem resized_eq_some {growing : Nat → Option GrowCall} {thread fd i : Nat} {call' : GrowCall}
    (h : GrowState.resized growing thread fd i = some call') :
    ∃ call, growing i = some call ∧ call' = { call with since := fd :: call.since } := by
  unfold GrowState.resized at h
  by_cases hi : i = thread
  · subst hi
    rw [Function.update_self] at h
    cases h
  · rw [Function.update_of_ne hi] at h
    obtain ⟨call, hc, rfl⟩ := Option.map_eq_some_iff.1 h
    exact ⟨call, hc, rfl⟩

/-- A step that meets the condition keeps the invariant. -/
theorem GrowLabel.NotOvertaken.inv {s t : GrowState} {a : GrowLabel} (ha : a.NotOvertaken s) (hi : s.Inv)
    (h : growSys.step s a = some t) : t.Inv := by
  have hkept : ∀ x ∈ s.found, slot t.fdContexts x.1 = .ok x.2 := fun x hx =>
    slot_of_append (ha.append hi h) (hi.found x hx)
  obtain ⟨fd, c, hs, rfl⟩ | ⟨thread, fd, hfd, rfl⟩ | ⟨thread, call, c, rfl, hcall, hs, rfl⟩ := growSys_step h
  · exact ⟨hi.length, List.forall_mem_cons.2 ⟨hs, hkept⟩, hi.test⟩
  · refine ⟨hi.length, hkept, fun i call hcall hno => ?_⟩
    -- the call that waits from now on has just found the table too small
    by_cases hit : i = thread
    · subst hit
      simp only [Function.update_self, Option.some.injEq] at hcall
      subst hcall
      have hsize : s.fdContexts.length ≤ fd := by
        rw [intSize_of_lt hi.length] at hfd
        omega
      exact hsize.trans (le_growSize fd)
    · simp only [Function.update_of_ne hit] at hcall
      exact hi.test i call hcall hno
  · refine ⟨?_, List.forall_mem_cons.2 ⟨hs, hkept⟩, fun i call' hcall' hno => ?_⟩
    · simp only
      rw [length_contextResize]
      exact (ha call hcall).2
    · -- the table has the size for a descriptor that is not larger than the waiting one
      obtain ⟨call₀, -, rfl⟩ := resized_eq_some hcall'
      simp only
      rw [length_contextResize]
      exact growSize_mono (hno call.fd List.mem_cons_self)

theorem GrowState.inv_reachable {s : GrowState} (h : growSys.ReachableWhen (fun s a => a.NotOvertaken s) s) :
    s.Inv := by
  refine h.invariant ?_ fun s a t hi ha hs => ha.inv hi hs
  rintro s rfl
  exact ⟨by decide, fun x hx => (by cases hx), fun _ _ h => by cases h⟩

/-- **No slot is lost** in runs in which no thread resizes the table for a larger descriptor between another one's test
and its resize, and sizes fit an `int`: between any two states of such a run the table does not get shorter, a lookup
finds every slot that it found before, and in particular every context that `addEvent` was given. -/
theorem contexts_kept {s t : GrowState} (hs : growSys.ReachableWhen (fun s a => a.NotOvertaken s) s)
    (ht : growSys.Steps (fun s a => a.NotOvertaken s) s t) :
    s.fdContexts.length ≤ t.fdContexts.length ∧
      (∀ fd c, slot s.fdContexts fd = .ok c → lookup t.fdContexts fd = .ok (some c)) ∧
      ∀ x ∈ s.found, lookup t.fdContexts x.1 = .ok (some x.2) := by
  have hi := GrowState.inv_reachable hs
  have hp : s.fdContexts <+: t.fdContexts := ht.relation (I := GrowState.Inv)
    (R := fun s t => s.fdContexts <+: t.fdContexts) (fun _ => List.prefix_rfl) (fun _ _ _ => List.IsPrefix.trans)
    (fun s a t hi ha h => ha.inv hi h) (fun s a t hi ha h => ha.append hi h) hi
  have hlt := (GrowState.inv_reachable (hs.steps ht)).length
  have hlookup : ∀ fd c, slot s.fdContexts fd = .ok c → lookup t.fdContexts fd = .ok (some c) := fun fd c h =>
    (lookup_eq_some hlt).2 (slot_of_append hp h)
  exact ⟨hp.length_le, hlookup, fun x hx => hlookup _ _ (hi.found x hx)⟩

/-- Descriptors 100 and 120 race to grow the table of 32 slots, which has 150 slots after the first resize and 180 after
the second. -/
theorem contexts_kept_grown : ∃ s t : GrowState, s.fdContexts.length = 150 ∧ t.fdContexts.length = 180 ∧
    ∀ x ∈ s.found, lookup t.fdContexts x.1 = .ok (some x.2) := by
  obtain ⟨s, t, hs, ht, hp⟩ := growSys.runsWhen_of_exec (fun s a => a.NotOvertaken s) .new rfl
    [.check 0 100, .check 1 120, .grow 0] [.grow 1]
    (p := fun s t => s.fdContexts.length == 150 && t.fdContexts.length == 180) (by decide +kernel)
  rw [Bool.and_eq_true, beq_iff_eq, beq_iff_eq] at hp
  exact ⟨s, t, hp.1, hp.2, (contexts_kept hs ht).2.2⟩

/-- Descriptors 100 and 40 race to grow the table of 32 slots: the second resize shrinks it to 60 slots, and the context
that was returned for 100 is not found any more. -/
theorem contexts_lost : ∃ s t : GrowState, growSys.Reachable s ∧ growSys.Steps (fun _ _ => True) s t ∧
    t.fdContexts.length < s.fdContexts.length ∧
    ∃ x ∈ s.found, lookup t.fdContexts x.1 ≠ .ok (some x.2) := by
  obtain ⟨s, t, hs, ht, hp⟩ := growSys.runs_of_exec .new rfl [.check 0 100, .check 1 40, .grow 0] [.grow 1]
    (p := fun s t => t.fdContexts.length < s.fdContexts.length &&
      s.found.any fun x => intSize t.fdContexts.length ≤ x.1) (by decide +kernel)
  rw [Bool.and_eq_true, decide_eq_true_eq, List.any_eq_true] at hp
  obtain ⟨hlen, x, hx, hxl⟩ := hp
  refine ⟨s, t, hs, ht, hlen, x, hx, fun h => ?_⟩
  rw [lookup, if_pos (of_decide_eq_true hxl)] at h
  cases h

end Megalo
