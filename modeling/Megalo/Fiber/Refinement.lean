import Megalo.Fiber.Coroutines

/-!
# Contexts refine coroutines

`Simulates` is what the threads and contexts are to the stacks of coroutines: a thread runs on the stack of its topmost
fiber, which is its current one, and whoever is not at the top of a stack has its own place in its own context.

- `swapIn_eq`, `call_eq`, `swapOut_eq` and `back_eq` say what a switch does when nothing fails;
- `simulates_step`: what is allowed to coroutines does not fail, and leads to states that are related again;
- `fibers_refine` is that for all runs, with what it means for the threads.
-/

namespace Megalo

open Coroutines

variable {n : Nat} {s : Contexts n} {a : Coroutines n} {w : Fin n} {f : Nat} {F M : Flow n}

namespace Contexts

/-! ## Switches -/

/-- A thread that entered a fiber from another one. -/
def entered (s : Contexts n) (w : Fin n) (M : Flow n) (f : Nat) (root : Bool) : Contexts n :=
  { s with
    fibers := Function.update (Function.update s.fibers (.fiber f) { s.fibers (.fiber f) with state := .exec }) M
      { s.fibers M with ctx := .switched (s.running w) }
    tFiber := Function.update s.tFiber w (some (.fiber f))
    running := Function.update s.running w (.fiber f)
    frames := Function.update s.frames f { cur := .fiber f, useCaller := root, ended := false } }

/-- A thread that left a fiber for another one. -/
def left (s : Contexts n) (w : Fin n) (f : Nat) (M : Flow n) : Contexts n :=
  { s with
    fibers := Function.update s.fibers (.fiber f) { s.fibers (.fiber f) with ctx := .switched (s.running w) }
    tFiber := Function.update s.tFiber w (some M)
    running := Function.update s.running w M }

/-- A fiber that is about to be left, with its object and its locals. -/
def stopped (s : Contexts n) (f : Nat) (o : FiberObject n) (frame : MainFrame n) : Contexts n :=
  { s.setFiber (.fiber f) o with frames := Function.update s.frames f frame }

theorem left_same : (s.left w f M).fibers (.fiber f) =
    { s.fibers (.fiber f) with ctx := .switched (s.running w) } :=
  Function.update_self _ _ _

/-- The fiber can be entered: its context is the start of its function, or its own place in it. -/
def Enters (s : Contexts n) (f : Nat) (root : Bool) : Prop :=
  (s.fibers (.fiber f)).ctx = .entry root ∨
    (s.fibers (.fiber f)).ctx = .switched (.fiber f) ∧
      s.frames f = { cur := .fiber f, useCaller := root, ended := false }

/-- The flow of control can be gone on with. -/
def Resumes (s : Contexts n) (M : Flow n) : Prop :=
  (s.fibers M).ctx = .switched M ∧ ∀ r, M = .fiber r → (s.frames r).ended = false

theorem enter_eq {root : Bool} (hf : s.Enters f root) (hM : M ≠ .fiber f) :
    ((s.setThis w (.fiber f)).setState (.fiber f) .exec).swapcontext w M (.fiber f) = .ok (s.entered w M f root) := by
  have hkept : ∀ o o' : FiberObject n, Function.update (Function.update s.fibers (.fiber f) o) M o' (.fiber f) = o := by
    intro o o'
    rw [Function.update_of_ne hM.symm, Function.update_self]
  have hmain : ∀ o : FiberObject n, Function.update s.fibers (.fiber f) o M = s.fibers M := fun o =>
    Function.update_of_ne hM _ _
  rw [swapcontext, setcontext]
  simp only [setThis, setState, setFiber, hkept, hmain]
  rcases hf with hentry | ⟨hswitched, hframe⟩
  · simp only [hentry, getThis, Function.update_self, entered]
  · have hsame : Function.update s.frames f { cur := .fiber f, useCaller := root, ended := false } = s.frames := by
      rw [← hframe, Function.update_eq_self]
    simp only [hswitched, hframe, Bool.false_eq_true, if_false, entered, hsame]

theorem swapIn_eq {root : Bool} (hf : s.Enters f root) (hstate : (s.fibers (.fiber f)).state ≠ .exec)
    (hmain : s.tSchedulerFiber w = some M) (hM : M ≠ .fiber f) :
    s.swapIn w (.fiber f) = .ok (s.entered w M f root) := by
  rw [swapIn, if_neg hstate, hmain]
  exact enter_eq hf hM

theorem call_eq {root : Bool} (hf : s.Enters f root) (hstate : (s.fibers (.fiber f)).state ≠ .exec)
    (hown : s.tThreadFiber w = some M) (hM : M ≠ .fiber f) : s.call w (.fiber f) = .ok (s.entered w M f root) := by
  rw [call, if_neg hstate, hown]
  exact enter_eq hf hM

theorem leave_eq (hM : s.Resumes M) (hne : M ≠ .fiber f) :
    (s.setThis w M).swapcontext w (.fiber f) M = .ok (s.left w f M) := by
  have hkept : ∀ o : FiberObject n, Function.update s.fibers (.fiber f) o M = s.fibers M := fun o =>
    Function.update_of_ne hne _ _
  rw [swapcontext, setcontext]
  simp only [setThis, setFiber, hkept, hM.1]
  cases M with
  | thread v => rfl
  | fiber r =>
    simp only [hM.2 r rfl, Bool.false_eq_true, if_false]
    rfl

theorem swapOut_eq (hmain : s.tSchedulerFiber w = some M) (hM : s.Resumes M) (hne : M ≠ .fiber f) :
    s.swapOut w (.fiber f) = .ok (s.left w f M) := by
  rw [swapOut, hmain]
  exact leave_eq hM hne

theorem back_eq (hown : s.tThreadFiber w = some M) (hM : s.Resumes M) (hne : M ≠ .fiber f) :
    s.back w (.fiber f) = .ok (s.left w f M) := by
  rw [back, hown]
  exact leave_eq hM hne

end Contexts

/-! ## The relation -/

/-- The context and the locals of a fiber on no stack, by how far its function got. -/
def Contexts.Waits (s : Contexts n) (f : Nat) (c : Coroutine) : Prop :=
  match c.progress with
  | .fresh => (s.fibers (.fiber f)).ctx = .entry c.root
  | .suspended => (s.fibers (.fiber f)).ctx = .switched (.fiber f) ∧ s.frames f = ⟨.fiber f, c.root, false⟩
  | .ended => (s.fibers (.fiber f)).ctx = .switched (.fiber f) ∧ s.frames f = ⟨.fiber f, c.root, true⟩

/-- The object of a fiber is what the coroutine says. -/
structure FiberObject.Is (o : FiberObject n) (c : Coroutine) : Prop where
  state : o.state = c.state
  cb : o.cb = c.cb
  stack : o.stack = true

/-- Threads and contexts that do what the coroutines do. -/
structure Simulates (s : Contexts n) (a : Coroutines n) : Prop where
  count : s.count = a.count
  running : ∀ w, s.running w = a.top w
  tFiber : ∀ w, s.tFiber w = cond (a.known w) (some (a.top w)) none
  tThreadFiber : ∀ w, s.tThreadFiber w = cond (a.known w) (some (.thread w)) none
  tSchedulerFiber : ∀ w, s.tSchedulerFiber w = a.main w
  fiber : ∀ f < a.count, (s.fibers (.fiber f)).Is (a.fibers f)
  frames : ∀ w, ∀ f ∈ a.stack w, s.frames f = ⟨.fiber f, (a.fibers f).root, false⟩
  below : ∀ w f rest, f :: rest <:+ a.stack w → (s.fibers (Flow.above w rest)).ctx = .switched (Flow.above w rest)
  waits : ∀ f < a.count, a.Off f → s.Waits f (a.fibers f)

theorem simulates_new (n : Nat) : Simulates (Contexts.new n) (Coroutines.new n) where
  count := rfl
  running _ := rfl
  tFiber _ := rfl
  tThreadFiber _ := rfl
  tSchedulerFiber _ := rfl
  fiber _ h := absurd h (Nat.not_lt_zero _)
  frames _ _ h := nomatch h
  below _ _ _ h := absurd (List.suffix_nil.mp h) (List.cons_ne_nil _ _)
  waits _ h := absurd h (Nat.not_lt_zero _)

/-- A fiber on no stack can be entered when its function is not at its end. -/
theorem Contexts.Waits.enters {c : Coroutine} (h : s.Waits f c) (hc : c.progress ≠ .ended) : s.Enters f c.root := by
  unfold Contexts.Waits at h
  split at h
  · exact .inl h
  · exact .inr h
  · exact absurd (by assumption) hc

/-! ## Making fibers -/

/-- A thread without a fiber makes its main fiber. -/
theorem getThis_none (h : s.tFiber w = none) : s.getThis w =
    ({ s with
      fibers := Function.update s.fibers (.thread w)
        { id := 0, state := .exec, stack := false, cb := none, ctx := .constructor }
      tFiber := Function.update s.tFiber w (some (.thread w))
      tThreadFiber := Function.update s.tThreadFiber w (some (.thread w)) }, .thread w) := by
  rw [Contexts.getThis, h]
  rfl

/-- A thread without a fiber runs nothing. -/
theorem Simulates.unknown (h : Simulates s a) (ha : a.WellStacked) (hknown : a.known w = false) :
    s.tFiber w = none ∧ a.stack w = [] := by
  have hfiber := h.tFiber w
  rw [hknown] at hfiber
  refine ⟨hfiber, ?_⟩
  by_contra hs
  rw [ha.known hs] at hknown
  cases hknown

/-- `GetThis` is the topmost fiber. -/
theorem Simulates.getThis_snd (h : Simulates s a) (ha : a.WellStacked) : (s.getThis w).2 = a.top w := by
  cases hknown : a.known w with
  | true =>
    have hfiber := h.tFiber w
    rw [hknown, cond_true] at hfiber
    rw [Contexts.getThis, hfiber]
  | false =>
    obtain ⟨hnone, hs⟩ := h.unknown ha hknown
    rw [getThis_none hnone, top, hs]
    rfl

theorem simulates_getThis (h : Simulates s a) (ha : a.WellStacked) : Simulates (s.getThis w).1 (a.know w) := by
  cases hknown : a.known w with
  | true =>
    have hsame : a.know w = a := by
      have hupdate : Function.update a.known w true = a.known := by rw [← hknown, Function.update_eq_self]
      rw [know, hupdate]
    have hfiber := h.tFiber w
    rw [hknown, cond_true] at hfiber
    rw [Contexts.getThis, hfiber, hsame]
    exact h
  | false =>
    obtain ⟨hnone, hs⟩ := h.unknown ha hknown
    have htop : a.top w = .thread w := by rw [top, hs]; rfl
    have hfiber : ∀ g, Flow.fiber g ≠ Flow.thread w := fun _ he => by cases he
    rw [getThis_none hnone]
    refine { h with tFiber := fun v => ?_, tThreadFiber := fun v => ?_, fiber := fun f hf => ?_,
                    below := fun v f rest hrest => ?_, waits := fun f hf hoff => ?_ }
    · dsimp only
      by_cases hvw : v = w
      · rw [hvw, know_same, Function.update_self]
        exact congrArg some htop.symm
      · rw [know_other hvw, Function.update_of_ne hvw]
        exact h.tFiber v
    · dsimp only
      by_cases hvw : v = w
      · rw [hvw, know_same, Function.update_self]
        rfl
      · rw [know_other hvw, Function.update_of_ne hvw]
        exact h.tThreadFiber v
    · dsimp only
      rw [Function.update_of_ne (hfiber f)]
      exact h.fiber f hf
    · have hne : Flow.above v rest ≠ .thread w := by
        intro heq
        cases rest with
        | nil =>
          obtain rfl := Flow.thread.inj heq
          rw [show (a.know v).stack v = [] from hs] at hrest
          exact absurd (List.suffix_nil.mp hrest) (List.cons_ne_nil _ _)
        | cons g rest => cases heq
      dsimp only
      rw [Function.update_of_ne hne]
      exact h.below v f rest hrest
    · have hwaits := h.waits f hf hoff
      unfold Contexts.Waits at hwaits ⊢
      dsimp only
      rw [Function.update_of_ne (hfiber f)]
      exact hwaits

/-- The flow below a fiber on a stack is none that is on no stack. -/
theorem above_ne {b : Coroutines n} {v : Fin n} {g : Nat} {rest : List Nat} (hoff : b.Off f)
    (hrest : g :: rest <:+ b.stack v) : Flow.above v rest ≠ .fiber f := by
  intro heq
  cases rest with
  | nil => cases heq
  | cons r rest =>
    obtain rfl := Flow.fiber.inj heq
    exact hoff v (hrest.subset (List.mem_cons_of_mem _ List.mem_cons_self))

/-- A fiber is changed that is on no stack, so that its function starts anew. -/
theorem simulates_setFiber {o : FiberObject n} {c : Coroutine} (h : Simulates s a) (hoff : a.Off f) (ho : o.Is c)
    (hroot : c.root = (a.fibers f).root) (hfresh : c.progress = .fresh) (hctx : o.ctx = .entry c.root) :
    Simulates (s.setFiber (.fiber f) o) (a.setFiber f c) := by
  refine { h with fiber := fun g hg => ?_, frames := fun v g hg => ?_, below := fun v g rest hrest => ?_,
                  waits := fun g hg hgoff => ?_ }
  · by_cases hgf : g = f
    · rw [hgf, setFiber_same, Contexts.setFiber_same]
      exact ho
    · rw [setFiber_other hgf, Contexts.setFiber_other fun he => hgf (Flow.fiber.inj he)]
      exact h.fiber g hg
  · rw [setFiber_root hroot]
    exact h.frames v g hg
  · rw [Contexts.setFiber_other (above_ne hoff hrest)]
    exact h.below v g rest hrest
  · unfold Contexts.Waits
    by_cases hgf : g = f
    · rw [hgf, setFiber_same, hfresh, Contexts.setFiber_same]
      exact hctx
    · rw [setFiber_other hgf, Contexts.setFiber_other fun he => hgf (Flow.fiber.inj he)]
      exact h.waits g hg hgoff

theorem simulates_newFiber (h : Simulates s a) (ha : a.WellStacked) (cb : Option Nat) (root : Bool) :
    Simulates (s.newFiber cb root) (a.make cb root) := by
  have hmade : ∀ g, g ≠ a.count → (a.make cb root).fibers g = a.fibers g := fun g hg => setFiber_other hg
  have hself : (a.make cb root).fibers a.count = ⟨.init, cb, root, .fresh⟩ := setFiber_same
  have hnew : ∀ F, F ≠ .fiber a.count → (s.newFiber cb root).fibers F = s.fibers F := fun F hF => by
    rw [← h.count] at hF
    exact Function.update_of_ne hF _ _
  have hnewself : (s.newFiber cb root).fibers (.fiber a.count) = ⟨s.fiberId + 1, .init, true, cb, .entry root⟩ := by
    rw [← h.count]
    exact Function.update_self _ _ _
  have hlt : ∀ g, g < a.count + 1 → g ≠ a.count → g < a.count := fun g hg hne => by omega
  refine { h with count := ?_, fiber := fun g hg => ?_, frames := fun v g hg => ?_, below := fun v g rest hrest => ?_,
                  waits := fun g hg hgoff => ?_ }
  · exact congrArg (· + 1) h.count
  · by_cases hgc : g = a.count
    · rw [hgc, hself, hnewself]
      exact ⟨rfl, rfl, rfl⟩
    · rw [hmade g hgc, hnew _ fun he => hgc (Flow.fiber.inj he)]
      exact h.fiber g (hlt g hg hgc)
  · rw [hmade g (Nat.ne_of_lt (ha.on v g hg).1)]
    exact h.frames v g hg
  · have hne : Flow.above v rest ≠ .fiber a.count := by
      intro heq
      cases rest with
      | nil => cases heq
      | cons r rest =>
        obtain rfl := Flow.fiber.inj heq
        exact Nat.lt_irrefl _ (ha.on v _ (hrest.subset (List.mem_cons_of_mem _ List.mem_cons_self))).1
    rw [hnew _ hne]
    exact h.below v g rest hrest
  · unfold Contexts.Waits
    by_cases hgc : g = a.count
    · rw [hgc, hself, hnewself]
    · rw [hmade g hgc, hnew _ fun he => hgc (Flow.fiber.inj he)]
      exact h.waits g (hlt g hg hgc) hgoff

/-! ## Entering and leaving -/

/-- At the top of a stack is a fiber of it. -/
theorem mem_of_top (h : a.top w = .fiber f) : f ∈ a.stack w := by
  rw [top] at h
  cases hs : a.stack w with
  | nil => rw [hs] at h; cases h
  | cons g rest =>
    rw [hs] at h
    obtain rfl := Flow.fiber.inj h
    exact List.mem_cons_self

/-- The flow below the one that a thread enters keeps its place. -/
theorem simulates_push (h : Simulates s a) (hoff : a.Off f) (hknown : a.known w = true) :
    Simulates (s.entered w (a.top w) f (a.fibers f).root) (a.push w f) := by
  have hstack : (a.push w f).stack w = f :: a.stack w := Function.update_self _ _ _
  have hstacks : ∀ v, v ≠ w → (a.push w f).stack v = a.stack v := fun v hv => Function.update_of_ne hv _ _
  have hself : (a.push w f).top w = .fiber f := by rw [top, hstack]; rfl
  have hothertop : ∀ v, v ≠ w → (a.push w f).top v = a.top v := fun v hv => congrArg (Flow.above v) (hstacks v hv)
  have hne : Flow.fiber f ≠ a.top w := fun heq => hoff w (mem_of_top heq.symm)
  -- what the switch did to the two fibers
  have hentered : (s.entered w (a.top w) f (a.fibers f).root).fibers (.fiber f) =
      { s.fibers (.fiber f) with state := .exec } :=
    (Function.update_of_ne hne _ _).trans (Function.update_self _ _ _)
  have hplace : (s.entered w (a.top w) f (a.fibers f).root).fibers (a.top w) =
      { s.fibers (a.top w) with ctx := .switched (a.top w) } := by
    rw [← h.running w]
    exact Function.update_self _ _ _
  have hothers : ∀ F, F ≠ .fiber f → F ≠ a.top w →
      (s.entered w (a.top w) f (a.fibers f).root).fibers F = s.fibers F := fun F hF hFM =>
    (Function.update_of_ne hFM _ _).trans (Function.update_of_ne hF _ _)
  refine { h with running := fun v => ?_, tFiber := fun v => ?_, fiber := fun g hg => ?_, frames := fun v g hg => ?_,
                  below := fun v g rest hrest => ?_, waits := fun g hg hgoff => ?_ }
  · by_cases hv : v = w
    · rw [hv, hself]
      exact Function.update_self _ _ _
    · rw [hothertop v hv]
      exact (Function.update_of_ne hv _ _).trans (h.running v)
  · by_cases hv : v = w
    · rw [hv, hself, show (a.push w f).known w = true from hknown]
      exact Function.update_self _ _ _
    · rw [hothertop v hv]
      exact (Function.update_of_ne hv _ _).trans (h.tFiber v)
  · by_cases hgf : g = f
    · subst hgf
      rw [hentered, show (a.push w g).fibers g = _ from setFiber_same]
      exact ⟨rfl, (h.fiber g hg).cb, (h.fiber g hg).stack⟩
    · rw [show (a.push w f).fibers g = a.fibers g from setFiber_other hgf]
      by_cases hgM : Flow.fiber g = a.top w
      · rw [hgM, hplace, ← hgM]
        exact ⟨(h.fiber g hg).state, (h.fiber g hg).cb, (h.fiber g hg).stack⟩
      · rw [hothers _ (fun he => hgf (Flow.fiber.inj he)) hgM]
        exact h.fiber g hg
  · rw [show ((a.push w f).fibers g).root = (a.fibers g).root from
      setFiber_root (c := { a.fibers f with state := .exec }) rfl g]
    by_cases hgf : g = f
    · rw [hgf]
      exact Function.update_self _ _ _
    · refine (Function.update_of_ne hgf _ _).trans ?_
      by_cases hv : v = w
      · rw [hv, hstack] at hg
        exact h.frames w g ((List.mem_cons.mp hg).resolve_left hgf)
      · exact h.frames v g (hstacks v hv ▸ hg)
  · by_cases hM : Flow.above v rest = a.top w
    · rw [hM, hplace]
    · have hold : g :: rest <:+ a.stack v := by
        by_cases hv : v = w
        · subst hv
          rw [hstack] at hrest
          rcases List.suffix_cons_iff.mp hrest with heq | hrest
          · exact absurd (congrArg (Flow.above v) (List.cons.inj heq).2) hM
          · exact hrest
        · exact hstacks v hv ▸ hrest
      rw [hothers _ (above_ne hoff hold) hM]
      exact h.below v g rest hold
  · have hgf : g ≠ f := fun he => hgoff w (by rw [hstack, he]; exact List.mem_cons_self)
    have hgoff' : a.Off g := fun v hv => hgoff v (by
      by_cases hvw : v = w
      · rw [hvw, hstack]
        exact List.mem_cons_of_mem _ (hvw ▸ hv)
      · rw [hstacks v hvw]
        exact hv)
    have hgM : Flow.fiber g ≠ a.top w := fun heq => hgoff' w (mem_of_top heq.symm)
    have hwaits := h.waits g hg hgoff'
    unfold Contexts.Waits at hwaits ⊢
    rw [show (a.push w f).fibers g = a.fibers g from setFiber_other hgf,
      hothers _ (fun he => hgf (Flow.fiber.inj he)) hgM,
      show (s.entered w (a.top w) f (a.fibers f).root).frames g = s.frames g from Function.update_of_ne hgf _ _]
    exact hwaits

/-- The fiber that a thread leaves has its place in it, or its function is at its end. -/
theorem simulates_pop {rest : List Nat} {o : FiberObject n} (ended : Bool) (leave : Coroutine → Coroutine)
    (h : Simulates s a) (ha : a.WellStacked) (hs : a.stack w = f :: rest)
    (hroot : (leave (a.fibers f)).root = (a.fibers f).root) (ho : o.Is (leave (a.fibers f)))
    (hended : (leave (a.fibers f)).progress = if ended then .ended else .suspended) :
    Simulates ((s.stopped f o ⟨.fiber f, (a.fibers f).root, ended⟩).left w f (Flow.above w rest)) (a.pop w leave) := by
  have hoff : (a.pop w leave).Off f := ha.pop_off_self hs
  have hcount : (a.pop w leave).count = a.count := by rw [pop_eq leave hs]; rfl
  have hmain : (a.pop w leave).main = a.main := by rw [pop_eq leave hs]; rfl
  have hknown : (a.pop w leave).known = a.known := by rw [pop_eq leave hs]; rfl
  have hrunning : s.running w = .fiber f := by rw [h.running w, top, hs]; rfl
  have htop : (a.pop w leave).top w = Flow.above w rest := congrArg (Flow.above w) (pop_stack_same hs)
  have hothertop : ∀ v, v ≠ w → (a.pop w leave).top v = a.top v := fun v hv =>
    congrArg (Flow.above v) (pop_stack_other hs hv)
  generalize ht : (s.stopped f o ⟨.fiber f, (a.fibers f).root, ended⟩).left w f (Flow.above w rest) = t
  have hself : t.fibers (.fiber f) = { o with ctx := .switched (.fiber f) } := by
    have hold : (s.stopped f o ⟨.fiber f, (a.fibers f).root, ended⟩).fibers (.fiber f) = o := Contexts.setFiber_same
    have hfrom : (s.stopped f o ⟨.fiber f, (a.fibers f).root, ended⟩).running w = .fiber f := hrunning
    rw [← ht, Contexts.left_same, hold, hfrom]
  have hothers : ∀ F, F ≠ .fiber f → t.fibers F = s.fibers F := fun F hF => by
    rw [← ht]
    exact (Function.update_of_ne hF _ _).trans (Contexts.setFiber_other hF)
  have hframe : t.frames f = ⟨.fiber f, (a.fibers f).root, ended⟩ := by rw [← ht]; exact Function.update_self _ _ _
  have hframes : ∀ g, g ≠ f → t.frames g = s.frames g := fun g hg => by
    rw [← ht]
    exact Function.update_of_ne hg _ _
  constructor
  · rw [← ht, hcount]
    exact h.count
  · intro v
    rw [← ht]
    by_cases hv : v = w
    · rw [hv, htop]
      exact Function.update_self _ _ _
    · rw [hothertop v hv]
      exact (Function.update_of_ne hv _ _).trans (h.running v)
  · intro v
    rw [← ht, hknown]
    by_cases hv : v = w
    · rw [hv, htop, ha.known (by rw [hs]; exact List.cons_ne_nil _ _)]
      exact Function.update_self _ _ _
    · rw [hothertop v hv]
      exact (Function.update_of_ne hv _ _).trans (h.tFiber v)
  · rw [← ht, hknown]
    exact h.tThreadFiber
  · rw [← ht, hmain]
    exact h.tSchedulerFiber
  · intro g hg
    by_cases hgf : g = f
    · rw [hgf, hself, pop_fibers_same hs]
      exact ⟨ho.state, ho.cb, ho.stack⟩
    · rw [hothers _ fun he => hgf (Flow.fiber.inj he), pop_fibers_other hs hgf]
      exact h.fiber g (hcount ▸ hg)
  · intro v g hg
    have hgf : g ≠ f := fun he => hoff v (he ▸ hg)
    rw [hframes g hgf, pop_fibers_other hs hgf]
    exact h.frames v g ((suffix_of_pop hs).subset hg)
  · intro v g rest' hrest
    rw [hothers _ (above_ne hoff hrest)]
    exact h.below v g rest' (hrest.trans (suffix_of_pop hs))
  · intro g hg hgoff
    unfold Contexts.Waits
    by_cases hgf : g = f
    · rw [hgf, pop_fibers_same hs, hself, hframe, hended, hroot]
      cases ended
      · exact ⟨rfl, rfl⟩
      · exact ⟨rfl, rfl⟩
    · rw [pop_fibers_other hs hgf, hothers _ fun he => hgf (Flow.fiber.inj he), hframes g hgf]
      exact h.waits g (hcount ▸ hg) (off_of_pop hs hgf hgoff)

/-! ## Steps -/

theorem getThis_main (s : Contexts n) (w : Fin n) : (s.getThis w).1.tSchedulerFiber = s.tSchedulerFiber := by
  rw [Contexts.getThis]
  cases s.tFiber w with
  | some F => rfl
  | none => rfl

theorem simulates_setMain (h : Simulates s a) (w : Fin n) (F : Flow n) :
    Simulates { s with tSchedulerFiber := Function.update s.tSchedulerFiber w (some F) } (a.setMain w F) := by
  refine { h with tSchedulerFiber := fun v => ?_ }
  by_cases hv : v = w
  · rw [hv, setMain]
    exact (Function.update_self _ _ _).trans (Eq.symm (Function.update_self _ _ _))
  · rw [setMain]
    exact (Function.update_of_ne hv _ _).trans ((h.tSchedulerFiber v).trans (Eq.symm (Function.update_of_ne hv _ _)))

/-- A parked fiber whose function can go on has no state that a switch refuses. -/
theorem Simulates.enters (h : Simulates s a) (ha : a.WellStacked) (hf : f < a.count) (hoff : a.Off f)
    (hstate : (a.fibers f).state = .init ∨ (a.fibers f).state = .ready ∨ (a.fibers f).state = .hold) :
    s.Enters f (a.fibers f).root ∧ (s.fibers (.fiber f)).state ≠ .exec := by
  constructor
  · refine (h.waits f hf hoff).enters fun hended => ?_
    cases ha.off f hf hoff with
    | fresh hp => rw [hended] at hp; cases hp
    | suspended hp => rw [hended] at hp; cases hp
    | ended _ hs =>
      rcases hs with hs | hs <;> rcases hstate with hstate | hstate | hstate <;> rw [hs] at hstate <;> cases hstate
  · rw [(h.fiber f hf).state]
    rcases hstate with hstate | hstate | hstate <;> rw [hstate] <;> decide

/-- Whoever is below the fiber that a thread leaves can go on. -/
theorem Simulates.resumes {rest : List Nat} (h : Simulates s a) (ha : a.WellStacked) (hs : a.stack w = f :: rest)
    (o : FiberObject n) (frame : MainFrame n) :
    (s.stopped f o frame).Resumes (Flow.above w rest) ∧ Flow.above w rest ≠ .fiber f := by
  have hstack : (a.pop w id).stack w = rest := pop_stack_same hs
  have hne : Flow.above w rest ≠ .fiber f := by
    intro heq
    cases rest with
    | nil => cases heq
    | cons r rest =>
      obtain rfl := Flow.fiber.inj heq
      exact ha.pop_off_self hs w (hstack.symm ▸ List.mem_cons_self)
  refine ⟨⟨?_, fun r hr => ?_⟩, hne⟩
  · rw [show (s.stopped f o frame).fibers (Flow.above w rest) = s.fibers (Flow.above w rest) from
      Contexts.setFiber_other hne]
    exact h.below w f rest (hs ▸ List.suffix_refl _)
  · have hrf : r ≠ f := fun he => hne (he ▸ hr)
    have hmem : r ∈ a.stack w := by
      cases rest with
      | nil => cases hr
      | cons g rest =>
        obtain rfl := Flow.fiber.inj hr
        rw [hs]
        exact List.mem_cons_of_mem _ List.mem_cons_self
    rw [show (s.stopped f o frame).frames r = s.frames r from Function.update_of_ne hrf _ _, h.frames w r hmem]

theorem simulates_reset (h : Simulates s a) {cb : Option Nat} (hop : a.Allowed (.reset f cb)) :
    ∃ s', s.reset (.fiber f) cb = .ok s' ∧ Simulates s' (a.step (.reset f cb)) := by
  obtain ⟨hf, hoff, hroot, hstate⟩ := hop
  have hfiber := h.fiber f hf
  rw [Contexts.reset, if_pos ⟨hfiber.stack, by rw [hfiber.state]; exact hstate.symm⟩]
  refine ⟨_, rfl, simulates_setFiber h hoff ⟨rfl, rfl, hfiber.stack⟩ rfl rfl ?_⟩
  rw [hroot]

theorem simulates_yield (h : Simulates s a) (ha : a.WellStacked) {ready : Bool} (hop : a.Allowed (.yield w ready)) :
    ∃ s', s.yield w ready = .ok s' ∧ Simulates s' (a.step (.yield w ready)) := by
  obtain ⟨f, hhead, hroot⟩ := hop
  obtain ⟨rest, hs⟩ := List.head?_eq_some_iff.mp hhead
  have hmem : f ∈ a.stack w := by rw [hs]; exact List.mem_cons_self
  obtain ⟨hf, hexec⟩ := ha.on w f hmem
  have htop : a.top w = .fiber f := by rw [top, hs]; rfl
  have hcur : s.getThis w = (s, .fiber f) := by
    have hfiber := h.tFiber w
    rw [ha.known (by rw [hs]; exact List.cons_ne_nil _ _), cond_true, htop] at hfiber
    rw [Contexts.getThis, hfiber]
  have hmain : a.main w = some (Flow.above w rest) := by
    rcases ha.top_cases hs with ⟨-, hm⟩ | ⟨hm, -⟩
    · cases (ha.main w _ hm).2 with
      | root _ _ hr => rw [hroot] at hr; cases hr
    · exact hm
  let o : FiberObject n := { s.fibers (.fiber f) with state := if ready then .ready else .hold }
  have hstopped : s.setState (.fiber f) (if ready then .ready else .hold) =
      s.stopped f o ⟨.fiber f, (a.fibers f).root, false⟩ := by
    rw [Contexts.stopped, ← h.frames w f hmem, Function.update_eq_self]
    rfl
  obtain ⟨hresumes, hne⟩ := h.resumes ha hs o ⟨.fiber f, (a.fibers f).root, false⟩
  refine ⟨_, ?_, simulates_pop false (.yielded ready) h ha hs rfl (o := o)
    ⟨rfl, (h.fiber f hf).cb, (h.fiber f hf).stack⟩ rfl⟩
  rw [Contexts.yield, hcur]
  dsimp only
  rw [if_pos ((h.fiber f hf).state.trans hexec), hstopped]
  exact Contexts.swapOut_eq ((h.tSchedulerFiber w).trans hmain) hresumes hne

theorem simulates_finish (h : Simulates s a) (ha : a.WellStacked) {returns : Bool}
    (hop : a.Allowed (.finish w returns)) :
    ∃ s', s.finish w returns = some (.ok s') ∧ Simulates s' (a.step (.finish w returns)) := by
  obtain ⟨f, rest, hs⟩ := List.exists_cons_of_ne_nil hop
  have hmem : f ∈ a.stack w := by rw [hs]; exact List.mem_cons_self
  obtain ⟨hf, -⟩ := ha.on w f hmem
  have hrunning : s.running w = .fiber f := by rw [h.running w, top, hs]; rfl
  let c : Coroutine := (a.fibers f).finished returns
  let o : FiberObject n := { s.fibers (.fiber f) with state := c.state, cb := c.cb }
  have ho : (if returns then { s.fibers (.fiber f) with cb := none, state := .term }
      else { s.fibers (.fiber f) with state := .except } : FiberObject n) = o := by
    cases returns
    · simp only [Bool.false_eq_true, if_false, o, c, Coroutine.finished, ← (h.fiber f hf).cb]
    · rfl
  obtain ⟨hresumes, hne⟩ := h.resumes ha hs o ⟨.fiber f, (a.fibers f).root, true⟩
  refine ⟨_, ?_, simulates_pop true (.finished returns) h ha hs rfl (o := o)
    ⟨rfl, rfl, (h.fiber f hf).stack⟩ rfl⟩
  rw [Contexts.finish, hrunning]
  dsimp only
  rw [h.frames w f hmem]
  dsimp only
  rw [ho]
  refine congrArg some ?_
  rcases ha.top_cases hs with ⟨hrest, hm⟩ | ⟨hm, hroot⟩
  · -- the root fiber goes back to the thread that called it
    have hroot : (a.fibers f).root = true := by
      cases (ha.main w _ hm).2 with
      | root _ _ hr => exact hr
    have hown : s.tThreadFiber w = some (Flow.above w rest) := by
      rw [h.tThreadFiber w, ha.known (by rw [hs]; exact List.cons_ne_nil _ _), hrest]
      rfl
    rw [if_pos hroot]
    exact Contexts.back_eq hown hresumes hne
  · rw [if_neg (by rw [hroot]; exact Bool.false_ne_true)]
    exact Contexts.swapOut_eq ((h.tSchedulerFiber w).trans hm) hresumes hne

/-- What is allowed does not fail, and the states stay related. -/
theorem simulates_step (h : Simulates s a) (ha : a.WellStacked) {op : FiberOp n} (hop : a.Allowed op) :
    ∃ s', s.step op = some (.ok s') ∧ Simulates s' (a.step op) := by
  cases op with
  | getThis w => exact ⟨_, rfl, simulates_getThis h ha⟩
  | new cb => exact ⟨_, rfl, simulates_newFiber h ha cb false⟩
  | reset f cb =>
    obtain ⟨s', hs', hsim⟩ := simulates_reset h hop
    exact ⟨s', congrArg some hs', hsim⟩
  | run w =>
    refine ⟨_, rfl, ?_⟩
    have hmain := simulates_setMain (simulates_getThis (w := w) h ha) w (a.top w)
    rw [← h.getThis_snd ha, getThis_main s w] at hmain
    rw [step, ← h.getThis_snd ha]
    exact hmain
  | construct w cb =>
    refine ⟨_, rfl, ?_⟩
    have hmade := simulates_newFiber (simulates_getThis (w := w) h ha) (ha.know w) cb true
    have hmain := simulates_setMain hmade w (.fiber a.count)
    rw [Contexts.construct, h.count, ← getThis_main s w]
    exact hmain
  | swapIn w f =>
    obtain ⟨hmain, hf, hoff, hroot, hstate⟩ := hop
    obtain ⟨henters, hexec⟩ := h.enters ha hf hoff hstate
    have hne : a.top w ≠ .fiber f := fun heq => hoff w (mem_of_top heq)
    refine ⟨_, congrArg some (Contexts.swapIn_eq henters hexec ((h.tSchedulerFiber w).trans hmain) hne), ?_⟩
    exact simulates_push h hoff (ha.main w _ hmain).1
  | call w f =>
    obtain ⟨hs, hmain, hstate⟩ := hop
    have hf : f < a.count := by
      cases (ha.main w _ hmain).2 with
      | root _ hlt _ => exact hlt
    have hoff : a.Off f := fun v hv => by
      have hexec := (ha.on v f hv).2
      rw [hstate] at hexec
      cases hexec
    obtain ⟨henters, hexec⟩ := h.enters ha hf hoff (.inl hstate)
    have hknown := (ha.main w _ hmain).1
    have htop : a.top w = .thread w := by rw [top, hs]; rfl
    have hown : s.tThreadFiber w = some (.thread w) := by rw [h.tThreadFiber w, hknown]; rfl
    refine ⟨_, congrArg some (Contexts.call_eq henters hexec hown fun heq => by cases heq), ?_⟩
    rw [← htop]
    exact simulates_push h hoff hknown
  | yield w ready =>
    obtain ⟨s', hs', hsim⟩ := simulates_yield h ha hop
    exact ⟨s', congrArg some hs', hsim⟩
  | finish w returns => exact simulates_finish h ha hop

/-! ## Runs -/

/-- The steps one after the other, as long as none fails. -/
def Contexts.steps (s : Contexts n) : List (FiberOp n) → Option (Except ContextFault (Contexts n))
  | [] => some (.ok s)
  | op :: ops =>
    match s.step op with
    | some (.ok s') => s'.steps ops
    | r => r

theorem simulates_steps (h : Simulates s a) (ha : a.WellStacked) {ops : List (FiberOp n)} (hops : a.AllowedRun ops) :
    ∃ s', s.steps ops = some (.ok s') ∧ Simulates s' (ops.foldl Coroutines.step a) ∧
      (ops.foldl Coroutines.step a).WellStacked := by
  induction ops generalizing s a with
  | nil => exact ⟨s, rfl, h, ha⟩
  | cons op ops ih =>
    obtain ⟨hop, hops⟩ := hops
    obtain ⟨t, hstep, ht⟩ := simulates_step h ha hop
    obtain ⟨s', hs', hsim⟩ := ih ht (wellStacked_step ha hop) hops
    refine ⟨s', ?_, hsim⟩
    rw [Contexts.steps, hstep]
    exact hs'

/-- What a thread executes is its current fiber, which no other thread executes and which `MainFunc` knows. -/
structure Contexts.Sound (s : Contexts n) : Prop where
  current : ∀ w F, s.tFiber w = some F → s.running w = F
  own : ∀ w F, s.tThreadFiber w = some F → F = .thread w
  executed : ∀ w f, s.running w = .fiber f →
    s.tFiber w = some (.fiber f) ∧ (s.fibers (.fiber f)).state = .exec ∧ (s.frames f).cur = .fiber f
  exclusive : ∀ w w' F, s.running w = F → s.running w' = F → w = w'

theorem Simulates.sound (h : Simulates s a) (ha : a.WellStacked) : s.Sound := by
  have hcur : ∀ v, a.known v = true → s.tFiber v = some (a.top v) := fun v hv => by rw [h.tFiber v, hv]; rfl
  constructor
  · intro v F hF
    cases hknown : a.known v with
    | true =>
      rw [h.running v]
      exact Option.some.inj ((hcur v hknown).symm.trans hF)
    | false => rw [(h.unknown ha hknown).1] at hF; cases hF
  · intro v F hF
    rw [h.tThreadFiber v] at hF
    cases hknown : a.known v with
    | true => rw [hknown] at hF; exact (Option.some.inj hF).symm
    | false => rw [hknown] at hF; cases hF
  · intro v g hg
    have htop : a.top v = .fiber g := (h.running v).symm.trans hg
    have hmem : g ∈ a.stack v := mem_of_top htop
    obtain ⟨hlt, hexec⟩ := ha.on v g hmem
    refine ⟨?_, (h.fiber g hlt).state.trans hexec, by rw [h.frames v g hmem]⟩
    rw [hcur v (ha.known (List.ne_nil_of_mem hmem)), htop]
  · intro v v' F hv hv'
    rw [h.running] at hv hv'
    cases F with
    | thread u =>
      have hthread : ∀ u', a.top u' = .thread u → u' = u := by
        intro u' hu
        rw [top] at hu
        cases hs : a.stack u' with
        | nil => rw [hs] at hu; exact Flow.thread.inj hu
        | cons g rest => rw [hs] at hu; cases hu
      exact (hthread v hv).trans (hthread v' hv').symm
    | fiber g => exact ha.one v v' g (mem_of_top hv) (mem_of_top hv')

/-- **Contexts do what coroutines do.** Whatever the threads do that is allowed, in any order, no assertion fails, no
context is loaded that leads nowhere or to the end of a function, and what each thread executes is the coroutine at the
top of its stack. -/
theorem fibers_refine (ops : List (FiberOp n)) (hops : (Coroutines.new n).AllowedRun ops) :
    ∃ s, (Contexts.new n).steps ops = some (.ok s) ∧ Simulates s (ops.foldl Coroutines.step (Coroutines.new n)) ∧
      s.Sound := by
  obtain ⟨s, hs, hsim, hstacked⟩ := simulates_steps (simulates_new n) wellStacked_new hops
  exact ⟨s, hs, hsim, hsim.sound hstacked⟩

/-- A task that yields on a thread of its own and goes on in the root fiber of another one. -/
def migration : List (FiberOp 2) :=
  let u : Fin 2 := ⟨0, Nat.two_pos⟩
  let v : Fin 2 := ⟨1, Nat.one_lt_two⟩
  [.construct u (some 7), .run v, .new (some 8), .getThis v, .swapIn v 1, .yield v false, .call u 0, .swapIn u 1,
    .finish u true, .reset 1 (some 9), .swapIn v 1, .finish u false]

theorem fibers_refine_migration : ∃ s, (Contexts.new 2).steps migration = some (.ok s) ∧
    Simulates s (migration.foldl Coroutines.step (Coroutines.new 2)) ∧ s.Sound :=
  fibers_refine migration (by decide)

end Megalo
