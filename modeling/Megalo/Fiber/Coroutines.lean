import Megalo.Fiber.Contexts

/-!
# Coroutines

What fibers are for, without contexts: every thread has a stack of fibers above its own flow of control, where `swapIn`
and `call` push, and a yield and the end of a function pop.

- `Coroutines.Allowed` is who may do what: a scheduler swaps tasks in from its main fiber only, and a thread calls the
  root fiber of its scheduler once;
- `WellStacked` is kept by every step that is allowed (`wellStacked_step`): a fiber is on one stack at most, and above
  the main fiber of a thread there is one task at most.
-/

namespace Megalo

/-- How far the function of a fiber got that is on no stack. -/
inductive Progress
  | fresh
  | suspended
  | ended
  deriving DecidableEq

/-- A fiber; `root` is one that was made with `use_caller`. -/
structure Coroutine where
  state : FiberState
  cb : Option Nat
  root : Bool
  progress : Progress

/-- A fiber after a yield. -/
def Coroutine.yielded (ready : Bool) (c : Coroutine) : Coroutine :=
  { c with state := if ready then .ready else .hold, progress := .suspended }

/-- A fiber at its end. -/
def Coroutine.finished (returns : Bool) (c : Coroutine) : Coroutine :=
  { c with
    state := if returns then .term else .except
    cb := if returns then none else c.cb
    progress := .ended }

/-- Threads with the stacks of their fibers, the topmost first. -/
structure Coroutines (n : Nat) where
  fibers : Nat → Coroutine
  count : Nat
  known : Fin n → Bool
  main : Fin n → Option (Flow n)
  stack : Fin n → List Nat

/-- The flow of control above a stack. -/
def Flow.above {n : Nat} (w : Fin n) : List Nat → Flow n
  | [] => .thread w
  | f :: _ => .fiber f

namespace Coroutines

variable {n : Nat}

/-- Threads without fibers. -/
def new (n : Nat) : Coroutines n where
  fibers _ := { state := .init, cb := none, root := false, progress := .fresh }
  count := 0
  known _ := false
  main _ := none
  stack _ := []

variable (a : Coroutines n) (w : Fin n) (f : Nat)

/-- The flow of control of a thread. -/
def top : Flow n := Flow.above w (a.stack w)

/-- The fiber is on no stack. -/
def Off : Prop := ∀ w, f ∉ a.stack w

def setFiber (c : Coroutine) : Coroutines n := { a with fibers := Function.update a.fibers f c }

def make (cb : Option Nat) (root : Bool) : Coroutines n :=
  { a.setFiber a.count { state := .init, cb, root, progress := .fresh } with count := a.count + 1 }

def know : Coroutines n := { a with known := Function.update a.known w true }

def setMain (f : Flow n) : Coroutines n := { a with main := Function.update a.main w (some f) }

/-- The thread enters a fiber. -/
def push : Coroutines n :=
  { a.setFiber f { a.fibers f with state := .exec } with stack := Function.update a.stack w (f :: a.stack w) }

/-- The thread leaves its fiber. -/
def pop (leave : Coroutine → Coroutine) : Coroutines n :=
  match a.stack w with
  | [] => a
  | f :: rest => { a.setFiber f (leave (a.fibers f)) with stack := Function.update a.stack w rest }

variable {a w f} in
@[simp] theorem setFiber_same {c : Coroutine} : (a.setFiber f c).fibers f = c := Function.update_self _ _ _

variable {a w f} in
theorem setFiber_other {c : Coroutine} {g : Nat} (h : g ≠ f) : (a.setFiber f c).fibers g = a.fibers g :=
  Function.update_of_ne h _ _

variable {a w f} in
theorem setFiber_root {c : Coroutine} (h : c.root = (a.fibers f).root) (g : Nat) :
    ((a.setFiber f c).fibers g).root = (a.fibers g).root := by
  by_cases hg : g = f
  · rw [hg, setFiber_same, h]
  · rw [setFiber_other hg]

variable {a w f} in
@[simp] theorem know_same : (a.know w).known w = true := Function.update_self _ _ _

variable {a w f} in
theorem know_other {v : Fin n} (h : v ≠ w) : (a.know w).known v = a.known v := Function.update_of_ne h _ _

variable {a w f} in
theorem know_of (v : Fin n) (h : a.known v = true) : (a.know w).known v = true := by
  by_cases hv : v = w
  · rw [hv, know_same]
  · exact (know_other hv).trans h

/-- One step. -/
def step : FiberOp n → Coroutines n
  | .getThis w => a.know w
  | .new cb => a.make cb false
  | .reset f cb => a.setFiber f { a.fibers f with state := .init, cb, progress := .fresh }
  | .run w => (a.know w).setMain w (a.top w)
  | .construct w cb => ((a.know w).make cb true).setMain w (.fiber a.count)
  | .swapIn w f => a.push w f
  | .call w f => a.push w f
  | .yield w ready => a.pop w (.yielded ready)
  | .finish w returns => a.pop w (.finished returns)

/-- Who may do what. -/
def Allowed : FiberOp n → Prop
  | .getThis _ => True
  | .new _ => True
  | .reset f _ => f < a.count ∧ a.Off f ∧ (a.fibers f).root = false ∧
    ((a.fibers f).state = .init ∨ (a.fibers f).state = .term)
  | .run w => a.stack w = [] ∧ a.main w = none
  | .construct w _ => a.stack w = [] ∧ a.main w = none
  | .swapIn w f => a.main w = some (a.top w) ∧ f < a.count ∧ a.Off f ∧ (a.fibers f).root = false ∧
    ((a.fibers f).state = .init ∨ (a.fibers f).state = .ready ∨ (a.fibers f).state = .hold)
  | .call w f => a.stack w = [] ∧ a.main w = some (.fiber f) ∧ (a.fibers f).state = .init
  | .yield w _ => ∃ f ∈ (a.stack w).head?, (a.fibers f).root = false
  | .finish w _ => a.stack w ≠ []

instance : Decidable (a.Off f) := inferInstanceAs (Decidable (∀ w, f ∉ a.stack w))

instance : DecidablePred a.Allowed
  | .getThis _ => inferInstanceAs (Decidable True)
  | .new _ => inferInstanceAs (Decidable True)
  | .reset _ _ => inferInstanceAs (Decidable (_ ∧ _))
  | .run _ => inferInstanceAs (Decidable (_ ∧ _))
  | .construct _ _ => inferInstanceAs (Decidable (_ ∧ _))
  | .swapIn _ _ => inferInstanceAs (Decidable (_ ∧ _))
  | .call _ _ => inferInstanceAs (Decidable (_ ∧ _))
  | .yield w _ => inferInstanceAs (Decidable (∃ f ∈ (a.stack w).head?, (a.fibers f).root = false))
  | .finish _ _ => inferInstanceAs (Decidable (_ ≠ _))

/-- A run whose steps are all allowed. -/
def AllowedRun (a : Coroutines n) : List (FiberOp n) → Prop
  | [] => True
  | op :: ops => a.Allowed op ∧ (a.step op).AllowedRun ops

instance decidableAllowedRun (a : Coroutines n) : DecidablePred a.AllowedRun
  | [] => inferInstanceAs (Decidable True)
  | op :: ops =>
    have := decidableAllowedRun (a.step op) ops
    inferInstanceAs (Decidable (_ ∧ _))

/-! ## The stacks -/

/-- What is on the stack of a thread. -/
inductive Shape : Prop
  | native (hs : a.stack w = [])
  | root (r : Nat) (hs : a.stack w = [r]) (hm : a.main w = some (.fiber r))
  | task (f : Nat) (hs : a.stack w = [f]) (hm : a.main w = some (.thread w)) (hf : (a.fibers f).root = false)
  | rootTask (f r : Nat) (hs : a.stack w = [f, r]) (hm : a.main w = some (.fiber r)) (hf : (a.fibers f).root = false)

/-- A fiber on no stack, in the state that it was left in. -/
inductive Parked (c : Coroutine) : Prop
  | fresh (hp : c.progress = .fresh) (hs : c.state = .init)
  | suspended (hp : c.progress = .suspended) (hs : c.state = .ready ∨ c.state = .hold)
  | ended (hp : c.progress = .ended) (hs : c.state = .term ∨ c.state = .except)

/-- The main fiber of a thread that runs a scheduler: its own, or the root fiber. -/
inductive MainFiber : Flow n → Prop
  | own : MainFiber (.thread w)
  | root (r : Nat) (hr : r < a.count) (hroot : (a.fibers r).root = true) : MainFiber (.fiber r)

/-- What every allowed step keeps. -/
structure WellStacked : Prop where
  shape : ∀ w, a.Shape w
  on : ∀ w, ∀ f ∈ a.stack w, f < a.count ∧ (a.fibers f).state = .exec
  off : ∀ f < a.count, a.Off f → Parked (a.fibers f)
  one : ∀ w w' f, f ∈ a.stack w → f ∈ a.stack w' → w = w'
  main : ∀ w F, a.main w = some F → a.known w = true ∧ a.MainFiber w F
  roots : ∀ w w' r, a.main w = some (.fiber r) → a.main w' = some (.fiber r) → w = w'

variable {a w f}

theorem wellStacked_new : (new n).WellStacked where
  shape _ := .native rfl
  on _ _ h := nomatch h
  off _ h := absurd h (Nat.not_lt_zero _)
  one _ _ _ h := nomatch h
  main _ _ h := nomatch h
  roots _ _ _ h := nomatch h

theorem WellStacked.known (h : a.WellStacked) (hs : a.stack w ≠ []) : a.known w = true := by
  cases h.shape w with
  | native hn => exact absurd hn hs
  | root r _ hm => exact (h.main w _ hm).1
  | task f _ hm _ => exact (h.main w _ hm).1
  | rootTask f r _ hm _ => exact (h.main w _ hm).1

/-- The fiber at the top, with what is below. -/
theorem WellStacked.top_cases {rest : List Nat} (h : a.WellStacked) (hs : a.stack w = f :: rest) :
    (rest = [] ∧ a.main w = some (.fiber f)) ∨
      (a.main w = some (Flow.above w rest) ∧ (a.fibers f).root = false) := by
  cases h.shape w with
  | native hn => rw [hn] at hs; cases hs
  | root r hr hm =>
    obtain ⟨rfl, rfl⟩ := List.cons.inj (hr.symm.trans hs)
    exact .inl ⟨rfl, hm⟩
  | task g hg hm hroot =>
    obtain ⟨rfl, rfl⟩ := List.cons.inj (hg.symm.trans hs)
    exact .inr ⟨hm, hroot⟩
  | rootTask g r hg hm hroot =>
    obtain ⟨rfl, rfl⟩ := List.cons.inj (hg.symm.trans hs)
    exact .inr ⟨hm, hroot⟩

/-! ## Steps -/

/-- What is on a stack does not depend on the states of fibers. -/
theorem Shape.of_same {b : Coroutines n} (h : a.Shape w) (hs : b.stack w = a.stack w) (hm : b.main w = a.main w)
    (hf : ∀ f ∈ a.stack w, (b.fibers f).root = (a.fibers f).root) : b.Shape w := by
  cases h with
  | native hn => exact .native (hs.trans hn)
  | root r hr hmain => exact .root r (hs.trans hr) (hm.trans hmain)
  | task f hst hmain hroot =>
    exact .task f (hs.trans hst) (hm.trans hmain) ((hf f (by rw [hst]; exact List.mem_cons_self)).trans hroot)
  | rootTask f r hst hmain hroot =>
    exact .rootTask f r (hs.trans hst) (hm.trans hmain) ((hf f (by rw [hst]; exact List.mem_cons_self)).trans hroot)

theorem MainFiber.of_same {b : Coroutines n} {F : Flow n} (h : a.MainFiber w F) (hcount : a.count ≤ b.count)
    (hf : ∀ f < a.count, (b.fibers f).root = (a.fibers f).root) : b.MainFiber w F := by
  cases h with
  | own => exact .own
  | root r hr hroot => exact .root r (hr.trans_le hcount) ((hf r hr).trans hroot)

/-- A fiber that is on no stack is changed. -/
theorem WellStacked.setFiber {c : Coroutine} (h : a.WellStacked) (hoff : a.Off f) (hroot : c.root = (a.fibers f).root)
    (hc : Parked c) : (a.setFiber f c).WellStacked := by
  have hsame := setFiber_root hroot
  constructor
  · exact fun w => (h.shape w).of_same rfl rfl fun g _ => hsame g
  · intro w g hg
    have hne : g ≠ f := fun he => hoff w (he ▸ hg)
    rw [setFiber_other hne]
    exact h.on w g hg
  · intro g hg hgoff
    by_cases hgf : g = f
    · rw [hgf, setFiber_same]
      exact hc
    · rw [setFiber_other hgf]
      exact h.off g hg hgoff
  · exact h.one
  · exact fun w F hF => ⟨(h.main w F hF).1, (h.main w F hF).2.of_same (Nat.le_refl _) fun g _ => hsame g⟩
  · exact h.roots

theorem WellStacked.make (h : a.WellStacked) (cb : Option Nat) (root : Bool) : (a.make cb root).WellStacked := by
  have hold : ∀ g < a.count, (a.make cb root).fibers g = a.fibers g := fun g hg => setFiber_other (Nat.ne_of_lt hg)
  have hmade : (a.make cb root).fibers a.count = { state := .init, cb, root, progress := .fresh } := setFiber_same
  constructor
  · exact fun w => (h.shape w).of_same rfl rfl fun g hg => by rw [hold g (h.on w g hg).1]
  · intro w g hg
    rw [hold g (h.on w g hg).1]
    exact ⟨Nat.lt_succ_of_lt (h.on w g hg).1, (h.on w g hg).2⟩
  · intro g hg hoff
    by_cases hlt : g < a.count
    · rw [hold g hlt]
      exact h.off g hlt hoff
    · have hnew : g = a.count := Nat.le_antisymm (Nat.le_of_lt_succ hg) (Nat.le_of_not_lt hlt)
      rw [hnew, hmade]
      exact .fresh rfl rfl
  · exact h.one
  · intro w F hF
    exact ⟨(h.main w F hF).1, (h.main w F hF).2.of_same (Nat.le_succ _) fun g hg => by rw [hold g hg]⟩
  · exact h.roots

theorem WellStacked.know (h : a.WellStacked) (w : Fin n) : (a.know w).WellStacked where
  shape v := (h.shape v).of_same rfl rfl fun _ _ => rfl
  on := h.on
  off := h.off
  one := h.one
  main v F hF :=
    ⟨know_of v (h.main v F hF).1, (h.main v F hF).2.of_same (Nat.le_refl _) fun _ _ => rfl⟩
  roots := h.roots

/-- A thread that runs nothing gets the main fiber of its scheduler. -/
theorem WellStacked.setMain {F : Flow n} (h : a.WellStacked) (hs : a.stack w = []) (hknown : a.known w = true)
    (hF : a.MainFiber w F) (hnew : ∀ v r, F = .fiber r → a.main v ≠ some (.fiber r)) : (a.setMain w F).WellStacked := by
  have hself : (a.setMain w F).main w = some F := Function.update_self _ _ _
  have hother : ∀ v, v ≠ w → (a.setMain w F).main v = a.main v := fun v hv => Function.update_of_ne hv _ _
  constructor
  · intro v
    by_cases hv : v = w
    · exact .native (hv ▸ hs)
    · exact (h.shape v).of_same rfl (hother v hv) fun _ _ => rfl
  · exact h.on
  · exact h.off
  · exact h.one
  · intro v G hG
    by_cases hv : v = w
    · subst hv
      obtain rfl := Option.some.inj (hself.symm.trans hG)
      exact ⟨hknown, hF.of_same (Nat.le_refl _) fun _ _ => rfl⟩
    · rw [hother v hv] at hG
      exact ⟨(h.main v G hG).1, (h.main v G hG).2.of_same (Nat.le_refl _) fun _ _ => rfl⟩
  · intro v v' r hv hv'
    by_cases h₁ : v = w <;> by_cases h₂ : v' = w
    · exact h₁.trans h₂.symm
    · rw [h₁, hself] at hv
      rw [hother v' h₂] at hv'
      exact absurd hv' (hnew v' r (Option.some.inj hv))
    · rw [h₂, hself] at hv'
      rw [hother v h₁] at hv
      exact absurd hv (hnew v r (Option.some.inj hv'))
    · rw [hother v h₁] at hv
      rw [hother v' h₂] at hv'
      exact h.roots v v' r hv hv'

/-- A thread enters a fiber: a task from its main fiber, or the root fiber. -/
theorem WellStacked.push (h : a.WellStacked) (hf : f < a.count) (hoff : a.Off f)
    (hfrom : (a.main w = some (a.top w) ∧ (a.fibers f).root = false) ∨ (a.stack w = [] ∧ a.main w = some (.fiber f))) :
    (a.push w f).WellStacked := by
  have hself : (a.push w f).stack w = f :: a.stack w := Function.update_self _ _ _
  have hother : ∀ v, v ≠ w → (a.push w f).stack v = a.stack v := fun v hv => Function.update_of_ne hv _ _
  have hroot : ∀ g, ((a.push w f).fibers g).root = (a.fibers g).root := setFiber_root rfl
  have hold : ∀ g, g ≠ f → (a.push w f).fibers g = a.fibers g := fun g hg => setFiber_other hg
  have hentered : (a.push w f).fibers f = { a.fibers f with state := .exec } := setFiber_same
  have hmem : ∀ v g, g ∈ (a.push w f).stack v → g ∈ a.stack v ∨ (v = w ∧ g = f) := by
    intro v g hg
    by_cases hv : v = w
    · rw [hv, hself] at hg
      rcases List.mem_cons.mp hg with hg | hg
      · exact .inr ⟨hv, hg⟩
      · exact .inl (hv ▸ hg)
    · exact .inl (hother v hv ▸ hg)
  constructor
  · intro v
    by_cases hv : v = w
    · subst hv
      rcases hfrom with ⟨hmain, hfroot⟩ | ⟨hs, hmain⟩
      · have hfroot' : ((a.push v f).fibers f).root = false := (hroot f).trans hfroot
        rw [Coroutines.top] at hmain
        cases h.shape v with
        | native hs =>
          rw [hs] at hself hmain
          exact .task f hself hmain hfroot'
        | root r hs hm =>
          rw [hs] at hself
          exact .rootTask f r hself hm hfroot'
        | task g hs hm hg =>
          rw [hs, hm] at hmain
          cases hmain
        | rootTask g r hs hm hg =>
          rw [hs, hm] at hmain
          obtain rfl : r = g := by simpa [Flow.above] using hmain
          cases (h.main v _ hm).2 with
          | root _ _ hr => rw [hr] at hg; cases hg
      · rw [hs] at hself
        exact .root f hself hmain
    · exact (h.shape v).of_same (hother v hv) rfl fun g _ => hroot g
  · intro v g hg
    rcases hmem v g hg with hg | ⟨-, rfl⟩
    · rw [hold g fun he => hoff v (he ▸ hg)]
      exact h.on v g hg
    · rw [hentered]
      exact ⟨hf, rfl⟩
  · intro g hg hgoff
    have hne : g ≠ f := fun he => hgoff w (by rw [hself, he]; exact List.mem_cons_self)
    have hgoff' : a.Off g := fun v hv => hgoff v (by
      by_cases hvw : v = w
      · rw [hvw, hself]
        exact List.mem_cons_of_mem _ (hvw ▸ hv)
      · rw [hother v hvw]
        exact hv)
    rw [hold g hne]
    exact h.off g hg hgoff'
  · intro v v' g hg hg'
    rcases hmem v g hg with hv | ⟨hv, hf⟩ <;> rcases hmem v' g hg' with hv' | ⟨hv', hf'⟩
    · exact h.one v v' g hv hv'
    · exact absurd (hf' ▸ hv) (hoff v)
    · exact absurd (hf ▸ hv') (hoff v')
    · exact hv.trans hv'.symm
  · exact fun v F hF => ⟨(h.main v F hF).1, (h.main v F hF).2.of_same (Nat.le_refl _) fun g _ => hroot g⟩
  · exact h.roots

section Pop

variable {leave : Coroutine → Coroutine} {rest : List Nat} {v : Fin n} {g : Nat}

theorem pop_eq (leave : Coroutine → Coroutine) (hs : a.stack w = f :: rest) : a.pop w leave =
    { a.setFiber f (leave (a.fibers f)) with stack := Function.update a.stack w rest } := by
  rw [Coroutines.pop, hs]

theorem pop_stack_same (hs : a.stack w = f :: rest) : (a.pop w leave).stack w = rest := by
  rw [pop_eq leave hs]
  exact Function.update_self _ _ _

theorem pop_stack_other (hs : a.stack w = f :: rest) (hv : v ≠ w) : (a.pop w leave).stack v = a.stack v := by
  rw [pop_eq leave hs]
  exact Function.update_of_ne hv _ _

theorem pop_fibers_same (hs : a.stack w = f :: rest) : (a.pop w leave).fibers f = leave (a.fibers f) := by
  rw [pop_eq leave hs]
  exact setFiber_same

theorem pop_fibers_other (hs : a.stack w = f :: rest) (hg : g ≠ f) : (a.pop w leave).fibers g = a.fibers g := by
  rw [pop_eq leave hs]
  exact setFiber_other hg

theorem pop_root (hs : a.stack w = f :: rest) (hroot : (leave (a.fibers f)).root = (a.fibers f).root) (g : Nat) :
    ((a.pop w leave).fibers g).root = (a.fibers g).root := by
  rw [pop_eq leave hs]
  exact setFiber_root hroot g

theorem suffix_of_pop (hs : a.stack w = f :: rest) : (a.pop w leave).stack v <:+ a.stack v := by
  by_cases hv : v = w
  · rw [hv, pop_stack_same hs, hs]
    exact List.suffix_cons f rest
  · rw [pop_stack_other hs hv]

/-- The fiber was on this stack only, and once. -/
theorem WellStacked.pop_off_self (h : a.WellStacked) (hs : a.stack w = f :: rest) : (a.pop w leave).Off f := by
  intro v hv
  have hfw : f ∈ a.stack w := by rw [hs]; exact List.mem_cons_self
  have hvw : v = w := h.one v w f ((suffix_of_pop hs).subset hv) hfw
  rw [hvw, pop_stack_same hs] at hv
  cases h.shape w with
  | native hn => rw [hn] at hs; cases hs
  | root r hr _ =>
    obtain ⟨rfl, rfl⟩ := List.cons.inj (hr.symm.trans hs)
    cases hv
  | task g hg _ _ =>
    obtain ⟨rfl, rfl⟩ := List.cons.inj (hg.symm.trans hs)
    cases hv
  | rootTask g r hg hm hgroot =>
    obtain ⟨rfl, rfl⟩ := List.cons.inj (hg.symm.trans hs)
    obtain rfl := List.mem_singleton.mp hv
    cases (h.main w _ hm).2 with
    | root _ _ hr => rw [hr] at hgroot; cases hgroot

/-- Other fibers are on a stack when they were. -/
theorem off_of_pop (hs : a.stack w = f :: rest) (hg : g ≠ f) (hoff : (a.pop w leave).Off g) : a.Off g := by
  intro v hv
  by_cases hvw : v = w
  · rw [hvw, hs] at hv
    rcases List.mem_cons.mp hv with hv | hv
    · exact hg hv
    · exact hoff w ((pop_stack_same hs).symm ▸ hv)
  · exact hoff v (by rw [pop_stack_other hs hvw]; exact hv)

/-- A thread leaves its fiber. -/
theorem WellStacked.pop (leave : Coroutine → Coroutine) (h : a.WellStacked) (hs : a.stack w = f :: rest)
    (hroot : (leave (a.fibers f)).root = (a.fibers f).root) (hparked : Parked (leave (a.fibers f))) :
    (a.pop w leave).WellStacked := by
  have hcount : (a.pop w leave).count = a.count := by rw [pop_eq leave hs]; rfl
  have hmain : (a.pop w leave).main = a.main := by rw [pop_eq leave hs]; rfl
  have hknown : (a.pop w leave).known = a.known := by rw [pop_eq leave hs]; rfl
  constructor
  · intro v
    by_cases hv : v = w
    · subst hv
      have hself : (a.pop v leave).stack v = rest := pop_stack_same hs
      cases h.shape v with
      | native hn => rw [hn] at hs; cases hs
      | root r hr _ =>
        obtain ⟨rfl, rfl⟩ := List.cons.inj (hr.symm.trans hs)
        exact .native hself
      | task g hg _ _ =>
        obtain ⟨rfl, rfl⟩ := List.cons.inj (hg.symm.trans hs)
        exact .native hself
      | rootTask g r hg hm _ =>
        obtain ⟨rfl, rfl⟩ := List.cons.inj (hg.symm.trans hs)
        exact .root r hself (by rw [hmain]; exact hm)
    · exact (h.shape v).of_same (pop_stack_other hs hv) (by rw [hmain]) fun g _ => pop_root hs hroot g
  · intro v g hg
    have hne : g ≠ f := fun he => h.pop_off_self hs v (he ▸ hg)
    rw [pop_fibers_other hs hne, hcount]
    exact h.on v g ((suffix_of_pop hs).subset hg)
  · intro g hg hgoff
    by_cases hgf : g = f
    · rw [hgf, pop_fibers_same hs]
      exact hparked
    · rw [pop_fibers_other hs hgf]
      exact h.off g (hcount ▸ hg) (off_of_pop hs hgf hgoff)
  · exact fun v v' g hg hg' => h.one v v' g ((suffix_of_pop hs).subset hg) ((suffix_of_pop hs).subset hg')
  · intro v F hF
    rw [hmain] at hF
    rw [hknown]
    exact ⟨(h.main v F hF).1, (h.main v F hF).2.of_same hcount.ge fun g _ => pop_root hs hroot g⟩
  · rw [hmain]
    exact h.roots

end Pop

/-- **The stacks of the threads.** Every allowed step keeps them. -/
theorem wellStacked_step (h : a.WellStacked) {op : FiberOp n} (hop : a.Allowed op) : (a.step op).WellStacked := by
  cases op with
  | getThis w => exact h.know w
  | new cb => exact h.make cb false
  | reset f cb =>
    obtain ⟨hf, hoff, -, -⟩ := hop
    exact h.setFiber hoff rfl (.fresh rfl rfl)
  | run w =>
    obtain ⟨hs, hnone⟩ := hop
    have htop : a.top w = .thread w := by rw [top, hs]; rfl
    rw [step, htop]
    exact (h.know w).setMain hs (Function.update_self _ _ _) .own fun v r => nofun
  | construct w cb =>
    obtain ⟨hs, hnone⟩ := hop
    refine ((h.know w).make cb true).setMain hs (Function.update_self _ _ _) ?_ ?_
    · refine .root a.count (Nat.lt_succ_self _) ?_
      rw [show ((a.know w).make cb true).fibers a.count = _ from setFiber_same]
    · intro v r hr hmain
      obtain rfl := Flow.fiber.inj hr
      cases (h.main v _ hmain).2 with
      | root _ hlt _ => exact Nat.lt_irrefl _ hlt
  | swapIn w f =>
    obtain ⟨hmain, hf, hoff, hroot, -⟩ := hop
    exact h.push hf hoff (.inl ⟨hmain, hroot⟩)
  | call w f =>
    obtain ⟨hs, hmain, hstate⟩ := hop
    have hf : f < a.count := by
      cases (h.main w _ hmain).2 with
      | root _ hlt _ => exact hlt
    have hoff : a.Off f := fun v hv => by
      have hexec := (h.on v f hv).2
      rw [hstate] at hexec
      cases hexec
    exact h.push hf hoff (.inr ⟨hs, hmain⟩)
  | yield w ready =>
    obtain ⟨f, hf, -⟩ := hop
    obtain ⟨rest, hs⟩ := List.head?_eq_some_iff.mp hf
    refine h.pop (.yielded ready) hs rfl (.suspended rfl ?_)
    cases ready
    · exact .inr rfl
    · exact .inl rfl
  | finish w returns =>
    cases hs : a.stack w with
    | nil => exact absurd hs hop
    | cons f rest =>
      refine h.pop (.finished returns) hs rfl (.ended rfl ?_)
      cases returns
      · exact .inr rfl
      · exact .inl rfl

end Coroutines

end Megalo
