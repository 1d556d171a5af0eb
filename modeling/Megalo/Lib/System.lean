import Mathlib.Logic.Basic

/-!
# Labelled transition systems with partial steps

A system has initial states and, for every label, a partial step: a label that is not enabled has no successor.

- `exec` runs a list of labels, `Steps ok` is the runs whose every step meets the condition `ok`;
- `ReachableWhen ok` is the states such runs reach from an initial state, `Reachable` those of any run;
- an invariant of the steps holds of every reachable state (`ReachableWhen.invariant`,
  `ReachableWhen.invariant_of_reachable`), and a relation that every
  step from an invariant state keeps relates the ends of every run (`Steps.relation`);
- `recorded` writes down, beside the state, something that no step reads; its runs are those of the system
  (`ReachableWhen.of_recorded`, `ReachableWhen.recorded`);
- a run found by evaluation gives a reachable state (`reachable_of_exec`, `reachableWhen_of_exec`) or two
  (`runs_of_exec`).
-/

namespace Transition

/-- Initial states and the partial step of each label. -/
structure Sys (σ : Type*) (α : Type*) where
  init : σ → Prop
  step : σ → α → Option σ

namespace Sys

variable {σ α : Type*} (S : Sys σ α)

/-- Run a list of labels; `none` when some label is not enabled. -/
def exec : σ → List α → Option σ
  | s, [] => some s
  | s, a :: as => (S.step s a).bind fun t => exec t as

/-- Runs from the first state to the second whose every step meets `ok` in the state it is taken from. -/
inductive Steps (ok : σ → α → Prop) : σ → σ → Prop
  | refl (s : σ) : Steps ok s s
  | tail {s t u : σ} (a : α) : Steps ok s t → ok t a → S.step t a = some u → Steps ok s u

/-- The states that runs whose steps all meet `ok` reach. -/
def ReachableWhen (ok : σ → α → Prop) (s : σ) : Prop := ∃ s₀, S.init s₀ ∧ S.Steps ok s₀ s

/-- The system whose steps are those that meet `ok`. -/
def restrict (ok : σ → α → Prop) [∀ s a, Decidable (ok s a)] : Sys σ α where
  init := S.init
  step s a := if ok s a then S.step s a else none

/-- The system with a record of its run, which no step reads. -/
def recorded {ρ : Type*} (r₀ : ρ) (record : σ → α → ρ → ρ) : Sys (σ × ρ) α where
  init p := S.init p.1 ∧ p.2 = r₀
  step p a := (S.step p.1 a).map fun t => (t, record p.1 a p.2)

/-- The states that runs reach. -/
def Reachable (s : σ) : Prop := S.ReachableWhen (fun _ _ => True) s

variable {S} {ok ok' : σ → α → Prop} {s t u : σ}

/-! ## Runs -/

theorem Steps.trans (h₁ : S.Steps ok s t) (h₂ : S.Steps ok t u) : S.Steps ok s u := by
  induction h₂ with
  | refl => exact h₁
  | tail a _ ha hs ih => exact .tail a ih ha hs

theorem Steps.mono (hok : ∀ s a, ok s a → ok' s a) (h : S.Steps ok s t) : S.Steps ok' s t := by
  induction h with
  | refl => exact .refl _
  | tail a _ ha hs ih => exact .tail a ih (hok _ _ ha) hs

/-- A run found by evaluation is a run. -/
theorem steps_of_exec {s t : σ} (as : List α) (h : S.exec s as = some t) : S.Steps (fun _ _ => True) s t := by
  induction as generalizing s with
  | nil =>
    cases h
    exact .refl _
  | cons a as ih =>
    simp only [exec] at h
    cases hs : S.step s a with
    | none => rw [hs] at h; cases h
    | some u =>
      rw [hs] at h
      exact (Steps.tail a (.refl s) trivial hs).trans (ih h)

/-- A state that evaluation reaches and that passes a test is a reachable state that passes it. -/
theorem reachable_of_exec (s₀ : σ) (h₀ : S.init s₀) (as : List α) {p : σ → Bool}
    (h : (S.exec s₀ as).map p = some true) : ∃ s, S.Reachable s ∧ p s = true := by
  cases hr : S.exec s₀ as with
  | none => rw [hr] at h; cases h
  | some s =>
    rw [hr] at h
    exact ⟨s, ⟨s₀, h₀, steps_of_exec as hr⟩, Option.some.inj h⟩

/-- Two states on one run, found by evaluation. -/
theorem runs_of_exec (s₀ : σ) (h₀ : S.init s₀) (as bs : List α) {p : σ → σ → Bool}
    (h : ((S.exec s₀ as).bind fun s => (S.exec s bs).map (p s)) = some true) :
    ∃ s t, S.Reachable s ∧ S.Steps (fun _ _ => True) s t ∧ p s t = true := by
  cases hs : S.exec s₀ as with
  | none => rw [hs] at h; cases h
  | some s =>
    rw [hs, Option.bind_some] at h
    cases ht : S.exec s bs with
    | none => rw [ht] at h; cases h
    | some t =>
      rw [ht] at h
      exact ⟨s, t, ⟨s₀, h₀, steps_of_exec as hs⟩, steps_of_exec bs ht, Option.some.inj h⟩

section Restrict

variable (ok) [∀ s a, Decidable (ok s a)]

theorem Steps.of_restrict (h : (S.restrict ok).Steps ok' s t) : S.Steps ok s t := by
  induction h with
  | refl => exact .refl _
  | tail a _ _ hs ih =>
    simp only [restrict] at hs
    split at hs
    · rename_i hok
      exact .tail a ih hok hs
    · cases hs

/-- `reachable_of_exec` for runs whose steps all meet a condition. -/
theorem reachableWhen_of_exec (s₀ : σ) (h₀ : S.init s₀) (as : List α) {p : σ → Bool}
    (h : ((S.restrict ok).exec s₀ as).map p = some true) : ∃ s, S.ReachableWhen ok s ∧ p s = true := by
  obtain ⟨s, ⟨s₁, h₁, hs⟩, hp⟩ := reachable_of_exec (S := S.restrict ok) s₀ h₀ as h
  exact ⟨s, ⟨s₁, h₁, hs.of_restrict ok⟩, hp⟩

/-- `runs_of_exec` for runs whose steps all meet a condition. -/
theorem runsWhen_of_exec (s₀ : σ) (h₀ : S.init s₀) (as bs : List α) {p : σ → σ → Bool}
    (h : (((S.restrict ok).exec s₀ as).bind fun s => ((S.restrict ok).exec s bs).map (p s)) = some true) :
    ∃ s t, S.ReachableWhen ok s ∧ S.Steps ok s t ∧ p s t = true := by
  obtain ⟨s, t, ⟨s₁, h₁, hs⟩, hst, hp⟩ := runs_of_exec (S := S.restrict ok) s₀ h₀ as bs h
  exact ⟨s, t, ⟨s₁, h₁, hs.of_restrict ok⟩, hst.of_restrict ok, hp⟩

end Restrict

/-! ## Reachable states -/

theorem ReachableWhen.init {s : σ} (h : S.init s) : S.ReachableWhen ok s := ⟨s, h, .refl s⟩

theorem ReachableWhen.tail (a : α) (h : S.ReachableWhen ok s) (ha : ok s a) (hs : S.step s a = some t) :
    S.ReachableWhen ok t := by
  obtain ⟨s₀, h₀, h⟩ := h
  exact ⟨s₀, h₀, .tail a h ha hs⟩

theorem ReachableWhen.steps (h : S.ReachableWhen ok s) (h' : S.Steps ok s t) : S.ReachableWhen ok t := by
  obtain ⟨s₀, h₀, h⟩ := h
  exact ⟨s₀, h₀, h.trans h'⟩

theorem ReachableWhen.reachable (h : S.ReachableWhen ok s) : S.Reachable s := by
  obtain ⟨s₀, h₀, h⟩ := h
  exact ⟨s₀, h₀, h.mono fun _ _ _ => trivial⟩

/-- What holds initially and is kept by every step that meets `ok` from a reachable state holds of every state these
steps reach. -/
theorem ReachableWhen.invariant_of_reachable {I : σ → Prop} (h₀ : ∀ s, S.init s → I s)
    (hs : ∀ s a t, S.Reachable s → I s → ok s a → S.step s a = some t → I t) (h : S.ReachableWhen ok s) : I s := by
  obtain ⟨s₀, hi, h⟩ := h
  induction h with
  | refl => exact h₀ _ hi
  | tail a hst' ha hst ih => exact hs _ a _ ⟨s₀, hi, hst'.mono fun _ _ _ => trivial⟩ ih ha hst

/-- **The invariant rule.** What holds initially and is kept by every step that meets `ok` holds of every state
these steps reach. -/
theorem ReachableWhen.invariant {I : σ → Prop} (h₀ : ∀ s, S.init s → I s)
    (hs : ∀ s a t, I s → ok s a → S.step s a = some t → I t) (h : S.ReachableWhen ok s) : I s :=
  h.invariant_of_reachable h₀ fun s a t _ => hs s a t

/-- A reflexive and transitive relation that every step from an invariant state keeps relates the ends of every run. -/
theorem Steps.relation {I : σ → Prop} {R : σ → σ → Prop} (hr : ∀ s, R s s) (ht : ∀ s t u, R s t → R t u → R s u)
    (hI : ∀ s a t, I s → ok s a → S.step s a = some t → I t)
    (hR : ∀ s a t, I s → ok s a → S.step s a = some t → R s t) (hs : I s) (h : S.Steps ok s t) : R s t := by
  suffices I t ∧ R s t from this.2
  induction h with
  | refl => exact ⟨hs, hr _⟩
  | tail a _ ha hst ih => exact ⟨hI _ a _ ih.1 ha hst, ht _ _ _ ih.2 (hR _ a _ ih.1 ha hst)⟩

section Recorded

variable {ρ : Type*} {r₀ : ρ} {record : σ → α → ρ → ρ}

theorem recorded_step {p q : σ × ρ} {a : α} (h : (S.recorded r₀ record).step p a = some q) :
    S.step p.1 a = some q.1 ∧ q.2 = record p.1 a p.2 := by
  obtain ⟨t, ht, rfl⟩ := Option.map_eq_some_iff.mp h
  exact ⟨ht, rfl⟩

theorem Steps.of_recorded {p q : σ × ρ} (h : (S.recorded r₀ record).Steps (fun p a => ok p.1 a) p q) :
    S.Steps ok p.1 q.1 := by
  induction h with
  | refl => exact .refl _
  | tail a _ ha hst ih => exact .tail a ih ha (recorded_step hst).1

/-- A run with a record is a run. -/
theorem ReachableWhen.of_recorded {r : ρ} (h : (S.recorded r₀ record).ReachableWhen (fun p a => ok p.1 a) (s, r)) :
    S.ReachableWhen ok s := by
  obtain ⟨p₀, h₀, hsteps⟩ := h
  exact ⟨p₀.1, h₀.1, hsteps.of_recorded⟩

/-- Every run is one with a record. -/
theorem ReachableWhen.recorded (h : S.ReachableWhen ok s) :
    ∃ r, (S.recorded r₀ record).ReachableWhen (fun p a => ok p.1 a) (s, r) := by
  obtain ⟨s₀, h₀, hsteps⟩ := h
  induction hsteps with
  | refl => exact ⟨r₀, .init ⟨h₀, rfl⟩⟩
  | @tail t u a _ ha hst ih =>
    obtain ⟨r, hr⟩ := ih
    have hstep : (S.recorded r₀ record).step (t, r) a = some (u, record t a r) := by
      simp only [Sys.recorded, hst, Option.map_some]
    exact ⟨_, hr.tail a ha hstep⟩

end Recorded

end Sys

end Transition
