import Mathlib.Logic.Function.Basic

/-!
# Resources held by at most one holder

Every holder has a local state, which says which resource it holds, and every resource has a value.

- `Leased holds P Q W R`: no resource has two holders, `P` relates a holder to the value of what it holds, and `Q` is
  true of the values nobody holds;
- a step of one holder and the resource it takes, keeps or gives up is checked locally (`Leased.update`): nobody else
  holds the resource, and `P` or `Q` is true of it afterwards. `Leased.turn` and `Leased.write` are a step that
  changes only the holder, and one that changes only values.
-/

namespace Lease

variable {ι κ ω ρ : Type*}

/-- No two holders of one resource, `P` of what is held, `Q` of what is not. -/
structure Leased (holds : ω → Option κ) (P : ω → ρ → Prop) (Q : ρ → Prop) (W : ι → ω) (R : κ → ρ) : Prop where
  exclusive : ∀ {i j k}, holds (W i) = some k → holds (W j) = some k → i = j
  held : ∀ {i k}, holds (W i) = some k → P (W i) (R k)
  free : ∀ {k}, (∀ i, holds (W i) ≠ some k) → Q (R k)

namespace Leased

variable {holds : ω → Option κ} {P : ω → ρ → Prop} {Q : ρ → Prop} {W : ι → ω} {R : κ → ρ}

/-- What nobody holds as what it holds is free for everybody. -/
theorem nobody (h : Leased holds P Q W R) {i : ι} {k : κ} (hi : holds (W i) = some k) :
    ∀ j, j ≠ i → holds (W j) ≠ some k :=
  fun _ hj hk => hj (h.exclusive hk hi)

/-- The values change so that `P` and `Q` stay true. -/
theorem write (h : Leased holds P Q W R) {R' : κ → ρ} (hP : ∀ i k, holds (W i) = some k → P (W i) (R' k))
    (hQ : ∀ k, (∀ i, holds (W i) ≠ some k) → Q (R' k)) : Leased holds P Q W R' where
  exclusive := h.exclusive
  held := hP _ _
  free := hQ _

section Update

variable [DecidableEq ι]

/-- **One step.** A holder `i` that holds `k` or nothing goes on to hold `k` or nothing; nobody else holds `k`. -/
theorem update [DecidableEq κ] (h : Leased holds P Q W R) {i : ι} {k : κ} {w : ω} {r : ρ}
    (hi : ∀ k', holds (W i) = some k' → k' = k) (hk : ∀ j, j ≠ i → holds (W j) ≠ some k)
    (hw : ∀ k', holds w = some k' → k' = k) (hP : holds w = some k → P w r) (hQ : holds w = none → Q r) :
    Leased holds P Q (Function.update W i w) (Function.update R k r) := by
  constructor
  · intro a b c ha hb
    by_cases hai : a = i <;> by_cases hbi : b = i
    · rw [hai, hbi]
    · subst hai
      rw [Function.update_self] at ha
      rw [Function.update_of_ne hbi, hw c ha] at hb
      exact absurd hb (hk b hbi)
    · subst hbi
      rw [Function.update_self] at hb
      rw [Function.update_of_ne hai, hw c hb] at ha
      exact absurd ha (hk a hai)
    · rw [Function.update_of_ne hai] at ha
      rw [Function.update_of_ne hbi] at hb
      exact h.exclusive ha hb
  · intro a c ha
    by_cases hai : a = i
    · subst hai
      rw [Function.update_self] at ha ⊢
      obtain rfl := hw c ha
      rw [Function.update_self]
      exact hP ha
    · rw [Function.update_of_ne hai] at ha ⊢
      have hc : c ≠ k := fun e => hk a hai (e ▸ ha)
      rw [Function.update_of_ne hc]
      exact h.held ha
  · intro c hc
    by_cases hck : c = k
    · subst hck
      rw [Function.update_self]
      refine hQ ?_
      have hwi := hc i
      rw [Function.update_self] at hwi
      cases hh : holds w with
      | none => rfl
      | some k' => exact absurd (hh.trans (congrArg some (hw k' hh))) hwi
    · rw [Function.update_of_ne hck]
      refine h.free fun a ha => ?_
      by_cases hai : a = i
      · subst hai
        exact hck (hi c ha)
      · have := hc a
        rw [Function.update_of_ne hai] at this
        exact this ha

/-- A holder goes on with what it holds, and the value stays. -/
theorem turn (h : Leased holds P Q W R) {i : ι} {w : ω} (hw : holds w = holds (W i))
    (hP : ∀ k, holds w = some k → P (W i) (R k) → P w (R k)) : Leased holds P Q (Function.update W i w) R := by
  constructor
  · intro a b c ha hb
    refine h.exclusive (k := c) ?_ ?_
    · by_cases hai : a = i
      · subst hai
        rwa [Function.update_self, hw] at ha
      · rwa [Function.update_of_ne hai] at ha
    · by_cases hbi : b = i
      · subst hbi
        rwa [Function.update_self, hw] at hb
      · rwa [Function.update_of_ne hbi] at hb
  · intro a c ha
    by_cases hai : a = i
    · subst hai
      rw [Function.update_self] at ha ⊢
      exact hP c ha (h.held (hw ▸ ha))
    · rw [Function.update_of_ne hai] at ha ⊢
      exact h.held ha
  · intro c hc
    refine h.free fun a ha => hc a ?_
    by_cases hai : a = i
    · subst hai
      rwa [Function.update_self, hw]
    · rwa [Function.update_of_ne hai]

end Update

end Leased

end Lease
