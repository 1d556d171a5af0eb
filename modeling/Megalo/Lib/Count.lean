import Mathlib.Data.Finset.Card
import Mathlib.Data.Fintype.Basic
import Mathlib.Logic.Function.Basic

/-!
# Counting in a finite family

- `count p W` is how many members of the family `W` pass the test `p`;
- one member that changes leaves the count as it is (`count_update`), or changes it by one (`count_enter`,
  `count_leave`); families that pass the test at the same places have the same count (`count_congr`).
-/

namespace Count

variable {ι ω ω' : Type*} [Fintype ι]

/-- How many members pass the test. -/
def count (p : ω → Bool) (W : ι → ω) : Nat := (Finset.univ.filter fun i => p (W i) = true).card

variable {p : ω → Bool} {p' : ω' → Bool} {W : ι → ω} {W' : ι → ω'} {i : ι} {w : ω}

theorem count_congr (h : ∀ i, p (W i) = p' (W' i)) : count p W = count p' W' :=
  congrArg Finset.card (Finset.filter_congr fun i _ => by rw [h i])

theorem count_pos (h : p (W i) = true) : 0 < count p W :=
  Finset.card_pos.mpr ⟨i, Finset.mem_filter.mpr ⟨Finset.mem_univ i, h⟩⟩

/-- Nobody passes the test. -/
theorem count_eq_zero (h : count p W = 0) (i : ι) : p (W i) = false := by
  cases hi : p (W i) with
  | false => rfl
  | true => exact absurd h (Nat.ne_of_gt (count_pos hi))

theorem count_of_none (h : ∀ i, p (W i) = false) : count p W = 0 := by
  rw [count, Finset.card_eq_zero, Finset.filter_eq_empty_iff]
  intro i _
  rw [h i]
  exact Bool.false_ne_true

section Update

variable [DecidableEq ι]

/-- A member that passes the test as before. -/
theorem count_update (h : p w = p (W i)) : count p (Function.update W i w) = count p W := by
  refine count_congr fun j => ?_
  by_cases hj : j = i
  · rw [hj, Function.update_self, h]
  · rw [Function.update_of_ne hj]

/-- A member that did not pass the test and now does. -/
theorem count_enter (h : p (W i) = false) (hw : p w = true) : count p (Function.update W i w) = count p W + 1 := by
  have hset : (Finset.univ.filter fun j => p (Function.update W i w j) = true) =
      insert i (Finset.univ.filter fun j => p (W j) = true) := by
    ext j
    by_cases hj : j = i
    · simp [hj, hw]
    · simp [hj]
  rw [count, hset, Finset.card_insert_of_notMem (by simp [h]), count]

/-- A member that passed the test and no longer does. -/
theorem count_leave (h : p (W i) = true) (hw : p w = false) : count p W = count p (Function.update W i w) + 1 := by
  have hback := count_enter (W := Function.update W i w) (i := i) (w := W i) (p := p) (by rwa [Function.update_self]) h
  rwa [Function.update_idem, Function.update_eq_self] at hback

end Update

end Count
