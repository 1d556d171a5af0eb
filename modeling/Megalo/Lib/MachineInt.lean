import Mathlib.Algebra.Order.Ring.Nat

/-!
# Machine integers as numbers

- `sizeSub` is the difference of two 64-bit unsigned numbers, which wraps (`sizeSub_of_le` where it does not);
- `intSize` is a 64-bit unsigned number converted to a 32-bit signed one (`intSize_eq`), which is never more
  (`intSize_le`), nor as much as `intLimit` (`intSize_lt`; `intSize_of_lt` where it stays as it is, `intSize_neg` where
  it gets a sign).
-/

namespace MachineInt

/-- The difference of two `size_t`. -/
def sizeSub (a b : Nat) : Nat := if b ≤ a then a - b else a + 2 ^ 64 - b

/-- One more than the largest `int`. -/
def intLimit : Nat := 0x80000000

/-- The conversion `(int)` of a `size_t`. -/
def intSize (n : Nat) : Int := (n : Int).bmod 0x100000000

theorem sizeSub_of_le {a b : Nat} (h : b ≤ a) : sizeSub a b = a - b := if_pos h

theorem intSize_eq (n : Nat) : intSize n =
    if n % 0x100000000 < intLimit then ((n % 0x100000000 : Nat) : Int)
    else ((n % 0x100000000 : Nat) : Int) - 0x100000000 := by
  have hmod : (n : Int) % ((0x100000000 : Nat) : Int) = (n % 0x100000000 : Nat) := rfl
  have hhalf : (((0x100000000 : Nat) : Int) + 1) / 2 = 0x80000000 := by decide
  unfold intSize Int.bmod intLimit
  simp only [hmod, hhalf]
  split
  · rw [if_pos (by omega)]
  · rw [if_neg (by omega)]
    rfl

theorem intSize_of_lt {n : Nat} (h : n < intLimit) : intSize n = n := by
  unfold intLimit at h
  have hmod : (n : Int) % ((0x100000000 : Nat) : Int) = n := Int.emod_eq_of_lt (by omega) (by omega)
  unfold intSize Int.bmod
  simp only [hmod]
  rw [if_pos]
  omega

theorem intSize_le (n : Nat) : intSize n ≤ n := by
  have hmod : (n : Int) % ((0x100000000 : Nat) : Int) ≤ n := by omega
  unfold intSize Int.bmod
  dsimp only
  split <;> omega

theorem intSize_lt (n : Nat) : intSize n < intLimit := by
  unfold intSize Int.bmod intLimit
  dsimp only
  split <;> omega

theorem intSize_neg {n : Nat} (h : intLimit ≤ n) (hn : n < 0x100000000) : intSize n < 0 := by
  unfold intLimit at h
  have hmod : (n : Int) % ((0x100000000 : Nat) : Int) = n := Int.emod_eq_of_lt (by omega) (by omega)
  unfold intSize Int.bmod
  simp only [hmod]
  rw [if_neg] <;> omega

end MachineInt
