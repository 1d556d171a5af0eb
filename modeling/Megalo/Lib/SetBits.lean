import Mathlib.Algebra.Ring.Parity
import Mathlib.Data.List.Nodup
import Mathlib.Data.List.Perm.Subperm
import Mathlib.Data.Nat.BitIndices

/-!
# Set bits

- `count n` is the number of one bits of `n`;
- `n &&& (n - 1)` is `n` without the lowest of them, so it has one less (`count_and_pred`) and is smaller
  (`and_pred_lt`): clearing bits one by one ends, after as many rounds as there are bits.
-/

namespace SetBits

/-- The number of one bits. -/
def count (n : ℕ) : ℕ := n.bitIndices.length

theorem count_zero : count 0 = 0 := by simp [count]

theorem count_two_mul (n : ℕ) : count (2 * n) = count n := by simp [count]

theorem count_two_mul_add_one (n : ℕ) : count (2 * n + 1) = count n + 1 := by simp [count]

/-- A number has no more one bits than binary digits. -/
theorem count_le {n w : ℕ} (h : n < 2 ^ w) : count n ≤ w := by
  have hsub : n.bitIndices ⊆ List.range w := by
    intro i hi
    have hle := Nat.two_pow_le_of_mem_bitIndices hi
    exact List.mem_range.mpr ((Nat.pow_lt_pow_iff_right (by decide)).mp (Nat.lt_of_le_of_lt hle h))
  have hlen := (List.Nodup.subperm Nat.bitIndices_nodup hsub).length_le
  rwa [List.length_range] at hlen

/-! ## The lowest bit -/

theorem and_pred_lt {n : ℕ} (h : n ≠ 0) : n &&& (n - 1) < n :=
  Nat.lt_of_le_of_lt Nat.and_le_right (Nat.sub_one_lt h)

theorem and_pred_two_mul (n : ℕ) : 2 * n &&& (2 * n - 1) = 2 * (n &&& (n - 1)) := by
  have hdiv : (2 * n &&& (2 * n - 1)) / 2 = n &&& (n - 1) := by
    rw [Nat.and_div_two, show 2 * n / 2 = n by omega, show (2 * n - 1) / 2 = n - 1 by omega]
  have hmod : (2 * n &&& (2 * n - 1)) % 2 ≠ 1 := by
    rw [Ne, Nat.and_mod_two_eq_one]
    omega
  omega

theorem and_pred_two_mul_add_one (n : ℕ) : (2 * n + 1) &&& (2 * n + 1 - 1) = 2 * n := by
  have hdiv : ((2 * n + 1) &&& (2 * n + 1 - 1)) / 2 = n := by
    rw [Nat.and_div_two, show (2 * n + 1) / 2 = n by omega, show (2 * n + 1 - 1) / 2 = n by omega, Nat.and_self]
  have hmod : ((2 * n + 1) &&& (2 * n + 1 - 1)) % 2 ≠ 1 := by
    rw [Ne, Nat.and_mod_two_eq_one]
    omega
  omega

/-- Clearing the lowest bit. -/
theorem count_and_pred {n : ℕ} (h : n ≠ 0) : count (n &&& (n - 1)) + 1 = count n := by
  induction n using Nat.strongRecOn with
  | ind n ih =>
    obtain ⟨m, rfl | rfl⟩ := Nat.even_or_odd' n
    · have hm := ih m (by omega) (by omega)
      rw [and_pred_two_mul, count_two_mul, count_two_mul, hm]
    · rw [and_pred_two_mul_add_one, count_two_mul, count_two_mul_add_one]

end SetBits
