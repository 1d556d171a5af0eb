import Mathlib.Data.BitVec

/-!
# Leading bits

- `behind w p` has ones behind the first `p` of `w` bits (`getMsbD_behind`); the numbers that agree with `a` in those
  are between `a &&& ~~~behind w p` and `a ||| behind w p` (`and_le`, `le_or`);
- to keep the bits behind instead of the first ones makes no difference only for zero (`and_not_eq_and`).
-/

namespace LeadingBits

variable {w p : ℕ}

/-- The bits behind the first `p`. -/
def behind (w p : ℕ) : BitVec w := BitVec.ofNat w (2 ^ (w - p) - 1)

theorem getLsbD_behind {i : ℕ} (hi : i < w) : (behind w p).getLsbD i = decide (i < w - p) := by
  rw [behind, BitVec.getLsbD_ofNat, Nat.testBit_two_pow_sub_one]
  simp [hi]

theorem getMsbD_behind {i : ℕ} (hi : i < w) : (behind w p).getMsbD i = decide (p ≤ i) := by
  have hlsb : w - 1 - i < w - p ↔ p ≤ i := by omega
  rw [BitVec.getMsbD_eq_getLsbD, getLsbD_behind (by omega)]
  simp [hi, hlsb]

theorem getMsbD_not_behind {i : ℕ} (hi : i < w) : (~~~behind w p).getMsbD i = decide (i < p) := by
  rw [BitVec.getMsbD_not, getMsbD_behind hi, ← decide_not]
  simp [hi]

theorem and_le (a m : BitVec w) : a &&& m ≤ a := by
  rw [BitVec.le_def, BitVec.toNat_and]
  exact Nat.and_le_left

theorem le_or (a m : BitVec w) : a ≤ a ||| m := by
  rw [BitVec.le_def, BitVec.toNat_or]
  exact Nat.left_le_or

theorem and_not_eq_and {a m : BitVec w} : a &&& m = a &&& ~~~m ↔ a = 0 := by
  constructor
  · intro h
    apply BitVec.eq_of_getLsbD_eq
    intro i hi
    have hbit := congrArg (fun v => v.getLsbD i) h
    simp only [BitVec.getLsbD_and, BitVec.getLsbD_not, hi, decide_true, Bool.true_and] at hbit
    cases hm : m.getLsbD i <;> simpa [hm] using hbit
  · rintro rfl
    simp

end LeadingBits
