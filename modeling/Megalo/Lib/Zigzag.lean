import Mathlib.Data.List.Basic

/-!
# The zigzag code

The zigzag code of a signed number of `w` bits: the even numbers for those from 0 on, the odd ones for the negative.

- `zigzag` and `unzigzag` are the code and its inverse, between integers and natural numbers (`unzigzag_zigzag`,
  `zigzag_unzigzag`);
- `encode` and `decode` are how machine integers compute them (`toNat_encode`, `toInt_decode`).
-/

namespace Zigzag

/-- The code of an integer. -/
def zigzag (x : Int) : Nat := if x < 0 then (-2 * x - 1).toNat else (2 * x).toNat

/-- The integer of a code. -/
def unzigzag (n : Nat) : Int := if n % 2 = 0 then n / 2 else -(n / 2) - 1

theorem unzigzag_zigzag (x : Int) : unzigzag (zigzag x) = x := by
  unfold zigzag
  split
  · rw [unzigzag, if_neg (by omega)]
    omega
  · rw [unzigzag, if_pos (by omega)]
    omega

theorem zigzag_unzigzag (n : Nat) : zigzag (unzigzag n) = n := by
  unfold unzigzag
  split
  · rw [zigzag, if_neg (by omega)]
    omega
  · rw [zigzag, if_pos (by omega)]
    omega

variable {w : Nat}

/-- `(-v) * 2 - 1` of a negative number, `v * 2` of another. -/
def encode (v : BitVec w) : BitVec w := if v.toInt < 0 then -v * 2#w - 1#w else v * 2#w

/-- `(v >> 1) ^ -(v & 1)`. -/
def decode (v : BitVec w) : BitVec w := (v >>> 1) ^^^ -(v &&& 1#w)

theorem toNat_encode (hw : 1 < w) (v : BitVec w) : (encode v).toNat = zigzag v.toInt := by
  have hpow : 2 ^ w = 2 * 2 ^ (w - 1) := by
    rw [← Nat.pow_succ', Nat.succ_eq_add_one, Nat.sub_add_cancel (by omega)]
  have htwo : 2 ≤ 2 ^ (w - 1) := by
    calc 2 = 2 ^ 1 := rfl
      _ ≤ 2 ^ (w - 1) := Nat.pow_le_pow_right (by decide) (by omega)
  have hlt := v.isLt
  have hcond := v.toInt_eq_toNat_cond
  unfold encode zigzag
  generalize 2 ^ (w - 1) = half at *
  split
  · rename_i hneg
    have hbig : ¬ 2 * v.toNat < 2 ^ w := by
      intro hsmall
      rw [if_pos hsmall] at hcond
      omega
    rw [if_neg hbig] at hcond
    have hsub : (2 ^ w - v.toNat) % 2 ^ w = 2 ^ w - v.toNat := Nat.mod_eq_of_lt (by omega)
    have h2 : 2 % 2 ^ w = 2 := Nat.mod_eq_of_lt (by omega)
    have h1 : 1 % 2 ^ w = 1 := Nat.mod_eq_of_lt (by omega)
    rw [BitVec.toNat_sub, BitVec.toNat_mul, BitVec.toNat_neg, BitVec.toNat_ofNat, BitVec.toNat_ofNat, hsub, h2, h1,
      hcond]
    generalize 2 ^ w = size at *
    rcases Nat.lt_or_ge ((size - v.toNat) * 2) size with h | h
    · rw [Nat.mod_eq_of_lt h]
      have : size - 1 + (size - v.toNat) * 2 = size + ((size - v.toNat) * 2 - 1) := by omega
      rw [this, Nat.add_mod_left, Nat.mod_eq_of_lt (by omega)]
      omega
    · have heq : (size - v.toNat) * 2 = size := by omega
      rw [heq, Nat.mod_self, Nat.add_zero, Nat.mod_eq_of_lt (by omega)]
      omega
  · rename_i hpos
    have hsmall : 2 * v.toNat < 2 ^ w := by
      by_contra hbig
      rw [if_neg hbig] at hcond
      generalize 2 ^ w = size at *
      omega
    rw [if_pos hsmall] at hcond
    have h2 : 2 % 2 ^ w = 2 := Nat.mod_eq_of_lt (by omega)
    rw [BitVec.toNat_mul, BitVec.toNat_ofNat, h2, hcond, Nat.mod_eq_of_lt (by omega)]
    omega

theorem toInt_decode (hw : 0 < w) (v : BitVec w) : (decode v).toInt = unzigzag v.toNat := by
  have hpow : 2 ^ w = 2 * 2 ^ (w - 1) := by
    rw [← Nat.pow_succ', Nat.succ_eq_add_one, Nat.sub_add_cancel hw]
  have hlt := v.isLt
  have hhalf : (v >>> 1).toNat = v.toNat / 2 := by
    rw [BitVec.toNat_ushiftRight, Nat.shiftRight_eq_div_pow, Nat.pow_one]
  have hbit : v.getLsbD 0 = decide (v.toNat % 2 = 1) := by
    rw [BitVec.getLsbD, Nat.testBit_zero]
  unfold decode unzigzag
  rw [BitVec.and_one_eq_setWidth_ofBool_getLsbD, hbit]
  by_cases h : v.toNat % 2 = 0
  · have hodd : decide (v.toNat % 2 = 1) = false := decide_eq_false (by omega)
    have hzero : -(BitVec.setWidth w (BitVec.ofBool false)) = 0#w := by simp
    rw [if_pos h, hodd, hzero, BitVec.xor_zero, BitVec.toInt_eq_toNat_of_lt (by rw [hhalf]; omega), hhalf]
    rfl
  · have hodd : decide (v.toNat % 2 = 1) = true := decide_eq_true (by omega)
    have hone : BitVec.setWidth w (BitVec.ofBool true) = 1#w := by
      apply BitVec.eq_of_toNat_eq
      simp
    rw [if_neg h, hodd, hone, BitVec.neg_one_eq_allOnes, BitVec.xor_allOnes, BitVec.toInt_eq_toNat_cond,
      BitVec.toNat_not, hhalf, if_neg (by omega)]
    generalize 2 ^ w = size at *
    omega

end Zigzag
