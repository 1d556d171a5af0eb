import Megalo.Util.Digits

/-!
# `strtol` and `atoi`

The numbers that the C library reads at the beginning of a string: blanks, a sign, and digits up to the first character
that is none. `strtol_digits` is what `strtol` gives for digits with something else behind them.
-/

namespace Megalo

/-- `isspace`. -/
def isspace (c : UInt8) : Bool := c = 32 || (9 ≤ c && c ≤ 13)

/-- A digit of the base, of 16 at most. -/
def isDigitIn (base : Nat) (c : UInt8) : Bool := isxdigit c && (xdigitValue c).toNat < base

/-- The digits of base 16 may have `0x` or `0X` in front. -/
def skipPrefix : List UInt8 → List UInt8
  | 48 :: x :: c :: s => if (x = 120 || x = 88) && isxdigit c then c :: s else 48 :: x :: c :: s
  | s => s

/-- A number behind its sign. -/
def unsignedNumber (base : Nat) (s : List UInt8) : Nat :=
  digitsValue base ((if base = 16 then skipPrefix s else s).takeWhile (isDigitIn base))

/-- `strtol`, for base 10 or 16: a number that is no `long` becomes the nearest one. -/
def strtol (base : Nat) (s : List UInt8) : Int :=
  let number : Int := match s.dropWhile isspace with
    | 45 :: s => -(unsignedNumber base s : Int)
    | 43 :: s => unsignedNumber base s
    | s => unsignedNumber base s
  max (-2 ^ 63) (min (2 ^ 63 - 1) number)

/-- The conversion of a `long` to an `int`. -/
def longToInt (n : Int) : Int := n.bmod 0x100000000

/-- `atoi`, which is not defined for a number that is no `int`. -/
def atoi (s : List UInt8) : Option Int :=
  let n := strtol 10 s
  if -2 ^ 31 ≤ n ∧ n < 2 ^ 31 then some n else none

variable {base : Nat} {c : UInt8} {ds rest : List UInt8}

/-- A digit is neither a blank, nor a sign, nor the letter of a prefix. -/
theorem isDigitIn_cases (h : isDigitIn base c = true) :
    isspace c = false ∧ c ≠ 45 ∧ c ≠ 43 ∧ c ≠ 120 ∧ c ≠ 88 := by
  rw [isDigitIn, Bool.and_eq_true] at h
  have hnot : ∀ d, isxdigit d = false → c ≠ d := by
    rintro _ hd rfl
    rw [h.1] at hd
    cases hd
  refine ⟨?_, hnot 45 (by decide), hnot 43 (by decide), hnot 120 (by decide), hnot 88 (by decide)⟩
  have hx := h.1
  simp only [isxdigit, isspace, Bool.or_eq_true, Bool.and_eq_true, Bool.or_eq_false_iff, Bool.and_eq_false_iff,
    decide_eq_true_eq, decide_eq_false_iff_not, UInt8.le_iff_toNat_le, ← UInt8.toNat_inj] at hx ⊢
  simp only [UInt8.reduceToNat] at hx ⊢
  omega

/-- Digits and what follows them have no prefix. -/
theorem skipPrefix_digits (hds : ∀ c ∈ ds, isDigitIn base c = true) (hne : ds ≠ [])
    (hrest : ∀ c ∈ rest.head?, c ≠ 120 ∧ c ≠ 88) : skipPrefix (ds ++ rest) = ds ++ rest := by
  unfold skipPrefix
  split
  · rename_i x c s heq
    have hx : x ≠ 120 ∧ x ≠ 88 := by
      cases ds with
      | nil => exact absurd rfl hne
      | cons d ds =>
        obtain ⟨-, htail⟩ := List.cons.inj heq
        cases ds with
        | nil =>
          have htail' : rest = x :: c :: s := htail
          exact hrest x (by rw [htail']; rfl)
        | cons d' ds =>
          obtain ⟨rfl, -⟩ := List.cons.inj htail
          have := isDigitIn_cases (hds d' (List.mem_cons_of_mem _ List.mem_cons_self))
          exact ⟨this.2.2.2.1, this.2.2.2.2⟩
    simp [heq, hx.1, hx.2]
  · rfl

/-- `strtol` reads the digits in front of a character that is none. -/
theorem strtol_digits (hds : ∀ c ∈ ds, isDigitIn base c = true) (hne : ds ≠ [])
    (hrest : ∀ c ∈ rest.head?, isDigitIn base c = false ∧ c ≠ 120 ∧ c ≠ 88) :
    strtol base (ds ++ rest) = min (2 ^ 63 - 1) (digitsValue base ds) := by
  have hprefix : (if base = 16 then skipPrefix (ds ++ rest) else ds ++ rest) = ds ++ rest := by
    split
    · exact skipPrefix_digits hds hne fun c hc => (hrest c hc).2
    · rfl
  have htake : (ds ++ rest).takeWhile (isDigitIn base) = ds := by
    rw [List.takeWhile_append_of_pos hds]
    cases rest with
    | nil => rw [List.takeWhile_nil, List.append_nil]
    | cons c rest =>
      rw [List.takeWhile_cons, (hrest c rfl).1]
      exact List.append_nil ds
  have hnumber : unsignedNumber base (ds ++ rest) = digitsValue base ds := by
    rw [unsignedNumber, hprefix, htake]
  cases ds with
  | nil => exact absurd rfl hne
  | cons d ds =>
    obtain ⟨hblank, hminus, hplus, -⟩ := isDigitIn_cases (hds d List.mem_cons_self)
    rw [List.cons_append] at hnumber ⊢
    have hsign : (match d :: (ds ++ rest) with
        | 45 :: s => -(unsignedNumber base s : Int)
        | 43 :: s => unsignedNumber base s
        | s => unsignedNumber base s) = (digitsValue base (d :: ds) : Int) := by
      split
      · rename_i heq
        exact absurd (List.cons.inj heq).1 hminus
      · rename_i heq
        exact absurd (List.cons.inj heq).1 hplus
      · rw [hnumber]
    simp only [strtol, List.dropWhile_cons, hblank, Bool.false_eq_true, if_false, hsign]
    omega

end Megalo
