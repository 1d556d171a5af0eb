import Megalo.Lib.Ends
import Megalo.Util.Url

/-!
# `Trim`, `TrimLeft` and `TrimRight`

- `trim`, `trimLeft` and `trimRight` look for the first and the last character that is not in `delimit`, where `npos` is
  `none`, and take the part of the text that these give;
- `trimLeft` and `trim` take off the delimiters (`trimLeft_eq`, `trim_eq`), and `trimRight` the last character in front
  of them too (`trimRight_eq`). So the three agree only on a text that has nothing but delimiters
  (`trim_consistent_iff`).
-/

namespace Megalo

namespace StringUtil

/-- `find_first_not_of`. -/
def findFirstNotOf (str delimit : List UInt8) : Option ℕ := Ends.first (fun c => delimit.contains c) str

/-- `find_last_not_of`. -/
def findLastNotOf (str delimit : List UInt8) : Option ℕ := Ends.last (fun c => delimit.contains c) str

/-- `substr`. -/
def substr (str : List UInt8) (pos n : ℕ) : List UInt8 := (str.drop pos).take n

/-- `Trim`. Where there is a first character that is not in `delimit`, there is a last one. -/
def trim (str delimit : List UInt8) : List UInt8 :=
  match findFirstNotOf str delimit, findLastNotOf str delimit with
  | some first, some last => substr str first (last - first + 1)
  | _, _ => []

/-- `TrimLeft`. -/
def trimLeft (str delimit : List UInt8) : List UInt8 :=
  match findFirstNotOf str delimit with
  | some first => str.drop first
  | none => []

/-- `TrimRight`. -/
def trimRight (str delimit : List UInt8) : List UInt8 :=
  match findLastNotOf str delimit with
  | some last => substr str 0 last
  | none => []

/-- What the three functions are to do with a text. -/
structure Trims (str delimit : List UInt8) : Prop where
  left : Ends.LongestSuffix (fun c => delimit.contains c) str (trimLeft str delimit)
  right : Ends.LongestPrefix (fun c => delimit.contains c) str (trimRight str delimit)
  leftOfRight : trim str delimit = trimLeft (trimRight str delimit) delimit
  rightOfLeft : trim str delimit = trimRight (trimLeft str delimit) delimit

variable {str delimit : List UInt8}

theorem trimLeft_eq : trimLeft str delimit = str.dropWhile fun c => delimit.contains c := by
  unfold trimLeft
  cases h : findFirstNotOf str delimit with
  | some first => exact Ends.drop_first h
  | none => exact (List.dropWhile_eq_nil_iff.mpr (Ends.first_eq_none.mp h)).symm

/-- The character in front of the delimiters goes with them. -/
theorem trimRight_eq : trimRight str delimit = (str.rdropWhile fun c => delimit.contains c).dropLast := by
  unfold trimRight
  cases h : findLastNotOf str delimit with
  | some last =>
    have htake := Ends.take_last h
    have hlt : last + 1 ≤ str.length := by
      obtain ⟨j, hj, rfl⟩ := Option.map_eq_some_iff.mp h
      have hlt := (List.findIdx?_eq_some_iff_findIdx_eq.mp hj).1
      rw [List.length_reverse] at hlt
      omega
    rw [← htake, List.dropLast_eq_take, List.length_take, Nat.min_eq_left hlt, Nat.add_sub_cancel, List.take_take,
      Nat.min_eq_left (Nat.le_succ last)]
    rfl
  | none => rw [List.rdropWhile_eq_nil_iff.mpr (Ends.last_eq_none.mp h), List.dropLast_nil]

theorem trim_eq : trim str delimit =
    (str.dropWhile fun c => delimit.contains c).rdropWhile fun c => delimit.contains c := by
  unfold trim
  cases hi : findFirstNotOf str delimit with
  | some first =>
    cases hj : findLastNotOf str delimit with
    | some last => exact Ends.slice_first_last hi hj
    | none =>
      have hnone : findFirstNotOf str delimit = none := Ends.first_eq_none.mpr (Ends.last_eq_none.mp hj)
      rw [hi] at hnone
      cases hnone
  | none =>
    rw [List.dropWhile_eq_nil_iff.mpr (Ends.first_eq_none.mp hi)]
    rfl

end StringUtil

/-- **Trimming**: the three functions do what they are to do exactly with the texts of nothing but delimiters. -/
theorem trim_consistent_iff (str delimit : List UInt8) : StringUtil.Trims str delimit ↔ ∀ c ∈ str, c ∈ delimit := by
  constructor
  · intro h
    have hright := Ends.longestPrefix_iff.mp h.right
    rw [StringUtil.trimRight_eq] at hright
    have hlen := congrArg List.length hright
    rw [List.length_dropLast] at hlen
    have hnil : (str.rdropWhile fun c => delimit.contains c) = [] := List.eq_nil_of_length_eq_zero (by omega)
    intro c hc
    simpa using List.rdropWhile_eq_nil_iff.mp hnil c hc
  · intro h
    have hall : ∀ c ∈ str, delimit.contains c = true := by simpa using h
    have hleft : StringUtil.trimLeft str delimit = [] := by
      rw [StringUtil.trimLeft_eq, List.dropWhile_eq_nil_iff.mpr hall]
    have hright : StringUtil.trimRight str delimit = [] := by
      rw [StringUtil.trimRight_eq, List.rdropWhile_eq_nil_iff.mpr hall, List.dropLast_nil]
    have htrim : StringUtil.trim str delimit = [] := by
      rw [StringUtil.trim_eq, List.dropWhile_eq_nil_iff.mpr hall, List.rdropWhile_nil]
    refine ⟨?_, ?_, ?_, ?_⟩
    · rw [Ends.longestSuffix_iff, StringUtil.trimLeft_eq]
    · rw [Ends.longestPrefix_iff, hright, List.rdropWhile_eq_nil_iff.mpr hall]
    · rw [htrim, hright]
      rfl
    · rw [htrim, hleft]
      rfl

/-- The text `a` without a delimiter: `TrimRight` leaves nothing of it. -/
theorem trimRight_drops : StringUtil.trimRight (bytes "a") (bytes " ") = [] ∧
    ¬ StringUtil.Trims (bytes "a") (bytes " ") := by
  have hlast : ∀ c ∈ (bytes "a").getLast?, (bytes " ").contains c = false := by
    intro c hc
    obtain rfl : 97 = c := Option.some.inj hc
    decide
  refine ⟨by decide, fun h => ?_⟩
  have hlong := h.right.longest (bytes "a") (List.prefix_refl _) hlast
  exact absurd hlong (by decide)

end Megalo
