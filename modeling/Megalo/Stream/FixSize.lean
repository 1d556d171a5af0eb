import Mathlib.Algebra.BigOperators.Intervals
import Mathlib.Algebra.Order.BigOperators.Group.Finset
import Mathlib.Algebra.Order.Ring.Int

/-!
# `readFixSize` and `writeFixSize`

- `fixSize` is the loop that the four members of `Stream` have in common, over what the calls of the underlying member
  return one after the other; each overload is the loop with its own underlying call;
- `Run.Faithful` is what a caller relies on: a positive result exactly when all bytes were transferred, else the result
  of the call that failed;
- `fixSize_ends` says how the loop ends, by induction on what is left;
- the length is counted down as an `int64_t` and returned as an `int`: `fixSize_faithful_iff` says for which lengths
  that does no harm.
-/

namespace Megalo

namespace Stream

/-- A call of the underlying member: with a place in the buffer, or with a `ByteArray`. -/
inductive Call
  | read (offset : ℕ) (length : ℤ)
  | readBa (length : ℤ)
  | write (offset : ℕ) (length : ℤ)
  | writeBa (length : ℤ)
  deriving DecidableEq

/-- What a member returns, and the underlying calls with their results. -/
structure Run where
  result : Int32
  calls : List (Call × Int32)
  deriving DecidableEq

/-- One more call before the others. -/
def Run.after (r : Run) (c : Call × Int32) : Run := { r with calls := c :: r.calls }

/-- The bytes that the calls transferred. -/
def Run.transferred (r : Run) : ℤ := (r.calls.map fun c => max 0 c.2.toInt).sum

/-- The loop; the `k`-th call returns `results k`. -/
def fixSize (call : ℕ → ℤ → Call) (results : ℕ → Int32) (length : UInt64) (k offset : ℕ) (left : ℤ) : Run :=
  if left > 0 then
    let len := (results k).toInt
    if len ≤ 0 then { result := results k, calls := [(call offset left, results k)] }
    else (fixSize call results length (k + 1) (offset + len.toNat) (left - len)).after (call offset left, results k)
  else { result := length.toUInt32.toInt32, calls := [] }
termination_by left.toNat

/-- `readFixSize(buffer, length)`. -/
def readFixSize (results : ℕ → Int32) (length : UInt64) : Run :=
  fixSize .read results length 0 0 length.toInt64.toInt

/-- `readFixSize(ba, length)`. -/
def readFixSizeBa (results : ℕ → Int32) (length : UInt64) : Run :=
  fixSize (fun _ => .readBa) results length 0 0 length.toInt64.toInt

/-- `writeFixSize(buffer, length)`. -/
def writeFixSize (results : ℕ → Int32) (length : UInt64) : Run :=
  fixSize .write results length 0 0 length.toInt64.toInt

/-- `writeFixSize(ba, length)`. -/
def writeFixSizeBa (results : ℕ → Int32) (length : UInt64) : Run :=
  fixSize (fun _ => .writeBa) results length 0 0 length.toInt64.toInt

/-- The four members. -/
inductive Overload
  | readBuffer
  | readByteArray
  | writeBuffer
  | writeByteArray

def Overload.run : Overload → (ℕ → Int32) → UInt64 → Run
  | readBuffer => readFixSize
  | readByteArray => readFixSizeBa
  | writeBuffer => writeFixSize
  | writeByteArray => writeFixSizeBa

/-- The result is positive exactly when all bytes were transferred, else it is that of the call that failed. -/
def Run.Faithful (r : Run) (length : UInt64) : Prop :=
  (0 < r.result.toInt ↔ (length.toNat : ℤ) ≤ r.transferred) ∧
    ((length.toNat : ℤ) > r.transferred → ∃ c, r.calls.getLast? = some c ∧ r.result = c.2 ∧ c.2.toInt ≤ 0)

/-- What the first `n` calls return, in sum. -/
def sent (results : ℕ → Int32) (n : ℕ) : ℤ := ∑ i ∈ Finset.range n, (results i).toInt

/-- A call fails before all bytes are transferred, and those in front of it do not. -/
def FailsEarly (results : ℕ → Int32) (length : UInt64) : Prop :=
  ∃ n, (∀ i < n, 0 < (results i).toInt) ∧ (results n).toInt ≤ 0 ∧ sent results n < length.toNat

section

variable {call : ℕ → ℤ → Call} {results : ℕ → Int32} {length : UInt64} {n m : ℕ}

theorem sent_succ : sent results (n + 1) = sent results n + (results n).toInt := Finset.sum_range_succ _ _

/-- Calls that do not fail add to what was sent. -/
theorem sent_mono (h : ∀ i < m, 0 < (results i).toInt) (hnm : n ≤ m) : sent results n ≤ sent results m := by
  induction m, hnm using Nat.le_induction with
  | base => exact le_refl _
  | succ m hnm ih =>
    have hm := h m (Nat.lt_succ_self m)
    rw [sent_succ]
    exact le_add_of_le_of_nonneg (ih fun i hi => h i (Nat.lt_succ_of_lt hi)) hm.le

theorem Run.transferred_after (r : Run) (c : Call) (len : Int32) :
    (r.after (c, len)).transferred = max 0 len.toInt + r.transferred := by
  simp only [Run.transferred, Run.after, List.map_cons, List.sum_cons]

/-- How the loop ends behind the calls before the `n`-th one: nothing is left, or that call fails. -/
structure Ends (results : ℕ → Int32) (length : UInt64) (k : ℕ) (left : ℤ) (r : Run) (n : ℕ) : Prop where
  le : k ≤ n
  positive : ∀ i, k ≤ i → i < n → 0 < (results i).toInt
  transferred : r.transferred = sent results n - sent results k
  result : left ≤ sent results n - sent results k ∧ r.result = length.toUInt32.toInt32 ∨
    (results n).toInt ≤ 0 ∧ sent results n - sent results k < left ∧ r.result = results n ∧
      ∃ c, r.calls.getLast? = some (c, results n)

variable (call results length) in
theorem fixSize_ends (k offset : ℕ) (left : ℤ) :
    ∃ n, Ends results length k left (fixSize call results length k offset left) n := by
  rw [fixSize]
  split
  · rename_i hleft
    dsimp only
    split
    · rename_i hlen
      refine ⟨k, le_refl k, fun i hi hik => absurd hik (not_lt.2 hi), ?_, .inr ⟨hlen, by omega, rfl, _, rfl⟩⟩
      simp [Run.transferred, hlen]
    · rename_i hlen
      obtain ⟨n, hn⟩ := fixSize_ends (k + 1) (offset + (results k).toInt.toNat) (left - (results k).toInt)
      have hsent : sent results (k + 1) = sent results k + (results k).toInt := sent_succ
      refine ⟨n, Nat.le_of_succ_le hn.le, fun i hi hin => ?_, ?_, ?_⟩
      · rcases Nat.eq_or_lt_of_le hi with rfl | hki
        · omega
        · exact hn.positive i hki hin
      · rw [Run.transferred_after, hn.transferred]
        omega
      · rcases hn.result with ⟨hle, hresult⟩ | ⟨hfail, hlt, hresult, c, hlast⟩
        · exact .inl ⟨by omega, hresult⟩
        · refine .inr ⟨hfail, by omega, hresult, c, ?_⟩
          rw [Run.after, List.getLast?_cons, hlast]
          rfl
  · rename_i hleft
    refine ⟨k, le_refl k, fun i hi hik => absurd hik (not_lt.2 hi), ?_, .inl ⟨by omega, rfl⟩⟩
    simp [Run.transferred]
termination_by left.toNat

/-! ## The length as an `int64_t` and as an `int` -/

theorem left_eq : length.toInt64.toInt = (length.toNat : ℤ).bmod (2 ^ 64) :=
  BitVec.toInt_eq_toNat_bmod length.toBitVec

theorem left_of_lt (h : length.toNat < 2 ^ 63) : length.toInt64.toInt = length.toNat := by
  rw [left_eq, Int.bmod_eq_of_le] <;> omega

theorem left_neg (h : 2 ^ 63 ≤ length.toNat) : length.toInt64.toInt < 0 := by
  have hlt := length.toNat_lt
  rw [left_eq, Int.bmod_def]
  omega

theorem result_pos_iff : 0 < length.toUInt32.toInt32.toInt ↔
    0 < length.toNat % 2 ^ 32 ∧ length.toNat % 2 ^ 32 < 2 ^ 31 := by
  have heq : length.toUInt32.toInt32.toInt = ((length.toNat % 2 ^ 32 : ℕ) : ℤ).bmod (2 ^ 32) := by
    have hnat : (length.toBitVec.setWidth 32).toNat = length.toNat % 2 ^ 32 := BitVec.toNat_setWidth 32 _
    rw [← hnat]
    exact BitVec.toInt_eq_toNat_bmod _
  rw [heq, Int.bmod_def]
  omega

/-! ## What is reported -/

theorem fixSize_faithful_iff (call : ℕ → ℤ → Call) (results : ℕ → Int32) (length : UInt64) :
    (fixSize call results length 0 0 length.toInt64.toInt).Faithful length ↔
      length.toNat < 2 ^ 63 ∧
        (0 < length.toNat % 2 ^ 32 ∧ length.toNat % 2 ^ 32 < 2 ^ 31 ∨ FailsEarly results length) := by
  rcases Nat.lt_or_ge length.toNat (2 ^ 63) with hlt | hge
  · rw [and_iff_right hlt, ← result_pos_iff, left_of_lt hlt]
    obtain ⟨n, hn⟩ := fixSize_ends call results length 0 0 length.toNat
    generalize fixSize call results length 0 0 length.toNat = r at hn
    have hpositive : ∀ i < n, 0 < (results i).toInt := fun i => hn.positive i (Nat.zero_le i)
    have htransferred := hn.transferred
    have hzero : sent results 0 = 0 := Finset.sum_range_zero _
    rcases hn.result with ⟨hle, hresult⟩ | ⟨hfail, hleft, hresult, c, hlast⟩
    · -- all is transferred, so what is left is the conversion of the length
      have hnot : ¬FailsEarly results length := by
        rintro ⟨m, hm, hmfail, hmsent⟩
        rcases Nat.lt_or_ge m n with hmn | hnm
        · exact absurd (hpositive m hmn) (not_lt.2 hmfail)
        · have := sent_mono hm hnm
          omega
      rw [or_iff_left hnot, Run.Faithful, hresult]
      constructor
      · intro h
        exact h.1.2 (by omega)
      · intro h
        exact ⟨iff_of_true h (by omega), fun hgt => absurd hgt (by omega)⟩
    · have hearly : FailsEarly results length := ⟨n, hpositive, hfail, by omega⟩
      refine iff_of_true ⟨iff_of_false ?_ (by omega), fun _ => ⟨_, hlast, hresult, hfail⟩⟩ (.inr hearly)
      rw [hresult]
      exact not_lt.2 hfail
  · refine iff_of_false ?_ fun h => absurd h.1 (not_lt.2 hge)
    rintro ⟨-, h⟩
    have hneg := left_neg hge
    rw [fixSize, if_neg (by omega)] at h
    obtain ⟨c, hlast, -⟩ := h (by
      show (length.toNat : ℤ) > 0
      omega)
    cases hlast

end

end Stream

/-- **Fixed-size transfers.** For every length and all results of the underlying calls, each of the four members reports
faithfully exactly when the length fits an `int64_t` and either is positive as an `int` too or a call fails before all
bytes are transferred. -/
theorem fix_size_faithful_iff (op : Stream.Overload) (results : ℕ → Int32) (length : UInt64) :
    (op.run results length).Faithful length ↔
      length.toNat < 2 ^ 63 ∧ (0 < length.toNat % 2 ^ 32 ∧ length.toNat % 2 ^ 32 < 2 ^ 31 ∨
        Stream.FailsEarly results length) := by
  cases op with
  | readBuffer | readByteArray | writeBuffer | writeByteArray => exact Stream.fixSize_faithful_iff _ results length

/-- Two calls transfer the 2^31 bytes that were asked for, and the result is negative. -/
theorem fix_size_negative :
    (Stream.readFixSize (fun _ => 0x40000000) 0x80000000).calls =
        [(.read 0 0x80000000, 0x40000000), (.read 0x40000000 0x40000000, 0x40000000)] ∧
      (Stream.readFixSize (fun _ => 0x40000000) 0x80000000).result = -0x80000000 ∧
      ¬ (Stream.readFixSize (fun _ => 0x40000000) 0x80000000).Faithful 0x80000000 := by
  have hleft : (0x80000000 : UInt64).toInt64.toInt = 0x80000000 := Stream.left_of_lt (by decide)
  have hlen : (0x40000000 : Int32).toInt = 0x40000000 := by decide
  refine ⟨?_, ?_, fun h => ?_⟩
  · rw [Stream.readFixSize, hleft]
    simp [Stream.fixSize, hlen, Stream.Run.after]
  · rw [Stream.readFixSize, hleft]
    simp [Stream.fixSize, hlen, Stream.Run.after]
  · have hcond := ((Stream.fixSize_faithful_iff .read _ _).1 h).2
    rcases hcond with hint | ⟨n, -, hfail, -⟩
    · exact absurd hint.2 (by decide)
    · rw [hlen] at hfail
      exact absurd hfail (by decide)

end Megalo
