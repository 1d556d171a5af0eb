import Megalo.IOManager.Loop
import Mathlib.Logic.Function.Iterate

/-!
# How long `idle` waits

`idle` bounds the distance to the next timer and hands it to `epoll_wait`, and again as long as the wait is interrupted.
`clampTimeout` is the bounding, which is done once in every round, and `passedTimeout` the argument of a round; it is
the same in all of them (`passedTimeout_eq`). `passedTimeout_min_iff` says for which distances it is the distance, or
a second when that is less.
-/

namespace Megalo

universe u

variable {γ : Type u}

open MachineInt

/-- `next_timeout` after it has been bounded by `MAX_TIMEOUT`. -/
def clampTimeout (nextTimeout : UInt64) : UInt64 :=
  if nextTimeout ≠ ~~~0 then if intSize nextTimeout.toNat > 1000 then 1000 else nextTimeout else 1000

/-- The `int` that `epoll_wait` is given when it has been interrupted `k` times. -/
def passedTimeout (nextTimeout : UInt64) (k : Nat) : Int := intSize (clampTimeout^[k + 1] nextTimeout).toNat

/-- Bounding twice is bounding once. -/
theorem clampTimeout_clampTimeout (d : UInt64) : clampTimeout (clampTimeout d) = clampTimeout d := by
  have hmax : clampTimeout 1000 = 1000 := by decide
  by_cases hd : d = ~~~0
  · have hclamp : clampTimeout d = 1000 := by
      rw [clampTimeout, if_neg (not_not.2 hd)]
    rw [hclamp, hmax]
  · by_cases hlt : intSize d.toNat > 1000
    · have hclamp : clampTimeout d = 1000 := by
        rw [clampTimeout, if_pos hd, if_pos hlt]
      rw [hclamp, hmax]
    · have hclamp : clampTimeout d = d := by
        rw [clampTimeout, if_pos hd, if_neg hlt]
      rw [hclamp, hclamp]

theorem clampTimeout_iterate (d : UInt64) (k : Nat) : clampTimeout^[k + 1] d = clampTimeout d := by
  induction k with
  | zero => rfl
  | succ k ih => rw [Function.iterate_succ_apply', ih, clampTimeout_clampTimeout]

/-- Every round waits for the same time. -/
theorem passedTimeout_eq (d : UInt64) (k : Nat) : passedTimeout d k = epollTimeout d := by
  have hmax : intSize (1000 : UInt64).toNat = 1000 := by decide
  rw [passedTimeout, clampTimeout_iterate]
  unfold clampTimeout epollTimeout
  by_cases hd : d = ~~~0
  · rw [if_neg (not_not.2 hd), if_pos hd, hmax]
  · rw [if_pos hd, if_neg hd]
    split
    · exact hmax
    · rfl

/-- The wait is the distance, bounded by a second, unless the `int` is some other number up to a second. -/
theorem epollTimeout_min_iff (d : UInt64) : epollTimeout d = min d.toNat 1000 ↔
    d.toNat ≤ 1000 ∨ d = ~~~0 ∨ 1000 ≤ d.toNat % 0x100000000 ∧ d.toNat % 0x100000000 < intLimit := by
  have hint := intSize_eq d.toNat
  unfold intLimit at hint ⊢
  unfold epollTimeout
  by_cases hd : d = ~~~0
  · have hmax : (~~~0 : UInt64).toNat = 0xffffffffffffffff := by decide
    rw [if_pos hd, hd, hmax]
    simp
  · simp only [hd, if_false, false_or]
    split at hint <;> split <;> omega

/-- A timer that is due in 2³¹ milliseconds: the `int` has a sign, and the wait has no end. -/
theorem passedTimeout_far : ∃ m : TimerManager Nat, (timerSys Nat).Reachable m ∧
    passedTimeout (m.getNextTimer 0).1 0 ≠ min (m.getNextTimer 0).1.toNat 1000 := by
  obtain ⟨m, hm, hp⟩ := (timerSys Nat).reachable_of_exec (TimerManager.new (fun _ => Timer.ofNext 0) 0)
    ⟨_, _, rfl⟩ [.addTimer 0 0x80000000 7 false 10] (p := fun m => (m.getNextTimer 0).1 == 0x80000000) (by decide)
  rw [beq_iff_eq] at hp
  refine ⟨m, hm, ?_⟩
  rw [hp, passedTimeout_eq]
  decide

/-- **The timeout of `epoll_wait`.** For every timer set, every clock reading and every round, it is the distance that
`getNextTimer` returns, bounded by a second, when that is at most a second or the largest number, which stands for no
timer, or when its low 32 bits are a positive `int` of at least a second; and else it is not. -/
theorem passedTimeout_min_iff (m : TimerManager γ) (now : UInt64) (k : Nat) :
    passedTimeout (m.getNextTimer now).1 k = min (m.getNextTimer now).1.toNat 1000 ↔
      (m.getNextTimer now).1.toNat ≤ 1000 ∨ (m.getNextTimer now).1 = ~~~0 ∨
        1000 ≤ (m.getNextTimer now).1.toNat % 0x100000000 ∧
          (m.getNextTimer now).1.toNat % 0x100000000 < 0x80000000 := by
  rw [passedTimeout_eq]
  exact epollTimeout_min_iff _

end Megalo
