import Mathlib.Logic.Function.Basic
import Mathlib.Data.List.Basic

/-!
# Loops over elements with keys of their own

`run key f l m` goes through the elements of `l` and changes the entry of each one's key in the table `m`, which may
fail. When no two elements have one key, an element finds its entry as it was before the loop and leaves it as it is
after it, and the other entries stay (`run_spec`); and it is found by its key (`find_eq`).
-/

namespace KeyedLoop

variable {α K V : Type*} [DecidableEq K] (key : α → K) (f : α → V → Option V)

/-- Change the entry of each element's key. -/
def run : List α → (K → V) → Option (K → V)
  | [], m => some m
  | i :: l, m => (f i (m (key i))).bind fun v => run l (Function.update m (key i) v)

variable {key f} {l : List α} {m m' : K → V}

theorem run_spec (hd : l.Pairwise fun i j => key i ≠ key j) (h : run key f l m = some m') (k : K) :
    (∀ i ∈ l, key i = k → f i (m k) = some (m' k)) ∧ ((∀ i ∈ l, key i ≠ k) → m' k = m k) := by
  induction l generalizing m with
  | nil =>
    cases h
    exact ⟨fun i hi => absurd hi List.not_mem_nil, fun _ => rfl⟩
  | cons i l ih =>
    obtain ⟨hi, hl⟩ := List.pairwise_cons.1 hd
    obtain ⟨v, hv, hrun⟩ := Option.bind_eq_some_iff.1 h
    obtain ⟨hmem, hnot⟩ := ih hl hrun
    by_cases hk : key i = k
    · -- the first element has the key, and no other one
      subst hk
      have hend : m' (key i) = v := by rw [hnot fun j hj => (hi j hj).symm, Function.update_self]
      refine ⟨fun j hj hjk => ?_, fun h' => absurd rfl (h' i List.mem_cons_self)⟩
      rcases List.mem_cons.1 hj with rfl | hj
      · rw [hv, hend]
      · exact absurd hjk.symm (hi j hj)
    · rw [Function.update_of_ne (Ne.symm hk)] at hmem hnot
      refine ⟨fun j hj hjk => ?_, fun h' => hnot fun j hj => h' j (List.mem_cons_of_mem _ hj)⟩
      rcases List.mem_cons.1 hj with rfl | hj
      · exact absurd hjk hk
      · exact hmem j hj hjk

/-- The element with a key is found by it. -/
theorem find_eq {i : α} (hd : l.Pairwise fun i j => key i ≠ key j) (hi : i ∈ l) :
    (l.find? fun j => key j = key i) = some i := by
  induction l with
  | nil => cases hi
  | cons j l ih =>
    obtain ⟨hj, hl⟩ := List.pairwise_cons.1 hd
    rcases List.mem_cons.1 hi with rfl | hi
    · rw [List.find?_cons_of_pos (by simp)]
    · rw [List.find?_cons_of_neg (by simpa using hj i hi), ih hl hi]

end KeyedLoop
