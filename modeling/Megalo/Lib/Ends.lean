import Mathlib.Data.List.DropRight

/-!
# Lists without their ends

- `LongestSuffix p l t` says that `t` is the longest suffix of `l` that does not begin with an element of `p`, and
  `LongestPrefix` the same of the other end: they are `List.dropWhile` and `List.rdropWhile` (`longestSuffix_iff`,
  `longestPrefix_iff`);
- `first` and `last` are the places of the first and the last element that is not of `p`, and what these cut off is what
  is dropped (`drop_first`, `take_last`, `slice_first_last`).
-/

namespace Ends

variable {α : Type*} (p : α → Bool) (l : List α)

/-! ## The longest suffix and the longest prefix -/

/-- The longest suffix that does not begin with an element of `p`. -/
structure LongestSuffix (t : List α) : Prop where
  suffix : t <:+ l
  head : ∀ c ∈ t.head?, p c = false
  longest : ∀ t', t' <:+ l → (∀ c ∈ t'.head?, p c = false) → t'.length ≤ t.length

/-- The longest prefix that does not end with an element of `p`. -/
structure LongestPrefix (t : List α) : Prop where
  front : t <+: l
  last : ∀ c ∈ t.getLast?, p c = false
  longest : ∀ t', t' <+: l → (∀ c ∈ t'.getLast?, p c = false) → t'.length ≤ t.length

variable {p l} {t : List α}

theorem head_dropWhile : ∀ c ∈ (l.dropWhile p).head?, p c = false := by
  intro c hc
  have h := List.head?_dropWhile_not p l
  rw [Option.mem_def.mp hc] at h
  exact h

/-- A suffix that does not begin with an element of `p` is behind those that are dropped. -/
theorem suffix_dropWhile (ht : t <:+ l) (hhead : ∀ c ∈ t.head?, p c = false) : t <:+ l.dropWhile p := by
  induction l with
  | nil => exact ht
  | cons c l ih =>
    rcases List.suffix_cons_iff.mp ht with rfl | ht
    · have hc := hhead c rfl
      have heq : (c :: l).dropWhile p = c :: l := List.dropWhile_cons_of_neg (by simp [hc])
      exact heq.symm ▸ List.suffix_refl (c :: l)
    · rw [List.dropWhile_cons]
      split
      · exact ih ht
      · exact ht.trans (List.suffix_cons c l)

theorem longestSuffix_iff : LongestSuffix p l t ↔ t = l.dropWhile p := by
  constructor
  · intro h
    have hlong := h.longest _ (List.dropWhile_suffix p) head_dropWhile
    exact (suffix_dropWhile h.suffix h.head).eq_of_length_le hlong
  · rintro rfl
    exact ⟨List.dropWhile_suffix p, head_dropWhile, fun t' ht' hhead => (suffix_dropWhile ht' hhead).length_le⟩

/-- The other end is that of the reversed list. -/
theorem longestPrefix_reverse : LongestPrefix p l t ↔ LongestSuffix p l.reverse t.reverse := by
  constructor
  · intro h
    refine ⟨List.reverse_suffix.mpr h.front, fun c hc => h.last c (by rwa [List.head?_reverse] at hc), ?_⟩
    intro t' ht' hhead
    have hlen := h.longest t'.reverse (List.reverse_suffix.mp (by rwa [List.reverse_reverse])) fun c hc =>
      hhead c (by rwa [List.getLast?_reverse] at hc)
    rwa [List.length_reverse] at hlen ⊢
  · intro h
    refine ⟨List.reverse_suffix.mp h.suffix, fun c hc => h.head c (by rwa [List.head?_reverse]), ?_⟩
    intro t' ht' hlast
    have hlen := h.longest t'.reverse (List.reverse_suffix.mpr ht') fun c hc =>
      hlast c (by rwa [List.head?_reverse] at hc)
    rwa [List.length_reverse, List.length_reverse] at hlen

theorem longestPrefix_iff : LongestPrefix p l t ↔ t = l.rdropWhile p := by
  rw [longestPrefix_reverse, longestSuffix_iff, List.rdropWhile, List.reverse_eq_iff]

theorem rdropWhile_append_of_last {s : List α} (h : ∃ c ∈ s, p c = false) :
    (l ++ s).rdropWhile p = l ++ s.rdropWhile p := by
  have hne : ¬ (s.reverse.dropWhile p).isEmpty = true := by
    obtain ⟨c, hc, hp⟩ := h
    rw [List.isEmpty_iff, List.dropWhile_eq_nil_iff]
    intro hall
    have := hall c (List.mem_reverse.mpr hc)
    rw [hp] at this
    cases this
  rw [List.rdropWhile, List.reverse_append, List.dropWhile_append, if_neg hne, List.reverse_append,
    List.reverse_reverse, List.rdropWhile]

/-! ## Their places -/

variable (p l)

/-- The place of the first element that is not of `p`. -/
def first : Option ℕ := l.findIdx? fun c => !p c

/-- The place of the last element that is not of `p`. -/
def last : Option ℕ := (l.reverse.findIdx? fun c => !p c).map fun i => l.length - 1 - i

variable {p l} {i : ℕ}

theorem first_eq_none : first p l = none ↔ ∀ c ∈ l, p c = true := by
  simp [first]

theorem last_eq_none : last p l = none ↔ ∀ c ∈ l, p c = true := by
  simp [last]

theorem drop_first (h : first p l = some i) : l.drop i = l.dropWhile p := by
  obtain ⟨-, hi⟩ := List.findIdx?_eq_some_iff_findIdx_eq.mp h
  rw [List.dropWhile_eq_drop_findIdx_not, hi]

theorem take_last (h : last p l = some i) : l.take (i + 1) = l.rdropWhile p := by
  obtain ⟨j, hj, rfl⟩ := Option.map_eq_some_iff.mp h
  have hlt := (List.findIdx?_eq_some_iff_findIdx_eq.mp hj).1
  rw [List.length_reverse] at hlt
  have hdrop : l.reverse.drop j = l.reverse.dropWhile p := drop_first hj
  rw [List.rdropWhile, ← hdrop, List.drop_reverse, List.reverse_reverse]
  congr 1
  omega

/-- What is between the two places. -/
theorem slice_first_last {j : ℕ} (hi : first p l = some i) (hj : last p l = some j) :
    (l.drop i).take (j - i + 1) = (l.dropWhile p).rdropWhile p := by
  obtain ⟨hlt, hidx⟩ := List.findIdx?_eq_some_iff_findIdx_eq.mp hi
  have hlen : (l.takeWhile p).length = i := by
    rw [List.takeWhile_eq_take_findIdx_not, hidx, List.length_take, Nat.min_eq_left hlt.le]
  have hsome : ∃ c ∈ l.dropWhile p, p c = false := by
    by_contra hnot
    have hall : ∀ c ∈ l.dropWhile p, p c = true := by simpa using hnot
    have hnil := List.dropWhile_eq_nil_iff.mpr hall
    rw [List.dropWhile_idempotent, ← drop_first hi, List.drop_eq_nil_iff] at hnil
    exact absurd hlt (Nat.not_lt.mpr hnil)
  have htake : l.take (j + 1) = l.takeWhile p ++ (l.dropWhile p).rdropWhile p := by
    rw [take_last hj, ← rdropWhile_append_of_last hsome, List.takeWhile_append_dropWhile]
  have hpos : 0 < ((l.dropWhile p).rdropWhile p).length := by
    obtain ⟨c, hc, hp⟩ := hsome
    rw [List.length_pos_iff, Ne, List.rdropWhile_eq_nil_iff]
    intro hall
    rw [hall c hc] at hp
    cases hp
  have hle : i < j + 1 := by
    have hlength := congrArg List.length htake
    rw [List.length_append, hlen, List.length_take] at hlength
    omega
  rw [show j - i + 1 = j + 1 - i by omega, ← List.drop_take, htake, ← hlen, List.drop_left]

end Ends
