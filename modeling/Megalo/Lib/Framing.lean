import Mathlib.Data.List.Basic

/-!
# Lines and the blank line behind them

A text of lines, each followed by the terminator `a b` of two symbols, that ends with an empty line.

- `Clean a b l`: the line is not empty and has neither symbol in it;
- the first `a b a b` of such a text is where the empty line ends (`first_blank`);
- without an empty line behind them, lines are not a text of that kind (`lines_ne_append`).
-/

namespace Framing

variable {α : Type*} {a b : α} {l : List α} {ls : List (List α)}

/-- A line that is not empty and has no symbol of the terminator. -/
structure Clean (a b : α) (l : List α) : Prop where
  ne : l ≠ []
  fst : a ∉ l
  snd : b ∉ l

/-- Every line and its terminator. -/
def lines (a b : α) (ls : List (List α)) : List α := ls.flatMap fun l => l ++ [a, b]

@[simp] theorem lines_nil : lines a b [] = [] := rfl

@[simp] theorem lines_cons : lines a b (l :: ls) = l ++ a :: b :: lines a b ls := by
  simp [lines]

theorem lines_append {ls' : List (List α)} : lines a b (ls ++ ls') = lines a b ls ++ lines a b ls' := by
  simp [lines]

/-- The terminators of two lines in a row are at the same place of a text, or the second one is further on. -/
theorem append_eq_append_blank {p t s : List α} (hl : a ∉ l) (hab : a ≠ b)
    (h : l ++ a :: b :: t = p ++ a :: b :: a :: b :: s) :
    (p = l ∧ t = a :: b :: s) ∨ ∃ p', p = l ++ a :: b :: p' ∧ t = p' ++ a :: b :: a :: b :: s := by
  rcases List.append_eq_append_iff.mp h with ⟨d, hp, hd⟩ | ⟨d, hl', hd⟩
  · cases d with
    | nil =>
      simp only [List.nil_append, List.cons.injEq, true_and] at hd
      exact .inl ⟨by rw [hp, List.append_nil], hd⟩
    | cons x d =>
      cases d with
      | nil =>
        simp only [List.cons_append, List.nil_append, List.cons.injEq] at hd
        exact absurd hd.2.1.symm hab
      | cons y d =>
        simp only [List.cons_append, List.cons.injEq] at hd
        obtain ⟨rfl, rfl, hd⟩ := hd
        exact .inr ⟨d, hp, hd⟩
  · cases d with
    | nil =>
      simp only [List.nil_append, List.cons.injEq, true_and] at hd
      exact .inl ⟨by rw [hl', List.append_nil], hd.symm⟩
    | cons x d =>
      simp only [List.cons_append, List.cons.injEq] at hd
      obtain ⟨rfl, -⟩ := hd
      exact absurd (hl' ▸ List.mem_append_right p List.mem_cons_self) hl

/-- **The end of the head.** The first two terminators in a row of a text of clean lines and an empty one are those in
front of what follows. -/
theorem first_blank (hab : a ≠ b) {p s body : List α} (hls : ∀ l ∈ ls, Clean a b l)
    (h : lines a b ls ++ a :: b :: body = p ++ a :: b :: a :: b :: s) : (lines a b ls).length ≤ p.length + 2 := by
  induction ls generalizing p with
  | nil => exact Nat.zero_le _
  | cons l ls ih =>
    have hl := hls l List.mem_cons_self
    rw [lines_cons, List.append_assoc, List.cons_append, List.cons_append] at h
    rcases append_eq_append_blank hl.fst hab h with ⟨rfl, ht⟩ | ⟨p', rfl, ht⟩
    · cases ls with
      | nil => simp
      | cons l' ls =>
        -- the next line is not empty, so it does not begin with a terminator
        have hl' := hls l' (List.mem_cons_of_mem _ List.mem_cons_self)
        cases l' with
        | nil => exact absurd rfl hl'.ne
        | cons x l' =>
          simp only [lines_cons, List.cons_append, List.cons.injEq] at ht
          exact absurd (ht.1 ▸ List.mem_cons_self) hl'.fst
    · have hle := ih (fun l' hl' => hls l' (List.mem_cons_of_mem _ hl')) ht
      simp only [lines_cons, List.length_append, List.length_cons]
      omega

/-- Lines of which the last is clean do not end with an empty line. -/
theorem lines_ne_append {ls' : List (List α)} (hl : Clean a b l) :
    lines a b (ls ++ [l]) ≠ lines a b ls' ++ [a, b] := by
  intro h
  have hcut : lines a b ls ++ l = lines a b ls' := by
    have happend : (lines a b ls ++ l) ++ [a, b] = lines a b ls' ++ [a, b] := by
      rw [← h, lines_append]
      simp
    exact List.append_cancel_right happend
  obtain ⟨init, x, rfl⟩ : ∃ init x, l = init ++ [x] :=
    ⟨_, _, (List.dropLast_append_getLast hl.ne).symm⟩
  rcases List.eq_nil_or_concat ls' with rfl | ⟨front, l', rfl⟩
  · simp at hcut
  · have hlast : x = b := by
      have := congrArg List.getLast? hcut
      simpa [lines_append] using this
    exact hl.snd (hlast ▸ List.mem_append_right _ (List.mem_singleton_self _))

end Framing
