import Mathlib.Data.List.Basic

/-!
# Texts with separators

- `flatMap_intercalate`: what is done with the characters of a text is done with its pieces;
- `splitOn_lines`: lines that end with a separator are read back from their text;
- `splitFirst` splits at the first few separators only, so that the last piece may have some itself
  (`splitFirst_intercalate`).
-/

namespace Separated

variable {α β : Type*} {sep : α} {l : List α} {pieces : List (List α)}

/-- Each character becomes a text. -/
theorem flatMap_intercalate (f : α → List β) (pieces : List (List α)) :
    ([sep].intercalate pieces).flatMap f = (f sep).intercalate (pieces.map fun piece => piece.flatMap f) := by
  induction pieces with
  | nil => rfl
  | cons piece pieces ih =>
    cases pieces with
    | nil => simp
    | cons piece' pieces =>
      rw [List.map_cons] at ih
      rw [List.intercalate_cons_cons, List.flatMap_append, List.flatMap_append, List.flatMap_singleton, ih,
        List.map_cons, List.map_cons, List.intercalate_cons_cons]

/-- What is neither the separator nor in a piece. -/
theorem not_mem_intercalate {a : α} (ha : a ≠ sep) (h : ∀ piece ∈ pieces, a ∉ piece) :
    a ∉ [sep].intercalate pieces := by
  induction pieces with
  | nil => exact List.not_mem_nil
  | cons piece pieces ih =>
    have hpiece := h piece List.mem_cons_self
    cases pieces with
    | nil => simpa using hpiece
    | cons piece' pieces =>
      rw [List.intercalate_cons_cons, List.append_assoc, List.singleton_append]
      intro hmem
      rcases List.mem_append.mp hmem with hmem | hmem
      · exact hpiece hmem
      · rcases List.mem_cons.mp hmem with hsep | hmem
        · exact ha hsep
        · exact ih (fun p hp => h p (List.mem_cons_of_mem _ hp)) hmem

variable [DecidableEq α]

/-- Lines, each with a separator behind it. -/
theorem splitOn_lines (h : ∀ line ∈ pieces, sep ∉ line) :
    (pieces.flatMap fun line => line ++ [sep]).splitOn sep = pieces ++ [[]] := by
  induction pieces with
  | nil => rfl
  | cons line pieces ih =>
    rw [List.flatMap_cons, List.append_assoc, List.singleton_append,
      List.splitOn_append_cons_self_of_not_mem (h line List.mem_cons_self),
      ih fun line' hl => h line' (List.mem_cons_of_mem _ hl), List.cons_append]

/-- The pieces have no separator, and nothing that the text does not have. -/
theorem mem_of_mem_splitOn {piece : List α} (h : piece ∈ l.splitOn sep) : ∀ a ∈ piece, a ∈ l ∧ a ≠ sep := by
  induction l generalizing piece with
  | nil =>
    obtain rfl := List.mem_singleton.mp h
    exact nofun
  | cons b l ih =>
    rw [List.splitOn_cons_eq_if_modifyHead] at h
    split at h
    · rcases List.mem_cons.mp h with rfl | h
      · exact nofun
      · exact fun a ha => ⟨List.mem_cons_of_mem _ (ih h a ha).1, (ih h a ha).2⟩
    · rename_i hb
      obtain ⟨front, rest, hsplit⟩ := List.exists_cons_of_ne_nil (List.splitOn_ne_nil sep l)
      rw [hsplit, List.modifyHead_cons] at h
      intro a ha
      rcases List.mem_cons.mp h with rfl | h
      · rcases List.mem_cons.mp ha with rfl | ha
        · exact ⟨List.mem_cons_self, fun heq => hb (beq_iff_eq.mpr heq)⟩
        · have hmem : front ∈ l.splitOn sep := by rw [hsplit]; exact List.mem_cons_self
          have hfront := ih hmem a ha
          exact ⟨List.mem_cons_of_mem _ hfront.1, hfront.2⟩
      · have hmem : piece ∈ l.splitOn sep := by rw [hsplit]; exact List.mem_cons_of_mem _ h
        have hrest := ih hmem a ha
        exact ⟨List.mem_cons_of_mem _ hrest.1, hrest.2⟩

/-- Split at the first `n` separators. -/
def splitFirst (sep : α) : ℕ → List α → List (List α)
  | 0, l => [l]
  | n + 1, l => l.takeWhile (· ≠ sep) :: splitFirst sep n ((l.dropWhile (· ≠ sep)).drop 1)

/-- The pieces of a text, of which only the last one may have separators. -/
theorem splitFirst_intercalate (hne : pieces ≠ []) (h : ∀ piece ∈ pieces.dropLast, sep ∉ piece) :
    splitFirst sep (pieces.length - 1) ([sep].intercalate pieces) = pieces := by
  induction pieces with
  | nil => exact absurd rfl hne
  | cons piece pieces ih =>
    cases pieces with
    | nil => simp [splitFirst]
    | cons piece' pieces =>
      have hpiece : ∀ a ∈ piece, decide (a ≠ sep) = true := fun a ha =>
        decide_eq_true fun heq => h piece List.mem_cons_self (heq ▸ ha)
      have hrest := ih (List.cons_ne_nil _ _) fun p hp => h p (List.mem_cons_of_mem _ hp)
      rw [List.length_cons, Nat.add_sub_cancel] at hrest ⊢
      rw [List.length_cons, splitFirst, List.intercalate_cons_cons, List.append_assoc, List.singleton_append,
        List.takeWhile_append_of_pos hpiece, List.dropWhile_append_of_pos hpiece]
      simp [hrest]

end Separated
