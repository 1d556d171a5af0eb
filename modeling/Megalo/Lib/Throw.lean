import Mathlib.Data.List.Basic

/-!
# Computations that may throw

When a sequence of two computations ends, and what it throws (`bind_eq_ok_iff`, `bind_error_iff`, and `map_eq_ok_iff`
where the second one cannot throw); and the same for a loop that adds up what its rounds give (`loop_ok_iff`,
`loop_error_iff`). A loop comes to what is `reached` of its list, and what is `behind` the round that throws is left
(`reached_append_behind`, `filter_reached_eq_iff`).
-/

namespace Throw

universe u v

variable {ε : Type u} {α β σ : Type v}

theorem ok_bind (a : α) (f : α → Except ε β) : Except.ok a >>= f = f a := rfl

theorem error_bind (e : ε) (f : α → Except ε β) : Except.error e >>= f = .error e := rfl

theorem bind_eq_ok_iff {x : Except ε α} {f : α → Except ε β} {b : β} :
    x >>= f = .ok b ↔ ∃ a, x = .ok a ∧ f a = .ok b := by
  cases x with
  | error e => simp [error_bind]
  | ok a => simp [ok_bind]

theorem map_eq_ok_iff {x : Except ε α} {f : α → β} {b : β} : x.map f = .ok b ↔ ∃ a, x = .ok a ∧ f a = b := by
  cases x with
  | error e => simp [Except.map]
  | ok a => simp [Except.map]

theorem bind_ok_iff {x : Except ε α} {f : α → Except ε β} :
    (∃ b, x >>= f = .ok b) ↔ ∃ a, x = .ok a ∧ ∃ b, f a = .ok b := by
  simp only [bind_eq_ok_iff]
  rw [exists_comm]
  simp only [exists_and_left]

theorem bind_error_iff {x : Except ε α} {f : α → Except ε β} {e : ε} :
    x >>= f = .error e ↔ x = .error e ∨ ∃ a, x = .ok a ∧ f a = .error e := by
  cases x with
  | error e' => simp [error_bind]
  | ok a => simp [ok_bind]

/-! ## Loops -/

variable {g : α → Except ε β} {add : σ → β → σ} {xs : List α} {c : σ} {e : ε}

/-- A loop ends if every round does. -/
theorem loop_ok_iff : (∃ r, xs.foldlM (fun c a => do return add c (← g a)) c = .ok r) ↔
    ∀ a ∈ xs, ∃ b, g a = .ok b := by
  induction xs generalizing c with
  | nil => simp [pure, Except.pure]
  | cons a xs ih =>
    rw [List.foldlM_cons, bind_ok_iff, List.forall_mem_cons]
    cases g a with
    | error e => simp
    | ok b =>
      constructor
      · rintro ⟨c', h, hloop⟩
        cases h
        exact ⟨⟨b, rfl⟩, ih.1 hloop⟩
      · rintro ⟨-, h⟩
        exact ⟨_, rfl, ih.2 h⟩

/-- What a loop throws is thrown by the first round that does not end. -/
theorem loop_error_iff : xs.foldlM (fun c a => do return add c (← g a)) c = .error e ↔
    ∃ pre a post, xs = pre ++ a :: post ∧ (∀ a' ∈ pre, ∃ b, g a' = .ok b) ∧ g a = .error e := by
  induction xs generalizing c with
  | nil => simp [pure, Except.pure]
  | cons a xs ih =>
    have hsplit : (∃ pre a' post, a :: xs = pre ++ a' :: post ∧ (∀ a'' ∈ pre, ∃ b, g a'' = .ok b) ∧ g a' = .error e) ↔
        g a = .error e ∨ (∃ b, g a = .ok b) ∧
          ∃ pre a' post, xs = pre ++ a' :: post ∧ (∀ a'' ∈ pre, ∃ b, g a'' = .ok b) ∧ g a' = .error e := by
      constructor
      · rintro ⟨pre, a', post, heq, hpre, herror⟩
        cases pre with
        | nil =>
          obtain ⟨rfl, rfl⟩ := List.cons.inj heq
          exact .inl herror
        | cons a'' pre =>
          obtain ⟨rfl, rfl⟩ := List.cons.inj heq
          obtain ⟨ha, hpre⟩ := List.forall_mem_cons.1 hpre
          exact .inr ⟨ha, pre, a', post, rfl, hpre, herror⟩
      · rintro (herror | ⟨ha, pre, a', post, rfl, hpre, herror⟩)
        · exact ⟨[], a, xs, rfl, by simp, herror⟩
        · exact ⟨a :: pre, a', post, rfl, List.forall_mem_cons.2 ⟨ha, hpre⟩, herror⟩
    rw [hsplit, List.foldlM_cons, bind_error_iff]
    cases g a with
    | error e' => simp
    | ok b =>
      have hrest := ih (c := add c b)
      constructor
      · rintro (h | ⟨c', h, hloop⟩)
        · cases h
        · cases h
          exact .inr ⟨⟨b, rfl⟩, hrest.1 hloop⟩
      · rintro (h | ⟨-, h⟩)
        · cases h
        · exact .inr ⟨_, rfl, hrest.2 h⟩

/-! ## What a loop comes to -/

section Reached

variable {α : Type*} {p q : α → Bool} {l : List α} {a : α}

/-- As far as the first element for which the round throws, with that one. -/
def reached (p : α → Bool) : List α → List α
  | [] => []
  | a :: l => if p a then [a] else a :: reached p l

/-- What is behind the first element for which the round throws. -/
def behind (p : α → Bool) : List α → List α
  | [] => []
  | a :: l => if p a then l else behind p l

theorem reached_cons_pos (h : p a = true) : reached p (a :: l) = [a] := if_pos h

theorem reached_cons_neg (h : p a = false) : reached p (a :: l) = a :: reached p l :=
  if_neg (by simp [h])

theorem reached_append_behind : reached p l ++ behind p l = l := by
  induction l with
  | nil => rfl
  | cons a l ih =>
    unfold reached behind
    split
    · rfl
    · rw [List.cons_append, ih]

/-- What a loop comes to of a list that elements were taken out of. -/
theorem reached_filter : reached p (l.filter q) = (reached (fun a => q a && p a) l).filter q := by
  induction l with
  | nil => rfl
  | cons a l ih =>
    cases hq : q a with
    | false => rw [List.filter_cons_of_neg (by simp [hq]), reached_cons_neg (by simp [hq]),
        List.filter_cons_of_neg (by simp [hq]), ih]
    | true =>
      rw [List.filter_cons_of_pos hq]
      cases hp : p a with
      | true =>
        rw [reached_cons_pos hp, reached_cons_pos (by simp [hq, hp]), List.filter_cons_of_pos hq, List.filter_nil]
      | false => rw [reached_cons_neg hp, reached_cons_neg (by simp [hp]), List.filter_cons_of_pos hq, ih]

/-- What is picked of the elements a loop comes to is what is to be picked of all, exactly when it is the same for each
that it comes to, and there is none behind. -/
theorem filter_reached_eq_iff {c s : α → Bool} : (reached p l).filter c = l.filter s ↔
    (∀ a ∈ reached p l, c a = s a) ∧ ∀ a ∈ behind p l, s a = false := by
  have hsplit : l.filter s = (reached p l).filter s ++ (behind p l).filter s := by
    rw [← List.filter_append, reached_append_behind]
  constructor
  · intro h
    have hpick : ∀ a ∈ reached p l, c a = s a := by
      intro a ha
      have hall : a ∈ l := by
        rw [← reached_append_behind (p := p) (l := l)]
        exact List.mem_append_left _ ha
      rw [Bool.eq_iff_iff]
      constructor
      · intro hc
        have hmem := List.mem_filter.2 ⟨ha, hc⟩
        rw [h] at hmem
        exact (List.mem_filter.1 hmem).2
      · intro hs
        have hmem := List.mem_filter.2 ⟨hall, hs⟩
        rw [← h] at hmem
        exact (List.mem_filter.1 hmem).2
    refine ⟨hpick, fun a ha => ?_⟩
    rw [hsplit, List.filter_congr hpick, List.self_eq_append_right] at h
    exact Bool.eq_false_iff.2 (List.filter_eq_nil_iff.1 h a ha)
  · rintro ⟨hpick, hnone⟩
    have hbehind : (behind p l).filter s = [] := List.filter_eq_nil_iff.2 fun a ha => by simp [hnone a ha]
    rw [hsplit, hbehind, List.append_nil]
    exact List.filter_congr hpick

end Reached

end Throw
