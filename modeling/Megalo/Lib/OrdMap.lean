import Mathlib.Data.List.Lex
import Mathlib.Order.Lattice

/-!
# Ordered maps

A map is the list of its entries in the order of their keys, and two keys are the same when `fold` maps them to one
value of a linear order.

- Entries that are set in their order give the list of them (`sets_sorted`), and with one more key set in front of them,
  the list with that key set (`sets_extra`);
- `find`, `insert` (which keeps an entry that is there) and `erase`, and what is found after each operation. They keep a
  map `Sorted`, and in a sorted map an entry that is inserted is behind all that are found already (`find_inserts`).
-/

namespace OrdMap

variable {κ K V : Type*} [LinearOrder κ] (fold : K → κ)

/-- `m[key] = val`. -/
def set : List (K × V) → K → V → List (K × V)
  | [], key, val => [(key, val)]
  | e :: m, key, val =>
    if fold e.1 < fold key then e :: set m key val
    else if fold key < fold e.1 then (key, val) :: e :: m
    else (e.1, val) :: m

/-- One entry after the other. -/
def sets (m es : List (K × V)) : List (K × V) := es.foldl (fun m e => set fold m e.1 e.2) m

variable {fold} {m es : List (K × V)} {key c : K} {val w : V}

/-- A key behind all others. -/
theorem set_last (h : ∀ e ∈ m, fold e.1 < fold key) : set fold m key val = m ++ [(key, val)] := by
  induction m with
  | nil => rfl
  | cons e m ih =>
    rw [set, if_pos (h e List.mem_cons_self), ih fun e' he' => h e' (List.mem_cons_of_mem _ he')]
    rfl

/-- A key behind all others may be set before or after another one. -/
theorem set_set_last (h : ∀ e ∈ m, fold e.1 < fold key) (hne : fold c ≠ fold key) :
    set fold (set fold m c w) key val = set fold (m ++ [(key, val)]) c w := by
  induction m with
  | nil =>
    rcases lt_or_gt_of_ne hne with hlt | hgt
    · simp [set, hlt, hlt.not_gt]
    · simp [set, hgt, hgt.not_gt]
  | cons e m ih =>
    have he := h e List.mem_cons_self
    have hm : ∀ e' ∈ m, fold e'.1 < fold key := fun e' he' => h e' (List.mem_cons_of_mem _ he')
    rw [List.cons_append, set, set]
    by_cases hlt : fold e.1 < fold c
    · rw [if_pos hlt, if_pos hlt, set, if_pos he, ih hm]
    · rw [if_neg hlt, if_neg hlt]
      by_cases hgt : fold c < fold e.1
      · rw [if_pos hgt, if_pos hgt, set, if_pos (hgt.trans he), set_last h]
        rfl
      · rw [if_neg hgt, if_neg hgt, set, if_pos he, set_last hm]

/-- Entries in order are behind each other. -/
theorem sets_sorted (h : (m ++ es).Pairwise fun e e' => fold e.1 < fold e'.1) : sets fold m es = m ++ es := by
  induction es generalizing m with
  | nil => rw [List.append_nil, sets, List.foldl_nil]
  | cons e es ih =>
    have hlast : ∀ e' ∈ m, fold e'.1 < fold e.1 := fun e' he' =>
      (List.pairwise_append.mp h).2.2 e' he' e List.mem_cons_self
    rw [List.append_cons] at h ⊢
    rw [← ih h, sets, List.foldl_cons, set_last hlast]
    rfl

/-- With another key in front of them, entries in order give the list with that key. -/
theorem sets_extra (h : (m ++ es).Pairwise fun e e' => fold e.1 < fold e'.1) (hne : ∀ e ∈ es, fold c ≠ fold e.1) :
    sets fold (set fold m c w) es = set fold (m ++ es) c w := by
  induction es generalizing m with
  | nil => rw [List.append_nil, sets, List.foldl_nil]
  | cons e es ih =>
    have hlast : ∀ e' ∈ m, fold e'.1 < fold e.1 := fun e' he' =>
      (List.pairwise_append.mp h).2.2 e' he' e List.mem_cons_self
    rw [List.append_cons] at h ⊢
    rw [← ih h fun e' he' => hne e' (List.mem_cons_of_mem _ he'), sets, List.foldl_cons,
      set_set_last hlast (hne e List.mem_cons_self)]
    rfl

/-- A new key that a filter drops. -/
theorem filter_set {p : K × V → Bool} (hm : ∀ e ∈ m, p e = true ∧ fold e.1 ≠ fold c) (hc : p (c, w) = false) :
    (set fold m c w).filter p = m := by
  have hself : m.filter p = m := List.filter_eq_self.mpr fun e he => (hm e he).1
  induction m with
  | nil => simp [set, hc]
  | cons e m ih =>
    obtain ⟨hp, hne⟩ := hm e List.mem_cons_self
    have htail : ∀ e' ∈ m, p e' = true ∧ fold e'.1 ≠ fold c := fun e' he' => hm e' (List.mem_cons_of_mem _ he')
    rw [set]
    rcases lt_or_gt_of_ne hne with hlt | hgt
    · rw [if_pos hlt, List.filter_cons_of_pos hp, ih htail (List.filter_eq_self.mpr fun e' he' => (htail e' he').1)]
    · rw [if_neg hgt.not_gt, if_pos hgt, List.filter_cons_of_neg (by simp [hc]), hself]

/-! ## Finding, inserting and erasing -/

section Find

variable (fold)

/-- The value of the entry whose key is compared as `c`. -/
def find (m : List (K × V)) (c : κ) : Option V := (m.find? fun e => fold e.1 = c).map Prod.snd

/-- `m.insert({key, val})`. -/
def insert : List (K × V) → K → V → List (K × V)
  | [], key, val => [(key, val)]
  | e :: m, key, val =>
    if fold e.1 < fold key then e :: insert m key val
    else if fold key < fold e.1 then (key, val) :: e :: m
    else e :: m

/-- One entry after the other. -/
def inserts (m es : List (K × V)) : List (K × V) := es.foldl (fun m e => insert fold m e.1 e.2) m

/-- `m.erase(key)`. -/
def erase (m : List (K × V)) (key : K) : List (K × V) := m.filter fun e => fold e.1 ≠ fold key

/-- The entries are in the order of their keys. -/
def Sorted (m : List (K × V)) : Prop := m.Pairwise fun e e' => fold e.1 < fold e'.1

variable {fold} {e : K × V} {a : κ}

@[simp] theorem find_nil : find fold ([] : List (K × V)) a = none := rfl

theorem find_cons : find fold (e :: m) a = if fold e.1 = a then some e.2 else find fold m a := by
  unfold find
  rw [List.find?_cons]
  by_cases h : fold e.1 = a <;> simp [h]

theorem find_set : find fold (set fold m key val) a = if fold key = a then some val else find fold m a := by
  induction m with
  | nil => rw [set, find_cons]
  | cons e m ih =>
    rw [set]
    rcases lt_trichotomy (fold e.1) (fold key) with hlt | heq | hgt
    · rw [if_pos hlt, find_cons, ih, find_cons]
      by_cases ha : fold key = a
      · rw [if_pos ha, if_neg (fun h => hlt.ne (h.trans ha.symm)), if_pos ha]
      · rw [if_neg ha, if_neg ha]
    · rw [if_neg heq.not_lt, if_neg heq.not_gt, find_cons, find_cons, heq]
      split <;> rfl
    · rw [if_neg hgt.not_gt, if_pos hgt, find_cons]

theorem find_eq_none (h : ∀ e ∈ m, fold e.1 ≠ a) : find fold m a = none := by
  rw [find, List.find?_eq_none.2 (by simpa using h), Option.map_none]

theorem find_ne_none (h : e ∈ m) : find fold m (fold e.1) ≠ none := by
  intro hnone
  rw [find, Option.map_eq_none_iff, List.find?_eq_none] at hnone
  exact hnone e h (decide_eq_true rfl)

theorem mem_of_find {v : V} (h : find fold m a = some v) : ∃ e ∈ m, fold e.1 = a ∧ e.2 = v := by
  obtain ⟨e, he, rfl⟩ := Option.map_eq_some_iff.1 h
  have hp := List.find?_some he
  exact ⟨e, List.mem_of_find?_eq_some he, of_decide_eq_true hp, rfl⟩

/-- An entry whose key is compared as no other is found. -/
theorem find_of_mem (hd : m.Pairwise fun e e' => fold e.1 ≠ fold e'.1) (h : e ∈ m) :
    find fold m (fold e.1) = some e.2 := by
  induction m with
  | nil => cases h
  | cons e' m ih =>
    obtain ⟨he', hm⟩ := List.pairwise_cons.1 hd
    rw [find_cons]
    rcases List.mem_cons.1 h with rfl | h
    · rw [if_pos rfl]
    · rw [if_neg (he' e h), ih hm h]

/-- In a sorted map nothing is found before the first key. -/
theorem Sorted.find_lt (hs : Sorted fold (e :: m)) (h : a < fold e.1) : find fold (e :: m) a = none := by
  refine find_eq_none fun e' he' => ?_
  rcases List.mem_cons.1 he' with rfl | he'
  · exact h.ne'
  · exact (h.trans ((List.pairwise_cons.1 hs).1 e' he')).ne'

theorem find_insert (hs : Sorted fold m) :
    find fold (insert fold m key val) a = (find fold m a).or (if fold key = a then some val else none) := by
  induction m with
  | nil => rw [insert, find_cons, find_nil, Option.none_or]
  | cons e m ih =>
    obtain ⟨-, hm⟩ := List.pairwise_cons.1 hs
    rw [insert]
    rcases lt_trichotomy (fold e.1) (fold key) with hlt | heq | hgt
    · rw [if_pos hlt, find_cons, ih hm, find_cons]
      split <;> rfl
    · rw [if_neg heq.not_lt, if_neg heq.not_gt, find_cons, heq]
      split <;> simp
    · rw [if_neg hgt.not_gt, if_pos hgt, find_cons]
      by_cases ha : fold key = a
      · rw [if_pos ha, if_pos ha, hs.find_lt (ha ▸ hgt)]
        rfl
      · rw [if_neg ha, if_neg ha, Option.or_none]

theorem find_erase : find fold (erase fold m key) a = if fold key = a then none else find fold m a := by
  induction m with
  | nil => simp [erase]
  | cons e m ih =>
    rw [erase, List.filter_cons, find_cons]
    by_cases hk : fold e.1 = fold key
    · rw [if_neg (by simpa using hk), ← erase, ih, hk]
      split <;> rfl
    · rw [if_pos (by simpa using hk), find_cons, ← erase, ih]
      by_cases ha : fold key = a
      · rw [if_neg (fun h => hk (h.trans ha.symm)), if_pos ha, if_pos ha]
      · rw [if_neg ha, if_neg ha]

/-- A key behind all others. -/
theorem insert_last (h : ∀ e ∈ m, fold e.1 < fold key) : insert fold m key val = m ++ [(key, val)] := by
  induction m with
  | nil => rfl
  | cons e m ih =>
    rw [insert, if_pos (h e List.mem_cons_self), ih fun e' he' => h e' (List.mem_cons_of_mem _ he')]
    rfl

theorem mem_insert (h : e ∈ insert fold m key val) : e ∈ m ∨ e = (key, val) := by
  induction m with
  | nil => exact .inr (List.mem_singleton.1 h)
  | cons e' m ih =>
    rw [insert] at h
    split at h
    · rcases List.mem_cons.1 h with rfl | h
      · exact .inl List.mem_cons_self
      · exact (ih h).imp (List.mem_cons_of_mem _) id
    · split at h
      · exact (List.mem_cons.1 h).symm
      · exact .inl h

theorem mem_set (h : e ∈ set fold m key val) : fold e.1 = fold key ∨ e ∈ m := by
  induction m with
  | nil => exact .inl (congrArg (fun e => fold e.1) (List.mem_singleton.1 h))
  | cons e' m ih =>
    rw [set] at h
    split at h
    · rcases List.mem_cons.1 h with rfl | h
      · exact .inr List.mem_cons_self
      · exact (ih h).imp id (List.mem_cons_of_mem _)
    · rename_i hlt
      split at h
      · rcases List.mem_cons.1 h with rfl | h
        · exact .inl rfl
        · exact .inr h
      · rename_i hgt
        rcases List.mem_cons.1 h with rfl | h
        · exact .inl (le_antisymm (not_lt.1 hgt) (not_lt.1 hlt))
        · exact .inr (List.mem_cons_of_mem _ h)

theorem Sorted.set (hs : Sorted fold m) : Sorted fold (set fold m key val) := by
  induction m with
  | nil => exact List.pairwise_singleton _ _
  | cons e m ih =>
    obtain ⟨he, hm⟩ := List.pairwise_cons.1 hs
    rw [OrdMap.set]
    split
    · rename_i hlt
      refine List.pairwise_cons.2 ⟨fun e' he' => ?_, ih hm⟩
      rcases mem_set he' with heq | he'
      · exact heq ▸ hlt
      · exact he e' he'
    · split
      · rename_i hgt
        refine List.pairwise_cons.2 ⟨fun e' he' => ?_, hs⟩
        rcases List.mem_cons.1 he' with rfl | he'
        · exact hgt
        · exact hgt.trans (he e' he')
      · exact List.pairwise_cons.2 ⟨he, hm⟩

theorem Sorted.insert (hs : Sorted fold m) : Sorted fold (insert fold m key val) := by
  induction m with
  | nil => exact List.pairwise_singleton _ _
  | cons e m ih =>
    obtain ⟨he, hm⟩ := List.pairwise_cons.1 hs
    rw [OrdMap.insert]
    split
    · rename_i hlt
      refine List.pairwise_cons.2 ⟨fun e' he' => ?_, ih hm⟩
      rcases mem_insert he' with he' | rfl
      · exact he e' he'
      · exact hlt
    · split
      · rename_i hgt
        refine List.pairwise_cons.2 ⟨fun e' he' => ?_, hs⟩
        rcases List.mem_cons.1 he' with rfl | he'
        · exact hgt
        · exact hgt.trans (he e' he')
      · exact hs

theorem Sorted.erase (hs : Sorted fold m) : Sorted fold (erase fold m key) := List.Pairwise.filter _ hs

theorem Sorted.inserts (hs : Sorted fold m) : Sorted fold (inserts fold m es) := by
  induction es generalizing m with
  | nil => exact hs
  | cons e es ih => exact ih hs.insert

/-- What is there stays, and of what is inserted the first entry of a key counts. -/
theorem find_inserts (hs : Sorted fold m) : find fold (inserts fold m es) a = (find fold m a).or (find fold es a) := by
  induction es generalizing m with
  | nil => rw [inserts, List.foldl_nil, find_nil, Option.or_none]
  | cons e es ih =>
    rw [inserts, List.foldl_cons, ← inserts, ih hs.insert, find_insert hs, find_cons, Option.or_assoc]
    split <;> rfl

theorem mem_inserts (h : e ∈ inserts fold m es) : e ∈ m ∨ e ∈ es := by
  induction es generalizing m with
  | nil => exact .inl h
  | cons e' es ih =>
    rcases ih h with h | h
    · rcases mem_insert h with h | rfl
      · exact .inl h
      · exact .inr List.mem_cons_self
    · exact .inr (List.mem_cons_of_mem _ h)

end Find

end OrdMap
