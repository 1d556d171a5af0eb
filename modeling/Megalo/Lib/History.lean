import Mathlib.Data.List.Induction
import Mathlib.Data.List.Nodup

/-!
# What is live after a history

A call may add an entry under a key and may take the entry of a key away (`View`); an added entry is live until a later
call adds or takes away one with the same key (`LiveAt`).

- `live` is the list of the live entries in the order of their calls, no two of them with one key (`nodup_keys_live`);
- the first of them that is looked for is the one whose call is the oldest (`find_live_eq_some`), and there is none when
  no live entry is looked for (`find_live_eq_none`);
- in a list whose keys differ the first hit is the only one (`eraseP_key`).
-/

namespace History

variable {α K V : Type*}

/-- What a call adds, and the key whose entry it takes away. -/
structure View (α K V : Type*) where
  adds : α → Option (K × V)
  removes : α → Option K

variable (w : View α K V)

/-- A call after which no older entry with this key is live. -/
def View.Touches (b : α) (k : K) : Prop := (∃ v, w.adds b = some (k, v)) ∨ w.removes b = some k

/-- Call number `i` added the entry, and no later call touches its key. -/
def View.LiveAt (h : List α) (i : Nat) (k : K) (v : V) : Prop :=
  (∃ b, h[i]? = some b ∧ w.adds b = some (k, v)) ∧ ∀ j c, i < j → h[j]? = some c → ¬ w.Touches c k

variable {w} {h : List α} {b : α} {k : K} {v : V}

theorem not_liveAt_nil {i : Nat} : ¬ w.LiveAt [] i k v := by
  rintro ⟨⟨b, hb, _⟩, _⟩
  cases hb

/-- One more call. -/
theorem liveAt_snoc {i : Nat} :
    w.LiveAt (h ++ [b]) i k v ↔
      (i = h.length ∧ w.adds b = some (k, v)) ∨ (w.LiveAt h i k v ∧ ¬ w.Touches b k) := by
  have hlast : (h ++ [b])[h.length]? = some b := by simp
  have hold : ∀ {j : Nat} {c : α}, h[j]? = some c → (h ++ [b])[j]? = some c := fun {j} {c} hj => by
    rw [List.getElem?_append_left (List.getElem?_eq_some_iff.mp hj).1]
    exact hj
  have hcases : ∀ {j : Nat} {c : α}, (h ++ [b])[j]? = some c → (j = h.length ∧ c = b) ∨ h[j]? = some c := by
    intro j c hj
    rcases Nat.lt_trichotomy j h.length with hlt | rfl | hgt
    · rw [List.getElem?_append_left hlt] at hj
      exact .inr hj
    · rw [hlast] at hj
      exact .inl ⟨rfl, (Option.some.inj hj).symm⟩
    · have hlen := (List.getElem?_eq_some_iff.mp hj).1
      rw [List.length_append, List.length_singleton] at hlen
      omega
  constructor
  · rintro ⟨⟨c, hc, hadds⟩, hlater⟩
    rcases hcases hc with ⟨rfl, rfl⟩ | hc
    · exact .inl ⟨rfl, hadds⟩
    · have hlt := (List.getElem?_eq_some_iff.mp hc).1
      exact .inr ⟨⟨⟨c, hc, hadds⟩, fun j d hj hd => hlater j d hj (hold hd)⟩, hlater h.length b hlt hlast⟩
  · rintro (⟨rfl, hadds⟩ | ⟨⟨⟨c, hc, hadds⟩, hlater⟩, hb⟩)
    · refine ⟨⟨b, hlast, hadds⟩, fun j c hj hc => ?_⟩
      have hlen := (List.getElem?_eq_some_iff.mp hc).1
      rw [List.length_append, List.length_singleton] at hlen
      omega
    · refine ⟨⟨c, hold hc, hadds⟩, fun j d hj hd => ?_⟩
      rcases hcases hd with ⟨_, rfl⟩ | hd
      · exact hb
      · exact hlater j d hj hd

/-- The call of a live entry is one of the history. -/
theorem View.LiveAt.lt_length {i : Nat} (hl : w.LiveAt h i k v) : i < h.length := by
  obtain ⟨⟨b, hb, _⟩, _⟩ := hl
  exact (List.getElem?_eq_some_iff.mp hb).1

/-- A key has one live entry at most. -/
theorem View.LiveAt.le {i j : Nat} {v' : V} (hl : w.LiveAt h i k v) (hl' : w.LiveAt h j k v') : i ≤ j := by
  by_contra hlt
  obtain ⟨⟨b, hb, hadds⟩, _⟩ := hl
  exact hl'.2 i b (Nat.lt_of_not_le hlt) hb (.inl ⟨v, hadds⟩)

/-- The live entry of a key, after one more call. -/
theorem exists_liveAt_snoc :
    (∃ i, w.LiveAt (h ++ [b]) i k v) ↔
      w.adds b = some (k, v) ∨ ((∃ i, w.LiveAt h i k v) ∧ ¬ w.Touches b k) := by
  constructor
  · rintro ⟨i, hi⟩
    rcases liveAt_snoc.mp hi with ⟨_, hadds⟩ | ⟨hold, hb⟩
    · exact .inl hadds
    · exact .inr ⟨⟨i, hold⟩, hb⟩
  · rintro (hadds | ⟨⟨i, hold⟩, hb⟩)
    · exact ⟨h.length, liveAt_snoc.mpr (.inl ⟨rfl, hadds⟩)⟩
    · exact ⟨i, liveAt_snoc.mpr (.inr ⟨hold, hb⟩)⟩

/-! ## The live entries in the order of their calls -/

variable [DecidableEq K]

instance View.decidableTouches (w : View α K V) (b : α) (k : K) : Decidable (w.Touches b k) :=
  match hadds : w.adds b, hrem : w.removes b with
  | some e, some k' => decidable_of_iff (e.1 = k ∨ k' = k) (by
      simp [View.Touches, hadds, hrem, Prod.ext_iff])
  | some e, none => decidable_of_iff (e.1 = k) (by simp [View.Touches, hadds, hrem, Prod.ext_iff])
  | none, some k' => decidable_of_iff (k' = k) (by simp [View.Touches, hadds, hrem])
  | none, none => isFalse (by simp [View.Touches, hadds, hrem])

variable (w) in
/-- The entries a call leaves, with the one it adds at the back. -/
def View.update (l : List (K × V)) (b : α) : List (K × V) :=
  l.filter (fun e => !decide (w.Touches b e.1)) ++ (w.adds b).toList

variable (w) in
/-- The live entries, the oldest first. -/
def View.live (h : List α) : List (K × V) := h.foldl w.update []

theorem live_snoc : w.live (h ++ [b]) = w.update (w.live h) b := by
  rw [View.live, List.foldl_append]
  rfl

/-- What is found after one more call. -/
theorem find_live_snoc {p : K → Bool} :
    (w.live (h ++ [b])).find? (fun e => p e.1) =
      ((w.live h).find? fun e => !decide (w.Touches b e.1) && p e.1).or
        ((w.adds b).toList.find? fun e => p e.1) := by
  rw [live_snoc, View.update, List.find?_append, List.find?_filter]
  simp only [Bool.decide_and, Bool.decide_eq_true]

/-- No two live entries have one key. -/
theorem nodup_keys_live (h : List α) : ((w.live h).map Prod.fst).Nodup := by
  induction h using List.reverseRecOn with
  | nil => exact List.nodup_nil
  | append_singleton h b ih =>
    rw [live_snoc, View.update, List.map_append]
    refine List.nodup_append.mpr ⟨(ih.sublist (List.filter_sublist.map _)), ?_, ?_⟩
    · cases w.adds b with
      | none => exact List.nodup_nil
      | some e => exact List.nodup_singleton _
    · intro k hk k' hk' heq
      obtain ⟨e, he, rfl⟩ := List.mem_map.mp hk
      obtain ⟨e', he', rfl⟩ := List.mem_map.mp hk'
      have htouch : w.Touches b e.1 := .inl ⟨e'.2, by rw [heq]; exact Option.mem_toList.mp he'⟩
      have hkept := (List.mem_filter.mp he).2
      rw [decide_eq_true htouch] at hkept
      exact Bool.false_ne_true hkept

/-- Nothing is found when no live entry is looked for. -/
theorem find_live_eq_none (p : K → Bool) :
    (w.live h).find? (fun e => p e.1) = none ↔ ∀ i k v, w.LiveAt h i k v → p k = false := by
  induction h using List.reverseRecOn generalizing p with
  | nil => exact ⟨fun _ i k v hl => absurd hl not_liveAt_nil, fun _ => rfl⟩
  | append_singleton h b ih =>
    have hfilter := ih fun k => !decide (w.Touches b k) && p k
    rw [find_live_snoc, Option.or_eq_none_iff, hfilter]
    constructor
    · rintro ⟨hold, hnew⟩ i k v hl
      rcases liveAt_snoc.mp hl with ⟨_, hadds⟩ | ⟨hl, hb⟩
      · rw [hadds] at hnew
        simpa using hnew
      · simpa [hb] using hold i k v hl
    · intro hall
      refine ⟨fun i k v hl => ?_, ?_⟩
      · by_cases hb : w.Touches b k
        · simp [hb]
        · simpa [hb] using hall i k v (liveAt_snoc.mpr (.inr ⟨hl, hb⟩))
      · cases hadds : w.adds b with
        | none => rfl
        | some e => simpa using hall h.length e.1 e.2 (liveAt_snoc.mpr (.inl ⟨rfl, hadds⟩))

/-- The first of the live entries that are looked for is the one whose call is the oldest. -/
theorem find_live_eq_some (p : K → Bool) :
    (w.live h).find? (fun e => p e.1) = some (k, v) ↔
      ∃ i, w.LiveAt h i k v ∧ p k = true ∧ ∀ j k' v', w.LiveAt h j k' v' → p k' = true → i ≤ j := by
  induction h using List.reverseRecOn generalizing p with
  | nil =>
    constructor
    · intro hfind
      cases hfind
    · rintro ⟨i, hl, _⟩
      exact absurd hl not_liveAt_nil
  | append_singleton h b ih =>
    have hfilter := ih fun k => !decide (w.Touches b k) && p k
    rw [find_live_snoc, Option.or_eq_some_iff, hfilter,
      find_live_eq_none fun k => !decide (w.Touches b k) && p k]
    constructor
    · rintro (⟨i, hl, hp, hmin⟩ | ⟨hnone, hnew⟩)
      · -- an entry that was there is older than the one that is added
        obtain ⟨hb, hp⟩ : ¬ w.Touches b k ∧ p k = true := by simpa using hp
        refine ⟨i, liveAt_snoc.mpr (.inr ⟨hl, hb⟩), hp, fun j k' v' hl' hp' => ?_⟩
        rcases liveAt_snoc.mp hl' with ⟨rfl, _⟩ | ⟨hl', hb'⟩
        · exact Nat.le_of_lt hl.lt_length
        · exact hmin j k' v' hl' (by simp [hb', hp'])
      · have hadds : w.adds b = some (k, v) := Option.mem_toList.mp (List.mem_of_find?_eq_some hnew)
        have hp : p k = true := List.find?_some (p := fun e : K × V => p e.1) hnew
        refine ⟨h.length, liveAt_snoc.mpr (.inl ⟨rfl, hadds⟩), hp, fun j k' v' hl' hp' => ?_⟩
        rcases liveAt_snoc.mp hl' with ⟨rfl, _⟩ | ⟨hl', hb'⟩
        · exact Nat.le_refl _
        · have hno := hnone j k' v' hl'
          simp [hb', hp'] at hno
    · rintro ⟨i, hl, hp, hmin⟩
      rcases liveAt_snoc.mp hl with ⟨rfl, hadds⟩ | ⟨hl, hb⟩
      · refine .inr ⟨fun j k' v' hl' => ?_, by simp [hadds, hp]⟩
        by_contra hne
        obtain ⟨hb', hp'⟩ : ¬ w.Touches b k' ∧ p k' = true := by simpa using hne
        have hle := hmin j k' v' (liveAt_snoc.mpr (.inr ⟨hl', hb'⟩)) hp'
        have hlt := hl'.lt_length
        omega
      · refine .inl ⟨i, hl, by simp [hb, hp], fun j k' v' hl' hp' => ?_⟩
        obtain ⟨hb', hp'⟩ : ¬ w.Touches b k' ∧ p k' = true := by simpa using hp'
        exact hmin j k' v' (liveAt_snoc.mpr (.inr ⟨hl', hb'⟩)) hp'

/-- Where the keys differ, the first hit is the only one. -/
theorem eraseP_key {l : List (K × V)} (hl : (l.map Prod.fst).Nodup) (k : K) :
    l.eraseP (fun e => e.1 = k) = l.filter fun e => e.1 ≠ k := by
  induction l with
  | nil => rfl
  | cons e l ih =>
    obtain ⟨hnew, hl⟩ := List.nodup_cons.mp hl
    by_cases he : e.1 = k
    · have hall : ∀ e' ∈ l, decide (e'.1 ≠ k) = true := by
        intro e' he'
        have hne : e'.1 ≠ k := fun heq => hnew (by rw [he, ← heq]; exact List.mem_map_of_mem he')
        exact decide_eq_true hne
      rw [List.eraseP_cons_of_pos (by simpa using he), List.filter_cons_of_neg (by simpa using he),
        List.filter_eq_self.mpr hall]
    · rw [List.eraseP_cons_of_neg (by simpa using he), List.filter_cons_of_pos (by simpa using he), ih hl]

end History
