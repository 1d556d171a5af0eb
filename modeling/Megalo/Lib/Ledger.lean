import Megalo.Lib.Count
import Mathlib.Data.List.Nodup

/-!
# Items that wait, are held, and are done with

Items are put into a queue, holders take them from any place of it, one at a time, and finish what they hold. An item is
known by its number, which counts the items that were put in before it.

- `Book` is such a queue with what was put in, taken and finished;
- `Balanced`: every item is in exactly one place, and was taken once unless it still waits. Putting an item in
  (`Balanced.put`), taking one (`Balanced.take`) and finishing one (`Balanced.finish`) keep this;
- `holders` is how many items are held; taking and finishing change it by one.
-/

namespace Ledger

/-- The items that were put in, the numbers of those that wait, of what each holder holds, of those that were taken and
by whom, and of those that are finished. -/
structure Book (α ω : Type*) where
  items : List α
  queue : List Nat
  held : ω → Option Nat
  taken : List (Nat × ω)
  finished : List Nat

/-- Where an item can be. -/
inductive Place (ω : Type*)
  | queued
  | held (w : ω)
  | finished

namespace Book

variable {α ω : Type*}

/-- Nothing was put in. -/
def new : Book α ω := { items := [], queue := [], held := fun _ => none, taken := [], finished := [] }

/-- An item is put in at the end of the queue. -/
def put (b : Book α ω) (x : α) : Book α ω :=
  { b with items := b.items ++ [x], queue := b.queue ++ [b.items.length] }

section Take

variable [DecidableEq ω]

/-- A holder takes the item at place `i` of the queue. -/
def take (b : Book α ω) (w : ω) (i : Nat) : Book α ω :=
  match b.queue[i]? with
  | some id =>
    { b with
      queue := b.queue.eraseIdx i, held := Function.update b.held w (some id), taken := b.taken ++ [(id, w)] }
  | none => b

/-- A holder finishes what it holds. -/
def finish (b : Book α ω) (w : ω) : Book α ω :=
  match b.held w with
  | some id => { b with held := Function.update b.held w none, finished := b.finished ++ [id] }
  | none => b

end Take

/-- The item is in the place. -/
def At (b : Book α ω) (id : Nat) : Place ω → Prop
  | .queued => id ∈ b.queue
  | .held w => b.held w = some id
  | .finished => id ∈ b.finished

/-- The items that wait, in the order of the queue. -/
def waiting (b : Book α ω) : List (Option α) := b.queue.map (b.items[·]?)

/-- How many holders hold an item. -/
def holders [Fintype ω] (b : Book α ω) : Nat := Count.count Option.isSome b.held

/-- Every item is in exactly one place, and was taken once unless it still waits. -/
structure Balanced (b : Book α ω) : Prop where
  place : ∀ id < b.items.length, ∃! p, b.At id p
  known : ∀ id p, b.At id p → id < b.items.length
  queue : b.queue.Nodup
  finished : b.finished.Nodup
  taken : (b.taken.map Prod.fst).Nodup
  taken_iff : ∀ id < b.items.length, id ∈ b.taken.map Prod.fst ↔ id ∉ b.queue
  taken_known : ∀ id ∈ b.taken.map Prod.fst, id < b.items.length
  taker : ∀ id w, b.held w = some id → (id, w) ∈ b.taken

variable {b : Book α ω} {x : α} {w : ω} {i id : Nat}

theorem balanced_new : (new : Book α ω).Balanced := by
  constructor
  · intro id h
    cases h
  · rintro id (_ | w | _) h <;> cases h
  · exact List.nodup_nil
  · exact List.nodup_nil
  · exact List.nodup_nil
  · intro id h
    cases h
  · intro id h
    cases h
  · intro id w h
    cases h

namespace Balanced

/-- An item is in one place only. -/
theorem unique (h : b.Balanced) {p q : Place ω} (hp : b.At id p) (hq : b.At id q) : p = q := by
  obtain ⟨r, -, hr⟩ := h.place id (h.known id p hp)
  rw [hr p hp, hr q hq]

/-! ## Putting an item in -/

theorem at_put (x : α) (p : Place ω) :
    (b.put x).At id p ↔ b.At id p ∨ (id = b.items.length ∧ p = .queued) := by
  cases p with
  | queued => simp [put, At]
  | held w => simp [put, At]
  | finished => simp [put, At]

theorem put (h : b.Balanced) (x : α) : (b.put x).Balanced := by
  have hnew : ∀ p, ¬ b.At b.items.length p := fun p hp => Nat.lt_irrefl _ (h.known _ p hp)
  have hlen : (b.put x).items.length = b.items.length + 1 := by simp [Book.put]
  constructor
  · intro id hid
    rw [hlen] at hid
    rcases Nat.lt_or_eq_of_le (Nat.le_of_lt_succ hid) with hlt | rfl
    · obtain ⟨p, hp, hone⟩ := h.place id hlt
      refine ⟨p, (at_put x p).mpr (.inl hp), fun q hq => ?_⟩
      rcases (at_put x q).mp hq with hq | ⟨rfl, -⟩
      · exact hone q hq
      · exact absurd hlt (Nat.lt_irrefl _)
    · refine ⟨.queued, (at_put x _).mpr (.inr ⟨rfl, rfl⟩), fun q hq => ?_⟩
      rcases (at_put x q).mp hq with hq | ⟨-, rfl⟩
      · exact absurd hq (hnew q)
      · rfl
  · intro id p hp
    rw [hlen]
    rcases (at_put x p).mp hp with hp | ⟨rfl, -⟩
    · exact Nat.lt_succ_of_lt (h.known id p hp)
    · exact Nat.lt_succ_self _
  · refine List.nodup_append.mpr ⟨h.queue, List.nodup_singleton _, ?_⟩
    rintro id hid _ hid' rfl
    rw [List.mem_singleton] at hid'
    subst hid'
    exact hnew .queued hid
  · exact h.finished
  · exact h.taken
  · intro id hid
    rw [hlen] at hid
    have hmem : id ∈ (b.put x).queue ↔ id ∈ b.queue ∨ id = b.items.length := by simp [Book.put]
    rw [hmem]
    rcases Nat.lt_or_eq_of_le (Nat.le_of_lt_succ hid) with hlt | rfl
    · rw [show (b.put x).taken = b.taken from rfl, h.taken_iff id hlt]
      simp [Nat.ne_of_lt hlt]
    · simp only [or_true, not_true_eq_false, iff_false]
      exact fun hin => Nat.lt_irrefl _ (h.taken_known _ hin)
  · intro id hid
    rw [hlen]
    exact Nat.lt_succ_of_lt (h.taken_known id hid)
  · exact h.taker

theorem waiting_put (h : b.Balanced) (x : α) : (b.put x).waiting = b.waiting ++ [some x] := by
  have hold : b.queue.map ((b.items ++ [x])[·]?) = b.queue.map (b.items[·]?) := by
    refine List.map_congr_left fun id hid => ?_
    rw [List.getElem?_append_left (h.known id .queued hid)]
  simp only [waiting, Book.put, List.map_append, List.map_singleton, hold, List.getElem?_concat_length]

/-! ## Taking an item -/

section Take

variable [DecidableEq ω]

theorem take_eq (hi : b.queue[i]? = some id) : b.take w i =
    { b with
      queue := b.queue.eraseIdx i, held := Function.update b.held w (some id), taken := b.taken ++ [(id, w)] } := by
  rw [Book.take, hi]

/-- What is left in a queue without duplicates when one of it is taken. -/
theorem mem_eraseIdx {queue : List Nat} {id' : Nat} (hq : queue.Nodup) (hi : queue[i]? = some id) :
    id' ∈ queue.eraseIdx i ↔ id' ∈ queue ∧ id' ≠ id := by
  obtain ⟨hlt, rfl⟩ := List.getElem?_eq_some_iff.mp hi
  rw [List.mem_eraseIdx_iff_getElem?, List.mem_iff_getElem?]
  constructor
  · rintro ⟨j, hj, hget⟩
    obtain ⟨hjlt, rfl⟩ := List.getElem?_eq_some_iff.mp hget
    exact ⟨⟨j, hget⟩, fun he => hj ((hq.getElem_inj_iff).mp he)⟩
  · rintro ⟨⟨j, hget⟩, hne⟩
    refine ⟨j, ?_, hget⟩
    rintro rfl
    rw [hi] at hget
    exact hne (Option.some.inj hget).symm

theorem at_take (h : b.Balanced) (hi : b.queue[i]? = some id) (hw : b.held w = none) (id' : Nat) (p : Place ω) :
    (b.take w i).At id' p ↔ (b.At id' p ∧ id' ≠ id) ∨ (id' = id ∧ p = .held w) := by
  have hqueued : b.At id .queued := List.mem_of_getElem? hi
  rw [take_eq hi]
  cases p with
  | queued =>
    simp only [At, mem_eraseIdx h.queue hi, reduceCtorEq, and_false, or_false]
  | held v =>
    by_cases hv : v = w
    · subst hv
      simp [At, hw, eq_comm]
    · simp only [At, Function.update_of_ne hv, Place.held.injEq, hv, and_false, or_false, iff_self_and]
      rintro hheld rfl
      exact nomatch h.unique (p := .held v) hheld hqueued
  | finished =>
    simp only [At, reduceCtorEq, and_false, or_false, iff_self_and]
    rintro hfin rfl
    exact nomatch h.unique (p := .finished) hfin hqueued

theorem take (h : b.Balanced) (hi : b.queue[i]? = some id) (hw : b.held w = none) : (b.take w i).Balanced := by
  have hqueued : b.At id .queued := List.mem_of_getElem? hi
  have hlt := h.known id .queued hqueued
  have hnot : id ∉ b.taken.map Prod.fst := fun hin => (h.taken_iff id hlt).mp hin hqueued
  have hitems : (b.take w i).items = b.items := by rw [take_eq hi]
  have htaken : (b.take w i).taken = b.taken ++ [(id, w)] := by rw [take_eq hi]
  have hqueue : (b.take w i).queue = b.queue.eraseIdx i := by rw [take_eq hi]
  constructor
  · intro id' hid
    rw [hitems] at hid
    by_cases he : id' = id
    · subst he
      refine ⟨.held w, (h.at_take hi hw _ _).mpr (.inr ⟨rfl, rfl⟩), fun q hq => ?_⟩
      rcases (h.at_take hi hw _ _).mp hq with ⟨-, hne⟩ | ⟨-, rfl⟩
      · exact absurd rfl hne
      · rfl
    · obtain ⟨p, hp, hone⟩ := h.place id' hid
      refine ⟨p, (h.at_take hi hw _ _).mpr (.inl ⟨hp, he⟩), fun q hq => ?_⟩
      rcases (h.at_take hi hw _ _).mp hq with ⟨hq, -⟩ | ⟨rfl, -⟩
      · exact hone q hq
      · exact absurd rfl he
  · intro id' p hp
    rw [hitems]
    rcases (h.at_take hi hw _ _).mp hp with ⟨hp, -⟩ | ⟨rfl, -⟩
    · exact h.known id' p hp
    · exact hlt
  · rw [hqueue]
    exact h.queue.eraseIdx i
  · rw [take_eq hi]
    exact h.finished
  · rw [htaken, List.map_append]
    refine List.nodup_append.mpr ⟨h.taken, List.nodup_singleton _, ?_⟩
    rintro id' hid _ hid' rfl
    rw [List.map_singleton, List.mem_singleton] at hid'
    subst hid'
    exact hnot hid
  · intro id' hid
    rw [hitems] at hid
    simp only [htaken, hqueue, List.map_append, List.mem_append, List.map_singleton, List.mem_singleton,
      mem_eraseIdx h.queue hi, h.taken_iff id' hid]
    tauto
  · intro id' hid
    rw [hitems]
    simp only [htaken, List.map_append, List.mem_append, List.map_singleton, List.mem_singleton] at hid
    rcases hid with hid | rfl
    · exact h.taken_known id' hid
    · exact hlt
  · intro id' v hv
    have hat : (b.take w i).At id' (.held v) := hv
    rw [htaken, List.mem_append]
    rcases (h.at_take hi hw _ _).mp hat with ⟨hold, -⟩ | ⟨rfl, he⟩
    · exact .inl (h.taker id' v hold)
    · cases he
      exact .inr List.mem_cons_self

theorem waiting_take (hi : b.queue[i]? = some id) : (b.take w i).waiting = b.waiting.eraseIdx i := by
  rw [take_eq hi, waiting, waiting, List.eraseIdx_map]

/-! ## Finishing an item -/

theorem finish_eq (hw : b.held w = some id) :
    b.finish w = { b with held := Function.update b.held w none, finished := b.finished ++ [id] } := by
  rw [Book.finish, hw]

theorem at_finish (h : b.Balanced) (hw : b.held w = some id) (id' : Nat) (p : Place ω) :
    (b.finish w).At id' p ↔ (b.At id' p ∧ id' ≠ id) ∨ (id' = id ∧ p = .finished) := by
  rw [finish_eq hw]
  cases p with
  | queued =>
    simp only [At, reduceCtorEq, and_false, or_false, iff_self_and]
    rintro hq rfl
    exact nomatch h.unique (p := .queued) (q := .held w) hq hw
  | held v =>
    by_cases hv : v = w
    · subst hv
      simp [At, hw, eq_comm]
    · simp only [At, Function.update_of_ne hv, reduceCtorEq, and_false, or_false, iff_self_and]
      rintro hheld rfl
      exact hv (Place.held.inj (h.unique (p := .held v) (q := .held w) hheld hw))
  | finished =>
    have hnot : id ∉ b.finished := fun hf => nomatch h.unique (p := .finished) (q := .held w) hf hw
    simp only [At, List.mem_append, List.mem_singleton, and_true]
    by_cases he : id' = id
    · simp [he]
    · simp [he]

theorem finish (h : b.Balanced) (hw : b.held w = some id) : (b.finish w).Balanced := by
  have hlt := h.known id (.held w) hw
  have hitems : (b.finish w).items = b.items := by rw [finish_eq hw]
  have htaken : (b.finish w).taken = b.taken := by rw [finish_eq hw]
  have hqueue : (b.finish w).queue = b.queue := by rw [finish_eq hw]
  constructor
  · intro id' hid
    rw [hitems] at hid
    by_cases he : id' = id
    · subst he
      refine ⟨.finished, (h.at_finish hw _ _).mpr (.inr ⟨rfl, rfl⟩), fun q hq => ?_⟩
      rcases (h.at_finish hw _ _).mp hq with ⟨-, hne⟩ | ⟨-, rfl⟩
      · exact absurd rfl hne
      · rfl
    · obtain ⟨p, hp, hone⟩ := h.place id' hid
      refine ⟨p, (h.at_finish hw _ _).mpr (.inl ⟨hp, he⟩), fun q hq => ?_⟩
      rcases (h.at_finish hw _ _).mp hq with ⟨hq, -⟩ | ⟨rfl, -⟩
      · exact hone q hq
      · exact absurd rfl he
  · intro id' p hp
    rw [hitems]
    rcases (h.at_finish hw _ _).mp hp with ⟨hp, -⟩ | ⟨rfl, -⟩
    · exact h.known id' p hp
    · exact hlt
  · rw [hqueue]
    exact h.queue
  · rw [finish_eq hw]
    refine List.nodup_append.mpr ⟨h.finished, List.nodup_singleton _, ?_⟩
    rintro id' hid _ hid' rfl
    rw [List.mem_singleton] at hid'
    subst hid'
    exact nomatch h.unique (p := .finished) (q := .held w) hid hw
  · rw [htaken]
    exact h.taken
  · intro id' hid
    rw [hitems] at hid
    rw [htaken, hqueue]
    exact h.taken_iff id' hid
  · intro id' hid
    rw [htaken] at hid
    rw [hitems]
    exact h.taken_known id' hid
  · intro id' v hv
    have hat : (b.finish w).At id' (.held v) := hv
    rw [htaken]
    rcases (h.at_finish hw _ _).mp hat with ⟨hold, -⟩ | ⟨-, he⟩
    · exact h.taker id' v hold
    · cases he

/-! ## How many are held -/

variable [Fintype ω]

theorem holders_take (hi : b.queue[i]? = some id) (hw : b.held w = none) :
    (b.take w i).holders = b.holders + 1 := by
  rw [take_eq hi]
  exact Count.count_enter (by rw [hw]; rfl) rfl

theorem holders_finish (hw : b.held w = some id) : b.holders = (b.finish w).holders + 1 := by
  rw [finish_eq hw]
  exact Count.count_leave (by rw [hw]; rfl) rfl

end Take

end Balanced

end Book

end Ledger
