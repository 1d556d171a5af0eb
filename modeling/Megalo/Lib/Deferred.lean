import Mathlib.Logic.Function.Basic
import Mathlib.Data.List.Basic

/-!
# A table that is filled late

- `Machine` is a step function with an answer: two states answer a list of inputs alike if and only if they do so at
  every input, in the states that the inputs before it lead to (`answers_eq_iff`), and a part of the state goes the way
  of the inputs that act on it (`map_after`);
- `Deferred` is a table, and what a load would still add to it where it has no entry. `get` loads, the other operations
  do not, so the answers can differ from those of a table that was loaded at first;
- an answer is the same exactly where the operations before it keep it `Hidden` (`answer_eq_iff`): a key that only the
  load brings is not looked at before it, and one that was removed before it is not looked at after it.
-/

namespace Machine

variable {σ α β : Type*} (step : σ → α → σ × β)

/-- The state after a list of inputs. -/
def after (s : σ) (as : List α) : σ := as.foldl (fun s a => (step s a).1) s

/-- The answers to a list of inputs. -/
def answers : σ → List α → List β
  | _, [] => []
  | s, a :: as => (step s a).2 :: answers (step s a).1 as

variable {step}

@[simp] theorem after_nil (s : σ) : after step s [] = s := rfl

theorem after_cons (s : σ) (a : α) (as : List α) : after step s (a :: as) = after step (step s a).1 as := rfl

theorem after_append (s : σ) (as bs : List α) : after step s (as ++ bs) = after step (after step s as) bs :=
  List.foldl_append

theorem answers_eq_iff {s t : σ} {as : List α} : answers step s as = answers step t as ↔
    ∀ pre a post, as = pre ++ a :: post → (step (after step s pre) a).2 = (step (after step t pre) a).2 := by
  induction as generalizing s t with
  | nil => simp [answers]
  | cons a as ih =>
    rw [answers, answers, List.cons.injEq, ih]
    constructor
    · rintro ⟨ha, hrest⟩ pre a' post h
      cases pre with
      | nil =>
        obtain ⟨rfl, rfl⟩ := List.cons.inj h
        exact ha
      | cons b pre =>
        obtain ⟨rfl, rfl⟩ := List.cons.inj h
        exact hrest pre a' post rfl
    · intro h
      refine ⟨h [] a as rfl, fun pre a' post heq => ?_⟩
      exact h (a :: pre) a' post (congrArg (a :: ·) heq)

/-- A part of the state that some of the inputs act on, and the others leave, goes the way of those. -/
theorem map_after {σ' α' β' : Type*} {step' : σ' → α' → σ' × β'} (proj : σ → σ') (op : α → Option α')
    (hsome : ∀ s a b, op a = some b → proj (step s a).1 = (step' (proj s) b).1)
    (hnone : ∀ s a, op a = none → proj (step s a).1 = proj s) (s : σ) (as : List α) :
    proj (after step s as) = after step' (proj s) (as.filterMap op) := by
  induction as generalizing s with
  | nil => rfl
  | cons a as ih =>
    rw [after_cons, ih]
    cases hop : op a with
    | none => rw [hnone s a hop, List.filterMap_cons_none hop]
    | some b => rw [hsome s a b hop, List.filterMap_cons_some hop, after_cons]

end Machine

/-- A table, and what a load adds to it. -/
structure Deferred (K V : Type*) where
  cur : K → Option V
  late : K → Option V

namespace Deferred

variable {K V : Type*}

/-- The operations: `get` with a default, and to look, put and remove. -/
inductive Op (K V : Type*)
  | get (key : K) (default : V)
  | look (key : K)
  | put (key : K) (val : V)
  | remove (key : K)

/-- What an operation answers. -/
inductive Answer (V : Type*)
  | value (val : V)
  | found (val : Option V)
  | done
  deriving DecidableEq

/-- Add what is late where there is no entry. -/
def load (s : Deferred K V) : Deferred K V := ⟨fun k => (s.cur k).or (s.late k), fun _ => none⟩

def Op.isGet : Op K V → Bool
  | .get _ _ => true
  | _ => false

/-- The operations before the load, and those from it on. -/
def before (ops : List (Op K V)) : List (Op K V) := ops.takeWhile fun op => !op.isGet
def since (ops : List (Op K V)) : List (Op K V) := ops.dropWhile fun op => !op.isGet

variable [DecidableEq K]

def step (s : Deferred K V) : Op K V → Deferred K V × Answer V
  | .get k d => (s.load, .value ((s.load.cur k).getD d))
  | .look k => (s, .found (s.cur k))
  | .put k v => (⟨Function.update s.cur k (some v), s.late⟩, .done)
  | .remove k => (⟨Function.update s.cur k none, s.late⟩, .done)

/-- What an operation leaves at a key, if it writes there. -/
def Op.writes (k : K) : Op K V → Option (Option V)
  | .put k' v => if k' = k then some (some v) else none
  | .remove k' => if k' = k then some none else none
  | _ => none

/-- What the operations leave at a key, if one of them writes there. -/
def lastWrite (k : K) (ops : List (Op K V)) : Option (Option V) := ops.foldl (fun w op => (op.writes k).or w) none

/-- The key was removed, then the load brought it back, and it was not written since. -/
def Revived (s : Deferred K V) (ops : List (Op K V)) (k : K) : Prop :=
  lastWrite k (before ops) = some none ∧ lastWrite k (since ops) = none ∧ s.late k ≠ none

/-- The operation answers as if the table had been loaded at first. -/
def Hidden (s : Deferred K V) (ops : List (Op K V)) : Op K V → Prop
  | .get k d => s.Revived ops k → s.late k = some d
  | .look k =>
    if ops.any Op.isGet then ¬s.Revived ops k
    else lastWrite k ops = none → s.cur k = none → s.late k = none
  | _ => True

variable {s : Deferred K V} {ops : List (Op K V)} {k : K}

omit [DecidableEq K] in
theorem before_append_since (ops : List (Op K V)) : before ops ++ since ops = ops := List.takeWhile_append_dropWhile

omit [DecidableEq K] in
/-- A table that nothing is late for is loaded. -/
theorem load_of_late (h : s.late = fun _ => none) : s.load = s := by
  obtain ⟨cur, late⟩ := s
  obtain rfl : late = fun _ => none := h
  simp [load]

/-! ## The tables after operations -/

theorem lastWrite_from (w : Option (Option V)) :
    ops.foldl (fun w op => (op.writes k).or w) w = (lastWrite k ops).or w := by
  induction ops generalizing w with
  | nil => rfl
  | cons op ops ih =>
    show ops.foldl _ ((op.writes k).or w) = (ops.foldl _ ((op.writes k).or none)).or w
    rw [ih, ih, Option.or_none, Option.or_assoc]

theorem lastWrite_cons (op : Op K V) : lastWrite k (op :: ops) = (lastWrite k ops).or (op.writes k) := by
  rw [lastWrite, List.foldl_cons, lastWrite_from, Option.or_none]

theorem lastWrite_append (ops ops' : List (Op K V)) :
    lastWrite k (ops ++ ops') = (lastWrite k ops').or (lastWrite k ops) := by
  rw [lastWrite, List.foldl_append, lastWrite_from]
  rfl

theorem step_eq (op : Op K V) (h : s.late = (fun _ => none) ∨ op.isGet = false) :
    (step s op).1 = ⟨fun k => (op.writes k).getD (s.cur k), s.late⟩ := by
  cases op with
  | get k d =>
    rcases h with h | h
    · exact load_of_late h
    · cases h
  | look k => rfl
  | put k v | remove k =>
    show Deferred.mk _ _ = _
    rw [Deferred.mk.injEq]
    refine ⟨funext fun k' => ?_, rfl⟩
    by_cases hk : k = k'
    · subst hk
      simp [Op.writes]
    · simp [Op.writes, hk, Function.update_of_ne (Ne.symm hk)]

/-- The table after operations that do not load it, or when nothing is late for it. -/
theorem after_eq (h : s.late = (fun _ => none) ∨ ops.any Op.isGet = false) :
    Machine.after step s ops = ⟨fun k => (lastWrite k ops).getD (s.cur k), s.late⟩ := by
  induction ops generalizing s with
  | nil => rfl
  | cons op ops ih =>
    have hop : s.late = (fun _ => none) ∨ op.isGet = false := h.imp_right fun h => by
      rw [List.any_cons, Bool.or_eq_false_iff] at h
      exact h.1
    have hops : s.late = (fun _ => none) ∨ ops.any Op.isGet = false := h.imp_right fun h => by
      rw [List.any_cons, Bool.or_eq_false_iff] at h
      exact h.2
    have hafter := ih (s := ⟨fun k => (op.writes k).getD (s.cur k), s.late⟩) hops
    rw [Machine.after_cons, step_eq op hop, hafter, Deferred.mk.injEq]
    refine ⟨funext fun k => ?_, rfl⟩
    rw [lastWrite_cons]
    cases lastWrite k ops <;> rfl

/-- After a `get` nothing is late. -/
theorem late_after (h : ops.any Op.isGet = true) : (Machine.after step s ops).late = fun _ => none := by
  induction ops generalizing s with
  | nil => cases h
  | cons op ops ih =>
    rw [Machine.after_cons]
    cases op with
    | get k d =>
      have hlate : s.load.late = fun _ => none := rfl
      show (Machine.after step s.load ops).late = _
      rw [after_eq (.inl hlate)]
      exact hlate
    | look | put | remove => exact ih h

/-- What a load would make of the table after any operations. -/
theorem load_after (s : Deferred K V) (ops : List (Op K V)) (k : K) :
    (Machine.after step s ops).load.cur k =
      (lastWrite k (since ops)).getD (((lastWrite k (before ops)).getD (s.cur k)).or (s.late k)) := by
  have hbefore : (before ops).any Op.isGet = false := by
    have hall := List.all_takeWhile (l := ops) (p := fun op => !op.isGet)
    rw [List.any_eq_false]
    intro op hop
    simpa using List.all_eq_true.1 hall op hop
  have hafter : Machine.after step s ops = Machine.after step (Machine.after step s (before ops)) (since ops) := by
    rw [← Machine.after_append, before_append_since]
  rw [hafter, after_eq (.inr hbefore)]
  cases hsince : since ops with
  | nil => rfl
  | cons op rest =>
    have hget : op.isGet = true := by
      have := List.head?_dropWhile_not (fun op : Op K V => !op.isGet) ops
      rw [← since, hsince] at this
      simpa using this
    cases op with
    | get k' d =>
      -- the load comes first, and after it nothing is late
      let t : Deferred K V := ⟨fun k => (lastWrite k (before ops)).getD (s.cur k), s.late⟩
      have hloaded : Machine.after step t.load rest = ⟨fun k => (lastWrite k rest).getD (t.load.cur k), _⟩ :=
        after_eq (.inl rfl)
      rw [Machine.after_cons]
      show (Machine.after step t.load rest).load.cur k = _
      rw [hloaded, load_of_late rfl, lastWrite_cons]
      show (lastWrite k rest).getD _ = ((lastWrite k rest).or none).getD _
      rw [Option.or_none]
      rfl
    | look | put | remove => cases hget

/-- A load that came first makes a difference to the keys that a later one revives. -/
theorem load_after_eq_iff (s : Deferred K V) (ops : List (Op K V)) (k : K) :
    (s.Revived ops k ∧ (Machine.after step s ops).load.cur k = s.late k ∧
      (Machine.after step s.load ops).cur k = none) ∨
    (¬s.Revived ops k ∧ (Machine.after step s ops).load.cur k = (Machine.after step s.load ops).cur k) := by
  have hlate : s.load.late = fun _ => none := rfl
  rw [load_after, after_eq (.inl hlate)]
  have hsplit : lastWrite k ops = (lastWrite k (since ops)).or (lastWrite k (before ops)) := by
    rw [← lastWrite_append, before_append_since]
  simp only [hsplit, Revived, load]
  cases lastWrite k (since ops) with
  | some w => simp
  | none =>
    cases lastWrite k (before ops) with
    | none => simp
    | some w =>
      cases w with
      | some v => simp
      | none => cases s.late k <;> simp

/-- Whether a state answers an operation as if it had been loaded at first. -/
theorem answer_eq_iff (s : Deferred K V) (ops : List (Op K V)) (op : Op K V) :
    (step (Machine.after step s ops) op).2 = (step (Machine.after step s.load ops) op).2 ↔ s.Hidden ops op := by
  have hlate : s.load.late = fun _ => none := rfl
  have hloaded : (Machine.after step s.load ops).load = Machine.after step s.load ops :=
    load_of_late (by rw [after_eq (.inl hlate)]; rfl)
  cases op with
  | put | remove => simp [step, Hidden]
  | get k d =>
    rw [Hidden, step, step, Answer.value.injEq, hloaded]
    rcases load_after_eq_iff s ops k with ⟨hrev, hcur, hnone⟩ | ⟨hrev, hcur⟩
    · rw [hcur, hnone]
      obtain ⟨v, hv⟩ := Option.ne_none_iff_exists'.1 hrev.2.2
      simp [hrev, hv]
    · simp [hrev, hcur]
  | look k =>
    rw [Hidden, step, step, Answer.found.injEq]
    split
    · rename_i hget
      rw [← load_of_late (late_after hget)]
      rcases load_after_eq_iff s ops k with ⟨hrev, hcur, hnone⟩ | ⟨hrev, hcur⟩
      · rw [hcur, hnone]
        simp [hrev, hrev.2.2]
      · simp [hrev, hcur]
    · rename_i hget
      rw [after_eq (.inr (by simpa using hget)), after_eq (.inl hlate)]
      simp only [load]
      cases lastWrite k ops with
      | some w => simp
      | none => cases hcur : s.cur k <;> cases s.late k <;> simp

end Deferred
