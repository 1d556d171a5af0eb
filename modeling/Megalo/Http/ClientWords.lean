import Megalo.Http.Client
import Megalo.Http.Grammar

/-!
# The words that the response scanner follows

- a row of the table that is `Spelled` sends each of its letters on, and all other characters to one state
  (`next_spelled`);
- a name leads to the state of the letters of one of the three names, or to 21 (`enters_name`), and the colon behind it
  to the state of that name, or to 22 (`next_colon`);
- a value leads to the state of the letters of `close` or `chunked` behind the name that it is followed for, to that of
  a number behind `content-length`, or to 23 (`enters_value`, `next_return`).
-/

namespace Megalo

open ActionTable.Machine

namespace ClientMachine

/-! ## Letters -/

/-- The class of a small letter, or of a hyphen. -/
def letterClass (d : UInt8) : CharClass := if d = 45 then one 45 else letter (d.toNat - 32)

/-- A row of `table` goes on with the letters `ds`, and to `other` with all else in `rest`, but for the characters of
`breaks`. -/
def Spelled (goal : UInt8 → Nat) (ds : List UInt8) (other : Nat) (rest : CharClass) (breaks : List UInt8)
    (row : List (CharClass × ActionTable.Goto ClientAction)) : Prop :=
  (∀ d ∈ ds, d = 45 ∨ 97 ≤ d ∧ d ≤ 122) ∧
    row.filter (fun x => breaks.all fun b => x.1 ≠ one b.toNat) =
      ds.map (fun d => (letterClass d, st (goal d))) ++ [(rest, st other)]

instance (goal : UInt8 → Nat) (ds : List UInt8) (other : Nat) (rest : CharClass) (breaks : List UInt8)
    (row : List (CharClass × ActionTable.Goto ClientAction)) : Decidable (Spelled goal ds other rest breaks row) :=
  inferInstanceAs (Decidable (_ ∧ _))

variable {buffer name value : List UInt8} {c d : UInt8} {n other : Nat} {goal : UInt8 → Nat} {ds : List UInt8}
  {rest : CharClass} {breaks : List UInt8}

theorem accepts_letterClass (hd : d = 45 ∨ 97 ≤ d ∧ d ≤ 122) :
    accepts c (letterClass d) = true ↔ toLower c = d := by
  by_cases h45 : d = 45
  · -- no capital letter is read as a hyphen
    rw [letterClass, if_pos h45, h45, ← UInt8.toNat_inj, toNat_toLower]
    refine (accepts_one_iff (d := 45)).trans ?_
    rw [← UInt8.toNat_inj]
    simp only [UInt8.reduceToNat]
    split <;> omega
  · rw [letterClass, if_neg h45]
    exact accepts_letter_iff (hd.resolve_left h45)

/-- The characters that go on. -/
theorem find_letters (hds : ∀ d ∈ ds, d = 45 ∨ 97 ≤ d ∧ d ≤ 122) (hrest : accepts c rest = true) :
    (((ds.map fun d => (letterClass d, st (goal d))) ++ [(rest, st other)]).find? fun x => accepts c x.1).map Prod.snd =
      some (st (if toLower c ∈ ds then goal (toLower c) else other)) := by
  induction ds with
  | nil =>
    rw [List.map_nil, List.nil_append, if_neg List.not_mem_nil]
    simp only [List.find?_cons, hrest, Option.map_some]
  | cons d ds ih =>
    obtain ⟨hd, hds⟩ := List.forall_mem_cons.mp hds
    rw [List.map_cons, List.cons_append]
    by_cases hc : toLower c = d
    · have hacc := (accepts_letterClass hd).mpr hc
      simp only [List.find?_cons, hacc, Option.map_some, hc, List.mem_cons_self, if_true]
    · have hacc : accepts c (letterClass d) = false := Bool.eq_false_iff.mpr fun h => hc ((accepts_letterClass hd).mp h)
      simp only [List.find?_cons, hacc, List.mem_cons, hc, false_or]
      exact ih hds

/-- Where a spelled row leads. -/
theorem next_spelled {row : List (CharClass × ActionTable.Goto ClientAction)} (hrow : table.lookup n = some row)
    (h : Spelled goal ds other rest breaks row) (hbreaks : c ∉ breaks) (hrest : accepts c rest = true) :
    next n c = some ⟨[], if toLower c ∈ ds then goal (toLower c) else other⟩ := by
  -- an entry that is left out does not accept the character
  have hfind : row.find? (fun x => accepts c x.1) =
      (row.filter fun x => breaks.all fun b => x.1 ≠ one b.toNat).find? fun x => accepts c x.1 := by
    rw [List.find?_filter]
    refine congrArg (fun p => row.find? p) (funext fun x => ?_)
    cases hacc : accepts c x.1 with
    | false => simp
    | true =>
      have hall : (breaks.all fun b => x.1 ≠ one b.toNat) = true := by
        refine List.all_eq_true.mpr fun b hb => decide_eq_true fun heq => hbreaks ?_
        rw [heq] at hacc
        rw [accepts_one_iff.mp hacc]
        exact hb
      rw [hall]
      rfl
  rw [next, hrow, Option.bind_some, hfind, h.2, find_letters h.1 hrest]
  rfl

/-! ## Names -/

/-- The states inside the three names. -/
def nameTrail : List (Nat × List UInt8) := trail.map fun e => (e.1, bytes e.2)

/-- The state behind the colon: that of one of the three names, or 22. -/
def colonState (name : List UInt8) : Nat := follow (names.map fun e => (e.1, bytes e.2)) 22 (name.map toLower)

/-- The states between the lines, in one of which a `connection` that is `close` is not noted yet. -/
def lineState (pending : Bool) : Nat := if pending then 43 else 20

/-- What is done at the first character of a line. -/
def lineActions (pending : Bool) : List ClientAction := if pending then [.writeConnectionClose] else []

/-- What the states inside the names do, and the colon behind a name. -/
theorem names_ok :
    (∀ e ∈ nameTrail, e.2.dropLast = [] ∨ ∃ e' ∈ nameTrail, e'.2 = e.2.dropLast) ∧
    (∀ e ∈ nameTrail, ∃ row ∈ table.lookup e.1,
      Spelled (fun d => follow nameTrail 21 (e.2 ++ [d])) (letters nameTrail e.2) 21 Machine.token [58] row) ∧
    next 21 58 = some ⟨[.writeField], 22⟩ ∧
    (∀ e ∈ nameTrail, next e.1 58 = some ⟨[.writeField], follow (names.map fun e => (e.1, bytes e.2)) 22 e.2⟩) ∧
    ∀ e ∈ names, ∃ e' ∈ nameTrail, e'.2 = bytes e.2 := by
  decide +kernel

/-- The characters of a name. -/
theorem token_ok : ∀ c, Grammar.isToken c = true →
    c ∉ [58] ∧ accepts c Machine.token = true ∧ next 21 c = some ⟨[], 21⟩ ∧ ∀ pending,
      next (lineState pending) c = some ⟨lineActions pending ++ [.startField], follow nameTrail 21 [toLower c]⟩ :=
  Machine.forall_byte (by decide +kernel)

/-- The names are followed. -/
theorem name_followed (buffer : List UInt8) :
    (clientMachine buffer).Followed toLower nameTrail 21 fun c => Grammar.isToken c = true where
  closed := names_ok.1
  inside e he c hc := by
    obtain ⟨row, hrow, hspelled⟩ := names_ok.2.1 e he
    obtain ⟨hcolon, htoken, -⟩ := token_ok c hc
    rw [follow_letters]
    exact next_spelled hrow hspelled hcolon htoken
  other c hc := (token_ok c hc).2.2.1

/-- A name, from its first letter. -/
theorem enters_name (buffer : List UInt8) (pending : Bool) (hne : name ≠ [])
    (h : ∀ c ∈ name, Grammar.isToken c = true) :
    enters (clientMachine buffer).next (lineActions pending ++ [.startField]) name (lineState pending) =
      some (follow nameTrail 21 (name.map toLower)) := by
  cases name with
  | nil => exact absurd rfl hne
  | cons c name =>
    have hfirst := (token_ok c (h c List.mem_cons_self)).2.2.2 pending
    exact (name_followed buffer).enters hfirst fun c' hc' => h c' (List.mem_cons_of_mem _ hc')

/-- The colon behind a name. -/
theorem next_colon (name : List UInt8) :
    next (follow nameTrail 21 (name.map toLower)) 58 = some ⟨[.writeField], colonState name⟩ := by
  obtain ⟨-, -, hcolon, hcolons, hnames⟩ := names_ok
  rcases follow_cases nameTrail 21 (name.map toLower) with hmem | ⟨hother, hnone⟩
  · exact hcolons _ hmem
  · have hstate : colonState name = 22 := by
      refine follow_other fun e he heq => ?_
      obtain ⟨e', he', rfl⟩ := List.mem_map.mp he
      obtain ⟨e'', he'', heq'⟩ := hnames e' he'
      exact hnone e'' he'' (heq'.trans heq)
    rw [hother, hstate]
    exact hcolon

/-! ## Values -/

/-- The states inside `close` and `chunked`, behind the names that they follow. -/
def valueTrail (n : Nat) : List (Nat × List UInt8) :=
  if n = 35 then [(96, bytes "c"), (97, bytes "cl"), (98, bytes "clo"), (99, bytes "clos"), (100, bytes "close")]
  else if n = 61 then
    [(81, bytes "c"), (82, bytes "ch"), (83, bytes "chu"), (84, bytes "chun"), (85, bytes "chunk"),
      (86, bytes "chunke"), (87, bytes "chunked")]
  else []

/-- The character is not the end of a line. -/
def inLine (c : UInt8) : Bool := c ≠ 10 && c ≠ 13

/-- The end of a line behind a value. -/
def valueEnd (state : Nat) : ActionTable.Goto ClientAction :=
  if state = 100 then ⟨[.writeValue], 88⟩ else if state = 87 then ⟨[.writeValue], 71⟩
  else if state = 119 then ⟨[.writeContentLen, .writeValue], 24⟩ else ⟨[.writeValue], 24⟩

/-- What the states inside the values do, and the end of a line behind a value. -/
theorem values_ok :
    (∀ n ∈ [22, 35, 61], ∀ e ∈ valueTrail n, (e.2.dropLast = [] ∨ ∃ e' ∈ valueTrail n, e'.2 = e.2.dropLast) ∧
      (∃ row ∈ table.lookup e.1,
        Spelled (fun d => follow (valueTrail n) 23 (e.2 ++ [d])) (letters (valueTrail n) e.2) 23 notLf [10, 13] row) ∧
      next e.1 13 = some (valueEnd e.1)) ∧
    next 23 13 = some (valueEnd 23) ∧ next 119 13 = some (valueEnd 119) := by
  decide +kernel

/-- The characters of a value. -/
theorem inLine_ok : ∀ c, inLine c = true →
    (c ∉ [10, 13] ∧ accepts c notLf = true) ∧ next 23 c = some ⟨[], 23⟩ ∧
    next 119 c = some ⟨[], if isDigitIn 10 c = true then 119 else 23⟩ :=
  Machine.forall_byte (by decide +kernel)

/-- The first character of a value. -/
theorem value_first : ∀ c, inLine c = true → accepts c blank = false →
    next 112 c = some ⟨[.mark], if isDigitIn 10 c = true then 119 else 23⟩ ∧
    ∀ n ∈ [22, 35, 61], next n c = some ⟨[.mark], follow (valueTrail n) 23 [toLower c]⟩ :=
  Machine.forall_byte (by decide +kernel)

/-- The values are followed. -/
theorem value_followed (buffer : List UInt8) (hn : n ∈ [22, 35, 61]) :
    (clientMachine buffer).Followed toLower (valueTrail n) 23 fun c => inLine c = true where
  closed e he := (values_ok.1 n hn e he).1
  inside e he c hc := by
    obtain ⟨row, hrow, hspelled⟩ := (values_ok.1 n hn e he).2.1
    obtain ⟨⟨hbreaks, hline⟩, -⟩ := inLine_ok c hc
    rw [follow_letters]
    exact next_spelled hrow hspelled hbreaks hline
  other c hc := (inLine_ok c hc).2.1

/-- The state behind a value. -/
def valueState (n : Nat) (value : List UInt8) : Nat :=
  if n = 112 then if value.all (isDigitIn 10) then 119 else 23 else follow (valueTrail n) 23 (value.map toLower)

/-- The rest of a value behind `content-length`. -/
theorem quiet_number (buffer : List UInt8) (digits : Bool) (h : ∀ c ∈ value, inLine c = true) :
    quiet (clientMachine buffer).next value (if digits then 119 else 23) =
      some (if digits && value.all (isDigitIn 10) then 119 else 23) := by
  induction value generalizing digits with
  | nil => rw [List.all_nil, Bool.and_true, quiet]
  | cons c value ih =>
    have hstep : next (if digits then 119 else 23) c = some ⟨[], if digits && isDigitIn 10 c then 119 else 23⟩ := by
      have hc := inLine_ok c (h c List.mem_cons_self)
      cases digits with
      | true => exact hc.2.2
      | false => exact hc.2.1
    rw [quiet_cons hstep, ih _ fun c' hc' => h c' (List.mem_cons_of_mem _ hc'), List.all_cons, Bool.and_assoc]

/-- A value that does not begin with a blank, from its first character. -/
theorem enters_value (buffer : List UInt8) (hn : n ∈ [22, 35, 61, 112]) (hne : value ≠ [])
    (hblank : ∀ c ∈ value.head?, accepts c blank = false) (h : ∀ c ∈ value, inLine c = true) :
    enters (clientMachine buffer).next [.mark] value n = some (valueState n value) := by
  cases value with
  | nil => exact absurd rfl hne
  | cons c value =>
    obtain ⟨hnumber, hword⟩ := value_first c (h c List.mem_cons_self) (hblank c rfl)
    have htail : ∀ c' ∈ value, inLine c' = true := fun c' hc' => h c' (List.mem_cons_of_mem _ hc')
    by_cases h112 : n = 112
    · rw [h112, enters_cons hnumber, quiet_number buffer _ htail, valueState, if_pos rfl,
        List.all_cons]
    · have hn' : n ∈ [22, 35, 61] := by simpa [h112] using hn
      rw [valueState, if_neg h112]
      exact (value_followed buffer hn').enters (hword n hn') htail

/-- The carriage return behind a value. -/
theorem next_return (hn : n ∈ [22, 35, 61, 112]) (value : List UInt8) :
    next (valueState n value) 13 = some (valueEnd (valueState n value)) := by
  unfold valueState
  by_cases h112 : n = 112
  · rw [if_pos h112]
    split
    · exact values_ok.2.2
    · exact values_ok.2.1
  · have hn' : n ∈ [22, 35, 61] := by simpa [h112] using hn
    rw [if_neg h112]
    rcases follow_cases (valueTrail n) 23 (value.map toLower) with hmem | hother
    · exact (values_ok.1 n hn' _ hmem).2.2
    · rw [hother.1]
      exact values_ok.2.1

end ClientMachine

end Megalo
