import Megalo.Http.Machine
import Megalo.Lib.ActionTable
import Megalo.Util.Chars

/-!
# The machine of the response scanner

The scanner of responses and of chunk headers is a second generated state machine. `tr` is the list of its transitions
with actions, and `table` its states, as the generated code has them: of the entries of a state, the first that holds a
character counts, as the generated code asks for single characters before it asks for ranges.

The names `connection`, `content-length` and `transfer-encoding` are followed letter by letter (`trail`), in capital or
small letters, and the state behind such a name knows it; behind any other name the state is 22. `machine_ok` is what
the proofs need of the whole table, while none of these names is in front of a line break.
-/

namespace Megalo

/-- The actions of the machine; `start_value` is `mark`. -/
inductive ClientAction
  | mark
  | startField
  | writeField
  | writeContentLen
  | writeConnectionClose
  | writeValue
  | reasonPhrase
  | statusCode
  | httpVersion
  | chunkSize
  | transChunked
  | done
  deriving DecidableEq

namespace ClientMachine

/-- One character. -/
def one (c : Nat) : CharClass := [(c, c)]

/-- A letter, capital or small. -/
def letter (c : Nat) : CharClass := [(c, c), (c + 32, c + 32)]

/-- `space`, but for line breaks. -/
def blank : CharClass := [(9, 9), (11, 12), (32, 32)]

/-- `space`. -/
def space : CharClass := [(9, 13), (32, 32)]

/-- `any`, but for a line feed. -/
def notLf : CharClass := [(0, 9), (11, 255)]

/-- `goto st`. -/
def st (target : Nat) : ActionTable.Goto ClientAction := ⟨[], target⟩

/-- `goto tr`. -/
def tr : Nat → ActionTable.Goto ClientAction
  | 0 => ⟨[.mark], 2⟩
  | 2 => ⟨[.mark], 8⟩
  | 3 => ⟨[.chunkSize, .done], 120⟩
  | 4 => ⟨[.chunkSize], 3⟩
  | 6 => ⟨[.chunkSize], 4⟩
  | 7 => ⟨[.done], 120⟩
  | 8 => ⟨[.startField], 5⟩
  | 9 => ⟨[.writeField, .mark, .writeValue, .done], 120⟩
  | 10 => ⟨[.writeField, .mark, .writeValue], 3⟩
  | 12 => ⟨[.writeField, .mark, .writeValue], 4⟩
  | 13 => ⟨[.writeField, .mark], 6⟩
  | 14 => ⟨[.mark], 7⟩
  | 15 => ⟨[.writeValue, .done], 120⟩
  | 16 => ⟨[.writeValue], 3⟩
  | 18 => ⟨[.writeValue], 4⟩
  | 26 => ⟨[.httpVersion], 16⟩
  | 27 => ⟨[.mark], 17⟩
  | 28 => ⟨[.statusCode], 18⟩
  | 30 => ⟨[.mark], 19⟩
  | 32 => ⟨[.reasonPhrase], 20⟩
  | 33 => ⟨[.reasonPhrase], 24⟩
  | 35 => ⟨[.startField], 21⟩
  | 36 => ⟨[.startField], 25⟩
  | 37 => ⟨[.startField], 44⟩
  | 39 => ⟨[.writeField], 22⟩
  | 40 => ⟨[.mark], 23⟩
  | 41 => ⟨[.mark], 22⟩
  | 42 => ⟨[.mark, .writeValue], 20⟩
  | 43 => ⟨[.mark, .writeValue], 24⟩
  | 45 => ⟨[.writeValue], 20⟩
  | 46 => ⟨[.writeValue], 24⟩
  | 58 => ⟨[.writeField], 35⟩
  | 59 => ⟨[.mark], 35⟩
  | 60 => ⟨[.mark, .writeValue], 36⟩
  | 61 => ⟨[.mark, .writeValue], 95⟩
  | 62 => ⟨[.mark], 96⟩
  | 64 => ⟨[.done], 122⟩
  | 66 => ⟨[.startField], 90⟩
  | 74 => ⟨[.writeConnectionClose, .done], 120⟩
  | 75 => ⟨[.writeConnectionClose], 3⟩
  | 76 => ⟨[.writeConnectionClose, .startField], 21⟩
  | 77 => ⟨[.writeConnectionClose, .startField], 25⟩
  | 78 => ⟨[.writeConnectionClose, .startField], 44⟩
  | 95 => ⟨[.writeField], 61⟩
  | 96 => ⟨[.mark], 61⟩
  | 97 => ⟨[.mark, .writeValue], 62⟩
  | 98 => ⟨[.mark, .writeValue], 80⟩
  | 99 => ⟨[.mark], 81⟩
  | 101 => ⟨[.done], 121⟩
  | 103 => ⟨[.mark, .startField], 73⟩
  | 104 => ⟨[.mark], 64⟩
  | 111 => ⟨[.writeValue, .transChunked], 20⟩
  | 112 => ⟨[.writeValue], 71⟩
  | 113 => ⟨[.transChunked], 20⟩
  | 136 => ⟨[.writeValue], 43⟩
  | 137 => ⟨[.writeValue], 88⟩
  | 148 => ⟨[.writeField], 112⟩
  | 149 => ⟨[.mark], 112⟩
  | 150 => ⟨[.mark, .writeValue], 113⟩
  | 151 => ⟨[.mark, .writeValue], 118⟩
  | 152 => ⟨[.mark], 119⟩
  | 154 => ⟨[.done], 123⟩
  | 156 => ⟨[.mark, .startField], 117⟩
  | 157 => ⟨[.mark], 115⟩
  | 158 => ⟨[.writeContentLen, .writeValue], 20⟩
  | 159 => ⟨[.writeContentLen, .writeValue], 24⟩
  | _ => ⟨[], 0⟩

/-- The states. -/
def table : List (Nat × List (CharClass × ActionTable.Goto ClientAction)) :=
  [ (1, [(one 72, tr 2), (Machine.xdigit, tr 0)]),
    (2, [(one 10, tr 3), (one 13, tr 4), (one 59, tr 6), (Machine.xdigit, st 2)]),
    (3, [(one 10, tr 7)]),
    (4, [(Machine.token, tr 8)]),
    (5, [(one 10, tr 9), (one 13, tr 10), (one 59, tr 12), (one 61, tr 13), (Machine.token, st 5)]),
    (6, [(Machine.token, tr 14)]),
    (7, [(one 10, tr 15), (one 13, tr 16), (one 59, tr 18), (Machine.token, st 7)]),
    (8, [(one 84, st 9)]),
    (9, [(one 84, st 10)]),
    (10, [(one 80, st 11)]),
    (11, [(one 47, st 12)]),
    (12, [(Machine.digit, st 13)]),
    (13, [(one 46, st 14), (Machine.digit, st 13)]),
    (14, [(Machine.digit, st 15)]),
    (15, [(one 32, tr 26), (Machine.digit, st 15)]),
    (16, [(Machine.digit, tr 27)]),
    (17, [(one 32, tr 28), (Machine.digit, st 17)]),
    (18, [(notLf, tr 30)]),
    (19, [(one 10, tr 32), (one 13, tr 33), (notLf, st 19)]),
    (20, [(one 10, tr 7), (one 13, st 3), (letter 67, tr 36), (letter 84, tr 37), (Machine.token, tr 35)]),
    (21, [(one 58, tr 39), (Machine.token, st 21)]),
    (22, [(one 10, tr 42), (one 13, tr 43), (blank, tr 41), (notLf, tr 40)]),
    (23, [(one 10, tr 45), (one 13, tr 46), (notLf, st 23)]),
    (24, [(one 10, st 20)]),
    (25, [(one 58, tr 39), (letter 79, st 26), (Machine.token, st 21)]),
    (26, [(one 58, tr 39), (letter 78, st 27), (Machine.token, st 21)]),
    (27, [(one 58, tr 39), (letter 78, st 28), (letter 84, st 101), (Machine.token, st 21)]),
    (28, [(one 58, tr 39), (letter 69, st 29), (Machine.token, st 21)]),
    (29, [(one 58, tr 39), (letter 67, st 30), (Machine.token, st 21)]),
    (30, [(one 58, tr 39), (letter 84, st 31), (Machine.token, st 21)]),
    (31, [(one 58, tr 39), (letter 73, st 32), (Machine.token, st 21)]),
    (32, [(one 58, tr 39), (letter 79, st 33), (Machine.token, st 21)]),
    (33, [(one 58, tr 39), (letter 78, st 34), (Machine.token, st 21)]),
    (34, [(one 58, tr 58), (Machine.token, st 21)]),
    (35, [(one 10, tr 60), (one 13, tr 61), (letter 67, tr 62), (blank, tr 59), (notLf, tr 40)]),
    (36, [(one 10, tr 64), (one 13, st 89), (letter 67, tr 66), (letter 84, tr 37), (blank, st 37),
      (Machine.token, tr 35)]),
    (37, [(letter 67, st 38), (space, st 37)]),
    (38, [(letter 76, st 39)]),
    (39, [(letter 79, st 40)]),
    (40, [(letter 83, st 41)]),
    (41, [(letter 69, st 42)]),
    (42, [(one 10, st 43), (one 13, st 88)]),
    (43, [(one 10, tr 74), (one 13, tr 75), (letter 67, tr 77), (letter 84, tr 78), (Machine.token, tr 76)]),
    (44, [(one 58, tr 39), (letter 82, st 45), (Machine.token, st 21)]),
    (45, [(one 58, tr 39), (letter 65, st 46), (Machine.token, st 21)]),
    (46, [(one 58, tr 39), (letter 78, st 47), (Machine.token, st 21)]),
    (47, [(one 58, tr 39), (letter 83, st 48), (Machine.token, st 21)]),
    (48, [(one 58, tr 39), (letter 70, st 49), (Machine.token, st 21)]),
    (49, [(one 58, tr 39), (letter 69, st 50), (Machine.token, st 21)]),
    (50, [(one 58, tr 39), (letter 82, st 51), (Machine.token, st 21)]),
    (51, [(one 45, st 52), (one 58, tr 39), (Machine.token, st 21)]),
    (52, [(one 58, tr 39), (letter 69, st 53), (Machine.token, st 21)]),
    (53, [(one 58, tr 39), (letter 78, st 54), (Machine.token, st 21)]),
    (54, [(one 58, tr 39), (letter 67, st 55), (Machine.token, st 21)]),
    (55, [(one 58, tr 39), (letter 79, st 56), (Machine.token, st 21)]),
    (56, [(one 58, tr 39), (letter 68, st 57), (Machine.token, st 21)]),
    (57, [(one 58, tr 39), (letter 73, st 58), (Machine.token, st 21)]),
    (58, [(one 58, tr 39), (letter 78, st 59), (Machine.token, st 21)]),
    (59, [(one 58, tr 39), (letter 71, st 60), (Machine.token, st 21)]),
    (60, [(one 58, tr 95), (Machine.token, st 21)]),
    (61, [(one 10, tr 97), (one 13, tr 98), (letter 67, tr 99), (blank, tr 96), (notLf, tr 40)]),
    (62, [(one 10, tr 101), (one 13, st 72), (letter 67, tr 103), (letter 84, tr 37), (blank, st 63),
      (Machine.token, tr 35)]),
    (63, [(letter 67, tr 104), (space, st 63)]),
    (64, [(letter 72, st 65)]),
    (65, [(letter 85, st 66)]),
    (66, [(letter 78, st 67)]),
    (67, [(letter 75, st 68)]),
    (68, [(letter 69, st 69)]),
    (69, [(letter 68, st 70)]),
    (70, [(one 10, tr 111), (one 13, tr 112)]),
    (71, [(one 10, tr 113)]),
    (72, [(one 10, tr 101), (letter 67, tr 104), (space, st 63)]),
    (73, [(one 58, tr 39), (letter 72, st 74), (letter 79, st 26), (Machine.token, st 21)]),
    (74, [(one 58, tr 39), (letter 85, st 75), (Machine.token, st 21)]),
    (75, [(one 58, tr 39), (letter 78, st 76), (Machine.token, st 21)]),
    (76, [(one 58, tr 39), (letter 75, st 77), (Machine.token, st 21)]),
    (77, [(one 58, tr 39), (letter 69, st 78), (Machine.token, st 21)]),
    (78, [(one 58, tr 39), (letter 68, st 79), (Machine.token, st 21)]),
    (79, [(one 10, tr 111), (one 13, tr 112), (one 58, tr 39), (Machine.token, st 21)]),
    (80, [(one 10, st 62), (letter 67, tr 104), (space, st 63)]),
    (81, [(one 10, tr 45), (one 13, tr 46), (letter 72, st 82), (notLf, st 23)]),
    (82, [(one 10, tr 45), (one 13, tr 46), (letter 85, st 83), (notLf, st 23)]),
    (83, [(one 10, tr 45), (one 13, tr 46), (letter 78, st 84), (notLf, st 23)]),
    (84, [(one 10, tr 45), (one 13, tr 46), (letter 75, st 85), (notLf, st 23)]),
    (85, [(one 10, tr 45), (one 13, tr 46), (letter 69, st 86), (notLf, st 23)]),
    (86, [(one 10, tr 45), (one 13, tr 46), (letter 68, st 87), (notLf, st 23)]),
    (87, [(one 10, tr 111), (one 13, tr 112), (notLf, st 23)]),
    (88, [(one 10, st 43)]),
    (89, [(one 10, tr 64), (letter 67, st 38), (space, st 37)]),
    (90, [(one 58, tr 39), (letter 76, st 91), (letter 79, st 26), (Machine.token, st 21)]),
    (91, [(one 58, tr 39), (letter 79, st 92), (Machine.token, st 21)]),
    (92, [(one 58, tr 39), (letter 83, st 93), (Machine.token, st 21)]),
    (93, [(one 58, tr 39), (letter 69, st 94), (Machine.token, st 21)]),
    (94, [(one 10, st 43), (one 13, st 88), (one 58, tr 39), (Machine.token, st 21)]),
    (95, [(one 10, st 36), (letter 67, st 38), (space, st 37)]),
    (96, [(one 10, tr 45), (one 13, tr 46), (letter 76, st 97), (notLf, st 23)]),
    (97, [(one 10, tr 45), (one 13, tr 46), (letter 79, st 98), (notLf, st 23)]),
    (98, [(one 10, tr 45), (one 13, tr 46), (letter 83, st 99), (notLf, st 23)]),
    (99, [(one 10, tr 45), (one 13, tr 46), (letter 69, st 100), (notLf, st 23)]),
    (100, [(one 10, tr 136), (one 13, tr 137), (notLf, st 23)]),
    (101, [(one 58, tr 39), (letter 69, st 102), (Machine.token, st 21)]),
    (102, [(one 58, tr 39), (letter 78, st 103), (Machine.token, st 21)]),
    (103, [(one 58, tr 39), (letter 84, st 104), (Machine.token, st 21)]),
    (104, [(one 45, st 105), (one 58, tr 39), (Machine.token, st 21)]),
    (105, [(one 58, tr 39), (letter 76, st 106), (Machine.token, st 21)]),
    (106, [(one 58, tr 39), (letter 69, st 107), (Machine.token, st 21)]),
    (107, [(one 58, tr 39), (letter 78, st 108), (Machine.token, st 21)]),
    (108, [(one 58, tr 39), (letter 71, st 109), (Machine.token, st 21)]),
    (109, [(one 58, tr 39), (letter 84, st 110), (Machine.token, st 21)]),
    (110, [(one 58, tr 39), (letter 72, st 111), (Machine.token, st 21)]),
    (111, [(one 58, tr 148), (Machine.token, st 21)]),
    (112, [(one 10, tr 150), (one 13, tr 151), (blank, tr 149), (Machine.digit, tr 152), (notLf, tr 40)]),
    (113, [(one 10, tr 154), (one 13, st 116), (letter 67, tr 36), (letter 84, tr 37), (blank, st 114),
      (Machine.digit, tr 156), (Machine.token, tr 35)]),
    (114, [(space, st 114), (Machine.digit, tr 157)]),
    (115, [(one 10, tr 158), (one 13, tr 159), (Machine.digit, st 115)]),
    (116, [(one 10, tr 154), (space, st 114), (Machine.digit, tr 157)]),
    (117, [(one 10, tr 158), (one 13, tr 159), (one 58, tr 39), (Machine.digit, st 117), (Machine.token, st 21)]),
    (118, [(one 10, st 113), (space, st 114), (Machine.digit, tr 157)]),
    (119, [(one 10, tr 158), (one 13, tr 159), (Machine.digit, st 119), (notLf, st 23)]),
    (120, []),
    (121, [(letter 67, tr 104), (space, st 63)]),
    (122, [(letter 67, st 38), (space, st 37)]),
    (123, [(space, st 114), (Machine.digit, tr 157)]) ]

/-- The character is in the class. -/
def accepts (c : UInt8) (cls : CharClass) : Bool := cls.any fun r => r.1 ≤ c.toNat && c.toNat ≤ r.2

section Accepts

variable {c d : UInt8}

theorem toNat_toLower (c : UInt8) :
    (toLower c).toNat = if 65 ≤ c.toNat ∧ c.toNat ≤ 90 then c.toNat + 32 else c.toNat := by
  have hiff : (65 ≤ c ∧ c ≤ 90) ↔ 65 ≤ c.toNat ∧ c.toNat ≤ 90 := Iff.rfl
  unfold toLower
  by_cases hc : 65 ≤ c.toNat ∧ c.toNat ≤ 90
  · rw [if_pos (hiff.mpr hc), if_pos hc, UInt8.toNat_add]
    simp only [UInt8.reduceToNat]
    omega
  · rw [if_neg fun h => hc (hiff.mp h), if_neg hc]

theorem accepts_one_iff : accepts c (one d.toNat) = true ↔ c = d := by
  rw [← UInt8.toNat_inj]
  simp only [accepts, one, List.any_cons, List.any_nil, Bool.or_false, Bool.and_eq_true, decide_eq_true_eq]
  omega

/-- A letter is read as a small one. -/
theorem accepts_letter_iff (hd : 97 ≤ d ∧ d ≤ 122) : accepts c (letter (d.toNat - 32)) = true ↔ toLower c = d := by
  obtain ⟨hlow, hhigh⟩ : 97 ≤ d.toNat ∧ d.toNat ≤ 122 := hd
  rw [← UInt8.toNat_inj, toNat_toLower]
  simp only [accepts, letter, List.any_cons, List.any_nil, Bool.or_false, Bool.or_eq_true, Bool.and_eq_true,
    decide_eq_true_eq]
  split <;> omega

end Accepts

/-- Where a character leads; `none` is `st0`. -/
def next (cs : Nat) (c : UInt8) : Option (ActionTable.Goto ClientAction) :=
  (table.lookup cs).bind fun row => (row.find? fun e => accepts c e.1).map Prod.snd

/-- A step is an entry of its state. -/
theorem next_mem {cs : Nat} {c : UInt8} {g : ActionTable.Goto ClientAction} (h : next cs c = some g) :
    ∃ row ∈ table, row.1 = cs ∧ ∃ e ∈ row.2, e.2 = g ∧ accepts c e.1 = true := by
  obtain ⟨row, hrow, hg⟩ := Option.bind_eq_some_iff.mp h
  obtain ⟨e, he, rfl⟩ := Option.map_eq_some_iff.mp hg
  obtain ⟨l₁, l₂, htable, -⟩ := List.lookup_eq_some_iff.mp hrow
  refine ⟨(cs, row), by rw [htable]; exact List.mem_append_right _ List.mem_cons_self, rfl, e,
    List.mem_of_find?_eq_some he, rfl, ?_⟩
  exact List.find?_some (p := fun e : CharClass × ActionTable.Goto ClientAction => accepts c e.1) he

/-! ## What is true of the whole table -/

/-- The three names that are followed. -/
def names : List (Nat × String) := [(35, "connection"), (61, "transfer-encoding"), (112, "content-length")]

/-- The states inside the three names, each with the letters in front of it. -/
def trail : List (Nat × String) :=
  [ (25, "c"), (26, "co"), (27, "con"), (28, "conn"), (29, "conne"), (30, "connec"), (31, "connect"),
    (32, "connecti"), (33, "connectio"), (34, "connection"), (101, "cont"), (102, "conte"), (103, "conten"),
    (104, "content"), (105, "content-"), (106, "content-l"), (107, "content-le"), (108, "content-len"),
    (109, "content-leng"), (110, "content-lengt"), (111, "content-length"), (44, "t"), (45, "tr"), (46, "tra"),
    (47, "tran"), (48, "trans"), (49, "transf"), (50, "transfe"), (51, "transfer"), (52, "transfer-"),
    (53, "transfer-e"), (54, "transfer-en"), (55, "transfer-enc"), (56, "transfer-enco"), (57, "transfer-encod"),
    (58, "transfer-encodi"), (59, "transfer-encodin"), (60, "transfer-encoding") ]

/-- The states in which a name is complete, so that its length is known. -/
def named (cs : Nat) : Bool :=
  [6, 7, 22, 23, 35, 61, 112, 119].contains cs || (81 ≤ cs && cs ≤ 87) || (96 ≤ cs && cs ≤ 100)

/-- The states that are reached while none of the three names is in front of a line break. -/
def filled (cs : Nat) : Bool :=
  (1 ≤ cs && cs ≤ 35) || [43, 61, 71, 88, 119].contains cs || (44 ≤ cs && cs ≤ 60) || (81 ≤ cs && cs ≤ 87) ||
    (96 ≤ cs && cs ≤ 112)

/-- Whether the length of a name is known after the actions; `none` when it is used before that. -/
def nameKnown : Bool → List ClientAction → Option Bool
  | known, [] => some known
  | known, a :: actions =>
    if a = .writeValue && !known then none else nameKnown (a = .writeField || (known && a ≠ .startField)) actions

/-- One of the three names, in front of a line break. -/
def emptyEntry (cs : Nat) (cls : CharClass) : Bool :=
  names.any (fun e => e.1 = cs) && (cls = one 10 || cls = one 13)

/-- The letters in front of a state are those of an entry that leads to it. -/
def follows (cs : Nat) (cls : CharClass) (target : Nat) : Bool :=
  (trail.all fun e => e.1 ≠ target || ((bytes e.2).length = 1 ||
    trail.any fun e' => e'.1 = cs && bytes e'.2 = (bytes e.2).dropLast) &&
    (bytes e.2).getLast?.any fun d =>
      (cls = letter (d.toNat - 32) && 97 ≤ d && d ≤ 122) || cls = one d.toNat && d = 45) &&
  names.all fun e => e.1 ≠ target || (cs = target && cls = blank) || (trail.contains (cs, e.2) && cls = one 58)

/-- What the proofs need of a transition from a filled state. -/
structure Fine (cs : Nat) (cls : CharClass) (g : ActionTable.Goto ClientAction) : Prop where
  known : ∃ known ∈ nameKnown (named cs) g.actions, named g.target = true → known = true
  goes : .done ∉ g.actions → emptyEntry cs cls = false → filled g.target = true
  ends : .done ∈ g.actions → g.target = 120
  follows : follows cs cls g.target = true

instance (cs : Nat) (cls : CharClass) (g : ActionTable.Goto ClientAction) : Decidable (Fine cs cls g) :=
  decidable_of_iff
    ((∃ known ∈ nameKnown (named cs) g.actions, named g.target = true → known = true) ∧
      (.done ∉ g.actions → emptyEntry cs cls = false → filled g.target = true) ∧
      (.done ∈ g.actions → g.target = 120) ∧ ClientMachine.follows cs cls g.target = true)
    ⟨fun ⟨h₁, h₂, h₃, h₄⟩ => ⟨h₁, h₂, h₃, h₄⟩, fun h => ⟨h.known, h.goes, h.ends, h.follows⟩⟩

theorem machine_ok : ∀ row ∈ table, filled row.1 = true → ∀ e ∈ row.2, Fine row.1 e.1 e.2 := by decide +kernel

/-- Every step from a filled state is fine. -/
theorem next_fine {cs : Nat} {c : UInt8} {g : ActionTable.Goto ClientAction} (hcs : filled cs = true)
    (h : next cs c = some g) : ∃ cls, accepts c cls = true ∧ Fine cs cls g := by
  obtain ⟨row, hrow, rfl, e, he, rfl, hacc⟩ := next_mem h
  exact ⟨e.1, hacc, machine_ok row hrow hcs e he⟩

end ClientMachine

end Megalo
