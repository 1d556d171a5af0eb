import Mathlib.Data.List.Basic

/-!
# The machine of the request scanner

The scanner of requests is a generated state machine: for each state, the ranges of characters and where they lead. `tr`
is the list of its transitions with actions, and `table` its states, as the generated code has them; a character without
an entry leads to the error state 0. A character is an unsigned byte; the three that `uri_relaxed` allows in a URI are
looked up at 512 more, as the generated code does.

`machine_ok` is what the proofs need of the whole table: the actions that end the scan end their transition, which leads
to a final state (348 or 349), the others lead to a state that is neither final nor the error; the method is taken at a
blank; and `query_start` is set before it is used.
-/

namespace Megalo

/-- The actions of the machine; `start_value` is `mark`. -/
inductive Action
  | mark
  | startField
  | writeField
  | writeValue
  | requestMethod
  | requestUri
  | fragment
  | startQuery
  | queryString
  | httpVersion
  | requestPath
  | done
  | xml
  | json
  deriving DecidableEq

/-- Actions, and the state that follows. -/
structure Goto where
  actions : List Action
  target : Nat

/-- Ranges of characters. -/
abbrev CharClass := List (Nat × Nat)

namespace Machine

/-- One character. -/
def one (c : Nat) : CharClass := [(c, c)]

/-- `more_delims`: `^`, `{` and `}` when `uri_relaxed` is set. -/
def relaxed : CharClass := [(606, 606), (635, 635), (637, 637)]

/-- `digit`. -/
def digit : CharClass := [(48, 57)]

/-- `xdigit`. -/
def xdigit : CharClass := [(48, 57), (65, 70), (97, 102)]

/-- The letters of `xdigit`. -/
def xalpha : CharClass := [(65, 70), (97, 102)]

/-- `upper | digit`. -/
def methodChar : CharClass := [(48, 57), (65, 90)]

/-- `alpha`. -/
def alpha : CharClass := [(65, 90), (97, 122)]

/-- `unreserved | sub_delims`. -/
def regNameChar : CharClass :=
  [(33, 33), (36, 36), (38, 46), (48, 57), (59, 59), (61, 61), (65, 90), (95, 95), (97, 122), (126, 126)] ++ relaxed

/-- `unreserved | sub_delims | ":"`. -/
def userinfoChar : CharClass :=
  [(33, 33), (36, 36), (38, 46), (48, 59), (61, 61), (65, 90), (95, 95), (97, 122), (126, 126)] ++ relaxed

/-- `pchar | "/" | "?"`, but for `pct_encoded`. -/
def queryChar : CharClass :=
  [(33, 33), (36, 36), (38, 59), (61, 61), (63, 90), (95, 95), (97, 122), (126, 126)] ++ relaxed

/-- `unreserved | sub_delims | "@"`. -/
def segmentNcChar : CharClass :=
  [(33, 33), (36, 36), (38, 46), (48, 57), (59, 59), (61, 61), (64, 90), (95, 95), (97, 122), (126, 126)] ++ relaxed

/-- `pchar`, but for `pct_encoded`. -/
def pathChar : CharClass :=
  [(33, 33), (36, 36), (38, 46), (48, 59), (61, 61), (64, 90), (95, 95), (97, 122), (126, 126)] ++ relaxed

/-- The characters of `token` that are not control characters. -/
def token : CharClass :=
  [(33, 33), (35, 39), (42, 43), (45, 46), (48, 57), (65, 90), (94, 122), (124, 124), (126, 126)]

/-- `goto st`. -/
def st (target : Nat) : Goto := ⟨[], target⟩

/-- `goto tr`. -/
def tr : Nat → Goto
  | 0 => ⟨[.mark], 2⟩
  | 2 => ⟨[.mark], 194⟩
  | 3 => ⟨[.mark], 198⟩
  | 4 => ⟨[.requestMethod], 3⟩
  | 6 => ⟨[.mark, .requestPath, .requestUri], 4⟩
  | 7 => ⟨[.mark], 19⟩
  | 8 => ⟨[.mark, .requestPath, .requestUri], 20⟩
  | 9 => ⟨[.mark], 24⟩
  | 10 => ⟨[.mark], 33⟩
  | 11 => ⟨[.mark, .requestPath], 29⟩
  | 12 => ⟨[.mark], 173⟩
  | 13 => ⟨[.mark], 5⟩
  | 21 => ⟨[.httpVersion], 13⟩
  | 22 => ⟨[.httpVersion], 17⟩
  | 23 => ⟨[.startField], 14⟩
  | 24 => ⟨[.startField, .done], 348⟩
  | 25 => ⟨[.startField], 18⟩
  | 27 => ⟨[.writeField], 15⟩
  | 28 => ⟨[.mark], 16⟩
  | 29 => ⟨[.mark], 15⟩
  | 30 => ⟨[.mark, .writeValue], 13⟩
  | 31 => ⟨[.mark, .writeValue], 17⟩
  | 33 => ⟨[.writeValue], 13⟩
  | 34 => ⟨[.writeValue], 17⟩
  | 36 => ⟨[.done], 348⟩
  | 37 => ⟨[.requestPath, .requestUri], 4⟩
  | 39 => ⟨[.requestPath, .requestUri], 20⟩
  | 42 => ⟨[.requestPath], 29⟩
  | 43 => ⟨[.mark, .fragment], 4⟩
  | 44 => ⟨[.mark], 21⟩
  | 45 => ⟨[.mark], 22⟩
  | 46 => ⟨[.fragment], 4⟩
  | 53 => ⟨[.startQuery, .queryString, .requestUri], 4⟩
  | 54 => ⟨[.startQuery], 30⟩
  | 55 => ⟨[.startQuery, .queryString, .requestUri], 20⟩
  | 56 => ⟨[.startQuery], 31⟩
  | 57 => ⟨[.queryString, .requestUri], 4⟩
  | 59 => ⟨[.queryString, .requestUri], 20⟩
  | 203 => ⟨[.mark], 26⟩
  | 204 => ⟨[.mark], 27⟩
  | 224 => ⟨[.requestPath], 196⟩
  | 227 => ⟨[.xml, .done], 349⟩
  | 228 => ⟨[.requestPath], 199⟩
  | 232 => ⟨[.mark], 200⟩
  | 235 => ⟨[.json, .done], 349⟩
  | _ => ⟨[], 0⟩

/-- The states. -/
def table : List (Nat × List (CharClass × Goto)) :=
  [ (1, [(methodChar, tr 0), (one 60, tr 2), (one 64, tr 3)]),
    (2, [(one 32, tr 4), (methodChar, st 175)]),
    (3, [(one 32, tr 6),
      ([(33, 33), (36, 36), (38, 46), (48, 57), (59, 59), (61, 61), (64, 64), (95, 95), (126, 126)] ++ relaxed, tr 7),
      (one 35, tr 8), (one 37, tr 9), (one 47, tr 10), (one 63, tr 11), (alpha, tr 12)]),
    (4, [(one 72, tr 13)]),
    (5, [(one 84, st 6)]),
    (6, [(one 84, st 7)]),
    (7, [(one 80, st 8)]),
    (8, [(one 47, st 9)]),
    (9, [(one 49, st 10)]),
    (10, [(one 46, st 11)]),
    (11, [([(48, 49)], st 12)]),
    (12, [(one 10, tr 21), (one 13, tr 22)]),
    (13, [([(1, 8), (11, 12), (14, 31)] ++ token, tr 23), (one 10, tr 24), (one 13, tr 25)]),
    (14, [([(1, 8), (10, 31)] ++ token, st 14), (one 58, tr 27)]),
    (15, [([(1, 8), (11, 12), (14, 31), (33, 126), (128, 255)], tr 28), ([(9, 9), (32, 32)], tr 29), (one 10, tr 30),
      (one 13, tr 31)]),
    (16, [([(1, 9), (11, 12), (14, 126), (128, 255)], st 16), (one 10, tr 33), (one 13, tr 34)]),
    (17, [(one 10, st 13)]),
    (18, [([(1, 8), (11, 31)] ++ token, st 14), (one 10, tr 36), (one 58, tr 27)]),
    (19, [(one 32, tr 37), (segmentNcChar, st 19), (one 35, tr 39), (one 37, st 24), (one 47, st 26),
      (one 63, tr 42)]),
    (20, [(one 32, tr 43), (queryChar, tr 44), (one 37, tr 45)]),
    (21, [(one 32, tr 46), (queryChar, st 21), (one 37, st 22)]),
    (22, [(xdigit, st 23)]),
    (23, [(xdigit, st 21)]),
    (24, [(xdigit, st 25)]),
    (25, [(xdigit, st 19)]),
    (26, [(one 32, tr 37),
      ([(33, 33), (36, 36), (38, 59), (61, 61), (64, 90), (95, 95), (97, 122), (126, 126)] ++ relaxed, st 26),
      (one 35, tr 39), (one 37, st 27), (one 63, tr 42)]),
    (27, [(xdigit, st 28)]),
    (28, [(xdigit, st 26)]),
    (29, [(one 32, tr 53), (queryChar, tr 54), (one 35, tr 55), (one 37, tr 56)]),
    (30, [(one 32, tr 57), (queryChar, st 30), (one 35, tr 59), (one 37, st 31)]),
    (31, [(xdigit, st 32)]),
    (32, [(xdigit, st 30)]),
    (33, [(one 32, tr 37), (pathChar, st 26), (one 35, tr 39), (one 37, st 27), (one 47, st 34), (one 63, tr 42)]),
    (34, [(one 32, tr 37), (regNameChar, st 35), (one 35, tr 39), (one 37, st 36), (one 47, st 26), (one 58, st 38),
      (one 63, tr 42), (one 64, st 42), (one 91, st 47)]),
    (35, [(one 32, tr 37), (regNameChar, st 35), (one 35, tr 39), (one 37, st 36), (one 47, st 26), (one 58, st 38),
      (one 63, tr 42), (one 64, st 42)]),
    (36, [(xdigit, st 37)]),
    (37, [(xdigit, st 35)]),
    (38, [(one 32, tr 37),
      ([(33, 33), (36, 36), (38, 46), (58, 59), (61, 61), (65, 90), (95, 95), (97, 122), (126, 126)] ++ relaxed, st 39),
      (one 35, tr 39), (one 37, st 40), (one 47, st 26), (digit, st 38), (one 63, tr 42), (one 64, st 42)]),
    (39, [(userinfoChar, st 39), (one 37, st 40), (one 64, st 42)]),
    (40, [(xdigit, st 41)]),
    (41, [(xdigit, st 39)]),
    (42, [(one 32, tr 37), (regNameChar, st 43), (one 35, tr 39), (one 37, st 44), (one 47, st 26), (one 58, st 46),
      (one 63, tr 42), (one 91, st 47)]),
    (43, [(one 32, tr 37), (regNameChar, st 43), (one 35, tr 39), (one 37, st 44), (one 47, st 26), (one 58, st 46),
      (one 63, tr 42)]),
    (44, [(xdigit, st 45)]),
    (45, [(xdigit, st 43)]),
    (46, [(one 32, tr 37), (one 35, tr 39), (one 47, st 26), (digit, st 46), (one 63, tr 42)]),
    (47, [(one 6, st 48), (xdigit, st 91), (one 58, st 167), (one 118, st 169)]),
    (48, [(xdigit, st 49)]),
    (49, [(xdigit, st 50), (one 58, st 53)]),
    (50, [(xdigit, st 51), (one 58, st 53)]),
    (51, [(xdigit, st 52), (one 58, st 53)]),
    (52, [(one 58, st 53)]),
    (53, [([(48, 48), (51, 57)], st 54), (one 49, st 84), (one 50, st 87), (xalpha, st 90)]),
    (54, [(one 46, st 55), (xdigit, st 77), (one 58, st 80)]),
    (55, [([(48, 48), (51, 57)], st 56), (one 49, st 72), (one 50, st 74)]),
    (56, [(one 46, st 57)]),
    (57, [([(48, 48), (51, 57)], st 58), (one 49, st 67), (one 50, st 69)]),
    (58, [(one 46, st 59)]),
    (59, [([(48, 48), (51, 57)], st 60), (one 49, st 62), (one 50, st 64)]),
    (60, [(one 93, st 61)]),
    (61, [(one 32, tr 37), (one 35, tr 39), (one 47, st 26), (one 58, st 46), (one 63, tr 42)]),
    (62, [(digit, st 63), (one 93, st 61)]),
    (63, [(digit, st 60), (one 93, st 61)]),
    (64, [(one 48, st 65), (one 53, st 66), (one 93, st 61)]),
    (65, [(digit, st 60)]),
    (66, [(one 48, st 60)]),
    (67, [(one 46, st 59), (digit, st 68)]),
    (68, [(one 46, st 59), (digit, st 58)]),
    (69, [(one 46, st 59), (one 48, st 70), (one 53, st 71)]),
    (70, [(digit, st 58)]),
    (71, [(one 48, st 58)]),
    (72, [(one 46, st 57), (digit, st 73)]),
    (73, [(one 46, st 57), (digit, st 56)]),
    (74, [(one 46, st 57), (one 48, st 75), (one 53, st 76)]),
    (75, [(digit, st 56)]),
    (76, [(one 48, st 56)]),
    (77, [(xdigit, st 78), (one 58, st 80)]),
    (78, [(xdigit, st 79), (one 58, st 80)]),
    (79, [(one 58, st 80)]),
    (80, [(xdigit, st 81)]),
    (81, [(xdigit, st 82), (one 93, st 61)]),
    (82, [(xdigit, st 83), (one 93, st 61)]),
    (83, [(xdigit, st 60), (one 93, st 61)]),
    (84, [(one 46, st 55), (digit, st 85), (one 58, st 80), (xalpha, st 77)]),
    (85, [(one 46, st 55), (digit, st 86), (one 58, st 80), (xalpha, st 78)]),
    (86, [(one 46, st 55), (xdigit, st 79), (one 58, st 80)]),
    (87, [(one 46, st 55), (one 48, st 88), ([(49, 52), (54, 57), (65, 70), (97, 102)], st 77), (one 53, st 89),
      (one 58, st 80)]),
    (88, [(digit, st 86), (one 58, st 80), (xalpha, st 78)]),
    (89, [(one 48, st 86), ([(49, 57), (65, 70), (97, 102)], st 78), (one 58, st 80)]),
    (90, [(xdigit, st 77), (one 58, st 80)]),
    (91, [(xdigit, st 92), (one 58, st 95)]),
    (92, [(xdigit, st 93), (one 58, st 95)]),
    (93, [(xdigit, st 94), (one 58, st 95)]),
    (94, [(one 58, st 95)]),
    (95, [(xdigit, st 96), (one 58, st 166)]),
    (96, [(xdigit, st 97), (one 58, st 100)]),
    (97, [(xdigit, st 98), (one 58, st 100)]),
    (98, [(xdigit, st 99), (one 58, st 100)]),
    (99, [(one 58, st 100)]),
    (100, [(xdigit, st 101), (one 58, st 165)]),
    (101, [(xdigit, st 102), (one 58, st 105)]),
    (102, [(xdigit, st 103), (one 58, st 105)]),
    (103, [(xdigit, st 104), (one 58, st 105)]),
    (104, [(one 58, st 105)]),
    (105, [(xdigit, st 106), (one 58, st 164)]),
    (106, [(xdigit, st 107), (one 58, st 110)]),
    (107, [(xdigit, st 108), (one 58, st 110)]),
    (108, [(xdigit, st 109), (one 58, st 110)]),
    (109, [(one 58, st 110)]),
    (110, [(xdigit, st 111), (one 58, st 163)]),
    (111, [(xdigit, st 112), (one 58, st 115)]),
    (112, [(xdigit, st 113), (one 58, st 115)]),
    (113, [(xdigit, st 114), (one 58, st 115)]),
    (114, [(one 58, st 115)]),
    (115, [(xdigit, st 116), (one 58, st 151)]),
    (116, [(xdigit, st 117), (one 58, st 120)]),
    (117, [(xdigit, st 118), (one 58, st 120)]),
    (118, [(xdigit, st 119), (one 58, st 120)]),
    (119, [(one 58, st 120)]),
    (120, [(xdigit, st 121), (one 58, st 150)]),
    (121, [(xdigit, st 122), (one 58, st 125)]),
    (122, [(xdigit, st 123), (one 58, st 125)]),
    (123, [(xdigit, st 124), (one 58, st 125)]),
    (124, [(one 58, st 125)]),
    (125, [(xdigit, st 121), (one 58, st 126)]),
    (126, [([(2, 3)], st 48), ([(48, 48), (51, 57)], st 127), (one 49, st 143), (one 50, st 146), (xalpha, st 149),
      (one 93, st 61)]),
    (127, [(one 46, st 55), (xdigit, st 128), (one 58, st 131), (one 93, st 61)]),
    (128, [(xdigit, st 129), (one 58, st 131), (one 93, st 61)]),
    (129, [(xdigit, st 130), (one 58, st 131), (one 93, st 61)]),
    (130, [(one 58, st 131), (one 93, st 61)]),
    (131, [([(48, 48), (51, 57)], st 132), (one 49, st 136), (one 50, st 139), (xalpha, st 142)]),
    (132, [(one 46, st 55), (xdigit, st 133), (one 58, st 80), (one 93, st 61)]),
    (133, [(xdigit, st 134), (one 58, st 80), (one 93, st 61)]),
    (134, [(xdigit, st 135), (one 58, st 80), (one 93, st 61)]),
    (135, [(one 58, st 80), (one 93, st 61)]),
    (136, [(one 46, st 55), (digit, st 137), (one 58, st 80), (xalpha, st 133), (one 93, st 61)]),
    (137, [(one 46, st 55), (digit, st 138), (one 58, st 80), (xalpha, st 134), (one 93, st 61)]),
    (138, [(one 46, st 55), (xdigit, st 135), (one 58, st 80), (one 93, st 61)]),
    (139, [(one 46, st 55), (one 48, st 140), ([(49, 52), (54, 57), (65, 70), (97, 102)], st 133), (one 53, st 141),
      (one 58, st 80), (one 93, st 61)]),
    (140, [(digit, st 138), (one 58, st 80), (xalpha, st 134), (one 93, st 61)]),
    (141, [(one 48, st 138), ([(49, 57), (65, 70), (97, 102)], st 134), (one 58, st 80), (one 93, st 61)]),
    (142, [(xdigit, st 133), (one 58, st 80), (one 93, st 61)]),
    (143, [(one 46, st 55), (digit, st 144), (one 58, st 131), (xalpha, st 128), (one 93, st 61)]),
    (144, [(one 46, st 55), (digit, st 145), (one 58, st 131), (xalpha, st 129), (one 93, st 61)]),
    (145, [(one 46, st 55), (xdigit, st 130), (one 58, st 131), (one 93, st 61)]),
    (146, [(one 46, st 55), (one 48, st 147), ([(49, 52), (54, 57), (65, 70), (97, 102)], st 128), (one 53, st 148),
      (one 58, st 131), (one 93, st 61)]),
    (147, [(digit, st 145), (one 58, st 131), (xalpha, st 129), (one 93, st 61)]),
    (148, [(one 48, st 145), ([(49, 57), (65, 70), (97, 102)], st 129), (one 58, st 131), (one 93, st 61)]),
    (149, [(xdigit, st 128), (one 58, st 131), (one 93, st 61)]),
    (150, [([(2, 3)], st 48), ([(48, 48), (51, 57)], st 127), (one 49, st 143), (one 50, st 146), (xalpha, st 149)]),
    (151, [([(2, 3)], st 48), ([(48, 48), (51, 57)], st 152), (one 49, st 156), (one 50, st 159), (xalpha, st 162)]),
    (152, [(one 46, st 55), (xdigit, st 153), (one 58, st 131)]),
    (153, [(xdigit, st 154), (one 58, st 131)]),
    (154, [(xdigit, st 155), (one 58, st 131)]),
    (155, [(one 58, st 131)]),
    (156, [(one 46, st 55), (digit, st 157), (one 58, st 131), (xalpha, st 153)]),
    (157, [(one 46, st 55), (digit, st 158), (one 58, st 131), (xalpha, st 154)]),
    (158, [(one 46, st 55), (xdigit, st 155), (one 58, st 131)]),
    (159, [(one 46, st 55), (one 48, st 160), ([(49, 52), (54, 57), (65, 70), (97, 102)], st 153), (one 53, st 161),
      (one 58, st 131)]),
    (160, [(digit, st 158), (one 58, st 131), (xalpha, st 154)]),
    (161, [(one 48, st 158), ([(49, 57), (65, 70), (97, 102)], st 154), (one 58, st 131)]),
    (162, [(xdigit, st 153), (one 58, st 131)]),
    (163, [([(2, 3)], st 48), (xdigit, st 49)]),
    (164, [([(2, 3)], st 48)]),
    (165, [(one 3, st 48)]),
    (166, [(one 4, st 48)]),
    (167, [(one 58, st 168)]),
    (168, [([(2, 5)], st 48), ([(48, 48), (51, 57)], st 127), (one 49, st 143), (one 50, st 146), (xalpha, st 149),
      (one 93, st 61)]),
    (169, [(xdigit, st 170)]),
    (170, [(one 46, st 171), (xdigit, st 170)]),
    (171, [(userinfoChar, st 172)]),
    (172, [(userinfoChar, st 172), (one 93, st 61)]),
    (173, [(one 32, tr 37),
      ([(33, 33), (36, 36), (38, 42), (44, 44), (59, 59), (61, 61), (64, 64), (95, 95), (126, 126)] ++ relaxed, st 19),
      (one 35, tr 39), (one 37, st 24), ([(43, 43), (45, 46), (48, 57), (65, 90), (97, 122)], st 173),
      (one 47, st 26), (one 58, st 174), (one 63, tr 42)]),
    (174, [(one 32, tr 6), (pathChar, tr 203), (one 35, tr 8), (one 37, tr 204), (one 47, tr 10), (one 63, tr 11)]),
    (175, [(one 32, tr 4), (methodChar, st 176)]),
    (176, [(one 32, tr 4), (methodChar, st 177)]),
    (177, [(one 32, tr 4), (methodChar, st 178)]),
    (178, [(one 32, tr 4), (methodChar, st 179)]),
    (179, [(one 32, tr 4), (methodChar, st 180)]),
    (180, [(one 32, tr 4), (methodChar, st 181)]),
    (181, [(one 32, tr 4), (methodChar, st 182)]),
    (182, [(one 32, tr 4), (methodChar, st 183)]),
    (183, [(one 32, tr 4), (methodChar, st 184)]),
    (184, [(one 32, tr 4), (methodChar, st 185)]),
    (185, [(one 32, tr 4), (methodChar, st 186)]),
    (186, [(one 32, tr 4), (methodChar, st 187)]),
    (187, [(one 32, tr 4), (methodChar, st 188)]),
    (188, [(one 32, tr 4), (methodChar, st 189)]),
    (189, [(one 32, tr 4), (methodChar, st 190)]),
    (190, [(one 32, tr 4), (methodChar, st 191)]),
    (191, [(one 32, tr 4), (methodChar, st 192)]),
    (192, [(one 32, tr 4), (methodChar, st 193)]),
    (193, [(one 32, tr 4)]),
    (194, [([(45, 46), (48, 57), (65, 90), (97, 122)], st 195)]),
    (195, [([(9, 13), (32, 32), (47, 47), (62, 62)], tr 224), ([(45, 46), (48, 57), (65, 90), (97, 122)], st 195)]),
    (196, [([(0, 61), (63, 255)], st 196), (one 62, st 197)]),
    (197, [(one 0, tr 227), ([(1, 61), (63, 255)], st 196), (one 62, st 197)]),
    (198, [(one 32, tr 228), (segmentNcChar, st 202), (one 37, st 203), (one 47, st 208)]),
    (199, [(one 123, tr 232)]),
    (200, [([(0, 124), (126, 255)], st 200), (one 125, st 201)]),
    (201, [(one 0, tr 235), ([(1, 124), (126, 255)], st 200), (one 125, st 201)]),
    (202, [(one 32, tr 228), (segmentNcChar, st 202), (one 37, st 203), (one 47, st 205)]),
    (203, [(xdigit, st 204)]),
    (204, [(xdigit, st 202)]),
    (205, [(one 32, tr 228),
      ([(33, 33), (36, 36), (38, 59), (61, 61), (64, 90), (95, 95), (97, 122), (126, 126)] ++ relaxed, st 205),
      (one 37, st 206)]),
    (206, [(xdigit, st 207)]),
    (207, [(xdigit, st 205)]),
    (208, [(one 32, tr 228), (pathChar, st 205), (one 37, st 206), (one 47, st 209)]),
    (209, [(one 32, tr 228), (regNameChar, st 210), (one 37, st 211), (one 47, st 205), (one 58, st 213),
      (one 64, st 217), (one 91, st 222)]),
    (210, [(one 32, tr 228), (regNameChar, st 210), (one 37, st 211), (one 47, st 205), (one 58, st 213),
      (one 64, st 217)]),
    (211, [(xdigit, st 212)]),
    (212, [(xdigit, st 210)]),
    (213, [(one 32, tr 228),
      ([(33, 33), (36, 36), (38, 46), (58, 59), (61, 61), (65, 90), (95, 95), (97, 122), (126, 126)] ++ relaxed,
        st 214),
      (one 37, st 215), (one 47, st 205), (digit, st 213), (one 64, st 217)]),
    (214, [(userinfoChar, st 214), (one 37, st 215), (one 64, st 217)]),
    (215, [(xdigit, st 216)]),
    (216, [(xdigit, st 214)]),
    (217, [(one 32, tr 228), (regNameChar, st 218), (one 37, st 219), (one 47, st 205), (one 58, st 221),
      (one 91, st 222)]),
    (218, [(one 32, tr 228), (regNameChar, st 218), (one 37, st 219), (one 47, st 205), (one 58, st 221)]),
    (219, [(xdigit, st 220)]),
    (220, [(xdigit, st 218)]),
    (221, [(one 32, tr 228), (one 47, st 205), (digit, st 221)]),
    (222, [(one 6, st 223), (xdigit, st 266), (one 58, st 342), (one 118, st 344)]),
    (223, [(xdigit, st 224)]),
    (224, [(xdigit, st 225), (one 58, st 228)]),
    (225, [(xdigit, st 226), (one 58, st 228)]),
    (226, [(xdigit, st 227), (one 58, st 228)]),
    (227, [(one 58, st 228)]),
    (228, [([(48, 48), (51, 57)], st 229), (one 49, st 259), (one 50, st 262), (xalpha, st 265)]),
    (229, [(one 46, st 230), (xdigit, st 252), (one 58, st 255)]),
    (230, [([(48, 48), (51, 57)], st 231), (one 49, st 247), (one 50, st 249)]),
    (231, [(one 46, st 232)]),
    (232, [([(48, 48), (51, 57)], st 233), (one 49, st 242), (one 50, st 244)]),
    (233, [(one 46, st 234)]),
    (234, [([(48, 48), (51, 57)], st 235), (one 49, st 237), (one 50, st 239)]),
    (235, [(one 93, st 236)]),
    (236, [(one 32, tr 228), (one 47, st 205), (one 58, st 221)]),
    (237, [(digit, st 238), (one 93, st 236)]),
    (238, [(digit, st 235), (one 93, st 236)]),
    (239, [(one 48, st 240), (one 53, st 241), (one 93, st 236)]),
    (240, [(digit, st 235)]),
    (241, [(one 48, st 235)]),
    (242, [(one 46, st 234), (digit, st 243)]),
    (243, [(one 46, st 234), (digit, st 233)]),
    (244, [(one 46, st 234), (one 48, st 245), (one 53, st 246)]),
    (245, [(digit, st 233)]),
    (246, [(one 48, st 233)]),
    (247, [(one 46, st 232), (digit, st 248)]),
    (248, [(one 46, st 232), (digit, st 231)]),
    (249, [(one 46, st 232), (one 48, st 250), (one 53, st 251)]),
    (250, [(digit, st 231)]),
    (251, [(one 48, st 231)]),
    (252, [(xdigit, st 253), (one 58, st 255)]),
    (253, [(xdigit, st 254), (one 58, st 255)]),
    (254, [(one 58, st 255)]),
    (255, [(xdigit, st 256)]),
    (256, [(xdigit, st 257), (one 93, st 236)]),
    (257, [(xdigit, st 258), (one 93, st 236)]),
    (258, [(xdigit, st 235), (one 93, st 236)]),
    (259, [(one 46, st 230), (digit, st 260), (one 58, st 255), (xalpha, st 252)]),
    (260, [(one 46, st 230), (digit, st 261), (one 58, st 255), (xalpha, st 253)]),
    (261, [(one 46, st 230), (xdigit, st 254), (one 58, st 255)]),
    (262, [(one 46, st 230), (one 48, st 263), ([(49, 52), (54, 57), (65, 70), (97, 102)], st 252), (one 53, st 264),
      (one 58, st 255)]),
    (263, [(digit, st 261), (one 58, st 255), (xalpha, st 253)]),
    (264, [(one 48, st 261), ([(49, 57), (65, 70), (97, 102)], st 253), (one 58, st 255)]),
    (265, [(xdigit, st 252), (one 58, st 255)]),
    (266, [(xdigit, st 267), (one 58, st 270)]),
    (267, [(xdigit, st 268), (one 58, st 270)]),
    (268, [(xdigit, st 269), (one 58, st 270)]),
    (269, [(one 58, st 270)]),
    (270, [(xdigit, st 271), (one 58, st 341)]),
    (271, [(xdigit, st 272), (one 58, st 275)]),
    (272, [(xdigit, st 273), (one 58, st 275)]),
    (273, [(xdigit, st 274), (one 58, st 275)]),
    (274, [(one 58, st 275)]),
    (275, [(xdigit, st 276), (one 58, st 340)]),
    (276, [(xdigit, st 277), (one 58, st 280)]),
    (277, [(xdigit, st 278), (one 58, st 280)]),
    (278, [(xdigit, st 279), (one 58, st 280)]),
    (279, [(one 58, st 280)]),
    (280, [(xdigit, st 281), (one 58, st 339)]),
    (281, [(xdigit, st 282), (one 58, st 285)]),
    (282, [(xdigit, st 283), (one 58, st 285)]),
    (283, [(xdigit, st 284), (one 58, st 285)]),
    (284, [(one 58, st 285)]),
    (285, [(xdigit, st 286), (one 58, st 338)]),
    (286, [(xdigit, st 287), (one 58, st 290)]),
    (287, [(xdigit, st 288), (one 58, st 290)]),
    (288, [(xdigit, st 289), (one 58, st 290)]),
    (289, [(one 58, st 290)]),
    (290, [(xdigit, st 291), (one 58, st 326)]),
    (291, [(xdigit, st 292), (one 58, st 295)]),
    (292, [(xdigit, st 293), (one 58, st 295)]),
    (293, [(xdigit, st 294), (one 58, st 295)]),
    (294, [(one 58, st 295)]),
    (295, [(xdigit, st 296), (one 58, st 325)]),
    (296, [(xdigit, st 297), (one 58, st 300)]),
    (297, [(xdigit, st 298), (one 58, st 300)]),
    (298, [(xdigit, st 299), (one 58, st 300)]),
    (299, [(one 58, st 300)]),
    (300, [(xdigit, st 296), (one 58, st 301)]),
    (301, [([(2, 3)], st 223), ([(48, 48), (51, 57)], st 302), (one 49, st 318), (one 50, st 321), (xalpha, st 324),
      (one 93, st 236)]),
    (302, [(one 46, st 230), (xdigit, st 303), (one 58, st 306), (one 93, st 236)]),
    (303, [(xdigit, st 304), (one 58, st 306), (one 93, st 236)]),
    (304, [(xdigit, st 305), (one 58, st 306), (one 93, st 236)]),
    (305, [(one 58, st 306), (one 93, st 236)]),
    (306, [([(48, 48), (51, 57)], st 307), (one 49, st 311), (one 50, st 314), (xalpha, st 317)]),
    (307, [(one 46, st 230), (xdigit, st 308), (one 58, st 255), (one 93, st 236)]),
    (308, [(xdigit, st 309), (one 58, st 255), (one 93, st 236)]),
    (309, [(xdigit, st 310), (one 58, st 255), (one 93, st 236)]),
    (310, [(one 58, st 255), (one 93, st 236)]),
    (311, [(one 46, st 230), (digit, st 312), (one 58, st 255), (xalpha, st 308), (one 93, st 236)]),
    (312, [(one 46, st 230), (digit, st 313), (one 58, st 255), (xalpha, st 309), (one 93, st 236)]),
    (313, [(one 46, st 230), (xdigit, st 310), (one 58, st 255), (one 93, st 236)]),
    (314, [(one 46, st 230), (one 48, st 315), ([(49, 52), (54, 57), (65, 70), (97, 102)], st 308), (one 53, st 316),
      (one 58, st 255), (one 93, st 236)]),
    (315, [(digit, st 313), (one 58, st 255), (xalpha, st 309), (one 93, st 236)]),
    (316, [(one 48, st 313), ([(49, 57), (65, 70), (97, 102)], st 309), (one 58, st 255), (one 93, st 236)]),
    (317, [(xdigit, st 308), (one 58, st 255), (one 93, st 236)]),
    (318, [(one 46, st 230), (digit, st 319), (one 58, st 306), (xalpha, st 303), (one 93, st 236)]),
    (319, [(one 46, st 230), (digit, st 320), (one 58, st 306), (xalpha, st 304), (one 93, st 236)]),
    (320, [(one 46, st 230), (xdigit, st 305), (one 58, st 306), (one 93, st 236)]),
    (321, [(one 46, st 230), (one 48, st 322), ([(49, 52), (54, 57), (65, 70), (97, 102)], st 303), (one 53, st 323),
      (one 58, st 306), (one 93, st 236)]),
    (322, [(digit, st 320), (one 58, st 306), (xalpha, st 304), (one 93, st 236)]),
    (323, [(one 48, st 320), ([(49, 57), (65, 70), (97, 102)], st 304), (one 58, st 306), (one 93, st 236)]),
    (324, [(xdigit, st 303), (one 58, st 306), (one 93, st 236)]),
    (325, [([(2, 3)], st 223), ([(48, 48), (51, 57)], st 302), (one 49, st 318), (one 50, st 321), (xalpha, st 324)]),
    (326, [([(2, 3)], st 223), ([(48, 48), (51, 57)], st 327), (one 49, st 331), (one 50, st 334), (xalpha, st 337)]),
    (327, [(one 46, st 230), (xdigit, st 328), (one 58, st 306)]),
    (328, [(xdigit, st 329), (one 58, st 306)]),
    (329, [(xdigit, st 330), (one 58, st 306)]),
    (330, [(one 58, st 306)]),
    (331, [(one 46, st 230), (digit, st 332), (one 58, st 306), (xalpha, st 328)]),
    (332, [(one 46, st 230), (digit, st 333), (one 58, st 306), (xalpha, st 329)]),
    (333, [(one 46, st 230), (xdigit, st 330), (one 58, st 306)]),
    (334, [(one 46, st 230), (one 48, st 335), ([(49, 52), (54, 57), (65, 70), (97, 102)], st 328), (one 53, st 336),
      (one 58, st 306)]),
    (335, [(digit, st 333), (one 58, st 306), (xalpha, st 329)]),
    (336, [(one 48, st 333), ([(49, 57), (65, 70), (97, 102)], st 329), (one 58, st 306)]),
    (337, [(xdigit, st 328), (one 58, st 306)]),
    (338, [([(2, 3)], st 223), (xdigit, st 224)]),
    (339, [([(2, 3)], st 223)]),
    (340, [(one 3, st 223)]),
    (341, [(one 4, st 223)]),
    (342, [(one 58, st 343)]),
    (343, [([(2, 5)], st 223), ([(48, 48), (51, 57)], st 302), (one 49, st 318), (one 50, st 321), (xalpha, st 324),
      (one 93, st 236)]),
    (344, [(xdigit, st 345)]),
    (345, [(one 46, st 346), (xdigit, st 345)]),
    (346, [(userinfoChar, st 347)]),
    (347, [(userinfoChar, st 347), (one 93, st 236)]),
    (348, [([(1, 8), (10, 31)] ++ token, st 14), (one 58, tr 27)]),
    (349, [])]

/-- The character is in the class. -/
def accepts (uriRelaxed : Bool) (c : UInt8) (cls : CharClass) : Bool :=
  cls.any fun r => (r.1 ≤ c.toNat && c.toNat ≤ r.2) || (uriRelaxed && r.1 ≤ c.toNat + 512 && c.toNat + 512 ≤ r.2)

/-- Where a character leads; `none` is `st0`. -/
def next (uriRelaxed : Bool) (cs : Nat) (c : UInt8) : Option Goto :=
  (table.lookup cs).bind fun row => (row.find? fun e => accepts uriRelaxed c e.1).map Prod.snd

/-! ## What is true of the whole table -/

/-- The states inside a query. -/
def inQuery (cs : Nat) : Bool := cs = 30 || cs = 31 || cs = 32

/-- Whether `query_start` is set after the actions; `none` when it is used before it is set. -/
def querySet : Bool → List Action → Option Bool
  | set, [] => some set
  | set, a :: actions =>
    if a = .queryString && !set then none else querySet (set || a = .startQuery) actions

/-- A query is used when its start is set, in an initial part of the actions as well. -/
theorem querySet_append : ∀ {actions actions' : List Action} {set known : Bool},
    known ∈ querySet set (actions ++ actions') → ∃ known', known' ∈ querySet set actions
  | [], _, set, _, _ => ⟨set, rfl⟩
  | a :: actions, actions', set, known, h => by
    rw [List.cons_append, querySet] at h
    rw [querySet]
    split at h
    · cases h
    · rename_i hset
      rw [if_neg hset]
      exact querySet_append h

/-- A transition ends the scan, with its last action and in a final state, or leads to a state that is neither final
nor the error; the method is taken at a blank; a query is used when its start is set. -/
structure Fine (cs : Nat) (cls : CharClass) (g : Goto) : Prop where
  last : .done ∉ g.actions.dropLast
  ends : .done ∈ g.actions → g.actions = g.actions.dropLast ++ [.done] ∧ 348 ≤ g.target
  goes : .done ∉ g.actions → 0 < g.target ∧ g.target < 348
  method : .requestMethod ∈ g.actions → cls = one 32
  query : ∃ set ∈ querySet (inQuery cs) g.actions, inQuery g.target = true → set = true

instance (cs : Nat) (cls : CharClass) (g : Goto) : Decidable (Fine cs cls g) :=
  decidable_of_iff
    (.done ∉ g.actions.dropLast ∧ (.done ∈ g.actions → g.actions = g.actions.dropLast ++ [.done] ∧ 348 ≤ g.target) ∧
      (.done ∉ g.actions → 0 < g.target ∧ g.target < 348) ∧ (.requestMethod ∈ g.actions → cls = one 32) ∧
      ∃ set ∈ querySet (inQuery cs) g.actions, inQuery g.target = true → set = true)
    ⟨fun ⟨h₁, h₂, h₃, h₄, h₅⟩ => ⟨h₁, h₂, h₃, h₄, h₅⟩, fun h => ⟨h.last, h.ends, h.goes, h.method, h.query⟩⟩

theorem machine_ok : ∀ row ∈ table, ∀ e ∈ row.2, Fine row.1 e.1 e.2 := by decide +kernel

/-- Every step of the machine is fine. -/
theorem next_fine {uriRelaxed : Bool} {cs : Nat} {c : UInt8} {g : Goto} (h : next uriRelaxed cs c = some g) :
    ∃ cls, accepts uriRelaxed c cls = true ∧ Fine cs cls g := by
  obtain ⟨row, hrow, hg⟩ := Option.bind_eq_some_iff.mp h
  obtain ⟨e, he, rfl⟩ := Option.map_eq_some_iff.mp hg
  refine ⟨e.1, List.find?_some (p := fun e : CharClass × Goto => accepts uriRelaxed c e.1) he, ?_⟩
  obtain ⟨l₁, l₂, htable, _⟩ := List.lookup_eq_some_iff.mp hrow
  have hmem : (cs, row) ∈ table := by
    rw [htable]
    exact List.mem_append_right _ List.mem_cons_self
  exact machine_ok _ hmem e (List.mem_of_find?_eq_some he)

/-- The method is taken at a blank. -/
theorem next_method {uriRelaxed : Bool} {cs : Nat} {c : UInt8} {g : Goto} (h : next uriRelaxed cs c = some g)
    (hm : .requestMethod ∈ g.actions) : c = 32 := by
  obtain ⟨cls, hacc, hfine⟩ := next_fine h
  rw [hfine.method hm] at hacc
  simp only [accepts, one, List.any_cons, List.any_nil, Bool.or_false, Bool.or_eq_true, Bool.and_eq_true,
    decide_eq_true_eq] at hacc
  rcases hacc with ⟨h₁, h₂⟩ | ⟨_, h₂⟩
  · exact UInt8.toNat_inj.mp (Nat.le_antisymm h₂ h₁)
  · omega

end Machine

end Megalo
