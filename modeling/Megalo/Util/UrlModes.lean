import Megalo.Util.Url

/-!
# URL encoding with and without `+`

- `StringUtil.urlEncode` and `StringUtil.urlDecode` are the loops over the characters, with the string `ss` that is made
  at the first character that changes and has a copy of what is in front of it;
- `encodeChar` and `decodeChars` are the plain mapping of the characters; the loops come to it, by induction on what is
  left of the text, where a string that is not made yet stands for what is behind (`encodeLoop_eq`, `decodeLoop_eq`);
- with `+` for a space these are `Megalo.urlEncode` and `Megalo.urlDecode`.
-/

namespace Megalo

namespace StringUtil

/-! ## The loops -/

/-- `ss`, which is made with a copy of the text in front of `c` if it is not there yet. -/
def made (ss : Option (List UInt8)) (str : List UInt8) (c : Nat) : List UInt8 := ss.getD (str.take c)

/-- The loop of `UrlEncode` from `c` on, over the characters that are left. -/
def encodeLoop (spaceAsPlus : Bool) (str : List UInt8) : Nat → List UInt8 → Option (List UInt8) → Option (List UInt8)
  | _, [], ss => ss
  | c, ch :: rest, ss =>
    if !charIsUnreserved ch then
      let out := made ss str c
      let out :=
        if ch = 32 ∧ spaceAsPlus then out ++ bytes "+"
        else out ++ bytes "%" ++ [hexdigit (ch >>> 4)] ++ [hexdigit (ch &&& 0xf)]
      encodeLoop spaceAsPlus str (c + 1) rest (some out)
    else encodeLoop spaceAsPlus str (c + 1) rest (ss.map (· ++ [ch]))

/-- `UrlEncode`. -/
def urlEncode (str : List UInt8) (spaceAsPlus : Bool) : List UInt8 := (encodeLoop spaceAsPlus str 0 str none).getD str

/-- The loop of `UrlDecode` from `c` on, over the characters that are left; `c + 2` is in front of the end when there
are two more. -/
def decodeLoop (spaceAsPlus : Bool) (str : List UInt8) : Nat → List UInt8 → Option (List UInt8) → Option (List UInt8)
  | c, ch :: a :: b :: rest, ss =>
    if ch = 43 ∧ spaceAsPlus then
      decodeLoop spaceAsPlus str (c + 1) (a :: b :: rest) (some (made ss str c ++ bytes " "))
    else if ch = 37 ∧ isxdigit a ∧ isxdigit b then
      decodeLoop spaceAsPlus str (c + 3) rest (some (made ss str c ++ [xdigitValue a <<< 4 ||| xdigitValue b]))
    else decodeLoop spaceAsPlus str (c + 1) (a :: b :: rest) (ss.map (· ++ [ch]))
  | c, ch :: rest, ss =>
    if ch = 43 ∧ spaceAsPlus then decodeLoop spaceAsPlus str (c + 1) rest (some (made ss str c ++ bytes " "))
    else decodeLoop spaceAsPlus str (c + 1) rest (ss.map (· ++ [ch]))
  | _, [], ss => ss

/-- `UrlDecode`. -/
def urlDecode (str : List UInt8) (spaceAsPlus : Bool) : List UInt8 := (decodeLoop spaceAsPlus str 0 str none).getD str

/-! ## The plain mapping -/

/-- What a character is encoded as. -/
def encodeChar (spaceAsPlus : Bool) (c : UInt8) : List UInt8 :=
  if charIsUnreserved c then [c]
  else if c = 32 ∧ spaceAsPlus then bytes "+"
  else bytes "%" ++ [hexdigit (c >>> 4), hexdigit (c &&& 0xf)]

/-- What characters are decoded as. -/
def decodeChars (spaceAsPlus : Bool) : List UInt8 → List UInt8
  | c :: a :: b :: str =>
    if c = 43 ∧ spaceAsPlus then 32 :: decodeChars spaceAsPlus (a :: b :: str)
    else if c = 37 ∧ isxdigit a ∧ isxdigit b then (xdigitValue a <<< 4 ||| xdigitValue b) :: decodeChars spaceAsPlus str
    else c :: decodeChars spaceAsPlus (a :: b :: str)
  | c :: str => if c = 43 ∧ spaceAsPlus then 32 :: decodeChars spaceAsPlus str else c :: decodeChars spaceAsPlus str
  | [] => []

variable {spaceAsPlus : Bool} {str pre rest : List UInt8} {ss : Option (List UInt8)} {c : UInt8}

/-- A string that is made in the middle of the text goes on from what is behind. -/
theorem made_append (ss : Option (List UInt8)) (pre rest : List UInt8) :
    made ss (pre ++ rest) pre.length = ss.getD pre := by
  rw [made, List.take_left]

/-- A character that does not change is added to the string, or stays in the text. -/
theorem getD_map (ss : Option (List UInt8)) (pre : List UInt8) (c : UInt8) :
    (ss.map (· ++ [c])).getD (pre ++ [c]) = ss.getD pre ++ [c] := by
  cases ss <;> rfl

theorem encodeLoop_eq (pre : List UInt8) (h : str = pre ++ rest) (ss : Option (List UInt8)) :
    (encodeLoop spaceAsPlus str pre.length rest ss).getD str =
      ss.getD pre ++ rest.flatMap (encodeChar spaceAsPlus) := by
  induction rest generalizing pre ss with
  | nil => rw [encodeLoop, h, List.append_nil, List.flatMap_nil, List.append_nil]
  | cons ch rest ih =>
    have hnext : str = (pre ++ [ch]) ++ rest := by rw [h, List.append_assoc]; rfl
    have hlength : (pre ++ [ch]).length = pre.length + 1 := List.length_append
    rw [encodeLoop, List.flatMap_cons, encodeChar, ← hlength]
    by_cases hu : charIsUnreserved ch = true
    · rw [if_neg (by simp [hu]), if_pos hu, ih _ hnext, getD_map, List.append_assoc]
    · rw [if_pos (by simp [hu]), if_neg hu, h, made_append, ← h]
      dsimp only
      rw [ih _ hnext, Option.getD_some]
      split
      · rw [List.append_assoc]
      · simp only [List.append_assoc]
        rfl

/-- **The loop of `UrlEncode`** comes to the plain mapping. -/
theorem urlEncode_eq (str : List UInt8) (spaceAsPlus : Bool) :
    urlEncode str spaceAsPlus = str.flatMap (encodeChar spaceAsPlus) :=
  encodeLoop_eq [] rfl none

theorem decodeLoop_short {n : Nat} (h : rest.length < 2) : decodeLoop spaceAsPlus str n (c :: rest) ss =
    if c = 43 ∧ spaceAsPlus then decodeLoop spaceAsPlus str (n + 1) rest (some (made ss str n ++ bytes " "))
    else decodeLoop spaceAsPlus str (n + 1) rest (ss.map (· ++ [c])) := by
  match rest, h with
  | [], _ | [_], _ => rfl

theorem decodeChars_short (h : rest.length < 2) : decodeChars spaceAsPlus (c :: rest) =
    if c = 43 ∧ spaceAsPlus then 32 :: decodeChars spaceAsPlus rest else c :: decodeChars spaceAsPlus rest := by
  match rest, h with
  | [], _ | [_], _ => rfl

theorem exists_of_two (h : ¬rest.length < 2) : ∃ a b rest', rest = a :: b :: rest' := by
  match rest, h with
  | [], h => exact absurd Nat.zero_lt_two h
  | [_], h => exact absurd Nat.one_lt_two h
  | a :: b :: rest', _ => exact ⟨a, b, rest', rfl⟩

theorem decodeLoop_eq (pre : List UInt8) (h : str = pre ++ rest) (ss : Option (List UInt8)) :
    (decodeLoop spaceAsPlus str pre.length rest ss).getD str = ss.getD pre ++ decodeChars spaceAsPlus rest := by
  induction hn : rest.length using Nat.strong_induction_on generalizing pre rest ss with
  | _ n ih =>
    cases rest with
    | nil => rw [decodeLoop, h, decodeChars, List.append_nil, List.append_nil]
    | cons c rest =>
      have hnext : str = (pre ++ [c]) ++ rest := by rw [h, List.append_assoc]; rfl
      have hlength : (pre ++ [c]).length = pre.length + 1 := List.length_append
      have hrest : rest.length < n := by
        rw [← hn]
        exact Nat.lt_succ_self _
      by_cases hshort : rest.length < 2
      · rw [decodeLoop_short hshort, decodeChars_short hshort, ← hlength]
        split
        · rw [ih _ hrest _ hnext _ rfl, Option.getD_some, h, made_append, List.append_assoc]
          rfl
        · rw [ih _ hrest _ hnext _ rfl, getD_map, List.append_assoc]
          rfl
      · obtain ⟨a, b, rest', rfl⟩ := exists_of_two hshort
        have hthird : str = (pre ++ [c, a, b]) ++ rest' := by rw [h, List.append_assoc]; rfl
        have hlength' : (pre ++ [c, a, b]).length = pre.length + 3 := List.length_append
        have hrest' : rest'.length < n := by
          simp only [List.length_cons] at hrest
          omega
        rw [decodeLoop, decodeChars, ← hlength, ← hlength']
        split
        · rw [ih _ hrest _ hnext _ rfl, Option.getD_some, h, made_append, List.append_assoc]
          rfl
        · split
          · -- the digits are not looked at again
            rw [ih _ hrest' _ hthird _ rfl, Option.getD_some, h, made_append, List.append_assoc]
            rfl
          · rw [ih _ hrest _ hnext _ rfl, getD_map, List.append_assoc]
            rfl

/-- **The loop of `UrlDecode`** comes to the plain mapping. -/
theorem urlDecode_eq (str : List UInt8) (spaceAsPlus : Bool) :
    urlDecode str spaceAsPlus = decodeChars spaceAsPlus str :=
  decodeLoop_eq [] rfl none

/-! ## Decoding what was encoded -/

theorem decodeChars_plus (str : List UInt8) : decodeChars true (43 :: str) = 32 :: decodeChars true str := by
  match str with
  | [] | [_] => rfl
  | a :: b :: str => rw [decodeChars, if_pos ⟨rfl, rfl⟩]

theorem decodeChars_char (h : c ≠ 43) (h' : c ≠ 37) (str : List UInt8) :
    decodeChars spaceAsPlus (c :: str) = c :: decodeChars spaceAsPlus str := by
  match str with
  | [] | [_] => simp [decodeChars, h]
  | a :: b :: str => rw [decodeChars, if_neg fun hc => h hc.1, if_neg fun hc => h' hc.1]

theorem decodeChars_percent (spaceAsPlus : Bool) {a b : UInt8} (ha : isxdigit a = true) (hb : isxdigit b = true)
    (str : List UInt8) : decodeChars spaceAsPlus (37 :: a :: b :: str) =
      (xdigitValue a <<< 4 ||| xdigitValue b) :: decodeChars spaceAsPlus str := by
  rw [decodeChars, if_neg fun hc => absurd hc.1 (by decide), if_pos ⟨rfl, ha, hb⟩]

theorem decodeChars_encodeChar (c : UInt8) (str : List UInt8) :
    decodeChars spaceAsPlus (encodeChar spaceAsPlus c ++ str) = c :: decodeChars spaceAsPlus str := by
  have h := charCodes c
  simp only [CharCodes, Bool.and_eq_true, Bool.or_eq_true, Bool.not_eq_true', bne_iff_ne, beq_iff_eq] at h
  obtain ⟨⟨⟨⟨ha, hb⟩, hval⟩, hkept⟩, -⟩ := h
  unfold encodeChar
  split
  · rename_i hu
    obtain ⟨⟨⟨⟨hplus, hpercent⟩, -⟩, -⟩, -⟩ := hkept.resolve_left (by simp [hu])
    exact decodeChars_char hplus hpercent str
  · split
    · rename_i hspace
      rw [hspace.1, hspace.2]
      exact decodeChars_plus str
    · have hdec := decodeChars_percent spaceAsPlus ha hb str
      rw [hval] at hdec
      exact hdec

theorem decodeChars_encoded (str : List UInt8) :
    decodeChars spaceAsPlus (str.flatMap (encodeChar spaceAsPlus)) = str := by
  induction str with
  | nil => rfl
  | cons c str ih => rw [List.flatMap_cons, decodeChars_encodeChar, ih]

/-! ## With `+` for a space -/

theorem urlEncode_true (str : List UInt8) : urlEncode str true = Megalo.urlEncode str := by
  have hchar : encodeChar true = urlEncodeChar := by
    funext c
    simp only [encodeChar, urlEncodeChar, and_true]
  rw [urlEncode_eq, hchar, Megalo.urlEncode]

theorem urlDecode_true (str : List UInt8) : urlDecode str true = Megalo.urlDecode str := by
  rw [urlDecode_eq]
  fun_induction decodeChars true str with
  | case1 c a b str hplus ih =>
    rw [Megalo.urlDecode, if_pos hplus.1, ih]
  | case2 c a b str hplus hpercent ih =>
    rw [Megalo.urlDecode, if_neg fun h => hplus ⟨h, rfl⟩, if_pos hpercent, ih]
  | case3 c a b str hplus hpercent ih =>
    rw [Megalo.urlDecode, if_neg fun h => hplus ⟨h, rfl⟩, if_neg hpercent, ih]
  | case4 c str hshort hplus ih =>
    obtain ⟨rfl, -⟩ := hplus
    rw [urlDecode_plus, ih]
  | case5 c str hshort hplus ih =>
    have hc : c ≠ 43 := fun h => hplus ⟨h, rfl⟩
    rw [ih]
    rcases str with _ | ⟨a, _ | ⟨b, str⟩⟩
    · simp [Megalo.urlDecode, hc]
    · simp [Megalo.urlDecode, hc]
    · exact (hshort a b str rfl).elim
  | case6 => rfl

end StringUtil

/-- **URL encoding is invertible**: with or without `+` for a space, what is encoded is decoded again, and both
functions are the plain mapping of the characters. -/
theorem url_coding (str : List UInt8) (spaceAsPlus : Bool) :
    StringUtil.urlDecode (StringUtil.urlEncode str spaceAsPlus) spaceAsPlus = str ∧
      StringUtil.urlEncode str spaceAsPlus = str.flatMap (StringUtil.encodeChar spaceAsPlus) ∧
      StringUtil.urlDecode str spaceAsPlus = StringUtil.decodeChars spaceAsPlus str := by
  refine ⟨?_, StringUtil.urlEncode_eq str spaceAsPlus, StringUtil.urlDecode_eq str spaceAsPlus⟩
  rw [StringUtil.urlDecode_eq, StringUtil.urlEncode_eq, StringUtil.decodeChars_encoded]

end Megalo
