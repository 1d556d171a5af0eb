import Megalo.Util.Chars
import Mathlib.Data.List.Basic

/-!
# `StringUtil`: URL encoding

- `urlEncode` and `urlDecode` are `UrlEncode` and `UrlDecode` with `+` for a space, and `trim` is `Trim`;
- what is encoded is decoded again (`urlDecode_urlEncode`), and has no characters but `%`, `+` and those that
  `uriChars` leaves as they are (`mem_urlEncode`). One of these is `=`.
-/

namespace Megalo

/-- `uri_chars`. -/
def uriChars : List UInt8 :=
  [ 0, 0, 0, 0, 0, 0, 0, 0,   0, 0, 0, 0, 0, 0, 0, 0,
    0, 0, 0, 0, 0, 0, 0, 0,   0, 0, 0, 0, 0, 0, 0, 0,
    0, 0, 0, 0, 0, 0, 0, 0,   0, 0, 0, 0, 0, 1, 1, 0,
    1, 1, 1, 1, 1, 1, 1, 1,   1, 1, 0, 0, 0, 1, 0, 0,
    0, 1, 1, 1, 1, 1, 1, 1,   1, 1, 1, 1, 1, 1, 1, 1,
    1, 1, 1, 1, 1, 1, 1, 1,   1, 1, 1, 0, 0, 0, 0, 1,
    0, 1, 1, 1, 1, 1, 1, 1,   1, 1, 1, 1, 1, 1, 1, 1,
    1, 1, 1, 1, 1, 1, 1, 1,   1, 1, 1, 0, 0, 0, 1, 0 ] ++ List.replicate 128 0

/-- `CHAR_IS_UNRESERVED`. -/
def charIsUnreserved (c : UInt8) : Bool := uriChars.getD c.toNat 0 ≠ 0

/-- `xdigit_chars`. -/
def xdigitChars : List UInt8 :=
  List.replicate 48 0 ++ [0, 1, 2, 3, 4, 5, 6, 7, 8, 9] ++ List.replicate 7 0 ++ [10, 11, 12, 13, 14, 15] ++
    List.replicate 26 0 ++ [10, 11, 12, 13, 14, 15] ++ List.replicate 153 0

/-- The value of a digit in `xdigit_chars`. -/
def xdigitValue (c : UInt8) : UInt8 := xdigitChars.getD c.toNat 0

/-- `isxdigit`. -/
def isxdigit (c : UInt8) : Bool := (48 ≤ c && c ≤ 57) || (65 ≤ c && c ≤ 70) || (97 ≤ c && c ≤ 102)

/-- `hexdigits[i]`. -/
def hexdigit (i : UInt8) : UInt8 := (bytes "0123456789ABCDEF").getD i.toNat 0

/-- What a character is encoded as. -/
def urlEncodeChar (c : UInt8) : List UInt8 :=
  if charIsUnreserved c then [c]
  else if c = 32 then bytes "+"
  else bytes "%" ++ [hexdigit (c >>> 4), hexdigit (c &&& 0xf)]

/-- `UrlEncode`. -/
def urlEncode (str : List UInt8) : List UInt8 := str.flatMap urlEncodeChar

/-- `UrlDecode`. -/
def urlDecode : List UInt8 → List UInt8
  | c :: a :: b :: str =>
    if c = 43 then 32 :: urlDecode (a :: b :: str)
    else if c = 37 ∧ isxdigit a ∧ isxdigit b then (xdigitValue a <<< 4 ||| xdigitValue b) :: urlDecode str
    else c :: urlDecode (a :: b :: str)
  | c :: str => (if c = 43 then 32 else c) :: urlDecode str
  | [] => []

/-- The characters that `Trim` takes away. -/
def isDelimit (c : UInt8) : Bool := (bytes " \t\r\n").contains c

/-- `Trim`. -/
def trim (str : List UInt8) : List UInt8 := ((str.dropWhile isDelimit).reverse.dropWhile isDelimit).reverse

/-! ## Decoding what was encoded -/

theorem urlDecode_plus (str : List UInt8) : urlDecode (43 :: str) = 32 :: urlDecode str := by
  match str with
  | [] | [_] => rfl
  | a :: b :: str => rw [urlDecode, if_pos rfl]

theorem urlDecode_char {c : UInt8} (h : c ≠ 43) (h' : c ≠ 37) (str : List UInt8) :
    urlDecode (c :: str) = c :: urlDecode str := by
  match str with
  | [] | [_] => simp [urlDecode, h]
  | a :: b :: str => rw [urlDecode, if_neg h, if_neg (by simp [h'])]

theorem urlDecode_percent {a b : UInt8} (ha : isxdigit a = true) (hb : isxdigit b = true) (str : List UInt8) :
    urlDecode (37 :: a :: b :: str) = (xdigitValue a <<< 4 ||| xdigitValue b) :: urlDecode str := by
  rw [urlDecode, if_neg (by decide), if_pos ⟨rfl, ha, hb⟩]

/-- What the tables say about a character. -/
def CharCodes (c : UInt8) : Prop :=
  (isxdigit (hexdigit (c >>> 4)) && isxdigit (hexdigit (c &&& 0xf)) &&
    ((xdigitValue (hexdigit (c >>> 4)) <<< 4 ||| xdigitValue (hexdigit (c &&& 0xf))) == c) &&
    (!charIsUnreserved c || c != 43 && c != 37 && c != 38 && c != 32 && c != 0) &&
    (hexdigit (c >>> 4) != 61 && hexdigit (c &&& 0xf) != 61)) = true

theorem charCodes (c : UInt8) : CharCodes c := by
  have hall : ∀ i : Fin 256, CharCodes (UInt8.ofFin i) := by
    unfold CharCodes
    decide +kernel
  exact hall c.toFin

theorem urlDecode_encodeChar (c : UInt8) (str : List UInt8) :
    urlDecode (urlEncodeChar c ++ str) = c :: urlDecode str := by
  have h := charCodes c
  simp only [CharCodes, Bool.and_eq_true, Bool.or_eq_true, Bool.not_eq_true', bne_iff_ne, beq_iff_eq] at h
  obtain ⟨⟨⟨⟨ha, hb⟩, hval⟩, hkept⟩, -⟩ := h
  unfold urlEncodeChar
  split
  · rename_i hu
    obtain ⟨⟨⟨⟨hplus, hpercent⟩, -⟩, -⟩, -⟩ := hkept.resolve_left (by simp [hu])
    exact urlDecode_char hplus hpercent str
  · split
    · rename_i hspace
      rw [hspace]
      exact urlDecode_plus str
    · have hdec := urlDecode_percent ha hb str
      rw [hval] at hdec
      exact hdec

/-- **What is encoded is decoded again.** -/
theorem urlDecode_urlEncode (str : List UInt8) : urlDecode (urlEncode str) = str := by
  induction str with
  | nil => rfl
  | cons c str ih =>
    have hdec := urlDecode_encodeChar c (urlEncode str)
    rw [ih] at hdec
    rwa [urlEncode, List.flatMap_cons, ← urlEncode]

/-! ## The characters of what was encoded -/

theorem mem_urlEncodeChar {c d : UInt8} (h : d ∈ urlEncodeChar c) : d ≠ 38 ∧ d ≠ 0 ∧ (d = 61 → c = 61) := by
  have hc := charCodes c
  simp only [CharCodes, Bool.and_eq_true, Bool.or_eq_true, Bool.not_eq_true', bne_iff_ne, beq_iff_eq] at hc
  obtain ⟨⟨⟨⟨ha, hb⟩, -⟩, hkept⟩, ha', hb'⟩ := hc
  have hdigit : ∀ {x : UInt8}, isxdigit x = true → x ≠ 38 ∧ x ≠ 0 := by
    rintro x hx
    constructor <;> rintro rfl <;> cases hx
  unfold urlEncodeChar at h
  split at h
  · rename_i hu
    obtain rfl := List.mem_singleton.1 h
    obtain ⟨⟨⟨-, hand⟩, -⟩, hnul⟩ := hkept.resolve_left (by simp [hu])
    exact ⟨hand, hnul, id⟩
  · split at h
    · obtain rfl : d = 43 := List.mem_singleton.1 h
      exact ⟨by decide, by decide, fun h => absurd h (by decide)⟩
    · rcases List.mem_cons.1 h with rfl | h
      · exact ⟨by decide, by decide, fun h => absurd h (by decide)⟩
      · rcases List.mem_cons.1 h with rfl | h
        · exact ⟨(hdigit ha).1, (hdigit ha).2, fun h => absurd h ha'⟩
        · obtain rfl := List.mem_singleton.1 h
          exact ⟨(hdigit hb).1, (hdigit hb).2, fun h => absurd h hb'⟩

/-- **What is encoded has neither `&` nor NUL**, and `=` just where the text has it. -/
theorem mem_urlEncode {str : List UInt8} :
    38 ∉ urlEncode str ∧ 0 ∉ urlEncode str ∧ (61 ∈ urlEncode str → 61 ∈ str) := by
  refine ⟨fun h => ?_, fun h => ?_, fun h => ?_⟩
  · obtain ⟨c, -, hc⟩ := List.mem_flatMap.1 h
    exact (mem_urlEncodeChar hc).1 rfl
  · obtain ⟨c, -, hc⟩ := List.mem_flatMap.1 h
    exact (mem_urlEncodeChar hc).2.1 rfl
  · obtain ⟨c, hmem, hc⟩ := List.mem_flatMap.1 h
    exact (mem_urlEncodeChar hc).2.2 rfl ▸ hmem

/-- A text of unreserved characters stays as it is. -/
theorem urlEncode_eq_self {str : List UInt8} (h : ∀ c ∈ str, charIsUnreserved c = true) : urlEncode str = str := by
  induction str with
  | nil => rfl
  | cons c str ih =>
    have hc : urlEncodeChar c = [c] := if_pos (h c List.mem_cons_self)
    rw [urlEncode, List.flatMap_cons, ← urlEncode, hc, ih fun d hd => h d (List.mem_cons_of_mem c hd)]
    rfl

end Megalo
