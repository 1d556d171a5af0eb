import Megalo.Util.Chars
import Mathlib.Data.List.Basic

/-!
# The patterns of `LogFormatter`

- `LogFormatter.new` is the constructor: `initLoop` and `scanDirective` are the two loops of `init`, on the pattern from
  an index on, and `makeItem` looks the directives up in `s_format_items`;
- `scan` is what they make of a pattern and a pending literal, with an equation for each thing the pattern can start
  with;
- a list of `Token`s is a pattern of the documented language, and `itemsOf` what it stands for. The formatter has just
  these items, and no error, when there is no `%%` (`formatter_tokens`): `%%` puts a `%` into the literal and leaves the
  second one to be read again, as the start of a directive or of another `%%`.
-/

namespace Megalo

/-- What `s_format_items` makes items of, and the items. -/
inductive FormatItem
  | message
  | level
  | elapse
  | name
  | threadId
  | newLine
  | dateTime (format : List UInt8)
  | fileName
  | line
  | tab
  | fiberId
  | threadName
  | string (string : List UInt8)
  deriving DecidableEq

/-- `DateTimeFormatItem(format)`. -/
def dateTimeFormatItem (format : List UInt8) : FormatItem :=
  .dateTime (if format.isEmpty then bytes "%Y-%m-%d %H:%M:%S" else format)

/-- `s_format_items`. -/
def formatItems : List (List UInt8 × (List UInt8 → FormatItem)) :=
  [ (bytes "m", fun _ => .message), (bytes "p", fun _ => .level), (bytes "r", fun _ => .elapse),
    (bytes "c", fun _ => .name), (bytes "t", fun _ => .threadId), (bytes "n", fun _ => .newLine),
    (bytes "d", dateTimeFormatItem), (bytes "f", fun _ => .fileName), (bytes "l", fun _ => .line),
    (bytes "T", fun _ => .tab), (bytes "F", fun _ => .fiberId), (bytes "N", fun _ => .threadName) ]

namespace LogFormatter

/-! ## `init` -/

def percent : UInt8 := 0x25
def openBrace : UInt8 := 0x7b
def closeBrace : UInt8 := 0x7d

/-- An entry of `vec`: its type, and its strings. -/
inductive Entry
  | text (str : List UInt8)
  | directive (str fmt : List UInt8)
  deriving DecidableEq

/-- What the inner loop leaves: `str`, `fmt`, whether `fmt_status` is 1, and the pattern from `n` on. -/
structure Directive where
  str : List UInt8
  fmt : List UInt8
  open_ : Bool
  rest : List UInt8
  deriving DecidableEq

/-- `str` after `++n`: at the end of the pattern it is all that was read, unless it is set. -/
def strAt (rest read str : List UInt8) : List UInt8 := if rest.isEmpty && str.isEmpty then read else str

/-- The inner loop, on the pattern from `n` on: what it has read of the directive, what of that since the brace if
`fmt_status` is 1, and `str`. -/
def scanDirective : List UInt8 → List UInt8 → Option (List UInt8) → List UInt8 → Directive
  | [], _, fmt, str => ⟨str, [], fmt.isSome, []⟩
  | c :: rest, read, none, str =>
    if !isalpha c && c ≠ openBrace && c ≠ closeBrace then ⟨read, [], false, c :: rest⟩
    else if c = openBrace then scanDirective rest (read ++ [c]) (some []) read
    else scanDirective rest (read ++ [c]) none (strAt rest (read ++ [c]) str)
  | c :: rest, read, some fmt, str =>
    if c = closeBrace then ⟨str, fmt, false, rest⟩
    else scanDirective rest (read ++ [c]) (some (fmt ++ [c])) (strAt rest (read ++ [c]) str)

/-- Put the pending literal into `vec`. -/
def flush (nstr : List UInt8) : List Entry := if nstr.isEmpty then [] else [.text nstr]

/-- The outer loop, on the pattern from `i` on, for so many rounds: what it puts into `vec`, and whether it sets
`m_error`. -/
def initLoop : Nat → List UInt8 → List UInt8 → List Entry × Bool
  | 0, _, nstr => (flush nstr, false)
  | _ + 1, [], nstr => (flush nstr, false)
  | k + 1, c :: rest, nstr =>
    if c ≠ percent then initLoop k rest (nstr ++ [c])
    else if rest.head? = some percent then initLoop k rest (nstr ++ [percent])
    else
      let d := scanDirective rest [] none []
      if d.open_ then
        let r := initLoop k rest nstr
        (.text (bytes "<<pattern_error>>") :: r.1, true)
      else
        let r := initLoop k d.rest []
        (flush nstr ++ .directive d.str d.fmt :: r.1, r.2)

/-- The item of an entry of `vec`, and whether it is an error. -/
def makeItem : Entry → FormatItem × Bool
  | .text str => (.string str, false)
  | .directive str fmt =>
    match formatItems.lookup str with
    | none => (.string (bytes "<<error_format %" ++ str ++ bytes ">>"), true)
    | some item => (item fmt, false)

/-- The items of `vec`, and `m_error`. -/
def build (r : List Entry × Bool) : List FormatItem × Bool :=
  (r.1.map fun e => (makeItem e).1, r.2 || r.1.any fun e => (makeItem e).2)

end LogFormatter

/-- `LogFormatter`. -/
structure LogFormatter where
  pattern : List UInt8
  items : List FormatItem
  error : Bool
  deriving DecidableEq

/-- The constructor. -/
def LogFormatter.new (pattern : List UInt8) : LogFormatter :=
  let r := build (initLoop pattern.length pattern [])
  { pattern := pattern, items := r.1, error := r.2 }

namespace LogFormatter

/-! ## What the loops make of a pattern -/

variable {rest read str fmt nstr s : List UInt8} {c : UInt8} {k : Nat}

theorem length_scanDirective (s read : List UInt8) (fmt : Option (List UInt8)) (str : List UInt8) :
    (scanDirective s read fmt str).rest.length ≤ s.length := by
  induction s generalizing read fmt str with
  | nil => exact Nat.le_refl 0
  | cons c rest ih =>
    cases fmt with
    | none =>
      rw [scanDirective]
      split
      · exact Nat.le_refl _
      · split
        · exact (ih _ _ _).trans (Nat.le_succ _)
        · exact (ih _ _ _).trans (Nat.le_succ _)
    | some fmt =>
      rw [scanDirective]
      split
      · exact Nat.le_succ _
      · exact (ih _ _ _).trans (Nat.le_succ _)

/-- One round for each character is enough, and more do no harm. -/
theorem initLoop_rounds {k' : Nat} (h : s.length ≤ k) (h' : s.length ≤ k') :
    initLoop k s nstr = initLoop k' s nstr := by
  induction k generalizing s nstr k' with
  | zero =>
    obtain rfl := List.length_eq_zero_iff.1 (Nat.le_zero.1 h)
    cases k' <;> rfl
  | succ k ih =>
    cases s with
    | nil => cases k' <;> rfl
    | cons c rest =>
      rw [List.length_cons] at h h'
      obtain ⟨k', rfl⟩ := Nat.exists_eq_succ_of_ne_zero (show k' ≠ 0 by omega)
      have hrest : rest.length ≤ k := by omega
      have hrest' : rest.length ≤ k' := by omega
      have hdir := length_scanDirective rest [] none []
      rw [initLoop, initLoop]
      split
      · exact ih hrest hrest'
      · split
        · exact ih hrest hrest'
        · dsimp only
          rw [ih hrest hrest', ih (hdir.trans hrest) (hdir.trans hrest')]

/-- The items of a pattern behind a pending literal, and `m_error`. -/
def scan (s nstr : List UInt8) : List FormatItem × Bool := build (initLoop s.length s nstr)

theorem new_eq (pattern : List UInt8) :
    (new pattern).items = (scan pattern []).1 ∧ (new pattern).error = (scan pattern []).2 := ⟨rfl, rfl⟩

/-- The item of a pending literal. -/
def flushItem (nstr : List UInt8) : List FormatItem := if nstr.isEmpty then [] else [.string nstr]

theorem build_flush (nstr : List UInt8) (r : List Entry × Bool) :
    build (flush nstr ++ r.1, r.2) = (flushItem nstr ++ (build r).1, (build r).2) := by
  unfold flush flushItem
  split <;> rfl

theorem build_cons (e : Entry) (r : List Entry × Bool) :
    build (e :: r.1, r.2) = ((makeItem e).1 :: (build r).1, (makeItem e).2 || (build r).2) := by
  simp only [build, List.map_cons, List.any_cons, Bool.or_left_comm]

theorem scan_nil : scan [] nstr = (flushItem nstr, false) := by
  have := build_flush nstr ([], false)
  simpa [scan, initLoop, build] using this

theorem scan_text (hc : c ≠ percent) : scan (c :: rest) nstr = scan rest (nstr ++ [c]) := by
  rw [scan, List.length_cons, initLoop, if_pos hc, scan]

/-- `%%`: the second one is left to be read again. -/
theorem scan_escape : scan (percent :: percent :: rest) nstr = scan (percent :: rest) (nstr ++ [percent]) := by
  rw [scan, List.length_cons, initLoop, if_neg (not_not.2 rfl), List.head?_cons, if_pos rfl, scan]

/-- A directive. -/
theorem scan_directive {d : Directive} (hrest : rest.head? ≠ some percent) (hd : scanDirective rest [] none [] = d)
    (h : d.open_ = false) : scan (percent :: rest) nstr =
      (flushItem nstr ++ (makeItem (.directive d.str d.fmt)).1 :: (scan d.rest []).1,
        (makeItem (.directive d.str d.fmt)).2 || (scan d.rest []).2) := by
  have hle := length_scanDirective rest [] none []
  rw [hd] at hle
  have hround : initLoop _ d.rest [] = initLoop d.rest.length d.rest [] :=
    initLoop_rounds hle (Nat.le_refl d.rest.length)
  rw [scan, List.length_cons, initLoop, if_neg (not_not.2 rfl), if_neg hrest, hd]
  simp only [h, Bool.false_eq_true, if_false, hround]
  have hcons := build_cons (.directive d.str d.fmt) (initLoop d.rest.length d.rest [])
  have hflush := build_flush nstr (.directive d.str d.fmt :: (initLoop d.rest.length d.rest []).1,
    (initLoop d.rest.length d.rest []).2)
  rw [hcons] at hflush
  exact hflush

/-- A directive whose brace is not closed. -/
theorem scan_open (hrest : rest.head? ≠ some percent) (h : (scanDirective rest [] none []).open_ = true) :
    (scan (percent :: rest) nstr).2 = true := by
  rw [scan, List.length_cons, initLoop, if_neg (not_not.2 rfl), if_neg hrest]
  simp only [h, if_true]
  rfl

/-- Whatever a `%` starts, the literal in front of it comes first. -/
theorem scan_percent (hrest : rest.head? ≠ some percent) (hn : nstr ≠ []) :
    (scan (percent :: rest) nstr).2 = true ∨ (scan (percent :: rest) nstr).1.head? = some (.string nstr) := by
  cases h : (scanDirective rest [] none []).open_ with
  | true => exact .inl (scan_open hrest h)
  | false =>
    right
    rw [scan_directive hrest rfl h, flushItem, if_neg (by simpa using hn)]
    rfl

/-- A `%` at the end is an error. -/
theorem scan_percent_nil : (scan [percent] nstr).2 = true := by
  rw [scan_directive (d := ⟨[], [], false, []⟩) (by simp) rfl rfl]
  rfl

theorem scan_literal (h : percent ∉ str) : scan (str ++ rest) nstr = scan rest (nstr ++ str) := by
  induction str generalizing nstr with
  | nil => rw [List.nil_append, List.append_nil]
  | cons c str ih =>
    obtain ⟨hc, hstr⟩ := not_or.1 (mt List.mem_cons.2 h)
    rw [List.cons_append, scan_text (Ne.symm hc), ih hstr, List.append_assoc, List.singleton_append]

/-! ## The directives of the table -/

/-- The names in the table are letters. -/
theorem isalpha_of_lookup {item : List UInt8 → FormatItem} (h : formatItems.lookup [c] = some item) :
    isalpha c = true := by
  have hall : (formatItems.all fun e => e.1.all isalpha) = true := by decide
  obtain ⟨l₁, l₂, heq, -⟩ := List.lookup_eq_some_iff.1 h
  have hmem : ([c], item) ∈ formatItems := by
    rw [heq]
    exact List.mem_append_right _ List.mem_cons_self
  simpa using List.all_eq_true.1 hall _ hmem

theorem ne_of_isalpha (h : isalpha c = true) : c ≠ percent ∧ c ≠ openBrace := by
  constructor
  · rintro rfl
    exact absurd h (by decide)
  · rintro rfl
    exact absurd h (by decide)

/-- The pattern does not go on with a letter or a brace. -/
def endsName (rest : List UInt8) : Bool := rest.head?.all fun c => !isalpha c && c ≠ openBrace && c ≠ closeBrace

/-- A directive without braces ends in front of what is neither a letter nor a brace. -/
theorem scanDirective_letter (hc : isalpha c = true) (hrest : endsName rest = true) :
    scanDirective (c :: rest) [] none [] = ⟨[c], [], false, rest⟩ := by
  rw [scanDirective, if_neg (by simp [hc]), if_neg (ne_of_isalpha hc).2]
  cases rest with
  | nil => rfl
  | cons e rest =>
    rw [scanDirective, if_pos (by simpa [endsName] using hrest)]
    rfl

/-- Inside the braces. -/
theorem scanDirective_fmt {name acc : List UInt8} (hfmt : closeBrace ∉ fmt) :
    scanDirective (fmt ++ closeBrace :: rest) read (some acc) name = ⟨name, acc ++ fmt, false, rest⟩ := by
  induction fmt generalizing read acc with
  | nil => rw [List.nil_append, scanDirective, if_pos rfl, List.append_nil]
  | cons c fmt ih =>
    obtain ⟨hc, hfmt⟩ := not_or.1 (mt List.mem_cons.2 hfmt)
    have hstr : strAt (fmt ++ closeBrace :: rest) (read ++ [c]) name = name := by
      rw [strAt, if_neg (by simp)]
    rw [List.cons_append, scanDirective, if_neg (Ne.symm hc), hstr, ih hfmt, List.append_assoc, List.singleton_append]

theorem scanDirective_braces (hc : isalpha c = true) (hfmt : closeBrace ∉ fmt) :
    scanDirective (c :: openBrace :: (fmt ++ closeBrace :: rest)) [] none [] = ⟨[c], fmt, false, rest⟩ := by
  rw [scanDirective, if_neg (by simp [hc]), if_neg (ne_of_isalpha hc).2, scanDirective, if_neg (by simp), if_pos rfl,
    scanDirective_fmt hfmt]
  rfl

/-! ## Tokens -/

/-- A token of the pattern language. -/
inductive Token
  | literal (text : List UInt8)
  | escape
  | directive (x : UInt8)
  | formatted (x : UInt8) (fmt : List UInt8)
  deriving DecidableEq

/-- A literal has no `%`, a directive is in the table, and its format has no closing brace. -/
def Token.WF : Token → Prop
  | .literal text => percent ∉ text
  | .escape => True
  | .directive x => (formatItems.lookup [x]).isSome
  | .formatted x fmt => (formatItems.lookup [x]).isSome ∧ closeBrace ∉ fmt

/-- What a token is written as. -/
def Token.text : Token → List UInt8
  | .literal text => text
  | .escape => [percent, percent]
  | .directive x => [percent, x]
  | .formatted x fmt => percent :: x :: openBrace :: (fmt ++ [closeBrace])

/-- The pattern that the tokens make. -/
def patternOf (ts : List Token) : List UInt8 := (ts.map Token.text).flatten

/-- A directive without braces is not followed by a letter or a brace. -/
def Separated : List Token → Prop
  | [] => True
  | .directive _ :: ts => endsName (patternOf ts) = true ∧ Separated ts
  | _ :: ts => Separated ts

instance : (t : Token) → Decidable t.WF
  | .literal text => inferInstanceAs (Decidable (percent ∉ text))
  | .escape => inferInstanceAs (Decidable True)
  | .directive x => inferInstanceAs (Decidable ((formatItems.lookup [x]).isSome = true))
  | .formatted x fmt => inferInstanceAs (Decidable ((formatItems.lookup [x]).isSome = true ∧ closeBrace ∉ fmt))

instance decidableSeparated : (ts : List Token) → Decidable (Separated ts)
  | [] => inferInstanceAs (Decidable True)
  | .directive _ :: ts =>
    have := decidableSeparated ts
    inferInstanceAs (Decidable (endsName (patternOf ts) = true ∧ Separated ts))
  | .literal _ :: ts => decidableSeparated ts
  | .escape :: ts => decidableSeparated ts
  | .formatted _ _ :: ts => decidableSeparated ts

/-- The item of a directive. -/
def itemOf (x : UInt8) (fmt : List UInt8) : List FormatItem :=
  ((formatItems.lookup [x]).map fun item => item fmt).toList

/-- The items that tokens stand for, behind a pending literal. -/
def itemsOf : List Token → List UInt8 → List FormatItem
  | [], nstr => flushItem nstr
  | .literal text :: ts, nstr => itemsOf ts (nstr ++ text)
  | .escape :: ts, nstr => itemsOf ts (nstr ++ [percent])
  | .directive x :: ts, nstr => flushItem nstr ++ (itemOf x [] ++ itemsOf ts [])
  | .formatted x fmt :: ts, nstr => flushItem nstr ++ (itemOf x fmt ++ itemsOf ts [])

variable {ts : List Token} {x : UInt8}

theorem patternOf_cons (t : Token) (ts : List Token) : patternOf (t :: ts) = t.text ++ patternOf ts := by
  rw [patternOf, List.map_cons, List.flatten_cons, patternOf]

theorem Separated.tail {t : Token} (h : Separated (t :: ts)) : Separated ts := by
  cases t with
  | directive x => exact h.2
  | literal | escape | formatted => exact h

/-- What scanning a directive of the table makes, once its text is read. -/
theorem scan_item (hx : (formatItems.lookup [x]).isSome) (hrest : rest.head? ≠ some percent)
    (hd : scanDirective rest [] none [] = ⟨[x], fmt, false, s⟩) :
    scan (percent :: rest) nstr = (flushItem nstr ++ (itemOf x fmt ++ (scan s []).1), (scan s []).2) := by
  obtain ⟨item, hitem⟩ := Option.isSome_iff_exists.1 hx
  rw [scan_directive hrest hd rfl, itemOf]
  simp only [makeItem, hitem, Option.map_some, Option.toList_some, List.singleton_append, Bool.false_or]

theorem scan_letter (hx : (formatItems.lookup [x]).isSome) (hrest : endsName rest = true) :
    scan (percent :: x :: rest) nstr = (flushItem nstr ++ (itemOf x [] ++ (scan rest []).1), (scan rest []).2) := by
  obtain ⟨item, hitem⟩ := Option.isSome_iff_exists.1 hx
  have halpha := isalpha_of_lookup hitem
  have hne : (x :: rest).head? ≠ some percent := fun h => (ne_of_isalpha halpha).1 (Option.some.inj h)
  exact scan_item hx hne (scanDirective_letter halpha hrest)

theorem scan_braces (hx : (formatItems.lookup [x]).isSome) (hfmt : closeBrace ∉ fmt) :
    scan (percent :: x :: openBrace :: (fmt ++ closeBrace :: rest)) nstr =
      (flushItem nstr ++ (itemOf x fmt ++ (scan rest []).1), (scan rest []).2) := by
  obtain ⟨item, hitem⟩ := Option.isSome_iff_exists.1 hx
  have halpha := isalpha_of_lookup hitem
  have hne : ∀ s, (x :: s).head? ≠ some percent := fun _ h => (ne_of_isalpha halpha).1 (Option.some.inj h)
  exact scan_item hx (hne _) (scanDirective_braces halpha hfmt)

theorem head_flushItem {items : List FormatItem} (hn : nstr ≠ []) :
    (flushItem nstr ++ items).head? = some (.string nstr) := by
  rw [flushItem, if_neg (by simpa using hn)]
  rfl

/-- The first item is what is pending, and what follows of the literal. -/
theorem head_itemsOf (hn : nstr ≠ []) : ∃ more, (itemsOf ts nstr).head? = some (.string (nstr ++ more)) := by
  induction ts generalizing nstr with
  | nil =>
    have hhead : (flushItem nstr ++ []).head? = some (.string nstr) := head_flushItem hn
    rw [List.append_nil] at hhead
    exact ⟨[], by rw [itemsOf, List.append_nil, hhead]⟩
  | cons t ts ih =>
    cases t with
    | literal text =>
      obtain ⟨more, hmore⟩ := ih (List.append_ne_nil_of_left_ne_nil hn text)
      exact ⟨text ++ more, by rw [itemsOf, hmore, List.append_assoc]⟩
    | escape =>
      obtain ⟨more, hmore⟩ := ih (List.append_ne_nil_of_left_ne_nil hn [percent])
      exact ⟨percent :: more, by rw [itemsOf, hmore, List.append_assoc]; rfl⟩
    | directive | formatted => exact ⟨[], by rw [itemsOf, head_flushItem hn, List.append_nil]⟩

theorem pending_ne_nil {n : Nat} (hn : 0 < n) : nstr ++ List.replicate n percent ≠ [] := by
  intro h
  have := congrArg List.length h
  rw [List.length_append, List.length_replicate, List.length_nil] at this
  omega

/-- A directive behind an escape puts what was collected in front of it, which is more than there are escapes. -/
theorem scan_directive_ne {m : Nat} {x : UInt8} {tail : List UInt8} {items : List FormatItem} (hk : 0 < k) (hkm : k ≤ m)
    (hx : (formatItems.lookup [x]).isSome) : scan (percent :: percent :: x :: tail) (nstr ++ List.replicate m percent) ≠
      (flushItem (nstr ++ List.replicate k percent) ++ items, false) := by
  intro h
  obtain ⟨item, hitem⟩ := Option.isSome_iff_exists.1 hx
  have hne : (x :: tail).head? ≠ some percent := fun e =>
    (ne_of_isalpha (isalpha_of_lookup hitem)).1 (Option.some.inj e)
  rw [scan_escape, List.append_assoc, ← List.replicate_succ'] at h
  rcases scan_percent hne (pending_ne_nil (Nat.succ_pos m)) with herror | hhead
  · rw [h] at herror
    cases herror
  · rw [h, head_flushItem (pending_ne_nil hk), Option.some.injEq, FormatItem.string.injEq] at hhead
    have := congrArg List.length (List.append_cancel_left hhead)
    rw [List.length_replicate, List.length_replicate] at this
    omega

/-- Behind an escape the scanner stands on its second `%`. What it has collected then is as many as the escapes or more,
and it never makes the items of the tokens of it. -/
theorem scan_escape_ne (hwf : ∀ t ∈ ts, t.WF) {m : Nat} (hk : 0 < k) (hkm : k ≤ m) :
    scan (percent :: patternOf ts) (nstr ++ List.replicate m percent) ≠
      (itemsOf ts (nstr ++ List.replicate k percent), false) := by
  induction ts generalizing k m with
  | nil =>
    intro h
    have hnil : (scan [percent] (nstr ++ List.replicate m percent)).2 = true := scan_percent_nil
    have := congrArg Prod.snd h
    rw [patternOf, List.map_nil, List.flatten_nil, hnil] at this
    cases this
  | cons t ts ih =>
    obtain ⟨ht, hts⟩ := List.forall_mem_cons.1 hwf
    rw [patternOf_cons]
    cases t with
    | literal text =>
      cases text with
      | nil => simpa [itemsOf, Token.text] using ih hts hk hkm
      | cons c text =>
        intro h
        have hc : c ≠ percent := fun e => ht (e ▸ List.mem_cons_self)
        obtain ⟨more, hmore⟩ : ∃ more, (itemsOf ts (nstr ++ List.replicate k percent ++ c :: text)).head? =
            some (.string (nstr ++ List.replicate k percent ++ c :: text ++ more)) :=
          head_itemsOf (List.append_ne_nil_of_left_ne_nil (pending_ne_nil hk) (c :: text))
        have hrest : (c :: (text ++ patternOf ts)).head? ≠ some percent := fun e => hc (Option.some.inj e)
        rcases scan_percent hrest (pending_ne_nil (Nat.lt_of_lt_of_le hk hkm)) with herror | hhead
        · have := congrArg Prod.snd h
          rw [Token.text, List.cons_append, herror] at this
          cases this
        · rw [Token.text, List.cons_append] at h
          rw [h, itemsOf, hmore, Option.some.injEq, FormatItem.string.injEq, List.append_assoc, List.append_assoc]
            at hhead
          have hmem : c ∈ List.replicate m percent := by
            rw [← List.append_cancel_left hhead]
            simp
          exact hc (List.eq_of_mem_replicate hmem)
    | escape =>
      have := ih hts (k := k + 1) (m := m + 2) (Nat.succ_pos k) (by omega)
      rw [List.replicate_succ', List.replicate_succ', List.replicate_succ', ← List.append_assoc, ← List.append_assoc,
        ← List.append_assoc, ← scan_escape, ← scan_escape] at this
      exact this
    | directive x => exact scan_directive_ne hk hkm ht
    | formatted x fmt => exact scan_directive_ne hk hkm ht.1

/-- The scanner makes the items of the tokens if and only if none is `%%`. -/
theorem scan_tokens (hwf : ∀ t ∈ ts, t.WF) (hsep : Separated ts) :
    scan (patternOf ts) nstr = (itemsOf ts nstr, false) ↔ Token.escape ∉ ts := by
  induction ts generalizing nstr with
  | nil => simp [patternOf, scan_nil, itemsOf]
  | cons t ts ih =>
    obtain ⟨ht, hts⟩ := List.forall_mem_cons.1 hwf
    have htail : ∀ nstr, scan (patternOf ts) nstr = (itemsOf ts nstr, false) ↔ Token.escape ∉ ts := fun _ =>
      ih hts hsep.tail
    -- a directive adds its items to both
    have hitems : ∀ x fmt, (flushItem nstr ++ (itemOf x fmt ++ (scan (patternOf ts) []).1),
        (scan (patternOf ts) []).2) = (flushItem nstr ++ (itemOf x fmt ++ itemsOf ts []), false) ↔
          Token.escape ∉ ts := fun x fmt => by
      rw [← htail [], Prod.mk.injEq, List.append_right_inj, List.append_right_inj, ← Prod.mk.injEq]
    rw [patternOf_cons]
    cases t with
    | literal text =>
      rw [Token.text, scan_literal ht, itemsOf, htail]
      simp
    | escape =>
      rw [Token.text, itemsOf]
      have hne : scan (percent :: patternOf ts) (nstr ++ List.replicate 1 percent) ≠
          (itemsOf ts (nstr ++ List.replicate 1 percent), false) :=
        scan_escape_ne hts Nat.one_pos (Nat.le_refl 1)
      simpa [scan_escape] using hne
    | directive x =>
      have hmem : Token.escape ∈ .directive x :: ts ↔ Token.escape ∈ ts := by simp
      rw [hmem, ← hitems x [], itemsOf, ← scan_letter ht hsep.1]
      rfl
    | formatted x fmt =>
      have hmem : Token.escape ∈ .formatted x fmt :: ts ↔ Token.escape ∈ ts := by simp
      have htext : (Token.formatted x fmt).text ++ patternOf ts =
          percent :: x :: openBrace :: (fmt ++ closeBrace :: patternOf ts) := by simp [Token.text]
      rw [hmem, ← hitems x fmt, itemsOf, htext, ← scan_braces ht.1 ht.2]

end LogFormatter

open LogFormatter in
/-- **The pattern language**, but for `%%`. The formatter of the pattern that tokens make has no error and just the
items of the tokens if and only if none of them is `%%`. -/
theorem formatter_tokens (ts : List Token) (hwf : ∀ t ∈ ts, t.WF) (hsep : Separated ts) :
    (LogFormatter.new (patternOf ts)).error = false ∧ (LogFormatter.new (patternOf ts)).items = itemsOf ts [] ↔
      Token.escape ∉ ts := by
  rw [(new_eq _).1, (new_eq _).2, ← scan_tokens hwf hsep, Prod.ext_iff, And.comm]

/-- `[%d{%H}] %m%n`. -/
theorem formatter_tokens_date :
    (LogFormatter.new (bytes "[%d{%H}] %m%n")).error = false ∧
      (LogFormatter.new (bytes "[%d{%H}] %m%n")).items =
        [.string (bytes "["), .dateTime (bytes "%H"), .string (bytes "] "), .message, .newLine] :=
  (formatter_tokens [.literal (bytes "["), .formatted 100 (bytes "%H"), .literal (bytes "] "), .directive 109,
    .directive 110] (by decide) (by decide)).2 (by decide)

/-- `%%` alone is a literal `%` and a directive without a name. -/
theorem escape_error : ¬((LogFormatter.new (LogFormatter.patternOf [.escape])).error = false ∧
    (LogFormatter.new (LogFormatter.patternOf [.escape])).items = LogFormatter.itemsOf [.escape] []) := by
  decide

end Megalo
