import Mathlib.Computability.Language
import Megalo.Http.Scanner

/-!
# The grammar of a request, and how the machine walks it

- the rules of the grammar that a printed request uses, as languages of bytes (`pathAbsolute`, `query`, `fragment`,
  `fieldName`, `fieldValue`);
- `Machine.quiet` is where the machine comes to by transitions without actions, and `Machine.enters` where it comes to
  by one with an action and then without. A repetition of what leads a state back to itself does so too (`quiet_kstar`);
- the texts of the rules lead from the state in front of them to one behind them (`enters_path`, `enters_query`,
  `enters_fragment`, `enters_name`, `enters_value`).
-/

namespace Megalo

open Computability

/-! ## Rules -/

namespace Grammar

/-- One of these characters. -/
def chars (p : UInt8 → Bool) : Language UInt8 := {s | ∃ c, p c = true ∧ s = [c]}

/-- A literal. -/
def word (s : String) : Language UInt8 := {bytes s}

/-- `alpha`. -/
def isAlpha (c : UInt8) : Bool := (65 ≤ c && c ≤ 90) || (97 ≤ c && c ≤ 122)

/-- `digit`. -/
def isDigit (c : UInt8) : Bool := 48 ≤ c && c ≤ 57

/-- `xdigit`. -/
def isXdigit (c : UInt8) : Bool := isDigit c || (65 ≤ c && c ≤ 70) || (97 ≤ c && c ≤ 102)

/-- `more_delims`. -/
def isMoreDelim (uriRelaxed : Bool) (c : UInt8) : Bool := uriRelaxed && (bytes "\x7b\x7d^").contains c

/-- `sub_delims`. -/
def isSubDelim (uriRelaxed : Bool) (c : UInt8) : Bool := (bytes "!$&\x27()*+,;=").contains c || isMoreDelim uriRelaxed c

/-- `unreserved`. -/
def isUnreserved (c : UInt8) : Bool := isAlpha c || isDigit c || (bytes "-._~").contains c

/-- `pct_encoded`. -/
def pctEncoded : Language UInt8 := word "%" * (chars isXdigit * chars isXdigit)

/-- `pchar`. -/
def pchar (uriRelaxed : Bool) : Language UInt8 :=
  chars isUnreserved + pctEncoded + chars (isSubDelim uriRelaxed) + word ":" + word "@"

/-- `segment`. -/
def segment (uriRelaxed : Bool) : Language UInt8 := (pchar uriRelaxed)∗

/-- `segment_nz`. -/
def segmentNz (uriRelaxed : Bool) : Language UInt8 := pchar uriRelaxed * (pchar uriRelaxed)∗

/-- `path_absolute`. -/
def pathAbsolute (uriRelaxed : Bool) : Language UInt8 :=
  word "/" * (segmentNz uriRelaxed * (word "/" * segment uriRelaxed)∗ + 1)

/-- `query`. -/
def query (uriRelaxed : Bool) : Language UInt8 := (pchar uriRelaxed + word "/" + word "?")∗

/-- `fragment`. -/
def fragment (uriRelaxed : Bool) : Language UInt8 := (pchar uriRelaxed + word "/" + word "?")∗

/-- A control character. -/
def isCtl (c : UInt8) : Bool := c ≤ 31 || c = 127

/-- `HTTP_separator`. -/
def isSeparator (c : UInt8) : Bool := (bytes "()<>@,;:\x5c\x22/[]?=\x7b\x7d \t").contains c

/-- `token`: ASCII, and neither a control character nor a separator. -/
def isToken (c : UInt8) : Bool := c ≤ 127 && !isCtl c && !isSeparator c

/-- `field_name`. -/
def fieldName : Language UInt8 := chars isToken * (chars isToken)∗

/-- A value without control characters and without a leading blank. -/
def fieldValue : Language UInt8 := (chars fun c => !isCtl c && c ≠ 32) * (chars fun c => !isCtl c)∗ + 1

theorem mem_chars_kstar {p : UInt8 → Bool} {l : List UInt8} (h : ∀ c ∈ l, p c = true) : l ∈ (chars p)∗ := by
  refine Language.mem_kstar.mpr ⟨l.map fun c => [c], ?_, fun s hs => ?_⟩
  · induction l with
    | nil => rfl
    | cons c l ih =>
      rw [List.map_cons, List.flatten_cons, ← ih fun c' hc' => h c' (List.mem_cons_of_mem _ hc')]
      rfl
  · obtain ⟨c, hc, rfl⟩ := List.mem_map.mp hs
    exact ⟨c, h c hc, rfl⟩

/-- A character that stands for itself. -/
theorem mem_pchar {uriRelaxed : Bool} {c : UInt8} (h : (isUnreserved c || isSubDelim uriRelaxed c) = true) :
    [c] ∈ pchar uriRelaxed := by
  rcases Bool.or_eq_true_iff.mp h with h | h
  · exact .inl (.inl (.inl (.inl ⟨c, h, rfl⟩)))
  · exact .inl (.inl (.inr ⟨c, h, rfl⟩))

/-- A query, or a fragment, of such characters. -/
theorem mem_query {uriRelaxed : Bool} {l : List UInt8}
    (h : ∀ c ∈ l, (isUnreserved c || isSubDelim uriRelaxed c) = true) : l ∈ query uriRelaxed := by
  obtain ⟨parts, hl, hparts⟩ := Language.mem_kstar.mp (mem_chars_kstar h)
  refine Language.mem_kstar.mpr ⟨parts, hl, fun part hpart => ?_⟩
  obtain ⟨c, hc, rfl⟩ := hparts part hpart
  exact .inl (.inl (mem_pchar hc))

theorem mem_fieldName {name : List UInt8} (hne : name ≠ []) (h : name.all isToken = true) : name ∈ fieldName := by
  cases name with
  | nil => exact absurd rfl hne
  | cons c name =>
    rw [List.all_cons, Bool.and_eq_true] at h
    exact ⟨[c], ⟨c, h.1, rfl⟩, name, mem_chars_kstar (List.all_eq_true.mp h.2), rfl⟩

theorem mem_fieldValue {value : List UInt8} (hblank : value.head? ≠ some 32)
    (h : value.all (fun c => !isCtl c) = true) : value ∈ fieldValue := by
  cases value with
  | nil => exact .inr rfl
  | cons c value =>
    have hc : c ≠ 32 := fun hc => hblank (by rw [hc]; rfl)
    rw [List.all_cons, Bool.and_eq_true] at h
    exact .inl ⟨[c], ⟨c, by simpa [hc] using h.1, rfl⟩, value, mem_chars_kstar (List.all_eq_true.mp h.2), rfl⟩

end Grammar

/-! ## Transitions without actions -/

namespace Machine

deriving instance DecidableEq for Goto

/-- Where the machine comes to by transitions without actions. -/
def quiet (uriRelaxed : Bool) : List UInt8 → Nat → Option Nat
  | [], cs => some cs
  | b :: bs, cs =>
    match next uriRelaxed cs b with
    | some ⟨[], t⟩ => quiet uriRelaxed bs t
    | _ => none

variable {uriRelaxed : Bool} {l : Language UInt8} {s s' : List UInt8} {b : UInt8} {cs t u : Nat}

theorem quiet_cons (h : next uriRelaxed cs b = some ⟨[], t⟩) : quiet uriRelaxed (b :: s) cs = quiet uriRelaxed s t := by
  rw [quiet, h]

theorem quiet_append (h : quiet uriRelaxed s cs = some t) :
    quiet uriRelaxed (s ++ s') cs = quiet uriRelaxed s' t := by
  induction s generalizing cs with
  | nil =>
    cases h
    rfl
  | cons b s ih =>
    rw [quiet] at h
    rw [List.cons_append, quiet]
    split at h
    · exact ih h
    · cases h

/-- A repetition leads back to the state it starts from. -/
theorem quiet_kstar (hl : ∀ s ∈ l, quiet uriRelaxed s cs = some cs) (hs : s ∈ l∗) :
    quiet uriRelaxed s cs = some cs := by
  obtain ⟨items, rfl, hitems⟩ := Language.mem_kstar.mp hs
  induction items with
  | nil => rfl
  | cons item items ih =>
    rw [List.flatten_cons, quiet_append (hl item (hitems item List.mem_cons_self))]
    have htail : ∀ y ∈ items, y ∈ l := fun y hy => hitems y (List.mem_cons_of_mem _ hy)
    exact ih htail ⟨items, rfl, htail⟩

theorem quiet_mul {l' : Language UInt8} (hl : ∀ s ∈ l, quiet uriRelaxed s cs = some t)
    (hl' : ∀ s ∈ l', quiet uriRelaxed s t = some u) (hs : s ∈ l * l') : quiet uriRelaxed s cs = some u := by
  obtain ⟨a, ha, b, hb, rfl⟩ := Language.mem_mul.mp hs
  rw [quiet_append (hl a ha)]
  exact hl' b hb

theorem quiet_chars {p : UInt8 → Bool} (hp : ∀ b, p b = true → next uriRelaxed cs b = some ⟨[], t⟩)
    (hs : s ∈ Grammar.chars p) : quiet uriRelaxed s cs = some t := by
  obtain ⟨c, hc, rfl⟩ := hs
  exact quiet_cons (hp c hc)

/-- Where a word leads whose first character has one action, and the others none. -/
def enters (uriRelaxed : Bool) (first : Action) : List UInt8 → Nat → Option Nat
  | [], _ => none
  | b :: bs, cs =>
    match next uriRelaxed cs b with
    | some ⟨[a], t⟩ => if a = first then quiet uriRelaxed bs t else none
    | _ => none

theorem enters_cons {first : Action} (h : next uriRelaxed cs b = some ⟨[first], t⟩) :
    enters uriRelaxed first (b :: s) cs = quiet uriRelaxed s t := by
  simp only [enters, h, if_true]

/-- In front of a word, a state may do what the state inside of it does, after an action. -/
theorem enters_of_quiet {first : Action}
    (hnext : ∀ b, ∀ g ∈ next uriRelaxed u b, g.actions = [] → next uriRelaxed cs b = some ⟨[first], g.target⟩)
    (hs : s ≠ []) (hq : quiet uriRelaxed s u = some t) : enters uriRelaxed first s cs = some t := by
  cases s with
  | nil => exact absurd rfl hs
  | cons b s =>
    rw [quiet] at hq
    split at hq
    · rename_i t' hb
      rw [enters_cons (hnext b ⟨[], t'⟩ hb rfl)]
      exact hq
    · cases hq

/-- A first character, and a repetition in the state it leads to. -/
theorem enters_chars {first : Action} {p : UInt8 → Bool}
    (hp : ∀ b, p b = true → next uriRelaxed cs b = some ⟨[first], t⟩)
    (hl : ∀ s ∈ l, quiet uriRelaxed s t = some t) (hs : s ∈ Grammar.chars p * l∗) :
    enters uriRelaxed first s cs = some t := by
  obtain ⟨a, ⟨c, hc, rfl⟩, tail, htail, rfl⟩ := Language.mem_mul.mp hs
  rw [List.singleton_append, enters_cons (hp c hc)]
  exact quiet_kstar hl htail

theorem forall_byte {P : UInt8 → Prop} (h : ∀ n < 256, P (UInt8.ofNat n)) (b : UInt8) : P b := by
  have hb := h b.toNat b.toNat_lt
  rwa [UInt8.ofNat_toNat] at hb

/-! ## The URI -/

/-- The characters of `pchar` that stand for themselves. -/
def isPlain (uriRelaxed : Bool) (c : UInt8) : Bool :=
  Grammar.isUnreserved c || Grammar.isSubDelim uriRelaxed c || (bytes ":@").contains c

/-- The states inside a path, a query and a fragment, with those behind a percent sign and a first digit. -/
def uriStates : List (Nat × Nat × Nat) := [(26, 27, 28), (30, 31, 32), (21, 22, 23)]

/-- The states in front of a query and a fragment, with the action there and the state inside. -/
def queryStates : List (Nat × Action × Nat) := [(29, .startQuery, 30), (20, .mark, 21)]

/-- Inside a part of the URI, plain characters and slashes stay, and a percent sign is followed by two digits. In a
query and in a fragment, a question mark is a character like others. The first slash of a path leads to a state of its
own, from which these characters lead into the path. In front of a query and of a fragment, what is a quiet character
inside begins it. -/
theorem next_uri :
    (∀ e ∈ uriStates, ∀ relaxed,
      (∀ n < 256, (isPlain relaxed (UInt8.ofNat n) = true → next relaxed e.1 (UInt8.ofNat n) = some ⟨[], e.1⟩) ∧
        (Grammar.isXdigit (UInt8.ofNat n) = true → next relaxed e.2.1 (UInt8.ofNat n) = some ⟨[], e.2.2⟩ ∧
          next relaxed e.2.2 (UInt8.ofNat n) = some ⟨[], e.1⟩)) ∧
      next relaxed e.1 37 = some ⟨[], e.2.1⟩ ∧ next relaxed e.1 47 = some ⟨[], e.1⟩ ∧
      (e.1 ≠ 26 → next relaxed e.1 63 = some ⟨[], e.1⟩)) ∧
    (∀ relaxed, next relaxed 3 47 = some ⟨[.mark], 33⟩ ∧ next relaxed 33 37 = some ⟨[], 27⟩ ∧
      ∀ n < 256, isPlain relaxed (UInt8.ofNat n) = true → next relaxed 33 (UInt8.ofNat n) = some ⟨[], 26⟩) ∧
    ∀ e ∈ queryStates, ∀ relaxed, ∀ n < 256, ∀ g ∈ next relaxed e.2.2 (UInt8.ofNat n),
      g.actions = [] → next relaxed e.1 (UInt8.ofNat n) = some ⟨[e.2.1], g.target⟩ := by
  decide +kernel

variable {e : Nat × Nat × Nat}

/-- The digits of a percent-encoded character. -/
theorem quiet_xdigits (he : e ∈ uriStates)
    (hs : s ∈ Grammar.chars Grammar.isXdigit * Grammar.chars Grammar.isXdigit) :
    quiet uriRelaxed s e.2.1 = some e.1 := by
  have hdigit : ∀ c, Grammar.isXdigit c = true →
      next uriRelaxed e.2.1 c = some ⟨[], e.2.2⟩ ∧ next uriRelaxed e.2.2 c = some ⟨[], e.1⟩ :=
    forall_byte fun n hn => ((next_uri.1 e he uriRelaxed).1 n hn).2
  exact quiet_mul (fun _ => quiet_chars fun c hc => (hdigit c hc).1) (fun _ => quiet_chars fun c hc => (hdigit c hc).2)
    hs

/-- A state that plain characters and percent signs lead into a part of the URI, the whole of `pchar` leads there. -/
theorem quiet_pchar (he : e ∈ uriStates)
    (hplain : ∀ c, isPlain uriRelaxed c = true → next uriRelaxed cs c = some ⟨[], e.1⟩)
    (hpercent : next uriRelaxed cs 37 = some ⟨[], e.2.1⟩) (hs : s ∈ Grammar.pchar uriRelaxed) :
    quiet uriRelaxed s cs = some e.1 := by
  rcases hs with (((⟨c, hc, rfl⟩ | hpct) | ⟨c, hc, rfl⟩) | hcolon) | hat
  · exact quiet_cons (hplain c (by simp [isPlain, hc]))
  · obtain ⟨a, ha, digits, hdigits, rfl⟩ := Language.mem_mul.mp hpct
    obtain rfl : a = [37] := ha
    rw [List.singleton_append, quiet_cons hpercent]
    exact quiet_xdigits he hdigits
  · exact quiet_cons (hplain c (by simp [isPlain, hc]))
  · obtain rfl : s = [58] := hcolon
    exact quiet_cons (hplain 58 (by simp [isPlain, bytes]))
  · obtain rfl : s = [64] := hat
    exact quiet_cons (hplain 64 (by simp [isPlain, bytes]))

/-- Inside a part of the URI, `pchar` leads back. -/
theorem quiet_pchar_self (he : e ∈ uriStates) (hs : s ∈ Grammar.pchar uriRelaxed) :
    quiet uriRelaxed s e.1 = some e.1 :=
  quiet_pchar he (forall_byte fun n hn => ((next_uri.1 e he uriRelaxed).1 n hn).1) (next_uri.1 e he uriRelaxed).2.1 hs

/-- The rule of `query` and `fragment`. -/
theorem quiet_queryItem (he : e ∈ uriStates) (hne : e.1 ≠ 26)
    (hs : s ∈ (Grammar.pchar uriRelaxed + Grammar.word "/" + Grammar.word "?")) :
    quiet uriRelaxed s e.1 = some e.1 := by
  obtain ⟨-, -, hnext, hnext'⟩ := next_uri.1 e he uriRelaxed
  rcases hs with (hpchar | hslash) | hquestion
  · exact quiet_pchar_self he hpchar
  · obtain rfl : s = [47] := hslash
    exact quiet_cons hnext
  · obtain rfl : s = [63] := hquestion
    exact quiet_cons (hnext' hne)

/-- A query, inside of it. -/
theorem quiet_query (hs : s ∈ Grammar.query uriRelaxed) : quiet uriRelaxed s 30 = some 30 :=
  quiet_kstar (fun _ => quiet_queryItem (e := (30, 31, 32)) (by decide) (by decide)) hs

/-- A fragment, inside of it. -/
theorem quiet_fragment (hs : s ∈ Grammar.fragment uriRelaxed) : quiet uriRelaxed s 21 = some 21 :=
  quiet_kstar (fun _ => quiet_queryItem (e := (21, 22, 23)) (by decide) (by decide)) hs

/-- A path behind its first slash. -/
theorem quiet_path (hs : s ∈ Grammar.segmentNz uriRelaxed *
    (Grammar.word "/" * Grammar.segment uriRelaxed)∗ + (1 : Language UInt8)) :
    ∃ t, (t = 26 ∨ t = 33) ∧ quiet uriRelaxed s 33 = some t := by
  have he : (26, 27, 28) ∈ uriStates := by decide
  have hloop : ∀ s ∈ (Grammar.pchar uriRelaxed)∗, quiet uriRelaxed s 26 = some 26 := fun _ =>
    quiet_kstar fun _ => quiet_pchar_self he
  rcases hs with hsegments | hempty
  · refine ⟨26, .inl rfl, quiet_mul (t := 26) (fun s hs => ?_) (fun s hs => quiet_kstar (fun s hs => ?_) hs) hsegments⟩
    · refine quiet_mul (t := 26) (fun s hs => ?_) hloop hs
      exact quiet_pchar he (forall_byte (next_uri.2.1 uriRelaxed).2.2) (next_uri.2.1 uriRelaxed).2.1 hs
    · refine quiet_mul (t := 26) (fun s hs => ?_) hloop hs
      obtain rfl : s = [47] := hs
      exact quiet_cons (next_uri.1 _ he uriRelaxed).2.2.1
  · obtain rfl : s = [] := hempty
    exact ⟨33, .inr rfl, rfl⟩

/-- An absolute path. -/
theorem enters_path (hs : s ∈ Grammar.pathAbsolute uriRelaxed) :
    ∃ t, (t = 26 ∨ t = 33) ∧ enters uriRelaxed .mark s 3 = some t := by
  obtain ⟨a, ha, tail, htail, rfl⟩ := Language.mem_mul.mp hs
  obtain rfl : a = [47] := ha
  obtain ⟨t, ht, hq⟩ := quiet_path htail
  refine ⟨t, ht, ?_⟩
  rw [List.singleton_append, enters_cons (next_uri.2.1 uriRelaxed).1]
  exact hq

theorem enters_query (hs : s ∈ Grammar.query uriRelaxed) (hne : s ≠ []) :
    enters uriRelaxed .startQuery s 29 = some 30 :=
  enters_of_quiet (forall_byte (next_uri.2.2 (29, .startQuery, 30) (by decide) uriRelaxed)) hne (quiet_query hs)

theorem enters_fragment (hs : s ∈ Grammar.fragment uriRelaxed) (hne : s ≠ []) :
    enters uriRelaxed .mark s 20 = some 21 :=
  enters_of_quiet (forall_byte (next_uri.2.2 (20, .mark, 21) (by decide) uriRelaxed)) hne (quiet_fragment hs)

/-! ## Headers -/

theorem next_header : ∀ relaxed, ∀ n < 256,
    (Grammar.isToken (UInt8.ofNat n) = true → next relaxed 13 (UInt8.ofNat n) = some ⟨[.startField], 14⟩ ∧
      next relaxed 14 (UInt8.ofNat n) = some ⟨[], 14⟩) ∧
    (Grammar.isCtl (UInt8.ofNat n) = false → next relaxed 16 (UInt8.ofNat n) = some ⟨[], 16⟩ ∧
      (UInt8.ofNat n ≠ 32 → next relaxed 15 (UInt8.ofNat n) = some ⟨[.mark], 16⟩)) := by
  decide +kernel

theorem enters_name (hs : s ∈ Grammar.fieldName) : enters uriRelaxed .startField s 13 = some 14 := by
  have hnext : ∀ c, Grammar.isToken c = true →
      next uriRelaxed 13 c = some ⟨[.startField], 14⟩ ∧ next uriRelaxed 14 c = some ⟨[], 14⟩ :=
    forall_byte fun n hn => (next_header uriRelaxed n hn).1
  exact enters_chars (fun c hc => (hnext c hc).1) (fun _ => quiet_chars fun c hc => (hnext c hc).2) hs

/-- A value that is not empty. -/
theorem enters_value (hs : s ∈ Grammar.fieldValue) (hne : s ≠ []) : enters uriRelaxed .mark s 15 = some 16 := by
  have hnext : ∀ c, Grammar.isCtl c = false → next uriRelaxed 16 c = some ⟨[], 16⟩ ∧
      (c ≠ 32 → next uriRelaxed 15 c = some ⟨[.mark], 16⟩) :=
    forall_byte fun n hn => (next_header uriRelaxed n hn).2
  rcases hs with hs | hempty
  · refine enters_chars (fun c hc => ?_) (fun _ => quiet_chars fun c hc => ?_) hs
    · simp only [Bool.and_eq_true, Bool.not_eq_true', decide_eq_true_eq] at hc
      exact (hnext c hc.1).2 hc.2
    · exact (hnext c (Bool.not_eq_true' _ ▸ hc)).1
  · exact absurd hempty hne

end Machine

end Megalo
