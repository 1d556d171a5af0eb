import Megalo.Lib.Scan

/-!
# Scanners by a table of actions

In a state and on a symbol, a table gives actions and the state that follows, or nothing, and then the symbol is
rejected. An action works at a position of the text on what the scanner has stored, and may end the scan behind its
symbol.

- `scan_ends`: an invariant of the text ahead, the state, the position and what is stored holds where the scan ends,
  when every transition keeps it or fails in an expected way;
- `Reads` is a triple about one part of a text: from the place in front of the part, the scan comes to the place behind
  it; parts of a text compose (`Reads.append`), and a part is a character (`reads_char`) or a word with actions at its
  first character and behind it (`reads_word`);
- `Followed` is a trail of words that the states follow letter by letter, and one state for all other words: any word
  leads to its own state (`Followed.enters`).
-/

namespace ActionTable

open Scan

/-- Actions, and the state that follows. -/
structure Goto (α : Type*) where
  actions : List α
  target : Nat
  deriving DecidableEq

/-- The state, the position, and what is stored. -/
structure Cursor (σ : Type*) where
  cs : Nat
  p : Nat
  self : σ

/-- A table, what an action does at a position, and whether it ends the scan. State 0 is the error. -/
structure Machine (α β σ ε : Type*) where
  next : Nat → β → Option (Goto α)
  run : Nat → α → σ → Except ε σ
  ends : α → Bool

namespace Machine

variable {α β σ ε : Type*} (m : Machine α β σ ε)

/-- The actions of a transition, one after the other. -/
def runActions (p : Nat) : List α → σ → Except ε σ
  | [], s => .ok s
  | a :: actions, s => (m.run p a s).bind (runActions p actions)

/-- One symbol. -/
def step (c : Cursor σ) (b : β) : Verdict (Cursor σ) ε :=
  match m.next c.cs b with
  | none => .reject { c with cs := 0 }
  | some g =>
    match m.runActions c.p g.actions c.self with
    | .error e => .fault e
    | .ok s => if g.actions.any m.ends then .halt ⟨g.target, c.p + 1, s⟩ else .more ⟨g.target, c.p + 1, s⟩

variable {m} {bs word seg rest text : List β} {b : β} {cs t u p : Nat} {s s' : σ} {g : Goto α} {actions : List α}

theorem step_reject (h : m.next cs b = none) : m.step ⟨cs, p, s⟩ b = .reject ⟨0, p, s⟩ := by
  simp only [step, h]

theorem step_fault {e : ε} (h : m.next cs b = some g) (hr : m.runActions p g.actions s = .error e) :
    m.step ⟨cs, p, s⟩ b = .fault e := by
  simp only [step, h, hr]

theorem step_more (h : m.next cs b = some g) (hr : m.runActions p g.actions s = .ok s')
    (hd : g.actions.any m.ends = false) : m.step ⟨cs, p, s⟩ b = .more ⟨g.target, p + 1, s'⟩ := by
  simp [step, h, hr, hd]

theorem step_halt (h : m.next cs b = some g) (hr : m.runActions p g.actions s = .ok s')
    (hd : g.actions.any m.ends = true) : m.step ⟨cs, p, s⟩ b = .halt ⟨g.target, p + 1, s'⟩ := by
  simp [step, h, hr, hd]

/-! ## Invariants -/

/-- How a scan from position `p` of the symbols `bs` ends: in `I`, in front of a symbol that is rejected as well, or in
`J` behind the symbol that ends it. -/
inductive Ended (I J : List β → Nat → Nat → σ → Prop) (bs : List β) (p : Nat) : Scanned (Cursor σ) → Prop
  | more {cs : Nat} {s : σ} (h : I [] cs (p + bs.length) s) :
    Ended I J bs p ⟨⟨cs, p + bs.length, s⟩, bs.length, .more⟩
  | halt {front rest : List β} {cs : Nat} {s : σ} (hbs : bs = front ++ rest) (h : J rest cs (p + front.length) s) :
    Ended I J bs p ⟨⟨cs, p + front.length, s⟩, front.length, .halt⟩
  | reject {front rest : List β} {b : β} {cs : Nat} {s : σ} (hbs : bs = front ++ b :: rest)
    (h : I (b :: rest) cs (p + front.length) s) :
    Ended I J bs p ⟨⟨0, p + front.length, s⟩, front.length, .reject⟩

variable {I J : List β → Nat → Nat → σ → Prop}

theorem Ended.cons {r : Scanned (Cursor σ)} (h : Ended I J bs (p + 1) r) : Ended I J (b :: bs) p (r.later 1) := by
  have hplace : ∀ l : List β, p + 1 + l.length = p + (b :: l).length := fun l => by
    rw [List.length_cons]
    omega
  cases h with
  | more h =>
    rw [hplace] at h ⊢
    exact .more h
  | halt hbs h =>
    rw [hplace] at h ⊢
    exact .halt (by rw [hbs, List.cons_append]) h
  | reject hbs h =>
    rw [hplace] at h ⊢
    exact .reject (by rw [hbs, List.cons_append]) h

/-- The result is in `Q`, or the failure is in `F`. -/
def Yields {γ : Type*} (F : ε → Prop) (Q : γ → Prop) : Except ε γ → Prop
  | .ok v => Q v
  | .error e => F e

theorem Yields.bind {γ δ : Type*} {F : ε → Prop} {Q : γ → Prop} {R : δ → Prop} {x : Except ε γ} {f : γ → Except ε δ}
    (h : Yields F Q x) (hf : ∀ v, Q v → Yields F R (f v)) : Yields F R (x.bind f) := by
  cases x with
  | ok v => exact hf v h
  | error e => exact h

theorem Yields.mono {γ : Type*} {F : ε → Prop} {Q R : γ → Prop} {x : Except ε γ} (h : Yields F Q x)
    (hQR : ∀ v, Q v → R v) : Yields F R x := by
  cases x with
  | ok v => exact hQR v h
  | error e => exact h

/-- **Invariants.** When every transition from the invariant that goes on keeps it, every one that ends the scan leads
to `J`, and none fails but as `F` says, then so does a scan. -/
theorem scan_ends {F : ε → Prop}
    (hmore : ∀ b bs cs p s g, I (b :: bs) cs p s → m.next cs b = some g → g.actions.any m.ends = false →
      Yields F (I bs g.target (p + 1)) (m.runActions p g.actions s))
    (hhalt : ∀ b bs cs p s g, I (b :: bs) cs p s → m.next cs b = some g → g.actions.any m.ends = true →
      Yields F (J bs g.target (p + 1)) (m.runActions p g.actions s))
    (hI : I bs cs p s) : Yields F (Ended I J bs p) (scan m.step bs ⟨cs, p, s⟩) := by
  induction bs generalizing cs p s with
  | nil => exact .more hI
  | cons b bs ih =>
    cases hb : m.next cs b with
    | none =>
      rw [scan, step_reject hb]
      exact .reject (List.nil_append _).symm hI
    | some g =>
      cases hd : g.actions.any m.ends with
      | true =>
        have hrun := hhalt b bs cs p s g hI hb hd
        cases hs : m.runActions p g.actions s with
        | error e =>
          rw [hs] at hrun
          rw [scan_cons_fault (step_fault hb hs)]
          exact hrun
        | ok s' =>
          rw [hs] at hrun
          rw [scan_cons_halt (step_halt hb hs hd)]
          exact .halt List.singleton_append.symm hrun
      | false =>
        have hrun := hmore b bs cs p s g hI hb hd
        cases hs : m.runActions p g.actions s with
        | error e =>
          rw [hs] at hrun
          rw [scan_cons_fault (step_fault hb hs)]
          exact hrun
        | ok s' =>
          rw [hs] at hrun
          rw [scan_cons_more (step_more hb hs hd)]
          exact (ih hrun).bind fun r hr => hr.cons

/-! ## Parts of a text -/

/-- The scanner is in front of `rest`. -/
structure Stands (text rest : List β) (cs : Nat) (P : Nat → σ → Prop) (c : Cursor σ) : Prop where
  ahead : text.drop c.p = rest
  cs : c.cs = cs
  held : P c.p c.self

variable (m) in
/-- From the place in front of `seg`, the scan comes to the place behind it. -/
def Reads (text seg : List β) (cs : Nat) (P : Nat → σ → Prop) (t : Nat) (Q : Nat → σ → Prop) : Prop :=
  ∀ rest, Leads m.step (Stands text (seg ++ rest) cs P) seg (Stands text rest t Q)

variable {P Q R : Nat → σ → Prop}

theorem Reads.nil : m.Reads text [] cs P cs P := fun _ => .nil

theorem Reads.append {seg' : List β} (h : m.Reads text seg cs P t Q) (h' : m.Reads text seg' t Q u R) :
    m.Reads text (seg ++ seg') cs P u R := by
  intro rest
  rw [List.append_assoc]
  exact (h _).append (h' rest)

/-- What is behind a part of the text. -/
theorem drop_ahead (seg : List β) (h : text.drop p = seg ++ rest) : text.drop (p + seg.length) = rest := by
  rw [← List.drop_drop, h, List.drop_left]

theorem passes_char (hb : m.next cs b = some ⟨actions, t⟩) (hd : actions.any m.ends = false)
    (hr : m.runActions p actions s = .ok s') : Passes m.step [b] ⟨cs, p, s⟩ ⟨t, p + 1, s'⟩ :=
  .cons (step_more hb hr hd) rfl

/-- One character. -/
theorem reads_char (hb : m.next cs b = some ⟨actions, t⟩) (hd : actions.any m.ends = false)
    (hrun : ∀ p s rest, P p s → text.drop p = b :: rest → ∃ s', m.runActions p actions s = .ok s' ∧ Q (p + 1) s') :
    m.Reads text [b] cs P t Q := by
  rintro rest ⟨_, p, s⟩ ⟨hahead, rfl, hheld⟩
  obtain ⟨s', hs', hQ⟩ := hrun p s rest hheld hahead
  exact ⟨_, passes_char hb hd hs', drop_ahead [b] hahead, rfl, hQ⟩

/-- Where characters lead by transitions without actions. -/
def quiet (next : Nat → β → Option (Goto α)) : List β → Nat → Option Nat
  | [], cs => some cs
  | b :: bs, cs =>
    match next cs b with
    | some ⟨[], t⟩ => quiet next bs t
    | _ => none

theorem quiet_cons (h : m.next cs b = some ⟨[], t⟩) : quiet m.next (b :: bs) cs = quiet m.next bs t := by
  rw [quiet, h]

/-- Characters that a state stays in. -/
theorem quiet_stays (h : ∀ b ∈ bs, m.next cs b = some ⟨[], cs⟩) : quiet m.next bs cs = some cs := by
  induction bs with
  | nil => rfl
  | cons b bs ih =>
    rw [quiet_cons (h b List.mem_cons_self)]
    exact ih fun b' hb' => h b' (List.mem_cons_of_mem _ hb')

theorem passes_quiet (h : quiet m.next bs cs = some t) : Passes m.step bs ⟨cs, p, s⟩ ⟨t, p + bs.length, s⟩ := by
  induction bs generalizing cs p with
  | nil =>
    cases h
    rfl
  | cons b bs ih =>
    rw [quiet] at h
    split at h
    · rename_i t' hb
      have htail : Passes m.step bs ⟨t', p + 1, s⟩ ⟨t, p + 1 + bs.length, s⟩ := ih h
      rw [List.length_cons, Nat.add_comm bs.length 1, ← Nat.add_assoc]
      exact .cons (step_more hb rfl rfl) htail
    · cases h

/-- Where a word leads whose first character has the actions `first`, and the others none. -/
def enters [DecidableEq α] (next : Nat → β → Option (Goto α)) (first : List α) : List β → Nat → Option Nat
  | [], _ => none
  | b :: bs, cs =>
    match next cs b with
    | some g => if g.actions = first then quiet next bs g.target else none
    | none => none

theorem enters_cons [DecidableEq α] {first : List α} (h : m.next cs b = some ⟨first, t⟩) :
    enters m.next first (b :: bs) cs = quiet m.next bs t := by
  simp only [enters, h, if_true]

/-- A word, with what is done at its first character. -/
theorem passes_word [DecidableEq α] {first : List α} (hw : enters m.next first word cs = some u)
    (hfirst : first.any m.ends = false) (hr : m.runActions p first s = .ok s') :
    Passes m.step word ⟨cs, p, s⟩ ⟨u, p + word.length, s'⟩ := by
  cases word with
  | nil => cases hw
  | cons b word =>
    rw [enters] at hw
    split at hw
    · rename_i g hb
      split at hw
      · rename_i hg
        have htail : Passes m.step word ⟨g.target, p + 1, s'⟩ ⟨u, p + 1 + word.length, s'⟩ := passes_quiet hw
        rw [List.length_cons, Nat.add_comm word.length 1, ← Nat.add_assoc]
        exact .cons (step_more hb (by rw [hg]; exact hr) (by rw [hg]; exact hfirst)) htail
      · cases hw
    · cases hw

/-- A word and the character behind it, with what is done at its first character and at that one. -/
theorem reads_word [DecidableEq α] {first : List α} (hw : enters m.next first word cs = some u)
    (hb : m.next u b = some ⟨actions, t⟩) (hfirst : first.any m.ends = false) (hd : actions.any m.ends = false)
    (hrun : ∀ p s rest, P p s → text.drop p = word ++ b :: rest → ∃ s' s'', m.runActions p first s = .ok s' ∧
      m.runActions (p + word.length) actions s' = .ok s'' ∧ Q (p + word.length + 1) s'') :
    m.Reads text (word ++ [b]) cs P t Q := by
  rintro rest ⟨_, p, s⟩ ⟨hahead, rfl, hheld⟩
  rw [List.append_assoc] at hahead
  obtain ⟨s', s'', hs', hs'', hQ⟩ := hrun p s rest hheld hahead
  exact ⟨_, (passes_word hw hfirst hs').append (passes_char hb hd hs''),
    drop_ahead [b] (drop_ahead word hahead), rfl, hQ⟩

/-! ## Words that are followed letter by letter -/

section Follow

variable {γ : Type*} [DecidableEq γ] {fold : β → γ} {trail : List (Nat × List γ)} {other : Nat} {ok : β → Prop}

/-- The state for a word: that of the entry which is the word, or the one for all others. -/
def follow (trail : List (Nat × List γ)) (other : Nat) (word : List γ) : Nat :=
  ((trail.find? fun e => e.2 = word).map Prod.fst).getD other

theorem follow_cases (trail : List (Nat × List γ)) (other : Nat) (word : List γ) :
    (follow trail other word, word) ∈ trail ∨ follow trail other word = other ∧ ∀ e ∈ trail, e.2 ≠ word := by
  rw [follow]
  cases hfind : trail.find? fun e => e.2 = word with
  | some e =>
    obtain rfl : e.2 = word := by simpa using List.find?_some hfind
    exact .inl (List.mem_of_find?_eq_some hfind)
  | none =>
    refine .inr ⟨rfl, fun e he heq => ?_⟩
    have hnot := List.find?_eq_none.mp hfind e he
    simp only [heq, decide_true, not_true_eq_false] at hnot

/-- A word without an entry. -/
theorem follow_other {word : List γ} (h : ∀ e ∈ trail, e.2 ≠ word) : follow trail other word = other := by
  rcases follow_cases trail other word with hmem | hother
  · exact absurd rfl (h _ hmem)
  · exact hother.1

/-- The word of a state that has one entry. -/
theorem follow_eq_iff {n : Nat} {w w' : List γ} (hn : n ≠ other) (hw : follow trail other w = n)
    (hentry : ∀ e ∈ trail, e.1 = n → e.2 = w) : follow trail other w' = n ↔ w' = w := by
  constructor
  · intro h
    rcases follow_cases trail other w' with hmem | hother
    · exact hentry _ hmem h
    · exact absurd (h.symm.trans hother.1) hn
  · rintro rfl
    exact hw

variable (m) in
/-- The states of the trail are reached by their words, without actions, and one more by all words that have no
entry. -/
structure Followed (fold : β → γ) (trail : List (Nat × List γ)) (other : Nat) (ok : β → Prop) : Prop where
  closed : ∀ e ∈ trail, e.2.dropLast = [] ∨ ∃ e' ∈ trail, e'.2 = e.2.dropLast
  inside : ∀ e ∈ trail, ∀ b, ok b → m.next e.1 b = some ⟨[], follow trail other (e.2 ++ [fold b])⟩
  other : ∀ b, ok b → m.next other b = some ⟨[], other⟩

/-- The letters that may follow a word. -/
def letters (trail : List (Nat × List γ)) (word : List γ) : List γ :=
  (trail.filter fun e => e.2.dropLast = word).filterMap fun e => e.2.getLast?

/-- With other letters, no entry is longer. -/
theorem follow_letters {c : γ} {w : List γ} :
    follow trail other (w ++ [c]) = if c ∈ letters trail w then follow trail other (w ++ [c]) else other := by
  split
  · rfl
  · rename_i hletter
    refine follow_other fun e he heq => hletter ?_
    refine List.mem_filterMap.mpr ⟨e, List.mem_filter.mpr ⟨he, ?_⟩, ?_⟩
    · rw [heq, List.dropLast_concat, decide_eq_true rfl]
    · rw [heq, List.getLast?_concat]

/-- One more letter. -/
theorem Followed.step (h : m.Followed fold trail other ok) (hword : word ≠ []) (hb : ok b) :
    m.next (follow trail other (word.map fold)) b = some ⟨[], follow trail other ((word ++ [b]).map fold)⟩ := by
  rw [List.map_append, List.map_singleton]
  rcases follow_cases trail other (word.map fold) with hmem | ⟨hother, hnone⟩
  · exact h.inside _ hmem b hb
  · -- no entry is longer than a word that has none
    have hnone' : ∀ e ∈ trail, e.2 ≠ word.map fold ++ [fold b] := by
      intro e he heq
      have hdrop : e.2.dropLast = word.map fold := by rw [heq, List.dropLast_concat]
      rcases h.closed e he with hnil | ⟨e', he', hshorter⟩
      · rw [hdrop] at hnil
        exact hword (List.map_eq_nil_iff.mp hnil)
      · exact hnone e' he' (hshorter.trans hdrop)
    rw [hother, follow_other hnone']
    exact h.other b hb

theorem Followed.quiet (front : List β) (h : m.Followed fold trail other ok) (hfront : front ≠ [])
    (hword : ∀ b ∈ word, ok b) :
    quiet m.next word (follow trail other (front.map fold)) = some (follow trail other ((front ++ word).map fold)) := by
  induction word generalizing front with
  | nil => rw [List.append_nil, Machine.quiet]
  | cons b word ih =>
    rw [quiet_cons (h.step hfront (hword b List.mem_cons_self)),
      ih _ (by simp) fun b' hb' => hword b' (List.mem_cons_of_mem _ hb'), List.append_assoc, List.singleton_append]

/-- **Following a word.** A word leads to its own state, from where its first letter does. -/
theorem Followed.enters [DecidableEq α] {first : List α} (h : m.Followed fold trail other ok)
    (hb : m.next cs b = some ⟨first, follow trail other [fold b]⟩) (hword : ∀ b ∈ word, ok b) :
    enters m.next first (b :: word) cs = some (follow trail other ((b :: word).map fold)) := by
  rw [enters_cons hb]
  exact h.quiet [b] (List.cons_ne_nil b []) hword

end Follow

end Machine

end ActionTable
