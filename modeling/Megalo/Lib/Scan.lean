import Mathlib.Data.List.Basic

/-!
# Scanners

A scanner reads one symbol after the other from a state, until a symbol halts it (and is the last one read), is rejected
(and not read), or the input ends, so that it waits for more.

- `scan step bs s`: the last state, how many symbols were read, and how it ended; a step may also fail;
- input cut in two is scanned part by part (`scan_append_more`, `scan_append_stop`), and a scanner that halts at the end
  of its input waits after every proper initial part of it (`scan_init`);
- what every step keeps holds at the end (`scan_invariant`), and a failure that no step has is none of a scan
  (`scan_no_fault`);
- two scanners are compared by one relation of their states (`scan_projects`, `scan_simulates`), which `Alike` also
  relates their failures by (`scan_alike`);
- a triple `Leads step P bs Q` is about one part of the input, and triples of parts compose.
-/

namespace Scan

/-- What one symbol does to a scanner. -/
inductive Verdict (σ ε : Type*)
  | more (s : σ)
  | halt (s : σ)
  | reject (s : σ)
  | fault (e : ε)

/-- How a scan ended. -/
inductive Ending
  | more
  | halt
  | reject
  deriving DecidableEq

/-- The last state, the number of symbols read, and the ending. -/
structure Scanned (σ : Type*) where
  state : σ
  count : Nat
  ending : Ending

variable {σ τ β ε δ : Type*}

/-- After `n` more symbols. -/
def Scanned.later (r : Scanned σ) (n : Nat) : Scanned σ := { r with count := r.count + n }

/-- Read symbols one after the other. -/
def scan (step : σ → β → Verdict σ ε) : List β → σ → Except ε (Scanned σ)
  | [], s => .ok ⟨s, 0, .more⟩
  | b :: bs, s =>
    match step s b with
    | .more s' => (scan step bs s').map (·.later 1)
    | .halt s' => .ok ⟨s', 1, .halt⟩
    | .reject s' => .ok ⟨s', 0, .reject⟩
    | .fault e => .error e

variable {step : σ → β → Verdict σ ε} {step' : τ → β → Verdict τ δ} {bs c d : List β} {b : β} {s s' : σ} {n : Nat}

theorem scan_cons_more (h : step s b = .more s') : scan step (b :: bs) s = (scan step bs s').map (·.later 1) := by
  rw [scan, h]

theorem scan_cons_halt (h : step s b = .halt s') : scan step (b :: bs) s = .ok ⟨s', 1, .halt⟩ := by
  rw [scan, h]

theorem scan_cons_fault {e : ε} (h : step s b = .fault e) : scan step (b :: bs) s = .error e := by
  rw [scan, h]

/-- A first symbol of a scan that did not fail. -/
theorem scan_cons_ok {r : Scanned σ} (h : scan step (b :: bs) s = .ok r) :
    (∃ s' r', step s b = .more s' ∧ scan step bs s' = .ok r' ∧ r = r'.later 1) ∨
    (∃ s', step s b = .halt s' ∧ r = ⟨s', 1, .halt⟩) ∨
    ∃ s', step s b = .reject s' ∧ r = ⟨s', 0, .reject⟩ := by
  rw [scan] at h
  cases hb : step s b with
  | more s' =>
    rw [hb] at h
    dsimp only at h
    cases hr : scan step bs s' with
    | error e => rw [hr] at h; cases h
    | ok r' =>
      rw [hr] at h
      cases h
      exact .inl ⟨s', r', rfl, hr, rfl⟩
  | halt s' =>
    rw [hb] at h
    cases h
    exact .inr (.inl ⟨s', rfl, rfl⟩)
  | reject s' =>
    rw [hb] at h
    cases h
    exact .inr (.inr ⟨s', rfl, rfl⟩)
  | fault e =>
    rw [hb] at h
    cases h

/-- No more symbols are read than there are. -/
theorem count_le {r : Scanned σ} (h : scan step bs s = .ok r) : r.count ≤ bs.length := by
  induction bs generalizing s r with
  | nil =>
    cases h
    exact Nat.le_refl _
  | cons b bs ih =>
    rcases scan_cons_ok h with ⟨s', r', _, hr, rfl⟩ | ⟨s', _, rfl⟩ | ⟨s', _, rfl⟩
    · exact Nat.succ_le_succ (ih hr)
    · exact Nat.succ_le_succ (Nat.zero_le _)
    · exact Nat.zero_le _

/-- A scanner that waits for more has read everything. -/
theorem count_of_more {r : Scanned σ} (h : scan step bs s = .ok r) (he : r.ending = .more) :
    r.count = bs.length := by
  induction bs generalizing s r with
  | nil =>
    cases h
    rfl
  | cons b bs ih =>
    rcases scan_cons_ok h with ⟨s', r', _, hr, rfl⟩ | ⟨s', _, rfl⟩ | ⟨s', _, rfl⟩
    · exact congrArg (· + 1) (ih hr he)
    · cases he
    · cases he

/-- A scanner that waits after `c` goes on with `d`. -/
theorem scan_append_more (h : scan step c s = .ok ⟨s', c.length, .more⟩) :
    scan step (c ++ d) s = (scan step d s').map (·.later c.length) := by
  induction c generalizing s with
  | nil =>
    cases h
    rw [List.nil_append]
    cases scan step d s' <;> rfl
  | cons b c ih =>
    rcases scan_cons_ok h with ⟨t, r, hb, hr, he⟩ | ⟨t, _, he⟩ | ⟨t, _, he⟩
    · have hrt : r = ⟨s', c.length, .more⟩ := by
        cases r
        simp only [Scanned.later, Scanned.mk.injEq, List.length_cons, Nat.add_right_cancel_iff] at he ⊢
        exact ⟨he.1.symm, he.2.1.symm, he.2.2.symm⟩
      rw [hrt] at hr
      rw [List.cons_append, scan_cons_more hb, ih hr]
      cases scan step d s' with
      | error e => rfl
      | ok r => simp [Except.map, Scanned.later, Nat.add_assoc]
    · exact nomatch congrArg Scanned.ending he
    · exact nomatch congrArg Scanned.ending he

/-- A scanner that has ended in `c` reads nothing of `d`. -/
theorem scan_append_stop {r : Scanned σ} (h : scan step c s = .ok r) (he : r.ending ≠ .more) :
    scan step (c ++ d) s = .ok r := by
  induction c generalizing s r with
  | nil =>
    cases h
    exact absurd rfl he
  | cons b c ih =>
    rcases scan_cons_ok h with ⟨t, r', hb, hr, rfl⟩ | ⟨t, hb, rfl⟩ | ⟨t, hb, rfl⟩
    · rw [List.cons_append, scan_cons_more hb, ih hr he]
      rfl
    · rw [List.cons_append, scan_cons_halt hb]
    · rw [List.cons_append, scan, hb]

/-- A failure in `c` is one in every extension. -/
theorem scan_append_error {e : ε} (h : scan step c s = .error e) : scan step (c ++ d) s = .error e := by
  induction c generalizing s with
  | nil => cases h
  | cons b c ih =>
    rw [scan] at h
    rw [List.cons_append, scan]
    cases hb : step s b with
    | more s' =>
      rw [hb] at h
      dsimp only at h
      cases hr : scan step c s' with
      | ok r => rw [hr] at h; cases h
      | error e' =>
        rw [hr] at h
        cases h
        simp only [ih hr]
        rfl
    | halt s' => rw [hb] at h; cases h
    | reject s' => rw [hb] at h; cases h
    | fault e' => rw [hb] at h; exact h

/-- A scanner that halts at the end of its input waits after every proper initial part. -/
theorem scan_init (h : scan step (c ++ d) s = .ok ⟨s', (c ++ d).length, .halt⟩) (hd : d ≠ []) :
    ∃ t, scan step c s = .ok ⟨t, c.length, .more⟩ ∧ scan step d t = .ok ⟨s', d.length, .halt⟩ := by
  have hlen : 0 < d.length := List.length_pos_iff.mpr hd
  cases hc : scan step c s with
  | error e =>
    rw [scan_append_error hc] at h
    cases h
  | ok r =>
    by_cases he : r.ending = .more
    · have hr : scan step c s = .ok ⟨r.state, c.length, .more⟩ := by
        rw [hc, ← count_of_more hc he, ← he]
      rw [scan_append_more hr] at h
      refine ⟨r.state, by rw [← hc, hr], ?_⟩
      cases hdr : scan step d r.state with
      | error e => rw [hdr] at h; cases h
      | ok r' =>
        rw [hdr] at h
        cases r' with
        | mk t m e =>
          simp only [Except.map, Scanned.later, List.length_append, Except.ok.injEq, Scanned.mk.injEq] at h
          obtain ⟨rfl, hm, rfl⟩ := h
          rw [show m = d.length by omega]
    · rw [scan_append_stop hc he] at h
      cases h
      have := count_le hc
      simp only [List.length_append] at this
      omega

/-- What every symbol that is read or rejected keeps holds of the last state. -/
theorem scan_invariant {I : σ → Prop}
    (hmore : ∀ s b s', I s → step s b = .more s' → I s') (hhalt : ∀ s b s', I s → step s b = .halt s' → I s')
    (hreject : ∀ s b s', I s → step s b = .reject s' → I s') {r : Scanned σ} (hI : I s)
    (h : scan step bs s = .ok r) : I r.state := by
  induction bs generalizing s r with
  | nil =>
    cases h
    exact hI
  | cons b bs ih =>
    rcases scan_cons_ok h with ⟨s', r', hb, hr, rfl⟩ | ⟨s', hb, rfl⟩ | ⟨s', hb, rfl⟩
    · exact ih (r := r') (hmore _ _ _ hI hb) hr
    · exact hhalt _ _ _ hI hb
    · exact hreject _ _ _ hI hb

/-- The verdicts on one symbol agree, unless the first is a failure. -/
def Matches (R : σ → τ → Prop) : Verdict σ ε → Verdict τ δ → Prop
  | .more s, .more t | .halt s, .halt t | .reject s, .reject t => R s t
  | .fault _, _ => True
  | _, _ => False

/-- **Projection.** When the second scanner agrees with every step of the first that does not fail, it agrees with every
scan that does not fail. -/
theorem scan_projects {R : σ → τ → Prop} (hstep : ∀ s t b, R s t → Matches R (step s b) (step' t b)) {t : τ}
    {r : Scanned σ} (hR : R s t) (h : scan step bs s = .ok r) :
    ∃ t', scan step' bs t = .ok ⟨t', r.count, r.ending⟩ ∧ R r.state t' := by
  induction bs generalizing s t r with
  | nil =>
    cases h
    exact ⟨t, rfl, hR⟩
  | cons b bs ih =>
    have hm := hstep s t b hR
    rcases scan_cons_ok h with ⟨s', r', hb, hr, rfl⟩ | ⟨s', hb, rfl⟩ | ⟨s', hb, rfl⟩
    · rw [hb] at hm
      cases hb' : step' t b with
      | more t' =>
        rw [hb'] at hm
        obtain ⟨t'', ht, hR'⟩ := ih (t := t') hm hr
        refine ⟨t'', ?_, hR'⟩
        rw [scan_cons_more hb', ht]
        rfl
      | halt t' | reject t' | fault e => rw [hb'] at hm; exact hm.elim
    · rw [hb] at hm
      cases hb' : step' t b with
      | halt t' =>
        rw [hb'] at hm
        exact ⟨t', scan_cons_halt hb', hm⟩
      | more t' | reject t' | fault e => rw [hb'] at hm; exact hm.elim
    · rw [hb] at hm
      cases hb' : step' t b with
      | reject t' =>
        rw [hb'] at hm
        exact ⟨t', by rw [scan, hb'], hm⟩
      | more t' | halt t' | fault e => rw [hb'] at hm; exact hm.elim

/-- **Simulation.** A relation of the two states and the input left, which every step of the first scanner that goes on
keeps, relates the ends of every scan that waits for more. -/
theorem scan_simulates {R : List β → σ → τ → Prop}
    (hstep : ∀ bs s t b s', R (b :: bs) s t → step s b = .more s' → ∃ t', step' t b = .more t' ∧ R bs s' t')
    {t : τ} (hR : R bs s t) (h : scan step bs s = .ok ⟨s', n, .more⟩) :
    ∃ t', scan step' bs t = .ok ⟨t', n, .more⟩ ∧ R [] s' t' := by
  induction bs generalizing s t n with
  | nil =>
    cases h
    exact ⟨t, rfl, hR⟩
  | cons b bs ih =>
    rcases scan_cons_ok h with ⟨u, r, hb, hr, he⟩ | ⟨u, _, he⟩ | ⟨u, _, he⟩
    · cases r with
      | mk u' m e =>
        simp only [Scanned.later, Scanned.mk.injEq] at he
        obtain ⟨rfl, rfl, rfl⟩ := he
        obtain ⟨t', ht', hR'⟩ := hstep bs s t b u hR hb
        obtain ⟨t'', hs, hR''⟩ := ih hR' hr
        refine ⟨t'', ?_, hR''⟩
        rw [scan_cons_more ht', hs]
        rfl
    · cases he
    · cases he

/-- Where no step from a state of the invariant fails with `e`, no scan does. -/
theorem scan_no_fault {I : σ → Prop} {e : ε} (hmore : ∀ s b s', I s → step s b = .more s' → I s')
    (hfault : ∀ s b, I s → step s b ≠ .fault e) (hI : I s) : scan step bs s ≠ .error e := by
  induction bs generalizing s with
  | nil => exact nofun
  | cons b bs ih =>
    rw [scan]
    cases hb : step s b with
    | more s' =>
      intro h
      dsimp only at h
      cases hr : scan step bs s' with
      | ok r => rw [hr] at h; cases h
      | error e' =>
        rw [hr] at h
        cases h
        exact ih (hmore s b s' hI hb) hr
    | halt s' => exact nofun
    | reject s' => exact nofun
    | fault e' =>
      intro h
      cases h
      exact hfault s b hI hb

/-- Related results, or the same failure. -/
inductive Alike (R : σ → τ → Prop) : Except ε σ → Except ε τ → Prop
  | ok {s : σ} {t : τ} (h : R s t) : Alike R (.ok s) (.ok t)
  | error (e : ε) : Alike R (.error e) (.error e)

theorem Alike.bind {α γ : Type*} {R : σ → τ → Prop} {Q : α → γ → Prop} {x : Except ε σ} {y : Except ε τ}
    {f : σ → Except ε α} {g : τ → Except ε γ} (h : Alike R x y) (hf : ∀ s t, R s t → Alike Q (f s) (g t)) :
    Alike Q (x.bind f) (y.bind g) := by
  cases h with
  | ok h => exact hf _ _ h
  | error e => exact .error e

theorem Alike.map {α γ : Type*} {R : σ → τ → Prop} {Q : α → γ → Prop} {x : Except ε σ} {y : Except ε τ}
    {f : σ → α} {g : τ → γ} (h : Alike R x y) (hf : ∀ s t, R s t → Q (f s) (g t)) : Alike Q (x.map f) (y.map g) := by
  cases h with
  | ok h => exact .ok (hf _ _ h)
  | error e => exact .error e

theorem Alike.of_ok {R : σ → τ → Prop} {y : Except ε τ} (h : Alike R (.ok s) y) : ∃ t, y = .ok t ∧ R s t := by
  cases h with
  | ok h => exact ⟨_, rfl, h⟩

theorem Alike.of_error {R : σ → τ → Prop} {e : ε} {y : Except ε τ} (h : Alike R (.error e) y) : y = .error e := by
  cases h with
  | error _ => rfl

/-- Verdicts of one kind on related states, or the same failure. -/
inductive VerdictAlike (R : σ → τ → Prop) : Verdict σ ε → Verdict τ ε → Prop
  | more {s : σ} {t : τ} (h : R s t) : VerdictAlike R (.more s) (.more t)
  | halt {s : σ} {t : τ} (h : R s t) : VerdictAlike R (.halt s) (.halt t)
  | reject {s : σ} {t : τ} (h : R s t) : VerdictAlike R (.reject s) (.reject t)
  | fault (e : ε) : VerdictAlike R (.fault e) (.fault e)

/-- The ends of two scans: related states, and the same count and ending. -/
def ScannedAlike (R : σ → τ → Prop) (r : Scanned σ) (r' : Scanned τ) : Prop :=
  R r.state r'.state ∧ r'.count = r.count ∧ r'.ending = r.ending

/-- **Two scanners in step.** When every step of the two is alike, so is every scan. -/
theorem scan_alike {R : σ → τ → Prop} {step' : τ → β → Verdict τ ε}
    (hstep : ∀ s t b, R s t → VerdictAlike R (step s b) (step' t b)) {t : τ} (hR : R s t) :
    Alike (ScannedAlike R) (scan step bs s) (scan step' bs t) := by
  induction bs generalizing s t with
  | nil => exact .ok ⟨hR, rfl, rfl⟩
  | cons b bs ih =>
    have hb := hstep s t b hR
    rw [scan, scan]
    generalize step s b = v at hb ⊢
    generalize step' t b = w at hb ⊢
    cases hb with
    | more hR' =>
      refine (ih hR').bind fun r r' hr => .ok ⟨hr.1, ?_, hr.2.2⟩
      exact congrArg (· + 1) hr.2.1
    | halt hR' => exact .ok ⟨hR', rfl, rfl⟩
    | reject hR' => exact .ok ⟨hR', rfl, rfl⟩
    | fault e => exact .error e

/-! ## Triples -/

/-- The scanner reads all of `bs` and waits for more. -/
def Passes (step : σ → β → Verdict σ ε) (bs : List β) (s s' : σ) : Prop :=
  scan step bs s = .ok ⟨s', bs.length, .more⟩

theorem Passes.cons {s'' : σ} (h : step s b = .more s') (h' : Passes step bs s' s'') : Passes step (b :: bs) s s'' := by
  rw [Passes, scan_cons_more h, h']
  rfl

theorem Passes.append {s'' : σ} (h : Passes step c s s') (h' : Passes step d s' s'') :
    Passes step (c ++ d) s s'' := by
  rw [Passes, scan_append_more h, h', List.length_append]
  simp [Except.map, Scanned.later, Nat.add_comm]

/-- **Triples.** From every state of `P`, the scanner passes `bs` and comes to a state of `Q`. -/
def Leads (step : σ → β → Verdict σ ε) (P : σ → Prop) (bs : List β) (Q : σ → Prop) : Prop :=
  ∀ s, P s → ∃ s', Passes step bs s s' ∧ Q s'

theorem Leads.nil {P : σ → Prop} : Leads step P [] P := fun s hs => ⟨s, rfl, hs⟩

theorem Leads.append {P Q R : σ → Prop} (h : Leads step P c Q) (h' : Leads step Q d R) :
    Leads step P (c ++ d) R := by
  intro s hs
  obtain ⟨t, ht, hQ⟩ := h s hs
  obtain ⟨u, hu, hR⟩ := h' t hQ
  exact ⟨u, ht.append hu, hR⟩

end Scan
