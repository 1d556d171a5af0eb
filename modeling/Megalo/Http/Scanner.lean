import Megalo.Http.Basic
import Mathlib.Data.List.Find

/-!
# Scanning a head

- the actions leave the state, `nread`, `uri_relaxed` and `header_done` as they are (`run_frame`), so a scan that does
  not fail goes through the states of the bare machine (`scan_machine`), and `nread` stays until it has ended;
- `Agree`: two parsers that differ in what the memory held and no longer (or never) matters. Actions on a buffer and on
  an extension of it keep it (`run_agree`), and so does a scan that has not come to its end (`scan_agree`).
-/

namespace Megalo

open MachineInt Overwrite

variable {buffer ext : List UInt8} {p start length : Nat} {s s' t : HttpRequestParser} {a : Action} {v : List UInt8}

/-! ## The fields that actions leave alone -/

theorem text_append (h : text buffer start length = .ok v) : text (buffer ++ ext) start length = .ok v := by
  unfold text at h ⊢
  split at h
  · rename_i hle
    rw [if_pos (by simp only [List.length_append]; omega), slice_append_left hle]
    exact h
  · split at h <;> cases h

/-- A callback that does not fail leaves the scanner's own fields alone. -/
theorem onText_keeps (set : List UInt8 → HttpRequest → HttpRequest)
    (h : onText set buffer start length s = .ok t) : t.parser = s.parser := by
  unfold onText at h
  cases hv : text buffer start length with
  | error e => rw [hv] at h; cases h
  | ok v => rw [hv] at h; cases h; rfl

theorem onRequestMethod_keeps (h : onRequestMethod buffer start length s = .ok t) : t.parser = s.parser := by
  unfold onRequestMethod at h
  split at h
  · cases hv : text buffer start length with
    | error e => rw [hv] at h; cases h
    | ok v => rw [hv] at h; cases h; rfl
  · cases h
    rfl

theorem onHttpVersion_keeps (h : onHttpVersion buffer start length s = .ok t) : t.parser = s.parser := by
  unfold onHttpVersion at h
  split at h
  · cases h
    rfl
  · split at h
    · cases h
      rfl
    · cases hv : text buffer start length with
      | error e => rw [hv] at h; cases h
      | ok v => rw [hv] at h; cases h; rfl

theorem onHttpField_keeps {field flen : Nat} (h : onHttpField buffer field flen start length s = .ok t) :
    t.parser = s.parser := by
  unfold onHttpField at h
  split at h
  · cases h
    rfl
  · cases hk : text buffer field flen with
    | error e => rw [hk] at h; cases h
    | ok k =>
      cases hv : text buffer start length with
      | error e => rw [hk, hv] at h; cases h
      | ok v => rw [hk, hv] at h; cases h; rfl

/-- The fields of the scanner that no action writes. -/
structure Frame (s t : HttpRequestParser) : Prop where
  cs : t.parser.cs = s.parser.cs
  nread : t.parser.nread = s.parser.nread
  uriRelaxed : t.parser.uriRelaxed = s.parser.uriRelaxed
  headerDone : t.parser.headerDone = s.parser.headerDone

theorem Frame.of_eq (h : t.parser = s.parser) : Frame s t := by
  constructor <;> rw [h]

theorem Frame.trans {u : HttpRequestParser} (h : Frame s t) (h' : Frame t u) : Frame s u :=
  ⟨h'.cs.trans h.cs, h'.nread.trans h.nread, h'.uriRelaxed.trans h.uriRelaxed, h'.headerDone.trans h.headerDone⟩

theorem run_frame (h : a.run buffer p s = .ok t) : Frame s t := by
  cases a with
  | mark | startField | writeField | requestUri | startQuery | xml | json =>
    cases h
    exact ⟨rfl, rfl, rfl, rfl⟩
  | writeValue => exact .of_eq (onHttpField_keeps h)
  | requestMethod => exact .of_eq (onRequestMethod_keeps h)
  | fragment => exact .of_eq (onText_keeps (fun v data => { data with fragment := v }) h)
  | queryString => exact .of_eq (onText_keeps (fun v data => { data with query := v }) h)
  | requestPath => exact .of_eq (onText_keeps (fun v data => { data with path := v }) h)
  | httpVersion => exact .of_eq (onHttpVersion_keeps h)
  | done =>
    simp only [Action.run] at h
    split at h
    · cases h
      exact ⟨rfl, rfl, rfl, rfl⟩
    · split at h
      · cases h
      · cases h
        exact ⟨rfl, rfl, rfl, rfl⟩

theorem runActions_frame {actions : List Action} {s t : HttpRequestParser}
    (h : runActions buffer p actions s = .ok t) : Frame s t := by
  induction actions generalizing s with
  | nil =>
    cases h
    exact ⟨rfl, rfl, rfl, rfl⟩
  | cons a actions ih =>
    rw [runActions] at h
    cases hr : a.run buffer p s with
    | error e => rw [hr] at h; cases h
    | ok u =>
      rw [hr] at h
      exact (run_frame hr).trans (ih h)

/-! ## The states of the machine -/

section Step

variable {c : Cursor} {b : UInt8} {g : Goto}

theorem step_reject (h : Machine.next c.self.parser.uriRelaxed c.cs b = none) :
    c.step buffer b = .reject { c with cs := 0 } := by
  simp only [Cursor.step, h]

theorem step_fault {e : HttpFault} (h : Machine.next c.self.parser.uriRelaxed c.cs b = some g)
    (hr : runActions buffer c.p g.actions c.self = .error e) : c.step buffer b = .fault e := by
  simp only [Cursor.step, h, hr]

theorem step_halt (h : Machine.next c.self.parser.uriRelaxed c.cs b = some g)
    (hr : runActions buffer c.p g.actions c.self = .ok s) (hd : .done ∈ g.actions) :
    c.step buffer b = .halt ⟨g.target, c.p + 1, s⟩ := by
  simp only [Cursor.step, h, hr, hd, if_true]

theorem step_more (h : Machine.next c.self.parser.uriRelaxed c.cs b = some g)
    (hr : runActions buffer c.p g.actions c.self = .ok s) (hd : .done ∉ g.actions) :
    c.step buffer b = .more ⟨g.target, c.p + 1, s⟩ := by
  simp only [Cursor.step, h, hr, hd, if_false]

/-- The machine without its actions. -/
def Machine.step (uriRelaxed : Bool) (cs : Nat) (b : UInt8) : Scan.Verdict Nat Empty :=
  match next uriRelaxed cs b with
  | none => .reject 0
  | some g => if .done ∈ g.actions then .halt g.target else .more g.target

theorem machine_more {uriRelaxed : Bool} {cs cs' : Nat} (h : Machine.step uriRelaxed cs b = .more cs') :
    ∃ g, Machine.next uriRelaxed cs b = some g ∧ .done ∉ g.actions ∧ g.target = cs' := by
  unfold Machine.step at h
  split at h
  · cases h
  · rename_i g hg
    split at h
    · cases h
    · cases h
      exact ⟨g, hg, ‹_›, rfl⟩

end Step

/-- A scan that does not fail goes through the states of the machine. -/
theorem scan_machine {uriRelaxed : Bool} {bs : List UInt8} {c : Cursor} {r : Scan.Scanned Cursor}
    (hc : c.self.parser.uriRelaxed = uriRelaxed) (h : Scan.scan (Cursor.step buffer) bs c = .ok r) :
    Scan.scan (Machine.step uriRelaxed) bs c.cs = .ok ⟨r.state.cs, r.count, r.ending⟩ := by
  have hstep : ∀ (c : Cursor) (cs : Nat) (b : UInt8), c.cs = cs ∧ c.self.parser.uriRelaxed = uriRelaxed →
      Scan.Matches (fun c cs => c.cs = cs ∧ c.self.parser.uriRelaxed = uriRelaxed) (c.step buffer b)
        (Machine.step uriRelaxed cs b) := by
    rintro c _ b ⟨rfl, hrel⟩
    unfold Machine.step
    cases hg : Machine.next uriRelaxed c.cs b with
    | none =>
      rw [step_reject (by rw [hrel, hg])]
      exact ⟨rfl, hrel⟩
    | some g =>
      have hg' : Machine.next c.self.parser.uriRelaxed c.cs b = some g := by rw [hrel, hg]
      cases hr : runActions buffer c.p g.actions c.self with
      | error e =>
        rw [step_fault hg' hr]
        trivial
      | ok s =>
        have hs : s.parser.uriRelaxed = uriRelaxed := (runActions_frame hr).uriRelaxed.trans hrel
        by_cases hd : .done ∈ g.actions
        · rw [step_halt hg' hr hd]
          simp only [hd, if_true]
          exact ⟨rfl, hs⟩
        · rw [step_more hg' hr hd]
          simp only [hd, if_false]
          exact ⟨rfl, hs⟩
  obtain ⟨cs, hs, rfl, -⟩ := Scan.scan_projects hstep ⟨rfl, hc⟩ h
  exact hs

/-- Where the machine has come to when it waits, when it halts and when it rejects. -/
def Machine.Ended (cs : Nat) : Scan.Ending → Prop
  | .more => 0 < cs ∧ cs < 348
  | .halt => 348 ≤ cs
  | .reject => cs = 0

theorem machine_ended {uriRelaxed : Bool} {bs : List UInt8} {cs : Nat} {r : Scan.Scanned Nat} (hcs : 0 < cs ∧ cs < 348)
    (h : Scan.scan (Machine.step uriRelaxed) bs cs = .ok r) : Machine.Ended r.state r.ending := by
  induction bs generalizing cs r with
  | nil =>
    cases h
    exact hcs
  | cons b bs ih =>
    rcases Scan.scan_cons_ok h with ⟨cs', r', hb, hr, rfl⟩ | ⟨cs', hb, rfl⟩ | ⟨cs', hb, rfl⟩
    · obtain ⟨g, hg, hd, rfl⟩ := machine_more hb
      obtain ⟨cls, -, hfine⟩ := Machine.next_fine hg
      exact ih (r := r') (hfine.goes hd) hr
    · unfold Machine.step at hb
      split at hb
      · cases hb
      · rename_i g hg
        obtain ⟨cls, -, hfine⟩ := Machine.next_fine hg
        split at hb
        · cases hb
          exact (hfine.ends ‹_›).2
        · cases hb
    · unfold Machine.step at hb
      split at hb
      · cases hb
        rfl
      · split at hb <;> cases hb

theorem step_frame {c c' : Cursor} {b : UInt8} (h : c.step buffer b = .more c' ∨ c.step buffer b = .halt c' ∨
    c.step buffer b = .reject c') : Frame c.self c'.self := by
  cases hg : Machine.next c.self.parser.uriRelaxed c.cs b with
  | none =>
    rw [step_reject hg] at h
    rcases h with h | h | h <;> cases h
    exact ⟨rfl, rfl, rfl, rfl⟩
  | some g =>
    cases hr : runActions buffer c.p g.actions c.self with
    | error e =>
      rw [step_fault hg hr] at h
      rcases h with h | h | h <;> cases h
    | ok s =>
      by_cases hd : .done ∈ g.actions
      · rw [step_halt hg hr hd] at h
        rcases h with h | h | h <;> cases h
        exact runActions_frame hr
      · rw [step_more hg hr hd] at h
        rcases h with h | h | h <;> cases h
        exact runActions_frame hr

theorem scan_frame {bs : List UInt8} {c : Cursor} {r : Scan.Scanned Cursor}
    (h : Scan.scan (Cursor.step buffer) bs c = .ok r) : Frame c.self r.state.self := by
  refine Scan.scan_invariant (I := fun c' => Frame c.self c'.self) ?_ ?_ ?_ ⟨rfl, rfl, rfl, rfl⟩ h
  · intro c' b c'' hc hstep
    exact hc.trans (step_frame (.inl hstep))
  · intro c' b c'' hc hstep
    exact hc.trans (step_frame (.inr (.inl hstep)))
  · intro c' b c'' hc hstep
    exact hc.trans (step_frame (.inr (.inr hstep)))

/-! ## Characters behind the head -/

/-- A name without a blank is compared with characters in front of a blank only. -/
theorem isPrefixOf_blank : ∀ (name l r r' : List UInt8), 32 ∉ name →
    name.isPrefixOf (l ++ 32 :: r) = name.isPrefixOf (l ++ 32 :: r')
  | [], _, _, _, _ => by simp
  | c :: name, [], r, r', h => by
    have hc : (c == 32) = false := by
      simp only [beq_eq_false_iff_ne]
      rintro rfl
      exact h List.mem_cons_self
    simp [List.isPrefixOf, hc]
  | c :: name, d :: l, r, r', h => by
    have := isPrefixOf_blank name l r r' fun hm => h (List.mem_cons_of_mem _ hm)
    simp [List.isPrefixOf, this]

theorem methods_blank : ∀ e ∈ httpMethodMap, 32 ∉ bytes e.2 := by decide +kernel

/-- What follows the blank behind a method does not matter. -/
theorem charsToHttpMethod_blank (l r r' : List UInt8) :
    charsToHttpMethod (l ++ 32 :: r) = charsToHttpMethod (l ++ 32 :: r') := by
  rw [charsToHttpMethod, charsToHttpMethod, List.find?_congr fun e he => isPrefixOf_blank _ l r r' (methods_blank e he)]

/-- A comparison of characters that are there does not look at what follows. -/
theorem strncmpEq_append : ∀ (m literal : List UInt8) (length : Nat), length ≤ m.length →
    strncmpEq (m ++ ext) literal length = strncmpEq m literal length
  | _, _, 0, _ => by simp [strncmpEq]
  | [], _, _ + 1, h => by simp at h
  | c :: m, [], _ + 1, _ => by simp [strncmpEq]
  | c :: m, d :: literal, length + 1, h => by
    simp [strncmpEq, strncmpEq_append m literal length (Nat.le_of_succ_le_succ h)]

/-! ## Two parsers that agree -/

/-- The two parsers differ in `header_done` and in a `query_start` that is not set; the marks are in front of `p`. -/
structure Agree (set : Bool) (p : Nat) (s s' : HttpRequestParser) : Prop where
  data : s'.data = s.data
  error : s'.error = s.error
  parser : s'.parser =
    { s.parser with queryStart := s'.parser.queryStart, headerDone := s'.parser.headerDone }
  query : set = true → s'.parser.queryStart = s.parser.queryStart
  mark : s.parser.mark ≤ p
  fieldStart : s.parser.fieldStart ≤ p
  fieldLen : s.parser.fieldLen ≤ p
  bodyStart : s.parser.bodyStart ≤ p + 1

variable {set : Bool} {t' : HttpRequestParser}

theorem Agree.mono {q : Nat} (h : Agree set p s s') (hpq : p ≤ q) : Agree set q s s' :=
  ⟨h.data, h.error, h.parser, h.query, h.mark.trans hpq, h.fieldStart.trans hpq, h.fieldLen.trans hpq,
    h.bodyStart.trans (Nat.succ_le_succ hpq)⟩

/-- What is known of `query_start` may be forgotten. -/
theorem Agree.weaken {set' : Bool} (h : Agree set p s s') (hset : set' = true → set = true) : Agree set' p s s' :=
  ⟨h.data, h.error, h.parser, fun h' => h.query (hset h'), h.mark, h.fieldStart, h.fieldLen, h.bodyStart⟩

/-- A callback changes the request and the error alike. -/
theorem Agree.callback (h : Agree set p s s') (hs : t.parser = s.parser) (hs' : t'.parser = s'.parser)
    (hd : t'.data = t.data) (he : t'.error = t.error) : Agree set p t t' := by
  refine ⟨hd, he, ?_, ?_, ?_, ?_, ?_, ?_⟩
  · rw [hs, hs']
    exact h.parser
  · rw [hs, hs']
    exact h.query
  · rw [hs]
    exact h.mark
  · rw [hs]
    exact h.fieldStart
  · rw [hs]
    exact h.fieldLen
  · rw [hs]
    exact h.bodyStart

/-- When the first call does not fail, the second does to the parser `s'` what the first did. -/
def Follows (s' : HttpRequestParser) (r r' : Except HttpFault HttpRequestParser) : Prop :=
  ∀ t, r = .ok t → ∃ t', r' = .ok t' ∧ t'.parser = s'.parser ∧ t'.data = t.data ∧ t'.error = t.error

section Callbacks

variable (hd : s'.data = s.data) (he : s'.error = s.error)
include hd he

theorem onText_follows (set : List UInt8 → HttpRequest → HttpRequest) :
    Follows s' (onText set buffer start length s) (onText set (buffer ++ ext) start length s') := by
  intro t h
  unfold onText at h ⊢
  cases hv : text buffer start length with
  | error e => rw [hv] at h; cases h
  | ok v =>
    rw [hv] at h
    cases h
    rw [text_append hv]
    exact ⟨_, rfl, rfl, congrArg (set v) hd, he⟩

theorem onRequestMethod_follows {r : List UInt8} (hstart : start ≤ p) (hblank : buffer.drop p = 32 :: r) :
    Follows s' (onRequestMethod buffer start length s) (onRequestMethod (buffer ++ ext) start length s') := by
  intro t h
  have hlt : p < buffer.length := by
    by_contra hge
    rw [List.drop_eq_nil_of_le (Nat.le_of_not_lt hge)] at hblank
    cases hblank
  have hdrop : buffer.drop start = slice buffer start (p - start) ++ 32 :: r := by
    rw [slice, ← hblank, ← Nat.add_sub_of_le hstart, ← List.drop_drop, Nat.add_sub_cancel_left, List.take_append_drop]
  have hmethod : charsToHttpMethod ((buffer ++ ext).drop start) = charsToHttpMethod (buffer.drop start) := by
    rw [List.drop_append_of_le_length (by omega), hdrop, List.append_assoc, List.cons_append]
    exact charsToHttpMethod_blank _ _ _
  unfold onRequestMethod at h ⊢
  rw [hmethod]
  split at h
  · rename_i hinv
    cases hv : text buffer start length with
    | error e => rw [hv] at h; cases h
    | ok v =>
      rw [hv] at h
      cases h
      rw [text_append hv]
      exact ⟨_, rfl, rfl, hd, rfl⟩
  · cases h
    refine ⟨_, rfl, rfl, ?_, he⟩
    simp only [hd]

theorem onHttpVersion_follows (hlen : start + length ≤ buffer.length) :
    Follows s' (onHttpVersion buffer start length s) (onHttpVersion (buffer ++ ext) start length s') := by
  intro t h
  have hcmp : ∀ literal, strncmpEq ((buffer ++ ext).drop start) literal length =
      strncmpEq (buffer.drop start) literal length := by
    intro literal
    rw [List.drop_append_of_le_length (by omega)]
    exact strncmpEq_append _ _ _ (by rw [List.length_drop]; omega)
  unfold onHttpVersion at h ⊢
  rw [hcmp, hcmp]
  by_cases h11 : strncmpEq (buffer.drop start) (bytes "HTTP/1.1") length = true
  · rw [if_pos h11] at h ⊢
    cases h
    refine ⟨_, rfl, rfl, ?_, he⟩
    simp only [hd]
  · rw [if_neg h11] at h ⊢
    by_cases h10 : strncmpEq (buffer.drop start) (bytes "HTTP/1.0") length = true
    · rw [if_pos h10] at h ⊢
      cases h
      refine ⟨_, rfl, rfl, ?_, he⟩
      simp only [hd]
    · rw [if_neg h10] at h ⊢
      cases hv : text buffer start length with
      | error e => rw [hv] at h; cases h
      | ok v =>
        rw [hv] at h
        cases h
        rw [text_append hv]
        exact ⟨_, rfl, rfl, hd, rfl⟩

theorem onHttpField_follows {field flen : Nat} : Follows s' (onHttpField buffer field flen start length s)
    (onHttpField (buffer ++ ext) field flen start length s') := by
  intro t h
  unfold onHttpField at h ⊢
  by_cases hflen : flen = 0
  · rw [if_pos hflen] at h ⊢
    cases h
    exact ⟨_, rfl, rfl, hd, rfl⟩
  · rw [if_neg hflen] at h ⊢
    cases hk : text buffer field flen with
    | error e => rw [hk] at h; cases h
    | ok k =>
      cases hv : text buffer start length with
      | error e => rw [hk, hv] at h; cases h
      | ok v =>
        rw [hk, hv] at h
        cases h
        rw [text_append hk, text_append hv]
        refine ⟨_, rfl, rfl, ?_, he⟩
        simp only [hd]

end Callbacks

/-- An action on the first buffer that does not fail is followed on the longer one. -/
theorem run_agree (h : Agree set p s s') (hp : p ≤ buffer.length)
    (hblank : a = .requestMethod → ∃ r, buffer.drop p = 32 :: r) (hquery : a = .queryString → set = true)
    (hdone : a = .done → s'.parser.headerDone = false) (hr : a.run buffer p s = .ok t) :
    ∃ t', a.run (buffer ++ ext) p s' = .ok t' ∧ Agree (set || a = .startQuery) p t t' := by
  have hparser := h.parser
  have hcall : ∀ {r r'}, Follows s' r r' → r = .ok t → t.parser = s.parser →
      ∃ t', r' = .ok t' ∧ Agree set p t t' := by
    intro r r' hf hr hs
    obtain ⟨t', hr', hs', hd, he⟩ := hf t hr
    exact ⟨t', hr', h.callback hs hs' hd he⟩
  have hmark : s'.parser.mark = s.parser.mark := by rw [hparser]
  have hstart : s'.parser.fieldStart = s.parser.fieldStart := by rw [hparser]
  have hlen : s'.parser.fieldLen = s.parser.fieldLen := by rw [hparser]
  cases a with
  | mark =>
    cases hr
    exact ⟨_, rfl, h.data, h.error, congrArg (fun q : HttpParser => { q with mark := p }) hparser,
      fun hset => h.query (by simpa using hset), Nat.le_refl p, h.fieldStart, h.fieldLen, h.bodyStart⟩
  | startField =>
    cases hr
    exact ⟨_, rfl, h.data, h.error, congrArg (fun q : HttpParser => { q with fieldStart := p }) hparser,
      fun hset => h.query (by simpa using hset), h.mark, Nat.le_refl p, h.fieldLen, h.bodyStart⟩
  | writeField =>
    cases hr
    refine ⟨_, rfl, h.data, h.error, ?_, fun hset => h.query (by simpa using hset), h.mark, h.fieldStart, ?_,
      h.bodyStart⟩
    · rw [hstart]
      exact congrArg (fun q : HttpParser => { q with fieldLen := sizeSub p s.parser.fieldStart }) hparser
    · simp only [sizeSub_of_le h.fieldStart]
      exact Nat.sub_le _ _
  | requestUri =>
    cases hr
    exact ⟨_, rfl, h.weaken (by simp)⟩
  | startQuery =>
    cases hr
    exact ⟨_, rfl, h.data, h.error, congrArg (fun q : HttpParser => { q with queryStart := p }) hparser, fun _ => rfl,
      h.mark, h.fieldStart, h.fieldLen, h.bodyStart⟩
  | xml =>
    cases hr
    exact ⟨_, rfl, h.data, h.error, congrArg (fun q : HttpParser => { q with xmlSent := true }) hparser,
      fun hset => h.query (by simpa using hset), h.mark, h.fieldStart, h.fieldLen, h.bodyStart⟩
  | json =>
    cases hr
    exact ⟨_, rfl, h.data, h.error, congrArg (fun q : HttpParser => { q with jsonSent := true }) hparser,
      fun hset => h.query (by simpa using hset), h.mark, h.fieldStart, h.fieldLen, h.bodyStart⟩
  | writeValue =>
    simp only [Action.run, hmark, hstart, hlen, Bool.or_false, reduceCtorEq, decide_false] at hr ⊢
    exact hcall (onHttpField_follows h.data h.error) hr (onHttpField_keeps hr)
  | requestMethod =>
    obtain ⟨r, hblank⟩ := hblank rfl
    simp only [Action.run, hmark, Bool.or_false, reduceCtorEq, decide_false] at hr ⊢
    exact hcall (onRequestMethod_follows h.data h.error h.mark hblank) hr (onRequestMethod_keeps hr)
  | fragment | requestPath =>
    simp only [Action.run, hmark, Bool.or_false, reduceCtorEq, decide_false] at hr ⊢
    exact hcall (onText_follows h.data h.error _) hr (onText_keeps _ hr)
  | queryString =>
    simp only [Action.run, h.query (hquery rfl), Bool.or_false, reduceCtorEq, decide_false] at hr ⊢
    exact hcall (onText_follows h.data h.error _) hr (onText_keeps _ hr)
  | httpVersion =>
    simp only [Action.run, hmark, Bool.or_false, reduceCtorEq, decide_false] at hr ⊢
    have hsize := sizeSub_of_le h.mark
    have hle := h.mark
    exact hcall (onHttpVersion_follows h.data h.error (by omega)) hr (onHttpVersion_keeps hr)
  | done =>
    have hset : (set || decide (Action.done = Action.startQuery)) = set := by simp
    have hflags : (s'.parser.xmlSent || s'.parser.jsonSent) = (s.parser.xmlSent || s.parser.jsonSent) := by rw [hparser]
    rw [hset]
    simp only [Action.run] at hr ⊢
    rw [hflags]
    by_cases hsent : (s.parser.xmlSent || s.parser.jsonSent) = true
    · simp only [hsent, if_true] at hr ⊢
      cases hr
      exact ⟨_, rfl, h.data, h.error, congrArg (fun q : HttpParser => { q with
        bodyStart := q.mark, contentLen := sizeSub p q.mark + 1 }) hparser, h.query, h.mark, h.fieldStart,
        h.fieldLen, Nat.le_succ_of_le h.mark⟩
    · rw [if_neg hsent] at hr ⊢
      rw [if_neg (by rw [hdone rfl]; exact Bool.false_ne_true)]
      split at hr
      · cases hr
      · cases hr
        exact ⟨_, rfl, h.data, h.error, congrArg (fun q : HttpParser => { q with bodyStart := p + 1 }) hparser, h.query,
          h.mark, h.fieldStart, h.fieldLen, Nat.le_refl _⟩

/-- The actions of a transition are followed. -/
theorem runActions_agree {actions : List Action} {set known : Bool} {s s' t : HttpRequestParser}
    (hq : known ∈ Machine.querySet set actions) (h : Agree set p s s') (hp : p ≤ buffer.length)
    (hblank : .requestMethod ∈ actions → ∃ r, buffer.drop p = 32 :: r)
    (hdone : .done ∈ actions → s'.parser.headerDone = false) (hr : runActions buffer p actions s = .ok t) :
    ∃ t', runActions (buffer ++ ext) p actions s' = .ok t' ∧ Agree known p t t' := by
  induction actions generalizing set s s' with
  | nil =>
    cases hq
    cases hr
    exact ⟨s', rfl, h⟩
  | cons a actions ih =>
    rw [runActions] at hr
    rw [Machine.querySet] at hq
    split at hq
    · cases hq
    · rename_i hset
      cases hu : a.run buffer p s with
      | error e => rw [hu] at hr; cases hr
      | ok u =>
        rw [hu] at hr
        have hquery : a = .queryString → set = true := by
          rintro rfl
          simpa using hset
        obtain ⟨u', hu', hagree⟩ := run_agree h hp (fun ha => hblank (ha ▸ List.mem_cons_self)) hquery
          (fun ha => hdone (ha ▸ List.mem_cons_self)) hu
        have hdone' : .done ∈ actions → u'.parser.headerDone = false := fun hd =>
          (run_frame hu').headerDone.trans (hdone (List.mem_cons_of_mem _ hd))
        obtain ⟨t', ht', ht⟩ := ih hq hagree (fun hm => hblank (List.mem_cons_of_mem _ hm)) hdone' hr
        exact ⟨t', by rw [runActions, hu']; exact ht', ht⟩

theorem runActions_append {actions actions' : List Action} {s : HttpRequestParser} :
    runActions buffer p (actions ++ actions') s =
      (runActions buffer p actions s).bind (runActions buffer p actions') := by
  induction actions generalizing s with
  | nil => rfl
  | cons a actions ih =>
    rw [List.cons_append, runActions, runActions]
    cases a.run buffer p s with
    | error e => rfl
    | ok t => exact ih

/-! ## A scan of a longer buffer -/

/-- Two cursors at one place of the buffer, with `bs` in front of them. -/
structure Together (buffer bs : List UInt8) (c c' : Cursor) : Prop where
  ahead : buffer.drop c.p = bs
  cs : c'.cs = c.cs
  p : c'.p = c.p
  agree : Agree (Machine.inQuery c.cs) c.p c.self c'.self

namespace Together

variable {c c' d : Cursor} {b : UInt8} {bs : List UInt8}

theorem uriRelaxed (h : Together buffer bs c c') : c'.self.parser.uriRelaxed = c.self.parser.uriRelaxed := by
  rw [h.agree.parser]

theorem lt (h : Together buffer (b :: bs) c c') : c.p < buffer.length := by
  by_contra hge
  have hnil : buffer.drop c.p = [] := List.drop_eq_nil_of_le (Nat.le_of_not_lt hge)
  rw [h.ahead] at hnil
  cases hnil

/-- A step that is not a failure is a transition of the machine. -/
theorem next (hd : c.step buffer b = .more d ∨ c.step buffer b = .halt d) :
    ∃ g s, Machine.next c.self.parser.uriRelaxed c.cs b = some g ∧
      runActions buffer c.p g.actions c.self = .ok s ∧ d = ⟨g.target, c.p + 1, s⟩ ∧
      (.done ∈ g.actions ↔ c.step buffer b = .halt d) := by
  cases hg : Machine.next c.self.parser.uriRelaxed c.cs b with
  | none =>
    rw [step_reject hg] at hd
    rcases hd with hd | hd <;> cases hd
  | some g =>
    cases hr : runActions buffer c.p g.actions c.self with
    | error e =>
      rw [step_fault hg hr] at hd
      rcases hd with hd | hd <;> cases hd
    | ok s =>
      by_cases hdone : .done ∈ g.actions
      · rw [step_halt hg hr hdone] at hd ⊢
        rcases hd with hd | hd <;> cases hd
        exact ⟨g, s, rfl, hr, rfl, by simp [hdone]⟩
      · rw [step_more hg hr hdone] at hd ⊢
        rcases hd with hd | hd <;> cases hd
        exact ⟨g, s, rfl, hr, rfl, by simp [hdone]⟩

variable (ext) in
/-- Actions of a transition of the first cursor are followed, but for a call of `header_done`. -/
theorem transition (h : Together buffer (b :: bs) c c') {g : Goto} {actions : List Action} {set : Bool}
    {s : HttpRequestParser} (hg : Machine.next c.self.parser.uriRelaxed c.cs b = some g)
    (hset : set ∈ Machine.querySet (Machine.inQuery c.cs) actions) (hsub : ∀ a ∈ actions, a ∈ g.actions)
    (hr : runActions buffer c.p actions c.self = .ok s)
    (hdone : .done ∈ actions → c'.self.parser.headerDone = false) :
    ∃ s', runActions (buffer ++ ext) c'.p actions c'.self = .ok s' ∧ Agree set c.p s s' := by
  have hblank : .requestMethod ∈ actions → ∃ r, buffer.drop c.p = 32 :: r := by
    intro hm
    rw [h.ahead, Machine.next_method hg (hsub _ hm)]
    exact ⟨_, rfl⟩
  rw [h.p]
  exact runActions_agree hset h.agree h.lt.le hblank hdone hr

/-- After a transition that both made, they are together again. -/
theorem after (h : Together buffer (b :: bs) c c') {target : Nat} {set : Bool} {s s' : HttpRequestParser}
    (hagree : Agree set c.p s s') (hquery : Machine.inQuery target = true → set = true) :
    Together buffer bs ⟨target, c.p + 1, s⟩ ⟨target, c'.p + 1, s'⟩ := by
  refine ⟨?_, rfl, congrArg (· + 1) h.p, (hagree.weaken hquery).mono (Nat.le_succ _)⟩
  rw [← List.drop_drop, h.ahead, List.drop_succ_cons, List.drop_zero]

theorem more (h : Together buffer (b :: bs) c c') (hd : c.step buffer b = .more d) :
    ∃ d', c'.step (buffer ++ ext) b = .more d' ∧ Together buffer bs d d' := by
  obtain ⟨g, s, hg, hr, rfl, hiff⟩ := next (.inl hd)
  obtain ⟨cls, -, hfine⟩ := Machine.next_fine hg
  obtain ⟨set, hset, hquery⟩ := hfine.query
  have hdone : .done ∉ g.actions := by
    intro hm
    rw [hd] at hiff
    exact nomatch hiff.mp hm
  obtain ⟨s', hs', hagree⟩ := h.transition ext hg hset (fun _ ha => ha) hr fun hm => absurd hm hdone
  exact ⟨_, step_more (by rw [h.uriRelaxed, h.cs, hg]) hs' hdone, h.after hagree hquery⟩

variable (ext) in
/-- The end of a scan is followed where `header_done` is not set. -/
theorem halt (h : Together buffer (b :: bs) c c') (hd : c.step buffer b = .halt d)
    (hnull : c'.self.parser.headerDone = false) :
    ∃ d', c'.step (buffer ++ ext) b = .halt d' ∧ Together buffer bs d d' := by
  obtain ⟨g, s, hg, hr, rfl, hiff⟩ := next (.inr hd)
  obtain ⟨cls, -, hfine⟩ := Machine.next_fine hg
  obtain ⟨set, hset, hquery⟩ := hfine.query
  obtain ⟨s', hs', hagree⟩ := h.transition ext hg hset (fun _ ha => ha) hr fun _ => hnull
  exact ⟨_, step_halt (by rw [h.uriRelaxed, h.cs, hg]) hs' (hiff.mpr hd), h.after hagree hquery⟩

variable (ext) in
/-- Where `header_done` is set, the end of a scan calls it. -/
theorem wild (h : Together buffer (b :: bs) c c') (hd : c.step buffer b = .halt d)
    (hsent : (d.self.parser.xmlSent || d.self.parser.jsonSent) = false)
    (hset : c'.self.parser.headerDone = true) : c'.step (buffer ++ ext) b = .fault .wildCall := by
  obtain ⟨g, s, hg, hr, rfl, hiff⟩ := next (.inr hd)
  obtain ⟨cls, -, hfine⟩ := Machine.next_fine hg
  obtain ⟨hends, -⟩ := hfine.ends (hiff.mpr hd)
  obtain ⟨set, hq, -⟩ := hfine.query
  obtain ⟨known, hknown⟩ : ∃ known, known ∈ Machine.querySet (Machine.inQuery c.cs) g.actions.dropLast := by
    rw [hends] at hq
    exact Machine.querySet_append hq
  rw [hends, runActions_append] at hr
  cases hu : runActions buffer c.p g.actions.dropLast c.self with
  | error e => rw [hu] at hr; cases hr
  | ok u =>
    rw [hu] at hr
    obtain ⟨u', hu', hagree⟩ := h.transition ext hg hknown (fun _ ha => List.dropLast_subset _ ha) hu
      fun hm => absurd hm hfine.last
    have hdone : u'.parser.headerDone = true := (runActions_frame hu').headerDone.trans hset
    have hflags : (u'.parser.xmlSent || u'.parser.jsonSent) = (u.parser.xmlSent || u.parser.jsonSent) := by
      rw [hagree.parser]
    have hwild : runActions (buffer ++ ext) c'.p g.actions c'.self = .error .wildCall := by
      rw [hends, runActions_append, hu']
      simp only [Except.bind, runActions, Action.run] at hr ⊢
      by_cases hs : (u.parser.xmlSent || u.parser.jsonSent) = true
      · rw [if_pos hs] at hr
        cases hr
        exact absurd hs (by rw [hsent]; exact Bool.false_ne_true)
      · rw [hflags, if_neg hs, if_pos hdone]
    exact step_fault (by rw [h.uriRelaxed, h.cs, hg]) hwild

end Together

variable (ext) in
/-- A scan that waits for more is followed on the longer buffer. -/
theorem scan_agree {n : Nat} {bs rest : List UInt8} {c c' d : Cursor} (h : Together buffer (bs ++ rest) c c')
    (hs : Scan.scan (Cursor.step buffer) bs c = .ok ⟨d, n, .more⟩) :
    ∃ d', Scan.scan (Cursor.step (buffer ++ ext)) bs c' = .ok ⟨d', n, .more⟩ ∧ Together buffer rest d d' :=
  Scan.scan_simulates (R := fun bs => Together buffer (bs ++ rest)) (fun _ _ _ _ _ => Together.more) h hs

end Megalo
