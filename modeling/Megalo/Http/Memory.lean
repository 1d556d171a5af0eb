import Megalo.Http.Segmentation

/-!
# The memory of a new parser

`http_parser_init` and the constructor of `HttpRequestParser` leave `uri_relaxed`, `query_start` and `header_done` as
the memory has them (`ParserMemory`).

- `parse` is what a new parser says after some calls of `execute`, and `Unaffected` that two memories make no difference
  and nothing is called that nobody set;
- `query_start` is dead until it is written: it makes no difference (`parse_queryStart`). The other two do
  (`memory_independent`).
-/

namespace Megalo

open MachineInt Overwrite

/-! ## Calls of `execute` on one parser -/

/-- `http_parser_finish`. -/
def HttpRequestParser.finish (s : HttpRequestParser) : Int :=
  if s.parser.cs = 0 then -1 else if 348 ≤ s.parser.cs then 1 else 0

/-- `execute`, on one buffer after the other; of an empty one, it does nothing. -/
def HttpRequestParser.executes : HttpRequestParser → List (List UInt8) → Except HttpFault HttpRequestParser
  | s, [] => .ok s
  | s, data :: calls =>
    if data.length = 0 then s.executes calls
    else (s.execute data data.length).bind fun e => e.1.self.executes calls

/-- What `hasError`, `isFinished` and `getData` return. -/
structure Parsed where
  hasError : Bool
  isFinished : Int
  data : HttpRequest
  deriving DecidableEq

/-- What a parser says. -/
def HttpRequestParser.parsed (s : HttpRequestParser) : Parsed := ⟨s.hasError, s.finish, s.data⟩

/-- A new parser in some memory, after the calls. -/
def parse (memory : ParserMemory) (calls : List (List UInt8)) : Except HttpFault Parsed :=
  ((HttpRequestParser.new memory).executes calls).map HttpRequestParser.parsed

/-- The memories make no difference, and no callback is called that nobody set. -/
structure Unaffected (memory memory' : ParserMemory) (calls : List (List UInt8)) : Prop where
  same : parse memory calls = parse memory' calls
  first : parse memory calls ≠ .error .wildCall
  second : parse memory' calls ≠ .error .wildCall

/-! ## Two values of `query_start` -/

/-- The parser with another `query_start`. -/
def HttpRequestParser.withQuery (s : HttpRequestParser) (q : Nat) : HttpRequestParser :=
  { s with parser := { s.parser with queryStart := q } }

/-- The second parser is the first, or where `query_start` is not set, the first with another one. -/
def SameBut (set : Bool) (s s' : HttpRequestParser) : Prop := s' = s ∨ set = false ∧ ∃ q, s' = s.withQuery q

section

variable {set known : Bool} {s s' t : HttpRequestParser} {buffer : List UInt8} {p : Nat} {a : Action}

theorem SameBut.weaken (h : SameBut set s s') (hset : known = true → set = true) : SameBut known s s' := by
  rcases h with rfl | ⟨rfl, hq⟩
  · exact .inl rfl
  · refine .inr ⟨?_, hq⟩
    cases known with
    | false => rfl
    | true => exact absurd (hset rfl) Bool.false_ne_true

theorem SameBut.parsed (h : SameBut set s s') : s'.parsed = s.parsed := by
  rcases h with rfl | ⟨-, q, rfl⟩
  · rfl
  · rfl

/-- The same result where nothing differs. -/
theorem alike_self (x : Except HttpFault HttpRequestParser) : Scan.Alike (SameBut set) x x := by
  cases x with
  | ok t => exact .ok (.inl rfl)
  | error e => exact .error e

/-- A callback that stores characters does the same to both. -/
theorem text_withQuery (q start length : Nat) (f : List UInt8 → HttpRequestParser → HttpRequestParser)
    (hf : ∀ v, f v (s.withQuery q) = (f v s).withQuery q) :
    ((text buffer start length).map fun v => f v (s.withQuery q)) =
      ((text buffer start length).map fun v => f v s).map (·.withQuery q) := by
  cases text buffer start length with
  | ok v => exact congrArg Except.ok (hf v)
  | error e => rfl

theorem onHttpVersion_withQuery (q start length : Nat) : onHttpVersion buffer start length (s.withQuery q) =
    (onHttpVersion buffer start length s).map (·.withQuery q) := by
  unfold onHttpVersion
  by_cases h11 : strncmpEq (buffer.drop start) (bytes "HTTP/1.1") length = true
  · rw [if_pos h11, if_pos h11]
    rfl
  · rw [if_neg h11, if_neg h11]
    by_cases h10 : strncmpEq (buffer.drop start) (bytes "HTTP/1.0") length = true
    · rw [if_pos h10, if_pos h10]
      rfl
    · rw [if_neg h10, if_neg h10]
      exact text_withQuery q start length (fun _ s => s.setError 1001) fun _ => rfl

theorem onRequestMethod_withQuery (q start length : Nat) : onRequestMethod buffer start length (s.withQuery q) =
    (onRequestMethod buffer start length s).map (·.withQuery q) := by
  unfold onRequestMethod
  split
  · exact text_withQuery q start length (fun _ s => s.setError 1000) fun _ => rfl
  · rfl

theorem onHttpField_withQuery (q field flen start length : Nat) :
    onHttpField buffer field flen start length (s.withQuery q) =
      (onHttpField buffer field flen start length s).map (·.withQuery q) := by
  unfold onHttpField
  by_cases hflen : flen = 0
  · rw [if_pos hflen, if_pos hflen]
    rfl
  · rw [if_neg hflen, if_neg hflen]
    cases text buffer field flen with
    | error e => rfl
    | ok key =>
      exact text_withQuery q start length (fun v s => { s with data := { s.data with
        headers := s.data.headers.set key v } }) fun _ => rfl

theorem done_withQuery (q : Nat) :
    Action.done.run buffer p (s.withQuery q) = (Action.done.run buffer p s).map (·.withQuery q) := by
  simp only [Action.run]
  by_cases hsent : (s.parser.xmlSent || s.parser.jsonSent) = true
  · rw [if_pos hsent]
    exact if_pos hsent
  · rw [if_neg hsent]
    refine (if_neg hsent).trans ?_
    by_cases hdone : s.parser.headerDone = true
    · rw [if_pos hdone]
      exact if_pos hdone
    · rw [if_neg hdone]
      exact if_neg hdone

/-- The other actions do not look at `query_start`. -/
theorem run_withQuery (q : Nat) (hquery : a ≠ .queryString) (hstart : a ≠ .startQuery) :
    a.run buffer p (s.withQuery q) = (a.run buffer p s).map (·.withQuery q) := by
  cases a with
  | mark | startField | writeField | requestUri | xml | json => rfl
  | startQuery => exact absurd rfl hstart
  | queryString => exact absurd rfl hquery
  | fragment =>
    exact text_withQuery q _ _ (fun v s => { s with data := { s.data with fragment := v } }) fun _ => rfl
  | requestPath => exact text_withQuery q _ _ (fun v s => { s with data := { s.data with path := v } }) fun _ => rfl
  | requestMethod => exact onRequestMethod_withQuery q _ _
  | httpVersion => exact onHttpVersion_withQuery q _ _
  | writeValue => exact onHttpField_withQuery q _ _ _ _
  | done => exact done_withQuery q

theorem run_alike (h : SameBut set s s') (hquery : a = .queryString → set = true) :
    Scan.Alike (SameBut (set || a = .startQuery)) (a.run buffer p s) (a.run buffer p s') := by
  rcases h with rfl | ⟨rfl, q, rfl⟩
  · exact alike_self _
  · by_cases hstart : a = .startQuery
    · subst hstart
      exact .ok (.inl rfl)
    · rw [run_withQuery q (fun ha => Bool.false_ne_true (hquery ha)) hstart]
      cases a.run buffer p s with
      | error e => exact .error e
      | ok t => exact .ok (.inr ⟨by simp [hstart], q, rfl⟩)

theorem runActions_alike {actions : List Action} (hq : known ∈ Machine.querySet set actions) (h : SameBut set s s') :
    Scan.Alike (SameBut known) (runActions buffer p actions s) (runActions buffer p actions s') := by
  induction actions generalizing set s s' with
  | nil =>
    cases hq
    exact .ok h
  | cons a actions ih =>
    rw [Machine.querySet] at hq
    split at hq
    · cases hq
    · rename_i hset
      exact (run_alike h (by rintro rfl; simpa using hset)).bind fun t t' ht => ih hq ht

/-! ## Both parsers execute alike -/

/-- Cursors at one place, with parsers that differ where `query_start` is not set. -/
def CursorAlike (c c' : Cursor) : Prop := c'.cs = c.cs ∧ c'.p = c.p ∧ SameBut (Machine.inQuery c.cs) c.self c'.self

theorem SameBut.uriRelaxed (h : SameBut set s s') : s'.parser.uriRelaxed = s.parser.uriRelaxed := by
  rcases h with rfl | ⟨-, q, rfl⟩
  · rfl
  · rfl

theorem step_alike {c c' : Cursor} (b : UInt8) (h : CursorAlike c c') :
    Scan.VerdictAlike CursorAlike (c.step buffer b) (c'.step buffer b) := by
  obtain ⟨hcs, hp, hself⟩ := h
  unfold Cursor.step
  rw [hself.uriRelaxed, hcs, hp]
  cases hg : Machine.next c.self.parser.uriRelaxed c.cs b with
  | none => exact .reject ⟨rfl, rfl, hself.weaken (by simp [Machine.inQuery])⟩
  | some g =>
    obtain ⟨cls, -, hfine⟩ := Machine.next_fine hg
    obtain ⟨known, hknown, htarget⟩ := hfine.query
    have hrun : Scan.Alike (SameBut known) (runActions buffer c.p g.actions c.self)
        (runActions buffer c.p g.actions c'.self) := runActions_alike hknown hself
    dsimp only
    generalize runActions buffer c.p g.actions c.self = x at hrun ⊢
    generalize runActions buffer c.p g.actions c'.self = y at hrun ⊢
    cases hrun with
    | error e => exact .fault e
    | ok ht =>
      dsimp only
      by_cases hdone : .done ∈ g.actions
      · rw [if_pos hdone, if_pos hdone]
        exact .halt ⟨rfl, rfl, ht.weaken htarget⟩
      · rw [if_neg hdone, if_neg hdone]
        exact .more ⟨rfl, rfl, ht.weaken htarget⟩

/-- What is stored at the end does not depend on `query_start`, nor do the assertions. -/
theorem storeScan_withQuery (len q : Nat) (r : Scan.Scanned Cursor) :
    storeScan len s { r with state := { r.state with self := r.state.self.withQuery q } } =
      (storeScan len s r).map fun e => { e with self := e.self.withQuery q } := by
  unfold storeScan
  simp only [apply_ite (Except.map _)]
  rfl

/-- Between two calls, the parsers differ where `query_start` is not set. -/
def BetweenAlike (s s' : HttpRequestParser) : Prop := SameBut (Machine.inQuery s.parser.cs) s s'

theorem BetweenAlike.cs (h : BetweenAlike s s') : s'.parser.cs = s.parser.cs := by
  rcases h with rfl | ⟨-, q, rfl⟩
  · rfl
  · rfl

/-- The state of the machine is stored, but that of an error stays. -/
theorem storeScan_cs {len : Nat} {r : Scan.Scanned Cursor} {e : Executed} (hframe : Frame s r.state.self)
    (h : storeScan len s r = .ok e) : Machine.inQuery e.self.parser.cs = true → Machine.inQuery r.state.cs = true := by
  obtain ⟨rfl, -⟩ := storeScan_ok h
  simp only [HttpRequestParser.stored]
  split
  · rename_i hzero
    rw [hframe.cs, hzero]
    exact fun h => absurd h (by decide)
  · exact id

theorem storeScan_alike {len : Nat} {r r' : Scan.Scanned Cursor} (h : BetweenAlike s s') (hframe : Frame s r.state.self)
    (hr : Scan.ScannedAlike CursorAlike r r') :
    Scan.Alike (fun e e' : Executed => BetweenAlike e.self e'.self) (storeScan len s r) (storeScan len s' r') := by
  have hstored : storeScan len s' r' = storeScan len s r' := by
    unfold storeScan
    rw [h.cs]
  obtain ⟨⟨cs', p', self'⟩, count', ending'⟩ := r'
  obtain ⟨⟨hcs, hp, hself⟩, hcount, hending⟩ := hr
  dsimp only at hcs hp hself hcount hending
  subst hcs hp hcount hending
  rw [hstored]
  rcases hself with rfl | ⟨hquery, q, rfl⟩
  · cases storeScan len s r with
    | error f => exact .error f
    | ok e => exact .ok (.inl rfl)
  · rw [storeScan_withQuery]
    cases he : storeScan len s r with
    | error f => exact .error f
    | ok e =>
      refine .ok (.inr ⟨?_, q, rfl⟩)
      have hcs := storeScan_cs hframe he
      rw [hquery] at hcs
      cases hin : Machine.inQuery e.self.parser.cs with
      | false => rfl
      | true => exact absurd (hcs hin) Bool.false_ne_true

theorem execute_alike (buffer : List UInt8) (len : Nat) (h : BetweenAlike s s') :
    Scan.Alike (fun x x' => BetweenAlike x.1.self x'.1.self) (s.execute buffer len) (s'.execute buffer len) := by
  have hstart : CursorAlike ⟨s.parser.cs, 0, s⟩ ⟨s'.parser.cs, 0, s'⟩ := ⟨h.cs, rfl, h⟩
  have hscan : Scan.Alike (Scan.ScannedAlike CursorAlike)
      (Scan.scan (Cursor.step buffer) (buffer.take len) ⟨s.parser.cs, 0, s⟩)
      (Scan.scan (Cursor.step buffer) (buffer.take len) ⟨s'.parser.cs, 0, s'⟩) :=
    Scan.scan_alike (fun c c' b => step_alike b) hstart
  unfold HttpRequestParser.execute httpParserExecute
  by_cases hlen : (len : Int) ≠ intSize len
  · rw [if_pos hlen, if_pos hlen]
    exact .error _
  · rw [if_neg hlen, if_neg hlen]
    cases hr : Scan.scan (Cursor.step buffer) (buffer.take len) ⟨s.parser.cs, 0, s⟩ with
    | error f =>
      rw [hr] at hscan
      rw [hscan.of_error]
      exact .error f
    | ok r =>
      rw [hr] at hscan
      obtain ⟨r', hr', hrelated⟩ := hscan.of_ok
      rw [hr']
      exact (storeScan_alike h (scan_frame hr) hrelated).map fun e e' he => he

theorem executes_alike (calls : List (List UInt8)) (h : BetweenAlike s s') :
    Scan.Alike BetweenAlike (s.executes calls) (s'.executes calls) := by
  induction calls generalizing s s' with
  | nil => exact .ok h
  | cons data calls ih =>
    rw [HttpRequestParser.executes, HttpRequestParser.executes]
    by_cases hempty : data.length = 0
    · rw [if_pos hempty, if_pos hempty]
      exact ih h
    · rw [if_neg hempty, if_neg hempty]
      exact (execute_alike data data.length h).bind fun x x' hx => ih hx

/-- `query_start` is dead until it is written. -/
theorem parse_queryStart (memory : ParserMemory) (q : Nat) (calls : List (List UInt8)) :
    parse memory calls = parse { memory with queryStart := q } calls := by
  have hnew : BetweenAlike (.new memory) (.new { memory with queryStart := q }) := .inr ⟨rfl, q, rfl⟩
  have hparse : Scan.Alike (fun v v' => v' = v) (parse memory calls) (parse { memory with queryStart := q } calls) :=
    (executes_alike calls hnew).map fun s s' hs => hs.parsed
  cases hr : parse memory calls with
  | error f =>
    rw [hr] at hparse
    exact hparse.of_error.symm
  | ok v =>
    rw [hr] at hparse
    obtain ⟨v', hv', rfl⟩ := hparse.of_ok
    exact hv'.symm

/-! ## Calls of `header_done` -/

theorem text_ne_wildCall {start length : Nat} : text buffer start length ≠ .error .wildCall := by
  unfold text
  split
  · simp
  · split <;> simp

theorem bind_ne_wildCall {α β : Type} {x : Except HttpFault α} {f : α → Except HttpFault β}
    (hx : x ≠ .error .wildCall) (hf : ∀ v, f v ≠ .error .wildCall) : x.bind f ≠ .error .wildCall := by
  cases x with
  | ok v => exact hf v
  | error e =>
    intro h
    cases h
    exact hx rfl

/-- Only the end of a request calls `header_done`, where it is set. -/
theorem run_headerDone (h : a.run buffer p s = .error .wildCall) : s.parser.headerDone = true := by
  have htext {start length : Nat} {f : List UInt8 → HttpRequestParser}
      (h : ((text buffer start length).bind fun v => .ok (f v)) = .error .wildCall) : False :=
    bind_ne_wildCall text_ne_wildCall (by simp) h
  cases a with
  | mark | startField | writeField | requestUri | startQuery | xml | json => cases h
  | fragment | requestPath | queryString => exact (htext h).elim
  | requestMethod =>
    simp only [Action.run, onRequestMethod] at h
    split at h
    · exact (htext h).elim
    · cases h
  | httpVersion =>
    simp only [Action.run, onHttpVersion] at h
    split at h
    · cases h
    · split at h
      · cases h
      · exact (htext h).elim
  | writeValue =>
    simp only [Action.run, onHttpField] at h
    split at h
    · cases h
    · refine absurd h (bind_ne_wildCall text_ne_wildCall fun key => bind_ne_wildCall text_ne_wildCall ?_)
      simp [pure, Except.pure]
  | done =>
    simp only [Action.run] at h
    split at h
    · cases h
    · split at h
      · assumption
      · cases h

theorem runActions_headerDone {actions : List Action} (h : runActions buffer p actions s = .error .wildCall) :
    s.parser.headerDone = true := by
  induction actions generalizing s with
  | nil => cases h
  | cons a actions ih =>
    rw [runActions] at h
    cases hr : a.run buffer p s with
    | error e =>
      rw [hr] at h
      cases h
      exact run_headerDone hr
    | ok t =>
      rw [hr] at h
      rw [← (run_frame hr).headerDone]
      exact ih h

theorem storeScan_ne_wildCall {len : Nat} {r : Scan.Scanned Cursor} : storeScan len s r ≠ .error .wildCall := by
  unfold storeScan
  dsimp only
  split_ifs <;> simp

/-- Where `header_done` is null, nothing is called that nobody set. -/
theorem execute_null {len : Nat} (h : s.parser.headerDone = false) : s.execute buffer len ≠ .error .wildCall := by
  have hscan : Scan.scan (Cursor.step buffer) (buffer.take len) ⟨s.parser.cs, 0, s⟩ ≠ .error .wildCall := by
    refine Scan.scan_no_fault (I := fun c => c.self.parser.headerDone = false) ?_ ?_ h
    · intro c b c' hc hstep
      exact (step_frame (.inl hstep)).headerDone.trans hc
    · intro c b hc hstep
      cases hg : Machine.next c.self.parser.uriRelaxed c.cs b with
      | none =>
        rw [step_reject hg] at hstep
        cases hstep
      | some g =>
        cases hr : runActions buffer c.p g.actions c.self with
        | error e =>
          rw [step_fault hg hr] at hstep
          cases hstep
          exact Bool.false_ne_true (hc.symm.trans (runActions_headerDone hr))
        | ok t =>
          by_cases hdone : .done ∈ g.actions
          · rw [step_halt hg hr hdone] at hstep
            cases hstep
          · rw [step_more hg hr hdone] at hstep
            cases hstep
  unfold HttpRequestParser.execute httpParserExecute
  split
  · simp [Except.map]
  · intro he
    have hbind : (Scan.scan (Cursor.step buffer) (buffer.take len) ⟨s.parser.cs, 0, s⟩).bind (storeScan len s) ≠
        .error .wildCall := bind_ne_wildCall hscan fun r => storeScan_ne_wildCall
    generalize (Scan.scan (Cursor.step buffer) (buffer.take len) ⟨s.parser.cs, 0, s⟩).bind (storeScan len s) = x
      at he hbind
    cases x with
    | ok e => cases he
    | error f =>
      cases he
      exact hbind rfl

theorem executes_null (calls : List (List UInt8)) (h : s.parser.headerDone = false) :
    s.executes calls ≠ .error .wildCall := by
  induction calls generalizing s with
  | nil => simp [HttpRequestParser.executes]
  | cons data calls ih =>
    rw [HttpRequestParser.executes]
    split
    · exact ih h
    · intro he
      cases hx : s.execute data data.length with
      | error f =>
        rw [hx] at he
        cases he
        exact execute_null h hx
      | ok x =>
        rw [hx] at he
        obtain ⟨e, after⟩ := x
        obtain ⟨r, hr, rfl, -⟩ := httpParserExecute_ok (execute_ok hx)
        have hnull : (s.stored r).parser.headerDone = false := (scan_frame hr).headerDone.trans h
        exact ih hnull he

theorem parse_null {memory : ParserMemory} (h : memory.headerDone = false) (calls : List (List UInt8)) :
    parse memory calls ≠ .error .wildCall := by
  have hnew : (HttpRequestParser.new memory).parser.headerDone = false := h
  have hrun := executes_null calls hnew
  unfold parse
  cases hx : (HttpRequestParser.new memory).executes calls with
  | ok t => simp [Except.map]
  | error f =>
    rw [hx] at hrun
    intro he
    cases he
    exact hrun rfl

end

/-! ## What makes a difference -/

/-- Where the memory holds a pointer for `header_done`, the end of a head calls it. -/
theorem parse_wild {memory : ParserMemory} (h : memory.headerDone = true) :
    parse memory [bytes "GET / HTTP/1.1\r\n\r\n"] = .error .wildCall := by
  have hzero : ∀ relaxed, parse ⟨relaxed, 0, true⟩ [bytes "GET / HTTP/1.1\r\n\r\n"] = .error .wildCall := by
    decide +kernel
  refine (parse_queryStart memory 0 _).trans ?_
  rw [h]
  exact hzero memory.uriRelaxed

/-- With `uri_relaxed`, a caret may stand in a path. -/
theorem parse_relaxed {memory memory' : ParserMemory} (h : memory.headerDone = false)
    (h' : memory'.headerDone = false) (hsame : parse memory [bytes "GET /^ HTTP/1.1\r\n\r\n"] =
      parse memory' [bytes "GET /^ HTTP/1.1\r\n\r\n"]) : memory.uriRelaxed = memory'.uriRelaxed := by
  have hzero : ∀ relaxed relaxed', parse ⟨relaxed, 0, false⟩ [bytes "GET /^ HTTP/1.1\r\n\r\n"] =
      parse ⟨relaxed', 0, false⟩ [bytes "GET /^ HTTP/1.1\r\n\r\n"] → relaxed = relaxed' := by
    decide +kernel
  apply hzero
  rw [parse_queryStart memory 0, parse_queryStart memory' 0, h, h'] at hsame
  exact hsame

/-- Parsing does not depend on what the memory held, and calls nothing that nobody set, exactly when it held a null
`header_done`, and the same `uri_relaxed`. -/
theorem memory_independent (memory memory' : ParserMemory) : (∀ calls, Unaffected memory memory' calls) ↔
    memory.headerDone = false ∧ memory'.headerDone = false ∧ memory.uriRelaxed = memory'.uriRelaxed := by
  constructor
  · intro h
    have hdone : memory.headerDone = false := by
      cases hd : memory.headerDone with
      | false => rfl
      | true => exact absurd (parse_wild hd) (h _).first
    have hdone' : memory'.headerDone = false := by
      cases hd : memory'.headerDone with
      | false => rfl
      | true => exact absurd (parse_wild hd) (h _).second
    exact ⟨hdone, hdone', parse_relaxed hdone hdone' (h _).same⟩
  · rintro ⟨hdone, hdone', hrelaxed⟩ calls
    refine ⟨?_, parse_null hdone calls, parse_null hdone' calls⟩
    rw [parse_queryStart memory 0, parse_queryStart memory' 0, hdone, hdone', hrelaxed]

/-- One memory of zeros, and one with a pointer where `header_done` is: the second parser calls it. -/
theorem memory_called : ¬Unaffected ⟨false, 0, false⟩ ⟨false, 0, true⟩ [bytes "GET / HTTP/1.1\r\n\r\n"] :=
  fun h => h.second (by decide +kernel)

end Megalo
