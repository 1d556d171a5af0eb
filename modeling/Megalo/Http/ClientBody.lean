import Megalo.Http.ClientPrinted

/-!
# What a client makes of a body

`HttpResponse::dump` writes a body at once behind its `content-length`, where the parser expects another header or an
empty line.

- `ClientMachine.Lined`: the states inside the headers are left with an empty line only;
- `body_scanned`: so a parser that finishes has taken the body, or its beginning up to an empty line, for headers, and
  a body that begins with header lines and an empty line is read as these.
-/

namespace Megalo

open MachineInt Overwrite ActionTable.Machine

namespace ClientMachine

/-! ## The end of the headers -/

/-- The states inside the headers. -/
def inHeaders (cs : Nat) : Bool := cs = 3 || (20 ≤ cs && cs ≤ 119)

/-- Of a transition from inside the headers: a line begins behind a line feed, and the headers end at the beginning of
a line. -/
structure Lined (cs : Nat) (cls : CharClass) (g : ActionTable.Goto ClientAction) : Prop where
  goes : .done ∉ g.actions → inHeaders g.target = true
  begins : g.target = 20 ∨ g.target = 43 → cls = one 10
  returns : g.target = 3 → cls = one 13 ∧ (cs = 20 ∨ cs = 43)
  ends : g.target = 120 → cls = one 10 ∧ (cs = 3 ∨ cs = 20 ∨ cs = 43)

instance (cs : Nat) (cls : CharClass) (g : ActionTable.Goto ClientAction) : Decidable (Lined cs cls g) :=
  decidable_of_iff
    ((.done ∉ g.actions → inHeaders g.target = true) ∧ (g.target = 20 ∨ g.target = 43 → cls = one 10) ∧
      (g.target = 3 → cls = one 13 ∧ (cs = 20 ∨ cs = 43)) ∧
      (g.target = 120 → cls = one 10 ∧ (cs = 3 ∨ cs = 20 ∨ cs = 43)))
    ⟨fun ⟨h₁, h₂, h₃, h₄⟩ => ⟨h₁, h₂, h₃, h₄⟩, fun h => ⟨h.goes, h.begins, h.returns, h.ends⟩⟩

theorem machine_lined : ∀ row ∈ table, inHeaders row.1 = true → ∀ e ∈ row.2, Lined row.1 e.1 e.2 := by
  decide +kernel

theorem next_lined {cs : Nat} {c : UInt8} {g : ActionTable.Goto ClientAction} (hcs : inHeaders cs = true)
    (h : next cs c = some g) : ∃ cls, accepts c cls = true ∧ Lined cs cls g := by
  obtain ⟨row, hrow, rfl, e, he, rfl, hacc⟩ := next_mem h
  exact ⟨e.1, hacc, machine_lined row hrow hcs e he⟩

end ClientMachine

/-- Nothing, or whole lines. -/
def BeginsLine (front : List UInt8) : Prop := front = [] ∨ front.getLast? = some 10

/-- The text ends with an empty line, or is one. -/
def EndsEmpty (pre : List UInt8) : Prop :=
  ∃ front, BeginsLine front ∧ (pre = front ++ [10] ∨ pre = front ++ [13, 10])

theorem beginsLine_feed (l : List UInt8) : BeginsLine (l ++ [10]) := .inr List.getLast?_concat

variable {buffer front bs pre rest : List UInt8} {start p cs len : Nat} {s : HttpResponseParser}
  {a : ClientAction} {actions : List ClientAction}

/-- What is true behind the beginning of a text that is scanned from inside the headers on. -/
structure LinesAt (bs : List UInt8) (start : Nat) (rest : List UInt8) (cs p : Nat) (s : HttpResponseParser) :
    Prop where
  split : ∃ pre, bs = pre ++ rest ∧ p = start + pre.length ∧
    (cs = 20 ∨ cs = 43 → BeginsLine pre) ∧ (cs = 3 → ∃ front, BeginsLine front ∧ pre = front ++ [13])
  inside : ClientMachine.inHeaders cs = true
  nread : s.parser.nread = 0

/-- And where the scan ends. -/
structure LinesDone (bs : List UInt8) (start : Nat) (rest : List UInt8) (cs p : Nat) (s : HttpResponseParser) :
    Prop where
  split : ∃ pre, bs = pre ++ rest ∧ p = start + pre.length ∧ (cs = 120 → EndsEmpty pre)
  nread : s.parser.nread = 0

/-- No action writes `nread`. -/
theorem run_nread (buffer : List UInt8) (p : Nat) (a : ClientAction) (s : HttpResponseParser) :
    Yields (fun _ => True) (fun t => t.parser.nread = s.parser.nread) (a.run buffer p s) := by
  cases a with
  | mark | startField | writeField | writeContentLen | writeConnectionClose | chunkSize | transChunked | done => rfl
  | writeValue =>
    simp only [ClientAction.run, onResponseHttpField]
    split
    · rfl
    · cases clientText buffer s.parser.fieldStart s.parser.fieldLen with
      | error e => trivial
      | ok key => cases clientText buffer s.parser.mark (sizeSub p s.parser.mark) <;> trivial
  | reasonPhrase =>
    simp only [ClientAction.run, onResponseReason]
    cases clientText buffer s.parser.mark (sizeSub p s.parser.mark) <;> trivial
  | statusCode =>
    simp only [ClientAction.run, onResponseStatus]
    cases atoi (buffer.drop s.parser.mark) <;> trivial
  | httpVersion =>
    simp only [ClientAction.run, onResponseVersion]
    split
    · rfl
    · split
      · rfl
      · cases clientText buffer s.parser.mark (sizeSub p s.parser.mark) <;> trivial

theorem runActions_nread (buffer : List UInt8) (p : Nat) (actions : List ClientAction) (s : HttpResponseParser) :
    Yields (fun _ => True) (fun t => t.parser.nread = s.parser.nread)
      ((clientMachine buffer).runActions p actions s) := by
  induction actions generalizing s with
  | nil => rfl
  | cons a actions ih => exact (run_nread buffer p a s).bind fun t ht => (ih t).mono fun u hu => hu.trans ht

/-- A step inside the headers. -/
theorem linesAt_more {c : UInt8} {g : ActionTable.Goto ClientAction} (h : LinesAt bs start (c :: rest) cs p s)
    (hg : ClientMachine.next cs c = some g) (hd : g.actions.any (clientMachine buffer).ends = false) :
    Yields (fun _ => True) (LinesAt bs start rest g.target (p + 1))
      ((clientMachine buffer).runActions p g.actions s) := by
  obtain ⟨pre, hbs, hp, hbegins, -⟩ := h.split
  obtain ⟨cls, hacc, hlined⟩ := ClientMachine.next_lined h.inside hg
  have hnot : .done ∉ g.actions := fun hdone => by
    simp only [clientMachine, List.any_eq_false, decide_eq_true_eq] at hd
    exact hd _ hdone rfl
  refine (runActions_nread buffer p g.actions s).mono fun t ht => ⟨⟨pre ++ [c], ?_, ?_, ?_, ?_⟩, hlined.goes hnot, ?_⟩
  · rw [hbs, List.append_assoc, List.singleton_append]
  · rw [hp, List.length_append]
    rfl
  · intro htarget
    obtain rfl := hlined.begins htarget
    rw [(ClientMachine.accepts_one_iff (d := 10)).mp hacc]
    exact beginsLine_feed pre
  · intro htarget
    obtain ⟨rfl, hcs⟩ := hlined.returns htarget
    exact ⟨pre, hbegins hcs, by rw [(ClientMachine.accepts_one_iff (d := 13)).mp hacc]⟩
  · exact ht.trans h.nread

/-- The step that ends them. -/
theorem linesAt_halt {c : UInt8} {g : ActionTable.Goto ClientAction} (h : LinesAt bs start (c :: rest) cs p s)
    (hg : ClientMachine.next cs c = some g) : Yields (fun _ => True) (LinesDone bs start rest g.target (p + 1))
      ((clientMachine buffer).runActions p g.actions s) := by
  obtain ⟨pre, hbs, hp, hbegins, hreturns⟩ := h.split
  obtain ⟨cls, hacc, hlined⟩ := ClientMachine.next_lined h.inside hg
  refine (runActions_nread buffer p g.actions s).mono fun t ht => ⟨⟨pre ++ [c], ?_, ?_, ?_⟩, ht.trans h.nread⟩
  · rw [hbs, List.append_assoc, List.singleton_append]
  · rw [hp, List.length_append]
    rfl
  · intro htarget
    obtain ⟨rfl, hcs⟩ := hlined.ends htarget
    rw [(ClientMachine.accepts_one_iff (d := 10)).mp hacc]
    rcases hcs with hcs | hcs
    · obtain ⟨front, hfront, rfl⟩ := hreturns hcs
      exact ⟨front, hfront, .inr (List.append_assoc _ _ _)⟩
    · exact ⟨pre, hbegins hcs, .inl rfl⟩

/-- A scan from inside the headers. -/
theorem scan_lines (buffer bs : List UInt8) {c : ActionTable.Cursor HttpResponseParser}
    (hcs : c.cs = 20 ∨ c.cs = 43) (hnread : c.self.parser.nread = 0) :
    Yields (fun _ => True) (Ended (LinesAt bs c.p) (LinesDone bs c.p) bs c.p)
      (Scan.scan (clientMachine buffer).step bs c) := by
  refine ActionTable.Machine.scan_ends (fun _ _ _ _ _ _ h hg hd => linesAt_more h hg hd)
    (fun _ _ _ _ _ _ h hg _ => linesAt_halt h hg) ⟨⟨[], rfl, rfl, fun _ => .inl rfl, fun h3 => ?_⟩, ?_, hnread⟩
  · rw [h3] at hcs
    omega
  · rcases hcs with h | h <;> rw [h] <;> rfl

/-! ## A body -/

/-- What the end of a call says of the scan. -/
theorem storeClientScan_inv {r : Scan.Scanned (ActionTable.Cursor HttpResponseParser)} {e : ClientExecuted}
    (h : storeClientScan len r = .ok e) :
    e.self.parser.cs = r.state.cs ∧ e.nread = r.state.self.parser.nread + r.count := by
  unfold storeClientScan at h
  dsimp only at h
  split at h
  · cases h
  · split at h
    · cases h
    · obtain rfl := Except.ok.inj h
      exact ⟨rfl, rfl⟩

theorem cs_of_isFinished (h : s.isFinished = 1) : s.parser.cs = 120 := by
  unfold HttpResponseParser.isFinished at h
  split at h
  · cases h
  · split at h
    · assumption
    · cases h

/-- A call whose scan is inside the headers behind the front of its text finishes behind an empty line only. -/
theorem execute_lines {P Q : Nat → HttpResponseParser → Prop} (memory : HttpClientParser)
    (hs : s.parser = httpclientParserInit memory) (hterm : buffer[len]? = some 0) (hint : len < intLimit)
    (htext : buffer.take len = front ++ bs) (hcs : cs = 20 ∨ cs = 43)
    (hreads : (clientMachine buffer).Reads buffer front 1 P cs Q) (hQ : ∀ p t, Q p t → t.parser.nread = 0) (hP : P 0 s)
    {r : ClientExecuted × List UInt8} (hr : s.execute buffer len false = .ok r) (hfinished : r.1.self.isFinished = 1) :
    ∃ pre left, bs = pre ++ left ∧ EndsEmpty pre ∧ r.1.nread = front.length + pre.length ∧
      r.2.take left.length = left := by
  have hlen : len < buffer.length := (List.getElem?_eq_some_iff.mp hterm).1
  obtain ⟨c, hc, hp, hheld, hbehind⟩ := scan_behind hlen htext hreads hP
  have hscan := scan_lines buffer bs (hc ▸ hcs) (hQ _ _ hheld)
  rw [HttpResponseParser.execute, show s.restart false = s from rfl,
    httpclientParserExecute_start memory hs hterm hint, hbehind] at hr
  cases hbody : Scan.scan (clientMachine buffer).step bs c with
  | error e =>
    rw [hbody] at hr
    cases hr
  | ok q =>
    rw [hbody] at hr hscan
    replace hr : (storeClientScan len (q.later front.length)).map _ = .ok r := hr
    cases hstore : storeClientScan len (q.later front.length) with
    | error e =>
      rw [hstore] at hr
      cases hr
    | ok e =>
      rw [hstore] at hr
      obtain rfl := Except.ok.inj hr
      obtain ⟨hstate, hnread⟩ := storeClientScan_inv hstore
      have h120 : q.state.cs = 120 := hstate.symm.trans (cs_of_isFinished hfinished)
      have hended : Ended (LinesAt bs c.p) (LinesDone bs c.p) bs c.p q := hscan
      cases hended with
      | @more cs' t h =>
        obtain rfl : cs' = 120 := h120
        cases h.inside
      | reject hbs h => cases h120
      | @halt front' left cs' t hbs h =>
        obtain ⟨pre, hsplit, hplace, hempty⟩ := h.split
        have hpre : pre = front' := List.append_cancel_right (hsplit.symm.trans hbs)
        have hnone : t.parser.nread = 0 := h.nread
        have hcount : e.nread = front.length + pre.length := by
          simp only [Scan.Scanned.later, hnone] at hnread
          rw [hnread, hpre, Nat.zero_add, Nat.add_comm]
        have hlength := congrArg List.length htext
        rw [hsplit, List.length_take, Nat.min_eq_left hlen.le, List.length_append, List.length_append] at hlength
        have hmoves := left_moves (n := e.nread) (by omega) hlen.le
        have hdrop : (buffer.take len).drop e.nread = left := by
          rw [htext, hsplit, hcount, ← List.append_assoc, ← List.length_append, List.drop_left]
        rw [hdrop, show len - e.nread = left.length by omega] at hmoves
        exact ⟨pre, left, hsplit, hempty h120, hcount, hmoves⟩

/-! ## Responses with a body -/

/-- The header that is written for a body. -/
def Response.lengthHeader (rsp : Response) : Header := (bytes "content-length", decimal rsp.body.length)

/-- The parser has the status line, and these headers. -/
structure Response.ReadAs (rsp : Response) (es : List Header) (s : HttpResponseParser) : Prop where
  version : s.data.version = rsp.version
  status : s.data.status = rsp.status
  reason : s.data.reason = rsp.reasonText
  headers : s.data.headers = HeaderMap.sets [] es
  contentLen : s.parser.contentLen = lastLength (-1) es
  chunked : s.parser.chunked = es.any Header.isChunked
  close : s.parser.close = es.any Header.isClose

theorem Response.headText_append (rsp : Response) (es es' : List Header) : rsp.headText (es ++ es') =
    rsp.headText es ++ es'.flatMap fun e => HttpMessage.headerLine e.1 e.2 ++ crlf := by
  simp [Response.headText, List.flatMap_append]

theorem Response.dump_body {rsp : Response} (hbody : rsp.body ≠ []) :
    rsp.dump = rsp.headText (rsp.lines ++ [rsp.lengthHeader]) ++ rsp.body := by
  rw [Response.dump_lines, HttpMessage.dumpBody, if_pos hbody, Response.headText_append]
  simp [Response.lengthHeader, HttpMessage.contentLength]

theorem Response.lengthHeader_printable (rsp : Response) : rsp.lengthHeader.Printable where
  name := (by decide : bytes "content-length" ≠ [])
  token := (by decide +kernel : ∀ c ∈ bytes "content-length", Grammar.isToken c = true)
  value := noBreak_decimal _
  blank c hc := by
    have hdigit := isDigitIn_decimal c (List.mem_of_head? hc)
    have hblank : ∀ c, isDigitIn 10 c = true → ClientMachine.accepts c ClientMachine.blank = false :=
      Machine.forall_byte (by decide +kernel)
    exact hblank c hdigit
  filled h := absurd h (digits_ne_nil 10 _)

/-- **A body is read as headers.** A parser that finishes on the text of a response with a body has taken at least the
part of it up to an empty line; and header lines with an empty line at the beginning of a body are headers then, behind
those of the response. -/
theorem body_scanned {rsp : Response} (hrsp : ({ rsp with body := [] } : Response).Printable) (hbody : rsp.body ≠ [])
    (memory : HttpClientParser) (hterm : buffer[len]? = some 0) (hint : len < intLimit)
    (htext : buffer.take len = rsp.dump ++ rest) :
    (∀ r, (HttpResponseParser.new memory).execute buffer len false = .ok r → r.1.self.isFinished = 1 →
      ∃ pre left, rsp.body ++ rest = pre ++ left ∧ EndsEmpty pre ∧
        r.1.nread = rsp.dump.length - rsp.body.length + pre.length ∧ r.2.take left.length = left) ∧
    ∀ es left, (∀ e ∈ es, e.Printable) →
      rsp.body ++ rest = (es.flatMap fun e => HttpMessage.headerLine e.1 e.2 ++ crlf) ++ crlf ++ left →
      ∃ r, (HttpResponseParser.new memory).execute buffer len false = .ok r ∧
        ClientFinished (len - left.length) left r ∧ rsp.ReadAs (rsp.lines ++ rsp.lengthHeader :: es) r.1.self := by
  let s := HttpResponseParser.new memory
  have hlines : ∀ es : List Header, (∀ e ∈ es, e.Printable) →
      ∀ e ∈ rsp.lines ++ rsp.lengthHeader :: es, e.Printable := by
    intro es hes e he
    rcases List.mem_append.mp he with he | he
    · exact hrsp.lines e he
    · rcases List.mem_cons.mp he with rfl | he
      · exact rsp.lengthHeader_printable
      · exact hes e he
  have hfront : buffer.take len = rsp.headText (rsp.lines ++ [rsp.lengthHeader]) ++ (rsp.body ++ rest) := by
    rw [htext, Response.dump_body hbody, List.append_assoc]
  constructor
  · intro r hr hfinished
    have hreads := hrsp.reads_head buffer s.head (hlines [] nofun)
    have hstate : ∀ pending, ClientMachine.lineState pending = 20 ∨ ClientMachine.lineState pending = 43 := by decide
    obtain ⟨pre, left, hsplit, hempty, hnread, hleft⟩ := execute_lines memory rfl hterm hint hfront (hstate _) hreads
      (fun _ _ h => h.nread) ⟨rfl, rfl, rfl⟩ hr hfinished
    refine ⟨pre, left, hsplit, hempty, ?_, hleft⟩
    rw [hnread, Response.dump_body hbody, List.length_append, Nat.add_sub_cancel]
  · intro es left hes hleft
    have hreads := (hrsp.reads_head buffer s.head (hlines es hes)).append reads_return
    rw [ClientHead.started_noted] at hreads
    have htext' : buffer.take len = (rsp.headText (rsp.lines ++ rsp.lengthHeader :: es) ++ [13]) ++ 10 :: left := by
      rw [hfront, hleft, ← List.singleton_append (l := es), ← List.append_assoc rsp.lines,
        Response.headText_append _ _ es]
      simp [crlf]
    obtain ⟨r, hexec, hhead, hfinished⟩ :=
      execute_done (s := s) false memory rfl hterm hint htext' hreads ⟨rfl, rfl, rfl⟩
    have hdata : r.1.self.data = _ := congrArg ClientHead.data hhead
    have hcount : len - left.length = (rsp.headText (rsp.lines ++ rsp.lengthHeader :: es) ++ [13]).length + 1 := by
      have hlen : len < buffer.length := (List.getElem?_eq_some_iff.mp hterm).1
      have hlength := congrArg List.length htext'
      rw [List.length_take, Nat.min_eq_left hlen.le, List.length_append, List.length_cons] at hlength
      omega
    rw [hcount]
    exact ⟨r, hexec, hfinished, congrArg HttpResponse.version hdata, congrArg HttpResponse.status hdata,
      congrArg HttpResponse.reason hdata, congrArg HttpResponse.headers hdata, congrArg ClientHead.contentLen hhead,
      congrArg ClientHead.chunked hhead, congrArg ClientHead.close hhead⟩

/-- A page that begins with a header. -/
def forgedPage : Response where
  version := 0x11
  close := true
  websocket := false
  body := bytes "Set-Cookie: a=1\r\n\r\nhi"
  headers := []
  status := 200
  reason := []
  cookies := []

theorem body_scanned_forged :
    let text := forgedPage.dump
    let memory : HttpClientParser := ⟨0, 0, 0, 0, false, false, false, 0, 0, 0, 0⟩
    ∃ r, (HttpResponseParser.new memory).execute (text ++ [0]) text.length false = .ok r ∧
      ClientFinished (text.length - 2) (bytes "hi") r ∧
      forgedPage.ReadAs (forgedPage.lines ++ [forgedPage.lengthHeader, (bytes "Set-Cookie", bytes "a=1")])
        r.1.self := by
  have hforged : ∀ e ∈ [(bytes "Set-Cookie", bytes "a=1")], Header.Printable e := by
    intro e he
    obtain rfl := List.mem_singleton.mp he
    exact ⟨by decide, by decide +kernel, by decide, by decide +kernel, by decide⟩
  have hprintable : ({ forgedPage with body := [] } : Response).Printable :=
    ⟨.inr rfl, by decide, by decide, rfl, List.forall_mem_nil _, List.forall_mem_nil _⟩
  exact (body_scanned hprintable (by decide) _ (by decide +kernel) (by decide +kernel)
    (by decide +kernel : _ = forgedPage.dump ++ [])).2 _ (bytes "hi") hforged (by decide +kernel)

end Megalo
