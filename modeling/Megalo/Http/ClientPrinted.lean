import Megalo.Http.ClientLines
import Megalo.Http.ClientSafe

/-!
# Parsing what `HttpResponse::dump` writes

- `execute_done`: a text that is read as far as the state in front of its last line feed finishes the scan there;
- `reads_client_version`, `reads_status`, `reads_reason` and `ClientMachine.reads_headers` are the parts of the text;
- `Response.Printable` is what the texts of a response must be, and `response_reproduced` that a new parser has the
  response then (`Response.Reproduced`): of headers with one name, the last, so that of the cookies one is left.
-/

namespace Megalo

open MachineInt Overwrite ActionTable.Machine

variable {buffer head rest : List UInt8} {len p : Nat} {h : ClientHead} {s : HttpResponseParser}

/-! ## The end of a head -/

/-- The last line feed. -/
theorem scan_feed {c : ActionTable.Cursor HttpResponseParser} (hcs : c.cs = 3) (rest : List UInt8) :
    Scan.scan (clientMachine buffer).step (10 :: rest) c =
      .ok ⟨⟨120, c.p + 1, { c.self with parser := { c.self.parser with bodyStart := c.p + 1 } }⟩, 1, .halt⟩ := by
  obtain ⟨_, p, s⟩ := c
  obtain rfl : _ = 3 := hcs
  have hfeed : (clientMachine buffer).next 3 10 = some ⟨[.done], 120⟩ :=
    (by decide : ClientMachine.next 3 10 = some ⟨[.done], 120⟩)
  exact Scan.scan_cons_halt (ActionTable.Machine.step_halt hfeed rfl rfl)

/-- A call that finished behind `n` characters, without an error; what is behind them moved to the front. -/
structure ClientFinished (n : Nat) (rest : List UInt8) (r : ClientExecuted × List UInt8) : Prop where
  hasError : r.1.self.hasError = false
  isFinished : r.1.self.isFinished = 1
  nread : r.1.nread = n
  bodyStart : r.1.self.parser.bodyStart = n
  left : r.2.take rest.length = rest

/-- A scan that has read the front of a text goes on behind it. -/
theorem scan_behind {P Q : Nat → HttpResponseParser → Prop} {cs : Nat} (hlen : len < buffer.length)
    (htext : buffer.take len = head ++ rest) (hreads : (clientMachine buffer).Reads buffer head 1 P cs Q)
    (hP : P 0 s) : ∃ c : ActionTable.Cursor HttpResponseParser, c.cs = cs ∧ c.p = head.length ∧ Q c.p c.self ∧
      Scan.scan (clientMachine buffer).step (buffer.take len) ⟨1, 0, s⟩ =
        (Scan.scan (clientMachine buffer).step rest c).map fun r => r.later head.length := by
  have hbuffer : buffer = head ++ (rest ++ buffer.drop len) := by
    rw [← List.append_assoc, ← htext, List.take_append_drop]
  obtain ⟨c, hpass, hahead, hcs, hQ⟩ := hreads (rest ++ buffer.drop len) ⟨1, 0, s⟩
    ⟨by rw [List.drop_zero]; exact hbuffer, rfl, hP⟩
  refine ⟨c, hcs, ?_, hQ, ?_⟩
  · have h₁ := congrArg List.length hahead
    have h₂ := congrArg List.length hbuffer
    simp only [List.length_drop, List.length_append] at h₁ h₂
    omega
  · rw [htext]
    exact Scan.scan_append_more hpass

/-- A text that is read as far as its last line feed. -/
theorem httpclientParserExecute_done {P : Nat → HttpResponseParser → Prop} (memory : HttpClientParser)
    (hs : s.parser = httpclientParserInit memory) (hterm : buffer[len]? = some 0) (hint : len < intLimit)
    (htext : buffer.take len = head ++ 10 :: rest)
    (hreads : (clientMachine buffer).Reads buffer head 1 P 3 fun _ s => ClientHeld h s) (hP : P 0 s) :
    ∃ e, httpclientParserExecute buffer len s = .ok e ∧ e.self.head = h ∧ e.self.hasError = false ∧
      e.self.isFinished = 1 ∧ e.nread = head.length + 1 ∧ e.self.parser.bodyStart = head.length + 1 := by
  have hlen : len < buffer.length := (List.getElem?_eq_some_iff.mp hterm).1
  obtain ⟨c, hcs, hp, hheld, hbehind⟩ := scan_behind hlen htext hreads hP
  have hcount : head.length + 1 ≤ len := by
    have hlength := congrArg List.length htext
    simp only [List.length_take, List.length_append, List.length_cons] at hlength
    omega
  have hscan : Scan.scan (clientMachine buffer).step (buffer.take len) ⟨1, 0, s⟩ =
      .ok ⟨⟨120, c.p + 1, { c.self with parser := { c.self.parser with bodyStart := c.p + 1 } }⟩, head.length + 1,
        .halt⟩ := by
    rw [hbehind, scan_feed hcs]
    simp [Except.map, Scan.Scanned.later, Nat.add_comm]
  have hexec : httpclientParserExecute buffer len s =
      storeClientScan len ⟨⟨120, c.p + 1, { c.self with parser := { c.self.parser with bodyStart := c.p + 1 } }⟩,
        head.length + 1, .halt⟩ := by
    rw [httpclientParserExecute_start memory hs hterm hint, hscan]
    rfl
  have hstore := storeClientScan_eq len
    (r := ⟨⟨120, c.p + 1, { c.self with parser := { c.self.parser with bodyStart := c.p + 1 } }⟩, head.length + 1,
      .halt⟩)
    (by simp only [hheld.nread]; omega) (by simp only; omega)
  refine ⟨_, hexec.trans hstore, hheld.head, ?_, rfl, ?_, ?_⟩
  · rw [HttpResponseParser.hasError, hheld.error]
    rfl
  · simp only [ClientExecuted.nread, hheld.nread, Nat.zero_add]
  · simp only [hp]

/-- A call of `execute` that starts the scanner on it. -/
theorem execute_done {P : Nat → HttpResponseParser → Prop} (chunck : Bool) (memory : HttpClientParser)
    (hs : (s.restart chunck).parser = httpclientParserInit memory) (hterm : buffer[len]? = some 0)
    (hint : len < intLimit) (htext : buffer.take len = head ++ 10 :: rest)
    (hreads : (clientMachine buffer).Reads buffer head 1 P 3 fun _ s => ClientHeld h s) (hP : P 0 (s.restart chunck)) :
    ∃ r, s.execute buffer len chunck = .ok r ∧ r.1.self.head = h ∧ ClientFinished (head.length + 1) rest r := by
  have hlen : len < buffer.length := (List.getElem?_eq_some_iff.mp hterm).1
  obtain ⟨e, hexec, hhead, herror, hfinished, hnread, hbody⟩ :=
    httpclientParserExecute_done memory hs hterm hint htext hreads hP
  have hcount : len = e.nread + rest.length := by
    have hlength := congrArg List.length htext
    simp only [List.length_take, List.length_append, List.length_cons] at hlength
    omega
  have hleft := left_moves (Nat.le.intro hcount.symm) hlen.le
  have hrest : len - e.nread = rest.length := by omega
  have hdrop : (buffer.take len).drop e.nread = rest := by
    rw [htext, hnread, ← List.drop_drop, List.drop_left, List.drop_succ_cons, List.drop_zero]
  rw [hrest, hdrop] at hleft
  refine ⟨(e, overwrite buffer 0 (slice buffer e.nread (sizeSub len e.nread))), ?_, hhead, herror, hfinished, hnread,
    hbody, hleft⟩
  rw [HttpResponseParser.execute, hexec]
  rfl

/-! ## The status line -/

theorem versions_client : ∀ e ∈ versions, enters ClientMachine.next [.mark] (bytes e.2) 1 = some 15 ∧
    ClientMachine.next 15 32 = some ⟨[.httpVersion], 16⟩ := by
  decide +kernel

theorem reads_client_version {e : UInt8 × String} (he : e ∈ versions) :
    (clientMachine buffer).Reads buffer (bytes e.2 ++ [32]) 1 (fun _ s => ClientHeld h s) 16
      (fun _ s => ClientHeld { h with data := { h.data with version := e.1 } } s) := by
  obtain ⟨-, hlen, h11, h10, hv⟩ := versions_known e he
  obtain ⟨henters, hnext⟩ := versions_client e he
  refine ActionTable.Machine.reads_word henters hnext rfl rfl fun p s rest hs hahead => ?_
  let marked : HttpResponseParser := { s with parser := { s.parser with mark := p } }
  have hcmp : ∀ literal, strncmpEq (buffer.drop p) literal 8 = strncmpEq (bytes e.2) literal 8 := by
    intro literal
    rw [hahead, strncmpEq_append _ _ _ hlen.ge]
  have hsize : sizeSub (p + (bytes e.2).length) p = 8 := (sizeSub_add p _).trans hlen
  have hrun : ClientAction.run buffer (p + (bytes e.2).length) .httpVersion marked =
      .ok { marked with data := { marked.data with version := e.1 } } := by
    simp only [ClientAction.run, marked, onResponseVersion, hsize, hcmp, h11, h10]
    rcases hv with hv | hv
    · simp [hv, pure, Except.pure]
    · simp [hv, pure, Except.pure]
  refine ⟨marked, _, rfl, congrArg (Except.bind · _) hrun, ?_, hs.error, hs.nread⟩
  rw [← hs.head]
  rfl

theorem decimal_client : ∀ c, isDigitIn 10 c = true →
    ClientMachine.next 16 c = some ⟨[.mark], 17⟩ ∧ ClientMachine.next 17 c = some ⟨[], 17⟩ :=
  Machine.forall_byte (by decide +kernel)

theorem isDigitIn_decimal {n : Nat} : ∀ c ∈ decimal n, isDigitIn 10 c = true := by
  intro c hc
  obtain ⟨d, hd, rfl⟩ := mem_digits (by decide : 1 < 10) hc
  have hx := xdigitValue_digitByte (d := d) (by omega)
  simp [isDigitIn, hx.1, hx.2, hd]

/-- A number that is an `int` is read back. -/
theorem strtol_decimal {n : Nat} (hn : n < intLimit) (rest : List UInt8) : strtol 10 (decimal n ++ 32 :: rest) = n := by
  have hvalue : digitsValue 10 (decimal n) = n := digitsValue_digits (by decide) (by decide) n
  unfold intLimit at hn
  rw [strtol_digits isDigitIn_decimal (digits_ne_nil 10 n), hvalue]
  · omega
  · intro c hc
    obtain rfl := Option.some.inj hc
    decide

theorem longToInt_of_lt {n : Nat} (hn : n < intLimit) : longToInt n = n := intSize_of_lt hn

theorem reads_status {n : Nat} (hn : n < intLimit) :
    (clientMachine buffer).Reads buffer (decimal n ++ [32]) 16 (fun _ s => ClientHeld h s) 18
      (fun _ s => ClientHeld { h with data := { h.data with status := n }, status := n } s) := by
  have henters : enters (clientMachine buffer).next [.mark] (decimal n) 16 = some 17 := by
    have hdigits := isDigitIn_decimal (n := n)
    cases hcs : decimal n with
    | nil => exact absurd hcs (digits_ne_nil 10 n)
    | cons c cs =>
      rw [hcs] at hdigits
      rw [enters_cons (decimal_client c (hdigits c List.mem_cons_self)).1]
      exact quiet_stays fun c' hc' => (decimal_client c' (hdigits c' (List.mem_cons_of_mem _ hc'))).2
  have hnext : (clientMachine buffer).next 17 32 = some ⟨[.statusCode], 18⟩ :=
    (by decide : ClientMachine.next 17 32 = some ⟨[.statusCode], 18⟩)
  refine ActionTable.Machine.reads_word henters hnext rfl rfl fun p s rest hs hahead => ?_
  let marked : HttpResponseParser := { s with parser := { s.parser with mark := p } }
  have hatoi : atoi (decimal n ++ 32 :: rest) = some (n : Int) := by
    have hint := hn
    unfold intLimit at hint
    rw [atoi, strtol_decimal hn, if_pos (by omega)]
  have hrun : ClientAction.run buffer (p + (decimal n).length) .statusCode marked =
      .ok { marked with data := { marked.data with status := n }, parser := { marked.parser with status := n } } := by
    simp only [ClientAction.run, onResponseStatus, marked, hahead, hatoi, strtol_decimal hn, longToInt_of_lt hn]
  refine ⟨marked, _, rfl, congrArg (Except.bind · _) hrun, ?_, hs.error, hs.nread⟩
  rw [← hs.head]
  rfl

theorem reason_client : ∀ c, ClientMachine.inLine c = true →
    ClientMachine.next 18 c = some ⟨[.mark], 19⟩ ∧ ClientMachine.next 19 c = some ⟨[], 19⟩ :=
  Machine.forall_byte (by decide +kernel)

theorem NoBreak.inLine {l : List UInt8} (hl : NoBreak l) : ∀ c ∈ l, ClientMachine.inLine c = true := by
  intro c hc
  have hbreak : c ≠ 10 ∧ c ≠ 13 := ⟨fun h0 => hl.2 (h0 ▸ hc), fun h0 => hl.1 (h0 ▸ hc)⟩
  simp [ClientMachine.inLine, hbreak.1, hbreak.2]

theorem reads_reason {reason : List UInt8} (hne : reason ≠ []) (hreason : NoBreak reason) :
    (clientMachine buffer).Reads buffer (reason ++ crlf) 18 (fun _ s => ClientHeld h s) 20
      (fun _ s => ClientHeld { h with data := { h.data with reason } } s) := by
  have henters : enters (clientMachine buffer).next [.mark] reason 18 = some 19 := by
    have hline := hreason.inLine
    cases reason with
    | nil => exact absurd rfl hne
    | cons c reason =>
      rw [enters_cons (reason_client c (hline c List.mem_cons_self)).1]
      exact quiet_stays fun c' hc' => (reason_client c' (hline c' (List.mem_cons_of_mem _ hc'))).2
  have hends : ClientMachine.next 19 13 = some ⟨[.reasonPhrase], 24⟩ ∧
      ClientMachine.next 24 10 = some ⟨[], 20⟩ := by decide
  have hline : (clientMachine buffer).Reads buffer (reason ++ [13]) 18 (fun _ s => ClientHeld h s) 24
      (fun _ s => ClientHeld { h with data := { h.data with reason } } s) := by
    refine ActionTable.Machine.reads_word henters hends.1 rfl rfl fun p s rest hs hahead => ?_
    let marked : HttpResponseParser := { s with parser := { s.parser with mark := p } }
    have hrun : ClientAction.run buffer (p + reason.length) .reasonPhrase marked =
        .ok { marked with data := { marked.data with reason } } := by
      simp only [ClientAction.run, marked, onResponseReason, sizeSub_add, clientText_ahead hahead]
      rfl
    refine ⟨marked, _, rfl, congrArg (Except.bind · _) hrun, ?_, hs.error, hs.nread⟩
    rw [← hs.head]
    rfl
  rw [crlf, show reason ++ [13, 10] = (reason ++ [13]) ++ [10] by simp]
  exact hline.append (ActionTable.Machine.reads_char hends.2 rfl fun p s rest hs _ => ⟨s, rfl, hs⟩)

/-! ## The headers -/

/-- The parser behind headers, and whether a `connection` is not noted yet. -/
def ClientHead.fields : ClientHead → Bool → List Header → ClientHead × Bool
  | h, pending, [] => (h, pending)
  | h, pending, e :: es => ((h.noted pending).field e).fields e.isClose es

theorem ClientMachine.reads_headers {es : List Header} (buffer : List UInt8) (h : ClientHead) (pending : Bool)
    (hes : ∀ e ∈ es, e.Printable) :
    (clientMachine buffer).Reads buffer (es.flatMap fun e => HttpMessage.headerLine e.1 e.2 ++ crlf)
      (ClientMachine.lineState pending) (fun _ s => ClientHeld h s)
      (ClientMachine.lineState (h.fields pending es).2) (fun _ s => ClientHeld (h.fields pending es).1 s) := by
  induction es generalizing h pending with
  | nil => exact .nil
  | cons e es ih =>
    rw [List.flatMap_cons]
    exact (ClientMachine.reads_header (hes e List.mem_cons_self)).append
      (ih _ _ fun e' he' => hes e' (List.mem_cons_of_mem _ he'))

/-- The number of the last `content-length`. -/
def lastLength (n : Int) (es : List Header) : Int :=
  es.foldl (fun n e => if e.isNumber then longToInt (strtol 10 e.2) else n) n

/-- What headers make of a response. -/
theorem ClientHead.fields_noted (h : ClientHead) (pending : Bool) (es : List Header) :
    (h.fields pending es).1.noted (h.fields pending es).2 =
      { h with
        data := { h.data with headers := h.data.headers.sets es }
        contentLen := lastLength h.contentLen es
        chunked := h.chunked || es.any Header.isChunked
        close := h.close || pending || es.any Header.isClose } := by
  induction es generalizing h pending with
  | nil => simp [ClientHead.fields, noted, HeaderMap.sets, lastLength]
  | cons e es ih =>
    rw [ClientHead.fields, ih]
    simp [field, stored, noted, HeaderMap.sets, lastLength, Bool.or_assoc]

/-- The carriage return in front of the last line feed. -/
theorem reads_return {pending : Bool} : (clientMachine buffer).Reads buffer [13] (ClientMachine.lineState pending)
    (fun _ s => ClientHeld h s) 3 (fun _ s => ClientHeld (h.noted pending) s) := by
  have hnext : ∀ pending, ClientMachine.next (ClientMachine.lineState pending) 13 =
      some ⟨ClientMachine.lineActions pending, 3⟩ := by decide
  refine ActionTable.Machine.reads_char (hnext pending) ?_ fun p s rest hs _ => ?_
  · cases pending <;> rfl
  · obtain ⟨rfl, herror, hnread⟩ := hs
    cases pending with
    | false => exact ⟨s, rfl, by simp [HttpResponseParser.head, ClientHead.noted], herror, hnread⟩
    | true =>
      refine ⟨_, rfl, ?_, herror, hnread⟩
      simp [HttpResponseParser.head, ClientHead.noted]

/-! ## Round trip -/

/-- The headers that `HttpResponse::dump` writes, in their order. -/
def Response.lines (rsp : Response) : List Header :=
  rsp.headers.filter rsp.keeps ++ (rsp.cookies.map fun c => (bytes "Set-Cookie", c)) ++
    if rsp.websocket then [] else [(bytes "connection", bytes (if rsp.close then "close" else "keep-alive"))]

/-- The reason that it writes. -/
def Response.reasonText (rsp : Response) : List UInt8 :=
  if rsp.reason = [] then httpStatusToString rsp.status else rsp.reason

/-- A response without a body, in the words that the parser knows. -/
structure Response.Printable (rsp : Response) : Prop where
  version : rsp.version = 0x10 ∨ rsp.version = 0x11
  status : rsp.status < intLimit
  reason : NoBreak rsp.reason
  body : rsp.body = []
  headers : ∀ e ∈ rsp.headers, Header.Printable e
  cookies : ∀ c ∈ rsp.cookies, Header.Printable (bytes "Set-Cookie", c)

/-- What the parser has of the response. -/
structure Response.Reproduced (rsp : Response) (s : HttpResponseParser) : Prop where
  version : s.data.version = rsp.version
  status : s.data.status = rsp.status
  code : s.parser.status = rsp.status
  reason : s.data.reason = rsp.reasonText
  headers : s.data.headers = HeaderMap.sets [] rsp.lines
  contentLen : s.parser.contentLen = lastLength (-1) rsp.lines
  chunked : s.parser.chunked = rsp.lines.any Header.isChunked
  close : s.parser.close = if rsp.websocket then rsp.headers.any Header.isClose else rsp.close

theorem Response.Printable.lines {rsp : Response} (h : rsp.Printable) : ∀ e ∈ rsp.lines, e.Printable := by
  intro e he
  rcases List.mem_append.mp he with he | he
  · rcases List.mem_append.mp he with he | he
    · exact h.headers e (List.mem_of_mem_filter he)
    · obtain ⟨c, hc, rfl⟩ := List.mem_map.mp he
      exact h.cookies c hc
  · split at he
    · cases he
    · obtain rfl := List.mem_singleton.mp he
      cases rsp.close <;> exact ⟨by decide, by decide +kernel, by decide, by decide +kernel, by decide⟩

/-- What is written for the flag is what is read. -/
theorem Response.lines_close (rsp : Response) : rsp.lines.any Header.isClose =
    if rsp.websocket then rsp.headers.any Header.isClose else rsp.close := by
  have hcookies : (rsp.cookies.map fun c => (bytes "Set-Cookie", c)).any Header.isClose = false := by
    refine List.any_eq_false.mpr fun e he => ?_
    obtain ⟨c, -, rfl⟩ := List.mem_map.mp he
    have hname : (bytes "Set-Cookie").map toLower ≠ bytes "connection" := by decide
    simp [Header.isClose, hname]
  rw [Response.lines, List.any_append, List.any_append, hcookies, Bool.or_false]
  cases hw : rsp.websocket with
  | true =>
    have hkeeps : rsp.headers.filter rsp.keeps = rsp.headers := List.filter_eq_self.mpr fun e _ => by
      simp [HttpMessage.keeps, hw]
    simp [hkeeps]
  | false =>
    -- no other `connection` is written
    have hnone : (rsp.headers.filter rsp.keeps).any Header.isClose = false := by
      refine List.any_eq_false.mpr fun e he hclose => ?_
      obtain ⟨hmem, hkept⟩ := List.mem_filter.mp he
      have hname : e.1.map toLower = bytes "connection" := by
        rw [Header.isClose, Bool.and_eq_true] at hclose
        exact of_decide_eq_true hclose.1
      have hnul : 0 ∉ e.1 := fun h0 => by
        have h0' : (0 : UInt8) ∈ e.1.map toLower := List.mem_map.mpr ⟨0, h0, rfl⟩
        rw [hname] at h0'
        exact absurd h0' (by decide)
      have hfold : foldCase e.1 = foldCase (bytes "connection") := by
        rw [foldCase_of_noNul hnul]
        have hmap := congrArg (List.map UInt8.toNat) hname
        rw [List.map_map] at hmap
        exact hmap
      rw [HttpMessage.keeps, hw, (strcasecmpEq_iff _ _).mpr hfold] at hkept
      cases hkept
    rw [hnone]
    cases rsp.close <;> rfl

/-- A head with these headers, as far as the empty line. -/
def Response.headText (rsp : Response) (es : List Header) : List UInt8 :=
  (rsp.dumpVersion ++ [32]) ++ ((decimal rsp.status ++ [32]) ++ ((rsp.reasonText ++ crlf) ++
    es.flatMap fun e => HttpMessage.headerLine e.1 e.2 ++ crlf))

theorem Response.dump_lines (rsp : Response) : rsp.dump = rsp.headText rsp.lines ++ rsp.dumpBody := by
  have hblank : bytes " " = [32] := by decide
  have hconnection : rsp.dumpConnection = (if rsp.websocket then [] else
      [(bytes "connection", bytes (if rsp.close then "close" else "keep-alive"))]).flatMap fun e : Header =>
        HttpMessage.headerLine e.1 e.2 ++ crlf := by
    unfold HttpMessage.dumpConnection
    cases rsp.websocket <;> simp
  have hheaders : rsp.dumpHeaders =
      (rsp.headers.filter rsp.keeps).flatMap fun e => HttpMessage.headerLine e.1 e.2 ++ crlf := rfl
  rw [Response.dump, hblank, hconnection, hheaders]
  simp [Response.headText, Response.lines, Response.reasonText, crlf, List.flatMap_append, List.flatMap_map]

theorem status_ne_nil (n : Nat) : httpStatusToString n ≠ [] := by
  have hmap : ∀ e ∈ httpStatusMap, bytes e.2 ≠ [] := by decide +kernel
  rw [httpStatusToString]
  cases hn : httpStatusMap.lookup n with
  | none => decide
  | some text =>
    obtain ⟨l₁, l₂, hsplit, -⟩ := List.lookup_eq_some_iff.mp hn
    exact hmap (n, text) (by rw [hsplit]; exact List.mem_append_right _ List.mem_cons_self)

/-- The status line is read. -/
def ClientHead.started (h : ClientHead) (rsp : Response) : ClientHead :=
  { h with
    data := { h.data with version := rsp.version, status := rsp.status, reason := rsp.reasonText }
    status := rsp.status }

/-- A head is read as far as the empty line. -/
theorem Response.Printable.reads_head {rsp : Response} (hrsp : rsp.Printable) (buffer : List UInt8) (h : ClientHead)
    {es : List Header} (hes : ∀ e ∈ es, e.Printable) :
    (clientMachine buffer).Reads buffer (rsp.headText es) 1 (fun _ s => ClientHeld h s)
      (ClientMachine.lineState ((h.started rsp).fields false es).2)
      (fun _ s => ClientHeld ((h.started rsp).fields false es).1 s) := by
  obtain ⟨e, he, hversion, htext⟩ : ∃ e ∈ versions, e.1 = rsp.version ∧ rsp.dumpVersion = bytes e.2 := by
    unfold HttpMessage.dumpVersion
    rcases hrsp.version with hv | hv
    · exact ⟨(0x10, "HTTP/1.0"), .head _, hv.symm, by rw [hv]; decide⟩
    · exact ⟨(0x11, "HTTP/1.1"), .tail _ (.head _), hv.symm, by rw [hv]; decide⟩
  have hreason : rsp.reasonText ≠ [] ∧ NoBreak rsp.reasonText := by
    rw [Response.reasonText]
    split
    · exact ⟨status_ne_nil rsp.status, noBreak_status rsp.status⟩
    · exact ⟨by assumption, hrsp.reason⟩
  let h₁ : ClientHead := { h with data := { h.data with version := e.1 } }
  let h₂ : ClientHead := { h₁ with data := { h₁.data with status := rsp.status }, status := rsp.status }
  have hversion' : (clientMachine buffer).Reads buffer (bytes e.2 ++ [32]) 1 (fun _ s => ClientHeld h s) 16
      (fun _ s => ClientHeld h₁ s) := reads_client_version he
  have hstatus : (clientMachine buffer).Reads buffer (decimal rsp.status ++ [32]) 16 (fun _ s => ClientHeld h₁ s) 18
      (fun _ s => ClientHeld h₂ s) := reads_status hrsp.status
  have hline : (clientMachine buffer).Reads buffer (rsp.reasonText ++ crlf) 18 (fun _ s => ClientHeld h₂ s) 20
      (fun _ s => ClientHeld (h.started rsp) s) := by
    have hstarted : h.started rsp = { h₂ with data := { h₂.data with reason := rsp.reasonText } } := by
      rw [ClientHead.started, ← hversion]
    rw [hstarted]
    exact reads_reason hreason.1 hreason.2
  rw [Response.headText, htext]
  exact hversion'.append (hstatus.append (hline.append (ClientMachine.reads_headers buffer _ false hes)))

/-- A head that is read with its empty line. -/
theorem ClientHead.started_noted (h : ClientHead) (rsp : Response) (es : List Header) :
    ((h.started rsp).fields false es).1.noted ((h.started rsp).fields false es).2 =
      { h with
        data := { version := rsp.version, status := rsp.status, reason := rsp.reasonText
                  headers := h.data.headers.sets es }
        status := rsp.status
        contentLen := lastLength h.contentLen es
        chunked := h.chunked || es.any Header.isChunked
        close := h.close || es.any Header.isClose } := by
  rw [fields_noted, Bool.or_false]
  rfl

/-- **Round trip.** A new parser that executes the text of a printable response, with anything behind it, finishes
behind the text, and has the response. -/
theorem response_reproduced {rsp : Response} (hrsp : rsp.Printable) (memory : HttpClientParser)
    (hterm : buffer[len]? = some 0) (hint : len < intLimit) (htext : buffer.take len = rsp.dump ++ rest) :
    ∃ r, (HttpResponseParser.new memory).execute buffer len false = .ok r ∧ ClientFinished rsp.dump.length rest r ∧
      rsp.Reproduced r.1.self := by
  let s := HttpResponseParser.new memory
  have hdump : rsp.dump = (rsp.headText rsp.lines ++ [13]) ++ [10] := by
    rw [Response.dump_lines, HttpMessage.dumpBody, if_neg (not_not.mpr hrsp.body), List.append_assoc]
    rfl
  have hreads := (hrsp.reads_head buffer s.head hrsp.lines).append reads_return
  rw [ClientHead.started_noted] at hreads
  have htext' : buffer.take len = (rsp.headText rsp.lines ++ [13]) ++ 10 :: rest := by
    rw [htext, hdump, List.append_assoc, List.singleton_append]
  have hcount : rsp.dump.length = (rsp.headText rsp.lines ++ [13]).length + 1 := by rw [hdump, List.length_append]; rfl
  obtain ⟨r, hexec, hhead, hfinished⟩ :=
    execute_done (s := s) false memory rfl hterm hint htext' hreads ⟨rfl, rfl, rfl⟩
  have hdata : r.1.self.data = _ := congrArg ClientHead.data hhead
  have hflag : r.1.self.parser.close = _ := congrArg ClientHead.close hhead
  refine ⟨r, hexec, hcount ▸ hfinished, congrArg HttpResponse.version hdata, congrArg HttpResponse.status hdata,
    congrArg ClientHead.status hhead, congrArg HttpResponse.reason hdata, congrArg HttpResponse.headers hdata,
    congrArg ClientHead.contentLen hhead, congrArg ClientHead.chunked hhead, hflag.trans rsp.lines_close⟩

theorem notFoundResponse_printable : (notFoundResponse []).Printable where
  version := .inr rfl
  status := by decide
  reason := by decide
  body := rfl
  headers := by
    intro e he
    obtain rfl := List.mem_singleton.mp he
    exact ⟨by decide, by decide +kernel, by decide, by decide +kernel, by decide⟩
  cookies := nofun

/-- With the beginning of another response behind it. -/
theorem response_reproduced_notFound :
    let text := (notFoundResponse []).dump ++ bytes "HTTP"
    let memory : HttpClientParser := ⟨0, 0, 0, 0, false, false, false, 0, 0, 0, 0⟩
    ∃ r, (HttpResponseParser.new memory).execute (text ++ [0]) text.length false = .ok r ∧
      ClientFinished (notFoundResponse []).dump.length (bytes "HTTP") r ∧ (notFoundResponse []).Reproduced r.1.self :=
  response_reproduced notFoundResponse_printable _ (by decide +kernel) (by decide +kernel) (by decide +kernel)

end Megalo
