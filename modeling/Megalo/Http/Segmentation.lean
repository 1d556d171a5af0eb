import Megalo.Http.Scanner

/-!
# Receiving a head in parts

- `oneRead head` is the request that a valid head gives when it is all there is;
- `execute_whole`: a first call of `execute` on a buffer that starts with the head gives that request and moves what is
  behind it to the front; `execute_wild`: it calls `header_done` where the memory held a pointer;
- `execute_part`: a first call on a proper initial part of the head takes all of it. As `nread` counts on, what a later
  call returns is not how far it scanned (`recvHead_displaced`);
- `recvRequest_independent`: so `recvRequest` does not depend on how a head is cut exactly where it is not cut.
-/

namespace Megalo

open MachineInt Overwrite

/-! ## The end of `http_parser_execute` -/

/-- The assertions at the end of `http_parser_execute` hold. -/
structure HttpParser.Fits (len : Nat) (parser : HttpParser) : Prop where
  nread : parser.nread ≤ len
  bodyStart : parser.bodyStart ≤ len
  mark : parser.mark < len
  fieldLen : parser.fieldLen ≤ len
  fieldStart : parser.fieldStart < len

/-- The parser with the state and `nread` stored. -/
def HttpRequestParser.stored (s : HttpRequestParser) (r : Scan.Scanned Cursor) : HttpRequestParser :=
  { r.state.self with parser := { r.state.self.parser with
    cs := if s.parser.cs = 0 then r.state.self.parser.cs else r.state.cs
    nread := r.state.self.parser.nread + r.count } }

section Execute

variable {len : Nat} {s : HttpRequestParser} {r : Scan.Scanned Cursor} {e : Executed} {buffer : List UInt8}

theorem storeScan_ok (h : storeScan len s r = .ok e) :
    e = ⟨s.stored r, r.count⟩ ∧ (s.stored r).parser.Fits len := by
  simp only [storeScan] at h
  split at h
  · cases h
  · split at h
    · cases h
    · split at h
      · cases h
      · split at h
        · cases h
        · split at h
          · cases h
          · cases h
            exact ⟨rfl, Nat.le_of_not_lt ‹_›, Nat.le_of_not_lt ‹_›, Nat.lt_of_not_le ‹_›, Nat.le_of_not_lt ‹_›,
              Nat.lt_of_not_le ‹_›⟩

theorem storeScan_of_fits (h : (s.stored r).parser.Fits len) : storeScan len s r = .ok ⟨s.stored r, r.count⟩ := by
  have hnread := Nat.not_lt.mpr h.nread
  have hbody := Nat.not_lt.mpr h.bodyStart
  have hmark := Nat.not_le.mpr h.mark
  have hlen := Nat.not_lt.mpr h.fieldLen
  have hstart := Nat.not_le.mpr h.fieldStart
  simp only [HttpRequestParser.stored] at hnread hbody hmark hlen hstart
  simp only [storeScan, hnread, hbody, hmark, hlen, hstart, if_false, HttpRequestParser.stored]

/-- A call that does not fail has scanned the buffer, and its assertions hold. -/
theorem httpParserExecute_ok (h : httpParserExecute buffer len s = .ok e) :
    ∃ r, Scan.scan (Cursor.step buffer) (buffer.take len) ⟨s.parser.cs, 0, s⟩ = .ok r ∧
      e = ⟨s.stored r, r.count⟩ ∧ (s.stored r).parser.Fits len := by
  unfold httpParserExecute at h
  split at h
  · cases h
  · cases hr : Scan.scan (Cursor.step buffer) (buffer.take len) ⟨s.parser.cs, 0, s⟩ with
    | error f => rw [hr] at h; cases h
    | ok r =>
      rw [hr] at h
      exact ⟨r, rfl, storeScan_ok h⟩

theorem httpParserExecute_of_lt (hlen : len < intLimit) : httpParserExecute buffer len s =
    (Scan.scan (Cursor.step buffer) (buffer.take len) ⟨s.parser.cs, 0, s⟩).bind (storeScan len s) := by
  rw [httpParserExecute, if_neg]
  rw [intSize_of_lt hlen]
  exact fun h => h rfl

theorem execute_ok {after : List UInt8} (h : s.execute buffer len = .ok (e, after)) :
    httpParserExecute buffer len s = .ok e := by
  rw [HttpRequestParser.execute] at h
  cases hx : httpParserExecute buffer len s with
  | error f => rw [hx] at h; cases h
  | ok x =>
    rw [hx] at h
    cases h
    rfl

/-- `nread` counts the characters of all calls. -/
theorem nread_execute (h : httpParserExecute buffer len s = .ok e) :
    e.nread = s.parser.nread + e.scanned ∧ e.nread ≤ len := by
  obtain ⟨r, hr, rfl, hfits⟩ := httpParserExecute_ok h
  refine ⟨?_, hfits.nread⟩
  simp only [Executed.nread, HttpRequestParser.stored]
  rw [(scan_frame hr).nread]

end Execute

/-! ## A valid head -/

/-- The call has scanned everything, and found the end of a head. -/
def Executed.complete (len : Nat) (e : Executed) : Bool :=
  e.scanned = len ∧ e.self.hasError = false ∧ e.self.isFinished = true ∧
    (e.self.parser.xmlSent || e.self.parser.jsonSent) = false

/-- The request of a head that one call of `http_parser_execute` accepts from its first to its last character. -/
def oneRead (uriRelaxed : Bool) (head : List UInt8) : Option HttpRequest :=
  (httpParserExecute head head.length (.new { uriRelaxed, queryStart := 0, headerDone := false })).toOption.bind
    fun e => if e.complete head.length then some e.self.data else none

/-- The cursor of a first call. -/
def Cursor.first (memory : ParserMemory) : Cursor := ⟨1, 0, .new memory⟩

variable {memory : ParserMemory} {head extra : List UInt8} {request : HttpRequest}

/-- What is known of the end of a scan that accepts a head. -/
structure Accepted (head : List UInt8) (request : HttpRequest) (d : Cursor) : Prop where
  data : d.self.data = request
  error : d.self.error = 0
  cs : 348 ≤ d.cs
  sent : (d.self.parser.xmlSent || d.self.parser.jsonSent) = false
  bodyStart : d.self.parser.bodyStart ≤ head.length
  mark : d.self.parser.mark < head.length
  fieldLen : d.self.parser.fieldLen ≤ head.length
  fieldStart : d.self.parser.fieldStart < head.length

theorem hasError_stored {s : HttpRequestParser} {r : Scan.Scanned Cursor} (h : (s.stored r).hasError = false) :
    r.state.self.error = 0 := by
  simp only [HttpRequestParser.hasError, HttpRequestParser.stored, Bool.or_eq_false_iff] at h
  exact not_not.mp (of_decide_eq_false h.1)

theorem isFinished_stored {r : Scan.Scanned Cursor} (h : ((HttpRequestParser.new memory).stored r).isFinished = true) :
    348 ≤ r.state.cs := of_decide_eq_true h

/-- The first call goes through the states of the machine. -/
theorem first_ended {buffer bs : List UInt8} {r : Scan.Scanned Cursor}
    (h : Scan.scan (Cursor.step buffer) bs (.first memory) = .ok r) : Machine.Ended r.state.cs r.ending := by
  have hcs : 0 < 1 ∧ 1 < 348 := by omega
  exact machine_ended hcs (scan_machine rfl h)

theorem ok_of_toOption {ε α : Type*} {r : Except ε α} {v : α} (h : r.toOption = some v) : r = .ok v := by
  cases r with
  | error e => cases h
  | ok v' => cases h; rfl

/-- A valid head is scanned to its end, and the last character halts the scan. -/
theorem oneRead_accepted (h : oneRead memory.uriRelaxed head = some request) :
    ∃ d, Scan.scan (Cursor.step head) head (.first { memory with queryStart := 0, headerDone := false }) =
      .ok ⟨d, head.length, .halt⟩ ∧ Accepted head request d := by
  obtain ⟨e, he, h⟩ := Option.bind_eq_some_iff.mp h
  obtain ⟨r, hr, rfl, hfits⟩ := httpParserExecute_ok (ok_of_toOption he)
  rw [List.take_length] at hr
  have hended := first_ended hr
  split at h
  · rename_i hall
    obtain ⟨hcount, herror, hfinished, hsent⟩ := of_decide_eq_true hall
    have hcs := isFinished_stored hfinished
    have hhalt : r.ending = .halt := by
      cases hending : r.ending with
      | halt => rfl
      | more =>
        rw [hending] at hended
        exact absurd hended.2 (Nat.not_lt.mpr hcs)
      | reject =>
        rw [hending] at hended
        have hzero : r.state.cs = 0 := hended
        omega
    have hscan : r = ⟨r.state, head.length, .halt⟩ := by rw [← hcount, ← hhalt]
    rw [hscan] at hr
    exact ⟨r.state, hr, Option.some.inj h, hasError_stored herror, hcs, hsent, hfits.bodyStart, hfits.mark,
      hfits.fieldLen, hfits.fieldStart⟩
  · cases h

theorem ne_nil_of_oneRead (h : oneRead memory.uriRelaxed head = some request) : head ≠ [] := by
  obtain ⟨d, hd, -⟩ := oneRead_accepted h
  rintro rfl
  cases hd

/-! ## The whole head in one read -/

/-- The head alone, with nothing but `uri_relaxed` of the memory, and the head in a longer buffer. -/
theorem together_first : Together head head (.first { memory with queryStart := 0, headerDone := false })
    (.first memory) where
  ahead := List.drop_zero
  cs := rfl
  p := rfl
  agree := ⟨rfl, rfl, rfl, fun h => absurd h (show ¬ Machine.inQuery 1 = true by decide), Nat.le_refl 0,
    Nat.le_refl 0, Nat.le_refl 0, Nat.zero_le 1⟩

/-- A scan of the head up to its last character is followed on the longer buffer. -/
theorem accepted_last (h : oneRead memory.uriRelaxed head = some request) (ext : List UInt8) :
    ∃ c b t t' d, head = c ++ [b] ∧ Together head [b] t t' ∧ t.step head b = .halt d ∧ Accepted head request d ∧
      Scan.scan (Cursor.step (head ++ ext)) c (.first memory) = .ok ⟨t', c.length, .more⟩ := by
  obtain ⟨d, hd, hacc⟩ := oneRead_accepted h
  obtain ⟨c, b, rfl⟩ : ∃ c b, head = c ++ [b] :=
    ⟨_, _, (List.dropLast_append_getLast (ne_nil_of_oneRead h)).symm⟩
  obtain ⟨t, hc, hb⟩ := Scan.scan_init hd (List.cons_ne_nil b [])
  obtain ⟨t', ht', htog⟩ := scan_agree ext together_first hc
  refine ⟨c, b, t, t', d, rfl, htog, ?_, hacc, ht'⟩
  rcases Scan.scan_cons_ok hb with ⟨u, r, hu, hr, he⟩ | ⟨u, hu, he⟩ | ⟨u, hu, he⟩
  · cases hr
    cases he
  · cases he
    exact hu
  · cases he

/-- With `header_done` not set, the head is scanned to its end, whatever the buffer holds behind it. -/
theorem scan_whole (h : oneRead memory.uriRelaxed head = some request) (hnull : memory.headerDone = false)
    (extra ext : List UInt8) :
    ∃ d, Scan.scan (Cursor.step (head ++ ext)) (head ++ extra) (.first memory) = .ok ⟨d, head.length, .halt⟩ ∧
      Accepted head request d := by
  obtain ⟨c, b, t, t', d, rfl, htog, hb, hacc, hc⟩ := accepted_last h ext
  have hnull' : t'.self.parser.headerDone = false := (scan_frame hc).headerDone.trans hnull
  obtain ⟨d', hd', htog'⟩ := htog.halt ext hb hnull'
  have hscan : Scan.scan (Cursor.step (c ++ [b] ++ ext)) (c ++ [b]) (.first memory) =
      .ok ⟨d', (c ++ [b]).length, .halt⟩ := by
    rw [Scan.scan_append_more hc, Scan.scan_cons_halt hd', List.length_append]
    simp [Except.map, Scan.Scanned.later, Nat.add_comm]
  have hparser := htog'.agree.parser
  refine ⟨d', Scan.scan_append_stop hscan (by simp), ?_⟩
  refine ⟨htog'.agree.data.trans hacc.data, htog'.agree.error.trans hacc.error, ?_, ?_, ?_, ?_, ?_, ?_⟩
  · rw [htog'.cs]
    exact hacc.cs
  · rw [hparser]
    exact hacc.sent
  · rw [hparser]
    exact hacc.bodyStart
  · rw [hparser]
    exact hacc.mark
  · rw [hparser]
    exact hacc.fieldLen
  · rw [hparser]
    exact hacc.fieldStart

/-- With `header_done` set, the program calls it at the end of the head. -/
theorem scan_wild (h : oneRead memory.uriRelaxed head = some request) (hset : memory.headerDone = true)
    (extra ext : List UInt8) :
    Scan.scan (Cursor.step (head ++ ext)) (head ++ extra) (.first memory) = .error .wildCall := by
  obtain ⟨c, b, t, t', d, rfl, htog, hb, hacc, hc⟩ := accepted_last h ext
  have hset' : t'.self.parser.headerDone = true := (scan_frame hc).headerDone.trans hset
  refine Scan.scan_append_error ?_
  rw [Scan.scan_append_more hc, Scan.scan_cons_fault (htog.wild ext hb hacc.sent hset')]
  rfl

/-- A first call of `execute` on a buffer that starts with the head. -/
theorem execute_whole (h : oneRead memory.uriRelaxed head = some request) (hnull : memory.headerDone = false)
    (hlen : (head ++ extra).length < intLimit) (tail : List UInt8) :
    ∃ e, (HttpRequestParser.new memory).execute (head ++ extra ++ tail) (head ++ extra).length =
        .ok (e, overwrite (head ++ extra ++ tail) 0 (slice (head ++ extra ++ tail) e.nread extra.length)) ∧
      e.scanned = head.length ∧ e.nread = head.length ∧ e.self.data = request ∧ e.self.hasError = false ∧
      e.self.isFinished = true := by
  obtain ⟨d, hd, hacc⟩ := scan_whole h hnull extra (extra ++ tail)
  have hframe := scan_frame hd
  have hnread : d.self.parser.nread = 0 := hframe.nread
  have hle : head.length ≤ (head ++ extra).length := by simp
  let s := HttpRequestParser.new memory
  have hfits : (s.stored ⟨d, head.length, .halt⟩).parser.Fits (head ++ extra).length := by
    constructor
    · simp only [HttpRequestParser.stored, hnread, Nat.zero_add]
      exact hle
    · exact hacc.bodyStart.trans hle
    · exact hacc.mark.trans_le hle
    · exact hacc.fieldLen.trans hle
    · exact hacc.fieldStart.trans_le hle
  have hexec : httpParserExecute (head ++ extra ++ tail) (head ++ extra).length s =
      .ok ⟨s.stored ⟨d, head.length, .halt⟩, head.length⟩ := by
    rw [httpParserExecute_of_lt hlen, List.take_left, List.append_assoc head extra tail]
    exact (congrArg (Except.bind · _) hd).trans (storeScan_of_fits hfits)
  have hcount : Executed.nread ⟨s.stored ⟨d, head.length, .halt⟩, head.length⟩ = head.length := by
    simp only [Executed.nread, HttpRequestParser.stored, hnread, Nat.zero_add]
  refine ⟨⟨s.stored ⟨d, head.length, .halt⟩, head.length⟩, ?_, rfl, hcount, hacc.data, ?_, ?_⟩
  · rw [HttpRequestParser.execute, hexec, hcount]
    have hsub : sizeSub (head ++ extra).length head.length = extra.length := by
      rw [sizeSub_of_le hle, List.length_append, Nat.add_sub_cancel_left]
    simp only [Except.map, hcount, hsub]
  · have hcs : d.cs ≠ 0 := fun h0 => by
      have := hacc.cs
      omega
    rw [HttpRequestParser.hasError, Bool.or_eq_false_iff]
    exact ⟨decide_eq_false (not_not.mpr hacc.error), decide_eq_false hcs⟩
  · exact decide_eq_true hacc.cs

theorem execute_wild (h : oneRead memory.uriRelaxed head = some request) (hset : memory.headerDone = true)
    (hlen : (head ++ extra).length < intLimit) (tail : List UInt8) :
    (HttpRequestParser.new memory).execute (head ++ extra ++ tail) (head ++ extra).length = .error .wildCall := by
  have hscan := scan_wild h hset extra (extra ++ tail)
  rw [HttpRequestParser.execute, httpParserExecute_of_lt hlen, List.take_left, List.append_assoc head extra tail]
  exact congrArg (fun r => (Except.bind r _).map _) hscan

/-! ## A part of the head in the first read -/

/-- A first call on a proper initial part of the head takes all of it, and waits for more. -/
theorem execute_part {c rest : List UInt8} {e : Executed} {after buffer : List UInt8}
    (h : oneRead memory.uriRelaxed (c ++ rest) = some request) (hrest : rest ≠ []) (hc : buffer.take c.length = c)
    (he : (HttpRequestParser.new memory).execute buffer c.length = .ok (e, after)) :
    e.scanned = c.length ∧ e.nread = c.length ∧ e.self.isFinished = false := by
  obtain ⟨d, hd, -⟩ := oneRead_accepted h
  obtain ⟨t, ht, -⟩ := Scan.scan_init (scan_machine rfl hd) hrest
  obtain ⟨r, hr, rfl, -⟩ := httpParserExecute_ok (execute_ok he)
  rw [hc] at hr
  have hm : (⟨r.state.cs, r.count, r.ending⟩ : Scan.Scanned Nat) = ⟨t, c.length, .more⟩ :=
    Except.ok.inj ((scan_machine rfl hr).symm.trans ht)
  have hcount : r.count = c.length := congrArg Scan.Scanned.count hm
  have hended : Machine.Ended r.state.cs .more := by
    rw [← show r.ending = .more from congrArg Scan.Scanned.ending hm]
    exact first_ended hr
  have hnread : r.state.self.parser.nread = 0 := (scan_frame hr).nread
  refine ⟨hcount, ?_, decide_eq_false (Nat.not_le.mpr hended.2)⟩
  simp only [Executed.nread, HttpRequestParser.stored, hnread, hcount, Nat.zero_add]

/-! ## Runs of `recvRequest` -/

/-- Reads that deliver a stream, none of them empty or longer than the buffer; `read` returns an `int`. -/
structure Segmented (buffSize : Nat) (stream : List UInt8) (reads : List (List UInt8)) : Prop where
  stream : reads.flatten = stream
  nonempty : ∀ read ∈ reads, read ≠ []
  room : ∀ read ∈ reads, read.length ≤ buffSize ∧ read.length < intLimit

/-- `len - nparse` is what the call has not scanned, and that is at the front of the buffer. -/
def ExecuteCall.Exact (call : ExecuteCall) : Prop :=
  sizeSub call.len call.nparse = call.len - call.scanned ∧
    call.after.take (call.len - call.scanned) = slice call.before call.scanned (call.len - call.scanned)

/-- The loop ends with the request that the head gives in one read, and all its calls are exact. -/
def Independent (request : HttpRequest) (run : List ExecuteCall × Received) : Prop :=
  run.2 = .finished request ∧ ∀ call ∈ run.1, call.Exact

section Loop

variable {buffSize offset : Nat} {read : List UInt8} {reads : List (List UInt8)} {data : List UInt8}
  {s : HttpRequestParser}

theorem recvHead_cons (hread : read ≠ []) (hroom : read.length + offset ≤ buffSize)
    (hlen : read.length + offset < intLimit) : recvHead buffSize (read :: reads) data offset s =
      afterExecute buffSize (read.length + offset) (overwrite data offset read) (recvHead buffSize reads)
        (s.execute (overwrite data offset read) (read.length + offset)) := by
  have hne : read.length ≠ 0 := fun h => hread (List.length_eq_zero_iff.mp h)
  rw [recvHead]
  simp only [hne, Nat.not_lt.mpr hroom, Nat.not_le.mpr hlen, if_false]

/-- The call of `execute` in a turn of the loop. -/
def turnCall (read : List UInt8) (data : List UInt8) (offset : Nat) (e : Executed) (after : List UInt8) : ExecuteCall :=
  ⟨read.length + offset, e.scanned, e.nread, overwrite data offset read, after⟩

/-- The first turn of a loop that ends with a request: it is the last one, or another loop follows it. -/
theorem recvHead_finished (h : (recvHead buffSize reads data offset s).2 = .finished request) :
    ∃ read reads' e after, reads = read :: reads' ∧ read ≠ [] ∧ read.length + offset ≤ buffSize ∧
      read.length + offset < intLimit ∧
      s.execute (overwrite data offset read) (read.length + offset) = .ok (e, after) ∧
      (sizeSub (read.length + offset) e.nread : Int) ≠ intSize buffSize ∧
      ((e.self.isFinished = true ∧ e.self.data = request ∧
          (recvHead buffSize reads data offset s).1 = [turnCall read data offset e after]) ∨
        (e.self.isFinished = false ∧
          (recvHead buffSize reads' after (sizeSub (read.length + offset) e.nread) e.self).2 = .finished request ∧
          (recvHead buffSize reads data offset s).1 = turnCall read data offset e after ::
            (recvHead buffSize reads' after (sizeSub (read.length + offset) e.nread) e.self).1)) := by
  cases reads with
  | nil => cases h
  | cons read reads =>
    by_cases hread : read = []
    · rw [hread, recvHead] at h
      cases h
    by_cases hroom : read.length + offset ≤ buffSize
    · by_cases hlen : read.length + offset < intLimit
      · rw [recvHead_cons hread hroom hlen] at h ⊢
        cases hx : s.execute (overwrite data offset read) (read.length + offset) with
        | error f =>
          rw [hx] at h
          cases h
        | ok x =>
          obtain ⟨e, after⟩ := x
          rw [hx] at h
          refine ⟨read, reads, e, after, rfl, hread, hroom, hlen, hx, ?_⟩
          simp only [afterExecute] at h ⊢
          split at h
          · cases h
          · rename_i herror
            split at h
            · cases h
            · rename_i hfull
              rw [if_neg herror, if_neg hfull]
              split at h
              · rename_i hfinished
                rw [if_pos hfinished]
                exact ⟨hfull, .inl ⟨hfinished, Received.finished.inj h, rfl⟩⟩
              · rename_i hfinished
                rw [if_neg hfinished]
                exact ⟨hfull, .inr ⟨Bool.not_eq_true _ ▸ hfinished, h, rfl⟩⟩
      · rw [recvHead] at h
        simp only [mt List.length_eq_zero_iff.mp hread, Nat.not_lt.mpr hroom, Nat.not_lt.mp hlen, if_true,
          if_false] at h
        cases h
    · rw [recvHead] at h
      simp only [mt List.length_eq_zero_iff.mp hread, Nat.not_le.mp hroom, if_true, if_false] at h
      cases h

/-- Once `nread` has counted, what `execute` returns is not how far it scanned. -/
theorem recvHead_displaced (h : 0 < s.parser.nread) :
    ¬ Independent request (recvHead buffSize reads data offset s) := by
  rintro ⟨hreceived, hexact⟩
  obtain ⟨read, reads', e, after, -, -, -, -, hx, -, hcalls⟩ := recvHead_finished hreceived
  have hmem : turnCall read data offset e after ∈ (recvHead buffSize reads data offset s).1 := by
    rcases hcalls with ⟨-, -, hcalls⟩ | ⟨-, -, hcalls⟩
    · rw [hcalls]
      exact List.mem_cons_self
    · rw [hcalls]
      exact List.mem_cons_self
  obtain ⟨hcall, -⟩ := hexact _ hmem
  obtain ⟨hnread, hle⟩ := nread_execute (execute_ok hx)
  simp only [turnCall] at hcall
  rw [sizeSub_of_le hle] at hcall
  omega

/-- A head of which only a part is in the first read: the first turn takes that part, and another one follows. -/
theorem recvHead_part {c rest buffer : List UInt8} {n : Nat}
    (h : oneRead memory.uriRelaxed (c ++ rest) = some request) (hrest : rest ≠ [])
    {request' : HttpRequest} (hreceived : (recvHead n (c :: reads) buffer 0 (.new memory)).2 = .finished request') :
    ∃ e after, e.self.parser.nread = c.length ∧ e.scanned = c.length ∧
      (HttpRequestParser.new memory).execute (overwrite buffer 0 c) c.length = .ok (e, after) ∧
      (recvHead n reads after 0 e.self).2 = .finished request' ∧
      (recvHead n (c :: reads) buffer 0 (.new memory)).1 =
        turnCall c buffer 0 e after :: (recvHead n reads after 0 e.self).1 := by
  have htake : (overwrite buffer 0 c).take c.length = c := by
    rw [overwrite, List.take_zero, List.nil_append, List.take_left]
  obtain ⟨read, reads', e, after, hreads, -, -, -, hx, -, hcalls⟩ := recvHead_finished hreceived
  obtain ⟨rfl, rfl⟩ := List.cons.inj hreads
  rw [Nat.add_zero] at hx hcalls
  obtain ⟨hscanned, hnread, hfinished⟩ := execute_part h hrest htake hx
  have hsub : sizeSub c.length e.nread = 0 := by
    rw [hnread, sizeSub_of_le (Nat.le_refl _), Nat.sub_self]
  rcases hcalls with ⟨htrue, -⟩ | ⟨-, hagain, hcalls⟩
  · rw [hfinished] at htrue
    cases htrue
  · rw [hsub] at hagain hcalls
    exact ⟨e, after, hnread, hscanned, hx, hagain, hcalls⟩

/-- A head that is whole in the first read: one turn, which leaves what follows the head at the front of the buffer. -/
theorem recvHead_whole {buffer : List UInt8} (h : oneRead memory.uriRelaxed head = some request)
    (hnull : memory.headerDone = false) (hroom : (head ++ extra).length ≤ buffer.length)
    (hlen : (head ++ extra).length < intLimit) (hfull : (extra.length : Int) ≠ intSize buffer.length) :
    ∃ after, recvHead buffer.length ((head ++ extra) :: reads) buffer 0 (.new memory) =
        ([⟨(head ++ extra).length, head.length, head.length, overwrite buffer 0 (head ++ extra), after⟩],
          .finished request) ∧
      after.take extra.length = extra := by
  have hne : head ++ extra ≠ [] := by simp [ne_nil_of_oneRead h]
  have hbefore : overwrite buffer 0 (head ++ extra) = head ++ extra ++ buffer.drop (head ++ extra).length := by
    rw [overwrite, List.take_zero, List.nil_append, Nat.zero_add]
  rw [recvHead_cons hne (by rwa [Nat.add_zero]) (by rwa [Nat.add_zero]), Nat.add_zero, hbefore]
  obtain ⟨e, hx, hscanned, hnread, hdata, herror, hfinished⟩ :=
    execute_whole h hnull hlen (buffer.drop (head ++ extra).length)
  have hsub : sizeSub (head ++ extra).length head.length = extra.length := by
    rw [sizeSub_of_le (by simp), List.length_append, Nat.add_sub_cancel_left]
  have hslice : slice (head ++ extra ++ buffer.drop (head ++ extra).length) head.length extra.length = extra := by
    rw [slice, List.append_assoc, List.drop_left, List.take_left]
  rw [hx]
  simp only [afterExecute, herror, hsub, hfinished, hdata, hscanned, hnread, hfull, if_true, Bool.false_eq_true,
    if_false]
  refine ⟨_, rfl, ?_⟩
  rw [hslice, overwrite, List.take_zero, List.nil_append, List.take_left]

/-- A head that is whole in the first read gives a request only when `header_done` is not set and what follows the head
is not taken for a full buffer. -/
theorem recvHead_whole_only {buffer : List UInt8} {request' : HttpRequest}
    (h : oneRead memory.uriRelaxed head = some request) (hlen : (head ++ extra).length < intLimit)
    (hreceived : (recvHead buffer.length ((head ++ extra) :: reads) buffer 0 (.new memory)).2 = .finished request') :
    memory.headerDone = false ∧ (extra.length : Int) ≠ intSize buffer.length := by
  have hbefore : overwrite buffer 0 (head ++ extra) = head ++ extra ++ buffer.drop (head ++ extra).length := by
    rw [overwrite, List.take_zero, List.nil_append, Nat.zero_add]
  obtain ⟨read, reads', e, after, hreads, -, -, -, hx, hfull, -⟩ := recvHead_finished hreceived
  obtain ⟨rfl, rfl⟩ := List.cons.inj hreads
  rw [Nat.add_zero, hbefore] at hx
  rw [Nat.add_zero] at hfull
  cases hnull : memory.headerDone with
  | true =>
    rw [execute_wild h hnull hlen] at hx
    cases hx
  | false =>
    obtain ⟨e', hx', -, hnread, -⟩ := execute_whole h hnull hlen (buffer.drop (head ++ extra).length)
    cases hx.symm.trans hx'
    rw [hnread, sizeSub_of_le (by simp), List.length_append, Nat.add_sub_cancel_left] at hfull
    exact ⟨rfl, hfull⟩

end Loop

/-- **A head and the cuts of the stream.** `recvRequest` gives the request of a valid head, by calls of `execute` that
all return how far they scanned and keep what is left, exactly when the first read has the whole head, the memory of the
new parser held no pointer in `header_done`, and what follows the head in the first read is not as many bytes as the
size of the buffer converted to `int`. -/
theorem recvRequest_independent (memory : ParserMemory) (buffer head rest : List UInt8) (reads : List (List UInt8))
    (request : HttpRequest) (hvalid : oneRead memory.uriRelaxed head = some request)
    (hreads : Segmented buffer.length (head ++ rest) reads) :
    Independent request (recvHead buffer.length reads buffer 0 (.new memory)) ↔
      head.length ≤ (reads.headD []).length ∧ memory.headerDone = false ∧
        (((reads.headD []).length - head.length : Nat) : Int) ≠ intSize buffer.length := by
  have hne := ne_nil_of_oneRead hvalid
  obtain ⟨hstream, hnonempty, hroom⟩ := hreads
  cases reads with
  | nil => exact absurd hstream.symm (by simp [hne])
  | cons c reads =>
    obtain ⟨hc, hlen⟩ := hroom c List.mem_cons_self
    simp only [List.flatten_cons] at hstream
    simp only [List.headD_cons]
    have hprefix : c <+: head ++ rest := ⟨reads.flatten, hstream⟩
    rcases Nat.lt_or_ge c.length head.length with hlt | hge
    · obtain ⟨tail, rfl⟩ := List.prefix_of_prefix_length_le hprefix (List.prefix_append head rest) hlt.le
      have htail : tail ≠ [] := by
        rintro rfl
        simp at hlt
      constructor
      · rintro ⟨hreceived, hexact⟩
        obtain ⟨e, after, hnread, -, -, hagain, hcalls⟩ :=
          recvHead_part hvalid htail hreceived
        rw [hcalls] at hexact
        have hpos : 0 < e.self.parser.nread := by
          rw [hnread]
          exact List.length_pos_iff.mpr (hnonempty c List.mem_cons_self)
        exact absurd ⟨hagain, fun call hcall => hexact call (List.mem_cons_of_mem _ hcall)⟩ (recvHead_displaced hpos)
      · rintro ⟨hle, -⟩
        exact absurd hle (Nat.not_le.mpr hlt)
    · obtain ⟨extra, rfl⟩ := List.prefix_of_prefix_length_le (List.prefix_append head rest) hprefix hge
      have hextra : (head ++ extra).length - head.length = extra.length := by simp
      rw [hextra]
      constructor
      · intro h
        exact ⟨hge, recvHead_whole_only hvalid hlen h.1⟩
      · rintro ⟨-, hnull, hfull⟩
        obtain ⟨after, hrun, hafter⟩ := recvHead_whole hvalid hnull hc hlen hfull
        rw [hrun]
        refine ⟨rfl, fun call hcall => ?_⟩
        obtain rfl := List.mem_singleton.mp hcall
        refine ⟨sizeSub_of_le hge, ?_⟩
        simp only
        rw [hextra, hafter, overwrite, List.take_zero, List.nil_append, slice, List.append_assoc, List.drop_left,
          List.take_left]

/-- A head with headers in one read, with bytes behind it, and a second read. -/
theorem recvRequest_independent_whole :
    ∃ request, oneRead false (bytes "GET /a HTTP/1.1\r\nHost: x\r\nAge: 1\r\n\r\n") = some request ∧
      request.headers.length = 2 ∧
      Independent request (recvHead 60 [bytes "GET /a HTTP/1.1\r\nHost: x\r\nAge: 1\r\n\r\nbody", bytes "more"]
        (List.replicate 60 0) 0 (.new ⟨false, 0, false⟩)) := by
  obtain ⟨request, hvalid⟩ := Option.isSome_iff_exists.mp
    (by decide +kernel : (oneRead false (bytes "GET /a HTTP/1.1\r\nHost: x\r\nAge: 1\r\n\r\n")).isSome = true)
  have hlength : (oneRead false (bytes "GET /a HTTP/1.1\r\nHost: x\r\nAge: 1\r\n\r\n")).map
      (fun request => request.headers.length) = some 2 := by decide +kernel
  rw [hvalid] at hlength
  refine ⟨request, hvalid, Option.some.inj hlength, ?_⟩
  exact (recvRequest_independent ⟨false, 0, false⟩ (List.replicate 60 0) _ (bytes "bodymore") _ request hvalid
    ⟨by decide +kernel, by decide +kernel, by decide +kernel⟩).mpr (by decide +kernel)

/-- A head in two reads: the assertion that `nread` is at most `len` fails in the second call. -/
theorem recvRequest_depends :
    oneRead false (bytes "GET / HTTP/1.1\r\n\r\n") = some .new ∧
      Segmented 40 (bytes "GET / HTTP/1.1\r\n\r\n") [bytes "GET / HT", bytes "TP/1.1\r\n\r\n"] ∧
      ¬ Independent .new (recvHead 40 [bytes "GET / HT", bytes "TP/1.1\r\n\r\n"] (List.replicate 40 0) 0
        (.new ⟨false, 0, false⟩)) := by
  refine ⟨by decide +kernel, ⟨by decide +kernel, by decide +kernel, by decide +kernel⟩, ?_⟩
  have hfault : (recvHead 40 [bytes "GET / HT", bytes "TP/1.1\r\n\r\n"] (List.replicate 40 0) 0
      (.new ⟨false, 0, false⟩)).2 = .fault (.assertion .nread) := by decide +kernel
  rintro ⟨hreceived, -⟩
  rw [hfault] at hreceived
  cases hreceived

end Megalo
