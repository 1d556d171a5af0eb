import Megalo.Http.Segmentation
import Megalo.Http.Server
import Megalo.Http.Typed

/-!
# `HttpSession::recvRequest` on one connection

- `recvRequest` is the loop of `recvHead`, the body as long as `content-length` says, and `init`; the results of `read`
  are a list, of which each call takes some from the front. Every call has a buffer and a parser of its own;
- `recvRequests` is what the loop of `handleClient` receives on a connection that is kept alive;
- `Conserved`: the calls return the messages of the stream one after the other, and each leaves what follows its
  message. `requests_conserved`: that is so exactly when no read crosses the end of a message and the first one of each
  has the whole head (`Aligned`), as a call drops what it read beyond its message.
-/

namespace Megalo

open MachineInt Overwrite

/-! ## The announced length -/

/-- The number that a text of decimal digits stands for. -/
def decimalValue (s : List UInt8) : Option Nat :=
  if s ≠ [] ∧ s.all (fun c => 48 ≤ c && c ≤ 57) = true then some (digitsValue 10 s) else none

/-- The length of the body as the head announces it, where there is a header for it; `none` when that is not a
number. -/
def HeaderMap.declaredLength (headers : HeaderMap) : Option Nat :=
  match headers.find (bytes "content-length") with
  | none => some 0
  | some s => decimalValue s

/-- `boost::lexical_cast<uint64_t>` as it is documented: digits are converted to their number, or it throws
`bad_lexical_cast` when a `uint64_t` does not have it. -/
def CastsDecimals (cast : List UInt8 → Option UInt64) : Prop :=
  ∀ s n, decimalValue s = some n → cast s = if n < 2 ^ 64 then some (UInt64.ofNat n) else none

section Cast

variable (cast : List UInt8 → Option UInt64)

/-- `getContentLength`. -/
def HeaderMap.getContentLength (headers : HeaderMap) : UInt64 := getAs cast headers.find (bytes "content-length") 0

/-- `getContentLength`, as the `int64_t` it is stored in. -/
def HeaderMap.contentLength (headers : HeaderMap) : Int := ((headers.getContentLength cast).toNat : Int).bmod (2 ^ 64)

variable {cast} {headers : HeaderMap} {n : Nat}

/-- The upper half of the lengths is negative. -/
theorem contentLength_eq (headers : HeaderMap) : headers.contentLength cast =
    if (headers.getContentLength cast).toNat < 2 ^ 63 then ((headers.getContentLength cast).toNat : Int)
    else ((headers.getContentLength cast).toNat : Int) - 2 ^ 64 := by
  have hlt := (headers.getContentLength cast).toNat_lt
  unfold HeaderMap.contentLength
  generalize (headers.getContentLength cast).toNat = n at hlt ⊢
  have hmod : (n : Int) % ((2 ^ 64 : Nat) : Int) = n := Int.emod_eq_of_lt (by omega) (by omega)
  rw [Int.bmod_def, hmod]
  split <;> split <;> omega

/-- What is made of an announced length. -/
theorem getContentLength_of_declared (hcast : CastsDecimals cast) (h : headers.declaredLength = some n) :
    headers.getContentLength cast = if n < 2 ^ 64 then UInt64.ofNat n else 0 := by
  rw [HeaderMap.getContentLength, getAs_eq]
  unfold HeaderMap.declaredLength at h
  split at h
  · rename_i hfind
    cases h
    rw [hfind]
    rfl
  · rename_i s hfind
    rw [hfind, Option.bind_some, hcast s n h]
    split <;> rfl

theorem contentLength_of_lt (hcast : CastsDecimals cast) (h : headers.declaredLength = some n) (hn : n < 2 ^ 63) :
    headers.contentLength cast = n := by
  have hlt : n < 2 ^ 64 := by omega
  have htoNat : (UInt64.ofNat n).toNat = n := UInt64.toNat_ofNat_of_lt' hlt
  rw [contentLength_eq, getContentLength_of_declared hcast h, if_pos hlt, htoNat, if_pos hn]

/-- A length that does not fit an `int64_t` counts as none. -/
theorem contentLength_of_ge (hcast : CastsDecimals cast) (h : headers.declaredLength = some n) (hn : 2 ^ 63 ≤ n) :
    headers.contentLength cast ≤ 0 := by
  rw [contentLength_eq, getContentLength_of_declared hcast h]
  by_cases hlt : n < 2 ^ 64
  · have htoNat : (UInt64.ofNat n).toNat = n := UInt64.toNat_ofNat_of_lt' hlt
    rw [if_pos hlt, htoNat, if_neg (by omega)]
    omega
  · rw [if_neg hlt]
    decide

end Cast

/-! ## One call -/

variable (cast : List UInt8 → Option UInt64)

/-- `readFixSize`: so many bytes, and the reads behind them. No read is longer than what is left to read. -/
def readFixSize : List (List UInt8) → Nat → Option (List UInt8 × List (List UInt8))
  | reads, 0 => some ([], reads)
  | [], _ + 1 => none
  | read :: reads, left + 1 =>
    if read.length = 0 ∨ left + 1 < read.length then none
    else (readFixSize reads (left + 1 - read.length)).map fun r => (read ++ r.1, r.2)

/-- The body: what is in the buffer, and the rest of it, whose length `readFixSize` returns as an `int`. -/
def recvBody (headers : HeaderMap) (buffer : List UInt8) (offset : Nat) (reads : List (List UInt8)) :
    Option (List UInt8 × List (List UInt8)) :=
  let length := (headers.contentLength cast).toNat
  if length ≤ offset then some (buffer.take length, reads)
  else if intSize (length - offset) ≤ 0 then none
  else (readFixSize reads (length - offset)).map fun r => (buffer.take offset ++ r.1, r.2)

/-- The request of a loop that ends with one. -/
def Received.request : Received → Option HttpRequest
  | .finished request => some request
  | _ => none

/-- What `recvRequest` does when its loop has ended. -/
def afterHead (reads : List (List UInt8)) (run : List ExecuteCall × Received) :
    Option (Request × List (List UInt8)) :=
  run.2.request.bind fun data => run.1.getLast?.bind fun call =>
    (recvBody cast data.headers call.after (sizeSub call.len call.nparse) (reads.drop run.1.length)).map fun r =>
      (.received data r.1, r.2)

/-- `HttpSession::recvRequest`, and the reads that it leaves; nothing when it returns null or the program stops. -/
def recvRequest (buffer : List UInt8) (memory : ParserMemory) (reads : List (List UInt8)) :
    Option (Request × List (List UInt8)) :=
  afterHead cast reads (recvHead buffer.length reads buffer 0 (.new memory))

/-- What `handleClient` receives on a connection that it keeps alive, from the `n`-th call on: the requests, each with
the reads that are left. Every call that returns a request takes a read. -/
def recvRequests (buffer : Nat → List UInt8) (memory : Nat → ParserMemory) :
    Nat → Nat → List (List UInt8) → List (Request × List (List UInt8))
  | 0, _, _ => []
  | turns + 1, n, reads =>
    ((recvRequest cast (buffer n) (memory n) reads).map fun r =>
      r :: recvRequests buffer memory turns (n + 1) r.2).getD []

variable {cast}

/-! ## Messages -/

/-- A request as it is sent: a head, the request that the parser makes of it, and a body. -/
structure Message where
  head : List UInt8
  data : HttpRequest
  body : List UInt8

namespace Message

/-- The bytes of a message. -/
def stream (m : Message) : List UInt8 := m.head ++ m.body

/-- What `recvRequest` should return for it. -/
def request (m : Message) : Request := .received m.data m.body

/-- The head is parsed correctly where it is delivered in one piece, and it announces the body. -/
structure WellFormed (memory : ParserMemory) (m : Message) : Prop where
  head : oneRead memory.uriRelaxed m.head = some m.data
  headerDone : memory.headerDone = false
  length : m.data.headers.declaredLength = some m.body.length

/-- The first read of a call delivers the head and nothing behind the message, and the next `k` reads the rest; and the
length of the body fits an `int64_t`. -/
structure FirstRead (buffSize : Nat) (m : Message) (read : List UInt8) (reads : List (List UInt8)) (k : Nat) :
    Prop where
  fits : m.body.length < 2 ^ 63
  head : m.head.length ≤ read.length
  within : read.length ≤ m.stream.length
  room : read.length ≤ buffSize
  int : read.length < intLimit
  notFull : ((read.length - m.head.length : Nat) : Int) ≠ intSize buffSize
  left : read.length < m.stream.length → 0 < intSize (m.stream.length - read.length)
  rest : (reads.take k).flatten.length = m.stream.length - read.length

end Message

/-- The messages, each with the bytes of those behind it. -/
def expected : List Message → List (Request × List UInt8)
  | [] => []
  | m :: msgs => (m.request, msgs.flatMap Message.stream) :: expected msgs

/-- No read crosses the end of a message, and the first one of each message has the whole head. -/
def Aligned (buffSize : Nat) : List Message → List (List UInt8) → Prop
  | [], _ => True
  | m :: msgs, reads =>
    ∃ read tail k, reads = read :: tail ∧ m.FirstRead buffSize read tail k ∧ Aligned buffSize msgs (tail.drop k)

/-- The calls return the messages one after the other, and each leaves exactly what follows its message. -/
def Conserved (msgs : List Message) (received : List (Request × List (List UInt8))) : Prop :=
  received.map (fun r => (r.1, r.2.flatten)) = expected msgs

/-! ## The body -/

theorem flatten_eq_nil {reads : List (List UInt8)} (h : ∀ read ∈ reads, read ≠ []) (hnil : reads.flatten = []) :
    reads = [] := by
  cases reads with
  | nil => rfl
  | cons read reads =>
    rw [List.flatten_cons, List.append_eq_nil_iff] at hnil
    exact absurd hnil.1 (h read List.mem_cons_self)

/-- `readFixSize` takes reads until they are as long as it is asked for. -/
theorem readFixSize_some {reads reads' : List (List UInt8)} {left : Nat} {v : List UInt8}
    (h : readFixSize reads left = some (v, reads')) :
    ∃ k, v = (reads.take k).flatten ∧ reads' = reads.drop k ∧ v.length = left := by
  have hzero : ∀ {reads reads' : List (List UInt8)} {v : List UInt8}, readFixSize reads 0 = some (v, reads') →
      ∃ k, v = (reads.take k).flatten ∧ reads' = reads.drop k ∧ v.length = 0 := by
    intro reads reads' v h
    rw [readFixSize] at h
    cases h
    exact ⟨0, rfl, rfl, rfl⟩
  induction reads generalizing left v with
  | nil =>
    cases left with
    | zero => exact hzero h
    | succ left =>
      rw [readFixSize] at h
      cases h
  | cons read reads ih =>
    cases left with
    | zero => exact hzero h
    | succ left =>
      rw [readFixSize] at h
      split at h
      · cases h
      · rename_i hfits
        obtain ⟨⟨v', reads''⟩, hr, he⟩ := Option.map_eq_some_iff.mp h
        cases he
        obtain ⟨k, rfl, rfl, hk⟩ := ih hr
        refine ⟨k + 1, by rw [List.take_succ_cons, List.flatten_cons], rfl, ?_⟩
        simp only [List.length_append]
        omega

/-- So many reads as have a length are taken. -/
theorem readFixSize_take : ∀ {reads : List (List UInt8)} (k : Nat), (∀ read ∈ reads, read ≠ []) →
    readFixSize reads (reads.take k).flatten.length = some ((reads.take k).flatten, reads.drop k)
  | [], k, _ => by simp [readFixSize]
  | reads, 0, _ => by simp [readFixSize]
  | read :: reads, k + 1, h => by
    have hne : read.length ≠ 0 := fun h0 => h read List.mem_cons_self (List.length_eq_zero_iff.mp h0)
    have ih := readFixSize_take k fun r hr => h r (List.mem_cons_of_mem read hr)
    rw [List.take_succ_cons, List.flatten_cons, List.length_append]
    obtain ⟨n, hn⟩ : ∃ n, read.length + (reads.take k).flatten.length = n + 1 :=
      Nat.exists_eq_succ_of_ne_zero (by omega)
    have hleft : n + 1 - read.length = (reads.take k).flatten.length := by omega
    rw [hn, readFixSize, if_neg (by omega), hleft, ih]
    rfl

/-- Of the buffer, the body has what is left over from the head. -/
theorem recvBody_take (headers : HeaderMap) (buffer : List UInt8) (offset : Nat) (reads : List (List UInt8)) :
    recvBody cast headers buffer offset reads = recvBody cast headers (buffer.take offset) offset reads := by
  simp only [recvBody, List.take_take, Nat.min_self]
  split
  · rw [Nat.min_eq_left ‹_›]
  · rfl

section Body

variable {headers : HeaderMap} {body extra rest : List UInt8} {reads reads' : List (List UInt8)} {v : List UInt8}

/-- Of the reads, the body has what it is longer than what is left over from the head. -/
theorem recvBody_some {buffer : List UInt8} {offset : Nat} (hlength : headers.contentLength cast = body.length)
    (h : recvBody cast headers buffer offset reads = some (v, reads')) :
    (offset < body.length → 0 < intSize (body.length - offset)) ∧
      ∃ k, reads' = reads.drop k ∧ (reads.take k).flatten.length = body.length - offset := by
  simp only [recvBody, hlength, Int.toNat_natCast] at h
  split at h
  · rename_i hle
    cases h
    refine ⟨fun hlt => absurd hlt (Nat.not_lt.mpr hle), 0, rfl, ?_⟩
    rw [Nat.sub_eq_zero_of_le hle]
    rfl
  · split at h
    · cases h
    · obtain ⟨⟨v', reads''⟩, hr, he⟩ := Option.map_eq_some_iff.mp h
      cases he
      obtain ⟨k, rfl, rfl, hk⟩ := readFixSize_some hr
      exact ⟨fun _ => not_le.mp ‹_›, k, rfl, hk⟩

/-- No body is read for a length that is not positive. -/
theorem recvBody_of_nonpos {buffer : List UInt8} {offset : Nat} (hlength : headers.contentLength cast ≤ 0)
    (h : recvBody cast headers buffer offset reads = some (v, reads')) : v = [] := by
  have hzero : (headers.contentLength cast).toNat = 0 := by omega
  simp only [recvBody, hzero, Nat.zero_le, if_true, List.take_zero] at h
  cases h
  rfl

/-- A body that ends with the next `k` reads. -/
theorem recvBody_take_reads (hlength : headers.contentLength cast = body.length) (hne : ∀ read ∈ reads, read ≠ [])
    (hbody : extra ++ reads.flatten = body ++ rest) {k : Nat} (hle : extra.length ≤ body.length)
    (hint : extra.length < body.length → 0 < intSize (body.length - extra.length))
    (hk : (reads.take k).flatten.length = body.length - extra.length) :
    recvBody cast headers extra extra.length reads = some (body, reads.drop k) ∧ (reads.drop k).flatten = rest := by
  have hsplit : reads.flatten = (reads.take k).flatten ++ (reads.drop k).flatten := by
    rw [← List.flatten_append, List.take_append_drop]
  rw [hsplit, ← List.append_assoc] at hbody
  obtain ⟨hv, hrest⟩ := List.append_inj hbody (by rw [List.length_append]; omega)
  refine ⟨?_, hrest⟩
  simp only [recvBody, hlength, Int.toNat_natCast]
  split
  · rename_i hge
    have hnil : (reads.take k).flatten = [] := List.length_eq_zero_iff.mp (by omega)
    have htake : reads.take k = [] :=
      flatten_eq_nil (fun read hread => hne read (List.mem_of_mem_take hread)) hnil
    have hdrop : reads.drop k = reads := by
      conv_rhs => rw [← List.take_append_drop k reads, htake, List.nil_append]
    rw [hnil, List.append_nil] at hv
    rw [hdrop, ← hv, List.take_length]
  · rename_i hlt
    rw [if_neg (not_le.mpr (hint (Nat.not_le.mp hlt))), ← hk, readFixSize_take k hne, List.take_length]
    exact congrArg (fun v => some (v, reads.drop k)) hv

end Body

/-! ## One message -/

section Call

variable {memory : ParserMemory} {buffer head extra c rest body behind : List UInt8} {request : HttpRequest}
  {req : Request} {reads reads' tail : List (List UInt8)} {read : List UInt8} {m : Message} {k : Nat}

theorem received_request {r : Received} {data : HttpRequest} (h : r.request = some data) : r = .finished data := by
  cases r with
  | finished d => exact congrArg Received.finished (Option.some.inj h)
  | closed => cases h
  | fault f => cases h

theorem init_frame (req : Request) : req.init.headers = req.headers ∧ req.init.body = req.body := by
  unfold Request.init
  extract_lets conn
  split
  · exact ⟨rfl, rfl⟩
  · exact ⟨rfl, rfl⟩

/-- A request that is received has the headers of its head and its body. -/
theorem received_eq {data data' : HttpRequest} {v v' : List UInt8}
    (h : Request.received data v = Request.received data' v') : data.headers = data'.headers ∧ v = v' := by
  have hheaders := congrArg (fun r : Request => r.headers) h
  have hbody := congrArg (fun r : Request => r.body) h
  simp only [Request.received, init_frame] at hheaders hbody
  exact ⟨hheaders, hbody⟩

/-- A request that is returned: the head that the loop found, and a body behind its last turn. -/
theorem recvRequest_some (h : recvRequest cast buffer memory reads = some (req, reads')) :
    ∃ data call v, (recvHead buffer.length reads buffer 0 (.new memory)).2 = .finished data ∧
      (recvHead buffer.length reads buffer 0 (.new memory)).1.getLast? = some call ∧
      recvBody cast data.headers call.after (sizeSub call.len call.nparse)
        (reads.drop (recvHead buffer.length reads buffer 0 (.new memory)).1.length) = some (v, reads') ∧
      req = .received data v := by
  obtain ⟨data, hdata, h⟩ := Option.bind_eq_some_iff.mp h
  obtain ⟨call, hcall, h⟩ := Option.bind_eq_some_iff.mp h
  obtain ⟨⟨v, reads''⟩, hbody, he⟩ := Option.map_eq_some_iff.mp h
  cases he
  exact ⟨data, call, v, received_request hdata, hcall, hbody, rfl⟩

theorem afterHead_finished {calls : List ExecuteCall} {data : HttpRequest} :
    afterHead cast reads (calls, .finished data) = calls.getLast?.bind fun call =>
      (recvBody cast data.headers call.after (sizeSub call.len call.nparse) (reads.drop calls.length)).map fun r =>
        (.received data r.1, r.2) := by
  unfold afterHead
  generalize recvBody cast = body
  rfl

/-- With the whole head in the first read, the body starts with what is behind the head in that read. -/
theorem recvRequest_whole (h : oneRead memory.uriRelaxed head = some request) (hnull : memory.headerDone = false)
    (hroom : (head ++ extra).length ≤ buffer.length) (hlen : (head ++ extra).length < intLimit)
    (hfull : (extra.length : Int) ≠ intSize buffer.length) :
    recvRequest cast buffer memory ((head ++ extra) :: reads) =
      (recvBody cast request.headers extra extra.length reads).map fun r => (.received request r.1, r.2) := by
  obtain ⟨after, hrun, hafter⟩ : ∃ after, recvHead buffer.length ((head ++ extra) :: reads) buffer 0 (.new memory) =
      ([⟨(head ++ extra).length, head.length, head.length, overwrite buffer 0 (head ++ extra), after⟩],
        .finished request) ∧ after.take extra.length = extra := recvHead_whole h hnull hroom hlen hfull
  have hsub : sizeSub (head ++ extra).length head.length = extra.length := by
    rw [sizeSub_of_le (by simp), List.length_append, Nat.add_sub_cancel_left]
  rw [recvRequest, hrun, afterHead_finished, List.getLast?_singleton, Option.bind_some, hsub, recvBody_take, hafter,
    List.length_singleton, List.drop_succ_cons, List.drop_zero]

/-- The second turn, behind a first one that took a part of the head: it has the rest of it. -/
theorem execute_rest {buffer' after after' : List UInt8} {e e' : Executed}
    (h : oneRead memory.uriRelaxed (c ++ rest) = some request) (hc : c ≠ []) (hrest : rest ≠ [])
    (hx : (HttpRequestParser.new memory).execute (overwrite buffer 0 c) c.length = .ok (e, after))
    (hnread : e.self.parser.nread = c.length)
    (hx' : e.self.execute buffer' read.length = .ok (e', after')) (hread : buffer'.take read.length = read)
    (hstream : read ++ tail.flatten = rest ++ body) : e'.scanned = rest.length ∧ e'.self.isFinished = true := by
  obtain ⟨d, hd, -⟩ := oneRead_accepted h
  obtain ⟨t, ht, hhalt⟩ := Scan.scan_init (scan_machine rfl hd) hrest
  -- the first turn leaves the machine where it waits for the rest
  obtain ⟨r, hr, he, -⟩ := httpParserExecute_ok (execute_ok hx)
  rw [overwrite, List.take_zero, List.nil_append, List.take_left] at hr
  have hm : (⟨r.state.cs, r.count, r.ending⟩ : Scan.Scanned Nat) = ⟨t, c.length, .more⟩ :=
    Except.ok.inj ((scan_machine rfl hr).symm.trans ht)
  have hcs : r.state.cs = t := congrArg Scan.Scanned.state hm
  have hended : Machine.Ended r.state.cs .more := by
    rw [← show r.ending = .more from congrArg Scan.Scanned.ending hm]
    exact first_ended hr
  have hstate : e.self.parser.cs = r.state.cs := by rw [he]; rfl
  have hrelaxed : e.self.parser.uriRelaxed = memory.uriRelaxed := by
    rw [he]
    exact (scan_frame hr).uriRelaxed
  -- the second one goes on from there
  obtain ⟨r', hr', he', -⟩ := httpParserExecute_ok (execute_ok hx')
  rw [hread] at hr'
  have hm' := scan_machine hrelaxed hr'
  rw [hstate] at hm'
  obtain ⟨hcount, hle⟩ := nread_execute (execute_ok hx')
  have hscanned : e'.scanned = r'.count := by rw [he']
  have hfinished : r'.ending = .halt → e'.self.isFinished = true := by
    intro hhalted
    have hends : Machine.Ended r'.state.cs r'.ending := machine_ended hended hm'
    have hcs' : e'.self.parser.cs = r'.state.cs := by
      rw [he']
      exact if_neg (by rw [hstate]; exact Nat.ne_of_gt hended.1)
    rw [hhalted] at hends
    rw [HttpRequestParser.isFinished, hcs']
    exact decide_eq_true hends
  rw [hcs] at hm'
  have hwhole : ∀ more, read = rest ++ more → e'.scanned = rest.length ∧ e'.self.isFinished = true := by
    intro more hmore
    have hstop := Scan.scan_append_stop (d := more) hhalt (by simp)
    rw [← hmore] at hstop
    have heq := Except.ok.inj (hm'.symm.trans hstop)
    exact ⟨hscanned.trans (congrArg Scan.Scanned.count heq), hfinished (congrArg Scan.Scanned.ending heq)⟩
  rcases List.append_eq_append_iff.mp hstream with ⟨more, hmore, -⟩ | ⟨more, hmore, -⟩
  · by_cases hnil : more = []
    · rw [hnil, List.append_nil] at hmore
      exact hwhole [] (by rw [hmore, List.append_nil])
    · rw [hmore] at hhalt
      obtain ⟨t', ht', -⟩ := Scan.scan_init hhalt hnil
      have heq : r'.count = read.length := congrArg Scan.Scanned.count (Except.ok.inj (hm'.symm.trans ht'))
      have hpos := List.length_pos_iff.mpr hc
      omega
  · exact hwhole more hmore

/-- A head that is not whole in the first read costs more bytes than the message has. -/
theorem recvRequest_part (h : oneRead memory.uriRelaxed (c ++ rest) = some request) (hc : c ≠ []) (hrest : rest ≠ [])
    (hlength : request.headers.contentLength cast = body.length)
    (hstream : reads.flatten = rest ++ body ++ behind)
    (hr : recvRequest cast buffer memory (c :: reads) = some (.received request body, reads')) :
    reads'.flatten ≠ behind := by
  intro hbehind
  obtain ⟨data, call, v, hfinished, hcall, hbody, hreq⟩ := recvRequest_some hr
  obtain ⟨e, after, hnread, -, hx, hagain, hcalls⟩ := recvHead_part h hrest hfinished
  obtain ⟨read, reads, e', after', rfl, -, -, -, hx', -, hlast⟩ := recvHead_finished hagain
  rw [Nat.add_zero] at hx'
  have htake : (overwrite after 0 read).take read.length = read := by
    rw [overwrite, List.take_zero, List.nil_append, List.take_left]
  rw [List.flatten_cons, List.append_assoc] at hstream
  obtain ⟨hscanned, hends⟩ := execute_rest h hc hrest hx hnread hx' htake hstream
  obtain ⟨hcount, hle⟩ := nread_execute (execute_ok hx')
  rcases hlast with ⟨-, -, hlast⟩ | ⟨hmore, -⟩
  · rw [hcalls, hlast] at hcall hbody
    obtain rfl : turnCall read after 0 e' after' = call := by simpa using hcall
    -- what is left over from the head misses as many bytes as the first turn took
    have hoffset : sizeSub (turnCall read after 0 e' after').len (turnCall read after 0 e' after').nparse =
        read.length - (c.length + rest.length) := by
      rw [turnCall, Nat.add_zero, sizeSub_of_le hle, hcount, hnread, hscanned]
    rw [hoffset] at hbody
    rw [(received_eq hreq).1.symm] at hbody
    obtain ⟨-, k, rfl, hk⟩ := recvBody_some hlength hbody
    have hsplit : reads.flatten = (reads.take k).flatten ++ (reads.drop k).flatten := by
      rw [← List.flatten_append, List.take_append_drop]
    have hdrop : (reads.drop k).flatten = behind := hbehind
    have htotal := congrArg List.length hstream
    have hpos := List.length_pos_iff.mpr hc
    have hk' : ((reads.take k).flatten).length = body.length - (read.length - (c.length + rest.length)) := hk
    simp only [hsplit, hdrop, List.length_append] at htotal
    omega
  · rw [hends] at hmore
    cases hmore

/-- A call that returns the message and leaves what follows it reads as `FirstRead` says. -/
theorem firstRead_of_recvRequest (hcast : CastsDecimals cast) (hm : m.WellFormed memory)
    (hne : ∀ read ∈ reads, read ≠ []) (hstream : reads.flatten = m.stream ++ behind)
    (hr : recvRequest cast buffer memory reads = some (m.request, reads')) (hbehind : reads'.flatten = behind) :
    ∃ read tail k, reads = read :: tail ∧ m.FirstRead buffer.length read tail k ∧ reads' = tail.drop k := by
  obtain ⟨hhead, hnull, hdeclared⟩ := hm
  obtain ⟨data, call, v, hfinished, -, hv, hreq⟩ := recvRequest_some hr
  obtain ⟨hheaders, hbody⟩ := received_eq hreq
  have hfits : m.body.length < 2 ^ 63 := by
    by_contra hge
    rw [← hheaders] at hv
    have hnil := recvBody_of_nonpos (contentLength_of_ge hcast hdeclared (Nat.le_of_not_lt hge)) hv
    rw [hbody, hnil] at hge
    exact hge (by decide)
  have hlength := contentLength_of_lt hcast hdeclared hfits
  obtain ⟨read, tail, -, -, rfl, -, hroom, hint, -⟩ := recvHead_finished hfinished
  rw [Nat.add_zero] at hroom hint
  rw [List.flatten_cons, Message.stream, List.append_assoc] at hstream
  have hprefix : read <+: m.head ++ (m.body ++ behind) := ⟨tail.flatten, hstream⟩
  rcases Nat.lt_or_ge read.length m.head.length with hlt | hge
  · obtain ⟨rest, hrest⟩ := List.prefix_of_prefix_length_le hprefix (List.prefix_append m.head _) hlt.le
    have hrest' : rest ≠ [] := by
      rintro rfl
      rw [List.append_nil] at hrest
      rw [hrest] at hlt
      exact absurd hlt (Nat.lt_irrefl _)
    rw [← hrest] at hhead
    rw [← hrest, List.append_assoc] at hstream
    have htail : tail.flatten = rest ++ m.body ++ behind := by
      rw [List.append_cancel_left hstream, List.append_assoc]
    exact absurd hbehind (recvRequest_part hhead (hne read List.mem_cons_self) hrest' hlength htail hr)
  · obtain ⟨extra, rfl⟩ := List.prefix_of_prefix_length_le (List.prefix_append m.head _) hprefix hge
    rw [List.append_assoc] at hstream
    have htail := List.append_cancel_left hstream
    obtain ⟨-, hfull⟩ := recvHead_whole_only hhead hint hfinished
    rw [recvRequest_whole hhead hnull hroom hint hfull] at hr
    obtain ⟨⟨v', reads''⟩, hbody, he⟩ := Option.map_eq_some_iff.mp hr
    obtain ⟨hleft, k, hk, htake⟩ := recvBody_some hlength hbody
    obtain rfl : reads'' = reads' := congrArg Prod.snd he
    subst hk
    have hsplit : tail.flatten = (tail.take k).flatten ++ (tail.drop k).flatten := by
      rw [← List.flatten_append, List.take_append_drop]
    have hle : extra.length ≤ m.body.length := by
      have htotal := congrArg List.length htail
      rw [hsplit, hbehind] at htotal
      simp only [List.length_append] at htotal htake
      omega
    have hlengths : m.stream.length - (m.head ++ extra).length = m.body.length - extra.length := by
      simp only [Message.stream, List.length_append]
      omega
    refine ⟨_, tail, k, rfl, ⟨hfits, hge, ?_, hroom, hint, ?_, ?_, ?_⟩, rfl⟩
    · simp only [Message.stream, List.length_append]
      omega
    · rwa [List.length_append, Nat.add_sub_cancel_left]
    · intro hlt
      rw [hlengths]
      apply hleft
      simp only [Message.stream, List.length_append] at hlt
      omega
    · rw [hlengths, htake]

/-- A call on reads as `FirstRead` says. -/
theorem recvRequest_of_firstRead (hcast : CastsDecimals cast) (hm : m.WellFormed memory)
    (hne : ∀ r ∈ read :: tail, r ≠ []) (hstream : (read :: tail).flatten = m.stream ++ behind)
    (hread : m.FirstRead buffer.length read tail k) :
    recvRequest cast buffer memory (read :: tail) = some (m.request, tail.drop k) ∧ (tail.drop k).flatten = behind := by
  obtain ⟨hhead, hnull, hdeclared⟩ := hm
  obtain ⟨hfits, hge, hwithin, hroom, hint, hfull, hleft, hrest⟩ := hread
  have hlength := contentLength_of_lt hcast hdeclared hfits
  rw [List.flatten_cons, Message.stream, List.append_assoc] at hstream
  obtain ⟨extra, rfl⟩ :=
    List.prefix_of_prefix_length_le (List.prefix_append m.head _) ⟨tail.flatten, hstream⟩ hge
  rw [List.append_assoc] at hstream
  simp only [Message.stream, List.length_append, Nat.add_sub_cancel_left, Nat.add_sub_add_left]
    at hwithin hfull hleft hrest
  obtain ⟨hbody, hbehind⟩ := recvBody_take_reads hlength (fun r hr => hne r (List.mem_cons_of_mem _ hr))
    (List.append_cancel_left hstream) (Nat.le_of_add_le_add_left hwithin) (fun h => hleft (Nat.add_lt_add_left h _))
    hrest
  rw [recvRequest_whole hhead hnull hroom hint hfull, hbody]
  exact ⟨rfl, hbehind⟩

end Call

/-! ## The connection -/

section Session

variable {buffer : Nat → List UInt8} {memory : Nat → ParserMemory} {buffSize : Nat}

theorem recvRequest_nil (b : List UInt8) (p : ParserMemory) : recvRequest cast b p [] = none := rfl

theorem recvRequests_eq (turns n : Nat) (reads : List (List UInt8)) :
    recvRequests cast buffer memory (turns + 1) n reads =
      ((recvRequest cast (buffer n) (memory n) reads).map fun r =>
        r :: recvRequests cast buffer memory turns (n + 1) r.2).getD [] := rfl

/-- From any call on, with messages and reads that are left. -/
theorem conserved_iff (hcast : CastsDecimals cast) (hsize : ∀ n, (buffer n).length = buffSize) :
    ∀ {msgs : List Message} {turns n : Nat} {reads : List (List UInt8)},
      (∀ i (m : Message), msgs[i]? = some m → m.WellFormed (memory (n + i))) →
      (∀ read ∈ reads, read ≠ []) → reads.flatten = msgs.flatMap Message.stream → reads.length ≤ turns →
      (Conserved msgs (recvRequests cast buffer memory turns n reads) ↔ Aligned buffSize msgs reads)
  | [], turns, n, reads, _, hne, hstream, _ => by
    obtain rfl := flatten_eq_nil hne hstream
    cases turns with
    | zero => exact ⟨fun _ => trivial, fun _ => rfl⟩
    | succ turns =>
      rw [recvRequests_eq, recvRequest_nil]
      exact ⟨fun _ => trivial, fun _ => rfl⟩
  | m :: msgs, turns, n, reads, hmsgs, hne, hstream, hturns => by
    have hm : m.WellFormed (memory n) := hmsgs 0 m rfl
    have hmsgs' : ∀ i (m' : Message), msgs[i]? = some m' → m'.WellFormed (memory (n + 1 + i)) := by
      intro i m' hi
      rw [Nat.add_assoc, Nat.add_comm 1 i]
      exact hmsgs (i + 1) m' hi
    rw [List.flatMap_cons] at hstream
    obtain ⟨turns, rfl⟩ : ∃ t, turns = t + 1 := by
      refine Nat.exists_eq_succ_of_ne_zero ?_
      rintro rfl
      rw [List.length_eq_zero_iff.mp (Nat.le_zero.mp hturns)] at hstream
      have hnil := (List.append_eq_nil_iff.mp (List.append_eq_nil_iff.mp hstream.symm).1).1
      exact ne_nil_of_oneRead hm.head hnil
    have hstep : ∀ (tail : List (List UInt8)) (k : Nat), (∀ r ∈ tail, r ≠ []) → tail.length ≤ turns →
        (tail.drop k).flatten = msgs.flatMap Message.stream →
        (Conserved msgs (recvRequests cast buffer memory turns (n + 1) (tail.drop k)) ↔
          Aligned buffSize msgs (tail.drop k)) := by
      intro tail k htail hlen hrest
      refine conserved_iff hcast hsize hmsgs' (fun r hr => htail r (List.mem_of_mem_drop hr)) hrest ?_
      rw [List.length_drop]
      omega
    rw [recvRequests_eq]
    constructor
    · intro h
      cases hr : recvRequest cast (buffer n) (memory n) reads with
      | none =>
        rw [hr] at h
        cases h
      | some r =>
        obtain ⟨req, reads'⟩ := r
        rw [hr] at h
        obtain ⟨hfirst, hmore⟩ := List.cons.inj h
        obtain ⟨rfl, hbehind⟩ := Prod.mk.inj hfirst
        obtain ⟨read, tail, k, rfl, hread, rfl⟩ := firstRead_of_recvRequest hcast hm hne hstream hr hbehind
        rw [hsize] at hread
        exact ⟨read, tail, k, rfl, hread, (hstep tail k (fun r hr => hne r (List.mem_cons_of_mem _ hr))
          (Nat.le_of_succ_le_succ hturns) hbehind).mp hmore⟩
    · rintro ⟨read, tail, k, rfl, hread, haligned⟩
      rw [← hsize n] at hread
      obtain ⟨hr, hbehind⟩ := recvRequest_of_firstRead hcast hm hne hstream hread
      have hmore := (hstep tail k (fun r hr => hne r (List.mem_cons_of_mem _ hr))
        (Nat.le_of_succ_le_succ hturns) hbehind).mpr haligned
      rw [hr]
      exact congrArg₂ List.cons (Prod.ext rfl hbehind) hmore

end Session

/-- **Requests on a connection that is kept alive.** For all well-formed messages and every way to cut their stream into
reads, the calls of `recvRequest` return the messages one after the other and lose nothing of the stream exactly when
the first read of every message has its whole head, and no read goes beyond the end of a message. -/
theorem requests_conserved (cast : List UInt8 → Option UInt64) (hcast : CastsDecimals cast)
    (buffer : Nat → List UInt8) (memory : Nat → ParserMemory) (buffSize turns : Nat)
    (msgs : List Message) (reads : List (List UInt8)) (hsize : ∀ n, (buffer n).length = buffSize)
    (hmsgs : ∀ n (m : Message), msgs[n]? = some m → m.WellFormed (memory n)) (hne : ∀ read ∈ reads, read ≠ [])
    (hstream : reads.flatten = msgs.flatMap Message.stream) (hturns : reads.length ≤ turns) :
    Conserved msgs (recvRequests cast buffer memory turns 0 reads) ↔ Aligned buffSize msgs reads :=
  conserved_iff hcast hsize (fun n m h => (Nat.zero_add n).symm ▸ hmsgs n m h) hne hstream hturns

/-- Digits and nothing else are converted. -/
def decimalCast (s : List UInt8) : Option UInt64 :=
  (decimalValue s).bind fun n => if n < 2 ^ 64 then some (UInt64.ofNat n) else none

theorem castsDecimals_decimalCast : CastsDecimals decimalCast := by
  intro s n h
  rw [decimalCast, h]
  rfl

/-- A head without a body. -/
def getMessage : Message := ⟨bytes "GET / HTTP/1.1\r\n\r\n", .new, []⟩

/-- A message that is posted, with a body of two bytes. -/
def postMessage : Message :=
  ⟨bytes "POST / HTTP/1.1\r\ncontent-length: 2\r\n\r\n",
    { HttpRequest.new with method := .post, headers := [(bytes "content-length", bytes "2")] }, bytes "ab"⟩

theorem wellFormed_post : postMessage.WellFormed ⟨false, 0, false⟩ := ⟨by decide +kernel, rfl, by decide +kernel⟩

theorem wellFormed_get : getMessage.WellFormed ⟨false, 0, false⟩ := ⟨by decide +kernel, rfl, by decide +kernel⟩

/-- The body in a read of its own. -/
theorem requests_conserved_aligned :
    Conserved [postMessage, getMessage] (recvRequests decimalCast (fun _ => List.replicate 60 0)
      (fun _ => ⟨false, 0, false⟩) 3 0 [postMessage.head, postMessage.body, getMessage.head]) := by
  refine (requests_conserved decimalCast castsDecimals_decimalCast (fun _ => List.replicate 60 0)
    (fun _ => ⟨false, 0, false⟩) 60 3 [postMessage, getMessage] [postMessage.head, postMessage.body, getMessage.head]
    (fun _ => List.length_replicate) ?_ (by decide +kernel) (by decide +kernel) (by decide)).mpr ?_
  · rintro (_ | _ | n) m h
    · cases h
      exact wellFormed_post
    · cases h
      exact wellFormed_get
    · cases h
  · refine ⟨_, _, 1, rfl, ?_, _, _, 0, rfl, ?_, trivial⟩
    · constructor <;> decide +kernel
    · constructor <;> decide +kernel

/-- Two messages in one read: the first call takes both, and only one request is returned. -/
theorem requests_lost :
    getMessage.WellFormed ⟨false, 0, false⟩ ∧
      (recvRequests decimalCast (fun _ => List.replicate 60 0) (fun _ => ⟨false, 0, false⟩) 1 0
        [getMessage.stream ++ getMessage.stream]).length = 1 ∧
      ¬ Conserved [getMessage, getMessage] (recvRequests decimalCast (fun _ => List.replicate 60 0)
        (fun _ => ⟨false, 0, false⟩) 1 0 [getMessage.stream ++ getMessage.stream]) := by
  have hone : (recvRequests decimalCast (fun _ => List.replicate 60 0) (fun _ => ⟨false, 0, false⟩) 1 0
      [getMessage.stream ++ getMessage.stream]).length = 1 := by decide +kernel
  refine ⟨wellFormed_get, hone, fun h => ?_⟩
  have hlength := congrArg List.length h
  rw [List.length_map, hone] at hlength
  cases hlength

end Megalo
