import Megalo.Lib.MachineInt
import Megalo.Lib.Overwrite
import Megalo.Lib.Scan
import Megalo.Util.Chars
import Megalo.Http.Machine

/-!
# Receiving a request

- `HttpRequest` is what the callbacks of the parser fill in;
- `httpParserExecute` runs the machine over the buffer, from the state it was left in, and checks its assertions;
- `HttpRequestParser.execute` also moves what is left to the front of the buffer, and `recvHead` is the loop of
  `HttpSession::recvRequest` that reads and executes until the head is complete.

Characters are unsigned bytes. A `size_t` is a natural number, and `LEN` wraps as it does. `http_parser_init` and the
constructor of `HttpRequestParser` leave three fields of `http_parser` as they find them: `uri_relaxed`, `query_start`
and the callback `header_done`. What stops the program is an `HttpFault`: an assertion, a string of a length that does
not exist, an access outside the buffer, or a call through a pointer that was never set.
-/

namespace Megalo

open MachineInt Overwrite

/-! ## Requests -/

/-- `HttpMethod`. -/
inductive HttpMethod
  | delete
  | get
  | head
  | post
  | put
  | connect
  | options
  | trace
  | copy
  | lock
  | mkcol
  | move
  | propfind
  | proppatch
  | search
  | unlock
  | bind
  | rebind
  | unbind
  | acl
  | report
  | mkactivity
  | checkout
  | merge
  | msearch
  | notify
  | subscribe
  | unsubscribe
  | patch
  | purge
  | mkcalendar
  | link
  | unlink
  | source
  | invalidMethod
  deriving DecidableEq

/-- `HTTP_METHOD_MAP`. -/
def httpMethodMap : List (HttpMethod × String) :=
  [ (.delete, "DELETE"), (.get, "GET"), (.head, "HEAD"), (.post, "POST"), (.put, "PUT"), (.connect, "CONNECT"),
    (.options, "OPTIONS"), (.trace, "TRACE"), (.copy, "COPY"), (.lock, "LOCK"), (.mkcol, "MKCOL"), (.move, "MOVE"),
    (.propfind, "PROPFIND"), (.proppatch, "PROPPATCH"), (.search, "SEARCH"), (.unlock, "UNLOCK"), (.bind, "BIND"),
    (.rebind, "REBIND"), (.unbind, "UNBIND"), (.acl, "ACL"), (.report, "REPORT"), (.mkactivity, "MKACTIVITY"),
    (.checkout, "CHECKOUT"), (.merge, "MERGE"), (.msearch, "M-SEARCH"), (.notify, "NOTIFY"),
    (.subscribe, "SUBSCRIBE"), (.unsubscribe, "UNSUBSCRIBE"), (.patch, "PATCH"), (.purge, "PURGE"),
    (.mkcalendar, "MKCALENDAR"), (.link, "LINK"), (.unlink, "UNLINK"), (.source, "SOURCE") ]

/-- `CharsToHttpMethod`: the first method whose name the characters start with. -/
def charsToHttpMethod (m : List UInt8) : HttpMethod :=
  ((httpMethodMap.find? fun e => (bytes e.2).isPrefixOf m).map Prod.fst).getD .invalidMethod

/-- `strncmp(m, literal, length) == 0`. -/
def strncmpEq : List UInt8 → List UInt8 → Nat → Bool
  | _, _, 0 => true
  | c :: _, [], _ + 1 => c = 0
  | c :: m, d :: literal, length + 1 => c = d && strncmpEq m literal length
  | [], _, _ + 1 => false

/-- `lhs < rhs` character by character. -/
def charsLess : List UInt8 → List UInt8 → Bool
  | _, [] => false
  | [], _ :: _ => true
  | c :: lhs, d :: rhs => c < d || (c = d && charsLess lhs rhs)

/-- `CaseInsensitiveLess`, on the characters before the first NUL. -/
def caseInsensitiveLess (lhs rhs : List UInt8) : Bool :=
  charsLess ((lhs.takeWhile (· ≠ 0)).map toLower) ((rhs.takeWhile (· ≠ 0)).map toLower)

/-- `MapType`, in the order of its keys. -/
abbrev HeaderMap := List (List UInt8 × List UInt8)

/-- `m[key] = val`. -/
def HeaderMap.set : HeaderMap → List UInt8 → List UInt8 → HeaderMap
  | [], key, val => [(key, val)]
  | e :: m, key, val =>
    if caseInsensitiveLess e.1 key then e :: HeaderMap.set m key val
    else if caseInsensitiveLess key e.1 then (key, val) :: e :: m
    else (e.1, val) :: m

/-- The fields of `HttpRequest` that the parser sets. -/
structure HttpRequest where
  method : HttpMethod
  version : UInt8
  path : List UInt8
  query : List UInt8
  fragment : List UInt8
  headers : HeaderMap
  deriving DecidableEq

/-- `new HttpRequest`. -/
def HttpRequest.new : HttpRequest :=
  { method := .get, version := 0x11, path := bytes "/", query := [], fragment := [], headers := [] }

/-! ## The parser -/

/-- The assertions of `http_parser_execute`. -/
inductive HttpAssertion
  | distance
  | nread
  | bodyStart
  | mark
  | fieldLen
  | fieldStart
  deriving DecidableEq

/-- What stops the program. -/
inductive HttpFault
  | assertion (a : HttpAssertion)
  | lengthError
  | outOfRange
  | wildCall
  | overflow
  deriving DecidableEq

/-- `http_parser`. The callbacks that the constructor sets are not null; `headerDone` says whether `header_done` is. -/
structure HttpParser where
  cs : Nat
  bodyStart : Nat
  contentLen : Nat
  nread : Nat
  mark : Nat
  fieldStart : Nat
  fieldLen : Nat
  queryStart : Nat
  xmlSent : Bool
  jsonSent : Bool
  uriRelaxed : Bool
  headerDone : Bool

/-- What the memory of a new `http_parser` holds where nobody writes it. -/
structure ParserMemory where
  uriRelaxed : Bool
  queryStart : Nat
  headerDone : Bool

/-- `http_parser_init`. -/
def httpParserInit (memory : ParserMemory) : HttpParser :=
  { cs := 1, bodyStart := 0, contentLen := 0, nread := 0, mark := 0, fieldStart := 0, fieldLen := 0
    queryStart := memory.queryStart, xmlSent := false, jsonSent := false
    uriRelaxed := memory.uriRelaxed, headerDone := memory.headerDone }

/-- `HttpRequestParser`: `m_parser`, `m_data`, and `m_error`, which is 0 without an error. -/
structure HttpRequestParser where
  parser : HttpParser
  data : HttpRequest
  error : Nat

namespace HttpRequestParser

/-- The constructor. -/
def new (memory : ParserMemory) : HttpRequestParser :=
  { parser := httpParserInit memory, data := .new, error := 0 }

/-- `setError`. -/
def setError (s : HttpRequestParser) (v : Nat) : HttpRequestParser := { s with error := v }

/-- `hasError`. -/
def hasError (s : HttpRequestParser) : Bool := s.error ≠ 0 || s.parser.cs = 0

/-- `isFinished` of a parser without an error. -/
def isFinished (s : HttpRequestParser) : Bool := 348 ≤ s.parser.cs

end HttpRequestParser

/-- `std::string(buffer + start, length)`. -/
def text (buffer : List UInt8) (start length : Nat) : Except HttpFault (List UInt8) :=
  if start + length ≤ buffer.length then .ok (slice buffer start length)
  else if 2 ^ 62 ≤ length then .error .lengthError
  else .error .outOfRange

/-! ## Callbacks and actions -/

/-- `on_request_method`. -/
def onRequestMethod (buffer : List UInt8) (start length : Nat) (s : HttpRequestParser) :
    Except HttpFault HttpRequestParser := do
  match charsToHttpMethod (buffer.drop start) with
  | .invalidMethod =>
    let _ ← text buffer start length
    return s.setError 1000
  | m => return { s with data := { s.data with method := m } }

/-- A callback that stores its characters in the request. -/
def onText (set : List UInt8 → HttpRequest → HttpRequest) (buffer : List UInt8) (start length : Nat)
    (s : HttpRequestParser) : Except HttpFault HttpRequestParser := do
  let v ← text buffer start length
  return { s with data := set v s.data }

/-- `on_fragment`. -/
def onFragment : List UInt8 → Nat → Nat → HttpRequestParser → Except HttpFault HttpRequestParser :=
  onText fun v data => { data with fragment := v }

/-- `on_request_path`. -/
def onRequestPath : List UInt8 → Nat → Nat → HttpRequestParser → Except HttpFault HttpRequestParser :=
  onText fun v data => { data with path := v }

/-- `on_query_string`. -/
def onQueryString : List UInt8 → Nat → Nat → HttpRequestParser → Except HttpFault HttpRequestParser :=
  onText fun v data => { data with query := v }

/-- `on_http_version`. -/
def onHttpVersion (buffer : List UInt8) (start length : Nat) (s : HttpRequestParser) :
    Except HttpFault HttpRequestParser := do
  if strncmpEq (buffer.drop start) (bytes "HTTP/1.1") length then
    return { s with data := { s.data with version := 0x11 } }
  else if strncmpEq (buffer.drop start) (bytes "HTTP/1.0") length then
    return { s with data := { s.data with version := 0x10 } }
  else
    let _ ← text buffer start length
    return s.setError 1001

/-- `on_http_field`. -/
def onHttpField (buffer : List UInt8) (field flen value vlen : Nat) (s : HttpRequestParser) :
    Except HttpFault HttpRequestParser := do
  if flen = 0 then return s.setError 1002
  let key ← text buffer field flen
  let val ← text buffer value vlen
  return { s with data := { s.data with headers := s.data.headers.set key val } }

/-- An action at position `p` of the buffer. -/
def Action.run (buffer : List UInt8) (p : Nat) (s : HttpRequestParser) : Action → Except HttpFault HttpRequestParser
  | .mark => .ok { s with parser := { s.parser with mark := p } }
  | .startField => .ok { s with parser := { s.parser with fieldStart := p } }
  | .writeField => .ok { s with parser := { s.parser with fieldLen := sizeSub p s.parser.fieldStart } }
  | .writeValue =>
    onHttpField buffer s.parser.fieldStart s.parser.fieldLen s.parser.mark (sizeSub p s.parser.mark) s
  | .requestMethod => onRequestMethod buffer s.parser.mark (sizeSub p s.parser.mark) s
  | .requestUri => .ok s
  | .fragment => onFragment buffer s.parser.mark (sizeSub p s.parser.mark) s
  | .startQuery => .ok { s with parser := { s.parser with queryStart := p } }
  | .queryString => onQueryString buffer s.parser.queryStart (sizeSub p s.parser.queryStart) s
  | .httpVersion => onHttpVersion buffer s.parser.mark (sizeSub p s.parser.mark) s
  | .requestPath => onRequestPath buffer s.parser.mark (sizeSub p s.parser.mark) s
  | .done =>
    if s.parser.xmlSent || s.parser.jsonSent then
      .ok { s with parser := { s.parser with
        bodyStart := s.parser.mark, contentLen := sizeSub p s.parser.mark + 1 } }
    else if s.parser.headerDone then .error .wildCall
    else .ok { s with parser := { s.parser with bodyStart := p + 1 } }
  | .xml => .ok { s with parser := { s.parser with xmlSent := true } }
  | .json => .ok { s with parser := { s.parser with jsonSent := true } }

/-- The actions of a transition, one after the other. -/
def runActions (buffer : List UInt8) (p : Nat) : List Action → HttpRequestParser → Except HttpFault HttpRequestParser
  | [], s => .ok s
  | a :: actions, s => (a.run buffer p s).bind (runActions buffer p actions)

/-! ## Running the machine -/

/-- The local `cs`, `p - buffer`, and the parser. -/
structure Cursor where
  cs : Nat
  p : Nat
  self : HttpRequestParser

/-- One character: `done` ends the scan behind it, and `st0` in front of it. -/
def Cursor.step (buffer : List UInt8) (c : Cursor) (b : UInt8) : Scan.Verdict Cursor HttpFault :=
  match Machine.next c.self.parser.uriRelaxed c.cs b with
  | none => .reject { c with cs := 0 }
  | some g =>
    match runActions buffer c.p g.actions c.self with
    | .error e => .fault e
    | .ok s => if .done ∈ g.actions then .halt ⟨g.target, c.p + 1, s⟩ else .more ⟨g.target, c.p + 1, s⟩

/-- The parser after `http_parser_execute`, and how far it scanned. -/
structure Executed where
  self : HttpRequestParser
  scanned : Nat

/-- What `http_parser_execute` returns. -/
def Executed.nread (e : Executed) : Nat := e.self.parser.nread

/-- The end of `http_parser_execute`: the state and `nread` are stored, and the assertions are checked. -/
def storeScan (len : Nat) (s : HttpRequestParser) (r : Scan.Scanned Cursor) : Except HttpFault Executed :=
  let scanned := r.state.self.parser
  let parser := { scanned with
    cs := if s.parser.cs = 0 then scanned.cs else r.state.cs
    nread := scanned.nread + r.count }
  if len < parser.nread then .error (.assertion .nread)
  else if len < parser.bodyStart then .error (.assertion .bodyStart)
  else if len ≤ parser.mark then .error (.assertion .mark)
  else if len < parser.fieldLen then .error (.assertion .fieldLen)
  else if len ≤ parser.fieldStart then .error (.assertion .fieldStart)
  else .ok ⟨{ r.state.self with parser }, r.count⟩

/-- `http_parser_execute` with `off` 0, for a length that is not 0. -/
def httpParserExecute (buffer : List UInt8) (len : Nat) (s : HttpRequestParser) : Except HttpFault Executed :=
  if (len : Int) ≠ intSize len then .error (.assertion .distance)
  else (Scan.scan (Cursor.step buffer) (buffer.take len) ⟨s.parser.cs, 0, s⟩).bind (storeScan len s)

/-- `HttpRequestParser::execute`: what is left moves to the front of the buffer. -/
def HttpRequestParser.execute (s : HttpRequestParser) (buffer : List UInt8) (len : Nat) :
    Except HttpFault (Executed × List UInt8) :=
  (httpParserExecute buffer len s).map fun e =>
    (e, overwrite buffer 0 (slice buffer e.nread (sizeSub len e.nread)))

/-! ## The loop of `recvRequest` -/

/-- A call of `execute`: the length, how far it scanned, what it returned, and the buffer before and after it. -/
structure ExecuteCall where
  len : Nat
  scanned : Nat
  nparse : Nat
  before : List UInt8
  after : List UInt8

/-- How the loop ends: the session is closed, the head is complete, or the program stops. -/
inductive Received
  | closed
  | finished (request : HttpRequest)
  | fault (f : HttpFault)
  deriving DecidableEq

/-- What the loop does after a call of `execute`; `again` is its next turn, from the buffer, `offset` and the parser. -/
def afterExecute (buffSize len : Nat) (before : List UInt8)
    (again : List UInt8 → Nat → HttpRequestParser → List ExecuteCall × Received) :
    Except HttpFault (Executed × List UInt8) → List ExecuteCall × Received
  | .error f => ([], .fault f)
  | .ok (e, after) =>
    let call : ExecuteCall := { len, scanned := e.scanned, nparse := e.nread, before, after }
    let offset := sizeSub len e.nread
    if e.self.hasError then ([call], .closed)
    else if (offset : Int) = intSize buffSize then ([call], .closed)
    else if e.self.isFinished then ([call], .finished e.self.data)
    else
      let (calls, received) := again after offset e.self
      (call :: calls, received)

/-- The loop of `HttpSession::recvRequest` over the results of `read`, with its calls of `execute`. A result that is
empty, and the end of the list, are a `read` that returns 0. -/
def recvHead (buffSize : Nat) : List (List UInt8) → List UInt8 → Nat → HttpRequestParser → List ExecuteCall × Received
  | [], _, _, _ => ([], .closed)
  | read :: reads, data, offset, parser =>
    let len := read.length + offset
    if read.length = 0 then ([], .closed)
    else if buffSize < len then ([], .fault .outOfRange)
    else if intLimit ≤ len then ([], .fault .overflow)
    else
      let before := overwrite data offset read
      afterExecute buffSize len before (recvHead buffSize reads) (parser.execute before len)

end Megalo
