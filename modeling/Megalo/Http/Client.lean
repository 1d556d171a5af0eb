import Megalo.Http.Basic
import Megalo.Http.ClientMachine
import Megalo.Util.Strtol

/-!
# Parsing a response

- `HttpResponse` is what the callbacks of the parser fill in;
- `httpclientParserExecute` runs the machine over the buffer, from the state it was left in, and checks its assertions;
- `HttpResponseParser.execute` may start the scanner anew, for a chunk header, and moves what is left to the front of
  the buffer.

`httpclient_parser_init` leaves `status` as it finds it. The callbacks for chunks and for the end of the head do
nothing.
-/

namespace Megalo

open MachineInt Overwrite

/-- The fields of `HttpResponse` that the parser sets. -/
structure HttpResponse where
  version : UInt8
  status : Int
  reason : List UInt8
  headers : HeaderMap
  deriving DecidableEq

/-- `new HttpResponse`. -/
def HttpResponse.new : HttpResponse := { version := 0x11, status := 200, reason := [], headers := [] }

/-- The assertions of `httpclient_parser_execute`. -/
inductive ClientAssertion
  | terminator
  | distance
  | nread
  | bodyStart
  deriving DecidableEq

/-- What stops the program: an assertion, an access to memory, or a status that `atoi` is not defined for. -/
inductive ClientFault
  | assertion (a : ClientAssertion)
  | memory (f : HttpFault)
  | status
  deriving DecidableEq

/-- `httpclient_parser`. -/
structure HttpClientParser where
  cs : Nat
  bodyStart : Nat
  contentLen : Int
  status : Int
  chunked : Bool
  chunksDone : Bool
  close : Bool
  nread : Nat
  mark : Nat
  fieldStart : Nat
  fieldLen : Nat

/-- `httpclient_parser_init`. -/
def httpclientParserInit (parser : HttpClientParser) : HttpClientParser :=
  { cs := 1, bodyStart := 0, contentLen := -1, status := parser.status, chunked := false, chunksDone := false
    close := false, nread := 0, mark := 0, fieldStart := 0, fieldLen := 0 }

/-- `HttpResponseParser`: `m_parser`, `m_data`, and `m_error`, which is 0 without an error. -/
structure HttpResponseParser where
  parser : HttpClientParser
  data : HttpResponse
  error : Nat

namespace HttpResponseParser

/-- The constructor, on what the memory of `m_parser` held. -/
def new (memory : HttpClientParser) : HttpResponseParser :=
  { parser := httpclientParserInit memory, data := .new, error := 0 }

/-- `setError`. -/
def setError (s : HttpResponseParser) (v : Nat) : HttpResponseParser := { s with error := v }

/-- `hasError`. -/
def hasError (s : HttpResponseParser) : Bool := s.error ≠ 0 || s.parser.cs = 0

/-- `isFinished`, which asks for the first final state only. -/
def isFinished (s : HttpResponseParser) : Int := if s.parser.cs = 0 then -1 else if s.parser.cs = 120 then 1 else 0

end HttpResponseParser

/-! ## Callbacks and actions -/

/-- `std::string(buffer + start, length)`. -/
def clientText (buffer : List UInt8) (start length : Nat) : Except ClientFault (List UInt8) :=
  (text buffer start length).mapError .memory

/-- `on_response_http_field`. -/
def onResponseHttpField (buffer : List UInt8) (field flen value vlen : Nat) (s : HttpResponseParser) :
    Except ClientFault HttpResponseParser := do
  if flen = 0 then return s.setError 1002
  let key ← clientText buffer field flen
  let val ← clientText buffer value vlen
  return { s with data := { s.data with headers := s.data.headers.set key val } }

/-- `on_response_reason`. -/
def onResponseReason (buffer : List UInt8) (start length : Nat) (s : HttpResponseParser) :
    Except ClientFault HttpResponseParser := do
  let reason ← clientText buffer start length
  return { s with data := { s.data with reason } }

/-- `on_response_status`. -/
def onResponseStatus (buffer : List UInt8) (start : Nat) (s : HttpResponseParser) :
    Except ClientFault HttpResponseParser :=
  match atoi (buffer.drop start) with
  | none => .error .status
  | some status => .ok { s with data := { s.data with status } }

/-- `on_response_version`. -/
def onResponseVersion (buffer : List UInt8) (start length : Nat) (s : HttpResponseParser) :
    Except ClientFault HttpResponseParser := do
  if strncmpEq (buffer.drop start) (bytes "HTTP/1.1") length then
    return { s with data := { s.data with version := 0x11 } }
  else if strncmpEq (buffer.drop start) (bytes "HTTP/1.0") length then
    return { s with data := { s.data with version := 0x10 } }
  else
    let _ ← clientText buffer start length
    return s.setError 1001

/-- An action at position `p` of the buffer. -/
def ClientAction.run (buffer : List UInt8) (p : Nat) (a : ClientAction) (s : HttpResponseParser) :
    Except ClientFault HttpResponseParser :=
  match a with
  | .mark => .ok { s with parser := { s.parser with mark := p } }
  | .startField => .ok { s with parser := { s.parser with fieldStart := p } }
  | .writeField => .ok { s with parser := { s.parser with fieldLen := sizeSub p s.parser.fieldStart } }
  | .writeContentLen =>
    .ok { s with parser := { s.parser with contentLen := longToInt (strtol 10 (buffer.drop s.parser.mark)) } }
  | .writeConnectionClose => .ok { s with parser := { s.parser with close := true } }
  | .writeValue =>
    onResponseHttpField buffer s.parser.fieldStart s.parser.fieldLen s.parser.mark (sizeSub p s.parser.mark) s
  | .reasonPhrase => onResponseReason buffer s.parser.mark (sizeSub p s.parser.mark) s
  | .statusCode =>
    let status := longToInt (strtol 10 (buffer.drop s.parser.mark))
    onResponseStatus buffer s.parser.mark { s with parser := { s.parser with status } }
  | .httpVersion => onResponseVersion buffer s.parser.mark (sizeSub p s.parser.mark) s
  | .chunkSize =>
    let contentLen := longToInt (strtol 16 (buffer.drop s.parser.mark))
    .ok { s with parser := { s.parser with chunked := true, contentLen, chunksDone := contentLen ≤ 0 } }
  | .transChunked => .ok { s with parser := { s.parser with chunked := true } }
  | .done => .ok { s with parser := { s.parser with bodyStart := p + 1 } }

/-- The scanner over a buffer; `done` ends the scan. -/
def clientMachine (buffer : List UInt8) : ActionTable.Machine ClientAction UInt8 HttpResponseParser ClientFault where
  next := ClientMachine.next
  run := ClientAction.run buffer
  ends a := a = .done

/-! ## Running the machine -/

/-- The parser after `httpclient_parser_execute`, and how far it scanned. -/
structure ClientExecuted where
  self : HttpResponseParser
  scanned : Nat

/-- What `httpclient_parser_execute` returns. -/
def ClientExecuted.nread (e : ClientExecuted) : Nat := e.self.parser.nread

/-- The end of `httpclient_parser_execute`: the state and `nread` are stored, and the assertions are checked. -/
def storeClientScan (len : Nat) (r : Scan.Scanned (ActionTable.Cursor HttpResponseParser)) :
    Except ClientFault ClientExecuted :=
  let scanned := r.state.self.parser
  let parser := { scanned with cs := r.state.cs, nread := scanned.nread + r.count }
  if len < parser.nread then .error (.assertion .nread)
  else if len < parser.bodyStart then .error (.assertion .bodyStart)
  else .ok ⟨{ r.state.self with parser }, r.count⟩

/-- `httpclient_parser_execute` with `off` 0. There is no case for the error state, so that a scan which starts in it
comes to the code behind the cases, which sets the state to 2. -/
def httpclientParserExecute (buffer : List UInt8) (len : Nat) (s : HttpResponseParser) :
    Except ClientFault ClientExecuted :=
  match buffer[len]? with
  | none => .error (.memory .outOfRange)
  | some c =>
    if c ≠ 0 then .error (.assertion .terminator)
    else if (len : Int) ≠ intSize len then .error (.assertion .distance)
    else if len ≠ 0 ∧ s.parser.cs = 0 then storeClientScan len ⟨⟨2, 0, s⟩, 0, .more⟩
    else (Scan.scan (clientMachine buffer).step (buffer.take len) ⟨s.parser.cs, 0, s⟩).bind (storeClientScan len)

/-- The start of `HttpResponseParser::execute`. -/
def HttpResponseParser.restart (s : HttpResponseParser) (chunck : Bool) : HttpResponseParser :=
  if chunck then { s with parser := httpclientParserInit s.parser } else s

/-- `HttpResponseParser::execute`: what is left moves to the front of the buffer. -/
def HttpResponseParser.execute (s : HttpResponseParser) (buffer : List UInt8) (len : Nat) (chunck : Bool) :
    Except ClientFault (ClientExecuted × List UInt8) :=
  (httpclientParserExecute buffer len (s.restart chunck)).map fun e =>
    (e, overwrite buffer 0 (slice buffer e.nread (sizeSub len e.nread)))

end Megalo
