import Megalo.Http.Basic
import Megalo.Lib.Framing
import Megalo.Util.Digits

/-!
# `HttpRequest::dump` and `HttpResponse::dump`

- `HttpMessage` is what a request and a response have in common, and `dumpHeaders` and `dumpBody` the parts of the two
  functions that are the same; `Request` and `Response` add the rest, each with its `dump`;
- `Framed text body`: the text is lines, an empty line and the body, with one `content-length` when there is a body;
- `dump_framed`: that is so exactly for an empty body, as a body follows the `content-length` line at once.
-/

namespace Megalo

open Framing

/-! ## Texts -/

/-- `"\r\n"`. -/
def crlf : List UInt8 := [13, 10]

/-- `strcasecmp(lhs, rhs) == 0`. -/
def strcasecmpEq (lhs rhs : List UInt8) : Bool :=
  (lhs.takeWhile (· ≠ 0)).map toLower = (rhs.takeWhile (· ≠ 0)).map toLower

/-- `HttpMethodToString`. -/
def httpMethodToString (m : HttpMethod) : List UInt8 := bytes ((httpMethodMap.lookup m).getD "<unknown>")

/-- `HTTP_STATUS_MAP`. -/
def httpStatusMap : List (Nat × String) :=
  [ (100, "Continue"), (101, "Switching Protocols"), (102, "Processing"), (200, "OK"), (201, "Created"),
    (202, "Accepted"), (203, "Non-Authoritative Information"), (204, "No Content"), (205, "Reset Content"),
    (206, "Partial Content"), (207, "Multi-Status"), (208, "Already Reported"), (226, "IM Used"),
    (300, "Multiple Choices"), (301, "Moved Permanently"), (302, "Found"), (303, "See Other"), (304, "Not Modified"),
    (305, "Use Proxy"), (307, "Temporary Redirect"), (308, "Permanent Redirect"), (400, "Bad Request"),
    (401, "Unauthorized"), (402, "Payment Required"), (403, "Forbidden"), (404, "Not Found"),
    (405, "Method Not Allowed"), (406, "Not Acceptable"), (407, "Proxy Authentication Required"),
    (408, "Request Timeout"), (409, "Conflict"), (410, "Gone"), (411, "Length Required"),
    (412, "Precondition Failed"), (413, "Payload Too Large"), (414, "URI Too Long"), (415, "Unsupported Media Type"),
    (416, "Range Not Satisfiable"), (417, "Expectation Failed"), (421, "Misdirected Request"),
    (422, "Unprocessable Entity"), (423, "Locked"), (424, "Failed Dependency"), (426, "Upgrade Required"),
    (428, "Precondition Required"), (429, "Too Many Requests"), (431, "Request Header Fields Too Large"),
    (451, "Unavailable For Legal Reasons"), (500, "Internal Server Error"), (501, "Not Implemented"),
    (502, "Bad Gateway"), (503, "Service Unavailable"), (504, "Gateway Timeout"),
    (505, "HTTP Version Not Supported"), (506, "Variant Also Negotiates"), (507, "Insufficient Storage"),
    (508, "Loop Detected"), (510, "Not Extended"), (511, "Network Authentication Required") ]

/-- `HttpStatusToString`, of the code of a status. -/
def httpStatusToString (s : Nat) : List UInt8 := bytes ((httpStatusMap.lookup s).getD "<unknown")

/-! ## Messages -/

/-- The fields that `HttpRequest` and `HttpResponse` share. -/
structure HttpMessage where
  version : UInt8
  close : Bool
  websocket : Bool
  body : List UInt8
  headers : HeaderMap

/-- `HttpRequest`. -/
structure Request extends HttpMessage where
  method : HttpMethod
  path : List UInt8
  query : List UInt8
  fragment : List UInt8

/-- `HttpResponse`; the status is its code. -/
structure Response extends HttpMessage where
  status : Nat
  reason : List UInt8
  cookies : List (List UInt8)

namespace HttpMessage

variable (m : HttpMessage)

/-- `"HTTP/"` and the two digits of the version. -/
def dumpVersion : List UInt8 :=
  bytes "HTTP/" ++ decimal (m.version >>> 4).toNat ++ bytes "." ++ decimal (m.version &&& 0x0f).toNat

/-- The line of a header. -/
def headerLine (name value : List UInt8) : List UInt8 := name ++ bytes ": " ++ value

/-- The `connection` header that `dump` adds. -/
def dumpConnection : List UInt8 :=
  if m.websocket then []
  else headerLine (bytes "connection") (bytes (if m.close then "close" else "keep-alive")) ++ crlf

/-- The loop over `m_headers`. -/
def dumpHeaders : List UInt8 :=
  (m.headers.filter fun h => !(!m.websocket && strcasecmpEq h.1 (bytes "connection"))).flatMap fun h =>
    headerLine h.1 h.2 ++ crlf

/-- The line of the `content-length` that `dump` adds. -/
def contentLength : List UInt8 := headerLine (bytes "content-length") (decimal m.body.length)

/-- What follows the headers. -/
def dumpBody : List UInt8 := if m.body ≠ [] then m.contentLength ++ crlf ++ m.body else crlf

end HttpMessage

/-- `HttpRequest::dump`. -/
def Request.dump (req : Request) : List UInt8 :=
  httpMethodToString req.method ++ bytes " " ++ req.path ++ bytes (if req.query = [] then "" else "?") ++ req.query ++
    bytes (if req.fragment = [] then "" else "#") ++ req.fragment ++ bytes " " ++ req.dumpVersion ++ crlf ++
    req.dumpConnection ++ req.dumpHeaders ++ req.dumpBody

/-- `HttpResponse::dump`. -/
def Response.dump (rsp : Response) : List UInt8 :=
  rsp.dumpVersion ++ bytes " " ++ decimal rsp.status ++ bytes " " ++
    (if rsp.reason = [] then httpStatusToString rsp.status else rsp.reason) ++ crlf ++ rsp.dumpHeaders ++
    (rsp.cookies.flatMap fun c => HttpMessage.headerLine (bytes "Set-Cookie") c ++ crlf) ++ rsp.dumpConnection ++
    rsp.dumpBody

/-! ## Texts without a line break -/

/-- The text has neither CR nor LF. -/
def NoBreak (l : List UInt8) : Prop := 13 ∉ l ∧ 10 ∉ l

instance (l : List UInt8) : Decidable (NoBreak l) := inferInstanceAs (Decidable (_ ∧ _))

variable {l l' : List UInt8}

theorem NoBreak.append (h : NoBreak l) (h' : NoBreak l') : NoBreak (l ++ l') := by
  constructor
  · intro hm
    rcases List.mem_append.mp hm with hm | hm
    · exact h.1 hm
    · exact h'.1 hm
  · intro hm
    rcases List.mem_append.mp hm with hm | hm
    · exact h.2 hm
    · exact h'.2 hm

theorem NoBreak.clean (h : NoBreak l) (hne : l ≠ []) : Clean 13 10 l := ⟨hne, h.1, h.2⟩

theorem noBreak_decimal (n : Nat) : NoBreak (decimal n) :=
  ⟨fun h => absurd (isDigit_of_mem_decimal h).1 (by decide), fun h => absurd (isDigit_of_mem_decimal h).1 (by decide)⟩

/-- The texts that the two functions write between those of the message. -/
def dumpWords : List String :=
  ["", " ", "?", "#", "HTTP/", ".", ": ", "connection", "close", "keep-alive", "content-length", "Set-Cookie",
    "<unknown>", "<unknown"]

theorem noBreak_texts :
    ∀ w ∈ dumpWords ++ httpMethodMap.map Prod.snd ++ httpStatusMap.map Prod.snd, NoBreak (bytes w) := by
  decide +kernel

theorem noBreak_word {w : String} (h : w ∈ dumpWords) : NoBreak (bytes w) :=
  noBreak_texts w (List.mem_append_left _ (List.mem_append_left _ h))

/-- A text of a map, or what is written where it has none. -/
theorem noBreak_lookup {α : Type} [BEq α] [LawfulBEq α] {map : List (α × String)} {w : String}
    (h : ∀ e ∈ map, NoBreak (bytes e.2)) (hw : w ∈ dumpWords) (key : α) :
    NoBreak (bytes ((map.lookup key).getD w)) := by
  cases hkey : map.lookup key with
  | none => exact noBreak_word hw
  | some text =>
    obtain ⟨l₁, l₂, hmap, -⟩ := List.lookup_eq_some_iff.mp hkey
    exact h (key, text) (by rw [hmap]; exact List.mem_append_right _ List.mem_cons_self)

theorem noBreak_method (m : HttpMethod) : NoBreak (httpMethodToString m) :=
  noBreak_lookup (fun e he => noBreak_texts e.2 (List.mem_append_left _ (List.mem_append_right _
    (List.mem_map_of_mem he)))) (by simp [dumpWords]) m

theorem noBreak_status (s : Nat) : NoBreak (httpStatusToString s) :=
  noBreak_lookup (fun e he => noBreak_texts e.2 (List.mem_append_right _ (List.mem_map_of_mem he)))
    (by simp [dumpWords]) s

/-- What the callers of `dump` promise of the texts in a message: no line breaks, and no empty name. -/
structure HttpMessage.Clean (m : HttpMessage) : Prop where
  names : ∀ h ∈ m.headers, h.1 ≠ [] ∧ NoBreak h.1
  values : ∀ h ∈ m.headers, NoBreak h.2

structure Request.Clean (req : Request) : Prop where
  message : req.toHttpMessage.Clean
  path : NoBreak req.path
  query : NoBreak req.query
  fragment : NoBreak req.fragment

structure Response.Clean (rsp : Response) : Prop where
  message : rsp.toHttpMessage.Clean
  reason : NoBreak rsp.reason
  cookies : ∀ c ∈ rsp.cookies, NoBreak c

/-! ## Framing -/

/-- A line that is a `content-length` header. -/
def isContentLength (l : List UInt8) : Bool := strcasecmpEq (l.takeWhile (· ≠ 58)) (bytes "content-length")

/-- A start line and header lines, an empty line, and the body; the first empty line is in front of the body, and the
only `content-length` of a body that is not empty is its length. -/
structure Framed (text body : List UInt8) : Prop where
  parts : ∃ start headers, (∀ l ∈ start :: headers, Clean 13 10 l) ∧
    text = lines 13 10 (start :: headers) ++ crlf ++ body ∧
    (body ≠ [] → ∃ name, headers.filter isContentLength = [HttpMessage.headerLine name (decimal body.length)])
  first : ∃ head, text = head ++ crlf ++ crlf ++ body ∧
    ∀ before after, text = before ++ crlf ++ crlf ++ after → head.length ≤ before.length

variable {ls : List (List UInt8)} {body : List UInt8}

/-- Clean lines and an empty line are framed, with an empty body behind them. -/
theorem framed_lines {start : List UInt8} (h : ∀ l ∈ start :: ls, Clean 13 10 l) :
    Framed (lines 13 10 (start :: ls) ++ crlf) [] := by
  have hne : start :: ls ≠ [] := List.cons_ne_nil _ _
  generalize hall : start :: ls = all at h hne
  obtain ⟨front, last, rfl⟩ : ∃ front last, all = front ++ [last] :=
    ⟨_, _, (List.dropLast_append_getLast hne).symm⟩
  constructor
  · exact ⟨start, ls, by rw [hall]; exact h, by rw [hall, List.append_nil], fun hb => absurd rfl hb⟩
  · refine ⟨lines 13 10 front ++ last, by simp [lines_append, crlf], fun before after ht => ?_⟩
    have ht' : lines 13 10 (front ++ [last]) ++ 13 :: 10 :: [] = before ++ 13 :: 10 :: 13 :: 10 :: after := by
      simpa [crlf] using ht
    have hle := first_blank (by decide) h ht'
    simp only [lines_append, lines_cons, lines_nil, List.length_append, List.length_cons, List.length_nil] at hle ⊢
    omega

/-- Clean lines with a body at once behind them are not framed. -/
theorem not_framed_lines {last : List UInt8} (h : Clean 13 10 last) :
    ¬ Framed (lines 13 10 (ls ++ [last]) ++ body) body := by
  rintro ⟨⟨start, headers, -, htext, -⟩, -⟩
  have hcut := List.append_cancel_right htext
  exact lines_ne_append h hcut

namespace HttpMessage

variable {m : HttpMessage}

theorem noBreak_headerLine {name value : List UInt8} (hn : NoBreak name) (hv : NoBreak value) :
    NoBreak (headerLine name value) := (hn.append (noBreak_word (by simp [dumpWords]))).append hv

theorem clean_headerLine {name value : List UInt8} (hne : name ≠ []) (hn : NoBreak name) (hv : NoBreak value) :
    Framing.Clean 13 10 (headerLine name value) :=
  (noBreak_headerLine hn hv).clean (by simp [headerLine, hne])

theorem noBreak_version : NoBreak m.dumpVersion := by
  have hname : NoBreak (bytes "HTTP/") := noBreak_word (by simp [dumpWords])
  have hdot : NoBreak (bytes ".") := noBreak_word (by simp [dumpWords])
  exact ((hname.append (noBreak_decimal _)).append hdot).append (noBreak_decimal _)

theorem clean_contentLength : Framing.Clean 13 10 m.contentLength :=
  clean_headerLine (by decide) (noBreak_word (by simp [dumpWords])) (noBreak_decimal _)

/-- The lines that `dumpConnection` writes. -/
def connectionLines (m : HttpMessage) : List (List UInt8) :=
  if m.websocket then [] else [headerLine (bytes "connection") (bytes (if m.close then "close" else "keep-alive"))]

/-- The lines that `dumpHeaders` writes. -/
def headerLines (m : HttpMessage) : List (List UInt8) :=
  (m.headers.filter fun h => !(!m.websocket && strcasecmpEq h.1 (bytes "connection"))).map fun h => headerLine h.1 h.2

theorem dumpConnection_eq : m.dumpConnection = lines 13 10 m.connectionLines := by
  unfold dumpConnection connectionLines
  split
  · rfl
  · simp [crlf]

theorem dumpHeaders_eq : m.dumpHeaders = lines 13 10 m.headerLines := by
  simp only [dumpHeaders, headerLines, lines, List.flatMap_map, crlf]

theorem clean_connectionLines : ∀ l ∈ m.connectionLines, Framing.Clean 13 10 l := by
  intro l hl
  unfold connectionLines at hl
  split at hl
  · cases hl
  · obtain rfl := List.mem_singleton.mp hl
    refine clean_headerLine (by decide) (noBreak_word (by simp [dumpWords])) (noBreak_word ?_)
    split <;> simp [dumpWords]

theorem Clean.headerLines (h : m.Clean) : ∀ l ∈ m.headerLines, Framing.Clean 13 10 l := by
  intro l hl
  obtain ⟨e, he, rfl⟩ := List.mem_map.mp hl
  have hmem := List.mem_of_mem_filter he
  obtain ⟨hne, hn⟩ := h.names e hmem
  exact clean_headerLine hne hn (h.values e hmem)

/-- Clean lines and what `dump` writes behind the headers are framed exactly when there is no body. -/
theorem framed_dumpBody {start : List UInt8} (h : ∀ l ∈ start :: ls, Framing.Clean 13 10 l) :
    Framed (lines 13 10 (start :: ls) ++ m.dumpBody) m.body ↔ m.body = [] := by
  unfold dumpBody
  by_cases hb : m.body = []
  · rw [if_neg (not_not.mpr hb), hb]
    exact ⟨fun _ => rfl, fun _ => framed_lines h⟩
  · rw [if_pos hb]
    have hlines : lines 13 10 (start :: ls) ++ (m.contentLength ++ crlf ++ m.body) =
        lines 13 10 (start :: ls ++ [m.contentLength]) ++ m.body := by
      rw [lines_append]
      simp [crlf]
    rw [hlines]
    exact ⟨fun hf => absurd hf (not_framed_lines clean_contentLength), fun hnil => absurd hnil hb⟩

end HttpMessage

theorem Request.Clean.framed_iff {req : Request} (h : req.Clean) : Framed req.dump req.body ↔ req.body = [] := by
  let start := httpMethodToString req.method ++ bytes " " ++ req.path ++ bytes (if req.query = [] then "" else "?") ++
    req.query ++ bytes (if req.fragment = [] then "" else "#") ++ req.fragment ++ bytes " " ++ req.dumpVersion
  have hstart : Framing.Clean 13 10 start := by
    have hquery : NoBreak (bytes (if req.query = [] then "" else "?")) :=
      noBreak_word (by split <;> simp [dumpWords])
    have hfragment : NoBreak (bytes (if req.fragment = [] then "" else "#")) :=
      noBreak_word (by split <;> simp [dumpWords])
    have hspace : NoBreak (bytes " ") := noBreak_word (by simp [dumpWords])
    refine NoBreak.clean ?_ ?_
    · exact ((((((((noBreak_method _).append hspace).append h.path).append hquery).append h.query).append
        hfragment).append h.fragment).append hspace).append HttpMessage.noBreak_version
    · have hne : bytes " " ≠ [] := by decide
      simp [start, hne]
  have hdump : req.dump =
      lines 13 10 (start :: (req.connectionLines ++ req.headerLines)) ++ req.dumpBody := by
    rw [Request.dump, HttpMessage.dumpConnection_eq, HttpMessage.dumpHeaders_eq, lines_cons, lines_append]
    simp [start, crlf]
  rw [hdump]
  refine HttpMessage.framed_dumpBody fun l hl => ?_
  rcases List.mem_cons.mp hl with hl | hl
  · rw [hl]
    exact hstart
  · rcases List.mem_append.mp hl with hl | hl
    · exact HttpMessage.clean_connectionLines l hl
    · exact h.message.headerLines l hl

theorem Response.Clean.framed_iff {rsp : Response} (h : rsp.Clean) : Framed rsp.dump rsp.body ↔ rsp.body = [] := by
  let start := rsp.dumpVersion ++ bytes " " ++ decimal rsp.status ++ bytes " " ++
    (if rsp.reason = [] then httpStatusToString rsp.status else rsp.reason)
  have hstart : Framing.Clean 13 10 start := by
    have hreason : NoBreak (if rsp.reason = [] then httpStatusToString rsp.status else rsp.reason) := by
      split
      · exact noBreak_status _
      · exact h.reason
    have hspace : NoBreak (bytes " ") := noBreak_word (by simp [dumpWords])
    refine NoBreak.clean ?_ ?_
    · exact (((HttpMessage.noBreak_version.append hspace).append (noBreak_decimal _)).append hspace).append hreason
    · have hne : bytes " " ≠ [] := by decide
      simp [start, hne]
  have hdump : rsp.dump = lines 13 10 (start :: (rsp.headerLines ++
      (rsp.cookies.map (HttpMessage.headerLine (bytes "Set-Cookie")) ++ rsp.connectionLines))) ++ rsp.dumpBody := by
    rw [Response.dump, HttpMessage.dumpConnection_eq, HttpMessage.dumpHeaders_eq, lines_cons, lines_append,
      lines_append]
    simp [start, crlf, lines, List.flatMap_map]
  rw [hdump]
  refine HttpMessage.framed_dumpBody fun l hl => ?_
  rcases List.mem_cons.mp hl with hl | hl
  · rw [hl]
    exact hstart
  · rcases List.mem_append.mp hl with hl | hl
    · exact h.message.headerLines l hl
    · rcases List.mem_append.mp hl with hl | hl
      · obtain ⟨c, hc, rfl⟩ := List.mem_map.mp hl
        exact HttpMessage.clean_headerLine (by decide) (noBreak_word (by simp [dumpWords])) (h.cookies c hc)
      · exact HttpMessage.clean_connectionLines l hl

/-- **Framing.** Every request and every response whose texts have no line breaks and whose header names are not empty
is dumped as a framed message exactly when its body is empty. -/
theorem dump_framed (req : Request) (rsp : Response) (hreq : req.Clean) (hrsp : rsp.Clean) :
    (Framed req.dump req.body ↔ req.body = []) ∧ (Framed rsp.dump rsp.body ↔ rsp.body = []) :=
  ⟨hreq.framed_iff, hrsp.framed_iff⟩

/-- A request with a header, and a body or none. -/
def hostRequest (body : List UInt8) : Request :=
  { version := 0x11, close := true, websocket := false, body, headers := [(bytes "host", bytes "www.baidu.com")],
    method := .get, path := bytes "/", query := [], fragment := [] }

/-- A response with a header, and a body or none. -/
def notFoundResponse (body : List UInt8) : Response :=
  { version := 0x11, close := false, websocket := false, body, headers := [(bytes "X-X", bytes "megalo")],
    status := 404, reason := [], cookies := [] }

theorem hostRequest_clean (body : List UInt8) : (hostRequest body).Clean :=
  ⟨⟨by simp only [hostRequest]; decide, by simp only [hostRequest]; decide⟩,
    by simp only [hostRequest]; decide, by simp only [hostRequest]; decide,
    by simp only [hostRequest]; decide⟩

theorem notFoundResponse_clean (body : List UInt8) : (notFoundResponse body).Clean :=
  ⟨⟨by simp only [notFoundResponse]; decide, by simp only [notFoundResponse]; decide⟩,
    by simp only [notFoundResponse]; decide, by simp only [notFoundResponse]; decide⟩

/-- Without a body. -/
theorem dump_framed_empty :
    Framed (hostRequest []).dump (hostRequest []).body ∧
      Framed (notFoundResponse []).dump (notFoundResponse []).body := by
  obtain ⟨hreq, hrsp⟩ :=
    dump_framed (hostRequest []) (notFoundResponse []) (hostRequest_clean []) (notFoundResponse_clean [])
  exact ⟨hreq.mpr rfl, hrsp.mpr rfl⟩

/-- With a body, no empty line is in front of it. -/
theorem dump_unframed :
    (hostRequest (bytes "hello megalo")).Clean ∧ (notFoundResponse (bytes "hello megalo")).Clean ∧
      ¬ Framed (hostRequest (bytes "hello megalo")).dump (bytes "hello megalo") ∧
      ¬ Framed (notFoundResponse (bytes "hello megalo")).dump (bytes "hello megalo") := by
  have hbody : bytes "hello megalo" ≠ [] := by decide
  refine ⟨hostRequest_clean _, notFoundResponse_clean _, ?_, ?_⟩
  · intro hf
    exact hbody ((hostRequest_clean _).framed_iff.mp hf)
  · intro hf
    exact hbody ((notFoundResponse_clean _).framed_iff.mp hf)

end Megalo
