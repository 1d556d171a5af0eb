import Megalo.Http.ClientWords
import Megalo.Http.Printed

/-!
# Header lines of a response

- `ClientHead` is what a parser has of a response, and `ClientHead.field` what a header makes of it, where three headers
  mean something to the parser itself (`Header.isClose`, `Header.isChunked`, `Header.isNumber`);
- `reads_header`: a line is read so. A `connection` that is `close` is noted with the first character behind its line,
  so that two states stand between lines (`ClientMachine.lineState`).
-/

namespace Megalo

open MachineInt Overwrite ActionTable.Machine

/-! ## What a header is to the parser -/

/-- A name and a value. -/
abbrev Header := List UInt8 × List UInt8

/-- `connection: close`. -/
def Header.isClose (e : Header) : Bool := e.1.map toLower = bytes "connection" && e.2.map toLower = bytes "close"

/-- `transfer-encoding: chunked`. -/
def Header.isChunked (e : Header) : Bool :=
  e.1.map toLower = bytes "transfer-encoding" && e.2.map toLower = bytes "chunked"

/-- `content-length` with a number. -/
def Header.isNumber (e : Header) : Bool :=
  e.1.map toLower = bytes "content-length" && e.2 ≠ [] && e.2.all (isDigitIn 10)

namespace ClientMachine

variable {name value : List UInt8}

theorem colonState_iff (name : List UInt8) : ∀ e ∈ names, colonState name = e.1 ↔ name.map toLower = bytes e.2 := by
  have hentry : ∀ e ∈ names, e.1 ≠ 22 ∧ follow (names.map fun e => (e.1, bytes e.2)) 22 (bytes e.2) = e.1 ∧
      ∀ e' ∈ names.map fun e => (e.1, bytes e.2), e'.1 = e.1 → e'.2 = bytes e.2 := by
    decide +kernel
  intro e he
  obtain ⟨hne, hstate, hunique⟩ := hentry e he
  exact follow_eq_iff hne hstate hunique

theorem colonState_mem (name : List UInt8) : colonState name ∈ [22, 35, 61, 112] := by
  rcases follow_cases (names.map fun e => (e.1, bytes e.2)) 22 (name.map toLower) with hmem | hother
  · obtain ⟨e, he, heq⟩ := List.mem_map.mp hmem
    have hstates : ∀ e ∈ names, e.1 ∈ [22, 35, 61, 112] := by decide
    have hcolon : colonState name = e.1 := (congrArg Prod.fst heq).symm
    rw [hcolon]
    exact hstates e he
  · have hcolon : colonState name = 22 := hother.1
    rw [hcolon]
    decide

/-- The word that is followed in a state. -/
theorem follow_value {n m : Nat} {w : String} (hm : m ≠ 23) (hw : follow (valueTrail n) 23 (bytes w) = m)
    (hentry : ∀ e ∈ valueTrail n, e.1 = m → e.2 = bytes w) :
    follow (valueTrail n) 23 (value.map toLower) = m ↔ value.map toLower = bytes w :=
  follow_eq_iff hm hw hentry

/-- In other states, it is not. -/
theorem follow_value_ne {n m : Nat} (hm : m ≠ 23) (hentry : ∀ e ∈ valueTrail n, e.1 ≠ m) :
    follow (valueTrail n) 23 (value.map toLower) ≠ m := by
  intro h
  rcases follow_cases (valueTrail n) 23 (value.map toLower) with hmem | hother
  · exact hentry _ hmem h
  · exact hm (h.symm.trans hother.1)

/-- The line ends as the header says. -/
theorem valueEnd_eq (hne : value ≠ []) : valueEnd (valueState (colonState name) value) =
    if Header.isClose (name, value) then ⟨[.writeValue], 88⟩
    else if Header.isChunked (name, value) then ⟨[.writeValue], 71⟩
    else if Header.isNumber (name, value) then ⟨[.writeContentLen, .writeValue], 24⟩ else ⟨[.writeValue], 24⟩ := by
  have h35 : colonState name = 35 ↔ name.map toLower = bytes "connection" := colonState_iff name _ (.head _)
  have h61 : colonState name = 61 ↔ name.map toLower = bytes "transfer-encoding" :=
    colonState_iff name _ (.tail _ (.head _))
  have h112 : colonState name = 112 ↔ name.map toLower = bytes "content-length" :=
    colonState_iff name _ (.tail _ (.tail _ (.head _)))
  unfold Header.isClose Header.isChunked Header.isNumber
  simp only [← h35, ← h61, ← h112, hne, ne_eq, not_false_eq_true, decide_true, Bool.and_true]
  have hmem := colonState_mem name
  simp only [List.mem_cons, List.not_mem_nil, or_false] at hmem
  rcases hmem with hn | hn | hn | hn <;> rw [hn]
  · have h100 : follow (valueTrail 22) 23 (value.map toLower) ≠ 100 := follow_value_ne (by decide) (by decide)
    have h87 : follow (valueTrail 22) 23 (value.map toLower) ≠ 87 := follow_value_ne (by decide) (by decide)
    have h119 : follow (valueTrail 22) 23 (value.map toLower) ≠ 119 := follow_value_ne (by decide) (by decide)
    simp [valueState, valueEnd, h100, h87, h119]
  · have h100 : follow (valueTrail 35) 23 (value.map toLower) = 100 ↔ value.map toLower = bytes "close" :=
      follow_value (by decide) (by decide) (by decide)
    have h87 : follow (valueTrail 35) 23 (value.map toLower) ≠ 87 := follow_value_ne (by decide) (by decide)
    have h119 : follow (valueTrail 35) 23 (value.map toLower) ≠ 119 := follow_value_ne (by decide) (by decide)
    simp [valueState, valueEnd, h100, h87, h119]
  · have h100 : follow (valueTrail 61) 23 (value.map toLower) ≠ 100 := follow_value_ne (by decide) (by decide)
    have h87 : follow (valueTrail 61) 23 (value.map toLower) = 87 ↔ value.map toLower = bytes "chunked" :=
      follow_value (by decide) (by decide) (by decide)
    have h119 : follow (valueTrail 61) 23 (value.map toLower) ≠ 119 := follow_value_ne (by decide) (by decide)
    simp [valueState, valueEnd, h100, h87, h119]
  · by_cases hdigits : value.all (isDigitIn 10) = true <;> simp [valueState, valueEnd, hdigits]

end ClientMachine

/-! ## Reading a header -/

/-- What a parser has of a response. -/
structure ClientHead where
  data : HttpResponse
  status : Int
  contentLen : Int
  chunked : Bool
  chunksDone : Bool
  close : Bool

/-- What the parser has. -/
def HttpResponseParser.head (s : HttpResponseParser) : ClientHead :=
  { data := s.data, status := s.parser.status, contentLen := s.parser.contentLen, chunked := s.parser.chunked
    chunksDone := s.parser.chunksDone, close := s.parser.close }

namespace ClientHead

/-- A `connection` that is `close` is noted. -/
def noted (h : ClientHead) (pending : Bool) : ClientHead := { h with close := h.close || pending }

/-- A header is stored. -/
def stored (h : ClientHead) (e : Header) : ClientHead :=
  { h with
    data := { h.data with headers := h.data.headers.set e.1 e.2 }
    contentLen := if e.isNumber then longToInt (strtol 10 e.2) else h.contentLen }

/-- A header is read. -/
def field (h : ClientHead) (e : Header) : ClientHead := { h.stored e with chunked := h.chunked || e.isChunked }

end ClientHead

/-- A parser in the middle of a head, without an error. -/
structure ClientHeld (h : ClientHead) (s : HttpResponseParser) : Prop where
  head : s.head = h
  error : s.error = 0
  nread : s.parser.nread = 0

/-- A parser behind a name. -/
structure ClientNamed (buffer name : List UInt8) (h : ClientHead) (s : HttpResponseParser) : Prop where
  held : ClientHeld h s
  fieldLen : s.parser.fieldLen = name.length
  name : clientText buffer s.parser.fieldStart name.length = .ok name

variable {buffer name value seg rest : List UInt8} {b : UInt8} {p n : Nat} {pending : Bool} {h : ClientHead}
  {s : HttpResponseParser} {e : Header}

theorem clientText_ahead (hahead : buffer.drop p = seg ++ b :: rest) : clientText buffer p seg.length = .ok seg := by
  rw [clientText, text_ahead hahead]
  rfl

theorem reads_name (hne : name ≠ []) (htoken : ∀ c ∈ name, Grammar.isToken c = true) :
    (clientMachine buffer).Reads buffer (name ++ [58]) (ClientMachine.lineState pending) (fun _ s => ClientHeld h s)
      (ClientMachine.colonState name) (fun _ s => ClientNamed buffer name (h.noted pending) s) := by
  refine ActionTable.Machine.reads_word (ClientMachine.enters_name buffer pending hne htoken)
    (ClientMachine.next_colon name) ?_ rfl fun p s rest hs hahead => ?_
  · cases pending <;> rfl
  · obtain ⟨rfl, herror, hnread⟩ := hs
    have hlen : sizeSub (p + name.length) p = name.length := sizeSub_add p name.length
    cases pending with
    | false =>
      refine ⟨_, _, rfl, rfl, ⟨?_, herror, hnread⟩, hlen, clientText_ahead hahead⟩
      simp [HttpResponseParser.head, ClientHead.noted]
    | true =>
      refine ⟨_, _, rfl, rfl, ⟨?_, herror, hnread⟩, hlen, clientText_ahead hahead⟩
      simp [HttpResponseParser.head, ClientHead.noted]

/-- The blank behind the colon. -/
theorem reads_blank (hn : n ∈ [22, 35, 61, 112]) : (clientMachine buffer).Reads buffer [32] n
    (fun _ s => ClientNamed buffer name h s) n (fun _ s => ClientNamed buffer name h s) := by
  have hblank : ∀ n ∈ [22, 35, 61, 112], ClientMachine.next n 32 = some ⟨[.mark], n⟩ := by decide
  refine ActionTable.Machine.reads_char (hblank n hn) rfl fun p s rest hs _ =>
    ⟨_, rfl, ⟨?_, hs.held.error, hs.held.nread⟩, hs.fieldLen, hs.name⟩
  exact hs.held.head

/-- A header is stored. -/
def HttpResponseParser.store (s : HttpResponseParser) (name value : List UInt8) : HttpResponseParser :=
  { s with data := { s.data with headers := s.data.headers.set name value } }

/-- A value is stored under its name. -/
theorem runActions_writeValue (hs : ClientNamed buffer name h s) (hne : name ≠ [])
    (hmark : buffer.drop s.parser.mark = value ++ b :: rest) :
    (clientMachine buffer).runActions (s.parser.mark + value.length) [.writeValue] s = .ok (s.store name value) := by
  have hlen : name.length ≠ 0 := fun h0 => hne (List.length_eq_zero_iff.mp h0)
  have hrun : ClientAction.run buffer (s.parser.mark + value.length) .writeValue s = .ok (s.store name value) := by
    simp only [ClientAction.run, hs.fieldLen, sizeSub_add, onResponseHttpField, if_neg hlen, hs.name,
      clientText_ahead hmark]
    rfl
  rw [ActionTable.Machine.runActions, show (clientMachine buffer).run _ .writeValue s = _ from hrun]
  rfl

/-- A number is read as far as the carriage return. -/
theorem strtol_number (hne : value ≠ []) (hdigits : value.all (isDigitIn 10) = true) (rest : List UInt8) :
    strtol 10 (value ++ 13 :: rest) = strtol 10 value := by
  have hvalue : strtol 10 (value ++ []) = min (2 ^ 63 - 1) (digitsValue 10 value) :=
    strtol_digits (List.all_eq_true.mp hdigits) hne nofun
  rw [List.append_nil] at hvalue
  rw [hvalue]
  refine strtol_digits (List.all_eq_true.mp hdigits) hne fun c hc => ?_
  obtain rfl := Option.some.inj hc
  decide

/-- The state behind the carriage return, and the line feed. -/
def Header.ended (e : Header) : Nat := if e.isClose then 88 else if e.isChunked then 71 else 24

/-- At most one of the three. -/
theorem Header.exclusive (e : Header) : (e.isClose = true → e.isChunked = false ∧ e.isNumber = false) ∧
    (e.isChunked = true → e.isNumber = false) := by
  have hct : bytes "connection" ≠ bytes "transfer-encoding" := by decide
  have hcl : bytes "connection" ≠ bytes "content-length" := by decide
  have htl : bytes "transfer-encoding" ≠ bytes "content-length" := by decide
  unfold isClose isChunked isNumber
  simp only [Bool.and_eq_true, decide_eq_true_eq]
  constructor
  · rintro ⟨hname, -⟩
    simp [hname, hct, hcl]
  · rintro ⟨hname, -⟩
    simp [hname, htl]

/-- What is done at the carriage return. -/
theorem next_valueEnd (name : List UInt8) (hne : value ≠ []) :
    ClientMachine.next (ClientMachine.valueState (ClientMachine.colonState name) value) 13 =
      some ⟨(if Header.isNumber (name, value) then [.writeContentLen] else []) ++ [.writeValue],
        Header.ended (name, value)⟩ := by
  obtain ⟨hclose, hchunked⟩ := Header.exclusive (name, value)
  rw [ClientMachine.next_return (ClientMachine.colonState_mem name), ClientMachine.valueEnd_eq hne, Header.ended]
  split
  · rename_i h
    rw [(hclose h).2]
    rfl
  · split
    · rename_i h
      rw [hchunked h]
      rfl
    · split <;> rfl

/-- A value, as far as the carriage return. -/
theorem reads_value (hne : name ≠ []) (hv : value ≠ [])
    (hblank : ∀ c ∈ value.head?, ClientMachine.accepts c ClientMachine.blank = false)
    (hline : ∀ c ∈ value, ClientMachine.inLine c = true) :
    (clientMachine buffer).Reads buffer (value ++ [13]) (ClientMachine.colonState name)
      (fun _ s => ClientNamed buffer name h s) (Header.ended (name, value))
      (fun _ s => ClientHeld (h.stored (name, value)) s) := by
  refine ActionTable.Machine.reads_word
    (ClientMachine.enters_value buffer (ClientMachine.colonState_mem name) hv hblank hline) (next_valueEnd name hv)
    rfl ?_ fun p s rest hs hahead => ?_
  · split <;> rfl
  · let marked : HttpResponseParser := { s with parser := { s.parser with mark := p } }
    have hmarked : ClientNamed buffer name h marked :=
      ⟨⟨hs.held.head, hs.held.error, hs.held.nread⟩, hs.fieldLen, hs.name⟩
    by_cases hnumber : Header.isNumber (name, value) = true
    · have hdigits : value.all (isDigitIn 10) = true := by
        rw [Header.isNumber, Bool.and_eq_true] at hnumber
        exact hnumber.2
      let counted : HttpResponseParser :=
        { marked with parser := { marked.parser with contentLen := longToInt (strtol 10 value) } }
      have hcounted : ClientNamed buffer name { h with contentLen := longToInt (strtol 10 value) } counted :=
        ⟨⟨by rw [← hs.held.head]; rfl, hs.held.error, hs.held.nread⟩, hs.fieldLen, hs.name⟩
      have hcount : (clientMachine buffer).run (p + value.length) .writeContentLen marked = .ok counted := by
        simp only [clientMachine, ClientAction.run, marked, hahead, strtol_number hv hdigits, counted]
      have hrun := runActions_writeValue hcounted hne hahead
      refine ⟨marked, counted.store name value, rfl, ?_, ?_, hs.held.error, hs.held.nread⟩
      · rw [if_pos hnumber, List.singleton_append, ActionTable.Machine.runActions, hcount]
        exact hrun
      · rw [ClientHead.stored, if_pos hnumber, ← hs.held.head]
        rfl
    · have hrun := runActions_writeValue hmarked hne hahead
      refine ⟨marked, marked.store name value, rfl, ?_, ?_, hs.held.error, hs.held.nread⟩
      · rw [if_neg hnumber, List.nil_append]
        exact hrun
      · rw [ClientHead.stored, if_neg hnumber, ← hs.held.head]
        rfl

/-- A value that is empty, in the state of any name that is not followed. -/
theorem reads_nothing (hne : name ≠ []) (hn : ClientMachine.colonState name = 22) :
    (clientMachine buffer).Reads buffer [13] (ClientMachine.colonState name) (fun _ s => ClientNamed buffer name h s)
      (Header.ended (name, [])) (fun _ s => ClientHeld (h.stored (name, [])) s) := by
  have hclose : Header.isClose (name, []) = false := Bool.and_eq_false_iff.mpr (.inr rfl)
  have hchunked : Header.isChunked (name, []) = false := Bool.and_eq_false_iff.mpr (.inr rfl)
  have hnumber : Header.isNumber (name, []) = false :=
    Bool.and_eq_false_iff.mpr (.inl (Bool.and_eq_false_iff.mpr (.inr rfl)))
  have hnext : ClientMachine.next 22 13 = some ⟨[.mark, .writeValue], 24⟩ := by decide
  have hended : Header.ended (name, []) = 24 := by rw [Header.ended, hclose, hchunked]; rfl
  rw [hn, hended]
  refine ActionTable.Machine.reads_char hnext rfl fun p s rest hs hahead => ?_
  let marked : HttpResponseParser := { s with parser := { s.parser with mark := p } }
  have hmarked : ClientNamed buffer name h marked :=
    ⟨⟨hs.held.head, hs.held.error, hs.held.nread⟩, hs.fieldLen, hs.name⟩
  have hnothing : buffer.drop marked.parser.mark = [] ++ 13 :: rest := hahead
  have hrun := runActions_writeValue hmarked hne hnothing
  refine ⟨marked.store name [], hrun, ?_, hs.held.error, hs.held.nread⟩
  rw [ClientHead.stored, hnumber, ← hs.held.head]
  rfl

/-- The line feed behind a header. -/
theorem reads_feed (e : Header) :
    (clientMachine buffer).Reads buffer [10] e.ended (fun _ s => ClientHeld (h.stored e) s)
    (ClientMachine.lineState e.isClose) (fun _ s => ClientHeld (h.field e) s) := by
  have hfeed : ClientMachine.next 88 10 = some ⟨[], 43⟩ ∧ ClientMachine.next 71 10 = some ⟨[.transChunked], 20⟩ ∧
      ClientMachine.next 24 10 = some ⟨[], 20⟩ := by decide
  have hsame : e.isChunked = false → h.field e = h.stored e := fun hc => by
    simp [ClientHead.field, ClientHead.stored, hc]
  rw [Header.ended]
  cases hclose : e.isClose with
  | true =>
    rw [hsame (e.exclusive.1 hclose).1]
    exact ActionTable.Machine.reads_char hfeed.1 rfl fun p s rest hs _ => ⟨s, rfl, hs⟩
  | false =>
    cases hchunked : e.isChunked with
    | true =>
      refine ActionTable.Machine.reads_char hfeed.2.1 rfl fun p s rest hs _ => ⟨_, rfl, ?_, hs.error, hs.nread⟩
      rw [ClientHead.field, hchunked, Bool.or_true, ← hs.head]
      rfl
    | false =>
      rw [hsame hchunked]
      exact ActionTable.Machine.reads_char hfeed.2.2 rfl fun p s rest hs _ => ⟨s, rfl, hs⟩

/-- A header with a token for a name; the three names that are followed have values. -/
structure Header.Printable (e : Header) : Prop where
  name : e.1 ≠ []
  token : ∀ c ∈ e.1, Grammar.isToken c = true
  value : NoBreak e.2
  blank : ∀ c ∈ e.2.head?, ClientMachine.accepts c ClientMachine.blank = false
  filled : e.2 = [] → ∀ w ∈ ClientMachine.names, e.1.map toLower ≠ bytes w.2

/-- **A header.** Its line is read, and it is stored. -/
theorem ClientMachine.reads_header (he : e.Printable) :
    (clientMachine buffer).Reads buffer (HttpMessage.headerLine e.1 e.2 ++ crlf) (ClientMachine.lineState pending)
      (fun _ s => ClientHeld h s) (ClientMachine.lineState e.isClose)
      (fun _ s => ClientHeld ((h.noted pending).field e) s) := by
  obtain ⟨name, value⟩ := e
  have hvalue : (clientMachine buffer).Reads buffer (value ++ [13]) (ClientMachine.colonState name)
      (fun _ s => ClientNamed buffer name (h.noted pending) s) (Header.ended (name, value))
      (fun _ s => ClientHeld ((h.noted pending).stored (name, value)) s) := by
    by_cases hv : value = []
    · subst hv
      refine reads_nothing he.name ?_
      have hmem := ClientMachine.colonState_mem name
      have hstate : ∀ w ∈ ClientMachine.names, ClientMachine.colonState name ≠ w.1 := fun w hw hcs =>
        he.filled rfl w hw ((ClientMachine.colonState_iff name w hw).mp hcs)
      simp only [ClientMachine.names, List.forall_mem_cons] at hstate
      simpa [hstate.1, hstate.2.1, hstate.2.2.1] using hmem
    · refine reads_value he.name hv he.blank fun c hc => ?_
      have hbreak : c ≠ 10 ∧ c ≠ 13 := ⟨fun h0 => he.value.2 (h0 ▸ hc), fun h0 => he.value.1 (h0 ▸ hc)⟩
      simp [ClientMachine.inLine, hbreak.1, hbreak.2]
  have hline : HttpMessage.headerLine name value ++ crlf = (name ++ [58]) ++ ([32] ++ ((value ++ [13]) ++ [10])) := by
    have hcolon : bytes ": " = [58, 32] := by decide
    simp [HttpMessage.headerLine, hcolon, crlf]
  rw [hline]
  exact (reads_name he.name he.token).append ((reads_blank (ClientMachine.colonState_mem name)).append
    (hvalue.append (reads_feed (name, value))))

end Megalo
