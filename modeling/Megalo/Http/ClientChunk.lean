import Megalo.Http.ClientPrinted

/-!
# Chunk headers

The size of a chunk is in hexadecimal digits, with extensions behind it. `chunk_reproduced`: whatever a parser had
before, a call that starts with a chunk header finishes behind it; the parser has the size then, and the extensions
among the headers, where one without a value has an empty one.
-/

namespace Megalo

open MachineInt Overwrite ActionTable.Machine

variable {buffer size rest : List UInt8} {es : List Header} {len : Nat} {h : ClientHead} {s : HttpResponseParser}

/-- An extension. -/
def chunkExtension (e : Header) : List UInt8 := 59 :: (e.1 ++ if e.2 = [] then [] else 61 :: e.2)

/-- The text of a chunk header. -/
def chunkHeader (size : List UInt8) (es : List Header) : List UInt8 := size ++ es.flatMap chunkExtension ++ crlf

/-- The size in digits, and tokens in the extensions. -/
structure ChunkPrintable (size : List UInt8) (es : List Header) : Prop where
  nonempty : size ≠ []
  digits : ∀ c ∈ size, isxdigit c = true
  names : ∀ e ∈ es, e.1 ≠ []
  tokens : ∀ e ∈ es, ∀ c ∈ e.1 ++ e.2, Grammar.isToken c = true

/-- The character in front of the other extensions or of the end, and the state behind it. -/
def chunkNext : List Header → UInt8 × Nat
  | [] => (13, 3)
  | _ :: _ => (59, 4)

/-- What is behind that character. -/
def chunkRest : List Header → List UInt8
  | [] => []
  | e :: es => (e.1 ++ if e.2 = [] then [] else 61 :: e.2) ++ [(chunkNext es).1] ++ chunkRest es

theorem chunkExtensions_eq (es : List Header) :
    es.flatMap chunkExtension ++ [13] = (chunkNext es).1 :: chunkRest es := by
  induction es with
  | nil => rfl
  | cons e es ih => simp [chunkNext, chunkRest, chunkExtension, ih]

/-! ## The machine -/

theorem xdigit_client : ∀ c, isxdigit c = true →
    ClientMachine.next 1 c = some ⟨[.mark], 2⟩ ∧ ClientMachine.next 2 c = some ⟨[], 2⟩ :=
  Machine.forall_byte (by decide +kernel)

theorem token_client : ∀ c, Grammar.isToken c = true → ClientMachine.next 4 c = some ⟨[.startField], 5⟩ ∧
    ClientMachine.next 5 c = some ⟨[], 5⟩ ∧ ClientMachine.next 6 c = some ⟨[.mark], 7⟩ ∧
    ClientMachine.next 7 c = some ⟨[], 7⟩ :=
  Machine.forall_byte (by decide +kernel)

theorem next_chunk (es : List Header) :
    ClientMachine.next 2 (chunkNext es).1 = some ⟨[.chunkSize], (chunkNext es).2⟩ ∧
    ClientMachine.next 5 (chunkNext es).1 = some ⟨[.writeField, .mark, .writeValue], (chunkNext es).2⟩ ∧
    ClientMachine.next 7 (chunkNext es).1 = some ⟨[.writeValue], (chunkNext es).2⟩ := by
  cases es with
  | nil => decide
  | cons e es => exact (by decide : ClientMachine.next 2 59 = some ⟨[.chunkSize], 4⟩ ∧
      ClientMachine.next 5 59 = some ⟨[.writeField, .mark, .writeValue], 4⟩ ∧
      ClientMachine.next 7 59 = some ⟨[.writeValue], 4⟩)

/-- Characters that a state stays in, behind a first one. -/
theorem enters_stays {cs t : Nat} {word : List UInt8} {first : ClientAction} {p : UInt8 → Prop} (hne : word ≠ [])
    (hword : ∀ c ∈ word, p c) (hfirst : ∀ c, p c → (clientMachine buffer).next cs c = some ⟨[first], t⟩)
    (hstays : ∀ c, p c → (clientMachine buffer).next t c = some ⟨[], t⟩) :
    enters (clientMachine buffer).next [first] word cs = some t := by
  cases word with
  | nil => exact absurd rfl hne
  | cons c word =>
    rw [enters_cons (hfirst c (hword c List.mem_cons_self))]
    exact quiet_stays fun c' hc' => hstays c' (hword c' (List.mem_cons_of_mem _ hc'))

/-! ## The parts of a chunk header -/

/-- A chunk of a size begins. -/
def ClientHead.chunk (h : ClientHead) (size : List UInt8) : ClientHead :=
  let contentLen := longToInt (min (2 ^ 63 - 1) (digitsValue 16 size) : Nat)
  { h with chunked := true, contentLen, chunksDone := contentLen ≤ 0 }

theorem strtol_chunk (hsize : size ≠ []) (hdigits : ∀ c ∈ size, isxdigit c = true) (es : List Header) :
    strtol 16 (size ++ (chunkNext es).1 :: rest) = min (2 ^ 63 - 1) (digitsValue 16 size) := by
  have hall : ∀ c, isxdigit c = true → isDigitIn 16 c = true := Machine.forall_byte (by decide +kernel)
  refine strtol_digits (fun c hc => hall c (hdigits c hc)) hsize fun c hc => ?_
  obtain rfl := Option.some.inj hc
  cases es with
  | nil => decide
  | cons e es => exact (by decide : isDigitIn 16 59 = false ∧ (59 : UInt8) ≠ 120 ∧ (59 : UInt8) ≠ 88)

theorem reads_size (hsize : size ≠ []) (hdigits : ∀ c ∈ size, isxdigit c = true) (es : List Header) :
    (clientMachine buffer).Reads buffer (size ++ [(chunkNext es).1]) 1 (fun _ s => ClientHeld h s) (chunkNext es).2
      (fun _ s => ClientHeld (h.chunk size) s) := by
  have henters : enters (clientMachine buffer).next [.mark] size 1 = some 2 :=
    enters_stays hsize hdigits (fun c hc => (xdigit_client c hc).1) fun c hc => (xdigit_client c hc).2
  refine ActionTable.Machine.reads_word henters (next_chunk es).1 rfl rfl fun p s rest hs hahead => ?_
  refine ⟨_, _, rfl, rfl, ?_, hs.error, hs.nread⟩
  simp only [hahead, strtol_chunk hsize hdigits, ClientHead.chunk, HttpResponseParser.head, ← hs.head]

/-- A header among those of the response. -/
def ClientHead.extended (h : ClientHead) (name value : List UInt8) : ClientHead :=
  { h with data := { h.data with headers := h.data.headers.set name value } }

/-- An extension without a value. -/
theorem reads_bare {name : List UInt8} (hne : name ≠ []) (htoken : ∀ c ∈ name, Grammar.isToken c = true)
    (es : List Header) :
    (clientMachine buffer).Reads buffer (name ++ [(chunkNext es).1]) 4 (fun _ s => ClientHeld h s) (chunkNext es).2
      (fun _ s => ClientHeld (h.extended name []) s) := by
  have henters : enters (clientMachine buffer).next [.startField] name 4 = some 5 :=
    enters_stays hne htoken (fun c hc => (token_client c hc).1) fun c hc => (token_client c hc).2.1
  refine ActionTable.Machine.reads_word henters (next_chunk es).2.1 rfl rfl fun p s rest hs hahead => ?_
  let started : HttpResponseParser := { s with parser := { s.parser with fieldStart := p } }
  let marked : HttpResponseParser := { started with parser :=
    { started.parser with fieldLen := sizeSub (p + name.length) p, mark := p + name.length } }
  have hmarked : ClientNamed buffer name h marked :=
    ⟨⟨hs.head, hs.error, hs.nread⟩, sizeSub_add p name.length, clientText_ahead hahead⟩
  have hnothing : buffer.drop marked.parser.mark = [] ++ (chunkNext es).1 :: rest := Megalo.drop_ahead name hahead
  have hrun := runActions_writeValue hmarked hne hnothing
  refine ⟨started, marked.store name [], rfl, hrun, ?_, hs.error, hs.nread⟩
  rw [ClientHead.extended, ← hs.head]
  rfl

/-- An extension with a value. -/
theorem reads_valued {name value : List UInt8} (buffer : List UInt8) (h : ClientHead) (hne : name ≠ [])
    (hv : value ≠ []) (htoken : ∀ c ∈ name ++ value, Grammar.isToken c = true) (es : List Header) :
    (clientMachine buffer).Reads buffer ((name ++ [61]) ++ (value ++ [(chunkNext es).1])) 4 (fun _ s => ClientHeld h s)
      (chunkNext es).2 (fun _ s => ClientHeld (h.extended name value) s) := by
  have hname : enters (clientMachine buffer).next [.startField] name 4 = some 5 :=
    enters_stays hne (fun c hc => htoken c (List.mem_append_left _ hc)) (fun c hc => (token_client c hc).1)
      fun c hc => (token_client c hc).2.1
  have hvalue : enters (clientMachine buffer).next [.mark] value 6 = some 7 :=
    enters_stays hv (fun c hc => htoken c (List.mem_append_right _ hc)) (fun c hc => (token_client c hc).2.2.1)
      fun c hc => (token_client c hc).2.2.2
  have hequals : ClientMachine.next 5 61 = some ⟨[.writeField, .mark], 6⟩ := by decide
  have hfirst : (clientMachine buffer).Reads buffer (name ++ [61]) 4 (fun _ s => ClientHeld h s) 6
      (fun _ s => ClientNamed buffer name h s) := by
    refine ActionTable.Machine.reads_word hname hequals rfl rfl fun p s rest hs hahead => ?_
    exact ⟨_, _, rfl, rfl, ⟨hs.head, hs.error, hs.nread⟩, sizeSub_add p name.length, clientText_ahead hahead⟩
  refine hfirst.append (ActionTable.Machine.reads_word hvalue (next_chunk es).2.2 rfl rfl fun p s rest hs hahead => ?_)
  let marked : HttpResponseParser := { s with parser := { s.parser with mark := p } }
  have hmarked : ClientNamed buffer name h marked :=
    ⟨⟨hs.held.head, hs.held.error, hs.held.nread⟩, hs.fieldLen, hs.name⟩
  have hrun := runActions_writeValue hmarked hne hahead
  refine ⟨marked, marked.store name value, rfl, hrun, ?_, hs.held.error, hs.held.nread⟩
  rw [ClientHead.extended, ← hs.held.head]
  rfl

/-- One extension after the other. -/
theorem reads_extensions (hnames : ∀ e ∈ es, e.1 ≠ [])
    (htokens : ∀ e ∈ es, ∀ c ∈ e.1 ++ e.2, Grammar.isToken c = true) :
    (clientMachine buffer).Reads buffer (chunkRest es) (chunkNext es).2 (fun _ s => ClientHeld h s) 3
      (fun _ s => ClientHeld { h with data := { h.data with headers := h.data.headers.sets es } } s) := by
  induction es generalizing h with
  | nil => exact .nil
  | cons e es ih =>
    have hne := hnames e List.mem_cons_self
    have htoken := htokens e List.mem_cons_self
    have htail : (clientMachine buffer).Reads buffer (chunkRest es) (chunkNext es).2
        (fun _ s => ClientHeld (h.extended e.1 e.2) s) 3 _ :=
      ih (fun e' he' => hnames e' (List.mem_cons_of_mem _ he')) fun e' he' => htokens e' (List.mem_cons_of_mem _ he')
    rw [chunkRest]
    refine ActionTable.Machine.Reads.append ?_ htail
    by_cases hv : e.2 = []
    · rw [if_pos hv, List.append_nil, hv]
      exact reads_bare hne (fun c hc => htoken c (List.mem_append_left _ hc)) es
    · have hparts : (e.1 ++ 61 :: e.2) ++ [(chunkNext es).1] = (e.1 ++ [61]) ++ (e.2 ++ [(chunkNext es).1]) := by simp
      rw [if_neg hv, hparts]
      exact reads_valued buffer h hne hv htoken es

/-- **Chunk headers.** A call that starts with a chunk header, with anything behind it, finishes behind the header,
whatever the parser had read before. -/
theorem chunk_reproduced (hprint : ChunkPrintable size es) (herror : s.error = 0) (hterm : buffer[len]? = some 0)
    (hint : len < intLimit) (htext : buffer.take len = chunkHeader size es ++ rest) :
    ∃ r, s.execute buffer len true = .ok r ∧ ClientFinished (chunkHeader size es).length rest r ∧
      r.1.self.head =
        { data := { s.data with headers := s.data.headers.sets es }
          status := s.parser.status
          contentLen := longToInt (min (2 ^ 63 - 1) (digitsValue 16 size) : Nat)
          chunked := true
          chunksDone := longToInt (min (2 ^ 63 - 1) (digitsValue 16 size) : Nat) ≤ 0
          close := false } := by
  have hheader : chunkHeader size es = ((size ++ [(chunkNext es).1]) ++ chunkRest es) ++ [10] := by
    rw [List.append_assoc size, List.singleton_append, ← chunkExtensions_eq]
    simp [chunkHeader, crlf]
  have hsize : (clientMachine buffer).Reads buffer (size ++ [(chunkNext es).1]) 1
      (fun _ t => ClientHeld (s.restart true).head t) (chunkNext es).2
      (fun _ t => ClientHeld ((s.restart true).head.chunk size) t) := reads_size hprint.nonempty hprint.digits es
  have hreads := hsize.append (reads_extensions hprint.names hprint.tokens)
  have htext' : buffer.take len = ((size ++ [(chunkNext es).1]) ++ chunkRest es) ++ 10 :: rest := by
    rw [htext, hheader, List.append_assoc, List.singleton_append]
  obtain ⟨r, hexec, hhead, hfinished⟩ :=
    execute_done (s := s) true s.parser rfl hterm hint htext' hreads ⟨rfl, herror, rfl⟩
  refine ⟨r, hexec, ?_, hhead.trans ?_⟩
  · rw [hheader, List.length_append]
    exact hfinished
  · simp only [ClientHead.chunk]
    rfl

/-- A chunk with two extensions, and the beginning of its body. -/
theorem chunk_reproduced_quoted :
    let es : List Header := [(bytes "q", bytes "1"), (bytes "last", [])]
    let text := chunkHeader (bytes "1aF") es ++ bytes "body"
    let s := HttpResponseParser.new ⟨0, 0, 0, 0, false, false, false, 0, 0, 0, 0⟩
    ∃ r, s.execute (text ++ [0]) text.length true = .ok r ∧
      ClientFinished (chunkHeader (bytes "1aF") es).length (bytes "body") r ∧
      r.1.self.head =
        { data := { s.data with headers := s.data.headers.sets es }
          status := s.parser.status
          contentLen := longToInt (min (2 ^ 63 - 1) (digitsValue 16 (bytes "1aF")) : Nat)
          chunked := true
          chunksDone := longToInt (min (2 ^ 63 - 1) (digitsValue 16 (bytes "1aF")) : Nat) ≤ 0
          close := false } :=
  chunk_reproduced ⟨by decide, by decide +kernel, by decide, by decide +kernel⟩ rfl
    (by decide +kernel) (by decide +kernel) (by decide +kernel)

end Megalo
