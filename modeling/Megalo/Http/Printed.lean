import Megalo.Http.HeaderMap
import Megalo.Http.Grammar
import Megalo.Http.Segmentation

/-!
# Parsing what `HttpRequest::dump` writes

- `Stands` is what is known of a first call of `http_parser_execute` between two parts of the text, and `Reads` that a
  part leads from one such place to another (`reads_method`, `reads_target`, `reads_version`, `reads_headers`);
- the headers are an ordered map, so those that come in their order are stored as they came (`dumped_sets`);
- `Request.Printable` is what the texts of a request must be for the grammar;
- `request_roundTrips`: a parser gives the request back exactly when its method is in the grammar, as all but `M-SEARCH`
  are, and the length of the text is an `int`.
-/

namespace Megalo

open MachineInt Overwrite

variable {uriRelaxed : Bool} {buffer seg word rest : List UInt8} {cs t u p : Nat} {b : UInt8} {first : Action}
  {actions : List Action} {s s' : HttpRequestParser} {data data' : HttpRequest}

/-! ## Parts of a text -/

theorem passes_char (hb : Machine.next s.parser.uriRelaxed cs b = some ⟨actions, t⟩) (hd : .done ∉ actions)
    (hr : runActions buffer p actions s = .ok s') :
    Scan.Passes (Cursor.step buffer) [b] ⟨cs, p, s⟩ ⟨t, p + 1, s'⟩ :=
  .cons (step_more (c := ⟨cs, p, s⟩) hb hr hd) rfl

theorem passes_quiet (hq : Machine.quiet s.parser.uriRelaxed seg cs = some t) :
    Scan.Passes (Cursor.step buffer) seg ⟨cs, p, s⟩ ⟨t, p + seg.length, s⟩ := by
  induction seg generalizing cs p with
  | nil =>
    cases hq
    rfl
  | cons b seg ih =>
    rw [Machine.quiet] at hq
    split at hq
    · rename_i u hb
      have hmore : Cursor.step buffer ⟨cs, p, s⟩ b = .more ⟨u, p + 1, s⟩ :=
        step_more (c := ⟨cs, p, s⟩) (g := ⟨[], u⟩) hb rfl List.not_mem_nil
      refine .cons hmore ?_
      rw [List.length_cons, Nat.add_comm seg.length 1, ← Nat.add_assoc]
      exact ih hq
    · cases hq

theorem passes_word (hw : Machine.enters s.parser.uriRelaxed first word cs = some t) (hd : first ≠ .done)
    (hr : first.run buffer p s = .ok s') :
    Scan.Passes (Cursor.step buffer) word ⟨cs, p, s⟩ ⟨t, p + word.length, s'⟩ := by
  cases word with
  | nil => cases hw
  | cons b word =>
    rw [Machine.enters] at hw
    split at hw
    · rename_i a u hb
      split at hw
      · rename_i ha
        subst ha
        have hrun : runActions buffer p [a] s = .ok s' := by
          rw [runActions, hr]
          rfl
        have hdone : .done ∉ [a] := fun hm => hd (List.mem_singleton.mp hm).symm
        have hrelaxed : s'.parser.uriRelaxed = s.parser.uriRelaxed := (run_frame hr).uriRelaxed
        have htail : Scan.Passes (Cursor.step buffer) word ⟨u, p + 1, s'⟩ ⟨t, p + 1 + word.length, s'⟩ :=
          passes_quiet (by rw [hrelaxed]; exact hw)
        rw [List.length_cons, Nat.add_comm word.length 1, ← Nat.add_assoc]
        exact .cons (step_more hb hrun hdone) htail
      · cases hw
    · cases hw

/-- What is behind a part of the text. -/
theorem drop_ahead (seg : List UInt8) (h : buffer.drop p = seg ++ rest) : buffer.drop (p + seg.length) = rest := by
  rw [← List.drop_drop, h, List.drop_left]

theorem sizeSub_add (p n : Nat) : sizeSub (p + n) p = n := by
  rw [sizeSub_of_le (Nat.le_add_right p n), Nat.add_sub_cancel_left]

/-- The characters in front of the one at hand. -/
theorem text_ahead (h : buffer.drop p = seg ++ b :: rest) : text buffer p seg.length = .ok seg := by
  have hlen := congrArg List.length h
  simp only [List.length_drop, List.length_append, List.length_cons] at hlen
  rw [text, if_pos (by omega), slice, h, List.take_left]

/-- A callback stores them. -/
theorem onText_ahead (set : List UInt8 → HttpRequest → HttpRequest) (h : buffer.drop p = seg ++ b :: rest) :
    onText set buffer p (sizeSub (p + seg.length) p) s = .ok { s with data := set seg s.data } := by
  rw [onText, sizeSub_add, text_ahead h]
  rfl

/-! ## Places in a text -/

/-- What is known of the parser at `p`. -/
structure Held (uriRelaxed : Bool) (data : HttpRequest) (p : Nat) (s : HttpRequestParser) : Prop where
  data : s.data = data
  error : s.error = 0
  uriRelaxed : s.parser.uriRelaxed = uriRelaxed
  xmlSent : s.parser.xmlSent = false
  jsonSent : s.parser.jsonSent = false
  mark : s.parser.mark ≤ p
  fieldStart : s.parser.fieldStart ≤ p
  fieldLen : s.parser.fieldLen ≤ p

theorem Held.later {q : Nat} (h : Held uriRelaxed data p s) (hpq : p ≤ q) : Held uriRelaxed data q s :=
  { h with mark := h.mark.trans hpq, fieldStart := h.fieldStart.trans hpq, fieldLen := h.fieldLen.trans hpq }

/-- After the mark was set, and something was stored. -/
theorem Held.marked {q : Nat} (h : Held uriRelaxed data p s) (hpq : p ≤ q) (f : HttpRequest → HttpRequest) :
    Held uriRelaxed (f data) q { s with parser := { s.parser with mark := p }, data := f s.data } :=
  ⟨congrArg f h.data, h.error, h.uriRelaxed, h.xmlSent, h.jsonSent, hpq, h.fieldStart.trans hpq, h.fieldLen.trans hpq⟩

/-- After the start of a query was set, and something was stored. -/
theorem Held.queried {q : Nat} (h : Held uriRelaxed data p s) (hpq : p ≤ q) (f : HttpRequest → HttpRequest) :
    Held uriRelaxed (f data) q { s with parser := { s.parser with queryStart := p }, data := f s.data } :=
  ⟨congrArg f h.data, h.error, h.uriRelaxed, h.xmlSent, h.jsonSent, h.mark.trans hpq, h.fieldStart.trans hpq,
    h.fieldLen.trans hpq⟩

/-- The cursor is in front of `rest`. -/
structure Stands (uriRelaxed : Bool) (buffer rest : List UInt8) (cs : Nat) (data : HttpRequest) (c : Cursor) :
    Prop where
  ahead : buffer.drop c.p = rest
  cs : c.cs = cs
  held : Held uriRelaxed data c.p c.self

/-- From the place in front of `seg`, the scan comes to the place behind it. -/
def Reads (uriRelaxed : Bool) (buffer seg : List UInt8) (cs : Nat) (data : HttpRequest) (cs' : Nat)
    (data' : HttpRequest) : Prop :=
  ∀ rest, Scan.Leads (Cursor.step buffer) (Stands uriRelaxed buffer (seg ++ rest) cs data) seg
    (Stands uriRelaxed buffer rest cs' data')

theorem Reads.nil : Reads uriRelaxed buffer [] cs data cs data := fun _ => .nil

theorem Reads.append {seg' : List UInt8} {data'' : HttpRequest} (h : Reads uriRelaxed buffer seg cs data t data')
    (h' : Reads uriRelaxed buffer seg' t data' u data'') : Reads uriRelaxed buffer (seg ++ seg') cs data u data'' := by
  intro rest
  rw [List.append_assoc]
  exact (h _).append (h' rest)

/-- A word and the character behind it are read, with what the first action and those at its end do. -/
theorem reads_word (hw : Machine.enters uriRelaxed first word cs = some u)
    (hb : Machine.next uriRelaxed u b = some ⟨actions, t⟩) (hfirst : first ≠ .done) (hd : .done ∉ actions)
    (hrun : ∀ p s rest, Held uriRelaxed data p s → buffer.drop p = word ++ b :: rest → ∃ s' s'',
      first.run buffer p s = .ok s' ∧ runActions buffer (p + word.length) actions s' = .ok s'' ∧
      Held uriRelaxed data' (p + word.length + 1) s'') : Reads uriRelaxed buffer (word ++ [b]) cs data t data' := by
  rintro rest ⟨_, p, s⟩ ⟨hahead, rfl, hheld⟩
  rw [List.append_assoc] at hahead
  obtain ⟨s', s'', hs', hs'', hheld'⟩ := hrun p s rest hheld hahead
  have hrelaxed : s'.parser.uriRelaxed = uriRelaxed := (run_frame hs').uriRelaxed.trans hheld.uriRelaxed
  have hword : Scan.Passes (Cursor.step buffer) word ⟨_, p, s⟩ ⟨u, p + word.length, s'⟩ :=
    passes_word (by rw [hheld.uriRelaxed]; exact hw) hfirst hs'
  have hend : Scan.Passes (Cursor.step buffer) [b] ⟨u, p + word.length, s'⟩ ⟨t, p + word.length + 1, s''⟩ :=
    passes_char (by rw [hrelaxed]; exact hb) hd hs''
  exact ⟨_, hword.append hend, drop_ahead [b] (drop_ahead word hahead), rfl, hheld'⟩

/-! ## The request line -/

/-- Where the machine goes behind a word: the state, the character, and what it leads to. -/
def wordEnds : List (Nat × UInt8 × Goto) :=
  [ (26, 32, ⟨[.requestPath, .requestUri], 4⟩), (26, 35, ⟨[.requestPath, .requestUri], 20⟩),
    (26, 63, ⟨[.requestPath], 29⟩), (33, 32, ⟨[.requestPath, .requestUri], 4⟩),
    (33, 35, ⟨[.requestPath, .requestUri], 20⟩), (33, 63, ⟨[.requestPath], 29⟩),
    (30, 32, ⟨[.queryString, .requestUri], 4⟩), (30, 35, ⟨[.queryString, .requestUri], 20⟩),
    (21, 32, ⟨[.fragment], 4⟩), (12, 13, ⟨[.httpVersion], 17⟩), (17, 10, ⟨[], 13⟩), (14, 58, ⟨[.writeField], 15⟩),
    (15, 32, ⟨[.mark], 15⟩), (15, 13, ⟨[.mark, .writeValue], 17⟩), (16, 13, ⟨[.writeValue], 17⟩),
    (13, 13, ⟨[.startField], 18⟩), (18, 10, ⟨[.done], 348⟩) ]

theorem next_wordEnds : ∀ e ∈ wordEnds, ∀ relaxed, Machine.next relaxed e.1 e.2.1 = some e.2.2 := by decide +kernel

theorem next_end {g : Goto} (h : (cs, b, g) ∈ wordEnds) : Machine.next uriRelaxed cs b = some g :=
  next_wordEnds _ h uriRelaxed

/-- Every method is recognised, and every one but `M-SEARCH` is a `Method` of the grammar. -/
theorem methods_known : ∀ e ∈ httpMethodMap, charsToHttpMethod (bytes e.2 ++ [32]) = e.1 ∧
    (e.1 ≠ .msearch → ∀ relaxed, ∃ u ∈ Machine.enters relaxed .mark (bytes e.2) 1,
      Machine.next relaxed u 32 = some ⟨[.requestMethod], 3⟩) := by
  decide +kernel

theorem mem_httpMethodMap (m : HttpMethod) (hm : m ≠ .invalidMethod) : ∃ name, (m, name) ∈ httpMethodMap ∧
    httpMethodToString m = bytes name := by
  cases m with
  | invalidMethod => exact absurd rfl hm
  | _ => exact ⟨_, by decide, rfl⟩

theorem reads_method (m : HttpMethod) (hm : m ≠ .invalidMethod) (hsearch : m ≠ .msearch) :
    Reads uriRelaxed buffer (httpMethodToString m ++ [32]) 1 data 3 { data with method := m } := by
  obtain ⟨name, hmem, hname⟩ := mem_httpMethodMap m hm
  obtain ⟨u, hu, hblank⟩ : ∃ u ∈ Machine.enters uriRelaxed .mark (bytes name) 1,
      Machine.next uriRelaxed u 32 = some ⟨[.requestMethod], 3⟩ :=
    (methods_known (m, name) hmem).2 hsearch uriRelaxed
  rw [hname]
  refine reads_word hu hblank (by decide) (by decide) fun p s rest h hahead => ?_
  have hchars : charsToHttpMethod (buffer.drop p) = m := by
    rw [hahead]
    exact (charsToHttpMethod_blank (bytes name) rest []).trans (methods_known (m, name) hmem).1
  refine ⟨_, _, rfl, ?_, h.marked (Nat.le_add_right_of_le (Nat.le_add_right p _)) fun d => { d with method := m }⟩
  simp only [runActions, Action.run, onRequestMethod, hchars]
  cases m with
  | invalidMethod => exact absurd rfl hm
  | _ => rfl

/-- What may follow a path, what is done there, and the state behind it. -/
def pathEnds : List (UInt8 × List Action × Nat) :=
  [(32, [.requestPath, .requestUri], 4), (35, [.requestPath, .requestUri], 20), (63, [.requestPath], 29)]

theorem pathEnds_wordEnds : ∀ e ∈ pathEnds, (26, e.1, ⟨e.2.1, e.2.2⟩) ∈ wordEnds ∧
    (33, e.1, ⟨e.2.1, e.2.2⟩) ∈ wordEnds := by
  decide

theorem run_pathEnd : ∀ e ∈ pathEnds, e.2.1 = .requestPath :: e.2.1.tail ∧ ∀ a ∈ e.2.1.tail, a = .requestUri := by
  decide

/-- `request_uri` has no callback. -/
theorem runActions_uri (h : ∀ a ∈ actions, a = .requestUri) : runActions buffer p actions s = .ok s := by
  induction actions with
  | nil => rfl
  | cons a actions ih =>
    rw [runActions, h a List.mem_cons_self]
    exact ih fun a' ha' => h a' (List.mem_cons_of_mem _ ha')

theorem reads_path {path : List UInt8} {e : UInt8 × List Action × Nat} (hpath : path ∈ Grammar.pathAbsolute uriRelaxed)
    (he : e ∈ pathEnds) : Reads uriRelaxed buffer (path ++ [e.1]) 3 data e.2.2 { data with path } := by
  obtain ⟨u, hu, hw⟩ := Machine.enters_path hpath
  have hnext : Machine.next uriRelaxed u e.1 = some ⟨e.2.1, e.2.2⟩ := by
    rcases hu with rfl | rfl
    · exact next_end (pathEnds_wordEnds e he).1
    · exact next_end (pathEnds_wordEnds e he).2
  obtain ⟨hactions, huri⟩ := run_pathEnd e he
  have hd : .done ∉ e.2.1 := by
    rw [hactions]
    intro hm
    rcases List.mem_cons.mp hm with hm | hm
    · cases hm
    · cases huri _ hm
  refine reads_word hw hnext (by decide) hd fun p s rest h hahead => ?_
  refine ⟨_, _, rfl, ?_, h.marked (Nat.le_add_right_of_le (Nat.le_add_right p _)) fun d => { d with path }⟩
  rw [hactions, runActions]
  simp only [Action.run, onRequestPath, onText_ahead _ hahead]
  exact runActions_uri huri

/-- What may follow a query. -/
def queryEnds : List (UInt8 × Nat) := [(32, 4), (35, 20)]

theorem queryEnds_wordEnds : ∀ e ∈ queryEnds, (30, e.1, ⟨[.queryString, .requestUri], e.2⟩) ∈ wordEnds := by decide

theorem reads_query {query : List UInt8} {e : UInt8 × Nat} (hquery : query ∈ Grammar.query uriRelaxed)
    (hne : query ≠ []) (he : e ∈ queryEnds) :
    Reads uriRelaxed buffer (query ++ [e.1]) 29 data e.2 { data with query } := by
  refine reads_word (Machine.enters_query hquery hne) (next_end (queryEnds_wordEnds e he)) (by decide) (by decide)
    fun p s rest h hahead => ?_
  refine ⟨_, _, rfl, ?_, h.queried (Nat.le_add_right_of_le (Nat.le_add_right p _)) fun d => { d with query }⟩
  simp only [runActions, Action.run, onQueryString, onText_ahead _ hahead]
  rfl

theorem reads_fragment {fragment : List UInt8} (hfragment : fragment ∈ Grammar.fragment uriRelaxed)
    (hne : fragment ≠ []) : Reads uriRelaxed buffer (fragment ++ [32]) 20 data 4 { data with fragment } := by
  refine reads_word (Machine.enters_fragment hfragment hne) (next_end (g := ⟨[.fragment], 4⟩) (by decide)) (by decide)
    (by decide)
    fun p s rest h hahead => ?_
  refine ⟨_, _, rfl, ?_, h.marked (Nat.le_add_right_of_le (Nat.le_add_right p _)) fun d => { d with fragment }⟩
  simp only [runActions, Action.run, onFragment, onText_ahead _ hahead]
  rfl

/-- What is written behind the query. -/
def dumpFragment (fragment : List UInt8) : List UInt8 :=
  bytes (if fragment = [] then "" else "#") ++ (fragment ++ [32])

/-- What is written behind the path. -/
def dumpQuery (query fragment : List UInt8) : List UInt8 :=
  bytes (if query = [] then "" else "?") ++ (query ++ dumpFragment fragment)

/-- A fragment, if there is one, and the blank. -/
theorem reads_dumpFragment {fragment : List UInt8} (data : HttpRequest) (h : fragment ∈ Grammar.fragment uriRelaxed)
    (hdata : data.fragment = []) (buffer : List UInt8) : ∃ e ∈ queryEnds, ∃ tail, dumpFragment fragment = e.1 :: tail ∧
      Reads uriRelaxed buffer tail e.2 data 4 { data with fragment } := by
  by_cases hf : fragment = []
  · refine ⟨(32, 4), by decide, [], ?_, ?_⟩
    · simp [dumpFragment, hf, bytes]
    · have hsame : { data with fragment } = data := by rw [hf, ← hdata]
      rw [hsame]
      exact .nil
  · refine ⟨(35, 20), by decide, fragment ++ [32], ?_, reads_fragment h hf⟩
    simp [dumpFragment, hf, bytes]

theorem queryEnds_pathEnds : ∀ e ∈ queryEnds, ∃ actions, (e.1, actions, e.2) ∈ pathEnds := by
  intro e he
  simp only [queryEnds, List.mem_cons, List.not_mem_nil, or_false] at he
  rcases he with rfl | rfl
  · exact ⟨_, .head _⟩
  · exact ⟨_, .tail _ (.head _)⟩

/-- A query and a fragment, if there are any, and the blank. -/
theorem reads_dumpQuery {query fragment : List UInt8} (data : HttpRequest)
    (hquery : query ∈ Grammar.query uriRelaxed) (hfragment : fragment ∈ Grammar.fragment uriRelaxed)
    (hdata : data.query = []) (hdata' : data.fragment = []) (buffer : List UInt8) :
    ∃ e ∈ pathEnds, ∃ tail, dumpQuery query fragment = e.1 :: tail ∧
      Reads uriRelaxed buffer tail e.2.2 data 4 { data with query, fragment } := by
  obtain ⟨e, he, tail, htail, hreads⟩ := reads_dumpFragment { data with query } hfragment hdata' buffer
  by_cases hq : query = []
  · obtain ⟨actions, he'⟩ := queryEnds_pathEnds e he
    refine ⟨_, he', tail, ?_, ?_⟩
    · simpa [dumpQuery, hq, bytes] using htail
    · have hsame : { data with query } = data := by rw [hq, ← hdata]
      have hsame' : { data with query, fragment } = { data with fragment } := by rw [hq, ← hdata]
      rw [hsame] at hreads
      rw [hsame']
      exact hreads
  · refine ⟨(63, [.requestPath], 29), by decide, query ++ [e.1] ++ tail, ?_, (reads_query hquery hq he).append hreads⟩
    simp [dumpQuery, hq, bytes, htail]

theorem reads_target {path query fragment : List UInt8} (hpath : path ∈ Grammar.pathAbsolute uriRelaxed)
    (hquery : query ∈ Grammar.query uriRelaxed) (hfragment : fragment ∈ Grammar.fragment uriRelaxed)
    (hdata : data.query = []) (hdata' : data.fragment = []) :
    Reads uriRelaxed buffer (path ++ dumpQuery query fragment) 3 data 4 { data with path, query, fragment } := by
  obtain ⟨e, he, tail, htail, hreads⟩ :=
    reads_dumpQuery { data with path } hquery hfragment hdata hdata' buffer
  rw [htail, List.append_cons]
  exact (reads_path hpath he).append hreads

/-- The line feed behind a carriage return. -/
theorem reads_lineFeed : Reads uriRelaxed buffer [10] 17 data 13 data := by
  rintro rest ⟨_, p, s⟩ ⟨hahead, rfl, hheld⟩
  exact ⟨_, passes_char (next_end (g := ⟨[], 13⟩) (by decide)) List.not_mem_nil rfl, drop_ahead [10] hahead, rfl,
    hheld.later (Nat.le_succ p)⟩

theorem reads_line (h : Reads uriRelaxed buffer (word ++ [13]) cs data 17 data') :
    Reads uriRelaxed buffer (word ++ crlf) cs data 13 data' := by
  rw [crlf, List.append_cons word 13 [10]]
  exact h.append reads_lineFeed

/-- The versions that the grammar knows. -/
def versions : List (UInt8 × String) := [(0x10, "HTTP/1.0"), (0x11, "HTTP/1.1")]

theorem versions_known : ∀ e ∈ versions, (∀ relaxed, Machine.enters relaxed .mark (bytes e.2) 4 = some 12) ∧
    (bytes e.2).length = 8 ∧ strncmpEq (bytes e.2) (bytes "HTTP/1.1") 8 = decide (e.1 = 0x11) ∧
    strncmpEq (bytes e.2) (bytes "HTTP/1.0") 8 = decide (e.1 = 0x10) ∧ (e.1 = 0x11 ∨ e.1 = 0x10) := by
  decide +kernel

theorem reads_version {e : UInt8 × String} (he : e ∈ versions) :
    Reads uriRelaxed buffer (bytes e.2 ++ crlf) 4 data 13 { data with version := e.1 } := by
  obtain ⟨henters, hlen, h11, h10, hv⟩ := versions_known e he
  have hline : Reads uriRelaxed buffer (bytes e.2 ++ [13]) 4 data 17 { data with version := e.1 } := by
    refine reads_word (henters uriRelaxed) (next_end (g := ⟨[.httpVersion], 17⟩) (by decide)) (by decide) (by decide)
      fun p s rest h hahead => ?_
    refine ⟨_, _, rfl, ?_, h.marked (Nat.le_add_right_of_le (Nat.le_add_right p _)) fun d => { d with version := e.1 }⟩
    have hcmp : ∀ literal, strncmpEq (buffer.drop p) literal 8 = strncmpEq (bytes e.2) literal 8 := by
      intro literal
      rw [hahead, strncmpEq_append _ _ _ hlen.ge]
    have hsize : sizeSub (p + (bytes e.2).length) p = 8 := (sizeSub_add p _).trans hlen
    simp only [runActions, Action.run, onHttpVersion, hsize, hcmp, h11, h10]
    rcases hv with hv | hv
    · simp [hv, pure, Except.pure, Except.bind]
    · simp [hv, pure, Except.pure, Except.bind]
  exact reads_line hline

/-! ## Headers -/

/-- The value is stored under the name, from the marks that were set. -/
theorem run_writeValue {name value rest' : List UInt8} {b' : UInt8}
    (hname : buffer.drop s.parser.fieldStart = name ++ b :: rest) (hlen : s.parser.fieldLen = name.length)
    (hne : name ≠ []) (hvalue : buffer.drop s.parser.mark = value ++ b' :: rest') :
    Action.writeValue.run buffer (s.parser.mark + value.length) s =
      .ok { s with data := { s.data with headers := s.data.headers.set name value } } := by
  have hpos : name.length ≠ 0 := fun h => hne (List.length_eq_zero_iff.mp h)
  rw [Action.run, onHttpField, sizeSub_add, hlen, if_neg hpos, text_ahead hname, text_ahead hvalue]
  rfl

/-- A name, the colon and the blank. -/
theorem passes_name {name : List UInt8} (hname : name ∈ Grammar.fieldName) :
    Scan.Passes (Cursor.step buffer) (name ++ bytes ": ") ⟨13, p, s⟩ ⟨15, p + name.length + 2, { s with
      parser := { s.parser with fieldStart := p, fieldLen := name.length, mark := p + name.length + 1 } }⟩ := by
  have hseparator : bytes ": " = [58] ++ [32] := by decide
  let s₁ : HttpRequestParser := { s with parser := { s.parser with fieldStart := p } }
  let s₂ : HttpRequestParser := { s with parser := { s.parser with fieldStart := p, fieldLen := name.length } }
  have hword : Scan.Passes (Cursor.step buffer) name ⟨13, p, s⟩ ⟨14, p + name.length, s₁⟩ :=
    passes_word (Machine.enters_name hname) (by decide) rfl
  have hfield : Scan.Passes (Cursor.step buffer) [58] ⟨14, p + name.length, s₁⟩ ⟨15, p + name.length + 1, s₂⟩ := by
    refine passes_char (next_end (g := ⟨[.writeField], 15⟩) (by decide)) (by decide) ?_
    simp only [runActions, Action.run, s₁, s₂, sizeSub_add]
    rfl
  rw [hseparator]
  exact hword.append (hfield.append (passes_char (next_end (g := ⟨[.mark], 15⟩) (by decide)) (by decide) rfl))

/-- A value, empty or not, and the carriage return, behind a name. -/
theorem passes_value {name value rest' : List UInt8} (hvalue : value ∈ Grammar.fieldValue)
    (hname : buffer.drop s.parser.fieldStart = name ++ b :: rest') (hlen : s.parser.fieldLen = name.length)
    (hne : name ≠ []) (hahead : buffer.drop p = value ++ 13 :: rest) :
    Scan.Passes (Cursor.step buffer) (value ++ [13]) ⟨15, p, s⟩ ⟨17, p + value.length + 1, { s with
      parser := { s.parser with mark := p }
      data := { s.data with headers := s.data.headers.set name value } }⟩ := by
  let s₁ : HttpRequestParser := { s with parser := { s.parser with mark := p } }
  have hwrite : Action.writeValue.run buffer (p + value.length) s₁ =
      .ok { s₁ with data := { s.data with headers := s.data.headers.set name value } } :=
    run_writeValue (s := s₁) hname hlen hne hahead
  by_cases hv : value = []
  · subst hv
    refine passes_char (next_end (g := ⟨[.mark, .writeValue], 17⟩) (by decide)) (by decide) ?_
    rw [runActions]
    exact congrArg (Except.bind · (runActions buffer p [])) hwrite
  · have hword : Scan.Passes (Cursor.step buffer) value ⟨15, p, s⟩ ⟨16, p + value.length, s₁⟩ :=
      passes_word (Machine.enters_value hvalue hv) (by decide) rfl
    refine hword.append (passes_char (next_end (g := ⟨[.writeValue], 17⟩) (by decide)) (by decide) ?_)
    rw [runActions, hwrite]
    rfl

theorem ne_nil_of_fieldName {name : List UInt8} (h : name ∈ Grammar.fieldName) : name ≠ [] := by
  obtain ⟨a, ⟨c, -, rfl⟩, tail, -, rfl⟩ := Language.mem_mul.mp h
  exact List.cons_ne_nil c tail

theorem reads_header {name value : List UInt8} (hname : name ∈ Grammar.fieldName)
    (hvalue : value ∈ Grammar.fieldValue) :
    Reads uriRelaxed buffer (HttpMessage.headerLine name value ++ crlf) 13 data 13
      { data with headers := data.headers.set name value } := by
  refine reads_line ?_
  rintro rest ⟨_, p, s⟩ ⟨hahead, rfl, hheld⟩
  unfold HttpMessage.headerLine at hahead ⊢
  rw [List.append_assoc, List.append_assoc (name ++ bytes ": ")] at hahead
  rw [List.append_assoc]
  have hseparator : bytes ": " = [58, 32] := by decide
  have hnahead : buffer.drop p = name ++ 58 :: 32 :: (value ++ 13 :: rest) := by
    rw [hseparator, List.append_assoc] at hahead
    exact hahead
  have hvahead : buffer.drop (p + name.length + 2) = value ++ 13 :: rest := by
    have h := drop_ahead _ hahead
    rwa [hseparator, List.length_append, ← Nat.add_assoc] at h
  have hrahead : buffer.drop (p + name.length + 2 + value.length + 1) = rest :=
    drop_ahead [13] (drop_ahead value hvahead)
  refine ⟨_, (passes_name hname).append (passes_value hvalue hnahead rfl (ne_nil_of_fieldName hname) hvahead), hrahead,
    rfl, ?_⟩
  exact ⟨congrArg (fun d : HttpRequest => { d with headers := d.headers.set name value }) hheld.data, hheld.error,
    hheld.uriRelaxed, hheld.xmlSent, hheld.jsonSent, by simp only; omega, by simp only; omega, by simp only; omega⟩

/-- One entry after the other. -/
def HeaderMap.sets (m es : HeaderMap) : HeaderMap := es.foldl (fun m e => m.set e.1 e.2) m

/-- One header after the other. -/
theorem reads_headers {es : HeaderMap} (hnames : ∀ e ∈ es, e.1 ∈ Grammar.fieldName)
    (hvalues : ∀ e ∈ es, e.2 ∈ Grammar.fieldValue) :
    Reads uriRelaxed buffer (es.flatMap fun e => HttpMessage.headerLine e.1 e.2 ++ crlf) 13 data 13
      { data with headers := data.headers.sets es } := by
  induction es generalizing data with
  | nil => exact .nil
  | cons e es ih =>
    rw [List.flatMap_cons, HeaderMap.sets, List.foldl_cons]
    have hline : Reads uriRelaxed buffer (HttpMessage.headerLine e.1 e.2 ++ crlf) 13 data 13
        { data with headers := data.headers.set e.1 e.2 } :=
      reads_header (hnames e List.mem_cons_self) (hvalues e List.mem_cons_self)
    exact hline.append (ih (fun e' he' => hnames e' (List.mem_cons_of_mem _ he'))
      fun e' he' => hvalues e' (List.mem_cons_of_mem _ he'))

theorem headerMap_sets (m es : HeaderMap) : m.sets es = OrdMap.sets foldCase m es := by
  simp only [HeaderMap.sets, headerMap_set, OrdMap.sets]

/-! ## The end of the head -/

/-- An empty line ends the head, where `header_done` is not set. -/
theorem scan_end {c : Cursor} (h : Stands uriRelaxed buffer crlf 13 data c) (hnull : c.self.parser.headerDone = false) :
    ∃ d, Scan.scan (Cursor.step buffer) crlf c = .ok ⟨d, 2, .halt⟩ ∧ d.cs = 348 ∧ Held uriRelaxed data c.p d.self ∧
      d.self.parser.bodyStart = c.p + 2 := by
  obtain ⟨_, p, s⟩ := c
  obtain ⟨-, rfl, hheld⟩ := h
  let s₁ : HttpRequestParser := { s with parser := { s.parser with fieldStart := p } }
  let s₂ : HttpRequestParser := { s with parser := { s.parser with fieldStart := p, bodyStart := p + 2 } }
  have hreturn : Machine.next s.parser.uriRelaxed 13 13 = some ⟨[.startField], 18⟩ := next_end (by decide)
  have hfeed : Machine.next s.parser.uriRelaxed 18 10 = some ⟨[.done], 348⟩ := next_end (by decide)
  have hmore : Cursor.step buffer ⟨13, p, s⟩ 13 = .more ⟨18, p + 1, s₁⟩ :=
    step_more (c := ⟨13, p, s⟩) hreturn rfl (by decide)
  have hrun : runActions buffer (p + 1) [.done] s₁ = .ok s₂ := by
    have hnull' : s.parser.headerDone = false := hnull
    have hxml : s.parser.xmlSent = false := hheld.xmlSent
    have hjson : s.parser.jsonSent = false := hheld.jsonSent
    simp [runActions, Action.run, s₁, s₂, hnull', hxml, hjson, Except.bind]
  have hhalt : Cursor.step buffer ⟨18, p + 1, s₁⟩ 10 = .halt ⟨348, p + 2, s₂⟩ :=
    step_halt (c := ⟨18, p + 1, s₁⟩) hfeed hrun (by decide)
  refine ⟨⟨348, p + 2, s₂⟩, ?_, rfl, ?_, rfl⟩
  · rw [crlf, Scan.scan_cons_more hmore, Scan.scan_cons_halt hhalt]
    rfl
  · exact { hheld with fieldStart := Nat.le_refl p }

/-- A text that leads to an empty line at its end is executed, with the request that was stored on the way. -/
theorem execute_printed {memory : ParserMemory} {head : List UInt8} (hnull : memory.headerDone = false)
    (hlen : (head ++ crlf).length < intLimit)
    (hreads : Reads memory.uriRelaxed (head ++ crlf) head 1 .new 13 data) :
    ∃ e after, (HttpRequestParser.new memory).execute (head ++ crlf) (head ++ crlf).length = .ok (e, after) ∧
      e.self.hasError = false ∧ e.self.isFinished = true ∧ e.self.data = data := by
  let s := HttpRequestParser.new memory
  have hstart : Stands memory.uriRelaxed (head ++ crlf) (head ++ crlf) 1 .new (.first memory) :=
    ⟨rfl, rfl, rfl, rfl, rfl, rfl, rfl, Nat.le_refl 0, Nat.le_refl 0, Nat.le_refl 0⟩
  obtain ⟨c, hpass, hstands⟩ := hreads crlf _ hstart
  have hframe := scan_frame hpass
  obtain ⟨d, hend, hcs, hheld, hbody⟩ := scan_end hstands (hframe.headerDone.trans hnull)
  have hscan : Scan.scan (Cursor.step (head ++ crlf)) (head ++ crlf) (.first memory) =
      .ok ⟨d, head.length + 2, .halt⟩ := by
    rw [Scan.scan_append_more hpass, hend]
    simp [Except.map, Scan.Scanned.later, Nat.add_comm]
  have hcount : (head ++ crlf).length = head.length + 2 := List.length_append
  -- the place in front of the empty line is two characters from the end
  have hp : c.p + 2 ≤ head.length + 2 := by
    have hdrop := congrArg List.length hstands.ahead
    simp only [List.length_drop, crlf, List.length_append, List.length_cons, List.length_nil] at hdrop
    omega
  have hfits : (s.stored ⟨d, head.length + 2, .halt⟩).parser.Fits (head ++ crlf).length := by
    have hnread : d.self.parser.nread = 0 := (scan_frame hscan).nread
    have hmark := hheld.mark
    have hfield := hheld.fieldStart
    have hflen := hheld.fieldLen
    rw [hcount]
    constructor <;> simp only [HttpRequestParser.stored, hnread, hbody] <;> omega
  have hexec : httpParserExecute (head ++ crlf) (head ++ crlf).length s =
      .ok ⟨s.stored ⟨d, head.length + 2, .halt⟩, head.length + 2⟩ := by
    rw [httpParserExecute_of_lt hlen, List.take_length]
    exact (congrArg (Except.bind · _) hscan).trans (storeScan_of_fits hfits)
  refine ⟨_, _, by rw [HttpRequestParser.execute, hexec]; rfl, ?_, ?_, hheld.data⟩
  · rw [HttpRequestParser.hasError, Bool.or_eq_false_iff]
    refine ⟨decide_eq_false (not_not.mpr hheld.error), decide_eq_false fun h0 => ?_⟩
    have hzero : d.cs = 0 := h0
    omega
  · exact decide_eq_true hcs.ge

/-! ## Round trip -/

/-- The header is not a `connection` in whose place `dump` writes its own. -/
def HttpMessage.keeps (m : HttpMessage) (h : List UInt8 × List UInt8) : Bool :=
  !(!m.websocket && strcasecmpEq h.1 (bytes "connection"))

/-- A request in the words of the grammar, without a body; its headers are in the order of the map. -/
structure Request.Printable (uriRelaxed : Bool) (req : Request) : Prop where
  method : req.method ≠ .invalidMethod
  version : req.version = 0x10 ∨ req.version = 0x11
  path : req.path ∈ Grammar.pathAbsolute uriRelaxed
  query : req.query ∈ Grammar.query uriRelaxed
  fragment : req.fragment ∈ Grammar.fragment uriRelaxed
  body : req.body = []
  names : ∀ h ∈ req.headers, h.1 ∈ Grammar.fieldName
  values : ∀ h ∈ req.headers, h.2 ∈ Grammar.fieldValue
  ordered : req.headers.Pairwise fun h h' => caseInsensitiveLess h.1 h'.1 = true

/-- What a parser got is the request, but for the `connection` that `dump` wrote. -/
structure Request.Reproduced (req : Request) (data : HttpRequest) : Prop where
  method : data.method = req.method
  version : data.version = req.version
  path : data.path = req.path
  query : data.query = req.query
  fragment : data.fragment = req.fragment
  headers : data.headers.filter req.keeps = req.headers.filter req.keeps

/-- A new parser that executes the dumped request at once finishes without an error and gives the request back. -/
def RoundTrips (memory : ParserMemory) (req : Request) : Prop :=
  ∃ e after, (HttpRequestParser.new memory).execute req.dump req.dump.length = .ok (e, after) ∧
    e.self.hasError = false ∧ e.self.isFinished = true ∧ req.Reproduced e.self.data

/-- The headers that `dump` writes, in their order. -/
def HttpMessage.dumped (m : HttpMessage) : HeaderMap :=
  (if m.websocket then [] else [(bytes "connection", bytes (if m.close then "close" else "keep-alive"))]) ++
    m.headers.filter m.keeps

theorem HttpMessage.dump_headers (m : HttpMessage) :
    m.dumpConnection ++ m.dumpHeaders = m.dumped.flatMap fun e => HttpMessage.headerLine e.1 e.2 ++ crlf := by
  unfold dumpConnection dumpHeaders dumped keeps
  cases m.websocket <;> simp

/-- Set one after the other, the dumped headers are those of the request, but for `connection`. -/
theorem HttpMessage.dumped_sets (m : HttpMessage)
    (ordered : m.headers.Pairwise fun h h' => caseInsensitiveLess h.1 h'.1 = true) :
    (HeaderMap.sets [] m.dumped).filter m.keeps = m.headers.filter m.keeps := by
  have hsorted : (m.headers.filter m.keeps).Pairwise fun h h' => foldCase h.1 < foldCase h'.1 :=
    (ordered.imp fun hlt => (caseInsensitiveLess_iff _ _).mp hlt).filter _
  rw [headerMap_sets, dumped]
  cases hw : m.websocket with
  | true =>
    rw [if_pos rfl, List.nil_append, OrdMap.sets_sorted (m := []) hsorted, List.nil_append, List.filter_filter]
    simp
  | false =>
    have hkeeps : ∀ h ∈ m.headers.filter m.keeps, foldCase h.1 ≠ foldCase (bytes "connection") := by
      intro h hh hsame
      have hkept := (List.mem_filter.mp hh).2
      rw [keeps, hw, (strcasecmpEq_iff _ _).mpr hsame] at hkept
      cases hkept
    have hlater : ∀ v, OrdMap.sets foldCase [] ((bytes "connection", v) :: m.headers.filter m.keeps) =
        OrdMap.set foldCase (m.headers.filter m.keeps) (bytes "connection") v := fun v =>
      OrdMap.sets_extra (m := []) hsorted fun h hh => (hkeeps h hh).symm
    rw [if_neg Bool.false_ne_true, List.singleton_append, hlater]
    refine OrdMap.filter_set (fun h hh => ⟨(List.mem_filter.mp hh).2, hkeeps h hh⟩) ?_
    rw [keeps, hw, (strcasecmpEq_iff _ _).mpr rfl]
    rfl

/-- What `dump` writes itself is in the grammar as well. -/
theorem Request.Printable.dumped {req : Request} (h : req.Printable uriRelaxed) :
    ∀ e ∈ req.dumped, e.1 ∈ Grammar.fieldName ∧ e.2 ∈ Grammar.fieldValue := by
  have hname : bytes "connection" ∈ Grammar.fieldName :=
    Grammar.mem_fieldName (by decide) (by decide)
  have hvalue : ∀ close : Bool, bytes (if close then "close" else "keep-alive") ∈ Grammar.fieldValue := fun close =>
    Grammar.mem_fieldValue (by cases close <;> decide) (by cases close <;> decide)
  intro e he
  rcases List.mem_append.mp he with he | he
  · split at he
    · cases he
    · obtain rfl := List.mem_singleton.mp he
      exact ⟨hname, hvalue req.close⟩
  · have hmem := List.mem_of_mem_filter he
    exact ⟨h.names e hmem, h.values e hmem⟩

/-- The parts of a dumped request without a body. -/
theorem Request.dump_eq (req : Request) (h : req.body = []) : req.dump =
    (httpMethodToString req.method ++ [32]) ++ ((req.path ++ dumpQuery req.query req.fragment) ++
      ((req.dumpVersion ++ crlf) ++
        req.dumped.flatMap fun e => HttpMessage.headerLine e.1 e.2 ++ crlf)) ++ crlf := by
  have hblank : bytes " " = [32] := by decide
  have hbody : req.dumpBody = crlf := by simp [HttpMessage.dumpBody, h]
  rw [Request.dump, ← HttpMessage.dump_headers, hbody, hblank]
  simp only [dumpQuery, dumpFragment, List.append_assoc]

/-- The text of a printable request is read up to the empty line at its end. -/
theorem Request.Printable.reads {req : Request} (h : req.Printable uriRelaxed) (buffer : List UInt8)
    (hsearch : req.method ≠ .msearch) : ∃ head, req.dump = head ++ crlf ∧ Reads uriRelaxed buffer head 1 .new 13
      { method := req.method, version := req.version, path := req.path, query := req.query, fragment := req.fragment
        headers := HeaderMap.sets [] req.dumped } := by
  obtain ⟨e, he, hversion, htext⟩ : ∃ e ∈ versions, e.1 = req.version ∧ req.dumpVersion = bytes e.2 := by
    unfold HttpMessage.dumpVersion
    rcases h.version with hv | hv
    · exact ⟨(0x10, "HTTP/1.0"), .head _, hv.symm, by rw [hv]; decide⟩
    · exact ⟨(0x11, "HTTP/1.1"), .tail _ (.head _), hv.symm, by rw [hv]; decide⟩
  refine ⟨_, req.dump_eq h.body, ?_⟩
  rw [htext, ← hversion]
  exact (reads_method req.method h.method hsearch).append ((reads_target h.path h.query h.fragment rfl rfl).append
    ((reads_version he).append (reads_headers (fun e he => (h.dumped e he).1) fun e he => (h.dumped e he).2)))

/-- Every printable request whose text has a length that is an `int`, and whose method is not `M-SEARCH`, comes back. -/
theorem Request.Printable.roundTrips {memory : ParserMemory} {req : Request} (h : req.Printable memory.uriRelaxed)
    (hnull : memory.headerDone = false) (hsearch : req.method ≠ .msearch) (hlen : req.dump.length < intLimit) :
    RoundTrips memory req := by
  obtain ⟨head, hdump, hreads⟩ := h.reads req.dump hsearch
  rw [hdump] at hlen hreads
  obtain ⟨e, after, hexec, herror, hfinished, hdata⟩ := execute_printed hnull hlen hreads
  refine ⟨e, after, by rw [hdump]; exact hexec, herror, hfinished, ?_⟩
  rw [hdata]
  exact ⟨rfl, rfl, rfl, rfl, rfl, req.dumped_sets h.ordered⟩

/-- The grammar has no `-` in a method. -/
theorem not_roundTrips_msearch {memory : ParserMemory} {req : Request} (hsearch : req.method = .msearch) :
    ¬RoundTrips memory req := by
  rintro ⟨e, after, hexec, herror, -⟩
  have hnext : ∀ relaxed, Machine.next relaxed 1 77 = some ⟨[.mark], 2⟩ ∧ Machine.next relaxed 2 45 = none := by
    decide +kernel
  obtain ⟨tail, htail⟩ : ∃ tail, req.dump = 77 :: 45 :: tail := by
    have hname : httpMethodToString .msearch = [77, 45] ++ bytes "SEARCH" := by decide
    rw [Request.dump, hsearch, hname]
    exact ⟨_, rfl⟩
  obtain ⟨r, hr, rfl, -⟩ := httpParserExecute_ok (execute_ok hexec)
  have hzero : r.state.cs = 0 := by
    let s₁ : HttpRequestParser := { HttpRequestParser.new memory with
      parser := { httpParserInit memory with mark := 0 } }
    have hmore : Cursor.step req.dump (.first memory) 77 = .more ⟨2, 1, s₁⟩ :=
      step_more (c := .first memory) (hnext _).1 rfl (by decide)
    have hreject : Cursor.step req.dump ⟨2, 1, s₁⟩ 45 = .reject ⟨0, 1, s₁⟩ := step_reject (hnext _).2
    rw [List.take_length] at hr
    have hscan : Scan.scan (Cursor.step req.dump) (77 :: 45 :: tail) (.first memory) =
        .ok ⟨⟨0, 1, s₁⟩, 1, .reject⟩ := by
      rw [Scan.scan_cons_more hmore, Scan.scan, hreject]
      rfl
    rw [← htail] at hscan
    rw [← Except.ok.inj (hscan.symm.trans hr)]
  have hcs : (HttpRequestParser.new memory).parser.cs ≠ 0 := Nat.one_ne_zero
  simp [HttpRequestParser.hasError, HttpRequestParser.stored, hzero, hcs] at herror

/-- **Round trip.** A new parser gives a printable request back, whatever its memory held, exactly when the method is
not `M-SEARCH` and the length of the text is an `int`. -/
theorem request_roundTrips (memory : ParserMemory) (req : Request) (hnull : memory.headerDone = false)
    (h : req.Printable memory.uriRelaxed) :
    RoundTrips memory req ↔ req.method ≠ .msearch ∧ req.dump.length < intLimit := by
  constructor
  · intro hr
    refine ⟨fun hsearch => not_roundTrips_msearch hsearch hr, ?_⟩
    obtain ⟨e, after, hexec, -⟩ := hr
    by_contra hge
    have hdistance : (req.dump.length : Int) ≠ intSize req.dump.length := by
      have := intSize_lt req.dump.length
      omega
    have herror := execute_ok hexec
    rw [httpParserExecute, if_pos hdistance] at herror
    cases herror
  · rintro ⟨hsearch, hlen⟩
    exact h.roundTrips hnull hsearch hlen

/-- A request with a query, a fragment and headers. -/
def searchRequest : Request :=
  { version := 0x11, close := true, websocket := false, body := [],
    headers := [(bytes "accept", bytes "text/html, */*"), (bytes "host", bytes "www.baidu.com"), (bytes "x-id", [])],
    method := .post, path := bytes "/s", query := bytes "wd=a&ie=utf-8", fragment := bytes "top" }

theorem searchRequest_printable (uriRelaxed : Bool) : searchRequest.Printable uriRelaxed where
  method := by decide
  version := .inr rfl
  path :=
    have hs : [115] ∈ Grammar.segmentNz uriRelaxed :=
      ⟨[115], Grammar.mem_pchar (by cases uriRelaxed <;> decide), [], Language.nil_mem_kstar _, rfl⟩
    ⟨[47], rfl, [115], .inl ⟨[115], hs, [], Language.nil_mem_kstar _, rfl⟩, by decide⟩
  query := Grammar.mem_query (by cases uriRelaxed <;> decide +kernel)
  fragment := Grammar.mem_query (by cases uriRelaxed <;> decide +kernel)
  body := rfl
  names h hh := by
    have hnames : ∀ h ∈ searchRequest.headers, h.1 ≠ [] ∧ h.1.all Grammar.isToken = true := by decide +kernel
    exact Grammar.mem_fieldName (hnames h hh).1 (hnames h hh).2
  values h hh := by
    have hvalues : ∀ h ∈ searchRequest.headers, h.2.head? ≠ some 32 ∧
        h.2.all (fun c => !Grammar.isCtl c) = true := by decide +kernel
    exact Grammar.mem_fieldValue (hvalues h hh).1 (hvalues h hh).2
  ordered := by decide +kernel

theorem request_roundTrips_host : RoundTrips ⟨false, 0, false⟩ searchRequest :=
  (request_roundTrips ⟨false, 0, false⟩ searchRequest rfl (searchRequest_printable false)).mpr
    ⟨by decide, by decide +kernel⟩

theorem hostRequest_printable (uriRelaxed : Bool) : (hostRequest []).Printable uriRelaxed where
  method := by decide
  version := .inr rfl
  path := ⟨[47], rfl, [], .inr rfl, by decide⟩
  query := ⟨[], rfl, by simp⟩
  fragment := ⟨[], rfl, by simp⟩
  body := rfl
  names := by
    intro h hh
    obtain rfl := List.mem_singleton.mp hh
    exact Grammar.mem_fieldName (by decide) (by decide)
  values := by
    intro h hh
    obtain rfl := List.mem_singleton.mp hh
    exact Grammar.mem_fieldValue (by decide) (by decide)
  ordered := List.pairwise_singleton _ _

/-- A request with `M-SEARCH`. -/
theorem request_lost : Request.Printable false { hostRequest [] with method := .msearch } ∧
    ¬RoundTrips ⟨false, 0, false⟩ { hostRequest [] with method := .msearch } :=
  ⟨{ hostRequest_printable false with method := by decide }, not_roundTrips_msearch rfl⟩

end Megalo
