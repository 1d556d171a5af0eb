import Megalo.Http.Client
import Megalo.Util.Digits

/-!
# What the response parser does with any text

`Filled`: none of the three names that the machine follows is in front of a line break, as a header without a value is.
On such a text, a new scan (`response_outcomes`)

- is finished, at the end of a head or of a chunk header, and all that was returned is in front of the body;
- or has read everything and waits for more;
- or is rejected;
- or comes to a status code that `atoi` is not defined for;

and nothing outside the buffer is read. Behind `content-length` and a line break, the machine goes on to a number on the
next line and takes it for the beginning of a name that is as long as `content-length`.
-/

namespace Megalo

open MachineInt Overwrite ActionTable.Machine

/-! ## Names in a text -/

/-- The text ends with the word, in capital or small letters. -/
def Spells (w : String) (l : List UInt8) : Prop := ∃ front v, l = front ++ v ∧ v.map toLower = bytes w

/-- The text ends with the name, a colon and blanks. -/
def Heads (w : String) (l : List UInt8) : Prop :=
  ∃ before blanks, l = before ++ 58 :: blanks ∧ Spells w before ∧
    ∀ c ∈ blanks, ClientMachine.accepts c ClientMachine.blank = true

/-- None of the three names is in front of a line break. -/
def Filled (text : List UInt8) : Prop :=
  ∀ e ∈ ClientMachine.names, ∀ front b rest, text = front ++ b :: rest → b = 10 ∨ b = 13 → ¬Heads e.2 front

namespace ClientMachine

variable {c d : UInt8} {cs : Nat} {cls : CharClass} {g : ActionTable.Goto ClientAction} {w : String}
  {l : List UInt8}

/-- A letter of one of the names continues the letters in front of it. -/
theorem Fine.spells (h : Fine cs cls g) (hacc : accepts c cls = true) (hw : (g.target, w) ∈ trail)
    (hl : ∀ v, (cs, v) ∈ trail → Spells v l) : Spells w (l ++ [c]) := by
  have hfollows := h.follows
  rw [ClientMachine.follows, Bool.and_eq_true] at hfollows
  have hw' := List.all_eq_true.mp hfollows.1 _ hw
  simp only [ne_eq, not_true_eq_false, decide_false, Bool.false_or, Bool.and_eq_true, Bool.or_eq_true,
    decide_eq_true_eq, List.any_eq_true, Option.any_eq_true] at hw'
  obtain ⟨hinit, d, hd, hletter⟩ := hw'
  have hlast : toLower c = d := by
    rcases hletter with ⟨⟨rfl, h97⟩, h122⟩ | ⟨rfl, rfl⟩
    · exact (accepts_letter_iff ⟨h97, h122⟩).mp hacc
    · rw [accepts_one_iff.mp hacc]
      rfl
  have hne : bytes w ≠ [] := fun h0 => by rw [h0] at hd; cases hd
  have hsplit : bytes w = (bytes w).dropLast ++ [d] := by
    rw [List.getLast?_eq_getLast_of_ne_nil hne] at hd
    rw [← Option.some.inj hd, List.dropLast_append_getLast]
  rcases hinit with hone | ⟨e, he, rfl, hv⟩
  · have hnil : (bytes w).dropLast = [] := List.length_eq_zero_iff.mp (by rw [List.length_dropLast, hone])
    refine ⟨l, [c], rfl, ?_⟩
    rw [hsplit, hnil, List.map_singleton, hlast, List.nil_append]
  · obtain ⟨front, v, rfl, hmap⟩ := hl e.2 he
    refine ⟨front, v ++ [c], List.append_assoc _ _ _, ?_⟩
    rw [List.map_append, hmap, hv, List.map_singleton, hlast, ← hsplit]

/-- Blanks and the colon behind one of the names. -/
theorem Fine.heads (h : Fine cs cls g) (hacc : accepts c cls = true) (hw : (g.target, w) ∈ names)
    (hl : ∀ v, (cs, v) ∈ trail → Spells v l) (hl' : ∀ v, (cs, v) ∈ names → Heads v l) : Heads w (l ++ [c]) := by
  have hfollows := h.follows
  rw [ClientMachine.follows, Bool.and_eq_true] at hfollows
  have hw' := List.all_eq_true.mp hfollows.2 _ hw
  simp only [ne_eq, not_true_eq_false, decide_false, Bool.false_or, Bool.and_eq_true, Bool.or_eq_true,
    decide_eq_true_eq, List.contains_iff_mem] at hw'
  rcases hw' with ⟨rfl, rfl⟩ | ⟨htrail, rfl⟩
  · obtain ⟨before, blanks, rfl, hspells, hblanks⟩ := hl' w hw
    refine ⟨before, blanks ++ [c], by simp, hspells, fun c' hc' => ?_⟩
    rcases List.mem_append.mp hc' with hc' | hc'
    · exact hblanks c' hc'
    · rw [List.mem_singleton.mp hc']
      exact hacc
  · have hc : c = 58 := (accepts_one_iff (d := 58)).mp hacc
    exact ⟨l, [], by rw [hc], hl w htrail, fun c' hc' => nomatch hc'⟩

end ClientMachine

/-! ## Actions -/

/-- The only expected failure. -/
def StatusFault (e : ClientFault) : Prop := e = .status

/-- What is known of the parser at position `p`: where the marks are, the end of a name that is complete, and the fields
that only the end of a scan writes. -/
structure ClientKept (known : Bool) (body p : Nat) (s : HttpResponseParser) : Prop where
  mark : s.parser.mark ≤ p
  fieldStart : s.parser.fieldStart ≤ p
  fieldEnd : known = true → s.parser.fieldStart + s.parser.fieldLen ≤ p
  nread : s.parser.nread = 0
  bodyStart : s.parser.bodyStart = body

variable {known known' : Bool} {body p start length len : Nat} {s : HttpResponseParser} {buffer : List UInt8}
  {a : ClientAction} {actions : List ClientAction}

theorem ClientKept.of_eq {t : HttpResponseParser} (h : ClientKept known body p s) (ht : t.parser = s.parser) :
    ClientKept known body p t := by
  constructor
  · rw [ht]
    exact h.mark
  · rw [ht]
    exact h.fieldStart
  · rw [ht]
    exact h.fieldEnd
  · rw [ht]
    exact h.nread
  · rw [ht]
    exact h.bodyStart

/-- Characters inside of the buffer are there. -/
theorem clientText_ok (h : start + length ≤ buffer.length) :
    clientText buffer start length = .ok (slice buffer start length) := by
  rw [clientText, text, if_pos h]
  rfl

theorem onResponseHttpField_keeps {field flen : Nat} (hname : field + flen ≤ buffer.length)
    (hvalue : start + length ≤ buffer.length) :
    Yields StatusFault (fun t => t.parser = s.parser) (onResponseHttpField buffer field flen start length s) := by
  unfold onResponseHttpField
  split
  · rfl
  · rw [clientText_ok hname, clientText_ok hvalue]
    rfl

theorem onResponseReason_keeps (h : start + length ≤ buffer.length) :
    Yields StatusFault (fun t => t.parser = s.parser) (onResponseReason buffer start length s) := by
  rw [onResponseReason, clientText_ok h]
  rfl

theorem onResponseStatus_keeps :
    Yields StatusFault (fun t => t.parser = s.parser) (onResponseStatus buffer start s) := by
  unfold onResponseStatus
  cases atoi (buffer.drop start) <;> rfl

theorem onResponseVersion_keeps (h : start + length ≤ buffer.length) :
    Yields StatusFault (fun t => t.parser = s.parser) (onResponseVersion buffer start length s) := by
  unfold onResponseVersion
  split
  · rfl
  · split
    · rfl
    · rw [clientText_ok h]
      rfl

/-- An action inside of the buffer, with a name that is complete where it is used. -/
theorem run_kept (hp : p < buffer.length) (hk : ClientKept known body p s) (ha : a = .writeValue → known = true) :
    Yields StatusFault
      (ClientKept (a = .writeField || (known && a ≠ .startField)) (if a = .done then p + 1 else body) p)
      (a.run buffer p s) := by
  have hmark := hk.mark
  have hstart := hk.fieldStart
  have hvalue : s.parser.mark + sizeSub p s.parser.mark ≤ buffer.length := by
    rw [sizeSub_of_le hmark]
    omega
  cases a with
  | mark => exact { hk with mark := Nat.le_refl p, fieldEnd := fun h => hk.fieldEnd (by simpa using h) }
  | startField => exact { hk with fieldStart := Nat.le_refl p, fieldEnd := fun h => by simp at h }
  | writeField =>
    refine { hk with fieldEnd := fun _ => ?_ }
    rw [sizeSub_of_le hstart]
    dsimp only
    omega
  | writeContentLen | writeConnectionClose | chunkSize | transChunked =>
    exact { hk with fieldEnd := fun h => hk.fieldEnd (by simpa using h) }
  | writeValue =>
    have hname := hk.fieldEnd (ha rfl)
    have hrun := onResponseHttpField_keeps (s := s) (Nat.le_trans hname hp.le) hvalue
    exact hrun.mono fun t ht => { hk.of_eq ht with fieldEnd := fun _ => ht ▸ hname }
  | reasonPhrase =>
    exact (onResponseReason_keeps hvalue).mono fun t ht =>
      { hk.of_eq ht with fieldEnd := fun h => (hk.of_eq ht).fieldEnd (by simpa using h) }
  | statusCode =>
    refine onResponseStatus_keeps.mono fun t ht => ?_
    have hk' : ClientKept known body p t := by
      refine ClientKept.of_eq (s := { s with parser := { s.parser with status := _ } }) ?_ ht
      exact { hk with }
    exact { hk' with fieldEnd := fun h => hk'.fieldEnd (by simpa using h) }
  | httpVersion =>
    exact (onResponseVersion_keeps hvalue).mono fun t ht =>
      { hk.of_eq ht with fieldEnd := fun h => (hk.of_eq ht).fieldEnd (by simpa using h) }
  | done => exact { hk with fieldEnd := fun h => hk.fieldEnd (by simpa using h), bodyStart := rfl }

/-- The actions of a transition. -/
theorem runActions_kept (hp : p < buffer.length) (hk : ClientKept known body p s)
    (ha : ClientMachine.nameKnown known actions = some known') :
    Yields StatusFault (ClientKept known' (if .done ∈ actions then p + 1 else body) p)
      ((clientMachine buffer).runActions p actions s) := by
  induction actions generalizing known body s with
  | nil =>
    cases ha
    exact hk
  | cons a actions ih =>
    rw [ClientMachine.nameKnown] at ha
    split at ha
    · cases ha
    · rename_i hknown
      have hrun : Yields StatusFault _ (a.run buffer p s) := run_kept (a := a) hp hk fun h => by simpa [h] using hknown
      refine hrun.bind fun t ht => (ih ht ha).mono fun u hu => ?_
      have hbody : (if .done ∈ a :: actions then p + 1 else body) =
          if .done ∈ actions then p + 1 else if a = .done then p + 1 else body := by
        simp only [List.mem_cons, eq_comm (a := ClientAction.done)]
        by_cases hdone : a = .done
        · simp only [hdone, true_or, if_true, ite_self]
        · simp only [hdone, false_or, if_false]
      rw [hbody]
      exact hu

theorem ClientKept.later (h : ClientKept known body p s) : ClientKept known body (p + 1) s where
  mark := Nat.le_succ_of_le h.mark
  fieldStart := Nat.le_succ_of_le h.fieldStart
  fieldEnd hk := Nat.le_succ_of_le (h.fieldEnd hk)
  nread := h.nread
  bodyStart := h.bodyStart

/-! ## A scan -/

/-- What is true in front of what is left of a text. -/
structure ClientAt (text rest : List UInt8) (cs p : Nat) (s : HttpResponseParser) : Prop where
  ahead : text.drop p = rest
  filled : ClientMachine.filled cs = true
  kept : ClientKept (ClientMachine.named cs) 0 p s
  spells : ∀ v, (cs, v) ∈ ClientMachine.trail → Spells v (text.take p)
  heads : ∀ v, (cs, v) ∈ ClientMachine.names → Heads v (text.take p)

/-- What is true behind the text of a head. -/
structure ClientDone (text rest : List UInt8) (cs p : Nat) (s : HttpResponseParser) : Prop where
  ahead : text.drop p = rest
  cs : cs = 120
  nread : s.parser.nread = 0
  bodyStart : s.parser.bodyStart = p

variable {text bs : List UInt8} {c : UInt8} {cs : Nat} {g : ActionTable.Goto ClientAction}

/-- What is known of a step. -/
theorem ClientAt.fine (h : ClientAt text (c :: bs) cs p s) (hg : ClientMachine.next cs c = some g) :
    ∃ cls, ClientMachine.accepts c cls = true ∧ ClientMachine.Fine cs cls g :=
  ClientMachine.next_fine h.filled hg

/-- The text in front of the next place. -/
theorem ClientAt.take (h : ClientAt text (c :: bs) cs p s) : text.take (p + 1) = text.take p ++ [c] := by
  rw [List.take_add, h.ahead]
  rfl

/-- None of the names is in front of this line break. -/
theorem ClientAt.not_empty (h : ClientAt text (c :: bs) cs p s) (hf : Filled text) {cls : CharClass}
    (hacc : ClientMachine.accepts c cls = true) : ClientMachine.emptyEntry cs cls = false := by
  refine Bool.eq_false_iff.mpr fun hentry => ?_
  simp only [ClientMachine.emptyEntry, Bool.and_eq_true, List.any_eq_true, decide_eq_true_eq, Bool.or_eq_true] at hentry
  obtain ⟨⟨⟨n, w⟩, hw, rfl⟩, hcls⟩ := hentry
  have hc : c = 10 ∨ c = 13 := by
    rcases hcls with rfl | rfl
    · exact .inl ((ClientMachine.accepts_one_iff (d := 10)).mp hacc)
    · exact .inr ((ClientMachine.accepts_one_iff (d := 13)).mp hacc)
  have htext : text = text.take p ++ c :: bs := by rw [← h.ahead, List.take_append_drop]
  exact hf _ hw _ c bs htext hc (h.heads w hw)

/-- A step that goes on. -/
theorem clientAt_more (hf : Filled text) (hlen : text.length ≤ buffer.length) (h : ClientAt text (c :: bs) cs p s)
    (hg : ClientMachine.next cs c = some g) (hd : g.actions.any (clientMachine buffer).ends = false) :
    Yields StatusFault (ClientAt text bs g.target (p + 1)) ((clientMachine buffer).runActions p g.actions s) := by
  obtain ⟨cls, hacc, hfine⟩ := h.fine hg
  have hnot : .done ∉ g.actions := fun hdone => by
    simp only [clientMachine, List.any_eq_false, decide_eq_true_eq] at hd
    exact hd _ hdone rfl
  have hahead : text.drop (p + 1) = bs := drop_ahead [c] h.ahead
  have hp : p < text.length := by
    have hlength := congrArg List.length h.ahead
    rw [List.length_drop, List.length_cons] at hlength
    omega
  obtain ⟨known, hknown, htarget⟩ := hfine.known
  refine (runActions_kept (by omega) h.kept hknown).mono fun t ht => ?_
  rw [if_neg hnot] at ht
  refine ⟨hahead, hfine.goes hnot (h.not_empty hf hacc), ?_, fun w hw => ?_, fun w hw => ?_⟩
  · exact { ht.later with fieldEnd := fun hn => ht.later.fieldEnd (htarget hn) }
  · rw [h.take]
    exact hfine.spells hacc hw h.spells
  · rw [h.take]
    exact hfine.heads hacc hw h.spells h.heads

/-- A step that ends the scan. -/
theorem clientAt_halt (hlen : text.length ≤ buffer.length) (h : ClientAt text (c :: bs) cs p s)
    (hg : ClientMachine.next cs c = some g) (hd : g.actions.any (clientMachine buffer).ends = true) :
    Yields StatusFault (ClientDone text bs g.target (p + 1)) ((clientMachine buffer).runActions p g.actions s) := by
  obtain ⟨cls, hacc, hfine⟩ := h.fine hg
  have hdone : .done ∈ g.actions := by simpa [clientMachine] using hd
  have hp : p < text.length := by
    have hlength := congrArg List.length h.ahead
    rw [List.length_drop, List.length_cons] at hlength
    omega
  obtain ⟨known, hknown, -⟩ := hfine.known
  refine (runActions_kept (by omega) h.kept hknown).mono fun t ht => ?_
  rw [if_pos hdone] at ht
  exact ⟨drop_ahead [c] h.ahead, hfine.ends hdone, ht.nread, ht.bodyStart⟩

/-- A new scan of a text. -/
theorem clientScan_ends (buffer : List UInt8) (hf : Filled text) (hlen : text.length ≤ buffer.length)
    (memory : HttpClientParser) (hs : s.parser = httpclientParserInit memory) :
    Yields StatusFault (Ended (ClientAt text) (ClientDone text) text 0)
      (Scan.scan (clientMachine buffer).step text ⟨1, 0, s⟩) := by
  have hstart : ClientAt text text 1 0 s := by
    refine ⟨rfl, rfl, ⟨?_, ?_, nofun, ?_, ?_⟩, fun v hv => ?_, fun v hv => ?_⟩
    · rw [hs]; exact Nat.le_refl 0
    · rw [hs]; exact Nat.le_refl 0
    · rw [hs]; rfl
    · rw [hs]; rfl
    · exact absurd hv (by simp [ClientMachine.trail])
    · exact absurd hv (by simp [ClientMachine.names])
  exact scan_ends (fun _ _ _ _ _ _ h hg hd => clientAt_more hf hlen h hg hd)
    (fun _ _ _ _ _ _ h hg hd => clientAt_halt hlen h hg hd) hstart

/-! ## A call of `execute` -/

/-- What `isFinished` says, with what was read and the place of the body. -/
inductive ClientEnd (len : Nat) (e : ClientExecuted) : Prop
  | finished (state : e.self.isFinished = 1) (bodyStart : e.self.parser.bodyStart = e.nread)
  | waiting (state : e.self.isFinished = 0) (bodyStart : e.self.parser.bodyStart = 0) (nread : e.nread = len)
  | rejected (state : e.self.isFinished = -1) (bodyStart : e.self.parser.bodyStart = 0)

/-- A call that returned: no more was read than there was, and what is left is in front. -/
structure ClientReturned (buffer : List UInt8) (len : Nat) (r : ClientExecuted × List UInt8) : Prop where
  ends : ClientEnd len r.1
  nread : r.1.nread ≤ len
  left : r.2.take (len - r.1.nread) = (buffer.take len).drop r.1.nread
  length : r.2.length = buffer.length

/-- What is left of the text, in front. -/
theorem left_moves {n : Nat} (hn : n ≤ len) (hlen : len ≤ buffer.length) :
    (overwrite buffer 0 (slice buffer n (sizeSub len n))).take (len - n) = (buffer.take len).drop n := by
  have hslice : slice buffer n (len - n) = (buffer.take len).drop n := by rw [slice, List.drop_take]
  have hlength : ((buffer.take len).drop n).length = len - n := by
    rw [List.length_drop, List.length_take, Nat.min_eq_left hlen]
  rw [sizeSub_of_le hn, hslice, overwrite, List.take_zero, List.nil_append, List.take_left' hlength]

/-- The end of a call, when its assertions hold. -/
theorem storeClientScan_eq (len : Nat) {r : Scan.Scanned (ActionTable.Cursor HttpResponseParser)}
    (hn : r.state.self.parser.nread + r.count ≤ len) (hb : r.state.self.parser.bodyStart ≤ len) :
    storeClientScan len r = .ok ⟨{ r.state.self with parser :=
      { r.state.self.parser with cs := r.state.cs, nread := r.state.self.parser.nread + r.count } }, r.count⟩ := by
  rw [storeClientScan, if_neg (Nat.not_lt.mpr hn), if_neg (Nat.not_lt.mpr hb)]

theorem storeClientScan_ok (len : Nat) {r : Scan.Scanned (ActionTable.Cursor HttpResponseParser)}
    (hn : r.state.self.parser.nread + r.count ≤ len) (hb : r.state.self.parser.bodyStart ≤ len) :
    ∃ e, storeClientScan len r = .ok e ∧ e.self.parser.cs = r.state.cs ∧
      e.nread = r.state.self.parser.nread + r.count ∧ e.self.parser.bodyStart = r.state.self.parser.bodyStart :=
  ⟨_, storeClientScan_eq len hn hb, rfl, rfl, rfl⟩

theorem isFinished_of_cs {n : Nat} (h : s.parser.cs = n) (h0 : n ≠ 0) (h120 : n ≠ 120) : s.isFinished = 0 := by
  rw [HttpResponseParser.isFinished, h, if_neg h0, if_neg h120]

theorem storeClientScan_ends {r : Scan.Scanned (ActionTable.Cursor HttpResponseParser)}
    (hr : Ended (ClientAt (buffer.take len)) (ClientDone (buffer.take len)) (buffer.take len) 0 r)
    (hlen : len ≤ buffer.length) :
    ∃ e, storeClientScan len r = .ok e ∧ ClientEnd len e ∧ e.nread ≤ len := by
  have hlength : (buffer.take len).length = len := by rw [List.length_take, Nat.min_eq_left hlen]
  have hinside : ∀ {l front rest : List UInt8}, l = front ++ rest → l.length = len → front.length ≤ len :=
    fun hl hn => by rw [← hn, hl, List.length_append]; exact Nat.le_add_right _ _
  cases hr with
  | @more cs t h =>
    have hcs : ClientMachine.filled cs = true := h.filled
    obtain ⟨e, hok, hstate, hnread, hbody⟩ := storeClientScan_ok len
      (r := ⟨⟨cs, 0 + (buffer.take len).length, t⟩, (buffer.take len).length, .more⟩)
      (by rw [h.kept.nread, hlength, Nat.zero_add]) (by rw [h.kept.bodyStart]; exact Nat.zero_le len)
    rw [h.kept.nread, hlength, Nat.zero_add] at hnread
    rw [h.kept.bodyStart] at hbody
    refine ⟨e, hok, .waiting (isFinished_of_cs hstate ?_ ?_) hbody hnread, hnread.le⟩
    · rintro rfl
      exact absurd hcs (by decide)
    · rintro rfl
      exact absurd hcs (by decide)
  | @halt front rest cs t hbs h =>
    have hfront : front.length ≤ len := hinside hbs hlength
    obtain ⟨e, hok, hstate, hnread, hbody⟩ := storeClientScan_ok len
      (r := ⟨⟨cs, 0 + front.length, t⟩, front.length, .halt⟩) (by rw [h.nread, Nat.zero_add]; exact hfront)
      (by rw [h.bodyStart, Nat.zero_add]; exact hfront)
    rw [h.nread, Nat.zero_add] at hnread
    rw [h.bodyStart, Nat.zero_add] at hbody
    refine ⟨e, hok, .finished ?_ (hbody.trans hnread.symm), hnread.le.trans hfront⟩
    rw [HttpResponseParser.isFinished, hstate, h.cs]
    rfl
  | @reject front rest b cs t hbs h =>
    have hfront : front.length ≤ len := hinside hbs hlength
    obtain ⟨e, hok, hstate, hnread, hbody⟩ := storeClientScan_ok len
      (r := ⟨⟨0, 0 + front.length, t⟩, front.length, .reject⟩) (by rw [h.kept.nread, Nat.zero_add]; exact hfront)
      (by rw [h.kept.bodyStart]; exact Nat.zero_le len)
    rw [h.kept.nread, Nat.zero_add] at hnread
    rw [h.kept.bodyStart] at hbody
    refine ⟨e, hok, .rejected ?_ hbody, hnread.le.trans hfront⟩
    rw [HttpResponseParser.isFinished, hstate]
    rfl

/-- A call that starts the scanner. -/
theorem httpclientParserExecute_start (memory : HttpClientParser) (hs : s.parser = httpclientParserInit memory)
    (hterm : buffer[len]? = some 0) (hint : len < intLimit) : httpclientParserExecute buffer len s =
      (Scan.scan (clientMachine buffer).step (buffer.take len) ⟨1, 0, s⟩).bind (storeClientScan len) := by
  have hcs : s.parser.cs = 1 := by rw [hs]; rfl
  rw [httpclientParserExecute, hterm]
  dsimp only
  rw [if_neg (not_not.mpr rfl), if_neg (not_not.mpr (intSize_of_lt hint).symm), if_neg (by rw [hcs]; omega), hcs]

theorem httpclientParserExecute_ends (memory : HttpClientParser) (hs : s.parser = httpclientParserInit memory)
    (hterm : buffer[len]? = some 0) (hint : len < intLimit) (hf : Filled (buffer.take len)) :
    Yields StatusFault (fun e => ClientEnd len e ∧ e.nread ≤ len) (httpclientParserExecute buffer len s) := by
  have hlen : len < buffer.length := (List.getElem?_eq_some_iff.mp hterm).1
  have hscan := clientScan_ends buffer hf (s := s) (by rw [List.length_take]; omega) memory hs
  rw [httpclientParserExecute_start memory hs hterm hint]
  refine hscan.bind fun r hr => ?_
  obtain ⟨e, hok, hend⟩ := storeClientScan_ends hr hlen.le
  rw [hok]
  exact hend

/-- **Outcomes of a response.** A new parser, or any parser that starts with a chunk header, comes with any text that
none of the three names is in front of a line break in to one of the three ends, or to a status that `atoi` is not
defined for; no assertion fails, nothing outside the buffer is read, and what was not read moves to its front. -/
theorem response_outcomes (s : HttpResponseParser) (chunck : Bool)
    (hstart : chunck = true ∨ ∃ memory, s = .new memory) (hterm : buffer[len]? = some 0) (hint : len < intLimit)
    (hf : Filled (buffer.take len)) :
    (∃ r, s.execute buffer len chunck = .ok r ∧ ClientReturned buffer len r) ∨
      s.execute buffer len chunck = .error .status := by
  have hlen : len < buffer.length := (List.getElem?_eq_some_iff.mp hterm).1
  obtain ⟨memory, hs⟩ : ∃ memory, (s.restart chunck).parser = httpclientParserInit memory := by
    rcases hstart with rfl | ⟨memory, rfl⟩
    · exact ⟨s.parser, rfl⟩
    · cases chunck with
      | true => exact ⟨httpclientParserInit memory, rfl⟩
      | false => exact ⟨memory, rfl⟩
  have hends := httpclientParserExecute_ends memory hs hterm hint hf
  rw [HttpResponseParser.execute]
  cases hexec : httpclientParserExecute buffer len (s.restart chunck) with
  | error e =>
    rw [hexec] at hends
    right
    rw [show e = .status from hends]
    rfl
  | ok e =>
    rw [hexec] at hends
    obtain ⟨hend, hnread⟩ : ClientEnd len e ∧ e.nread ≤ len := hends
    refine .inl ⟨_, rfl, hend, hnread, left_moves hnread hlen.le, ?_⟩
    rw [length_overwrite (Nat.zero_le _), Nat.max_eq_left]
    rw [slice, List.length_take, List.length_drop, sizeSub_of_le hnread]
    omega

/-- No line ends with a blank or a colon. -/
def LinesEnd (text : List UInt8) : Bool :=
  (text.zip text.tail).all fun e =>
    (e.2 ≠ 10 && e.2 ≠ 13) || (e.1 ≠ 58 && !ClientMachine.accepts e.1 ClientMachine.blank)

/-- Neighbours in a text. -/
theorem mem_zip_tail (pre rest : List UInt8) (c d : UInt8) :
    (c, d) ∈ (pre ++ c :: d :: rest).zip (pre ++ c :: d :: rest).tail := by
  induction pre with
  | nil => exact List.mem_cons_self
  | cons x pre ih =>
    cases pre with
    | nil => exact List.mem_cons_of_mem _ ih
    | cons y pre => exact List.mem_cons_of_mem _ ih

/-- Where no line ends with a blank or a colon, none does with a name. -/
theorem filled_of_linesEnd (h : LinesEnd text = true) : Filled text := by
  rintro e - front b rest rfl hb ⟨before, blanks, rfl, -, hblanks⟩
  have hlast : ∃ pre c, before ++ 58 :: blanks = pre ++ [c] ∧
      (c = 58 ∨ ClientMachine.accepts c ClientMachine.blank = true) := by
    rcases List.eq_nil_or_concat blanks with rfl | ⟨pre, c, rfl⟩
    · exact ⟨before, 58, rfl, .inl rfl⟩
    · exact ⟨before ++ 58 :: pre, c, by simp, .inr (hblanks c (by simp))⟩
  obtain ⟨pre, c, hpre, hc⟩ := hlast
  rw [hpre, List.append_assoc, List.singleton_append] at h
  have hall := List.all_eq_true.mp h _ (mem_zip_tail pre rest c b)
  have hb' : (b ≠ 10 && b ≠ 13) = false := by rcases hb with rfl | rfl <;> rfl
  have hc' : (c ≠ 58 && !ClientMachine.accepts c ClientMachine.blank) = false := by
    rcases hc with rfl | hc
    · rfl
    · rw [hc, Bool.not_true, Bool.and_false]
  rw [hb', hc'] at hall
  exact Bool.false_ne_true hall

theorem response_outcomes_greeting :
    let text := bytes "HTTP/1.1 200 OK\r\nContent-Length: 2\r\n\r\nhi"
    let s := HttpResponseParser.new ⟨0, 0, 0, 0, false, false, false, 0, 0, 0, 0⟩
    (∃ r, s.execute (text ++ [0]) text.length false = .ok r ∧ ClientReturned (text ++ [0]) text.length r) ∨
      s.execute (text ++ [0]) text.length false = .error .status :=
  response_outcomes _ _ (.inr ⟨_, rfl⟩) rfl (by decide) (filled_of_linesEnd (by decide))

example : ((HttpResponseParser.new ⟨0, 0, 0, 0, false, false, false, 0, 0, 0, 0⟩).execute
    (bytes "HTTP/1.1 200 OK\nContent-Length:\n5\n" ++ [0]) 34 false).map (·.1.nread) =
      .error (.memory .outOfRange) := by
  decide +kernel

end Megalo
