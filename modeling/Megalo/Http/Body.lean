import Megalo.Http.Session

/-!
# The body of a request

What `HttpSession::recvRequest` does when the loop has ended with a request (`bodyRun`): the strings it makes for the
body, and whether it returns the request, closes the session, or is left by an exception. `recvBody_eq_bodyRun` says
that `recvBody` is the same where the heap is never exhausted.

`GetHttpRequestMaxBodySize` is not asked. `body_handled` says when all goes well nevertheless: no body is announced, or
one that is short enough and that the heap has room for; a header that is not a number may be converted all the same,
and then all goes well only where nothing is ever returned.
-/

namespace Megalo

open MachineInt

/-! ## Strings -/

/-- The exceptions of a `std::string`. -/
inductive StringError
  | lengthError
  | badAlloc
  deriving DecidableEq

/-- Room for the last of these strings, where the heap holds the ones before it. The heap is not asked for a string of
at most 15 characters, and none has `2 ^ 62` of them. -/
def makeString (heap : List Nat → Bool) (held : List Nat) (length : Nat) : Except StringError Unit :=
  if 2 ^ 62 ≤ length then .error .lengthError
  else if length ≤ 15 ∨ heap (held ++ [length]) then .ok ()
  else .error .badAlloc

/-- How `recvRequest` ends once it has a head. -/
inductive BodyEnding
  | returned (body : List UInt8) (reads : List (List UInt8))
  | closed
  | threw (e : StringError)
  deriving DecidableEq

/-- The lengths of the strings that are made for the body, and the end. -/
structure BodyRun where
  strings : List Nat
  ending : BodyEnding
  deriving DecidableEq

/-- `setBody`, and the request is returned. -/
def setBody (heap : List Nat → Bool) (body : List UInt8) (reads : List (List UInt8)) : BodyRun :=
  match makeString heap [body.length] body.length with
  | .error e => ⟨[body.length], .threw e⟩
  | .ok () => ⟨[body.length, body.length], .returned body reads⟩

/-- `recvRequest` behind its loop, where so many bytes are `buffered` behind the head. -/
def bodyRun (cast : List UInt8 → Option UInt64) (heap : List Nat → Bool) (headers : HeaderMap) (buffered : List UInt8)
    (reads : List (List UInt8)) : BodyRun :=
  let length := headers.contentLength cast
  if length ≤ 0 then ⟨[], .returned [] reads⟩
  else
    match makeString heap [] length.toNat with
    | .error e => ⟨[], .threw e⟩
    | .ok () =>
      -- the first bytes of `body` are the buffered ones, as far as they belong to it
      if length ≤ buffered.length then setBody heap (buffered.take length.toNat) reads
      else
        let left := length.toNat - buffered.length
        match readFixSize reads left with
        | none => ⟨[length.toNat], .closed⟩
        | some (rest, reads) =>
          if intSize left ≤ 0 then ⟨[length.toNat], .closed⟩ else setBody heap (buffered ++ rest) reads

/-- The body that is returned, and the reads behind it. -/
def BodyEnding.value : BodyEnding → Option (List UInt8 × List (List UInt8))
  | .returned body reads => some (body, reads)
  | _ => none

/-! ## The body that is announced -/

/-- A body of the announced length is returned, the next bytes of the stream, or the session is closed; and no string
is longer than allowed. -/
structure BodyRun.Kept (max : Nat) (declared : Option Nat) (stream : List UInt8) (run : BodyRun) : Prop where
  room : ∀ n ∈ run.strings, n ≤ max
  returned : ∀ body reads, run.ending = .returned body reads →
    ∃ length, declared = some length ∧ length ≤ max ∧ body = stream.take length ∧ body.length = length
  caught : ∀ e, run.ending ≠ .threw e

/-- No body is announced, or one that is short enough and that the heap has room for, and for a copy of it unless
`readFixSize` returns the length of what is read as an `int` that is not positive. A header that is not a number, but
that is converted to one, is short enough and has room; and that `int` is never positive, so that the session is closed
whatever is read. -/
def HeaderMap.BodyFits (cast : List UInt8 → Option UInt64) (heap : List Nat → Bool) (max offset : Nat)
    (headers : HeaderMap) : Prop :=
  match headers.declaredLength with
  | some length =>
    length = 0 ∨ length ≤ max ∧ makeString heap [] length = .ok () ∧
      (offset < length → 0 < intSize (length - offset) → makeString heap [length] length = .ok ()) ∧
      (length ≤ offset → makeString heap [length] length = .ok ())
  | none => ∃ length, (headers.find (bytes "content-length")).bind cast = some length ∧ 0 < length ∧
      length.toNat ≤ max ∧ makeString heap [] length.toNat = .ok () ∧ offset < length.toNat ∧
      intSize (length.toNat - offset) ≤ 0

section

variable {cast : List UInt8 → Option UInt64} {heap : List Nat → Bool} {headers : HeaderMap}
  {buffered body : List UInt8} {reads : List (List UInt8)} {held : List Nat} {n max : Nat}

theorem makeString_lt (h : makeString heap held n = .ok ()) : n < 2 ^ 62 := by
  by_contra hle
  rw [makeString, if_pos (Nat.le_of_not_lt hle)] at h
  cases h

theorem setBody_ok (h : makeString heap [body.length] body.length = .ok ()) :
    setBody heap body reads = ⟨[body.length, body.length], .returned body reads⟩ := by
  rw [setBody, h]

theorem setBody_error {e : StringError} (h : makeString heap [body.length] body.length = .error e) :
    setBody heap body reads = ⟨[body.length], .threw e⟩ := by
  rw [setBody, h]

/-- The strings of `setBody` have the length of the body, and it returns nothing but the body. -/
theorem setBody_kept {stream : List UInt8} (hlength : body.length = n) (h : makeString heap [n] n = .ok ())
    (hmax : n ≤ max) (hbody : body = stream.take n) : (setBody heap body reads).Kept max (some n) stream := by
  subst hlength
  rw [setBody_ok h]
  exact {
    room := by
      intro n hn
      simp only [List.mem_cons, List.not_mem_nil, or_false, or_self] at hn
      exact hn ▸ hmax
    returned := by
      intro body' reads' he
      cases he
      exact ⟨_, rfl, hmax, hbody, rfl⟩
    caught := by simp }

theorem setBody_mem (hlength : body.length = n) : n ∈ (setBody heap body reads).strings := by
  subst hlength
  unfold setBody
  split
  · exact List.mem_cons_self
  · exact List.mem_cons_self

/-- Nothing is thrown only where there is room for the copy. -/
theorem makeString_of_caught (hlength : body.length = n) (h : ∀ e, (setBody heap body reads).ending ≠ .threw e) :
    makeString heap [n] n = .ok () := by
  subst hlength
  cases hs : makeString heap [body.length] body.length with
  | ok => rfl
  | error e =>
    rw [setBody_error hs] at h
    exact absurd rfl (h e)

/-- A request with a body is returned or an exception thrown, neither of which is right where no length is announced. -/
theorem setBody_not_kept {stream : List UInt8} : ¬(setBody heap body reads).Kept max none stream := by
  intro h
  cases hs : makeString heap [body.length] body.length with
  | error e => exact h.caught e (by rw [setBody_error hs])
  | ok =>
    obtain ⟨length, hnone, -⟩ := h.returned body reads (by rw [setBody_ok hs])
    cases hnone

theorem closed_kept {declared : Option Nat} {stream : List UInt8} (hmax : n ≤ max) :
    (⟨[n], .closed⟩ : BodyRun).Kept max declared stream where
  room k hk := by
    rw [List.mem_singleton.mp hk]
    exact hmax
  returned body reads he := by cases he
  caught := by simp

/-! ## One branch after the other -/

theorem bodyRun_none (h : headers.contentLength cast ≤ 0) :
    bodyRun cast heap headers buffered reads = ⟨[], .returned [] reads⟩ := by
  simp only [bodyRun, if_pos h]

section Length

variable (hn : headers.contentLength cast = n) (hpos : 0 < n)

include hn hpos

theorem bodyRun_error {e : StringError} (hs : makeString heap [] n = .error e) :
    bodyRun cast heap headers buffered reads = ⟨[], .threw e⟩ := by
  have hpos : ¬(n : Int) ≤ 0 := by omega
  simp only [bodyRun, hn, Int.toNat_natCast, hs, if_neg hpos]

theorem bodyRun_buffered (hs : makeString heap [] n = .ok ()) (hle : n ≤ buffered.length) :
    bodyRun cast heap headers buffered reads = setBody heap (buffered.take n) reads := by
  have hpos : ¬(n : Int) ≤ 0 := by omega
  simp only [bodyRun, hn, Int.toNat_natCast, hs, if_neg hpos]
  exact if_pos (by omega)

theorem bodyRun_read (hs : makeString heap [] n = .ok ()) (hlt : buffered.length < n) :
    bodyRun cast heap headers buffered reads =
      match readFixSize reads (n - buffered.length) with
      | none => ⟨[n], .closed⟩
      | some (rest, reads) =>
        if intSize (n - buffered.length) ≤ 0 then ⟨[n], .closed⟩ else setBody heap (buffered ++ rest) reads := by
  have hpos : ¬(n : Int) ≤ 0 := by omega
  have hle : ¬(n : Int) ≤ buffered.length := by omega
  simp only [bodyRun, hn, Int.toNat_natCast, hs, if_neg hpos, if_neg hle]

/-- The session is closed whatever is read where `readFixSize` never returns a positive number. -/
theorem bodyRun_closed (hs : makeString heap [] n = .ok ()) (hlt : buffered.length < n)
    (hint : intSize (n - buffered.length) ≤ 0) : bodyRun cast heap headers buffered reads = ⟨[n], .closed⟩ := by
  rw [bodyRun_read hn hpos hs hlt]
  split
  · rfl
  · rw [if_pos hint]

/-- The string for the announced body is made in every case. -/
theorem bodyRun_mem (hs : makeString heap [] n = .ok ()) :
    n ∈ (bodyRun cast heap headers buffered reads).strings := by
  by_cases hle : n ≤ buffered.length
  · rw [bodyRun_buffered hn hpos hs hle]
    exact setBody_mem (List.length_take_of_le hle)
  · have hlt := Nat.lt_of_not_le hle
    rw [bodyRun_read hn hpos hs hlt]
    split
    · exact List.mem_singleton_self _
    · rename_i rest reads' hread
      obtain ⟨-, -, -, hrest⟩ := readFixSize_some hread
      split
      · exact List.mem_singleton_self _
      · apply setBody_mem
        rw [List.length_append]
        omega

/-- Where every sequence of reads goes well, the string has room and is short enough. -/
theorem makeString_of_kept {declared : Option Nat} (h : ∀ reads,
    (bodyRun cast heap headers buffered reads).Kept max declared (buffered ++ reads.flatten)) :
    makeString heap [] n = .ok () ∧ n ≤ max := by
  have hs : makeString heap [] n = .ok () := by
    cases hs : makeString heap [] n with
    | ok => rfl
    | error e => exact absurd (by rw [bodyRun_error hn hpos hs]) ((h []).caught e)
  exact ⟨hs, (h []).room _ (bodyRun_mem hn hpos hs)⟩

end Length

/-- Where the heap is never exhausted and there is a string of the announced length, the body is the one of
`recvBody`. -/
theorem recvBody_eq_bodyRun {data : List UInt8} {offset : Nat} (hoffset : offset ≤ data.length)
    (hlength : headers.contentLength cast < 2 ^ 62) : recvBody cast headers data offset reads =
      (bodyRun cast (fun _ => true) headers (data.take offset) reads).ending.value := by
  have hbuffered : (data.take offset).length = offset := List.length_take_of_le hoffset
  by_cases hzero : headers.contentLength cast ≤ 0
  · have hnat : (headers.contentLength cast).toNat = 0 := by omega
    rw [bodyRun_none hzero, recvBody, hnat]
    exact if_pos (Nat.zero_le offset)
  · obtain ⟨n, hn⟩ : ∃ n : Nat, headers.contentLength cast = n := ⟨(headers.contentLength cast).toNat, by omega⟩
    have hpos : 0 < n := by omega
    have hmake : ∀ held, makeString (fun _ => true) held n = .ok () := by
      intro held
      rw [makeString, if_neg (by omega), if_pos (.inr rfl)]
    simp only [recvBody, hn, Int.toNat_natCast]
    split
    · rename_i hle
      have hbody : ((data.take offset).take n).length = n := List.length_take_of_le (by omega)
      rw [bodyRun_buffered hn hpos (hmake []) (by omega), setBody_ok (by rw [hbody]; exact hmake _), List.take_take,
        Nat.min_eq_left hle]
      rfl
    · rename_i hlt
      rw [bodyRun_read hn hpos (hmake []) (by omega), hbuffered]
      cases hread : readFixSize reads (n - offset) with
      | none => split <;> rfl
      | some r =>
        obtain ⟨-, -, -, hrest⟩ := readFixSize_some hread
        dsimp only
        split
        · rfl
        · have hbody : (data.take offset ++ r.1).length = n := by
            rw [List.length_append]
            omega
          rw [setBody_ok (by rw [hbody]; exact hmake _)]
          rfl

/-- A body that is short enough and has room is returned as it is announced, or the session is closed. -/
theorem bodyRun_kept (hn : headers.contentLength cast = n) (hpos : 0 < n) (hmax : n ≤ max)
    (hs : makeString heap [] n = .ok ())
    (hread : buffered.length < n → 0 < intSize (n - buffered.length) → makeString heap [n] n = .ok ())
    (hcopy : n ≤ buffered.length → makeString heap [n] n = .ok ()) :
    (bodyRun cast heap headers buffered reads).Kept max (some n) (buffered ++ reads.flatten) := by
  by_cases hle : n ≤ buffered.length
  · rw [bodyRun_buffered hn hpos hs hle]
    exact setBody_kept (List.length_take_of_le hle) (hcopy hle) hmax (List.take_append_of_le_length hle).symm
  · have hlt := Nat.lt_of_not_le hle
    rw [bodyRun_read hn hpos hs hlt]
    split
    · exact closed_kept hmax
    · rename_i rest reads' hrun
      obtain ⟨k, rfl, rfl, hrest⟩ := readFixSize_some hrun
      split
      · exact closed_kept hmax
      · rename_i hint
        have hlength : (buffered ++ (reads.take k).flatten).length = n := by
          rw [List.length_append]
          omega
        refine setBody_kept hlength (hread hlt (not_le.mp hint)) hmax ?_
        -- what the first `k` reads delivered stands in front of the others
        conv_rhs => rw [← List.take_append_drop k reads, List.flatten_append, ← List.append_assoc, ← hlength]
        rw [List.take_left]

/-- Reads of one byte each deliver what is left. -/
theorem readFixSize_bytes (left : Nat) :
    ∃ rest, readFixSize (List.replicate left [0]) left = some (rest, []) ∧ rest.length = left := by
  have hne : ∀ read ∈ List.replicate left [(0 : UInt8)], read ≠ [] := by
    intro read hread
    rw [List.eq_of_mem_replicate hread]
    exact List.cons_ne_nil 0 []
  have hflat : (List.replicate left [(0 : UInt8)]).flatten.length = left := by
    rw [List.flatten_replicate_singleton, List.length_replicate]
  have hrun := readFixSize_take left hne
  rw [List.take_of_length_le (by simp), List.drop_of_length_le (by simp), hflat] at hrun
  exact ⟨_, hrun, hflat⟩

/-- Reads of one byte each lead to a request with a body. -/
theorem bodyRun_bytes (hn : headers.contentLength cast = n) (hpos : 0 < n) (hs : makeString heap [] n = .ok ())
    (hlt : buffered.length < n) (hint : 0 < intSize (n - buffered.length)) :
    ∃ rest, (buffered ++ rest).length = n ∧
      bodyRun cast heap headers buffered (List.replicate (n - buffered.length) [0]) =
        setBody heap (buffered ++ rest) [] := by
  obtain ⟨rest, hrun, hrest⟩ := readFixSize_bytes (n - buffered.length)
  refine ⟨rest, by rw [List.length_append]; omega, ?_⟩
  rw [bodyRun_read hn hpos hs hlt, hrun]
  exact if_neg (not_le.mpr hint)

/-! ## Heads with a length and without one -/

/-- A positive length is the one that the header is converted to. -/
theorem contentLength_of_pos (h : 0 < headers.contentLength cast) :
    ∃ length, (headers.find (bytes "content-length")).bind cast = some length ∧
      headers.contentLength cast = length.toNat ∧ 0 < length.toNat := by
  have heq : headers.contentLength cast = _ := contentLength_eq headers
  have hlt := (headers.getContentLength cast).toNat_lt
  rw [HeaderMap.getContentLength, getAs_eq] at heq hlt
  cases hfind : (headers.find (bytes "content-length")).bind cast with
  | none =>
    rw [hfind] at heq
    rw [heq] at h
    exact absurd h (by decide)
  | some length =>
    rw [hfind, Option.getD_some] at heq hlt
    split at heq
    · exact ⟨length, rfl, heq, by omega⟩
    · omega

/-- A head whose header is not a number. -/
theorem kept_none_iff (hdeclared : headers.declaredLength = none) :
    (∀ reads, (bodyRun cast heap headers buffered reads).Kept max none (buffered ++ reads.flatten)) ↔
      headers.BodyFits cast heap max buffered.length := by
  rw [HeaderMap.BodyFits, hdeclared]
  constructor
  · intro h
    have hpos : 0 < headers.contentLength cast := by
      by_contra hneg
      obtain ⟨length, hnone, -⟩ := (h []).returned [] [] (by rw [bodyRun_none (not_lt.mp hneg)])
      cases hnone
    obtain ⟨length, hfind, hn, hpos⟩ := contentLength_of_pos hpos
    obtain ⟨hs, hmax⟩ := makeString_of_kept hn hpos h
    have hlt : buffered.length < length.toNat := by
      by_contra hge
      have hkept := h []
      rw [bodyRun_buffered hn hpos hs (not_lt.mp hge)] at hkept
      exact setBody_not_kept hkept
    refine ⟨length, hfind, UInt64.lt_iff_toNat_lt.mpr hpos, hmax, hs, hlt, ?_⟩
    by_contra hint
    obtain ⟨rest, -, hrun⟩ := bodyRun_bytes hn hpos hs hlt (not_le.mp hint)
    have hkept := h (List.replicate (length.toNat - buffered.length) [0])
    rw [hrun] at hkept
    exact setBody_not_kept hkept
  · rintro ⟨length, hfind, hpos, hmax, hs, hlt, hint⟩ reads
    have hpos : 0 < length.toNat := UInt64.lt_iff_toNat_lt.mp hpos
    have hn : headers.contentLength cast = length.toNat := by
      have := makeString_lt hs
      rw [contentLength_eq, HeaderMap.getContentLength, getAs_eq, hfind, Option.getD_some, if_pos (by omega)]
    rw [bodyRun_closed hn hpos hs hlt hint]
    exact closed_kept hmax

/-- A head that announces a length. -/
theorem kept_some_iff (hcast : CastsDecimals cast) (hdeclared : headers.declaredLength = some n) :
    (∀ reads, (bodyRun cast heap headers buffered reads).Kept max (some n) (buffered ++ reads.flatten)) ↔
      headers.BodyFits cast heap max buffered.length := by
  rw [HeaderMap.BodyFits, hdeclared]
  have hzero : headers.contentLength cast ≤ 0 → (n = 0 ↔ ∀ reads,
      (bodyRun cast heap headers buffered reads).Kept max (some n) (buffered ++ reads.flatten)) := by
    intro hneg
    refine ⟨fun h reads => ?_, fun h => ?_⟩
    · rw [bodyRun_none hneg, h]
      exact ⟨by simp, fun body reads' he => (by cases he; exact ⟨0, rfl, Nat.zero_le _, rfl, rfl⟩), by simp⟩
    · obtain ⟨length, he, -, -, hlength⟩ := (h []).returned [] [] (by rw [bodyRun_none hneg])
      cases he
      exact hlength.symm
  rcases Nat.lt_or_ge n (2 ^ 63) with hlt | hge
  · have hn := contentLength_of_lt hcast hdeclared hlt
    rcases Nat.eq_zero_or_pos n with h0 | hpos
    · exact ⟨fun _ => .inl h0, fun _ => (hzero (by omega)).mp h0⟩
    constructor
    · intro h
      obtain ⟨hs, hmax⟩ := makeString_of_kept hn hpos h
      refine .inr ⟨hmax, hs, fun hlt hint => ?_, fun hle => ?_⟩
      · obtain ⟨rest, hlength, hrun⟩ := bodyRun_bytes hn hpos hs hlt hint
        have hcaught := (h (List.replicate (n - buffered.length) [0])).caught
        rw [hrun] at hcaught
        exact makeString_of_caught hlength hcaught
      · have hcaught := (h []).caught
        rw [bodyRun_buffered hn hpos hs hle] at hcaught
        exact makeString_of_caught (List.length_take_of_le hle) hcaught
    · rintro (h0 | ⟨hmax, hs, hread, hcopy⟩)
      · exact absurd h0 (Nat.ne_of_gt hpos)
      · exact fun reads => bodyRun_kept hn hpos hmax hs hread hcopy
  · -- the length is not positive as an `int64_t`, and no string is as long
    rw [← hzero (contentLength_of_ge hcast hdeclared hge)]
    refine ⟨.inl, fun h => h.resolve_right fun ⟨_, hs, _⟩ => ?_⟩
    have := makeString_lt hs
    omega

end

/-- `recvRequest` handles the body of a head, whatever its reads do, exactly when the body fits. -/
theorem body_handled (cast : List UInt8 → Option UInt64) (hcast : CastsDecimals cast) (heap : List Nat → Bool)
    (max : Nat) (headers : HeaderMap) (buffered : List UInt8) :
    (∀ reads, (bodyRun cast heap headers buffered reads).Kept max headers.declaredLength
        (buffered ++ reads.flatten)) ↔ headers.BodyFits cast heap max buffered.length := by
  cases hdeclared : headers.declaredLength with
  | none => exact kept_none_iff hdeclared
  | some n => exact kept_some_iff hcast hdeclared

/-- A body of three bytes, of which one is in the buffer and two come with the next read. -/
theorem body_handled_short : (bodyRun decimalCast (fun _ => true) [(bytes "content-length", bytes "3")] (bytes "a")
    [bytes "bc"]).Kept 67108864 (HeaderMap.declaredLength [(bytes "content-length", bytes "3")]) (bytes "abc") := by
  refine (body_handled decimalCast castsDecimals_decimalCast (fun _ => true) 67108864
    [(bytes "content-length", bytes "3")] (bytes "a")).mpr ?_ [bytes "bc"]
  have hvalue : HeaderMap.declaredLength [(bytes "content-length", bytes "3")] = some 3 := by decide +kernel
  rw [HeaderMap.BodyFits, hvalue]
  exact .inr ⟨by decide, by decide, fun _ _ => (by decide), fun _ => by decide⟩

/-- One byte more than the maximum is allocated, and a length that `uint64_t` does not have gives a request without a
body. -/
theorem long_body_allocated :
    ¬(bodyRun decimalCast (fun _ => true) [(bytes "content-length", bytes "67108865")] [] []).Kept 67108864
      (HeaderMap.declaredLength [(bytes "content-length", bytes "67108865")]) [] ∧
    ¬(bodyRun decimalCast (fun _ => true) [(bytes "content-length", bytes "18446744073709551616")] [] []).Kept 67108864
      (HeaderMap.declaredLength [(bytes "content-length", bytes "18446744073709551616")]) [] := by
  refine ⟨fun h => ?_, fun h => ?_⟩
  · exact absurd (h.room 67108865 (by decide +kernel)) (by decide)
  · obtain ⟨length, hlength, hmax, -⟩ := h.returned [] [] (by decide +kernel)
    have hvalue : HeaderMap.declaredLength [(bytes "content-length", bytes "18446744073709551616")] =
        some 18446744073709551616 := by decide +kernel
    rw [hvalue] at hlength
    cases hlength
    exact absurd hmax (by decide)

end Megalo
