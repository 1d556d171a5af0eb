import Megalo.Http.Scanner
import Mathlib.Data.List.TakeWhile

/-!
# The method of a request

- `stringToHttpMethod` compares a whole string with the names of `HTTP_METHOD_MAP`, `charsToHttpMethod` a prefix of the
  characters, of a length that only the name knows;
- no name of the table is a prefix of another one (`methods_antichain`), so the two agree on a token exactly when no
  name is a proper prefix of it (`chars_eq_string_iff`);
- `on_request_method` takes the characters from the buffer and not their number: `request_method_iff`.
-/

namespace Megalo

/-- `StringToHttpMethod`: the method of that name, of the characters before the first NUL. -/
def stringToHttpMethod (m : List UInt8) : HttpMethod :=
  ((httpMethodMap.find? fun e => bytes e.2 = m.takeWhile (· ≠ 0)).map Prod.fst).getD .invalidMethod

/-- An upper-case letter or a digit. -/
def isUpperOrDigit (c : UInt8) : Bool := (65 ≤ c && c ≤ 90) || (48 ≤ c && c ≤ 57)

/-- What the machine takes for a method. -/
structure MethodToken (t : List UInt8) : Prop where
  chars : ∀ c ∈ t, isUpperOrDigit c = true
  pos : 0 < t.length
  length_le : t.length ≤ 20

/-- What `on_request_method` does to a parser when it finds the method, or none. -/
def HttpRequestParser.withMethod (s : HttpRequestParser) (m : HttpMethod) : HttpRequestParser :=
  if m = .invalidMethod then s.setError 1000 else { s with data := { s.data with method := m } }

/-- With the token in the buffer and a blank behind it, the callback goes by the method that the token is. -/
def MethodMatched (front t rest : List UInt8) : Prop :=
  ∀ s, onRequestMethod (front ++ (t ++ 32 :: rest)) front.length t.length s = .ok (s.withMethod (stringToHttpMethod t))

variable {t : List UInt8}

theorem MethodToken.nul_free (h : MethodToken t) : ∀ c ∈ t, c ≠ 0 := by
  rintro c hc rfl
  exact absurd (h.chars 0 hc) (by decide)

/-! ## The table -/

theorem methods_valid : ∀ e ∈ httpMethodMap, e.1 ≠ .invalidMethod := by decide

theorem methods_antichain : ∀ e ∈ httpMethodMap, ∀ e' ∈ httpMethodMap, bytes e.2 <+: bytes e'.2 → e = e' := by
  decide +kernel

/-- A name without a blank that begins a text begins what is in front of the first blank of it. -/
theorem isPrefixOf_token {name : List UInt8} (h : 32 ∉ name) (l r : List UInt8) :
    name.isPrefixOf (l ++ 32 :: r) = name.isPrefixOf l := by
  induction name generalizing l with
  | nil => simp
  | cons c name ih =>
    have hname : 32 ∉ name := fun hm => h (List.mem_cons_of_mem c hm)
    cases l with
    | nil =>
      have hc : (c == 32) = false := beq_eq_false_iff_ne.2 fun hc => h (hc ▸ List.mem_cons_self)
      simp [List.isPrefixOf, hc]
    | cons d l => simp [List.isPrefixOf, ih hname l]

/-- The prefix comparison finds a method of the table when one of its names begins the characters. -/
theorem charsToHttpMethod_of_prefix {e : HttpMethod × String} (he : e ∈ httpMethodMap) (hp : bytes e.2 <+: t) :
    charsToHttpMethod t ≠ .invalidMethod := by
  have hsome : (httpMethodMap.find? fun e => (bytes e.2).isPrefixOf t).isSome :=
    List.find?_isSome.2 ⟨e, he, List.isPrefixOf_iff_prefix.2 hp⟩
  obtain ⟨e', he'⟩ := Option.isSome_iff_exists.1 hsome
  rw [charsToHttpMethod, he']
  exact methods_valid e' (List.mem_of_find?_eq_some he')

/-- The comparison of the whole finds a method only when the characters are its name. -/
theorem exists_of_stringToHttpMethod (h : stringToHttpMethod t ≠ .invalidMethod) :
    ∃ e ∈ httpMethodMap, bytes e.2 = t.takeWhile (· ≠ 0) := by
  cases hfind : httpMethodMap.find? fun e => bytes e.2 = t.takeWhile (· ≠ 0) with
  | none =>
    rw [stringToHttpMethod, hfind] at h
    exact absurd rfl h
  | some e => exact ⟨e, List.mem_of_find?_eq_some hfind, by simpa using List.find?_some hfind⟩

/-- **Prefix and whole.** The two comparisons agree exactly when no name is a proper prefix of the characters. -/
theorem chars_eq_string_iff (ht : ∀ c ∈ t, c ≠ 0) :
    charsToHttpMethod t = stringToHttpMethod t ↔ ∀ e ∈ httpMethodMap, bytes e.2 <+: t → bytes e.2 = t := by
  have htake : t.takeWhile (· ≠ 0) = t := List.takeWhile_eq_self_iff.2 fun c hc => decide_eq_true (ht c hc)
  constructor
  · intro heq e he hp
    obtain ⟨e', he', hname⟩ := exists_of_stringToHttpMethod (heq ▸ charsToHttpMethod_of_prefix he hp)
    rw [htake] at hname
    rw [← hname] at hp
    rw [methods_antichain e he e' he' hp, hname]
  · intro h
    have hcongr : ∀ e ∈ httpMethodMap, (bytes e.2).isPrefixOf t = decide (bytes e.2 = t) := by
      intro e he
      rw [Bool.eq_iff_iff, List.isPrefixOf_iff_prefix, decide_eq_true_iff]
      exact ⟨h e he, fun heq => heq ▸ List.prefix_rfl⟩
    rw [charsToHttpMethod, stringToHttpMethod, htake, List.find?_congr hcongr]

theorem charsToHttpMethod_token (rest : List UInt8) : charsToHttpMethod (t ++ 32 :: rest) = charsToHttpMethod t := by
  rw [charsToHttpMethod, charsToHttpMethod,
    List.find?_congr fun e he => isPrefixOf_token (methods_blank e he) t rest]

/-! ## The callback -/

/-- The callback goes by the characters. -/
theorem onRequestMethod_eq (front rest : List UInt8) (s : HttpRequestParser) :
    onRequestMethod (front ++ (t ++ 32 :: rest)) front.length t.length s =
      .ok (s.withMethod (charsToHttpMethod t)) := by
  have htext : text (front ++ (t ++ 32 :: rest)) front.length t.length = .ok t := by
    rw [text, if_pos (by simp), Overwrite.slice]
    simp
  rw [onRequestMethod, List.drop_left, charsToHttpMethod_token, HttpRequestParser.withMethod]
  split
  · rename_i hinv
    rw [htext, hinv, if_pos rfl]
    rfl
  · rename_i hvalid
    rw [if_neg hvalid]
    rfl

/-- From a parser without an error one can tell the methods apart. -/
theorem withMethod_inj {m m' : HttpMethod} {s : HttpRequestParser} (hs : s.error = 0)
    (h : s.withMethod m = s.withMethod m') : m = m' := by
  have herror (m : HttpMethod) : (s.withMethod m).error = if m = .invalidMethod then 1000 else 0 := by
    rw [HttpRequestParser.withMethod]
    split
    · rfl
    · exact hs
  have herr := congrArg HttpRequestParser.error h
  rw [herror, herror] at herr
  by_cases hm : m = .invalidMethod
  · by_cases hm' : m' = .invalidMethod
    · rw [hm, hm']
    · rw [if_pos hm, if_neg hm'] at herr
      cases herr
  · by_cases hm' : m' = .invalidMethod
    · rw [if_neg hm, if_pos hm'] at herr
      cases herr
    · rw [HttpRequestParser.withMethod, HttpRequestParser.withMethod, if_neg hm, if_neg hm'] at h
      exact congrArg (fun s => s.data.method) h

theorem methodMatched_iff (ht : ∀ c ∈ t, c ≠ 0) (front rest : List UInt8) :
    MethodMatched front t rest ↔ ∀ e ∈ httpMethodMap, bytes e.2 <+: t → bytes e.2 = t := by
  rw [← chars_eq_string_iff ht]
  constructor
  · intro h
    have hnew := h (.new ⟨false, 0, false⟩)
    rw [onRequestMethod_eq] at hnew
    exact withMethod_inj rfl (Except.ok.inj hnew)
  · intro h s
    rw [onRequestMethod_eq, h]

/-- **The method as a whole token.** For every method token in the buffer with a blank and anything behind it, the
callback sets the method that the token is, or the error where it is none, exactly when no name of the table is a proper
prefix of the token. -/
theorem request_method_iff (ht : MethodToken t) (front rest : List UInt8) :
    MethodMatched front t rest ↔ ∀ e ∈ httpMethodMap, bytes e.2 <+: t → bytes e.2 = t :=
  methodMatched_iff ht.nul_free front rest

/-- The name of a method. -/
theorem request_method_iff_get : MethodMatched [] (bytes "GET") (bytes "/ HTTP/1.1") :=
  (request_method_iff ⟨List.all_eq_true.1 (by decide), by decide, by decide⟩ [] _).2 (by decide +kernel)

/-- A token that begins with the name of a method. -/
theorem request_method_getx : MethodToken (bytes "GETX") ∧ stringToHttpMethod (bytes "GETX") = .invalidMethod ∧
    ∀ s, onRequestMethod (bytes "GETX / HTTP/1.1") 0 4 s = .ok { s with data := { s.data with method := .get } } := by
  refine ⟨⟨List.all_eq_true.1 (by decide), by decide, by decide⟩, by decide, fun s => ?_⟩
  exact onRequestMethod_eq (t := bytes "GETX") [] (bytes "/ HTTP/1.1") s

end Megalo
