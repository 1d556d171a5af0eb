import Megalo.Address.Basic
import Megalo.Util.Trim

/-!
# `Address::Lookup`

- `splitHost` looks for an address in brackets (`bracketed`), and where that gives no node, for one colon
  (`hostAndPort`); a pointer into the text is an offset, and `request` has the two texts that `getaddrinfo` is given;
- in front of two colons `service` is left where it points to, so a text with several colons and no bracket in front has
  a service where it is to have none (`request_colons`), and all others are split as they are to be
  (`lookup_splits_iff`).
-/

namespace Megalo

/-- `memchr`, from an offset on, in as many characters. -/
def memchr (s : List UInt8) (i : ℕ) (c : UInt8) (n : ℕ) : Option ℕ :=
  (((s.drop i).take n).findIdx? fun c' => c' = c).map fun j => i + j

/-- A C string. -/
def cstr (s : List UInt8) : List UInt8 := s.takeWhile fun c => c ≠ 0

/-- `node` and `service` behind the part about brackets. -/
def bracketed (host : List UInt8) : List UInt8 × Option ℕ :=
  if host.head? = some 91 then
    match memchr host 1 93 (host.length - 1) with
    | some endipv6 =>
      (StringUtil.substr host 1 (endipv6 - 1), if host.getD (endipv6 + 1) 0 = 58 then some (endipv6 + 2) else none)
    | none => ([], none)
  else ([], none)

/-- `node` and `service` behind the part about a colon, where `node` is empty before. -/
def hostAndPort (host : List UInt8) : List UInt8 × Option ℕ :=
  match memchr host 0 58 host.length with
  | some service =>
    if memchr host (service + 1) 58 (host.length - service - 1) = none then
      (StringUtil.substr host 0 service, some (service + 1))
    else ([], some service)
  | none => ([], none)

/-- `node` and `service`. -/
def splitHost (host : List UInt8) : List UInt8 × Option ℕ :=
  let r := bracketed host
  let r := if r.1 = [] then hostAndPort host else r
  (if r.1 = [] then host else r.1, r.2)

/-- The node and the service that `getaddrinfo` is given. -/
def request (host : List UInt8) : List UInt8 × Option (List UInt8) :=
  (cstr (splitHost host).1, (splitHost host).2.map fun service => cstr (host.drop service))

/-- The fields of `hints` that `Lookup` is given; the others are zero. -/
structure Hints where
  family : BitVec 32
  socktype : BitVec 32
  protocol : BitVec 32

/-- `Lookup`, with the results of `getaddrinfo` or its error. -/
def Address.lookup
    (getaddrinfo : List UInt8 → Option (List UInt8) → Hints → Except (BitVec 32) (List (Option Sockaddr)))
    (result : List (Option Address)) (host : List UInt8) (family type protocol : BitVec 32) :
    Bool × List (Option Address) :=
  match getaddrinfo (request host).1 (request host).2 { family, socktype := type, protocol } with
  | .error _ => (false, result)
  | .ok results =>
    let result := result ++ results.map Address.create
    (!result.isEmpty, result)

/-- What a text is to be split into. -/
structure Splits (host : List UInt8) : Prop where
  bracketPort : ∀ h p, h ≠ [] → 93 ∉ h → host = bytes "[" ++ h ++ bytes "]:" ++ p → request host = (h, some p)
  bracket : ∀ h, h ≠ [] → 93 ∉ h → host = bytes "[" ++ h ++ bytes "]" → request host = (h, none)
  port : ∀ h p, h ≠ [] → h.head? ≠ some 91 → 58 ∉ h → 58 ∉ p → host = h ++ bytes ":" ++ p → request host = (h, some p)
  whole : host.head? ≠ some 91 → host.count 58 = 0 ∨ 2 ≤ host.count 58 → request host = (host, none)

variable {host h p : List UInt8}

/-! ## Searching -/

theorem memchr_eq_none_iff {s : List UInt8} {i : ℕ} {c : UInt8} {n : ℕ} :
    memchr s i c n = none ↔ c ∉ (s.drop i).take n := by
  rw [memchr, Option.map_eq_none_iff, List.findIdx?_eq_none_iff]
  constructor
  · intro h hc
    exact absurd rfl (of_decide_eq_false (h c hc))
  · intro h c' hc'
    exact decide_eq_false fun heq => h (heq ▸ hc')

theorem memchr_append {m : List UInt8} {c : UInt8} (hc : c ∉ m) (l r : List UInt8) {n : ℕ} (hn : m.length < n) :
    memchr (l ++ (m ++ c :: r)) l.length c n = some (l.length + m.length) := by
  obtain ⟨k, rfl⟩ := Nat.exists_eq_add_of_lt hn
  have htake : (m ++ c :: r).take (m.length + k + 1) = m ++ c :: r.take k := by
    rw [Nat.add_assoc, List.take_length_add_append, List.take_succ_cons]
  have hm : m.findIdx? (fun c' => c' = c) = none := by
    rw [List.findIdx?_eq_none_iff]
    exact fun c' hc' => decide_eq_false fun h => hc (h ▸ hc')
  rw [memchr, List.drop_left, htake, List.findIdx?_append, hm]
  simp [List.findIdx?_cons]

theorem cstr_eq {s : List UInt8} (h : 0 ∉ s) : cstr s = s :=
  List.takeWhile_eq_self_iff.mpr fun _ hc => decide_eq_true fun h0 => h (h0 ▸ hc)

/-! ## The parts -/

/-- The node is between the brackets, and a colon behind them has the service behind it. -/
theorem bracketed_eq (hb : 93 ∉ h) (r : List UInt8) :
    bracketed (91 :: (h ++ 93 :: r)) = (h, if r.head? = some 58 then some (h.length + 3) else none) := by
  have hfind : memchr (91 :: (h ++ 93 :: r)) 1 93 ((91 :: (h ++ 93 :: r)).length - 1) = some (1 + h.length) := by
    refine memchr_append hb [91] r ?_
    rw [List.length_cons, List.length_append, List.length_cons]
    omega
  have hnode : StringUtil.substr (91 :: (h ++ 93 :: r)) 1 (1 + h.length - 1) = h := by
    rw [StringUtil.substr, List.drop_one, List.tail_cons, Nat.add_sub_cancel_left, List.take_left]
  have hnext : (91 :: (h ++ 93 :: r)).getD (1 + h.length + 1) 0 = r.getD 0 0 := by
    rw [List.getD_eq_getElem?_getD, List.getD_eq_getElem?_getD, show 1 + h.length + 1 = h.length + 1 + 1 by omega,
      List.getElem?_cons_succ, List.getElem?_append_right (by omega), Nat.add_sub_cancel_left, List.getElem?_cons_succ]
  have hcolon : r.getD 0 0 = 58 ↔ r.head? = some 58 := by
    cases r with
    | nil => decide
    | cons c r => simp
  rw [bracketed, if_pos List.head?_cons, hfind]
  simp only [hnode, hnext, hcolon, show 1 + h.length + 2 = h.length + 3 by omega]

theorem bracketed_none (hh : host.head? ≠ some 91) : bracketed host = ([], none) := if_neg hh

theorem hostAndPort_none (hc : 58 ∉ host) : hostAndPort host = ([], none) := by
  rw [hostAndPort, memchr_eq_none_iff.mpr (by simpa using hc)]

/-- The first colon, and whether there is another one behind it. -/
theorem hostAndPort_eq (hc : 58 ∉ h) (p : List UInt8) : hostAndPort (h ++ 58 :: p) =
    if 58 ∈ p then ([], some h.length) else (h, some (h.length + 1)) := by
  have hfind : memchr (h ++ 58 :: p) 0 58 (h ++ 58 :: p).length = some h.length := by
    have hmem := memchr_append hc [] p (n := (h ++ 58 :: p).length)
      (by rw [List.length_append, List.length_cons]; omega)
    rwa [List.nil_append, List.length_nil, Nat.zero_add] at hmem
  have hdrop : (h ++ 58 :: p).drop (h.length + 1) = p := by
    rw [← List.drop_drop, List.drop_left, List.drop_one, List.tail_cons]
  have hlen : (h ++ 58 :: p).length - h.length - 1 = p.length := by
    rw [List.length_append, List.length_cons]
    omega
  have hnext : memchr (h ++ 58 :: p) (h.length + 1) 58 ((h ++ 58 :: p).length - h.length - 1) = none ↔ 58 ∉ p := by
    rw [memchr_eq_none_iff, hdrop, hlen, List.take_length]
  rw [hostAndPort, hfind]
  by_cases hp : 58 ∈ p
  · simp only [if_neg fun h => hnext.mp h hp, if_pos hp]
  · simp only [if_pos (hnext.mpr hp), if_neg hp, StringUtil.substr, List.drop_zero, List.take_left]

/-! ## Requests -/

theorem request_bracket (hne : h ≠ []) (hb : 93 ∉ h) (r : List UInt8) (h0 : 0 ∉ 91 :: (h ++ 93 :: r)) :
    request (91 :: (h ++ 93 :: r)) = (h, if r.head? = some 58 then some r.tail else none) := by
  have hh : 0 ∉ h := fun hm => h0 (List.mem_cons_of_mem _ (List.mem_append_left _ hm))
  have hr : 0 ∉ r := fun hm => h0 (List.mem_cons_of_mem _ (List.mem_append_right _ (List.mem_cons_of_mem _ hm)))
  have hdrop : (91 :: (h ++ 93 :: r)).drop (h.length + 3) = r.tail := by
    rw [List.drop_succ_cons, ← List.drop_drop, List.drop_left]
    cases r <;> rfl
  have htail : 0 ∉ r.tail := fun hm => hr (List.mem_of_mem_tail hm)
  rw [request, splitHost, bracketed_eq hb]
  simp only [if_neg hne, cstr_eq hh]
  split
  · rw [Option.map_some, hdrop, cstr_eq htail]
  · rfl

/-- Several colons: the service is the first of them, and all behind it. -/
theorem request_colons (hh : host.head? ≠ some 91) (h0 : 0 ∉ host) (hc : host = h ++ 58 :: p) (hn : 58 ∉ h) :
    request host = if 58 ∈ p then (host, some (58 :: p)) else (if h = [] then host else h, some p) := by
  subst hc
  have hcons : 0 ∉ 58 :: p := fun hm => h0 (List.mem_append_right _ hm)
  have hp : 0 ∉ p := fun hm => hcons (List.mem_cons_of_mem _ hm)
  have hh0 : 0 ∉ h := fun hm => h0 (List.mem_append_left _ hm)
  have hdrop : (h ++ 58 :: p).drop (h.length + 1) = p := by
    rw [← List.drop_drop, List.drop_left, List.drop_one, List.tail_cons]
  rw [request, splitHost, bracketed_none hh, hostAndPort_eq hn]
  by_cases hmem : 58 ∈ p
  · simp only [if_pos hmem, if_true, Option.map_some, List.drop_left, cstr_eq hcons, cstr_eq h0]
  · simp only [if_neg hmem, if_true, Option.map_some, hdrop, cstr_eq hp]
    split
    · rw [cstr_eq h0]
    · rw [cstr_eq hh0]

theorem request_none (hh : host.head? ≠ some 91) (h0 : 0 ∉ host) (hc : 58 ∉ host) : request host = (host, none) := by
  rw [request, splitHost, bracketed_none hh]
  simp only [if_true, hostAndPort_none hc, cstr_eq h0, Option.map_none]

/-- The addresses are put behind those that are there, of which there is one after a lookup that succeeds. -/
theorem lookup_result
    (getaddrinfo : List UInt8 → Option (List UInt8) → Hints → Except (BitVec 32) (List (Option Sockaddr)))
    (result : List (Option Address)) (host : List UInt8) (family type protocol : BitVec 32) :
    ∃ new, (Address.lookup getaddrinfo result host family type protocol).2 = result ++ new ∧
      ((Address.lookup getaddrinfo result host family type protocol).1 = true → result ++ new ≠ []) := by
  rw [Address.lookup]
  split
  · exact ⟨[], (List.append_nil _).symm, fun h => by cases h⟩
  · rename_i results _
    refine ⟨results.map Address.create, rfl, fun h hnil => ?_⟩
    rw [hnil] at h
    cases h

/-- **Lookup**: a text without NUL is split as it is to be exactly where it has a bracket in front or at most one colon.
-/
theorem lookup_splits_iff (host : List UInt8) (h0 : 0 ∉ host) :
    Splits host ↔ host.head? = some 91 ∨ host.count 58 ≤ 1 := by
  constructor
  · intro h
    by_contra hneg
    obtain ⟨hh, hcount⟩ := not_or.mp hneg
    have hwhole := h.whole hh (.inr (by omega))
    obtain ⟨l, p, hl, hn⟩ := List.eq_append_cons_of_mem (List.count_pos_iff.mp (by omega : 0 < host.count 58))
    have hp : 58 ∈ p := by
      rw [hl, List.count_append, List.count_eq_zero.mpr hn, List.count_cons_self] at hcount
      exact List.count_pos_iff.mp (by omega)
    rw [request_colons hh h0 hl hn, if_pos hp] at hwhole
    cases (Prod.mk.inj hwhole).2
  · intro h
    refine ⟨?_, ?_, ?_, ?_⟩
    · intro l p hne hb hl
      have heq : host = 91 :: (l ++ 93 :: 58 :: p) := by
        rw [hl, List.append_assoc, List.append_assoc]
        rfl
      subst heq
      rw [request_bracket hne hb _ h0]
      rfl
    · intro l hne hb hl
      have heq : host = 91 :: (l ++ [93]) := by
        rw [hl, List.append_assoc]
        rfl
      subst heq
      rw [request_bracket hne hb _ h0]
      rfl
    · intro l p hne hhead hn hp hl
      have heq : host = l ++ 58 :: p := by
        rw [hl, List.append_assoc]
        rfl
      have hh : host.head? ≠ some 91 := by
        rw [heq, List.head?_append_of_ne_nil _ hne]
        exact hhead
      rw [request_colons hh h0 heq hn, if_neg hp, if_neg hne]
    · intro hh hcount
      have hzero : host.count 58 = 0 := by
        rcases h with h | h
        · exact absurd h hh
        · omega
      exact request_none hh h0 (List.count_eq_zero.mp hzero)

/-- A name and a port. -/
theorem lookup_splits_name : Splits (bytes "www.baidu.com:80") :=
  (lookup_splits_iff (bytes "www.baidu.com:80") (by decide)).mpr (.inr (by decide))

/-- The address `::1` without brackets: the service is the same text. -/
theorem lookup_service_colons :
    request (bytes "::1") = (bytes "::1", some (bytes "::1")) ∧ ¬ Splits (bytes "::1") := by
  have hrequest : request (bytes "::1") = (bytes "::1", some (bytes "::1")) := by decide
  refine ⟨hrequest, fun h => ?_⟩
  have hwhole := h.whole (by decide) (.inr (by decide))
  rw [hrequest] at hwhole
  cases (Prod.mk.inj hwhole).2

end Megalo
