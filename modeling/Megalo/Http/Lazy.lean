import Megalo.Lib.Deferred
import Megalo.Http.Params

/-!
# Parsing parameters late

- `queryText`, `bodyText` and `cookieText` are what a request has not parsed yet, and the three `init` functions parse
  just that (`initQueryParam_eq`, `initBodyParam_eq`, `initCookies_eq`);
- the parameters and the cookies are each a table that is filled late (`paramTable`, `cookieTable`): `getParam` and
  `getCookie` load it, and what sets, deletes or asks does not (`after_paramTable`, `after_cookieTable`);
- `lazy_parsing`: the calls answer as those of a request that was parsed at first if and only if each is hidden in its
  table, so `hasParam` before the first `getParam` and a deleted parameter that `getParam` then parses show the
  difference.
-/

namespace Megalo

/-! ## Maps as tables -/

/-- What is found for a key, by what it is compared by. -/
def MapType.table (m : MapType) (code : List Nat) : Option (List UInt8) := OrdMap.find foldCase m.entries code

variable {m : MapType} {str : List UInt8} {flag : UInt8} {trimmed : List UInt8 → List UInt8}

theorem MapType.table_set (key val : List UInt8) :
    (m.set key val).table = Function.update m.table (foldCase key) (some val) := by
  funext code
  rw [table, set, OrdMap.find_set]
  by_cases h : foldCase key = code
  · rw [if_pos h, h, Function.update_self]
  · rw [if_neg h, Function.update_of_ne (Ne.symm h), table]

theorem MapType.table_erase (key : List UInt8) :
    (m.erase key).table = Function.update m.table (foldCase key) none := by
  funext code
  rw [table, erase, OrdMap.find_erase]
  by_cases h : foldCase key = code
  · rw [if_pos h, h, Function.update_self]
  · rw [if_neg h, Function.update_of_ne (Ne.symm h), table]

/-- A text adds to a map what it gives an empty one. -/
theorem table_parseParam (hflag : flag ≠ 61) (code : List Nat) :
    (parseParam str flag trimmed m).table code =
      (m.table code).or ((parseParam str flag trimmed .empty).table code) := by
  obtain ⟨es, hes⟩ := params_exists flag trimmed str
  rw [parseParam_eq hflag hes, parseParam_eq hflag hes]
  exact (OrdMap.find_inserts m.sorted).trans
    (congrArg (Option.or _) ((OrdMap.find_inserts MapType.empty.sorted).trans (Option.none_or)).symm)

theorem parseParam_nil : parseParam [] flag trimmed m = m := rfl

/-! ## What is not parsed yet -/

namespace ParamRequest

variable (r : ParamRequest)

/-- The query, if it was not parsed yet. -/
def queryText : List UInt8 := if r.parseParamFlag &&& 0x1 ≠ 0 then [] else r.query

/-- The body, if it was not parsed yet and is a form. -/
def bodyText : List UInt8 :=
  if r.parseParamFlag &&& 0x2 ≠ 0 then []
  else if strcasestr (r.getHeader (bytes "content-type") []) (bytes "application/x-www-form-urlencode") then r.body
  else []

/-- The cookies, if they were not parsed yet. -/
def cookieText : List UInt8 := if r.parseParamFlag &&& 0x4 ≠ 0 then [] else r.getHeader (bytes "cookie") []

variable {r} in
theorem queryText_of_flag (h : r.parseParamFlag &&& 0x1 ≠ 0) : r.queryText = [] := if_pos h

variable {r} in
theorem bodyText_of_flag (h : r.parseParamFlag &&& 0x2 ≠ 0) : r.bodyText = [] := if_pos h

variable {r} in
theorem cookieText_of_flag (h : r.parseParamFlag &&& 0x4 ≠ 0) : r.cookieText = [] := if_pos h

/-- A flag that is set stays as it is when it is set again. -/
theorem flag_again {f b : UInt8} (h : f &&& b ≠ 0) (i : Nat) (hb : b.toBitVec = BitVec.twoPow 8 i) : f ||| b = f := by
  have hbit : f.toBitVec.getLsbD i = true := by
    by_contra hclear
    refine h (UInt8.eq_of_toBitVec_eq ?_)
    rw [UInt8.toBitVec_and, hb, BitVec.and_twoPow, if_neg hclear]
    rfl
  apply UInt8.eq_of_toBitVec_eq
  ext j hj
  rw [UInt8.toBitVec_or, hb, BitVec.getElem_or, BitVec.getElem_twoPow, Bool.or_eq_left_iff_imp]
  intro hij
  rwa [← BitVec.getLsbD_eq_getElem, of_decide_eq_true hij]

/-- A flag that is another bit is not changed. -/
theorem flag_other {f b c : UInt8} (h : b &&& c = 0) : (f ||| b) &&& c = f &&& c := by
  have hbits := congrArg UInt8.toBitVec h
  apply UInt8.eq_of_toBitVec_eq
  ext i hi
  have hbit := congrArg (fun v => v[i]) hbits
  simp only [UInt8.toBitVec_and, UInt8.toBitVec_or, BitVec.getElem_and, BitVec.getElem_or] at hbit ⊢
  rw [Bool.and_or_distrib_right, hbit, UInt8.toBitVec_zero, BitVec.getElem_zero, Bool.or_false]

theorem initQueryParam_eq : r.initQueryParam =
    { r with params := parseParam r.queryText 38 id r.params, parseParamFlag := r.parseParamFlag ||| 0x1 } := by
  unfold initQueryParam queryText
  by_cases h : r.parseParamFlag &&& 0x1 ≠ 0
  · rw [if_pos h, if_pos h, parseParam_nil, flag_again h 0 rfl]
  · rw [if_neg h, if_neg h]

theorem initBodyParam_eq : r.initBodyParam =
    { r with params := parseParam r.bodyText 38 id r.params, parseParamFlag := r.parseParamFlag ||| 0x2 } := by
  unfold initBodyParam bodyText
  by_cases h : r.parseParamFlag &&& 0x2 ≠ 0
  · rw [if_pos h, if_pos h, parseParam_nil, flag_again h 1 rfl]
  · rw [if_neg h, if_neg h]
    cases strcasestr (r.getHeader (bytes "content-type") []) (bytes "application/x-www-form-urlencode") <;> rfl

theorem initCookies_eq : r.initCookies =
    { r with cookies := parseParam r.cookieText 59 trim r.cookies, parseParamFlag := r.parseParamFlag ||| 0x4 } := by
  unfold initCookies cookieText
  by_cases h : r.parseParamFlag &&& 0x4 ≠ 0
  · rw [if_pos h, if_pos h, parseParam_nil, flag_again h 2 rfl]
  · rw [if_neg h, if_neg h]
    by_cases hcookie : r.getHeader (bytes "cookie") [] = []
    · rw [hcookie]
      rfl
    · simp only [if_neg hcookie]

theorem initParams_eq : r.initQueryParam.initBodyParam =
    { r with
      params := parseParam r.bodyText 38 id (parseParam r.queryText 38 id r.params)
      parseParamFlag := r.parseParamFlag ||| 0x1 ||| 0x2 } := by
  have hbody : r.initQueryParam.bodyText = r.bodyText := by
    rw [initQueryParam_eq]
    simp only [bodyText, flag_other (f := r.parseParamFlag) (b := 0x1) (c := 0x2) rfl]
  rw [initBodyParam_eq, hbody, initQueryParam_eq]

/-- The parameters, and what a load would add to them. -/
def paramTable : Deferred (List Nat) (List UInt8) :=
  ⟨r.params.table, (parseParam r.bodyText 38 id (parseParam r.queryText 38 id .empty)).table⟩

/-- The cookies, and what a load would add to them. -/
def cookieTable : Deferred (List Nat) (List UInt8) := ⟨r.cookies.table, (parseParam r.cookieText 59 trim .empty).table⟩

/-! ## The calls -/

/-- The calls; `hasParam` and `hasCookie` have a place for the value. -/
inductive Call
  | getParam (key default : List UInt8)
  | setParam (key val : List UInt8)
  | delParam (key : List UInt8)
  | hasParam (key : List UInt8)
  | getCookie (key default : List UInt8)
  | setCookie (key val : List UInt8)
  | delCookie (key : List UInt8)
  | hasCookie (key : List UInt8)

/-- What a call does, and what it returns. -/
def call : Call → ParamRequest × Deferred.Answer (List UInt8)
  | .getParam key default => ((r.getParam key default).1, .value (r.getParam key default).2)
  | .setParam key val => (r.setParam key val, .done)
  | .delParam key => (r.delParam key, .done)
  | .hasParam key => (r, .found (r.hasParam key))
  | .getCookie key default => ((r.getCookie key default).1, .value (r.getCookie key default).2)
  | .setCookie key val => (r.setCookie key val, .done)
  | .delCookie key => (r.delCookie key, .done)
  | .hasCookie key => (r, .found (r.hasCookie key))

/-- The operation of a call on the parameters. -/
def Call.paramOp : Call → Option (Deferred.Op (List Nat) (List UInt8))
  | .getParam key default => some (.get (foldCase key) default)
  | .setParam key val => some (.put (foldCase key) val)
  | .delParam key => some (.remove (foldCase key))
  | .hasParam key => some (.look (foldCase key))
  | _ => none

/-- The operation of a call on the cookies. -/
def Call.cookieOp : Call → Option (Deferred.Op (List Nat) (List UInt8))
  | .getCookie key default => some (.get (foldCase key) default)
  | .setCookie key val => some (.put (foldCase key) val)
  | .delCookie key => some (.remove (foldCase key))
  | .hasCookie key => some (.look (foldCase key))
  | _ => none

variable {r}

/-- Parsing the query and the body loads the parameters, and leaves the cookies. -/
theorem paramTable_init : r.initQueryParam.initBodyParam.paramTable = r.paramTable.load := by
  have hquery : r.initQueryParam.initBodyParam.queryText = [] := by
    refine queryText_of_flag ?_
    rw [initParams_eq, flag_other rfl, flag_set]
    decide
  have hbody : r.initQueryParam.initBodyParam.bodyText = [] := by
    refine bodyText_of_flag ?_
    rw [initParams_eq, flag_set]
    decide
  have hcur : ∀ code, r.initQueryParam.initBodyParam.params.table code =
      (r.params.table code).or ((parseParam r.bodyText 38 id (parseParam r.queryText 38 id .empty)).table code) := by
    intro code
    have hflag : (38 : UInt8) ≠ 61 := by decide
    rw [initParams_eq, table_parseParam hflag, table_parseParam hflag, Option.or_assoc, ← table_parseParam hflag]
  rw [paramTable, hquery, hbody, paramTable, Deferred.load, Deferred.mk.injEq]
  exact ⟨funext hcur, rfl⟩

theorem cookieTable_init : r.initQueryParam.initBodyParam.cookieTable = r.cookieTable := by
  have hcookie : (r.parseParamFlag ||| 0x1 ||| 0x2) &&& 0x4 = r.parseParamFlag &&& 0x4 := by
    rw [flag_other rfl, flag_other rfl]
  rw [initParams_eq, cookieTable, cookieTable, cookieText, cookieText, hcookie]

/-- Parsing the cookies loads them, and leaves the parameters. -/
theorem cookieTable_initCookies : r.initCookies.cookieTable = r.cookieTable.load := by
  have hcookie : r.initCookies.cookieText = [] := by
    refine cookieText_of_flag ?_
    rw [initCookies_eq, flag_set]
    decide
  have hcur : ∀ code, r.initCookies.cookies.table code =
      (r.cookies.table code).or ((parseParam r.cookieText 59 trim .empty).table code) := by
    intro code
    rw [initCookies_eq, table_parseParam (by decide)]
  rw [cookieTable, hcookie, cookieTable, Deferred.load, Deferred.mk.injEq]
  exact ⟨funext hcur, rfl⟩

theorem paramTable_initCookies : r.initCookies.paramTable = r.paramTable := by
  have hquery : (r.parseParamFlag ||| 0x4) &&& 0x1 = r.parseParamFlag &&& 0x1 := flag_other rfl
  have hbody : (r.parseParamFlag ||| 0x4) &&& 0x2 = r.parseParamFlag &&& 0x2 := flag_other rfl
  rw [initCookies_eq, paramTable, paramTable, queryText, queryText, bodyText, bodyText, hquery, hbody]

/-! ## Runs of calls -/

variable {c : Call} {op : Deferred.Op (List Nat) (List UInt8)}

/-- A call on the parameters does its operation on their table. -/
theorem call_paramOp (h : c.paramOp = some op) : (r.call c).1.paramTable = (Deferred.step r.paramTable op).1 ∧
    (r.call c).2 = (Deferred.step r.paramTable op).2 := by
  cases c with
  | getParam key default =>
    cases h
    have hload : r.initQueryParam.initBodyParam.paramTable = r.paramTable.load := paramTable_init
    refine ⟨hload, ?_⟩
    rw [Deferred.step, ← hload]
    rfl
  | setParam key val =>
    cases h
    exact ⟨congrArg (Deferred.mk · r.paramTable.late) (MapType.table_set key val), rfl⟩
  | delParam key =>
    cases h
    exact ⟨congrArg (Deferred.mk · r.paramTable.late) (MapType.table_erase key), rfl⟩
  | hasParam key =>
    cases h
    exact ⟨rfl, rfl⟩
  | getCookie | setCookie | delCookie | hasCookie => cases h

/-- The other calls leave the parameters. -/
theorem call_notParamOp (h : c.paramOp = none) : (r.call c).1.paramTable = r.paramTable := by
  cases c with
  | getParam | setParam | delParam | hasParam => cases h
  | getCookie key default => exact paramTable_initCookies
  | setCookie | delCookie | hasCookie => rfl

/-- A call on the cookies does its operation on their table. -/
theorem call_cookieOp (h : c.cookieOp = some op) : (r.call c).1.cookieTable = (Deferred.step r.cookieTable op).1 ∧
    (r.call c).2 = (Deferred.step r.cookieTable op).2 := by
  cases c with
  | getCookie key default =>
    cases h
    have hload : r.initCookies.cookieTable = r.cookieTable.load := cookieTable_initCookies
    refine ⟨hload, ?_⟩
    rw [Deferred.step, ← hload]
    rfl
  | setCookie key val =>
    cases h
    exact ⟨congrArg (Deferred.mk · r.cookieTable.late) (MapType.table_set key val), rfl⟩
  | delCookie key =>
    cases h
    exact ⟨congrArg (Deferred.mk · r.cookieTable.late) (MapType.table_erase key), rfl⟩
  | hasCookie key =>
    cases h
    exact ⟨rfl, rfl⟩
  | getParam | setParam | delParam | hasParam => cases h

/-- The other calls leave the cookies. -/
theorem call_notCookieOp (h : c.cookieOp = none) : (r.call c).1.cookieTable = r.cookieTable := by
  cases c with
  | getCookie | setCookie | delCookie | hasCookie => cases h
  | getParam key default => exact cookieTable_init
  | setParam | delParam | hasParam => rfl

theorem after_paramTable (r : ParamRequest) (calls : List Call) :
    (Machine.after call r calls).paramTable = Machine.after Deferred.step r.paramTable (calls.filterMap Call.paramOp) :=
  Machine.map_after paramTable Call.paramOp (fun _ _ _ h => (call_paramOp h).1) (fun _ _ h => call_notParamOp h) r calls

theorem after_cookieTable (r : ParamRequest) (calls : List Call) : (Machine.after call r calls).cookieTable =
    Machine.after Deferred.step r.cookieTable (calls.filterMap Call.cookieOp) :=
  Machine.map_after cookieTable Call.cookieOp (fun _ _ _ h => (call_cookieOp h).1) (fun _ _ h => call_notCookieOp h) r
    calls

theorem initParam_tables (r : ParamRequest) :
    r.initParam.paramTable = r.paramTable.load ∧ r.initParam.cookieTable = r.cookieTable.load := by
  unfold initParam
  rw [paramTable_initCookies, paramTable_init, cookieTable_initCookies, cookieTable_init]
  exact ⟨rfl, rfl⟩

/-- **Parsing late** is not observed if and only if every call is hidden: a parameter that only the texts have is not
asked for before they are parsed, and none that was deleted before that is read after it; and cookies alike. -/
theorem lazy_parsing (r : ParamRequest) (calls : List Call) :
    Machine.answers call r calls = Machine.answers call r.initParam calls ↔
      ∀ pre c post, calls = pre ++ c :: post →
        (∀ op, c.paramOp = some op → r.paramTable.Hidden (pre.filterMap Call.paramOp) op) ∧
        ∀ op, c.cookieOp = some op → r.cookieTable.Hidden (pre.filterMap Call.cookieOp) op := by
  rw [Machine.answers_eq_iff]
  refine forall_congr' fun pre => forall_congr' fun c => forall_congr' fun post => imp_congr_right fun _ => ?_
  have hparams := after_paramTable r pre
  have hparams' := after_paramTable r.initParam pre
  have hcookies := after_cookieTable r pre
  have hcookies' := after_cookieTable r.initParam pre
  rw [(initParam_tables r).1] at hparams'
  rw [(initParam_tables r).2] at hcookies'
  cases hparam : c.paramOp with
  | some op =>
    have hcookie : c.cookieOp = none := by cases c <;> first | rfl | cases hparam
    rw [(call_paramOp hparam).2, (call_paramOp hparam).2, hparams, hparams', Deferred.answer_eq_iff, hcookie]
    constructor
    · intro h
      refine ⟨fun op' hop' => ?_, fun _ hop' => absurd hop' nofun⟩
      obtain rfl := Option.some.inj hop'
      exact h
    · rintro ⟨h, -⟩
      exact h op rfl
  | none =>
    obtain ⟨op, hcookie⟩ : ∃ op, c.cookieOp = some op := by
      cases c with
      | getParam | setParam | delParam | hasParam => cases hparam
      | getCookie | setCookie | delCookie | hasCookie => exact ⟨_, rfl⟩
    rw [(call_cookieOp hcookie).2, (call_cookieOp hcookie).2, hcookies, hcookies', Deferred.answer_eq_iff, hcookie]
    constructor
    · intro h
      refine ⟨fun _ hop' => absurd hop' nofun, fun op' hop' => ?_⟩
      obtain rfl := Option.some.inj hop'
      exact h
    · rintro ⟨-, h⟩
      exact h op rfl

/-- The parameter `id` of the query `id=1` is not there before the first `getParam`, and it comes back when it was
deleted before that. -/
theorem param_late :
    let r := ParamRequest.ofQuery (bytes "id=1")
    let calls := [Call.hasParam (bytes "id"), .delParam (bytes "id"), .getParam (bytes "id") []]
    Machine.answers call r calls = [.found none, .done, .value (bytes "1")] ∧
      Machine.answers call r.initParam calls = [.found (some (bytes "1")), .done, .value []] := by
  decide +kernel

end ParamRequest

end Megalo
