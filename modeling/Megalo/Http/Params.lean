import Mathlib.Data.List.MinMax
import Megalo.Http.HeaderMap
import Megalo.Http.Server
import Megalo.Util.Url

/-!
# The parameters of a request

- `parseParam` is the loop of `PARSE_PARAM` over the positions of a text. `Params` says what it finds, by the parts of
  the text, and `parseParam_eq` that it inserts that;
- `ParamRequest` is a request with `m_params`, `m_cookies` and the flags of what was parsed already;
- `query_params`: a query that is built with `UrlEncode` gives back the keys and values it was built of exactly when
  every key consists of unreserved characters and has no `=`, as the keys are not decoded. Otherwise a key that was
  encoded is found encoded, so it would have to be a key itself, and encoding it makes it longer.
-/

namespace Megalo

/-! ## `PARSE_PARAM` -/

/-- `str.find(c, pos)`; `npos` is `none`. -/
def strFind (str : List UInt8) (c : UInt8) (pos : Nat) : Option Nat := ((str.drop pos).findIdx? (· = c)).map (pos + ·)

/-- `str.substr(pos, n)`; an `n` that reaches the end is `none`. -/
def substr (str : List UInt8) (pos : Nat) : Option Nat → List UInt8
  | some n => (str.drop pos).take n
  | none => str.drop pos

/-- The loop of `PARSE_PARAM`, from `pos` on. -/
def parseParamLoop (str : List UInt8) (flag : UInt8) (trim : List UInt8 → List UInt8) : Nat → Nat → MapType → MapType
  | 0, _, m => m
  | fuel + 1, last, m =>
    match strFind str 61 last with
    | none => m
    | some key =>
      let pos := strFind str flag key
      let m := m.insert (trim (substr str last (some (key - last))))
        (urlDecode (substr str (key + 1) (pos.map fun pos => pos - key - 1)))
      match pos with
      | none => m
      | some pos => parseParamLoop str flag trim fuel (pos + 1) m

/-- `PARSE_PARAM`. -/
def parseParam (str : List UInt8) (flag : UInt8) (trim : List UInt8 → List UInt8) (m : MapType) : MapType :=
  parseParamLoop str flag trim (str.length + 1) 0 m

/-- The keys and values of a text: a key is what is before the next `=`, and a value what is before the next `flag`. -/
inductive Params (flag : UInt8) (trim : List UInt8 → List UInt8) : List UInt8 → HeaderMap → Prop
  | none {text} : 61 ∉ text → Params flag trim text []
  | last {key val} : 61 ∉ key → flag ∉ val → Params flag trim (key ++ 61 :: val) [(trim key, urlDecode val)]
  | more {key val text es} : 61 ∉ key → flag ∉ val → Params flag trim text es →
    Params flag trim (key ++ 61 :: val ++ flag :: text) ((trim key, urlDecode val) :: es)

section Loop

variable {str pre post text : List UInt8} {flag c : UInt8} {trim : List UInt8 → List UInt8} {pos fuel : Nat}
  {m : MapType} {es : HeaderMap}

theorem findIdx?_of_notMem (h : c ∉ pre) : pre.findIdx? (· = c) = none := by
  refine List.findIdx?_eq_none_iff.2 fun d hd => decide_eq_false ?_
  rintro rfl
  exact h hd

theorem strFind_of_drop (h : str.drop pos = pre ++ c :: post) (hpre : c ∉ pre) :
    strFind str c pos = some (pos + pre.length) := by
  rw [strFind, h, List.findIdx?_append, findIdx?_of_notMem hpre]
  simp [List.findIdx?_cons]

theorem strFind_of_notMem (h : c ∉ str.drop pos) : strFind str c pos = none := by
  rw [strFind, findIdx?_of_notMem h, Option.map_none]

theorem drop_of_drop (h : str.drop pos = pre ++ c :: post) : str.drop (pos + pre.length + 1) = post := by
  rw [Nat.add_assoc, ← List.drop_drop, h, ← List.drop_drop, List.drop_left, List.drop_one, List.tail_cons]

/-- **The loop inserts what the text has.** -/
theorem parseParamLoop_eq (hflag : flag ≠ 61) (h : Params flag trim text es) (htext : str.drop pos = text)
    (hfuel : text.length < fuel) : parseParamLoop str flag trim fuel pos m = m.inserts es := by
  induction h generalizing fuel pos m with
  | none hno =>
    obtain ⟨fuel, rfl⟩ := Nat.exists_eq_add_of_lt hfuel
    rw [parseParamLoop, strFind_of_notMem (htext ▸ hno)]
    rfl
  | @last key val hkey hval =>
    obtain ⟨fuel, rfl⟩ := Nat.exists_eq_add_of_lt hfuel
    have hnext : str.drop (pos + key.length) = 61 :: val := by rw [← List.drop_drop, htext, List.drop_left]
    have hfound : strFind str flag (pos + key.length) = none := by
      refine strFind_of_notMem ?_
      rw [hnext]
      exact List.not_mem_cons_of_ne_of_not_mem hflag hval
    rw [parseParamLoop, strFind_of_drop htext hkey]
    simp only [hfound, Option.map_none, substr, drop_of_drop htext, htext, Nat.add_sub_cancel_left, List.take_left]
    rfl
  | @more key val text es hkey hval _ ih =>
    obtain ⟨fuel, rfl⟩ := Nat.exists_eq_add_of_lt hfuel
    have hcut : str.drop pos = key ++ 61 :: (val ++ flag :: text) := by
      rw [htext, List.append_assoc]
      rfl
    have hnext : str.drop (pos + key.length) = (61 :: val) ++ flag :: text := by
      rw [← List.drop_drop, hcut, List.drop_left]
      rfl
    have hfound : strFind str flag (pos + key.length) = some (pos + key.length + (61 :: val).length) :=
      strFind_of_drop hnext (List.not_mem_cons_of_ne_of_not_mem hflag hval)
    have hkeyText : substr str pos (some (pos + key.length - pos)) = key := by
      rw [substr, hcut, Nat.add_sub_cancel_left, List.take_left]
    have hvalText : substr str (pos + key.length + 1)
        (some (pos + key.length + (61 :: val).length - (pos + key.length) - 1)) = val := by
      rw [substr, drop_of_drop hcut, Nat.add_sub_cancel_left, List.length_cons, Nat.add_sub_cancel, List.take_left]
    rw [parseParamLoop, strFind_of_drop hcut hkey]
    simp only [hfound, Option.map_some, hkeyText, hvalText]
    refine ih (drop_of_drop hnext) ?_
    simp only [List.length_append, List.length_cons]
    omega

/-- Every text has its keys and values. -/
theorem params_exists (flag : UInt8) (trim : List UInt8 → List UInt8) (text : List UInt8) :
    ∃ es, Params flag trim text es := by
  induction hn : text.length using Nat.strong_induction_on generalizing text with
  | _ n ih =>
    by_cases hkey : 61 ∈ text
    · obtain ⟨key, rest, rfl, hno⟩ := List.eq_append_cons_of_mem hkey
      by_cases hval : flag ∈ rest
      · obtain ⟨val, text, rfl, hno'⟩ := List.eq_append_cons_of_mem hval
        have hlt : text.length < n := by
          rw [← hn]
          simp only [List.length_append, List.length_cons]
          omega
        obtain ⟨es, hes⟩ := ih text.length hlt text rfl
        have hmore : Params flag trim _ _ := .more hno hno' hes
        rw [List.append_assoc] at hmore
        exact ⟨_, hmore⟩
      · exact ⟨_, .last hno hval⟩
    · exact ⟨[], .none hkey⟩

theorem parseParam_eq (hflag : flag ≠ 61) (h : Params flag trim str es) : parseParam str flag trim m = m.inserts es :=
  parseParamLoop_eq hflag h List.drop_zero (Nat.lt_succ_self _)

/-- A key ends before the first `=`. -/
theorem Params.key_clean (h : Params flag id text es) : ∀ e ∈ es, 61 ∉ e.1 := by
  induction h with
  | none => exact fun _ he => nomatch he
  | last hkey =>
    intro e he
    obtain rfl := List.mem_singleton.1 he
    exact hkey
  | more hkey _ _ ih =>
    intro e he
    rcases List.mem_cons.1 he with rfl | he
    · exact hkey
    · exact ih e he

end Loop

/-! ## Requests -/

/-- `HttpRequest` with what its parameters and cookies are read into. -/
structure ParamRequest extends Request where
  parseParamFlag : UInt8
  params : MapType
  cookies : MapType

/-- `strcasestr(haystack, needle) != nullptr`. -/
def strcasestr (haystack needle : List UInt8) : Bool :=
  ((haystack.takeWhile (· ≠ 0)).map toLower).tails.any (needle.map toLower).isPrefixOf

namespace ParamRequest

variable (r : ParamRequest)

/-- `initQueryParam`. -/
def initQueryParam : ParamRequest :=
  if r.parseParamFlag &&& 0x1 ≠ 0 then r
  else { r with params := parseParam r.query 38 id r.params, parseParamFlag := r.parseParamFlag ||| 0x1 }

/-- `initBodyParam`. -/
def initBodyParam : ParamRequest :=
  if r.parseParamFlag &&& 0x2 ≠ 0 then r
  else if !strcasestr (r.getHeader (bytes "content-type") []) (bytes "application/x-www-form-urlencode") then
    { r with parseParamFlag := r.parseParamFlag ||| 0x2 }
  else { r with params := parseParam r.body 38 id r.params, parseParamFlag := r.parseParamFlag ||| 0x2 }

/-- `initCookies`. -/
def initCookies : ParamRequest :=
  if r.parseParamFlag &&& 0x4 ≠ 0 then r
  else
    let cookie := r.getHeader (bytes "cookie") []
    if cookie = [] then { r with parseParamFlag := r.parseParamFlag ||| 0x4 }
    else { r with cookies := parseParam cookie 59 trim r.cookies, parseParamFlag := r.parseParamFlag ||| 0x4 }

/-- `initParam`. -/
def initParam : ParamRequest := r.initQueryParam.initBodyParam.initCookies

/-- `getParam`. -/
def getParam (key default : List UInt8) : ParamRequest × List UInt8 :=
  let r := r.initQueryParam.initBodyParam
  (r, (r.params.find key).getD default)

/-- `getCookie`. -/
def getCookie (key default : List UInt8) : ParamRequest × List UInt8 :=
  let r := r.initCookies
  (r, (r.cookies.find key).getD default)

/-- `setParam`. -/
def setParam (key val : List UInt8) : ParamRequest := { r with params := r.params.set key val }

/-- `setCookie`. -/
def setCookie (key val : List UInt8) : ParamRequest := { r with cookies := r.cookies.set key val }

/-- `delParam`. -/
def delParam (key : List UInt8) : ParamRequest := { r with params := r.params.erase key }

/-- `delCookie`. -/
def delCookie (key : List UInt8) : ParamRequest := { r with cookies := r.cookies.erase key }

/-- `hasParam`, with what it stores to `val` when the answer is true. -/
def hasParam (key : List UInt8) : Option (List UInt8) := r.params.find key

/-- `hasCookie`, with what it stores to `val` when the answer is true. -/
def hasCookie (key : List UInt8) : Option (List UInt8) := r.cookies.find key

/-! ## What is parsed -/

theorem flag_set (f b : UInt8) : (f ||| b) &&& b = b := by
  apply UInt8.eq_of_toBitVec_eq
  ext i hi
  simp only [UInt8.toBitVec_and, UInt8.toBitVec_or, BitVec.getElem_and, BitVec.getElem_or]
  cases f.toBitVec[i] <;> cases b.toBitVec[i] <;> rfl

variable {r}

theorem initQueryParam_params {es : HeaderMap} (hflag : r.parseParamFlag &&& 0x1 = 0) (h : Params 38 id r.query es) :
    r.initQueryParam.params = r.params.inserts es := by
  rw [initQueryParam, if_neg (not_not_intro hflag)]
  exact parseParam_eq (by decide) h

/-- The query is parsed once. -/
theorem initQueryParam_idem (r : ParamRequest) : r.initQueryParam.initQueryParam = r.initQueryParam := by
  have hset : r.initQueryParam.parseParamFlag &&& 0x1 ≠ 0 := by
    unfold initQueryParam
    split
    · assumption
    · rw [flag_set]
      decide
  rw [initQueryParam, if_pos hset]

/-- The body adds keys without `=`. -/
theorem initBodyParam_params (r : ParamRequest) :
    ∃ es : HeaderMap, r.initBodyParam.params = r.params.inserts es ∧ ∀ e ∈ es, 61 ∉ e.1 := by
  have hnone : ∀ r' : ParamRequest, r'.params = r.params →
      ∃ es : HeaderMap, r'.params = r.params.inserts es ∧ ∀ e ∈ es, 61 ∉ e.1 :=
    fun r' h => ⟨[], h, fun _ he => nomatch he⟩
  unfold initBodyParam
  split
  · exact hnone _ rfl
  · split
    · exact hnone _ rfl
    · obtain ⟨es, hes⟩ := params_exists 38 id r.body
      exact ⟨es, parseParam_eq (by decide) hes, hes.key_clean⟩

end ParamRequest

/-! ## Queries that are built with `UrlEncode` -/

/-- The keys and values, encoded and joined with `&`. -/
def joinedQuery (kvs : HeaderMap) : List UInt8 :=
  (bytes "&").intercalate (kvs.map fun kv => urlEncode kv.1 ++ bytes "=" ++ urlEncode kv.2)

theorem params_joinedQuery {kvs : HeaderMap} (h : ∀ kv ∈ kvs, 61 ∉ kv.1) :
    Params 38 id (joinedQuery kvs) (kvs.map fun kv => (urlEncode kv.1, kv.2)) := by
  induction kvs with
  | nil => exact .none List.not_mem_nil
  | cons kv kvs ih =>
    have hkey : 61 ∉ urlEncode kv.1 := fun hmem => h kv List.mem_cons_self (mem_urlEncode.2.2 hmem)
    have hval : 38 ∉ urlEncode kv.2 := mem_urlEncode.1
    have hrest := ih fun kv' hkv' => h kv' (List.mem_cons_of_mem kv hkv')
    cases kvs with
    | nil =>
      have hlast : Params 38 id _ _ := .last hkey hval
      rw [urlDecode_urlEncode] at hlast
      have hquery : joinedQuery [kv] = urlEncode kv.1 ++ 61 :: urlEncode kv.2 := by
        rw [joinedQuery, List.map_singleton, List.intercalate_singleton, List.append_assoc]
        rfl
      rw [hquery]
      exact hlast
    | cons kv' kvs =>
      have hmore : Params 38 id _ _ := .more hkey hval hrest
      rw [urlDecode_urlEncode] at hmore
      have hquery : joinedQuery (kv :: kv' :: kvs) =
          urlEncode kv.1 ++ 61 :: urlEncode kv.2 ++ 38 :: joinedQuery (kv' :: kvs) := by
        rw [joinedQuery, joinedQuery, List.map_cons, List.map_cons, List.intercalate_cons_cons]
        simp [bytes]
      rw [hquery]
      exact hmore

/-! ### Keys that are not left alone -/

theorem toLower_eq {c d : UInt8} (h : toLower c = d) (hd : d < 97) : c = d := by
  unfold toLower at h
  split at h
  · rename_i hupper
    obtain ⟨hl, hu⟩ := hupper
    rw [← h, UInt8.lt_iff_toNat_lt, UInt8.toNat_add] at hd
    rw [UInt8.le_iff_toNat_le] at hl hu
    simp only [UInt8.reduceToNat] at hd hl hu
    omega
  · exact h

/-- Keys that are compared as the same have the same characters, but for letters. -/
theorem mem_of_foldCase_eq {key key' : List UInt8} {d : UInt8} (h : foldCase key = foldCase key') (hnul : 0 ∉ key)
    (hd : d < 97 ∧ toLower d = d) (hmem : d ∈ key) : d ∈ key' := by
  have hcode : d.toNat ∈ foldCase key := by
    rw [foldCase_of_noNul hnul]
    exact List.mem_map.2 ⟨d, hmem, by rw [hd.2]⟩
  rw [h] at hcode
  obtain ⟨c, hc, hcd⟩ := List.mem_map.1 hcode
  rw [← toLower_eq (UInt8.toNat_inj.1 hcd) hd.1]
  exact (List.takeWhile_prefix _).subset hc

/-- A measure of keys that encoding makes larger. -/
def keyWeight (key : List UInt8) : Nat := (key.map fun c => if toLower c = 32 then 1 else 2).sum

/-- The key has a character that `UrlEncode` does not leave as it is. -/
def Reserved (key : List UInt8) : Prop := ∃ c ∈ key, charIsUnreserved c = false

theorem keyWeight_cons (c : UInt8) (key : List UInt8) :
    keyWeight (c :: key) = (if toLower c = 32 then 1 else 2) + keyWeight key := by
  rw [keyWeight, List.map_cons, List.sum_cons, ← keyWeight]

theorem keyWeight_append (key key' : List UInt8) : keyWeight (key ++ key') = keyWeight key + keyWeight key' := by
  rw [keyWeight, List.map_append, List.sum_append, ← keyWeight, ← keyWeight]

theorem keyWeight_of_foldCase_eq {key key' : List UInt8} (h : foldCase key = foldCase key') (hnul : 0 ∉ key)
    (hnul' : 0 ∉ key') : keyWeight key = keyWeight key' := by
  have hcodes : ∀ l : List UInt8, keyWeight l =
      ((l.map fun c => (toLower c).toNat).map fun n => if n = 32 then 1 else 2).sum := by
    intro l
    rw [List.map_map, keyWeight]
    congr 2
    funext c
    have hiff : toLower c = 32 ↔ (toLower c).toNat = 32 := UInt8.toNat_inj.symm
    simp only [Function.comp_apply, hiff]
  rw [foldCase_of_noNul hnul, foldCase_of_noNul hnul'] at h
  rw [hcodes, hcodes, h]

theorem keyWeight_encodeChar (c : UInt8) :
    (if toLower c = 32 then 1 else 2) + (if charIsUnreserved c then 0 else 1) ≤ keyWeight (urlEncodeChar c) := by
  unfold urlEncodeChar
  by_cases hkept : charIsUnreserved c = true
  · rw [if_pos hkept, if_pos hkept, keyWeight_cons]
    exact Nat.le_refl _
  · rw [if_neg hkept, if_neg hkept]
    by_cases hspace : c = 32
    · rw [hspace]
      decide
    · have hpos : ∀ d : UInt8, 1 ≤ if toLower d = 32 then 1 else 2 := fun d => by split <;> decide
      have htwo : (if toLower c = 32 then 1 else 2) ≤ 2 := by split <;> decide
      have hhigh := hpos (hexdigit (c >>> 4))
      have hlow := hpos (hexdigit (c &&& 0xf))
      have hpercent : keyWeight (bytes "%") = 2 := by decide
      rw [if_neg hspace, keyWeight_append, keyWeight_cons, keyWeight_cons, hpercent]
      omega

theorem keyWeight_le_encode (key : List UInt8) : keyWeight key ≤ keyWeight (urlEncode key) := by
  induction key with
  | nil => exact Nat.le_refl _
  | cons c key ih =>
    have hc := keyWeight_encodeChar c
    rw [urlEncode, List.flatMap_cons, ← urlEncode, keyWeight_append, keyWeight_cons]
    omega

/-- Encoding makes a key with a reserved character larger, and it has one still. -/
theorem Reserved.encode {key : List UInt8} (h : Reserved key) :
    keyWeight key < keyWeight (urlEncode key) ∧ (43 ∈ urlEncode key ∨ 37 ∈ urlEncode key) := by
  obtain ⟨c, hmem, hc⟩ := h
  obtain ⟨pre, post, rfl⟩ := List.append_of_mem hmem
  have hparts : urlEncode (pre ++ c :: post) = urlEncode pre ++ (urlEncodeChar c ++ urlEncode post) := by
    rw [urlEncode, List.flatMap_append, List.flatMap_cons]
    rfl
  rw [hparts]
  constructor
  · have hpre := keyWeight_le_encode pre
    have hpost := keyWeight_le_encode post
    have hchar := keyWeight_encodeChar c
    rw [hc] at hchar
    rw [keyWeight_append, keyWeight_append, keyWeight_append, keyWeight_cons]
    simp only [Bool.false_eq_true, if_false] at hchar
    omega
  · have hin : 43 ∈ urlEncodeChar c ∨ 37 ∈ urlEncodeChar c := by
      rw [urlEncodeChar, if_neg (by simp [hc])]
      split
      · exact .inl (List.mem_singleton.2 rfl)
      · exact .inr List.mem_cons_self
    exact hin.imp (fun h => List.mem_append_right _ (List.mem_append_left _ h))
      fun h => List.mem_append_right _ (List.mem_append_left _ h)

/-- Where the encoding of every key is a key, no key has a reserved character. -/
theorem not_reserved {kvs : HeaderMap} (hnul : ∀ kv ∈ kvs, 0 ∉ kv.1)
    (h : ∀ kv ∈ kvs, ∃ kv' ∈ kvs, foldCase kv'.1 = foldCase (urlEncode kv.1)) : ∀ kv ∈ kvs, ¬Reserved kv.1 := by
  classical
  intro kv hkv hres
  -- of the keys with a reserved character take one of the largest weight
  obtain ⟨top, htop⟩ := Option.ne_none_iff_exists'.1
    (mt List.argmax_eq_none.1 (List.ne_nil_of_mem (List.mem_filter.2 ⟨hkv, decide_eq_true hres⟩)) :
      (kvs.filter fun kv => decide (Reserved kv.1)).argmax (fun kv => keyWeight kv.1) ≠ none)
  obtain ⟨hmem, hreserved⟩ := List.mem_filter.1 (List.argmax_mem htop)
  have hreserved := of_decide_eq_true hreserved
  obtain ⟨hlt, hchar⟩ := hreserved.encode
  obtain ⟨kv', hkv', hfold⟩ := h top hmem
  have hres' : Reserved kv'.1 := by
    rcases hchar with hplus | hpercent
    · exact ⟨43, mem_of_foldCase_eq hfold.symm mem_urlEncode.2.1 (by decide) hplus, by decide⟩
    · exact ⟨37, mem_of_foldCase_eq hfold.symm mem_urlEncode.2.1 (by decide) hpercent, by decide⟩
  have hle := List.le_of_mem_argmax (List.mem_filter.2 ⟨hkv', decide_eq_true hres'⟩) htop
  rw [keyWeight_of_foldCase_eq hfold (hnul kv' hkv') mem_urlEncode.2.1] at hle
  exact absurd hle (not_le.2 hlt)

/-! ### Reading the keys back -/

variable {r : ParamRequest} {kvs : HeaderMap}

/-- Where the parameters are found, no key has a `=`. -/
theorem ParamRequest.key_clean_of_found {kv : List UInt8 × List UInt8} (hempty : r.params = .empty)
    (hflag : r.parseParamFlag &&& 0x1 = 0) (hnul : 0 ∉ kv.1)
    (h : ∀ default, (r.initQueryParam.getParam kv.1 default).2 = kv.2) : 61 ∉ kv.1 := by
  intro hmem
  obtain ⟨es, hes⟩ := params_exists 38 id r.query
  obtain ⟨bs, hbody, hclean⟩ := r.initQueryParam.initBodyParam_params
  have hparams : r.initQueryParam.initQueryParam.initBodyParam.params = (MapType.empty.inserts es).inserts bs := by
    rw [initQueryParam_idem, hbody, initQueryParam_params hflag hes, hempty]
  -- a key that is found with every default is there
  have hfound : ((MapType.empty.inserts es).inserts bs).find kv.1 ≠ none := by
    intro hnone
    have hdefault : ∀ default, default = kv.2 := fun default => by
      have hget := h default
      simp only [getParam, hparams, hnone, Option.getD_none] at hget
      exact hget
    have hdiff := (hdefault []).trans (hdefault [0]).symm
    cases hdiff
  obtain ⟨v, hv⟩ := Option.ne_none_iff_exists'.1 hfound
  obtain ⟨e, he, hfold, -⟩ := OrdMap.mem_of_find hv
  have hin : e ∈ es ∨ e ∈ bs := by
    rcases OrdMap.mem_inserts he with he | he
    · exact .inl ((OrdMap.mem_inserts he).resolve_left List.not_mem_nil)
    · exact .inr he
  have heq : 61 ∈ e.1 := mem_of_foldCase_eq hfold.symm hnul (by decide) hmem
  rcases hin with hin | hin
  · exact hes.key_clean e hin heq
  · exact hclean e hin heq

/-- Where the parameters have no other entry, the encoding of every key is a key. -/
theorem encoded_mem (h : ∀ e ∈ (MapType.empty.inserts (kvs.map fun kv => (urlEncode kv.1, kv.2))).entries, e ∈ kvs) :
    ∀ kv ∈ kvs, ∃ kv' ∈ kvs, foldCase kv'.1 = foldCase (urlEncode kv.1) := by
  intro kv hkv
  have hfound : (MapType.empty.inserts (kvs.map fun kv => (urlEncode kv.1, kv.2))).find (urlEncode kv.1) ≠ none := by
    rw [MapType.find_inserts]
    intro hnone
    exact OrdMap.find_ne_none (List.mem_map_of_mem hkv) (Option.or_eq_none_iff.1 hnone).2
  obtain ⟨v, hv⟩ := Option.ne_none_iff_exists'.1 hfound
  obtain ⟨e, he, hfold, -⟩ := OrdMap.mem_of_find hv
  exact ⟨e, h e he, hfold⟩

/-- **A query that is built with `UrlEncode`** is read back if and only if its keys have only characters that
`UrlEncode` leaves as they are, and no `=`. -/
theorem query_params (r : ParamRequest) (kvs : HeaderMap) (hempty : r.params = .empty)
    (hflag : r.parseParamFlag &&& 0x1 = 0) (hquery : r.query = joinedQuery kvs)
    (hkeys : ∀ kv ∈ kvs, kv.1 ≠ [] ∧ 0 ∉ kv.1) (hdistinct : kvs.Pairwise fun kv kv' => foldCase kv.1 ≠ foldCase kv'.1) :
    ((∀ kv ∈ kvs, ∀ default, (r.initQueryParam.getParam kv.1 default).2 = kv.2) ∧
      ∀ e ∈ r.initQueryParam.params.entries, e ∈ kvs) ↔
    ∀ kv ∈ kvs, ∀ c ∈ kv.1, charIsUnreserved c = true ∧ c ≠ 61 := by
  have hnul : ∀ kv ∈ kvs, 0 ∉ kv.1 := fun kv hkv => (hkeys kv hkv).2
  constructor
  · rintro ⟨hget, hother⟩
    have hclean : ∀ kv ∈ kvs, 61 ∉ kv.1 := fun kv hkv =>
      ParamRequest.key_clean_of_found hempty hflag (hnul kv hkv) (hget kv hkv)
    have hes := params_joinedQuery hclean
    rw [← hquery] at hes
    rw [ParamRequest.initQueryParam_params hflag hes, hempty] at hother
    have hres := not_reserved hnul (encoded_mem hother)
    intro kv hkv c hc
    refine ⟨?_, fun h => hclean kv hkv (h ▸ hc)⟩
    by_contra hreserved
    exact hres kv hkv ⟨c, hc, by simpa using hreserved⟩
  · intro hchars
    have hsame : kvs.map (fun kv => (urlEncode kv.1, kv.2)) = kvs := by
      refine (List.map_congr_left fun kv hkv => ?_).trans (List.map_id kvs)
      rw [urlEncode_eq_self fun c hc => (hchars kv hkv c hc).1]
      rfl
    have hes := params_joinedQuery fun kv hkv h => (hchars kv hkv 61 h).2 rfl
    rw [← hquery, hsame] at hes
    have hparams := ParamRequest.initQueryParam_params hflag hes
    rw [hempty] at hparams
    constructor
    · intro kv hkv default
      obtain ⟨bs, hbody, -⟩ := r.initQueryParam.initBodyParam_params
      have hfound : MapType.empty.find kv.1 = none := rfl
      simp only [ParamRequest.getParam, ParamRequest.initQueryParam_idem, hbody, hparams, MapType.find_inserts, hfound,
        OrdMap.find_of_mem hdistinct hkv, Option.none_or, Option.some_or, Option.getD_some]
    · intro e he
      rw [hparams] at he
      exact (OrdMap.mem_inserts he).resolve_left List.not_mem_nil

/-- A request with a query. -/
def ParamRequest.ofQuery (query : List UInt8) : ParamRequest :=
  { version := 0x11, close := true, websocket := false, body := [], headers := [], method := .get, path := bytes "/",
    query, fragment := [], parseParamFlag := 0, params := .empty, cookies := .empty }

/-- The keys `user` and `next`. -/
theorem query_params_user :
    let kvs := [(bytes "user", bytes "a b"), (bytes "next", bytes "/?x=1&y=2")]
    let r := ParamRequest.ofQuery (joinedQuery kvs)
    (∀ kv ∈ kvs, ∀ default, (r.initQueryParam.getParam kv.1 default).2 = kv.2) ∧
      ∀ e ∈ r.initQueryParam.params.entries, e ∈ kvs :=
  (query_params (.ofQuery (joinedQuery [(bytes "user", bytes "a b"), (bytes "next", bytes "/?x=1&y=2")])) _ rfl rfl rfl
    (by decide) (by decide)).mpr (by decide +kernel)

/-- The key `a b` is stored as `a+b`, so it is not found. -/
theorem query_key_encoded :
    let kvs := [(bytes "a b", bytes "1")]
    let r := ParamRequest.ofQuery (joinedQuery kvs)
    r.query = bytes "a+b=1" ∧ r.initQueryParam.params.entries = [(bytes "a+b", bytes "1")] ∧
      ¬∀ kv ∈ kvs, (r.initQueryParam.getParam kv.1 []).2 = kv.2 := by
  decide +kernel

end Megalo
