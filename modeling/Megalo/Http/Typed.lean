import Megalo.Http.Lazy

/-!
# The typed accessors

- `checkGetAs` and `getAs` look a key up and cast what is found; `cast` is `boost::lexical_cast<T>`, and `none` where it
  throws. All six accessors are one of the two, on the map that the accessor gives them, behind the parsers it calls;
- `Typed` says that a pair of accessors answers by the cast of a value: a pair that looks in a map does so exactly when
  what the map holds has the same cast (`typed_iff`);
- the accessors of the headers answer by `getHeader` (`header_typed`); those of the parameters and the cookies look in
  the headers too, behind the right parsers (`param_typed_iff`, `cookie_typed_iff`, `typed_accessors_iff`).
-/

namespace Megalo

section Cast

variable {T : Type*} (cast : List UInt8 → Option T)

/-- `checkGetAs` on a map, by its `find`: what it returns, and what it stores to `val`. -/
def checkGetAs (find : List UInt8 → Option (List UInt8)) (key : List UInt8) (default : T) : Bool × T :=
  match find key with
  | none => (false, default)
  | some it =>
    match cast it with
    | some val => (true, val)
    | none => (false, default)

/-- `getAs`. -/
def getAs (find : List UInt8 → Option (List UInt8)) (key : List UInt8) (default : T) : T :=
  match find key with
  | none => default
  | some it =>
    match cast it with
    | some val => val
    | none => default

variable {cast} {find : List UInt8 → Option (List UInt8)} {key : List UInt8}

theorem getAs_eq (default : T) : getAs cast find key default = ((find key).bind cast).getD default := by
  unfold getAs
  cases find key with
  | none => rfl
  | some it => cases h : cast it <;> simp [h]

/-- What is stored is what `getAs` returns. -/
theorem checkGetAs_eq (default : T) :
    checkGetAs cast find key default = (((find key).bind cast).isSome, getAs cast find key default) := by
  unfold checkGetAs getAs
  cases find key with
  | none => rfl
  | some it => cases h : cast it <;> simp [h]

variable (cast) in
/-- The two accessors of a value: `get` returns its cast, `check` whether there is one, and `get` the default if not. -/
def Typed (value : Option (List UInt8)) (get : T → T) (check : T → Bool) : Prop :=
  ∀ default, get default = (value.bind cast).getD default ∧ check default = (value.bind cast).isSome

/-- Two casts that no default tells apart. -/
theorem eq_of_getD {a b : Option T} (h : ∀ default, a.getD default = b.getD default ∧ a.isSome = b.isSome) : a = b := by
  cases a with
  | some v =>
    cases b with
    | some w => exact congrArg some (h v).1
    | none => exact absurd (h v).2 (by simp)
  | none =>
    cases b with
    | some w => exact absurd (h w).2 (by simp)
    | none => rfl

/-- A map answers by a value exactly when what it holds has the same cast. -/
theorem typed_iff {value : Option (List UInt8)} :
    Typed cast value (getAs cast find key) (fun default => (checkGetAs cast find key default).1) ↔
      (find key).bind cast = value.bind cast := by
  have hcheck : ∀ default, (checkGetAs cast find key default).1 = ((find key).bind cast).isSome := fun default =>
    congrArg Prod.fst (checkGetAs_eq default)
  constructor
  · intro h
    refine eq_of_getD fun default => ?_
    obtain ⟨hget, hfound⟩ := h default
    rw [← getAs_eq, ← hcheck default]
    exact ⟨hget, hfound⟩
  · intro h default
    refine ⟨?_, (hcheck default).trans ?_⟩
    · rw [getAs_eq, h]
    · rw [h]

end Cast

namespace ParamRequest

variable {T : Type*} (cast : List UInt8 → Option T) (r : ParamRequest) (key : List UInt8) (default : T)

/-- `checkGetHeaderAs`. -/
def checkGetHeaderAs : Bool × T := checkGetAs cast r.headers.find key default

/-- `getHeaderAs`. -/
def getHeaderAs : T := getAs cast r.headers.find key default

/-- `checkGetParamAs`, with the request that it leaves. -/
def checkGetParamAs : ParamRequest × Bool × T :=
  let r := r.initQueryParam.initBodyParam
  (r, checkGetAs cast r.headers.find key default)

/-- `getParamAs`. -/
def getParamAs : ParamRequest × T :=
  let r := r.initQueryParam.initBodyParam
  (r, getAs cast r.headers.find key default)

/-- `checkGetCookieAs`. -/
def checkGetCookieAs : ParamRequest × Bool × T :=
  let r := r.initCookies
  (r, checkGetAs cast r.headers.find key default)

/-- `getCookieAs`. -/
def getCookieAs : ParamRequest × T :=
  let r := r.initCookies
  (r, getAs cast r.headers.find key default)

/-! ## The values of the untyped accessors -/

/-- The value that `getParam` returns, if the parameter exists. -/
def paramValue : Option (List UInt8) :=
  let (r, val) := r.getParam key []
  if (r.hasParam key).isSome then some val else none

/-- The value that `getCookie` returns, if the cookie exists. -/
def cookieValue : Option (List UInt8) :=
  let (r, val) := r.getCookie key []
  if (r.hasCookie key).isSome then some val else none

/-- The typed accessors of the parameters agree with `getParam`. -/
def ParamTyped : Prop :=
  Typed cast (r.paramValue key) (fun default => (r.getParamAs cast key default).2)
    fun default => (r.checkGetParamAs cast key default).2.1

/-- The typed accessors of the cookies agree with `getCookie`. -/
def CookieTyped : Prop :=
  Typed cast (r.cookieValue key) (fun default => (r.getCookieAs cast key default).2)
    fun default => (r.checkGetCookieAs cast key default).2.1

/-- A value that is there, or none. -/
theorem ite_isSome_getD (a : Option (List UInt8)) : (if a.isSome then some (a.getD []) else none) = a := by
  cases a <;> rfl

/-- The parameter is the one that is stored, or else the one in the texts that are not parsed yet. -/
theorem paramValue_eq : r.paramValue key =
    (r.paramTable.cur (foldCase key)).or (r.paramTable.late (foldCase key)) := by
  have hload : r.initQueryParam.initBodyParam.paramTable = r.paramTable.load := paramTable_init
  have hcur := congrFun (congrArg Deferred.cur hload) (foldCase key)
  exact (ite_isSome_getD _).trans hcur

/-- The cookie is the one that is stored, or else the one in the header that is not parsed yet. -/
theorem cookieValue_eq : r.cookieValue key =
    (r.cookieTable.cur (foldCase key)).or (r.cookieTable.late (foldCase key)) := by
  have hload : r.initCookies.cookieTable = r.cookieTable.load := cookieTable_initCookies
  have hcur := congrFun (congrArg Deferred.cur hload) (foldCase key)
  exact (ite_isSome_getD _).trans hcur

/-! ## When they agree -/

variable {cast r key}

/-- The typed accessors of the headers agree with `getHeader`. -/
theorem header_typed : (∀ val, r.getHeader key val = (r.headers.find key).getD val) ∧
    Typed cast (r.headers.find key) (r.getHeaderAs cast key)
      fun default => (r.checkGetHeaderAs cast key default).1 :=
  ⟨fun _ => rfl, typed_iff.mpr rfl⟩

/-- Parsing leaves the headers. -/
theorem headers_init : r.initQueryParam.initBodyParam.headers = r.headers := by rw [initParams_eq]

theorem headers_initCookies : r.initCookies.headers = r.headers := by rw [initCookies_eq]

/-- Those of the parameters agree with `getParam` where the header of that name has the cast of the parameter. -/
theorem param_typed_iff : r.ParamTyped cast key ↔ (r.headers.find key).bind cast =
    ((r.paramTable.cur (foldCase key)).or (r.paramTable.late (foldCase key))).bind cast := by
  rw [← paramValue_eq, ← headers_init]
  exact typed_iff

/-- Those of the cookies agree with `getCookie` where the header of that name has the cast of the cookie. -/
theorem cookie_typed_iff : r.CookieTyped cast key ↔ (r.headers.find key).bind cast =
    ((r.cookieTable.cur (foldCase key)).or (r.cookieTable.late (foldCase key))).bind cast := by
  rw [← cookieValue_eq, ← headers_initCookies]
  exact typed_iff

end ParamRequest

/-- **The typed accessors agree with the untyped ones** if and only if the header with the name of the parameter or the
cookie has the cast that the parameter has, and that the cookie has. -/
theorem typed_accessors_iff {T : Type*} (cast : List UInt8 → Option T) (r : ParamRequest) (key : List UInt8) :
    (r.ParamTyped cast key ∧ r.CookieTyped cast key) ↔
      (r.headers.find key).bind cast =
          ((r.paramTable.cur (foldCase key)).or (r.paramTable.late (foldCase key))).bind cast ∧
        (r.headers.find key).bind cast =
          ((r.cookieTable.cur (foldCase key)).or (r.cookieTable.late (foldCase key))).bind cast := by
  rw [ParamRequest.param_typed_iff, ParamRequest.cookie_typed_iff]

/-- The parameter `a` of the query `a=1` is not found as a `std::string`. -/
theorem typed_param_missed :
    ¬((ParamRequest.ofQuery (bytes "a=1")).ParamTyped some (bytes "a") ∧
      (ParamRequest.ofQuery (bytes "a=1")).CookieTyped some (bytes "a")) := by
  rintro ⟨h, -⟩
  have hcheck := (h []).2
  revert hcheck
  decide +kernel

end Megalo
