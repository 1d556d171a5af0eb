import Megalo.Http.Lazy

/-!
# Parameters by segments

- the segments of a text are what is between the separators, and `segmentParams` has the key and the value of each that
  has a `=`;
- `PARSE_PARAM` looks for the next `=` and does not stop at a separator, so a segment without `=` becomes a part of the
  next key. `BareLast` says that no such segment is in front of one with a `=`;
- then the two agree (`Params.eq_segmentParams`); else some key has a separator in it (`Params.exists_separator`), and
  no key of a segment has;
- `ParamSource` is the query, the body or the cookies of a request: `param_segments_iff`.
-/

namespace Megalo

/-- The key and the value of a segment, if it has a `=`. -/
def segmentParam (trim : List UInt8 → List UInt8) (seg : List UInt8) : Option (List UInt8 × List UInt8) :=
  (seg.findIdx? (· = 61)).map fun i => (trim (seg.take i), urlDecode (seg.drop (i + 1)))

/-- Those of the segments of a text. -/
def segmentParams (flag : UInt8) (trim : List UInt8 → List UInt8) (text : List UInt8) : HeaderMap :=
  (text.splitOn flag).filterMap (segmentParam trim)

/-- No segment without a `=` is in front of one that has one. -/
def BareLast (flag : UInt8) (text : List UInt8) : Prop :=
  (text.splitOn flag).Pairwise fun seg seg' => 61 ∈ seg' → 61 ∈ seg

instance (flag : UInt8) (text : List UInt8) : Decidable (BareLast flag text) := by
  unfold BareLast
  infer_instance

section

variable {flag c : UInt8} {trim : List UInt8 → List UInt8} {text seg key val : List UInt8} {es : HeaderMap}

/-! ## Segments -/

theorem segmentParam_bare (h : 61 ∉ seg) : segmentParam trim seg = none := by
  rw [segmentParam, findIdx?_of_notMem h, Option.map_none]

theorem segmentParam_eq (h : 61 ∉ key) : segmentParam trim (key ++ 61 :: val) = some (trim key, urlDecode val) := by
  have hfind : (key ++ 61 :: val).findIdx? (· = 61) = some key.length := by
    rw [List.findIdx?_append, findIdx?_of_notMem h]
    simp [List.findIdx?_cons]
  have hdrop : (key ++ 61 :: val).drop (key.length + 1) = val := by
    rw [← List.drop_drop, List.drop_left]
    rfl
  rw [segmentParam, hfind, Option.map_some, List.take_left, hdrop]

/-- Every text is one segment, or a segment in front of a separator and a shorter text. -/
theorem segments_cases (flag : UInt8) (text : List UInt8) : flag ∉ text ∧ text.splitOn flag = [text] ∨
    ∃ seg rest, text = seg ++ flag :: rest ∧ flag ∉ seg ∧ text.splitOn flag = seg :: rest.splitOn flag := by
  by_cases h : flag ∈ text
  · obtain ⟨seg, rest, rfl, hseg⟩ := List.eq_append_cons_of_mem h
    exact .inr ⟨seg, rest, rfl, hseg, List.splitOn_append_cons_self_of_not_mem hseg rest⟩
  · exact .inl ⟨h, List.splitOn_eq_singleton h⟩

/-- A segment is a part of the text, without a separator. -/
theorem mem_segments (h : seg ∈ text.splitOn flag) : flag ∉ seg ∧ seg ⊆ text := by
  induction hn : text.length using Nat.strong_induction_on generalizing text with
  | _ n ih =>
    obtain ⟨hflag, hsplit⟩ | ⟨first, rest, rfl, hfirst, hsplit⟩ := segments_cases flag text
    · rw [hsplit, List.mem_singleton] at h
      subst h
      exact ⟨hflag, List.Subset.refl seg⟩
    · rw [hsplit, List.mem_cons] at h
      rcases h with rfl | h
      · exact ⟨hfirst, List.subset_append_left _ _⟩
      · obtain ⟨hflag, hsub⟩ := ih rest.length (by rw [← hn]; simp; omega) h rfl
        exact ⟨hflag, fun d hd => List.mem_append_right _ (List.mem_cons_of_mem _ (hsub hd))⟩

/-- Every other character of the text is in some segment. -/
theorem exists_segment (hc : c ≠ flag) (h : c ∈ text) : ∃ seg ∈ text.splitOn flag, c ∈ seg := by
  induction hn : text.length using Nat.strong_induction_on generalizing text with
  | _ n ih =>
    obtain ⟨-, hsplit⟩ | ⟨first, rest, rfl, -, hsplit⟩ := segments_cases flag text
    · exact ⟨text, by rw [hsplit]; exact List.mem_cons_self, h⟩
    · rw [hsplit]
      rcases List.mem_append.1 h with h | h
      · exact ⟨first, List.mem_cons_self, h⟩
      · obtain ⟨seg, hseg, hmem⟩ := ih rest.length (by rw [← hn]; simp; omega) ((List.mem_cons.1 h).resolve_left hc) rfl
        exact ⟨seg, List.mem_cons_of_mem _ hseg, hmem⟩

theorem segmentParams_bare (h : 61 ∉ text) : segmentParams flag trim text = [] := by
  refine List.filterMap_eq_nil_iff.2 fun seg hseg => segmentParam_bare fun hmem => h ?_
  exact (mem_segments hseg).2 hmem

/-- Characters that are no separator in front of one do not come in later segments. -/
theorem segments_append (h : flag ∉ key) : (key ++ flag :: text).splitOn flag = key :: text.splitOn flag :=
  List.splitOn_append_cons_self_of_not_mem h text

/-! ## What the macro finds -/

theorem bareLast_of_bare (h : 61 ∉ text) : BareLast flag text := by
  refine List.pairwise_iff_forall_sublist.2 fun {seg seg'} hsub hmem => ?_
  have hseg' : seg' ∈ text.splitOn flag := hsub.subset (List.mem_cons_of_mem _ List.mem_cons_self)
  exact absurd ((mem_segments hseg').2 hmem) h

theorem bareLast_cons (h : flag ∉ seg) (heq : 61 ∈ seg) : BareLast flag (seg ++ flag :: text) ↔ BareLast flag text := by
  rw [BareLast, segments_append h, List.pairwise_cons]
  exact and_iff_right fun _ _ _ => heq

theorem notMem_pair (hne : flag ≠ 61) (hkey : flag ∉ key) (hval : flag ∉ val) : flag ∉ key ++ 61 :: val := by
  intro hmem
  rcases List.mem_append.1 hmem with hmem | hmem
  · exact hkey hmem
  · exact (List.mem_cons.1 hmem).elim hne hval

/-- A key with a separator begins with a segment without `=`. -/
theorem not_bareLast (hne : flag ≠ 61) (hkey : 61 ∉ key) (hflag : flag ∈ key) : ¬BareLast flag (key ++ 61 :: text) := by
  obtain ⟨seg, rest, rfl, hseg⟩ := List.eq_append_cons_of_mem hflag
  have hbare : 61 ∉ seg := fun h => hkey (List.mem_append_left _ h)
  intro h
  rw [List.append_assoc, List.cons_append, BareLast, segments_append hseg, List.pairwise_cons] at h
  have heq : 61 ∈ rest ++ 61 :: text := List.mem_append_right _ List.mem_cons_self
  obtain ⟨seg', hseg', hmem⟩ := exists_segment hne.symm heq
  exact hbare (h.1 seg' hseg' hmem)

/-- Where no segment without `=` is in front of one that has one, the macro finds the segments. -/
theorem Params.eq_segmentParams (hne : flag ≠ 61) (h : Params flag trim text es) (hbare : BareLast flag text) :
    es = segmentParams flag trim text := by
  induction h with
  | none hno => exact (segmentParams_bare hno).symm
  | @last key val hkey hval =>
    have hflag : flag ∉ key := fun hflag => not_bareLast hne hkey hflag hbare
    have hone := notMem_pair hne hflag hval
    rw [segmentParams, List.splitOn_eq_singleton hone, List.filterMap_cons_some (segmentParam_eq hkey),
      List.filterMap_nil]
  | @more key val text es hkey hval _ ih =>
    have hflag : flag ∉ key := by
      intro hflag
      rw [List.append_assoc] at hbare
      exact not_bareLast hne hkey hflag hbare
    have hone := notMem_pair hne hflag hval
    have heq : 61 ∈ key ++ 61 :: val := List.mem_append_right _ List.mem_cons_self
    rw [ih ((bareLast_cons hone heq).1 hbare), segmentParams, segmentParams, segments_append hone,
      List.filterMap_cons_some (segmentParam_eq hkey)]

/-- What a separator is to the macro. -/
structure Separator (flag : UInt8) (trim : List UInt8 → List UInt8) : Prop where
  ne : flag ≠ 61
  lower : flag < 97 ∧ toLower flag = flag
  kept : ∀ key, flag ∈ key → flag ∈ trim key
  subset : ∀ key, trim key ⊆ key

/-- Else it finds a key with a separator in it. -/
theorem Params.exists_separator (hs : Separator flag trim) (h : Params flag trim text es)
    (hbare : ¬BareLast flag text) : ∃ e ∈ es, flag ∈ e.1 := by
  induction h with
  | none hno => exact absurd (bareLast_of_bare hno) hbare
  | @last key val hkey hval =>
    refine ⟨_, List.mem_cons_self, hs.kept key ?_⟩
    by_contra hflag
    have hone := notMem_pair hs.ne hflag hval
    refine hbare ?_
    rw [BareLast, List.splitOn_eq_singleton hone]
    exact List.pairwise_singleton _ _
  | @more key val text es hkey hval _ ih =>
    by_cases hflag : flag ∈ key
    · exact ⟨_, List.mem_cons_self, hs.kept key hflag⟩
    · have hone := notMem_pair hs.ne hflag hval
      have heq : 61 ∈ key ++ 61 :: val := List.mem_append_right _ List.mem_cons_self
      obtain ⟨e, he, hmem⟩ := ih fun h => hbare ((bareLast_cons hone heq).2 h)
      exact ⟨e, List.mem_cons_of_mem _ he, hmem⟩

theorem Params.key_subset (hsub : ∀ key, trim key ⊆ key) (h : Params flag trim text es) : ∀ e ∈ es, e.1 ⊆ text := by
  induction h with
  | none => exact fun _ he => nomatch he
  | @last key val =>
    intro e he
    obtain rfl := List.mem_singleton.1 he
    exact fun d hd => List.mem_append_left _ (hsub key hd)
  | @more key val text es _ _ _ ih =>
    intro e he
    rcases List.mem_cons.1 he with rfl | he
    · exact fun d hd => List.mem_append_left _ (List.mem_append_left _ (hsub key hd))
    · exact fun d hd => List.mem_append_right _ (List.mem_cons_of_mem _ (ih e he hd))

/-- No key of a segment has a separator. -/
theorem segmentParams_key (hs : Separator flag trim) : ∀ e ∈ segmentParams flag trim text, flag ∉ e.1 := by
  intro e he hmem
  obtain ⟨seg, hseg, hparam⟩ := List.mem_filterMap.1 he
  obtain ⟨i, -, rfl⟩ := Option.map_eq_some_iff.1 hparam
  exact (mem_segments hseg).1 ((List.take_subset i seg) (hs.subset _ hmem))

/-! ## The map -/

/-- **Segments.** From a map whose keys have no separator, the macro makes the map of the segments exactly when no
segment without `=` is in front of one that has one. -/
theorem parseParam_segments_iff (hs : Separator flag trim) {m : MapType} (hm : ∀ e ∈ m.entries, flag ∉ e.1)
    (hnul : 0 ∉ text) :
    parseParam text flag trim m = m.inserts (segmentParams flag trim text) ↔ BareLast flag text := by
  obtain ⟨es, hes⟩ := params_exists flag trim text
  rw [parseParam_eq hs.ne hes]
  constructor
  · intro heq
    by_contra hbare
    obtain ⟨e, he, hmem⟩ := hes.exists_separator hs hbare
    -- the key is found in the one map, and so it is in the other one
    have hfound : (m.inserts es).find e.1 ≠ none := by
      rw [MapType.find_inserts]
      intro hnone
      exact OrdMap.find_ne_none he (Option.or_eq_none_iff.1 hnone).2
    rw [heq] at hfound
    obtain ⟨v, hv⟩ := Option.ne_none_iff_exists'.1 hfound
    obtain ⟨e', he', hfold, -⟩ := OrdMap.mem_of_find hv
    have hclean : flag ∉ e'.1 := (OrdMap.mem_inserts he').elim (hm e') (segmentParams_key hs e')
    have hkey : 0 ∉ e.1 := fun h => hnul (hes.key_subset hs.subset e he h)
    exact hclean (mem_of_foldCase_eq hfold.symm hkey hs.lower hmem)
  · intro hbare
    rw [hes.eq_segmentParams hs.ne hbare]

end

/-! ## Requests -/

theorem separator_id {flag : UInt8} (hne : flag ≠ 61) (hlower : flag < 97 ∧ toLower flag = flag) : Separator flag id :=
  ⟨hne, hlower, fun _ h => h, fun _ => List.Subset.refl _⟩

theorem mem_dropWhile {c : UInt8} {p : UInt8 → Bool} (hc : p c = false) {l : List UInt8} (h : c ∈ l) :
    c ∈ l.dropWhile p := by
  rw [← List.takeWhile_append_dropWhile (p := p) (l := l)] at h
  rcases List.mem_append.1 h with h | h
  · rw [List.mem_takeWhile_imp h] at hc
    cases hc
  · exact h

theorem separator_trim {flag : UInt8} (hne : flag ≠ 61) (hlower : flag < 97 ∧ toLower flag = flag)
    (hdelimit : isDelimit flag = false) : Separator flag trim := by
  refine ⟨hne, hlower, fun key h => ?_, fun key d h => ?_⟩
  · rw [trim, List.mem_reverse]
    exact mem_dropWhile hdelimit (List.mem_reverse.2 (mem_dropWhile hdelimit h))
  · rw [trim, List.mem_reverse] at h
    exact (List.dropWhile_sublist _).subset (List.mem_reverse.1 ((List.dropWhile_sublist _).subset h))

/-- What parameters or cookies are read from. -/
inductive ParamSource
  | query
  | body
  | cookies

namespace ParamSource

def text (r : ParamRequest) : ParamSource → List UInt8
  | query => r.query
  | body => r.body
  | cookies => r.getHeader (bytes "cookie") []

def flag : ParamSource → UInt8
  | query | body => 38
  | cookies => 59

def trim : ParamSource → List UInt8 → List UInt8
  | query | body => id
  | cookies => Megalo.trim

/-- Its bit is clear, and a body is a form. -/
def Pending (r : ParamRequest) : ParamSource → Prop
  | query => r.parseParamFlag &&& 0x1 = 0
  | body => r.parseParamFlag &&& 0x2 = 0 ∧
    strcasestr (r.getHeader (bytes "content-type") []) (bytes "application/x-www-form-urlencode") = true
  | cookies => r.parseParamFlag &&& 0x4 = 0

/-- The function that reads it. -/
def init (r : ParamRequest) : ParamSource → ParamRequest
  | query => r.initQueryParam
  | body => r.initBodyParam
  | cookies => r.initCookies

/-- The map that it is read into. -/
def map (r : ParamRequest) : ParamSource → MapType
  | query | body => r.params
  | cookies => r.cookies

/-- The map becomes that of the segments, and the loop ends: it comes to the same with any number of rounds that exceeds
the length of the text. -/
def ReadBySegments (r : ParamRequest) (src : ParamSource) : Prop :=
  src.map (src.init r) = (src.map r).inserts (segmentParams src.flag src.trim (src.text r)) ∧
    ∀ fuel, (src.text r).length < fuel →
      parseParamLoop (src.text r) src.flag src.trim fuel 0 (src.map r) = src.map (src.init r)

variable {r : ParamRequest}

theorem separator (src : ParamSource) : Separator src.flag src.trim := by
  cases src with
  | query | body => exact separator_id (by decide) (by decide)
  | cookies => exact separator_trim (by decide) (by decide) (by decide)

/-- A text that is read is read with `PARSE_PARAM`. -/
theorem map_init {src : ParamSource} (h : src.Pending r) :
    src.map (src.init r) = parseParam (src.text r) src.flag src.trim (src.map r) := by
  cases src with
  | query =>
    change r.parseParamFlag &&& 0x1 = 0 at h
    show r.initQueryParam.params = _
    rw [ParamRequest.initQueryParam, if_neg (not_not_intro h)]
    rfl
  | body =>
    show r.initBodyParam.params = _
    rw [ParamRequest.initBodyParam, if_neg (not_not_intro h.1), h.2]
    rfl
  | cookies =>
    change r.parseParamFlag &&& 0x4 = 0 at h
    have htext : r.cookieText = r.getHeader (bytes "cookie") [] := if_neg (not_not_intro h)
    show r.initCookies.cookies = _
    rw [ParamRequest.initCookies_eq, htext]
    rfl

/-- The loop ends in no more rounds than the text has characters, and one. -/
theorem loop_ends (src : ParamSource) (text : List UInt8) (m : MapType) {fuel : Nat} (h : text.length < fuel) :
    parseParamLoop text src.flag src.trim fuel 0 m = parseParam text src.flag src.trim m := by
  obtain ⟨es, hes⟩ := params_exists src.flag src.trim text
  rw [parseParam_eq src.separator.ne hes, parseParamLoop_eq src.separator.ne hes List.drop_zero h]

end ParamSource

/-- **Parameters by segments.** For a NUL-free query, form body or cookie header that is read into a map without
separators in its keys, the loop ends, and the map becomes that of the segments exactly when no segment without `=` is
in front of one that has one. -/
theorem param_segments_iff {r : ParamRequest} (src : ParamSource) (hpending : src.Pending r) (hnul : 0 ∉ src.text r)
    (hkeys : ∀ e ∈ (src.map r).entries, src.flag ∉ e.1) : src.ReadBySegments r ↔ BareLast src.flag (src.text r) := by
  rw [← parseParam_segments_iff src.separator hkeys hnul, ParamSource.ReadBySegments, src.map_init hpending]
  exact and_iff_left fun fuel h => src.loop_ends _ _ h

/-- A query with an empty segment at its end. -/
theorem param_segments_iff_ab : ParamSource.query.ReadBySegments (.ofQuery (bytes "a=1&B=%32&b=3&")) :=
  (param_segments_iff (r := .ofQuery (bytes "a=1&B=%32&b=3&")) .query rfl (by decide) (fun _ he => nomatch he)).2
    (by decide +kernel)

/-- A segment without `=` in front of one that has one is found as a part of its key. -/
theorem param_segments_joined : (ParamRequest.ofQuery (bytes "a&b=1")).initQueryParam.params.entries =
      [(bytes "a&b", bytes "1")] ∧
    ¬ ParamSource.query.ReadBySegments (.ofQuery (bytes "a&b=1")) := by
  refine ⟨by decide +kernel, fun h => ?_⟩
  have hkeys : ∀ e ∈ MapType.empty.entries, (38 : UInt8) ∉ e.1 := fun _ he => nomatch he
  have hnul : 0 ∉ bytes "a&b=1" := by decide
  exact absurd ((parseParam_segments_iff ParamSource.query.separator hkeys hnul).1 h.1) (by decide +kernel)

end Megalo
