import Mathlib.Logic.Function.Basic
import Megalo.Config.Yaml

/-!
# `Config::Lookup`

- `Config` is the map of the variables by name, and the number of variables that were made: a variable is a pointer of
  its own, and has its type. The default value is what a new variable holds, and the registry does not look at it;
- `Lookup` returns the variable of a name that has the type, and else puts a new one in its place, also when there is
  one of another type (`lookup_spec`);
- so no variable is displaced in a run of calls exactly when no two of them give one name different types
  (`never_displaced`).
-/

namespace Megalo

/-- A pointer to a `ConfigVarBase`, with the type of the variable. -/
structure ConfigVarPtr (τ : Type) where
  ptr : ℕ
  type : τ
  deriving DecidableEq

/-- The map of `Config`, and the number of variables that were made. -/
structure Config (τ : Type) where
  datas : List UInt8 → Option (ConfigVarPtr τ)
  made : ℕ

/-- A call `Lookup<T>(name, default_val)`. -/
structure LookupCall (τ : Type) where
  name : List UInt8
  type : τ
  deriving DecidableEq

namespace Config

variable {τ : Type}

/-- The map at the start of the program. -/
def empty : Config τ := ⟨fun _ => none, 0⟩

/-- The end of `Lookup`: a new variable, or `std::invalid_argument`. -/
def create (r : Config τ) (c : LookupCall τ) : Config τ × Option (ConfigVarPtr τ) :=
  if !validName c.name then (r, none)
  else (⟨Function.update r.datas c.name (some ⟨r.made, c.type⟩), r.made + 1⟩, some ⟨r.made, c.type⟩)

/-- `Lookup`; `none` is `std::invalid_argument`. -/
def lookup [DecidableEq τ] (r : Config τ) (c : LookupCall τ) : Config τ × Option (ConfigVarPtr τ) :=
  match r.datas c.name with
  | some v => if v.type = c.type then (r, some v) else r.create c
  | none => r.create c

/-- `LookupBase`. -/
def lookupBase (r : Config τ) (name : List UInt8) : Option (ConfigVarPtr τ) := r.datas name

/-- The variables that `LoadFromYaml` calls `fromString` of, with the texts. -/
def loaded (r : Config τ) (yaml : YamlCpp) (root : YamlNode) : List (ConfigVarPtr τ × List UInt8) :=
  (yamlUpdates yaml root).filterMap fun u => (r.lookupBase u.1).map fun v => (v, u.2)

variable [DecidableEq τ]

/-- What a list of calls makes of the map. -/
def run (calls : List (LookupCall τ)) : Config τ := calls.foldl (fun r c => (r.lookup c).1) empty

/-- The variable that a call returned is reached under its name after all later ones, by `LookupBase` and by
`LoadFromYaml`, and a call with another type than that of the variable of its name leaves the map. -/
structure NeverDisplaced (calls : List (LookupCall τ)) : Prop where
  kept : ∀ pre c mid post v, calls = pre ++ c :: (mid ++ post) → ((run pre).lookup c).2 = some v →
    (run (pre ++ c :: mid)).lookupBase c.name = some v ∧ ∀ yaml root text, (c.name, text) ∈ yamlUpdates yaml root →
      (v, text) ∈ (run (pre ++ c :: mid)).loaded yaml root
  unchanged : ∀ pre c post v, calls = pre ++ c :: post → (run pre).lookupBase c.name = some v → v.type ≠ c.type →
    (run (pre ++ [c])).datas = (run pre).datas

variable {r : Config τ} {c : LookupCall τ} {v : ConfigVarPtr τ} {calls : List (LookupCall τ)}

/-! ## One call -/

/-- A variable of the type is returned, and nothing else happens. -/
theorem lookup_same (h : r.datas c.name = some v) (htype : v.type = c.type) : r.lookup c = (r, some v) := by
  simp only [lookup, h, if_pos htype]

/-- Otherwise there is a new one. -/
theorem lookup_create (h : ∀ v, r.datas c.name = some v → v.type ≠ c.type) : r.lookup c = r.create c := by
  unfold lookup
  cases hv : r.datas c.name with
  | none => rfl
  | some v => exact if_neg (h v hv)

theorem lookup_cases (r : Config τ) (c : LookupCall τ) :
    (∃ v, r.datas c.name = some v ∧ v.type = c.type ∧ r.lookup c = (r, some v)) ∨ r.lookup c = r.create c := by
  by_cases h : ∃ v, r.datas c.name = some v ∧ v.type = c.type
  · obtain ⟨v, hv, htype⟩ := h
    exact .inl ⟨v, hv, htype, lookup_same hv htype⟩
  · exact .inr (lookup_create fun v hv htype => h ⟨v, hv, htype⟩)

/-- **What a call returns** is of its type, and is the variable of its name then. -/
theorem lookup_spec (h : (r.lookup c).2 = some v) : v.type = c.type ∧ (r.lookup c).1.datas c.name = some v := by
  rcases lookup_cases r c with ⟨w, hw, htype, heq⟩ | heq
  · rw [heq] at h ⊢
    obtain rfl := Option.some.inj h
    exact ⟨htype, hw⟩
  · rw [heq, create] at h ⊢
    split at h
    · cases h
    · rename_i hvalid
      obtain rfl := Option.some.inj h
      rw [if_neg hvalid]
      exact ⟨rfl, Function.update_self ..⟩

/-- A call with a valid name returns a variable. -/
theorem lookup_returns (r : Config τ) (h : validName c.name = true) : ∃ v, (r.lookup c).2 = some v := by
  rcases lookup_cases r c with ⟨v, -, -, heq⟩ | heq
  · exact ⟨v, by rw [heq]⟩
  · rw [heq, create, if_neg (by simp [h])]
    exact ⟨_, rfl⟩

/-- The other names keep their variables. -/
theorem lookup_frame {name : List UInt8} (h : name ≠ c.name) : (r.lookup c).1.datas name = r.datas name := by
  rcases lookup_cases r c with ⟨v, -, -, heq⟩ | heq
  · rw [heq]
  · rw [heq, create]
    split
    · rfl
    · exact Function.update_of_ne h _ _

/-- A variable that is registered was so before, or the call asked for it. -/
theorem lookup_registered {name : List UInt8} (h : (r.lookup c).1.datas name = some v) :
    r.datas name = some v ∨ name = c.name ∧ validName name = true ∧ c.type = v.type := by
  by_cases hname : name = c.name
  · subst hname
    rcases lookup_cases r c with ⟨w, -, -, heq⟩ | heq
    · rw [heq] at h
      exact .inl h
    · rw [heq, create] at h
      split at h
      · exact .inl h
      · rename_i hvalid
        simp only [Function.update_self] at h
        obtain rfl := Option.some.inj h
        exact .inr ⟨rfl, by simpa using hvalid, rfl⟩
  · rw [lookup_frame hname] at h
    exact .inl h

/-! ## Runs of calls -/

theorem run_append (pre calls : List (LookupCall τ)) :
    run (pre ++ calls) = calls.foldl (fun r c => (r.lookup c).1) (run pre) := List.foldl_append

/-- What is registered was asked for with its type, and has a valid name. -/
theorem run_registered {name : List UInt8} (h : (run calls).datas name = some v) :
    validName name = true ∧ ∃ c ∈ calls, c.name = name ∧ c.type = v.type := by
  induction calls using List.reverseRecOn with
  | nil => cases h
  | append_singleton calls c ih =>
    rw [run_append, List.foldl_cons, List.foldl_nil] at h
    rcases lookup_registered h with h | ⟨rfl, hvalid, htype⟩
    · obtain ⟨hvalid, c', hc', hname, htype⟩ := ih h
      exact ⟨hvalid, c', List.mem_append_left _ hc', hname, htype⟩
    · exact ⟨hvalid, c, List.mem_append_right _ (List.mem_singleton_self c), rfl, htype⟩

/-- Calls that give its name its type only keep a variable. -/
theorem foldl_keeps {name : List UInt8} (h : r.datas name = some v)
    (hcalls : ∀ c ∈ calls, c.name = name → v.type = c.type) :
    (calls.foldl (fun r c => (r.lookup c).1) r).datas name = some v := by
  induction calls generalizing r with
  | nil => exact h
  | cons c calls ih =>
    obtain ⟨hc, hrest⟩ := List.forall_mem_cons.1 hcalls
    refine ih ?_ hrest
    show (r.lookup c).1.datas name = some v
    by_cases hname : c.name = name
    · subst hname
      rw [lookup_same h (hc rfl)]
      exact h
    · rw [lookup_frame (Ne.symm hname)]
      exact h

omit [DecidableEq τ] in
/-- A variable that is reached under a name is reached by `LoadFromYaml`. -/
theorem mem_loaded {name text : List UInt8} {yaml : YamlCpp} {root : YamlNode} (h : r.lookupBase name = some v)
    (hmem : (name, text) ∈ yamlUpdates yaml root) : (v, text) ∈ r.loaded yaml root :=
  List.mem_filterMap.2 ⟨(name, text), hmem, by rw [h]; rfl⟩

/-- After two calls of a name with different types the first variable is displaced. -/
theorem NeverDisplaced.type_eq {pre mid post : List (LookupCall τ)} {c c' : LookupCall τ}
    (h : NeverDisplaced (pre ++ c :: (mid ++ c' :: post))) (hname : c.name = c'.name)
    (hvalid : validName c.name = true) : c.type = c'.type := by
  obtain ⟨v, hv⟩ := (run pre).lookup_returns hvalid
  obtain ⟨v', hv'⟩ := (run (pre ++ c :: mid)).lookup_returns (hname ▸ hvalid)
  have hkept := (h.kept pre c (mid ++ [c']) post v (by simp) hv).1
  have hlast := (lookup_spec hv').2
  have hrun : run (pre ++ c :: (mid ++ [c'])) = ((run (pre ++ c :: mid)).lookup c').1 := by
    rw [← List.cons_append, ← List.append_assoc, run_append]
    rfl
  rw [lookupBase, hrun, hname, hlast, Option.some.injEq] at hkept
  rw [← (lookup_spec hv).1, ← (lookup_spec hv').1, hkept]

/-- **No variable is displaced** in a run of calls if and only if no two of them give one valid name different types. -/
theorem never_displaced (calls : List (LookupCall τ)) : NeverDisplaced calls ↔
    ∀ c ∈ calls, ∀ c' ∈ calls, c.name = c'.name → validName c.name = true → c.type = c'.type := by
  constructor
  · intro h c hc c' hc' hname hvalid
    obtain ⟨pre, post, rfl⟩ := List.append_of_mem hc
    rcases List.mem_append.1 hc' with hc' | hc'
    · obtain ⟨pre, mid, rfl⟩ := List.append_of_mem hc'
      rw [List.append_assoc, List.cons_append] at h
      exact (h.type_eq hname.symm (hname ▸ hvalid)).symm
    · rcases List.mem_cons.1 hc' with rfl | hc'
      · rfl
      · obtain ⟨mid, post, rfl⟩ := List.append_of_mem hc'
        exact h.type_eq hname hvalid
  · intro h
    constructor
    · rintro pre c mid post v rfl hv
      obtain ⟨htype, hdatas⟩ := lookup_spec hv
      have hkept : (run (pre ++ c :: mid)).lookupBase c.name = some v := by
        rw [run_append, List.foldl_cons]
        refine foldl_keeps hdatas fun c' hc' hname => ?_
        have hrun : (run (pre ++ [c])).datas c.name = some v := by
          rw [run_append]
          exact hdatas
        rw [htype]
        exact h c (by simp) c' (by simp [hc']) hname.symm (run_registered hrun).1
      exact ⟨hkept, fun yaml root text hmem => mem_loaded hkept hmem⟩
    · rintro pre c post v rfl hv hne
      obtain ⟨hvalid, c', hc', hname, htype⟩ := run_registered hv
      have hsame := h c' (by simp [hc']) c (by simp) hname (hname ▸ hvalid)
      exact absurd (htype.symm.trans hsame) hne

/-- The name `port` with the types 0 and 1: the second variable takes the place of the first. -/
theorem displaced :
    let c : LookupCall ℕ := ⟨bytes "port", 0⟩
    let c' : LookupCall ℕ := ⟨bytes "port", 1⟩
    (empty.lookup c).2 = some ⟨0, 0⟩ ∧ (run [c, c']).lookupBase (bytes "port") = some ⟨1, 1⟩ ∧
      ¬NeverDisplaced [c, c'] := by
  have hfirst : (empty.lookup (⟨bytes "port", 0⟩ : LookupCall ℕ)).2 = some ⟨0, 0⟩ := by decide
  have hlast : (run [(⟨bytes "port", 0⟩ : LookupCall ℕ), ⟨bytes "port", 1⟩]).lookupBase (bytes "port") =
      some ⟨1, 1⟩ := by decide
  refine ⟨hfirst, hlast, fun h => ?_⟩
  have hkept := (h.kept [] _ [⟨bytes "port", 1⟩] [] _ rfl hfirst).1
  cases hlast.symm.trans hkept

end Config

end Megalo
