import Megalo.Config.FromString

/-!
# Cached settings

- `Mirrored` is a variable with a listener that writes its values to a cache. The cache follows the value from the first
  change on, and before it if it was set from it (`foldl_setValue_synced`);
- `CachedSettings` is the five settings of `hook.cc` and `http_parser.cc` after static initialisation: the caches of the
  HTTP settings are set from their variables, and `s_connect_timeout` is not;
- so all caches mirror their variables just after the first update that has changed `tcp.connect.timeout`
  (`settings_mirrored`).
-/

namespace Megalo

/-! ## A variable and its cache -/

/-- A variable with one listener, and the cache that it writes. -/
structure Mirrored (T : Type) where
  var : ConfigVar T
  mirror : UInt64

namespace Mirrored

variable {T : Type} [BEq T] (toUInt64 : T → UInt64)

/-- The calls of the listener, which writes the new value. -/
def called (m : Mirrored T) (r : ConfigVar T × List (Notification T)) : Mirrored T :=
  ⟨r.1, r.2.foldl (fun _ c => toUInt64 c.new) m.mirror⟩

/-- `setValue`. -/
def setValue (m : Mirrored T) (v : T) : Mirrored T := m.called toUInt64 (m.var.setValue v)

/-- `fromString`. -/
def fromString (yaml : YamlCpp) (conv : LexicalCast T) (m : Mirrored T) (val : List UInt8) : Mirrored T :=
  match m.var.fromString yaml conv val with
  | .ok (_, r) => m.called toUInt64 r
  | .error _ => m

/-- The cache is the value. -/
def Synced (m : Mirrored T) : Prop := m.mirror = toUInt64 m.var.val

end Mirrored

section Synced

variable {T : Type} [BEq T] [LawfulBEq T] {toUInt64 : T → UInt64} {m : Mirrored T} {v : T} {key : ℕ}

theorem setValue_same (h : m.var.val = v) : m.setValue toUInt64 v = m := by
  rw [Mirrored.setValue, ConfigVar.setValue, if_pos (beq_iff_eq.2 h)]
  rfl

/-- The listener of a changed value writes it to the cache. -/
theorem setValue_mirror (hcbs : m.var.cbs = [key]) (h : m.var.val ≠ v) :
    (m.setValue toUInt64 v).mirror = toUInt64 v := by
  rw [Mirrored.setValue, ConfigVar.setValue, if_neg (fun heq => h (beq_iff_eq.1 heq)), hcbs]
  rfl

theorem setValue_cbs : (m.setValue toUInt64 v).var.cbs = m.var.cbs := by
  by_cases h : m.var.val = v
  · rw [setValue_same h]
  · rw [Mirrored.setValue, ConfigVar.setValue, if_neg (fun heq => h (beq_iff_eq.1 heq))]
    rfl

theorem setValue_val : (m.setValue toUInt64 v).var.val = v := by
  by_cases h : m.var.val = v
  · rw [setValue_same h, h]
  · rw [Mirrored.setValue, ConfigVar.setValue, if_neg (fun heq => h (beq_iff_eq.1 heq))]
    rfl

/-- An update syncs the cache if it changes the value, and else leaves it. -/
theorem setValue_synced (hcbs : m.var.cbs = [key]) :
    (m.setValue toUInt64 v).Synced toUInt64 ↔ m.Synced toUInt64 ∨ v ≠ m.var.val := by
  by_cases h : m.var.val = v
  · rw [setValue_same h]
    exact ⟨.inl, fun hs => hs.resolve_right (not_not_intro h.symm)⟩
  · rw [Mirrored.Synced, setValue_mirror hcbs h, setValue_val]
    exact ⟨fun _ => .inr (Ne.symm h), fun _ => rfl⟩

/-- **After any updates** the cache is the value if it was so at first, or an update had another value than the first.
-/
theorem foldl_setValue_synced (hcbs : m.var.cbs = [key]) (vs : List T) :
    (vs.foldl (Mirrored.setValue toUInt64) m).Synced toUInt64 ↔ m.Synced toUInt64 ∨ ∃ v ∈ vs, v ≠ m.var.val := by
  induction vs generalizing m with
  | nil => simp
  | cons v vs ih =>
    rw [List.foldl_cons, ih (setValue_cbs.trans hcbs), setValue_synced hcbs, setValue_val]
    by_cases hv : v = m.var.val
    · simp [hv]
    · simp [hv]

/-- The value is the first one or that of an update. -/
theorem foldl_setValue_val (vs : List T) :
    (vs.foldl (Mirrored.setValue toUInt64) m).var.val = m.var.val ∨
      (vs.foldl (Mirrored.setValue toUInt64) m).var.val ∈ vs := by
  induction vs generalizing m with
  | nil => exact .inl rfl
  | cons v vs ih =>
    rcases ih (m := m.setValue toUInt64 v) with h | h
    · rw [setValue_val] at h
      exact .inr (List.mem_cons.2 (.inl h))
    · exact .inr (List.mem_cons_of_mem v h)

omit [LawfulBEq T] in
/-- A text that is converted is an update, and another one changes nothing. -/
theorem fromString_basic (yaml : YamlCpp) (conv : List UInt8 → Option T) (val : List UInt8) :
    m.fromString toUInt64 yaml (.basic conv) val = (conv val).toList.foldl (Mirrored.setValue toUInt64) m := by
  unfold Mirrored.fromString ConfigVar.fromString LexicalCast.cast
  cases conv val <;> rfl

end Synced

/-! ## The settings -/

/-- The settings of `http_parser.cc`. -/
inductive HttpSetting
  | requestBufferSize
  | requestMaxBodySize
  | responseBufferSize
  | responseMaxBodySize
  deriving DecidableEq

/-- The names of their variables. -/
def HttpSetting.name : HttpSetting → List UInt8
  | .requestBufferSize => bytes "http.request.buffer_size"
  | .requestMaxBodySize => bytes "http.request.max_body_size"
  | .responseBufferSize => bytes "http.response.buffer_size"
  | .responseMaxBodySize => bytes "http.response.max_body_size"

/-- The default values. -/
def HttpSetting.default : HttpSetting → UInt64
  | .requestBufferSize | .responseBufferSize => 4 * 1024
  | .requestMaxBodySize | .responseMaxBodySize => 64 * 1024 * 1024

/-- The setting with this name. -/
def HttpSetting.ofName (name : List UInt8) : Option HttpSetting :=
  [requestBufferSize, requestMaxBodySize, responseBufferSize, responseMaxBodySize].find? fun i => i.name = name

/-- `g_tcp_connect_timeout` with `s_connect_timeout`, and the settings of `http_parser.cc`. -/
structure CachedSettings where
  connectTimeout : Mirrored Int32
  http : HttpSetting → Mirrored UInt64

/-- `boost::lexical_cast` to `int` and to `uint64_t`. -/
structure BoostCast where
  int : List UInt8 → Option Int32
  uint64 : List UInt8 → Option UInt64

/-- A call of `setValue`, or of `LoadFromYaml`, where the other variables there are throw for some of their texts. -/
inductive SettingOp
  | setConnectTimeout (v : Int32)
  | setHttp (i : HttpSetting) (v : UInt64)
  | loadFromYaml (yaml : YamlCpp) (root : YamlNode) (throws : List UInt8 → List UInt8 → Bool)

namespace CachedSettings

/-- The constructors of `_HookIniter` and `_RequestSizeIniter`. -/
def initial : CachedSettings where
  connectTimeout := ⟨⟨5000, [1]⟩, -1⟩
  http i := ⟨⟨i.default, [1]⟩, i.default⟩

/-- What is done with the connect timeout. -/
def onConnectTimeout (s : CachedSettings) (f : Mirrored Int32 → Mirrored Int32) : CachedSettings :=
  { s with connectTimeout := f s.connectTimeout }

/-- What is done with a setting of `http_parser.cc`. -/
def onHttp (s : CachedSettings) (i : HttpSetting) (f : Mirrored UInt64 → Mirrored UInt64) : CachedSettings :=
  { s with http := Function.update s.http i (f (s.http i)) }

/-- The conversion of an `int` to `uint64_t`. -/
def intToUInt64 (v : Int32) : UInt64 := v.toInt64.toUInt64

variable (boost : BoostCast)

/-- The loop of `LoadFromYaml`. -/
def loadUpdates (yaml : YamlCpp) (throws : List UInt8 → List UInt8 → Bool) :
    List (List UInt8 × List UInt8) → CachedSettings → CachedSettings
  | [], s => s
  | (key, text) :: updates, s =>
    if key = bytes "tcp.connect.timeout" then
      loadUpdates yaml throws updates
        (s.onConnectTimeout fun m => m.fromString intToUInt64 yaml (.basic boost.int) text)
    else match HttpSetting.ofName key with
      | some i => loadUpdates yaml throws updates (s.onHttp i fun m => m.fromString id yaml (.basic boost.uint64) text)
      | none => if throws key text then s else loadUpdates yaml throws updates s

/-- What a call does. -/
def apply (s : CachedSettings) : SettingOp → CachedSettings
  | .setConnectTimeout v => s.onConnectTimeout fun m => m.setValue intToUInt64 v
  | .setHttp i v => s.onHttp i fun m => m.setValue id v
  | .loadFromYaml yaml root throws => loadUpdates boost yaml throws (yamlUpdates yaml root) s

/-- The settings after a list of calls. -/
def run (ops : List SettingOp) : CachedSettings := ops.foldl (apply boost) initial

/-- Every cache is the value of its variable. -/
def AllMirrored (s : CachedSettings) : Prop :=
  (s.connectTimeout.mirror.toNat : ℤ) = s.connectTimeout.var.val.toInt ∧
    ∀ i, (s.http i).mirror = (s.http i).var.val

/-- The values that the members of a file set `tcp.connect.timeout` to, as far as the file is loaded. -/
def loadedTimeouts (throws : List UInt8 → List UInt8 → Bool) : List (List UInt8 × List UInt8) → List Int32
  | [] => []
  | (key, text) :: updates =>
    if key = bytes "tcp.connect.timeout" then (boost.int text).toList ++ loadedTimeouts throws updates
    else if (HttpSetting.ofName key).isNone && throws key text then [] else loadedTimeouts throws updates

/-- The values that a call sets `tcp.connect.timeout` to. -/
def timeouts : SettingOp → List Int32
  | .setConnectTimeout v => [v]
  | .setHttp _ _ => []
  | .loadFromYaml yaml root throws => loadedTimeouts boost throws (yamlUpdates yaml root)

variable {boost} {s : CachedSettings}

/-! ## The connect timeout -/

theorem loadUpdates_connectTimeout (yaml : YamlCpp) (throws : List UInt8 → List UInt8 → Bool)
    (updates : List (List UInt8 × List UInt8)) : (loadUpdates boost yaml throws updates s).connectTimeout =
      (loadedTimeouts boost throws updates).foldl (Mirrored.setValue intToUInt64) s.connectTimeout := by
  induction updates generalizing s with
  | nil => rfl
  | cons u updates ih =>
    obtain ⟨key, text⟩ := u
    rw [loadUpdates, loadedTimeouts]
    by_cases hkey : key = bytes "tcp.connect.timeout"
    · rw [if_pos hkey, if_pos hkey, ih, List.foldl_append, ← fromString_basic yaml]
      rfl
    · rw [if_neg hkey, if_neg hkey]
      cases hname : HttpSetting.ofName key with
      | some i => exact ih
      | none =>
        cases hthrows : throws key text with
        | true => rfl
        | false => exact ih

/-- The calls update the connect timeout with their values. -/
theorem run_connectTimeout (ops : List SettingOp) : (ops.foldl (apply boost) s).connectTimeout =
    (ops.flatMap (timeouts boost)).foldl (Mirrored.setValue intToUInt64) s.connectTimeout := by
  induction ops generalizing s with
  | nil => rfl
  | cons op ops ih =>
    rw [List.foldl_cons, ih, List.flatMap_cons, List.foldl_append]
    cases op with
    | setConnectTimeout v => rfl
    | setHttp i v => rfl
    | loadFromYaml yaml root throws => rw [apply, loadUpdates_connectTimeout, timeouts]

theorem intToUInt64_of_nonneg {v : Int32} (h : 0 ≤ v.toInt) : ((intToUInt64 v).toNat : ℤ) = v.toInt := by
  have hle : 0 ≤ v.toInt64 := by
    rw [Int64.le_iff_toInt_le, Int32.toInt_toInt64]
    exact h
  have hclamp : (v.toInt64.toNatClampNeg : ℤ) = v.toInt := by
    rw [Int64.toNatClampNeg, Int32.toInt_toInt64]
    exact Int.toNat_of_nonneg h
  rw [intToUInt64, Int64.toNat_toUInt64_of_le hle, hclamp]

/-- A cache of a value that is not negative is that number. -/
theorem mirror_eq_iff {m : Mirrored Int32} (h : 0 ≤ m.var.val.toInt) :
    (m.mirror.toNat : ℤ) = m.var.val.toInt ↔ m.Synced intToUInt64 := by
  rw [← intToUInt64_of_nonneg h, Mirrored.Synced, Int.ofNat_inj, UInt64.toNat_inj]

/-! ## The settings of `http_parser.cc` -/

/-- The caches that were set from their variables. -/
def HttpSynced (s : CachedSettings) : Prop := ∀ i, (s.http i).var.cbs = [1] ∧ (s.http i).Synced id

theorem HttpSynced.onHttp {i : HttpSetting} (h : s.HttpSynced) (vs : List UInt64) :
    (s.onHttp i fun m => vs.foldl (Mirrored.setValue id) m).HttpSynced := by
  have hcbs : ∀ m : Mirrored UInt64, (vs.foldl (Mirrored.setValue id) m).var.cbs = m.var.cbs := by
    induction vs with
    | nil => exact fun _ => rfl
    | cons v vs ih => exact fun m => (ih _).trans setValue_cbs
  intro j
  by_cases hj : j = i
  · subst hj
    obtain ⟨hj, hsynced⟩ := h j
    show ((Function.update s.http j _) j).var.cbs = [1] ∧ ((Function.update s.http j _) j).Synced id
    rw [Function.update_self, hcbs]
    exact ⟨hj, (foldl_setValue_synced hj vs).2 (.inl hsynced)⟩
  · show ((Function.update s.http i _) j).var.cbs = [1] ∧ ((Function.update s.http i _) j).Synced id
    rw [Function.update_of_ne hj]
    exact h j

theorem HttpSynced.loadUpdates (h : s.HttpSynced) (yaml : YamlCpp) (throws : List UInt8 → List UInt8 → Bool)
    (updates : List (List UInt8 × List UInt8)) : (loadUpdates boost yaml throws updates s).HttpSynced := by
  induction updates generalizing s with
  | nil => exact h
  | cons u updates ih =>
    obtain ⟨key, text⟩ := u
    rw [CachedSettings.loadUpdates]
    split
    · exact ih h
    · split
      · simp only [fromString_basic]
        exact ih (h.onHttp _)
      · split
        · exact h
        · exact ih h

/-- Every call keeps the caches of the HTTP settings. -/
theorem HttpSynced.run (h : s.HttpSynced) (ops : List SettingOp) : (ops.foldl (apply boost) s).HttpSynced := by
  induction ops generalizing s with
  | nil => exact h
  | cons op ops ih =>
    refine ih ?_
    cases op with
    | setConnectTimeout v => exact h
    | setHttp i v => exact h.onHttp [v]
    | loadFromYaml yaml root throws => exact h.loadUpdates yaml throws _

theorem initial_httpSynced : initial.HttpSynced := fun i => by cases i <;> exact ⟨rfl, rfl⟩

end CachedSettings

open CachedSettings in
/-- **The caches mirror their variables** if and only if an update has set `tcp.connect.timeout` to something else than
its default value, as long as all values are not negative. -/
theorem settings_mirrored (boost : BoostCast) (ops : List SettingOp)
    (hnonneg : ∀ v ∈ ops.flatMap (timeouts boost), 0 ≤ v.toInt) :
    (run boost ops).AllMirrored ↔ ∃ v ∈ ops.flatMap (timeouts boost), v ≠ 5000 := by
  have hhttp : (run boost ops).HttpSynced := initial_httpSynced.run ops
  have hcbs : initial.connectTimeout.var.cbs = [1] := rfl
  have hunsynced : ¬initial.connectTimeout.Synced intToUInt64 := by
    unfold Mirrored.Synced
    decide
  have hrun : (run boost ops).connectTimeout =
      (ops.flatMap (timeouts boost)).foldl (Mirrored.setValue intToUInt64) initial.connectTimeout :=
    run_connectTimeout ops
  have hval : 0 ≤ (run boost ops).connectTimeout.var.val.toInt := by
    have hcases : (run boost ops).connectTimeout.var.val = 5000 ∨
        (run boost ops).connectTimeout.var.val ∈ ops.flatMap (timeouts boost) := by
      rw [hrun]
      exact foldl_setValue_val _
    rcases hcases with h | h
    · rw [h]
      decide
    · exact hnonneg _ h
  rw [AllMirrored, mirror_eq_iff hval, hrun, foldl_setValue_synced hcbs]
  constructor
  · rintro ⟨h, -⟩
    exact h.resolve_left hunsynced
  · exact fun h => ⟨.inr h, fun i => (hhttp i).2⟩

/-- The connect timeout is set to 3000. -/
theorem settings_mirrored_changed :
    (CachedSettings.run ⟨fun _ => none, fun _ => none⟩ [.setConnectTimeout 3000]).AllMirrored :=
  (settings_mirrored ⟨fun _ => none, fun _ => none⟩ [.setConnectTimeout 3000] fun v hv => by
    have hv : v = 3000 := List.mem_singleton.1 hv
    rw [hv]
    decide).2
    ⟨3000, List.mem_singleton_self 3000, by decide⟩

/-- After static initialisation the connect timeout is 5000, and its cache the largest number. -/
theorem connectTimeout_unset :
    let s := CachedSettings.run ⟨fun _ => none, fun _ => none⟩ []
    s.connectTimeout.var.val = 5000 ∧ s.connectTimeout.mirror = 0xffffffffffffffff ∧ ¬s.AllMirrored := by
  refine ⟨rfl, rfl, fun h => ?_⟩
  have hmirror := h.1
  revert hmirror
  decide

end Megalo
