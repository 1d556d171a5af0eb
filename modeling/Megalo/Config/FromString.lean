import Mathlib.Logic.Function.Basic
import Megalo.Config.LexicalCast

/-!
# `ConfigVar::fromString` and `Config::LoadFromYaml`

- `ConfigVar` is a variable of one type, and `ConfigVarBase` one of any type, with its conversion; `setValue` and
  `fromString` give the calls of the listeners as well;
- `fromString` only catches `boost::bad_lexical_cast`, so it is total and atomic for a text exactly when the conversion
  throws nothing else, and `LoadFromYaml` comes to every registered member exactly when none of their texts does that
  (`fromString_total`).
-/

namespace Megalo

/-! ## Variables -/

/-- A call of a listener: its number, and its two arguments. -/
structure Notification (T : Type) where
  listener : ℕ
  old : T
  new : T

/-- `ConfigVar<T>`, with the numbers of its listeners. -/
structure ConfigVar (T : Type) where
  val : T
  cbs : List ℕ

namespace ConfigVar

variable {T : Type} [BEq T]

/-- `setValue`. -/
def setValue (var : ConfigVar T) (v : T) : ConfigVar T × List (Notification T) :=
  if var.val == v then (var, []) else ({ var with val := v }, var.cbs.map fun i => ⟨i, var.val, v⟩)

/-- `fromString`. -/
def fromString (yaml : YamlCpp) (conv : LexicalCast T) (var : ConfigVar T) (val : List UInt8) :
    Except ConvertError (Bool × ConfigVar T × List (Notification T)) :=
  match conv.cast yaml val with
  | .ok v => .ok (true, var.setValue v)
  | .error .badLexicalCast => .ok (false, var, [])
  | .error e => .error e

/-- No exception leaves `fromString`: it returns true and the value is the one that was converted, or it returns false
and nothing has happened. -/
def Total (yaml : YamlCpp) (conv : LexicalCast T) (var : ConfigVar T) (val : List UInt8) : Prop :=
  ∃ ok var' notes, var.fromString yaml conv val = .ok (ok, var', notes) ∧
    if ok then ∃ v, conv.cast yaml val = .ok v ∧ (var'.val = v ∨ var' = var ∧ (var.val == v) = true)
    else var' = var ∧ notes = []

end ConfigVar

/-- `ConfigVarBase`: a variable of some type. -/
structure ConfigVarBase where
  T : Type
  eq : BEq T
  conv : LexicalCast T
  var : ConfigVar T

/-- `fromString`, with what it leaves. -/
def ConfigVarBase.fromString (yaml : YamlCpp) (b : ConfigVarBase) (val : List UInt8) :
    Except ConvertError (Bool × ConfigVarBase) :=
  match @ConfigVar.fromString b.T b.eq yaml b.conv b.var val with
  | .ok (ok, var, _) => .ok (ok, { b with var })
  | .error e => .error e

/-- `ConfigVarMap`. -/
abbrev ConfigVarMap := List UInt8 → Option ConfigVarBase

/-- The loop of `LoadFromYaml`, with what `fromString` returns for each member there is a variable for. -/
def loadUpdates (yaml : YamlCpp) : List (List UInt8 × List UInt8) → ConfigVarMap →
    Except ConvertError (ConfigVarMap × List (List UInt8 × Bool))
  | [], datas => .ok (datas, [])
  | (key, text) :: updates, datas =>
    match datas key with
    | none => loadUpdates yaml updates datas
    | some var => do
      let (ok, var) ← var.fromString yaml text
      let (datas, done) ← loadUpdates yaml updates (Function.update datas key (some var))
      return (datas, (key, ok) :: done)

/-- `LoadFromYaml`. -/
def loadFromYaml (yaml : YamlCpp) (root : YamlNode) (datas : ConfigVarMap) :
    Except ConvertError (ConfigVarMap × List (List UInt8 × Bool)) :=
  loadUpdates yaml (yamlUpdates yaml root) datas

/-- `LoadFromYaml` comes to every member that there is a variable for. -/
def LoadsAll (yaml : YamlCpp) (root : YamlNode) (datas : ConfigVarMap) : Prop :=
  ∃ datas' done, loadFromYaml yaml root datas = .ok (datas', done) ∧
    done.map Prod.fst = ((yamlUpdates yaml root).map Prod.fst).filter fun key => (datas key).isSome

/-! ## What `fromString` does -/

section FromString

variable {yaml : YamlCpp} {T : Type} [BEq T]

theorem fromString_ok_iff (conv : LexicalCast T) (var : ConfigVar T) (val : List UInt8) :
    (∃ r, var.fromString yaml conv val = .ok r) ↔ ¬conv.Escapes yaml val := by
  rw [← conv.cast_escapes_iff, ConfigVar.fromString]
  cases conv.cast yaml val with
  | ok v => simp
  | error e => cases e <;> simp

theorem total_iff (conv : LexicalCast T) (var : ConfigVar T) (val : List UInt8) :
    var.Total yaml conv val ↔ ¬conv.Escapes yaml val := by
  rw [← fromString_ok_iff conv var val]
  constructor
  · rintro ⟨ok, var', notes, h, -⟩
    exact ⟨_, h⟩
  · rintro ⟨⟨ok, var', notes⟩, h⟩
    refine ⟨ok, var', notes, h, ?_⟩
    unfold ConfigVar.fromString at h
    split at h
    · rename_i v hv
      obtain ⟨rfl, hset⟩ := Prod.mk.inj (Except.ok.inj h)
      refine ⟨v, hv, ?_⟩
      unfold ConfigVar.setValue at hset
      split at hset
      · rename_i heq
        exact .inr ⟨(Prod.mk.inj hset).1.symm, heq⟩
      · rw [← (Prod.mk.inj hset).1]
        exact .inl rfl
    · obtain ⟨rfl, hsame⟩ := Prod.mk.inj (Except.ok.inj h)
      exact ⟨(Prod.mk.inj hsame).1.symm, (Prod.mk.inj hsame).2.symm⟩
    · cases h

end FromString

/-! ## What `LoadFromYaml` does -/

section Load

variable {yaml : YamlCpp}

theorem base_fromString_ok_iff (b : ConfigVarBase) (val : List UInt8) :
    (∃ r, b.fromString yaml val = .ok r) ↔ ¬b.conv.Escapes yaml val := by
  let _ := b.eq
  rw [← fromString_ok_iff b.conv b.var val, ConfigVarBase.fromString]
  cases ConfigVar.fromString yaml b.conv b.var val <;> simp

/-- A variable keeps its type and its conversion. -/
theorem base_fromString_conv {b b' : ConfigVarBase} {val : List UInt8} {ok : Bool}
    (h : b.fromString yaml val = .ok (ok, b')) (text : List UInt8) :
    b'.conv.Escapes yaml text ↔ b.conv.Escapes yaml text := by
  unfold ConfigVarBase.fromString at h
  split at h
  · obtain ⟨-, rfl⟩ := Prod.mk.inj (Except.ok.inj h)
    exact Iff.rfl
  · cases h

theorem loadUpdates_ok_iff (updates : List (List UInt8 × List UInt8)) (datas : ConfigVarMap) :
    (∃ r, loadUpdates yaml updates datas = .ok r) ↔
      ∀ u ∈ updates, ∀ b, datas u.1 = some b → ¬b.conv.Escapes yaml u.2 := by
  induction updates generalizing datas with
  | nil => simp [loadUpdates]
  | cons u updates ih =>
    obtain ⟨key, text⟩ := u
    rw [loadUpdates, List.forall_mem_cons]
    cases hkey : datas key with
    | none => simp [ih]
    | some b =>
      have hrest : ∀ ok b', b.fromString yaml text = .ok (ok, b') →
          ((∃ r, loadUpdates yaml updates (Function.update datas key (some b')) = .ok r) ↔
            ∀ u ∈ updates, ∀ b, datas u.1 = some b → ¬b.conv.Escapes yaml u.2) := by
        intro ok b' hb
        rw [ih]
        refine forall_congr' fun u => imp_congr_right fun _ => ?_
        by_cases hu : u.1 = key
        · simp [hu, hkey, base_fromString_conv hb]
        · simp [Function.update_of_ne hu]
      rw [Throw.bind_ok_iff]
      constructor
      · rintro ⟨⟨ok, b'⟩, hb, r, hr⟩
        obtain ⟨r', hr', -⟩ := Throw.bind_ok_iff.1 ⟨r, hr⟩
        refine ⟨?_, (hrest ok b' hb).1 ⟨r', hr'⟩⟩
        rintro _ ⟨⟩
        exact (base_fromString_ok_iff b text).1 ⟨_, hb⟩
      · rintro ⟨hhead, htail⟩
        obtain ⟨⟨ok, b'⟩, hb⟩ := (base_fromString_ok_iff b text).2 (hhead b rfl)
        refine ⟨(ok, b'), hb, Throw.bind_ok_iff.2 ?_⟩
        obtain ⟨r, hr⟩ := (hrest ok b' hb).2 htail
        exact ⟨r, hr, _, rfl⟩

/-- A loop that ends has come to every member that there is a variable for. -/
theorem loadUpdates_done {updates : List (List UInt8 × List UInt8)} {datas datas' : ConfigVarMap}
    {done : List (List UInt8 × Bool)} (h : loadUpdates yaml updates datas = .ok (datas', done)) :
    done.map Prod.fst = (updates.map Prod.fst).filter fun key => (datas key).isSome := by
  induction updates generalizing datas done with
  | nil =>
    cases h
    rfl
  | cons u updates ih =>
    obtain ⟨key, text⟩ := u
    rw [loadUpdates] at h
    cases hkey : datas key with
    | none =>
      rw [hkey] at h
      simp [ih h, hkey]
    | some b =>
      rw [hkey] at h
      obtain ⟨⟨ok, b'⟩, -, hrest⟩ := Throw.bind_eq_ok_iff.1 h
      obtain ⟨⟨datas', done⟩, hloop, hreturn⟩ := Throw.bind_eq_ok_iff.1 hrest
      cases hreturn
      have hsome : ∀ key', (Function.update datas key (some b') key').isSome = (datas key').isSome := by
        intro key'
        by_cases hk : key' = key
        · simp [hk, hkey]
        · rw [Function.update_of_ne hk]
      simp only [List.map_cons, ih hloop, hsome]
      rw [List.filter_cons_of_pos (by rw [hkey]; rfl)]

/-- **`fromString` is total and atomic** for a text if and only if its conversion does not come to something that it
throws another exception for, and **`LoadFromYaml` comes to every member** if and only if that is so of the texts of all
members that there is a variable for. -/
theorem fromString_total (yaml : YamlCpp) :
    (∀ {T : Type} [BEq T] (conv : LexicalCast T) (var : ConfigVar T) (val : List UInt8),
      var.Total yaml conv val ↔ ¬conv.Escapes yaml val) ∧
    ∀ (root : YamlNode) (datas : ConfigVarMap), LoadsAll yaml root datas ↔
      ∀ u ∈ yamlUpdates yaml root, ∀ b, datas u.1 = some b → ¬b.conv.Escapes yaml u.2 := by
  refine ⟨total_iff, fun root datas => ?_⟩
  rw [← loadUpdates_ok_iff]
  constructor
  · rintro ⟨datas', done, h, -⟩
    exact ⟨_, h⟩
  · rintro ⟨⟨datas', done⟩, h⟩
    exact ⟨datas', done, h, loadUpdates_done h⟩

/-! ## A logger without a name -/

/-- The text of a member of `logs` that has a level only, and its node. -/
def namelessText : List UInt8 := bytes "level: info"
def namelessNode : YamlNode := .map [(.scalar (bytes "level"), .scalar (bytes "info"))]

/-- The library, on that text and on the list of it. -/
def namelessYaml : YamlCpp where
  load v := if v = namelessText then some namelessNode else some (.sequence [namelessNode])
  emit
    | .map _ => namelessText
    | _ => bytes "- " ++ namelessText
  nullString := none
  keyIndex _ := none
  keyFirst := false

/-- The type of the variable `logs`. -/
def logsCast : LexicalCast (List LogDefine) := .set LogDefine.less (.logDefine fun _ _ => .unknowm)

theorem namelessYaml_load (v : List UInt8) : namelessYaml.load v =
    if v = namelessText then some namelessNode else some (.sequence [namelessNode]) := rfl

theorem nameless_escapes : logsCast.Escapes namelessYaml (bytes "- " ++ namelessText) := by
  intro node hload
  rw [namelessYaml_load, if_neg (by decide)] at hload
  obtain rfl := Option.some.inj hload
  refine ⟨[], some namelessNode, [], rfl, fun _ h => absurd h List.not_mem_nil, ?_⟩
  rintro ⟨n, hn, ⟨name, hname⟩, -⟩
  have htext : namelessYaml.print (some namelessNode) = namelessText := rfl
  rw [htext, namelessYaml_load, if_pos rfl] at hn
  obtain rfl := Option.some.inj hn
  have hfield : namelessYaml.field (bytes "name") (some namelessNode) = .ok none := rfl
  rw [hfield] at hname
  cases hname

/-- The variables: there is only `logs`. -/
def logsDatas : ConfigVarMap := fun key =>
  if key = bytes "logs" then some ⟨List LogDefine, inferInstance, logsCast, ⟨[], [1]⟩⟩ else none

/-- A `std::logic_error` leaves `fromString`, and so it does `LoadFromYaml` before the member behind `logs`. -/
theorem logicError_escapes :
    ¬ConfigVar.Total namelessYaml logsCast ⟨[], [1]⟩ (bytes "- " ++ namelessText) ∧
    ¬LoadsAll namelessYaml (.map [(.scalar (bytes "logs"), .sequence [namelessNode]),
      (.scalar (bytes "port"), .scalar (bytes "80"))]) logsDatas := by
  refine ⟨fun h => (total_iff _ _ _).1 h nameless_escapes, ?_⟩
  rintro ⟨datas', done, h, -⟩
  have hall := (loadUpdates_ok_iff _ _).1 ⟨_, h⟩
  have hlogs : (bytes "logs", bytes "- " ++ namelessText) ∈ yamlUpdates namelessYaml
      (.map [(.scalar (bytes "logs"), .sequence [namelessNode]), (.scalar (bytes "port"), .scalar (bytes "80"))]) :=
    List.mem_cons_self
  exact hall _ hlogs _ (if_pos rfl) nameless_escapes

end Load

end Megalo
