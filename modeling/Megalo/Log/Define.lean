import Megalo.Config.Yaml

/-!
# The definitions of loggers, and their conversion

- `LogDefine` and `LogAppenderDefine` are the records of the configuration variable `logs`;
- `toNode` and `LogDefine.toText` are `LexicalCast<LogDefine, std::string>`, and `ofNode` and `LogDefine.ofText` are
  `LexicalCast<std::string, LogDefine>`. The latter makes a `LogAppenderDefine` without setting its level: `stale` is
  what the memory of the record of each appender holds there;
- what is read back is the definition with these levels (`ofText_toText`), so the conversions are a round trip for the
  levels that happen to be there only (`define_round_trip`).
-/

namespace Megalo

/-- `LogLevel::Level`. -/
inductive LogLevel
  | unknowm
  | debug
  | info
  | warn
  | error
  | fatal
  deriving DecidableEq

/-- The number of a level. -/
def LogLevel.value : LogLevel → ℕ
  | .unknowm => 0
  | .debug => 1
  | .info => 2
  | .warn => 3
  | .error => 4
  | .fatal => 5

/-- `LogLevel::ToString`. -/
def LogLevel.toString : LogLevel → List UInt8
  | .debug => bytes "DEBUG"
  | .info => bytes "INFO"
  | .warn => bytes "WARN"
  | .error => bytes "ERROR"
  | .fatal => bytes "FATAL"
  | .unknowm => bytes "UNKNOWM"

/-- `LogLevel::FromString`. -/
def LogLevel.fromString (str : List UInt8) : LogLevel :=
  if str = bytes "debug" ∨ str = bytes "DEBUG" then .debug
  else if str = bytes "info" ∨ str = bytes "INFO" then .info
  else if str = bytes "warn" ∨ str = bytes "WARN" then .warn
  else if str = bytes "error" ∨ str = bytes "ERROR" then .error
  else if str = bytes "fatal" ∨ str = bytes "FATAL" then .fatal
  else .unknowm

/-- `LogAppenderDefine`; type 1 is a file, and type 2 the standard output. -/
structure LogAppenderDefine where
  type : ℤ
  level : LogLevel
  formatter : List UInt8
  file : List UInt8
  deriving DecidableEq

/-- `LogDefine`. -/
structure LogDefine where
  name : List UInt8
  level : LogLevel
  formatter : List UInt8
  appenders : List LogAppenderDefine
  deriving DecidableEq

/-- `operator<`, by name. -/
def LogDefine.less (d e : LogDefine) : Bool := d.name < e.name

/-! ## `LexicalCast<LogDefine, std::string>` -/

/-- `n[key] = value`, under a condition. -/
def member (p : Prop) [Decidable p] (key : String) (value : YamlNode) : List (YamlNode × YamlNode) :=
  if p then [(.scalar (bytes key), value)] else []

/-- A node that members were assigned to; without any it is null. -/
def mapNode (members : List (YamlNode × YamlNode)) : YamlNode := if members.isEmpty then .null else .map members

/-- The node of an appender. -/
def LogAppenderDefine.toNode (a : LogAppenderDefine) : YamlNode :=
  mapNode <|
    (if a.type = 1 then
      member True "type" (.scalar (bytes "FileLogAppender")) ++ member True "file" (.scalar a.file)
    else member (a.type = 2) "type" (.scalar (bytes "StdoutLogAppender"))) ++
    member (a.level ≠ .unknowm) "level" (.scalar a.level.toString) ++
    member (a.formatter ≠ []) "formatter" (.scalar a.formatter)

namespace LogDefine

/-- The node of a definition. -/
def toNode (d : LogDefine) : YamlNode :=
  mapNode <|
    member True "name" (.scalar d.name) ++
    member (d.level ≠ .unknowm) "level" (.scalar d.level.toString) ++
    member (d.formatter ≠ []) "formatter" (.scalar d.formatter) ++
    member (d.appenders ≠ []) "appenders" (.sequence (d.appenders.map LogAppenderDefine.toNode))

/-- `LexicalCast<LogDefine, std::string>`. -/
def toText (yaml : YamlCpp) (d : LogDefine) : List UInt8 := yaml.emit d.toNode

end LogDefine

/-! ## `LexicalCast<std::string, LogDefine>` -/

/-- One round of the loop over the appenders; `none` is `continue`. -/
def LogAppenderDefine.ofNode (yaml : YamlCpp) (stale : LogLevel) (a : Option YamlNode) :
    Except ConvertError (Option LogAppenderDefine) := do
  match ← yaml.field (bytes "type") a with
  | none => return none
  | some type =>
    if type = bytes "FileLogAppender" then
      match ← yaml.field (bytes "file") a with
      | none => return none
      | some file =>
        let formatter ← yaml.field (bytes "formatter") a
        return some { type := 1, level := stale, formatter := formatter.getD [], file := file }
    else if type = bytes "StdoutLogAppender" then
      let formatter ← yaml.field (bytes "formatter") a
      return some { type := 2, level := stale, formatter := formatter.getD [], file := [] }
    else return none

/-- The loop over the appenders, from index `i` on. -/
def appendersOfNodes (yaml : YamlCpp) (stale : ℕ → LogLevel) :
    ℕ → List (Option YamlNode) → Except ConvertError (List LogAppenderDefine)
  | _, [] => return []
  | i, a :: nodes => do
    let lad ← LogAppenderDefine.ofNode yaml (stale i) a
    let lads ← appendersOfNodes yaml stale (i + 1) nodes
    return lad.toList ++ lads

namespace LogDefine

/-- The definition that a node stands for. -/
def ofNode (yaml : YamlCpp) (stale : ℕ → LogLevel) (n : YamlNode) : Except ConvertError LogDefine := do
  match ← YamlNode.subscript (bytes "name") (some n) with
  | none => throw .logicError
  | some name =>
    let name ← yaml.asString name
    let level ← yaml.field (bytes "level") (some n)
    let formatter ← yaml.field (bytes "formatter") (some n)
    let appenders ← match ← YamlNode.subscript (bytes "appenders") (some n) with
      | none => pure []
      | some nodes => appendersOfNodes yaml stale 0 (yaml.elements nodes)
    return {
      name := name, level := .fromString (level.getD []), formatter := formatter.getD [], appenders := appenders }

/-- `LexicalCast<std::string, LogDefine>`. -/
def ofText (yaml : YamlCpp) (stale : ℕ → LogLevel) (v : List UInt8) : Except ConvertError LogDefine :=
  match yaml.load v with
  | none => .error .yaml
  | some n => ofNode yaml stale n

end LogDefine

/-! ## The round trip -/

section

variable {yaml : YamlCpp} {members : List (YamlNode × YamlNode)}

theorem fromString_toString (level : LogLevel) : LogLevel.fromString level.toString = level := by
  cases level <;> decide

theorem subscript_mapNode (key : List UInt8) : YamlNode.subscript key (some (mapNode members)) =
    .ok ((members.find? fun e => YamlNode.isKey key e.1).map Prod.snd) := by
  cases members <;> rfl

/-- A field that is a string or not there. -/
theorem field_mapNode {key : List UInt8} {text : Option (List UInt8)}
    (h : (members.find? fun e => YamlNode.isKey key e.1).map Prod.snd = text.map YamlNode.scalar) :
    yaml.field key (some (mapNode members)) = .ok text := by
  rw [YamlCpp.field, subscript_mapNode, h]
  cases text <;> rfl

/-- The field is what was assigned to this key, if it was. -/
theorem find_member (p : Prop) [Decidable p] (key : String) (value : YamlNode) (key' : List UInt8) :
    ((member p key value).find? fun e => YamlNode.isKey key' e.1) =
      if p ∧ bytes key = key' then some (.scalar (bytes key), value) else none := by
  unfold member
  by_cases hp : p
  · by_cases hk : bytes key = key' <;> simp [hp, hk, YamlNode.isKey]
  · simp [hp]

/-- A text that is left out when it is empty. -/
theorem getD_text (text : List UInt8) : (if text = [] then none else some text).getD [] = text := by
  split
  · rename_i h
    rw [h]
    rfl
  · rfl

/-- A level that is left out when it is not known. -/
theorem fromString_getD (level : LogLevel) :
    LogLevel.fromString ((if level = .unknowm then none else some level.toString).getD []) = level := by
  split
  · rename_i h
    rw [h]
    decide
  · exact fromString_toString level

/-- An appender as it is read back. -/
def LogAppenderDefine.reread (a : LogAppenderDefine) (stale : LogLevel) : LogAppenderDefine :=
  { a with level := stale, file := if a.type = 1 then a.file else [] }

theorem appender_ofNode {a : LogAppenderDefine} (h : a.type = 1 ∨ a.type = 2) (stale : LogLevel) :
    LogAppenderDefine.ofNode yaml stale (some a.toNode) = .ok (some (a.reread stale)) := by
  have hformatter : yaml.field (bytes "formatter") (some a.toNode) =
      .ok (if a.formatter = [] then none else some a.formatter) := by
    apply field_mapNode
    by_cases h1 : a.type = 1 <;> by_cases hf : a.formatter = [] <;>
      simp +decide [h1, hf, List.find?_append, find_member]
  rcases h with h1 | h2
  · have htype : yaml.field (bytes "type") (some a.toNode) = .ok (some (bytes "FileLogAppender")) := by
      apply field_mapNode
      simp +decide [h1, List.find?_append, find_member]
    have hfile : yaml.field (bytes "file") (some a.toNode) = .ok (some a.file) := by
      apply field_mapNode
      simp +decide [h1, List.find?_append, find_member]
    simp only [LogAppenderDefine.ofNode, htype, hfile, hformatter, bind, Except.bind, if_true]
    rw [getD_text, LogAppenderDefine.reread, if_pos h1, ← h1]
    rfl
  · have hne : bytes "StdoutLogAppender" ≠ bytes "FileLogAppender" := by decide
    have htype : yaml.field (bytes "type") (some a.toNode) = .ok (some (bytes "StdoutLogAppender")) := by
      apply field_mapNode
      simp +decide [h2, List.find?_append, find_member]
    simp only [LogAppenderDefine.ofNode, htype, hformatter, bind, Except.bind, hne, if_false, if_true]
    rw [getD_text, LogAppenderDefine.reread, if_neg (by rw [h2]; decide), ← h2]
    rfl

theorem appendersOfNodes_toNode {l : List LogAppenderDefine} (h : ∀ a ∈ l, a.type = 1 ∨ a.type = 2)
    (stale : ℕ → LogLevel) (i : ℕ) : appendersOfNodes yaml stale i (l.map fun a => some a.toNode) =
      .ok ((l.zipIdx i).map fun e => e.1.reread (stale e.2)) := by
  induction l generalizing i with
  | nil => rfl
  | cons a l ih =>
    obtain ⟨ha, hl⟩ := List.forall_mem_cons.1 h
    rw [List.map_cons, appendersOfNodes, appender_ofNode ha]
    simp only [bind, Except.bind, ih hl]
    rfl

/-- What is read back is the definition with the levels of its appenders as they happen to be. -/
theorem ofText_toText {d : LogDefine} (hyaml : yaml.load (yaml.emit d.toNode) = some d.toNode)
    (h : ∀ a ∈ d.appenders, a.type = 1 ∨ a.type = 2) (stale : ℕ → LogLevel) :
    LogDefine.ofText yaml stale (d.toText yaml) =
      .ok { d with appenders := d.appenders.zipIdx.map fun e => e.1.reread (stale e.2) } := by
  have hname : YamlNode.subscript (bytes "name") (some d.toNode) = .ok (some (.scalar d.name)) := by
    rw [LogDefine.toNode, subscript_mapNode]
    simp +decide [List.find?_append, find_member]
  have hlevel : yaml.field (bytes "level") (some d.toNode) =
      .ok (if d.level = .unknowm then none else some d.level.toString) := by
    apply field_mapNode
    by_cases hu : d.level = .unknowm <;> simp +decide [hu, List.find?_append, find_member]
  have hformatter : yaml.field (bytes "formatter") (some d.toNode) =
      .ok (if d.formatter = [] then none else some d.formatter) := by
    apply field_mapNode
    by_cases hf : d.formatter = [] <;> simp +decide [hf, List.find?_append, find_member]
  have happenders : YamlNode.subscript (bytes "appenders") (some d.toNode) = .ok (if d.appenders = [] then none
      else some (.sequence (d.appenders.map LogAppenderDefine.toNode))) := by
    rw [LogDefine.toNode, subscript_mapNode]
    by_cases hap : d.appenders = [] <;> simp +decide [hap, List.find?_append, find_member]
  have hloop : appendersOfNodes yaml stale 0 (d.appenders.map fun a => some a.toNode) = _ :=
    appendersOfNodes_toNode h stale 0
  rw [LogDefine.toText, LogDefine.ofText, hyaml]
  simp only [LogDefine.ofNode, hname, hlevel, hformatter, happenders, bind, Except.bind, getD_text, fromString_getD]
  by_cases hap : d.appenders = []
  · rw [hap]
    rfl
  · have helements : yaml.elements (.sequence (d.appenders.map LogAppenderDefine.toNode)) =
        d.appenders.map fun a => some a.toNode := by
      rw [YamlCpp.elements, List.map_map]
      rfl
    simp only [hap, if_false, helements, hloop]
    rfl

theorem reread_eq {a : LogAppenderDefine} {stale : LogLevel} (h : a.type = 1 ∨ a.type = 2) :
    a.reread stale = a ↔ a.level = stale ∧ (a.type = 2 → a.file = []) := by
  obtain ⟨type, level, formatter, file⟩ := a
  rcases h with h1 | h2
  · obtain rfl : type = 1 := h1
    simp [LogAppenderDefine.reread, eq_comm]
  · obtain rfl : type = 2 := h2
    simp [LogAppenderDefine.reread, eq_comm]

end

/-- **The conversions are a round trip** for a definition if and only if the level of each appender is what the memory
of its record holds, and an appender of type 2 has no file. -/
theorem define_round_trip (yaml : YamlCpp) (stale : ℕ → LogLevel) (d : LogDefine)
    (hyaml : yaml.load (yaml.emit d.toNode) = some d.toNode) (htype : ∀ a ∈ d.appenders, a.type = 1 ∨ a.type = 2) :
    LogDefine.ofText yaml stale (d.toText yaml) = .ok d ↔
      ∀ i a, d.appenders[i]? = some a → a.level = stale i ∧ (a.type = 2 → a.file = []) := by
  rw [ofText_toText hyaml htype, Except.ok.injEq]
  constructor
  · intro h i a ha
    have hlist := congrArg (fun d => d.appenders[i]?) h
    simp only [List.getElem?_map, List.getElem?_zipIdx, ha, Option.map_some, Nat.zero_add] at hlist
    exact (reread_eq (htype a (List.mem_of_getElem? ha))).1 (Option.some.inj hlist)
  · intro h
    obtain ⟨name, level, formatter, appenders⟩ := d
    rw [LogDefine.mk.injEq]
    refine ⟨rfl, rfl, rfl, List.ext_getElem? fun i => ?_⟩
    rw [List.getElem?_map, List.getElem?_zipIdx]
    cases ha : appenders[i]? with
    | none => rfl
    | some a =>
      rw [Option.map_some, Option.map_some, Nat.zero_add, Option.some.injEq]
      exact (reread_eq (htype a (List.mem_of_getElem? ha))).2 (h i a ha)

/-- A logger `system` with one appender, to the standard output. -/
def systemDefine (level : LogLevel) : LogDefine :=
  { name := bytes "system", level := .info, formatter := [], appenders := [⟨2, level, [], []⟩] }

/-- The text of that logger. -/
def systemText (level : LogLevel) : List UInt8 :=
  bytes "name: system\nlevel: INFO\nappenders:\n  - type: StdoutLogAppender" ++
    if level = .unknowm then [] else bytes "\n    level: " ++ level.toString

/-- The library, on the text and the node of that logger. -/
def systemYaml (level : LogLevel) : YamlCpp where
  load v := if v = systemText level then some (systemDefine level).toNode else none
  emit _ := systemText level
  nullString := none
  keyIndex _ := none
  keyFirst := false

theorem systemYaml_load (level : LogLevel) :
    (systemYaml level).load ((systemYaml level).emit (systemDefine level).toNode) =
      some (systemDefine level).toNode := by
  show (if systemText level = systemText level then _ else _) = _
  exact if_pos rfl

/-- An appender whose memory holds its level already. -/
theorem define_round_trip_system : LogDefine.ofText (systemYaml .debug) (fun _ => .debug)
    ((systemDefine .debug).toText (systemYaml .debug)) = .ok (systemDefine .debug) :=
  (define_round_trip (systemYaml .debug) (fun _ => .debug) (systemDefine .debug) (systemYaml_load .debug)
    (by decide)).2 <| by
    intro i a ha
    obtain rfl := List.mem_singleton.1 (List.mem_of_getElem? ha)
    exact ⟨rfl, fun _ => rfl⟩

/-- The level ERROR of an appender is not read back. -/
theorem appender_level_lost :
    (systemYaml .error).load ((systemYaml .error).emit (systemDefine .error).toNode) =
        some (systemDefine .error).toNode ∧
      LogDefine.ofText (systemYaml .error) (fun _ => .unknowm) ((systemDefine .error).toText (systemYaml .error)) ≠
        .ok (systemDefine .error) := by
  refine ⟨systemYaml_load .error, fun h => ?_⟩
  rw [ofText_toText (systemYaml_load .error) (by decide), Except.ok.injEq] at h
  revert h
  decide

end Megalo
