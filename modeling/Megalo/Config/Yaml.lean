import Megalo.Util.Chars
import Mathlib.Data.List.Basic

/-!
# YAML trees

- `YamlNode` is what a document is, as the library hands it out, with the members of a map in their order;
- `YamlCpp` is what the library itself does: it loads a text and emits a node, and the few answers that depend on its
  version. `subscript`, `asString` and `elements` are the accesses the configuration makes, `none` being a node that is
  not defined, and `ConvertError` what a conversion throws;
- `listAllMember` is the members that `LoadFromYaml` looks at, and `yamlUpdates` the names and texts it sets.
-/

namespace Megalo

/-- A `YAML::Node`. -/
inductive YamlNode
  | null
  | scalar (text : List UInt8)
  | sequence (nodes : List YamlNode)
  | map (members : List (YamlNode × YamlNode))

/-- What a conversion throws: `boost::bad_lexical_cast`, a `YAML::Exception`, or a `std::logic_error`. -/
inductive ConvertError
  | badLexicalCast
  | yaml
  | logicError
  deriving DecidableEq

/-- The library: `YAML::Load`, which throws or not, and `ss << node`; `as<std::string>()` of a null node and
`as<size_t>()` of a key; and which argument of `make_pair` the compiler evaluates first, the key or the value. -/
structure YamlCpp where
  load : List UInt8 → Option YamlNode
  emit : YamlNode → List UInt8
  nullString : Option (List UInt8)
  keyIndex : List UInt8 → Option ℕ
  keyFirst : Bool

namespace YamlNode

/-- `Scalar()`. -/
def scalarText : YamlNode → List UInt8
  | .scalar text => text
  | _ => []

/-- A key that converts to this string. -/
def isKey (key : List UInt8) : YamlNode → Bool
  | .scalar text => text = key
  | _ => false

/-- `node[key]`. -/
def subscript (key : List UInt8) : Option YamlNode → Except ConvertError (Option YamlNode)
  | some (.scalar _) => .error .yaml
  | some (.map members) => .ok ((members.find? fun e => isKey key e.1).map Prod.snd)
  | _ => .ok none

end YamlNode

namespace YamlCpp

variable (yaml : YamlCpp)

/-- `node.as<std::string>()`. -/
def asString : YamlNode → Except ConvertError (List UInt8)
  | .scalar text => .ok text
  | .null => match yaml.nullString with
    | some text => .ok text
    | none => .error .yaml
  | _ => .error .yaml

/-- `node[key].as<std::string>()`, when `node[key].IsDefined()`. -/
def field (key : List UInt8) (node : Option YamlNode) : Except ConvertError (Option (List UInt8)) := do
  match ← YamlNode.subscript key node with
  | none => return none
  | some value => return some (← yaml.asString value)

/-- The member of a map whose key converts to this index. -/
def memberAt (members : List (YamlNode × YamlNode)) (i : ℕ) : Option YamlNode :=
  (members.find? fun e => match e.1 with
    | .scalar text => yaml.keyIndex text = some i
    | _ => false).map Prod.snd

/-- `node[i]`, for `i < node.size()`. -/
def elements : YamlNode → List (Option YamlNode)
  | .sequence nodes => nodes.map some
  | .map members => (List.range members.length).map (yaml.memberAt members)
  | _ => []

/-- `ss << node`. -/
def print : Option YamlNode → List UInt8
  | some node => yaml.emit node
  | none => []

end YamlCpp

/-! ## The members of a configuration file -/

/-- The characters of a name of a variable. -/
def validName (name : List UInt8) : Bool :=
  name.all fun c => (bytes "abcdefghijklmnopqrstuvwxyz_.0123456789").contains c

/-- The name of a member. -/
def memberName (pre key : List UInt8) : List UInt8 := if pre.isEmpty then key else pre ++ bytes "." ++ key

mutual

/-- `ListAllMember`. -/
def listAllMember (pre : List UInt8) : YamlNode → List (List UInt8 × YamlNode)
  | .map members => if validName pre then (pre, .map members) :: listMembers pre members else []
  | node => if validName pre then [(pre, node)] else []

/-- The loop of `ListAllMember`. -/
def listMembers (pre : List UInt8) : List (YamlNode × YamlNode) → List (List UInt8 × YamlNode)
  | [] => []
  | (key, value) :: members => listAllMember (memberName pre key.scalarText) value ++ listMembers pre members

end

/-- The names that `LoadFromYaml` looks up, and the texts for their variables. -/
def yamlUpdates (yaml : YamlCpp) (root : YamlNode) : List (List UInt8 × List UInt8) :=
  ((listAllMember [] root).filter fun i => !i.1.isEmpty).map fun i =>
    (i.1.map toLower, match i.2 with
      | .scalar text => text
      | node => yaml.emit node)

end Megalo
