import Megalo.Lib.OrdMap
import Megalo.Lib.Throw
import Megalo.Log.Define

/-!
# `LexicalCast<std::string, T>`

- `LexicalCast T` is the conversions to `T`: `boost::lexical_cast`, the containers of the types there is a conversion
  to, and `LogDefine`. What the containers have in common is `sequence` and `mapping`;
- `Converts` says that a text is one that is converted, and `Escapes` that the conversion comes to a place where the
  text is no YAML, is not of the kind that is expected there or is no definition of a logger, before one that
  `boost::lexical_cast` rejects;
- `cast_ok_iff` and `cast_escapes_iff`: that is when a conversion succeeds, and when it throws something that is not a
  `boost::bad_lexical_cast`.
-/

namespace Megalo

namespace YamlCpp

variable (yaml : YamlCpp)

/-- `YAML::Load`. -/
def loadNode (v : List UInt8) : Except ConvertError YamlNode :=
  match yaml.load v with
  | none => .error .yaml
  | some node => .ok node

/-- What the iterators of a node give: the `Scalar()` of the first of a pair, which an element of a sequence does not
have, and the text of the second. -/
def pairs : YamlNode → List (Option (List UInt8) × List UInt8)
  | .map members => members.map fun e => (some e.1.scalarText, yaml.emit e.2)
  | .sequence nodes => nodes.map fun _ => (none, [])
  | _ => []

/-- The arguments of `make_pair`, in the order of their evaluation; `Scalar()` throws where there is no node. -/
def makePair {T : Type} (conv : List UInt8 → Except ConvertError T) (key : Option (List UInt8)) (text : List UInt8) :
    Except ConvertError (List UInt8 × T) :=
  match key with
  | some key => do return (key, ← conv text)
  | none => if yaml.keyFirst then .error .yaml else do
    let _ ← conv text
    .error .yaml

end YamlCpp

/-- The conversions from a text: what is made of the elements of a sequence or the members of a map, from an empty
container on; `stale` is what the memory of the appenders of a definition holds. -/
inductive LexicalCast : Type → Type 1
  | basic {T : Type} (conv : List UInt8 → Option T) : LexicalCast T
  | sequence {T C : Type} (empty : C) (add : C → T → C) (elem : LexicalCast T) : LexicalCast C
  | mapping {T C : Type} (empty : C) (add : C → List UInt8 × T → C) (elem : LexicalCast T) : LexicalCast C
  | logDefine (stale : List UInt8 → ℕ → LogLevel) : LexicalCast LogDefine

namespace LexicalCast

variable {T C : Type}

/-! ## The containers -/

/-- `std::vector<T>`. -/
def vector (elem : LexicalCast T) : LexicalCast (List T) := .sequence [] (fun vec t => vec ++ [t]) elem

/-- `std::list<T>`. -/
def list (elem : LexicalCast T) : LexicalCast (List T) := .sequence [] (fun vec t => vec ++ [t]) elem

/-- `std::set<T>`, in its order. -/
def set (less : T → T → Bool) (elem : LexicalCast T) : LexicalCast (List T) :=
  .sequence [] (fun vec t =>
    if vec.any fun u => !less u t && !less t u then vec
    else vec.takeWhile (less · t) ++ t :: vec.dropWhile (less · t)) elem

/-- `std::unordered_set<T>`, in the order of insertion. -/
def unorderedSet [BEq T] (elem : LexicalCast T) : LexicalCast (List T) :=
  .sequence [] (fun vec t => if vec.contains t then vec else vec ++ [t]) elem

/-- `std::map<std::string, T>`, in its order. -/
def map (elem : LexicalCast T) : LexicalCast (List (List UInt8 × T)) :=
  .mapping [] (fun vec e => OrdMap.insert (List.map UInt8.toNat) vec e.1 e.2) elem

/-- `std::unordered_map<std::string, T>`, in the order of insertion. -/
def unorderedMap (elem : LexicalCast T) : LexicalCast (List (List UInt8 × T)) :=
  .mapping [] (fun vec e => if vec.any fun u => u.1 = e.1 then vec else vec ++ [e]) elem

/-! ## The conversion -/

/-- The call operator. -/
def cast (yaml : YamlCpp) {T : Type} : LexicalCast T → List UInt8 → Except ConvertError T
  | .basic conv, v => match conv v with
    | some t => .ok t
    | none => .error .badLexicalCast
  | .sequence empty add elem, v => do
    (yaml.elements (← yaml.loadNode v)).foldlM (fun vec n => do return add vec (← elem.cast yaml (yaml.print n))) empty
  | .mapping empty add elem, v => do
    (yaml.pairs (← yaml.loadNode v)).foldlM
      (fun vec e => do return add vec (← yaml.makePair (elem.cast yaml) e.1 e.2)) empty
  | .logDefine stale, v => LogDefine.ofText yaml (stale v) v

end LexicalCast

/-! ## Definitions of loggers -/

section Define

variable (yaml : YamlCpp)

/-- `node[key].as<std::string>()`, when `node[key].IsDefined()`, does not throw. -/
def FieldReads (key : String) (node : Option YamlNode) : Prop := ∃ text, yaml.field (bytes key) node = .ok text

/-- The node of an appender has strings where the loop reads them. -/
def AppenderReads (a : Option YamlNode) : Prop :=
  ∃ type, yaml.field (bytes "type") a = .ok type ∧
    (type = some (bytes "FileLogAppender") → ∃ file, yaml.field (bytes "file") a = .ok file ∧
      (file ≠ none → FieldReads yaml "formatter" a)) ∧
    (type = some (bytes "StdoutLogAppender") → FieldReads yaml "formatter" a)

/-- The text is a map with a name, and has strings where `LexicalCast<std::string, LogDefine>` reads them. -/
def DefineReads (v : List UInt8) : Prop :=
  ∃ n, yaml.load v = some n ∧ (∃ name, yaml.field (bytes "name") (some n) = .ok (some name)) ∧
    FieldReads yaml "level" (some n) ∧ FieldReads yaml "formatter" (some n) ∧
    ∃ nodes, YamlNode.subscript (bytes "appenders") (some n) = .ok nodes ∧
      ∀ l, nodes = some l → ∀ a ∈ yaml.elements l, AppenderReads yaml a

variable {yaml}

theorem appender_ofNode_ok_iff (stale : LogLevel) {a : Option YamlNode} :
    (∃ lad, LogAppenderDefine.ofNode yaml stale a = .ok lad) ↔ AppenderReads yaml a := by
  have hne : bytes "StdoutLogAppender" ≠ bytes "FileLogAppender" := by decide
  unfold LogAppenderDefine.ofNode AppenderReads FieldReads
  rw [Throw.bind_ok_iff]
  refine exists_congr fun type => and_congr_right fun _ => ?_
  cases type with
  | none => simp [pure, Except.pure]
  | some type =>
    by_cases hfile : type = bytes "FileLogAppender"
    · subst hfile
      simp only [if_true, Throw.bind_ok_iff, Option.some.injEq, forall_const, hne.symm, false_implies, and_true]
      refine exists_congr fun file => and_congr_right fun _ => ?_
      cases file with
      | none => simp [pure, Except.pure]
      | some file => simp [Throw.bind_ok_iff, pure, Except.pure]
    · simp only [Option.some.injEq, hfile, false_implies, true_and]
      by_cases hstdout : type = bytes "StdoutLogAppender"
      · simp [hstdout, Throw.bind_ok_iff, pure, Except.pure]
      · simp [hstdout, pure, Except.pure]

theorem appendersOfNodes_ok_iff (stale : ℕ → LogLevel) (i : ℕ) {nodes : List (Option YamlNode)} :
    (∃ lads, appendersOfNodes yaml stale i nodes = .ok lads) ↔ ∀ a ∈ nodes, AppenderReads yaml a := by
  induction nodes generalizing i with
  | nil => simp [appendersOfNodes, pure, Except.pure]
  | cons a nodes ih =>
    rw [appendersOfNodes, Throw.bind_ok_iff, List.forall_mem_cons, ← ih (i + 1), ← appender_ofNode_ok_iff (stale i)]
    simp [Throw.bind_ok_iff, pure, Except.pure]

theorem field_ok_some_iff {key : String} {node : Option YamlNode} :
    (∃ text, yaml.field (bytes key) node = .ok (some text)) ↔
      ∃ value, YamlNode.subscript (bytes key) node = .ok (some value) ∧ ∃ text, yaml.asString value = .ok text := by
  unfold YamlCpp.field
  cases YamlNode.subscript (bytes key) node with
  | error e => simp [Throw.error_bind]
  | ok value =>
    cases value with
    | none => simp [Throw.ok_bind, pure, Except.pure]
    | some value => cases hs : yaml.asString value <;> simp [Throw.ok_bind, Throw.error_bind, hs, pure, Except.pure]

theorem ofNode_ok_iff (stale : ℕ → LogLevel) {n : YamlNode} : (∃ d, LogDefine.ofNode yaml stale n = .ok d) ↔
    (∃ name, yaml.field (bytes "name") (some n) = .ok (some name)) ∧ FieldReads yaml "level" (some n) ∧
      FieldReads yaml "formatter" (some n) ∧ ∃ nodes, YamlNode.subscript (bytes "appenders") (some n) = .ok nodes ∧
        ∀ l, nodes = some l → ∀ a ∈ yaml.elements l, AppenderReads yaml a := by
  rw [field_ok_some_iff]
  unfold LogDefine.ofNode FieldReads
  rw [Throw.bind_ok_iff]
  cases YamlNode.subscript (bytes "name") (some n) with
  | error e => simp
  | ok name =>
    cases name with
    | none => simp [throw, throwThe, MonadExceptOf.throw]
    | some name =>
      simp only [Except.ok.injEq, exists_eq_left', Option.some.injEq, Throw.bind_ok_iff]
      constructor
      · rintro ⟨text, htext, level, hlevel, formatter, hformatter, nodes, hnodes, d, hd⟩
        refine ⟨⟨text, htext⟩, ⟨level, hlevel⟩, ⟨formatter, hformatter⟩, nodes, hnodes, ?_⟩
        rintro l rfl
        obtain ⟨lads, hlads, -⟩ := Throw.bind_ok_iff.1 ⟨d, hd⟩
        exact (appendersOfNodes_ok_iff stale 0).1 ⟨lads, hlads⟩
      · rintro ⟨⟨text, htext⟩, ⟨level, hlevel⟩, ⟨formatter, hformatter⟩, nodes, hnodes, hreads⟩
        refine ⟨text, htext, level, hlevel, formatter, hformatter, nodes, hnodes, ?_⟩
        cases nodes with
        | none => exact ⟨_, rfl⟩
        | some l =>
          obtain ⟨lads, hlads⟩ := (appendersOfNodes_ok_iff stale 0).2 (hreads l rfl)
          exact Throw.bind_ok_iff.2 ⟨lads, hlads, _, rfl⟩

theorem ofText_ok_iff (stale : ℕ → LogLevel) {v : List UInt8} :
    (∃ d, LogDefine.ofText yaml stale v = .ok d) ↔ DefineReads yaml v := by
  unfold LogDefine.ofText DefineReads
  cases yaml.load v with
  | none => simp
  | some n => simp only [Option.some.injEq, exists_eq_left', ofNode_ok_iff]

/-- What is thrown, if anything, is no `boost::bad_lexical_cast`. -/
def NotBadCast {α : Type} (x : Except ConvertError α) : Prop := x ≠ .error .badLexicalCast

theorem notBadCast_ok {α : Type} (a : α) : NotBadCast (.ok a) := nofun

theorem NotBadCast.bind {α β : Type} {x : Except ConvertError α} {f : α → Except ConvertError β} (hx : NotBadCast x)
    (hf : ∀ a, NotBadCast (f a)) : NotBadCast (x >>= f) := by
  intro h
  rcases Throw.bind_error_iff.1 h with h | ⟨a, -, h⟩
  · exact hx h
  · exact hf a h

theorem notBadCast_subscript (key : List UInt8) (node : Option YamlNode) :
    NotBadCast (YamlNode.subscript key node) := by
  unfold YamlNode.subscript
  split <;> exact nofun

theorem notBadCast_asString (node : YamlNode) : NotBadCast (yaml.asString node) := by
  unfold YamlCpp.asString
  split
  · exact notBadCast_ok _
  · split
    · exact notBadCast_ok _
    · exact nofun
  · exact nofun

theorem notBadCast_field (key : List UInt8) (node : Option YamlNode) : NotBadCast (yaml.field key node) := by
  refine (notBadCast_subscript key node).bind fun value => ?_
  cases value with
  | none => exact notBadCast_ok _
  | some value => exact (notBadCast_asString value).bind fun _ => notBadCast_ok _

theorem notBadCast_appender (stale : LogLevel) (a : Option YamlNode) :
    NotBadCast (LogAppenderDefine.ofNode yaml stale a) := by
  refine (notBadCast_field _ a).bind fun type => ?_
  cases type with
  | none => exact notBadCast_ok _
  | some type =>
    show NotBadCast (if type = bytes "FileLogAppender" then _ else _)
    split
    · refine (notBadCast_field _ a).bind fun file => ?_
      cases file with
      | none => exact notBadCast_ok _
      | some file => exact (notBadCast_field _ a).bind fun _ => notBadCast_ok _
    · split
      · exact (notBadCast_field _ a).bind fun _ => notBadCast_ok _
      · exact notBadCast_ok _

theorem notBadCast_appenders (stale : ℕ → LogLevel) (i : ℕ) (nodes : List (Option YamlNode)) :
    NotBadCast (appendersOfNodes yaml stale i nodes) := by
  induction nodes generalizing i with
  | nil => exact notBadCast_ok _
  | cons a nodes ih =>
    rw [appendersOfNodes]
    exact (notBadCast_appender _ a).bind fun _ => (ih (i + 1)).bind fun _ => notBadCast_ok _

theorem notBadCast_ofNode (stale : ℕ → LogLevel) (n : YamlNode) : NotBadCast (LogDefine.ofNode yaml stale n) := by
  refine (notBadCast_subscript _ _).bind fun name => ?_
  cases name with
  | none => exact nofun
  | some name =>
    refine (notBadCast_asString name).bind fun _ => (notBadCast_field _ _).bind fun _ =>
      (notBadCast_field _ _).bind fun _ => (notBadCast_subscript _ _).bind fun nodes => ?_
    cases nodes with
    | none => exact notBadCast_ok _
    | some nodes => exact (notBadCast_appenders stale 0 _).bind fun _ => notBadCast_ok _

/-- The conversion of a definition throws no `boost::bad_lexical_cast`. -/
theorem notBadCast_ofText (stale : ℕ → LogLevel) (v : List UInt8) : NotBadCast (LogDefine.ofText yaml stale v) := by
  unfold LogDefine.ofText
  split
  · exact nofun
  · exact notBadCast_ofNode stale _

end Define

/-! ## When a conversion succeeds, and when it throws something else -/

namespace LexicalCast

variable (yaml : YamlCpp) {T : Type}

/-- The text is converted. -/
def Converts {T : Type} : LexicalCast T → List UInt8 → Prop
  | .basic conv, v => conv v ≠ none
  | .sequence _ _ elem, v => ∃ node, yaml.load v = some node ∧ ∀ n ∈ yaml.elements node, elem.Converts (yaml.print n)
  | .mapping _ _ elem, v =>
    ∃ node, yaml.load v = some node ∧ ∀ e ∈ yaml.pairs node, e.1 ≠ none ∧ elem.Converts e.2
  | .logDefine _, v => DefineReads yaml v

/-- The conversion comes to a text that is no YAML, an element of a sequence where a member of a map is expected, or a
text that is no definition of a logger, and everything before that is converted. -/
def Escapes {T : Type} : LexicalCast T → List UInt8 → Prop
  | .basic _, _ => False
  | .sequence _ _ elem, v => ∀ node, yaml.load v = some node → ∃ pre n post, yaml.elements node = pre ++ n :: post ∧
    (∀ n' ∈ pre, elem.Converts yaml (yaml.print n')) ∧ elem.Escapes (yaml.print n)
  | .mapping _ _ elem, v => ∀ node, yaml.load v = some node → ∃ pre e post, yaml.pairs node = pre ++ e :: post ∧
    (∀ e' ∈ pre, e'.1 ≠ none ∧ elem.Converts yaml e'.2) ∧
    (elem.Escapes e.2 ∨ e.1 = none ∧ (yaml.keyFirst = true ∨ elem.Converts yaml e.2))
  | .logDefine _, v => ¬DefineReads yaml v

variable {yaml}

section MakePair

variable {conv : List UInt8 → Except ConvertError T} {key : Option (List UInt8)} {text : List UInt8}

theorem makePair_ok_iff : (∃ p, yaml.makePair conv key text = .ok p) ↔ key ≠ none ∧ ∃ t, conv text = .ok t := by
  unfold YamlCpp.makePair
  cases key with
  | some key => simp [Throw.bind_ok_iff, pure, Except.pure]
  | none =>
    by_cases hfirst : yaml.keyFirst = true
    · simp [hfirst]
    · simp [hfirst, Throw.bind_ok_iff]

theorem makePair_error_iff {e : ConvertError} : yaml.makePair conv key text = .error e ↔
    key ≠ none ∧ conv text = .error e ∨ key = none ∧ if yaml.keyFirst then e = .yaml else
      conv text = .error e ∨ (∃ t, conv text = .ok t) ∧ e = .yaml := by
  unfold YamlCpp.makePair
  cases key with
  | some key => simp [Throw.bind_error_iff, pure, Except.pure]
  | none =>
    by_cases hfirst : yaml.keyFirst = true
    · simp [hfirst, eq_comm]
    · simp only [hfirst, Bool.false_eq_true, if_false, Throw.bind_error_iff, Except.error.injEq, ne_eq, not_true,
        false_and, false_or, true_and]
      refine or_congr_right ⟨?_, ?_⟩
      · rintro ⟨t, ht, he⟩
        exact ⟨⟨t, ht⟩, he.symm⟩
      · rintro ⟨⟨t, ht⟩, he⟩
        exact ⟨t, ht, he.symm⟩

end MakePair

theorem cast_ok_iff (c : LexicalCast T) (v : List UInt8) : (∃ t, c.cast yaml v = .ok t) ↔ c.Converts yaml v := by
  induction c generalizing v with
  | basic conv =>
    unfold cast Converts
    cases conv v <;> simp
  | sequence empty add elem ih =>
    unfold cast Converts YamlCpp.loadNode
    cases yaml.load v with
    | none => simp [Throw.error_bind]
    | some node =>
      simp only [Option.some.injEq, exists_eq_left', ← ih]
      exact Throw.loop_ok_iff
  | mapping empty add elem ih =>
    unfold cast Converts YamlCpp.loadNode
    cases yaml.load v with
    | none => simp [Throw.error_bind]
    | some node =>
      simp only [Option.some.injEq, exists_eq_left', ← ih]
      exact Throw.loop_ok_iff.trans (forall_congr' fun e => imp_congr_right fun _ => makePair_ok_iff)
  | logDefine stale => exact ofText_ok_iff (stale v)

/-- What a pair throws, when it is known what its value does. -/
theorem pair_escapes_iff {elem : LexicalCast T} {key : Option (List UInt8)} {text : List UInt8}
    (ih : (∃ e, e ≠ .badLexicalCast ∧ elem.cast yaml text = .error e) ↔ elem.Escapes yaml text) :
    (∃ e, e ≠ .badLexicalCast ∧ yaml.makePair (elem.cast yaml) key text = .error e) ↔
      elem.Escapes yaml text ∨ key = none ∧ (yaml.keyFirst = true ∨ elem.Converts yaml text) := by
  rw [← ih, ← cast_ok_iff]
  simp only [makePair_error_iff]
  cases key with
  | some key => simp
  | none =>
    by_cases hfirst : yaml.keyFirst = true
    · simp [hfirst]
    · simp only [ne_eq, not_true, false_and, false_or, true_and, hfirst, Bool.false_eq_true, if_false]
      constructor
      · rintro ⟨e, hne, herror | ⟨hok, -⟩⟩
        · exact .inl ⟨e, hne, herror⟩
        · exact .inr hok
      · rintro (⟨e, hne, herror⟩ | hok)
        · exact ⟨e, hne, .inl herror⟩
        · exact ⟨.yaml, by decide, .inr ⟨hok, rfl⟩⟩

/-- **What escapes**: the conversion throws something else than a `boost::bad_lexical_cast`. -/
theorem cast_escapes_iff (c : LexicalCast T) (v : List UInt8) :
    (∃ e, e ≠ .badLexicalCast ∧ c.cast yaml v = .error e) ↔ c.Escapes yaml v := by
  induction c generalizing v with
  | basic conv =>
    unfold cast Escapes
    cases conv v <;> simp
  | sequence empty add elem ih =>
    unfold cast Escapes YamlCpp.loadNode
    cases yaml.load v with
    | none => simp [Throw.error_bind]
    | some node =>
      simp only [Option.some.injEq, forall_eq', ← ih, ← cast_ok_iff]
      constructor
      · rintro ⟨e, hne, h⟩
        obtain ⟨pre, n, post, heq, hpre, herror⟩ := Throw.loop_error_iff.1 h
        exact ⟨pre, n, post, heq, hpre, e, hne, herror⟩
      · rintro ⟨pre, n, post, heq, hpre, e, hne, herror⟩
        exact ⟨e, hne, Throw.loop_error_iff.2 ⟨pre, n, post, heq, hpre, herror⟩⟩
  | mapping empty add elem ih =>
    unfold cast Escapes YamlCpp.loadNode
    cases yaml.load v with
    | none => simp [Throw.error_bind]
    | some node =>
      have hpre : ∀ p : Option (List UInt8) × List UInt8,
          (∃ q, yaml.makePair (elem.cast yaml) p.1 p.2 = .ok q) ↔ p.1 ≠ none ∧ elem.Converts yaml p.2 := fun p => by
        rw [makePair_ok_iff, cast_ok_iff]
      simp only [Option.some.injEq, forall_eq', ← hpre]
      constructor
      · rintro ⟨e, hne, h⟩
        obtain ⟨pre, p, post, heq, hok, herror⟩ := Throw.loop_error_iff.1 h
        exact ⟨pre, p, post, heq, hok, (pair_escapes_iff (ih p.2)).1 ⟨e, hne, herror⟩⟩
      · rintro ⟨pre, p, post, heq, hok, hescapes⟩
        obtain ⟨e, hne, herror⟩ := (pair_escapes_iff (ih p.2)).2 hescapes
        exact ⟨e, hne, Throw.loop_error_iff.2 ⟨pre, p, post, heq, hok, herror⟩⟩
  | logDefine stale =>
    unfold cast Escapes
    rw [← ofText_ok_iff (stale v)]
    cases h : LogDefine.ofText yaml (stale v) v with
    | ok d => simp
    | error e =>
      have hne : e ≠ .badLexicalCast := fun he => notBadCast_ofText (stale v) v (he ▸ h)
      simp [hne]

end LexicalCast

end Megalo
