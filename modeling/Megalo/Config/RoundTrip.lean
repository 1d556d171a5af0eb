import Megalo.Config.FromString
import Mathlib.Data.List.TakeWhile

/-!
# `ConfigVar::toString` and `fromString`

- `ConfigType T` is the types a variable can have, with their conversions both ways: `fromStr` is the one from a text,
  and `toText` the one to a text. The containers have in common `sequenceText` and `mappingText`;
- `Faithful` says of a value that its parts of a basic type come back from their texts, that a text inside a container
  is printed by the library as it was read, and that the library reads the nodes of the containers as it prints them;
  containers with an order are in it, and have no element twice;
- `Same` is equality up to the order of `unordered_set` and `unordered_map`;
- `config_reloaded`: what one variable gives with `toString`, another one of its type takes with `fromString` as the
  same value.
-/

namespace Megalo

/-- The types of a variable. The iterators of an unordered container give its elements in some order; `stale` is what
the memory of the appenders of a definition holds. -/
inductive ConfigType : Type → Type 1
  | basic {T : Type} (conv : List UInt8 → Option T) (text : T → Option (List UInt8)) : ConfigType T
  | vector {T : Type} (elem : ConfigType T) : ConfigType (List T)
  | list {T : Type} (elem : ConfigType T) : ConfigType (List T)
  | set {T : Type} (less : T → T → Bool) (elem : ConfigType T) : ConfigType (List T)
  | unorderedSet {T : Type} (eq : DecidableEq T) (order : List T → List T) (elem : ConfigType T) : ConfigType (List T)
  | map {T : Type} (elem : ConfigType T) : ConfigType (List (List UInt8 × T))
  | unorderedMap {T : Type} (order : List (List UInt8 × T) → List (List UInt8 × T)) (elem : ConfigType T) :
    ConfigType (List (List UInt8 × T))
  | logDefine (stale : List UInt8 → ℕ → LogLevel) : ConfigType LogDefine

/-- `node[key] = value`. -/
def assign (members : List (YamlNode × YamlNode)) (key : List UInt8) (value : YamlNode) : List (YamlNode × YamlNode) :=
  if members.any fun e => YamlNode.isKey key e.1 then
    members.map fun e => if YamlNode.isKey key e.1 then (e.1, value) else e
  else members ++ [(.scalar key, value)]

namespace YamlCpp

variable (yaml : YamlCpp) {T : Type}

/-- `YAML::Load` of what an element is converted to. -/
def loadText (text : T → Except ConvertError (List UInt8)) (t : T) : Except ConvertError YamlNode := do
  yaml.loadNode (← text t)

/-- The text of a sequence. -/
def sequenceText (text : T → Except ConvertError (List UInt8)) (items : List T) : Except ConvertError (List UInt8) := do
  return yaml.emit (.sequence (← items.mapM (yaml.loadText text)))

/-- The text of a map. -/
def mappingText (text : T → Except ConvertError (List UInt8)) (items : List (List UInt8 × T)) :
    Except ConvertError (List UInt8) := do
  return yaml.emit (.map (← items.foldlM (fun m e => do return assign m e.1 (← yaml.loadText text e.2)) []))

/-- The library reads this node as it prints it. -/
def Keeps (n : YamlNode) : Prop := yaml.load (yaml.emit n) = some n

/-- The library prints what it read of this text as the text. -/
def Reprints (s : List UInt8) : Prop := ∃ n, yaml.load s = some n ∧ yaml.emit n = s

end YamlCpp

namespace ConfigType

variable (yaml : YamlCpp) {T : Type}

/-- `LexicalCast<std::string, T>`. -/
def fromStr {T : Type} : ConfigType T → LexicalCast T
  | .basic conv _ => .basic conv
  | .vector elem => .vector elem.fromStr
  | .list elem => .list elem.fromStr
  | .set less elem => .set less elem.fromStr
  | .unorderedSet _ _ elem => .unorderedSet elem.fromStr
  | .map elem => .map elem.fromStr
  | .unorderedMap _ elem => .unorderedMap elem.fromStr
  | .logDefine stale => .logDefine stale

/-- `LexicalCast<T, std::string>`. -/
def toText {T : Type} : ConfigType T → T → Except ConvertError (List UInt8)
  | .basic _ text, v => match text v with
    | some s => .ok s
    | none => .error .badLexicalCast
  | .vector elem, v => yaml.sequenceText elem.toText v
  | .list elem, v => yaml.sequenceText elem.toText v
  | .set _ elem, v => yaml.sequenceText elem.toText v
  | .unorderedSet _ order elem, v => yaml.sequenceText elem.toText (order v)
  | .map elem, v => yaml.mappingText elem.toText v
  | .unorderedMap order elem, v => yaml.mappingText elem.toText (order v)
  | .logDefine _, v => .ok (v.toText yaml)

/-- There is no unordered container inside. -/
def exact {T : Type} : ConfigType T → Bool
  | .basic _ _ | .logDefine _ => true
  | .vector elem | .list elem | .set _ elem | .map elem => elem.exact
  | .unorderedSet _ _ _ | .unorderedMap _ _ => false

/-- A value that is the same, up to the order of unordered containers. -/
def Same {T : Type} : ConfigType T → T → T → Prop
  | .basic _ _, v, w => v = w
  | .vector elem, v, w => List.Forall₂ elem.Same v w
  | .list elem, v, w => List.Forall₂ elem.Same v w
  | .set _ elem, v, w => List.Forall₂ elem.Same v w
  | .unorderedSet _ _ elem, v, w => ∃ u, u.Perm v ∧ List.Forall₂ elem.Same u w
  | .map elem, v, w => List.Forall₂ (fun e f => e.1 = f.1 ∧ elem.Same e.2 f.2) v w
  | .unorderedMap _ elem, v, w => ∃ u, u.Perm v ∧ List.Forall₂ (fun e f => e.1 = f.1 ∧ elem.Same e.2 f.2) u w
  | .logDefine _, v, w => v = w

/-- The text of a value of a basic type is one that the library prints as it was read. -/
def Nests {T : Type} : ConfigType T → T → Prop
  | .basic _ text, v => ∀ s, text v = some s → yaml.Reprints s
  | _, _ => True

/-- The nodes that the library makes of the texts of these elements are read as they are printed. -/
def KeepsSequence (elem : ConfigType T) (items : List T) : Prop :=
  ∀ nodes, items.mapM (yaml.loadText (elem.toText yaml)) = .ok nodes → yaml.Keeps (.sequence nodes)

def KeepsMapping (elem : ConfigType T) (items : List (List UInt8 × T)) : Prop :=
  ∀ nodes, items.mapM (fun e => yaml.loadText (elem.toText yaml) e.2) = .ok nodes →
    yaml.Keeps (.map ((items.zip nodes).map fun p => (.scalar p.1.1, p.2)))

/-- The value comes back from its text. -/
def Faithful {T : Type} : ConfigType T → T → Prop
  | .basic conv text, v => ∃ s, text v = some s ∧ conv s = some v
  | .vector elem, v => (∀ t ∈ v, elem.Faithful t ∧ elem.Nests yaml t) ∧ elem.KeepsSequence yaml v
  | .list elem, v => (∀ t ∈ v, elem.Faithful t ∧ elem.Nests yaml t) ∧ elem.KeepsSequence yaml v
  | .set less elem, v => (∀ t ∈ v, elem.Faithful t ∧ elem.Nests yaml t) ∧ elem.KeepsSequence yaml v ∧
      elem.exact = true ∧ v.Pairwise fun t u => less t u = true ∧ less u t = false
  | .unorderedSet _ order elem, v => (∀ t ∈ v, elem.Faithful t ∧ elem.Nests yaml t) ∧
      elem.KeepsSequence yaml (order v) ∧ elem.exact = true ∧ v.Nodup ∧ (order v).Perm v
  | .map elem, v => (∀ e ∈ v, elem.Faithful e.2 ∧ elem.Nests yaml e.2) ∧ elem.KeepsMapping yaml v ∧
      OrdMap.Sorted (List.map UInt8.toNat) v
  | .unorderedMap order elem, v => (∀ e ∈ v, elem.Faithful e.2 ∧ elem.Nests yaml e.2) ∧
      elem.KeepsMapping yaml (order v) ∧ (v.map Prod.fst).Nodup ∧ (order v).Perm v
  | .logDefine stale, d => yaml.Keeps d.toNode ∧ (∀ a ∈ d.appenders, a.type = 1 ∨ a.type = 2) ∧
      d.appenders.zipIdx.map (fun e => e.1.reread (stale (d.toText yaml) e.2)) = d.appenders

end ConfigType

/-- `ConfigVar::toString`. -/
def ConfigVar.toString {T : Type} (yaml : YamlCpp) (c : ConfigType T) (var : ConfigVar T) :
    Except ConvertError (List UInt8) :=
  match c.toText yaml var.val with
  | .error .badLexicalCast => .ok []
  | r => r

namespace ConfigType

variable {yaml : YamlCpp} {T C : Type}

/-! ## Sequences and maps -/

section Containers

variable {elem : ConfigType T} {items : List T}

/-- The element has a text, which is printed as it is read, and from which the same comes back. -/
def Returns (yaml : YamlCpp) (elem : ConfigType T) (t : T) : Prop :=
  ∃ s n t', elem.toText yaml t = .ok s ∧ yaml.load s = some n ∧ yaml.emit n = s ∧
    elem.fromStr.cast yaml s = .ok t' ∧ elem.Same t t'

theorem Returns.loadText {t : T} (h : Returns yaml elem t) : ∃ n t', yaml.loadText (elem.toText yaml) t = .ok n ∧
    elem.fromStr.cast yaml (yaml.emit n) = .ok t' ∧ elem.Same t t' := by
  obtain ⟨s, n, t', htext, hload, hemit, hcast, hsame⟩ := h
  refine ⟨n, t', ?_, hemit ▸ hcast, hsame⟩
  rw [YamlCpp.loadText, htext, Throw.ok_bind, YamlCpp.loadNode, hload]

/-- The nodes of the elements, and what comes back from each. -/
theorem mapM_returns (h : ∀ t ∈ items, Returns yaml elem t) : ∃ nodes items',
    items.mapM (yaml.loadText (elem.toText yaml)) = .ok nodes ∧
    List.Forall₂ (fun n t' => elem.fromStr.cast yaml (yaml.emit n) = .ok t') nodes items' ∧
    List.Forall₂ elem.Same items items' := by
  induction items with
  | nil => exact ⟨[], [], rfl, .nil, .nil⟩
  | cons t items ih =>
    obtain ⟨ht, hitems⟩ := List.forall_mem_cons.mp h
    obtain ⟨n, t', hload, hcast, hsame⟩ := ht.loadText
    obtain ⟨nodes, items', hnodes, hcasts, hsames⟩ := ih hitems
    refine ⟨n :: nodes, t' :: items', ?_, .cons hcast hcasts, .cons hsame hsames⟩
    rw [List.mapM_cons, hload, Throw.ok_bind, hnodes]
    rfl

/-- A loop over nodes adds what comes back from each. -/
theorem foldlM_casts {nodes : List YamlNode} {items' : List T} (add : C → T → C) (vec : C)
    (h : List.Forall₂ (fun n t' => elem.fromStr.cast yaml (yaml.emit n) = .ok t') nodes items') :
    (nodes.map some).foldlM (fun vec n => do return add vec (← elem.fromStr.cast yaml (yaml.print n))) vec =
      .ok (items'.foldl add vec) := by
  induction h generalizing vec with
  | nil => rfl
  | cons hcast _ ih =>
    rw [List.map_cons, List.foldlM_cons]
    simp only [YamlCpp.print, hcast, Throw.ok_bind]
    exact ih _

theorem sequence_returns (h : ∀ t ∈ items, Returns yaml elem t) (hkeeps : elem.KeepsSequence yaml items) :
    ∃ n items', yaml.sequenceText (elem.toText yaml) items = .ok (yaml.emit n) ∧ yaml.Keeps n ∧
      List.Forall₂ elem.Same items items' ∧ ∀ (empty : C) add,
        (LexicalCast.sequence empty add elem.fromStr).cast yaml (yaml.emit n) = .ok (items'.foldl add empty) := by
  obtain ⟨nodes, items', hnodes, hcasts, hsames⟩ := mapM_returns h
  have hload := hkeeps nodes hnodes
  refine ⟨.sequence nodes, items', ?_, hload, hsames, fun empty add => ?_⟩
  · rw [YamlCpp.sequenceText, hnodes]
    rfl
  · rw [LexicalCast.cast, YamlCpp.loadNode, hload, Throw.ok_bind]
    exact foldlM_casts add empty hcasts

end Containers

section Mappings

variable {elem : ConfigType T} {items : List (List UInt8 × T)}

/-- What a member becomes: its key and its node, and what comes back from this. -/
structure Member (T : Type) where
  key : List UInt8
  node : YamlNode
  back : T

/-- The member of an entry. -/
structure Becomes (yaml : YamlCpp) (elem : ConfigType T) (e : List UInt8 × T) (m : Member T) : Prop where
  key : e.1 = m.key
  load : yaml.loadText (elem.toText yaml) e.2 = .ok m.node
  cast : elem.fromStr.cast yaml (yaml.emit m.node) = .ok m.back
  same : elem.Same e.2 m.back

theorem exists_becomes (h : ∀ e ∈ items, Returns yaml elem e.2) :
    ∃ ms : List (Member T), List.Forall₂ (Becomes yaml elem) items ms := by
  induction items with
  | nil => exact ⟨[], .nil⟩
  | cons e items ih =>
    obtain ⟨he, hitems⟩ := List.forall_mem_cons.mp h
    obtain ⟨n, t', hload, hcast, hsame⟩ := he.loadText
    obtain ⟨ms, hms⟩ := ih hitems
    exact ⟨⟨e.1, n, t'⟩ :: ms, .cons ⟨rfl, hload, hcast, hsame⟩ hms⟩

theorem mapM_becomes {ms : List (Member T)} (h : List.Forall₂ (Becomes yaml elem) items ms) :
    items.mapM (fun e => yaml.loadText (elem.toText yaml) e.2) = .ok (ms.map Member.node) := by
  induction h with
  | nil => rfl
  | cons hb _ ih =>
    rw [List.mapM_cons, hb.load, Throw.ok_bind, ih]
    rfl

/-- The node of a member. -/
def Member.toNode (m : Member T) : YamlNode × YamlNode := (.scalar m.key, m.node)

theorem zip_becomes {ms : List (Member T)} (h : List.Forall₂ (Becomes yaml elem) items ms) :
    (items.zip (ms.map Member.node)).map (fun p => (YamlNode.scalar p.1.1, p.2)) = ms.map Member.toNode := by
  induction h with
  | nil => rfl
  | cons hb _ ih =>
    simp only [List.map_cons, List.zip_cons_cons, ih, hb.key]
    rfl

/-- An entry with a new key is behind the others. -/
theorem assign_new {members : List (YamlNode × YamlNode)} {key : List UInt8} (value : YamlNode)
    (h : ∀ e ∈ members, YamlNode.isKey key e.1 = false) :
    assign members key value = members ++ [(.scalar key, value)] := by
  refine if_neg fun hany => ?_
  obtain ⟨e, he, hkey⟩ := List.any_eq_true.mp hany
  exact nomatch (h e he).symm.trans hkey

theorem foldlM_assign {ms : List (Member T)} (h : List.Forall₂ (Becomes yaml elem) items ms)
    (members : List (YamlNode × YamlNode)) (hkeys : (items.map Prod.fst).Nodup)
    (hnew : ∀ e ∈ items, ∀ m ∈ members, YamlNode.isKey e.1 m.1 = false) :
    items.foldlM (fun m e => do return assign m e.1 (← yaml.loadText (elem.toText yaml) e.2)) members =
      .ok (members ++ ms.map Member.toNode) := by
  induction h generalizing members with
  | nil => exact congrArg Except.ok (List.append_nil _).symm
  | cons hb _ ih =>
    rename_i e m items ms _
    obtain ⟨hfresh, hkeys⟩ := List.nodup_cons.mp hkeys
    obtain ⟨he, hitems⟩ := List.forall_mem_cons.mp hnew
    rw [List.foldlM_cons]
    simp only [hb.load, Throw.ok_bind, assign_new m.node he]
    refine (ih _ hkeys fun e' he' m' hm' => ?_).trans ?_
    · rcases List.mem_append.mp hm' with hold | hlast
      · exact hitems e' he' m' hold
      · obtain rfl := List.mem_singleton.mp hlast
        exact decide_eq_false fun heq => hfresh (heq ▸ List.mem_map_of_mem he')
    · rw [List.append_assoc, List.map_cons, Member.toNode, hb.key]
      rfl

/-- A loop over members adds what comes back from each. -/
theorem foldlM_pairs {ms : List (Member T)} (h : List.Forall₂ (Becomes yaml elem) items ms)
    (add : C → List UInt8 × T → C) (vec : C) :
    (yaml.pairs (.map (ms.map Member.toNode))).foldlM
        (fun vec e => do return add vec (← yaml.makePair (elem.fromStr.cast yaml) e.1 e.2)) vec =
      .ok ((ms.map fun m => (m.key, m.back)).foldl add vec) := by
  induction h generalizing vec with
  | nil => rfl
  | cons hb _ ih =>
    simp only [YamlCpp.pairs, List.map_cons, List.foldlM_cons, Member.toNode, YamlNode.scalarText, YamlCpp.makePair,
      hb.cast, Throw.ok_bind]
    exact ih _

theorem mapping_returns (h : ∀ e ∈ items, Returns yaml elem e.2) (hkeeps : elem.KeepsMapping yaml items)
    (hkeys : (items.map Prod.fst).Nodup) :
    ∃ n items', yaml.mappingText (elem.toText yaml) items = .ok (yaml.emit n) ∧ yaml.Keeps n ∧
      List.Forall₂ (fun e f => e.1 = f.1 ∧ elem.Same e.2 f.2) items items' ∧ ∀ (empty : C) add,
        (LexicalCast.mapping empty add elem.fromStr).cast yaml (yaml.emit n) = .ok (items'.foldl add empty) := by
  obtain ⟨ms, hms⟩ := exists_becomes h
  have hload : yaml.Keeps (.map (ms.map Member.toNode)) := by
    have := hkeeps _ (mapM_becomes hms)
    rwa [zip_becomes hms] at this
  refine ⟨.map (ms.map Member.toNode), ms.map fun m => (m.key, m.back), ?_, hload, ?_, fun empty add => ?_⟩
  · rw [YamlCpp.mappingText, foldlM_assign hms [] hkeys fun _ _ _ hm => absurd hm List.not_mem_nil]
    rfl
  · exact List.forall₂_map_right_iff.mpr (hms.imp fun _ _ hb => ⟨hb.key, hb.same⟩)
  · rw [LexicalCast.cast, YamlCpp.loadNode, hload, Throw.ok_bind]
    exact foldlM_pairs hms add empty

end Mappings

/-! ## What the containers are filled with -/

/-- A container that takes each element behind those that it has is filled with all. -/
theorem foldl_behind {A : Type} {add : List A → A → List A} {l : List A}
    (h : ∀ pre t post, l = pre ++ t :: post → add pre t = pre ++ [t]) : l.foldl add [] = l := by
  induction l using List.reverseRecOn with
  | nil => rfl
  | append_singleton l t ih =>
    have hinit : l.foldl add [] = l := ih fun pre u post hl =>
      h pre u (post ++ [t]) (by rw [hl, List.append_assoc, List.cons_append])
    rw [List.foldl_append, hinit]
    exact h l t [] rfl

theorem foldl_set {less : T → T → Bool} {l : List T} (h : l.Pairwise fun t u => less t u = true ∧ less u t = false) :
    l.foldl (fun vec t => if vec.any fun u => !less u t && !less t u then vec
      else vec.takeWhile (less · t) ++ t :: vec.dropWhile (less · t)) [] = l := by
  refine foldl_behind fun pre t post hl => ?_
  rw [hl] at h
  have hpre : ∀ u ∈ pre, less u t = true := fun u hu =>
    ((List.pairwise_append.mp h).2.2 u hu t List.mem_cons_self).1
  rw [if_neg fun hany => ?_, List.takeWhile_eq_self_iff.mpr hpre, List.dropWhile_eq_nil_iff.mpr hpre]
  obtain ⟨u, hu, hless⟩ := List.any_eq_true.mp hany
  rw [hpre u hu] at hless
  cases hless

theorem foldl_unorderedSet [DecidableEq T] {l : List T} (h : l.Nodup) :
    l.foldl (fun vec t => if vec.contains t then vec else vec ++ [t]) [] = l := by
  refine foldl_behind fun pre t post hl => if_neg fun hmem => ?_
  rw [hl] at h
  exact (List.nodup_append.mp h).2.2 t (List.contains_iff_mem.mp hmem) t List.mem_cons_self rfl

theorem foldl_map {l : List (List UInt8 × T)} (h : OrdMap.Sorted (List.map UInt8.toNat) l) :
    l.foldl (fun vec e => OrdMap.insert (List.map UInt8.toNat) vec e.1 e.2) [] = l := by
  refine foldl_behind fun pre e post hl => OrdMap.insert_last fun e' he' => ?_
  rw [hl] at h
  exact (List.pairwise_append.mp h).2.2 e' he' e List.mem_cons_self

theorem foldl_unorderedMap {l : List (List UInt8 × T)} (h : (l.map Prod.fst).Nodup) :
    l.foldl (fun vec e => if vec.any fun u => u.1 = e.1 then vec else vec ++ [e]) [] = l := by
  refine foldl_behind fun pre e post hl => if_neg fun hany => ?_
  obtain ⟨u, hu, hkey⟩ := List.any_eq_true.mp hany
  rw [hl, List.map_append, List.map_cons] at h
  exact (List.nodup_append.mp h).2.2 u.1 (List.mem_map_of_mem hu) e.1 List.mem_cons_self (of_decide_eq_true hkey)

/-! ## What comes back -/

/-- Without an unordered container inside, the same is equal. -/
theorem eq_of_same {c : ConfigType T} (hexact : c.exact = true) {v w : T} (h : c.Same v w) : v = w := by
  induction c with
  | basic conv text => exact h
  | logDefine stale => exact h
  | vector elem ih => exact List.forall₂_eq_eq_eq ▸ List.Forall₂.imp (fun _ _ => ih hexact) h
  | list elem ih => exact List.forall₂_eq_eq_eq ▸ List.Forall₂.imp (fun _ _ => ih hexact) h
  | set less elem ih => exact List.forall₂_eq_eq_eq ▸ List.Forall₂.imp (fun _ _ => ih hexact) h
  | map elem ih =>
    refine List.forall₂_eq_eq_eq ▸ List.Forall₂.imp (fun e f hef => ?_) h
    exact Prod.ext hef.1 (ih hexact hef.2)
  | unorderedSet eq order elem => cases hexact
  | unorderedMap order elem => cases hexact

/-- Keys that are in order are different. -/
theorem nodup_of_sorted {l : List (List UInt8 × T)} (h : OrdMap.Sorted (List.map UInt8.toNat) l) :
    (l.map Prod.fst).Nodup :=
  List.pairwise_map.mpr (h.imp fun hlt he => absurd (he ▸ hlt) (lt_irrefl _))

/-- The order is one of the keys. -/
theorem sorted_iff_keys {l : List (List UInt8 × T)} : OrdMap.Sorted (List.map UInt8.toNat) l ↔
    (l.map Prod.fst).Pairwise fun k k' => k.map UInt8.toNat < k'.map UInt8.toNat := by
  rw [OrdMap.Sorted, List.pairwise_map]

/-- The same keys, in the same order. -/
theorem keys_of_same {elem : ConfigType T} {l l' : List (List UInt8 × T)}
    (h : List.Forall₂ (fun e f => e.1 = f.1 ∧ elem.Same e.2 f.2) l l') : l'.map Prod.fst = l.map Prod.fst := by
  induction h with
  | nil => rfl
  | cons he _ ih => rw [List.map_cons, List.map_cons, ih, he.1]

/-- An element of a container, by what is known of its type. -/
theorem returns_of {elem : ConfigType T} {t : T}
    (ih : ∀ {t : T}, elem.Faithful yaml t → ∃ s v', elem.toText yaml t = .ok s ∧ elem.fromStr.cast yaml s = .ok v' ∧
      elem.Same t v' ∧ (elem.Nests yaml t → yaml.Reprints s))
    (h : elem.Faithful yaml t ∧ elem.Nests yaml t) : Returns yaml elem t := by
  obtain ⟨s, t', htext, hcast, hsame, hreprints⟩ := ih h.1
  obtain ⟨n, hload, hemit⟩ := hreprints h.2
  exact ⟨s, n, t', htext, hload, hemit, hcast, hsame⟩

theorem faithful_returns (c : ConfigType T) {v : T} (h : c.Faithful yaml v) :
    ∃ s v', c.toText yaml v = .ok s ∧ c.fromStr.cast yaml s = .ok v' ∧ c.Same v v' ∧
      (c.Nests yaml v → yaml.Reprints s) := by
  induction c with
  | basic conv text =>
    obtain ⟨s, htext, hconv⟩ := h
    refine ⟨s, v, ?_, ?_, rfl, fun hnests => hnests s htext⟩
    · simp only [toText, htext]
    · simp only [fromStr, LexicalCast.cast, hconv]
  | vector elem ih =>
    obtain ⟨hitems, hkeeps⟩ := h
    obtain ⟨n, items', htext, hload, hsame, hcast⟩ := sequence_returns (fun t ht => returns_of ih (hitems t ht)) hkeeps
    exact ⟨_, items', htext, (hcast _ _).trans (congrArg _ (foldl_behind fun _ _ _ _ => rfl)), hsame,
      fun _ => ⟨n, hload, rfl⟩⟩
  | list elem ih =>
    obtain ⟨hitems, hkeeps⟩ := h
    obtain ⟨n, items', htext, hload, hsame, hcast⟩ := sequence_returns (fun t ht => returns_of ih (hitems t ht)) hkeeps
    exact ⟨_, items', htext, (hcast _ _).trans (congrArg _ (foldl_behind fun _ _ _ _ => rfl)), hsame,
      fun _ => ⟨n, hload, rfl⟩⟩
  | set less elem ih =>
    obtain ⟨hitems, hkeeps, hexact, hsorted⟩ := h
    obtain ⟨n, items', htext, hload, hsame, hcast⟩ := sequence_returns (fun t ht => returns_of ih (hitems t ht)) hkeeps
    obtain rfl := eq_of_same (c := .set less elem) hexact hsame
    exact ⟨_, v, htext, (hcast _ _).trans (congrArg _ (foldl_set hsorted)), hsame, fun _ => ⟨n, hload, rfl⟩⟩
  | unorderedSet eq order elem ih =>
    obtain ⟨hitems, hkeeps, hexact, hnodup, hperm⟩ := h
    obtain ⟨n, items', htext, hload, hsame, hcast⟩ := sequence_returns
      (fun t ht => returns_of ih (hitems t (hperm.mem_iff.mp ht))) hkeeps
    have heq := eq_of_same (c := .vector elem) hexact hsame
    refine ⟨_, items', htext, (hcast _ _).trans (congrArg _ (foldl_unorderedSet ?_)), ⟨_, hperm, hsame⟩,
      fun _ => ⟨n, hload, rfl⟩⟩
    exact heq ▸ hperm.nodup_iff.mpr hnodup
  | map elem ih =>
    obtain ⟨hitems, hkeeps, hsorted⟩ := h
    obtain ⟨n, items', htext, hload, hsame, hcast⟩ := mapping_returns (fun e he => returns_of ih (hitems e he)) hkeeps
      (nodup_of_sorted hsorted)
    refine ⟨_, items', htext, (hcast _ _).trans (congrArg _ (foldl_map ?_)), hsame, fun _ => ⟨n, hload, rfl⟩⟩
    rw [sorted_iff_keys, keys_of_same hsame]
    exact sorted_iff_keys.mp hsorted
  | unorderedMap order elem ih =>
    obtain ⟨hitems, hkeeps, hnodup, hperm⟩ := h
    have hkeys : ((order v).map Prod.fst).Nodup := (hperm.map Prod.fst).nodup_iff.mpr hnodup
    obtain ⟨n, items', htext, hload, hsame, hcast⟩ := mapping_returns
      (fun e he => returns_of ih (hitems e (hperm.mem_iff.mp he))) hkeeps hkeys
    refine ⟨_, items', htext, (hcast _ _).trans (congrArg _ (foldl_unorderedMap ?_)), ⟨_, hperm, hsame⟩,
      fun _ => ⟨n, hload, rfl⟩⟩
    rwa [keys_of_same hsame]
  | logDefine stale =>
    obtain ⟨hload, htypes, hlevels⟩ := h
    refine ⟨_, v, rfl, ?_, rfl, fun _ => ⟨_, hload, rfl⟩⟩
    rw [fromStr, LexicalCast.cast, ofText_toText hload htypes, hlevels]

end ConfigType

/-- **A value that one variable gives is taken by another.** The text that `toString` makes of a faithful value is
converted by `fromString` of any variable of the type to the same value, which is then set, with the calls of the
listeners if the variable had another one. -/
theorem config_reloaded (yaml : YamlCpp) {T : Type} [BEq T] (c : ConfigType T) (var other : ConfigVar T)
    (h : c.Faithful yaml var.val) : ∃ text v, var.toString yaml c = .ok text ∧ c.Same var.val v ∧
      other.fromString yaml c.fromStr text = .ok (true, other.setValue v) := by
  obtain ⟨text, v, htext, hcast, hsame, -⟩ := c.faithful_returns h
  refine ⟨text, v, ?_, hsame, ?_⟩
  · rw [ConfigVar.toString, htext]
  · rw [ConfigVar.fromString, hcast]

/-- A map of lists of strings. -/
def hostsType : ConfigType (List (List UInt8 × List (List UInt8))) := .map (.vector (.basic some some))

def hosts : List (List UInt8 × List (List UInt8)) := [(bytes "a", [bytes "x", bytes "y"])]

/-- The nodes of that value. -/
def hostsNode : YamlNode := .sequence [.scalar (bytes "x"), .scalar (bytes "y")]

/-- The library, on the texts of that value. -/
def hostsYaml : YamlCpp where
  load v :=
    if v = bytes "a:\n  - x\n  - y" then some (.map [(.scalar (bytes "a"), hostsNode)])
    else if v = bytes "- x\n- y" then some hostsNode
    else some (.scalar v)
  emit
    | .null => bytes "~"
    | .scalar text => text
    | .sequence _ => bytes "- x\n- y"
    | .map _ => bytes "a:\n  - x\n  - y"
  nullString := some (bytes "null")
  keyIndex _ := none
  keyFirst := false

theorem hosts_faithful : hostsType.Faithful hostsYaml hosts := by
  have hload : ∀ v, v = bytes "x" ∨ v = bytes "y" → hostsYaml.load v = some (.scalar v) := by
    rintro v (rfl | rfl)
    · rfl
    · rfl
  refine ⟨fun e he => ?_, fun nodes hnodes => ?_, List.pairwise_singleton _ _⟩
  · obtain rfl := List.mem_singleton.mp he
    refine ⟨⟨fun t ht => ⟨⟨t, rfl, rfl⟩, ?_⟩, fun nodes hnodes => ?_⟩, trivial⟩
    · rintro s ⟨⟩
      exact ⟨.scalar t, hload t (by simpa using ht), rfl⟩
    · obtain rfl : [.scalar (bytes "x"), .scalar (bytes "y")] = nodes := Except.ok.inj hnodes
      rfl
  · obtain rfl : [hostsNode] = nodes := Except.ok.inj hnodes
    rfl

/-- Another variable of this type, which has a listener, takes the value. -/
theorem config_reloaded_hosts : ∃ text, (⟨hosts, []⟩ : ConfigVar _).toString hostsYaml hostsType = .ok text ∧
    (⟨[], [3]⟩ : ConfigVar _).fromString hostsYaml hostsType.fromStr text =
      .ok (true, ⟨hosts, [3]⟩, [⟨3, [], hosts⟩]) := by
  obtain ⟨text, v, htext, hsame, hreload⟩ := config_reloaded hostsYaml hostsType ⟨hosts, []⟩ ⟨[], [3]⟩ hosts_faithful
  obtain rfl : hosts = v := ConfigType.eq_of_same rfl hsame
  exact ⟨text, htext, hreload⟩

/-- An empty string inside a list is not read as it was printed. -/
example : ¬(ConfigType.basic some some).Nests { hostsYaml with load := fun _ => some .null } [] := by
  intro h
  obtain ⟨n, hload, hemit⟩ := h [] rfl
  obtain rfl := Option.some.inj hload
  cases hemit

end Megalo
