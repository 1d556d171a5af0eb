import Megalo.Config.FromString

/-!
# Which nodes `LoadFromYaml` hands to `fromString`

- `members` is every node of a tree with the keys of the path to it, depth first; `listAllMemberAt` is `ListAllMember`
  with these paths (`listAllMemberAt_pre`), and it is the members whose prefix has the characters of a name
  (`listAllMemberAt_eq`). So a key with another character costs its own subtree only (`listMembers_badKey`);
- `loadNodes` is the loop of `LoadFromYaml` over them (`loadFromYaml_eq`), with the nodes it hands to `fromString`:
  those of registered variables, as far as the first one that throws (`loadNodes_handed`); a variable is left as they
  make it one after the other (`loadNodes_datas`);
- `Reaches` says that a variable is handed the nodes whose path is its name after `tolower`. The filter has no capital
  letters, so that is so exactly when such a path has none either, starts with no empty key, and is reached
  (`load_reaches_iff`).
-/

namespace Megalo

/-! ## Members with their paths -/

/-- A node of a tree: the keys of the path to it, and the node. -/
structure YamlMember where
  path : List (List UInt8)
  node : YamlNode

namespace YamlMember

variable (m : YamlMember)

/-- The prefix that `ListAllMember` has at the node. -/
def pre : List UInt8 := m.path.foldl memberName []

/-- The name that `LoadFromYaml` looks up. -/
def key : List UInt8 := m.pre.map toLower

/-- The keys of the path, joined with dots. -/
def joined : List UInt8 := (bytes ".").intercalate m.path

/-- The text that is given to `fromString`. -/
def text (yaml : YamlCpp) : List UInt8 :=
  match m.node with
  | .scalar text => text
  | node => yaml.emit node

end YamlMember

mutual

/-- The nodes below a node, depth first. -/
def members (path : List (List UInt8)) : YamlNode → List YamlMember
  | .map entries => membersFrom path entries
  | _ => []

/-- The nodes at and below the entries of a map. -/
def membersFrom (path : List (List UInt8)) : List (YamlNode × YamlNode) → List YamlMember
  | [] => []
  | (key, value) :: entries =>
    ⟨path ++ [key.scalarText], value⟩ :: members (path ++ [key.scalarText]) value ++ membersFrom path entries

end

mutual

/-- `ListAllMember`, with the path in place of the prefix. -/
def listAllMemberAt (path : List (List UInt8)) : YamlNode → List YamlMember
  | .map entries =>
    if validName (path.foldl memberName []) then ⟨path, .map entries⟩ :: listMembersAt path entries else []
  | node => if validName (path.foldl memberName []) then [⟨path, node⟩] else []

/-- The loop of `ListAllMember`, with the path in place of the prefix. -/
def listMembersAt (path : List (List UInt8)) : List (YamlNode × YamlNode) → List YamlMember
  | [] => []
  | (key, value) :: entries => listAllMemberAt (path ++ [key.scalarText]) value ++ listMembersAt path entries

end

/-! ## The loop -/

/-- The variables after `LoadFromYaml`, the nodes for which it called `fromString`, and the exception that left it. -/
structure YamlLoad where
  datas : ConfigVarMap
  handed : List YamlMember
  thrown : Option ConvertError

/-- The loop of `LoadFromYaml`. -/
def loadNodes (yaml : YamlCpp) : List YamlMember → ConfigVarMap → YamlLoad
  | [], datas => ⟨datas, [], none⟩
  | m :: rest, datas =>
    if m.pre.isEmpty then loadNodes yaml rest datas
    else
      match datas m.key with
      | none => loadNodes yaml rest datas
      | some var =>
        match var.fromString yaml (m.text yaml) with
        | .error e => ⟨datas, [m], some e⟩
        | .ok (_, var) =>
          let load := loadNodes yaml rest (Function.update datas m.key (some var))
          { load with handed := m :: load.handed }

/-- `LoadFromYaml`. -/
def yamlLoad (yaml : YamlCpp) (root : YamlNode) (datas : ConfigVarMap) : YamlLoad :=
  loadNodes yaml (listAllMemberAt [] root) datas

/-- The variable after `fromString`, which leaves it as it was when it throws. -/
def ConfigVarBase.received (yaml : YamlCpp) (b : ConfigVarBase) (text : List UInt8) : ConfigVarBase :=
  match b.fromString yaml text with
  | .ok (_, b) => b
  | .error _ => b

/-! ## What is visited -/

theorem validName_memberName {pre key : List UInt8} (h : validName (memberName pre key) = true) :
    validName pre = true := by
  unfold memberName at h
  split at h
  · rename_i hempty
    rw [List.isEmpty_iff.mp hempty]
    rfl
  · unfold validName at h ⊢
    rw [List.all_append, List.all_append, Bool.and_eq_true, Bool.and_eq_true] at h
    exact h.1.1

/-- Below a prefix that is not a name there is none that is. -/
theorem validName_foldl {pre : List UInt8} (keys : List (List UInt8))
    (h : validName (keys.foldl memberName pre) = true) : validName pre = true := by
  induction keys generalizing pre with
  | nil => exact h
  | cons key keys ih => exact validName_memberName (ih h)

mutual

/-- The prefixes of the paths are those of `ListAllMember`. -/
theorem listAllMemberAt_pre (path : List (List UInt8)) : ∀ node : YamlNode,
    (listAllMemberAt path node).map (fun m => (m.pre, m.node)) = listAllMember (path.foldl memberName []) node
  | .map entries => by
    rw [listAllMemberAt, listAllMember]
    split
    · rw [List.map_cons, listMembersAt_pre path entries]
      rfl
    · rfl
  | .null | .scalar _ | .sequence _ => by
    rw [listAllMemberAt, listAllMember]
    · split <;> rfl
    · exact nofun
    · exact nofun

theorem listMembersAt_pre (path : List (List UInt8)) : ∀ entries : List (YamlNode × YamlNode),
    (listMembersAt path entries).map (fun m => (m.pre, m.node)) = listMembers (path.foldl memberName []) entries
  | [] => rfl
  | (key, value) :: entries => by
    rw [listMembersAt, listMembers, List.map_append, listAllMemberAt_pre (path ++ [key.scalarText]) value,
      listMembersAt_pre path entries, List.foldl_append]
    rfl

end

mutual

/-- The path to a member goes through the node. -/
theorem path_of_members {m : YamlMember} (path : List (List UInt8)) : ∀ node : YamlNode, m ∈ members path node →
    ∃ keys, m.path = path ++ keys
  | .map entries, h => path_of_membersFrom path entries h
  | .null, h | .scalar _, h | .sequence _, h => absurd h List.not_mem_nil

theorem path_of_membersFrom {m : YamlMember} (path : List (List UInt8)) : ∀ entries : List (YamlNode × YamlNode),
    m ∈ membersFrom path entries → ∃ keys, m.path = path ++ keys
  | [], h => absurd h List.not_mem_nil
  | (key, value) :: entries, h => by
    rw [membersFrom, List.cons_append, List.mem_cons, List.mem_append] at h
    rcases h with rfl | h | h
    · exact ⟨[key.scalarText], rfl⟩
    · obtain ⟨keys, hkeys⟩ := path_of_members (path ++ [key.scalarText]) value h
      exact ⟨key.scalarText :: keys, by rw [hkeys, List.append_assoc, List.singleton_append]⟩
    · exact path_of_membersFrom path entries h

end

/-- Where the prefix is a name, the node is visited. -/
theorem filter_visited {path : List (List UInt8)} {node : YamlNode} {below : List YamlMember}
    (h : validName (path.foldl memberName []) = true) :
    (⟨path, node⟩ :: below).filter (fun m => validName m.pre) = ⟨path, node⟩ :: below.filter fun m => validName m.pre :=
  List.filter_cons_of_pos h

/-- Where it is not, neither the node nor a member below it is visited. -/
theorem filter_skipped {path : List (List UInt8)} {node : YamlNode}
    (h : validName (path.foldl memberName []) = false) :
    (⟨path, node⟩ :: members path node).filter (fun m => validName m.pre) = [] := by
  refine List.filter_eq_nil_iff.mpr fun m hm hvalid => ?_
  obtain ⟨keys, hkeys⟩ : ∃ keys, m.path = path ++ keys := by
    rcases List.mem_cons.mp hm with rfl | hm
    · exact ⟨[], (List.append_nil path).symm⟩
    · exact path_of_members path node hm
  rw [YamlMember.pre, hkeys, List.foldl_append] at hvalid
  rw [validName_foldl keys hvalid] at h
  cases h

mutual

/-- **`ListAllMember` visits** the members whose prefix has the characters of a name. -/
theorem listAllMemberAt_eq (path : List (List UInt8)) : ∀ node : YamlNode,
    listAllMemberAt path node = (⟨path, node⟩ :: members path node).filter fun m => validName m.pre
  | .map entries => by
    rw [listAllMemberAt]
    cases h : validName (path.foldl memberName []) with
    | true =>
      rw [if_pos rfl, listMembersAt_eq path entries, filter_visited h]
      rfl
    | false => rw [if_neg Bool.false_ne_true, filter_skipped h]
  | .null | .scalar _ | .sequence _ => by
    rw [listAllMemberAt]
    · cases h : validName (path.foldl memberName []) with
      | true =>
        rw [if_pos rfl, filter_visited h]
        rfl
      | false => rw [if_neg Bool.false_ne_true, filter_skipped h]
    · exact nofun

theorem listMembersAt_eq (path : List (List UInt8)) : ∀ entries : List (YamlNode × YamlNode),
    listMembersAt path entries = (membersFrom path entries).filter fun m => validName m.pre
  | [] => rfl
  | (key, value) :: entries => by
    rw [listMembersAt, membersFrom, List.filter_append, ← listAllMemberAt_eq (path ++ [key.scalarText]) value,
      ← listMembersAt_eq path entries]

end

/-- The key has a character other than letters, digits, `_` and `.`. -/
def BadKey (key : List UInt8) : Prop := ∃ c ∈ key, validName [toLower c] = false

theorem validName_of_mem {name : List UInt8} {c : UInt8} (h : validName name = true) (hc : c ∈ name) :
    validName [c] = true := by
  unfold validName at h ⊢
  rw [List.all_cons, List.all_nil, Bool.and_true]
  exact List.all_eq_true.mp h c hc

/-- The characters of a name are no capital letters. -/
theorem toLower_of_validName {c : UInt8} (h : validName [c] = true) : toLower c = c := by
  have hall : (bytes "abcdefghijklmnopqrstuvwxyz_.0123456789").all (fun c => toLower c = c) = true := by decide
  have hmem : c ∈ bytes "abcdefghijklmnopqrstuvwxyz_.0123456789" := by simpa [validName] using h
  exact of_decide_eq_true (List.all_eq_true.mp hall c hmem)

theorem map_toLower_of_validName {name : List UInt8} (h : validName name = true) : name.map toLower = name := by
  refine (List.map_congr_left fun c hc => ?_).trans (List.map_id name)
  exact toLower_of_validName (validName_of_mem h hc)

/-- An entry whose key has another character adds no node, and the other entries add theirs. -/
theorem listMembers_badKey {pre : List UInt8} {key value : YamlNode} {before after : List (YamlNode × YamlNode)}
    (h : BadKey key.scalarText) :
    listMembers pre (before ++ (key, value) :: after) = listMembers pre (before ++ after) := by
  have hname : validName (memberName pre key.scalarText) = false := by
    obtain ⟨c, hc, hbad⟩ := h
    have hmem : c ∈ memberName pre key.scalarText := by
      unfold memberName
      split
      · exact hc
      · exact List.mem_append_right _ hc
    rw [Bool.eq_false_iff]
    intro hvalid
    have hvalid := validName_of_mem hvalid hmem
    rw [toLower_of_validName hvalid, hvalid] at hbad
    cases hbad
  have hnone : listAllMember (memberName pre key.scalarText) value = [] := by
    cases value with
    | map entries => rw [listAllMember, if_neg (by simp [hname])]
    | null | scalar text | sequence nodes => rw [listAllMember, if_neg (by simp [hname])]; exact nofun
  induction before with
  | nil => rw [List.nil_append, listMembers, hnone, List.nil_append, List.nil_append]
  | cons e before ih => rw [List.cons_append, List.cons_append, listMembers, listMembers, ih]

/-! ## What is handed over -/

section Loop

variable {yaml : YamlCpp} {datas : ConfigVarMap} {b b' : ConfigVarBase} {text : List UInt8} {m : YamlMember}

/-- The conversion throws another exception than `bad_lexical_cast`, which `fromString` does not catch. -/
def LexicalCast.throws {T : Type} (yaml : YamlCpp) (conv : LexicalCast T) (text : List UInt8) : Bool :=
  match conv.cast yaml text with
  | .ok _ => false
  | .error .badLexicalCast => false
  | .error _ => true

/-- The node has a variable. -/
def YamlMember.registered (datas : ConfigVarMap) (m : YamlMember) : Bool := !m.pre.isEmpty && (datas m.key).isSome

/-- The node has a variable, and `fromString` throws. -/
def YamlMember.throws (yaml : YamlCpp) (datas : ConfigVarMap) (m : YamlMember) : Bool :=
  !m.pre.isEmpty && (datas m.key).any fun b => b.conv.throws yaml (m.text yaml)

theorem throws_of_error {e : ConvertError} (h : b.fromString yaml text = .error e) :
    b.conv.throws yaml text = true := by
  unfold ConfigVarBase.fromString ConfigVar.fromString at h
  unfold LexicalCast.throws
  cases hcast : b.conv.cast yaml text with
  | ok v =>
    rw [hcast] at h
    cases h
  | error e' =>
    rw [hcast] at h
    cases e' with
    | badLexicalCast => cases h
    | yaml | logicError => rfl

/-- A variable that took a text did not throw for it, and throws for the texts that it did before. -/
theorem throws_of_ok {ok : Bool} (h : b.fromString yaml text = .ok (ok, b')) :
    b.conv.throws yaml text = false ∧ ∀ other, b'.conv.throws yaml other = b.conv.throws yaml other := by
  unfold ConfigVarBase.fromString at h
  split at h
  · rename_i hset
    obtain ⟨-, rfl⟩ := Prod.mk.inj (Except.ok.inj h)
    refine ⟨?_, fun other => rfl⟩
    unfold ConfigVar.fromString at hset
    unfold LexicalCast.throws
    cases hcast : b.conv.cast yaml text with
    | ok v => rfl
    | error e =>
      rw [hcast] at hset
      cases e with
      | badLexicalCast => rfl
      | yaml | logicError => cases hset
  · cases h

/-- What is registered and what throws, after a variable took a text. -/
theorem registered_update {key : List UInt8} (hb : datas key = some b) (b' : ConfigVarBase) (m : YamlMember) :
    m.registered (Function.update datas key (some b')) = m.registered datas := by
  unfold YamlMember.registered
  by_cases hk : m.key = key
  · rw [hk, Function.update_self, hb]
    rfl
  · rw [Function.update_of_ne hk]

theorem throws_update {key : List UInt8} (hb : datas key = some b)
    (hsame : ∀ other, b'.conv.throws yaml other = b.conv.throws yaml other) (m : YamlMember) :
    m.throws yaml (Function.update datas key (some b')) = m.throws yaml datas := by
  unfold YamlMember.throws
  by_cases hk : m.key = key
  · rw [hk, Function.update_self, hb, Option.any_some, Option.any_some, hsame]
  · rw [Function.update_of_ne hk]

theorem registered_iff : m.registered datas = true ↔ m.pre.isEmpty = false ∧ ∃ b, datas m.key = some b := by
  rw [YamlMember.registered, Bool.and_eq_true, Bool.not_eq_true', Option.isSome_iff_exists]

/-! ### One node -/

variable {rest : List YamlMember}

/-- A node without a variable is passed over. -/
theorem loadNodes_skip (h : m.registered datas = false) :
    loadNodes yaml (m :: rest) datas = loadNodes yaml rest datas := by
  rw [loadNodes]
  by_cases hpre : m.pre.isEmpty = true
  · rw [if_pos hpre]
  · have hnone : datas m.key = none := by
      rw [YamlMember.registered] at h
      simpa [hpre] using h
    rw [if_neg hpre, hnone]

/-- A node that throws is the last one. -/
theorem loadNodes_throw {e : ConvertError} (hpre : m.pre.isEmpty = false) (hb : datas m.key = some b)
    (h : b.fromString yaml (m.text yaml) = .error e) : loadNodes yaml (m :: rest) datas = ⟨datas, [m], some e⟩ := by
  rw [loadNodes, if_neg (by simp [hpre]), hb]
  simp only [h]

/-- Behind a node that is taken the loop goes on. -/
theorem loadNodes_take {ok : Bool} (hpre : m.pre.isEmpty = false) (hb : datas m.key = some b)
    (h : b.fromString yaml (m.text yaml) = .ok (ok, b')) : loadNodes yaml (m :: rest) datas =
      { loadNodes yaml rest (Function.update datas m.key (some b')) with
        handed := m :: (loadNodes yaml rest (Function.update datas m.key (some b'))).handed } := by
  rw [loadNodes, if_neg (by simp [hpre]), hb]
  simp only [h]

/-! ### The loop -/

/-- **The loop hands over** the nodes that have a variable, as far as the first that throws. -/
theorem loadNodes_handed (ms : List YamlMember) (datas : ConfigVarMap) : (loadNodes yaml ms datas).handed =
    (Throw.reached (YamlMember.throws yaml datas) ms).filter (YamlMember.registered datas) := by
  induction ms generalizing datas with
  | nil => rfl
  | cons m rest ih =>
    cases hreg : m.registered datas with
    | false =>
      have hno : m.throws yaml datas = false := by
        rw [YamlMember.registered] at hreg
        rw [YamlMember.throws]
        cases hb : datas m.key with
        | none => exact Bool.and_false _
        | some b =>
          rw [hb, Option.isSome_some, Bool.and_true] at hreg
          rw [hreg, Bool.false_and]
      rw [loadNodes_skip hreg, ih, Throw.reached_cons_neg hno, List.filter_cons_of_neg (by simp [hreg])]
    | true =>
      obtain ⟨hpre, b, hb⟩ := registered_iff.mp hreg
      have hthrows : m.throws yaml datas = b.conv.throws yaml (m.text yaml) := by simp [YamlMember.throws, hpre, hb]
      cases hload : b.fromString yaml (m.text yaml) with
      | error e =>
        rw [loadNodes_throw hpre hb hload, Throw.reached_cons_pos (hthrows.trans (throws_of_error hload)),
          List.filter_cons_of_pos hreg, List.filter_nil]
      | ok r =>
        obtain ⟨ok, b'⟩ := r
        obtain ⟨hno, hsame⟩ := throws_of_ok hload
        rw [loadNodes_take hpre hb hload, Throw.reached_cons_neg (hthrows.trans hno), List.filter_cons_of_pos hreg]
        simp only [ih, funext (throws_update hb hsame), funext (registered_update hb b')]

/-- **What a variable is left as** is what the nodes that were handed to it make of it, one after the other. -/
theorem loadNodes_datas (ms : List YamlMember) (datas : ConfigVarMap) (name : List UInt8) :
    (loadNodes yaml ms datas).datas name = (datas name).map fun var =>
      ((loadNodes yaml ms datas).handed.filter fun m => m.key = name).foldl (fun b m => b.received yaml (m.text yaml))
        var := by
  induction ms generalizing datas with
  | nil => exact Option.map_id'.symm
  | cons m rest ih =>
    cases hreg : m.registered datas with
    | false => rw [loadNodes_skip hreg, ih]
    | true =>
      obtain ⟨hpre, b, hb⟩ := registered_iff.mp hreg
      cases hload : b.fromString yaml (m.text yaml) with
      | error e =>
        have hsame : b.received yaml (m.text yaml) = b := by rw [ConfigVarBase.received, hload]
        rw [loadNodes_throw hpre hb hload]
        by_cases hk : m.key = name
        · subst hk
          simp [hb, hsame]
        · simp [hk]
      | ok r =>
        have hnext : b.received yaml (m.text yaml) = r.2 := by rw [ConfigVarBase.received, hload]
        rw [loadNodes_take hpre hb hload]
        simp only [ih]
        by_cases hk : m.key = name
        · subst hk
          simp [hb, hnext]
        · have hk' : name ≠ m.key := fun h => hk h.symm
          simp [hk, hk']

/-- The loop over the members with their paths is the loop over the names and texts. -/
theorem loadNodes_updates (ms : List YamlMember) (datas : ConfigVarMap) :
    (loadUpdates yaml ((ms.filter fun m => !m.pre.isEmpty).map fun m => (m.key, m.text yaml)) datas).map Prod.fst =
      match (loadNodes yaml ms datas).thrown with
      | none => .ok (loadNodes yaml ms datas).datas
      | some e => .error e := by
  induction ms generalizing datas with
  | nil => rfl
  | cons m rest ih =>
    by_cases hpre : m.pre.isEmpty = true
    · rw [List.filter_cons_of_neg (by simp [hpre]), ih, loadNodes_skip (by simp [YamlMember.registered, hpre])]
    have hpre : m.pre.isEmpty = false := Bool.eq_false_iff.mpr hpre
    rw [List.filter_cons_of_pos (by simp [hpre]), List.map_cons, loadUpdates]
    cases hb : datas m.key with
    | none =>
      rw [loadNodes_skip (by simp [YamlMember.registered, hb])]
      exact ih datas
    | some b =>
      cases hload : b.fromString yaml (m.text yaml) with
      | error e =>
        rw [loadNodes_throw hpre hb hload]
        simp only [hload]
        rfl
      | ok r =>
        rw [loadNodes_take hpre hb hload]
        simp only [hload]
        rw [← ih, Throw.ok_bind]
        cases loadUpdates yaml ((rest.filter fun m => !m.pre.isEmpty).map fun m => (m.key, m.text yaml))
          (Function.update datas m.key (some r.2)) <;> rfl

end Loop

/-- `yamlLoad` is `LoadFromYaml`. -/
theorem loadFromYaml_eq (yaml : YamlCpp) (root : YamlNode) (datas : ConfigVarMap) :
    (loadFromYaml yaml root datas).map Prod.fst =
      match (yamlLoad yaml root datas).thrown with
      | none => .ok (yamlLoad yaml root datas).datas
      | some e => .error e := by
  have hupdates : yamlUpdates yaml root = ((listAllMemberAt [] root).filter fun m => !m.pre.isEmpty).map
      fun m => (m.key, m.text yaml) := by
    have hlist : listAllMember [] root = (listAllMemberAt [] root).map fun m => (m.pre, m.node) :=
      (listAllMemberAt_pre [] root).symm
    rw [yamlUpdates, hlist, List.filter_map, List.map_map]
    rfl
  rw [loadFromYaml, hupdates]
  exact loadNodes_updates (listAllMemberAt [] root) datas

/-! ## Variables and the paths that are their names -/

namespace YamlMember

variable (m : YamlMember) (name : List UInt8)

/-- The keys joined with dots are the name after `tolower`. -/
def Matches : Prop := m.joined.map toLower = name

/-- The prefix of `ListAllMember` is the name, and there is one. -/
def Spells : Prop := m.pre = name ∧ name ≠ []

instance : Decidable (m.Matches name) := inferInstanceAs (Decidable (_ = _))

instance : Decidable (m.Spells name) := inferInstanceAs (Decidable (_ ∧ _))

end YamlMember

/-- The nodes whose path is the name, depth first. -/
def matching (root : YamlNode) (name : List UInt8) : List YamlMember :=
  (members [] root).filter fun m => m.Matches name

/-- A node whose conversion throws what `fromString` does not catch, when it is handed over. -/
def YamlMember.escapes (yaml : YamlCpp) (datas : ConfigVarMap) (m : YamlMember) : Bool :=
  validName m.pre && m.throws yaml datas

/-- The nodes as far as the first one that `fromString` throws for. -/
def reachedMembers (yaml : YamlCpp) (root : YamlNode) (datas : ConfigVarMap) : List YamlMember :=
  Throw.reached (YamlMember.escapes yaml datas) (members [] root)

/-- The nodes behind it. -/
def missedMembers (yaml : YamlCpp) (root : YamlNode) (datas : ConfigVarMap) : List YamlMember :=
  Throw.behind (YamlMember.escapes yaml datas) (members [] root)

/-- `LoadFromYaml` calls `fromString` of the variable `name` for the nodes whose path is the name, in their order, so
that the last one wins; without one the variable stays as it is; and a key with a character that no name has costs its
own subtree only. -/
structure Reaches (yaml : YamlCpp) (root : YamlNode) (datas : ConfigVarMap) (name : List UInt8)
    (var : ConfigVarBase) : Prop where
  receives : ((yamlLoad yaml root datas).handed.filter fun m => m.key = name) = matching root name
  value : (yamlLoad yaml root datas).datas name =
    some ((matching root name).foldl (fun b m => b.received yaml (m.text yaml)) var)
  unmatched : matching root name = [] → (yamlLoad yaml root datas).datas name = some var
  badKey : ∀ pre key value before after, BadKey key.scalarText →
    listMembers pre (before ++ (key, value) :: after) = listMembers pre (before ++ after)

section Reaches

variable {yaml : YamlCpp} {root : YamlNode} {datas : ConfigVarMap} {name : List UInt8} {var : ConfigVarBase}

/-- **What `LoadFromYaml` hands over.** -/
theorem load_handed : (yamlLoad yaml root datas).handed =
    (reachedMembers yaml root datas).filter fun m => m.registered datas && validName m.pre := by
  have hthrow : YamlMember.escapes yaml datas ⟨[], root⟩ = false := rfl
  have hroot : (YamlMember.registered datas ⟨[], root⟩ && validName (YamlMember.pre ⟨[], root⟩)) = false := rfl
  have hreached : Throw.reached (YamlMember.escapes yaml datas) (⟨[], root⟩ :: members [] root) =
      ⟨[], root⟩ :: reachedMembers yaml root datas := Throw.reached_cons_neg hthrow
  rw [yamlLoad, loadNodes_handed, listAllMemberAt_eq, Throw.reached_filter, List.filter_filter]
  refine (congrArg _ hreached).trans ?_
  rw [List.filter_cons_of_neg (by simp [hroot])]

/-- A node is handed to a registered variable where its prefix is the name. -/
theorem handed_iff (h : datas name = some var) (hname : validName name = true) (m : YamlMember) :
    (decide (m.key = name) && (m.registered datas && validName m.pre)) = decide (m.Spells name) := by
  rw [Bool.eq_iff_iff, decide_eq_true_iff]
  constructor
  · intro hm
    simp only [Bool.and_eq_true, decide_eq_true_eq] at hm
    obtain ⟨hkey, hreg, hvalid⟩ := hm
    have hpre : m.pre = name := by
      rw [← hkey, YamlMember.key, map_toLower_of_validName hvalid]
    refine ⟨hpre, fun hnil => ?_⟩
    rw [hnil] at hpre
    rw [YamlMember.registered, hpre] at hreg
    cases hreg
  · rintro ⟨rfl, hne⟩
    have hkey : m.key = m.pre := map_toLower_of_validName hname
    have hempty : m.pre.isEmpty = false := by simpa using hne
    simp [YamlMember.registered, hkey, h, hname, hempty]

/-- The nodes that a registered variable is handed. -/
theorem handed_filter (h : datas name = some var) (hname : validName name = true) :
    ((yamlLoad yaml root datas).handed.filter fun m => m.key = name) =
      (reachedMembers yaml root datas).filter fun m => m.Spells name := by
  rw [load_handed, List.filter_filter]
  exact List.filter_congr fun m _ => handed_iff h hname m

/-- A variable that is handed what it is to be handed has what that makes of it. -/
theorem reaches_of_receives (h : datas name = some var)
    (hreceives : ((yamlLoad yaml root datas).handed.filter fun m => m.key = name) = matching root name) :
    Reaches yaml root datas name var := by
  have hvalue : (yamlLoad yaml root datas).datas name =
      some ((matching root name).foldl (fun b m => b.received yaml (m.text yaml)) var) := by
    rw [← hreceives, yamlLoad, loadNodes_datas, h]
    rfl
  refine ⟨hreceives, hvalue, fun hnil => ?_, fun pre key value before after => listMembers_badKey⟩
  rw [hvalue, hnil]
  rfl

/-- The last node wins. -/
theorem Reaches.last_wins (hr : Reaches yaml root datas name var) {before : List YamlMember} {m : YamlMember}
    (hlast : matching root name = before ++ [m]) : ∃ b : ConfigVarBase, (yamlLoad yaml root datas).datas name =
      some (b.received yaml (m.text yaml)) := by
  refine ⟨before.foldl (fun b m => b.received yaml (m.text yaml)) var, ?_⟩
  rw [hr.value, hlast, List.foldl_append]
  rfl

/-- Where the first key is not empty, the prefix is the keys joined with dots. -/
theorem pre_eq_joined {m : YamlMember} {key : List UInt8} {keys : List (List UInt8)} (hpath : m.path = key :: keys)
    (hkey : key ≠ []) : m.pre = m.joined := by
  have hfold : ∀ (keys : List (List UInt8)) (pre : List UInt8), pre ≠ [] →
      keys.foldl memberName pre = (bytes ".").intercalate (pre :: keys) := by
    intro keys
    induction keys with
    | nil => exact fun pre _ => (List.intercalate_singleton ..).symm
    | cons key keys ih =>
      intro pre hpre
      have hname : memberName pre key = pre ++ bytes "." ++ key := if_neg (by simpa using hpre)
      rw [List.foldl_cons, hname, ih _ (by simp [hpre]), List.intercalate_cons_cons]
      cases keys with
      | nil => rw [List.intercalate_singleton, List.intercalate_singleton]
      | cons key' keys =>
        rw [List.intercalate_cons_cons, List.intercalate_cons_cons]
        simp only [List.append_assoc]
  rw [YamlMember.pre, YamlMember.joined, hpath, List.foldl_cons]
  exact hfold keys key hkey

end Reaches

/-- **`LoadFromYaml` reaches a registered variable** if and only if, of the nodes as far as the first one that
`fromString` throws for, those whose path is the name after `tolower` are those whose prefix is the name, and none of
the nodes behind has such a path. -/
theorem load_reaches_iff (yaml : YamlCpp) (root : YamlNode) (datas : ConfigVarMap) (name : List UInt8)
    (var : ConfigVarBase) (h : datas name = some var) (hname : validName name = true) :
    Reaches yaml root datas name var ↔
      (∀ m ∈ reachedMembers yaml root datas, m.Spells name ↔ m.Matches name) ∧
        ∀ m ∈ missedMembers yaml root datas, ¬m.Matches name := by
  have hpick : (∀ m ∈ reachedMembers yaml root datas, decide (m.Spells name) = decide (m.Matches name)) ↔
      ∀ m ∈ reachedMembers yaml root datas, m.Spells name ↔ m.Matches name :=
    forall₂_congr fun m _ => decide_eq_decide
  have hmiss : (∀ m ∈ missedMembers yaml root datas, decide (m.Matches name) = false) ↔
      ∀ m ∈ missedMembers yaml root datas, ¬m.Matches name :=
    forall₂_congr fun m _ => decide_eq_false_iff_not
  rw [← hpick, ← hmiss]
  constructor
  · intro hr
    have hreceives := hr.receives
    rw [handed_filter h hname] at hreceives
    exact Throw.filter_reached_eq_iff.1 hreceives
  · intro hcond
    refine reaches_of_receives h ?_
    rw [handed_filter h hname]
    exact Throw.filter_reached_eq_iff.2 hcond

/-- The variable `port`. -/
def portVar : ConfigVarBase := ⟨List UInt8, inferInstance, .basic some, ⟨bytes "8020", []⟩⟩

def portDatas : ConfigVarMap := fun key => if key = bytes "port" then some portVar else none

/-- A tree with one key. -/
def portNode (key : String) : YamlNode := .map [(.scalar (bytes key), .scalar (bytes "8021"))]

/-- The key `port`. -/
theorem load_reaches_port : Reaches namelessYaml (portNode "port") portDatas (bytes "port") portVar :=
  (load_reaches_iff namelessYaml (portNode "port") portDatas (bytes "port") portVar (if_pos rfl) (by decide)).mpr
    ⟨by decide +kernel, by decide +kernel⟩

/-- The key `Port`. -/
theorem load_misses_capital : ¬Reaches namelessYaml (portNode "Port") portDatas (bytes "port") portVar := by
  intro hr
  have hlength := congrArg List.length hr.receives
  have hnone : ((yamlLoad namelessYaml (portNode "Port") portDatas).handed.filter fun m =>
      m.key = bytes "port").length = 0 := rfl
  have hone : (matching (portNode "Port") (bytes "port")).length = 1 := rfl
  rw [hnone, hone] at hlength
  cases hlength

end Megalo
