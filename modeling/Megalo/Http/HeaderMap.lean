import Mathlib.Data.List.TakeWhile
import Megalo.Lib.OrdMap
import Megalo.Http.Dump

/-!
# Maps with `CaseInsensitiveLess`

- Names are compared as far as their first NUL, and without their case (`foldCase`), so a map of headers is an ordered
  map (`headerMap_set`);
- `MapType` is a map with its order: what `m_params` and `m_cookies` are, with the operations on them.
-/

namespace Megalo

/-! ## The order of names -/

/-- What names are compared by. -/
def foldCase (name : List UInt8) : List Nat := (name.takeWhile (· ≠ 0)).map fun c => (toLower c).toNat

theorem charsLess_iff (lhs rhs : List UInt8) :
    charsLess lhs rhs = true ↔ lhs.map UInt8.toNat < rhs.map UInt8.toNat := by
  induction lhs generalizing rhs with
  | nil =>
    cases rhs with
    | nil => simp [charsLess]
    | cons d rhs => simp [charsLess]
  | cons c lhs ih =>
    cases rhs with
    | nil => simp [charsLess]
    | cons d rhs => simp [charsLess, ih, List.cons_lt_cons_iff, UInt8.lt_iff_toNat_lt, UInt8.toNat_inj]

theorem caseInsensitiveLess_iff (lhs rhs : List UInt8) :
    caseInsensitiveLess lhs rhs = true ↔ foldCase lhs < foldCase rhs := by
  rw [caseInsensitiveLess, charsLess_iff, List.map_map, List.map_map]
  rfl

theorem strcasecmpEq_iff (lhs rhs : List UInt8) : strcasecmpEq lhs rhs = true ↔ foldCase lhs = foldCase rhs := by
  have hinj : Function.Injective (List.map UInt8.toNat) :=
    List.map_injective_iff.mpr fun _ _ => UInt8.toNat_inj.mp
  rw [strcasecmpEq, decide_eq_true_eq, ← hinj.eq_iff, List.map_map, List.map_map]
  rfl

/-- The map of headers is an ordered map. -/
theorem headerMap_set (m : HeaderMap) (key val : List UInt8) : m.set key val = OrdMap.set foldCase m key val := by
  induction m with
  | nil => rfl
  | cons e m ih =>
    simp only [HeaderMap.set, OrdMap.set, ih, caseInsensitiveLess_iff]
    split_ifs <;> rfl

theorem foldCase_of_noNul {name : List UInt8} (h : 0 ∉ name) :
    foldCase name = name.map fun c => (toLower c).toNat := by
  have hall : ∀ c ∈ name, decide (c ≠ 0) = true := fun c hc => decide_eq_true fun h0 => h (h0 ▸ hc)
  rw [foldCase, List.takeWhile_eq_self_iff.2 hall]

/-! ## Maps -/

/-- `HttpRequest::MapType`. -/
structure MapType where
  entries : HeaderMap
  sorted : OrdMap.Sorted foldCase entries

namespace MapType

/-- A map without entries. -/
def empty : MapType := ⟨[], List.Pairwise.nil⟩

variable (m : MapType) (key val : List UInt8)

/-- `find`, as the value of what it points to. -/
def find : Option (List UInt8) := OrdMap.find foldCase m.entries (foldCase key)

/-- `m[key] = val`. -/
def set : MapType := ⟨OrdMap.set foldCase m.entries key val, m.sorted.set⟩

/-- `m.insert(std::make_pair(key, val))`. -/
def insert : MapType := ⟨OrdMap.insert foldCase m.entries key val, m.sorted.insert⟩

/-- `m.erase(key)`. -/
def erase : MapType := ⟨OrdMap.erase foldCase m.entries key, m.sorted.erase⟩

/-- One entry inserted after the other. -/
def inserts (es : HeaderMap) : MapType := ⟨OrdMap.inserts foldCase m.entries es, m.sorted.inserts⟩

variable {m}

/-- What is found after entries were inserted. -/
theorem find_inserts (es : HeaderMap) (key' : List UInt8) :
    (m.inserts es).find key' = (m.find key').or (OrdMap.find foldCase es (foldCase key')) :=
  OrdMap.find_inserts m.sorted

end MapType

end Megalo
