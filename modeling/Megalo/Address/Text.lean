import Megalo.Address.Basic
import Megalo.Util.Digits
import Mathlib.Data.List.TakeWhile

/-!
# The text of an IPv6 address

- `IPv6Address.insert` writes the groups of an address in hexadecimal, and leaves out the first zeros among them;
- `readAddress` reads the two forms of RFC 4291 that have no IPv4 part: eight groups of one to four digits, or less with
  one `::` for the rest of them; `readText` reads such a text in brackets, and the port behind it;
- the loop joins the groups in front of the first zeros, and those behind them (`insert_eq`), so that what is written
  is read back (`readText_insert`) and no two addresses or ports are written alike (`ipv6_text_unambiguous`).
-/

namespace Megalo

/-! ## Writing -/

/-- The cast of the bytes to `uint16_t`. -/
def uint16s : List UInt8 → List (BitVec 16)
  | b :: b' :: bytes => ByteArray.ofHostBytes 2 [b, b'] :: uint16s bytes
  | _ => []

/-- What is written for a group. -/
def groupText (g : BitVec 16) : List UInt8 := hex (byteswapOnLittleEndian 2 g).toNat

/-- The loop of `insert` over the groups from one on, with the group in front of it and `used_zeros`. -/
def insertLoop : Option (BitVec 16) → List (BitVec 16) → Bool → List UInt8 → List UInt8 × Bool
  | _, [], usedZeros, os => (os, usedZeros)
  | last, g :: gs, usedZeros, os =>
    if g = 0 ∧ usedZeros = false then insertLoop (some g) gs usedZeros os
    else
      let zeros := last = some 0 ∧ usedZeros = false
      let os := if zeros then os ++ bytes ":" else os
      let usedZeros := if zeros then true else usedZeros
      let os := if last.isSome then os ++ bytes ":" else os
      insertLoop (some g) gs usedZeros (os ++ groupText g)

/-- `insert`. -/
def IPv6Address.insert (a : IPv6Address) : List UInt8 :=
  let addr := uint16s a.addr.addr.toList
  let r := insertLoop none addr false (bytes "[")
  let os := if r.2 = false ∧ addr.getLast? = some 0 then r.1 ++ bytes "::" else r.1
  os ++ bytes "]:" ++ decimal (byteswapOnLittleEndian 2 a.addr.port).toNat

/-! ## Reading -/

/-- A group of one to four hexadecimal digits. -/
def readGroup (s : List UInt8) : Option ℕ :=
  if s ≠ [] ∧ s.length ≤ 4 ∧ s.all isxdigit then some (digitsValue 16 s) else none

/-- Groups with a colon between them, or none. -/
def readGroups (s : List UInt8) : Option (List ℕ) :=
  if s = [] then some [] else (s.splitOn 58).mapM readGroup

/-- What is in front of the first `::` and behind it. -/
def splitDouble : List UInt8 → Option (List UInt8 × List UInt8)
  | 58 :: 58 :: s => some ([], s)
  | c :: s => (splitDouble s).map fun r => (c :: r.1, r.2)
  | [] => none

/-- The eight groups of an address. -/
def readAddress (s : List UInt8) : Option (List ℕ) :=
  match splitDouble s with
  | none => (readGroups s).filter fun gs => gs.length = 8
  | some (front, back) => do
    let front ← readGroups front
    let back ← readGroups back
    if front.length + back.length < 8 then
      some (front ++ List.replicate (8 - (front.length + back.length)) 0 ++ back)
    else none

/-- The bytes of a group. -/
def groupBytes (g : ℕ) : List UInt8 := [UInt8.ofNat (g / 256), UInt8.ofNat (g % 256)]

/-- A decimal number. -/
def readDecimal (s : List UInt8) : Option ℕ :=
  if s ≠ [] ∧ s.all (fun c => 48 ≤ c ∧ c ≤ 57) then some (digitsValue 10 s) else none

/-- The bytes of an address in brackets, and the port behind a colon. -/
def readText : List UInt8 → Option (List UInt8 × ℕ)
  | 91 :: s =>
    match s.dropWhile (· ≠ 93) with
    | 93 :: 58 :: port => do
      let gs ← readAddress (s.takeWhile (· ≠ 93))
      let port ← readDecimal port
      return (gs.flatMap groupBytes, port)
    | _ => none
  | _ => none

/-! ## Groups that are joined -/

/-- Groups behind another one. -/
def tailText (gs : List (BitVec 16)) : List UInt8 := gs.flatMap fun g => 58 :: groupText g

/-- Groups with a colon between them. -/
def joinText : List (BitVec 16) → List UInt8
  | [] => []
  | g :: gs => groupText g ++ tailText gs

theorem tailText_eq {gs : List (BitVec 16)} (h : gs ≠ []) : tailText gs = 58 :: joinText gs := by
  cases gs with
  | nil => exact absurd rfl h
  | cons g gs => rfl

theorem groupText_ne_nil (g : BitVec 16) : groupText g ≠ [] := digits_ne_nil 16 _

theorem isxdigit_of_mem_groupText {g : BitVec 16} {c : UInt8} (h : c ∈ groupText g) : isxdigit c = true :=
  isxdigit_of_mem_hex h

theorem colon_notMem_groupText (g : BitVec 16) : 58 ∉ groupText g :=
  fun h => absurd (isxdigit_of_mem_groupText h) (by decide)

theorem bracket_notMem_joinText (gs : List (BitVec 16)) : 93 ∉ joinText gs := by
  have hgroup : ∀ g, 93 ∉ groupText g := fun g h => absurd (isxdigit_of_mem_groupText h) (by decide)
  have htail : 93 ∉ tailText gs := by
    intro h
    obtain ⟨g, -, hg⟩ := List.mem_flatMap.mp h
    rcases List.mem_cons.mp hg with heq | hg
    · cases heq
    · exact hgroup g hg
  cases gs with
  | nil => exact List.not_mem_nil
  | cons g gs =>
    intro h
    exact htail (List.mem_cons_of_mem _ h)

/-! ## The loop -/

/-- The groups in front of the first zeros. -/
def frontGroups (gs : List (BitVec 16)) : List (BitVec 16) := gs.takeWhile fun g => g ≠ 0

/-- The first zeros, and all behind them. -/
def restGroups (gs : List (BitVec 16)) : List (BitVec 16) := gs.dropWhile fun g => g ≠ 0

/-- The groups behind zeros. -/
def dropZeros (gs : List (BitVec 16)) : List (BitVec 16) := gs.dropWhile fun g => g = 0

section Loop

variable {x g : BitVec 16} (gs : List (BitVec 16)) (os : List UInt8)

@[simp] theorem frontGroups_zero : frontGroups (0 :: gs) = [] := rfl

@[simp] theorem frontGroups_cons (hg : g ≠ 0) : frontGroups (g :: gs) = g :: frontGroups gs :=
  List.takeWhile_cons_of_pos (decide_eq_true hg)

@[simp] theorem restGroups_zero : restGroups (0 :: gs) = 0 :: gs := rfl

@[simp] theorem restGroups_cons (hg : g ≠ 0) : restGroups (g :: gs) = restGroups gs :=
  List.dropWhile_cons_of_pos (decide_eq_true hg)

@[simp] theorem dropZeros_zero : dropZeros (0 :: gs) = dropZeros gs := rfl

@[simp] theorem dropZeros_cons (hg : g ≠ 0) : dropZeros (g :: gs) = g :: gs :=
  List.dropWhile_cons_of_neg fun h => hg (of_decide_eq_true h)

theorem insertLoop_zero (last : Option (BitVec 16)) :
    insertLoop last (0 :: gs) false os = insertLoop (some 0) gs false os := by
  rw [insertLoop, if_pos ⟨rfl, rfl⟩]

theorem insertLoop_first (hg : g ≠ 0) :
    insertLoop none (g :: gs) false os = insertLoop (some g) gs false (os ++ groupText g) := by
  rw [insertLoop, if_neg fun h => hg h.1]
  rfl

theorem insertLoop_next (hx : x ≠ 0) (hg : g ≠ 0) :
    insertLoop (some x) (g :: gs) false os = insertLoop (some g) gs false (os ++ 58 :: groupText g) := by
  have hlast : ¬ (some x = some 0 ∧ True) := fun h => hx (Option.some.inj h.1)
  rw [insertLoop, if_neg fun h => hg h.1]
  simp only [if_neg hlast, Option.isSome_some, if_true, List.append_assoc]
  rfl

theorem insertLoop_behind (hg : g ≠ 0) :
    insertLoop (some 0) (g :: gs) false os = insertLoop (some g) gs true (os ++ 58 :: 58 :: groupText g) := by
  rw [insertLoop, if_neg fun h => hg h.1]
  simp only [and_self, if_true, Option.isSome_some, List.append_assoc]
  rfl

/-- Behind the zeros that are left out, every group is written. -/
theorem insertLoop_used : insertLoop (some x) gs true os = (os ++ tailText gs, true) := by
  induction gs generalizing x os with
  | nil => rw [insertLoop, tailText, List.flatMap_nil, List.append_nil]
  | cons g gs ih =>
    rw [insertLoop, if_neg fun h => Bool.noConfusion h.2]
    simp only [Bool.true_eq_false, and_false, if_false, Option.isSome_some, if_true]
    rw [ih, tailText, tailText, List.flatMap_cons, List.append_assoc, List.append_assoc]
    rfl

/-- In the first zeros, nothing is written before there is a group behind them. -/
theorem insertLoop_zeros : insertLoop (some 0) gs false os =
    if dropZeros gs = [] then (os, false) else (os ++ 58 :: tailText (dropZeros gs), true) := by
  induction gs generalizing os with
  | nil => rfl
  | cons g gs ih =>
    by_cases hg : g = 0
    · subst hg
      rw [insertLoop_zero, ih, dropZeros_zero]
    · rw [insertLoop_behind gs os hg, insertLoop_used, dropZeros_cons gs hg, if_neg (List.cons_ne_nil _ _),
        List.append_assoc]
      rfl

/-- In front of the first zeros, every group is written. -/
theorem insertLoop_front (hx : x ≠ 0) : insertLoop (some x) gs false os =
    insertLoop (some 0) (restGroups gs) false (os ++ tailText (frontGroups gs)) := by
  induction gs generalizing x os with
  | nil => simp [insertLoop, tailText, frontGroups, restGroups]
  | cons g gs ih =>
    by_cases hg : g = 0
    · subst hg
      rw [insertLoop_zero, frontGroups_zero, restGroups_zero, insertLoop_zero, tailText, List.flatMap_nil,
        List.append_nil]
    · rw [insertLoop_next gs os hx hg, ih _ hg, frontGroups_cons gs hg, restGroups_cons gs hg, tailText, tailText,
        List.flatMap_cons, List.append_assoc]

/-- The whole loop: the groups in front of the first zeros, and those behind them. -/
theorem insertLoop_eq : insertLoop none gs false os =
    if dropZeros (restGroups gs) = [] then (os ++ joinText (frontGroups gs), false)
    else (os ++ joinText (frontGroups gs) ++ 58 :: tailText (dropZeros (restGroups gs)), true) := by
  rw [← insertLoop_zeros]
  cases gs with
  | nil => simp [insertLoop, joinText, frontGroups, restGroups]
  | cons g gs =>
    by_cases hg : g = 0
    · subst hg
      rw [insertLoop_zero, frontGroups_zero, restGroups_zero, insertLoop_zero, joinText, List.append_nil]
    · rw [insertLoop_first gs os hg, insertLoop_front gs _ hg, frontGroups_cons gs hg, restGroups_cons gs hg, joinText,
        List.append_assoc]

end Loop

/-- The text of groups. -/
def addressText (gs : List (BitVec 16)) : List UInt8 :=
  if restGroups gs = [] then joinText gs
  else joinText (frontGroups gs) ++ 58 :: 58 :: joinText (dropZeros (restGroups gs))

theorem frontGroups_append (gs : List (BitVec 16)) : frontGroups gs ++ restGroups gs = gs :=
  List.takeWhile_append_dropWhile

/-- The first zeros. -/
theorem restGroups_eq (gs : List (BitVec 16)) : ∃ k, restGroups gs = List.replicate k 0 ++ dropZeros (restGroups gs) ∧
    (restGroups gs ≠ [] → 0 < k) := by
  refine ⟨((restGroups gs).takeWhile fun g => g = 0).length, ?_, ?_⟩
  · have hzeros : (restGroups gs).takeWhile (fun g => g = 0) =
        List.replicate ((restGroups gs).takeWhile fun g => g = 0).length 0 := by
      refine List.eq_replicate_of_mem fun g hg => ?_
      exact of_decide_eq_true (List.mem_takeWhile_imp (p := fun g : BitVec 16 => g = 0) hg)
    rw [← hzeros]
    exact List.takeWhile_append_dropWhile.symm
  · intro hne
    have hhead : decide ((restGroups gs).head hne ≠ 0) = false := List.head_dropWhile_not _ hne
    have hzero : (restGroups gs).head hne = 0 := not_not.mp (of_decide_eq_false hhead)
    obtain ⟨g, rest, hrest⟩ := List.exists_cons_of_ne_nil hne
    simp only [hrest, List.head_cons] at hzero
    rw [hrest, hzero, List.takeWhile_cons_of_pos (by simp)]
    exact Nat.succ_pos _

/-- Where no group is behind the first zeros, the last one shows whether there are any. -/
theorem getLast?_eq_zero_iff {gs : List (BitVec 16)} (h : dropZeros (restGroups gs) = []) :
    gs.getLast? = some 0 ↔ restGroups gs ≠ [] := by
  have happend := frontGroups_append gs
  constructor
  · intro hlast hnil
    rw [hnil, List.append_nil] at happend
    rw [← happend] at hlast
    have hne := List.mem_takeWhile_imp (List.mem_of_getLast? hlast)
    exact absurd rfl (of_decide_eq_true hne)
  · intro hne
    obtain ⟨k, hk, hpos⟩ := restGroups_eq gs
    obtain ⟨j, rfl⟩ := Nat.exists_eq_succ_of_ne_zero (Nat.ne_of_gt (hpos hne))
    rw [h, List.append_nil] at hk
    rw [← happend, hk, List.replicate_succ', ← List.append_assoc, List.getLast?_concat]

/-- What `insert` writes. -/
theorem insert_eq (a : IPv6Address) : a.insert = bytes "[" ++ addressText (uint16s a.addr.addr.toList) ++
    bytes "]:" ++ decimal (byteswapOnLittleEndian 2 a.addr.port).toNat := by
  rw [IPv6Address.insert]
  simp only [insertLoop_eq]
  congr 2
  by_cases hback : dropZeros (restGroups (uint16s a.addr.addr.toList)) = []
  · simp only [if_pos hback, true_and, getLast?_eq_zero_iff hback, addressText]
    by_cases hrest : restGroups (uint16s a.addr.addr.toList) = []
    · have happend := frontGroups_append (uint16s a.addr.addr.toList)
      rw [hrest, List.append_nil] at happend
      rw [if_neg (not_not_intro hrest), if_pos hrest, happend]
    · rw [if_pos hrest, if_neg hrest, hback, List.append_assoc]
      rfl
  · have hrest : restGroups (uint16s a.addr.addr.toList) ≠ [] := by
      intro hrest
      rw [hrest] at hback
      exact hback rfl
    rw [if_neg hback, if_neg (by simp), addressText, if_neg hrest, tailText_eq hback, List.append_assoc]

/-! ## Reading what was written -/

/-- The number of a group. -/
def groupValue (g : BitVec 16) : ℕ := (byteswapOnLittleEndian 2 g).toNat

theorem groupValue_zero : groupValue 0 = 0 := by decide

theorem readGroup_groupText (g : BitVec 16) : readGroup (groupText g) = some (groupValue g) := by
  have hlt : groupValue g < 16 ^ 4 := (byteswapOnLittleEndian 2 g).isLt
  have hlen : (groupText g).length ≤ 4 := length_hex_le (by decide) hlt
  have hall : (groupText g).all isxdigit = true := List.all_eq_true.mpr fun c hc => isxdigit_of_mem_groupText hc
  rw [readGroup, if_pos ⟨groupText_ne_nil g, hlen, hall⟩]
  exact congrArg some (digitsValue_digits (by decide) (by decide) _)

theorem joinText_eq (gs : List (BitVec 16)) : joinText gs = [58].intercalate (gs.map groupText) := by
  induction gs with
  | nil => rfl
  | cons g gs ih =>
    cases gs with
    | nil => simp [joinText, tailText]
    | cons g' gs =>
      rw [List.map_cons, List.map_cons, List.intercalate_cons_cons, ← List.map_cons, ← ih, joinText,
        tailText_eq (List.cons_ne_nil _ _), List.append_assoc]
      rfl

theorem mapM_readGroup (gs : List (BitVec 16)) : (gs.map groupText).mapM readGroup = some (gs.map groupValue) := by
  induction gs with
  | nil => rfl
  | cons g gs ih => simp [List.mapM_cons, readGroup_groupText, ih]

theorem readGroups_joinText (gs : List (BitVec 16)) : readGroups (joinText gs) = some (gs.map groupValue) := by
  cases gs with
  | nil => rfl
  | cons g gs =>
    have hne : joinText (g :: gs) ≠ [] := List.append_ne_nil_of_left_ne_nil (groupText_ne_nil g) _
    have hcolon : ∀ s ∈ (g :: gs).map groupText, 58 ∉ s := by
      intro s hs
      obtain ⟨g', -, rfl⟩ := List.mem_map.mp hs
      exact colon_notMem_groupText g'
    rw [readGroups, if_neg hne, joinText_eq, List.splitOn_intercalate 58 hcolon (by simp), mapM_readGroup]

theorem splitDouble_append {l : List UInt8} (h : 58 ∉ l) (s : List UInt8) :
    splitDouble (l ++ s) = (splitDouble s).map fun r => (l ++ r.1, r.2) := by
  induction l with
  | nil => simp
  | cons c l ih =>
    have hc : c ≠ 58 := fun hc => h (hc ▸ List.mem_cons_self)
    have hl : 58 ∉ l := fun hl => h (List.mem_cons_of_mem _ hl)
    rw [List.cons_append, splitDouble, ih hl, Option.map_map]
    · rfl
    · intro s' hs
      exact absurd hs hc

theorem splitDouble_colon {c : UInt8} (h : c ≠ 58) (s : List UInt8) :
    splitDouble (58 :: c :: s) = (splitDouble (c :: s)).map fun r => (58 :: r.1, r.2) := by
  rw [splitDouble]
  intro s' _ hs
  exact h (List.cons.inj hs).1

theorem splitDouble_tailText (gs : List (BitVec 16)) (s : List UInt8) :
    splitDouble (tailText gs ++ s) = (splitDouble s).map fun r => (tailText gs ++ r.1, r.2) := by
  induction gs with
  | nil => simp [tailText]
  | cons g gs ih =>
    have hgroup := splitDouble_append (colon_notMem_groupText g) (tailText gs ++ s)
    obtain ⟨c, l, hl⟩ := List.exists_cons_of_ne_nil (groupText_ne_nil g)
    have hc : c ≠ 58 := by
      rintro rfl
      exact colon_notMem_groupText g (hl ▸ List.mem_cons_self)
    rw [tailText, List.flatMap_cons, ← tailText, List.append_assoc, List.cons_append, hl, List.cons_append,
      splitDouble_colon hc, ← List.cons_append, ← hl, hgroup, ih, Option.map_map, Option.map_map]
    congr 1
    funext r
    simp

theorem splitDouble_joinText (gs : List (BitVec 16)) (s : List UInt8) :
    splitDouble (joinText gs ++ s) = (splitDouble s).map fun r => (joinText gs ++ r.1, r.2) := by
  cases gs with
  | nil => simp [joinText]
  | cons g gs =>
    rw [joinText, List.append_assoc, splitDouble_append (colon_notMem_groupText g), splitDouble_tailText,
      Option.map_map]
    congr 1
    funext r
    simp

/-- The text of eight groups is read as these. -/
theorem readAddress_addressText {gs : List (BitVec 16)} (h : gs.length = 8) :
    readAddress (addressText gs) = some (gs.map groupValue) := by
  by_cases hrest : restGroups gs = []
  · have hsplit : splitDouble (joinText gs) = none := by
      rw [← List.append_nil (joinText gs), splitDouble_joinText]
      rfl
    rw [addressText, if_pos hrest, readAddress, hsplit]
    simp only [readGroups_joinText]
    rw [Option.filter_some, if_pos (by simpa using h)]
  · obtain ⟨k, hk, hpos⟩ := restGroups_eq gs
    have happend := frontGroups_append gs
    rw [hk, ← List.append_assoc] at happend
    have hlen := congrArg List.length happend
    rw [List.length_append, List.length_append, List.length_replicate, h] at hlen
    have hk0 := hpos hrest
    have hsplit : splitDouble (joinText (frontGroups gs) ++ 58 :: 58 :: joinText (dropZeros (restGroups gs))) =
        some (joinText (frontGroups gs), joinText (dropZeros (restGroups gs))) := by
      rw [splitDouble_joinText, splitDouble, Option.map_some, List.append_nil]
    have hcount : 8 - ((frontGroups gs).length + (dropZeros (restGroups gs)).length) = k := by omega
    rw [addressText, if_neg hrest, readAddress, hsplit]
    simp only [readGroups_joinText, Option.bind_eq_bind, Option.bind_some, List.length_map]
    rw [if_pos (by omega), hcount]
    conv_rhs => rw [← happend]
    rw [List.map_append, List.map_append, List.map_replicate, groupValue_zero]

theorem groupValue_ofHostBytes (b b' : UInt8) :
    groupValue (ByteArray.ofHostBytes 2 [b, b']) = b.toNat * 256 + b'.toNat := by
  have hswap : byteswapOnLittleEndian 2 (ByteArray.ofHostBytes 2 [b, b']) = ByteArray.ofHostBytes 2 [b', b] := by
    rw [byteswapOnLittleEndian_eq, ByteArray.byteswap, ByteArray.hostBytes_ofHostBytes (n := 2) rfl]
    rfl
  have hb := b.toNat_lt
  have hb' := b'.toNat_lt
  rw [groupValue, hswap]
  have hmod : b.toNat % 2 ^ (8 * 2) = b.toNat := Nat.mod_eq_of_lt (by omega)
  have hmod' : b'.toNat % 2 ^ (8 * 2) = b'.toNat := Nat.mod_eq_of_lt (by omega)
  have hhigh : (b.toNat <<< 8) % 2 ^ (8 * 2) = b.toNat <<< 8 := by
    rw [Nat.shiftLeft_eq]
    omega
  have hzero : (0 : BitVec (8 * 2)).toNat <<< 8 % 2 ^ (8 * 2) = 0 := rfl
  simp only [ByteArray.ofHostBytes, List.foldr_cons, List.foldr_nil, BitVec.toNat_or, BitVec.toNat_shiftLeft,
    BitVec.toNat_setWidth, UInt8.toNat_toBitVec, hmod, hmod', hzero]
  rw [Nat.zero_or, hhigh, ← Nat.shiftLeft_add_eq_or_of_lt hb', Nat.shiftLeft_eq]

theorem groupBytes_groupValue (b b' : UInt8) :
    groupBytes (groupValue (ByteArray.ofHostBytes 2 [b, b'])) = [b, b'] := by
  have hb' := b'.toNat_lt
  have hdiv : (b.toNat * 256 + b'.toNat) / 256 = b.toNat := by omega
  have hmod : (b.toNat * 256 + b'.toNat) % 256 = b'.toNat := by omega
  rw [groupValue_ofHostBytes, groupBytes, hdiv, hmod, UInt8.ofNat_toNat, UInt8.ofNat_toNat]

/-- The groups of an even number of bytes, and their bytes. -/
theorem uint16s_spec (n : ℕ) {l : List UInt8} (h : l.length = 2 * n) :
    (uint16s l).length = n ∧ ((uint16s l).map groupValue).flatMap groupBytes = l := by
  induction n generalizing l with
  | zero =>
    obtain rfl := List.length_eq_zero_iff.mp h
    exact ⟨rfl, rfl⟩
  | succ n ih =>
    match l with
    | b :: b' :: l =>
      have hl : l.length = 2 * n := by
        rw [List.length_cons, List.length_cons] at h
        omega
      obtain ⟨hlen, hbytes⟩ := ih hl
      rw [uint16s, List.length_cons, hlen, List.map_cons, List.flatMap_cons, hbytes, groupBytes_groupValue]
      exact ⟨rfl, rfl⟩

theorem readDecimal_decimal (n : ℕ) : readDecimal (decimal n) = some n := by
  have hall : (decimal n).all (fun c => 48 ≤ c ∧ c ≤ 57) = true :=
    List.all_eq_true.mpr fun c hc => decide_eq_true (isDigit_of_mem_decimal hc)
  rw [readDecimal, if_pos ⟨digits_ne_nil 10 n, hall⟩]
  exact congrArg some (digitsValue_digits (by decide) (by decide) n)

theorem bracket_notMem_addressText (gs : List (BitVec 16)) : 93 ∉ addressText gs := by
  rw [addressText]
  split
  · exact bracket_notMem_joinText gs
  · intro h
    rcases List.mem_append.mp h with h | h
    · exact bracket_notMem_joinText _ h
    · simp only [List.mem_cons] at h
      obtain h | h | h := h
      · cases h
      · cases h
      · exact bracket_notMem_joinText _ h

/-- The text of an address and its port is read as the two. -/
theorem readText_insert (a : IPv6Address) :
    readText a.insert = some (a.addr.addr.toList, (byteswapOnLittleEndian 2 a.addr.port).toNat) := by
  obtain ⟨hlen, hbytes⟩ := uint16s_spec 8 (l := a.addr.addr.toList) (by simp)
  have hbracket := bracket_notMem_addressText (uint16s a.addr.addr.toList)
  have hpos : ∀ c ∈ addressText (uint16s a.addr.addr.toList), decide (c ≠ 93) = true :=
    fun c hc => decide_eq_true fun h => hbracket (h ▸ hc)
  have htext : a.insert = 91 :: (addressText (uint16s a.addr.addr.toList) ++ 93 :: 58 ::
      decimal (byteswapOnLittleEndian 2 a.addr.port).toNat) := by
    rw [insert_eq, List.append_assoc, List.append_assoc]
    rfl
  rw [htext, readText, List.dropWhile_append_of_pos hpos, List.takeWhile_append_of_pos hpos,
    List.dropWhile_cons_of_neg (by decide), List.takeWhile_cons_of_neg (by decide), List.append_nil]
  simp only [readAddress_addressText hlen, readDecimal_decimal, Option.bind_eq_bind, Option.bind_some]
  rw [hbytes]
  rfl

theorem toNat_getPort (a : IPv6Address) : a.getPort.toNat = (byteswapOnLittleEndian 2 a.addr.port).toNat :=
  BitVec.toNat_setWidth_of_le (by decide)

/-- **IPv6 text**: what `insert` writes is read as the bytes of the address and its port, so two are written alike only
where they agree in these. -/
theorem ipv6_text_unambiguous :
    (∀ a : IPv6Address, ∃ inside port, a.insert = bytes "[" ++ inside ++ bytes "]:" ++ port ∧ 93 ∉ inside ∧
      (readAddress inside).map (fun gs => gs.flatMap groupBytes) = some a.addr.addr.toList ∧
      readDecimal port = some a.getPort.toNat) ∧
    (∀ a b : IPv6Address, a.insert = b.insert ↔ a.addr.addr = b.addr.addr ∧ a.getPort = b.getPort) := by
  constructor
  · intro a
    obtain ⟨hlen, hbytes⟩ := uint16s_spec 8 (l := a.addr.addr.toList) (by simp)
    refine ⟨_, _, insert_eq a, bracket_notMem_addressText _, ?_, ?_⟩
    · rw [readAddress_addressText hlen, Option.map_some, hbytes]
    · rw [readDecimal_decimal, toNat_getPort]
  · intro a b
    constructor
    · intro h
      have hread := readText_insert a
      rw [h, readText_insert b] at hread
      obtain ⟨haddr, hport⟩ := Prod.mk.inj (Option.some.inj hread)
      rw [← toNat_getPort, ← toNat_getPort] at hport
      exact ⟨Vector.toList_inj.mp haddr.symm, BitVec.eq_of_toNat_eq hport.symm⟩
    · rintro ⟨haddr, hport⟩
      rw [insert_eq, insert_eq, haddr, ← toNat_getPort, ← toNat_getPort, hport]

end Megalo
