import Megalo.ByteArray.Strings
import Megalo.ByteArray.File

/-!
# The members that read, at the end of the chain

- `m_cur` is null when the position is the capacity. `toString` and `getReadBuffers` return before they look at it when
  there is nothing to read; `read`, its `const` sibling and the members that read a string look at it first;
- `Reader` is a call of one of them, `Reader.Fits` that there is as much as it asks for; `reader_completes_iff` says
  when it then returns;
- the buffers of `getReadBuffers` do not overlap and none is empty (`gatherLoop_apart`); they have the bytes that
  `toString` returns and that `read` would deliver (`gather_agrees_iff`).
-/

namespace Megalo

open Overwrite MachineInt

namespace ByteArray

/-! ## The calls -/

/-- The length in front of a string. -/
def StringKind.readLength : StringKind → BufferM Nat
  | f16 => do return (← readFuint16).toNat
  | f32 => do return (← readFuint32).toNat
  | f64 => do return (← readFuint64).toNat
  | vint => do return (← readUint64).toNat

/-- A call that reads; `readAt` is `read(buf, size, getPosition())`. -/
inductive Reader
  | read (size : Nat)
  | readAt (size : Nat)
  | toString
  | getReadBuffers (len : Nat)
  | string (k : StringKind)

namespace Reader

def run : Reader → BufferM Unit
  | read size => do let _ ← ByteArray.read size
  | readAt size => do
    let b ← get
    let _ ← ByteArray.readAt size b.position
  | toString => do let _ ← ByteArray.toString
  | getReadBuffers len => do let _ ← ByteArray.getReadBuffers len
  | string k => do let _ ← k.read

/-- There is as much as is asked for; of a string, as much as the length in front of it says, which a `std::string` can
hold. -/
def Fits (b : ByteArray) : Reader → Prop
  | read n | readAt n | getReadBuffers n => n ≤ b.getReadSize
  | toString => True
  | string k => ∃ len b', k.readLength b = .ok len b' ∧ len ≤ b'.getReadSize ∧ len ≤ stringMaxSize

/-- The call returns. -/
def Completes (b : ByteArray) (r : Reader) : Prop := ∃ b', r.run b = .ok () b'

/-- The call asks for no bytes where the position, behind the length of a string, is the end of the chain. -/
def NothingAtEnd (b : ByteArray) : Reader → Prop
  | read n | readAt n => n = 0 ∧ b.position = b.capacity
  | toString | getReadBuffers _ => False
  | string k => ∃ b', k.readLength b = .ok 0 b' ∧ b'.position = b'.capacity

end Reader

section

variable {b b' : ByteArray} {n : Nat}

/-- A member that reads a string reads its length, and then so many characters. -/
theorem StringKind.read_eq (k : StringKind) : k.read = k.readLength >>= readChars := by
  cases k <;> simp [StringKind.read, StringKind.readLength, readStringF16, readStringF32, readStringF64, readStringVint]

theorem StringKind.keeps_readLength (k : StringKind) : Keeps k.readLength := by
  cases k with
  | f16 => exact ((keeps_readFixed 2).bind fun _ => keeps_pure _).bind fun _ => keeps_pure _
  | f32 => exact ((keeps_readFixed 4).bind fun _ => keeps_pure _).bind fun _ => keeps_pure _
  | f64 => exact ((keeps_readFixed 8).bind fun _ => keeps_pure _).bind fun _ => keeps_pure _
  | vint => exact (keeps_readVarint64 _ _).bind fun _ => keeps_pure _

/-! ## At the end of the chain -/

/-- At the end of the chain there is nothing to read. -/
theorem Inv.eq_zero (h : b.Inv) (hn : n ≤ b.getReadSize) (hp : b.position = b.capacity) : n = 0 := by
  have hsize := h.size
  have hposition := h.position
  rw [h.getReadSize] at hn
  omega

theorem Inv.lt_capacity (h : b.Inv) (hp : b.position ≠ b.capacity) : b.position < b.capacity := by
  have hsize := h.size
  have hposition := h.position
  omega

theorem read_ok_iff (h : b.Inv) (hn : n ≤ b.getReadSize) :
    (∃ bytes b', read n b = .ok bytes b') ↔ ¬(n = 0 ∧ b.position = b.capacity) := by
  have hle : b.position + n ≤ b.size := by
    have hposition := h.position
    rw [h.getReadSize] at hn
    omega
  by_cases hp : b.position = b.capacity
  · refine iff_of_false ?_ fun hnot => hnot ⟨h.eq_zero hn hp, hp⟩
    rintro ⟨bytes, b', hr⟩
    rw [read_null h hle (by omega)] at hr
    cases hr
  · obtain ⟨cur, hr, -⟩ := read_spec h hle (h.lt_capacity hp)
    exact iff_of_true ⟨_, _, hr⟩ fun hnot => hp hnot.2

theorem readAt_ok_iff (h : b.Inv) (hn : n ≤ b.getReadSize) :
    (∃ bytes b', readAt n b.position b = .ok bytes b') ↔ ¬(n = 0 ∧ b.position = b.capacity) := by
  have hsize := h.size
  have hposition := h.position
  have hread := h.getReadSize
  rw [readAt_eq h (Nat.not_lt.2 hn), readStart_of_node rfl]
  by_cases hp : b.position = b.capacity
  · rw [if_neg fun hand => Nat.ne_of_lt hand.1 hp]
    refine iff_of_false ?_ fun hnot => hnot ⟨h.eq_zero hn hp, hp⟩
    rintro ⟨bytes, b', hr⟩
    cases hr
  · rw [if_pos ⟨h.lt_capacity hp, by omega⟩]
    exact iff_of_true ⟨_, _, rfl⟩ fun hnot => hp hnot.2

theorem readChars_ok_iff (h : b.Inv) (hn : n ≤ b.getReadSize) (hmax : n ≤ stringMaxSize) :
    (∃ bytes b', readChars n b = .ok bytes b') ↔ ¬(n = 0 ∧ b.position = b.capacity) := by
  have hle : ¬n > stringMaxSize := Nat.not_lt.2 hmax
  rw [← read_ok_iff h hn]
  simp only [readChars, hle, if_false]

/-! ## The buffers -/

/-- `len > size ? size : len`. -/
theorem clamp_eq (len size : Nat) : (if len > size then size else len) = min len size := by
  rw [min_def]
  split <;> split <;> omega

/-- `getReadBuffers` of any length. -/
theorem getReadBuffers_min (h : b.Inv) (len : Nat) : ∃ iovs,
    getReadBuffers len b = .ok (iovs, min len b.getReadSize) b ∧ Apart iovs ∧
      gather b.nodes iovs = .ok (slice b.content b.position (min len b.getReadSize)) := by
  have hsize := h.size
  have hposition := h.position
  have hle : b.position + min len b.getReadSize ≤ b.size := by
    rw [h.getReadSize]
    omega
  simp only [getReadBuffers, BufferM.get_bind, clamp_eq]
  generalize min len b.getReadSize = m at hle ⊢
  rcases Nat.eq_zero_or_pos m with rfl | hpos
  · exact ⟨[], rfl, ⟨by simp, List.Pairwise.nil⟩, by rw [slice_zero]; rfl⟩
  · obtain ⟨iovs, hrun, hcovers, hapart⟩ := h.gather hpos (by omega)
    refine ⟨iovs, ?_, hapart, gather_content h hcovers hle⟩
    rw [if_neg (Nat.ne_of_gt hpos), BufferM.bind_ok hrun, BufferM.pure_apply]

/-! ## What completes -/

/-- A call whose result is dropped. -/
theorem drop_result {β : Type} {m : BufferM β} :
    (∃ b', (do let _ ← m) b = .ok () b') ↔ ∃ v b', m b = .ok v b' := by
  constructor
  · rintro ⟨b', hr⟩
    cases hm : m b with
    | ok v b₁ => exact ⟨v, b₁, rfl⟩
    | error f b₁ =>
      rw [BufferM.bind_error hm] at hr
      cases hr
  · rintro ⟨v, b', hm⟩
    exact ⟨b', BufferM.bind_ok hm _⟩

/-- A string behind its length. -/
theorem StringKind.read_ok_iff (k : StringKind) {len : Nat} (hlen : k.readLength b = .ok len b') :
    (∃ s b₂, k.read b = .ok s b₂) ↔ ∃ s b₂, readChars len b' = .ok s b₂ := by
  rw [k.read_eq, BufferM.bind_ok hlen]

theorem reader_completes (h : b.Inv) {r : Reader} (hfits : r.Fits b) : r.Completes b ↔ ¬ r.NothingAtEnd b := by
  cases r with
  | read n => exact drop_result.trans (read_ok_iff h hfits)
  | readAt n => exact drop_result.trans (readAt_ok_iff h hfits)
  | toString => exact iff_of_true (drop_result.2 ⟨_, b, toString_spec h⟩) id
  | getReadBuffers n =>
    obtain ⟨iovs, hrun, -⟩ := getReadBuffers_min h n
    exact iff_of_true (drop_result.2 ⟨_, b, hrun⟩) id
  | string k =>
    obtain ⟨len, b', hlen, hle, hmax⟩ := hfits
    have hi : b'.Inv := k.keeps_readLength b b' h (by rw [hlen]; rfl)
    refine drop_result.trans ((k.read_ok_iff hlen).trans ((readChars_ok_iff hi hle hmax).trans (not_congr ?_)))
    constructor
    · rintro ⟨rfl, hp⟩
      exact ⟨b', hlen, hp⟩
    · rintro ⟨b₂, hlen₂, hp⟩
      obtain ⟨rfl, rfl⟩ := EStateM.Result.ok.inj (hlen.symm.trans hlen₂)
      exact ⟨rfl, hp⟩

end

/-- Two buffers have no byte in common. -/
def disjoint (v w : IoVec) : Prop := v.node ≠ w.node ∨ v.offset + v.len ≤ w.offset ∨ w.offset + w.len ≤ v.offset

/-- The buffers of `getReadBuffers` are what `toString` begins with and what `read` delivers. -/
def GatherAgrees (b : ByteArray) (len : Nat) : Prop :=
  ∃ iovs str, getReadBuffers len b = .ok (iovs, min len b.getReadSize) b ∧ iovs.Pairwise disjoint ∧
    (∀ v ∈ iovs, 0 < v.len) ∧ toString b = .ok str b ∧ gather b.nodes iovs = .ok (str.take (min len b.getReadSize)) ∧
    ∃ b', read (min len b.getReadSize) b = .ok (str.take (min len b.getReadSize)) b'

theorem gatherAgrees_iff {b : ByteArray} (h : b.Inv) (len : Nat) : b.GatherAgrees len ↔ b.position ≠ b.capacity := by
  have hsize := h.size
  have hposition := h.position
  have hle : min len b.getReadSize ≤ b.getReadSize := Nat.min_le_right _ _
  constructor
  · rintro ⟨iovs, str, -, -, -, -, -, b', hr⟩ hp
    exact (read_ok_iff h hle).1 ⟨_, b', hr⟩ ⟨h.eq_zero hle hp, hp⟩
  · intro hp
    obtain ⟨iovs, hrun, ⟨hlens, hnodes⟩, hgather⟩ := getReadBuffers_min h len
    have htake : (b.content.drop b.position).take (min len b.getReadSize) =
        slice b.content b.position (min len b.getReadSize) := rfl
    have hread := h.getReadSize
    obtain ⟨cur, hr, -⟩ := read_spec h (n := min len b.getReadSize) (by omega) (h.lt_capacity hp)
    refine ⟨iovs, b.content.drop b.position, hrun, hnodes.imp fun hlt => .inl (Nat.ne_of_lt hlt), hlens,
      toString_spec h, ?_, ?_⟩
    · rw [hgather, htake]
    · rw [htake]
      exact ⟨_, hr⟩

end ByteArray

/-- **Reads that fit.** In every reachable array, a call that asks for no more than there is returns, unless it is
`read`, its `const` sibling or a member that reads a string, the number of bytes is 0, and the position, behind the
length of the string, is the capacity. -/
theorem reader_completes_iff {b : ByteArray} (h : streamSys.Reachable b) (r : ByteArray.Reader) (hfits : r.Fits b) :
    r.Completes b ↔ ¬ r.NothingAtEnd b :=
  ByteArray.reader_completes (inv_streamed h) hfits

/-- Nodes of two bytes, and the length of an empty string that fills one. -/
theorem reader_completes_iff_node : ∃ b : ByteArray, b.position = 0 ∧ (ByteArray.Reader.read 2).Completes b := by
  obtain ⟨b, hb, hp⟩ := streamSys.reachable_of_exec (.new 2 fun _ _ => 0) ⟨2, _, by decide, rfl⟩
    [.call (.writeValue (.stringF16 [])), .call (.setPosition 0)]
    (p := fun b => b.position == 0 && decide (2 ≤ b.getReadSize)) rfl
  rw [Bool.and_eq_true, beq_iff_eq, decide_eq_true_eq] at hp
  exact ⟨b, hp.1, (reader_completes_iff hb (.read 2) hp.2).2 fun h => absurd h.1 (by decide)⟩

/-- The same array: the empty string that was written is not read back. -/
theorem empty_string_null : ∃ b : ByteArray, streamSys.Reachable b ∧ (ByteArray.Reader.string .f16).Fits b ∧
    ¬ (ByteArray.Reader.string .f16).Completes b := by
  obtain ⟨b, hb, hp⟩ := streamSys.reachable_of_exec (.new 2 fun _ _ => 0) ⟨2, _, by decide, rfl⟩
    [.call (.writeValue (.stringF16 [])), .call (.setPosition 0)]
    (p := fun b => match ByteArray.StringKind.readLength .f16 b with
      | .ok len b' => len == 0 && b'.position == b'.capacity
      | .error _ _ => false) rfl
  cases hlen : ByteArray.StringKind.readLength .f16 b with
  | error f b' =>
    rw [hlen] at hp
    cases hp
  | ok len b' =>
    rw [hlen, Bool.and_eq_true, beq_iff_eq, beq_iff_eq] at hp
    obtain ⟨rfl, hend⟩ := hp
    have hfits : (ByteArray.Reader.string .f16).Fits b := ⟨0, b', hlen, Nat.zero_le _, Nat.zero_le _⟩
    exact ⟨b, hb, hfits, fun h => (ByteArray.reader_completes (inv_streamed hb) hfits).1 h ⟨b', hlen, hend⟩⟩

/-- **Gathering agrees with copying**: from every reachable array whose position is not the capacity, `getReadBuffers`
returns as much as there is of what is asked for and appends buffers that are not empty and do not overlap, with the
first bytes of `toString`, which are those that `read` delivers. At the capacity `read` of no bytes does not return. -/
theorem gather_agrees_iff {b : ByteArray} (h : streamSys.Reachable b) (len : Nat) :
    b.GatherAgrees len ↔ b.position ≠ b.capacity :=
  ByteArray.gatherAgrees_iff (inv_streamed h) len

/-- Two nodes of two bytes, from the second byte on. -/
theorem gather_agrees_iff_nodes : ∃ b : ByteArray, b.getReadSize = 3 ∧ b.GatherAgrees 9 := by
  obtain ⟨b, hb, hp⟩ := streamSys.reachable_of_exec (.new 2 fun _ _ => 0) ⟨2, _, by decide, rfl⟩
    [.call (.write [1, 2, 3, 4]), .call (.setPosition 1)]
    (p := fun b => b.getReadSize == 3 && b.position == 1 && b.capacity == 4) rfl
  simp only [Bool.and_eq_true, beq_iff_eq] at hp
  obtain ⟨⟨hread, hpos⟩, hcap⟩ := hp
  exact ⟨b, hread, (gather_agrees_iff hb 9).2 (by rw [hpos, hcap]; decide)⟩

/-- The end of the first node, with nothing to read. -/
theorem read_nothing_null : ∃ b : ByteArray, streamSys.Reachable b ∧ ¬ b.GatherAgrees 0 := by
  obtain ⟨b, hb, hp⟩ := streamSys.reachable_of_exec (.new 2 fun _ _ => 0) ⟨2, _, by decide, rfl⟩
    [.call (.write [1, 2])] (p := fun b => b.position == b.capacity) rfl
  exact ⟨b, hb, fun h => (ByteArray.gatherAgrees_iff (inv_streamed hb) 0).1 h (beq_iff_eq.1 hp)⟩

end Megalo
