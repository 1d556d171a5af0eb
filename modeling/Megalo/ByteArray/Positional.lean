import Megalo.ByteArray.Reads

/-!
# Reading at a position that is passed

- `read(buf, size, position) const` takes the node from the cursor and the offset in it from `position`, so the byte
  that it reads first is at `readStart`; `readsAt_iff` says when that is right;
- `getReadBuffers(buffers, len, position)` finds the node of `position`, but asks for no more than there is to read
  from the cursor on (`getReadBuffersAt_spec`, `getReadBuffersAt_result`);
- so they do what they are for when `position` is in the node of the cursor, and when it is the cursor's position or
  little is asked for (`positional_read_iff`, `positional_buffers_iff`).
-/

namespace Megalo

open Overwrite MachineInt

namespace ByteArray

/-! ## `read(buf, size, position) const` -/

/-- There are no `n` bytes at `p` and `read` throws, or it returns them. -/
def ReadsAt (b : ByteArray) (p n : Nat) : Prop :=
  (b.size < p + n → readAt n p b = .error .outOfRange b) ∧
    (p + n ≤ b.size → readAt n p b = .ok (slice b.content p n) b)

/-- There are no `n` bytes at `p`, and the difference of the size and `p` does not wrap to `n` or more; or there is a
node under the cursor, from which on the chain has them too. -/
def Addressed (b : ByteArray) (p n : Nat) : Prop :=
  if b.size < p + n then p ≤ b.size ∨ b.size + 2 ^ 64 < p + n
  else b.position < b.capacity ∧ b.readStart p + n ≤ b.capacity ∧ slice b.bytes (b.readStart p) n = slice b.bytes p n

section Read

variable {b : ByteArray} {p n : Nat}

/-- Bytes of the content that begin in the node of the cursor. -/
theorem addressed_of_node (h : b.Inv) (hlt : b.position < b.capacity) (hn : p + n ≤ b.size)
    (hp : p / b.baseSize = b.position / b.baseSize) : b.Addressed p n := by
  rw [Addressed, if_neg (Nat.not_lt.2 hn), readStart_of_node hp]
  exact ⟨hlt, hn.trans h.size, rfl⟩

/-- `read` throws when the difference of the size and the position is not enough, and only then. -/
theorem readAt_outOfRange (h : b.Inv) : readAt n p b = .error .outOfRange b ↔ n > sizeSub b.size p := by
  constructor
  · intro hr
    by_contra hn
    rw [readAt_eq h hn] at hr
    split at hr <;> cases hr
  · intro hn
    simp only [readAt, BufferM.get_bind, hn, if_true]
    exact BufferM.bind_error (BufferM.throw_apply _) _

theorem readsAt_iff (h : b.Inv) (hp : p < 2 ^ 64) : b.ReadsAt p n ↔ b.Addressed p n := by
  rw [ReadsAt, Addressed]
  by_cases hn : b.size < p + n
  · have hwrap : n > sizeSub b.size p ↔ p ≤ b.size ∨ b.size + 2 ^ 64 < p + n := by
      rw [sizeSub]
      split <;> omega
    rw [if_pos hn, readAt_outOfRange h, hwrap]
    exact ⟨fun hr => hr.1 hn, fun hc => ⟨fun _ => hc, fun hle => absurd hn (Nat.not_lt.2 hle)⟩⟩
  · have hle := Nat.not_lt.1 hn
    have hgt : ¬n > sizeSub b.size p := by
      rw [sizeSub_of_le (by omega)]
      omega
    have hcontent : slice b.content p n = slice b.bytes p n := slice_take hle
    rw [if_neg hn, readAt_eq h hgt, hcontent]
    constructor
    · rintro ⟨-, hr⟩
      have hr := hr hle
      split at hr
      · rename_i hroom
        exact ⟨hroom.1, hroom.2, (EStateM.Result.ok.inj hr).1⟩
      · cases hr
    · rintro ⟨hlt, hroom, hbytes⟩
      refine ⟨fun hover => absurd hover hn, fun _ => ?_⟩
      rw [if_pos ⟨hlt, hroom⟩, hbytes]

end Read

/-! ## `getReadBuffers(buffers, len, position)` -/

/-- `getReadBuffers(buffers, len, position)`: what it appends to the vector, and its result. -/
def getReadBuffersAt (len position : Nat) : BufferM (List IoVec × Nat) := do
  let b ← get
  let len := if len > b.getReadSize then b.getReadSize else len
  if len = 0 then return ([], 0)
  let count := position / b.baseSize
  let iovs ← ofExcept (gatherLoop (b.nodes.drop count) count (position % b.baseSize) len)
  return (iovs, len)

/-- The buffers are the bytes at `p`, so many of them as there are and as are asked for. -/
def BuffersAt (b : ByteArray) (p len : Nat) : Prop :=
  ∃ iovs, getReadBuffersAt len p b = .ok (iovs, min len (b.size - p)) b ∧
    gather b.nodes iovs = .ok (slice b.content p (min len (b.size - p)))

section Buffers

variable {b : ByteArray} {p len : Nat}

/-- Its result is what there is to read from the cursor on. -/
theorem getReadBuffersAt_result {iovs : List IoVec} {m : Nat} {b' : ByteArray}
    (hr : getReadBuffersAt len p b = .ok (iovs, m) b') : m = min len b.getReadSize := by
  simp only [getReadBuffersAt, BufferM.get_bind, clamp_eq] at hr
  split at hr
  · rename_i h0
    cases hr
    exact h0.symm
  · cases hl : gatherLoop (b.nodes.drop (p / b.baseSize)) (p / b.baseSize) (p % b.baseSize) (min len b.getReadSize) with
    | ok iovs' =>
      rw [BufferM.bind_ok (SocketStream.ofExcept_ok hl)] at hr
      cases hr
      rfl
    | error f =>
      rw [hl] at hr
      cases hr

/-- The bytes at `p`, where there are so many. -/
theorem getReadBuffersAt_spec (h : b.Inv) (hm : p + min len b.getReadSize ≤ b.size) :
    ∃ iovs, getReadBuffersAt len p b = .ok (iovs, min len b.getReadSize) b ∧
      gather b.nodes iovs = .ok (slice b.content p (min len b.getReadSize)) := by
  simp only [getReadBuffersAt, BufferM.get_bind, clamp_eq]
  generalize min len b.getReadSize = m at hm ⊢
  have hsize := h.size
  rcases Nat.eq_zero_or_pos m with rfl | hpos
  · exact ⟨[], rfl, by rw [slice_zero]; rfl⟩
  · obtain ⟨iovs, hloop, hcovers, -⟩ := h.gatherLoop (p := p) hpos (by omega)
    refine ⟨iovs, ?_, gather_content h hcovers hm⟩
    rw [if_neg (Nat.ne_of_gt hpos), BufferM.bind_ok (SocketStream.ofExcept_ok hloop), BufferM.pure_apply]

theorem buffersAt_iff (h : b.Inv) (hp : p ≤ b.size) :
    b.BuffersAt p len ↔ p = b.position ∨ len ≤ b.size - b.position ∧ len ≤ b.size - p := by
  have hposition := h.position
  have hread := h.getReadSize
  constructor
  · rintro ⟨iovs, hr, -⟩
    have hm := getReadBuffersAt_result hr
    omega
  · intro hc
    have hm : min len (b.size - p) = min len b.getReadSize := by omega
    rw [BuffersAt, hm]
    exact getReadBuffersAt_spec h (by omega)

end Buffers

end ByteArray

/-- **Positional reads**: in every reachable array, `read` at a position that is passed throws or returns the bytes
there, if it finds them from the node of the cursor on; when there are not so many, if the difference that it checks
does not wrap, or wraps to less than the size. -/
theorem positional_read_iff {b : ByteArray} (h : streamSys.Reachable b) (p n : UInt64) :
    b.ReadsAt p.toNat n.toNat ↔ b.Addressed p.toNat n.toNat :=
  ByteArray.readsAt_iff (inv_streamed h) p.toNat_lt

/-- Nodes of two bytes with the cursor on the second one, and three bytes from the middle of it on. -/
theorem positional_read_iff_node : ∃ b : ByteArray, b.position = 2 ∧ b.ReadsAt 3 3 := by
  obtain ⟨b, hb, hp⟩ := streamSys.reachable_of_exec (.new 2 fun _ _ => 0) ⟨2, _, by decide, rfl⟩
    [.call (.write [1, 2, 3, 4, 5, 6]), .call (.setPosition 2)]
    (p := fun b => b.position == 2 && b.baseSize == 2 && b.size == 6 && b.capacity == 6) rfl
  simp only [Bool.and_eq_true, beq_iff_eq] at hp
  obtain ⟨⟨⟨hpos, hbase⟩, hsize⟩, hcap⟩ := hp
  refine ⟨b, hpos, (positional_read_iff hb 3 3).2 (ByteArray.addressed_of_node (inv_streamed hb) ?_ ?_ ?_)⟩
  · rw [hpos, hcap]
    decide
  · rw [hsize]
    decide
  · rw [hpos, hbase]
    decide

/-- With the cursor on the third node, the bytes of the first one are asked for and those of the third one returned. -/
theorem positional_read_last_node : ∃ b, streamSys.Reachable b ∧ b.content = [1, 2, 3, 4, 5, 6] ∧
    ByteArray.readAt 2 0 b = .ok [5, 6] b ∧ ¬b.ReadsAt 0 2 := by
  obtain ⟨b, hb, hp⟩ := streamSys.reachable_of_exec (.new 2 fun _ _ => 0) ⟨2, _, by decide, rfl⟩
    [.call (.write [1, 2, 3, 4, 5, 6]), .call (.setPosition 4)]
    (p := fun b => b.content == [1, 2, 3, 4, 5, 6] && b.size == 6 && b.capacity == 6 && b.position == 4 &&
      b.readStart 0 == 4 && slice b.bytes 4 2 == [5, 6]) rfl
  simp only [Bool.and_eq_true, beq_iff_eq] at hp
  obtain ⟨⟨⟨⟨⟨hcontent, hsize⟩, hcap⟩, hpos⟩, hstart⟩, hbytes⟩ := hp
  have hread : ByteArray.readAt 2 0 b = .ok [5, 6] b := by
    rw [ByteArray.readAt_eq (inv_streamed hb) (by rw [hsize]; decide), hpos, hcap, hstart, if_pos (by decide), hbytes]
  refine ⟨b, hb, hcontent, hread, fun hr => ?_⟩
  have hfirst := hr.2 (by rw [hsize]; decide)
  rw [hread, hcontent] at hfirst
  exact absurd (EStateM.Result.ok.inj hfirst).1 (by decide)

/-- **Positional buffers**: in every reachable array, `getReadBuffers` at a position that is passed appends the bytes
there and returns how many they are, if the position is that of the cursor, or no more is asked for than there is from
either on. -/
theorem positional_buffers_iff {b : ByteArray} (h : streamSys.Reachable b) {p len : Nat} (hp : p ≤ b.size) :
    b.BuffersAt p len ↔ p = b.position ∨ len ≤ b.size - b.position ∧ len ≤ b.size - p :=
  ByteArray.buffersAt_iff (inv_streamed h) hp

/-- Two of four bytes from the first one on, with the cursor on the second node. -/
theorem positional_buffers_iff_node : ∃ b : ByteArray, b.position = 2 ∧ b.BuffersAt 0 2 := by
  obtain ⟨b, hb, hp⟩ := streamSys.reachable_of_exec (.new 2 fun _ _ => 0) ⟨2, _, by decide, rfl⟩
    [.call (.write [1, 2, 3, 4]), .call (.setPosition 2)] (p := fun b => b.position == 2 && b.size == 4)
    rfl
  simp only [Bool.and_eq_true, beq_iff_eq] at hp
  obtain ⟨hpos, hsize⟩ := hp
  refine ⟨b, hpos, (positional_buffers_iff hb (Nat.zero_le _)).2 (.inr ?_)⟩
  rw [hpos, hsize]
  decide

/-- The same array with its position at the end of the content, where no bytes of it are appended. -/
theorem positional_buffers_none : ∃ b, streamSys.Reachable b ∧ b.size = 4 ∧
    ByteArray.getReadBuffersAt 2 0 b = .ok ([], 0) b ∧ ¬b.BuffersAt 0 2 := by
  obtain ⟨b, hb, hp⟩ := streamSys.reachable_of_exec (.new 2 fun _ _ => 0) ⟨2, _, by decide, rfl⟩
    [.call (.write [1, 2, 3, 4])] (p := fun b => b.position == 4 && b.size == 4) rfl
  simp only [Bool.and_eq_true, beq_iff_eq] at hp
  obtain ⟨hpos, hsize⟩ := hp
  have hrun : ByteArray.getReadBuffersAt 2 0 b = .ok ([], 0) b := by
    have hread := (inv_streamed hb).getReadSize
    rw [hpos, hsize] at hread
    simp only [ByteArray.getReadBuffersAt, BufferM.get_bind, hread]
    rfl
  refine ⟨b, hb, hsize, hrun, fun ⟨iovs, hr, _⟩ => ?_⟩
  rw [hrun, hsize] at hr
  cases hr

end Megalo
