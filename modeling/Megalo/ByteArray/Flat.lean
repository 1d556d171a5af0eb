import Megalo.ByteArray.Typed

/-!
# `ByteArray` as a flat byte array with a cursor

`Flat` is what a `ByteArray` is for: its content and a position in it. A write overwrites or extends the content at the
position and a read returns a slice of it, and both advance the position; `ByteArray.Refines` relates the two, and
`write` and `read` of at least one byte are those of `Flat` (`write_refines`, `read_refines`, `refines_flat`).
-/

namespace Megalo

open Overwrite

/-- A byte array with a cursor. -/
structure Flat where
  content : List UInt8
  position : Nat
  le : position ≤ content.length

namespace Flat

/-- Put bytes at the cursor, and move behind them. -/
def write (f : Flat) (d : List UInt8) : Flat where
  content := overwrite f.content f.position d
  position := f.position + d.length
  le := by
    rw [length_overwrite f.le]
    exact Nat.le_max_right _ _

/-- The bytes at the cursor. -/
def peek (f : Flat) (n : Nat) : List UInt8 := slice f.content f.position n

/-- Move the cursor forward. -/
def skip (f : Flat) (n : Nat) (h : f.position + n ≤ f.content.length) : Flat := ⟨f.content, f.position + n, h⟩

/-- Bytes in front of the cursor and behind what is written stay. -/
theorem write_frame (f : Flat) (d : List UInt8) :
    (f.write d).content.take f.position = f.content.take f.position ∧
      (f.write d).content.drop (f.position + d.length) = f.content.drop (f.position + d.length) := by
  have htake : (f.content.take f.position).length = f.position := List.length_take_of_le f.le
  have hlen : (f.content.take f.position ++ d).length = f.position + d.length := by rw [List.length_append, htake]
  constructor
  · show (overwrite f.content f.position d).take _ = _
    rw [overwrite, List.take_left' htake]
  · show (overwrite f.content f.position d).drop _ = _
    rw [overwrite, ← List.append_assoc, List.drop_left' hlen]

/-- What was written is read back from where it was written. -/
theorem slice_write (f : Flat) (d : List UInt8) : slice (f.write d).content f.position d.length = d :=
  slice_overwrite f.le

end Flat

namespace ByteArray

variable {b : ByteArray} {f : Flat}

/-- The array holds the content, and has its cursor at the position. -/
def Refines (b : ByteArray) (f : Flat) : Prop := b.Inv ∧ b.content = f.content ∧ b.position = f.position

theorem Inv.refines (h : b.Inv) : ∃ f, b.Refines f :=
  ⟨⟨b.content, b.position, by rw [h.length_content]; exact h.position⟩, h, rfl, rfl⟩

theorem write_refines (h : b.Refines f) {d : List UInt8} (hd : d ≠ []) :
    ∃ b', write d b = .ok () b' ∧ b'.Refines (f.write d) ∧ b'.size = max b.size (b.position + d.length) := by
  obtain ⟨hi, hc, hp⟩ := h
  obtain ⟨b', hw, hi', -, -, hpos, hsize, new, hbytes⟩ := write_spec hi hd
  refine ⟨b', hw, ⟨hi', ?_, ?_⟩, hsize⟩
  · rw [content_write hi hsize hbytes, hc, hp]
    rfl
  · rw [hpos, hp]
    rfl

theorem read_refines (h : b.Refines f) {n : Nat} (hn : 0 < n) (hf : f.position + n ≤ f.content.length) :
    ∃ cur, read n b = .ok (f.peek n) { b with cur := cur, position := b.position + n } ∧
      Refines { b with cur := cur, position := b.position + n } (f.skip n hf) := by
  obtain ⟨hi, hc, hp⟩ := h
  have hle : b.position + n ≤ b.size := by rw [hp, ← hi.length_content, hc]; exact hf
  have hsize := hi.size
  obtain ⟨cur, hr, hi'⟩ := read_spec hi hle (by omega)
  refine ⟨cur, ?_, hi', hc, ?_⟩
  · rw [hr, hc, hp]
    rfl
  · show b.position + n = f.position + n
    rw [hp]

end ByteArray

/-- **A `ByteArray` refines a flat byte array.** In every reachable state it holds a content of `m_size` bytes with a
cursor in it. A write of at least one byte overwrites or extends that content at the cursor: what it wrote is there, the
bytes before and behind are as they were, the position moves behind and the size is the larger one. A read of so many
bytes as there are returns those at the cursor and moves it, and changes nothing else. -/
theorem refines_flat {b : ByteArray} (h : byteArraySys.Reachable b) :
    ∃ f : Flat, b.Refines f ∧ f.content.length = b.size ∧
      (∀ d, d ≠ [] → ∃ b', b.write d = .ok () b' ∧ b'.Refines (f.write d) ∧
        b'.position = b.position + d.length ∧ b'.size = max b.size (b.position + d.length) ∧
        slice b'.content b.position d.length = d ∧ b'.content.take b.position = b.content.take b.position ∧
        b'.content.drop (b.position + d.length) = b.content.drop (b.position + d.length)) ∧
      ∀ n, 0 < n → n ≤ b.getReadSize →
        ∃ cur, b.read n = .ok (slice b.content b.position n) { b with cur := cur, position := b.position + n } := by
  have hi := ByteArray.inv_reachable h
  obtain ⟨f, hf⟩ := hi.refines
  have hlen : f.content.length = b.size := by rw [← hf.2.1, hi.length_content]
  refine ⟨f, hf, hlen, fun d hd => ?_, fun n hn hle => ?_⟩
  · obtain ⟨b', hw, hr, hsize⟩ := ByteArray.write_refines hf hd
    refine ⟨b', hw, hr, ?_, hsize, ?_⟩
    · rw [hr.2.2, hf.2.2]
      rfl
    · rw [hr.2.1, hf.2.2, hf.2.1]
      exact ⟨f.slice_write d, f.write_frame d⟩
  · have hpos := hi.position
    rw [hi.getReadSize] at hle
    obtain ⟨cur, hr, -⟩ := ByteArray.read_refines hf hn (by rw [hlen, ← hf.2.2]; omega)
    exact ⟨cur, by rw [hr, hf.2.1, hf.2.2]; rfl⟩

/-- Nodes of two bytes, five bytes written and the cursor on the second one: three bytes are overwritten. -/
theorem refines_flat_overwrite : ∃ b b' : ByteArray, ∃ f : Flat, b.position = 1 ∧ b.Refines f ∧
    b.write [7, 8, 9] = .ok () b' ∧ b'.Refines (f.write [7, 8, 9]) ∧ b'.size = 5 := by
  obtain ⟨b, hb, hp⟩ := byteArraySys.reachable_of_exec (.new 2 fun _ _ => 0) ⟨2, _, by decide, rfl⟩
    [.write [1, 2, 3, 4, 5], .setPosition 1] (p := fun b => b.position == 1 && b.size == 5) rfl
  rw [Bool.and_eq_true, beq_iff_eq, beq_iff_eq] at hp
  obtain ⟨f, hf, -, hwrite, -⟩ := refines_flat hb
  obtain ⟨b', hw, hr, -, hsize, -⟩ := hwrite [7, 8, 9] (List.cons_ne_nil _ _)
  refine ⟨b, b', f, hp.1, hf, hw, hr, ?_⟩
  rw [hsize, hp.1, hp.2]
  rfl

end Megalo
