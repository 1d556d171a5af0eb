import Megalo.ByteArray.Reads

/-!
# Writing through the buffers of `getWriteBuffers`

`receive` asks for buffers, has some of their room filled and moves the position behind that, as `handleClient` of the
echo server does. However much room it asked for, the array is then as if `write` had written these bytes
(`scatter_agrees`).
-/

namespace Megalo

open Overwrite

namespace ByteArray

/-- `getWriteBuffers(iovs, len)`, so many bytes put into them, and `setPosition(getPosition() + rt)`: the buffers. -/
def receive (len : Nat) (data : List UInt8) : BufferM (List IoVec) := do
  let buffers ← getWriteBuffers len
  let ba ← get
  let nodes ← ofExcept (scatter ba.nodes buffers.1 data)
  set { ba with nodes }
  setPosition (ba.position + data.length)
  return buffers.1

/-- They are taken into the content at the position, and the position moves behind them. -/
theorem receive_spec {b : ByteArray} (h : b.Inv) {len : Nat} {data : List UInt8} (hpos : 0 < len)
    (hlen : data.length ≤ len) : ∃ iovs b', receive len data b = .ok iovs b' ∧ Covers b.baseSize iovs b.position len ∧
      Apart iovs ∧ b'.Inv ∧ b'.position = b.position + data.length ∧
      b'.size = max b.size (b.position + data.length) ∧ b'.content = overwrite b.content b.position data := by
  obtain ⟨iovs, nodes, new, hbuffers, hcovers, hapart, hscatter, hi, hnodes⟩ := fill_spec h hpos hlen
  obtain ⟨b', hset, hi', hposition, hsize, hcontent⟩ := commit_spec h hi hlen hnodes
  obtain ⟨_, capacity, cur, allocs, hb, -, -⟩ := addCapacity_spec h len
  have hsame : (addCapacity len b).position = b.position := by rw [hb]
  rw [← hsame] at hset
  refine ⟨iovs, b', ?_, hcovers, hapart, hi', hposition, hsize, hcontent⟩
  simp only [receive, BufferM.bind_ok hbuffers, BufferM.get_bind, BufferM.bind_ok (SocketStream.ofExcept_ok hscatter),
    BufferM.set_bind]
  exact BufferM.bind_ok hset _

end ByteArray

/-- **Scattering agrees with writing**: from every reachable array, at least one byte that is received into buffers
with room for `len` of them leaves the content, the size and the position that `write` does. The buffers have room for
just `len` bytes, do not overlap, and each is in one node, with no byte before the position. -/
theorem scatter_agrees {b : ByteArray} (h : streamSys.Reachable b) {len : Nat} {data : List UInt8} (hdata : data ≠ [])
    (hlen : data.length ≤ len) : ∃ iovs b₁ b₂, b.receive len data = .ok iovs b₁ ∧ b.write data = .ok () b₂ ∧
      b₁.content = b₂.content ∧ b₁.size = b₂.size ∧ b₁.position = b₂.position ∧ (iovs.map IoVec.len).sum = len ∧
      iovs.Pairwise ByteArray.disjoint ∧
      ∀ v ∈ iovs, v.offset + v.len ≤ b.baseSize ∧ b.position ≤ b.baseSize * v.node + v.offset := by
  have hi := inv_streamed h
  have hpos : 0 < data.length := List.length_pos_of_ne_nil hdata
  obtain ⟨iovs, b₁, hrun, hcovers, hapart, -, hposition, hsize, hcontent⟩ :=
    ByteArray.receive_spec hi (hpos.trans_le hlen) hlen
  obtain ⟨b₂, hwrite, -, -, -, hposition', hsize', new, hbytes⟩ := ByteArray.write_spec hi hdata
  have hcontent' := ByteArray.content_write hi hsize' hbytes
  refine ⟨iovs, b₁, b₂, hrun, hwrite, hcontent.trans hcontent'.symm, hsize.trans hsize'.symm,
    hposition.trans hposition'.symm, hcovers.sum, hapart.2.imp fun hlt => .inl (Nat.ne_of_lt hlt),
    hcovers.within⟩

/-- Three of ten bytes, from the second node of two bytes on. -/
theorem scatter_agrees_nodes : ∃ b : ByteArray, b.position = 2 ∧ ∃ iovs b₁ b₂,
    b.receive 10 [7, 8, 9] = .ok iovs b₁ ∧ b.write [7, 8, 9] = .ok () b₂ ∧ b₁.content = b₂.content := by
  obtain ⟨b, hb, hp⟩ := streamSys.reachable_of_exec (.new 2 fun _ _ => 0) ⟨2, _, by decide, rfl⟩
    [.call (.write [1, 2, 3, 4]), .call (.setPosition 2)] (p := fun b => b.position == 2) rfl
  obtain ⟨iovs, b₁, b₂, hrun, hwrite, hcontent, -⟩ := scatter_agrees hb (List.cons_ne_nil 7 [8, 9])
    (by decide : [7, 8, 9].length ≤ 10)
  exact ⟨b, beq_iff_eq.1 hp, iovs, b₁, b₂, hrun, hwrite, hcontent⟩

end Megalo
