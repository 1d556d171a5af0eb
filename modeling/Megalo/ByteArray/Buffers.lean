import Megalo.ByteArray.Flat

/-!
# The buffers of `getReadBuffers` and `getWriteBuffers`

- `gather` and `scatter` are what `sendmsg` and `recvmsg` do with a vector of buffers;
- what is gathered from buffers that are the bytes from position `p` on is a slice of the chain (`gather_covers`), and
  what is scattered overwrites the chain from `p` on (`scatter_covers`);
- `getReadBuffers` fills its vector with the bytes from the position on (`getReadBuffers_spec`), as `getWriteBuffers`
  does; what these are filled with is in the content when the position is set behind it (`fill_spec`, `commit_spec`).
-/

namespace Megalo

open Overwrite MachineInt

/-! ## Vectors of buffers -/

/-- The bytes of the buffers, one after the other. -/
def gather (nodes : List Node) : List IoVec → Except BufferFault (List UInt8)
  | [] => .ok []
  | v :: iovs =>
    match nodes[v.node]? with
    | none => .error .outOfBounds
    | some n => do
      let bytes ← n.copyOut v.offset v.len
      let bytes' ← gather nodes iovs
      pure (bytes ++ bytes')

/-- Fill the buffers one after the other. -/
def scatter (nodes : List Node) : List IoVec → List UInt8 → Except BufferFault (List Node)
  | [], _ => .ok nodes
  | v :: iovs, bytes =>
    if bytes = [] then .ok nodes
    else
      match nodes[v.node]? with
      | none => .error .outOfBounds
      | some n => do
        let n' ← n.copyIn v.offset (bytes.take v.len)
        scatter (nodes.set v.node n') iovs (bytes.drop v.len)

section

variable {c p len i offset : Nat} {nodes : List Node} {iovs : List IoVec} {n n' : Node} {bytes : List UInt8}

/-! ## One buffer -/

/-- The bytes of a node, in those of the chain. -/
theorem nodeBytes_split (hn : nodes[i]? = some n) :
    nodeBytes nodes = nodeBytes (nodes.take i) ++ (n.ptr ++ nodeBytes (nodes.drop (i + 1))) := by
  obtain ⟨hi, rfl⟩ := List.getElem?_eq_some_iff.mp hn
  conv_lhs => rw [← List.take_append_drop i nodes, List.drop_eq_getElem_cons hi]
  rw [nodeBytes_append, nodeBytes_cons]

theorem nodeBytes_set (hn : nodes[i]? = some n) :
    nodeBytes (nodes.set i n') = nodeBytes (nodes.take i) ++ (n'.ptr ++ nodeBytes (nodes.drop (i + 1))) := by
  obtain ⟨hi, rfl⟩ := List.getElem?_eq_some_iff.mp hn
  rw [List.set_eq_take_append_cons_drop, if_pos hi, nodeBytes_append, nodeBytes_cons]

theorem Sized.length_take_bytes (hs : Sized c nodes) (hn : nodes[i]? = some n) :
    (nodeBytes (nodes.take i)).length = c * i := by
  obtain ⟨hi, rfl⟩ := List.getElem?_eq_some_iff.mp hn
  rw [(hs.take i).length_nodeBytes, List.length_take_of_le (Nat.le_of_lt hi)]

theorem Sized.getElem?_size (hs : Sized c nodes) (hn : nodes[i]? = some n) : n.size = c :=
  hs n (List.mem_of_getElem? hn)

/-- A buffer is a slice of the chain. -/
theorem slice_node (hs : Sized c nodes) (hn : nodes[i]? = some n) (h : offset + len ≤ c) :
    slice (nodeBytes nodes) (c * i + offset) len = slice n.ptr offset len := by
  rw [nodeBytes_split hn, ← hs.length_take_bytes hn, slice_append_right, slice_append_left]
  rw [n.length_ptr, hs.getElem?_size hn]
  exact h

/-- What is put in a buffer overwrites the chain there. -/
theorem overwrite_node (hs : Sized c nodes) (hn : nodes[i]? = some n) (h : offset + bytes.length ≤ c) :
    ∃ n', n.copyIn offset bytes = .ok n' ∧ Sized c (nodes.set i n') ∧
      nodeBytes (nodes.set i n') = overwrite (nodeBytes nodes) (c * i + offset) bytes := by
  have hsize := hs.getElem?_size hn
  obtain ⟨n', hcopy, hsize', hptr⟩ := Node.copyIn_of_le n offset bytes (by omega)
  refine ⟨n', hcopy, ?_, ?_⟩
  · intro m hm
    rcases List.mem_or_eq_of_mem_set hm with hm | rfl
    · exact hs m hm
    · exact hsize'.trans hsize
  · rw [nodeBytes_set hn, hptr, nodeBytes_split hn, ← hs.length_take_bytes hn, overwrite_append_right,
      overwrite_append_left]
    rw [n.length_ptr, hsize]
    exact h

/-- The node of a buffer that is within the chain. -/
theorem Sized.getElem?_some (hs : Sized c nodes) (h : c * i < (nodeBytes nodes).length) :
    ∃ n, nodes[i]? = some n := by
  rw [hs.length_nodeBytes] at h
  exact ⟨_, List.getElem?_eq_getElem (Nat.lt_of_mul_lt_mul_left h)⟩

/-! ## All buffers -/

theorem Covers.pos (h : Covers c iovs p len) : 0 < len := by
  induction h with
  | last hpos _ => exact hpos
  | next _ _ ih => omega

/-- The buffers have room for just these bytes. -/
theorem Covers.sum (h : Covers c iovs p len) : (iovs.map IoVec.len).sum = len := by
  induction h with
  | last _ _ => exact Nat.add_zero _
  | next _ _ ih => rw [List.map_cons, List.sum_cons, ih]

/-- Each buffer is in one node, with no byte before these. -/
theorem Covers.within (h : Covers c iovs p len) : ∀ v ∈ iovs, v.offset + v.len ≤ c ∧ p ≤ c * v.node + v.offset := by
  induction h with
  | last _ hle => exact List.forall_mem_singleton.2 ⟨hle, Nat.le_refl _⟩
  | @next i offset len iovs hle _ ih =>
    have hend : c * (i + 1) = c * i + c := Nat.mul_succ c i
    refine List.forall_mem_cons.2 ⟨⟨?_, Nat.le_refl _⟩, fun v hv => ?_⟩
    · show offset + (c - offset) ≤ c
      omega
    · have hrest := ih v hv
      omega

/-- What is gathered is a slice of the chain. -/
theorem gather_covers (hs : Sized c nodes) (h : Covers c iovs p len) (hp : p + len ≤ (nodeBytes nodes).length) :
    gather nodes iovs = .ok (slice (nodeBytes nodes) p len) := by
  induction h with
  | @last i offset len hpos hle =>
    obtain ⟨n, hn⟩ := hs.getElem?_some (by omega : c * i < _)
    have hsize := hs.getElem?_size hn
    rw [gather, hn, slice_node hs hn hle]
    simp only [Node.copyOut_of_le (by omega : offset + len ≤ n.size), gather, bind, Except.bind, pure, Except.pure,
      List.append_nil]
  | @next i offset len iovs hle hnext ih =>
    have hpos := hnext.pos
    have hend : c * i + offset + (c - offset) = c * (i + 1) := by
      rw [Nat.mul_succ]
      omega
    obtain ⟨n, hn⟩ := hs.getElem?_some (by omega : c * i < _)
    have hsize := hs.getElem?_size hn
    rw [gather, hn, slice_add, hend, slice_node hs hn (by omega)]
    simp only [Node.copyOut_of_le (by omega : offset + (c - offset) ≤ n.size), ih (by omega), bind, Except.bind, pure,
      Except.pure]

/-- What is scattered overwrites the chain, as far as it goes. -/
theorem scatter_covers (h : Covers c iovs p len) (hs : Sized c nodes) (hlen : bytes.length ≤ len)
    (hp : p + len ≤ (nodeBytes nodes).length) :
    ∃ nodes', scatter nodes iovs bytes = .ok nodes' ∧ Sized c nodes' ∧ nodes'.length = nodes.length ∧
      nodeBytes nodes' = overwrite (nodeBytes nodes) p bytes := by
  induction h generalizing nodes bytes with
  | @last i offset len hpos hle =>
    rw [scatter]
    by_cases hnil : bytes = []
    · exact ⟨nodes, if_pos hnil, hs, rfl, by rw [hnil, overwrite_nil]⟩
    · obtain ⟨n, hn⟩ := hs.getElem?_some (by omega : c * i < _)
      obtain ⟨n', hcopy, hs', hbytes⟩ := overwrite_node hs hn (by omega : offset + bytes.length ≤ c)
      refine ⟨nodes.set i n', ?_, hs', List.length_set, hbytes⟩
      rw [if_neg hnil, hn, List.take_of_length_le hlen]
      simp only [hcopy, scatter, bind, Except.bind]
  | @next i offset len iovs hle hnext ih =>
    rw [scatter]
    by_cases hnil : bytes = []
    · exact ⟨nodes, if_pos hnil, hs, rfl, by rw [hnil, overwrite_nil]⟩
    · have hpos := hnext.pos
      obtain ⟨n, hn⟩ := hs.getElem?_some (by omega : c * i < _)
      have htake : (bytes.take (c - offset)).length ≤ c - offset := List.length_take_le _ _
      obtain ⟨n', hcopy, hs', hbytes⟩ := overwrite_node hs hn (by omega : offset + (bytes.take (c - offset)).length ≤ c)
      have hlength : (nodeBytes (nodes.set i n')).length = (nodeBytes nodes).length := by
        rw [hbytes, length_overwrite (by omega)]
        omega
      have hend : c * i + offset + (c - offset) = c * (i + 1) := by
        rw [Nat.mul_succ]
        omega
      obtain ⟨nodes', hloop, hs'', hl, hb⟩ := ih hs'
        (by rw [List.length_drop]; omega : (bytes.drop (c - offset)).length ≤ len) (by omega)
      refine ⟨nodes', ?_, hs'', by rw [hl, List.length_set], ?_⟩
      · rw [if_neg hnil, hn]
        simp only [hcopy, bind, Except.bind, hloop]
      · rw [hb, hbytes]
        -- either the rest goes behind what is in this node, or there is none
        by_cases hshort : bytes.length ≤ c - offset
        · rw [List.take_of_length_le hshort, List.drop_eq_nil_of_le hshort, overwrite_nil]
        · have hfull : (bytes.take (c - offset)).length = c - offset := List.length_take_of_le (by omega)
          have hjoin : overwrite (overwrite (nodeBytes nodes) (c * i + offset) (bytes.take (c - offset)))
              (c * i + offset + (bytes.take (c - offset)).length) (bytes.drop (c - offset)) =
              overwrite (nodeBytes nodes) (c * i + offset) (bytes.take (c - offset) ++ bytes.drop (c - offset)) :=
            overwrite_overwrite (by omega)
          rw [hfull, hend, List.take_append_drop] at hjoin
          exact hjoin

end

namespace ByteArray

variable {b : ByteArray}

/-! ## The buffers to read -/

/-- `getReadBuffers`, from `m_position` on. -/
def getReadBuffers (len : Nat) : BufferM (List IoVec × Nat) := do
  let b ← get
  let len := if len > b.getReadSize then b.getReadSize else len
  if len = 0 then return ([], 0)
  let iovs ← fromCur fun chain => gatherLoop chain (b.cur.getD 0) (b.position % b.baseSize) len
  return (iovs, len)

/-- Other bytes in the nodes. -/
theorem Inv.withNodes (h : b.Inv) {nodes : List Node} (hs : Sized b.baseSize nodes)
    (hl : nodes.length = b.nodes.length) : Inv { b with nodes := nodes } where
  base := h.base
  root hnil := by
    refine h.root (List.length_eq_zero_iff.mp ?_)
    rw [← hl]
    exact List.length_eq_zero_iff.mpr hnil
  sized := hs
  capacity := h.capacity.trans (by rw [hl])
  position := h.position
  size := h.size
  cur := h.cur

/-- What is gathered from buffers in the content is a slice of it. -/
theorem gather_content (h : b.Inv) {p len : Nat} {iovs : List IoVec} (hcovers : Covers b.baseSize iovs p len)
    (hlen : p + len ≤ b.size) : gather b.nodes iovs = .ok (slice b.content p len) := by
  have hsize := h.size
  rw [gather_covers h.sized hcovers (by rw [← bytes, h.length_bytes]; omega), content, slice_take hlen, bytes]

/-- `getReadBuffers` finds the bytes that are asked for, where there are so many. -/
theorem getReadBuffers_spec (h : b.Inv) {len : Nat} (hpos : 0 < len) (hlen : b.position + len ≤ b.size) :
    ∃ iovs, getReadBuffers len b = .ok (iovs, len) b ∧ Covers b.baseSize iovs b.position len ∧ Apart iovs := by
  have hsize := h.size
  have hle : ¬len > b.getReadSize := by
    rw [h.getReadSize]
    omega
  have hne : len ≠ 0 := Nat.ne_of_gt hpos
  obtain ⟨iovs, hrun, hcovers, hapart⟩ := h.gather hpos (by omega)
  refine ⟨iovs, ?_, hcovers, hapart⟩
  simp only [getReadBuffers, BufferM.get_bind, if_neg hle, if_neg hne, BufferM.bind_ok hrun, BufferM.pure_apply]

/-! ## The buffers to write -/

/-- Filling the buffers of `getWriteBuffers` overwrites the chain from the position on. -/
theorem fill_spec (h : b.Inv) {len : Nat} {bytes : List UInt8} (hpos : 0 < len) (hlen : bytes.length ≤ len) :
    ∃ iovs nodes new, getWriteBuffers len b = .ok (iovs, len) (addCapacity len b) ∧
      Covers b.baseSize iovs b.position len ∧ Apart iovs ∧ scatter (addCapacity len b).nodes iovs bytes = .ok nodes ∧
      Inv { addCapacity len b with nodes := nodes } ∧
      nodeBytes nodes = overwrite (b.bytes ++ new) b.position bytes := by
  obtain ⟨iovs, hbuffers, hcovers, hapart⟩ := getWriteBuffers_covers h hpos
  obtain ⟨new, capacity, cur, allocs, hb, hi, hroom⟩ := addCapacity_spec h len
  have hbase : (addCapacity len b).baseSize = b.baseSize := by rw [hb]
  have hchain : nodeBytes (addCapacity len b).nodes = b.bytes ++ nodeBytes new := by
    rw [hb, ByteArray.bytes, ← nodeBytes_append]
  have hfit : b.position + len ≤ (nodeBytes (addCapacity len b).nodes).length := by
    rw [← ByteArray.bytes, hi.length_bytes]
    exact hroom
  obtain ⟨nodes, hscatter, hs, hl, hnodes⟩ := scatter_covers hcovers (hbase ▸ hi.sized) hlen hfit
  exact ⟨iovs, nodes, nodeBytes new, hbuffers, hcovers, hapart, hscatter, hi.withNodes (hbase ▸ hs) hl,
    by rw [hnodes, hchain]⟩

/-- `setPosition` takes what the buffers were filled with into the content. -/
theorem commit_spec (h : b.Inv) {len : Nat} {nodes : List Node} {bytes new : List UInt8}
    (hi : Inv { addCapacity len b with nodes := nodes }) (hlen : bytes.length ≤ len)
    (hnodes : nodeBytes nodes = overwrite (b.bytes ++ new) b.position bytes) :
    ∃ b', setPosition (b.position + bytes.length) { addCapacity len b with nodes := nodes } = .ok () b' ∧ b'.Inv ∧
      b'.position = b.position + bytes.length ∧ b'.size = max b.size (b.position + bytes.length) ∧
      b'.content = overwrite b.content b.position bytes := by
  obtain ⟨_, capacity, cur, allocs, hb, -, hroom⟩ := addCapacity_spec h len
  have hsize : (addCapacity len b).size = b.size := by rw [hb]
  have hcapacity : b.position + bytes.length ≤ (addCapacity len b).capacity := by omega
  obtain ⟨cur', hset, hi'⟩ := setPosition_spec hi hcapacity
  refine ⟨_, hset, hi', rfl, ?_, content_write h ?_ hnodes⟩
  · simp only [hsize]
  · simp only [hsize]

end ByteArray

end Megalo
