import Megalo.Lib.Overwrite
import Megalo.Lib.Throw
import Megalo.Lib.System
import Megalo.ByteArray.Basic

/-!
# The representation invariant of `ByteArray`

- what the loops do on a chain of nodes of one size (`writeLoop_spec`, `readLoop_spec`, `seekLoop_spec`,
  `gatherLoop_covers`); `Covers c iovs p len` says that the buffers are the bytes from position `p` on, `len` of them,
  of a chain whose nodes have `c` bytes, and `Apart iovs` that no two of them share a node;
- `ByteArray.Inv` is the invariant, and each operation keeps it: `addCapacity_spec`, `write_spec`, `read_spec`,
  `setPosition_spec`, `clear_spec`, `getWriteBuffers_spec`, `readFromFile_spec`.
-/

namespace Megalo

open Overwrite MachineInt

/-! ## Chains of nodes of one size -/

/-- All nodes have this size. -/
def Sized (c : Nat) (nodes : List Node) : Prop := ∀ n ∈ nodes, n.size = c

/-- The bytes of a chain. -/
def nodeBytes (nodes : List Node) : List UInt8 := (nodes.map Node.ptr).flatten

/-- The buffers are these bytes of a chain, each to the end of its node but the last. -/
inductive Covers (c : Nat) : List IoVec → Nat → Nat → Prop
  | last {i offset len : Nat} (hpos : 0 < len) (h : offset + len ≤ c) :
    Covers c [⟨i, offset, len⟩] (c * i + offset) len
  | next {i offset len : Nat} {iovs : List IoVec} (h : offset ≤ c) (hnext : Covers c iovs (c * (i + 1)) len) :
    Covers c (⟨i, offset, c - offset⟩ :: iovs) (c * i + offset) (c - offset + len)

/-- No buffer is empty, and each is in a later node than those before it. -/
def Apart (iovs : List IoVec) : Prop := (∀ v ∈ iovs, 0 < v.len) ∧ iovs.Pairwise fun v w => v.node < w.node

section Chain

variable {c : Nat} {nodes nodes' : List Node} {cur : Node}

@[simp] theorem nodeBytes_nil : nodeBytes [] = [] := rfl

@[simp] theorem nodeBytes_cons (n : Node) (nodes : List Node) : nodeBytes (n :: nodes) = n.ptr ++ nodeBytes nodes := rfl

@[simp] theorem nodeBytes_append (nodes nodes' : List Node) :
    nodeBytes (nodes ++ nodes') = nodeBytes nodes ++ nodeBytes nodes' := by
  simp [nodeBytes]

theorem Sized.length_nodeBytes (h : Sized c nodes) : (nodeBytes nodes).length = c * nodes.length := by
  rw [nodeBytes, length_flatten_of_forall (c := c), List.length_map]
  intro x hx
  obtain ⟨n, hn, rfl⟩ := List.mem_map.1 hx
  rw [n.length_ptr, h n hn]

theorem Sized.append (h : Sized c nodes) (h' : Sized c nodes') : Sized c (nodes ++ nodes') :=
  List.forall_mem_append.2 ⟨h, h'⟩

theorem Sized.take (h : Sized c nodes) (i : Nat) : Sized c (nodes.take i) := fun n hn => h n (List.mem_of_mem_take hn)

theorem Sized.drop (h : Sized c nodes) (i : Nat) : Sized c (nodes.drop i) := fun n hn => h n (List.mem_of_mem_drop hn)

/-- A copy into a node that has room. -/
theorem Node.copyIn_of_le (cur : Node) (npos : Nat) (bytes : List UInt8) (h : npos + bytes.length ≤ cur.size) :
    ∃ cur', cur.copyIn npos bytes = .ok cur' ∧ cur'.size = cur.size ∧ cur'.ptr = overwrite cur.ptr npos bytes :=
  ⟨_, dif_pos h, rfl, rfl⟩

theorem Node.copyOut_of_le {npos size : Nat} (h : npos + size ≤ cur.size) :
    cur.copyOut npos size = .ok (slice cur.ptr npos size) := if_pos h

/-- Steps to the next node: one more when a node is left behind. -/
theorem steps_succ {c npos n k : Nat} (hc : 0 < c) (hn : npos ≤ c) (hk : k = c - npos) (h : c ≤ npos + n) :
    (npos + n) / c = (n - k) / c + 1 := by
  have : npos + n = n - k + c := by omega
  rw [this, Nat.add_div_right _ hc]

theorem steps_zero {c : Nat} (npos n : Nat) (hc : 0 < c) (h : npos + n ≤ c) :
    (npos + n) / c = if c = npos + n then 1 else 0 := by
  split
  · rename_i he
    rw [← he, Nat.div_self hc]
  · exact Nat.div_eq_of_lt (by omega)

/-- **The loop of `write`** overwrites the bytes of the chain. -/
theorem writeLoop_spec (hc : 0 < c) : ∀ {nodes : List Node} (npos : Nat) (buf : List UInt8), Sized c nodes → npos < c →
    buf ≠ [] → npos + buf.length ≤ c * nodes.length →
    ∃ nodes', ByteArray.writeLoop nodes npos buf = .ok (nodes', (npos + buf.length) / c) ∧ Sized c nodes' ∧
      nodes'.length = nodes.length ∧ nodeBytes nodes' = overwrite (nodeBytes nodes) npos buf
  | [], npos, buf, _, _, hbuf, hlen => by
    have := List.length_pos_of_ne_nil hbuf
    rw [List.length_nil, Nat.mul_zero] at hlen
    omega
  | cur :: next, npos, buf, hs, hn, hbuf, hlen => by
    obtain ⟨hcur, hnext⟩ := List.forall_mem_cons.1 hs
    have hptr : cur.ptr.length = c := cur.length_ptr.trans hcur
    have hcap : sizeSub cur.size npos = c - npos := by rw [hcur, sizeSub_of_le (by omega)]
    rw [ByteArray.writeLoop]
    simp only [hcap]
    split
    · rename_i hfit
      obtain ⟨cur', hcopy, hsize, hbytes⟩ := Node.copyIn_of_le cur npos buf (by omega)
      refine ⟨cur' :: next, ?_, List.forall_mem_cons.2 ⟨hsize.trans hcur, hnext⟩, rfl, ?_⟩
      · rw [hcopy, steps_zero npos _ hc (by omega), hcur]
        rfl
      · rw [nodeBytes_cons, nodeBytes_cons, hbytes, overwrite_append_left (by omega)]
    · rename_i hfit
      have hlen' : (buf.drop (c - npos)).length = buf.length - (c - npos) := List.length_drop
      have htake : (buf.take (c - npos)).length = c - npos := by rw [List.length_take]; omega
      obtain ⟨cur', hcopy, hsize, hbytes⟩ := Node.copyIn_of_le cur npos (buf.take (c - npos)) (by omega)
      obtain ⟨next', hloop, hnext', hl, hb⟩ := writeLoop_spec hc 0 (buf.drop (c - npos)) hnext hc
        (by intro h; rw [h] at hlen'; simp at hlen'; omega)
        (by rw [List.length_cons, Nat.mul_succ] at hlen; omega)
      refine ⟨cur' :: next', ?_, List.forall_mem_cons.2 ⟨hsize.trans hcur, hnext'⟩, by simp [hl], ?_⟩
      · rw [steps_succ hc (by omega) rfl (by omega), ← hlen', ← Nat.zero_add (buf.drop _).length, hcopy]
        simp only [bind, Except.bind, hloop]
        rfl
      · rw [nodeBytes_cons, nodeBytes_cons, hbytes, hb, overwrite_append_cross (by omega) (by omega), hptr]

/-- **The loop of `read`** returns a slice of the bytes of the chain. -/
theorem readLoop_spec (hc : 0 < c) : ∀ {nodes : List Node} (npos size : Nat), Sized c nodes → npos < c →
    nodes ≠ [] → npos + size ≤ c * nodes.length →
    ByteArray.readLoop nodes npos size = .ok (slice (nodeBytes nodes) npos size, (npos + size) / c)
  | [], _, _, _, _, h, _ => absurd rfl h
  | cur :: next, npos, size, hs, hn, _, hlen => by
    obtain ⟨hcur, hnext⟩ := List.forall_mem_cons.1 hs
    have hptr : cur.ptr.length = c := cur.length_ptr.trans hcur
    have hcap : sizeSub cur.size npos = c - npos := by rw [hcur, sizeSub_of_le (by omega)]
    rw [ByteArray.readLoop]
    simp only [hcap]
    split
    · rename_i h0
      rw [h0, slice_zero, Nat.add_zero, Nat.div_eq_of_lt hn]
    · split
      · rename_i hfit
        rw [Node.copyOut_of_le (by omega), nodeBytes_cons, slice_append_left (by omega),
          steps_zero npos _ hc (by omega), hcur]
        rfl
      · rename_i hfit
        rw [List.length_cons, Nat.mul_succ] at hlen
        have hne : next ≠ [] := by
          rintro rfl
          rw [List.length_nil, Nat.mul_zero] at hlen
          omega
        rw [Node.copyOut_of_le (by omega), nodeBytes_cons, slice_append_cross (by omega) (by omega), hptr,
          steps_succ hc (by omega) rfl (by omega)]
        simp only [bind, Except.bind, readLoop_spec hc 0 (size - (c - npos)) hnext hc hne (by omega), Nat.zero_add]
        rfl

/-- It runs into the end of a chain that is too short. -/
theorem readLoop_null {nodes : List Node} {npos size : Nat} (hs : Sized c nodes) (hn : npos < c)
    (hlen : c * nodes.length < npos + size) : ByteArray.readLoop nodes npos size = .error .nullDeref := by
  induction nodes generalizing npos size with
  | nil => rfl
  | cons cur next ih =>
    obtain ⟨hcur, hnext⟩ := List.forall_mem_cons.1 hs
    have hcap : sizeSub cur.size npos = c - npos := by rw [hcur, sizeSub_of_le (by omega)]
    rw [List.length_cons, Nat.mul_succ] at hlen
    rw [ByteArray.readLoop]
    simp only [hcap]
    rw [if_neg (by omega), if_neg (by omega), Node.copyOut_of_le (by omega)]
    simp only [bind, Except.bind, ih hnext (by omega : 0 < c) (by omega : _ < 0 + (size - (c - npos)))]

/-- **The loop of `setPosition`** stops at the node that holds the position, or behind the last one. -/
theorem seekLoop_spec (hc : 0 < c) : ∀ {nodes : List Node} {v : Nat}, Sized c nodes → nodes ≠ [] →
    v ≤ c * nodes.length → ByteArray.seekLoop nodes v = .ok (v / c)
  | [], _, _, h, _ => absurd rfl h
  | cur :: next, v, hs, _, hv => by
    obtain ⟨hcur, hnext⟩ := List.forall_mem_cons.1 hs
    rw [ByteArray.seekLoop, hcur]
    split
    · rename_i hgt
      rw [List.length_cons, Nat.mul_succ] at hv
      have hne : next ≠ [] := by
        rintro rfl
        rw [List.length_nil, Nat.mul_zero] at hv
        omega
      have hdiv : v / c = (v - c) / c + 1 := by
        have : v = v - c + c := by omega
        conv_lhs => rw [this]
        exact Nat.add_div_right _ hc
      rw [seekLoop_spec hc hnext hne (by omega), hdiv]
      rfl
    · rename_i hle
      have := steps_zero 0 v hc (by omega)
      simp only [Nat.zero_add] at this
      rw [this]
      simp only [eq_comm]

/-- **The loop of `getWriteBuffers`** covers the bytes from its node and offset on, when the chain has room. -/
theorem gatherLoop_covers (hc : 0 < c) : ∀ {nodes : List Node} (i npos len : Nat), Sized c nodes → npos < c →
    nodes ≠ [] → 0 < len → npos + len ≤ c * nodes.length →
    ∃ iovs, ByteArray.gatherLoop nodes i npos len = .ok iovs ∧ Covers c iovs (c * i + npos) len
  | [], _, _, _, _, _, h, _, _ => absurd rfl h
  | cur :: next, i, npos, len, hs, hn, _, hpos, hlen => by
    obtain ⟨hcur, hnext⟩ := List.forall_mem_cons.1 hs
    have hcap : sizeSub cur.size npos = c - npos := by rw [hcur, sizeSub_of_le (by omega)]
    rw [ByteArray.gatherLoop]
    simp only [hcap]
    split
    · rename_i hfit
      exact ⟨_, rfl, .last hpos (by omega)⟩
    · rename_i hfit
      rw [List.length_cons, Nat.mul_succ] at hlen
      have hne : next ≠ [] := by
        rintro rfl
        rw [List.length_nil, Nat.mul_zero] at hlen
        omega
      obtain ⟨iovs, hloop, hcovers⟩ :=
        gatherLoop_covers hc (i + 1) 0 (len - (c - npos)) hnext hc hne (by omega) (by omega)
      refine ⟨⟨i, npos, c - npos⟩ :: iovs, by rw [hloop]; rfl, ?_⟩
      have hsplit : len = c - npos + (len - (c - npos)) := by omega
      conv => arg 4; rw [hsplit]
      exact .next (Nat.le_of_lt hn) hcovers

/-- The buffers are in one node after the other, from the first one on. -/
theorem gatherLoop_apart : ∀ {nodes : List Node} {i npos len : Nat} {iovs : List IoVec}, Sized c nodes → npos < c →
    0 < len → ByteArray.gatherLoop nodes i npos len = .ok iovs → Apart iovs ∧ ∀ v ∈ iovs, i ≤ v.node
  | [], _, _, _, _, _, _, _, hloop => by cases hloop
  | cur :: next, i, npos, len, iovs, hs, hn, hpos, hloop => by
    obtain ⟨hcur, hnext⟩ := List.forall_mem_cons.1 hs
    have hcap : sizeSub cur.size npos = c - npos := by rw [hcur, sizeSub_of_le (by omega)]
    rw [ByteArray.gatherLoop] at hloop
    simp only [hcap] at hloop
    split at hloop
    · obtain rfl := Except.ok.inj hloop
      exact ⟨⟨List.forall_mem_singleton.2 hpos, List.pairwise_singleton _ _⟩,
        List.forall_mem_singleton.2 (Nat.le_refl i)⟩
    · obtain ⟨rest, hrest, hret⟩ := Throw.bind_eq_ok_iff.1 hloop
      obtain rfl := Except.ok.inj hret
      obtain ⟨⟨hlens, hnodes⟩, hle⟩ := gatherLoop_apart hnext (by omega) (by omega) hrest
      refine ⟨⟨List.forall_mem_cons.2 ⟨?_, hlens⟩, List.pairwise_cons.2 ⟨fun v hv => ?_, hnodes⟩⟩,
        List.forall_mem_cons.2 ⟨Nat.le_refl i, fun v hv => ?_⟩⟩
      · show 0 < c - npos
        omega
      · have hlt : i < v.node := hle v hv
        exact hlt
      · have hlt := hle v hv
        omega

end Chain

namespace ByteArray

/-! ## The invariant -/

/-- The bytes of the nodes. -/
def bytes (b : ByteArray) : List UInt8 := nodeBytes b.nodes

/-- The first `m_size` bytes of the nodes. -/
def content (b : ByteArray) : List UInt8 := b.bytes.take b.size

/-- The representation invariant. -/
structure Inv (b : ByteArray) : Prop where
  base : 0 < b.baseSize
  root : b.nodes ≠ []
  sized : Sized b.baseSize b.nodes
  capacity : b.capacity = b.baseSize * b.nodes.length
  position : b.position ≤ b.size
  size : b.size ≤ b.capacity
  cur : b.cur = if b.position = b.capacity then none else some (b.position / b.baseSize)

variable {b : ByteArray}

/-- The node that holds a position of the chain, or null at its end. -/
theorem link_eq {c pos : Nat} {nodes : List Node} (hc : 0 < c) (h : pos ≤ c * nodes.length) :
    link nodes (pos / c) = if pos = c * nodes.length then none else some (pos / c) := by
  rw [link]
  by_cases he : pos = c * nodes.length
  · rw [if_pos he, he, Nat.mul_div_cancel_left _ hc, if_neg (Nat.lt_irrefl _)]
  · rw [if_neg he, if_pos]
    rw [Nat.div_lt_iff_lt_mul hc, Nat.mul_comm]
    omega

theorem Inv.length_bytes (h : b.Inv) : b.bytes.length = b.capacity := by
  rw [bytes, h.sized.length_nodeBytes, h.capacity]

theorem Inv.length_content (h : b.Inv) : b.content.length = b.size := by
  rw [content, List.length_take, h.length_bytes, Nat.min_eq_left h.size]

theorem Inv.cur_of_lt (h : b.Inv) (hp : b.position < b.capacity) : b.cur = some (b.position / b.baseSize) := by
  rw [h.cur, if_neg (by omega)]

theorem Inv.getReadSize (h : b.Inv) : b.getReadSize = b.size - b.position := sizeSub_of_le h.position

theorem Inv.getCapacity (h : b.Inv) : b.getCapacity = b.capacity - b.position :=
  sizeSub_of_le (h.position.trans h.size)

/-- A new `ByteArray`. -/
theorem inv_new {baseSize : Nat} (hb : 0 < baseSize) (heap : Nat → Nat → UInt8) : (new baseSize heap).Inv where
  base := hb
  root := List.cons_ne_nil _ _
  sized := List.forall_mem_singleton.2 rfl
  capacity := (Nat.mul_one _).symm
  position := Nat.le_refl 0
  size := Nat.zero_le _
  cur := by
    show some 0 = if 0 = baseSize then none else some (0 / baseSize)
    rw [if_neg (by omega), Nat.zero_div]

/-! ## `addCapacity` -/

theorem le_ceilDiv_mul {c : Nat} (hc : 0 < c) (n : Nat) : n ≤ ceilDiv n c * c := by
  have h := Nat.div_add_mod (n + (c - 1)) c
  have := Nat.mod_lt (n + (c - 1)) hc
  rw [ceilDiv, Nat.mul_comm]
  omega

theorem sized_newNodes (b : ByteArray) (count : Nat) : Sized b.baseSize (b.newNodes count) := fun n hn => by
  obtain ⟨i, -, rfl⟩ := List.mem_map.1 hn
  rfl

/-- `addCapacity` appends nodes until there is room. -/
theorem addCapacity_spec (h : b.Inv) (n : Nat) : ∃ new capacity cur allocs,
    addCapacity n b = { b with nodes := b.nodes ++ new, capacity := capacity, cur := cur, allocs := allocs } ∧
      (addCapacity n b).Inv ∧ b.position + n ≤ (addCapacity n b).capacity := by
  have hcap := h.getCapacity
  have hpos := h.position
  have hsize := h.size
  unfold addCapacity
  split
  · rename_i h0
    exact ⟨[], b.capacity, b.cur, b.allocs, by simp, h, by omega⟩
  · simp only
    split
    · exact ⟨[], b.capacity, b.cur, b.allocs, by simp, h, by omega⟩
    · rename_i h0 hlt
      have hmul := le_ceilDiv_mul h.base (n - b.getCapacity)
      have hlen : (b.newNodes (ceilDiv (n - b.getCapacity) b.baseSize)).length =
          ceilDiv (n - b.getCapacity) b.baseSize := by simp [newNodes]
      generalize hcount : ceilDiv (n - b.getCapacity) b.baseSize = count at hmul hlen
      have hnew : b.capacity + count * b.baseSize = b.baseSize * (b.nodes ++ b.newNodes count).length := by
        rw [List.length_append, hlen, Nat.mul_add, h.capacity, Nat.mul_comm count]
      refine ⟨b.newNodes count, _, _, _, rfl, ?_, by simp only; omega⟩
      refine ⟨h.base, by simp [h.root], h.sized.append (sized_newNodes b count), hnew, h.position,
        by simp only; omega, ?_⟩
      simp only
      rw [if_neg (by omega : ¬b.position = b.capacity + count * b.baseSize)]
      split
      · rename_i hfull
        have hp : b.position = b.baseSize * b.nodes.length := by rw [← h.capacity]; omega
        have hcount0 : 0 < count := Nat.pos_of_ne_zero fun h0 => by subst h0; omega
        rw [hp, Nat.mul_div_cancel_left _ h.base, link, if_pos]
        rw [List.length_append, hlen]
        omega
      · exact h.cur_of_lt (by omega)

/-! ## Moving the cursor -/

/-- The chain from the node that holds a position on. -/
theorem Inv.drop_ne_nil (h : b.Inv) {p : Nat} (hp : p < b.capacity) : b.nodes.drop (p / b.baseSize) ≠ [] := by
  have hlt : p / b.baseSize < b.nodes.length := by
    rw [Nat.div_lt_iff_lt_mul h.base, Nat.mul_comm, ← h.capacity]
    exact hp
  intro hnil
  have := congrArg List.length hnil
  rw [List.length_drop, List.length_nil] at this
  omega

/-- How a position splits into the bytes of the nodes before it and an offset. -/
theorem Inv.position_eq (h : b.Inv) {p : Nat} (hp : p ≤ b.capacity) :
    (nodeBytes (b.nodes.take (p / b.baseSize))).length + p % b.baseSize = p := by
  have hle : p / b.baseSize ≤ b.nodes.length := by
    refine Nat.div_le_of_le_mul ?_
    rw [← h.capacity]
    exact hp
  rw [(h.sized.take _).length_nodeBytes, List.length_take, Nat.min_eq_left hle, Nat.div_add_mod]

theorem bytes_eq (b : ByteArray) (i : Nat) : b.bytes = nodeBytes (b.nodes.take i) ++ nodeBytes (b.nodes.drop i) := by
  rw [← nodeBytes_append, List.take_append_drop, bytes]

/-- The room behind a position, in the chain from its node on. -/
theorem Inv.room (h : b.Inv) {p n : Nat} (hp : p < b.capacity) (hn : p + n ≤ b.capacity) :
    p % b.baseSize + n ≤ b.baseSize * (b.nodes.drop (p / b.baseSize)).length := by
  have hpos := h.position_eq (Nat.le_of_lt hp)
  have hlen := congrArg List.length (b.bytes_eq (p / b.baseSize))
  rw [List.length_append, h.length_bytes, (h.sized.drop _).length_nodeBytes] at hlen
  omega

/-- The steps of a loop that advances the position by `n`. -/
theorem Inv.steps (h : b.Inv) (n : Nat) :
    b.position / b.baseSize + (b.position % b.baseSize + n) / b.baseSize = (b.position + n) / b.baseSize := by
  have hsplit : b.position + n = b.position % b.baseSize + n + b.baseSize * (b.position / b.baseSize) := by
    have := Nat.div_add_mod b.position b.baseSize
    omega
  rw [hsplit, Nat.add_mul_div_left _ _ h.base, Nat.add_comm]

theorem fromCur_ok {β : Type} (loop : List Node → Except BufferFault β) {i : Nat} {x : β} (hcur : b.cur = some i)
    (hloop : loop (b.nodes.drop i) = .ok x) : fromCur loop b = .ok x b := by
  rw [fromCur, hcur]
  simp only [hloop]

/-- The chain, the cursor and the size after a move. -/
theorem Inv.move (h : b.Inv) {nodes' : List Node} (hs : Sized b.baseSize nodes') (hl : nodes'.length = b.nodes.length)
    {pos size : Nat} (hp : pos ≤ size) (hsize : size ≤ b.capacity) :
    Inv { b with nodes := nodes', cur := link nodes' (pos / b.baseSize), position := pos, size := size } := by
  have hcap : b.capacity = b.baseSize * nodes'.length := by rw [hl, h.capacity]
  refine ⟨h.base, fun hn => h.root ?_, hs, hcap, hp, hsize, ?_⟩
  · rw [← List.length_eq_zero_iff, ← hl]
    exact List.length_eq_zero_iff.2 hn
  · show link nodes' (pos / b.baseSize) = _
    rw [link_eq h.base (by rw [← hcap]; omega), ← hcap]

/-! ## `write` and `read` -/

/-- What `write` does when its loop completes. -/
theorem write_of_loop {b b₁ : ByteArray} {buf : List UInt8} {i steps : Nat} {nodes' : List Node} (hbuf : buf.length ≠ 0)
    (hb : addCapacity buf.length b = b₁) (hcur : b₁.cur = some i)
    (hloop : writeLoop (b₁.nodes.drop i) (b₁.position % b₁.baseSize) buf = .ok (nodes', steps)) :
    write buf b = .ok () { b₁ with
      nodes := b₁.nodes.take i ++ nodes', cur := link (b₁.nodes.take i ++ nodes') (i + steps),
      position := b₁.position + buf.length, size := max b₁.size (b₁.position + buf.length) } := by
  have hmax : (if b₁.position + buf.length > b₁.size then b₁.position + buf.length else b₁.size) =
      max b₁.size (b₁.position + buf.length) := by
    rw [max_def]
    split <;> split <;> omega
  have hrun := fromCur_ok (fun chain => writeLoop chain (b₁.position % b₁.baseSize) buf) hcur hloop
  simp only [write, hbuf, if_false, BufferM.modify_bind, hb, BufferM.get_bind, BufferM.bind_ok hrun,
    BufferM.modify_apply]
  simp only [setFromCur, advance, hcur, Option.elim, Option.bind_some, hmax]

/-- `write`, of at least one byte. -/
theorem write_spec (h : b.Inv) {buf : List UInt8} (hbuf : buf ≠ []) : ∃ b', write buf b = .ok () b' ∧ b'.Inv ∧
    b'.baseSize = b.baseSize ∧ b'.endian = b.endian ∧ b'.position = b.position + buf.length ∧
    b'.size = max b.size (b.position + buf.length) ∧
    ∃ new, b'.bytes = overwrite (b.bytes ++ new) b.position buf := by
  have hpos : 0 < buf.length := List.length_pos_of_ne_nil hbuf
  obtain ⟨new, capacity, cur, allocs, hb₁, hi, hroom⟩ := addCapacity_spec h buf.length
  have hbytes : (addCapacity buf.length b).bytes = b.bytes ++ nodeBytes new := by rw [hb₁, bytes, nodeBytes_append]; rfl
  have hposition : (addCapacity buf.length b).position = b.position := by rw [hb₁]
  have hbase : (addCapacity buf.length b).baseSize = b.baseSize := by rw [hb₁]
  have hsize : (addCapacity buf.length b).size = b.size := by rw [hb₁]
  have hendian : (addCapacity buf.length b).endian = b.endian := by rw [hb₁]
  generalize hb : addCapacity buf.length b = b₁ at *
  rw [← hposition] at hroom
  have hlt : b₁.position < b₁.capacity := by omega
  obtain ⟨nodes', hloop, hs, hlen, hnb⟩ := writeLoop_spec hi.base _ buf (hi.sized.drop (b₁.position / b₁.baseSize))
    (Nat.mod_lt _ hi.base) hbuf (hi.room hlt hroom)
  have hw := write_of_loop (by omega) hb (hi.cur_of_lt hlt) hloop
  rw [hi.steps] at hw
  have hl : (b₁.nodes.take (b₁.position / b₁.baseSize) ++ nodes').length = b₁.nodes.length := by
    have := congrArg List.length (List.take_append_drop (b₁.position / b₁.baseSize) b₁.nodes)
    rw [List.length_append] at this ⊢
    omega
  have hsz := hi.size
  refine ⟨_, hw, hi.move ((hi.sized.take _).append hs) hl (by omega) (by omega), hbase, hendian, by rw [hposition],
    by rw [hposition, hsize], nodeBytes new, ?_⟩
  rw [← hbytes, ← hposition, bytes, nodeBytes_append, hnb, ← overwrite_append_right, hi.position_eq (Nat.le_of_lt hlt),
    ← bytes_eq]

theorem content_write (h : b.Inv) {b' : ByteArray} {buf new : List UInt8}
    (hs : b'.size = max b.size (b.position + buf.length)) (hb : b'.bytes = overwrite (b.bytes ++ new) b.position buf) :
    b'.content = overwrite b.content b.position buf := by
  have hlen := h.length_bytes
  have hsize := h.size
  rw [content, hs, hb, take_overwrite_max h.position (by rw [List.length_append]; omega),
    List.take_append_of_le_length (by omega)]
  rfl

/-- What `read` does when there is enough to read and its loop completes. -/
theorem read_of_loop {b : ByteArray} {n i steps : Nat} {bytes : List UInt8} (hn : ¬n > b.getReadSize)
    (hcur : b.cur = some i) (hloop : readLoop (b.nodes.drop i) (b.position % b.baseSize) n = .ok (bytes, steps)) :
    read n b = .ok bytes { b with cur := link b.nodes (i + steps), position := b.position + n } := by
  have hrun := fromCur_ok (fun chain => readLoop chain (b.position % b.baseSize) n) hcur hloop
  simp only [read, hn, if_false, BufferM.get_bind, BufferM.bind_ok hrun, BufferM.modify_bind, BufferM.pure_apply]
  simp only [advance, hcur, Option.bind_some]

/-- What the chain holds from the position on. -/
theorem Inv.slice_chain (h : b.Inv) {n : Nat} (hn : b.position + n ≤ b.size) (hlt : b.position < b.capacity) :
    slice (nodeBytes (b.nodes.drop (b.position / b.baseSize))) (b.position % b.baseSize) n =
      slice b.content b.position n := by
  rw [content, slice_take hn, ← slice_append_right, h.position_eq (Nat.le_of_lt hlt), ← bytes_eq]

/-- `read`, of so many bytes as there are to read, with the cursor on a node. -/
theorem read_spec (h : b.Inv) {n : Nat} (hn : b.position + n ≤ b.size) (hlt : b.position < b.capacity) :
    ∃ cur, read n b = .ok (slice b.content b.position n) { b with cur := cur, position := b.position + n } ∧
      Inv { b with cur := cur, position := b.position + n } := by
  have hsize := h.size
  have hloop := readLoop_spec h.base _ n (h.sized.drop (b.position / b.baseSize)) (Nat.mod_lt b.position h.base)
    (h.drop_ne_nil hlt) (h.room hlt (by omega : b.position + n ≤ b.capacity))
  have hr := read_of_loop (by rw [h.getReadSize]; omega) (h.cur_of_lt hlt) hloop
  rw [h.slice_chain hn hlt, h.steps] at hr
  exact ⟨_, hr, h.move h.sized rfl hn hsize⟩

/-- `read` of more than there is throws, and does nothing. -/
theorem read_outOfRange (h : b.Inv) {n : Nat} (hn : b.size < b.position + n) : read n b = .error .outOfRange b := by
  have hgt : n > b.getReadSize := by
    have := h.position
    rw [h.getReadSize]
    omega
  simp only [read, hgt, if_true, BufferM.get_bind]
  exact BufferM.bind_error (BufferM.throw_apply _) _

/-- With nothing to read and no node under the cursor, `read` follows a null pointer. -/
theorem read_null (h : b.Inv) {n : Nat} (hn : b.position + n ≤ b.size) (hp : ¬b.position < b.capacity) :
    read n b = .error .nullDeref b := by
  have hposition := h.position
  have hsize := h.size
  have hcur : b.cur = none := by rw [h.cur, if_pos (by omega)]
  have hge : ¬n > b.getReadSize := by rw [h.getReadSize]; omega
  have hnull : fromCur (fun chain => readLoop chain (b.position % b.baseSize) n) b = .error .nullDeref b := by
    rw [fromCur, hcur]
  simp only [read, hge, if_false, BufferM.get_bind, BufferM.bind_error hnull]

/-- What `read` returns has the length that was asked for. -/
theorem length_of_read (h : b.Inv) {n : Nat} {bytes : List UInt8} {b' : ByteArray} (hr : read n b = .ok bytes b') :
    bytes.length = n := by
  rcases Nat.lt_or_ge b.size (b.position + n) with hn | hn
  · rw [read_outOfRange h hn] at hr
    cases hr
  · by_cases hlt : b.position < b.capacity
    · obtain ⟨cur, hread, -⟩ := read_spec h hn hlt
      rw [hread] at hr
      cases hr
      exact length_slice (by rw [h.length_content]; exact hn)
    · rw [read_null h hn hlt] at hr
      cases hr

/-! ## The other operations -/

/-- `setPosition`, within the capacity. -/
theorem setPosition_spec (h : b.Inv) {v : Nat} (hv : v ≤ b.capacity) :
    ∃ cur, setPosition v b = .ok () { b with position := v, size := max b.size v, cur := cur } ∧
      Inv { b with position := v, size := max b.size v, cur := cur } := by
  have hsize := h.size
  have hmax : (if v > b.size then v else b.size) = max b.size v := by
    rw [max_def]
    split <;> split <;> omega
  have hseek := seekLoop_spec h.base h.sized h.root (by rw [← h.capacity]; exact hv : v ≤ b.baseSize * b.nodes.length)
  have hgt : ¬v > b.capacity := by omega
  refine ⟨link b.nodes (v / b.baseSize), ?_, h.move h.sized rfl (Nat.le_max_right _ _) (by omega)⟩
  have hrun := fromCur_ok (b := { b with position := v, size := max b.size v, cur := some 0 })
    (fun chain => seekLoop chain v) rfl hseek
  simp only [setPosition, hgt, if_false, BufferM.get_bind, hmax, BufferM.set_bind, BufferM.bind_ok hrun,
    BufferM.modify_apply]

/-- `setPosition` beyond the capacity throws, and does nothing. -/
theorem setPosition_outOfRange {v : Nat} (hv : b.capacity < v) : setPosition v b = .error .outOfRange b := by
  have hgt : v > b.capacity := hv
  simp only [setPosition, hgt, if_true, BufferM.get_bind]
  exact BufferM.bind_error (BufferM.throw_apply _) _

/-- `clear` leaves the first node. -/
theorem clear_spec (h : b.Inv) : ∃ b', clear b = .ok () b' ∧ b'.Inv := by
  refine ⟨_, rfl, h.base, ?_, h.sized.take 1, ?_, Nat.le_refl 0, Nat.zero_le _, ?_⟩
  · simp [h.root]
  · have hlen : 0 < b.nodes.length := List.length_pos_of_ne_nil h.root
    show b.baseSize = b.baseSize * (b.nodes.take 1).length
    rw [List.length_take, Nat.min_eq_left hlen, Nat.mul_one]
  · have := h.base
    show some 0 = if 0 = b.baseSize then none else some (0 / b.baseSize)
    rw [if_neg (by omega), Nat.zero_div]

/-- The loop of `getWriteBuffers`, from the node of a position with so many bytes of the chain behind it. -/
theorem Inv.gatherLoop (h : b.Inv) {p len : Nat} (hpos : 0 < len) (hroom : p + len ≤ b.capacity) :
    ∃ iovs, gatherLoop (b.nodes.drop (p / b.baseSize)) (p / b.baseSize) (p % b.baseSize) len = .ok iovs ∧
      Covers b.baseSize iovs p len ∧ Apart iovs := by
  have hlt : p < b.capacity := by omega
  have hmod := Nat.mod_lt p h.base
  obtain ⟨iovs, hloop, hcovers⟩ := gatherLoop_covers h.base (p / b.baseSize) _ len (h.sized.drop (p / b.baseSize))
    hmod (h.drop_ne_nil hlt) hpos (h.room hlt hroom)
  obtain ⟨hapart, -⟩ := gatherLoop_apart (h.sized.drop _) hmod hpos hloop
  rw [Nat.div_add_mod] at hcovers
  exact ⟨iovs, hloop, hcovers, hapart⟩

/-- The loop, from the cursor. -/
theorem Inv.gather (h : b.Inv) {len : Nat} (hpos : 0 < len) (hroom : b.position + len ≤ b.capacity) :
    ∃ iovs, fromCur (fun chain => ByteArray.gatherLoop chain (b.cur.getD 0) (b.position % b.baseSize) len) b =
      .ok iovs b ∧ Covers b.baseSize iovs b.position len ∧ Apart iovs := by
  have hcur : b.cur = some (b.position / b.baseSize) := h.cur_of_lt (by omega)
  obtain ⟨iovs, hloop, hcovers, hapart⟩ := h.gatherLoop hpos hroom
  refine ⟨iovs, fromCur_ok _ hcur ?_, hcovers, hapart⟩
  rw [hcur, Option.getD_some]
  exact hloop

/-- `getWriteBuffers` makes room for the bytes. -/
theorem getWriteBuffers_covers (h : b.Inv) {len : Nat} (hpos : 0 < len) :
    ∃ iovs, getWriteBuffers len b = .ok (iovs, len) (addCapacity len b) ∧
      Covers b.baseSize iovs b.position len ∧ Apart iovs := by
  obtain ⟨new, capacity, cur, allocs, hb₁, hi, hroom⟩ := addCapacity_spec h len
  have hposition : (addCapacity len b).position = b.position := by rw [hb₁]
  have hbase : (addCapacity len b).baseSize = b.baseSize := by rw [hb₁]
  have hne : len ≠ 0 := Nat.ne_of_gt hpos
  obtain ⟨iovs, hrun, hcovers, hapart⟩ := hi.gather hpos (by omega)
  rw [hbase, hposition] at hcovers
  refine ⟨iovs, ?_, hcovers, hapart⟩
  simp only [getWriteBuffers, if_neg hne, BufferM.modify_bind, BufferM.get_bind, BufferM.bind_ok hrun,
    BufferM.pure_apply]

/-- `getWriteBuffers` does to the `ByteArray` what `addCapacity` does. -/
theorem getWriteBuffers_spec (h : b.Inv) (len : Nat) :
    ∃ iovs, getWriteBuffers len b = .ok iovs (addCapacity len b) := by
  rcases Nat.eq_zero_or_pos len with rfl | hpos
  · exact ⟨_, rfl⟩
  · obtain ⟨iovs, hrun, -⟩ := getWriteBuffers_covers h hpos
    exact ⟨_, hrun⟩

/-! ## What operations keep -/

/-- The state that a call which completes leaves: it returned, or it threw. -/
def completed {β : Type} : EStateM.Result BufferFault ByteArray β → Option ByteArray
  | .ok _ b => some b
  | .error .outOfRange b | .error .lengthError b => some b
  | .error .nullDeref _ | .error .outOfBounds _ => none

/-- When the operation completes, the invariant still holds. -/
def Keeps {β : Type} (m : BufferM β) : Prop := ∀ b b', b.Inv → completed (m b) = some b' → b'.Inv

section Keeps

variable {β γ : Type}

theorem keeps_of_ok {m : BufferM β} (h : ∀ b, b.Inv → ∃ x b', m b = .ok x b' ∧ b'.Inv) : Keeps m := fun b b' hb hm => by
  obtain ⟨x, b₁, hr, hi⟩ := h b hb
  rw [hr] at hm
  cases hm
  exact hi

theorem keeps_pure (x : β) : Keeps (pure x : BufferM β) := keeps_of_ok fun b hb => ⟨x, b, rfl, hb⟩

theorem keeps_throw (f : BufferFault) : Keeps (throw f : BufferM β) := fun b b' hb hm => by
  rw [BufferM.throw_apply] at hm
  cases f <;> cases hm <;> exact hb

theorem keeps_get : Keeps (get : BufferM ByteArray) := keeps_of_ok fun b hb => ⟨b, b, rfl, hb⟩

theorem Keeps.bind {m : BufferM β} {k : β → BufferM γ} (hm : Keeps m) (hk : ∀ x, Keeps (k x)) : Keeps (m >>= k) := by
  intro b b' hb h
  have hkeep := hm b
  cases hr : m b with
  | ok x b₁ =>
    rw [BufferM.bind_ok hr] at h
    rw [hr] at hkeep
    exact hk x b₁ b' (hkeep b₁ hb rfl) h
  | error f b₁ =>
    rw [BufferM.bind_error hr] at h
    rw [hr] at hkeep
    exact hkeep b' hb (by cases f <;> exact h)

theorem Keeps.forM {α : Type} {f : α → BufferM PUnit} (hf : ∀ x, Keeps (f x)) (xs : List α) : Keeps (xs.forM f) := by
  induction xs with
  | nil => exact keeps_pure _
  | cons x xs ih => exact (hf x).bind fun _ => ih

end Keeps

theorem keeps_write (buf : List UInt8) : Keeps (write buf) := keeps_of_ok fun b hb => by
  by_cases hbuf : buf = []
  · subst hbuf
    exact ⟨(), b, rfl, hb⟩
  · obtain ⟨b', hw, hi, -⟩ := write_spec hb hbuf
    exact ⟨(), b', hw, hi⟩

theorem keeps_read (n : Nat) : Keeps (read n) := fun b b' hb h => by
  rcases Nat.lt_or_ge b.size (b.position + n) with hn | hn
  · rw [read_outOfRange hb hn] at h
    cases h
    exact hb
  · by_cases hlt : b.position < b.capacity
    · obtain ⟨cur, hr, hi⟩ := read_spec hb hn hlt
      rw [hr] at h
      cases h
      exact hi
    · rw [read_null hb hn hlt] at h
      cases h

theorem keeps_setPosition (v : Nat) : Keeps (setPosition v) := fun b b' hb h => by
  rcases Nat.lt_or_ge b.capacity v with hv | hv
  · rw [setPosition_outOfRange hv] at h
    cases h
    exact hb
  · obtain ⟨cur, hr, hi⟩ := setPosition_spec hb hv
    rw [hr] at h
    cases h
    exact hi

theorem keeps_clear : Keeps clear := keeps_of_ok fun _ hb => ⟨(), clear_spec hb⟩

theorem keeps_getWriteBuffers (len : Nat) : Keeps (getWriteBuffers len) := keeps_of_ok fun b hb => by
  obtain ⟨iovs, hr⟩ := getWriteBuffers_spec hb len
  exact ⟨iovs, _, hr, (addCapacity_spec hb len).choose_spec.choose_spec.choose_spec.choose_spec.2.1⟩

theorem keeps_readFromFile (file : Option (List UInt8)) : Keeps (readFromFile file) := by
  cases file with
  | none => exact keeps_pure _
  | some file => exact keeps_get.bind fun _ => (Keeps.forM keeps_write _).bind fun _ => keeps_pure _

theorem keeps_setIsLittleEndian (val : Bool) : Keeps (setIsLittleEndian val) := keeps_of_ok fun _ hb =>
  ⟨(), _, rfl, hb.base, hb.root, hb.sized, hb.capacity, hb.position, hb.size, hb.cur⟩

end ByteArray

end Megalo
