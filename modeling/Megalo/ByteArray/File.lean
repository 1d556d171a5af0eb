import Megalo.ByteArray.Streaming

/-!
# `ByteArray` dumped to a file and loaded from one

- `fileLoop` is the loop of `writeToFile`, which takes the offset in a node from the position and the length from the
  rest, and `toString` reads from the position without moving it, with `read(buf, size, position) const` (`readAt_eq`);
  an `int64_t` is an integer here;
- from the start of a node, or with at least a node's size left, the loop writes what there is to read
  (`fileLoop_aligned`, `fileLoop_cross`); with less left it computes lengths that come back to where it started, until
  the chain ends (`fileLoop_stuck`);
- loading cuts the file into chunks and writes them one after the other (`forM_write`, `readFromFile_spec`), so the
  round trip succeeds just where the dump does (`file_round_trip`).
-/

namespace Megalo

open MachineInt Overwrite

/-- An `std::ofstream`: what is in its file, and its `badbit`. -/
structure OfStream where
  file : List UInt8
  bad : Bool

/-- `ofs.write(cur->ptr + diff, len)`. A negative length is not what `sputn` returns, which sets `badbit`. -/
def OfStream.write (ofs : OfStream) (cur : Node) (diff len : Int) : Except BufferFault OfStream :=
  if ofs.bad ∨ len < 0 then .ok { ofs with bad := true }
  else if diff < 0 then .error .outOfBounds
  else do
    let bytes ← cur.copyOut diff.toNat len.toNat
    pure { ofs with file := ofs.file ++ bytes }

namespace ByteArray

/-- `read(buf, size, position) const`. -/
def readAt (size position : Nat) : BufferM (List UInt8) := do
  let b ← get
  if size > sizeSub b.size position then throw .outOfRange
  let (bytes, _) ← fromCur fun chain => readLoop chain (position % b.baseSize) size
  return bytes

/-- The byte of the chain that it reads first: the node is that of the cursor. -/
def readStart (b : ByteArray) (position : Nat) : Nat := b.baseSize * (b.position / b.baseSize) + position % b.baseSize

/-- `toString`. -/
def toString : BufferM (List UInt8) := do
  let b ← get
  if b.getReadSize = 0 then return []
  readAt b.getReadSize b.position

/-- The loop of `writeToFile`. -/
def fileLoop (baseSize : Nat) : List Node → Int → Int → OfStream → Except BufferFault OfStream
  | [], _, readSize, ofs => if readSize > 0 then .error .nullDeref else .ok ofs
  | cur :: next, pos, readSize, ofs =>
    if readSize > 0 then do
      let diff := intSize (pos.toNat % baseSize)
      let len := (if readSize > baseSize then (baseSize : Int) else readSize) - diff
      let ofs ← ofs.write cur diff len
      fileLoop baseSize next (pos + len) (readSize - len) ofs
    else .ok ofs

/-- `writeToFile`, of a file that can be opened or not: what is in the file then. -/
def writeToFile (opened : Bool) : BufferM (Option (List UInt8)) := do
  if !opened then return none
  let b ← get
  let chain := b.cur.elim [] fun i => b.nodes.drop i
  let ofs ← ofExcept (fileLoop b.baseSize chain b.position b.getReadSize ⟨[], false⟩)
  return some ofs.file

/-- The dump is what `toString` returns, and loading it into any new `ByteArray` gives that back. -/
def RoundTrips (b : ByteArray) : Prop :=
  ∃ file, writeToFile true b = .ok (some file) b ∧ toString b = .ok file b ∧
    ∀ baseSize heap, 0 < baseSize → ∃ c c', readFromFile (some file) (.new baseSize heap) = .ok true c ∧
      setPosition 0 c = .ok () c' ∧ toString c' = .ok file c'

/-- There is nothing to write, or the position is at the start of a node, or at least a node's size is left. -/
def Dumpable (b : ByteArray) : Prop :=
  b.getReadSize = 0 ∨ b.position % b.baseSize = 0 ∨
    b.baseSize ≤ b.getReadSize ∧ b.position % b.baseSize < intLimit

section Loop

variable {c pos size : Nat} {nodes : List Node} {ofs : OfStream} {file : List UInt8}

theorem fileLoop_done {p n : Int} (hn : ¬n > 0) : fileLoop c nodes p n ofs = .ok ofs := by
  cases nodes <;> rw [fileLoop, if_neg hn]

/-- From the start of a node. -/
theorem fileLoop_aligned (hs : Sized c nodes) (hpos : pos % c = 0) (hlen : size ≤ c * nodes.length) :
    fileLoop c nodes pos size ⟨file, false⟩ = .ok ⟨file ++ (nodeBytes nodes).take size, false⟩ := by
  induction nodes generalizing pos size file with
  | nil =>
    have hsize : size = 0 := by simpa using hlen
    subst hsize
    rw [fileLoop_done (by simp), List.take_zero, List.append_nil]
  | cons cur next ih =>
    obtain ⟨hcur, hnext⟩ := List.forall_mem_cons.1 hs
    have hptr : cur.ptr.length = c := cur.length_ptr.trans hcur
    have hdiff : intSize (Int.toNat pos % c) = 0 := by
      rw [Int.toNat_natCast, hpos]
      rfl
    rw [List.length_cons, Nat.mul_succ] at hlen
    rw [fileLoop]
    split
    · rename_i hgt
      simp only [hdiff, Int.sub_zero]
      split
      · -- a whole node, and the loop goes on at the start of the next
        rename_i hmore
        have hwrite : OfStream.write ⟨file, false⟩ cur 0 c = .ok ⟨file ++ cur.ptr, false⟩ := by
          rw [OfStream.write, if_neg (by simp), if_neg (by omega), Int.toNat_natCast, Int.toNat_zero,
            Node.copyOut_of_le (by omega), slice, List.drop_zero, List.take_of_length_le (by omega)]
          rfl
        have hrest : (pos : Int) + c = ((pos + c : Nat) : Int) := by omega
        have hleft : (size : Int) - c = ((size - c : Nat) : Int) := by omega
        rw [hwrite, hrest, hleft]
        show fileLoop c next _ _ _ = _
        rw [ih hnext (by rw [Nat.add_mod_right]; exact hpos) (by omega), List.append_assoc, nodeBytes_cons,
          List.take_append, List.take_of_length_le (by omega : cur.ptr.length ≤ size), hptr]
      · -- the rest is in this node
        have hwrite : OfStream.write ⟨file, false⟩ cur 0 size = .ok ⟨file ++ cur.ptr.take size, false⟩ := by
          rw [OfStream.write, if_neg (by simp), if_neg (by omega), Int.toNat_natCast, Int.toNat_zero,
            Node.copyOut_of_le (by omega), slice, List.drop_zero]
          rfl
        rw [hwrite, Int.sub_self]
        show fileLoop c next _ _ _ = _
        rw [fileLoop_done (by omega), nodeBytes_cons, List.take_append_of_le_length (by omega)]
    · have hsize : size = 0 := by omega
      rw [hsize, List.take_zero, List.append_nil]

/-- From inside a node, with at least a node's size left. -/
theorem fileLoop_cross (hc : 0 < c) (hs : Sized c nodes) (hmod : pos % c < intLimit) (hsize : c ≤ size)
    (hlen : pos % c + size ≤ c * nodes.length) :
    fileLoop c nodes pos size ⟨[], false⟩ = .ok ⟨slice (nodeBytes nodes) (pos % c) size, false⟩ := by
  have hlt := Nat.mod_lt pos hc
  cases nodes with
  | nil =>
    rw [List.length_nil, Nat.mul_zero] at hlen
    omega
  | cons cur next =>
    obtain ⟨hcur, hnext⟩ := List.forall_mem_cons.1 hs
    have hptr : cur.ptr.length = c := cur.length_ptr.trans hcur
    rw [List.length_cons, Nat.mul_succ] at hlen
    have hdiff : intSize (Int.toNat pos % c) = (pos % c : Nat) := by
      rw [Int.toNat_natCast]
      exact intSize_of_lt hmod
    have hmin : (if (size : Int) > c then (c : Int) else size) = c := by
      split <;> omega
    have hwrite : OfStream.write ⟨[], false⟩ cur (pos % c : Nat) ((c : Int) - (pos % c : Nat)) =
        .ok ⟨slice cur.ptr (pos % c) (c - pos % c), false⟩ := by
      have hto : ((c : Int) - (pos % c : Nat)).toNat = c - pos % c := by omega
      rw [OfStream.write, if_neg (by simp; omega), if_neg (by omega), Int.toNat_natCast, hto,
        Node.copyOut_of_le (by omega)]
      rfl
    have hrest : (pos : Int) + ((c : Int) - (pos % c : Nat)) = ((pos + (c - pos % c) : Nat) : Int) := by omega
    have hleft : (size : Int) - ((c : Int) - (pos % c : Nat)) = ((size - (c - pos % c) : Nat) : Int) := by omega
    have haligned : (pos + (c - pos % c)) % c = 0 := by
      have hsplit : pos + (c - pos % c) = c * (pos / c + 1) := by
        have := Nat.div_add_mod pos c
        rw [Nat.mul_succ]
        omega
      rw [hsplit, Nat.mul_mod_right]
    rw [fileLoop, if_pos (by omega)]
    simp only [hdiff, hmin]
    rw [hwrite, hrest, hleft]
    show fileLoop c next _ _ _ = _
    rw [fileLoop_aligned hnext haligned (by omega), nodeBytes_cons,
      slice_append_cross (by omega) (by omega), hptr]
    rfl

/-- Where a step with less than a node's size left leads to: the rest becomes the offset. -/
theorem next_offset {p n : Int} (hp : 0 ≤ p) (hn : 0 ≤ n) (hnc : n < c) :
    (p + (n - (p.toNat % c : Nat))).toNat % c = n.toNat := by
  have hsplit : (p + (n - (p.toNat % c : Nat))).toNat = n.toNat + c * (p.toNat / c) := by
    have := Nat.div_add_mod p.toNat c
    omega
  rw [hsplit, Nat.add_mul_mod_self_left, Nat.mod_eq_of_lt (by omega)]

/-- Inside a node and with less than a node's size left, the loop only ends at the end of the chain: what it takes for
the offset and for the rest change places with every step. -/
theorem fileLoop_stuck {p n : Int} (hp : 0 ≤ p) (hpos : 0 < p.toNat % c) (hmod : p.toNat % c < intLimit) (hn : 0 < n)
    (hnc : n < c) (hni : n < intLimit) : ∃ f, fileLoop c nodes p n ofs = .error f := by
  induction nodes generalizing p n ofs with
  | nil => exact ⟨.nullDeref, by rw [fileLoop, if_pos hn]⟩
  | cons cur next ih =>
    have hlt := Nat.mod_lt p.toNat (show 0 < c by omega)
    have hle : p.toNat % c ≤ p.toNat := Nat.mod_le _ _
    rw [fileLoop, if_pos hn, if_neg (by omega), intSize_of_lt hmod]
    cases hw : ofs.write cur (p.toNat % c : Nat) (n - (p.toNat % c : Nat)) with
    | error f => exact ⟨f, by simp only [hw]; rfl⟩
    | ok ofs' =>
      have hnext := next_offset hp (Int.le_of_lt hn) hnc
      obtain ⟨f, hf⟩ : ∃ f, fileLoop c next (p + (n - (p.toNat % c : Nat))) (p.toNat % c : Nat) ofs' = .error f :=
        ih (by omega) (by omega) (by rw [hnext]; omega) (by omega) (by omega) (by omega)
      refine ⟨f, ?_⟩
      simp only [hw]
      show fileLoop c next _ (n - (n - _)) ofs' = _
      rw [Int.sub_sub_self]
      exact hf

/-- An offset that does not fit in an `int` points in front of the node. -/
theorem fileLoop_beyond {p n : Int} (hc : 0 < c) (hbase : c ≤ 0x100000000) (hmod : intLimit ≤ p.toNat % c)
    (hn : 0 < n) : ∃ f, fileLoop c nodes p n ⟨file, false⟩ = .error f := by
  have hneg := intSize_neg hmod (Nat.lt_of_lt_of_le (Nat.mod_lt _ hc) hbase)
  cases nodes with
  | nil => exact ⟨.nullDeref, by rw [fileLoop, if_pos hn]⟩
  | cons cur next =>
    refine ⟨.outOfBounds, ?_⟩
    rw [fileLoop, if_pos hn]
    simp only [OfStream.write]
    rw [if_neg, if_pos hneg]
    · rfl
    · simp only [Bool.false_eq_true, false_or]
      split <;> omega

/-- A rest that does not fit in an `int` becomes such an offset. -/
theorem fileLoop_overflow {p n : Int} (hc : 0 < c) (hbase : c ≤ 0x100000000) (hp : 0 ≤ p) (hpos : 0 < p.toNat % c)
    (hmod : p.toNat % c < intLimit) (hn : (intLimit : Int) ≤ n) (hnc : n < c) :
    ∃ f, fileLoop c nodes p n ⟨file, false⟩ = .error f := by
  cases nodes with
  | nil => exact ⟨.nullDeref, by rw [fileLoop, if_pos (by omega)]⟩
  | cons cur next =>
    rw [fileLoop, if_pos (by omega), if_neg (by omega), intSize_of_lt hmod]
    simp only [OfStream.write]
    rw [if_neg (by simp only [Bool.false_eq_true, false_or]; omega), if_neg (by omega)]
    cases cur.copyOut (Int.toNat (p.toNat % c : Nat)) (n - (p.toNat % c : Nat)).toNat with
    | error f => exact ⟨f, rfl⟩
    | ok bytes =>
      show ∃ f, fileLoop c next _ (n - (n - _)) ⟨file ++ bytes, false⟩ = .error f
      rw [Int.sub_sub_self]
      exact fileLoop_beyond hc hbase (by rw [next_offset hp (by omega) hnc]; omega) (by omega)

end Loop

section Spec

variable {b : ByteArray}

theorem Inv.slice_rest (h : b.Inv) : slice b.content b.position b.getReadSize = b.content.drop b.position := by
  rw [slice, List.take_of_length_le]
  rw [List.length_drop, h.length_content, h.getReadSize]

/-- In the node of the cursor it is the byte at the position. -/
theorem readStart_of_node {p : Nat} (hp : p / b.baseSize = b.position / b.baseSize) : b.readStart p = p := by
  rw [readStart, ← hp, Nat.div_add_mod]

/-- `read(buf, size, position) const` reads from the node of the cursor on, or follows a null pointer at the end of the
chain. -/
theorem readAt_eq (h : b.Inv) {n p : Nat} (hn : ¬n > sizeSub b.size p) : readAt n p b =
    if b.position < b.capacity ∧ b.readStart p + n ≤ b.capacity then .ok (slice b.bytes (b.readStart p) n) b
    else .error .nullDeref b := by
  by_cases hlt : b.position < b.capacity
  · have hmod := Nat.mod_lt p h.base
    have hposition := h.position_eq (Nat.le_of_lt hlt)
    have hdiv := Nat.div_add_mod b.position b.baseSize
    have hchain := congrArg List.length (b.bytes_eq (b.position / b.baseSize))
    rw [List.length_append, h.length_bytes, (h.sized.drop _).length_nodeBytes] at hchain
    have hstart : b.readStart p = (nodeBytes (b.nodes.take (b.position / b.baseSize))).length + p % b.baseSize := by
      rw [readStart]
      omega
    by_cases hroom : b.readStart p + n ≤ b.capacity
    · have hloop := readLoop_spec h.base _ n (h.sized.drop (b.position / b.baseSize)) hmod (h.drop_ne_nil hlt)
        (by omega)
      have hrun := fromCur_ok (fun chain => readLoop chain (p % b.baseSize) n) (h.cur_of_lt hlt) hloop
      rw [if_pos ⟨hlt, hroom⟩, hstart, b.bytes_eq (b.position / b.baseSize), slice_append_right]
      simp only [readAt, BufferM.get_bind, hn, if_false, BufferM.bind_ok hrun, BufferM.pure_apply]
    · have hloop : readLoop (b.nodes.drop (b.position / b.baseSize)) (p % b.baseSize) n = .error .nullDeref :=
        readLoop_null (h.sized.drop _) hmod (by omega)
      have hnull : fromCur (fun chain => readLoop chain (p % b.baseSize) n) b = .error .nullDeref b := by
        rw [fromCur, h.cur_of_lt hlt]
        simp only [hloop]
      rw [if_neg fun hand => hroom hand.2]
      simp only [readAt, BufferM.get_bind, hn, if_false, BufferM.bind_error hnull]
  · have hsize := h.size
    have hposition := h.position
    have hnull : fromCur (fun chain => readLoop chain (p % b.baseSize) n) b = .error .nullDeref b := by
      rw [fromCur, h.cur, if_pos (by omega)]
    rw [if_neg fun hand => hlt hand.1]
    simp only [readAt, BufferM.get_bind, hn, if_false, BufferM.bind_error hnull]

/-- `toString` is the content from the position on. -/
theorem toString_spec (h : b.Inv) : toString b = .ok (b.content.drop b.position) b := by
  have hread := h.getReadSize
  have hpos := h.position
  have hsize := h.size
  simp only [toString, BufferM.get_bind]
  by_cases h0 : b.getReadSize = 0
  · rw [if_pos h0, List.drop_eq_nil_of_le (by rw [h.length_content]; omega)]
    rfl
  · have hlt : b.position < b.capacity := by omega
    have hgt : ¬b.getReadSize > sizeSub b.size b.position := Nat.lt_irrefl _
    have hcontent := h.slice_rest
    rw [content, slice_take (by omega)] at hcontent
    simp only [h0, if_false]
    rw [readAt_eq h hgt, readStart_of_node rfl, if_pos ⟨hlt, by omega⟩, hcontent, content]

/-- What `writeToFile` does when its loop completes, and when it does not. -/
theorem writeToFile_of_loop (h : b.Inv) (hlt : b.position < b.capacity) : writeToFile true b =
    match fileLoop b.baseSize (b.nodes.drop (b.position / b.baseSize)) b.position b.getReadSize ⟨[], false⟩ with
    | .ok ofs => .ok (some ofs.file) b
    | .error f => .error f b := by
  simp only [writeToFile, Bool.not_true, Bool.false_eq_true, if_false, BufferM.get_bind, h.cur_of_lt hlt, Option.elim]
  cases fileLoop b.baseSize (b.nodes.drop (b.position / b.baseSize)) b.position b.getReadSize ⟨[], false⟩ with
  | ok ofs => rfl
  | error f => rfl

/-- `writeToFile`, from where it can. -/
theorem writeToFile_spec (h : b.Inv) (hd : b.Dumpable) :
    writeToFile true b = .ok (some (b.content.drop b.position)) b := by
  have hread := h.getReadSize
  have hpos := h.position
  have hsize := h.size
  by_cases hlt : b.position < b.capacity
  · have hroom := h.room hlt (n := b.getReadSize) (by omega)
    have hchain := h.sized.drop (b.position / b.baseSize)
    have hbytes := h.slice_chain (n := b.getReadSize) (by omega) hlt
    rw [h.slice_rest] at hbytes
    rw [writeToFile_of_loop h hlt, ← hbytes]
    rcases hd with h0 | haligned | ⟨hle, hmod⟩
    · rw [h0, fileLoop_done (by simp), slice_zero]
    · rw [haligned] at hroom ⊢
      rw [fileLoop_aligned hchain haligned (by omega)]
      rfl
    · rw [fileLoop_cross h.base hchain hmod hle hroom]
  · have hcur : b.cur = none := by rw [h.cur, if_pos (by omega)]
    have h0 : b.getReadSize = 0 := by omega
    rw [List.drop_eq_nil_of_le (by rw [h.length_content]; omega)]
    simp only [writeToFile, Bool.not_true, Bool.false_eq_true, if_false, BufferM.get_bind, hcur, Option.elim, h0]
    rfl

/-- From elsewhere `writeToFile` runs into the end of the chain or out of a node. -/
theorem writeToFile_fails (h : b.Inv) (hbase : b.baseSize ≤ 0x100000000) (hd : ¬b.Dumpable) :
    ∃ f, writeToFile true b = .error f b := by
  have hread := h.getReadSize
  have hpos := h.position
  have hsize := h.size
  obtain ⟨h0, haligned, hinside⟩ : b.getReadSize ≠ 0 ∧ b.position % b.baseSize ≠ 0 ∧
      ¬(b.baseSize ≤ b.getReadSize ∧ b.position % b.baseSize < intLimit) := by
    unfold Dumpable at hd
    tauto
  have hlt : b.position < b.capacity := by omega
  have hmod := Nat.mod_lt b.position h.base
  suffices ∃ f, fileLoop b.baseSize (b.nodes.drop (b.position / b.baseSize)) b.position b.getReadSize ⟨[], false⟩ =
      .error f by
    obtain ⟨f, hf⟩ := this
    exact ⟨f, by rw [writeToFile_of_loop h hlt, hf]⟩
  by_cases hint : intLimit ≤ b.position % b.baseSize
  · exact fileLoop_beyond h.base hbase hint (by omega)
  · have hrest : b.getReadSize < b.baseSize := by omega
    by_cases hrint : b.getReadSize < intLimit
    · exact fileLoop_stuck (Int.natCast_nonneg _) (Nat.pos_of_ne_zero haligned) (Nat.lt_of_not_le hint) (by omega)
        (by omega) (by omega)
    · exact fileLoop_overflow h.base hbase (Int.natCast_nonneg _) (Nat.pos_of_ne_zero haligned) (Nat.lt_of_not_le hint)
        (by omega) (by omega)

/-! ## Loading -/

/-- Chunks that are written one after the other are there one after the other. -/
theorem forM_write (h : b.Inv) (chunks : List (List UInt8)) : ∃ b', chunks.forM write b = .ok () b' ∧ b'.Inv ∧
    b'.content = overwrite b.content b.position chunks.flatten := by
  induction chunks generalizing b with
  | nil => exact ⟨b, rfl, h, overwrite_nil.symm⟩
  | cons buf chunks ih =>
    by_cases hbuf : buf = []
    · subst hbuf
      exact ih h
    · obtain ⟨b₁, hw, hi, -, -, hpos, hsize, new, hbytes⟩ := write_spec h hbuf
      obtain ⟨b', hrun, hi', hcontent⟩ := ih hi
      refine ⟨b', (BufferM.bind_ok hw _).trans hrun, hi', ?_⟩
      rw [hcontent, content_write h hsize hbytes, hpos, List.flatten_cons, overwrite_overwrite]
      rw [h.length_content]
      exact h.position

/-- The first chunks of a list. -/
theorem flatten_chunks (c : Nat) (l : List UInt8) (n : Nat) :
    ((List.range n).map fun i => (l.drop (i * c)).take c).flatten = l.take (n * c) := by
  induction n with
  | zero => rw [Nat.zero_mul, List.take_zero]; rfl
  | succ n ih =>
    rw [List.range_succ, List.map_append, List.flatten_append, ih, Nat.succ_mul, List.take_add, List.map_singleton,
      List.flatten_singleton]

theorem flatten_fileChunks {c : Nat} (hc : 0 < c) (file : List UInt8) : (fileChunks c file).flatten = file := by
  rw [fileChunks, flatten_chunks, List.take_of_length_le]
  have := Nat.div_add_mod file.length c
  have := Nat.mod_lt file.length hc
  rw [Nat.add_mul, Nat.one_mul, Nat.mul_comm]
  omega

/-- `readFromFile` into a new `ByteArray`. -/
theorem readFromFile_spec {c : Nat} (hc : 0 < c) (heap : Nat → Nat → UInt8) (file : List UInt8) :
    ∃ b, readFromFile (some file) (new c heap) = .ok true b ∧ b.Inv ∧ b.content = file := by
  obtain ⟨b, hrun, hi, hcontent⟩ := forM_write (inv_new hc heap) (fileChunks c file)
  refine ⟨b, ?_, hi, ?_⟩
  · have hbase : (new c heap).baseSize = c := rfl
    simp only [readFromFile, BufferM.get_bind, hbase, BufferM.bind_ok hrun, BufferM.pure_apply]
  · rw [hcontent, flatten_fileChunks hc]
    show [] ++ (file ++ List.drop _ []) = file
    rw [List.drop_nil, List.append_nil, List.nil_append]

/-- What was loaded is read back from position 0. -/
theorem toString_loaded (h : b.Inv) : ∃ b', setPosition 0 b = .ok () b' ∧ toString b' = .ok b.content b' := by
  obtain ⟨cur, hset, hi⟩ := setPosition_spec h (Nat.zero_le b.capacity)
  have hcontent : ByteArray.content { b with position := 0, size := max b.size 0, cur := cur } = b.content := by
    rw [content, content, Nat.max_zero]
    rfl
  refine ⟨_, hset, ?_⟩
  rw [toString_spec hi, hcontent]
  rfl

theorem roundTrips_of_dumpable (h : b.Inv) (hd : b.Dumpable) : b.RoundTrips := by
  refine ⟨_, writeToFile_spec h hd, toString_spec h, fun baseSize heap hb => ?_⟩
  obtain ⟨c, hread, hi, hcontent⟩ := readFromFile_spec hb heap (b.content.drop b.position)
  obtain ⟨c', hset, hstring⟩ := toString_loaded hi
  exact ⟨c, c', hread, hset, hcontent ▸ hstring⟩

end Spec

end ByteArray

/-- **Dump and load round trip** from the start of a node, or with at least a node's size to write. From elsewhere they
never do, with nodes of up to 2^32 bytes; in larger ones an offset of 2^32 or more is truncated to another one. -/
theorem file_round_trip {b : ByteArray} (h : streamSys.Reachable b) :
    (b.Dumpable → b.RoundTrips) ∧ (b.baseSize ≤ 0x100000000 → (b.RoundTrips ↔ b.Dumpable)) := by
  have hi := inv_streamed h
  have hmp : b.Dumpable → b.RoundTrips := ByteArray.roundTrips_of_dumpable hi
  refine ⟨hmp, fun hbase => ⟨?_, hmp⟩⟩
  rintro ⟨file, hwrite, -, -⟩
  by_contra hd
  obtain ⟨f, hf⟩ := ByteArray.writeToFile_fails hi hbase hd
  rw [hf] at hwrite
  cases hwrite

/-- Nodes of two bytes, five bytes written, and the dump from the second one. -/
theorem file_round_trip_inside : ∃ b : ByteArray, b.position = 1 ∧ b.RoundTrips := by
  obtain ⟨b, hb, hp⟩ := streamSys.reachable_of_exec (.new 2 fun _ _ => 0) ⟨2, _, by decide, rfl⟩
    [.call (.write [1, 2, 3, 4, 5]), .call (.setPosition 1)]
    (p := fun b => b.position == 1 && b.baseSize == 2 && b.getReadSize == 4) rfl
  simp only [Bool.and_eq_true, beq_iff_eq] at hp
  obtain ⟨⟨hpos, hbase⟩, hread⟩ := hp
  refine ⟨b, hpos, (file_round_trip hb).1 (.inr (.inr ?_))⟩
  rw [hpos, hbase, hread]
  decide

/-- Nodes of four bytes, three bytes written: the dump from the second one steps past the end of the chain. -/
theorem writeToFile_past_end : ∃ b, streamSys.Reachable b ∧ ¬b.RoundTrips := by
  obtain ⟨b, hb, hp⟩ := streamSys.reachable_of_exec (.new 4 fun _ _ => 0) ⟨4, _, by decide, rfl⟩
    [.call (.write [1, 2, 3]), .call (.setPosition 1)]
    (p := fun b => match ByteArray.writeToFile true b with | .error .nullDeref _ => true | _ => false)
    rfl
  refine ⟨b, hb, ?_⟩
  rintro ⟨file, hwrite, -, -⟩
  rw [hwrite] at hp
  cases hp

end Megalo
