import Megalo.ByteArray.Buffers

/-!
# Streaming a `ByteArray` over a connection

- `SocketStream.write` and `SocketStream.read` hand the buffers of a `ByteArray` to a socket, which transfers some of
  the bytes, and move the position behind these; `writeFixSize` and `readFixSize` call them until all is transferred;
- `fixSize_ok` is the rule for the two loops; `write_spec` and `read_spec` say what one call does, `writeFixSize_spec`
  and `readFixSize_spec` what the loops do;
- `streamSys` is a `ByteArray` in use that is also streamed. What is written at one end is read at the other
  (`streaming_lossless`).
-/

namespace Megalo

open Overwrite MachineInt

/-! ## The socket -/

/-- A socket with the bytes that are on the way, from it where it sends and to it where it receives. `counts` is what
the calls of `sendmsg` or `recvmsg` return where there are enough bytes, one after the other. -/
structure Socket where
  connected : Bool
  counts : Nat → Int
  calls : Nat
  wire : List UInt8

namespace Socket

/-- What the next call returns, where `most` bytes can be transferred. -/
def result (s : Socket) (most : Nat) : Int := min (s.counts s.calls) most

/-- `send`, of the bytes of some buffers. Its result is an `int`. -/
def send (bytes : List UInt8) (s : Socket) : Int × Socket :=
  if s.connected then
    let rt := s.result bytes.length
    (rt.bmod 0x100000000, { s with calls := s.calls + 1, wire := s.wire ++ bytes.take rt.toNat })
  else (-1, s)

/-- `recv`, into buffers with so much room: its result, an `int`, the bytes, and the socket. -/
def recv (room : Nat) (s : Socket) : Int × List UInt8 × Socket :=
  if s.connected then
    let rt := s.result (min room s.wire.length)
    (rt.bmod 0x100000000, s.wire.take rt.toNat, { s with calls := s.calls + 1, wire := s.wire.drop rt.toNat })
  else (-1, [], s)

/-- Every call transfers something. -/
def Positive (s : Socket) : Prop := s.connected = true ∧ ∀ i, 0 < s.counts i

end Socket

/-- A computation that does not change the `ByteArray`. -/
def ofExcept {β : Type} (x : Except BufferFault β) : BufferM β := fun b =>
  match x with
  | .ok v => .ok v b
  | .error f => .error f b

namespace SocketStream

/-- `write(ba, length)`. -/
def write (length : Nat) (s : Socket) : BufferM (Int × Socket) := do
  if !s.connected then return (-1, s)
  let buffers ← ByteArray.getReadBuffers length
  let ba ← get
  let bytes ← ofExcept (gather ba.nodes buffers.1)
  let (rt, s) := s.send bytes
  if rt > 0 then ByteArray.setPosition (ba.position + rt.toNat)
  return (rt, s)

/-- `read(ba, length)`. -/
def read (length : Nat) (s : Socket) : BufferM (Int × Socket) := do
  if !s.connected then return (-1, s)
  let buffers ← ByteArray.getWriteBuffers length
  let ba ← get
  let (rt, bytes, s) := s.recv (buffers.1.map IoVec.len).sum
  let nodes ← ofExcept (scatter ba.nodes buffers.1 bytes)
  set { ba with nodes }
  if rt > 0 then ByteArray.setPosition (ba.position + rt.toNat)
  return (rt, s)

/-- The loop of `readFixSize` and `writeFixSize`. -/
def fixSize (op : Nat → Socket → BufferM (Int × Socket)) (length left : Nat) (s : Socket) : BufferM (Int × Socket) :=
  if left = 0 then pure (intSize length, s)
  else do
    let r ← op left s
    if r.1 ≤ 0 then return r
    else fixSize op length (left - r.1.toNat) r.2
termination_by left

/-- `int64_t left = length`, where nothing is left when it is negative. -/
def leftOf (length : Nat) : Nat := ((length : Int).bmod 0x10000000000000000).toNat

/-- `writeFixSize(ba, length)`. -/
def writeFixSize (length : Nat) (s : Socket) : BufferM (Int × Socket) := fixSize write length (leftOf length) s

/-- `readFixSize(ba, length)`. -/
def readFixSize (length : Nat) (s : Socket) : BufferM (Int × Socket) := fixSize read length (leftOf length) s

/-! ## Transfers -/

section

variable {b : ByteArray} {s : Socket} {op : Nat → Socket → BufferM (Int × Socket)} {length left n : Nat}
  {bytes data rest : List UInt8}

theorem bmod_int {k : Nat} (h : k < intLimit) : (k : Int).bmod 0x100000000 = k := intSize_of_lt h

theorem leftOf_of_lt (h : n < intLimit) : leftOf n = n := by
  unfold intLimit at h
  have hbmod : (n : Int).bmod 0x10000000000000000 = n := by
    rw [Int.bmod_eq_of_le]
    · omega
    · omega
  unfold leftOf
  rw [hbmod]
  exact Int.toNat_natCast n

/-- A call that can transfer something transfers a part of it. -/
theorem result_pos (hs : s.Positive) {most : Nat} (hmost : 0 < most) :
    ∃ k : Nat, s.result most = k ∧ 0 < k ∧ k ≤ most := by
  have hcount := hs.2 s.calls
  refine ⟨(s.result most).toNat, ?_, ?_, ?_⟩
  · rw [Socket.result]
    omega
  · rw [Socket.result]
    omega
  · rw [Socket.result]
    omega

theorem send_ok (hs : s.Positive) (hpos : 0 < bytes.length) (hint : bytes.length < intLimit) :
    ∃ k : Nat, 0 < k ∧ k ≤ bytes.length ∧
      s.send bytes = (↑k, { s with calls := s.calls + 1, wire := s.wire ++ bytes.take k }) := by
  obtain ⟨k, hk, hk0, hle⟩ := result_pos hs hpos
  refine ⟨k, hk0, hle, ?_⟩
  simp only [Socket.send, if_pos hs.1, hk, bmod_int (by omega : k < intLimit), Int.toNat_natCast]

theorem recv_ok (hs : s.Positive) {room : Nat} (hpos : 0 < room) (hint : room < intLimit)
    (hwire : room ≤ s.wire.length) : ∃ k : Nat, 0 < k ∧ k ≤ room ∧
      s.recv room = (↑k, s.wire.take k, { s with calls := s.calls + 1, wire := s.wire.drop k }) := by
  obtain ⟨k, hk, hk0, hle⟩ := result_pos hs hpos
  refine ⟨k, hk0, hle, ?_⟩
  simp only [Socket.recv, if_pos hs.1, Nat.min_eq_left hwire, hk, bmod_int (by omega : k < intLimit),
    Int.toNat_natCast]

/-- No more is received than there is room for. -/
theorem recv_length (s : Socket) (room : Nat) : (s.recv room).2.1.length ≤ room := by
  rw [Socket.recv]
  split
  · rw [List.length_take, Socket.result]
    omega
  · exact Nat.zero_le _

theorem ofExcept_ok {β : Type} {x : Except BufferFault β} {v : β} (h : x = .ok v) : ofExcept x b = .ok v b := by
  rw [h]
  rfl

/-! ## The loops -/

theorem fixSize_zero : fixSize op length 0 s b = .ok (intSize length, s) b := by
  rw [fixSize]
  rfl

theorem fixSize_step {k : Nat} {s' : Socket} {b' : ByteArray} (hleft : 0 < left) (hk : 0 < k)
    (hop : op left s b = .ok (↑k, s') b') : fixSize op length left s b = fixSize op length (left - k) s' b' := by
  rw [fixSize, if_neg (Nat.ne_of_gt hleft), BufferM.bind_ok hop]
  simp only [Int.toNat_natCast]
  rw [if_neg (by omega)]

/-- **The rule for the loops.** A call that transfers a part of what is left keeps what holds while so much is left;
then the loop returns its length, and it holds that nothing is left. -/
theorem fixSize_ok (length : Nat) {P : Nat → Socket → ByteArray → Prop} (hstep : ∀ left s b, 0 < left → P left s b →
    ∃ k s' b', 0 < k ∧ op left s b = .ok ((k : Nat), s') b' ∧ P (left - k) s' b') (h : P left s b) :
    ∃ s' b', fixSize op length left s b = .ok (intSize length, s') b' ∧ P 0 s' b' := by
  induction left using Nat.strong_induction_on generalizing s b with
  | _ left ih =>
    rcases Nat.eq_zero_or_pos left with rfl | hleft
    · exact ⟨s, b, fixSize_zero, h⟩
    · obtain ⟨k, s', b', hk, hop, hP⟩ := hstep left s b hleft h
      rw [fixSize_step hleft hk hop]
      exact ih (left - k) (by omega) hP

/-! ## Writing -/

/-- A call sends a part of the bytes at the position, and moves behind them. -/
theorem write_spec (h : b.Inv) (hs : s.Positive) (hpos : 0 < left) (hint : left < intLimit)
    (hsize : b.position + left ≤ b.size) : ∃ k cur, 0 < k ∧ k ≤ left ∧
      write left s b = .ok ((k : Nat), { s with
        calls := s.calls + 1, wire := s.wire ++ slice b.content b.position k })
        { b with cur := cur, position := b.position + k } ∧
      ByteArray.Inv { b with cur := cur, position := b.position + k } := by
  have hcap := h.size
  obtain ⟨iovs, hbuffers, hcovers, -⟩ := ByteArray.getReadBuffers_spec h hpos hsize
  have hgather := ByteArray.gather_content h hcovers hsize
  have hlength : (slice b.content b.position left).length = left := length_slice (by rw [h.length_content]; exact hsize)
  obtain ⟨k, hk, hle, hsend⟩ := send_ok hs (by rw [hlength]; exact hpos) (by rw [hlength]; exact hint)
  rw [hlength] at hle
  have hcapacity : b.position + k ≤ b.capacity := by omega
  obtain ⟨cur, hset, hi⟩ := ByteArray.setPosition_spec h hcapacity
  rw [Nat.max_eq_left (by omega)] at hset hi
  refine ⟨k, cur, hk, hle, ?_, hi⟩
  have htake : (slice b.content b.position left).take k = slice b.content b.position k := take_slice hle
  have hconnected : ¬(!s.connected) = true := by simp [hs.1]
  have hrt : (k : Int) > 0 := by omega
  simp only [write, if_neg hconnected, BufferM.bind_ok hbuffers, BufferM.get_bind,
    BufferM.bind_ok (ofExcept_ok hgather), hsend, if_pos hrt, Int.toNat_natCast, BufferM.bind_ok hset, htake,
    BufferM.pure_apply]

/-- `writeFixSize` sends the bytes at the position, and moves behind them. -/
theorem writeFixSize_spec (h : b.Inv) (hs : s.Positive) (hint : n < intLimit) (hsize : b.position + n ≤ b.size) :
    ∃ s' cur, writeFixSize n s b = .ok ((n : Nat), s') { b with cur := cur, position := b.position + n } ∧
      s'.wire = s.wire ++ slice b.content b.position n ∧
      ByteArray.Inv { b with cur := cur, position := b.position + n } := by
  -- of the bytes, `left` are left
  let P (left : Nat) (s' : Socket) (b' : ByteArray) : Prop :=
    left ≤ n ∧ s'.Positive ∧ s'.wire = s.wire ++ slice b.content b.position (n - left) ∧ b'.Inv ∧
      ∃ cur, b' = { b with cur := cur, position := b.position + (n - left) }
  have hstart : P n s b := by
    refine ⟨Nat.le_refl n, hs, ?_, h, b.cur, ?_⟩
    · rw [Nat.sub_self, slice_zero, List.append_nil]
    · rw [Nat.sub_self]
      rfl
  have hstep : ∀ left s' b', 0 < left → P left s' b' →
      ∃ k s'' b'', 0 < k ∧ write left s' b' = .ok ((k : Nat), s'') b'' ∧ P (left - k) s'' b'' := by
    rintro left s' b' hleft ⟨hle, hs', hwire, hi, cur, rfl⟩
    obtain ⟨k, cur', hk, hkle, hop, hi'⟩ := write_spec hi hs' hleft (by omega) (by simp only; omega)
    have hrest : n - (left - k) = n - left + k := by omega
    refine ⟨k, _, _, hk, hop, by omega, hs', ?_, hi', cur', ?_⟩
    · simp only [hwire]
      rw [hrest, slice_add, List.append_assoc]
      rfl
    · rw [hrest, Nat.add_assoc]
  obtain ⟨s', b', hrun, -, -, hwire, hi, cur, rfl⟩ := fixSize_ok n hstep hstart
  refine ⟨s', cur, ?_, hwire, hi⟩
  rw [writeFixSize, leftOf_of_lt hint, hrun, intSize_of_lt hint]
  rfl

/-! ## Reading -/

/-- The bytes that a call has received are in the buffers before it moves the position. -/
theorem read_run (h : b.Inv) (hs : s.connected = true) (hpos : 0 < left) :
    ∃ nodes new,
      read left s b = (do
        if (s.recv left).1 > 0 then ByteArray.setPosition (b.position + (s.recv left).1.toNat)
        return ((s.recv left).1, (s.recv left).2.2)) { ByteArray.addCapacity left b with nodes := nodes } ∧
      ByteArray.Inv { ByteArray.addCapacity left b with nodes := nodes } ∧
      nodeBytes nodes = overwrite (b.bytes ++ new) b.position (s.recv left).2.1 := by
  obtain ⟨iovs, nodes, new, hbuffers, hcovers, -, hscatter, hi, hnodes⟩ :=
    ByteArray.fill_spec h hpos (recv_length s left)
  obtain ⟨_, capacity, cur, allocs, hb, -, -⟩ := ByteArray.addCapacity_spec h left
  have hposition : (ByteArray.addCapacity left b).position = b.position := by rw [hb]
  have hconnected : ¬(!s.connected) = true := by simp [hs]
  refine ⟨nodes, new, ?_, hi, hnodes⟩
  simp only [read, if_neg hconnected, BufferM.bind_ok hbuffers, BufferM.get_bind, hcovers.sum,
    BufferM.bind_ok (ofExcept_ok hscatter), BufferM.set_bind]
  rw [hposition]

/-- A call receives a part of what is left into the content at the position, and moves behind it. -/
theorem read_spec (h : b.Inv) (hs : s.Positive) (hpos : 0 < left) (hint : left < intLimit)
    (hwire : left ≤ s.wire.length) : ∃ k b', 0 < k ∧ k ≤ left ∧
      read left s b = .ok ((k : Nat), { s with calls := s.calls + 1, wire := s.wire.drop k }) b' ∧ b'.Inv ∧
      b'.position = b.position + k ∧ b'.size = max b.size (b.position + k) ∧
      b'.content = overwrite b.content b.position (s.wire.take k) := by
  obtain ⟨nodes, new, hrun, hi, hnodes⟩ := read_run h hs.1 hpos
  obtain ⟨k, hk, hle, hrecv⟩ := recv_ok hs hpos hint hwire
  rw [hrecv] at hrun hnodes
  have hlength : (s.wire.take k).length = k := List.length_take_of_le (by omega)
  obtain ⟨b', hset, hi', hposition, hsize, hcontent⟩ := ByteArray.commit_spec h hi (hlength.le.trans hle) hnodes
  rw [hlength] at hset hposition hsize
  have hrt : (k : Int) > 0 := by omega
  simp only [if_pos hrt, Int.toNat_natCast, BufferM.bind_ok hset, BufferM.pure_apply] at hrun
  exact ⟨k, b', hk, hle, hrun, hi', hposition, hsize, hcontent⟩

/-- `readFixSize` puts the next bytes into the content at the position, and moves behind them. -/
theorem readFixSize_spec (h : b.Inv) (hs : s.Positive) (hint : n < intLimit) (hdata : data.length = n)
    (hwire : s.wire = data ++ rest) : ∃ s' b', readFixSize n s b = .ok ((n : Nat), s') b' ∧ s'.wire = rest ∧
      b'.Inv ∧ b'.position = b.position + n ∧ b'.size = max b.size (b.position + n) ∧
      b'.content = overwrite b.content b.position data := by
  let P (left : Nat) (s' : Socket) (b' : ByteArray) : Prop :=
    left ≤ n ∧ s'.Positive ∧ s'.wire = data.drop (n - left) ++ rest ∧ b'.Inv ∧
      b'.position = b.position + (n - left) ∧ b'.size = max b.size (b.position + (n - left)) ∧
      b'.content = overwrite b.content b.position (data.take (n - left))
  have hpos := h.position
  have hstart : P n s b := by
    refine ⟨Nat.le_refl n, hs, ?_, h, ?_, ?_, ?_⟩
    · rw [Nat.sub_self, List.drop_zero, hwire]
    · rw [Nat.sub_self, Nat.add_zero]
    · rw [Nat.sub_self, Nat.add_zero, Nat.max_eq_left hpos]
    · rw [Nat.sub_self, List.take_zero, overwrite_nil]
  have hstep : ∀ left s' b', 0 < left → P left s' b' →
      ∃ k s'' b'', 0 < k ∧ read left s' b' = .ok ((k : Nat), s'') b'' ∧ P (left - k) s'' b'' := by
    rintro left s' b' hleft ⟨hle, hs', hwire', hi, hposition, hsize, hcontent⟩
    have hlength : (data.drop (n - left)).length = left := by
      rw [List.length_drop, hdata]
      omega
    have hhas : left ≤ s'.wire.length := by
      rw [hwire', List.length_append, hlength]
      exact Nat.le_add_right left _
    obtain ⟨k, b'', hk, hkle, hop, hi', hposition', hsize', hcontent'⟩ :=
      read_spec hi hs' hleft (by omega) hhas
    have hrest : n - (left - k) = n - left + k := by omega
    refine ⟨k, _, b'', hk, hop, by omega, hs', ?_, hi', ?_, ?_, ?_⟩
    · simp only [hwire']
      rw [hrest, List.drop_append_of_le_length (by omega), List.drop_drop]
    · rw [hposition', hposition, hrest, Nat.add_assoc]
    · rw [hsize', hsize, hposition, hrest]
      omega
    · -- what this call put behind the bytes before it
      have htaken : (data.take (n - left)).length = n - left := List.length_take_of_le (by omega)
      have hjoin : overwrite (overwrite b.content b.position (data.take (n - left)))
          (b.position + (data.take (n - left)).length) ((data.drop (n - left)).take k) =
          overwrite b.content b.position (data.take (n - left) ++ (data.drop (n - left)).take k) :=
        overwrite_overwrite (by rw [h.length_content]; exact hpos)
      rw [htaken, ← List.take_add] at hjoin
      rw [hcontent', hcontent, hposition, hwire', List.take_append_of_le_length (by omega), hrest, hjoin]
  obtain ⟨s', b', hrun, -, -, hwire', hi, hposition, hsize, hcontent⟩ := fixSize_ok n hstep hstart
  refine ⟨s', b', ?_, ?_, hi, hposition, hsize, ?_⟩
  · rw [readFixSize, leftOf_of_lt hint, hrun, intSize_of_lt hint]
  · rw [hwire', Nat.sub_zero, List.drop_of_length_le (by omega), List.nil_append]
  · rw [hcontent, Nat.sub_zero, List.take_of_length_le (by omega)]

/-! ## Every call keeps the invariant -/

theorem keeps_ofExcept {β : Type} (x : Except BufferFault β) : ByteArray.Keeps (ofExcept x) := by
  intro b b' hb hm
  cases x with
  | ok v =>
    cases hm
    exact hb
  | error f => cases f <;> cases hm <;> exact hb

theorem keeps_fromCur {β : Type} (loop : List Node → Except BufferFault β) :
    ByteArray.Keeps (ByteArray.fromCur loop) := by
  intro b b' hb hm
  rw [ByteArray.fromCur] at hm
  split at hm
  · cases hm
  · split at hm
    · rename_i f _
      cases f <;> cases hm <;> exact hb
    · cases hm
      exact hb

theorem keeps_getReadBuffers (length : Nat) : ByteArray.Keeps (ByteArray.getReadBuffers length) := by
  refine ByteArray.keeps_get.bind fun ba => ?_
  dsimp only
  generalize (if length > ba.getReadSize then ba.getReadSize else length) = len
  split
  · exact ByteArray.keeps_pure _
  · exact (keeps_fromCur _).bind fun _ => ByteArray.keeps_pure _

theorem keeps_write (length : Nat) (s : Socket) : ByteArray.Keeps (write length s) := by
  unfold write
  split
  · exact ByteArray.keeps_pure _
  · refine (keeps_getReadBuffers length).bind fun buffers => ByteArray.keeps_get.bind fun ba =>
      (keeps_ofExcept _).bind fun bytes => ?_
    dsimp only
    split
    · exact (ByteArray.keeps_setPosition _).bind fun _ => ByteArray.keeps_pure _
    · exact ByteArray.keeps_pure _

theorem keeps_read (hpos : 0 < length) (s : Socket) : ByteArray.Keeps (read length s) := by
  intro b b' hb hm
  by_cases hs : s.connected = true
  · obtain ⟨nodes, new, hrun, hi, -⟩ := read_run hb hs hpos
    rw [hrun] at hm
    split at hm
    · exact ((ByteArray.keeps_setPosition _).bind fun _ => ByteArray.keeps_pure _) _ b' hi hm
    · cases hm
      exact hi
  · have hclosed : (!s.connected) = true := by simp [hs]
    simp only [read, if_pos hclosed] at hm
    cases hm
    exact hb

theorem keeps_fixSize (hop : ∀ left s, 0 < left → ByteArray.Keeps (op left s)) (length left : Nat) (s : Socket) :
    ByteArray.Keeps (fixSize op length left s) := by
  induction left using Nat.strong_induction_on generalizing s with
  | _ left ih =>
    rw [fixSize]
    split
    · exact ByteArray.keeps_pure _
    · refine (hop left s (by omega)).bind fun r => ?_
      split
      · exact ByteArray.keeps_pure _
      · exact ih (left - r.1.toNat) (by omega) r.2

end

end SocketStream

/-! ## Both ends -/

/-- A call of a member, or a transfer over some connection. -/
inductive StreamCall
  | call (c : ByteArray.Call)
  | writeFixSize (length : Nat) (s : Socket)
  | readFixSize (length : Nat) (s : Socket)

/-- A `ByteArray` in use that is also streamed. -/
def streamSys : Transition.Sys ByteArray StreamCall where
  init b := ∃ baseSize heap, 0 < baseSize ∧ b = .new baseSize heap
  step b
    | .call c => ByteArray.completed (c.run b)
    | .writeFixSize length s => ByteArray.completed (SocketStream.writeFixSize length s b)
    | .readFixSize length s => ByteArray.completed (SocketStream.readFixSize length s b)

theorem inv_streamed {b : ByteArray} (h : streamSys.Reachable b) : b.Inv := by
  refine h.invariant ?_ fun b c b' hi _ hs => ?_
  · rintro b ⟨baseSize, heap, hb, rfl⟩
    exact ByteArray.inv_new hb heap
  · cases c with
    | call c => exact c.keeps_run b b' hi hs
    | writeFixSize length s =>
      exact SocketStream.keeps_fixSize (fun left s _ => SocketStream.keeps_write left s) length _ s b b' hi hs
    | readFixSize length s =>
      exact SocketStream.keeps_fixSize (fun left s hpos => SocketStream.keeps_read hpos s) length _ s b b' hi hs

/-- **Streaming is lossless.** Whatever the calls of `sendmsg` and `recvmsg` transfer, as long as it is something,
`writeFixSize` sends just the `n` bytes at the position of the one array and `readFixSize` puts them into the other one
at its position. Both return `n` and move the position behind them; no other byte of the contents changes. -/
theorem streaming_lossless {a b : ByteArray} {n : Nat} {s r : Socket} {rest : List UInt8}
    (ha : streamSys.Reachable a) (hb : streamSys.Reachable b) (hint : n < intLimit) (hread : n ≤ a.getReadSize)
    (hs : s.Positive) (hr : r.Positive) (hempty : s.wire = []) :
    ∃ s' a' r' b', SocketStream.writeFixSize n s a = .ok ((n : Nat), s') a' ∧
      s'.wire = slice a.content a.position n ∧ a'.content = a.content ∧ a'.position = a.position + n ∧
      SocketStream.readFixSize n { r with wire := s'.wire ++ rest } b = .ok ((n : Nat), r') b' ∧ r'.wire = rest ∧
      slice b'.content b.position n = slice a.content a.position n ∧
      b'.content.take b.position = b.content.take b.position ∧
      b'.content.drop (b.position + n) = b.content.drop (b.position + n) ∧ b'.position = b.position + n := by
  have hia := inv_streamed ha
  have hib := inv_streamed hb
  have hposition := hia.position
  rw [hia.getReadSize] at hread
  have hlength : (slice a.content a.position n).length = n :=
    length_slice (by rw [hia.length_content]; omega)
  obtain ⟨s', cur, hwrite, hsent, -⟩ := SocketStream.writeFixSize_spec hia hs hint (by omega)
  rw [hempty, List.nil_append] at hsent
  have hr' : Socket.Positive { r with wire := s'.wire ++ rest } := hr
  obtain ⟨r', b', hrun, hrest, -, hpos, -, hcontent⟩ := SocketStream.readFixSize_spec hib hr' hint hlength
    (congrArg (· ++ rest) hsent)
  obtain ⟨f, hf⟩ := hib.refines
  have hslice := f.slice_write (slice a.content a.position n)
  have hframe := f.write_frame (slice a.content a.position n)
  rw [hlength] at hslice hframe
  refine ⟨s', _, r', b', hwrite, hsent, rfl, rfl, hrun, hrest, ?_, ?_, ?_, hpos⟩
  · rw [hcontent, hf.2.1, hf.2.2]
    exact hslice
  · rw [hcontent, hf.2.1, hf.2.2]
    exact hframe.1
  · rw [hcontent, hf.2.1, hf.2.2]
    exact hframe.2

/-- Three bytes from position 1 of nodes of two bytes, sent two at a time and received one by one into a node of
three. -/
theorem streaming_lossless_nodes : ∃ a b : ByteArray, a.position = 1 ∧ b.position = 2 ∧ ∃ s' a' r' b',
    SocketStream.writeFixSize 3 ⟨true, fun _ => 2, 0, []⟩ a = .ok ((3 : Nat), s') a' ∧
    SocketStream.readFixSize 3 ⟨true, fun _ => 1, 0, s'.wire ++ []⟩ b = .ok ((3 : Nat), r') b' ∧
    slice b'.content b.position 3 = slice a.content a.position 3 := by
  obtain ⟨a, ha, hpa⟩ := streamSys.reachable_of_exec (.new 2 fun _ _ => 0) ⟨2, _, by decide, rfl⟩
    [.call (.write [1, 2, 3, 4, 5]), .call (.setPosition 1)] (p := fun a => a.position == 1 && a.getReadSize == 4)
    rfl
  obtain ⟨b, hb, hpb⟩ := streamSys.reachable_of_exec (.new 3 fun _ _ => 0) ⟨3, _, by decide, rfl⟩
    [.call (.write [8, 9])] (p := fun b => b.position == 2) rfl
  rw [Bool.and_eq_true, beq_iff_eq, beq_iff_eq] at hpa
  rw [beq_iff_eq] at hpb
  obtain ⟨s', a', r', b', hwrite, -, -, -, hrun, -, hslice, -⟩ := streaming_lossless ha hb (by decide : 3 < intLimit)
    (by rw [hpa.2]; decide) (⟨rfl, fun _ => (by decide : (0 : Int) < 2)⟩ : Socket.Positive ⟨true, fun _ => 2, 0, []⟩)
    (⟨rfl, fun _ => (by decide : (0 : Int) < 1)⟩ : Socket.Positive ⟨true, fun _ => 1, 0, []⟩) rfl
  exact ⟨a, b, hpa.1, hpb, s', a', r', b', hwrite, hrun, hslice⟩

end Megalo
