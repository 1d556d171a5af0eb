import Megalo.ByteArray.Flat
import Megalo.Lib.Zigzag
import Mathlib.Tactic.Ring

/-!
# Typed values are read back as they were written

- `Writes e m d`: in the byte order `e`, the operation `m` overwrites the content with `d` at the position and moves
  behind it; `Reads e m d v`: where the content has `d` at the position, `m` returns `v` and moves behind it. Both
  compose (`Writes.bind`, `Reads.bind`);
- every typed member writes `Value.encode e v`, and its sibling reads that as `v` (`writes_value`, `reads_value`);
- a list of values is read back from where it was written (`typed_values_round_trip`), and so is an `int64_t` exactly
  when it has 32 bits (`int64_round_trip`), as `EncodeZigzag64` returns a `uint32_t`.
-/

namespace Megalo

open Overwrite MachineInt

namespace ByteArray

variable {b : ByteArray} {e : Endian} {β γ : Type} {d d' : List UInt8}

/-! ## What an operation writes and reads -/

/-- The operation puts `d` at the position, and moves behind it. -/
def Writes (e : Endian) (m : BufferM Unit) (d : List UInt8) : Prop :=
  ∀ b : ByteArray, b.Inv → b.endian = e → ∃ b', m b = .ok () b' ∧ b'.Inv ∧ b'.endian = e ∧
    b'.position = b.position + d.length ∧ b'.size = max b.size (b.position + d.length) ∧
    b'.content = overwrite b.content b.position d

/-- Where `d` is at the position, the operation returns `v` and moves behind it, and changes nothing else. -/
def Reads (e : Endian) (m : BufferM β) (d : List UInt8) (v : β) : Prop :=
  ∀ b : ByteArray, b.Inv → b.endian = e → b.position + d.length ≤ b.size →
    slice b.content b.position d.length = d → ∃ cur, m b = .ok v { b with cur, position := b.position + d.length } ∧
      Inv { b with cur, position := b.position + d.length }

theorem writes_write (hd : d ≠ []) : Writes e (write d) d := by
  intro b hi he
  obtain ⟨b', hw, hi', -, hendian, hpos, hsize, new, hbytes⟩ := write_spec hi hd
  exact ⟨b', hw, hi', hendian.trans he, hpos, hsize, content_write hi hsize hbytes⟩

theorem writes_pure : Writes e (pure ()) [] := by
  intro b hi he
  refine ⟨b, rfl, hi, he, rfl, ?_, ?_⟩
  · exact (Nat.max_eq_left hi.position).symm
  · rw [overwrite_nil]

theorem Writes.bind {m m' : BufferM Unit} (h : Writes e m d) (h' : Writes e m' d') :
    Writes e (do m; m') (d ++ d') := by
  intro b hi he
  obtain ⟨b₁, hm, hi₁, he₁, hpos₁, hsize₁, hc₁⟩ := h b hi he
  obtain ⟨b₂, hm', hi₂, he₂, hpos₂, hsize₂, hc₂⟩ := h' b₁ hi₁ he₁
  refine ⟨b₂, ?_, hi₂, he₂, ?_, ?_, ?_⟩
  · rw [BufferM.bind_ok hm]
    exact hm'
  · rw [hpos₂, hpos₁, List.length_append, Nat.add_assoc]
  · rw [hsize₂, hsize₁, hpos₁, List.length_append]
    omega
  · rw [hc₂, hc₁, hpos₁]
    exact overwrite_overwrite (by rw [hi.length_content]; exact hi.position)

theorem reads_pure (v : β) : Reads e (pure v) [] v := by
  intro b hi _ _ _
  exact ⟨b.cur, rfl, hi⟩

theorem reads_read (hd : d ≠ []) : Reads e (read d.length) d d := by
  intro b hi _ hsize hslice
  have hpos := List.length_pos_of_ne_nil hd
  have hcap := hi.size
  obtain ⟨cur, hr, hi'⟩ := read_spec hi hsize (by omega)
  refine ⟨cur, ?_, hi'⟩
  rw [hr, hslice]

theorem Reads.bind {m : BufferM β} {f : β → BufferM γ} {v : β} {w : γ} (h : Reads e m d v)
    (h' : Reads e (f v) d' w) : Reads e (m >>= f) (d ++ d') w := by
  intro b hi he hsize hslice
  rw [List.length_append] at hsize hslice
  rw [slice_add] at hslice
  obtain ⟨hd, hd'⟩ := List.append_inj hslice (length_slice (by rw [hi.length_content]; omega))
  obtain ⟨cur, hm, hi₁⟩ := h b hi he (by omega) hd
  obtain ⟨cur', hm', hi₂⟩ := h' _ hi₁ he (by simp only; omega) hd'
  refine ⟨cur', ?_, ?_⟩
  · rw [BufferM.bind_ok hm]
    simp only [hm', List.length_append, Nat.add_assoc]
  · rw [List.length_append, ← Nat.add_assoc]
    exact hi₂

theorem Reads.map {m : BufferM β} {v : β} (h : Reads e m d v) (f : β → γ) : Reads e (f <$> m) d (f v) := by
  have hb : Reads e (m >>= fun v => pure (f v)) (d ++ []) (f v) := h.bind (reads_pure (f v))
  rwa [List.append_nil, ← map_eq_pure_bind] at hb

/-! ## Integers of a fixed width -/

theorem length_hostBytes (n : Nat) (v : BitVec (8 * n)) : (hostBytes n v).length = n := by
  simp [hostBytes]

/-- The bits of a byte of the memory of an integer. -/
theorem getLsbD_hostBytes (n : Nat) (v : BitVec (8 * n)) {i j : Nat} (hi : i < n) (hj : j < 8) :
    ((hostBytes n v).getD i 0).toBitVec.getLsbD j = v.getLsbD (8 * i + j) := by
  have hget : (hostBytes n v).getD i 0 = UInt8.ofBitVec (v.extractLsb' (8 * i) 8) := by
    simp [hostBytes, List.getD, hi]
  rw [hget]
  simp [hj]

/-- The bits of an integer in memory. -/
theorem getLsbD_ofHostBytes (n : Nat) (bytes : List UInt8) (i : Nat) (hi : i < 8 * n) :
    (ofHostBytes n bytes).getLsbD i = (bytes.getD (i / 8) 0).toBitVec.getLsbD (i % 8) := by
  induction bytes generalizing i with
  | nil => simp [ofHostBytes]
  | cons b bytes ih =>
    have hcons : ofHostBytes n (b :: bytes) = ofHostBytes n bytes <<< 8 ||| b.toBitVec.setWidth (8 * n) := rfl
    rw [hcons, BitVec.getLsbD_or, BitVec.getLsbD_shiftLeft, BitVec.getLsbD_setWidth]
    rcases Nat.lt_or_ge i 8 with h | h
    · have hdiv : i / 8 = 0 := Nat.div_eq_of_lt h
      have hmod : i % 8 = i := Nat.mod_eq_of_lt h
      simp [h, hi, hdiv, hmod]
    · have hdiv : i / 8 = (i - 8) / 8 + 1 := by omega
      have hmod : i % 8 = (i - 8) % 8 := by omega
      have hbyte : b.toBitVec.getLsbD i = false := BitVec.getLsbD_of_ge _ _ h
      rw [ih (i - 8) (by omega), hdiv, hmod, hbyte]
      simp [hi, Nat.not_lt.mpr h]

theorem ofHostBytes_hostBytes (n : Nat) (v : BitVec (8 * n)) : ofHostBytes n (hostBytes n v) = v := by
  apply BitVec.eq_of_getLsbD_eq
  intro i hi
  rw [getLsbD_ofHostBytes n _ i hi, getLsbD_hostBytes n v (by omega) (Nat.mod_lt _ (by decide)), Nat.div_add_mod]

theorem hostBytes_ofHostBytes {n : Nat} {bytes : List UInt8} (h : bytes.length = n) :
    hostBytes n (ofHostBytes n bytes) = bytes := by
  apply List.ext_getElem (by rw [length_hostBytes, h])
  intro i hi hi'
  have hin : i < n := by rwa [h] at hi'
  have hleft : (hostBytes n (ofHostBytes n bytes))[i] = (hostBytes n (ofHostBytes n bytes)).getD i 0 := by
    simp [List.getD, hi]
  have hright : bytes[i] = bytes.getD i 0 := by simp [List.getD, hi']
  rw [hleft, hright]
  apply UInt8.toBitVec_inj.mp
  apply BitVec.eq_of_getLsbD_eq
  intro j hj
  rw [getLsbD_hostBytes n _ hin hj, getLsbD_ofHostBytes n _ _ (by omega), show (8 * i + j) / 8 = i by omega,
    show (8 * i + j) % 8 = j by omega]

theorem byteswap_byteswap (n : Nat) (v : BitVec (8 * n)) : byteswap n (byteswap n v) = v := by
  have hlen : (hostBytes n v).reverse.length = n := by rw [List.length_reverse, length_hostBytes]
  rw [byteswap, byteswap, hostBytes_ofHostBytes hlen, List.reverse_reverse, ofHostBytes_hostBytes]

/-- The bytes that `writeFixed` writes. -/
def encodeFixed (e : Endian) (n : Nat) (v : BitVec (8 * n)) : List UInt8 :=
  hostBytes n (if e ≠ byteOrder then byteswap n v else v)

theorem encodeFixed_ne_nil {n : Nat} {v : BitVec (8 * n)} (hn : 0 < n) : encodeFixed e n v ≠ [] := by
  intro h
  have hlen := congrArg List.length h
  rw [encodeFixed, length_hostBytes] at hlen
  exact absurd hlen (Nat.ne_of_gt hn)

theorem writes_writeFixed {n : Nat} (v : BitVec (8 * n)) (hn : 0 < n) :
    Writes e (writeFixed n v) (encodeFixed e n v) := by
  intro b hi he
  have hw := writes_write (e := e) (encodeFixed_ne_nil (e := e) (v := v) hn) b hi he
  rw [encodeFixed, ← he] at hw ⊢
  exact hw

theorem reads_readFixed {n : Nat} (v : BitVec (8 * n)) (hn : 0 < n) :
    Reads e (readFixed n) (encodeFixed e n v) v := by
  have hlen : (encodeFixed e n v).length = n := length_hostBytes _ _
  have hread : Reads e (read n) (encodeFixed e n v) (encodeFixed e n v) := by
    have := reads_read (e := e) (encodeFixed_ne_nil (e := e) (v := v) hn)
    rwa [hlen] at this
  intro b hi he hsize hslice
  obtain ⟨cur, hm, hi'⟩ := hread b hi he hsize hslice
  refine ⟨cur, ?_, hi'⟩
  rw [readFixed, BufferM.bind_ok hm]
  have hv : (if e = byteOrder then ofHostBytes n (encodeFixed e n v)
      else byteswap n (ofHostBytes n (encodeFixed e n v))) = v := by
    rw [encodeFixed, ofHostBytes_hostBytes]
    by_cases hb : e = byteOrder
    · rw [if_pos hb, if_neg (not_not.mpr hb)]
    · rw [if_neg hb, if_pos hb, byteswap_byteswap]
  simp only [BufferM.get_bind, BufferM.pure_apply, he, hv]

theorem reads_readFuint8 (v : UInt8) : Reads e readFuint8 [v] v := by
  have hread : Reads e (read 1) [v] [v] := reads_read (List.cons_ne_nil v [])
  have hv : UInt8.ofBitVec (ofHostBytes 1 [v]) = v := by
    simp [ofHostBytes]
  have hpure : Reads e (pure (UInt8.ofBitVec (ofHostBytes 1 [v]))) [] v := by
    rw [hv]
    exact reads_pure v
  exact hread.bind (f := fun bytes => pure (UInt8.ofBitVec (ofHostBytes 1 bytes))) hpure

/-! ## Integers of variable length -/

theorem varint_cons {room value : Nat} (h : 0x80 ≤ value) :
    varint (room + 1) value = UInt8.ofNat (value % 128 + 128) :: varint room (value / 128) := by
  have hor : value &&& 0x7f ||| 0x80 = value % 128 + 128 := by
    have hand : value &&& 0x7f = value % 128 := Nat.and_two_pow_sub_one_eq_mod value 7
    rw [hand, Nat.or_comm]
    exact (Nat.two_pow_add_eq_or_of_lt (i := 7) (by omega) 1).symm.trans (by omega)
  rw [varint, if_pos h, hor, Nat.shiftRight_eq_div_pow]

theorem varint_last {room value : Nat} (h : value < 0x80) : varint (room + 1) value = [UInt8.ofNat value] := by
  rw [varint, if_neg (Nat.not_le.mpr h)]

theorem varint_ne_nil (room value : Nat) : varint (room + 1) value ≠ [] := by
  rw [varint]
  split
  · exact List.cons_ne_nil _ _
  · exact List.cons_ne_nil _ _

/-- Bits above those of a number are added to it. -/
theorem or_mul_two_pow {r i : Nat} (b : Nat) (hr : r < 2 ^ i) : r ||| b * 2 ^ i = r + b * 2 ^ i := by
  rw [Nat.or_comm, ← Nat.shiftLeft_eq, ← Nat.shiftLeft_add_eq_or_of_lt hr, Nat.add_comm]

/-- The shifts of a loop that reads `room` bytes, from `i` on. -/
def shifts (i : Nat) : Nat → List Nat
  | 0 => []
  | room + 1 => i :: shifts (i + 7) room

section Loop

variable {α σ : Type} (loop : List σ → α → BufferM α) (shift : Nat → σ) (add : α → UInt8 → Nat → α) (num : α → Nat)
  (w : Nat)

/-- A loop that adds the low bits of one byte after the other reads what `varint` gives; `num` is the number that its
accumulator stands for. -/
theorem reads_varintLoop (hnil : ∀ r, loop [] r = pure r)
    (hcons : ∀ i is r, loop (shift i :: is) r = readFuint8 >>= fun b =>
      if b < 0x80 then pure (add r b i) else loop is (add r (b &&& 0x7f) i))
    (hadd : ∀ r b i, i < w → num r < 2 ^ i → num r + b.toNat * 2 ^ i < 2 ^ w →
      num (add r b i) = num r + b.toNat * 2 ^ i) :
    ∀ (room i value : Nat) (r : α), i + 7 * room < w + 7 → num r < 2 ^ i → num r + value * 2 ^ i < 2 ^ w →
      value < 128 ^ room → ∃ r', num r' = num r + value * 2 ^ i ∧
        Reads e (loop ((shifts i room).map shift) r) (varint room value) r'
  | 0, i, value, r, _, _, _, hv => by
    obtain rfl : value = 0 := by simpa using hv
    refine ⟨r, by simp, ?_⟩
    rw [shifts, List.map_nil, hnil]
    exact reads_pure r
  | room + 1, i, value, r, hi, hr, hsum, hv => by
    have hiw : i < w := by omega
    rw [shifts, List.map_cons, hcons]
    rcases Nat.lt_or_ge value 0x80 with hlt | hge
    · have hbyte : (UInt8.ofNat value).toNat = value := by
        rw [UInt8.toNat_ofNat']
        omega
      have hstop : UInt8.ofNat value < 0x80 := by
        rw [UInt8.lt_iff_toNat_lt, hbyte]
        exact hlt
      refine ⟨add r (UInt8.ofNat value) i, ?_, ?_⟩
      · rw [hadd r _ i hiw hr (by rwa [hbyte]), hbyte]
      · rw [varint_last hlt]
        refine (reads_readFuint8 (UInt8.ofNat value)).bind (?_ : Reads e _ [] _)
        rw [if_pos hstop]
        exact reads_pure _
    · have hbyte : (UInt8.ofNat (value % 128 + 128)).toNat = value % 128 + 128 := by
        rw [UInt8.toNat_ofNat']
        omega
      have hgo : ¬ UInt8.ofNat (value % 128 + 128) < 0x80 := by
        rw [UInt8.lt_iff_toNat_lt, hbyte]
        exact Nat.not_lt.mpr (Nat.le_add_left 128 _)
      have hlow : (UInt8.ofNat (value % 128 + 128) &&& 0x7f).toNat = value % 128 := by
        rw [UInt8.toNat_and, hbyte]
        have hand : (value % 128 + 128) &&& 127 = (value % 128 + 128) % 128 := Nat.and_two_pow_sub_one_eq_mod _ 7
        exact hand.trans (by omega)
      have hvalue : value = value % 128 + 128 * (value / 128) := (Nat.mod_add_div value 128).symm
      have hpow : 2 ^ (i + 7) = 2 ^ i * 128 := by rw [Nat.pow_add]
      have hsplit : value * 2 ^ i = value % 128 * 2 ^ i + value / 128 * (2 ^ i * 128) := by
        calc value * 2 ^ i = (value % 128 + 128 * (value / 128)) * 2 ^ i := by rw [← hvalue]
          _ = value % 128 * 2 ^ i + value / 128 * (2 ^ i * 128) := by ring
      have hlowsum : num r + value % 128 * 2 ^ i < 2 ^ w := by
        rw [hsplit] at hsum
        exact Nat.lt_of_le_of_lt (Nat.add_le_add_left (Nat.le_add_right _ _) _) hsum
      have hnum := hadd r (UInt8.ofNat (value % 128 + 128) &&& 0x7f) i hiw hr (by rwa [hlow])
      rw [hlow] at hnum
      have hnext : num (add r (UInt8.ofNat (value % 128 + 128) &&& 0x7f) i) < 2 ^ (i + 7) := by
        have hmod : value % 128 * 2 ^ i ≤ 127 * 2 ^ i :=
          Nat.mul_le_mul_right _ (Nat.le_of_lt_succ (Nat.mod_lt _ (by decide)))
        rw [hnum, hpow]
        omega
      obtain ⟨r', hr', hreads⟩ := reads_varintLoop hnil hcons hadd room (i + 7) (value / 128) _ (by omega) hnext
        (by rw [hnum, hpow, Nat.add_assoc, ← hsplit]; exact hsum)
        (by rw [Nat.div_lt_iff_lt_mul (by decide), ← Nat.pow_succ]; exact hv)
      refine ⟨r', ?_, ?_⟩
      · rw [hr', hnum, hpow, Nat.add_assoc, ← hsplit]
      · rw [varint_cons hge]
        refine (reads_readFuint8 _).bind ?_
        rw [if_neg hgo]
        exact hreads

end Loop

/-- Unsigned numbers are read back. -/
theorem reads_readUint32 (v : UInt32) : Reads e readUint32 (varint 5 v.toNat) v := by
  have hv : v.toNat < 2 ^ 32 := v.toNat_lt
  obtain ⟨r, hr, h⟩ := reads_varintLoop (e := e) readVarint32 UInt32.ofNat
    (fun r b i => r ||| b.toUInt32 <<< UInt32.ofNat i) UInt32.toNat 32 (fun _ => rfl) (fun _ _ _ => rfl)
    (fun r b i hi hr hsum => by
      have hshift : (UInt32.ofNat i).toNat % 32 = i := by
        rw [UInt32.toNat_ofNat']
        omega
      rw [UInt32.toNat_or, UInt32.toNat_shiftLeft, UInt8.toNat_toUInt32, hshift, Nat.shiftLeft_eq,
        Nat.mod_eq_of_lt (by omega), or_mul_two_pow _ hr])
    5 0 v.toNat 0 (by decide) (by decide) (by simpa using hv) (by omega)
  rw [UInt32.toNat_zero, Nat.zero_add, Nat.pow_zero, Nat.mul_one] at hr
  rw [UInt32.toNat_inj.mp hr] at h
  exact h

theorem reads_readUint64 (v : UInt64) : Reads e readUint64 (varint 10 v.toNat) v := by
  have hv : v.toNat < 2 ^ 64 := v.toNat_lt
  obtain ⟨r, hr, h⟩ := reads_varintLoop (e := e) readVarint64 UInt64.ofNat
    (fun r b i => r ||| b.toUInt64 <<< UInt64.ofNat i) UInt64.toNat 64 (fun _ => rfl) (fun _ _ _ => rfl)
    (fun r b i hi hr hsum => by
      have hshift : (UInt64.ofNat i).toNat % 64 = i := by
        rw [UInt64.toNat_ofNat']
        omega
      rw [UInt64.toNat_or, UInt64.toNat_shiftLeft, UInt8.toNat_toUInt64, hshift, Nat.shiftLeft_eq,
        Nat.mod_eq_of_lt (by omega), or_mul_two_pow _ hr])
    10 0 v.toNat 0 (by decide) (by decide) (by simpa using hv) (by omega)
  rw [UInt64.toNat_zero, Nat.zero_add, Nat.pow_zero, Nat.mul_one] at hr
  rw [UInt64.toNat_inj.mp hr] at h
  exact h

/-! ## Zigzag -/

theorem encodeZigzag32_toNat (v : Int32) : (encodeZigzag32 v).toNat = Zigzag.zigzag v.toInt := by
  have hv : (encodeZigzag32 v).toBitVec = Zigzag.encode v.toBitVec := by
    unfold encodeZigzag32 Zigzag.encode
    by_cases h : v < 0
    · have hneg : v.toBitVec.toInt < 0 := Int32.lt_iff_toInt_lt.mp h
      rw [if_pos h, if_pos hneg]
      rfl
    · have hpos : ¬ v.toBitVec.toInt < 0 := fun hn => h (Int32.lt_iff_toInt_lt.mpr hn)
      rw [if_neg h, if_neg hpos]
      rfl
  rw [← UInt32.toNat_toBitVec, hv, Zigzag.toNat_encode (by decide)]
  rfl

/-- The result of `EncodeZigzag64` has 32 bits. -/
theorem encodeZigzag64_toNat (v : Int64) : (encodeZigzag64 v).toNat = Zigzag.zigzag v.toInt % 2 ^ 32 := by
  have hv : (encodeZigzag64 v).toBitVec = (Zigzag.encode v.toBitVec).setWidth 32 := by
    unfold encodeZigzag64 Zigzag.encode
    by_cases h : v < 0
    · have hneg : v.toBitVec.toInt < 0 := Int64.lt_iff_toInt_lt.mp h
      rw [if_pos h, if_pos hneg]
      rfl
    · have hpos : ¬ v.toBitVec.toInt < 0 := fun hn => h (Int64.lt_iff_toInt_lt.mpr hn)
      rw [if_neg h, if_neg hpos]
      rfl
  rw [← UInt32.toNat_toBitVec, hv, BitVec.toNat_setWidth, Zigzag.toNat_encode (by decide)]
  rfl

theorem decodeZigzag32_toInt (v : UInt32) : (decodeZigzag32 v).toInt = Zigzag.unzigzag v.toNat := by
  have hv : (decodeZigzag32 v).toBitVec = Zigzag.decode v.toBitVec := by
    simp [decodeZigzag32, Zigzag.decode]
  show (decodeZigzag32 v).toBitVec.toInt = _
  rw [hv, Zigzag.toInt_decode (by decide)]
  rfl

theorem decodeZigzag64_toInt (v : UInt64) : (decodeZigzag64 v).toInt = Zigzag.unzigzag v.toNat := by
  have hv : (decodeZigzag64 v).toBitVec = Zigzag.decode v.toBitVec := by
    simp [decodeZigzag64, Zigzag.decode]
  show (decodeZigzag64 v).toBitVec.toInt = _
  rw [hv, Zigzag.toInt_decode (by decide)]
  rfl

theorem decodeZigzag32_encodeZigzag32 (v : Int32) : decodeZigzag32 (encodeZigzag32 v) = v := by
  apply Int32.toInt_inj.mp
  rw [decodeZigzag32_toInt, encodeZigzag32_toNat, Zigzag.unzigzag_zigzag]

/-- What an `int64_t` is read back as. -/
theorem decodeZigzag64_encodeZigzag64 (v : Int64) :
    decodeZigzag64 (encodeZigzag64 v).toUInt64 = v ↔ -2 ^ 31 ≤ v.toInt ∧ v.toInt < 2 ^ 31 := by
  have hval : (decodeZigzag64 (encodeZigzag64 v).toUInt64).toInt =
      Zigzag.unzigzag (Zigzag.zigzag v.toInt % 2 ^ 32) := by
    rw [decodeZigzag64_toInt, UInt32.toNat_toUInt64, encodeZigzag64_toNat]
  have hrange : Zigzag.zigzag v.toInt < 2 ^ 32 ↔ -2 ^ 31 ≤ v.toInt ∧ v.toInt < 2 ^ 31 := by
    unfold Zigzag.zigzag
    split <;> omega
  rw [← Int64.toInt_inj, hval, ← hrange]
  constructor
  · intro h
    have hcode := congrArg Zigzag.zigzag h
    rw [Zigzag.zigzag_unzigzag] at hcode
    rw [← hcode]
    exact Nat.mod_lt _ (by decide)
  · intro h
    rw [Nat.mod_eq_of_lt h, Zigzag.unzigzag_zigzag]

/-! ## Values -/

/-- The bytes of a value in a byte order. -/
def Value.encode (e : Endian) : Value → List UInt8
  | fint8 v => hostBytes 1 v.toBitVec
  | fuint8 v => hostBytes 1 v.toBitVec
  | fint16 v => encodeFixed e 2 v.toBitVec
  | fuint16 v => encodeFixed e 2 v.toBitVec
  | fint32 v => encodeFixed e 4 v.toBitVec
  | fuint32 v | float v => encodeFixed e 4 v.toBitVec
  | fint64 v => encodeFixed e 8 v.toBitVec
  | fuint64 v | double v => encodeFixed e 8 v.toBitVec
  | int32 v => varint 5 (encodeZigzag32 v).toNat
  | uint32 v => varint 5 v.toNat
  | int64 v => varint 10 (encodeZigzag64 v).toUInt64.toNat
  | uint64 v => varint 10 v.toNat
  | stringF16 s => encodeFixed e 2 (UInt16.ofNat s.length).toBitVec ++ s
  | stringF32 s => encodeFixed e 4 (UInt32.ofNat s.length).toBitVec ++ s
  | stringF64 s => encodeFixed e 8 (UInt64.ofNat s.length).toBitVec ++ s
  | stringVint s => varint 10 (UInt64.ofNat s.length).toNat ++ s

/-- The member that reads what a value was written with. -/
def Value.kind : Value → Kind
  | fint8 _ => .fint8 | fuint8 _ => .fuint8 | fint16 _ => .fint16 | fuint16 _ => .fuint16
  | fint32 _ => .fint32 | fuint32 _ => .fuint32 | fint64 _ => .fint64 | fuint64 _ => .fuint64
  | int32 _ => .int32 | uint32 _ => .uint32 | int64 _ => .int64 | uint64 _ => .uint64
  | float _ => .float | double _ => .double
  | stringF16 _ => .stringF16 | stringF32 _ => .stringF32 | stringF64 _ => .stringF64 | stringVint _ => .stringVint

/-- A number other than an `int64_t` of variable length. -/
def Value.IsNumber : Value → Prop
  | int64 _ | stringF16 _ | stringF32 _ | stringF64 _ | stringVint _ => False
  | _ => True

theorem reads_readFixed_map {n : Nat} (v : BitVec (8 * n)) (hn : 0 < n) (f : BitVec (8 * n) → β) :
    Reads e (do return f (← readFixed n)) (encodeFixed e n v) (f v) := by
  have := (reads_readFixed (e := e) v hn).map f
  rwa [map_eq_pure_bind] at this

theorem reads_readFint8 (v : Int8) : Reads e readFint8 (hostBytes 1 v.toBitVec) v := by
  have hlen : (hostBytes 1 v.toBitVec).length = 1 := length_hostBytes 1 _
  have hread : Reads e (read 1) (hostBytes 1 v.toBitVec) (hostBytes 1 v.toBitVec) := by
    have := reads_read (e := e) (d := hostBytes 1 v.toBitVec) (List.ne_nil_of_length_eq_add_one hlen)
    rwa [hlen] at this
  have hmap := hread.map fun bytes => Int8.ofBitVec (ofHostBytes 1 bytes)
  rw [map_eq_pure_bind, ofHostBytes_hostBytes] at hmap
  exact hmap

theorem writes_value {v : Value} (hv : v.IsNumber) : Writes e v.write (v.encode e) := by
  cases v with
  | fint8 v | fuint8 v => exact writes_write (List.ne_nil_of_length_eq_add_one (length_hostBytes 1 _))
  | fint16 v | fuint16 v => exact writes_writeFixed _ (by decide)
  | fint32 v | fuint32 v | float v => exact writes_writeFixed _ (by decide)
  | fint64 v | fuint64 v | double v => exact writes_writeFixed _ (by decide)
  | int32 v | uint32 v => exact writes_write (varint_ne_nil 4 _)
  | uint64 v => exact writes_write (varint_ne_nil 9 _)
  | int64 v | stringF16 s | stringF32 s | stringF64 s | stringVint s => exact hv.elim

theorem reads_value {v : Value} (hv : v.IsNumber) : Reads e v.kind.read (v.encode e) v := by
  cases v with
  | fint8 v => exact (reads_readFint8 v).map Value.fint8
  | fuint8 v =>
    have hbyte : hostBytes 1 v.toBitVec = [v] := by simp [hostBytes]
    have := (reads_readFuint8 (e := e) v).map Value.fuint8
    rwa [← hbyte] at this
  | fint16 v =>
    have hread : Reads e readFint16 (encodeFixed e 2 v.toBitVec) v :=
      reads_readFixed_map (n := 2) v.toBitVec (by decide) Int16.ofBitVec
    exact hread.map Value.fint16
  | fuint16 v =>
    have hread : Reads e readFuint16 (encodeFixed e 2 v.toBitVec) v :=
      reads_readFixed_map (n := 2) v.toBitVec (by decide) UInt16.ofBitVec
    exact hread.map Value.fuint16
  | fint32 v =>
    have hread : Reads e readFint32 (encodeFixed e 4 v.toBitVec) v :=
      reads_readFixed_map (n := 4) v.toBitVec (by decide) Int32.ofBitVec
    exact hread.map Value.fint32
  | fuint32 v =>
    have hread : Reads e readFuint32 (encodeFixed e 4 v.toBitVec) v :=
      reads_readFixed_map (n := 4) v.toBitVec (by decide) UInt32.ofBitVec
    exact hread.map Value.fuint32
  | fint64 v =>
    have hread : Reads e readFint64 (encodeFixed e 8 v.toBitVec) v :=
      reads_readFixed_map (n := 8) v.toBitVec (by decide) Int64.ofBitVec
    exact hread.map Value.fint64
  | fuint64 v =>
    have hread : Reads e readFuint64 (encodeFixed e 8 v.toBitVec) v :=
      reads_readFixed_map (n := 8) v.toBitVec (by decide) UInt64.ofBitVec
    exact hread.map Value.fuint64
  | float v =>
    have hread : Reads e readFloat (encodeFixed e 4 v.toBitVec) v :=
      reads_readFixed_map (n := 4) v.toBitVec (by decide) UInt32.ofBitVec
    exact hread.map Value.float
  | double v =>
    have hread : Reads e readDouble (encodeFixed e 8 v.toBitVec) v :=
      reads_readFixed_map (n := 8) v.toBitVec (by decide) UInt64.ofBitVec
    exact hread.map Value.double
  | uint32 v => exact (reads_readUint32 v).map Value.uint32
  | uint64 v => exact (reads_readUint64 v).map Value.uint64
  | int32 v =>
    have hread := (reads_readUint32 (e := e) (encodeZigzag32 v)).map decodeZigzag32
    rw [map_eq_pure_bind, decodeZigzag32_encodeZigzag32] at hread
    exact hread.map Value.int32
  | int64 v | stringF16 s | stringF32 s | stringF64 s | stringVint s => exact hv.elim

theorem writes_values {vs : List Value} (h : ∀ v ∈ vs, v.IsNumber) :
    Writes e (vs.forM Value.write) (vs.flatMap (Value.encode e)) := by
  induction vs with
  | nil => exact writes_pure
  | cons v vs ih =>
    show Writes e (do v.write; vs.forM Value.write) _
    rw [List.flatMap_cons]
    exact (writes_value (h v List.mem_cons_self)).bind (ih fun w hw => h w (List.mem_cons_of_mem _ hw))

theorem reads_values {vs : List Value} (h : ∀ v ∈ vs, v.IsNumber) :
    Reads e (vs.mapM fun v => v.kind.read) (vs.flatMap (Value.encode e)) vs := by
  induction vs with
  | nil => exact reads_pure []
  | cons v vs ih =>
    have htail := ih fun w hw => h w (List.mem_cons_of_mem _ hw)
    have hcons : Reads e (do let ws ← vs.mapM fun v => v.kind.read; pure (v :: ws))
        (vs.flatMap (Value.encode e)) (v :: vs) := by
      have := htail.map (v :: ·)
      rwa [map_eq_pure_bind] at this
    rw [List.mapM_cons, List.flatMap_cons]
    exact (reads_value (h v List.mem_cons_self)).bind hcons

/-! ## Round trips -/

/-- What was written is read back after the position is moved back to where the write began. -/
theorem write_then_read {m : BufferM Unit} {r : BufferM β} {v : β} (hi : b.Inv) (hm : Writes b.endian m d)
    (hr : Reads b.endian r d v) : ∃ b₁ b₂ b₃, m b = .ok () b₁ ∧ setPosition b.position b₁ = .ok () b₂ ∧
      r b₂ = .ok v b₃ ∧ b₃.position = b₁.position ∧ b₁.position = b.position + d.length ∧
      b₃.size = max b.size (b.position + d.length) := by
  obtain ⟨b₁, hmb, hi₁, he₁, hpos₁, hsize₁, hc₁⟩ := hm b hi rfl
  have hcap := hi₁.size
  obtain ⟨cur, hset, hi₂⟩ := setPosition_spec hi₁ (v := b.position) (by omega)
  have hmax : max b₁.size b.position = b₁.size := by omega
  rw [hmax] at hset hi₂
  have hslice : slice b₁.content b.position d.length = d := by
    rw [hc₁]
    exact slice_overwrite (by rw [hi.length_content]; exact hi.position)
  obtain ⟨cur', hread, -⟩ := hr _ hi₂ he₁ (by simp only; omega) hslice
  exact ⟨b₁, _, _, hmb, hset, hread, hpos₁.symm, hpos₁, hsize₁⟩

/-- Write values in a byte order, go back to the start and read them. -/
def roundTrip (val : Bool) (vs : List Value) : BufferM (List Value) := do
  setIsLittleEndian val
  vs.forM Value.write
  setPosition 0
  vs.mapM fun v => v.kind.read

/-- `writeInt64(v)`, back to where it began, and `readInt64()`: the value is `v`, and the bytes written are consumed. -/
def RoundTripsInt64 (b : ByteArray) (v : Int64) : Prop :=
  ∃ b₁ b₂ b₃, writeInt64 v b = .ok () b₁ ∧ setPosition b.position b₁ = .ok () b₂ ∧ readInt64 b₂ = .ok v b₃ ∧
    b₃.position = b₁.position

theorem roundTripsInt64_iff (hi : b.Inv) (v : Int64) :
    b.RoundTripsInt64 v ↔ decodeZigzag64 (encodeZigzag64 v).toUInt64 = v := by
  have hread := (reads_readUint64 (e := b.endian) (encodeZigzag64 v).toUInt64).map decodeZigzag64
  rw [map_eq_pure_bind] at hread
  have hwrite := writes_write (e := b.endian) (varint_ne_nil 9 (encodeZigzag64 v).toUInt64.toNat)
  obtain ⟨b₁, b₂, b₃, hw, hset, hr, hpos, -, -⟩ := write_then_read hi hwrite hread
  constructor
  · rintro ⟨b₁', b₂', b₃', hw', hset', hr', -⟩
    cases hw.symm.trans hw'
    cases hset.symm.trans hset'
    exact (EStateM.Result.ok.inj (hr.symm.trans hr')).1
  · intro hv
    rw [hv] at hr
    exact ⟨b₁, b₂, b₃, hw, hset, hr, hpos⟩

end ByteArray

/-- **Typed values round-trip.** For every base size and byte order, a mixed list of numbers that is written to a fresh
array is read back from its start, and there is nothing left to read. -/
theorem typed_values_round_trip (baseSize : Nat) (heap : Nat → Nat → UInt8) (val : Bool) (vs : List ByteArray.Value)
    (hbase : 0 < baseSize) (hvs : ∀ v ∈ vs, v.IsNumber) :
    ∃ b, ByteArray.roundTrip val vs (.new baseSize heap) = .ok vs b ∧ b.getReadSize = 0 := by
  let b₀ : ByteArray := { ByteArray.new baseSize heap with endian := if val then .little else .big }
  have hi₀ : b₀.Inv := ByteArray.keeps_setIsLittleEndian val _ _ (ByteArray.inv_new hbase heap) rfl
  obtain ⟨b₁, b₂, b₃, hwrite, hset, hread, hpos, hpos₁, hsize⟩ :=
    ByteArray.write_then_read hi₀ (ByteArray.writes_values hvs) (ByteArray.reads_values hvs)
  refine ⟨b₃, ?_, ?_⟩
  · unfold ByteArray.roundTrip
    have hendian : ByteArray.setIsLittleEndian val (.new baseSize heap) = .ok () b₀ := rfl
    have hset₀ : ByteArray.setPosition 0 b₁ = .ok () b₂ := hset
    rw [BufferM.bind_ok hendian, BufferM.bind_ok hwrite, BufferM.bind_ok hset₀]
    exact hread
  · have hzero : b₀.position = 0 ∧ b₀.size = 0 := ⟨rfl, rfl⟩
    rw [ByteArray.getReadSize, sizeSub_of_le (by omega)]
    omega

/-- All sorts of numbers, in chunks of three bytes. -/
theorem typed_values_round_trip_mixed : ∃ b,
    ByteArray.roundTrip true [.fint16 (-2), .int32 (-2147483648), .uint64 300, .fuint8 7] (.new 3 fun _ _ => 0) =
      .ok [.fint16 (-2), .int32 (-2147483648), .uint64 300, .fuint8 7] b ∧ b.getReadSize = 0 :=
  typed_values_round_trip 3 (fun _ _ => 0) true [.fint16 (-2), .int32 (-2147483648), .uint64 300, .fuint8 7]
    (by decide) (by simp [ByteArray.Value.IsNumber])

/-- **An `int64_t` round-trips exactly when it has 32 bits.** -/
theorem int64_round_trip {b : ByteArray} (h : byteArraySys.Reachable b) (v : Int64) :
    b.RoundTripsInt64 v ↔ -2 ^ 31 ≤ v.toInt ∧ v.toInt < 2 ^ 31 :=
  (ByteArray.roundTripsInt64_iff (ByteArray.inv_reachable h) v).trans (ByteArray.decodeZigzag64_encodeZigzag64 v)

/-- The smallest value of 32 bits, in the middle of an array. -/
theorem int64_round_trip_min : ∃ b : ByteArray, b.position = 1 ∧ b.RoundTripsInt64 (-2147483648) := by
  obtain ⟨b, hb, hp⟩ := byteArraySys.reachable_of_exec (.new 2 fun _ _ => 0) ⟨2, _, by decide, rfl⟩
    [.write [1, 2, 3], .setPosition 1] (p := fun b => b.position == 1) rfl
  exact ⟨b, beq_iff_eq.mp hp, (int64_round_trip hb (-2147483648)).mpr (by decide)⟩

/-- The smallest value that does not come back. -/
theorem int64_cut : byteArraySys.Reachable (.new 4 fun _ _ => 0) ∧
    ¬ (ByteArray.new 4 fun _ _ => 0).RoundTripsInt64 2147483648 := by
  refine ⟨.init ⟨4, _, by decide, rfl⟩, fun h => ?_⟩
  rw [ByteArray.roundTripsInt64_iff (ByteArray.inv_new (by decide) _)] at h
  exact absurd h (by decide)

end Megalo
