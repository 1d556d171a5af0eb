import Megalo.ByteArray.RoundTrip
import Megalo.ByteArray.Streaming

/-!
# Strings with a length in front

- `StringKind` is the four members that write a string, with the integer that each writes in front; `limit` is the first
  length that this integer does not hold;
- a prefix that is written as some number and read back as that number, with a string behind it: the string comes back
  when the number is its length (`prefixed_iff`);
- `string_round_trip`: a string that is not empty comes back exactly when its length is below the limit.
-/

namespace Megalo

open Overwrite

namespace ByteArray

/-- `writeStringF16`, `writeStringF32`, `writeStringF64` or `writeStringVint`. -/
inductive StringKind
  | f16
  | f32
  | f64
  | vint
  deriving DecidableEq

namespace StringKind

def write (s : List UInt8) : StringKind → BufferM Unit
  | f16 => writeStringF16 s
  | f32 => writeStringF32 s
  | f64 => writeStringF64 s
  | vint => writeStringVint s

def read : StringKind → BufferM (List UInt8)
  | f16 => readStringF16
  | f32 => readStringF32
  | f64 => readStringF64
  | vint => readStringVint

/-- The first length that does not fit in front. -/
def limit : StringKind → Nat
  | f16 => 2 ^ 16
  | f32 => 2 ^ 32
  | f64 | vint => 2 ^ 64

end StringKind

/-- The string is written, and read back from where the write began; the position is then behind what was written. -/
def RoundTripsString (b : ByteArray) (k : StringKind) (s : List UInt8) : Prop :=
  ∃ b₁ b₂ b₃, k.write s b = .ok () b₁ ∧ setPosition b.position b₁ = .ok () b₂ ∧ k.read b₂ = .ok s b₃ ∧
    b₃.position = b₁.position

section

variable {b b' : ByteArray} {e : Endian} {α : Type} {s p : List UInt8}

/-! ## The string -/

theorem reads_readChars (hs : s ≠ []) (hmax : s.length ≤ stringMaxSize) : Reads e (readChars s.length) s s := by
  have hle : ¬s.length > stringMaxSize := Nat.not_lt.2 hmax
  unfold readChars
  simp only [hle, if_false]
  exact reads_read hs

theorem length_of_readChars (h : b.Inv) {n : Nat} (hr : readChars n b = .ok s b') : s.length = n := by
  unfold readChars at hr
  split at hr
  · rw [BufferM.bind_error (BufferM.throw_apply _)] at hr
    cases hr
  · exact length_of_read h hr

/-- **A string behind a prefix** comes back when the prefix reads as its length. -/
theorem prefixed_iff {w : BufferM Unit} {r : BufferM α} {v : α} (num : α → Nat) (hi : b.Inv) (hs : s ≠ [])
    (hmax : s.length ≤ stringMaxSize) (hw : Writes b.endian w p) (hr : Reads b.endian r p v) :
    (∃ b₁ b₂ b₃, (do w; ByteArray.write s) b = .ok () b₁ ∧ setPosition b.position b₁ = .ok () b₂ ∧
      (do readChars (num (← r))) b₂ = .ok s b₃ ∧ b₃.position = b₁.position) ↔ num v = s.length := by
  have hwrite := hw.bind (writes_write hs)
  constructor
  · rintro ⟨b₁, b₂, b₃, hw₁, hset, hread, -⟩
    -- the prefix is read as it was written, wherever the string ends
    obtain ⟨b₁', hw₁', hi₁, he₁, hpos₁, hsize₁, hc₁⟩ := hwrite b hi rfl
    cases hw₁.symm.trans hw₁'
    rw [List.length_append] at hpos₁ hsize₁
    have hcap := hi₁.size
    obtain ⟨cur, hset', hi₂⟩ := setPosition_spec hi₁ (v := b.position) (by omega)
    rw [Nat.max_eq_left (by omega)] at hset' hi₂
    cases hset.symm.trans hset'
    have hslice : slice b₁.content b.position (p ++ s).length = p ++ s := by
      rw [hc₁]
      exact slice_overwrite (by rw [hi.length_content]; exact hi.position)
    have hprefix : slice b₁.content b.position p.length = p := by
      have htake := congrArg (List.take p.length) hslice
      rwa [take_slice (by rw [List.length_append]; omega), List.take_left] at htake
    obtain ⟨cur', hr', hi₃⟩ := hr _ hi₂ he₁ (by simp only; omega) hprefix
    rw [BufferM.bind_ok hr'] at hread
    exact (length_of_readChars hi₃ hread).symm
  · intro hv
    have hchars : Reads b.endian (readChars (num v)) s s := by
      rw [hv]
      exact reads_readChars hs hmax
    have hreads := hr.bind (f := fun v => readChars (num v)) hchars
    obtain ⟨b₁, b₂, b₃, hw₁, hset, hread, hpos, -⟩ := write_then_read hi hwrite hreads
    exact ⟨b₁, b₂, b₃, hw₁, hset, hread, hpos⟩

/-- A number that is reduced to some bits is the number when it has no more. -/
theorem mod_eq_iff {n m : Nat} (hm : 0 < m) : n % m = n ↔ n < m :=
  ⟨fun h => h ▸ Nat.mod_lt n hm, Nat.mod_eq_of_lt⟩

/-- For each member, the string comes back when its length fits in front. -/
theorem roundTripsString_iff (hi : b.Inv) (k : StringKind) (hs : s ≠ []) (hmax : s.length ≤ stringMaxSize) :
    b.RoundTripsString k s ↔ s.length < k.limit := by
  cases k with
  | f16 =>
    have hread : Reads b.endian readFuint16 _ (UInt16.ofNat s.length) :=
      reads_readFixed_map (n := 2) (UInt16.ofNat s.length).toBitVec (by decide) UInt16.ofBitVec
    have hiff := prefixed_iff UInt16.toNat hi hs hmax (writes_writeFixed _ (by decide)) hread
    exact hiff.trans (by rw [UInt16.toNat_ofNat']; exact mod_eq_iff (by decide))
  | f32 =>
    have hread : Reads b.endian readFuint32 _ (UInt32.ofNat s.length) :=
      reads_readFixed_map (n := 4) (UInt32.ofNat s.length).toBitVec (by decide) UInt32.ofBitVec
    have hiff := prefixed_iff UInt32.toNat hi hs hmax (writes_writeFixed _ (by decide)) hread
    exact hiff.trans (by rw [UInt32.toNat_ofNat']; exact mod_eq_iff (by decide))
  | f64 =>
    have hread : Reads b.endian readFuint64 _ (UInt64.ofNat s.length) :=
      reads_readFixed_map (n := 8) (UInt64.ofNat s.length).toBitVec (by decide) UInt64.ofBitVec
    have hiff := prefixed_iff UInt64.toNat hi hs hmax (writes_writeFixed _ (by decide)) hread
    exact hiff.trans (by rw [UInt64.toNat_ofNat']; exact mod_eq_iff (by decide))
  | vint =>
    have hread : Reads b.endian readUint64 _ (UInt64.ofNat s.length) := reads_readUint64 _
    have hiff := prefixed_iff UInt64.toNat hi hs hmax (writes_write (varint_ne_nil 9 _)) hread
    exact hiff.trans (by rw [UInt64.toNat_ofNat']; exact mod_eq_iff (by decide))

end

end ByteArray

/-- A string of 65536 bytes, whose length is written as 0. -/
theorem string_cut : streamSys.Reachable (.new 4096 fun _ _ => 0) ∧
    ¬ (ByteArray.new 4096 fun _ _ => 0).RoundTripsString .f16 (List.replicate 65536 0) := by
  refine ⟨.init ⟨4096, _, by decide, rfl⟩, fun h => ?_⟩
  have hlen : (List.replicate 65536 (0 : UInt8)).length = 65536 := List.length_replicate
  have hne : List.replicate 65536 (0 : UInt8) ≠ [] := by
    intro hnil
    rw [hnil] at hlen
    cases hlen
  rw [ByteArray.roundTripsString_iff (ByteArray.inv_new (by decide) _) .f16 hne (by rw [hlen]; decide), hlen] at h
  exact absurd h (by decide)

/-- **Strings round-trip** exactly when their length fits in front: from every reachable array, in its byte order, a
string that is not empty comes back from where it was written, and the position is then behind it, when it has fewer
than 2^16 bytes for `writeStringF16`, fewer than 2^32 for `writeStringF32`, and in any case for the other two. -/
theorem string_round_trip {b : ByteArray} (h : streamSys.Reachable b) (k : ByteArray.StringKind) (s : List UInt8)
    (hs : s ≠ []) (hmax : s.length ≤ ByteArray.stringMaxSize) :
    b.RoundTripsString k s ↔ k = .f64 ∨ k = .vint ∨ s.length < k.limit := by
  rw [ByteArray.roundTripsString_iff (inv_streamed h) k hs hmax]
  have hlt : s.length < 2 ^ 64 := Nat.lt_of_le_of_lt hmax (by decide)
  cases k with
  | f16 => simp
  | f32 => simp
  | f64 => exact iff_of_true hlt (.inl rfl)
  | vint => exact iff_of_true hlt (.inr (.inl rfl))

/-- Two bytes, in the middle of an array with nodes of two bytes. -/
theorem string_round_trip_two : ∃ b : ByteArray, b.position = 1 ∧ b.RoundTripsString .f16 [7, 8] := by
  obtain ⟨b, hb, hp⟩ := streamSys.reachable_of_exec (.new 2 fun _ _ => 0) ⟨2, _, by decide, rfl⟩
    [.call (.write [1, 2, 3]), .call (.setPosition 1)] (p := fun b => b.position == 1) rfl
  exact ⟨b, beq_iff_eq.1 hp, (string_round_trip hb .f16 [7, 8] (by decide) (by decide)).2 (by decide)⟩

end Megalo
