import Megalo.ByteArray.Reads
import Megalo.ByteArray.RoundTrip
import Mathlib.Data.Nat.Digits.Defs

/-!
# Reads that throw

- `read` throws before it moves, a number of variable length one byte at a time, a string behind its length;
- `VarintCut` and `CharsCut` say of the bytes that are there that they end inside a value, `Kind.Cut` says it for each
  member that reads a value;
- `varintLoop_ends` is what the loop of `readUint32` or `readUint64` does with any bytes, by induction on what room it
  has left;
- a member that throws `out_of_range` leaves the array as it was exactly when the bytes do not end inside the value
  (`failed_read_leaves_iff`).
-/

namespace Megalo

namespace ByteArray

/-- The bytes from the position on. -/
def unread (b : ByteArray) : List UInt8 := b.content.drop b.position

/-- If the call throws `out_of_range`, position, cursor, size and content are what they were. -/
def Leaves {β : Type} (m : BufferM β) (b : ByteArray) : Prop :=
  ∀ b', m b = .error .outOfRange b' →
    b'.position = b.position ∧ b'.cur = b.cur ∧ b'.size = b.size ∧ b'.content = b.content

/-! ## Bytes that end inside a value -/

/-- How many bytes a number at the front of these bytes has, of at most `room`: those with the high bit and one more. -/
def varintSize (room : Nat) (bytes : List UInt8) : Nat := min room ((bytes.takeWhile (0x80 ≤ ·)).length + 1)

/-- The number whose digits in base 128 are the low bits of these bytes, the lowest first. -/
def varintValue (bytes : List UInt8) : Nat := Nat.ofDigits 128 (bytes.map fun c => c.toNat % 128)

/-- The number that `readFixed` makes of `n` bytes. -/
def decodeFixed (e : Endian) (n : Nat) (bytes : List UInt8) : BitVec (8 * n) :=
  if e = byteOrder then ofHostBytes n bytes else byteswap n (ofHostBytes n bytes)

/-- The bytes end behind the first byte of a number of variable length, and before its last. -/
def VarintCut (room : Nat) (bytes : List UInt8) : Prop := bytes ≠ [] ∧ bytes.length < varintSize room bytes

/-- The bytes have the `n` bytes of a length, and fewer characters than it says. -/
def CharsCut (n len : Nat) (bytes : List UInt8) : Prop :=
  n ≤ bytes.length ∧ bytes.length < n + len ∧ len ≤ stringMaxSize

/-- The bytes end inside a value, behind a part of it that the member reads on its own. -/
def Kind.Cut (e : Endian) (bytes : List UInt8) : Kind → Prop
  | int32 | uint32 => VarintCut 5 bytes
  | int64 | uint64 => VarintCut 10 bytes
  | stringF16 => CharsCut 2 (decodeFixed e 2 (bytes.take 2)).toNat bytes
  | stringF32 => CharsCut 4 (decodeFixed e 4 (bytes.take 4)).toNat bytes
  | stringF64 => CharsCut 8 (decodeFixed e 8 (bytes.take 8)).toNat bytes
  | stringVint => VarintCut 10 bytes ∨
      CharsCut (varintSize 10 bytes) (varintValue (bytes.take (varintSize 10 bytes)) % 2 ^ 64) bytes
  | _ => False

section

variable {room : Nat} {c : UInt8} {bytes : List UInt8}

theorem varintSize_pos (hr : 0 < room) : 0 < varintSize room bytes := lt_min hr (Nat.succ_pos _)

/-- A byte with the high bit is followed by another one. -/
theorem varintSize_cons (hc : ¬c < 0x80) : varintSize (room + 1) (c :: bytes) = varintSize room bytes + 1 := by
  have hle : 0x80 ≤ c := UInt8.not_lt.1 hc
  simp only [varintSize, List.takeWhile_cons, hle, decide_true, if_true, List.length_cons]
  omega

theorem varintSize_last (hc : c < 0x80) : varintSize (room + 1) (c :: bytes) = 1 := by
  have hle : ¬(0x80 ≤ c) := UInt8.not_le.2 hc
  simp only [varintSize, List.takeWhile_cons, hle, decide_false]
  simp

theorem varintValue_cons : varintValue (c :: bytes) = c.toNat % 128 + 128 * varintValue bytes := by
  simp [varintValue, Nat.ofDigits_cons]

end

section

variable {b b' b'' : ByteArray} {n k : Nat} {β γ : Type}

/-- The array with its cursor `n` bytes further. -/
structure Past (b b' : ByteArray) (n : Nat) : Prop where
  inv : b'.Inv
  eq : b' = { b with cur := b'.cur, position := b.position + n }

namespace Past

theorem refl (h : b.Inv) : Past b b 0 := ⟨h, rfl⟩

theorem trans (h : Past b b' n) (h' : Past b' b'' k) : Past b b'' (n + k) := by
  refine ⟨h'.inv, h'.eq.trans ?_⟩
  rw [h.eq]
  simp only [Nat.add_assoc]

theorem position (h : Past b b' n) : b'.position = b.position + n := by rw [h.eq]

theorem size (h : Past b b' n) : b'.size = b.size := by rw [h.eq]

theorem content (h : Past b b' n) : b'.content = b.content := by
  rw [h.eq]
  rfl

theorem unread (h : Past b b' n) : b'.unread = b.unread.drop n := by
  rw [ByteArray.unread, h.content, h.position, ByteArray.unread, List.drop_drop]

/-- With no byte consumed, the cursor is where it was. -/
theorem cur (h : Past b b' 0) (hb : b.Inv) : b'.cur = b.cur := by
  rw [h.inv.cur, hb.cur, h.eq]
  simp only [Nat.add_zero]

end Past

/-! ## What a failed call leaves -/

theorem leaves_of_ok {m : BufferM β} {v : β} (h : m b = .ok v b') : Leaves m b := by
  intro b'' he
  rw [h] at he
  cases he

theorem leaves_of_ne {m : BufferM β} {f : BufferFault} (h : m b = .error f b') (hf : f ≠ .outOfRange) :
    Leaves m b := by
  intro b'' he
  rw [h] at he
  cases he
  exact absurd rfl hf

/-- A call that throws after `n` bytes leaves the array as it was only for `n = 0`. -/
theorem leaves_iff_zero {m : BufferM β} (hb : b.Inv) (h : m b = .error .outOfRange b') (hp : Past b b' n) :
    Leaves m b ↔ n = 0 := by
  constructor
  · intro hl
    have hpos := (hl b' h).1
    rw [hp.position] at hpos
    omega
  · intro hn b'' he
    rw [h] at he
    cases he
    subst hn
    exact ⟨hp.position, hp.cur hb, hp.size, hp.content⟩

/-- What is done with the result does not throw. -/
theorem leaves_map {m : BufferM β} (f : β → γ) : Leaves (f <$> m) b ↔ Leaves m b := by
  have herror (b' : ByteArray) : (f <$> m) b = .error .outOfRange b' ↔ m b = .error .outOfRange b' := by
    show (m >>= fun x => pure (f x)) b = _ ↔ _
    cases hm : m b with
    | ok v b₁ => simp [BufferM.bind_ok hm]
    | error e b₁ => rw [BufferM.bind_error hm]; simp
  exact forall_congr' fun b' => imp_congr (herror b') Iff.rfl

/-! ## One read -/

theorem Inv.length_unread (h : b.Inv) : b.unread.length = b.size - b.position := by
  rw [unread, List.length_drop, h.length_content]

theorem read_short (h : b.Inv) (hn : b.unread.length < n) : read n b = .error .outOfRange b := by
  have hposition := h.position
  rw [h.length_unread] at hn
  exact read_outOfRange h (by omega)

theorem read_unread (h : b.Inv) (hn : n ≤ b.unread.length) (hpos : 0 < n) :
    ∃ b', read n b = .ok (b.unread.take n) b' ∧ Past b b' n := by
  have hsize := h.size
  have hposition := h.position
  rw [h.length_unread] at hn
  obtain ⟨cur, hr, hi⟩ := read_spec h (n := n) (by omega) (by omega)
  exact ⟨_, hr, hi, rfl⟩

theorem leaves_read (h : b.Inv) (hpos : 0 < n) : Leaves (read n) b := by
  rcases Nat.lt_or_ge b.unread.length n with hn | hn
  · exact (leaves_iff_zero h (read_short h hn) (.refl h)).2 rfl
  · obtain ⟨b', hr, -⟩ := read_unread h hn hpos
    exact leaves_of_ok hr

theorem readFixed_short (h : b.Inv) (hn : b.unread.length < n) : readFixed n b = .error .outOfRange b := by
  rw [readFixed, BufferM.bind_error (read_short h hn)]

theorem readFixed_unread (h : b.Inv) (hn : n ≤ b.unread.length) (hpos : 0 < n) :
    ∃ b', readFixed n b = .ok (decodeFixed b.endian n (b.unread.take n)) b' ∧ Past b b' n := by
  obtain ⟨b', hr, hp⟩ := read_unread h hn hpos
  have hendian : b'.endian = b.endian := by rw [hp.eq]
  refine ⟨b', ?_, hp⟩
  rw [readFixed, BufferM.bind_ok hr, BufferM.get_bind, BufferM.pure_apply, hendian]
  rfl

theorem leaves_readFixed (h : b.Inv) (hpos : 0 < n) : Leaves (readFixed n) b := by
  rcases Nat.lt_or_ge b.unread.length n with hn | hn
  · exact (leaves_iff_zero h (readFixed_short h hn) (.refl h)).2 rfl
  · obtain ⟨b', hr, -⟩ := readFixed_unread h hn hpos
    exact leaves_of_ok hr

theorem readFuint8_nil (h : b.Inv) (hn : b.unread = []) : readFuint8 b = .error .outOfRange b := by
  have hshort : b.unread.length < 1 := by rw [hn]; exact Nat.one_pos
  rw [readFuint8, BufferM.bind_error (read_short h hshort)]

theorem readFuint8_cons (h : b.Inv) {c : UInt8} {bytes : List UInt8} (hn : b.unread = c :: bytes) :
    ∃ b', readFuint8 b = .ok c b' ∧ Past b b' 1 ∧ b'.unread = bytes := by
  obtain ⟨b', hr, hp⟩ := read_unread h (n := 1) (by rw [hn]; simp) Nat.one_pos
  refine ⟨b', ?_, hp, by rw [hp.unread, hn]; rfl⟩
  rw [readFuint8, BufferM.bind_ok hr, hn]
  simp [ofHostBytes]

end

/-! ## Numbers of variable length -/

section Loop

variable {α σ : Type} (loop : List σ → α → BufferM α) (shift : Nat → σ) (add : α → UInt8 → Nat → α) (num : α → Nat)
  (w : Nat)

/-- What the loop does with the bytes that are there: where they end inside the number it throws behind the last of
them, else it has read the number, modulo what its accumulator holds. -/
theorem varintLoop_ends (hnil : ∀ r, loop [] r = pure r)
    (hcons : ∀ i is r, loop (shift i :: is) r = readFuint8 >>= fun b =>
      if b < 0x80 then pure (add r b i) else loop is (add r (b &&& 0x7f) i))
    (hnum : ∀ r, num r < 2 ^ w)
    (hadd : ∀ r b i, i < w → num r < 2 ^ i → num (add r b i) = (num r + b.toNat * 2 ^ i) % 2 ^ w) :
    ∀ (room i : Nat) (r : α) {b : ByteArray}, b.Inv → i + 7 * room < w + 7 → num r < 2 ^ i →
      if b.unread.length < varintSize room b.unread then
        ∃ b', loop ((shifts i room).map shift) r b = .error .outOfRange b' ∧ Past b b' b.unread.length
      else ∃ r' b', loop ((shifts i room).map shift) r b = .ok r' b' ∧ Past b b' (varintSize room b.unread) ∧
        num r' = (num r + varintValue (b.unread.take (varintSize room b.unread)) * 2 ^ i) % 2 ^ w
  | 0, i, r, b, hb, _, _ => by
    have hsize : varintSize 0 b.unread = 0 := Nat.zero_min _
    rw [hsize, if_neg (Nat.not_lt_zero _)]
    refine ⟨r, b, ?_, .refl hb, ?_⟩
    · rw [shifts, List.map_nil, hnil, BufferM.pure_apply]
    · rw [List.take_zero, varintValue, List.map_nil, Nat.ofDigits_nil, Nat.zero_mul, Nat.add_zero,
        Nat.mod_eq_of_lt (hnum r)]
  | room + 1, i, r, b, hb, hi, hr => by
    have hiw : i < w := by omega
    rw [shifts, List.map_cons, hcons]
    cases hbytes : b.unread with
    | nil =>
      have hpos : 0 < varintSize (room + 1) [] := varintSize_pos (Nat.succ_pos _)
      rw [List.length_nil, if_pos hpos, BufferM.bind_error (readFuint8_nil hb hbytes)]
      exact ⟨b, rfl, .refl hb⟩
    | cons c bytes =>
      obtain ⟨b', hread, hpast, hrest⟩ := readFuint8_cons hb hbytes
      rw [BufferM.bind_ok hread]
      by_cases hc : c < 0x80
      · -- the last byte of the number
        have hlow : c.toNat % 128 = c.toNat := Nat.mod_eq_of_lt (UInt8.lt_iff_toNat_lt.1 hc)
        rw [if_pos hc, varintSize_last hc, List.length_cons, if_neg (by omega)]
        refine ⟨_, b', BufferM.pure_apply _, hpast, ?_⟩
        rw [hadd r c i hiw hr, List.take_succ_cons, List.take_zero, varintValue_cons, hlow]
        simp [varintValue]
      · have hlow : (c &&& 0x7f).toNat = c.toNat % 128 := by
          rw [UInt8.toNat_and]
          exact Nat.and_two_pow_sub_one_eq_mod c.toNat 7
        have hsum := hadd r (c &&& 0x7f) i hiw hr
        rw [hlow] at hsum
        have hnext : num (add r (c &&& 0x7f) i) < 2 ^ (i + 7) := by
          have hmul : c.toNat % 128 * 2 ^ i ≤ 127 * 2 ^ i :=
            Nat.mul_le_mul_right _ (Nat.le_of_lt_succ (Nat.mod_lt _ (by decide)))
          have hmod := Nat.mod_le (num r + c.toNat % 128 * 2 ^ i) (2 ^ w)
          rw [hsum, Nat.pow_add]
          omega
        have ih := varintLoop_ends hnil hcons hnum hadd room (i + 7) (add r (c &&& 0x7f) i) hpast.inv (by omega) hnext
        rw [hrest] at ih
        rw [if_neg hc, varintSize_cons hc, List.length_cons]
        by_cases hlt : bytes.length < varintSize room bytes
        · rw [if_pos hlt] at ih
          rw [if_pos (by omega)]
          obtain ⟨b'', he, hp⟩ := ih
          exact ⟨b'', he, by simpa only [Nat.add_comm] using hpast.trans hp⟩
        · rw [if_neg hlt] at ih
          rw [if_neg (by omega)]
          obtain ⟨r', b'', he, hp, hn⟩ := ih
          refine ⟨r', b'', he, by simpa only [Nat.add_comm] using hpast.trans hp, ?_⟩
          have hsplit (d : Nat) : num r + (c.toNat % 128 + 128 * d) * 2 ^ i =
              num r + c.toNat % 128 * 2 ^ i + d * 2 ^ (i + 7) := by
            rw [Nat.pow_add]
            ring
          rw [hn, hsum, List.take_succ_cons, varintValue_cons, hsplit, Nat.mod_add_mod]

end Loop

section

variable {b b' : ByteArray} {n : Nat} {β : Type}

theorem readUint32_ends (h : b.Inv) :
    if b.unread.length < varintSize 5 b.unread then
      ∃ b', readUint32 b = .error .outOfRange b' ∧ Past b b' b.unread.length
    else ∃ v b', readUint32 b = .ok v b' := by
  have hends := varintLoop_ends readVarint32 UInt32.ofNat (fun r b i => r ||| b.toUInt32 <<< UInt32.ofNat i)
    UInt32.toNat 32 (fun _ => rfl) (fun _ _ _ => rfl) UInt32.toNat_lt
    (fun r c i hi hr => by
      have hshift : (UInt32.ofNat i).toNat % 32 = i := by
        rw [UInt32.toNat_ofNat']
        omega
      rw [UInt32.toNat_or, UInt32.toNat_shiftLeft, UInt8.toNat_toUInt32, hshift, Nat.shiftLeft_eq,
        ← or_mul_two_pow c.toNat hr, Nat.or_mod_two_pow, Nat.mod_eq_of_lt r.toNat_lt])
    5 0 0 h (by decide) (by decide)
  split at hends
  · rename_i hlt
    rw [if_pos hlt]
    exact hends
  · rename_i hlt
    rw [if_neg hlt]
    obtain ⟨v, b', hr, -⟩ := hends
    exact ⟨v, b', hr⟩

theorem readUint64_ends (h : b.Inv) :
    if b.unread.length < varintSize 10 b.unread then
      ∃ b', readUint64 b = .error .outOfRange b' ∧ Past b b' b.unread.length
    else ∃ v b', readUint64 b = .ok v b' ∧ Past b b' (varintSize 10 b.unread) ∧
      v.toNat = varintValue (b.unread.take (varintSize 10 b.unread)) % 2 ^ 64 := by
  have hends := varintLoop_ends readVarint64 UInt64.ofNat (fun r b i => r ||| b.toUInt64 <<< UInt64.ofNat i)
    UInt64.toNat 64 (fun _ => rfl) (fun _ _ _ => rfl) UInt64.toNat_lt
    (fun r c i hi hr => by
      have hshift : (UInt64.ofNat i).toNat % 64 = i := by
        rw [UInt64.toNat_ofNat']
        omega
      rw [UInt64.toNat_or, UInt64.toNat_shiftLeft, UInt8.toNat_toUInt64, hshift, Nat.shiftLeft_eq,
        ← or_mul_two_pow c.toNat hr, Nat.or_mod_two_pow, Nat.mod_eq_of_lt r.toNat_lt])
    10 0 0 h (by decide) (by decide)
  simp only [UInt64.toNat_zero, Nat.zero_add, Nat.pow_zero, Nat.mul_one] at hends
  exact hends

/-- A number of variable length that ends before its last byte. -/
theorem leaves_cut {m : BufferM β} {room : Nat} (h : b.Inv)
    (hends : if b.unread.length < varintSize room b.unread then
      ∃ b', m b = .error .outOfRange b' ∧ Past b b' b.unread.length else ∃ v b', m b = .ok v b') :
    Leaves m b ↔ ¬VarintCut room b.unread := by
  split at hends
  · rename_i hlt
    obtain ⟨b', he, hp⟩ := hends
    rw [leaves_iff_zero h he hp, List.length_eq_zero_iff, VarintCut, and_iff_left hlt, not_not]
  · rename_i hlt
    obtain ⟨v, b', hm⟩ := hends
    exact iff_of_true (leaves_of_ok hm) fun hcut => hlt hcut.2

/-! ## Strings -/

theorem length_unread_past (h : Past b b' n) : b'.unread.length = b.unread.length - n := by
  rw [h.unread, List.length_drop]

/-- The characters behind a length that has been read. -/
theorem leaves_chars (hb : b.Inv) (k : StringKind) {len : Nat} (hlen : k.readLength b = .ok len b') (hp : Past b b' n)
    (hn : 0 < n) : Leaves k.read b ↔ ¬(b'.unread.length < len ∧ len ≤ stringMaxSize) := by
  have hread : k.read b = readChars len b' := by rw [k.read_eq, BufferM.bind_ok hlen]
  by_cases hmax : len > stringMaxSize
  · have he : k.read b = .error .lengthError b' := by
      rw [hread, readChars, if_pos hmax]
      rfl
    refine iff_of_true (leaves_of_ne he (by decide)) fun hcut => ?_
    omega
  · have hchars : k.read b = ByteArray.read len b' := by
      rw [hread, readChars, if_neg hmax]
    by_cases hshort : b'.unread.length < len
    · rw [leaves_iff_zero hb (hchars.trans (read_short hp.inv hshort)) hp]
      omega
    · refine iff_of_true ?_ fun hcut => hshort hcut.1
      have hposition := hp.inv.position
      rw [hp.inv.length_unread] at hshort
      by_cases hlt : b'.position < b'.capacity
      · obtain ⟨cur, hr, -⟩ := read_spec hp.inv (n := len) (by omega) hlt
        exact leaves_of_ok (hchars.trans hr)
      · exact leaves_of_ne (hchars.trans (read_null hp.inv (by omega) hlt)) (by decide)

/-- A string behind a length that is there as a whole or not at all. -/
theorem leaves_prefixed (hb : b.Inv) (k : StringKind) {len : Nat} (hn : 0 < n)
    (hshort : b.unread.length < n → k.readLength b = .error .outOfRange b)
    (hlong : n ≤ b.unread.length → ∃ b', k.readLength b = .ok len b' ∧ Past b b' n) :
    Leaves k.read b ↔ ¬CharsCut n len b.unread := by
  rcases Nat.lt_or_ge b.unread.length n with hlt | hge
  · have he : k.read b = .error .outOfRange b := by rw [k.read_eq, BufferM.bind_error (hshort hlt)]
    exact iff_of_true ((leaves_iff_zero hb he (.refl hb)).2 rfl) fun hcut => Nat.not_lt.2 hcut.1 hlt
  · obtain ⟨b', hlen, hp⟩ := hlong hge
    rw [leaves_chars hb k hlen hp hn, length_unread_past hp, CharsCut]
    omega

/-- A length of a fixed width. -/
theorem leaves_string_fixed (hb : b.Inv) (k : StringKind) (hn : 0 < n) (num : BitVec (8 * n) → Nat)
    (hk : k.readLength = (do return num (← readFixed n))) :
    Leaves k.read b ↔ ¬CharsCut n (num (decodeFixed b.endian n (b.unread.take n))) b.unread := by
  apply leaves_prefixed hb k hn
  · intro hlt
    rw [hk, BufferM.bind_error (readFixed_short hb hlt)]
  · intro hge
    obtain ⟨b', hr, hp⟩ := readFixed_unread hb hge hn
    exact ⟨b', by rw [hk, BufferM.bind_ok hr, BufferM.pure_apply], hp⟩

theorem leaves_stringVint (hb : b.Inv) : Leaves StringKind.vint.read b ↔ ¬(VarintCut 10 b.unread ∨
    CharsCut (varintSize 10 b.unread) (varintValue (b.unread.take (varintSize 10 b.unread)) % 2 ^ 64) b.unread) := by
  have hpos : 0 < varintSize 10 b.unread := varintSize_pos (by decide)
  have hends := readUint64_ends hb
  by_cases hlt : b.unread.length < varintSize 10 b.unread
  · -- the length itself is cut
    rw [if_pos hlt] at hends
    obtain ⟨b', he, hp⟩ := hends
    have herror : StringKind.vint.read b = .error .outOfRange b' := by
      rw [StringKind.read_eq, StringKind.readLength]
      exact BufferM.bind_error (BufferM.bind_error he _) _
    rw [leaves_iff_zero hb herror hp, VarintCut, CharsCut, ne_eq, ← List.length_eq_zero_iff]
    omega
  · rw [if_neg hlt] at hends
    obtain ⟨v, b', hv, hp, hnum⟩ := hends
    have hlen : StringKind.vint.readLength b = .ok v.toNat b' := by
      rw [StringKind.readLength, BufferM.bind_ok hv, BufferM.pure_apply]
    rw [leaves_chars hb .vint hlen hp hpos, length_unread_past hp, hnum, VarintCut, CharsCut]
    omega

/-! ## Every member that reads a value -/

theorem leaves_kind (hb : b.Inv) (k : Kind) : Leaves k.read b ↔ ¬k.Cut b.endian b.unread := by
  have hbyte {β γ : Type} (f : BitVec (8 * 1) → β) (g : β → γ) :
      Leaves (g <$> (do return f (ofHostBytes 1 (← read 1)))) b ↔ ¬False :=
    (leaves_map g).trans ((leaves_map fun bytes => f (ofHostBytes 1 bytes)).trans
      (iff_of_true (leaves_read hb Nat.one_pos) id))
  have hfixed (n : Nat) {β γ : Type} (hn : 0 < n) (f : BitVec (8 * n) → β) (g : β → γ) :
      Leaves (g <$> (do return f (← readFixed n))) b ↔ ¬False :=
    (leaves_map g).trans ((leaves_map f).trans (iff_of_true (leaves_readFixed hb hn) id))
  have h32 : Leaves readUint32 b ↔ ¬VarintCut 5 b.unread := leaves_cut hb (readUint32_ends hb)
  have h64 : Leaves readUint64 b ↔ ¬VarintCut 10 b.unread := by
    apply leaves_cut hb
    have hends := readUint64_ends hb
    split at hends
    · rename_i hlt
      rwa [if_pos hlt]
    · rename_i hlt
      obtain ⟨v, b', hv, -⟩ := hends
      rw [if_neg hlt]
      exact ⟨v, b', hv⟩
  cases k with
  | fint8 => exact hbyte Int8.ofBitVec _
  | fuint8 => exact hbyte UInt8.ofBitVec _
  | fint16 => exact hfixed 2 (by decide) Int16.ofBitVec _
  | fuint16 => exact hfixed 2 (by decide) UInt16.ofBitVec _
  | fint32 => exact hfixed 4 (by decide) Int32.ofBitVec _
  | fuint32 | float => exact hfixed 4 (by decide) UInt32.ofBitVec _
  | fint64 => exact hfixed 8 (by decide) Int64.ofBitVec _
  | fuint64 | double => exact hfixed 8 (by decide) UInt64.ofBitVec _
  | int32 => exact (leaves_map _).trans ((leaves_map decodeZigzag32).trans h32)
  | uint32 => exact (leaves_map _).trans h32
  | int64 => exact (leaves_map _).trans ((leaves_map decodeZigzag64).trans h64)
  | uint64 => exact (leaves_map _).trans h64
  | stringF16 =>
    apply (leaves_map _).trans (leaves_string_fixed hb .f16 (by decide) BitVec.toNat _)
    simp [StringKind.readLength, readFuint16]
  | stringF32 =>
    apply (leaves_map _).trans (leaves_string_fixed hb .f32 (by decide) BitVec.toNat _)
    simp [StringKind.readLength, readFuint32]
  | stringF64 =>
    apply (leaves_map _).trans (leaves_string_fixed hb .f64 (by decide) BitVec.toNat _)
    simp [StringKind.readLength, readFuint64]
  | stringVint => exact (leaves_map _).trans (leaves_stringVint hb)

end

end ByteArray

/-- **Failed reads.** In every reachable array, a member that reads a value and throws `out_of_range` leaves position,
cursor, size and content as they were exactly when the bytes from the position on do not end inside the value: behind
the first byte of a number of variable length, or behind the length of a string. -/
theorem failed_read_leaves_iff {b : ByteArray} (h : streamSys.Reachable b) (k : ByteArray.Kind) :
    ByteArray.Leaves k.read b ↔ ¬ k.Cut b.endian b.unread :=
  ByteArray.leaves_kind (inv_streamed h) k

/-- One byte is there, of the four of an integer. -/
theorem failed_read_leaves_iff_fixed : ∃ b : ByteArray, b.unread = [7] ∧
    ByteArray.Leaves (ByteArray.Kind.read .fuint32) b := by
  obtain ⟨b, hb, hp⟩ := streamSys.reachable_of_exec (.new 2 fun _ _ => 0) ⟨2, _, by decide, rfl⟩
    [.call (.write [7]), .call (.setPosition 0)] (p := fun b => b.unread == [7]) rfl
  exact ⟨b, beq_iff_eq.1 hp, (failed_read_leaves_iff hb .fuint32).2 id⟩

/-- The length of a string of two characters is there, and one of them. -/
theorem failed_read_moves : ∃ b b' : ByteArray, streamSys.Reachable b ∧ b.unread = [0, 2, 7] ∧
    ByteArray.Kind.read .stringF16 b = .error .outOfRange b' ∧ b'.position ≠ b.position := by
  obtain ⟨b, hb, hp⟩ := streamSys.reachable_of_exec (.new 2 fun _ _ => 0) ⟨2, _, by decide, rfl⟩
    [.call (.write [0, 2, 7]), .call (.setPosition 0)]
    (p := fun b => b.unread == [0, 2, 7] && match ByteArray.Kind.read .stringF16 b with
      | .ok _ _ => false
      | .error f b' => f == .outOfRange && b'.position != b.position) rfl
  cases hread : ByteArray.Kind.read .stringF16 b with
  | ok v b' =>
    rw [hread, Bool.and_false] at hp
    cases hp
  | error f b' =>
    simp only [hread, Bool.and_eq_true, beq_iff_eq, bne_iff_ne] at hp
    obtain ⟨hunread, rfl, hmoved⟩ := hp
    exact ⟨b, b', hb, hunread, hread, hmoved⟩

end Megalo
