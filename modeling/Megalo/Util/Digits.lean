import Megalo.Util.Url

/-!
# Numbers as text

- `decimal` and `hex` are what `operator<<` writes for an unsigned number, with `std::dec` and with `std::hex`;
- `digitsValue` reads the digits of a base, and so gives the number back (`digitsValue_digits`).
-/

namespace Megalo

/-- The digits of a number. -/
def digits (base n : Nat) : List UInt8 := (Nat.toDigits base n).map fun c => c.toNat.toUInt8

/-- What `operator<<` writes for an unsigned number. -/
def decimal (n : Nat) : List UInt8 := (Nat.toDigits 10 n).map fun c => c.toNat.toUInt8

/-- What `operator<<` writes for it after `std::hex`. -/
def hex (n : Nat) : List UInt8 := (Nat.toDigits 16 n).map fun c => c.toNat.toUInt8

/-- The number that digits stand for. -/
def digitsValue (base : Nat) (s : List UInt8) : Nat := s.foldl (fun n c => base * n + (xdigitValue c).toNat) 0

/-- A digit. -/
def digitByte (d : Nat) : UInt8 := (Nat.digitChar d).toNat.toUInt8

theorem xdigitValue_digitByte {d : Nat} (h : d < 16) :
    isxdigit (digitByte d) = true ∧ (xdigitValue (digitByte d)).toNat = d := by
  have hall : ∀ d : Fin 16,
      isxdigit (digitByte d) = true ∧ (xdigitValue (digitByte d)).toNat = d := by decide
  exact hall ⟨d, h⟩

theorem digits_eq {base n : Nat} (hb : 1 < base) : digits base n =
    if n < base then [digitByte n] else digits base (n / base) ++ [digitByte (n % base)] := by
  rw [digits, Nat.toDigits_eq_if hb]
  split
  · rfl
  · rw [List.map_append]
    rfl

theorem mem_digits {base n : Nat} (hb : 1 < base) {c : UInt8} (h : c ∈ digits base n) :
    ∃ d < base, c = digitByte d := by
  induction n using Nat.strongRecOn with
  | ind n ih =>
    rw [digits_eq hb] at h
    split at h
    · exact ⟨n, by assumption, List.mem_singleton.mp h⟩
    · rename_i hn
      rcases List.mem_append.mp h with h | h
      · exact ih (n / base) (Nat.div_lt_self (by omega) hb) h
      · exact ⟨n % base, Nat.mod_lt n (by omega), List.mem_singleton.mp h⟩

/-- Digits are read back as the number that they are of. -/
theorem digitsValue_digits {base : Nat} (hb : 1 < base) (h16 : base ≤ 16) (n : Nat) :
    digitsValue base (digits base n) = n := by
  induction n using Nat.strongRecOn with
  | ind n ih =>
    rw [digits_eq hb]
    split
    · rename_i hn
      simp [digitsValue, (xdigitValue_digitByte (Nat.lt_of_lt_of_le hn h16)).2]
    · rename_i hn
      have hmod : n % base < 16 := Nat.lt_of_lt_of_le (Nat.mod_lt n (by omega)) h16
      have hdiv := ih (n / base) (Nat.div_lt_self (by omega) hb)
      rw [digitsValue] at hdiv ⊢
      rw [List.foldl_append, hdiv, List.foldl_cons, List.foldl_nil, (xdigitValue_digitByte hmod).2, Nat.div_add_mod]

theorem digits_ne_nil (base n : Nat) : digits base n ≠ [] := by
  rw [digits, Ne, List.map_eq_nil_iff]
  exact Nat.toDigits_ne_nil

theorem length_hex_le {n k : Nat} (hk : 0 < k) (h : n < 16 ^ k) : (hex n).length ≤ k := by
  rw [hex, List.length_map]
  exact (Nat.length_toDigits_le_iff (by decide) hk).mpr h

theorem isxdigit_of_mem_hex {n : Nat} {c : UInt8} (h : c ∈ hex n) : isxdigit c = true := by
  have hmem : c ∈ digits 16 n := h
  obtain ⟨d, hd, rfl⟩ := mem_digits (by decide) hmem
  exact (xdigitValue_digitByte hd).1

theorem isDigit_of_mem_decimal {n : Nat} {c : UInt8} (h : c ∈ decimal n) : 48 ≤ c ∧ c ≤ 57 := by
  have hall : ∀ d : Fin 10, 48 ≤ digitByte d ∧ digitByte d ≤ 57 := by decide
  have hmem : c ∈ digits 10 n := h
  obtain ⟨d, hd, rfl⟩ := mem_digits (by decide) hmem
  exact hall ⟨d, hd⟩

end Megalo
