import Mathlib

/-!
# Bytes and the numbers they stand for

Strings of bytes read as big-endian numbers. Strings of one length are ordered as the numbers are,
so that a comparison byte by byte and a comparison of words agree.
-/

namespace Bytes

/-- The number that a string of bytes stands for, the most significant byte first. -/
def number : List UInt8 → Nat
  | [] => 0
  | b :: rest => b.toNat * 256 ^ rest.length + number rest

/-- The last `size` bytes of a number, the most significant first. -/
def ofNumber : Nat → Nat → List UInt8
  | 0, _ => []
  | size + 1, n => UInt8.ofNat (n / 256 ^ size % 256) :: ofNumber size n

variable {size n m : Nat} {a b : List UInt8}

theorem length_ofNumber (size n : Nat) : (ofNumber size n).length = size := by
  induction size with
  | zero => rfl
  | succ size ih => rw [ofNumber, List.length_cons, ih]

theorem number_lt (a : List UInt8) : number a < 256 ^ a.length := by
  induction a with
  | nil => exact Nat.one_pos
  | cons b rest ih =>
      have hb : b.toNat + 1 ≤ 256 := b.toNat_lt
      have hscaled := Nat.mul_le_mul_right (256 ^ rest.length) hb
      rw [number, List.length_cons, Nat.pow_succ']
      rw [Nat.add_mul, Nat.one_mul] at hscaled
      omega

/-- Reading back what was written drops what did not fit. -/
theorem number_ofNumber (size n : Nat) : number (ofNumber size n) = n % 256 ^ size := by
  induction size with
  | zero => rw [ofNumber, number, Nat.pow_zero, Nat.mod_one]
  | succ size ih =>
      have hbyte : (UInt8.ofNat (n / 256 ^ size % 256)).toNat = n / 256 ^ size % 256 := by
        rw [UInt8.toNat_ofNat']
        exact Nat.mod_mod _ _
      rw [ofNumber, number, length_ofNumber, ih, hbyte, Nat.pow_succ, Nat.mod_mul,
        Nat.mul_comm (n / 256 ^ size % 256), Nat.add_comm]

/-- Numbers below the size are determined by their bytes. -/
theorem ofNumber_inj (hn : n < 256 ^ size) (hm : m < 256 ^ size)
    (h : ofNumber size n = ofNumber size m) : n = m := by
  have hnumber : number (ofNumber size n) = number (ofNumber size m) := by rw [h]
  rwa [number_ofNumber, number_ofNumber, Nat.mod_eq_of_lt hn, Nat.mod_eq_of_lt hm] at hnumber

/-- The order of strings of one length is that of their numbers. -/
theorem lt_iff_number_lt (hlength : a.length = b.length) : a < b ↔ number a < number b := by
  induction a generalizing b with
  | nil =>
      cases b with
      | nil => simp [number]
      | cons => cases hlength
  | cons x rest ih =>
      cases b with
      | nil => cases hlength
      | cons y rest' =>
          have hrest : rest.length = rest'.length := Nat.succ.inj hlength
          have hx := number_lt rest
          have hy := number_lt rest'
          rw [List.cons_lt_cons_iff, ih hrest, number, number, hrest]
          rw [hrest] at hx
          constructor
          · rintro (hlt | ⟨rfl, hlt⟩)
            -- a smaller first byte outweighs all that follows
            · have hle : x.toNat + 1 ≤ y.toNat := UInt8.lt_iff_toNat_lt.mp hlt
              have hscaled := Nat.mul_le_mul_right (256 ^ rest'.length) hle
              rw [Nat.add_mul, Nat.one_mul] at hscaled
              omega
            · omega
          · intro hlt
            rcases Nat.lt_trichotomy x.toNat y.toNat with hxy | hxy | hxy
            · exact .inl (UInt8.lt_iff_toNat_lt.mpr hxy)
            -- equal first bytes: the rest decides
            · have hsame := UInt8.toNat_inj.mp hxy
              subst hsame
              exact .inr ⟨rfl, by omega⟩
            · have hscaled := Nat.mul_le_mul_right (256 ^ rest'.length) hxy
              rw [Nat.succ_mul] at hscaled
              omega

theorem number_inj (hlength : a.length = b.length) (h : number a = number b) : a = b := by
  induction a generalizing b with
  | nil => exact (List.length_eq_zero_iff.mp hlength.symm).symm
  | cons x rest ih =>
      cases b with
      | nil => cases hlength
      | cons y rest' =>
          have hrest : rest.length = rest'.length := Nat.succ.inj hlength
          have hx := number_lt rest
          have hy := number_lt rest'
          rw [number, number, hrest] at h
          rw [hrest] at hx
          rcases Nat.lt_trichotomy x.toNat y.toNat with hxy | hxy | hxy
          · have hscaled := Nat.mul_le_mul_right (256 ^ rest'.length) hxy
            rw [Nat.succ_mul] at hscaled
            omega
          · have hsame := UInt8.toNat_inj.mp hxy
            subst hsame
            rw [ih hrest (by omega)]
          · have hscaled := Nat.mul_le_mul_right (256 ^ rest'.length) hxy
            rw [Nat.succ_mul] at hscaled
            omega

end Bytes
