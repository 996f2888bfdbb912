import Mathlib

/-!
# Sums of floors

A total that is divided part by part loses less than one unit for each part. Two ways to cut
totals into parts are compared through what both say of the undivided totals.
-/

/-- `floors` is a sum of `n` quotients by `d`, each floored, of parts that make up `total`. -/
structure FloorSum (d n floors total : Nat) : Prop where
  le : floors * d ≤ total
  ge : total + n ≤ floors * d + n * d

namespace FloorSum

variable {d n m k e floors floors' total total' : Nat}

theorem zero (d : Nat) : FloorSum d 0 0 0 := ⟨by simp, by simp⟩

/-- One more part, floored. -/
theorem cons (hd : 0 < d) (part : Nat) (h : FloorSum d n floors total) :
    FloorSum d (n + 1) (part / d + floors) (part + total) := by
  have hsplit := Nat.div_add_mod' part d
  have hmod := Nat.mod_lt part hd
  have hle := h.le
  have hge := h.ge
  refine ⟨?_, ?_⟩
  · rw [Nat.add_mul]
    omega
  · rw [Nat.add_mul, Nat.add_mul, Nat.one_mul]
    omega

/-- Floors of parts are at most the floor of a whole that is at least as large. -/
theorem le_single (hsingle : FloorSum d 1 floors total)
    (h : FloorSum d n floors' total') (hle : total' ≤ total) : floors' ≤ floors := by
  by_contra hgt
  have hstep : (floors + 1) * d ≤ floors' * d := Nat.mul_le_mul_right d (Nat.lt_of_not_le hgt)
  have hparts := h.le
  have hwhole := hsingle.ge
  rw [Nat.add_mul] at hstep
  omega

/-- The floor of a whole is above the floors of `k + 1` parts by `k` at most, and by what the
whole is larger. -/
theorem single_le (hd : 0 < d) (hsingle : FloorSum d 1 floors total)
    (h : FloorSum d (k + 1) floors' total') (hle : total ≤ total' + e) :
    floors ≤ floors' + k + (e + d - 1) / d := by
  by_contra hgt
  have hceil : e ≤ (e + d - 1) / d * d := by
    have hsplit := Nat.div_add_mod' (e + d - 1) d
    have hmod := Nat.mod_lt (e + d - 1) hd
    omega
  have hstep : (floors' + k + (e + d - 1) / d + 1) * d ≤ floors * d :=
    Nat.mul_le_mul_right d (Nat.lt_of_not_le hgt)
  have hparts := h.ge
  have hwhole := hsingle.le
  rw [Nat.add_mul, Nat.one_mul] at hparts
  rw [Nat.add_mul, Nat.add_mul, Nat.add_mul, Nat.one_mul] at hstep
  omega

end FloorSum
