import Mathlib.Tactic.Ring
import Mathlib.Tactic.Linarith

/-!
# Trades at a constant product

A pool of two things, with reserves of both. Of an input only `keep` out of `whole` parts count, and
what is paid for it is as much of the other thing as keeps the product of the reserves, rounded
down. The product then never falls, so that no trades take something of both things out of the pool.
-/

namespace ConstantProduct

/-- What a pool pays for `a`. -/
def output (keep whole a x y : Nat) : Nat := a * keep * y / (x * whole + a * keep)

/-- What a pool asks for `b`. -/
def input (keep whole b x y : Nat) : Nat := x * b * whole / ((y - b) * keep) + 1

variable {keep whole a a' b x y : Nat}

theorem output_mul_le : output keep whole a x y * (x * whole + a * keep) ≤ a * keep * y :=
  Nat.div_mul_le_self _ _

theorem output_le : output keep whole a x y ≤ y := by
  rcases Nat.eq_zero_or_pos (x * whole + a * keep) with hzero | hpos
  · simp [output, hzero]
  · apply Nat.le_of_mul_le_mul_right _ hpos
    apply output_mul_le.trans
    rw [Nat.mul_comm y]
    exact Nat.mul_le_mul_right y (Nat.le_add_left _ _)

/-- More is paid for more. -/
theorem output_mono (hwhole : 0 < whole) (hx : 0 < x) (hle : a ≤ a') :
    output keep whole a x y ≤ output keep whole a' x y := by
  obtain ⟨d, rfl⟩ := Nat.exists_eq_add_of_le hle
  have hpos : 0 < x * whole + (a + d) * keep :=
    Nat.add_pos_left (Nat.mul_pos hx hwhole) _
  show _ ≤ (a + d) * keep * y / (x * whole + (a + d) * keep)
  rw [Nat.le_div_iff_mul_le hpos]
  have hless : output keep whole a x y * (x * whole + a * keep) ≤ a * keep * y := output_mul_le
  have hmore : output keep whole a x y * (d * keep) ≤ y * (d * keep) :=
    Nat.mul_le_mul_right _ output_le
  calc output keep whole a x y * (x * whole + (a + d) * keep)
      = output keep whole a x y * (x * whole + a * keep) +
          output keep whole a x y * (d * keep) := by ring
    _ ≤ a * keep * y + y * (d * keep) := Nat.add_le_add hless hmore
    _ = (a + d) * keep * y := by ring

/-- What is paid is worth no more than the input at the price before the trade. -/
theorem output_mul_add_le (hwhole : 0 < whole) (hkeep : keep ≤ whole) :
    output keep whole a x y * (x + a) ≤ y * a := by
  obtain ⟨fee, rfl⟩ := Nat.exists_eq_add_of_le hkeep
  apply Nat.le_of_mul_le_mul_right _ hwhole
  have hcounted : output keep (keep + fee) a x y * (x * (keep + fee) + a * keep) ≤ a * keep * y :=
    output_mul_le
  have hrest : output keep (keep + fee) a x y * (a * fee) ≤ y * (a * fee) :=
    Nat.mul_le_mul_right _ output_le
  calc output keep (keep + fee) a x y * (x + a) * (keep + fee)
      = output keep (keep + fee) a x y * (x * (keep + fee) + a * keep) +
          output keep (keep + fee) a x y * (a * fee) := by ring
    _ ≤ a * keep * y + y * (a * fee) := Nat.add_le_add hcounted hrest
    _ = y * a * (keep + fee) := by ring

/-- The product of the reserves does not fall, whoever pays more or takes less than is due. -/
theorem product_le (hwhole : 0 < whole) (hkeep : keep ≤ whole)
    (hb : b ≤ output keep whole a x y) : x * y ≤ (x + a) * (y - b) := by
  have hby : b ≤ y := hb.trans output_le
  have hdue : b * (x + a) ≤ y * a :=
    (Nat.mul_le_mul_right _ hb).trans (output_mul_add_le hwhole hkeep)
  have hsplit : (x + a) * (y - b) + b * (x + a) = (x + a) * y := by
    rw [Nat.mul_comm b, ← Nat.mul_add, Nat.sub_add_cancel hby]
  have hwhole : (x + a) * y = x * y + y * a := by ring
  omega

/-- Whoever sells what it got, or less of it, back to the pool has not won anything. -/
theorem output_back_le (hwhole : 0 < whole) (hkeep : keep ≤ whole) (hy : 0 < y)
    (hb : b ≤ output keep whole a x y) :
    output keep whole b (y - b) (x + a) ≤ a := by
  have hthere : x * y ≤ (x + a) * (y - b) := product_le hwhole hkeep hb
  have hback : (y - b) * (x + a) ≤
      (y - b + b) * (x + a - output keep whole b (y - b) (x + a)) :=
    product_le hwhole hkeep le_rfl
  have hby : b ≤ y := hb.trans output_le
  rw [Nat.sub_add_cancel hby] at hback
  have hproduct : y * x ≤ y * (x + a - output keep whole b (y - b) (x + a)) := by
    calc y * x = x * y := Nat.mul_comm y x
      _ ≤ (x + a) * (y - b) := hthere
      _ = (y - b) * (x + a) := Nat.mul_comm _ _
      _ ≤ _ := hback
  have hx := Nat.le_of_mul_le_mul_left hproduct hy
  have hle : output keep whole b (y - b) (x + a) ≤ x + a := output_le
  omega

/-- What is asked for suffices. -/
theorem le_output_input (hkeep : 0 < keep) (hb : b < y) :
    b ≤ output keep whole (input keep whole b x y) x y := by
  have hdue : x * b * whole < input keep whole b x y * ((y - b) * keep) :=
    Nat.lt_mul_of_div_lt (Nat.lt_succ_self _) (Nat.mul_pos (Nat.sub_pos_of_lt hb) hkeep)
  have hpos : 0 < x * whole + input keep whole b x y * keep :=
    Nat.add_pos_right _ (Nat.mul_pos (Nat.succ_pos _) hkeep)
  show b ≤ input keep whole b x y * keep * y / (x * whole + input keep whole b x y * keep)
  rw [Nat.le_div_iff_mul_le hpos]
  obtain ⟨d, rfl⟩ := Nat.exists_eq_add_of_le hb.le
  rw [Nat.add_sub_cancel_left] at hdue
  calc b * (x * whole + input keep whole b x (b + d) * keep)
      = x * b * whole + b * (input keep whole b x (b + d) * keep) := by ring
    _ ≤ input keep whole b x (b + d) * (d * keep) +
          b * (input keep whole b x (b + d) * keep) := Nat.add_le_add_right hdue.le _
    _ = input keep whole b x (b + d) * keep * (b + d) := by ring

/-- What is asked for is the least that suffices, or one more. -/
theorem input_le (hb : b ≤ output keep whole a x y) :
    input keep whole b x y ≤ a + 1 := by
  have hby : b ≤ y := hb.trans output_le
  have hdue : b * (x * whole + a * keep) ≤ a * keep * y :=
    (Nat.mul_le_mul_right _ hb).trans output_mul_le
  obtain ⟨d, rfl⟩ := Nat.exists_eq_add_of_le hby
  show x * b * whole / ((b + d - b) * keep) + 1 ≤ a + 1
  apply Nat.succ_le_succ
  apply Nat.div_le_of_le_mul
  rw [Nat.add_sub_cancel_left]
  have hsplit : a * keep * (b + d) = b * (a * keep) + d * keep * a := by ring
  have hother : b * (x * whole + a * keep) = x * b * whole + b * (a * keep) := by ring
  omega

end ConstantProduct
