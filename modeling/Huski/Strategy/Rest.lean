import Huski.Strategy.Model

/-!
# The rest of an addition

A strategy that adds sells so much of the one token that what it then has fits the pool's ratio, and
offers the router all of it. The amount that it computes is truncated towards the exact one, so what
is in excess is always the token that it sold: of the token that it bought nothing remains, and of
the other one what the truncations are worth at the pool's new price.
-/

open Solidity

namespace Huski.Strategy

open Pancake (Market Router Exchange)

/-! ## What the router leaves -/

section Left

variable {offeredA offeredB reserveA reserveB : Nat}

/-- Where the first token is in excess, only of it there is a rest. -/
theorem leftOf_first (hA : 0 < reserveA) (hB : 0 < reserveB)
    (hexcess : offeredB * reserveA ≤ offeredA * reserveB) :
    (Router.leftOf offeredA offeredB reserveA reserveB).2 = 0 ∧
    (Router.leftOf offeredA offeredB reserveA reserveB).1 * reserveB + offeredB * reserveA <
      offeredA * reserveB + reserveB := by
  unfold Router.leftOf
  split
  · -- the ratio asks for all of the second token, though not for all of the first one
    have hall : offeredB ≤ offeredA * reserveB / reserveA :=
      (Nat.le_div_iff_mul_le hA).mpr hexcess
    refine ⟨Nat.sub_eq_zero_of_le hall, ?_⟩
    rw [Nat.zero_mul, Nat.zero_add]
    omega
  · have hfloor := Nat.div_mul_le_self (offeredB * reserveA) reserveB
    have hceil := Nat.lt_mul_div_succ (offeredB * reserveA) hB
    generalize offeredB * reserveA / reserveB = used at *
    have hused : used ≤ offeredA :=
      Nat.le_of_mul_le_mul_right (Nat.le_trans hfloor hexcess) hB
    refine ⟨rfl, ?_⟩
    obtain ⟨rest, rfl⟩ := Nat.exists_eq_add_of_le hused
    rw [Nat.add_sub_cancel_left]
    nlinarith

/-- Where the second token is in excess, only of it. -/
theorem leftOf_second (hA : 0 < reserveA) (hexcess : offeredA * reserveB ≤ offeredB * reserveA) :
    (Router.leftOf offeredA offeredB reserveA reserveB).1 = 0 ∧
    (Router.leftOf offeredA offeredB reserveA reserveB).2 * reserveA + offeredA * reserveB <
      offeredB * reserveA + reserveA := by
  have hfloor := Nat.div_mul_le_self (offeredA * reserveB) reserveA
  have hceil := Nat.lt_mul_div_succ (offeredA * reserveB) hA
  have hused : offeredA * reserveB / reserveA ≤ offeredB := by
    rw [← Nat.mul_div_cancel offeredB hA]
    exact Nat.div_le_div_right hexcess
  unfold Router.leftOf
  rw [if_pos hused]
  generalize offeredA * reserveB / reserveA = used at *
  refine ⟨rfl, ?_⟩
  obtain ⟨rest, rfl⟩ := Nat.exists_eq_add_of_le hused
  rw [Nat.add_sub_cancel_left]
  nlinarith

end Left

/-! ## What is offered -/

section Offers

variable (amtA amtB resA resB : Nat)

/-- What the pool pays for the amount that the code sells. -/
def bought : Nat := Exchange.sale (swapAmt amtA amtB resA resB) resA resB

variable {amtA amtB resA resB}

theorem sale_lt_reserve {sold : Nat} (hA : 0 < resA) (hB : 0 < resB) :
    Exchange.sale sold resA resB < resB := by
  unfold Exchange.sale
  refine Nat.div_lt_of_lt_mul ?_
  exact Nat.mul_lt_mul_of_pos_right (by omega) hB

/-- After the sale of the computed amount the sold token is in excess still, by less than the
truncations make. -/
theorem offer_near (hA : 0 < resA) (hB : 0 < resB) (hle : amtA * resB ≥ amtB * resA) :
    (amtB + bought amtA amtB resA resB) * (resA + swapAmt amtA amtB resA resB) ≤
      (amtA - swapAmt amtA amtB resA resB) * (resB - bought amtA amtB resA resB) ∧
    (amtA - swapAmt amtA amtB resA resB) * (resB - bought amtA amtB resA resB) <
      (amtB + bought amtA amtB resA resB) * (resA + swapAmt amtA amtB resA resB) +
        3 * (amtB + resB) + (amtA + resA) := by
  have hsold := (swapAmt_spec hA hB hle).1
  have hbought : bought amtA amtB resA resB < resB := sale_lt_reserve hA hB
  obtain ⟨hlow, hhigh⟩ := @swapAmt_bounds amtA amtB resA resB
  obtain ⟨excess, hexcess⟩ := Nat.exists_eq_add_of_le hle
  -- the truncated constant term against the quotient that it is made of
  have hconst : constantTerm amtA amtB resA resB * (amtB + resB) ≤ excess * 10000 * resA ∧
      excess * 10000 * resA < (constantTerm amtA amtB resA resB + resA) * (amtB + resB) := by
    unfold constantTerm
    rw [hexcess, Nat.add_sub_cancel_left]
    have hfloor := Nat.div_mul_le_self (excess * 10000) (amtB + resB)
    have hceil := Nat.lt_mul_div_succ (excess * 10000) (show 0 < amtB + resB by omega)
    generalize excess * 10000 / (amtB + resB) = q at *
    constructor
    · calc q * resA * (amtB + resB) = q * (amtB + resB) * resA := by ring
        _ ≤ excess * 10000 * resA := Nat.mul_le_mul_right _ hfloor
    · calc excess * 10000 * resA < (amtB + resB) * (q + 1) * resA :=
            Nat.mul_lt_mul_of_pos_right hceil hA
        _ = (q * resA + resA) * (amtB + resB) := by ring
  unfold bought Exchange.sale at *
  generalize swapAmt amtA amtB resA resB = s at *
  generalize constantTerm amtA amtB resA resB = c at *
  have hden : 0 < resA * 10000 + s * 9975 := by omega
  have hfloor := Nat.div_mul_le_self (s * 9975 * resB) (resA * 10000 + s * 9975)
  have hceil := Nat.lt_mul_div_succ (s * 9975 * resB) hden
  generalize s * 9975 * resB / (resA * 10000 + s * 9975) = out at *
  obtain ⟨a, rfl⟩ := Nat.exists_eq_add_of_le hsold
  obtain ⟨b, rfl⟩ := Nat.exists_eq_add_of_le hbought.le
  rw [Nat.add_sub_cancel_left, Nat.add_sub_cancel_left]
  -- times the denominator of the sale, where both sides are polynomials in what was truncated
  constructor
  · refine Nat.le_of_mul_le_mul_right (c := resA * 10000 + s * 9975) ?_ hden
    nlinarith
  · refine Nat.lt_of_mul_lt_mul_right (a := resA * 10000 + s * 9975) ?_
    nlinarith

end Offers

/-! ## What is kept -/

/-- What remains of `amtA` and `amtB` when so much of the one is sold, and the rest and what the
pool paid are offered at the reserves after the sale. -/
def keeps (sold : Nat) (isReversed : Bool) (amtA amtB resA resB : Nat) : Nat × Nat :=
  if isReversed then
    let out := Exchange.sale sold resB resA
    Router.leftOf (amtA + out) (amtB - sold) (resA - out) (resB + sold)
  else
    let out := Exchange.sale sold resA resB
    Router.leftOf (amtA - sold) (amtB + out) (resA + sold) (resB - out)

/-- The rest that truncations make: nothing of the token that was bought; and of the one that was
sold a rest that, times the pool's reserve of the other after the sale, is below that reserve and
what strategy and pool hold together, of the sold token once and of the bought one three times. -/
structure Rounding (sold amtSold amtBought resSold resBought leftSold leftBought : Nat) : Prop where
  bought : leftBought = 0
  sold : leftSold * (resBought - Exchange.sale sold resSold resBought) <
    3 * (amtBought + resBought) + (amtSold + resSold) +
      (resBought - Exchange.sale sold resSold resBought)

variable {amtA amtB resA resB : Nat}

theorem keeps_rounding (hA : 0 < resA) (hB : 0 < resB) (hle : amtA * resB ≥ amtB * resA) :
    Rounding (swapAmt amtA amtB resA resB) amtA amtB resA resB
      (keeps (swapAmt amtA amtB resA resB) false amtA amtB resA resB).1
      (keeps (swapAmt amtA amtB resA resB) false amtA amtB resA resB).2 := by
  obtain ⟨hexcess, hnear⟩ := offer_near hA hB hle
  have hlt : bought amtA amtB resA resB < resB := sale_lt_reserve hA hB
  obtain ⟨hbought, hsold⟩ := leftOf_first (show 0 < resA + swapAmt amtA amtB resA resB by omega)
    (Nat.sub_pos_of_lt hlt) hexcess
  refine ⟨hbought, ?_⟩
  show _ * (resB - bought amtA amtB resA resB) < _ + _ + (resB - bought amtA amtB resA resB)
  exact Nat.lt_of_add_lt_add_right (Nat.lt_of_lt_of_le hsold (by omega))

/-- The same with the sides reversed. -/
theorem keeps_rounding_reversed (hA : 0 < resA) (hB : 0 < resB)
    (hle : amtB * resA ≥ amtA * resB) :
    Rounding (swapAmt amtB amtA resB resA) amtB amtA resB resA
      (keeps (swapAmt amtB amtA resB resA) true amtA amtB resA resB).2
      (keeps (swapAmt amtB amtA resB resA) true amtA amtB resA resB).1 := by
  obtain ⟨hexcess, hnear⟩ := offer_near hB hA hle
  have hlt : bought amtB amtA resB resA < resA := sale_lt_reserve hB hA
  obtain ⟨hbought, hsold⟩ := leftOf_second (Nat.sub_pos_of_lt hlt) hexcess
  refine ⟨hbought, ?_⟩
  show _ * (resA - bought amtB amtA resB resA) < _ + _ + (resA - bought amtB amtA resB resA)
  exact Nat.lt_of_add_lt_add_right (Nat.lt_of_lt_of_le hsold (by omega))

end Huski.Strategy
