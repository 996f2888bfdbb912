import Huski.Lib.Checked

/-!
# The interest models

`TripleSlopeModel.sol` and its siblings: the same function of the utilization with other constants.
The rate climbs to a first maximum, stays at a second one, and climbs to a third. The ratio, the
slopes and the division by the seconds of a year all round down, and each step keeps the order.
-/

open Solidity

namespace Huski.InterestModel

/-- The ceilings of the utilization and the maxima of the yearly rate, in order and small enough
for the products of the model. -/
structure Slopes where
  ceilSlope1 : Nat
  ceilSlope2 : Nat
  ceilSlope3 : Nat
  maxInterestSlope1 : Nat
  maxInterestSlope2 : Nat
  maxInterestSlope3 : Nat
  ceil1_pos : 0 < ceilSlope1
  ceil1_le : ceilSlope1 ≤ ceilSlope2
  ceil2_lt : ceilSlope2 < ceilSlope3
  max1_le : maxInterestSlope1 ≤ maxInterestSlope2
  max2_le : maxInterestSlope2 ≤ maxInterestSlope3
  fits : ceilSlope3 * maxInterestSlope3 < wordSize

/-- `365 days` -/
def year : Nat := 31536000

/-- `100e18`, a full utilization -/
def full : Nat := 10 ^ 20

/-- The utilization of a market in parts of `100e18`. -/
def utilizationOf (debt floating : Nat) : Nat := debt * full / (debt + floating)

namespace Slopes

variable (p : Slopes)

/-- The rate per second of a utilization, by the three slopes. -/
def getInterestRate (debt floating : Nat) : Result Nat :=
  if debt = 0 ∧ floating = 0 then .ok 0
  else do
    let total ← SafeMath.add debt floating
    let product ← SafeMath.mul debt full
    let utilization ← SafeMath.div product total
    if utilization < p.ceilSlope1 then do
      let product ← SafeMath.mul utilization p.maxInterestSlope1
      let rate ← SafeMath.div product p.ceilSlope1
      return rate / year
    else if utilization < p.ceilSlope2 then
      return p.maxInterestSlope2 / year
    else if utilization < p.ceilSlope3 then do
      let above ← SafeMath.sub utilization p.ceilSlope2
      let rise ← SafeMath.sub p.maxInterestSlope3 p.maxInterestSlope2
      let product ← SafeMath.mul above rise
      let width ← SafeMath.sub p.ceilSlope3 p.ceilSlope2
      let extra ← SafeMath.div product width
      return (p.maxInterestSlope2 + extra) / year
    else
      return p.maxInterestSlope3 / year

/-- The yearly rate at a utilization. -/
def rateAt (utilization : Nat) : Nat :=
  if utilization < p.ceilSlope1 then utilization * p.maxInterestSlope1 / p.ceilSlope1
  else if utilization < p.ceilSlope2 then p.maxInterestSlope2
  else if utilization < p.ceilSlope3 then
    p.maxInterestSlope2 + (utilization - p.ceilSlope2) *
      (p.maxInterestSlope3 - p.maxInterestSlope2) / (p.ceilSlope3 - p.ceilSlope2)
  else p.maxInterestSlope3

end Slopes

/-- `TripleSlopeModel` -/
def tripleSlopeModel : Slopes where
  ceilSlope1 := 50 * 10 ^ 18
  ceilSlope2 := 90 * 10 ^ 18
  ceilSlope3 := 100 * 10 ^ 18
  maxInterestSlope1 := 20 * 10 ^ 16
  maxInterestSlope2 := 20 * 10 ^ 16
  maxInterestSlope3 := 150 * 10 ^ 16
  ceil1_pos := by norm_num
  ceil1_le := by norm_num
  ceil2_lt := by norm_num
  max1_le := by norm_num
  max2_le := by norm_num
  fits := by norm_num [wordSize]

/-- `HighInterestTripleSlopeModel` -/
def highInterestTripleSlopeModel : Slopes where
  ceilSlope1 := 40 * 10 ^ 18
  ceilSlope2 := 95 * 10 ^ 18
  ceilSlope3 := 100 * 10 ^ 18
  maxInterestSlope1 := 4 * 10 ^ 16
  maxInterestSlope2 := 8 * 10 ^ 16
  maxInterestSlope3 := 100 * 10 ^ 16
  ceil1_pos := by norm_num
  ceil1_le := by norm_num
  ceil2_lt := by norm_num
  max1_le := by norm_num
  max2_le := by norm_num
  fits := by norm_num [wordSize]

/-- `LowInterestTripleSlopeModel` -/
def lowInterestTripleSlopeModel : Slopes where
  ceilSlope1 := 40 * 10 ^ 18
  ceilSlope2 := 95 * 10 ^ 18
  ceilSlope3 := 100 * 10 ^ 18
  maxInterestSlope1 := 3 * 10 ^ 16
  maxInterestSlope2 := 6 * 10 ^ 16
  maxInterestSlope3 := 100 * 10 ^ 16
  ceil1_pos := by norm_num
  ceil1_le := by norm_num
  ceil2_lt := by norm_num
  max1_le := by norm_num
  max2_le := by norm_num
  fits := by norm_num [wordSize]

/-- The models there are. -/
inductive Model
  | tripleSlope
  | highInterest
  | lowInterest

/-- The constants of each contract. -/
def Model.slopes : Model → Slopes
  | .tripleSlope => tripleSlopeModel
  | .highInterest => highInterestTripleSlopeModel
  | .lowInterest => lowInterestTripleSlopeModel

/-! ## The order of the utilizations -/

/-- More debt against less floating is a utilization no lower. -/
theorem utilizationOf_mono {debt debt' floating floating' : Nat} (hdebt : debt ≤ debt')
    (hfloating : floating' ≤ floating) :
    utilizationOf debt floating ≤ utilizationOf debt' floating' := by
  unfold utilizationOf
  rcases Nat.eq_zero_or_pos debt with rfl | hpos
  · simp
  · rw [Nat.le_div_iff_mul_le (by omega)]
    generalize hq : debt * full / (debt + floating) = q
    have hfloor : q * (debt + floating) ≤ debt * full := hq ▸ Nat.div_mul_le_self _ _
    refine Nat.le_of_mul_le_mul_left ?_ hpos
    -- both fractions brought to the denominator `debt * (debt' + floating')`
    have hscaled : debt' * (q * (debt + floating)) ≤ debt' * (debt * full) :=
      Nat.mul_le_mul_left _ hfloor
    have hcross : debt * floating' ≤ debt' * floating := Nat.mul_le_mul hdebt hfloating
    calc debt * (q * (debt' + floating'))
        = q * (debt * debt') + q * (debt * floating') := by ring
      _ ≤ q * (debt * debt') + q * (debt' * floating) :=
          Nat.add_le_add_left (Nat.mul_le_mul_left _ hcross) _
      _ = debt' * (q * (debt + floating)) := by ring
      _ ≤ debt' * (debt * full) := hscaled
      _ = debt * (debt' * full) := by ring

namespace Slopes

variable {p : Slopes} {u u' : Nat}

/-! ## The rate at a utilization -/

theorem rise_le (hu : u ≤ p.ceilSlope3) : (u - p.ceilSlope2) *
    (p.maxInterestSlope3 - p.maxInterestSlope2) / (p.ceilSlope3 - p.ceilSlope2) ≤
    p.maxInterestSlope3 - p.maxInterestSlope2 := by
  refine Nat.div_le_of_le_mul (Nat.mul_le_mul_right _ ?_)
  omega

theorem rateAt_le (p : Slopes) (u : Nat) : p.rateAt u ≤ p.maxInterestSlope3 := by
  have h12 := p.max1_le
  have h23 := p.max2_le
  unfold rateAt
  split
  · rename_i hlow
    have hle : u * p.maxInterestSlope1 / p.ceilSlope1 ≤ p.maxInterestSlope1 :=
      Nat.div_le_of_le_mul (Nat.mul_le_mul_right _ hlow.le)
    omega
  · split
    · exact h23
    · split
      · rename_i hhigh
        have hle := rise_le (p := p) (u := u) (by omega)
        omega
      · exact Nat.le_refl _

/-- Inside a segment the floors keep the order, and each segment ends below the next. -/
theorem rateAt_mono (h : u ≤ u') : p.rateAt u ≤ p.rateAt u' := by
  have h12 := p.max1_le
  have hmax := rateAt_le p u
  by_cases hlow' : u' < p.ceilSlope1
  · have hlow : u < p.ceilSlope1 := Nat.lt_of_le_of_lt h hlow'
    unfold rateAt
    rw [if_pos hlow, if_pos hlow']
    exact Nat.div_le_div_right (Nat.mul_le_mul_right _ h)
  · by_cases hmid : u < p.ceilSlope2
    · -- below the second ceiling the rate is at most the second maximum
      have hle : p.rateAt u ≤ p.maxInterestSlope2 := by
        unfold rateAt
        split
        · rename_i hlow
          have hle : u * p.maxInterestSlope1 / p.ceilSlope1 ≤ p.maxInterestSlope1 :=
            Nat.div_le_of_le_mul (Nat.mul_le_mul_right _ hlow.le)
          omega
        · exact Nat.le_refl _
      have hge : p.maxInterestSlope2 ≤ p.rateAt u' := by
        unfold rateAt
        rw [if_neg hlow']
        split
        · exact Nat.le_refl _
        · split
          · exact Nat.le_add_right _ _
          · exact p.max2_le
      exact Nat.le_trans hle hge
    · by_cases hhigh' : u' < p.ceilSlope3
      · have hhigh : u < p.ceilSlope3 := Nat.lt_of_le_of_lt h hhigh'
        have hlow : ¬u < p.ceilSlope1 := by
          have := p.ceil1_le
          omega
        have hmid' : ¬u' < p.ceilSlope2 := by omega
        unfold rateAt
        rw [if_neg hlow, if_neg hmid, if_pos hhigh, if_neg hlow', if_neg hmid', if_pos hhigh']
        refine Nat.add_le_add_left (Nat.div_le_div_right (Nat.mul_le_mul_right _ ?_)) _
        omega
      · have htop : p.rateAt u' = p.maxInterestSlope3 := by
          have := p.ceil2_lt
          unfold rateAt
          rw [if_neg hlow', if_neg (by omega), if_neg hhigh']
        rw [htop]
        exact hmax

/-! ## The rate of a market -/

/-- The products of a slope stay below the word. -/
theorem slope_lt {a b : Nat} (ha : a ≤ p.ceilSlope3) (hb : b ≤ p.maxInterestSlope3) :
    a * b < wordSize :=
  Nat.lt_of_le_of_lt (Nat.mul_le_mul ha hb) p.fits

/-- Without overflow of the two sums it starts with, the model returns a second's part of the rate
at the utilization. -/
theorem getInterestRate_eq {debt floating : Nat} (hdebt : debt * full < wordSize)
    (htotal : debt + floating < wordSize) :
    p.getInterestRate debt floating = .ok (p.rateAt (utilizationOf debt floating) / year) := by
  unfold getInterestRate
  split
  · rename_i hnone
    rcases hnone with ⟨rfl, rfl⟩
    -- an empty vault has no utilisation, and the rate of zero
    have hpos := p.ceil1_pos
    simp [utilizationOf, rateAt, hpos]
  · rename_i hsome
    have hpos : debt + floating ≠ 0 := fun h => hsome (Nat.add_eq_zero_iff.mp h)
    refine bind_eq_ok.mpr ⟨_, SafeMath.add_eq_ok.mpr ⟨htotal, rfl⟩, ?_⟩
    refine bind_eq_ok.mpr ⟨_, SafeMath.mul_eq_ok.mpr ⟨hdebt, rfl⟩, ?_⟩
    refine bind_eq_ok.mpr ⟨utilizationOf debt floating, SafeMath.div_eq_ok.mpr ⟨hpos, rfl⟩, ?_⟩
    clear hdebt htotal hpos hsome
    generalize utilizationOf debt floating = u
    have h12 := p.max1_le
    have h23 := p.max2_le
    have hceil := p.ceil1_le
    have hceil' := p.ceil2_lt
    unfold rateAt
    -- the four pieces of the curve, none of which overflows
    by_cases hlow : u < p.ceilSlope1
    · have hmul := slope_lt (p := p) (a := u) (b := p.maxInterestSlope1) (by omega) (by omega)
      rw [if_pos hlow, if_pos hlow]
      refine bind_eq_ok.mpr ⟨_, SafeMath.mul_eq_ok.mpr ⟨hmul, rfl⟩, ?_⟩
      refine bind_eq_ok.mpr ⟨_, SafeMath.div_eq_ok.mpr ⟨p.ceil1_pos.ne', rfl⟩, ?_⟩
      exact pure_eq_ok.mpr rfl
    · rw [if_neg hlow, if_neg hlow]
      by_cases hmid : u < p.ceilSlope2
      · rw [if_pos hmid, if_pos hmid]
        exact pure_eq_ok.mpr rfl
      · rw [if_neg hmid, if_neg hmid]
        by_cases hhigh : u < p.ceilSlope3
        · have hmul := slope_lt (p := p) (a := u - p.ceilSlope2)
            (b := p.maxInterestSlope3 - p.maxInterestSlope2) (by omega) (by omega)
          have hwidth : p.ceilSlope3 - p.ceilSlope2 ≠ 0 := by omega
          rw [if_pos hhigh, if_pos hhigh]
          refine bind_eq_ok.mpr ⟨_, SafeMath.sub_eq_ok.mpr ⟨not_lt.mp hmid, rfl⟩, ?_⟩
          refine bind_eq_ok.mpr ⟨_, SafeMath.sub_eq_ok.mpr ⟨h23, rfl⟩, ?_⟩
          refine bind_eq_ok.mpr ⟨_, SafeMath.mul_eq_ok.mpr ⟨hmul, rfl⟩, ?_⟩
          refine bind_eq_ok.mpr ⟨_, SafeMath.sub_eq_ok.mpr ⟨hceil'.le, rfl⟩, ?_⟩
          refine bind_eq_ok.mpr ⟨_, SafeMath.div_eq_ok.mpr ⟨hwidth, rfl⟩, ?_⟩
          exact pure_eq_ok.mpr rfl
        · rw [if_neg hhigh, if_neg hhigh]
          exact pure_eq_ok.mpr rfl

end Slopes

/-- Each model returns a rate, of at most a second's part of its last maximum, and more debt
against less floating never lowers it. -/
theorem getInterestRate_mono (model : Model) {debt debt' floating floating' : Nat}
    (hdebt : debt * full < wordSize) (htotal : debt + floating < wordSize)
    (hdebt' : debt' * full < wordSize) (htotal' : debt' + floating' < wordSize)
    (hmore : debt ≤ debt') (hless : floating' ≤ floating) :
    ∃ rate rate', model.slopes.getInterestRate debt floating = .ok rate ∧
      model.slopes.getInterestRate debt' floating' = .ok rate' ∧
      rate ≤ rate' ∧ rate' ≤ model.slopes.maxInterestSlope3 / year := by
  refine ⟨_, _, Slopes.getInterestRate_eq hdebt htotal, Slopes.getInterestRate_eq hdebt' htotal',
    Nat.div_le_div_right ?_, Nat.div_le_div_right (Slopes.rateAt_le _ _)⟩
  exact Slopes.rateAt_mono (utilizationOf_mono hmore hless)

/-- Across the first ceiling of the first model. -/
theorem getInterestRate_mono_thirty : ∃ rate rate',
    tripleSlopeModel.getInterestRate 30 70 = .ok rate ∧
      tripleSlopeModel.getInterestRate 95 5 = .ok rate' ∧ rate ≤ rate' ∧
      rate' ≤ tripleSlopeModel.maxInterestSlope3 / year :=
  getInterestRate_mono .tripleSlope (by norm_num [wordSize, full]) (by norm_num [wordSize])
    (by norm_num [wordSize, full]) (by norm_num [wordSize]) (by norm_num) (by norm_num)

end Huski.InterestModel
