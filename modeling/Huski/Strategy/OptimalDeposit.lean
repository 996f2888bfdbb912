import Huski.Utils.HuskyMath

/-!
# The optimal deposit

The amount that the strategies which add liquidity sell first: `optimalDeposit` of
`PancakeswapV2AddTwosidesOptimal.sol` and the closed form in `PancakeswapV2AddBaseTokenOnly.sol`.
The exact amount is the root of a quadratic; the code truncates a quotient under the square root,
the root, and the last division, and is less than two units below.
-/

open Solidity

namespace Huski.Strategy

/-- `_optimalDepositA` -/
def _optimalDepositA (amtA amtB resA resB : Nat) : Result Nat := do
  let left ← SafeMath.mul amtA resB
  let right ← SafeMath.mul amtB resA
  require (left ≥ right) "Reversed"
  let a := 9975
  let b ← SafeMath.mul 19975 resA
  let _c ← SafeMath.sub left right
  let scaled ← SafeMath.mul _c 10000
  let total ← SafeMath.add amtB resB
  let quotient ← SafeMath.div scaled total
  let c ← SafeMath.mul quotient resA
  let ac ← SafeMath.mul a c
  let d ← SafeMath.mul ac 4
  let square ← SafeMath.mul b b
  let discriminant ← SafeMath.add square d
  let numerator ← SafeMath.sub (HuskyMath.sqrt discriminant) b
  let denominator ← SafeMath.mul a 2
  SafeMath.div numerator denominator

/-- The amount to swap, and whether it is of token B. -/
def optimalDeposit (amtA amtB resA resB : Nat) : Result (Nat × Bool) := do
  let left ← SafeMath.mul amtA resB
  let right ← SafeMath.mul amtB resA
  if left ≥ right then do
    let swapAmt ← _optimalDepositA amtA amtB resA resB
    return (swapAmt, false)
  else do
    let swapAmt ← _optimalDepositA amtB amtA resB resA
    return (swapAmt, true)

/-- `aIn` of `PancakeswapV2AddBaseTokenOnly` -/
def aIn (balance rIn : Nat) : Result Nat := do
  let scaledBalance ← SafeMath.mul balance 399000000
  let scaledReserve ← SafeMath.mul rIn 399000625
  let total ← SafeMath.add scaledBalance scaledReserve
  let product ← SafeMath.mul rIn total
  let offset ← SafeMath.mul rIn 19975
  let numerator ← SafeMath.sub (HuskyMath.sqrt product) offset
  return numerator / 19950

/-! ## The exact amount -/

section Exact

variable (amtA amtB resA resB s : ℝ)

/-- What the pool pays for `s`, with its fee of 0.25 % and without rounding. -/
noncomputable def paid : ℝ := 9975 * s * resB / (10000 * resA + 9975 * s)

/-- After selling `s` of token A, what remains is in the ratio of the new reserves. -/
def Balanced : Prop :=
  0 ≤ s ∧ (amtA - s) * (resB - paid resA resB s) = (amtB + paid resA resB s) * (resA + s)

/-- The left side of the quadratic equation for it. -/
def quadratic : ℝ := 9975 * s ^ 2 + 19975 * resA * s

/-- The right side. -/
noncomputable def target : ℝ := 10000 * (amtA * resB - amtB * resA) / (amtB + resB) * resA

variable {amtA amtB resA resB s}

theorem balanced_iff (hA : 0 < resA) (hB : 0 < amtB + resB) (hs : 0 ≤ s) :
    Balanced amtA amtB resA resB s ↔ quadratic resA s = target amtA amtB resA resB := by
  -- both sides over the common denominator, which is positive
  have hden : 0 < 10000 * resA + 9975 * s := by positivity
  have hleft : (amtA - s) * (resB - paid resA resB s) * (10000 * resA + 9975 * s) =
      (amtA - s) * (10000 * resA * resB) := by
    unfold paid
    field_simp
    ring
  have hright : (amtB + paid resA resB s) * (resA + s) * (10000 * resA + 9975 * s) =
      (amtB * (10000 * resA + 9975 * s) + 9975 * s * resB) * (resA + s) := by
    unfold paid
    field_simp
  constructor
  · rintro ⟨_, heq⟩
    have hcross := congrArg (· * (10000 * resA + 9975 * s)) heq
    simp only [hleft, hright] at hcross
    unfold quadratic target
    field_simp
    linear_combination -hcross
  · intro heq
    refine ⟨hs, mul_right_cancel₀ hden.ne' ?_⟩
    rw [hleft, hright]
    unfold quadratic target at heq
    field_simp at heq
    linear_combination -heq

/-- The quadratic increases. -/
theorem quadratic_lt (hA : 0 < resA) {t : ℝ} (hs : 0 ≤ s) (hlt : s < t) :
    quadratic resA s < quadratic resA t := by
  unfold quadratic
  have hlinear : 19975 * resA * s < 19975 * resA * t := by gcongr
  have hsquare : 9975 * s ^ 2 ≤ 9975 * t ^ 2 := by gcongr
  linarith

theorem quadratic_le (hA : 0 < resA) {t : ℝ} (hs : 0 ≤ s) (hle : s ≤ t) :
    quadratic resA s ≤ quadratic resA t := by
  rcases hle.eq_or_lt with rfl | hlt
  · exact le_refl _
  · exact (quadratic_lt hA hs hlt).le

theorem le_of_quadratic_le (hA : 0 < resA) {t : ℝ} (ht : 0 ≤ t)
    (h : quadratic resA s ≤ quadratic resA t) : s ≤ t := by
  by_contra hlt
  exact absurd h (not_le.mpr (quadratic_lt hA ht (not_le.mp hlt)))

/-- Every non-negative number is reached. -/
theorem exists_quadratic_eq (hA : 0 < resA) {c : ℝ} (hc : 0 ≤ c) :
    ∃ t, 0 ≤ t ∧ quadratic resA t = c := by
  have hb : 0 ≤ 19975 * resA := by positivity
  have hsqrt : 19975 * resA ≤ √((19975 * resA) ^ 2 + 4 * 9975 * c) := by
    refine Real.le_sqrt_of_sq_le ?_
    linarith [mul_nonneg (by norm_num : (0 : ℝ) ≤ 4 * 9975) hc]
  have hsq := Real.sq_sqrt (show 0 ≤ (19975 * resA) ^ 2 + 4 * 9975 * c by positivity)
  refine ⟨(√((19975 * resA) ^ 2 + 4 * 9975 * c) - 19975 * resA) / (2 * 9975), ?_, ?_⟩
  · exact div_nonneg (sub_nonneg.mpr hsqrt) (by norm_num)
  · unfold quadratic
    linear_combination hsq / (4 * 9975)

end Exact

/-! ## What the code computes -/

section Code

variable (amtA amtB resA resB : Nat)

/-- `c`, with its truncated quotient. -/
def constantTerm : Nat := (amtA * resB - amtB * resA) * 10000 / (amtB + resB) * resA

def discriminant : Nat :=
  19975 * resA * (19975 * resA) + 9975 * constantTerm amtA amtB resA resB * 4

/-- The amount of token A to sell. -/
def swapAmt : Nat := (Nat.sqrt (discriminant amtA amtB resA resB) - 19975 * resA) / 19950

/-- No product of `_optimalDepositA` exceeds 256 bits. -/
structure ProductsFit : Prop where
  left : amtA * resB < wordSize
  right : amtB * resA < wordSize
  linear : 19975 * resA < wordSize
  scaled : (amtA * resB - amtB * resA) * 10000 < wordSize
  constant : constantTerm amtA amtB resA resB < wordSize
  scaledOnce : 9975 * constantTerm amtA amtB resA resB < wordSize
  scaledTwice : 9975 * constantTerm amtA amtB resA resB * 4 < wordSize
  square : 19975 * resA * (19975 * resA) < wordSize

/-- Nor does a sum of it. -/
structure SumsFit : Prop where
  total : amtB + resB < wordSize
  discriminant : discriminant amtA amtB resA resB < wordSize

/-- Of the token that `optimalDeposit` sells: the amounts and reserves as `_optimalDepositA` gets
them. -/
def OfSold {α : Sort*} (P : (amtA amtB resA resB : Nat) → α) : α :=
  if amtA * resB ≥ amtB * resA then P amtA amtB resA resB else P amtB amtA resB resA

variable {amtA amtB resA resB}

theorem linear_le_sqrt : 19975 * resA ≤ Nat.sqrt (discriminant amtA amtB resA resB) :=
  Nat.le_sqrt.mpr (Nat.le_add_right _ _)

/-- Nothing underflows, and nothing is divided by zero. -/
theorem _optimalDepositA_eq (hB : 0 < resB) (hle : amtA * resB ≥ amtB * resA)
    (hproducts : ProductsFit amtA amtB resA resB) (hsums : SumsFit amtA amtB resA resB) :
    _optimalDepositA amtA amtB resA resB = .ok (swapAmt amtA amtB resA resB) := by
  have htotal : amtB + resB ≠ 0 := by omega
  refine bind_eq_ok.mpr ⟨_, SafeMath.mul_eq_ok.mpr ⟨hproducts.left, rfl⟩, ?_⟩
  refine bind_eq_ok.mpr ⟨_, SafeMath.mul_eq_ok.mpr ⟨hproducts.right, rfl⟩, ?_⟩
  refine bind_eq_ok.mpr ⟨(), require_eq_ok.mpr hle, ?_⟩
  refine bind_eq_ok.mpr ⟨_, SafeMath.mul_eq_ok.mpr ⟨hproducts.linear, rfl⟩, ?_⟩
  refine bind_eq_ok.mpr ⟨_, SafeMath.sub_eq_ok.mpr ⟨hle, rfl⟩, ?_⟩
  refine bind_eq_ok.mpr ⟨_, SafeMath.mul_eq_ok.mpr ⟨hproducts.scaled, rfl⟩, ?_⟩
  refine bind_eq_ok.mpr ⟨_, SafeMath.add_eq_ok.mpr ⟨hsums.total, rfl⟩, ?_⟩
  refine bind_eq_ok.mpr ⟨_, SafeMath.div_eq_ok.mpr ⟨htotal, rfl⟩, ?_⟩
  refine bind_eq_ok.mpr ⟨_, SafeMath.mul_eq_ok.mpr ⟨hproducts.constant, rfl⟩, ?_⟩
  refine bind_eq_ok.mpr ⟨_, SafeMath.mul_eq_ok.mpr ⟨hproducts.scaledOnce, rfl⟩, ?_⟩
  refine bind_eq_ok.mpr ⟨_, SafeMath.mul_eq_ok.mpr ⟨hproducts.scaledTwice, rfl⟩, ?_⟩
  refine bind_eq_ok.mpr ⟨_, SafeMath.mul_eq_ok.mpr ⟨hproducts.square, rfl⟩, ?_⟩
  refine bind_eq_ok.mpr ⟨_, SafeMath.add_eq_ok.mpr ⟨hsums.discriminant, rfl⟩, ?_⟩
  have hsqrt := HuskyMath.sqrt_eq hsums.discriminant
  unfold discriminant constantTerm at hsqrt
  rw [hsqrt]
  refine bind_eq_ok.mpr ⟨_, SafeMath.sub_eq_ok.mpr ⟨linear_le_sqrt, rfl⟩, ?_⟩
  refine bind_eq_ok.mpr ⟨9975 * 2, SafeMath.mul_eq_ok.mpr ⟨by norm_num [wordSize], rfl⟩, ?_⟩
  exact SafeMath.div_eq_ok.mpr ⟨by norm_num, rfl⟩

theorem optimalDeposit_eq (hA : 0 < resA) (hB : 0 < resB)
    (hproducts : OfSold amtA amtB resA resB ProductsFit)
    (hsums : OfSold amtA amtB resA resB SumsFit) :
    optimalDeposit amtA amtB resA resB = .ok
      (OfSold amtA amtB resA resB swapAmt, decide (amtA * resB < amtB * resA)) := by
  unfold OfSold at hproducts hsums ⊢
  by_cases hle : amtA * resB ≥ amtB * resA
  · rw [if_pos hle] at hproducts hsums ⊢
    refine bind_eq_ok.mpr ⟨_, SafeMath.mul_eq_ok.mpr ⟨hproducts.left, rfl⟩, ?_⟩
    refine bind_eq_ok.mpr ⟨_, SafeMath.mul_eq_ok.mpr ⟨hproducts.right, rfl⟩, ?_⟩
    rw [if_pos hle, decide_eq_false (Nat.not_lt.mpr hle)]
    exact bind_eq_ok.mpr ⟨_, _optimalDepositA_eq hB hle hproducts hsums, rfl⟩
  · rw [if_neg hle] at hproducts hsums ⊢
    have hlt := Nat.lt_of_not_ge hle
    refine bind_eq_ok.mpr ⟨_, SafeMath.mul_eq_ok.mpr ⟨hproducts.right, rfl⟩, ?_⟩
    refine bind_eq_ok.mpr ⟨_, SafeMath.mul_eq_ok.mpr ⟨hproducts.left, rfl⟩, ?_⟩
    rw [if_neg hle, decide_eq_true hlt]
    exact bind_eq_ok.mpr ⟨_, _optimalDepositA_eq hA hlt.le hproducts hsums, rfl⟩

/-- A computation that does not revert gave this amount. -/
theorem _optimalDepositA_eq_ok {s : Nat} (h : _optimalDepositA amtA amtB resA resB = .ok s) :
    amtA * resB ≥ amtB * resA ∧ s = swapAmt amtA amtB resA resB := by
  simp only [_optimalDepositA, bind_eq_ok, require_eq_ok, SafeMath.mul_eq_ok, SafeMath.add_eq_ok,
    SafeMath.sub_eq_ok, SafeMath.div_eq_ok] at h
  obtain ⟨_, ⟨_, rfl⟩, _, ⟨_, rfl⟩, _, hle, _, ⟨_, rfl⟩, _, ⟨_, rfl⟩, _, ⟨_, rfl⟩, _, ⟨_, rfl⟩,
    _, ⟨_, rfl⟩, _, ⟨_, rfl⟩, _, ⟨_, rfl⟩, _, ⟨_, rfl⟩, _, ⟨_, rfl⟩, _, ⟨hdisc, rfl⟩, _,
    ⟨_, rfl⟩, _, ⟨_, rfl⟩, _, rfl⟩ := h
  refine ⟨hle, ?_⟩
  rw [HuskyMath.sqrt_eq hdisc]
  rfl

theorem optimalDeposit_eq_ok {s : Nat} {isReversed : Bool}
    (h : optimalDeposit amtA amtB resA resB = .ok (s, isReversed)) :
    (isReversed = false ∧ amtA * resB ≥ amtB * resA ∧ s = swapAmt amtA amtB resA resB) ∨
    (isReversed = true ∧ amtB * resA ≥ amtA * resB ∧ s = swapAmt amtB amtA resB resA) := by
  simp only [optimalDeposit, bind_eq_ok, SafeMath.mul_eq_ok] at h
  obtain ⟨_, ⟨_, rfl⟩, _, ⟨_, rfl⟩, h⟩ := h
  split at h
  · simp only [bind_eq_ok, pure_eq_ok, Prod.mk.injEq] at h
    obtain ⟨_, hsold, rfl, rfl⟩ := h
    obtain ⟨hle, hs⟩ := _optimalDepositA_eq_ok hsold
    exact .inl ⟨rfl, hle, hs⟩
  · simp only [bind_eq_ok, pure_eq_ok, Prod.mk.injEq] at h
    obtain ⟨_, hsold, rfl, rfl⟩ := h
    obtain ⟨hle, hs⟩ := _optimalDepositA_eq_ok hsold
    exact .inr ⟨rfl, hle, hs⟩

/-- The truncated constant term is below the exact one, by less than the reserve. -/
theorem constantTerm_bounds (hA : 0 < resA) (hB : 0 < resB) (hle : amtA * resB ≥ amtB * resA) :
    (constantTerm amtA amtB resA resB : ℝ) ≤ target amtA amtB resA resB ∧
    target amtA amtB resA resB < constantTerm amtA amtB resA resB + resA := by
  have hA' : (0 : ℝ) < resA := Nat.cast_pos.mpr hA
  have hden : (0 : ℝ) < ((amtB + resB : Nat) : ℝ) := Nat.cast_pos.mpr (by omega)
  have hquot : target amtA amtB resA resB =
      (((amtA * resB - amtB * resA) * 10000 : Nat) : ℝ) / ((amtB + resB : Nat) : ℝ) * resA := by
    unfold target
    push_cast [Nat.cast_sub hle]
    ring
  rw [hquot]
  unfold constantTerm
  generalize (amtA * resB - amtB * resA) * 10000 = n at *
  generalize amtB + resB = d at *
  push_cast
  have hfloor : ((n / d : Nat) : ℝ) ≤ (n : ℝ) / d := Nat.cast_div_le
  have hceil : (n : ℝ) / d < ((n / d : Nat) : ℝ) + 1 := by
    rw [div_lt_iff₀ hden]
    exact_mod_cast Nat.lt_mul_of_div_lt (Nat.lt_succ_self (n / d)) (Nat.cast_pos.mp hden)
  constructor
  · gcongr
  · calc (n : ℝ) / d * resA < (((n / d : Nat) : ℝ) + 1) * resA := by gcongr
      _ = ((n / d : Nat) : ℝ) * resA + resA := by ring

/-- The root of the truncated equation, truncated. -/
theorem swapAmt_bounds :
    9975 * swapAmt amtA amtB resA resB ^ 2 + 19975 * resA * swapAmt amtA amtB resA resB ≤
      constantTerm amtA amtB resA resB ∧
    constantTerm amtA amtB resA resB < 9975 * (swapAmt amtA amtB resA resB + 1) ^ 2 +
      19975 * resA * (swapAmt amtA amtB resA resB + 1) := by
  have hroot := Nat.sqrt_le' (discriminant amtA amtB resA resB)
  have hnext := Nat.lt_succ_sqrt' (discriminant amtA amtB resA resB)
  have hlinear : 19975 * resA ≤ Nat.sqrt (discriminant amtA amtB resA resB) := linear_le_sqrt
  unfold swapAmt
  generalize hdisc : discriminant amtA amtB resA resB = disc at *
  unfold discriminant at hdisc
  generalize constantTerm amtA amtB resA resB = c at *
  have hfloor := Nat.mul_div_le (disc.sqrt - 19975 * resA) 19950
  have hceil := Nat.lt_mul_div_succ (disc.sqrt - 19975 * resA) (show 0 < 19950 by decide)
  generalize (disc.sqrt - 19975 * resA) / 19950 = s at *
  generalize disc.sqrt = e at *
  constructor
  · have hle : 19950 * s + 19975 * resA ≤ e := by omega
    have hsq := Nat.le_trans (Nat.pow_le_pow_left hle 2) hroot
    nlinarith
  · have hlt : e + 1 ≤ 19950 * (s + 1) + 19975 * resA := by omega
    have hsq := Nat.lt_of_lt_of_le hnext (Nat.pow_le_pow_left hlt 2)
    nlinarith

/-- The exact amount is less than two units above. -/
theorem swapAmt_spec (hA : 0 < resA) (hB : 0 < resB) (hle : amtA * resB ≥ amtB * resA) :
    swapAmt amtA amtB resA resB ≤ amtA ∧
    ∃ exact : ℝ, Balanced amtA amtB resA resB exact ∧
      (∀ t, Balanced amtA amtB resA resB t → t = exact) ∧
      swapAmt amtA amtB resA resB ≤ exact ∧ exact < swapAmt amtA amtB resA resB + 2 := by
  have hA' : (0 : ℝ) < resA := Nat.cast_pos.mpr hA
  have hB' : (0 : ℝ) < resB := Nat.cast_pos.mpr hB
  have htotal : (0 : ℝ) < amtB + resB := by positivity
  obtain ⟨hconst, hconst'⟩ := constantTerm_bounds hA hB hle
  obtain ⟨hlow, hhigh⟩ := @swapAmt_bounds amtA amtB resA resB
  generalize swapAmt amtA amtB resA resB = s at *
  have hs : (0 : ℝ) ≤ s := Nat.cast_nonneg s
  have hlow' : quadratic resA s ≤ constantTerm amtA amtB resA resB := by
    unfold quadratic
    exact_mod_cast hlow
  have hhigh' : (constantTerm amtA amtB resA resB : ℝ) < quadratic resA (s + 1) := by
    unfold quadratic
    exact_mod_cast hhigh
  -- the truncation of the constant term is made up for by one more unit
  have hunit : quadratic resA ((s : ℝ) + 1) + resA ≤ quadratic resA (s + 2) := by
    unfold quadratic
    nlinarith
  have hamount : target amtA amtB resA resB ≤ quadratic resA amtA := by
    unfold target quadratic
    rw [div_mul_eq_mul_div, div_le_iff₀ htotal]
    have hamtA : (0 : ℝ) ≤ amtA := Nat.cast_nonneg _
    have hamtB : (0 : ℝ) ≤ amtB := Nat.cast_nonneg _
    nlinarith [mul_nonneg hamtB hA'.le, mul_nonneg hamtA hA'.le, mul_nonneg hamtA hamtB,
      mul_nonneg (mul_nonneg hamtA hA'.le) hamtB, mul_nonneg (mul_nonneg hamtA hA'.le) hB'.le,
      mul_nonneg (sq_nonneg (amtA : ℝ)) htotal.le, mul_nonneg (mul_nonneg hamtB hA'.le) hA'.le]
  have htarget : 0 ≤ target amtA amtB resA resB := (Nat.cast_nonneg _).trans hconst
  obtain ⟨exact, hexact, heq⟩ := exists_quadratic_eq hA' htarget
  have hle_exact : (s : ℝ) ≤ exact :=
    le_of_quadratic_le hA' hexact (heq ▸ hlow'.trans hconst)
  have hlt_exact : exact < s + 2 := by
    by_contra hge
    have hmono : quadratic resA ((s : ℝ) + 2) ≤ quadratic resA exact :=
      quadratic_le hA' (by positivity) (not_lt.mp hge)
    linarith
  have hexact_le : exact ≤ amtA :=
    le_of_quadratic_le hA' (Nat.cast_nonneg _) (heq ▸ hamount)
  refine ⟨Nat.cast_le.mp (hle_exact.trans hexact_le), exact, ?_, ?_, hle_exact, hlt_exact⟩
  · exact (balanced_iff hA' htotal hexact).mpr heq
  · intro t ht
    have heq' := (balanced_iff hA' htotal ht.1).mp ht
    exact le_antisymm (le_of_quadratic_le hA' hexact (heq'.trans heq.symm).le)
      (le_of_quadratic_le hA' ht.1 (heq.trans heq'.symm).le)

/-- On a tie there is nothing to sell. -/
theorem swapAmt_tie (heq : amtA * resB = amtB * resA) : swapAmt amtA amtB resA resB = 0 := by
  have hconst : constantTerm amtA amtB resA resB = 0 := by
    unfold constantTerm
    rw [heq, Nat.sub_self, Nat.zero_mul, Nat.zero_div, Nat.zero_mul]
  unfold swapAmt discriminant
  rw [hconst, Nat.mul_zero, Nat.zero_mul, Nat.add_zero, Nat.sqrt_eq, Nat.sub_self, Nat.zero_div]

/-- Without token B the discriminant is a product. -/
theorem discriminant_zero (hB : 0 < resB) :
    discriminant amtA 0 resA resB = resA * (amtA * 399000000 + resA * 399000625) := by
  have hquot : amtA * resB * 10000 / resB = amtA * 10000 := by
    rw [Nat.mul_right_comm, Nat.mul_div_cancel _ hB]
  unfold discriminant constantTerm
  rw [Nat.zero_mul, Nat.sub_zero, Nat.zero_add, hquot]
  ring

/-- The closed form is the general one without token B. -/
theorem aIn_eq (hA : 0 < resA) (hB : 0 < resB) (hlinear : 19975 * resA < wordSize)
    (hdisc : discriminant amtA 0 resA resB < wordSize) :
    aIn amtA resA = .ok (swapAmt amtA 0 resA resB) := by
  have hle : 19975 * resA ≤ Nat.sqrt (discriminant amtA 0 resA resB) := linear_le_sqrt
  unfold swapAmt
  rw [discriminant_zero hB] at hdisc hle ⊢
  -- the sum is at most the product with the reserve
  have hsum : amtA * 399000000 + resA * 399000625 < wordSize :=
    Nat.lt_of_le_of_lt (Nat.le_mul_of_pos_left _ hA) hdisc
  rw [Nat.mul_comm 19975] at hlinear hle ⊢
  refine bind_eq_ok.mpr ⟨_, SafeMath.mul_eq_ok.mpr
    ⟨Nat.lt_of_le_of_lt (Nat.le_add_right _ _) hsum, rfl⟩, ?_⟩
  refine bind_eq_ok.mpr ⟨_, SafeMath.mul_eq_ok.mpr
    ⟨Nat.lt_of_le_of_lt (Nat.le_add_left _ _) hsum, rfl⟩, ?_⟩
  refine bind_eq_ok.mpr ⟨_, SafeMath.add_eq_ok.mpr ⟨hsum, rfl⟩, ?_⟩
  refine bind_eq_ok.mpr ⟨_, SafeMath.mul_eq_ok.mpr ⟨hdisc, rfl⟩, ?_⟩
  refine bind_eq_ok.mpr ⟨_, SafeMath.mul_eq_ok.mpr ⟨hlinear, rfl⟩, ?_⟩
  rw [HuskyMath.sqrt_eq hdisc]
  refine bind_eq_ok.mpr ⟨_, SafeMath.sub_eq_ok.mpr ⟨hle, rfl⟩, ?_⟩
  exact pure_eq_ok.mpr rfl

theorem aIn_eq_ok {s : Nat} (hB : 0 < resB) (h : aIn amtA resA = .ok s) :
    s = swapAmt amtA 0 resA resB := by
  simp only [aIn, bind_eq_ok, pure_eq_ok, SafeMath.mul_eq_ok, SafeMath.add_eq_ok,
    SafeMath.sub_eq_ok] at h
  obtain ⟨_, ⟨_, rfl⟩, _, ⟨_, rfl⟩, _, ⟨_, rfl⟩, _, ⟨hdisc, rfl⟩, _, ⟨_, rfl⟩, _, ⟨_, rfl⟩, rfl⟩ :=
    h
  rw [HuskyMath.sqrt_eq hdisc, swapAmt, discriminant_zero hB, Nat.mul_comm 19975]

end Code

/-! ## The optimal amount -/

section Optimal

variable {amtA amtB resA resB : Nat}

/-- The exact amount to sell of token A, or of token B where the sides are reversed. -/
def Exact (amtA amtB resA resB : Nat) (isReversed : Bool) (t : ℝ) : Prop :=
  if isReversed then Balanced amtB amtA resB resA t else Balanced amtA amtB resA resB t

/-- In the other order the same is sold. -/
theorem swapAmt_swapped :
    OfSold amtB amtA resB resA swapAmt = OfSold amtA amtB resA resB swapAmt := by
  unfold OfSold
  rcases Nat.lt_trichotomy (amtA * resB) (amtB * resA) with hlt | heq | hgt
  · rw [if_pos hlt.le, if_neg (Nat.not_le.mpr hlt)]
  · rw [if_pos heq.le, if_pos heq.ge, swapAmt_tie heq, swapAmt_tie heq.symm]
  · rw [if_neg (Nat.not_le.mpr hgt), if_pos hgt.le]

/-- Where every product fits a sum may still overflow; and on a tie the other order squares the
other reserve. -/
theorem optimalDeposit_overflow :
    (OfSold maxWord maxWord 1 1 ProductsFit ∧
      optimalDeposit maxWord maxWord 1 1 = .error "SafeMath: addition overflow") ∧
    (OfSold 0 0 1 (2 ^ 250) ProductsFit ∧
      (optimalDeposit 0 0 1 (2 ^ 250)).toOption = some (0, false) ∧
      optimalDeposit 0 0 (2 ^ 250) 1 = .error "SafeMath: multiplication overflow") := by
  refine ⟨⟨?_, eq_error_of_failsWith (by decide +kernel)⟩, ?_, by decide +kernel,
    eq_error_of_failsWith (by decide +kernel)⟩
  · unfold OfSold
    rw [if_pos (Nat.le_refl _)]
    constructor <;> decide +kernel
  · unfold OfSold
    rw [if_pos (by decide +kernel)]
    constructor <;> decide +kernel

theorem optimalDeposit_optimal (hA : 0 < resA) (hB : 0 < resB)
    (hproducts : OfSold amtA amtB resA resB ProductsFit)
    (hsums : OfSold amtA amtB resA resB SumsFit) :
    ∃ s isReversed, optimalDeposit amtA amtB resA resB = .ok (s, isReversed) ∧
      s ≤ (if isReversed then amtB else amtA) ∧
      (∃ exact : ℝ, Exact amtA amtB resA resB isReversed exact ∧
        (∀ t, Exact amtA amtB resA resB isReversed t → t = exact) ∧
        s ≤ exact ∧ exact < s + 2) ∧
      (OfSold amtB amtA resB resA ProductsFit → OfSold amtB amtA resB resA SumsFit →
        ∃ isReversed', optimalDeposit amtB amtA resB resA = .ok (s, isReversed') ∧
          (isReversed' = !isReversed ∨ s = 0)) ∧
      (amtB = 0 → aIn amtA resA = .ok s) := by
  refine ⟨_, _, optimalDeposit_eq hA hB hproducts hsums, ?_, ?_, ?_, ?_⟩
  · unfold OfSold
    by_cases hlt : amtA * resB < amtB * resA
    · rw [if_neg (Nat.not_le.mpr hlt), decide_eq_true hlt]
      exact (swapAmt_spec hB hA hlt.le).1
    · rw [if_pos (Nat.not_lt.mp hlt), decide_eq_false hlt]
      exact (swapAmt_spec hA hB (Nat.not_lt.mp hlt)).1
  · unfold OfSold Exact
    by_cases hlt : amtA * resB < amtB * resA
    · rw [if_neg (Nat.not_le.mpr hlt), decide_eq_true hlt]
      exact (swapAmt_spec hB hA hlt.le).2
    · rw [if_pos (Nat.not_lt.mp hlt), decide_eq_false hlt]
      exact (swapAmt_spec hA hB (Nat.not_lt.mp hlt)).2
  · intro hproducts' hsums'
    refine ⟨_, swapAmt_swapped ▸ optimalDeposit_eq hB hA hproducts' hsums', ?_⟩
    -- exchanging the sides sells the other token, but for a tie, where nothing is sold
    rcases Nat.lt_trichotomy (amtA * resB) (amtB * resA) with hlt | heq | hgt
    · rw [decide_eq_true hlt, decide_eq_false (Nat.lt_asymm hlt)]
      exact .inl rfl
    · unfold OfSold
      rw [if_pos heq.ge]
      exact .inr (swapAmt_tie heq)
    · rw [decide_eq_true hgt, decide_eq_false (Nat.lt_asymm hgt)]
      exact .inl rfl
  -- with base tokens alone they are the ones to sell
  · rintro rfl
    unfold OfSold at hproducts hsums ⊢
    have hle : amtA * resB ≥ 0 * resA := by
      rw [Nat.zero_mul]
      exact Nat.zero_le _
    rw [if_pos hle] at hproducts hsums ⊢
    exact aIn_eq hA hB hproducts.linear hsums.discriminant

theorem optimalDeposit_optimal_two_btoken :
    ∃ s isReversed, optimalDeposit (2 * 10 ^ 18) 0 (10 ^ 18) (10 ^ 17) = .ok (s, isReversed) ∧
      aIn (2 * 10 ^ 18) (10 ^ 18) = .ok s := by
  have hfits : OfSold (2 * 10 ^ 18) 0 (10 ^ 18) (10 ^ 17) ProductsFit := by
    unfold OfSold
    rw [if_pos (by decide +kernel)]
    constructor <;> decide +kernel
  have hsums : OfSold (2 * 10 ^ 18) 0 (10 ^ 18) (10 ^ 17) SumsFit := by
    unfold OfSold
    rw [if_pos (by decide +kernel)]
    constructor <;> decide +kernel
  obtain ⟨s, isReversed, hok, _, _, _, hclosed⟩ :=
    optimalDeposit_optimal (by decide +kernel) (by decide +kernel) hfits hsums
  exact ⟨s, isReversed, hok, hclosed rfl⟩

-- the amounts of the tests
example : (optimalDeposit (2 * 10 ^ 18) 0 (10 ^ 18) (10 ^ 17)).toOption =
    some (732967258967755614, false) := by decide +kernel

end Optimal

end Huski.Strategy
