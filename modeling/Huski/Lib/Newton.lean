import Mathlib.Data.Nat.Sqrt
import Mathlib.Tactic.Linarith
import Mathlib.Tactic.Ring

/-!
# Integer square roots by Newton's steps

A step takes the rounded mean of a guess and of the quotient by it. After one step a guess is at
least the root, and from then on the part by which its square exceeds the number is squared with
every step; so a few steps from a guess of the right magnitude are enough, up to one unit.
-/

namespace Newton

/-- One step towards the square root of `x`. -/
def step (x r : Nat) : Nat := (r + x / r) / 2

variable {x r : Nat}

/-- A step does not fall below the root. -/
theorem sqrt_le_step (hr : 0 < r) : x.sqrt ≤ step x r := by
  have hquot : 2 * x.sqrt - r ≤ x / r := by
    rw [Nat.le_div_iff_mul_le hr]
    rcases Nat.le_total r (2 * x.sqrt) with hle | hle
    · -- `(2 s - r) r ≤ s ^ 2`
      obtain ⟨d, hd⟩ := Nat.exists_eq_add_of_le hle
      have hroot := Nat.sqrt_le' x
      rw [hd, Nat.add_sub_cancel_left]
      nlinarith [sq_nonneg ((r : ℤ) - d)]
    · rw [Nat.sub_eq_zero_of_le hle, Nat.zero_mul]
      exact Nat.zero_le _
  unfold step
  omega

/-- A step does not exceed the exact mean. -/
theorem two_mul_step_le (x r : Nat) : 2 * r * step x r ≤ r ^ 2 + x := by
  have hmean : 2 * step x r ≤ r + x / r := Nat.mul_div_le _ 2
  calc 2 * r * step x r = r * (2 * step x r) := by ring
    _ ≤ r * (r + x / r) := Nat.mul_le_mul_left r hmean
    _ = r ^ 2 + r * (x / r) := by ring
    _ ≤ r ^ 2 + x := Nat.add_le_add_left (Nat.mul_div_le x r) _

/-- The square of a step, in terms of the square before it. -/
theorem four_mul_step_sq_le (x r : Nat) : 4 * r ^ 2 * step x r ^ 2 ≤ (r ^ 2 + x) ^ 2 := by
  have h := Nat.pow_le_pow_left (two_mul_step_le x r) 2
  calc 4 * r ^ 2 * step x r ^ 2 = (2 * r * step x r) ^ 2 := by ring
    _ ≤ (r ^ 2 + x) ^ 2 := h

/-- At least the root, with a square that exceeds `x` by at most `p / q` of it, or by one. -/
structure Close (p q x r : Nat) : Prop where
  sqrt_le : x.sqrt ≤ r
  sq_le : q * r ^ 2 ≤ (q + p) * x ∨ r ^ 2 ≤ x + 1

/-- With what it exceeds the number written out. -/
theorem step_sq_le_of_excess {d : Nat} (hx : r ^ 2 = x + d) :
    4 * r ^ 2 * step x r ^ 2 ≤ 4 * r ^ 2 * x + d ^ 2 := by
  have h := four_mul_step_sq_le x r
  rw [hx] at h ⊢
  nlinarith

/-- From a guess whose square is at most one too large the next one is of that kind, too. -/
theorem step_sq_le_succ (hr : 0 < r) (hsqrt : x.sqrt ≤ r) (hclose : r ^ 2 ≤ x + 1) :
    step x r ^ 2 ≤ x + 1 := by
  have hsq : 0 < r ^ 2 := Nat.pow_pos hr
  have hlt : x < (r + 1) ^ 2 := Nat.lt_of_lt_of_le (Nat.lt_succ_sqrt' x)
    (Nat.pow_le_pow_left (Nat.succ_le_succ hsqrt) 2)
  have h := four_mul_step_sq_le x r
  -- `r ^ 2` and `x` differ by at most `2 r`
  by_contra hgt
  have hstep : x + 2 ≤ step x r ^ 2 := by omega
  have hlarge : 4 * r ^ 2 * (x + 2) ≤ (r ^ 2 + x) ^ 2 :=
    Nat.le_trans (Nat.mul_le_mul_left _ hstep) h
  rcases Nat.le_total x (r ^ 2) with hle | hle
  · obtain ⟨d, hd⟩ := Nat.exists_eq_add_of_le hle
    have hd1 : d ≤ 1 := by omega
    rw [hd] at hlarge hsq
    nlinarith
  · obtain ⟨d, rfl⟩ := Nat.exists_eq_add_of_le hle
    have hd : d ≤ 2 * r := by nlinarith
    nlinarith

/-- The relative excess is squared, and divided by four. -/
theorem Close.step {p q : Nat} (hr : 0 < r) (h : Close p q x r) :
    Close (p ^ 2) (4 * q * (q + p)) x (Newton.step x r) := by
  refine ⟨sqrt_le_step hr, ?_⟩
  by_cases hone : r ^ 2 ≤ x + 1
  · exact .inr (step_sq_le_succ hr h.sqrt_le hone)
  refine .inl ?_
  obtain ⟨d, hd⟩ := Nat.exists_eq_add_of_le (show x ≤ r ^ 2 by omega)
  have hdpos : 0 < d := by omega
  have hexcess : q * d ≤ p * x := by
    have hsq := h.sq_le.resolve_right hone
    rw [hd] at hsq
    nlinarith
  have hstep := step_sq_le_of_excess hd
  rw [hd] at hstep
  rcases Nat.le_total (Newton.step x r ^ 2) x with hle | hle
  · nlinarith [Nat.mul_le_mul_left (4 * q * (q + p)) hle]
  · obtain ⟨t, ht⟩ := Nat.exists_eq_add_of_le hle
    rw [ht] at hstep ⊢
    have ht' : 4 * (x + d) * t ≤ d ^ 2 := by nlinarith
    -- multiply by `p q` and take `d` out
    have hscale : 4 * q * (q + p) * t * d ≤ p ^ 2 * x * d := by
      calc 4 * q * (q + p) * t * d = 4 * q * t * (q * d) + 4 * q * t * (p * d) := by ring
        _ ≤ 4 * q * t * (p * x) + 4 * q * t * (p * d) :=
            Nat.add_le_add_right (Nat.mul_le_mul_left _ hexcess) _
        _ = p * q * (4 * (x + d) * t) := by ring
        _ ≤ p * q * d ^ 2 := Nat.mul_le_mul_left _ ht'
        _ = p * d * (q * d) := by ring
        _ ≤ p * d * (p * x) := Nat.mul_le_mul_left _ hexcess
        _ = p ^ 2 * x * d := by ring
    have hpart := Nat.le_of_mul_le_mul_right hscale hdpos
    calc 4 * q * (q + p) * (x + t) = 4 * q * (q + p) * x + 4 * q * (q + p) * t := by ring
      _ ≤ 4 * q * (q + p) * x + p ^ 2 * x := Nat.add_le_add_left hpart _
      _ = (4 * q * (q + p) + p ^ 2) * x := by ring

theorem Close.pos {p q : Nat} (hx : 0 < x) (h : Close p q x r) : 0 < r :=
  Nat.lt_of_lt_of_le (Nat.sqrt_pos.mpr hx) h.sqrt_le

theorem Close.mono {p q p' q' : Nat} (hq : 0 < q) (hle : p * q' ≤ p' * q) (h : Close p q x r) :
    Close p' q' x r := by
  refine ⟨h.sqrt_le, h.sq_le.imp_left fun hsq => ?_⟩
  have hscale : q' * r ^ 2 * q ≤ (q' + p') * x * q := by
    calc q' * r ^ 2 * q = q' * (q * r ^ 2) := by ring
      _ ≤ q' * ((q + p) * x) := Nat.mul_le_mul_left _ hsq
      _ = q' * q * x + p * q' * x := by ring
      _ ≤ q' * q * x + p' * q * x := Nat.add_le_add_left (Nat.mul_le_mul_right x hle) _
      _ = (q' + p') * x * q := by ring
  exact Nat.le_of_mul_le_mul_right hscale hq

/-- The first step from a guess that is too small by less than the factor `√8`. -/
theorem close_of_guess (hr : 0 < r) (hle : r ^ 2 ≤ x) (hlt : x < 8 * r ^ 2) :
    Close 49 32 x (step x r) := by
  refine ⟨sqrt_le_step hr, .inl ?_⟩
  have h := four_mul_step_sq_le x r
  have hsq : 0 < r ^ 2 := Nat.pow_pos hr
  obtain ⟨d, rfl⟩ := Nat.exists_eq_add_of_le hle
  generalize r ^ 2 = s at *
  have hprod : (s + (s + d)) ^ 2 * 8 ≤ 81 * (s + d) * s := by nlinarith
  have hscale : 32 * step (s + d) r ^ 2 * s ≤ (32 + 49) * (s + d) * s := by nlinarith
  exact Nat.le_of_mul_le_mul_right hscale hsq

/-- The number of which a part is left after `n` more steps. -/
def precision : Nat → Nat
  | 0 => 4
  | n + 1 => 4 * precision n * (precision n + 1)

/-- Two steps make the excess at most a quarter, and every further one squares it. -/
theorem close_iterate (hr : 0 < r) (hle : r ^ 2 ≤ x) (hlt : x < 8 * r ^ 2) (n : Nat) :
    Close 1 (precision n) x ((step x)^[n + 2] r) := by
  have hx : 0 < x := Nat.lt_of_lt_of_le (Nat.pow_pos hr) hle
  have hfirst := close_of_guess hr hle hlt
  induction n with
  | zero =>
      have hsecond := hfirst.step (hfirst.pos hx)
      exact hsecond.mono (by decide) (by decide)
  | succ n ih =>
      rw [Function.iterate_succ_apply']
      exact ih.step (ih.pos hx)

/-- From an excess below the root the smaller of the guess and the quotient is the root. -/
theorem Close.min_eq_sqrt {q : Nat} (hx : 0 < x) (hq : x.sqrt < q) (h : Close 1 q x r) :
    (if r < x / r then r else x / r) = x.sqrt := by
  have hsqrt := Nat.sqrt_pos.mpr hx
  have hroot := Nat.sqrt_le' x
  have hnext := Nat.lt_succ_sqrt' x
  have hle := h.sqrt_le
  have hr := h.pos hx
  have hsq := h.sq_le
  generalize x.sqrt = s at *
  -- the square exceeds `x` by at most `s + 1`
  have hexcess : r ^ 2 ≤ x + (s + 1) := by
    rcases hsq with hsq | hsq
    · by_contra hgt
      have hscale : q * (x + (s + 1) + 1) ≤ (q + 1) * x :=
        Nat.le_trans (Nat.mul_le_mul_left q (by omega)) hsq
      nlinarith
    · omega
  have hr_le : r ≤ s + 1 := by nlinarith
  rcases Nat.lt_or_ge s r with hlt | hge
  · have hr_eq : r = s + 1 := by omega
    have hquot : x / r = s := by
      rw [hr_eq] at hexcess ⊢
      refine Nat.div_eq_of_lt_le (by nlinarith) (by nlinarith)
    rw [hquot, if_neg (Nat.not_lt.mpr hlt.le)]
  · have hr_eq : r = s := Nat.le_antisymm hge hle
    have hquot : s ≤ x / r := by
      rw [hr_eq, Nat.le_div_iff_mul_le hsqrt]
      nlinarith
    split
    · exact hr_eq
    · omega

/-! ## The size of the guesses -/

theorem div_le_of_sqrt_le (hx : 0 < x) (hsqrt : x.sqrt ≤ r) : x / r ≤ x.sqrt + 2 := by
  have hexcess : x ≤ x.sqrt * (x.sqrt + 2) := by
    have h := Nat.sqrt_le_add x
    nlinarith
  calc x / r ≤ x / x.sqrt := Nat.div_le_div_left hsqrt (Nat.sqrt_pos.mpr hx)
    _ ≤ x.sqrt + 2 := Nat.div_le_of_le_mul hexcess

/-- The first sum, from a guess that is too small by less than the factor `√8`. -/
theorem add_div_le_of_guess (hlt : x < 8 * r ^ 2) : r + x / r ≤ 9 * r := by
  have hquot : x / r ≤ 8 * r := by
    refine Nat.div_le_of_le_mul ?_
    nlinarith
  omega

/-- After the first step the guesses are at least the root, and of its magnitude. -/
theorem iterate_bounds (hr : 0 < r) (hle : r ^ 2 ≤ x) (hlt : x < 8 * r ^ 2) (n : Nat) :
    x.sqrt ≤ (step x)^[n + 1] r ∧ (step x)^[n + 1] r ≤ 5 * (x.sqrt + 2) := by
  have hx : 0 < x := Nat.lt_of_lt_of_le (Nat.pow_pos hr) hle
  induction n with
  | zero =>
      have hroot : r ≤ x.sqrt := Nat.le_sqrt'.mpr hle
      have hsum := add_div_le_of_guess hlt
      refine ⟨sqrt_le_step hr, ?_⟩
      show (r + x / r) / 2 ≤ _
      omega
  | succ n ih =>
      obtain ⟨hlow, hhigh⟩ := ih
      rw [Function.iterate_succ_apply']
      have hquot := div_le_of_sqrt_le hx hlow
      have hpos : 0 < (step x)^[n + 1] r := Nat.lt_of_lt_of_le (Nat.sqrt_pos.mpr hx) hlow
      refine ⟨sqrt_le_step hpos, ?_⟩
      generalize (step x)^[n + 1] r = g at *
      show (g + x / g) / 2 ≤ _
      omega

/-- No guess is zero, and no sum of one and its quotient is larger than ten roots. -/
theorem add_div_iterate_le (hr : 0 < r) (hle : r ^ 2 ≤ x) (hlt : x < 8 * r ^ 2) (n : Nat) :
    0 < (step x)^[n] r ∧ (step x)^[n] r + x / (step x)^[n] r ≤ 10 * (x.sqrt + 2) := by
  have hx : 0 < x := Nat.lt_of_lt_of_le (Nat.pow_pos hr) hle
  cases n with
  | zero =>
      have hroot : r ≤ x.sqrt := Nat.le_sqrt'.mpr hle
      have hsum := add_div_le_of_guess hlt
      refine ⟨hr, ?_⟩
      show r + x / r ≤ _
      omega
  | succ n =>
      obtain ⟨hlow, hhigh⟩ := iterate_bounds hr hle hlt n
      have hquot := div_le_of_sqrt_le hx hlow
      exact ⟨Nat.lt_of_lt_of_le (Nat.sqrt_pos.mpr hx) hlow, by omega⟩

end Newton
