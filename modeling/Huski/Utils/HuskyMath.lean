import Huski.Lib.Checked
import Huski.Lib.Newton

/-!
# The square root

`HuskyMath.sol`: a power of two below the root by less than the factor `√8`, found by halving the
number of bits, then seven of Newton's steps, and the smaller of the last guess and its quotient.

`Word.sqrt` is the code on 256-bit words, on which a sum may wrap and a division by zero reverts.
Neither happens, so that it computes what `sqrt` does on numbers, which is the root.
-/

open Solidity

namespace Huski.HuskyMath

/-! ## On numbers -/

/-- `if (xx >= 2 ** (2 * bits)) { xx >>= 2 * bits; r <<= bits; }` -/
def scale (bits : Nat) (p : Nat × Nat) : Nat × Nat :=
  if p.1 ≥ 2 ^ (2 * bits) then (p.1 >>> (2 * bits), p.2 <<< bits) else p

/-- The power of two from which the iterations start. -/
def start (x : Nat) : Nat :=
  let (xx, r) := [64, 32, 16, 8, 4, 2].foldl (fun p bits => scale bits p) (x, 1)
  if xx ≥ 0x8 then r <<< 1 else r

/-- No sum of it exceeds 256 bits. -/
def sqrt (x : Nat) : Nat :=
  if x = 0 then 0
  else
    let r := (Newton.step x)^[7] (start x)
    let r1 := x / r
    if r < r1 then r else r1

/-! ## On words -/

namespace Word

/-- `if (xx >= limit) { xx >>= shift; r <<= bits; }` -/
def scale (limit : BitVec 256) (shift bits : Nat) (p : BitVec 256 × BitVec 256) :
    BitVec 256 × BitVec 256 :=
  if p.1 ≥ limit then (p.1 >>> shift, p.2 <<< bits) else p

/-- `xx` and `r` after six of these. -/
def scaled (x : BitVec 256) : BitVec 256 × BitVec 256 :=
  let p := scale 0x100000000000000000000000000000000 128 64 (x, 1)
  let p := scale 0x10000000000000000 64 32 p
  let p := scale 0x100000000 32 16 p
  let p := scale 0x10000 16 8 p
  let p := scale 0x100 8 4 p
  scale 0x10 4 2 p

/-- The first guess, in machine words. -/
def start (x : BitVec 256) : BitVec 256 :=
  let (xx, r) := scaled x
  if xx ≥ 0x8 then r <<< 1 else r

/-- `a / b`, which stops the call where `b` is zero. -/
def div (a b : BitVec 256) : Result (BitVec 256) :=
  if b = 0 then .error "" else .ok (a / b)

/-- `r = (r + x / r) >> 1;` -/
def step (x r : BitVec 256) : Result (BitVec 256) := do
  let quotient ← div x r
  return (r + quotient) >>> 1

/-- `r` after `count` of these lines. -/
def steps (x : BitVec 256) : Nat → Result (BitVec 256)
  | 0 => .ok (start x)
  | count + 1 => do
      let r ← steps x count
      step x r

/-- The root, in machine words. -/
def sqrt (x : BitVec 256) : Result (BitVec 256) :=
  if x = 0 then .ok 0
  else do
    let r ← steps x 7
    let r1 ← div x r
    return if r < r1 then r else r1

end Word

/-! ## The first guess -/

/-- Where the scaling of `x` stands: `xx` is `x` over `r ^ 2`, and is below the limit. -/
structure Scaled (x limit : Nat) (p : Nat × Nat) : Prop where
  pos : 0 < p.1
  lt : p.1 < limit
  root_pos : 0 < p.2
  le : p.2 ^ 2 * p.1 ≤ x
  lt_succ : x < p.2 ^ 2 * (p.1 + 1)

theorem Scaled.scale {x bits : Nat} {p : Nat × Nat}
    (h : Scaled x (2 ^ (2 * bits) * 2 ^ (2 * bits)) p) :
    Scaled x (2 ^ (2 * bits)) (scale bits p) := by
  unfold HuskyMath.scale
  split
  · rename_i hge
    have hunit : 0 < 2 ^ (2 * bits) := Nat.two_pow_pos _
    have hsq : (p.2 * 2 ^ bits) ^ 2 = p.2 ^ 2 * 2 ^ (2 * bits) := by
      rw [Nat.mul_pow, ← Nat.pow_mul, Nat.mul_comm bits 2]
    refine ⟨?_, ?_, ?_, ?_, ?_⟩ <;> simp only [Nat.shiftRight_eq_div_pow, Nat.shiftLeft_eq]
    · exact Nat.div_pos hge hunit
    · exact Nat.div_lt_of_lt_mul h.lt
    · exact Nat.mul_pos h.root_pos (Nat.two_pow_pos _)
    · rw [hsq, Nat.mul_assoc]
      exact Nat.le_trans (Nat.mul_le_mul_left _ (Nat.mul_div_le _ _)) h.le
    · rw [hsq, Nat.mul_assoc]
      exact Nat.lt_of_lt_of_le h.lt_succ (Nat.mul_le_mul_left _ (Nat.lt_mul_div_succ _ hunit))
  · rename_i hlt
    exact ⟨h.pos, Nat.lt_of_not_ge hlt, h.root_pos, h.le, h.lt_succ⟩

/-- The iterations start below the root, by less than the factor `√8`. -/
theorem start_spec {x : Nat} (hpos : 0 < x) (hlt : x < wordSize) :
    0 < start x ∧ start x ^ 2 ≤ x ∧ x < 8 * start x ^ 2 := by
  have hinit : Scaled x (2 ^ (2 * 64) * 2 ^ (2 * 64)) (x, 1) :=
    ⟨hpos, hlt, Nat.one_pos, by simp, by simp⟩
  -- each scaling halves the bits that remain
  have h64 : Scaled x (2 ^ (2 * 64)) (scale 64 (x, 1)) := hinit.scale
  have h32 : Scaled x (2 ^ (2 * 32)) (scale 32 _) := h64.scale
  have h16 : Scaled x (2 ^ (2 * 16)) (scale 16 _) := h32.scale
  have h8 : Scaled x (2 ^ (2 * 8)) (scale 8 _) := h16.scale
  have h4 : Scaled x (2 ^ (2 * 4)) (scale 4 _) := h8.scale
  have h : Scaled x (2 ^ (2 * 2))
      ([64, 32, 16, 8, 4, 2].foldl (fun p bits => scale bits p) (x, 1)) := by
    simp only [List.foldl_cons, List.foldl_nil]
    exact h4.scale
  unfold start
  generalize [64, 32, 16, 8, 4, 2].foldl (fun p bits => scale bits p) (x, 1) = p at h
  obtain ⟨xx, r⟩ := p
  obtain ⟨hxx, hsmall, hr, hle, hlt⟩ := h
  dsimp only at hxx hsmall hr hle hlt ⊢
  split
  · rename_i hge
    -- the last doubling happens exactly where the rest is 8 or more
    have hroom := Nat.mul_le_mul_left (r ^ 2) (show xx + 1 ≤ 16 by omega)
    have hfill := Nat.mul_le_mul_left (r ^ 2) hge
    rw [Nat.shiftLeft_eq, Nat.pow_one, Nat.mul_pow]
    exact ⟨by omega, by omega, by omega⟩
  · rename_i hge
    have hroom := Nat.mul_le_mul_left (r ^ 2) (show xx + 1 ≤ 8 by omega)
    have hfill := Nat.mul_le_mul_left (r ^ 2) (show 1 ≤ xx from hxx)
    exact ⟨hr, by omega, by omega⟩

/-- Seven iterations are enough. -/
theorem sqrt_eq {x : Nat} (hlt : x < wordSize) : sqrt x = x.sqrt := by
  unfold sqrt
  split
  · rename_i hzero
    rw [hzero, Nat.sqrt_zero]
  · rename_i hne
    have hpos := Nat.pos_of_ne_zero hne
    obtain ⟨hr, hle, hlt'⟩ := start_spec hpos hlt
    have hclose := Newton.close_iterate hr hle hlt' 5
    refine hclose.min_eq_sqrt hpos ?_
    have hroot : x.sqrt < 2 ^ 128 :=
      Nat.sqrt_lt'.mpr (Nat.lt_of_lt_of_le hlt (by norm_num [wordSize]))
    exact Nat.lt_of_lt_of_le hroot (by norm_num [Newton.precision])

/-! ## Words and numbers -/

namespace Word

variable {x r : BitVec 256}

def toNats (p : BitVec 256 × BitVec 256) : Nat × Nat := (p.1.toNat, p.2.toNat)

/-- One halving of the bits; the guess, whose square is at most `x`, does not lose any. -/
theorem toNats_scale {limit : BitVec 256} {shift bits : Nat} {p : BitVec 256 × BitVec 256}
    (hlimit : limit.toNat = 2 ^ (2 * bits)) (hshift : shift = 2 * bits)
    (h : Scaled x.toNat (2 ^ (2 * bits) * 2 ^ (2 * bits)) (toNats p)) :
    toNats (scale limit shift bits p) = HuskyMath.scale bits (toNats p) ∧
      Scaled x.toNat (2 ^ (2 * bits)) (toNats (scale limit shift bits p)) := by
  subst hshift
  have hscaled := h.scale
  have heq : toNats (scale limit (2 * bits) bits p) = HuskyMath.scale bits (toNats p) := by
    unfold scale HuskyMath.scale toNats at *
    by_cases hge : p.1.toNat ≥ 2 ^ (2 * bits)
    · have hword : p.1 ≥ limit := by
        show limit.toNat ≤ p.1.toNat
        rw [hlimit]
        exact hge
      rw [if_pos hge] at hscaled ⊢
      rw [if_pos hword]
      -- the shifted root stays below a word, as its square is at most the number
      have hfits : p.2.toNat <<< bits < 2 ^ 256 := by
        have hle := hscaled.le
        have hpos := hscaled.pos
        have hx := x.isLt
        dsimp only at hle hpos
        nlinarith
      rw [BitVec.toNat_ushiftRight, BitVec.toNat_shiftLeft, Nat.mod_eq_of_lt hfits]
    · have hword : ¬ p.1 ≥ limit := by
        show ¬ limit.toNat ≤ p.1.toNat
        rw [hlimit]
        exact hge
      rw [if_neg hge, if_neg hword]
  exact ⟨heq, heq ▸ hscaled⟩

theorem toNat_pos (hx : x ≠ 0) : 0 < x.toNat := by
  rw [Nat.pos_iff_ne_zero]
  exact fun hzero => hx (BitVec.eq_of_toNat_eq hzero)

theorem toNats_scaled (hx : x ≠ 0) :
    toNats (scaled x) = [64, 32, 16, 8, 4, 2].foldl (fun p bits => HuskyMath.scale bits p)
      (x.toNat, 1) ∧ Scaled x.toNat (2 ^ (2 * 2)) (toNats (scaled x)) := by
  have hpair : toNats (x, 1) = (x.toNat, 1) := rfl
  have hinit : Scaled x.toNat (2 ^ (2 * 64) * 2 ^ (2 * 64)) (toNats (x, 1)) :=
    ⟨toNat_pos hx, x.isLt, Nat.one_pos, by simp [toNats], by simp [toNats]⟩
  unfold scaled
  simp only [List.foldl_cons, List.foldl_nil]
  -- the six branches of the source, each with its own constant
  obtain ⟨e64, h64⟩ := toNats_scale
    (show (0x100000000000000000000000000000000 : BitVec 256).toNat = 2 ^ (2 * 64) from rfl)
    (show 128 = 2 * 64 from rfl) hinit
  obtain ⟨e32, h32⟩ := toNats_scale
    (show (0x10000000000000000 : BitVec 256).toNat = 2 ^ (2 * 32) from rfl)
    (show 64 = 2 * 32 from rfl) h64
  obtain ⟨e16, h16⟩ := toNats_scale
    (show (0x100000000 : BitVec 256).toNat = 2 ^ (2 * 16) from rfl)
    (show 32 = 2 * 16 from rfl) h32
  obtain ⟨e8, h8⟩ := toNats_scale (show (0x10000 : BitVec 256).toNat = 2 ^ (2 * 8) from rfl)
    (show 16 = 2 * 8 from rfl) h16
  obtain ⟨e4, h4⟩ := toNats_scale (show (0x100 : BitVec 256).toNat = 2 ^ (2 * 4) from rfl)
    (show 8 = 2 * 4 from rfl) h8
  obtain ⟨e2, h2⟩ := toNats_scale (show (0x10 : BitVec 256).toNat = 2 ^ (2 * 2) from rfl)
    (show 4 = 2 * 2 from rfl) h4
  refine ⟨?_, h2⟩
  rw [e2, e4, e8, e16, e32, e64, hpair]

theorem toNat_start (hx : x ≠ 0) : (start x).toNat = HuskyMath.start x.toNat := by
  obtain ⟨heq, hscaled⟩ := toNats_scaled hx
  unfold start HuskyMath.start
  rw [← heq]
  generalize scaled x = p at hscaled
  obtain ⟨xx, r⟩ := p
  unfold toNats at *
  dsimp only at hscaled ⊢
  by_cases hge : xx.toNat ≥ 8
  · have hfits : r.toNat <<< 1 < 2 ^ 256 := by
      have hle := hscaled.le
      have hx := x.isLt
      dsimp only at hle
      rw [Nat.shiftLeft_eq]
      nlinarith
    rw [if_pos hge, if_pos (show xx ≥ 8 from hge), BitVec.toNat_shiftLeft, Nat.mod_eq_of_lt hfits]
  · rw [if_neg hge, if_neg (show ¬ xx ≥ 8 from hge)]

/-- The guess after so many lines is that of Newton's steps, its sum with the quotient is a word. -/
theorem steps_eq (hx : x ≠ 0) (count : Nat) :
    ∃ r, steps x count = .ok r ∧ r.toNat = (Newton.step x.toNat)^[count] (HuskyMath.start x.toNat) ∧
      r ≠ 0 ∧ r.toNat + (x / r).toNat < 2 ^ 256 := by
  obtain ⟨hpos, hle, hlt⟩ := start_spec (toNat_pos hx) x.isLt
  have hword : 10 * (x.toNat.sqrt + 2) < 2 ^ 256 := by
    have hroot : x.toNat.sqrt < 2 ^ 128 := Nat.sqrt_lt'.mpr x.isLt
    omega
  -- the size of a guess, once it is that of Newton's steps
  have hsize : ∀ (i : Nat) (r : BitVec 256),
      r.toNat = (Newton.step x.toNat)^[i] (HuskyMath.start x.toNat) →
      r ≠ 0 ∧ r.toNat + (x / r).toNat < 2 ^ 256 := by
    intro i r hr
    obtain ⟨hguess, hsum⟩ := Newton.add_div_iterate_le hpos hle hlt i
    rw [← hr] at hguess hsum
    refine ⟨?_, ?_⟩
    · rintro rfl
      exact absurd hguess (by decide)
    · rw [BitVec.toNat_udiv]
      omega
  induction count with
  | zero =>
      have hstart : (start x).toNat = (Newton.step x.toNat)^[0] (HuskyMath.start x.toNat) := by
        rw [Function.iterate_zero_apply]
        exact toNat_start hx
      exact ⟨start x, rfl, hstart, hsize 0 _ hstart⟩
  | succ count ih =>
      obtain ⟨r, hsteps, hr, hne, hsum⟩ := ih
      have hnext : ((r + x / r) >>> 1).toNat =
          (Newton.step x.toNat)^[count + 1] (HuskyMath.start x.toNat) := by
        rw [Function.iterate_succ_apply', ← hr, BitVec.toNat_ushiftRight,
          BitVec.toNat_add_of_lt hsum, BitVec.toNat_udiv, Nat.shiftRight_eq_div_pow]
        rfl
      refine ⟨(r + x / r) >>> 1, ?_, hnext, hsize _ _ hnext⟩
      simp only [steps, step, div, bind_eq_ok, pure_eq_ok]
      exact ⟨r, hsteps, x / r, if_neg hne, rfl⟩

/-- The words compute what the numbers do. -/
theorem sqrt_toNat (x : BitVec 256) :
    ∃ r, sqrt x = .ok r ∧ r.toNat = HuskyMath.sqrt x.toNat := by
  by_cases hx : x = 0
  · exact ⟨0, by rw [sqrt, if_pos hx], by rw [hx]; rfl⟩
  · obtain ⟨r, hsteps, hr, hne, _⟩ := steps_eq hx 7
    refine ⟨if r < x / r then r else x / r, ?_, ?_⟩
    · simp only [sqrt, if_neg hx, div, bind_eq_ok, pure_eq_ok]
      exact ⟨r, hsteps, x / r, if_neg hne, rfl⟩
    · rw [HuskyMath.sqrt, if_neg (toNat_pos hx).ne', ← hr]
      exact apply_ite BitVec.toNat (r < x / r) r (x / r)

/-- For every word the code returns the root of it, its divisions are by guesses that are not zero,
and the sums it takes are words. -/
theorem sqrt_isRoot (x : BitVec 256) :
    (∃ r, sqrt x = .ok r ∧ r.toNat * r.toNat ≤ x.toNat ∧
      x.toNat < (r.toNat + 1) * (r.toNat + 1) ∧
      ∀ s, s * s ≤ x.toNat → x.toNat < (s + 1) * (s + 1) → s = r.toNat) ∧
    (x ≠ 0 → ∀ count ≤ 7, ∃ r, steps x count = .ok r ∧ r ≠ 0 ∧
      r.toNat + (x / r).toNat < 2 ^ 256) := by
  refine ⟨?_, fun hx count _ => ?_⟩
  · obtain ⟨r, hok, hr⟩ := sqrt_toNat x
    rw [sqrt_eq x.isLt] at hr
    refine ⟨r, hok, ?_, ?_, fun s hle hlt => ?_⟩
    · rw [hr]
      exact Nat.sqrt_le x.toNat
    · rw [hr]
      exact Nat.lt_succ_sqrt x.toNat
    · rw [hr]
      exact Nat.eq_sqrt.mpr ⟨hle, hlt⟩
  · obtain ⟨r, hsteps, _, hne, hsum⟩ := steps_eq hx count
    exact ⟨r, hsteps, hne, hsum⟩

end Word

end Huski.HuskyMath
