import Mathlib

/-!
# Rewards by share, in floors

A reward is spread over shares through an accumulator `acc` of units per share times
`unit`. An account with `amount` shares that was last settled at a debt may claim
`amount * acc / unit - debt`. Every division floors; the lemmas here compare the floored
claims with the exact ones, which are kept times `unit` and so stay natural numbers.
-/

namespace RewardShare

open scoped BigOperators

variable {unit : Nat}

/-- A floored claim is at most the exact one. -/
theorem floor_claim_le (total debt : Nat) :
    (total / unit - debt) * unit ≤ total - debt * unit := by
  rw [Nat.sub_mul]
  exact Nat.sub_le_sub_right (Nat.div_mul_le_self total unit) _

/-- What the floor keeps back of a claim is the remainder of the whole entitlement. -/
theorem floor_claim_add_mod {total debt : Nat} (h : debt ≤ total / unit) :
    (total / unit - debt) * unit + total % unit = total - debt * unit := by
  have hdebt : debt * unit ≤ total / unit * unit := Nat.mul_le_mul_right _ h
  have hsplit := Nat.div_add_mod' total unit
  rw [Nat.sub_mul]
  omega

/-- A settled account keeps the remainder as its claim. -/
theorem settled_claim (total : Nat) : total - total / unit * unit = total % unit := by
  have := Nat.div_add_mod' total unit
  omega

/-- An accrual raises an exact claim by its share. -/
theorem claim_accrue {amount acc delta debt : Nat} (h : debt * unit ≤ amount * acc) :
    amount * (acc + delta) - debt * unit = amount * acc - debt * unit + amount * delta := by
  rw [Nat.mul_add]
  omega

/-- The shares of all stake in a floored reward per share are at most the reward. -/
theorem shares_le {staked supply reward : Nat} (h : staked ≤ supply) :
    staked * (reward * unit / supply) ≤ reward * unit :=
  (Nat.mul_le_mul_right _ h).trans (Nat.mul_div_le _ _)

/-- Between two settlements a floored claim is at most one above the exact one. -/
theorem floor_sub_floor_le (a b : Nat) : (a + b) / unit - a / unit ≤ b / unit + 1 := by
  rcases Nat.eq_zero_or_pos unit with rfl | hunit
  · simp
  · have ha := Nat.div_add_mod a unit
    have hb := Nat.div_add_mod b unit
    have hra := Nat.mod_lt a hunit
    have hrb := Nat.mod_lt b hunit
    have hlt : (a + b) / unit < a / unit + b / unit + 2 := by
      refine Nat.div_lt_of_lt_mul ?_
      rw [Nat.mul_add, Nat.mul_add]
      omega
    rw [Nat.sub_le_iff_le_add]
    linarith

/-! ## Since the last settlement -/

/-- The debt of an account was set before `since` was added to the accumulator. -/
def SettledBefore (unit amount acc since debt : Nat) : Prop :=
  ∃ base, acc = base + since ∧ debt = amount * base / unit

section Since

variable {amount acc since debt : Nat}

theorem settledBefore_now (amount acc : Nat) :
    SettledBefore unit amount acc 0 (amount * acc / unit) :=
  ⟨acc, rfl, rfl⟩

theorem SettledBefore.accrue (h : SettledBefore unit amount acc since debt) (delta : Nat) :
    SettledBefore unit amount (acc + delta) (delta + since) debt := by
  obtain ⟨base, rfl, hdebt⟩ := h
  exact ⟨base, by omega, hdebt⟩

/-- A claim is at most one above the part since the debt was set. -/
theorem SettledBefore.claim_le (h : SettledBefore unit amount acc since debt) :
    amount * acc / unit - debt ≤ amount * since / unit + 1 := by
  obtain ⟨base, rfl, rfl⟩ := h
  rw [Nat.mul_add]
  exact floor_sub_floor_le _ _

/-- A claim is at least the part since the debt was set. -/
theorem SettledBefore.le_claim (h : SettledBefore unit amount acc since debt) :
    amount * since / unit ≤ amount * acc / unit - debt := by
  obtain ⟨base, rfl, rfl⟩ := h
  have hsplit : amount * base / unit + amount * since / unit ≤
      (amount * base + amount * since) / unit :=
    Nat.div_add_div_le_add_div
  rw [Nat.mul_add]
  omega

/-- Of two accumulators the one that grew less has the smaller claim, up to one. -/
theorem SettledBefore.claim_mono {acc' since' debt' : Nat}
    (h : SettledBefore unit amount acc since debt)
    (h' : SettledBefore unit amount acc' since' debt') (hle : since ≤ since') :
    amount * acc / unit - debt ≤ amount * acc' / unit - debt' + 1 := by
  have hparts : amount * since / unit ≤ amount * since' / unit :=
    Nat.div_le_div_right (Nat.mul_le_mul_left amount hle)
  exact h.claim_le.trans (Nat.succ_le_succ (hparts.trans h'.le_claim))

end Since

end RewardShare
