import Huski.Lib.TotalMap

/-!
# Weights by representative

Holders have a weight each and name a representative each; what counts for a representative
is the sum over the holders that name it. When weight moves from one holder to another, or a
holder names another representative, the same amount moves between two representatives: the
equations are stated without subtraction, so that `omega` compares them with a tally kept on
the side.
-/

open scoped BigOperators

namespace Delegation

variable {A R : Type} [Fintype A] [DecidableEq R] {weight weight' : A → Nat}
  {rep : A → R} {x : Nat}

/-- The weight of the holders that `d` represents. -/
def delegated (weight : A → Nat) (rep : A → R) (d : R) : Nat :=
  ∑ a, if rep a = d then weight a else 0

/-- A holder counts for its representative. -/
theorem le_delegated (weight : A → Nat) (rep : A → R) (a : A) :
    weight a ≤ delegated weight rep (rep a) := by
  have hterm : (if rep a = rep a then weight a else 0) = weight a := if_pos rfl
  have hle := Finset.single_le_sum (f := fun b => if rep b = rep a then weight b else 0)
    (fun _ _ => Nat.zero_le _) (Finset.mem_univ a)
  exact hterm ▸ hle

/-- Weight that changes holders changes representatives. -/
theorem delegated_credit (rep : A → R) {credit debit : A → Nat}
    (h : ∀ a, weight' a + debit a = weight a + credit a) (d : R) :
    delegated weight' rep d + delegated debit rep d =
      delegated weight rep d + delegated credit rep d := by
  unfold delegated
  rw [← Finset.sum_add_distrib, ← Finset.sum_add_distrib]
  refine Finset.sum_congr rfl fun a _ => ?_
  split
  · exact h a
  · rfl

/-- Nobody has weight but one holder. -/
theorem delegated_single [DecidableEq A] (a : A) (x : Nat) (d : R) :
    delegated (fun b => if b = a then x else 0) rep d = if rep a = d then x else 0 := by
  unfold delegated
  rw [Finset.sum_eq_single a]
  · simp
  · intro b _ hb
    simp [hb]
  · exact fun ha => absurd (Finset.mem_univ a) ha

theorem delegated_zero (d : R) : delegated (fun _ => 0) rep d = 0 := by
  unfold delegated
  exact Finset.sum_eq_zero fun a _ => by split <;> rfl

theorem delegated_move [DecidableEq A] (rep : A → R) {src dst : A}
    (h : ∀ a, weight' a + (if a = src then x else 0) = weight a + if a = dst then x else 0)
    (d : R) : delegated weight' rep d + (if rep src = d then x else 0) =
      delegated weight rep d + if rep dst = d then x else 0 := by
  have hcredit := delegated_credit rep h d
  rwa [delegated_single, delegated_single] at hcredit

theorem delegated_mint [DecidableEq A] (rep : A → R) {dst : A}
    (h : ∀ a, weight' a = weight a + if a = dst then x else 0) (d : R) :
    delegated weight' rep d = delegated weight rep d + if rep dst = d then x else 0 := by
  have hnone : ∀ a, weight' a + (fun _ => 0 : A → Nat) a =
      weight a + if a = dst then x else 0 := h
  have hcredit := delegated_credit rep hnone d
  rwa [delegated_single, delegated_zero, Nat.add_zero] at hcredit

theorem delegated_burn [DecidableEq A] (rep : A → R) {src : A}
    (h : ∀ a, weight' a + (if a = src then x else 0) = weight a) (d : R) :
    delegated weight' rep d + (if rep src = d then x else 0) = delegated weight rep d := by
  have hnone : ∀ a, weight' a + (if a = src then x else 0) =
      weight a + (fun _ => 0 : A → Nat) a := h
  have hcredit := delegated_credit rep hnone d
  rwa [delegated_single, delegated_zero, Nat.add_zero] at hcredit

/-- A holder that names another representative takes its weight there. -/
theorem delegated_update [DecidableEq A] (weight : A → Nat) (rep : A → R) (a : A) (r d : R) :
    delegated weight (Function.update rep a r) d + (if rep a = d then weight a else 0) =
      delegated weight rep d + if r = d then weight a else 0 := by
  have hother : ∀ b ∈ Finset.univ, b ≠ a →
      (if Function.update rep a r b = d then weight b else 0) =
        if rep b = d then weight b else 0 := fun b _ hb => by
    rw [Function.update_of_ne hb]
  have hsum := TotalMap.sum_replace (Finset.mem_univ a) hother
  rw [Function.update_self] at hsum
  exact hsum

/-- No weight counts for two representatives. -/
theorem sum_delegated_le (weight : A → Nat) (rep : A → R) (reps : Finset R) :
    ∑ d ∈ reps, delegated weight rep d ≤ ∑ a, weight a := by
  unfold delegated
  rw [Finset.sum_comm]
  refine Finset.sum_le_sum fun a _ => ?_
  rw [Finset.sum_ite_eq]
  split
  · exact le_rfl
  · exact Nat.zero_le _

end Delegation
