import Huski.Lib.Checked

/-!
# Totals over a mapping

A `mapping(K => V)` is a total function on a finite key type, and a ledger claim
is about the sum of one component of its values. Writing one entry moves the sum
by the difference of that entry, stated without subtraction so that `omega`
finishes the accounting.
-/

open scoped BigOperators

namespace TotalMap

section Part

variable {K V : Type} [DecidableEq K] {keys : Finset K} {k : K}

/-- Totals over some keys that differ at one key differ by that entry. -/
theorem sum_replace {f f' : K → Nat} (hk : k ∈ keys) (h : ∀ i ∈ keys, i ≠ k → f' i = f i) :
    (∑ i ∈ keys, f' i) + f k = (∑ i ∈ keys, f i) + f' k := by
  have hrest : ∑ i ∈ keys.erase k, f' i = ∑ i ∈ keys.erase k, f i :=
    Finset.sum_congr rfl fun i hi => h i (Finset.mem_of_mem_erase hi) (Finset.ne_of_mem_erase hi)
  have hnew := Finset.sum_erase_add keys f' hk
  have hold := Finset.sum_erase_add keys f hk
  omega

/-- Writing one entry replaces its contribution to the total over some keys. -/
theorem sum_update_mem (m : K → V) (g : V → Nat) (hk : k ∈ keys) (v : V) :
    (∑ i ∈ keys, g (Function.update m k v i)) + g (m k) = (∑ i ∈ keys, g (m i)) + g v := by
  have hother : ∀ i ∈ keys, i ≠ k → g (Function.update m k v i) = g (m i) := fun i _ hi => by
    rw [Function.update_of_ne hi]
  simpa using sum_replace hk hother

/-- Writing another entry leaves the total over some keys. -/
theorem sum_update_notMem (m : K → V) (g : V → Nat) (hk : k ∉ keys) (v : V) :
    (∑ i ∈ keys, g (Function.update m k v i)) = ∑ i ∈ keys, g (m i) := by
  refine Finset.sum_congr rfl fun i hi => ?_
  rw [Function.update_of_ne (ne_of_mem_of_not_mem hi hk)]

end Part

variable {K V : Type} [Fintype K] [DecidableEq K]

/-- Totals that differ at one key differ by that entry. -/
theorem sum_replace_univ {f f' : K → Nat} (k : K) (h : ∀ i, i ≠ k → f' i = f i) :
    (∑ i, f' i) + f k = (∑ i, f i) + f' k :=
  sum_replace (Finset.mem_univ k) fun i _ hi => h i hi

omit [DecidableEq K] in
theorem sum_congr {f f' : K → Nat} (h : ∀ i, f' i = f i) : ∑ i, f' i = ∑ i, f i :=
  Finset.sum_congr rfl fun i _ => h i

omit [DecidableEq K] in
/-- Totals of entries that all grow by a multiple of another. -/
theorem sum_add_mul {f f' g : K → Nat} {c : Nat} (h : ∀ i, f' i = f i + g i * c) :
    ∑ i, f' i = (∑ i, f i) + (∑ i, g i) * c := by
  rw [Finset.sum_mul, ← Finset.sum_add_distrib]
  exact Finset.sum_congr rfl fun i _ => h i

/-- Writing one entry replaces its contribution to the total. -/
theorem sum_update (m : K → V) (g : V → Nat) (k : K) (v : V) :
    (∑ i, g (Function.update m k v i)) + g (m k) = (∑ i, g (m i)) + g v :=
  sum_update_mem m g (Finset.mem_univ k) v

/-- Totals before and after `x` was taken from one entry and `y` given to one. -/
theorem sum_credit {f f' : K → Nat} {src dst : K} {x y : Nat}
    (h : ∀ k, f' k + (if k = src then x else 0) = f k + if k = dst then y else 0) :
    (∑ k, f' k) + x = (∑ k, f k) + y := by
  have hsum := Finset.sum_congr (rfl : (Finset.univ : Finset K) = Finset.univ) fun k _ => h k
  rw [Finset.sum_add_distrib, Finset.sum_add_distrib, Finset.sum_ite_eq', Finset.sum_ite_eq',
    if_pos (Finset.mem_univ src), if_pos (Finset.mem_univ dst)] at hsum
  exact hsum

omit [DecidableEq K] in
/-- One entry is at most the total. -/
theorem le_sum (m : K → V) (g : V → Nat) (k : K) : g (m k) ≤ ∑ i, g (m i) :=
  Finset.single_le_sum (f := fun i => g (m i)) (fun _ _ => Nat.zero_le _) (Finset.mem_univ k)

omit [DecidableEq K] in
theorem single_le_sum (f : K → Nat) (k : K) : f k ≤ ∑ i, f i := le_sum f id k

omit [DecidableEq K] in
/-- Entries that are a multiple of another's at most. -/
theorem sum_mul_le {f g : K → Nat} {c : Nat} (h : ∀ i, f i * c ≤ g i) :
    (∑ i, f i) * c ≤ ∑ i, g i := by
  rw [Finset.sum_mul]
  exact Finset.sum_le_sum fun i _ => h i

omit [DecidableEq K] in
/-- The entries of an empty mapping add up to nothing. -/
theorem sum_zero (m : K → V) (g : V → Nat) (h : ∀ k, g (m k) = 0) : (∑ i, g (m i)) = 0 := by
  simp [h]

omit [DecidableEq K] in
theorem sum_eq_zero {f : K → Nat} (h : ∀ k, f k = 0) : ∑ k, f k = 0 := sum_zero f id h

omit [Fintype K] in
/-- A property of all entries survives writing an entry that has it. -/
theorem forall_update {P : K → V → Prop} {m : K → V} {k : K} {v : V}
    (hm : ∀ i, P i (m i)) (hv : P k v) : ∀ i, P i (Function.update m k v i) := by
  intro i
  by_cases hi : i = k
  · subst hi
    simpa using hv
  · simpa [Function.update_of_ne hi] using hm i

end TotalMap
