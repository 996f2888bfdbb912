import Huski.Lib.TotalMap

/-!
# A register and its mirror

Shares are kept by key, each key of an owner. Another register, kept elsewhere, mirrors them: a
stake for each owner, and a supply. A key is closed here and withdrawn there, and issued anew in
both. What the withdrawal does not take out is closed all the same and stays behind in the mirror;
with it the mirror is exact after any number of steps.
-/

open scoped BigOperators

/-- Shares by key, and the stakes of their owners that mirror them. -/
structure Mirror (K A : Type) where
  owner : K → A
  share : K → Nat
  stake : A → Nat
  supply : Nat
  /-- the shares left behind, a history variable -/
  stuck : A → Nat

namespace Mirror

variable {K A : Type} [Fintype K] [DecidableEq A]

/-- The shares of an owner, over all its keys. -/
def owned (m : Mirror K A) (a : A) : Nat := ∑ k, if m.owner k = a then m.share k else 0

/-- The mirror shows the shares and what was left behind. -/
structure Faithful [Fintype A] (m : Mirror K A) : Prop where
  stakes : ∀ a, m.stake a = m.owned a + m.stuck a
  supplied : m.supply = (∑ k, m.share k) + ∑ a, m.stuck a

/-- One key is closed and issued anew, to any owner; of its shares some are taken out of the mirror
and the others left behind. -/
structure Reissue (m m' : Mirror K A) (k : K) (taken left : Nat) : Prop where
  owner : ∀ i, i ≠ k → m'.owner i = m.owner i
  share : ∀ i, i ≠ k → m'.share i = m.share i
  closed : taken + left = m.share k
  stake : ∀ a, m'.stake a + (if m.owner k = a then taken else 0) =
    m.stake a + if m'.owner k = a then m'.share k else 0
  supply : m'.supply + taken = m.supply + m'.share k
  stuck : ∀ a, m'.stuck a = m.stuck a + if m.owner k = a then left else 0

variable [DecidableEq K] {m m' : Mirror K A} {k : K} {taken left : Nat}

/-- The shares of an owner before and after one key changed. -/
theorem owned_replace (howner : ∀ i, i ≠ k → m'.owner i = m.owner i)
    (hshare : ∀ i, i ≠ k → m'.share i = m.share i) (a : A) :
    m'.owned a + (if m.owner k = a then m.share k else 0) =
      m.owned a + if m'.owner k = a then m'.share k else 0 := by
  apply TotalMap.sum_replace_univ k
  intro i hi
  show (if m'.owner i = a then m'.share i else 0) = if m.owner i = a then m.share i else 0
  rw [howner i hi, hshare i hi]

variable [Fintype A]

theorem Faithful.reissue (hm : m.Faithful) (h : Reissue m m' k taken left) : m'.Faithful := by
  constructor
  · intro a
    have howned := owned_replace h.owner h.share a
    have hstake := h.stake a
    have hstuck := h.stuck a
    have hbefore := hm.stakes a
    have hclosed := h.closed
    by_cases hmine : m.owner k = a
    · rw [if_pos hmine] at howned hstake hstuck
      omega
    · rw [if_neg hmine] at howned hstake hstuck
      omega
  · have hshares := TotalMap.sum_replace_univ k h.share
    have hstuck : ∑ a, m'.stuck a = (∑ a, m.stuck a) + left := by
      rw [TotalMap.sum_congr h.stuck, Finset.sum_add_distrib, Finset.sum_ite_eq,
        if_pos (Finset.mem_univ _)]
    have hsupply := h.supply
    have hbefore := hm.supplied
    have hclosed := h.closed
    omega

omit [DecidableEq K] in
/-- Nothing was issued yet. -/
theorem Faithful.of_empty (hshare : ∀ k, m.share k = 0) (hstake : ∀ a, m.stake a = 0)
    (hsupply : m.supply = 0) (hstuck : ∀ a, m.stuck a = 0) : m.Faithful := by
  constructor
  · intro a
    have howned : m.owned a = 0 := Finset.sum_eq_zero fun k _ => by rw [hshare, ite_self]
    rw [hstake, howned, hstuck]
  · rw [hsupply, TotalMap.sum_eq_zero hshare, TotalMap.sum_eq_zero hstuck]

end Mirror
