import Mathlib

/-!
# Snapshots of a value

A value that changes over time, kept as the stamps of its changes and what it was from each on.
The value as of a time is that of the last snapshot at or before it. A new snapshot, or another
value for the last one, leaves alone what the value was before.
-/

namespace Snapshots

variable {V : Type} {stamp stamp' : Nat → Nat} {value value' : Nat → V} {start : V}
  {count n i j : Nat}

/-- The value as of `n` of the first `count` snapshots; it starts as `start`. -/
def asOf (stamp : Nat → Nat) (value : Nat → V) (start : V) (n : Nat) : Nat → V
  | 0 => start
  | count + 1 => if stamp count ≤ n then value count else asOf stamp value start n count

/-- The first `count` stamps are positive and increase. -/
structure Stamped (stamp : Nat → Nat) (count : Nat) : Prop where
  pos : ∀ i, i < count → 0 < stamp i
  lt : ∀ i j, i < j → j < count → stamp i < stamp j

theorem asOf_eq_value (hi : i < count) (hle : stamp i ≤ n)
    (hafter : ∀ j, i < j → j < count → n < stamp j) :
    asOf stamp value start n count = value i := by
  induction count with
  | zero => exact absurd hi (Nat.not_lt_zero i)
  | succ k ih =>
      unfold asOf
      rcases Nat.lt_succ_iff_lt_or_eq.mp hi with hlt | rfl
      · rw [if_neg (Nat.not_le.mpr (hafter k hlt (Nat.lt_succ_self k)))]
        exact ih hlt fun j hij hj => hafter j hij (Nat.lt_succ_of_lt hj)
      · rw [if_pos hle]

theorem asOf_eq_start (hafter : ∀ i, i < count → n < stamp i) :
    asOf stamp value start n count = start := by
  induction count with
  | zero => rfl
  | succ k ih =>
      unfold asOf
      rw [if_neg (Nat.not_le.mpr (hafter k (Nat.lt_succ_self k)))]
      exact ih fun i hi => hafter i (Nat.lt_succ_of_lt hi)

theorem asOf_congr (hstamp : ∀ i, i < count → stamp' i = stamp i)
    (hvalue : ∀ i, i < count → value' i = value i) :
    asOf stamp' value' start n count = asOf stamp value start n count := by
  induction count with
  | zero => rfl
  | succ k ih =>
      unfold asOf
      rw [hstamp k (Nat.lt_succ_self k), hvalue k (Nat.lt_succ_self k),
        ih (fun i hi => hstamp i (Nat.lt_succ_of_lt hi))
          fun i hi => hvalue i (Nat.lt_succ_of_lt hi)]

/-- What the last snapshot says does not count before it. -/
theorem asOf_before (hlast : n < stamp count) :
    asOf stamp value start n (count + 1) = asOf stamp value start n count :=
  if_neg (Nat.not_le.mpr hlast)

namespace Stamped

theorem congr (h : Stamped stamp count) (hstamp : ∀ i, i < count → stamp' i = stamp i) :
    Stamped stamp' count where
  pos i hi := hstamp i hi ▸ h.pos i hi
  lt i j hij hj := by
    rw [hstamp i (hij.trans hj), hstamp j hj]
    exact h.lt i j hij hj

/-- One snapshot more, after the others. -/
theorem succ (h : Stamped stamp count) (hpos : 0 < stamp count)
    (hlast : ∀ i, i < count → stamp i < stamp count) : Stamped stamp (count + 1) where
  pos i hi := by
    rcases Nat.lt_succ_iff_lt_or_eq.mp hi with hlt | rfl
    · exact h.pos i hlt
    · exact hpos
  lt i j hij hj := by
    rcases Nat.lt_succ_iff_lt_or_eq.mp hj with hlt | rfl
    · exact h.lt i j hij hlt
    · exact hlast i hij

/-- Times pass at least as fast as snapshots are taken. -/
theorem lt_stamp (h : Stamped stamp count) (hi : i < count) : i < stamp i := by
  induction i with
  | zero => exact h.pos 0 hi
  | succ k ih =>
      have hstep := h.lt k (k + 1) (Nat.lt_succ_self k) hi
      exact Nat.lt_of_le_of_lt (ih (Nat.lt_of_succ_lt hi)) hstep

/-- If one is after a time, the later ones are. -/
theorem after (h : Stamped stamp count) (hlt : n < stamp i) (hij : i ≤ j) (hj : j < count) :
    n < stamp j := by
  rcases Nat.lt_or_eq_of_le hij with hij | rfl
  · exact hlt.trans (h.lt i j hij hj)
  · exact hlt

end Stamped

end Snapshots
