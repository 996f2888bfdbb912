import Huski.Lib.RewardShare
import Huski.Lib.TotalMap

/-!
# A book of rewards

Pools spread rewards over the amounts of their accounts, each through an accumulator, and all of
them pay from one fund. The claims are kept exact, in parts of a reward. What a payment rounds off
stays in the fund; but the debt of a changed amount is rounded off too, in favour of its account,
and nothing is put into the fund for that. So the fund falls short by less than one for each change.
-/

open scoped BigOperators

/-- The pools, their accumulators and entries, and the fund. -/
structure RewardBook (P A : Type) where
  pools : Finset P
  acc : P → Nat
  amount : P → A → Nat
  debt : P → A → Nat
  fund : Nat

namespace RewardBook

variable {P A : Type}

section Entries

variable [DecidableEq P] [DecidableEq A]

/-- A pool's sum per share grows, and so does the fund. -/
def accrue (b : RewardBook P A) (p : P) (delta reward : Nat) : RewardBook P A :=
  { b with acc := Function.update b.acc p (b.acc p + delta), fund := b.fund + reward }

/-- One stake and its debt are written. -/
def setEntry (b : RewardBook P A) (p : P) (a : A) (amount debt : Nat) : RewardBook P A :=
  { b with
    amount := Function.update b.amount p (Function.update (b.amount p) a amount)
    debt := Function.update b.debt p (Function.update (b.debt p) a debt) }

/-- A stake is paid and settled at the pool's present sum. -/
def settle (unit : Nat) (b : RewardBook P A) (p : P) (a : A) (amount paid : Nat) : RewardBook P A :=
  { b.setEntry p a amount (amount * b.acc p / unit) with fund := b.fund - paid }

/-- A pool without stake. -/
def addPool (b : RewardBook P A) (p : P) : RewardBook P A :=
  { b with pools := insert p b.pools, acc := Function.update b.acc p 0 }

/-- The fund grows for no pool. -/
def gain (b : RewardBook P A) (extra : Nat) : RewardBook P A := { b with fund := b.fund + extra }

end Entries

variable (unit : Nat)

/-- What an account may be paid. -/
def pending (b : RewardBook P A) (p : P) (a : A) : Nat :=
  b.amount p a * b.acc p / unit - b.debt p a

/-- The same without rounding, in parts. -/
def claim (b : RewardBook P A) (p : P) (a : A) : Nat :=
  b.amount p a * b.acc p - b.debt p a * unit

/-- Whether the debt of an amount is newly rounded off. -/
def dust (old new : Nat) : Nat := if new = old ∨ new = 0 then 0 else 1

variable [Fintype A]

/-- The stakes of a pool. -/
def staked (b : RewardBook P A) (p : P) : Nat := ∑ a, b.amount p a

/-- The claims on a pool. -/
def poolOwed (b : RewardBook P A) (p : P) : Nat := ∑ a, b.claim unit p a

/-- The claims on all pools. -/
def owed (b : RewardBook P A) : Nat := ∑ p ∈ b.pools, b.poolOwed unit p

/-- No debt is above what its amount earned, and nobody is in a pool that is not there. -/
structure Sound (b : RewardBook P A) : Prop where
  debts : ∀ p a, b.debt p a * unit ≤ b.amount p a * b.acc p
  listed : ∀ p, p ∉ b.pools → ∀ a, b.amount p a = 0 ∧ b.debt p a = 0

/-- The fund is short by less than one for each of `n` changes. -/
structure Covers (n : Nat) (b : RewardBook P A) : Prop where
  sound : b.Sound unit
  covered : b.owed unit ≤ b.fund * unit + n * (unit - 1)

variable [DecidableEq P] [DecidableEq A]

/-- What may happen to a book, with the number of changes. -/
inductive Step : Nat → RewardBook P A → RewardBook P A → Prop
  /-- a reward is put into the fund and spread, rounded down -/
  | accrue {b} (p : P) (delta reward : Nat) (hp : p ∈ b.pools)
      (hshares : b.staked p * delta ≤ reward * unit) : Step 0 b (b.accrue p delta reward)
  /-- an account is paid, at most what is pending, and gets a new amount -/
  | settle {b} (p : P) (a : A) (amount paid : Nat) (hp : p ∈ b.pools)
      (hpaid : paid ≤ b.pending unit p a) (hfund : paid ≤ b.fund) :
      Step (dust (b.amount p a) amount) b (b.settle unit p a amount paid)
  /-- an account leaves its reward -/
  | clear {b} (p : P) (a : A) (hp : p ∈ b.pools) : Step 0 b (b.setEntry p a 0 0)
  | addPool {b} (p : P) (hp : p ∉ b.pools) : Step 0 b (b.addPool p)
  | gain {b} (extra : Nat) : Step 0 b (b.gain extra)

/-- Steps in a row. -/
inductive Steps : Nat → RewardBook P A → RewardBook P A → Prop
  | refl {b} : Steps 0 b b
  | tail {b b₁ b' m n} : Steps m b b₁ → Step unit n b₁ b' → Steps (m + n) b b'

section Claims

variable {unit} {b b' : RewardBook P A} {p : P} {a : A} {n : Nat}

omit [Fintype A] [DecidableEq P] [DecidableEq A] in
theorem pending_mul_le_claim (b : RewardBook P A) (p : P) (a : A) :
    b.pending unit p a * unit ≤ b.claim unit p a :=
  RewardShare.floor_claim_le _ _

omit [Fintype A] [DecidableEq P] [DecidableEq A] in
theorem claim_congr (hamount : b'.amount p a = b.amount p a) (hdebt : b'.debt p a = b.debt p a)
    (hacc : b'.acc p = b.acc p) : b'.claim unit p a = b.claim unit p a := by
  unfold claim
  rw [hamount, hdebt, hacc]

omit [DecidableEq P] [DecidableEq A] in
/-- All that is pending is within what is owed. -/
theorem sum_pending_mul_le (b : RewardBook P A) :
    (∑ p ∈ b.pools, ∑ a, b.pending unit p a) * unit ≤ b.owed unit := by
  rw [Finset.sum_mul]
  refine Finset.sum_le_sum ?_
  intro p _
  exact TotalMap.sum_mul_le (b.pending_mul_le_claim p)

omit [DecidableEq P] [DecidableEq A] in
/-- With `n` changes, what could be paid exceeds the fund by less than `n`. -/
theorem Covers.sum_pending_le (h : Covers unit n b) (hunit : 0 < unit) :
    ∑ p ∈ b.pools, ∑ a, b.pending unit p a ≤ b.fund + (n - 1) := by
  have hpending := b.sum_pending_mul_le.trans h.covered
  rcases Nat.eq_zero_or_pos n with rfl | hn
  · rw [Nat.zero_mul, Nat.add_zero] at hpending
    exact Nat.le_of_mul_le_mul_right hpending hunit
  · have hlt : (∑ p ∈ b.pools, ∑ a, b.pending unit p a) * unit < (b.fund + n) * unit := by
      refine lt_of_le_of_lt hpending ?_
      rw [Nat.add_mul]
      exact Nat.add_lt_add_left (Nat.mul_lt_mul_of_pos_left (by omega) hn) _
    have := Nat.lt_of_mul_lt_mul_right hlt
    omega

omit [DecidableEq P] [DecidableEq A] in
theorem Covers.mono {n' : Nat} (h : Covers unit n b) (hle : n ≤ n') : Covers unit n' b where
  sound := h.sound
  covered := h.covered.trans (Nat.add_le_add_left (Nat.mul_le_mul_right _ hle) _)

end Claims

section Steps

variable {unit} {b b' : RewardBook P A} {p : P} {a : A} {m n delta reward amount paid : Nat}

omit [Fintype A] [DecidableEq A] in
theorem acc_accrue_self : (b.accrue p delta reward).acc p = b.acc p + delta :=
  Function.update_self _ _ _

omit [Fintype A] [DecidableEq A] in
theorem acc_accrue_of_ne {q : P} (hq : q ≠ p) : (b.accrue p delta reward).acc q = b.acc q :=
  Function.update_of_ne hq _ _

omit [Fintype A] in
theorem amount_setEntry {debt : Nat} (q : P) (c : A) : (b.setEntry p a amount debt).amount q c =
    if q = p ∧ c = a then amount else b.amount q c := by
  unfold setEntry
  by_cases hq : q = p
  · subst hq
    by_cases hc : c = a
    · simp [hc]
    · simp [hc]
  · simp [hq]

omit [Fintype A] in
theorem debt_setEntry {debt : Nat} (q : P) (c : A) : (b.setEntry p a amount debt).debt q c =
    if q = p ∧ c = a then debt else b.debt q c := by
  unfold setEntry
  by_cases hq : q = p
  · subst hq
    by_cases hc : c = a
    · simp [hc]
    · simp [hc]
  · simp [hq]

omit [Fintype A] [DecidableEq A] in
/-- Accruing keeps the debts below their stakes' worth. -/
theorem Sound.accrue (h : b.Sound unit) : (b.accrue p delta reward).Sound unit where
  debts q c := by
    by_cases hq : q = p
    · subst hq
      rw [acc_accrue_self, Nat.mul_add]
      exact (h.debts q c).trans (Nat.le_add_right _ _)
    · rw [acc_accrue_of_ne hq]
      exact h.debts q c
  listed := h.listed

omit [DecidableEq A] in
/-- Accruing adds to the claims of the pool's stakes. -/
theorem owed_accrue (h : b.Sound unit) (hp : p ∈ b.pools) :
    (b.accrue p delta reward).owed unit = b.owed unit + b.staked p * delta := by
  have hother : ∀ q ∈ b.pools, q ≠ p →
      (b.accrue p delta reward).poolOwed unit q = b.poolOwed unit q := by
    intro q _ hq
    exact TotalMap.sum_congr fun c => claim_congr rfl rfl (acc_accrue_of_ne hq)
  have hself : (b.accrue p delta reward).poolOwed unit p =
      b.poolOwed unit p + b.staked p * delta := by
    refine TotalMap.sum_add_mul ?_
    intro c
    unfold claim
    rw [acc_accrue_self]
    exact RewardShare.claim_accrue (h.debts p c)
  have hsum := TotalMap.sum_replace hp hother
  show ∑ q ∈ b.pools, _ = _
  unfold owed
  omega

omit [Fintype A] in
/-- An entry whose debt is at most what its amount earned. -/
theorem Sound.setEntry (h : b.Sound unit) (hp : p ∈ b.pools) {debt : Nat}
    (hdebt : debt * unit ≤ amount * b.acc p) : (b.setEntry p a amount debt).Sound unit where
  debts q c := by
    rw [amount_setEntry, debt_setEntry]
    show _ ≤ _ * b.acc q
    split
    · rename_i hself
      rw [hself.1]
      exact hdebt
    · exact h.debts q c
  listed q hq c := by
    have hne : ¬(q = p ∧ c = a) := fun hself => hq (hself.1 ▸ hp)
    rw [amount_setEntry, debt_setEntry, if_neg hne, if_neg hne]
    exact h.listed q hq c

/-- One claim is replaced. -/
theorem owed_setEntry (unit : Nat) (hp : p ∈ b.pools) (a : A) (amount debt : Nat) :
    (b.setEntry p a amount debt).owed unit + b.claim unit p a =
      b.owed unit + (amount * b.acc p - debt * unit) := by
  have hclaim : ∀ q c, ¬(q = p ∧ c = a) →
      (b.setEntry p a amount debt).claim unit q c = b.claim unit q c := by
    intro q c hne
    refine claim_congr ?_ ?_ rfl
    · rw [amount_setEntry, if_neg hne]
    · rw [debt_setEntry, if_neg hne]
  have hnew : (b.setEntry p a amount debt).claim unit p a = amount * b.acc p - debt * unit := by
    unfold claim
    rw [amount_setEntry, debt_setEntry, if_pos ⟨rfl, rfl⟩, if_pos ⟨rfl, rfl⟩]
    rfl
  have hpool : (b.setEntry p a amount debt).poolOwed unit p + b.claim unit p a =
      b.poolOwed unit p + (b.setEntry p a amount debt).claim unit p a :=
    TotalMap.sum_replace_univ a fun c hc => hclaim p c fun hself => hc hself.2
  have hsum : (∑ q ∈ b.pools, (b.setEntry p a amount debt).poolOwed unit q) + b.poolOwed unit p =
      (∑ q ∈ b.pools, b.poolOwed unit q) + (b.setEntry p a amount debt).poolOwed unit p :=
    TotalMap.sum_replace hp fun q _ hq =>
      TotalMap.sum_congr fun c => hclaim q c fun hself => hq hself.1
  rw [hnew] at hpool
  show (∑ q ∈ b.pools, _) + _ = _
  unfold owed
  omega

/-- The remainder of a new amount is part of a unit, of the old amount it was paid for. -/
theorem mod_le_dust (hunit : 0 < unit) (acc old new : Nat) :
    new * acc % unit ≤ old * acc % unit + dust old new * (unit - 1) := by
  unfold dust
  split
  · rename_i hkept
    rcases hkept with rfl | rfl
    · exact Nat.le_add_right _ _
    · simp
  · have := Nat.mod_lt (new * acc) hunit
    omega

/-- Settling costs no more than the rounding of two products. -/
theorem Covers.settle (hunit : 0 < unit) (h : Covers unit m b) (hp : p ∈ b.pools)
    (hpaid : paid ≤ b.pending unit p a) (hfund : paid ≤ b.fund) :
    Covers unit (m + dust (b.amount p a) amount) (b.settle unit p a amount paid) := by
  have hrounded : amount * b.acc p / unit * unit ≤ amount * b.acc p := Nat.div_mul_le_self _ _
  have hsound : (b.setEntry p a amount (amount * b.acc p / unit)).Sound unit :=
    h.sound.setEntry hp hrounded
  refine ⟨⟨hsound.debts, hsound.listed⟩, ?_⟩
  have hreplaced := owed_setEntry unit hp a amount (amount * b.acc p / unit)
  rw [RewardShare.settled_claim] at hreplaced
  -- the claim is what is pending and the remainder, which the payment leaves in the fund
  have hsplit : b.pending unit p a * unit + b.amount p a * b.acc p % unit = b.claim unit p a := by
    refine RewardShare.floor_claim_add_mod ?_
    exact (Nat.le_div_iff_mul_le hunit).mpr (h.sound.debts p a)
  have hmod := mod_le_dust hunit (b.acc p) (b.amount p a) amount
  have hcovered := h.covered
  have hless := Nat.mul_le_mul_right unit hpaid
  show (b.setEntry p a amount (amount * b.acc p / unit)).owed unit ≤ (b.fund - paid) * unit + _
  rw [Nat.sub_mul, Nat.add_mul]
  have hbelow := Nat.mul_le_mul_right unit hfund
  omega

omit [DecidableEq A] in
theorem Covers.addPool (h : Covers unit m b) (hp : p ∉ b.pools) :
    Covers unit m (b.addPool p) := by
  have hother : ∀ q ∈ b.pools, (b.addPool p).acc q = b.acc q := by
    intro q hq
    refine Function.update_of_ne ?_ _ _
    rintro rfl
    exact hp hq
  -- nobody has a stake in the new pool, so it owes nothing
  have hempty : (b.addPool p).poolOwed unit p = 0 := by
    refine TotalMap.sum_eq_zero ?_
    intro c
    show b.amount p c * _ - b.debt p c * unit = 0
    rw [(h.sound.listed p hp c).1, Nat.zero_mul, Nat.zero_sub]
  refine ⟨⟨?_, ?_⟩, ?_⟩
  · intro q c
    by_cases hq : q ∈ b.pools
    · rw [hother q hq]
      exact h.sound.debts q c
    · show b.debt q c * unit ≤ b.amount q c * _
      rw [(h.sound.listed q hq c).2, Nat.zero_mul]
      exact Nat.zero_le _
  · intro q hq c
    exact h.sound.listed q (fun hold => hq (Finset.mem_insert_of_mem hold)) c
  · have hsame : (b.addPool p).owed unit = b.owed unit := by
      unfold owed
      show ∑ q ∈ insert p b.pools, _ = _
      rw [Finset.sum_insert hp, hempty, Nat.zero_add]
      -- the other pools owe what they owed
      refine Finset.sum_congr rfl ?_
      intro q hq
      exact TotalMap.sum_congr fun c => claim_congr rfl rfl (hother q hq)
    rw [hsame]
    exact h.covered

/-- A step is covered, with its changes. -/
theorem Step.covers (hunit : 0 < unit) (h : Covers unit m b) (hstep : Step unit n b b') :
    Covers unit (m + n) b' := by
  cases hstep with
  | accrue p delta reward hp hshares =>
      refine ⟨h.sound.accrue, ?_⟩
      rw [owed_accrue h.sound hp]
      have hcovered := h.covered
      show _ ≤ (b.fund + reward) * unit + m * (unit - 1)
      rw [Nat.add_mul]
      omega
  | settle p a amount paid hp hpaid hfund => exact h.settle hunit hp hpaid hfund
  | clear p a hp =>
      refine ⟨h.sound.setEntry hp (by omega), ?_⟩
      have hreplaced := owed_setEntry unit hp a 0 0
      have hcovered := h.covered
      show (b.setEntry p a 0 0).owed unit ≤ b.fund * unit + m * (unit - 1)
      rw [Nat.zero_mul, Nat.zero_mul, Nat.sub_zero] at hreplaced
      omega
  | addPool p hp => exact h.addPool hp
  | gain extra =>
      refine ⟨⟨h.sound.debts, h.sound.listed⟩, ?_⟩
      have hcovered := h.covered
      show b.owed unit ≤ (b.fund + extra) * unit + m * (unit - 1)
      rw [Nat.add_mul]
      omega

/-- Over several steps the rounding adds up. -/
theorem Steps.covers (hunit : 0 < unit) (h : Covers unit m b) (hsteps : Steps unit n b b') :
    Covers unit (m + n) b' := by
  induction hsteps with
  | refl => exact h
  | tail _ hstep ih =>
      rw [← Nat.add_assoc]
      exact hstep.covers hunit (ih h)

theorem Steps.single (hstep : Step unit n b b') : Steps unit n b b' := by
  have := Steps.tail (.refl (b := b)) hstep
  rwa [Nat.zero_add] at this

end Steps

end RewardBook
