import Huski.Lib.SharePool

/-!
# The stake of a worker

Both workers keep what their positions own in the farm as shares of one stake. `shareToBalance`
and `balanceToShare` are the same function in both, and each `_removeShare` and `_addShare` is a
call of the farm next to an update of the shares, so that the two meet in a book of shares
(`Stake.book`): removing closes a holding of it and adding opens one.

Of `PancakeMasterChef.sol` there is what it keeps of the worker. A stake change pays the pending
CAKE, and a second one in the same block has none to pay.
-/

open Solidity
open scoped BigOperators

namespace Huski.Worker

/-- The id of a position, a word. -/
abbrev PositionId := Fin (2 ^ 256)

/-- The shares of a worker, and its entry in the farm. -/
structure Stake where
  shares : PositionId → Nat := fun _ => 0
  totalShare : Nat := 0
  /-- `amount` of `userInfo` -/
  amount : Nat := 0
  /-- `pendingCake` -/
  pendingCake : Nat := 0

namespace Stake

variable (s : Stake)

/-- The stake of shares; one for one where there are none. -/
def shareToBalance (share : Nat) : Result Nat :=
  if s.totalShare = 0 then .ok share
  else do
    let product ← SafeMath.mul share s.amount
    SafeMath.div product s.totalShare

/-- The shares of a stake; one for one where there are none. -/
def balanceToShare (balance : Nat) : Result Nat :=
  if s.totalShare = 0 then .ok balance
  else do
    let product ← SafeMath.mul balance s.totalShare
    SafeMath.div product s.amount

/-- `deposit` and `enterStaking`, called by the worker -/
def enter (amount : Nat) : Result Stake := do
  let total ← SafeMath.add s.amount amount
  return { s with amount := total, pendingCake := 0 }

/-- `withdraw` and `leaveStaking`, called by the worker -/
def leave (amount : Nat) : Result Stake := do
  require (amount ≤ s.amount) "withdraw: not good"
  return { s with amount := s.amount - amount, pendingCake := 0 }

/-- `shares[id] = shares[id].add(share)` and `totalShare = totalShare.add(share)` -/
def mintShare (id : PositionId) (share : Nat) : Result Stake := do
  let held ← SafeMath.add (s.shares id) share
  let totalShare ← SafeMath.add s.totalShare share
  return { s with totalShare, shares := Function.update s.shares id held }

/-- `totalShare = totalShare.sub(share)` and `shares[id] = 0` -/
def burnShare (id : PositionId) (share : Nat) : Result Stake := do
  let totalShare ← SafeMath.sub s.totalShare share
  return { s with totalShare, shares := Function.update s.shares id 0 }

/-- CAKE accrues while blocks pass. -/
def accrue (amount : Nat) : Stake := { s with pendingCake := s.pendingCake + amount }

/-- The positions and what they own. -/
def book : SharePool.Book PositionId :=
  { pool := { value := s.amount, shares := s.totalShare }, held := s.shares }

/-- What a position owns of the stake. -/
def worth (id : PositionId) : Nat := s.book.worth id

/-! ## The conversions -/

variable {s}

theorem toValue_book (share : Nat) : s.book.pool.toValue share =
    if s.totalShare = 0 then share else share * s.amount / s.totalShare := rfl

theorem toShares_book (balance : Nat) : s.book.pool.toShares balance =
    if s.totalShare = 0 then balance else balance * s.totalShare / s.amount := rfl

/-- A balance that is returned is the book's. -/
theorem shareToBalance_eq_ok {share balance : Nat} (h : s.shareToBalance share = .ok balance) :
    balance = s.book.pool.toValue share := by
  unfold shareToBalance at h
  rw [toValue_book]
  split at h
  · rename_i hnone
    rw [if_pos hnone]
    exact (Except.ok.inj h).symm
  · rename_i hsome
    simp only [bind_eq_ok, SafeMath.mul_eq_ok, SafeMath.div_eq_ok] at h
    obtain ⟨product, ⟨_, hproduct⟩, _, hbalance⟩ := h
    rw [if_neg hsome, hbalance, hproduct]

/-- Shares that are returned are the book's. -/
theorem balanceToShare_eq_ok {balance share : Nat} (h : s.balanceToShare balance = .ok share) :
    share = s.book.pool.toShares balance := by
  unfold balanceToShare at h
  rw [toShares_book]
  split at h
  · rename_i hnone
    rw [if_pos hnone]
    exact (Except.ok.inj h).symm
  · rename_i hsome
    simp only [bind_eq_ok, SafeMath.mul_eq_ok, SafeMath.div_eq_ok] at h
    obtain ⟨product, ⟨_, hproduct⟩, _, hshare⟩ := h
    rw [if_neg hsome, hshare, hproduct]

/-- The conversion of a position's shares gives their worth, unless the product is too large. -/
theorem shareToBalance_shares (id : PositionId) :
    s.shareToBalance (s.shares id) = .ok (s.worth id) ∨ wordSize ≤ s.shares id * s.amount := by
  have hworth : s.worth id = s.book.pool.toValue (s.shares id) := rfl
  rw [hworth, toValue_book]
  unfold shareToBalance
  by_cases hnone : s.totalShare = 0
  · rw [if_pos hnone, if_pos hnone]
    exact .inl rfl
  · rw [if_neg hnone, if_neg hnone]
    by_cases hlt : s.shares id * s.amount < wordSize
    · refine .inl ?_
      simp [hnone, hlt]
    · exact .inr (Nat.le_of_not_lt hlt)

/-- The conversions divide by zero never, and revert only on too large a product, while every
share is backed. -/
theorem shareToBalance_eq_error {share : Nat} {e : String}
    (h : s.shareToBalance share = .error e) : e = "SafeMath: multiplication overflow" := by
  unfold shareToBalance at h
  split at h
  · cases h
  · rename_i hsome
    rcases bind_eq_error.mp h with h | ⟨product, _, h⟩
    · exact (SafeMath.mul_eq_error.mp h).2
    · exact absurd (SafeMath.div_eq_error.mp h).1 hsome

/-- Only the product can overflow. -/
theorem balanceToShare_eq_error (hbacked : s.totalShare ≤ s.amount) {balance : Nat} {e : String}
    (h : s.balanceToShare balance = .error e) : e = "SafeMath: multiplication overflow" := by
  unfold balanceToShare at h
  split at h
  · cases h
  · rename_i hsome
    rcases bind_eq_error.mp h with h | ⟨product, _, h⟩
    · exact (SafeMath.mul_eq_error.mp h).2
    · have := (SafeMath.div_eq_error.mp h).1
      omega

/-! ## What the parts of an operation do to the book -/

variable {s' : Stake} {amount : Nat}

theorem enter_eq_ok (h : s.enter amount = .ok s') :
    s' = { s with amount := s.amount + amount, pendingCake := 0 } := by
  simp only [enter, bind_eq_ok, SafeMath.add_eq_ok, pure_eq_ok] at h
  obtain ⟨_, ⟨_, rfl⟩, rfl⟩ := h
  rfl

theorem leave_eq_ok (h : s.leave amount = .ok s') :
    amount ≤ s.amount ∧ s' = { s with amount := s.amount - amount, pendingCake := 0 } := by
  simp only [leave, bind_eq_ok, require_eq_ok, pure_eq_ok] at h
  obtain ⟨_, hle, rfl⟩ := h
  exact ⟨hle, rfl⟩

theorem mintShare_eq_ok {id : PositionId} {share : Nat} (h : s.mintShare id share = .ok s') :
    s' = { s with
      totalShare := s.totalShare + share
      shares := Function.update s.shares id (s.shares id + share) } := by
  simp only [mintShare, bind_eq_ok, SafeMath.add_eq_ok, pure_eq_ok] at h
  obtain ⟨_, ⟨_, rfl⟩, _, ⟨_, rfl⟩, rfl⟩ := h
  rfl

theorem burnShare_eq_ok {id : PositionId} {share : Nat} (h : s.burnShare id share = .ok s') :
    s' = { s with
      totalShare := s.totalShare - share
      shares := Function.update s.shares id 0 } := by
  simp only [burnShare, bind_eq_ok, SafeMath.sub_eq_ok, pure_eq_ok] at h
  obtain ⟨_, ⟨_, rfl⟩, rfl⟩ := h
  rfl

@[simp] theorem book_accrue (n : Nat) : (s.accrue n).book = s.book := rfl

end Stake

/-- A stake whose shares are those of its positions and are backed one by one. -/
abbrev Stake.Covered (s : Stake) : Prop := s.book.Covered

theorem Stake.covered_empty : Stake.Covered {} :=
  ⟨TotalMap.sum_zero (fun _ : PositionId => 0) id fun _ => rfl, Nat.le_refl _⟩

end Huski.Worker
