import Huski.Worker.PancakeswapV2

/-!
# Fairness of the LP worker

Every transaction is one step of the book of shares: `work` closes the holding of its position and
opens it again for what the strategy sends back, `liquidate` closes it, and `reinvest` is a gain for
all the holders. The rest is about such books.
-/

open Solidity
open scoped BigOperators

namespace Huski.Worker.PancakeswapV2

open SharePool (Book)

variable {s s' : State} {id : PositionId}

/-! ## The effect of the parts on the book -/

namespace State

@[simp] theorem stake_sendAll (token : Address) : (s.sendAll token).stake = s.stake := rfl

@[simp] theorem stake_sendLp : s.sendLp.stake = s.stake := rfl

theorem stake_safeTransfer {token : Address} {amount : Nat}
    (h : s.safeTransfer token amount = .ok s') : s'.stake = s.stake := by
  simp only [safeTransfer, bind_eq_ok, pure_eq_ok] at h
  obtain ⟨_, _, rfl⟩ := h
  rfl

theorem stake_payBounty {bounty : Nat} (h : s.payBounty bounty = .ok s') : s'.stake = s.stake := by
  unfold payBounty at h
  split at h
  · exact stake_safeTransfer h
  · cases h
    rfl

theorem stake_execute {o : Outside} (h : s.execute o = .ok s') : s'.stake = s.stake := by
  unfold execute at h
  split at h
  · cases h
    rfl
  · cases h

theorem stake_swap {o : Outside} {amount : Nat} (h : s.swap o amount = .ok s') :
    s'.stake = s.stake := by
  simp only [swap, bind_eq_ok] at h
  obtain ⟨_, _, s₁, hpay, h⟩ := h
  rw [← stake_safeTransfer hpay]
  split at h
  · cases h
    rfl
  · cases h

/-- Unstaking takes LP tokens out of the farm. -/
theorem stake_withdraw {amount : Nat} (h : s.withdraw amount = .ok s') :
    s.stake.leave amount = .ok s'.stake := by
  simp only [withdraw, bind_eq_ok, pure_eq_ok] at h
  obtain ⟨stake, hleave, rfl⟩ := h
  exact hleave

/-- Staking brings LP tokens into the farm. -/
theorem stake_deposit {amount : Nat} (h : s.deposit amount = .ok s') :
    s.stake.enter amount = .ok s'.stake := by
  simp only [deposit, bind_eq_ok, pure_eq_ok] at h
  obtain ⟨_, _, _, _, stake, henter, rfl⟩ := h
  exact henter

/-- LP tokens staked without shares are a gain of every share. -/
theorem book_deposit {amount : Nat} (h : s.deposit amount = .ok s') :
    s'.stake.book = s.stake.book.gain amount := by
  rw [Stake.enter_eq_ok (stake_deposit h)]
  rfl

/-- Unstaking redeems the position's shares. -/
theorem book_removeShare (h : s.removeShare id = .ok s') :
    s'.stake.book = s.stake.book.redeemAll id := by
  unfold removeShare at h
  dsimp only at h
  split at h
  · simp only [bind_eq_ok, pure_eq_ok] at h
    obtain ⟨balance, hbalance, s₁, hwithdraw, stake, hburn, rfl⟩ := h
    have hleave := (Stake.leave_eq_ok (stake_withdraw hwithdraw)).2
    have hburn := Stake.burnShare_eq_ok hburn
    rw [hburn, hleave, Stake.shareToBalance_eq_ok hbalance]
    rfl
  · rename_i hnone
    cases h
    exact (SharePool.Book.redeemAll_of_none (Nat.eq_zero_of_not_pos hnone)).symm

/-- Staking issues shares for all LP tokens that are here. -/
theorem book_addShare (h : s.addShare id = .ok s') :
    s'.stake.book = s.stake.book.issueTo id s.lpBalance := by
  unfold addShare at h
  dsimp only at h
  split at h
  · simp only [bind_eq_ok, pure_eq_ok] at h
    obtain ⟨share, hshare, s₁, hdeposit, stake, hmint, rfl⟩ := h
    have henter := Stake.enter_eq_ok (stake_deposit hdeposit)
    have hmint := Stake.mintShare_eq_ok hmint
    rw [hmint, henter, Stake.balanceToShare_eq_ok hshare]
    rfl
  · rename_i hnone
    cases h
    rw [Nat.eq_zero_of_not_pos hnone, SharePool.Book.issueTo_zero]

/-! ## The operations as steps of the book -/

/-- A work changes the shares of its position only. -/
theorem work_step {sender strat : Address} {o : Outside} (h : s.work sender o id strat = .ok s') :
    Book.Step (some id) s.stake.book s'.stake.book := by
  simp only [work, bind_eq_ok, pure_eq_ok] at h
  obtain ⟨_, _, s₁, hremove, _, _, s₂, hexecute, s₃, hadd, rfl⟩ := h
  have hexecute : s₂.stake = (s₁.sendLp.sendAll s₁.baseToken).stake := stake_execute hexecute
  have hbook : s₃.stake.book = (s.stake.book.redeemAll id).issueTo id s₂.lpBalance := by
    rw [book_addShare hadd, hexecute, stake_sendAll, stake_sendLp, book_removeShare hremove]
  rw [stake_sendAll, hbook]
  exact .reopen _ id _

/-- A liquidation changes the shares of its position only. -/
theorem liquidate_step {sender : Address} {o : Outside} (h : s.liquidate sender o id = .ok s') :
    Book.Step (some id) s.stake.book s'.stake.book := by
  simp only [liquidate, bind_eq_ok, pure_eq_ok] at h
  obtain ⟨_, _, s₁, hremove, s₂, hexecute, rfl⟩ := h
  have hexecute : s₂.stake = s₁.sendLp.stake := stake_execute hexecute
  rw [stake_sendAll, hexecute, stake_sendLp, book_removeShare hremove]
  exact .close _ id

theorem reinvestReward_step {o : Outside} {reward : Nat}
    (h : s.reinvestReward o reward = .ok s') : Book.Step none s.stake.book s'.stake.book := by
  simp only [reinvestReward, bind_eq_ok, pure_eq_ok] at h
  obtain ⟨product, _, s₁, hbounty, left, _, s₂, hswap, s₃, hexecute, s₄, hdeposit, rfl⟩ := h
  have hexecute : s₃.stake = (s₂.sendAll s₂.baseToken).stake := stake_execute hexecute
  have hbook : s₄.stake.book = s.stake.book.gain s₃.lpBalance := by
    rw [book_deposit hdeposit, hexecute, stake_sendAll, stake_swap hswap, stake_payBounty hbounty]
  change Book.Step none s.stake.book s₄.stake.book
  rw [hbook]
  exact .gain _ _

/-- A reinvestment changes no position's shares. -/
theorem reinvest_step {sender origin : Address} {o : Outside}
    (h : s.reinvest sender origin o = .ok s') : Book.Step none s.stake.book s'.stake.book := by
  simp only [reinvest, bind_eq_ok] at h
  obtain ⟨_, _, s₁, hwithdraw, h⟩ := h
  have hsame : s₁.stake.book = s.stake.book := by
    rw [(Stake.leave_eq_ok (stake_withdraw hwithdraw)).2]
    rfl
  rw [← hsame]
  split at h
  · cases h
    exact .keep _
  · exact reinvestReward_step h

end State

/-- A transaction is a step of the book, on the holding of its position. -/
theorem exec_step {tx : Tx} (h : exec s tx = .ok s') :
    Book.Step tx.op.position s.stake.book s'.stake.book := by
  rcases tx with ⟨sender, origin, o, op⟩
  change Book.Step op.position (s.accrue o.accrued).stake.book s'.stake.book
  unfold exec at h
  cases op with
  | work id strat => exact State.work_step (s := s.accrue o.accrued) h
  | liquidate id => exact State.liquidate_step (s := s.accrue o.accrued) h
  | reinvest => exact State.reinvest_step (s := s.accrue o.accrued) h
  | config op =>
      simp only [bind_eq_ok, pure_eq_ok] at h
      obtain ⟨_, _, rfl⟩ := h
      exact .keep _
  | receiveLp amount =>
      cases h
      exact .keep _
  | receive token amount =>
      cases h
      exact .keep _

/-! ## Runs -/

/-- The shares sum up to the total in every state of a run. -/
theorem covered_inductive : machine.Inductive (fun _ _ => True) fun s => s.stake.Covered where
  init := by
    rintro s ⟨owner, operator, baseToken, cake, addStrat, liqStrat, bps, lp, balanceOf, h⟩
    simp only [initState, bind_eq_ok, pure_eq_ok] at h
    obtain ⟨_, _, rfl⟩ := h
    exact Stake.covered_empty
  step s tx s' hs _ hstep := (exec_step hstep).covered hs

/-- In every reachable state the shares add up and are backed, no conversion divides by zero, the
positions' worth is there, and no transaction lowers the worth of a position it is not on. -/
theorem shares_of_reachable (hreach : machine.Reachable s) :
    ∑ id, s.stake.shares id = s.stake.totalShare ∧
    s.stake.totalShare ≤ s.stake.amount ∧
    (∀ x, s.stake.shareToBalance x ≠ .error "SafeMath: division by zero" ∧
      s.stake.balanceToShare x ≠ .error "SafeMath: division by zero") ∧
    (∀ id, s.stake.shareToBalance (s.stake.shares id) = .ok (s.stake.worth id) ∨
      wordSize ≤ s.stake.shares id * s.stake.amount) ∧
    ∑ id, s.stake.worth id ≤ s.stake.amount ∧
    ∀ tx s', exec s tx = .ok s' → ∀ j, tx.op.position ≠ some j →
      s.stake.worth j ≤ s'.stake.worth j := by
  have hcovered : s.stake.Covered := covered_inductive.invariant hreach
  refine ⟨hcovered.total, hcovered.backed, fun x => ⟨?_, ?_⟩, Stake.shareToBalance_shares,
    hcovered.sum_worth_le, fun tx s' hstep j hj => ?_⟩
  · exact fun h => absurd (Stake.shareToBalance_eq_error h) (by decide)
  · exact fun h => absurd (Stake.balanceToShare_eq_error hcovered.backed h) (by decide)
  · exact (exec_step hstep).worth_le hcovered hj

/-- Owner 1, operator 2, base token 3, CAKE 4 and the strategies 5 and 6. -/
def freshWorker : State where
  config :=
    { owner := 1
      operator := 2
      okStrats := Function.update (Function.update (fun _ => false) 5 true) 6 true
      addStrat := 5
      liqStrat := 6
      reinvestBountyBps := 100
      maxReinvestBountyBps := 500 }
  baseToken := 3
  cake := 4
  lpBalance := 0
  balanceOf := fun _ => 0

theorem freshWorker_init : machine.init freshWorker :=
  ⟨1, 2, 3, 4, 5, 6, 100, 0, fun _ => 0, rfl⟩

/-- A position of 1000 LP tokens, and 50 more from a reward. -/
def firstPosition : List Tx :=
  [{ sender := 1, origin := 1, op := .config (.setReinvestorOk [7] true) },
   { sender := 2, origin := 8, outside := { execute := some { lp := 1000 } }, op := .work 1 5 },
   { sender := 7, origin := 7, outside :=
       { accrued := 500, swap := some 40, execute := some { lp := 50 } }, op := .reinvest }]

/-- A second position. -/
def secondPosition : Tx where
  sender := 2
  origin := 9
  outside := { execute := some { lp := 333 } }
  op := .work 2 5

theorem shares_of_secondPosition : ∃ s s' : State, machine.Reachable s ∧
    exec s secondPosition = .ok s' ∧ s.stake.worth 1 = 1050 ∧
    s.stake.worth 1 ≤ s'.stake.worth 1 := by
  have hrun : machine.lastStep freshWorker firstPosition secondPosition
      (fun s _ => s.stake.worth 1 = 1050) = true := by
    decide +kernel
  obtain ⟨s, s', hreach, hstep, hworth⟩ := TSys.lastStep_reachable freshWorker_init hrun
  obtain ⟨-, -, -, -, -, hfair⟩ := shares_of_reachable hreach
  exact ⟨s, s', hreach, hstep, of_decide_eq_true hworth,
    hfair secondPosition s' hstep 1 (by decide)⟩

end Huski.Worker.PancakeswapV2
