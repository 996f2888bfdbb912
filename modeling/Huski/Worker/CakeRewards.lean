import Huski.Worker.CakeMaxi

/-!
# Rewards and principal of the CAKE worker

Every stake change pays the pending CAKE, and the worker counts it in `rewardBalance` right before:
the two together only change by what accrues, and the rest of its CAKE is principal (`Keeps`). On
the shares a transaction is one step of the book, as for the LP worker.
-/

open Solidity
open scoped BigOperators

namespace Huski.Worker.CakeMaxi

open SharePool (Book)

variable {s s' s₁ : State} {id : PositionId} {amount : Nat}

namespace State

/-- Only principal has been spent. -/
def Frugal (s : State) : Prop := ∀ x ∈ s.spendings, x.amount + x.reward ≤ x.balance

/-- A part of an operation that leaves the rewards to the worker: what the farm has paid of them is
counted, and the worker holds what it counts. -/
structure Keeps (s s' : State) : Prop where
  rewards : s'.rewardBalance + s'.stake.pendingCake = s.rewardBalance + s.stake.pendingCake
  held : s.rewardBalance ≤ s.farmingBalance → s'.rewardBalance ≤ s'.farmingBalance
  frugal : s.Frugal → s'.Frugal

theorem Keeps.refl (s : State) : s.Keeps s := ⟨rfl, id, id⟩

theorem Keeps.trans (h : s.Keeps s₁) (h' : s₁.Keeps s') : s.Keeps s' :=
  ⟨h'.rewards.trans h.rewards, fun hs => h'.held (h.held hs), fun hs => h'.frugal (h.frugal hs)⟩

@[simp] theorem stake_sendAll (token : Address) : (s.sendAll token).stake = s.stake := rfl

/-- Sending the base token out keeps the rewards. -/
theorem sendAll_keeps (s : State) (token : Address) : s.Keeps (s.sendAll token) := ⟨rfl, id, id⟩

/-- Spending what is no reward is frugal. -/
theorem frugal_spend {use : Use} (hs : s.Frugal)
    (hfree : amount + s.rewardBalance ≤ s.farmingBalance) :
    (s.spend use amount).Frugal := by
  intro x hx
  rcases List.mem_cons.mp hx with rfl | hx
  · exact hfree
  · exact hs x hx

/-! ## What the parts do -/

/-- The balance is the free CAKE and the reward. -/
theorem actualFarmingTokenBalance_eq_ok (h : s.actualFarmingTokenBalance = .ok amount) :
    amount + s.rewardBalance = s.farmingBalance := by
  simp only [actualFarmingTokenBalance, SafeMath.sub_eq_ok] at h
  omega

theorem safeTransfer_eq_ok (h : s.safeTransfer amount = .ok s') :
    s' = { s with farmingBalance := s.farmingBalance - amount } := by
  simp only [safeTransfer, bind_eq_ok, SafeMath.subOr_eq_ok, pure_eq_ok] at h
  obtain ⟨_, ⟨_, rfl⟩, rfl⟩ := h
  rfl

theorem countPending_eq_ok (h : s.countPending = .ok s') :
    s' = { s with rewardBalance := s.rewardBalance + s.stake.pendingCake } := by
  simp only [countPending, bind_eq_ok, SafeMath.add_eq_ok, pure_eq_ok] at h
  obtain ⟨_, ⟨_, rfl⟩, rfl⟩ := h
  rfl

/-- Staking moves CAKE into the farm, and the farm pays what is pending. -/
theorem enterStaking_eq_ok (h : s.enterStaking amount = .ok s') :
    s.stake.enter amount = .ok s'.stake ∧
    s'.farmingBalance + amount = s.farmingBalance + s.stake.pendingCake ∧
    s'.rewardBalance = s.rewardBalance ∧ s'.spendings = s.spendings := by
  simp only [enterStaking, bind_eq_ok, SafeMath.subOr_eq_ok, pure_eq_ok] at h
  obtain ⟨_, ⟨hle, rfl⟩, _, _, stake, henter, rfl⟩ := h
  exact ⟨henter, Nat.sub_add_cancel hle, rfl, rfl⟩

/-- Unstaking brings the CAKE back, with what is pending. -/
theorem leaveStaking_eq_ok (h : s.leaveStaking amount = .ok s') :
    s.stake.leave amount = .ok s'.stake ∧
    s'.farmingBalance = s.farmingBalance + s.stake.pendingCake + amount ∧
    s'.rewardBalance = s.rewardBalance ∧ s'.spendings = s.spendings := by
  simp only [leaveStaking, bind_eq_ok, pure_eq_ok] at h
  obtain ⟨stake, hleave, rfl⟩ := h
  exact ⟨hleave, rfl, rfl, rfl⟩

theorem execute_keeps {o : Outside} (h : s.execute o = .ok s') :
    s'.stake = s.stake ∧ s.Keeps s' := by
  unfold execute at h
  split at h
  · cases h
    exact ⟨rfl, rfl, fun hs => Nat.le_trans hs (Nat.le_add_right _ _), fun hs => hs⟩
  · cases h

/-- Sending the free CAKE to a strategy keeps the rewards. -/
theorem sendFarming_keeps {strat : Address} (h : s.sendFarming strat = .ok s') :
    s'.stake = s.stake ∧ s.Keeps s' := by
  simp only [sendFarming, bind_eq_ok] at h
  obtain ⟨amount, hactual, hpay⟩ := h
  have hfree := actualFarmingTokenBalance_eq_ok hactual
  rw [safeTransfer_eq_ok hpay]
  refine ⟨rfl, rfl, fun _ => ?_, fun hs => frugal_spend hs (Nat.le_of_eq hfree)⟩
  change s.rewardBalance ≤ s.farmingBalance - amount
  omega

/-- The position's holding is closed, and what the farm pays for that is counted. -/
theorem removeShare_eq_ok (h : s.removeShare id = .ok s') :
    s'.stake.book = s.stake.book.redeemAll id ∧ s.Keeps s' := by
  unfold removeShare at h
  split at h
  · simp only [bind_eq_ok] at h
    obtain ⟨balance, hbalance, stake, hburn, s₁, hcount, hleave⟩ := h
    have hburn := Stake.burnShare_eq_ok hburn
    have hcount := countPending_eq_ok hcount
    -- what the farm pays in passing is counted among the rewards
    obtain ⟨hstake, hfarming, hreward, hspendings⟩ := leaveStaking_eq_ok hleave
    have hstake := (Stake.leave_eq_ok hstake).2
    subst hcount
    constructor
    · rw [hstake, hburn, Stake.shareToBalance_eq_ok hbalance]
      rfl
    · constructor
      · rw [hstake, hreward, hburn]
        rfl
      · intro hs
        simp only at hfarming hreward
        omega
      · intro hs
        unfold Frugal
        rw [hspendings]
        exact hs
  -- nothing to burn
  · rename_i hnone
    cases h
    exact ⟨(SharePool.Book.redeemAll_of_none (Nat.eq_zero_of_not_pos hnone)).symm, Keeps.refl _⟩

/-- Staking free CAKE issues the position its shares. -/
theorem stakeFor_eq_ok (hfree : amount + s.rewardBalance ≤ s.farmingBalance)
    (h : s.stakeFor id amount = .ok s') :
    s'.stake.book = s.stake.book.issueTo id amount ∧ s.Keeps s' := by
  simp only [stakeFor, bind_eq_ok, pure_eq_ok] at h
  obtain ⟨share, hshare, stake, hmint, s₁, hcount, s₂, henter, rfl⟩ := h
  have hmint := Stake.mintShare_eq_ok hmint
  have hcount := countPending_eq_ok hcount
  -- the farm pays the pending reward as the stake enters
  obtain ⟨hstake, hfarming, hreward, hspendings⟩ := enterStaking_eq_ok henter
  have hstake := Stake.enter_eq_ok hstake
  subst hcount
  constructor
  · change s₂.stake.book = _
    rw [hstake, hmint, Stake.balanceToShare_eq_ok hshare]
    rfl
  · constructor
    · change s₂.rewardBalance + s₂.stake.pendingCake = _
      rw [hstake, hreward, hmint]
      rfl
    · intro hs
      change s₂.rewardBalance ≤ s₂.farmingBalance
      simp only [spend] at hfarming hreward
      omega
    · intro hs
      -- the amount is spent for the position, and no reward with it
      have hspent : (s.spend (.position id) amount).Frugal := frugal_spend hs hfree
      change ∀ x ∈ s₂.spendings, _
      rw [hspendings]
      exact hspent

/-- The position's holding is opened for the principal that is there. -/
theorem addShare_eq_ok (h : s.addShare id = .ok s') :
    (∃ v, s'.stake.book = s.stake.book.issueTo id v) ∧ s.Keeps s' := by
  simp only [addShare, bind_eq_ok] at h
  obtain ⟨amount, hactual, h⟩ := h
  have hfree := Nat.le_of_eq (actualFarmingTokenBalance_eq_ok hactual)
  split at h
  · obtain ⟨hbook, hkeeps⟩ := stakeFor_eq_ok hfree h
    exact ⟨⟨amount, hbook⟩, hkeeps⟩
  · cases h
    exact ⟨⟨0, (SharePool.Book.issueTo_zero _ _).symm⟩, Keeps.refl _⟩

/-! ## Operations on a position -/

/-- A work changes the shares of its position only, and keeps the rewards. -/
theorem work_step {sender strat : Address} {o : Outside} (h : s.work sender o id strat = .ok s') :
    Book.Step (some id) s.stake.book s'.stake.book ∧ s.Keeps s' := by
  simp only [work, bind_eq_ok, pure_eq_ok] at h
  obtain ⟨_, _, s₁, hremove, _, _, s₂, hsend, s₃, hexecute, s₄, hadd, rfl⟩ := h
  obtain ⟨hclosed, hremove⟩ := removeShare_eq_ok hremove
  obtain ⟨hsent, hsend⟩ := sendFarming_keeps hsend
  obtain ⟨hback, hexecute⟩ := execute_keeps hexecute
  obtain ⟨⟨v, hopened⟩, hadd⟩ := addShare_eq_ok hadd
  constructor
  · rw [stake_sendAll, hopened, hback, hsent, stake_sendAll, hclosed]
    exact .reopen _ id v
  · have hsend : s₁.Keeps s₂ := (sendAll_keeps _ _).trans hsend
    exact (((hremove.trans hsend).trans hexecute).trans hadd).trans (sendAll_keeps _ _)

/-- A liquidation changes the shares of its position only, and keeps the rewards. -/
theorem liquidate_step {sender : Address} {o : Outside} (h : s.liquidate sender o id = .ok s') :
    Book.Step (some id) s.stake.book s'.stake.book ∧ s.Keeps s' := by
  simp only [liquidate, bind_eq_ok, pure_eq_ok] at h
  obtain ⟨_, _, s₁, hremove, s₂, hsend, s₃, hexecute, rfl⟩ := h
  obtain ⟨hclosed, hremove⟩ := removeShare_eq_ok hremove
  obtain ⟨hsent, hsend⟩ := sendFarming_keeps hsend
  obtain ⟨hback, hexecute⟩ := execute_keeps hexecute
  constructor
  · rw [stake_sendAll, hback, hsent, hclosed]
    exact .close _ id
  · exact ((hremove.trans hsend).trans hexecute).trans (sendAll_keeps _ _)

/-! ## No subtraction underflows -/

theorem actualFarmingTokenBalance_ne_error (hheld : s.rewardBalance ≤ s.farmingBalance) :
    s.actualFarmingTokenBalance ≠ .error "SafeMath: subtraction overflow" := by
  intro h
  have := (SafeMath.sub_eq_error.mp h).1
  omega

theorem countPending_ne_error : s.countPending ≠ .error "SafeMath: subtraction overflow" :=
  bind_ne_error (SafeMath.add_ne_error (by decide)) fun _ _ h => nomatch h

/-- The position's shares are part of the stake. -/
theorem removeShare_ne_error (hs : s.stake.Covered) :
    s.removeShare id ≠ .error "SafeMath: subtraction overflow" := by
  unfold removeShare
  split
  · refine bind_ne_error (fun h => ?_) fun balance _ => ?_
    · exact absurd (Stake.shareToBalance_eq_error h) (by decide)
    · refine bind_ne_error ?_ fun stake _ => bind_ne_error countPending_ne_error fun s₁ _ => ?_
      · -- no position has more shares than there are
        have hheld : s.stake.shares id ≤ s.stake.totalShare := hs.held_le id
        refine bind_ne_error (fun h => ?_) fun _ _ h => nomatch h
        have := (SafeMath.sub_eq_error.mp h).1
        omega
      · exact bind_ne_error (bind_ne_error (require_ne_error (by decide)) fun _ _ h => nomatch h)
          fun _ _ h => nomatch h
  · exact fun h => nomatch h

theorem sendFarming_ne_error {strat : Address} (hheld : s.rewardBalance ≤ s.farmingBalance) :
    s.sendFarming strat ≠ .error "SafeMath: subtraction overflow" :=
  bind_ne_error (actualFarmingTokenBalance_ne_error hheld) fun _ _ =>
    bind_ne_error (SafeMath.subOr_ne_error (by decide)) fun _ _ h => nomatch h

theorem execute_ne_error {o : Outside} :
    s.execute o ≠ .error "SafeMath: subtraction overflow" := by
  unfold execute
  split
  · exact fun h => nomatch h
  · exact fun h => absurd (Except.error.inj h) (by decide)

theorem enterStaking_ne_error :
    s.enterStaking amount ≠ .error "SafeMath: subtraction overflow" := by
  refine bind_ne_error (SafeMath.subOr_ne_error (by decide)) fun _ _ => ?_
  refine bind_ne_error (SafeMath.subOr_ne_error (by decide)) fun _ _ => ?_
  refine bind_ne_error ?_ fun _ _ h => nomatch h
  exact bind_ne_error (SafeMath.add_ne_error (by decide)) fun _ _ h => nomatch h

theorem stakeFor_ne_error (hs : s.stake.Covered) :
    s.stakeFor id amount ≠ .error "SafeMath: subtraction overflow" := by
  refine bind_ne_error (fun h => ?_) fun share _ => ?_
  · exact absurd (Stake.balanceToShare_eq_error hs.backed h) (by decide)
  · refine bind_ne_error ?_ fun stake _ => bind_ne_error countPending_ne_error fun _ _ => ?_
    · refine bind_ne_error (SafeMath.add_ne_error (by decide)) fun _ _ => ?_
      exact bind_ne_error (SafeMath.add_ne_error (by decide)) fun _ _ h => nomatch h
    · exact bind_ne_error enterStaking_ne_error fun _ _ h => nomatch h

theorem addShare_ne_error (hs : s.stake.Covered) (hheld : s.rewardBalance ≤ s.farmingBalance) :
    s.addShare id ≠ .error "SafeMath: subtraction overflow" := by
  refine bind_ne_error (actualFarmingTokenBalance_ne_error hheld) fun amount _ => ?_
  split
  · exact stakeFor_ne_error hs
  · exact fun h => nomatch h

theorem onlyOperator_ne_error {c : Config} {sender : Address} :
    c.onlyOperator contractName sender ≠ .error "SafeMath: subtraction overflow" :=
  require_ne_error (by decide)

/-- A work does not underflow. -/
theorem work_ne_error {sender strat : Address} {o : Outside} (hs : s.stake.Covered)
    (hheld : s.rewardBalance ≤ s.farmingBalance) :
    s.work sender o id strat ≠ .error "SafeMath: subtraction overflow" := by
  refine bind_ne_error onlyOperator_ne_error fun _ _ => ?_
  refine bind_ne_error (removeShare_ne_error hs) fun s₁ hremove => ?_
  obtain ⟨hclosed, hremove⟩ := removeShare_eq_ok hremove
  refine bind_ne_error (require_ne_error (by decide)) fun _ _ => ?_
  refine bind_ne_error (sendFarming_ne_error (hremove.held hheld)) fun s₂ hsend => ?_
  obtain ⟨hsent, hsend⟩ := sendFarming_keeps hsend
  refine bind_ne_error execute_ne_error fun s₃ hexecute => ?_
  obtain ⟨hback, hexecute⟩ := execute_keeps hexecute
  refine bind_ne_error (addShare_ne_error ?_ ?_) fun _ _ h => nomatch h
  · unfold Stake.Covered
    rw [hback, hsent, stake_sendAll, hclosed]
    exact hs.redeemAll id
  · exact hexecute.held (hsend.held (hremove.held hheld))

theorem liquidate_ne_error {sender : Address} {o : Outside} (hs : s.stake.Covered)
    (hheld : s.rewardBalance ≤ s.farmingBalance) :
    s.liquidate sender o id ≠ .error "SafeMath: subtraction overflow" := by
  refine bind_ne_error onlyOperator_ne_error fun _ _ => ?_
  refine bind_ne_error (removeShare_ne_error hs) fun s₁ hremove => ?_
  obtain ⟨_, hremove⟩ := removeShare_eq_ok hremove
  refine bind_ne_error (sendFarming_ne_error (hremove.held hheld)) fun s₂ _ => ?_
  exact bind_ne_error execute_ne_error fun _ _ h => nomatch h

/-! ## Reinvesting -/

/-- A part of an operation that moves no stake and counts nothing. -/
structure Aside (s s' : State) : Prop where
  stake : s'.stake = s.stake
  rewardBalance : s'.rewardBalance = s.rewardBalance
  spendings : s'.spendings = s.spendings

theorem Aside.refl (s : State) : s.Aside s := ⟨rfl, rfl, rfl⟩

theorem Aside.trans (h : s.Aside s₁) (h' : s₁.Aside s') : s.Aside s' :=
  ⟨h'.stake.trans h.stake, h'.rewardBalance.trans h.rewardBalance, h'.spendings.trans h.spendings⟩

theorem safeTransfer_aside (h : s.safeTransfer amount = .ok s') : s.Aside s' := by
  rw [safeTransfer_eq_ok h]
  exact ⟨rfl, rfl, rfl⟩

/-- Paying the other vault leaves stake and rewards. -/
theorem payBeneficialVault_aside {o : Outside} (h : s.payBeneficialVault o amount = .ok s') :
    s.Aside s' := by
  unfold payBeneficialVault rewardToBeneficialVault at h
  split at h
  · split at h
    · simp only [bind_eq_ok, pure_eq_ok] at h
      obtain ⟨s₁, hpay, rfl⟩ := h
      rw [safeTransfer_eq_ok hpay]
      exact ⟨rfl, rfl, rfl⟩
    · cases h
  · cases h
    exact .refl s

/-- Paying the bounty leaves stake and rewards. -/
theorem payBounty_aside {o : Outside} {bounty : Nat} (h : s.payBounty o bounty = .ok s') :
    s.Aside s' := by
  unfold payBounty at h
  split at h
  · simp only [bind_eq_ok] at h
    obtain ⟨_, _, s₁, hvault, rest, _, hpay⟩ := h
    exact (payBeneficialVault_aside hvault).trans (safeTransfer_aside hpay)
  · cases h
    exact .refl s

/-- Reinvesting is a gain of every share. -/
theorem reinvestReward_step {o : Outside} {reward : Nat}
    (h : s.reinvestReward o reward = .ok s') :
    Book.Step none s.stake.book s'.stake.book ∧ s'.rewardBalance = s.rewardBalance ∧
      s'.spendings = s.spendings := by
  simp only [reinvestReward, bind_eq_ok, pure_eq_ok] at h
  obtain ⟨_, _, s₁, hbounty, rest, _, s₂, henter, rfl⟩ := h
  have haside := payBounty_aside hbounty
  obtain ⟨hstake, _, hreward, hspendings⟩ := enterStaking_eq_ok henter
  refine ⟨?_, hreward.trans haside.rewardBalance, hspendings.trans haside.spendings⟩
  change Book.Step none s.stake.book s₂.stake.book
  rw [Stake.enter_eq_ok hstake, haside.stake]
  exact .gain _ rest

/-- A reinvestment uses the whole reward up. -/
theorem reinvest_step {sender origin : Address} {o : Outside}
    (h : s.reinvest sender origin o = .ok s') :
    Book.Step none s.stake.book s'.stake.book ∧ s'.rewardBalance = 0 ∧
      s'.spendings = s.spendings := by
  simp only [reinvest, bind_eq_ok] at h
  obtain ⟨_, _, s₁, hleave, h⟩ := h
  obtain ⟨hstake, _, hreward, hspendings⟩ := leaveStaking_eq_ok hleave
  have hbook : s₁.stake.book = s.stake.book := by
    rw [(Stake.leave_eq_ok hstake).2]
    rfl
  rw [← hbook]
  split at h
  · cases h
    exact ⟨.keep _, hreward, hspendings⟩
  · obtain ⟨hstep, hreward', hspendings'⟩ := reinvestReward_step h
    exact ⟨hstep, hreward'.trans hreward, hspendings'.trans hspendings⟩

end State

/-! ## Transactions -/

/-- A transaction is a step of the book on the holding of its position, and one on a position
leaves the rewards to the worker. -/
structure TxStep (tx : Tx) (s s' : State) : Prop where
  book : Book.Step tx.op.position s.stake.book s'.stake.book
  held : s.rewardBalance ≤ s.farmingBalance → s'.rewardBalance ≤ s'.farmingBalance
  frugal : s.Frugal → s'.Frugal
  rewards : ∀ id, tx.op.position = some id →
    s'.rewardBalance + s'.stake.pendingCake =
      s.rewardBalance + s.stake.pendingCake + tx.outside.accrued

/-- A call that keeps the rewards is a step of its position. -/
theorem TxStep.of_keeps {tx : Tx}
    (hbook : Book.Step tx.op.position s.stake.book s'.stake.book)
    (h : (s.accrue tx.outside.accrued).Keeps s') : TxStep tx s s' :=
  ⟨hbook, h.held, h.frugal, fun _ _ => h.rewards.trans (Nat.add_assoc _ _ _).symm⟩

/-- What one transaction does to the shares and the reward. -/
theorem exec_step {tx : Tx} (h : exec s tx = .ok s') : TxStep tx s s' := by
  rcases tx with ⟨sender, origin, o, op⟩
  unfold exec at h
  cases op with
  | work id strat =>
      obtain ⟨hbook, hkeeps⟩ := State.work_step (s := s.accrue o.accrued) h
      exact .of_keeps hbook hkeeps
  | liquidate id =>
      obtain ⟨hbook, hkeeps⟩ := State.liquidate_step (s := s.accrue o.accrued) h
      exact .of_keeps hbook hkeeps
  | reinvest =>
      -- the counted rewards go to the stake, and the count back to zero
      obtain ⟨hbook, hreward, hspendings⟩ := State.reinvest_step (s := s.accrue o.accrued) h
      refine ⟨hbook, fun _ => hreward ▸ Nat.zero_le _, fun hs => ?_, fun _ hid => by cases hid⟩
      unfold State.Frugal
      rw [hspendings]
      exact hs
  | setBeneficialVaultBountyBps bps =>
      simp only [State.setBeneficialVaultBountyBps, bind_eq_ok, pure_eq_ok] at h
      obtain ⟨_, _, _, _, rfl⟩ := h
      exact ⟨.keep _, id, id, fun _ hid => by cases hid⟩
  | config op =>
      simp only [bind_eq_ok, pure_eq_ok] at h
      obtain ⟨_, _, rfl⟩ := h
      exact ⟨.keep _, id, id, fun _ hid => by cases hid⟩
  | receiveFarming amount =>
      cases h
      exact ⟨.keep _, fun hs => Nat.le_trans hs (Nat.le_add_right _ _), id,
        fun _ hid => by cases hid⟩
  | receive token amount =>
      cases h
      exact ⟨.keep _, id, id, fun _ hid => by cases hid⟩

/-- No call about a position underflows. -/
theorem exec_ne_error {tx : Tx} (hs : s.stake.Covered)
    (hheld : s.rewardBalance ≤ s.farmingBalance) (hid : tx.op.position = some id) :
    exec s tx ≠ .error "SafeMath: subtraction overflow" := by
  rcases tx with ⟨sender, origin, o, op⟩
  unfold exec
  cases op with
  | work id strat => exact State.work_ne_error (s := s.accrue o.accrued) hs hheld
  | liquidate id => exact State.liquidate_ne_error (s := s.accrue o.accrued) hs hheld
  | _ => cases hid

/-! ## Runs -/

/-- What holds between transactions. -/
structure Inv (s : State) : Prop where
  covered : s.stake.Covered
  held : s.rewardBalance ≤ s.farmingBalance
  frugal : s.Frugal

/-- The stake is covered and the reward held in every state of a run. -/
theorem inv_inductive : machine.Inductive (fun _ _ => True) Inv where
  init := by
    rintro s ⟨owner, operator, base, vault, addStrat, liqStrat, bps, vaultBps, farming, bal, h⟩
    simp only [initState, bind_eq_ok, pure_eq_ok] at h
    obtain ⟨_, _, rfl⟩ := h
    exact ⟨Stake.covered_empty, Nat.zero_le _, fun x hx => by cases hx⟩
  step s tx s' hs _ hstep :=
    have h := exec_step hstep
    ⟨h.book.covered hs.covered, h.held hs.held, h.frugal hs.frugal⟩

/-- In every reachable state the worker holds what it counts as reward, its shares add up and are
backed, and only principal has gone to a strategy or into a position's stake. No operation on a
position underflows; it adds to the counted rewards exactly what the farm has paid, and lowers no
other position's worth. -/
theorem rewards_of_reachable (hreach : machine.Reachable s) :
    s.rewardBalance ≤ s.farmingBalance ∧
    s.actualFarmingTokenBalance = .ok (s.farmingBalance - s.rewardBalance) ∧
    ∑ id, s.stake.shares id = s.stake.totalShare ∧
    s.stake.totalShare ≤ s.stake.amount ∧
    (∀ x ∈ s.spendings, x.amount + x.reward ≤ x.balance) ∧
    (∀ id, s.stake.shareToBalance (s.stake.shares id) = .ok (s.stake.worth id) ∨
      wordSize ≤ s.stake.shares id * s.stake.amount) ∧
    (∀ tx id, tx.op.position = some id →
      exec s tx ≠ .error "SafeMath: subtraction overflow") ∧
    ∀ tx s', exec s tx = .ok s' →
      (∀ id, tx.op.position = some id →
        s'.rewardBalance + s'.stake.pendingCake =
          s.rewardBalance + s.stake.pendingCake + tx.outside.accrued) ∧
      ∀ j, tx.op.position ≠ some j → s.stake.worth j ≤ s'.stake.worth j := by
  have hinv : Inv s := inv_inductive.invariant hreach
  refine ⟨hinv.held, ?_, hinv.covered.total, hinv.covered.backed, hinv.frugal,
    Stake.shareToBalance_shares, fun tx id hid => exec_ne_error hinv.covered hinv.held hid,
    fun tx s' hstep => ⟨(exec_step hstep).rewards, fun j hj => ?_⟩⟩
  · exact SafeMath.sub_eq_ok.mpr ⟨hinv.held, rfl⟩
  · exact (exec_step hstep).book.worth_le hinv.covered hj

/-- Owner 1, operator 2, base token 3, the strategies 5 and 6; token 8 in the beneficial vault. -/
def freshWorker : State where
  config :=
    { owner := 1
      operator := 2
      okStrats := Function.update (Function.update (fun _ => false) 5 true) 6 true
      addStrat := 5
      liqStrat := 6
      reinvestBountyBps := 100
      maxReinvestBountyBps := 2000 }
  baseToken := 3
  beneficialVaultToken := 8
  beneficialVaultBountyBps := 5000
  farmingBalance := 0
  balanceOf := fun _ => 0

theorem freshWorker_init : machine.init freshWorker :=
  ⟨1, 2, 3, 8, 5, 6, 100, 5000, 0, fun _ => 0, rfl⟩

/-- Two positions; the stake change of the second pays 70, and the reward is staked. -/
def twoPositions : List Tx :=
  [{ sender := 1, origin := 1, op := .config (.setReinvestorOk [7] true) },
   { sender := 2, origin := 9, outside := { execute := some { farming := 1000 } },
     op := .work 1 5 },
   { sender := 2, origin := 10, outside :=
       { accrued := 70, execute := some { farming := 500 } }, op := .work 2 5 },
   { sender := 7, origin := 7, outside := { accrued := 730, swap := some 4 }, op := .reinvest },
   { sender := 2, origin := 9, outside := { accrued := 30, execute := some { farming := 900 } },
     op := .work 1 5 }]

/-- The second position closes while 30 CAKE of rewards are with the worker. -/
def closeSecond : Tx where
  sender := 2
  origin := 10
  outside := { accrued := 11 }
  op := .liquidate 2

theorem rewards_of_closeSecond : ∃ s s' : State, machine.Reachable s ∧
    exec s closeSecond = .ok s' ∧ s.rewardBalance = 30 ∧
    s'.rewardBalance + s'.stake.pendingCake = s.rewardBalance + s.stake.pendingCake + 11 ∧
    s.stake.worth 1 ≤ s'.stake.worth 1 := by
  have hrun : machine.lastStep freshWorker twoPositions closeSecond
      (fun s _ => s.rewardBalance = 30) = true := by
    decide +kernel
  obtain ⟨s, s', hreach, hstep, hreward⟩ := TSys.lastStep_reachable freshWorker_init hrun
  obtain ⟨-, -, -, -, -, -, -, hsteps⟩ := rewards_of_reachable hreach
  obtain ⟨hrewards, hfair⟩ := hsteps closeSecond s' hstep
  exact ⟨s, s', hreach, hstep, of_decide_eq_true hreward, hrewards 2 rfl, hfair 1 (by decide)⟩

end Huski.Worker.CakeMaxi
