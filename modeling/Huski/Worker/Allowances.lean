import Huski.Worker.CakeRewards
import Huski.Worker.LpLedger

/-!
# The allowances of the workers

The workers give the router and the farm unlimited allowances for the time of an operation.
`_addShare` and the rewards to the beneficial vault take theirs back on every way out;
`reinvest` does so at its end only, and returns before when it has found no reward. In a run whose
reinvestments all find one, nothing is allowed between operations.
-/

open Solidity

namespace Huski.Worker

/-! ## The LP worker -/

namespace PancakeswapV2

namespace State

/-- Neither the farm nor the router may take anything. -/
structure Closed (s : State) : Prop where
  lp : s.lpAllowance = 0
  cake : s.cakeAllowance = 0

/-- The CAKE that a reinvestment finds. -/
def reward (s : State) : Nat := s.balanceOf s.cake + s.stake.pendingCake

variable {s s' : State} {id : PositionId} {o : Outside}

theorem Closed.removeShare (hs : s.Closed) (h : s.removeShare id = .ok s') : s'.Closed := by
  unfold State.removeShare at h
  dsimp only at h
  split at h
  · simp only [withdraw, bind_eq_ok, pure_eq_ok] at h
    obtain ⟨_, _, _, ⟨_, _, rfl⟩, _, _, rfl⟩ := h
    exact ⟨hs.lp, hs.cake⟩
  · cases h
    exact hs

theorem Closed.execute (hs : s.Closed) (h : s.execute o = .ok s') : s'.Closed := by
  unfold State.execute at h
  split at h
  · cases h
    exact ⟨hs.lp, hs.cake⟩
  · cases h

/-- Whatever there is to stake, the farm's allowance is taken back. -/
theorem Closed.addShare (hs : s.Closed) (h : s.addShare id = .ok s') : s'.Closed := by
  unfold State.addShare at h
  dsimp only at h
  split at h
  · simp only [deposit, bind_eq_ok, pure_eq_ok] at h
    obtain ⟨_, _, _, ⟨_, _, _, _, _, _, rfl⟩, _, _, rfl⟩ := h
    exact ⟨rfl, hs.cake⟩
  · cases h
    exact hs

/-- A work takes back what it approves. -/
theorem Closed.work (hs : s.Closed) {sender strat : Address}
    (h : s.work sender o id strat = .ok s') : s'.Closed := by
  simp only [State.work, bind_eq_ok, pure_eq_ok] at h
  obtain ⟨_, _, s₁, hremove, _, _, s₂, hexecute, s₃, hadd, rfl⟩ := h
  have hremove := hs.removeShare hremove
  have hsent : (s₁.sendLp.sendAll s₁.baseToken).Closed := ⟨hremove.lp, hremove.cake⟩
  have hadd := (hsent.execute hexecute).addShare hadd
  exact ⟨hadd.lp, hadd.cake⟩

theorem Closed.liquidate (hs : s.Closed) {sender : Address}
    (h : s.liquidate sender o id = .ok s') : s'.Closed := by
  simp only [State.liquidate, bind_eq_ok, pure_eq_ok] at h
  obtain ⟨_, _, s₁, hremove, s₂, hexecute, rfl⟩ := h
  have hremove := hs.removeShare hremove
  have hsent : s₁.sendLp.Closed := ⟨hremove.lp, hremove.cake⟩
  have hexecute := hsent.execute hexecute
  exact ⟨hexecute.lp, hexecute.cake⟩

/-- The two exits of `reinvest`: only the one with a reward takes the allowances back. -/
theorem reinvest_cases {sender origin : Address} (h : s.reinvest sender origin o = .ok s') :
    (s.reward = 0 ∧ s'.lpAllowance = maxWord ∧ s'.cakeAllowance = maxWord) ∨
      (0 < s.reward ∧ s'.Closed) := by
  simp only [reinvest, bind_eq_ok] at h
  obtain ⟨_, _, s₁, hwithdraw, h⟩ := h
  simp only [withdraw, bind_eq_ok, pure_eq_ok] at hwithdraw
  obtain ⟨_, _, rfl⟩ := hwithdraw
  have hreward : (Function.update s.balanceOf s.cake
      (s.balanceOf s.cake + s.stake.pendingCake)) s.cake = s.reward :=
    Function.update_self _ _ _
  split at h
  · rename_i hnone
    cases h
    exact .inl ⟨hreward.symm.trans hnone, rfl, rfl⟩
  · rename_i hsome
    simp only [reinvestReward, bind_eq_ok, pure_eq_ok] at h
    obtain ⟨_, _, _, _, _, _, _, _, _, _, _, _, rfl⟩ := h
    exact .inr ⟨Nat.pos_of_ne_zero fun hzero => hsome (hreward.trans hzero), rfl, rfl⟩

end State

def Op.isReinvest : Op → Bool
  | .reinvest => true
  | _ => false

theorem Op.eq_reinvest {op : Op} (h : op.isReinvest = true) : op = .reinvest := by
  cases op with
  | reinvest => rfl
  | _ => cases h

/-- A reinvestment finds something. -/
def Rewarded (s : State) (tx : Tx) : Prop :=
  tx.op.isReinvest = true → 0 < (s.accrue tx.outside.accrued).reward

instance (s : State) (tx : Tx) : Decidable (Rewarded s tx) :=
  inferInstanceAs (Decidable (_ → _))

/-- A rewarded transaction leaves no allowance open. -/
theorem exec_closed {s s' : State} {tx : Tx} (hs : s.Closed) (hok : Rewarded s tx)
    (h : exec s tx = .ok s') : s'.Closed := by
  rcases tx with ⟨sender, origin, o, op⟩
  have haccrued : (s.accrue o.accrued).Closed := ⟨hs.lp, hs.cake⟩
  unfold exec at h
  cases op with
  | work id strat => exact haccrued.work h
  | liquidate id => exact haccrued.liquidate h
  -- without a reward `reinvest` returns before its last resets, which the run excludes
  | reinvest =>
      rcases State.reinvest_cases h with ⟨hnone, _⟩ | ⟨_, hclosed⟩
      · exact absurd (hok rfl) (Nat.not_lt.mpr (Nat.le_of_eq hnone))
      · exact hclosed
  -- the rest writes no allowance
  | config op =>
      simp only [bind_eq_ok, pure_eq_ok] at h
      obtain ⟨_, _, rfl⟩ := h
      exact ⟨hs.lp, hs.cake⟩
  | receiveLp amount =>
      cases h
      exact ⟨hs.lp, hs.cake⟩
  | receive token amount =>
      cases h
      exact ⟨hs.lp, hs.cake⟩

/-- No allowance is open in any state of a rewarded run. -/
theorem closed_inductive : machine.Inductive Rewarded State.Closed where
  init := by
    rintro s ⟨owner, operator, baseToken, cake, addStrat, liqStrat, bps, lp, balanceOf, h⟩
    simp only [initState, bind_eq_ok, pure_eq_ok] at h
    obtain ⟨_, _, rfl⟩ := h
    exact ⟨rfl, rfl⟩
  step s tx s' hs hok hstep := exec_closed hs hok hstep

end PancakeswapV2

/-! ## The CAKE worker -/

namespace CakeMaxi

namespace State

/-- Neither the farm nor the router may take anything. -/
structure Closed (s : State) : Prop where
  farm : s.farmAllowance = 0
  router : s.routerAllowance = 0

/-- The CAKE that a reinvestment finds. -/
def reward (s : State) : Nat := s.farmingBalance + s.stake.pendingCake

variable {s s' : State} {id : PositionId} {o : Outside} {amount : Nat}

theorem Closed.safeTransfer (hs : s.Closed) (h : s.safeTransfer amount = .ok s') : s'.Closed := by
  simp only [State.safeTransfer, bind_eq_ok, pure_eq_ok] at h
  obtain ⟨_, _, rfl⟩ := h
  exact ⟨hs.farm, hs.router⟩

theorem Closed.execute (hs : s.Closed) (h : s.execute o = .ok s') : s'.Closed := by
  unfold State.execute at h
  split at h
  · cases h
    exact ⟨hs.farm, hs.router⟩
  · cases h

theorem Closed.removeShare (hs : s.Closed) (h : s.removeShare id = .ok s') : s'.Closed := by
  unfold State.removeShare at h
  split at h
  · simp only [countPending, leaveStaking, bind_eq_ok, pure_eq_ok] at h
    obtain ⟨_, _, _, _, _, ⟨_, _, rfl⟩, _, _, rfl⟩ := h
    exact ⟨hs.farm, hs.router⟩
  · cases h
    exact hs

theorem Closed.sendFarming (hs : s.Closed) {strat : Address}
    (h : s.sendFarming strat = .ok s') : s'.Closed := by
  simp only [State.sendFarming, bind_eq_ok] at h
  obtain ⟨amount, _, h⟩ := h
  have hspent : (s.spend (.strategy strat) amount).Closed := ⟨hs.farm, hs.router⟩
  exact hspent.safeTransfer h

/-- Whatever there is to stake, the farm's allowance is taken back. -/
theorem Closed.addShare (hs : s.Closed) (h : s.addShare id = .ok s') : s'.Closed := by
  simp only [State.addShare, bind_eq_ok] at h
  obtain ⟨_, _, h⟩ := h
  split at h
  · simp only [stakeFor, countPending, enterStaking, bind_eq_ok, pure_eq_ok] at h
    obtain ⟨_, _, _, _, _, ⟨_, _, rfl⟩, _, ⟨_, _, _, _, _, _, rfl⟩, rfl⟩ := h
    exact ⟨rfl, hs.router⟩
  · cases h
    exact hs

theorem Closed.work (hs : s.Closed) {sender strat : Address}
    (h : s.work sender o id strat = .ok s') : s'.Closed := by
  simp only [State.work, bind_eq_ok, pure_eq_ok] at h
  obtain ⟨_, _, s₁, hremove, _, _, s₂, hsend, s₃, hexecute, s₄, hadd, rfl⟩ := h
  have hremove := hs.removeShare hremove
  have hbase : (s₁.sendAll s₁.baseToken).Closed := ⟨hremove.farm, hremove.router⟩
  have hadd := ((hbase.sendFarming hsend).execute hexecute).addShare hadd
  exact ⟨hadd.farm, hadd.router⟩

theorem Closed.liquidate (hs : s.Closed) {sender : Address}
    (h : s.liquidate sender o id = .ok s') : s'.Closed := by
  simp only [State.liquidate, bind_eq_ok, pure_eq_ok] at h
  obtain ⟨_, _, s₁, hremove, s₂, hsend, s₃, hexecute, rfl⟩ := h
  have hexecute := ((hs.removeShare hremove).sendFarming hsend).execute hexecute
  exact ⟨hexecute.farm, hexecute.router⟩

/-- What the beneficial vault gets leaves the router no allowance. -/
theorem routerAllowance_payBounty {bounty : Nat} (h : s.payBounty o bounty = .ok s')
    (hs : s.routerAllowance = 0) : s'.routerAllowance = 0 := by
  unfold payBounty at h
  split at h
  · simp only [bind_eq_ok] at h
    obtain ⟨_, _, s₁, hvault, _, _, h⟩ := h
    simp only [State.safeTransfer, bind_eq_ok, pure_eq_ok] at h
    obtain ⟨_, _, rfl⟩ := h
    unfold payBeneficialVault at hvault
    split at hvault
    · unfold rewardToBeneficialVault at hvault
      split at hvault
      · simp only [bind_eq_ok, pure_eq_ok] at hvault
        obtain ⟨_, _, rfl⟩ := hvault
        rfl
      · cases hvault
    · cases hvault
      exact hs
  · cases h
    exact hs

/-- The two exits of `reinvest`: only the one with a reward takes the allowance back. -/
theorem reinvest_cases {sender origin : Address} (hs : s.Closed)
    (h : s.reinvest sender origin o = .ok s') :
    (s.reward = 0 ∧ s'.farmAllowance = maxWord) ∨ (0 < s.reward ∧ s'.Closed) := by
  simp only [reinvest, bind_eq_ok] at h
  obtain ⟨_, _, s₁, hleave, h⟩ := h
  simp only [leaveStaking, bind_eq_ok, pure_eq_ok] at hleave
  obtain ⟨_, _, rfl⟩ := hleave
  split at h
  · rename_i hnone
    cases h
    exact .inl ⟨hnone, rfl⟩
  · rename_i hsome
    simp only [reinvestReward, enterStaking, bind_eq_ok, pure_eq_ok] at h
    obtain ⟨_, _, s₂, hbounty, _, _, _, ⟨_, _, _, _, _, _, rfl⟩, rfl⟩ := h
    have hrouter : s₂.routerAllowance = 0 := routerAllowance_payBounty hbounty hs.router
    exact .inr ⟨Nat.pos_of_ne_zero hsome, rfl, hrouter⟩

end State

def Op.isReinvest : Op → Bool
  | .reinvest => true
  | _ => false

theorem Op.eq_reinvest {op : Op} (h : op.isReinvest = true) : op = .reinvest := by
  cases op with
  | reinvest => rfl
  | _ => cases h

/-- A reinvestment finds something. -/
def Rewarded (s : State) (tx : Tx) : Prop :=
  tx.op.isReinvest = true → 0 < (s.accrue tx.outside.accrued).reward

instance (s : State) (tx : Tx) : Decidable (Rewarded s tx) :=
  inferInstanceAs (Decidable (_ → _))

/-- A rewarded transaction leaves no allowance open. -/
theorem exec_closed {s s' : State} {tx : Tx} (hs : s.Closed) (hok : Rewarded s tx)
    (h : exec s tx = .ok s') : s'.Closed := by
  rcases tx with ⟨sender, origin, o, op⟩
  have haccrued : (s.accrue o.accrued).Closed := ⟨hs.farm, hs.router⟩
  unfold exec at h
  cases op with
  | work id strat => exact haccrued.work h
  | liquidate id => exact haccrued.liquidate h
  | reinvest =>
      rcases State.reinvest_cases haccrued h with ⟨hnone, _⟩ | ⟨_, hclosed⟩
      · exact absurd (hok rfl) (Nat.not_lt.mpr (Nat.le_of_eq hnone))
      · exact hclosed
  | setBeneficialVaultBountyBps bps =>
      simp only [State.setBeneficialVaultBountyBps, bind_eq_ok, pure_eq_ok] at h
      obtain ⟨_, _, _, _, rfl⟩ := h
      exact ⟨hs.farm, hs.router⟩
  | config op =>
      simp only [bind_eq_ok, pure_eq_ok] at h
      obtain ⟨_, _, rfl⟩ := h
      exact ⟨hs.farm, hs.router⟩
  | receiveFarming amount =>
      cases h
      exact ⟨hs.farm, hs.router⟩
  | receive token amount =>
      cases h
      exact ⟨hs.farm, hs.router⟩

/-- No allowance is open in any state of a rewarded run. -/
theorem closed_inductive : machine.Inductive Rewarded State.Closed where
  init := by
    rintro s ⟨owner, operator, base, vault, addStrat, liqStrat, bps, vaultBps, farming, bal, h⟩
    simp only [initState, bind_eq_ok, pure_eq_ok] at h
    obtain ⟨_, _, rfl⟩ := h
    exact ⟨rfl, rfl⟩
  step s tx s' hs hok hstep := exec_closed hs hok hstep

end CakeMaxi

/-! ## Both workers -/

/-- In every run whose reinvestments all find a reward, no allowance is left between operations;
from such a state, a reinvestment that finds none leaves unlimited ones. -/
theorem allowances_of_reachable {s : PancakeswapV2.State} {c : CakeMaxi.State}
    (hs : PancakeswapV2.machine.ReachableBy PancakeswapV2.Rewarded s)
    (hc : CakeMaxi.machine.ReachableBy CakeMaxi.Rewarded c) :
    (s.lpAllowance = 0 ∧ s.cakeAllowance = 0 ∧ c.farmAllowance = 0 ∧ c.routerAllowance = 0) ∧
    (∀ tx s', PancakeswapV2.exec s tx = .ok s' → ¬PancakeswapV2.Rewarded s tx →
      s'.lpAllowance = maxWord ∧ s'.cakeAllowance = maxWord) ∧
    ∀ tx c', CakeMaxi.exec c tx = .ok c' → ¬CakeMaxi.Rewarded c tx →
      c'.farmAllowance = maxWord := by
  have hs : s.Closed := PancakeswapV2.closed_inductive.invariant hs
  have hc : c.Closed := CakeMaxi.closed_inductive.invariant hc
  refine ⟨⟨hs.lp, hs.cake, hc.farm, hc.router⟩, fun tx s' h hnone => ?_, fun tx c' h hnone => ?_⟩
  · rcases tx with ⟨sender, origin, o, op⟩
    obtain ⟨hop, hzero⟩ := Classical.not_imp.mp hnone
    obtain rfl := PancakeswapV2.Op.eq_reinvest hop
    rcases PancakeswapV2.State.reinvest_cases h with ⟨_, hopen⟩ | ⟨hpos, _⟩
    · exact hopen
    · exact absurd hpos hzero
  · rcases tx with ⟨sender, origin, o, op⟩
    obtain ⟨hop, hzero⟩ := Classical.not_imp.mp hnone
    obtain rfl := CakeMaxi.Op.eq_reinvest hop
    have haccrued : (c.accrue o.accrued).Closed := ⟨hc.farm, hc.router⟩
    rcases CakeMaxi.State.reinvest_cases haccrued h with ⟨_, hopen⟩ | ⟨hpos, _⟩
    · exact hopen
    · exact absurd hpos hzero

/-- After the first positions of both workers and a reinvestment of what their farms have paid. -/
theorem allowances_of_firstPosition :
    ∃ (s : PancakeswapV2.State) (c : CakeMaxi.State), s.stake.amount = 1050 ∧
      c.stake.amount = 1664 ∧
      s.lpAllowance = 0 ∧ s.cakeAllowance = 0 ∧ c.farmAllowance = 0 ∧ c.routerAllowance = 0 := by
  have hlp : (PancakeswapV2.machine.guarded fun s tx =>
      decide (PancakeswapV2.Rewarded s tx)).lastStep PancakeswapV2.freshWorker
        PancakeswapV2.firstPosition PancakeswapV2.secondPosition
        (fun s _ => s.stake.amount = 1050) = true := by
    decide +kernel
  have hcake : (CakeMaxi.machine.guarded fun s tx =>
      decide (CakeMaxi.Rewarded s tx)).lastStep CakeMaxi.freshWorker CakeMaxi.twoPositions
        CakeMaxi.closeSecond (fun s _ => s.stake.amount = 1664) = true := by
    decide +kernel
  obtain ⟨s, _, hs, _, hsamount⟩ := TSys.lastStep_reachable
    (M := PancakeswapV2.machine.guarded _) PancakeswapV2.freshWorker_init hlp
  obtain ⟨c, _, hc, _, hcamount⟩ := TSys.lastStep_reachable
    (M := CakeMaxi.machine.guarded _) CakeMaxi.freshWorker_init hcake
  have hs := TSys.reachableBy_of_guarded (fun _ _ hcheck => of_decide_eq_true hcheck) hs
  have hc := TSys.reachableBy_of_guarded (fun _ _ hcheck => of_decide_eq_true hcheck) hc
  exact ⟨s, c, of_decide_eq_true hsamount, of_decide_eq_true hcamount,
    (allowances_of_reachable hs hc).1⟩

/-- The owner lets 7 reinvest, who finds no reward. -/
theorem reinvest_leaves_allowances :
    (∃ s : PancakeswapV2.State, PancakeswapV2.machine.Reachable s ∧
      s.lpAllowance = maxWord ∧ s.cakeAllowance = maxWord) ∧
    ∃ s : CakeMaxi.State, CakeMaxi.machine.Reachable s ∧ s.farmAllowance = maxWord := by
  constructor
  · have hrun : PancakeswapV2.machine.lastStep PancakeswapV2.freshWorker
        [{ sender := 1, origin := 1, op := .config (.setReinvestorOk [7] true) }]
        { sender := 7, origin := 7, op := .reinvest }
        (fun _ s => s.lpAllowance = maxWord ∧ s.cakeAllowance = maxWord) = true := by
      decide +kernel
    obtain ⟨_, s, hreach, hstep, htest⟩ :=
      TSys.lastStep_reachable PancakeswapV2.freshWorker_init hrun
    exact ⟨s, hreach.step trivial hstep, of_decide_eq_true htest⟩
  · have hrun : CakeMaxi.machine.lastStep CakeMaxi.freshWorker
        [{ sender := 1, origin := 1, op := .config (.setReinvestorOk [7] true) }]
        { sender := 7, origin := 7, op := .reinvest }
        (fun _ s => s.farmAllowance = maxWord) = true := by
      decide +kernel
    obtain ⟨_, s, hreach, hstep, htest⟩ :=
      TSys.lastStep_reachable CakeMaxi.freshWorker_init hrun
    exact ⟨s, hreach.step trivial hstep, of_decide_eq_true htest⟩

end Huski.Worker
