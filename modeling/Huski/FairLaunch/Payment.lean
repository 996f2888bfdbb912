import Huski.FairLaunch.Debts

/-!
# When a harvest goes through

A harvest pays the pending reward, locks a part of the bonus, and mints badge points. All but the
lock depends on the rewards and the balances alone (`Payable`), the lock also on the rate
`bonusLockUpBps`: a rate that is high enough stops the harvest of anyone who has a bonus.
-/

open Solidity

/-- A smaller amount is transferred where a larger one is. -/
theorem ERC20.transfer_of_le {t t' : ERC20} {sender recipient : Address} {a b : Nat} (hle : a ≤ b)
    (h : t._transfer sender recipient b = .ok t') :
    ∃ t₁, t._transfer sender recipient a = .ok t₁ := by
  simp only [ERC20._transfer, bind_eq_ok, require_eq_ok, SafeMath.subOr_eq_ok, SafeMath.add_eq_ok,
    pure_eq_ok] at h ⊢
  rcases h with ⟨_, hsender, _, hrecipient, _, ⟨hfunds, rfl⟩, _, ⟨hword, rfl⟩, rfl⟩
  refine ⟨_, (), hsender, (), hrecipient, _, ⟨hle.trans hfunds, rfl⟩, _, ⟨?_, rfl⟩, rfl⟩
  by_cases hself : recipient = sender
  · subst hself
    simp only [ERC20.setBalance, Function.update_self] at hword ⊢
    omega
  · simp only [ERC20.setBalance, Function.update_of_ne hself] at hword ⊢
    omega

/-- A smaller amount is locked where a larger one is. -/
theorem HuskyToken.lock_of_le {t t' : HuskyToken} {sender account : Address} {a b : Nat}
    (hle : a ≤ b) (h : t.lock sender account b = .ok t') :
    ∃ t₁, t.lock sender account a = .ok t₁ := by
  simp only [HuskyToken.lock, HuskyToken.onlyOwner, bind_eq_ok, require_eq_ok, SafeMath.add_eq_ok,
    pure_eq_ok] at h ⊢
  rcases h with ⟨_, howner, _, haccount, _, hfunds, _, hmove, _, ⟨hlocked, rfl⟩, _, ⟨htotal, rfl⟩,
    rfl⟩
  rcases ERC20.transfer_of_le hle hmove with ⟨erc20, hmove⟩
  exact ⟨_, (), howner, (), haccount, (), hle.trans hfunds, erc20, hmove, _, ⟨by omega, rfl⟩, _,
    ⟨by omega, rfl⟩, rfl⟩

namespace Huski.FairLaunch

open State

/-! ## The parts of a harvest -/

/-- All of a harvest but the lock goes through, and the payment leaves HUSKY as `husky`. -/
structure Payable (n pid : Nat) (user : Address) (s : State) (husky : HuskyToken) : Prop where
  staked : 0 < (s.userInfo pid user).amount
  pending : earned (s.userInfo pid user).amount (s.acc pid) (s.userInfo pid user).rewardDebt =
    .ok (s.pending pid user)
  bonus : earned (s.userInfo pid user).amount (s.til pid) (s.userInfo pid user).bonusDebt =
    .ok (s.bonus pid user)
  funded : s.pending pid user ≤ s.husky.balanceOf s.here
  paid : s.husky.transfer s.here n user (s.pending pid user) = .ok husky
  points : ∃ s', mintPoints user (s.userInfo pid user) (s.poolInfo pid) s = .ok s'

/-- At the rate `bps` HUSKY, as the payment has left it, locks the user's part of the bonus. -/
def Locks (pid : Nat) (user : Address) (s : State) (husky : HuskyToken) (bps : Nat) : Prop :=
  s.bonus pid user * bps < wordSize ∧
    ∃ locked, husky.lock s.here user (s.bonus pid user * bps / 10000) = .ok locked

/-- What a harvest of the user reads, but for the rate, is the same. -/
structure SameClaim (pid : Nat) (user : Address) (s s' : State) : Prop where
  here : s'.here = s.here
  husky : s'.husky = s.husky
  info : s'.userInfo pid user = s.userInfo pid user
  acc : s'.acc pid = s.acc pid
  til : s'.til pid = s.til pid
  stakeToken : (s'.poolInfo pid).stakeToken = (s.poolInfo pid).stakeToken
  complexOracle : s'.complexOracle = s.complexOracle
  badgePoints : s'.badgePoints = s.badgePoints
  lastMultiplier : s'.lastMultiplier = s.lastMultiplier

section Parts

variable {n pid bps : Nat} {user : Address} {s s' : State} {husky : HuskyToken}

theorem SameClaim.symm (h : SameClaim pid user s s') : SameClaim pid user s' s where
  here := h.here.symm
  husky := h.husky.symm
  info := h.info.symm
  acc := h.acc.symm
  til := h.til.symm
  stakeToken := h.stakeToken.symm
  complexOracle := h.complexOracle.symm
  badgePoints := h.badgePoints.symm
  lastMultiplier := h.lastMultiplier.symm

theorem SameClaim.trans {s₁ : State} (h : SameClaim pid user s s₁)
    (h' : SameClaim pid user s₁ s') : SameClaim pid user s s' where
  here := h'.here.trans h.here
  husky := h'.husky.trans h.husky
  info := h'.info.trans h.info
  acc := h'.acc.trans h.acc
  til := h'.til.trans h.til
  stakeToken := h'.stakeToken.trans h.stakeToken
  complexOracle := h'.complexOracle.trans h.complexOracle
  badgePoints := h'.badgePoints.trans h.badgePoints
  lastMultiplier := h'.lastMultiplier.trans h.lastMultiplier

theorem SameClaim.pending (h : SameClaim pid user s s') :
    s'.pending pid user = s.pending pid user := by
  unfold State.pending
  rw [h.info, h.acc]

theorem SameClaim.bonus (h : SameClaim pid user s s') : s'.bonus pid user = s.bonus pid user := by
  unfold State.bonus
  rw [h.info, h.til]

/-- Whether badge points are minted depends on the stake, the prices and the points alone. -/
theorem mintPoints_isOk_congr {info : UserInfo} {pool pool' : PoolInfo} {t : State}
    (hhere : s'.here = s.here) (htoken : pool'.stakeToken = pool.stakeToken)
    (horacle : s'.complexOracle = s.complexOracle) (hpoints : s'.badgePoints = s.badgePoints)
    (hmultiplier : s'.lastMultiplier = s.lastMultiplier) (h : mintPoints user info pool s = .ok t) :
    ∃ t', mintPoints user info pool' s' = .ok t' := by
  unfold mintPoints at h ⊢
  rw [hhere, htoken, horacle, hpoints, hmultiplier]
  cases hstore : s.complexOracle with
  | none => exact ⟨s', rfl⟩
  | some store =>
      cases hbadge : s.badgePoints with
      | none => exact ⟨s', rfl⟩
      | some badgePoints =>
          rw [hstore, hbadge] at h
          simp only [bind_eq_ok, pure_eq_ok] at h ⊢
          rcases h with ⟨_, hprice, product, hproduct, scaled, hscaled, minted, hmint, _⟩
          exact ⟨_, (), hprice, product, hproduct, scaled, hscaled, minted, hmint, rfl⟩

theorem Payable.congr (h : SameClaim pid user s s') (hpays : Payable n pid user s husky) :
    Payable n pid user s' husky := by
  rcases hpays.points with ⟨t, hpoints⟩
  refine ⟨?_, ?_, ?_, ?_, ?_, ?_⟩
  · rw [h.info]
    exact hpays.staked
  · rw [h.info, h.acc, h.pending]
    exact hpays.pending
  · rw [h.info, h.til, h.bonus]
    exact hpays.bonus
  · rw [h.pending, h.husky, h.here]
    exact hpays.funded
  · rw [h.pending, h.husky, h.here]
    exact hpays.paid
  · rw [h.info]
    exact mintPoints_isOk_congr h.here h.stakeToken h.complexOracle h.badgePoints h.lastMultiplier
      hpoints

theorem Locks.congr (h : SameClaim pid user s s') (hlocks : Locks pid user s husky bps) :
    Locks pid user s' husky bps := by
  unfold Locks at hlocks ⊢
  rw [h.bonus, h.here]
  exact hlocks

/-- A lower rate locks less. -/
theorem Locks.of_le {bps' : Nat} (hle : bps' ≤ bps) (h : Locks pid user s husky bps) :
    Locks pid user s husky bps' := by
  rcases h with ⟨hword, locked, hlock⟩
  have hproduct : s.bonus pid user * bps' ≤ s.bonus pid user * bps := Nat.mul_le_mul_left _ hle
  refine ⟨hproduct.trans_lt hword, ?_⟩
  exact HuskyToken.lock_of_le (Nat.div_le_div_right hproduct) hlock

theorem earned_word {amount acc debt v : Nat} (h : earned amount acc debt = .ok v) :
    amount * acc < wordSize := by
  simp only [earned, bind_eq_ok, SafeMath.mul_eq_ok] at h
  rcases h with ⟨_, ⟨hword, rfl⟩, _⟩
  exact hword

/-- Exactly when `_harvest` succeeds. -/
theorem _harvest_isOk_iff (hpid : pid < s.poolLength) :
    (∃ s', _harvest n user pid s = .ok s') ↔
      ∃ husky, Payable n pid user s husky ∧ Locks pid user s husky s.bonusLockUpBps := by
  have hpool : s.poolAt pid = .ok (s.poolInfo pid) := if_pos hpid
  constructor
  -- the steps of the function, read off in its order
  · rintro ⟨s', h⟩
    simp only [_harvest, bind_eq_ok, require_eq_ok, SafeMath.mul_eq_ok] at h
    rcases h with ⟨pool, hat, _, hstaked, pending, hpending, _, hfunded, bonus, hbonus, s₁,
      htransfer, _, ⟨hword, rfl⟩, s₂, hlock, hpoints⟩
    rcases poolAt_eq_ok hat with ⟨_, rfl⟩
    obtain rfl : pending = s.pending pid user := (earned_eq_ok hpending).2
    obtain rfl : bonus = s.bonus pid user := (earned_eq_ok hbonus).2
    rcases safeHuskyTransfer_eq_ok hfunded htransfer with ⟨husky, hpaid, rfl⟩
    rcases onHusky_eq_ok hlock with ⟨locked, hlocked, rfl⟩
    refine ⟨husky, ⟨hstaked, hpending, hbonus, hfunded, hpaid, ?_⟩, hword, locked, hlocked⟩
    -- the points are the same before and after the payment
    exact mintPoints_isOk_congr (s := (s.setHusky husky).setHusky locked) rfl rfl rfl rfl rfl
      hpoints
  -- and the other way round: each step goes through
  · rintro ⟨husky, hpays, hword, locked, hlock⟩
    rcases hpays.points with ⟨t, hpoints⟩
    obtain ⟨t', hpoints⟩ : ∃ t', mintPoints user (s.userInfo pid user) (s.poolInfo pid)
        ((s.setHusky husky).setHusky locked) = .ok t' :=
      mintPoints_isOk_congr (s := s) rfl rfl rfl rfl rfl hpoints
    refine ⟨t', ?_⟩
    have htransfer : safeHuskyTransfer n user (s.pending pid user) s = .ok (s.setHusky husky) := by
      unfold safeHuskyTransfer
      rw [if_neg (Nat.not_lt.mpr hpays.funded)]
      exact bind_eq_ok.mpr ⟨husky, hpays.paid, rfl⟩
    simp only [_harvest, bind_eq_ok, require_eq_ok, SafeMath.mul_eq_ok]
    exact ⟨_, hpool, (), hpays.staked, _, hpays.pending, (), hpays.funded, _, hpays.bonus, _,
      htransfer, _, ⟨hword, rfl⟩, _, bind_eq_ok.mpr ⟨locked, hlock, rfl⟩, hpoints⟩

/-- The debts are written wherever the harvest before has gone through. -/
theorem updateDebts_isOk (hpid : pid < s.poolLength) (hpays : Payable n pid user s husky)
    {husky' : HuskyToken} {badgePoints : Option BadgePoints} :
    ∃ s', updateDebts pid user (s.paid husky' badgePoints) = .ok s' := by
  have hpool : (s.paid husky' badgePoints).poolAt pid = .ok (s.poolInfo pid) := if_pos hpid
  simp only [updateDebts, bind_eq_ok, SafeMath.mul_eq_ok, pure_eq_ok]
  exact ⟨_, _, hpool, _, ⟨earned_word hpays.pending, rfl⟩, _, ⟨earned_word hpays.bonus, rfl⟩, rfl⟩

/-- Exactly when a harvest succeeds after the update of its pool. -/
theorem settled_harvest_isOk_iff (n : Nat) (user : Address) (hpid : pid < s.poolLength) :
    (∃ s', (do
      let s ← _harvest n user pid s
      updateDebts pid user s) = .ok s') ↔
      ∃ husky, Payable n pid user s husky ∧ Locks pid user s husky s.bonusLockUpBps := by
  rw [← _harvest_isOk_iff hpid]
  constructor
  · rintro ⟨s', h⟩
    rcases bind_eq_ok.mp h with ⟨s₁, hharvest, _⟩
    exact ⟨s₁, hharvest⟩
  · rintro ⟨s₁, hharvest⟩
    rcases (_harvest_isOk_iff hpid).mp ⟨s₁, hharvest⟩ with ⟨husky, hpays, _⟩
    rcases _harvest_eq_ok hharvest with ⟨husky', badgePoints, _, rfl⟩
    rcases updateDebts_isOk hpid hpays with ⟨s', hdebts⟩
    exact ⟨s', bind_eq_ok.mpr ⟨_, hharvest, hdebts⟩⟩

end Parts

end Huski.FairLaunch
