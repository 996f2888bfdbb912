import Huski.FairLaunch.StakeFlow
import Huski.FairLaunch.Reverts
import Huski.Lib.RewardShare

/-!
# Solvency

What FairLaunch holds of HUSKY against what its users could harvest. Their claims are kept exact,
in units of `1 / precision`: an accrual mints what it adds to them, and a settlement pays the whole
units of a claim. What it leaves is the remainder of `amount * acc`, for the amount before it and
not for the one after: the debt of the new amount is rounded down too, so that a new amount with a
larger remainder starts with a claim that nothing was minted for.
-/

namespace Huski.FairLaunch

open Solidity State
open scoped BigOperators

/-- What a user could claim without rounding. -/
def State.claim (s : State) (p : Nat) (u : Address) : Nat :=
  (s.userInfo p u).amount * s.acc p - (s.userInfo p u).rewardDebt * precision

/-- The claims of all users on a pool. -/
def State.poolOwed (s : State) (p : Nat) : Nat := ∑ u, s.claim p u

/-- What all positions could claim. -/
def State.owed (s : State) : Nat := ∑ p ∈ Finset.range s.poolLength, s.poolOwed p

/-- No pool takes HUSKY as stake. -/
def State.NoHuskyStake (s : State) : Prop :=
  ∀ p < s.poolLength, (s.poolInfo p).stakeToken ≠ s.husky.here

/-- The HUSKY of FairLaunch cover the claims. -/
def State.Backs (s : State) : Prop := s.owed ≤ s.husky.balanceOf s.here * precision

/-- FairLaunch has stakes of its own only while no bonus is locked up. -/
def State.SelfUnlocked (s : State) : Prop :=
  s.bonusLockUpBps = 0 ∨ ∀ p, (s.userInfo p s.here).amount = 0

/-- An accrual locks no more of FairLaunch's HUSKY for `devaddr` than it mints it. -/
def State.DevUnlocked (s : State) : Prop := s.devaddr = s.here → s.bonusLockUpBps ≤ 10000

/-- The stakes are in custody, and unless HUSKY is staked the balance covers every claim. -/
structure Solvent (s : State) : Prop where
  custody : Custody s
  unlocked : s.SelfUnlocked
  backs : s.NoHuskyStake → s.Backs

/-! ## Sums of claims -/

section Claims

variable {s s' : State} {n pid : Nat} {user : Address}

theorem pending_mul_le_claim (s : State) (p : Nat) (u : Address) :
    s.pending p u * precision ≤ s.claim p u := by
  unfold State.pending State.claim
  exact RewardShare.floor_claim_le _ _

theorem claim_le_owed {p : Nat} (hp : p < s.poolLength) (u : Address) : s.claim p u ≤ s.owed := by
  have huser : s.claim p u ≤ s.poolOwed p := TotalMap.single_le_sum _ u
  have hpool : s.poolOwed p ≤ s.owed :=
    Finset.single_le_sum (fun _ _ => Nat.zero_le _) (Finset.mem_range.mpr hp)
  exact huser.trans hpool

/-- The rewards that could be harvested are at most the claims. -/
theorem sum_pending_mul_le (s : State) :
    (∑ p ∈ Finset.range s.poolLength, ∑ u, s.pending p u) * precision ≤ s.owed := by
  rw [Finset.sum_mul]
  exact Finset.sum_le_sum fun p _ => TotalMap.sum_mul_le (pending_mul_le_claim s p)

theorem claim_congr {p : Nat} {u : Address} (huser : s'.userInfo p u = s.userInfo p u)
    (hacc : s'.acc p = s.acc p) : s'.claim p u = s.claim p u := by
  unfold State.claim
  rw [huser, hacc]

theorem owed_congr (hlength : s'.poolLength = s.poolLength)
    (hclaim : ∀ p < s.poolLength, ∀ u, s'.claim p u = s.claim p u) : s'.owed = s.owed := by
  unfold State.owed
  rw [hlength]
  exact Finset.sum_congr rfl fun p hp => TotalMap.sum_congr (hclaim p (Finset.mem_range.mp hp))

theorem owed_of_sameStakes (h : SameStakes s s') : s'.owed = s.owed := by
  refine owed_congr h.poolLength fun p _ u => claim_congr ?_ ?_
  · rw [h.userInfo]
  · unfold State.acc
    rw [h.poolInfo]

/-- The claims on one pool are replaced. -/
theorem owed_replacePool (hlength : s'.poolLength = s.poolLength) (hpid : pid < s.poolLength)
    (hother : ∀ p u, p ≠ pid → s'.claim p u = s.claim p u) :
    s'.owed + s.poolOwed pid = s.owed + s'.poolOwed pid := by
  unfold State.owed
  rw [hlength]
  exact TotalMap.sum_replace (Finset.mem_range.mpr hpid) fun p _ hp =>
    TotalMap.sum_congr fun u => hother p u hp

/-- One claim is replaced. -/
theorem owed_replace (hlength : s'.poolLength = s.poolLength) (hpid : pid < s.poolLength)
    (hother : ∀ p u, p ≠ pid ∨ u ≠ user → s'.claim p u = s.claim p u) :
    s'.owed + s.claim pid user = s.owed + s'.claim pid user := by
  have hpool := owed_replacePool hlength hpid fun p u hp => hother p u (.inl hp)
  have huser : s'.poolOwed pid + s.claim pid user = s.poolOwed pid + s'.claim pid user :=
    TotalMap.sum_replace_univ user fun u hu => hother pid u (.inr hu)
  omega

/-- An accrual adds to every claim on its pool. -/
theorem owed_accrue {a : Accrual} {m til : Nat} {husky : HuskyToken} (hs : Sound s)
    (hpid : pid < s.poolLength) (h : Accrues n pid s a m til husky) :
    (s.accrue husky m til a).owed = s.owed + s.staked pid * a.perShare := by
  have hother : ∀ p u, p ≠ pid → (s.accrue husky m til a).claim p u = s.claim p u :=
    fun p u hp => claim_congr rfl (acc_accrue_of_ne h hp)
  have hpool : (s.accrue husky m til a).owed + s.poolOwed pid =
      s.owed + (s.accrue husky m til a).poolOwed pid :=
    owed_replacePool rfl hpid hother
  have hself : (s.accrue husky m til a).poolOwed pid =
      s.poolOwed pid + s.staked pid * a.perShare := by
    refine TotalMap.sum_add_mul fun u => ?_
    unfold State.claim
    rw [acc_accrue_self h]
    exact RewardShare.claim_accrue (hs.debts pid u)
  omega

end Claims

/-! ## Updates -/

section Updates

variable {s s' : State} {n pid : Nat} {a : Accrual} {m til : Nat} {husky : HuskyToken}

/-- An accrual mints FairLaunch at least its reward. -/
theorem balance_accrue (hdev : s.DevUnlocked) (h : Accrues n pid s a m til husky) :
    s.husky.balanceOf s.here + a.reward ≤ husky.balanceOf s.here := by
  have hbalance := h.husky_balance s.here
  rw [if_pos (rfl : s.here = s.here)] at hbalance
  by_cases hself : s.here = s.devaddr
  · have hlock : s.devLock a ≤ a.reward / 10 := devLock_le h.bonusReward_le (hdev hself.symm)
    rw [if_pos hself, if_pos hself] at hbalance
    omega
  · rw [if_neg hself, if_neg hself] at hbalance
    omega

/-- An accrual mints what it adds to the claims. -/
theorem backs_accrue (hs : Solvent s) (hdev : s.DevUnlocked) (hnone : s.NoHuskyStake)
    (hpid : pid < s.poolLength) (h : Accrues n pid s a m til husky) :
    (s.accrue husky m til a).Backs := by
  have hbacks := hs.backs hnone
  have hheld := hs.custody.held pid hpid (hnone pid hpid)
  have hsupply : a.lpSupply = (s.tokens (s.poolInfo pid).stakeToken).balanceOf s.here := by
    rw [h.supply, State.stakeBalance, if_neg (hnone pid hpid)]
  have hshares : s.staked pid * a.perShare ≤ a.reward * precision :=
    RewardShare.shares_le (hsupply ▸ hheld)
  have hminted := Nat.mul_le_mul_right precision (balance_accrue hdev h)
  change (s.accrue husky m til a).owed ≤ husky.balanceOf s.here * precision
  unfold State.Backs at hbacks
  rw [owed_accrue hs.custody.sound hpid h]
  rw [Nat.add_mul] at hminted
  omega

theorem Updated.noHuskyStake (h : Updated n pid s s') (hnone : s'.NoHuskyStake) :
    s.NoHuskyStake := by
  intro p hp
  have := hnone p (h.poolLength ▸ hp)
  rwa [h.stakeToken, h.husky_here] at this

theorem Updated.devaddr (h : Updated n pid s s') :
    s'.devaddr = s.devaddr ∧ s'.bonusLockUpBps = s.bonusLockUpBps := by
  cases h <;> exact ⟨rfl, rfl⟩

theorem Solvent.updated (hs : Solvent s) (hdev : s.DevUnlocked) (hpid : pid < s.poolLength)
    (h : Updated n pid s s') : Solvent s' := by
  refine ⟨hs.custody.updated h, ?_, fun hnone => ?_⟩
  · have hunlocked := hs.unlocked
    unfold State.SelfUnlocked
    rwa [h.devaddr.2, h.userInfo, h.here]
  · have hbefore := h.noHuskyStake hnone
    cases h with
    | current _ => exact hs.backs hbefore
    | empty _ _ =>
        have hsame : (s.setPoolInfo pid { s.poolInfo pid with lastRewardBlock := n }).owed =
            s.owed := by
          refine owed_congr rfl fun p _ u => ?_
          exact claim_congr rfl (acc_empty p)
        unfold State.Backs
        rw [hsame]
        exact hs.backs hbefore
    | accrued haccrues => exact backs_accrue hs hdev hbefore hpid haccrues

end Updates

/-! ## Settlements -/

section Settlements

variable {s s' : State} {msg : Msg} {pid amount : Nat} {user : Address} {husky : HuskyToken}

/-- What rounding a payment down leaves with FairLaunch, for an amount of stake. -/
def State.remainder (s : State) (pid amount : Nat) : Nat := amount * s.acc pid % precision

/-- What the debt of the new amount rounds off beyond the payment for the old one, FairLaunch holds
beyond the claims, and it gets no stake of its own while a bonus is locked up. -/
structure RoundingCovered (s : State) (pid : Nat) (user : Address) (amount : Nat) : Prop where
  covered : s.owed + s.remainder pid amount ≤
    s.husky.balanceOf s.here * precision + s.remainder pid (s.userInfo pid user).amount
  self : user = s.here → amount = 0 ∨ s.bonusLockUpBps = 0

/-- A settlement leaves only the rounding of a claim. -/
theorem claim_settleUser (s : State) (pid : Nat) (user : Address) (amount : Nat)
    (fundedBy : Address) :
    (s.settleUser pid user amount fundedBy).claim pid user = s.remainder pid amount := by
  have hacc : (s.settleUser pid user amount fundedBy).acc pid = s.acc pid := rfl
  unfold State.claim State.remainder
  rw [userInfo_settleUser, hacc]
  exact RewardShare.settled_claim _

theorem claim_settleUser_of_ne {fundedBy : Address} {p : Nat} {u : Address}
    (h : p ≠ pid ∨ u ≠ user) :
    (s.settleUser pid user amount fundedBy).claim p u = s.claim p u :=
  claim_congr (userInfo_settleUser_of_ne h) rfl

theorem Settles.claim (h : Settles msg pid user s amount s') :
    s'.claim pid user = s.remainder pid amount ∧
      ∀ p u, p ≠ pid ∨ u ≠ user → s'.claim p u = s.claim p u := by
  cases h with
  | deposit _ harvested _ =>
      cases harvested <;>
        exact ⟨claim_settleUser _ pid user _ _, fun p u hne => claim_settleUser_of_ne hne⟩
  | withdraw _ _ _ _ _ _ _ =>
      exact ⟨claim_settleUser _ pid user _ _, fun p u hne => claim_settleUser_of_ne hne⟩
  | harvest _ _ =>
      exact ⟨claim_settleUser _ pid user _ _, fun p u hne => claim_settleUser_of_ne hne⟩

theorem Settles.here (h : Settles msg pid user s amount s') : s'.here = s.here := by
  cases h with
  | deposit _ harvested _ => exact harvested.here
  | withdraw _ _ _ _ _ _ _ => rfl
  | harvest _ _ => rfl

theorem Settles.husky_here (h : Settles msg pid user s amount s') :
    s'.husky.here = s.husky.here := by
  cases h with
  | deposit _ harvested moves =>
      cases harvested with
      | nothing _ => exact moves.husky_here
      | harvested harvests => exact moves.husky_here.trans harvests.husky_here
  | withdraw _ harvests _ _ husky_here _ _ => exact husky_here.trans harvests.husky_here
  | harvest _ harvests => exact harvests.husky_here

/-- A harvest takes no more than the pending reward from FairLaunch. -/
theorem Harvests.balance (h : Harvests user pid s husky)
    (hself : user = s.here → s.userLock pid user = 0) :
    s.husky.balanceOf s.here ≤ husky.balanceOf s.here + s.pending pid user := by
  have hbalance := h.husky_balance s.here
  rw [if_pos (rfl : s.here = s.here)] at hbalance
  by_cases huser : s.here = user
  · have hlock := hself huser.symm
    rw [if_pos huser, if_pos huser] at hbalance
    omega
  · rw [if_neg huser, if_neg huser] at hbalance
    omega

/-- Of the claim it settles, a harvest leaves the remainder. -/
theorem Harvests.covers (h : Harvests user pid s husky)
    (hself : user = s.here → s.userLock pid user = 0) :
    s.husky.balanceOf s.here * precision + s.remainder pid (s.userInfo pid user).amount ≤
      husky.balanceOf s.here * precision + s.claim pid user := by
  have hpaid : s.pending pid user * precision + s.remainder pid (s.userInfo pid user).amount =
      s.claim pid user := by
    unfold State.pending State.remainder State.claim
    exact RewardShare.floor_claim_add_mod h.rewardDebt_le
  have hbalance := Nat.mul_le_mul_right precision (h.balance hself)
  rw [Nat.add_mul] at hbalance
  omega

/-- A settlement pays no more than the claim it closes. -/
theorem Settles.covers (hself : user = s.here → s.userLock pid user = 0)
    (htoken : (s.poolInfo pid).stakeToken ≠ s.husky.here)
    (hlisted : (s.poolInfo pid).stakeToken ≠ 0) (h : Settles msg pid user s amount s') :
    s.husky.balanceOf s.here * precision + s.remainder pid (s.userInfo pid user).amount ≤
      s'.husky.balanceOf s.here * precision + s.claim pid user := by
  cases h with
  | @deposit s₁ husky tokens amount _ harvested moves =>
      cases harvested with
      | nothing hunstaked =>
          change _ ≤ husky.balanceOf s.here * precision + _
          rw [moves.husky_eq htoken, State.remainder, hunstaked, Nat.zero_mul, Nat.zero_mod,
            Nat.add_zero]
          exact Nat.le_add_right _ _
      | harvested harvests =>
          change _ ≤ husky.balanceOf s.here * precision + _
          rw [moves.husky_eq (harvests.husky_here.symm ▸ htoken)]
          exact harvests.covers hself
  | @withdraw husky₁ husky _ tokens amount _ harvests _ _ _ _ moves =>
      change _ ≤ husky.balanceOf s.here * precision + _
      rw [(moves hlisted).husky_eq (harvests.husky_here.symm ▸ htoken)]
      exact harvests.covers hself
  | @harvest husky _ _ harvests =>
      change _ ≤ husky.balanceOf s.here * precision + _
      exact harvests.covers hself

theorem Settles.userInfo_of_ne {p : Nat} {u : Address} (hne : p ≠ pid ∨ u ≠ user)
    (h : Settles msg pid user s amount s') : s'.userInfo p u = s.userInfo p u := by
  cases h with
  | deposit _ harvested _ => cases harvested <;> exact userInfo_settleUser_of_ne hne
  | withdraw _ _ _ _ _ _ _ => exact userInfo_settleUser_of_ne hne
  | harvest _ _ => exact userInfo_settleUser_of_ne hne

theorem Settles.amount_eq (h : Settles msg pid user s amount s') :
    (s'.userInfo pid user).amount = amount := by
  cases h with
  | deposit _ harvested _ => cases harvested <;> rw [userInfo_settleUser]
  | withdraw _ _ _ _ _ _ _ => rw [userInfo_settleUser]
  | harvest _ _ => rw [userInfo_settleUser]

theorem Settles.bonusLockUpBps (h : Settles msg pid user s amount s') :
    s'.bonusLockUpBps = s.bonusLockUpBps := by
  cases h with
  | deposit _ harvested _ => cases harvested <;> rfl
  | withdraw _ _ _ _ _ _ _ => rfl
  | harvest _ _ => rfl

theorem Settles.devaddr (h : Settles msg pid user s amount s') : s'.devaddr = s.devaddr := by
  cases h with
  | deposit _ harvested _ => cases harvested <;> rfl
  | withdraw _ _ _ _ _ _ _ => rfl
  | harvest _ _ => rfl

/-- An amount that stays, or that leaves altogether, rounds off nothing more. -/
theorem RoundingCovered.covered_of_kept (hbacks : s.Backs)
    (h : RoundingCovered s pid user amount ∨ amount = (s.userInfo pid user).amount ∨ amount = 0) :
    s.owed + s.remainder pid amount ≤
      s.husky.balanceOf s.here * precision + s.remainder pid (s.userInfo pid user).amount := by
  rcases h with h | rfl | rfl
  · exact h.covered
  · exact Nat.add_le_add_right hbacks _
  · have hnothing : s.remainder pid 0 = 0 := by
      unfold State.remainder
      rw [Nat.zero_mul, Nat.zero_mod]
    rw [hnothing]
    exact le_add_right hbacks

theorem RoundingCovered.self_of_kept (hs : s.SelfUnlocked)
    (h : RoundingCovered s pid user amount ∨ amount = (s.userInfo pid user).amount ∨ amount = 0) :
    user = s.here → amount = 0 ∨ s.bonusLockUpBps = 0 := by
  intro huser
  rcases h with h | rfl | rfl
  · exact h.self huser
  · rcases hs with hbps | hnone
    · exact .inr hbps
    · exact .inl (huser ▸ hnone pid)
  · exact .inl rfl

theorem SelfUnlocked.userLock (hs : s.SelfUnlocked) (hstaked : 0 < (s.userInfo pid s.here).amount) :
    s.userLock pid s.here = 0 := by
  rcases hs with hbps | hnone
  · unfold State.userLock
    rw [hbps, Nat.mul_zero, Nat.zero_div]
  · exact absurd (hnone pid) (Nat.ne_of_gt hstaked)

/-- A settlement keeps the contract's own stakes unlocked. -/
theorem SelfUnlocked.settled (hs : s.SelfUnlocked)
    (hself : user = s.here → amount = 0 ∨ s.bonusLockUpBps = 0)
    (h : Settles msg pid user s amount s') : s'.SelfUnlocked := by
  rcases hs with hbps | hnone
  · exact .inl (h.bonusLockUpBps.trans hbps)
  · by_cases huser : user = s.here
    · rcases hself huser with hamount | hbps
      · refine .inr fun p => ?_
        rw [h.here]
        by_cases hp : p = pid
        · rw [hp, ← huser, h.amount_eq, hamount]
        · rw [h.userInfo_of_ne (.inl hp)]
          exact hnone p
      · exact .inl (h.bonusLockUpBps.trans hbps)
    · refine .inr fun p => ?_
      rw [h.here, h.userInfo_of_ne (.inr fun heq => huser heq.symm)]
      exact hnone p

/-- A settlement keeps the claims covered. -/
theorem Solvent.settled (hs : Solvent s) (hsender : msg.sender ≠ s.here)
    (hpid : pid < s.poolLength)
    (hmeets : RoundingCovered s pid user amount ∨ amount = (s.userInfo pid user).amount ∨
      amount = 0)
    (h : Settles msg pid user s amount s') : Solvent s' := by
  refine ⟨hs.custody.settled hsender hpid h,
    SelfUnlocked.settled hs.unlocked (RoundingCovered.self_of_kept hs.unlocked hmeets) h,
    fun hnone => ?_⟩
  have hpools := h.samePools
  have hbefore : s.NoHuskyStake := by
    unfold State.NoHuskyStake at hnone
    rwa [hpools.poolLength, hpools.poolInfo, h.husky_here] at hnone
  -- the contract's own stake locks nothing, as the bonus is off or it has no stake
  have hself : user = s.here → s.userLock pid user = 0 := by
    intro huser
    rcases Nat.eq_zero_or_pos (s.userInfo pid s.here).amount with hunstaked | hstaked
    · have hbonus : s.bonus pid s.here = 0 := by
        unfold State.bonus
        rw [hunstaked, Nat.zero_mul, Nat.zero_div, Nat.zero_sub]
      rw [huser, State.userLock, hbonus, Nat.zero_mul, Nat.zero_div]
    · exact huser ▸ SelfUnlocked.userLock hs.unlocked hstaked
  have hcovers := h.covers hself (hbefore pid hpid) (hs.custody.listed pid hpid)
  have howed := owed_replace hpools.poolLength hpid h.claim.2
  have hrounds := RoundingCovered.covered_of_kept (hs.backs hbefore) hmeets
  unfold State.Backs
  rw [h.claim.1] at howed
  rw [h.here]
  omega

/-- An emergency withdrawal gives a claim up. -/
theorem Solvent.emergency {tokens : Address → StakeToken} (hs : Solvent s)
    (hsender : msg.sender ≠ s.here) (hpid : pid < s.poolLength)
    (hmoves : MovesStake s (s.poolInfo pid).stakeToken s.here msg.sender
      (s.userInfo pid msg.sender).amount husky tokens) :
    Solvent ((s.moved husky tokens).setUserInfo pid msg.sender
      { s.userInfo pid msg.sender with amount := 0, rewardDebt := 0, fundedBy := 0 }) := by
  refine ⟨hs.custody.emergency hsender hpid hmoves, ?_, fun hnone => ?_⟩
  · rcases hs.unlocked with hbps | hnone
    · exact .inl hbps
    · refine .inr fun p => ?_
      change (((s.moved husky tokens).setUserInfo pid msg.sender _).userInfo p s.here).amount = 0
      rw [userInfo_setUserInfo_of_ne (.inr hsender.symm)]
      exact hnone p
  · have hbefore : s.NoHuskyStake := fun p hp => hmoves.husky_here ▸ hnone p hp
    have hsame : husky = s.husky := hmoves.husky_eq (hbefore pid hpid)
    subst hsame
    have hbacks := hs.backs hbefore
    have howed : ((s.moved s.husky tokens).setUserInfo pid msg.sender
          { s.userInfo pid msg.sender with amount := 0, rewardDebt := 0, fundedBy := 0 }).owed +
            s.claim pid msg.sender =
        s.owed + ((s.moved s.husky tokens).setUserInfo pid msg.sender
          { s.userInfo pid msg.sender with
            amount := 0, rewardDebt := 0, fundedBy := 0 }).claim pid msg.sender :=
      owed_replace rfl hpid fun p u hne => claim_congr (userInfo_setUserInfo_of_ne hne) rfl
    -- the claim of the position is given up
    have hgone : ((s.moved s.husky tokens).setUserInfo pid msg.sender
        { s.userInfo pid msg.sender with
          amount := 0, rewardDebt := 0, fundedBy := 0 }).claim pid msg.sender = 0 := by
      unfold State.claim
      rw [userInfo_setUserInfo, Nat.zero_mul, Nat.zero_sub]
    unfold State.Backs at hbacks ⊢
    change _ ≤ s.husky.balanceOf s.here * precision
    omega

end Settlements

/-! ## Pools and parameters -/

section Calls

variable {s s' : State} {msg : Msg} {pid : Nat}

theorem Solvent.added {n allocPoint : Nat} {stakeToken : Address} (hs : Solvent s)
    (htoken : stakeToken ≠ 0)
    (hfresh : ∀ p < s.poolLength, (s.poolInfo p).stakeToken ≠ stakeToken) :
    Solvent (s.added n allocPoint stakeToken) := by
  have hold : ∀ p < s.poolLength, (s.added n allocPoint stakeToken).poolInfo p = s.poolInfo p := by
    intro p hp
    simp [State.added, State.setPoolInfo, Nat.ne_of_lt hp]
  refine ⟨hs.custody.added htoken hfresh, hs.unlocked, fun hnone => ?_⟩
  have hbefore : s.NoHuskyStake := by
    intro p hp
    have := hnone p (Nat.lt_succ_of_lt hp)
    rwa [hold p hp] at this
  -- nobody has a claim on a pool that was not there
  have hnew : (s.added n allocPoint stakeToken).poolOwed s.poolLength = 0 := by
    refine TotalMap.sum_eq_zero fun u => ?_
    have hunlisted : (s.added n allocPoint stakeToken).userInfo s.poolLength u = {} :=
      hs.custody.sound.unlisted s.poolLength u le_rfl
    unfold State.claim
    rw [hunlisted, Nat.zero_mul, Nat.zero_sub]
  have howed : (s.added n allocPoint stakeToken).owed = s.owed := by
    change ∑ p ∈ Finset.range (s.poolLength + 1), _ = _
    rw [Finset.sum_range_succ, hnew, Nat.add_zero]
    refine Finset.sum_congr rfl fun p hp => TotalMap.sum_congr fun u => claim_congr rfl ?_
    unfold State.acc
    rw [hold p (Finset.mem_range.mp hp)]
  unfold State.Backs
  rw [howed]
  exact hs.backs hbefore

theorem Solvent.weighed {allocPoint : Nat} (hs : Solvent s)
    (hsound : Sound (s.weighed pid allocPoint)) : Solvent (s.weighed pid allocPoint) := by
  have hpool : ∀ p, ((s.weighed pid allocPoint).poolInfo p).stakeToken =
      (s.poolInfo p).stakeToken ∧ (s.weighed pid allocPoint).acc p = s.acc p := by
    intro p
    by_cases hp : p = pid
    · subst hp
      simp [State.acc, State.weighed, State.setPoolInfo]
    · simp [State.acc, State.weighed, State.setPoolInfo, hp]
  refine ⟨hs.custody.weighed hsound, hs.unlocked, fun hnone => ?_⟩
  have hbefore : s.NoHuskyStake := fun p hp => (hpool p).1 ▸ hnone p hp
  have howed : (s.weighed pid allocPoint).owed = s.owed :=
    owed_congr rfl fun p _ u => claim_congr rfl (hpool p).2
  unfold State.Backs
  rw [howed]
  exact hs.backs hbefore

/-- Solvency through the parts of one call, whose parameters are those of `s`. -/
theorem solvent_rule (hsender : msg.sender ≠ s.here) (hdev : s.DevUnlocked) :
    CallRule (fun _ _ => True) RoundingCovered msg fun t => Solvent t ∧ t.here = s.here ∧
      t.devaddr = s.devaddr ∧ t.bonusLockUpBps = s.bonusLockUpBps where
  updated t t' pid ht hpid _ hupdated := by
    obtain ⟨hsolvent, hhere, hdevaddr, hbps⟩ := ht
    have hdev : t.DevUnlocked := by
      unfold State.DevUnlocked
      rwa [hhere, hdevaddr, hbps]
    exact ⟨hsolvent.updated hdev hpid hupdated, hupdated.here.trans hhere,
      hupdated.devaddr.1.trans hdevaddr, hupdated.devaddr.2.trans hbps⟩
  added _ _ _ ht htoken hfresh := ⟨ht.1.added htoken hfresh, ht.2⟩
  weighed t pid allocPoint ht hsettled hpid hle :=
    ⟨ht.1.weighed ((sound_rule msg.blockNumber true).weighed _ _ _ ht.1.custody.sound hsettled
      hpid hle), ht.2⟩
  settled t t' pid user amount ht hpid hmeets hsettles := by
    obtain ⟨hsolvent, hhere, hdevaddr, hbps⟩ := ht
    exact ⟨hsolvent.settled (hhere.symm ▸ hsender) hpid hmeets hsettles,
      hsettles.here.trans hhere, hsettles.devaddr.trans hdevaddr,
      hsettles.bonusLockUpBps.trans hbps⟩
  emergency t pid husky tokens ht hpid _ hmoves :=
    ⟨ht.1.emergency (ht.2.1.symm ▸ hsender) hpid hmoves, ht.2⟩

/-- Only `setBonus` sets the lock-up. -/
theorem exec_quiet_bonusLockUpBps {op : Op} (hquiet : op.quiet = true)
    (hop : ∀ multiplier endBlock bps, op ≠ .setBonus multiplier endBlock bps)
    (h : exec msg op s = .ok s') : s'.bonusLockUpBps = s.bonusLockUpBps := by
  -- HUSKY and the payments do not touch the variable
  have honHusky : ∀ {f : HuskyToken → Result HuskyToken} {t t' : State}, t.onHusky f = .ok t' →
      t'.bonusLockUpBps = t.bonusLockUpBps := by
    intro f t t' h
    obtain ⟨_, _, rfl⟩ := onHusky_eq_ok h
    rfl
  have hpays : ∀ {n amount : Nat} {recipient : Address} {t t' : State},
      safeHuskyTransfer n recipient amount t = .ok t' → t'.bonusLockUpBps = t.bonusLockUpBps := by
    intro n amount recipient t t' h
    simp only [safeHuskyTransfer] at h
    split at h <;> exact honHusky h
  cases op with
  | addPool | setPool | updatePool | massUpdatePools | deposit | withdraw | withdrawAll
  | harvest | emergencyWithdraw => cases hquiet
  | setBonus multiplier endBlock bps => exact absurd rfl (hop multiplier endBlock bps)
  | setDev | setBadgeRelayer | setBadgePoints | setHuskyPerBlock | renounceOwnership =>
      simp only [exec, setDev, setBadgeRelayer, setBadgePoints, setHuskyPerBlock,
        renounceOwnership, bind_eq_ok, pure_eq_ok] at h
      obtain ⟨_, _, rfl⟩ := h
      rfl
  | transferOwnership =>
      simp only [exec, transferOwnership, bind_eq_ok, pure_eq_ok] at h
      obtain ⟨_, _, _, _, rfl⟩ := h
      rfl
  | manualMint =>
      simp only [exec, manualMint, bind_eq_ok] at h
      obtain ⟨_, _, h⟩ := h
      exact honHusky h
  | lockToOwner =>
      simp only [exec, lockToOwner, bind_eq_ok] at h
      obtain ⟨_, _, h⟩ := h
      exact honHusky h
  | unlockFromOwner =>
      simp only [exec, unlockFromOwner, bind_eq_ok] at h
      obtain ⟨_, _, s₁, h₁, _, _, h₂⟩ := h
      exact (hpays h₂).trans (hpays h₁)
  | huskyTransfer | huskyApprove => exact honHusky h
  | tokenTransfer | tokenApprove =>
      simp only [exec, onToken, bind_eq_ok, pure_eq_ok] at h
      obtain ⟨_, _, rfl⟩ := h
      rfl
  | setPrices =>
      cases h
      rfl

/-- Such a call of setBonus keeps the contract's own stakes unlocked. -/
theorem setBonus_unlocked {multiplier endBlock bps : Nat}
    (hself : bps = 0 ∨ ∀ p, (s.userInfo p s.here).amount = 0)
    (h : exec msg (.setBonus multiplier endBlock bps) s = .ok s') : s'.SelfUnlocked := by
  simp only [exec, setBonus, bind_eq_ok, pure_eq_ok] at h
  obtain ⟨_, _, _, _, _, _, rfl⟩ := h
  exact hself

/-- A call that touches no pool and no user pays none of FairLaunch's HUSKY, unless it releases
badge tokens. -/
theorem Solvent.quiet {op : Op} (hs : Solvent s) (hsender : msg.sender ≠ s.here)
    (hquiet : op.quiet = true) (hreleases : op.releases = false)
    (hself : ∀ multiplier endBlock bps, op = .setBonus multiplier endBlock bps →
      bps = 0 ∨ ∀ p, (s.userInfo p s.here).amount = 0)
    (h : exec msg op s = .ok s') : Solvent s' := by
  have hstakes := (exec_quiet hquiet h).1
  have hfunds := exec_quiet_keepsFunds hquiet hsender h
  refine ⟨hs.custody.quiet hstakes hfunds, ?_, fun hnone => ?_⟩
  · by_cases hbonus : ∃ multiplier endBlock bps, op = .setBonus multiplier endBlock bps
    · obtain ⟨multiplier, endBlock, bps, rfl⟩ := hbonus
      exact setBonus_unlocked (hself _ _ _ rfl) h
    · have hbps : s'.bonusLockUpBps = s.bonusLockUpBps :=
        exec_quiet_bonusLockUpBps hquiet (fun m e b hop => hbonus ⟨m, e, b, hop⟩) h
      have hunlocked := hs.unlocked
      unfold State.SelfUnlocked
      rwa [hbps, hstakes.userInfo, hstakes.here]
  · have hbefore : s.NoHuskyStake := by
      unfold State.NoHuskyStake at hnone
      rwa [hstakes.poolLength, hstakes.poolInfo, hfunds.husky_here] at hnone
    have hbalance := Nat.mul_le_mul_right precision (hfunds.husky hreleases)
    unfold State.Backs
    rw [owed_of_sameStakes hstakes, hfunds.here]
    exact (hs.backs hbefore).trans hbalance

end Calls

/-! ## Solvency over every run -/

/-- A transaction that releases no badge tokens, settles only what FairLaunch can cover, and locks
none of its HUSKY. -/
structure Sparing (c : Chain) (tx : Tx) : Prop where
  releases : tx.op.releases = false
  dev : c.state.DevUnlocked
  rounding : SettlesMeet RoundingCovered tx.blockNumber tx.op c.state
  self : ∀ multiplier endBlock bps, tx.op = .setBonus multiplier endBlock bps →
    bps = 0 ∨ ∀ p, (c.state.userInfo p c.state.here).amount = 0

/-- The claims are covered in every state of a sparing run. -/
theorem solvent_inductive : machine.Inductive Sparing (fun c => Solvent c.state) where
  init c h := by
    have hcustody := custody_inductive.init c h
    obtain ⟨_, _, _, _, _, _, _, _, _, _, h⟩ := h
    rw [h] at hcustody ⊢
    refine ⟨hcustody, .inr fun p => rfl, fun _ => ?_⟩
    -- there is no pool yet
    exact Nat.zero_le _
  step c tx c' hc hsparing h := by
    obtain ⟨hsender, _, _, _, hexec⟩ := mine_eq_ok h
    have hrule := solvent_rule (show tx.msg.sender ≠ c.state.here from hsender) hsparing.dev
    have hquiet : tx.op.quiet = true → Solvent c'.state := fun hquiet =>
      hc.quiet hsender hquiet hsparing.releases hsparing.self hexec
    by_cases hop : tx.op.quiet = true
    · exact hquiet hop
    · exact (hrule.exec (updatesMeet_true _ _ _) hsparing.rounding (fun h => absurd h hop)
        ⟨hc, rfl, rfl, rfl⟩ hexec).1

/-- Any single reward can be paid. -/
theorem Solvent.pending_le {s : State} {p : Nat} (hs : Solvent s) (hnone : s.NoHuskyStake)
    (hp : p < s.poolLength) (user : Address) : s.pending p user ≤ s.husky.balanceOf s.here := by
  have hclaim := (pending_mul_le_claim s p user).trans (claim_le_owed hp user)
  exact Nat.le_of_mul_le_mul_right (hclaim.trans (hs.backs hnone)) (by norm_num [precision])

/-- In every run whose transactions are sparing FairLaunch holds the HUSKY of all rewards that
could be harvested, as long as no pool takes HUSKY as stake, and no settlement reverts for want of
HUSKY. -/
theorem solvent_of_sparing (c : Chain) (hreach : machine.ReachableBy Sparing c)
    (hnone : c.state.NoHuskyStake) :
    ∑ p ∈ Finset.range c.state.poolLength, ∑ user, c.state.pending p user ≤
        c.state.husky.balanceOf c.state.here ∧
      ∀ tx pid user, c.state.DevUnlocked → tx.op.settles tx.sender = some (pid, user) →
        mine c tx ≠ .error "wtf not enough husky" := by
  have hs := solvent_inductive.invariant hreach
  refine ⟨?_, fun tx pid user hdev hop => ?_⟩
  · have howed := (sum_pending_mul_le c.state).trans (hs.backs hnone)
    exact Nat.le_of_mul_le_mul_right howed (by norm_num [precision])
  · have hwtf : Blocking "wtf not enough husky" := .inl rfl
    refine mine_settles_ne_error hwtf hop (updatePool_ne_error hwtf ⟨?_, ?_⟩)
      fun s₁ hupdate _ => ⟨fun _ => ?_, ?_⟩
    · simp
    · simp
    · -- the update minted what it added to the claims
      obtain ⟨hpid, hupdated⟩ := updatePool_eq_ok hupdate
      have hnone₁ : s₁.NoHuskyStake := by
        intro p hp
        rw [hupdated.stakeToken, hupdated.husky_here]
        exact hnone p (hupdated.poolLength ▸ hp)
      exact (hs.updated hdev hpid hupdated).pending_le hnone₁ (hupdated.poolLength ▸ hpid) user
    · simp

/-- The calls that touch a pool or a user. -/
def NotQuiet (_ : Chain) (tx : Tx) : Prop := tx.op.quiet = false

/-- Account 1 stakes 2 for a block in which 1 HUSKY is minted, and leaves. Accounts 2 and 3 then
stake 1 each: their debts are half a HUSKY each and rounded down to zero, so that with the next
HUSKY each of them has 1 pending. The first takes it, and the last cannot harvest. -/
theorem harvest_not_enough :
    ∃ c, machine.ReachableBy NotQuiet c ∧ c.state.NoHuskyStake ∧
      c.state.husky.balanceOf c.state.here < c.state.pending 0 3 ∧
      mine c ⟨3, 3, .harvest 0⟩ = .error "wtf not enough husky" := by
  have hrun : machine.lastStep (freshChain 1)
      [⟨50, 0, .addPool 1 102 false⟩, ⟨1, 1, .deposit 1 0 2⟩, ⟨1, 2, .withdrawAll 1 0⟩,
        ⟨2, 2, .deposit 2 0 1⟩, ⟨3, 2, .deposit 3 0 1⟩] ⟨2, 3, .harvest 0⟩
      (fun _ c => (∀ p < c.state.poolLength,
          (c.state.poolInfo p).stakeToken ≠ c.state.husky.here) ∧
        c.state.husky.balanceOf c.state.here < c.state.pending 0 3 ∧
        failsWith "wtf not enough husky" (mine c ⟨3, 3, .harvest 0⟩) = true) = true := by
    decide +kernel
  have hcalls : ∀ c : Chain, ∀ tx ∈ ([⟨50, 0, .addPool 1 102 false⟩, ⟨1, 1, .deposit 1 0 2⟩,
      ⟨1, 2, .withdrawAll 1 0⟩, ⟨2, 2, .deposit 2 0 1⟩, ⟨3, 2, .deposit 3 0 1⟩] : List Tx),
      NotQuiet c tx := by
    intro c tx htx
    fin_cases htx <;> rfl
  obtain ⟨c₁, c, hreach, hstep, htest⟩ :=
    TSys.lastStep_reachableBy (freshChain_init 1) hcalls hrun
  obtain ⟨hnone, hshort, hfails⟩ := of_decide_eq_true htest
  exact ⟨c, .step hreach (show NotQuiet c₁ ⟨2, 3, .harvest 0⟩ from rfl) hstep, hnone, hshort,
    eq_error_of_failsWith hfails⟩

/-- Before anything was accrued there are no claims. -/
theorem owed_eq_zero {s : State} (h : ∀ p < s.poolLength, s.acc p = 0) : s.owed = 0 := by
  refine Finset.sum_eq_zero fun p hp => TotalMap.sum_eq_zero fun u => ?_
  unfold State.claim
  rw [h p (Finset.mem_range.mp hp), Nat.mul_zero, Nat.zero_sub]

/-- A transaction that adds a pool, stakes before anything was accrued, or harvests. -/
def stakesEarly (c : Chain) (tx : Tx) : Bool :=
  decide (c.state.devaddr ≠ c.state.here) &&
    match tx.op with
    | .addPool .. | .harvest _ => true
    | .deposit user pid _ =>
        match updatePool tx.blockNumber pid c.state with
        | .ok s => decide (user ≠ s.here ∧ ∀ p < s.poolLength, s.acc p = 0)
        | .error _ => true
    | _ => false

theorem sparing_of_stakesEarly (c : Chain) (tx : Tx) (h : stakesEarly c tx = true) :
    Sparing c tx := by
  obtain ⟨sender, n, op⟩ := tx
  unfold stakesEarly at h
  obtain ⟨hdev, hop⟩ := (Bool.and_eq_true _ _).mp h
  have hunlocked : c.state.DevUnlocked := fun hself => absurd hself (of_decide_eq_true hdev)
  cases op with
  | addPool | harvest =>
      exact ⟨rfl, hunlocked, trivial, fun _ _ _ hbonus => nomatch hbonus⟩
  | deposit user pid amount =>
      refine ⟨rfl, hunlocked, fun s hupdate => ?_, fun _ _ _ hbonus => nomatch hbonus⟩
      simp only [hupdate] at hop
      obtain ⟨huser, hacc⟩ := of_decide_eq_true hop
      refine ⟨?_, fun hself => absurd hself huser⟩
      obtain ⟨hpid, hupdated⟩ := updatePool_eq_ok hupdate
      have hzero : s.acc pid = 0 := hacc pid (hupdated.poolLength ▸ hpid)
      rw [owed_eq_zero hacc, State.remainder, hzero, Nat.mul_zero, Nat.zero_mod]
      exact Nat.zero_le _
  | _ => cases hop

/-- Accounts 1 and 2 stake 10 each in one block; in the next account 1 has harvested its half of
the 1000 minted, and account 2 can. -/
theorem solvent_of_sparing_halfHarvested :
    ∃ c, machine.ReachableBy Sparing c ∧ c.state.pending 0 2 = 500 ∧
      ∑ p ∈ Finset.range c.state.poolLength, ∑ user, c.state.pending p user ≤
        c.state.husky.balanceOf c.state.here ∧
      mine c ⟨2, 2, .harvest 0⟩ ≠ .error "wtf not enough husky" := by
  have hrun : (machine.guarded stakesEarly).lastStep (freshChain 1000)
      [⟨50, 0, .addPool 1 102 false⟩, ⟨1, 1, .deposit 1 0 10⟩, ⟨2, 1, .deposit 2 0 10⟩]
      ⟨1, 2, .harvest 0⟩
      (fun _ c => c.state.pending 0 2 = 500 ∧ c.state.devaddr ≠ c.state.here ∧
        ∀ p < c.state.poolLength, (c.state.poolInfo p).stakeToken ≠ c.state.husky.here) =
      true := by
    decide +kernel
  obtain ⟨c₁, c, hreach, hstep, htest⟩ := TSys.lastStep_reachable
    (M := machine.guarded stakesEarly) (freshChain_init 1000) hrun
  obtain ⟨hpending, hdev, hnone⟩ := of_decide_eq_true htest
  have hreach := TSys.reachableBy_of_guarded sparing_of_stakesEarly (.step hreach trivial hstep)
  obtain ⟨hsolvent, hpays⟩ := solvent_of_sparing c hreach hnone
  exact ⟨c, hreach, hpending, hsolvent, hpays ⟨2, 2, .harvest 0⟩ 0 2 (fun h => absurd h hdev) rfl⟩

end Huski.FairLaunch
