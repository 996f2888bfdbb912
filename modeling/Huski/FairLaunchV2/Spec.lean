import Huski.FairLaunchV2.Interface
import Huski.FairLaunch.Emission

/-!
# What a successful call of FairLaunchV2 did

One inversion lemma for each function of `Huski.FairLaunchV2.Model`. Calls of V1 and
payments leave the pools and users of V2 (`SameStakes`); an update writes its pool
(`Updated`), and a harvest settles the debt of its user.
-/

namespace Huski.FairLaunchV2

open Solidity State

variable {msg : FairLaunch.Msg} {n pid : Nat} {user : Address} {s s₁ s' : State}

theorem poolAt_eq_ok {pool : PoolInfo} (h : s.poolAt pid = .ok pool) :
    pid < s.poolLength ∧ pool = s.poolInfo pid := by
  unfold State.poolAt at h
  split at h
  · rename_i hpid
    cases h
    exact ⟨hpid, rfl⟩
  · cases h

theorem onV1_eq_ok {f : FairLaunch.State → Result FairLaunch.State} (h : s.onV1 f = .ok s') :
    ∃ v1, f s.fairLaunchV1 = .ok v1 ∧ s' = s.setV1 v1 := by
  simp only [State.onV1, bind_eq_ok, pure_eq_ok] at h
  obtain ⟨v1, hf, rfl⟩ := h
  exact ⟨v1, hf, rfl⟩

/-! ## Calls that touch no pool and no user -/

/-- The pools and what was accrued are the same. -/
structure SamePools (s s' : State) : Prop where
  here : s'.here = s.here
  masterPid : s'.masterPid = s.masterPid
  poolLength : s'.poolLength = s.poolLength
  poolInfo : s'.poolInfo = s.poolInfo
  stakeTokens : s'.stakeTokens = s.stakeTokens
  totalAllocPoint : s'.totalAllocPoint = s.totalAllocPoint
  accruals : s'.accruals = s.accruals

/-- The pools and the users are the same. -/
structure SameStakes (s s' : State) : Prop extends SamePools s s' where
  userInfo : s'.userInfo = s.userInfo

theorem SamePools.refl (s : State) : SamePools s s := ⟨rfl, rfl, rfl, rfl, rfl, rfl, rfl⟩

theorem SamePools.trans {a b c : State} (hab : SamePools a b) (hbc : SamePools b c) :
    SamePools a c where
  here := hbc.here.trans hab.here
  masterPid := hbc.masterPid.trans hab.masterPid
  poolLength := hbc.poolLength.trans hab.poolLength
  poolInfo := hbc.poolInfo.trans hab.poolInfo
  stakeTokens := hbc.stakeTokens.trans hab.stakeTokens
  totalAllocPoint := hbc.totalAllocPoint.trans hab.totalAllocPoint
  accruals := hbc.accruals.trans hab.accruals

theorem SameStakes.refl (s : State) : SameStakes s s := ⟨SamePools.refl s, rfl⟩

theorem SameStakes.trans {a b c : State} (hab : SameStakes a b) (hbc : SameStakes b c) :
    SameStakes a c :=
  ⟨hab.toSamePools.trans hbc.toSamePools, hbc.userInfo.trans hab.userInfo⟩

theorem sameStakes_setV1 (s : State) (v1 : FairLaunch.State) : SameStakes s (s.setV1 v1) :=
  ⟨⟨rfl, rfl, rfl, rfl, rfl, rfl, rfl⟩, rfl⟩

theorem sameStakes_onV1 {f : FairLaunch.State → Result FairLaunch.State}
    (h : s.onV1 f = .ok s') : SameStakes s s' := by
  obtain ⟨v1, _, rfl⟩ := onV1_eq_ok h
  exact sameStakes_setV1 s v1

section Tokens

variable {token spender holder recipient : Address} {amount : Nat}

theorem sameStakes_safeTransfer (h : s.safeTransfer n token recipient amount = .ok s') :
    SameStakes s s' := by
  unfold State.safeTransfer at h
  split at h <;> exact sameStakes_onV1 h

theorem sameStakes_safeTransferFrom
    (h : s.safeTransferFrom n token spender holder recipient amount = .ok s') :
    SameStakes s s' := by
  unfold State.safeTransferFrom at h
  split at h <;> exact sameStakes_onV1 h

/-- A token moves nothing from the zero address. -/
theorem holder_ne_of_safeTransferFrom
    (h : s.safeTransferFrom n token spender holder recipient amount = .ok s') : holder ≠ 0 := by
  unfold State.safeTransferFrom at h
  split at h
  · obtain ⟨v1, hhusky, _⟩ := onV1_eq_ok h
    obtain ⟨husky, hmove, _⟩ := FairLaunch.onHusky_eq_ok hhusky
    exact HuskyToken.holder_ne_of_transferFrom hmove
  · obtain ⟨v1, htoken, _⟩ := onV1_eq_ok h
    simp only [FairLaunch.onToken, bind_eq_ok] at htoken
    obtain ⟨t, hmove, _⟩ := htoken
    exact StakeToken.holder_ne_of_transferFrom hmove

theorem sameStakes_safeApprove (h : s.safeApprove token spender amount = .ok s') :
    SameStakes s s' := by
  simp only [State.safeApprove, bind_eq_ok] at h
  obtain ⟨_, _, h⟩ := h
  split at h <;> exact sameStakes_onV1 h

theorem sameStakes_lock (h : lock n token user amount s = .ok s') : SameStakes s s' := by
  simp only [lock, bind_eq_ok, pure_eq_ok] at h
  obtain ⟨_, _, _, _, s₁, hmove, t, _, rfl⟩ := h
  have hmoved := sameStakes_safeTransferFrom hmove
  exact ⟨⟨hmoved.here, hmoved.masterPid, hmoved.poolLength, hmoved.poolInfo, hmoved.stakeTokens,
    hmoved.totalAllocPoint, hmoved.accruals⟩, hmoved.userInfo⟩

/-- Paying leaves the stakes. -/
theorem sameStakes_payReward (h : payReward n pid user amount s = .ok s') : SameStakes s s' := by
  simp only [payReward, bind_eq_ok] at h
  obtain ⟨⟨rest, s₁⟩, hlock, hpay⟩ := h
  refine SameStakes.trans ?_ (sameStakes_safeTransfer hpay)
  unfold lockReward at hlock
  split at hlock
  · simp only [bind_eq_ok, pure_eq_ok, Prod.mk.injEq] at hlock
    obtain ⟨_, _, a, happrove, b, hlocked, _, _, c, hclear, _, rfl⟩ := hlock
    exact ((sameStakes_safeApprove happrove).trans (sameStakes_lock hlocked)).trans
      (sameStakes_safeApprove hclear)
  · simp only [Except.ok.injEq, Prod.mk.injEq] at hlock
    obtain ⟨_, rfl⟩ := hlock
    exact SameStakes.refl s

end Tokens

/-! ## The hook -/

/-- The rate depends on V1's parameters and on the stake token of the master pool. -/
theorem huskyPerBlock_congr {v1 : FairLaunch.State}
    (hlength : v1.poolLength = s.fairLaunchV1.poolLength)
    (htoken : (v1.poolInfo s.masterPid).stakeToken =
      (s.fairLaunchV1.poolInfo s.masterPid).stakeToken)
    (hrate : v1.huskyPerBlock = s.fairLaunchV1.huskyPerBlock)
    (htotal : v1.totalAllocPoint = s.fairLaunchV1.totalAllocPoint) :
    huskyPerBlock (s.setV1 v1) = huskyPerBlock s := by
  rw [huskyPerBlock_eq, huskyPerBlock_eq]
  show (do
    let pool ← v1.poolAt s.masterPid
    rate v1.huskyPerBlock pool.stakeToken.val v1.totalAllocPoint) = _
  unfold FairLaunch.State.poolAt
  rw [hlength, hrate, htotal]
  split
  · show rate _ _ _ = rate _ _ _
    rw [htoken]
  · rfl

/-- Collecting from V1 changes V1 and HUSKY, but not the rate. -/
theorem harvestFromFairLaunchV1_eq_ok (h : harvestFromFairLaunchV1 n s = .ok s') :
    SameStakes s s' ∧ huskyPerBlock s' = huskyPerBlock s := by
  obtain ⟨v1, hdeposit, rfl⟩ := onV1_eq_ok h
  refine ⟨sameStakes_setV1 s v1, ?_⟩
  obtain ⟨_, w, hupdate, hsettles⟩ := FairLaunch.deposit_settles hdeposit
  have hupdated := (FairLaunch.updatePool_eq_ok hupdate).2
  have hpools := hsettles.samePools
  refine huskyPerBlock_congr (hpools.poolLength.trans hupdated.poolLength) ?_ ?_
    (hpools.totalAllocPoint.trans hupdated.totalAllocPoint)
  · rw [hpools.poolInfo, hupdated.stakeToken]
  · exact hsettles.sameRewards.huskyPerBlock.trans hupdated.sameRewards.huskyPerBlock

/-! ## Updates -/

/-- What an update credits to a share: nothing without stake or weight, else the reward of
the blocks since the last update, over the stake that it finds. -/
inductive Credits (n pid : Nat) (s : State) (supply perShare : Nat) : Prop
  | nothing (none : supply = 0 ∨ s.totalAllocPoint = 0) (zero : perShare = 0)
  | reward {rate : Nat} (staked : supply ≠ 0) (total : s.totalAllocPoint ≠ 0)
      (rate_eq : huskyPerBlock s = .ok rate)
      (perShare_eq : perShare = (n - (s.poolInfo pid).lastRewardBlock) * rate *
        (s.poolInfo pid).allocPoint * precision / s.totalAllocPoint / supply)

/-- The outcomes of `updatePool`; `s₁` is the state after the hook. -/
inductive Updated (n pid : Nat) (s : State) : State → Prop
  | current {s₁ : State} (hook : harvestFromFairLaunchV1 n s = .ok s₁)
      (h : n ≤ (s.poolInfo pid).lastRewardBlock) : Updated n pid s s₁
  | accrued {s₁ : State} {perShare : Nat} (hook : harvestFromFairLaunchV1 n s = .ok s₁)
      (behind : (s.poolInfo pid).lastRewardBlock < n)
      (credits : Credits n pid s (s₁.balanceOf (s.stakeTokens pid)) perShare) :
      Updated n pid s (s₁.accrue n pid ((s.poolInfo pid).accHuskyPerShare + perShare))

/-- The reward of a span is at the rate of the first FairLaunch. -/
theorem huskyReward_eq_ok {pool : PoolInfo} {reward : Nat}
    (h : huskyReward n pool s = .ok reward) :
    s.totalAllocPoint ≠ 0 ∧ ∃ rate, huskyPerBlock s = .ok rate ∧
      reward = (n - pool.lastRewardBlock) * rate * pool.allocPoint * precision /
        s.totalAllocPoint := by
  simp only [huskyReward, bind_eq_ok, SafeMath.sub_eq_ok, SafeMath.mul_eq_ok,
    SafeMath.div_eq_ok] at h
  obtain ⟨_, ⟨_, rfl⟩, rate, hrate, _, ⟨_, rfl⟩, _, ⟨_, rfl⟩, _, ⟨_, rfl⟩, htotal, rfl⟩ := h
  exact ⟨htotal, rate, hrate, rfl⟩

/-- The sum per share grows by the reward of one share. -/
theorem addReward_eq_ok {acc reward supply acc' : Nat}
    (h : addReward acc reward supply = .ok acc') :
    acc' = acc + reward / supply := by
  simp only [addReward, bind_eq_ok, SafeMath.div_eq_ok, SafeMath.add_eq_ok] at h
  obtain ⟨_, ⟨_, rfl⟩, _, rfl⟩ := h
  rfl

/-- An update is no change, a new block, or an accrual of what was collected. -/
theorem updatePool_eq_ok (h : updatePool n pid s = .ok s') :
    pid < s.poolLength ∧ Updated n pid s s' := by
  simp only [updatePool, bind_eq_ok] at h
  obtain ⟨s₁, hhook, pool, hpool, h⟩ := h
  obtain ⟨hsame, hrate⟩ := harvestFromFairLaunchV1_eq_ok hhook
  obtain ⟨hpid, rfl⟩ := poolAt_eq_ok hpool
  refine ⟨hsame.poolLength ▸ hpid, ?_⟩
  -- the hook changes only what V2 holds of HUSKY
  rw [hsame.poolInfo, hsame.stakeTokens, hsame.totalAllocPoint] at h
  split at h
  · rename_i hbehind
    split at h
    -- stakes and weights: the share grows by the reward per stake
    · rename_i hdue
      simp only [bind_eq_ok, pure_eq_ok] at h
      obtain ⟨reward, hreward, acc, hacc, rfl⟩ := h
      obtain ⟨htotal, rate, hrate₁, rfl⟩ := huskyReward_eq_ok hreward
      obtain rfl := addReward_eq_ok hacc
      rw [hsame.totalAllocPoint]
      exact .accrued hhook hbehind (.reward hdue.1.ne' hdue.2.ne' (hrate ▸ hrate₁) rfl)
    -- nobody to credit: only the block moves on
    · rename_i hnone
      simp only [bind_eq_ok, pure_eq_ok, Except.ok.injEq] at h
      obtain ⟨_, rfl, rfl⟩ := h
      exact .accrued hhook hbehind (.nothing (by omega) rfl)
  · rename_i hcurrent
    cases h
    exact .current hhook (Nat.le_of_not_lt hcurrent)

/-- Collecting leaves the stakes. -/
theorem sameStakes_of_hook (h : harvestFromFairLaunchV1 n s = .ok s') : SameStakes s s' :=
  (harvestFromFairLaunchV1_eq_ok h).1

theorem Updated.userInfo (h : Updated n pid s s') : s'.userInfo = s.userInfo := by
  cases h with
  | current hook _ => exact (sameStakes_of_hook hook).userInfo
  | accrued hook _ _ => exact (sameStakes_of_hook hook).userInfo

theorem Updated.poolLength (h : Updated n pid s s') : s'.poolLength = s.poolLength := by
  cases h with
  | current hook _ => exact (sameStakes_of_hook hook).poolLength
  | accrued hook _ _ => exact (sameStakes_of_hook hook).poolLength

theorem Updated.totalAllocPoint (h : Updated n pid s s') :
    s'.totalAllocPoint = s.totalAllocPoint := by
  cases h with
  | current hook _ => exact (sameStakes_of_hook hook).totalAllocPoint
  | accrued hook _ _ => exact (sameStakes_of_hook hook).totalAllocPoint

/-- An update writes its own pool only. -/
theorem Updated.poolInfo_of_ne (h : Updated n pid s s') {p : Nat} (hp : p ≠ pid) :
    s'.poolInfo p = s.poolInfo p := by
  cases h with
  | current hook _ => rw [(sameStakes_of_hook hook).poolInfo]
  | accrued hook _ _ =>
      simp [State.accrue, State.setPoolInfo, hp, (sameStakes_of_hook hook).poolInfo]

theorem Updated.allocPoint (h : Updated n pid s s') (p : Nat) :
    (s'.poolInfo p).allocPoint = (s.poolInfo p).allocPoint := by
  by_cases hp : p = pid
  · subst hp
    cases h with
    | current hook _ => rw [(sameStakes_of_hook hook).poolInfo]
    | accrued hook _ _ =>
        simp [State.accrue, State.setPoolInfo, (sameStakes_of_hook hook).poolInfo]
  · rw [h.poolInfo_of_ne hp]

/-- The updated pool is at this block. -/
theorem Updated.settled (h : Updated n pid s s') : n ≤ (s'.poolInfo pid).lastRewardBlock := by
  cases h with
  | current hook hcurrent => rwa [(sameStakes_of_hook hook).poolInfo]
  | accrued _ _ _ => simp [State.accrue, State.setPoolInfo]

/-- No running sum falls. -/
theorem Updated.acc_mono (h : Updated n pid s s') (p : Nat) :
    (s.poolInfo p).accHuskyPerShare ≤ (s'.poolInfo p).accHuskyPerShare := by
  by_cases hp : p = pid
  · subst hp
    cases h with
    | current hook _ => rw [(sameStakes_of_hook hook).poolInfo]
    | accrued _ _ _ => simp [State.accrue, State.setPoolInfo]
  · rw [h.poolInfo_of_ne hp]

/-! ## Adding and weighing pools -/

/-- The state after a new pool. -/
def State.added (s : State) (n allocPoint : Nat) (stakeToken locker : Address)
    (startBlock : Nat) : State :=
  { s.setPoolInfo s.poolLength
      { allocPoint, lastRewardBlock := max n startBlock, accHuskyPerShare := 0 } with
    totalAllocPoint := s.totalAllocPoint + allocPoint
    stakeTokens := Function.update s.stakeTokens s.poolLength stakeToken
    lockers := Function.update s.lockers s.poolLength locker
    poolLength := s.poolLength + 1 }

/-- The state after the pool `pid` got a new weight. -/
def State.weighed (s : State) (pid allocPoint : Nat) (lockers : Nat → Address) : State :=
  { s.setPoolInfo pid { s.poolInfo pid with allocPoint } with
    totalAllocPoint := s.totalAllocPoint - (s.poolInfo pid).allocPoint + allocPoint
    lockers }

/-- A pool that is added has no stake. -/
theorem addPool_eq_ok {allocPoint startBlock : Nat} {stakeToken locker : Address}
    (h : addPool msg allocPoint stakeToken locker startBlock s = .ok s') :
    s' = s.added msg.blockNumber allocPoint stakeToken locker startBlock := by
  simp only [addPool, onlyOwner, bind_eq_ok, require_eq_ok, SafeMath.add_eq_ok, pure_eq_ok] at h
  obtain ⟨_, _, _, _, _, ⟨_, rfl⟩, rfl⟩ := h
  rfl

/-- A new weight takes effect after the pool was updated. -/
theorem setPool_eq_ok {allocPoint : Nat} {locker : Address} {overwrite : Bool}
    (h : setPool msg pid allocPoint locker overwrite s = .ok s') :
    ∃ s₁ lockers, updatePool msg.blockNumber pid s = .ok s₁ ∧ pid < s₁.poolLength ∧
      (s₁.poolInfo pid).allocPoint ≤ s₁.totalAllocPoint ∧
      s' = s₁.weighed pid allocPoint lockers := by
  simp only [setPool, onlyOwner, bind_eq_ok, require_eq_ok, SafeMath.sub_eq_ok,
    SafeMath.add_eq_ok, pure_eq_ok] at h
  obtain ⟨_, _, s₁, hupdate, pool, hpool, _, ⟨hle, rfl⟩, _, ⟨_, rfl⟩, rfl⟩ := h
  obtain ⟨hpid, rfl⟩ := poolAt_eq_ok hpool
  exact ⟨s₁, _, hupdate, hpid, hle, rfl⟩

/-! ## Entries -/

/-- What is done to an entry. -/
inductive Action
  | deposit (amount : Nat)
  | withdraw (amount : Nat)
  | harvest
  | emergencyWithdraw

/-- `amount` shares' part of the accumulator, floored. -/
def State.entitled (s : State) (pid amount : Nat) : Nat :=
  amount * (s.poolInfo pid).accHuskyPerShare / precision

/-- What an action of `sender` makes of an entry, in the updated state. -/
inductive Writes (sender : Address) (s : State) (pid : Nat) (user : Address) :
    Action → UserInfo → Prop
  | deposit {amount : Nat} (sender_ne : sender ≠ 0)
      (funder : (s.userInfo pid user).fundedBy = 0 ∨ (s.userInfo pid user).fundedBy = sender) :
      Writes sender s pid user (.deposit amount)
        { amount := (s.userInfo pid user).amount + amount
          rewardDebt := (s.userInfo pid user).rewardDebt + s.entitled pid amount
          fundedBy := sender }
  | withdraw {amount : Nat} (funder : (s.userInfo pid user).fundedBy = sender)
      (le : amount ≤ (s.userInfo pid user).amount) :
      Writes sender s pid user (.withdraw amount)
        { amount := (s.userInfo pid user).amount - amount
          rewardDebt := s.entitled pid (s.userInfo pid user).amount - s.entitled pid amount
          fundedBy := if (s.userInfo pid user).amount - amount = 0 then 0 else sender }
  | harvest : Writes sender s pid user .harvest
      { s.userInfo pid user with rewardDebt := s.entitled pid (s.userInfo pid user).amount }
  | emergencyWithdraw (own : user = sender) (funder : (s.userInfo pid user).fundedBy = sender) :
      Writes sender s pid user .emergencyWithdraw {}

/-- An action on an entry leaves the pools and the other entries. -/
structure Acts (sender : Address) (pid : Nat) (user : Address) (action : Action)
    (s s' : State) : Prop where
  listed : pid < s.poolLength
  pools : SamePools s s'
  writes : ∃ info, Writes sender s pid user action info ∧
    s'.userInfo = (s.setUserInfo pid user info).userInfo

theorem samePools_setUserInfo (info : UserInfo) : SamePools s (s.setUserInfo pid user info) :=
  ⟨rfl, rfl, rfl, rfl, rfl, rfl, rfl⟩

theorem userInfo_setUserInfo {info : UserInfo} :
    (s.setUserInfo pid user info).userInfo pid user = info := by
  simp [State.setUserInfo]

theorem userInfo_setUserInfo_of_ne {info : UserInfo} {p : Nat} {u : Address}
    (h : p ≠ pid ∨ u ≠ user) : (s.setUserInfo pid user info).userInfo p u = s.userInfo p u := by
  by_cases hp : p = pid
  · subst hp
    simp [State.setUserInfo, h.resolve_left (fun hne => hne rfl)]
  · simp [State.setUserInfo, hp]

theorem setUserInfo_self :
    (s.setUserInfo pid user (s.userInfo pid user)).userInfo = s.userInfo := by
  simp [State.setUserInfo]

/-- What is due is what the stake is entitled to, less its debt. -/
theorem due_eq_ok {total pending : Nat} (h : due pid user s = .ok (total, pending)) :
    pid < s.poolLength ∧ total = s.entitled pid (s.userInfo pid user).amount ∧
      (s.userInfo pid user).rewardDebt ≤ total ∧
      pending = total - (s.userInfo pid user).rewardDebt := by
  simp only [due, accumulated, bind_eq_ok, SafeMath.mul_eq_ok, SafeMath.div_eq_ok,
    SafeMath.sub_eq_ok, pure_eq_ok, Prod.mk.injEq] at h
  obtain ⟨pool, hpool, _, ⟨_, ⟨_, rfl⟩, _, rfl⟩, _, ⟨hle, rfl⟩, rfl, rfl⟩ := h
  obtain ⟨hpid, rfl⟩ := poolAt_eq_ok hpool
  exact ⟨hpid, rfl, hle, rfl⟩

/-- A harvest finds no more debt than entitlement, and settles the debt. -/
theorem _harvest_eq_ok (h : _harvest n user pid s = .ok s') :
    (s.userInfo pid user).rewardDebt ≤ s.entitled pid (s.userInfo pid user).amount ∧
      Acts msg.sender pid user .harvest s s' := by
  simp only [_harvest, bind_eq_ok] at h
  obtain ⟨s₁, hhook, ⟨total, pending⟩, hdue, h⟩ := h
  have hsame := sameStakes_of_hook hhook
  obtain ⟨hpid, htotal, hle, hpending⟩ := due_eq_ok hdue
  have hentitled : s₁.entitled pid = s.entitled pid := by
    unfold State.entitled
    rw [hsame.poolInfo]
  rw [hentitled, hsame.userInfo] at htotal
  rw [hsame.userInfo] at hle hpending
  subst htotal
  have hlisted : pid < s.poolLength := hsame.poolLength ▸ hpid
  refine ⟨hle, ?_⟩
  split at h
  · rename_i hzero
    cases h
    -- nothing is due, so that the debt is the entitlement already
    have hdebt : s.entitled pid (s.userInfo pid user).amount =
        (s.userInfo pid user).rewardDebt := by
      omega
    refine ⟨hlisted, hsame.toSamePools, _, .harvest, ?_⟩
    rw [hdebt, hsame.userInfo]
    exact setUserInfo_self.symm
  · simp only [bind_eq_ok] at h
    obtain ⟨_, _, hpay⟩ := h
    have hpaid := sameStakes_payReward hpay
    refine ⟨hlisted, (hsame.toSamePools.trans (samePools_setUserInfo _)).trans hpaid.toSamePools, _,
      .harvest, ?_⟩
    rw [hpaid.userInfo]
    simp [State.setUserInfo, hsame.userInfo]

/-- A deposit collects, updates, pays and takes the stake. -/
theorem deposit_eq_ok {amount : Nat} (h : deposit msg user pid amount s = .ok s') :
    ∃ s₁ s₂, harvestFromFairLaunchV1 msg.blockNumber s = .ok s₁ ∧
      updatePool msg.blockNumber pid s₁ = .ok s₂ ∧
      Acts msg.sender pid user (.deposit amount) s₂ s' := by
  simp only [deposit, bind_eq_ok, require_eq_ok, SafeMath.add_eq_ok, SafeMath.mul_eq_ok] at h
  obtain ⟨s₁, hhook, s₂, hupdate, pool, hpool, _, hfunder, _, ⟨_, rfl⟩, _, ⟨_, rfl⟩, _,
    ⟨_, rfl⟩, hmove⟩ := h
  obtain ⟨hpid, rfl⟩ := poolAt_eq_ok hpool
  have hmoved := sameStakes_safeTransferFrom hmove
  have hfunded : (if (s₂.userInfo pid user).fundedBy = 0 then msg.sender
      else (s₂.userInfo pid user).fundedBy) = msg.sender := by
    split
    · rfl
    · rename_i hsome
      exact hfunder.resolve_left hsome
  refine ⟨s₁, s₂, hhook, hupdate, hpid, (samePools_setUserInfo _).trans hmoved.toSamePools, _,
    .deposit (holder_ne_of_safeTransferFrom hmove) hfunder, ?_⟩
  rw [hmoved.userInfo, hfunded]
  rfl

/-- A withdrawal updates, pays and returns the stake. -/
theorem withdraw_eq_ok {amount : Nat} (h : withdraw msg user pid amount s = .ok s') :
    ∃ s₁, updatePool msg.blockNumber pid s = .ok s₁ ∧
      Acts msg.sender pid user (.withdraw amount) s₁ s' := by
  simp only [withdraw, bind_eq_ok, require_eq_ok, SafeMath.sub_eq_ok, SafeMath.mul_eq_ok] at h
  obtain ⟨s₁, hupdate, pool, hpool, _, hfunder, _, hle, s₂, hharvest, _, ⟨_, rfl⟩, _,
    ⟨_, rfl⟩, _, ⟨_, rfl⟩, hmove⟩ := h
  obtain ⟨hpid, rfl⟩ := poolAt_eq_ok hpool
  have hacts : _ ∧ Acts msg.sender pid user .harvest s₁ s₂ := _harvest_eq_ok hharvest
  obtain ⟨_, _, hpools, info, hwrites, huser⟩ := hacts
  cases hwrites
  have hmoved := sameStakes_safeTransfer hmove
  refine ⟨s₁, hupdate, hpid,
    (hpools.trans (samePools_setUserInfo _)).trans hmoved.toSamePools, _,
    .withdraw hfunder hle, ?_⟩
  have hentry : s₂.userInfo pid user = { s₁.userInfo pid user with
      rewardDebt := s₁.entitled pid (s₁.userInfo pid user).amount } := by
    rw [huser, userInfo_setUserInfo]
  rw [hmoved.userInfo, hentry, ← hfunder]
  simp [State.setUserInfo, huser, State.entitled]

/-- A harvest updates and pays. -/
theorem harvest_eq_ok (h : harvest msg pid s = .ok s') :
    ∃ s₁, updatePool msg.blockNumber pid s = .ok s₁ ∧
      Acts msg.sender pid msg.sender .harvest s₁ s' := by
  simp only [harvest, bind_eq_ok] at h
  obtain ⟨s₁, hupdate, hharvest⟩ := h
  exact ⟨s₁, hupdate, (_harvest_eq_ok hharvest).2⟩

/-- An emergency withdrawal returns the stake and pays nothing. -/
theorem emergencyWithdraw_eq_ok {recipient : Address}
    (h : emergencyWithdraw msg pid recipient s = .ok s') :
    Acts msg.sender pid msg.sender .emergencyWithdraw s s' := by
  simp only [emergencyWithdraw, bind_eq_ok, require_eq_ok] at h
  obtain ⟨_, hfunder, _, hpid, hmove⟩ := h
  have hmoved := sameStakes_safeTransfer hmove
  exact ⟨hpid, (samePools_setUserInfo _).trans hmoved.toSamePools, {},
    .emergencyWithdraw rfl hfunder, hmoved.userInfo⟩

end Huski.FairLaunchV2
