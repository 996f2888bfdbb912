import Huski.FairLaunch.Model

/-!
# What a successful call of FairLaunch did

One inversion lemma for each function of `Huski.FairLaunch.Model`. `updatePool` has
three outcomes (`Updated`): the pool was current, it held no stake, or it accrued.
A settlement is an update, a harvest (`Harvested`), a movement of stake and the new
debts of the user (`settleUser`).
-/

namespace Huski.FairLaunch

open Solidity State

variable {msg : Msg} {n pid : Nat} {user : Address} {s s' : State}

theorem poolAt_eq_ok {pool : PoolInfo} (h : s.poolAt pid = .ok pool) :
    pid < s.poolLength ∧ pool = s.poolInfo pid := by
  unfold State.poolAt at h
  split at h
  · rename_i hpid
    cases h
    exact ⟨hpid, rfl⟩
  · cases h

theorem onHusky_eq_ok {f : HuskyToken → Result HuskyToken} (h : s.onHusky f = .ok s') :
    ∃ husky, f s.husky = .ok husky ∧ s' = s.setHusky husky := by
  simp only [State.onHusky, bind_eq_ok, pure_eq_ok] at h
  obtain ⟨husky, hf, rfl⟩ := h
  exact ⟨husky, hf, rfl⟩

/-! ## Rewards -/

/-- The multipliers of all blocks up to `b`. -/
def State.blockWeight (s : State) (b : Nat) : Nat :=
  min b s.bonusEndBlock * s.bonusMultiplier + (b - s.bonusEndBlock)

theorem blockWeight_mono (s : State) {a b : Nat} (h : a ≤ b) :
    s.blockWeight a ≤ s.blockWeight b := by
  unfold State.blockWeight
  have hmin : min a s.bonusEndBlock ≤ min b s.bonusEndBlock := by omega
  exact Nat.add_le_add (Nat.mul_le_mul_right _ hmin) (by omega)

/-- `getMultiplier` is the weight of the blocks after `last` up to `current`. -/
theorem getMultiplier_eq_ok {last current m : Nat} (h : getMultiplier last current s = .ok m) :
    m + s.blockWeight last = s.blockWeight current := by
  unfold getMultiplier at h
  unfold State.blockWeight
  split at h
  -- the whole span in the bonus window
  · rename_i hin
    simp only [bind_eq_ok, SafeMath.sub_eq_ok, SafeMath.mul_eq_ok] at h
    obtain ⟨_, ⟨hle, rfl⟩, _, rfl⟩ := h
    have hl : min last s.bonusEndBlock = last := by omega
    have hc : min current s.bonusEndBlock = current := by omega
    rw [hl, hc, ← Nat.sub_add_cancel hle, Nat.add_sub_cancel, Nat.add_mul]
    omega
  · split at h
    -- the whole span after it
    · simp only [SafeMath.sub_eq_ok] at h
      obtain ⟨hle, rfl⟩ := h
      have hl : min last s.bonusEndBlock = s.bonusEndBlock := by omega
      have hc : min current s.bonusEndBlock = s.bonusEndBlock := by omega
      rw [hl, hc]
      omega
    -- the span crosses its end
    · simp only [bind_eq_ok, SafeMath.sub_eq_ok, SafeMath.mul_eq_ok, SafeMath.add_eq_ok] at h
      obtain ⟨_, ⟨hle, rfl⟩, _, ⟨_, rfl⟩, _, ⟨_, rfl⟩, _, rfl⟩ := h
      have hl : min last s.bonusEndBlock = last := by omega
      have hc : min current s.bonusEndBlock = s.bonusEndBlock := by omega
      have hsplit : s.bonusEndBlock * s.bonusMultiplier =
          (s.bonusEndBlock - last) * s.bonusMultiplier + last * s.bonusMultiplier := by
        rw [← Nat.add_mul, Nat.sub_add_cancel hle]
      rw [hl, hc, hsplit]
      omega

theorem huskyReward_eq_ok {pool : PoolInfo} {m reward : Nat}
    (h : huskyReward pool m s = .ok reward) :
    s.totalAllocPoint ≠ 0 ∧
      reward = m * s.huskyPerBlock * pool.allocPoint / s.totalAllocPoint := by
  simp only [huskyReward, bind_eq_ok, SafeMath.mul_eq_ok, SafeMath.div_eq_ok] at h
  obtain ⟨_, ⟨_, rfl⟩, _, ⟨_, rfl⟩, htotal, rfl⟩ := h
  exact ⟨htotal, rfl⟩

/-- The sum per share grows by the reward, rounded down for each share. -/
theorem addPerShare_eq_ok {acc reward lpSupply acc' : Nat}
    (h : addPerShare acc reward lpSupply = .ok acc') :
    acc' < wordSize ∧ acc' = acc + reward * precision / lpSupply := by
  simp only [addPerShare, bind_eq_ok, SafeMath.mul_eq_ok, SafeMath.div_eq_ok,
    SafeMath.add_eq_ok] at h
  obtain ⟨_, ⟨_, rfl⟩, _, ⟨_, rfl⟩, hlt, rfl⟩ := h
  exact ⟨hlt, rfl⟩

/-- What a position earned is what its stake is worth, less what it was paid. -/
theorem earned_eq_ok {amount acc debt v : Nat} (h : earned amount acc debt = .ok v) :
    debt ≤ amount * acc / precision ∧ v = amount * acc / precision - debt := by
  simp only [earned, bind_eq_ok, SafeMath.mul_eq_ok, SafeMath.div_eq_ok,
    SafeMath.sub_eq_ok] at h
  obtain ⟨_, ⟨_, rfl⟩, _, ⟨_, rfl⟩, hle, rfl⟩ := h
  exact ⟨hle, rfl⟩

theorem lockDev_eq_ok {amount : Nat} (h : lockDev amount s = .ok s') :
    ∃ husky, s.husky.lock s.here s.devaddr (amount * s.bonusLockUpBps / 100000) = .ok husky ∧
      s' = s.setHusky husky := by
  simp only [lockDev, bind_eq_ok, SafeMath.mul_eq_ok] at h
  obtain ⟨_, ⟨_, rfl⟩, h⟩ := h
  exact onHusky_eq_ok h

/-! ## Updating a pool -/

/-- The state after the accrual `a` of its pool. -/
def State.accrue (s : State) (husky : HuskyToken) (multiplier til : Nat) (a : Accrual) : State :=
  { (s.setHusky husky).setPoolInfo a.pid { s.poolInfo a.pid with
      lastRewardBlock := a.toBlock
      accHuskyPerShare :=
        (s.poolInfo a.pid).accHuskyPerShare + a.reward * precision / a.lpSupply
      accHuskyPerShareTilBonusEnd := til } with
    lastMultiplier := multiplier
    accruals := a :: s.accruals }

/-- What moves the second accumulator of a pool: an update in the bonus window sets it to
the main one, the first update past the end of a window adds the portion in the window. -/
inductive BonusShare (n : Nat) (s : State) (a : Accrual) (til : Nat) : Prop
  | window (inside : n ≤ s.bonusEndBlock) (all : a.bonusReward = a.reward)
      (til_eq : til =
        (s.poolInfo a.pid).accHuskyPerShare + a.reward * precision / a.lpSupply)
  | crossing (past : s.bonusEndBlock < n)
      (before : (s.poolInfo a.pid).lastRewardBlock < s.bonusEndBlock)
      (portion : a.bonusReward =
        (s.bonusEndBlock - (s.poolInfo a.pid).lastRewardBlock) * s.bonusMultiplier *
          s.huskyPerBlock * (s.poolInfo a.pid).allocPoint / s.totalAllocPoint)
      (til_eq : til = (s.poolInfo a.pid).accHuskyPerShareTilBonusEnd +
        a.bonusReward * precision / a.lpSupply)
  | after (past : s.bonusEndBlock < n)
      (after : s.bonusEndBlock ≤ (s.poolInfo a.pid).lastRewardBlock)
      (none : a.bonusReward = 0)
      (til_eq : til = (s.poolInfo a.pid).accHuskyPerShareTilBonusEnd)

/-- What `devaddr` has locked by an accrual. -/
def State.devLock (s : State) (a : Accrual) : Nat := a.bonusReward * s.bonusLockUpBps / 100000

/-- An accrual of the pool `pid` at block `n`, and the HUSKY it minted. -/
structure Accrues (n pid : Nat) (s : State) (a : Accrual) (multiplier til : Nat)
    (husky : HuskyToken) : Prop where
  pid_eq : a.pid = pid
  toBlock : a.toBlock = n
  fromBlock : a.fromBlock = (s.poolInfo pid).lastRewardBlock
  behind : (s.poolInfo pid).lastRewardBlock < n
  supply : a.lpSupply = s.stakeBalance (s.poolInfo pid).stakeToken
  staked : a.lpSupply ≠ 0
  total : s.totalAllocPoint ≠ 0
  multiplier_eq : getMultiplier (s.poolInfo pid).lastRewardBlock n s = .ok multiplier
  reward_eq : a.reward =
    multiplier * s.huskyPerBlock * (s.poolInfo pid).allocPoint / s.totalAllocPoint
  word : (s.poolInfo pid).accHuskyPerShare + a.reward * precision / a.lpSupply < wordSize
  bonus : BonusShare n s a til
  husky_owner : husky.owner = s.husky.owner
  husky_here : husky.here = s.husky.here
  husky_supply : husky.erc20.totalSupply =
    s.husky.erc20.totalSupply + (a.reward + a.reward / 10)
  husky_balance : ∀ x, husky.balanceOf x + (if x = s.devaddr then s.devLock a else 0) =
    s.husky.balanceOf x + (if x = s.devaddr then a.reward / 10 else 0) +
      (if x = s.here then a.reward else 0) + if x = s.husky.here then s.devLock a else 0

/-- The outcomes of `updatePool`. -/
inductive Updated (n pid : Nat) (s : State) : State → Prop
  | current (h : n ≤ (s.poolInfo pid).lastRewardBlock) : Updated n pid s s
  | empty (behind : (s.poolInfo pid).lastRewardBlock < n)
      (hempty : s.stakeBalance (s.poolInfo pid).stakeToken = 0) :
      Updated n pid s (s.setPoolInfo pid { s.poolInfo pid with lastRewardBlock := n })
  | accrued {a : Accrual} {multiplier til : Nat} {husky : HuskyToken}
      (accrues : Accrues n pid s a multiplier til husky) :
      Updated n pid s (s.accrue husky multiplier til a)

/-- What an update of the bonus did to the tokens of `devaddr`. -/
structure BonusLocked (s : State) (lock : Nat) (husky : HuskyToken) : Prop where
  owner : husky.owner = s.husky.owner
  here : husky.here = s.husky.here
  supply : husky.erc20.totalSupply = s.husky.erc20.totalSupply
  balance : ∀ x, husky.balanceOf x + (if x = s.devaddr then lock else 0) =
    s.husky.balanceOf x + if x = s.husky.here then lock else 0

/-- A lock moves HUSKY from the dev to the token contract. -/
theorem bonusLocked_of_lock {lock : Nat} {husky : HuskyToken}
    (h : s.husky.lock s.here s.devaddr lock = .ok husky) : BonusLocked s lock husky := by
  obtain ⟨howner, hhere, hsupply, _, hbalance⟩ := HuskyToken.lock_eq_ok h
  exact ⟨howner, hhere, hsupply, hbalance⟩

/-- The bonus of an update is recorded in the pool's second sum, and locked for the dev. -/
theorem updateBonus_eq_ok {pool : PoolInfo} {reward acc lpSupply til bonusReward : Nat}
    (hacc : acc = pool.accHuskyPerShare + reward * precision / lpSupply)
    (h : updateBonus n pool reward acc lpSupply s = .ok (til, bonusReward, s')) :
    ∃ husky, s' = s.setHusky husky ∧
      BonusLocked s (bonusReward * s.bonusLockUpBps / 100000) husky ∧
      ∀ a : Accrual, s.poolInfo a.pid = pool → a.reward = reward → a.bonusReward = bonusReward →
        a.lpSupply = lpSupply → BonusShare n s a til := by
  unfold updateBonus at h
  split at h
  -- inside the window the whole reward is bonus
  · rename_i hinside
    simp only [bind_eq_ok, pure_eq_ok, Prod.mk.injEq] at h
    obtain ⟨_, hlock, rfl, rfl, rfl⟩ := h
    obtain ⟨husky, htoken, rfl⟩ := lockDev_eq_ok hlock
    refine ⟨husky, rfl, bonusLocked_of_lock htoken, ?_⟩
    rintro a rfl rfl hbonus rfl
    exact .window hinside hbonus hacc
  · rename_i hpast
    split at h
    -- the part of the reward up to its end
    · rename_i hbefore
      simp only [huskyBonusPortion, bind_eq_ok, pure_eq_ok, Prod.mk.injEq, SafeMath.sub_eq_ok,
        SafeMath.mul_eq_ok, SafeMath.div_eq_ok] at h
      obtain ⟨portion, ⟨_, ⟨_, rfl⟩, _, ⟨_, rfl⟩, _, ⟨_, rfl⟩, _, ⟨_, rfl⟩, _, hportion⟩, _,
        hlock, til', htil, rfl, rfl, rfl⟩ := h
      obtain ⟨husky, htoken, rfl⟩ := lockDev_eq_ok hlock
      refine ⟨husky, rfl, bonusLocked_of_lock htoken, ?_⟩
      rintro a rfl _ rfl rfl
      exact .crossing (by omega) hbefore hportion (addPerShare_eq_ok htil).2
    -- no bonus any more
    · rename_i hafter
      simp only [Except.ok.injEq, Prod.mk.injEq] at h
      obtain ⟨rfl, rfl, rfl⟩ := h
      refine ⟨s.husky, rfl, ⟨rfl, rfl, rfl, by simp⟩, ?_⟩
      rintro a rfl _ hbonus _
      exact .after (by omega) (by omega) hbonus rfl

/-- An accrual mints the reward of the span and adds it to the pool's sums. -/
theorem accruePool_eq_ok (hbehind : (s.poolInfo pid).lastRewardBlock < n)
    (hstaked : s.stakeBalance (s.poolInfo pid).stakeToken ≠ 0)
    (h : accruePool n pid (s.poolInfo pid)
      (s.stakeBalance (s.poolInfo pid).stakeToken) s = .ok s') :
    ∃ a multiplier til husky, Accrues n pid s a multiplier til husky ∧
      s' = s.accrue husky multiplier til a := by
  simp only [accruePool, bind_eq_ok, pure_eq_ok] at h
  obtain ⟨m, hm, reward, hreward, _, hdev, _, hpool, acc, hacc, ⟨til, bonusReward, s₃⟩, hbonus,
    rfl⟩ := h
  -- the developer's tenth first, then the pool's reward
  obtain ⟨h₁, hmint₁, rfl⟩ := onHusky_eq_ok hdev
  obtain ⟨h₂, hmint₂, rfl⟩ := onHusky_eq_ok hpool
  obtain ⟨hword, rfl⟩ := addPerShare_eq_ok hacc
  obtain ⟨h₃, rfl, hlocked, hshare⟩ := updateBonus_eq_ok rfl hbonus
  obtain ⟨htotal, hreward⟩ := huskyReward_eq_ok hreward
  obtain ⟨_, howner₁, hhere₁, hsupply₁, hbal₁⟩ := HuskyToken.mint_eq_ok hmint₁
  obtain ⟨_, howner₂, hhere₂, hsupply₂, hbal₂⟩ := HuskyToken.mint_eq_ok hmint₂
  let a : Accrual :=
    { pid, fromBlock := (s.poolInfo pid).lastRewardBlock, toBlock := n, reward, bonusReward,
      lpSupply := s.stakeBalance (s.poolInfo pid).stakeToken }
  have hbonus : BonusShare n s a til := by
    cases hshare a rfl rfl rfl rfl with
    | window inside all til_eq => exact .window inside all til_eq
    | crossing past before portion til_eq => exact .crossing past before portion til_eq
    | after past after none til_eq => exact .after past after none til_eq
  refine ⟨a, m, til, h₃, ⟨rfl, rfl, rfl, hbehind, rfl, hstaked, htotal, hm, hreward, hword,
    hbonus, ?_, ?_, ?_, fun x => ?_⟩, rfl⟩
  · exact hlocked.owner.trans (howner₂.trans howner₁)
  · exact hlocked.here.trans (hhere₂.trans hhere₁)
  -- the lock moves tokens and mints none, so the supply grows by the two mints
  · have := hlocked.supply
    change h₃.erc20.totalSupply = h₂.erc20.totalSupply at this
    simp only [State.setHusky] at hsupply₂
    show h₃.erc20.totalSupply = s.husky.erc20.totalSupply + (reward + reward / 10)
    omega
  -- the balances: two mints, then the developer's share goes to the lock
  · have hhere : h₂.here = s.husky.here := hhere₂.trans hhere₁
    have hfirst := hbal₁ x
    have hsecond : h₂.balanceOf x = h₁.balanceOf x + if x = s.here then reward else 0 := hbal₂ x
    have hlock : h₃.balanceOf x +
        (if x = s.devaddr then bonusReward * s.bonusLockUpBps / 100000 else 0) =
          h₂.balanceOf x + if x = h₂.here then bonusReward * s.bonusLockUpBps / 100000 else 0 :=
      hlocked.balance x
    rw [hhere, hsecond, hfirst] at hlock
    exact hlock

/-- An update is no change, a new block for an empty pool, or an accrual. -/
theorem updatePool_eq_ok (h : updatePool n pid s = .ok s') :
    pid < s.poolLength ∧ Updated n pid s s' := by
  simp only [updatePool, bind_eq_ok] at h
  obtain ⟨pool, hpool, h⟩ := h
  obtain ⟨hpid, rfl⟩ := poolAt_eq_ok hpool
  refine ⟨hpid, ?_⟩
  split at h
  · rename_i hcurrent
    cases h
    exact .current hcurrent
  · rename_i hbehind
    split at h
    · rename_i hempty
      cases h
      exact .empty (by omega) hempty
    · rename_i hstaked
      obtain ⟨a, m, til, husky, haccrues, rfl⟩ := accruePool_eq_ok (by omega) hstaked h
      exact .accrued haccrues

theorem Updated.poolLength (h : Updated n pid s s') : s'.poolLength = s.poolLength := by
  cases h <;> rfl

theorem Updated.lastRewardBlock_mono (h : Updated n pid s s') (p : Nat) :
    (s.poolInfo p).lastRewardBlock ≤ (s'.poolInfo p).lastRewardBlock := by
  by_cases hp : p = pid
  · subst hp
    cases h with
    | current _ => exact le_rfl
    | empty behind _ => simp [State.setPoolInfo, behind.le]
    | accrued accrues =>
        simp [State.accrue, State.setPoolInfo, accrues.pid_eq, accrues.toBlock, accrues.behind.le]
  · cases h with
    | current _ => exact le_rfl
    | empty _ _ => simp [State.setPoolInfo, Function.update_of_ne hp]
    | accrued accrues =>
        simp [State.accrue, State.setPoolInfo, State.setHusky, accrues.pid_eq, hp]

/-- The updated pool is at this block. -/
theorem Updated.settled (h : Updated n pid s s') : n ≤ (s'.poolInfo pid).lastRewardBlock := by
  cases h with
  | current h => exact h
  | empty _ _ => simp [State.setPoolInfo]
  | accrued accrues =>
      simp [State.accrue, State.setPoolInfo, accrues.pid_eq, accrues.toBlock]

/-- What the update of any pool preserves, `massUpdatePools` preserves. -/
theorem massUpdatePools_induct {P : State → Prop} (h : massUpdatePools n s = .ok s')
    (hs : P s) (hstep : ∀ t t' pid, P t → pid < t.poolLength → Updated n pid t t' → P t') :
    P s' := by
  refine foldlM_induct (fun t pid t' ht h => ?_) h hs
  obtain ⟨hpid, hupdated⟩ := updatePool_eq_ok h
  exact hstep t t' pid ht hpid hupdated

/-- `massUpdatePools` leaves no pool behind. -/
theorem massUpdatePools_settled (h : massUpdatePools n s = .ok s') (hpid : pid < s.poolLength) :
    n ≤ (s'.poolInfo pid).lastRewardBlock := by
  refine foldlM_forall (Q := fun pid t => n ≤ (t.poolInfo pid).lastRewardBlock) ?_ ?_ h pid
    (List.mem_range.mpr hpid)
  · intro t p t' h
    exact (updatePool_eq_ok h).2.settled
  · intro t p t' q hq h
    exact hq.trans ((updatePool_eq_ok h).2.lastRewardBlock_mono q)

/-! ## Adding and weighing pools -/

/-- The state after a new pool. -/
def State.added (s : State) (n allocPoint : Nat) (stakeToken : Address) : State :=
  { s.setPoolInfo s.poolLength
      { stakeToken, allocPoint, lastRewardBlock := max n s.startBlock
        accHuskyPerShare := 0, accHuskyPerShareTilBonusEnd := 0 } with
    totalAllocPoint := s.totalAllocPoint + allocPoint
    poolLength := s.poolLength + 1 }

/-- The state after the pool `pid` got a new weight. -/
def State.weighed (s : State) (pid allocPoint : Nat) : State :=
  { s.setPoolInfo pid { s.poolInfo pid with allocPoint } with
    totalAllocPoint := s.totalAllocPoint - (s.poolInfo pid).allocPoint + allocPoint }

/-- The stake tokens of the pools are other tokens. -/
theorem isDuplicatedPool_eq_false {stakeToken : Address} :
    isDuplicatedPool stakeToken s = false ↔
      ∀ p < s.poolLength, (s.poolInfo p).stakeToken ≠ stakeToken := by
  simp [isDuplicatedPool]

theorem addPool_eq_ok {allocPoint : Nat} {stakeToken : Address} {withUpdate : Bool}
    (h : addPool msg allocPoint stakeToken withUpdate s = .ok s') :
    s.owner = msg.sender ∧ stakeToken ≠ 0 ∧
    ∃ s₁, updateIf msg withUpdate s = .ok s₁ ∧
      (∀ p < s₁.poolLength, (s₁.poolInfo p).stakeToken ≠ stakeToken) ∧
      s' = s₁.added msg.blockNumber allocPoint stakeToken := by
  simp only [addPool, onlyOwner, bind_eq_ok, require_eq_ok, SafeMath.add_eq_ok,
    pure_eq_ok] at h
  obtain ⟨_, howner, s₁, hupdate, _, htoken, _, hfresh, _, ⟨_, rfl⟩, rfl⟩ := h
  exact ⟨howner, htoken, s₁, hupdate, isDuplicatedPool_eq_false.mp hfresh, rfl⟩

theorem setPool_eq_ok {allocPoint : Nat} (h : setPool msg pid allocPoint s = .ok s') :
    ∃ s₁, massUpdatePools msg.blockNumber s = .ok s₁ ∧ pid < s₁.poolLength ∧
      (s₁.poolInfo pid).allocPoint ≤ s₁.totalAllocPoint ∧ s' = s₁.weighed pid allocPoint := by
  simp only [setPool, onlyOwner, bind_eq_ok, require_eq_ok, SafeMath.sub_eq_ok,
    SafeMath.add_eq_ok, pure_eq_ok] at h
  obtain ⟨_, _, s₁, hupdate, pool, hpool, _, ⟨hle, rfl⟩, _, ⟨_, rfl⟩, rfl⟩ := h
  obtain ⟨hpid, rfl⟩ := poolAt_eq_ok hpool
  exact ⟨s₁, hupdate, hpid, hle, rfl⟩

/-! ## Harvests -/

/-- The running sum of a pool. -/
def State.acc (s : State) (pid : Nat) : Nat := (s.poolInfo pid).accHuskyPerShare
/-- The running sum of a pool's bonus. -/
def State.til (s : State) (pid : Nat) : Nat := (s.poolInfo pid).accHuskyPerShareTilBonusEnd

/-- The reward a harvest pays. -/
def State.pending (s : State) (pid : Nat) (user : Address) : Nat :=
  (s.userInfo pid user).amount * s.acc pid / precision - (s.userInfo pid user).rewardDebt

/-- The `bonus` of a harvest. -/
def State.bonus (s : State) (pid : Nat) (user : Address) : Nat :=
  (s.userInfo pid user).amount * s.til pid / precision - (s.userInfo pid user).bonusDebt

/-- What a harvest locks. -/
def State.userLock (s : State) (pid : Nat) (user : Address) : Nat :=
  s.bonus pid user * s.bonusLockUpBps / 10000

/-- The state after a payment in HUSKY and badge points. -/
def State.paid (s : State) (husky : HuskyToken) (badgePoints : Option BadgePoints) : State :=
  { s.setHusky husky with badgePoints }

/-- What a harvest checked, and the HUSKY it moved: the reward to the user, and the
locked part of it on to HUSKY itself. -/
structure Harvests (user : Address) (pid : Nat) (s : State) (husky : HuskyToken) : Prop where
  listed : pid < s.poolLength
  staked : 0 < (s.userInfo pid user).amount
  rewardDebt_le : (s.userInfo pid user).rewardDebt ≤
    (s.userInfo pid user).amount * s.acc pid / precision
  bonusDebt_le : (s.userInfo pid user).bonusDebt ≤
    (s.userInfo pid user).amount * s.til pid / precision
  pending_le : s.pending pid user ≤ s.husky.balanceOf s.here
  husky_owner : husky.owner = s.husky.owner
  husky_here : husky.here = s.husky.here
  husky_supply : husky.erc20.totalSupply = s.husky.erc20.totalSupply
  husky_balance : ∀ x, husky.balanceOf x + (if x = s.here then s.pending pid user else 0) +
      (if x = user then s.userLock pid user else 0) =
    s.husky.balanceOf x + (if x = user then s.pending pid user else 0) +
      if x = s.husky.here then s.userLock pid user else 0

theorem safeHuskyTransfer_eq_ok {recipient : Address} {amount : Nat}
    (hle : amount ≤ s.husky.balanceOf s.here)
    (h : safeHuskyTransfer n recipient amount s = .ok s') :
    ∃ husky, s.husky.transfer s.here n recipient amount = .ok husky ∧ s' = s.setHusky husky := by
  unfold safeHuskyTransfer at h
  rw [if_neg (by omega)] at h
  exact onHusky_eq_ok h

theorem mintPoints_eq_ok {info : UserInfo} {pool : PoolInfo}
    (h : mintPoints user info pool s = .ok s') :
    ∃ badgePoints, s' = { s with badgePoints } := by
  unfold mintPoints at h
  split at h
  · simp only [bind_eq_ok, pure_eq_ok] at h
    obtain ⟨_, _, _, _, _, _, points, _, rfl⟩ := h
    exact ⟨some points, rfl⟩
  · cases h
    exact ⟨s.badgePoints, rfl⟩

theorem _harvest_eq_ok (h : _harvest n user pid s = .ok s') :
    ∃ husky badgePoints, Harvests user pid s husky ∧ s' = s.paid husky badgePoints := by
  simp only [_harvest, bind_eq_ok, require_eq_ok, SafeMath.mul_eq_ok] at h
  obtain ⟨pool, hpool, _, hstaked, pending, hpending, _, hle, bonus, hbonus, _, htransfer, _,
    ⟨_, rfl⟩, _, hlock, hpoints⟩ := h
  obtain ⟨hlisted, rfl⟩ := poolAt_eq_ok hpool
  obtain ⟨hdebt, rfl⟩ := earned_eq_ok hpending
  obtain ⟨hbonusDebt, rfl⟩ := earned_eq_ok hbonus
  obtain ⟨h₁, hmove₁, rfl⟩ := safeHuskyTransfer_eq_ok hle htransfer
  obtain ⟨h₂, hmove₂, rfl⟩ := onHusky_eq_ok hlock
  obtain ⟨points, rfl⟩ := mintPoints_eq_ok hpoints
  obtain ⟨howner₁, hhere₁, hsupply₁, _, hbal₁⟩ := HuskyToken.transfer_eq_ok hmove₁
  obtain ⟨howner₂, hhere₂, hsupply₂, _, hbal₂⟩ := HuskyToken.lock_eq_ok hmove₂
  refine ⟨h₂, points, ⟨hlisted, hstaked, hdebt, hbonusDebt, hle, ?_, ?_, ?_, fun x => ?_⟩, rfl⟩
  · exact howner₂.trans howner₁
  · exact hhere₂.trans hhere₁
  · exact hsupply₂.trans hsupply₁
  · have hfirst : h₁.balanceOf x + (if x = s.here then s.pending pid user else 0) =
        s.husky.balanceOf x + (if x = user then s.pending pid user else 0) := hbal₁ x
    have hsecond : h₂.balanceOf x + (if x = user then s.userLock pid user else 0) =
        h₁.balanceOf x + if x = h₁.here then s.userLock pid user else 0 := hbal₂ x
    rw [hhere₁] at hsecond
    omega

/-- The harvest of a deposit, which a user without a stake goes without. -/
inductive HarvestedStake (user : Address) (pid : Nat) (s : State) : State → Prop
  | nothing (unstaked : (s.userInfo pid user).amount = 0) : HarvestedStake user pid s s
  | harvested {husky : HuskyToken} {badgePoints : Option BadgePoints}
      (harvests : Harvests user pid s husky) :
      HarvestedStake user pid s (s.paid husky badgePoints)

/-- A deposit harvests where there was a stake, and does nothing where there was none. -/
theorem harvestStake_eq_ok (h : harvestStake n user pid s = .ok s') :
    HarvestedStake user pid s s' := by
  unfold harvestStake at h
  split at h
  · obtain ⟨husky, points, hharvest, rfl⟩ := _harvest_eq_ok h
    exact .harvested hharvest
  · cases h
    exact .nothing (by omega)

/-! ## Movements of stake -/

/-- The state after tokens were moved. -/
def State.moved (s : State) (husky : HuskyToken) (tokens : Address → StakeToken) : State :=
  { s with husky, tokens }

/-- A transfer of a stake token; of the accounts' balances only where the token is not
HUSKY itself. -/
structure MovesStake (s : State) (token holder recipient : Address) (amount : Nat)
    (husky : HuskyToken) (tokens : Address → StakeToken) : Prop where
  holder_ne : holder ≠ 0
  husky_owner : husky.owner = s.husky.owner
  husky_here : husky.here = s.husky.here
  husky_supply : husky.erc20.totalSupply = s.husky.erc20.totalSupply
  husky_eq : token ≠ s.husky.here → husky = s.husky
  others : ∀ t, t ≠ token → tokens t = s.tokens t
  balance : token ≠ s.husky.here → ∀ x,
    (tokens token).balanceOf x + (if x = holder then amount else 0) =
      (s.tokens token).balanceOf x + if x = recipient then amount else 0

section Stake

variable {token holder recipient : Address} {amount : Nat}

/-- A transfer of HUSKY is a move of stake. -/
theorem movesStake_of_husky {husky : HuskyToken} (hholder : holder ≠ 0)
    (htoken : token = s.husky.here)
    (howner : husky.owner = s.husky.owner) (hhere : husky.here = s.husky.here)
    (hsupply : husky.erc20.totalSupply = s.husky.erc20.totalSupply) :
    MovesStake s token holder recipient amount husky s.tokens :=
  ⟨hholder, howner, hhere, hsupply, fun hne => absurd htoken hne, fun _ _ => rfl,
    fun hne => absurd htoken hne⟩

/-- A transfer of another token is a move of stake. -/
theorem movesStake_of_token {t : StakeToken} (hholder : holder ≠ 0)
    (hbalance : ∀ x, t.balanceOf x + (if x = holder then amount else 0) =
      (s.tokens token).balanceOf x + if x = recipient then amount else 0) :
    MovesStake s token holder recipient amount s.husky (Function.update s.tokens token t) := by
  refine ⟨hholder, rfl, rfl, rfl, fun _ => rfl, fun t' ht' => Function.update_of_ne ht' _ _,
    fun _ x => ?_⟩
  rw [Function.update_self]
  exact hbalance x

theorem stakeTransfer_eq_ok (h : s.stakeTransfer n token recipient amount = .ok s') :
    ∃ husky tokens, MovesStake s token s.here recipient amount husky tokens ∧
      s' = s.moved husky tokens := by
  unfold State.stakeTransfer at h
  split at h
  · rename_i htoken
    obtain ⟨husky, hmove, rfl⟩ := onHusky_eq_ok h
    obtain ⟨howner, hhere, hsupply, _⟩ := HuskyToken.transfer_eq_ok hmove
    exact ⟨husky, s.tokens, movesStake_of_husky (HuskyToken.sender_ne_of_transfer hmove) htoken
      howner hhere hsupply, rfl⟩
  · simp only [bind_eq_ok, pure_eq_ok] at h
    obtain ⟨t, hmove, rfl⟩ := h
    exact ⟨s.husky, Function.update s.tokens token t,
      movesStake_of_token (StakeToken.sender_ne_of_transfer hmove)
        fun x => StakeToken.balanceOf_transfer hmove x, rfl⟩

theorem stakeTransferFrom_eq_ok (h : s.stakeTransferFrom n token holder amount = .ok s') :
    ∃ husky tokens, MovesStake s token holder s.here amount husky tokens ∧
      s' = s.moved husky tokens := by
  unfold State.stakeTransferFrom at h
  split at h
  · rename_i htoken
    obtain ⟨husky, hmove, rfl⟩ := onHusky_eq_ok h
    obtain ⟨howner, hhere, hsupply, _⟩ := HuskyToken.transferFrom_eq_ok hmove
    exact ⟨husky, s.tokens, movesStake_of_husky (HuskyToken.holder_ne_of_transferFrom hmove) htoken
      howner hhere hsupply, rfl⟩
  · simp only [bind_eq_ok, pure_eq_ok] at h
    obtain ⟨t, hmove, rfl⟩ := h
    exact ⟨s.husky, Function.update s.tokens token t,
      movesStake_of_token (StakeToken.holder_ne_of_transferFrom hmove)
        fun x => StakeToken.balanceOf_transferFrom hmove x, rfl⟩

end Stake

/-! ## Settlements -/

/-- The user's new amount, with the debts that settle it. -/
def State.settleUser (s : State) (pid : Nat) (user : Address) (amount : Nat)
    (fundedBy : Address) : State :=
  { s.setUserInfo pid user
      { amount
        rewardDebt := amount * s.acc pid / precision
        bonusDebt := amount * s.til pid / precision
        fundedBy } with
    settledAt := Function.update s.settledAt pid
      (Function.update (s.settledAt pid) user s.accruals.length) }

theorem updateDebts_eq_ok (h : updateDebts pid user s = .ok s') :
    s' = s.settleUser pid user (s.userInfo pid user).amount (s.userInfo pid user).fundedBy := by
  simp only [updateDebts, bind_eq_ok, pure_eq_ok, SafeMath.mul_eq_ok] at h
  obtain ⟨pool, hpool, _, ⟨_, rfl⟩, _, ⟨_, rfl⟩, rfl⟩ := h
  obtain ⟨_, rfl⟩ := poolAt_eq_ok hpool
  rfl

/-- Settling after the amount was written writes it once. -/
theorem settleUser_setUserInfo {info : UserInfo} {amount : Nat} {fundedBy : Address} :
    (s.setUserInfo pid user info).settleUser pid user amount fundedBy =
      s.settleUser pid user amount fundedBy := by
  simp [State.settleUser, State.setUserInfo, State.acc, State.til]

/-- A position reads back what was written. -/
theorem userInfo_setUserInfo {info : UserInfo} :
    (s.setUserInfo pid user info).userInfo pid user = info := by
  simp [State.setUserInfo]

/-- `fundedBy` after a withdrawal that leaves `left`. -/
def funderAfter (left : Nat) (sender : Address) : Address := if left = 0 then 0 else sender

/-- An emptied position has no funder. -/
theorem releaseFunder_settleUser {left : Nat} {fundedBy : Address} :
    (s.settleUser pid user left fundedBy).setUserInfo pid user
        (releaseFunder ((s.settleUser pid user left fundedBy).userInfo pid user)) =
      s.settleUser pid user left (funderAfter left fundedBy) := by
  unfold funderAfter
  by_cases hleft : left = 0 <;>
    simp [State.settleUser, State.setUserInfo, releaseFunder, hleft]

theorem returnStake_eq_ok {token recipient : Address} {amount : Nat}
    (h : returnStake n token recipient amount s = .ok s') :
    ∃ husky tokens, husky.owner = s.husky.owner ∧ husky.here = s.husky.here ∧
      husky.erc20.totalSupply = s.husky.erc20.totalSupply ∧
      (token ≠ 0 → MovesStake s token s.here recipient amount husky tokens) ∧
      s' = s.moved husky tokens := by
  unfold returnStake at h
  split at h
  · obtain ⟨husky, tokens, hmoves, rfl⟩ := stakeTransfer_eq_ok h
    exact ⟨husky, tokens, hmoves.husky_owner, hmoves.husky_here, hmoves.husky_supply,
      fun _ => hmoves, rfl⟩
  · rename_i htoken
    cases h
    exact ⟨s.husky, s.tokens, rfl, rfl, rfl, fun hne => absurd hne htoken, rfl⟩

/-- A settlement of a user in a pool, once the pool is updated: the harvest, the movement
of stake, and the debts for the amount the user then has. -/
inductive Settles (msg : Msg) (pid : Nat) (user : Address) (s : State) : Nat → State → Prop
  | deposit {s₁ : State} {husky : HuskyToken} {tokens : Address → StakeToken} {amount : Nat}
      (funder : (s.userInfo pid user).fundedBy = 0 ∨ (s.userInfo pid user).fundedBy = msg.sender)
      (harvested : HarvestedStake user pid s s₁)
      (moves : MovesStake s₁ (s.poolInfo pid).stakeToken msg.sender s.here amount husky tokens) :
      Settles msg pid user s ((s.userInfo pid user).amount + amount)
        ((s₁.moved husky tokens).settleUser pid user ((s.userInfo pid user).amount + amount)
          msg.sender)
  | withdraw {husky₁ husky : HuskyToken} {badgePoints : Option BadgePoints}
      {tokens : Address → StakeToken} {amount : Nat}
      (funder : (s.userInfo pid user).fundedBy = msg.sender)
      (harvests : Harvests user pid s husky₁) (le : amount ≤ (s.userInfo pid user).amount)
      (husky_owner : husky.owner = husky₁.owner) (husky_here : husky.here = husky₁.here)
      (husky_supply : husky.erc20.totalSupply = husky₁.erc20.totalSupply)
      (moves : (s.poolInfo pid).stakeToken ≠ 0 → MovesStake (s.paid husky₁ badgePoints)
        (s.poolInfo pid).stakeToken s.here msg.sender amount husky tokens) :
      Settles msg pid user s ((s.userInfo pid user).amount - amount)
        (((s.paid husky₁ badgePoints).moved husky tokens).settleUser pid user
          ((s.userInfo pid user).amount - amount)
          (funderAfter ((s.userInfo pid user).amount - amount) msg.sender))
  | harvest {husky : HuskyToken} {badgePoints : Option BadgePoints} (own : user = msg.sender)
      (harvests : Harvests user pid s husky) :
      Settles msg pid user s (s.userInfo pid user).amount
        ((s.paid husky badgePoints).settleUser pid user (s.userInfo pid user).amount
          (s.userInfo pid user).fundedBy)

theorem HarvestedStake.userInfo (h : HarvestedStake user pid s s') : s'.userInfo = s.userInfo := by
  cases h <;> rfl

theorem HarvestedStake.here (h : HarvestedStake user pid s s') : s'.here = s.here := by
  cases h <;> rfl

theorem Updated.userInfo (h : Updated n pid s s') : s'.userInfo = s.userInfo := by
  cases h <;> rfl

/-- An update leaves the stake tokens. -/
theorem Updated.stakeToken (h : Updated n pid s s') (p : Nat) :
    (s'.poolInfo p).stakeToken = (s.poolInfo p).stakeToken := by
  by_cases hp : p = pid
  · subst hp
    cases h with
    | current _ => rfl
    | empty _ _ => simp [State.setPoolInfo]
    | accrued haccrues => simp [State.accrue, State.setPoolInfo, haccrues.pid_eq]
  · cases h with
    | current _ => rfl
    | empty _ _ => simp [State.setPoolInfo, Function.update_of_ne hp]
    | accrued haccrues =>
        simp [State.accrue, State.setPoolInfo, State.setHusky, haccrues.pid_eq, hp]

/-- A deposit updates, harvests what was there, pulls the stake and settles, in this order. -/
theorem deposit_eq_ok {amount : Nat} (h : deposit msg user pid amount s = .ok s') :
    pid < s.poolLength ∧ ∃ s₁ s₂ husky tokens, updatePool msg.blockNumber pid s = .ok s₁ ∧
      ((s₁.userInfo pid user).fundedBy = 0 ∨ (s₁.userInfo pid user).fundedBy = msg.sender) ∧
      HarvestedStake user pid s₁ s₂ ∧
      MovesStake s₂ (s₁.poolInfo pid).stakeToken msg.sender s₁.here amount husky tokens ∧
      s' = (s₂.moved husky tokens).settleUser pid user
        ((s₁.userInfo pid user).amount + amount) msg.sender := by
  simp only [deposit, bind_eq_ok, require_eq_ok, SafeMath.add_eq_ok] at h
  obtain ⟨pool, hpool, _, hfunder, _, _, s₁, hupdate, s₂, hharvest, s₃, hmove, _, ⟨_, rfl⟩,
    hdebts⟩ := h
  obtain ⟨hpid, rfl⟩ := poolAt_eq_ok hpool
  have hupdated := (updatePool_eq_ok hupdate).2
  have hharvested := harvestStake_eq_ok hharvest
  obtain ⟨husky, tokens, hmoves, rfl⟩ := stakeTransferFrom_eq_ok hmove
  rw [← hupdated.userInfo] at hfunder
  rw [← hupdated.stakeToken pid, hharvested.here] at hmoves
  rw [updateDebts_eq_ok hdebts, settleUser_setUserInfo, userInfo_setUserInfo]
  refine ⟨hpid, s₁, s₂, husky, tokens, hupdate, hfunder, hharvested, hmoves, ?_⟩
  have hamount : ((s₂.moved husky tokens).userInfo pid user).amount =
      (s₁.userInfo pid user).amount := by
    show (s₂.userInfo pid user).amount = _
    rw [hharvested.userInfo]
  rw [hamount]

/-- A deposit leaves the position settled at the larger stake. -/
theorem deposit_settles {amount : Nat} (h : deposit msg user pid amount s = .ok s') :
    pid < s.poolLength ∧ ∃ s₁, updatePool msg.blockNumber pid s = .ok s₁ ∧
      Settles msg pid user s₁ ((s₁.userInfo pid user).amount + amount) s' := by
  obtain ⟨hpid, s₁, s₂, husky, tokens, hupdate, hfunder, hharvested, hmoves, rfl⟩ :=
    deposit_eq_ok h
  exact ⟨hpid, s₁, hupdate, .deposit hfunder hharvested hmoves⟩

/-- A withdrawal updates, harvests, settles and sends the stake back, in this order. -/
theorem withdraw_eq_ok {amount : Nat} (h : _withdraw msg user pid amount s = .ok s') :
    pid < s.poolLength ∧ ∃ s₁ husky₁ badgePoints husky tokens,
      updatePool msg.blockNumber pid s = .ok s₁ ∧
      (s₁.userInfo pid user).fundedBy = msg.sender ∧ Harvests user pid s₁ husky₁ ∧
      amount ≤ (s₁.userInfo pid user).amount ∧
      husky.owner = husky₁.owner ∧ husky.here = husky₁.here ∧
      husky.erc20.totalSupply = husky₁.erc20.totalSupply ∧
      ((s₁.poolInfo pid).stakeToken ≠ 0 → MovesStake (s₁.paid husky₁ badgePoints)
        (s₁.poolInfo pid).stakeToken s₁.here msg.sender amount husky tokens) ∧
      s' = ((s₁.paid husky₁ badgePoints).moved husky tokens).settleUser pid user
        ((s₁.userInfo pid user).amount - amount)
        (funderAfter ((s₁.userInfo pid user).amount - amount) msg.sender) := by
  simp only [_withdraw, bind_eq_ok, require_eq_ok, SafeMath.sub_eq_ok] at h
  obtain ⟨pool, hpool, _, hfunder, _, _, s₁, hupdate, s₂, hharvest, _, ⟨hle, rfl⟩, s₃, hdebts,
    hreturn⟩ := h
  obtain ⟨hpid, rfl⟩ := poolAt_eq_ok hpool
  have hupdated := (updatePool_eq_ok hupdate).2
  obtain ⟨husky₁, points, hharvests, rfl⟩ := _harvest_eq_ok hharvest
  have hdebts := updateDebts_eq_ok hdebts
  rw [settleUser_setUserInfo, userInfo_setUserInfo] at hdebts
  subst hdebts
  rw [releaseFunder_settleUser] at hreturn
  obtain ⟨husky, tokens, howner, hhere, hsupply, hmoves, rfl⟩ := returnStake_eq_ok hreturn
  rw [← hupdated.userInfo] at hfunder
  rw [← hupdated.stakeToken pid] at hmoves
  refine ⟨hpid, s₁, husky₁, points, husky, tokens, hupdate, hfunder, hharvests, hle, howner,
    hhere, hsupply, fun htoken => ?_, ?_⟩
  · have h := hmoves htoken
    exact ⟨h.holder_ne, h.husky_owner, h.husky_here, h.husky_supply, h.husky_eq, h.others,
      h.balance⟩
  · rw [← hfunder]
    rfl

/-- A withdrawal leaves the position settled at the smaller stake. -/
theorem withdraw_settles {amount : Nat} (h : _withdraw msg user pid amount s = .ok s') :
    pid < s.poolLength ∧ ∃ s₁, updatePool msg.blockNumber pid s = .ok s₁ ∧
      Settles msg pid user s₁ ((s₁.userInfo pid user).amount - amount) s' := by
  obtain ⟨hpid, s₁, husky₁, points, husky, tokens, hupdate, hfunder, hharvests, hle, howner,
    hhere, hsupply, hmoves, rfl⟩ := withdraw_eq_ok h
  exact ⟨hpid, s₁, hupdate, .withdraw hfunder hharvests hle howner hhere hsupply hmoves⟩

theorem harvest_eq_ok (h : harvest msg pid s = .ok s') :
    pid < s.poolLength ∧ ∃ s₁ husky badgePoints, updatePool msg.blockNumber pid s = .ok s₁ ∧
      Harvests msg.sender pid s₁ husky ∧
      s' = (s₁.paid husky badgePoints).settleUser pid msg.sender
        (s₁.userInfo pid msg.sender).amount (s₁.userInfo pid msg.sender).fundedBy := by
  simp only [harvest, bind_eq_ok] at h
  obtain ⟨s₁, hupdate, s₂, hharvest, hdebts⟩ := h
  obtain ⟨husky, points, hharvests, rfl⟩ := _harvest_eq_ok hharvest
  exact ⟨(updatePool_eq_ok hupdate).1, s₁, husky, points, hupdate, hharvests,
    updateDebts_eq_ok hdebts⟩

/-- A harvest leaves the position settled at the same stake. -/
theorem harvest_settles (h : harvest msg pid s = .ok s') :
    pid < s.poolLength ∧ ∃ s₁, updatePool msg.blockNumber pid s = .ok s₁ ∧
      Settles msg pid msg.sender s₁ (s₁.userInfo pid msg.sender).amount s' := by
  obtain ⟨hpid, s₁, husky, points, hupdate, hharvests, rfl⟩ := harvest_eq_ok h
  exact ⟨hpid, s₁, hupdate, .harvest rfl hharvests⟩

theorem emergencyWithdraw_eq_ok (h : emergencyWithdraw msg pid s = .ok s') :
    pid < s.poolLength ∧ (s.userInfo pid msg.sender).fundedBy = msg.sender ∧
    ∃ husky tokens, MovesStake s (s.poolInfo pid).stakeToken s.here msg.sender
        (s.userInfo pid msg.sender).amount husky tokens ∧
      s' = (s.moved husky tokens).setUserInfo pid msg.sender
        { s.userInfo pid msg.sender with amount := 0, rewardDebt := 0, fundedBy := 0 } := by
  simp only [emergencyWithdraw, bind_eq_ok, require_eq_ok, pure_eq_ok] at h
  obtain ⟨pool, hpool, _, hfunder, s₁, hmove, rfl⟩ := h
  obtain ⟨hpid, rfl⟩ := poolAt_eq_ok hpool
  obtain ⟨husky, tokens, hmoves, rfl⟩ := stakeTransfer_eq_ok hmove
  exact ⟨hpid, hfunder, husky, tokens, hmoves, rfl⟩

end Huski.FairLaunch
