import Huski.FairLaunch.Debts

/-!
# Why a settlement can revert

The messages that would stop a user from settling come from few places: the balance check
of `_harvest`, the balance check of a lock, and the division by `totalAllocPoint`. Nothing
else a settlement calls reverts with them.
-/

namespace Huski.FairLaunch

open Solidity State

/-- The reverts that keep a user from settling. -/
def Blocking (e : String) : Prop :=
  e = "wtf not enough husky" ∨ e = "no lock over balance" ∨ e = "SafeMath: division by zero"

section Basic

variable {e message : String} {a b : Nat}

theorem ok_ne_error {α : Type} {x : α} : (.ok x : Result α) ≠ .error e := fun h => nomatch h

/-- A check fails with its own message only. -/
theorem require_ne_error {p : Prop} [Decidable p] (he : Blocking e) (hm : ¬ Blocking message) :
    require p message ≠ .error e := by
  intro h
  obtain ⟨_, rfl⟩ := require_eq_error.mp h
  exact hm he

/-- A subtraction fails with its own message only. -/
theorem subOr_ne_error (he : Blocking e) (hm : ¬ Blocking message) :
    SafeMath.subOr a b message ≠ .error e := by
  intro h
  obtain ⟨_, rfl⟩ := SafeMath.subOr_eq_error.mp h
  exact hm he

/-- An addition's overflow is no blocking error. -/
theorem add_ne_error (he : Blocking e) : SafeMath.add a b ≠ .error e := by
  intro h
  obtain ⟨_, rfl⟩ := SafeMath.add_eq_error.mp h
  simp [Blocking] at he

/-- A subtraction's underflow is no blocking error. -/
theorem sub_ne_error (he : Blocking e) : SafeMath.sub a b ≠ .error e :=
  subOr_ne_error he (by simp [Blocking])

/-- A product's overflow is no blocking error. -/
theorem mul_ne_error (he : Blocking e) : SafeMath.mul a b ≠ .error e := by
  intro h
  obtain ⟨_, rfl⟩ := SafeMath.mul_eq_error.mp h
  simp [Blocking] at he

theorem div_ne_error (hb : e = "SafeMath: division by zero" → b ≠ 0) :
    SafeMath.div a b ≠ .error e := by
  intro h
  obtain ⟨hzero, heq⟩ := SafeMath.div_eq_error.mp h
  exact hb heq hzero

end Basic

/-! ## Tokens -/

section Tokens

variable {e : String} {sender recipient holder account : Address} {n amount : Nat}

/-- No transfer of a plain token blocks. -/
theorem erc20_transfer_ne_error {t : ERC20} (he : Blocking e) :
    t._transfer sender recipient amount ≠ .error e := by
  refine bind_ne_error (require_ne_error he (by simp [Blocking])) fun _ _ => ?_
  refine bind_ne_error (require_ne_error he (by simp [Blocking])) fun _ _ => ?_
  refine bind_ne_error (subOr_ne_error he (by simp [Blocking])) fun _ _ => ?_
  exact bind_ne_error (add_ne_error he) fun _ _ => ok_ne_error

theorem erc20_mint_ne_error {t : ERC20} (he : Blocking e) :
    t._mint account amount ≠ .error e := by
  refine bind_ne_error (require_ne_error he (by simp [Blocking])) fun _ _ => ?_
  refine bind_ne_error (add_ne_error he) fun _ _ => ?_
  exact bind_ne_error (add_ne_error he) fun _ _ => ok_ne_error

theorem erc20_approve_ne_error {t : ERC20} (he : Blocking e) :
    t._approve holder account amount ≠ .error e := by
  refine bind_ne_error (require_ne_error he (by simp [Blocking])) fun _ _ => ?_
  exact bind_ne_error (require_ne_error he (by simp [Blocking])) fun _ _ => ok_ne_error

theorem erc20_transferFrom_ne_error {t : ERC20} (he : Blocking e) :
    t.transferFrom sender holder recipient amount ≠ .error e := by
  refine bind_ne_error (erc20_transfer_ne_error he) fun _ _ => ?_
  exact bind_ne_error (subOr_ne_error he (by simp [Blocking])) fun _ _ =>
    erc20_approve_ne_error he

theorem writeCheckpoint_ne_error {t : HuskyToken} {delegatee : Address} {index : UInt32}
    {votes : Nat} (he : Blocking e) :
    HuskyToken._writeCheckpoint n delegatee index votes t ≠ .error e := by
  refine bind_ne_error ?_ fun _ _ => ?_
  · exact bind_ne_error (require_ne_error he (by simp [Blocking])) fun _ _ => ok_ne_error
  · dsimp only
    split <;> exact ok_ne_error

theorem moveDelegates_ne_error {t : HuskyToken} {srcRep dstRep : Address} (he : Blocking e) :
    HuskyToken._moveDelegates n srcRep dstRep amount t ≠ .error e := by
  unfold HuskyToken._moveDelegates
  split
  · refine bind_ne_error ?_ fun _ _ => ?_
    · unfold HuskyToken.takeVotes
      split
      · exact bind_ne_error (sub_ne_error he) fun _ _ => writeCheckpoint_ne_error he
      · exact ok_ne_error
    · unfold HuskyToken.giveVotes
      split
      · exact bind_ne_error (add_ne_error he) fun _ _ => writeCheckpoint_ne_error he
      · exact ok_ne_error
  · exact ok_ne_error

theorem husky_mint_ne_error {t : HuskyToken} (he : Blocking e) :
    t.mint sender n recipient amount ≠ .error e := by
  refine bind_ne_error (require_ne_error he (by simp [Blocking])) fun _ _ => ?_
  refine bind_ne_error (add_ne_error he) fun _ _ => ?_
  refine bind_ne_error (require_ne_error he (by simp [Blocking])) fun _ _ => ?_
  exact bind_ne_error (erc20_mint_ne_error he) fun _ _ => moveDelegates_ne_error he

/-- A transfer of HUSKY does not block. -/
theorem husky_transfer_ne_error {t : HuskyToken} (he : Blocking e) :
    t.transfer sender n recipient amount ≠ .error e :=
  bind_ne_error (erc20_transfer_ne_error he) fun _ _ => moveDelegates_ne_error he

theorem husky_transferFrom_ne_error {t : HuskyToken} (he : Blocking e) :
    t.transferFrom sender n holder recipient amount ≠ .error e :=
  bind_ne_error (erc20_transferFrom_ne_error he) fun _ _ => moveDelegates_ne_error he

/-- A lock of no more than the balance does not revert for the balance. -/
theorem husky_lock_ne_error {t : HuskyToken} (he : Blocking e)
    (hle : e = "no lock over balance" → amount ≤ t.balanceOf account) :
    t.lock sender account amount ≠ .error e := by
  refine bind_ne_error (require_ne_error he (by simp [Blocking])) fun _ _ => ?_
  refine bind_ne_error (require_ne_error he (by simp [Blocking])) fun _ _ => ?_
  refine bind_ne_error ?_ fun _ _ => ?_
  · intro h
    obtain ⟨hnot, heq⟩ := require_eq_error.mp h
    exact hnot (hle heq.symm)
  refine bind_ne_error (erc20_transfer_ne_error he) fun _ _ => ?_
  refine bind_ne_error (add_ne_error he) fun _ _ => ?_
  exact bind_ne_error (add_ne_error he) fun _ _ => ok_ne_error

theorem debtToken_transfer_ne_error {t : DebtToken} (he : Blocking e) :
    t.transfer sender recipient amount ≠ .error e := by
  refine bind_ne_error (require_ne_error he (by simp [Blocking])) fun _ _ => ?_
  refine bind_ne_error (require_ne_error he (by simp [Blocking])) fun _ _ => ?_
  exact bind_ne_error (erc20_transfer_ne_error he) fun _ _ => ok_ne_error

theorem debtToken_transferFrom_ne_error {t : DebtToken} (he : Blocking e) :
    t.transferFrom sender holder recipient amount ≠ .error e := by
  refine bind_ne_error (require_ne_error he (by simp [Blocking])) fun _ _ => ?_
  refine bind_ne_error (require_ne_error he (by simp [Blocking])) fun _ _ => ?_
  refine bind_ne_error (erc20_transfer_ne_error he) fun _ _ => ?_
  refine bind_ne_error (subOr_ne_error he (by simp [Blocking])) fun _ _ => ?_
  exact bind_ne_error (erc20_approve_ne_error he) fun _ _ => ok_ne_error

/-- No stake token blocks a transfer. -/
theorem stakeToken_transfer_ne_error {t : StakeToken} (he : Blocking e) :
    t.transfer sender recipient amount ≠ .error e := by
  cases t with
  | erc20 t => exact bind_ne_error (erc20_transfer_ne_error he) fun _ _ => ok_ne_error
  | debtToken t => exact bind_ne_error (debtToken_transfer_ne_error he) fun _ _ => ok_ne_error

theorem stakeToken_transferFrom_ne_error {t : StakeToken} (he : Blocking e) :
    t.transferFrom sender holder recipient amount ≠ .error e := by
  cases t with
  | erc20 t => exact bind_ne_error (erc20_transferFrom_ne_error he) fun _ _ => ok_ne_error
  | debtToken t =>
      exact bind_ne_error (debtToken_transferFrom_ne_error he) fun _ _ => ok_ne_error

theorem badgePoints_mint_ne_error {b : BadgePoints} (he : Blocking e) :
    b.mint sender account amount ≠ .error e := by
  refine bind_ne_error (require_ne_error he (by simp [Blocking])) fun _ _ => ?_
  have hinviter : ∀ erc20 : ERC20, (do
      let product ← SafeMath.mul b.allocPoint amount
      let erc20 ← erc20._mint (b.relationShips account) (product / 100)
      return { b with erc20 }) ≠ (.error e : Result BadgePoints) := fun erc20 =>
    bind_ne_error (mul_ne_error he) fun _ _ =>
      bind_ne_error (erc20_mint_ne_error he) fun _ _ => ok_ne_error
  -- the inviter's part, which is minted only to an inviter that is not deleted
  have hrest : ∀ erc20 : ERC20, (if b.relationShips account = 0 then
      (pure { b with erc20 } : Result BadgePoints)
      else if b.deleted (b.relationShips account) then pure { b with erc20 }
      else do
        let product ← SafeMath.mul b.allocPoint amount
        let erc20 ← erc20._mint (b.relationShips account) (product / 100)
        return { b with erc20 }) ≠ .error e := by
    intro erc20
    split
    · exact ok_ne_error
    · split
      · exact ok_ne_error
      · exact hinviter erc20
  dsimp only
  split
  · exact hrest _
  · exact bind_ne_error (erc20_mint_ne_error he) fun _ _ => hrest _

end Tokens

/-! ## Updates -/

section Updates

variable {e : String} {n pid amount : Nat} {user : Address} {s s' : State}

theorem poolAt_ne_error (he : Blocking e) : s.poolAt pid ≠ .error e := by
  unfold State.poolAt
  split
  · exact ok_ne_error
  · intro h
    cases h
    simp [Blocking] at he

theorem onHusky_ne_error {f : HuskyToken → Result HuskyToken} (h : f s.husky ≠ .error e) :
    s.onHusky f ≠ .error e :=
  bind_ne_error h fun _ _ => ok_ne_error

/-- The multiplier of a span does not block. -/
theorem getMultiplier_ne_error {last current : Nat} (he : Blocking e) :
    getMultiplier last current s ≠ .error e := by
  unfold getMultiplier
  split
  · exact bind_ne_error (sub_ne_error he) fun _ _ => mul_ne_error he
  · split
    · exact sub_ne_error he
    · refine bind_ne_error (sub_ne_error he) fun _ _ => ?_
      refine bind_ne_error (mul_ne_error he) fun _ _ => ?_
      exact bind_ne_error (sub_ne_error he) fun _ _ => add_ne_error he

/-- The reward blocks only where no pool has a weight. -/
theorem huskyReward_ne_error {pool : PoolInfo} {m : Nat} (he : Blocking e)
    (htotal : e = "SafeMath: division by zero" → m * s.huskyPerBlock < wordSize →
      s.totalAllocPoint ≠ 0) : huskyReward pool m s ≠ .error e :=
  bind_ne_error (mul_ne_error he) fun _ h => bind_ne_error (mul_ne_error he) fun _ _ =>
    div_ne_error fun heq => htotal heq (SafeMath.mul_eq_ok.mp h).1

/-- The sum per share divides by a stake that is there. -/
theorem addPerShare_ne_error {acc reward lpSupply : Nat} (he : Blocking e)
    (hstaked : lpSupply ≠ 0) : addPerShare acc reward lpSupply ≠ .error e :=
  bind_ne_error (mul_ne_error he) fun _ _ =>
    bind_ne_error (div_ne_error fun _ => hstaked) fun _ _ => add_ne_error he

theorem earned_ne_error {acc debt : Nat} (he : Blocking e) : earned amount acc debt ≠ .error e :=
  bind_ne_error (mul_ne_error he) fun _ _ =>
    bind_ne_error (div_ne_error fun _ => by norm_num [precision]) fun _ _ => sub_ne_error he

/-- The bonus blocks only where no pool has a weight. -/
theorem huskyBonusPortion_ne_error {pool : PoolInfo} (he : Blocking e)
    (htotal : e = "SafeMath: division by zero" → s.totalAllocPoint ≠ 0) :
    huskyBonusPortion pool s ≠ .error e :=
  bind_ne_error (sub_ne_error he) fun _ _ => bind_ne_error (mul_ne_error he) fun _ _ =>
    bind_ne_error (mul_ne_error he) fun _ _ => bind_ne_error (mul_ne_error he) fun _ _ =>
      div_ne_error htotal

/-- The part of a bonus that `devaddr` locks is at most its share of the whole reward. -/
theorem devLock_le {portion reward bps : Nat} (hpart : portion ≤ reward) (hbps : bps ≤ 10000) :
    portion * bps / 100000 ≤ reward / 10 :=
  calc portion * bps / 100000 ≤ reward * 10000 / 100000 :=
        Nat.div_le_div_right (Nat.mul_le_mul hpart hbps)
    _ = reward / 10 := Nat.mul_div_mul_right reward 10 (by norm_num)

/-- The lock blocks only above the dev's balance. -/
theorem lockDev_ne_error (he : Blocking e) (hle : e = "no lock over balance" →
    amount * s.bonusLockUpBps / 100000 ≤ s.husky.balanceOf s.devaddr) :
    lockDev amount s ≠ .error e := by
  refine bind_ne_error (mul_ne_error he) fun product hproduct => ?_
  obtain ⟨_, rfl⟩ := SafeMath.mul_eq_ok.mp hproduct
  exact onHusky_ne_error (husky_lock_ne_error he hle)

/-- The bonus blocks only where its lock exceeds the dev's balance. -/
theorem updateBonus_ne_error {pool : PoolInfo} {reward acc lpSupply : Nat} (he : Blocking e)
    (htotal : e = "SafeMath: division by zero" → s.totalAllocPoint ≠ 0) (hstaked : lpSupply ≠ 0)
    (hle : e = "no lock over balance" →
      s.bonusLockUpBps ≤ 10000 ∧ reward / 10 ≤ s.husky.balanceOf s.devaddr)
    (hportion : ∀ portion, s.bonusEndBlock < n → pool.lastRewardBlock < s.bonusEndBlock →
      huskyBonusPortion pool s = .ok portion → portion ≤ reward) :
    updateBonus n pool reward acc lpSupply s ≠ .error e := by
  have hlock : ∀ portion, portion ≤ reward → lockDev portion s ≠ .error e := by
    refine fun portion hpart => lockDev_ne_error he fun heq => ?_
    exact (devLock_le hpart (hle heq).1).trans (hle heq).2
  unfold updateBonus
  split
  · exact bind_ne_error (hlock _ le_rfl) fun _ _ => ok_ne_error
  · rename_i hpast
    split
    · rename_i hbefore
      refine bind_ne_error (huskyBonusPortion_ne_error he htotal) fun portion h => ?_
      have hpart := hportion portion (by omega) hbefore h
      refine bind_ne_error (hlock portion hpart) fun _ _ => ?_
      exact bind_ne_error (addPerShare_ne_error he hstaked) fun _ _ => ok_ne_error
    · exact ok_ne_error

/-- The part of a reward that falls into the bonus is no more than the reward. -/
theorem huskyBonusPortion_le {pool : PoolInfo} {m reward portion : Nat}
    (hm : getMultiplier pool.lastRewardBlock n s = .ok m)
    (hreward : huskyReward pool m s = .ok reward)
    (hpast : s.bonusEndBlock < n) (hbefore : pool.lastRewardBlock < s.bonusEndBlock)
    (h : huskyBonusPortion pool s = .ok portion) : portion ≤ reward := by
  simp only [huskyBonusPortion, bind_eq_ok, SafeMath.sub_eq_ok, SafeMath.mul_eq_ok,
    SafeMath.div_eq_ok] at h
  obtain ⟨_, ⟨_, rfl⟩, _, ⟨_, rfl⟩, _, ⟨_, rfl⟩, _, ⟨_, rfl⟩, _, rfl⟩ := h
  rw [(huskyReward_eq_ok hreward).2]
  refine Nat.div_le_div_right (Nat.mul_le_mul_right _ (Nat.mul_le_mul_right _ ?_))
  exact bonusBlocks_le_multiplier hm hbefore hpast

/-- An update of the pool at block `n` reaches the division by `totalAllocPoint`. -/
def State.divides (s : State) (n pid : Nat) : Prop :=
  (s.poolInfo pid).lastRewardBlock < n ∧ s.stakeBalance (s.poolInfo pid).stakeToken ≠ 0 ∧
    ∃ m, getMultiplier (s.poolInfo pid).lastRewardBlock n s = .ok m ∧
      m * s.huskyPerBlock < wordSize

/-- What keeps an update from reverting with `e`: the lock-up of `devaddr` is at most what
the update mints it, and there is a weight where it divides by one. -/
structure Updatable (e : String) (n pid : Nat) (s : State) : Prop where
  bps : e = "no lock over balance" → s.bonusLockUpBps ≤ 10000
  total : e = "SafeMath: division by zero" → s.divides n pid → s.totalAllocPoint ≠ 0

/-- An update of a pool that is updatable does not block. -/
theorem updatePool_ne_error (he : Blocking e) (hs : Updatable e n pid s) :
    updatePool n pid s ≠ .error e := by
  refine bind_ne_error (poolAt_ne_error he) fun pool hpool => ?_
  obtain ⟨_, rfl⟩ := poolAt_eq_ok hpool
  split
  · exact ok_ne_error
  split
  · exact ok_ne_error
  rename_i hbehind hstaked
  refine bind_ne_error (getMultiplier_ne_error he) fun m hm => ?_
  refine bind_ne_error (huskyReward_ne_error he fun heq hword =>
    hs.total heq ⟨Nat.lt_of_not_le hbehind, hstaked, m, hm, hword⟩) fun reward hreward => ?_
  have htotal : s.totalAllocPoint ≠ 0 := (huskyReward_eq_ok hreward).1
  -- the dev's tenth is minted before the pool's reward
  refine bind_ne_error (onHusky_ne_error (husky_mint_ne_error he)) fun s₁ h₁ => ?_
  refine bind_ne_error (onHusky_ne_error (husky_mint_ne_error he)) fun s₂ h₂ => ?_
  obtain ⟨husky₁, hmint₁, rfl⟩ := onHusky_eq_ok h₁
  obtain ⟨husky₂, hmint₂, rfl⟩ := onHusky_eq_ok h₂
  refine bind_ne_error (addPerShare_ne_error he hstaked) fun acc _ => ?_
  refine bind_ne_error (updateBonus_ne_error he (fun _ => htotal) hstaked
      (fun heq => ⟨hs.bps heq, ?_⟩)
    fun portion hpast hbefore => huskyBonusPortion_le hm hreward hpast hbefore) fun _ _ =>
      ok_ne_error
  -- so the dev has at least the tenth that may be locked
  obtain ⟨_, _, _, _, hbal₁⟩ := HuskyToken.mint_eq_ok hmint₁
  obtain ⟨_, _, _, _, hbal₂⟩ := HuskyToken.mint_eq_ok hmint₂
  have hfirst := hbal₁ s.devaddr
  have hsecond : husky₂.balanceOf s.devaddr = husky₁.balanceOf s.devaddr +
      if s.devaddr = s.here then reward else 0 := hbal₂ s.devaddr
  rw [if_pos rfl] at hfirst
  show reward / 10 ≤ husky₂.balanceOf s.devaddr
  omega

end Updates

/-! ## Settlements -/

/-- A harvest of the user would find the HUSKY it pays, and lock no more than that. -/
def Settleable (e : String) (user : Address) (pid : Nat) (s : State) : Prop :=
  0 < (s.userInfo pid user).amount →
    (e = "wtf not enough husky" → s.pending pid user ≤ s.husky.balanceOf s.here) ∧
    (e = "no lock over balance" → s.userLock pid user ≤ s.pending pid user)

section Settlements

variable {e : String} {msg : Msg} {n pid amount : Nat} {user recipient token holder : Address}
  {s s' : State}

theorem safeHuskyTransfer_ne_error (he : Blocking e) :
    safeHuskyTransfer n recipient amount s ≠ .error e := by
  dsimp only [safeHuskyTransfer]
  split <;> exact onHusky_ne_error (husky_transfer_ne_error he)

theorem mintPoints_ne_error {info : UserInfo} {pool : PoolInfo} (he : Blocking e) :
    mintPoints user info pool s ≠ .error e := by
  unfold mintPoints
  split
  · refine bind_ne_error (require_ne_error he (by simp [Blocking])) fun _ _ => ?_
    refine bind_ne_error (mul_ne_error he) fun _ _ => ?_
    refine bind_ne_error (mul_ne_error he) fun _ _ => ?_
    exact bind_ne_error (badgePoints_mint_ne_error he) fun _ _ => ok_ne_error
  · exact ok_ne_error

/-- A harvest of a position that is settleable does not block. -/
theorem _harvest_ne_error (he : Blocking e) (hsettle : Settleable e user pid s) :
    _harvest n user pid s ≠ .error e := by
  refine bind_ne_error (poolAt_ne_error he) fun pool hpool => ?_
  obtain ⟨_, rfl⟩ := poolAt_eq_ok hpool
  refine bind_ne_error (require_ne_error he (by simp [Blocking])) fun _ hstaked => ?_
  obtain ⟨hwtf, hlock⟩ := hsettle (require_eq_ok.mp hstaked)
  refine bind_ne_error (earned_ne_error he) fun pending hpending => ?_
  obtain ⟨_, rfl⟩ := earned_eq_ok hpending
  refine bind_ne_error ?_ fun _ hfunds => ?_
  · intro h
    obtain ⟨hnot, heq⟩ := require_eq_error.mp h
    exact hnot (hwtf heq.symm)
  refine bind_ne_error (earned_ne_error he) fun bonus hbonus => ?_
  obtain ⟨_, rfl⟩ := earned_eq_ok hbonus
  refine bind_ne_error (safeHuskyTransfer_ne_error he) fun s₁ hpay => ?_
  have hfunds : s.pending pid user ≤ s.husky.balanceOf s.here := require_eq_ok.mp hfunds
  obtain ⟨husky, hmove, rfl⟩ := safeHuskyTransfer_eq_ok hfunds hpay
  refine bind_ne_error (mul_ne_error he) fun product hproduct => ?_
  obtain ⟨_, rfl⟩ := SafeMath.mul_eq_ok.mp hproduct
  refine bind_ne_error (onHusky_ne_error (husky_lock_ne_error he fun heq => ?_)) fun _ _ =>
    mintPoints_ne_error he
  -- the user holds at least what was just paid
  obtain ⟨_, _, _, _, hbal⟩ := HuskyToken.transfer_eq_ok hmove
  have hpaid : husky.balanceOf user + (if user = s.here then s.pending pid user else 0) =
      s.husky.balanceOf user + s.pending pid user := by
    have := hbal user
    rwa [if_pos rfl] at this
  refine (hlock heq).trans ?_
  show s.pending pid user ≤ husky.balanceOf user
  by_cases hhere : user = s.here
  · rw [if_pos hhere, hhere] at hpaid
    rw [hhere] at hfunds ⊢
    omega
  · rw [if_neg hhere] at hpaid
    omega

theorem updateDebts_ne_error (he : Blocking e) : updateDebts pid user s ≠ .error e :=
  bind_ne_error (poolAt_ne_error he) fun _ _ => bind_ne_error (mul_ne_error he) fun _ _ =>
    bind_ne_error (mul_ne_error he) fun _ _ => ok_ne_error

theorem stakeTransfer_ne_error (he : Blocking e) :
    s.stakeTransfer n token recipient amount ≠ .error e := by
  unfold State.stakeTransfer
  split
  · exact onHusky_ne_error (husky_transfer_ne_error he)
  · exact bind_ne_error (stakeToken_transfer_ne_error he) fun _ _ => ok_ne_error

theorem stakeTransferFrom_ne_error (he : Blocking e) :
    s.stakeTransferFrom n token holder amount ≠ .error e := by
  unfold State.stakeTransferFrom
  split
  · exact onHusky_ne_error (husky_transferFrom_ne_error he)
  · exact bind_ne_error (stakeToken_transferFrom_ne_error he) fun _ _ => ok_ne_error

/-- A deposit blocks only where its update or its settlement does. -/
theorem deposit_ne_error (he : Blocking e)
    (hupdate : updatePool msg.blockNumber pid s ≠ .error e)
    (hsettle : ∀ s₁, updatePool msg.blockNumber pid s = .ok s₁ → Settleable e user pid s₁) :
    deposit msg user pid amount s ≠ .error e := by
  refine bind_ne_error (poolAt_ne_error he) fun _ _ => ?_
  refine bind_ne_error (require_ne_error he (by simp [Blocking])) fun _ _ => ?_
  refine bind_ne_error (require_ne_error he (by simp [Blocking])) fun _ _ => ?_
  refine bind_ne_error hupdate fun s₁ hupdated => ?_
  refine bind_ne_error ?_ fun s₂ _ => ?_
  · unfold harvestStake
    split
    · exact _harvest_ne_error he (hsettle s₁ hupdated)
    · exact ok_ne_error
  refine bind_ne_error (stakeTransferFrom_ne_error he) fun _ _ => ?_
  exact bind_ne_error (add_ne_error he) fun _ _ => updateDebts_ne_error he

/-- A withdrawal blocks only where its update or its settlement does. -/
theorem _withdraw_ne_error (he : Blocking e)
    (hupdate : updatePool msg.blockNumber pid s ≠ .error e)
    (hsettle : ∀ s₁, updatePool msg.blockNumber pid s = .ok s₁ → Settleable e user pid s₁) :
    _withdraw msg user pid amount s ≠ .error e := by
  refine bind_ne_error (poolAt_ne_error he) fun _ _ => ?_
  refine bind_ne_error (require_ne_error he (by simp [Blocking])) fun _ _ => ?_
  refine bind_ne_error (require_ne_error he (by simp [Blocking])) fun _ _ => ?_
  refine bind_ne_error hupdate fun s₁ hupdated => ?_
  refine bind_ne_error (_harvest_ne_error he (hsettle s₁ hupdated)) fun _ _ => ?_
  refine bind_ne_error (sub_ne_error he) fun _ _ => ?_
  refine bind_ne_error (updateDebts_ne_error he) fun _ _ => ?_
  unfold returnStake
  split
  · exact stakeTransfer_ne_error he
  · exact ok_ne_error

/-- A harvest blocks only where its update or its settlement does. -/
theorem harvest_ne_error (he : Blocking e)
    (hupdate : updatePool msg.blockNumber pid s ≠ .error e)
    (hsettle : ∀ s₁, updatePool msg.blockNumber pid s = .ok s₁ →
      Settleable e msg.sender pid s₁) : harvest msg pid s ≠ .error e := by
  refine bind_ne_error hupdate fun s₁ hupdated => ?_
  refine bind_ne_error (_harvest_ne_error he (hsettle s₁ hupdated)) fun _ _ => ?_
  exact updateDebts_ne_error he

end Settlements

/-- The pool and the user that a call of `sender` settles. -/
def Op.settles (sender : Address) : Op → Option (Nat × Address)
  | .deposit user pid _ | .withdraw user pid _ | .withdrawAll user pid => some (pid, user)
  | .harvest pid => some (pid, sender)
  | _ => none

/-- A settlement whose user is settleable after the update does not revert with `e`. -/
theorem mine_settles_ne_error {e : String} {c : Chain} {tx : Tx} {pid : Nat} {user : Address}
    (he : Blocking e) (hop : tx.op.settles tx.sender = some (pid, user))
    (hupdate : updatePool tx.blockNumber pid c.state ≠ .error e)
    (hsettle : ∀ s₁, updatePool tx.blockNumber pid c.state = .ok s₁ → Settleable e user pid s₁) :
    mine c tx ≠ .error e := by
  refine bind_ne_error (require_ne_error he (by simp [Blocking])) fun _ _ => ?_
  refine bind_ne_error (require_ne_error he (by simp [Blocking])) fun _ _ => ?_
  refine bind_ne_error (require_ne_error he (by simp [Blocking])) fun _ _ => ?_
  refine bind_ne_error ?_ fun _ _ => ok_ne_error
  obtain ⟨sender, n, op⟩ := tx
  -- the four calls that settle a position
  cases op with
  | deposit u p amount =>
      simp only [Op.settles, Option.some.injEq, Prod.mk.injEq] at hop
      obtain ⟨rfl, rfl⟩ := hop
      exact deposit_ne_error he hupdate hsettle
  | withdraw u p amount =>
      simp only [Op.settles, Option.some.injEq, Prod.mk.injEq] at hop
      obtain ⟨rfl, rfl⟩ := hop
      exact _withdraw_ne_error he hupdate hsettle
  | withdrawAll u p =>
      simp only [Op.settles, Option.some.injEq, Prod.mk.injEq] at hop
      obtain ⟨rfl, rfl⟩ := hop
      exact _withdraw_ne_error he hupdate hsettle
  | harvest p =>
      simp only [Op.settles, Option.some.injEq, Prod.mk.injEq] at hop
      obtain ⟨rfl, rfl⟩ := hop
      exact harvest_ne_error he hupdate hsettle
  | _ => cases hop

end Huski.FairLaunch
