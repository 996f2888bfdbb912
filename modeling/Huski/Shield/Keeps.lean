import Huski.Shield.Model

/-!
# What calls of HUSKY and FairLaunch keep

The frames of the results about the Shield. A call of HUSKY by an account that does not own it, and
a call of FairLaunch other than the three functions that mint by hand, add a pool or name an owner,
keep the roles, what was minted by hand, the cap, and which pools there are.
-/

open Solidity

/-! ## What a call of HUSKY keeps -/

namespace HuskyToken

/-- The roles and what was minted by hand are the same, and the supply stays under the cap. -/
structure KeepsMint (t t' : HuskyToken) : Prop where
  here : t'.here = t.here
  owner : t'.owner = t.owner
  manualMinted : t'.manualMinted = t.manualMinted
  supply : t.erc20.totalSupply ≤ cap → t'.erc20.totalSupply ≤ cap

namespace KeepsMint

theorem refl (t : HuskyToken) : KeepsMint t t := ⟨rfl, rfl, rfl, id⟩

/-- Steps that keep the minting compose. -/
theorem trans {a b c : HuskyToken} (hab : KeepsMint a b) (hbc : KeepsMint b c) : KeepsMint a c :=
  ⟨hbc.here.trans hab.here, hbc.owner.trans hab.owner, hbc.manualMinted.trans hab.manualMinted,
    fun h => hbc.supply (hab.supply h)⟩

end KeepsMint

variable {sender : Address} {blockNumber : Nat} {t t' : HuskyToken} {account recipient : Address}
  {amount : Nat}

theorem writeCheckpoint_manualMinted {delegatee : Address} {n : UInt32} {votes : Nat}
    (h : _writeCheckpoint blockNumber delegatee n votes t = .ok t') :
    t'.manualMinted = t.manualMinted := by
  simp only [_writeCheckpoint, bind_eq_ok] at h
  rcases h with ⟨_, _, h⟩
  split at h
  · cases h
    rfl
  · cases h
    rfl

theorem takeVotes_manualMinted {srcRep : Address}
    (h : takeVotes blockNumber srcRep amount t = .ok t') : t'.manualMinted = t.manualMinted := by
  unfold takeVotes at h
  split at h
  · simp only [bind_eq_ok] at h
    rcases h with ⟨_, _, h⟩
    exact writeCheckpoint_manualMinted h
  · cases h
    rfl

theorem giveVotes_manualMinted {dstRep : Address}
    (h : giveVotes blockNumber dstRep amount t = .ok t') : t'.manualMinted = t.manualMinted := by
  unfold giveVotes at h
  split at h
  · simp only [bind_eq_ok] at h
    rcases h with ⟨_, _, h⟩
    exact writeCheckpoint_manualMinted h
  · cases h
    rfl

/-- Moving votes mints nothing by hand. -/
theorem moveDelegates_keepsMint {srcRep dstRep : Address}
    (h : _moveDelegates blockNumber srcRep dstRep amount t = .ok t') : KeepsMint t t' := by
  have hledger := moveDelegates_ledger h
  refine ⟨hledger.2.2, hledger.2.1, ?_, ?_⟩
  · unfold _moveDelegates at h
    split at h
    · simp only [bind_eq_ok] at h
      rcases h with ⟨t₁, htake, hgive⟩
      exact (giveVotes_manualMinted hgive).trans (takeVotes_manualMinted htake)
    · cases h
      rfl
  · intro hcap
    rw [hledger.1]
    exact hcap

theorem keepsMint_setERC20 {erc20 : ERC20} (h : erc20.totalSupply ≤ t.erc20.totalSupply) :
    KeepsMint t (t.setERC20 erc20) :=
  ⟨rfl, rfl, rfl, fun hcap => h.trans hcap⟩

/-- Minting ends at the cap. -/
theorem mint_keepsMint (h : t.mint sender blockNumber recipient amount = .ok t') :
    KeepsMint t t' := by
  simp only [mint, bind_eq_ok, require_eq_ok, SafeMath.add_eq_ok] at h
  rcases h with ⟨_, _, _, ⟨_, rfl⟩, _, hcap, erc20, hmint, hvotes⟩
  have hsupply := ERC20.totalSupply_mint hmint
  have hminted : KeepsMint t (t.setERC20 erc20) := by
    refine ⟨rfl, rfl, rfl, ?_⟩
    intro _
    show erc20.totalSupply ≤ cap
    rw [hsupply]
    exact hcap
  exact hminted.trans (moveDelegates_keepsMint hvotes)

/-- A transfer mints nothing. -/
theorem transfer_keepsMint (h : t.transfer sender blockNumber recipient amount = .ok t') :
    KeepsMint t t' := by
  simp only [transfer, bind_eq_ok] at h
  rcases h with ⟨erc20, hmove, hvotes⟩
  have hsupply := ERC20.totalSupply_transfer hmove
  exact (keepsMint_setERC20 hsupply.le).trans (moveDelegates_keepsMint hvotes)

theorem transferFrom_keepsMint {holder : Address}
    (h : t.transferFrom sender blockNumber holder recipient amount = .ok t') : KeepsMint t t' := by
  simp only [transferFrom, bind_eq_ok] at h
  rcases h with ⟨erc20, hmove, hvotes⟩
  have hsupply := ERC20.totalSupply_transferFrom hmove
  exact (keepsMint_setERC20 hsupply.le).trans (moveDelegates_keepsMint hvotes)

theorem approve_keepsMint {spender : Address} (h : t.approve sender spender amount = .ok t') :
    KeepsMint t t' := by
  simp only [approve, bind_eq_ok, pure_eq_ok] at h
  rcases h with ⟨erc20, happrove, rfl⟩
  exact keepsMint_setERC20 (ERC20.totalSupply_approve happrove).le

theorem lock_keepsMint (h : t.lock sender account amount = .ok t') : KeepsMint t t' := by
  simp only [lock, bind_eq_ok, pure_eq_ok] at h
  rcases h with ⟨_, _, _, _, _, _, erc20, hmove, _, _, _, _, rfl⟩
  exact ⟨rfl, rfl, rfl, fun hcap => (ERC20.totalSupply_transfer hmove).le.trans hcap⟩

theorem lockToOwner_keepsMint (h : t.lockToOwner sender account amount = .ok t') :
    KeepsMint t t' := by
  simp only [lockToOwner, bind_eq_ok, pure_eq_ok] at h
  rcases h with ⟨_, _, _, _, _, _, erc20, hmove, rfl⟩
  exact keepsMint_setERC20 (ERC20.totalSupply_transfer hmove).le

/-- An unlock mints nothing. -/
theorem unlock_keepsMint (h : t.unlock sender blockNumber = .ok t') : KeepsMint t t' := by
  simp only [unlock, bind_eq_ok, pure_eq_ok] at h
  rcases h with ⟨_, _, _, _, erc20, hmove, _, _, _, _, rfl⟩
  exact ⟨rfl, rfl, rfl, fun hcap => (ERC20.totalSupply_transfer hmove).le.trans hcap⟩

theorem transferAll_keepsMint (h : t.transferAll sender recipient = .ok t') : KeepsMint t t' := by
  simp only [transferAll, bind_eq_ok, pure_eq_ok] at h
  rcases h with ⟨_, _, _, _, erc20, hmove, rfl⟩
  exact ⟨rfl, rfl, rfl, fun hcap => (ERC20.totalSupply_transfer hmove).le.trans hcap⟩

theorem delegate_keepsMint {delegator delegatee : Address}
    (h : t._delegate blockNumber delegator delegatee = .ok t') : KeepsMint t t' := by
  have hkept := moveDelegates_keepsMint h
  exact ⟨hkept.here, hkept.owner, hkept.manualMinted, hkept.supply⟩

/-- A mint by hand is counted, up to its own limit. -/
theorem manualMint_counts (h : t.manualMint sender blockNumber recipient amount = .ok t') :
    t'.here = t.here ∧ t'.owner = t.owner ∧ t'.manualMinted = t.manualMinted + amount ∧
      t'.erc20.totalSupply ≤ cap := by
  simp only [manualMint, bind_eq_ok, SafeMath.add_eq_ok] at h
  rcases h with ⟨_, _, _, ⟨_, rfl⟩, _, _, hmint⟩
  have hkept := mint_keepsMint hmint
  refine ⟨hkept.here, hkept.owner, hkept.manualMinted, ?_⟩
  simp only [mint, bind_eq_ok, require_eq_ok, SafeMath.add_eq_ok] at hmint
  rcases hmint with ⟨_, _, _, ⟨_, rfl⟩, _, hcap, erc20, hminted, hvotes⟩
  have hledger := moveDelegates_ledger hvotes
  rw [hledger.1]
  show erc20.totalSupply ≤ cap
  rw [ERC20.totalSupply_mint hminted]
  exact hcap

end HuskyToken

namespace Huski

open HuskyToken

/-- What is left to those who do not own HUSKY. -/
theorem Governance.exec_keepsMint {ecrecover : Address → Governance.Signed → Address}
    {tx : Governance.Tx} {g g' : Governance.State} (hsender : tx.sender ≠ g.token.owner)
    (h : Governance.exec ecrecover tx g = .ok g') : KeepsMint g.token g'.token := by
  have onToken : ∀ {f : HuskyToken → Result HuskyToken} {g g' : Governance.State},
      g.onToken f = .ok g' → f g.token = .ok g'.token := by
    intro f g g' h
    simp only [Governance.State.onToken, bind_eq_ok, pure_eq_ok] at h
    rcases h with ⟨token, hf, rfl⟩
    exact hf
  -- the functions of the owner
  have denied : ∀ {f : HuskyToken → Result HuskyToken}, f g.token = .ok g'.token →
      (∀ t', f g.token = .ok t' → g.token.owner = tx.sender) → KeepsMint g.token g'.token := by
    intro f hf howner
    exact absurd (howner _ hf).symm hsender
  unfold Governance.exec at h
  cases hop : tx.op with
  | mint recipient amount =>
      simp only [hop] at h
      refine denied (onToken h) ?_
      intro t' hmint
      exact (mint_eq_ok hmint).1
  | manualMint recipient amount =>
      simp only [hop] at h
      refine denied (onToken h) ?_
      intro t' hmint
      simp only [manualMint, bind_eq_ok] at hmint
      rcases hmint with ⟨_, _, _, _, _, _, hmint⟩
      exact (mint_eq_ok hmint).1
  | burn account amount =>
      simp only [hop] at h
      refine denied (onToken h) ?_
      intro t' hburn
      simp only [burn, HuskyToken.onlyOwner, bind_eq_ok, require_eq_ok] at hburn
      rcases hburn with ⟨_, howner, _⟩
      exact howner
  | lock account amount =>
      simp only [hop] at h
      refine denied (onToken h) ?_
      intro t' hlock
      simp only [lock, HuskyToken.onlyOwner, bind_eq_ok, require_eq_ok] at hlock
      rcases hlock with ⟨_, howner, _⟩
      exact howner
  | lockToOwner account amount =>
      simp only [hop] at h
      refine denied (onToken h) ?_
      intro t' hlock
      exact (lockToOwner_eq_ok hlock).2.2.2.1
  | transferOwnership newOwner =>
      simp only [hop] at h
      refine denied (onToken h) ?_
      intro t' htransfer
      simp only [HuskyToken.transferOwnership, HuskyToken.onlyOwner, bind_eq_ok,
        require_eq_ok] at htransfer
      rcases htransfer with ⟨_, howner, _⟩
      exact howner
  | renounceOwnership =>
      simp only [hop] at h
      refine denied (onToken h) ?_
      intro t' hrenounce
      simp only [HuskyToken.renounceOwnership, HuskyToken.onlyOwner, bind_eq_ok,
        require_eq_ok] at hrenounce
      rcases hrenounce with ⟨_, howner, _⟩
      exact howner
  | transfer recipient amount =>
      simp only [hop] at h
      exact transfer_keepsMint (onToken h)
  | transferFrom holder recipient amount =>
      simp only [hop] at h
      exact transferFrom_keepsMint (onToken h)
  | approve spender amount =>
      simp only [hop] at h
      exact approve_keepsMint (onToken h)
  | unlock =>
      simp only [hop] at h
      exact unlock_keepsMint (onToken h)
  | transferAll recipient =>
      simp only [hop] at h
      exact transferAll_keepsMint (onToken h)
  | delegate delegatee =>
      simp only [hop] at h
      exact delegate_keepsMint (onToken h)
  | delegateBySig signed =>
      simp only [hop, Governance.delegateBySig, bind_eq_ok] at h
      rcases h with ⟨_, _, _, _, _, _, h⟩
      have hdelegate := onToken h
      exact delegate_keepsMint hdelegate

/-! ## What a call of FairLaunch keeps -/

namespace FairLaunch

open State

/-- The roles, what was minted by hand, and the pools but for their points and rewards. -/
structure Retains (s s' : State) : Prop where
  here : s'.here = s.here
  owner : s'.owner = s.owner
  husky : KeepsMint s.husky s'.husky
  poolLength : s'.poolLength = s.poolLength
  stakeToken : ∀ pid, (s'.poolInfo pid).stakeToken = (s.poolInfo pid).stakeToken

namespace Retains

theorem refl (s : State) : Retains s s := ⟨rfl, rfl, .refl s.husky, rfl, fun _ => rfl⟩

/-- Steps that retain the owner and the pools compose. -/
theorem trans {a b c : State} (hab : Retains a b) (hbc : Retains b c) : Retains a c :=
  ⟨hbc.here.trans hab.here, hbc.owner.trans hab.owner, hab.husky.trans hbc.husky,
    hbc.poolLength.trans hab.poolLength,
    fun pid => (hbc.stakeToken pid).trans (hab.stakeToken pid)⟩

end Retains

variable {msg : Msg} {n pid : Nat} {user : Address} {s s' : State}

theorem retains_setHusky {husky : HuskyToken} (h : KeepsMint s.husky husky) :
    Retains s (s.setHusky husky) := ⟨rfl, rfl, h, rfl, fun _ => rfl⟩

/-- A call of HUSKY that mints nothing by hand retains. -/
theorem onHusky_retains {f : HuskyToken → Result HuskyToken} (h : s.onHusky f = .ok s')
    (hf : ∀ husky, f s.husky = .ok husky → KeepsMint s.husky husky) : Retains s s' := by
  rcases onHusky_eq_ok h with ⟨husky, hcall, rfl⟩
  exact retains_setHusky (hf husky hcall)

/-- A call of a stake token retains. -/
theorem onToken_retains {token : Address} {f : StakeToken → Result StakeToken}
    (h : onToken token f s = .ok s') : Retains s s' := by
  simp only [onToken, bind_eq_ok, pure_eq_ok] at h
  rcases h with ⟨t, _, rfl⟩
  exact ⟨rfl, rfl, .refl s.husky, rfl, fun _ => rfl⟩

theorem setPoolInfo_retains {pool : PoolInfo}
    (h : pool.stakeToken = (s.poolInfo pid).stakeToken) : Retains s (s.setPoolInfo pid pool) := by
  refine ⟨rfl, rfl, .refl s.husky, rfl, ?_⟩
  intro p
  by_cases hp : p = pid
  · subst hp
    simp [setPoolInfo, h]
  · simp [setPoolInfo, hp]

theorem stakeTransfer_retains {token recipient : Address} {amount : Nat}
    (h : s.stakeTransfer n token recipient amount = .ok s') : Retains s s' := by
  unfold stakeTransfer at h
  split at h
  · exact onHusky_retains h fun _ => transfer_keepsMint
  · simp only [bind_eq_ok, pure_eq_ok] at h
    rcases h with ⟨t, _, rfl⟩
    exact ⟨rfl, rfl, .refl s.husky, rfl, fun _ => rfl⟩

theorem stakeTransferFrom_retains {token holder : Address} {amount : Nat}
    (h : s.stakeTransferFrom n token holder amount = .ok s') : Retains s s' := by
  unfold stakeTransferFrom at h
  split at h
  · exact onHusky_retains h fun _ => transferFrom_keepsMint
  · simp only [bind_eq_ok, pure_eq_ok] at h
    rcases h with ⟨t, _, rfl⟩
    exact ⟨rfl, rfl, .refl s.husky, rfl, fun _ => rfl⟩

theorem safeHuskyTransfer_retains {recipient : Address} {amount : Nat}
    (h : safeHuskyTransfer n recipient amount s = .ok s') : Retains s s' := by
  simp only [safeHuskyTransfer] at h
  split at h
  · exact onHusky_retains h fun _ => transfer_keepsMint
  · exact onHusky_retains h fun _ => transfer_keepsMint

theorem lockDev_retains {amount : Nat} (h : lockDev amount s = .ok s') : Retains s s' := by
  rcases lockDev_eq_ok h with ⟨husky, hlock, rfl⟩
  exact retains_setHusky (lock_keepsMint hlock)

theorem updateBonus_retains {pool : PoolInfo} {reward acc lpSupply til bonusReward : Nat}
    (h : updateBonus n pool reward acc lpSupply s = .ok (til, bonusReward, s')) :
    Retains s s' := by
  unfold updateBonus at h
  split at h
  · simp only [bind_eq_ok, pure_eq_ok, Prod.mk.injEq] at h
    rcases h with ⟨_, hlock, _, _, rfl⟩
    exact lockDev_retains hlock
  · split at h
    · simp only [bind_eq_ok, pure_eq_ok, Prod.mk.injEq] at h
      rcases h with ⟨_, _, _, hlock, _, _, _, _, rfl⟩
      exact lockDev_retains hlock
    · simp only [Except.ok.injEq, Prod.mk.injEq] at h
      rcases h with ⟨_, _, rfl⟩
      exact .refl s

/-- An update mints rewards, and nothing by hand. -/
theorem updatePool_retains (h : updatePool n pid s = .ok s') : Retains s s' := by
  simp only [updatePool, bind_eq_ok] at h
  rcases h with ⟨pool, hpool, h⟩
  rcases poolAt_eq_ok hpool with ⟨_, rfl⟩
  split at h
  · cases h
    exact .refl s
  · split at h
    · cases h
      exact setPoolInfo_retains rfl
    · simp only [accruePool, bind_eq_ok, pure_eq_ok] at h
      rcases h with ⟨m, _, reward, _, s₁, hdev, s₂, hpool, acc, _, ⟨til, bonusReward, s₃⟩, hbonus,
        rfl⟩
      have hminted : Retains s s₂ :=
        (onHusky_retains hdev fun _ => mint_keepsMint).trans
          (onHusky_retains hpool fun _ => mint_keepsMint)
      have hlocked : Retains s s₃ := hminted.trans (updateBonus_retains hbonus)
      have hwritten : Retains s₃ (s₃.setPoolInfo pid { s.poolInfo pid with
          accHuskyPerShare := acc, accHuskyPerShareTilBonusEnd := til, lastRewardBlock := n }) :=
        setPoolInfo_retains (hlocked.stakeToken pid).symm
      have hend := hlocked.trans hwritten
      exact ⟨hend.here, hend.owner, hend.husky, hend.poolLength, hend.stakeToken⟩

theorem massUpdatePools_retains (h : massUpdatePools n s = .ok s') : Retains s s' := by
  refine foldlM_induct ?_ h (.refl s)
  intro t pid t' ht hupdate
  exact ht.trans (updatePool_retains hupdate)

/-- A harvest retains. -/
theorem harvest_retains (h : _harvest n user pid s = .ok s') : Retains s s' := by
  simp only [_harvest, bind_eq_ok] at h
  rcases h with ⟨pool, _, _, _, _, _, _, _, _, _, s₁, hpay, _, _, s₂, hlock, hpoints⟩
  have hpaid : Retains s s₂ :=
    (safeHuskyTransfer_retains hpay).trans (onHusky_retains hlock fun _ => lock_keepsMint)
  rcases mintPoints_eq_ok hpoints with ⟨badgePoints, rfl⟩
  exact ⟨hpaid.here, hpaid.owner, hpaid.husky, hpaid.poolLength, hpaid.stakeToken⟩

theorem harvestStake_retains (h : harvestStake n user pid s = .ok s') : Retains s s' := by
  unfold harvestStake at h
  split at h
  · exact harvest_retains h
  · cases h
    exact .refl s

theorem updateDebts_retains (h : updateDebts pid user s = .ok s') : Retains s s' := by
  simp only [updateDebts, bind_eq_ok, pure_eq_ok] at h
  rcases h with ⟨_, _, _, _, _, _, rfl⟩
  exact ⟨rfl, rfl, .refl s.husky, rfl, fun _ => rfl⟩

/-- A withdrawal retains. -/
theorem withdraw_retains {amount : Nat} (h : _withdraw msg user pid amount s = .ok s') :
    Retains s s' := by
  simp only [_withdraw, bind_eq_ok] at h
  rcases h with ⟨pool, _, _, _, _, _, s₁, hupdate, s₂, hharvest, _, _, s₃, hdebts, h⟩
  have hpaid : Retains s s₂ := (updatePool_retains hupdate).trans (harvest_retains hharvest)
  have hsettled : Retains s₂ s₃ := by
    have hdebts := updateDebts_retains hdebts
    exact ⟨hdebts.here, hdebts.owner, hdebts.husky, hdebts.poolLength, hdebts.stakeToken⟩
  have hleft := hpaid.trans hsettled
  unfold returnStake at h
  split at h
  · have hsent := stakeTransfer_retains h
    exact hleft.trans ⟨hsent.here, hsent.owner, hsent.husky, hsent.poolLength, hsent.stakeToken⟩
  · cases h
    exact ⟨hleft.here, hleft.owner, hleft.husky, hleft.poolLength, hleft.stakeToken⟩

/-- A deposit retains. -/
theorem deposit_retains {amount : Nat} (h : deposit msg user pid amount s = .ok s') :
    Retains s s' := by
  simp only [deposit, bind_eq_ok] at h
  rcases h with ⟨pool, _, _, _, _, _, s₁, hupdate, s₂, hharvest, s₃, htake, _, _, hdebts⟩
  have hpaid : Retains s s₂ := (updatePool_retains hupdate).trans (harvestStake_retains hharvest)
  have htaken : Retains s s₃ := hpaid.trans (stakeTransferFrom_retains htake)
  have hdebts := updateDebts_retains hdebts
  exact htaken.trans ⟨hdebts.here, hdebts.owner, hdebts.husky, hdebts.poolLength,
    hdebts.stakeToken⟩

/-- The functions of the owner that mint, add a pool, or name a new owner or none. -/
def Op.appoints : Op → Bool
  | .addPool .. | .manualMint .. | .transferOwnership .. | .renounceOwnership => true
  | _ => false

/-- Only the owner appoints. -/
theorem owner_of_appoints {op : Op} (hop : op.appoints = true) (h : exec msg op s = .ok s') :
    s.owner = msg.sender := by
  cases op with
  | addPool => exact (addPool_eq_ok h).1
  | manualMint =>
      simp only [exec, manualMint, onlyOwner, bind_eq_ok, require_eq_ok] at h
      rcases h with ⟨_, howner, _⟩
      exact howner
  | transferOwnership =>
      simp only [exec, transferOwnership, onlyOwner, bind_eq_ok, require_eq_ok] at h
      rcases h with ⟨_, howner, _⟩
      exact howner
  | renounceOwnership =>
      simp only [exec, renounceOwnership, onlyOwner, bind_eq_ok, require_eq_ok] at h
      rcases h with ⟨_, howner, _⟩
      exact howner
  | _ => cases hop

/-- Every other call retains the owner, the pools and what was minted by hand. -/
theorem exec_retains {op : Op} (hop : op.appoints = false) (h : exec msg op s = .ok s') :
    Retains s s' := by
  cases op with
  | addPool | manualMint | transferOwnership | renounceOwnership => cases hop
  | setDev | setHuskyPerBlock | setBadgeRelayer | setBadgePoints =>
      simp only [exec, setDev, setHuskyPerBlock, setBadgeRelayer, setBadgePoints, bind_eq_ok,
        pure_eq_ok] at h
      rcases h with ⟨_, _, rfl⟩
      exact ⟨rfl, rfl, .refl s.husky, rfl, fun _ => rfl⟩
  | setBonus =>
      simp only [exec, setBonus, bind_eq_ok, pure_eq_ok] at h
      rcases h with ⟨_, _, _, _, _, _, rfl⟩
      exact ⟨rfl, rfl, .refl s.husky, rfl, fun _ => rfl⟩
  -- only the weight of the pool is written, after all pools are settled
  | setPool pid allocPoint =>
      simp only [exec, setPool, bind_eq_ok, pure_eq_ok] at h
      rcases h with ⟨_, _, s₁, hupdate, pool, hpool, _, _, _, _, rfl⟩
      rcases poolAt_eq_ok hpool with ⟨_, rfl⟩
      have hwritten : Retains s₁ (s₁.setPoolInfo pid { s₁.poolInfo pid with allocPoint }) :=
        setPoolInfo_retains rfl
      have hend := (massUpdatePools_retains hupdate).trans hwritten
      exact ⟨hend.here, hend.owner, hend.husky, hend.poolLength, hend.stakeToken⟩
  | updatePool pid => exact updatePool_retains h
  | massUpdatePools => exact massUpdatePools_retains h
  | deposit user pid amount => exact deposit_retains h
  | withdraw user pid amount => exact withdraw_retains h
  | withdrawAll user pid => exact withdraw_retains h
  | harvest pid =>
      simp only [exec, harvest, bind_eq_ok] at h
      rcases h with ⟨s₁, hupdate, s₂, hharvest, hdebts⟩
      exact (updatePool_retains hupdate).trans
        ((harvest_retains hharvest).trans (updateDebts_retains hdebts))
  | emergencyWithdraw pid =>
      simp only [exec, emergencyWithdraw, bind_eq_ok, pure_eq_ok] at h
      rcases h with ⟨_, _, _, _, s₁, hsend, rfl⟩
      have hsent := stakeTransfer_retains hsend
      exact ⟨hsent.here, hsent.owner, hsent.husky, hsent.poolLength, hsent.stakeToken⟩
  -- calls of HUSKY that mint nothing
  | lockToOwner account amount =>
      simp only [exec, lockToOwner, bind_eq_ok] at h
      rcases h with ⟨_, _, h⟩
      exact onHusky_retains h fun _ => lockToOwner_keepsMint
  | unlockFromOwner account amount =>
      simp only [exec, unlockFromOwner, bind_eq_ok] at h
      rcases h with ⟨_, _, s₁, hdev, _, _, huser⟩
      exact (safeHuskyTransfer_retains hdev).trans (safeHuskyTransfer_retains huser)
  | huskyTransfer recipient amount => exact onHusky_retains h fun _ => transfer_keepsMint
  | huskyApprove spender amount => exact onHusky_retains h fun _ => approve_keepsMint
  | tokenTransfer token recipient amount => exact onToken_retains h
  | tokenApprove token spender amount => exact onToken_retains h
  | setPrices store =>
      cases h
      exact ⟨rfl, rfl, .refl s.husky, rfl, fun _ => rfl⟩

end FairLaunch

end Huski
