import Huski.Farm.StakeMirror
import Huski.Vault.CashFlow

/-!
# What a call of the vault does to FairLaunch

`work` and `kill` take the stake of one position out and burn it, where the withdrawal succeeds, and
`work` stakes what the position then owes. The other calls leave the stakes and the debt tokens
alone. In between, payments and workers move what is not the vault's.
-/

namespace Huski.Vault

open Solidity

/-! ## Payments do not reach the other contracts -/

section Others

variable {G : Type} {self recipient : Address} {value : Nat} {o : Outcome G} {msg : Msg}
  {w w' : World (Books G)}

theorem onOthers_others {f : G → Result G} (h : onOthers f w = .ok w') :
    f w.rest.others = .ok w'.rest.others := by
  simp only [onOthers, bind_eq_ok, pure_eq_ok] at h
  obtain ⟨others, hcall, rfl⟩ := h
  exact hcall

theorem onOthers_of_others {f : G → Result G} {others : G} (h : f w.rest.others = .ok others) :
    onOthers f w = .ok (setBooks w { w.rest with others }) := by
  simp only [onOthers, bind_eq_ok, pure_eq_ok]
  exact ⟨others, h, rfl⟩

theorem sendToken_others (h : sendToken self recipient value w = .ok w') :
    w'.rest.others = w.rest.others := by
  obtain ⟨_, ⟨_, rfl⟩ | ⟨_, rfl⟩⟩ := sendToken_eq_ok h <;> rfl

theorem safeTransferFrom_others {token sender : Address}
    (h : (o.externals self).safeTransferFrom token sender recipient value w = .ok w') :
    w'.rest.others = w.rest.others := by
  simp only [Outcome.externals] at h
  split at h
  · rw [receiveToken_eq_ok h]
    rfl
  · cases h
    rfl

theorem smartSafeTransfer_others
    (h : _smartSafeTransfer (o.externals self) recipient value w = .ok w') :
    w'.rest.others = w.rest.others := by
  unfold _smartSafeTransfer at h
  split at h
  · simp only [bind_eq_ok] at h
    obtain ⟨w₁, hsend, w₂, hunwrap, hnative⟩ := h
    have hothers : w₁.rest.others = w.rest.others := sendToken_others hsend
    obtain ⟨_, rfl⟩ := relayerWithdraw_eq_ok hunwrap
    obtain ⟨_, rfl⟩ := sendNative_eq_ok hnative
    exact hothers
  · exact sendToken_others h

theorem sendPositive_others
    (h : sendPositive (o.externals self) recipient value w = .ok w') :
    w'.rest.others = w.rest.others := by
  unfold sendPositive at h
  split at h
  · exact smartSafeTransfer_others h
  · cases h
    rfl

theorem returnExcess_others {back lessDebt : Nat}
    (h : returnExcess (o.externals self) msg back lessDebt w = .ok w') :
    w'.rest.others = w.rest.others := by
  unfold returnExcess at h
  split at h
  · simp only [bind_eq_ok] at h
    obtain ⟨_, _, _, _, _, _, _, _, _, _, hpay⟩ := h
    exact smartSafeTransfer_others hpay
  · cases h
    rfl

theorem transferTokenToVault_others
    (h : transferTokenToVault (o.externals self) msg value w = .ok w') :
    w'.rest.others = w.rest.others := by
  rw [transferTokenToVault_cash h]
  rfl

theorem workerCall_others {worker : Address} (h : o.workerCall self worker w = .ok w') :
    o.peers.worker w.rest.others = .ok w'.rest.others := by
  simp only [Outcome.workerCall, bind_eq_ok] at h
  obtain ⟨_, _, w₁, hreceive, hothers⟩ := h
  have hcall := onOthers_others hothers
  rw [receiveToken_eq_ok hreceive] at hcall
  exact hcall

theorem performWork_others {id : PositionId} {worker : Address}
    {principalAmount loan debt back : Nat} {data : WorkData}
    (h : performWork (o.externals self) msg id worker principalAmount loan debt data w =
      .ok (back, w')) : o.peers.worker w.rest.others = .ok w'.rest.others := by
  simp only [performWork, bind_eq_ok, pure_eq_ok, Prod.mk.injEq] at h
  obtain ⟨_, _, _, _, _, _, _, _, w₁, hsend, w₂, hwork, _, _, _, _, _, rfl⟩ := h
  rw [← sendToken_others hsend]
  exact workerCall_others hwork

end Others

/-! ## The storage that farming reads -/

section Storage

variable {v v' : Storage} {id : PositionId}

/-- Clearing a debt leaves the pool and the token. -/
theorem removeDebt_farm {cleared : Nat} (h : _removeDebt id v = .ok (cleared, v')) :
    (v'.positions id).debtShare = 0 ∧ (v'.positions id).owner = (v.positions id).owner ∧
      v'.fairLaunchPoolId = v.fairLaunchPoolId ∧ v'.debtToken = v.debtToken := by
  rcases removeDebt_eq_ok h with ⟨hnone, _, rfl⟩ | ⟨_, _, _, _, rfl⟩
  · exact ⟨hnone, rfl, rfl, rfl⟩
  · refine ⟨?_, setDebtShare_owner v id 0 id, rfl, rfl⟩
    show (Function.update v.positions id _ id).debtShare = 0
    rw [Function.update_self]

/-- Adding a debt leaves the pool and the token. -/
theorem addDebt_farm {debtVal : Nat} (h : _addDebt id debtVal v = .ok v') :
    v'.fairLaunchPoolId = v.fairLaunchPoolId ∧ v'.debtToken = v.debtToken := by
  obtain ⟨_, _, rfl⟩ := addDebt_eq_ok h
  exact ⟨rfl, rfl⟩

end Storage

end Huski.Vault

namespace Huski.Farm

open Solidity FairLaunch

theorem VaultTx.sameVault (tx : VaultTx) (self : Address) :
    (tx.externals self).Within Vault.SameVault :=
  Vault.externals_sameVault (tx.outcome self)

/-! ## What flows between the vault and FairLaunch -/

/-- The stake of an owner in the vault's pool that the vault funds. -/
def stake (self : Address) (w : World) (u : Address) : Nat :=
  stakeOf self (chain w) w.vault.fairLaunchPoolId u

/-- The supply of the vault's debt token. -/
def supply (w : World) : Nat := (chain w).state.debtSupply w.vault.debtToken

/-- The same pool, debt token and chain. -/
structure SameSite (w w' : World) : Prop where
  pool : w'.vault.fairLaunchPoolId = w.vault.fairLaunchPoolId
  debtToken : w'.vault.debtToken = w.vault.debtToken
  chain : chain w' = chain w

/-- The same positions at the same site. -/
structure SameFarm (w w' : World) : Prop extends SameSite w w' where
  positions : w'.vault.positions = w.vault.positions
  nextPositionId : w'.vault.nextPositionId = w.vault.nextPositionId

/-- Stake is `taken` from one account and burned, and minted and `put` in for another. -/
structure Flow (vault : Address) (w w' : World) (payer : Address) (taken : Nat) (payee : Address)
    (put : Nat) : Prop where
  sane : Sane vault (chain w')
  pool : w'.vault.fairLaunchPoolId = w.vault.fairLaunchPoolId
  debtToken : w'.vault.debtToken = w.vault.debtToken
  stake : ∀ u, stake vault w' u + (if payer = u then taken else 0) =
    stake vault w u + if payee = u then put else 0
  supply : supply w' + taken = supply w + put

section Flow

variable {self payer payee : Address} {taken put : Nat} {a b c w w' : World}

theorem SameFarm.of_vault (hvault : w'.vault = w.vault) (hchain : Farm.chain w' = Farm.chain w) :
    SameFarm w w' := by
  refine ⟨⟨?_, ?_, hchain⟩, ?_, ?_⟩ <;> rw [hvault]

theorem SameFarm.of_exitScope (h : w' = Vault.exitScope w) : SameFarm w w' := by
  subst h
  exact ⟨⟨rfl, rfl, rfl⟩, rfl, rfl⟩

/-- Steps that leave the farm compose. -/
theorem SameFarm.trans (hab : SameFarm a b) (hbc : SameFarm b c) : SameFarm a c where
  pool := hbc.pool.trans hab.pool
  debtToken := hbc.debtToken.trans hab.debtToken
  chain := hbc.chain.trans hab.chain
  positions := hbc.positions.trans hab.positions
  nextPositionId := hbc.nextPositionId.trans hab.nextPositionId

theorem SameSite.stake (h : SameSite w w') (self u : Address) :
    stake self w' u = stake self w u := by
  unfold Farm.stake
  rw [h.chain, h.pool]

theorem SameSite.supply (h : SameSite w w') : supply w' = supply w := by
  unfold Farm.supply
  rw [h.chain, h.debtToken]

theorem SameFarm.closes (h : SameFarm w w') (tx : VaultTx) :
    closes self tx w' = closes self tx w := by
  have hunstakes : ∀ id, unstakes self tx id w' = unstakes self tx id w := by
    intro id
    unfold unstakes
    rw [h.positions, h.pool, h.chain]
  unfold Farm.closes
  simp only [h.nextPositionId, hunstakes]

/-- A flow after a step that leaves the site. -/
theorem Flow.before (hab : SameSite a b) (h : Flow self b c payer taken payee put) :
    Flow self a c payer taken payee put where
  sane := h.sane
  pool := h.pool.trans hab.pool
  debtToken := h.debtToken.trans hab.debtToken
  stake u := hab.stake self u ▸ h.stake u
  supply := hab.supply ▸ h.supply

/-- A flow before a step that leaves the site. -/
theorem Flow.after (h : Flow self a b payer taken payee put) (hbc : SameSite b c) :
    Flow self a c payer taken payee put where
  sane := hbc.chain.symm ▸ h.sane
  pool := hbc.pool.trans h.pool
  debtToken := hbc.debtToken.trans h.debtToken
  stake u := (hbc.stake self u).symm ▸ h.stake u
  supply := hbc.supply.symm ▸ h.supply

/-- What is taken out, then what is put in. -/
theorem Flow.trans (hab : Flow self a b payer taken payer 0)
    (hbc : Flow self b c payee 0 payee put) :
    Flow self a c payer taken payee put where
  sane := hbc.sane
  pool := hbc.pool.trans hab.pool
  debtToken := hbc.debtToken.trans hab.debtToken
  stake u := by
    have htake := hab.stake u
    have hput := hbc.stake u
    rw [ite_self] at htake hput
    omega
  supply := by
    have htake := hab.supply
    have hput := hbc.supply
    omega

theorem Flow.refl (hs : Sane self (Farm.chain w)) : Flow self w w payer 0 payer 0 :=
  ⟨hs, rfl, rfl, fun _ => rfl, rfl⟩

/-- Others move nothing that is the vault's. -/
theorem Flow.aside (h : Flow self a b payer taken payee put) (hvault : c.vault = b.vault)
    (haside : Aside self (Farm.chain b) (Farm.chain c)) :
    Flow self a c payer taken payee put := by
  obtain ⟨hsane, hstakes, hsupply⟩ := haside h.sane
  refine ⟨hsane, by rw [hvault, h.pool], by rw [hvault, h.debtToken], fun u => ?_, ?_⟩
  · rw [← h.stake u]
    unfold Farm.stake
    rw [hvault, hstakes]
  · rw [← h.supply]
    unfold Farm.supply
    rw [hvault, hsupply]

end Flow

/-! ## Withdrawal and deposit -/

section Parts

variable {self : Address} {tx : VaultTx} {id : Vault.PositionId} {amount : Nat} {w w' : World}

/-- The stake that a withdrawal takes out. -/
def takenOut (self : Address) (tx : VaultTx) (id : Vault.PositionId) (w : World) : Nat :=
  if unstakes self tx id w then (w.vault.positions id).debtShare else 0

/-- The vault's withdrawal is a transaction of FairLaunch. -/
theorem mine_of_fairLaunchWithdraw {user : Address} {pid : Nat} {c c' : Chain}
    (h : (tx.outcome self).peers.fairLaunchWithdraw user pid amount c = .ok c') :
    mine c ⟨self, tx.msg.blockNumber, .withdraw user pid amount⟩ = .ok c' := by
  simp only [VaultTx.outcome, peers] at h
  split at h
  · cases h
  · exact h

/-- A withdrawal takes out the shares of the position, or nothing where it fails. -/
theorem fairLaunchWithdraw_flow (hs : Sane self (chain w))
    (h : Vault._fairLaunchWithdraw (tx.externals self) id w = .ok w') :
    Flow self w w' (w.vault.positions id).owner (takenOut self tx id w)
      (w.vault.positions id).owner 0 := by
  simp only [Vault._fairLaunchWithdraw] at h
  by_cases hdebt : (w.vault.positions id).debtShare > 0
  · rw [if_pos hdebt] at h
    split at h
    · -- withdrawn, and burned
      rename_i w₁ hwithdraw
      have hwithin := tx.sameVault self
      have hvault₁ : w₁.vault = w.vault := hwithin.fairLaunchWithdraw hwithdraw
      have hvault : w'.vault = w₁.vault := hwithin.debtTokenBurn h
      have hcall : (tx.outcome self).peers.fairLaunchWithdraw (w.vault.positions id).owner
          w.vault.fairLaunchPoolId (w.vault.positions id).debtShare (chain w) =
          .ok (chain w₁) := Vault.onOthers_others hwithdraw
      have htaken : takenOut self tx id w = (w.vault.positions id).debtShare := by
        unfold takenOut unstakes
        rw [hcall]
        rfl
      obtain ⟨hs₁, hstakes₁, hsupply₁⟩ := mine_withdraw hs (mine_of_fairLaunchWithdraw hcall)
      have hburn := Vault.onOthers_others h
      rw [hvault₁] at hburn
      obtain ⟨hs', hstakes'⟩ := burn_sane hs₁ hburn
      rw [htaken]
      refine ⟨hs', by rw [hvault, hvault₁], by rw [hvault, hvault₁], fun u => ?_, ?_⟩
      · have htook := hstakes₁ w.vault.fairLaunchPoolId u
        simp only [true_and, eq_comm (a := u)] at htook
        unfold stake
        rw [hvault, hvault₁, hstakes', ite_self, Nat.add_zero]
        exact htook
      · have hburned := burn_supply hburn w.vault.debtToken
        rw [if_pos rfl, hsupply₁] at hburned
        unfold supply
        rw [hvault, hvault₁, Nat.add_zero]
        exact hburned
    · rename_i hfails
      cases h
      have hnone : takenOut self tx id w = 0 := by
        unfold takenOut unstakes
        cases hcall : (tx.outcome self).peers.fairLaunchWithdraw (w.vault.positions id).owner
            w.vault.fairLaunchPoolId (w.vault.positions id).debtShare (chain w) with
        | error e => rfl
        | ok c =>
            have hok := hfails.symm.trans (Vault.onOthers_of_others (w := w) hcall)
            cases hok
      rw [hnone]
      exact .refl hs
  · rw [if_neg hdebt] at h
    cases h
    have hnone : takenOut self tx id w = 0 := by
      unfold takenOut
      split <;> omega
    rw [hnone]
    exact .refl hs

/-- A deposit mints its amount and stakes it for the owner of the position. -/
theorem fairLaunchDeposit_flow (hs : Sane self (chain w))
    (h : Vault._fairLaunchDeposit (tx.externals self) id amount w = .ok w') :
    Flow self w w' (w.vault.positions id).owner 0 (w.vault.positions id).owner amount := by
  unfold Vault._fairLaunchDeposit at h
  split at h
  · simp only [bind_eq_ok] at h
    obtain ⟨w₁, hmint, hdeposit⟩ := h
    have hwithin := tx.sameVault self
    have hvault₁ : w₁.vault = w.vault := hwithin.debtTokenMint hmint
    have hvault : w'.vault = w₁.vault := hwithin.fairLaunchDeposit hdeposit
    -- the debt tokens are minted to the vault, and then staked for the owner
    have hmint := Vault.onOthers_others hmint
    have hdeposit := Vault.onOthers_others hdeposit
    obtain ⟨hs₁, hstakes₁⟩ := mint_sane hs hmint
    have hsupply₁ := mint_supply hmint
    obtain ⟨hs', hstakes', hsupply'⟩ := mine_deposit hs₁ hdeposit
    rw [hvault₁] at hstakes'
    refine ⟨hs', by rw [hvault, hvault₁], by rw [hvault, hvault₁], fun u => ?_, ?_⟩
    · have hput := hstakes' w.vault.fairLaunchPoolId u
      simp only [true_and, eq_comm (a := u)] at hput
      -- the farm's entry of the owner grows by what was minted
      unfold stake
      rw [hvault, hvault₁, ite_self, Nat.add_zero, hput, hstakes₁]
    · have hminted := hsupply₁ w.vault.debtToken
      rw [if_pos rfl] at hminted
      unfold supply
      rw [hvault, hvault₁, Nat.add_zero, hsupply']
      exact hminted
  · cases h
    -- nothing to stake
    obtain rfl : amount = 0 := by omega
    exact .refl hs

/-- The position that `work` goes on with, once its stake is withdrawn. -/
theorem selectPosition_flow {id k : Vault.PositionId} {worker : Address}
    (hs : Sane self (chain w))
    (h : Vault.selectPosition (tx.externals self) tx.msg id worker w = .ok (k, w')) :
    k = (if id = 0 then w.vault.nextPositionId else id) ∧
    Flow self w w' (w.vault.positions k).owner
      (if id = 0 then 0 else takenOut self tx id w) (w.vault.positions k).owner 0 := by
  unfold Vault.selectPosition at h
  split at h
  · rename_i hnew
    cases h
    rw [if_pos hnew, if_pos hnew]
    refine ⟨rfl, hs, rfl, rfl, fun u => ?_, rfl⟩
    rw [ite_self]
    rfl
  · rename_i hold
    simp only [bind_eq_ok, pure_eq_ok, Prod.mk.injEq] at h
    obtain ⟨_, _, _, _, _, _, w₁, hunstake, rfl, rfl⟩ := h
    rw [if_neg hold, if_neg hold]
    exact ⟨rfl, fairLaunchWithdraw_flow hs hunstake⟩

/-- The payments and the worker of `work`. -/
theorem performWork_aside {worker : Address} {principalAmount loan debt back : Nat}
    {data : Vault.WorkData}
    (h : Vault.performWork (tx.externals self) tx.msg id worker principalAmount loan debt data w =
      .ok (back, w')) : Aside self (chain w) (chain w') :=
  runCalls_aside (Vault.performWork_others h)

/-- What a position owes after `work` is staked for its owner. -/
theorem updateDebt_flow {worker : Address} {debt : Nat} (hs : Sane self (chain w))
    (hnone : (w.vault.positions id).debtShare = 0)
    (h : Vault.updateDebt (tx.externals self) id worker debt w = .ok w') :
    Flow self w w' (w'.vault.positions id).owner 0 (w'.vault.positions id).owner
      (w'.vault.positions id).debtShare := by
  unfold Vault.updateDebt at h
  split at h
  · simp only [bind_eq_ok] at h
    obtain ⟨_, _, _, _, _, _, _, _, _, _, _, _, v, hadd, hstake⟩ := h
    have hvault : w'.vault = v := Vault.fairLaunchDeposit_within Vault.SameVault.refl
      Vault.SameVault.trans (tx.sameVault self) hstake
    obtain ⟨hpool, htoken⟩ := Vault.addDebt_farm hadd
    have hflow := fairLaunchDeposit_flow (w := w.setVault v) hs hstake
    refine ⟨hflow.sane, by rw [hvault, hpool], by rw [hvault, htoken], fun u => ?_, ?_⟩
    · have hput := hflow.stake u
      unfold stake at hput ⊢
      rw [hvault] at hput ⊢
      rw [← hpool]
      exact hput
    · have hminted := hflow.supply
      unfold supply at hminted ⊢
      rw [hvault] at hminted ⊢
      rw [← htoken]
      exact hminted
  · cases h
    rw [hnone]
    exact .refl hs

end Parts

/-! ## The calls -/

section Calls

variable {self : Address} {tx : VaultTx} {id : Vault.PositionId} {w w' : World}

/-- A position was closed and issued anew, in a vault that has a pool. -/
structure Reissues (vault : Address) (w w' : World) (id : Vault.PositionId) (withdrawn : Bool) :
    Prop where
  poolSet : w.vault.fairLaunchPoolId ≠ maxWord
  flow : Flow vault w w' (w.vault.positions id).owner
    (if withdrawn then (w.vault.positions id).debtShare else 0)
    (w'.vault.positions id).owner (w'.vault.positions id).debtShare

/-- A work reissues the position's stake. -/
theorem work_reissues {worker : Address} {principalAmount loan maxReturn : Nat}
    {data : Vault.WorkData} (hs : Sane self (chain w))
    (h : Vault._work (tx.externals self) tx.msg id worker principalAmount loan maxReturn data w =
      .ok w') :
    if id = 0 then Reissues self w w' w.vault.nextPositionId false
    else Reissues self w w' id (unstakes self tx id w) := by
  have hext := tx.sameVault self
  have hset : w.vault.fairLaunchPoolId ≠ maxWord := by
    simp only [Vault._work, bind_eq_ok, require_eq_ok] at h
    obtain ⟨_, hset, _⟩ := h
    exact hset
  obtain ⟨r⟩ := Vault.work_run h
  obtain ⟨hid, hselect⟩ := selectPosition_flow hs r.select
  obtain ⟨hzero, _, hpool, htoken⟩ := Vault.removeDebt_farm r.clear
  -- between the two farm calls the position has no share
  have hclear : SameSite r.selected
      ((Vault.enterScope tx.msg r.id' data.strategy r.selected).setVault r.debtless) :=
    ⟨hpool, htoken, rfl⟩
  have hcleared := hselect.after hclear
  have hworked := hcleared.aside (r.worked_vault hext) (performWork_aside r.perform)
  rw [← r.worked_vault hext] at hzero
  have howing := hworked.trans (updateDebt_flow hworked.sane hzero r.update)
  -- paying the excess back and leaving the scope touches no farm
  have hgive : SameFarm r.owing r.returned :=
    .of_vault (Vault.returnExcess_within Vault.SameVault.refl Vault.SameVault.trans hext r.give)
      (Vault.returnExcess_others r.give)
  have hleft := hgive.trans (.of_exitScope r.exit)
  have hflow := howing.after hleft.toSameSite
  rw [← hleft.positions] at hflow
  -- a new position stakes under the next free number
  by_cases hnew : id = 0
  · rw [if_pos hnew] at hid hflow ⊢
    rw [hid] at hflow
    exact ⟨hset, hflow⟩
  · rw [if_neg hnew] at hid hflow ⊢
    rw [hid] at hflow
    exact ⟨hset, hflow⟩

/-- A kill takes the position's stake off, unless its withdrawal fails. -/
theorem kill_reissues (hs : Sane self (chain w))
    (h : Vault._kill (tx.externals self) tx.msg id w = .ok w') :
    Reissues self w w' id (unstakes self tx id w) := by
  have hext := tx.sameVault self
  have hset : w.vault.fairLaunchPoolId ≠ maxWord := by
    simp only [Vault._kill, bind_eq_ok, require_eq_ok] at h
    obtain ⟨_, hset, _⟩ := h
    exact hset
  obtain ⟨r⟩ := Vault.kill_run h
  have hunstaked := fairLaunchWithdraw_flow hs r.unstake
  -- the farm's answer does not reach the vault, so its positions are as before
  have hstill : r.withdrawn.vault = w.vault :=
    Vault.fairLaunchWithdraw_within Vault.SameVault.refl Vault.SameVault.trans hext r.unstake
  obtain ⟨hzero, howner, hpool, htoken⟩ := Vault.removeDebt_farm r.clear
  have hclear : SameSite r.withdrawn (r.withdrawn.setVault r.debtless) := ⟨hpool, htoken, rfl⟩
  have hcleared := hunstaked.after hclear
  have hliquidated : r.liquidated.vault = r.debtless := hext.workerLiquidate r.liquidate
  have haside : Aside self (chain r.withdrawn) (chain r.liquidated) :=
    runCalls_aside (Vault.workerCall_others r.liquidate)
  have hflow := hcleared.aside hliquidated haside
  -- the two payments after the liquidation stay within the vault's token
  have hpay : SameFarm r.liquidated r.paid :=
    .of_vault (Vault.sendPositive_within Vault.SameVault.refl Vault.SameVault.trans hext r.pay)
      (Vault.sendPositive_others r.pay)
  have hgive : SameFarm r.paid w' :=
    .of_vault (Vault.sendPositive_within Vault.SameVault.refl Vault.SameVault.trans hext r.give)
      (Vault.sendPositive_others r.give)
  have hleft := hpay.trans hgive
  refine ⟨hset, ?_⟩
  rw [hleft.positions, hliquidated, hzero, howner, hstill]
  exact hflow.after hleft.toSameSite

/-- `modifier nonReentrant` and the accrual before it are about neither positions nor stake. -/
theorem entered_sameFarm {value : Nat} {w₁ : World}
    (h : Vault.accrue (tx.externals self) tx.msg value w = .ok w₁) :
    SameFarm w (w₁.setVault (w₁.vault.setNotEntered false)) := by
  obtain ⟨_, _, _, hacc⟩ := Vault.accrue_eq_ok h
  rw [hacc.world]
  exact ⟨⟨rfl, rfl, rfl⟩, rfl, rfl⟩

/-- Giving the lock back leaves the farm. -/
theorem left_sameFarm (w : World) : SameFarm w (w.setVault (w.vault.setNotEntered true)) :=
  ⟨⟨rfl, rfl, rfl⟩, rfl, rfl⟩

theorem pulled_sameFarm {value : Nat}
    (h : Vault.transferTokenToVault (tx.externals self) tx.msg value w = .ok w') :
    SameFarm w w' :=
  .of_vault (Vault.transferTokenToVault_within (tx.sameVault self) h)
    (Vault.transferTokenToVault_others h)

/-- Steps before and after that leave the farm. -/
theorem Reissues.between {a b c d : World} {withdrawn : Bool} (hab : SameFarm a b)
    (h : Reissues self b c id withdrawn) (hcd : SameFarm c d) :
    Reissues self a d id withdrawn := by
  have hflow := (h.flow.before hab.toSameSite).after hcd.toSameSite
  rw [hab.positions, ← hcd.positions] at hflow
  exact ⟨hab.pool ▸ h.poolSet, hflow⟩

/-- `work` and `kill` close one position and issue it anew. -/
theorem call_reissues {withdrawn : Bool} (hs : Sane self (chain w))
    (h : Vault.call (tx.externals self) tx.msg tx.call w = .ok w')
    (hcloses : closes self tx w = some (id, withdrawn)) : Reissues self w w' id withdrawn := by
  cases hcall : tx.call with
  | work i worker principalAmount loan maxReturn data =>
      rw [hcall] at h
      obtain ⟨_, w₁, w₂, hpull, hacc, hbody⟩ := Vault.work_eq_ok h
      obtain ⟨_, w₃, hwork, rfl⟩ := Vault.nonReentrant_eq_ok hbody
      have hentered := (pulled_sameFarm hpull).trans (entered_sameFarm hacc)
      have hreissues := work_reissues (hentered.chain ▸ hs) hwork
      rw [← hentered.closes tx] at hcloses
      simp only [closes, hcall] at hcloses
      -- a new position takes the number the vault gives next
      by_cases hnew : i = 0
      · rw [if_pos hnew] at hcloses hreissues
        cases hcloses
        exact hreissues.between hentered (left_sameFarm w₃)
      · rw [if_neg hnew] at hcloses hreissues
        cases hcloses
        exact hreissues.between hentered (left_sameFarm w₃)
  | kill i =>
      rw [hcall] at h
      obtain ⟨_, w₁, hacc, hbody⟩ := Vault.kill_eq_ok h
      obtain ⟨_, w₂, hkill, rfl⟩ := Vault.nonReentrant_eq_ok hbody
      have hentered := entered_sameFarm hacc
      have hreissues := kill_reissues (hentered.chain ▸ hs) hkill
      rw [← hentered.closes tx] at hcloses
      simp only [closes, hcall] at hcloses
      cases hcloses
      exact hreissues.between hentered (left_sameFarm w₂)
  | _ =>
      simp only [closes, hcall] at hcloses
      cases hcloses

/-- The other calls leave the stakes and the debt tokens, and but for the administration of a vault
without a pool also the pool and the token they are counted in. -/
theorem call_aside {stuck : Address → Nat} (hset : Settled ⟨w, stuck⟩ (.vault tx))
    (h : Vault.call (tx.externals self) tx.msg tx.call w = .ok w')
    (hcloses : closes self tx w = none) :
    Aside self (chain w) (chain w') ∧
      (w.vault.fairLaunchPoolId = maxWord ∨
        w'.vault.fairLaunchPoolId = w.vault.fairLaunchPoolId ∧
          w'.vault.debtToken = w.vault.debtToken) := by
  have hext := tx.sameVault self
  -- a call that keeps the vault's site and the rest of the chain
  have quiet : SameSite w w' → Aside self (chain w) (chain w') ∧
      (w.vault.fairLaunchPoolId = maxWord ∨
        w'.vault.fairLaunchPoolId = w.vault.fairLaunchPoolId ∧
          w'.vault.debtToken = w.vault.debtToken) := by
    intro hsite
    rw [hsite.chain]
    exact ⟨.refl self (chain w), .inr ⟨hsite.pool, hsite.debtToken⟩⟩
  cases hcall : tx.call with
  -- these two close a position, which the hypothesis excludes
  | work i =>
      simp only [closes, hcall] at hcloses
      split at hcloses <;> cases hcloses
  | kill i =>
      simp only [closes, hcall] at hcloses
      cases hcloses
  | deposit amountToken =>
      rw [hcall] at h
      obtain ⟨w₁, w₂, hpull, hacc, hbody⟩ := Vault.deposit_eq_ok h
      obtain ⟨_, w₃, hdep, rfl⟩ := Vault.nonReentrant_eq_ok hbody
      simp only [Vault._deposit, bind_eq_ok, pure_eq_ok] at hdep
      obtain ⟨_, _, _, _, _, _, _, _, _, _, rfl⟩ := hdep
      have hentered := ((pulled_sameFarm hpull).trans (entered_sameFarm hacc)).toSameSite
      exact quiet ⟨hentered.pool, hentered.debtToken, hentered.chain⟩
  | withdraw share =>
      rw [hcall] at h
      obtain ⟨w₁, hacc, hbody⟩ := Vault.withdraw_eq_ok h
      obtain ⟨_, w₂, hwith, rfl⟩ := Vault.nonReentrant_eq_ok hbody
      simp only [Vault._withdraw, bind_eq_ok, pure_eq_ok] at hwith
      obtain ⟨_, _, _, _, _, _, ibToken, _, w₃, hsend, _, _, rfl⟩ := hwith
      have hentered := (entered_sameFarm hacc).toSameSite
      have hpaid : Vault.SameVault _ w₃ :=
        Vault.smartSafeTransfer_within Vault.SameVault.trans hext hsend
      have hothers : chain w₃ = _ := Vault.smartSafeTransfer_others hsend
      refine quiet ⟨?_, ?_, hothers.trans hentered.chain⟩
      · exact (congrArg Vault.Storage.fairLaunchPoolId hpaid).trans hentered.pool
      · exact (congrArg Vault.Storage.debtToken hpaid).trans hentered.debtToken
  | requestFunds targetedToken amount =>
      rw [hcall] at h
      simp only [Vault.call, Vault.requestFunds, Vault.inExec, bind_eq_ok, pure_eq_ok] at h
      obtain ⟨_, _, _, _, _, _, _, ⟨w₁, hpull, rfl⟩, rfl⟩ := h
      have hpulled : SameFarm _ w₁ :=
        .of_vault (hext.safeTransferFrom hpull) (Vault.safeTransferFrom_others hpull)
      exact quiet ⟨hpulled.pool, hpulled.debtToken, hpulled.chain⟩
  | injectSerialCode serialCode =>
      rw [hcall] at h
      simp only [Vault.call, Vault.injectSerialCode, Vault.inExec, bind_eq_ok, Except.ok.injEq,
        pure_eq_ok] at h
      obtain ⟨_, _, _, _, _, _, _, rfl, rfl⟩ := h
      exact quiet ⟨rfl, rfl, rfl⟩
  | updateConfig config =>
      rw [hcall] at h
      simp only [Vault.call, Vault.updateConfig, bind_eq_ok, pure_eq_ok] at h
      obtain ⟨_, _, rfl⟩ := h
      exact quiet ⟨rfl, rfl, rfl⟩
  -- the two setters of the pool are allowed only before it is set
  | updateDebtToken debtToken newPid =>
      rw [hcall] at h
      simp only [Vault.call, Vault.updateDebtToken, bind_eq_ok] at h
      obtain ⟨_, _, _, _, w₁, hholders, happrove⟩ := h
      simp only [Settled, hcall] at hset
      have hallowed : Aside self (chain w) (chain w₁) :=
        setOkHolders_aside (Vault.onOthers_others hholders)
      have happroved : Aside self (chain w₁) (chain w') :=
        approve_aside (Vault.onOthers_others happrove)
      exact ⟨hallowed.trans happroved, .inl hset⟩
  | setFairLaunchPoolId poolId =>
      rw [hcall] at h
      simp only [Vault.call, Vault.setFairLaunchPoolId, bind_eq_ok, pure_eq_ok] at h
      obtain ⟨_, _, w₁, happrove, rfl⟩ := h
      simp only [Settled, hcall] at hset
      have happroved : Aside self (chain w) (chain w₁) :=
        approve_aside (Vault.onOthers_others happrove)
      exact ⟨happroved, .inl hset⟩
  | withdrawReserve recipient value =>
      rw [hcall] at h
      simp only [Vault.call, Vault.withdrawReserve, bind_eq_ok] at h
      obtain ⟨_, _, hbody⟩ := h
      obtain ⟨_, w₁, hsend, rfl⟩ := Vault.nonReentrant_eq_ok hbody
      simp only [bind_eq_ok] at hsend
      obtain ⟨_, _, hsend⟩ := hsend
      have hsent : SameFarm _ w₁ :=
        .of_vault (hext.safeTransfer hsend) (Vault.sendToken_others hsend)
      exact quiet ⟨hsent.pool, hsent.debtToken, hsent.chain⟩
  | reduceReserve value =>
      rw [hcall] at h
      simp only [Vault.call, Vault.reduceReserve, bind_eq_ok, pure_eq_ok] at h
      obtain ⟨_, _, _, _, rfl⟩ := h
      exact quiet ⟨rfl, rfl, rfl⟩
  | transfer recipient amount | transferFrom sender recipient amount
  | approve spender amount =>
      rw [hcall] at h
      simp only [Vault.call, Vault.ibTokenOp, bind_eq_ok, pure_eq_ok] at h
      obtain ⟨_, _, rfl⟩ := h
      exact quiet ⟨rfl, rfl, rfl⟩
  | transferOwnership newOwner =>
      rw [hcall] at h
      simp only [Vault.call, Vault.transferOwnership, bind_eq_ok, pure_eq_ok] at h
      obtain ⟨_, _, _, _, rfl⟩ := h
      exact quiet ⟨rfl, rfl, rfl⟩
  | renounceOwnership =>
      rw [hcall] at h
      simp only [Vault.call, Vault.renounceOwnership, bind_eq_ok, pure_eq_ok] at h
      obtain ⟨_, _, rfl⟩ := h
      exact quiet ⟨rfl, rfl, rfl⟩

end Calls

end Huski.Farm
