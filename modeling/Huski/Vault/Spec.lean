import Huski.Vault.Model

/-!
# What a successful call of the vault did

One inversion lemma for each function of `Huski.Vault.Model`: the worlds it went
through and the equations between them. The proofs about the vault start from
these and unfold no entry point.
-/

namespace Huski.Vault

open Solidity

variable {F : Type} {ext : Externals F} {msg : Msg} {w w' : World F}

@[simp] theorem setVault_vault (w : World F) (v : Storage) : (w.setVault v).vault = v := rfl
@[simp] theorem setVault_rest (w : World F) (v : Storage) : (w.setVault v).rest = w.rest := rfl
@[simp] theorem setVault_pulls (w : World F) (v : Storage) :
    (w.setVault v).pulls = w.pulls := rfl
@[simp] theorem setVault_execution (w : World F) (v : Storage) :
    (w.setVault v).execution = w.execution := rfl
@[simp] theorem setVault_self (w : World F) : w.setVault w.vault = w := rfl
@[simp] theorem setVault_setVault (w : World F) (v v' : Storage) :
    (w.setVault v).setVault v' = w.setVault v' := rfl

/-! ## External calls -/

/-- Every call the vault makes relates the world before to the world after. -/
structure Externals.Within (ext : Externals F) (R : World F → World F → Prop) : Prop where
  safeTransferFrom : ∀ {t a b n w w'}, ext.safeTransferFrom t a b n w = .ok w' → R w w'
  safeTransfer : ∀ {t a n w w'}, ext.safeTransfer t a n w = .ok w' → R w w'
  safeApprove : ∀ {t a n w w'}, ext.safeApprove t a n w = .ok w' → R w w'
  safeTransferETH : ∀ {a n w w'}, ext.safeTransferETH a n w = .ok w' → R w w'
  wethDeposit : ∀ {n w w'}, ext.wethDeposit n w = .ok w' → R w w'
  relayerWithdraw : ∀ {n w w'}, ext.relayerWithdraw n w = .ok w' → R w w'
  debtTokenMint : ∀ {t a n w w'}, ext.debtTokenMint t a n w = .ok w' → R w w'
  debtTokenBurn : ∀ {t a n w w'}, ext.debtTokenBurn t a n w = .ok w' → R w w'
  debtTokenSetOkHolders : ∀ {t l b w w'},
    ext.debtTokenSetOkHolders t l b w = .ok w' → R w w'
  fairLaunchDeposit : ∀ {a p n w w'}, ext.fairLaunchDeposit a p n w = .ok w' → R w w'
  fairLaunchWithdraw : ∀ {a p n w w'}, ext.fairLaunchWithdraw a p n w = .ok w' → R w w'
  workerWork : ∀ {a i u n d w w'}, ext.workerWork a i u n d w = .ok w' → R w w'
  workerLiquidate : ∀ {a i w w'}, ext.workerLiquidate a i w = .ok w' → R w w'

section Preorder

variable {R : World F → World F → Prop}

/-- Whatever the externals keep, bringing tokens in keeps. -/
theorem transferTokenToVault_within (hext : ext.Within R) {value : Nat}
    (h : transferTokenToVault ext msg value w = .ok w') : R w w' := by
  unfold transferTokenToVault at h
  split at h
  · simp only [bind_eq_ok] at h
    obtain ⟨_, _, _, _, h⟩ := h
    exact hext.wethDeposit h
  · exact hext.safeTransferFrom h

variable (hrefl : ∀ w, R w w) (htrans : ∀ {a b c}, R a b → R b c → R a c)
include htrans

theorem smartSafeTransfer_within (hext : ext.Within R) {recipient : Address} {amount : Nat}
    (h : _smartSafeTransfer ext recipient amount w = .ok w') : R w w' := by
  unfold _smartSafeTransfer at h
  split at h
  · simp only [bind_eq_ok] at h
    obtain ⟨w₁, h₁, w₂, h₂, h₃⟩ := h
    exact htrans (hext.safeTransfer h₁)
      (htrans (hext.relayerWithdraw h₂) (hext.safeTransferETH h₃))
  · exact hext.safeTransfer h

include hrefl in
theorem sendPositive_within (hext : ext.Within R) {recipient : Address} {amount : Nat}
    (h : sendPositive ext recipient amount w = .ok w') : R w w' := by
  unfold sendPositive at h
  split at h
  · exact smartSafeTransfer_within htrans hext h
  · cases h
    exact hrefl w

theorem performWork_within (hext : ext.Within R) {id : PositionId} {worker : Address}
    {principalAmount loan debt back : Nat} {data : WorkData}
    (h : performWork ext msg id worker principalAmount loan debt data w = .ok (back, w')) :
    R w w' := by
  simp only [performWork, bind_eq_ok, pure_eq_ok, Prod.mk.injEq] at h
  obtain ⟨_, _, _, _, _, _, _, _, w₁, h₁, w₂, h₂, _, _, _, _, _, rfl⟩ := h
  exact htrans (hext.safeTransfer h₁) (hext.workerWork h₂)

include hrefl

theorem fairLaunchDeposit_within (hext : ext.Within R) {id : PositionId} {amount : Nat}
    (h : _fairLaunchDeposit ext id amount w = .ok w') : R w w' := by
  unfold _fairLaunchDeposit at h
  split at h
  · simp only [bind_eq_ok] at h
    obtain ⟨w₁, h₁, h₂⟩ := h
    exact htrans (hext.debtTokenMint h₁) (hext.fairLaunchDeposit h₂)
  · cases h
    exact hrefl w

theorem fairLaunchWithdraw_within (hext : ext.Within R) {id : PositionId}
    (h : _fairLaunchWithdraw ext id w = .ok w') : R w w' := by
  simp only [_fairLaunchWithdraw] at h
  split at h
  · split at h
    · rename_i w₁ h₁
      exact htrans (hext.fairLaunchWithdraw h₁) (hext.debtTokenBurn h)
    · cases h
      exact hrefl w
  · cases h
    exact hrefl w

/-- So does returning what is left over the debt. -/
theorem returnExcess_within (hext : ext.Within R) {back lessDebt : Nat}
    (h : returnExcess ext msg back lessDebt w = .ok w') : R w w' := by
  unfold returnExcess at h
  split at h
  · simp only [bind_eq_ok] at h
    obtain ⟨_, _, _, _, _, _, _, _, _, _, hpay⟩ := h
    exact smartSafeTransfer_within htrans hext hpay
  · cases h
    exact hrefl w

end Preorder

/-! ## Modifiers -/

/-- A guarded body runs with the lock taken, and gives it back. -/
theorem nonReentrant_eq_ok {body : Ext F} (h : nonReentrant body w = .ok w') :
    w.vault.notEntered = true ∧
    ∃ w₁, body (w.setVault (w.vault.setNotEntered false)) = .ok w₁ ∧
      w' = w₁.setVault (w₁.vault.setNotEntered true) := by
  simp only [nonReentrant, bind_eq_ok, require_eq_ok, pure_eq_ok] at h
  obtain ⟨_, hfree, w₁, hbody, rfl⟩ := h
  exact ⟨hfree, w₁, hbody, rfl⟩

/-- The interest and the reserve share an accrual adds. -/
structure Accrual (ext : Externals F) (w w' : World F) (interest toReserve now : Nat) :
    Prop where
  world : w' = w.setVault { w.vault with
    reservePool := w.vault.reservePool + toReserve
    vaultDebtVal := w.vault.vaultDebtVal + interest
    lastAccrueTime := now }
  share : toReserve = interest * (ext.config w).getReservePoolBps / 10000
  noDebt : w.vault.vaultDebtVal = 0 → interest = 0

/-- An accrual adds some interest and the reserve's part of it. -/
theorem accrue_eq_ok {value : Nat} (h : accrue ext msg value w = .ok w') :
    ∃ interest toReserve now, Accrual ext w w' interest toReserve now := by
  unfold accrue at h
  split at h
  · rename_i hlate
    simp only [pendingInterest, hlate, if_true, bind_eq_ok, SafeMath.mul_eq_ok,
      SafeMath.div_eq_ok, SafeMath.add_eq_ok, pure_eq_ok] at h
    obtain ⟨interest, ⟨past, _, _, _, _, _, rate, _, _, ⟨_, rfl⟩, _, ⟨_, rfl⟩, _, hi⟩,
      _, ⟨_, rfl⟩, toReserve, ⟨_, hr⟩, _, ⟨_, rfl⟩, _, ⟨_, rfl⟩, rfl⟩ := h
    refine ⟨interest, toReserve, msg.now, rfl, hr, fun h0 => ?_⟩
    simp [hi, h0]
  · cases h
    exact ⟨0, 0, w.vault.lastAccrueTime, rfl, by simp, fun _ => rfl⟩

/-! ## Debt -/

/-- The position's shares and the vault's grow by the same number. -/
theorem addDebt_eq_ok {id : PositionId} {debtVal : Nat} {v v' : Storage}
    (h : _addDebt id debtVal v = .ok v') :
    ∃ debtShare, debtValToShare v debtVal = .ok debtShare ∧
      v' = { v.setDebtShare id ((v.positions id).debtShare + debtShare) with
        vaultDebtShare := v.vaultDebtShare + debtShare
        vaultDebtVal := v.vaultDebtVal + debtVal } := by
  simp only [_addDebt, bind_eq_ok, SafeMath.add_eq_ok, pure_eq_ok] at h
  obtain ⟨debtShare, hshare, _, ⟨_, rfl⟩, _, ⟨_, rfl⟩, _, ⟨_, rfl⟩, rfl⟩ := h
  exact ⟨debtShare, hshare, rfl⟩

/-- A position without shares is left; any other one is cleared. -/
theorem removeDebt_eq_ok {id : PositionId} {cleared : Nat} {v v' : Storage}
    (h : _removeDebt id v = .ok (cleared, v')) :
    ((v.positions id).debtShare = 0 ∧ cleared = 0 ∧ v' = v) ∨
    (0 < (v.positions id).debtShare ∧
      debtShareToVal v (v.positions id).debtShare = .ok cleared ∧
      (v.positions id).debtShare ≤ v.vaultDebtShare ∧ cleared ≤ v.vaultDebtVal ∧
      v' = { v.setDebtShare id 0 with
        vaultDebtShare := v.vaultDebtShare - (v.positions id).debtShare
        vaultDebtVal := v.vaultDebtVal - cleared }) := by
  simp only [_removeDebt] at h
  split at h
  · rename_i hpos
    simp only [bind_eq_ok, SafeMath.sub_eq_ok, pure_eq_ok, Prod.mk.injEq] at h
    obtain ⟨debtVal, hval, _, ⟨hs, rfl⟩, _, ⟨hv, rfl⟩, rfl, rfl⟩ := h
    exact .inr ⟨hpos, hval, hs, hv, rfl⟩
  · rename_i hzero
    cases h
    exact .inl ⟨by omega, rfl, rfl⟩

/-! ## Entry points -/

/-- The sender signed the transaction. -/
theorem onlyEOA_eq_ok {u : Unit} (h : onlyEOA msg = .ok u) : msg.sender = msg.origin :=
  require_eq_ok.mp h

/-- A deposit brings tokens in, accrues and runs its body under the guard. -/
theorem deposit_eq_ok {amountToken : Nat} (h : deposit ext msg amountToken w = .ok w') :
    ∃ w₁ w₂, transferTokenToVault ext msg amountToken w = .ok w₁ ∧
      accrue ext msg amountToken w₁ = .ok w₂ ∧
      nonReentrant (_deposit ext msg amountToken) w₂ = .ok w' := by
  simpa only [deposit, bind_eq_ok, exists_and_left] using h

/-- A withdrawal accrues and runs its body under the guard. -/
theorem withdraw_eq_ok {share : Nat} (h : withdraw ext msg share w = .ok w') :
    ∃ w₁, accrue ext msg 0 w = .ok w₁ ∧
      nonReentrant (_withdraw ext msg share) w₁ = .ok w' := by
  simpa only [withdraw, bind_eq_ok] using h

/-- A kill is by an account; it accrues and runs its body under the guard. -/
theorem kill_eq_ok {id : PositionId} (h : kill ext msg id w = .ok w') :
    msg.sender = msg.origin ∧ ∃ w₁, accrue ext msg 0 w = .ok w₁ ∧
      nonReentrant (_kill ext msg id) w₁ = .ok w' := by
  simp only [kill, bind_eq_ok] at h
  obtain ⟨_, heoa, w₁, hacc, hbody⟩ := h
  exact ⟨onlyEOA_eq_ok heoa, w₁, hacc, hbody⟩

/-- A work is by an account; it brings tokens in, accrues and runs its body under the guard. -/
theorem work_eq_ok {id : PositionId} {worker : Address} {principalAmount loan maxReturn : Nat}
    {data : WorkData}
    (h : work ext msg id worker principalAmount loan maxReturn data w = .ok w') :
    msg.sender = msg.origin ∧ ∃ w₁ w₂,
      transferTokenToVault ext msg principalAmount w = .ok w₁ ∧
      accrue ext msg principalAmount w₁ = .ok w₂ ∧
      nonReentrant (_work ext msg id worker principalAmount loan maxReturn data) w₂ =
        .ok w' := by
  simp only [work, bind_eq_ok] at h
  obtain ⟨_, heoa, w₁, hpull, w₂, hacc, hbody⟩ := h
  exact ⟨onlyEOA_eq_ok heoa, w₁, w₂, hpull, hacc, hbody⟩

/-- `w₁` is where `_work` starts: the principal is in, the interest is accrued, the lock is
taken. -/
def WorkEntered (ext : Externals F) (msg : Msg) (principalAmount : Nat) (w w₁ : World F) : Prop :=
  ∃ pulled settled, transferTokenToVault ext msg principalAmount w = .ok pulled ∧
    accrue ext msg principalAmount pulled = .ok settled ∧
    w₁ = settled.setVault (settled.vault.setNotEntered false)

/-- `w₁` is where `_kill` starts. -/
def KillEntered (ext : Externals F) (msg : Msg) (w w₁ : World F) : Prop :=
  ∃ settled, accrue ext msg 0 w = .ok settled ∧
    w₁ = settled.setVault (settled.vault.setNotEntered false)

/-- The worlds `_work` goes through. -/
structure WorkRun (ext : Externals F) (msg : Msg) (id : PositionId) (worker : Address)
    (principalAmount loan maxReturn : Nat) (data : WorkData) (w w' : World F) where
  id' : PositionId
  selected : World F
  cleared : Nat
  debtless : Storage
  debt : Nat
  back : Nat
  worked : World F
  owing : World F
  returned : World F
  select : selectPosition ext msg id worker w = .ok (id', selected)
  clear : _removeDebt id' (enterScope msg id' data.strategy selected).vault =
    .ok (cleared, debtless)
  debt_eq : debt = cleared + loan
  perform : performWork ext msg id' worker principalAmount loan debt data
    ((enterScope msg id' data.strategy selected).setVault debtless) = .ok (back, worked)
  update : updateDebt ext id' worker (debt - min debt (min back maxReturn)) worked = .ok owing
  give : returnExcess ext msg back (min debt (min back maxReturn)) owing = .ok returned
  exit : w' = exitScope returned

/-- The steps of a work that goes through. -/
theorem work_run {id : PositionId} {worker : Address} {principalAmount loan maxReturn : Nat}
    {data : WorkData}
    (h : _work ext msg id worker principalAmount loan maxReturn data w = .ok w') :
    Nonempty (WorkRun ext msg id worker principalAmount loan maxReturn data w w') := by
  simp only [_work, bind_eq_ok, SafeMath.add_eq_ok, SafeMath.sub_eq_ok, pure_eq_ok] at h
  obtain ⟨_, _, ⟨id', selected⟩, hselect, _, _, _, _, ⟨cleared, debtless⟩, hclear,
    debt, ⟨_, hdebt⟩, ⟨back, worked⟩, hperform, _, ⟨_, rfl⟩, owing, hupdate,
    returned, hgive, rfl⟩ := h
  exact ⟨⟨id', selected, cleared, debtless, debt, back, worked, owing, returned,
    hselect, hclear, hdebt, hperform, hupdate, hgive, rfl⟩⟩

/-- The worlds `_kill` goes through. -/
structure KillRun (ext : Externals F) (msg : Msg) (id : PositionId) (w w' : World F) where
  withdrawn : World F
  debt : Nat
  debtless : Storage
  health : Nat
  killFactor : Nat
  before : Nat
  liquidated : World F
  after : Nat
  paid : World F
  hasDebt : 0 < (w.vault.positions id).debtShare
  unstake : _fairLaunchWithdraw ext id w = .ok withdrawn
  clear : _removeDebt id withdrawn.vault = .ok (debt, debtless)
  health_eq : ext.workerHealth (debtless.positions id).worker id
    (withdrawn.setVault debtless) = .ok health
  killFactor_eq : (ext.config (withdrawn.setVault debtless)).killFactor
    (debtless.positions id).worker debt = .ok killFactor
  unhealthy : health * killFactor < debt * 10000
  before_eq : ext.myBalance (withdrawn.setVault debtless) = .ok before
  liquidate : ext.workerLiquidate (debtless.positions id).worker id
    (withdrawn.setVault debtless) = .ok liquidated
  after_eq : ext.myBalance liquidated = .ok after
  before_le : before ≤ after
  prize_le : (after - before) * (ext.config liquidated).getKillBps / 10000 ≤ after - before
  pay : sendPositive ext msg.sender
    ((after - before) * (ext.config liquidated).getKillBps / 10000) liquidated = .ok paid
  give : sendPositive ext (paid.vault.positions id).owner
    (after - before - (after - before) * (ext.config liquidated).getKillBps / 10000 - debt)
    paid = .ok w'

/-- The steps of a kill that goes through. -/
theorem kill_run {id : PositionId} (h : _kill ext msg id w = .ok w') :
    Nonempty (KillRun ext msg id w w') := by
  simp only [_kill, bind_eq_ok, require_eq_ok, SafeMath.mul_eq_ok, SafeMath.div_eq_ok,
    SafeMath.sub_eq_ok] at h
  obtain ⟨_, _, _, hdebt, withdrawn, hunstake, ⟨debt, debtless⟩, hclear, health, hhealth,
    killFactor, hfactor, _, ⟨_, rfl⟩, _, ⟨_, rfl⟩, _, hunhealthy, before, hbefore,
    liquidated, hliquidate, after, hafter, back, ⟨hle, rfl⟩, _, ⟨_, rfl⟩,
    prize, ⟨_, rfl⟩, rest, ⟨hprize, rfl⟩, paid, hpay, hgive⟩ := h
  have hleft : ∀ rest : Nat, (if rest > debt then rest - debt else 0) = rest - debt := by
    intro rest
    split <;> omega
  rw [hleft] at hgive
  exact ⟨⟨withdrawn, debt, debtless, health, killFactor, before, liquidated, after, paid,
    hdebt, hunstake, hclear, hhealth, hfactor, hunhealthy, hbefore, hliquidate, hafter, hle,
    hprize, hpay, hgive⟩⟩

end Huski.Vault
