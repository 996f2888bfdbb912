import Huski.Vault.DebtLedger
import Huski.Vault.Reentrancy

/-!
# No instant liquidation

`work` checks the exact debt against the work factor and then turns it into shares of totals that
the same step changes; `kill` turns the shares back. Both conversions round down, so the debt that
`kill` sees is at most the one that was checked, and a position that met the work factor is safe
from a kill factor that is no lower. The one fact about reachable states this needs is that an empty
ledger records no debt (`Settled`); it survives every nesting of re-entrant calls, and what
`work` has recorded cannot be written while the vault is locked (`Contained`).
-/

namespace Huski.Vault

open Solidity

variable {F : Type} {ext : Externals F} {msg : Msg} {w w' : World F}

/-! ## What is recorded of the debts -/

/-- What a kill after a work depends on. -/
structure Debts where
  book : SharePool.Book PositionId
  worker : PositionId → Address
  lastAccrueTime : Nat
  next : PositionId

/-- What is stored of it. -/
def debts (v : Storage) : Debts :=
  { book := debtBook v
    worker := fun id => (v.positions id).worker
    lastAccrueTime := v.lastAccrueTime
    next := v.nextPositionId }

/-- An empty ledger records no debt. -/
def Settled (v : Storage) : Prop := v.vaultDebtShare = 0 → v.vaultDebtVal = 0

theorem Settled.congr {v v' : Storage} (hbook : debtBook v' = debtBook v) (h : Settled v) :
    Settled v' := by
  have hval : v'.vaultDebtVal = v.vaultDebtVal := congrArg (fun b => b.pool.value) hbook
  have hshare : v'.vaultDebtShare = v.vaultDebtShare := congrArg (fun b => b.pool.shares) hbook
  intro hz
  rw [hval]
  exact h (hshare ▸ hz)

/-- Issuing a debt leaves the ledger settled. -/
theorem Settled.addDebt {id : PositionId} {debt : Nat} {v v' : Storage} (hset : Settled v)
    (h : _addDebt id debt v = .ok v') : Settled v' := by
  obtain ⟨debtShare, hshare, rfl⟩ := addDebt_eq_ok h
  intro hz
  have hz : v.vaultDebtShare + debtShare = 0 := hz
  have hempty : v.vaultDebtShare = 0 := by omega
  -- in an empty ledger the shares are the debt
  obtain rfl : debt = debtShare := by simpa [debtValToShare, hempty] using hshare
  show v.vaultDebtVal + debt = 0
  rw [hset hempty]
  omega

/-- Clearing a debt leaves the ledger settled. -/
theorem Settled.removeDebt {id : PositionId} {cleared : Nat} {v v' : Storage} (hset : Settled v)
    (h : _removeDebt id v = .ok (cleared, v')) : Settled v' := by
  rcases removeDebt_eq_ok h with ⟨_, _, rfl⟩ | ⟨hpos, hval, hle, _, rfl⟩
  · exact hset
  · intro hz
    have hz : v.vaultDebtShare - (v.positions id).debtShare = 0 := hz
    have hall : (v.positions id).debtShare = v.vaultDebtShare := by omega
    have hne : v.vaultDebtShare ≠ 0 := by omega
    -- the last shares take everything
    have hcleared : cleared = v.vaultDebtVal := by
      rw [debtShareToVal_eq_ok hval]
      simp only [debtBook, SharePool.toValue, hall, if_neg hne]
      exact Nat.mul_div_cancel_left _ (by omega)
    show v.vaultDebtVal - cleared = 0
    omega

theorem removeDebt_clears {id : PositionId} {cleared : Nat} {v v' : Storage}
    (h : _removeDebt id v = .ok (cleared, v')) : (v'.positions id).debtShare = 0 := by
  rcases removeDebt_eq_ok h with ⟨hz, _, rfl⟩ | ⟨_, _, _, _, rfl⟩
  · exact hz
  · simp [Storage.setDebtShare, Storage.setPosition]

/-- A position that owed nothing owes the shares of its new debt. -/
theorem addDebt_share {id : PositionId} {debt : Nat} {v v' : Storage}
    (hnone : (v.positions id).debtShare = 0) (h : _addDebt id debt v = .ok v') :
    (v'.positions id).debtShare = (debtBook v).pool.toShares debt := by
  obtain ⟨debtShare, hshare, rfl⟩ := addDebt_eq_ok h
  simp [Storage.setDebtShare, Storage.setPosition, hnone, debtValToShare_eq_ok hshare]

/-! ## What a call leaves alone -/

/-- An empty ledger stays without debt, and a locked vault keeps what it recorded. -/
structure Contained (w w' : World F) : Prop where
  settled : Settled w.vault → Settled w'.vault
  locked : w.vault.notEntered = false →
    w'.vault.notEntered = false ∧ debts w'.vault = debts w.vault

theorem Contained.refl (w : World F) : Contained w w := ⟨id, fun hlock => ⟨hlock, rfl⟩⟩

theorem Contained.trans {a b c : World F} (hab : Contained a b) (hbc : Contained b c) :
    Contained a c := by
  refine ⟨fun h => hbc.settled (hab.settled h), fun hlock => ?_⟩
  obtain ⟨hlocked, hsame⟩ := hab.locked hlock
  obtain ⟨hlocked', hsame'⟩ := hbc.locked hlocked
  exact ⟨hlocked', hsame'.trans hsame⟩

/-- Writing what is not recorded of a debt. -/
theorem Contained.of_debts {v : Storage} (hlock : v.notEntered = w.vault.notEntered)
    (h : debts v = debts w.vault) : Contained w (w.setVault v) :=
  ⟨.congr (congrArg Debts.book h), fun hlocked => ⟨hlock.trans hlocked, h⟩⟩

theorem Contained.of_outside (h : Outside w w') : Contained w w' := by
  obtain ⟨hv, _, _⟩ := h
  exact ⟨fun hset => hv ▸ hset, fun hlock => ⟨hv ▸ hlock, congrArg debts hv⟩⟩

/-- A call that takes the lock succeeds on a free vault only. -/
theorem Contained.of_free (hfree : w.vault.notEntered = true)
    (hset : Settled w.vault → Settled w'.vault) : Contained w w' :=
  ⟨hset, fun hlock => absurd (hfree.symm.trans hlock) (by decide)⟩

/-- Other fields of a position are no part of the debts. -/
theorem debts_setPosition {v : Storage} {id : PositionId} {pos : Position}
    (hworker : pos.worker = (v.positions id).worker)
    (hshare : pos.debtShare = (v.positions id).debtShare) :
    debts (v.setPosition id pos) = debts v := by
  simp only [debts, debtBook, Storage.setPosition]
  congr 2 <;> funext i <;> by_cases hi : i = id <;> simp [hi, hworker, hshare]

/-! ## Entry points -/

theorem accrue_settled {value : Nat} (h : accrue ext msg value w = .ok w')
    (hset : Settled w.vault) : Settled w'.vault := by
  obtain ⟨interest, _, _, hacc⟩ := accrue_eq_ok h
  rw [hacc.world]
  intro hz
  have hnone : w.vault.vaultDebtVal = 0 := hset hz
  show w.vault.vaultDebtVal + interest = 0
  rw [hacc.noDebt hnone, hnone]

theorem accrue_notEntered {value : Nat} (h : accrue ext msg value w = .ok w') :
    w'.vault.notEntered = w.vault.notEntered := by
  obtain ⟨_, _, _, hacc⟩ := accrue_eq_ok h
  rw [hacc.world]
  rfl

/-- What is called before the lock is taken, then an accrual, then a body under the lock. -/
theorem Contained.of_entry {value : Nat} {body : Ext F} {w₁ w₂ : World F}
    (hpull : Contained w w₁) (hacc : accrue ext msg value w₁ = .ok w₂)
    (h : nonReentrant body w₂ = .ok w')
    (hbody : ∀ a b, a.vault.notEntered = false → Settled a.vault → body a = .ok b →
      Settled b.vault) : Contained w w' := by
  obtain ⟨hfree, w₃, hrun, rfl⟩ := nonReentrant_eq_ok h
  constructor
  · intro hset
    have hlocked : Settled (w₂.vault.setNotEntered false) :=
      accrue_settled hacc (hpull.settled hset)
    exact hbody (w₂.setVault (w₂.vault.setNotEntered false)) w₃ rfl hlocked hrun
  · intro hlock
    rw [accrue_notEntered hacc, (hpull.locked hlock).1] at hfree
    cases hfree

/-- A call within the scope is contained when its body is. -/
theorem inExec_contained {body : Ext F} (h : inExec msg body w = .ok w')
    (hbody : ∀ a b, body a = .ok b → Contained a b) : Contained w w' := by
  obtain ⟨_, _, _, w₁, hrun, rfl⟩ := inExec_eq_ok h
  have hopen : Contained w (w.setVault (w.vault.setInExecLock .entered)) := .of_debts rfl rfl
  have hclose : Contained w₁ (w₁.setVault (w₁.vault.setInExecLock .notEntered)) :=
    .of_debts rfl rfl
  exact hopen.trans ((hbody _ _ hrun).trans hclose)

section Entry

variable (hext : ext.Within Contained)
include hext

/-- The position `work` is about, under the lock. -/
structure Selected (id id' : PositionId) (worker : Address) (w w' : World F) : Prop where
  settled : Settled w.vault → Settled w'.vault
  notEntered : w'.vault.notEntered = false
  worker_eq : (w'.vault.positions id').worker = worker
  lastAccrueTime : w'.vault.lastAccrueTime = w.vault.lastAccrueTime
  next : id = 0 → id' + 1 = w'.vault.nextPositionId
  given : id ≠ 0 → id' = id

theorem selectPosition_selected {id id' : PositionId} {worker : Address}
    (hlocked : w.vault.notEntered = false)
    (h : selectPosition ext msg id worker w = .ok (id', w')) : Selected id id' worker w w' := by
  unfold selectPosition at h
  split at h
  · rename_i hnew
    cases h
    exact ⟨fun hset => hset, hlocked, by simp [newPosition], rfl, fun _ => rfl,
      fun hne => absurd hnew hne⟩
  · rename_i hgiven
    simp only [bind_eq_ok, require_eq_ok, pure_eq_ok, Prod.mk.injEq] at h
    obtain ⟨_, _, _, hworker, _, _, w₁, hstake, rfl, rfl⟩ := h
    have hcontained : Contained w w₁ :=
      fairLaunchWithdraw_within Contained.refl Contained.trans hext hstake
    obtain ⟨hlocked, hsame⟩ := hcontained.locked hlocked
    exact ⟨hcontained.settled, hlocked, (congrFun (congrArg Debts.worker hsame) id).trans hworker,
      congrArg Debts.lastAccrueTime hsame, fun hnew => absurd hnew hgiven, fun _ => rfl⟩

/-- The debt that is left leaves the ledger settled. -/
theorem updateDebt_settled {id : PositionId} {worker : Address} {debt : Nat}
    (h : updateDebt ext id worker debt w = .ok w') (hset : Settled w.vault) :
    Settled w'.vault := by
  unfold updateDebt at h
  split at h
  · simp only [bind_eq_ok] at h
    obtain ⟨_, _, _, _, _, _, _, _, _, _, _, _, v, hadd, hstake⟩ := h
    have hcontained : Contained (w.setVault v) w' :=
      fairLaunchDeposit_within Contained.refl Contained.trans hext hstake
    exact hcontained.settled (hset.addDebt hadd)
  · cases h
    exact hset

/-- A work leaves the ledger settled. -/
theorem work_settled {id : PositionId} {worker : Address} {principalAmount loan maxReturn : Nat}
    {data : WorkData} (hlocked : w.vault.notEntered = false)
    (h : _work ext msg id worker principalAmount loan maxReturn data w = .ok w')
    (hset : Settled w.vault) : Settled w'.vault := by
  obtain ⟨r⟩ := work_run h
  have hopen : Settled (enterScope msg r.id' data.strategy r.selected).vault :=
    (selectPosition_selected hext hlocked r.select).settled hset
  have hclear : Settled r.debtless := hopen.removeDebt r.clear
  have hperform : Contained _ r.worked := performWork_within Contained.trans hext r.perform
  have hupdate : Settled r.owing.vault :=
    updateDebt_settled hext r.update (hperform.settled hclear)
  have hgive : Contained r.owing r.returned :=
    returnExcess_within Contained.refl Contained.trans hext r.give
  rw [r.exit]
  exact hgive.settled hupdate

/-- A kill leaves the ledger settled. -/
theorem kill_settled {id : PositionId} (h : _kill ext msg id w = .ok w')
    (hset : Settled w.vault) : Settled w'.vault := by
  obtain ⟨r⟩ := kill_run h
  have hunstake : Contained w r.withdrawn :=
    fairLaunchWithdraw_within Contained.refl Contained.trans hext r.unstake
  have hclear : Settled r.debtless := (hunstake.settled hset).removeDebt r.clear
  have hliquidate : Contained _ r.liquidated := hext.workerLiquidate r.liquidate
  have hpay : Contained r.liquidated r.paid :=
    sendPositive_within Contained.refl Contained.trans hext r.pay
  have hgive : Contained r.paid w' :=
    sendPositive_within Contained.refl Contained.trans hext r.give
  exact hgive.settled (hpay.settled (hliquidate.settled hclear))

/-- A call of the vault contains the debts, provided that what it calls does. -/
theorem call_contained {c : Call} (h : call ext msg c w = .ok w') : Contained w w' := by
  cases c with
  | deposit amountToken =>
      obtain ⟨w₁, w₂, hpull, hacc, hbody⟩ := deposit_eq_ok h
      refine .of_entry (transferTokenToVault_within hext hpull) hacc hbody
        fun a b _ hset hdep => ?_
      simp only [_deposit, bind_eq_ok, pure_eq_ok] at hdep
      obtain ⟨_, _, _, _, _, _, ibToken, _, _, _, rfl⟩ := hdep
      exact hset
  | withdraw share =>
      obtain ⟨w₁, hacc, hbody⟩ := withdraw_eq_ok h
      refine .of_entry (.refl w) hacc hbody fun a b _ hset hwith => ?_
      simp only [_withdraw, bind_eq_ok, pure_eq_ok] at hwith
      obtain ⟨_, _, _, _, _, _, ibToken, _, w₃, hsend, _, _, rfl⟩ := hwith
      have hsend : Contained _ w₃ := smartSafeTransfer_within Contained.trans hext hsend
      exact hsend.settled hset
  | requestFunds targetedToken amount =>
      have h : requestFunds ext msg targetedToken amount w = .ok w' := h
      refine inExec_contained h fun a b hbody => ?_
      simp only [bind_eq_ok, pure_eq_ok] at hbody
      obtain ⟨w₁, hpull, rfl⟩ := hbody
      have hpull : Contained a w₁ := hext.safeTransferFrom hpull
      exact ⟨hpull.settled, hpull.locked⟩
  | injectSerialCode serialCode =>
      have h : injectSerialCode msg serialCode w = .ok w' := h
      refine inExec_contained h fun a b hbody => ?_
      cases hbody
      exact .of_debts rfl (debts_setPosition rfl rfl)
  | work id worker principalAmount loan maxReturn data =>
      obtain ⟨_, w₁, w₂, hpull, hacc, hbody⟩ := work_eq_ok h
      exact .of_entry (transferTokenToVault_within hext hpull) hacc hbody
        fun a b hlocked hset hwork => work_settled hext hlocked hwork hset
  | kill id =>
      obtain ⟨_, w₁, hacc, hbody⟩ := kill_eq_ok h
      exact .of_entry (.refl w) hacc hbody fun a b _ hset hkill => kill_settled hext hkill hset
  | updateConfig config =>
      simp only [call, updateConfig, bind_eq_ok, pure_eq_ok] at h
      obtain ⟨_, _, rfl⟩ := h
      exact .of_debts rfl rfl
  | updateDebtToken debtToken newPid =>
      simp only [call, updateDebtToken, bind_eq_ok] at h
      obtain ⟨_, _, _, _, w₁, hholders, happrove⟩ := h
      have hholders : Contained w w₁ := hext.debtTokenSetOkHolders hholders
      have hset : Contained w₁ (w₁.setVault (w₁.vault.setDebtToken debtToken newPid)) :=
        .of_debts rfl rfl
      exact hholders.trans (hset.trans (hext.safeApprove happrove))
  | setFairLaunchPoolId poolId =>
      simp only [call, setFairLaunchPoolId, bind_eq_ok, pure_eq_ok] at h
      obtain ⟨_, _, w₁, happrove, rfl⟩ := h
      have happrove : Contained w w₁ := hext.safeApprove happrove
      exact happrove.trans (.of_debts rfl rfl)
  -- the guard is free here, so no call is running to be contained
  | withdrawReserve recipient value =>
      simp only [call, withdrawReserve, bind_eq_ok] at h
      obtain ⟨_, _, hbody⟩ := h
      obtain ⟨hfree, w₁, hrun, rfl⟩ := nonReentrant_eq_ok hbody
      simp only [bind_eq_ok] at hrun
      obtain ⟨reservePool, _, hsend⟩ := hrun
      have hsend : Contained _ w₁ := hext.safeTransfer hsend
      exact .of_free hfree hsend.settled
  | reduceReserve value =>
      simp only [call, reduceReserve, bind_eq_ok, pure_eq_ok] at h
      obtain ⟨_, _, _, _, rfl⟩ := h
      exact .of_debts rfl rfl
  | transfer recipient amount | transferFrom sender recipient amount
  | approve spender amount =>
      simp only [call, ibTokenOp, bind_eq_ok, pure_eq_ok] at h
      obtain ⟨_, _, rfl⟩ := h
      exact .of_debts rfl rfl
  | transferOwnership newOwner =>
      simp only [call, transferOwnership, bind_eq_ok, pure_eq_ok] at h
      obtain ⟨_, _, _, _, rfl⟩ := h
      exact .of_debts rfl rfl
  | renounceOwnership =>
      simp only [call, renounceOwnership, bind_eq_ok, pure_eq_ok] at h
      obtain ⟨_, _, rfl⟩ := h
      exact .of_debts rfl rfl

end Entry

/-! ## Every nesting, every run -/

theorem Contained.of_closure {R : World F → World F → Prop}
    (hR : ∀ w w', R w w' → Contained w w') (h : Relation.ReflTransGen R w w') :
    Contained w w' := by
  induction h with
  | refl => exact .refl w
  | tail _ hstep ih => exact ih.trans (hR _ _ hstep)

/-- Whatever calls back into a locked vault changes no debt. -/
theorem reenter_contained {origin : Address} (n : Nat) (w w' : World F)
    (h : Reenter origin n w w') : Contained w w' := by
  induction n generalizing w w' with
  | zero => exact .of_outside h
  | succ n ih =>
      rcases h with hout | ⟨ext, msg, c, _, hext, hcall⟩
      · exact .of_outside hout
      · have hcontained : ext.Within Contained := hext.mono fun _ _ h => .of_closure ih h
        exact call_contained hcontained hcall

theorem Externals.Within.contained {origin : Address} {n : Nat}
    (hext : ext.Within (Relation.ReflTransGen (Reenter origin n))) : ext.Within Contained :=
  hext.mono fun _ _ h => .of_closure (reenter_contained n) h

theorem Fresh.settled (h : Fresh w) : Settled w.vault := by
  obtain ⟨⟨msg, config, token, debtToken, hv⟩, _, _⟩ := h
  rw [hv]
  exact fun _ => rfl

/-- The ledger is settled after every run. -/
theorem settled_of_run (hfresh : Fresh w) (hrun : Relation.ReflTransGen Transaction w w') :
    Settled w'.vault := by
  induction hrun with
  | refl => exact hfresh.settled
  | tail _ htx ih =>
      obtain ⟨origin, n, hactions⟩ := htx
      exact (Contained.of_closure (reenter_contained n) hactions).settled ih

/-! ## The check and the record -/

theorem accrue_upToDate {value : Nat} (h : accrue ext msg value w = .ok w') :
    msg.now ≤ w'.vault.lastAccrueTime := by
  unfold accrue at h
  split at h
  · simp only [bind_eq_ok, pure_eq_ok] at h
    obtain ⟨_, _, _, _, _, _, _, _, _, _, rfl⟩ := h
    exact Nat.le_refl _
  · cases h
    omega

theorem accrue_again (hdone : msg.now ≤ w.vault.lastAccrueTime) (value : Nat) :
    accrue ext msg value w = .ok w := by
  unfold accrue
  rw [if_neg (by omega)]

/-- The debt `work` leaves the position with. -/
def WorkRun.left {id : PositionId} {worker : Address} {principalAmount loan maxReturn : Nat}
    {data : WorkData}
    (r : WorkRun ext msg id worker principalAmount loan maxReturn data w w') : Nat :=
  r.debt - min r.debt (min r.back maxReturn)

/-- `work` checked `debt` against the work factor in `checked` and recorded it in `v`. -/
structure Borrowed (ext : Externals F) (worker : Address) (id : PositionId) (debt : Nat)
    (checked : World F) (health factor : Nat) (v : Storage) : Prop where
  health_eq : ext.workerHealth worker id checked = .ok health
  factor_eq : (ext.config checked).workFactor worker debt = .ok factor
  enough : debt * 10000 ≤ health * factor
  added : _addDebt id debt checked.vault = .ok v

theorem updateDebt_eq_ok {id : PositionId} {worker : Address} {debt : Nat}
    (h : updateDebt ext id worker debt w = .ok w') :
    (debt = 0 ∧ w' = w) ∨
    (0 < debt ∧ ∃ health factor v, Borrowed ext worker id debt w health factor v ∧
      _fairLaunchDeposit ext id (v.positions id).debtShare (w.setVault v) = .ok w') := by
  unfold updateDebt at h
  split at h
  · rename_i hpos
    simp only [bind_eq_ok, require_eq_ok, SafeMath.mul_eq_ok] at h
    obtain ⟨_, _, health, hhealth, factor, hfactor, _, ⟨_, rfl⟩, _, ⟨_, rfl⟩, _, henough,
      v, hadd, hstake⟩ := h
    exact .inr ⟨hpos, health, factor, v, ⟨hhealth, hfactor, henough, hadd⟩, hstake⟩
  · rename_i hzero
    cases h
    exact .inl ⟨by omega, rfl⟩

/-- The debt recorded for a position without shares, read back: both conversions round down. -/
theorem debtShareToVal_addDebt {id : PositionId} {debt recorded : Nat} {v v' : Storage}
    (hset : Settled v) (hnone : (v.positions id).debtShare = 0) (hpos : 0 < debt)
    (hadd : _addDebt id debt v = .ok v')
    (hval : debtShareToVal v' (v'.positions id).debtShare = .ok recorded) :
    recorded ≤ debt ∧
      (debt - recorded) * v'.vaultDebtShare < v'.vaultDebtVal + v'.vaultDebtShare := by
  have hpool : (debtBook v').pool = (debtBook v).pool.issue debt := by
    rw [addDebt_book hadd]
    rfl
  have hempty : (debtBook v).pool.shares = 0 → (debtBook v).pool.value = 0 := hset
  have hfull : (debtBook v).pool.shares ≠ 0 → 0 < (debtBook v).pool.value := by
    intro hne
    obtain ⟨debtShare, hshare, _⟩ := addDebt_eq_ok hadd
    have hne : v.vaultDebtShare ≠ 0 := hne
    simp only [debtValToShare, if_neg hne, bind_eq_ok, SafeMath.div_eq_ok] at hshare
    obtain ⟨_, _, hdiv, _⟩ := hshare
    exact Nat.pos_of_ne_zero hdiv
  have hrecorded : recorded =
      ((debtBook v).pool.issue debt).toValue ((debtBook v).pool.toShares debt) := by
    rw [debtShareToVal_eq_ok hval, hpool, addDebt_share hnone hadd]
  have hvalue : v'.vaultDebtVal = ((debtBook v).pool.issue debt).value :=
    congrArg SharePool.value hpool
  have hshares : v'.vaultDebtShare = ((debtBook v).pool.issue debt).shares :=
    congrArg SharePool.shares hpool
  rw [hrecorded, hvalue, hshares]
  exact ⟨SharePool.toValue_issue_le hempty debt,
    SharePool.lt_toValue_issue hpos hempty hfull⟩

/-! ## A position that has just been worked -/

/-- Nothing but the debts themselves has changed. -/
structure Steady (v v' : Storage) : Prop where
  notEntered : v'.notEntered = v.notEntered
  worker : ∀ id, (v'.positions id).worker = (v.positions id).worker
  lastAccrueTime : v'.lastAccrueTime = v.lastAccrueTime
  next : v'.nextPositionId = v.nextPositionId

theorem Steady.trans {a b c : Storage} (hab : Steady a b) (hbc : Steady b c) : Steady a c :=
  ⟨hbc.notEntered.trans hab.notEntered, fun id => (hbc.worker id).trans (hab.worker id),
    hbc.lastAccrueTime.trans hab.lastAccrueTime, hbc.next.trans hab.next⟩

/-- Writing a position's shares leaves the workers. -/
theorem setDebtShare_worker (v : Storage) (id : PositionId) (share : Nat) (i : PositionId) :
    ((v.setDebtShare id share).positions i).worker = (v.positions i).worker := by
  by_cases hi : i = id <;> simp [Storage.setDebtShare, Storage.setPosition, hi]

theorem removeDebt_steady {id : PositionId} {cleared : Nat} {v v' : Storage}
    (h : _removeDebt id v = .ok (cleared, v')) : Steady v v' := by
  rcases removeDebt_eq_ok h with ⟨_, _, rfl⟩ | ⟨_, _, _, _, rfl⟩
  · exact ⟨rfl, fun _ => rfl, rfl, rfl⟩
  · exact ⟨rfl, setDebtShare_worker v id 0, rfl, rfl⟩

theorem addDebt_steady {id : PositionId} {debt : Nat} {v v' : Storage}
    (h : _addDebt id debt v = .ok v') : Steady v v' := by
  obtain ⟨_, _, rfl⟩ := addDebt_eq_ok h
  exact ⟨rfl, setDebtShare_worker v id _, rfl, rfl⟩

/-- A contained step of a locked vault is steady. -/
theorem Contained.steady (h : Contained w w') (hlocked : w.vault.notEntered = false) :
    Steady w.vault w'.vault := by
  obtain ⟨hlocked', hsame⟩ := h.locked hlocked
  exact ⟨hlocked'.trans hlocked.symm, congrFun (congrArg Debts.worker hsame),
    congrArg Debts.lastAccrueTime hsame, congrArg Debts.next hsame⟩

/-- Under the lock the debt that was checked is the one that stays recorded. -/
theorem updateDebt_recorded {id : PositionId} {worker : Address} {debt : Nat}
    (hext : ext.Within Contained) (hlocked : w.vault.notEntered = false)
    (h : updateDebt ext id worker debt w = .ok w') :
    Steady w.vault w'.vault ∧
    (0 < debt → ∃ health factor v, Borrowed ext worker id debt w health factor v ∧
      debtBook w'.vault = debtBook v) := by
  rcases updateDebt_eq_ok h with ⟨hzero, rfl⟩ | ⟨hpos, health, factor, v, hborrowed, hstake⟩
  · exact ⟨⟨rfl, fun _ => rfl, rfl, rfl⟩, fun hpos => absurd hzero (Nat.pos_iff_ne_zero.mp hpos)⟩
  · have hadd := addDebt_steady hborrowed.added
    have hcontained : Contained (w.setVault v) w' :=
      fairLaunchDeposit_within Contained.refl Contained.trans hext hstake
    have hlocked' : v.notEntered = false := hadd.notEntered.trans hlocked
    exact ⟨hadd.trans (hcontained.steady hlocked'), fun _ => ⟨health, factor, v, hborrowed,
      congrArg Debts.book (hcontained.locked hlocked').2⟩⟩

/-- A successful `work` under the lock: what it leaves of the position it was about. -/
theorem WorkRun.recorded {id : PositionId} {worker : Address}
    {principalAmount loan maxReturn : Nat} {data : WorkData}
    (r : WorkRun ext msg id worker principalAmount loan maxReturn data w w')
    (hext : ext.Within Contained) (hlocked : w.vault.notEntered = false)
    (hset : Settled w.vault) :
    (id ≠ 0 → r.id' = id) ∧ (id = 0 → r.id' + 1 = w'.vault.nextPositionId) ∧
    (w'.vault.positions r.id').worker = worker ∧
    w'.vault.lastAccrueTime = w.vault.lastAccrueTime ∧
    (0 < r.left → ∃ health factor v,
      Borrowed ext worker r.id' r.left r.worked health factor v ∧ Settled r.worked.vault ∧
      (r.worked.vault.positions r.id').debtShare = 0 ∧ debtBook w'.vault = debtBook v) := by
  have hselect := selectPosition_selected hext hlocked r.select
  have hopen : Settled (enterScope msg r.id' data.strategy r.selected).vault :=
    hselect.settled hset
  -- the shares of the position are gone when the worker runs
  have hclear : Settled r.debtless := hopen.removeDebt r.clear
  have hcleared := removeDebt_steady r.clear
  have hlocked₁ : r.debtless.notEntered = false := hcleared.notEntered.trans hselect.notEntered
  have hperform : Contained _ r.worked := performWork_within Contained.trans hext r.perform
  obtain ⟨hlocked₂, hworked⟩ := hperform.locked hlocked₁
  obtain ⟨hupdate, hleft⟩ := updateDebt_recorded hext hlocked₂ r.update
  have hlocked₃ : r.owing.vault.notEntered = false := hupdate.notEntered.trans hlocked₂
  have hgive : Contained r.owing r.returned :=
    returnExcess_within Contained.refl Contained.trans hext r.give
  have hsteady : Steady (enterScope msg r.id' data.strategy r.selected).vault r.returned.vault :=
    hcleared.trans (((hperform.steady hlocked₁).trans hupdate).trans (hgive.steady hlocked₃))
  -- closing the scope writes none of it
  have hexit : w'.vault = (exitScope r.returned).vault := congrArg World.vault r.exit
  have hsteady : Steady r.selected.vault w'.vault := by
    rw [hexit]
    exact ⟨hsteady.notEntered, hsteady.worker, hsteady.lastAccrueTime, hsteady.next⟩
  refine ⟨hselect.given, fun hnew => ?_, ?_, ?_, fun hpos => ?_⟩
  · exact (hselect.next hnew).trans hsteady.next.symm
  · exact (hsteady.worker r.id').trans hselect.worker_eq
  · exact hsteady.lastAccrueTime.trans hselect.lastAccrueTime
  · obtain ⟨health, factor, v, hborrowed, hbook⟩ := hleft hpos
    have hnone : (r.worked.vault.positions r.id').debtShare = 0 :=
      (congrArg (fun d => d.book.held r.id') hworked).trans (removeDebt_clears r.clear)
    have hbook' : debtBook r.returned.vault = debtBook r.owing.vault :=
      congrArg Debts.book (hgive.locked hlocked₃).2
    have hbook'' : debtBook w'.vault = debtBook (exitScope r.returned).vault :=
      congrArg debtBook hexit
    exact ⟨health, factor, v, hborrowed, hperform.settled hclear, hnone,
      hbook''.trans (hbook'.trans hbook)⟩

/-- A position whose recorded debt is covered cannot be killed before interest accrues. -/
theorem kill_ne_ok {id : PositionId} {debt health factor : Nat} (hext : ext.Within Contained)
    (hdone : msg.now ≤ w.vault.lastAccrueTime)
    (hrecorded : ∀ recorded,
      debtShareToVal w.vault (w.vault.positions id).debtShare = .ok recorded → recorded ≤ debt)
    (henough : debt * 10000 ≤ health * factor)
    (hhealth : ∀ z h, ext.workerHealth (w.vault.positions id).worker id z = .ok h → h = health)
    (hfactor : ∀ z debt k,
      (ext.config z).killFactor (w.vault.positions id).worker debt = .ok k → factor ≤ k) :
    kill ext msg id w ≠ .ok w' := by
  intro h
  obtain ⟨_, w₁, hacc, hbody⟩ := kill_eq_ok h
  rw [accrue_again hdone] at hacc
  cases hacc
  obtain ⟨_, w₂, hrun, _⟩ := nonReentrant_eq_ok hbody
  obtain ⟨k⟩ := kill_run hrun
  -- what FairLaunch does leaves the debts of the locked vault alone
  have hunstake : Contained _ k.withdrawn :=
    fairLaunchWithdraw_within Contained.refl Contained.trans hext k.unstake
  have hsame : debts k.withdrawn.vault = debts w.vault := (hunstake.locked rfl).2
  have hbook : debtBook k.withdrawn.vault = debtBook w.vault := congrArg Debts.book hsame
  have hworker : (k.debtless.positions id).worker = (w.vault.positions id).worker :=
    ((removeDebt_steady k.clear).worker id).trans (congrFun (congrArg Debts.worker hsame) id)
  have hshare : (k.withdrawn.vault.positions id).debtShare = (w.vault.positions id).debtShare :=
    congrArg (fun b => b.held id) hbook
  have hle : k.debt ≤ debt := by
    rcases removeDebt_eq_ok k.clear with ⟨_, hzero, _⟩ | ⟨_, hval, _⟩
    · omega
    · rw [debtShareToVal_congr hbook, hshare] at hval
      exact hrecorded k.debt hval
  have hhealthy : k.health = health := hhealth _ _ (hworker ▸ k.health_eq)
  have hfactors : factor ≤ k.killFactor := hfactor _ _ _ (hworker ▸ k.killFactor_eq)
  refine absurd k.unhealthy (Nat.not_lt.mpr ?_)
  calc k.debt * 10000 ≤ debt * 10000 := Nat.mul_le_mul_right _ hle
    _ ≤ health * factor := henough
    _ ≤ k.health * k.killFactor := by
        rw [hhealthy]
        exact Nat.mul_le_mul_left _ hfactors

/-- Whatever position a successful `work` leaves with debt, in any reachable state: the debt it
checked against the work factor is recorded as no more, and short of it by less than the price of a
share and one unit; and as the next operation of the vault, at the same time, its health
unchanged and its kill factor no lower, `kill` reverts. -/
theorem kill_reverts_after_work {w₀ : World F} {n : Nat} {id : PositionId} {worker : Address}
    {principalAmount loan maxReturn : Nat} {data : WorkData} (hfresh : Fresh w₀)
    (hrun : Relation.ReflTransGen Transaction w₀ w)
    (hext : ext.Within (Relation.ReflTransGen (Reenter msg.origin n)))
    (hwork : work ext msg id worker principalAmount loan maxReturn data w = .ok w') :
    ∃ (w₁ w₂ : World F) (r : WorkRun ext msg id worker principalAmount loan maxReturn data w₁ w₂),
      WorkEntered ext msg principalAmount w w₁ ∧
      w' = w₂.setVault (w₂.vault.setNotEntered true) ∧
      (id ≠ 0 → r.id' = id) ∧ (id = 0 → r.id' + 1 = w'.vault.nextPositionId) ∧
      (w'.vault.positions r.id').worker = worker ∧
      (0 < r.left → ∃ health factor,
        ext.workerHealth worker r.id' r.worked = .ok health ∧
        (ext.config r.worked).workFactor worker r.left = .ok factor ∧
        r.left * 10000 ≤ health * factor ∧
        (∀ recorded,
          debtShareToVal w'.vault (w'.vault.positions r.id').debtShare = .ok recorded →
          recorded ≤ r.left ∧ (r.left - recorded) * w'.vault.vaultDebtShare <
            w'.vault.vaultDebtVal + w'.vault.vaultDebtShare) ∧
        ∀ (ext' : Externals F) (msg' : Msg) (n' : Nat) (w₃ w₄ : World F),
          ext'.Within (Relation.ReflTransGen (Reenter msg'.origin n')) →
          msg'.now = msg.now → w₃.vault = w'.vault →
          (∀ z h, ext'.workerHealth worker r.id' z = .ok h → h = health) →
          (∀ z debt k, (ext'.config z).killFactor worker debt = .ok k → factor ≤ k) →
          kill ext' msg' r.id' w₃ ≠ .ok w₄) := by
  obtain ⟨_, w₁, w₂, hpulled, hacc, hbody⟩ := work_eq_ok hwork
  have hpull : Contained w w₁ := transferTokenToVault_within hext.contained hpulled
  -- the interest is settled when the body starts
  have hset : Settled (w₂.vault.setNotEntered false) :=
    accrue_settled hacc (hpull.settled (settled_of_run hfresh hrun))
  obtain ⟨_, w₃, hrun, rfl⟩ := nonReentrant_eq_ok hbody
  obtain ⟨r⟩ := work_run hrun
  obtain ⟨hgiven, hnew, hworker, htime, hleft⟩ := r.recorded hext.contained rfl hset
  refine ⟨_, w₃, r, ⟨w₁, w₂, hpulled, hacc, rfl⟩, rfl, hgiven, hnew, hworker, fun hpos => ?_⟩
  obtain ⟨health, factor, v, hborrowed, hsettled, hnone, hbook⟩ := hleft hpos
  have hval : w₃.vault.vaultDebtVal = v.vaultDebtVal := congrArg (fun b => b.pool.value) hbook
  have hshares : w₃.vault.vaultDebtShare = v.vaultDebtShare :=
    congrArg (fun b => b.pool.shares) hbook
  have hshare : (w₃.vault.positions r.id').debtShare = (v.positions r.id').debtShare :=
    congrArg (fun b => b.held r.id') hbook
  -- the debt on record is the loan, up to the rounding of one share
  have hrecorded : ∀ recorded,
      debtShareToVal w₃.vault (w₃.vault.positions r.id').debtShare = .ok recorded →
      recorded ≤ r.left ∧ (r.left - recorded) * w₃.vault.vaultDebtShare <
        w₃.vault.vaultDebtVal + w₃.vault.vaultDebtShare := by
    intro recorded hrec
    rw [debtShareToVal_congr hbook, hshare] at hrec
    rw [hval, hshares]
    exact debtShareToVal_addDebt hsettled hnone hpos hborrowed.added hrec
  refine ⟨health, factor, hborrowed.health_eq, hborrowed.factor_eq, hborrowed.enough, hrecorded,
    fun ext' msg' n' w₄ w₅ hext' hnow hvault hhealth hfactor => ?_⟩
  have hworker₄ : (w₄.vault.positions r.id').worker = worker := hvault ▸ hworker
  -- in the same timestamp nothing accrues, so `kill` reads the debt that `work` wrote
  have hdone : msg'.now ≤ w₄.vault.lastAccrueTime := by
    have hdone := accrue_upToDate hacc
    rw [hnow, hvault]
    exact htime ▸ hdone
  refine kill_ne_ok hext'.contained hdone (fun recorded hrec => ?_) hborrowed.enough ?_ ?_
  · rw [hvault] at hrec
    exact (hrecorded recorded hrec).1
  · rw [hworker₄]
    exact hhealth
  · rw [hworker₄]
    exact hfactor

/-! ## A loan of 10 against a health of 20 -/

def Externals.lending : Externals Unit :=
  { Externals.plain .ok with
    config := fun w =>
      { (Externals.plain .ok).config w with
        workFactor := fun _ _ => .ok 5000
        killFactor := fun _ _ => .ok 7500 }
    myBalance := fun _ => .ok 10
    workerHealth := fun _ _ _ => .ok 20 }

theorem Externals.lending_within (origin : Address) (n : Nat) :
    Externals.lending.Within (Relation.ReflTransGen (Reenter origin n)) := by
  have hok : ∀ {w w' : World Unit}, (Except.ok w : Result (World Unit)) = .ok w' →
      Relation.ReflTransGen (Reenter origin n) w w' := by
    intro w w' h
    cases h
    exact .refl
  exact ⟨hok, hok, hok, hok, hok, hok, hok, hok, hok, hok, hok, hok, hok⟩

/-- The vault with its pool set. -/
def lendStart : Result (World Unit) := call .lending eoa (.setFairLaunchPoolId 0) drawStart

/-- Account 50 opens a position with a loan of 10. -/
def lendRun : Result (World Unit) :=
  lendStart >>= work .lending eoa 0 7 0 10 0 { strategy := 8, ext := [] }

theorem kill_reverts_after_lendRun : ∃ w : World Unit, lendRun = .ok w ∧
    (w.vault.positions 1).debtShare = 10 ∧ ∀ w', kill .lending eoa 1 w ≠ .ok w' := by
  have htest : lendRun.map (fun w => ((w.vault.positions 1).debtShare, w.vault.nextPositionId)) =
      .ok (10, 2) := by decide +kernel
  cases hrun : lendRun with
  | error e =>
      rw [hrun] at htest
      cases htest
  | ok w =>
      rw [hrun] at htest
      obtain ⟨hshare, hnext⟩ := Prod.mk.inj (Except.ok.inj htest)
      obtain ⟨w₁, hstart, hwork⟩ := bind_eq_ok.mp hrun
      have hfresh : Fresh drawStart := ⟨⟨_, _, _, _, rfl⟩, rfl, rfl⟩
      have hfirst : Transaction drawStart w₁ := .of_call (Externals.lending_within 50 0) hstart
      obtain ⟨_, _, r, _, _, _, hnew, _, hleft⟩ := kill_reverts_after_work hfresh
        (.single hfirst) (Externals.lending_within 50 0) hwork
      have hid : r.id' = 1 := by
        have hnew := hnew rfl
        rw [hnext] at hnew
        exact eq_sub_of_add_eq hnew
      -- nothing is paid back
      have hpos : 0 < r.left := by
        have hdebt := r.debt_eq
        simp only [WorkRun.left, Nat.min_zero, Nat.sub_zero]
        omega
      obtain ⟨_, _, hhealth, hfactor, _, _, hkill⟩ := hleft hpos
      refine ⟨w, rfl, hshare, fun w' => ?_⟩
      rw [← hid]
      refine hkill .lending eoa 0 w w' (Externals.lending_within 50 0) rfl rfl ?_ ?_
      · intro _ _ h
        exact Except.ok.inj (h.symm.trans hhealth)
      · intro _ _ k h
        cases h
        cases hfactor
        decide

end Huski.Vault
