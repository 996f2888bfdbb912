import Huski.Vault.DebtLedger

/-!
# What a transaction moves

`totalToken` is the vault's balance plus the debt owed to it, less the reserve.
Each entry point touches these three in its own order; `call_cash` says what one
whole transaction does to them, measured from the state in which its accrual is
done (`settle`). The share price, the close prize and the reserve are read off
from it.
-/

namespace Huski.Vault

open Solidity

variable {G : Type} {self : Address}

/-- What `totalToken` is made of, and the shares it is divided among. -/
structure Cash where
  balance : Nat
  debtVal : Nat
  reserve : Nat
  supply : Nat

/-- What the price of a share depends on. -/
def cash (w : World (Books G)) : Cash :=
  { balance := w.rest.balance
    debtVal := w.vault.vaultDebtVal
    reserve := w.vault.reservePool
    supply := w.vault.ibToken.totalSupply }

/-- What belongs to the lenders: `totalToken` over the integers. -/
def Cash.lenders (k : Cash) : Int := k.balance + k.debtVal - k.reserve

/-- What `recipient` has been paid, in the currency the vault pays out in. -/
def paidTo (c : Config) (w : World (Books G)) (recipient : Address) : Nat :=
  if w.vault.token = c.getWrappedNativeAddr then w.rest.sentNative recipient
  else w.rest.sentToken recipient

variable {o : Outcome G} {msg : Msg} {w w' : World (Books G)}

theorem totalToken_eq_ok {total : Nat} (h : totalToken (o.externals self) w = .ok total) :
    (total : Int) = (cash w).lenders := by
  simp only [totalToken, Outcome.externals, bind_eq_ok, Except.ok.injEq, SafeMath.add_eq_ok,
    SafeMath.sub_eq_ok] at h
  obtain ⟨_, rfl, _, ⟨_, rfl⟩, hle, rfl⟩ := h
  simp only [Cash.lenders, cash]
  omega

/-! ## Payments -/

/-- The base token arrives from outside. -/
theorem transferTokenToVault_cash {value : Nat}
    (h : transferTokenToVault (o.externals self) msg value w = .ok w') :
    w' = setBooks w { w.rest with balance := w.rest.balance + value } := by
  unfold transferTokenToVault at h
  split at h
  · simp only [bind_eq_ok, require_eq_ok] at h
    obtain ⟨_, _, _, rfl, h⟩ := h
    exact receiveToken_eq_ok h
  · simp only [Outcome.externals, if_true] at h
    exact receiveToken_eq_ok h

/-- A payment of `amount` to `recipient`: the balance falls by it and nobody else
gets anything. -/
structure Paid (c : Config) (recipient : Address) (amount : Nat) (w w' : World (Books G)) :
    Prop where
  vault : w'.vault = w.vault
  balance : w'.rest.balance + amount = w.rest.balance
  received : ∀ a, paidTo c w' a = paidTo c w a + if a = recipient then amount else 0

/-- A transfer out pays its recipient the amount, as tokens or as native currency. -/
theorem smartSafeTransfer_paid {recipient : Address} {amount : Nat} (hother : recipient ≠ self)
    (h : _smartSafeTransfer (o.externals self) recipient amount w = .ok w') :
    Paid o.config recipient amount w w' := by
  unfold _smartSafeTransfer at h
  split at h
  · -- unwrapped through the relayer
    rename_i hwrapped
    replace hwrapped : w.vault.token = o.config.getWrappedNativeAddr := hwrapped
    simp only [bind_eq_ok] at h
    obtain ⟨w₁, hsend, w₂, hunwrap, hnative⟩ := h
    obtain ⟨hrelayer, rfl⟩ := relayerWithdraw_eq_ok hunwrap
    obtain ⟨hle, ⟨hself, _⟩ | ⟨_, rfl⟩⟩ := sendToken_eq_ok hsend
    · exact absurd hself hrelayer
    obtain ⟨_, rfl⟩ := sendNative_eq_ok hnative
    refine ⟨rfl, Nat.sub_add_cancel hle, fun a => ?_⟩
    by_cases ha : a = recipient <;> simp [paidTo, hwrapped, ha]
  · rename_i hplain
    replace hplain : w.vault.token ≠ o.config.getWrappedNativeAddr := hplain
    obtain ⟨hle, ⟨hself, _⟩ | ⟨_, rfl⟩⟩ := sendToken_eq_ok h
    · exact absurd hself hother
    refine ⟨rfl, Nat.sub_add_cancel hle, fun a => ?_⟩
    by_cases ha : a = recipient <;> simp [paidTo, hplain, ha]

theorem sendPositive_paid {recipient : Address} {amount : Nat}
    (hother : 0 < amount → recipient ≠ self)
    (h : sendPositive (o.externals self) recipient amount w = .ok w') :
    Paid o.config recipient amount w w' := by
  unfold sendPositive at h
  split at h
  · rename_i hpos
    exact smartSafeTransfer_paid (hother hpos) h
  · rename_i hzero
    cases h
    obtain rfl : amount = 0 := by omega
    exact ⟨rfl, rfl, fun a => by simp⟩

/-! ## Accrual -/

/-- The entry points with the modifier `accrue`. -/
def Call.accrues : Call → Bool
  | .deposit _ | .withdraw _ | .work .. | .kill _ => true
  | _ => false

/-- The accrual an entry point starts with. -/
def settle {F : Type} (ext : Externals F) (msg : Msg) (c : Call) : Ext F :=
  if c.accrues then accrue ext msg 0 else .ok

/-- The interest does not count what the call has just brought in. -/
theorem pendingInterest_received (value : Nat) :
    pendingInterest (o.externals self) msg value
      (setBooks w { w.rest with balance := w.rest.balance + value }) =
    pendingInterest (o.externals self) msg 0 w := by
  have hback : SafeMath.sub (w.rest.balance + value) value = SafeMath.sub w.rest.balance 0 := by
    simp [SafeMath.sub, SafeMath.subOr]
  have hbind : ∀ (n : Nat) (f : Nat → Result Nat), (Except.ok n >>= f) = f n := fun _ _ => rfl
  simp only [pendingInterest, Outcome.externals, setBooks_vault, setBooks_rest, hbind, hback]

/-- Money that arrives with the call does not count for its accrual. -/
theorem accrue_received {value : Nat} {w₂ : World (Books G)}
    (h : accrue (o.externals self) msg value
      (setBooks w { w.rest with balance := w.rest.balance + value }) = .ok w₂) :
    ∃ settled, accrue (o.externals self) msg 0 w = .ok settled ∧ settled.rest = w.rest ∧
      w₂ = setBooks settled { w.rest with balance := w.rest.balance + value } := by
  by_cases hlate : msg.now > w.vault.lastAccrueTime
  · simp only [accrue, setBooks_vault, hlate, if_true, pendingInterest_received, bind_eq_ok,
      pure_eq_ok] at h ⊢
    obtain ⟨interest, hinterest, product, hproduct, toReserve, hreserve, reservePool, hpool,
      debtVal, hdebt, rfl⟩ := h
    exact ⟨_, ⟨interest, hinterest, product, hproduct, toReserve, hreserve, reservePool, hpool,
      debtVal, hdebt, rfl⟩, rfl, rfl⟩
  · simp only [accrue, setBooks_vault, hlate, if_false, Except.ok.injEq] at h ⊢
    exact ⟨w, rfl, rfl, h.symm⟩

/-- The principal or deposit of a call, on top of the settled state. -/
theorem received_lenders {settled : World (Books G)} (value : Nat)
    (hrest : settled.rest = w.rest) :
    (cash (setBooks settled { w.rest with balance := w.rest.balance + value })).lenders =
      (cash settled).lenders + value := by
  simp only [Cash.lenders, cash, setBooks_rest, setBooks_vault, hrest]
  omega

/-- With at most the whole interest going to the reserve, accrual takes nothing
from the lenders. -/
theorem accrue_lenders {value : Nat} (hbps : o.config.getReservePoolBps ≤ 10000)
    (h : accrue (o.externals self) msg value w = .ok w') :
    (cash w).lenders ≤ (cash w').lenders ∧ (cash w').supply = (cash w).supply := by
  obtain ⟨interest, toReserve, _, hacc⟩ := accrue_eq_ok h
  have hshare : toReserve ≤ interest := by
    rw [hacc.share]
    exact Nat.div_le_of_le_mul (by rw [Nat.mul_comm]; exact Nat.mul_le_mul_right _ hbps)
  rw [hacc.world]
  refine ⟨?_, rfl⟩
  simp only [cash, Cash.lenders, setVault_vault, setVault_rest]
  omega

/-! ## The debt of a position -/

theorem clear_cash {id : PositionId} {cleared : Nat} {v : Storage}
    (h : _removeDebt id w.vault = .ok (cleared, v)) :
    debtShareToVal w.vault (w.vault.positions id).debtShare = .ok cleared ∧
    cleared ≤ w.vault.vaultDebtVal ∧ v.vaultDebtVal = w.vault.vaultDebtVal - cleared ∧
    v.reservePool = w.vault.reservePool ∧ v.ibToken = w.vault.ibToken ∧
    v.token = w.vault.token := by
  rcases removeDebt_eq_ok h with ⟨hnone, rfl, rfl⟩ | ⟨_, hval, _, hle, rfl⟩
  · exact ⟨hnone ▸ debtShareToVal_zero w.vault, Nat.zero_le _, rfl, rfl, rfl, rfl⟩
  · exact ⟨hval, hle, rfl, rfl, rfl, rfl⟩

theorem borrow_cash {id : PositionId} {debt : Nat} {v v' : Storage}
    (h : _addDebt id debt v = .ok v') :
    v'.vaultDebtVal = v.vaultDebtVal + debt ∧ v'.reservePool = v.reservePool ∧
    v'.ibToken = v.ibToken := by
  obtain ⟨_, _, rfl⟩ := addDebt_eq_ok h
  exact ⟨rfl, rfl, rfl⟩

/-! ## The other contracts -/

/-- A call that only the other contracts notice. -/
def OnlyOthers (w w' : World (Books G)) : Prop :=
  ∃ others, w' = setBooks w { w.rest with others }

theorem OnlyOthers.refl (w : World (Books G)) : OnlyOthers w w := ⟨w.rest.others, rfl⟩

theorem OnlyOthers.trans {a b c : World (Books G)} (hab : OnlyOthers a b)
    (hbc : OnlyOthers b c) : OnlyOthers a c := by
  obtain ⟨_, rfl⟩ := hab
  obtain ⟨others, rfl⟩ := hbc
  exact ⟨others, rfl⟩

theorem OnlyOthers.vault (h : OnlyOthers w w') : w'.vault = w.vault := by
  obtain ⟨_, rfl⟩ := h
  rfl

theorem OnlyOthers.cash (h : OnlyOthers w w') : cash w' = cash w := by
  obtain ⟨_, rfl⟩ := h
  rfl

theorem OnlyOthers.paidTo (h : OnlyOthers w w') (c : Config) (a : Address) :
    paidTo c w' a = paidTo c w a := by
  obtain ⟨_, rfl⟩ := h
  rfl

theorem fairLaunchDeposit_onlyOthers {id : PositionId} {amount : Nat}
    (h : _fairLaunchDeposit (o.externals self) id amount w = .ok w') : OnlyOthers w w' := by
  unfold _fairLaunchDeposit at h
  split at h
  · simp only [bind_eq_ok] at h
    obtain ⟨w₁, hmint, hdeposit⟩ := h
    exact .trans (onOthers_eq_ok hmint) (onOthers_eq_ok hdeposit)
  · cases h
    exact .refl w

theorem fairLaunchWithdraw_onlyOthers {id : PositionId}
    (h : _fairLaunchWithdraw (o.externals self) id w = .ok w') : OnlyOthers w w' := by
  simp only [_fairLaunchWithdraw] at h
  split at h
  · split at h
    · rename_i w₁ hwithdraw
      exact .trans (onOthers_eq_ok hwithdraw) (onOthers_eq_ok h)
    · cases h
      exact .refl w
  · cases h
    exact .refl w

/-! ## Work -/

theorem selectPosition_cash {id id' : PositionId} {worker : Address}
    (h : selectPosition (o.externals self) msg id worker w = .ok (id', w')) :
    cash w' = cash w := by
  unfold selectPosition at h
  split at h
  · cases h
    rfl
  · simp only [bind_eq_ok, pure_eq_ok, Prod.mk.injEq] at h
    obtain ⟨_, _, _, _, _, _, w₁, hstake, _, rfl⟩ := h
    exact (fairLaunchWithdraw_onlyOthers hstake).cash

/-- The worker gets the principal and the loan, and `back` comes back. -/
theorem performWork_cash {id : PositionId} {worker : Address}
    {principalAmount loan debt back : Nat} {data : WorkData}
    (h : performWork (o.externals self) msg id worker principalAmount loan debt data w =
      .ok (back, w')) :
    back = o.returned ∧ principalAmount + loan ≤ w.rest.balance ∧
      w'.rest.balance + (principalAmount + loan) = w.rest.balance + back := by
  simp only [performWork, bind_eq_ok, SafeMath.add_eq_ok, require_eq_ok, SafeMath.sub_eq_ok,
    pure_eq_ok, Prod.mk.injEq] at h
  obtain ⟨_, ⟨_, rfl⟩, held, hheld, _, _, before, ⟨hle, rfl⟩, w₁, hsend, w₂, hwork, after,
    hafter, _, ⟨hback, rfl⟩, rfl, rfl⟩ := h
  obtain rfl : w.rest.balance = held := Except.ok.inj hheld
  obtain rfl : w₂.rest.balance = after := Except.ok.inj hafter
  have hworker : worker ≠ self := by
    simp only [Outcome.externals, Outcome.workerCall, bind_eq_ok, require_eq_ok] at hwork
    exact hwork.choose_spec.1
  obtain ⟨_, ⟨hself, _⟩ | ⟨_, rfl⟩⟩ := sendToken_eq_ok hsend
  · exact absurd hself hworker
  obtain ⟨_, rfl⟩ := workerCall_eq_ok hwork
  simp only [setBooks_rest] at hback ⊢
  omega

theorem updateDebt_cash {id : PositionId} {worker : Address} {debt : Nat}
    (h : updateDebt (o.externals self) id worker debt w = .ok w') :
    cash w' = { cash w with debtVal := w.vault.vaultDebtVal + debt } := by
  unfold updateDebt at h
  split at h
  · simp only [bind_eq_ok] at h
    obtain ⟨_, _, _, _, _, _, _, _, _, _, _, _, v, hadd, hstake⟩ := h
    obtain ⟨hval, hreserve, hib⟩ := borrow_cash hadd
    rw [(fairLaunchDeposit_onlyOthers hstake).cash]
    simp only [cash, setVault_vault, setVault_rest, hval, hreserve, hib]
  · cases h
    obtain rfl : debt = 0 := by omega
    rfl

/-- The close prize of a `work`: what the vault keeps of the excess. -/
def closePrize (c : Config) (excess : Nat) : Nat := excess * c.getCloseBps / 10000

/-- The sender gets what is left over the debt, less the prize. -/
theorem returnExcess_cash {back lessDebt : Nat} (hsender : msg.sender ≠ self)
    (h : returnExcess (o.externals self) msg back lessDebt w = .ok w') :
    closePrize o.config (back - lessDebt) ≤ back - lessDebt ∧
    Paid o.config msg.sender (back - lessDebt - closePrize o.config (back - lessDebt)) w w' := by
  unfold returnExcess at h
  split at h
  · simp only [bind_eq_ok, SafeMath.sub_eq_ok, SafeMath.mul_eq_ok, SafeMath.div_eq_ok] at h
    obtain ⟨_, ⟨_, rfl⟩, _, ⟨_, rfl⟩, _, ⟨_, rfl⟩, _, _, _, ⟨hle, rfl⟩, hpay⟩ := h
    exact ⟨hle, smartSafeTransfer_paid hsender hpay⟩
  · rename_i hnone
    cases h
    have hzero : back - lessDebt = 0 := by omega
    have hprize : closePrize o.config 0 = 0 := by simp [closePrize]
    rw [hzero, hprize]
    exact ⟨Nat.le_refl 0, rfl, rfl, fun a => by simp⟩

/-- What a `work` moves, `brought` of the user's own being in the vault already: the
debt is settled to the last unit, so the lenders gain exactly the close prize, and
the reserve gains nothing. -/
structure WorkFlow (o : Outcome G) (id : PositionId) (brought loan maxReturn : Nat)
    (w w' : World (Books G)) (debt : Nat) : Prop where
  debt_eq : ∃ cleared, debtShareToVal w.vault
    (w.vault.positions ((ledger w.vault).worked id)).debtShare = .ok cleared ∧
    debt = cleared + loan
  lenders : (cash w').lenders + brought = (cash w).lenders +
    closePrize o.config (o.returned - min debt (min o.returned maxReturn))
  reserve : (cash w').reserve = (cash w).reserve
  supply : (cash w').supply = (cash w).supply

/-- The body of a work moves exactly the tokens it names. -/
theorem work_run_flow {id : PositionId} {worker : Address}
    {principalAmount loan maxReturn : Nat} {data : WorkData} (hsender : msg.sender ≠ self)
    (h : _work (o.externals self) msg id worker principalAmount loan maxReturn data w = .ok w') :
    ∃ debt, WorkFlow o id principalAmount loan maxReturn w w' debt := by
  obtain ⟨r⟩ := work_run h
  -- the debt cleared is the one of the book before
  obtain ⟨hid, _, hledger⟩ := selectPosition_ledger (externals_sameVault o) r.select
  have hbook : debtBook r.selected.vault = debtBook w.vault := congrArg Ledger.book hledger
  obtain ⟨hcleared, hle, hval, hreserve, hib, _⟩ := clear_cash r.clear
  have hheld : (r.selected.vault.positions r.id').debtShare =
      (w.vault.positions ((ledger w.vault).worked id)).debtShare :=
    hid ▸ congrFun (congrArg SharePool.Book.held hbook) r.id'
  -- what each step moves
  have hselect := selectPosition_cash r.select
  obtain ⟨hback, _, hperform⟩ := performWork_cash r.perform
  have hworked := r.worked_vault (externals_sameVault o)
  have hupdate := updateDebt_cash r.update
  obtain ⟨hprize, hpaid⟩ := returnExcess_cash hsender r.give
  rw [hback] at hperform hprize hpaid hupdate
  have hexit : cash w' = cash r.returned := by
    have hw := congrArg cash r.exit
    exact hw
  have hbalance : (cash w').balance + (o.returned - min r.debt (min o.returned maxReturn) -
      closePrize o.config (o.returned - min r.debt (min o.returned maxReturn))) +
      (principalAmount + loan) = (cash w).balance + o.returned := by
    have howing : r.owing.rest.balance = r.worked.rest.balance := congrArg Cash.balance hupdate
    have hselected : r.selected.rest.balance = w.rest.balance := congrArg Cash.balance hselect
    have hpaid := hpaid.balance
    have hperform : r.worked.rest.balance + (principalAmount + loan) =
      r.selected.rest.balance + o.returned := hperform
    rw [hexit]
    simp only [cash]
    omega
  have hdebtVal : (cash w').debtVal + r.cleared = (cash w).debtVal +
      (r.debt - min r.debt (min o.returned maxReturn)) := by
    have howing : r.owing.vault.vaultDebtVal = r.worked.vault.vaultDebtVal + _ :=
      congrArg Cash.debtVal hupdate
    have hselected : r.selected.vault.vaultDebtVal = w.vault.vaultDebtVal :=
      congrArg Cash.debtVal hselect
    have hval : r.debtless.vaultDebtVal = r.selected.vault.vaultDebtVal - r.cleared := hval
    have hle : r.cleared ≤ r.selected.vault.vaultDebtVal := hle
    rw [hworked] at howing
    rw [hexit]
    simp only [cash, hpaid.vault]
    omega
  have hreserves : (cash w').reserve = (cash w).reserve := by
    have howing : r.owing.vault.reservePool = r.worked.vault.reservePool :=
      congrArg Cash.reserve hupdate
    rw [hexit]
    simp only [cash, hpaid.vault, howing, hworked, hreserve]
    exact congrArg Cash.reserve hselect
  refine ⟨r.debt, ⟨r.cleared, ?_, r.debt_eq⟩, ?_, hreserves, ?_⟩
  · rw [← hheld, ← debtShareToVal_congr hbook]
    exact hcleared
  · have hdebt := r.debt_eq
    simp only [Cash.lenders]
    omega
  · have howing : r.owing.vault.ibToken.totalSupply = r.worked.vault.ibToken.totalSupply :=
      congrArg Cash.supply hupdate
    rw [hexit]
    simp only [cash, hpaid.vault, howing, hworked, hib]
    exact congrArg Cash.supply hselect

/-- A work accrues, and then moves exactly the tokens it names. -/
theorem work_flow {id : PositionId} {worker : Address} {principalAmount loan maxReturn : Nat}
    {data : WorkData} (hsender : msg.sender ≠ self)
    (h : work (o.externals self) msg id worker principalAmount loan maxReturn data w = .ok w') :
    ∃ settled debt, accrue (o.externals self) msg 0 w = .ok settled ∧
      WorkFlow o id 0 loan maxReturn settled w' debt := by
  obtain ⟨_, w₁, w₂, hpull, hacc, hbody⟩ := work_eq_ok h
  obtain rfl := transferTokenToVault_cash hpull
  obtain ⟨settled, hsettle, hrest, rfl⟩ := accrue_received hacc
  obtain ⟨_, w₃, hwork, rfl⟩ := nonReentrant_eq_ok hbody
  obtain ⟨debt, hdebt, hlenders, hreserve, hsupply⟩ := work_run_flow hsender hwork
  refine ⟨settled, debt, hsettle, hdebt, ?_, hreserve, hsupply⟩
  have hbrought := received_lenders principalAmount hrest
  have hlenders : (cash w₃).lenders + principalAmount =
      (cash
        (setBooks settled { w.rest with balance := w.rest.balance + principalAmount })).lenders +
        closePrize o.config (o.returned - min debt (min o.returned maxReturn)) := hlenders
  show (cash w₃).lenders + (0 : Nat) = _
  omega

/-! ## Kill -/

/-- The part of a liquidation that goes to the killer. -/
def killPrize (c : Config) (back : Nat) : Nat := back * c.getKillBps / 10000

/-- What a `kill` moves: the proceeds pay the killer, then the debt, then the owner,
and the lenders bear what is missing. -/
structure KillFlow (o : Outcome G) (msg : Msg) (id : PositionId) (w w' : World (Books G))
    (debt : Nat) : Prop where
  debt_eq : debtShareToVal w.vault (w.vault.positions id).debtShare = .ok debt
  prize_le : killPrize o.config o.returned ≤ o.returned
  balance : (cash w').balance + killPrize o.config o.returned +
    (o.returned - killPrize o.config o.returned - debt) = (cash w).balance + o.returned
  lenders : (cash w').lenders = (cash w).lenders -
    max 0 ((debt : Int) - (o.returned - killPrize o.config o.returned))
  received : ∀ a, paidTo o.config w' a = paidTo o.config w a +
    (if a = msg.sender then killPrize o.config o.returned else 0) +
    (if a = (w.vault.positions id).owner then
      o.returned - killPrize o.config o.returned - debt else 0)
  reserve : (cash w').reserve = (cash w).reserve
  supply : (cash w').supply = (cash w).supply

/-- A liquidation brings in what the worker returns. -/
theorem liquidate_cash {worker : Address} {id : PositionId}
    (h : (o.externals self).workerLiquidate worker id w = .ok w') :
    w'.vault = w.vault ∧ w'.rest.balance = w.rest.balance + o.returned ∧
      ∀ a, paidTo o.config w' a = paidTo o.config w a := by
  obtain ⟨_, rfl⟩ := workerCall_eq_ok h
  exact ⟨rfl, rfl, fun _ => rfl⟩

/-- The body of a kill splits what the liquidation brings in. -/
theorem kill_run_flow {id : PositionId} (hsender : msg.sender ≠ self)
    (h : _kill (o.externals self) msg id w = .ok w')
    (howner : (w.vault.positions id).owner ≠ self) :
    ∃ debt, KillFlow o msg id w w' debt := by
  obtain ⟨r⟩ := kill_run h
  have hstake := fairLaunchWithdraw_onlyOthers r.unstake
  obtain ⟨hcleared, hle, hval, hreserve, hib, htoken⟩ := clear_cash r.clear
  obtain ⟨hliqVault, hliqBalance, hliqPaid⟩ := liquidate_cash r.liquidate
  -- what came back is the worker's answer, as the vault measures its balance around the call
  have hback : r.after - r.before = o.returned := by
    have hbefore : r.withdrawn.rest.balance = r.before := Except.ok.inj r.before_eq
    have hafter : r.liquidated.rest.balance = r.after := Except.ok.inj r.after_eq
    have hliq : r.liquidated.rest.balance = r.withdrawn.rest.balance + o.returned := hliqBalance
    omega
  have hprize : killPrize o.config o.returned ≤ o.returned := hback ▸ r.prize_le
  have hpay : Paid o.config msg.sender (killPrize o.config o.returned) r.liquidated r.paid :=
    hback ▸ sendPositive_paid (fun _ => hsender) r.pay
  -- the position's owner survives the payments, so the rest goes to that account
  have hstays : (r.paid.vault.positions id).owner = (w.vault.positions id).owner := by
    rw [hpay.vault, hliqVault]
    exact (congrFun (congrArg Ledger.owner (removeDebt_ledger r.clear)) id).trans
      (by rw [hstake.vault]; rfl)
  have hgive : Paid o.config (r.paid.vault.positions id).owner
      (o.returned - killPrize o.config o.returned - r.debt) r.paid w' :=
    hback ▸ sendPositive_paid (fun _ => hstays ▸ howner) r.give
  -- out go the prize and the rest; what covers the debt stays
  have hbalance : w'.rest.balance + killPrize o.config o.returned +
      (o.returned - killPrize o.config o.returned - r.debt) = w.rest.balance + o.returned := by
    have hpay := hpay.balance
    have hgive := hgive.balance
    have hliq : r.liquidated.rest.balance = r.withdrawn.rest.balance + o.returned := hliqBalance
    have hsame : r.withdrawn.rest.balance = w.rest.balance := congrArg Cash.balance hstake.cash
    omega
  have hvault : w'.vault = r.debtless := by rw [hgive.vault, hpay.vault, hliqVault]; rfl
  rw [hstake.vault] at hcleared hle hval hreserve hib
  refine ⟨r.debt, hcleared, hprize, hbalance, ?_, fun a => ?_, ?_, ?_⟩
  · simp only [Cash.lenders, cash, hvault, hval, hreserve]
    omega
  · rw [hgive.received, hpay.received, hliqPaid, hstays]
    congr 2
    have hbefore : paidTo o.config (r.withdrawn.setVault r.debtless) a =
        paidTo o.config r.withdrawn a := by
      simp only [paidTo, setVault_vault, setVault_rest, htoken]
    rw [hbefore, hstake.paidTo]
  · simp only [cash, hvault, hreserve]
  · simp only [cash, hvault, hib]

/-- A kill accrues, and then splits what the liquidation brings in. -/
theorem kill_flow {id : PositionId} (hsender : msg.sender ≠ self)
    (howners : ∀ id, 0 < (w.vault.positions id).debtShare → (w.vault.positions id).owner ≠ self)
    (h : kill (o.externals self) msg id w = .ok w') :
    ∃ settled debt, accrue (o.externals self) msg 0 w = .ok settled ∧
      KillFlow o msg id settled w' debt := by
  obtain ⟨_, settled, hsettle, hbody⟩ := kill_eq_ok h
  obtain ⟨_, w₁, hkill, rfl⟩ := nonReentrant_eq_ok hbody
  obtain ⟨r⟩ := kill_run hkill
  have hsame : settled.vault.positions = w.vault.positions := by
    obtain ⟨_, _, _, hacc⟩ := accrue_eq_ok hsettle
    rw [hacc.world]
    rfl
  have hdebt : 0 < (settled.vault.positions id).debtShare := r.hasDebt
  have howner : (settled.vault.positions id).owner ≠ self := by
    rw [hsame] at hdebt ⊢
    exact howners id hdebt
  obtain ⟨debt, hflow⟩ := kill_run_flow hsender hkill howner
  exact ⟨settled, debt, hsettle, hflow.debt_eq, hflow.prize_le, hflow.balance, hflow.lenders,
    hflow.received, hflow.reserve, hflow.supply⟩

/-! ## Deposit and withdrawal -/

theorem depositShare_eq_ok {amountToken total supply share : Nat}
    (h : depositShare amountToken total supply = .ok share) :
    share = if total = 0 then amountToken else amountToken * supply / total := by
  unfold depositShare at h
  split at h
  · rename_i hempty
    simpa [hempty] using (Except.ok.inj h).symm
  · rename_i hsome
    simp only [bind_eq_ok, SafeMath.mul_eq_ok, SafeMath.div_eq_ok] at h
    obtain ⟨_, ⟨_, rfl⟩, _, rfl⟩ := h
    simp [hsome]

/-- What a deposit moves: shares at the settled price, rounded down. -/
structure DepositFlow (amountToken : Nat) (w w' : World (Books G)) (total : Nat) : Prop where
  total_eq : (total : Int) = (cash w).lenders
  lenders : (cash w').lenders = (cash w).lenders + amountToken
  supply : (cash w').supply = (cash w).supply +
    if total = 0 then amountToken else amountToken * (cash w).supply / total

/-- A deposit mints at the price before it. -/
theorem deposit_flow {amountToken : Nat}
    (h : deposit (o.externals self) msg amountToken w = .ok w') :
    ∃ settled total, accrue (o.externals self) msg 0 w = .ok settled ∧
      DepositFlow amountToken settled w' total := by
  obtain ⟨w₁, w₂, hpull, hacc, hbody⟩ := deposit_eq_ok h
  obtain rfl := transferTokenToVault_cash hpull
  obtain ⟨settled, hsettle, hrest, rfl⟩ := accrue_received hacc
  obtain ⟨_, w₃, hdep, rfl⟩ := nonReentrant_eq_ok hbody
  simp only [_deposit, bind_eq_ok, SafeMath.sub_eq_ok, pure_eq_ok] at hdep
  obtain ⟨held, hheld, total, ⟨hle, rfl⟩, share, hshare, ibToken, hmint, _, _, rfl⟩ := hdep
  have hheld := totalToken_eq_ok hheld
  have hbrought := received_lenders amountToken hrest
  have hheld : (held : Int) = (cash settled).lenders + amountToken := hheld.trans hbrought
  refine ⟨settled, held - amountToken, hsettle, by omega, hbrought, ?_⟩
  show ibToken.totalSupply = _
  rw [ERC20.totalSupply_mint hmint, depositShare_eq_ok hshare]
  rfl

/-- What a withdrawal moves: the settled worth of the shares, rounded down. -/
structure WithdrawFlow (share : Nat) (w w' : World (Books G)) (total : Nat) : Prop where
  total_eq : (total : Int) = (cash w).lenders
  shares : (cash w').supply + share = (cash w).supply
  some : (cash w).supply ≠ 0
  lenders : (cash w').lenders + (share * total / (cash w).supply : Nat) = (cash w).lenders

/-- A withdrawal pays the price of its shares. -/
theorem withdraw_flow {share : Nat} (hsender : msg.sender ≠ self)
    (h : withdraw (o.externals self) msg share w = .ok w') :
    ∃ settled total, accrue (o.externals self) msg 0 w = .ok settled ∧
      WithdrawFlow share settled w' total := by
  obtain ⟨settled, hsettle, hbody⟩ := withdraw_eq_ok h
  obtain ⟨_, w₂, hwith, rfl⟩ := nonReentrant_eq_ok hbody
  simp only [_withdraw, bind_eq_ok, SafeMath.mul_eq_ok, SafeMath.div_eq_ok, pure_eq_ok] at hwith
  obtain ⟨total, htotal, _, ⟨_, rfl⟩, _, ⟨hsome, rfl⟩, ibToken, hburn, w₃, hsend, _, _, rfl⟩ :=
    hwith
  have hpaid := smartSafeTransfer_paid hsender hsend
  have htotal := totalToken_eq_ok htotal
  refine ⟨settled, total, hsettle, htotal, ?_, hsome, ?_⟩
  · show w₃.vault.ibToken.totalSupply + share = _
    rw [hpaid.vault]
    exact ERC20.totalSupply_burn hburn
  · have hbalance : w₃.rest.balance + share * total / settled.vault.ibToken.totalSupply =
        settled.rest.balance := hpaid.balance
    -- the payment touches neither the debt nor the reserve
    have hdebtVal : w₃.vault.vaultDebtVal = settled.vault.vaultDebtVal := by
      rw [hpaid.vault]
      rfl
    have hreserve : w₃.vault.reservePool = settled.vault.reservePool := by
      rw [hpaid.vault]
      rfl
    show (w₃.rest.balance : Int) + w₃.vault.vaultDebtVal - w₃.vault.reservePool +
      (share * total / settled.vault.ibToken.totalSupply : Nat) = _
    simp only [Cash.lenders, cash]
    omega

/-! ## Any transaction -/

/-- What one transaction moves, from the settled state on. -/
inductive CashStep (o : Outcome G) (msg : Msg) : Call → World (Books G) → World (Books G) → Prop
  | deposit {amountToken total w w'} (h : DepositFlow amountToken w w' total) :
      CashStep o msg (.deposit amountToken) w w'
  | withdraw {share total w w'} (h : WithdrawFlow share w w' total) :
      CashStep o msg (.withdraw share) w w'
  | work {id worker principalAmount loan maxReturn data debt w w'}
      (h : WorkFlow o id 0 loan maxReturn w w' debt) :
      CashStep o msg (.work id worker principalAmount loan maxReturn data) w w'
  | kill {id debt w w'} (h : KillFlow o msg id w w' debt) : CashStep o msg (.kill id) w w'
  | keep {c w w'} (hc : c.accrues = false) (hlenders : (cash w).lenders ≤ (cash w').lenders)
      (hsupply : (cash w').supply = (cash w).supply) : CashStep o msg c w w'

/-- Every entry point is its accrual and one step on the cash. -/
theorem call_cash {c : Call} (hsender : msg.sender ≠ self)
    (howners : ∀ id, 0 < (w.vault.positions id).debtShare → (w.vault.positions id).owner ≠ self)
    (h : call (o.externals self) msg c w = .ok w') :
    ∃ settled, settle (o.externals self) msg c w = .ok settled ∧
      CashStep o msg c settled w' := by
  -- nothing before, and nothing that the lenders lose
  have still : c.accrues = false →
      (cash w).lenders ≤ (cash w').lenders → (cash w').supply = (cash w).supply →
      ∃ settled, settle (o.externals self) msg c w = .ok settled ∧
        CashStep o msg c settled w' :=
    fun hc hlenders hsupply => ⟨w, by simp [settle, hc], .keep hc hlenders hsupply⟩
  cases c with
  | deposit amountToken =>
      obtain ⟨settled, total, hsettle, hflow⟩ := deposit_flow h
      exact ⟨settled, hsettle, .deposit hflow⟩
  | withdraw share =>
      obtain ⟨settled, total, hsettle, hflow⟩ := withdraw_flow hsender h
      exact ⟨settled, hsettle, .withdraw hflow⟩
  | work id worker principalAmount loan maxReturn data =>
      obtain ⟨settled, debt, hsettle, hflow⟩ := work_flow hsender h
      exact ⟨settled, hsettle, .work hflow⟩
  | kill id =>
      obtain ⟨settled, debt, hsettle, hflow⟩ := kill_flow hsender howners h
      exact ⟨settled, hsettle, .kill hflow⟩
  | requestFunds targetedToken amount =>
      simp only [call, requestFunds, inExec, bind_eq_ok, pure_eq_ok] at h
      obtain ⟨_, _, _, _, _, _, _, ⟨w₁, hpull, rfl⟩, rfl⟩ := h
      simp only [Outcome.externals] at hpull
      split at hpull
      · obtain rfl := receiveToken_eq_ok hpull
        refine still rfl ?_ rfl
        show (w.rest.balance : Int) + w.vault.vaultDebtVal - w.vault.reservePool ≤
          (w.rest.balance + amount : Nat) + w.vault.vaultDebtVal - w.vault.reservePool
        omega
      · cases hpull
        exact still rfl (Int.le_refl _) rfl
  | injectSerialCode serialCode =>
      simp only [call, injectSerialCode, inExec, bind_eq_ok, Except.ok.injEq, pure_eq_ok] at h
      obtain ⟨_, _, _, _, _, _, _, rfl, rfl⟩ := h
      exact still rfl (Int.le_refl _) rfl
  | updateConfig config =>
      simp only [call, updateConfig, bind_eq_ok, pure_eq_ok] at h
      obtain ⟨_, _, rfl⟩ := h
      exact still rfl (Int.le_refl _) rfl
  | updateDebtToken debtToken newPid =>
      simp only [call, updateDebtToken, bind_eq_ok] at h
      obtain ⟨_, _, _, _, w₁, hholders, happrove⟩ := h
      obtain ⟨_, rfl⟩ := onOthers_eq_ok hholders
      obtain ⟨_, rfl⟩ := onOthers_eq_ok happrove
      exact still rfl (Int.le_refl _) rfl
  | setFairLaunchPoolId poolId =>
      simp only [call, setFairLaunchPoolId, bind_eq_ok, pure_eq_ok] at h
      obtain ⟨_, _, w₁, happrove, rfl⟩ := h
      obtain ⟨_, rfl⟩ := onOthers_eq_ok happrove
      exact still rfl (Int.le_refl _) rfl
  | withdrawReserve recipient value =>
      simp only [call, withdrawReserve, bind_eq_ok] at h
      obtain ⟨_, _, hbody⟩ := h
      obtain ⟨_, w₁, hsend, rfl⟩ := nonReentrant_eq_ok hbody
      simp only [bind_eq_ok, SafeMath.sub_eq_ok] at hsend
      obtain ⟨_, ⟨hle, rfl⟩, hsend⟩ := hsend
      replace hle : value ≤ w.vault.reservePool := hle
      obtain ⟨hheld, ⟨_, rfl⟩ | ⟨_, rfl⟩⟩ := sendToken_eq_ok hsend
      all_goals refine still rfl ?_ rfl
      · show (w.rest.balance : Int) + w.vault.vaultDebtVal - w.vault.reservePool ≤
          w.rest.balance + w.vault.vaultDebtVal - (w.vault.reservePool - value : Nat)
        omega
      · replace hheld : value ≤ w.rest.balance := hheld
        show (w.rest.balance : Int) + w.vault.vaultDebtVal - w.vault.reservePool ≤
          (w.rest.balance - value : Nat) + w.vault.vaultDebtVal -
            (w.vault.reservePool - value : Nat)
        omega
  | reduceReserve value =>
      simp only [call, reduceReserve, bind_eq_ok, SafeMath.sub_eq_ok, pure_eq_ok] at h
      obtain ⟨_, _, _, ⟨hle, rfl⟩, rfl⟩ := h
      refine still rfl ?_ rfl
      show (w.rest.balance : Int) + w.vault.vaultDebtVal - w.vault.reservePool ≤
        w.rest.balance + w.vault.vaultDebtVal - (w.vault.reservePool - value : Nat)
      omega
  | transfer recipient amount =>
      simp only [call, ibTokenOp, bind_eq_ok, pure_eq_ok] at h
      obtain ⟨_, hop, rfl⟩ := h
      exact still rfl (Int.le_refl _) (ERC20.totalSupply_transfer hop)
  | transferFrom sender recipient amount =>
      simp only [call, ibTokenOp, bind_eq_ok, pure_eq_ok] at h
      obtain ⟨_, hop, rfl⟩ := h
      exact still rfl (Int.le_refl _) (ERC20.totalSupply_transferFrom hop)
  | approve spender amount =>
      simp only [call, ibTokenOp, bind_eq_ok, pure_eq_ok] at h
      obtain ⟨_, hop, rfl⟩ := h
      exact still rfl (Int.le_refl _) (ERC20.totalSupply_approve hop)
  | transferOwnership newOwner =>
      simp only [call, transferOwnership, bind_eq_ok, pure_eq_ok] at h
      obtain ⟨_, _, _, _, rfl⟩ := h
      exact still rfl (Int.le_refl _) rfl
  | renounceOwnership =>
      simp only [call, renounceOwnership, bind_eq_ok, pure_eq_ok] at h
      obtain ⟨_, _, rfl⟩ := h
      exact still rfl (Int.le_refl _) rfl

end Huski.Vault
