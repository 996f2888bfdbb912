import Huski.Vault.Run

/-!
# The debt ledger

The totals `vaultDebtShare` and `vaultDebtVal` with the positions' shares are a
balanced book of shares: accrual is a gain of its pool, `_addDebt` issues shares
to a position, `_removeDebt` redeems all a position holds. Every entry point is
one accrual followed by at most one redemption and one issue to the same
position, so the book stays balanced in every run and its price never falls,
except across a `work` that redeems the last shares and starts the pool again.
-/

open scoped BigOperators

namespace Huski.Vault

open Solidity

/-- The debt of the vault as a book of shares. -/
def debtBook (v : Storage) : SharePool.Book PositionId :=
  { pool := { value := v.vaultDebtVal, shares := v.vaultDebtShare }
    held := fun id => (v.positions id).debtShare }

/-! ## The conversions -/

/-- The value of a share is the book's, where the product fits. -/
theorem debtShareToVal_cases (v : Storage) (n : Nat) :
    debtShareToVal v n = .ok ((debtBook v).pool.toValue n) ∨
    debtShareToVal v n = .error "SafeMath: multiplication overflow" := by
  unfold debtShareToVal SharePool.toValue debtBook
  by_cases hs : v.vaultDebtShare = 0
  · simp [hs]
  · by_cases ho : n * v.vaultDebtVal < wordSize
    · simp [hs, SafeMath.mul, SafeMath.div, ho, bind, Except.bind]
    · simp [hs, SafeMath.mul, ho, bind, Except.bind]

theorem debtShareToVal_zero (v : Storage) : debtShareToVal v 0 = .ok 0 := by
  unfold debtShareToVal
  split
  · rfl
  · rename_i hs
    simp [SafeMath.mul, SafeMath.div, hs, wordSize, bind, Except.bind]

/-- The conversion reads the book alone. -/
theorem debtShareToVal_congr {v v' : Storage} (h : debtBook v = debtBook v') (n : Nat) :
    debtShareToVal v n = debtShareToVal v' n := by
  have hval : v.vaultDebtVal = v'.vaultDebtVal := congrArg (fun b => b.pool.value) h
  have hshare : v.vaultDebtShare = v'.vaultDebtShare := congrArg (fun b => b.pool.shares) h
  simp only [debtShareToVal, hval, hshare]

theorem debtShareToVal_eq_ok {v : Storage} {n x : Nat} (h : debtShareToVal v n = .ok x) :
    x = (debtBook v).pool.toValue n := by
  rcases debtShareToVal_cases v n with hc | hc <;> simp_all

/-- The shares of a value are the book's, where the product fits. -/
theorem debtValToShare_cases {v : Storage} (hv : v.vaultDebtVal = 0 → v.vaultDebtShare = 0)
    (n : Nat) :
    debtValToShare v n = .ok ((debtBook v).pool.toShares n) ∨
    debtValToShare v n = .error "SafeMath: multiplication overflow" := by
  unfold debtValToShare SharePool.toShares debtBook
  by_cases hs : v.vaultDebtShare = 0
  · simp [hs]
  · have hpos : v.vaultDebtVal ≠ 0 := fun h => hs (hv h)
    by_cases ho : n * v.vaultDebtShare < wordSize
    · simp [hs, hpos, SafeMath.mul, SafeMath.div, ho, bind, Except.bind]
    · simp [hs, SafeMath.mul, ho, bind, Except.bind]

theorem debtValToShare_eq_ok {v : Storage} {n x : Nat} (h : debtValToShare v n = .ok x) :
    x = (debtBook v).pool.toShares n := by
  unfold debtValToShare at h
  unfold SharePool.toShares debtBook
  split at h
  · rename_i hs
    simpa [hs] using (Except.ok.inj h).symm
  · rename_i hs
    simp only [bind_eq_ok, SafeMath.mul_eq_ok, SafeMath.div_eq_ok] at h
    obtain ⟨_, ⟨_, rfl⟩, _, rfl⟩ := h
    simp [hs]

/-! ## The operations on the book -/

/-- Writing a position's shares is an update of the book. -/
theorem setDebtShare_held (v : Storage) (id : PositionId) (share : Nat) :
    (fun i => ((v.setDebtShare id share).positions i).debtShare) =
      Function.update (fun i => (v.positions i).debtShare) id share := by
  funext i
  by_cases hi : i = id
  · subst hi
    simp [Storage.setDebtShare, Storage.setPosition]
  · simp [Storage.setDebtShare, Storage.setPosition, Function.update_of_ne hi]

theorem addDebt_book {id : PositionId} {debtVal : Nat} {v v' : Storage}
    (h : _addDebt id debtVal v = .ok v') :
    debtBook v' = (debtBook v).issueTo id debtVal := by
  obtain ⟨debtShare, hshare, rfl⟩ := addDebt_eq_ok h
  obtain rfl := debtValToShare_eq_ok hshare
  have hheld := setDebtShare_held v id
    ((v.positions id).debtShare + (debtBook v).pool.toShares debtVal)
  simp only [debtBook, SharePool.Book.issueTo, SharePool.issue] at hheld ⊢
  rw [← hheld]

/-- Removing a debt redeems all its shares. -/
theorem removeDebt_book {id : PositionId} {cleared : Nat} {v v' : Storage}
    (h : _removeDebt id v = .ok (cleared, v')) :
    cleared = (debtBook v).pool.toValue ((debtBook v).held id) ∧
      debtBook v' = (debtBook v).redeemAll id := by
  rcases removeDebt_eq_ok h with ⟨hz, rfl, rfl⟩ | ⟨_, hval, _, _, rfl⟩
  · -- nothing to clear: redeeming zero shares changes nothing
    have hnone : (debtBook v').pool.toValue 0 = 0 := by simp [SharePool.toValue]
    have hheld : (debtBook v').held id = 0 := hz
    refine ⟨by rw [hheld, hnone], ?_⟩
    simp only [SharePool.Book.redeemAll, SharePool.redeem, hheld, hnone, Nat.sub_zero]
    rw [← hheld, Function.update_eq_self]
  · obtain rfl := debtShareToVal_eq_ok hval
    refine ⟨rfl, ?_⟩
    have hheld := setDebtShare_held v id 0
    simp only [debtBook, SharePool.Book.redeemAll, SharePool.redeem] at hheld ⊢
    rw [← hheld]

/-! ## The ledger of positions -/

/-- What the vault records about the positions: the debt book, who owns each
position, and the identifier the next one gets. -/
structure Ledger where
  book : SharePool.Book PositionId
  owner : PositionId → Address
  next : PositionId

/-- The ledger of the stored positions. -/
def ledger (v : Storage) : Ledger :=
  { book := debtBook v
    owner := fun id => (v.positions id).owner
    next := v.nextPositionId }

/-- Interest accrues to the whole book. -/
def Ledger.gain (l : Ledger) (interest : Nat) : Ledger :=
  { l with book := l.book.gain interest }

/-- The position `work` is about: the given one, or the next one for id zero. -/
def Ledger.worked (l : Ledger) (id : PositionId) : PositionId := if id = 0 then l.next else id

/-- `sender` becomes the owner of the position worked. -/
def Ledger.select (l : Ledger) (id : PositionId) (sender : Address) : Ledger :=
  { l with
    owner := Function.update l.owner (l.worked id) sender
    next := if id = 0 then l.next + 1 else l.next }

/-- Redeem the shares of a position. -/
def Ledger.close (l : Ledger) (id : PositionId) : Ledger := { l with book := l.book.redeemAll id }

/-- Issue shares to a position. -/
def Ledger.borrow (l : Ledger) (id : PositionId) (debt : Nat) : Ledger :=
  { l with book := l.book.issueTo id debt }

@[simp] theorem ledger_setNotEntered (v : Storage) (b : Bool) :
    ledger (v.setNotEntered b) = ledger v := rfl
@[simp] theorem ledger_setInExecLock (v : Storage) (b : ExecLock) :
    ledger (v.setInExecLock b) = ledger v := rfl
@[simp] theorem ledger_setIbToken (v : Storage) (t : ERC20) :
    ledger (v.setIbToken t) = ledger v := rfl
@[simp] theorem ledger_setReservePool (v : Storage) (n : Nat) :
    ledger (v.setReservePool n) = ledger v := rfl

/-- Positions that differ in neither owner nor shares leave the ledger as it is. -/
theorem ledger_setPosition {v : Storage} {id : PositionId} {pos : Position}
    (howner : pos.owner = (v.positions id).owner)
    (hshare : pos.debtShare = (v.positions id).debtShare) :
    ledger (v.setPosition id pos) = ledger v := by
  simp only [ledger, debtBook, Storage.setPosition]
  congr 2
  · funext i
    by_cases hi : i = id <;> simp [hi, hshare]
  · funext i
    by_cases hi : i = id <;> simp [hi, howner]

/-- Writing a position's shares leaves the owners. -/
theorem setDebtShare_owner (v : Storage) (id : PositionId) (share : Nat) (i : PositionId) :
    ((v.setDebtShare id share).positions i).owner = (v.positions i).owner := by
  by_cases hi : i = id <;> simp [Storage.setDebtShare, Storage.setPosition, hi]

theorem addDebt_ledger {id : PositionId} {debtVal : Nat} {v v' : Storage}
    (h : _addDebt id debtVal v = .ok v') : ledger v' = (ledger v).borrow id debtVal := by
  have hbook := addDebt_book h
  obtain ⟨_, _, rfl⟩ := addDebt_eq_ok h
  simp only [ledger, Ledger.borrow, hbook, setDebtShare_owner]
  rfl

theorem removeDebt_ledger {id : PositionId} {cleared : Nat} {v v' : Storage}
    (h : _removeDebt id v = .ok (cleared, v')) : ledger v' = (ledger v).close id := by
  have hbook := (removeDebt_book h).2
  rcases removeDebt_eq_ok h with ⟨_, _, rfl⟩ | ⟨_, _, _, _, rfl⟩
  · simp only [ledger, Ledger.close, ← hbook]
  · simp only [ledger, Ledger.close, hbook, setDebtShare_owner]
    rfl

/-- A new position is opened for the sender. -/
theorem newPosition_ledger (msg : Msg) (worker : Address) (v : Storage) :
    ledger (newPosition msg worker v) = (ledger v).select 0 msg.sender := by
  simp only [ledger, debtBook, newPosition, Ledger.select, Ledger.worked, if_true]
  congr 2
  · funext i
    by_cases hi : i = v.nextPositionId <;> simp [hi]
  · funext i
    by_cases hi : i = v.nextPositionId <;> simp [hi]

section Entry

variable {F : Type} {ext : Externals F} {msg : Msg} {w w' : World F}

/-- Interest is a gain of all debtors' shares. -/
theorem accrual_ledger {interest toReserve now : Nat}
    (h : Accrual ext w w' interest toReserve now) :
    ledger w'.vault = (ledger w.vault).gain interest := by
  rw [h.world]
  rfl

/-- What a transaction does to the ledger after its accrual: nothing, one
position closed, or one position closed and opened again by its owner. -/
inductive LedgerStep (sender : Address) (c : Call) (l l' : Ledger) : Prop
  | keep (h : l' = l)
  | kill (id : PositionId) (hc : c = .kill id) (h : l' = l.close id)
  | work (id : PositionId) (worker : Address) (principalAmount loan maxReturn : Nat)
      (data : WorkData) (debt : Nat)
      (hc : c = .work id worker principalAmount loan maxReturn data)
      (howner : id ≠ 0 → l.owner id = sender)
      (h : l' = ((l.select id sender).close (l.worked id)).borrow (l.worked id) debt)

variable (hext : ext.Within SameVault)
include hext

/-- A work names a position of its sender, or opens one. -/
theorem selectPosition_ledger {id id' : PositionId} {worker : Address}
    (h : selectPosition ext msg id worker w = .ok (id', w')) :
    id' = (ledger w.vault).worked id ∧ (id ≠ 0 → (ledger w.vault).owner id = msg.sender) ∧
    ledger w'.vault = (ledger w.vault).select id msg.sender := by
  unfold selectPosition at h
  split at h
  · rename_i hz
    cases h
    subst hz
    exact ⟨rfl, fun hne => absurd rfl hne, newPosition_ledger msg worker w.vault⟩
  · rename_i hne
    simp only [bind_eq_ok, require_eq_ok, pure_eq_ok, Prod.mk.injEq] at h
    obtain ⟨_, _, _, _, _, howner, w₁, hstake, rfl, rfl⟩ := h
    have hsame : w₁.vault = w.vault :=
      fairLaunchWithdraw_within SameVault.refl SameVault.trans hext hstake
    have howner : (ledger w.vault).owner id = msg.sender := howner
    refine ⟨by simp [Ledger.worked, hne], fun _ => howner, ?_⟩
    rw [hsame]
    simp only [Ledger.select, Ledger.worked, hne, if_false, ← howner,
      Function.update_eq_self]

theorem updateDebt_ledger {id : PositionId} {worker : Address} {debt : Nat}
    (h : updateDebt ext id worker debt w = .ok w') :
    ledger w'.vault = (ledger w.vault).borrow id debt := by
  unfold updateDebt at h
  split at h
  · simp only [bind_eq_ok] at h
    obtain ⟨_, _, _, _, _, _, _, _, _, _, _, _, v, hadd, hstake⟩ := h
    have hsame : w'.vault = v :=
      fairLaunchDeposit_within SameVault.refl SameVault.trans hext hstake
    rw [hsame, addDebt_ledger hadd]
  · cases h
    have hzero : debt = 0 := by omega
    rw [hzero, Ledger.borrow, SharePool.Book.issueTo_zero]

/-- The worker leaves the storage as `_removeDebt` left it. -/
theorem WorkRun.worked_vault {id : PositionId} {worker : Address}
    {principalAmount loan maxReturn : Nat} {data : WorkData}
    (r : WorkRun ext msg id worker principalAmount loan maxReturn data w w') :
    r.worked.vault = r.debtless := by
  have hsame : SameVault _ r.worked := performWork_within SameVault.trans hext r.perform
  exact hsame

/-- A work closes the position's debt and borrows what is left. -/
theorem work_ledger {id : PositionId} {worker : Address}
    {principalAmount loan maxReturn : Nat} {data : WorkData}
    (h : _work ext msg id worker principalAmount loan maxReturn data w = .ok w') :
    LedgerStep msg.sender (.work id worker principalAmount loan maxReturn data)
      (ledger w.vault) (ledger w'.vault) := by
  obtain ⟨r⟩ := work_run h
  obtain ⟨hid, howner, hselect⟩ := selectPosition_ledger hext r.select
  have hclear : ledger r.debtless = ((ledger w.vault).select id msg.sender).close r.id' := by
    rw [removeDebt_ledger r.clear, ← hselect]
    rfl
  have hworked := r.worked_vault hext
  have hgive : r.returned.vault = r.owing.vault :=
    returnExcess_within SameVault.refl SameVault.trans hext r.give
  have hexit : ledger w'.vault = ledger r.returned.vault := by
    have hw := congrArg (fun w : World F => ledger w.vault) r.exit
    exact hw
  refine .work id worker principalAmount loan maxReturn data
    (r.debt - min r.debt (min r.back maxReturn)) rfl howner ?_
  rw [hexit, hgive, updateDebt_ledger hext r.update, hworked, hclear, hid]

/-- A kill closes the position's debt. -/
theorem kill_ledger {id : PositionId} (h : _kill ext msg id w = .ok w') :
    ledger w'.vault = (ledger w.vault).close id := by
  obtain ⟨r⟩ := kill_run h
  have hstake : r.withdrawn.vault = w.vault :=
    fairLaunchWithdraw_within SameVault.refl SameVault.trans hext r.unstake
  have hliq : r.liquidated.vault = r.debtless := hext.workerLiquidate r.liquidate
  have hpay : r.paid.vault = r.liquidated.vault :=
    sendPositive_within SameVault.refl SameVault.trans hext r.pay
  have hgive : w'.vault = r.paid.vault :=
    sendPositive_within SameVault.refl SameVault.trans hext r.give
  rw [hgive, hpay, hliq, removeDebt_ledger r.clear, hstake]

/-- Every entry point is one accrual and one step on the ledger. -/
theorem call_ledger {c : Call} (h : call ext msg c w = .ok w') :
    ∃ interest, (w.vault.vaultDebtVal = 0 → interest = 0) ∧
      LedgerStep msg.sender c ((ledger w.vault).gain interest) (ledger w'.vault) := by
  -- calls that leave the debts alone
  have still : ledger w'.vault = ledger w.vault → ∃ interest,
      (w.vault.vaultDebtVal = 0 → interest = 0) ∧
        LedgerStep msg.sender c ((ledger w.vault).gain interest) (ledger w'.vault) :=
    fun heq => ⟨0, fun _ => rfl, .keep heq⟩
  cases c with
  | deposit amountToken =>
      obtain ⟨w₁, w₂, hpull, hacc, hbody⟩ := deposit_eq_ok h
      have hpull : w₁.vault = w.vault := transferTokenToVault_within hext hpull
      obtain ⟨interest, _, _, hacc⟩ := accrue_eq_ok hacc
      obtain ⟨_, w₃, hdep, rfl⟩ := nonReentrant_eq_ok hbody
      simp only [_deposit, bind_eq_ok, pure_eq_ok] at hdep
      obtain ⟨_, _, _, _, _, _, _, _, _, _, rfl⟩ := hdep
      refine ⟨interest, hpull ▸ hacc.noDebt, .keep ?_⟩
      rw [← hpull, ← accrual_ledger hacc]
      rfl
  | withdraw share =>
      obtain ⟨w₁, hacc, hbody⟩ := withdraw_eq_ok h
      obtain ⟨interest, _, _, hacc⟩ := accrue_eq_ok hacc
      obtain ⟨_, w₂, hwith, rfl⟩ := nonReentrant_eq_ok hbody
      simp only [_withdraw, bind_eq_ok, pure_eq_ok] at hwith
      obtain ⟨_, _, _, _, _, _, _, _, w₃, hsend, _, _, rfl⟩ := hwith
      have hsend : SameVault _ w₃ := smartSafeTransfer_within SameVault.trans hext hsend
      refine ⟨interest, hacc.noDebt, .keep ?_⟩
      rw [← accrual_ledger hacc]
      have hledger := congrArg ledger hsend
      exact hledger
  | requestFunds targetedToken amount =>
      simp only [call, requestFunds, inExec, bind_eq_ok, pure_eq_ok] at h
      obtain ⟨_, _, _, _, _, _, _, ⟨w₁, hpull, rfl⟩, rfl⟩ := h
      have hpull : SameVault _ w₁ := hext.safeTransferFrom hpull
      have hledger := congrArg ledger hpull
      exact still hledger
  | injectSerialCode serialCode =>
      simp only [call, injectSerialCode, inExec, bind_eq_ok, Except.ok.injEq,
        pure_eq_ok] at h
      obtain ⟨_, _, _, _, _, _, _, rfl, rfl⟩ := h
      have hledger : ledger (w.vault.setPosition w.vault.positionId
          { w.vault.positions w.vault.positionId with serialCode }) = ledger w.vault :=
        ledger_setPosition rfl rfl
      exact still hledger
  -- the two that change them settle the interest first
  | work id worker principalAmount loan maxReturn data =>
      obtain ⟨_, w₁, w₂, hpull, hacc, hbody⟩ := work_eq_ok h
      have hpull : w₁.vault = w.vault := transferTokenToVault_within hext hpull
      obtain ⟨interest, _, _, hacc⟩ := accrue_eq_ok hacc
      obtain ⟨_, w₃, hwork, rfl⟩ := nonReentrant_eq_ok hbody
      refine ⟨interest, hpull ▸ hacc.noDebt, ?_⟩
      rw [← hpull, ← accrual_ledger hacc]
      have hledger := work_ledger hext hwork
      exact hledger
  | kill id =>
      obtain ⟨_, w₁, hacc, hbody⟩ := kill_eq_ok h
      obtain ⟨interest, _, _, hacc⟩ := accrue_eq_ok hacc
      obtain ⟨_, w₂, hkill, rfl⟩ := nonReentrant_eq_ok hbody
      refine ⟨interest, hacc.noDebt, .kill id rfl ?_⟩
      rw [← accrual_ledger hacc]
      have hledger := kill_ledger hext hkill
      exact hledger
  -- the owner's setters and the calls of the share token
  | updateConfig config =>
      simp only [call, updateConfig, bind_eq_ok, pure_eq_ok] at h
      obtain ⟨_, _, rfl⟩ := h
      exact still rfl
  | updateDebtToken debtToken newPid =>
      simp only [call, updateDebtToken, bind_eq_ok] at h
      obtain ⟨_, _, _, _, w₁, hholders, happrove⟩ := h
      have hholders : SameVault _ w₁ := hext.debtTokenSetOkHolders hholders
      have happrove : SameVault _ w' := hext.safeApprove happrove
      have hledger := congrArg ledger happrove
      have hkept := congrArg ledger hholders
      exact still (hledger.trans hkept)
  | setFairLaunchPoolId poolId =>
      simp only [call, setFairLaunchPoolId, bind_eq_ok, pure_eq_ok] at h
      obtain ⟨_, _, w₁, happrove, rfl⟩ := h
      have happrove : SameVault _ w₁ := hext.safeApprove happrove
      have hledger := congrArg ledger happrove
      exact still hledger
  | withdrawReserve recipient value =>
      simp only [call, withdrawReserve, bind_eq_ok] at h
      obtain ⟨_, _, hbody⟩ := h
      obtain ⟨_, w₁, hsend, rfl⟩ := nonReentrant_eq_ok hbody
      simp only [bind_eq_ok] at hsend
      obtain ⟨_, _, hsend⟩ := hsend
      have hsend : SameVault _ w₁ := hext.safeTransfer hsend
      have hledger := congrArg ledger hsend
      exact still hledger
  | reduceReserve value =>
      simp only [call, reduceReserve, bind_eq_ok, pure_eq_ok] at h
      obtain ⟨_, _, _, _, rfl⟩ := h
      exact still rfl
  | transfer recipient amount | transferFrom sender recipient amount
  | approve spender amount =>
      simp only [call, ibTokenOp, bind_eq_ok, pure_eq_ok] at h
      obtain ⟨_, _, rfl⟩ := h
      exact still rfl
  | transferOwnership newOwner =>
      simp only [call, transferOwnership, bind_eq_ok, pure_eq_ok] at h
      obtain ⟨_, _, _, _, rfl⟩ := h
      exact still rfl
  | renounceOwnership =>
      simp only [call, renounceOwnership, bind_eq_ok, pure_eq_ok] at h
      obtain ⟨_, _, rfl⟩ := h
      exact still rfl

end Entry

/-! ## Every run -/

section Runs

variable {G : Type} {self : Address} {w w' : World (Books G)}

theorem debtBook_init {msg : Msg} {config token debtToken : Address} :
    (debtBook (initStorage msg config token debtToken)).Balanced := by
  refine ⟨?_, SharePool.sound_empty⟩
  simp [debtBook, initStorage]

theorem LedgerStep.balanced {sender : Address} {c : Call} {l l' : Ledger}
    (h : LedgerStep sender c l l') (hb : l.book.Balanced) : l'.book.Balanced := by
  cases h with
  | keep h => exact h ▸ hb
  | kill id _ h => exact h ▸ hb.redeemAll id
  | work id _ _ _ _ _ debt _ _ h => exact h ▸ (hb.redeemAll _).issueTo _ debt

/-- The book is balanced in every state of every run. -/
theorem debtBook_balanced : (machine G self).Inductive (fun _ _ => True)
    fun w => (debtBook w.vault).Balanced where
  init := by
    rintro w ⟨⟨msg, config, token, debtToken, hv⟩, -⟩
    exact hv ▸ debtBook_init
  step w tx w' hb _ hstep := by
    obtain ⟨interest, hnone, hledger⟩ := call_ledger (externals_sameVault tx.outcome) hstep
    exact hledger.balanced (hb.gain hnone)

/-- A transaction keeps the price up while shares stay outstanding; only a `work`
on the holder of all of them starts the pool again, at one unit a share. -/
theorem LedgerStep.price {sender : Address} {c : Call} {l l' : Ledger}
    (h : LedgerStep sender c l l') (hb : l.book.Balanced) :
    SharePool.PriceLE l.book.pool l'.book.pool ∨
    ∃ id worker principalAmount loan maxReturn data,
      c = .work id worker principalAmount loan maxReturn data ∧
      l.book.held (l.worked id) = l.book.pool.shares ∧
      l'.book.pool.value = l'.book.pool.shares := by
  cases h with
  | keep h => exact .inl (h ▸ SharePool.PriceLE.refl _)
  | kill id _ h => exact .inl (h ▸ hb.price_redeemAll id)
  | work id worker principalAmount loan maxReturn data debt hc _ h =>
      subst h
      rcases (hb.held_le (l.worked id)).lt_or_eq with hlt | hall
      · exact .inl (hb.price_reissue hlt debt)
      · exact .inr ⟨id, worker, principalAmount, loan, maxReturn, data, hc, hall,
          hb.restart hall debt⟩

/-- Every rounded debt, together, against the debt of the vault. -/
theorem worth_bounds {v : Storage} (hb : (debtBook v).Balanced) {worth : PositionId → Nat}
    (hworth : ∀ id, debtShareToVal v (v.positions id).debtShare = .ok (worth id)) :
    ∑ id, worth id ≤ v.vaultDebtVal ∧
    v.vaultDebtVal ≤ (∑ id, worth id) +
      (Finset.univ.filter fun id => (v.positions id).debtShare ≠ 0).card := by
  have heq : worth = fun id => (debtBook v).pool.toValue ((debtBook v).held id) := by
    funext id
    exact debtShareToVal_eq_ok (hworth id)
  rw [heq]
  exact ⟨SharePool.sum_toValue_le hb.total, SharePool.value_le_sum_toValue hb.sound hb.total⟩

theorem debtShareToVal_ne_divByZero (v : Storage) (n : Nat) :
    debtShareToVal v n ≠ .error "SafeMath: division by zero" := by
  rcases debtShareToVal_cases v n with h | h <;> rw [h] <;> simp

theorem debtValToShare_ne_divByZero {v : Storage} (hb : (debtBook v).Balanced) (n : Nat) :
    debtValToShare v n ≠ .error "SafeMath: division by zero" := by
  have hzero : v.vaultDebtVal = 0 → v.vaultDebtShare = 0 := hb.sound.shares_eq_zero_iff.mpr
  rcases debtValToShare_cases hzero n with h | h <;> rw [h] <;> simp

/-- Account 50 lends, opens the only position for half of it, and lends again
after the debt has doubled. -/
def soleDebtor : List (Tx Unit 100) :=
  [ownerTx 0 (.pays 0 0 0) (.setFairLaunchPoolId 0),
   ownerTx 0 (.pays 0 0 0) (.deposit (10 ^ 18)),
   ownerTx 0 (.pays 0 0 (10 ^ 18)) (.work 0 7 0 (5 * 10 ^ 17) 0 { strategy := 8, ext := [] }),
   ownerTx 1 (.pays (10 ^ 18) 0 0) (.deposit (10 ^ 18))]

/-- The debt ledger of every reachable state, and the debt price across every
transaction from it. -/
theorem debtLedger_of_reachable (hreach : (machine G self).Reachable w) :
    (∑ id, (w.vault.positions id).debtShare = w.vault.vaultDebtShare) ∧
    w.vault.vaultDebtShare ≤ w.vault.vaultDebtVal ∧
    (w.vault.vaultDebtShare = 0 ↔ w.vault.vaultDebtVal = 0) ∧
    (∀ n, debtShareToVal w.vault n ≠ .error "SafeMath: division by zero" ∧
      debtValToShare w.vault n ≠ .error "SafeMath: division by zero") ∧
    (∀ worth : PositionId → Nat,
      (∀ id, debtShareToVal w.vault (w.vault.positions id).debtShare = .ok (worth id)) →
      ∑ id, worth id ≤ w.vault.vaultDebtVal ∧
      w.vault.vaultDebtVal ≤ (∑ id, worth id) +
        (Finset.univ.filter fun id => (w.vault.positions id).debtShare ≠ 0).card) ∧
    ∀ (tx : Tx G self) (w' : World (Books G)), exec self w tx = .ok w' →
      0 < w.vault.vaultDebtShare →
      w.vault.vaultDebtVal * w'.vault.vaultDebtShare ≤
        w'.vault.vaultDebtVal * w.vault.vaultDebtShare ∨
      ∃ id worker principalAmount loan maxReturn data,
        tx.call = .work id worker principalAmount loan maxReturn data ∧
        (w.vault.positions ((ledger w.vault).worked id)).debtShare = w.vault.vaultDebtShare ∧
        w'.vault.vaultDebtVal = w'.vault.vaultDebtShare := by
  have hb : (debtBook w.vault).Balanced := debtBook_balanced.invariant hreach
  refine ⟨hb.total, hb.sound.backed, hb.sound.shares_eq_zero_iff, fun n => ?_,
    fun worth hworth => ?_,
    fun tx w' hstep hpos => ?_⟩
  · exact ⟨debtShareToVal_ne_divByZero _ n, debtValToShare_ne_divByZero hb n⟩
  · exact worth_bounds hb hworth
  · obtain ⟨interest, hnone, hledger⟩ := call_ledger (externals_sameVault tx.outcome) hstep
    have hgain := SharePool.priceLE_gain (debtBook w.vault).pool interest
    rcases hledger.price (hb.gain hnone) with hprice | hwork
    · exact .inl (hgain.trans hprice hpos)
    · exact .inr hwork

theorem debtLedger_of_soleDebtor : ∃ w : World (Books Unit),
    w.vault.vaultDebtShare = 5 * 10 ^ 17 ∧ w.vault.vaultDebtVal = 10 ^ 18 ∧
    (∑ id, (w.vault.positions id).debtShare) = 5 * 10 ^ 17 := by
  have htest : (machine Unit 100).lastStep (freshWorld ()) soleDebtor
      (ownerTx 1 (.pays 0 0 0) (.reduceReserve 0)) (fun w _ =>
        decide (w.vault.vaultDebtShare = 5 * 10 ^ 17 ∧ w.vault.vaultDebtVal = 10 ^ 18)) =
      true := by
    decide +kernel
  obtain ⟨w, _, hreach, _, hdebt⟩ := TSys.lastStep_reachable (freshWorld_init ()) htest
  obtain ⟨hshare, hval⟩ := of_decide_eq_true hdebt
  exact ⟨w, hshare, hval, (debtLedger_of_reachable hreach).1.trans hshare⟩

/-- The debt price of `w'` is below that of `w`, and both have shares. -/
def priceFell (w w' : World (Books G)) : Bool :=
  decide (0 < w.vault.vaultDebtShare ∧ 0 < w'.vault.vaultDebtShare ∧
    w'.vault.vaultDebtVal * w.vault.vaultDebtShare <
      w.vault.vaultDebtVal * w'.vault.vaultDebtShare)

/-- Working the only position in debt takes the debt price from two to one. -/
theorem debtPrice_falls : ∃ (w w' : World (Books Unit)) (tx : Tx Unit 100),
    (machine Unit 100).Reachable w ∧ exec 100 w tx = .ok w' ∧
    0 < w.vault.vaultDebtShare ∧ 0 < w'.vault.vaultDebtShare ∧
    w'.vault.vaultDebtVal * w.vault.vaultDebtShare <
      w.vault.vaultDebtVal * w'.vault.vaultDebtShare := by
  let tx : Tx Unit 100 :=
    ownerTx 1 (.pays 0 0 (10 ^ 20)) (.work 1 7 0 0 0 { strategy := 8, ext := [] })
  have htest : (machine Unit 100).lastStep (freshWorld ()) soleDebtor tx priceFell = true := by
    decide +kernel
  obtain ⟨w, w', hreach, hstep, hfell⟩ := TSys.lastStep_reachable (freshWorld_init ()) htest
  exact ⟨w, w', tx, hreach, hstep, of_decide_eq_true hfell⟩

end Runs

end Huski.Vault
