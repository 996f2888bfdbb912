import Huski.Vault.CashFlow

/-!
# The price of the lenders' shares

`totalToken / totalSupply` never falls but by a `kill` that returns less than the
debt, and then by exactly what is missing. Each payment and each issue of shares
rounds for the pool; a close prize stays with the lenders, since `work` computes
its credit to the reserve and drops it.
-/

namespace Huski.Vault

open Solidity

variable {G : Type} {self : Address} {w w' : World (Books G)} {tx : Tx G self}

/-! ## Owners of positions in debt -/

/-- No position in debt belongs to the vault itself. -/
def Ledger.OwnersApart (self : Address) (l : Ledger) : Prop :=
  ∀ id, 0 < l.book.held id → l.owner id ≠ self

theorem LedgerStep.ownersApart {sender : Address} {c : Call} {l l' : Ledger}
    (h : LedgerStep sender c l l') (hsender : sender ≠ self) (hl : l.OwnersApart self) :
    l'.OwnersApart self := by
  cases h with
  | keep h => exact h ▸ hl
  | kill id _ h =>
      subst h
      intro i hi
      by_cases hid : i = id
      · subst hid
        simp [Ledger.close, SharePool.Book.redeemAll] at hi
      · exact hl i (by simpa [Ledger.close, SharePool.Book.redeemAll, hid] using hi)
  | work id _ _ _ _ _ debt _ _ h =>
      subst h
      intro i hi
      by_cases hid : i = l.worked id
      · simpa [Ledger.borrow, Ledger.close, Ledger.select, hid] using hsender
      · simp only [Ledger.borrow, Ledger.close, Ledger.select, SharePool.Book.redeemAll,
          SharePool.Book.issueTo, Function.update_of_ne hid] at hi ⊢
        exact hl i hi

/-- The vault owns no position in any state of a run. -/
theorem ownersApart_inductive : (machine G self).Inductive (fun _ _ => True)
    fun w => (ledger w.vault).OwnersApart self where
  init := by
    rintro w ⟨⟨msg, config, token, debtToken, hv⟩, -⟩ i hi
    simp [hv, ledger, debtBook, initStorage] at hi
  step w tx w' hl _ hstep := by
    obtain ⟨interest, _, hledger⟩ := call_ledger (externals_sameVault tx.outcome) hstep
    exact hledger.ownersApart tx.external hl

/-- What one transaction from a reachable state moves. -/
theorem exec_cash (hreach : (machine G self).Reachable w) (hstep : exec self w tx = .ok w') :
    ∃ settled, settle (tx.outcome.externals self) tx.msg tx.call w = .ok settled ∧
      CashStep tx.outcome tx.msg tx.call settled w' :=
  call_cash tx.external (ownersApart_inductive.invariant hreach) hstep

/-! ## The price -/

/-- The share price, cross-multiplied over the integers. -/
def Cash.PriceLE (k k' : Cash) : Prop := k.lenders * k'.supply ≤ k'.lenders * k.supply

theorem Cash.PriceLE.of_supply {k k' : Cash} (hlenders : k.lenders ≤ k'.lenders)
    (hsupply : k'.supply = k.supply) : k.PriceLE k' := by
  unfold Cash.PriceLE
  rw [hsupply]
  exact Int.mul_le_mul_of_nonneg_right hlenders (Int.natCast_nonneg _)

theorem DepositFlow.price {amountToken total : Nat} (h : DepositFlow amountToken w w' total) :
    (cash w).PriceLE (cash w') := by
  unfold Cash.PriceLE
  rw [h.lenders, h.supply, ← h.total_eq]
  split
  · rename_i hempty
    subst hempty
    have : (0 : Int) ≤ amountToken * (cash w).supply := by positivity
    simpa using this
  · exact_mod_cast SharePool.price_mint_le total (cash w).supply amountToken

/-- No more shares are burned than there are. -/
theorem WithdrawFlow.share_le {share total : Nat} (h : WithdrawFlow share w w' total) :
    share ≤ (cash w).supply := by
  have := h.shares
  omega

/-- A withdrawal pays no more than there is. -/
theorem WithdrawFlow.pays_le {share total : Nat} (h : WithdrawFlow share w w' total) :
    share * total / (cash w).supply ≤ total :=
  Nat.div_le_of_le_mul (Nat.mul_le_mul_right total h.share_le)

theorem WithdrawFlow.price {share total : Nat} (h : WithdrawFlow share w w' total) :
    (cash w).PriceLE (cash w') := by
  unfold Cash.PriceLE
  have hburn : total * ((cash w).supply - share) ≤
      (total - share * total / (cash w).supply) * (cash w).supply :=
    SharePool.price_burn_le h.share_le
  have hpays := h.pays_le
  have hsupply : (cash w').supply = (cash w).supply - share := by
    have := h.shares
    omega
  have hlenders : (cash w').lenders = (total - share * total / (cash w).supply : Nat) := by
    have := h.lenders
    have := h.total_eq
    omega
  rw [hlenders, hsupply, ← h.total_eq]
  exact_mod_cast hburn

theorem CashStep.price {o : Outcome G} {msg : Msg} {c : Call} (h : CashStep o msg c w w')
    (hkill : ∀ id, c ≠ .kill id) : (cash w).PriceLE (cash w') := by
  cases h with
  | deposit h => exact h.price
  | withdraw h => exact h.price
  | work h =>
      refine .of_supply ?_ h.supply
      have := h.lenders
      omega
  | kill h => exact absurd rfl (hkill _)
  | keep _ hlenders hsupply => exact .of_supply hlenders hsupply

theorem accrue_price {o : Outcome G} {msg : Msg} {value : Nat}
    (hbps : o.config.getReservePoolBps ≤ 10000)
    (h : accrue (o.externals self) msg value w = .ok w') : (cash w).PriceLE (cash w') :=
  .of_supply (accrue_lenders hbps h).1 (accrue_lenders hbps h).2

/-- What the vault keeps of a liquidation's proceeds. -/
theorem KillFlow.retained {o : Outcome G} {msg : Msg} {id : PositionId} {debt : Nat}
    (h : KillFlow o msg id w w' debt) :
    ∃ retained, (cash w').balance = (cash w).balance + retained ∧
      killPrize o.config o.returned + (o.returned - killPrize o.config o.returned - debt) +
        retained = o.returned := by
  have hprize := h.prize_le
  have hbalance := h.balance
  exact ⟨min (o.returned - killPrize o.config o.returned) debt, by omega, by omega⟩

/-- From every reachable state: accrual does not lower the share price; nor does any
transaction but `kill`, from its accrual on; and `kill` takes from the lenders
exactly the debt the proceeds do not cover, and pays out exactly the rest. -/
theorem sharePrice_of_reachable (hreach : (machine G self).Reachable w)
    (hreserve : tx.outcome.config.getReservePoolBps ≤ 10000)
    (hstep : exec self w tx = .ok w') :
    (∀ value w₁, accrue (tx.outcome.externals self) tx.msg value w = .ok w₁ →
      (cash w).lenders * (cash w₁).supply ≤ (cash w₁).lenders * (cash w).supply) ∧
    ∃ settled, settle (tx.outcome.externals self) tx.msg tx.call w = .ok settled ∧
      ((∀ id, tx.call ≠ .kill id) →
        (cash settled).lenders * (cash w').supply ≤
          (cash w').lenders * (cash settled).supply) ∧
      ∀ id, tx.call = .kill id → ∃ debt prize left retained : Nat,
        debtShareToVal settled.vault (settled.vault.positions id).debtShare = .ok debt ∧
        prize = tx.outcome.returned * tx.outcome.config.getKillBps / 10000 ∧
        left = tx.outcome.returned - prize - debt ∧
        prize + left + retained = tx.outcome.returned ∧
        (cash w').balance = (cash settled).balance + retained ∧
        (∀ a, paidTo tx.outcome.config w' a = paidTo tx.outcome.config settled a +
          (if a = tx.msg.sender then prize else 0) +
          (if a = (settled.vault.positions id).owner then left else 0)) ∧
        (cash w').lenders = (cash settled).lenders -
          max 0 ((debt : Int) - (tx.outcome.returned - prize)) := by
  obtain ⟨settled, hsettle, hcash⟩ := exec_cash hreach hstep
  refine ⟨fun value w₁ hacc => accrue_price hreserve hacc, settled, hsettle, hcash.price,
    fun id hid => ?_⟩
  rw [hid] at hcash
  obtain ⟨debt, hflow⟩ : ∃ debt, KillFlow tx.outcome tx.msg id settled w' debt := by
    cases hcash with
    | kill h => exact ⟨_, h⟩
    | keep hc => simp [Call.accrues] at hc
  obtain ⟨retained, hbalance, hsum⟩ := hflow.retained
  exact ⟨debt, _, _, retained, hflow.debt_eq, rfl, rfl, hsum, hbalance, hflow.received,
    hflow.lenders⟩

/-- Account 50 has its own position, worth nothing, liquidated for half its debt. -/
def killSoleDebtor : Tx Unit 100 := ownerTx 1 (.pays 0 (5 * 10 ^ 17) 0) (.kill 1)

theorem sharePrice_of_killSoleDebtor : ∃ w w' settled : World (Books Unit), ∃ debt : Nat,
    exec 100 w killSoleDebtor = .ok w' ∧
    debtShareToVal settled.vault (settled.vault.positions 1).debtShare = .ok debt ∧
    (cash w').lenders = (cash settled).lenders -
      max 0 ((debt : Int) - (5 * 10 ^ 17 - 5 * 10 ^ 15)) := by
  have htest : (machine Unit 100).lastStep (freshWorld ()) soleDebtor killSoleDebtor
      (fun _ _ => true) = true := by
    decide +kernel
  obtain ⟨w, w', hreach, hstep, _⟩ := TSys.lastStep_reachable (freshWorld_init ()) htest
  have hstep : exec 100 w killSoleDebtor = .ok w' := hstep
  obtain ⟨_, settled, _, _, hkill⟩ := sharePrice_of_reachable hreach (by decide) hstep
  obtain ⟨debt, prize, _, _, hdebt, hprize, _, _, _, _, hlenders⟩ := hkill 1 rfl
  have hprize : prize = 5 * 10 ^ 15 := hprize
  rw [hprize] at hlenders
  exact ⟨w, w', settled, debt, hstep, hdebt, hlenders⟩

/-! ## The close prize -/

/-- What a worker pays back beyond the settled debt of the position and the new
loan, and beyond what the user lets it return. -/
def excessReturn {F : Type} (ext : Externals F) (msg : Msg) (id : PositionId)
    (loan maxReturn back : Nat) (w : World F) : Result Nat := do
  let settled ← accrue ext msg 0 w
  let cleared ← debtShareToVal settled.vault
    (settled.vault.positions ((ledger settled.vault).worked id)).debtShare
  let debt := cleared + loan
  return back - min debt (min back maxReturn)

/-- A withheld prize is in the reserve, and none of it with the lenders. -/
def PrizeCredited (settled w' : World (Books G)) (prize : Nat) : Prop :=
  0 < prize → w'.vault.reservePool = settled.vault.reservePool + prize ∧
    (cash w').lenders = (cash settled).lenders

/-- A work adds the prize to what the lenders own, and nothing to the reserve. -/
theorem work_prize {id : PositionId} {worker : Address} {principalAmount loan maxReturn : Nat}
    {data : WorkData} (hcall : tx.call = .work id worker principalAmount loan maxReturn data)
    (hstep : exec self w tx = .ok w') :
    ∃ settled excess, settle (tx.outcome.externals self) tx.msg tx.call w = .ok settled ∧
      excessReturn (tx.outcome.externals self) tx.msg id loan maxReturn tx.outcome.returned w =
        .ok excess ∧
      (cash w').lenders = (cash settled).lenders + closePrize tx.outcome.config excess ∧
      w'.vault.reservePool = settled.vault.reservePool := by
  simp only [exec, hcall, call] at hstep
  obtain ⟨settled, debt, hsettle, ⟨cleared, hcleared, hdebt⟩, hlenders, hreserve, _⟩ :=
    work_flow tx.external hstep
  refine ⟨settled, tx.outcome.returned - min debt (min tx.outcome.returned maxReturn),
    ?_, ?_, ?_, hreserve⟩
  · rw [hcall]
    exact hsettle
  · simp only [excessReturn, bind_eq_ok, pure_eq_ok]
    exact ⟨settled, hsettle, cleared, hcleared, hdebt ▸ rfl⟩
  · simpa using hlenders

/-- A `work` credits its close prize only when there is none to credit: the sum of
`reservePool` and the prize is computed and not stored. -/
theorem prizeCredited_iff {id : PositionId} {worker : Address}
    {principalAmount loan maxReturn : Nat} {data : WorkData}
    (hcall : tx.call = .work id worker principalAmount loan maxReturn data)
    (hstep : exec self w tx = .ok w') :
    ∃ settled excess, settle (tx.outcome.externals self) tx.msg tx.call w = .ok settled ∧
      excessReturn (tx.outcome.externals self) tx.msg id loan maxReturn tx.outcome.returned w =
        .ok excess ∧
      (PrizeCredited settled w' (closePrize tx.outcome.config excess) ↔
        excess * tx.outcome.config.getCloseBps < 10000) := by
  obtain ⟨settled, excess, hsettle, hexcess, hlenders, hreserve⟩ := work_prize hcall hstep
  have hnone : closePrize tx.outcome.config excess = 0 ↔
      excess * tx.outcome.config.getCloseBps < 10000 := by
    simp [closePrize, Nat.div_eq_zero_iff]
  refine ⟨settled, excess, hsettle, hexcess, ?_⟩
  rw [← hnone]
  refine ⟨fun hcredited => ?_, fun hzero hpos => ?_⟩
  · -- a positive prize would have to be in the reserve, which has not moved
    by_contra hpos
    have := (hcredited (Nat.pos_of_ne_zero hpos)).1
    omega
  · omega

/-- Account 50 closes its position: the worker pays back twice the debt. -/
def closeSoleDebtor : Tx Unit 100 :=
  ownerTx 1 (.pays 0 (2 * 10 ^ 18) 0)
    (.work 1 7 0 0 (10 ^ 18) { strategy := 8, ext := [] })

theorem prizeCredited_iff_closeSoleDebtor : ∃ w w' settled : World (Books Unit),
    ∃ excess : Nat, exec 100 w closeSoleDebtor = .ok w' ∧
      (PrizeCredited settled w' (closePrize closeSoleDebtor.outcome.config excess) ↔
        excess * 100 < 10000) := by
  have htest : (machine Unit 100).lastStep (freshWorld ()) soleDebtor closeSoleDebtor
      (fun _ _ => true) = true := by
    decide +kernel
  obtain ⟨w, w', hreach, hstep, _⟩ := TSys.lastStep_reachable (freshWorld_init ()) htest
  have hstep : exec 100 w closeSoleDebtor = .ok w' := hstep
  obtain ⟨settled, excess, _, _, hiff⟩ := prizeCredited_iff rfl hstep
  exact ⟨w, w', settled, excess, hstep, hiff⟩

/-- A percent of the excess is withheld, the reserve does not get it, and
`totalToken` rises by it. -/
theorem closePrize_not_credited : ∃ w w' settled : World (Books Unit),
    (machine Unit 100).Reachable w ∧ exec 100 w closeSoleDebtor = .ok w' ∧
    settle (closeSoleDebtor.outcome.externals 100) closeSoleDebtor.msg closeSoleDebtor.call w =
      .ok settled ∧
    excessReturn (closeSoleDebtor.outcome.externals 100) closeSoleDebtor.msg 1 0 (10 ^ 18)
      closeSoleDebtor.outcome.returned w = .ok (10 ^ 18) ∧
    ¬ PrizeCredited settled w' (closePrize closeSoleDebtor.outcome.config (10 ^ 18)) := by
  have htest : (machine Unit 100).lastStep (freshWorld ()) soleDebtor closeSoleDebtor
      (fun w w' => decide (w.vault.lastAccrueTime = 1 ∧
        excessReturn (closeSoleDebtor.outcome.externals 100) closeSoleDebtor.msg 1 0 (10 ^ 18)
          closeSoleDebtor.outcome.returned w = .ok (10 ^ 18) ∧
        w'.vault.reservePool = w.vault.reservePool)) = true := by
    decide +kernel
  obtain ⟨w, w', hreach, hstep, htest⟩ := TSys.lastStep_reachable (freshWorld_init ()) htest
  obtain ⟨htime, hexcess, hreserve⟩ := of_decide_eq_true htest
  -- no time has passed since the last accrual
  have hsettle : settle (closeSoleDebtor.outcome.externals 100) closeSoleDebtor.msg
      closeSoleDebtor.call w = .ok w := by
    simp [settle, closeSoleDebtor, ownerTx, Call.accrues, accrue, htime]
  refine ⟨w, w', w, hreach, hstep, hsettle, hexcess, fun hcredited => ?_⟩
  have hprize : closePrize closeSoleDebtor.outcome.config (10 ^ 18) = 10 ^ 16 := by decide
  have := (hcredited (hprize ▸ by decide)).1
  omega

end Huski.Vault
