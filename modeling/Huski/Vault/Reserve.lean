import Huski.Vault.SharePrice

/-!
# The reserve and the lenders' claim

`totalToken` subtracts the reserve from everything the vault holds or is owed. The
reserve grows with interest not yet paid, and a `kill` writes off the debt that
interest is part of without touching the reserve: a shortfall larger than
`totalToken` leaves the reserve larger than what it is a part of, and every
pricing reverts. A run without such a shortfall never gets there.
-/

namespace Huski.Vault

open Solidity

variable {G : Type} {self : Address} {w w' : World (Books G)} {tx : Tx G self}

/-- The reserve is part of what the vault holds and is owed. -/
def ReserveBacked (w : World (Books G)) : Prop :=
  w.vault.reservePool ≤ w.rest.balance + w.vault.vaultDebtVal

/-- The reserve is backed when the lenders own no negative amount. -/
theorem reserveBacked_iff : ReserveBacked w ↔ 0 ≤ (cash w).lenders := by
  simp only [ReserveBacked, Cash.lenders, cash]
  omega

/-! ## Pricing -/

/-- Of a backed reserve `totalToken` underflows nowhere. -/
theorem totalToken_cases (o : Outcome G) (h : ReserveBacked w) :
    totalToken (o.externals self) w =
      .ok (w.rest.balance + w.vault.vaultDebtVal - w.vault.reservePool) ∨
    totalToken (o.externals self) w = .error "SafeMath: addition overflow" := by
  simp only [totalToken, Outcome.externals, SafeMath.add, SafeMath.sub, SafeMath.subOr]
  by_cases hover : w.rest.balance + w.vault.vaultDebtVal < wordSize
  · left
    have hle : w.vault.reservePool ≤ w.rest.balance + w.vault.vaultDebtVal := h
    simp [bind, Except.bind, hover, hle]
  · right
    simp [bind, Except.bind, hover]

/-- What `deposit` divides by: the total without the money that came with the call.
`withdraw` is the case where none did. -/
def priceBase {F : Type} (ext : Externals F) (value : Nat) (w : World F) : Result Nat := do
  let held ← totalToken ext w
  SafeMath.sub held value

section Pricing

variable {F : Type} (ext : Externals F) (msg : Msg) (w : World F)

theorem _deposit_eq (amountToken : Nat) : _deposit ext msg amountToken w = (do
    let total ← priceBase ext amountToken w
    let share ← depositShare amountToken total w.vault.ibToken.totalSupply
    let ibToken ← w.vault.ibToken._mint msg.sender share
    require (ibToken.totalSupply > 10 ^ 17) "Vault::deposit: no tiny shares"
    return w.setVault (w.vault.setIbToken ibToken)) := by
  simp only [_deposit, priceBase, bind_assoc]

theorem _withdraw_eq (share : Nat) : _withdraw ext msg share w = (do
    let total ← priceBase ext 0 w
    let product ← SafeMath.mul share total
    let amount ← SafeMath.div product w.vault.ibToken.totalSupply
    let ibToken ← w.vault.ibToken._burn msg.sender share
    let w ← _smartSafeTransfer ext msg.sender amount (w.setVault (w.vault.setIbToken ibToken))
    require (w.vault.ibToken.totalSupply > 10 ^ 17) "Vault::withdraw: no tiny shares"
    return w) := by
  have hbase : priceBase ext 0 w = totalToken ext w := by
    unfold priceBase
    cases totalToken ext w with
    | error e => rfl
    | ok held => exact SafeMath.sub_eq_ok.mpr ⟨Nat.zero_le _, rfl⟩
  rw [hbase]
  rfl

variable {ext msg w}

/-- A deposit has no other subtraction that underflows. -/
theorem _deposit_ne_underflow {amountToken : Nat}
    (hprice : priceBase ext amountToken w ≠ .error "SafeMath: subtraction overflow") :
    _deposit ext msg amountToken w ≠ .error "SafeMath: subtraction overflow" := by
  rw [_deposit_eq]
  refine bind_ne_error hprice fun total _ => bind_ne_error ?_ fun share _ =>
    bind_ne_error ?_ fun ibToken _ => bind_ne_error (require_ne_error (by simp)) fun _ _ => by simp
  · unfold depositShare
    split
    · simp
    · refine bind_ne_error ?_ fun product _ => ?_
      · exact fun hmul => by simpa using (SafeMath.mul_eq_error.mp hmul).2
      · exact fun hdiv => by simpa using (SafeMath.div_eq_error.mp hdiv).2
  · exact bind_ne_error (require_ne_error (by simp)) fun _ _ =>
      bind_ne_error (SafeMath.add_ne_error (by simp)) fun _ _ =>
        bind_ne_error (SafeMath.add_ne_error (by simp)) fun _ _ => by simp

/-- Where its price does not underflow, a withdrawal that reverts on a subtraction has its
price. -/
theorem _withdraw_priced {share : Nat}
    (hprice : priceBase ext 0 w ≠ .error "SafeMath: subtraction overflow")
    (h : _withdraw ext msg share w = .error "SafeMath: subtraction overflow") :
    ∃ total, priceBase ext 0 w = .ok total := by
  rw [_withdraw_eq] at h
  rcases bind_eq_error.mp h with hunder | ⟨total, htotal, _⟩
  · exact absurd hunder hprice
  · exact ⟨total, htotal⟩

end Pricing

/-- Of a backed reserve the price does not underflow. -/
theorem priceBase_ne_underflow {o : Outcome G} {msg : Msg} {value : Nat}
    (hbps : o.config.getReservePoolBps ≤ 10000) (h : ReserveBacked w)
    (hacc : accrue (o.externals self) msg value
      (setBooks w { w.rest with balance := w.rest.balance + value }) = .ok w') :
    priceBase (o.externals self) value w' ≠ .error "SafeMath: subtraction overflow" := by
  obtain ⟨settled, hsettle, hrest, rfl⟩ := accrue_received hacc
  have hlenders := (accrue_lenders hbps hsettle).1
  have hbrought := received_lenders value hrest
  have hback := reserveBacked_iff.mp h
  have hbacked : ReserveBacked
      (setBooks settled { w.rest with balance := w.rest.balance + value }) := by
    rw [reserveBacked_iff]
    omega
  refine bind_ne_error ?_ fun held hheld hunder => ?_
  · rcases totalToken_cases o hbacked with hok | hover
    · rw [hok]
      simp
    · rw [hover]
      simp
  · have hheld := totalToken_eq_ok hheld
    have := (SafeMath.sub_eq_error.mp hunder).1
    omega

/-! ## Runs -/

/-- What the lenders lose by a liquidation in the settled state `w`. -/
def killShortfall (c : Config) (back debt : Nat) : Int :=
  max 0 ((debt : Int) - (back - killPrize c back))

/-- No more than the whole interest goes to the reserve, and a `kill` is short of at
most what belongs to the lenders. -/
structure ShortfallCovered {here : Address} (w : World (Books G)) (tx : Tx G here) : Prop where
  bps : tx.outcome.config.getReservePoolBps ≤ 10000
  kill : ∀ id settled debt, tx.call = .kill id →
    settle (tx.outcome.externals here) tx.msg tx.call w = .ok settled →
    debtShareToVal settled.vault (settled.vault.positions id).debtShare = .ok debt →
    killShortfall tx.outcome.config tx.outcome.returned debt ≤ (cash settled).lenders

theorem settle_lenders {settled : World (Books G)} {o : Outcome G} {msg : Msg} {c : Call}
    (hbps : o.config.getReservePoolBps ≤ 10000)
    (h : settle (o.externals self) msg c w = .ok settled) :
    (cash w).lenders ≤ (cash settled).lenders := by
  unfold settle at h
  split at h
  · exact (accrue_lenders hbps h).1
  · cases h
    exact Int.le_refl _

theorem reserveBacked_step (hback : ReserveBacked w) (hcovered : ShortfallCovered w tx)
    (hreach : (machine G self).Reachable w) (hstep : exec self w tx = .ok w') :
    ReserveBacked w' := by
  obtain ⟨settled, hsettle, hcash⟩ := exec_cash hreach hstep
  have hlenders := settle_lenders hcovered.bps hsettle
  rw [reserveBacked_iff] at hback ⊢
  have hkill := hcovered.kill
  generalize tx.call = c at hcash hkill hsettle
  cases hcash with
  | deposit h =>
      have := h.lenders
      omega
  -- the lender gets the floor of a share of what is not the reserve
  | withdraw h =>
      have := h.pays_le
      have := h.lenders
      have := h.total_eq
      omega
  | work h =>
      have := h.lenders
      omega
  -- only bad debt beyond the lenders' part could reach the reserve
  | kill h =>
      have := hkill _ _ _ rfl hsettle h.debt_eq
      have := h.lenders
      unfold killShortfall at *
      omega
  | keep _ hkeep _ => omega

theorem reserveBacked_init (hinit : (machine G self).init w) : ReserveBacked w := by
  obtain ⟨⟨msg, config, token, debtToken, hv⟩, -⟩ := hinit
  simp [ReserveBacked, hv, initStorage]

/-- Along a run without uncovered shortfall the reserve stays part of what the vault
holds and is owed, and no pricing reverts on its subtractions: neither the view
`totalToken`, nor the price that a deposit of `value` or a withdrawal computes after
its accrual. So no deposit reverts on a subtraction, and no withdrawal before it has
its price. -/
theorem reserveBacked_of_covered
    (hreach : (machine G self).ReachableBy (fun w tx => ShortfallCovered w tx) w) :
    w.vault.reservePool ≤ w.rest.balance + w.vault.vaultDebtVal ∧
    ∀ o : Outcome G,
      totalToken (o.externals self) w ≠ .error "SafeMath: subtraction overflow" ∧
      (o.config.getReservePoolBps ≤ 10000 → ∀ msg value w₁,
        accrue (o.externals self) msg value
          (setBooks w { w.rest with balance := w.rest.balance + value }) = .ok w₁ →
        priceBase (o.externals self) value w₁ ≠ .error "SafeMath: subtraction overflow" ∧
        _deposit (o.externals self) msg value w₁ ≠ .error "SafeMath: subtraction overflow" ∧
        (value = 0 → ∀ share,
          _withdraw (o.externals self) msg share w₁ = .error "SafeMath: subtraction overflow" →
          ∃ total, priceBase (o.externals self) value w₁ = .ok total)) := by
  have hback : ReserveBacked w := by
    induction hreach with
    | init hi => exact reserveBacked_init hi
    | step hbefore hcovered hstep ih =>
        exact reserveBacked_step ih hcovered hbefore.reachable hstep
  refine ⟨hback, fun o => ⟨?_, fun hbps msg value w₁ hacc => ?_⟩⟩
  · rcases totalToken_cases o hback with h | h <;> rw [h] <;> simp
  · have hprice := priceBase_ne_underflow hbps hback hacc
    refine ⟨hprice, _deposit_ne_underflow hprice, fun hnone share hunder => ?_⟩
    subst hnone
    exact _withdraw_priced hprice hunder

/-- Account 50 lends and borrows everything. -/
def lendAndBorrow : List (Tx Unit 100) :=
  [ownerTx 0 (.pays 0 0 0) (.setFairLaunchPoolId 0),
   ownerTx 0 (.pays 0 0 0) (.deposit (10 ^ 18)),
   ownerTx 0 (.pays 0 0 (10 ^ 18)) (.work 0 7 0 (10 ^ 18) 0 { strategy := 8, ext := [] })]

theorem lendAndBorrow_covered : ∀ (w : World (Books Unit)), ∀ tx ∈ lendAndBorrow,
    ShortfallCovered w tx := by
  intro w tx htx
  simp only [lendAndBorrow, List.mem_cons, List.not_mem_nil, or_false] at htx
  obtain rfl | rfl | rfl := htx <;> exact ⟨by decide, fun _ _ _ hkill => nomatch hkill⟩

theorem reserveBacked_of_lendAndBorrow : ∃ w : World (Books Unit),
    w.vault.vaultDebtVal = 10 ^ 18 ∧
    w.vault.reservePool ≤ w.rest.balance + w.vault.vaultDebtVal := by
  have htest : (machine Unit 100).lastStep (freshWorld ()) lendAndBorrow
      (ownerTx 0 (.pays 0 0 0) (.reduceReserve 0))
      (fun w _ => decide (w.vault.vaultDebtVal = 10 ^ 18)) = true := by
    decide +kernel
  obtain ⟨w, _, hreach, _, hdebt⟩ :=
    TSys.lastStep_reachableBy (freshWorld_init ()) lendAndBorrow_covered htest
  exact ⟨w, of_decide_eq_true hdebt, (reserveBacked_of_covered hreach).1⟩

/-- A second later the debt has doubled, a tenth of the interest is in the reserve, and
a liquidation that returns nothing writes the debt off: the reserve is all that is
left on the books. -/
theorem reserve_not_backed : ∃ w : World (Books Unit), (machine Unit 100).Reachable w ∧
    w.rest.balance + w.vault.vaultDebtVal < w.vault.reservePool ∧
    totalToken ((Outcome.pays 0 0 0 : Outcome Unit).externals 100) w =
      .error "SafeMath: subtraction overflow" := by
  have htest : (machine Unit 100).lastStep (freshWorld ()) lendAndBorrow
      (ownerTx 1 (.pays (10 ^ 18) 0 0) (.kill 1))
      (fun _ w => decide (w.rest.balance + w.vault.vaultDebtVal < w.vault.reservePool ∧
        totalToken ((Outcome.pays 0 0 0 : Outcome Unit).externals 100) w =
          .error "SafeMath: subtraction overflow")) = true := by
    decide +kernel
  obtain ⟨w, w', hreach, hstep, hlost⟩ := TSys.lastStep_reachable (freshWorld_init ()) htest
  obtain ⟨hless, htotal⟩ := of_decide_eq_true hlost
  exact ⟨w', hreach.step trivial hstep, hless, htotal⟩

end Huski.Vault
