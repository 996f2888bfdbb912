import Huski.Stronk.Principal

/-!
# When the principal can be withdrawn

The principal lies at the relayer in full, so that a withdrawal fails for the sake of the reward
only: the period of the bonus is zero, FairLaunch does not let the reward be harvested, the reward
does not fit into a word, or the debt token does not burn what FairLaunch gave back. A reward that
is not there in full is paid in part, and a revert of the FairLaunch withdrawal is tolerated.
-/

open Solidity

namespace Huski.Stronk

/-- The conditions on the configuration, the position and the outside. -/
structure Releasable (n : Nat) (o : Outside) (s : State) (pos : Position) : Prop where
  period : s.bonusPeriodBlock ≠ 0
  reward : 0 < (n - pos.lastRewardBlock) / s.bonusPeriodBlock → o.harvest.isSome = true ∧
    (n - pos.lastRewardBlock) / s.bonusPeriodBlock * pos.hodlAmount < wordSize ∧
    (n - pos.lastRewardBlock) / s.bonusPeriodBlock * pos.hodlAmount * s.lockUpInterestBps < wordSize
  debt : o.withdraw.isSome = true → o.debtBurn = true

section Calls

variable {n id amount multiplier : Nat} {sender src dst : Address} {o : Outside} {s s' : State}
  {pos : Position}

theorem safeTransfer_isOk (hs : Custody s) (hsrc : src ≠ 0) (hdst : dst ≠ 0)
    (hamount : amount ≤ s.husky.balanceOf src) :
    ∃ t, s.husky._transfer src dst amount = .ok t ∧
      s.safeTransfer src dst amount = .ok { s with husky := t } := by
  obtain ⟨t, hmoves⟩ := hs.sound.transfer_isOk hsrc hdst hamount
  refine ⟨t, hmoves, ?_⟩
  simp only [State.safeTransfer, bind_eq_ok, lowLevel_eq_ok, pure_eq_ok]
  exact ⟨t, hmoves, rfl⟩

theorem reward_isOk (hproduct : multiplier * amount < wordSize)
    (hreward : multiplier * amount * s.lockUpInterestBps < wordSize) :
    ∃ pending, s.reward multiplier amount = .ok pending := by
  simp only [State.reward, bind_eq_ok, SafeMath.mul_eq_ok, SafeMath.div_eq_ok]
  exact ⟨_, _, ⟨hproduct, rfl⟩, _, ⟨hreward, rfl⟩, by decide, rfl⟩

/-- The reward is paid as far as there is HUSKY. -/
theorem safeHuskyTransfer_isOk (hs : Custody s) (hdst : dst ≠ 0) (amount : Nat) :
    ∃ t, s._safeHuskyTransfer dst amount = .ok { s with husky := t } := by
  unfold State._safeHuskyTransfer
  dsimp only
  split
  · obtain ⟨t, _, hpays⟩ := safeTransfer_isOk hs hs.here_ne hdst le_rfl
    exact ⟨t, hpays⟩
  · rename_i hle
    obtain ⟨t, _, hpays⟩ := safeTransfer_isOk hs hs.here_ne hdst (Nat.not_lt.mp hle)
    exact ⟨t, hpays⟩

theorem payReward_isOk (hs : Custody s) (hsender : sender ≠ 0)
    (hreward : 0 < multiplier → o.harvest.isSome = true ∧
      multiplier * pos.hodlAmount < wordSize ∧
      multiplier * pos.hodlAmount * s.lockUpInterestBps < wordSize) :
    ∃ t, s.payReward sender o pos multiplier = .ok { s with husky := t } := by
  unfold State.payReward
  split
  · rename_i hpositive
    obtain ⟨hharvest, hproduct, hfits⟩ := hreward hpositive
    obtain ⟨moves, hmoves⟩ := Option.isSome_iff_exists.mp hharvest
    have hsettled := (settle_steady 0 s moves).custody hs
    obtain ⟨pending, hpending⟩ := reward_isOk (s := s.settle moves) hproduct hfits
    obtain ⟨t, hpays⟩ := safeHuskyTransfer_isOk hsettled hsender pending
    refine ⟨t, ?_⟩
    simp only [bind_eq_ok, hmoves]
    exact ⟨_, rfl, pending, hpending, hpays⟩
  · exact ⟨s.husky, rfl⟩

theorem fairLaunchWithdraw_isOk (hdebt : o.withdraw.isSome = true → o.debtBurn = true) :
    ∃ t, s._fairLaunchWithdraw o amount = .ok { s with husky := t } := by
  unfold State._fairLaunchWithdraw
  split
  · split
    · rename_i moves hmoves
      rw [hmoves] at hdebt
      refine ⟨moves.foldl s.applyMove s.husky, ?_⟩
      simp only [bind_eq_ok, require_eq_ok, pure_eq_ok]
      exact ⟨(), hdebt rfl, rfl⟩
    · exact ⟨s.husky, rfl⟩
  · exact ⟨s.husky, rfl⟩

theorem burn_isOk {t : ERC20} (hsender : sender ≠ 0) (hbalance : amount ≤ t.balanceOf sender)
    (hsupply : amount ≤ t.totalSupply) : ∃ t', t._burn sender amount = .ok t' := by
  simp only [ERC20._burn, bind_eq_ok, require_eq_ok, pure_eq_ok, SafeMath.subOr_eq_ok,
    SafeMath.sub_eq_ok]
  exact ⟨_, (), hsender, _, ⟨hbalance, rfl⟩, _, ⟨hsupply, rfl⟩, rfl⟩

/-- With its conditions met a withdrawal goes through. -/
theorem withdraw_isOk (h : Kept n s) (howner : (s.positions id).owner = sender)
    (hopen : 0 < (s.positions id).hodlAmount)
    (hreceipts : (s.positions id).hodlAmount ≤ s.receipt.balanceOf sender)
    (hok : Releasable n o s (s.positions id)) : ∃ s', s.withdraw sender n o id = .ok s' := by
  have hs := h.toCustody
  have hsender : sender ≠ 0 := howner ▸ (h.outsider id hopen).1
  have hmultiplier : s.getMultiplier (s.positions id).lastRewardBlock n =
      .ok ((n - (s.positions id).lastRewardBlock) / s.bonusPeriodBlock) := by
    simp only [State.getMultiplier, bind_eq_ok, SafeMath.sub_eq_ok, SafeMath.div_eq_ok]
    exact ⟨_, ⟨h.last_le id, rfl⟩, hok.period, rfl⟩
  obtain ⟨t₁, hreward⟩ := payReward_isOk hs hsender hok.reward
  have hfirst : Steady n s { s with husky := t₁ } := payReward_steady hreward
  obtain ⟨receipt, hburns⟩ := burn_isOk hsender hreceipts (h.hodlAmount_le id)
  obtain ⟨t₂, hwithdraws⟩ : ∃ t₂, State._fairLaunchWithdraw o { s with husky := t₁, receipt }
      (s.positions id).hodlAmount = .ok { s with husky := t₂, receipt } :=
    fairLaunchWithdraw_isOk hok.debt
  have hsecond : Steady n { s with husky := t₁, receipt } { s with husky := t₂, receipt } :=
    fairLaunchWithdraw_steady hwithdraws
  have hburned : Custody { s with husky := t₁, receipt } := { hfirst.custody hs with }
  have hs₂ := hsecond.custody hburned
  -- the relayer holds all open amounts, so it can give this one
  have hheld : (s.positions id).hodlAmount ≤ t₂.balanceOf s.relayer :=
    (h.hodlAmount_le id).trans (h.held.trans ((hfirst.ledger hs).2.trans
      (hsecond.ledger hburned).2))
  obtain ⟨t₃, hmoves, hprincipal⟩ := safeTransfer_isOk hs₂ hs.relayer_ne hs.here_ne hheld
  have hs₃ : Custody { s with husky := t₃, receipt } :=
    { hs₂ with sound := hs₂.sound.transfer hmoves }
  -- what the relayer gave the contract can now give
  have hthere : (s.positions id).hodlAmount ≤ t₃.balanceOf s.here := by
    have hbalance := ERC20.balanceOf_transfer hmoves s.here
    simp only [if_neg hs.relayer_ne_here.symm, if_true] at hbalance
    omega
  have hclosed : Custody (State.setPosition { s with husky := t₃, receipt } id
      { s.positions id with hodlAmount := 0 }) := { hs₃ with }
  have hpaid : ∃ s', (State.setPosition { s with husky := t₃, receipt } id
      { s.positions id with hodlAmount := 0 }).safeTransfer s.here sender
        (s.positions id).hodlAmount = .ok s' := by
    obtain ⟨t₄, _, hpays⟩ := safeTransfer_isOk hclosed hs.here_ne hsender hthere
    exact ⟨_, hpays⟩
  obtain ⟨s', hpays⟩ := hpaid
  refine ⟨s', ?_⟩
  simp only [State.withdraw, State.transferHusky, bind_eq_ok, require_eq_ok]
  exact ⟨(), howner, (), hopen, _, hmultiplier, _, hreward, receipt, hburns, _, hwithdraws, _,
    ⟨(), hs.relayerOwner.symm, hprincipal⟩, hpays⟩

/-- A withdrawal that went through met the conditions. -/
theorem releasable_of_withdraw (h : s.withdraw sender n o id = .ok s') :
    Releasable n o s (s.positions id) := by
  simp only [State.withdraw, bind_eq_ok, require_eq_ok] at h
  obtain ⟨_, _, _, hopen, multiplier, hmultiplier, s₁, hreward, receipt, _, s₂, hwithdraws, _⟩ := h
  obtain ⟨_, hperiod, rfl⟩ := getMultiplier_eq_ok hmultiplier
  refine ⟨hperiod, fun hpositive => ?_, fun hsome => ?_⟩
  · unfold State.payReward at hreward
    rw [if_pos hpositive] at hreward
    simp only [State.reward, bind_eq_ok, SafeMath.mul_eq_ok, SafeMath.div_eq_ok] at hreward
    obtain ⟨s₃, hharvest, _, ⟨_, ⟨hproduct, rfl⟩, _, ⟨hfits, rfl⟩, _⟩, _⟩ := hreward
    cases hmoves : o.harvest with
    | none =>
        rw [hmoves] at hharvest
        cases hharvest
    | some moves =>
        rw [hmoves] at hharvest
        cases hharvest
        exact ⟨rfl, hproduct, hfits⟩
  · unfold State._fairLaunchWithdraw at hwithdraws
    rw [if_pos hopen] at hwithdraws
    obtain ⟨moves, hmoves⟩ := Option.isSome_iff_exists.mp hsome
    simp only [hmoves, bind_eq_ok, require_eq_ok] at hwithdraws
    exact hwithdraws.choose_spec.1

end Calls

theorem kept_inductive : machine.Inductive (fun _ _ => True) fun c => Kept c.block c.state where
  init _ hinit := kept_init hinit
  step _ _ _ h _ hstep := kept_step h hstep

/-- In every reachable state, for every answer of the outside: the owner of an open position that
holds the receipts withdraws and gets the full principal exactly when the period of the bonus is
set, a reward that is due can be harvested and computed, and the debt token burns what FairLaunch
gives back. -/
theorem withdraw_iff (c : Chain) (hreach : machine.Reachable c) (sender : Address) (n id : Nat)
    (o : Outside) (hblock : c.block ≤ n) (howner : (c.state.positions id).owner = sender)
    (hopen : 0 < (c.state.positions id).hodlAmount)
    (hreceipts : (c.state.positions id).hodlAmount ≤ c.state.receipt.balanceOf sender) :
    (∃ c', machine.step c ⟨sender, n, o, .withdraw id⟩ = .ok c' ∧
      c.state.husky.balanceOf sender + (c.state.positions id).hodlAmount ≤
        c'.state.husky.balanceOf sender) ↔
    Releasable n o c.state (c.state.positions id) := by
  have hkept := (kept_inductive.invariant hreach).mono hblock
  obtain ⟨_, hhere, hne, hfair⟩ := hkept.outsider id hopen
  rw [howner] at hhere hne hfair
  constructor
  · rintro ⟨c', hstep, _⟩
    obtain ⟨_, _, _, hexec⟩ := mine_eq_ok hstep
    exact releasable_of_withdraw hexec
  · intro hok
    obtain ⟨s', hwithdraws⟩ := withdraw_isOk hkept howner hopen hreceipts hok
    have hpaid := (withdraw_releases hwithdraws).credited hhere hne hfair
    refine ⟨{ block := n, state := s' }, ?_, hpaid⟩
    show mine c ⟨sender, n, o, .withdraw id⟩ = _
    simp only [mine, bind_eq_ok, require_eq_ok, pure_eq_ok]
    exact ⟨(), hblock, (), ⟨hhere, hne, hfair⟩, s', hwithdraws, rfl⟩

/-- With a period of 10 blocks, account 1 withdraws after 3 of them although FairLaunch reverts. -/
theorem withdraw_of_period :
    ∃ c c', machine.Reachable c ∧
      machine.step c ⟨1, 5, { harvest := none, withdraw := none }, .withdraw 1⟩ = .ok c' ∧
      c.state.husky.balanceOf 1 + (c.state.positions 1).hodlAmount ≤
        c'.state.husky.balanceOf 1 := by
  have hrun : machine.lastStep freshChain
      [⟨50, 1, {}, .setStronkInfo 303 1 10⟩, ⟨1, 1, {}, .huskyApprove 300 100⟩]
      ⟨1, 2, {}, .hodl 100⟩
      (fun _ c => c.block = 2 ∧ (c.state.positions 1).owner = 1 ∧
        (c.state.positions 1).hodlAmount = 100 ∧ (c.state.positions 1).lastRewardBlock = 2 ∧
        c.state.receipt.balanceOf 1 = 100 ∧ c.state.bonusPeriodBlock = 10) = true := by
    decide +kernel
  obtain ⟨c₁, c, hreach, hstep, htest⟩ :=
    TSys.lastStep_reachable (M := machine) freshChain_init hrun
  obtain ⟨hblock, howner, hamount, hlast, hreceipts, hperiod⟩ := of_decide_eq_true htest
  have hreach : machine.Reachable c := .step hreach trivial hstep
  have hok : Releasable 5 { harvest := none, withdraw := none } c.state (c.state.positions 1) := by
    refine ⟨?_, fun hpositive => ?_, fun hsome => ?_⟩
    · rw [hperiod]
      decide
    · rw [hperiod, hlast] at hpositive
      exact absurd hpositive (by decide)
    · cases hsome
  obtain ⟨c', hstep', hpaid⟩ := (withdraw_iff c hreach 1 5 1 _ (by omega) howner (by omega)
    (by omega)).mpr hok
  exact ⟨c, c', hreach, hstep', hpaid⟩

/-- The owner sets a period of zero, and account 1 can not withdraw. -/
theorem withdraw_dividesByZero :
    ∃ c, machine.Reachable c ∧ (c.state.positions 1).owner = 1 ∧
      0 < (c.state.positions 1).hodlAmount ∧
      (c.state.positions 1).hodlAmount ≤ c.state.receipt.balanceOf 1 ∧
      ¬ ∃ c', machine.step c ⟨1, 5, {}, .withdraw 1⟩ = .ok c' ∧
        c.state.husky.balanceOf 1 + (c.state.positions 1).hodlAmount ≤
          c'.state.husky.balanceOf 1 := by
  have hrun : machine.lastStep freshChain
      [⟨50, 1, {}, .setStronkInfo 303 1 0⟩, ⟨1, 1, {}, .huskyApprove 300 100⟩]
      ⟨1, 2, {}, .hodl 100⟩
      (fun _ c => (c.state.positions 1).owner = 1 ∧ 0 < (c.state.positions 1).hodlAmount ∧
        (c.state.positions 1).hodlAmount ≤ c.state.receipt.balanceOf 1 ∧
        (machine.step c ⟨1, 5, {}, .withdraw 1⟩).toOption.isNone = true) = true := by
    decide +kernel
  obtain ⟨c₁, c, hreach, hstep, htest⟩ :=
    TSys.lastStep_reachable (M := machine) freshChain_init hrun
  obtain ⟨howner, hopen, hreceipts, hreverts⟩ := of_decide_eq_true htest
  refine ⟨c, .step hreach trivial hstep, howner, hopen, hreceipts, ?_⟩
  rintro ⟨c', hok, _⟩
  rw [hok] at hreverts
  cases hreverts

end Huski.Stronk
