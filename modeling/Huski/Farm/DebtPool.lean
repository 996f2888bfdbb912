import Huski.FairLaunch.StakeFlow

/-!
# The stakes of one funder

What the funder of entries, a vault, can rely on while others call FairLaunch: nobody else changes
the stakes it funded, and no call of FairLaunch changes how many debt tokens there are.
-/

namespace Huski.FairLaunch

open Solidity State
open scoped BigOperators

/-! ## The supply of the stake tokens -/

/-- The debt tokens that exist of a stake token. -/
def State.debtSupply (s : State) (token : Address) : Nat := (s.tokens token).debtSupply

section Supply

variable {msg : Msg} {n pid amount : Nat} {user token holder recipient : Address} {s s' : State}

theorem debtSupply_setToken (t : StakeToken) (a : Address) : (s.setToken token t).debtSupply a =
    if a = token then t.debtSupply else s.debtSupply a := by
  show (Function.update s.tokens token t a).debtSupply = _
  by_cases ha : a = token
  · rw [ha, Function.update_self, if_pos rfl]
  · rw [Function.update_of_ne ha, if_neg ha]
    rfl

theorem debtSupply_setToken_same {t : StakeToken}
    (h : t.debtSupply = (s.tokens token).debtSupply) (a : Address) :
    (s.setToken token t).debtSupply a = s.debtSupply a := by
  rw [debtSupply_setToken]
  by_cases ha : a = token
  · rw [if_pos ha, ha]
    exact h
  · rw [if_neg ha]

theorem stakeTransfer_debtSupply (h : s.stakeTransfer n token recipient amount = .ok s')
    (a : Address) : s'.debtSupply a = s.debtSupply a := by
  unfold State.stakeTransfer at h
  split at h
  · obtain ⟨_, _, rfl⟩ := onHusky_eq_ok h
    rfl
  · simp only [bind_eq_ok, pure_eq_ok] at h
    obtain ⟨t, hmove, rfl⟩ := h
    exact debtSupply_setToken_same (StakeToken.debtSupply_transfer hmove) a

theorem stakeTransferFrom_debtSupply (h : s.stakeTransferFrom n token holder amount = .ok s')
    (a : Address) : s'.debtSupply a = s.debtSupply a := by
  unfold State.stakeTransferFrom at h
  split at h
  · obtain ⟨_, _, rfl⟩ := onHusky_eq_ok h
    rfl
  · simp only [bind_eq_ok, pure_eq_ok] at h
    obtain ⟨t, hmove, rfl⟩ := h
    exact debtSupply_setToken_same (StakeToken.debtSupply_transferFrom hmove) a

theorem onToken_debtSupply {f : StakeToken → Result StakeToken}
    (hf : ∀ t t', f t = .ok t' → t'.debtSupply = t.debtSupply)
    (h : onToken token f s = .ok s') (a : Address) : s'.debtSupply a = s.debtSupply a := by
  simp only [onToken, bind_eq_ok, pure_eq_ok] at h
  obtain ⟨t, hcall, rfl⟩ := h
  exact debtSupply_setToken_same (hf _ _ hcall) a

theorem debtSupply_of_tokens (h : s'.tokens = s.tokens) (a : Address) :
    s'.debtSupply a = s.debtSupply a := by
  unfold State.debtSupply
  rw [h]

theorem deposit_debtSupply (h : deposit msg user pid amount s = .ok s') (a : Address) :
    s'.debtSupply a = s.debtSupply a := by
  simp only [deposit, bind_eq_ok] at h
  obtain ⟨_, _, _, _, _, _, s₁, hupdate, s₂, hharvest, s₃, hmove, _, _, hdebts⟩ := h
  have hupdated : s₁.tokens = s.tokens := (updatePool_eq_ok hupdate).2.tokens
  have hharvested : s₂.tokens = s₁.tokens := by cases harvestStake_eq_ok hharvest <;> rfl
  have hmoved := stakeTransferFrom_debtSupply hmove a
  rw [updateDebts_eq_ok hdebts]
  exact hmoved.trans (debtSupply_of_tokens (hharvested.trans hupdated) a)

theorem withdraw_debtSupply (h : _withdraw msg user pid amount s = .ok s') (a : Address) :
    s'.debtSupply a = s.debtSupply a := by
  simp only [_withdraw, bind_eq_ok] at h
  obtain ⟨_, _, _, _, _, _, s₁, hupdate, s₂, hharvest, _, _, s₃, hdebts, hreturn⟩ := h
  have hupdated : s₁.tokens = s.tokens := (updatePool_eq_ok hupdate).2.tokens
  obtain ⟨_, _, _, rfl⟩ := _harvest_eq_ok hharvest
  have hsettled := updateDebts_eq_ok hdebts
  have hkept : s₃.debtSupply a = s.debtSupply a := by
    rw [hsettled]
    exact debtSupply_of_tokens hupdated a
  unfold returnStake at hreturn
  split at hreturn
  · exact (stakeTransfer_debtSupply hreturn a).trans hkept
  · cases hreturn
    exact hkept

/-- No call of FairLaunch mints or burns debt tokens. -/
theorem exec_debtSupply {op : Op} (h : exec msg op s = .ok s') (a : Address) :
    s'.debtSupply a = s.debtSupply a := by
  -- the calls of HUSKY leave the stake tokens alone, and with them the debt token
  have honHusky : ∀ {f : HuskyToken → Result HuskyToken} {t t' : State},
      t.onHusky f = .ok t' → t'.tokens = t.tokens := by
    intro f t t' h
    obtain ⟨_, _, rfl⟩ := onHusky_eq_ok h
    rfl
  have hpays : ∀ {n amount : Nat} {recipient : Address} {t t' : State},
      safeHuskyTransfer n recipient amount t = .ok t' → t'.tokens = t.tokens := by
    intro n amount recipient t t' h
    simp only [safeHuskyTransfer] at h
    split at h <;> exact honHusky h
  cases op with
  | addPool allocPoint stakeToken withUpdate =>
      obtain ⟨_, _, s₁, hupdate, _, rfl⟩ := addPool_eq_ok h
      cases withUpdate with
      | true => exact debtSupply_of_tokens (massUpdatePools_keeps hupdate).2 a
      | false =>
          cases hupdate
          rfl
  | setPool p allocPoint =>
      obtain ⟨s₁, hupdate, _, _, rfl⟩ := setPool_eq_ok h
      exact debtSupply_of_tokens (massUpdatePools_keeps hupdate).2 a
  | updatePool p => exact debtSupply_of_tokens (updatePool_eq_ok h).2.tokens a
  | massUpdatePools => exact debtSupply_of_tokens (massUpdatePools_keeps h).2 a
  -- the three that move stake tokens move them between holders
  | deposit => exact deposit_debtSupply h a
  | withdraw => exact withdraw_debtSupply h a
  | withdrawAll => exact withdraw_debtSupply h a
  | harvest p =>
      obtain ⟨_, s₁, husky, points, hupdate, _, rfl⟩ := harvest_eq_ok h
      exact debtSupply_of_tokens (updatePool_eq_ok hupdate).2.tokens a
  | emergencyWithdraw p =>
      simp only [exec, emergencyWithdraw, bind_eq_ok, pure_eq_ok] at h
      obtain ⟨_, _, _, _, s₁, hmove, rfl⟩ := h
      exact stakeTransfer_debtSupply hmove a
  | setDev | setBadgeRelayer | setBadgePoints | setHuskyPerBlock | renounceOwnership =>
      simp only [exec, setDev, setBadgeRelayer, setBadgePoints, setHuskyPerBlock,
        renounceOwnership, bind_eq_ok, pure_eq_ok] at h
      obtain ⟨_, _, rfl⟩ := h
      rfl
  | setBonus =>
      simp only [exec, setBonus, bind_eq_ok, pure_eq_ok] at h
      obtain ⟨_, _, _, _, _, _, rfl⟩ := h
      rfl
  | transferOwnership =>
      simp only [exec, transferOwnership, bind_eq_ok, pure_eq_ok] at h
      obtain ⟨_, _, _, _, rfl⟩ := h
      rfl
  | manualMint =>
      simp only [exec, manualMint, bind_eq_ok] at h
      obtain ⟨_, _, h⟩ := h
      exact debtSupply_of_tokens (honHusky h) a
  | lockToOwner =>
      simp only [exec, lockToOwner, bind_eq_ok] at h
      obtain ⟨_, _, h⟩ := h
      exact debtSupply_of_tokens (honHusky h) a
  | unlockFromOwner =>
      simp only [exec, unlockFromOwner, bind_eq_ok] at h
      obtain ⟨_, _, s₁, h₁, _, _, h₂⟩ := h
      exact debtSupply_of_tokens ((hpays h₂).trans (hpays h₁)) a
  | huskyTransfer | huskyApprove => exact debtSupply_of_tokens (honHusky h) a
  | tokenTransfer =>
      exact onToken_debtSupply (fun _ _ hcall => StakeToken.debtSupply_transfer hcall) h a
  | tokenApprove =>
      exact onToken_debtSupply (fun _ _ hcall => StakeToken.debtSupply_approve hcall) h a
  | setPrices =>
      cases h
      rfl

end Supply

/-! ## The stakes of a funder -/

section Stakes

variable {msg : Msg} {sender funder : Address} {op : Op} {s s' : State} {pid amount : Nat}
  {user : Address}

/-- An entry without a funder is empty. -/
def State.Funded (s : State) : Prop :=
  ∀ p u, (s.userInfo p u).fundedBy = 0 → (s.userInfo p u).amount = 0

theorem StakeFlow.funded (h : StakeFlow sender op s s') (hs : s.Funded) : s'.Funded := by
  intro p u hf
  cases h with
  | kept _ _ entries _ =>
      rw [(entries p u).1]
      exact hs p u ((entries p u).2 ▸ hf)
  | @put pid amount user _ _ sender_ne _ _ fundedBy others _ =>
      by_cases hhere : p = pid ∧ u = user
      · obtain ⟨rfl, rfl⟩ := hhere
        exact absurd (fundedBy.symm.trans hf) sender_ne
      · rw [others.entries p u (not_and_or.mp hhere)] at hf ⊢
        exact hs p u hf
  | @took pid amount user _ _ _ funder amount_eq fundedBy others _ =>
      by_cases hhere : p = pid ∧ u = user
      · obtain ⟨rfl, rfl⟩ := hhere
        by_contra hleft
        rw [fundedBy, funderAfter, if_neg hleft] at hf
        have hnone := hs p u (funder.trans hf)
        omega
      · rw [others.entries p u (not_and_or.mp hhere)] at hf ⊢
        exact hs p u hf

theorem stakeOf_congr {info info' : UserInfo} (hamount : info'.amount = info.amount)
    (hfunder : info'.fundedBy = info.fundedBy) (f : Address) :
    info'.stakeOf f = info.stakeOf f := by
  unfold UserInfo.stakeOf
  rw [hamount, hfunder]

/-- Nobody changes the stakes that another account funded. -/
theorem StakeFlow.stakeOf_of_ne (h : StakeFlow sender op s s') (hs : s.Funded)
    (hne : funder ≠ sender) (p : Nat) (u : Address) :
    (s'.userInfo p u).stakeOf funder = (s.userInfo p u).stakeOf funder := by
  cases h with
  | kept _ _ entries _ => exact stakeOf_congr (entries p u).1 (entries p u).2 funder
  | @put pid amount user _ _ _ hfunder amount_eq fundedBy others _ =>
      by_cases hhere : p = pid ∧ u = user
      · obtain ⟨rfl, rfl⟩ := hhere
        rw [stakeOf_put (hs p u) hfunder amount_eq fundedBy, if_neg hne, Nat.add_zero]
      · rw [others.entries p u (not_and_or.mp hhere)]
  | @took pid amount user _ _ _ hfunder amount_eq fundedBy others _ =>
      by_cases hhere : p = pid ∧ u = user
      · obtain ⟨rfl, rfl⟩ := hhere
        have htook := stakeOf_took hfunder amount_eq fundedBy funder
        rwa [if_neg hne, Nat.add_zero] at htook
      · rw [others.entries p u (not_and_or.mp hhere)]

/-- What a deposit puts in, its sender has funded. -/
theorem deposit_stakeOf (hs : s.Funded) (h : deposit msg user pid amount s = .ok s') (p : Nat)
    (u : Address) : (s'.userInfo p u).stakeOf msg.sender =
      (s.userInfo p u).stakeOf msg.sender + if p = pid ∧ u = user then amount else 0 := by
  cases deposit_flow h with
  | kept puts _ _ _ => cases puts
  | put puts _ _ hfunder amount_eq fundedBy others _ =>
      cases puts
      by_cases hhere : p = pid ∧ u = user
      · obtain ⟨rfl, rfl⟩ := hhere
        rw [stakeOf_put (hs p u) hfunder amount_eq fundedBy, if_pos rfl, if_pos ⟨rfl, rfl⟩]
      · rw [others.entries p u (not_and_or.mp hhere), if_neg hhere, Nat.add_zero]
  | took puts _ _ _ _ _ _ _ => cases puts

/-- What a withdrawal takes out, its sender had funded. -/
theorem withdraw_stakeOf (hlisted : ∀ p < s.poolLength, (s.poolInfo p).stakeToken ≠ 0)
    (h : withdraw msg user pid amount s = .ok s') (p : Nat) (u : Address) :
    (s'.userInfo p u).stakeOf msg.sender + (if p = pid ∧ u = user then amount else 0) =
      (s.userInfo p u).stakeOf msg.sender := by
  have hflow : StakeFlow msg.sender (.withdraw user pid amount) s s' :=
    withdraw_flow hlisted rfl rfl h
  cases hflow with
  | kept _ takes _ _ => cases takes
  | put puts _ _ _ _ _ _ _ => cases puts
  | took _ takes _ hfunder amount_eq fundedBy others _ =>
      cases takes
      by_cases hhere : p = pid ∧ u = user
      · obtain ⟨rfl, rfl⟩ := hhere
        have htook := stakeOf_took hfunder amount_eq fundedBy msg.sender
        rw [if_pos rfl] at htook
        rwa [if_pos ⟨rfl, rfl⟩]
      · rw [others.entries p u (not_and_or.mp hhere), if_neg hhere, Nat.add_zero]

end Stakes

end Huski.FairLaunch
