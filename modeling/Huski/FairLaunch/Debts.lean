import Huski.FairLaunch.Run

/-!
# Accumulators and debts

What holds of the accumulators of a pool and the debts of its users in every reachable
state: the bonus accumulator never passes the main one, a debt is at most the share of the
stake it was taken from, and a pool that does not exist has no users.
-/

namespace Huski.FairLaunch

open Solidity State

section Accumulators

variable {n pid : Nat} {s s' : State} {a : Accrual} {m til : Nat} {husky : HuskyToken}

/-- The multiplier of a range that the window ends in has the bonus blocks in it. -/
theorem bonusBlocks_le_multiplier {last current : Nat}
    (hmult : getMultiplier last current s = .ok m) (hbefore : last < s.bonusEndBlock)
    (hpast : s.bonusEndBlock < current) : (s.bonusEndBlock - last) * s.bonusMultiplier ≤ m := by
  have hweight := getMultiplier_eq_ok hmult
  unfold State.blockWeight at hweight
  have hl : min last s.bonusEndBlock = last := by omega
  have hc : min current s.bonusEndBlock = s.bonusEndBlock := by omega
  have hsplit : s.bonusEndBlock * s.bonusMultiplier =
      (s.bonusEndBlock - last) * s.bonusMultiplier + last * s.bonusMultiplier := by
    rw [← Nat.add_mul, Nat.sub_add_cancel hbefore.le]
  rw [hl, hc, hsplit] at hweight
  omega

/-- The part of a reward that is credited with the bonus is a part of it. -/
theorem Accrues.bonusReward_le (h : Accrues n pid s a m til husky) : a.bonusReward ≤ a.reward := by
  obtain rfl := h.pid_eq
  cases h.bonus with
  | window _ hall _ => exact hall.le
  | crossing hpast hbefore hportion _ =>
      rw [hportion, h.reward_eq]
      refine Nat.div_le_div_right (Nat.mul_le_mul_right _ (Nat.mul_le_mul_right _ ?_))
      exact bonusBlocks_le_multiplier h.multiplier_eq hbefore hpast
  | after _ _ hnone _ => omega

/-- What an accrual adds to the main accumulator. -/
def Accrual.perShare (a : Accrual) : Nat := a.reward * precision / a.lpSupply

/-- What a reward with the bonus is to a share. -/
def Accrual.bonusPerShare (a : Accrual) : Nat := a.bonusReward * precision / a.lpSupply

/-- The bonus of a share is part of its reward. -/
theorem Accrues.bonusPerShare_le (h : Accrues n pid s a m til husky) :
    a.bonusPerShare ≤ a.perShare :=
  Nat.div_le_div_right (Nat.mul_le_mul_right _ h.bonusReward_le)

/-- The pool's sum grows by the reward of one share. -/
theorem acc_accrue_self (h : Accrues n pid s a m til husky) :
    (s.accrue husky m til a).acc pid = s.acc pid + a.perShare := by
  simp [State.acc, State.accrue, State.setPoolInfo, h.pid_eq, Accrual.perShare]

theorem til_accrue_self (h : Accrues n pid s a m til husky) :
    (s.accrue husky m til a).til pid = til := by
  simp [State.til, State.accrue, State.setPoolInfo, h.pid_eq]

theorem acc_accrue_of_ne {p : Nat} (h : Accrues n pid s a m til husky) (hp : p ≠ pid) :
    (s.accrue husky m til a).acc p = s.acc p := by
  simp [State.acc, State.accrue, State.setPoolInfo, State.setHusky, h.pid_eq, hp]

theorem til_accrue_of_ne {p : Nat} (h : Accrues n pid s a m til husky) (hp : p ≠ pid) :
    (s.accrue husky m til a).til p = s.til p := by
  simp [State.til, State.accrue, State.setPoolInfo, State.setHusky, h.pid_eq, hp]

theorem acc_empty (p : Nat) :
    (s.setPoolInfo pid { s.poolInfo pid with lastRewardBlock := n }).acc p = s.acc p := by
  by_cases hp : p = pid <;> simp [State.acc, State.setPoolInfo, hp]

theorem til_empty (p : Nat) :
    (s.setPoolInfo pid { s.poolInfo pid with lastRewardBlock := n }).til p = s.til p := by
  by_cases hp : p = pid <;> simp [State.til, State.setPoolInfo, hp]

theorem Updated.acc_mono (h : Updated n pid s s') (p : Nat) : s.acc p ≤ s'.acc p := by
  cases h with
  | current _ => exact le_rfl
  | empty _ _ => exact (acc_empty p).ge
  | accrued haccrues =>
      by_cases hp : p = pid
      · subst hp
        rw [acc_accrue_self haccrues]
        omega
      · exact (acc_accrue_of_ne haccrues hp).ge

end Accumulators

/-! ## The invariant -/

/-- The sums fit their word and no debt exceeds what its stake is worth. -/
structure Sound (s : State) : Prop where
  acc_word : ∀ p, s.acc p < wordSize
  til_le : ∀ p, s.til p ≤ s.acc p
  debts : ∀ p user, (s.userInfo p user).rewardDebt * precision ≤
    (s.userInfo p user).amount * s.acc p
  unlisted : ∀ p user, s.poolLength ≤ p → s.userInfo p user = {}

section Sound

variable {s s' : State} {n pid : Nat}

theorem userInfo_setUserInfo_of_ne {p pid : Nat} {u user : Address} {info : UserInfo}
    (h : p ≠ pid ∨ u ≠ user) : (s.setUserInfo pid user info).userInfo p u = s.userInfo p u := by
  by_cases hp : p = pid
  · subst hp
    simp [State.setUserInfo, h.resolve_left (fun hne => hne rfl)]
  · simp [State.setUserInfo, hp]

/-- An update keeps the debts below their stakes' worth. -/
theorem Sound.updated (hs : Sound s) (h : Updated n pid s s') : Sound s' := by
  refine ⟨fun p => ?_, fun p => ?_, fun p user => ?_, fun p user hp => ?_⟩
  · cases h with
    | current _ => exact hs.acc_word p
    | empty _ _ => exact (acc_empty p).trans_lt (hs.acc_word p)
    | accrued haccrues =>
        by_cases hp : p = pid
        · subst hp
          rw [acc_accrue_self haccrues]
          exact haccrues.word
        · exact (acc_accrue_of_ne haccrues hp).trans_lt (hs.acc_word p)
  · cases h with
    | current _ => exact hs.til_le p
    | empty _ _ =>
        rw [acc_empty, til_empty]
        exact hs.til_le p
    | accrued haccrues =>
        by_cases hp : p = pid
        · subst hp
          have hold := hs.til_le p
          have hpart := haccrues.bonusPerShare_le
          rw [acc_accrue_self haccrues, til_accrue_self haccrues]
          obtain rfl := haccrues.pid_eq
          -- inside the window both sums are equal; after it the bonus gains less
          cases haccrues.bonus with
          | window _ _ htil => exact htil.le
          | crossing _ _ _ htil =>
              rw [htil]
              exact Nat.add_le_add hold hpart
          | after _ _ _ htil =>
              rw [htil]
              exact hold.trans (Nat.le_add_right _ _)
        · rw [acc_accrue_of_ne haccrues hp, til_accrue_of_ne haccrues hp]
          exact hs.til_le p
  · rw [h.userInfo]
    exact (hs.debts p user).trans (Nat.mul_le_mul_left _ (h.acc_mono p))
  · rw [h.userInfo]
    exact hs.unlisted p user (h.poolLength ▸ hp)

/-- The debts stay within their stakes' worth over each part of a call. -/
theorem sound_rule (n : Nat) (keeps : Bool) : StakeRule (fun _ _ => True) n keeps Sound where
  same t t' ht hsame _ := by
    have hacc : t'.acc = t.acc := by
      unfold State.acc
      rw [hsame.poolInfo]
    have htil : t'.til = t.til := by
      unfold State.til
      rw [hsame.poolInfo]
    refine ⟨?_, ?_, ?_, ?_⟩ <;> simp only [hacc, htil, hsame.userInfo, hsame.poolLength]
    · exact ht.acc_word
    · exact ht.til_le
    · exact ht.debts
    · exact ht.unlisted
  updated _ _ _ ht _ _ hupdated := ht.updated hupdated
  added t allocPoint stakeToken ht _ := by
    refine ⟨fun p => ?_, fun p => ?_, fun p user => ?_, fun p user hp => ?_⟩
    -- the new pool starts at zero
    all_goals by_cases hlast : p = t.poolLength
    · simp [State.acc, State.added, State.setPoolInfo, hlast, wordSize]
    · simpa [State.acc, State.added, State.setPoolInfo, hlast] using ht.acc_word p
    · simp [State.acc, State.til, State.added, State.setPoolInfo, hlast]
    · simpa [State.acc, State.til, State.added, State.setPoolInfo, hlast] using ht.til_le p
    · have hnone : (t.added n allocPoint stakeToken).userInfo p user = {} :=
        ht.unlisted p user hlast.ge
      simp [hnone]
    · simpa [State.acc, State.added, State.setPoolInfo, hlast] using ht.debts p user
    · exact ht.unlisted p user hlast.ge
    · exact ht.unlisted p user ((Nat.le_succ _).trans hp)
  weighed t pid allocPoint ht _ _ _ := by
    have hacc : (t.weighed pid allocPoint).acc = t.acc := by
      funext p
      by_cases hp : p = pid <;> simp [State.acc, State.weighed, State.setPoolInfo, hp]
    have htil : (t.weighed pid allocPoint).til = t.til := by
      funext p
      by_cases hp : p = pid <;> simp [State.til, State.weighed, State.setPoolInfo, hp]
    refine ⟨?_, ?_, ?_, ht.unlisted⟩ <;> simp only [hacc, htil]
    · exact ht.acc_word
    · exact ht.til_le
    · exact ht.debts
  settled t pid user amount fundedBy ht hpid := by
    refine ⟨ht.acc_word, ht.til_le, fun p u => ?_, fun p u hp => ?_⟩
    · by_cases hhere : p = pid ∧ u = user
      -- the debt that is written is rounded down
      · obtain ⟨rfl, rfl⟩ := hhere
        rw [State.settleUser]
        simp only [userInfo_setUserInfo]
        exact Nat.div_mul_le_self _ _
      · show ((t.setUserInfo pid user _).userInfo p u).rewardDebt * _ ≤ _
        rw [State.settleUser]
        simp only [userInfo_setUserInfo_of_ne (not_and_or.mp hhere)]
        exact ht.debts p u
    · have hne : p ≠ pid := fun h => absurd hpid (Nat.not_lt.mpr (h ▸ hp))
      rw [State.settleUser]
      simp only [userInfo_setUserInfo_of_ne (.inl hne)]
      exact ht.unlisted p u hp
  emergency t pid user ht hpid := by
    refine ⟨ht.acc_word, ht.til_le, fun p u => ?_, fun p u hp => ?_⟩
    · by_cases hhere : p = pid ∧ u = user
      · obtain ⟨rfl, rfl⟩ := hhere
        simp [userInfo_setUserInfo]
      · simp only [userInfo_setUserInfo_of_ne (not_and_or.mp hhere)]
        exact ht.debts p u
    · have hne : p ≠ pid := fun h => absurd hpid (Nat.not_lt.mpr (h ▸ hp))
      simp only [userInfo_setUserInfo_of_ne (.inl hne)]
      exact ht.unlisted p u hp

/-- The debts are within their stakes' worth in every state of a run. -/
theorem sound_inductive : machine.Inductive (fun _ _ => True) (fun c => Sound c.state) where
  init c h := by
    obtain ⟨_, _, _, _, _, _, _, _, _, _, h⟩ := h
    rw [h]
    refine ⟨fun _ => ?_, fun _ => le_rfl, fun _ _ => ?_, fun _ _ _ => rfl⟩
    · simp [State.acc, initState, wordSize]
    · simp [initState]
  step c tx c' hc _ h := by
    obtain ⟨_, _, _, _, hexec⟩ := mine_eq_ok h
    exact (sound_rule _ _).exec (updatesMeet_true _ _ _) hc hexec

end Sound

end Huski.FairLaunch
