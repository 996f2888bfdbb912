import Huski.FairLaunchV2.Run

/-!
# Debts of V2's stakers

V2 moves a debt by the floored entitlement of the amount that comes or goes, where V1 takes
the floor anew for the amount that stays. Floors of parts add up to at most the floor of the
whole, so a deposit keeps the debt under the entitlement; a part withdrawal takes the floor
of the part off the floor of the whole, and may leave a debt of one too many.
-/

namespace Huski.FairLaunchV2

open Solidity State

/-- No debt is above the entitlement of its stake; a pool that does not exist has no
entries. -/
structure Sound (s : State) : Prop where
  debts : ∀ p user, (s.userInfo p user).rewardDebt ≤ s.entitled p (s.userInfo p user).amount
  unlisted : ∀ p user, s.poolLength ≤ p → s.userInfo p user = {}

/-- A part withdrawal whose floor and the floor of what stays add up to the whole. -/
def NoBorrow (s : State) (pid : Nat) (user : Address) : Action → Prop
  | .withdraw amount =>
      amount * (s.poolInfo pid).accHuskyPerShare % precision +
        ((s.userInfo pid user).amount - amount) * (s.poolInfo pid).accHuskyPerShare % precision <
          precision
  | _ => True

section Entitled

variable {s s' : State} {pid : Nat} {a b : Nat}

theorem precision_pos : 0 < precision := by norm_num [precision]

theorem entitled_add_le : s.entitled pid a + s.entitled pid b ≤ s.entitled pid (a + b) := by
  unfold State.entitled
  rw [Nat.add_mul]
  exact Nat.div_add_div_le_add_div

/-- Without a borrow the floors of the parts are the floor of the whole. -/
theorem entitled_add (h : a * (s.poolInfo pid).accHuskyPerShare % precision +
    b * (s.poolInfo pid).accHuskyPerShare % precision < precision) :
    s.entitled pid (a + b) = s.entitled pid a + s.entitled pid b := by
  unfold State.entitled
  rw [Nat.add_mul, Nat.add_div precision_pos, if_neg h.not_ge, Nat.add_zero]

theorem entitled_mono (h : (s.poolInfo pid).accHuskyPerShare ≤ (s'.poolInfo pid).accHuskyPerShare)
    (a : Nat) : s.entitled pid a ≤ s'.entitled pid a :=
  Nat.div_le_div_right (Nat.mul_le_mul_left _ h)

theorem entitled_congr (h : s'.poolInfo = s.poolInfo) : s'.entitled = s.entitled := by
  unfold State.entitled
  rw [h]

end Entitled

section Sound

variable {s s' : State} {msg : FairLaunch.Msg} {pid : Nat} {user : Address} {action : Action}

/-- What is written to an entry stays within its entitlement. -/
theorem Writes.sound {info : UserInfo} (h : Writes msg.sender s pid user action info)
    (hdebt : (s.userInfo pid user).rewardDebt ≤ s.entitled pid (s.userInfo pid user).amount)
    (hA : NoBorrow s pid user action) : info.rewardDebt ≤ s.entitled pid info.amount := by
  cases h with
  | @deposit amount _ _ =>
      exact (Nat.add_le_add_right hdebt _).trans entitled_add_le
  | @withdraw amount _ le =>
      have hsplit := entitled_add hA
      rw [Nat.add_sub_cancel' le] at hsplit
      show s.entitled pid (s.userInfo pid user).amount - s.entitled pid amount ≤
        s.entitled pid ((s.userInfo pid user).amount - amount)
      omega
  | harvest => exact le_rfl
  | emergencyWithdraw _ _ => exact Nat.zero_le _

theorem Sound.acts (hs : Sound s) (hA : NoBorrow s pid user action)
    (h : Acts msg.sender pid user action s s') : Sound s' := by
  obtain ⟨info, hwrites, huser⟩ := h.writes
  refine ⟨fun p u => ?_, fun p u hp => ?_⟩
  · rw [entitled_congr h.pools.poolInfo, huser]
    by_cases hhere : p = pid ∧ u = user
    · obtain ⟨rfl, rfl⟩ := hhere
      rw [userInfo_setUserInfo]
      exact hwrites.sound (hs.debts p u) hA
    · rw [userInfo_setUserInfo_of_ne (not_and_or.mp hhere)]
      exact hs.debts p u
  · rw [h.pools.poolLength] at hp
    have hne : p ≠ pid := fun heq => absurd h.listed (Nat.not_lt.mpr (heq ▸ hp))
    rw [huser, userInfo_setUserInfo_of_ne (.inl hne)]
    exact hs.unlisted p u hp

theorem sound_rule (msg : FairLaunch.Msg) : CallRule { A := NoBorrow } msg Sound where
  same t t' ht hsame := by
    refine ⟨?_, ?_⟩ <;> rw [hsame.userInfo]
    · rw [entitled_congr hsame.poolInfo]
      exact ht.debts
    · rw [hsame.poolLength]
      exact ht.unlisted
  updated t t' p ht _ _ hupdated := by
    refine ⟨fun q u => ?_, fun q u hq => ?_⟩ <;> rw [hupdated.userInfo]
    · exact (ht.debts q u).trans (entitled_mono (hupdated.acc_mono q) _)
    · exact ht.unlisted q u (hupdated.poolLength ▸ hq)
  added t allocPoint stakeToken locker startBlock ht := by
    refine ⟨fun q u => ?_, fun q u hq => ht.unlisted q u ((Nat.le_succ _).trans hq)⟩
    show (t.userInfo q u).rewardDebt ≤ _
    -- the new pool has no entry yet, and the old ones are as they were
    by_cases hlast : q = t.poolLength
    · rw [ht.unlisted q u hlast.ge]
      exact Nat.zero_le _
    · have hold : (t.added msg.blockNumber allocPoint stakeToken locker startBlock).entitled q =
          t.entitled q := by
        unfold State.entitled
        simp [State.added, State.setPoolInfo, hlast]
      rw [hold]
      exact ht.debts q u
  weighed t p allocPoint lockers ht _ _ _ _ := by
    -- the weight of a pool is not read by what an entry is entitled to
    have hold : (t.weighed p allocPoint lockers).entitled = t.entitled := by
      funext q a
      by_cases hq : q = p <;> simp [State.entitled, State.weighed, State.setPoolInfo, hq]
    refine ⟨fun q u => ?_, ht.unlisted⟩
    rw [hold]
    exact ht.debts q u
  acts _ _ _ _ _ ht hA hacts := ht.acts hA hacts

end Sound

/-- Part withdrawals borrow no unit from the floors. -/
def WithoutBorrow (c : Chain) (tx : Tx) : Prop :=
  ({ A := NoBorrow } : Conditions).Meet tx.msg tx.op c.state

theorem sound_inductive : machine.Inductive WithoutBorrow (fun c => Sound c.state) where
  init c h := by
    obtain ⟨_, _, _, _, _, _, _, _, h⟩ := h
    rw [h]
    exact ⟨fun _ _ => Nat.zero_le _, fun _ _ _ => rfl⟩
  step c tx c' hc hmeet h := by
    obtain ⟨_, _, _, _, hexec⟩ := mine_eq_ok h
    exact (sound_rule tx.msg).exec hmeet hc hexec

/-! ## Debts over every run -/

/-- Every debt is at most the floored entitlement, now and after an update, so that the
subtraction of a harvest goes through. -/
def DebtsCovered (s : State) : Prop :=
  (∀ pid user, (s.userInfo pid user).rewardDebt ≤
    (s.userInfo pid user).amount * (s.poolInfo pid).accHuskyPerShare / 10 ^ 12) ∧
  ∀ n pid user s₁, updatePool n pid s = .ok s₁ →
    due pid user s₁ ≠ .error "SafeMath: subtraction overflow"

theorem due_ne_underflow {s : State} {pid : Nat} {user : Address}
    (h : (s.userInfo pid user).rewardDebt ≤ s.entitled pid (s.userInfo pid user).amount) :
    due pid user s ≠ .error "SafeMath: subtraction overflow" := by
  refine bind_ne_error ?_ fun pool hpool => ?_
  · unfold State.poolAt
    split <;> simp
  obtain ⟨_, rfl⟩ := poolAt_eq_ok hpool
  refine bind_ne_error ?_ fun total htotal => bind_ne_error ?_ fun _ _ => fun h => nomatch h
  · refine bind_ne_error (fun hmul => ?_) fun product _ => fun hdiv => ?_
    · exact absurd (SafeMath.mul_eq_error.mp hmul).2 (by decide)
    · exact absurd (SafeMath.div_eq_error.mp hdiv).2 (by decide)
  · intro hsub
    simp only [accumulated, bind_eq_ok, SafeMath.mul_eq_ok, SafeMath.div_eq_ok] at htotal
    obtain ⟨_, ⟨_, rfl⟩, _, rfl⟩ := htotal
    exact absurd (SafeMath.sub_eq_error.mp hsub).1 h.not_gt

theorem Sound.debtsCovered {s : State} (hs : Sound s) : DebtsCovered s := by
  refine ⟨hs.debts, fun n pid user s₁ hupdate => due_ne_underflow ?_⟩
  have hupdated := (updatePool_eq_ok hupdate).2
  rw [hupdated.userInfo]
  exact (hs.debts pid user).trans (entitled_mono (hupdated.acc_mono pid) _)

/-! ## The calls that take a debt off -/

/-- The call reverts on a subtraction. -/
def Underflows {α : Type} (x : Result α) : Prop := x = .error "SafeMath: subtraction overflow"

/-- Of a harvest for the user, what V1's hook or the payment of the entitlement less the debt
does reverts on a subtraction. -/
def OutsideUnderflows (n pid : Nat) (user : Address) (s : State) : Prop :=
  let info := s.userInfo pid user
  let total := s.entitled pid info.amount
  Underflows (harvestFromFairLaunchV1 n s) ∨
    ∃ s₁, harvestFromFairLaunchV1 n s = .ok s₁ ∧
      Underflows (payReward n pid user (total - info.rewardDebt)
        (s₁.setUserInfo pid user { info with rewardDebt := total }))

/-- A harvest or a withdrawal that reverts on a subtraction does so in the update of the pool, in
the hook, in the payment, or in the transfer of the stake: never where it takes the debt off. -/
structure CallsCovered (s : State) : Prop where
  harvest : ∀ msg pid, Underflows (harvest msg pid s) →
    Underflows (updatePool msg.blockNumber pid s) ∨
      ∃ s₁, updatePool msg.blockNumber pid s = .ok s₁ ∧
        OutsideUnderflows msg.blockNumber pid msg.sender s₁
  withdraw : ∀ msg user pid amount, Underflows (withdraw msg user pid amount s) →
    Underflows (updatePool msg.blockNumber pid s) ∨
      ∃ s₁, updatePool msg.blockNumber pid s = .ok s₁ ∧
        (OutsideUnderflows msg.blockNumber pid user s₁ ∨
          ∃ s₂ info, _harvest msg.blockNumber user pid s₁ = .ok s₂ ∧
            Underflows ((s₂.setUserInfo pid user info).safeTransfer msg.blockNumber
              (s₂.stakeTokens pid) msg.sender amount))

section Calls

variable {s s₁ s₂ : State} {n pid amount : Nat} {user : Address} {msg : FairLaunch.Msg}

theorem _harvest_underflows
    (hdebt : (s.userInfo pid user).rewardDebt ≤ s.entitled pid (s.userInfo pid user).amount)
    (h : Underflows (_harvest n user pid s)) : OutsideUnderflows n pid user s := by
  rcases bind_eq_error.mp h with hhook | ⟨s₁, hhook, h⟩
  · exact .inl hhook
  have hsame := sameStakes_of_hook hhook
  have hentitled := entitled_congr hsame.poolInfo
  rcases bind_eq_error.mp h with hdue | ⟨⟨total, pending⟩, hdue, h⟩
  · refine absurd hdue (due_ne_underflow ?_)
    rw [hentitled, hsame.userInfo]
    exact hdebt
  obtain ⟨_, htotal, _, hpending⟩ := due_eq_ok hdue
  rw [hentitled, hsame.userInfo] at htotal
  rw [hsame.userInfo] at hpending
  subst htotal hpending
  dsimp only at h
  split at h
  · cases h
  rcases bind_eq_error.mp h with hrequire | ⟨_, _, hpay⟩
  · exact absurd hrequire (require_ne_error (by simp))
  · refine .inr ⟨s₁, hhook, ?_⟩
    rw [hsame.userInfo] at hpay
    exact hpay

/-- A successful harvest leaves the entitlement as the debt, so that the part of it that a
withdrawal takes off is at most the debt. -/
theorem entitled_le_debt (h : _harvest n user pid s = .ok s₁)
    (hle : amount ≤ (s.userInfo pid user).amount) :
    s.entitled pid amount ≤ (s₁.userInfo pid user).rewardDebt ∧
      (s₁.userInfo pid user).amount = (s.userInfo pid user).amount := by
  have hacts : _ ∧ Acts (FairLaunch.Msg.mk user n).sender pid user .harvest s s₁ :=
    _harvest_eq_ok h
  obtain ⟨_, _, _, info, hwrites, huser⟩ := hacts
  cases hwrites
  rw [huser, userInfo_setUserInfo]
  exact ⟨Nat.div_le_div_right (Nat.mul_le_mul_right _ hle), rfl⟩

theorem withdraw_underflows
    (hdebt : ∀ s₁, updatePool msg.blockNumber pid s = .ok s₁ →
      (s₁.userInfo pid user).rewardDebt ≤ s₁.entitled pid (s₁.userInfo pid user).amount)
    (h : Underflows (withdraw msg user pid amount s)) :
    Underflows (updatePool msg.blockNumber pid s) ∨
      ∃ s₁, updatePool msg.blockNumber pid s = .ok s₁ ∧
        (OutsideUnderflows msg.blockNumber pid user s₁ ∨
          ∃ s₂ info, _harvest msg.blockNumber user pid s₁ = .ok s₂ ∧
            Underflows ((s₂.setUserInfo pid user info).safeTransfer msg.blockNumber
              (s₂.stakeTokens pid) msg.sender amount)) := by
  rcases bind_eq_error.mp h with hupdate | ⟨s₁, hupdate, h⟩
  · exact .inl hupdate
  refine .inr ⟨s₁, hupdate, ?_⟩
  rcases bind_eq_error.mp h with hpool | ⟨pool, hpool, h⟩
  -- an unlisted pool is an index out of bounds, which is no underflow
  · unfold State.poolAt at hpool
    split at hpool <;> simp at hpool
  obtain ⟨_, rfl⟩ := poolAt_eq_ok hpool
  rcases bind_eq_error.mp h with hrequire | ⟨_, _, h⟩
  · exact absurd hrequire (require_ne_error (by simp))
  rcases bind_eq_error.mp h with hrequire | ⟨_, hle, h⟩
  · exact absurd hrequire (require_ne_error (by simp))
  have hle := require_eq_ok.mp hle
  rcases bind_eq_error.mp h with hharvest | ⟨s₂, hharvest, h⟩
  · exact .inl (_harvest_underflows (hdebt s₁ hupdate) hharvest)
  -- after the harvest the debt covers the part that leaves
  obtain ⟨hpart, hamount⟩ := entitled_le_debt hharvest hle
  rcases bind_eq_error.mp h with hmul | ⟨product, hmul, h⟩
  · exact absurd (SafeMath.mul_eq_error.mp hmul).2 (by decide)
  obtain ⟨_, rfl⟩ := SafeMath.mul_eq_ok.mp hmul
  rcases bind_eq_error.mp h with hsub | ⟨rewardDebt, _, h⟩
  · exact absurd (SafeMath.sub_eq_error.mp hsub).1 (Nat.not_lt.mpr hpart)
  rcases bind_eq_error.mp h with hsub | ⟨left, _, hmove⟩
  · exact absurd (SafeMath.sub_eq_error.mp hsub).1 (Nat.not_lt.mpr (hamount ▸ hle))
  · exact .inr ⟨s₂, _, hharvest, hmove⟩

theorem Sound.callsCovered (hs : Sound s) : CallsCovered s := by
  have hdebt : ∀ {n pid s₁}, updatePool n pid s = .ok s₁ → ∀ user,
      (s₁.userInfo pid user).rewardDebt ≤ s₁.entitled pid (s₁.userInfo pid user).amount := by
    intro n pid s₁ hupdate user
    have hupdated := (updatePool_eq_ok hupdate).2
    rw [hupdated.userInfo]
    exact (hs.debts pid user).trans (entitled_mono (hupdated.acc_mono pid) _)
  refine ⟨fun msg pid h => ?_, fun msg user pid amount h =>
    withdraw_underflows (fun s₁ hupdate => hdebt hupdate user) h⟩
  rcases bind_eq_error.mp h with hupdate | ⟨s₁, hupdate, hharvest⟩
  · exact .inl hupdate
  · exact .inr ⟨s₁, hupdate, _harvest_underflows (hdebt hupdate msg.sender) hharvest⟩

end Calls

/-- The debt a withdrawal leaves is covered exactly when it borrows nothing. -/
theorem withdraw_covered_iff {msg : FairLaunch.Msg} {s s' : State} {pid amount : Nat}
    {user : Address} (h : Acts msg.sender pid user (.withdraw amount) s s') :
    (s'.userInfo pid user).rewardDebt ≤ s'.entitled pid (s'.userInfo pid user).amount ↔
      NoBorrow s pid user (.withdraw amount) := by
  obtain ⟨info, hwrites, huser⟩ := h.writes
  cases hwrites with
  | withdraw _ le =>
      rw [entitled_congr h.pools.poolInfo, huser, userInfo_setUserInfo]
      show s.entitled pid (s.userInfo pid user).amount - s.entitled pid amount ≤
        s.entitled pid ((s.userInfo pid user).amount - amount) ↔ _
      have hsplit : (s.userInfo pid user).amount * (s.poolInfo pid).accHuskyPerShare =
          amount * (s.poolInfo pid).accHuskyPerShare +
            ((s.userInfo pid user).amount - amount) * (s.poolInfo pid).accHuskyPerShare := by
        rw [← Nat.add_mul, Nat.add_sub_cancel' le]
      -- the floor of the sum exceeds the sum of the floors exactly when the remainders carry
      have hfloors := Nat.add_div (a := amount * (s.poolInfo pid).accHuskyPerShare)
        (b := ((s.userInfo pid user).amount - amount) * (s.poolInfo pid).accHuskyPerShare)
        precision_pos
      rw [← hsplit] at hfloors
      unfold State.entitled NoBorrow
      dsimp only
      rw [hfloors, Nat.add_assoc, Nat.add_sub_cancel_left]
      split
      · rename_i hborrow
        exact ⟨fun hle => absurd hle (Nat.not_succ_le_self _), fun hlt => absurd hborrow hlt.not_ge⟩
      · rename_i hfree
        exact ⟨fun _ => Nat.lt_of_not_le hfree, fun _ => le_rfl⟩

/-- In every run whose part withdrawals borrow no unit, all debts are covered in every
state, and neither a harvest nor a withdrawal reverts where it takes a debt off; and a
withdrawal of any run leaves a covered debt exactly if it borrows none. -/
theorem debtsCovered_of_noBorrow (c : Chain) :
    (machine.ReachableBy WithoutBorrow c → DebtsCovered c.state ∧ CallsCovered c.state) ∧
    ∀ c' sender n user pid amount, machine.Reachable c →
      machine.step c ⟨sender, n, .withdraw user pid amount⟩ = .ok c' →
      ((c'.state.userInfo pid user).rewardDebt ≤ (c'.state.userInfo pid user).amount *
          (c'.state.poolInfo pid).accHuskyPerShare / 10 ^ 12 ↔
        ∀ s₁, updatePool n pid c.state = .ok s₁ → NoBorrow s₁ pid user (.withdraw amount)) := by
  refine ⟨fun hreach => ?_, ?_⟩
  · have hs := sound_inductive.invariant hreach
    exact ⟨hs.debtsCovered, hs.callsCovered⟩
  intro c' sender n user pid amount _ hstep
  obtain ⟨_, _, _, _, hexec⟩ := mine_eq_ok hstep
  obtain ⟨s₁, hupdate, hacts⟩ := withdraw_eq_ok hexec
  refine (withdraw_covered_iff hacts).trans ⟨fun h s₂ hupdate₂ => ?_, fun h => h s₁ hupdate⟩
  obtain rfl : s₁ = s₂ := Except.ok.inj (hupdate.symm.trans hupdate₂)
  exact h

/-- A master pool that earns 1 a block, and a pool of V2 in which account 2 stakes 2. -/
def stakedRun : List Tx :=
  [⟨50, 0, .v1 (.addPool 102 102 false)⟩, ⟨1, 0, .init 102⟩, ⟨1, 0, .addPool 1 103 0 0⟩,
    ⟨2, 1, .deposit 2 0 2⟩]

theorem withoutBorrow_of_deposit (c : Chain) (tx : Tx)
    (h : ∀ user pid amount, tx.op ≠ .withdraw user pid amount) : WithoutBorrow c tx := by
  obtain ⟨sender, n, op⟩ := tx
  unfold WithoutBorrow
  cases op with
  | withdraw user pid amount => exact absurd rfl (h user pid amount)
  | massUpdatePools pids => exact updatesAlong_true n pids c.state
  | deposit => exact fun _ _ => ⟨trivial, fun _ _ => trivial⟩
  | harvest => exact ⟨trivial, fun _ _ => trivial⟩
  | setPool => exact ⟨trivial, fun _ _ => trivial⟩
  | _ => trivial

/-- Account 2 harvests in block 3, where a share has earned a whole unit, and withdraws half of
its stake. After it all debts are covered, and calls too. -/
theorem debtsCovered_of_stakedRun :
    ∃ c, machine.Reachable c ∧ (c.state.userInfo 0 2).amount = 1 ∧
      (c.state.userInfo 0 2).rewardDebt = 1 ∧ DebtsCovered c.state ∧ CallsCovered c.state := by
  have hrun : machine.lastStep (freshChain 1) (stakedRun ++ [⟨2, 3, .harvest 0⟩])
      ⟨2, 3, .withdraw 2 0 1⟩
      (fun c₁ c => (c.state.userInfo 0 2).amount = 1 ∧ (c.state.userInfo 0 2).rewardDebt = 1 ∧
        (updatePool 3 0 c₁.state).toOption.all (fun s =>
          1 * (s.poolInfo 0).accHuskyPerShare % precision +
            ((s.userInfo 0 2).amount - 1) * (s.poolInfo 0).accHuskyPerShare % precision <
              precision) = true) = true := by
    decide +kernel
  have hfree : ∀ τ, ∀ tx ∈ stakedRun ++ [⟨2, 3, .harvest 0⟩], WithoutBorrow τ tx := by
    intro τ tx htx
    refine withoutBorrow_of_deposit τ tx ?_
    simp only [stakedRun, List.cons_append, List.nil_append, List.mem_cons, List.not_mem_nil,
      or_false] at htx
    rcases htx with rfl | rfl | rfl | rfl | rfl <;> exact fun _ _ _ h => nomatch h
  obtain ⟨c₁, c, hreach, hstep, htest⟩ :=
    TSys.lastStep_reachableBy (freshChain_init 1) hfree hrun
  obtain ⟨hamount, hdebt, hall⟩ := of_decide_eq_true htest
  -- the remainders of the two parts of the entry do not carry
  have hlast : WithoutBorrow c₁ ⟨2, 3, .withdraw 2 0 1⟩ := by
    refine ⟨trivial, fun s₁ hupdate => ?_⟩
    rw [show updatePool 3 0 c₁.state = .ok s₁ from hupdate] at hall
    have hborrows := of_decide_eq_true hall
    exact hborrows
  have hreach := TSys.ReachableBy.step hreach hlast hstep
  exact ⟨c, hreach.reachable, hamount, hdebt, (debtsCovered_of_noBorrow c).1 hreach⟩

/-- Half of the stake earns half a unit in a block. Account 2 withdraws it, and cannot
harvest in that block. -/
theorem partWithdrawal_borrows :
    ∃ c, machine.Reachable c ∧ (c.state.userInfo 0 2).amount = 1 ∧
      (c.state.userInfo 0 2).rewardDebt = 1 ∧
      mine c ⟨2, 2, .harvest 0⟩ = .error "SafeMath: subtraction overflow" ∧
      ¬ DebtsCovered c.state := by
  have hrun : machine.lastStep (freshChain 1) stakedRun ⟨2, 2, .withdraw 2 0 1⟩
      (fun _ c => (c.state.userInfo 0 2).amount = 1 ∧ (c.state.userInfo 0 2).rewardDebt = 1 ∧
        (c.state.poolInfo 0).accHuskyPerShare = 5 * 10 ^ 11 ∧
        failsWith "SafeMath: subtraction overflow" (mine c ⟨2, 2, .harvest 0⟩) = true) = true := by
    decide +kernel
  obtain ⟨c₁, c, hreach, hstep, htest⟩ := TSys.lastStep_reachable (freshChain_init 1) hrun
  obtain ⟨hamount, hdebt, hacc, hfails⟩ := of_decide_eq_true htest
  have hreach := TSys.ReachableBy.step hreach trivial hstep
  refine ⟨c, hreach, hamount, hdebt, eq_error_of_failsWith hfails, fun h => ?_⟩
  have hle := h.1 0 2
  rw [hamount, hdebt, hacc] at hle
  norm_num at hle

end Huski.FairLaunchV2
