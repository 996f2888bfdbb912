import Huski.FairLaunch.Reverts
import Huski.Lib.RewardShare

/-!
# The bonus of a settlement

A harvest locks a part of its `bonus`, which is computed from the second accumulator. An update in
the bonus window sets that accumulator to the main one, whatever the main one was credited outside
of windows before. The two grow alike where an update in a window finds them equal; then a bonus is
what was credited since the last settlement, and at most one unit above the reward that is paid.
-/

namespace Huski.FairLaunch

open Solidity State RewardShare

/-- The accruals of a pool since the last write of the user's debts, newest first. -/
def State.since (s : State) (p : Nat) (u : Address) : List Accrual :=
  (s.accruals.take (s.accruals.length - s.settledAt p u)).filter (·.pid = p)

/-- What the main accumulator was credited since. -/
def State.accruedSince (s : State) (p : Nat) (u : Address) : Nat :=
  ((s.since p u).map Accrual.perShare).sum

/-- What of it was credited with the bonus multiplier. -/
def State.creditedSince (s : State) (p : Nat) (u : Address) : Nat :=
  ((s.since p u).map Accrual.bonusPerShare).sum

/-- The reward that the user's stake accrued, in blocks credited with the bonus multiplier, since
the last settlement. -/
def State.bonusEarned (s : State) (p : Nat) (u : Address) : ℚ :=
  ((s.since p u).map fun a =>
    ((s.userInfo p u).amount : ℚ) * a.bonusReward / a.lpSupply).sum

/-- An update that accrues in the bonus window finds nothing that was accrued outside of one. -/
def Caught (n : Nat) (s : State) (pid : Nat) : Prop :=
  (s.poolInfo pid).lastRewardBlock < n → s.stakeBalance (s.poolInfo pid).stakeToken ≠ 0 →
    n ≤ s.bonusEndBlock → s.til pid = s.acc pid

instance (n : Nat) (s : State) (pid : Nat) : Decidable (Caught n s pid) :=
  inferInstanceAs (Decidable (_ → _ → _ → _))

/-- A transaction all of whose updates are so. -/
def Crediting (c : Chain) (tx : Tx) : Prop :=
  UpdatesMeet (Caught tx.blockNumber) tx.blockNumber tx.op c.state

/-! ## Accruals since a settlement -/

section Since

variable {n pid m til : Nat} {s s' : State} {a : Accrual} {husky : HuskyToken} {p : Nat}
  {u : Address}

theorem since_accrue (hsettled : s.settledAt p u ≤ s.accruals.length) :
    (s.accrue husky m til a).since p u =
      if a.pid = p then a :: s.since p u else s.since p u := by
  have hlength : s.accruals.length + 1 - s.settledAt p u =
      s.accruals.length - s.settledAt p u + 1 := by
    omega
  show ((a :: s.accruals).take (s.accruals.length + 1 - s.settledAt p u)).filter _ = _
  rw [hlength, List.take_succ_cons, List.filter_cons]
  simp only [decide_eq_true_eq]
  rfl

theorem since_settled (hsettled : s.settledAt p u = s.accruals.length) : s.since p u = [] := by
  unfold State.since
  rw [hsettled, Nat.sub_self]
  rfl

theorem since_congr (haccruals : s'.accruals = s.accruals)
    (hsettled : s'.settledAt p u = s.settledAt p u) : s'.since p u = s.since p u := by
  unfold State.since
  rw [haccruals, hsettled]

/-- In an accrual that finds the accumulators equal, or is outside the window, the second one grows
by what is credited with the bonus. -/
theorem til_eq_of_caught (hcaught : Caught n s pid) (h : Accrues n pid s a m til husky) :
    til = s.til pid + a.bonusPerShare := by
  obtain rfl := h.pid_eq
  unfold Accrual.bonusPerShare State.til
  cases h.bonus with
  | window inside all til_eq =>
      have hequal := hcaught h.behind (h.supply ▸ h.staked) inside
      unfold State.til State.acc at hequal
      rw [til_eq, all, hequal]
  | crossing _ _ _ til_eq => exact til_eq
  | after _ _ none til_eq =>
      rw [til_eq, none, Nat.zero_mul, Nat.zero_div, Nat.add_zero]

end Since

/-! ## The invariant -/

/-- The debts of every stake are from its last settlement, and what was credited to it since is
part of what was accrued. -/
structure Credited (s : State) : Prop where
  sound : Sound s
  settledAt_le : ∀ p u, s.settledAt p u ≤ s.accruals.length
  bonus_le : ∀ a ∈ s.accruals, a.bonusReward ≤ a.reward
  reward : ∀ p u, 0 < (s.userInfo p u).amount →
    SettledBefore precision (s.userInfo p u).amount (s.acc p) (s.accruedSince p u)
      (s.userInfo p u).rewardDebt
  bonus : ∀ p u, 0 < (s.userInfo p u).amount →
    SettledBefore precision (s.userInfo p u).amount (s.til p) (s.creditedSince p u)
      (s.userInfo p u).bonusDebt

section Invariant

variable {n pid : Nat} {s s' : State}

theorem Credited.of_same (hs : Credited s) (hsound : Sound s')
    (haccruals : s'.accruals = s.accruals)
    (hsettled : ∀ p u, s'.settledAt p u = s.settledAt p u)
    (huser : ∀ p u, s'.userInfo p u = s.userInfo p u)
    (hacc : ∀ p u, 0 < (s.userInfo p u).amount → s'.acc p = s.acc p)
    (htil : ∀ p u, 0 < (s.userInfo p u).amount → s'.til p = s.til p) : Credited s' := by
  have hsince : ∀ p u, s'.since p u = s.since p u := fun p u =>
    since_congr haccruals (hsettled p u)
  refine ⟨hsound, fun p u => ?_, ?_, fun p u hstake => ?_, fun p u hstake => ?_⟩
  · rw [hsettled, haccruals]
    exact hs.settledAt_le p u
  · rw [haccruals]
    exact hs.bonus_le
  · rw [huser] at hstake ⊢
    rw [hacc p u hstake, State.accruedSince, hsince]
    exact hs.reward p u hstake
  · rw [huser] at hstake ⊢
    rw [htil p u hstake, State.creditedSince, hsince]
    exact hs.bonus p u hstake

theorem Credited.accrue {a : Accrual} {m til : Nat} {husky : HuskyToken} (hs : Credited s)
    (hcaught : Caught n s pid) (h : Accrues n pid s a m til husky) :
    Credited (s.accrue husky m til a) := by
  have hsince : ∀ p u, (s.accrue husky m til a).since p u =
      if a.pid = p then a :: s.since p u else s.since p u := fun p u =>
    since_accrue (hs.settledAt_le p u)
  refine ⟨hs.sound.updated (.accrued h), fun p u => ?_, fun b hb => ?_, fun p u hstake => ?_,
    fun p u hstake => ?_⟩
  · exact (hs.settledAt_le p u).trans (Nat.le_succ _)
  · rcases List.mem_cons.mp hb with rfl | hold
    · exact h.bonusReward_le
    · exact hs.bonus_le b hold
  -- the pool of the accrual, or another one; first for the rewards, then for the bonus
  all_goals by_cases hp : p = pid
  · have hold := (hs.reward p u hstake).accrue a.perShare
    subst hp
    rw [acc_accrue_self h, State.accruedSince, hsince, if_pos h.pid_eq, List.map_cons,
      List.sum_cons]
    exact hold
  · rw [acc_accrue_of_ne h hp, State.accruedSince, hsince,
      if_neg fun heq => hp (heq.symm.trans h.pid_eq)]
    exact hs.reward p u hstake
  · have hold := (hs.bonus p u hstake).accrue a.bonusPerShare
    subst hp
    rw [State.creditedSince, hsince, if_pos h.pid_eq, List.map_cons, List.sum_cons,
      til_accrue_self h, til_eq_of_caught hcaught h]
    exact hold
  · rw [til_accrue_of_ne h hp, State.creditedSince, hsince,
      if_neg fun heq => hp (heq.symm.trans h.pid_eq)]
    exact hs.bonus p u hstake

theorem Credited.updated (hs : Credited s) (hcaught : Caught n s pid) (h : Updated n pid s s') :
    Credited s' := by
  have hsound := hs.sound.updated h
  cases h with
  | current _ => exact hs
  | empty _ _ =>
      exact hs.of_same hsound rfl (fun _ _ => rfl) (fun _ _ => rfl) (fun p _ _ => acc_empty p)
        fun p _ _ => til_empty p
  | accrued haccrues => exact hs.accrue hcaught haccrues

/-- A settlement starts the history of its entry anew. -/
theorem Credited.settled {amount : Nat} {user fundedBy : Address} (hs : Credited s)
    (hsound : Sound (s.settleUser pid user amount fundedBy)) :
    Credited (s.settleUser pid user amount fundedBy) := by
  have hself : (s.settleUser pid user amount fundedBy).settledAt pid user = s.accruals.length := by
    simp [State.settleUser]
  have hother : ∀ p u, ¬ (p = pid ∧ u = user) →
      (s.settleUser pid user amount fundedBy).settledAt p u = s.settledAt p u := by
    intro p u hne
    by_cases hp : p = pid
    · subst hp
      have hu : u ≠ user := fun h => hne ⟨rfl, h⟩
      simp [State.settleUser, hu]
    · simp [State.settleUser, hp]
  have hkept : ∀ p u, ¬ (p = pid ∧ u = user) →
      (s.settleUser pid user amount fundedBy).userInfo p u = s.userInfo p u := fun p u hne =>
    userInfo_setUserInfo_of_ne (not_and_or.mp hne)
  refine ⟨hsound, fun p u => ?_, hs.bonus_le, fun p u hstake => ?_, fun p u hstake => ?_⟩
  -- the position that settles starts anew; the others are as they were
  all_goals by_cases hhere : p = pid ∧ u = user
  · obtain ⟨rfl, rfl⟩ := hhere
    exact hself.le
  · rw [hother p u hhere]
    exact hs.settledAt_le p u
  · obtain ⟨rfl, rfl⟩ := hhere
    have hnothing : (s.settleUser p u amount fundedBy).since p u = [] := since_settled hself
    rw [State.accruedSince, hnothing, State.settleUser]
    simp only [userInfo_setUserInfo]
    exact settledBefore_now amount (s.acc p)
  · have hsince : (s.settleUser pid user amount fundedBy).since p u = s.since p u :=
      since_congr rfl (hother p u hhere)
    rw [hkept p u hhere] at hstake ⊢
    rw [State.accruedSince, hsince]
    exact hs.reward p u hstake
  · obtain ⟨rfl, rfl⟩ := hhere
    have hnothing : (s.settleUser p u amount fundedBy).since p u = [] := since_settled hself
    rw [State.creditedSince, hnothing, State.settleUser]
    simp only [userInfo_setUserInfo]
    exact settledBefore_now amount (s.til p)
  · have hsince : (s.settleUser pid user amount fundedBy).since p u = s.since p u :=
      since_congr rfl (hother p u hhere)
    rw [hkept p u hhere] at hstake ⊢
    rw [State.creditedSince, hsince]
    exact hs.bonus p u hstake

/-- The credits are right over each part of a call. -/
theorem credited_rule (n : Nat) (keeps : Bool) : StakeRule (Caught n) n keeps Credited where
  same t t' ht hsame _ := by
    have hsound := (sound_rule n false).same t t' ht.sound hsame fun h => nomatch h
    refine ht.of_same hsound hsame.accruals (fun p u => ?_) (fun p u => ?_) (fun p _ _ => ?_)
      fun p _ _ => ?_
    · rw [hsame.settledAt]
    · rw [hsame.userInfo]
    · unfold State.acc
      rw [hsame.poolInfo]
    · unfold State.til
      rw [hsame.poolInfo]
  updated _ _ _ ht _ hcaught hupdated := ht.updated hcaught hupdated
  added t allocPoint stakeToken ht hfresh := by
    have hsound := (sound_rule n false).added t allocPoint stakeToken ht.sound hfresh
    -- whoever has a stake has it in a pool that was there before
    have hold : ∀ p u, 0 < (t.userInfo p u).amount → p ≠ t.poolLength := by
      intro p u hstake hnew
      rw [ht.sound.unlisted p u hnew.ge] at hstake
      exact absurd hstake (lt_irrefl 0)
    refine ht.of_same hsound rfl (fun _ _ => rfl) (fun _ _ => rfl) (fun p u hstake => ?_)
      fun p u hstake => ?_
    · simp [State.acc, State.added, State.setPoolInfo, hold p u hstake]
    · simp [State.til, State.added, State.setPoolInfo, hold p u hstake]
  weighed t pid allocPoint ht hsettled hpid hle := by
    have hsound := (sound_rule n false).weighed t pid allocPoint ht.sound hsettled hpid hle
    refine ht.of_same hsound rfl (fun _ _ => rfl) (fun _ _ => rfl) (fun p _ _ => ?_)
      fun p _ _ => ?_
    · by_cases hp : p = pid <;> simp [State.acc, State.weighed, State.setPoolInfo, hp]
    · by_cases hp : p = pid <;> simp [State.til, State.weighed, State.setPoolInfo, hp]
  settled t pid user amount fundedBy ht hpid :=
    ht.settled ((sound_rule n false).settled t pid user amount fundedBy ht.sound hpid)
  emergency t pid user ht hpid := by
    have hsound := (sound_rule n false).emergency t pid user ht.sound hpid
    refine ⟨hsound, ht.settledAt_le, ht.bonus_le, fun p u hstake => ?_, fun p u hstake => ?_⟩
    all_goals by_cases hhere : p = pid ∧ u = user
    -- the entry has no stake left
    · obtain ⟨rfl, rfl⟩ := hhere
      rw [userInfo_setUserInfo] at hstake
      exact absurd hstake (lt_irrefl 0)
    · rw [userInfo_setUserInfo_of_ne (not_and_or.mp hhere)] at hstake ⊢
      exact ht.reward p u hstake
    · obtain ⟨rfl, rfl⟩ := hhere
      rw [userInfo_setUserInfo] at hstake
      exact absurd hstake (lt_irrefl 0)
    · rw [userInfo_setUserInfo_of_ne (not_and_or.mp hhere)] at hstake ⊢
      exact ht.bonus p u hstake

/-- The credits are right in every state of a crediting run. -/
theorem credited_inductive : machine.Inductive Crediting (fun c => Credited c.state) where
  init c h := by
    have hsound := sound_inductive.init c h
    obtain ⟨_, _, _, _, _, _, _, _, _, _, h⟩ := h
    rw [h] at hsound ⊢
    refine ⟨hsound, fun _ _ => le_rfl, (fun _ ha => nomatch ha), fun _ _ hstake => ?_,
      fun _ _ hstake => ?_⟩
    · exact absurd hstake (lt_irrefl 0)
    · exact absurd hstake (lt_irrefl 0)
  step c tx c' hc hcredits h := by
    obtain ⟨_, _, _, _, hexec⟩ := mine_eq_ok h
    have hrule := credited_rule tx.msg.blockNumber (!tx.op.setsRewards)
    exact hrule.exec hcredits hc hexec

end Invariant

/-! ## Bonus and reward of a settlement -/

section Settlement

variable {s : State} {p : Nat} {u : Address}

theorem creditedSince_le_accruedSince (hs : Credited s) (p : Nat) (u : Address) :
    s.creditedSince p u ≤ s.accruedSince p u := by
  refine List.sum_le_sum fun a ha => ?_
  have hmem : a ∈ s.accruals := List.mem_of_mem_take (List.mem_of_mem_filter ha)
  exact Nat.div_le_div_right (Nat.mul_le_mul_right _ (hs.bonus_le a hmem))

/-- The bonus part is within the reward, up to one unit of rounding. -/
theorem Credited.bonus_le_pending (hs : Credited s) (hstake : 0 < (s.userInfo p u).amount) :
    s.bonus p u ≤ s.pending p u + 1 :=
  (hs.bonus p u hstake).claim_mono (hs.reward p u hstake) (creditedSince_le_accruedSince hs p u)

/-- The floored shares of what was credited come to no more than the exact ones. -/
theorem creditedSince_le_bonusEarned (s : State) (p : Nat) (u : Address) :
    (((s.userInfo p u).amount * s.creditedSince p u / precision : ℕ) : ℚ) ≤ s.bonusEarned p u := by
  have hunit : (0 : ℚ) < precision := by norm_num [precision]
  have hexact : ((s.userInfo p u).amount : ℚ) * s.creditedSince p u ≤
      s.bonusEarned p u * precision := by
    unfold State.creditedSince State.bonusEarned
    -- one accrual at a time: a share's bonus is rounded down
    induction s.since p u with
    | nil => simp
    | cons a rest ih =>
        have hshare : (a.bonusPerShare : ℚ) ≤ a.bonusReward * precision / a.lpSupply := by
          unfold Accrual.bonusPerShare
          exact_mod_cast Nat.cast_div_le (α := ℚ) (m := a.bonusReward * precision) (n := a.lpSupply)
        have hpart : ((s.userInfo p u).amount : ℚ) * a.bonusPerShare ≤
            (s.userInfo p u).amount * a.bonusReward / a.lpSupply * precision :=
          calc ((s.userInfo p u).amount : ℚ) * a.bonusPerShare
              ≤ (s.userInfo p u).amount * (a.bonusReward * precision / a.lpSupply) :=
                mul_le_mul_of_nonneg_left hshare (Nat.cast_nonneg _)
            _ = _ := by ring
        rw [List.map_cons, List.sum_cons, List.map_cons, List.sum_cons, Nat.cast_add, mul_add,
          add_mul]
        exact add_le_add hpart ih
  refine Nat.cast_div_le.trans ?_
  rw [Nat.cast_mul]
  exact (div_le_iff₀ hunit).mpr hexact

/-- The bonus part is within what the bonus window earned, up to one unit of rounding. -/
theorem Credited.bonus_le_earned (hs : Credited s) (hstake : 0 < (s.userInfo p u).amount) :
    (s.bonus p u : ℚ) ≤ s.bonusEarned p u + 1 := by
  have hle : s.bonus p u ≤ (s.userInfo p u).amount * s.creditedSince p u / precision + 1 :=
    (hs.bonus p u hstake).claim_le
  have hcast : (s.bonus p u : ℚ) ≤
      ((s.userInfo p u).amount * s.creditedSince p u / precision : ℕ) + 1 := by
    exact_mod_cast hle
  have hearned := creditedSince_le_bonusEarned s p u
  linarith

/-- The lock-up is of less than all of the bonus, or the bonus is at most the reward before both
are rounded. -/
def State.LocksWithin (s : State) (p : Nat) (u : Address) : Prop :=
  s.bonusLockUpBps < 10000 ∨
    (s.bonusLockUpBps = 10000 ∧
      (s.userInfo p u).amount * s.til p + (s.userInfo p u).rewardDebt * precision ≤
        (s.userInfo p u).amount * s.acc p + (s.userInfo p u).bonusDebt * precision)

theorem Credited.userLock_le_pending (hs : Credited s) (hstake : 0 < (s.userInfo p u).amount)
    (hlocks : s.LocksWithin p u) : s.userLock p u ≤ s.pending p u := by
  have hbonus := hs.bonus_le_pending hstake
  unfold State.userLock
  rcases hlocks with hbps | ⟨hbps, hexact⟩
  · refine Nat.le_of_lt_succ (Nat.div_lt_of_lt_mul ?_)
    calc s.bonus p u * s.bonusLockUpBps
        ≤ (s.pending p u + 1) * s.bonusLockUpBps := Nat.mul_le_mul_right _ hbonus
      _ < (s.pending p u + 1) * 10000 := Nat.mul_lt_mul_of_pos_left hbps (Nat.succ_pos _)
      _ = 10000 * (s.pending p u + 1) := Nat.mul_comm _ _
  · rw [hbps, Nat.mul_div_cancel _ (by norm_num)]
    unfold State.bonus State.pending
    rw [← Nat.sub_mul_div, ← Nat.sub_mul_div, Nat.mul_comm precision, Nat.mul_comm precision]
    exact Nat.div_le_div_right (by omega)

end Settlement

/-! ## Locking over every run -/

/-- In every run whose updates in a bonus window find nothing accrued outside of one, the bonus of
every settlement is at most what was credited to the stake since the last one, and at most the
reward that is paid, both up to one unit. The settlement locks no more than it pays, and does not
revert for the balance, where the lock-up is partial or the bonus is at most the reward exactly. -/
theorem bonus_of_crediting (c : Chain) (hreach : machine.ReachableBy Crediting c) (tx : Tx)
    (hcredits : Crediting c tx) (pid : Nat) (user : Address)
    (hop : tx.op.settles tx.sender = some (pid, user)) :
    (∀ s, updatePool tx.blockNumber pid c.state = .ok s → 0 < (s.userInfo pid user).amount →
      (s.bonus pid user : ℚ) ≤ s.bonusEarned pid user + 1 ∧
      s.bonus pid user ≤ s.pending pid user + 1 ∧
      (s.LocksWithin pid user → s.userLock pid user ≤ s.pending pid user)) ∧
    (c.state.bonusLockUpBps ≤ 10000 →
      (∀ s, updatePool tx.blockNumber pid c.state = .ok s → s.LocksWithin pid user) →
      mine c tx ≠ .error "no lock over balance") := by
  have hc := credited_inductive.invariant hreach
  -- a call that settles this position updates its pool first
  have hcaught : Caught tx.blockNumber c.state pid := by
    obtain ⟨sender, n, op⟩ := tx
    unfold Crediting at hcredits
    cases op with
    | deposit | withdraw | withdrawAll | harvest =>
        simp only [Op.settles, Option.some.injEq, Prod.mk.injEq] at hop
        obtain ⟨rfl, rfl⟩ := hop
        exact hcredits
    | _ => cases hop
  have hupdate : ∀ s, updatePool tx.blockNumber pid c.state = .ok s → Credited s := fun s h =>
    hc.updated hcaught (updatePool_eq_ok h).2
  refine ⟨fun s h hstake => ?_, fun hbps hlocks => ?_⟩
  · have hs := hupdate s h
    exact ⟨hs.bonus_le_earned hstake, hs.bonus_le_pending hstake,
      fun hlocks => hs.userLock_le_pending hstake hlocks⟩
  · have hlock : Blocking "no lock over balance" := .inr (.inl rfl)
    refine mine_settles_ne_error hlock hop (updatePool_ne_error hlock ⟨fun _ => hbps, ?_⟩)
      fun s h hstake => ⟨?_, fun _ => ?_⟩
    · simp
    · simp
    · exact (hupdate s h).userLock_le_pending hstake (hlocks s h)

/-- Whether a transaction updates at most one pool, and that as `Caught` says. -/
def creditsOne (c : Chain) (tx : Tx) : Bool :=
  match tx.op with
  | .deposit _ pid _ | .harvest pid => Caught tx.blockNumber c.state pid
  | .addPool _ _ false | .setBonus .. => true
  | _ => false

theorem crediting_of_creditsOne (c : Chain) (tx : Tx) (h : creditsOne c tx = true) :
    Crediting c tx := by
  obtain ⟨sender, n, op⟩ := tx
  cases op with
  | deposit user pid amount =>
      have hcaught : Caught n c.state pid := of_decide_eq_true h
      exact hcaught
  | harvest pid =>
      have hcaught : Caught n c.state pid := of_decide_eq_true h
      exact hcaught
  | addPool _ _ withUpdate =>
      cases withUpdate with
      | true => cases h
      | false => trivial
  | setBonus => trivial
  | _ => cases h

/-- Account 2 harvests in the window in which all rewards were accrued: of its 2000 it locks
1400. -/
theorem bonus_of_crediting_inWindow :
    ∃ c s, machine.ReachableBy Crediting c ∧ updatePool 4 0 c.state = .ok s ∧
      s.pending 0 2 = 2000 ∧ s.bonus 0 2 = 2000 ∧ s.userLock 0 2 = 1400 ∧
      s.userLock 0 2 ≤ s.pending 0 2 ∧
      mine c ⟨2, 4, .harvest 0⟩ ≠ .error "no lock over balance" := by
  have hrun : (machine.guarded creditsOne).lastStep (freshChain 1000)
      [⟨50, 0, .addPool 1 102 false⟩, ⟨50, 1, .setBonus 2 100 7000⟩, ⟨1, 1, .deposit 1 0 10⟩]
      ⟨2, 2, .deposit 2 0 10⟩
      (fun _ c => c.state.bonusLockUpBps ≤ 10000 ∧ creditsOne c ⟨2, 4, .harvest 0⟩ = true ∧
        (updatePool 4 0 c.state).toOption.any (fun s => s.pending 0 2 = 2000 ∧
          s.bonus 0 2 = 2000 ∧ s.userLock 0 2 = 1400 ∧ 0 < (s.userInfo 0 2).amount ∧
          s.bonusLockUpBps < 10000) = true) = true := by
    decide +kernel
  obtain ⟨c₁, c, hreach, hstep, htest⟩ := TSys.lastStep_reachable
    (M := machine.guarded creditsOne) (freshChain_init 1000) hrun
  obtain ⟨hbps, hcredits, hupdate⟩ := of_decide_eq_true htest
  have hreach := TSys.reachableBy_of_guarded crediting_of_creditsOne (.step hreach trivial hstep)
  obtain ⟨s, hs, hsums⟩ := (Option.any_eq_true _ _).mp hupdate
  have hs := toOption_eq_some.mp hs
  obtain ⟨hpending, hbonus, hlock, hstake, hpart⟩ := of_decide_eq_true hsums
  obtain ⟨hsettles, hpays⟩ := bonus_of_crediting c hreach ⟨2, 4, .harvest 0⟩
    (crediting_of_creditsOne _ _ hcredits) 0 2 rfl
  refine ⟨c, s, hreach, hs, hpending, hbonus, hlock, (hsettles s hs hstake).2.2 (.inl hpart),
    hpays hbps fun s' hs' => ?_⟩
  obtain rfl : s = s' := Except.ok.inj (hs.symm.trans hs')
  exact .inl hpart

/-- Account 1 stakes 10 and, a block later, account 2. At block 3 a window with a lock-up of 70%
opens, and at block 4 account 2 harvests: its bonus of 3000 has in it the 1000 of the block before
it had a stake, and the 2100 to be locked are more than the 2000 that it is paid. -/
theorem harvest_over_balance :
    ∃ c s, machine.Reachable c ∧ c.state.bonusLockUpBps ≤ 10000 ∧
      updatePool 4 0 c.state = .ok s ∧ s.pending 0 2 = 2000 ∧ s.bonus 0 2 = 3000 ∧
      c.state.husky.balanceOf 2 = 0 ∧
      mine c ⟨2, 4, .harvest 0⟩ = .error "no lock over balance" := by
  have hrun : machine.lastStep (freshChain 1000)
      [⟨50, 0, .addPool 1 102 false⟩, ⟨1, 1, .deposit 1 0 10⟩, ⟨2, 2, .deposit 2 0 10⟩]
      ⟨50, 3, .setBonus 2 100 7000⟩
      (fun _ c => c.state.bonusLockUpBps ≤ 10000 ∧ c.state.husky.balanceOf 2 = 0 ∧
        (updatePool 4 0 c.state).toOption.any (fun s =>
          s.pending 0 2 = 2000 ∧ s.bonus 0 2 = 3000) = true ∧
        failsWith "no lock over balance" (mine c ⟨2, 4, .harvest 0⟩) = true) = true := by
    decide +kernel
  obtain ⟨c₁, c, hreach, hstep, htest⟩ := TSys.lastStep_reachable (freshChain_init 1000) hrun
  obtain ⟨hbps, hbalance, hupdate, hfails⟩ := of_decide_eq_true htest
  obtain ⟨s, hs, hsums⟩ := (Option.any_eq_true _ _).mp hupdate
  obtain ⟨hpending, hbonus⟩ := of_decide_eq_true hsums
  exact ⟨c, s, .step hreach trivial hstep, hbps, toOption_eq_some.mp hs, hpending, hbonus, hbalance,
    eq_error_of_failsWith hfails⟩

end Huski.FairLaunch
