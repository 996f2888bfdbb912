import Huski.FairLaunch.StakeFlow
import Huski.FairLaunchV2.Payment
import Huski.FairLaunchV2.Run

/-!
# The view of pending rewards

`pendingHusky` computes the update anew, in the state before the hook: it spreads the reward
of the blocks since the last update over the stake tokens that V2 holds then, whatever the
total weight. `harvest` spreads it over what V2 holds after the hook, and over nothing where
there is no weight. So the two are one computation over two supplies.
-/

namespace Huski.FairLaunchV2

open Solidity State

/-- The accumulator of a pool when the reward since its last update is spread over
`stakeTokenSupply`. -/
def accOver (blockNumber : Nat) (pool : PoolInfo) (stakeTokenSupply : Nat) (s : State) :
    Result Nat :=
  if blockNumber > pool.lastRewardBlock ∧ stakeTokenSupply ≠ 0 then do
    let reward ← huskyReward blockNumber pool s
    addReward pool.accHuskyPerShare reward stakeTokenSupply
  else .ok pool.accHuskyPerShare

/-- What is due to a user at that accumulator. -/
def owed (blockNumber pid : Nat) (user : Address) (stakeTokenSupply : Nat) (s : State) :
    Result Nat := do
  let pool ← s.poolAt pid
  let accHuskyPerShare ← accOver blockNumber pool stakeTokenSupply s
  let total ← accumulated (s.userInfo pid user).amount accHuskyPerShare
  SafeMath.sub total (s.userInfo pid user).rewardDebt

/-- The supply that an update spreads a reward over, when `s₁` is the state after its hook. -/
def spreadOver (pid : Nat) (s s₁ : State) : Nat :=
  if s.totalAllocPoint = 0 then 0 else s₁.balanceOf (s.stakeTokens pid)

section Owed

variable {n pid : Nat} {user : Address} {s s₁ s₂ : State}

/-- The view spreads the reward over what V2 holds before the hook. -/
theorem pendingHusky_eq_owed :
    pendingHusky n pid user s = owed n pid user (s.balanceOf (s.stakeTokens pid)) s := by
  unfold pendingHusky owed accOver
  cases s.poolAt pid with
  | error e => rfl
  | ok pool =>
      dsimp only [bind, Except.bind]
      split
      · cases huskyReward n pool s <;> rfl
      · rfl

/-- The hook does not change the reward. -/
theorem huskyReward_of_hook (hook : harvestFromFairLaunchV1 n s = .ok s₁) (pool : PoolInfo) :
    huskyReward n pool s₁ = huskyReward n pool s := by
  obtain ⟨hsame, hrate⟩ := harvestFromFairLaunchV1_eq_ok hook
  unfold huskyReward
  rw [hrate, hsame.totalAllocPoint]

/-- An update takes the pool to the accumulator over the supply that it finds. -/
theorem updatePool_eq_accOver (hook : harvestFromFairLaunchV1 n s = .ok s₁) :
    updatePool n pid s = do
      let pool ← s.poolAt pid
      let acc ← accOver n pool (spreadOver pid s s₁) s
      return if n > pool.lastRewardBlock then s₁.accrue n pid acc else s₁ := by
  obtain ⟨hsame, _⟩ := harvestFromFairLaunchV1_eq_ok hook
  have hpoolAt : s₁.poolAt pid = s.poolAt pid := by
    unfold State.poolAt
    rw [hsame.poolLength, hsame.poolInfo]
  unfold updatePool
  rw [hook]
  show (do
    let pool ← s₁.poolAt pid
    _) = _
  rw [hpoolAt]
  cases hpool : s.poolAt pid with
  | error e => rfl
  | ok pool =>
      dsimp only [bind, Except.bind]
      unfold accOver spreadOver
      rw [huskyReward_of_hook hook, hsame.totalAllocPoint, hsame.stakeTokens]
      by_cases hbehind : n > pool.lastRewardBlock
      -- an update without weights credits nothing, as over no stakes
      · by_cases htotal : s.totalAllocPoint = 0
        · simp [hbehind, htotal, pure, Except.pure]
        · by_cases hsupply : s₁.balanceOf (s.stakeTokens pid) = 0
          · simp [hbehind, hsupply, pure, Except.pure]
          · simp only [hbehind, htotal, hsupply, Nat.pos_of_ne_zero, ne_eq, not_false_eq_true,
              and_self, if_true, if_false]
            cases huskyReward n pool s <;> rfl
      · simp [hbehind, pure, Except.pure]

theorem due_congr (hsame : SameStakes s s₁) : due pid user s₁ = due pid user s := by
  unfold due State.poolAt
  rw [hsame.poolLength, hsame.poolInfo, hsame.userInfo]

/-- What is due after an update is what is owed over the supply that it finds. -/
theorem owed_of_updatePool (hook : harvestFromFairLaunchV1 n s = .ok s₁) {v : Nat} :
    owed n pid user (spreadOver pid s s₁) s = .ok v ↔
      ∃ s₂ total, updatePool n pid s = .ok s₂ ∧ due pid user s₂ = .ok (total, v) := by
  obtain ⟨hsame, _⟩ := harvestFromFairLaunchV1_eq_ok hook
  rw [updatePool_eq_accOver hook]
  unfold owed
  rcases Nat.lt_or_ge pid s.poolLength with hpid | hpid
  · have hpool : s.poolAt pid = .ok (s.poolInfo pid) := if_pos hpid
    simp only [hpool, bind_eq_ok, Except.ok.injEq, exists_eq_left', pure_eq_ok]
    -- an update that goes through leaves the accumulator and the entry that `owed` reads
    have hdue : ∀ acc, accOver n (s.poolInfo pid) (spreadOver pid s s₁) s = .ok acc →
        due pid user (if n > (s.poolInfo pid).lastRewardBlock then s₁.accrue n pid acc else s₁) =
          (do
            let total ← accumulated (s.userInfo pid user).amount acc
            let pending ← SafeMath.sub total (s.userInfo pid user).rewardDebt
            return (total, pending)) := by
      intro acc hacc
      split
      · have hlisted : (s₁.accrue n pid acc).poolAt pid =
            .ok { s₁.poolInfo pid with lastRewardBlock := n, accHuskyPerShare := acc } := by
          have hpid₁ : pid < (s₁.accrue n pid acc).poolLength := hsame.poolLength ▸ hpid
          unfold State.poolAt
          rw [if_pos hpid₁]
          simp [State.accrue, State.setPoolInfo]
        have huser : (s₁.accrue n pid acc).userInfo = s.userInfo := hsame.userInfo
        unfold due
        rw [hlisted, huser]
        rfl
      · rename_i hcurrent
        unfold accOver at hacc
        rw [if_neg fun h => hcurrent h.1] at hacc
        rw [due_congr hsame, ← Except.ok.inj hacc]
        unfold due
        rw [hpool]
        rfl
    constructor
    · rintro ⟨acc, hacc, total, htotal, hsub⟩
      refine ⟨_, total, ⟨acc, hacc, rfl⟩, ?_⟩
      rw [hdue acc hacc, htotal]
      show (do
        let pending ← SafeMath.sub total _
        pure (total, pending)) = _
      rw [hsub]
      rfl
    · rintro ⟨_, total, ⟨acc, hacc, rfl⟩, h⟩
      rw [hdue acc hacc] at h
      simp only [bind_eq_ok, pure_eq_ok, Prod.mk.injEq] at h
      obtain ⟨_, htotal, _, hsub, rfl, rfl⟩ := h
      exact ⟨acc, hacc, _, htotal, hsub⟩
  · have hpool : s.poolAt pid = .error "" := if_neg hpid.not_gt
    rw [hpool]
    exact ⟨fun h => (nomatch h), fun ⟨_, _, h, _⟩ => (nomatch h)⟩

end Owed

/-! ## The harvest -/

/-- A reward is paid: what is not locked, if the pool has a locker, is transferred. -/
def PaysOut (blockNumber pid : Nat) (user : Address) (pending : Nat) (s s' : State) : Prop :=
  ∃ locked transferred s₁, locked + transferred = pending ∧
    (s.lockers pid = 0 ∧ locked = 0 ∨
      (s.lockerAt (s.lockers pid)).calLockAmount s.here pending = .ok locked) ∧
    lockReward blockNumber pid user pending s = .ok (transferred, s₁) ∧
    s₁.safeTransfer blockNumber s₁.fairLaunchV1.husky.here user transferred = .ok s'

/-- `harvest` from `s` to `s'` finds `pending` to be due, and pays it. -/
def HarvestPays (blockNumber pid : Nat) (user : Address) (pending : Nat) (s s' : State) : Prop :=
  ∃ s₁ s₂ total, updatePool blockNumber pid s = .ok s₁ ∧
    harvestFromFairLaunchV1 blockNumber s₁ = .ok s₂ ∧ due pid user s₂ = .ok (total, pending) ∧
    (pending = 0 ∧ s' = s₂ ∨ PaysOut blockNumber pid user pending
      (s₂.setUserInfo pid user { s₂.userInfo pid user with rewardDebt := total }) s')

/-- The hooks of a harvest succeed, and V2 then holds what the harvest finds to be due. -/
structure Collects (blockNumber pid : Nat) (user : Address) (s : State) : Prop where
  hook : ∃ s₁, harvestFromFairLaunchV1 blockNumber s = .ok s₁
  again : ∀ s₁, updatePool blockNumber pid s = .ok s₁ →
    ∃ s₂, harvestFromFairLaunchV1 blockNumber s₁ = .ok s₂
  funded : ∀ s₁ s₂ total pending, updatePool blockNumber pid s = .ok s₁ →
    harvestFromFairLaunchV1 blockNumber s₁ = .ok s₂ → due pid user s₂ = .ok (total, pending) →
    pending ≤ s₂.huskyBalance

/-- What is owed is taken where it is not zero: the locker of the pool, if it has one, takes its
part, and after the hooks the tokens move. -/
structure Accepted (blockNumber pid : Nat) (user : Address) (s : State) : Prop where
  locker : ∀ s₁ pending, harvestFromFairLaunchV1 blockNumber s = .ok s₁ →
    owed blockNumber pid user (spreadOver pid s s₁) s = .ok pending → pending ≠ 0 →
    s.lockers pid ≠ 0 → LockerTakes s.here user pending (s.lockerAt (s.lockers pid))
  tokens : ∀ s₁ s₂ total pending, updatePool blockNumber pid s = .ok s₁ →
    harvestFromFairLaunchV1 blockNumber s₁ = .ok s₂ → due pid user s₂ = .ok (total, pending) →
    pending ≠ 0 → TokensMove blockNumber pid user pending s₂

/-- The view returns exactly when the harvest succeeds, and returns what the harvest pays. -/
def Agrees (blockNumber pid : Nat) (user : Address) (s : State) : Prop :=
  ((∃ v, pendingHusky blockNumber pid user s = .ok v) ↔
    ∃ s', harvest { sender := user, blockNumber } pid s = .ok s') ∧
  ∀ v s', pendingHusky blockNumber pid user s = .ok v →
    harvest { sender := user, blockNumber } pid s = .ok s' → HarvestPays blockNumber pid user v s s'

section Harvest

variable {n pid : Nat} {user : Address} {s s₁ s' : State}

theorem payReward_eq_ok {pending : Nat} (h : payReward n pid user pending s = .ok s') :
    PaysOut n pid user pending s s' := by
  simp only [payReward, bind_eq_ok] at h
  obtain ⟨⟨transferred, s₁⟩, hlock, hpay⟩ := h
  have hlocked := hlock
  unfold lockReward at hlocked
  split at hlocked
  · simp only [bind_eq_ok, pure_eq_ok, Prod.mk.injEq, SafeMath.sub_eq_ok] at hlocked
    obtain ⟨locked, hamount, _, _, _, _, _, ⟨hle, rfl⟩, _, _, rfl, _⟩ := hlocked
    exact ⟨locked, _, s₁, Nat.add_sub_cancel' hle, .inr hamount, hlock, hpay⟩
  · rename_i hnone
    obtain ⟨rfl, rfl⟩ := Prod.mk.inj (Except.ok.inj hlocked)
    exact ⟨0, pending, s, Nat.zero_add _, .inl ⟨not_not.mp hnone, rfl⟩, hlock, hpay⟩

/-- A harvest that succeeds paid what it found to be due. -/
theorem harvestPays_of_harvest (h : harvest { sender := user, blockNumber := n } pid s = .ok s') :
    ∃ v, HarvestPays n pid user v s s' := by
  simp only [harvest, _harvest, bind_eq_ok] at h
  obtain ⟨s₁, hupdate, s₂, hook, ⟨total, pending⟩, hdue, h⟩ := h
  refine ⟨pending, s₁, s₂, total, hupdate, hook, hdue, ?_⟩
  split at h
  · rename_i hzero
    exact .inl ⟨hzero, (Except.ok.inj h).symm⟩
  · simp only [bind_eq_ok] at h
    obtain ⟨_, _, hpay⟩ := h
    exact .inr (payReward_eq_ok hpay)

/-- What a harvest pays is what is owed over the supply its update finds. -/
theorem HarvestPays.owed {v : Nat} (h : HarvestPays n pid user v s s')
    (hook : harvestFromFairLaunchV1 n s = .ok s₁) :
    owed n pid user (spreadOver pid s s₁) s = .ok v := by
  obtain ⟨s₂, s₃, total, hupdate, hagain, hdue, _⟩ := h
  rw [due_congr (sameStakes_of_hook hagain)] at hdue
  exact (owed_of_updatePool hook).mpr ⟨s₂, total, hupdate, hdue⟩

/-- The hook leaves the lockers. -/
theorem lockers_of_hook (hook : harvestFromFairLaunchV1 n s = .ok s₁) :
    s₁.here = s.here ∧ s₁.lockers = s.lockers ∧ s₁.lockerAt = s.lockerAt := by
  obtain ⟨v1, _, rfl⟩ := onV1_eq_ok hook
  exact ⟨rfl, rfl, rfl⟩

theorem lockers_of_updatePool (hupdate : updatePool n pid s = .ok s₁) :
    s₁.here = s.here ∧ s₁.lockers = s.lockers ∧ s₁.lockerAt = s.lockerAt := by
  cases (updatePool_eq_ok hupdate).2 with
  | current hook _ => exact lockers_of_hook hook
  | accrued hook _ _ =>
      obtain ⟨hhere, hlockers, hlockerAt⟩ := lockers_of_hook hook
      exact ⟨hhere, hlockers, hlockerAt⟩

/-- After the hooks, the reward is paid exactly where the locker takes its part and the tokens
move. -/
theorem payReward_isOk_iff_of_hooks {s₂ s₃ : State} {pending : Nat} (info : UserInfo)
    (hupdate : updatePool n pid s = .ok s₂) (hagain : harvestFromFairLaunchV1 n s₂ = .ok s₃) :
    (∃ s', payReward n pid user pending (s₃.setUserInfo pid user info) = .ok s') ↔
      (s.lockers pid ≠ 0 → LockerTakes s.here user pending (s.lockerAt (s.lockers pid))) ∧
        TokensMove n pid user pending s₃ := by
  obtain ⟨hhere₂, hlockers₂, hlockerAt₂⟩ := lockers_of_updatePool hupdate
  obtain ⟨hhere₃, hlockers₃, hlockerAt₃⟩ := lockers_of_hook hagain
  have hsame : SameTokens s₃ (s₃.setUserInfo pid user info) := ⟨rfl, rfl⟩
  rw [payReward_isOk_iff, show (s₃.setUserInfo pid user info).here = s.here from
      hhere₃.trans hhere₂, show (s₃.setUserInfo pid user info).lockers = s.lockers from
      hlockers₃.trans hlockers₂, show (s₃.setUserInfo pid user info).lockerAt = s.lockerAt from
      hlockerAt₃.trans hlockerAt₂]
  refine and_congr_right fun _ => ⟨?_, ?_⟩
  · exact TokensMove.congr hsame.symm rfl rfl
  · exact TokensMove.congr hsame rfl rfl

/-- Where the hooks succeed and the payment is taken, what is owed is harvested. -/
theorem Collects.harvest {v : Nat} (h : Collects n pid user s) (haccepted : Accepted n pid user s)
    (hook : harvestFromFairLaunchV1 n s = .ok s₁)
    (howed : FairLaunchV2.owed n pid user (spreadOver pid s s₁) s = .ok v) :
    ∃ s', FairLaunchV2.harvest { sender := user, blockNumber := n } pid s = .ok s' := by
  obtain ⟨s₂, total, hupdate, hdue⟩ := (owed_of_updatePool hook).mp howed
  obtain ⟨s₃, hagain⟩ := h.again s₂ hupdate
  rw [← due_congr (sameStakes_of_hook hagain)] at hdue
  simp only [FairLaunchV2.harvest, _harvest, bind_eq_ok]
  by_cases hzero : v = 0
  · refine ⟨s₃, s₂, hupdate, s₃, hagain, (total, v), hdue, ?_⟩
    dsimp only
    rw [if_pos hzero]
    rfl
  · have henough := h.funded s₂ s₃ total v hupdate hagain hdue
    have htakes := haccepted.locker s₁ v hook howed hzero
    have hmove := haccepted.tokens s₂ s₃ total v hupdate hagain hdue hzero
    obtain ⟨s', hpay⟩ := (payReward_isOk_iff_of_hooks _ hupdate hagain).mpr ⟨htakes, hmove⟩
    refine ⟨s', s₂, hupdate, s₃, hagain, (total, v), hdue, ?_⟩
    dsimp only
    rw [if_neg hzero]
    simp only [bind_eq_ok, require_eq_ok]
    exact ⟨(), henough, hpay⟩

/-- The hooks succeed and V2 holds what they make due. -/
theorem collects_of_due {s₂ : State} {total pending : Nat} (hupdate : updatePool n pid s = .ok s₁)
    (hagain : harvestFromFairLaunchV1 n s₁ = .ok s₂) (hdue : due pid user s₂ = .ok (total, pending))
    (hfunded : pending ≤ s₂.huskyBalance) : Collects n pid user s := by
  have hhook := hupdate
  simp only [updatePool, bind_eq_ok] at hhook
  obtain ⟨t₁, hhook, _⟩ := hhook
  refine ⟨⟨t₁, hhook⟩, fun s₁' hupdate' => ?_, fun s₁' s₂' total' v hupdate' hagain' hdue' => ?_⟩
  · obtain rfl := Except.ok.inj (hupdate.symm.trans hupdate')
    exact ⟨s₂, hagain⟩
  · obtain rfl := Except.ok.inj (hupdate.symm.trans hupdate')
    obtain rfl := Except.ok.inj (hagain.symm.trans hagain')
    obtain ⟨rfl, rfl⟩ := Prod.mk.inj (Except.ok.inj (hdue.symm.trans hdue'))
    exact hfunded

/-- And a harvest that succeeds found its hooks to succeed, and its payment to be taken. -/
theorem collects_of_harvest
    (h : FairLaunchV2.harvest { sender := user, blockNumber := n } pid s = .ok s') :
    Collects n pid user s ∧ Accepted n pid user s := by
  simp only [FairLaunchV2.harvest, _harvest, bind_eq_ok] at h
  obtain ⟨s₂, hupdate, s₃, hagain, ⟨total, pending⟩, hdue, h⟩ := h
  dsimp only at h
  have hfunded : pending ≤ s₃.huskyBalance := by
    split at h
    · rename_i hzero
      exact hzero ▸ Nat.zero_le _
    · simp only [bind_eq_ok, require_eq_ok] at h
      obtain ⟨_, henough, _⟩ := h
      exact henough
  have hpaid : pending ≠ 0 →
      (s.lockers pid ≠ 0 → LockerTakes s.here user pending (s.lockerAt (s.lockers pid))) ∧
        TokensMove n pid user pending s₃ := by
    intro hpos
    rw [if_neg hpos] at h
    simp only [bind_eq_ok, require_eq_ok] at h
    obtain ⟨_, _, hpay⟩ := h
    exact (payReward_isOk_iff_of_hooks _ hupdate hagain).mp ⟨s', hpay⟩
  refine ⟨collects_of_due hupdate hagain hdue hfunded, fun t₁ v hhook howed hpos => ?_,
    fun t₂ t₃ total' v hupdate' hagain' hdue' hpos => ?_⟩
  -- what is owed over the supply of the update is what the harvest found to be due
  · rw [due_congr (sameStakes_of_hook hagain)] at hdue
    obtain rfl := Except.ok.inj
      (howed.symm.trans ((owed_of_updatePool hhook).mpr ⟨s₂, total, hupdate, hdue⟩))
    exact (hpaid hpos).1
  · obtain rfl := Except.ok.inj (hupdate.symm.trans hupdate')
    obtain rfl := Except.ok.inj (hagain.symm.trans hagain')
    obtain ⟨rfl, rfl⟩ := Prod.mk.inj (Except.ok.inj (hdue.symm.trans hdue'))
    exact (hpaid hpos).2

end Harvest

/-! ## When the view agrees -/

/-- What is due without the blocks since the last update cannot be computed: the product is
out of range, or the debt is above the entitlement. -/
def Overdrawn (pid : Nat) (user : Address) (s : State) : Prop :=
  wordSize ≤ (s.userInfo pid user).amount * (s.poolInfo pid).accHuskyPerShare ∨
    (s.userInfo pid user).amount * (s.poolInfo pid).accHuskyPerShare / precision <
      (s.userInfo pid user).rewardDebt

/-- There is nothing to spread; or, without weight, V2 holds none of the stake tokens or the
harvest fails as well; or, with weight, V2 holds as many after the hook (`s₁`) as before, or
the user is owed the same over both. -/
def Matching (blockNumber pid : Nat) (user : Address) (s s₁ : State) : Prop :=
  s.poolLength ≤ pid ∨ blockNumber ≤ (s.poolInfo pid).lastRewardBlock ∨
    if s.totalAllocPoint = 0 then
      s.balanceOf (s.stakeTokens pid) = 0 ∨ Overdrawn pid user s
    else
      s₁.balanceOf (s.stakeTokens pid) = s.balanceOf (s.stakeTokens pid) ∨
        (owed blockNumber pid user (s₁.balanceOf (s.stakeTokens pid)) s).toOption =
          (owed blockNumber pid user (s.balanceOf (s.stakeTokens pid)) s).toOption

section Matching

variable {n pid supply : Nat} {user : Address} {s s₁ : State}

theorem Collects.agrees_iff_owed (h : Collects n pid user s) (haccepted : Accepted n pid user s)
    (hook : harvestFromFairLaunchV1 n s = .ok s₁) :
    Agrees n pid user s ↔ (owed n pid user (spreadOver pid s s₁) s).toOption =
      (owed n pid user (s.balanceOf (s.stakeTokens pid)) s).toOption := by
  unfold Agrees
  rw [← pendingHusky_eq_owed]
  constructor
  · rintro ⟨hsucceeds, hvalue⟩
    cases hview : pendingHusky n pid user s with
    | ok v =>
        obtain ⟨s', hharvest⟩ := hsucceeds.mp ⟨v, hview⟩
        exact congrArg Except.toOption ((hvalue v s' hview hharvest).owed hook)
    -- the view reverts, so there is no harvest for it to disagree with
    | error e =>
        cases howed : owed n pid user (spreadOver pid s s₁) s with
        | error e' => rfl
        | ok v =>
            obtain ⟨w, hw⟩ := hsucceeds.mpr (h.harvest haccepted hook howed)
            rw [hview] at hw
            cases hw
  · intro hsame
    refine ⟨⟨fun ⟨v, hview⟩ => ?_, fun ⟨s', hharvest⟩ => ?_⟩, fun v s' hview hharvest => ?_⟩
    · rw [hview] at hsame
      exact h.harvest haccepted hook (toOption_eq_some.mp hsame)
    · obtain ⟨v, hpays⟩ := harvestPays_of_harvest hharvest
      rw [hpays.owed hook] at hsame
      exact ⟨v, toOption_eq_some.mp hsame.symm⟩
    · obtain ⟨w, hpays⟩ := harvestPays_of_harvest hharvest
      rw [hpays.owed hook, hview] at hsame
      obtain rfl := Option.some.inj hsame
      exact hpays

theorem owed_toOption_of_unlisted (hpid : s.poolLength ≤ pid) :
    (owed n pid user supply s).toOption = none := by
  unfold owed State.poolAt
  rw [if_neg hpid.not_gt]
  rfl

/-- With nothing to spread, the supply does not matter. -/
theorem owed_of_current (h : n ≤ (s.poolInfo pid).lastRewardBlock) :
    owed n pid user supply s = owed n pid user 0 s := by
  unfold owed State.poolAt
  split
  · show (do
      let acc ← accOver n (s.poolInfo pid) supply s
      _) = (do
      let acc ← accOver n (s.poolInfo pid) 0 s
      _)
    have hnone : ∀ supply, accOver n (s.poolInfo pid) supply s =
        .ok (s.poolInfo pid).accHuskyPerShare := fun supply =>
      if_neg fun hbehind => absurd hbehind.1 (Nat.not_lt.mpr h)
    rw [hnone, hnone]
  · rfl

/-- Without weight there is no reward that could be spread over anything. -/
theorem owed_of_unweighted (hpid : pid < s.poolLength)
    (hbehind : (s.poolInfo pid).lastRewardBlock < n) (htotal : s.totalAllocPoint = 0)
    (hsupply : supply ≠ 0) : (owed n pid user supply s).toOption = none := by
  cases howed : owed n pid user supply s with
  | error e => rfl
  | ok v =>
      unfold owed State.poolAt accOver at howed
      rw [if_pos hpid] at howed
      simp only [bind_eq_ok, Except.ok.injEq, exists_eq_left'] at howed
      obtain ⟨_, hacc, _⟩ := howed
      rw [if_pos ⟨hbehind, hsupply⟩] at hacc
      simp only [bind_eq_ok] at hacc
      obtain ⟨_, hreward, _⟩ := hacc
      exact absurd htotal (huskyReward_eq_ok hreward).1

theorem owed_zero_toOption_eq_none (hpid : pid < s.poolLength) :
    (owed n pid user 0 s).toOption = none ↔ Overdrawn pid user s := by
  have hsucceeds : (∃ v, owed n pid user 0 s = .ok v) ↔
      (s.userInfo pid user).amount * (s.poolInfo pid).accHuskyPerShare < wordSize ∧
        (s.userInfo pid user).rewardDebt ≤
          (s.userInfo pid user).amount * (s.poolInfo pid).accHuskyPerShare / precision := by
    unfold owed State.poolAt
    rw [if_pos hpid]
    simp only [accOver, accumulated, ne_eq, not_true_eq_false, and_false, if_false, bind_eq_ok,
      Except.ok.injEq, exists_eq_left', SafeMath.mul_eq_ok, SafeMath.div_eq_ok, SafeMath.sub_eq_ok]
    constructor
    · rintro ⟨_, _, ⟨_, ⟨hword, rfl⟩, _, rfl⟩, hle, _⟩
      exact ⟨hword, hle⟩
    · rintro ⟨hword, hle⟩
      exact ⟨_, _, ⟨_, ⟨hword, rfl⟩, Nat.ne_of_gt (by norm_num [precision]), rfl⟩, hle, rfl⟩
  unfold Overdrawn
  rw [toOption_eq_none, hsucceeds, not_and_or, Nat.not_lt, Nat.not_le]

/-- Where the payment is not taken the harvest fails, and the view agrees by failing as well. -/
theorem agrees_iff_of_not_accepted (hnot : ¬ Accepted n pid user s) :
    Agrees n pid user s ↔
      (owed n pid user (s.balanceOf (s.stakeTokens pid)) s).toOption = none := by
  have hfails : ¬ ∃ s', harvest { sender := user, blockNumber := n } pid s = .ok s' :=
    fun ⟨_, hharvest⟩ => hnot (collects_of_harvest hharvest).2
  unfold Agrees
  rw [← pendingHusky_eq_owed, toOption_eq_none]
  constructor
  · rintro ⟨hsucceeds, _⟩ hview
    exact hfails (hsucceeds.mp hview)
  · intro hview
    refine ⟨⟨fun h => absurd h hview, fun h => absurd h hfails⟩, fun v s' _ hharvest => ?_⟩
    exact absurd ⟨s', hharvest⟩ hfails

/-- Where the payment is taken the view agrees with the harvest exactly where the two supplies
match. -/
theorem Collects.agrees_iff (h : Collects n pid user s) (haccepted : Accepted n pid user s)
    (hook : harvestFromFairLaunchV1 n s = .ok s₁) :
    Agrees n pid user s ↔ Matching n pid user s s₁ := by
  rw [h.agrees_iff_owed haccepted hook]
  unfold Matching
  rcases Nat.lt_or_ge pid s.poolLength with hpid | hpid
  · rcases Nat.lt_or_ge (s.poolInfo pid).lastRewardBlock n with hbehind | hcurrent
    · simp only [hpid.not_ge, hbehind.not_ge, false_or]
      unfold spreadOver
      -- without weights the view divides by zero where the harvest pays what is old
      by_cases htotal : s.totalAllocPoint = 0
      · rw [if_pos htotal, if_pos htotal]
        by_cases hsupply : s.balanceOf (s.stakeTokens pid) = 0
        · rw [hsupply]
          exact ⟨fun _ => .inl rfl, fun _ => rfl⟩
        · rw [owed_of_unweighted hpid hbehind htotal hsupply, owed_zero_toOption_eq_none hpid]
          exact ⟨.inr, fun h => h.resolve_left hsupply⟩
      · rw [if_neg htotal, if_neg htotal]
        refine ⟨.inr, fun h => h.elim (fun hsame => ?_) id⟩
        rw [hsame]
    -- a pool settled in this block: both read the stored share
    · have hview : owed n pid user (s.balanceOf (s.stakeTokens pid)) s = owed n pid user 0 s :=
        owed_of_current hcurrent
      rw [owed_of_current hcurrent, hview]
      exact ⟨fun _ => .inr (.inl hcurrent), fun _ => rfl⟩
  · rw [owed_toOption_of_unlisted hpid, owed_toOption_of_unlisted hpid]
    exact ⟨fun _ => .inl hpid, fun _ => rfl⟩

/-- The hook moves HUSKY and no other stake token. -/
theorem balanceOf_of_hook (hook : harvestFromFairLaunchV1 n s = .ok s₁) {token : Address}
    (htoken : token ≠ s.fairLaunchV1.husky.here) : s₁.balanceOf token = s.balanceOf token := by
  obtain ⟨v1, hdeposit, rfl⟩ := onV1_eq_ok hook
  have hhere : v1.husky.here = s.fairLaunchV1.husky.here := by
    obtain ⟨_, t₁, t₂, husky, tokens, hupdate, _, hharvested, hmoves, rfl⟩ :=
      FairLaunch.deposit_eq_ok hdeposit
    refine hmoves.husky_here.trans (Eq.trans ?_ (FairLaunch.updatePool_eq_ok hupdate).2.husky_here)
    cases hharvested with
    | nothing _ => rfl
    | harvested harvests => exact harvests.husky_here
  -- the hook's deposit takes the dummy token from V2 only by the amount zero
  have hbalance : (v1.tokens token).balanceOf s.here =
      (s.fairLaunchV1.tokens token).balanceOf s.here := by
    cases FairLaunch.deposit_flow hdeposit with
    | kept puts _ _ _ => cases puts
    | took puts _ _ _ _ _ _ _ => cases puts
    | put puts _ _ _ _ _ others pays =>
        cases puts
        by_cases hmaster : token = (s.fairLaunchV1.poolInfo s.masterPid).stakeToken
        · subst hmaster
          have hpaid := pays htoken s.here
          simpa using hpaid
        · rw [others.tokens token hmaster]
  unfold State.balanceOf
  rw [show (s.setV1 v1).fairLaunchV1.husky.here = s.fairLaunchV1.husky.here from hhere,
    if_neg htoken, if_neg htoken]
  exact hbalance

/-- Where the hooks succeed and V2 holds what is due, `pendingHusky` returns exactly when `harvest`
succeeds, and returns what is paid, if and only if the payment is taken and the supplies match, or
it is not taken and nothing can be viewed. The supply of a stake token other than HUSKY is the same
before and after the hook. -/
theorem pendingHusky_agrees_iff (h : Collects n pid user s)
    (hook : harvestFromFairLaunchV1 n s = .ok s₁) :
    (Agrees n pid user s ↔
      (Accepted n pid user s ∧ Matching n pid user s s₁) ∨
      (¬ Accepted n pid user s ∧
        (owed n pid user (s.balanceOf (s.stakeTokens pid)) s).toOption = none)) ∧
      (s.stakeTokens pid ≠ s.fairLaunchV1.husky.here →
        s₁.balanceOf (s.stakeTokens pid) = s.balanceOf (s.stakeTokens pid)) := by
  refine ⟨?_, balanceOf_of_hook hook⟩
  by_cases haccepted : Accepted n pid user s
  · rw [h.agrees_iff haccepted hook]
    simp [haccepted]
  · rw [agrees_iff_of_not_accepted haccepted]
    simp [haccepted]

/-- Account 2 stakes 2 in the only pool; two blocks later it is shown 2000 and harvests
them. -/
theorem pendingHusky_agrees_of_stakedRun :
    ∃ c, machine.Reachable c ∧ (pendingHusky 3 0 2 c.state).toOption = some 2000 ∧
      Agrees 3 0 2 c.state := by
  have hrun : machine.lastStep (freshChain 1000)
      [⟨50, 0, .v1 (.addPool 102 102 false)⟩, ⟨1, 0, .init 102⟩, ⟨1, 0, .addPool 1 103 0 0⟩]
      ⟨2, 1, .deposit 2 0 2⟩
      (fun _ c => (pendingHusky 3 0 2 c.state).toOption = some 2000 ∧
        (harvestFromFairLaunchV1 3 c.state).toOption.isSome = true ∧
        (harvest { sender := 2, blockNumber := 3 } 0 c.state).toOption.isSome = true ∧
        c.state.stakeTokens 0 ≠ c.state.fairLaunchV1.husky.here ∧ c.state.totalAllocPoint ≠ 0) =
          true := by
    decide +kernel
  obtain ⟨c₁, c, hreach, hstep, htest⟩ := TSys.lastStep_reachable (freshChain_init 1000) hrun
  obtain ⟨hview, hhook, hharvest, htoken, htotal⟩ := of_decide_eq_true htest
  obtain ⟨s₁, hhook⟩ := Option.isSome_iff_exists.mp hhook
  obtain ⟨s', hharvest⟩ := Option.isSome_iff_exists.mp hharvest
  obtain ⟨hcollects, haccepted⟩ := collects_of_harvest (toOption_eq_some.mp hharvest)
  have hagrees := pendingHusky_agrees_iff hcollects (toOption_eq_some.mp hhook)
  refine ⟨c, .step hreach trivial hstep, hview,
    hagrees.1.mpr (.inl ⟨haccepted, .inr (.inr ?_)⟩)⟩
  rw [if_neg htotal]
  exact .inl (hagrees.2 htoken)

/-- The pool has no weight: the view divides by the total, which the harvest does not. In a pool of
HUSKY, the view spreads 1000 over the 10 that V2 holds, and the harvest over those and the 2000
that it collects first. And a locker that was made for another FairLaunch takes nothing, so that
the 2000 of the view cannot be harvested. -/
theorem pendingHusky_disagrees :
    (∃ c, machine.Reachable c ∧ Collects 2 0 2 c.state ∧ (c.state.userInfo 0 2).amount = 5 ∧
      pendingHusky 2 0 2 c.state = .error "SafeMath: division by zero" ∧
      (∃ s', harvest { sender := 2, blockNumber := 2 } 0 c.state = .ok s') ∧
      ¬ Agrees 2 0 2 c.state) ∧
    (∃ c, machine.Reachable c ∧ Collects 2 0 2 c.state ∧
      pendingHusky 2 0 2 c.state = .ok 1000 ∧
      (∃ s', HarvestPays 2 0 2 4 c.state s') ∧ ¬ Agrees 2 0 2 c.state) ∧
    ∃ c, machine.Reachable c ∧ Collects 3 0 2 c.state ∧ pendingHusky 3 0 2 c.state = .ok 2000 ∧
      harvest { sender := 2, blockNumber := 3 } 0 c.state =
        .error "linear release: only fair launch" ∧ ¬ Agrees 3 0 2 c.state := by
  refine ⟨?_, ?_, ?_⟩
  · have hrun : machine.lastStep (freshChain 1000)
        [⟨50, 0, .v1 (.addPool 102 102 false)⟩, ⟨1, 0, .init 102⟩, ⟨1, 0, .addPool 0 103 0 0⟩]
        ⟨2, 1, .deposit 2 0 5⟩
        (fun _ c => (c.state.userInfo 0 2).amount = 5 ∧
          failsWith "SafeMath: division by zero" (pendingHusky 2 0 2 c.state) = true ∧
          (harvest { sender := 2, blockNumber := 2 } 0 c.state).toOption.isSome = true) = true := by
      decide +kernel
    obtain ⟨c₁, c, hreach, hstep, htest⟩ := TSys.lastStep_reachable (freshChain_init 1000) hrun
    obtain ⟨hamount, hview, hharvest⟩ := of_decide_eq_true htest
    obtain ⟨s', hharvest⟩ := Option.isSome_iff_exists.mp hharvest
    have hharvest := toOption_eq_some.mp hharvest
    have hview := eq_error_of_failsWith hview
    refine ⟨c, .step hreach trivial hstep, (collects_of_harvest hharvest).1, hamount, hview,
      ⟨s', hharvest⟩, fun hagrees => ?_⟩
    obtain ⟨v, hv⟩ := hagrees.1.mpr ⟨s', hharvest⟩
    rw [hview] at hv
    cases hv
  · have hrun : machine.lastStep (freshChain 1000)
        [⟨50, 0, .v1 (.addPool 102 102 false)⟩, ⟨1, 0, .init 102⟩, ⟨1, 0, .addPool 1 101 0 1⟩,
          ⟨50, 0, .v1 (.manualMint 2 10)⟩, ⟨2, 0, .v1 (.huskyApprove 200 10)⟩]
        ⟨2, 0, .deposit 2 0 10⟩
        (fun _ c => (pendingHusky 2 0 2 c.state).toOption = some 1000 ∧
          (updatePool 2 0 c.state >>= due 0 2).toOption.map Prod.snd = some 4 ∧
          (harvest { sender := 2, blockNumber := 2 } 0 c.state).toOption.isSome = true) = true := by
      decide +kernel
    obtain ⟨c₁, c, hreach, hstep, htest⟩ := TSys.lastStep_reachable (freshChain_init 1000) hrun
    obtain ⟨hview, hdue, hharvest⟩ := of_decide_eq_true htest
    obtain ⟨s', hharvest⟩ := Option.isSome_iff_exists.mp hharvest
    have hharvest := toOption_eq_some.mp hharvest
    have hcollects := (collects_of_harvest hharvest).1
    have hview := toOption_eq_some.mp hview
    obtain ⟨s₁, hhook⟩ := hcollects.hook
    obtain ⟨⟨total, pending⟩, hdue, rfl⟩ := Option.map_eq_some_iff.mp hdue
    obtain ⟨s₂, hupdate, hdue⟩ := bind_eq_ok.mp (toOption_eq_some.mp hdue)
    have howed := (owed_of_updatePool hhook).mpr ⟨s₂, total, hupdate, hdue⟩
    -- so what the harvest pays is what its own update makes due
    obtain ⟨v, hpays⟩ := harvestPays_of_harvest hharvest
    obtain rfl := Except.ok.inj (howed.symm.trans (hpays.owed hhook))
    refine ⟨c, .step hreach trivial hstep, hcollects, hview, ⟨s', hpays⟩, fun hagrees => ?_⟩
    have hpaid := (hagrees.2 1000 s' hview hharvest).owed hhook
    exact absurd (Except.ok.inj (howed.symm.trans hpaid)) (by decide)
  · have hrun : machine.lastStep (freshChain 1000)
        [⟨50, 0, .v1 (.addPool 102 102 false)⟩, ⟨1, 0, .init 102⟩, ⟨1, 0, .addPool 1 103 104 0⟩]
        ⟨2, 1, .deposit 2 0 2⟩
        (fun _ c => (pendingHusky 3 0 2 c.state).toOption = some 2000 ∧
          (do
            let s₁ ← updatePool 3 0 c.state
            let s₂ ← harvestFromFairLaunchV1 3 s₁
            let found ← due 0 2 s₂
            require (found.2 ≤ s₂.huskyBalance) "").toOption = some () ∧
          failsWith "linear release: only fair launch"
            (harvest { sender := 2, blockNumber := 3 } 0 c.state) = true) = true := by
      decide +kernel
    obtain ⟨c₁, c, hreach, hstep, htest⟩ := TSys.lastStep_reachable (freshChain_init 1000) hrun
    obtain ⟨hview, hcollects, hharvest⟩ := of_decide_eq_true htest
    have hcollects := toOption_eq_some.mp hcollects
    simp only [bind_eq_ok, require_eq_ok] at hcollects
    obtain ⟨s₁, hupdate, s₂, hagain, ⟨total, pending⟩, hdue, hfunded⟩ := hcollects
    have hview := toOption_eq_some.mp hview
    have hharvest := eq_error_of_failsWith hharvest
    refine ⟨c, .step hreach trivial hstep, collects_of_due hupdate hagain hdue hfunded, hview,
      hharvest, fun hagrees => ?_⟩
    obtain ⟨s', hs'⟩ := hagrees.1.mp ⟨2000, hview⟩
    rw [hharvest] at hs'
    cases hs'

end Matching

end Huski.FairLaunchV2
