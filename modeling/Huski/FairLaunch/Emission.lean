import Huski.FairLaunch.Run
import Huski.Lib.TotalMap

/-!
# The emission of HUSKY

Every pool accrues its own blocks with the total weight of the moment it is touched.
The bound on what all pools together mint is carried by the minted HUSKY plus the share
each pool would still accrue at the current total: an update moves a share from the
second to the first, a new pool shrinks the shares of the others, and a pool is only
weighed anew when none has a share left.
-/

namespace Huski.FairLaunch

open Solidity State
open scoped BigOperators

/-! ## Sums over the pools -/

/-- The sum of one component over all pools. -/
def State.poolSum (s : State) (g : PoolInfo → Nat) : Nat :=
  ∑ p ∈ Finset.range s.poolLength, g (s.poolInfo p)

/-- The sum of `allocPoint` over all pools. -/
def State.allocSum (s : State) : Nat := s.poolSum (·.allocPoint)

/-- The multipliers of the blocks after `last` up to `b`. -/
def State.weightSince (s : State) (last b : Nat) : Nat := s.blockWeight b - s.blockWeight last

/-- The blocks no pool has accrued yet at block `b`, weighted with their multiplier and
the weight of the pool. -/
def State.backlog (s : State) (b : Nat) : Nat :=
  s.poolSum fun pool => s.weightSince pool.lastRewardBlock b * pool.allocPoint

/-- The HUSKY minted to FairLaunch, over all pools. -/
def State.minted (s : State) : Nat := (s.accruals.map (·.reward)).sum

section PoolSum

variable {s s' : State} {n pid : Nat} (g : PoolInfo → Nat)

theorem poolSum_eq_zero : s.poolSum g = 0 ↔ ∀ p < s.poolLength, g (s.poolInfo p) = 0 := by
  simp [State.poolSum]

/-- Writing a pool replaces its term of the sum. -/
theorem poolSum_setPoolInfo (hpid : pid < s.poolLength) (pool : PoolInfo) :
    (s.setPoolInfo pid pool).poolSum g + g (s.poolInfo pid) = s.poolSum g + g pool :=
  TotalMap.sum_update_mem s.poolInfo g (Finset.mem_range.mpr hpid) pool

theorem poolSum_added {allocPoint : Nat} {stakeToken : Address} :
    (s.added n allocPoint stakeToken).poolSum g = s.poolSum g +
      g { stakeToken, allocPoint, lastRewardBlock := max n s.startBlock
          accHuskyPerShare := 0, accHuskyPerShareTilBonusEnd := 0 } := by
  have hrest := TotalMap.sum_update_notMem (k := s.poolLength) s.poolInfo g
    Finset.notMem_range_self { stakeToken, allocPoint, lastRewardBlock := max n s.startBlock
                               accHuskyPerShare := 0, accHuskyPerShareTilBonusEnd := 0 }
  unfold State.poolSum
  show ∑ p ∈ Finset.range (s.poolLength + 1), g (Function.update s.poolInfo s.poolLength _ p) = _
  rw [Finset.sum_range_succ, hrest, Function.update_self]

theorem SamePools.poolSum (h : SamePools s s') : s'.poolSum g = s.poolSum g := by
  unfold State.poolSum
  rw [h.poolLength, h.poolInfo]

/-- An update writes the pool it is of, and of that neither the token nor the weight. -/
theorem Updated.poolSum (hpid : pid < s.poolLength) (h : Updated n pid s s') :
    s'.poolSum g + g (s.poolInfo pid) = s.poolSum g + g (s'.poolInfo pid) := by
  have hwrite : ∀ pool, (s.setPoolInfo pid pool).poolSum g + g (s.poolInfo pid) =
      s.poolSum g + g ((s.setPoolInfo pid pool).poolInfo pid) := by
    intro pool
    rw [poolSum_setPoolInfo g hpid pool]
    simp [State.setPoolInfo]
  cases h with
  | current _ => rfl
  | empty _ _ => exact hwrite _
  | accrued haccrues =>
      obtain rfl := haccrues.pid_eq
      exact hwrite _

theorem Updated.allocPoint (h : Updated n pid s s') (p : Nat) :
    (s'.poolInfo p).allocPoint = (s.poolInfo p).allocPoint := by
  by_cases hp : p = pid
  · subst hp
    cases h with
    | current _ => rfl
    | empty _ _ => simp [State.setPoolInfo]
    | accrued haccrues => simp [State.accrue, State.setPoolInfo, haccrues.pid_eq]
  · cases h with
    | current _ => rfl
    | empty _ _ => simp [State.setPoolInfo, Function.update_of_ne hp]
    | accrued haccrues =>
        simp [State.accrue, State.setPoolInfo, State.setHusky, haccrues.pid_eq, hp]

end PoolSum

/-! ## The total weight -/

/-- `totalAllocPoint` is the sum over the pools. -/
def Accounted (s : State) : Prop := s.totalAllocPoint = s.allocSum

theorem Updated.totalAllocPoint {s s' : State} {n pid : Nat} (h : Updated n pid s s') :
    s'.totalAllocPoint = s.totalAllocPoint := by
  cases h <;> rfl

/-- The total weight is the sum of the weights over each part of a call. -/
theorem accounted_rule (n : Nat) (keeps : Bool) : PoolRule n keeps Accounted where
  same t t' ht hpools _ := by
    unfold Accounted at *
    rw [hpools.totalAllocPoint, ht]
    exact (hpools.poolSum _).symm
  updated t t' pid ht hpid hupdated := by
    have hsum := hupdated.poolSum (·.allocPoint) hpid
    have hpool := hupdated.allocPoint pid
    unfold Accounted State.allocSum at *
    rw [hupdated.totalAllocPoint]
    omega
  added t allocPoint stakeToken ht _ := by
    show t.totalAllocPoint + allocPoint = _
    rw [State.allocSum, poolSum_added, ht, State.allocSum]
  weighed t pid allocPoint ht _ hpid hle := by
    have hsum : (t.weighed pid allocPoint).allocSum + (t.poolInfo pid).allocPoint =
        t.allocSum + allocPoint :=
      poolSum_setPoolInfo (·.allocPoint) hpid _
    unfold Accounted at *
    show t.totalAllocPoint - (t.poolInfo pid).allocPoint + allocPoint = _
    omega

/-- The total weight is the sum of the weights in every state of a run. -/
theorem accounted_inductive : machine.Inductive (fun _ _ => True) (fun c => Accounted c.state) where
  init c h := by
    obtain ⟨_, _, _, _, _, _, _, _, _, _, h⟩ := h
    rw [h]
    rfl
  step c tx c' hc _ h := by
    obtain ⟨_, _, _, _, hexec⟩ := mine_eq_ok h
    exact (accounted_rule _ _).exec hc hexec

/-! ## The bound -/

section Backlog

variable {s s' : State} {n pid b b' : Nat}

theorem weightSince_eq_zero (s : State) {last b : Nat} (h : b ≤ last) :
    s.weightSince last b = 0 :=
  Nat.sub_eq_zero_of_le (blockWeight_mono s h)

/-- Later blocks add at most their own weight. -/
theorem weightSince_le_add (s : State) (last b b' : Nat) :
    s.weightSince last b' ≤ s.weightSince last b + s.weightSince b b' := by
  unfold State.weightSince
  omega

theorem weightSince_add (s : State) {b₀ b b' : Nat} (h₀ : b₀ ≤ b) (h : b ≤ b') :
    s.weightSince b₀ b + s.weightSince b b' = s.weightSince b₀ b' := by
  have h₁ := blockWeight_mono s h₀
  have h₂ := blockWeight_mono s h
  unfold State.weightSince
  omega

theorem getMultiplier_eq_weightSince {last current m : Nat}
    (h : getMultiplier last current s = .ok m) : m = s.weightSince last current := by
  have := getMultiplier_eq_ok h
  unfold State.weightSince
  omega

theorem weightSince_congr (h : SameRewards s s') (last b : Nat) :
    s'.weightSince last b = s.weightSince last b := by
  unfold State.weightSince State.blockWeight
  rw [h.bonusEndBlock, h.bonusMultiplier]

theorem Updated.sameRewards (h : Updated n pid s s') : SameRewards s s' := by
  cases h <;> exact ⟨rfl, rfl, rfl⟩

/-- Nothing is left to accrue once no pool is behind. -/
theorem backlog_eq_zero (h : ∀ p < s.poolLength, b ≤ (s.poolInfo p).lastRewardBlock) :
    s.backlog b = 0 := by
  refine (poolSum_eq_zero _).mpr fun p hp => ?_
  simp [weightSince_eq_zero s (h p hp)]

/-- In time the backlog grows by the weight of the new blocks for every point of weight. -/
theorem backlog_advance (s : State) (b b' : Nat) :
    s.backlog b' ≤ s.backlog b + s.weightSince b b' * s.allocSum := by
  unfold State.backlog State.allocSum State.poolSum
  rw [Finset.mul_sum, ← Finset.sum_add_distrib]
  refine Finset.sum_le_sum fun p _ => ?_
  rw [← Nat.add_mul]
  exact Nat.mul_le_mul_right _ (weightSince_le_add s _ b b')

theorem backlog_eq_zero_of_allocSum (h : s.allocSum = 0) : s.backlog b = 0 := by
  refine (poolSum_eq_zero _).mpr fun p hp => ?_
  simp [(poolSum_eq_zero _).mp h p hp]

/-- An update takes the blocks of its pool out of the backlog. -/
theorem Updated.backlog (hpid : pid < s.poolLength) (h : Updated n pid s s') :
    s'.backlog n +
        s.weightSince (s.poolInfo pid).lastRewardBlock n * (s.poolInfo pid).allocPoint =
      s.backlog n := by
  have hweight : ∀ last, s'.weightSince last n = s.weightSince last n :=
    fun last => weightSince_congr h.sameRewards last n
  have hsum := h.poolSum
    (fun pool => s.weightSince pool.lastRewardBlock n * pool.allocPoint) hpid
  have hnone := weightSince_eq_zero s h.settled
  unfold State.backlog
  simp only [hweight]
  rw [hsum, hnone, Nat.zero_mul, Nat.add_zero]

/-- What an update mints is at most its pool's share of the reward of its blocks. -/
theorem Updated.minted_le (h : Updated n pid s s') :
    (s'.minted : ℚ) ≤ s.minted + s.huskyPerBlock *
      (s.weightSince (s.poolInfo pid).lastRewardBlock n * (s.poolInfo pid).allocPoint : ℕ) /
        s.totalAllocPoint := by
  have hshare : (0 : ℚ) ≤ s.huskyPerBlock *
      (s.weightSince (s.poolInfo pid).lastRewardBlock n * (s.poolInfo pid).allocPoint : ℕ) /
        s.totalAllocPoint := by
    positivity
  cases h with
  | current _ => linarith
  | empty _ _ =>
      show (s.minted : ℚ) ≤ _
      linarith
  -- an accrual mints the pool's part of the span, rounded down
  | @accrued a m til husky haccrues =>
      have hminted : (s.accrue husky m til a).minted = a.reward + s.minted := rfl
      have hfloor : (a.reward : ℚ) ≤
          (m * s.huskyPerBlock * (s.poolInfo pid).allocPoint : ℕ) / s.totalAllocPoint := by
        rw [haccrues.reward_eq]
        exact Nat.cast_div_le
      rw [getMultiplier_eq_weightSince haccrues.multiplier_eq] at hfloor
      rw [hminted]
      push_cast at hfloor ⊢
      calc (a.reward : ℚ) + s.minted
          ≤ s.weightSince (s.poolInfo pid).lastRewardBlock n * s.huskyPerBlock *
              (s.poolInfo pid).allocPoint / s.totalAllocPoint + s.minted := by linarith
        _ = _ := by ring

end Backlog

/-- What was minted since `s₀`, and what the pools would still accrue for the blocks up to
`b`, is at most the reward of the blocks since `b₀`. -/
structure Emitted (s₀ : State) (b₀ b : Nat) (s : State) : Prop where
  accounted : Accounted s
  rewards : SameRewards s₀ s
  bound : (s.minted : ℚ) + s.huskyPerBlock * s.backlog b / s.totalAllocPoint ≤
    s₀.minted + s₀.huskyPerBlock * s₀.weightSince b₀ b

section Emitted

variable {s₀ : State} {b₀ : Nat}

/-- What was minted and what is behind make up the emission, over each part of a call. -/
theorem emitted_rule (n : Nat) : PoolRule n true (Emitted s₀ b₀ n) where
  same t t' ht hpools hrewards := by
    have hrewards := hrewards rfl
    have hbacklog : t'.backlog n = t.backlog n := by
      unfold State.backlog
      simp only [weightSince_congr hrewards]
      exact hpools.poolSum _
    refine ⟨(accounted_rule n true).same t t' ht.accounted hpools fun _ => hrewards,
      ht.rewards.trans hrewards, ?_⟩
    unfold State.minted
    rw [hbacklog, hrewards.huskyPerBlock, hpools.totalAllocPoint, hpools.accruals]
    exact ht.bound
  updated t t' pid ht hpid hupdated := by
    refine ⟨(accounted_rule n true).updated t t' pid ht.accounted hpid hupdated,
      ht.rewards.trans hupdated.sameRewards, ?_⟩
    have hminted := hupdated.minted_le
    have hbound := ht.bound
    rw [← hupdated.backlog hpid] at hbound
    rw [hupdated.sameRewards.huskyPerBlock, hupdated.totalAllocPoint]
    push_cast at hbound hminted
    calc (t'.minted : ℚ) + t.huskyPerBlock * t'.backlog n / t.totalAllocPoint
        ≤ t.minted + t.huskyPerBlock * (t'.backlog n +
            t.weightSince (t.poolInfo pid).lastRewardBlock n * (t.poolInfo pid).allocPoint) /
              t.totalAllocPoint := by
          rw [mul_add, add_div]
          linarith
      _ ≤ _ := hbound
  added t allocPoint stakeToken ht hfresh := by
    refine ⟨(accounted_rule n true).added t _ _ ht.accounted hfresh,
      ht.rewards.trans ⟨rfl, rfl, rfl⟩, ?_⟩
    have hbacklog : (t.added n allocPoint stakeToken).backlog n = t.backlog n := by
      have hnone : t.weightSince (max n t.startBlock) n = 0 :=
        weightSince_eq_zero t (le_max_left _ _)
      show (t.added n allocPoint stakeToken).poolSum
        (fun pool => t.weightSince pool.lastRewardBlock n * pool.allocPoint) = _
      rw [poolSum_added, hnone, Nat.zero_mul, Nat.add_zero, State.backlog]
    -- the other shares do not grow with the total, and without a total there are none
    have hshrink : (t.huskyPerBlock : ℚ) * t.backlog n / (t.totalAllocPoint + allocPoint : ℕ) ≤
        t.huskyPerBlock * t.backlog n / t.totalAllocPoint := by
      rcases Nat.eq_zero_or_pos t.totalAllocPoint with hzero | hpos
      · have hnone : t.backlog n = 0 :=
          backlog_eq_zero_of_allocSum (ht.accounted.symm.trans hzero)
        simp [hnone]
      · have hle : (t.totalAllocPoint : ℚ) ≤ (t.totalAllocPoint + allocPoint : ℕ) := by
          exact_mod_cast Nat.le_add_right _ _
        have hpos : (0 : ℚ) < t.totalAllocPoint := by exact_mod_cast hpos
        exact div_le_div_of_nonneg_left (by positivity) hpos hle
    rw [hbacklog]
    calc ((t.added n allocPoint stakeToken).minted : ℚ) +
            (t.added n allocPoint stakeToken).huskyPerBlock * t.backlog n /
              (t.added n allocPoint stakeToken).totalAllocPoint
        = t.minted + t.huskyPerBlock * t.backlog n / (t.totalAllocPoint + allocPoint : ℕ) := rfl
      _ ≤ t.minted + t.huskyPerBlock * t.backlog n / t.totalAllocPoint := by linarith
      _ ≤ _ := ht.bound
  weighed t pid allocPoint ht hsettled hpid hle := by
    refine ⟨(accounted_rule n true).weighed t _ _ ht.accounted hsettled hpid hle,
      ht.rewards.trans ⟨rfl, rfl, rfl⟩, ?_⟩
    have hbefore : t.backlog n = 0 := backlog_eq_zero hsettled
    have hafter : (t.weighed pid allocPoint).backlog n = 0 := by
      refine backlog_eq_zero fun p hp => (hsettled p hp).trans (le_of_eq ?_)
      by_cases hp : p = pid
      · subst hp
        simp [State.weighed, State.setPoolInfo]
      · simp [State.weighed, State.setPoolInfo, Function.update_of_ne hp]
    have hbound := ht.bound
    have hminted : (t.weighed pid allocPoint).minted = t.minted := rfl
    rw [hbefore] at hbound
    rw [hafter, hminted]
    simpa using hbound

/-- As blocks pass, both sides grow by their weight. -/
theorem Emitted.advance {s : State} {b b' : Nat} (h : Emitted s₀ b₀ b s) (h₀ : b₀ ≤ b)
    (hb : b ≤ b') : Emitted s₀ b₀ b' s := by
  refine ⟨h.accounted, h.rewards, ?_⟩
  have hgrow := backlog_advance s b b'
  rw [← h.accounted] at hgrow
  have hgrow : (s.backlog b' : ℚ) ≤ s.backlog b + s.weightSince b b' * s.totalAllocPoint := by
    exact_mod_cast hgrow
  have hshare : (s.huskyPerBlock : ℚ) * s.backlog b' / s.totalAllocPoint ≤
      s.huskyPerBlock * s.backlog b / s.totalAllocPoint +
        s.huskyPerBlock * s.weightSince b b' := by
    -- without weights the quotient is zero
    rcases Nat.eq_zero_or_pos s.totalAllocPoint with hzero | hpos
    · rw [hzero]
      simp only [Nat.cast_zero, div_zero]
      positivity
    · have hpos : (0 : ℚ) < s.totalAllocPoint := by exact_mod_cast hpos
      have hscaled : (s.huskyPerBlock : ℚ) * s.backlog b' ≤ s.huskyPerBlock *
          (s.backlog b + s.weightSince b b' * s.totalAllocPoint) :=
        mul_le_mul_of_nonneg_left hgrow (by positivity)
      calc (s.huskyPerBlock : ℚ) * s.backlog b' / s.totalAllocPoint
          ≤ s.huskyPerBlock * (s.backlog b + s.weightSince b b' * s.totalAllocPoint) /
              s.totalAllocPoint := div_le_div_of_nonneg_right hscaled hpos.le
        _ = _ := by
            field_simp
  have hsplit : (s₀.weightSince b₀ b : ℚ) + s₀.weightSince b b' = s₀.weightSince b₀ b' := by
    exact_mod_cast weightSince_add s₀ h₀ hb
  have hbound := h.bound
  rw [h.rewards.huskyPerBlock] at hshare hbound ⊢
  rw [weightSince_congr h.rewards] at hshare
  rw [← hsplit, mul_add]
  linarith

end Emitted

/-! ## Runs -/

/-- No pool is behind block `b`. -/
def SettledAt (b : Nat) (s : State) : Prop := ∀ p < s.poolLength, b ≤ (s.poolInfo p).lastRewardBlock

/-- A transaction that leaves the reward of a block and the bonus window as they are. -/
def KeepsRewards (c : Chain) (tx : Tx) : Prop :=
  ∀ c', mine c tx = .ok c' → SameRewards c.state c'.state

theorem sameRewards_rule (s : State) (n : Nat) : PoolRule n true (SameRewards s) where
  same _ _ ht _ hrewards := ht.trans (hrewards rfl)
  updated _ _ _ ht _ hupdated := ht.trans hupdated.sameRewards
  added _ _ _ ht _ := ht.trans ⟨rfl, rfl, rfl⟩
  weighed _ _ _ ht _ _ _ := ht.trans ⟨rfl, rfl, rfl⟩

/-- Only the two functions that set them change these parameters. -/
theorem keepsRewards_of_op {c : Chain} {tx : Tx} (hop : tx.op.setsRewards = false) :
    KeepsRewards c tx := by
  intro c' h
  obtain ⟨_, _, _, _, hexec⟩ := mine_eq_ok h
  have hrule : PoolRule tx.blockNumber (!tx.op.setsRewards) (SameRewards c.state) := by
    rw [hop]
    exact sameRewards_rule _ _
  exact hrule.exec ⟨rfl, rfl, rfl⟩ hexec

theorem emitted_of_settled {c₀ : Chain} (hreach : machine.Reachable c₀)
    (hsettled : SettledAt c₀.block c₀.state) :
    Emitted c₀.state c₀.block c₀.block c₀.state := by
  refine ⟨accounted_inductive.invariant hreach, ⟨rfl, rfl, rfl⟩, ?_⟩
  rw [backlog_eq_zero hsettled, weightSince_eq_zero _ le_rfl]
  simp

/-- Minted and behind make up the emission in every state of a run. -/
theorem emitted_inductive {c₀ : Chain} (hreach : machine.Reachable c₀)
    (hsettled : SettledAt c₀.block c₀.state) :
    (machine.startAt c₀).Inductive KeepsRewards fun c =>
      c₀.block ≤ c.block ∧ Emitted c₀.state c₀.block c.block c.state where
  init c h := by
    obtain rfl := h
    exact ⟨le_rfl, emitted_of_settled hreach hsettled⟩
  step c tx c' hc hkeeps h := by
    obtain ⟨hstart, hemitted⟩ := hc
    obtain ⟨_, hblock, _, hnow, hexec⟩ := mine_eq_ok h
    have hnext := hemitted.advance hstart hblock
    rw [hnow]
    refine ⟨hstart.trans hblock, ?_⟩
    by_cases hsets : tx.op.setsRewards = true
    · have hquiet : tx.op.quiet = true := by
        revert hsets
        cases tx.op <;> simp [Op.setsRewards, Op.quiet]
      exact (emitted_rule _).same _ _ hnext (exec_quiet hquiet hexec).1.toSamePools
        fun _ => hkeeps c' h
    · have hrule : PoolRule tx.blockNumber (!tx.op.setsRewards)
          (Emitted c₀.state c₀.block tx.blockNumber) := by
        rw [Bool.eq_false_iff.mpr hsets]
        exact emitted_rule _
      exact hrule.exec hnext hexec

/-- In every reachable state `totalAllocPoint` is the sum over the pools; and from a state
whose pools are settled, in every run that keeps the reward of a block and the bonus, all
pools together mint at most `getMultiplier` times `huskyPerBlock`. -/
theorem minted_le_getMultiplier :
    (∀ c, machine.Reachable c → c.state.totalAllocPoint =
      ∑ p ∈ Finset.range c.state.poolLength, (c.state.poolInfo p).allocPoint) ∧
    ∀ c₀ c e m, machine.Reachable c₀ → SettledAt c₀.block c₀.state →
      (machine.startAt c₀).ReachableBy KeepsRewards c → c.block ≤ e →
      getMultiplier c₀.block e c₀.state = .ok m →
      c.state.minted ≤ c₀.state.minted + m * c₀.state.huskyPerBlock := by
  refine ⟨fun c hreach => accounted_inductive.invariant hreach, ?_⟩
  intro c₀ c e m hreach hsettled hrun he hm
  obtain ⟨hstart, hemitted⟩ := (emitted_inductive hreach hsettled).invariant hrun
  have hbound := (hemitted.advance hstart he).bound
  rw [← getMultiplier_eq_weightSince hm] at hbound
  have hshare : (0 : ℚ) ≤
      c.state.huskyPerBlock * c.state.backlog e / c.state.totalAllocPoint := by
    positivity
  have hminted : (c.state.minted : ℚ) ≤ c₀.state.minted + c₀.state.huskyPerBlock * m := by
    linarith
  have hminted : c.state.minted ≤ c₀.state.minted + c₀.state.huskyPerBlock * m := by
    exact_mod_cast hminted
  rwa [Nat.mul_comm] at hminted

/-- One pool with stake from block 1 on, updated at block 3. -/
theorem minted_le_getMultiplier_onePool :
    ∃ c, (machine.startAt (freshChain 1000)).ReachableBy KeepsRewards c ∧
      c.state.minted = 2000 ∧ c.state.minted ≤ 0 + 3 * 1000 := by
  have hrun : (machine.startAt (freshChain 1000)).lastStep (freshChain 1000)
      [⟨50, 0, .addPool 1 102 false⟩, ⟨1, 1, .deposit 1 0 10⟩] ⟨2, 3, .updatePool 0⟩
      (fun _ c => c.block = 3 ∧ c.state.minted = 2000) = true := by
    decide +kernel
  have hkeeps : ∀ τ, ∀ tx ∈ ([⟨50, 0, .addPool 1 102 false⟩, ⟨1, 1, .deposit 1 0 10⟩] : List Tx),
      KeepsRewards τ tx := by
    intro τ tx htx
    refine keepsRewards_of_op ?_
    fin_cases htx <;> rfl
  obtain ⟨c₁, c, hreach, hstep, htest⟩ := TSys.lastStep_reachableBy rfl hkeeps hrun
  obtain ⟨hblock, hminted⟩ := of_decide_eq_true htest
  have hreach := TSys.ReachableBy.step hreach (keepsRewards_of_op rfl) hstep
  refine ⟨c, hreach, hminted, ?_⟩
  exact minted_le_getMultiplier.2 (freshChain 1000) c 3 3 (.init (freshChain_init 1000))
    (fun p hp => absurd hp (Nat.not_lt_zero p)) hreach hblock.le (by decide +kernel)

end Huski.FairLaunch
