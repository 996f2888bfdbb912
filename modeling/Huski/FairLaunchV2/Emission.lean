import Huski.FairLaunchV2.Debts
import Huski.Lib.TotalMap

/-!
# The emission of V2

What V2 credits for a range of blocks is bounded pool by pool: the blocks of the range that
a pool has accrued are in its accruals, and the others are weighted with the share the pool
has now. An update moves blocks from the second to the first. A new weight changes all the
shares, and `setPool` settles only the pool it is for; so where it lowers the total, blocks
that the other pools have not accrued yet come to count for more than they did.
-/

namespace Huski.FairLaunchV2

open Solidity State
open scoped BigOperators

/-- The number of blocks after `last` up to `b` that are in the range after `s` up to `e`. -/
def span (s e last b : Nat) : Nat := min e b - max s last

/-- The stake that an accrual was credited to, over all users. -/
def Accrual.staked (a : Accrual) : Nat := ∑ user, a.amount user

/-- What an accrual credits to all stakes, in HUSKY. -/
def Accrual.credited (a : Accrual) : ℚ := a.staked * a.perShare / 10 ^ 12

/-- The part of it for the blocks after `s` up to `e`. -/
def Accrual.creditedFor (s e : Nat) (a : Accrual) : ℚ :=
  a.credited * span s e a.fromBlock a.toBlock / (a.toBlock - a.fromBlock : ℕ)

/-- What was credited to stakers for the blocks after `s` up to `e`, over all pools. -/
def State.credited (σ : State) (s e : Nat) : ℚ := (σ.accruals.map (Accrual.creditedFor s e)).sum

/-- The stake recorded in a pool, over all users. -/
def State.staked (σ : State) (p : Nat) : Nat := ∑ user, (σ.userInfo p user).amount

/-- The sum of one component over all pools. -/
def State.poolSum (σ : State) (g : PoolInfo → Nat) : Nat :=
  ∑ p ∈ Finset.range σ.poolLength, g (σ.poolInfo p)

/-- The blocks of the range up to `n` that no pool has accrued, by the weight of the pool. -/
def State.backlog (σ : State) (s e n : Nat) : Nat :=
  σ.poolSum fun pool => span s e pool.lastRewardBlock n * pool.allocPoint

/-- The rate is `h`, and the stake that an update finds is at least what is recorded. -/
def SteadyUpdate (h n : Nat) (σ : State) (pid : Nat) : Prop :=
  huskyPerBlock σ = .ok h ∧
    ∀ σ₁, harvestFromFairLaunchV1 n σ = .ok σ₁ → σ.staked pid ≤ σ₁.balanceOf (σ.stakeTokens pid)

/-- A new weight is no lower than the old one, or no other pool with weight is behind. -/
def SettledWeight (n : Nat) (σ : State) (pid allocPoint : Nat) : Prop :=
  (σ.poolInfo pid).allocPoint ≤ allocPoint ∨ ∀ q < σ.poolLength, q ≠ pid →
    n ≤ (σ.poolInfo q).lastRewardBlock ∨ (σ.poolInfo q).allocPoint = 0

def steadyConditions (h n : Nat) : Conditions :=
  { U := SteadyUpdate h n, W := SettledWeight n }

section PoolSum

variable {σ σ' : State} {n pid : Nat} (g : PoolInfo → Nat)

theorem poolSum_eq_zero : σ.poolSum g = 0 ↔ ∀ p < σ.poolLength, g (σ.poolInfo p) = 0 := by
  simp [State.poolSum]

theorem SamePools.poolSum (h : SamePools σ σ') : σ'.poolSum g = σ.poolSum g := by
  unfold State.poolSum
  rw [h.poolLength, h.poolInfo]

theorem poolSum_setPoolInfo (hpid : pid < σ.poolLength) (pool : PoolInfo) :
    (σ.setPoolInfo pid pool).poolSum g + g (σ.poolInfo pid) = σ.poolSum g + g pool :=
  TotalMap.sum_update_mem σ.poolInfo g (Finset.mem_range.mpr hpid) pool

theorem poolSum_added {allocPoint startBlock : Nat} {stakeToken locker : Address} :
    (σ.added n allocPoint stakeToken locker startBlock).poolSum g = σ.poolSum g +
      g { allocPoint, lastRewardBlock := max n startBlock, accHuskyPerShare := 0 } := by
  have hrest := TotalMap.sum_update_notMem (k := σ.poolLength) σ.poolInfo g
    Finset.notMem_range_self
    { allocPoint, lastRewardBlock := max n startBlock, accHuskyPerShare := 0 }
  unfold State.poolSum
  show ∑ p ∈ Finset.range (σ.poolLength + 1), g (Function.update σ.poolInfo σ.poolLength _ p) = _
  rw [Finset.sum_range_succ, hrest, Function.update_self]

/-- An update changes the sum by what it changes of its pool. -/
theorem Updated.poolSum (hpid : pid < σ.poolLength) (h : Updated n pid σ σ') :
    σ'.poolSum g + g (σ.poolInfo pid) = σ.poolSum g + g (σ'.poolInfo pid) := by
  have hwrite : ∀ (τ : State) (pool : PoolInfo), pid < τ.poolLength →
      (τ.setPoolInfo pid pool).poolSum g + g (τ.poolInfo pid) =
        τ.poolSum g + g ((τ.setPoolInfo pid pool).poolInfo pid) := by
    intro τ pool hlisted
    rw [poolSum_setPoolInfo g hlisted pool]
    simp [State.setPoolInfo]
  cases h with
  | current hook _ =>
      have hpools := (sameStakes_of_hook hook).toSamePools
      rw [hpools.poolSum, hpools.poolInfo]
  | @accrued σ₁ perShare hook _ _ =>
      have hpools := (sameStakes_of_hook hook).toSamePools
      rw [← hpools.poolSum, ← hpools.poolInfo]
      exact hwrite σ₁ _ (hpools.poolLength.symm ▸ hpid)

end PoolSum

/-! ## The total weight -/

/-- `totalAllocPoint` is the sum over the pools. -/
def Accounted (σ : State) : Prop := σ.totalAllocPoint = σ.poolSum (·.allocPoint)

section Accounted

variable {σ σ' : State} {n pid allocPoint : Nat}

/-- An update changes no weight. -/
theorem Accounted.updated (hσ : Accounted σ) (hpid : pid < σ.poolLength)
    (h : Updated n pid σ σ') : Accounted σ' := by
  have hsum := h.poolSum (·.allocPoint) hpid
  have hpool := h.allocPoint pid
  unfold Accounted at *
  rw [h.totalAllocPoint]
  omega

theorem Accounted.added {startBlock : Nat} {stakeToken locker : Address} (hσ : Accounted σ) :
    Accounted (σ.added n allocPoint stakeToken locker startBlock) := by
  show σ.totalAllocPoint + allocPoint = _
  rw [poolSum_added, hσ]

theorem Accounted.weighed {lockers : Nat → Address} (hσ : Accounted σ)
    (hpid : pid < σ.poolLength) (hle : (σ.poolInfo pid).allocPoint ≤ σ.totalAllocPoint) :
    Accounted (σ.weighed pid allocPoint lockers) := by
  have hsum : (σ.weighed pid allocPoint lockers).poolSum (·.allocPoint) +
      (σ.poolInfo pid).allocPoint = σ.poolSum (·.allocPoint) + allocPoint :=
    poolSum_setPoolInfo (·.allocPoint) hpid _
  unfold Accounted at *
  show σ.totalAllocPoint - (σ.poolInfo pid).allocPoint + allocPoint = _
  omega

end Accounted

/-! ## The backlog -/

section Backlog

variable {σ σ' : State} {s e n n' pid allocPoint : Nat}

theorem span_eq_zero {last : Nat} (h : n ≤ last) : span s e last n = 0 := by
  unfold span
  omega

/-- Time adds the blocks of the window. -/
theorem span_advance (last : Nat) (h : n ≤ n') :
    span s e last n' ≤ span s e last n + span s e n n' := by
  unfold span
  omega

theorem span_start (h : n ≤ n') : span s e 0 n' = span s e 0 n + span s e n n' := by
  unfold span
  omega

/-- Without a total there is no backlog. -/
theorem backlog_eq_zero_of_total (hσ : Accounted σ) (h : σ.totalAllocPoint = 0) :
    σ.backlog s e n = 0 := by
  refine (poolSum_eq_zero _).mpr fun p hp => ?_
  rw [(poolSum_eq_zero _).mp (hσ.symm.trans h) p hp, Nat.mul_zero]

/-- Time adds the window's blocks to what is behind. -/
theorem backlog_advance (hσ : Accounted σ) (h : n ≤ n') :
    σ.backlog s e n' ≤ σ.backlog s e n + span s e n n' * σ.totalAllocPoint := by
  rw [hσ]
  unfold State.backlog State.poolSum
  rw [Finset.mul_sum, ← Finset.sum_add_distrib]
  refine Finset.sum_le_sum fun p _ => ?_
  rw [← Nat.add_mul]
  exact Nat.mul_le_mul_right _ (span_advance _ h)

/-- An update takes the blocks of its pool out of the backlog. -/
theorem Updated.backlog (hpid : pid < σ.poolLength) (h : Updated n pid σ σ') :
    σ'.backlog s e n + span s e (σ.poolInfo pid).lastRewardBlock n * (σ.poolInfo pid).allocPoint =
      σ.backlog s e n := by
  have hsum := h.poolSum (fun pool => span s e pool.lastRewardBlock n * pool.allocPoint) hpid
  have hnone : span s e (σ'.poolInfo pid).lastRewardBlock n = 0 := span_eq_zero h.settled
  unfold State.backlog
  rw [hsum, hnone, Nat.zero_mul, Nat.add_zero]

/-- A share of the backlog does not grow with the total. -/
theorem share_anti (hσ : Accounted σ) {h : Nat} (total : Nat) (hle : σ.totalAllocPoint ≤ total) :
    (h * σ.backlog s e n / total : ℚ) ≤ h * σ.backlog s e n / σ.totalAllocPoint := by
  rcases Nat.eq_zero_or_pos σ.totalAllocPoint with hzero | hpos
  · rw [backlog_eq_zero_of_total hσ hzero]
    simp
  · have hpos : (0 : ℚ) < σ.totalAllocPoint := by exact_mod_cast hpos
    have hle : (σ.totalAllocPoint : ℚ) ≤ total := by exact_mod_cast hle
    exact div_le_div_of_nonneg_left (by positivity) hpos hle

end Backlog

/-! ## The bound -/

/-- All stakes are credited at most the reward of the update. -/
theorem staked_mul_perShare_le {σ : State} {h n pid supply perShare : Nat}
    (hrate : huskyPerBlock σ = .ok h) (hstaked : σ.staked pid ≤ supply)
    (hcredits : Credits n pid σ supply perShare) :
    σ.staked pid * perShare ≤ (n - (σ.poolInfo pid).lastRewardBlock) * h *
      (σ.poolInfo pid).allocPoint * precision / σ.totalAllocPoint := by
  cases hcredits with
  | nothing _ zero =>
      rw [zero]
      exact Nat.zero_le _
  | @reward rate _ _ rate_eq perShare_eq =>
      obtain rfl : h = rate := Except.ok.inj (hrate.symm.trans rate_eq)
      rw [perShare_eq]
      exact (Nat.mul_le_mul_right _ hstaked).trans (Nat.mul_div_le _ _)

/-- An accrual credits at most the share of its pool, block by block. -/
theorem creditedFor_le {σ : State} {h n pid s e supply perShare : Nat} {a : Accrual}
    (hrate : huskyPerBlock σ = .ok h) (hstaked : σ.staked pid ≤ supply)
    (hcredits : Credits n pid σ supply perShare) (hbehind : (σ.poolInfo pid).lastRewardBlock < n)
    (hfrom : a.fromBlock = (σ.poolInfo pid).lastRewardBlock) (hto : a.toBlock = n)
    (hshare : a.perShare = perShare) (hamount : a.staked = σ.staked pid) :
    a.creditedFor s e ≤ h * (span s e (σ.poolInfo pid).lastRewardBlock n *
      (σ.poolInfo pid).allocPoint : ℕ) / σ.totalAllocPoint := by
  have hblocks : (0 : ℚ) < (n - (σ.poolInfo pid).lastRewardBlock : ℕ) := by
    exact_mod_cast Nat.sub_pos_of_lt hbehind
  have hreward : (σ.staked pid * perShare : ℚ) ≤ (n - (σ.poolInfo pid).lastRewardBlock : ℕ) * h *
      (σ.poolInfo pid).allocPoint * 10 ^ 12 / σ.totalAllocPoint := by
    have hfloor := staked_mul_perShare_le hrate hstaked hcredits
    -- what the floor of the share leaves out is never credited
    calc (σ.staked pid * perShare : ℚ)
        ≤ ((n - (σ.poolInfo pid).lastRewardBlock) * h * (σ.poolInfo pid).allocPoint * precision /
            σ.totalAllocPoint : ℕ) := by exact_mod_cast hfloor
      _ ≤ ((n - (σ.poolInfo pid).lastRewardBlock) * h * (σ.poolInfo pid).allocPoint * precision :
            ℕ) / σ.totalAllocPoint := Nat.cast_div_le
      _ = _ := by
          push_cast [precision]
          ring
  unfold Accrual.creditedFor Accrual.credited
  rw [hfrom, hto, hshare, hamount, div_le_iff₀ hblocks]
  -- the part of the span is taken of the credited amount as a fraction
  generalize (σ.staked pid : ℚ) * perShare = credited at hreward ⊢
  have hcredited : credited / 10 ^ 12 ≤ (n - (σ.poolInfo pid).lastRewardBlock : ℕ) * h *
      (σ.poolInfo pid).allocPoint / σ.totalAllocPoint := by
    rw [div_le_iff₀ (by positivity)]
    refine hreward.trans (le_of_eq ?_)
    ring
  calc credited / 10 ^ 12 * span s e (σ.poolInfo pid).lastRewardBlock n
      ≤ (n - (σ.poolInfo pid).lastRewardBlock : ℕ) * h * (σ.poolInfo pid).allocPoint /
          σ.totalAllocPoint * span s e (σ.poolInfo pid).lastRewardBlock n :=
        mul_le_mul_of_nonneg_right hcredited (Nat.cast_nonneg _)
    _ = _ := by
        rw [Nat.cast_mul]
        ring

/-- What was credited for the range, and the share of its blocks that are not accrued yet,
is at most the rate for the blocks of the range up to `n`. -/
structure Emitted (h n : Nat) (σ : State) : Prop where
  accounted : Accounted σ
  bound : ∀ s e, σ.credited s e + h * σ.backlog s e n / σ.totalAllocPoint ≤ h * span s e 0 n

section Emitted

variable {h n pid : Nat} {σ σ' : State}

theorem Emitted.advance {n' : Nat} (hσ : Emitted h n σ) (hle : n ≤ n') : Emitted h n' σ := by
  refine ⟨hσ.accounted, fun s e => ?_⟩
  have hbound := hσ.bound s e
  have hgrow : (σ.backlog s e n' : ℚ) ≤
      σ.backlog s e n + span s e n n' * σ.totalAllocPoint := by
    exact_mod_cast backlog_advance hσ.accounted hle
  have hstart : (span s e 0 n' : ℚ) = span s e 0 n + span s e n n' := by
    exact_mod_cast span_start hle
  have hshare : (h * σ.backlog s e n' / σ.totalAllocPoint : ℚ) ≤
      h * σ.backlog s e n / σ.totalAllocPoint + h * span s e n n' := by
    rcases Nat.eq_zero_or_pos σ.totalAllocPoint with hzero | hpos
    · rw [hzero]
      simp only [Nat.cast_zero, div_zero]
      positivity
    · have hpos : (0 : ℚ) < σ.totalAllocPoint := by exact_mod_cast hpos
      calc (h * σ.backlog s e n' / σ.totalAllocPoint : ℚ)
          ≤ h * (σ.backlog s e n + span s e n n' * σ.totalAllocPoint) / σ.totalAllocPoint := by
            gcongr
        _ = _ := by
            field_simp
  rw [hstart, mul_add]
  linarith

theorem credited_congr (hsame : σ'.accruals = σ.accruals) (s e : Nat) :
    σ'.credited s e = σ.credited s e := by
  unfold State.credited
  rw [hsame]

/-- An accrual adds what it credits. -/
theorem credited_accrue {σ₁ : State} {acc : Nat} (hsame : σ₁.accruals = σ.accruals) (s e : Nat) :
    (σ₁.accrue n pid acc).credited s e = σ.credited s e + Accrual.creditedFor s e
      { pid, fromBlock := (σ₁.poolInfo pid).lastRewardBlock, toBlock := n
        perShare := acc - (σ₁.poolInfo pid).accHuskyPerShare
        amount := fun user => (σ₁.userInfo pid user).amount } := by
  unfold State.credited
  rw [← hsame, add_comm, ← List.sum_cons, ← List.map_cons]
  rfl

/-- An update credits what was behind. -/
theorem Emitted.updated (hσ : Emitted h n σ) (hpid : pid < σ.poolLength)
    (hU : SteadyUpdate h n σ pid) (hupdated : Updated n pid σ σ') : Emitted h n σ' := by
  refine ⟨hσ.accounted.updated hpid hupdated, fun s e => ?_⟩
  have hbound := hσ.bound s e
  have hcredited : σ'.credited s e ≤ σ.credited s e +
      h * (span s e (σ.poolInfo pid).lastRewardBlock n * (σ.poolInfo pid).allocPoint : ℕ) /
        σ.totalAllocPoint := by
    cases hupdated with
    -- nothing is credited in a block already settled
    | current hook _ =>
        have hsame : σ'.credited s e = σ.credited s e := by
          unfold State.credited
          rw [(sameStakes_of_hook hook).accruals]
        rw [hsame]
        have : (0 : ℚ) ≤ h * (span s e (σ.poolInfo pid).lastRewardBlock n *
            (σ.poolInfo pid).allocPoint : ℕ) / σ.totalAllocPoint := by
          positivity
        linarith
    -- the pool's backlog becomes credit, at the weight it had
    | @accrued σ₁ perShare hook behind credits =>
        have hsame := sameStakes_of_hook hook
        rw [credited_accrue hsame.accruals, hsame.poolInfo, hsame.userInfo]
        refine add_le_add le_rfl (creditedFor_le hU.1 (hU.2 σ₁ hook) credits behind rfl rfl ?_ rfl)
        exact Nat.add_sub_cancel_left _ _
  have hbacklog := hupdated.backlog (s := s) (e := e) hpid
  rw [hupdated.totalAllocPoint]
  rw [← hbacklog] at hbound
  push_cast at hbound hcredited ⊢
  rw [mul_add, add_div] at hbound
  linarith

/-- A new weight of a settled pool changes nothing of the emission so far. -/
theorem Emitted.weighed {allocPoint : Nat} {lockers : Nat → Address} (hσ : Emitted h n σ)
    (hW : SettledWeight n σ pid allocPoint) (hpid : pid < σ.poolLength)
    (hsettled : n ≤ (σ.poolInfo pid).lastRewardBlock)
    (hle : (σ.poolInfo pid).allocPoint ≤ σ.totalAllocPoint) :
    Emitted h n (σ.weighed pid allocPoint lockers) := by
  refine ⟨hσ.accounted.weighed hpid hle, fun s e => ?_⟩
  -- the pool is settled, so its new weight claims no past block
  have hbacklog : (σ.weighed pid allocPoint lockers).backlog s e n = σ.backlog s e n := by
    have hsum := poolSum_setPoolInfo (σ := σ)
      (fun pool => span s e pool.lastRewardBlock n * pool.allocPoint) hpid
      { σ.poolInfo pid with allocPoint }
    have hnone : span s e (σ.poolInfo pid).lastRewardBlock n = 0 := span_eq_zero hsettled
    simp only [hnone, Nat.zero_mul, Nat.add_zero] at hsum
    exact hsum
  have hbound := hσ.bound s e
  have hsame : (σ.weighed pid allocPoint lockers).credited s e = σ.credited s e :=
    credited_congr rfl s e
  rw [hsame, hbacklog]
  rcases hW with hraise | hothers
  -- a greater total weight lowers the share of every backlog
  · have hshare := share_anti (s := s) (e := e) (n := n) hσ.accounted (h := h)
      (σ.totalAllocPoint - (σ.poolInfo pid).allocPoint + allocPoint) (by omega)
    exact (add_le_add le_rfl hshare).trans hbound
  -- with no backlog anywhere the total weight is free
  · have hnone : σ.backlog s e n = 0 := by
      refine (poolSum_eq_zero _).mpr fun q hq => ?_
      by_cases hqp : q = pid
      · rw [hqp, span_eq_zero hsettled, Nat.zero_mul]
      · rcases hothers q hq hqp with hlast | hzero
        · rw [span_eq_zero hlast, Nat.zero_mul]
        · rw [hzero, Nat.mul_zero]
    rw [hnone] at hbound ⊢
    simpa using hbound

theorem emitted_rule (msg : FairLaunch.Msg) :
    CallRule (steadyConditions h msg.blockNumber) msg (Emitted h msg.blockNumber) where
  same t t' ht hsame := by
    refine ⟨?_, fun s e => ?_⟩
    · unfold Accounted
      rw [hsame.totalAllocPoint, hsame.toSamePools.poolSum]
      exact ht.accounted
    · rw [credited_congr hsame.accruals, State.backlog, hsame.toSamePools.poolSum,
        hsame.totalAllocPoint]
      exact ht.bound s e
  updated _ _ _ ht hpid hU hupdated := ht.updated hpid hU hupdated
  added t allocPoint stakeToken locker startBlock ht := by
    refine ⟨ht.accounted.added, fun s e => ?_⟩
    have hbacklog : (t.added msg.blockNumber allocPoint stakeToken locker startBlock).backlog s e
        msg.blockNumber = t.backlog s e msg.blockNumber := by
      unfold State.backlog
      rw [poolSum_added, span_eq_zero (le_max_left _ _), Nat.zero_mul, Nat.add_zero]
    -- the new pool starts now, and only raises the total weight
    have hshare := share_anti (s := s) (e := e) (n := msg.blockNumber) ht.accounted (h := h)
      (t.totalAllocPoint + allocPoint) (Nat.le_add_right _ _)
    have hsame : (t.added msg.blockNumber allocPoint stakeToken locker startBlock).credited s e =
        t.credited s e := credited_congr rfl s e
    rw [hsame, hbacklog]
    exact (add_le_add le_rfl hshare).trans (ht.bound s e)
  weighed _ _ _ _ ht hW hpid hsettled hle := ht.weighed hW hpid hsettled hle
  acts t t' pid user action ht _ hacts := by
    refine ⟨?_, fun s e => ?_⟩
    · unfold Accounted
      rw [hacts.pools.totalAllocPoint, hacts.pools.poolSum]
      exact ht.accounted
    · rw [credited_congr hacts.pools.accruals, State.backlog, hacts.pools.poolSum,
        hacts.pools.totalAllocPoint]
      exact ht.bound s e

end Emitted

/-! ## What is credited over every run -/

/-- Every update of the transaction is made at the rate `h`, over a stake of at least what
is recorded, and every new weight is no lower or finds the other pools settled. -/
def KeepsRate (h : Nat) (c : Chain) (tx : Tx) : Prop :=
  (steadyConditions h tx.blockNumber).Meet tx.msg tx.op c.state

/-- Credited and behind stay within the emission in every state of a run. -/
theorem emitted_inductive (h : Nat) :
    machine.Inductive (KeepsRate h) (fun c => Emitted h c.block c.state) where
  init c hinit := by
    obtain ⟨_, _, _, _, _, _, _, _, hstate⟩ := hinit
    rw [hstate]
    refine ⟨rfl, fun s e => ?_⟩
    simp only [State.credited, State.backlog, State.poolSum, initState, Finset.range_zero,
      Finset.sum_empty, List.map_nil, List.sum_nil, Nat.cast_zero, mul_zero, zero_div, add_zero]
    positivity
  step c tx c' hc hmeet hstep := by
    obtain ⟨_, _, hblock, hnow, hexec⟩ := mine_eq_ok hstep
    rw [hnow]
    exact (emitted_rule tx.msg).exec hmeet (hc.advance hblock) hexec

/-- In every run at the rate `h` whose re-weighings lower no weight while another pool with
weight is behind, all pools together credit at most `h` for each block of any range. -/
theorem credited_le_rate {h : Nat} {c : Chain} (hreach : machine.ReachableBy (KeepsRate h) c)
    (s e : Nat) : c.state.credited s e ≤ (e - s : ℕ) * h := by
  have hbound := ((emitted_inductive h).invariant hreach).bound s e
  have hshare : (0 : ℚ) ≤ h * c.state.backlog s e c.block / c.state.totalAllocPoint := by
    positivity
  have hspan : span s e 0 c.block ≤ e - s := by
    unfold span
    omega
  calc c.state.credited s e ≤ h * span s e 0 c.block := by linarith
    _ ≤ h * (e - s : ℕ) := by gcongr
    _ = (e - s : ℕ) * h := mul_comm _ _

/-- V1 with the master pool, at 102 points of 102. -/
def masterV1 (huskyPerBlock : Nat) : FairLaunch.State := (freshV1 huskyPerBlock).added 0 102 102

/-- V2 just deployed over it. -/
def masterChain (huskyPerBlock : Nat) : Chain :=
  { block := 0
    state := initState 200 1 (masterV1 huskyPerBlock) (fun _ => []) (fun _ => noLocker) 0 }

theorem masterChain_init (huskyPerBlock : Nat) : machine.init (masterChain huskyPerBlock) := by
  have hfresh : FairLaunch.machine.init ⟨0, freshV1 huskyPerBlock⟩ :=
    ⟨100, 50, FairLaunch.freshHusky, fun _ => heldToken, 51, huskyPerBlock, 0, 0, 0, rfl, rfl⟩
  have hstep : FairLaunch.mine ⟨0, freshV1 huskyPerBlock⟩ ⟨50, 0, .addPool 102 102 false⟩ =
      .ok ⟨0, masterV1 huskyPerBlock⟩ := by
    refine FairLaunch.mine_of_exec (show (50 : Address) ≠ 100 by decide) le_rfl
      (show 0 < 2 ^ 64 by norm_num) ?_
    simp only [FairLaunch.exec, FairLaunch.addPool, FairLaunch.onlyOwner, FairLaunch.updateIf,
      bind_eq_ok, require_eq_ok, SafeMath.add_eq_ok, pure_eq_ok]
    exact ⟨(), rfl, freshV1 huskyPerBlock, rfl, (), by decide, (), rfl, 102,
      ⟨show 0 + 102 < wordSize by norm_num [wordSize], rfl⟩, rfl⟩
  refine ⟨200, 1, masterV1 huskyPerBlock, fun _ => [], fun _ => noLocker, 0,
    .step (.init hfresh) trivial hstep, ?_, rfl⟩
  show (200 : Address) ≠ 100
  decide

theorem Acts.staked {msg : FairLaunch.Msg} {σ σ' : State} {pid : Nat} {user : Address}
    {action : Action} (h : Acts msg.sender pid user action σ σ') :
    σ'.staked pid + (σ.userInfo pid user).amount =
      σ.staked pid + (σ'.userInfo pid user).amount := by
  obtain ⟨info, _, huser⟩ := h.writes
  have hsum := TotalMap.sum_update (σ.userInfo pid) UserInfo.amount user info
  unfold State.staked
  rw [huser, userInfo_setUserInfo]
  simpa [State.setUserInfo] using hsum

/-- Account 2 stakes 5 and is credited the block that follows. -/
theorem credited_of_deposit :
    ∃ c, machine.ReachableBy (KeepsRate 1000) c ∧ (c.state.userInfo 0 2).amount = 5 ∧
      c.state.credited 1 2 ≤ (2 - 1 : ℕ) * (1000 : ℕ) := by
  have hrun : machine.lastStep (masterChain 1000)
      [⟨1, 0, .addPool 1 103 0 0⟩, ⟨2, 1, .deposit 2 0 5⟩] ⟨2, 2, .updatePool 0⟩
      (fun c₂ c₃ => (c₂.state.userInfo 0 2).amount = 5 ∧ (c₃.state.userInfo 0 2).amount = 5 ∧
        (huskyPerBlock c₂.state).toOption = some 1000 ∧
        (harvestFromFairLaunchV1 2 c₂.state).toOption.map (·.balanceOf 103) = some 5 ∧
        c₂.state.stakeTokens 0 = 103) = true := by
    decide +kernel
  obtain ⟨c₁, hadd, hrun⟩ := TSys.lastStep_cons hrun
  obtain ⟨c₂, hdeposit, hrun⟩ := TSys.lastStep_cons hrun
  obtain ⟨c₃, hupdate, htest⟩ := TSys.lastStep_nil hrun
  obtain ⟨hstake₂, hstake₃, hrate₂, hfound, htoken⟩ := of_decide_eq_true htest
  obtain ⟨_, _, _, _, hadded⟩ := mine_eq_ok hadd
  obtain ⟨_, _, _, _, hdeposited⟩ := mine_eq_ok hdeposit
  have hrate₁ : huskyPerBlock c₁.state = .ok 1000 := by
    rw [addPool_eq_ok hadded]
    exact toOption_eq_some.mp (by decide +kernel)
  have hempty : c₁.state.staked 0 = 0 := by
    rw [addPool_eq_ok hadded]
    exact Finset.sum_eq_zero fun _ _ => rfl
  -- nothing is staked when the deposit updates the pool
  have hfirst : KeepsRate 1000 c₁ ⟨2, 1, .deposit 2 0 5⟩ := by
    intro s₁ hhook
    obtain ⟨hsame, hrate⟩ := harvestFromFairLaunchV1_eq_ok hhook
    refine ⟨⟨hrate.trans hrate₁, fun σ₁ _ => ?_⟩, fun _ _ => trivial⟩
    have hnone : s₁.staked 0 = c₁.state.staked 0 := by
      unfold State.staked
      rw [hsame.userInfo]
    rw [hnone, hempty]
    exact Nat.zero_le _
  -- and 5 when the next block is credited
  have hsecond : KeepsRate 1000 c₂ ⟨2, 2, .updatePool 0⟩ := by
    refine ⟨toOption_eq_some.mp hrate₂, fun σ₁ hhook => ?_⟩
    obtain ⟨s₁, s₂, hhook₁, hupdate₁, hacts⟩ := deposit_eq_ok hdeposited
    have huser : s₂.userInfo = c₁.state.userInfo :=
      (updatePool_eq_ok hupdate₁).2.userInfo.trans (sameStakes_of_hook hhook₁).userInfo
    have hsum := hacts.staked
    have hbefore : s₂.staked 0 = c₁.state.staked 0 := by
      unfold State.staked
      rw [huser]
    rw [hbefore, hempty, hstake₂] at hsum
    have hbalance : σ₁.balanceOf 103 = 5 := by
      have hhook : harvestFromFairLaunchV1 2 c₂.state = .ok σ₁ := hhook
      rw [hhook] at hfound
      exact Option.some.inj hfound
    rw [htoken, hbalance]
    omega
  have hzeroth : KeepsRate 1000 (masterChain 1000) ⟨1, 0, .addPool 1 103 0 0⟩ := trivial
  have hreach₁ := TSys.ReachableBy.step (.init (masterChain_init 1000)) hzeroth hadd
  have hreach₃ := TSys.ReachableBy.step (.step hreach₁ hfirst hdeposit) hsecond hupdate
  exact ⟨c₃, hreach₃, hstake₃, credited_le_rate hreach₃ 1 2⟩

theorem creditedFor_ge {a : Accrual} (user : Address) (s e : Nat) :
    (a.amount user * a.perShare : ℚ) / 10 ^ 12 * span s e a.fromBlock a.toBlock /
      (a.toBlock - a.fromBlock : ℕ) ≤ a.creditedFor s e := by
  have hstake : a.amount user ≤ a.staked :=
    Finset.single_le_sum (fun _ _ => Nat.zero_le _) (Finset.mem_univ user)
  have hle : (a.amount user : ℚ) ≤ a.staked := Nat.cast_le.mpr hstake
  have hcredited : (a.amount user * a.perShare : ℚ) / 10 ^ 12 ≤ a.credited :=
    div_le_div_of_nonneg_right (mul_le_mul_of_nonneg_right hle (Nat.cast_nonneg _))
      (by positivity)
  exact div_le_div_of_nonneg_right (mul_le_mul_of_nonneg_right hcredited (Nat.cast_nonneg _))
    (Nat.cast_nonneg _)

/-- No accrual takes anything back. -/
theorem creditedFor_nonneg (s e : Nat) (a : Accrual) : 0 ≤ a.creditedFor s e := by
  unfold Accrual.creditedFor Accrual.credited
  positivity

/-- The range of an accrual, its part of a share, and the stakes of accounts 2 and 3. -/
def Accrual.summary (a : Accrual) : List Nat :=
  [a.fromBlock, a.toBlock, a.perShare, a.amount 2, a.amount 3]

theorem credited_of_summaries {σ : State}
    (h : (σ.accruals.take 2).map Accrual.summary =
      [[1, 11, 10000 * 10 ^ 12, 1, 0], [1, 11, 5000 * 10 ^ 12, 0, 1]]) :
    (11 - 1 : ℕ) * (1000 : ℕ) < σ.credited 1 11 := by
  unfold State.credited
  rcases hlist : σ.accruals with _ | ⟨a, _ | ⟨b, rest⟩⟩
  · simp [hlist] at h
  · simp [hlist] at h
  · simp only [hlist, List.take_succ_cons, List.take_zero, List.map_cons, List.map_nil,
      Accrual.summary, List.cons.injEq, and_true] at h
    obtain ⟨⟨hafrom, hato, hashare, hastake, _⟩, hbfrom, hbto, hbshare, _, hbstake⟩ := h
    have ha := creditedFor_ge (a := a) 2 1 11
    have hb := creditedFor_ge (a := b) 3 1 11
    rw [hafrom, hato, hashare, hastake] at ha
    rw [hbfrom, hbto, hbshare, hbstake] at hb
    -- what comes after the two accruals adds no less than nothing
    have hrest : 0 ≤ (rest.map (Accrual.creditedFor 1 11)).sum := by
      refine List.sum_nonneg fun x hx => ?_
      obtain ⟨d, _, rfl⟩ := List.mem_map.mp hx
      exact creditedFor_nonneg 1 11 d
    have hspan : span 1 11 1 11 = 10 := rfl
    rw [hspan] at ha hb
    rw [List.map_cons, List.map_cons, List.sum_cons, List.sum_cons]
    generalize a.creditedFor 1 11 = x at *
    generalize b.creditedFor 1 11 = y at *
    generalize (rest.map (Accrual.creditedFor 1 11)).sum = z at *
    norm_num at ha hb ⊢
    linarith

/-- Two pools of the same weight earn 5000 each in ten blocks. One is weighted down to zero,
which credits it; the other is then credited 10000 for the same blocks. -/
theorem loweredWeight_overcredits :
    ∃ c, machine.ReachableBy (fun c _ => (huskyPerBlock c.state).toOption = some 1000) c ∧
      (huskyPerBlock c.state).toOption = some 1000 ∧
      (11 - 1 : ℕ) * (1000 : ℕ) < c.state.credited 1 11 := by
  have hrun : (machine.guarded fun c _ => (huskyPerBlock c.state).toOption = some 1000).lastStep
      (masterChain 1000)
      [⟨1, 0, .addPool 1 103 0 0⟩, ⟨1, 0, .addPool 1 104 0 0⟩, ⟨2, 1, .deposit 2 0 1⟩,
        ⟨3, 1, .deposit 3 1 1⟩, ⟨1, 11, .setPool 1 0 0 false⟩]
      ⟨2, 11, .updatePool 0⟩
      (fun _ c => (huskyPerBlock c.state).toOption = some 1000 ∧
        (c.state.accruals.take 2).map Accrual.summary =
          [[1, 11, 10000 * 10 ^ 12, 1, 0], [1, 11, 5000 * 10 ^ 12, 0, 1]]) = true := by
    decide +kernel
  obtain ⟨c₁, c, hreach, hstep, htest⟩ := TSys.lastStep_reachable
    (M := machine.guarded fun c _ => (huskyPerBlock c.state).toOption = some 1000)
    (masterChain_init 1000) hrun
  obtain ⟨hrate, haccruals⟩ := of_decide_eq_true htest
  have hreach := TSys.reachableBy_of_guarded (fun _ _ h => of_decide_eq_true h)
    (TSys.ReachableBy.step hreach trivial hstep)
  exact ⟨c, hreach, hrate, credited_of_summaries haccruals⟩

end Huski.FairLaunchV2
