import Huski.FairLaunch.Run
import Huski.Lib.FloorSum

/-!
# Accrual in parts

The multiplier of a range of blocks is a difference of weights (`blockWeight`), so that the
multipliers of its parts add up. A pool that is updated at some blocks of a range is
therefore credited parts of what a single update at its end would credit, floored part by
part: once when the reward is divided by the total weight, and once when it is divided by
the supply.
-/

namespace Huski.FairLaunch

open Solidity State

/-! ## The multiplier -/

section Multiplier

variable {s : State} {a b c m : Nat}

/-- The multiplier is the weight of the blocks, unless that is out of range. -/
theorem getMultiplier_eq_ok_iff (hac : a ≤ c) (hc : c < wordSize) :
    getMultiplier a c s = .ok m ↔ m + s.blockWeight a = s.blockWeight c ∧ m < wordSize := by
  refine ⟨fun h => ⟨getMultiplier_eq_ok h, ?_⟩, fun ⟨hweight, hm⟩ => ?_⟩
  · unfold getMultiplier at h
    split at h
    · simp only [bind_eq_ok, SafeMath.mul_eq_ok] at h
      obtain ⟨_, _, hword, rfl⟩ := h
      exact hword
    · split at h
      · simp only [SafeMath.sub_eq_ok] at h
        obtain ⟨_, rfl⟩ := h
        exact (Nat.sub_le _ _).trans_lt hc
      · simp only [bind_eq_ok, SafeMath.add_eq_ok] at h
        obtain ⟨_, _, _, _, _, _, hword, rfl⟩ := h
        exact hword
  · unfold State.blockWeight at hweight
    unfold getMultiplier
    split
    -- the whole span in the bonus window
    · rename_i hin
      have ha : min a s.bonusEndBlock = a := by omega
      have hb : min c s.bonusEndBlock = c := by omega
      have hsplit : (c - a) * s.bonusMultiplier + a * s.bonusMultiplier =
          c * s.bonusMultiplier := by
        rw [← Nat.add_mul, Nat.sub_add_cancel hac]
      rw [ha, hb] at hweight
      simp only [bind_eq_ok, SafeMath.sub_eq_ok, SafeMath.mul_eq_ok]
      exact ⟨c - a, ⟨hac, rfl⟩, by omega, by omega⟩
    · split
      -- the whole span after it
      · rename_i hpast hafter
        have ha : min a s.bonusEndBlock = s.bonusEndBlock := by omega
        have hb : min c s.bonusEndBlock = s.bonusEndBlock := by omega
        rw [ha, hb] at hweight
        simp only [SafeMath.sub_eq_ok]
        exact ⟨hac, by omega⟩
      -- the span crosses its end
      · rename_i hpast hbefore
        have ha : min a s.bonusEndBlock = a := by omega
        have hb : min c s.bonusEndBlock = s.bonusEndBlock := by omega
        have hsplit : (s.bonusEndBlock - a) * s.bonusMultiplier + a * s.bonusMultiplier =
            s.bonusEndBlock * s.bonusMultiplier := by
          rw [← Nat.add_mul, Nat.sub_add_cancel (by omega)]
        rw [ha, hb] at hweight
        simp only [bind_eq_ok, SafeMath.sub_eq_ok, SafeMath.mul_eq_ok, SafeMath.add_eq_ok]
        exact ⟨_, ⟨by omega, rfl⟩, _, ⟨by omega, rfl⟩, _, ⟨by omega, rfl⟩, by omega, by omega⟩

/-- The multipliers of two parts of a range add up to its multiplier. -/
theorem getMultiplier_add (hab : a ≤ b) (hbc : b ≤ c) (hc : c < wordSize) :
    getMultiplier a c s = .ok m ↔ m < wordSize ∧ ∃ m₁ m₂, getMultiplier a b s = .ok m₁ ∧
      getMultiplier b c s = .ok m₂ ∧ m₁ + m₂ = m := by
  have hfirst := blockWeight_mono s hab
  have hsecond := blockWeight_mono s hbc
  simp only [getMultiplier_eq_ok_iff (hab.trans hbc) hc,
    getMultiplier_eq_ok_iff hab (hbc.trans_lt hc), getMultiplier_eq_ok_iff hbc hc]
  constructor
  · rintro ⟨hweight, hm⟩
    exact ⟨hm, s.blockWeight b - s.blockWeight a, s.blockWeight c - s.blockWeight b,
      ⟨by omega, by omega⟩, ⟨by omega, by omega⟩, by omega⟩
  · rintro ⟨hm, m₁, m₂, ⟨h₁, _⟩, ⟨h₂, _⟩, rfl⟩
    exact ⟨by omega, hm⟩

end Multiplier

/-! ## Schedules of updates -/

/-- What the updates of a pool depend on apart from the pool's own accumulators. -/
structure Terms where
  huskyPerBlock : Nat
  bonusMultiplier : Nat
  bonusEndBlock : Nat
  allocPoint : Nat
  totalAllocPoint : Nat
  lpSupply : Nat
  deriving DecidableEq

/-- Parameters, allocation and staked supply are as the terms say. -/
structure Terms.Hold (T : Terms) (s : State) (pid : Nat) : Prop where
  huskyPerBlock : s.huskyPerBlock = T.huskyPerBlock
  bonusMultiplier : s.bonusMultiplier = T.bonusMultiplier
  bonusEndBlock : s.bonusEndBlock = T.bonusEndBlock
  allocPoint : (s.poolInfo pid).allocPoint = T.allocPoint
  totalAllocPoint : s.totalAllocPoint = T.totalAllocPoint
  lpSupply : s.stakeBalance (s.poolInfo pid).stakeToken = T.lpSupply

/-- The HUSKY that an update minted to FairLaunch. -/
inductive Mints (s s' : State) : Nat → Prop
  | nothing (same : s'.accruals = s.accruals) : Mints s s' 0
  | accrual {a : Accrual} (accrued : s'.accruals = a :: s.accruals) : Mints s s' a.reward

/-- Updates of `pool` at the listed blocks, in states where the terms hold, that mint
`minted` and leave `pool'`. Between two updates anything may happen that leaves the pool. -/
inductive Scheduled (T : Terms) (pid : Nat) : PoolInfo → List Nat → Nat → PoolInfo → Prop
  | nil {pool : PoolInfo} : Scheduled T pid pool [] 0 pool
  | cons {s s' : State} {b reward minted : Nat} {rest : List Nat} {pool' : PoolInfo}
      (terms : T.Hold s pid) (update : updatePool b pid s = .ok s') (mints : Mints s s' reward)
      (scheduled : Scheduled T pid (s'.poolInfo pid) rest minted pool') :
      Scheduled T pid (s.poolInfo pid) (b :: rest) (reward + minted) pool'

/-- The multipliers of all blocks up to `b`. -/
def Terms.blockWeight (T : Terms) (b : Nat) : Nat :=
  min b T.bonusEndBlock * T.bonusMultiplier + (b - T.bonusEndBlock)

/-- The reward of the blocks after `first` up to `last`, times the total weight. -/
def Terms.scaledReward (T : Terms) (first last : Nat) : Nat :=
  (T.blockWeight last - T.blockWeight first) * T.huskyPerBlock * T.allocPoint

section Schedule

variable {T : Terms} {s s' : State} {pid b k : Nat} {pool pool' : PoolInfo}

theorem Terms.Hold.blockWeight (h : T.Hold s pid) (b : Nat) :
    s.blockWeight b = T.blockWeight b := by
  unfold State.blockWeight Terms.blockWeight
  rw [h.bonusMultiplier, h.bonusEndBlock]

theorem Terms.blockWeight_mono (T : Terms) {a b : Nat} (h : a ≤ b) :
    T.blockWeight a ≤ T.blockWeight b := by
  unfold Terms.blockWeight
  have hmin : min a T.bonusEndBlock ≤ min b T.bonusEndBlock := by omega
  exact Nat.add_le_add (Nat.mul_le_mul_right _ hmin) (by omega)

theorem Terms.scaledReward_self (T : Terms) (a : Nat) : T.scaledReward a a = 0 := by
  simp [Terms.scaledReward]

theorem Terms.scaledReward_add (T : Terms) {a b c : Nat} (hab : a ≤ b) (hbc : b ≤ c) :
    T.scaledReward a b + T.scaledReward b c = T.scaledReward a c := by
  have hfirst := T.blockWeight_mono hab
  have hsecond := T.blockWeight_mono hbc
  unfold Terms.scaledReward
  rw [← Nat.add_mul, ← Nat.add_mul]
  congr 2
  omega

/-- What one update does: it takes the pool to its block, for the floored reward of the
blocks in between and the floored share of that. -/
structure Part (T : Terms) (b : Nat) (pool : PoolInfo) (reward : Nat) (pool' : PoolInfo) :
    Prop where
  lastRewardBlock : pool'.lastRewardBlock = max pool.lastRewardBlock b
  reward_eq : reward =
    T.scaledReward pool.lastRewardBlock pool'.lastRewardBlock / T.totalAllocPoint
  acc_eq : pool'.accHuskyPerShare = pool.accHuskyPerShare + reward * precision / T.lpSupply

theorem part_of_update (hstaked : 0 < T.lpSupply) (h : T.Hold s pid)
    (hupdate : updatePool b pid s = .ok s') {reward : Nat} (hmints : Mints s s' reward) :
    Part T b (s.poolInfo pid) reward (s'.poolInfo pid) := by
  obtain ⟨_, hupdated⟩ := updatePool_eq_ok hupdate
  cases hupdated with
  -- an update of a block that was updated already mints nothing
  | current hcurrent =>
      have hnothing : reward = 0 := by
        cases hmints with
        | nothing _ => rfl
        | accrual accrued => exact absurd accrued.symm (List.cons_ne_self _ _)
      subst hnothing
      refine ⟨(max_eq_left hcurrent).symm, ?_, ?_⟩
      · rw [T.scaledReward_self, Nat.zero_div]
      · rw [Nat.zero_mul, Nat.zero_div, Nat.add_zero]
  | empty _ hempty =>
      rw [h.lpSupply] at hempty
      omega
  | @accrued a multiplier til husky accrues =>
      have hreward : reward = a.reward := by
        cases hmints with
        | nothing same => exact absurd same (List.cons_ne_self _ _)
        | accrual accrued => rw [(List.cons.inj accrued).1]
      have hbehind := accrues.behind
      have hpool : (s.accrue husky multiplier til a).poolInfo pid = { s.poolInfo pid with
          lastRewardBlock := b
          accHuskyPerShare := (s.poolInfo pid).accHuskyPerShare + a.reward * precision / a.lpSupply
          accHuskyPerShareTilBonusEnd := til } := by
        simp [State.accrue, State.setPoolInfo, accrues.pid_eq, accrues.toBlock]
      have hweight := getMultiplier_eq_ok accrues.multiplier_eq
      rw [h.blockWeight, h.blockWeight] at hweight
      rw [hpool, hreward]
      refine ⟨(max_eq_right hbehind.le).symm, ?_, ?_⟩
      · rw [accrues.reward_eq, h.huskyPerBlock, h.allocPoint, h.totalAllocPoint]
        unfold Terms.scaledReward
        dsimp only
        rw [← hweight, Nat.add_sub_cancel]
      · show _ = (s.poolInfo pid).accHuskyPerShare + a.reward * precision / T.lpSupply
        rw [accrues.supply, h.lpSupply]

/-- What a schedule does: it takes the pool to the last of its blocks, and its rewards and
shares are floored parts of the reward of all blocks and of the share of what is minted. -/
structure Parts (T : Terms) (n last : Nat) (pool : PoolInfo) (minted : Nat) (pool' : PoolInfo) :
    Prop where
  lastRewardBlock : pool'.lastRewardBlock = max pool.lastRewardBlock last
  minted_eq : FloorSum T.totalAllocPoint n minted
    (T.scaledReward pool.lastRewardBlock pool'.lastRewardBlock)
  acc : ∃ delta, pool'.accHuskyPerShare = pool.accHuskyPerShare + delta ∧
    FloorSum T.lpSupply n delta (minted * precision)

theorem Scheduled.parts (hstaked : 0 < T.lpSupply) (htotal : 0 < T.totalAllocPoint)
    {blocks : List Nat} {minted : Nat} (h : Scheduled T pid pool blocks minted pool') :
    Parts T blocks.length (blocks.foldr max 0) pool minted pool' := by
  induction h with
  | nil =>
      refine ⟨(max_eq_left (Nat.zero_le _)).symm, ?_, 0, (Nat.add_zero _).symm, ?_⟩
      · rw [T.scaledReward_self]
        exact .zero _
      · rw [Nat.zero_mul]
        exact .zero _
  | @cons s s' b reward minted rest pool' terms update mints _ ih =>
      have hpart := part_of_update hstaked terms update mints
      obtain ⟨hlast, hminted, delta, hacc, hshare⟩ := ih
      refine ⟨?_, ?_, reward * precision / T.lpSupply + delta, ?_, ?_⟩
      · rw [hlast, hpart.lastRewardBlock, List.foldr_cons, max_assoc]
      · rw [← T.scaledReward_add (b := (s'.poolInfo pid).lastRewardBlock)
          (hpart.lastRewardBlock ▸ le_max_left _ _) (hlast ▸ le_max_left _ _)]
        have hcons := hminted.cons htotal
          (T.scaledReward (s.poolInfo pid).lastRewardBlock (s'.poolInfo pid).lastRewardBlock)
        rwa [← hpart.reward_eq] at hcons
      · rw [hacc, hpart.acc_eq, Nat.add_assoc]
      · rw [Nat.add_mul]
        exact hshare.cons hstaked (reward * precision)

/-! ## One update or many -/

/-- In a schedule up to `c` the last block is `c`. -/
theorem foldr_max_append {bs : List Nat} {c : Nat} (h : ∀ b ∈ bs, b ≤ c) :
    (bs ++ [c]).foldr max 0 = c := by
  induction bs with
  | nil => simp
  | cons b bs ih =>
      rw [List.cons_append, List.foldr_cons, ih fun x hx => h x (List.mem_cons_of_mem b hx)]
      exact max_eq_right (h b List.mem_cons_self)

/-- `k` more updates lose at most `k` units of the reward, and of the accumulator at most the
`k` floors of the shares and the shares of those `k` units. -/
theorem Scheduled.compare (hstaked : 0 < T.lpSupply) (htotal : 0 < T.totalAllocPoint) {c : Nat}
    {bs : List Nat} (hbs : ∀ b ∈ bs, b ≤ c) {m₁ m₂ : Nat} {pool₁ pool₂ : PoolInfo}
    (hsingle : Scheduled T pid pool [c] m₁ pool₁)
    (hmany : Scheduled T pid pool (bs ++ [c]) m₂ pool₂) :
    m₂ ≤ m₁ ∧ m₁ ≤ m₂ + bs.length ∧
      pool₂.accHuskyPerShare ≤ pool₁.accHuskyPerShare ∧
      pool₁.accHuskyPerShare ≤ pool₂.accHuskyPerShare + bs.length +
        (bs.length * precision + T.lpSupply - 1) / T.lpSupply := by
  obtain ⟨hlast₁, hminted₁, delta₁, hacc₁, hshare₁⟩ := hsingle.parts hstaked htotal
  obtain ⟨hlast₂, hminted₂, delta₂, hacc₂, hshare₂⟩ := hmany.parts hstaked htotal
  rw [List.length_append, List.length_singleton] at hminted₂ hshare₂
  -- both come to the same block, and so to parts of the same reward
  have hlast : pool₁.lastRewardBlock = pool₂.lastRewardBlock := by
    rw [hlast₁, hlast₂, foldr_max_append hbs]
    simp
  rw [hlast] at hminted₁
  have hle : m₂ ≤ m₁ := hminted₁.le_single hminted₂ le_rfl
  have hge : m₁ ≤ m₂ + bs.length := by
    have h := hminted₁.single_le (e := 0) htotal hminted₂ (Nat.le_add_right _ _)
    have hnone : (0 + T.totalAllocPoint - 1) / T.totalAllocPoint = 0 :=
      Nat.div_eq_of_lt (by omega)
    rwa [hnone, Nat.add_zero] at h
  have hscaled : m₁ * precision ≤ m₂ * precision + bs.length * precision := by
    rw [← Nat.add_mul]
    exact Nat.mul_le_mul_right _ hge
  have hdelta : delta₂ ≤ delta₁ := hshare₁.le_single hshare₂ (Nat.mul_le_mul_right _ hle)
  have hdelta' := hshare₁.single_le hstaked hshare₂ hscaled
  exact ⟨hle, hge, by omega, by omega⟩

/-- What an update mints comes on top of the rewards accrued before. -/
theorem Mints.sum_rewards {reward : Nat} (h : Mints s s' reward) :
    (s'.accruals.map Accrual.reward).sum = reward + (s.accruals.map Accrual.reward).sum := by
  cases h with
  | nothing same => rw [same, Nat.zero_add]
  | accrual accrued => rw [accrued, List.map_cons, List.sum_cons]

theorem exists_mints (hupdate : updatePool b pid s = .ok s') : ∃ reward, Mints s s' reward := by
  cases (updatePool_eq_ok hupdate).2 with
  | current _ => exact ⟨0, .nothing rfl⟩
  | empty _ _ => exact ⟨0, .nothing rfl⟩
  | accrued _ => exact ⟨_, .accrual rfl⟩

/-- FairLaunch receives what is minted, and a tenth of it is minted besides. -/
theorem Mints.husky {reward : Nat} (h : Mints s s' reward)
    (hupdate : updatePool b pid s = .ok s') :
    s'.husky.erc20.totalSupply = s.husky.erc20.totalSupply + (reward + reward / 10) ∧
      (s.devaddr ≠ s.here → s.husky.here ≠ s.here →
        s'.husky.balanceOf s.here = s.husky.balanceOf s.here + reward) := by
  -- without an accrual nothing was minted
  have hnothing : ∀ {t : State}, Mints s t reward → t.accruals = s.accruals → reward = 0 := by
    intro t hmints hsame
    have hsum := hmints.sum_rewards
    rw [hsame] at hsum
    omega
  cases (updatePool_eq_ok hupdate).2 with
  | current _ =>
      rw [hnothing h rfl]
      exact ⟨rfl, fun _ _ => rfl⟩
  | empty _ _ =>
      rw [hnothing h rfl]
      exact ⟨rfl, fun _ _ => rfl⟩
  | @accrued a multiplier til husky accrues =>
      have hreward : reward = a.reward := by
        have hsum := h.sum_rewards
        change ((a :: s.accruals).map Accrual.reward).sum = _ at hsum
        rw [List.map_cons, List.sum_cons] at hsum
        omega
      rw [hreward]
      refine ⟨accrues.husky_supply, fun hdev hhusky => ?_⟩
      have hbalance := accrues.husky_balance s.here
      rw [if_neg (Ne.symm hdev), if_neg (Ne.symm hdev), if_pos rfl, if_neg (Ne.symm hhusky)]
        at hbalance
      exact hbalance

end Schedule

/-- Multipliers of parts add up; a schedule of `k` more updates mints at most as much as the
one update at its end and at most `k` less, and takes the accumulator at most as far and no
less far than `k` floors at each of the two divisions explain; and what the updates mint goes
to FairLaunch. -/
theorem accrual_of_schedule :
    (∀ (s : State) a b c m, a ≤ b → b ≤ c → c < wordSize →
      (getMultiplier a c s = .ok m ↔ m < wordSize ∧ ∃ m₁ m₂, getMultiplier a b s = .ok m₁ ∧
        getMultiplier b c s = .ok m₂ ∧ m₁ + m₂ = m)) ∧
    (∀ (T : Terms) pid pool bs c m₁ pool₁ m₂ pool₂, 0 < T.lpSupply → 0 < T.totalAllocPoint →
      (∀ b ∈ bs, b ≤ c) → Scheduled T pid pool [c] m₁ pool₁ →
      Scheduled T pid pool (bs ++ [c]) m₂ pool₂ →
      m₂ ≤ m₁ ∧ m₁ ≤ m₂ + bs.length ∧ pool₂.accHuskyPerShare ≤ pool₁.accHuskyPerShare ∧
        pool₁.accHuskyPerShare ≤ pool₂.accHuskyPerShare + bs.length +
          (bs.length * 10 ^ 12 + T.lpSupply - 1) / T.lpSupply) ∧
    ∀ (s s' : State) b pid reward, updatePool b pid s = .ok s' → Mints s s' reward →
      s'.husky.erc20.totalSupply = s.husky.erc20.totalSupply + (reward + reward / 10) ∧
        (s.devaddr ≠ s.here → s.husky.here ≠ s.here →
          s'.husky.balanceOf s.here = s.husky.balanceOf s.here + reward) :=
  ⟨fun _ _ _ _ _ hab hbc hc => getMultiplier_add hab hbc hc,
    fun _ _ _ _ _ _ _ _ _ hstaked htotal hbs hsingle hmany =>
      hsingle.compare hstaked htotal hbs hmany,
    fun _ _ _ _ _ hupdate hmints => hmints.husky hupdate⟩

/-- The terms in a state. -/
def State.terms (s : State) (pid : Nat) : Terms :=
  { huskyPerBlock := s.huskyPerBlock
    bonusMultiplier := s.bonusMultiplier
    bonusEndBlock := s.bonusEndBlock
    allocPoint := (s.poolInfo pid).allocPoint
    totalAllocPoint := s.totalAllocPoint
    lpSupply := s.stakeBalance (s.poolInfo pid).stakeToken }

theorem hold_of_terms {T : Terms} {s : State} {pid : Nat} (h : s.terms pid = T) : T.Hold s pid := by
  subst h
  exact ⟨rfl, rfl, rfl, rfl, rfl, rfl⟩

/-- A pool of half the weight earns one HUSKY in two blocks, which an update in the middle
loses. -/
theorem accrual_of_two_updates :
    ∃ T pool m₁ pool₁ m₂ pool₂, Scheduled T 0 pool [3] m₁ pool₁ ∧
      Scheduled T 0 pool ([2] ++ [3]) m₂ pool₂ ∧ m₁ = 1 ∧ m₂ = 0 ∧ m₁ ≤ m₂ + 1 := by
  have hrun : machine.lastStep (freshChain 1)
      [⟨50, 0, .addPool 1 102 false⟩, ⟨50, 0, .addPool 1 103 false⟩] ⟨2, 1, .deposit 2 0 10⟩
      (fun _ c => c.state.accruals.length = 0 ∧ c.state.terms 0 = ⟨1, 0, 0, 1, 2, 10⟩ ∧
        (updatePool 3 0 c.state).toOption.map (fun t => t.accruals.map Accrual.reward) = some [1] ∧
        (updatePool 2 0 c.state).toOption.map (fun t => (t.terms 0,
          (updatePool 3 0 t).toOption.map fun t => t.accruals.map Accrual.reward)) =
            some (⟨1, 0, 0, 1, 2, 10⟩, some [0, 0])) = true := by
    decide +kernel
  obtain ⟨_, c, _, _, htest⟩ := TSys.lastStep_reachable (freshChain_init 1) hrun
  obtain ⟨hnone, hterms, hsingle, hmany⟩ := of_decide_eq_true htest
  obtain ⟨s₁, hs₁, hrewards₁⟩ := Option.map_eq_some_iff.mp hsingle
  obtain ⟨s₂, hs₂, htest₂⟩ := Option.map_eq_some_iff.mp hmany
  obtain ⟨hterms₂, hlast⟩ := Prod.mk.inj htest₂
  obtain ⟨s₃, hs₃, hrewards₃⟩ := Option.map_eq_some_iff.mp hlast
  -- one update over both blocks mints 1, two updates over one block each mint 0
  obtain ⟨r₁, hr₁⟩ := exists_mints (toOption_eq_some.mp hs₁)
  obtain ⟨r₂, hr₂⟩ := exists_mints (toOption_eq_some.mp hs₂)
  obtain ⟨r₃, hr₃⟩ := exists_mints (toOption_eq_some.mp hs₃)
  have hone : Scheduled ⟨1, 0, 0, 1, 2, 10⟩ 0 (c.state.poolInfo 0) [3] (r₁ + 0) (s₁.poolInfo 0) :=
    .cons (hold_of_terms hterms) (toOption_eq_some.mp hs₁) hr₁ .nil
  have htwo : Scheduled ⟨1, 0, 0, 1, 2, 10⟩ 0 (c.state.poolInfo 0) ([2] ++ [3]) (r₂ + (r₃ + 0))
      (s₃.poolInfo 0) :=
    .cons (hold_of_terms hterms) (toOption_eq_some.mp hs₂) hr₂
      (.cons (hold_of_terms hterms₂) (toOption_eq_some.mp hs₃) hr₃ .nil)
  have hsum₁ := hr₁.sum_rewards
  have hsum₂ := hr₂.sum_rewards
  have hsum₃ := hr₃.sum_rewards
  rw [hrewards₁, List.eq_nil_of_length_eq_zero hnone] at hsum₁
  rw [hsum₂, hrewards₃, List.eq_nil_of_length_eq_zero hnone] at hsum₃
  simp only [List.sum_cons, List.sum_nil, List.map_nil] at hsum₁ hsum₃
  exact ⟨_, _, _, _, _, _, hone, htwo, by omega, by omega,
    (accrual_of_schedule.2.1 _ 0 _ [2] 3 _ _ _ _ (by decide) (by decide) (by decide) hone htwo).2.1⟩

end Huski.FairLaunch
