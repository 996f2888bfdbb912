import Huski.FairLaunch.Run
import Huski.Lib.FloorSum

/-!
# Badge points

A harvest mints badge points for the stake, its price and `lastMultiplier`, which is the
multiplier of the last accrual of any pool. It is the weight of the blocks since the user's
last harvest only if nothing else updated the pool in between and the harvest's own update
accrues (`Fresh`). A watch follows the harvests of one user in one pool while the stake, the
price and the bonus stay as they are.
-/

namespace Huski.FairLaunch

open Solidity State

/-! ## What a harvest mints -/

/-- `user.amount.mul(price).mul(lastMultiplier).div(1e18)`, once the pool is updated. -/
def State.harvestPoints (s : State) (pid : Nat) (user : Address) : Nat :=
  match s.complexOracle, s.badgePoints with
  | some store, some _ =>
      (s.userInfo pid user).amount * store (s.poolInfo pid).stakeToken * s.lastMultiplier / 10 ^ 18
  | _, _ => 0

/-- The entry that a call of `sender` harvests. -/
def Op.harvested (sender : Address) (s : State) : Op → Option (Nat × Address)
  | .harvest pid => some (pid, sender)
  | .withdraw user pid _ | .withdrawAll user pid => some (pid, user)
  | .deposit user pid _ => if (s.userInfo pid user).amount > 0 then some (pid, user) else none
  | _ => none

/-- `badgePoints` was called to mint `amount` to `user`, or is not set. -/
def MintsPoints (s s' : State) (user : Address) (amount : Nat) : Prop :=
  ∀ store badgePoints, s.complexOracle = some store → s.badgePoints = some badgePoints →
    ∃ badgePoints', badgePoints.mint s.here user amount = .ok badgePoints' ∧
      s'.badgePoints = some badgePoints'

section Calls

variable {msg : Msg} {n pid amount : Nat} {user : Address} {s s' : State}

theorem mintPoints_mints (h : mintPoints user (s.userInfo pid user) (s.poolInfo pid) s = .ok s') :
    MintsPoints s s' user (s.harvestPoints pid user) := by
  intro store badgePoints hstore hbadge
  simp only [mintPoints, hstore, hbadge, bind_eq_ok, pure_eq_ok, SafeMath.mul_eq_ok] at h
  obtain ⟨_, _, _, ⟨_, rfl⟩, _, ⟨_, rfl⟩, badgePoints', hmint, rfl⟩ := h
  simp only [State.harvestPoints, hstore, hbadge]
  exact ⟨badgePoints', hmint, rfl⟩

/-- What is done after the harvest leaves the badge points. -/
theorem MintsPoints.after {s₂ : State} (h : MintsPoints s s₂ user amount)
    (hbadge : s'.badgePoints = s₂.badgePoints) : MintsPoints s s' user amount := by
  intro store badgePoints hstore hbadge₁
  rw [hbadge]
  exact h store badgePoints hstore hbadge₁

theorem safeHuskyTransfer_eq_setHusky {recipient : Address}
    (h : safeHuskyTransfer n recipient amount s = .ok s') : ∃ husky, s' = s.setHusky husky := by
  unfold safeHuskyTransfer at h
  dsimp only at h
  split at h <;>
    · obtain ⟨husky, _, rfl⟩ := onHusky_eq_ok h
      exact ⟨husky, rfl⟩

theorem _harvest_mints (h : _harvest n user pid s = .ok s') :
    MintsPoints s s' user (s.harvestPoints pid user) := by
  simp only [_harvest, bind_eq_ok] at h
  obtain ⟨pool, hpool, _, _, _, _, _, _, _, _, s₁, htransfer, _, _, s₂, hlock, hpoints⟩ := h
  obtain ⟨_, rfl⟩ := poolAt_eq_ok hpool
  obtain ⟨_, rfl⟩ := safeHuskyTransfer_eq_setHusky htransfer
  obtain ⟨_, _, rfl⟩ := onHusky_eq_ok hlock
  -- the payment and the lock before it leave what the points depend on
  have hmints := mintPoints_mints (s := (s.setHusky _).setHusky _) hpoints
  exact fun store badgePoints hstore hbadge => hmints store badgePoints hstore hbadge

theorem withdraw_mints (h : _withdraw msg user pid amount s = .ok s') :
    ∃ s₁, updatePool msg.blockNumber pid s = .ok s₁ ∧
      MintsPoints s₁ s' user (s₁.harvestPoints pid user) := by
  simp only [_withdraw, bind_eq_ok, require_eq_ok, SafeMath.sub_eq_ok] at h
  obtain ⟨_, _, _, _, _, _, s₁, hupdate, s₂, hharvest, _, _, s₃, hdebts, hreturn⟩ := h
  obtain ⟨husky, tokens, _, _, _, _, rfl⟩ := returnStake_eq_ok hreturn
  have hbadge : s₃.badgePoints = s₂.badgePoints := by
    rw [updateDebts_eq_ok hdebts]
    rfl
  exact ⟨s₁, hupdate, (_harvest_mints hharvest).after hbadge⟩

theorem harvest_mints (h : harvest msg pid s = .ok s') :
    ∃ s₁, updatePool msg.blockNumber pid s = .ok s₁ ∧
      MintsPoints s₁ s' msg.sender (s₁.harvestPoints pid msg.sender) := by
  simp only [harvest, bind_eq_ok] at h
  obtain ⟨s₁, hupdate, s₂, hharvest, hdebts⟩ := h
  have hbadge : s'.badgePoints = s₂.badgePoints := by
    rw [updateDebts_eq_ok hdebts]
    rfl
  exact ⟨s₁, hupdate, (_harvest_mints hharvest).after hbadge⟩

/-- A further deposit mints the points of the stake before it. -/
theorem deposit_mints (hstaked : 0 < (s.userInfo pid user).amount)
    (h : deposit msg user pid amount s = .ok s') :
    ∃ s₁, updatePool msg.blockNumber pid s = .ok s₁ ∧
      MintsPoints s₁ s' user (s₁.harvestPoints pid user) := by
  simp only [deposit, bind_eq_ok] at h
  obtain ⟨_, _, _, _, _, _, s₁, hupdate, s₂, hharvest, s₃, hmove, _, _, hdebts⟩ := h
  obtain ⟨husky, tokens, _, rfl⟩ := stakeTransferFrom_eq_ok hmove
  have hbadge : s'.badgePoints = s₂.badgePoints := by
    rw [updateDebts_eq_ok hdebts]
    rfl
  unfold harvestStake at hharvest
  rw [(updatePool_eq_ok hupdate).2.userInfo, if_pos hstaked] at hharvest
  exact ⟨s₁, hupdate, (_harvest_mints hharvest).after hbadge⟩

/-- A call that harvests an entry updates its pool and mints the points of the updated state. -/
theorem exec_mints {op : Op} (hharvested : op.harvested msg.sender s = some (pid, user))
    (h : exec msg op s = .ok s') :
    ∃ s₁, updatePool msg.blockNumber pid s = .ok s₁ ∧
      MintsPoints s₁ s' user (s₁.harvestPoints pid user) := by
  cases op with
  | harvest p =>
      cases hharvested
      exact harvest_mints h
  | withdraw u p v =>
      cases hharvested
      exact withdraw_mints h
  | withdrawAll u p =>
      cases hharvested
      exact withdraw_mints h
  | deposit u p v =>
      simp only [Op.harvested] at hharvested
      split at hharvested
      · rename_i hstaked
        cases hharvested
        exact deposit_mints hstaked h
      · cases hharvested
  | _ => cases hharvested

end Calls

/-! ## The multiplier a harvest reads -/

/-- The multiplier that the harvest of a pool at block `n` reads, its own update made. -/
def State.multiplierAt (s : State) (n pid : Nat) : Nat :=
  if (s.poolInfo pid).lastRewardBlock < n ∧ s.stakeBalance (s.poolInfo pid).stakeToken ≠ 0 then
    s.blockWeight n - s.blockWeight (s.poolInfo pid).lastRewardBlock
  else s.lastMultiplier

/-- At block `n` a harvest reads the weight of the blocks after `last`: the pool is behind
since a block of the weight of `last`, or it is not behind, or empty, and the last accrual of
any pool left that weight. -/
def State.Fresh (s : State) (n pid last : Nat) : Prop :=
  if (s.poolInfo pid).lastRewardBlock < n ∧ s.stakeBalance (s.poolInfo pid).stakeToken ≠ 0 then
    s.blockWeight (s.poolInfo pid).lastRewardBlock = s.blockWeight last
  else s.lastMultiplier + s.blockWeight last = s.blockWeight n

section Multiplier

variable {n pid last : Nat} {user : Address} {s s' : State}

theorem Updated.lastMultiplier (h : Updated n pid s s') :
    s'.lastMultiplier = s.multiplierAt n pid := by
  unfold State.multiplierAt
  cases h with
  | current hcurrent => rw [if_neg fun hbehind => absurd hbehind.1 (by omega)]
  | empty _ hempty => rw [if_neg fun hstaked => hstaked.2 hempty]; rfl
  | @accrued a multiplier til husky accrues =>
      have hweight := getMultiplier_eq_ok accrues.multiplier_eq
      rw [if_pos ⟨accrues.behind, accrues.supply ▸ accrues.staked⟩, ← hweight, Nat.add_sub_cancel]
      rfl

/-- A fresh multiplier is the weight of the blocks since the last settlement. -/
theorem State.Fresh.multiplierAt (h : s.Fresh n pid last) (hn : last ≤ n) :
    s.multiplierAt n pid + s.blockWeight last = s.blockWeight n := by
  have hmono := blockWeight_mono s hn
  unfold State.Fresh at h
  unfold State.multiplierAt
  split at h
  · rename_i hbehind
    rw [if_pos hbehind, h]
    exact Nat.sub_add_cancel hmono
  · rename_i hbehind
    rw [if_neg hbehind]
    exact h

end Multiplier

/-! ## Watching one user -/

/-- A stake of a user in a pool, its price and the bonus. -/
structure Interval where
  pid : Nat
  user : Address
  amount : Nat
  price : Nat
  bonusMultiplier : Nat
  bonusEndBlock : Nat

/-- The stake, the price and the bonus are those of the interval, and points are minted. -/
structure Interval.Holds (I : Interval) (s : State) : Prop where
  amount : (s.userInfo I.pid I.user).amount = I.amount
  priced : s.complexOracle.map (· (s.poolInfo I.pid).stakeToken) = some I.price
  minted : s.badgePoints.isSome = true
  bonusMultiplier : s.bonusMultiplier = I.bonusMultiplier
  bonusEndBlock : s.bonusEndBlock = I.bonusEndBlock

/-- A state of a run with the harvests of an entry since block `start`, the block of the last
of them, and the points they minted. -/
structure Watch where
  chain : Chain
  start : Nat
  last : Nat
  harvests : Nat
  points : Nat

/-- A transaction, with the points of a harvest of the entry counted: those of the state that
the update before the harvest leaves. -/
def watch (pid : Nat) (user : Address) (w : Watch) (tx : Tx) : Result Watch := do
  let chain ← mine w.chain tx
  if tx.op.harvested tx.sender w.chain.state = some (pid, user) then do
    let s ← updatePool tx.blockNumber pid w.chain.state
    return { w with
      chain, last := tx.blockNumber, harvests := w.harvests + 1
      points := s.harvestPoints pid user + w.points }
  else return { w with chain }

/-- The watch of an entry, from any reachable state and for any block `start` up to which its
points are counted. -/
def watchMachine (I : Interval) : TSys Watch Tx where
  init w := machine.Reachable w.chain ∧ w.start ≤ w.chain.block ∧ w.last = w.start ∧
    w.harvests = 0 ∧ w.points = 0
  step := watch I.pid I.user

/-- The steps of an interval: the stake, the price and the bonus are its own before each. -/
def Interval.Step (I : Interval) (w : Watch) (_ : Tx) : Prop := I.Holds w.chain.state

/-- The steps of an interval that harvest the entry only when that is fresh. -/
def Interval.FreshStep (I : Interval) (w : Watch) (tx : Tx) : Prop :=
  I.Step w tx ∧ (tx.op.harvested tx.sender w.chain.state = some (I.pid, I.user) →
    w.chain.state.Fresh tx.blockNumber I.pid w.last)

/-- The multipliers of all blocks up to `b`. -/
def Interval.blockWeight (I : Interval) (b : Nat) : Nat :=
  min b I.bonusEndBlock * I.bonusMultiplier + (b - I.bonusEndBlock)

/-- The points of the blocks after `first` up to `last`, times `1e18`. -/
def Interval.scaledPoints (I : Interval) (first last : Nat) : Nat :=
  I.amount * I.price * (I.blockWeight last - I.blockWeight first)

section Watching

variable {I : Interval} {w w' : Watch} {tx : Tx} {s s₁ : State} {n : Nat}

theorem Interval.Holds.blockWeight (h : I.Holds s) (b : Nat) :
    s.blockWeight b = I.blockWeight b := by
  unfold State.blockWeight Interval.blockWeight
  rw [h.bonusMultiplier, h.bonusEndBlock]

theorem Interval.blockWeight_mono (I : Interval) {a b : Nat} (h : a ≤ b) :
    I.blockWeight a ≤ I.blockWeight b := by
  unfold Interval.blockWeight
  have hmin : min a I.bonusEndBlock ≤ min b I.bonusEndBlock := by omega
  exact Nat.add_le_add (Nat.mul_le_mul_right _ hmin) (by omega)

theorem Interval.scaledPoints_self (I : Interval) (a : Nat) : I.scaledPoints a a = 0 := by
  simp [Interval.scaledPoints]

theorem Interval.scaledPoints_add (I : Interval) {a b c : Nat} (hab : a ≤ b) (hbc : b ≤ c) :
    I.scaledPoints b c + I.scaledPoints a b = I.scaledPoints a c := by
  have hfirst := I.blockWeight_mono hab
  have hsecond := I.blockWeight_mono hbc
  unfold Interval.scaledPoints
  rw [← Nat.mul_add]
  congr 1
  omega

/-- An update leaves what the points depend on, apart from the multiplier. -/
theorem Interval.Holds.harvestPoints (h : I.Holds s) (hupdated : Updated n I.pid s s₁) :
    s₁.harvestPoints I.pid I.user = I.amount * I.price * s.multiplierAt n I.pid / 10 ^ 18 := by
  have horacle : s₁.complexOracle = s.complexOracle := by cases hupdated <;> rfl
  have hbadge : s₁.badgePoints = s.badgePoints := by cases hupdated <;> rfl
  obtain ⟨store, hstore, hprice⟩ := Option.map_eq_some_iff.mp h.priced
  obtain ⟨badgePoints, hminted⟩ := Option.isSome_iff_exists.mp h.minted
  simp only [State.harvestPoints, horacle, hstore, hbadge, hminted]
  rw [hupdated.userInfo, hupdated.stakeToken, hupdated.lastMultiplier, h.amount, hprice]

/-- A fresh harvest mints the points of the blocks since the last one. -/
theorem Interval.Holds.fresh_harvestPoints (h : I.Holds s) {last : Nat}
    (hfresh : s.Fresh n I.pid last) (hn : last ≤ n) (hupdated : Updated n I.pid s s₁) :
    s₁.harvestPoints I.pid I.user = I.scaledPoints last n / 10 ^ 18 := by
  have hweight := hfresh.multiplierAt hn
  rw [h.blockWeight, h.blockWeight] at hweight
  rw [h.harvestPoints hupdated]
  unfold Interval.scaledPoints
  rw [← hweight, Nat.add_sub_cancel]

/-- The two outcomes of a step. -/
theorem watch_eq_ok (h : watch I.pid I.user w tx = .ok w') :
    mine w.chain tx = .ok w'.chain ∧ w'.start = w.start ∧
    ((tx.op.harvested tx.sender w.chain.state = some (I.pid, I.user) ∧
        ∃ s, updatePool tx.blockNumber I.pid w.chain.state = .ok s ∧ w'.last = tx.blockNumber ∧
          w'.harvests = w.harvests + 1 ∧ w'.points = s.harvestPoints I.pid I.user + w.points) ∨
      (tx.op.harvested tx.sender w.chain.state ≠ some (I.pid, I.user) ∧ w'.last = w.last ∧
        w'.harvests = w.harvests ∧ w'.points = w.points)) := by
  unfold watch at h
  simp only [bind_eq_ok] at h
  obtain ⟨chain, hmine, h⟩ := h
  split at h
  · rename_i hharvested
    simp only [bind_eq_ok, pure_eq_ok] at h
    obtain ⟨s, hupdate, rfl⟩ := h
    exact ⟨hmine, rfl, .inl ⟨hharvested, s, hupdate, rfl, rfl, rfl⟩⟩
  · rename_i hother
    simp only [pure_eq_ok] at h
    subst h
    exact ⟨hmine, rfl, .inr ⟨hother, rfl, rfl, rfl⟩⟩

/-- The points are the floored parts of those of all blocks since `start`. -/
structure Counted (I : Interval) (w : Watch) : Prop where
  start_le : w.start ≤ w.last
  last_le : w.last ≤ w.chain.block
  points : FloorSum (10 ^ 18) w.harvests w.points (I.scaledPoints w.start w.last)

/-- A fresh settlement mints the points of its span. -/
theorem Counted.step (hw : Counted I w) (hok : I.FreshStep w tx)
    (hstep : (watchMachine I).step w tx = .ok w') : Counted I w' := by
  obtain ⟨hmine, hstart, houtcome⟩ := watch_eq_ok hstep
  obtain ⟨_, hblock, _, hblock', _⟩ := mine_eq_ok hmine
  have hlast := hw.last_le
  obtain ⟨hholds, hfresh⟩ := hok
  rcases houtcome with ⟨hharvested, s, hupdate, hlast', hcount, hpoints⟩ |
    ⟨_, hlast', hcount, hpoints⟩
  · have hn : w.last ≤ tx.blockNumber := hlast.trans hblock
    have hminted := hholds.fresh_harvestPoints (hfresh hharvested) hn (updatePool_eq_ok hupdate).2
    refine ⟨?_, ?_, ?_⟩
    · rw [hstart, hlast']
      exact hw.start_le.trans hn
    · rw [hlast', hblock']
    · rw [hcount, hpoints, hminted, hstart, hlast', ← I.scaledPoints_add hw.start_le hn]
      exact hw.points.cons (by norm_num) _
  · refine ⟨?_, ?_, ?_⟩
    · rw [hstart, hlast']
      exact hw.start_le
    · rw [hlast', hblock']
      exact hlast.trans hblock
    · rw [hcount, hpoints, hstart, hlast']
      exact hw.points

/-- The points minted are those of the interval, in every state of a fresh run. -/
theorem counted_inductive (I : Interval) : (watchMachine I).Inductive I.FreshStep (Counted I) where
  init w hinit := by
    obtain ⟨_, hstart, hlast, hharvests, hpoints⟩ := hinit
    refine ⟨hlast.ge, hlast ▸ hstart, ?_⟩
    rw [hharvests, hpoints, hlast, I.scaledPoints_self]
    exact .zero _
  step _ _ _ hw hok hstep := hw.step hok hstep

end Watching

/-! ## Points over every run -/

/-- Over every run from a reachable state in which the stake, its price and the bonus stay as
they are and the harvests of the entry are fresh, the points minted are those of the stake
for the blocks up to the last harvest, up to one unit for each harvest. Two such runs over
the same blocks mint as much up to one unit for each harvest, and a harvest in the block of
the last one mints nothing. What is counted is what the harvests ask `badgePoints` to mint. -/
theorem points_of_freshHarvests (I : Interval) :
    (∀ w, (watchMachine I).ReachableBy I.FreshStep w →
      w.points * 10 ^ 18 ≤
        I.amount * I.price * (I.blockWeight w.last - I.blockWeight w.start) ∧
      I.amount * I.price * (I.blockWeight w.last - I.blockWeight w.start) ≤
        w.points * 10 ^ 18 + w.harvests * (10 ^ 18 - 1)) ∧
    (∀ w₁ w₂, (watchMachine I).ReachableBy I.FreshStep w₁ →
      (watchMachine I).ReachableBy I.FreshStep w₂ → w₁.start = w₂.start → w₁.last = w₂.last →
      w₁.points ≤ w₂.points + w₂.harvests) ∧
    (∀ w tx w', (watchMachine I).ReachableBy I.FreshStep w → I.FreshStep w tx →
      (watchMachine I).step w tx = .ok w' → tx.blockNumber = w.last → w'.points = w.points) ∧
    ∀ msg op s s' pid user, op.harvested msg.sender s = some (pid, user) →
      exec msg op s = .ok s' →
      ∃ s₁, updatePool msg.blockNumber pid s = .ok s₁ ∧
        MintsPoints s₁ s' user (s₁.harvestPoints pid user) := by
  have hcounted : ∀ {w : Watch}, (watchMachine I).ReachableBy I.FreshStep w → Counted I w :=
    fun hreach => (counted_inductive I).invariant hreach
  refine ⟨fun w hreach => ?_, fun w₁ w₂ h₁ h₂ hstart hlast => ?_,
    fun w tx w' _ hok hstep hblock => ?_, fun _ _ _ _ _ _ hharvested h =>
      exec_mints hharvested h⟩
  · obtain ⟨_, _, hpoints⟩ := hcounted hreach
    have hge := hpoints.ge
    exact ⟨hpoints.le, by unfold Interval.scaledPoints at hge; omega⟩
  · have hfirst := (hcounted h₁).points.le
    have hsecond := (hcounted h₂).points.ge
    rw [← hstart, ← hlast] at hsecond
    omega
  · obtain ⟨_, _, houtcome⟩ := watch_eq_ok hstep
    rcases houtcome with ⟨hharvested, s, hupdate, _, _, hpoints⟩ | ⟨_, _, _, hpoints⟩
    · have hminted := hok.1.fresh_harvestPoints (hok.2 hharvested) hblock.ge
        (updatePool_eq_ok hupdate).2
      rw [hpoints, hminted, hblock, I.scaledPoints_self, Nat.zero_div, Nat.zero_add]
    · exact hpoints

/-! ## Runs -/

instance (I : Interval) (s : State) : Decidable (I.Holds s) :=
  decidable_of_iff
    ((s.userInfo I.pid I.user).amount = I.amount ∧
      s.complexOracle.map (· (s.poolInfo I.pid).stakeToken) = some I.price ∧
      s.badgePoints.isSome = true ∧ s.bonusMultiplier = I.bonusMultiplier ∧
      s.bonusEndBlock = I.bonusEndBlock)
    ⟨fun ⟨h₁, h₂, h₃, h₄, h₅⟩ => ⟨h₁, h₂, h₃, h₄, h₅⟩,
      fun ⟨h₁, h₂, h₃, h₄, h₅⟩ => ⟨h₁, h₂, h₃, h₄, h₅⟩⟩

instance (s : State) (n pid last : Nat) : Decidable (s.Fresh n pid last) := by
  unfold State.Fresh
  infer_instance

/-- Badge points that FairLaunch at 100 operates, and a price of one for every token. -/
def setPoints : Tx :=
  ⟨50, 0, .setBadgePoints (some { okOperators := fun account => account = 100 })
    (some fun _ => 10 ^ 18)⟩

/-- A stake of 5 of account 2 in the first pool, without bonus. -/
def staked : Interval :=
  { pid := 0, user := 2, amount := 5, price := 10 ^ 18, bonusMultiplier := 0, bonusEndBlock := 0 }

/-- What comes before the deposit of `staked`. -/
def stakedRun : List Tx := [⟨50, 0, .addPool 1 102 false⟩, setPoints]

/-- One harvest, two blocks later. -/
theorem points_of_oneHarvest :
    ∃ w, (watchMachine staked).ReachableBy staked.FreshStep w ∧ w.harvests = 1 ∧ w.points = 10 ∧
      w.points * 10 ^ 18 ≤
        staked.amount * staked.price *
          (staked.blockWeight w.last - staked.blockWeight w.start) := by
  have hrun : machine.lastStep (freshChain 1) stakedRun ⟨2, 1, .deposit 2 0 5⟩
      (fun _ c => c.block = 1 ∧ ((watchMachine staked).guarded fun w tx =>
        staked.Holds w.chain.state ∧ w.chain.state.Fresh tx.blockNumber 0 w.last).lastStep
          ⟨c, 1, 1, 0, 0⟩ [] ⟨2, 3, .harvest 0⟩
          (fun _ w => w.harvests = 1 ∧ w.points = 10)) = true := by
    decide +kernel
  obtain ⟨c₀, c, hreach, hstep, htest⟩ := TSys.lastStep_reachable (freshChain_init 1) hrun
  obtain ⟨hblock, hwatch⟩ := of_decide_eq_true htest
  have hinit : (watchMachine staked).init ⟨c, 1, 1, 0, 0⟩ :=
    ⟨.step hreach trivial hstep, hblock.ge, rfl, rfl, rfl⟩
  obtain ⟨w₁, w, hreach₁, hharvest, hpoints⟩ :=
    TSys.lastStep_reachable (M := (watchMachine staked).guarded _) hinit hwatch
  have hfresh : (watchMachine staked).ReachableBy staked.FreshStep w :=
    TSys.reachableBy_of_guarded (fun w tx hcheck => by
      obtain ⟨hholds, hfresh⟩ := of_decide_eq_true hcheck
      exact ⟨hholds, fun _ => hfresh⟩) (.step hreach₁ trivial hharvest)
  obtain ⟨hharvests, hpoints⟩ := of_decide_eq_true hpoints
  exact ⟨w, hfresh, hharvests, hpoints, ((points_of_freshHarvests staked).1 w hfresh).1⟩

/-- A second harvest in the same block mints the points of the first once more. -/
theorem secondHarvest_mintsPoints :
    ∃ w₁ tx w₂, (watchMachine staked).ReachableBy staked.Step w₁ ∧ staked.Step w₁ tx ∧
      (watchMachine staked).step w₁ tx = .ok w₂ ∧ tx.blockNumber = w₁.last ∧
      w₁.start = w₂.start ∧ w₁.last = w₂.last ∧ w₁.harvests = 1 ∧ w₂.harvests = 2 ∧
      w₁.points = 10 ∧ w₂.points = 20 ∧
      w₂.chain.state.badgePoints.map (·.erc20.balanceOf 2) = some 20 := by
  have hrun : machine.lastStep (freshChain 1) stakedRun ⟨2, 1, .deposit 2 0 5⟩
      (fun _ c => c.block = 1 ∧ ((watchMachine staked).guarded fun w _ =>
        staked.Holds w.chain.state).lastStep ⟨c, 1, 1, 0, 0⟩ [⟨2, 3, .harvest 0⟩] ⟨2, 3, .harvest 0⟩
          (fun w₁ w₂ => w₁.last = 3 ∧ w₁.start = w₂.start ∧ w₁.last = w₂.last ∧ w₁.harvests = 1 ∧
            w₂.harvests = 2 ∧ w₁.points = 10 ∧ w₂.points = 20 ∧
            w₂.chain.state.badgePoints.map (·.erc20.balanceOf 2) = some 20)) = true := by
    decide +kernel
  obtain ⟨c₀, c, hreach, hstep, htest⟩ := TSys.lastStep_reachable (freshChain_init 1) hrun
  obtain ⟨hblock, hwatch⟩ := of_decide_eq_true htest
  have hinit : (watchMachine staked).init ⟨c, 1, 1, 0, 0⟩ :=
    ⟨.step hreach trivial hstep, hblock.ge, rfl, rfl, rfl⟩
  obtain ⟨w₁, w₂, hreach₁, hharvest, htest₂⟩ :=
    TSys.lastStep_reachable (M := (watchMachine staked).guarded _) hinit hwatch
  obtain ⟨hlast, hrest⟩ := of_decide_eq_true htest₂
  simp only [TSys.guarded, bind_eq_ok, require_eq_ok] at hharvest
  obtain ⟨_, hholds, hharvest⟩ := hharvest
  have hstays : (watchMachine staked).ReachableBy staked.Step w₁ :=
    TSys.reachableBy_of_guarded (fun w _ hcheck => by
      have hholds : staked.Holds w.chain.state := of_decide_eq_true hcheck
      exact hholds) hreach₁
  have hholds : staked.Holds w₁.chain.state := of_decide_eq_true hholds
  exact ⟨w₁, _, w₂, hstays, hholds, hharvest, hlast.symm, hrest⟩

end Huski.FairLaunch
