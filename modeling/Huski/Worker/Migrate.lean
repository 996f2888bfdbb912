import Huski.Strategy.Leftovers

/-!
# The migrating LP worker

`PancakeswapV2WorkerMigrate.sol`: the worker that moves its stake from the first version of the
exchange to the second, to the new strategies. It still encodes for them what the old ones decoded,
the two tokens and a minimum, and the new ones take the first word for the minimum: the address of
the base token.
-/

open Solidity

namespace Huski.Worker.Migrate

open Pancake (Market Router)
open Strategy (Call Site World)

def contractName : String := "PancakeswapV2Worker"

/-- The storage of the worker, with the addresses a migration replaces. -/
structure State where
  config : Config
  baseToken : Address
  farmingToken : Address
  cake : Address
  wNative : Address
  router : Address
  factory : Address
  lpToken : Address
  pid : Nat
  shares : PositionId → Nat := fun _ => 0
  totalShare : Nat := 0
  fee : Nat := 0
  feeDenom : Nat := 0

/-- All accounts, and the worker's entries in the pools of the farm. -/
structure Farm where
  world : World
  amount : Nat → Nat
  pendingCake : Nat → Nat

/-- The contracts that the worker calls, by their addresses. -/
structure Surroundings where
  self : Address
  masterChef : Address
  /-- the LP token of a pool -/
  poolInfo : Nat → Address
  router : Address → Router
  factory : Address → Address
  token0 : Address → Address
  token1 : Address → Address
  execute : Address → Call → World → Result World

/-- The arguments of `migrateLP`. -/
structure Migration where
  routerV2 : Address
  newPId : Nat
  twoSideOptimalMigrateStrat : Address
  newAddStrat : Address
  newLiqStrat : Address
  newOkStrats : List Address
  disableStrats : List Address

def Farm.market (f : Farm) : Market := f.world.market

def Farm.setMarket (f : Farm) (m : Market) : Farm :=
  { f with world := { f.world with market := m } }

namespace State

variable (x : Surroundings) (s : State) (sender origin : Address) (f : Farm)

/-! ## The farm -/

/-- The shares, and the entry of the current pool. -/
def stake : Stake where
  shares := s.shares
  totalShare := s.totalShare
  amount := f.amount s.pid
  pendingCake := f.pendingCake s.pid

/-- Every change of an entry pays its pending CAKE. -/
def payCake (pid : Nat) : Farm :=
  { f.setMarket (f.market.setBalance s.cake x.self
      (f.market.balanceOf s.cake x.self + f.pendingCake pid)) with
    pendingCake := Function.update f.pendingCake pid 0 }

/-- `masterChef.withdraw(pid, amount)` -/
def withdraw (pid amount : Nat) : Result Farm := do
  require (pid ≠ 0) "withdraw CAKE by unstaking"
  require (amount ≤ f.amount pid) "withdraw: not good"
  let f := s.payCake x f pid
  let m ← f.market.transferLp (x.poolInfo pid) x.masterChef x.self amount
  return { f.setMarket m with amount := Function.update f.amount pid (f.amount pid - amount) }

/-- `masterChef.deposit(pid, amount)` -/
def deposit (pid amount : Nat) : Result Farm := do
  require (pid ≠ 0) "deposit CAKE by staking"
  let f := s.payCake x f pid
  let m ← f.market.transferLp (x.poolInfo pid) x.self x.masterChef amount
  let total ← SafeMath.add (f.amount pid) amount
  return { f.setMarket m with amount := Function.update f.amount pid total }

/-- `token.safeTransfer(recipient, amount)` -/
def safeTransfer (token recipient : Address) (amount : Nat) (m : Market) : Result Market := do
  require (amount ≤ m.balanceOf token x.self) "!safeTransfer"
  return m.move token x.self recipient amount

/-- `token.safeTransfer(recipient, token.myBalance())` -/
def sendAll (token recipient : Address) (m : Market) : Market :=
  m.move token x.self recipient (m.balanceOf token x.self)

/-- `lpToken.balanceOf(address(this))` -/
def lpBalance (lpToken : Address) (m : Market) : Nat := (m.pair lpToken).balanceOf x.self

/-! ## Liquidating and reinvesting -/

/-- `abi.encode(baseToken, farmingToken, 0)`, the data of `liquidate` and of `reinvest` -/
def strategyData : List Nat :=
  Abi.encodeTuple [.word s.baseToken, .word s.farmingToken, .word 0]

/-- A call of a strategy by the worker. -/
def call (user : Address) (data : List Nat) : Call where
  worker := x.self
  baseToken := s.baseToken
  farmingToken := s.farmingToken
  owner := 0
  user
  debt := 0
  data

/-- `_removeShare` -/
def removeShare (id : PositionId) : Result (State × Farm) :=
  let share := s.shares id
  if share > 0 then do
    let balance ← (s.stake f).shareToBalance share
    let f ← s.withdraw x f s.pid balance
    let totalShare ← SafeMath.sub s.totalShare share
    return ({ s with totalShare, shares := Function.update s.shares id 0 }, f)
  else .ok (s, f)

/-- `liquidate`, with the data that it passes on -/
def liquidateWith (data : List Nat) (id : PositionId) : Result (State × Farm) := do
  s.config.onlyOperator contractName sender
  let (s, f) ← s.removeShare x f id
  let m ← f.market.transferLp s.lpToken x.self s.config.liqStrat (lpBalance x s.lpToken f.market)
  let world ← x.execute s.config.liqStrat (s.call x 0 data) { f.world with market := m }
  return (s, { f with world }.setMarket (sendAll x s.baseToken sender world.market))

/-- `liquidateWith`, with the data the contract has stored. -/
def liquidate (id : PositionId) : Result (State × Farm) :=
  s.liquidateWith x sender f s.strategyData id

/-- From CAKE to the base token. -/
def rewardPath : List Address :=
  if s.baseToken = s.wNative then [s.cake, s.wNative] else [s.cake, s.wNative, s.baseToken]

/-- The caller gets the bounty in CAKE. -/
def payBounty (bounty : Nat) (m : Market) : Result Market :=
  if bounty > 0 then safeTransfer x s.cake sender bounty m else .ok m

/-- What `reinvest` does with a reward. -/
def reinvestReward (data : List Nat) (reward : Nat) : Result Farm := do
  let product ← SafeMath.mul reward s.config.reinvestBountyBps
  let bounty := product / 10000
  let m ← s.payBounty x sender bounty f.market
  let left ← SafeMath.sub reward bounty
  let m ← (x.router s.router).swapExactTokensForTokens m x.self left 0 s.rewardPath x.self
  let m := sendAll x s.baseToken s.config.addStrat m
  let world ← x.execute s.config.addStrat (s.call x 0 data) { f.world with market := m }
  s.deposit x { f with world } s.pid (lpBalance x s.lpToken world.market)

/-- `reinvest`, with the data that it passes on -/
def reinvestWith (data : List Nat) : Result Farm := do
  s.config.onlyReinvestor contractName sender origin
  let f ← s.withdraw x f s.pid 0
  let reward := f.market.balanceOf s.cake x.self
  if reward = 0 then .ok f else s.reinvestReward x sender f data reward

/-- `reinvestWith`, with the data the contract has stored. -/
def reinvest : Result Farm := s.reinvestWith x sender origin f s.strategyData

/-! ## The migration -/

/-- The strategies that are approved afterwards. -/
def migratedStrats (args : Migration) : Address → Bool :=
  let okStrats := Function.update (Function.update s.config.okStrats s.config.addStrat false)
    s.config.liqStrat false
  let okStrats := Config.setOk okStrats args.disableStrats false
  let okStrats := Function.update (Function.update okStrats args.newAddStrat true)
    args.newLiqStrat true
  Config.setOk okStrats args.newOkStrats true

/-- The variables after it. -/
def migrated (args : Migration) : State :=
  { s with
    router := args.routerV2
    factory := x.factory args.routerV2
    pid := args.newPId
    lpToken := x.poolInfo args.newPId
    fee := 9975
    feeDenom := 10000
    config := { s.config with
      okStrats := s.migratedStrats args
      addStrat := args.newAddStrat
      liqStrat := args.newLiqStrat } }

/-- The liquidity is removed from one exchange and added to the other. -/
def migrateLP (args : Migration) : Result (State × Farm) := do
  s.config.onlyOwner sender
  let balance ← (s.stake f).shareToBalance s.totalShare
  let f ← s.withdraw x f s.pid balance
  let m ← (x.router s.router).removeLiquidity f.market x.self s.baseToken s.farmingToken
    (lpBalance x s.lpToken f.market) 0 0 x.self
  let m := sendAll x s.baseToken args.twoSideOptimalMigrateStrat m
  let m := sendAll x s.farmingToken args.twoSideOptimalMigrateStrat m
  let world ← x.execute args.twoSideOptimalMigrateStrat
    (s.call x x.self (Abi.encodeTuple [.word s.baseToken, .word s.farmingToken]))
    { f.world with market := m }
  let lpV2 := x.poolInfo args.newPId
  let f ← s.deposit x { f with world } args.newPId (lpBalance x lpV2 world.market)
  require ((s.farmingToken = x.token0 lpV2 ∨ s.farmingToken = x.token1 lpV2) ∧
      (s.baseToken = x.token0 lpV2 ∨ s.baseToken = x.token1 lpV2))
    "PancakeswapV2Worker::migrateLP: lpV2 is mis-configed"
  return (s.migrated x args, f)

end State

/-! ## The minimum -/

/-- `abi.encode(0)` -/
def noMinimum : List Nat := Abi.encodeTuple [.word 0]

namespace State

variable {x : Surroundings} {s s' : State} {sender : Address} {f f' : Farm} {args : Migration}

theorem migrateLP_eq_ok (h : s.migrateLP x sender f args = .ok (s', f')) :
    s' = s.migrated x args := by
  simp only [migrateLP, bind_eq_ok, pure_eq_ok, Prod.mk.injEq] at h
  obtain ⟨_, _, _, _, _, _, _, _, _, _, _, _, _, _, rfl, _⟩ := h
  rfl

/-- A decoder of one word finds the address of the base token. -/
theorem decode_strategyData (s : State) :
    Abi.decodeWords 1 s.strategyData = .ok [(s.baseToken : Nat)] := rfl

theorem decode_noMinimum : Abi.decodeWords 1 noMinimum = .ok [0] := rfl

/-- The minimum in the data of both calls is zero, and neither reverts where it would not without a
minimum. -/
structure NoMinimum (x : Surroundings) (s : State) : Prop where
  decoded : Abi.decodeWords 1 s.strategyData = .ok [0]
  liquidate : ∀ sender f id r, s.liquidateWith x sender f noMinimum id = .ok r →
    s.liquidate x sender f id = .ok r
  reinvest : ∀ sender origin f r, s.reinvestWith x sender origin f noMinimum = .ok r →
    s.reinvest x sender origin f = .ok r

theorem removeShare_config {id : PositionId} (h : s.removeShare x f id = .ok (s', f')) :
    s'.config = s.config := by
  unfold removeShare at h
  dsimp only at h
  split at h
  · simp only [bind_eq_ok, pure_eq_ok, Prod.mk.injEq] at h
    obtain ⟨_, _, _, _, _, _, rfl, _⟩ := h
    rfl
  · cases h
    rfl

/-! ## What the strategies read of the data -/

variable {liq add : Site} {w : World} {data data' : List Nat} {user : Address}

/-- The liquidate strategy reads one word. -/
theorem liquidate_congr (h : Abi.decodeWords 1 data = Abi.decodeWords 1 data') :
    liq.liquidate (s.call x user data) w = liq.liquidate (s.call x user data') w := by
  unfold Site.liquidate call
  rw [h]
  rfl

/-- So does the add strategy. -/
theorem addBaseTokenOnly_congr (h : Abi.decodeWords 1 data = Abi.decodeWords 1 data') :
    add.addBaseTokenOnly (s.call x user data) w = add.addBaseTokenOnly (s.call x user data') w := by
  unfold Site.addBaseTokenOnly call
  rw [h]
  rfl

theorem liquidateWith_congr (hliq : x.execute s.config.liqStrat = liq.liquidate)
    (h : Abi.decodeWords 1 data = Abi.decodeWords 1 data') {id : PositionId} {r : State × Farm}
    (hok : s.liquidateWith x sender f data id = .ok r) :
    s.liquidateWith x sender f data' id = .ok r := by
  simp only [liquidateWith, bind_eq_ok] at hok ⊢
  obtain ⟨_, hop, ⟨s₁, f₁⟩, hremove, m, hsend, world, hexecute, hr⟩ := hok
  refine ⟨_, hop, ⟨s₁, f₁⟩, hremove, m, hsend, world, ?_, hr⟩
  rw [removeShare_config hremove, hliq] at hexecute ⊢
  rw [← liquidate_congr h]
  exact hexecute

theorem reinvestWith_congr (hadd : x.execute s.config.addStrat = add.addBaseTokenOnly)
    (h : Abi.decodeWords 1 data = Abi.decodeWords 1 data') {origin : Address} {r : Farm}
    (hok : s.reinvestWith x sender origin f data = .ok r) :
    s.reinvestWith x sender origin f data' = .ok r := by
  simp only [reinvestWith, bind_eq_ok] at hok ⊢
  obtain ⟨_, hreinvestor, f₁, hwithdraw, hreward⟩ := hok
  refine ⟨_, hreinvestor, f₁, hwithdraw, ?_⟩
  split at hreward
  · rename_i hnone
    rw [if_pos hnone]
    exact hreward
  · rename_i hsome
    rw [if_neg hsome]
    simp only [reinvestReward, hadd, bind_eq_ok] at hreward ⊢
    obtain ⟨product, hproduct, m₁, hbounty, left, hleft, m₂, hswap, world, hexecute, hr⟩ := hreward
    refine ⟨product, hproduct, m₁, hbounty, left, hleft, m₂, hswap, world, ?_, hr⟩
    rw [← addBaseTokenOnly_congr h]
    exact hexecute

/-- The decoders find no minimum exactly for the base token zero, and then it makes no
difference. -/
theorem noMinimum_iff (hliq : x.execute s.config.liqStrat = liq.liquidate)
    (hadd : x.execute s.config.addStrat = add.addBaseTokenOnly) :
    s.NoMinimum x ↔ s.baseToken = 0 := by
  constructor
  · intro h
    have hword := Except.ok.inj (s.decode_strategyData.symm.trans h.decoded)
    exact Fin.ext (List.cons.inj hword).1
  · intro hzero
    have hdecoded : Abi.decodeWords 1 s.strategyData = .ok [0] := by
      rw [decode_strategyData, hzero]
      rfl
    have hsame : Abi.decodeWords 1 noMinimum = Abi.decodeWords 1 s.strategyData :=
      decode_noMinimum.trans hdecoded.symm
    exact ⟨hdecoded, fun _ _ _ _ => liquidateWith_congr hliq hsame,
      fun _ _ _ _ => reinvestWith_congr hadd hsame⟩

end State

/-- After a migration to the two strategies the calls carry no minimum exactly if the base token is
the zero address. -/
theorem migrateLP_noMinimum_iff {x : Surroundings} {s s' : State} {sender : Address} {f f' : Farm}
    {args : Migration} {liq add : Site} (h : s.migrateLP x sender f args = .ok (s', f'))
    (hliq : x.execute args.newLiqStrat = liq.liquidate)
    (hadd : x.execute args.newAddStrat = add.addBaseTokenOnly) :
    s'.NoMinimum x ↔ s.baseToken = 0 := by
  rw [State.migrateLP_eq_ok h]
  exact State.noMinimum_iff (s := s.migrated x args) hliq hadd

/-! ## A migration -/

/-- The pairs of the first version, at other addresses. -/
def routerV1 : Router :=
  { Strategy.router with toExchange := { Worker.exchange with
      toFactory := { Worker.factory with getPair := fun a b => a + b + 300 } } }

/-- A strategy that adds what it has to the second version. -/
def migrateStrat (c : Call) (w : World) : Result World := do
  let (_, m) ← Strategy.router.addLiquidity w.market 20 c.baseToken c.farmingToken
    (w.market.balanceOf c.baseToken 20) (w.market.balanceOf c.farmingToken 20) 0 0 c.worker
  return { w with market := m }

/-- The worker 7 with the old pool 1 and the new pool 2, and the strategies 20, 21 and 6. -/
def surroundings : Surroundings where
  self := 7
  masterChef := 30
  poolInfo pid := if pid = 1 then 310 else 110
  router router := if router = 40 then routerV1 else Strategy.router
  factory router := router + 1
  token0 _ := 1
  token1 _ := 9
  execute strat :=
    if strat = 20 then migrateStrat
    else if strat = 6 then Strategy.site.liquidate
    else { Strategy.site with self := 21 }.addBaseTokenOnly

/-- A worker of the base token 9 with one position of four LP tokens. -/
def staking : State where
  config := {
    owner := 1
    operator := 2
    okStrats := fun strat => strat = 4 ∨ strat = 5
    addStrat := 4
    liqStrat := 5
    reinvestBountyBps := 100
    maxReinvestBountyBps := 500 }
  baseToken := 9
  farmingToken := 1
  cake := 3
  wNative := 1
  router := 40
  factory := 41
  lpToken := 310
  pid := 1
  shares := Function.update (fun _ => 0) 1 4
  totalShare := 4

def farm : Farm where
  world := {
    market := {
      pair := fun _ => {
        reserve0 := 10000
        reserve1 := 10000
        totalSupply := 10000
        balanceOf := fun holder => if holder = 30 then 4 else 0 }
      balanceOf := fun _ holder => if holder = 110 ∨ holder = 310 then 10000 else 0 }
    native := fun _ => 0 }
  amount pid := if pid = 1 then 4 else 0
  pendingCake _ := 0

def migration : Migration where
  routerV2 := 50
  newPId := 2
  twoSideOptimalMigrateStrat := 20
  newAddStrat := 21
  newLiqStrat := 6
  newOkStrats := []
  disableStrats := []

/-- The position can be liquidated without a minimum, but not by the worker. -/
theorem migrateLP_blocks_liquidate :
    ∃ s' f', staking.migrateLP surroundings 1 farm migration = .ok (s', f') ∧
      Abi.decodeWords 1 s'.strategyData = .ok [9] ∧
      (s'.liquidateWith surroundings 2 f' noMinimum 1).isOk = true ∧
      s'.liquidate surroundings 2 f' 1 =
        .error "PancakeswapV2Liquidate::execute: insufficient baseToken received" := by
  have hrun : (staking.migrateLP surroundings 1 farm migration).toOption.any (fun r =>
      Abi.decodeWords 1 r.1.strategyData = .ok [9] ∧
      (r.1.liquidateWith surroundings 2 r.2 noMinimum 1).isOk = true ∧
      failsWith "PancakeswapV2Liquidate::execute: insufficient baseToken received"
        (r.1.liquidate surroundings 2 r.2 1) = true) = true := by
    decide +kernel
  obtain ⟨⟨s', f'⟩, hok, htest⟩ := (Option.any_eq_true _ _).mp hrun
  obtain ⟨hdecoded, hfree, hfails⟩ := of_decide_eq_true htest
  exact ⟨s', f', toOption_eq_some.mp hok, hdecoded, hfree, eq_error_of_failsWith hfails⟩

theorem migrateLP_noMinimum_iff_staking :
    ∃ s' f', staking.migrateLP surroundings 1 farm migration = .ok (s', f') ∧
      ¬s'.NoMinimum surroundings := by
  have hrun : (staking.migrateLP surroundings 1 farm migration).isOk = true := by decide +kernel
  cases h : staking.migrateLP surroundings 1 farm migration with
  | error message =>
      rw [h] at hrun
      cases hrun
  | ok r =>
      obtain ⟨s', f'⟩ := r
      have hiff := @migrateLP_noMinimum_iff _ _ _ _ _ _ _ Strategy.site
        { Strategy.site with self := 21 } h rfl rfl
      exact ⟨s', f', rfl, fun hnone => absurd (hiff.mp hnone) (by decide)⟩

end Huski.Worker.Migrate
