import Huski.Worker.Config
import Huski.Worker.Stake

/-!
# The CAKE worker

`CakeMaxiWorker.sol`, whose farming token is the CAKE that the farm also pays as reward: what it
holds of it is principal on the way to a strategy or to the stake, and rewards, which
`rewardBalance` counts. Base token and token of the beneficial vault are not CAKE. A transaction
says what the outside answers, as for the LP worker.
-/

open Solidity

namespace Huski.Worker.CakeMaxi

def contractName : String := "CakeMaxiWorker"

/-- Where principal goes. -/
inductive Use
  | strategy (strat : Address)
  | position (id : PositionId)

/-- CAKE leaving for a strategy or for the stake of a position, with what the worker then held of
it and counted as reward. -/
structure Spending where
  use : Use
  amount : Nat
  balance : Nat
  reward : Nat

/-- The storage of the worker, its stake in the farm and its token balances. -/
structure State where
  config : Config
  baseToken : Address
  /-- `beneficialVault.token()` -/
  beneficialVaultToken : Address
  beneficialVaultBountyBps : Nat
  stake : Stake := {}
  rewardBalance : Nat := 0
  /-- `farmingToken.balanceOf(address(this))` -/
  farmingBalance : Nat
  /-- its balances of the other tokens -/
  balanceOf : Address → Nat
  /-- of the farm and of the router, in CAKE -/
  farmAllowance : Nat := 0
  routerAllowance : Nat := 0
  /-- history variable -/
  spendings : List Spending := []

/-- What a strategy sends back. -/
structure Returned where
  farming : Nat := 0
  tokens : Address → Nat := fun _ => 0

/-- What the outside answers in a transaction; `none` is a revert. -/
structure Outside where
  accrued : Nat := 0
  execute : Option Returned := some {}
  swap : Option Nat := some 0

namespace State

variable (sender origin : Address) (o : Outside) (s : State)

/-- The farm owes the worker more CAKE. -/
def accrue (amount : Nat) : State := { s with stake := s.stake.accrue amount }

/-- Tokens arrive at the worker. -/
def receive (token : Address) (amount : Nat) : State :=
  { s with balanceOf := Function.update s.balanceOf token (s.balanceOf token + amount) }

/-- `token.safeTransfer(recipient, token.myBalance())` -/
def sendAll (token : Address) : State :=
  { s with balanceOf := Function.update s.balanceOf token 0 }

/-- `farmingToken.safeTransfer(recipient, amount)` -/
def safeTransfer (amount : Nat) : Result State := do
  let farmingBalance ← SafeMath.subOr s.farmingBalance amount "!safeTransfer"
  return { s with farmingBalance }

/-- What was spent, and the balances it was spent from. -/
def spend (use : Use) (amount : Nat) : State :=
  { s with spendings :=
      { use, amount, balance := s.farmingBalance, reward := s.rewardBalance } :: s.spendings }

/-- It pays the pending CAKE before it takes `amount`. -/
def enterStaking (amount : Nat) : Result State := do
  let farmingBalance ← SafeMath.subOr (s.farmingBalance + s.stake.pendingCake) amount
    "BEP20: transfer amount exceeds balance"
  let farmAllowance ← SafeMath.subOr s.farmAllowance amount
    "BEP20: transfer amount exceeds allowance"
  let stake ← s.stake.enter amount
  return { s with stake, farmingBalance, farmAllowance }

/-- Unstake from pool 0; the farm pays the pending CAKE along. -/
def leaveStaking (amount : Nat) : Result State := do
  let stake ← s.stake.leave amount
  return { s with
    stake
    farmingBalance := s.farmingBalance + s.stake.pendingCake + amount }

/-- `execute` of a strategy -/
def execute : Result State :=
  match o.execute with
  | some returned =>
      .ok { s with
        farmingBalance := s.farmingBalance + returned.farming
        balanceOf := fun token => s.balanceOf token + returned.tokens token }
  | none => .error ""

/-- The CAKE that is no reward. -/
def actualFarmingTokenBalance : Result Nat := SafeMath.sub s.farmingBalance s.rewardBalance

/-- `rewardBalance.add(masterChef.pendingCake(pid, address(this)))` -/
def countPending : Result State := do
  let rewardBalance ← SafeMath.add s.rewardBalance s.stake.pendingCake
  return { s with rewardBalance }

/-- `_addShare` once there is something to stake -/
def stakeFor (id : PositionId) (shareBalance : Nat) : Result State := do
  let s := s.spend (.position id) shareBalance
  let share ← s.stake.balanceToShare shareBalance
  let stake ← s.stake.mintShare id share
  let s ← { s with stake, farmAllowance := maxWord }.countPending
  let s ← s.enterStaking shareBalance
  return { s with farmAllowance := 0 }

/-- `_addShare` -/
def addShare (id : PositionId) : Result State := do
  let shareBalance ← s.actualFarmingTokenBalance
  if shareBalance > 0 then s.stakeFor id shareBalance else .ok s

/-- `_removeShare` -/
def removeShare (id : PositionId) : Result State :=
  if s.stake.shares id > 0 then do
    let balance ← s.stake.shareToBalance (s.stake.shares id)
    let stake ← s.stake.burnShare id (s.stake.shares id)
    let s ← { s with stake }.countPending
    s.leaveStaking balance
  else .ok s

/-- `farmingToken.safeTransfer(strat, actualFarmingTokenBalance())` -/
def sendFarming (strat : Address) : Result State := do
  let amount ← s.actualFarmingTokenBalance
  (s.spend (.strategy strat) amount).safeTransfer amount

/-- Only the vault calls, with a strategy that is approved. -/
def work (id : PositionId) (strat : Address) : Result State := do
  s.config.onlyOperator contractName sender
  let s ← s.removeShare id
  require (s.config.okStrats strat = true) "CakeMaxiWorker::work: unapproved work strategy"
  let s ← (s.sendAll s.baseToken).sendFarming strat
  let s ← s.execute o
  let s ← s.addShare id
  return s.sendAll s.baseToken

/-- The position's CAKE goes to the liquidation strategy, and what it returns to the vault. -/
def liquidate (id : PositionId) : Result State := do
  s.config.onlyOperator contractName sender
  let s ← s.removeShare id
  let s ← s.sendFarming s.config.liqStrat
  let s ← s.execute o
  return s.sendAll s.baseToken

/-- `_rewardToBeneficialVault` -/
def rewardToBeneficialVault (amount : Nat) : Result State :=
  match o.swap with
  | some out => do
      let s ← { s with routerAllowance := maxWord }.safeTransfer amount
      let s := (s.receive s.beneficialVaultToken out).sendAll s.beneficialVaultToken
      return { s with routerAllowance := 0 }
  | none => .error ""

/-- What the beneficial vault gets of a bounty. -/
def payBeneficialVault (amount : Nat) : Result State :=
  if amount > 0 then s.rewardToBeneficialVault o amount else .ok s

/-- The beneficial vault gets its part of the bounty, the caller the rest. -/
def payBounty (bounty : Nat) : Result State :=
  if bounty > 0 then do
    let product ← SafeMath.mul bounty s.beneficialVaultBountyBps
    let s ← s.payBeneficialVault o (product / 10000)
    let rest ← SafeMath.sub bounty (product / 10000)
    s.safeTransfer rest
  else .ok s

/-- What `reinvest` does with a reward. -/
def reinvestReward (reward : Nat) : Result State := do
  let product ← SafeMath.mul reward s.config.reinvestBountyBps
  let s ← s.payBounty o (product / 10000)
  let rest ← SafeMath.sub reward (product / 10000)
  let s ← s.enterStaking rest
  return { s with farmAllowance := 0 }

/-- Without a reward it returns before it takes the allowance back. -/
def reinvest : Result State := do
  s.config.onlyReinvestor contractName sender origin
  let s ← { s with farmAllowance := maxWord, rewardBalance := 0 }.leaveStaking 0
  if s.farmingBalance = 0 then .ok s else s.reinvestReward o s.farmingBalance

/-- No more than the whole bounty. -/
def setBeneficialVaultBountyBps (bps : Nat) : Result State := do
  s.config.onlyOwner sender
  require (bps ≤ 10000)
    "CakeMaxiWorker::setBeneficialVaultBountyBps: _beneficialVaultBountyBps exceeds 100%"
  return { s with beneficialVaultBountyBps := bps }

end State

/-! ## Transactions -/

inductive Op
  | work (id : PositionId) (strat : Address)
  | liquidate (id : PositionId)
  | reinvest
  | setBeneficialVaultBountyBps (bps : Nat)
  | config (op : ConfigOp)
  /-- somebody sends CAKE to the worker -/
  | receiveFarming (amount : Nat)
  /-- somebody sends another token to it -/
  | receive (token : Address) (amount : Nat)

/-- The position an operation is on. -/
def Op.position : Op → Option PositionId
  | .work id _ => some id
  | .liquidate id => some id
  | _ => none

structure Tx where
  sender : Address
  origin : Address
  outside : Outside := {}
  op : Op

/-- One transaction. -/
def exec (s : State) (tx : Tx) : Result State :=
  let s := s.accrue tx.outside.accrued
  match tx.op with
  | .work id strat => s.work tx.sender tx.outside id strat
  | .liquidate id => s.liquidate tx.sender tx.outside id
  | .reinvest => s.reinvest tx.sender tx.origin tx.outside
  | .setBeneficialVaultBountyBps bps => s.setBeneficialVaultBountyBps tx.sender bps
  | .config op => do
      let config ← s.config.exec contractName tx.sender op
      return { s with config }
  | .receiveFarming amount => .ok { s with farmingBalance := s.farmingBalance + amount }
  | .receive token amount => .ok (s.receive token amount)

/-- `initialize`; somebody may have sent tokens before. -/
def initState (owner operator baseToken beneficialVaultToken addStrat liqStrat : Address)
    (reinvestBountyBps beneficialVaultBountyBps farmingBalance : Nat)
    (balanceOf : Address → Nat) : Result State := do
  let config ← Config.initConfig contractName owner operator addStrat liqStrat reinvestBountyBps
    2000
  return {
    config, baseToken, beneficialVaultToken, beneficialVaultBountyBps, farmingBalance, balanceOf }

/-- The transactions of the worker, from its initialization on. -/
def machine : TSys State Tx where
  init s := ∃ owner operator baseToken vaultToken addStrat liqStrat bps vaultBps farming balanceOf,
    initState owner operator baseToken vaultToken addStrat liqStrat bps vaultBps farming balanceOf =
      .ok s
  step := exec

end Huski.Worker.CakeMaxi
