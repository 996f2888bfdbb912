import Huski.Worker.Config
import Huski.Worker.Stake

/-!
# The LP worker

`PancakeswapV2Worker.sol` with its tokens and its entry in the farm. A transaction says what the
outside answers: the CAKE that has accrued, what the strategy sends back, what the router pays. The
reentrancy guard lets neither of them back into `work`, `liquidate` or `reinvest`, so that this is
all they can do to the worker. The LP token is not one of the tokens of its pair.
-/

open Solidity

namespace Huski.Worker.PancakeswapV2

def contractName : String := "PancakeswapV2Worker"

/-- The storage of the worker, its stake in the farm and its token balances. -/
structure State where
  config : Config
  baseToken : Address
  cake : Address
  stake : Stake := {}
  /-- `lpToken.balanceOf(address(this))` -/
  lpBalance : Nat
  /-- its balances of the other tokens -/
  balanceOf : Address → Nat
  /-- of the farm, in LP tokens -/
  lpAllowance : Nat := 0
  /-- of the router, in CAKE -/
  cakeAllowance : Nat := 0

/-- What a strategy sends back. -/
structure Returned where
  lp : Nat := 0
  tokens : Address → Nat := fun _ => 0

/-- What the outside answers in a transaction; `none` is a revert. -/
structure Outside where
  accrued : Nat := 0
  execute : Option Returned := some {}
  swap : Option Nat := some 0

namespace State

variable (sender origin : Address) (o : Outside) (s : State)

/-- The farm owes the worker more CAKE. -/
def accrue (amount : Nat) : State := { s with stake := s.stake.accrue amount }

/-- Tokens arrive at the worker. -/
def receive (token : Address) (amount : Nat) : State :=
  { s with balanceOf := Function.update s.balanceOf token (s.balanceOf token + amount) }

/-- `token.safeTransfer(recipient, amount)` -/
def safeTransfer (token : Address) (amount : Nat) : Result State := do
  let left ← SafeMath.subOr (s.balanceOf token) amount "!safeTransfer"
  return { s with balanceOf := Function.update s.balanceOf token left }

/-- `token.safeTransfer(recipient, token.myBalance())` -/
def sendAll (token : Address) : State :=
  { s with balanceOf := Function.update s.balanceOf token 0 }

/-- `lpToken.transfer(recipient, lpToken.balanceOf(address(this)))` -/
def sendLp : State := { s with lpBalance := 0 }

/-- `masterChef.withdraw(pid, amount)` -/
def withdraw (amount : Nat) : Result State := do
  let stake ← s.stake.leave amount
  return { s.receive s.cake s.stake.pendingCake with stake, lpBalance := s.lpBalance + amount }

/-- `masterChef.deposit(pid, amount)`; an unlimited allowance is not used up. -/
def deposit (amount : Nat) : Result State := do
  require (amount ≤ s.lpAllowance) "ds-math-sub-underflow"
  let lpBalance ← SafeMath.subOr s.lpBalance amount "ds-math-sub-underflow"
  let stake ← s.stake.enter amount
  return { s.receive s.cake s.stake.pendingCake with
    stake
    lpBalance
    lpAllowance := if s.lpAllowance = maxWord then maxWord else s.lpAllowance - amount }

/-- `execute` of a strategy -/
def execute : Result State :=
  match o.execute with
  | some returned =>
      .ok { s with
        lpBalance := s.lpBalance + returned.lp
        balanceOf := fun token => s.balanceOf token + returned.tokens token }
  | none => .error ""

/-- `router.swapExactTokensForTokens` from CAKE to the base token -/
def swap (amount : Nat) : Result State := do
  let cakeAllowance ← SafeMath.subOr s.cakeAllowance amount "TransferHelper: TRANSFER_FROM_FAILED"
  let s ← s.safeTransfer s.cake amount
  match o.swap with
  | some out => return { s.receive s.baseToken out with cakeAllowance }
  | none => .error ""

/-- `_addShare` -/
def addShare (id : PositionId) : Result State :=
  let balance := s.lpBalance
  if balance > 0 then do
    let s := { s with lpAllowance := maxWord }
    let share ← s.stake.balanceToShare balance
    let s ← s.deposit balance
    let stake ← s.stake.mintShare id share
    return { s with stake, lpAllowance := 0 }
  else .ok s

/-- `_removeShare` -/
def removeShare (id : PositionId) : Result State :=
  let share := s.stake.shares id
  if share > 0 then do
    let balance ← s.stake.shareToBalance share
    let s ← s.withdraw balance
    let stake ← s.stake.burnShare id share
    return { s with stake }
  else .ok s

/-- Only the vault calls, with a strategy that is approved. -/
def work (id : PositionId) (strat : Address) : Result State := do
  s.config.onlyOperator contractName sender
  let s ← s.removeShare id
  require (s.config.okStrats strat = true) "PancakeswapV2Worker::work: unapproved work strategy"
  let s ← (s.sendLp.sendAll s.baseToken).execute o
  let s ← s.addShare id
  return s.sendAll s.baseToken

/-- The position's LP tokens go to the liquidation strategy, and what it returns to the vault. -/
def liquidate (id : PositionId) : Result State := do
  s.config.onlyOperator contractName sender
  let s ← s.removeShare id
  let s ← s.sendLp.execute o
  return s.sendAll s.baseToken

/-- The caller gets the bounty in CAKE. -/
def payBounty (bounty : Nat) : Result State :=
  if bounty > 0 then s.safeTransfer s.cake bounty else .ok s

/-- What `reinvest` does with a reward. -/
def reinvestReward (reward : Nat) : Result State := do
  let product ← SafeMath.mul reward s.config.reinvestBountyBps
  let bounty := product / 10000
  let s ← s.payBounty bounty
  let left ← SafeMath.sub reward bounty
  let s ← s.swap o left
  let s ← (s.sendAll s.baseToken).execute o
  let s ← s.deposit s.lpBalance
  return { s with lpAllowance := 0, cakeAllowance := 0 }

/-- Without a reward it returns before it takes the allowances back. -/
def reinvest : Result State := do
  s.config.onlyReinvestor contractName sender origin
  let s ← { s with lpAllowance := maxWord, cakeAllowance := maxWord }.withdraw 0
  let reward := s.balanceOf s.cake
  if reward = 0 then .ok s else s.reinvestReward o reward

end State

/-! ## Transactions -/

inductive Op
  | work (id : PositionId) (strat : Address)
  | liquidate (id : PositionId)
  | reinvest
  | config (op : ConfigOp)
  /-- somebody sends LP tokens to the worker -/
  | receiveLp (amount : Nat)
  /-- somebody sends another token to it -/
  | receive (token : Address) (amount : Nat)

/-- The position an operation is on. -/
def Op.position : Op → Option PositionId
  | .work id _ => some id
  | .liquidate id => some id
  | _ => none

structure Tx where
  sender : Address
  origin : Address
  outside : Outside := {}
  op : Op

/-- One transaction. -/
def exec (s : State) (tx : Tx) : Result State :=
  let s := s.accrue tx.outside.accrued
  match tx.op with
  | .work id strat => s.work tx.sender tx.outside id strat
  | .liquidate id => s.liquidate tx.sender tx.outside id
  | .reinvest => s.reinvest tx.sender tx.origin tx.outside
  | .config op => do
      let config ← s.config.exec contractName tx.sender op
      return { s with config }
  | .receiveLp amount => .ok { s with lpBalance := s.lpBalance + amount }
  | .receive token amount => .ok (s.receive token amount)

/-- `initialize`; somebody may have sent tokens before. -/
def initState (owner operator baseToken cake addStrat liqStrat : Address)
    (reinvestBountyBps lpBalance : Nat) (balanceOf : Address → Nat) : Result State := do
  let config ← Config.initConfig contractName owner operator addStrat liqStrat reinvestBountyBps 500
  return { config, baseToken, cake, lpBalance, balanceOf }

/-- The transactions of the worker, from its initialization on. -/
def machine : TSys State Tx where
  init s := ∃ owner operator baseToken cake addStrat liqStrat bps lpBalance balanceOf,
    initState owner operator baseToken cake addStrat liqStrat bps lpBalance balanceOf = .ok s
  step := exec

end Huski.Worker.PancakeswapV2
