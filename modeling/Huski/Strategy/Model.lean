import Huski.Lib.Abi
import Huski.Pancake.Trades
import Huski.Strategy.OptimalDeposit
import Huski.Worker.Health

/-!
# The strategies

`execute` of the six strategies in `strategies/pancakeswapV2` and of
`PancakeswapV2CakeMaxiWithdrawMinimizeTrading.sol`. A worker sends the strategy what it is to work
on and calls it; the strategy works on all it has. Its approvals are unlimited while it runs and
decide nothing, and the event and the serial code that go to the outside are left out.
-/

open Solidity

namespace Huski.Strategy

open Pancake (Market Router)

/-- A strategy contract, with the pairs and the relayer of the native token around it. -/
structure Site where
  router : Router
  okWorkers : Address → Bool
  /-- the strategy itself -/
  self : Address
  wNative : Address
  wNativeRelayer : Address
  /-- `okCallers` of the relayer -/
  okCallers : Address → Bool
  /-- which accounts take native coins -/
  accepts : Address → Bool

/-- A call of `execute`; `worker` is its sender, with what its views answer. -/
structure Call where
  worker : Address
  baseToken : Address
  farmingToken : Address
  /-- the owner of the position that the vault is executing -/
  owner : Address
  user : Address
  debt : Nat
  data : List Nat

structure World where
  market : Market
  /-- native coins -/
  native : Address → Nat

namespace Site

variable (e : Site) (c : Call) (w : World)

def lpToken : Address := e.router.getPair c.farmingToken c.baseToken

/-- `onlyWhitelistedWorkers` -/
def onlyWhitelistedWorkers (message : String) : Result Unit :=
  require (e.okWorkers c.worker = true) message

/-- `token.safeTransfer(recipient, token.myBalance())` -/
def sendAll (token recipient : Address) (m : Market) : Market :=
  m.move token e.self recipient (m.balanceOf token e.self)

/-- `lpToken.transfer(worker, lpToken.balanceOf(address(this)))` -/
def sendLp (m : Market) : Result Market :=
  m.transferLp (e.lpToken c) e.self c.worker ((m.pair (e.lpToken c)).balanceOf e.self)

/-- `wNativeRelayer.withdraw(amount)`: the relayer unwraps what it was sent and pays it back. -/
def relayerWithdraw (amount : Nat) (w : World) : Result World := do
  require (e.okCallers e.self = true) "WNativeRelayer::onlyWhitelistedCaller: !okCaller"
  let left ← SafeMath.subOr (w.market.balanceOf e.wNative e.wNativeRelayer) amount ""
  return {
    market := w.market.setBalance e.wNative e.wNativeRelayer left
    native := Function.update w.native e.self (w.native e.self + amount) }

/-- `SafeToken.safeTransferETH(recipient, amount)` -/
def safeTransferETH (recipient : Address) (amount : Nat) (w : World) : Result World := do
  require (e.accepts recipient = true ∧ amount ≤ w.native e.self) "!safeTransferETH"
  let native := Function.update w.native e.self (w.native e.self - amount)
  return { w with native := Function.update native recipient (native recipient + amount) }

/-- The remaining farming tokens go to the user, the wrapped native token as native coins. -/
def sendFarmingToUser (w : World) : Result World :=
  let remainingFarmingToken := w.market.balanceOf c.farmingToken e.self
  if remainingFarmingToken > 0 then
    if c.farmingToken = e.wNative then do
      let w := { w with market := e.sendAll c.farmingToken e.wNativeRelayer w.market }
      let w ← e.relayerWithdraw remainingFarmingToken w
      e.safeTransferETH c.user remainingFarmingToken w
    else .ok { w with market := e.sendAll c.farmingToken c.user w.market }
  else .ok w

/-! ## Adding -/

/-- `PancakeswapV2AddBaseTokenOnly` -/
def addBaseTokenOnly : Result World := do
  e.onlyWhitelistedWorkers c "PancakeswapV2AddBaseTokenOnly::onlyWhitelistedWorkers: bad worker"
  let words ← Abi.decodeWords 1 c.data
  let minLPAmount := words.getD 0 0
  let m := w.market
  let p := m.pair (e.lpToken c)
  let rIn := if e.router.token0 (e.lpToken c) = c.baseToken then p.reserve0 else p.reserve1
  let swapAmt ← aIn (m.balanceOf c.baseToken e.self) rIn
  let m ← e.router.swapExactTokensForTokens m e.self swapAmt 0 [c.baseToken, c.farmingToken] e.self
  let (moreLPAmount, m) ← e.router.addLiquidity m e.self c.baseToken c.farmingToken
    (m.balanceOf c.baseToken e.self) (m.balanceOf c.farmingToken e.self) 0 0 e.self
  require (moreLPAmount ≥ minLPAmount)
    "PancakeswapV2AddBaseTokenOnly::execute: insufficient LP tokens received"
  let m ← e.sendLp c m
  return { w with market := m }

/-- Swap along the path of the side. -/
def swapSide (swapAmt : Nat) (isReversed : Bool) (m : Market) : Result Market :=
  let path := if isReversed then [c.farmingToken, c.baseToken] else [c.baseToken, c.farmingToken]
  if swapAmt > 0 then e.router.swapExactTokensForTokens m e.self swapAmt 0 path e.self else .ok m

/-- `PancakeswapV2AddTwoSidesOptimal`; the vault takes the farming tokens from the owner. -/
def addTwoSidesOptimal : Result World := do
  e.onlyWhitelistedWorkers c "PancakeswapV2AddTwoSidesOptimal::onlyWhitelistedWorkers: bad worker"
  let words ← Abi.decodeWords 3 c.data
  let farmingTokenAmount := words.getD 0 0
  let minLPAmount := words.getD 1 0
  let m ← w.market.safeTransferFrom c.farmingToken c.owner e.self farmingTokenAmount
  let p := m.pair (e.lpToken c)
  let (baseTokenReserve, farmingTokenReserve) :=
    if e.router.token0 (e.lpToken c) = c.baseToken then (p.reserve0, p.reserve1)
    else (p.reserve1, p.reserve0)
  let (swapAmt, isReversed) ← optimalDeposit (m.balanceOf c.baseToken e.self)
    (m.balanceOf c.farmingToken e.self) baseTokenReserve farmingTokenReserve
  let m ← e.swapSide c swapAmt isReversed m
  let (moreLPAmount, m) ← e.router.addLiquidity m e.self c.baseToken c.farmingToken
    (m.balanceOf c.baseToken e.self) (m.balanceOf c.farmingToken e.self) 0 0 e.self
  require (moreLPAmount ≥ minLPAmount)
    "PancakeswapV2AddTwoSidesOptimal::execute: insufficient LP tokens received"
  let m ← e.sendLp c m
  return { w with market := m }

/-! ## Liquidating -/

/-- `PancakeswapV2Liquidate` -/
def liquidate : Result World := do
  e.onlyWhitelistedWorkers c "PancakeswapV2Liquidate::onlyWhitelistedWorkers: bad worker"
  let words ← Abi.decodeWords 1 c.data
  let minBaseToken := words.getD 0 0
  let (balance, m) ← Worker.pancakeswapV2Liquidate e.router.toExchange e.okWorkers e.self c.worker
    c.baseToken c.farmingToken minBaseToken w.market
  return { w with
    market := m.setBalance c.baseToken c.worker (m.balanceOf c.baseToken c.worker + balance) }

/-- `PancakeswapV2PartialCloseLiquidate` -/
def partialCloseLiquidate : Result World := do
  e.onlyWhitelistedWorkers c
    "PancakeswapV2PartialCloseLiquidate::onlyWhitelistedWorkers: bad worker"
  let words ← Abi.decodeWords 2 c.data
  let returnLpToken := words.getD 0 0
  let minBaseToken := words.getD 1 0
  let m := w.market
  require ((m.pair (e.lpToken c)).balanceOf e.self ≥ returnLpToken)
    "PancakeswapV2PartialCloseLiquidate::execute: insufficient LP amount recevied from worker"
  let m ← e.router.removeLiquidity m e.self c.baseToken c.farmingToken returnLpToken 0 0 e.self
  let m ← e.router.swapExactTokensForTokens m e.self (m.balanceOf c.farmingToken e.self) 0
    [c.farmingToken, c.baseToken] e.self
  require (m.balanceOf c.baseToken e.self ≥ minBaseToken)
    "PancakeswapV2PartialCloseLiquidate::execute: insufficient baseToken received"
  let m ← e.sendLp c (e.sendAll c.baseToken c.worker m)
  return { w with market := m }

/-! ## Minimizing trading -/

/-- Buy what is missing of the debt. -/
def buyRemainingDebt (debt : Nat) (path : List Address) (m : Market) : Result Market :=
  let balance := m.balanceOf c.baseToken e.self
  if debt > balance then do
    let remainingDebt ← SafeMath.sub debt balance
    e.router.swapTokensForExactTokens m e.self remainingDebt (m.balanceOf c.farmingToken e.self)
      path e.self
  else .ok m

/-- `PancakeswapV2PartialCloseMinimizeTrading` -/
def partialCloseMinimizeTrading : Result World := do
  e.onlyWhitelistedWorkers c
    "PancakeswapV2PartialCloseMinimizeTrading::onlyWhitelistedWorkers:: bad worker"
  let words ← Abi.decodeWords 3 c.data
  let maxLpTokenToLiquidate := words.getD 0 0
  let maxDebtRepayment := words.getD 1 0
  let minFarmingToken := words.getD 2 0
  let m := w.market
  let lessDebt := min c.debt maxDebtRepayment
  let lpTokenToLiquidate := min ((m.pair (e.lpToken c)).balanceOf e.self) maxLpTokenToLiquidate
  let m ← e.router.removeLiquidity m e.self c.baseToken c.farmingToken lpTokenToLiquidate 0 0 e.self
  let m ← e.buyRemainingDebt c lessDebt [c.farmingToken, c.baseToken] m
  let m ← e.sendLp c m
  let m := e.sendAll c.baseToken c.worker m
  require (m.balanceOf c.farmingToken e.self ≥ minFarmingToken)
    "PancakeswapV2PartialCloseMinimizeTrading::execute:: insufficient farming tokens received"
  e.sendFarmingToUser c { w with market := m }

/-- `PancakeswapV2WithdrawMinimizeTrading` -/
def withdrawMinimizeTrading : Result World := do
  e.onlyWhitelistedWorkers c
    "PancakeswapV2WithdrawMinimizeTrading::onlyWhitelistedWorkers: bad worker"
  let words ← Abi.decodeWords 1 c.data
  let minFarmingToken := words.getD 0 0
  let m := w.market
  let m ← e.router.removeLiquidity m e.self c.baseToken c.farmingToken
    ((m.pair (e.lpToken c)).balanceOf e.self) 0 0 e.self
  let m ← e.buyRemainingDebt c c.debt [c.farmingToken, c.baseToken] m
  let m := e.sendAll c.baseToken c.worker m
  require (m.balanceOf c.farmingToken e.self ≥ minFarmingToken)
    "PancakeswapV2WithdrawMinimizeTrading::execute: insufficient farming tokens received"
  e.sendFarmingToUser c { w with market := m }

/-- `PancakeswapV2CakeMaxiWithdrawMinimizeTrading` buys the whole debt, whatever it has of the base
token. -/
def cakeMaxiWithdrawMinimizeTrading : Result World := do
  e.onlyWhitelistedWorkers c
    "PancakeswapV2CakeMaxiWithdrawMinimizeTrading::onlyWhitelistedWorkers: bad worker"
  let words ← Abi.decodeWords 1 c.data
  let minFarmingTokenAmount := words.getD 0 0
  let m := w.market
  let m ← e.router.swapTokensForExactTokens m e.self c.debt (m.balanceOf c.farmingToken e.self)
    (Worker._getPath e.wNative c.farmingToken c.baseToken) e.self
  let m := e.sendAll c.baseToken c.worker m
  require (m.balanceOf c.farmingToken e.self ≥ minFarmingTokenAmount)
    ("PancakeswapV2CakeMaxiWithdrawMinimizeTrading::execute: " ++
      "insufficient farmingToken amount received")
  e.sendFarmingToUser c { w with market := m }

end Site

end Huski.Strategy
