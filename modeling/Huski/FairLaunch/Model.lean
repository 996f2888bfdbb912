import Huski.Token.HuskyToken
import Huski.Token.StakeToken
import Huski.Token.BadgePoints

/-!
# FairLaunch

`FairLaunch.sol` as functions on its storage together with the tokens it moves:
HUSKY, the stake tokens by address, and the badge points. Pools accrue lazily: the
reward of the blocks since `lastRewardBlock` is computed by `updatePool` from the
parameters of that moment, minted, and spread over the staked supply through the
accumulator `accHuskyPerShare`; a second accumulator counts the part of it earned in
the bonus window.

`accruals` and `settledAt` are history variables. Events, pool symbols and
`lastClaimBlock`, which nothing reads, are left out.
-/

namespace Huski.FairLaunch

open Solidity

/-- `1e12`, the unit of the accumulators. -/
def precision : Nat := 10 ^ 12

/-- The stake of one account in one pool, what it has been paid, and who funded it. -/
structure UserInfo where
  amount : Nat := 0
  rewardDebt : Nat := 0
  bonusDebt : Nat := 0
  fundedBy : Address := 0
  deriving DecidableEq

/-- One pool: its stake token, its weight, and the two running sums of HUSKY per share. -/
structure PoolInfo where
  stakeToken : Address := 0
  allocPoint : Nat := 0
  lastRewardBlock : Nat := 0
  accHuskyPerShare : Nat := 0
  accHuskyPerShareTilBonusEnd : Nat := 0
  deriving DecidableEq

/-- One accrual of a pool: its reward for the blocks up to `toBlock`, and the part of
it for blocks credited with the bonus multiplier. -/
structure Accrual where
  pid : Nat
  fromBlock : Nat
  toBlock : Nat
  reward : Nat
  bonusReward : Nat
  lpSupply : Nat

/-- The storage of the contract, with HUSKY, the stake tokens and the oracle it calls. -/
structure State where
  /-- `address(this)` -/
  here : Address
  owner : Address
  husky : HuskyToken
  tokens : Address → StakeToken
  badgeRelayer : Address
  badgePoints : Option BadgePoints
  /-- the price it stores for a token; zero where none was set -/
  complexOracle : Option (Address → Nat)
  lastMultiplier : Nat
  devaddr : Address
  huskyPerBlock : Nat
  bonusMultiplier : Nat
  bonusEndBlock : Nat
  bonusLockUpBps : Nat
  poolLength : Nat
  poolInfo : Nat → PoolInfo
  userInfo : Nat → Address → UserInfo
  totalAllocPoint : Nat
  startBlock : Nat
  /-- newest first -/
  accruals : List Accrual
  /-- the number of accruals at the last write of the user's debts -/
  settledAt : Nat → Address → Nat

/-- The sender and the block of a call. -/
structure Msg where
  sender : Address
  blockNumber : Nat

/-- The storage the constructor leaves, over the tokens as they are. -/
def initState (here owner : Address) (husky : HuskyToken) (tokens : Address → StakeToken)
    (devaddr : Address) (huskyPerBlock startBlock bonusLockUpBps bonusEndBlock : Nat) : State :=
  { here
    owner
    husky
    tokens
    badgeRelayer := 0
    badgePoints := none
    complexOracle := none
    lastMultiplier := 0
    devaddr
    huskyPerBlock
    bonusMultiplier := 0
    bonusEndBlock
    bonusLockUpBps
    poolLength := 0
    poolInfo := fun _ => {}
    userInfo := fun _ _ => {}
    totalAllocPoint := 0
    startBlock
    accruals := []
    settledAt := fun _ _ => 0 }

namespace State

/-! ## Reading and writing -/

/-- `poolInfo[_pid]`, which reverts past the end of the array. -/
def poolAt (s : State) (pid : Nat) : Result PoolInfo :=
  if pid < s.poolLength then .ok (s.poolInfo pid) else .error ""

/-- `poolInfo[pid] = pool` -/
def setPoolInfo (s : State) (pid : Nat) (pool : PoolInfo) : State :=
  { s with poolInfo := Function.update s.poolInfo pid pool }

/-- `userInfo[pid][user] = info` -/
def setUserInfo (s : State) (pid : Nat) (user : Address) (info : UserInfo) : State :=
  { s with
    userInfo := Function.update s.userInfo pid
      (Function.update (s.userInfo pid) user info) }

/-- Another stake token was called. -/
def setToken (s : State) (token : Address) (t : StakeToken) : State :=
  { s with tokens := Function.update s.tokens token t }

/-- HUSKY was called. -/
def setHusky (s : State) (husky : HuskyToken) : State := { s with husky }

/-- A call of HUSKY. -/
def onHusky (f : HuskyToken → Result HuskyToken) (s : State) : Result State := do
  let husky ← f s.husky
  return s.setHusky husky

/-- `IERC20(token).balanceOf(address(this))` -/
def stakeBalance (s : State) (token : Address) : Nat :=
  if token = s.husky.here then s.husky.balanceOf s.here
  else (s.tokens token).balanceOf s.here

/-- `safeTransferFrom` of a stake token, which may be HUSKY itself. -/
def stakeTransferFrom (blockNumber : Nat) (token holder : Address) (amount : Nat) (s : State) :
    Result State :=
  if token = s.husky.here then
    s.onHusky (·.transferFrom s.here blockNumber holder s.here amount)
  else do
    let t ← (s.tokens token).transferFrom s.here holder s.here amount
    return s.setToken token t

/-- `safeTransfer` of a stake token, which may be HUSKY itself. -/
def stakeTransfer (blockNumber : Nat) (token recipient : Address) (amount : Nat) (s : State) :
    Result State :=
  if token = s.husky.here then s.onHusky (·.transfer s.here blockNumber recipient amount)
  else do
    let t ← (s.tokens token).transfer s.here recipient amount
    return s.setToken token t

end State

open State

/-! ## Rewards -/

/-- The blocks of a span, those before `bonusEndBlock` counted `bonusMultiplier` times. -/
def getMultiplier (lastRewardBlock currentBlock : Nat) (s : State) : Result Nat :=
  if currentBlock ≤ s.bonusEndBlock then do
    let blocks ← SafeMath.sub currentBlock lastRewardBlock
    SafeMath.mul blocks s.bonusMultiplier
  else if lastRewardBlock ≥ s.bonusEndBlock then SafeMath.sub currentBlock lastRewardBlock
  else do
    let bonusBlocks ← SafeMath.sub s.bonusEndBlock lastRewardBlock
    let bonus ← SafeMath.mul bonusBlocks s.bonusMultiplier
    let rest ← SafeMath.sub currentBlock s.bonusEndBlock
    SafeMath.add bonus rest

/-- `multiplier.mul(huskyPerBlock).mul(pool.allocPoint).div(totalAllocPoint)` -/
def huskyReward (pool : PoolInfo) (multiplier : Nat) (s : State) : Result Nat := do
  let product ← SafeMath.mul multiplier s.huskyPerBlock
  let product ← SafeMath.mul product pool.allocPoint
  SafeMath.div product s.totalAllocPoint

/-- `acc.add(reward.mul(1e12).div(lpSupply))` -/
def addPerShare (acc reward lpSupply : Nat) : Result Nat := do
  let scaled ← SafeMath.mul reward precision
  let perShare ← SafeMath.div scaled lpSupply
  SafeMath.add acc perShare

/-- `amount.mul(acc).div(1e12).sub(debt)` -/
def earned (amount acc debt : Nat) : Result Nat := do
  let scaled ← SafeMath.mul amount acc
  let total ← SafeMath.div scaled precision
  SafeMath.sub total debt

/-- The view of a position's reward: what a settlement of this block would pay. -/
def pendingHusky (blockNumber pid : Nat) (user : Address) (s : State) : Result Nat := do
  let pool ← s.poolAt pid
  let info := s.userInfo pid user
  let lpSupply := s.stakeBalance pool.stakeToken
  let accHuskyPerShare ←
    if blockNumber > pool.lastRewardBlock ∧ lpSupply ≠ 0 then do
      let multiplier ← getMultiplier pool.lastRewardBlock blockNumber s
      let reward ← huskyReward pool multiplier s
      addPerShare pool.accHuskyPerShare reward lpSupply
    else .ok pool.accHuskyPerShare
  earned info.amount accHuskyPerShare info.rewardDebt

/-- The reward of the blocks up to `bonusEndBlock`, which lies inside the range. -/
def huskyBonusPortion (pool : PoolInfo) (s : State) : Result Nat := do
  let blocks ← SafeMath.sub s.bonusEndBlock pool.lastRewardBlock
  let product ← SafeMath.mul blocks s.bonusMultiplier
  let product ← SafeMath.mul product s.huskyPerBlock
  let product ← SafeMath.mul product pool.allocPoint
  SafeMath.div product s.totalAllocPoint

/-- `husky.lock(devaddr, amount.mul(bonusLockUpBps).div(100000))` -/
def lockDev (amount : Nat) (s : State) : Result State := do
  let product ← SafeMath.mul amount s.bonusLockUpBps
  s.onHusky (·.lock s.here s.devaddr (product / 100000))

/-- Update `accHuskyPerShareTilBonusEnd`: returns its new value and the reward that was
credited with the bonus. In the window it is set to the main accumulator; past the end
of a window the pool was last updated in, the portion up to the end is added. -/
def updateBonus (blockNumber : Nat) (pool : PoolInfo)
    (huskyReward accHuskyPerShare lpSupply : Nat) (s : State) :
    Result (Nat × Nat × State) :=
  if blockNumber ≤ s.bonusEndBlock then do
    let s ← lockDev huskyReward s
    return (accHuskyPerShare, huskyReward, s)
  else if pool.lastRewardBlock < s.bonusEndBlock then do
    let portion ← huskyBonusPortion pool s
    let s ← lockDev portion s
    let til ← addPerShare pool.accHuskyPerShareTilBonusEnd portion lpSupply
    return (til, portion, s)
  else .ok (pool.accHuskyPerShareTilBonusEnd, 0, s)

/-- `updatePool` of a pool that has stake and is behind. -/
def accruePool (blockNumber pid : Nat) (pool : PoolInfo) (lpSupply : Nat) (s : State) :
    Result State := do
  let multiplier ← getMultiplier pool.lastRewardBlock blockNumber s
  let reward ← huskyReward pool multiplier s
  let s ← s.onHusky (·.mint s.here blockNumber s.devaddr (reward / 10))
  let s ← s.onHusky (·.mint s.here blockNumber s.here reward)
  let accHuskyPerShare ← addPerShare pool.accHuskyPerShare reward lpSupply
  let (til, bonusReward, s) ← updateBonus blockNumber pool reward accHuskyPerShare lpSupply s
  let s := s.setPoolInfo pid { pool with
    accHuskyPerShare
    accHuskyPerShareTilBonusEnd := til
    lastRewardBlock := blockNumber }
  return { s with
    lastMultiplier := multiplier
    accruals :=
      { pid, fromBlock := pool.lastRewardBlock, toBlock := blockNumber, reward, bonusReward,
        lpSupply } :: s.accruals }

/-- Bring the running sums of a pool to this block; a pool without stake only moves its block. -/
def updatePool (blockNumber pid : Nat) (s : State) : Result State := do
  let pool ← s.poolAt pid
  if blockNumber ≤ pool.lastRewardBlock then return s
  else if s.stakeBalance pool.stakeToken = 0 then
    return s.setPoolInfo pid { pool with lastRewardBlock := blockNumber }
  else accruePool blockNumber pid pool (s.stakeBalance pool.stakeToken) s

/-- `updatePool` of every pool, in order. -/
def massUpdatePools (blockNumber : Nat) (s : State) : Result State :=
  (List.range s.poolLength).foldlM (fun s pid => updatePool blockNumber pid s) s

/-! ## Administration -/

variable (msg : Msg)

def onlyOwner (s : State) : Result Unit :=
  require (s.owner = msg.sender) "Ownable: caller is not the owner"

def setDev (devaddr : Address) (s : State) : Result State := do
  require (msg.sender = s.devaddr) "dev: wut?"
  return { s with devaddr }

def setHuskyPerBlock (huskyPerBlock : Nat) (s : State) : Result State := do
  onlyOwner msg s
  return { s with huskyPerBlock }

def setBadgeRelayer (badgeRelayer : Address) (s : State) : Result State := do
  onlyOwner msg s
  return { s with badgeRelayer }

def setBadgePoints (badgePoints : Option BadgePoints)
    (complexOracle : Option (Address → Nat)) (s : State) : Result State := do
  onlyOwner msg s
  return { s with badgePoints, complexOracle }

/-- The end of the bonus is in the future and its multiplier is above one. -/
def setBonus (bonusMultiplier bonusEndBlock bonusLockUpBps : Nat) (s : State) :
    Result State := do
  onlyOwner msg s
  require (bonusEndBlock > msg.blockNumber) "setBonus: bad bonusEndBlock"
  require (bonusMultiplier > 1) "setBonus: bad bonusMultiplier"
  return { s with bonusMultiplier, bonusEndBlock, bonusLockUpBps }

/-- Some pool has this stake token already. -/
def isDuplicatedPool (stakeToken : Address) (s : State) : Bool :=
  (List.range s.poolLength).any fun pid => (s.poolInfo pid).stakeToken = stakeToken

/-- `if (_withUpdate) { massUpdatePools(); }` -/
def updateIf (withUpdate : Bool) (s : State) : Result State :=
  if withUpdate then massUpdatePools msg.blockNumber s else .ok s

/-- A new pool starts at this block, or at `startBlock` if that is later. -/
def addPool (allocPoint : Nat) (stakeToken : Address) (withUpdate : Bool) (s : State) :
    Result State := do
  onlyOwner msg s
  let s ← updateIf msg withUpdate s
  require (stakeToken ≠ 0) "add: not stakeToken addr"
  require (isDuplicatedPool stakeToken s = false) "add: stakeToken dup"
  let totalAllocPoint ← SafeMath.add s.totalAllocPoint allocPoint
  let s := s.setPoolInfo s.poolLength
    { stakeToken, allocPoint, lastRewardBlock := max msg.blockNumber s.startBlock
      accHuskyPerShare := 0, accHuskyPerShareTilBonusEnd := 0 }
  return { s with totalAllocPoint, poolLength := s.poolLength + 1 }

/-- Another weight for a pool; every pool is updated before it. -/
def setPool (pid allocPoint : Nat) (s : State) : Result State := do
  onlyOwner msg s
  let s ← massUpdatePools msg.blockNumber s
  let pool ← s.poolAt pid
  let rest ← SafeMath.sub s.totalAllocPoint pool.allocPoint
  let totalAllocPoint ← SafeMath.add rest allocPoint
  return { s.setPoolInfo pid { pool with allocPoint } with totalAllocPoint }

def manualMint (recipient : Address) (amount : Nat) (s : State) : Result State := do
  onlyOwner msg s
  s.onHusky (·.manualMint s.here msg.blockNumber recipient amount)

def transferOwnership (newOwner : Address) (s : State) : Result State := do
  onlyOwner msg s
  require (newOwner ≠ 0) "Ownable: new owner is the zero address"
  return { s with owner := newOwner }

def renounceOwnership (s : State) : Result State := do
  onlyOwner msg s
  return { s with owner := 0 }

/-! ## Staking -/

/-- Pay an amount of HUSKY, or the whole balance where that is less. -/
def safeHuskyTransfer (blockNumber : Nat) (recipient : Address) (amount : Nat) (s : State) :
    Result State :=
  let huskyBal := s.husky.balanceOf s.here
  if amount > huskyBal then s.onHusky (·.transfer s.here blockNumber recipient huskyBal)
  else s.onHusky (·.transfer s.here blockNumber recipient amount)

/-- The badge points of a harvest, when both contracts are set. -/
def mintPoints (user : Address) (info : UserInfo) (pool : PoolInfo) (s : State) :
    Result State :=
  match s.complexOracle, s.badgePoints with
  | some store, some badgePoints => do
      require (store pool.stakeToken ≠ 0) "ComplexPriceOracle::getPrice: bad price data"
      let product ← SafeMath.mul info.amount (store pool.stakeToken)
      let product ← SafeMath.mul product s.lastMultiplier
      let badgePoints ← badgePoints.mint s.here user (product / 10 ^ 18)
      return { s with badgePoints := some badgePoints }
  | _, _ => .ok s

/-- Pay what a position has earned, lock the part of the bonus and mint the points. -/
def _harvest (blockNumber : Nat) (user : Address) (pid : Nat) (s : State) : Result State := do
  let pool ← s.poolAt pid
  let info := s.userInfo pid user
  require (info.amount > 0) "nothing to harvest"
  let pending ← earned info.amount pool.accHuskyPerShare info.rewardDebt
  require (pending ≤ s.husky.balanceOf s.here) "wtf not enough husky"
  let bonus ← earned info.amount pool.accHuskyPerShareTilBonusEnd info.bonusDebt
  let s ← safeHuskyTransfer blockNumber user pending s
  let product ← SafeMath.mul bonus s.bonusLockUpBps
  let s ← s.onHusky (·.lock s.here user (product / 10000))
  mintPoints user info pool s

/-- `user.rewardDebt` and `user.bonusDebt` for the amount the user now has. -/
def updateDebts (pid : Nat) (user : Address) (s : State) : Result State := do
  let pool ← s.poolAt pid
  let info := s.userInfo pid user
  let reward ← SafeMath.mul info.amount pool.accHuskyPerShare
  let bonus ← SafeMath.mul info.amount pool.accHuskyPerShareTilBonusEnd
  let s := s.setUserInfo pid user { info with
    rewardDebt := reward / precision, bonusDebt := bonus / precision }
  return { s with
    settledAt := Function.update s.settledAt pid
      (Function.update (s.settledAt pid) user s.accruals.length) }

/-- `if (user.amount > 0) _harvest(_for, _pid);` -/
def harvestStake (blockNumber : Nat) (user : Address) (pid : Nat) (s : State) : Result State :=
  if (s.userInfo pid user).amount > 0 then _harvest blockNumber user pid s else .ok s

/-- Stake for `user`; the caller becomes the funder, or already is. -/
def deposit (user : Address) (pid amount : Nat) (s : State) : Result State := do
  let pool ← s.poolAt pid
  require ((s.userInfo pid user).fundedBy = 0 ∨ (s.userInfo pid user).fundedBy = msg.sender)
    "bad sof"
  require (pool.stakeToken ≠ 0) "deposit: not accept deposit"
  let s ← updatePool msg.blockNumber pid s
  let s ← harvestStake msg.blockNumber user pid s
  let s ← s.stakeTransferFrom msg.blockNumber pool.stakeToken msg.sender amount
  let info := s.userInfo pid user
  let total ← SafeMath.add info.amount amount
  updateDebts pid user (s.setUserInfo pid user
    { info with amount := total, fundedBy := msg.sender })

/-- `if (user.amount == 0) user.fundedBy = address(0);` -/
def releaseFunder (info : UserInfo) : UserInfo :=
  if info.amount = 0 then { info with fundedBy := 0 } else info

/-- `if (pool.stakeToken != address(0)) { … safeTransfer … }` -/
def returnStake (blockNumber : Nat) (token recipient : Address) (amount : Nat) (s : State) :
    Result State :=
  if token ≠ 0 then s.stakeTransfer blockNumber token recipient amount else .ok s

/-- Only the funder takes a stake back, after its reward is paid. -/
def _withdraw (user : Address) (pid amount : Nat) (s : State) : Result State := do
  let pool ← s.poolAt pid
  require ((s.userInfo pid user).fundedBy = msg.sender) "only funder"
  require ((s.userInfo pid user).amount ≥ amount) "withdraw: not good"
  let s ← updatePool msg.blockNumber pid s
  let s ← _harvest msg.blockNumber user pid s
  let info := s.userInfo pid user
  let left ← SafeMath.sub info.amount amount
  let s ← updateDebts pid user (s.setUserInfo pid user { info with amount := left })
  returnStake msg.blockNumber pool.stakeToken msg.sender amount
    (s.setUserInfo pid user (releaseFunder (s.userInfo pid user)))

def withdraw (user : Address) (pid amount : Nat) (s : State) : Result State :=
  _withdraw msg user pid amount s

def withdrawAll (user : Address) (pid : Nat) (s : State) : Result State :=
  _withdraw msg user pid (s.userInfo pid user).amount s

/-- Settle the caller's own position, with its stake as it is. -/
def harvest (pid : Nat) (s : State) : Result State := do
  let s ← updatePool msg.blockNumber pid s
  let s ← _harvest msg.blockNumber msg.sender pid s
  updateDebts pid msg.sender s

/-- The reward is given up; `bonusDebt` stays as it is. -/
def emergencyWithdraw (pid : Nat) (s : State) : Result State := do
  let pool ← s.poolAt pid
  let info := s.userInfo pid msg.sender
  require (info.fundedBy = msg.sender) "only funder"
  let s ← s.stakeTransfer msg.blockNumber pool.stakeToken msg.sender info.amount
  return s.setUserInfo pid msg.sender { info with amount := 0, rewardDebt := 0, fundedBy := 0 }

/-! ## Badge operations -/

/-- The relayer locks HUSKY of an account into this contract. -/
def lockToOwner (account : Address) (amount : Nat) (s : State) : Result State := do
  require (msg.sender = s.badgeRelayer) "badgeRelayer: wut?"
  s.onHusky (·.lockToOwner s.here account amount)

/-- A tenth of what is unlocked goes to `devaddr`, the rest to the account. -/
def unlockFromOwner (account : Address) (amount : Nat) (s : State) : Result State := do
  require (msg.sender = s.badgeRelayer) "badgeRelayer: wut?"
  let s ← safeHuskyTransfer msg.blockNumber s.devaddr (amount / 10) s
  let rest ← SafeMath.sub amount (amount / 10)
  safeHuskyTransfer msg.blockNumber account rest s

/-! ## Entry points, and what others do with the tokens -/

inductive Op
  | setDev (devaddr : Address)
  | setHuskyPerBlock (huskyPerBlock : Nat)
  | setBadgeRelayer (relayer : Address)
  | setBadgePoints (badgePoints : Option BadgePoints)
      (complexOracle : Option (Address → Nat))
  | setBonus (bonusMultiplier bonusEndBlock bonusLockUpBps : Nat)
  | addPool (allocPoint : Nat) (stakeToken : Address) (withUpdate : Bool)
  | setPool (pid allocPoint : Nat)
  | manualMint (recipient : Address) (amount : Nat)
  | transferOwnership (newOwner : Address)
  | renounceOwnership
  | updatePool (pid : Nat)
  | massUpdatePools
  | deposit (user : Address) (pid amount : Nat)
  | withdraw (user : Address) (pid amount : Nat)
  | withdrawAll (user : Address) (pid : Nat)
  | harvest (pid : Nat)
  | emergencyWithdraw (pid : Nat)
  | lockToOwner (account : Address) (amount : Nat)
  | unlockFromOwner (account : Address) (amount : Nat)
  /-- the sender moves or approves tokens of its own, outside FairLaunch -/
  | huskyTransfer (recipient : Address) (amount : Nat)
  | huskyApprove (spender : Address) (amount : Nat)
  | tokenTransfer (token recipient : Address) (amount : Nat)
  | tokenApprove (token spender : Address) (amount : Nat)
  /-- new prices in the oracle -/
  | setPrices (store : Address → Nat)

/-- Run an operation of a stake token. -/
def onToken (token : Address) (f : StakeToken → Result StakeToken) (s : State) :
    Result State := do
  let t ← f (s.tokens token)
  return s.setToken token t

def exec : Op → State → Result State
  | .setDev devaddr => setDev msg devaddr
  | .setHuskyPerBlock huskyPerBlock => setHuskyPerBlock msg huskyPerBlock
  | .setBadgeRelayer relayer => setBadgeRelayer msg relayer
  | .setBadgePoints badgePoints complexOracle => setBadgePoints msg badgePoints complexOracle
  | .setBonus multiplier endBlock lockUpBps => setBonus msg multiplier endBlock lockUpBps
  | .addPool allocPoint stakeToken withUpdate => addPool msg allocPoint stakeToken withUpdate
  | .setPool pid allocPoint => setPool msg pid allocPoint
  | .manualMint recipient amount => manualMint msg recipient amount
  | .transferOwnership newOwner => transferOwnership msg newOwner
  | .renounceOwnership => renounceOwnership msg
  | .updatePool pid => updatePool msg.blockNumber pid
  | .massUpdatePools => massUpdatePools msg.blockNumber
  | .deposit user pid amount => deposit msg user pid amount
  | .withdraw user pid amount => withdraw msg user pid amount
  | .withdrawAll user pid => withdrawAll msg user pid
  | .harvest pid => harvest msg pid
  | .emergencyWithdraw pid => emergencyWithdraw msg pid
  | .lockToOwner account amount => lockToOwner msg account amount
  | .unlockFromOwner account amount => unlockFromOwner msg account amount
  | .huskyTransfer recipient amount =>
      onHusky (·.transfer msg.sender msg.blockNumber recipient amount)
  | .huskyApprove spender amount => onHusky (·.approve msg.sender spender amount)
  | .tokenTransfer token recipient amount =>
      onToken token (·.transfer msg.sender recipient amount)
  | .tokenApprove token spender amount => onToken token (·.approve msg.sender spender amount)
  | .setPrices store => fun s => .ok { s with complexOracle := s.complexOracle.map fun _ => store }

end Huski.FairLaunch
