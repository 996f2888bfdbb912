import Huski.FairLaunch.Model
import Huski.Lib.Abi
import Huski.Token.LinearRelease

/-!
# FairLaunchV2

`FairLaunchV2.sol` over the FairLaunch it stakes a dummy token in. Every update and every
harvest first collects the HUSKY of that stake by depositing nothing (the hook), and the
rate at which V2 credits its own stakers is computed from the getters of V1, read through
the struct that `IFairLaunchV1` declares for them.

V1 is a part of the state, and so are HUSKY and the stake tokens, which V1 has. `accruals`
is a history variable. Events and `stakeTokens.length`, which is `poolInfo.length`, are
left out.
-/

namespace Huski.FairLaunchV2

open Solidity

/-- `ACC_HUSKY_PRECISION` -/
def precision : Nat := 10 ^ 12

/-- The stake of one account in one pool, what it has been paid, and who funded it. -/
structure UserInfo where
  amount : Nat := 0
  rewardDebt : Nat := 0
  fundedBy : Address := 0
  deriving DecidableEq

/-- One pool: its weight, its last block and the running sum of HUSKY per share. -/
structure PoolInfo where
  allocPoint : Nat := 0
  lastRewardBlock : Nat := 0
  accHuskyPerShare : Nat := 0
  deriving DecidableEq

/-- One accrual of a pool: what a share was credited for the blocks up to `toBlock`, and
the stakes it was credited to. -/
structure Accrual where
  pid : Nat
  fromBlock : Nat
  toBlock : Nat
  perShare : Nat
  amount : Address → Nat

/-- The storage of the contract, with the first FairLaunch that it is staked in. -/
structure State where
  /-- `address(this)` -/
  here : Address
  owner : Address
  /-- `FAIR_LAUNCH_V1` -/
  fairLaunchV1 : FairLaunch.State
  /-- the symbols V1 keeps of its pools -/
  symbols : Nat → List UInt8
  /-- `MASTER_PID` -/
  masterPid : Nat
  dummyToken : Address
  poolLength : Nat
  poolInfo : Nat → PoolInfo
  stakeTokens : Nat → Address
  /-- zero where a pool has no locker -/
  lockers : Nat → Address
  /-- the locker contracts -/
  lockerAt : Address → LinearRelease
  userInfo : Nat → Address → UserInfo
  totalAllocPoint : Nat
  /-- newest first -/
  accruals : List Accrual

/-- The storage the constructor leaves, over V1 and the lockers as they are. -/
def initState (here owner : Address) (fairLaunchV1 : FairLaunch.State)
    (symbols : Nat → List UInt8) (lockerAt : Address → LinearRelease) (masterPid : Nat) : State :=
  { here
    owner
    fairLaunchV1
    symbols
    masterPid
    dummyToken := 0
    poolLength := 0
    poolInfo := fun _ => {}
    stakeTokens := fun _ => 0
    lockers := fun _ => 0
    lockerAt
    userInfo := fun _ _ => {}
    totalAllocPoint := 0
    accruals := [] }

/-- The storage at an address where there is no locker: no caller is let in. -/
def noLocker : LinearRelease :=
  { fairLaunch := 0, token := 0, lockupBps := 0, startReleaseBlock := 0, endReleaseBlock := 1 }

namespace State

/-! ## Reading and writing -/

/-- `poolInfo[_pid]`, which reverts past the end of the array. -/
def poolAt (s : State) (pid : Nat) : Result PoolInfo :=
  if pid < s.poolLength then .ok (s.poolInfo pid) else .error ""

def setPoolInfo (s : State) (pid : Nat) (pool : PoolInfo) : State :=
  { s with poolInfo := Function.update s.poolInfo pid pool }

def setUserInfo (s : State) (pid : Nat) (user : Address) (info : UserInfo) : State :=
  { s with
    userInfo := Function.update s.userInfo pid
      (Function.update (s.userInfo pid) user info) }

def setV1 (s : State) (fairLaunchV1 : FairLaunch.State) : State := { s with fairLaunchV1 }

/-- A call that changes V1 or the tokens only. -/
def onV1 (f : FairLaunch.State → Result FairLaunch.State) (s : State) : Result State := do
  let v1 ← f s.fairLaunchV1
  return s.setV1 v1

/-! ## Tokens: HUSKY, or a stake token -/

/-- `IERC20(token).balanceOf(address(this))` -/
def balanceOf (s : State) (token : Address) : Nat :=
  if token = s.fairLaunchV1.husky.here then s.fairLaunchV1.husky.balanceOf s.here
  else (s.fairLaunchV1.tokens token).balanceOf s.here

/-- The HUSKY that V2 holds. -/
def huskyBalance (s : State) : Nat := s.fairLaunchV1.husky.balanceOf s.here

def safeTransfer (blockNumber : Nat) (token recipient : Address) (amount : Nat) (s : State) :
    Result State :=
  if token = s.fairLaunchV1.husky.here then
    s.onV1 (FairLaunch.State.onHusky (·.transfer s.here blockNumber recipient amount))
  else s.onV1 (FairLaunch.onToken token (·.transfer s.here recipient amount))

/-- `IERC20(token).safeTransferFrom(holder, recipient, amount)` called by `spender`. -/
def safeTransferFrom (blockNumber : Nat) (token spender holder recipient : Address)
    (amount : Nat) (s : State) : Result State :=
  if token = s.fairLaunchV1.husky.here then
    s.onV1 (FairLaunch.State.onHusky
      (·.transferFrom spender blockNumber holder recipient amount))
  else s.onV1 (FairLaunch.onToken token (·.transferFrom spender holder recipient amount))

def allowance (s : State) (token spender : Address) : Nat :=
  if token = s.fairLaunchV1.husky.here then s.fairLaunchV1.husky.erc20.allowance s.here spender
  else (s.fairLaunchV1.tokens token).ledger.allowance s.here spender

def safeApprove (token spender : Address) (amount : Nat) (s : State) : Result State := do
  require (amount = 0 ∨ s.allowance token spender = 0)
    "SafeERC20: approve from non-zero to non-zero allowance"
  if token = s.fairLaunchV1.husky.here then
    s.onV1 (FairLaunch.State.onHusky (·.approve s.here spender amount))
  else s.onV1 (FairLaunch.onToken token (·.approve s.here spender amount))

end State

open State

/-! ## Reading FairLaunch through its interface -/

/-- The members of `FairLaunch.PoolInfo` in the order that FairLaunch declares them. -/
def poolMembers (symbol : List UInt8) (pool : FairLaunch.PoolInfo) : List Abi.Value :=
  [.bytes symbol, .word pool.stakeToken.val, .word pool.allocPoint, .word pool.lastRewardBlock,
    .word pool.accHuskyPerShare, .word pool.accHuskyPerShareTilBonusEnd]

/-- `FairLaunch.poolInfo(pid)`: the public getter returns the members of the struct. -/
def poolInfoGetter (pid : Nat) (symbols : Nat → List UInt8) (v1 : FairLaunch.State) :
    Result (List Nat) := do
  let pool ← v1.poolAt pid
  return Abi.encodeTuple (poolMembers (symbols pid) pool)

/-- `IFairLaunchV1.PoolInfo`, by its words. -/
structure IPoolInfo where
  stakeToken : Nat
  allocPoint : Nat
  lastRewardBlock : Nat
  accHuskyPerShare : Nat
  accHuskyPerShareTilBonusEnd : Nat

/-- The return data as an `IFairLaunchV1.PoolInfo`: five value types, of which the first is
an address. -/
def decodePoolInfo (data : List Nat) : Result IPoolInfo := do
  let words ← Abi.decodeWords 5 data
  require (words.getD 0 0 < 2 ^ 160) ""
  return {
    stakeToken := words.getD 0 0
    allocPoint := words.getD 1 0
    lastRewardBlock := words.getD 2 0
    accHuskyPerShare := words.getD 3 0
    accHuskyPerShareTilBonusEnd := words.getD 4 0 }

/-- Solidity's own division, which reverts without a message. -/
def divide (a b : Nat) : Result Nat := do
  require (b ≠ 0) ""
  return a / b

/-- The amount of HUSKY per block. -/
def huskyPerBlock (s : State) : Result Nat := do
  let data ← poolInfoGetter s.masterPid s.symbols s.fairLaunchV1
  let pool ← decodePoolInfo data
  let product ← SafeMath.mul s.fairLaunchV1.huskyPerBlock pool.allocPoint
  divide product s.fairLaunchV1.totalAllocPoint

/-! ## Rewards -/

/-- `FAIR_LAUNCH_V1.deposit(address(this), MASTER_PID, 0)` -/
def harvestFromFairLaunchV1 (blockNumber : Nat) (s : State) : Result State :=
  s.onV1 (FairLaunch.deposit { sender := s.here, blockNumber } s.here s.masterPid 0)

/-- The blocks times the rate, the pool's weight and the precision, over the total weight. -/
def huskyReward (blockNumber : Nat) (pool : PoolInfo) (s : State) : Result Nat := do
  let blocks ← SafeMath.sub blockNumber pool.lastRewardBlock
  let rate ← huskyPerBlock s
  let product ← SafeMath.mul blocks rate
  let product ← SafeMath.mul product pool.allocPoint
  let product ← SafeMath.mul product precision
  SafeMath.div product s.totalAllocPoint

/-- `accHuskyPerShare.add(huskyReward.div(stakeTokenSupply))` -/
def addReward (acc reward stakeTokenSupply : Nat) : Result Nat := do
  let perShare ← SafeMath.div reward stakeTokenSupply
  SafeMath.add acc perShare

/-- `amount.mul(acc).div(ACC_HUSKY_PRECISION)` -/
def accumulated (amount acc : Nat) : Result Nat := do
  let product ← SafeMath.mul amount acc
  SafeMath.div product precision

/-- The view of a position's reward. -/
def pendingHusky (blockNumber pid : Nat) (user : Address) (s : State) : Result Nat := do
  let pool ← s.poolAt pid
  let info := s.userInfo pid user
  let stakeTokenSupply := s.balanceOf (s.stakeTokens pid)
  let accHuskyPerShare ←
    if blockNumber > pool.lastRewardBlock ∧ stakeTokenSupply ≠ 0 then do
      let reward ← huskyReward blockNumber pool s
      addReward pool.accHuskyPerShare reward stakeTokenSupply
    else .ok pool.accHuskyPerShare
  let total ← accumulated info.amount accHuskyPerShare
  SafeMath.sub total info.rewardDebt

/-- The state after the pool `pid` was updated to `acc` at `blockNumber`. -/
def State.accrue (s : State) (blockNumber pid acc : Nat) : State :=
  { s.setPoolInfo pid { s.poolInfo pid with
      lastRewardBlock := blockNumber, accHuskyPerShare := acc } with
    accruals :=
      { pid, fromBlock := (s.poolInfo pid).lastRewardBlock, toBlock := blockNumber
        perShare := acc - (s.poolInfo pid).accHuskyPerShare
        amount := fun user => (s.userInfo pid user).amount } :: s.accruals }

/-- Collect from the first FairLaunch, and bring the pool to this block. -/
def updatePool (blockNumber pid : Nat) (s : State) : Result State := do
  let s ← harvestFromFairLaunchV1 blockNumber s
  let pool ← s.poolAt pid
  if blockNumber > pool.lastRewardBlock then do
    let stakeTokenSupply := s.balanceOf (s.stakeTokens pid)
    let acc ←
      if stakeTokenSupply > 0 ∧ s.totalAllocPoint > 0 then do
        let reward ← huskyReward blockNumber pool s
        addReward pool.accHuskyPerShare reward stakeTokenSupply
      else .ok pool.accHuskyPerShare
    return s.accrue blockNumber pid acc
  else return s

def massUpdatePools (blockNumber : Nat) (pids : List Nat) (s : State) : Result State :=
  pids.foldlM (fun s pid => updatePool blockNumber pid s) s

/-- `_locker.lock(user, amount)` -/
def lock (blockNumber : Nat) (locker user : Address) (amount : Nat) (s : State) :
    Result State := do
  (s.lockerAt locker).onlyFairLaunch s.here
  require (user ≠ 0) "lock: no address(0)"
  let s ← s.safeTransferFrom blockNumber (s.lockerAt locker).token locker s.here locker amount
  let t ← (s.lockerAt locker).addLock user amount
  return { s with lockerAt := Function.update s.lockerAt locker t }

/-- The part of a reward that goes to the locker of the pool; returns what is left. -/
def lockReward (blockNumber pid : Nat) (user : Address) (pending : Nat) (s : State) :
    Result (Nat × State) :=
  if s.lockers pid ≠ 0 then do
    let locker := s.lockers pid
    let lockAmount ← (s.lockerAt locker).calLockAmount s.here pending
    let s ← s.safeApprove s.fairLaunchV1.husky.here locker lockAmount
    let s ← lock blockNumber locker user lockAmount s
    let rest ← SafeMath.sub pending lockAmount
    let s ← s.safeApprove s.fairLaunchV1.husky.here locker 0
    return (rest, s)
  else .ok (pending, s)

/-- The interactions of `_harvest`. -/
def payReward (blockNumber pid : Nat) (user : Address) (pending : Nat) (s : State) :
    Result State := do
  let (rest, s) ← lockReward blockNumber pid user pending s
  s.safeTransfer blockNumber s.fairLaunchV1.husky.here user rest

/-- What `_harvest` finds to be due: the whole entitlement, and the reward. -/
def due (pid : Nat) (user : Address) (s : State) : Result (Nat × Nat) := do
  let pool ← s.poolAt pid
  let info := s.userInfo pid user
  let accumulatedHusky ← accumulated info.amount pool.accHuskyPerShare
  let pending ← SafeMath.sub accumulatedHusky info.rewardDebt
  return (accumulatedHusky, pending)

/-- Collect, and pay what the position is due. -/
def _harvest (blockNumber : Nat) (user : Address) (pid : Nat) (s : State) : Result State := do
  let s ← harvestFromFairLaunchV1 blockNumber s
  let (accumulatedHusky, pending) ← due pid user s
  if pending = 0 then return s
  else do
    require (pending ≤ s.huskyBalance) "FairLaunchV2::_harvest: wtf not enough husky"
    payReward blockNumber pid user pending
      (s.setUserInfo pid user { s.userInfo pid user with rewardDebt := accumulatedHusky })

/-! ## Administration -/

variable (msg : FairLaunch.Msg)

def onlyOwner (s : State) : Result Unit :=
  require (s.owner = msg.sender) "Ownable: caller is not the owner"

/-- Stake the caller's dummy tokens in the first FairLaunch. -/
def init (dummyToken : Address) (s : State) : Result State := do
  onlyOwner msg s
  let s := { s with dummyToken }
  let balance := if dummyToken = s.fairLaunchV1.husky.here then
      s.fairLaunchV1.husky.balanceOf msg.sender
    else (s.fairLaunchV1.tokens dummyToken).balanceOf msg.sender
  let s ← s.safeTransferFrom msg.blockNumber dummyToken s.here msg.sender s.here balance
  let s ← s.safeApprove dummyToken s.fairLaunchV1.here balance
  s.onV1 (FairLaunch.deposit { sender := s.here, blockNumber := msg.blockNumber } s.here
    s.masterPid balance)

def isDuplicatedPool (stakeToken : Address) (s : State) : Bool :=
  (List.range s.poolLength).any fun pid => s.stakeTokens pid = stakeToken

/-- A new pool starts at `startBlock`, or at this block if that is later. -/
def addPool (allocPoint : Nat) (stakeToken locker : Address) (startBlock : Nat) (s : State) :
    Result State := do
  onlyOwner msg s
  require (isDuplicatedPool stakeToken s = false) "FairLaunchV2::addPool: stakeToken dup"
  let totalAllocPoint ← SafeMath.add s.totalAllocPoint allocPoint
  let s := s.setPoolInfo s.poolLength
    { allocPoint, lastRewardBlock := max msg.blockNumber startBlock, accHuskyPerShare := 0 }
  return { s with
    totalAllocPoint
    stakeTokens := Function.update s.stakeTokens s.poolLength stakeToken
    lockers := Function.update s.lockers s.poolLength locker
    poolLength := s.poolLength + 1 }

/-- Another weight, and another locker. -/
def setPool (pid allocPoint : Nat) (locker : Address) (overwrite : Bool) (s : State) :
    Result State := do
  onlyOwner msg s
  let s ← updatePool msg.blockNumber pid s
  let pool ← s.poolAt pid
  let rest ← SafeMath.sub s.totalAllocPoint pool.allocPoint
  let totalAllocPoint ← SafeMath.add rest allocPoint
  return { s.setPoolInfo pid { pool with allocPoint } with
    totalAllocPoint
    lockers := if overwrite then Function.update s.lockers pid locker else s.lockers }

def transferOwnership (newOwner : Address) (s : State) : Result State := do
  onlyOwner msg s
  require (newOwner ≠ 0) "Ownable: new owner is the zero address"
  return { s with owner := newOwner }

def renounceOwnership (s : State) : Result State := do
  onlyOwner msg s
  return { s with owner := 0 }

/-! ## Staking -/

/-- The pool is brought up to date, the reward paid, and the stake taken. -/
def deposit (user : Address) (pid amount : Nat) (s : State) : Result State := do
  let s ← harvestFromFairLaunchV1 msg.blockNumber s
  let s ← updatePool msg.blockNumber pid s
  let pool ← s.poolAt pid
  let info := s.userInfo pid user
  require (info.fundedBy = 0 ∨ info.fundedBy = msg.sender) "FairLaunchV2::deposit: bad sof"
  let total ← SafeMath.add info.amount amount
  let product ← SafeMath.mul amount pool.accHuskyPerShare
  let rewardDebt ← SafeMath.add info.rewardDebt (product / precision)
  let s := s.setUserInfo pid user
    { amount := total, rewardDebt
      fundedBy := if info.fundedBy = 0 then msg.sender else info.fundedBy }
  s.safeTransferFrom msg.blockNumber (s.stakeTokens pid) s.here msg.sender s.here amount

/-- Only the funder takes a stake back. -/
def withdraw (user : Address) (pid amount : Nat) (s : State) : Result State := do
  let s ← updatePool msg.blockNumber pid s
  let pool ← s.poolAt pid
  require ((s.userInfo pid user).fundedBy = msg.sender) "FairLaunchV2::withdraw: only funder"
  require ((s.userInfo pid user).amount ≥ amount) "FairLaunchV2::withdraw: not good"
  let s ← _harvest msg.blockNumber user pid s
  let info := s.userInfo pid user
  let product ← SafeMath.mul amount pool.accHuskyPerShare
  let rewardDebt ← SafeMath.sub info.rewardDebt (product / precision)
  let left ← SafeMath.sub info.amount amount
  let s := s.setUserInfo pid user
    { amount := left, rewardDebt, fundedBy := if left = 0 then 0 else info.fundedBy }
  s.safeTransfer msg.blockNumber (s.stakeTokens pid) msg.sender amount

/-- Settle the caller's own position. -/
def harvest (pid : Nat) (s : State) : Result State := do
  let s ← updatePool msg.blockNumber pid s
  _harvest msg.blockNumber msg.sender pid s

def emergencyWithdraw (pid : Nat) (recipient : Address) (s : State) : Result State := do
  let info := s.userInfo pid msg.sender
  require (info.fundedBy = msg.sender) "FairLaunchV2::emergencyWithdraw: only funder"
  let s := s.setUserInfo pid msg.sender {}
  require (pid < s.poolLength) ""
  s.safeTransfer msg.blockNumber (s.stakeTokens pid) recipient info.amount

/-! ## Entry points, and those of V1 -/

inductive Op
  | init (dummyToken : Address)
  | addPool (allocPoint : Nat) (stakeToken locker : Address) (startBlock : Nat)
  | setPool (pid allocPoint : Nat) (locker : Address) (overwrite : Bool)
  | transferOwnership (newOwner : Address)
  | renounceOwnership
  | massUpdatePools (pids : List Nat)
  | updatePool (pid : Nat)
  | deposit (user : Address) (pid amount : Nat)
  | withdraw (user : Address) (pid amount : Nat)
  | harvest (pid : Nat)
  | emergencyWithdraw (pid : Nat) (recipient : Address)
  /-- a call of V1, or of a token -/
  | v1 (op : FairLaunch.Op)

def exec : Op → State → Result State
  | .init dummyToken => init msg dummyToken
  | .addPool allocPoint stakeToken locker startBlock =>
      addPool msg allocPoint stakeToken locker startBlock
  | .setPool pid allocPoint locker overwrite => setPool msg pid allocPoint locker overwrite
  | .transferOwnership newOwner => transferOwnership msg newOwner
  | .renounceOwnership => renounceOwnership msg
  | .massUpdatePools pids => massUpdatePools msg.blockNumber pids
  | .updatePool pid => updatePool msg.blockNumber pid
  | .deposit user pid amount => deposit msg user pid amount
  | .withdraw user pid amount => withdraw msg user pid amount
  | .harvest pid => harvest msg pid
  | .emergencyWithdraw pid recipient => emergencyWithdraw msg pid recipient
  | .v1 op => onV1 (FairLaunch.exec msg op)

end Huski.FairLaunchV2
