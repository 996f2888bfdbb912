import Huski.Lib.BEP20
import Huski.Lib.Custodian
import Huski.Lib.TSys

/-!
# The farm

`PancakeMasterChef.sol` as functions on its storage and on the tokens that it moves: CAKE, which it
mints, SYRUP, which it mints and burns and which keeps the CAKE of the rewards, and the LP tokens.
CAKE and SYRUP belong to the farm, so that nobody else mints or burns them. Their votes, which the
farm does not read, and the events are left out. The migrator is a parameter of the call.
-/

open Solidity

namespace Huski.MasterChef

/-- `1e12`, the unit of the accumulators. -/
def precision : Nat := 10 ^ 12

/-- The stake of one account in one pool, and what it has been paid. -/
structure UserInfo where
  amount : Nat := 0
  rewardDebt : Nat := 0
  deriving DecidableEq

/-- One pool: its LP token, its weight and the running sum of CAKE per share. -/
structure PoolInfo where
  lpToken : Address := 0
  allocPoint : Nat := 0
  lastRewardBlock : Nat := 0
  accCakePerShare : Nat := 0
  deriving DecidableEq

/-- The storage of the farm at `here`, and the ledgers of the tokens. -/
structure State where
  here : Address
  cake : Address
  syrup : Address
  owner : Address
  devaddr : Address
  cakePerBlock : Nat
  bonusMultiplier : Nat
  migrator : Address
  poolLength : Nat
  poolInfo : Nat → PoolInfo
  userInfo : Nat → Address → UserInfo
  totalAllocPoint : Nat
  startBlock : Nat
  tokens : Address → ERC20

/-- The constructor; the first pool takes CAKE. -/
def initState (here cake syrup owner devaddr : Address) (cakePerBlock startBlock : Nat)
    (tokens : Address → ERC20) : State :=
  { here
    cake
    syrup
    owner
    devaddr
    cakePerBlock
    bonusMultiplier := 1
    migrator := 0
    poolLength := 1
    poolInfo := Function.update (fun _ => {}) 0
      { lpToken := cake, allocPoint := 1000, lastRewardBlock := startBlock, accCakePerShare := 0 }
    userInfo := fun _ _ => {}
    totalAllocPoint := 1000
    startBlock
    tokens }

namespace State

variable (s : State)

/-- `poolInfo[_pid]`, which reverts past the end of the array. -/
def poolAt (pid : Nat) : Result PoolInfo :=
  if pid < s.poolLength then .ok (s.poolInfo pid) else .error ""

def setPoolInfo (pid : Nat) (pool : PoolInfo) : State :=
  { s with poolInfo := Function.update s.poolInfo pid pool }

def setUserInfo (pid : Nat) (user : Address) (info : UserInfo) : State :=
  { s with userInfo := Function.update s.userInfo pid (Function.update (s.userInfo pid) user info) }

def setToken (token : Address) (t : ERC20) : State :=
  { s with tokens := Function.update s.tokens token t }

/-- A call of a token. -/
def onToken (token : Address) (f : ERC20 → Result ERC20) : Result State := do
  let t ← f (s.tokens token)
  return s.setToken token t

/-- `lpToken.balanceOf(address(this))` -/
def lpSupply (pool : PoolInfo) : Nat := (s.tokens pool.lpToken).balanceOf s.here

/-- `cake.balanceOf` of the SYRUP contract -/
def cakeBal : Nat := (s.tokens s.cake).balanceOf s.syrup

end State

/-! ## Rewards -/

/-- The blocks of a span, times the multiplier. -/
def getMultiplier (s : State) (fromBlock toBlock : Nat) : Result Nat := do
  let blocks ← SafeMath.sub toBlock fromBlock
  SafeMath.mul blocks s.bonusMultiplier

/-- `multiplier.mul(cakePerBlock).mul(pool.allocPoint).div(totalAllocPoint)` -/
def cakeReward (s : State) (pool : PoolInfo) (multiplier : Nat) : Result Nat := do
  let product ← SafeMath.mul multiplier s.cakePerBlock
  let product ← SafeMath.mul product pool.allocPoint
  SafeMath.div product s.totalAllocPoint

/-- `acc.add(reward.mul(1e12).div(lpSupply))` -/
def addPerShare (acc reward lpSupply : Nat) : Result Nat := do
  let scaled ← SafeMath.mul reward precision
  let perShare ← SafeMath.div scaled lpSupply
  SafeMath.add acc perShare

/-- `user.amount.mul(acc).div(1e12).sub(user.rewardDebt)` -/
def earned (info : UserInfo) (acc : Nat) : Result Nat := do
  let scaled ← SafeMath.mul info.amount acc
  let total ← SafeMath.div scaled precision
  SafeMath.sub total info.rewardDebt

/-- The accumulator that an update would leave. -/
def accNow (s : State) (n : Nat) (pool : PoolInfo) : Result Nat :=
  if n > pool.lastRewardBlock ∧ s.lpSupply pool ≠ 0 then do
    let multiplier ← getMultiplier s pool.lastRewardBlock n
    let reward ← cakeReward s pool multiplier
    addPerShare pool.accCakePerShare reward (s.lpSupply pool)
  else .ok pool.accCakePerShare

/-- The view of a position's reward. -/
def pendingCake (s : State) (n pid : Nat) (user : Address) : Result Nat := do
  let pool ← s.poolAt pid
  let acc ← accNow s n pool
  earned (s.userInfo pid user) acc

/-- `updatePool` of a pool that has stake and is behind. -/
def accruePool (s : State) (n pid : Nat) (pool : PoolInfo) (lpSupply : Nat) : Result State := do
  let multiplier ← getMultiplier s pool.lastRewardBlock n
  let reward ← cakeReward s pool multiplier
  let s ← s.onToken s.cake (BEP20._mint · s.devaddr (reward / 10))
  let s ← s.onToken s.cake (BEP20._mint · s.syrup reward)
  let accCakePerShare ← addPerShare pool.accCakePerShare reward lpSupply
  return s.setPoolInfo pid { pool with accCakePerShare, lastRewardBlock := n }

/-- Bring the running sum of a pool to this block; the farm mints for it. -/
def updatePool (n pid : Nat) (s : State) : Result State := do
  let pool ← s.poolAt pid
  if n ≤ pool.lastRewardBlock then return s
  else if s.lpSupply pool = 0 then return s.setPoolInfo pid { pool with lastRewardBlock := n }
  else accruePool s n pid pool (s.lpSupply pool)

/-- `updatePool` of every pool, in order. -/
def massUpdatePools (n : Nat) (s : State) : Result State :=
  (List.range s.poolLength).foldlM (fun s pid => updatePool n pid s) s

/-- `safeCakeTransfer` of the SYRUP contract -/
def safeCakeTransfer (recipient : Address) (amount : Nat) (s : State) : Result State :=
  if amount > s.cakeBal then s.onToken s.cake (BEP20._transfer · s.syrup recipient s.cakeBal)
  else s.onToken s.cake (BEP20._transfer · s.syrup recipient amount)

/-! ## Administration -/

section Calls

-- the sender of the call and its block
variable (sender : Address) (n : Nat)

def onlyOwner (s : State) : Result Unit :=
  require (s.owner = sender) "Ownable: caller is not the owner"

def updateMultiplier (multiplierNumber : Nat) (s : State) : Result State := do
  onlyOwner sender s
  return { s with bonusMultiplier := multiplierNumber }

/-- The sum over the pools after the first one. -/
def otherPoints (s : State) : Result Nat :=
  (List.range' 1 (s.poolLength - 1)).foldlM
    (fun points pid => SafeMath.add points (s.poolInfo pid).allocPoint) 0

/-- The first pool gets a third of the points of the others. -/
def updateStakingPool (s : State) : Result State := do
  let points ← otherPoints s
  if points ≠ 0 then do
    let rest ← SafeMath.sub s.totalAllocPoint (s.poolInfo 0).allocPoint
    let totalAllocPoint ← SafeMath.add rest (points / 3)
    return { s.setPoolInfo 0 { s.poolInfo 0 with allocPoint := points / 3 } with totalAllocPoint }
  else return s

/-- `if (_withUpdate) { massUpdatePools(); }` -/
def updateIf (withUpdate : Bool) (s : State) : Result State :=
  if withUpdate then massUpdatePools n s else .ok s

/-- A new pool; the staking pool's weight follows. -/
def add (allocPoint : Nat) (lpToken : Address) (withUpdate : Bool) (s : State) : Result State := do
  onlyOwner sender s
  let s ← updateIf n withUpdate s
  let totalAllocPoint ← SafeMath.add s.totalAllocPoint allocPoint
  let s := s.setPoolInfo s.poolLength
    { lpToken, allocPoint, lastRewardBlock := max n s.startBlock, accCakePerShare := 0 }
  updateStakingPool { s with totalAllocPoint, poolLength := s.poolLength + 1 }

/-- Another weight; the staking pool's weight follows. -/
def set (pid allocPoint : Nat) (withUpdate : Bool) (s : State) : Result State := do
  onlyOwner sender s
  let s ← updateIf n withUpdate s
  let pool ← s.poolAt pid
  let rest ← SafeMath.sub s.totalAllocPoint pool.allocPoint
  let totalAllocPoint ← SafeMath.add rest allocPoint
  let s := { s.setPoolInfo pid { pool with allocPoint } with totalAllocPoint }
  if pool.allocPoint ≠ allocPoint then updateStakingPool s else return s

def setMigrator (migrator : Address) (s : State) : Result State := do
  onlyOwner sender s
  return { s with migrator }

/-- What the migrator does with an LP token: the ledgers it leaves, and the new token. -/
abbrev Migrator : Type := Address → (Address → ERC20) → Result ((Address → ERC20) × Address)

/-- `safeApprove` -/
def safeApprove (token spender : Address) (amount : Nat) (s : State) : Result State := do
  require (amount = 0 ∨ (s.tokens token).allowance s.here spender = 0)
    "SafeBEP20: approve from non-zero to non-zero allowance"
  s.onToken token (BEP20._approve · s.here spender amount)

/-- The migrator takes the LP tokens and gives new ones of the same number. -/
def migrate (call : Migrator) (pid : Nat) (s : State) : Result State := do
  require (s.migrator ≠ 0) "migrate: no migrator"
  let pool ← s.poolAt pid
  let bal := s.lpSupply pool
  let s ← safeApprove pool.lpToken s.migrator bal s
  let (tokens, newLpToken) ← call pool.lpToken s.tokens
  require (bal = (tokens newLpToken).balanceOf s.here) "migrate: bad"
  return { s.setPoolInfo pid { pool with lpToken := newLpToken } with tokens }

def dev (devaddr : Address) (s : State) : Result State := do
  require (sender = s.devaddr) "dev: wut?"
  return { s with devaddr }

def transferOwnership (newOwner : Address) (s : State) : Result State := do
  onlyOwner sender s
  require (newOwner ≠ 0) "Ownable: new owner is the zero address"
  return { s with owner := newOwner }

def renounceOwnership (s : State) : Result State := do
  onlyOwner sender s
  return { s with owner := 0 }

/-! ## Staking -/

/-- Pay what is pending. -/
def payPending (pid : Nat) (s : State) : Result State := do
  let pending ← earned (s.userInfo pid sender) (s.poolInfo pid).accCakePerShare
  if pending > 0 then safeCakeTransfer sender pending s else return s

/-- `if (user.amount > 0) { … }` -/
def harvestStake (pid : Nat) (s : State) : Result State :=
  if (s.userInfo pid sender).amount > 0 then payPending sender pid s else .ok s

/-- `if (_amount > 0) { … }` of a deposit -/
def putStake (pid amount : Nat) (s : State) : Result State :=
  if amount > 0 then do
    let s ← s.onToken (s.poolInfo pid).lpToken (BEP20.transferFrom · s.here sender s.here amount)
    let total ← SafeMath.add (s.userInfo pid sender).amount amount
    return s.setUserInfo pid sender { s.userInfo pid sender with amount := total }
  else .ok s

/-- `if (_amount > 0) { … }` of a withdrawal -/
def takeStake (pid amount : Nat) (s : State) : Result State :=
  if amount > 0 then do
    let left ← SafeMath.sub (s.userInfo pid sender).amount amount
    let s := s.setUserInfo pid sender { s.userInfo pid sender with amount := left }
    s.onToken (s.poolInfo pid).lpToken (BEP20._transfer · s.here sender amount)
  else .ok s

/-- `user.rewardDebt = user.amount.mul(pool.accCakePerShare).div(1e12)` -/
def updateDebt (pid : Nat) (s : State) : Result State := do
  let info := s.userInfo pid sender
  let product ← SafeMath.mul info.amount (s.poolInfo pid).accCakePerShare
  return s.setUserInfo pid sender { info with rewardDebt := product / precision }

/-- Any pool but the staking one. -/
def deposit (pid amount : Nat) (s : State) : Result State := do
  require (pid ≠ 0) "deposit CAKE by staking"
  let _ ← s.poolAt pid
  let s ← updatePool n pid s
  let s ← harvestStake sender pid s
  let s ← putStake sender pid amount s
  updateDebt sender pid s

/-- Any pool but the staking one. -/
def withdraw (pid amount : Nat) (s : State) : Result State := do
  require (pid ≠ 0) "withdraw CAKE by unstaking"
  let _ ← s.poolAt pid
  require ((s.userInfo pid sender).amount ≥ amount) "withdraw: not good"
  let s ← updatePool n pid s
  let s ← payPending sender pid s
  let s ← takeStake sender pid amount s
  updateDebt sender pid s

/-- CAKE into pool 0, for as much SYRUP. -/
def enterStaking (amount : Nat) (s : State) : Result State := do
  let s ← updatePool n 0 s
  let s ← harvestStake sender 0 s
  let s ← putStake sender 0 amount s
  let s ← updateDebt sender 0 s
  s.onToken s.syrup (BEP20._mint · sender amount)

/-- CAKE out of pool 0, for as much SYRUP. -/
def leaveStaking (amount : Nat) (s : State) : Result State := do
  require ((s.userInfo 0 sender).amount ≥ amount) "withdraw: not good"
  let s ← updatePool n 0 s
  let s ← payPending sender 0 s
  let s ← takeStake sender 0 amount s
  let s ← updateDebt sender 0 s
  s.onToken s.syrup (BEP20._burn · sender amount)

/-- The reward is given up; SYRUP is not burned. -/
def emergencyWithdraw (pid : Nat) (s : State) : Result State := do
  let pool ← s.poolAt pid
  let s ← s.onToken pool.lpToken
    (BEP20._transfer · s.here sender (s.userInfo pid sender).amount)
  return s.setUserInfo pid sender { amount := 0, rewardDebt := 0 }

end Calls

/-! ## Transactions -/

inductive Op
  | updateMultiplier (multiplierNumber : Nat)
  | add (allocPoint : Nat) (lpToken : Address) (withUpdate : Bool)
  | set (pid allocPoint : Nat) (withUpdate : Bool)
  | setMigrator (migrator : Address)
  | migrate (pid : Nat)
  | dev (devaddr : Address)
  | transferOwnership (newOwner : Address)
  | renounceOwnership
  | massUpdatePools
  | updatePool (pid : Nat)
  | deposit (pid amount : Nat)
  | withdraw (pid amount : Nat)
  | enterStaking (amount : Nat)
  | leaveStaking (amount : Nat)
  | emergencyWithdraw (pid : Nat)
  /-- calls of the tokens -/
  | transfer (token recipient : Address) (amount : Nat)
  | transferFrom (token holder recipient : Address) (amount : Nat)
  | approve (token spender : Address) (amount : Nat)
  /-- an LP token is minted -/
  | mintLp (token account : Address) (amount : Nat)

structure Tx where
  sender : Address
  blockNumber : Nat
  migrator : Migrator := fun _ _ => .error ""
  op : Op

def exec (tx : Tx) (s : State) : Result State :=
  match tx.op with
  | .updateMultiplier multiplierNumber => updateMultiplier tx.sender multiplierNumber s
  | .add allocPoint lpToken withUpdate =>
      add tx.sender tx.blockNumber allocPoint lpToken withUpdate s
  | .set pid allocPoint withUpdate => set tx.sender tx.blockNumber pid allocPoint withUpdate s
  | .setMigrator migrator => setMigrator tx.sender migrator s
  | .migrate pid => migrate tx.migrator pid s
  | .dev devaddr => dev tx.sender devaddr s
  | .transferOwnership newOwner => transferOwnership tx.sender newOwner s
  | .renounceOwnership => renounceOwnership tx.sender s
  | .massUpdatePools => massUpdatePools tx.blockNumber s
  | .updatePool pid => updatePool tx.blockNumber pid s
  | .deposit pid amount => deposit tx.sender tx.blockNumber pid amount s
  | .withdraw pid amount => withdraw tx.sender tx.blockNumber pid amount s
  | .enterStaking amount => enterStaking tx.sender tx.blockNumber amount s
  | .leaveStaking amount => leaveStaking tx.sender tx.blockNumber amount s
  | .emergencyWithdraw pid => emergencyWithdraw tx.sender pid s
  | .transfer token recipient amount =>
      s.onToken token (BEP20._transfer · tx.sender recipient amount)
  | .transferFrom token holder recipient amount =>
      s.onToken token (BEP20.transferFrom · tx.sender holder recipient amount)
  | .approve token spender amount => s.onToken token (BEP20._approve · tx.sender spender amount)
  | .mintLp token account amount => do
      require (token ≠ s.cake ∧ token ≠ s.syrup) "Ownable: caller is not the owner"
      s.onToken token (BEP20._mint · account amount)

/-- One transaction. The farm and the SYRUP contract make only the calls above. -/
def step (s : State) (tx : Tx) : Result State := do
  require (tx.sender ≠ s.here ∧ tx.sender ≠ s.syrup) ""
  exec tx s

/-- The farm as deployed, over ledgers that add up and on which neither it nor SYRUP has approved
anybody. -/
def machine : TSys State Tx where
  init s := ∃ here cake syrup owner devaddr cakePerBlock startBlock tokens,
    s = initState here cake syrup owner devaddr cakePerBlock startBlock tokens ∧
    here ≠ 0 ∧ here ≠ syrup ∧ syrup ≠ 0 ∧ cake ≠ syrup ∧
    ∀ token, (tokens token).Sound here ∧ (tokens token).Sound syrup
  step := step

end Huski.MasterChef
