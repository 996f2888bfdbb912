import Huski.Lib.ERC20
import Huski.Lib.SharePool

/-!
# The lending vault

`Vault.sol` as functions on its storage. What the vault calls (the base token,
the workers, the debt token, FairLaunch, its configuration) is a record of
functions on the world, `Externals`: the entry points below are written once, and
a later module decides what the outside does in a call (pay back an amount, run
FairLaunch, call the vault again).

Every function returns the world it leaves or the message it reverts with.
Events are not modelled.
-/

namespace Huski.Vault

open Solidity

/-! ## Storage -/

/-- Position identifiers are words; `nextPositionID++` wraps. -/
abbrev PositionId := Fin (2 ^ 256)

/-- `_NO_ID` -/
def noId : PositionId := -1

/-- `_NO_ADDRESS` -/
def noAddress : Address := 1

/-- `_NOT_ENTERED` and `_ENTERED` -/
inductive ExecLock
  | notEntered
  | entered
  deriving DecidableEq, Repr

/-- A leveraged position: its worker, its owner and its share of the debt. -/
structure Position where
  worker : Address := 0
  owner : Address := 0
  debtShare : Nat := 0
  serialCode : Nat := 0
  blockNumber : Nat := 0

/-- The storage of the vault, with the interest-bearing token that it is itself. -/
structure Storage where
  /-- of `ReentrancyGuardUpgradeSafe` -/
  notEntered : Bool
  /-- `_IN_EXEC_LOCK` -/
  inExecLock : ExecLock
  /-- `POSITION_ID` -/
  positionId : PositionId
  /-- `STRATEGY` -/
  strategy : Address
  owner : Address
  token : Address
  debtToken : Address
  config : Address
  positions : PositionId → Position
  holderPositions : Address → List PositionId
  nextPositionId : PositionId
  fairLaunchPoolId : Nat
  vaultDebtShare : Nat
  vaultDebtVal : Nat
  lastAccrueTime : Nat
  reservePool : Nat
  /-- the interest bearing token, of `ERC20UpgradeSafe` -/
  ibToken : ERC20

/-- The answers of `IVaultConfig`. -/
structure Config where
  minDebtSize : Nat
  getInterestRate : Nat → Nat → Result Nat
  getWrappedNativeAddr : Address
  getWNativeRelayer : Address
  getFairLaunchAddr : Address
  getReservePoolBps : Nat
  getCloseBps : Nat
  getKillBps : Nat
  isWorker : Address → Bool
  acceptDebt : Address → Result Bool
  workFactor : Address → Nat → Result Nat
  killFactor : Address → Nat → Result Nat

/-- `msg`, `tx.origin` and the block of a call. -/
structure Msg where
  sender : Address
  origin : Address
  value : Nat := 0
  now : Nat
  blockNumber : Nat

/-- The calldata of `work`: a strategy and its own argument. -/
structure WorkData where
  strategy : Address
  ext : List UInt8

/-- Which `work` is running: its caller and the strategy it recorded. -/
structure Execution where
  caller : Address
  strategy : Address
  deriving DecidableEq

/-- One transfer made by `requestFunds`. -/
structure Pull where
  token : Address
  sender : Address
  recipient : Address
  amount : Nat
  origin : Address
  during : Option Execution
  deriving DecidableEq

/-- The vault and everything else. `pulls` and `execution` are history variables:
the transfers `requestFunds` has made, and the `work` on the call stack. -/
structure World (F : Type) where
  vault : Storage
  rest : F
  pulls : List Pull
  execution : Option Execution

/-- The effect of a call that may revert. -/
abbrev Ext (F : Type) := World F → Result (World F)

/-- What the vault calls, as it calls it. -/
structure Externals (F : Type) where
  self : Address
  config : World F → Config
  myBalance : World F → Result Nat
  safeTransferFrom : (token sender recipient : Address) → (value : Nat) → Ext F
  safeTransfer : (token recipient : Address) → (value : Nat) → Ext F
  safeApprove : (token spender : Address) → (value : Nat) → Ext F
  safeTransferETH : (recipient : Address) → (value : Nat) → Ext F
  wethDeposit : (value : Nat) → Ext F
  relayerWithdraw : (amount : Nat) → Ext F
  debtTokenMint : (debtToken recipient : Address) → (amount : Nat) → Ext F
  debtTokenBurn : (debtToken holder : Address) → (amount : Nat) → Ext F
  debtTokenSetOkHolders : (debtToken : Address) → List Address → Bool → Ext F
  fairLaunchDeposit : (user : Address) → (pid amount : Nat) → Ext F
  fairLaunchWithdraw : (user : Address) → (pid amount : Nat) → Ext F
  workerWork : (worker : Address) → PositionId → (user : Address) → (debt : Nat) →
    WorkData → Ext F
  workerHealth : (worker : Address) → PositionId → World F → Result Nat
  workerLiquidate : (worker : Address) → PositionId → Ext F

variable {F : Type}

def World.setVault (w : World F) (v : Storage) : World F := { w with vault := v }

/-- The storage `initialize` leaves; its `initializer` runs once. -/
def initStorage (msg : Msg) (config token debtToken : Address) : Storage :=
  { notEntered := true
    inExecLock := .notEntered
    positionId := noId
    strategy := noAddress
    owner := msg.sender
    token
    debtToken
    config
    positions := fun _ => {}
    holderPositions := fun _ => []
    nextPositionId := 1
    fairLaunchPoolId := maxWord
    vaultDebtShare := 0
    vaultDebtVal := 0
    lastAccrueTime := msg.now
    reservePool := 0
    ibToken := {} }

/-! ## Writing one field -/

def Storage.setNotEntered (v : Storage) (notEntered : Bool) : Storage := { v with notEntered }

def Storage.setInExecLock (v : Storage) (inExecLock : ExecLock) : Storage :=
  { v with inExecLock }

def Storage.setIbToken (v : Storage) (ibToken : ERC20) : Storage := { v with ibToken }

def Storage.setReservePool (v : Storage) (reservePool : Nat) : Storage :=
  { v with reservePool }

def Storage.setDebtToken (v : Storage) (debtToken : Address) (fairLaunchPoolId : Nat) :
    Storage :=
  { v with debtToken, fairLaunchPoolId }

def Storage.setPosition (v : Storage) (id : PositionId) (pos : Position) : Storage :=
  { v with positions := Function.update v.positions id pos }

def Storage.setDebtShare (v : Storage) (id : PositionId) (debtShare : Nat) : Storage :=
  v.setPosition id { v.positions id with debtShare }

/-! ## Debt shares -/

/-- The value of debt shares; one for one where there are none. -/
def debtShareToVal (v : Storage) (debtShare : Nat) : Result Nat :=
  if v.vaultDebtShare = 0 then .ok debtShare
  else do
    let product ← SafeMath.mul debtShare v.vaultDebtVal
    SafeMath.div product v.vaultDebtShare

/-- The shares of a debt value; one for one where there are none. -/
def debtValToShare (v : Storage) (debtVal : Nat) : Result Nat :=
  if v.vaultDebtShare = 0 then .ok debtVal
  else do
    let product ← SafeMath.mul debtVal v.vaultDebtShare
    SafeMath.div product v.vaultDebtVal

/-- The position owes `debtVal` more. -/
def _addDebt (id : PositionId) (debtVal : Nat) (v : Storage) : Result Storage := do
  let debtShare ← debtValToShare v debtVal
  let share ← SafeMath.add (v.positions id).debtShare debtShare
  let vaultDebtShare ← SafeMath.add v.vaultDebtShare debtShare
  let vaultDebtVal ← SafeMath.add v.vaultDebtVal debtVal
  return { v.setDebtShare id share with vaultDebtShare, vaultDebtVal }

/-- Returns the debt value that was cleared. -/
def _removeDebt (id : PositionId) (v : Storage) : Result (Nat × Storage) :=
  let debtShare := (v.positions id).debtShare
  if debtShare > 0 then do
    let debtVal ← debtShareToVal v debtShare
    let vaultDebtShare ← SafeMath.sub v.vaultDebtShare debtShare
    let vaultDebtVal ← SafeMath.sub v.vaultDebtVal debtVal
    return (debtVal, { v.setDebtShare id 0 with vaultDebtShare, vaultDebtVal })
  else .ok (0, v)

/-! ## Modifiers -/

variable (ext : Externals F) (msg : Msg)

/-- Contracts may not call. -/
def onlyEOA : Result Unit := require (msg.sender = msg.origin) "Vault::onlyEoa: not eoa"

def onlyOwner (w : World F) : Result Unit :=
  require (w.vault.owner = msg.sender) "Ownable: caller is not the owner"

/-- The modifier of `ReentrancyGuardUpgradeSafe`. -/
def nonReentrant (body : Ext F) : Ext F := fun w => do
  require (w.vault.notEntered = true) "ReentrancyGuard: reentrant call"
  let w ← body (w.setVault (w.vault.setNotEntered false))
  return w.setVault (w.vault.setNotEntered true)

/-- Native currency is wrapped; other tokens are pulled from the sender. -/
def transferTokenToVault (value : Nat) : Ext F := fun w =>
  if msg.value ≠ 0 then do
    require (w.vault.token = (ext.config w).getWrappedNativeAddr)
      "Vault::transferTokenToVault: baseToken is not wNative"
    require (value = msg.value) "Vault::transferTokenToVault: value != msg.value"
    ext.wethDeposit msg.value w
  else
    ext.safeTransferFrom w.vault.token msg.sender ext.self value w

/-- The modifier: only the strategy of the position that is being worked calls, once. -/
def inExec (body : Ext F) : Ext F := fun w => do
  require (w.vault.positionId ≠ noId) "Vault::inExec: not within execution scope"
  require (w.vault.strategy = msg.sender) "Vault::inExec: not from the strategy"
  require (w.vault.inExecLock = .notEntered) "Vault::inExec: in exec lock"
  let w ← body (w.setVault (w.vault.setInExecLock .entered))
  return w.setVault (w.vault.setInExecLock .notEntered)

/-- The interest since the last accrual, at the rate of the present utilization. -/
def pendingInterest (value : Nat) (w : World F) : Result Nat :=
  if msg.now > w.vault.lastAccrueTime then do
    let timePast ← SafeMath.sub msg.now w.vault.lastAccrueTime
    let myBalance ← ext.myBalance w
    let balance ← SafeMath.sub myBalance value
    let ratePerSec ← (ext.config w).getInterestRate w.vault.vaultDebtVal balance
    let product ← SafeMath.mul ratePerSec w.vault.vaultDebtVal
    let product ← SafeMath.mul product timePast
    SafeMath.div product (10 ^ 18)
  else .ok 0

/-- Add the pending interest to the debts, and its part to the reserve. -/
def accrue (value : Nat) : Ext F := fun w =>
  if msg.now > w.vault.lastAccrueTime then do
    let interest ← pendingInterest ext msg value w
    let product ← SafeMath.mul interest (ext.config w).getReservePoolBps
    let toReserve ← SafeMath.div product 10000
    let reservePool ← SafeMath.add w.vault.reservePool toReserve
    let vaultDebtVal ← SafeMath.add w.vault.vaultDebtVal interest
    return w.setVault { w.vault with reservePool, vaultDebtVal, lastAccrueTime := msg.now }
  else .ok w

/-! ## Lending -/

/-- What the lenders own: the balance and the debts, less the reserve. -/
def totalToken (w : World F) : Result Nat := do
  let myBalance ← ext.myBalance w
  let total ← SafeMath.add myBalance w.vault.vaultDebtVal
  SafeMath.sub total w.vault.reservePool

/-- Pay tokens, or native currency where the token wraps it. -/
def _smartSafeTransfer (recipient : Address) (amount : Nat) : Ext F := fun w =>
  if w.vault.token = (ext.config w).getWrappedNativeAddr then do
    let w ← ext.safeTransfer w.vault.token (ext.config w).getWNativeRelayer amount w
    let w ← ext.relayerWithdraw amount w
    ext.safeTransferETH recipient amount w
  else
    ext.safeTransfer w.vault.token recipient amount w

/-- `if (amount > 0) { _smartSafeTransfer(recipient, amount); }` -/
def sendPositive (recipient : Address) (amount : Nat) : Ext F := fun w =>
  if amount > 0 then _smartSafeTransfer ext recipient amount w else .ok w

/-- `total == 0 ? amountToken : amountToken.mul(totalSupply()).div(total)` -/
def depositShare (amountToken total totalSupply : Nat) : Result Nat :=
  if total = 0 then .ok amountToken
  else do
    let product ← SafeMath.mul amountToken totalSupply
    SafeMath.div product total

/-- The body of `deposit`, under the guard. -/
def _deposit (amountToken : Nat) : Ext F := fun w => do
  let held ← totalToken ext w
  let total ← SafeMath.sub held amountToken
  let share ← depositShare amountToken total w.vault.ibToken.totalSupply
  let ibToken ← w.vault.ibToken._mint msg.sender share
  require (ibToken.totalSupply > 10 ^ 17) "Vault::deposit: no tiny shares"
  return w.setVault (w.vault.setIbToken ibToken)

def deposit (amountToken : Nat) : Ext F := fun w => do
  let w ← transferTokenToVault ext msg amountToken w
  let w ← accrue ext msg amountToken w
  nonReentrant (_deposit ext msg amountToken) w

/-- The body of `withdraw`, under the guard. -/
def _withdraw (share : Nat) : Ext F := fun w => do
  let total ← totalToken ext w
  let product ← SafeMath.mul share total
  let amount ← SafeMath.div product w.vault.ibToken.totalSupply
  let ibToken ← w.vault.ibToken._burn msg.sender share
  let w ← _smartSafeTransfer ext msg.sender amount (w.setVault (w.vault.setIbToken ibToken))
  require (w.vault.ibToken.totalSupply > 10 ^ 17) "Vault::withdraw: no tiny shares"
  return w

def withdraw (share : Nat) : Ext F := fun w => do
  let w ← accrue ext msg 0 w
  nonReentrant (_withdraw ext msg share) w

/-! ## The execution scope -/

/-- The strategy draws `amount` of `targetedToken` from the owner of the position
in execution. -/
def requestFunds (targetedToken : Address) (amount : Nat) : Ext F :=
  inExec msg fun w => do
    let sender := (w.vault.positions w.vault.positionId).owner
    let w' ← ext.safeTransferFrom targetedToken sender msg.sender amount w
    let pull : Pull :=
      { token := targetedToken, sender, recipient := msg.sender, amount,
        origin := msg.origin, during := w.execution }
    return { w' with pulls := pull :: w'.pulls }

/-- The strategy labels the position that is being worked. -/
def injectSerialCode (serialCode : Nat) : Ext F :=
  inExec msg fun w =>
    let pos := w.vault.positions w.vault.positionId
    .ok (w.setVault (w.vault.setPosition w.vault.positionId { pos with serialCode }))

/-! ## Farming -/

/-- Mint debt tokens and stake them for the position's owner. -/
def _fairLaunchDeposit (id : PositionId) (amount : Nat) : Ext F := fun w =>
  if amount > 0 then do
    let w ← ext.debtTokenMint w.vault.debtToken ext.self amount w
    ext.fairLaunchDeposit (w.vault.positions id).owner w.vault.fairLaunchPoolId amount w
  else .ok w

/-- The withdrawal is a low-level call: when it reverts, the debt tokens stay. -/
def _fairLaunchWithdraw (id : PositionId) : Ext F := fun w =>
  let pos := w.vault.positions id
  if pos.debtShare > 0 then
    match ext.fairLaunchWithdraw pos.owner w.vault.fairLaunchPoolId pos.debtShare w with
    | .ok w => ext.debtTokenBurn w.vault.debtToken ext.self (w.vault.positions id).debtShare w
    | .error _ => .ok w
  else .ok w

/-- `EnumerableSet.add` -/
def addToSet (ids : List PositionId) (id : PositionId) : List PositionId :=
  if id ∈ ids then ids else ids ++ [id]

/-- The next id, for the sender and the worker. -/
def newPosition (worker : Address) (v : Storage) : Storage :=
  let id := v.nextPositionId
  { v with
    nextPositionId := id + 1
    positions := Function.update v.positions id
      { v.positions id with worker, owner := msg.sender, blockNumber := msg.blockNumber }
    holderPositions := Function.update v.holderPositions msg.sender
      (addToSet (v.holderPositions msg.sender) id) }

/-- Step 1 of `work`: a new position, or a check of the given one and its
withdrawal from FairLaunch. -/
def selectPosition (id : PositionId) (worker : Address) (w : World F) :
    Result (PositionId × World F) :=
  if id = 0 then
    .ok (w.vault.nextPositionId, w.setVault (newPosition msg worker w.vault))
  else do
    require (id < w.vault.nextPositionId) "Vault::work: bad position id"
    require ((w.vault.positions id).worker = worker) "Vault::work: bad position worker"
    require ((w.vault.positions id).owner = msg.sender) "Vault::work: not position owner"
    let w ← _fairLaunchWithdraw ext id w
    return (id, w)

/-- `POSITION_ID` and `STRATEGY` name the execution. -/
def enterScope (id : PositionId) (strategy : Address) (w : World F) : World F :=
  { w with
    vault := { w.vault with positionId := id, strategy }
    execution := some { caller := msg.sender, strategy } }

/-- They are reset after the worker returned. -/
def exitScope (w : World F) : World F :=
  { w with
    vault := { w.vault with positionId := noId, strategy := noAddress }
    execution := none }

/-- `require(loan == 0 || config.acceptDebt(worker), …)` -/
def checkLoan (worker : Address) (loan : Nat) (w : World F) : Result Unit :=
  if loan = 0 then .ok ()
  else do
    let accepted ← (ext.config w).acceptDebt worker
    require (accepted = true) "Vault::work: worker not accept more debt"

/-- Step 3 of `work`: send the funds, run the worker, and measure what came back. -/
def performWork (id : PositionId) (worker : Address) (principalAmount loan debt : Nat)
    (data : WorkData) (w : World F) : Result (Nat × World F) := do
  let sendBEP20 ← SafeMath.add principalAmount loan
  let held ← ext.myBalance w
  require (sendBEP20 ≤ held) "Vault::work: insufficient funds in the vault"
  let beforeBEP20 ← SafeMath.sub held sendBEP20
  let w ← ext.safeTransfer w.vault.token worker sendBEP20 w
  let w ← ext.workerWork worker id msg.sender debt data w
  let after ← ext.myBalance w
  let back ← SafeMath.sub after beforeBEP20
  return (back, w)

/-- Step 4 of `work`: a position left with debt has to meet the work factor. -/
def updateDebt (id : PositionId) (worker : Address) (debt : Nat) : Ext F := fun w =>
  if debt > 0 then do
    require (debt ≥ (ext.config w).minDebtSize) "Vault::work: too small debt size"
    let health ← ext.workerHealth worker id w
    let workFactor ← (ext.config w).workFactor worker debt
    let worth ← SafeMath.mul health workFactor
    let owed ← SafeMath.mul debt 10000
    require (worth ≥ owed) "Vault::work: bad work factor"
    let v ← _addDebt id debt w.vault
    _fairLaunchDeposit ext id (v.positions id).debtShare (w.setVault v)
  else .ok w

/-- `if (prize > 0) { reservePool.add(prize); }`: the sum is computed and dropped. -/
def addToReserve (reservePool prize : Nat) : Result Unit :=
  if prize > 0 then do
    let _ ← SafeMath.add reservePool prize
    return ()
  else .ok ()

/-- Step 5 of `work`. -/
def returnExcess (back lessDebt : Nat) : Ext F := fun w =>
  if back > lessDebt then do
    let excess ← SafeMath.sub back lessDebt
    let product ← SafeMath.mul excess (ext.config w).getCloseBps
    let prize ← SafeMath.div product 10000
    addToReserve w.vault.reservePool prize
    let refund ← SafeMath.sub excess prize
    _smartSafeTransfer ext msg.sender refund w
  else .ok w

/-- The body of `work`, under the guard and after the accrual. -/
def _work (id : PositionId) (worker : Address) (principalAmount loan maxReturn : Nat)
    (data : WorkData) : Ext F := fun w => do
  require (w.vault.fairLaunchPoolId ≠ maxWord) "Vault::work: poolId not set"
  let (id, w) ← selectPosition ext msg id worker w
  let w := enterScope msg id data.strategy w
  require ((ext.config w).isWorker worker = true) "Vault::work: not a worker"
  checkLoan ext worker loan w
  let (cleared, v) ← _removeDebt id w.vault
  let w := w.setVault v
  let debt ← SafeMath.add cleared loan
  let (back, w) ← performWork ext msg id worker principalAmount loan debt data w
  let lessDebt := min debt (min back maxReturn)
  let debt ← SafeMath.sub debt lessDebt
  let w ← updateDebt ext id worker debt w
  let w ← returnExcess ext msg back lessDebt w
  return exitScope w

/-- The modifiers run first: the caller, the tokens, the interest, the guard. -/
def work (id : PositionId) (worker : Address) (principalAmount loan maxReturn : Nat)
    (data : WorkData) : Ext F := fun w => do
  onlyEOA msg
  let w ← transferTokenToVault ext msg principalAmount w
  let w ← accrue ext msg principalAmount w
  nonReentrant (_work ext msg id worker principalAmount loan maxReturn data) w

/-- The body of `kill`, under the guard and after the accrual. -/
def _kill (id : PositionId) : Ext F := fun w => do
  require (w.vault.fairLaunchPoolId ≠ maxWord) "Vault::kill: poolId not set"
  require ((w.vault.positions id).debtShare > 0) "Vault::kill: no debt"
  let w ← _fairLaunchWithdraw ext id w
  let (debt, v) ← _removeDebt id w.vault
  let w := w.setVault v
  let health ← ext.workerHealth (w.vault.positions id).worker id w
  let killFactor ← (ext.config w).killFactor (w.vault.positions id).worker debt
  let worth ← SafeMath.mul health killFactor
  let owed ← SafeMath.mul debt 10000
  require (worth < owed) "Vault::kill: can't liquidate"
  let beforeToken ← ext.myBalance w
  let w ← ext.workerLiquidate (w.vault.positions id).worker id w
  let after ← ext.myBalance w
  let back ← SafeMath.sub after beforeToken
  let product ← SafeMath.mul back (ext.config w).getKillBps
  let prize ← SafeMath.div product 10000
  let rest ← SafeMath.sub back prize
  let w ← sendPositive ext msg.sender prize w
  let left := if rest > debt then rest - debt else 0
  sendPositive ext (w.vault.positions id).owner left w

def kill (id : PositionId) : Ext F := fun w => do
  onlyEOA msg
  let w ← accrue ext msg 0 w
  nonReentrant (_kill ext msg id) w

/-! ## Administration -/

def updateConfig (config : Address) : Ext F := fun w => do
  onlyOwner msg w
  return w.setVault { w.vault with config }

/-- Another debt token, held by the vault and FairLaunch only, and staked in pool `newPid`. -/
def updateDebtToken (debtToken : Address) (newPid : Nat) : Ext F := fun w => do
  onlyOwner msg w
  require (debtToken ≠ w.vault.token)
    "Vault::updateDebtToken: _debtToken must not be the same as token"
  let w ← ext.debtTokenSetOkHolders debtToken [ext.self, (ext.config w).getFairLaunchAddr] true w
  let w := w.setVault (w.vault.setDebtToken debtToken newPid)
  ext.safeApprove w.vault.debtToken (ext.config w).getFairLaunchAddr maxWord w

/-- The debt token's pool in FairLaunch. -/
def setFairLaunchPoolId (poolId : Nat) : Ext F := fun w => do
  onlyOwner msg w
  let w ← ext.safeApprove w.vault.debtToken (ext.config w).getFairLaunchAddr maxWord w
  return w.setVault { w.vault with fairLaunchPoolId := poolId }

/-- The owner takes part of the reserve out. -/
def withdrawReserve (recipient : Address) (value : Nat) : Ext F := fun w => do
  onlyOwner msg w
  nonReentrant (fun w => do
    let reservePool ← SafeMath.sub w.vault.reservePool value
    ext.safeTransfer w.vault.token recipient value
      (w.setVault (w.vault.setReservePool reservePool))) w

/-- This part of the reserve is the lenders' again. -/
def reduceReserve (value : Nat) : Ext F := fun w => do
  onlyOwner msg w
  let reservePool ← SafeMath.sub w.vault.reservePool value
  return w.setVault (w.vault.setReservePool reservePool)

/-! ## The interest bearing token and the owner -/

/-- Run an operation of the token the vault itself is. -/
def ibTokenOp (op : ERC20 → Result ERC20) : Ext F := fun w => do
  let ibToken ← op w.vault.ibToken
  return w.setVault (w.vault.setIbToken ibToken)

def transferOwnership (newOwner : Address) : Ext F := fun w => do
  onlyOwner msg w
  require (newOwner ≠ 0) "Ownable: new owner is the zero address"
  return w.setVault { w.vault with owner := newOwner }

def renounceOwnership : Ext F := fun w => do
  onlyOwner msg w
  return w.setVault { w.vault with owner := 0 }

/-- The state-changing entry points. -/
inductive Call
  | deposit (amountToken : Nat)
  | withdraw (share : Nat)
  | requestFunds (targetedToken : Address) (amount : Nat)
  | injectSerialCode (serialCode : Nat)
  | work (id : PositionId) (worker : Address) (principalAmount loan maxReturn : Nat)
      (data : WorkData)
  | kill (id : PositionId)
  | updateConfig (config : Address)
  | updateDebtToken (debtToken : Address) (newPid : Nat)
  | setFairLaunchPoolId (poolId : Nat)
  | withdrawReserve (recipient : Address) (value : Nat)
  | reduceReserve (value : Nat)
  | transfer (recipient : Address) (amount : Nat)
  | transferFrom (sender recipient : Address) (amount : Nat)
  | approve (spender : Address) (amount : Nat)
  | transferOwnership (newOwner : Address)
  | renounceOwnership

def call : Call → Ext F
  | .deposit amountToken => deposit ext msg amountToken
  | .withdraw share => withdraw ext msg share
  | .requestFunds targetedToken amount => requestFunds ext msg targetedToken amount
  | .injectSerialCode serialCode => injectSerialCode msg serialCode
  | .work id worker principalAmount loan maxReturn data =>
      work ext msg id worker principalAmount loan maxReturn data
  | .kill id => kill ext msg id
  | .updateConfig config => updateConfig msg config
  | .updateDebtToken debtToken newPid => updateDebtToken ext msg debtToken newPid
  | .setFairLaunchPoolId poolId => setFairLaunchPoolId ext msg poolId
  | .withdrawReserve recipient value => withdrawReserve ext msg recipient value
  | .reduceReserve value => reduceReserve msg value
  | .transfer recipient amount => ibTokenOp (·._transfer msg.sender recipient amount)
  | .transferFrom sender recipient amount =>
      ibTokenOp (·.transferFrom msg.sender sender recipient amount)
  | .approve spender amount => ibTokenOp (·._approve msg.sender spender amount)
  | .transferOwnership newOwner => transferOwnership msg newOwner
  | .renounceOwnership => renounceOwnership msg

end Huski.Vault
