import Huski.Lib.ERC20
import Huski.Lib.TSys

/-!
# Hodling HUSKY

`StronkHusky.sol` with its receipt token, `StronkHuskyRelayer.sol`, which it owns and which keeps
the principal, and the HUSKY ledger that both live on. FairLaunch and the debt token are outside:
a transaction says whether their calls revert and what HUSKY FairLaunch moves in them. All callees
are trusted and call nothing back, so that the reentrancy guard is left out. Identifiers of
positions do not wrap: no run opens 2^256 positions.
-/

open Solidity

namespace Huski.Stronk

/-- A locked amount, and the block it was paid up to. -/
structure Position where
  owner : Address := 0
  hodlAmount : Nat := 0
  blockNumber : Nat := 0
  lastRewardBlock : Nat := 0

/-- The storage of the contract, with HUSKY and the receipt token. -/
structure State where
  here : Address
  relayer : Address
  /-- `owner` of the relayer -/
  relayerOwner : Address
  fairLaunch : Address
  /-- the address of HUSKY -/
  token : Address
  husky : ERC20
  /-- the receipt token -/
  receipt : ERC20 := {}
  owner : Address
  debtToken : Address
  positions : Nat → Position := fun _ => {}
  holderPositions : Address → List Nat := fun _ => []
  nextPositionId : Nat := 1
  fairLaunchPoolId : Nat := maxWord
  minHoldSize : Nat := 5
  acceptHold : Bool := true
  lockUpInterestBps : Nat := 0
  /-- `stronkInfo` -/
  stakeToken : Address := 0
  bonusMultiplier : Nat := 0
  bonusPeriodBlock : Nat := 0

/-- What FairLaunch does with HUSKY in a call. -/
inductive Move
  | mint (account : Address) (amount : Nat)
  /-- FairLaunch pays from its own balance -/
  | pay (recipient : Address) (amount : Nat)
  /-- FairLaunch locks what it paid to `StronkHusky` -/
  | lock (amount : Nat)

/-- What the outside answers in a transaction; `none` is a revert. -/
structure Outside where
  deposit : Option (List Move) := some []
  harvest : Option (List Move) := some []
  withdraw : Option (List Move) := some []
  /-- the debt token mints, approves and takes its holders -/
  debtToken : Bool := true
  /-- the debt token burns -/
  debtBurn : Bool := true

namespace State

variable (sender : Address) (blockNumber : Nat) (o : Outside) (s : State)

/-- A move that the ledger refuses did not happen. -/
def applyMove (t : ERC20) (move : Move) : ERC20 :=
  let moved := match move with
    | .mint account amount => t._mint account amount
    | .pay recipient amount => t._transfer s.fairLaunch recipient amount
    | .lock amount => t._transfer s.here s.token amount
  match moved with
  | .ok t' => t'
  | .error _ => t

def settle (moves : List Move) : State := { s with husky := moves.foldl s.applyMove s.husky }

/-- A call of FairLaunch. -/
def callFairLaunch (moves : Option (List Move)) : Result State :=
  match moves with
  | some moves => .ok (s.settle moves)
  | none => .error ""

def onlyOwner : Result Unit := require (sender = s.owner) "Ownable: caller is not the owner"

def setPosition (id : Nat) (pos : Position) : State :=
  { s with positions := Function.update s.positions id pos }

/-- `SafeToken.safeTransfer` of HUSKY -/
def safeTransfer (src dst : Address) (amount : Nat) : Result State := do
  let husky ← lowLevel "!safeTransfer" (s.husky._transfer src dst amount)
  return { s with husky }

/-- The whole periods of a span. -/
def getMultiplier (lastRewardBlock currentBlock : Nat) : Result Nat := do
  let blocks ← SafeMath.sub currentBlock lastRewardBlock
  SafeMath.div blocks s.bonusPeriodBlock

/-- The reward of a position for `multiplier` periods. -/
def reward (multiplier hodlAmount : Nat) : Result Nat := do
  let product ← SafeMath.mul multiplier hodlAmount
  let product ← SafeMath.mul product s.lockUpInterestBps
  SafeMath.div product 10000

/-- `pos.lastRewardBlock += multiplier.mul(stronkInfo.bonusPeriodBlock)` -/
def advance (id multiplier : Nat) : Result State := do
  let blocks ← SafeMath.mul multiplier s.bonusPeriodBlock
  let pos := s.positions id
  return s.setPosition id
    { pos with lastRewardBlock := (pos.lastRewardBlock + blocks) % wordSize }

/-- `_safeHuskyTransfer`: at most what is there. -/
def _safeHuskyTransfer (dst : Address) (amount : Nat) : Result State :=
  let huskyBal := s.husky.balanceOf s.here
  if amount > huskyBal then s.safeTransfer s.here dst huskyBal
  else s.safeTransfer s.here dst amount

def _fairLaunchDeposit (amount : Nat) : Result State :=
  if amount > 0 then do
    require (o.debtToken = true) ""
    s.callFairLaunch o.deposit
  else .ok s

/-- A revert of FairLaunch is tolerated. -/
def _fairLaunchWithdraw (amount : Nat) : Result State :=
  if amount > 0 then
    match o.withdraw with
    | some moves => do
        require (o.debtBurn = true) ""
        return s.settle moves
    | none => .ok s
  else .ok s

/-- `transferHusky` of the relayer, called by `StronkHusky` -/
def transferHusky (amount : Nat) : Result State := do
  require (s.here = s.relayerOwner) "Ownable: caller is not the owner"
  s.safeTransfer s.relayer s.here amount

/-- One round of the loop of `harvestAll`; the sum is not checked. -/
def harvestOne (acc : State × Nat) (id : Nat) : Result (State × Nat) := do
  let s := acc.1
  let pos := s.positions id
  let multiplier ← s.getMultiplier pos.lastRewardBlock blockNumber
  let reward ← s.reward multiplier pos.hodlAmount
  let s ← s.advance id multiplier
  return (s, (acc.2 + reward) % wordSize)

/-- Pay every position of the sender at once. -/
def harvestAll : Result State := do
  let (s, pending) ← (s.holderPositions sender).foldlM (harvestOne blockNumber) (s, 0)
  require (pending ≤ s.husky.balanceOf s.here) "StronkHusky::harvest: not enough husky"
  s._safeHuskyTransfer sender pending

/-- Pay one position of the sender. -/
def harvest (id : Nat) : Result State := do
  let pos := s.positions id
  require (pos.owner = sender) "only owner"
  let multiplier ← s.getMultiplier pos.lastRewardBlock blockNumber
  require (pos.hodlAmount > 0 ∧ multiplier > 0) "StronkHusky::harvest: nothing to harvest"
  let s ← s.callFairLaunch o.harvest
  let pending ← s.reward multiplier pos.hodlAmount
  require (pending ≤ s.husky.balanceOf s.here) "StronkHusky::harvest: not enough husky"
  let s ← s.advance id multiplier
  s._safeHuskyTransfer sender pending

/-- The principal goes to the relayer before anything else. -/
def hodl (amount : Nat) : Result State := do
  let husky ← lowLevel "!safeTransferFrom" (s.husky.transferFrom s.here sender s.relayer amount)
  require (s.acceptHold = true) "StronkHusky::hodl: not accept more hodl"
  require (amount ≥ s.minHoldSize) "StronkHusky::hodl: too small hodl size"
  let id := s.nextPositionId
  let pos : Position :=
    { owner := sender, hodlAmount := amount, blockNumber, lastRewardBlock := blockNumber }
  let receipt ← s.receipt._mint sender amount
  let s := { s.setPosition id pos with
    husky
    receipt
    nextPositionId := id + 1
    holderPositions := Function.update s.holderPositions sender (s.holderPositions sender ++ [id]) }
  s._fairLaunchDeposit o amount

/-- The reward that is due at a withdrawal. -/
def payReward (pos : Position) (multiplier : Nat) : Result State :=
  if multiplier > 0 then do
    let s ← s.callFairLaunch o.harvest
    let pending ← s.reward multiplier pos.hodlAmount
    s._safeHuskyTransfer sender pending
  else .ok s

/-- Pay a position, burn its receipt and return its amount. -/
def withdraw (id : Nat) : Result State := do
  let pos := s.positions id
  require (pos.owner = sender) "only owner"
  let amount := pos.hodlAmount
  require (amount > 0) "StronkHusky::withdraw: not good amount"
  let multiplier ← s.getMultiplier pos.lastRewardBlock blockNumber
  let s ← s.payReward sender o pos multiplier
  let receipt ← s.receipt._burn sender amount
  let s := { s with receipt }
  let s ← s._fairLaunchWithdraw o amount
  let s ← s.transferHusky amount
  let s := s.setPosition id { s.positions id with hodlAmount := 0 }
  s.safeTransfer s.here sender amount

/-! ## Configuration -/

def updateDebtToken (debtToken : Address) (newPid : Nat) : Result State := do
  s.onlyOwner sender
  require (debtToken ≠ s.token)
    "StronkHusky::updateDebtToken: _debtToken must not be the same as token"
  require (o.debtToken = true) ""
  return { s with debtToken, fairLaunchPoolId := newPid }

def setFairLaunchPoolId (poolId : Nat) : Result State := do
  s.onlyOwner sender
  require (o.debtToken = true) "!safeApprove"
  return { s with fairLaunchPoolId := poolId }

/-- The owner's terms: the least amount, whether to accept, and the interest. -/
def setConfigs (minHoldSize : Nat) (acceptHold : Bool) (lockUpInterestBps : Nat) :
    Result State := do
  s.onlyOwner sender
  return { s with minHoldSize, acceptHold, lockUpInterestBps }

/-- The owner's terms for the periods. -/
def setStronkInfo (stakeToken : Address) (bonusMultiplier bonusPeriodBlock : Nat) :
    Result State := do
  s.onlyOwner sender
  require (stakeToken ≠ 0) "StronkHusky::setStronkInfo: not stronk stakeToken addr"
  require (bonusMultiplier > 0) "StronkHusky::setStronkInfo: bad stronk bonusMultiplier"
  return { s with stakeToken, bonusMultiplier, bonusPeriodBlock }

def transferOwnership (newOwner : Address) : Result State := do
  s.onlyOwner sender
  require (newOwner ≠ 0) "Ownable: new owner is the zero address"
  return { s with owner := newOwner }

def renounceOwnership : Result State := do
  s.onlyOwner sender
  return { s with owner := 0 }

end State

/-! ## Transactions -/

inductive Op
  | hodl (amount : Nat)
  | harvest (id : Nat)
  | harvestAll
  | withdraw (id : Nat)
  | updateDebtToken (debtToken : Address) (newPid : Nat)
  | setFairLaunchPoolId (poolId : Nat)
  | setConfigs (minHoldSize : Nat) (acceptHold : Bool) (lockUpInterestBps : Nat)
  | setStronkInfo (stakeToken : Address) (bonusMultiplier bonusPeriodBlock : Nat)
  | transferOwnership (newOwner : Address)
  | renounceOwnership
  | receiptTransfer (recipient : Address) (amount : Nat)
  | receiptTransferFrom (holder recipient : Address) (amount : Nat)
  | receiptApprove (spender : Address) (amount : Nat)
  | huskyTransfer (recipient : Address) (amount : Nat)
  | huskyTransferFrom (holder recipient : Address) (amount : Nat)
  | huskyApprove (spender : Address) (amount : Nat)
  /-- FairLaunch moves HUSKY in a call of somebody else -/
  | settle (moves : List Move)

structure Tx where
  sender : Address
  blockNumber : Nat
  outside : Outside := {}
  op : Op

structure Chain where
  block : Nat
  state : State

def onReceipt (f : ERC20 → Result ERC20) (s : State) : Result State := do
  let receipt ← f s.receipt
  return { s with receipt }

def onHusky (f : ERC20 → Result ERC20) (s : State) : Result State := do
  let husky ← f s.husky
  return { s with husky }

def exec (tx : Tx) (s : State) : Result State :=
  match tx.op with
  | .hodl amount => s.hodl tx.sender tx.blockNumber tx.outside amount
  | .harvest id => s.harvest tx.sender tx.blockNumber tx.outside id
  | .harvestAll => s.harvestAll tx.sender tx.blockNumber
  | .withdraw id => s.withdraw tx.sender tx.blockNumber tx.outside id
  | .updateDebtToken debtToken newPid => s.updateDebtToken tx.sender tx.outside debtToken newPid
  | .setFairLaunchPoolId poolId => s.setFairLaunchPoolId tx.sender tx.outside poolId
  | .setConfigs minHoldSize acceptHold lockUpInterestBps =>
      s.setConfigs tx.sender minHoldSize acceptHold lockUpInterestBps
  | .setStronkInfo stakeToken bonusMultiplier bonusPeriodBlock =>
      s.setStronkInfo tx.sender stakeToken bonusMultiplier bonusPeriodBlock
  | .transferOwnership newOwner => s.transferOwnership tx.sender newOwner
  | .renounceOwnership => s.renounceOwnership tx.sender
  | .receiptTransfer recipient amount => onReceipt (·._transfer tx.sender recipient amount) s
  | .receiptTransferFrom holder recipient amount =>
      onReceipt (·.transferFrom tx.sender holder recipient amount) s
  | .receiptApprove spender amount => onReceipt (·._approve tx.sender spender amount) s
  | .huskyTransfer recipient amount => onHusky (·._transfer tx.sender recipient amount) s
  | .huskyTransferFrom holder recipient amount =>
      onHusky (·.transferFrom tx.sender holder recipient amount) s
  | .huskyApprove spender amount => onHusky (·._approve tx.sender spender amount) s
  | .settle moves => .ok (s.settle moves)

/-- One transaction; blocks do not go back. The contracts here make no transactions. -/
def mine (c : Chain) (tx : Tx) : Result Chain := do
  require (c.block ≤ tx.blockNumber) ""
  require (tx.sender ≠ c.state.here ∧ tx.sender ≠ c.state.relayer ∧ tx.sender ≠ c.state.fairLaunch)
    ""
  let state ← exec tx c.state
  return { block := tx.blockNumber, state }

/-- `initialize`, over a standard HUSKY ledger on which the relayer has approved nobody. -/
structure Initial (s : State) : Prop where
  relayer_ne_here : s.relayer ≠ s.here
  relayer_ne_fairLaunch : s.relayer ≠ s.fairLaunch
  here_ne : s.here ≠ 0
  relayer_ne : s.relayer ≠ 0
  relayerOwner : s.relayerOwner = s.here
  backed : s.husky.Backed
  supply_lt : s.husky.totalSupply < wordSize
  unapproved : ∀ spender, s.husky.allowance s.relayer spender = 0
  initialized : s = { here := s.here, relayer := s.relayer, relayerOwner := s.relayerOwner,
                      fairLaunch := s.fairLaunch, token := s.token, husky := s.husky,
                      owner := s.owner, debtToken := s.debtToken }

def machine : TSys Chain Tx where
  init c := Initial c.state
  step := mine

end Huski.Stronk
