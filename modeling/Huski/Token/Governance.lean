import Huski.Token.HuskyToken
import Huski.Lib.TSys

/-!
# HUSKY and its delegations

The rest of `HuskyToken.sol`: burning, the release of locks, `transferAll`, and delegation
by call and by signature, as the transition system of the token from its constructor on. The
account that signed a delegation is what `ecrecover` finds for its digest; the hash, the
precompile and the chain they depend on are one parameter.
-/

open Solidity

namespace HuskyToken

variable (sender : Address) (blockNumber : Nat)

/-- The storage before the constructor mints. -/
def unminted (here deployer : Address) (startReleaseBlock endReleaseBlock : Nat) : HuskyToken :=
  { here
    owner := deployer
    erc20 := {}
    totalLock := 0
    startReleaseBlock
    endReleaseBlock
    manualMinted := 0
    locks := fun _ => 0
    lastUnlockBlock := fun _ => 0
    delegates := fun _ => 0
    checkpoints := fun _ _ => {}
    numCheckpoints := fun _ => 0 }

/-- The constructor, which mints 250k to the deployer. -/
def create (here deployer : Address) (startReleaseBlock endReleaseBlock : Nat) :
    Result HuskyToken := do
  require (endReleaseBlock > startReleaseBlock) "endReleaseBlock < startReleaseBlock"
  (unminted here deployer startReleaseBlock endReleaseBlock).manualMint deployer blockNumber
    deployer
    (250000 * 10 ^ 18)

/-- The owner burns HUSKY of an account. -/
def burn (account : Address) (amount : Nat) (t : HuskyToken) : Result HuskyToken := do
  t.onlyOwner sender
  let erc20 ← t.erc20._burn account amount
  return t.setERC20 erc20

/-! ## Locks -/

/-- The part of a lock whose blocks have passed since the last unlock. -/
def canUnlockAmount (account : Address) (t : HuskyToken) : Result Nat :=
  if blockNumber < t.startReleaseBlock then .ok 0
  else if blockNumber ≥ t.endReleaseBlock then .ok (t.locks account)
  else do
    let releasedBlock ← SafeMath.sub blockNumber (t.lastUnlockBlock account)
    let blockLeft ← SafeMath.sub t.endReleaseBlock (t.lastUnlockBlock account)
    let product ← SafeMath.mul (t.locks account) releasedBlock
    SafeMath.div product blockLeft

/-- The sender takes what can be unlocked. -/
def unlock (t : HuskyToken) : Result HuskyToken := do
  require (t.locks sender > 0) "no locked HUSKYs"
  let amount ← t.canUnlockAmount blockNumber sender
  let erc20 ← t.erc20._transfer t.here sender amount
  let left ← SafeMath.sub (t.locks sender) amount
  let totalLock ← SafeMath.sub t.totalLock amount
  return { t.setERC20 erc20 with
    locks := Function.update t.locks sender left
    lastUnlockBlock := Function.update t.lastUnlockBlock sender blockNumber
    totalLock }

/-- Move all HUSKY with its locked funds to another account. -/
def transferAll (recipient : Address) (t : HuskyToken) : Result HuskyToken := do
  require (sender ≠ recipient) "no self-transferAll"
  let locked ← SafeMath.add (t.locks recipient) (t.locks sender)
  let last := max (max (t.lastUnlockBlock recipient) t.startReleaseBlock) (t.lastUnlockBlock sender)
  let erc20 ← t.erc20._transfer sender recipient (t.balanceOf sender)
  return { t.setERC20 erc20 with
    locks := Function.update (Function.update t.locks recipient locked) sender 0
    lastUnlockBlock := Function.update (Function.update t.lastUnlockBlock recipient last) sender 0 }

/-! ## Ownership and delegation -/

def transferOwnership (newOwner : Address) (t : HuskyToken) : Result HuskyToken := do
  t.onlyOwner sender
  require (newOwner ≠ 0) "Ownable: new owner is the zero address"
  return { t with owner := newOwner }

def renounceOwnership (t : HuskyToken) : Result HuskyToken := do
  t.onlyOwner sender
  return { t with owner := 0 }

/-- The votes of the delegator's balance move to the new delegatee. -/
def _delegate (delegator delegatee : Address) (t : HuskyToken) : Result HuskyToken :=
  let currentDelegate := t.delegates delegator
  let delegatorBalance := t.balanceOf delegator
  { t with delegates := Function.update t.delegates delegator delegatee }._moveDelegates
    blockNumber currentDelegate delegatee delegatorBalance

end HuskyToken

namespace Huski.Governance

/-- The token and the nonces of the delegations signed for it. -/
structure State where
  token : HuskyToken
  nonces : Address → Nat

/-- The arguments of `delegateBySig`. -/
structure Signed where
  delegatee : Address
  nonce : Nat
  expiry : Nat
  v : Nat
  r : Nat
  s : Nat

inductive Op
  | mint (recipient : Address) (amount : Nat)
  | manualMint (recipient : Address) (amount : Nat)
  | burn (account : Address) (amount : Nat)
  | transfer (recipient : Address) (amount : Nat)
  | transferFrom (holder recipient : Address) (amount : Nat)
  | approve (spender : Address) (amount : Nat)
  | lock (account : Address) (amount : Nat)
  | unlock
  | lockToOwner (account : Address) (amount : Nat)
  | transferAll (recipient : Address)
  | delegate (delegatee : Address)
  | delegateBySig (signed : Signed)
  | transferOwnership (newOwner : Address)
  | renounceOwnership

structure Chain where
  block : Nat
  state : State

structure Tx where
  sender : Address
  blockNumber : Nat
  /-- `now` -/
  timestamp : Nat
  op : Op

def State.onToken (f : HuskyToken → Result HuskyToken) (g : State) : Result State := do
  let token ← f g.token
  return { g with token }

section Machine

-- the account whose signature of a delegation for the token at the address has the given
-- `v`, `r` and `s`; zero where there is none
variable (ecrecover : Address → Signed → Address)

/-- The signer delegates by a signature of its next nonce that has not expired. -/
def delegateBySig (blockNumber timestamp : Nat) (signed : Signed) (g : State) : Result State := do
  let signatory := ecrecover g.token.here signed
  require (signatory ≠ 0) "HUSKY::delegateBySig: invalid signature"
  require (signed.nonce = g.nonces signatory) "HUSKY::delegateBySig: invalid nonce"
  require (timestamp ≤ signed.expiry) "HUSKY::delegateBySig: signature expired"
  let nonce := (g.nonces signatory + 1) % wordSize
  { g with nonces := Function.update g.nonces signatory nonce }.onToken
    (·._delegate blockNumber signatory signed.delegatee)

def exec (tx : Tx) (g : State) : Result State :=
  match tx.op with
  | .mint recipient amount => g.onToken (·.mint tx.sender tx.blockNumber recipient amount)
  | .manualMint recipient amount =>
      g.onToken (·.manualMint tx.sender tx.blockNumber recipient amount)
  | .burn account amount => g.onToken (·.burn tx.sender account amount)
  | .transfer recipient amount => g.onToken (·.transfer tx.sender tx.blockNumber recipient amount)
  | .transferFrom holder recipient amount =>
      g.onToken (·.transferFrom tx.sender tx.blockNumber holder recipient amount)
  | .approve spender amount => g.onToken (·.approve tx.sender spender amount)
  | .lock account amount => g.onToken (·.lock tx.sender account amount)
  | .unlock => g.onToken (·.unlock tx.sender tx.blockNumber)
  | .lockToOwner account amount => g.onToken (·.lockToOwner tx.sender account amount)
  | .transferAll recipient => g.onToken (·.transferAll tx.sender recipient)
  | .delegate delegatee => g.onToken (·._delegate tx.blockNumber tx.sender delegatee)
  | .delegateBySig signed => delegateBySig ecrecover tx.blockNumber tx.timestamp signed g
  | .transferOwnership newOwner => g.onToken (·.transferOwnership tx.sender newOwner)
  | .renounceOwnership => g.onToken (·.renounceOwnership tx.sender)

/-- One transaction; blocks do not go back. -/
def mine (c : Chain) (tx : Tx) : Result Chain := do
  require (c.block ≤ tx.blockNumber) ""
  let state ← exec ecrecover tx c.state
  return { block := tx.blockNumber, state }

/-- The token from its deployment, in some block after the first. -/
def machine : TSys Chain Tx where
  init c := 0 < c.block ∧ ∃ here deployer startReleaseBlock endReleaseBlock token,
    HuskyToken.create c.block here deployer startReleaseBlock endReleaseBlock = .ok token ∧
    c.state = { token, nonces := fun _ => 0 }
  step := mine ecrecover

end Machine

end Huski.Governance
