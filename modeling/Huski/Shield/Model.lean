import Huski.FairLaunch.Run
import Huski.Lib.EventLog
import Huski.Token.Governance

/-!
# The Shield

`Shield.sol`, the owner of FairLaunch, which in turn owns HUSKY. The Shield calls FairLaunch through
`IFairLaunchV1`. A call reaches the function with its selector, and reverts where FairLaunch has
none: the interface declares `addPool` without the symbol that the function takes.

The log holds the calls of the Shield that succeeded, the newest first.
-/

open Solidity

namespace Huski

/-- The storage of the Shield: its owner, and what it may mint. -/
structure Shield where
  here : Address
  owner : Address
  mintLimit : Nat := 8000000 * 10 ^ 18
  mintCount : Nat := 250000 * 10 ^ 18

namespace Shield

/-! ## Calls of FairLaunch -/

/-- The functions of `IFairLaunchV1` that the Shield calls. -/
inductive V1Call
  | setHuskyPerBlock (huskyPerBlock : Nat)
  | setBonus (bonusMultiplier bonusEndBlock bonusLockUpBps : Nat)
  | manualMint (recipient : Address) (amount : Nat)
  | addPool (allocPoint : Nat) (stakeToken : Address) (withUpdate : Bool)
  | setPool (pid allocPoint : Nat) (withUpdate : Bool)

/-- The selector of the function, as the interface declares it. -/
def V1Call.selector : V1Call → Nat
  | .setHuskyPerBlock .. => 0x3873218c
  | .setBonus .. => 0xfa5be8f8
  | .manualMint .. => 0xe4c5ff46
  | .addPool .. => 0x7abceffd
  | .setPool .. => 0x46ca6bea

/-- The selectors of the functions of `FairLaunch`. It has no fallback. -/
def selectors : List Nat :=
  [ -- the variables, from `husky()` to `startBlock()`
   0x8ddefaf9, 0x2187383e, 0xa599e2b3, 0x56ff5973, 0xd49e77cd, 0xf6ca9ae9, 0xa8b973a1, 0x1aed6553,
   0xcbdec1fc, 0x1526fe27, 0x93f1a40b, 0x17caf6f1, 0x48cd4cb1,
   -- `setDev`, `setHuskyPerBlock`, `setBadgeRelayer`, `setBadgePoints`, `setBonus`
   0xd477f05f, 0x3873218c, 0xb7e10a64, 0xe3732b27, 0xfa5be8f8,
   -- `addPool(string,uint256,address,bool)`, `setPool`, `isDuplicatedPool`, `poolLength`
   0x4142d267, 0x46ca6bea, 0xb03df69d, 0x081e3eda,
   -- `manualMint`, `getMultiplier`, `pendingHusky`, `massUpdatePools`, `updatePool`
   0xe4c5ff46, 0x8dbb1e3a, 0xf6e9b068, 0x630b5ba1, 0x51eb05a6,
   -- `deposit`, `withdraw`, `withdrawAll`, `harvest`, `emergencyWithdraw`
   0x0efe6a8b, 0xb5c5f672, 0xcc6dbc27, 0xddc63262, 0x5312ea8e,
   -- `lockToOwner`, `unlockFromOwner`, `owner`, `renounceOwnership`, `transferOwnership`
   0x341bedd2, 0x2827d0ba, 0x8da5cb5b, 0x715018a6, 0xf2fde38b]

/-- What the function of FairLaunch with the same signature does. -/
def V1Call.op : V1Call → FairLaunch.Op
  | .setHuskyPerBlock huskyPerBlock => .setHuskyPerBlock huskyPerBlock
  | .setBonus bonusMultiplier bonusEndBlock bonusLockUpBps =>
      .setBonus bonusMultiplier bonusEndBlock bonusLockUpBps
  | .manualMint recipient amount => .manualMint recipient amount
  | .addPool allocPoint stakeToken withUpdate => .addPool allocPoint stakeToken withUpdate
  | .setPool pid allocPoint _ => .setPool pid allocPoint

/-- A call of FairLaunch by its selector; there is no fallback. -/
def callFairLaunch (msg : FairLaunch.Msg) (c : V1Call) (f : FairLaunch.State) :
    Result FairLaunch.State :=
  if c.selector ∈ selectors then FairLaunch.exec msg c.op f else .error ""

/-! ## The contract, over FairLaunch -/

inductive Op
  | setHuskyPerBlock (huskyPerBlock : Nat)
  | setBonus (bonusMultiplier bonusEndBlock bonusLockUpBps : Nat)
  | mintWarchest (recipient : Address) (amount : Nat)
  | addPool (allocPoint : Nat) (stakeToken : Address) (withUpdate : Bool)
  | setPool (pid allocPoint : Nat) (withUpdate : Bool)
  | transferOwnership (newOwner : Address)
  | renounceOwnership

/-- The Shield and its FairLaunch. -/
abbrev Contracts := Shield × FairLaunch.State

section Functions

variable (sender : Address) (blockNumber : Nat)

def onlyOwner (c : Contracts) : Result Unit :=
  require (c.1.owner = sender) "Ownable: caller is not the owner"

/-- An external call of FairLaunch by the Shield. -/
def forward (call : V1Call) (c : Contracts) : Result Contracts := do
  let f ← callFairLaunch { sender := c.1.here, blockNumber } call c.2
  return (c.1, f)

def setHuskyPerBlock (huskyPerBlock : Nat) (c : Contracts) : Result Contracts := do
  onlyOwner sender c
  forward blockNumber (.setHuskyPerBlock huskyPerBlock) c

def setBonus (bonusMultiplier bonusEndBlock bonusLockUpBps : Nat) (c : Contracts) :
    Result Contracts := do
  onlyOwner sender c
  forward blockNumber (.setBonus bonusMultiplier bonusEndBlock bonusLockUpBps) c

/-- Up to `mintLimit`, counted from what was minted before the hand-over. -/
def mintWarchest (recipient : Address) (amount : Nat) (c : Contracts) : Result Contracts := do
  onlyOwner sender c
  let mintCount ← SafeMath.add c.1.mintCount amount
  require (mintCount ≤ c.1.mintLimit) "Shield::mintWarchest: mint exceeded mintLimit"
  let (shield, f) ← forward blockNumber (.manualMint recipient amount) c
  let mintCount ← SafeMath.add shield.mintCount amount
  return ({ shield with mintCount }, f)

/-- The event takes the index of the new pool. -/
def addPool (allocPoint : Nat) (stakeToken : Address) (withUpdate : Bool) (c : Contracts) :
    Result Contracts := do
  onlyOwner sender c
  let c ← forward blockNumber (.addPool allocPoint stakeToken withUpdate) c
  let _ ← SafeMath.sub c.2.poolLength 1
  return c

def setPool (pid allocPoint : Nat) (withUpdate : Bool) (c : Contracts) : Result Contracts := do
  onlyOwner sender c
  forward blockNumber (.setPool pid allocPoint withUpdate) c

def transferOwnership (newOwner : Address) (c : Contracts) : Result Contracts := do
  onlyOwner sender c
  require (newOwner ≠ 0) "Ownable: new owner is the zero address"
  return ({ c.1 with owner := newOwner }, c.2)

def renounceOwnership (c : Contracts) : Result Contracts := do
  onlyOwner sender c
  return ({ c.1 with owner := 0 }, c.2)

def exec : Op → Contracts → Result Contracts
  | .setHuskyPerBlock huskyPerBlock => setHuskyPerBlock sender blockNumber huskyPerBlock
  | .setBonus bonusMultiplier bonusEndBlock bonusLockUpBps =>
      setBonus sender blockNumber bonusMultiplier bonusEndBlock bonusLockUpBps
  | .mintWarchest recipient amount => mintWarchest sender blockNumber recipient amount
  | .addPool allocPoint stakeToken withUpdate =>
      addPool sender blockNumber allocPoint stakeToken withUpdate
  | .setPool pid allocPoint withUpdate => setPool sender blockNumber pid allocPoint withUpdate
  | .transferOwnership newOwner => transferOwnership sender newOwner
  | .renounceOwnership => renounceOwnership sender

end Functions

/-! ## Transactions -/

/-- A call of the Shield that succeeded. -/
structure Entry where
  sender : Address
  op : Op

/-- The three contracts, the block and the log. -/
structure World where
  shield : Shield
  fairLaunch : FairLaunch.State
  /-- of the delegations signed for HUSKY -/
  nonces : Address → Nat
  block : Nat
  log : List Entry

/-- A call of one of the three contracts. -/
inductive Call
  | shield (op : Op)
  | fairLaunch (op : FairLaunch.Op)
  | husky (op : Governance.Op)

structure Tx where
  sender : Address
  blockNumber : Nat
  timestamp : Nat
  call : Call

section Machine

variable (ecrecover : Address → Governance.Signed → Address)

def answer (tx : Tx) (w : World) : Result World :=
  match tx.call with
  | .shield op => do
      let (shield, fairLaunch) ← exec tx.sender tx.blockNumber op (w.shield, w.fairLaunch)
      return { w with shield, fairLaunch, log := { sender := tx.sender, op } :: w.log }
  | .fairLaunch op => do
      let fairLaunch ← FairLaunch.exec { sender := tx.sender, blockNumber := tx.blockNumber } op
        w.fairLaunch
      return { w with fairLaunch }
  | .husky op => do
      let g ← Governance.exec ecrecover
        { sender := tx.sender, blockNumber := tx.blockNumber, timestamp := tx.timestamp, op }
        { token := w.fairLaunch.husky, nonces := w.nonces }
      return { w with fairLaunch := w.fairLaunch.setHusky g.token, nonces := g.nonces }

/-- FairLaunch is handed over to the Shield with nothing minted by hand but what the constructor of
HUSKY minted. The two contracts send no transactions. -/
def machine : TSys World Tx where
  init w := ∃ c, FairLaunch.machine.Reachable c ∧
    c.state.husky.manualMinted = 250000 * 10 ^ 18 ∧
    c.state.husky.erc20.totalSupply ≤ HuskyToken.cap ∧
    w.shield = { here := w.shield.here, owner := w.shield.owner } ∧
    w.fairLaunch = { c.state with owner := w.shield.here } ∧ w.log = []
  step w tx := do
    require (tx.sender ≠ w.shield.here ∧ tx.sender ≠ w.fairLaunch.here) ""
    require (w.block ≤ tx.blockNumber) ""
    let w ← answer ecrecover tx w
    return { w with block := tx.blockNumber }

end Machine

/-! ## What the log tells -/

def Op.newOwner : Op → Option Address
  | .transferOwnership newOwner => some newOwner
  | .renounceOwnership => some 0
  | _ => none

/-- The owner of the Shield after the calls of a log. -/
def ownerAt (deployer : Address) (log : List Entry) : Address :=
  EventLog.lastWrite (fun e => e.op.newOwner) deployer log

def Op.minted : Op → Nat
  | .mintWarchest _ amount => amount
  | _ => 0

/-- What the calls of a log have minted. -/
def minted (log : List Entry) : Nat := (log.map fun e => e.op.minted).sum

end Shield

end Huski
