import Huski.Lib.Abi
import Huski.Lib.EventLog
import Huski.Lib.TSys

/-!
# The timelock

`Timelock.sol`. The admin queues a transaction, which is executed when its time has come; the
delay and the next admin are set by the timelock itself, as the target of such a transaction. What
the target does is a parameter: it may call the timelock again, in any way that its caller can.

The log holds the events that the contract emits, with the caller and the time, and the beginnings
of the executions, which it does not emit. A call that reverts leaves none.
-/

open Solidity

namespace Huski.Timelock

def GRACE_PERIOD : Nat := 14 * 86400
def MINIMUM_DELAY : Nat := 86400
def MAXIMUM_DELAY : Nat := 30 * 86400

/-- The arguments of `queueTransaction`, `cancelTransaction` and `executeTransaction`. -/
structure Transaction where
  target : Address
  value : Nat
  signature : List UInt8
  data : List UInt8
  eta : Nat
  deriving DecidableEq

/-- The calls that the timelock answers. -/
inductive Call
  | setDelay (delay_ : Nat)
  | acceptAdmin
  | setPendingAdmin (pendingAdmin_ : Address)
  | queueTransaction (tx : Transaction)
  | cancelTransaction (tx : Transaction)
  | executeTransaction (tx : Transaction)
  | receive

/-- What the compiler and the chain provide: the hash of encoded data, the selector of a signature,
the call that call data stand for, and the decoding of a revert message. -/
structure Platform (Hash : Type) where
  keccak256 : List Nat → Hash
  selector : List UInt8 → List UInt8
  dispatch : List UInt8 → Option Call
  decodeString : List UInt8 → Result String

/-- The storage of the contract. -/
structure Storage (Hash : Type) where
  admin : Address
  pendingAdmin : Address := 0
  delay : Nat
  admin_initialized : Bool := false
  queuedTransactions : Hash → Bool := fun _ => false
  /-- the status of the guard -/
  entered : Bool := false

/-- What the contract emits, and when an execution begins. -/
inductive Event
  | deployed (admin : Address) (delay : Nat)
  | newAdmin (newAdmin : Address)
  | newPendingAdmin (newPendingAdmin : Address)
  | newDelay (newDelay : Nat)
  | cancelTransaction (tx : Transaction)
  | queueTransaction (tx : Transaction)
  | executeTransaction (tx : Transaction)
  /-- `executeTransaction` has cleared the flag and calls the target -/
  | executing (tx : Transaction)
  deriving DecidableEq

/-- An event, and the call it comes from. -/
structure Entry where
  sender : Address
  time : Nat
  event : Event
  deriving DecidableEq

/-- The contract, the time of the block, and the log, the newest entry first. -/
structure World (Hash : Type) where
  timelock : Storage Hash
  timestamp : Nat
  log : List Entry

/-- A call of the target with value and call data: the world after it and the data it returned, or
the data it reverted with. -/
abbrev Target (Hash : Type) : Type :=
  Address → Nat → List UInt8 → World Hash → Except (List UInt8) (World Hash × List UInt8)

section Functions

variable {Hash : Type}

def World.record (w : World Hash) (sender : Address) (event : Event) : World Hash :=
  { w with log := { sender, time := w.timestamp, event } :: w.log }

def World.setTimelock (w : World Hash) (timelock : Storage Hash) : World Hash :=
  { w with timelock }

def Storage.setQueued [DecidableEq Hash] (timelock : Storage Hash) (txHash : Hash)
    (queued : Bool) : Storage Hash :=
  { timelock with
    queuedTransactions := Function.update timelock.queuedTransactions txHash queued }

/-- The members of `abi.encode(target, value, signature, data, eta)`. -/
def Transaction.members (tx : Transaction) : List Abi.Value :=
  [.word tx.target, .word tx.value, .bytes tx.signature, .bytes tx.data, .word tx.eta]

variable (P : Platform Hash)

/-- The hash of the encoded transaction. -/
def Platform.txHash (tx : Transaction) : Hash := P.keccak256 (Abi.encodeTuple tx.members)

/-- The selector of the signature, if there is one, and the data. -/
def Platform.callData (tx : Transaction) : List UInt8 :=
  if tx.signature.length = 0 then tx.data else P.selector tx.signature ++ tx.data

/-- The delay is within its bounds. -/
def constructor_ (admin_ : Address) (delay_ : Nat) : Result (Storage Hash) := do
  require (delay_ ≥ MINIMUM_DELAY) "Timelock::constructor: Delay must exceed minimum delay."
  require (delay_ ≤ MAXIMUM_DELAY) "Timelock::constructor: Delay must not exceed maximum delay."
  return { admin := admin_, delay := delay_ }

variable (this sender : Address)

/-- Only the timelock itself sets its delay. -/
def setDelay (delay_ : Nat) (w : World Hash) : Result (World Hash) := do
  require (sender = this) "Timelock::setDelay: Call must come from Timelock."
  require (delay_ ≥ MINIMUM_DELAY) "Timelock::setDelay: Delay must exceed minimum delay."
  require (delay_ ≤ MAXIMUM_DELAY) "Timelock::setDelay: Delay must not exceed maximum delay."
  return (w.setTimelock { w.timelock with delay := delay_ }).record sender (.newDelay delay_)

/-- The pending admin takes over. -/
def acceptAdmin (w : World Hash) : Result (World Hash) := do
  require (sender = w.timelock.pendingAdmin)
    "Timelock::acceptAdmin: Call must come from pendingAdmin."
  return (w.setTimelock { w.timelock with admin := sender, pendingAdmin := 0 }).record sender
    (.newAdmin sender)

/-- The first time the admin names one, afterwards the timelock itself. -/
def setPendingAdmin (pendingAdmin_ : Address) (w : World Hash) : Result (World Hash) := do
  if w.timelock.admin_initialized then
    require (sender = this) "Timelock::setPendingAdmin: Call must come from Timelock."
  else
    require (sender = w.timelock.admin)
      "Timelock::setPendingAdmin: First call must come from admin."
  return (w.setTimelock { w.timelock with
    admin_initialized := true
    pendingAdmin := pendingAdmin_ }).record sender (.newPendingAdmin pendingAdmin_)

/-- The reason of a failed call. -/
def _getRevertMsg (returnData : List UInt8) : Result String :=
  if returnData.length < 68 then .ok "Transaction reverted silently"
  else P.decodeString (returnData.drop 4)

variable [DecidableEq Hash]

/-- The admin queues, for a time after the delay. -/
def queueTransaction (tx : Transaction) (w : World Hash) : Result (World Hash) := do
  require (sender = w.timelock.admin) "Timelock::queueTransaction: Call must come from admin."
  let earliest ← SafeMath.add w.timestamp w.timelock.delay
  require (tx.eta ≥ earliest)
    "Timelock::queueTransaction: Estimated execution block must satisfy delay."
  return (w.setTimelock (w.timelock.setQueued (P.txHash tx) true)).record sender
    (.queueTransaction tx)

/-- The admin cancels. -/
def cancelTransaction (tx : Transaction) (w : World Hash) : Result (World Hash) := do
  require (sender = w.timelock.admin) "Timelock::cancelTransaction: Call must come from admin."
  return (w.setTimelock (w.timelock.setQueued (P.txHash tx) false)).record sender
    (.cancelTransaction tx)

/-- Under the guard, the flag of the transaction is cleared and the target is called. The message
of a revert is decoded from what the target returns in any case, as an argument of `require`. -/
def executeTransaction (call : Target Hash) (tx : Transaction) (w : World Hash) :
    Result (World Hash) := do
  require (w.timelock.entered = false) "ReentrancyGuard: reentrant call"
  require (sender = w.timelock.admin) "Timelock::executeTransaction: Call must come from admin."
  require (w.timelock.queuedTransactions (P.txHash tx) = true)
    "Timelock::executeTransaction: Transaction hasn't been queued."
  require (w.timestamp ≥ tx.eta)
    "Timelock::executeTransaction: Transaction hasn't surpassed time lock."
  let latest ← SafeMath.add tx.eta GRACE_PERIOD
  require (w.timestamp ≤ latest) "Timelock::executeTransaction: Transaction is stale."
  let cleared := { w.timelock.setQueued (P.txHash tx) false with entered := true }
  match call tx.target tx.value (P.callData tx)
      ((w.setTimelock cleared).record sender (.executing tx)) with
  | .error returnData => do
      let message ← _getRevertMsg P returnData
      .error message
  | .ok (w, returnData) => do
      let _ ← _getRevertMsg P returnData
      return (w.setTimelock { w.timelock with entered := false }).record sender
        (.executeTransaction tx)

/-- One call of the timelock. -/
def exec (call : Target Hash) (c : Call) (w : World Hash) : Result (World Hash) :=
  match c with
  | .setDelay delay_ => setDelay this sender delay_ w
  | .acceptAdmin => acceptAdmin sender w
  | .setPendingAdmin pendingAdmin_ => setPendingAdmin this sender pendingAdmin_ w
  | .queueTransaction tx => queueTransaction P sender tx w
  | .cancelTransaction tx => cancelTransaction P sender tx w
  | .executeTransaction tx => executeTransaction P sender call tx w
  | .receive => .ok w

end Functions

/-! ## Runs -/

section Runs

variable {Hash : Type} [DecidableEq Hash] (P : Platform Hash) (this : Address)

/-- Whoever calls: an account other than the timelock. Nobody has the address 0. -/
def Account (sender : Address) : Prop := sender ≠ this ∧ sender ≠ 0

/-- What a target may do. The timelock as the target answers the call data as a call by itself;
any other target calls the timelock, by itself or through other accounts, as often as it wants. -/
def Behaves (calls : Address → Call → World Hash → World Hash → Prop) (call : Target Hash) : Prop :=
  ∀ target value callData w w' returnData,
    call target value callData w = .ok (w', returnData) →
      if target = this then ∃ c, P.dispatch callData = some c ∧ calls this c w w'
      else Relation.ReflTransGen
        (fun w w' => ∃ sender c, Account this sender ∧ calls sender c w w') w w'

/-- The calls of the timelock, with executions nested less than `n` deep. -/
def Calls : Nat → Address → Call → World Hash → World Hash → Prop
  | 0 => fun _ _ _ _ => False
  | n + 1 => fun sender c w w' =>
      ∃ call, Behaves P this (Calls n) call ∧ exec P this sender call c w = .ok w'

/-- A call from outside, at a later time. -/
structure Message (Hash : Type) where
  sender : Address
  timestamp : Nat
  call : Call
  target : Target Hash := fun _ _ _ _ => .error []

/-- The contract as its constructor leaves it, at its address. -/
def machine : TSys (World Hash) (Message Hash) where
  init w := this ≠ 0 ∧ ∃ deployer timestamp admin_ delay_ timelock,
    constructor_ admin_ delay_ = .ok timelock ∧
      w = { timelock, timestamp
            log := [{ sender := deployer, time := timestamp, event := .deployed admin_ delay_ }] }
  step w m := do
    require (w.timestamp ≤ m.timestamp) ""
    exec P this m.sender m.target m.call { w with timestamp := m.timestamp }

/-- The caller is an account, and the target does what targets may do. -/
def Outside (_ : World Hash) (m : Message Hash) : Prop :=
  Account this m.sender ∧ ∃ n, Behaves P this (Calls P this n) m.target

end Runs

end Huski.Timelock
