import Huski.Vault.Spec
import Huski.Lib.TSys

/-!
# Runs of the vault

The transition system of the vault over an exact base token. One label is one
transaction: the message, the entry point, and what the outside answered, that
is the configuration in force, how much base token the worker sent back, its
health, and whatever the debt token and FairLaunch did to their own state `G`
(including to revert). Base token sent out is booked per recipient.

Nothing is assumed of the answers: amounts, rates and factors are arbitrary.
-/

namespace Huski.Vault

open Solidity

/-- The vault's holdings of base and native token, what it has paid to whom, and
the state of the other contracts. -/
structure Books (G : Type) where
  balance : Nat
  native : Nat
  sentToken : Address → Nat
  sentNative : Address → Nat
  others : G

/-- The calls that leave the vault's holdings alone. -/
structure Peers (G : Type) where
  safeApprove : (token spender : Address) → (value : Nat) → G → Result G
  debtTokenMint : (debtToken recipient : Address) → (amount : Nat) → G → Result G
  debtTokenBurn : (debtToken holder : Address) → (amount : Nat) → G → Result G
  debtTokenSetOkHolders : (debtToken : Address) → List Address → Bool → G → Result G
  fairLaunchDeposit : (user : Address) → (pid amount : Nat) → G → Result G
  fairLaunchWithdraw : (user : Address) → (pid amount : Nat) → G → Result G
  worker : G → Result G

/-- What the outside answers during one transaction. -/
structure Outcome (G : Type) where
  config : Config
  returned : Nat
  health : Result Nat
  peers : Peers G

variable {G : Type}

/-- The vault's storage is left. -/
def setBooks (w : World (Books G)) (b : Books G) : World (Books G) := { w with rest := b }

@[simp] theorem setBooks_vault (w : World (Books G)) (b : Books G) :
    (setBooks w b).vault = w.vault := rfl
@[simp] theorem setBooks_rest (w : World (Books G)) (b : Books G) :
    (setBooks w b).rest = b := rfl

/-- Base token arrives. -/
def receiveToken (value : Nat) : Ext (Books G) := fun w => do
  let balance ← SafeMath.add w.rest.balance value
  return setBooks w { w.rest with balance }

/-- Base token leaves; a transfer to the vault itself moves nothing. -/
def sendToken (self recipient : Address) (value : Nat) : Ext (Books G) := fun w => do
  let balance ← SafeMath.subOr w.rest.balance value "!safeTransfer"
  if recipient = self then return w
  return setBooks w { w.rest with
    balance
    sentToken := Function.update w.rest.sentToken recipient
      (w.rest.sentToken recipient + value) }

/-- Native currency leaves the vault. -/
def sendNative (recipient : Address) (value : Nat) : Ext (Books G) := fun w => do
  let native ← SafeMath.subOr w.rest.native value "!safeTransferETH"
  return setBooks w { w.rest with
    native
    sentNative := Function.update w.rest.sentNative recipient
      (w.rest.sentNative recipient + value) }

/-- A call that is about other contracts. -/
def onOthers (f : G → Result G) : Ext (Books G) := fun w => do
  let others ← f w.rest.others
  return setBooks w { w.rest with others }

/-- A call of the worker: it pays back `returned`. The vault has no such function,
so as a worker it would revert. -/
def Outcome.workerCall (o : Outcome G) (self worker : Address) : Ext (Books G) := fun w => do
  require (worker ≠ self) ""
  let w ← receiveToken o.returned w
  onOthers o.peers.worker w

/-- `withdraw` of the relayer unwraps into the vault. The vault's own `withdraw` is
locked here. -/
def Outcome.relayerWithdraw (o : Outcome G) (self : Address) (amount : Nat) : Ext (Books G) :=
  fun w => do
    require (o.config.getWNativeRelayer ≠ self) "ReentrancyGuard: reentrant call"
    return setBooks w { w.rest with native := w.rest.native + amount }

/-- The externals that answer as the outcome says and keep the token's books. -/
def Outcome.externals (o : Outcome G) (self : Address) : Externals (Books G) where
  self := self
  config _ := o.config
  myBalance w := .ok w.rest.balance
  safeTransferFrom _ _ recipient value w :=
    if recipient = self then receiveToken value w else .ok w
  safeTransfer _ recipient value := sendToken self recipient value
  safeApprove token spender value := onOthers (o.peers.safeApprove token spender value)
  safeTransferETH recipient value := sendNative recipient value
  wethDeposit value := receiveToken value
  relayerWithdraw amount := o.relayerWithdraw self amount
  debtTokenMint debtToken recipient amount :=
    onOthers (o.peers.debtTokenMint debtToken recipient amount)
  debtTokenBurn debtToken holder amount :=
    onOthers (o.peers.debtTokenBurn debtToken holder amount)
  debtTokenSetOkHolders debtToken holders isOk :=
    onOthers (o.peers.debtTokenSetOkHolders debtToken holders isOk)
  fairLaunchDeposit user pid amount := onOthers (o.peers.fairLaunchDeposit user pid amount)
  fairLaunchWithdraw user pid amount := onOthers (o.peers.fairLaunchWithdraw user pid amount)
  workerWork worker _ _ _ _ := o.workerCall self worker
  workerHealth _ _ _ := o.health
  workerLiquidate worker _ := o.workerCall self worker

/-- One transaction. The vault contains no call to itself, so it is never the
sender. -/
structure Tx (G : Type) (here : Address) where
  msg : Msg
  external : msg.sender ≠ here
  outcome : Outcome G
  call : Call

def exec (self : Address) (w : World (Books G)) (tx : Tx G self) : Result (World (Books G)) :=
  call (tx.outcome.externals self) tx.msg tx.call w

/-- The vault from the transaction that set it up. -/
def machine (G : Type) (self : Address) : TSys (World (Books G)) (Tx G self) where
  init w := (∃ msg config token debtToken, w.vault = initStorage msg config token debtToken) ∧
    w.pulls = [] ∧ w.execution = none
  step := exec self

/-! ## An outside that only pays -/

/-- The other contracts accept every call and do nothing. -/
def Peers.quiet : Peers G where
  safeApprove _ _ _ := .ok
  debtTokenMint _ _ _ := .ok
  debtTokenBurn _ _ _ := .ok
  debtTokenSetOkHolders _ _ _ := .ok
  fairLaunchDeposit _ _ _ := .ok
  fairLaunchWithdraw _ _ _ := .ok
  worker := .ok

/-- Interest at `rate` a second, a tenth of it to the reserve, a close and a kill
prize of one percent, every worker trusted. -/
def Config.flat (rate : Nat) : Config where
  minDebtSize := 0
  getInterestRate _ _ := .ok rate
  getWrappedNativeAddr := 1
  getWNativeRelayer := 2
  getFairLaunchAddr := 3
  getReservePoolBps := 1000
  getCloseBps := 100
  getKillBps := 100
  isWorker _ := true
  acceptDebt _ := .ok true
  workFactor _ _ := .ok 10000
  killFactor _ _ := .ok 10000

/-- The worker returns `returned` and values the position at `health`. -/
def Outcome.pays (rate returned health : Nat) : Outcome G :=
  { config := .flat rate, returned, health := .ok health, peers := .quiet }

/-- The vault at address 100 just set up by account 50 over base token 101. -/
def freshWorld (others : G) : World (Books G) :=
  { vault := initStorage { sender := 50, origin := 50, now := 0, blockNumber := 0 } 102 101 103
    rest := { balance := 0, native := 0, sentToken := fun _ => 0, sentNative := fun _ => 0,
              others }
    pulls := []
    execution := none }

/-- The initialized vault is an initial state. -/
theorem freshWorld_init (others : G) : (machine G 100).init (freshWorld others) :=
  ⟨⟨_, _, _, _, rfl⟩, rfl, rfl⟩

/-- The transaction of account 50 at time `now`. -/
def ownerTx (now : Nat) (outcome : Outcome G) (call : Call) : Tx G 100 :=
  { msg := { sender := 50, origin := 50, now, blockNumber := now }
    external := show (50 : Address) ≠ 100 by decide
    outcome
    call }

/-! ## The outside does not write the vault -/

/-- A call that leaves the storage of the vault as it is. -/
def SameVault {F : Type} (w w' : World F) : Prop := w'.vault = w.vault

theorem SameVault.refl {F : Type} (w : World F) : SameVault w w := rfl

theorem SameVault.trans {F : Type} {a b c : World F} (hab : SameVault a b)
    (hbc : SameVault b c) : SameVault a c :=
  Eq.trans hbc hab

variable {self : Address} {w w' : World (Books G)}

theorem receiveToken_eq_ok {value : Nat} (h : receiveToken value w = .ok w') :
    w' = setBooks w { w.rest with balance := w.rest.balance + value } := by
  simp only [receiveToken, bind_eq_ok, SafeMath.add_eq_ok, pure_eq_ok] at h
  obtain ⟨_, ⟨_, rfl⟩, rfl⟩ := h
  rfl

/-- A transfer out takes from the balance, unless to the vault itself. -/
theorem sendToken_eq_ok {recipient : Address} {value : Nat}
    (h : sendToken self recipient value w = .ok w') :
    value ≤ w.rest.balance ∧
    ((recipient = self ∧ w' = w) ∨
     (recipient ≠ self ∧ w' = setBooks w { w.rest with
        balance := w.rest.balance - value
        sentToken := Function.update w.rest.sentToken recipient
          (w.rest.sentToken recipient + value) })) := by
  simp only [sendToken, bind_eq_ok, SafeMath.subOr_eq_ok] at h
  obtain ⟨balance, ⟨hle, rfl⟩, h⟩ := h
  refine ⟨hle, ?_⟩
  split at h
  · rename_i hself
    exact .inl ⟨hself, (pure_eq_ok.mp h).symm⟩
  · rename_i hself
    exact .inr ⟨hself, (pure_eq_ok.mp h).symm⟩

/-- A payment takes from the native balance. -/
theorem sendNative_eq_ok {recipient : Address} {value : Nat}
    (h : sendNative recipient value w = .ok w') :
    value ≤ w.rest.native ∧ w' = setBooks w { w.rest with
      native := w.rest.native - value
      sentNative := Function.update w.rest.sentNative recipient
        (w.rest.sentNative recipient + value) } := by
  simp only [sendNative, bind_eq_ok, SafeMath.subOr_eq_ok, pure_eq_ok] at h
  obtain ⟨_, ⟨hle, rfl⟩, rfl⟩ := h
  exact ⟨hle, rfl⟩

/-- A call about others changes others only. -/
theorem onOthers_eq_ok {f : G → Result G} (h : onOthers f w = .ok w') :
    ∃ others, w' = setBooks w { w.rest with others } := by
  simp only [onOthers, bind_eq_ok, pure_eq_ok] at h
  obtain ⟨others, _, rfl⟩ := h
  exact ⟨others, rfl⟩

theorem relayerWithdraw_eq_ok {o : Outcome G} {amount : Nat}
    (h : o.relayerWithdraw self amount w = .ok w') :
    o.config.getWNativeRelayer ≠ self ∧
      w' = setBooks w { w.rest with native := w.rest.native + amount } := by
  simp only [Outcome.relayerWithdraw, bind_eq_ok, require_eq_ok, pure_eq_ok] at h
  obtain ⟨_, hself, rfl⟩ := h
  exact ⟨hself, rfl⟩

/-- A worker pays back what the outcome says. -/
theorem workerCall_eq_ok {o : Outcome G} {worker : Address}
    (h : o.workerCall self worker w = .ok w') :
    ∃ others, w' = setBooks w { w.rest with
      balance := w.rest.balance + o.returned, others } := by
  simp only [Outcome.workerCall, bind_eq_ok] at h
  obtain ⟨_, _, w₁, hreceive, hothers⟩ := h
  obtain rfl := receiveToken_eq_ok hreceive
  obtain ⟨others, rfl⟩ := onOthers_eq_ok hothers
  exact ⟨others, rfl⟩

/-- No answer of the outside writes the vault's storage. -/
theorem externals_sameVault (o : Outcome G) : (o.externals self).Within SameVault where
  safeTransferFrom h := by
    simp only [Outcome.externals] at h
    split at h
    · rw [receiveToken_eq_ok h]
      rfl
    · cases h
      rfl
  -- every answer of the outside writes the rest of the world only
  safeTransfer h := by
    obtain ⟨_, ⟨_, rfl⟩ | ⟨_, rfl⟩⟩ := sendToken_eq_ok h <;> rfl
  safeApprove h := by
    obtain ⟨_, rfl⟩ := onOthers_eq_ok h
    rfl
  safeTransferETH h := by
    obtain ⟨_, rfl⟩ := sendNative_eq_ok h
    rfl
  wethDeposit h := by
    rw [receiveToken_eq_ok h]
    rfl
  relayerWithdraw h := by
    obtain ⟨_, rfl⟩ := relayerWithdraw_eq_ok h
    rfl
  debtTokenMint h := by
    obtain ⟨_, rfl⟩ := onOthers_eq_ok h
    rfl
  debtTokenBurn h := by
    obtain ⟨_, rfl⟩ := onOthers_eq_ok h
    rfl
  debtTokenSetOkHolders h := by
    obtain ⟨_, rfl⟩ := onOthers_eq_ok h
    rfl
  fairLaunchDeposit h := by
    obtain ⟨_, rfl⟩ := onOthers_eq_ok h
    rfl
  fairLaunchWithdraw h := by
    obtain ⟨_, rfl⟩ := onOthers_eq_ok h
    rfl
  workerWork h := by
    obtain ⟨_, rfl⟩ := workerCall_eq_ok h
    rfl
  workerLiquidate h := by
    obtain ⟨_, rfl⟩ := workerCall_eq_ok h
    rfl

end Huski.Vault
