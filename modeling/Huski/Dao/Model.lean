import Huski.Lib.Custodian
import Huski.Lib.TSys

/-!
# The public offerings

`PublicOffering.sol` and `PublicOfferingConfig.sol`: any number of offerings, each for the native
coin or for one standard token, that share a config with the goal, the bounds of an investment and
the investors so far. Which asset a deposit takes is decided by `msg.value`, which asset a
withdrawal pays by the token of the offering. The rounds of the price feed come with a call.

`brought`, `credited` and `withdrawn` are history variables. A standard token calls nobody back,
and native coins are only sent as the last thing of a call, so that calls do not nest.
-/

open Solidity

namespace Huski.Dao

/-- One deposit, by whom and with whose code. -/
structure Investor where
  investor : Address
  inviterCode : Nat
  amount : Nat
  deriving DecidableEq

/-- `PublicOffering.sol`; the token 0 stands for the native coin. -/
structure PublicOffering where
  owner : Address
  token : Address
  publicOfferingClosed : Bool := false
  investorBalanceOf : Address → Nat := fun _ => 0
  numberOfInvitations : Nat → Nat := fun _ => 0
  investors : List Investor := []

/-- `PublicOfferingConfig.sol` -/
structure PublicOfferingConfig where
  owner : Address
  fundingGoal : Nat := 5000000 * 10 ^ 18
  minInvestment : Nat := 1000 * 10 ^ 18
  maxInvestment : Nat := 50000 * 10 ^ 18
  raisedAmount : Nat := 0
  invested : Address → Bool := fun _ => false
  allows : Address → Bool := fun _ => false

/-- The answers of the price feed: price and time of a round, which need not exist, and the time of
the latest one. -/
structure PriceFeed where
  roundData : Nat → Option (Int × Nat) := fun _ => none
  latestTimeStamp : Nat := 0

/-- All contracts and balances. The addresses of offerings are fixed. -/
structure World where
  config : PublicOfferingConfig
  offerings : Address → Option PublicOffering
  tokens : Address → ERC20
  /-- balances of the native coin -/
  native : Address → Nat
  /-- what deposits brought to an offering, in its own asset -/
  brought : Address → Nat
  /-- the sum of `_value` over the deposits of an offering -/
  credited : Address → Nat
  /-- what the owner took -/
  withdrawn : Address → Nat

/-! ## The config -/

namespace PublicOfferingConfig

variable (sender : Address) (c : PublicOfferingConfig)

def allow : Result Unit :=
  require (c.allows sender = true) "PublicOfferingConfig::allow:Permission denied"

def onlyOwner : Result Unit := require (c.owner = sender) "Ownable: caller is not the owner"

/-- The goal is not reached by this deposit. -/
def addRaisedAmount (amount : Nat) : Result PublicOfferingConfig := do
  c.allow sender
  let total ← SafeMath.add c.raisedAmount amount
  require (total < c.fundingGoal)
    "PublicOfferingConfig::addRaisedAmount:The investment amount exceeds the total remaining investable amount"
  return { c with raisedAmount := total }

def addInvestor (investor : Address) : Result PublicOfferingConfig := do
  c.allow sender
  return { c with invested := Function.update c.invested investor true }

def setPublicOffering (publicOffering : Address) (set : Bool) : Result PublicOfferingConfig := do
  c.onlyOwner sender
  return { c with allows := Function.update c.allows publicOffering set }

def setMinInvestment (amount : Nat) : Result PublicOfferingConfig := do
  c.onlyOwner sender
  return { c with minInvestment := amount }

def setMaxInvestment (amount : Nat) : Result PublicOfferingConfig := do
  c.onlyOwner sender
  return { c with maxInvestment := amount }

/-- `transferOwnership`, or `renounceOwnership` for the owner 0. -/
def setOwner (newOwner : Address) : Result PublicOfferingConfig := do
  c.onlyOwner sender
  return { c with owner := newOwner }

end PublicOfferingConfig

/-! ## An offering -/

/-- The price of a round that is not too old. -/
def getRoundData (feed : PriceFeed) (roundID : Nat) : Result Nat :=
  match feed.roundData roundID with
  | none => .error ""
  | some (price, timeStamp) => do
      let age ← SafeMath.sub feed.latestTimeStamp timeStamp
      require (age < 3600) "PublicOffering::getRoundData:more than an hour"
      require (price > 0) "PublicOffering::getRoundData:price is negative"
      return price.toNat

/-- The value of a deposit at the price of the round. -/
def _tokenToUSD (feed : PriceFeed) (value roundID : Nat) : Result Nat := do
  let price ← getRoundData feed roundID
  let product ← SafeMath.mul price value
  return product / 10 ^ 8

/-- The offering at an address; a call of anything else is none of these. -/
def World.offeringAt (w : World) (here : Address) : Result PublicOffering :=
  match w.offerings here with
  | some offering => .ok offering
  | none => .error ""

def World.setOffering (w : World) (here : Address) (offering : PublicOffering) : World :=
  { w with offerings := Function.update w.offerings here (some offering) }

def World.setToken (w : World) (token : Address) (t : ERC20) : World :=
  { w with tokens := Function.update w.tokens token t }

/-- Native coins go from `src` to `dst`. -/
def World.sendNative (w : World) (src dst : Address) (amount : Nat) : Result World := do
  let left ← SafeMath.sub (w.native src) amount
  let native := Function.update w.native src left
  return { w with native := Function.update native dst (native dst + amount) }

/-- The balance of an offering in its own asset. -/
def World.assetOf (w : World) (here : Address) : Nat :=
  match w.offerings here with
  | some offering =>
      if offering.token = 0 then w.native here else (w.tokens offering.token).balanceOf here
  | none => 0

section Offering

variable (sender here : Address)

/-- The asset that a deposit takes, besides the native coins that came with the call. -/
def takeAsset (msgValue value : Nat) (offering : PublicOffering) (w : World) : Result World :=
  if msgValue ≠ 0 then do
    require (value = msgValue) "PublicOffering::deposit:value != msg.value"
    return w
  else do
    require (offering.token ≠ 0) "PublicOffering::deposit:token == address(0)"
    let t ← lowLevel "!safeTransferFrom"
      ((w.tokens offering.token).transferFrom here sender here value)
    return w.setToken offering.token t

/-- `numberOfInvitations[_inviterCode]++` and the other writes of a deposit. -/
def credit (amount inviterCode : Nat) (offering : PublicOffering) : PublicOffering :=
  { offering with
    investors := offering.investors ++ [{ investor := sender, inviterCode, amount }]
    numberOfInvitations := Function.update offering.numberOfInvitations inviterCode
      ((offering.numberOfInvitations inviterCode + 1) % wordSize)
    investorBalanceOf := Function.update offering.investorBalanceOf sender amount }

/-- Check the amount, take the asset, and enter the investor. -/
def deposit (msgValue : Nat) (feed : PriceFeed) (value roundID inviterCode : Nat) (w₀ : World) :
    Result World := do
  let offering ← w₀.offeringAt here
  let w ← w₀.sendNative sender here msgValue
  let amount ← _tokenToUSD feed value roundID
  require (offering.publicOfferingClosed = false)
    "PublicOffering::deposit:Public offering closed"
  require (w.config.invested sender = false) "PublicOffering::deposit:User has invested"
  let remaining ← SafeMath.sub w.config.fundingGoal w.config.raisedAmount
  require (amount ≤ remaining)
    "PublicOffering::deposit:The investment amount exceeds the total remaining investable amount"
  require (amount ≤ w.config.maxInvestment)
    "PublicOffering::deposit:The investment amount is greater than the maxInvestment"
  require (amount ≥ w.config.minInvestment)
    "PublicOffering::deposit:The investment amount is less than minInvestment"
  let w ← takeAsset sender here msgValue value offering w
  let config ← w.config.addInvestor here sender
  let config ← config.addRaisedAmount here amount
  let w := w.setOffering here (credit sender amount inviterCode offering)
  return { w with
    config
    brought := Function.update w.brought here
      (w.brought here + (w.assetOf here - w₀.assetOf here))
    credited := Function.update w.credited here (w.credited here + value) }

def PublicOffering.onlyOwner (offering : PublicOffering) : Result Unit :=
  require (offering.owner = sender) "Ownable: caller is not the owner"

/-- The asset of the offering goes to its owner, who has to take native coins. -/
def payAsset (message : String) (accepts : Bool) (amount : Nat) (offering : PublicOffering)
    (w : World) : Result World :=
  if offering.token = 0 then do
    require (accepts = true) message
    lowLevel message (w.sendNative here sender amount)
  else do
    let t ← lowLevel "!safeTransfer" ((w.tokens offering.token)._transfer here sender amount)
    return w.setToken offering.token t

def World.withdrew (w : World) (here : Address) (amount : Nat) : World :=
  { w with withdrawn := Function.update w.withdrawn here (w.withdrawn here + amount) }

/-- The owner takes part of what was raised. -/
def withdraw (accepts : Bool) (amount : Nat) (w : World) : Result World := do
  let offering ← w.offeringAt here
  offering.onlyOwner sender
  let w ← payAsset sender here "PublicOffering::withdraw:Failed to send Ether" accepts amount
    offering w
  return w.withdrew here amount

/-- The owner takes the whole balance. -/
def emergencyWithdraw (accepts : Bool) (w : World) : Result World := do
  let offering ← w.offeringAt here
  offering.onlyOwner sender
  let amount := w.assetOf here
  let w ← payAsset sender here "PublicOffering::emergencyWithdraw:Failed to send Ether" accepts
    amount offering w
  return w.withdrew here amount

def setPublicOfferingState (set : Bool) (w : World) : Result World := do
  let offering ← w.offeringAt here
  offering.onlyOwner sender
  return w.setOffering here { offering with publicOfferingClosed := set }

/-- `transferOwnership`, or `renounceOwnership` for the owner 0. -/
def setOwner (newOwner : Address) (w : World) : Result World := do
  let offering ← w.offeringAt here
  offering.onlyOwner sender
  return w.setOffering here { offering with owner := newOwner }

end Offering

/-! ## Transactions -/

inductive Op
  | deposit (here : Address) (value roundID inviterCode : Nat)
  | withdraw (here : Address) (amount : Nat)
  | emergencyWithdraw (here : Address)
  | setPublicOfferingState (here : Address) (set : Bool)
  | setOwner (here newOwner : Address)
  /-- calls of the config -/
  | addRaisedAmount (amount : Nat)
  | addInvestor (investor : Address)
  | setPublicOffering (publicOffering : Address) (set : Bool)
  | setMinInvestment (amount : Nat)
  | setMaxInvestment (amount : Nat)
  | setConfigOwner (newOwner : Address)
  /-- native coins for any address, and calls of the tokens -/
  | sendNative (dst : Address) (amount : Nat)
  | token (token : Address) (op : ERC20.Op)
  | tokenMint (token account : Address) (amount : Nat)

structure Tx where
  sender : Address
  /-- `msg.value` of a deposit; the other calls take none -/
  value : Nat := 0
  feed : PriceFeed := {}
  /-- the sender takes native coins -/
  accepts : Bool := true
  op : Op

def onConfig (f : PublicOfferingConfig → Result PublicOfferingConfig) (w : World) :
    Result World := do
  let config ← f w.config
  return { w with config }

def exec (tx : Tx) (w : World) : Result World :=
  match tx.op with
  | .deposit here value roundID inviterCode =>
      deposit tx.sender here tx.value tx.feed value roundID inviterCode w
  | .withdraw here amount => withdraw tx.sender here tx.accepts amount w
  | .emergencyWithdraw here => emergencyWithdraw tx.sender here tx.accepts w
  | .setPublicOfferingState here set => setPublicOfferingState tx.sender here set w
  | .setOwner here newOwner => setOwner tx.sender here newOwner w
  | .addRaisedAmount amount => onConfig (·.addRaisedAmount tx.sender amount) w
  | .addInvestor investor => onConfig (·.addInvestor tx.sender investor) w
  | .setPublicOffering publicOffering set =>
      onConfig (·.setPublicOffering tx.sender publicOffering set) w
  | .setMinInvestment amount => onConfig (·.setMinInvestment tx.sender amount) w
  | .setMaxInvestment amount => onConfig (·.setMaxInvestment tx.sender amount) w
  | .setConfigOwner newOwner => onConfig (·.setOwner tx.sender newOwner) w
  | .sendNative dst amount => w.sendNative tx.sender dst amount
  | .token token op => do
      let t ← ERC20.exec tx.sender (w.tokens token) op
      return w.setToken token t
  | .tokenMint token account amount => do
      let t ← (w.tokens token)._mint account amount
      return w.setToken token t

/-- One transaction. The calls that an offering makes are those above, so it is never the sender. -/
def step (w : World) (tx : Tx) : Result World := do
  require (w.offerings tx.sender = none) ""
  exec tx w

/-- Offerings and config as deployed, over standard tokens on which they have approved nobody. -/
def machine : TSys World Tx where
  init w :=
    (∃ configOwner, w.config = { owner := configOwner }) ∧ w.offerings 0 = none ∧
    (∀ here offering, w.offerings here = some offering →
      offering = { owner := offering.owner, token := offering.token } ∧
      ∀ token, (w.tokens token).Sound here) ∧
    w.brought = (fun _ => 0) ∧ w.credited = (fun _ => 0) ∧ w.withdrawn = fun _ => 0
  step := step

end Huski.Dao
