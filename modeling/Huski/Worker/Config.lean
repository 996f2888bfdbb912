import Huski.Lib.TSys

/-!
# The settings of a worker

Who may call a worker and through which strategies it works: the same modifiers and setters in both
workers, up to the contract's name in the messages.
-/

open Solidity

namespace Huski.Worker

/-- The storage both workers have for their owner and operator. -/
structure Config where
  owner : Address
  operator : Address
  okStrats : Address → Bool
  okReinvestors : Address → Bool := fun _ => false
  addStrat : Address
  liqStrat : Address
  reinvestBountyBps : Nat
  maxReinvestBountyBps : Nat

/-- The setters. -/
inductive ConfigOp
  | setReinvestBountyBps (bps : Nat)
  | setMaxReinvestBountyBps (bps : Nat)
  | setStrategyOk (strats : List Address) (isOk : Bool)
  | setReinvestorOk (reinvestors : List Address) (isOk : Bool)
  | setCriticalStrategies (addStrat liqStrat : Address)
  | transferOwnership (newOwner : Address)
  | renounceOwnership

namespace Config

variable (contract : String) (sender origin : Address) (c : Config)

def onlyOwner : Result Unit := require (sender = c.owner) "Ownable: caller is not the owner"

def onlyOperator : Result Unit :=
  require (sender = c.operator) (contract ++ "::onlyOperator: not operator")

/-- `onlyEOA` and `onlyReinvestor` -/
def onlyReinvestor : Result Unit := do
  require (sender = origin) (contract ++ "::onlyEOA: not eoa")
  require (c.okReinvestors sender = true) (contract ++ "::onlyReinvestor: not reinvestor")

/-- `initialize` approves its strategies. -/
def initConfig (owner operator addStrat liqStrat : Address)
    (reinvestBountyBps maxReinvestBountyBps : Nat) : Result Config := do
  require (reinvestBountyBps ≤ maxReinvestBountyBps)
    (contract ++ "::initialize: reinvestBountyBps exceeded maxReinvestBountyBps")
  return {
    owner
    operator
    okStrats := Function.update (Function.update (fun _ => false) addStrat true) liqStrat true
    addStrat
    liqStrat
    reinvestBountyBps
    maxReinvestBountyBps }

/-- The loop of `setStrategyOk` and `setReinvestorOk`. -/
def setOk (ok : Address → Bool) (accounts : List Address) (isOk : Bool) : Address → Bool :=
  accounts.foldl (fun ok account => Function.update ok account isOk) ok

def exec : ConfigOp → Result Config
  | .setReinvestBountyBps bps => do
      c.onlyOwner sender
      require (bps ≤ c.maxReinvestBountyBps) (contract ++
        "::setReinvestBountyBps: _reinvestBountyBps exceeded maxReinvestBountyBps")
      return { c with reinvestBountyBps := bps }
  | .setMaxReinvestBountyBps bps => do
      c.onlyOwner sender
      require (bps ≥ c.reinvestBountyBps) (contract ++
        "::setMaxReinvestBountyBps: _maxReinvestBountyBps lower than reinvestBountyBps")
      return { c with maxReinvestBountyBps := bps }
  | .setStrategyOk strats isOk => do
      c.onlyOwner sender
      return { c with okStrats := setOk c.okStrats strats isOk }
  | .setReinvestorOk reinvestors isOk => do
      c.onlyOwner sender
      return { c with okReinvestors := setOk c.okReinvestors reinvestors isOk }
  | .setCriticalStrategies addStrat liqStrat => do
      c.onlyOwner sender
      return { c with addStrat, liqStrat }
  | .transferOwnership newOwner => do
      c.onlyOwner sender
      require (newOwner ≠ 0) "Ownable: new owner is the zero address"
      return { c with owner := newOwner }
  | .renounceOwnership => do
      c.onlyOwner sender
      return { c with owner := 0 }

end Config

end Huski.Worker
