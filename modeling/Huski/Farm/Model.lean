import Huski.Vault.Run
import Huski.Farm.DebtPool

/-!
# The vault with its FairLaunch pool

The vault and FairLaunch in one system. The vault mints debt tokens and stakes them for the owner
of a position, and takes them back and burns them, through the FairLaunch and the debt token that
everybody else calls too: between its transactions, and from its worker within them. A withdrawal
may also fail for a reason that no contract decides, such as the gas left.

`stuck` is a history variable.
-/

namespace Huski.Farm

open Solidity

/-- The vault, with FairLaunch among the contracts outside. -/
abbrev World := Vault.World (Vault.Books FairLaunch.Chain)

/-- The chain of FairLaunch, in the world of the vault. -/
abbrev chain (w : World) : FairLaunch.Chain := w.rest.others

/-- The farm, and the shares left behind. -/
structure Sys where
  world : World
  /-- the debt shares taken off without their stake, by the owner of the position -/
  stuck : Address → Nat

/-- One transaction of the vault: what the outside answers, whether the withdrawal from FairLaunch
runs out of gas, and what the worker has others call in FairLaunch. -/
structure VaultTx where
  msg : Vault.Msg
  config : Vault.Config
  returned : Nat
  health : Result Nat
  outOfGas : Bool
  calls : List (Address × FairLaunch.Op)
  call : Vault.Call

inductive Tx
  | vault (tx : VaultTx)
  | fairLaunch (tx : FairLaunch.Tx)

/-! ## What the vault calls -/

/-- A call of a debt token; there is none at the address of HUSKY. -/
def onDebtToken (token : Address) (f : DebtToken → Result DebtToken) (c : FairLaunch.Chain) :
    Result FairLaunch.Chain := do
  require (token ≠ c.state.husky.here) ""
  match c.state.tokens token with
  | .erc20 _ => .error ""
  | .debtToken t => do
      let t ← f t
      return { c with state := c.state.setToken token (.debtToken t) }

/-- Calls of FairLaunch by others than the vault. -/
def runCalls (self : Address) (blockNumber : Nat) (calls : List (Address × FairLaunch.Op))
    (c : FairLaunch.Chain) : Result FairLaunch.Chain :=
  calls.foldlM (fun c (sender, op) => do
    require (sender ≠ self) ""
    FairLaunch.mine c ⟨sender, blockNumber, op⟩) c

/-- FairLaunch and the debt token, as the vault at `self` calls them in one block. -/
def peers (self : Address) (blockNumber : Nat) (outOfGas : Bool)
    (calls : List (Address × FairLaunch.Op)) : Vault.Peers FairLaunch.Chain where
  safeApprove token spender value c :=
    FairLaunch.mine c ⟨self, blockNumber, .tokenApprove token spender value⟩
  debtTokenMint token recipient amount := onDebtToken token (·.mint self recipient amount)
  debtTokenBurn token holder amount := onDebtToken token (·.burn self holder amount)
  debtTokenSetOkHolders token holders isOk := onDebtToken token (·.setOkHolders self holders isOk)
  fairLaunchDeposit user pid amount c :=
    FairLaunch.mine c ⟨self, blockNumber, .deposit user pid amount⟩
  fairLaunchWithdraw user pid amount c :=
    if outOfGas then .error ""
    else FairLaunch.mine c ⟨self, blockNumber, .withdraw user pid amount⟩
  worker := runCalls self blockNumber calls

/-- What the contracts outside answer in the call. -/
def VaultTx.outcome (self : Address) (tx : VaultTx) : Vault.Outcome FairLaunch.Chain :=
  { config := tx.config, returned := tx.returned, health := tx.health
    peers := peers self tx.msg.blockNumber tx.outOfGas tx.calls }

/-- The same, as the vault sees it. -/
abbrev VaultTx.externals (self : Address) (tx : VaultTx) :
    Vault.Externals (Vault.Books FairLaunch.Chain) :=
  (tx.outcome self).externals self

/-! ## The system -/

/-- Whether the withdrawal of a position's stake succeeds. -/
def unstakes (self : Address) (tx : VaultTx) (id : Vault.PositionId) (w : World) : Bool :=
  match (tx.outcome self).peers.fairLaunchWithdraw (w.vault.positions id).owner
      w.vault.fairLaunchPoolId (w.vault.positions id).debtShare (chain w) with
  | .ok _ => true
  | .error _ => false

/-- The position a call takes the debt off, and whether its stake is withdrawn. Where `work` opens
a position it withdraws nothing; there can be debt on it once the identifiers have wrapped. -/
def closes (self : Address) (tx : VaultTx) (w : World) : Option (Vault.PositionId × Bool) :=
  match tx.call with
  | .work id .. =>
      if id = 0 then some (w.vault.nextPositionId, false) else some (id, unstakes self tx id w)
  | .kill id => some (id, unstakes self tx id w)
  | _ => none

/-- The shares that a transaction takes off a position of an owner without withdrawing its stake. -/
def newlyStuck (self : Address) (tx : VaultTx) (w : World) (owner : Address) : Nat :=
  match closes self tx w with
  | some (id, false) =>
      if (w.vault.positions id).owner = owner then (w.vault.positions id).debtShare else 0
  | _ => 0

/-- One transaction. The configuration names this FairLaunch. -/
def step (self : Address) (s : Sys) : Tx → Result Sys
  | .vault tx => do
      require (tx.msg.sender ≠ self) ""
      require ((chain s.world).block ≤ tx.msg.blockNumber) ""
      require (tx.config.getFairLaunchAddr = (chain s.world).state.here) ""
      let world ← Vault.call (tx.externals self) tx.msg tx.call s.world
      return { world, stuck := fun owner => s.stuck owner + newlyStuck self tx s.world owner }
  | .fairLaunch tx => do
      require (tx.sender ≠ self) ""
      let others ← FairLaunch.mine (chain s.world) tx
      return { s with world := Vault.setBooks s.world { s.world.rest with others } }

/-- The vault at `self` and FairLaunch from their deployment. No debt token was minted yet. -/
def machine (self : Address) : TSys Sys Tx where
  init s := (Vault.machine FairLaunch.Chain self).init s.world ∧
    FairLaunch.machine.init (chain s.world) ∧ (chain s.world).state.here ≠ self ∧
    (∀ token, (chain s.world).state.debtSupply token = 0) ∧ s.stuck = fun _ => 0
  step := step self

/-- The vault gets its debt token and its pool once: neither is changed after a pool is set. -/
def Settled (s : Sys) : Tx → Prop
  | .vault tx =>
      match tx.call with
      | .updateDebtToken .. | .setFairLaunchPoolId _ => s.world.vault.fairLaunchPoolId = maxWord
      | _ => True
  | .fairLaunch _ => True

instance (s : Sys) (tx : Tx) : Decidable (Settled s tx) := by
  unfold Settled
  split
  · split <;> infer_instance
  · infer_instance

end Huski.Farm
