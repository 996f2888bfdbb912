import Huski.Token.LinearRelease
import Huski.Lib.TSys

/-!
# The locker as a system

`LinearRelease.sol` from its constructor on, together with the token that it locks: FairLaunch
locks for its users, users claim, and everybody moves tokens of their own.
-/

open Solidity

namespace LinearRelease

/-- The amount of `pendingTokens`, which always lists the one token. -/
def pendingTokens (blockNumber : Nat) (user : Address) (t : LinearRelease) : Result Nat :=
  if blockNumber < t.startReleaseBlock then .ok 0
  else if blockNumber ≥ t.endReleaseBlock then .ok (t.locks user)
  else do
    let releasedBlock ← SafeMath.sub blockNumber (t.lastUnlockBlock user)
    let blockLeft ← SafeMath.sub t.endReleaseBlock (t.lastUnlockBlock user)
    let product ← SafeMath.mul (t.locks user) releasedBlock
    SafeMath.div product blockLeft

/-- The constructor. -/
def create (token : Address) (lockupBps : Nat) (fairLaunch : Address)
    (startReleaseBlock endReleaseBlock : Nat) : Result LinearRelease := do
  require (endReleaseBlock > startReleaseBlock) "linear release: bad end/start release"
  return { fairLaunch, token, lockupBps, startReleaseBlock, endReleaseBlock }

end LinearRelease

namespace Huski.Locker

/-- The locker at `here` and the ledger of its token. -/
structure State where
  here : Address
  release : LinearRelease
  token : ERC20

structure Chain where
  block : Nat
  state : State

inductive Op
  | lock (user : Address) (amount : Nat)
  | claim
  /-- the sender moves or approves tokens, outside the locker -/
  | tokenTransfer (recipient : Address) (amount : Nat)
  | tokenTransferFrom (holder recipient : Address) (amount : Nat)
  | tokenApprove (spender : Address) (amount : Nat)
  deriving DecidableEq

structure Tx where
  sender : Address
  blockNumber : Nat
  op : Op

/-- FairLaunch locks tokens for a user, from its own balance. -/
def lock (sender user : Address) (amount : Nat) (s : State) : Result State := do
  s.release.onlyFairLaunch sender
  require (user ≠ 0) "lock: no address(0)"
  let token ← s.token.transferFrom s.here sender s.here amount
  let release ← s.release.addLock user amount
  return { s with token, release }

/-- The sender takes what is released. -/
def claim (sender : Address) (blockNumber : Nat) (s : State) : Result State := do
  require (s.release.locks sender > 0) "lieanr release: no locked"
  let amount ← s.release.pendingTokens blockNumber sender
  let token ← s.token._transfer s.here sender amount
  let left ← SafeMath.sub (s.release.locks sender) amount
  return { s with
    token
    release := { s.release with
      locks := Function.update s.release.locks sender left
      lastUnlockBlock := Function.update s.release.lastUnlockBlock sender blockNumber } }

/-- An operation of the token. -/
def onToken (f : ERC20 → Result ERC20) (s : State) : Result State := do
  let token ← f s.token
  return { s with token }

def exec (tx : Tx) (s : State) : Result State :=
  match tx.op with
  | .lock user amount => lock tx.sender user amount s
  | .claim => claim tx.sender tx.blockNumber s
  | .tokenTransfer recipient amount => onToken (·._transfer tx.sender recipient amount) s
  | .tokenTransferFrom holder recipient amount =>
      onToken (·.transferFrom tx.sender holder recipient amount) s
  | .tokenApprove spender amount => onToken (·._approve tx.sender spender amount) s

/-- One transaction; blocks do not go back. -/
def mine (c : Chain) (tx : Tx) : Result Chain := do
  require (c.block ≤ tx.blockNumber) ""
  let state ← exec tx c.state
  return { block := tx.blockNumber, state }

/-- A locker from its deployment, over any token. -/
def machine : TSys Chain Tx where
  init c := ∃ here token lockupBps fairLaunch startReleaseBlock endReleaseBlock release ledger,
    LinearRelease.create token lockupBps fairLaunch startReleaseBlock endReleaseBlock =
      .ok release ∧
    c.state = { here, release, token := ledger }
  step := mine

/-! ## What a successful call did -/

variable {sender user : Address} {n amount : Nat} {s s' : State} {c c' : Chain} {tx : Tx}

/-- A lock adds to the user's locks and restarts its release. -/
theorem lock_eq_ok (h : lock sender user amount s = .ok s') : s'.release = { s.release with
    locks := Function.update s.release.locks user (s.release.locks user + amount)
    lastUnlockBlock := Function.update s.release.lastUnlockBlock user
      (max (s.release.lastUnlockBlock user) s.release.startReleaseBlock) } := by
  simp only [lock, LinearRelease.addLock, bind_eq_ok, pure_eq_ok, SafeMath.add_eq_ok] at h
  obtain ⟨_, _, _, _, _, _, _, ⟨_, ⟨_, rfl⟩, rfl⟩, rfl⟩ := h
  rfl

/-- A claim moves the pending tokens to its sender and takes them from the sender's lock. -/
theorem claim_eq_ok (h : claim sender n s = .ok s') :
    ∃ amount, s.release.pendingTokens n sender = .ok amount ∧
      s.token._transfer s.here sender amount = .ok s'.token ∧ s'.release = { s.release with
        locks := Function.update s.release.locks sender (s.release.locks sender - amount)
        lastUnlockBlock := Function.update s.release.lastUnlockBlock sender n } := by
  simp only [claim, bind_eq_ok, pure_eq_ok, SafeMath.sub_eq_ok] at h
  obtain ⟨_, _, amount, hamount, token, hmoves, _, ⟨_, rfl⟩, rfl⟩ := h
  exact ⟨amount, hamount, hmoves, rfl⟩

theorem onToken_eq_ok {f : ERC20 → Result ERC20} (h : onToken f s = .ok s') :
    s'.release = s.release := by
  simp only [onToken, bind_eq_ok, pure_eq_ok] at h
  obtain ⟨_, _, rfl⟩ := h
  rfl

theorem mine_eq_ok (h : mine c tx = .ok c') : c.block ≤ tx.blockNumber ∧
    c'.block = tx.blockNumber ∧ exec tx c.state = .ok c'.state := by
  simp only [mine, bind_eq_ok, require_eq_ok, pure_eq_ok] at h
  obtain ⟨_, hblock, state, hexec, rfl⟩ := h
  exact ⟨hblock, rfl, hexec⟩

end Huski.Locker
