import Huski.Lib.ERC20

/-!
# The linear release locker

The storage of `LinearRelease.sol` and what `FairLaunchV2` calls of it: how much of a
reward is to be locked, and the lock itself. The token that a lock takes is moved by the
caller's world.
-/

open Solidity

/-- The storage of a linear release. -/
structure LinearRelease where
  fairLaunch : Address
  token : Address
  lockupBps : Nat
  startReleaseBlock : Nat
  endReleaseBlock : Nat
  locks : Address → Nat := fun _ => 0
  lastUnlockBlock : Address → Nat := fun _ => 0

namespace LinearRelease

/-- Only FairLaunch locks. -/
def onlyFairLaunch (sender : Address) (t : LinearRelease) : Result Unit :=
  require (sender = t.fairLaunch) "linear release: only fair launch"

/-- The part of a reward that is locked. -/
def calLockAmount (sender : Address) (amount : Nat) (t : LinearRelease) : Result Nat := do
  t.onlyFairLaunch sender
  let product ← SafeMath.mul amount t.lockupBps
  SafeMath.div product 10000

/-- What `lock` writes, after the token was taken. -/
def addLock (user : Address) (amount : Nat) (t : LinearRelease) : Result LinearRelease := do
  let locked ← SafeMath.add (t.locks user) amount
  return { t with
    locks := Function.update t.locks user locked
    lastUnlockBlock := Function.update t.lastUnlockBlock user
      (max (t.lastUnlockBlock user) t.startReleaseBlock) }

end LinearRelease
