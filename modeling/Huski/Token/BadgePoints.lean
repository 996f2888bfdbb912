import Huski.Lib.ERC20

/-!
# Badge points

The part of `BadgePoints.sol` that a harvest uses: minting points to an account and
a share of them to the account that invited it.
-/

open Solidity

/-- The points token, its operators and who invited whom. -/
structure BadgePoints where
  erc20 : ERC20 := {}
  allocPoint : Nat := 0
  okOperators : Address → Bool := fun _ => false
  /-- `inviteCodes[account].deleted` -/
  deleted : Address → Bool := fun _ => false
  relationShips : Address → Address := fun _ => 0

namespace BadgePoints

/-- Points go to the account, unless its code was deleted. -/
def mint (sender account : Address) (amount : Nat) (b : BadgePoints) : Result BadgePoints := do
  require (b.okOperators sender = true) "BadgePoints::onlyOperator: not operator"
  let erc20 ← if b.deleted account then .ok b.erc20 else b.erc20._mint account amount
  if b.relationShips account = 0 then return { b with erc20 }
  else if b.deleted (b.relationShips account) then return { b with erc20 }
  else do
    let product ← SafeMath.mul b.allocPoint amount
    let erc20 ← erc20._mint (b.relationShips account) (product / 100)
    return { b with erc20 }

end BadgePoints
