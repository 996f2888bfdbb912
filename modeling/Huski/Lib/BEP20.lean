import Huski.Lib.ERC20

/-!
# The token of `PancakeMasterChef.sol`

`BEP20` is the standard token with messages of its own. Its operations are on the same ledger, and
where they succeed they do the same.
-/

open Solidity

namespace BEP20

variable (t : ERC20)

/-- A transfer, with this token's messages. -/
def _transfer (sender recipient : Address) (amount : Nat) : Result ERC20 := do
  require (sender ≠ 0) "BEP20: transfer from the zero address"
  require (recipient ≠ 0) "BEP20: transfer to the zero address"
  let left ← SafeMath.subOr (t.balanceOf sender) amount "BEP20: transfer amount exceeds balance"
  let t := t.setBalance sender left
  let right ← SafeMath.add (t.balanceOf recipient) amount
  return t.setBalance recipient right

/-- A mint, with this token's messages. -/
def _mint (account : Address) (amount : Nat) : Result ERC20 := do
  require (account ≠ 0) "BEP20: mint to the zero address"
  let supply ← SafeMath.add t.totalSupply amount
  let right ← SafeMath.add (t.balanceOf account) amount
  return { t.setBalance account right with totalSupply := supply }

/-- A burn, with this token's messages. -/
def _burn (account : Address) (amount : Nat) : Result ERC20 := do
  require (account ≠ 0) "BEP20: burn from the zero address"
  let left ← SafeMath.subOr (t.balanceOf account) amount "BEP20: burn amount exceeds balance"
  let supply ← SafeMath.sub t.totalSupply amount
  return { t.setBalance account left with totalSupply := supply }

/-- An approval, with this token's messages. -/
def _approve (owner spender : Address) (amount : Nat) : Result ERC20 := do
  require (owner ≠ 0) "BEP20: approve from the zero address"
  require (spender ≠ 0) "BEP20: approve to the zero address"
  return { t with
    allowance := Function.update t.allowance owner
      (Function.update (t.allowance owner) spender amount) }

/-- `transferFrom` called by `spender`. -/
def transferFrom (spender sender recipient : Address) (amount : Nat) : Result ERC20 := do
  let t ← _transfer t sender recipient amount
  let left ← SafeMath.subOr (t.allowance sender spender) amount
    "BEP20: transfer amount exceeds allowance"
  _approve t sender spender left

variable {t} {t' : ERC20} {sender recipient account owner spender : Address} {amount : Nat}

/-- The messages apart it is the transfer of an ERC20. -/
theorem transfer_eq_ok :
    _transfer t sender recipient amount = .ok t' ↔
      t._transfer sender recipient amount = .ok t' := by
  simp only [_transfer, ERC20._transfer, bind_eq_ok, require_eq_ok, SafeMath.subOr_eq_ok]

/-- The messages apart it is the mint of an ERC20. -/
theorem mint_eq_ok : _mint t account amount = .ok t' ↔ t._mint account amount = .ok t' := by
  simp only [_mint, ERC20._mint, bind_eq_ok, require_eq_ok]

theorem burn_eq_ok : _burn t account amount = .ok t' ↔ t._burn account amount = .ok t' := by
  simp only [_burn, ERC20._burn, bind_eq_ok, require_eq_ok, SafeMath.subOr_eq_ok]

/-- The messages apart it is the approval of an ERC20. -/
theorem approve_eq_ok :
    _approve t owner spender amount = .ok t' ↔ t._approve owner spender amount = .ok t' := by
  simp only [_approve, ERC20._approve, bind_eq_ok, require_eq_ok]

theorem transferFrom_eq_ok : transferFrom t spender sender recipient amount = .ok t' ↔
    t.transferFrom spender sender recipient amount = .ok t' := by
  simp only [transferFrom, ERC20.transferFrom, bind_eq_ok, transfer_eq_ok, SafeMath.subOr_eq_ok,
    approve_eq_ok]

end BEP20
