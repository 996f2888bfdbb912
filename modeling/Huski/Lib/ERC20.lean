import Huski.Lib.TotalMap

/-!
# The standard token ledger

Balances, allowances and supply of an ERC20 token, with the internal operations
that derived tokens are written in. A token is *exact*: a successful transfer
moves the amount it was asked for and nothing else, which is what the
`balanceOf_*` equations say of one account at a time.
-/

open Solidity

/-- The storage of a standard token. -/
structure ERC20 where
  balanceOf : Address → Nat := fun _ => 0
  allowance : Address → Address → Nat := fun _ _ => 0
  totalSupply : Nat := 0

namespace ERC20

/-- One balance is written. -/
def setBalance (t : ERC20) (account : Address) (amount : Nat) : ERC20 :=
  { t with balanceOf := Function.update t.balanceOf account amount }

/-- The amount moves from the sender to the recipient. -/
def _transfer (t : ERC20) (sender recipient : Address) (amount : Nat) : Result ERC20 := do
  require (sender ≠ 0) "ERC20: transfer from the zero address"
  require (recipient ≠ 0) "ERC20: transfer to the zero address"
  let left ← SafeMath.subOr (t.balanceOf sender) amount "ERC20: transfer amount exceeds balance"
  let t := t.setBalance sender left
  let right ← SafeMath.add (t.balanceOf recipient) amount
  return t.setBalance recipient right

/-- The amount is new. -/
def _mint (t : ERC20) (account : Address) (amount : Nat) : Result ERC20 := do
  require (account ≠ 0) "ERC20: mint to the zero address"
  let supply ← SafeMath.add t.totalSupply amount
  let right ← SafeMath.add (t.balanceOf account) amount
  return { t.setBalance account right with totalSupply := supply }

/-- The amount is gone. -/
def _burn (t : ERC20) (account : Address) (amount : Nat) : Result ERC20 := do
  require (account ≠ 0) "ERC20: burn from the zero address"
  let left ← SafeMath.subOr (t.balanceOf account) amount "ERC20: burn amount exceeds balance"
  let supply ← SafeMath.sub t.totalSupply amount
  return { t.setBalance account left with totalSupply := supply }

/-- The owner allows the spender an amount. -/
def _approve (t : ERC20) (owner spender : Address) (amount : Nat) : Result ERC20 := do
  require (owner ≠ 0) "ERC20: approve from the zero address"
  require (spender ≠ 0) "ERC20: approve to the zero address"
  return { t with
    allowance := Function.update t.allowance owner
      (Function.update (t.allowance owner) spender amount) }

/-- `transferFrom` called by `spender`. -/
def transferFrom (t : ERC20) (spender sender recipient : Address) (amount : Nat) :
    Result ERC20 := do
  let t ← t._transfer sender recipient amount
  let left ← SafeMath.subOr (t.allowance sender spender) amount
    "ERC20: transfer amount exceeds allowance"
  t._approve sender spender left

/-! ## What a successful operation did -/

variable {t t' : ERC20} {sender recipient account owner spender : Address} {amount : Nat}

/-- A transfer moves the amount, also to the sender itself. -/
theorem balanceOf_transfer (h : t._transfer sender recipient amount = .ok t') (a : Address) :
    t'.balanceOf a + (if a = sender then amount else 0) =
      t.balanceOf a + (if a = recipient then amount else 0) := by
  simp only [_transfer, setBalance, bind_eq_ok, require_eq_ok, SafeMath.subOr_eq_ok,
    SafeMath.add_eq_ok, pure_eq_ok] at h
  obtain ⟨_, _, _, _, left, ⟨hle, rfl⟩, right, ⟨_, rfl⟩, rfl⟩ := h
  by_cases hs : a = sender <;> by_cases hr : a = recipient <;>
    simp_all [Function.update_apply]

/-- The sender has what it sends. -/
theorem le_balance_of_transfer (h : t._transfer sender recipient amount = .ok t') :
    amount ≤ t.balanceOf sender := by
  simp only [_transfer, bind_eq_ok, SafeMath.subOr_eq_ok] at h
  obtain ⟨_, _, _, _, _, ⟨hle, _⟩, _⟩ := h
  exact hle

/-- The zero address sends nothing. -/
theorem sender_ne_of_transfer (h : t._transfer sender recipient amount = .ok t') : sender ≠ 0 := by
  simp only [_transfer, bind_eq_ok, require_eq_ok] at h
  obtain ⟨_, hsender, _⟩ := h
  exact hsender

theorem totalSupply_transfer (h : t._transfer sender recipient amount = .ok t') :
    t'.totalSupply = t.totalSupply := by
  simp only [_transfer, bind_eq_ok, pure_eq_ok] at h
  obtain ⟨_, _, _, _, _, _, _, _, rfl⟩ := h
  rfl

/-- A mint adds to one account. -/
theorem balanceOf_mint (h : t._mint account amount = .ok t') (a : Address) :
    t'.balanceOf a = t.balanceOf a + (if a = account then amount else 0) := by
  simp only [_mint, setBalance, bind_eq_ok, require_eq_ok, SafeMath.add_eq_ok, pure_eq_ok] at h
  obtain ⟨_, _, _, _, _, ⟨_, rfl⟩, rfl⟩ := h
  by_cases ha : a = account <;> simp_all

theorem totalSupply_mint (h : t._mint account amount = .ok t') :
    t'.totalSupply = t.totalSupply + amount := by
  simp only [_mint, bind_eq_ok, SafeMath.add_eq_ok, pure_eq_ok] at h
  obtain ⟨_, _, _, ⟨_, rfl⟩, _, _, rfl⟩ := h
  rfl

/-- A burn takes from one account. -/
theorem balanceOf_burn (h : t._burn account amount = .ok t') (a : Address) :
    t'.balanceOf a + (if a = account then amount else 0) = t.balanceOf a := by
  simp only [_burn, setBalance, bind_eq_ok, require_eq_ok, SafeMath.subOr_eq_ok,
    pure_eq_ok] at h
  obtain ⟨_, _, _, ⟨hle, rfl⟩, _, _, rfl⟩ := h
  by_cases ha : a = account <;> simp_all

theorem totalSupply_burn (h : t._burn account amount = .ok t') :
    t'.totalSupply + amount = t.totalSupply := by
  simp only [_burn, bind_eq_ok, SafeMath.sub_eq_ok, pure_eq_ok] at h
  obtain ⟨_, _, _, _, _, ⟨hle, rfl⟩, rfl⟩ := h
  simp only
  omega

theorem balanceOf_approve (h : t._approve owner spender amount = .ok t') :
    t'.balanceOf = t.balanceOf := by
  simp only [_approve, bind_eq_ok, pure_eq_ok] at h
  obtain ⟨_, _, _, _, rfl⟩ := h
  rfl

theorem totalSupply_approve (h : t._approve owner spender amount = .ok t') :
    t'.totalSupply = t.totalSupply := by
  simp only [_approve, bind_eq_ok, pure_eq_ok] at h
  obtain ⟨_, _, _, _, rfl⟩ := h
  rfl

/-- A pull moves the amount. -/
theorem balanceOf_transferFrom (h : t.transferFrom spender sender recipient amount = .ok t')
    (a : Address) :
    t'.balanceOf a + (if a = sender then amount else 0) =
      t.balanceOf a + (if a = recipient then amount else 0) := by
  simp only [transferFrom, bind_eq_ok] at h
  obtain ⟨t₁, hmove, _, _, happrove⟩ := h
  rw [balanceOf_approve happrove]
  exact balanceOf_transfer hmove a

theorem sender_ne_of_transferFrom
    (h : t.transferFrom spender sender recipient amount = .ok t') : sender ≠ 0 := by
  simp only [transferFrom, bind_eq_ok] at h
  obtain ⟨t₁, hmove, _⟩ := h
  exact sender_ne_of_transfer hmove

theorem totalSupply_transferFrom
    (h : t.transferFrom spender sender recipient amount = .ok t') :
    t'.totalSupply = t.totalSupply := by
  simp only [transferFrom, bind_eq_ok] at h
  obtain ⟨t₁, hmove, _, _, happrove⟩ := h
  rw [totalSupply_approve happrove, totalSupply_transfer hmove]

theorem allowance_transfer (h : t._transfer sender recipient amount = .ok t') :
    t'.allowance = t.allowance := by
  simp only [_transfer, bind_eq_ok, pure_eq_ok] at h
  obtain ⟨_, _, _, _, _, _, _, _, rfl⟩ := h
  rfl

theorem allowance_mint (h : t._mint account amount = .ok t') : t'.allowance = t.allowance := by
  simp only [_mint, bind_eq_ok, pure_eq_ok] at h
  obtain ⟨_, _, _, _, _, _, rfl⟩ := h
  rfl

theorem allowance_burn (h : t._burn account amount = .ok t') : t'.allowance = t.allowance := by
  simp only [_burn, bind_eq_ok, pure_eq_ok] at h
  obtain ⟨_, _, _, _, _, _, rfl⟩ := h
  rfl

/-- An approval writes one allowance. -/
theorem allowance_approve (h : t._approve owner spender amount = .ok t') :
    t'.allowance = Function.update t.allowance owner
      (Function.update (t.allowance owner) spender amount) := by
  simp only [_approve, bind_eq_ok, pure_eq_ok] at h
  obtain ⟨_, _, _, _, rfl⟩ := h
  rfl

/-- The allowance covers the amount and is used up by it. -/
theorem allowance_transferFrom (h : t.transferFrom spender sender recipient amount = .ok t') :
    amount ≤ t.allowance sender spender ∧
      t'.allowance = Function.update t.allowance sender
        (Function.update (t.allowance sender) spender (t.allowance sender spender - amount)) := by
  simp only [transferFrom, bind_eq_ok, SafeMath.subOr_eq_ok] at h
  obtain ⟨t₁, hmove, _, ⟨hle, rfl⟩, happrove⟩ := h
  have hsame := allowance_transfer hmove
  rw [hsame] at hle happrove
  rw [allowance_approve happrove, hsame]
  exact ⟨hle, rfl⟩

/-! ## The supply -/

open scoped BigOperators

/-- All balances together. -/
def held (t : ERC20) : Nat := ∑ a, t.balanceOf a

/-- Every unit of the supply is on a balance. -/
def Backed (t : ERC20) : Prop := t.held = t.totalSupply

/-- No balance exceeds the supply. -/
theorem Backed.balanceOf_le (h : t.Backed) (a : Address) : t.balanceOf a ≤ t.totalSupply := by
  rw [← h]
  exact TotalMap.le_sum t.balanceOf id a

/-- A token without supply is backed. -/
theorem backed_empty : Backed {} := TotalMap.sum_zero _ id fun _ => rfl

/-- What is taken from one balance, given to one and taken from the supply adds up. -/
theorem Backed.credited {src dst : Address} {x y : Nat} (hb : t.Backed)
    (hsupply : t'.totalSupply + x = t.totalSupply + y)
    (hbalance : ∀ a, t'.balanceOf a + (if a = src then x else 0) =
      t.balanceOf a + if a = dst then y else 0) : t'.Backed := by
  have hsum : t'.held + x = t.held + y := TotalMap.sum_credit hbalance
  unfold Backed at *
  omega

/-- A transfer keeps the supply the sum of the balances. -/
theorem Backed.transfer (hb : t.Backed) (h : t._transfer sender recipient amount = .ok t') :
    t'.Backed :=
  hb.credited (by rw [totalSupply_transfer h]) (balanceOf_transfer h)

theorem Backed.transferFrom (hb : t.Backed)
    (h : t.transferFrom spender sender recipient amount = .ok t') : t'.Backed :=
  hb.credited (by rw [totalSupply_transferFrom h]) (balanceOf_transferFrom h)

/-- A mint keeps the supply the sum of the balances. -/
theorem Backed.mint (hb : t.Backed) (h : t._mint account amount = .ok t') : t'.Backed := by
  have hsupply : t'.totalSupply + 0 = t.totalSupply + amount := totalSupply_mint h
  have hbalance : ∀ a, t'.balanceOf a + (if a = account then 0 else 0) =
      t.balanceOf a + if a = account then amount else 0 := by
    intro a
    rw [ite_self, Nat.add_zero]
    exact balanceOf_mint h a
  exact hb.credited hsupply hbalance

/-- A burn keeps the supply the sum of the balances. -/
theorem Backed.burn (hb : t.Backed) (h : t._burn account amount = .ok t') : t'.Backed := by
  have hsupply : t'.totalSupply + amount = t.totalSupply + 0 := totalSupply_burn h
  have hbalance : ∀ a, t'.balanceOf a + (if a = account then amount else 0) =
      t.balanceOf a + if a = account then 0 else 0 := by
    intro a
    rw [ite_self, Nat.add_zero]
    exact balanceOf_burn h a
  exact hb.credited hsupply hbalance

theorem Backed.approve (hb : t.Backed) (h : t._approve owner spender amount = .ok t') :
    t'.Backed := by
  unfold Backed held at *
  rw [balanceOf_approve h, totalSupply_approve h]
  exact hb

end ERC20
