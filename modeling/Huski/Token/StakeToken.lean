import Huski.Lib.ERC20

/-!
# Tokens that can be staked

A standard token, or a `DebtToken`, which only its approved holders can hold and
only its owner, a vault, can mint and burn.
-/

open Solidity

/-- The debt token: only approved holders hold and send it. -/
structure DebtToken where
  owner : Address
  erc20 : ERC20 := {}
  okHolders : Address → Bool := fun _ => false

namespace DebtToken

variable (sender : Address)

def onlyOwner (t : DebtToken) : Result Unit :=
  require (t.owner = sender) "Ownable: caller is not the owner"

/-- The loop over the holders writes the same value to each. -/
def setOkHolders (okHolders : List Address) (isOk : Bool) (t : DebtToken) :
    Result DebtToken := do
  t.onlyOwner sender
  return { t with
    okHolders := okHolders.foldl (fun ok holder => Function.update ok holder isOk) t.okHolders }

/-- The owner mints to an approved holder. -/
def mint (recipient : Address) (amount : Nat) (t : DebtToken) : Result DebtToken := do
  t.onlyOwner sender
  require (t.okHolders recipient = true) "debtToken::mint: unapproved holder"
  let erc20 ← t.erc20._mint recipient amount
  return { t with erc20 }

/-- The owner burns from an approved holder. -/
def burn (holder : Address) (amount : Nat) (t : DebtToken) : Result DebtToken := do
  t.onlyOwner sender
  require (t.okHolders holder = true) "debtToken::burn: unapproved holder"
  let erc20 ← t.erc20._burn holder amount
  return { t with erc20 }

/-- Both ends are approved holders. -/
def transfer (recipient : Address) (amount : Nat) (t : DebtToken) : Result DebtToken := do
  require (t.okHolders sender = true) "debtToken::transfer: unapproved holder on msg.sender"
  require (t.okHolders recipient = true) "debtToken::transfer: unapproved holder on to"
  let erc20 ← t.erc20._transfer sender recipient amount
  return { t with erc20 }

/-- Both ends are approved holders. -/
def transferFrom (holder recipient : Address) (amount : Nat) (t : DebtToken) :
    Result DebtToken := do
  require (t.okHolders holder = true) "debtToken::transferFrom: unapproved holder in from"
  require (t.okHolders recipient = true) "debtToken::transferFrom: unapproved holder in to"
  let erc20 ← t.erc20._transfer holder recipient amount
  let left ← SafeMath.subOr (erc20.allowance holder sender) amount
    "BEP20: transfer amount exceeds allowance"
  let erc20 ← erc20._approve holder sender left
  return { t with erc20 }

end DebtToken

/-- A stake token is a plain token or a debt token. -/
inductive StakeToken
  | erc20 (t : ERC20)
  | debtToken (t : DebtToken)

namespace StakeToken

/-- The balances of either kind. -/
def ledger : StakeToken → ERC20
  | .erc20 t => t
  | .debtToken t => t.erc20

abbrev balanceOf (t : StakeToken) (account : Address) : Nat := t.ledger.balanceOf account

variable (sender : Address)

/-- `transfer` of either kind. -/
def transfer (recipient : Address) (amount : Nat) : StakeToken → Result StakeToken
  | .erc20 t => do
      let t ← t._transfer sender recipient amount
      return .erc20 t
  | .debtToken t => do
      let t ← t.transfer sender recipient amount
      return .debtToken t

/-- `transferFrom` of either kind. -/
def transferFrom (holder recipient : Address) (amount : Nat) : StakeToken → Result StakeToken
  | .erc20 t => do
      let t ← t.transferFrom sender holder recipient amount
      return .erc20 t
  | .debtToken t => do
      let t ← t.transferFrom sender holder recipient amount
      return .debtToken t

/-- Both tokens inherit `approve`. -/
def approve (spender : Address) (amount : Nat) : StakeToken → Result StakeToken
  | .erc20 t => do
      let t ← t._approve sender spender amount
      return .erc20 t
  | .debtToken t => do
      let erc20 ← t.erc20._approve sender spender amount
      return .debtToken { t with erc20 }

/-! ## What a successful operation did to the balances -/

variable {sender} {t t' : StakeToken} {holder recipient spender : Address} {amount : Nat}

/-- A transfer moves the amount, whichever kind it is. -/
theorem balanceOf_transfer (h : t.transfer sender recipient amount = .ok t') (a : Address) :
    t'.balanceOf a + (if a = sender then amount else 0) =
      t.balanceOf a + if a = recipient then amount else 0 := by
  cases t with
  | erc20 t =>
      simp only [transfer, bind_eq_ok, pure_eq_ok] at h
      obtain ⟨t₁, hmove, rfl⟩ := h
      exact ERC20.balanceOf_transfer hmove a
  | debtToken t =>
      simp only [transfer, DebtToken.transfer, bind_eq_ok, pure_eq_ok] at h
      obtain ⟨_, ⟨_, _, _, _, erc20, hmove, rfl⟩, rfl⟩ := h
      exact ERC20.balanceOf_transfer hmove a

/-- A pull moves the amount, whichever kind it is. -/
theorem balanceOf_transferFrom (h : t.transferFrom sender holder recipient amount = .ok t')
    (a : Address) :
    t'.balanceOf a + (if a = holder then amount else 0) =
      t.balanceOf a + if a = recipient then amount else 0 := by
  cases t with
  | erc20 t =>
      simp only [transferFrom, bind_eq_ok, pure_eq_ok] at h
      obtain ⟨t₁, hmove, rfl⟩ := h
      exact ERC20.balanceOf_transferFrom hmove a
  | debtToken t =>
      simp only [transferFrom, DebtToken.transferFrom, bind_eq_ok, pure_eq_ok] at h
      obtain ⟨_, ⟨_, _, _, _, erc20, hmove, _, _, erc20', happrove, rfl⟩, rfl⟩ := h
      show erc20'.balanceOf a + _ = _
      rw [ERC20.balanceOf_approve happrove]
      exact ERC20.balanceOf_transfer hmove a

theorem sender_ne_of_transfer (h : t.transfer sender recipient amount = .ok t') :
    sender ≠ 0 := by
  cases t with
  | erc20 t =>
      simp only [transfer, bind_eq_ok] at h
      obtain ⟨t₁, hmove, _⟩ := h
      exact ERC20.sender_ne_of_transfer hmove
  | debtToken t =>
      simp only [transfer, DebtToken.transfer, bind_eq_ok] at h
      obtain ⟨_, ⟨_, _, _, _, erc20, hmove, _⟩, _⟩ := h
      exact ERC20.sender_ne_of_transfer hmove

theorem holder_ne_of_transferFrom
    (h : t.transferFrom sender holder recipient amount = .ok t') : holder ≠ 0 := by
  cases t with
  | erc20 t =>
      simp only [transferFrom, bind_eq_ok] at h
      obtain ⟨t₁, hmove, _⟩ := h
      exact ERC20.sender_ne_of_transferFrom hmove
  | debtToken t =>
      simp only [transferFrom, DebtToken.transferFrom, bind_eq_ok] at h
      obtain ⟨_, ⟨_, _, _, _, erc20, hmove, _⟩, _⟩ := h
      exact ERC20.sender_ne_of_transfer hmove

/-- An approval moves nothing. -/
theorem balanceOf_approve (h : t.approve sender spender amount = .ok t') :
    t'.ledger.balanceOf = t.ledger.balanceOf := by
  cases t with
  | erc20 t =>
      simp only [approve, bind_eq_ok, pure_eq_ok] at h
      obtain ⟨t₁, happrove, rfl⟩ := h
      exact ERC20.balanceOf_approve happrove
  | debtToken t =>
      simp only [approve, bind_eq_ok, pure_eq_ok] at h
      obtain ⟨erc20, happrove, rfl⟩ := h
      exact ERC20.balanceOf_approve happrove

/-! ## The supply of debt tokens -/

/-- The debt tokens in circulation; none of a standard token. -/
def debtSupply : StakeToken → Nat
  | .erc20 _ => 0
  | .debtToken t => t.erc20.totalSupply

/-- A transfer mints nothing. -/
theorem debtSupply_transfer (h : t.transfer sender recipient amount = .ok t') :
    t'.debtSupply = t.debtSupply := by
  cases t with
  | erc20 t =>
      simp only [transfer, bind_eq_ok, pure_eq_ok] at h
      obtain ⟨t₁, _, rfl⟩ := h
      rfl
  | debtToken t =>
      simp only [transfer, DebtToken.transfer, bind_eq_ok, pure_eq_ok] at h
      obtain ⟨_, ⟨_, _, _, _, erc20, hmove, rfl⟩, rfl⟩ := h
      exact ERC20.totalSupply_transfer hmove

theorem debtSupply_transferFrom (h : t.transferFrom sender holder recipient amount = .ok t') :
    t'.debtSupply = t.debtSupply := by
  cases t with
  | erc20 t =>
      simp only [transferFrom, bind_eq_ok, pure_eq_ok] at h
      obtain ⟨t₁, _, rfl⟩ := h
      rfl
  | debtToken t =>
      simp only [transferFrom, DebtToken.transferFrom, bind_eq_ok, pure_eq_ok] at h
      obtain ⟨_, ⟨_, _, _, _, erc20, hmove, _, _, erc20', happrove, rfl⟩, rfl⟩ := h
      exact (ERC20.totalSupply_approve happrove).trans (ERC20.totalSupply_transfer hmove)

theorem debtSupply_approve (h : t.approve sender spender amount = .ok t') :
    t'.debtSupply = t.debtSupply := by
  cases t with
  | erc20 t =>
      simp only [approve, bind_eq_ok, pure_eq_ok] at h
      obtain ⟨t₁, _, rfl⟩ := h
      rfl
  | debtToken t =>
      simp only [approve, bind_eq_ok, pure_eq_ok] at h
      obtain ⟨erc20, happrove, rfl⟩ := h
      exact ERC20.totalSupply_approve happrove

end StakeToken
