import Huski.Lib.ERC20

/-!
# An account that approves nobody

A contract that holds tokens and approves nobody loses them only by its own transfers. On a ledger
whose balances add up to a supply that is a word, a transfer of what is there goes through.
-/

open Solidity

namespace ERC20

/-- A ledger that adds up, on which the keeper has approved nobody. -/
structure Sound (keeper : Address) (t : ERC20) : Prop where
  backed : t.Backed
  supply_lt : t.totalSupply < wordSize
  unapproved : ∀ spender, t.allowance keeper spender = 0

/-- The ledger stays sound and takes nothing from the keeper. -/
def Keeps (keeper : Address) (t t' : ERC20) : Prop :=
  Sound keeper t' ∧ t.balanceOf keeper ≤ t'.balanceOf keeper

variable {keeper sender src dst account : Address} {amount : Nat} {t t' t₁ : ERC20}

namespace Sound

theorem transfer (h : Sound keeper t) (hmoves : t._transfer src dst amount = .ok t') :
    Sound keeper t' where
  backed := h.backed.transfer hmoves
  supply_lt := by
    rw [totalSupply_transfer hmoves]
    exact h.supply_lt
  unapproved spender := by
    rw [allowance_transfer hmoves]
    exact h.unapproved spender

theorem burn (h : Sound keeper t) (hburns : t._burn account amount = .ok t') :
    Sound keeper t' where
  backed := h.backed.burn hburns
  supply_lt := by
    have hsupply := totalSupply_burn hburns
    have hlt := h.supply_lt
    omega
  unapproved spender := by
    rw [allowance_burn hburns]
    exact h.unapproved spender

/-- A transfer by others takes nothing from the keeper. -/
theorem keeps_transfer (h : Sound keeper t) (hsrc : keeper ≠ src)
    (hmoves : t._transfer src dst amount = .ok t') : Keeps keeper t t' := by
  have hbalance := balanceOf_transfer hmoves keeper
  rw [if_neg hsrc] at hbalance
  exact ⟨h.transfer hmoves, by omega⟩

theorem keeps_mint (h : Sound keeper t) (hmints : t._mint account amount = .ok t') :
    Keeps keeper t t' := by
  have hsupply : t.totalSupply + amount < wordSize := by
    simp only [_mint, bind_eq_ok, SafeMath.add_eq_ok] at hmints
    obtain ⟨_, _, _, ⟨hlt, _⟩, _⟩ := hmints
    exact hlt
  refine ⟨⟨h.backed.mint hmints, ?_, fun spender => ?_⟩, ?_⟩
  · rw [totalSupply_mint hmints]
    exact hsupply
  · rw [allowance_mint hmints]
    exact h.unapproved spender
  · rw [balanceOf_mint hmints]
    exact Nat.le_add_right _ _

theorem keeps_burn (h : Sound keeper t) (hother : keeper ≠ account)
    (hburns : t._burn account amount = .ok t') : Keeps keeper t t' := by
  have hbalance := balanceOf_burn hburns keeper
  rw [if_neg hother] at hbalance
  exact ⟨h.burn hburns, by omega⟩

/-- The keeper has approved nobody that could take from it. -/
theorem keeps_transferFrom (h : Sound keeper t)
    (hmoves : t.transferFrom sender src dst amount = .ok t') : Keeps keeper t t' := by
  obtain ⟨hallowed, hallowance⟩ := allowance_transferFrom hmoves
  have hbalance := balanceOf_transferFrom hmoves keeper
  refine ⟨⟨h.backed.transferFrom hmoves, ?_, fun spender => ?_⟩, ?_⟩
  · rw [totalSupply_transferFrom hmoves]
    exact h.supply_lt
  · rw [hallowance]
    by_cases hsrc : keeper = src
    · subst hsrc
      rw [Function.update_self, h.unapproved sender, Nat.zero_sub]
      by_cases hspender : spender = sender
      · rw [hspender, Function.update_self]
      · rw [Function.update_of_ne hspender]
        exact h.unapproved spender
    · rw [Function.update_of_ne hsrc]
      exact h.unapproved spender
  · by_cases hsrc : keeper = src
    · subst hsrc
      rw [h.unapproved sender] at hallowed
      rw [if_pos rfl] at hbalance
      omega
    · rw [if_neg hsrc] at hbalance
      omega

/-- An approval by others gives nobody the keeper's tokens. -/
theorem keeps_approve (h : Sound keeper t) (hsrc : keeper ≠ src)
    (happroves : t._approve src dst amount = .ok t') : Keeps keeper t t' := by
  refine ⟨⟨h.backed.approve happroves, ?_, fun spender => ?_⟩, ?_⟩
  · rw [totalSupply_approve happroves]
    exact h.supply_lt
  · rw [allowance_approve happroves, Function.update_of_ne hsrc]
    exact h.unapproved spender
  · rw [balanceOf_approve happroves]

/-- A transfer of what is there goes through. -/
theorem transfer_isOk (h : Sound keeper t) (hsrc : src ≠ 0) (hdst : dst ≠ 0)
    (hamount : amount ≤ t.balanceOf src) : ∃ t', t._transfer src dst amount = .ok t' := by
  have hfits : (t.setBalance src (t.balanceOf src - amount)).balanceOf dst + amount < wordSize := by
    have hsum := TotalMap.sum_update t.balanceOf id src (t.balanceOf src - amount)
    have hone := TotalMap.le_sum (t.setBalance src (t.balanceOf src - amount)).balanceOf id dst
    have hheld : ∑ a, t.balanceOf a = t.totalSupply := h.backed
    have hsupply := h.supply_lt
    simp only [id, setBalance] at hsum hone ⊢
    omega
  simp only [_transfer, bind_eq_ok, require_eq_ok, pure_eq_ok, SafeMath.subOr_eq_ok,
    SafeMath.add_eq_ok]
  exact ⟨_, (), hsrc, (), hdst, _, ⟨hamount, rfl⟩, _, ⟨hfits, rfl⟩, rfl⟩

/-- So does one by an approved account. -/
theorem transferFrom_isOk (h : Sound keeper t) (hsrc : src ≠ 0) (hdst : dst ≠ 0)
    (hsender : sender ≠ 0) (hamount : amount ≤ t.balanceOf src)
    (hallowed : amount ≤ t.allowance src sender) :
    ∃ t', t.transferFrom sender src dst amount = .ok t' := by
  obtain ⟨t₁, hmoves⟩ := h.transfer_isOk hsrc hdst hamount
  rw [← allowance_transfer hmoves] at hallowed
  simp only [transferFrom, _approve, bind_eq_ok, require_eq_ok, SafeMath.subOr_eq_ok, pure_eq_ok]
  exact ⟨_, t₁, hmoves, _, ⟨hallowed, rfl⟩, (), hsrc, (), hsender, rfl⟩

/-- So does a burn. -/
theorem burn_isOk (h : Sound keeper t) (haccount : account ≠ 0)
    (hamount : amount ≤ t.balanceOf account) : ∃ t', t._burn account amount = .ok t' := by
  have hsupply := h.backed.balanceOf_le account
  simp only [_burn, bind_eq_ok, require_eq_ok, pure_eq_ok, SafeMath.subOr_eq_ok,
    SafeMath.sub_eq_ok]
  exact ⟨_, (), haccount, _, ⟨hamount, rfl⟩, _, ⟨hamount.trans hsupply, rfl⟩, rfl⟩

end Sound

/-- A ledger with everything on one balance. -/
theorem backed_single (account : Address) (amount : Nat) (allowance : Address → Address → Nat) :
    Backed { balanceOf := Function.update (fun _ => 0) account amount, allowance
             totalSupply := amount } := by
  have hsum := TotalMap.sum_update (fun _ : Address => 0) id account amount
  have hzero := TotalMap.sum_zero (fun _ : Address => 0) id fun _ => rfl
  unfold Backed held
  simp only [id] at hsum hzero ⊢
  omega

/-! ## Calls by others -/

/-- The calls that everybody can make. -/
inductive Op
  | transfer (recipient : Address) (amount : Nat)
  | transferFrom (src recipient : Address) (amount : Nat)
  | approve (spender : Address) (amount : Nat)

def exec (sender : Address) (t : ERC20) : Op → Result ERC20
  | .transfer recipient amount => t._transfer sender recipient amount
  | .transferFrom src recipient amount => t.transferFrom sender src recipient amount
  | .approve spender amount => t._approve sender spender amount

variable {op : Op}

theorem Sound.keeps_exec (h : Sound keeper t) (hsender : keeper ≠ sender)
    (hexec : exec sender t op = .ok t') : Keeps keeper t t' := by
  cases op with
  | transfer recipient amount => exact h.keeps_transfer hsender hexec
  | transferFrom src recipient amount => exact h.keeps_transferFrom hexec
  | approve spender amount => exact h.keeps_approve hsender hexec

theorem totalSupply_exec (hexec : exec sender t op = .ok t') : t'.totalSupply = t.totalSupply := by
  cases op with
  | transfer recipient amount => exact totalSupply_transfer hexec
  | transferFrom src recipient amount => exact totalSupply_transferFrom hexec
  | approve spender amount => exact totalSupply_approve hexec

end ERC20
