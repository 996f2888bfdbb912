import Huski.Lib.Checked

/-!
# The standard token of single items

Owners, holdings and approvals of an ERC721 token, with the internal operations that derived
tokens are written in. The items of an account are kept twice, as the owner of each item and as
the set of each holder, and every operation keeps the two together.
-/

open Solidity

/-- The storage of a standard token; an item that does not exist has the owner 0. -/
structure ERC721 where
  tokenOwners : Nat → Address := fun _ => 0
  holderTokens : Address → Finset Nat := fun _ => ∅
  tokenApprovals : Nat → Address := fun _ => 0
  operatorApprovals : Address → Address → Bool := fun _ _ => false

namespace ERC721

def balanceOf (t : ERC721) (owner : Address) : Result Nat := do
  require (owner ≠ 0) "ERC721: balance query for the zero address"
  return (t.holderTokens owner).card

/-- The owner of a token that exists. -/
def ownerOf (t : ERC721) (tokenId : Nat) : Result Address := do
  require (t.tokenOwners tokenId ≠ 0) "ERC721: owner query for nonexistent token"
  return t.tokenOwners tokenId

/-- One account may transfer the token. -/
def _approve (t : ERC721) (recipient : Address) (tokenId : Nat) : ERC721 :=
  { t with tokenApprovals := Function.update t.tokenApprovals tokenId recipient }

/-- The owner or its operator approves. -/
def approve (t : ERC721) (sender recipient : Address) (tokenId : Nat) : Result ERC721 := do
  let owner ← t.ownerOf tokenId
  require (recipient ≠ owner) "ERC721: approval to current owner"
  require (sender = owner ∨ t.operatorApprovals owner sender = true)
    "ERC721: approve caller is not owner nor approved for all"
  return t._approve recipient tokenId

/-- An operator may transfer every token of the sender. -/
def setApprovalForAll (t : ERC721) (sender operator : Address) (approved : Bool) :
    Result ERC721 := do
  require (operator ≠ sender) "ERC721: approve to caller"
  return { t with
    operatorApprovals := Function.update t.operatorApprovals sender
      (Function.update (t.operatorApprovals sender) operator approved) }

/-- The token leaves its owner's set. -/
def removeHolder (t : ERC721) (owner : Address) (tokenId : Nat) : ERC721 :=
  { t with
    holderTokens := Function.update t.holderTokens owner ((t.holderTokens owner).erase tokenId) }

/-- The token enters the set of its new owner. -/
def addHolder (t : ERC721) (owner : Address) (tokenId : Nat) : ERC721 :=
  { t with
    holderTokens := Function.update t.holderTokens owner (insert tokenId (t.holderTokens owner)) }

/-- The owner of the token is written. -/
def setOwner (t : ERC721) (owner : Address) (tokenId : Nat) : ERC721 :=
  { t with tokenOwners := Function.update t.tokenOwners tokenId owner }

/-- A token that does not exist is given to the recipient. -/
def _mint (t : ERC721) (recipient : Address) (tokenId : Nat) : Result ERC721 := do
  require (recipient ≠ 0) "ERC721: mint to the zero address"
  require (t.tokenOwners tokenId = 0) "ERC721: token already minted"
  return (t.addHolder recipient tokenId).setOwner recipient tokenId

/-- A token that exists is no more. -/
def _burn (t : ERC721) (tokenId : Nat) : Result ERC721 := do
  let owner ← t.ownerOf tokenId
  return ((t._approve 0 tokenId).removeHolder owner tokenId).setOwner 0 tokenId

/-- The approval of the token does not survive. -/
def _transfer (t : ERC721) (src dst : Address) (tokenId : Nat) : Result ERC721 := do
  let owner ← t.ownerOf tokenId
  require (owner = src) "ERC721: transfer of token that is not own"
  require (dst ≠ 0) "ERC721: transfer to the zero address"
  return (((t._approve 0 tokenId).removeHolder src tokenId).addHolder dst tokenId).setOwner dst
    tokenId

/-! ## What a successful operation did -/

variable {t t' : ERC721} {a src dst owner : Address} {tokenId id : Nat}

@[simp] theorem ownerOf_eq_ok :
    t.ownerOf tokenId = .ok owner ↔ t.tokenOwners tokenId ≠ 0 ∧ t.tokenOwners tokenId = owner := by
  simp only [ownerOf, bind_eq_ok, require_eq_ok, pure_eq_ok, exists_const]

/-- A mint is of a token that did not exist. -/
theorem mint_eq_ok (h : t._mint dst tokenId = .ok t') :
    dst ≠ 0 ∧ t.tokenOwners tokenId = 0 ∧ t' = (t.addHolder dst tokenId).setOwner dst tokenId := by
  simp only [_mint, bind_eq_ok, require_eq_ok, pure_eq_ok] at h
  obtain ⟨_, hdst, _, hnew, rfl⟩ := h
  exact ⟨hdst, hnew, rfl⟩

/-- A burn is of a token that existed. -/
theorem burn_eq_ok (h : t._burn tokenId = .ok t') :
    t.tokenOwners tokenId ≠ 0 ∧ t' =
      ((t._approve 0 tokenId).removeHolder (t.tokenOwners tokenId) tokenId).setOwner 0 tokenId := by
  simp only [_burn, bind_eq_ok, ownerOf_eq_ok, pure_eq_ok] at h
  obtain ⟨_, ⟨hsome, rfl⟩, rfl⟩ := h
  exact ⟨hsome, rfl⟩

/-- A transfer is by the token's owner. -/
theorem transfer_eq_ok (h : t._transfer src dst tokenId = .ok t') :
    src ≠ 0 ∧ t.tokenOwners tokenId = src ∧ dst ≠ 0 ∧ t' =
      (((t._approve 0 tokenId).removeHolder src tokenId).addHolder dst tokenId).setOwner dst
        tokenId := by
  simp only [_transfer, bind_eq_ok, ownerOf_eq_ok, require_eq_ok, pure_eq_ok] at h
  obtain ⟨_, ⟨hsome, rfl⟩, _, rfl, _, hdst, rfl⟩ := h
  exact ⟨hsome, rfl, hdst, rfl⟩

/-- A mint writes one owner. -/
theorem tokenOwners_mint (h : t._mint dst tokenId = .ok t') :
    t'.tokenOwners = Function.update t.tokenOwners tokenId dst := by
  obtain ⟨_, _, rfl⟩ := mint_eq_ok h
  rfl

/-- A burn writes one owner. -/
theorem tokenOwners_burn (h : t._burn tokenId = .ok t') :
    t'.tokenOwners = Function.update t.tokenOwners tokenId 0 := by
  obtain ⟨_, rfl⟩ := burn_eq_ok h
  rfl

/-- A transfer writes one owner. -/
theorem tokenOwners_transfer (h : t._transfer src dst tokenId = .ok t') :
    t'.tokenOwners = Function.update t.tokenOwners tokenId dst := by
  obtain ⟨_, _, _, rfl⟩ := transfer_eq_ok h
  rfl

theorem tokenOwners_approve (h : t.approve src dst tokenId = .ok t') :
    t'.tokenOwners = t.tokenOwners ∧ t'.holderTokens = t.holderTokens := by
  simp only [approve, bind_eq_ok, pure_eq_ok] at h
  obtain ⟨_, _, _, _, _, _, rfl⟩ := h
  exact ⟨rfl, rfl⟩

theorem tokenOwners_setApprovalForAll {approved : Bool}
    (h : t.setApprovalForAll src dst approved = .ok t') :
    t'.tokenOwners = t.tokenOwners ∧ t'.holderTokens = t.holderTokens := by
  simp only [setApprovalForAll, bind_eq_ok, pure_eq_ok] at h
  obtain ⟨_, _, rfl⟩ := h
  exact ⟨rfl, rfl⟩

/-! ## Owners and holdings -/

/-- The holdings are what the owners say. -/
def Consistent (t : ERC721) : Prop :=
  ∀ a id, id ∈ t.holderTokens a ↔ a ≠ 0 ∧ t.tokenOwners id = a

theorem consistent_empty : Consistent {} := by
  intro a id
  constructor
  · intro h
    cases h
  · rintro ⟨ha, h⟩
    exact absurd h.symm ha

theorem Consistent.mint (hc : t.Consistent) (h : t._mint dst tokenId = .ok t') : t'.Consistent := by
  obtain ⟨hdst, hnew, rfl⟩ := mint_eq_ok h
  intro a id
  have hid := hc a id
  simp only [setOwner, addHolder, Function.update_apply]
  by_cases ha : a = dst <;> by_cases hi : id = tokenId <;> grind

theorem Consistent.burn (hc : t.Consistent) (h : t._burn tokenId = .ok t') : t'.Consistent := by
  obtain ⟨hsome, rfl⟩ := burn_eq_ok h
  intro a id
  have hid := hc a id
  simp only [setOwner, removeHolder, _approve, Function.update_apply]
  by_cases ha : a = t.tokenOwners tokenId <;> by_cases hi : id = tokenId <;> grind

theorem Consistent.transfer (hc : t.Consistent) (h : t._transfer src dst tokenId = .ok t') :
    t'.Consistent := by
  obtain ⟨hsrc, howner, hdst, rfl⟩ := transfer_eq_ok h
  intro a id
  have hid := hc a id
  simp only [setOwner, addHolder, removeHolder, _approve, Function.update_apply]
  by_cases ha : a = dst <;> by_cases hs : a = src <;> by_cases hi : id = tokenId <;> grind

/-- Who holds nothing owns nothing. -/
theorem Consistent.notOwner (hc : t.Consistent) (ha : a ≠ 0) (hnone : t.holderTokens a = ∅)
    (id : Nat) : t.tokenOwners id ≠ a := by
  intro howner
  have hmem : id ∈ t.holderTokens a := (hc a id).mpr ⟨ha, howner⟩
  rw [hnone] at hmem
  cases hmem

end ERC721
