import Huski.Lib.ERC721
import Huski.Token.BadgePoints

/-!
# Badges and their points

`BadgeNFT.sol`, and the rest of `BadgePoints.sol`: the invite codes, the referrals, and the
moves of points. Both contracts drop the checks of owner and allowance for the callers on their
whitelist. Names and URIs of badges are left out; nothing reads them.
-/

open Solidity

namespace Huski.Badge

/-- An element of a `uint256[]`; reading past its end reverts. -/
def entry (values : List Nat) (i : Nat) : Result Nat :=
  match values[i]? with
  | some value => .ok value
  | none => .error ""

/-- Addition and subtraction of words without a check. -/
def wrapAdd (a b : Nat) : Nat := (a + b) % wordSize

def wrapSub (a b : Nat) : Nat := (a + wordSize - b) % wordSize

/-- `BadgeNFT.sol` -/
structure BadgeNFT extends ERC721 where
  owner : Address
  okOperators : Address → Bool := fun _ => false
  gradeLimit : Nat := 5
  gradeNeedPoints : List Nat := List.replicate 15 0
  gradeLockHuskys : List Nat := List.replicate 15 0
  gradeLimitAmount : List Nat := List.replicate 15 0
  gradeAmount : List Nat := List.replicate 15 0
  tokensGrade : Nat → Nat := fun _ => 0

namespace BadgeNFT

variable (sender : Address) (t : BadgeNFT)

def onlyOperator : Result Unit :=
  require (t.okOperators sender = true) "BadgePoints::onlyOperator: not operator"

def onlyOwner : Result Unit := require (sender = t.owner) "Ownable: caller is not the owner"

/-- `transferFrom`, and what `safeTransferFrom` moves. -/
def transferFrom (src dst : Address) (tokenId : Nat) : Result BadgeNFT := do
  t.onlyOperator sender
  let items ← t._transfer src dst tokenId
  return { t with toERC721 := items }

/-- An operator burns the owner's badge. -/
def burn (src : Address) (tokenId : Nat) : Result BadgeNFT := do
  t.onlyOperator sender
  let owner ← t.ownerOf tokenId
  require (owner = src) "ERC721: transfer of token that is not own"
  let items ← t._burn tokenId
  let grade := t.tokensGrade tokenId
  let amount ← entry t.gradeAmount grade
  return { t with
    toERC721 := items
    gradeAmount := t.gradeAmount.set grade (wrapSub amount 1)
    tokensGrade := Function.update t.tokensGrade tokenId 0 }

/-- One badge for each account, of a grade that is not full. -/
def mintTo (dst : Address) (tokenId grade : Nat) : Result BadgeNFT := do
  t.onlyOperator sender
  let amount ← entry t.gradeAmount grade
  let limitAmount ← entry t.gradeLimitAmount grade
  let balance ← t.balanceOf dst
  require (balance = 0) "ERC721: One per person"
  require (amount < limitAmount) "upgrade: over AMOUNT LIMIT"
  let items ← t._mint dst tokenId
  return { t with
    toERC721 := items
    tokensGrade := Function.update t.tokensGrade tokenId grade
    gradeAmount := t.gradeAmount.set grade (wrapAdd amount 1) }

/-- The badge changes its grade, where the new one is not full. -/
def upgrade (tokenId newGrade : Nat) : Result BadgeNFT := do
  t.onlyOperator sender
  let grade := t.tokensGrade tokenId
  require (grade < t.gradeLimit) "upgrade: over GRADE LIMIT"
  let amount ← entry t.gradeAmount newGrade
  let limitAmount ← entry t.gradeLimitAmount newGrade
  require (amount < limitAmount) "upgrade: over AMOUNT LIMIT"
  let oldAmount ← entry t.gradeAmount grade
  let fewer := t.gradeAmount.set grade (wrapSub oldAmount 1)
  let newAmount ← entry fewer newGrade
  return { t with
    tokensGrade := Function.update t.tokensGrade tokenId newGrade
    gradeAmount := fewer.set newGrade (wrapAdd newAmount 1) }

/-- The owner names the operators. -/
def setOperatorsOk (operators : List Address) (isOk : Bool) : Result BadgeNFT := do
  t.onlyOwner sender
  return { t with
    okOperators := operators.foldl (fun ok operator => Function.update ok operator isOk)
      t.okOperators }

/-- One round of the loop of `setGradeInfo`. -/
def setGrade (t : BadgeNFT) (id point husky amount : Nat) : Result BadgeNFT := do
  let _ ← entry t.gradeNeedPoints id
  return { t with
    gradeNeedPoints := t.gradeNeedPoints.set id point
    gradeLockHuskys := t.gradeLockHuskys.set id husky
    gradeLimitAmount := t.gradeLimitAmount.set id amount }

/-- The loop of `setGradeInfo`, over `ids`. -/
def setGrades (t : BadgeNFT) : List Nat → List Nat → List Nat → List Nat → Result BadgeNFT
  | [], _, _, _ => .ok t
  | id :: ids, point :: points, husky :: huskys, amount :: amounts => do
      let t ← t.setGrade id point husky amount
      setGrades t ids points huskys amounts
  | _, _, _, _ => .error ""

/-- The entries of several grades are set at once. -/
def setGradeInfo (ids points huskys amounts : List Nat) : Result BadgeNFT := do
  t.onlyOwner sender
  { t with gradeLimit := max t.gradeLimit ids.length }.setGrades ids points huskys amounts

def transferOwnership (newOwner : Address) : Result BadgeNFT := do
  t.onlyOwner sender
  require (newOwner ≠ 0) "Ownable: new owner is the zero address"
  return { t with owner := newOwner }

def renounceOwnership : Result BadgeNFT := do
  t.onlyOwner sender
  return { t with owner := 0 }

end BadgeNFT

/-- `BadgePoints.sol`: the points with the codes of `InviteInfo` and their owners. -/
structure Points extends BadgePoints where
  owner : Address
  /-- `inviteCodes[account].inviteCode` -/
  inviteCode : Address → Nat := fun _ => 0
  inviteCodesOwner : Nat → Address := fun _ => 0

namespace Points

variable (sender : Address) (p : Points)

def onlyOperator : Result Unit :=
  require (p.okOperators sender = true) "BadgePoints::onlyOperator: not operator"

def onlyOwner : Result Unit := require (sender = p.owner) "Ownable: caller is not the owner"

/-- `inviteCodes[account].deleted = true` -/
def delete (account : Address) : Points :=
  { p with deleted := Function.update p.deleted account true }

/-- The account registers its code, and the owner of the invite code as who invited it. -/
def makeInviteRelation (account : Address) (userCode inviteCode : Nat) : Result Points := do
  p.onlyOperator sender
  require (account ≠ 0) "BadgePoints: mint to the zero address"
  require (userCode > 10000) "BadgePoints: UserCode must be greater than 10000"
  require (p.inviteCodesOwner userCode = 0) "BadgePoints: UserCode had maked"
  require (p.deleted account = false) "BadgePoints: One per person"
  let inviteCodesOwner := Function.update p.inviteCodesOwner userCode account
  return { p with
    inviteCode := Function.update p.inviteCode account userCode
    deleted := Function.update p.deleted account false
    inviteCodesOwner
    -- the code of the account is already in the map
    relationShips := Function.update p.relationShips account (inviteCodesOwner inviteCode) }

/-- The sender's code goes with its points. -/
def transfer (recipient : Address) (amount : Nat) : Result Points := do
  p.onlyOperator sender
  let erc20 ← p.erc20._transfer sender recipient amount
  return { p with erc20 }.delete sender

def transferFrom (src recipient : Address) (amount : Nat) : Result Points := do
  p.onlyOperator sender
  let erc20 ← p.erc20._transfer src recipient amount
  return { p with erc20 }.delete src

def mint (account : Address) (amount : Nat) : Result Points := do
  let minted ← p.toBadgePoints.mint sender account amount
  return { p with toBadgePoints := minted }

/-- The account's code is not used any more. -/
def deleteInvite (account : Address) : Result Points := do
  p.onlyOperator sender
  return p.delete account

/-- The points are burned with the code. -/
def burn (account : Address) (amount : Nat) : Result Points := do
  p.onlyOperator sender
  let erc20 ← p.erc20._burn account amount
  return { p with erc20 }.delete account

/-- `approve`, and what the changes of an allowance leave. -/
def approve (spender : Address) (amount : Nat) : Result Points := do
  let erc20 ← p.erc20._approve sender spender amount
  return { p with erc20 }

def setOperatorOk (operators : List Address) (isOk : Bool) : Result Points := do
  p.onlyOwner sender
  return { p with
    okOperators := operators.foldl (fun ok operator => Function.update ok operator isOk)
      p.okOperators }

def setAllocPoint (allocPoint : Nat) : Result Points := do
  p.onlyOwner sender
  return { p with allocPoint }

def transferOwnership (newOwner : Address) : Result Points := do
  p.onlyOwner sender
  require (newOwner ≠ 0) "Ownable: new owner is the zero address"
  return { p with owner := newOwner }

def renounceOwnership : Result Points := do
  p.onlyOwner sender
  return { p with owner := 0 }

end Points

/-! ## What a successful operation did -/

section Calls

variable {sender account src dst operator : Address} {amount tokenId grade newGrade : Nat}
  {t t' : BadgeNFT} {p p' : Points}

namespace BadgeNFT

theorem transferFrom_eq_ok (h : t.transferFrom sender src dst tokenId = .ok t') :
    t._transfer src dst tokenId = .ok t'.toERC721 := by
  simp only [transferFrom, bind_eq_ok, pure_eq_ok] at h
  obtain ⟨_, _, items, hmoves, rfl⟩ := h
  exact hmoves

/-- A burn is of the owner's badge. -/
theorem burn_eq_ok (h : t.burn sender src tokenId = .ok t') :
    t.tokenOwners tokenId = src ∧ t._burn tokenId = .ok t'.toERC721 := by
  simp only [burn, bind_eq_ok, ERC721.ownerOf_eq_ok, require_eq_ok, pure_eq_ok] at h
  obtain ⟨_, _, _, ⟨_, howner⟩, _, hsrc, items, hburns, _, _, rfl⟩ := h
  exact ⟨howner.trans hsrc, hburns⟩

/-- A mint is for somebody without a badge. -/
theorem mintTo_eq_ok (h : t.mintTo sender dst tokenId grade = .ok t') :
    (t.holderTokens dst).card = 0 ∧ t._mint dst tokenId = .ok t'.toERC721 := by
  simp only [mintTo, ERC721.balanceOf, bind_eq_ok, require_eq_ok, pure_eq_ok] at h
  obtain ⟨_, _, _, _, _, _, _, ⟨_, _, rfl⟩, _, hnone, _, _, items, hmints, rfl⟩ := h
  exact ⟨hnone, hmints⟩

/-- An upgrade moves no badge. -/
theorem upgrade_eq_ok (h : t.upgrade sender tokenId newGrade = .ok t') :
    t'.toERC721 = t.toERC721 := by
  simp only [upgrade, bind_eq_ok, pure_eq_ok] at h
  obtain ⟨_, _, _, _, _, _, _, _, _, _, _, _, _, _, rfl⟩ := h
  rfl

theorem setOperatorsOk_eq_ok {operators : List Address} {isOk : Bool}
    (h : t.setOperatorsOk sender operators isOk = .ok t') : t'.toERC721 = t.toERC721 := by
  simp only [setOperatorsOk, bind_eq_ok, pure_eq_ok] at h
  obtain ⟨_, _, rfl⟩ := h
  rfl

theorem setGrades_eq_ok {ids points huskys amounts : List Nat}
    (h : t.setGrades ids points huskys amounts = .ok t') : t'.toERC721 = t.toERC721 := by
  induction ids generalizing t points huskys amounts with
  | nil =>
      cases h
      rfl
  | cons id ids ih =>
      cases points with
      | nil => cases h
      | cons point points =>
          cases huskys with
          | nil => cases h
          | cons husky huskys =>
              cases amounts with
              | nil => cases h
              | cons amount amounts =>
                  simp only [setGrades, setGrade, bind_eq_ok, pure_eq_ok] at h
                  obtain ⟨_, ⟨_, _, rfl⟩, hrest⟩ := h
                  have hsame := ih hrest
                  exact hsame

theorem setGradeInfo_eq_ok {ids points huskys amounts : List Nat}
    (h : t.setGradeInfo sender ids points huskys amounts = .ok t') : t'.toERC721 = t.toERC721 := by
  simp only [setGradeInfo, bind_eq_ok] at h
  obtain ⟨_, _, hgrades⟩ := h
  have hsame := setGrades_eq_ok hgrades
  exact hsame

theorem transferOwnership_eq_ok (h : t.transferOwnership sender dst = .ok t') :
    t'.toERC721 = t.toERC721 := by
  simp only [transferOwnership, bind_eq_ok, pure_eq_ok] at h
  obtain ⟨_, _, _, _, rfl⟩ := h
  rfl

theorem renounceOwnership_eq_ok (h : t.renounceOwnership sender = .ok t') :
    t'.toERC721 = t.toERC721 := by
  simp only [renounceOwnership, bind_eq_ok, pure_eq_ok] at h
  obtain ⟨_, _, rfl⟩ := h
  rfl

end BadgeNFT

namespace Points

/-- What a registration wrote, and what it checked. -/
structure Registers (account : Address) (userCode referrerCode : Nat) (p p' : Points) :
    Prop where
  account_ne : account ≠ 0
  userCode_gt : 10000 < userCode
  unowned : p.inviteCodesOwner userCode = 0
  live : p.deleted account = false
  inviteCode : p'.inviteCode = Function.update p.inviteCode account userCode
  deleted : p'.deleted = p.deleted
  inviteCodesOwner : p'.inviteCodesOwner = Function.update p.inviteCodesOwner userCode account
  relationShips : p'.relationShips = Function.update p.relationShips account
    (Function.update p.inviteCodesOwner userCode account referrerCode)
  erc20 : p'.erc20 = p.erc20

/-- A relation registers a code that was free. -/
theorem makeInviteRelation_registers {userCode inviteCode : Nat}
    (h : p.makeInviteRelation sender account userCode inviteCode = .ok p') :
    Registers account userCode inviteCode p p' := by
  simp only [makeInviteRelation, bind_eq_ok, require_eq_ok, pure_eq_ok] at h
  obtain ⟨_, _, _, haccount, _, hcode, _, hunowned, _, hlive, rfl⟩ := h
  refine ⟨haccount, hcode, hunowned, hlive, rfl, ?_, rfl, rfl, rfl⟩
  exact Function.update_eq_self_iff.mpr hlive.symm

/-- The codes and referrals are the same; no account is registered again. -/
structure SameCodes (p p' : Points) : Prop where
  inviteCode : p'.inviteCode = p.inviteCode
  inviteCodesOwner : p'.inviteCodesOwner = p.inviteCodesOwner
  relationShips : p'.relationShips = p.relationShips
  deleted : ∀ a, p.deleted a = true → p'.deleted a = true

theorem SameCodes.refl (p : Points) : SameCodes p p := ⟨rfl, rfl, rfl, fun _ h => h⟩

/-- A code that is live was live. -/
theorem SameCodes.live (h : SameCodes p p') (hlive : p'.deleted account = false) :
    p.deleted account = false := by
  by_contra hdeleted
  rw [h.deleted account (Bool.eq_true_of_not_eq_false hdeleted)] at hlive
  cases hlive

theorem sameCodes_erc20 (p : Points) (erc20 : ERC20) : SameCodes p { p with erc20 } :=
  ⟨rfl, rfl, rfl, fun _ h => h⟩

/-- Deleting a code gives it to nobody else. -/
theorem SameCodes.delete {q : Points} (h : SameCodes p q) (account : Address) :
    SameCodes p (q.delete account) where
  inviteCode := h.inviteCode
  inviteCodesOwner := h.inviteCodesOwner
  relationShips := h.relationShips
  deleted a ha := by
    show Function.update q.deleted account true a = true
    by_cases haccount : a = account
    · rw [haccount, Function.update_self]
    · rw [Function.update_of_ne haccount]
      exact h.deleted a ha

/-- A transfer deletes the sender's code. -/
theorem transfer_eq_ok (h : p.transfer sender dst amount = .ok p') :
    p.erc20._transfer sender dst amount = .ok p'.erc20 ∧ p'.deleted sender = true ∧
      SameCodes p p' := by
  simp only [transfer, bind_eq_ok, pure_eq_ok] at h
  obtain ⟨_, _, erc20, hmoves, rfl⟩ := h
  exact ⟨hmoves, Function.update_self _ _ _, (sameCodes_erc20 p erc20).delete _⟩

theorem transferFrom_eq_ok (h : p.transferFrom sender src dst amount = .ok p') :
    p.erc20._transfer src dst amount = .ok p'.erc20 ∧ p'.deleted src = true ∧ SameCodes p p' := by
  simp only [transferFrom, bind_eq_ok, pure_eq_ok] at h
  obtain ⟨_, _, erc20, hmoves, rfl⟩ := h
  exact ⟨hmoves, Function.update_self _ _ _, (sameCodes_erc20 p erc20).delete _⟩

/-- A deletion moves no points. -/
theorem deleteInvite_eq_ok (h : p.deleteInvite sender account = .ok p') :
    p'.erc20 = p.erc20 ∧ p'.deleted account = true ∧ SameCodes p p' := by
  simp only [deleteInvite, bind_eq_ok, pure_eq_ok] at h
  obtain ⟨_, _, rfl⟩ := h
  exact ⟨rfl, Function.update_self _ _ _, (SameCodes.refl p).delete _⟩

theorem burn_eq_ok (h : p.burn sender account amount = .ok p') :
    p.erc20._burn account amount = .ok p'.erc20 ∧ SameCodes p p' := by
  simp only [burn, bind_eq_ok, pure_eq_ok] at h
  obtain ⟨_, _, erc20, hburns, rfl⟩ := h
  exact ⟨hburns, (sameCodes_erc20 p erc20).delete _⟩

/-- What minting does after the account has its points: a reward for its referrer, unless there is
none or it is deleted. -/
theorem reward_eq_ok {b b' : BadgePoints} {erc20 : ERC20}
    (h : (if b.relationShips account = 0 then (pure { b with erc20 } : Result BadgePoints)
      else if b.deleted (b.relationShips account) = true then pure { b with erc20 }
      else do
        let product ← SafeMath.mul b.allocPoint amount
        let erc20 ← erc20._mint (b.relationShips account) (product / 100)
        pure { b with erc20 }) = .ok b') :
    b' = { b with erc20 := b'.erc20 } ∧ (b'.erc20 = erc20 ∨ b.relationShips account ≠ 0 ∧
      ∃ reward, erc20._mint (b.relationShips account) reward = .ok b'.erc20) := by
  split at h
  · cases h
    exact ⟨rfl, .inl rfl⟩
  · rename_i hreferrer
    split at h
    · cases h
      exact ⟨rfl, .inl rfl⟩
    · simp only [bind_eq_ok, pure_eq_ok] at h
      obtain ⟨product, _, rewarded, hmints, rfl⟩ := h
      exact ⟨rfl, .inr ⟨hreferrer, _, hmints⟩⟩

/-- Minting gives points to the account, unless it is deleted, and a reward to its referrer. -/
theorem mint_eq_ok (h : p.mint sender account amount = .ok p') :
    SameCodes p p' ∧ ∃ erc20,
      (erc20 = p.erc20 ∨ p.erc20._mint account amount = .ok erc20) ∧
      (p'.erc20 = erc20 ∨ p.relationShips account ≠ 0 ∧
        ∃ reward, erc20._mint (p.relationShips account) reward = .ok p'.erc20) := by
  simp only [mint, BadgePoints.mint, bind_eq_ok, pure_eq_ok] at h
  obtain ⟨b, ⟨_, _, h⟩, rfl⟩ := h
  split at h
  · obtain ⟨hsame, hreward⟩ := reward_eq_ok h
    rw [hsame]
    exact ⟨⟨rfl, rfl, rfl, fun _ ha => ha⟩, p.erc20, .inl rfl, hreward⟩
  · obtain ⟨erc20, hmints, h⟩ := bind_eq_ok.mp h
    obtain ⟨hsame, hreward⟩ := reward_eq_ok h
    rw [hsame]
    exact ⟨⟨rfl, rfl, rfl, fun _ ha => ha⟩, erc20, .inr hmints, hreward⟩

theorem approve_eq_ok {spender : Address} (h : p.approve sender spender amount = .ok p') :
    p'.erc20.balanceOf = p.erc20.balanceOf ∧ SameCodes p p' := by
  simp only [approve, bind_eq_ok, pure_eq_ok] at h
  obtain ⟨erc20, happroves, rfl⟩ := h
  exact ⟨ERC20.balanceOf_approve happroves, rfl, rfl, rfl, fun _ ha => ha⟩

theorem setOperatorOk_eq_ok {operators : List Address} {isOk : Bool}
    (h : p.setOperatorOk sender operators isOk = .ok p') :
    p'.erc20 = p.erc20 ∧ SameCodes p p' := by
  simp only [setOperatorOk, bind_eq_ok, pure_eq_ok] at h
  obtain ⟨_, _, rfl⟩ := h
  exact ⟨rfl, rfl, rfl, rfl, fun _ ha => ha⟩

theorem setAllocPoint_eq_ok (h : p.setAllocPoint sender amount = .ok p') :
    p'.erc20 = p.erc20 ∧ SameCodes p p' := by
  simp only [setAllocPoint, bind_eq_ok, pure_eq_ok] at h
  obtain ⟨_, _, rfl⟩ := h
  exact ⟨rfl, rfl, rfl, rfl, fun _ ha => ha⟩

theorem transferOwnership_eq_ok (h : p.transferOwnership sender dst = .ok p') :
    p'.erc20 = p.erc20 ∧ SameCodes p p' := by
  simp only [transferOwnership, bind_eq_ok, pure_eq_ok] at h
  obtain ⟨_, _, _, _, rfl⟩ := h
  exact ⟨rfl, rfl, rfl, rfl, fun _ ha => ha⟩

theorem renounceOwnership_eq_ok (h : p.renounceOwnership sender = .ok p') :
    p'.erc20 = p.erc20 ∧ SameCodes p p' := by
  simp only [renounceOwnership, bind_eq_ok, pure_eq_ok] at h
  obtain ⟨_, _, rfl⟩ := h
  exact ⟨rfl, rfl, rfl, rfl, fun _ ha => ha⟩

end Points

end Calls

end Huski.Badge
