import Huski.Badge.Tokens
import Huski.Lib.TSys

/-!
# The badge relayer as a system

`BadgeRelayer.sol` with the two contracts that it writes, from their deployment on. Anybody calls
any of the three; what a call makes of the callers on the whitelists is left to the contracts.
The answers of the other contracts (HUSKY, FairLaunch, the price oracle, the vault config, the
payment token) come with the transaction. The payment token runs before the first and after the
last write of `transferBadge`: what it calls back are transactions of its own.
-/

open Solidity

namespace Huski.Badge

/-- The relayer at `here`, and the two tokens at their addresses. -/
structure State where
  here : Address
  nftHere : Address
  pointsHere : Address
  owner : Address
  nft : BadgeNFT
  points : Points

/-- What other contracts answer in a transaction. -/
structure Outside where
  /-- `husky.balanceOf(msg.sender)` -/
  balanceHusky : Nat := 0
  /-- FairLaunch locks or unlocks the HUSKY of the grade -/
  fairLaunch : Bool := true
  /-- the price of `complexOracle` -/
  price : Nat := 0
  /-- `config.getWrappedNativeAddr()` -/
  wrappedNative : Address := 0
  /-- `config.getWNativeRelayer()` -/
  wNativeRelayer : Address := 0
  /-- the payment token takes the payment -/
  tokenIn : Bool := true
  /-- the payment token hands it on -/
  tokenOut : Bool := true
  /-- native coins are unwrapped and sent -/
  unwraps : Bool := true

section Relayer

variable (sender : Address) (o : Outside) (s : State)

/-- Lock the grade's HUSKY, mint the badge and relate the codes. -/
def mintBadge (tokenId grade userCode inviteCode : Nat) : Result State := do
  let gradeLockHusky ← entry s.nft.gradeLockHuskys grade
  let needPoints ← entry s.nft.gradeNeedPoints grade
  require (s.points.erc20.balanceOf sender ≥ needPoints) "mintBadge: Points not enough"
  require (o.balanceHusky ≥ gradeLockHusky) "mintBadge: Husky not enough"
  let points ← s.points.makeInviteRelation s.here sender userCode inviteCode
  let nft ← s.nft.mintTo s.here sender tokenId grade
  require (o.fairLaunch = true) ""
  return { s with nft, points }

/-- Lock the difference to the new grade. -/
def upgradeBadge (tokenId newGrade : Nat) : Result State := do
  let grade := s.nft.tokensGrade tokenId
  require (newGrade > grade) "upgradeBadge: NewGrade not biger"
  let gradeLockHusky ← entry s.nft.gradeLockHuskys grade
  let nextGradeLockHusky ← entry s.nft.gradeLockHuskys newGrade
  let owner ← s.nft.ownerOf tokenId
  require (sender = owner) "upgradeBadge: Sender not owner"
  let needPoints ← entry s.nft.gradeNeedPoints newGrade
  require (s.points.erc20.balanceOf sender ≥ needPoints) "upgradeBadge: Points not enough"
  require (o.balanceHusky ≥ wrapSub nextGradeLockHusky gradeLockHusky)
    "upgradeBadge: Husky not enough"
  let nft ← s.nft.upgrade s.here tokenId newGrade
  let _ ← SafeMath.sub nextGradeLockHusky gradeLockHusky
  require (o.fairLaunch = true) ""
  return { s with nft }

/-- `transferTokenToRelayer`: native coins are wrapped, other tokens are taken from the sender.
The token may be one of the two contracts themselves; a badge has the same `transferFrom`. -/
def transferTokenToRelayer (value : Nat) (token : Address) (amount : Nat) : Result State :=
  if value ≠ 0 then do
    require (token = o.wrappedNative) "Vault::transferTokenToRelayer: baseToken is not wNative"
    require (amount = value) "Vault::transferTokenToRelayer: value != msg.value"
    -- the two contracts have no `deposit`
    require (o.tokenIn = true ∧ token ≠ s.pointsHere ∧ token ≠ s.nftHere) ""
    return s
  else if token = s.pointsHere then do
    let points ← lowLevel "!safeTransferFrom" (s.points.transferFrom s.here sender s.here amount)
    return { s with points }
  else if token = s.nftHere then do
    let nft ← lowLevel "!safeTransferFrom" (s.nft.transferFrom s.here sender s.here amount)
    return { s with nft }
  else do
    require (o.tokenIn = true) "!safeTransferFrom"
    return s

/-- `SafeToken.safeTransfer` of the relayer; a badge has no `transfer`. -/
def safeTransfer (token dst : Address) (amount : Nat) : Result State :=
  if token = s.pointsHere then do
    let points ← lowLevel "!safeTransfer" (s.points.transfer s.here dst amount)
    return { s with points }
  else do
    require (o.tokenOut = true ∧ token ≠ s.nftHere) "!safeTransfer"
    return s

/-- The payment of `transferBadge` to `dst`. -/
def pay (token dst : Address) (amount : Nat) : Result State :=
  if token = o.wrappedNative then do
    let s ← safeTransfer o s token o.wNativeRelayer amount
    require (o.unwraps = true) "!safeTransferETH"
    return s
  else safeTransfer o s token dst amount

/-- The badge and the points of its grade go from `dst`, which is paid, to the sender. -/
def transferBadge (value : Nat) (token : Address) (amount : Nat) (dst : Address)
    (tokenId userCode : Nat) : Result State := do
  let s ← transferTokenToRelayer sender o s value token amount
  let gradePoints ← entry s.nft.gradeNeedPoints (s.nft.tokensGrade tokenId)
  let points ← s.points.makeInviteRelation s.here sender userCode 0
  let nft ← s.nft.transferFrom s.here dst sender tokenId
  let points ← points.transferFrom s.here dst sender gradePoints
  pay o { s with nft, points } token dst amount

/-- Burn the sender's badge; FairLaunch unlocks what its grade locks now. -/
def burn (tokenId : Nat) : Result State := do
  let _ ← entry s.nft.gradeLockHuskys (s.nft.tokensGrade tokenId)
  let nft ← s.nft.burn s.here sender tokenId
  let points ← s.points.deleteInvite s.here sender
  require (o.fairLaunch = true) ""
  return { s with nft, points }

/-- The owner mints points for an amount's worth. -/
def mintPoints (account : Address) (amount multiplier : Nat) : Result State := do
  require (sender = s.owner) "Ownable: caller is not the owner"
  let worth ← SafeMath.mul amount o.price
  let worth ← SafeMath.mul worth multiplier
  let points ← s.points.mint s.here account (worth / 10 ^ 18)
  return { s with points }

def transferOwnership (newOwner : Address) : Result State := do
  require (sender = s.owner) "Ownable: caller is not the owner"
  require (newOwner ≠ 0) "Ownable: new owner is the zero address"
  return { s with owner := newOwner }

def renounceOwnership : Result State := do
  require (sender = s.owner) "Ownable: caller is not the owner"
  return { s with owner := 0 }

end Relayer

/-! ## Transactions -/

/-- The calls of the two tokens. -/
inductive TokenOp
  | nftApprove (dst : Address) (tokenId : Nat)
  | nftSetApprovalForAll (operator : Address) (approved : Bool)
  | nftTransferFrom (src dst : Address) (tokenId : Nat)
  | nftBurn (src : Address) (tokenId : Nat)
  | nftMintTo (dst : Address) (tokenId grade : Nat)
  | nftUpgrade (tokenId newGrade : Nat)
  | nftSetOperatorsOk (operators : List Address) (isOk : Bool)
  | nftSetGradeInfo (ids points huskys amounts : List Nat)
  | nftTransferOwnership (newOwner : Address)
  | nftRenounceOwnership
  | makeInviteRelation (account : Address) (userCode inviteCode : Nat)
  | pointsTransfer (recipient : Address) (amount : Nat)
  | pointsTransferFrom (src recipient : Address) (amount : Nat)
  | pointsMint (account : Address) (amount : Nat)
  | deleteInvite (account : Address)
  | pointsBurn (account : Address) (amount : Nat)
  | pointsApprove (spender : Address) (amount : Nat)
  | setOperatorOk (operators : List Address) (isOk : Bool)
  | setAllocPoint (allocPoint : Nat)
  | pointsTransferOwnership (newOwner : Address)
  | pointsRenounceOwnership

inductive Op
  | mintBadge (tokenId grade userCode inviteCode : Nat)
  | upgradeBadge (tokenId newGrade : Nat)
  | transferBadge (token : Address) (amount : Nat) (dst : Address) (tokenId userCode : Nat)
  | burn (tokenId : Nat)
  | mintPoints (account : Address) (amount multiplier : Nat)
  | transferOwnership (newOwner : Address)
  | renounceOwnership
  | token (op : TokenOp)

structure Tx where
  sender : Address
  /-- `msg.value` -/
  value : Nat := 0
  outside : Outside := {}
  op : Op

def onNft (f : BadgeNFT → Result BadgeNFT) (s : State) : Result State := do
  let nft ← f s.nft
  return { s with nft }

def onPoints (f : Points → Result Points) (s : State) : Result State := do
  let points ← f s.points
  return { s with points }

/-- The call of one function of a token. -/
def execToken (sender : Address) (op : TokenOp) (s : State) : Result State :=
  match op with
  | .nftApprove dst tokenId => onNft (fun t => do
      let items ← t.approve sender dst tokenId
      return { t with toERC721 := items }) s
  | .nftSetApprovalForAll operator approved => onNft (fun t => do
      let items ← t.setApprovalForAll sender operator approved
      return { t with toERC721 := items }) s
  | .nftTransferFrom src dst tokenId => onNft (·.transferFrom sender src dst tokenId) s
  | .nftBurn src tokenId => onNft (·.burn sender src tokenId) s
  | .nftMintTo dst tokenId grade => onNft (·.mintTo sender dst tokenId grade) s
  | .nftUpgrade tokenId newGrade => onNft (·.upgrade sender tokenId newGrade) s
  | .nftSetOperatorsOk operators isOk => onNft (·.setOperatorsOk sender operators isOk) s
  | .nftSetGradeInfo ids points huskys amounts =>
      onNft (·.setGradeInfo sender ids points huskys amounts) s
  | .nftTransferOwnership newOwner => onNft (·.transferOwnership sender newOwner) s
  | .nftRenounceOwnership => onNft (·.renounceOwnership sender) s
  | .makeInviteRelation account userCode inviteCode =>
      onPoints (·.makeInviteRelation sender account userCode inviteCode) s
  | .pointsTransfer recipient amount => onPoints (·.transfer sender recipient amount) s
  | .pointsTransferFrom src recipient amount =>
      onPoints (·.transferFrom sender src recipient amount) s
  | .pointsMint account amount => onPoints (·.mint sender account amount) s
  | .deleteInvite account => onPoints (·.deleteInvite sender account) s
  | .pointsBurn account amount => onPoints (·.burn sender account amount) s
  | .pointsApprove spender amount => onPoints (·.approve sender spender amount) s
  | .setOperatorOk operators isOk => onPoints (·.setOperatorOk sender operators isOk) s
  | .setAllocPoint allocPoint => onPoints (·.setAllocPoint sender allocPoint) s
  | .pointsTransferOwnership newOwner => onPoints (·.transferOwnership sender newOwner) s
  | .pointsRenounceOwnership => onPoints (·.renounceOwnership sender) s

def exec (s : State) (tx : Tx) : Result State :=
  match tx.op with
  | .mintBadge tokenId grade userCode inviteCode =>
      mintBadge tx.sender tx.outside s tokenId grade userCode inviteCode
  | .upgradeBadge tokenId newGrade => upgradeBadge tx.sender tx.outside s tokenId newGrade
  | .transferBadge token amount dst tokenId userCode =>
      transferBadge tx.sender tx.outside s tx.value token amount dst tokenId userCode
  | .burn tokenId => burn tx.sender tx.outside s tokenId
  | .mintPoints account amount multiplier =>
      mintPoints tx.sender tx.outside s account amount multiplier
  | .transferOwnership newOwner => transferOwnership tx.sender s newOwner
  | .renounceOwnership => renounceOwnership tx.sender s
  | .token op => execToken tx.sender op s

/-- The three contracts as their deployers leave them. -/
def machine : TSys State Tx where
  init s := ∃ nftOwner pointsOwner,
    s.nft = { owner := nftOwner } ∧ s.points = { owner := pointsOwner }
  step := exec

/-! ## What a successful call did -/

section Calls

variable {sender : Address} {o : Outside} {s s' : State}

theorem onNft_eq_ok {f : BadgeNFT → Result BadgeNFT} (h : onNft f s = .ok s') :
    f s.nft = .ok s'.nft ∧ s'.points = s.points := by
  simp only [onNft, bind_eq_ok, pure_eq_ok] at h
  obtain ⟨nft, hnft, rfl⟩ := h
  exact ⟨hnft, rfl⟩

theorem onPoints_eq_ok {f : Points → Result Points} (h : onPoints f s = .ok s') :
    f s.points = .ok s'.points ∧ s'.nft = s.nft := by
  simp only [onPoints, bind_eq_ok, pure_eq_ok] at h
  obtain ⟨points, hpoints, rfl⟩ := h
  exact ⟨hpoints, rfl⟩

theorem mintBadge_eq_ok {tokenId grade userCode inviteCode : Nat}
    (h : mintBadge sender o s tokenId grade userCode inviteCode = .ok s') :
    Points.Registers sender userCode inviteCode s.points s'.points ∧
      s.nft.mintTo s.here sender tokenId grade = .ok s'.nft := by
  simp only [mintBadge, bind_eq_ok, pure_eq_ok] at h
  obtain ⟨_, _, _, _, _, _, _, _, points, hregisters, nft, hmints, _, _, rfl⟩ := h
  exact ⟨Points.makeInviteRelation_registers hregisters, hmints⟩

theorem upgradeBadge_eq_ok {tokenId newGrade : Nat}
    (h : upgradeBadge sender o s tokenId newGrade = .ok s') :
    s'.nft.toERC721 = s.nft.toERC721 ∧ s'.points = s.points := by
  simp only [upgradeBadge, bind_eq_ok, pure_eq_ok] at h
  obtain ⟨_, _, _, _, _, _, _, _, _, _, _, _, _, _, _, _, nft, hupgrades, _, _, _, _, rfl⟩ := h
  exact ⟨BadgeNFT.upgrade_eq_ok hupgrades, rfl⟩

theorem burn_eq_ok {tokenId : Nat} (h : burn sender o s tokenId = .ok s') :
    s.nft.burn s.here sender tokenId = .ok s'.nft ∧
      s.points.deleteInvite s.here sender = .ok s'.points := by
  simp only [burn, bind_eq_ok, pure_eq_ok] at h
  obtain ⟨_, _, nft, hburns, points, hdeletes, _, _, rfl⟩ := h
  exact ⟨hburns, hdeletes⟩

theorem mintPoints_eq_ok {account : Address} {amount multiplier : Nat}
    (h : mintPoints sender o s account amount multiplier = .ok s') :
    s'.nft = s.nft ∧ ∃ minted, s.points.mint s.here account minted = .ok s'.points := by
  simp only [mintPoints, bind_eq_ok, pure_eq_ok] at h
  obtain ⟨_, _, _, _, _, _, points, hmints, rfl⟩ := h
  exact ⟨rfl, _, hmints⟩

theorem transferOwnership_eq_ok {newOwner : Address}
    (h : transferOwnership sender s newOwner = .ok s') :
    s'.nft = s.nft ∧ s'.points = s.points := by
  simp only [transferOwnership, bind_eq_ok, pure_eq_ok] at h
  obtain ⟨_, _, _, _, rfl⟩ := h
  exact ⟨rfl, rfl⟩

theorem renounceOwnership_eq_ok (h : renounceOwnership sender s = .ok s') :
    s'.nft = s.nft ∧ s'.points = s.points := by
  simp only [renounceOwnership, bind_eq_ok, pure_eq_ok] at h
  obtain ⟨_, _, rfl⟩ := h
  exact ⟨rfl, rfl⟩

/-- What a successful trade did: the sender was registered, and the badge and points went from
`dst` to it. -/
structure Trades (sender dst : Address) (tokenId userCode : Nat) (s s' : State) : Prop where
  registers : ∃ points gradePoints, Points.Registers sender userCode 0 s.points points ∧
    points.transferFrom s.here dst sender gradePoints = .ok s'.points
  moves : s.nft.transferFrom s.here dst sender tokenId = .ok s'.nft

theorem pay_eq_ok {token dst : Address} {amount : Nat} (hpays : pay o s token dst amount = .ok s')
    (hpoints : token ≠ s.pointsHere) : token ≠ s.nftHere ∧ s' = s := by
  have hsafe : ∀ {dst s'}, safeTransfer o s token dst amount = .ok s' →
      token ≠ s.nftHere ∧ s' = s := by
    intro dst s' h
    unfold safeTransfer at h
    rw [if_neg hpoints] at h
    simp only [bind_eq_ok, require_eq_ok, pure_eq_ok] at h
    obtain ⟨_, ⟨_, hnft⟩, rfl⟩ := h
    exact ⟨hnft, rfl⟩
  unfold pay at hpays
  split at hpays
  · simp only [bind_eq_ok, pure_eq_ok] at hpays
    obtain ⟨_, htransfers, _, _, rfl⟩ := hpays
    exact hsafe htransfers
  · exact hsafe hpays

/-- A payment in points deletes the invitation of the sender. -/
theorem transferTokenToRelayer_eq_ok {value amount : Nat} {token : Address}
    (h : transferTokenToRelayer sender o s value token amount = .ok s') :
    s'.points.deleted sender = true ∨
      token ≠ s.pointsHere ∧ s'.pointsHere = s.pointsHere ∧ s'.nftHere = s.nftHere ∧
        (token ≠ s.nftHere → s' = s) := by
  unfold transferTokenToRelayer at h
  split at h
  · simp only [bind_eq_ok, require_eq_ok, pure_eq_ok] at h
    obtain ⟨_, _, _, _, _, ⟨_, hpoints, _⟩, rfl⟩ := h
    exact .inr ⟨hpoints, rfl, rfl, fun _ => rfl⟩
  · split at h
    · simp only [bind_eq_ok, lowLevel_eq_ok, pure_eq_ok] at h
      obtain ⟨points, htaken, rfl⟩ := h
      exact .inl (Points.transferFrom_eq_ok htaken).2.1
    · rename_i hpoints
      split at h
      · rename_i hnft
        simp only [bind_eq_ok, pure_eq_ok] at h
        obtain ⟨_, _, rfl⟩ := h
        exact .inr ⟨hpoints, rfl, rfl, fun hne => absurd hnft hne⟩
      · simp only [bind_eq_ok, pure_eq_ok] at h
        obtain ⟨_, _, rfl⟩ := h
        exact .inr ⟨hpoints, rfl, rfl, fun _ => rfl⟩

/-- A sender without its invitation can not register, and a badge that was taken is not handed
on. So a trade is paid in another token. -/
theorem transferBadge_trades {value amount tokenId userCode : Nat} {token dst : Address}
    (h : transferBadge sender o s value token amount dst tokenId userCode = .ok s') :
    Trades sender dst tokenId userCode s s' := by
  simp only [transferBadge, bind_eq_ok] at h
  obtain ⟨s₁, htaken, gradePoints, _, points, hregisters, nft, hmoves, paid, hpoints, hpays⟩ := h
  have hregisters := Points.makeInviteRelation_registers hregisters
  rcases transferTokenToRelayer_eq_ok htaken with hdeleted | ⟨hother, hpointsHere, hnftHere, hsame⟩
  · rw [hregisters.live] at hdeleted
    cases hdeleted
  · rw [← hpointsHere] at hother
    obtain ⟨hnft, rfl⟩ := pay_eq_ok hpays hother
    have hsame : s₁ = s := hsame (hnftHere ▸ hnft)
    subst hsame
    exact ⟨⟨points, gradePoints, hregisters, hpoints⟩, hmoves⟩

end Calls

/-- The relayer at address 200 with badges at 201 and points at 202, which account 50 deploys. -/
def deployed : State where
  here := 200
  nftHere := 201
  pointsHere := 202
  owner := 50
  nft := { owner := 50 }
  points := { owner := 50 }

theorem deployed_init : machine.init deployed := ⟨50, 50, rfl, rfl⟩

/-- Account 50 opens both tokens for the relayer, and the first grade for free. -/
def opening : List Tx :=
  [{ sender := 50, op := .token (.nftSetOperatorsOk [200] true) },
   { sender := 50, op := .token (.setOperatorOk [200] true) },
   { sender := 50, op := .token (.nftSetGradeInfo [0] [0] [0] [10]) }]

end Huski.Badge
