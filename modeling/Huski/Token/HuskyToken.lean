import Huski.Lib.ERC20

/-!
# HUSKY and the tokens that can be staked

`HuskyToken.sol` without `delegateBySig` and the views over past votes: the capped
supply, the locks, and the vote checkpoints that every mint and transfer writes.
A stake token is a standard token or a `DebtToken`, which only its approved holders
can hold.
-/

open Solidity

/-- The votes an account had from a block on. -/
structure Checkpoint where
  fromBlock : Nat := 0
  votes : Nat := 0

/-- The storage of `HuskyToken`; `here` is its own address. -/
structure HuskyToken where
  here : Address
  owner : Address
  erc20 : ERC20
  totalLock : Nat
  startReleaseBlock : Nat
  endReleaseBlock : Nat
  manualMinted : Nat
  locks : Address → Nat
  lastUnlockBlock : Address → Nat
  delegates : Address → Address
  checkpoints : Address → UInt32 → Checkpoint
  numCheckpoints : Address → UInt32

namespace HuskyToken

/-- `CAP` -/
def cap : Nat := 100000000 * 10 ^ 18

/-- `MANUAL_MINT_LIMIT` -/
def manualMintLimit : Nat := 17000000 * 10 ^ 18

abbrev balanceOf (t : HuskyToken) (account : Address) : Nat := t.erc20.balanceOf account

/-- Balances, supply and allowances are replaced. -/
def setERC20 (t : HuskyToken) (erc20 : ERC20) : HuskyToken := { t with erc20 }

def onlyOwner (t : HuskyToken) (sender : Address) : Result Unit :=
  require (t.owner = sender) "Ownable: caller is not the owner"

/-- A number that fits 32 bits. -/
def safe32 (n : Nat) (errorMessage : String) : Result Nat := do
  require (n < 2 ^ 32) errorMessage
  return n

/-! ## Votes -/

/-- The votes of the last checkpoint. -/
def getCurrentVotes (t : HuskyToken) (account : Address) : Nat :=
  let nCheckpoints := t.numCheckpoints account
  if nCheckpoints > 0 then (t.checkpoints account (nCheckpoints - 1)).votes else 0

/-- One checkpoint is written. -/
def setCheckpoint (t : HuskyToken) (delegatee : Address) (index : UInt32) (c : Checkpoint) :
    HuskyToken :=
  { t with
    checkpoints := Function.update t.checkpoints delegatee
      (Function.update (t.checkpoints delegatee) index c) }

/-- Write over a checkpoint of this block, or append one. -/
def _writeCheckpoint (blockNumber : Nat) (delegatee : Address) (nCheckpoints : UInt32)
    (newVotes : Nat) (t : HuskyToken) : Result HuskyToken := do
  let blockNumber ← safe32 blockNumber
    "HUSKY::_writeCheckpoint: block number exceeds 32 bits"
  let last := t.checkpoints delegatee (nCheckpoints - 1)
  if nCheckpoints > 0 ∧ last.fromBlock = blockNumber then
    return t.setCheckpoint delegatee (nCheckpoints - 1) { last with votes := newVotes }
  else
    let t := t.setCheckpoint delegatee nCheckpoints { fromBlock := blockNumber, votes := newVotes }
    return { t with
      numCheckpoints := Function.update t.numCheckpoints delegatee (nCheckpoints + 1) }

/-- Decrease the old representative. -/
def takeVotes (blockNumber : Nat) (srcRep : Address) (amount : Nat) (t : HuskyToken) :
    Result HuskyToken :=
  if srcRep ≠ 0 then do
    let srcRepNew ← SafeMath.sub (t.getCurrentVotes srcRep) amount
    _writeCheckpoint blockNumber srcRep (t.numCheckpoints srcRep) srcRepNew t
  else .ok t

/-- Increase the new representative. -/
def giveVotes (blockNumber : Nat) (dstRep : Address) (amount : Nat) (t : HuskyToken) :
    Result HuskyToken :=
  if dstRep ≠ 0 then do
    let dstRepNew ← SafeMath.add (t.getCurrentVotes dstRep) amount
    _writeCheckpoint blockNumber dstRep (t.numCheckpoints dstRep) dstRepNew t
  else .ok t

/-- Votes move between two delegatees, where there are any. -/
def _moveDelegates (blockNumber : Nat) (srcRep dstRep : Address) (amount : Nat)
    (t : HuskyToken) : Result HuskyToken :=
  if srcRep ≠ dstRep ∧ amount > 0 then do
    let t ← takeVotes blockNumber srcRep amount t
    giveVotes blockNumber dstRep amount t
  else .ok t

/-! ## Supply and transfers -/

variable (sender : Address) (blockNumber : Nat)

/-- The owner mints, up to the cap. -/
def mint (recipient : Address) (amount : Nat) (t : HuskyToken) : Result HuskyToken := do
  t.onlyOwner sender
  let supply ← SafeMath.add t.erc20.totalSupply amount
  require (supply ≤ cap) "cap exceeded"
  let erc20 ← t.erc20._mint recipient amount
  (t.setERC20 erc20)._moveDelegates blockNumber 0 (t.delegates recipient)
    amount

/-- The owner mints by hand, up to its own limit. -/
def manualMint (recipient : Address) (amount : Nat) (t : HuskyToken) : Result HuskyToken := do
  t.onlyOwner sender
  let manualMinted ← SafeMath.add t.manualMinted amount
  require (manualMinted ≤ manualMintLimit) "mint limit exceeded"
  { t with manualMinted }.mint sender blockNumber recipient amount

/-- The votes move with the balance. -/
def transfer (recipient : Address) (amount : Nat) (t : HuskyToken) : Result HuskyToken := do
  let erc20 ← t.erc20._transfer sender recipient amount
  (t.setERC20 erc20)._moveDelegates blockNumber (t.delegates sender) (t.delegates recipient)
    amount

/-- The votes move with the balance. -/
def transferFrom (holder recipient : Address) (amount : Nat) (t : HuskyToken) :
    Result HuskyToken := do
  let erc20 ← t.erc20.transferFrom sender holder recipient amount
  (t.setERC20 erc20)._moveDelegates blockNumber (t.delegates holder) (t.delegates recipient)
    amount

def approve (spender : Address) (amount : Nat) (t : HuskyToken) : Result HuskyToken := do
  let erc20 ← t.erc20._approve sender spender amount
  return t.setERC20 erc20

/-! ## Locks -/

/-- The owner locks HUSKY of an account in this contract. -/
def lock (account : Address) (amount : Nat) (t : HuskyToken) : Result HuskyToken := do
  t.onlyOwner sender
  require (account ≠ 0) "no lock to address(0)"
  require (amount ≤ t.balanceOf account) "no lock over balance"
  let erc20 ← t.erc20._transfer account t.here amount
  let locked ← SafeMath.add (t.locks account) amount
  let totalLock ← SafeMath.add t.totalLock amount
  return { t.setERC20 erc20 with
    locks := Function.update t.locks account locked
    totalLock
    lastUnlockBlock := Function.update t.lastUnlockBlock account
      (max (t.lastUnlockBlock account) t.startReleaseBlock) }

/-- HUSKY of an account is moved to the owner. -/
def lockToOwner (account : Address) (amount : Nat) (t : HuskyToken) : Result HuskyToken := do
  t.onlyOwner sender
  require (account ≠ 0) "no lock to address(0)"
  require (amount ≤ t.balanceOf account) "no lock over balance"
  let erc20 ← t.erc20._transfer account t.owner amount
  return t.setERC20 erc20

/-! ## What a successful operation did to the balances -/

variable {sender blockNumber} {t t' : HuskyToken} {account recipient : Address} {amount : Nat}

/-- Voting changes nothing else. -/
def SameLedger (t t' : HuskyToken) : Prop :=
  t'.erc20 = t.erc20 ∧ t'.owner = t.owner ∧ t'.here = t.here

theorem SameLedger.trans {a b c : HuskyToken} (hab : SameLedger a b) (hbc : SameLedger b c) :
    SameLedger a c :=
  ⟨hbc.1.trans hab.1, hbc.2.1.trans hab.2.1, hbc.2.2.trans hab.2.2⟩

/-- A checkpoint leaves the balances. -/
theorem writeCheckpoint_ledger {delegatee : Address} {n : UInt32} {votes : Nat}
    (h : _writeCheckpoint blockNumber delegatee n votes t = .ok t') : SameLedger t t' := by
  simp only [_writeCheckpoint, bind_eq_ok] at h
  obtain ⟨_, _, h⟩ := h
  split at h <;> cases h <;> exact ⟨rfl, rfl, rfl⟩

/-- Moving votes leaves the balances. -/
theorem moveDelegates_ledger {srcRep dstRep : Address}
    (h : _moveDelegates blockNumber srcRep dstRep amount t = .ok t') : SameLedger t t' := by
  -- the two halves of the move write checkpoints only
  have take : ∀ {t t' : HuskyToken}, takeVotes blockNumber srcRep amount t = .ok t' →
      SameLedger t t' := by
    intro t t' h
    unfold takeVotes at h
    split at h
    · simp only [bind_eq_ok] at h
      obtain ⟨_, _, h⟩ := h
      exact writeCheckpoint_ledger h
    · cases h
      exact ⟨rfl, rfl, rfl⟩
  have give : ∀ {t t' : HuskyToken}, giveVotes blockNumber dstRep amount t = .ok t' →
      SameLedger t t' := by
    intro t t' h
    unfold giveVotes at h
    split at h
    · simp only [bind_eq_ok] at h
      obtain ⟨_, _, h⟩ := h
      exact writeCheckpoint_ledger h
    · cases h
      exact ⟨rfl, rfl, rfl⟩
  unfold _moveDelegates at h
  split at h
  · simp only [bind_eq_ok] at h
    obtain ⟨t₁, htake, hgive⟩ := h
    exact (take htake).trans (give hgive)
  · cases h
    exact ⟨rfl, rfl, rfl⟩

/-- A mint adds to the recipient and to the supply. -/
theorem mint_eq_ok (h : t.mint sender blockNumber recipient amount = .ok t') :
    t.owner = sender ∧ t'.owner = t.owner ∧ t'.here = t.here ∧
    t'.erc20.totalSupply = t.erc20.totalSupply + amount ∧
    ∀ a, t'.balanceOf a = t.balanceOf a + if a = recipient then amount else 0 := by
  simp only [mint, onlyOwner, bind_eq_ok, require_eq_ok, SafeMath.add_eq_ok] at h
  obtain ⟨_, howner, _, ⟨_, rfl⟩, _, _, erc20, hmint, hvotes⟩ := h
  obtain ⟨hledger, hown, hhere⟩ := moveDelegates_ledger hvotes
  refine ⟨howner, hown, hhere, ?_, fun a => ?_⟩
  · rw [hledger]
    exact ERC20.totalSupply_mint hmint
  · rw [balanceOf, hledger]
    exact ERC20.balanceOf_mint hmint a

theorem transfer_eq_ok (h : t.transfer sender blockNumber recipient amount = .ok t') :
    t'.owner = t.owner ∧ t'.here = t.here ∧
    t'.erc20.totalSupply = t.erc20.totalSupply ∧ amount ≤ t.balanceOf sender ∧
    ∀ a, t'.balanceOf a + (if a = sender then amount else 0) =
      t.balanceOf a + if a = recipient then amount else 0 := by
  simp only [transfer, bind_eq_ok] at h
  obtain ⟨erc20, hmove, hvotes⟩ := h
  obtain ⟨hledger, hown, hhere⟩ := moveDelegates_ledger hvotes
  refine ⟨hown, hhere, ?_, ERC20.le_balance_of_transfer hmove, fun a => ?_⟩
  · rw [hledger]
    exact ERC20.totalSupply_transfer hmove
  · rw [balanceOf, hledger]
    exact ERC20.balanceOf_transfer hmove a

theorem transferFrom_eq_ok {holder : Address}
    (h : t.transferFrom sender blockNumber holder recipient amount = .ok t') :
    t'.owner = t.owner ∧ t'.here = t.here ∧
    t'.erc20.totalSupply = t.erc20.totalSupply ∧
    ∀ a, t'.balanceOf a + (if a = holder then amount else 0) =
      t.balanceOf a + if a = recipient then amount else 0 := by
  simp only [transferFrom, bind_eq_ok] at h
  obtain ⟨erc20, hmove, hvotes⟩ := h
  obtain ⟨hledger, hown, hhere⟩ := moveDelegates_ledger hvotes
  refine ⟨hown, hhere, ?_, fun a => ?_⟩
  · rw [hledger]
    exact ERC20.totalSupply_transferFrom hmove
  · rw [balanceOf, hledger]
    exact ERC20.balanceOf_transferFrom hmove a

theorem sender_ne_of_transfer (h : t.transfer sender blockNumber recipient amount = .ok t') :
    sender ≠ 0 := by
  simp only [transfer, bind_eq_ok] at h
  obtain ⟨erc20, hmove, _⟩ := h
  exact ERC20.sender_ne_of_transfer hmove

theorem holder_ne_of_transferFrom {holder : Address}
    (h : t.transferFrom sender blockNumber holder recipient amount = .ok t') : holder ≠ 0 := by
  simp only [transferFrom, bind_eq_ok] at h
  obtain ⟨erc20, hmove, _⟩ := h
  exact ERC20.sender_ne_of_transferFrom hmove

/-- A lock moves the amount to this contract. -/
theorem lock_eq_ok (h : t.lock sender account amount = .ok t') :
    t'.owner = t.owner ∧ t'.here = t.here ∧
    t'.erc20.totalSupply = t.erc20.totalSupply ∧ amount ≤ t.balanceOf account ∧
    ∀ a, t'.balanceOf a + (if a = account then amount else 0) =
      t.balanceOf a + if a = t.here then amount else 0 := by
  simp only [lock, bind_eq_ok, require_eq_ok, pure_eq_ok] at h
  obtain ⟨_, _, _, _, _, hle, erc20, hmove, _, _, _, _, rfl⟩ := h
  exact ⟨rfl, rfl, ERC20.totalSupply_transfer hmove, hle,
    fun a => ERC20.balanceOf_transfer hmove a⟩

/-- A mint by hand adds to the recipient and to the supply. -/
theorem manualMint_eq_ok (h : t.manualMint sender blockNumber recipient amount = .ok t') :
    t'.owner = t.owner ∧ t'.here = t.here ∧
    t'.erc20.totalSupply = t.erc20.totalSupply + amount ∧
    ∀ a, t'.balanceOf a = t.balanceOf a + if a = recipient then amount else 0 := by
  simp only [manualMint, bind_eq_ok] at h
  obtain ⟨_, _, _, _, _, _, hmint⟩ := h
  exact (mint_eq_ok hmint).2

theorem approve_eq_ok {spender : Address} (h : t.approve sender spender amount = .ok t') :
    t'.owner = t.owner ∧ t'.here = t.here ∧
    t'.erc20.totalSupply = t.erc20.totalSupply ∧ ∀ a, t'.balanceOf a = t.balanceOf a := by
  simp only [approve, bind_eq_ok, pure_eq_ok] at h
  obtain ⟨erc20, happrove, rfl⟩ := h
  refine ⟨rfl, rfl, ERC20.totalSupply_approve happrove, fun a => ?_⟩
  exact congrFun (ERC20.balanceOf_approve happrove) a

/-- The amount is moved to the owner. -/
theorem lockToOwner_eq_ok (h : t.lockToOwner sender account amount = .ok t') :
    t'.owner = t.owner ∧ t'.here = t.here ∧
    t'.erc20.totalSupply = t.erc20.totalSupply ∧ t.owner = sender ∧
    ∀ a, t'.balanceOf a + (if a = account then amount else 0) =
      t.balanceOf a + if a = t.owner then amount else 0 := by
  simp only [lockToOwner, onlyOwner, bind_eq_ok, require_eq_ok, pure_eq_ok] at h
  obtain ⟨_, howner, _, _, _, _, erc20, hmove, rfl⟩ := h
  exact ⟨rfl, rfl, ERC20.totalSupply_transfer hmove, howner,
    fun a => ERC20.balanceOf_transfer hmove a⟩

end HuskyToken
