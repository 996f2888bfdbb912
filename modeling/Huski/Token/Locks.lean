import Huski.Token.Votes

/-!
# The lock ledger

What is locked lies on the balance of the token contract itself. `lock` and `unlock` move one
amount on the balances, the account's lock and the total; `transferAll` merges the locks of
two accounts and leaves the total. The token contract never calls itself and approves nobody,
so that its balance covers the total as long as the owner does not aim at it.
-/

open Solidity
open scoped BigOperators

namespace HuskyToken

section Calls

variable {sender account recipient : Address} {n amount : Nat} {t t' : HuskyToken}

/-- The locks and the term of their release are the same. -/
structure SameLocks (t t' : HuskyToken) : Prop where
  here : t'.here = t.here
  locks : t'.locks = t.locks
  totalLock : t'.totalLock = t.totalLock
  lastUnlockBlock : t'.lastUnlockBlock = t.lastUnlockBlock
  startReleaseBlock : t'.startReleaseBlock = t.startReleaseBlock
  endReleaseBlock : t'.endReleaseBlock = t.endReleaseBlock

theorem SameLocks.refl (t : HuskyToken) : SameLocks t t := ⟨rfl, rfl, rfl, rfl, rfl, rfl⟩

theorem SameLocks.trans {a b c : HuskyToken} (hab : SameLocks a b) (hbc : SameLocks b c) :
    SameLocks a c where
  here := hbc.here.trans hab.here
  locks := hbc.locks.trans hab.locks
  totalLock := hbc.totalLock.trans hab.totalLock
  lastUnlockBlock := hbc.lastUnlockBlock.trans hab.lastUnlockBlock
  startReleaseBlock := hbc.startReleaseBlock.trans hab.startReleaseBlock
  endReleaseBlock := hbc.endReleaseBlock.trans hab.endReleaseBlock

theorem writeCheckpoint_sameLocks {delegatee : Address} {index : UInt32} {votes : Nat}
    (h : _writeCheckpoint n delegatee index votes t = .ok t') : SameLocks t t' := by
  simp only [_writeCheckpoint, bind_eq_ok] at h
  obtain ⟨_, _, h⟩ := h
  split at h <;> cases h <;> exact ⟨rfl, rfl, rfl, rfl, rfl, rfl⟩

theorem moveDelegates_sameLocks {srcRep dstRep : Address}
    (h : _moveDelegates n srcRep dstRep amount t = .ok t') : SameLocks t t' := by
  have hwrites : ∀ {t t' : HuskyToken} {rep : Address} {v : Result Nat},
      (if rep ≠ 0 then do
        let votes ← v
        _writeCheckpoint n rep (t.numCheckpoints rep) votes t
      else .ok t) = .ok t' → SameLocks t t' := by
    intro t t' rep v h
    split at h
    · simp only [bind_eq_ok] at h
      obtain ⟨_, _, h⟩ := h
      exact writeCheckpoint_sameLocks h
    · cases h
      exact .refl t
  unfold _moveDelegates at h
  split at h
  · simp only [bind_eq_ok] at h
    obtain ⟨t₁, htake, hgive⟩ := h
    exact (hwrites htake).trans (hwrites hgive)
  · cases h
    exact .refl t

/-- What a locked amount did. -/
structure Locks (account : Address) (amount : Nat) (t t' : HuskyToken) : Prop where
  here : t'.here = t.here
  moves : t.erc20._transfer account t.here amount = .ok t'.erc20
  locks : t'.locks = Function.update t.locks account (t.locks account + amount)
  totalLock : t'.totalLock = t.totalLock + amount
  lastUnlockBlock : t'.lastUnlockBlock = Function.update t.lastUnlockBlock account
    (max (t.lastUnlockBlock account) t.startReleaseBlock)
  startReleaseBlock : t'.startReleaseBlock = t.startReleaseBlock
  endReleaseBlock : t'.endReleaseBlock = t.endReleaseBlock

/-- A lock adds to the account's. -/
theorem lock_locks (h : t.lock sender account amount = .ok t') : Locks account amount t t' := by
  simp only [lock, bind_eq_ok, pure_eq_ok, SafeMath.add_eq_ok] at h
  obtain ⟨_, _, _, _, _, _, erc20, hmoves, _, ⟨_, rfl⟩, _, ⟨_, rfl⟩, rfl⟩ := h
  exact ⟨rfl, hmoves, rfl, rfl, rfl, rfl, rfl⟩

/-- What the release of an amount to the sender did. -/
structure Unlocks (sender : Address) (n amount : Nat) (t t' : HuskyToken) : Prop where
  unlockable : t.canUnlockAmount n sender = .ok amount
  le_lock : amount ≤ t.locks sender
  le_total : amount ≤ t.totalLock
  here : t'.here = t.here
  moves : t.erc20._transfer t.here sender amount = .ok t'.erc20
  locks : t'.locks = Function.update t.locks sender (t.locks sender - amount)
  totalLock : t'.totalLock = t.totalLock - amount
  lastUnlockBlock : t'.lastUnlockBlock = Function.update t.lastUnlockBlock sender n
  startReleaseBlock : t'.startReleaseBlock = t.startReleaseBlock
  endReleaseBlock : t'.endReleaseBlock = t.endReleaseBlock

/-- An unlock takes from the sender's. -/
theorem unlock_unlocks (h : t.unlock sender n = .ok t') :
    ∃ amount, Unlocks sender n amount t t' := by
  simp only [unlock, bind_eq_ok, pure_eq_ok, SafeMath.sub_eq_ok] at h
  obtain ⟨_, _, amount, hamount, erc20, hmoves, _, ⟨hle, rfl⟩, _, ⟨htotal, rfl⟩, rfl⟩ := h
  exact ⟨amount, hamount, hle, htotal, rfl, hmoves, rfl, rfl, rfl, rfl, rfl⟩

/-- What moving everything from the sender to the recipient did. -/
structure Merges (sender recipient : Address) (t t' : HuskyToken) : Prop where
  sender_ne : sender ≠ recipient
  here : t'.here = t.here
  moves : t.erc20._transfer sender recipient (t.balanceOf sender) = .ok t'.erc20
  locks : t'.locks = Function.update
    (Function.update t.locks recipient (t.locks recipient + t.locks sender)) sender 0
  totalLock : t'.totalLock = t.totalLock
  lastUnlockBlock : t'.lastUnlockBlock = Function.update
    (Function.update t.lastUnlockBlock recipient
      (max (max (t.lastUnlockBlock recipient) t.startReleaseBlock) (t.lastUnlockBlock sender)))
    sender 0
  startReleaseBlock : t'.startReleaseBlock = t.startReleaseBlock
  endReleaseBlock : t'.endReleaseBlock = t.endReleaseBlock

/-- A merge moves the sender's lock to the recipient. -/
theorem transferAll_merges (h : t.transferAll sender recipient = .ok t') :
    Merges sender recipient t t' := by
  simp only [transferAll, bind_eq_ok, require_eq_ok, pure_eq_ok, SafeMath.add_eq_ok] at h
  obtain ⟨_, hne, _, ⟨_, rfl⟩, erc20, hmoves, rfl⟩ := h
  exact ⟨hne, rfl, hmoves, rfl, rfl, rfl, rfl, rfl⟩

/-! ## The invariant -/

/-- The balances add up to a supply below the cap, and the token contract approves nobody. -/
structure Funded (t : HuskyToken) : Prop where
  backed : t.erc20.Backed
  capped : t.erc20.totalSupply ≤ cap
  unapproved : ∀ spender, t.erc20.allowance t.here spender = 0

/-- The locks add up to the total, which the token contract holds, and at block `n` no account
has been released anything later. -/
structure LockLedger (n : Nat) (t : HuskyToken) : Prop extends Funded t where
  total : ∑ a, t.locks a = t.totalLock
  held : t.totalLock ≤ t.balanceOf t.here
  last_le : ∀ a, t.lastUnlockBlock a ≤ max n t.startReleaseBlock

theorem LockLedger.mono {m : Nat} (h : LockLedger m t) (hmn : m ≤ n) : LockLedger n t where
  toFunded := h.toFunded
  total := h.total
  held := h.held
  last_le a := (h.last_le a).trans (max_le_max_right _ hmn)

/-- One lock is at most what the cap allows. -/
theorem LockLedger.locks_le (h : LockLedger n t) (a : Address) : t.locks a ≤ cap := by
  have hone : t.locks a ≤ ∑ b, t.locks b := TotalMap.le_sum t.locks id a
  rw [h.total] at hone
  exact hone.trans (h.held.trans ((h.backed.balanceOf_le t.here).trans h.capped))

/-- `canUnlockAmount` has no block before the last release to count and a block left to divide
by, and its product fits. -/
theorem LockLedger.canUnlockAmount (h : LockLedger n t) (hn : n < 2 ^ 64) (a : Address) :
    ∃ amount, t.canUnlockAmount n a = .ok amount ∧ amount ≤ t.locks a := by
  have hlast := h.last_le a
  unfold HuskyToken.canUnlockAmount
  split
  · exact ⟨0, rfl, Nat.zero_le _⟩
  · rename_i hstart
    split
    · exact ⟨t.locks a, rfl, le_rfl⟩
    · rename_i hstop
      have hle : t.lastUnlockBlock a ≤ n := by omega
      have hword : t.locks a * (n - t.lastUnlockBlock a) < wordSize := by
        calc t.locks a * (n - t.lastUnlockBlock a)
            ≤ cap * 2 ^ 64 := Nat.mul_le_mul (h.locks_le a) (by omega)
          _ < wordSize := by decide +kernel
      refine ⟨t.locks a * (n - t.lastUnlockBlock a) / (t.endReleaseBlock - t.lastUnlockBlock a),
        ?_, Nat.div_le_of_le_mul ?_⟩
      · simp only [bind_eq_ok, SafeMath.sub_eq_ok, SafeMath.mul_eq_ok, SafeMath.div_eq_ok]
        exact ⟨_, ⟨hle, rfl⟩, _, ⟨by omega, rfl⟩, _, ⟨hword, rfl⟩, by omega, rfl⟩
      · rw [Nat.mul_comm (t.endReleaseBlock - t.lastUnlockBlock a)]
        exact Nat.mul_le_mul_left _ (by omega)

/-- What leaves the locks and does not take from the token contract keeps the ledger. -/
theorem LockLedger.kept (h : LockLedger n t) (hfunded : Funded t') (hsame : SameLocks t t')
    (hheld : t.balanceOf t.here ≤ t'.balanceOf t.here) : LockLedger n t' where
  toFunded := hfunded
  total := by
    rw [hsame.locks, hsame.totalLock]
    exact h.total
  held := by
    rw [hsame.here, hsame.totalLock]
    exact h.held.trans hheld
  last_le a := by
    rw [hsame.lastUnlockBlock, hsame.startReleaseBlock]
    exact h.last_le a

/-- A transfer of the token leaves it backed. -/
theorem Funded.transfer (h : Funded t) {dst src : Address} (hhere : t'.here = t.here)
    (hmoves : t.erc20._transfer src dst amount = .ok t'.erc20) : Funded t' where
  backed := h.backed.transfer hmoves
  capped := by
    rw [ERC20.totalSupply_transfer hmoves]
    exact h.capped
  unapproved spender := by
    rw [hhere, ERC20.allowance_transfer hmoves]
    exact h.unapproved spender

theorem LockLedger.locked (h : LockLedger n t) (haccount : account ≠ t.here)
    (hlocks : Locks account amount t t') : LockLedger n t' where
  toFunded := h.toFunded.transfer hlocks.here hlocks.moves
  total := by
    have hsum := TotalMap.sum_update t.locks id account (t.locks account + amount)
    have htotal := h.total
    rw [hlocks.locks, hlocks.totalLock]
    simp only [id] at hsum
    omega
  held := by
    -- the account pays the contract, so what is held grows with the lock
    have hbalance := ERC20.balanceOf_transfer hlocks.moves t.here
    rw [if_neg haccount.symm, if_pos rfl] at hbalance
    have hheld := h.held
    rw [hlocks.here, hlocks.totalLock]
    show t.totalLock + amount ≤ t'.erc20.balanceOf t.here
    change t.totalLock ≤ t.erc20.balanceOf t.here at hheld
    omega
  last_le a := by
    rw [hlocks.lastUnlockBlock, hlocks.startReleaseBlock]
    by_cases ha : a = account
    · subst ha
      rw [Function.update_self]
      exact max_le (h.last_le a) (le_max_right _ _)
    · rw [Function.update_of_ne ha]
      exact h.last_le a

/-- An unlock keeps the ledger. -/
theorem LockLedger.unlocked (h : LockLedger n t) (hsender : sender ≠ t.here)
    (hunlocks : Unlocks sender n amount t t') : LockLedger n t' where
  toFunded := h.toFunded.transfer hunlocks.here hunlocks.moves
  total := by
    have hsum := TotalMap.sum_update t.locks id sender (t.locks sender - amount)
    have htotal := h.total
    have hle := hunlocks.le_lock
    rw [hunlocks.locks, hunlocks.totalLock]
    simp only [id] at hsum
    omega
  held := by
    -- the contract pays what leaves the lock
    have hbalance := ERC20.balanceOf_transfer hunlocks.moves t.here
    rw [if_pos rfl, if_neg hsender.symm] at hbalance
    have hheld := h.held
    rw [hunlocks.here, hunlocks.totalLock]
    show t.totalLock - amount ≤ t'.erc20.balanceOf t.here
    change t.totalLock ≤ t.erc20.balanceOf t.here at hheld
    omega
  last_le a := by
    rw [hunlocks.lastUnlockBlock, hunlocks.startReleaseBlock]
    by_cases ha : a = sender
    · subst ha
      rw [Function.update_self]
      exact le_max_left _ _
    · rw [Function.update_of_ne ha]
      exact h.last_le a

theorem LockLedger.merged (h : LockLedger n t) (hsender : sender ≠ t.here)
    (hmerges : Merges sender recipient t t') : LockLedger n t' where
  toFunded := h.toFunded.transfer hmerges.here hmerges.moves
  total := by
    -- the recipient's lock grows by what the sender's falls to zero
    have hfirst := TotalMap.sum_update t.locks id recipient (t.locks recipient + t.locks sender)
    have hsecond := TotalMap.sum_update
      (Function.update t.locks recipient (t.locks recipient + t.locks sender)) id sender 0
    have htotal := h.total
    rw [Function.update_of_ne hmerges.sender_ne] at hsecond
    rw [hmerges.locks, hmerges.totalLock]
    simp only [id] at hfirst hsecond
    omega
  held := by
    have hbalance := ERC20.balanceOf_transfer hmerges.moves t.here
    rw [if_neg hsender.symm] at hbalance
    have hheld := h.held
    rw [hmerges.here, hmerges.totalLock]
    show t.totalLock ≤ t'.erc20.balanceOf t.here
    change t.totalLock ≤ t.erc20.balanceOf t.here at hheld
    omega
  last_le a := by
    have hsenderLast := h.last_le sender
    have hrecipientLast := h.last_le recipient
    rw [hmerges.lastUnlockBlock, hmerges.startReleaseBlock]
    by_cases ha : a = sender
    · subst ha
      rw [Function.update_self]
      exact Nat.zero_le _
    · rw [Function.update_of_ne ha]
      by_cases hr : a = recipient
      · subst hr
        rw [Function.update_self]
        exact max_le (max_le hrecipientLast (le_max_right _ _)) hsenderLast
      · rw [Function.update_of_ne hr]
        exact h.last_le a

/-! ## The other operations -/

theorem sameLocks_setERC20 (t : HuskyToken) (erc20 : ERC20) : SameLocks t (t.setERC20 erc20) :=
  ⟨rfl, rfl, rfl, rfl, rfl, rfl⟩

theorem mint_sameLocks (h : t.mint sender n recipient amount = .ok t') : SameLocks t t' := by
  simp only [mint, bind_eq_ok] at h
  obtain ⟨_, _, _, _, _, _, erc20, _, hvotes⟩ := h
  exact (sameLocks_setERC20 t erc20).trans (moveDelegates_sameLocks hvotes)

theorem manualMint_sameLocks (h : t.manualMint sender n recipient amount = .ok t') :
    SameLocks t t' := by
  simp only [manualMint, bind_eq_ok] at h
  obtain ⟨_, _, minted, _, _, _, hmint⟩ := h
  have hsame : SameLocks t { t with manualMinted := minted } := ⟨rfl, rfl, rfl, rfl, rfl, rfl⟩
  exact hsame.trans (mint_sameLocks hmint)

theorem transfer_sameLocks (h : t.transfer sender n recipient amount = .ok t') :
    SameLocks t t' := by
  simp only [transfer, bind_eq_ok] at h
  obtain ⟨erc20, _, hvotes⟩ := h
  exact (sameLocks_setERC20 t erc20).trans (moveDelegates_sameLocks hvotes)

theorem transferFrom_sameLocks {holder : Address}
    (h : t.transferFrom sender n holder recipient amount = .ok t') : SameLocks t t' := by
  simp only [transferFrom, bind_eq_ok] at h
  obtain ⟨erc20, _, hvotes⟩ := h
  exact (sameLocks_setERC20 t erc20).trans (moveDelegates_sameLocks hvotes)

theorem delegate_sameLocks {delegator delegatee : Address}
    (h : t._delegate n delegator delegatee = .ok t') : SameLocks t t' := by
  unfold _delegate at h
  have hsame : SameLocks t
      { t with delegates := Function.update t.delegates delegator delegatee } :=
    ⟨rfl, rfl, rfl, rfl, rfl, rfl⟩
  exact hsame.trans (moveDelegates_sameLocks h)

/-- What the token contract keeps: its approvals, and a balance that is no lower. -/
structure KeepsCustody (t t' : HuskyToken) : Prop where
  funded : Funded t'
  held : t.balanceOf t.here ≤ t'.balanceOf t.here

/-- Votes are moved after the ledger. -/
theorem KeepsCustody.of_votes {t₁ : HuskyToken} {srcRep dstRep : Address}
    (h : KeepsCustody t t₁) (hvotes : _moveDelegates n srcRep dstRep amount t₁ = .ok t') :
    KeepsCustody t t' := by
  have hledger := moveDelegates_ledger hvotes
  have hhere := (moveDelegates_sameLocks hvotes).here
  refine ⟨⟨?_, ?_, ?_⟩, ?_⟩
  · rw [hledger.1]
    exact h.funded.backed
  · rw [hledger.1]
    exact h.funded.capped
  · rw [hledger.1, hhere]
    exact h.funded.unapproved
  · show _ ≤ t'.erc20.balanceOf t.here
    rw [hledger.1]
    exact h.held

theorem mint_keepsCustody (hfunded : Funded t) (h : t.mint sender n recipient amount = .ok t') :
    KeepsCustody t t' := by
  simp only [mint, bind_eq_ok, require_eq_ok, SafeMath.add_eq_ok] at h
  obtain ⟨_, _, _, ⟨_, rfl⟩, _, hcap, erc20, hmint, hvotes⟩ := h
  have hkeeps : KeepsCustody t (t.setERC20 erc20) := by
    refine ⟨⟨hfunded.backed.mint hmint, ?_, ?_⟩, ?_⟩
    · show erc20.totalSupply ≤ cap
      rw [ERC20.totalSupply_mint hmint]
      exact hcap
    · intro spender
      show erc20.allowance t.here spender = 0
      rw [ERC20.allowance_mint hmint]
      exact hfunded.unapproved spender
    · show _ ≤ erc20.balanceOf t.here
      rw [ERC20.balanceOf_mint hmint]
      exact Nat.le_add_right _ _
  exact hkeeps.of_votes hvotes

theorem manualMint_keepsCustody (hfunded : Funded t)
    (h : t.manualMint sender n recipient amount = .ok t') : KeepsCustody t t' := by
  simp only [manualMint, bind_eq_ok] at h
  obtain ⟨_, _, minted, _, _, _, hmint⟩ := h
  have hfunded' : Funded { t with manualMinted := minted } :=
    ⟨hfunded.backed, hfunded.capped, hfunded.unapproved⟩
  have hkeeps := mint_keepsCustody hfunded' hmint
  exact ⟨hkeeps.funded, hkeeps.held⟩

/-- A burn from others takes nothing from the contract. -/
theorem burn_keepsCustody (hfunded : Funded t) (haccount : account ≠ t.here)
    (h : t.burn sender account amount = .ok t') : KeepsCustody t t' := by
  simp only [burn, bind_eq_ok, pure_eq_ok] at h
  obtain ⟨_, _, erc20, hburn, rfl⟩ := h
  refine ⟨⟨hfunded.backed.burn hburn, ?_, ?_⟩, ?_⟩
  · have hsupply := ERC20.totalSupply_burn hburn
    have hcapped := hfunded.capped
    show erc20.totalSupply ≤ cap
    omega
  · intro spender
    show erc20.allowance t.here spender = 0
    rw [ERC20.allowance_burn hburn]
    exact hfunded.unapproved spender
  · have hbalance := ERC20.balanceOf_burn hburn t.here
    rw [if_neg haccount.symm] at hbalance
    exact hbalance.ge

/-- A transfer of the ledger that is not from the token contract. -/
theorem KeepsCustody.of_transfer {src dst : Address} {erc20 : ERC20} (hfunded : Funded t)
    (hsrc : src ≠ t.here) (hmoves : t.erc20._transfer src dst amount = .ok erc20) :
    KeepsCustody t (t.setERC20 erc20) := by
  have hmoves' : t.erc20._transfer src dst amount = .ok (t.setERC20 erc20).erc20 := hmoves
  have hbalance := ERC20.balanceOf_transfer hmoves t.here
  rw [if_neg hsrc.symm] at hbalance
  refine ⟨hfunded.transfer rfl hmoves', ?_⟩
  show t.erc20.balanceOf t.here ≤ erc20.balanceOf t.here
  omega

/-- A transfer by others takes nothing from the contract. -/
theorem transfer_keepsCustody (hfunded : Funded t) (hsender : sender ≠ t.here)
    (h : t.transfer sender n recipient amount = .ok t') : KeepsCustody t t' := by
  simp only [transfer, bind_eq_ok] at h
  obtain ⟨erc20, hmoves, hvotes⟩ := h
  exact (KeepsCustody.of_transfer hfunded hsender hmoves).of_votes hvotes

/-- Without an approval nothing is moved from the token contract but nothing. -/
theorem transferFrom_keepsCustody {holder : Address} (hfunded : Funded t)
    (h : t.transferFrom sender n holder recipient amount = .ok t') : KeepsCustody t t' := by
  simp only [transferFrom, bind_eq_ok] at h
  obtain ⟨erc20, hmoves, hvotes⟩ := h
  obtain ⟨hallowed, hallowance⟩ := ERC20.allowance_transferFrom hmoves
  have hkeeps : KeepsCustody t (t.setERC20 erc20) := by
    refine ⟨⟨hfunded.backed.transferFrom hmoves, ?_, ?_⟩, ?_⟩
    · show erc20.totalSupply ≤ cap
      rw [ERC20.totalSupply_transferFrom hmoves]
      exact hfunded.capped
    · intro spender
      show erc20.allowance t.here spender = 0
      rw [hallowance]
      -- the contract approved nobody, so nothing is taken from it
      by_cases hholder : t.here = holder
      · subst hholder
        rw [Function.update_self, Function.update_apply]
        split
        · rw [hfunded.unapproved, Nat.zero_sub]
        · exact hfunded.unapproved spender
      · rw [Function.update_of_ne hholder]
        exact hfunded.unapproved spender
    · have hbalance := ERC20.balanceOf_transferFrom hmoves t.here
      show t.erc20.balanceOf t.here ≤ erc20.balanceOf t.here
      by_cases hholder : t.here = holder
      · subst hholder
        rw [hfunded.unapproved] at hallowed
        rw [if_pos rfl] at hbalance
        omega
      · rw [if_neg hholder] at hbalance
        omega
  exact hkeeps.of_votes hvotes

theorem approve_keepsCustody {spender : Address} (hfunded : Funded t) (hsender : sender ≠ t.here)
    (h : t.approve sender spender amount = .ok t') : KeepsCustody t t' := by
  simp only [approve, bind_eq_ok, pure_eq_ok] at h
  obtain ⟨erc20, happrove, rfl⟩ := h
  refine ⟨⟨hfunded.backed.approve happrove, ?_, ?_⟩, ?_⟩
  · show erc20.totalSupply ≤ cap
    rw [ERC20.totalSupply_approve happrove]
    exact hfunded.capped
  · intro other
    show erc20.allowance t.here other = 0
    rw [ERC20.allowance_approve happrove, Function.update_of_ne hsender.symm]
    exact hfunded.unapproved other
  · show _ ≤ erc20.balanceOf t.here
    rw [ERC20.balanceOf_approve happrove]

/-- A lock to the owner takes nothing from the contract. -/
theorem lockToOwner_keepsCustody (hfunded : Funded t) (haccount : account ≠ t.here)
    (h : t.lockToOwner sender account amount = .ok t') : KeepsCustody t t' := by
  simp only [lockToOwner, bind_eq_ok, pure_eq_ok] at h
  obtain ⟨_, _, _, _, _, _, erc20, hmoves, rfl⟩ := h
  exact .of_transfer hfunded haccount hmoves

theorem delegate_keepsCustody {delegator delegatee : Address} (hfunded : Funded t)
    (h : t._delegate n delegator delegatee = .ok t') : KeepsCustody t t' := by
  unfold _delegate at h
  have hnamed : KeepsCustody t
      { t with delegates := Function.update t.delegates delegator delegatee } :=
    ⟨⟨hfunded.backed, hfunded.capped, hfunded.unapproved⟩, le_rfl⟩
  exact hnamed.of_votes h

end Calls

end HuskyToken

namespace Huski.Governance

open HuskyToken

/-- The token contract is not the sender, and no operation of the owner is aimed at it. -/
def AimsElsewhere (c : Chain) (tx : Tx) : Prop :=
  tx.sender ≠ c.state.token.here ∧
    match tx.op with
    | .burn account _ | .lock account _ | .lockToOwner account _ => account ≠ c.state.token.here
    | _ => True

/-- The operations on locks. -/
def Op.changesLocks : Op → Bool
  | .lock .. | .unlock | .transferAll .. => true
  | _ => false

section Runs

variable {ecrecover : Address → Signed → Address} {c c' : Chain} {tx : Tx} {g' : State}

/-- Every other operation leaves the locks. -/
theorem exec_sameLocks {g : State} (hchanges : tx.op.changesLocks = false)
    (hexec : exec ecrecover tx g = .ok g') : SameLocks g.token g'.token := by
  obtain ⟨sender, n, timestamp, op⟩ := tx
  cases op with
  | lock | unlock | transferAll => cases hchanges
  | mint => exact mint_sameLocks (onToken_eq_ok hexec)
  | manualMint => exact manualMint_sameLocks (onToken_eq_ok hexec)
  | transfer => exact transfer_sameLocks (onToken_eq_ok hexec)
  | transferFrom => exact transferFrom_sameLocks (onToken_eq_ok hexec)
  | delegate => exact delegate_sameLocks (onToken_eq_ok hexec)
  | delegateBySig => exact delegate_sameLocks (delegateBySig_eq_ok hexec)
  -- the rest write the balances or the owner
  | burn account amount =>
      have hburn := onToken_eq_ok hexec
      simp only [HuskyToken.burn, bind_eq_ok, pure_eq_ok] at hburn
      obtain ⟨_, _, erc20, _, htoken⟩ := hburn
      rw [← htoken]
      exact sameLocks_setERC20 _ erc20
  | lockToOwner account amount =>
      have hlock := onToken_eq_ok hexec
      simp only [HuskyToken.lockToOwner, bind_eq_ok, pure_eq_ok] at hlock
      obtain ⟨_, _, _, _, _, _, erc20, _, htoken⟩ := hlock
      rw [← htoken]
      exact sameLocks_setERC20 _ erc20
  | approve spender amount =>
      have happrove := onToken_eq_ok hexec
      simp only [HuskyToken.approve, bind_eq_ok, pure_eq_ok] at happrove
      obtain ⟨erc20, _, htoken⟩ := happrove
      rw [← htoken]
      exact sameLocks_setERC20 _ erc20
  | transferOwnership newOwner =>
      have howner := onToken_eq_ok hexec
      simp only [HuskyToken.transferOwnership, bind_eq_ok, pure_eq_ok] at howner
      obtain ⟨_, _, _, _, htoken⟩ := howner
      rw [← htoken]
      exact ⟨rfl, rfl, rfl, rfl, rfl, rfl⟩
  | renounceOwnership =>
      have howner := onToken_eq_ok hexec
      simp only [HuskyToken.renounceOwnership, bind_eq_ok, pure_eq_ok] at howner
      obtain ⟨_, _, htoken⟩ := howner
      rw [← htoken]
      exact ⟨rfl, rfl, rfl, rfl, rfl, rfl⟩

/-- A call that changes no lock takes nothing from the contract. -/
theorem exec_keepsCustody (haims : AimsElsewhere c tx) (hchanges : tx.op.changesLocks = false)
    (hfunded : Funded c.state.token) (hexec : exec ecrecover tx c.state = .ok g') :
    KeepsCustody c.state.token g'.token := by
  obtain ⟨sender, n, timestamp, op⟩ := tx
  obtain ⟨hsender, haims⟩ := haims
  cases op with
  -- the three that change locks have their own lemmas
  | lock | unlock | transferAll => cases hchanges
  | mint => exact mint_keepsCustody hfunded (onToken_eq_ok hexec)
  | manualMint => exact manualMint_keepsCustody hfunded (onToken_eq_ok hexec)
  | burn => exact burn_keepsCustody hfunded haims (onToken_eq_ok hexec)
  | transfer => exact transfer_keepsCustody hfunded hsender (onToken_eq_ok hexec)
  | transferFrom => exact transferFrom_keepsCustody hfunded (onToken_eq_ok hexec)
  | approve => exact approve_keepsCustody hfunded hsender (onToken_eq_ok hexec)
  | lockToOwner => exact lockToOwner_keepsCustody hfunded haims (onToken_eq_ok hexec)
  | delegate => exact delegate_keepsCustody hfunded (onToken_eq_ok hexec)
  | delegateBySig => exact delegate_keepsCustody hfunded (delegateBySig_eq_ok hexec)
  | transferOwnership newOwner =>
      have howner := onToken_eq_ok hexec
      simp only [HuskyToken.transferOwnership, bind_eq_ok, pure_eq_ok] at howner
      obtain ⟨_, _, _, _, htoken⟩ := howner
      rw [← htoken]
      exact ⟨⟨hfunded.backed, hfunded.capped, hfunded.unapproved⟩, le_rfl⟩
  | renounceOwnership =>
      have howner := onToken_eq_ok hexec
      simp only [HuskyToken.renounceOwnership, bind_eq_ok, pure_eq_ok] at howner
      obtain ⟨_, _, htoken⟩ := howner
      rw [← htoken]
      exact ⟨⟨hfunded.backed, hfunded.capped, hfunded.unapproved⟩, le_rfl⟩

/-- One transaction keeps the ledger of locks. -/
theorem lockLedger_step (hc : LockLedger c.block c.state.token) (haims : AimsElsewhere c tx)
    (hstep : mine ecrecover c tx = .ok c') : LockLedger c'.block c'.state.token := by
  obtain ⟨hblock, hnow, hexec⟩ := mine_eq_ok hstep
  have hc := hc.mono hblock
  rw [hnow]
  cases hchanges : tx.op.changesLocks with
  | false =>
      have hkeeps := exec_keepsCustody haims hchanges hc.toFunded hexec
      exact hc.kept hkeeps.funded (exec_sameLocks hchanges hexec) hkeeps.held
  | true =>
      obtain ⟨sender, n, timestamp, op⟩ := tx
      obtain ⟨hsender, haims⟩ := haims
      cases op with
      | lock account amount => exact hc.locked haims (lock_locks (onToken_eq_ok hexec))
      | unlock =>
          obtain ⟨amount, hunlocks⟩ := unlock_unlocks (onToken_eq_ok hexec)
          exact hc.unlocked hsender hunlocks
      | transferAll recipient => exact hc.merged hsender (transferAll_merges (onToken_eq_ok hexec))
      | _ => cases hchanges

/-- A new token has locked nothing. -/
theorem unminted_lockLedger (n : Nat) (here deployer : Address) (first last : Nat) :
    LockLedger n (unminted here deployer first last) where
  backed := ERC20.backed_empty
  capped := Nat.zero_le _
  unapproved _ := rfl
  total := TotalMap.sum_zero _ id fun _ => rfl
  held := le_rfl
  last_le _ := Nat.zero_le _

/-- The ledger of locks stands in every state of a run. -/
theorem lockLedger_inductive : (machine ecrecover).Inductive AimsElsewhere
    fun c => LockLedger c.block c.state.token where
  init c hinit := by
    obtain ⟨_, here, deployer, first, last, token, hcreate, hstate⟩ := hinit
    simp only [create, bind_eq_ok] at hcreate
    obtain ⟨_, _, hmint⟩ := hcreate
    have hunminted := unminted_lockLedger c.block here deployer first last
    have hkeeps := manualMint_keepsCustody hunminted.toFunded hmint
    rw [hstate]
    exact hunminted.kept hkeeps.funded (manualMint_sameLocks hmint) hkeeps.held
  step _ _ _ hc haims hstep := lockLedger_step hc haims hstep

/-- In every run in which the owner does not aim at the token contract, in every state: the
locks add up to the total, the token contract holds the total, and at every block from then on
what an account can unlock is computed without a revert and is at most its lock. -/
theorem lockLedger_of_reachable (c : Chain)
    (hreach : (machine ecrecover).ReachableBy AimsElsewhere c) :
    ∑ a, c.state.token.locks a = c.state.token.totalLock ∧
    c.state.token.totalLock ≤ c.state.token.balanceOf c.state.token.here ∧
    ∀ account n, c.block ≤ n → n < 2 ^ 64 →
      ∃ amount, c.state.token.canUnlockAmount n account = .ok amount ∧
        amount ≤ c.state.token.locks account := by
  have hledger : LockLedger c.block c.state.token := lockLedger_inductive.invariant hreach
  refine ⟨hledger.total, hledger.held, fun account n hblock hn => ?_⟩
  exact (hledger.mono hblock).canUnlockAmount hn account

end Runs

/-- HUSKY at address 101 as account 50 deploys it in block 1, with locks that are released
over the blocks from 10 to 20. -/
def lockingToken : HuskyToken := (create 1 101 50 10 20).toOption.getD (unminted 101 50 10 20)

def lockingChain : Chain := { block := 1, state := { token := lockingToken, nonces := fun _ => 0 } }

theorem lockingChain_init (ecrecover : Address → Signed → Address) :
    (machine ecrecover).init lockingChain := by
  have hcreated : (create 1 101 50 10 20).toOption.isSome = true := by
    decide +kernel
  obtain ⟨token, htoken⟩ := Option.isSome_iff_exists.mp hcreated
  refine ⟨Nat.one_pos, 101, 50, 10, 20, token, toOption_eq_some.mp htoken, ?_⟩
  unfold lockingChain lockingToken
  rw [htoken]
  rfl

instance (c : Chain) (tx : Tx) : Decidable (AimsElsewhere c tx) := by
  unfold AimsElsewhere
  split <;> infer_instance

/-- Of 100 locked for account 1 it unlocks 40 by block 14, and moves the other 60 to account
2. -/
theorem lockLedger_of_transferAll :
    ∃ c, (machine fun _ _ => 0).Reachable c ∧ c.state.token.locks 2 = 60 ∧
      c.state.token.totalLock = 60 ∧ ∑ a, c.state.token.locks a = c.state.token.totalLock := by
  have hrun : ((machine fun _ _ => 0).guarded fun c tx => AimsElsewhere c tx).lastStep lockingChain
      [⟨50, 1, 0, .transfer 1 100⟩, ⟨50, 2, 0, .lock 1 100⟩, ⟨1, 14, 0, .unlock⟩]
      ⟨1, 15, 0, .transferAll 2⟩
      (fun _ c => c.state.token.locks 2 = 60 ∧ c.state.token.totalLock = 60) = true := by
    decide +kernel
  obtain ⟨c₁, c, hreach, hstep, htest⟩ :=
    TSys.lastStep_reachable (M := (machine fun _ _ => 0).guarded _)
      (lockingChain_init fun _ _ => 0) hrun
  obtain ⟨hlock, htotal⟩ := of_decide_eq_true htest
  have hreach : (machine fun _ _ => 0).ReachableBy AimsElsewhere c :=
    TSys.reachableBy_of_guarded (fun _ _ hcheck => of_decide_eq_true hcheck)
      (.step hreach trivial hstep)
  exact ⟨c, hreach.reachable, hlock, htotal, (lockLedger_of_reachable c hreach).1⟩

end Huski.Governance
