import Huski.Token.Governance
import Huski.Lib.Delegation

/-!
# Votes

The votes of a delegatee are the last of its checkpoints, written by `_moveDelegates`; the
balances they stand for are written by the ledger. The two agree as long as every movement
of balances is told to `_moveDelegates`: `mint`, `transfer` and `transferFrom` tell it, while
`lock`, `unlock`, `lockToOwner`, `transferAll` and `burn` use the ledger alone.
-/

open Solidity Delegation

namespace HuskyToken

variable {n n' amount : Nat} {t t₁ t' : HuskyToken} {src dst d : Address}

/-- The checkpoints of a delegatee are of different blocks, none after `n`; so there are no
more of them than the block of the last one. -/
def Dated (n : Nat) (t : HuskyToken) : Prop :=
  ∀ d, 0 < t.numCheckpoints d →
    (t.numCheckpoints d).toNat ≤ (t.checkpoints d (t.numCheckpoints d - 1)).fromBlock ∧
      (t.checkpoints d (t.numCheckpoints d - 1)).fromBlock ≤ n

theorem Dated.mono (h : Dated n t) (hle : n ≤ n') : Dated n' t :=
  fun d hd => ⟨(h d hd).1, (h d hd).2.trans hle⟩

/-- Delegates and checkpoints are the same. -/
structure SameVotes (t t' : HuskyToken) : Prop where
  delegates : t'.delegates = t.delegates
  checkpoints : t'.checkpoints = t.checkpoints
  numCheckpoints : t'.numCheckpoints = t.numCheckpoints

/-- A step that leaves the checkpoints leaves their blocks. -/
theorem SameVotes.dated (hvotes : SameVotes t t') (h : Dated n t) : Dated n t' := by
  unfold Dated
  rw [hvotes.checkpoints, hvotes.numCheckpoints]
  exact h

/-- A step that leaves the checkpoints leaves the votes. -/
theorem SameVotes.getCurrentVotes (hvotes : SameVotes t t') (d : Address) :
    t'.getCurrentVotes d = t.getCurrentVotes d := by
  unfold HuskyToken.getCurrentVotes
  rw [hvotes.checkpoints, hvotes.numCheckpoints]

/-- What was written are the votes of `d`, at block `n`. -/
structure WritesVotes (n : Nat) (d : Address) (votes : Nat) (t t' : HuskyToken) : Prop where
  delegates : t'.delegates = t.delegates
  dated : Dated n t'
  current : ∀ x, t'.getCurrentVotes x = if x = d then votes else t.getCurrentVotes x

theorem writeCheckpoint_votes {votes : Nat} (hn : 0 < n) (hdated : Dated n t)
    (h : _writeCheckpoint n d (t.numCheckpoints d) votes t = .ok t') :
    WritesVotes n d votes t t' := by
  simp only [_writeCheckpoint, safe32, bind_eq_ok, require_eq_ok, pure_eq_ok] at h
  obtain ⟨_, ⟨_, hword, rfl⟩, h⟩ := h
  split at h
  · -- the last checkpoint is of this block, and is written anew
    rename_i hlast
    obtain rfl := Except.ok.inj h
    refine ⟨rfl, fun x hx => ?_, fun x => ?_⟩
    · by_cases hxd : x = d
      · subst hxd
        simpa [setCheckpoint] using hdated x hx
      · simpa [setCheckpoint, hxd] using hdated x hx
    · by_cases hxd : x = d
      · subst hxd
        simp [getCurrentVotes, setCheckpoint, hlast.1]
      · simp [getCurrentVotes, setCheckpoint, hxd]
  · rename_i hnew
    obtain rfl := Except.ok.inj h
    -- the last one is of an earlier block, so that another one fits
    have hcount : (t.numCheckpoints d).toNat < n := by
      rcases Nat.eq_zero_or_pos (t.numCheckpoints d).toNat with hzero | hpos
      · omega
      · have hpos : 0 < t.numCheckpoints d := UInt32.lt_iff_toNat_lt.mpr hpos
        obtain ⟨hle, hblock⟩ := hdated d hpos
        have hne : (t.checkpoints d (t.numCheckpoints d - 1)).fromBlock ≠ n :=
          fun heq => hnew ⟨hpos, heq⟩
        omega
    have hsucc : (t.numCheckpoints d + 1).toNat = (t.numCheckpoints d).toNat + 1 := by
      have hone : (1 : UInt32).toNat = 1 := rfl
      rw [UInt32.toNat_add, hone]
      exact Nat.mod_eq_of_lt (by omega)
    have hpos : 0 < t.numCheckpoints d + 1 := 
      UInt32.lt_iff_toNat_lt.mpr (hsucc ▸ Nat.succ_pos _)
    refine ⟨rfl, fun x hx => ?_, fun x => ?_⟩
    · by_cases hxd : x = d
      · subst hxd
        have hcount := (Nat.mod_le _ (2 ^ 32)).trans (Nat.succ_le_of_lt hcount)
        simpa [setCheckpoint] using hcount
      · simpa [setCheckpoint, hxd] using hdated x (by simpa [setCheckpoint, hxd] using hx)
    · by_cases hxd : x = d
      · subst hxd
        simp [getCurrentVotes, setCheckpoint, hpos]
      · simp [getCurrentVotes, setCheckpoint, hxd]

/-! ## Moving votes -/

/-- What `_moveDelegates` does: votes of the non-zero representatives move. -/
structure MovesVotes (n : Nat) (src dst : Address) (amount : Nat) (t t' : HuskyToken) : Prop where
  delegates : t'.delegates = t.delegates
  dated : Dated n t'
  votes : ∀ d, d ≠ 0 → t'.getCurrentVotes d + (if src = d then amount else 0) =
    t.getCurrentVotes d + if dst = d then amount else 0

theorem takeVotes_eq_ok (hn : 0 < n) (hdated : Dated n t)
    (h : takeVotes n src amount t = .ok t') :
    t'.delegates = t.delegates ∧ Dated n t' ∧ ∀ d, d ≠ 0 →
      t'.getCurrentVotes d + (if src = d then amount else 0) = t.getCurrentVotes d := by
  unfold takeVotes at h
  split at h
  · simp only [bind_eq_ok, SafeMath.sub_eq_ok] at h
    obtain ⟨_, ⟨hle, rfl⟩, hwrite⟩ := h
    have hwrites := writeCheckpoint_votes hn hdated hwrite
    refine ⟨hwrites.delegates, hwrites.dated, fun d _ => ?_⟩
    rw [hwrites.current]
    by_cases hd : d = src
    · subst hd
      rw [if_pos rfl, if_pos rfl, Nat.sub_add_cancel hle]
    · rw [if_neg hd, if_neg (Ne.symm hd), Nat.add_zero]
  · rename_i hzero
    obtain rfl := Except.ok.inj h
    refine ⟨rfl, hdated, fun d hd => ?_⟩
    have hne : src ≠ d := fun heq => hd (heq ▸ not_not.mp hzero)
    rw [if_neg hne, Nat.add_zero]

theorem giveVotes_eq_ok (hn : 0 < n) (hdated : Dated n t)
    (h : giveVotes n dst amount t = .ok t') :
    t'.delegates = t.delegates ∧ Dated n t' ∧ ∀ d, d ≠ 0 →
      t'.getCurrentVotes d = t.getCurrentVotes d + if dst = d then amount else 0 := by
  unfold giveVotes at h
  split at h
  · simp only [bind_eq_ok, SafeMath.add_eq_ok] at h
    obtain ⟨_, ⟨_, rfl⟩, hwrite⟩ := h
    have hwrites := writeCheckpoint_votes hn hdated hwrite
    refine ⟨hwrites.delegates, hwrites.dated, fun d _ => ?_⟩
    rw [hwrites.current]
    by_cases hd : d = dst
    · subst hd
      rw [if_pos rfl, if_pos rfl]
    · rw [if_neg hd, if_neg (Ne.symm hd), Nat.add_zero]
  · rename_i hzero
    obtain rfl := Except.ok.inj h
    refine ⟨rfl, hdated, fun d hd => ?_⟩
    have hne : dst ≠ d := fun heq => hd (heq ▸ not_not.mp hzero)
    rw [if_neg hne, Nat.add_zero]

theorem moveDelegates_eq_ok (hn : 0 < n) (hdated : Dated n t)
    (h : _moveDelegates n src dst amount t = .ok t') : MovesVotes n src dst amount t t' := by
  unfold _moveDelegates at h
  split at h
  · simp only [bind_eq_ok] at h
    obtain ⟨t₁, htake, hgive⟩ := h
    obtain ⟨hdelegates₁, hdated₁, htaken⟩ := takeVotes_eq_ok hn hdated htake
    obtain ⟨hdelegates₂, hdated₂, hgiven⟩ := giveVotes_eq_ok hn hdated₁ hgive
    refine ⟨hdelegates₂.trans hdelegates₁, hdated₂, fun d hd => ?_⟩
    have htaken := htaken d hd
    have hgiven := hgiven d hd
    omega
  · rename_i hidle
    obtain rfl := Except.ok.inj h
    refine ⟨rfl, hdated, fun d _ => ?_⟩
    rcases not_and_or.mp hidle with hsame | hnone
    · rw [not_not.mp hsame]
    · rw [Nat.eq_zero_of_not_pos hnone, ite_self, ite_self]

theorem writeCheckpoint_ne_underflow {index : UInt32} {votes : Nat} :
    _writeCheckpoint n d index votes t ≠ .error "SafeMath: subtraction overflow" := by
  refine bind_ne_error (fun h => ?_) fun _ _ => ?_
  · rcases bind_eq_error.mp h with h | ⟨_, _, h⟩
    · exact absurd (require_eq_error.mp h).2 (by decide)
    · cases h
  · dsimp only
    split <;> exact fun h => nomatch h

/-- Votes are taken from a representative that has them. -/
theorem moveDelegates_ne_underflow (h : src ≠ 0 → amount ≤ t.getCurrentVotes src) :
    _moveDelegates n src dst amount t ≠ .error "SafeMath: subtraction overflow" := by
  unfold _moveDelegates
  split
  · refine bind_ne_error ?_ fun _ _ => ?_
    · unfold takeVotes
      split
      · rename_i hsrc
        refine bind_ne_error (fun hsub => ?_) fun _ _ => writeCheckpoint_ne_underflow
        exact absurd (SafeMath.sub_eq_error.mp hsub).1 (Nat.not_lt.mpr (h hsrc))
      · exact fun h => nomatch h
    · unfold giveVotes
      split
      · refine bind_ne_error (fun hadd => ?_) fun _ _ => writeCheckpoint_ne_underflow
        exact absurd (SafeMath.add_eq_error.mp hadd).2 (by decide)
      · exact fun h => nomatch h
  · exact fun h => nomatch h

/-! ## Votes for balances -/

/-- The votes of every delegatee are the balances of the accounts that it represents. -/
def Tallied (t : HuskyToken) : Prop :=
  ∀ d, d ≠ 0 → t.getCurrentVotes d = delegated t.balanceOf t.delegates d

/-- The balances after `amount` went from `src` to `dst`. -/
def MovesBalance (src dst : Address) (amount : Nat) (t t' : HuskyToken) : Prop :=
  ∀ a, t'.balanceOf a + (if a = src then amount else 0) =
    t.balanceOf a + if a = dst then amount else 0

theorem Tallied.congr (h : Tallied t) (hsame : SameVotes t t')
    (hbalance : t'.erc20.balanceOf = t.erc20.balanceOf) : Tallied t' := by
  intro d hd
  rw [hsame.getCurrentVotes, h d hd, hsame.delegates]
  show delegated t.erc20.balanceOf _ d = delegated t'.erc20.balanceOf _ d
  rw [hbalance]

/-- Before the first delegation there are no votes. -/
theorem unvoted_tallied (hdelegates : ∀ a, t.delegates a = 0)
    (hcheckpoints : ∀ d, t.numCheckpoints d = 0) : Dated n t ∧ Tallied t := by
  refine ⟨fun d hd => ?_, fun d hd => ?_⟩
  · rw [hcheckpoints] at hd
    exact absurd hd (by decide)
  · have hnone : t.getCurrentVotes d = 0 := by
      unfold getCurrentVotes
      rw [hcheckpoints]
      rfl
    rw [hnone]
    refine (Finset.sum_eq_zero fun a _ => ?_).symm
    rw [hdelegates, if_neg (Ne.symm hd)]

/-- A movement that `_moveDelegates` is told keeps the tally. -/
theorem Tallied.told (h : Tallied t) (hsame : SameVotes t t₁)
    (hmoves : MovesBalance src dst amount t t₁)
    (hvotes : MovesVotes n (t.delegates src) (t.delegates dst) amount t₁ t')
    (hledger : SameLedger t₁ t') : Tallied t' := by
  intro d hd
  have hvotes' := hvotes.votes d hd
  have hsum := delegated_move t.delegates hmoves d
  rw [hsame.getCurrentVotes, h d hd] at hvotes'
  rw [hvotes.delegates, hsame.delegates]
  show t'.getCurrentVotes d = delegated t'.erc20.balanceOf _ d
  rw [hledger.1]
  exact Nat.add_right_cancel (hvotes'.trans hsum.symm)

/-- Newly minted balances that `_moveDelegates` is told keep the tally. -/
theorem Tallied.minted (h : Tallied t) (hsame : SameVotes t t₁)
    (hmint : ∀ a, t₁.balanceOf a = t.balanceOf a + if a = dst then amount else 0)
    (hvotes : MovesVotes n 0 (t.delegates dst) amount t₁ t') (hledger : SameLedger t₁ t') :
    Tallied t' := by
  intro d hd
  have hvotes' := hvotes.votes d hd
  have hsum := delegated_mint t.delegates hmint d
  rw [if_neg (Ne.symm hd), Nat.add_zero, hsame.getCurrentVotes, h d hd] at hvotes'
  rw [hvotes.delegates, hsame.delegates]
  show t'.getCurrentVotes d = delegated t'.erc20.balanceOf _ d
  rw [hledger.1]
  exact hvotes'.trans hsum.symm

/-- An account that names another delegatee takes its balance there. -/
theorem Tallied.redelegated (h : Tallied t) {delegator delegatee : Address}
    (hsame : t₁.delegates = Function.update t.delegates delegator delegatee)
    (hcheckpoints : ∀ d, t₁.getCurrentVotes d = t.getCurrentVotes d)
    (hbalance : t₁.erc20 = t.erc20)
    (hvotes : MovesVotes n (t.delegates delegator) delegatee (t.balanceOf delegator) t₁ t')
    (hledger : SameLedger t₁ t') : Tallied t' := by
  intro d hd
  have hvotes' := hvotes.votes d hd
  have hsum := delegated_update t.erc20.balanceOf t.delegates delegator delegatee d
  rw [hcheckpoints, h d hd] at hvotes'
  rw [hvotes.delegates, hsame]
  show t'.getCurrentVotes d = delegated t'.erc20.balanceOf _ d
  rw [hledger.1, hbalance]
  exact Nat.add_right_cancel (hvotes'.trans hsum.symm)

/-- A movement that `_moveDelegates` is not told keeps the tally exactly if it is of nothing
or between accounts of one delegatee. -/
theorem Tallied.untold_iff (h : Tallied t) (hsame : SameVotes t t')
    (hmoves : MovesBalance src dst amount t t') :
    Tallied t' ↔ amount = 0 ∨ t.delegates src = t.delegates dst := by
  have hsum := fun d => delegated_move t.delegates hmoves d
  have htally : ∀ d, d ≠ 0 → (t'.getCurrentVotes d = delegated t'.balanceOf t'.delegates d ↔
      (if t.delegates src = d then amount else 0) = if t.delegates dst = d then amount else 0) := by
    intro d hd
    have hsum := hsum d
    rw [hsame.getCurrentVotes, h d hd, hsame.delegates]
    generalize delegated t'.balanceOf t.delegates d = after at *
    generalize delegated t.balanceOf t.delegates d = before at *
    omega
  constructor
  · intro h'
    by_contra hcon
    obtain ⟨hamount, hne⟩ := not_or.mp hcon
    -- one of the two is a delegatee, and its tally is off by the amount
    by_cases hsrc : t.delegates src = 0
    · have hdst : t.delegates dst ≠ 0 := fun hdst => hne (hsrc.trans hdst.symm)
      have hoff := (htally _ hdst).mp (h' _ hdst)
      rw [if_neg hne, if_pos rfl] at hoff
      exact hamount hoff.symm
    · have hoff := (htally _ hsrc).mp (h' _ hsrc)
      rw [if_pos rfl, if_neg (Ne.symm hne)] at hoff
      exact hamount hoff
  · rintro (hzero | hsrc) d hd
    · exact (htally d hd).mpr (by rw [hzero, ite_self, ite_self])
    · exact (htally d hd).mpr (by rw [hsrc])

/-- Burnt balances keep the tally exactly if there are none or their account has no
delegatee. -/
theorem Tallied.burnt_iff (h : Tallied t) (hsame : SameVotes t t')
    (hburn : ∀ a, t'.balanceOf a + (if a = src then amount else 0) = t.balanceOf a) :
    Tallied t' ↔ amount = 0 ∨ t.delegates src = 0 := by
  have htally : ∀ d, d ≠ 0 → (t'.getCurrentVotes d = delegated t'.balanceOf t'.delegates d ↔
      (if t.delegates src = d then amount else 0) = 0) := by
    intro d hd
    have hsum := delegated_burn t.delegates hburn d
    rw [hsame.getCurrentVotes, h d hd, hsame.delegates]
    generalize delegated t'.balanceOf t.delegates d = after at *
    generalize delegated t.balanceOf t.delegates d = before at *
    omega
  constructor
  · intro h'
    by_contra hcon
    obtain ⟨hamount, hsrc⟩ := not_or.mp hcon
    have hoff := (htally _ hsrc).mp (h' _ hsrc)
    rw [if_pos rfl] at hoff
    exact hamount hoff
  · rintro (hzero | hsrc) d hd
    · exact (htally d hd).mpr (by rw [hzero, ite_self])
    · exact (htally d hd).mpr (if_neg fun heq => hd (heq.symm.trans hsrc))

/-! ## The operations -/

section Operations

variable {sender account recipient holder delegator delegatee : Address}

theorem sameVotes_setERC20 (erc20 : ERC20) : SameVotes t (t.setERC20 erc20) := ⟨rfl, rfl, rfl⟩

/-- Votes move after the ledger did. -/
theorem mint_tallied (hn : 0 < n) (hdated : Dated n t) (h : Tallied t)
    (hmint : t.mint sender n recipient amount = .ok t') : Dated n t' ∧ Tallied t' := by
  simp only [mint, bind_eq_ok] at hmint
  obtain ⟨_, _, _, _, _, _, erc20, hledger, hmove⟩ := hmint
  have hmoves := moveDelegates_eq_ok hn ((sameVotes_setERC20 erc20).dated hdated) hmove
  exact ⟨hmoves.dated, h.minted (sameVotes_setERC20 erc20) (ERC20.balanceOf_mint hledger) hmoves
    (moveDelegates_ledger hmove)⟩

/-- A mint by hand keeps the tally, as it moves the votes. -/
theorem manualMint_tallied (hn : 0 < n) (hdated : Dated n t) (h : Tallied t)
    (hmint : t.manualMint sender n recipient amount = .ok t') : Dated n t' ∧ Tallied t' := by
  simp only [manualMint, bind_eq_ok] at hmint
  obtain ⟨_, _, manualMinted, _, _, _, hmint⟩ := hmint
  have hsame : SameVotes t { t with manualMinted } := ⟨rfl, rfl, rfl⟩
  exact mint_tallied hn (hsame.dated hdated) (h.congr hsame rfl) hmint

theorem transfer_tallied (hn : 0 < n) (hdated : Dated n t) (h : Tallied t)
    (htransfer : t.transfer sender n recipient amount = .ok t') : Dated n t' ∧ Tallied t' := by
  simp only [transfer, bind_eq_ok] at htransfer
  obtain ⟨erc20, hledger, hmove⟩ := htransfer
  have hmoves := moveDelegates_eq_ok hn ((sameVotes_setERC20 erc20).dated hdated) hmove
  exact ⟨hmoves.dated, h.told (sameVotes_setERC20 erc20) (ERC20.balanceOf_transfer hledger) hmoves
    (moveDelegates_ledger hmove)⟩

theorem transferFrom_tallied (hn : 0 < n) (hdated : Dated n t) (h : Tallied t)
    (htransfer : t.transferFrom sender n holder recipient amount = .ok t') :
    Dated n t' ∧ Tallied t' := by
  simp only [transferFrom, bind_eq_ok] at htransfer
  obtain ⟨erc20, hledger, hmove⟩ := htransfer
  have hmoves := moveDelegates_eq_ok hn ((sameVotes_setERC20 erc20).dated hdated) hmove
  exact ⟨hmoves.dated, h.told (sameVotes_setERC20 erc20) (ERC20.balanceOf_transferFrom hledger)
    hmoves (moveDelegates_ledger hmove)⟩

theorem delegate_tallied (hn : 0 < n) (hdated : Dated n t) (h : Tallied t)
    (hdelegate : t._delegate n delegator delegatee = .ok t') : Dated n t' ∧ Tallied t' := by
  let named : HuskyToken := { t with delegates := Function.update t.delegates delegator delegatee }
  have hmove : _moveDelegates n (t.delegates delegator) delegatee (t.balanceOf delegator) named =
      .ok t' := hdelegate
  have hmoves := moveDelegates_eq_ok hn (t := named) hdated hmove
  have hledger : SameLedger named t' := moveDelegates_ledger hmove
  have hnamed : named.delegates = Function.update t.delegates delegator delegatee := rfl
  exact ⟨hmoves.dated, h.redelegated hnamed (fun _ => rfl) rfl hmoves hledger⟩

/-- A burn moves no votes: the tally stands only where the account had none. -/
theorem burn_tallied_iff (h : Tallied t) (hburn : t.burn sender account amount = .ok t') :
    SameVotes t t' ∧ (Tallied t' ↔ amount = 0 ∨ t.delegates account = 0) := by
  simp only [burn, bind_eq_ok, pure_eq_ok] at hburn
  obtain ⟨_, _, erc20, hledger, rfl⟩ := hburn
  exact ⟨sameVotes_setERC20 erc20,
    h.burnt_iff (sameVotes_setERC20 erc20) (ERC20.balanceOf_burn hledger)⟩

/-- A lock moves no votes: the tally stands only where both ends share a delegatee. -/
theorem lock_tallied_iff (h : Tallied t) (hlock : t.lock sender account amount = .ok t') :
    SameVotes t t' ∧ (Tallied t' ↔ amount = 0 ∨ t.delegates account = t.delegates t.here) := by
  simp only [lock, bind_eq_ok, pure_eq_ok] at hlock
  obtain ⟨_, _, _, _, _, _, erc20, hledger, _, _, _, _, rfl⟩ := hlock
  exact ⟨⟨rfl, rfl, rfl⟩, h.untold_iff ⟨rfl, rfl, rfl⟩ (ERC20.balanceOf_transfer hledger)⟩

/-- Nor does a lock to the owner. -/
theorem lockToOwner_tallied_iff (h : Tallied t)
    (hlock : t.lockToOwner sender account amount = .ok t') :
    SameVotes t t' ∧ (Tallied t' ↔ amount = 0 ∨ t.delegates account = t.delegates t.owner) := by
  simp only [lockToOwner, bind_eq_ok, pure_eq_ok] at hlock
  obtain ⟨_, _, _, _, _, _, erc20, hledger, rfl⟩ := hlock
  exact ⟨⟨rfl, rfl, rfl⟩, h.untold_iff ⟨rfl, rfl, rfl⟩ (ERC20.balanceOf_transfer hledger)⟩

/-- Nor does an unlock. -/
theorem unlock_tallied_iff (h : Tallied t) (hunlock : t.unlock sender n = .ok t') :
    SameVotes t t' ∧ (Tallied t' ↔
      t.canUnlockAmount n sender = .ok 0 ∨ t.delegates t.here = t.delegates sender) := by
  simp only [unlock, bind_eq_ok, pure_eq_ok] at hunlock
  obtain ⟨_, _, unlocked, hamount, erc20, hledger, _, _, _, _, rfl⟩ := hunlock
  rw [hamount, Except.ok.injEq]
  exact ⟨⟨rfl, rfl, rfl⟩, h.untold_iff ⟨rfl, rfl, rfl⟩ (ERC20.balanceOf_transfer hledger)⟩

/-- Nor does a merge of accounts. -/
theorem transferAll_tallied_iff (h : Tallied t)
    (htransfer : t.transferAll sender recipient = .ok t') :
    SameVotes t t' ∧ (Tallied t' ↔
      t.balanceOf sender = 0 ∨ t.delegates sender = t.delegates recipient) := by
  simp only [transferAll, bind_eq_ok, pure_eq_ok] at htransfer
  obtain ⟨_, _, _, _, erc20, hledger, rfl⟩ := htransfer
  exact ⟨⟨rfl, rfl, rfl⟩, h.untold_iff ⟨rfl, rfl, rfl⟩ (ERC20.balanceOf_transfer hledger)⟩

end Operations

/-! ## No underflow -/

section Underflow

variable {sender recipient holder delegator delegatee : Address}

theorem erc20_transfer_ne_underflow {erc20 : ERC20} :
    erc20._transfer holder recipient amount ≠ .error "SafeMath: subtraction overflow" := by
  refine bind_ne_error (require_ne_error (by decide)) fun _ _ => ?_
  refine bind_ne_error (require_ne_error (by decide)) fun _ _ => ?_
  refine bind_ne_error (SafeMath.subOr_ne_error (by decide)) fun _ _ => ?_
  exact bind_ne_error (SafeMath.add_ne_error (by decide)) fun _ _ h => nomatch h

/-- The votes of a delegatee cover the balance of each account that it represents. -/
theorem Tallied.covers (h : Tallied t) {a : Address} (ha : t.delegates a ≠ 0) :
    t.balanceOf a ≤ t.getCurrentVotes (t.delegates a) := by
  rw [h _ ha]
  exact le_delegated t.balanceOf t.delegates a

theorem mint_ne_underflow :
    t.mint sender n recipient amount ≠ .error "SafeMath: subtraction overflow" := by
  refine bind_ne_error (require_ne_error (by decide)) fun _ _ => ?_
  refine bind_ne_error (SafeMath.add_ne_error (by decide)) fun _ _ => ?_
  refine bind_ne_error (require_ne_error (by decide)) fun _ _ => ?_
  refine bind_ne_error ?_ fun _ _ => moveDelegates_ne_underflow fun h => absurd rfl h
  refine bind_ne_error (require_ne_error (by decide)) fun _ _ => ?_
  refine bind_ne_error (SafeMath.add_ne_error (by decide)) fun _ _ => ?_
  exact bind_ne_error (SafeMath.add_ne_error (by decide)) fun _ _ h => nomatch h

theorem manualMint_ne_underflow :
    t.manualMint sender n recipient amount ≠ .error "SafeMath: subtraction overflow" := by
  refine bind_ne_error (require_ne_error (by decide)) fun _ _ => ?_
  refine bind_ne_error (SafeMath.add_ne_error (by decide)) fun _ _ => ?_
  exact bind_ne_error (require_ne_error (by decide)) fun _ _ => mint_ne_underflow

theorem transfer_ne_underflow (h : Tallied t) :
    t.transfer sender n recipient amount ≠ .error "SafeMath: subtraction overflow" :=
  bind_ne_error erc20_transfer_ne_underflow fun _ hledger =>
    moveDelegates_ne_underflow fun hsrc =>
      (ERC20.le_balance_of_transfer hledger).trans (h.covers hsrc)

theorem transferFrom_ne_underflow (h : Tallied t) :
    t.transferFrom sender n holder recipient amount ≠ .error "SafeMath: subtraction overflow" := by
  refine bind_ne_error ?_ fun erc20 hledger => ?_
  · refine bind_ne_error erc20_transfer_ne_underflow fun _ _ => ?_
    refine bind_ne_error (SafeMath.subOr_ne_error (by decide)) fun _ _ => ?_
    refine bind_ne_error (require_ne_error (by decide)) fun _ _ => ?_
    exact bind_ne_error (require_ne_error (by decide)) fun _ _ h => nomatch h
  · simp only [ERC20.transferFrom, bind_eq_ok] at hledger
    obtain ⟨_, hmoved, _⟩ := hledger
    exact moveDelegates_ne_underflow fun hsrc =>
      (ERC20.le_balance_of_transfer hmoved).trans (h.covers hsrc)

theorem delegate_ne_underflow (h : Tallied t) :
    t._delegate n delegator delegatee ≠ .error "SafeMath: subtraction overflow" :=
  moveDelegates_ne_underflow fun hsrc => h.covers hsrc

end Underflow

end HuskyToken

namespace Huski.Governance

open HuskyToken

section Runs

variable {ecrecover : Address → Signed → Address} {c c' : Chain} {tx : Tx} {g g' : State}

/-- What `_moveDelegates` is not told are movements of nothing or between accounts of one
delegatee, and burns of nothing or of an account without one. -/
def TellsVotes (c : Chain) (tx : Tx) : Prop :=
  let t := c.state.token
  match tx.op with
  | .burn account amount => amount = 0 ∨ t.delegates account = 0
  | .lock account amount => amount = 0 ∨ t.delegates account = t.delegates t.here
  | .unlock => t.canUnlockAmount tx.blockNumber tx.sender = .ok 0 ∨
      t.delegates t.here = t.delegates tx.sender
  | .lockToOwner account amount => amount = 0 ∨ t.delegates account = t.delegates t.owner
  | .transferAll recipient => t.balanceOf tx.sender = 0 ∨
      t.delegates tx.sender = t.delegates recipient
  | _ => True

/-- The operations that move votes. -/
def Op.movesVotes : Op → Bool
  | .mint .. | .manualMint .. | .transfer .. | .transferFrom .. | .delegate ..
  | .delegateBySig .. =>
      true
  | _ => false

theorem onToken_eq_ok {f : HuskyToken → Result HuskyToken} (h : g.onToken f = .ok g') :
    f g.token = .ok g'.token := by
  simp only [State.onToken, bind_eq_ok, pure_eq_ok] at h
  obtain ⟨token, htoken, rfl⟩ := h
  exact htoken

theorem onToken_ne_error {f : HuskyToken → Result HuskyToken} {e : String}
    (h : f g.token ≠ .error e) : g.onToken f ≠ .error e :=
  bind_ne_error h fun _ _ h => nomatch h

theorem delegateBySig_eq_ok {n timestamp : Nat} {signed : Signed}
    (h : delegateBySig ecrecover n timestamp signed g = .ok g') :
    g.token._delegate n (ecrecover g.token.here signed) signed.delegatee = .ok g'.token := by
  simp only [delegateBySig, bind_eq_ok] at h
  obtain ⟨_, _, _, _, _, _, h⟩ := h
  have htoken := onToken_eq_ok h
  exact htoken

/-- Every operation keeps the checkpoints dated, and keeps the tally exactly if it tells of
what it moves. -/
theorem exec_tallied_iff (hn : 0 < tx.blockNumber) (hdated : Dated tx.blockNumber c.state.token)
    (h : Tallied c.state.token) (hexec : exec ecrecover tx c.state = .ok g') :
    Dated tx.blockNumber g'.token ∧ (Tallied g'.token ↔ TellsVotes c tx) := by
  -- functions that move the votes along with the balances
  have told : ∀ {tx : Tx}, TellsVotes c tx →
      Dated tx.blockNumber g'.token ∧ Tallied g'.token →
      Dated tx.blockNumber g'.token ∧ (Tallied g'.token ↔ TellsVotes c tx) :=
    fun htells ⟨hdated, htallied⟩ => ⟨hdated, fun _ => htells, fun _ => htallied⟩
  -- functions that touch neither
  have kept : ∀ {t' : HuskyToken}, SameVotes c.state.token t' →
      t'.erc20.balanceOf = c.state.token.erc20.balanceOf →
      Dated tx.blockNumber t' ∧ Tallied t' :=
    fun hsame hbalance => ⟨hsame.dated hdated, h.congr hsame hbalance⟩
  obtain ⟨sender, n, timestamp, op⟩ := tx
  cases op with
  | mint => exact told trivial (mint_tallied hn hdated h (onToken_eq_ok hexec))
  | manualMint => exact told trivial (manualMint_tallied hn hdated h (onToken_eq_ok hexec))
  | transfer => exact told trivial (transfer_tallied hn hdated h (onToken_eq_ok hexec))
  | transferFrom => exact told trivial (transferFrom_tallied hn hdated h (onToken_eq_ok hexec))
  | delegate => exact told trivial (delegate_tallied hn hdated h (onToken_eq_ok hexec))
  | delegateBySig => exact told trivial (delegate_tallied hn hdated h (delegateBySig_eq_ok hexec))
  -- functions that move balances and no votes
  | burn =>
      obtain ⟨hsame, hiff⟩ := burn_tallied_iff h (onToken_eq_ok hexec)
      exact ⟨hsame.dated hdated, hiff⟩
  | lock =>
      obtain ⟨hsame, hiff⟩ := lock_tallied_iff h (onToken_eq_ok hexec)
      exact ⟨hsame.dated hdated, hiff⟩
  | unlock =>
      obtain ⟨hsame, hiff⟩ := unlock_tallied_iff h (onToken_eq_ok hexec)
      exact ⟨hsame.dated hdated, hiff⟩
  | lockToOwner =>
      obtain ⟨hsame, hiff⟩ := lockToOwner_tallied_iff h (onToken_eq_ok hexec)
      exact ⟨hsame.dated hdated, hiff⟩
  | transferAll =>
      obtain ⟨hsame, hiff⟩ := transferAll_tallied_iff h (onToken_eq_ok hexec)
      exact ⟨hsame.dated hdated, hiff⟩
  | approve spender amount =>
      have happrove := onToken_eq_ok hexec
      simp only [HuskyToken.approve, bind_eq_ok, pure_eq_ok] at happrove
      obtain ⟨erc20, happrove, htoken⟩ := happrove
      refine told trivial ?_
      rw [← htoken]
      exact kept (sameVotes_setERC20 erc20) (ERC20.balanceOf_approve happrove)
  | transferOwnership newOwner =>
      have howner := onToken_eq_ok hexec
      simp only [HuskyToken.transferOwnership, bind_eq_ok, pure_eq_ok] at howner
      obtain ⟨_, _, _, _, htoken⟩ := howner
      refine told trivial ?_
      rw [← htoken]
      exact kept ⟨rfl, rfl, rfl⟩ rfl
  | renounceOwnership =>
      have howner := onToken_eq_ok hexec
      simp only [HuskyToken.renounceOwnership, bind_eq_ok, pure_eq_ok] at howner
      obtain ⟨_, _, htoken⟩ := howner
      refine told trivial ?_
      rw [← htoken]
      exact kept ⟨rfl, rfl, rfl⟩ rfl

theorem mine_eq_ok (h : mine ecrecover c tx = .ok c') : c.block ≤ tx.blockNumber ∧
    c'.block = tx.blockNumber ∧ exec ecrecover tx c.state = .ok c'.state := by
  simp only [mine, bind_eq_ok, require_eq_ok, pure_eq_ok] at h
  obtain ⟨_, hblock, state, hexec, rfl⟩ := h
  exact ⟨hblock, rfl, hexec⟩

/-- In some block after the first, every delegatee has the votes of its accounts. -/
structure Voted (c : Chain) : Prop where
  block : 0 < c.block
  dated : Dated c.block c.state.token
  tallied : Tallied c.state.token

/-- The tally survives exactly the steps that tell the votes. -/
theorem Voted.step_iff (hc : Voted c) (hstep : mine ecrecover c tx = .ok c') :
    Voted c' ↔ TellsVotes c tx := by
  obtain ⟨hblock, hnow, hexec⟩ := mine_eq_ok hstep
  have hn : 0 < tx.blockNumber := hc.block.trans_le hblock
  obtain ⟨hdated, hiff⟩ := exec_tallied_iff hn (hc.dated.mono hblock) hc.tallied hexec
  exact ⟨fun h => hiff.mp h.tallied, fun htells => ⟨hnow ▸ hn, hnow ▸ hdated, hiff.mpr htells⟩⟩

/-- The tally stands in every state of a run whose steps tell the votes. -/
theorem voted_inductive : (machine ecrecover).Inductive TellsVotes Voted where
  init c hinit := by
    obtain ⟨hblock, here, deployer, first, last, token, hcreate, hstate⟩ := hinit
    simp only [create, bind_eq_ok] at hcreate
    obtain ⟨_, _, hmint⟩ := hcreate
    have hunminted := unvoted_tallied (n := c.block) (t := unminted here deployer first last)
      (fun _ => rfl) fun _ => rfl
    obtain ⟨hdated, htallied⟩ := manualMint_tallied hblock hunminted.1 hunminted.2 hmint
    have htoken : c.state.token = token := by rw [hstate]
    exact ⟨hblock, htoken ▸ hdated, htoken ▸ htallied⟩
  step c tx c' hc htells hstep := (hc.step_iff hstep).mpr htells

/-- Where the votes are tallied, no operation that moves them reverts for want of votes. -/
theorem Voted.no_underflow (hc : Voted c) (hmoves : tx.op.movesVotes = true) :
    mine ecrecover c tx ≠ .error "SafeMath: subtraction overflow" := by
  have h := hc.tallied
  refine bind_ne_error (require_ne_error (by decide)) fun _ _ =>
    bind_ne_error ?_ fun _ _ h => nomatch h
  obtain ⟨sender, n, timestamp, op⟩ := tx
  cases op with
  | mint => exact onToken_ne_error mint_ne_underflow
  | manualMint => exact onToken_ne_error manualMint_ne_underflow
  | transfer => exact onToken_ne_error (transfer_ne_underflow h)
  | transferFrom => exact onToken_ne_error (transferFrom_ne_underflow h)
  | delegate => exact onToken_ne_error (delegate_ne_underflow h)
  | delegateBySig =>
      refine bind_ne_error (require_ne_error (by decide)) fun _ _ => ?_
      refine bind_ne_error (require_ne_error (by decide)) fun _ _ => ?_
      refine bind_ne_error (require_ne_error (by decide)) fun _ _ => ?_
      exact onToken_ne_error (delegate_ne_underflow h)
  | burn | lock | unlock | lockToOwner | transferAll | approve | transferOwnership
  | renounceOwnership => cases hmoves

end Runs

/-! ## Votes over every run -/

/-- In every run whose ledger movements are all told to `_moveDelegates`, or are of nothing or
between accounts of one delegatee: every delegatee has the votes of the accounts that it
represents, no vote is of balances that another delegatee has as well, and no operation that
moves votes reverts for want of them. And a step from such a state keeps the tally exactly
if it meets the condition. -/
theorem votes_eq_balances (ecrecover : Address → Signed → Address) :
    (∀ c, (machine ecrecover).ReachableBy TellsVotes c →
      (∀ d, d ≠ 0 → c.state.token.getCurrentVotes d =
        delegated c.state.token.balanceOf c.state.token.delegates d) ∧
      (∀ reps : Finset Address, 0 ∉ reps →
        ∑ d ∈ reps, c.state.token.getCurrentVotes d ≤ ∑ a, c.state.token.balanceOf a) ∧
      ∀ tx, tx.op.movesVotes = true →
        (machine ecrecover).step c tx ≠ .error "SafeMath: subtraction overflow") ∧
    ∀ c tx c', (machine ecrecover).ReachableBy TellsVotes c →
      (machine ecrecover).step c tx = .ok c' → (Tallied c'.state.token ↔ TellsVotes c tx) := by
  refine ⟨fun c hreach => ?_, fun c tx c' hreach hstep => ?_⟩
  · have hvoted := voted_inductive.invariant hreach
    refine ⟨hvoted.tallied, fun reps hreps => ?_, fun tx hmoves => hvoted.no_underflow hmoves⟩
    calc ∑ d ∈ reps, c.state.token.getCurrentVotes d
        = ∑ d ∈ reps, delegated c.state.token.balanceOf c.state.token.delegates d :=
          Finset.sum_congr rfl fun d hd => hvoted.tallied d fun hzero => hreps (hzero ▸ hd)
      _ ≤ ∑ a, c.state.token.balanceOf a := sum_delegated_le _ _ reps
  · have hvoted := voted_inductive.invariant hreach
    obtain ⟨hblock, _, hexec⟩ := mine_eq_ok hstep
    exact (exec_tallied_iff (hvoted.block.trans_le hblock) (hvoted.dated.mono hblock)
      hvoted.tallied hexec).2

/-- HUSKY at address 101 as account 50 deploys it in block 1. -/
def freshToken : HuskyToken := (create 1 101 50 0 10).toOption.getD (unminted 101 50 0 10)

/-- A token that has just been deployed. -/
def freshChain : Chain := { block := 1, state := { token := freshToken, nonces := fun _ => 0 } }

theorem freshChain_init (ecrecover : Address → Signed → Address) :
    (machine ecrecover).init freshChain := by
  have hcreated : (create 1 101 50 0 10).toOption.isSome = true := by
    decide +kernel
  obtain ⟨token, htoken⟩ := Option.isSome_iff_exists.mp hcreated
  refine ⟨Nat.one_pos, 101, 50, 0, 10, token, toOption_eq_some.mp htoken, ?_⟩
  unfold freshChain freshToken
  rw [htoken]
  rfl

/-- Account 50 gives 10 HUSKY to account 1, which names account 9, and gives 4 of them on. -/
theorem votes_of_transfer :
    ∃ c, (machine fun _ _ => 0).Reachable c ∧ c.state.token.getCurrentVotes 9 = 6 ∧
      delegated c.state.token.balanceOf c.state.token.delegates 9 = 6 := by
  have hrun : (machine fun _ _ => 0).lastStep freshChain
      [⟨50, 1, 0, .transfer 1 10⟩, ⟨1, 2, 0, .delegate 9⟩] ⟨1, 3, 0, .transfer 3 4⟩
      (fun _ c => c.state.token.getCurrentVotes 9 = 6) = true := by
    decide +kernel
  have hok : ∀ τ, ∀ tx ∈ [(⟨50, 1, 0, .transfer 1 10⟩ : Tx), ⟨1, 2, 0, .delegate 9⟩],
      TellsVotes τ tx := by
    intro τ tx htx
    simp only [List.mem_cons, List.not_mem_nil, or_false] at htx
    rcases htx with rfl | rfl <;> trivial
  obtain ⟨c₁, c, hreach, hstep, htest⟩ :=
    TSys.lastStep_reachableBy (freshChain_init fun _ _ => 0) hok hrun
  have hlast : TellsVotes c₁ ⟨1, 3, 0, .transfer 3 4⟩ := trivial
  have hreach := TSys.ReachableBy.step hreach hlast hstep
  have hvotes := of_decide_eq_true htest
  have htally := ((votes_eq_balances fun _ _ => 0).1 c hreach).1 9 (by decide)
  exact ⟨c, hreach.reachable, hvotes, htally.symm.trans hvotes⟩

/-- Account 1 has named account 9. Account 2 moves all of its 20 HUSKY to account 1, whose 30
then stand for 10 votes, so that it cannot transfer them. -/
theorem transferAll_loses_votes :
    ∃ c, (machine fun _ _ => 0).Reachable c ∧ c.state.token.getCurrentVotes 9 = 10 ∧
      c.state.token.balanceOf 1 = 30 ∧ c.state.token.delegates 1 = 9 ∧
      mine (fun _ _ => 0) c ⟨1, 4, 0, .transfer 3 30⟩ = .error "SafeMath: subtraction overflow" ∧
      c.state.token.getCurrentVotes 9 ≠
        delegated c.state.token.balanceOf c.state.token.delegates 9 := by
  have hrun : (machine fun _ _ => 0).lastStep freshChain
      [⟨50, 1, 0, .transfer 1 10⟩, ⟨50, 1, 0, .transfer 2 20⟩, ⟨1, 2, 0, .delegate 9⟩]
      ⟨2, 3, 0, .transferAll 1⟩
      (fun _ c => c.state.token.getCurrentVotes 9 = 10 ∧ c.state.token.balanceOf 1 = 30 ∧
        c.state.token.delegates 1 = 9 ∧
        failsWith "SafeMath: subtraction overflow"
          (mine (fun _ _ => 0) c ⟨1, 4, 0, .transfer 3 30⟩) = true) = true := by
    decide +kernel
  obtain ⟨c₁, c, hreach, hstep, htest⟩ :=
    TSys.lastStep_reachable (freshChain_init fun _ _ => 0) hrun
  obtain ⟨hvotes, hbalance, hdelegate, hfails⟩ := of_decide_eq_true htest
  refine ⟨c, .step hreach trivial hstep, hvotes, hbalance, hdelegate,
    eq_error_of_failsWith hfails, fun htally => ?_⟩
  have hle := le_delegated c.state.token.balanceOf c.state.token.delegates 1
  rw [hdelegate, ← htally, hvotes, hbalance] at hle
  exact absurd hle (by decide)

end Huski.Governance
