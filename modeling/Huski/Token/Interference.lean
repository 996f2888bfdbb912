import Huski.Token.Locks

/-!
# What others do to vested locks

Nobody needs the consent of an account to lock for it or to move locks to it. A lock on top of a
lock keeps the block from which the release counts, so that more can be unlocked. Locks that are
moved to an account come with the block of their owner's last release: the later of both blocks
counts for the merged lock.
-/

open Solidity

namespace HuskyToken

variable {n a b : Nat} {v sender recipient account : Address} {t t' : HuskyToken}

/-- A larger lock with the same last release unlocks no less, and so does any first lock. -/
theorem canUnlockAmount_mono (hstart : t'.startReleaseBlock = t.startReleaseBlock)
    (hend : t'.endReleaseBlock = t.endReleaseBlock) (hlocks : t.locks v ≤ t'.locks v)
    (hlast : t.locks v = 0 ∨ t'.lastUnlockBlock v = t.lastUnlockBlock v)
    (hbefore : t.canUnlockAmount n v = .ok a) (hafter : t'.canUnlockAmount n v = .ok b) :
    a ≤ b := by
  unfold canUnlockAmount at hbefore hafter
  rw [hstart, hend] at hafter
  split at hbefore
  · cases hbefore
    exact Nat.zero_le b
  · rename_i hstarted
    rw [if_neg hstarted] at hafter
    split at hbefore
    -- after the term the view says the whole lock
    · rename_i hended
      rw [if_pos hended] at hafter
      cases hbefore
      cases hafter
      exact hlocks
    · rename_i hended
      rw [if_neg hended] at hafter
      simp only [bind_eq_ok, SafeMath.sub_eq_ok, SafeMath.mul_eq_ok, SafeMath.div_eq_ok]
        at hbefore hafter
      obtain ⟨_, ⟨_, rfl⟩, _, ⟨_, rfl⟩, _, ⟨_, rfl⟩, _, rfl⟩ := hbefore
      obtain ⟨_, ⟨_, rfl⟩, _, ⟨_, rfl⟩, _, ⟨_, rfl⟩, _, rfl⟩ := hafter
      -- either nothing was locked before, or the last unlock is as it was
      rcases hlast with hnone | hsame
      · rw [hnone, Nat.zero_mul, Nat.zero_div]
        exact Nat.zero_le _
      · rw [hsame]
        exact Nat.div_le_div_right (Nat.mul_le_mul_right _ hlocks)

/-- What can be unlocked inside the term. -/
theorem canUnlockAmount_inside (hstart : t.startReleaseBlock ≤ n) (hend : n < t.endReleaseBlock)
    (h : t.canUnlockAmount n v = .ok a) :
    a = t.locks v * (n - t.lastUnlockBlock v) / (t.endReleaseBlock - t.lastUnlockBlock v) := by
  unfold canUnlockAmount at h
  rw [if_neg (Nat.not_lt.mpr hstart), if_neg (Nat.not_le.mpr hend)] at h
  simp only [bind_eq_ok, SafeMath.sub_eq_ok, SafeMath.mul_eq_ok, SafeMath.div_eq_ok] at h
  obtain ⟨_, ⟨_, rfl⟩, _, ⟨_, rfl⟩, _, ⟨_, rfl⟩, _, rfl⟩ := h
  rfl

/-- An account that never had anything released before the term: its last release is not before
the start, or nothing is locked for it. -/
def NotReleasedEarly (t : HuskyToken) (v : Address) : Prop :=
  t.locks v = 0 ∨ t.startReleaseBlock ≤ t.lastUnlockBlock v

theorem Locks.canUnlockAmount_mono {amount : Nat} (h : Locks account amount t t')
    (hearly : t.NotReleasedEarly v) (hbefore : t.canUnlockAmount n v = .ok a)
    (hafter : t'.canUnlockAmount n v = .ok b) : a ≤ b := by
  refine HuskyToken.canUnlockAmount_mono h.startReleaseBlock h.endReleaseBlock ?_ ?_ hbefore hafter
  · rw [h.locks]
    by_cases hv : v = account
    · subst hv
      rw [Function.update_self]
      exact Nat.le_add_right _ _
    · rw [Function.update_of_ne hv]
  · rcases hearly with hnone | hlast
    · exact .inl hnone
    · refine .inr ?_
      rw [h.lastUnlockBlock]
      by_cases hv : v = account
      · subst hv
        rw [Function.update_self]
        exact max_eq_left hlast
      · rw [Function.update_of_ne hv]

theorem Unlocks.canUnlockAmount_mono {amount : Nat} (h : Unlocks sender n amount t t')
    (hother : v ≠ sender) (hbefore : t.canUnlockAmount n v = .ok a)
    (hafter : t'.canUnlockAmount n v = .ok b) : a ≤ b := by
  refine HuskyToken.canUnlockAmount_mono h.startReleaseBlock h.endReleaseBlock ?_ (.inr ?_) hbefore
    hafter
  · rw [h.locks, Function.update_of_ne hother]
  · rw [h.lastUnlockBlock, Function.update_of_ne hother]

theorem SameLocks.canUnlockAmount_mono (h : SameLocks t t')
    (hbefore : t.canUnlockAmount n v = .ok a) (hafter : t'.canUnlockAmount n v = .ok b) :
    a ≤ b := by
  refine HuskyToken.canUnlockAmount_mono h.startReleaseBlock h.endReleaseBlock ?_ (.inr ?_) hbefore
    hafter
  · rw [h.locks]
  · rw [h.lastUnlockBlock]

/-- Locks that are merged into the locks of another account. -/
theorem Merges.canUnlockAmount_mono (h : Merges sender recipient t t') (hother : v ≠ sender)
    (hearly : t.NotReleasedEarly v)
    (hlater : v = recipient → t.locks v = 0 ∨ t.lastUnlockBlock sender ≤ t.lastUnlockBlock v)
    (hbefore : t.canUnlockAmount n v = .ok a) (hafter : t'.canUnlockAmount n v = .ok b) :
    a ≤ b := by
  refine HuskyToken.canUnlockAmount_mono h.startReleaseBlock h.endReleaseBlock ?_ ?_ hbefore hafter
  · rw [h.locks, Function.update_of_ne hother]
    by_cases hv : v = recipient
    · subst hv
      rw [Function.update_self]
      exact Nat.le_add_right _ _
    · rw [Function.update_of_ne hv]
  · rw [h.lastUnlockBlock, Function.update_of_ne hother]
    by_cases hv : v = recipient
    · rcases hlater hv with hnone | hsender
      · exact .inl hnone
      · rcases hearly with hnone | hlast
        · exact .inl hnone
        · subst hv
          rw [Function.update_self, max_eq_left hlast, max_eq_left hsender]
          exact .inr rfl
    · rw [Function.update_of_ne hv]
      exact .inr rfl

/-- Past the term the last release does not count. -/
theorem Merges.canUnlockAmount_ended (h : Merges sender recipient t t') (hother : v ≠ sender)
    (hterm : n < t.startReleaseBlock ∨ t.endReleaseBlock ≤ n)
    (hbefore : t.canUnlockAmount n v = .ok a) (hafter : t'.canUnlockAmount n v = .ok b) :
    a ≤ b := by
  have hlocks : t.locks v ≤ t'.locks v := by
    rw [h.locks, Function.update_of_ne hother]
    by_cases hv : v = recipient
    · subst hv
      rw [Function.update_self]
      exact Nat.le_add_right _ _
    · rw [Function.update_of_ne hv]
  unfold canUnlockAmount at hbefore hafter
  rw [h.startReleaseBlock, h.endReleaseBlock] at hafter
  split at hbefore
  · cases hbefore
    exact Nat.zero_le b
  · rename_i hstarted
    have hended : n ≥ t.endReleaseBlock := hterm.resolve_left hstarted
    rw [if_pos hended] at hbefore
    rw [if_neg hstarted, if_pos hended] at hafter
    cases hbefore
    cases hafter
    exact hlocks

end HuskyToken

namespace Huski.Governance

open HuskyToken

variable {ecrecover : Address → Signed → Address} {v : Address} {c c' : Chain} {tx : Tx}
  {a b : Nat}

/-- Inside the term, the sender merges locks that it had released later into locks of `v`. -/
def MergesLater (v : Address) (c : Chain) (tx : Tx) : Prop :=
  let t := c.state.token
  tx.op = .transferAll v ∧ 0 < t.locks v ∧
    t.startReleaseBlock ≤ tx.blockNumber ∧ tx.blockNumber < t.endReleaseBlock ∧
    t.lastUnlockBlock v < t.lastUnlockBlock tx.sender

theorem canUnlockAmount_step (hstep : mine ecrecover c tx = .ok c') (hother : tx.sender ≠ v)
    (hearly : c.state.token.NotReleasedEarly v) (hmerges : ¬ MergesLater v c tx)
    (hbefore : c.state.token.canUnlockAmount tx.blockNumber v = .ok a)
    (hafter : c'.state.token.canUnlockAmount tx.blockNumber v = .ok b) : a ≤ b := by
  obtain ⟨-, -, hexec⟩ := mine_eq_ok hstep
  cases hchanges : tx.op.changesLocks with
  | false => exact (exec_sameLocks hchanges hexec).canUnlockAmount_mono hbefore hafter
  | true =>
      obtain ⟨sender, n, timestamp, op⟩ := tx
      cases op with
      | lock account amount =>
          exact (lock_locks (onToken_eq_ok hexec)).canUnlockAmount_mono hearly hbefore hafter
      | unlock =>
          obtain ⟨amount, hunlocks⟩ := unlock_unlocks (onToken_eq_ok hexec)
          exact hunlocks.canUnlockAmount_mono hother.symm hbefore hafter
      -- the recipient's last unlock may move forward, which is what `hmerges` excludes
      | transferAll recipient =>
          have hmerged := transferAll_merges (onToken_eq_ok hexec)
          by_cases hterm : n < c.state.token.startReleaseBlock ∨ c.state.token.endReleaseBlock ≤ n
          · exact hmerged.canUnlockAmount_ended hother.symm hterm hbefore hafter
          · obtain ⟨hstart, hend⟩ := not_or.mp hterm
            refine hmerged.canUnlockAmount_mono hother.symm hearly ?_ hbefore hafter
            intro hv
            subst hv
            by_contra hnot
            obtain ⟨hsome, hlater⟩ := not_or.mp hnot
            exact hmerges ⟨rfl, Nat.pos_of_ne_zero hsome, Nat.not_lt.mp hstart, Nat.not_le.mp hend,
              Nat.not_le.mp hlater⟩
      | _ => cases hchanges

/-- What `v` can unlock after locks with a later release were merged into its own. -/
theorem canUnlockAmount_merged (hstep : mine ecrecover c tx = .ok c') (hother : tx.sender ≠ v)
    (hearly : c.state.token.NotReleasedEarly v) (hmerges : MergesLater v c tx)
    (hafter : c'.state.token.canUnlockAmount tx.blockNumber v = .ok b) :
    b = (c.state.token.locks v + c.state.token.locks tx.sender) *
        (tx.blockNumber - c.state.token.lastUnlockBlock tx.sender) /
        (c.state.token.endReleaseBlock - c.state.token.lastUnlockBlock tx.sender) := by
  obtain ⟨-, -, hexec⟩ := mine_eq_ok hstep
  obtain ⟨sender, n, timestamp, op⟩ := tx
  obtain ⟨hop, hsome, hstart, hend, hlater⟩ := hmerges
  subst hop
  have hmerged := transferAll_merges (onToken_eq_ok hexec)
  have hlast := hearly.resolve_left hsome.ne'
  rw [← hmerged.startReleaseBlock] at hstart
  rw [← hmerged.endReleaseBlock] at hend
  have hinside := canUnlockAmount_inside hstart hend hafter
  rw [hmerged.endReleaseBlock, hmerged.locks, hmerged.lastUnlockBlock,
    Function.update_of_ne hother.symm, Function.update_of_ne hother.symm, Function.update_self,
    Function.update_self, max_eq_left hlast, max_eq_right hlater.le] at hinside
  exact hinside

/-- What an account can unlock is not lowered by an operation of another account, unless that
merges locks with a later release into the account's own: then the merged lock counts from the
later release. The account has not unlocked before the term. While the owner does not aim at the
token contract, both amounts are computed without a revert. -/
theorem canUnlockAmount_of_others (ecrecover : Address → Signed → Address) (c c' : Chain) (tx : Tx)
    (v : Address) (hstep : (machine ecrecover).step c tx = .ok c') (hother : tx.sender ≠ v)
    (hearly : c.state.token.NotReleasedEarly v) :
    (¬ MergesLater v c tx → ∀ a b, c.state.token.canUnlockAmount tx.blockNumber v = .ok a →
      c'.state.token.canUnlockAmount tx.blockNumber v = .ok b → a ≤ b) ∧
    (MergesLater v c tx → ∀ b, c'.state.token.canUnlockAmount tx.blockNumber v = .ok b →
      b = (c.state.token.locks v + c.state.token.locks tx.sender) *
        (tx.blockNumber - c.state.token.lastUnlockBlock tx.sender) /
        (c.state.token.endReleaseBlock - c.state.token.lastUnlockBlock tx.sender)) ∧
    ((machine ecrecover).ReachableBy AimsElsewhere c → AimsElsewhere c tx →
      tx.blockNumber < 2 ^ 64 → ∃ a b, c.state.token.canUnlockAmount tx.blockNumber v = .ok a ∧
        c'.state.token.canUnlockAmount tx.blockNumber v = .ok b) := by
  refine ⟨fun hmerges a b hbefore hafter => ?_, fun hmerges b hafter => ?_,
    fun hreach haims hword => ?_⟩
  · exact canUnlockAmount_step hstep hother hearly hmerges hbefore hafter
  · exact canUnlockAmount_merged hstep hother hearly hmerges hafter
  · obtain ⟨hblock, hnow, -⟩ := mine_eq_ok hstep
    have hledger := lockLedger_inductive.invariant hreach
    have hledger' := lockLedger_inductive.invariant (hreach.step haims hstep)
    obtain ⟨a, hbefore, -⟩ := (hledger.mono hblock).canUnlockAmount hword v
    obtain ⟨b, hafter, -⟩ := (hledger'.mono hnow.le).canUnlockAmount hword v
    exact ⟨a, b, hbefore, hafter⟩

/-- The owner locks 100 more for an account that can unlock 50 in the middle of the term. -/
theorem canUnlockAmount_of_lock :
    ∃ c c' a b, (machine fun _ _ => 0).Reachable c ∧
      (machine fun _ _ => 0).step c ⟨50, 15, 0, .lock 1 100⟩ = .ok c' ∧
      c.state.token.canUnlockAmount 15 1 = .ok a ∧ c'.state.token.canUnlockAmount 15 1 = .ok b ∧
      a = 50 ∧ a ≤ b := by
  have hrun : (machine fun _ _ => 0).lastStep lockingChain
      [⟨50, 1, 0, .transfer 1 200⟩, ⟨50, 2, 0, .lock 1 100⟩] ⟨50, 15, 0, .lock 1 100⟩
      (fun c c' => c.state.token.startReleaseBlock ≤ c.state.token.lastUnlockBlock 1 ∧
        (c.state.token.canUnlockAmount 15 1).toOption = some 50 ∧
        (c'.state.token.canUnlockAmount 15 1).toOption = some 100) = true := by
    decide +kernel
  obtain ⟨c, c', hreach, hstep, htest⟩ :=
    TSys.lastStep_reachable (M := machine fun _ _ => 0) (lockingChain_init _) hrun
  obtain ⟨hlast, hbefore, hafter⟩ := of_decide_eq_true htest
  have hbefore := toOption_eq_some.mp hbefore
  have hafter := toOption_eq_some.mp hafter
  have hlock : ¬ MergesLater 1 c ⟨50, 15, 0, .lock 1 100⟩ := fun h => by cases h.1
  have hle := (canUnlockAmount_of_others _ c c' _ 1 hstep (by decide) (.inr hlast)).1 hlock 50 100
    hbefore hafter
  exact ⟨c, c', 50, 100, hreach, hstep, hbefore, hafter, rfl, hle⟩

/-- Account 2 can unlock 50 of its 100 in the middle of the term; account 1, which has just
unlocked, moves its locks to account 2, which can then unlock nothing. -/
theorem transferAll_setsBack :
    ∃ c c' a b, (machine fun _ _ => 0).Reachable c ∧
      (machine fun _ _ => 0).step c ⟨1, 15, 0, .transferAll 2⟩ = .ok c' ∧
      c.state.token.canUnlockAmount 15 2 = .ok a ∧ c'.state.token.canUnlockAmount 15 2 = .ok b ∧
      ¬ a ≤ b := by
  have hrun : (machine fun _ _ => 0).lastStep lockingChain
      [⟨50, 1, 0, .transfer 1 100⟩, ⟨50, 1, 0, .transfer 2 100⟩, ⟨50, 2, 0, .lock 1 100⟩,
       ⟨50, 2, 0, .lock 2 100⟩, ⟨1, 15, 0, .unlock⟩] ⟨1, 15, 0, .transferAll 2⟩
      (fun c c' => (c.state.token.canUnlockAmount 15 2).toOption = some 50 ∧
        (c'.state.token.canUnlockAmount 15 2).toOption = some 0) = true := by
    decide +kernel
  obtain ⟨c, c', hreach, hstep, htest⟩ :=
    TSys.lastStep_reachable (M := machine fun _ _ => 0) (lockingChain_init _) hrun
  obtain ⟨hbefore, hafter⟩ := of_decide_eq_true htest
  exact ⟨c, c', 50, 0, hreach, hstep, toOption_eq_some.mp hbefore, toOption_eq_some.mp hafter,
    by decide⟩

end Huski.Governance
