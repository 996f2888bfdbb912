import Huski.Token.Locks
import Huski.Token.Locker
import Huski.Lib.Vesting

/-!
# The vesting schedule

HUSKY and the locker release the same way: a part of the rest for the blocks since
`lastUnlockBlock`. `lock` and `transferAll` see to it that this block is not before the start
of the term; `unlock` and `claim` do not, and a release before the term, of nothing, leaves a
block from which the next release counts. Over a run the locks, releases and what was moved
away by `transferAll` are kept as histories.
-/

open Solidity

/-! ## HUSKY -/

namespace HuskyToken

variable {n amount : Nat} {a : Address} {t t' : HuskyToken}

/-- `T` is the term of the token. -/
def HasTerm (t : HuskyToken) (T : Vesting.Term) : Prop :=
  T.start = t.startReleaseBlock ∧ T.stop = t.endReleaseBlock

/-- `canUnlockAmount` is what vests of a rest. -/
theorem canUnlockAmount_eq_ok {T : Vesting.Term} (hT : t.HasTerm T) (b : Vesting.Books Address)
    (h : t.canUnlockAmount n a = .ok amount) :
    amount = T.vested n (b.account t.locks t.lastUnlockBlock a) := by
  unfold canUnlockAmount at h
  unfold Vesting.Term.vested
  rw [hT.1, hT.2]
  split at h
  · rename_i hbefore
    rw [if_pos hbefore]
    exact (Except.ok.inj h).symm
  · rename_i hstart
    rw [if_neg hstart]
    split at h
    · rename_i hstop
      rw [if_pos hstop]
      exact (Except.ok.inj h).symm
    · rename_i hstop
      simp only [bind_eq_ok, SafeMath.sub_eq_ok, SafeMath.mul_eq_ok, SafeMath.div_eq_ok] at h
      obtain ⟨_, ⟨_, rfl⟩, _, ⟨_, rfl⟩, _, ⟨_, rfl⟩, _, rfl⟩ := h
      rw [if_neg hstop]
      rfl

end HuskyToken

namespace Huski.Governance

open HuskyToken Vesting

/-- A state of a run with what was locked for each account up to it, released to it, and moved
away by it. -/
structure History where
  chain : Chain
  books : Books Address

section Runs

variable (ecrecover : Address → Signed → Address)

/-- A transaction, with its locks and releases counted. What `transferAll` moves away counts as
locked for the recipient. -/
def record (h : History) (tx : Tx) : Result History := do
  let chain ← mine ecrecover h.chain tx
  let t := h.chain.state.token
  match tx.op with
  | .lock account amount => return { chain, books := h.books.lock account amount }
  | .unlock => do
      let amount ← t.canUnlockAmount tx.blockNumber tx.sender
      return { chain, books := h.books.release tx.sender amount }
  | .transferAll recipient =>
      return { chain
               books := (h.books.give tx.sender (t.locks tx.sender)).lock recipient
                (t.locks tx.sender) }
  | _ => return { h with chain }

/-- The token's transactions, with the books of its locks. -/
def historyMachine : TSys History Tx where
  init h := (machine ecrecover).init h.chain ∧ h.books = {}
  step := record ecrecover

/-- An account that unlocks inside the term has not unlocked before it, or has been locked for
since then. -/
def UnlocksInTerm (h : History) (tx : Tx) : Prop :=
  let t := h.chain.state.token
  tx.op = .unlock → t.startReleaseBlock ≤ tx.blockNumber → tx.blockNumber < t.endReleaseBlock →
    t.startReleaseBlock ≤ t.lastUnlockBlock tx.sender

/-- What a transaction counts as released is what the ledger moves: an unlock pays its amount
out of the contract to the sender, and nothing else is counted. -/
def PaysReleases (h : History) (tx : Tx) (h' : History) : Prop :=
  let t := h.chain.state.token
  (tx.op = .unlock → ∃ amount, h'.books = h.books.release tx.sender amount ∧
    t.erc20._transfer t.here tx.sender amount = .ok h'.chain.state.token.erc20) ∧
  (tx.op ≠ .unlock → h'.books.released = h.books.released)

/-- The books of all accounts are kept. -/
def Vests (h : History) : Prop :=
  ∃ T, h.chain.state.token.HasTerm T ∧
    AllKept T h.chain.block h.books h.chain.state.token.locks h.chain.state.token.lastUnlockBlock

variable {ecrecover} {h h' : History} {tx : Tx}

theorem record_mine (hstep : record ecrecover h tx = .ok h') :
    mine ecrecover h.chain tx = .ok h'.chain := by
  simp only [record, bind_eq_ok] at hstep
  obtain ⟨chain, hmine, hstep⟩ := hstep
  split at hstep
  · cases hstep
    exact hmine
  · simp only [bind_eq_ok, pure_eq_ok] at hstep
    obtain ⟨_, _, rfl⟩ := hstep
    exact hmine
  · cases hstep
    exact hmine
  · cases hstep
    exact hmine

theorem record_pays (hstep : record ecrecover h tx = .ok h') : PaysReleases h tx h' := by
  obtain ⟨-, -, hexec⟩ := mine_eq_ok (record_mine hstep)
  obtain ⟨sender, n, timestamp, op⟩ := tx
  simp only [record, bind_eq_ok] at hstep
  obtain ⟨chain, _, hstep⟩ := hstep
  refine ⟨fun hop => ?_, fun hop => ?_⟩
  · subst hop
    simp only [bind_eq_ok, pure_eq_ok] at hstep
    obtain ⟨amount, hamount, rfl⟩ := hstep
    obtain ⟨amount', hunlocks⟩ := unlock_unlocks (onToken_eq_ok hexec)
    have hsame : amount = amount' := Except.ok.inj (hamount.symm.trans hunlocks.unlockable)
    subst hsame
    exact ⟨amount, rfl, hunlocks.moves⟩
  · cases op with
    | unlock => exact absurd rfl hop
    | _ => cases hstep; rfl

/-- What an unlock recorded. -/
theorem record_unlock {sender : Address} {n timestamp : Nat} {T : Term}
    (hT : h.chain.state.token.HasTerm T)
    (hstep : record ecrecover h ⟨sender, n, timestamp, .unlock⟩ = .ok h') :
    h'.books = h.books.release sender (T.vested n
      (h.books.account h.chain.state.token.locks h.chain.state.token.lastUnlockBlock sender)) := by
  simp only [record, bind_eq_ok, pure_eq_ok] at hstep
  obtain ⟨chain, _, amount, hamount, rfl⟩ := hstep
  rw [← canUnlockAmount_eq_ok hT h.books hamount]

/-- One transaction in term keeps the books within the vesting. -/
theorem Vests.step (hh : Vests h) (hok : UnlocksInTerm h tx)
    (hstep : record ecrecover h tx = .ok h') : Vests h' := by
  obtain ⟨T, hT, hkept⟩ := hh
  obtain ⟨hblock, hnow, hexec⟩ := mine_eq_ok (record_mine hstep)
  have hkept := hkept.mono hblock
  cases hchanges : tx.op.changesLocks with
  | false =>
      have hsame := exec_sameLocks hchanges hexec
      have hbooks : h'.books = h.books := by
        obtain ⟨sender, n, timestamp, op⟩ := tx
        simp only [record, bind_eq_ok] at hstep
        obtain ⟨chain, _, hstep⟩ := hstep
        cases op with
        -- the history notes the three functions that change locks
        | lock | unlock | transferAll => cases hchanges
        | _ => cases hstep; rfl
      refine ⟨T, ⟨?_, ?_⟩, ?_⟩
      · rw [hsame.startReleaseBlock]
        exact hT.1
      · rw [hsame.endReleaseBlock]
        exact hT.2
      · rw [hnow, hbooks, hsame.locks, hsame.lastUnlockBlock]
        exact hkept
  | true =>
      obtain ⟨sender, n, timestamp, op⟩ := tx
      cases op with
      | lock account amount =>
          have hlocks := lock_locks (onToken_eq_ok hexec)
          simp only [record, bind_eq_ok, pure_eq_ok] at hstep
          obtain ⟨chain, _, rfl⟩ := hstep
          refine ⟨T, ⟨?_, ?_⟩, ?_⟩
          · rw [hlocks.startReleaseBlock]
            exact hT.1
          · rw [hlocks.endReleaseBlock]
            exact hT.2
          · rw [hnow, hlocks.locks, hlocks.lastUnlockBlock, ← hT.1]
            exact hkept.lock
      | unlock =>
          obtain ⟨amount, hunlocks⟩ := unlock_unlocks (onToken_eq_ok hexec)
          have hamount := canUnlockAmount_eq_ok hT h.books hunlocks.unlockable
          have hbooks := record_unlock hT hstep
          refine ⟨T, ⟨?_, ?_⟩, ?_⟩
          · rw [hunlocks.startReleaseBlock]
            exact hT.1
          · rw [hunlocks.endReleaseBlock]
            exact hT.2
          -- a release of what was unlockable, inside the term
          · rw [hnow, hbooks, hunlocks.locks, hunlocks.lastUnlockBlock, hamount]
            refine hkept.release fun hstart hstop => ?_
            rw [hT.1] at hstart ⊢
            rw [hT.2] at hstop
            exact hok rfl hstart hstop
      | transferAll recipient =>
          have hmerges := transferAll_merges (onToken_eq_ok hexec)
          simp only [record, bind_eq_ok, pure_eq_ok] at hstep
          obtain ⟨chain, _, rfl⟩ := hstep
          refine ⟨T, ⟨?_, ?_⟩, ?_⟩
          · rw [hmerges.startReleaseBlock]
            exact hT.1
          · rw [hmerges.endReleaseBlock]
            exact hT.2
          · rw [hnow, hmerges.locks, hmerges.lastUnlockBlock, ← hT.1]
            exact hkept.move hmerges.sender_ne
      | _ => cases hchanges

/-- The constructor leaves a term, and nothing locked. -/
theorem vests_init (hinit : (historyMachine ecrecover).init h) : Vests h := by
  obtain ⟨⟨_, here, deployer, first, last, token, hcreate, hstate⟩, hbooks⟩ := hinit
  simp only [create, bind_eq_ok, require_eq_ok] at hcreate
  obtain ⟨_, hproper, hmint⟩ := hcreate
  have hsame := manualMint_sameLocks hmint
  refine ⟨⟨first, last, hproper⟩, ⟨?_, ?_⟩, fun a => ?_⟩
  · rw [hstate]
    exact hsame.startReleaseBlock.symm
  · rw [hstate]
    exact hsame.endReleaseBlock.symm
  · rw [hstate, hbooks, hsame.locks, hsame.lastUnlockBlock]
    exact Kept.empty _ _

/-- The books are within the vesting in every state of a run in term. -/
theorem vests_inductive : (historyMachine ecrecover).Inductive UnlocksInTerm Vests where
  init _ hinit := vests_init hinit
  step _ _ _ hh hok hstep := hh.step hok hstep

end Runs

end Huski.Governance

/-! ## The locker -/

namespace Huski.Locker

open Vesting

variable {n amount : Nat} {user : Address}

/-- The blocks between which the locker releases. -/
def HasTerm (t : LinearRelease) (T : Term) : Prop :=
  T.start = t.startReleaseBlock ∧ T.stop = t.endReleaseBlock

theorem pendingTokens_eq_ok {t : LinearRelease} {T : Term} (hT : HasTerm t T) (b : Books Address)
    (h : t.pendingTokens n user = .ok amount) :
    amount = T.vested n (b.account t.locks t.lastUnlockBlock user) := by
  unfold LinearRelease.pendingTokens at h
  unfold Term.vested
  rw [hT.1, hT.2]
  split at h
  · rename_i hbefore
    rw [if_pos hbefore]
    exact (Except.ok.inj h).symm
  · rename_i hstart
    rw [if_neg hstart]
    split at h
    · rename_i hstop
      rw [if_pos hstop]
      exact (Except.ok.inj h).symm
    · rename_i hstop
      simp only [bind_eq_ok, SafeMath.sub_eq_ok, SafeMath.mul_eq_ok, SafeMath.div_eq_ok] at h
      obtain ⟨_, ⟨_, rfl⟩, _, ⟨_, rfl⟩, _, ⟨_, rfl⟩, _, rfl⟩ := h
      rw [if_neg hstop]
      rfl

/-- A state of a run with what was locked for each account up to it and claimed by it. -/
structure History where
  chain : Chain
  books : Books Address

/-- A transaction, and what it locks or releases. -/
def record (h : History) (tx : Tx) : Result History := do
  let chain ← mine h.chain tx
  match tx.op with
  | .lock user amount => return { chain, books := h.books.lock user amount }
  | .claim => do
      let amount ← h.chain.state.release.pendingTokens tx.blockNumber tx.sender
      return { chain, books := h.books.release tx.sender amount }
  | _ => return { h with chain }

/-- The locker's transactions, with the books of its locks. -/
def historyMachine : TSys History Tx where
  init h := machine.init h.chain ∧ h.books = {}
  step := record

/-- An account that claims inside the term has not claimed before it, or has been locked for
since then. -/
def ClaimsInTerm (h : History) (tx : Tx) : Prop :=
  let t := h.chain.state.release
  tx.op = .claim → t.startReleaseBlock ≤ tx.blockNumber → tx.blockNumber < t.endReleaseBlock →
    t.startReleaseBlock ≤ t.lastUnlockBlock tx.sender

/-- What a transaction counts as claimed is what the ledger moves: a claim pays its amount out
of the locker to the sender, and nothing else is counted. -/
def PaysClaims (h : History) (tx : Tx) (h' : History) : Prop :=
  let s := h.chain.state
  (tx.op = .claim → ∃ amount, h'.books = h.books.release tx.sender amount ∧
    s.token._transfer s.here tx.sender amount = .ok h'.chain.state.token) ∧
  (tx.op ≠ .claim → h'.books.released = h.books.released)

/-- The books of all accounts are kept, and nobody gives locks away. -/
def Vests (h : History) : Prop :=
  (∀ a, h.books.given a = 0) ∧ ∃ T, HasTerm h.chain.state.release T ∧
    AllKept T h.chain.block h.books h.chain.state.release.locks
      h.chain.state.release.lastUnlockBlock

variable {h h' : History} {tx : Tx}

theorem record_mine (hstep : record h tx = .ok h') : mine h.chain tx = .ok h'.chain := by
  simp only [record, bind_eq_ok] at hstep
  obtain ⟨chain, hmine, hstep⟩ := hstep
  split at hstep
  · cases hstep
    exact hmine
  · simp only [bind_eq_ok, pure_eq_ok] at hstep
    obtain ⟨_, _, rfl⟩ := hstep
    exact hmine
  · cases hstep
    exact hmine

theorem record_pays (hstep : record h tx = .ok h') : PaysClaims h tx h' := by
  obtain ⟨-, -, hexec⟩ := mine_eq_ok (record_mine hstep)
  obtain ⟨sender, n, op⟩ := tx
  simp only [record, bind_eq_ok] at hstep
  obtain ⟨chain, _, hstep⟩ := hstep
  refine ⟨fun hop => ?_, fun hop => ?_⟩
  · subst hop
    simp only [bind_eq_ok, pure_eq_ok] at hstep
    obtain ⟨amount, hamount, rfl⟩ := hstep
    obtain ⟨amount', hpending, hmoves, -⟩ := claim_eq_ok hexec
    have hsame : amount = amount' := Except.ok.inj (hamount.symm.trans hpending)
    subst hsame
    exact ⟨amount, rfl, hmoves⟩
  · cases op with
    | claim => exact absurd rfl hop
    | _ => cases hstep; rfl

theorem record_claim {sender : Address} {T : Term} (hT : HasTerm h.chain.state.release T)
    (hstep : record h ⟨sender, n, .claim⟩ = .ok h') :
    h'.books = h.books.release sender (T.vested n (h.books.account h.chain.state.release.locks
      h.chain.state.release.lastUnlockBlock sender)) := by
  simp only [record, bind_eq_ok, pure_eq_ok] at hstep
  obtain ⟨chain, _, amount, hamount, rfl⟩ := hstep
  rw [← pendingTokens_eq_ok hT h.books hamount]

/-- One transaction in term keeps the books within the vesting. -/
theorem Vests.step (hh : Vests h) (hok : ClaimsInTerm h tx) (hstep : record h tx = .ok h') :
    Vests h' := by
  obtain ⟨hgiven, T, hT, hkept⟩ := hh
  obtain ⟨hblock, hnow, hexec⟩ := mine_eq_ok (record_mine hstep)
  have hkept := hkept.mono hblock
  -- a call of the token itself touches neither the release nor the history
  have hother : h'.chain.state.release = h.chain.state.release → h'.books = h.books →
      Vests h' := by
    intro hsame hbooks
    refine ⟨?_, T, ?_, ?_⟩
    · rw [hbooks]
      exact hgiven
    · rw [hsame]
      exact hT
    · rw [hnow, hbooks, hsame]
      exact hkept
  obtain ⟨sender, n, op⟩ := tx
  cases op with
  | lock user amount =>
      have hlocks := lock_eq_ok hexec
      simp only [record, bind_eq_ok, pure_eq_ok] at hstep
      obtain ⟨chain, _, rfl⟩ := hstep
      refine ⟨hgiven, T, ⟨?_, ?_⟩, ?_⟩
      · rw [hlocks]
        exact hT.1
      · rw [hlocks]
        exact hT.2
      · rw [hnow, hlocks, ← hT.1]
        exact hkept.lock
  | claim =>
      obtain ⟨amount, hpending, -, hrelease⟩ := claim_eq_ok hexec
      -- the claim releases what the schedule says is pending
      have hamount := pendingTokens_eq_ok hT h.books hpending
      have hbooks := record_claim hT hstep
      refine ⟨?_, T, ⟨?_, ?_⟩, ?_⟩
      · rw [hbooks]
        exact hgiven
      · rw [hrelease]
        exact hT.1
      · rw [hrelease]
        exact hT.2
      · rw [hnow, hbooks, hrelease, hamount]
        refine hkept.release fun hstart hstop => ?_
        rw [hT.1] at hstart ⊢
        rw [hT.2] at hstop
        exact hok rfl hstart hstop
  | tokenTransfer | tokenTransferFrom | tokenApprove =>
      simp only [record, bind_eq_ok, pure_eq_ok] at hstep
      simp only [exec] at hexec
      obtain ⟨chain, _, rfl⟩ := hstep
      exact hother (onToken_eq_ok hexec) rfl

theorem vests_init (hinit : historyMachine.init h) : Vests h := by
  obtain ⟨⟨here, token, bps, fairLaunch, first, last, release, ledger, hcreate, hstate⟩, hbooks⟩ :=
    hinit
  simp only [LinearRelease.create, bind_eq_ok, require_eq_ok, pure_eq_ok] at hcreate
  obtain ⟨_, hproper, rfl⟩ := hcreate
  refine ⟨fun a => ?_, ⟨first, last, hproper⟩, ⟨?_, ?_⟩, fun a => ?_⟩
  · rw [hbooks]
  · rw [hstate]
  · rw [hstate]
  · rw [hstate, hbooks]
    exact Kept.empty _ _

/-- The books are within the vesting in every state of a run in term. -/
theorem vests_inductive : historyMachine.Inductive ClaimsInTerm Vests where
  init _ hinit := vests_init hinit
  step _ _ _ hh hok hstep := hh.step hok hstep

end Huski.Locker

/-! ## Releases over every run -/

namespace Huski.Governance

open HuskyToken Vesting

/-- In every run of HUSKY, and in every run of the locker, in which no account unlocks inside
the term from a block before it: what was released to an account, which is what the ledger has
moved to it for its unlocks, is at most the vested part of what was locked for it, and after a
release past the term all of it was released, or moved away by `transferAll`. -/
theorem released_le_vested (ecrecover : Address → Signed → Address) :
    (∀ h, (historyMachine ecrecover).ReachableBy UnlocksInTerm h →
      (∀ a, h.books.released a *
          (h.chain.state.token.endReleaseBlock - h.chain.state.token.startReleaseBlock) ≤
        h.books.locked a * (min h.chain.block h.chain.state.token.endReleaseBlock -
          h.chain.state.token.startReleaseBlock)) ∧
      ∀ tx h', (historyMachine ecrecover).step h tx = .ok h' → PaysReleases h tx h' ∧
        (tx.op = .unlock → h.chain.state.token.endReleaseBlock ≤ tx.blockNumber →
          h'.books.released tx.sender + h'.books.given tx.sender = h'.books.locked tx.sender)) ∧
    ∀ h, Locker.historyMachine.ReachableBy Locker.ClaimsInTerm h →
      (∀ a, h.books.released a *
          (h.chain.state.release.endReleaseBlock - h.chain.state.release.startReleaseBlock) ≤
        h.books.locked a * (min h.chain.block h.chain.state.release.endReleaseBlock -
          h.chain.state.release.startReleaseBlock)) ∧
      ∀ tx h', Locker.historyMachine.step h tx = .ok h' → Locker.PaysClaims h tx h' ∧
        (tx.op = .claim → h.chain.state.release.endReleaseBlock ≤ tx.blockNumber →
          h'.books.released tx.sender = h'.books.locked tx.sender) := by
  refine ⟨fun h hreach => ?_, fun h hreach => ?_⟩
  · have hvests : Vests h := vests_inductive.invariant hreach
    obtain ⟨T, hT, hkept⟩ := hvests
    refine ⟨fun a => ?_, fun tx h' hstep => ⟨record_pays hstep, fun hop hstop => ?_⟩⟩
    · rw [← hT.1, ← hT.2]
      exact hkept.released_le a
    · obtain ⟨sender, n, timestamp, op⟩ := tx
      obtain ⟨hblock, -, -⟩ := mine_eq_ok (record_mine hstep)
      subst hop
      rw [record_unlock hT hstep]
      rw [← hT.2] at hstop
      exact (hkept.mono hblock).all_released hstop
  · obtain ⟨hgiven, T, hT, hkept⟩ := Locker.vests_inductive.invariant hreach
    refine ⟨fun a => ?_, fun tx h' hstep => ⟨Locker.record_pays hstep, fun hop hstop => ?_⟩⟩
    · rw [← hT.1, ← hT.2]
      exact hkept.released_le a
    · obtain ⟨sender, n, op⟩ := tx
      obtain ⟨hblock, -, -⟩ := Locker.mine_eq_ok (Locker.record_mine hstep)
      subst hop
      rw [Locker.record_claim hT hstep]
      rw [← hT.2] at hstop
      -- nothing is moved between holders here, so what was given is zero
      have hall := (hkept.mono hblock).all_released (k := sender) hstop
      rw [hgiven, Nat.add_zero] at hall
      exact hall

/-- A locker at address 102 that FairLaunch at address 103 fills, over the blocks from 10 to
20; FairLaunch holds 100 of the token and has approved the locker. -/
def lockerChain : Locker.Chain where
  block := 1
  state := {
    here := 102
    release := { fairLaunch := 103, token := 101, lockupBps := 7000, startReleaseBlock := 10,
                 endReleaseBlock := 20 }
    token := {
      balanceOf := Function.update (fun _ => 0) 103 100
      allowance := Function.update (fun _ => fun _ => 0) 103 (Function.update (fun _ => 0) 102 100)
      totalSupply := 100 } }

theorem lockerChain_init : Locker.machine.init lockerChain :=
  ⟨102, 101, 7000, 103, 10, 20, _, _, rfl, rfl⟩

deriving instance DecidableEq for Signed, Op

instance (h : History) (tx : Tx) : Decidable (UnlocksInTerm h tx) := by
  unfold UnlocksInTerm
  exact inferInstance

instance (h : Locker.History) (tx : Locker.Tx) : Decidable (Locker.ClaimsInTerm h tx) := by
  unfold Locker.ClaimsInTerm
  exact inferInstance

/-- Of 100 that are locked before the term, 40 are released in its fourth block, by HUSKY and by
the locker. -/
theorem released_of_oneUnlock :
    (∃ h, (historyMachine fun _ _ => 0).Reachable h ∧ h.chain.block = 14 ∧
      h.books.released 1 = 40 ∧ h.books.released 1 * (20 - 10) ≤ 100 * (14 - 10)) ∧
    ∃ h, Locker.historyMachine.Reachable h ∧ h.chain.block = 14 ∧
      h.books.released 1 = 40 ∧ h.books.released 1 * (20 - 10) ≤ 100 * (14 - 10) := by
  constructor
  -- HUSKY's own locks
  · have hrun : ((historyMachine fun _ _ => 0).guarded fun h tx => UnlocksInTerm h tx).lastStep
        { chain := lockingChain, books := {} }
        [⟨50, 1, 0, .transfer 1 100⟩, ⟨50, 2, 0, .lock 1 100⟩] ⟨1, 14, 0, .unlock⟩
        (fun _ h => h.chain.block = 14 ∧ h.books.released 1 = 40 ∧ h.books.locked 1 = 100 ∧
          h.chain.state.token.startReleaseBlock = 10 ∧
          h.chain.state.token.endReleaseBlock = 20) = true := by
      decide +kernel
    obtain ⟨h₁, h, hreach, hstep, htest⟩ :=
      TSys.lastStep_reachable (M := (historyMachine fun _ _ => 0).guarded _)
        ⟨lockingChain_init _, rfl⟩ hrun
    obtain ⟨hblock, hreleased, hlocked, hstart, hstop⟩ := of_decide_eq_true htest
    have hreach : (historyMachine fun _ _ => 0).ReachableBy UnlocksInTerm h :=
      TSys.reachableBy_of_guarded (fun _ _ hcheck => of_decide_eq_true hcheck)
        (.step hreach trivial hstep)
    have hbound := ((released_le_vested fun _ _ => 0).1 h hreach).1 1
    rw [hlocked, hblock, hstart, hstop] at hbound
    exact ⟨h, hreach.reachable, hblock, hreleased, hbound⟩
  -- the locker's
  · have hrun : (Locker.historyMachine.guarded fun h tx => Locker.ClaimsInTerm h tx).lastStep
        { chain := lockerChain, books := {} } [⟨103, 2, .lock 1 100⟩] ⟨1, 14, .claim⟩
        (fun _ h => h.chain.block = 14 ∧ h.books.released 1 = 40 ∧ h.books.locked 1 = 100 ∧
          h.chain.state.release.startReleaseBlock = 10 ∧
          h.chain.state.release.endReleaseBlock = 20) = true := by
      decide +kernel
    obtain ⟨h₁, h, hreach, hstep, htest⟩ :=
      TSys.lastStep_reachable (M := Locker.historyMachine.guarded _) ⟨lockerChain_init, rfl⟩ hrun
    obtain ⟨hblock, hreleased, hlocked, hstart, hstop⟩ := of_decide_eq_true htest
    have hreach : Locker.historyMachine.ReachableBy Locker.ClaimsInTerm h :=
      TSys.reachableBy_of_guarded (fun _ _ hcheck => of_decide_eq_true hcheck)
        (.step hreach trivial hstep)
    have hbound := ((released_le_vested fun _ _ => 0).2 h hreach).1 1
    rw [hlocked, hblock, hstart, hstop] at hbound
    exact ⟨h, hreach.reachable, hblock, hreleased, hbound⟩

/-- An unlock in block 5, of nothing, before the term of 10 to 20: in block 10, with no block of
the term over, the next unlock releases 33 of 100. The locker does the same. -/
theorem earlyUnlock_releases :
    (∃ h, (historyMachine fun _ _ => 0).Reachable h ∧
      ¬ h.books.released 1 *
          (h.chain.state.token.endReleaseBlock - h.chain.state.token.startReleaseBlock) ≤
        h.books.locked 1 * (min h.chain.block h.chain.state.token.endReleaseBlock -
          h.chain.state.token.startReleaseBlock)) ∧
    ∃ h, Locker.historyMachine.Reachable h ∧
      ¬ h.books.released 1 *
          (h.chain.state.release.endReleaseBlock - h.chain.state.release.startReleaseBlock) ≤
        h.books.locked 1 * (min h.chain.block h.chain.state.release.endReleaseBlock -
          h.chain.state.release.startReleaseBlock) := by
  constructor
  -- an unlock before the term moves the last unlock back, and the next one pays for it again
  · have hrun : (historyMachine fun _ _ => 0).lastStep { chain := lockingChain, books := {} }
        [⟨50, 1, 0, .transfer 1 100⟩, ⟨50, 2, 0, .lock 1 100⟩, ⟨1, 5, 0, .unlock⟩]
        ⟨1, 10, 0, .unlock⟩
        (fun _ h => ¬ h.books.released 1 *
            (h.chain.state.token.endReleaseBlock - h.chain.state.token.startReleaseBlock) ≤
          h.books.locked 1 * (min h.chain.block h.chain.state.token.endReleaseBlock -
            h.chain.state.token.startReleaseBlock)) = true := by
      decide +kernel
    obtain ⟨h₁, h, hreach, hstep, htest⟩ :=
      TSys.lastStep_reachable (M := historyMachine fun _ _ => 0) ⟨lockingChain_init _, rfl⟩ hrun
    exact ⟨h, .step hreach trivial hstep, of_decide_eq_true htest⟩
  · have hrun : Locker.historyMachine.lastStep { chain := lockerChain, books := {} }
        [⟨103, 2, .lock 1 100⟩, ⟨1, 5, .claim⟩] ⟨1, 10, .claim⟩
        (fun _ h => ¬ h.books.released 1 *
            (h.chain.state.release.endReleaseBlock - h.chain.state.release.startReleaseBlock) ≤
          h.books.locked 1 * (min h.chain.block h.chain.state.release.endReleaseBlock -
            h.chain.state.release.startReleaseBlock)) = true := by
      decide +kernel
    obtain ⟨h₁, h, hreach, hstep, htest⟩ :=
      TSys.lastStep_reachable (M := Locker.historyMachine) ⟨lockerChain_init, rfl⟩ hrun
    exact ⟨h, .step hreach trivial hstep, of_decide_eq_true htest⟩

end Huski.Governance
