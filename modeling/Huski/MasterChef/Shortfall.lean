import Huski.Lib.RewardBook
import Huski.MasterChef.Custody

/-!
# The rewards in SYRUP

The farm mints the rewards to the SYRUP contract and pays them from there. It is a book of rewards
(`RewardBook`): an update accrues what it minted, a settlement settles, an emergency clears an entry
and everything else leaves the entries or adds to the fund. So what all accounts could be paid
exceeds the CAKE of SYRUP by less than one for each change of a stake, and no payment falls short by
more.
-/

open scoped BigOperators

namespace Huski.MasterChef

open Solidity State Ledgers

variable {n pid amount : Nat} {sender : Address} {tx : Tx} {s s' : State}

/-- The farm as a book of rewards. -/
def book (s : State) : RewardBook Nat Address where
  pools := Finset.range s.poolLength
  acc pid := (s.poolInfo pid).accCakePerShare
  amount pid user := (s.userInfo pid user).amount
  debt pid user := (s.userInfo pid user).rewardDebt
  fund := s.cakeBal

/-- The same entries over more CAKE. -/
theorem book_gain (hlength : s'.poolLength = s.poolLength)
    (hacc : ∀ p, (s'.poolInfo p).accCakePerShare = (s.poolInfo p).accCakePerShare)
    (huser : s'.userInfo = s.userInfo) (hfund : s.cakeBal ≤ s'.cakeBal) :
    RewardBook.Step precision 0 (book s) (book s') := by
  have hbook : book s' = (book s).gain (s'.cakeBal - s.cakeBal) := by
    unfold book RewardBook.gain
    simp only [hlength, hacc, huser, Nat.add_sub_cancel' hfund]
  rw [hbook]
  exact .gain _

theorem Updated.book (hs : Custody s) (hpid : pid < s.poolLength) (h : Updated n pid s s') :
    RewardBook.Step precision 0 (book s) (book s') := by
  cases h with
  | current => exact book_gain rfl (fun _ => rfl) rfl le_rfl
  | empty =>
      refine book_gain rfl ?_ rfl le_rfl
      intro p
      by_cases hp : p = pid
      · subst hp
        simp [State.setPoolInfo]
      · simp [State.setPoolInfo, hp]
  | @accrued reward tokens _ _ moved _ =>
      -- what the fund gets, the part of `devaddr` too where that is SYRUP itself
      have hfund : (s.accrued n pid reward tokens).cakeBal =
          s.cakeBal + (single s.cake s.devaddr (reward / 10) s.cake s.syrup + reward) := by
        have hmoved := moved s.cake s.syrup
        change _ + 0 = _ + (_ + single s.cake s.syrup reward s.cake s.syrup) at hmoved
        rw [single_self] at hmoved
        exact hmoved
      have hbook : book (s.accrued n pid reward tokens) = (book s).accrue pid
          (reward * precision / s.lpSupply (s.poolInfo pid))
          (single s.cake s.devaddr (reward / 10) s.cake s.syrup + reward) := by
        have hacc : (fun p => ((s.accrued n pid reward tokens).poolInfo p).accCakePerShare) =
            Function.update (fun p => (s.poolInfo p).accCakePerShare) pid
              ((s.poolInfo pid).accCakePerShare +
                reward * precision / s.lpSupply (s.poolInfo pid)) := by
          funext p
          by_cases hp : p = pid
          · subst hp
            simp [State.accrued, State.setPoolInfo]
          · simp [State.accrued, State.setPoolInfo, hp]
        unfold book RewardBook.accrue
        simp only [hacc, hfund]
        rfl
      rw [hbook]
      refine .accrue pid _ _ (Finset.mem_range.mpr hpid) ?_
      have hstake : s.stake pid ≤ s.lpSupply (s.poolInfo pid) :=
        (stake_le_staked hpid).trans (hs.held _)
      refine (RewardShare.shares_le hstake).trans ?_
      exact Nat.mul_le_mul_right _ (Nat.le_add_left _ _)

namespace Changes

variable {info : UserInfo} {out into : Flow} (h : Changes sender pid info out into s s')

include h

theorem book_amount : (fun p user => (s'.userInfo p user).amount) =
    Function.update (fun p user => (s.userInfo p user).amount) pid
      (Function.update (fun user => (s.userInfo pid user).amount) sender info.amount) := by
  rw [h.userInfo]
  funext p user
  by_cases hp : p = pid
  · subst hp
    by_cases huser : user = sender
    · simp [huser]
    · simp [huser]
  · simp [hp]

theorem book_debt : (fun p user => (s'.userInfo p user).rewardDebt) =
    Function.update (fun p user => (s.userInfo p user).rewardDebt) pid
      (Function.update (fun user => (s.userInfo pid user).rewardDebt) sender info.rewardDebt) := by
  rw [h.userInfo]
  funext p user
  by_cases hp : p = pid
  · subst hp
    by_cases huser : user = sender
    · simp [huser]
    · simp [huser]
  · simp [hp]

theorem cakeBal : s'.cakeBal + out s.cake s.syrup = s.cakeBal + into s.cake s.syrup := by
  unfold State.cakeBal
  rw [h.cake, h.syrup]
  exact h.moved s.cake s.syrup

end Changes

theorem paid_le_pending (pid : Nat) (user : Address) : s.paid pid user ≤ s.pending pid user :=
  min_le_left _ _

theorem paid_le_cakeBal (pid : Nat) (user : Address) : s.paid pid user ≤ s.cakeBal :=
  min_le_right _ _

/-- A settlement takes what it pays from the fund, and nothing else. -/
theorem cakeBal_settles (hs : Custody s) (hsender : sender ≠ s.syrup)
    (h : Settles sender pid amount s s') : s'.cakeBal + s.paid pid sender = s.cakeBal := by
  have hreceipt : ∀ v, s.receipt pid sender v s.cake s.syrup = 0 := by
    intro v
    unfold State.receipt
    split
    · exact single_of_account_ne hsender.symm
    · rfl
  have hcake := Changes.cakeBal h
  change s'.cakeBal + (single s.cake s.syrup _ s.cake s.syrup + single _ sender _ s.cake s.syrup +
    single _ s.here _ s.cake s.syrup + s.receipt pid sender _ s.cake s.syrup) = s.cakeBal +
    (single s.cake sender _ s.cake s.syrup + single _ sender _ s.cake s.syrup +
    single _ s.here _ s.cake s.syrup + s.receipt pid sender _ s.cake s.syrup) at hcake
  have hapart := hs.placed.apart.symm
  rw [single_self, single_of_account_ne hsender.symm, single_of_account_ne hapart,
    single_of_account_ne hsender.symm, single_of_account_ne hsender.symm,
    single_of_account_ne hapart, hreceipt, hreceipt] at hcake
  omega

/-- A settlement rounds two products down. -/
theorem settles_book (hs : Custody s) (hsender : sender ≠ s.syrup) (hpid : pid < s.poolLength)
    (h : Settles sender pid amount s s') :
    RewardBook.Step precision (RewardBook.dust (s.userInfo pid sender).amount amount)
      (book s) (book s') := by
  have hcake := cakeBal_settles hs hsender h
  have hbook : book s' = (book s).settle precision pid sender amount (s.paid pid sender) := by
    have hamount := Changes.book_amount h
    have hdebt := Changes.book_debt h
    unfold book
    rw [h.poolLength, h.poolInfo, hamount, hdebt]
    unfold RewardBook.settle RewardBook.setEntry State.settledInfo
    simp only
    congr 1
    omega
  rw [hbook]
  refine .settle (b := book s) pid sender amount _ (Finset.mem_range.mpr hpid) ?_ ?_
  · exact paid_le_pending pid sender
  · exact paid_le_cakeBal pid sender

/-- Who leaves its reward takes nothing from the fund. -/
theorem book_left (hs : Custody s) (hsender : sender ≠ s.syrup) (hpid : pid < s.poolLength)
    (h : Changes sender pid { amount := 0, rewardDebt := 0 }
      (single (s.poolInfo pid).lpToken s.here (s.userInfo pid sender).amount)
      (single (s.poolInfo pid).lpToken sender (s.userInfo pid sender).amount) s s') :
    RewardBook.Step precision 0 (book s) (book s') := by
  have hcake := h.cakeBal
  rw [single_of_account_ne hs.placed.apart.symm, single_of_account_ne hsender.symm] at hcake
  have hbook : book s' = (book s).setEntry pid sender 0 0 := by
    unfold book
    rw [h.poolLength, h.poolInfo, h.book_amount, h.book_debt]
    unfold RewardBook.setEntry
    simp only
    congr 1
  rw [hbook]
  exact .clear pid sender (Finset.mem_range.mpr hpid)

theorem book_added {allocPoint : Nat} {lpToken : Address} :
    RewardBook.Step precision 0 (book s) (book (s.added n allocPoint lpToken)) := by
  have hbook : book (s.added n allocPoint lpToken) = (book s).addPool s.poolLength := by
    have hacc : (fun p => ((s.added n allocPoint lpToken).poolInfo p).accCakePerShare) =
        Function.update (fun p => (s.poolInfo p).accCakePerShare) s.poolLength 0 := by
      funext p
      by_cases hp : p = s.poolLength
      · subst hp
        simp [State.added, State.setPoolInfo]
      · simp [State.added, State.setPoolInfo, hp]
    unfold book RewardBook.addPool
    rw [hacc]
    show RewardBook.mk (Finset.range (s.poolLength + 1)) _ _ _ _ = _
    rw [Finset.range_add_one]
    rfl
  rw [hbook]
  exact .addPool _ (by simp [book])

/-- An effect outside of the positions rounds nothing. -/
theorem Effect.book (hs : Custody s) (hsyrup : tx.sender ≠ s.syrup) (hop : tx.op.pool = none)
    (h : Effect tx s s') : RewardBook.Step precision 0 (book s) (book s') := by
  cases h with
  | updated pid hpid h => exact h.book hs hpid
  | appointed => exact book_gain rfl (fun _ => rfl) rfl le_rfl
  | added => exact book_added
  | weighed hweighs pid allocPoint hpid hle =>
      refine book_gain rfl ?_ rfl le_rfl
      intro p
      by_cases hp : p = pid
      · subst hp
        simp [State.weighed, State.setPoolInfo]
      · simp [State.weighed, State.setPoolInfo, hp]
  -- an operation of a pool settles it, which `hop` excludes here
  | settled pid amount hpool =>
      rw [hop] at hpool
      cases hpool
  | left pid _ hpid h => exact book_left hs hsyrup hpid h
  | called token t h =>
      refine book_gain rfl (fun _ => rfl) rfl ?_
      -- only CAKE itself could lower the pot, and a call of it by an outsider does not
      show _ ≤ (Function.update s.tokens token t s.cake).balanceOf s.syrup
      by_cases htoken : s.cake = token
      · subst htoken
        rw [Function.update_self]
        exact (h s.syrup (.inr rfl) (hs.kept.2 s.cake)).2
      · rw [Function.update_of_ne htoken]
        exact le_rfl

theorem Effects.book (hs : Custody s) (hhere : tx.sender ≠ s.here) (hsyrup : tx.sender ≠ s.syrup)
    (hop : tx.op.pool = none) (h : Effects tx s s') :
    RewardBook.Steps precision 0 (book s) (book s') := by
  induction h with
  | refl => exact .refl
  | tail hrest heffect ih =>
      obtain ⟨hcustody, _, hsame⟩ := Effects.custody hs hhere hrest
      exact ih.tail (heffect.book hcustody (hsame ▸ hsyrup) hop)

/-! ## Every run -/

/-- The changes of stakes that a transaction makes, at most. -/
def Tx.count (tx : Tx) : Nat := if tx.op.changes then 1 else 0

/-- One transaction is steps of the book, with at most its count. -/
theorem step_book (hs : Custody s) (hwell : MigratesWell s tx) (h : machine.step s tx = .ok s') :
    ∃ k ≤ tx.count, RewardBook.Steps precision k (book s) (book s') := by
  obtain ⟨hhere, hsyrup, hexec⟩ := step_eq_ok h
  cases hop : tx.op.pool with
  | some pid =>
    obtain ⟨s₁, hupdate, _, _, hsettles⟩ := exec_settles hop hexec
    obtain ⟨hpid, hupdated⟩ := updatePool_eq_ok hupdate
    -- two steps of the book: the update credits, the settlement pays
    have hsteps := (RewardBook.Steps.single (hupdated.book hs hpid)).tail
      (settles_book (hs.updated hupdated) (hupdated.places.2.1 ▸ hsyrup)
        (hupdated.poolLength ▸ hpid) hsettles)
    refine ⟨_, ?_, hsteps⟩
    unfold Tx.count
    cases hchanges : tx.op.changes with
    -- an unchanged stake rounds nothing away
    | false => simp [hupdated.userInfo, newStake_of_changes hchanges, RewardBook.dust]
    | true =>
        unfold RewardBook.dust
        split
        · exact Nat.zero_le _
        · exact le_rfl
  | none =>
    refine ⟨0, Nat.zero_le _, ?_⟩
    by_cases hmigrates : ∀ pid, tx.op ≠ .migrate pid
    · exact Effects.book hs hhere hsyrup hop (exec_effects hhere hsyrup hmigrates hexec)
    -- a migration moves LP tokens and no rewards
    · obtain ⟨pid, hmigrate⟩ := not_forall_not.mp hmigrates
      have htrusted := hwell pid s' hmigrate h
      simp only [exec, hmigrate] at hexec
      obtain ⟨_, _, lpToken, tokens, _, rfl⟩ := migrate_eq_ok hexec
      refine .single (book_gain rfl ?_ rfl htrusted.rewards)
      intro p
      by_cases hp : p = pid
      · subst hp
        simp [State.migrated, State.setPoolInfo]
      · simp [State.migrated, State.setPoolInfo, hp]

/-- The farm, with a count of the changes of stakes beside it. -/
def counted : TSys (State × Nat) Tx where
  init c := machine.init c.1 ∧ c.2 = 0
  step c tx := do
    let s ← machine.step c.1 tx
    return (s, c.2 + tx.count)

/-- The farm's CAKE covers the book up to the rounding, in every state of a run. -/
theorem covers_inductive : counted.Inductive (fun c tx => MigratesWell c.1 tx) fun c =>
    Custody c.1 ∧ RewardBook.Covers precision c.2 (book c.1) where
  init c h := by
    obtain ⟨s, k⟩ := c
    obtain ⟨hinit, rfl⟩ := h
    refine ⟨custody_inductive.init s hinit, ?_⟩
    obtain ⟨here, cake, syrup, owner, devaddr, cakePerBlock, startBlock, tokens, rfl, _⟩ := hinit
    refine ⟨⟨?_, fun _ _ _ => ⟨rfl, rfl⟩⟩, ?_⟩
    · intro p a
      show 0 * precision ≤ _
      rw [Nat.zero_mul]
      exact Nat.zero_le _
    · -- nobody has a stake yet
      have hnone : (book (initState here cake syrup owner devaddr cakePerBlock startBlock
          tokens)).owed precision = 0 := by
        refine Finset.sum_eq_zero ?_
        intro p _
        refine TotalMap.sum_eq_zero ?_
        intro a
        show 0 * _ - 0 * precision = 0
        rw [Nat.zero_mul, Nat.zero_sub]
      rw [hnone]
      exact Nat.zero_le _
  step c tx c' hc hwell h := by
    obtain ⟨hs, hcovers⟩ := hc
    simp only [counted, bind_eq_ok, pure_eq_ok] at h
    obtain ⟨s', hstep, rfl⟩ := h
    refine ⟨custody_inductive.step _ _ _ hs hwell hstep, ?_⟩
    obtain ⟨k, hk, hsteps⟩ := step_book hs hwell hstep
    exact (hsteps.covers (by norm_num [precision]) hcovers).mono (Nat.add_le_add_left hk _)

theorem sum_pending_le {changes : Nat} (h : RewardBook.Covers precision changes (book s)) :
    ∑ pid ∈ Finset.range s.poolLength, ∑ user, s.pending pid user ≤ s.cakeBal + (changes - 1) :=
  h.sum_pending_le (by norm_num [precision])

theorem pending_le_paid {changes : Nat} (h : RewardBook.Covers precision changes (book s))
    (hpid : pid < s.poolLength) (user : Address) :
    s.pending pid user ≤ s.paid pid user + (changes - 1) := by
  have hsum := sum_pending_le h
  have hpool := Finset.single_le_sum (f := fun p => ∑ user, s.pending p user)
    (fun _ _ => Nat.zero_le _) (Finset.mem_range.mpr hpid)
  have huser := TotalMap.single_le_sum (s.pending pid) user
  unfold State.paid
  omega

/-- After `changes` changes of stakes, what all accounts could be paid exceeds the CAKE of SYRUP by
less than `changes`, and a settlement pays all but less than `changes` of what is pending. -/
theorem pending_le_cakeBal (s : State) (changes : Nat)
    (hreach : counted.ReachableBy (fun c tx => MigratesWell c.1 tx) (s, changes)) :
    ∑ pid ∈ Finset.range s.poolLength, ∑ user, s.pending pid user ≤ s.cakeBal + (changes - 1) ∧
      ∀ pid < s.poolLength, ∀ user, s.pending pid user ≤ s.paid pid user + (changes - 1) := by
  obtain ⟨_, hcovers⟩ := covers_inductive.invariant hreach
  exact ⟨sum_pending_le hcovers, fun pid hpid user => pending_le_paid hcovers hpid user⟩

/-- Account 1 stakes 2 for a block that brings the pool 1 CAKE, and leaves. Accounts 2 and 3 then
stake 1 each; their debts, half a CAKE each, are rounded down. With the next CAKE they have 1
pending each, and SYRUP has 1; and so it is after the pool was migrated. -/
theorem pending_le_cakeBal_short : ∃ s,
    counted.ReachableBy (fun c tx => MigratesWell c.1 tx) (s, 4) ∧ (s.poolInfo 1).lpToken = 111 ∧
      s.cakeBal < s.pending 1 2 + s.pending 1 3 ∧
      ∑ pid ∈ Finset.range s.poolLength, ∑ user, s.pending pid user ≤ s.cakeBal + 3 := by
  have hrun : (counted.guarded fun c tx => keepsTokens c.1 tx).lastStep (freshState 2, 0)
      [{ sender := 103, blockNumber := 1, op := .add 600 110 false },
        { sender := 103, blockNumber := 1, op := .setMigrator 105 },
        { sender := 1, blockNumber := 1, op := .mintLp 110 1 2 },
        { sender := 2, blockNumber := 1, op := .mintLp 110 2 1 },
        { sender := 3, blockNumber := 1, op := .mintLp 110 3 1 },
        { sender := 1, blockNumber := 1, op := .approve 110 100 2 },
        { sender := 2, blockNumber := 1, op := .approve 110 100 1 },
        { sender := 3, blockNumber := 1, op := .approve 110 100 1 },
        { sender := 1, blockNumber := 1, op := .deposit 1 2 },
        { sender := 1, blockNumber := 2, op := .withdraw 1 2 },
        { sender := 2, blockNumber := 2, op := .deposit 1 1 },
        { sender := 3, blockNumber := 2, op := .deposit 1 1 }]
      { sender := 4, blockNumber := 3, op := .updatePool 1 }
      (fun _ c => oneLp c.1 ∧ counted.lastStep c [] (migrateTx 3 111) fun _ c' => c'.2 = 4 ∧
        (c'.1.poolInfo 1).lpToken = 111 ∧
        c'.1.cakeBal < c'.1.pending 1 2 + c'.1.pending 1 3) = true := by
    decide +kernel
  obtain ⟨c₁, c, hreach, hstep, htest⟩ := TSys.lastStep_reachable
    (M := counted.guarded fun c tx => keepsTokens c.1 tx) ⟨freshState_init 2, rfl⟩ hrun
  obtain ⟨hlp₀, hnext⟩ := of_decide_eq_true htest
  have hreach := TSys.reachableBy_of_guarded
    (fun c tx h => migratesWell_of_keepsTokens c.1 tx h) (hreach.step trivial hstep)
  obtain ⟨⟨s, changes⟩, hmigrate, htest⟩ := TSys.lastStep_nil hnext
  obtain ⟨hchanges, hlp, hshort⟩ := of_decide_eq_true htest
  change changes = 4 at hchanges
  subst hchanges
  -- the two claims lose their fractions one by one, and the pot is a unit short
  have hwell : MigratesWell c.1 (migrateTx 3 111) :=
    migratesWell_migrateTx (covers_inductive.invariant hreach).1 hlp₀ (by decide)
  have hreach := hreach.step hwell hmigrate
  exact ⟨s, hreach, hlp, hshort, (pending_le_cakeBal s 4 hreach).1⟩

end Huski.MasterChef
