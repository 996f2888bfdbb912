import Huski.MasterChef.Shortfall
import Huski.Worker.Stake

/-!
# The farm as a worker sees it

`Huski.Worker.Stake` keeps of the farm one entry and its pending CAKE: CAKE accrues, and a change of
the stake pays it. Here every run of the farm is a run of that model, for each account and pool
(`step_simulates`), as long as the account does not give up its reward; the workers never do. What a
change of the stake pays is what `pendingCake` said, up to the shortfall of SYRUP.
-/

open scoped BigOperators

namespace Huski.MasterChef

open Solidity State Ledgers Worker

variable {n pid amount : Nat} {user w : Address} {tx : Tx} {s s' s₁ : State}

/-! ## The view -/

theorem accNow_of_updatePool (h : updatePool n pid s = .ok s₁) :
    accNow s n (s.poolInfo pid) = .ok (s₁.poolInfo pid).accCakePerShare := by
  simp only [updatePool, bind_eq_ok] at h
  obtain ⟨pool, hpool, h⟩ := h
  obtain ⟨_, rfl⟩ := poolAt_eq_ok hpool
  unfold accNow
  split at h
  · rename_i hcurrent
    cases h
    rw [if_neg (by omega)]
  · rename_i hbehind
    split at h
    · rename_i hempty
      cases h
      rw [if_neg fun hboth => hboth.2 hempty]
      simp [State.setPoolInfo]
    · rename_i hstaked
      simp only [accruePool, bind_eq_ok, pure_eq_ok] at h
      obtain ⟨multiplier, hmultiplier, reward, hreward, _, hdev, _, hpool, acc, hacc, rfl⟩ := h
      rw [if_pos ⟨by omega, hstaked⟩]
      simp only [bind_eq_ok]
      refine ⟨multiplier, hmultiplier, reward, hreward, ?_⟩
      simp [State.setPoolInfo, hacc]

theorem earned_isOk {info : UserInfo} {acc : Nat} (hfits : info.amount * acc < wordSize)
    (hdebt : info.rewardDebt * precision ≤ info.amount * acc) :
    earned info acc = .ok (info.amount * acc / precision - info.rewardDebt) := by
  have hle : info.rewardDebt ≤ info.amount * acc / precision :=
    (Nat.le_div_iff_mul_le (by norm_num [precision])).mpr hdebt
  simp only [earned, bind_eq_ok, SafeMath.mul_eq_ok, SafeMath.div_eq_ok, SafeMath.sub_eq_ok]
  exact ⟨_, ⟨hfits, rfl⟩, _, ⟨by norm_num [precision], rfl⟩, hle, rfl⟩

/-- The view is what is pending once the pool is updated. -/
theorem pendingCake_of_updatePool (h : updatePool n pid s = .ok s₁)
    (hfits : s₁.Fits pid (s₁.userInfo pid user).amount) (hsound : (book s₁).Sound precision) :
    pendingCake s n pid user = .ok (s₁.pending pid user) := by
  obtain ⟨hpid, hupdated⟩ := updatePool_eq_ok h
  have hpool : s.poolAt pid = .ok (s.poolInfo pid) := if_pos hpid
  simp only [pendingCake, bind_eq_ok]
  refine ⟨_, hpool, _, accNow_of_updatePool h, ?_⟩
  rw [← hupdated.userInfo]
  exact earned_isOk hfits (hsound.debts pid user)

theorem Updated.settledAt (h : Updated n pid s s') : n ≤ (s'.poolInfo pid).lastRewardBlock := by
  cases h with
  | current h => exact h
  | empty => simp [State.setPoolInfo]
  | accrued => simp [State.accrued, State.setPoolInfo]

theorem updatePool_current (hpid : pid < s.poolLength)
    (h : n ≤ (s.poolInfo pid).lastRewardBlock) : updatePool n pid s = .ok s := by
  have hpool : s.poolAt pid = .ok (s.poolInfo pid) := if_pos hpid
  simp only [updatePool, bind_eq_ok]
  exact ⟨_, hpool, by rw [if_pos h]; rfl⟩

/-- Nothing is pending for who was just settled. -/
theorem pending_settled (h : Settles w pid amount s s') : s'.pending pid w = 0 := by
  unfold State.pending
  rw [h.userInfo_self, h.poolInfo]
  exact Nat.sub_self _

/-- In every run a change of a stake finds what `pendingCake` gives in its block; it pays that from
SYRUP, less by fewer than the `changes` of stakes before it, and leaves nothing pending. -/
theorem pendingCake_paid (s : State) (changes : Nat) (tx : Tx) (pid : Nat) (s' : State)
    (hreach : counted.ReachableBy (fun c tx => MigratesWell c.1 tx) (s, changes))
    (hpool : tx.op.pool = some pid) (hstep : machine.step s tx = .ok s') :
    ∃ v paid s₁, pendingCake s tx.blockNumber pid tx.sender = .ok v ∧
      updatePool tx.blockNumber pid s = .ok s₁ ∧ s'.cakeBal + paid = s₁.cakeBal ∧
      paid ≤ v ∧ v ≤ paid + (changes - 1) ∧
      pendingCake s' tx.blockNumber pid tx.sender = .ok 0 := by
  obtain ⟨hs, hcovers⟩ := covers_inductive.invariant hreach
  obtain ⟨_, hsyrup, hexec⟩ := step_eq_ok hstep
  obtain ⟨s₁, hupdate, hbefore, hafter, hsettles⟩ := exec_settles hpool hexec
  obtain ⟨hpid, hupdated⟩ := updatePool_eq_ok hupdate
  have hprecision : 0 < precision := by norm_num [precision]
  have hcovers₁ := (hupdated.book hs hpid).covers hprecision hcovers
  have hs₁ := hs.updated hupdated
  have hpid₁ : pid < s₁.poolLength := hupdated.poolLength ▸ hpid
  have hsyrup₁ : tx.sender ≠ s₁.syrup := hupdated.places.2.1 ▸ hsyrup
  have hsettled := settles_book hs₁ hsyrup₁ hpid₁ hsettles
  refine ⟨_, s₁.paid pid tx.sender, s₁, pendingCake_of_updatePool hupdate hbefore hcovers₁.sound,
    hupdate, ?_, paid_le_pending _ _, ?_, ?_⟩
  · have hfund := cakeBal_settles hs₁ hsyrup₁ hsettles
    exact hfund
  · exact pending_le_paid hcovers₁ hpid₁ tx.sender
  -- the settlement writes the debt at the block's share, so the view shows nothing more
  · have hcurrent : tx.blockNumber ≤ (s'.poolInfo pid).lastRewardBlock := by
      rw [hsettles.poolInfo]
      exact hupdated.settledAt
    have hagain := updatePool_current (hsettles.poolLength ▸ hpid₁) hcurrent
    rw [← pending_settled hsettles]
    refine pendingCake_of_updatePool hagain ?_ (hsettled.covers hprecision hcovers₁).sound
    unfold State.Fits
    rw [hsettles.userInfo_self, hsettles.poolInfo]
    exact hafter

/-- After a stake of 2 for one block, and after the pool was migrated, account 1 changes it by
nothing, and is paid the CAKE of the block. -/
theorem pendingCake_paid_one : ∃ s s',
    counted.ReachableBy (fun c tx => MigratesWell c.1 tx) (s, 1) ∧
    (s.poolInfo 1).lpToken = 111 ∧
    machine.step s { sender := 1, blockNumber := 3, op := .deposit 1 0 } = .ok s' ∧
    ∃ v paid s₁, pendingCake s 3 1 1 = .ok v ∧ updatePool 3 1 s = .ok s₁ ∧
      s'.cakeBal + paid = s₁.cakeBal ∧ paid ≤ v ∧ v ≤ paid + 0 ∧ pendingCake s' 3 1 1 = .ok 0 := by
  have hrun : (counted.guarded fun c tx => keepsTokens c.1 tx).lastStep (freshState 2, 0)
      [{ sender := 103, blockNumber := 1, op := .add 600 110 false },
        { sender := 103, blockNumber := 1, op := .setMigrator 105 },
        { sender := 1, blockNumber := 1, op := .mintLp 110 1 2 },
        { sender := 1, blockNumber := 1, op := .approve 110 100 2 }]
      { sender := 1, blockNumber := 2, op := .deposit 1 2 }
      (fun _ c => oneLp c.1 ∧ counted.lastStep c [] (migrateTx 3 111) fun _ c' => c'.2 = 1 ∧
        (c'.1.poolInfo 1).lpToken = 111 ∧
        (machine.step c'.1 { sender := 1, blockNumber := 3, op := .deposit 1 0 }).isOk) = true := by
    decide +kernel
  obtain ⟨c₁, c, hreach, hstep, htest⟩ := TSys.lastStep_reachable
    (M := counted.guarded fun c tx => keepsTokens c.1 tx) ⟨freshState_init 2, rfl⟩ hrun
  obtain ⟨hlp₀, hnext⟩ := of_decide_eq_true htest
  have hreach := TSys.reachableBy_of_guarded
    (fun c tx h => migratesWell_of_keepsTokens c.1 tx h) (hreach.step trivial hstep)
  obtain ⟨⟨s, changes⟩, hmigrate, htest⟩ := TSys.lastStep_nil hnext
  obtain ⟨hchanges, hlp, hlast⟩ := of_decide_eq_true htest
  change changes = 1 at hchanges
  subst hchanges
  -- the pool is migrated between the deposit and the settlement
  have hwell : MigratesWell c.1 (migrateTx 3 111) :=
    migratesWell_migrateTx (covers_inductive.invariant hreach).1 hlp₀ (by decide)
  have hreach := hreach.step hwell hmigrate
  obtain ⟨s', hlast⟩ := exists_ok_of_isOk hlast
  exact ⟨s, s', hreach, hlp, hlast, pendingCake_paid s 1 _ 1 s' hreach rfl hlast⟩

/-! ## Simulation -/

/-- The calls of the model of a worker's stake. -/
inductive StakeCall
  | accrue (amount : Nat)
  | enter (amount : Nat)
  | leave (amount : Nat)

/-- The worker's call, in the model of its stake. -/
def StakeCall.exec : StakeCall → Stake → Result Stake
  | .accrue amount, k => .ok (k.accrue amount)
  | .enter amount, k => k.enter amount
  | .leave amount, k => k.leave amount

/-- The entry of an account, over shares that the farm does not know. -/
def stakeOf (k : Stake) (w : Address) (pid : Nat) (s : State) : Stake :=
  { k with amount := (s.userInfo pid w).amount, pendingCake := s.pending pid w }

/-- What a transaction is for the stake of `w` in the pool `pid`. -/
def stakeCalls (w : Address) (pid : Nat) (tx : Tx) : List StakeCall :=
  if tx.sender = w ∧ tx.op.pool = some pid then
    match tx.op with
    | .deposit _ amount | .enterStaking amount => [.enter amount]
    | .withdraw _ amount | .leaveStaking amount => [.leave amount]
    | _ => []
  else []

/-- The entry of `w` stays and only CAKE accrues to it. -/
structure Grows (w : Address) (pid : Nat) (s s' : State) : Prop where
  entry : s'.userInfo pid w = s.userInfo pid w
  pending : s.pending pid w ≤ s'.pending pid w

theorem Grows.trans (h : Grows w pid s s₁) (h' : Grows w pid s₁ s') : Grows w pid s s' where
  entry := h'.entry.trans h.entry
  pending := h.pending.trans h'.pending

theorem Grows.of_acc (hentry : s'.userInfo pid w = s.userInfo pid w)
    (hacc : (s.poolInfo pid).accCakePerShare ≤ (s'.poolInfo pid).accCakePerShare) :
    Grows w pid s s' where
  entry := hentry
  pending := by
    unfold State.pending
    rw [hentry]
    have hproduct := Nat.mul_le_mul_left (s.userInfo pid w).amount hacc
    exact Nat.sub_le_sub_right (Nat.div_le_div_right hproduct) _

theorem Updated.grows {p : Nat} (h : Updated n p s s') : Grows w pid s s' := by
  refine .of_acc (by rw [h.userInfo]) ?_
  cases h with
  | current => exact le_rfl
  | empty =>
      by_cases hp : pid = p
      · subst hp
        simp [State.setPoolInfo]
      · simp [State.setPoolInfo, hp]
  | accrued =>
      by_cases hp : pid = p
      · subst hp
        simp [State.accrued, State.setPoolInfo]
      · simp [State.accrued, State.setPoolInfo, hp]

/-- A change of another entry. -/
theorem Changes.grows {p : Nat} {sender : Address} {info : UserInfo} {out into : Flow}
    (hother : ¬(sender = w ∧ p = pid)) (h : Changes sender p info out into s s') :
    Grows w pid s s' := by
  refine .of_acc ?_ (by rw [h.poolInfo])
  rw [h.userInfo]
  by_cases hp : pid = p
  · subst hp
    have hw : w ≠ sender := fun hw => hother ⟨hw.symm, rfl⟩
    rw [Function.update_self, Function.update_of_ne hw]
  · rw [Function.update_of_ne hp]

/-- `w` does not take its stake without the reward. -/
def Stays (w : Address) (pid : Nat) (tx : Tx) : Prop :=
  ¬(tx.sender = w ∧ tx.op = .emergencyWithdraw pid)

theorem Effect.grows (hs : Custody s) (hother : ¬(tx.sender = w ∧ tx.op.pool = some pid))
    (hstays : Stays w pid tx) (h : Effect tx s s') : Grows w pid s s' := by
  cases h with
  | updated p hpid h => exact h.grows
  | appointed => exact .of_acc rfl le_rfl
  | added hweighs allocPoint lpToken =>
      refine ⟨rfl, ?_⟩
      by_cases hp : pid = s.poolLength
      · -- nobody is in a pool that was not there
        subst hp
        unfold State.pending
        rw [hs.unlisted s.poolLength le_rfl]
        simp
      · unfold State.pending
        simp [State.added, State.setPoolInfo, hp]
  | weighed hweighs p allocPoint hpid hle =>
      refine .of_acc rfl ?_
      by_cases hp : pid = p
      · subst hp
        simp [State.weighed, State.setPoolInfo]
      · simp [State.weighed, State.setPoolInfo, hp]
  | settled p amount hpool hpid h =>
      refine Changes.grows ?_ h
      rintro ⟨hw, rfl⟩
      exact hother ⟨hw, hpool⟩
  | left p hop hpid h =>
      refine h.grows ?_
      rintro ⟨hw, rfl⟩
      exact hstays ⟨hw, hop⟩
  | called token t h => exact .of_acc rfl le_rfl

theorem Effects.grows (hs : Custody s) (hhere : tx.sender ≠ s.here)
    (hother : ¬(tx.sender = w ∧ tx.op.pool = some pid)) (hstays : Stays w pid tx)
    (h : Effects tx s s') : Grows w pid s s' := by
  induction h with
  | refl => exact ⟨rfl, le_rfl⟩
  | tail hrest heffect ih =>
      have hcustody := (Effects.custody hs hhere hrest).1
      exact ih.trans (heffect.grows hcustody hother hstays)

theorem accrue_stakeOf (k : Stake) (h : Grows w pid s s') :
    ∃ a, (stakeOf k w pid s).accrue a = stakeOf k w pid s' := by
  refine ⟨s'.pending pid w - s.pending pid w, ?_⟩
  unfold stakeOf Stake.accrue
  rw [h.entry, Nat.add_sub_cancel' h.pending]

/-- A stake is a word. -/
theorem Custody.amount_lt (hs : Custody s) (hpid : pid < s.poolLength) (user : Address) :
    (s.userInfo pid user).amount < wordSize := by
  have hheld := ((amount_le_stake user).trans (stake_le_staked hpid)).trans (hs.held _)
  have hsound := hs.kept.1 (s.poolInfo pid).lpToken
  exact (hheld.trans (hsound.backed.balanceOf_le s.here)).trans_lt hsound.supply_lt

/-- The entry after a settlement. -/
theorem stakeOf_settled (k : Stake) (h : Settles w pid amount s s') :
    stakeOf k w pid s' = { stakeOf k w pid s with amount, pendingCake := 0 } := by
  unfold stakeOf
  rw [pending_settled h, h.userInfo_self]
  rfl

/-- A change of the stake of `w` is the same change in the model. -/
theorem settles_simulates (k : Stake) (hs : Custody s) (hpool : tx.op.pool = some pid)
    (hexec : exec tx s = .ok s') (hupdate : updatePool tx.blockNumber pid s = .ok s₁)
    (hsettles : Settles tx.sender pid (tx.op.newStake (s.userInfo pid tx.sender).amount) s₁ s')
    (hhere : tx.sender ≠ s.here) :
    (stakeCalls tx.sender pid tx).foldlM (fun k call => call.exec k)
      (stakeOf k tx.sender pid s₁) = .ok (stakeOf k tx.sender pid s') := by
  obtain ⟨hpid, hupdated⟩ := updatePool_eq_ok hupdate
  have hpid₁ : pid < s₁.poolLength := hupdated.poolLength ▸ hpid
  have hs' := Settles.custody (hs.updated hupdated) (hupdated.places.1 ▸ hhere) hpid₁ hsettles
  -- the new amount fits, as the farm holds it
  have hlt := hs'.amount_lt (hsettles.poolLength ▸ hpid₁) tx.sender
  rw [hsettles.userInfo_self] at hlt
  have hamount : (stakeOf k tx.sender pid s₁).amount = (s.userInfo pid tx.sender).amount := by
    show (s₁.userInfo pid tx.sender).amount = _
    rw [hupdated.userInfo]
  rw [stakeOf_settled k hsettles]
  unfold stakeCalls
  rw [if_pos ⟨rfl, hpool⟩]
  obtain ⟨sender, n, migrator, op⟩ := tx
  -- the farm's step is one call of the single-staker model: enter or leave
  have henter : ∀ v, (s.userInfo pid sender).amount + v < wordSize →
      (stakeOf k sender pid s₁).enter v = .ok { stakeOf k sender pid s₁ with
        amount := (s.userInfo pid sender).amount + v, pendingCake := 0 } := by
    intro v hv
    simp only [Stake.enter, bind_eq_ok, SafeMath.add_eq_ok, pure_eq_ok]
    exact ⟨_, ⟨hamount ▸ hv, rfl⟩, by rw [hamount]⟩
  have hleave : ∀ v, v ≤ (s.userInfo pid sender).amount →
      (stakeOf k sender pid s₁).leave v = .ok { stakeOf k sender pid s₁ with
        amount := (s.userInfo pid sender).amount - v, pendingCake := 0 } := by
    intro v hv
    simp only [Stake.leave, bind_eq_ok, require_eq_ok, pure_eq_ok]
    exact ⟨(), hamount ▸ hv, by rw [hamount]⟩
  cases op with
  | deposit p amount =>
      cases hpool
      simp only [List.foldlM_cons, List.foldlM_nil, bind_eq_ok, pure_eq_ok, exists_eq_right]
      exact henter amount hlt
  | enterStaking amount =>
      cases hpool
      simp only [List.foldlM_cons, List.foldlM_nil, bind_eq_ok, pure_eq_ok, exists_eq_right]
      exact henter amount hlt
  | withdraw p amount =>
      cases hpool
      obtain ⟨_, hle, _⟩ := withdraw_eq_ok hexec
      simp only [List.foldlM_cons, List.foldlM_nil, bind_eq_ok, pure_eq_ok, exists_eq_right]
      exact hleave amount hle
  | leaveStaking amount =>
      cases hpool
      obtain ⟨hle, _⟩ := leaveStaking_eq_ok hexec
      simp only [List.foldlM_cons, List.foldlM_nil, bind_eq_ok, pure_eq_ok, exists_eq_right]
      exact hleave amount hle
  | _ => cases hpool

/-- The entry of `w` does what the model of a worker's stake does: some CAKE accrues, then the
stake changes as the transaction says. -/
theorem step_simulates (k : Stake) (hs : Custody s) (hstays : Stays w pid tx)
    (hstep : machine.step s tx = .ok s') :
    ∃ a, (StakeCall.accrue a :: stakeCalls w pid tx).foldlM (fun k call => call.exec k)
      (stakeOf k w pid s) = .ok (stakeOf k w pid s') := by
  obtain ⟨hhere, hsyrup, hexec⟩ := step_eq_ok hstep
  by_cases hown : tx.sender = w ∧ tx.op.pool = some pid
  · obtain ⟨rfl, hpool⟩ := hown
    obtain ⟨s₁, hupdate, _, _, hsettles⟩ := exec_settles hpool hexec
    obtain ⟨a, hgrown⟩ := accrue_stakeOf k (w := tx.sender) (updatePool_eq_ok hupdate).2.grows
    refine ⟨a, ?_⟩
    rw [List.foldlM_cons]
    simp only [StakeCall.exec, bind_eq_ok, Except.ok.injEq]
    exact ⟨_, hgrown, settles_simulates k hs hpool hexec hupdate hsettles hhere⟩
  -- somebody else's step: the share grows, the entry stays
  · have hgrows : Grows w pid s s' := by
      by_cases hmigrates : ∀ p, tx.op ≠ .migrate p
      · exact Effects.grows hs hhere hown hstays (exec_effects hhere hsyrup hmigrates hexec)
      · obtain ⟨p, hmigrate⟩ := not_forall_not.mp hmigrates
        simp only [exec, hmigrate] at hexec
        obtain ⟨_, _, lpToken, tokens, _, rfl⟩ := migrate_eq_ok hexec
        refine .of_acc rfl ?_
        by_cases hp : pid = p
        · subst hp
          simp [State.migrated, State.setPoolInfo]
        · simp [State.migrated, State.setPoolInfo, hp]
    obtain ⟨a, hgrown⟩ := accrue_stakeOf k hgrows
    refine ⟨a, ?_⟩
    unfold stakeCalls
    rw [if_neg hown]
    simp only [List.foldlM_cons, List.foldlM_nil, StakeCall.exec, bind_eq_ok, pure_eq_ok,
      Except.ok.injEq]
    exact ⟨_, hgrown, rfl⟩

/-- A run of the farm whose migrations are to be trusted and in which `w` stays in the pool. -/
inductive Run (w : Address) (pid : Nat) : State → List Tx → State → Prop
  | nil {s : State} : Run w pid s [] s
  | cons {s s₁ s' : State} {tx : Tx} {txs : List Tx} (hwell : MigratesWell s tx)
      (hstays : Stays w pid tx) (hstep : machine.step s tx = .ok s₁) (h : Run w pid s₁ txs s') :
      Run w pid s (tx :: txs) s'

/-- What transactions, and the CAKE that accrues with them, are for the stake of `w`. -/
def observed (w : Address) (pid : Nat) (txs : List (Tx × Nat)) : List StakeCall :=
  txs.flatMap fun p => .accrue p.2 :: stakeCalls w pid p.1

/-- Every run of the farm is a run of the worker's stake. -/
theorem run_simulates_of_custody (k : Stake) {txs : List Tx} (hs : Custody s)
    (hrun : Run w pid s txs s') :
    ∃ accruals : List Nat, accruals.length = txs.length ∧
      (observed w pid (txs.zip accruals)).foldlM (fun k call => call.exec k)
        (stakeOf k w pid s) = .ok (stakeOf k w pid s') := by
  induction hrun with
  | nil => exact ⟨[], rfl, rfl⟩
  | cons hwell hstays hstep _ ih =>
      obtain ⟨a, hfirst⟩ := step_simulates k hs hstays hstep
      obtain ⟨accruals, hlength, hrest⟩ := ih (custody_inductive.step _ _ _ hs hwell hstep)
      refine ⟨a :: accruals, by simp [hlength], ?_⟩
      unfold observed at hrest ⊢
      rw [List.zip_cons_cons, List.flatMap_cons, List.foldlM_append, bind_eq_ok]
      exact ⟨_, hfirst, hrest⟩

/-- From any state of a run, each further run of the farm is for the stake of `w` in a pool a run of
the model of a worker's stake: CAKE accrues to it with each transaction, and it enters and leaves
with the amounts of its own. -/
theorem run_simulates (k : Stake) (w : Address) (pid : Nat) (s s' : State) (txs : List Tx)
    (hreach : machine.ReachableBy MigratesWell s) (hrun : Run w pid s txs s') :
    ∃ accruals : List Nat, accruals.length = txs.length ∧
      (observed w pid (txs.zip accruals)).foldlM (fun k call => call.exec k)
        (stakeOf k w pid s) = .ok (stakeOf k w pid s') :=
  run_simulates_of_custody k (custody_inductive.invariant hreach) hrun

/-- Account 1 stakes 2, and 1 of another LP token after the pool was migrated to that. -/
theorem run_simulates_two : ∃ s s' txs, machine.ReachableBy MigratesWell s ∧ Run 1 1 s txs s' ∧
    (s'.poolInfo 1).lpToken = 111 ∧ (s'.userInfo 1 1).amount = 3 ∧
    ∃ accruals : List Nat, accruals.length = txs.length ∧
      (observed 1 1 (txs.zip accruals)).foldlM (fun k call => call.exec k) (stakeOf {} 1 1 s) =
        .ok (stakeOf {} 1 1 s') := by
  have hrun : (machine.guarded keepsTokens).lastStep (freshState 2)
      [{ sender := 103, blockNumber := 1, op := .add 600 110 false },
        { sender := 103, blockNumber := 1, op := .setMigrator 105 },
        { sender := 1, blockNumber := 1, op := .mintLp 110 1 2 },
        { sender := 1, blockNumber := 1, op := .mintLp 111 1 1 },
        { sender := 1, blockNumber := 1, op := .approve 111 100 1 }]
      { sender := 1, blockNumber := 1, op := .approve 110 100 2 }
      (fun _ s => (machine.guarded keepsTokens).lastStep s []
        { sender := 1, blockNumber := 1, op := .deposit 1 2 } fun _ s₁ => oneLp s₁ ∧
          machine.lastStep s₁ [migrateTx 5 111]
            { sender := 1, blockNumber := 7, op := .deposit 1 1 }
            fun _ s' => (s'.poolInfo 1).lpToken = 111 ∧ (s'.userInfo 1 1).amount = 3) = true := by
    decide +kernel
  obtain ⟨s₀, s, hreach, hstep, hnext⟩ := TSys.lastStep_reachable
    (M := machine.guarded keepsTokens) (freshState_init 2) hrun
  have hguarded := hreach.step trivial hstep
  have hreach := TSys.reachableBy_of_guarded migratesWell_of_keepsTokens hguarded
  obtain ⟨s₁, hdeposit, htest⟩ := TSys.lastStep_nil hnext
  obtain ⟨hlp₁, hnext⟩ := of_decide_eq_true htest
  obtain ⟨_, _, hdeposit'⟩ := bind_eq_ok.mp hdeposit
  have hreach₁ := TSys.reachableBy_of_guarded migratesWell_of_keepsTokens
    (hguarded.step trivial hdeposit)
  -- the worker stakes before the migration and adds after it
  have hwell : MigratesWell s₁ (migrateTx 5 111) :=
    migratesWell_migrateTx (custody_inductive.invariant hreach₁) hlp₁ (by decide)
  obtain ⟨s₂, hmigrate, hnext⟩ := TSys.lastStep_cons hnext
  obtain ⟨s', hmore, htest⟩ := TSys.lastStep_nil hnext
  obtain ⟨hlp, hamount⟩ := of_decide_eq_true htest
  have hstays : ∀ tx : Tx, (∀ p, tx.op ≠ .emergencyWithdraw p) → Stays 1 1 tx :=
    fun _ hop h => hop 1 h.2
  have hrun : Run 1 1 s [{ sender := 1, blockNumber := 1, op := .deposit 1 2 }, migrateTx 5 111,
      { sender := 1, blockNumber := 7, op := .deposit 1 1 }] s' := by
    refine .cons (migratesWell_of_keepsTokens _ _ rfl) (hstays _ ?_) hdeposit'
      (.cons hwell (hstays _ ?_) hmigrate
        (.cons (migratesWell_of_keepsTokens _ _ rfl) (hstays _ ?_) hmore .nil))
    · exact fun _ hop => nomatch hop
    · exact fun _ hop => nomatch hop
    · exact fun _ hop => nomatch hop
  exact ⟨s, s', _, hreach, hrun, hlp, hamount, run_simulates {} 1 1 s s' _ hreach hrun⟩

end Huski.MasterChef
