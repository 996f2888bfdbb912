import Huski.FairLaunch.Custody

/-!
# Stake put in and taken out

What a call does to the entries of the pools: it puts stake into one, takes stake out of
one, or leaves all amounts and funders alone. Over a run two histories are kept: the stake
put in for an entry under the funder that is recorded then, and the stake taken out of it
by each account.
-/

namespace Huski.FairLaunch

open Solidity State
open scoped BigOperators

/-- The entry a call puts stake into, and how much. -/
def Op.putsIn : Op → Option (Nat × Address × Nat)
  | .deposit user pid amount => some (pid, user, amount)
  | _ => none

/-- The entry a call of `sender` takes stake out of, and how much it pays the sender. -/
def Op.takesOut (sender : Address) (s : State) : Op → Option (Nat × Address × Nat)
  | .withdraw user pid amount => some (pid, user, amount)
  | .withdrawAll user pid => some (pid, user, (s.userInfo pid user).amount)
  | .emergencyWithdraw pid => some (pid, sender, (s.userInfo pid sender).amount)
  | _ => none

/-- A stake token's balances after `amount` of it went from `holder` to `recipient`. -/
def PaysStake (s s' : State) (token holder recipient : Address) (amount : Nat) : Prop :=
  token ≠ s.husky.here → ∀ x,
    (s'.tokens token).balanceOf x + (if x = holder then amount else 0) =
      (s.tokens token).balanceOf x + if x = recipient then amount else 0

/-- The other entries are as they were, and so are the balances of other stake tokens. -/
structure OtherStakes (s s' : State) (pid : Nat) (user : Address) : Prop where
  entries : ∀ p u, p ≠ pid ∨ u ≠ user → s'.userInfo p u = s.userInfo p u
  tokens : ∀ token, token ≠ (s.poolInfo pid).stakeToken → s'.tokens token = s.tokens token

/-- What a call did to the amounts and funders of the entries, and to the stake tokens. -/
inductive StakeFlow (sender : Address) (op : Op) (s s' : State) : Prop
  | kept (puts : op.putsIn = none) (takes : op.takesOut sender s = none)
      (entries : ∀ p u, (s'.userInfo p u).amount = (s.userInfo p u).amount ∧
        (s'.userInfo p u).fundedBy = (s.userInfo p u).fundedBy)
      (tokens : ∀ token, (s.tokens token).balanceOf s.here ≤ (s'.tokens token).balanceOf s.here)
  | put {pid amount : Nat} {user : Address} (puts : op.putsIn = some (pid, user, amount))
      (takes : op.takesOut sender s = none) (sender_ne : sender ≠ 0)
      (funder : (s.userInfo pid user).fundedBy = 0 ∨ (s.userInfo pid user).fundedBy = sender)
      (amount_eq : (s'.userInfo pid user).amount = (s.userInfo pid user).amount + amount)
      (fundedBy : (s'.userInfo pid user).fundedBy = sender)
      (others : OtherStakes s s' pid user)
      (pays : PaysStake s s' (s.poolInfo pid).stakeToken sender s.here amount)
  | took {pid amount : Nat} {user : Address} (puts : op.putsIn = none)
      (takes : op.takesOut sender s = some (pid, user, amount)) (listed : pid < s.poolLength)
      (funder : (s.userInfo pid user).fundedBy = sender)
      (amount_eq : (s'.userInfo pid user).amount + amount = (s.userInfo pid user).amount)
      (fundedBy : (s'.userInfo pid user).fundedBy =
        funderAfter (s'.userInfo pid user).amount sender)
      (others : OtherStakes s s' pid user)
      (pays : PaysStake s s' (s.poolInfo pid).stakeToken s.here sender amount)

section Calls

variable {msg : Msg} {pid amount : Nat} {user : Address} {s s' : State}

theorem userInfo_settleUser {fundedBy : Address} :
    (s.settleUser pid user amount fundedBy).userInfo pid user =
      { amount
        rewardDebt := amount * s.acc pid / precision
        bonusDebt := amount * s.til pid / precision
        fundedBy } := by
  unfold State.settleUser
  exact userInfo_setUserInfo

theorem userInfo_settleUser_of_ne {fundedBy : Address} {p : Nat} {u : Address}
    (h : p ≠ pid ∨ u ≠ user) :
    (s.settleUser pid user amount fundedBy).userInfo p u = s.userInfo p u := by
  unfold State.settleUser
  exact userInfo_setUserInfo_of_ne h

/-- A deposit puts its amount into the entry, under the sender. -/
theorem deposit_flow (h : deposit msg user pid amount s = .ok s') :
    StakeFlow msg.sender (.deposit user pid amount) s s' := by
  obtain ⟨_, s₁, s₂, husky, tokens, hupdate, hfunder, hharvested, hmoves, rfl⟩ := deposit_eq_ok h
  have hupdated := (updatePool_eq_ok hupdate).2
  -- settling the pool touches neither the entries nor the stake tokens
  have hentry : ∀ p u, s₁.userInfo p u = s.userInfo p u := fun p u => by rw [hupdated.userInfo]
  have htokens : s₂.tokens = s.tokens := by
    rw [← hupdated.tokens]
    cases hharvested <;> rfl
  have hhere : s₂.husky.here = s.husky.here := by
    rw [← hupdated.husky_here]
    cases hharvested with
    | nothing _ => rfl
    | harvested harvests => exact harvests.husky_here
  rw [hentry] at hfunder
  refine .put rfl rfl hmoves.holder_ne hfunder ?_ ?_ ⟨fun p u hne => ?_, fun token hne => ?_⟩
    fun htoken x => ?_
  · rw [userInfo_settleUser, hentry]
  · rw [userInfo_settleUser]
  · rw [userInfo_settleUser_of_ne hne]
    show s₂.userInfo p u = _
    rw [hharvested.userInfo, hentry]
  · show tokens token = _
    rw [hmoves.others token (hupdated.stakeToken pid ▸ hne), htokens]
  -- a stake token other than HUSKY, whose balances the harvest does not touch
  · have hbalance := hmoves.balance (by rwa [hupdated.stakeToken, hhere]) x
    rw [hupdated.stakeToken, htokens, hupdated.here] at hbalance
    exact hbalance

/-- A withdrawal takes its amount out of the entry, to the sender. -/
theorem withdraw_flow (hlisted : ∀ p < s.poolLength, (s.poolInfo p).stakeToken ≠ 0) {op : Op}
    (hputs : op.putsIn = none) (htakes : op.takesOut msg.sender s = some (pid, user, amount))
    (h : _withdraw msg user pid amount s = .ok s') : StakeFlow msg.sender op s s' := by
  obtain ⟨hpid, s₁, husky₁, points, husky, tokens, hupdate, hfunder, hharvests, hle, _, _, _,
    hmoves, rfl⟩ := withdraw_eq_ok h
  have hupdated := (updatePool_eq_ok hupdate).2
  -- settling the pool touches no entry
  have hentry : ∀ p u, s₁.userInfo p u = s.userInfo p u := fun p u => by rw [hupdated.userInfo]
  have htoken : (s₁.poolInfo pid).stakeToken ≠ 0 := by
    rw [hupdated.stakeToken]
    exact hlisted pid hpid
  have hmoves := hmoves htoken
  rw [hentry] at hfunder hle
  refine .took hputs htakes hpid hfunder ?_ ?_ ⟨fun p u hne => ?_, fun token hne => ?_⟩
    fun htoken x => ?_
  · rw [userInfo_settleUser, hentry]
    exact Nat.sub_add_cancel hle
  · rw [userInfo_settleUser]
  · rw [userInfo_settleUser_of_ne hne]
    exact hentry p u
  · show tokens token = _
    rw [hmoves.others token (hupdated.stakeToken pid ▸ hne)]
    exact congrFun hupdated.tokens token
  -- the harvest pays HUSKY, so the stake token moves only in the transfer
  · have hhere : husky₁.here = s.husky.here := hharvests.husky_here.trans hupdated.husky_here
    have hbalance := hmoves.balance (by rw [hupdated.stakeToken]; exact hhere.symm ▸ htoken) x
    rw [hupdated.stakeToken, hupdated.here] at hbalance
    rw [← hupdated.tokens]
    exact hbalance

/-- An emergency withdrawal sends the stake to its funder. -/
theorem emergencyWithdraw_flow (h : emergencyWithdraw msg pid s = .ok s') :
    StakeFlow msg.sender (.emergencyWithdraw pid) s s' := by
  obtain ⟨hpid, hfunder, husky, tokens, hmoves, rfl⟩ := emergencyWithdraw_eq_ok h
  refine .took rfl rfl hpid hfunder ?_ ?_ ⟨fun p u hne => ?_, hmoves.others⟩ hmoves.balance
  · rw [userInfo_setUserInfo]
    exact Nat.zero_add _
  · rw [userInfo_setUserInfo]
    rfl
  · rw [userInfo_setUserInfo_of_ne hne]
    rfl

theorem harvest_flow (h : harvest msg pid s = .ok s') :
    StakeFlow msg.sender (.harvest pid) s s' := by
  obtain ⟨_, s₁, husky, points, hupdate, _, rfl⟩ := harvest_eq_ok h
  have hupdated := (updatePool_eq_ok hupdate).2
  refine .kept rfl rfl (fun p u => ?_) fun token => ?_
  · rw [← hupdated.userInfo]
    by_cases hhere : p = pid ∧ u = msg.sender
    · obtain ⟨rfl, rfl⟩ := hhere
      rw [userInfo_settleUser]
      exact ⟨rfl, rfl⟩
    · rw [userInfo_settleUser_of_ne (not_and_or.mp hhere)]
      exact ⟨rfl, rfl⟩
  · rw [← hupdated.tokens]
    exact le_rfl

/-- The loop over the pools touches neither the entries nor the stake tokens. -/
theorem massUpdatePools_keeps {n : Nat} (h : massUpdatePools n s = .ok s') :
    s'.userInfo = s.userInfo ∧ s'.tokens = s.tokens :=
  massUpdatePools_induct (P := fun t => t.userInfo = s.userInfo ∧ t.tokens = s.tokens) h
    ⟨rfl, rfl⟩ fun _ _ _ ht _ hupdated =>
      ⟨hupdated.userInfo.trans ht.1, hupdated.tokens.trans ht.2⟩

/-- What every call does to the stakes. -/
theorem exec_flow {op : Op} (hlisted : ∀ p < s.poolLength, (s.poolInfo p).stakeToken ≠ 0)
    (hsender : msg.sender ≠ s.here) (h : exec msg op s = .ok s') :
    StakeFlow msg.sender op s s' := by
  -- every function but the five that name a position
  have hkept : ∀ {op : Op} {s' : State}, op.putsIn = none → op.takesOut msg.sender s = none →
      s'.userInfo = s.userInfo → s'.tokens = s.tokens → StakeFlow msg.sender op s s' := by
    intro op s' hputs htakes huser htokens
    refine .kept hputs htakes (fun p u => ?_) fun token => ?_
    · rw [huser]
      exact ⟨rfl, rfl⟩
    · rw [htokens]
  cases op with
  | addPool allocPoint stakeToken withUpdate =>
      obtain ⟨_, _, s₁, hupdate, _, rfl⟩ := addPool_eq_ok h
      cases withUpdate with
      | true =>
          obtain ⟨huser, htokens⟩ := massUpdatePools_keeps hupdate
          exact hkept rfl rfl huser htokens
      | false =>
          cases hupdate
          exact hkept rfl rfl rfl rfl
  | setPool p allocPoint =>
      obtain ⟨s₁, hupdate, _, _, rfl⟩ := setPool_eq_ok h
      obtain ⟨huser, htokens⟩ := massUpdatePools_keeps hupdate
      exact hkept rfl rfl huser htokens
  | updatePool p =>
      have hupdated := (updatePool_eq_ok h).2
      exact hkept rfl rfl hupdated.userInfo hupdated.tokens
  | massUpdatePools =>
      obtain ⟨huser, htokens⟩ := massUpdatePools_keeps h
      exact hkept rfl rfl huser htokens
  -- the five functions that name a position
  | deposit => exact deposit_flow h
  | withdraw => exact withdraw_flow hlisted rfl rfl h
  | withdrawAll => exact withdraw_flow hlisted rfl rfl h
  | harvest => exact harvest_flow h
  | emergencyWithdraw => exact emergencyWithdraw_flow h
  | _ =>
      have hstakes := (exec_quiet rfl h).1
      refine .kept rfl rfl (fun p u => ?_) (exec_quiet_keepsFunds rfl hsender h).tokens
      rw [hstakes.userInfo]
      exact ⟨rfl, rfl⟩

end Calls

/-! ## Histories -/

/-- A state of a run with what was put into and taken out of each entry up to it, by the
account that funded it and the account that was paid. -/
structure History where
  chain : Chain
  putIn : Nat → Address → Address → Nat
  takenOut : Nat → Address → Address → Nat

/-- Count `amount` for the entry and the account. -/
def credit (total : Nat → Address → Address → Nat) (pid : Nat) (user account : Address)
    (amount : Nat) : Nat → Address → Address → Nat :=
  fun p u a => total p u a + if p = pid ∧ u = user ∧ a = account then amount else 0

/-- A transaction, with what it puts in counted for the funder that it leaves recorded, and
what it takes out for its sender, whom it pays. -/
def record (h : History) (tx : Tx) : Result History := do
  let chain ← mine h.chain tx
  return {
    chain
    putIn := match tx.op.putsIn with
      | some (pid, user, amount) =>
          credit h.putIn pid user (chain.state.userInfo pid user).fundedBy amount
      | none => h.putIn
    takenOut := match tx.op.takesOut tx.sender h.chain.state with
      | some (pid, user, amount) => credit h.takenOut pid user tx.sender amount
      | none => h.takenOut }

def custodyMachine : TSys History Tx where
  init h := machine.init h.chain ∧ (h.putIn = fun _ _ _ => 0) ∧ h.takenOut = fun _ _ _ => 0
  step := record

theorem record_eq_ok {h h' : History} {tx : Tx} (hstep : record h tx = .ok h') :
    mine h.chain tx = .ok h'.chain ∧
    (h'.putIn = match tx.op.putsIn with
      | some (pid, user, amount) =>
          credit h.putIn pid user (h'.chain.state.userInfo pid user).fundedBy amount
      | none => h.putIn) ∧
    h'.takenOut = match tx.op.takesOut tx.sender h.chain.state with
      | some (pid, user, amount) => credit h.takenOut pid user tx.sender amount
      | none => h.takenOut := by
  simp only [record, bind_eq_ok, pure_eq_ok] at hstep
  obtain ⟨chain, hmine, rfl⟩ := hstep
  exact ⟨hmine, rfl, rfl⟩

/-- The stake of an entry that `funder` put in. -/
def UserInfo.stakeOf (info : UserInfo) (funder : Address) : Nat :=
  if info.fundedBy = funder then info.amount else 0

section StakeOf

variable {info info' : UserInfo} {sender : Address} {amount : Nat}

theorem stakeOf_put (hempty : info.fundedBy = 0 → info.amount = 0)
    (hfunder : info.fundedBy = 0 ∨ info.fundedBy = sender)
    (hamount : info'.amount = info.amount + amount) (hfunded : info'.fundedBy = sender)
    (f : Address) : info'.stakeOf f = info.stakeOf f + if f = sender then amount else 0 := by
  unfold UserInfo.stakeOf
  rw [hamount, hfunded]
  by_cases hf : sender = f
  · subst hf
    rcases hfunder with hnone | hsender
    · simp [hempty hnone]
    · simp [hsender]
  · rw [if_neg hf, if_neg (Ne.symm hf)]
    rcases hfunder with hnone | hsender
    · simp [hempty hnone]
    · simp [hsender, hf]

theorem stakeOf_took (hfunder : info.fundedBy = sender)
    (hamount : info'.amount + amount = info.amount)
    (hfunded : info'.fundedBy = funderAfter info'.amount sender) (f : Address) :
    info'.stakeOf f + (if f = sender then amount else 0) = info.stakeOf f := by
  unfold UserInfo.stakeOf
  rw [hfunder, hfunded, ← hamount]
  unfold funderAfter
  by_cases hf : sender = f
  · subst hf
    rcases Nat.eq_zero_or_pos info'.amount with hnone | hleft
    · simp [hnone]
    · simp [hleft.ne']
  · rw [if_neg hf, if_neg (Ne.symm hf)]
    rcases Nat.eq_zero_or_pos info'.amount with hnone | hleft
    · simp [hnone]
    · simp [hleft.ne', hf]

end StakeOf

/-- Every entry holds what was put in and not taken out, all of it from one funder. -/
structure Balanced (h : History) : Prop where
  custody : Custody h.chain.state
  unfunded : ∀ p u, (h.chain.state.userInfo p u).fundedBy = 0 →
    (h.chain.state.userInfo p u).amount = 0
  entries : ∀ p u f, h.takenOut p u f + (h.chain.state.userInfo p u).stakeOf f = h.putIn p u f

theorem credit_self {total : Nat → Address → Address → Nat} {pid amount : Nat}
    {user account : Address} (f : Address) : credit total pid user account amount pid user f =
      total pid user f + if f = account then amount else 0 := by
  simp [credit]

theorem credit_of_ne {total : Nat → Address → Address → Nat} {pid amount p : Nat}
    {user account u : Address} (h : p ≠ pid ∨ u ≠ user) (f : Address) :
    credit total pid user account amount p u f = total p u f := by
  unfold credit
  rw [if_neg fun hall => h.elim (fun hp => hp hall.1) fun hu => hu hall.2.1, Nat.add_zero]

/-- One transaction keeps what was put in and taken out in balance with the stakes. -/
theorem Balanced.step {h h' : History} {tx : Tx} (hh : Balanced h) (hstep : record h tx = .ok h') :
    Balanced h' := by
  obtain ⟨hmine, hput, htaken⟩ := record_eq_ok hstep
  obtain ⟨hsender, _, _, _, hexec⟩ := mine_eq_ok hmine
  have hcustody := (hh.custody.exec hsender hexec).1
  cases exec_flow hh.custody.listed hsender hexec with
  -- neither the entries nor the sums of the log move
  | kept puts takes entries _ =>
      have htakes : tx.op.takesOut tx.sender h.chain.state = none := takes
      simp only [puts] at hput
      simp only [htakes] at htaken
      refine ⟨hcustody, fun p u hf => ?_, fun p u f => ?_⟩
      · rw [(entries p u).1]
        exact hh.unfunded p u ((entries p u).2 ▸ hf)
      · rw [hput, htaken, UserInfo.stakeOf, (entries p u).1, (entries p u).2]
        exact hh.entries p u f
  -- both sides of the entry's equation grow by the amount, and no other entry moves
  | @put pid amount user puts takes sender_ne funder amount_eq fundedBy others _ =>
      have htakes : tx.op.takesOut tx.sender h.chain.state = none := takes
      have hfunded : (h'.chain.state.userInfo pid user).fundedBy = tx.sender := fundedBy
      simp only [puts] at hput
      simp only [htakes] at htaken
      refine ⟨hcustody, fun p u hf => ?_, fun p u f => ?_⟩ <;>
        by_cases hhere : p = pid ∧ u = user
      · obtain ⟨rfl, rfl⟩ := hhere
        exact absurd (fundedBy.symm.trans hf) sender_ne
      · rw [others.entries p u (not_and_or.mp hhere)] at hf ⊢
        exact hh.unfunded p u hf
      · obtain ⟨rfl, rfl⟩ := hhere
        rw [hput, htaken, credit_self, hfunded,
          stakeOf_put (hh.unfunded p u) funder amount_eq hfunded, ← hh.entries p u f]
        exact (Nat.add_assoc _ _ _).symm
      · rw [hput, htaken, credit_of_ne (not_and_or.mp hhere),
          others.entries p u (not_and_or.mp hhere)]
        exact hh.entries p u f
  -- the entry falls by what the log notes as taken out by its funder
  | @took pid amount user puts takes _ funder amount_eq fundedBy others _ =>
      have htakes : tx.op.takesOut tx.sender h.chain.state = some (pid, user, amount) := takes
      have hfunder : (h.chain.state.userInfo pid user).fundedBy = tx.sender := funder
      simp only [puts] at hput
      simp only [htakes] at htaken
      refine ⟨hcustody, fun p u hf => ?_, fun p u f => ?_⟩ <;>
        by_cases hhere : p = pid ∧ u = user
      · obtain ⟨rfl, rfl⟩ := hhere
        by_contra hleft
        rw [fundedBy, funderAfter, if_neg hleft] at hf
        have hnone := hh.unfunded p u (funder.trans hf)
        omega
      · rw [others.entries p u (not_and_or.mp hhere)] at hf ⊢
        exact hh.unfunded p u hf
      · obtain ⟨rfl, rfl⟩ := hhere
        have htook := stakeOf_took hfunder amount_eq fundedBy f
        have hold := hh.entries p u f
        rw [hput, htaken, credit_self]
        omega
      · rw [hput, htaken, credit_of_ne (not_and_or.mp hhere),
          others.entries p u (not_and_or.mp hhere)]
        exact hh.entries p u f

/-- Put in and taken out balance with the stakes in every state of a run. -/
theorem balanced_inductive : custodyMachine.Inductive (fun _ _ => True) Balanced where
  init h hinit := by
    obtain ⟨hchain, hput, htaken⟩ := hinit
    have hcustody := custody_inductive.init h.chain hchain
    obtain ⟨_, _, _, _, _, _, _, _, _, _, hstate⟩ := hchain
    refine ⟨hcustody, fun p u _ => ?_, fun p u f => ?_⟩
    · rw [hstate]
      rfl
    · rw [hput, htaken, hstate]
      show 0 + (if (0 : Address) = f then 0 else 0) = 0
      split <;> rfl
  step _ _ _ hh _ hstep := hh.step hstep

/-! ## Custody over every run -/

/-- In every reachable state no two pools have the same stake token and the stakes of a
pool are backed, unless its token is HUSKY. Over every run no account takes more out of an
entry than was put in with that account recorded as funder; what is taken out is paid to
the funder, and the holding of a stake token other than HUSKY does not fall otherwise. -/
theorem custody_of_reachable :
    (∀ c, machine.Reachable c →
      (∀ p < c.state.poolLength, ∀ q < c.state.poolLength,
        (c.state.poolInfo p).stakeToken = (c.state.poolInfo q).stakeToken → p = q) ∧
      ∀ p < c.state.poolLength, (c.state.poolInfo p).stakeToken ≠ c.state.husky.here →
        ∑ u, (c.state.userInfo p u).amount ≤
          (c.state.tokens (c.state.poolInfo p).stakeToken).balanceOf c.state.here) ∧
    (∀ h, custodyMachine.Reachable h → ∀ pid user,
      (∀ funder, h.takenOut pid user funder ≤ h.putIn pid user funder) ∧
      ∑ funder, h.takenOut pid user funder ≤ ∑ funder, h.putIn pid user funder) ∧
    ∀ h tx h', custodyMachine.Reachable h → custodyMachine.step h tx = .ok h' →
      (∀ pid user amount, tx.op.takesOut tx.sender h.chain.state = some (pid, user, amount) →
        (h.chain.state.userInfo pid user).fundedBy = tx.sender ∧
        PaysStake h.chain.state h'.chain.state (h.chain.state.poolInfo pid).stakeToken
          h.chain.state.here tx.sender amount) ∧
      ∀ token, token ≠ h.chain.state.husky.here →
        (h'.chain.state.tokens token).balanceOf h.chain.state.here <
          (h.chain.state.tokens token).balanceOf h.chain.state.here →
        ∃ pid user amount,
          tx.op.takesOut tx.sender h.chain.state = some (pid, user, amount) ∧
          (h.chain.state.poolInfo pid).stakeToken = token := by
  refine ⟨fun c hreach => ?_, fun h hreach pid user => ?_, fun h tx h' hreach hstep => ?_⟩
  · have hcustody := custody_inductive.invariant hreach
    exact ⟨hcustody.distinct, hcustody.held⟩
  · have hle : ∀ funder, h.takenOut pid user funder ≤ h.putIn pid user funder := fun funder => by
      have := (balanced_inductive.invariant hreach).entries pid user funder
      omega
    exact ⟨hle, Finset.sum_le_sum fun funder _ => hle funder⟩
  · have hbalanced := balanced_inductive.invariant hreach
    obtain ⟨hsender, _, _, _, hexec⟩ := mine_eq_ok (record_eq_ok hstep).1
    have hsender : tx.sender ≠ h.chain.state.here := hsender
    cases exec_flow hbalanced.custody.listed hsender hexec with
    | kept _ takes _ tokens =>
        have htakes : tx.op.takesOut tx.sender h.chain.state = none := takes
        rw [htakes]
        refine ⟨fun _ _ _ hsome => (nomatch hsome), fun token _ hfall => ?_⟩
        exact absurd hfall (tokens token).not_gt
    -- a deposit raises the balance of its token and touches no other
    | @put pid amount user _ takes _ _ _ _ others pays =>
        have htakes : tx.op.takesOut tx.sender h.chain.state = none := takes
        rw [htakes]
        refine ⟨fun _ _ _ hsome => (nomatch hsome), fun token hhusky hfall => ?_⟩
        by_cases htoken : token = (h.chain.state.poolInfo pid).stakeToken
        · subst htoken
          have hpaid := pays hhusky h.chain.state.here
          have hself : h.chain.state.here ≠ tx.msg.sender := hsender.symm
          rw [if_neg hself, if_pos rfl] at hpaid
          omega
        · rw [others.tokens token htoken] at hfall
          exact absurd hfall (lt_irrefl _)
    -- a fall of the balance is the withdrawal's own
    | @took pid amount user _ takes _ funder _ _ others pays =>
        have htakes : tx.op.takesOut tx.sender h.chain.state = some (pid, user, amount) := takes
        rw [htakes]
        refine ⟨fun p u v hsome => ?_, fun token _ hfall => ⟨pid, user, amount, rfl, ?_⟩⟩
        · cases hsome
          exact ⟨funder, pays⟩
        · by_contra htoken
          rw [others.tokens token (Ne.symm htoken)] at hfall
          exact absurd hfall (lt_irrefl _)

/-- Account 1 stakes 10 for account 2, and takes 4 of them out. -/
theorem custody_of_partWithdrawal :
    ∃ h, custodyMachine.Reachable h ∧ h.putIn 0 2 1 = 10 ∧ h.takenOut 0 2 1 = 4 ∧
      h.takenOut 0 2 1 ≤ h.putIn 0 2 1 := by
  have hrun : custodyMachine.lastStep ⟨freshChain 1000, fun _ _ _ => 0, fun _ _ _ => 0⟩
      [⟨50, 0, .addPool 1 102 false⟩, ⟨1, 1, .deposit 2 0 10⟩] ⟨1, 2, .withdraw 2 0 4⟩
      (fun _ h => h.putIn 0 2 1 = 10 ∧ h.takenOut 0 2 1 = 4) = true := by
    decide +kernel
  obtain ⟨h₁, h, hreach, hstep, htest⟩ :=
    TSys.lastStep_reachable (M := custodyMachine) ⟨freshChain_init 1000, rfl, rfl⟩ hrun
  obtain ⟨hput, htaken⟩ := of_decide_eq_true htest
  have hreach := TSys.ReachableBy.step hreach trivial hstep
  exact ⟨h, hreach, hput, htaken, (custody_of_reachable.2.1 h hreach 0 2).1 1⟩

end Huski.FairLaunch
