import Huski.FairLaunch.StakeFlow
import Huski.FairLaunchV2.Run

/-!
# The funder of an entry

Both contracts clear the funder of an entry with its stake, and both record the sender of a
deposit as funder whatever the deposit puts in. So a funder without stake is what a deposit
of nothing for an account without stake leaves, and nothing else.
-/

open Solidity

namespace Huski.FairLaunch

/-- A deposit puts something in, or its beneficiary has stake already. -/
def PutsStake (c : Chain) (tx : Tx) : Prop :=
  match tx.op with
  | .deposit user pid amount => amount ≠ 0 ∨ (c.state.userInfo pid user).amount ≠ 0
  | _ => True

/-- An entry has a funder exactly when it has stake. -/
def Funded (s : State) : Prop :=
  ∀ pid user, (s.userInfo pid user).fundedBy ≠ 0 ↔ (s.userInfo pid user).amount ≠ 0

theorem putsStake_of_putsIn {c : Chain} {tx : Tx} {pid amount : Nat} {user : Address}
    (hputs : tx.op.putsIn = some (pid, user, amount)) :
    PutsStake c tx ↔ amount ≠ 0 ∨ (c.state.userInfo pid user).amount ≠ 0 := by
  obtain ⟨sender, n, op⟩ := tx
  cases op with
  | deposit u p a =>
      cases hputs
      exact Iff.rfl
  | _ => cases hputs

theorem funded_inductive :
    machine.Inductive PutsStake (fun c => Custody c.state ∧ Funded c.state) where
  init c hinit := by
    refine ⟨custody_inductive.init c hinit, fun pid user => ?_⟩
    obtain ⟨_, _, _, _, _, _, _, _, _, _, hstate⟩ := hinit
    rw [hstate]
    exact ⟨fun h => absurd rfl h, fun h => absurd rfl h⟩
  step c tx c' hc hputs hstep := by
    obtain ⟨hcustody, hfunded⟩ := hc
    obtain ⟨hsender, _, _, _, hexec⟩ := mine_eq_ok hstep
    refine ⟨(hcustody.exec hsender hexec).1, fun p u => ?_⟩
    cases exec_flow hcustody.listed hsender hexec with
    | kept _ _ entries _ =>
        rw [(entries p u).1, (entries p u).2]
        exact hfunded p u
    -- a positive deposit makes its sender the funder of a positive stake
    | @put pid amount user puts _ sender_ne _ amount_eq fundedBy others _ =>
        by_cases hhere : p = pid ∧ u = user
        · obtain ⟨rfl, rfl⟩ := hhere
          have hputs := (putsStake_of_putsIn puts).mp hputs
          rw [fundedBy, amount_eq]
          exact ⟨fun _ => by omega, fun _ => sender_ne⟩
        · rw [others.entries p u (not_and_or.mp hhere)]
          exact hfunded p u
    -- the funder is cleared exactly when nothing is left
    | @took pid amount user _ _ _ funder amount_eq fundedBy others _ =>
        by_cases hhere : p = pid ∧ u = user
        · obtain ⟨rfl, rfl⟩ := hhere
          have hbefore := hfunded p u
          rw [funder] at hbefore
          rw [fundedBy, funderAfter]
          split
          · rename_i hnone
            exact ⟨fun h => absurd rfl h, fun h => absurd hnone h⟩
          · rename_i hleft
            exact ⟨fun _ => hleft, fun _ => hbefore.mpr (by omega)⟩
        · rw [others.entries p u (not_and_or.mp hhere)]
          exact hfunded p u

/-- A deposit leaves its entry with a funder, and so with stake as well exactly if it puts
something in or the entry had stake. -/
theorem deposit_funded_iff {c c' : Chain} {sender user : Address} {n pid amount : Nat}
    (hstep : machine.step c ⟨sender, n, .deposit user pid amount⟩ = .ok c') :
    ((c'.state.userInfo pid user).fundedBy ≠ 0 ↔ (c'.state.userInfo pid user).amount ≠ 0) ↔
      PutsStake c ⟨sender, n, .deposit user pid amount⟩ := by
  obtain ⟨_, _, _, _, hexec⟩ := mine_eq_ok hstep
  cases deposit_flow hexec with
  | kept puts _ _ _ => cases puts
  | put puts _ sender_ne _ amount_eq fundedBy _ _ =>
      cases puts
      rw [fundedBy, amount_eq]
      show _ ↔ amount ≠ 0 ∨ (c.state.userInfo pid user).amount ≠ 0
      refine ⟨fun h => ?_, fun h => ⟨fun _ => by omega, fun _ => sender_ne⟩⟩
      have hstake := h.mp sender_ne
      omega
  | took puts _ _ _ _ _ _ _ => cases puts

end Huski.FairLaunch

namespace Huski.FairLaunchV2

open State

/-- A deposit puts something in, or its beneficiary has stake already. -/
def PutsStake (c : Chain) (tx : Tx) : Prop :=
  match tx.op with
  | .deposit user pid amount => amount ≠ 0 ∨ (c.state.userInfo pid user).amount ≠ 0
  | _ => True

/-- An entry has a funder exactly when it has stake. -/
def Funded (s : State) : Prop :=
  ∀ pid user, (s.userInfo pid user).fundedBy ≠ 0 ↔ (s.userInfo pid user).amount ≠ 0

/-- The same of what is done to an entry in the updated state. -/
def PutsInto (s : State) (pid : Nat) (user : Address) : Action → Prop
  | .deposit amount => amount ≠ 0 ∨ (s.userInfo pid user).amount ≠ 0
  | _ => True

section Funded

variable {msg : FairLaunch.Msg} {s s' : State} {pid : Nat} {user : Address} {action : Action}

/-- What is written to an entry has a funder exactly when it has stake. -/
theorem Writes.funded {info : UserInfo} (h : Writes msg.sender s pid user action info)
    (hbefore : (s.userInfo pid user).fundedBy ≠ 0 ↔ (s.userInfo pid user).amount ≠ 0)
    (hputs : PutsInto s pid user action) : info.fundedBy ≠ 0 ↔ info.amount ≠ 0 := by
  cases h with
  | @deposit amount sender_ne _ =>
      have hputs : amount ≠ 0 ∨ (s.userInfo pid user).amount ≠ 0 := hputs
      exact ⟨fun _ => by dsimp only; omega, fun _ => sender_ne⟩
  | @withdraw amount funder _ =>
      rw [funder] at hbefore
      dsimp only
      split
      · rename_i hnone
        exact ⟨fun h => absurd rfl h, fun h => absurd hnone h⟩
      · rename_i hleft
        exact ⟨fun _ => hleft, fun _ => hbefore.mpr (by omega)⟩
  | harvest => exact hbefore
  | emergencyWithdraw _ _ => exact ⟨fun h => absurd rfl h, fun h => absurd rfl h⟩

theorem funded_rule (msg : FairLaunch.Msg) : CallRule { A := PutsInto } msg Funded where
  same t t' ht hsame := by
    unfold Funded
    rw [hsame.userInfo]
    exact ht
  updated t t' _ ht _ _ hupdated := by
    unfold Funded
    rw [hupdated.userInfo]
    exact ht
  added _ _ _ _ _ ht := ht
  weighed _ _ _ _ ht _ _ _ _ := ht
  acts t t' pid user action ht hputs hacts := by
    intro p u
    obtain ⟨info, hwrites, huser⟩ := hacts.writes
    rw [huser]
    by_cases hhere : p = pid ∧ u = user
    · obtain ⟨rfl, rfl⟩ := hhere
      rw [userInfo_setUserInfo]
      exact hwrites.funded (ht p u) hputs
    · rw [userInfo_setUserInfo_of_ne (not_and_or.mp hhere)]
      exact ht p u

end Funded

/-- The hook and the update before a deposit leave the entries, so that the condition may be
read before them. -/
theorem PutsStake.meet {c : Chain} {tx : Tx} (h : PutsStake c tx) :
    ({ A := PutsInto } : Conditions).Meet tx.msg tx.op c.state := by
  obtain ⟨sender, n, op⟩ := tx
  cases op with
  | deposit user pid amount =>
      intro s₁ hhook
      refine ⟨trivial, fun s₂ hupdate => ?_⟩
      have huser : s₂.userInfo = c.state.userInfo :=
        (updatePool_eq_ok hupdate).2.userInfo.trans (sameStakes_of_hook hhook).userInfo
      show amount ≠ 0 ∨ (s₂.userInfo pid user).amount ≠ 0
      rw [huser]
      exact h
  | massUpdatePools pids => exact updatesAlong_true _ _ _
  | withdraw => exact ⟨trivial, fun _ _ => trivial⟩
  | harvest => exact ⟨trivial, fun _ _ => trivial⟩
  | setPool => exact ⟨trivial, fun _ _ => trivial⟩
  | _ => trivial

theorem funded_inductive : machine.Inductive PutsStake (fun c => Funded c.state) where
  init c hinit := by
    obtain ⟨_, _, _, _, _, _, _, _, hstate⟩ := hinit
    rw [hstate]
    exact fun _ _ => ⟨fun h => absurd rfl h, fun h => absurd rfl h⟩
  step c tx c' hc hputs hstep := by
    obtain ⟨_, _, _, _, hexec⟩ := mine_eq_ok hstep
    exact (funded_rule tx.msg).exec hputs.meet hc hexec

/-- A deposit leaves its entry with a funder, and so with stake as well exactly if it puts
something in or the entry had stake. -/
theorem deposit_funded_iff {c c' : Chain} {sender user : Address} {n pid amount : Nat}
    (hstep : machine.step c ⟨sender, n, .deposit user pid amount⟩ = .ok c') :
    ((c'.state.userInfo pid user).fundedBy ≠ 0 ↔ (c'.state.userInfo pid user).amount ≠ 0) ↔
      PutsStake c ⟨sender, n, .deposit user pid amount⟩ := by
  obtain ⟨_, _, _, _, hexec⟩ := mine_eq_ok hstep
  obtain ⟨s₁, s₂, hhook, hupdate, hacts⟩ := deposit_eq_ok hexec
  obtain ⟨info, hwrites, huser⟩ := hacts.writes
  have hentry : s₂.userInfo = c.state.userInfo :=
    (updatePool_eq_ok hupdate).2.userInfo.trans (sameStakes_of_hook hhook).userInfo
  rw [huser, userInfo_setUserInfo]
  cases hwrites with
  | deposit sender_ne _ =>
      rw [hentry]
      show _ ↔ amount ≠ 0 ∨ (c.state.userInfo pid user).amount ≠ 0
      refine ⟨fun h => ?_, fun h => ⟨fun _ => by dsimp only; omega, fun _ => sender_ne⟩⟩
      have hstake := h.mp sender_ne
      dsimp only at hstake
      omega

/-! ## Funders over every run -/

/-- In every run of FairLaunch, and in every run of FairLaunchV2, whose deposits put
something in or are for accounts with stake, the entries with a funder are those with
stake; and a deposit of any run leaves its entry so exactly if it is such a deposit. -/
theorem funded_of_putsStake (c₁ : FairLaunch.Chain) (c₂ : Chain) :
    (FairLaunch.machine.ReachableBy FairLaunch.PutsStake c₁ → FairLaunch.Funded c₁.state) ∧
    (machine.ReachableBy PutsStake c₂ → Funded c₂.state) ∧
    (∀ c' sender n user pid amount, FairLaunch.machine.Reachable c₁ →
      FairLaunch.machine.step c₁ ⟨sender, n, .deposit user pid amount⟩ = .ok c' →
      (((c'.state.userInfo pid user).fundedBy ≠ 0 ↔ (c'.state.userInfo pid user).amount ≠ 0) ↔
        FairLaunch.PutsStake c₁ ⟨sender, n, .deposit user pid amount⟩)) ∧
    ∀ c' sender n user pid amount, machine.Reachable c₂ →
      machine.step c₂ ⟨sender, n, .deposit user pid amount⟩ = .ok c' →
      (((c'.state.userInfo pid user).fundedBy ≠ 0 ↔ (c'.state.userInfo pid user).amount ≠ 0) ↔
        PutsStake c₂ ⟨sender, n, .deposit user pid amount⟩) :=
  ⟨fun hreach => (FairLaunch.funded_inductive.invariant hreach).2,
    fun hreach => funded_inductive.invariant hreach,
    fun _ _ _ _ _ _ _ hstep => FairLaunch.deposit_funded_iff hstep,
    fun _ _ _ _ _ _ _ hstep => deposit_funded_iff hstep⟩

/-- Account 1 stakes 10 for account 2 in both contracts; account 2 has a funder then, and
account 3 has none. -/
theorem funded_of_deposit :
    (∃ c, FairLaunch.machine.Reachable c ∧ (c.state.userInfo 0 2).amount = 10 ∧
      FairLaunch.Funded c.state) ∧
    ∃ c, machine.Reachable c ∧ (c.state.userInfo 0 2).amount = 10 ∧ Funded c.state := by
  refine ⟨?_, ?_⟩
  -- V1
  · have hrun : FairLaunch.machine.lastStep (FairLaunch.freshChain 1000)
        [⟨50, 0, .addPool 1 102 false⟩] ⟨1, 1, .deposit 2 0 10⟩
        (fun _ c => (c.state.userInfo 0 2).amount = 10) = true := by
      decide +kernel
    have hputs : ∀ c, FairLaunch.PutsStake c ⟨1, 1, .deposit 2 0 10⟩ := fun _ => .inl (by decide)
    have hok : ∀ τ, ∀ tx ∈ [(⟨50, 0, .addPool 1 102 false⟩ : FairLaunch.Tx)],
        FairLaunch.PutsStake τ tx := by
      intro τ tx htx
      obtain rfl := List.mem_singleton.mp htx
      trivial
    obtain ⟨c₁, c, hreach, hstep, htest⟩ :=
      TSys.lastStep_reachableBy (FairLaunch.freshChain_init 1000) hok hrun
    have hreach := TSys.ReachableBy.step hreach (hputs c₁) hstep
    exact ⟨c, hreach.reachable, of_decide_eq_true htest,
      (funded_of_putsStake c (freshChain 1000)).1 hreach⟩
  -- V2
  · have hrun : machine.lastStep (freshChain 1000)
        [⟨50, 0, .v1 (.addPool 102 102 false)⟩, ⟨1, 0, .init 102⟩, ⟨1, 0, .addPool 1 103 0 0⟩]
        ⟨1, 1, .deposit 2 0 10⟩ (fun _ c => (c.state.userInfo 0 2).amount = 10) = true := by
      decide +kernel
    have hputs : ∀ c, PutsStake c ⟨1, 1, .deposit 2 0 10⟩ := fun _ => .inl (by decide)
    have hok : ∀ τ, ∀ tx ∈ [(⟨50, 0, .v1 (.addPool 102 102 false)⟩ : Tx), ⟨1, 0, .init 102⟩,
        ⟨1, 0, .addPool 1 103 0 0⟩], PutsStake τ tx := by
      intro τ tx htx
      simp only [List.mem_cons, List.not_mem_nil, or_false] at htx
      rcases htx with rfl | rfl | rfl <;> trivial
    obtain ⟨c₁, c, hreach, hstep, htest⟩ :=
      TSys.lastStep_reachableBy (freshChain_init 1000) hok hrun
    have hreach := TSys.ReachableBy.step hreach (hputs c₁) hstep
    exact ⟨c, hreach.reachable, of_decide_eq_true htest,
      (funded_of_putsStake (FairLaunch.freshChain 1000) c).2.1 hreach⟩

/-- In both contracts account 3 deposits nothing for account 2, which from then on cannot
put in stake of its own. -/
theorem emptyDeposit_blocks :
    (∃ c, FairLaunch.machine.Reachable c ∧ (c.state.userInfo 0 2).amount = 0 ∧
      (c.state.userInfo 0 2).fundedBy = 3 ∧
      FairLaunch.mine c ⟨2, 2, .deposit 2 0 5⟩ = .error "bad sof" ∧
      ¬ FairLaunch.Funded c.state) ∧
    ∃ c, machine.Reachable c ∧ (c.state.userInfo 0 2).amount = 0 ∧
      (c.state.userInfo 0 2).fundedBy = 3 ∧
      mine c ⟨2, 2, .deposit 2 0 5⟩ = .error "FairLaunchV2::deposit: bad sof" ∧
      ¬ Funded c.state := by
  refine ⟨?_, ?_⟩
  -- V1: a deposit of zero names its sender as the funder of nothing
  · have hrun : FairLaunch.machine.lastStep (FairLaunch.freshChain 1000)
        [⟨50, 0, .addPool 1 102 false⟩] ⟨3, 1, .deposit 2 0 0⟩
        (fun _ c => (c.state.userInfo 0 2).amount = 0 ∧ (c.state.userInfo 0 2).fundedBy = 3 ∧
          failsWith "bad sof" (FairLaunch.mine c ⟨2, 2, .deposit 2 0 5⟩) = true) = true := by
      decide +kernel
    obtain ⟨c₁, c, hreach, hstep, htest⟩ :=
      TSys.lastStep_reachable (FairLaunch.freshChain_init 1000) hrun
    obtain ⟨hamount, hfunder, hfails⟩ := of_decide_eq_true htest
    refine ⟨c, .step hreach trivial hstep, hamount, hfunder, eq_error_of_failsWith hfails,
      fun hfunded => (hfunded 0 2).mp ?_ hamount⟩
    rw [hfunder]
    decide
  -- V2 does the same
  · have hrun : machine.lastStep (freshChain 1000)
        [⟨50, 0, .v1 (.addPool 102 102 false)⟩, ⟨1, 0, .init 102⟩, ⟨1, 0, .addPool 1 103 0 0⟩]
        ⟨3, 1, .deposit 2 0 0⟩
        (fun _ c => (c.state.userInfo 0 2).amount = 0 ∧ (c.state.userInfo 0 2).fundedBy = 3 ∧
          failsWith "FairLaunchV2::deposit: bad sof" (mine c ⟨2, 2, .deposit 2 0 5⟩) = true) =
            true := by
      decide +kernel
    obtain ⟨c₁, c, hreach, hstep, htest⟩ := TSys.lastStep_reachable (freshChain_init 1000) hrun
    obtain ⟨hamount, hfunder, hfails⟩ := of_decide_eq_true htest
    refine ⟨c, .step hreach trivial hstep, hamount, hfunder, eq_error_of_failsWith hfails,
      fun hfunded => (hfunded 0 2).mp ?_ hamount⟩
    rw [hfunder]
    decide

end Huski.FairLaunchV2
