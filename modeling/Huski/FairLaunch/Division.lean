import Huski.FairLaunch.Emission
import Huski.FairLaunch.Reverts

/-!
# The division by `totalAllocPoint`

An update divides by the total weight of all pools, and guards only against a pool without
stake. Without any weight a pool that is behind and holds stake cannot be updated, so
nobody can settle in it, and `setPool`, which updates all pools first, cannot give it a
weight again.
-/

namespace Huski.FairLaunch

open Solidity State

/-- The message of `SafeMath.div`. -/
def divisionByZero : String := "SafeMath: division by zero"

/-- At block `n` nothing divides by zero: the updates, the view, and the settlements and
re-weightings of any sender. -/
structure NeverDividesByZero (n : Nat) (c : Chain) : Prop where
  updatePool : ∀ pid, updatePool n pid c.state ≠ .error divisionByZero
  massUpdatePools : massUpdatePools n c.state ≠ .error divisionByZero
  pendingHusky : ∀ pid user, pendingHusky n pid user c.state ≠ .error divisionByZero
  settles : ∀ tx : Tx, tx.blockNumber = n → (tx.op.settles tx.sender).isSome = true →
    mine c tx ≠ .error divisionByZero
  setPool : ∀ sender pid allocPoint,
    mine c ⟨sender, n, .setPool pid allocPoint⟩ ≠ .error divisionByZero

/-- There is a weight to divide by, or no pool whose update would divide. -/
def Divisible (n : Nat) (s : State) : Prop :=
  s.totalAllocPoint ≠ 0 ∨ ∀ pid < s.poolLength, ¬ s.divides n pid

section Safe

variable {n pid : Nat} {s s' : State}

theorem blocking_divisionByZero : Blocking divisionByZero := .inr (.inr rfl)

theorem updatePool_not_divisionByZero (hs : Divisible n s) :
    updatePool n pid s ≠ .error divisionByZero := by
  rcases Nat.lt_or_ge pid s.poolLength with hpid | hpid
  · refine updatePool_ne_error blocking_divisionByZero ⟨fun heq => absurd heq (by decide), ?_⟩
    exact fun _ hdivides => hs.elim id fun hnone => absurd hdivides (hnone pid hpid)
  · simp [updatePool, State.poolAt, hpid.not_gt, bind, Except.bind, divisionByZero]

/-- An update leaves weight where there was some, and nothing to divide where there was
nothing. -/
theorem Divisible.updated (hs : Divisible n s) (h : Updated n pid s s') : Divisible n s' := by
  rcases hs with htotal | hnone
  · exact .inl (by rwa [h.totalAllocPoint])
  · cases h with
    | current _ => exact .inr hnone
    | accrued haccrues => exact .inl haccrues.total
    | empty _ _ =>
        refine .inr fun p hp hdivides => hnone p hp ?_
        by_cases hpp : p = pid
        · subst hpp
          have hlt := hdivides.1
          simp [State.setPoolInfo] at hlt
        · simpa [State.divides, State.setPoolInfo, hpp, State.stakeBalance, getMultiplier]
            using hdivides

theorem massUpdatePools_not_divisionByZero (hs : Divisible n s) :
    massUpdatePools n s ≠ .error divisionByZero := by
  unfold FairLaunch.massUpdatePools
  refine foldlM_ne_error (P := Divisible n) (fun t p t' ht h => ?_) (fun t p ht => ?_) hs
  · exact ht.updated (updatePool_eq_ok h).2
  · exact updatePool_not_divisionByZero ht

theorem pendingHusky_not_divisionByZero {user : Address} (hs : Divisible n s) :
    pendingHusky n pid user s ≠ .error divisionByZero := by
  have he := blocking_divisionByZero
  refine bind_ne_error (poolAt_ne_error he) fun pool hpool => ?_
  obtain ⟨hpid, rfl⟩ := poolAt_eq_ok hpool
  dsimp only
  split
  · rename_i hdue
    refine bind_ne_error (getMultiplier_ne_error he) fun m hm => ?_
    refine bind_ne_error (huskyReward_ne_error he fun _ hword => ?_) fun reward _ => ?_
    · exact hs.elim id fun hnone => absurd ⟨hdue.1, hdue.2, m, hm, hword⟩ (hnone pid hpid)
    · exact bind_ne_error (addPerShare_ne_error he hdue.2) fun _ _ => earned_ne_error he
  · exact bind_ne_error ok_ne_error fun _ _ => earned_ne_error he

theorem setPool_not_divisionByZero {msg : Msg} {allocPoint : Nat}
    (hs : Divisible msg.blockNumber s) :
    setPool msg pid allocPoint s ≠ .error divisionByZero := by
  have he := blocking_divisionByZero
  refine bind_ne_error (require_ne_error he (by simp [Blocking])) fun _ _ => ?_
  refine bind_ne_error (massUpdatePools_not_divisionByZero hs) fun _ _ => ?_
  refine bind_ne_error (poolAt_ne_error he) fun _ _ => ?_
  refine bind_ne_error (sub_ne_error he) fun _ _ => ?_
  exact bind_ne_error (add_ne_error he) fun _ _ => ok_ne_error

theorem neverDividesByZero_of_divisible {c : Chain} (hs : Divisible n c.state) :
    NeverDividesByZero n c where
  updatePool _ := updatePool_not_divisionByZero hs
  massUpdatePools := massUpdatePools_not_divisionByZero hs
  pendingHusky _ _ := pendingHusky_not_divisionByZero hs
  settles tx hn hop := by
    obtain ⟨⟨p, user⟩, hop⟩ := Option.isSome_iff_exists.mp hop
    refine mine_settles_ne_error blocking_divisionByZero hop ?_ fun _ _ _ => ?_
    · rw [hn]
      exact updatePool_not_divisionByZero hs
    · exact ⟨fun heq => absurd heq (by decide), fun heq => absurd heq (by decide)⟩
  setPool sender p allocPoint := by
    have he := blocking_divisionByZero
    refine bind_ne_error (require_ne_error he (by simp [Blocking])) fun _ _ => ?_
    refine bind_ne_error (require_ne_error he (by simp [Blocking])) fun _ _ => ?_
    refine bind_ne_error (require_ne_error he (by simp [Blocking])) fun _ _ => ?_
    exact bind_ne_error (setPool_not_divisionByZero hs) fun _ _ => ok_ne_error

/-- Without weight, an update that gets to the division fails in it. -/
theorem updatePool_divisionByZero (haccounted : Accounted s) (htotal : s.totalAllocPoint = 0)
    (hpid : pid < s.poolLength) (hdivides : s.divides n pid) :
    updatePool n pid s = .error divisionByZero := by
  obtain ⟨hbehind, hstaked, m, hm, hword⟩ := hdivides
  -- a total of zero is a sum of zeros
  have hpoints : (s.poolInfo pid).allocPoint = 0 :=
    (poolSum_eq_zero _).mp (haccounted.symm.trans htotal) pid hpid
  have hreward : huskyReward (s.poolInfo pid) m s = .error divisionByZero := by
    refine bind_eq_error.mpr (.inr ⟨_, SafeMath.mul_eq_ok.mpr ⟨hword, rfl⟩, ?_⟩)
    refine bind_eq_error.mpr (.inr ⟨0, SafeMath.mul_eq_ok.mpr ?_, ?_⟩)
    · simp [hpoints, wordSize]
    · exact SafeMath.div_eq_error.mpr ⟨htotal, rfl⟩
  have haccrue : accruePool n pid (s.poolInfo pid)
      (s.stakeBalance (s.poolInfo pid).stakeToken) s = .error divisionByZero := by
    simp only [accruePool, hm, hreward, bind, Except.bind]
  simp only [updatePool, State.poolAt, hpid, if_true, bind, Except.bind,
    if_neg hbehind.not_ge, if_neg hstaked]
  exact haccrue

end Safe

/-! ## Exactly when nothing divides by zero -/

/-- There is no pool yet, or there is a weight. -/
def Weighted (s : State) : Prop := s.poolLength = 0 ∨ s.totalAllocPoint ≠ 0

/-- The calls that set weights leave some. -/
def KeepsWeight (c : Chain) (tx : Tx) : Prop :=
  match tx.op with
  | .addPool allocPoint _ _ => c.state.totalAllocPoint + allocPoint ≠ 0
  | .setPool pid allocPoint =>
      c.state.totalAllocPoint - (c.state.poolInfo pid).allocPoint + allocPoint ≠ 0
  | _ => True

theorem Weighted.divisible {n : Nat} {s : State} (hs : Weighted s) : Divisible n s := by
  refine hs.symm.imp id fun hnone pid hpid => ?_
  rw [hnone] at hpid
  exact absurd hpid (Nat.not_lt_zero pid)

/-- The loop over the pools keeps the weights. -/
theorem massUpdatePools_weights {n : Nat} {s s' : State} (h : massUpdatePools n s = .ok s') :
    s'.totalAllocPoint = s.totalAllocPoint ∧
      ∀ p, (s'.poolInfo p).allocPoint = (s.poolInfo p).allocPoint :=
  massUpdatePools_induct (P := fun t => t.totalAllocPoint = s.totalAllocPoint ∧
      ∀ p, (t.poolInfo p).allocPoint = (s.poolInfo p).allocPoint) h ⟨rfl, fun _ => rfl⟩
    fun _ _ _ ht _ hupdated => ⟨hupdated.totalAllocPoint.trans ht.1,
      fun p => (hupdated.allocPoint p).trans (ht.2 p)⟩

/-- Where the pools are as many and weigh as much, there is still a weight. -/
theorem Weighted.same {s s' : State} (hs : Weighted s) (hlength : s'.poolLength = s.poolLength)
    (htotal : s'.totalAllocPoint = s.totalAllocPoint) : Weighted s' := by
  unfold Weighted
  rwa [hlength, htotal]

theorem Weighted.settled {msg : Msg} {n pid amount : Nat} {user : Address} {s s₁ s' : State}
    (hs : Weighted s) (hupdated : Updated n pid s s₁) (h : Settles msg pid user s₁ amount s') :
    Weighted s' :=
  hs.same (h.samePools.poolLength.trans hupdated.poolLength)
    (h.samePools.totalAllocPoint.trans hupdated.totalAllocPoint)

/-- A run that keeps the weights never loses them all. -/
theorem weighted_inductive : machine.Inductive KeepsWeight (fun c => Weighted c.state) where
  init c h := by
    obtain ⟨_, _, _, _, _, _, _, _, _, _, h⟩ := h
    rw [h]
    exact .inl rfl
  step c tx c' hc hkeeps h := by
    obtain ⟨_, _, _, _, hexec⟩ := mine_eq_ok h
    obtain ⟨sender, n, op⟩ := tx
    cases op with
    -- the two calls that set weights are those the condition is about
    | addPool allocPoint stakeToken withUpdate =>
        obtain ⟨_, _, s₁, hupdate, _, hstate⟩ := addPool_eq_ok hexec
        have htotal : s₁.totalAllocPoint = c.state.totalAllocPoint := by
          cases withUpdate with
          | true => exact (massUpdatePools_weights hupdate).1
          | false => cases hupdate; rfl
        refine .inr ?_
        rw [hstate]
        show s₁.totalAllocPoint + allocPoint ≠ 0
        rw [htotal]
        exact hkeeps
    | setPool pid allocPoint =>
        obtain ⟨s₁, hupdate, _, _, hstate⟩ := setPool_eq_ok hexec
        obtain ⟨htotal, hpoints⟩ := massUpdatePools_weights hupdate
        refine .inr ?_
        rw [hstate]
        show s₁.totalAllocPoint - (s₁.poolInfo pid).allocPoint + allocPoint ≠ 0
        rw [htotal, hpoints]
        exact hkeeps
    | updatePool pid =>
        have hupdated := (updatePool_eq_ok hexec).2
        exact hc.same hupdated.poolLength hupdated.totalAllocPoint
    | massUpdatePools =>
        exact hc.same (poolLength_massUpdatePools hexec) (massUpdatePools_weights hexec).1
    | deposit user pid amount =>
        obtain ⟨_, s₁, hupdate, hsettles⟩ := deposit_settles hexec
        exact hc.settled (updatePool_eq_ok hupdate).2 hsettles
    | withdraw user pid amount =>
        obtain ⟨_, s₁, hupdate, hsettles⟩ := withdraw_settles hexec
        exact hc.settled (updatePool_eq_ok hupdate).2 hsettles
    | withdrawAll user pid =>
        obtain ⟨_, s₁, hupdate, hsettles⟩ := withdraw_settles hexec
        exact hc.settled (updatePool_eq_ok hupdate).2 hsettles
    | harvest pid =>
        obtain ⟨_, s₁, hupdate, hsettles⟩ := harvest_settles hexec
        exact hc.settled (updatePool_eq_ok hupdate).2 hsettles
    | emergencyWithdraw pid =>
        obtain ⟨_, _, husky, tokens, _, hstate⟩ := emergencyWithdraw_eq_ok hexec
        rw [hstate]
        exact hc
    | _ =>
        have hpools := (exec_quiet rfl hexec).1.toSamePools
        exact hc.same hpools.poolLength hpools.totalAllocPoint

/-- In a reachable state nothing divides by zero at block `n` exactly when there is a
weight, or no pool that is behind, holds stake and would come to the division; and while
every `addPool` and `setPool` leaves some weight nothing ever divides by zero. -/
theorem neverDividesByZero_iff (c : Chain) (n : Nat) :
    (machine.Reachable c → (NeverDividesByZero n c ↔ Divisible n c.state)) ∧
    (machine.ReachableBy KeepsWeight c → NeverDividesByZero n c) := by
  refine ⟨fun hreach => ⟨fun h => ?_, neverDividesByZero_of_divisible⟩, fun hreach => ?_⟩
  · by_contra hnot
    obtain ⟨htotal, hsome⟩ := not_or.mp hnot
    simp only [not_forall, not_not] at htotal hsome
    obtain ⟨pid, hpid, hdivides⟩ := hsome
    have haccounted := accounted_inductive.invariant hreach
    exact h.updatePool pid (updatePool_divisionByZero haccounted htotal hpid hdivides)
  · exact neverDividesByZero_of_divisible (weighted_inductive.invariant hreach).divisible

/-- A pool with one point and a staker. -/
theorem neverDividesByZero_iff_onePool :
    ∃ c, machine.Reachable c ∧ (c.state.userInfo 0 1).amount = 10 ∧ NeverDividesByZero 2 c := by
  have hrun : machine.lastStep (freshChain 1000) [⟨50, 0, .addPool 1 102 false⟩]
      ⟨1, 1, .deposit 1 0 10⟩ (fun _ c => c.state.totalAllocPoint = 1 ∧
        (c.state.userInfo 0 1).amount = 10) = true := by
    decide +kernel
  obtain ⟨c₁, c, hreach, hstep, htest⟩ := TSys.lastStep_reachable (freshChain_init 1000) hrun
  obtain ⟨htotal, hstake⟩ := of_decide_eq_true htest
  have hreach := TSys.ReachableBy.step hreach trivial hstep
  refine ⟨c, hreach, hstake, ((neverDividesByZero_iff c 2).1 hreach).mpr (.inl ?_)⟩
  rw [htotal]
  decide

/-- The owner takes the weight off the only pool: its staker cannot withdraw, and the
owner cannot give the weight back. -/
theorem setPool_zero_blocks :
    ∃ c, machine.Reachable c ∧ (c.state.userInfo 0 1).amount = 10 ∧
      updatePool 3 0 c.state = .error divisionByZero ∧
      mine c ⟨1, 3, .withdrawAll 1 0⟩ = .error divisionByZero ∧
      mine c ⟨50, 3, .setPool 0 1⟩ = .error divisionByZero ∧ ¬ NeverDividesByZero 3 c := by
  have hrun : machine.lastStep (freshChain 1000)
      [⟨50, 0, .addPool 1 102 false⟩, ⟨1, 1, .deposit 1 0 10⟩]
      ⟨50, 2, .setPool 0 0⟩ (fun _ c => (c.state.userInfo 0 1).amount = 10 ∧
        failsWith divisionByZero (updatePool 3 0 c.state) = true ∧
        failsWith divisionByZero (mine c ⟨1, 3, .withdrawAll 1 0⟩) = true ∧
        failsWith divisionByZero (mine c ⟨50, 3, .setPool 0 1⟩) = true) = true := by
    decide +kernel
  obtain ⟨c₁, c, hreach, hstep, htest⟩ := TSys.lastStep_reachable (freshChain_init 1000) hrun
  obtain ⟨hstake, hupdate, hwithdraw, hset⟩ := of_decide_eq_true htest
  have hreach := TSys.ReachableBy.step hreach trivial hstep
  have hupdate := eq_error_of_failsWith hupdate
  exact ⟨c, hreach, hstake, hupdate, eq_error_of_failsWith hwithdraw,
    eq_error_of_failsWith hset, fun h => h.updatePool 0 hupdate⟩

end Huski.FairLaunch
