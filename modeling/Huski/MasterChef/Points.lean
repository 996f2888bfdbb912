import Huski.MasterChef.Spec

/-!
# Allocation points

The total that every reward is divided by is the sum over the pools, through every order of `add`
and `set`, and the first pool has a third of the points of the others.
-/

open scoped BigOperators

namespace Huski.MasterChef

open Solidity State Ledgers

variable {n pid : Nat} {sender : Address} {tx : Tx} {s s' : State}

/-- The total is that of the pools. -/
structure Summed (s : State) : Prop where
  pools : 0 < s.poolLength
  total : s.totalAllocPoint = ∑ pid ∈ Finset.range s.poolLength, (s.poolInfo pid).allocPoint

/-- The first pool follows the others, once they have points. -/
structure Pointed (s : State) : Prop extends Summed s where
  first : s.others ≠ 0 → (s.poolInfo 0).allocPoint = s.others / 3

/-- What does not weigh leaves the points. -/
structure SamePoints (s s' : State) : Prop where
  poolLength : s'.poolLength = s.poolLength
  total : s'.totalAllocPoint = s.totalAllocPoint
  allocPoint : ∀ pid, (s'.poolInfo pid).allocPoint = (s.poolInfo pid).allocPoint

theorem SamePoints.refl : SamePoints s s := ⟨rfl, rfl, fun _ => rfl⟩

theorem SamePoints.trans {s₁ : State} (h : SamePoints s s₁) (h' : SamePoints s₁ s') :
    SamePoints s s' where
  poolLength := h'.poolLength.trans h.poolLength
  total := h'.total.trans h.total
  allocPoint pid := (h'.allocPoint pid).trans (h.allocPoint pid)

theorem SamePoints.others (h : SamePoints s s') : s'.others = s.others := by
  unfold State.others
  rw [h.poolLength]
  exact Finset.sum_congr rfl fun pid _ => h.allocPoint pid

/-- Where the weights stay, so does their balance. -/
theorem SamePoints.pointed (h : SamePoints s s') (hs : Pointed s) : Pointed s' where
  pools := by
    rw [h.poolLength]
    exact hs.pools
  total := by
    rw [h.total, h.poolLength, hs.total]
    exact Finset.sum_congr rfl fun pid _ => (h.allocPoint pid).symm
  first := by
    rw [h.others, h.allocPoint]
    exact hs.first

/-- A pool is written with the points it had. -/
theorem samePoints_setPoolInfo (pid : Nat) {pool : PoolInfo}
    (h : pool.allocPoint = (s.poolInfo pid).allocPoint) :
    SamePoints s (s.setPoolInfo pid pool) where
  poolLength := rfl
  total := rfl
  allocPoint p := by
    by_cases hp : p = pid
    · subst hp
      simp [State.setPoolInfo, h]
    · simp [State.setPoolInfo, hp]

theorem SamePoints.tokens (h : SamePoints s s') (tokens : Ledgers) :
    SamePoints s { s' with tokens } :=
  ⟨h.poolLength, h.total, h.allocPoint⟩

theorem Changes.samePoints {info : UserInfo} {out into : Flow}
    (h : Changes sender pid info out into s s') : SamePoints s s' := by
  rw [h.same]
  exact ⟨rfl, rfl, fun _ => rfl⟩

theorem Updated.samePoints (h : Updated n pid s s') : SamePoints s s' := by
  cases h with
  | current => exact .refl
  | empty => exact samePoints_setPoolInfo pid rfl
  | accrued =>
      refine SamePoints.tokens (samePoints_setPoolInfo pid ?_) _
      rfl

theorem Effects.samePoints (hweighs : ¬tx.op.weighs) (h : Effects tx s s') : SamePoints s s' := by
  induction h with
  | refl => exact .refl
  | tail _ heffect ih =>
      refine ih.trans ?_
      cases heffect with
      | updated pid hpid h => exact h.samePoints
      | appointed => exact ⟨rfl, rfl, fun _ => rfl⟩
      | added h => exact absurd h hweighs
      | weighed h => exact absurd h hweighs
      | settled pid amount _ hpid h => exact h.samePoints
      | left pid _ hpid h => exact h.samePoints
      | called => exact ⟨rfl, rfl, fun _ => rfl⟩

/-- A new weight of a pool is summed. -/
theorem Summed.weighed {allocPoint : Nat} (hs : Summed s) (hpid : pid < s.poolLength) :
    Summed (s.weighed pid allocPoint) where
  pools := hs.pools
  total := by
    have hmem := Finset.mem_range.mpr hpid
    have hsum := TotalMap.sum_update_mem s.poolInfo PoolInfo.allocPoint hmem
      { s.poolInfo pid with allocPoint }
    have hone := Finset.single_le_sum (f := fun p => (s.poolInfo p).allocPoint)
      (fun _ _ => Nat.zero_le _) hmem
    have htotal := hs.total
    show s.totalAllocPoint - (s.poolInfo pid).allocPoint + allocPoint = _
    simp only [State.weighed, State.setPoolInfo] at hsum hone ⊢
    omega

theorem Summed.added {allocPoint : Nat} {lpToken : Address} (hs : Summed s) :
    Summed (s.added n allocPoint lpToken) where
  pools := Nat.succ_pos _
  total := by
    have hold : ∀ p ∈ Finset.range s.poolLength,
        ((s.added n allocPoint lpToken).poolInfo p).allocPoint = (s.poolInfo p).allocPoint := by
      intro p hp
      simp [State.added, State.setPoolInfo, (Finset.mem_range.mp hp).ne]
    show s.totalAllocPoint + allocPoint = ∑ p ∈ Finset.range (s.poolLength + 1), _
    rw [Finset.sum_range_succ, Finset.sum_congr rfl hold, hs.total]
    simp [State.added, State.setPoolInfo]

/-- The points of the others do not depend on the first pool. -/
theorem others_weighed_zero (allocPoint : Nat) : (s.weighed 0 allocPoint).others = s.others := by
  refine Finset.sum_congr rfl ?_
  intro p hp
  have hne : p ≠ 0 := by
    have := (Finset.mem_Ico.mp hp).1
    omega
  simp [State.weighed, State.setPoolInfo, hne]

/-- The staking pool has a third of the others' weight. -/
theorem updateStakingPool_pointed (hs : Summed s) (h : updateStakingPool s = .ok s') :
    Pointed s' := by
  have hcases := updateStakingPool_eq_ok h
  split at hcases
  · rename_i hnone
    subst hcases
    exact ⟨hs, fun hsome => absurd hnone hsome⟩
  · obtain ⟨_, rfl⟩ := hcases
    refine ⟨hs.weighed hs.pools, ?_⟩
    intro _
    rw [others_weighed_zero]
    simp [State.weighed, State.setPoolInfo]

theorem updateIf_samePoints {withUpdate : Bool} (h : updateIf n withUpdate s = .ok s') :
    SamePoints s s' := by
  have heffects : Effects { sender := 0, blockNumber := n, op := .massUpdatePools } s s' :=
    updateIf_effects h
  exact heffects.samePoints id

/-- Adding a pool ends with the staking pool's weight. -/
theorem add_pointed {allocPoint : Nat} {lpToken : Address} {withUpdate : Bool} (hs : Pointed s)
    (h : add sender n allocPoint lpToken withUpdate s = .ok s') : Pointed s' := by
  obtain ⟨_, s₁, hupdate, hstaking⟩ := add_eq_ok h
  have hs₁ := (updateIf_samePoints hupdate).pointed hs
  exact updateStakingPool_pointed hs₁.toSummed.added hstaking

/-- Setting a weight ends with the staking pool's weight. -/
theorem set_pointed {allocPoint : Nat} {withUpdate : Bool} (hs : Pointed s)
    (h : set sender n pid allocPoint withUpdate s = .ok s') : Pointed s' := by
  obtain ⟨_, s₁, hupdate, hpid, hle, hrest⟩ := set_eq_ok h
  have hs₁ := (updateIf_samePoints hupdate).pointed hs
  split at hrest
  · rename_i hkept
    subst hrest
    -- the points are those that the pool had
    have hsame : SamePoints s₁ (s₁.weighed pid allocPoint) := by
      have hpool : SamePoints s₁ (s₁.setPoolInfo pid { s₁.poolInfo pid with allocPoint }) :=
        samePoints_setPoolInfo pid hkept.symm
      refine ⟨hpool.poolLength, ?_, hpool.allocPoint⟩
      show s₁.totalAllocPoint - (s₁.poolInfo pid).allocPoint + allocPoint = _
      omega
    exact hsame.pointed hs₁
  · exact updateStakingPool_pointed (hs₁.toSummed.weighed hpid) hrest

/-- The staking pool has a third of the others' weight in every state of a run. -/
theorem pointed_inductive : machine.Inductive (fun _ _ => True) Pointed where
  init s h := by
    obtain ⟨here, cake, syrup, owner, devaddr, cakePerBlock, startBlock, tokens, rfl, _⟩ := h
    refine ⟨⟨Nat.one_pos, ?_⟩, fun hsome => absurd ?_ hsome⟩
    · simp [initState]
    · simp [initState, State.others]
  step s tx s' hs _ h := by
    obtain ⟨hhere, hsyrup, hexec⟩ := step_eq_ok h
    have hquiet : ¬tx.op.weighs → (∀ pid, tx.op ≠ .migrate pid) → Pointed s' := by
      intro hweighs hop
      exact (Effects.samePoints hweighs (exec_effects hhere hsyrup hop hexec)).pointed hs
    obtain ⟨sender, n, migrator, op⟩ := tx
    cases op with
    | add allocPoint lpToken withUpdate => exact add_pointed hs hexec
    | set pid allocPoint withUpdate => exact set_pointed hs hexec
    | migrate pid =>
        obtain ⟨_, _, lpToken, tokens, _, rfl⟩ := migrate_eq_ok hexec
        have hsame : SamePoints s (s.migrated pid lpToken tokens) := by
          refine SamePoints.tokens (samePoints_setPoolInfo pid ?_) tokens
          rfl
        exact hsame.pointed hs
    | _ => exact hquiet id fun _ hop => nomatch hop

/-- In every run the points of all pools add up to the total, and the first pool has a third of
those of the others. -/
theorem totalAllocPoint_eq_sum (s : State) (hreach : machine.Reachable s) :
    s.totalAllocPoint = ∑ pid ∈ Finset.range s.poolLength, (s.poolInfo pid).allocPoint ∧
      (s.others ≠ 0 → (s.poolInfo 0).allocPoint = s.others / 3) := by
  have hs := pointed_inductive.invariant hreach
  exact ⟨hs.total, hs.first⟩

/-- A second pool is added with 600 points and set to 900. -/
theorem totalAllocPoint_eq_sum_set : ∃ s, machine.Reachable s ∧ s.totalAllocPoint = 1200 ∧
    s.totalAllocPoint = ∑ pid ∈ Finset.range s.poolLength, (s.poolInfo pid).allocPoint ∧
      (s.others ≠ 0 → (s.poolInfo 0).allocPoint = s.others / 3) := by
  have hrun : machine.lastStep (freshState 40)
      [{ sender := 103, blockNumber := 1, op := .add 600 110 false }]
      { sender := 103, blockNumber := 2, op := .set 1 900 true }
      (fun _ s => s.totalAllocPoint = 1200) = true := by
    decide +kernel
  obtain ⟨s₁, s, hreach, hstep, htotal⟩ := TSys.lastStep_reachable (freshState_init 40) hrun
  have hreach := hreach.step trivial hstep
  exact ⟨s, hreach, of_decide_eq_true htotal, totalAllocPoint_eq_sum s hreach⟩

end Huski.MasterChef
