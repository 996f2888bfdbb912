import Huski.FairLaunchV2.Model
import Huski.FairLaunch.Run

/-!
# V1 as V2 reads it

FairLaunch declares its pools with a `symbol` in front, `IFairLaunchV1` without. So the
getter's data starts with the offset of the symbol, and every member that V2 decodes is the
word of the member before: what V2 takes for `allocPoint` is the address of the stake token.
-/

namespace Huski.FairLaunchV2

open Solidity

/-- What V2 decodes of a pool of V1. -/
def decodedPool (pool : FairLaunch.PoolInfo) : IPoolInfo :=
  { stakeToken := 192
    allocPoint := pool.stakeToken.val
    lastRewardBlock := pool.allocPoint
    accHuskyPerShare := pool.lastRewardBlock
    accHuskyPerShareTilBonusEnd := pool.accHuskyPerShare }

/-- The offset of the symbol passes for an address, so that V2 decodes every pool, each
member from the place before its own. -/
theorem decodePoolInfo_members (symbol : List UInt8) (pool : FairLaunch.PoolInfo) :
    decodePoolInfo (Abi.encodeTuple (poolMembers symbol pool)) = .ok (decodedPool pool) := by
  have hword : ∀ i w, i < 5 → (Abi.encodeTuple (poolMembers symbol pool))[i]? = some w →
      ((Abi.encodeTuple (poolMembers symbol pool)).take 5).getD i 0 = w :=
    fun i w hi h => Abi.getD_take_encodeTuple hi h
  have h₀ := hword 0 192 (by decide) Abi.encodeTuple_bytes
  have hmember : ∀ i w, i < 5 → (poolMembers symbol pool)[i]? = some (.word w) →
      ((Abi.encodeTuple (poolMembers symbol pool)).take 5).getD i 0 = w :=
    fun i w hi h => hword i w hi (Abi.encodeTuple_word h)
  have h₁ := hmember 1 _ (by decide) rfl
  have h₂ := hmember 2 _ (by decide) rfl
  have h₃ := hmember 3 _ (by decide) rfl
  have h₄ := hmember 4 _ (by decide) rfl
  have hle : 5 ≤ (poolMembers symbol pool).length := Nat.le_succ 5
  rw [decodePoolInfo, Abi.decodeWords_encodeTuple hle]
  simp only [h₀, h₁, h₂, h₃, h₄, bind, Except.bind, require]
  rfl

/-! ## The rate -/

/-- `h * points / total`, which reverts when the product overflows and without a total. -/
def rate (h points total : Nat) : Result Nat := do
  let product ← SafeMath.mul h points
  divide product total

/-- The rate of V1 that belongs to the master pool: `huskyPerBlock` by the weight of the
pool. -/
def masterRate (masterPid : Nat) (v1 : FairLaunch.State) : Result Nat := do
  let pool ← v1.poolAt masterPid
  rate v1.huskyPerBlock pool.allocPoint v1.totalAllocPoint

/-- V2 takes the address of the dummy token for the weight of its pool. -/
theorem huskyPerBlock_eq (s : State) : huskyPerBlock s = (do
    let pool ← s.fairLaunchV1.poolAt s.masterPid
    rate s.fairLaunchV1.huskyPerBlock pool.stakeToken.val s.fairLaunchV1.totalAllocPoint) := by
  unfold huskyPerBlock poolInfoGetter
  cases hpool : s.fairLaunchV1.poolAt s.masterPid with
  | error e => rfl
  | ok pool =>
      show (do
        let pool ← decodePoolInfo (Abi.encodeTuple (poolMembers (s.symbols s.masterPid) pool))
        let product ← SafeMath.mul s.fairLaunchV1.huskyPerBlock pool.allocPoint
        divide product s.fairLaunchV1.totalAllocPoint) = _
      rw [decodePoolInfo_members]
      rfl

theorem rate_toOption (h points total : Nat) : (rate h points total).toOption =
    if h * points < wordSize ∧ total ≠ 0 then some (h * points / total) else none := by
  unfold rate SafeMath.mul divide require
  by_cases hword : h * points < wordSize <;> by_cases htotal : total = 0 <;>
    simp [hword, htotal, bind, Except.bind, pure, Except.pure, Except.toOption]

/-- The address of the dummy token and the weight of its pool give the same rate. -/
def SameRate (masterPid : Nat) (v1 : FairLaunch.State) : Prop :=
  v1.poolLength ≤ masterPid ∨ v1.totalAllocPoint = 0 ∨
    let byAddress := v1.huskyPerBlock * (v1.poolInfo masterPid).stakeToken.val
    let byPoints := v1.huskyPerBlock * (v1.poolInfo masterPid).allocPoint
    (wordSize ≤ byAddress ∧ wordSize ≤ byPoints) ∨
      (byAddress < wordSize ∧ byPoints < wordSize ∧
        byAddress / v1.totalAllocPoint = byPoints / v1.totalAllocPoint)

/-- V2's rate is the rate of its master pool exactly when the dummy token's address and the
pool's weight, each by `huskyPerBlock` and over `totalAllocPoint`, come to the same. -/
theorem huskyPerBlock_eq_masterRate_iff (s : State) :
    (huskyPerBlock s).toOption = (masterRate s.masterPid s.fairLaunchV1).toOption ↔
      SameRate s.masterPid s.fairLaunchV1 := by
  rw [huskyPerBlock_eq, masterRate]
  unfold SameRate
  rcases Nat.lt_or_ge s.masterPid s.fairLaunchV1.poolLength with hpid | hpid
  · have hpool : s.fairLaunchV1.poolAt s.masterPid =
        .ok (s.fairLaunchV1.poolInfo s.masterPid) := if_pos hpid
    rw [hpool]
    show (rate _ _ _).toOption = (rate _ _ _).toOption ↔ _
    rw [rate_toOption, rate_toOption]
    by_cases htotal : s.fairLaunchV1.totalAllocPoint = 0
    · simp [htotal]
    · simp only [htotal, ne_eq, not_false_eq_true, and_true, hpid.not_ge, false_or]
      split <;> split <;> rename_i haddress hpoints
      · simp [haddress, hpoints]
      · simp [haddress, hpoints]
      · simp [haddress, hpoints]
      · simp [haddress, hpoints, Nat.le_of_not_lt haddress, Nat.le_of_not_lt hpoints]
  · have hpool : s.fairLaunchV1.poolAt s.masterPid = .error "" := if_neg hpid.not_gt
    rw [hpool]
    exact ⟨fun _ => .inl hpid, fun _ => rfl⟩

/-- A single pool with one point earns the whole rate of 1000; V2 reads 102000, as its dummy
token is at address 102. -/
theorem huskyPerBlock_ne_masterRate :
    ∃ s : State, (∃ c, FairLaunch.machine.Reachable c ∧ s.fairLaunchV1 = c.state) ∧
      (masterRate s.masterPid s.fairLaunchV1).toOption = some 1000 ∧
      (huskyPerBlock s).toOption = some 102000 ∧
      (huskyPerBlock s).toOption ≠ (masterRate s.masterPid s.fairLaunchV1).toOption := by
  have hrun : FairLaunch.machine.lastStep (FairLaunch.freshChain 1000) []
      ⟨50, 0, .addPool 1 102 false⟩ (fun _ c => (masterRate 0 c.state).toOption = some 1000 ∧
        (huskyPerBlock (initState 200 1 c.state (fun _ => []) (fun _ => noLocker) 0)).toOption =
          some 102000) = true := by
    decide +kernel
  obtain ⟨c₁, c, hreach, hstep, htest⟩ :=
    TSys.lastStep_reachable (FairLaunch.freshChain_init 1000) hrun
  obtain ⟨hmaster, hread⟩ := of_decide_eq_true htest
  have hreach := TSys.ReachableBy.step hreach trivial hstep
  refine ⟨initState 200 1 c.state (fun _ => []) (fun _ => noLocker) 0, ⟨c, hreach, rfl⟩,
    hmaster, hread, ?_⟩
  rw [hread]
  show some 102000 ≠ (masterRate 0 c.state).toOption
  rw [hmaster]
  decide

end Huski.FairLaunchV2
