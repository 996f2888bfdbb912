import Huski.FairLaunchV2.Spec

/-!
# Runs of FairLaunchV2

The transition system of FairLaunchV2 over FairLaunch. A label is one transaction, of V2,
of V1 or of a token. V2 is deployed over V1 in any state that V1 reaches, and every
account but the two contracts themselves may send any transaction.
-/

namespace Huski.FairLaunchV2

open Solidity State

structure Chain where
  block : Nat
  state : State

structure Tx where
  sender : Address
  blockNumber : Nat
  op : Op

def Tx.msg (tx : Tx) : FairLaunch.Msg := { sender := tx.sender, blockNumber := tx.blockNumber }

/-- One transaction. Neither contract contains a call of its own entry points. -/
def mine (c : Chain) (tx : Tx) : Result Chain := do
  require (tx.sender ≠ c.state.here) ""
  require (tx.sender ≠ c.state.fairLaunchV1.here) ""
  require (c.block ≤ tx.blockNumber) ""
  require (tx.blockNumber < 2 ^ 64) ""
  let state ← exec tx.msg tx.op c.state
  return { block := tx.blockNumber, state }

/-- It starts beside a first FairLaunch in any reachable state. -/
def machine : TSys Chain Tx where
  init c := ∃ here owner v1 symbols lockerAt masterPid,
    FairLaunch.machine.Reachable { block := c.block, state := v1 } ∧ here ≠ v1.here ∧
    c.state = initState here owner v1 symbols lockerAt masterPid
  step := mine

/-- Neither contract calls, and blocks do not go back. -/
theorem mine_eq_ok {c c' : Chain} {tx : Tx} (h : mine c tx = .ok c') :
    tx.sender ≠ c.state.here ∧ tx.sender ≠ c.state.fairLaunchV1.here ∧ c.block ≤ tx.blockNumber ∧
      c'.block = tx.blockNumber ∧ exec tx.msg tx.op c.state = .ok c'.state := by
  simp only [mine, bind_eq_ok, require_eq_ok, pure_eq_ok] at h
  obtain ⟨_, hsender, _, hv1, _, hblock, _, _, state, hexec, rfl⟩ := h
  exact ⟨hsender, hv1, hblock, rfl, hexec⟩

/-- A token of which accounts 1 to 3 hold 1000 each, all approved to V2. -/
def heldToken : StakeToken :=
  .erc20
    { balanceOf := fun account => if account = 1 ∨ account = 2 ∨ account = 3 then 1000 else 0
      allowance := fun _ spender => if spender = 200 then maxWord else 0
      totalSupply := 3000 }

/-- FairLaunch just deployed by account 50, over such tokens. -/
def freshV1 (huskyPerBlock : Nat) : FairLaunch.State :=
  FairLaunch.initState 100 50 FairLaunch.freshHusky (fun _ => heldToken) 51 huskyPerBlock 0 0 0

/-- V2 at address 200, deployed over it by account 1, its master pool to be the first pool
of V1. -/
def freshChain (huskyPerBlock : Nat) : Chain :=
  { block := 0
    state := initState 200 1 (freshV1 huskyPerBlock) (fun _ => []) (fun _ => noLocker) 0 }

theorem freshChain_init (huskyPerBlock : Nat) : machine.init (freshChain huskyPerBlock) := by
  refine ⟨200, 1, freshV1 huskyPerBlock, fun _ => [], fun _ => noLocker, 0, .init ?_, ?_, rfl⟩
  · exact ⟨100, 50, FairLaunch.freshHusky, fun _ => heldToken, 51, huskyPerBlock, 0, 0, 0, rfl, rfl⟩
  · show (200 : Address) ≠ 100
    decide

/-! ## Properties of the pools and their entries -/

/-- `U` holds of the state before each of the updates of a loop. -/
def UpdatesAlong (U : State → Nat → Prop) (n : Nat) : List Nat → State → Prop
  | [], _ => True
  | pid :: rest, s => U s pid ∧ ∀ s', updatePool n pid s = .ok s' → UpdatesAlong U n rest s'

theorem updatesAlong_true (n : Nat) (pids : List Nat) (s : State) :
    UpdatesAlong (fun _ _ => True) n pids s := by
  induction pids generalizing s with
  | nil => trivial
  | cons _ _ ih => exact ⟨trivial, fun s' _ => ih s'⟩

/-- `U` holds of the state before each update of a pool, `W` of a re-weighing and `A` of
what is done to an entry, both in the updated state. -/
structure Conditions where
  U : State → Nat → Prop := fun _ _ => True
  W : State → Nat → Nat → Prop := fun _ _ _ => True
  A : State → Nat → Address → Action → Prop := fun _ _ _ _ => True

/-- The conditions hold of the parts of a call. -/
def Conditions.Meet (K : Conditions) (msg : FairLaunch.Msg) : Op → State → Prop
  | .massUpdatePools pids, s => UpdatesAlong K.U msg.blockNumber pids s
  | .updatePool pid, s => K.U s pid
  | .harvest pid, s => K.U s pid ∧ ∀ s₁, updatePool msg.blockNumber pid s = .ok s₁ →
      K.A s₁ pid msg.sender .harvest
  | .setPool pid allocPoint _ _, s => K.U s pid ∧
      ∀ s₁, updatePool msg.blockNumber pid s = .ok s₁ → K.W s₁ pid allocPoint
  | .deposit user pid amount, s => ∀ s₁, harvestFromFairLaunchV1 msg.blockNumber s = .ok s₁ →
      K.U s₁ pid ∧ ∀ s₂, updatePool msg.blockNumber pid s₁ = .ok s₂ →
        K.A s₂ pid user (.deposit amount)
  | .withdraw user pid amount, s => K.U s pid ∧
      ∀ s₁, updatePool msg.blockNumber pid s = .ok s₁ → K.A s₁ pid user (.withdraw amount)
  | .emergencyWithdraw pid _, s => K.A s pid msg.sender .emergencyWithdraw
  | _, _ => True

/-- What is preserved by the parts that calls consist of. -/
structure CallRule (K : Conditions) (msg : FairLaunch.Msg) (P : State → Prop) : Prop where
  same : ∀ t t', P t → SameStakes t t' → P t'
  updated : ∀ t t' pid, P t → pid < t.poolLength → K.U t pid →
    Updated msg.blockNumber pid t t' → P t'
  added : ∀ t allocPoint stakeToken locker startBlock, P t →
    P (t.added msg.blockNumber allocPoint stakeToken locker startBlock)
  weighed : ∀ t pid allocPoint lockers, P t → K.W t pid allocPoint → pid < t.poolLength →
    msg.blockNumber ≤ (t.poolInfo pid).lastRewardBlock →
    (t.poolInfo pid).allocPoint ≤ t.totalAllocPoint → P (t.weighed pid allocPoint lockers)
  acts : ∀ t t' pid user action, P t → K.A t pid user action →
    Acts msg.sender pid user action t t' → P t'

variable {K : Conditions} {msg : FairLaunch.Msg} {P : State → Prop} {s s' : State}

/-- What each update keeps, the updates of a list of pools keep. -/
theorem CallRule.along (rule : CallRule K msg P) {pids : List Nat}
    (hU : UpdatesAlong K.U msg.blockNumber pids s) (hs : P s)
    (h : massUpdatePools msg.blockNumber pids s = .ok s') : P s' := by
  unfold FairLaunchV2.massUpdatePools at h
  induction pids generalizing s with
  | nil =>
      simp only [List.foldlM_nil, pure_eq_ok] at h
      exact h ▸ hs
  | cons pid rest ih =>
      simp only [List.foldlM_cons, bind_eq_ok] at h
      obtain ⟨s₁, hfirst, hrest⟩ := h
      obtain ⟨hpid, hupdated⟩ := updatePool_eq_ok hfirst
      exact ih (hU.2 s₁ hfirst) (rule.updated _ _ _ hs hpid hU.1 hupdated) hrest

/-- A property that the parts preserve, every call preserves. -/
theorem CallRule.exec {op : Op} (rule : CallRule K msg P) (hK : K.Meet msg op s) (hs : P s)
    (h : exec msg op s = .ok s') : P s' := by
  cases op with
  | init dummyToken =>
      simp only [FairLaunchV2.exec, FairLaunchV2.init, bind_eq_ok] at h
      -- the initial deposit into V1 touches neither the pools nor the entries of V2
      obtain ⟨_, _, s₁, hmove, s₂, happrove, hdeposit⟩ := h
      have hsame := ((sameStakes_safeTransferFrom hmove).trans
        (sameStakes_safeApprove happrove)).trans (sameStakes_onV1 hdeposit)
      exact rule.same _ _ hs ⟨⟨hsame.here, hsame.masterPid, hsame.poolLength, hsame.poolInfo,
        hsame.stakeTokens, hsame.totalAllocPoint, hsame.accruals⟩, hsame.userInfo⟩
  | addPool allocPoint stakeToken locker startBlock =>
      obtain rfl := addPool_eq_ok h
      exact rule.added _ _ _ _ _ hs
  | setPool pid allocPoint locker overwrite =>
      obtain ⟨s₁, lockers, hupdate, hpid, hle, rfl⟩ := setPool_eq_ok h
      obtain ⟨hlisted, hupdated⟩ := updatePool_eq_ok hupdate
      -- the pool is settled first, and then weighed
      exact rule.weighed _ _ _ _ (rule.updated _ _ _ hs hlisted hK.1 hupdated) (hK.2 s₁ hupdate)
        hpid hupdated.settled hle
  | transferOwnership newOwner =>
      simp only [FairLaunchV2.exec, transferOwnership, bind_eq_ok, pure_eq_ok] at h
      obtain ⟨_, _, _, _, rfl⟩ := h
      exact rule.same _ _ hs ⟨⟨rfl, rfl, rfl, rfl, rfl, rfl, rfl⟩, rfl⟩
  | renounceOwnership =>
      simp only [FairLaunchV2.exec, renounceOwnership, bind_eq_ok, pure_eq_ok] at h
      obtain ⟨_, _, rfl⟩ := h
      exact rule.same _ _ hs ⟨⟨rfl, rfl, rfl, rfl, rfl, rfl, rfl⟩, rfl⟩
  | massUpdatePools pids => exact rule.along hK hs h
  | updatePool pid =>
      obtain ⟨hpid, hupdated⟩ := updatePool_eq_ok h
      exact rule.updated _ _ _ hs hpid hK hupdated
  | deposit user pid amount =>
      obtain ⟨s₁, s₂, hhook, hupdate, hacts⟩ := deposit_eq_ok h
      obtain ⟨hpid, hupdated⟩ := updatePool_eq_ok hupdate
      obtain ⟨hU, hA⟩ := hK s₁ hhook
      have hs₁ := rule.same _ _ hs (sameStakes_of_hook hhook)
      exact rule.acts _ _ _ _ _ (rule.updated _ _ _ hs₁ hpid hU hupdated) (hA s₂ hupdate) hacts
  | withdraw user pid amount =>
      obtain ⟨s₁, hupdate, hacts⟩ := withdraw_eq_ok h
      obtain ⟨hpid, hupdated⟩ := updatePool_eq_ok hupdate
      exact rule.acts _ _ _ _ _ (rule.updated _ _ _ hs hpid hK.1 hupdated) (hK.2 s₁ hupdate) hacts
  | harvest pid =>
      obtain ⟨s₁, hupdate, hacts⟩ := harvest_eq_ok h
      obtain ⟨hpid, hupdated⟩ := updatePool_eq_ok hupdate
      exact rule.acts _ _ _ _ _ (rule.updated _ _ _ hs hpid hK.1 hupdated) (hK.2 s₁ hupdate) hacts
  | emergencyWithdraw pid recipient =>
      exact rule.acts _ _ _ _ _ hs hK (emergencyWithdraw_eq_ok h)
  | v1 op => exact rule.same _ _ hs (sameStakes_onV1 h)

end Huski.FairLaunchV2
