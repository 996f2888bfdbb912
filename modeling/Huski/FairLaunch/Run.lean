import Huski.FairLaunch.Spec
import Huski.Lib.TSys

/-!
# Runs of FairLaunch

The transition system of FairLaunch over HUSKY, which it owns, and the stake tokens. A
label is one transaction: its sender, its block and an entry point, or a movement of
tokens outside FairLaunch. Blocks do not go back, and their numbers fit 64 bits.
-/

namespace Huski.FairLaunch

open Solidity State

structure Chain where
  block : Nat
  state : State

structure Tx where
  sender : Address
  blockNumber : Nat
  op : Op

/-- What the contract sees of a transaction. -/
def Tx.msg (tx : Tx) : Msg := { sender := tx.sender, blockNumber := tx.blockNumber }

/-- One transaction. FairLaunch contains no call of itself, so it is never the sender. -/
def mine (c : Chain) (tx : Tx) : Result Chain := do
  require (tx.sender ≠ c.state.here) ""
  require (c.block ≤ tx.blockNumber) ""
  require (tx.blockNumber < 2 ^ 64) ""
  let state ← exec tx.msg tx.op c.state
  return { block := tx.blockNumber, state }

/-- FairLaunch from its deployment over any tokens, as the owner of HUSKY. -/
def machine : TSys Chain Tx where
  init c := ∃ here owner husky tokens devaddr huskyPerBlock startBlock bps bonusEndBlock,
    husky.owner = here ∧
    c.state = initState here owner husky tokens devaddr huskyPerBlock startBlock bps bonusEndBlock
  step := mine

/-- Blocks do not go back, fit their word, and this contract does not call itself. -/
theorem mine_eq_ok {c c' : Chain} {tx : Tx} (h : mine c tx = .ok c') :
    tx.sender ≠ c.state.here ∧ c.block ≤ tx.blockNumber ∧ tx.blockNumber < 2 ^ 64 ∧
      c'.block = tx.blockNumber ∧ exec tx.msg tx.op c.state = .ok c'.state := by
  simp only [mine, bind_eq_ok, require_eq_ok, pure_eq_ok] at h
  obtain ⟨_, hsender, _, hblock, _, hword, state, hexec, rfl⟩ := h
  exact ⟨hsender, hblock, hword, rfl, hexec⟩

/-- A call that goes through is mined. -/
theorem mine_of_exec {c : Chain} {tx : Tx} {s : State} (hsender : tx.sender ≠ c.state.here)
    (hblock : c.block ≤ tx.blockNumber) (hword : tx.blockNumber < 2 ^ 64)
    (hexec : exec tx.msg tx.op c.state = .ok s) :
    mine c tx = .ok { block := tx.blockNumber, state := s } := by
  simp only [mine, bind_eq_ok, require_eq_ok, pure_eq_ok]
  exact ⟨(), hsender, (), hblock, (), hword, s, hexec, rfl⟩

/-! ## A deployment -/

/-- HUSKY at address 101, owned by FairLaunch at 100. -/
def freshHusky : HuskyToken :=
  { here := 101, owner := 100, erc20 := {}, totalLock := 0, startReleaseBlock := 0,
    endReleaseBlock := 0, manualMinted := 0, locks := fun _ => 0, lastUnlockBlock := fun _ => 0,
    delegates := fun _ => 0, checkpoints := fun _ _ => {}, numCheckpoints := fun _ => 0 }

/-- A token of which accounts 1 to 3 hold 1000 each, all approved to FairLaunch. -/
def heldToken : StakeToken :=
  .erc20
    { balanceOf := fun account => if account = 1 ∨ account = 2 ∨ account = 3 then 1000 else 0
      allowance := fun _ spender => if spender = 100 then maxWord else 0
      totalSupply := 3000 }

/-- FairLaunch just deployed by account 50 with `devaddr` 51 and no bonus. -/
def freshChain (huskyPerBlock : Nat) : Chain :=
  { block := 0
    state := initState 100 50 freshHusky (fun _ => heldToken) 51 huskyPerBlock 0 0 0 }

theorem freshChain_init (huskyPerBlock : Nat) : machine.init (freshChain huskyPerBlock) :=
  ⟨100, 50, freshHusky, fun _ => heldToken, 51, huskyPerBlock, 0, 0, 0, rfl, rfl⟩

/-! ## Calls that touch no pool and no user -/

/-- The pools and what was accrued are the same. -/
structure SamePools (s s' : State) : Prop where
  poolLength : s'.poolLength = s.poolLength
  poolInfo : s'.poolInfo = s.poolInfo
  totalAllocPoint : s'.totalAllocPoint = s.totalAllocPoint
  accruals : s'.accruals = s.accruals

/-- The pools and the users are the same. -/
structure SameStakes (s s' : State) : Prop extends SamePools s s' where
  here : s'.here = s.here
  userInfo : s'.userInfo = s.userInfo
  settledAt : s'.settledAt = s.settledAt

theorem SameStakes.trans {a b c : State} (hab : SameStakes a b) (hbc : SameStakes b c) :
    SameStakes a c where
  poolLength := hbc.poolLength.trans hab.poolLength
  poolInfo := hbc.poolInfo.trans hab.poolInfo
  totalAllocPoint := hbc.totalAllocPoint.trans hab.totalAllocPoint
  accruals := hbc.accruals.trans hab.accruals
  here := hbc.here.trans hab.here
  userInfo := hbc.userInfo.trans hab.userInfo
  settledAt := hbc.settledAt.trans hab.settledAt

/-- The operations on parameters, roles and tokens. -/
def Op.quiet : Op → Bool
  | .addPool .. | .setPool .. | .updatePool .. | .massUpdatePools | .deposit .. | .withdraw ..
  | .withdrawAll .. | .harvest .. | .emergencyWithdraw .. => false
  | _ => true

/-- The operations on the parameters of the emission. -/
def Op.setsRewards : Op → Bool
  | .setHuskyPerBlock .. | .setBonus .. => true
  | _ => false

/-- The parameters of the emission are the same. -/
structure SameRewards (s s' : State) : Prop where
  huskyPerBlock : s'.huskyPerBlock = s.huskyPerBlock
  bonusMultiplier : s'.bonusMultiplier = s.bonusMultiplier
  bonusEndBlock : s'.bonusEndBlock = s.bonusEndBlock

theorem SameRewards.trans {a b c : State} (hab : SameRewards a b) (hbc : SameRewards b c) :
    SameRewards a c :=
  ⟨hbc.huskyPerBlock.trans hab.huskyPerBlock, hbc.bonusMultiplier.trans hab.bonusMultiplier,
    hbc.bonusEndBlock.trans hab.bonusEndBlock⟩

section Quiet

variable {msg : Msg} {n : Nat} {s s' : State}

theorem onHusky_sameStakes {f : HuskyToken → Result HuskyToken} (h : s.onHusky f = .ok s') :
    SameStakes s s' ∧ SameRewards s s' := by
  obtain ⟨husky, _, rfl⟩ := onHusky_eq_ok h
  exact ⟨⟨⟨rfl, rfl, rfl, rfl⟩, rfl, rfl, rfl⟩, ⟨rfl, rfl, rfl⟩⟩

theorem safeHuskyTransfer_sameStakes {recipient : Address} {amount : Nat}
    (h : safeHuskyTransfer n recipient amount s = .ok s') :
    SameStakes s s' ∧ SameRewards s s' := by
  simp only [safeHuskyTransfer] at h
  split at h <;> exact onHusky_sameStakes h

theorem onToken_sameStakes {token : Address} {f : StakeToken → Result StakeToken}
    (h : onToken token f s = .ok s') : SameStakes s s' ∧ SameRewards s s' := by
  simp only [onToken, bind_eq_ok, pure_eq_ok] at h
  obtain ⟨t, _, rfl⟩ := h
  exact ⟨⟨⟨rfl, rfl, rfl, rfl⟩, rfl, rfl, rfl⟩, ⟨rfl, rfl, rfl⟩⟩

/-- A quiet call touches no stake, and only the setters touch the rewards' terms. -/
theorem exec_quiet {op : Op} (hquiet : op.quiet = true) (h : exec msg op s = .ok s') :
    SameStakes s s' ∧ (op.setsRewards = false → SameRewards s s') := by
  cases op with
  | addPool | setPool | updatePool | massUpdatePools | deposit | withdraw | withdrawAll
  | harvest | emergencyWithdraw => cases hquiet
  | setDev | setBadgeRelayer | setBadgePoints | renounceOwnership =>
      simp only [exec, setDev, setBadgeRelayer, setBadgePoints, renounceOwnership, bind_eq_ok,
        pure_eq_ok] at h
      obtain ⟨_, _, rfl⟩ := h
      exact ⟨⟨⟨rfl, rfl, rfl, rfl⟩, rfl, rfl, rfl⟩, fun _ => ⟨rfl, rfl, rfl⟩⟩
  -- the two setters of the rewards' terms
  | setHuskyPerBlock =>
      simp only [exec, setHuskyPerBlock, bind_eq_ok, pure_eq_ok] at h
      obtain ⟨_, _, rfl⟩ := h
      exact ⟨⟨⟨rfl, rfl, rfl, rfl⟩, rfl, rfl, rfl⟩, fun hsets => by cases hsets⟩
  | setBonus =>
      simp only [exec, setBonus, bind_eq_ok, pure_eq_ok] at h
      obtain ⟨_, _, _, _, _, _, rfl⟩ := h
      exact ⟨⟨⟨rfl, rfl, rfl, rfl⟩, rfl, rfl, rfl⟩, fun hsets => by cases hsets⟩
  | transferOwnership =>
      simp only [exec, transferOwnership, bind_eq_ok, pure_eq_ok] at h
      obtain ⟨_, _, _, _, rfl⟩ := h
      exact ⟨⟨⟨rfl, rfl, rfl, rfl⟩, rfl, rfl, rfl⟩, fun _ => ⟨rfl, rfl, rfl⟩⟩
  | manualMint =>
      simp only [exec, manualMint, bind_eq_ok] at h
      obtain ⟨_, _, h⟩ := h
      obtain ⟨hstakes, hrewards⟩ := onHusky_sameStakes h
      exact ⟨hstakes, fun _ => hrewards⟩
  | lockToOwner =>
      simp only [exec, lockToOwner, bind_eq_ok] at h
      obtain ⟨_, _, h⟩ := h
      obtain ⟨hstakes, hrewards⟩ := onHusky_sameStakes h
      exact ⟨hstakes, fun _ => hrewards⟩
  | unlockFromOwner =>
      simp only [exec, unlockFromOwner, bind_eq_ok] at h
      obtain ⟨_, _, s₁, h₁, _, _, h₂⟩ := h
      obtain ⟨hstakes₁, hrewards₁⟩ := safeHuskyTransfer_sameStakes h₁
      obtain ⟨hstakes₂, hrewards₂⟩ := safeHuskyTransfer_sameStakes h₂
      exact ⟨hstakes₁.trans hstakes₂, fun _ => hrewards₁.trans hrewards₂⟩
  | huskyTransfer | huskyApprove =>
      obtain ⟨hstakes, hrewards⟩ := onHusky_sameStakes h
      exact ⟨hstakes, fun _ => hrewards⟩
  | tokenTransfer | tokenApprove =>
      obtain ⟨hstakes, hrewards⟩ := onToken_sameStakes h
      exact ⟨hstakes, fun _ => hrewards⟩
  | setPrices =>
      cases h
      exact ⟨⟨⟨rfl, rfl, rfl, rfl⟩, rfl, rfl, rfl⟩, fun _ => ⟨rfl, rfl, rfl⟩⟩

/-- The releases of badge tokens, which pay HUSKY of FairLaunch. -/
def Op.releases : Op → Bool
  | .unlockFromOwner .. => true
  | _ => false

/-- FairLaunch has not lost tokens, other than HUSKY if it `pays`. -/
structure KeepsFunds (pays : Bool) (s s' : State) : Prop where
  here : s'.here = s.here
  husky_here : s'.husky.here = s.husky.here
  husky : pays = false → s.husky.balanceOf s.here ≤ s'.husky.balanceOf s.here
  tokens : ∀ token, (s.tokens token).balanceOf s.here ≤ (s'.tokens token).balanceOf s.here

/-- A call of HUSKY that takes nothing from this contract keeps its funds. -/
theorem onHusky_keepsFunds {pays : Bool} {f : HuskyToken → Result HuskyToken}
    (h : s.onHusky f = .ok s') (hf : ∀ husky, f s.husky = .ok husky → husky.here = s.husky.here ∧
      (pays = false → s.husky.balanceOf s.here ≤ husky.balanceOf s.here)) :
    KeepsFunds pays s s' := by
  obtain ⟨husky, hcall, rfl⟩ := onHusky_eq_ok h
  obtain ⟨hhere, hle⟩ := hf husky hcall
  exact ⟨rfl, hhere, hle, fun _ => le_rfl⟩

theorem safeHuskyTransfer_keepsFunds {recipient : Address} {amount : Nat}
    (h : safeHuskyTransfer n recipient amount s = .ok s') : KeepsFunds true s s' := by
  simp only [safeHuskyTransfer] at h
  split at h <;>
    exact onHusky_keepsFunds h fun husky hcall =>
      ⟨(HuskyToken.transfer_eq_ok hcall).2.1, fun hpays => nomatch hpays⟩

/-- A call of a stake token that takes nothing from this contract keeps its funds. -/
theorem onToken_keepsFunds {token : Address} {f : StakeToken → Result StakeToken}
    (h : onToken token f s = .ok s')
    (hf : ∀ t, f (s.tokens token) = .ok t →
      (s.tokens token).balanceOf s.here ≤ t.balanceOf s.here) : KeepsFunds false s s' := by
  simp only [onToken, bind_eq_ok, pure_eq_ok] at h
  obtain ⟨t, hcall, rfl⟩ := h
  refine ⟨rfl, rfl, fun _ => le_rfl, fun token' => ?_⟩
  by_cases htoken : token' = token
  · subst htoken
    simpa [State.setToken] using hf t hcall
  · simp [State.setToken, htoken]

/-- Nobody but FairLaunch moves its tokens. -/
theorem exec_quiet_keepsFunds {op : Op} (hquiet : op.quiet = true)
    (hsender : msg.sender ≠ s.here) (h : exec msg op s = .ok s') :
    KeepsFunds op.releases s s' := by
  have hsame : ∀ {s' : State} {pays : Bool}, s'.here = s.here → s'.husky = s.husky →
      s'.tokens = s.tokens → KeepsFunds pays s s' := by
    intro s' pays hhere hhusky htokens
    refine ⟨hhere, ?_, fun _ => ?_, fun token => ?_⟩
    · rw [hhusky]
    · rw [hhusky]
    · rw [htokens]
  cases op with
  | addPool | setPool | updatePool | massUpdatePools | deposit | withdraw | withdrawAll
  | harvest | emergencyWithdraw => cases hquiet
  | unlockFromOwner =>
      simp only [exec, unlockFromOwner, bind_eq_ok] at h
      obtain ⟨_, _, s₁, h₁, _, _, h₂⟩ := h
      have hfirst := safeHuskyTransfer_keepsFunds h₁
      have hsecond := safeHuskyTransfer_keepsFunds h₂
      refine ⟨hsecond.here.trans hfirst.here, hsecond.husky_here.trans hfirst.husky_here,
        (fun hpays => nomatch hpays), fun token => (hfirst.tokens token).trans ?_⟩
      rw [← hfirst.here]
      exact hsecond.tokens token
  | setDev | setBadgeRelayer | setBadgePoints | setHuskyPerBlock | renounceOwnership =>
      simp only [exec, setDev, setBadgeRelayer, setBadgePoints, setHuskyPerBlock,
        renounceOwnership, bind_eq_ok, pure_eq_ok] at h
      obtain ⟨_, _, rfl⟩ := h
      exact hsame rfl rfl rfl
  | setBonus =>
      simp only [exec, setBonus, bind_eq_ok, pure_eq_ok] at h
      obtain ⟨_, _, _, _, _, _, rfl⟩ := h
      exact hsame rfl rfl rfl
  | transferOwnership =>
      simp only [exec, transferOwnership, bind_eq_ok, pure_eq_ok] at h
      obtain ⟨_, _, _, _, rfl⟩ := h
      exact hsame rfl rfl rfl
  | setPrices =>
      cases h
      exact hsame rfl rfl rfl
  | manualMint =>
      simp only [exec, manualMint, bind_eq_ok] at h
      obtain ⟨_, _, h⟩ := h
      refine onHusky_keepsFunds h fun husky hcall => ?_
      obtain ⟨_, hhere, _, hbal⟩ := HuskyToken.manualMint_eq_ok hcall
      have := hbal s.here
      exact ⟨hhere, fun _ => by omega⟩
  | lockToOwner account amount =>
      simp only [exec, lockToOwner, bind_eq_ok] at h
      obtain ⟨_, _, h⟩ := h
      refine onHusky_keepsFunds h fun husky hcall => ?_
      obtain ⟨_, hhere, _, howner, hbal⟩ := HuskyToken.lockToOwner_eq_ok hcall
      -- the tokens go to the owner of HUSKY, which is FairLaunch
      have := hbal s.here
      rw [if_pos howner.symm] at this
      refine ⟨hhere, fun _ => ?_⟩
      split at this <;> omega
  | huskyTransfer recipient amount =>
      refine onHusky_keepsFunds h fun husky hcall => ?_
      obtain ⟨_, hhere, _, _, hbal⟩ := HuskyToken.transfer_eq_ok hcall
      have := hbal s.here
      rw [if_neg hsender.symm] at this
      exact ⟨hhere, fun _ => by omega⟩
  | huskyApprove spender amount =>
      refine onHusky_keepsFunds h fun husky hcall => ?_
      obtain ⟨_, hhere, _, hbal⟩ := HuskyToken.approve_eq_ok hcall
      exact ⟨hhere, fun _ => (hbal s.here).ge⟩
  | tokenTransfer token recipient amount =>
      refine onToken_keepsFunds h fun t hcall => ?_
      have := StakeToken.balanceOf_transfer hcall s.here
      rw [if_neg hsender.symm] at this
      omega
  | tokenApprove token spender amount =>
      refine onToken_keepsFunds h fun t hcall => ?_
      exact (congrFun (StakeToken.balanceOf_approve hcall) s.here).ge

/-- A settlement touches no pool. -/
theorem Settles.samePools {pid amount : Nat} {user : Address}
    (h : Settles msg pid user s amount s') : SamePools s s' := by
  cases h with
  | deposit _ harvested _ => cases harvested <;> exact ⟨rfl, rfl, rfl, rfl⟩
  | withdraw _ _ _ _ _ _ _ => exact ⟨rfl, rfl, rfl, rfl⟩
  | harvest _ _ => exact ⟨rfl, rfl, rfl, rfl⟩

theorem Settles.sameRewards {pid amount : Nat} {user : Address}
    (h : Settles msg pid user s amount s') : SameRewards s s' := by
  cases h with
  | deposit _ harvested _ => cases harvested <;> exact ⟨rfl, rfl, rfl⟩
  | withdraw _ _ _ _ _ _ _ => exact ⟨rfl, rfl, rfl⟩
  | harvest _ _ => exact ⟨rfl, rfl, rfl⟩

end Quiet

/-! ## Properties of the pools and their users -/

section Rules

variable {msg : Msg} {n : Nat} {s s' : State}

/-- `U` holds of the state before each of the updates of a loop. -/
def UpdatesAlong (U : State → Nat → Prop) (n : Nat) : List Nat → State → Prop
  | [], _ => True
  | pid :: rest, s => U s pid ∧ ∀ s', updatePool n pid s = .ok s' → UpdatesAlong U n rest s'

/-- `U` holds of the state before each update of a pool that a call makes. -/
def UpdatesMeet (U : State → Nat → Prop) (n : Nat) : Op → State → Prop
  | .addPool _ _ true, s | .setPool .., s | .massUpdatePools, s =>
      UpdatesAlong U n (List.range s.poolLength) s
  | .updatePool pid, s | .deposit _ pid _, s | .withdraw _ pid _, s | .withdrawAll _ pid, s
  | .harvest pid, s => U s pid
  | _, _ => True

theorem updatesAlong_true (n : Nat) (pids : List Nat) (s : State) :
    UpdatesAlong (fun _ _ => True) n pids s := by
  induction pids generalizing s with
  | nil => trivial
  | cons pid rest ih => exact ⟨trivial, fun s' _ => ih s'⟩

theorem updatesMeet_true (n : Nat) (op : Op) (s : State) :
    UpdatesMeet (fun _ _ => True) n op s := by
  unfold UpdatesMeet
  split <;> first | exact updatesAlong_true _ _ _ | trivial

/-- `C` holds of the state after the update of a settlement, with the amount it leaves. -/
def SettlesMeet (C : State → Nat → Address → Nat → Prop) (n : Nat) : Op → State → Prop
  | .deposit user pid amount, s => ∀ s₁, updatePool n pid s = .ok s₁ →
      C s₁ pid user ((s₁.userInfo pid user).amount + amount)
  | .withdraw user pid amount, s => ∀ s₁, updatePool n pid s = .ok s₁ →
      C s₁ pid user ((s₁.userInfo pid user).amount - amount)
  | _, _ => True

theorem settlesMeet_true (n : Nat) (op : Op) (s : State) :
    SettlesMeet (fun _ _ _ _ => True) n op s := by
  unfold SettlesMeet
  split <;> first | exact fun _ _ => trivial | trivial

/-- What is preserved by the parts that calls consist of. `U` is assumed of the updates,
and `C` of the settlements that change an amount and leave one. -/
structure CallRule (U : State → Nat → Prop) (C : State → Nat → Address → Nat → Prop)
    (msg : Msg) (P : State → Prop) : Prop where
  updated : ∀ t t' pid, P t → pid < t.poolLength → U t pid →
    Updated msg.blockNumber pid t t' → P t'
  added : ∀ t allocPoint stakeToken, P t → stakeToken ≠ 0 →
    (∀ p < t.poolLength, (t.poolInfo p).stakeToken ≠ stakeToken) →
    P (t.added msg.blockNumber allocPoint stakeToken)
  weighed : ∀ t pid allocPoint, P t →
    (∀ p < t.poolLength, msg.blockNumber ≤ (t.poolInfo p).lastRewardBlock) →
    pid < t.poolLength → (t.poolInfo pid).allocPoint ≤ t.totalAllocPoint →
    P (t.weighed pid allocPoint)
  settled : ∀ t t' pid user amount, P t → pid < t.poolLength →
    (C t pid user amount ∨ amount = (t.userInfo pid user).amount ∨ amount = 0) →
    Settles msg pid user t amount t' → P t'
  emergency : ∀ t pid husky tokens, P t → pid < t.poolLength →
    (t.userInfo pid msg.sender).fundedBy = msg.sender →
    MovesStake t (t.poolInfo pid).stakeToken t.here msg.sender
      (t.userInfo pid msg.sender).amount husky tokens →
    P ((t.moved husky tokens).setUserInfo pid msg.sender
      { t.userInfo pid msg.sender with amount := 0, rewardDebt := 0, fundedBy := 0 })

variable {U : State → Nat → Prop} {C : State → Nat → Address → Nat → Prop}
  {P : State → Prop} {keeps : Bool}

/-- What each update keeps, the updates of a list of pools keep. -/
theorem CallRule.along (rule : CallRule U C msg P) {pids : List Nat}
    (hU : UpdatesAlong U msg.blockNumber pids s) (hs : P s)
    (h : pids.foldlM (fun s pid => FairLaunch.updatePool msg.blockNumber pid s) s = .ok s') :
    P s' := by
  induction pids generalizing s with
  | nil =>
      simp only [List.foldlM_nil, pure_eq_ok] at h
      exact h ▸ hs
  | cons pid rest ih =>
      simp only [List.foldlM_cons, bind_eq_ok] at h
      obtain ⟨s₁, hfirst, hrest⟩ := h
      obtain ⟨hpid, hupdated⟩ := updatePool_eq_ok hfirst
      exact ih (hU.2 s₁ hfirst) (rule.updated _ _ _ hs hpid hU.1 hupdated) hrest

theorem poolLength_massUpdatePools (h : massUpdatePools n s = .ok s') :
    s'.poolLength = s.poolLength :=
  massUpdatePools_induct (P := fun t => t.poolLength = s.poolLength) h rfl
    fun _ _ _ ht _ hupdated => hupdated.poolLength.trans ht

/-- A property that the parts preserve, every call preserves that is not `quiet`; for a
quiet call it is to be shown. -/
theorem CallRule.exec {op : Op} (rule : CallRule U C msg P)
    (hU : UpdatesMeet U msg.blockNumber op s) (hC : SettlesMeet C msg.blockNumber op s)
    (hquiet : op.quiet = true → P s') (hs : P s) (h : exec msg op s = .ok s') : P s' := by
  cases op with
  -- the update of all pools is optional here, and not in `setPool`
  | addPool allocPoint stakeToken withUpdate =>
      obtain ⟨_, htoken, s₁, hupdate, hfresh, rfl⟩ := addPool_eq_ok h
      refine rule.added s₁ _ _ ?_ htoken hfresh
      cases withUpdate with
      | true => exact rule.along hU hs hupdate
      | false =>
          cases hupdate
          exact hs
  | setPool pid allocPoint =>
      obtain ⟨s₁, hupdate, hpid, hle, rfl⟩ := setPool_eq_ok h
      refine rule.weighed s₁ _ _ (rule.along hU hs hupdate) (fun p hp => ?_) hpid hle
      rw [poolLength_massUpdatePools hupdate] at hp
      exact massUpdatePools_settled hupdate hp
  | updatePool pid =>
      obtain ⟨hpid, hupdated⟩ := updatePool_eq_ok h
      exact rule.updated _ _ _ hs hpid hU hupdated
  | massUpdatePools => exact rule.along hU hs h
  | deposit user pid amount =>
      obtain ⟨hpid, s₁, hupdate, hsettles⟩ := deposit_settles h
      have hupdated := (updatePool_eq_ok hupdate).2
      exact rule.settled _ _ _ _ _ (rule.updated _ _ _ hs hpid hU hupdated)
        (hupdated.poolLength ▸ hpid) (.inl (hC s₁ hupdate)) hsettles
  | withdraw user pid amount =>
      obtain ⟨hpid, s₁, hupdate, hsettles⟩ := withdraw_settles h
      have hupdated := (updatePool_eq_ok hupdate).2
      exact rule.settled _ _ _ _ _ (rule.updated _ _ _ hs hpid hU hupdated)
        (hupdated.poolLength ▸ hpid) (.inl (hC s₁ hupdate)) hsettles
  -- the whole stake: the condition on what is left holds by itself
  | withdrawAll user pid =>
      obtain ⟨hpid, s₁, hupdate, hsettles⟩ := withdraw_settles h
      have hupdated := (updatePool_eq_ok hupdate).2
      refine rule.settled _ _ _ _ _ (rule.updated _ _ _ hs hpid hU hupdated)
        (hupdated.poolLength ▸ hpid) (.inr (.inr ?_)) hsettles
      rw [hupdated.userInfo, Nat.sub_self]
  | harvest pid =>
      obtain ⟨hpid, s₁, hupdate, hsettles⟩ := harvest_settles h
      have hupdated := (updatePool_eq_ok hupdate).2
      exact rule.settled _ _ _ _ _ (rule.updated _ _ _ hs hpid hU hupdated)
        (hupdated.poolLength ▸ hpid) (.inr (.inl rfl)) hsettles
  | emergencyWithdraw pid =>
      obtain ⟨hpid, hfunder, husky, tokens, hmoves, rfl⟩ := emergencyWithdraw_eq_ok h
      exact rule.emergency _ _ _ _ hs hpid hfunder hmoves
  | _ => exact hquiet rfl

/-- What is preserved by every change of the pools and their users. -/
structure StakeRule (U : State → Nat → Prop) (n : Nat) (keepsRewards : Bool)
    (P : State → Prop) : Prop where
  same : ∀ t t', P t → SameStakes t t' → (keepsRewards = true → SameRewards t t') → P t'
  updated : ∀ t t' pid, P t → pid < t.poolLength → U t pid → Updated n pid t t' → P t'
  added : ∀ t allocPoint stakeToken, P t →
    (∀ p < t.poolLength, (t.poolInfo p).stakeToken ≠ stakeToken) →
    P (t.added n allocPoint stakeToken)
  weighed : ∀ t pid allocPoint, P t → (∀ p < t.poolLength, n ≤ (t.poolInfo p).lastRewardBlock) →
    pid < t.poolLength → (t.poolInfo pid).allocPoint ≤ t.totalAllocPoint →
    P (t.weighed pid allocPoint)
  settled : ∀ t pid user amount fundedBy, P t → pid < t.poolLength →
    P (t.settleUser pid user amount fundedBy)
  emergency : ∀ t pid user, P t → pid < t.poolLength →
    P (t.setUserInfo pid user
      { t.userInfo pid user with amount := 0, rewardDebt := 0, fundedBy := 0 })

/-- A rule on stakes and updates is a rule on calls. -/
theorem StakeRule.callRule (rule : StakeRule U msg.blockNumber keeps P) :
    CallRule U (fun _ _ _ _ => True) msg P := by
  -- payments and movements of tokens touch no pool and no user
  have paid : ∀ {t husky badgePoints}, P t → P (t.paid husky badgePoints) := fun ht =>
    rule.same _ _ ht ⟨⟨rfl, rfl, rfl, rfl⟩, rfl, rfl, rfl⟩ fun _ => ⟨rfl, rfl, rfl⟩
  have moved : ∀ {t husky tokens}, P t → P (t.moved husky tokens) := fun ht =>
    rule.same _ _ ht ⟨⟨rfl, rfl, rfl, rfl⟩, rfl, rfl, rfl⟩ fun _ => ⟨rfl, rfl, rfl⟩
  refine ⟨rule.updated, fun t allocPoint stakeToken ht _ hfresh => rule.added t _ _ ht hfresh,
    rule.weighed, fun t t' pid user amount ht hpid _ hsettles => ?_,
    fun t pid _ _ ht hpid _ _ => rule.emergency _ _ _ (moved ht) hpid⟩
  cases hsettles with
  | deposit _ harvested _ =>
      cases harvested with
      | nothing _ => exact rule.settled _ _ _ _ _ (moved ht) hpid
      | harvested _ => exact rule.settled _ _ _ _ _ (moved (paid ht)) hpid
  | withdraw _ _ _ _ _ _ _ => exact rule.settled _ _ _ _ _ (moved (paid ht)) hpid
  | harvest _ _ => exact rule.settled _ _ _ _ _ (paid ht) hpid

/-- A property of the pools and their users is preserved by every call. -/
theorem StakeRule.exec {op : Op} (rule : StakeRule U msg.blockNumber (!op.setsRewards) P)
    (hU : UpdatesMeet U msg.blockNumber op s) (hs : P s) (h : FairLaunch.exec msg op s = .ok s') :
    P s' := by
  refine rule.callRule.exec hU (settlesMeet_true _ _ _) (fun hquiet => ?_) hs h
  obtain ⟨hstakes, hrewards⟩ := exec_quiet hquiet h
  exact rule.same s s' hs hstakes fun hkeeps => hrewards (by simpa using hkeeps)

/-- What is preserved by every change of the pools. -/
structure PoolRule (n : Nat) (keepsRewards : Bool) (P : State → Prop) : Prop where
  same : ∀ t t', P t → SamePools t t' → (keepsRewards = true → SameRewards t t') → P t'
  updated : ∀ t t' pid, P t → pid < t.poolLength → Updated n pid t t' → P t'
  added : ∀ t allocPoint stakeToken, P t →
    (∀ p < t.poolLength, (t.poolInfo p).stakeToken ≠ stakeToken) →
    P (t.added n allocPoint stakeToken)
  weighed : ∀ t pid allocPoint, P t → (∀ p < t.poolLength, n ≤ (t.poolInfo p).lastRewardBlock) →
    pid < t.poolLength → (t.poolInfo pid).allocPoint ≤ t.totalAllocPoint →
    P (t.weighed pid allocPoint)

/-- A rule on single pools is a rule on stakes and updates. -/
theorem PoolRule.stakeRule (rule : PoolRule n keeps P) :
    StakeRule (fun _ _ => True) n keeps P where
  same t t' ht hstakes := rule.same t t' ht hstakes.toSamePools
  updated t t' pid ht hpid _ := rule.updated t t' pid ht hpid
  added := rule.added
  weighed := rule.weighed
  settled _ _ _ _ _ ht _ := rule.same _ _ ht ⟨rfl, rfl, rfl, rfl⟩ fun _ => ⟨rfl, rfl, rfl⟩
  emergency _ _ _ ht _ := rule.same _ _ ht ⟨rfl, rfl, rfl, rfl⟩ fun _ => ⟨rfl, rfl, rfl⟩

/-- A property of the pools is preserved by every call. -/
theorem PoolRule.exec {op : Op} (rule : PoolRule msg.blockNumber (!op.setsRewards) P)
    (hs : P s) (h : FairLaunch.exec msg op s = .ok s') : P s' :=
  rule.stakeRule.exec (updatesMeet_true _ _ _) hs h

end Rules

end Huski.FairLaunch
