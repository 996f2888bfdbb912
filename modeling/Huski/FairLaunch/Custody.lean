import Huski.FairLaunch.Debts
import Huski.Lib.TotalMap

/-!
# Custody of the stakes

FairLaunch holds the stake of all users of a pool, as long as the token is not HUSKY,
which it also pays rewards from. Two histories are kept over a run: the stake put in for
an entry under each funder, and the stake taken out of it by each account.
-/

namespace Huski.FairLaunch

open Solidity State
open scoped BigOperators

/-- The stake recorded in a pool, over all users. -/
def State.staked (s : State) (p : Nat) : Nat := ∑ u, (s.userInfo p u).amount

/-- The stakes are backed, every pool by a token of its own. -/
structure Custody (s : State) : Prop where
  sound : Sound s
  listed : ∀ p < s.poolLength, (s.poolInfo p).stakeToken ≠ 0
  distinct : ∀ p < s.poolLength, ∀ q < s.poolLength,
    (s.poolInfo p).stakeToken = (s.poolInfo q).stakeToken → p = q
  held : ∀ p < s.poolLength, (s.poolInfo p).stakeToken ≠ s.husky.here →
    s.staked p ≤ (s.tokens (s.poolInfo p).stakeToken).balanceOf s.here

section Frames

variable {n pid : Nat} {s s' : State} {user : Address} {info : UserInfo}

theorem Updated.here (h : Updated n pid s s') : s'.here = s.here := by
  cases h <;> rfl

theorem Updated.tokens (h : Updated n pid s s') : s'.tokens = s.tokens := by
  cases h <;> rfl

theorem Updated.husky_here (h : Updated n pid s s') : s'.husky.here = s.husky.here := by
  cases h with
  | current _ => rfl
  | empty _ _ => rfl
  | accrued haccrues => exact haccrues.husky_here

/-- Writing an entry replaces its part of the stake. -/
theorem staked_setUserInfo : (s.setUserInfo pid user info).staked pid +
    (s.userInfo pid user).amount = s.staked pid + info.amount := by
  have h := TotalMap.sum_update (s.userInfo pid) (·.amount) user info
  unfold State.staked State.setUserInfo
  simpa using h

theorem staked_setUserInfo_of_ne {p : Nat} (hp : p ≠ pid) :
    (s.setUserInfo pid user info).staked p = s.staked p := by
  unfold State.staked State.setUserInfo
  simp [hp]

end Frames

/-! ## The invariant -/

section Custody

variable {s s' : State} {msg : Msg} {pid : Nat} {user : Address}

/-- An update leaves the stakes in custody. -/
theorem Custody.updated {n : Nat} (hs : Custody s) (h : Updated n pid s s') : Custody s' := by
  refine ⟨hs.sound.updated h, fun p hp => ?_, fun p hp q hq => ?_, fun p hp htoken => ?_⟩
  · rw [h.stakeToken]
    exact hs.listed p (h.poolLength ▸ hp)
  · rw [h.stakeToken, h.stakeToken]
    exact hs.distinct p (h.poolLength ▸ hp) q (h.poolLength ▸ hq)
  · rw [h.stakeToken, h.husky_here] at htoken
    rw [h.stakeToken, h.tokens, h.here, State.staked, h.userInfo]
    exact hs.held p (h.poolLength ▸ hp) htoken

theorem Custody.added {n allocPoint : Nat} {stakeToken : Address} (hs : Custody s)
    (htoken : stakeToken ≠ 0)
    (hfresh : ∀ p < s.poolLength, (s.poolInfo p).stakeToken ≠ stakeToken) :
    Custody (s.added n allocPoint stakeToken) := by
  have hnew : ((s.added n allocPoint stakeToken).poolInfo s.poolLength).stakeToken =
      stakeToken := by
    simp [State.added, State.setPoolInfo]
  have hold : ∀ p, p ≠ s.poolLength →
      (s.added n allocPoint stakeToken).poolInfo p = s.poolInfo p := fun p hp => by
    simp [State.added, State.setPoolInfo, hp]
  have hlt : ∀ p < s.poolLength + 1, p ≠ s.poolLength → p < s.poolLength := fun p hp hne => by
    omega
  refine ⟨(sound_rule n true).added _ _ _ hs.sound hfresh, fun p hp => ?_, fun p hp q hq h => ?_,
    fun p hp hhusky => ?_⟩
  · by_cases hlast : p = s.poolLength
    · rw [hlast, hnew]
      exact htoken
    · rw [hold p hlast]
      exact hs.listed p (hlt p hp hlast)
  · by_cases hlastp : p = s.poolLength <;> by_cases hlastq : q = s.poolLength
    · rw [hlastp, hlastq]
    · rw [hlastp, hnew, hold q hlastq] at h
      exact absurd h.symm (hfresh q (hlt q hq hlastq))
    · rw [hlastq, hnew, hold p hlastp] at h
      exact absurd h (hfresh p (hlt p hp hlastp))
    · rw [hold p hlastp, hold q hlastq] at h
      exact hs.distinct p (hlt p hp hlastp) q (hlt q hq hlastq) h
  · by_cases hlast : p = s.poolLength
    · -- nobody has a stake in a pool that was not there
      have hnone : (s.added n allocPoint stakeToken).staked p = 0 := by
        refine Finset.sum_eq_zero fun u _ => ?_
        show (s.userInfo p u).amount = 0
        rw [hs.sound.unlisted p u hlast.ge]
      rw [hnone]
      exact Nat.zero_le _
    · rw [hold p hlast] at hhusky ⊢
      exact hs.held p (hlt p hp hlast) hhusky

theorem Custody.weighed {allocPoint : Nat} (hs : Custody s)
    (hsound : Sound (s.weighed pid allocPoint)) :
    Custody (s.weighed pid allocPoint) := by
  have htoken : ∀ p, ((s.weighed pid allocPoint).poolInfo p).stakeToken =
      (s.poolInfo p).stakeToken := fun p => by
    by_cases hp : p = pid
    · subst hp
      simp [State.weighed, State.setPoolInfo]
    · simp [State.weighed, State.setPoolInfo, hp]
  refine ⟨hsound, fun p hp => ?_, fun p hp q hq => ?_, fun p hp => ?_⟩
  · rw [htoken]
    exact hs.listed p hp
  · rw [htoken, htoken]
    exact hs.distinct p hp q hq
  · rw [htoken]
    exact hs.held p hp

/-- Stake that moves with its entry stays backed. -/
theorem Custody.moved {info : UserInfo} (hs : Custody s) (hsound : Sound s')
    (hpools : SamePools s s') (hhere : s'.here = s.here) (hhusky : s'.husky.here = s.husky.here)
    (huser : s'.userInfo = (s.setUserInfo pid user info).userInfo)
    (hothers : ∀ t, t ≠ (s.poolInfo pid).stakeToken → s'.tokens t = s.tokens t)
    (hpid : pid < s.poolLength)
    (hbalance : (s.poolInfo pid).stakeToken ≠ s.husky.here →
      (s'.tokens (s.poolInfo pid).stakeToken).balanceOf s.here + (s.userInfo pid user).amount =
        (s.tokens (s.poolInfo pid).stakeToken).balanceOf s.here + info.amount) :
    Custody s' := by
  have hstaked : ∀ p, s'.staked p = (s.setUserInfo pid user info).staked p := fun p => by
    unfold State.staked
    rw [huser]
  refine ⟨hsound, ?_, ?_, fun p hp htoken => ?_⟩
  · rw [hpools.poolLength, hpools.poolInfo]
    exact hs.listed
  · rw [hpools.poolLength, hpools.poolInfo]
    exact hs.distinct
  · rw [hpools.poolLength] at hp
    rw [hpools.poolInfo, hhusky] at htoken
    rw [hpools.poolInfo, hhere, hstaked]
    have hheld := hs.held p hp htoken
    -- the pools have different stake tokens, so one balance moves
    by_cases heq : p = pid
    · subst heq
      have hbal := hbalance htoken
      have hsum : (s.setUserInfo p user info).staked p + (s.userInfo p user).amount =
          s.staked p + info.amount := staked_setUserInfo
      omega
    · have hne : (s.poolInfo p).stakeToken ≠ (s.poolInfo pid).stakeToken := fun h =>
        heq (hs.distinct p hp pid hpid h)
      rw [staked_setUserInfo_of_ne heq, hothers _ hne]
      exact hheld

/-- A settlement moves as much stake as the position changes by. -/
theorem Custody.settled {amount : Nat} (hs : Custody s) (hsender : msg.sender ≠ s.here)
    (hpid : pid < s.poolLength) (h : Settles msg pid user s amount s') : Custody s' := by
  have hrule : CallRule (fun _ _ => True) (fun _ _ _ _ => True) msg Sound :=
    (sound_rule msg.blockNumber true).callRule
  have hsound : Sound s' := hrule.settled _ _ _ _ _ hs.sound hpid (.inl trivial) h
  cases h with
  | @deposit s₁ husky tokens amount _ harvested moves =>
      -- the stake that is pulled is what the position gains
      have hin : ∀ {balance old : Nat}, balance + (if s.here = msg.sender then amount else 0) =
          old + (if s.here = s.here then amount else 0) →
          balance + (s.userInfo pid user).amount =
            old + ((s.userInfo pid user).amount + amount) := by
        intro balance old hbal
        rw [if_neg hsender.symm, if_pos rfl] at hbal
        omega
      cases harvested with
      | nothing _ =>
          exact hs.moved hsound ⟨rfl, rfl, rfl, rfl⟩ rfl moves.husky_here rfl moves.others hpid
            fun htoken => hin (moves.balance htoken s.here)
      | harvested harvests =>
          exact hs.moved hsound ⟨rfl, rfl, rfl, rfl⟩ rfl
            (moves.husky_here.trans harvests.husky_here) rfl moves.others hpid
            fun htoken => hin (moves.balance (harvests.husky_here.symm ▸ htoken) s.here)
  | withdraw funder harvests le _ husky_here _ moves =>
      -- the stake that is sent is what the position loses
      have hout : ∀ {balance old amount : Nat}, amount ≤ (s.userInfo pid user).amount →
          balance + (if s.here = s.here then amount else 0) =
            old + (if s.here = msg.sender then amount else 0) →
          balance + (s.userInfo pid user).amount =
            old + ((s.userInfo pid user).amount - amount) := by
        intro balance old amount hle hbal
        rw [if_pos rfl, if_neg hsender.symm] at hbal
        omega
      have hmoves := moves (hs.listed pid hpid)
      exact hs.moved hsound ⟨rfl, rfl, rfl, rfl⟩ rfl (husky_here.trans harvests.husky_here) rfl
        hmoves.others hpid
        fun htoken => hout le (hmoves.balance (harvests.husky_here.symm ▸ htoken) s.here)
  | harvest own harvests =>
      exact hs.moved hsound ⟨rfl, rfl, rfl, rfl⟩ rfl harvests.husky_here rfl (fun _ _ => rfl) hpid
        fun _ => rfl

/-- An emergency withdrawal moves the whole stake of a position. -/
theorem Custody.emergency {husky : HuskyToken} {tokens : Address → StakeToken} (hs : Custody s)
    (hsender : msg.sender ≠ s.here) (hpid : pid < s.poolLength)
    (hmoves : MovesStake s (s.poolInfo pid).stakeToken s.here msg.sender
      (s.userInfo pid msg.sender).amount husky tokens) :
    Custody ((s.moved husky tokens).setUserInfo pid msg.sender
      { s.userInfo pid msg.sender with amount := 0, rewardDebt := 0, fundedBy := 0 }) := by
  have hsound := (sound_rule msg.blockNumber true).emergency (s.moved husky tokens) pid msg.sender
    ⟨hs.sound.acc_word, hs.sound.til_le, hs.sound.debts, hs.sound.unlisted⟩ hpid
  refine hs.moved hsound ⟨rfl, rfl, rfl, rfl⟩ rfl hmoves.husky_here rfl hmoves.others hpid
    fun htoken => ?_
  have hbal := hmoves.balance htoken s.here
  rw [if_pos rfl, if_neg hsender.symm] at hbal
  exact hbal

/-- The stakes stay in custody over each part of a call. -/
theorem custody_rule (hsender : msg.sender ≠ s.here) :
    CallRule (fun _ _ => True) (fun _ _ _ _ => True) msg
      (fun t => Custody t ∧ t.here = s.here) where
  updated _ _ _ ht _ _ hupdated := ⟨ht.1.updated hupdated, hupdated.here.trans ht.2⟩
  added _ _ _ ht htoken hfresh := ⟨ht.1.added htoken hfresh, ht.2⟩
  weighed _ _ _ ht hsettled hpid hle :=
    ⟨ht.1.weighed ((sound_rule msg.blockNumber true).weighed _ _ _ ht.1.sound hsettled hpid hle),
      ht.2⟩
  settled t t' pid user amount ht hpid _ hsettles := by
    refine ⟨ht.1.settled (ht.2.symm ▸ hsender) hpid hsettles, ?_⟩
    cases hsettles with
    | deposit _ harvested _ => exact harvested.here.trans ht.2
    | withdraw _ _ _ _ _ _ _ => exact ht.2
    | harvest _ _ => exact ht.2
  emergency _ _ _ _ ht hpid _ hmoves :=
    ⟨ht.1.emergency (ht.2.symm ▸ hsender) hpid hmoves, ht.2⟩

theorem Custody.quiet (hs : Custody s) {pays : Bool} (hstakes : SameStakes s s')
    (hfunds : KeepsFunds pays s s') : Custody s' := by
  have hsound : Sound s' := (sound_rule 0 false).same _ _ hs.sound hstakes fun h => nomatch h
  refine ⟨hsound, ?_, ?_, ?_⟩ <;> rw [hstakes.poolLength, hstakes.poolInfo]
  · exact hs.listed
  · exact hs.distinct
  · intro p hp htoken
    rw [hfunds.husky_here] at htoken
    rw [State.staked, hstakes.userInfo, hfunds.here]
    exact (hs.held p hp htoken).trans (hfunds.tokens _)

/-- One call leaves the stakes in custody. -/
theorem Custody.exec {op : Op} (hs : Custody s) (hsender : msg.sender ≠ s.here)
    (h : exec msg op s = .ok s') : Custody s' ∧ s'.here = s.here := by
  refine (custody_rule hsender).exec (updatesMeet_true _ _ _) (settlesMeet_true _ _ _)
    (fun hquiet => ?_) ⟨hs, rfl⟩ h
  have hfunds := exec_quiet_keepsFunds hquiet hsender h
  exact ⟨hs.quiet (exec_quiet hquiet h).1 hfunds, hfunds.here⟩

/-- The stakes are in custody in every state of a run. -/
theorem custody_inductive :
    machine.Inductive (fun _ _ => True) (fun c => Custody c.state) where
  init c h := by
    have hsound := sound_inductive.init c h
    obtain ⟨_, _, _, _, _, _, _, _, _, _, h⟩ := h
    rw [h] at hsound ⊢
    exact ⟨hsound, fun p hp => absurd hp (Nat.not_lt_zero p),
      fun p hp => absurd hp (Nat.not_lt_zero p), fun p hp => absurd hp (Nat.not_lt_zero p)⟩
  step c tx c' hc _ h := by
    obtain ⟨hsender, _, _, _, hexec⟩ := mine_eq_ok h
    exact (hc.exec hsender hexec).1

end Custody

end Huski.FairLaunch
