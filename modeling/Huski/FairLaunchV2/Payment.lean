import Huski.FairLaunchV2.Spec

/-!
# When a reward is paid

`payReward` asks the locker of the pool for its part of the reward, has the locker take that part
under an approval that is taken back, and transfers the rest. It fails where the locker refuses
(`LockerTakes`) or a token does (`TokensMove`), and nowhere else.
-/

namespace Huski.FairLaunchV2

open Solidity State

/-- A locker takes its part of a reward from `caller`: it was made for that FairLaunch, its share
is not above the whole, and the lock of the user stays in range. -/
structure LockerTakes (caller user : Address) (pending : Nat) (t : LinearRelease) : Prop where
  madeFor : t.fairLaunch = caller
  user_ne : user ≠ 0
  product : pending * t.lockupBps < wordSize
  share : pending * t.lockupBps / 10000 ≤ pending
  lock : t.locks user + pending * t.lockupBps / 10000 < wordSize

/-- The calls of tokens in a payment: HUSKY moves to the user, less the part that the locker of the
pool, if it has one, takes under an approval before. -/
def moveTokens (blockNumber pid : Nat) (user : Address) (pending : Nat) (s : State) :
    Result State :=
  if s.lockers pid ≠ 0 then do
    let locker := s.lockers pid
    let part := pending * (s.lockerAt locker).lockupBps / 10000
    let token := (s.lockerAt locker).token
    let s ← s.safeApprove s.fairLaunchV1.husky.here locker part
    let s ← s.safeTransferFrom blockNumber token locker s.here locker part
    let s ← s.safeApprove s.fairLaunchV1.husky.here locker 0
    s.safeTransfer blockNumber s.fairLaunchV1.husky.here user (pending - part)
  else s.safeTransfer blockNumber s.fairLaunchV1.husky.here user pending

/-- The tokens of a payment move. -/
def TokensMove (blockNumber pid : Nat) (user : Address) (pending : Nat) (s : State) : Prop :=
  ∃ s', moveTokens blockNumber pid user pending s = .ok s'

/-! ## Tokens do not look at the lockers -/

/-- The tokens, and the account that V2 calls them from, are the same. -/
structure SameTokens (s s' : State) : Prop where
  here : s'.here = s.here
  fairLaunchV1 : s'.fairLaunchV1 = s.fairLaunchV1

section SameTokens

variable {n pid amount : Nat} {token spender holder recipient user : Address} {s s' t : State}

/-- The storage of the lockers is none of the tokens'. -/
theorem sameTokens_lockerAt (s : State) (lockerAt : Address → LinearRelease) :
    SameTokens s { s with lockerAt } := ⟨rfl, rfl⟩

theorem SameTokens.symm (h : SameTokens s t) : SameTokens t s := ⟨h.here.symm, h.fairLaunchV1.symm⟩

theorem SameTokens.onV1 (h : SameTokens s t) {f : FairLaunch.State → Result FairLaunch.State}
    (hf : s.onV1 f = .ok s') : ∃ t', t.onV1 f = .ok t' ∧ SameTokens s' t' := by
  obtain ⟨v1, hv1, rfl⟩ := onV1_eq_ok hf
  refine ⟨t.setV1 v1, ?_, h.here, rfl⟩
  unfold State.onV1
  rw [h.fairLaunchV1, hv1]
  rfl

/-- Every call of a token is one of HUSKY or one of a stake token. -/
theorem SameTokens.either {p : Prop} [Decidable p]
    {f g : FairLaunch.State → Result FairLaunch.State} (h : SameTokens s t)
    (hcall : (if p then s.onV1 f else s.onV1 g) = .ok s') :
    ∃ t', (if p then t.onV1 f else t.onV1 g) = .ok t' ∧ SameTokens s' t' := by
  split at hcall
  · rename_i hhusky
    rw [if_pos hhusky]
    exact h.onV1 hcall
  · rename_i hother
    rw [if_neg hother]
    exact h.onV1 hcall

theorem SameTokens.safeTransfer (h : SameTokens s t)
    (hmove : s.safeTransfer n token recipient amount = .ok s') :
    ∃ t', t.safeTransfer n token recipient amount = .ok t' ∧ SameTokens s' t' := by
  unfold State.safeTransfer at hmove ⊢
  rw [h.fairLaunchV1, h.here]
  exact h.either hmove

theorem SameTokens.safeTransferFrom (h : SameTokens s t)
    (hmove : s.safeTransferFrom n token spender holder recipient amount = .ok s') :
    ∃ t', t.safeTransferFrom n token spender holder recipient amount = .ok t' ∧
      SameTokens s' t' := by
  unfold State.safeTransferFrom at hmove ⊢
  rw [h.fairLaunchV1]
  exact h.either hmove

theorem SameTokens.safeApprove (h : SameTokens s t)
    (happrove : s.safeApprove token spender amount = .ok s') :
    ∃ t', t.safeApprove token spender amount = .ok t' ∧ SameTokens s' t' := by
  have hallowance : t.allowance token spender = s.allowance token spender := by
    unfold State.allowance
    rw [h.fairLaunchV1, h.here]
  simp only [State.safeApprove, bind_eq_ok, require_eq_ok] at happrove ⊢
  rw [hallowance, h.fairLaunchV1, h.here]
  obtain ⟨_, hfree, happrove⟩ := happrove
  obtain ⟨t', happrove, hsame⟩ := h.either happrove
  exact ⟨t', ⟨(), hfree, happrove⟩, hsame⟩

/-- Whether the tokens of a payment move depends on the tokens and the lockers alone. -/
theorem TokensMove.congr {pending : Nat} (h : SameTokens s t) (hlockers : t.lockers = s.lockers)
    (hlockerAt : t.lockerAt = s.lockerAt) (hmove : TokensMove n pid user pending s) :
    TokensMove n pid user pending t := by
  unfold TokensMove moveTokens at hmove ⊢
  rw [hlockers, hlockerAt]
  by_cases hlocker : s.lockers pid ≠ 0
  · rw [if_pos hlocker] at hmove ⊢
    simp only [bind_eq_ok] at hmove ⊢
    obtain ⟨s', s₁, happrove, s₂, htake, s₃, hclear, hpay⟩ := hmove
    rw [← h.fairLaunchV1] at happrove
    obtain ⟨t₁, happrove, hsame₁⟩ := h.safeApprove happrove
    rw [← hsame₁.here] at htake
    obtain ⟨t₂, htake, hsame₂⟩ := hsame₁.safeTransferFrom htake
    rw [← hsame₂.fairLaunchV1] at hclear
    obtain ⟨t₃, hclear, hsame₃⟩ := hsame₂.safeApprove hclear
    rw [← hsame₃.fairLaunchV1] at hpay
    obtain ⟨t', hpay, _⟩ := hsame₃.safeTransfer hpay
    exact ⟨t', t₁, happrove, t₂, htake, t₃, hclear, hpay⟩
  · rw [if_neg hlocker] at hmove ⊢
    obtain ⟨s', hpay⟩ := hmove
    rw [← h.fairLaunchV1] at hpay
    obtain ⟨t', hpay, _⟩ := h.safeTransfer hpay
    exact ⟨t', hpay⟩

/-- A call of a token leaves all of V2's own storage. -/
theorem either_eq_ok {p : Prop} [Decidable p] {f g : FairLaunch.State → Result FairLaunch.State}
    (hcall : (if p then s.onV1 f else s.onV1 g) = .ok s') : ∃ v1, s' = s.setV1 v1 := by
  split at hcall
  · obtain ⟨v1, _, rfl⟩ := onV1_eq_ok hcall
    exact ⟨v1, rfl⟩
  · obtain ⟨v1, _, rfl⟩ := onV1_eq_ok hcall
    exact ⟨v1, rfl⟩

theorem safeApprove_eq_ok (h : s.safeApprove token spender amount = .ok s') :
    ∃ v1, s' = s.setV1 v1 := by
  simp only [State.safeApprove, bind_eq_ok] at h
  obtain ⟨_, _, hcall⟩ := h
  exact either_eq_ok hcall

theorem safeTransferFrom_eq_ok
    (h : s.safeTransferFrom n token spender holder recipient amount = .ok s') :
    ∃ v1, s' = s.setV1 v1 :=
  either_eq_ok h

end SameTokens

/-! ## The payment -/

section Payment

variable {n pid pending : Nat} {user : Address} {s s' : State}

/-- The part of a reward that is locked, for the FairLaunch of the locker alone. -/
theorem calLockAmount_eq_ok {caller : Address} {t : LinearRelease} {part : Nat} :
    t.calLockAmount caller pending = .ok part ↔
      caller = t.fairLaunch ∧ pending * t.lockupBps < wordSize ∧
        part = pending * t.lockupBps / 10000 := by
  simp only [LinearRelease.calLockAmount, LinearRelease.onlyFairLaunch, bind_eq_ok, require_eq_ok,
    SafeMath.mul_eq_ok, SafeMath.div_eq_ok]
  constructor
  · rintro ⟨_, hmade, _, ⟨hword, rfl⟩, _, rfl⟩
    exact ⟨hmade, hword, rfl⟩
  · rintro ⟨hmade, hword, rfl⟩
    exact ⟨(), hmade, _, ⟨hword, rfl⟩, by norm_num, rfl⟩

/-- A lock takes the tokens and writes the locker, and nothing else. -/
theorem lock_eq_ok {locker : Address} {amount : Nat} :
    lock n locker user amount s = .ok s' ↔
      s.here = (s.lockerAt locker).fairLaunch ∧ user ≠ 0 ∧
        ∃ s₁ t,
          s.safeTransferFrom n (s.lockerAt locker).token locker s.here locker amount = .ok s₁ ∧
          (s₁.lockerAt locker).addLock user amount = .ok t ∧
          s' = { s₁ with lockerAt := Function.update s₁.lockerAt locker t } := by
  simp only [lock, LinearRelease.onlyFairLaunch, bind_eq_ok, require_eq_ok, pure_eq_ok]
  constructor
  · rintro ⟨_, hmade, _, huser, s₁, htake, t, hadd, rfl⟩
    exact ⟨hmade, huser, s₁, t, htake, hadd, rfl⟩
  · rintro ⟨hmade, huser, s₁, t, htake, hadd, rfl⟩
    exact ⟨(), hmade, (), huser, s₁, htake, t, hadd, rfl⟩

theorem addLock_isOk_iff {amount : Nat} {t : LinearRelease} :
    (∃ t', t.addLock user amount = .ok t') ↔ t.locks user + amount < wordSize := by
  simp only [LinearRelease.addLock, bind_eq_ok, SafeMath.add_eq_ok, pure_eq_ok]
  constructor
  · rintro ⟨_, _, ⟨hword, rfl⟩, _⟩
    exact hword
  · intro hword
    exact ⟨_, _, ⟨hword, rfl⟩, rfl⟩

/-- A reward is paid exactly where the locker takes its part and the tokens move. -/
theorem payReward_isOk_iff :
    (∃ s', payReward n pid user pending s = .ok s') ↔
      (s.lockers pid ≠ 0 → LockerTakes s.here user pending (s.lockerAt (s.lockers pid))) ∧
        TokensMove n pid user pending s := by
  unfold TokensMove moveTokens payReward lockReward
  by_cases hlocker : s.lockers pid ≠ 0
  · rw [if_pos hlocker, if_pos hlocker]
    simp only [bind_eq_ok, SafeMath.sub_eq_ok, pure_eq_ok, calLockAmount_eq_ok, lock_eq_ok]
    constructor
    · rintro ⟨s', ⟨rest, s₃⟩, ⟨part, ⟨hmade, hword, rfl⟩, s₁, happrove, s₂, ⟨_, huser, s₄, t, htake,
        hadd, rfl⟩, _, ⟨hshare, rfl⟩, s₅, hclear, hpair⟩, hpay⟩
      obtain ⟨rfl, rfl⟩ := Prod.mk.inj hpair
      obtain ⟨v1, rfl⟩ := safeApprove_eq_ok happrove
      obtain ⟨v1', rfl⟩ := safeTransferFrom_eq_ok htake
      have hlocked := addLock_isOk_iff.mp ⟨t, hadd⟩
      -- the lock has changed the locker, which the tokens do not look at
      have hsame := sameTokens_lockerAt ((s.setV1 v1).setV1 v1')
        (Function.update ((s.setV1 v1).setV1 v1').lockerAt (s.lockers pid) t)
      obtain ⟨s₆, hclear, hsame⟩ := hsame.symm.safeApprove hclear
      rw [← hsame.fairLaunchV1] at hpay
      obtain ⟨s₇, hpay, _⟩ := hsame.safeTransfer hpay
      exact ⟨fun _ => ⟨hmade.symm, huser, hword, hshare, hlocked⟩, s₇, _, happrove, _, htake, s₆,
        hclear, hpay⟩
    · rintro ⟨htakes, s', s₁, happrove, s₂, htake, s₃, hclear, hpay⟩
      have htakes := htakes hlocker
      obtain ⟨v1, rfl⟩ := safeApprove_eq_ok happrove
      obtain ⟨v1', rfl⟩ := safeTransferFrom_eq_ok htake
      obtain ⟨t, hadd⟩ := addLock_isOk_iff.mpr htakes.lock
      have hsame := sameTokens_lockerAt ((s.setV1 v1).setV1 v1')
        (Function.update ((s.setV1 v1).setV1 v1').lockerAt (s.lockers pid) t)
      obtain ⟨s₄, hclear, hsame⟩ := hsame.safeApprove hclear
      rw [← hsame.fairLaunchV1] at hpay
      obtain ⟨s₅, hpay, _⟩ := hsame.safeTransfer hpay
      exact ⟨s₅, _, ⟨_, ⟨htakes.madeFor.symm, htakes.product, rfl⟩, _, happrove, _,
        ⟨htakes.madeFor.symm, htakes.user_ne, _, t, htake, hadd, rfl⟩, _, ⟨htakes.share, rfl⟩, s₄,
        hclear, rfl⟩, hpay⟩
  · rw [if_neg hlocker, if_neg hlocker]
    simp only [bind_eq_ok, Except.ok.injEq, exists_eq_left']
    exact ⟨fun h => ⟨fun hne => absurd hne hlocker, h⟩, fun h => h.2⟩

end Payment

end Huski.FairLaunchV2
