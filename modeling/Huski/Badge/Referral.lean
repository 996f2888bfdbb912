import Huski.Badge.Codes
import Huski.Lib.Forest

/-!
# The referrals

Who registers through `mintBadge` is referred by the owner of the invite code; who registers in a
trade is referred by nobody. An account that can mint a badge owns no code yet, so that it refers
nobody: it is hung below its referrer as a leaf. But its own code is in the map before the invite
code is looked up, and with one code for both it becomes its own referrer.
-/

open Solidity

namespace Huski.Badge

/-- The invite code is not the code that the account registers. -/
def InvitedByOther (tx : Tx) : Prop :=
  ViaRelayer tx ∧ match tx.op with
    | .mintBadge _ _ userCode inviteCode => inviteCode ≠ userCode
    | _ => True

/-- Referrers are registered, and no referral leads back. -/
structure Referred (s : State) : Prop extends Registered s where
  referrer : ∀ a, s.points.relationShips a ≠ 0 →
    s.points.inviteCode (s.points.relationShips a) ≠ 0
  ranked : Forest.Ranked 0 s.points.relationShips

namespace Referred

variable {tx : Tx} {s s' : State} {sender : Address} {userCode inviteCode : Nat}

/-- A registered account stays registered. -/
theorem registers_code {p p' : Points}
    (hregisters : Points.Registers sender userCode inviteCode p p') {a : Address}
    (h : p.inviteCode a ≠ 0) : p'.inviteCode a ≠ 0 := by
  have hgt := hregisters.userCode_gt
  rw [hregisters.inviteCode]
  by_cases hself : a = sender
  · rw [hself, Function.update_self]
    omega
  · rw [Function.update_of_ne hself]
    exact h

/-- The referrer of a registration owned the invite code before. -/
theorem registers_referrer {p p' : Points}
    (hregisters : Points.Registers sender userCode inviteCode p p')
    (hother : inviteCode ≠ userCode) :
    p'.relationShips = Function.update p.relationShips sender (p.inviteCodesOwner inviteCode) := by
  rw [hregisters.relationShips, Function.update_of_ne hother]

theorem mints (h : Referred s) (hregistered : Registered s')
    (hnone : s.nft.holderTokens sender = ∅) (hother : inviteCode ≠ userCode)
    (hregisters : Points.Registers sender userCode inviteCode s.points s'.points) :
    Referred s' := by
  have hrelations := registers_referrer hregisters hother
  have hfresh := h.unregistered hregisters.account_ne hnone hregisters.live
  refine ⟨hregistered, fun a ha => ?_, ?_⟩
  · refine registers_code hregisters ?_
    rw [hrelations] at ha ⊢
    by_cases hself : a = sender
    · rw [hself, Function.update_self] at ha ⊢
      exact (h.registered inviteCode ha).2
    · rw [Function.update_of_ne hself] at ha ⊢
      exact h.referrer a ha
  · rw [hrelations]
    by_cases hnobody : s.points.inviteCodesOwner inviteCode = 0
    · rw [hnobody]
      exact h.ranked.cut sender
    · -- the sender, which is not registered, refers nobody and owns no code
      refine h.ranked.hang hregisters.account_ne (fun b hb => ?_) fun hself => ?_
      · refine h.referrer b ?_ (hb ▸ hfresh)
        rw [hb]
        exact hregisters.account_ne
      · refine (h.registered inviteCode hnobody).2 ?_
        rw [hself]
        exact hfresh

theorem trades (h : Referred s) (hregistered : Registered s') {points : Points}
    (hregisters : Points.Registers sender userCode 0 s.points points)
    (hcodes : Points.SameCodes points s'.points) : Referred s' := by
  have hgt := hregisters.userCode_gt
  have hnobody : s.points.inviteCodesOwner 0 = 0 := by
    by_contra howner
    have hcode := (h.registered 0 howner).1
    exact absurd hcode (Nat.not_lt_zero _)
  have hrelations := registers_referrer hregisters (by omega)
  rw [hnobody] at hrelations
  refine ⟨hregistered, fun a ha => ?_, ?_⟩
  · rw [hcodes.relationShips] at ha
    rw [hcodes.relationShips, hcodes.inviteCode]
    refine registers_code hregisters ?_
    rw [hrelations] at ha ⊢
    by_cases hself : a = sender
    · rw [hself, Function.update_self] at ha
      exact absurd rfl ha
    · rw [Function.update_of_ne hself] at ha ⊢
      exact h.referrer a ha
  · rw [hcodes.relationShips, hrelations]
    exact h.ranked.cut sender

theorem sameCodes (h : Referred s) (hregistered : Registered s')
    (hcodes : Points.SameCodes s.points s'.points) : Referred s' := by
  refine ⟨hregistered, fun a ha => ?_, ?_⟩
  · rw [hcodes.relationShips] at ha
    rw [hcodes.relationShips, hcodes.inviteCode]
    exact h.referrer a ha
  · rw [hcodes.relationShips]
    exact h.ranked

end Referred

theorem referred_inductive : machine.Inductive (fun _ tx => InvitedByOther tx) Referred where
  init s hinit := by
    have hregistered := registered_init hinit
    obtain ⟨nftOwner, pointsOwner, hnft, hpoints⟩ := hinit
    refine ⟨hregistered, fun a ha => ?_, ?_⟩
    · rw [hpoints] at ha
      exact absurd rfl ha
    · rw [hpoints]
      exact Forest.ranked_empty 0
  step s tx s' h hother hstep := by
    obtain ⟨hvia, hother⟩ := hother
    have heffect := exec_effect hvia hstep
    have hregistered := h.toRegistered.effect heffect
    cases heffect with
    | mints tokenId grade userCode inviteCode hop hnone hregisters hmints =>
        rw [hop] at hother
        exact h.mints hregistered hnone hother hregisters
    | trades token amount dst tokenId userCode points hop hregisters hdeleted hcodes hmoves =>
        exact h.trades hregistered hregisters hcodes
    | burns tokenId howner hburns hdeleted hcodes => exact h.sameCodes hregistered hcodes
    | idle hidle => exact h.sameCodes hregistered hidle.codes

/-- Points that are minted to an account which is not its own referrer are all it gets. -/
theorem balanceOf_mint_le {p p' : Points} {sender account : Address} {amount : Nat}
    (hreferrer : account ≠ 0 → p.relationShips account ≠ account)
    (h : p.mint sender account amount = .ok p') :
    p'.erc20.balanceOf account ≤ p.erc20.balanceOf account + amount := by
  obtain ⟨_, erc20, hown, hreward⟩ := Points.mint_eq_ok h
  have hfirst : erc20.balanceOf account ≤ p.erc20.balanceOf account + amount := by
    rcases hown with rfl | hmints
    · exact Nat.le_add_right _ _
    · rw [ERC20.balanceOf_mint hmints, if_pos rfl]
  rcases hreward with hsame | ⟨hsome, reward, hmints⟩
  · rw [hsame]
    exact hfirst
  · have hother : account ≠ p.relationShips account := by
      intro hself
      exact hreferrer (hself ▸ hsome) hself.symm
    rw [ERC20.balanceOf_mint hmints, if_neg hother, Nat.add_zero]
    exact hfirst

/-- In every state of a run through the relayer in which nobody registers the code that it is
invited by: no referral leads back to an account, no account is its own referrer, and points that
are minted to an account are all it gets. -/
theorem acyclic_of_reachable (s : State)
    (hreach : machine.ReachableBy (fun _ tx => InvitedByOther tx) s) :
    Forest.Acyclic 0 s.points.relationShips ∧
    (∀ a, a ≠ 0 → s.points.relationShips a ≠ a) ∧
    ∀ sender account amount points, s.points.mint sender account amount = .ok points →
      points.erc20.balanceOf account ≤ s.points.erc20.balanceOf account + amount := by
  have hacyclic := (referred_inductive.invariant hreach).ranked.acyclic
  refine ⟨hacyclic, fun a ha => hacyclic.parent_ne ha,
    fun sender account amount points hmints => ?_⟩
  exact balanceOf_mint_le hacyclic.parent_ne hmints

instance (tx : Tx) : Decidable (InvitedByOther tx) := by
  obtain ⟨sender, value, outside, op⟩ := tx
  unfold InvitedByOther
  dsimp only
  split <;> exact inferInstance

/-- Account 1 refers account 2. -/
theorem acyclic_of_invite :
    ∃ s, machine.Reachable s ∧ s.points.relationShips 2 = 1 ∧
      Forest.Acyclic 0 s.points.relationShips := by
  have hrun : (machine.guarded fun _ tx => InvitedByOther tx).lastStep deployed
      (opening ++ [{ sender := 1, op := .mintBadge 123 0 10001 0 }])
      { sender := 2, op := .mintBadge 124 0 10002 10001 }
      (fun _ s => s.points.relationShips 2 = 1) = true := by
    decide +kernel
  obtain ⟨s₁, s, hreach, hstep, htest⟩ :=
    TSys.lastStep_reachable (M := machine.guarded _) deployed_init hrun
  have hreach : machine.ReachableBy (fun _ tx => InvitedByOther tx) s :=
    TSys.reachableBy_of_guarded (fun _ _ hcheck => of_decide_eq_true hcheck)
      (.step hreach trivial hstep)
  exact ⟨s, hreach.reachable, of_decide_eq_true htest, (acyclic_of_reachable s hreach).1⟩

/-- Account 1 registers the code 10001 and is invited by it. -/
theorem selfReferral_reachable :
    ∃ s, machine.ReachableBy (fun _ tx => ViaRelayer tx) s ∧
      ¬ Forest.Acyclic 0 s.points.relationShips := by
  have hrun : (machine.guarded fun _ tx => ViaRelayer tx).lastStep deployed opening
      { sender := 1, op := .mintBadge 123 0 10001 10001 }
      (fun _ s => s.points.relationShips 1 = 1) = true := by
    decide +kernel
  obtain ⟨s₁, s, hreach, hstep, htest⟩ :=
    TSys.lastStep_reachable (M := machine.guarded _) deployed_init hrun
  have hreach : machine.ReachableBy (fun _ tx => ViaRelayer tx) s :=
    TSys.reachableBy_of_guarded (fun _ _ hcheck => of_decide_eq_true hcheck)
      (.step hreach trivial hstep)
  exact ⟨s, hreach, fun hacyclic => hacyclic 1 0 (by decide) (of_decide_eq_true htest)⟩

end Huski.Badge
