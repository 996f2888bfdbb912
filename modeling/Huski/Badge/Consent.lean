import Huski.Badge.Relayer

/-!
# Who agrees to what leaves an account

The two tokens leave consent to their callers. The relayer asks the owner only by being called by
it: `mintBadge`, `upgradeBadge` and `burn` act on the sender. `transferBadge` acts on the account
that the sender names, and asks nothing of it; a whitelisted caller of the tokens does as well.
-/

open Solidity

namespace Huski.Badge

section Consent

variable (y x : Address) (s : State)

/-- `y` has approved the relayer, or the caller `x`, for its badge. -/
def ApprovesBadge (tokenId : Nat) : Prop :=
  s.nft.tokenApprovals tokenId = s.here ∨ s.nft.tokenApprovals tokenId = x ∨
    s.nft.operatorApprovals y s.here = true ∨ s.nft.operatorApprovals y x = true

/-- `y` has approved the relayer, or the caller `x`, for points. -/
def ApprovesPoints (amount : Nat) : Prop :=
  amount ≤ s.points.erc20.allowance y s.here ∨ amount ≤ s.points.erc20.allowance y x

/-- What leaves an account other than the caller's was approved by it. The points of a traded
badge leave with the approval of the badge. -/
def LeavesAgreed (tx : Tx) (s s' : State) : Prop :=
  ∀ y, y ≠ tx.sender →
    (∀ tokenId, y ≠ 0 → s.nft.tokenOwners tokenId = y → s'.nft.tokenOwners tokenId ≠ y →
      ApprovesBadge y tx.sender s tokenId) ∧
    (s'.points.erc20.balanceOf y < s.points.erc20.balanceOf y →
      ApprovesPoints y tx.sender s
        (s.points.erc20.balanceOf y - s'.points.erc20.balanceOf y) ∨
      ∃ token amount tokenId userCode, tx.op = .transferBadge token amount y tokenId userCode ∧
        ApprovesBadge y tx.sender s tokenId)

/-- The call names the caller, or an account that has approved what it takes. -/
def Agrees (tx : Tx) (s : State) : Prop :=
  match tx.op with
  | .transferBadge _ _ dst tokenId _ => dst = tx.sender ∨ ApprovesBadge dst tx.sender s tokenId
  | .token (.nftTransferFrom src dst tokenId) =>
      src = tx.sender ∨ src = dst ∨ ApprovesBadge src tx.sender s tokenId
  | .token (.nftBurn src tokenId) => src = tx.sender ∨ ApprovesBadge src tx.sender s tokenId
  | .token (.pointsTransferFrom src recipient amount) =>
      src = tx.sender ∨ src = recipient ∨ amount = 0 ∨ ApprovesPoints src tx.sender s amount
  | .token (.pointsBurn account amount) =>
      account = tx.sender ∨ amount = 0 ∨ ApprovesPoints account tx.sender s amount
  | _ => True

end Consent

/-! ## What a call takes from whom -/

section Calls

variable {tx : Tx} {s s' : State} {src dst sender : Address} {amount tokenId : Nat}

/-- A call that leaves all owners and takes no points. -/
theorem leavesAgreed_of_same (howners : s'.nft.tokenOwners = s.nft.tokenOwners)
    (hpoints : ∀ y, s.points.erc20.balanceOf y ≤ s'.points.erc20.balanceOf y) :
    LeavesAgreed tx s s' := by
  intro y _
  refine ⟨fun id _ howner hleft => ?_, fun hless => ?_⟩
  · rw [howners] at hleft
    exact absurd howner hleft
  · exact absurd (hpoints y) (Nat.not_le.mpr hless)

theorem mint_balanceOf_le {p p' : Points} {account : Address}
    (h : p.mint sender account amount = .ok p') (y : Address) :
    p.erc20.balanceOf y ≤ p'.erc20.balanceOf y := by
  obtain ⟨-, erc20, hown, hreward⟩ := Points.mint_eq_ok h
  have hfirst : p.erc20.balanceOf y ≤ erc20.balanceOf y := by
    rcases hown with rfl | hmints
    · exact le_rfl
    · rw [ERC20.balanceOf_mint hmints]
      exact Nat.le_add_right _ _
  rcases hreward with hsame | ⟨_, reward, hmints⟩
  · rw [hsame]
    exact hfirst
  · rw [ERC20.balanceOf_mint hmints]
    exact hfirst.trans (Nat.le_add_right _ _)

/-- A badge that moves leaves its owner only. -/
theorem eq_src_of_left {t t' : ERC721} {y : Address} {id : Nat}
    (hmoves : t._transfer src dst tokenId = .ok t') (howner : t.tokenOwners id = y)
    (hleft : t'.tokenOwners id ≠ y) : y = src ∧ id = tokenId := by
  obtain ⟨_, hsrc, _⟩ := ERC721.transfer_eq_ok hmoves
  rw [ERC721.tokenOwners_transfer hmoves] at hleft
  by_cases hid : id = tokenId
  · subst hid
    exact ⟨howner.symm.trans hsrc, rfl⟩
  · rw [Function.update_of_ne hid] at hleft
    exact absurd howner hleft

/-- A transfer of points takes them from the holder only, unless it is the recipient. -/
theorem eq_src_of_less {t t' : ERC20} {y : Address}
    (hmoves : t._transfer src dst amount = .ok t') (hless : t'.balanceOf y < t.balanceOf y) :
    y = src ∧ y ≠ dst ∧ t.balanceOf y - t'.balanceOf y = amount := by
  have hbalance := ERC20.balanceOf_transfer hmoves y
  split at hbalance
  · rename_i hsrc
    split at hbalance
    · omega
    · rename_i hdst
      exact ⟨hsrc, hdst, by omega⟩
  · omega

theorem trade_agrees (token : Address) (userCode : Nat) (hop : tx.op =
      .transferBadge token amount dst tokenId userCode)
    (htrades : Trades tx.sender dst tokenId userCode s s') :
    LeavesAgreed tx s s' ↔ dst = tx.sender ∨ ApprovesBadge dst tx.sender s tokenId := by
  obtain ⟨⟨points, gradePoints, hregisters, hpoints⟩, hbadge⟩ := htrades
  have hmoves := BadgeNFT.transferFrom_eq_ok hbadge
  obtain ⟨hdst, howner, _⟩ := ERC721.transfer_eq_ok hmoves
  obtain ⟨hpaid, _⟩ := Points.transferFrom_eq_ok hpoints
  rw [hregisters.erc20] at hpaid
  constructor
  · intro hagreed
    by_cases hself : dst = tx.sender
    · exact .inl hself
    · refine .inr ((hagreed dst hself).1 tokenId hdst howner ?_)
      rw [ERC721.tokenOwners_transfer hmoves, Function.update_self]
      exact Ne.symm hself
  · intro hconsent y hy
    refine ⟨fun id _ hid hleft => ?_, fun hless => ?_⟩
    · obtain ⟨rfl, rfl⟩ := eq_src_of_left hmoves hid hleft
      exact hconsent.resolve_left hy
    · obtain ⟨rfl, _⟩ := eq_src_of_less hpaid hless
      exact .inr ⟨token, amount, tokenId, userCode, hop, hconsent.resolve_left hy⟩

theorem nftTransferFrom_agrees (hmoves : s.nft._transfer src dst tokenId = .ok s'.nft.toERC721)
    (hpoints : s'.points = s.points) :
    LeavesAgreed tx s s' ↔
      src = tx.sender ∨ src = dst ∨ ApprovesBadge src tx.sender s tokenId := by
  obtain ⟨hsrc, howner, _⟩ := ERC721.transfer_eq_ok hmoves
  constructor
  · intro hagreed
    by_cases hself : src = tx.sender
    · exact .inl hself
    · by_cases hback : src = dst
      · exact .inr (.inl hback)
      · refine .inr (.inr ((hagreed src hself).1 tokenId hsrc howner ?_))
        rw [ERC721.tokenOwners_transfer hmoves, Function.update_self]
        exact Ne.symm hback
  · intro hconsent y hy
    refine ⟨fun id _ hid hleft => ?_, fun hless => ?_⟩
    · obtain ⟨rfl, rfl⟩ := eq_src_of_left hmoves hid hleft
      refine (hconsent.resolve_left hy).resolve_left fun hback => hleft ?_
      rw [ERC721.tokenOwners_transfer hmoves, Function.update_self]
      exact hback.symm
    · rw [hpoints] at hless
      exact absurd hless (lt_irrefl _)

theorem nftBurn_agrees (howner : s.nft.tokenOwners tokenId = src)
    (hburns : s.nft._burn tokenId = .ok s'.nft.toERC721) (hpoints : s'.points = s.points) :
    LeavesAgreed tx s s' ↔ src = tx.sender ∨ ApprovesBadge src tx.sender s tokenId := by
  have howners := ERC721.tokenOwners_burn hburns
  have hsrc : src ≠ 0 := howner ▸ (ERC721.burn_eq_ok hburns).1
  constructor
  · intro hagreed
    by_cases hself : src = tx.sender
    · exact .inl hself
    · refine .inr ((hagreed src hself).1 tokenId hsrc howner ?_)
      rw [howners, Function.update_self]
      exact Ne.symm hsrc
  · intro hconsent y hy
    refine ⟨fun id _ hid hleft => ?_, fun hless => ?_⟩
    · rw [howners] at hleft
      by_cases hsame : id = tokenId
      · subst hsame
        rw [howner] at hid
        subst hid
        exact hconsent.resolve_left hy
      · rw [Function.update_of_ne hsame] at hleft
        exact absurd hid hleft
    · rw [hpoints] at hless
      exact absurd hless (lt_irrefl _)

theorem pointsTransferFrom_agrees (hop : tx.op = .token (.pointsTransferFrom src dst amount))
    (hmoves : s.points.erc20._transfer src dst amount = .ok s'.points.erc20)
    (hnft : s'.nft = s.nft) :
    LeavesAgreed tx s s' ↔ src = tx.sender ∨ src = dst ∨ amount = 0 ∨
      ApprovesPoints src tx.sender s amount := by
  constructor
  · intro hagreed
    by_cases hself : src = tx.sender
    · exact .inl hself
    · by_cases hback : src = dst
      · exact .inr (.inl hback)
      · by_cases hnone : amount = 0
        · exact .inr (.inr (.inl hnone))
        · have hbalance := ERC20.balanceOf_transfer hmoves src
          rw [if_pos rfl, if_neg hback] at hbalance
          have hamount : s.points.erc20.balanceOf src - s'.points.erc20.balanceOf src = amount := by
            omega
          -- `src` lost the amount, so it agreed by an allowance or by a trade
          rcases (hagreed src hself).2 (by omega) with happroves | ⟨_, _, _, _, htrade, _⟩
          · rw [hamount] at happroves
            exact .inr (.inr (.inr happroves))
          · rw [hop] at htrade
            cases htrade
  -- only `src` can have lost anything
  · intro hconsent y hy
    refine ⟨fun id _ hid hleft => ?_, fun hless => .inl ?_⟩
    · rw [hnft] at hleft
      exact absurd hid hleft
    · obtain ⟨rfl, hback, hamount⟩ := eq_src_of_less hmoves hless
      rw [hamount]
      refine ((hconsent.resolve_left hy).resolve_left hback).resolve_left ?_
      omega

/-- A burn of points is agreed exactly when it is the caller's own, of nothing, or allowed. -/
theorem pointsBurn_agrees (hop : tx.op = .token (.pointsBurn src amount))
    (hburns : s.points.erc20._burn src amount = .ok s'.points.erc20) (hnft : s'.nft = s.nft) :
    LeavesAgreed tx s s' ↔ src = tx.sender ∨ amount = 0 ∨
      ApprovesPoints src tx.sender s amount := by
  constructor
  · intro hagreed
    by_cases hself : src = tx.sender
    · exact .inl hself
    · by_cases hnone : amount = 0
      · exact .inr (.inl hnone)
      · have hbalance := ERC20.balanceOf_burn hburns src
        rw [if_pos rfl] at hbalance
        have hamount : s.points.erc20.balanceOf src - s'.points.erc20.balanceOf src = amount := by
          omega
        -- `src` lost the amount, so it agreed by an allowance or by a trade
        rcases (hagreed src hself).2 (by omega) with happroves | ⟨_, _, _, _, htrade, _⟩
        · rw [hamount] at happroves
          exact .inr (.inr happroves)
        · rw [hop] at htrade
          cases htrade
  -- only `src` can have lost anything
  · intro hconsent y hy
    refine ⟨fun id _ hid hleft => ?_, fun hless => .inl ?_⟩
    · rw [hnft] at hleft
      exact absurd hid hleft
    · have hbalance := ERC20.balanceOf_burn hburns y
      split at hbalance
      · rename_i hsrc
        subst hsrc
        have hamount : s.points.erc20.balanceOf y - s'.points.erc20.balanceOf y = amount := by
          omega
        rw [hamount]
        refine (hconsent.resolve_left hy).resolve_left ?_
        omega
      · omega

theorem mint_leavesAgreed (hmints : s.nft._mint dst tokenId = .ok s'.nft.toERC721)
    (hpoints : s'.points.erc20 = s.points.erc20) : LeavesAgreed tx s s' := by
  intro y _
  refine ⟨fun id hzero howner hleft => ?_, fun hless => ?_⟩
  · rw [ERC721.tokenOwners_mint hmints] at hleft
    obtain ⟨_, hnew, _⟩ := ERC721.mint_eq_ok hmints
    by_cases hid : id = tokenId
    · subst hid
      exact absurd (howner.symm.trans hnew) hzero
    · rw [Function.update_of_ne hid] at hleft
      exact absurd howner hleft
  · rw [hpoints] at hless
    exact absurd hless (lt_irrefl _)

theorem burn_leavesAgreed {o : Outside} (h : burn tx.sender o s tokenId = .ok s') :
    LeavesAgreed tx s s' := by
  obtain ⟨hburns, hdeletes⟩ := burn_eq_ok h
  obtain ⟨howner, hburns⟩ := BadgeNFT.burn_eq_ok hburns
  obtain ⟨hpoints, _⟩ := Points.deleteInvite_eq_ok hdeletes
  intro y hy
  refine ⟨fun id _ hid hleft => ?_, fun hless => ?_⟩
  · rw [ERC721.tokenOwners_burn hburns] at hleft
    by_cases hsame : id = tokenId
    · subst hsame
      exact absurd (hid.symm.trans howner) hy
    · rw [Function.update_of_ne hsame] at hleft
      exact absurd hid hleft
  · rw [hpoints] at hless
    exact absurd hless (lt_irrefl _)

/-- A direct call of one of the tokens. -/
theorem execToken_agrees {op : TokenOp} {value : Nat} {o : Outside}
    (h : execToken sender op s = .ok s') (htx : tx = ⟨sender, value, o, .token op⟩) :
    LeavesAgreed tx s s' ↔ Agrees tx s := by
  subst htx
  unfold execToken at h
  -- a call that takes neither a badge nor points is agreed by everybody
  have hnft : s'.nft.tokenOwners = s.nft.tokenOwners → s'.points = s.points →
      (LeavesAgreed ⟨sender, value, o, .token op⟩ s s' ↔ True) := fun howners hpoints =>
    iff_true_intro (leavesAgreed_of_same howners fun y => by rw [hpoints])
  have hpoints : s'.nft = s.nft →
      (∀ y, s.points.erc20.balanceOf y ≤ s'.points.erc20.balanceOf y) →
      (LeavesAgreed ⟨sender, value, o, .token op⟩ s s' ↔ True) := fun hsame hbalance =>
    iff_true_intro (leavesAgreed_of_same (by rw [hsame]) hbalance)
  cases op with
  | nftApprove dst tokenId =>
      obtain ⟨hcall, hsame⟩ := onNft_eq_ok h
      simp only [bind_eq_ok, pure_eq_ok] at hcall
      obtain ⟨items, happroves, hitems⟩ := hcall
      rw [← hitems] at hnft
      exact hnft (ERC721.tokenOwners_approve happroves).1 hsame
  | nftSetApprovalForAll operator approved =>
      obtain ⟨hcall, hsame⟩ := onNft_eq_ok h
      simp only [bind_eq_ok, pure_eq_ok] at hcall
      obtain ⟨items, happroves, hitems⟩ := hcall
      rw [← hitems] at hnft
      exact hnft (ERC721.tokenOwners_setApprovalForAll happroves).1 hsame
  | nftTransferFrom src dst tokenId =>
      obtain ⟨hcall, hsame⟩ := onNft_eq_ok h
      exact nftTransferFrom_agrees (BadgeNFT.transferFrom_eq_ok hcall) hsame
  | nftBurn src tokenId =>
      obtain ⟨hcall, hsame⟩ := onNft_eq_ok h
      obtain ⟨howner, hburns⟩ := BadgeNFT.burn_eq_ok hcall
      exact nftBurn_agrees howner hburns hsame
  | nftMintTo dst tokenId grade =>
      obtain ⟨hcall, hsame⟩ := onNft_eq_ok h
      obtain ⟨_, hmints⟩ := BadgeNFT.mintTo_eq_ok hcall
      exact iff_true_intro (mint_leavesAgreed hmints (by rw [hsame]))
  | nftUpgrade tokenId newGrade =>
      obtain ⟨hcall, hsame⟩ := onNft_eq_ok h
      exact hnft (by rw [BadgeNFT.upgrade_eq_ok hcall]) hsame
  | nftSetOperatorsOk operators isOk =>
      obtain ⟨hcall, hsame⟩ := onNft_eq_ok h
      exact hnft (by rw [BadgeNFT.setOperatorsOk_eq_ok hcall]) hsame
  | nftSetGradeInfo ids points huskys amounts =>
      obtain ⟨hcall, hsame⟩ := onNft_eq_ok h
      exact hnft (by rw [BadgeNFT.setGradeInfo_eq_ok hcall]) hsame
  | nftTransferOwnership newOwner =>
      obtain ⟨hcall, hsame⟩ := onNft_eq_ok h
      exact hnft (by rw [BadgeNFT.transferOwnership_eq_ok hcall]) hsame
  | nftRenounceOwnership =>
      obtain ⟨hcall, hsame⟩ := onNft_eq_ok h
      exact hnft (by rw [BadgeNFT.renounceOwnership_eq_ok hcall]) hsame
  | makeInviteRelation account userCode inviteCode =>
      obtain ⟨hcall, hsame⟩ := onPoints_eq_ok h
      have hregisters := Points.makeInviteRelation_registers hcall
      exact hpoints hsame fun y => by rw [hregisters.erc20]
  -- only the caller's own points can move
  | pointsTransfer recipient amount =>
      obtain ⟨hcall, hsame⟩ := onPoints_eq_ok h
      obtain ⟨hmoves, _⟩ := Points.transfer_eq_ok hcall
      refine iff_true_intro fun y hy => ⟨fun id _ howner hleft => ?_, fun hless => ?_⟩
      · rw [hsame] at hleft
        exact absurd howner hleft
      · exact absurd (eq_src_of_less hmoves hless).1 hy
  | pointsTransferFrom src recipient amount =>
      obtain ⟨hcall, hsame⟩ := onPoints_eq_ok h
      exact pointsTransferFrom_agrees rfl (Points.transferFrom_eq_ok hcall).1 hsame
  | pointsMint account amount =>
      obtain ⟨hcall, hsame⟩ := onPoints_eq_ok h
      exact hpoints hsame fun y => mint_balanceOf_le hcall y
  | deleteInvite account =>
      obtain ⟨hcall, hsame⟩ := onPoints_eq_ok h
      exact hpoints hsame fun y => by rw [(Points.deleteInvite_eq_ok hcall).1]
  | pointsBurn account amount =>
      obtain ⟨hcall, hsame⟩ := onPoints_eq_ok h
      exact pointsBurn_agrees rfl (Points.burn_eq_ok hcall).1 hsame
  | pointsApprove spender amount =>
      obtain ⟨hcall, hsame⟩ := onPoints_eq_ok h
      exact hpoints hsame fun y => by rw [(Points.approve_eq_ok hcall).1]
  | setOperatorOk operators isOk =>
      obtain ⟨hcall, hsame⟩ := onPoints_eq_ok h
      exact hpoints hsame fun y => by rw [(Points.setOperatorOk_eq_ok hcall).1]
  | setAllocPoint allocPoint =>
      obtain ⟨hcall, hsame⟩ := onPoints_eq_ok h
      exact hpoints hsame fun y => by rw [(Points.setAllocPoint_eq_ok hcall).1]
  | pointsTransferOwnership newOwner =>
      obtain ⟨hcall, hsame⟩ := onPoints_eq_ok h
      exact hpoints hsame fun y => by rw [(Points.transferOwnership_eq_ok hcall).1]
  | pointsRenounceOwnership =>
      obtain ⟨hcall, hsame⟩ := onPoints_eq_ok h
      exact hpoints hsame fun y => by rw [(Points.renounceOwnership_eq_ok hcall).1]

end Calls

/-- In every state and for every call of any account: what leaves the other accounts was agreed
to exactly when the call names the caller or an account that has approved. A trade names an
account without its approval, and so does a whitelisted caller that moves or burns what is not
its own. -/
theorem leavesAgreed_iff (s : State) (tx : Tx) (s' : State)
    (hstep : machine.step s tx = .ok s') : LeavesAgreed tx s s' ↔ Agrees tx s := by
  obtain ⟨sender, value, o, op⟩ := tx
  cases op with
  | mintBadge tokenId grade userCode inviteCode =>
      obtain ⟨hregisters, hmints⟩ := mintBadge_eq_ok hstep
      obtain ⟨_, hmints⟩ := BadgeNFT.mintTo_eq_ok hmints
      exact iff_true_intro (mint_leavesAgreed hmints hregisters.erc20)
  | upgradeBadge tokenId newGrade =>
      obtain ⟨hitems, hpoints⟩ := upgradeBadge_eq_ok hstep
      exact iff_true_intro (leavesAgreed_of_same (by rw [hitems]) fun y => by rw [hpoints])
  -- the one function of the relayer that takes a badge from somebody else
  | transferBadge token amount dst tokenId userCode =>
      exact trade_agrees token userCode rfl (transferBadge_trades hstep)
  | burn tokenId => exact iff_true_intro (burn_leavesAgreed hstep)
  | mintPoints account amount multiplier =>
      obtain ⟨hnft, minted, hmints⟩ := mintPoints_eq_ok hstep
      exact iff_true_intro (leavesAgreed_of_same (by rw [hnft]) (mint_balanceOf_le hmints))
  | transferOwnership newOwner =>
      obtain ⟨hnft, hpoints⟩ := transferOwnership_eq_ok hstep
      exact iff_true_intro (leavesAgreed_of_same (by rw [hnft]) fun y => by rw [hpoints])
  | renounceOwnership =>
      obtain ⟨hnft, hpoints⟩ := renounceOwnership_eq_ok hstep
      exact iff_true_intro (leavesAgreed_of_same (by rw [hnft]) fun y => by rw [hpoints])
  | token op => exact execToken_agrees hstep rfl

/-- Account 1 approves the relayer for its badge 123, and account 2 buys it. -/
theorem leavesAgreed_of_approve :
    ∃ s s', machine.Reachable s ∧
      machine.step s { sender := 2, op := .transferBadge 300 100 1 123 10002 } = .ok s' ∧
      s.nft.tokenOwners 123 = 1 ∧ s'.nft.tokenOwners 123 = 2 ∧
      LeavesAgreed { sender := 2, op := .transferBadge 300 100 1 123 10002 } s s' := by
  have hrun : machine.lastStep deployed
      (opening ++ [{ sender := 1, op := .mintBadge 123 0 10001 0 },
        { sender := 1, op := .token (.nftApprove 200 123) }])
      { sender := 2, op := .transferBadge 300 100 1 123 10002 }
      (fun s s' => s.nft.tokenOwners 123 = 1 ∧ s'.nft.tokenOwners 123 = 2 ∧
        s.nft.tokenApprovals 123 = s.here) = true := by
    decide +kernel
  obtain ⟨s, s', hreach, hstep, htest⟩ := TSys.lastStep_reachable deployed_init hrun
  obtain ⟨howner, hbuyer, happroves⟩ := of_decide_eq_true htest
  exact ⟨s, s', hreach, hstep, howner, hbuyer,
    (leavesAgreed_iff s _ s' hstep).mpr (.inr (.inl happroves))⟩

/-- Account 2 takes the badge of account 1, which has approved nobody, for a payment of
nothing. -/
theorem transferBadge_takesUnapproved :
    ∃ s s', machine.Reachable s ∧
      machine.step s { sender := 2, op := .transferBadge 300 0 1 123 10002 } = .ok s' ∧
      ¬ LeavesAgreed { sender := 2, op := .transferBadge 300 0 1 123 10002 } s s' := by
  have hrun : machine.lastStep deployed
      (opening ++ [{ sender := 1, op := .mintBadge 123 0 10001 0 }])
      { sender := 2, op := .transferBadge 300 0 1 123 10002 }
      (fun s s' => s.nft.tokenOwners 123 = 1 ∧ s'.nft.tokenOwners 123 = 2 ∧
        s.nft.tokenApprovals 123 = 0 ∧ s.here = 200 ∧
        s.nft.operatorApprovals 1 200 = false ∧ s.nft.operatorApprovals 1 2 = false) = true := by
    decide +kernel
  obtain ⟨s, s', hreach, hstep, htest⟩ := TSys.lastStep_reachable deployed_init hrun
  obtain ⟨howner, hbuyer, hnobody, hhere, hrelayer, hcaller⟩ := of_decide_eq_true htest
  refine ⟨s, s', hreach, hstep, fun hagreed => ?_⟩
  have hleft : s'.nft.tokenOwners 123 ≠ 1 := by
    rw [hbuyer]
    decide
  have happroves := (hagreed 1 (by decide)).1 123 (by decide) howner hleft
  unfold ApprovesBadge at happroves
  rw [hnobody, hhere, hrelayer, hcaller] at happroves
  revert happroves
  decide

end Huski.Badge
