import Huski.Badge.Relayer

/-!
# One badge and one code for each person

Through the relayer an account is registered when it gets a badge, and its invitation is deleted
when a badge leaves it, for good. So an account that can register and has no badge never was
registered: minting keeps one badge and one code for each account. A trade does not look at the
badges of the buyer; it keeps both as long as the buyer has none.
-/

open Solidity

namespace Huski.Badge

/-- The calls of the tokens that only the whitelist may make, minting of points apart. -/
def TokenOp.operates : TokenOp → Bool
  | .nftTransferFrom .. | .nftBurn .. | .nftMintTo .. | .nftUpgrade .. | .makeInviteRelation ..
  | .pointsTransfer .. | .pointsTransferFrom .. | .deleteInvite .. | .pointsBurn .. => true
  | _ => false

/-- Badges and invitations are written through the relayer only. -/
def ViaRelayer (tx : Tx) : Prop :=
  match tx.op with
  | .token op => op.operates = false
  | _ => True

/-- The buyer of a badge has none, or trades with itself. -/
def BuysFirst (s : State) (tx : Tx) : Prop :=
  ViaRelayer tx ∧ match tx.op with
    | .transferBadge _ _ dst _ _ => dst = tx.sender ∨ s.nft.holderTokens tx.sender = ∅
    | _ => True

/-! ## What a call through the relayer does -/

/-- Badges, codes and referrals stay. -/
structure Idle (s s' : State) : Prop where
  tokenOwners : s'.nft.tokenOwners = s.nft.tokenOwners
  holderTokens : s'.nft.holderTokens = s.nft.holderTokens
  codes : Points.SameCodes s.points s'.points

/-- The four things that a call through the relayer can do. -/
inductive Effect (tx : Tx) (s s' : State) : Prop
  | mints (tokenId grade userCode inviteCode : Nat)
      (hop : tx.op = .mintBadge tokenId grade userCode inviteCode)
      (hnone : s.nft.holderTokens tx.sender = ∅)
      (hregisters : Points.Registers tx.sender userCode inviteCode s.points s'.points)
      (hmints : s.nft._mint tx.sender tokenId = .ok s'.nft.toERC721)
  | trades (token : Address) (amount : Nat) (dst : Address) (tokenId userCode : Nat)
      (points : Points) (hop : tx.op = .transferBadge token amount dst tokenId userCode)
      (hregisters : Points.Registers tx.sender userCode 0 s.points points)
      (hdeleted : s'.points.deleted dst = true) (hcodes : Points.SameCodes points s'.points)
      (hmoves : s.nft._transfer dst tx.sender tokenId = .ok s'.nft.toERC721)
  | burns (tokenId : Nat) (howner : s.nft.tokenOwners tokenId = tx.sender)
      (hburns : s.nft._burn tokenId = .ok s'.nft.toERC721)
      (hdeleted : s'.points.deleted tx.sender = true)
      (hcodes : Points.SameCodes s.points s'.points)
  | idle (hidle : Idle s s')

section Effects

variable {tx : Tx} {s s' : State} {sender : Address}

theorem execToken_idle {op : TokenOp} (hop : op.operates = false)
    (h : execToken sender op s = .ok s') : Idle s s' := by
  unfold execToken at h
  -- a call of the badges leaves the points, and the other way round
  have hnft : s'.nft.toERC721 = s.nft.toERC721 → s'.points = s.points → Idle s s' :=
    fun hitems hsame => ⟨by rw [hitems], by rw [hitems], by rw [hsame]; exact .refl _⟩
  have hpoints : s'.nft = s.nft → Points.SameCodes s.points s'.points → Idle s s' :=
    fun hsame hcodes => ⟨by rw [hsame], by rw [hsame], hcodes⟩
  cases op with
  | nftApprove dst tokenId =>
      obtain ⟨hcall, hsame⟩ := onNft_eq_ok h
      simp only [bind_eq_ok, pure_eq_ok] at hcall
      obtain ⟨items, happroves, hitems⟩ := hcall
      obtain ⟨howners, hholders⟩ := ERC721.tokenOwners_approve happroves
      exact ⟨hitems ▸ howners, hitems ▸ hholders, hsame ▸ .refl _⟩
  | nftSetApprovalForAll operator approved =>
      obtain ⟨hcall, hsame⟩ := onNft_eq_ok h
      simp only [bind_eq_ok, pure_eq_ok] at hcall
      obtain ⟨items, happroves, hitems⟩ := hcall
      obtain ⟨howners, hholders⟩ := ERC721.tokenOwners_setApprovalForAll happroves
      exact ⟨hitems ▸ howners, hitems ▸ hholders, hsame ▸ .refl _⟩
  | nftSetOperatorsOk operators isOk =>
      obtain ⟨hcall, hsame⟩ := onNft_eq_ok h
      exact hnft (BadgeNFT.setOperatorsOk_eq_ok hcall) hsame
  | nftSetGradeInfo ids points huskys amounts =>
      obtain ⟨hcall, hsame⟩ := onNft_eq_ok h
      exact hnft (BadgeNFT.setGradeInfo_eq_ok hcall) hsame
  | nftTransferOwnership newOwner =>
      obtain ⟨hcall, hsame⟩ := onNft_eq_ok h
      exact hnft (BadgeNFT.transferOwnership_eq_ok hcall) hsame
  | nftRenounceOwnership =>
      obtain ⟨hcall, hsame⟩ := onNft_eq_ok h
      exact hnft (BadgeNFT.renounceOwnership_eq_ok hcall) hsame
  | pointsMint account amount =>
      obtain ⟨hcall, hsame⟩ := onPoints_eq_ok h
      exact hpoints hsame (Points.mint_eq_ok hcall).1
  | pointsApprove spender amount =>
      obtain ⟨hcall, hsame⟩ := onPoints_eq_ok h
      exact hpoints hsame (Points.approve_eq_ok hcall).2
  | setOperatorOk operators isOk =>
      obtain ⟨hcall, hsame⟩ := onPoints_eq_ok h
      exact hpoints hsame (Points.setOperatorOk_eq_ok hcall).2
  | setAllocPoint allocPoint =>
      obtain ⟨hcall, hsame⟩ := onPoints_eq_ok h
      exact hpoints hsame (Points.setAllocPoint_eq_ok hcall).2
  | pointsTransferOwnership newOwner =>
      obtain ⟨hcall, hsame⟩ := onPoints_eq_ok h
      exact hpoints hsame (Points.transferOwnership_eq_ok hcall).2
  | pointsRenounceOwnership =>
      obtain ⟨hcall, hsame⟩ := onPoints_eq_ok h
      exact hpoints hsame (Points.renounceOwnership_eq_ok hcall).2
  -- the functions of the operators, which only the relayer calls
  | _ => cases hop

/-- What a call does to badges and codes. -/
theorem exec_effect (hvia : ViaRelayer tx) (h : exec s tx = .ok s') : Effect tx s s' := by
  obtain ⟨sender, value, o, op⟩ := tx
  unfold exec at h
  cases op with
  | mintBadge tokenId grade userCode inviteCode =>
      obtain ⟨hregisters, hmints⟩ := mintBadge_eq_ok h
      obtain ⟨hnone, hmints⟩ := BadgeNFT.mintTo_eq_ok hmints
      exact .mints tokenId grade userCode inviteCode rfl (Finset.card_eq_zero.mp hnone) hregisters
        hmints
  -- an upgrade touches neither owners nor codes
  | upgradeBadge tokenId newGrade =>
      obtain ⟨hitems, hpoints⟩ := upgradeBadge_eq_ok h
      exact .idle ⟨by rw [hitems], by rw [hitems], hpoints ▸ .refl _⟩
  | transferBadge token amount dst tokenId userCode =>
      obtain ⟨⟨points, gradePoints, hregisters, hpoints⟩, hmoves⟩ := transferBadge_trades h
      obtain ⟨_, hdeleted, hcodes⟩ := Points.transferFrom_eq_ok hpoints
      exact .trades token amount dst tokenId userCode points rfl hregisters hdeleted hcodes
        (BadgeNFT.transferFrom_eq_ok hmoves)
  | burn tokenId =>
      obtain ⟨hburns, hdeletes⟩ := burn_eq_ok h
      obtain ⟨howner, hburns⟩ := BadgeNFT.burn_eq_ok hburns
      obtain ⟨_, hdeleted, hcodes⟩ := Points.deleteInvite_eq_ok hdeletes
      exact .burns tokenId howner hburns hdeleted hcodes
  | mintPoints account amount multiplier =>
      obtain ⟨hnft, minted, hmints⟩ := mintPoints_eq_ok h
      exact .idle ⟨by rw [hnft], by rw [hnft], (Points.mint_eq_ok hmints).1⟩
  | transferOwnership newOwner =>
      obtain ⟨hnft, hpoints⟩ := transferOwnership_eq_ok h
      exact .idle ⟨by rw [hnft], by rw [hnft], hpoints ▸ .refl _⟩
  | renounceOwnership =>
      obtain ⟨hnft, hpoints⟩ := renounceOwnership_eq_ok h
      exact .idle ⟨by rw [hnft], by rw [hnft], hpoints ▸ .refl _⟩
  | token op => exact .idle (execToken_idle hvia h)

end Effects

/-! ## Registrations and badges -/

/-- A registered account whose invitation is not deleted has a badge; who owns a code, which is
above 10000, is registered. -/
structure Registered (s : State) : Prop where
  consistent : s.nft.Consistent
  holds : ∀ a, a ≠ 0 → s.points.deleted a = false → s.points.inviteCode a ≠ 0 →
    ∃ tokenId, s.nft.tokenOwners tokenId = a
  registered : ∀ code, s.points.inviteCodesOwner code ≠ 0 →
    10000 < code ∧ s.points.inviteCode (s.points.inviteCodesOwner code) ≠ 0

namespace Registered

variable {s s' : State} {sender dst : Address} {tokenId userCode inviteCode : Nat}

/-- An account without a badge that can register never was. -/
theorem unregistered (h : Registered s) (hsender : sender ≠ 0)
    (hnone : s.nft.holderTokens sender = ∅) (hlive : s.points.deleted sender = false) :
    s.points.inviteCode sender = 0 := by
  by_contra hcode
  obtain ⟨id, howner⟩ := h.holds sender hsender hlive hcode
  exact h.consistent.notOwner hsender hnone id howner

/-- The codes after a registration. -/
theorem codes_registers {p p' : Points}
    (hregisters : Points.Registers sender userCode inviteCode p p')
    (h : ∀ code, p.inviteCodesOwner code ≠ 0 →
      10000 < code ∧ p.inviteCode (p.inviteCodesOwner code) ≠ 0) (code : Nat)
    (hcode : p'.inviteCodesOwner code ≠ 0) :
    10000 < code ∧ p'.inviteCode (p'.inviteCodesOwner code) ≠ 0 := by
  have hgt := hregisters.userCode_gt
  rw [hregisters.inviteCodesOwner] at hcode ⊢
  rw [hregisters.inviteCode]
  by_cases hsame : code = userCode
  · subst hsame
    rw [Function.update_self, Function.update_self]
    exact ⟨hgt, by omega⟩
  · rw [Function.update_of_ne hsame] at hcode ⊢
    obtain ⟨hcodeGt, howner⟩ := h code hcode
    refine ⟨hcodeGt, ?_⟩
    by_cases hself : p.inviteCodesOwner code = sender
    · rw [hself, Function.update_self]
      omega
    · rw [Function.update_of_ne hself]
      exact howner

theorem idle (h : Registered s) (hidle : Idle s s') : Registered s' where
  consistent a id := by
    rw [hidle.tokenOwners, hidle.holderTokens]
    exact h.consistent a id
  holds a ha hlive hcode := by
    rw [hidle.codes.inviteCode] at hcode
    rw [hidle.tokenOwners]
    exact h.holds a ha (hidle.codes.live hlive) hcode
  registered code := by
    rw [hidle.codes.inviteCodesOwner, hidle.codes.inviteCode]
    exact h.registered code

theorem mints (h : Registered s)
    (hregisters : Points.Registers sender userCode inviteCode s.points s'.points)
    (hmints : s.nft._mint sender tokenId = .ok s'.nft.toERC721) : Registered s' where
  consistent := h.consistent.mint hmints
  holds a ha hlive hcode := by
    rw [ERC721.tokenOwners_mint hmints]
    obtain ⟨_, hnew, _⟩ := ERC721.mint_eq_ok hmints
    by_cases hself : a = sender
    · subst hself
      exact ⟨tokenId, Function.update_self _ _ _⟩
    · rw [hregisters.deleted] at hlive
      rw [hregisters.inviteCode, Function.update_of_ne hself] at hcode
      obtain ⟨id, howner⟩ := h.holds a ha hlive hcode
      have hid : id ≠ tokenId := by
        rintro rfl
        exact ha (howner.symm.trans hnew)
      exact ⟨id, by rw [Function.update_of_ne hid]; exact howner⟩
  registered := codes_registers hregisters h.registered

theorem trades (h : Registered s) {points : Points}
    (hregisters : Points.Registers sender userCode inviteCode s.points points)
    (hdeleted : s'.points.deleted dst = true) (hcodes : Points.SameCodes points s'.points)
    (hmoves : s.nft._transfer dst sender tokenId = .ok s'.nft.toERC721) : Registered s' where
  consistent := h.consistent.transfer hmoves
  holds a ha hlive hcode := by
    rw [ERC721.tokenOwners_transfer hmoves]
    obtain ⟨_, howner, _⟩ := ERC721.transfer_eq_ok hmoves
    by_cases hself : a = sender
    · subst hself
      exact ⟨tokenId, Function.update_self _ _ _⟩
    · have hlive₁ := hcodes.live hlive
      rw [hregisters.deleted] at hlive₁
      rw [hcodes.inviteCode, hregisters.inviteCode, Function.update_of_ne hself] at hcode
      obtain ⟨id, hid⟩ := h.holds a ha hlive₁ hcode
      -- the account that was traded with is deleted
      have hother : id ≠ tokenId := by
        rintro rfl
        rw [← hid, howner, hdeleted] at hlive
        cases hlive
      exact ⟨id, by rw [Function.update_of_ne hother]; exact hid⟩
  registered code := by
    rw [hcodes.inviteCodesOwner, hcodes.inviteCode]
    exact codes_registers hregisters h.registered code

theorem burns (h : Registered s) (howner : s.nft.tokenOwners tokenId = sender)
    (hburns : s.nft._burn tokenId = .ok s'.nft.toERC721)
    (hdeleted : s'.points.deleted sender = true)
    (hcodes : Points.SameCodes s.points s'.points) : Registered s' where
  consistent := h.consistent.burn hburns
  holds a ha hlive hcode := by
    rw [hcodes.inviteCode] at hcode
    rw [ERC721.tokenOwners_burn hburns]
    obtain ⟨id, hid⟩ := h.holds a ha (hcodes.live hlive) hcode
    have hother : id ≠ tokenId := by
      rintro rfl
      rw [← hid, howner, hdeleted] at hlive
      cases hlive
    exact ⟨id, by rw [Function.update_of_ne hother]; exact hid⟩
  registered code := by
    rw [hcodes.inviteCodesOwner, hcodes.inviteCode]
    exact h.registered code

/-- Every effect of a call keeps the codes registered. -/
theorem effect {tx : Tx} (h : Registered s) (he : Effect tx s s') : Registered s' := by
  cases he with
  | mints tokenId grade userCode inviteCode hop hnone hregisters hmints =>
      exact h.mints hregisters hmints
  | trades token amount dst tokenId userCode points hop hregisters hdeleted hcodes hmoves =>
      exact h.trades hregisters hdeleted hcodes hmoves
  | burns tokenId howner hburns hdeleted hcodes => exact h.burns howner hburns hdeleted hcodes
  | idle hidle => exact h.idle hidle

end Registered

theorem registered_init {s : State} (hinit : machine.init s) : Registered s := by
  obtain ⟨nftOwner, pointsOwner, hnft, hpoints⟩ := hinit
  refine ⟨?_, fun a _ _ hcode => ?_, fun code hcode => ?_⟩
  · rw [hnft]
    exact ERC721.consistent_empty
  · rw [hpoints] at hcode
    exact absurd rfl hcode
  · rw [hpoints] at hcode
    exact absurd rfl hcode

/-! ## One badge, one code -/

/-- No account has two badges. -/
def OneEach (owners : Nat → Address) : Prop :=
  ∀ id id', owners id ≠ 0 → owners id = owners id' → id = id'

/-- A badge for somebody who has none. -/
theorem OneEach.update {owners : Nat → Address} {a : Address} {tokenId : Nat} (h : OneEach owners)
    (hnobody : ∀ id, owners id ≠ a) : OneEach (Function.update owners tokenId a) := by
  intro id id' hsome hsame
  by_cases hid : id = tokenId
  · by_cases hid' : id' = tokenId
    · rw [hid, hid']
    · rw [hid, Function.update_self, Function.update_of_ne hid'] at hsame
      exact absurd hsame.symm (hnobody id')
  · rw [Function.update_of_ne hid] at hsome hsame
    by_cases hid' : id' = tokenId
    · rw [hid', Function.update_self] at hsame
      exact absurd hsame (hnobody id)
    · rw [Function.update_of_ne hid'] at hsame
      exact h id id' hsome hsame

/-- One badge less. -/
theorem OneEach.remove {owners : Nat → Address} {tokenId : Nat} (h : OneEach owners) :
    OneEach (Function.update owners tokenId 0) := by
  intro id id' hsome hsame
  have hid : id ≠ tokenId := by
    rintro rfl
    exact hsome (Function.update_self _ _ _)
  rw [Function.update_of_ne hid] at hsome hsame
  by_cases hid' : id' = tokenId
  · rw [hid', Function.update_self] at hsame
    exact absurd hsame hsome
  · rw [Function.update_of_ne hid'] at hsame
    exact h id id' hsome hsame

/-- The code of an account that is not deleted is the one code that it owns. -/
def Owns (p : Points) (a : Address) : Prop :=
  ∀ code, 10000 < code → (p.inviteCodesOwner code = a ↔ p.inviteCode a = code)

section Owns

variable {p p' : Points} {sender a : Address} {userCode inviteCode : Nat}

theorem Owns.sameCodes (h : Owns p a) (hcodes : Points.SameCodes p p') : Owns p' a := by
  intro code hcode
  rw [hcodes.inviteCodesOwner, hcodes.inviteCode]
  exact h code hcode

/-- A registration takes no code from another account. -/
theorem Owns.registers_other (h : Owns p a) (ha : a ≠ 0) (hother : a ≠ sender)
    (hregisters : Points.Registers sender userCode inviteCode p p') : Owns p' a := by
  intro code hcode
  have hinverse := h code hcode
  rw [hregisters.inviteCodesOwner, hregisters.inviteCode, Function.update_of_ne hother]
  by_cases hsame : code = userCode
  · subst hsame
    rw [hregisters.unowned] at hinverse
    rw [Function.update_self]
    exact iff_of_false (Ne.symm hother) fun hown => ha (hinverse.mpr hown).symm
  · rw [Function.update_of_ne hsame]
    exact hinverse

/-- An account that was not registered owns the code it registers. -/
theorem Owns.registers (h : Owns p sender) (hfresh : p.inviteCode sender = 0)
    (hregisters : Points.Registers sender userCode inviteCode p p') : Owns p' sender := by
  intro code hcode
  rw [hregisters.inviteCodesOwner, hregisters.inviteCode, Function.update_self]
  by_cases hsame : code = userCode
  · subst hsame
    rw [Function.update_self]
    exact iff_of_true rfl rfl
  · rw [Function.update_of_ne hsame, h code hcode, hfresh]
    exact iff_of_false (by omega) (Ne.symm hsame)

end Owns

/-- No account has two badges, and an account that is not deleted owns the one code that is its
own. -/
structure OnePerPerson (s : State) : Prop extends Registered s where
  single : OneEach s.nft.tokenOwners
  owns : ∀ a, a ≠ 0 → s.points.deleted a = false → Owns s.points a

namespace OnePerPerson

variable {s s' : State} {sender dst : Address} {tokenId userCode inviteCode : Nat}

/-- After a registration of an account without a badge. -/
theorem owns_registers (h : OnePerPerson s) (hnone : s.nft.holderTokens sender = ∅)
    {points : Points} (hregisters : Points.Registers sender userCode inviteCode s.points points)
    (a : Address) (ha : a ≠ 0) (hlive : points.deleted a = false) : Owns points a := by
  rw [hregisters.deleted] at hlive
  have howns := h.owns a ha hlive
  by_cases hself : a = sender
  · subst hself
    exact howns.registers (h.unregistered ha hnone hlive) hregisters
  · exact howns.registers_other ha hself hregisters

theorem mints (h : OnePerPerson s) (hnone : s.nft.holderTokens sender = ∅)
    (hregisters : Points.Registers sender userCode inviteCode s.points s'.points)
    (hmints : s.nft._mint sender tokenId = .ok s'.nft.toERC721) : OnePerPerson s' where
  toRegistered := h.toRegistered.mints hregisters hmints
  single := by
    rw [ERC721.tokenOwners_mint hmints]
    exact h.single.update (h.consistent.notOwner hregisters.account_ne hnone)
  owns := h.owns_registers hnone hregisters

theorem trades (h : OnePerPerson s) (hfirst : dst = sender ∨ s.nft.holderTokens sender = ∅)
    {points : Points} (hregisters : Points.Registers sender userCode inviteCode s.points points)
    (hdeleted : s'.points.deleted dst = true) (hcodes : Points.SameCodes points s'.points)
    (hmoves : s.nft._transfer dst sender tokenId = .ok s'.nft.toERC721) : OnePerPerson s' where
  toRegistered := h.toRegistered.trades hregisters hdeleted hcodes hmoves
  single := by
    obtain ⟨_, howner, _⟩ := ERC721.transfer_eq_ok hmoves
    rw [ERC721.tokenOwners_transfer hmoves]
    rcases hfirst with hself | hnone
    · rw [hself] at howner
      rw [← howner, Function.update_eq_self]
      exact h.single
    · exact h.single.update (h.consistent.notOwner hregisters.account_ne hnone)
  owns a ha hlive := by
    have hlive₁ := hcodes.live hlive
    rcases hfirst with hself | hnone
    · -- the account that trades with itself is deleted
      have hother : a ≠ sender := by
        rintro rfl
        rw [← hself, hdeleted] at hlive
        cases hlive
      rw [hregisters.deleted] at hlive₁
      exact ((h.owns a ha hlive₁).registers_other ha hother hregisters).sameCodes hcodes
    · exact (h.owns_registers hnone hregisters a ha hlive₁).sameCodes hcodes

theorem burns (h : OnePerPerson s) (howner : s.nft.tokenOwners tokenId = sender)
    (hburns : s.nft._burn tokenId = .ok s'.nft.toERC721)
    (hdeleted : s'.points.deleted sender = true)
    (hcodes : Points.SameCodes s.points s'.points) : OnePerPerson s' where
  toRegistered := h.toRegistered.burns howner hburns hdeleted hcodes
  single := by
    rw [ERC721.tokenOwners_burn hburns]
    exact h.single.remove
  owns a ha hlive := (h.owns a ha (hcodes.live hlive)).sameCodes hcodes

theorem idle (h : OnePerPerson s) (hidle : Idle s s') : OnePerPerson s' where
  toRegistered := h.toRegistered.idle hidle
  single := by
    rw [hidle.tokenOwners]
    exact h.single
  owns a ha hlive := (h.owns a ha (hidle.codes.live hlive)).sameCodes hidle.codes

end OnePerPerson

/-- Nobody has two badges in any state of a run whose buyers have none. -/
theorem onePerPerson_inductive : machine.Inductive BuysFirst OnePerPerson where
  init s hinit := by
    have hregistered := registered_init hinit
    obtain ⟨nftOwner, pointsOwner, hnft, hpoints⟩ := hinit
    refine ⟨hregistered, fun id _ hsome _ => ?_, fun a ha _ code hcode => ?_⟩
    · rw [hnft] at hsome
      exact absurd rfl hsome
    · rw [hpoints]
      refine iff_of_false ha.symm fun hnone => ?_
      rw [← hnone] at hcode
      exact absurd hcode (Nat.not_lt_zero _)
  step s tx s' h hfirst hstep := by
    obtain ⟨hvia, hfirst⟩ := hfirst
    cases exec_effect hvia hstep with
    | mints tokenId grade userCode inviteCode hop hnone hregisters hmints =>
        exact h.mints hnone hregisters hmints
    | trades token amount dst tokenId userCode points hop hregisters hdeleted hcodes hmoves =>
        rw [hop] at hfirst
        exact h.trades hfirst hregisters hdeleted hcodes hmoves
    | burns tokenId howner hburns hdeleted hcodes => exact h.burns howner hburns hdeleted hcodes
    | idle hidle => exact h.idle hidle

/-- In every state of a run through the relayer in which nobody buys a badge while it has one:
every account has at most one badge, and the two maps of codes are inverse to each other on the
accounts that are not deleted. -/
theorem onePerPerson_of_reachable (s : State) (hreach : machine.ReachableBy BuysFirst s) :
    (∀ a, a ≠ 0 → (s.nft.holderTokens a).card ≤ 1) ∧
    ∀ code a, 10000 < code → a ≠ 0 →
      (s.points.inviteCodesOwner code = a ∧ s.points.deleted a = false ↔
        s.points.inviteCode a = code ∧ s.points.deleted a = false) := by
  have h := onePerPerson_inductive.invariant hreach
  refine ⟨fun a ha => ?_, fun code a hcode ha => ?_⟩
  · rw [Finset.card_le_one]
    intro id hid id' hid'
    obtain ⟨_, howner⟩ := (h.consistent a id).mp hid
    obtain ⟨_, howner'⟩ := (h.consistent a id').mp hid'
    exact h.single id id' (howner ▸ ha) (howner.trans howner'.symm)
  · exact and_congr_left fun hlive => h.owns a ha hlive code hcode

instance (tx : Tx) : Decidable (ViaRelayer tx) := by
  unfold ViaRelayer
  split <;> exact inferInstance

instance (s : State) (tx : Tx) : Decidable (BuysFirst s tx) := by
  unfold BuysFirst
  split <;> exact inferInstance

/-- Account 2 has no badge, and buys the one of account 1. -/
theorem onePerPerson_of_trade :
    ∃ s, machine.Reachable s ∧ s.nft.tokenOwners 123 = 2 ∧ s.points.inviteCode 2 = 10002 ∧
      (s.nft.holderTokens 2).card ≤ 1 := by
  have hrun : (machine.guarded fun s tx => BuysFirst s tx).lastStep deployed
      (opening ++ [{ sender := 1, op := .mintBadge 123 0 10001 0 }])
      { sender := 2, op := .transferBadge 300 100 1 123 10002 }
      (fun _ s => s.nft.tokenOwners 123 = 2 ∧ s.points.inviteCode 2 = 10002) = true := by
    decide +kernel
  obtain ⟨s₁, s, hreach, hstep, htest⟩ :=
    TSys.lastStep_reachable (M := machine.guarded _) deployed_init hrun
  obtain ⟨howner, hcode⟩ := of_decide_eq_true htest
  have hreach : machine.ReachableBy BuysFirst s :=
    TSys.reachableBy_of_guarded (fun _ _ hcheck => of_decide_eq_true hcheck)
      (.step hreach trivial hstep)
  exact ⟨s, hreach.reachable, howner, hcode, (onePerPerson_of_reachable s hreach).1 2 (by decide)⟩

/-- Account 2 has a badge and the code 10002 and buys another badge: it has two badges, and both
of its codes name it. -/
theorem secondBadge_reachable :
    ∃ s, machine.ReachableBy (fun _ tx => ViaRelayer tx) s ∧ (s.nft.holderTokens 2).card = 2 ∧
      ¬ (s.points.inviteCodesOwner 10002 = 2 ∧ s.points.deleted 2 = false ↔
        s.points.inviteCode 2 = 10002 ∧ s.points.deleted 2 = false) := by
  have hrun : (machine.guarded fun _ tx => ViaRelayer tx).lastStep deployed
      (opening ++ [{ sender := 1, op := .mintBadge 123 0 10001 0 },
        { sender := 2, op := .mintBadge 124 0 10002 0 }])
      { sender := 2, op := .transferBadge 300 100 1 123 10003 }
      (fun _ s => (s.nft.holderTokens 2).card = 2 ∧
        ¬ (s.points.inviteCodesOwner 10002 = 2 ∧ s.points.deleted 2 = false ↔
          s.points.inviteCode 2 = 10002 ∧ s.points.deleted 2 = false)) = true := by
    decide +kernel
  obtain ⟨s₁, s, hreach, hstep, htest⟩ :=
    TSys.lastStep_reachable (M := machine.guarded _) deployed_init hrun
  obtain ⟨htwo, hcodes⟩ := of_decide_eq_true htest
  exact ⟨s, TSys.reachableBy_of_guarded (fun _ _ hcheck => of_decide_eq_true hcheck)
    (.step hreach trivial hstep), htwo, hcodes⟩

end Huski.Badge
