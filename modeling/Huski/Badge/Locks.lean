import Huski.Badge.Codes
import Huski.Badge.Grades
import Huski.FairLaunch.Run

/-!
# The HUSKY that is locked for a badge

The relayer has FairLaunch take HUSKY when a badge is minted or upgraded and give it back when it
is burned. What was taken for a badge is written nowhere: each call reads the table of the grades
of its moment. `locked` is the history variable that the code lacks, by what FairLaunch got.

A badge that FairLaunch mints points for, or a trade paid in HUSKY, is no different from calls of
these tokens by others, which interleave here.
-/

open Solidity

namespace Huski.Badge

/-- `gradeLockHuskys[grade]` -/
def BadgeNFT.lockHusky (t : BadgeNFT) (grade : Nat) : Nat := t.gradeLockHuskys.getD grade 0

/-- What `safeHuskyTransfer` moves. -/
def sent (amount : Nat) (s : FairLaunch.State) : Nat := min amount (s.husky.balanceOf s.here)

/-- What the two transfers of `unlockFromOwner` move, to `devaddr` and to the account. -/
def released (blockNumber amount : Nat) (s : FairLaunch.State) : Nat :=
  match FairLaunch.safeHuskyTransfer blockNumber s.devaddr (amount / 10) s with
  | .ok s' => sent (amount / 10) s + sent (amount - amount / 10) s'
  | .error _ => 0

/-- The badges and FairLaunch, and what FairLaunch got for each badge since it was minted. -/
structure Joint where
  badges : State
  fair : FairLaunch.Chain
  locked : Nat → Nat

/-- A call of the relayer or of FairLaunch. -/
inductive Call
  | badges (blockNumber : Nat) (tx : Tx)
  | fairLaunch (tx : FairLaunch.Tx)

namespace Joint

variable (c : Joint) (blockNumber : Nat)

/-- The relayer asks HUSKY itself, and its call of FairLaunch comes after its own writes. -/
def withHusky (tx : Tx) : Tx :=
  { tx with outside := { tx.outside with
      balanceHusky := c.fair.state.husky.balanceOf tx.sender
      fairLaunch := true } }

def callFairLaunch (op : FairLaunch.Op) : Result FairLaunch.Chain :=
  FairLaunch.mine c.fair { sender := c.badges.here, blockNumber, op }

/-- What FairLaunch got. -/
def received (fair : FairLaunch.Chain) : Nat :=
  fair.state.husky.balanceOf c.fair.state.here - c.fair.state.husky.balanceOf c.fair.state.here

/-- A call of the relayer or one of the two tokens. FairLaunch never calls them. -/
def execBadges (tx : Tx) : Result Joint := do
  require (tx.sender ≠ c.fair.state.here) ""
  let badges ← exec c.badges (c.withHusky tx)
  let nft := c.badges.nft
  match tx.op with
  | .mintBadge tokenId grade _ _ => do
      let fair ← c.callFairLaunch blockNumber (.lockToOwner tx.sender (nft.lockHusky grade))
      return { badges, fair, locked := Function.update c.locked tokenId (c.received fair) }
  | .upgradeBadge tokenId newGrade => do
      let fair ← c.callFairLaunch blockNumber
        (.lockToOwner tx.sender (nft.lockHusky newGrade - nft.lockHusky (nft.tokensGrade tokenId)))
      return { badges, fair, locked :=
        Function.update c.locked tokenId (c.locked tokenId + c.received fair) }
  | .burn tokenId => do
      let fair ← c.callFairLaunch blockNumber
        (.unlockFromOwner tx.sender (nft.lockHusky (nft.tokensGrade tokenId)))
      return { badges, fair, locked := Function.update c.locked tokenId 0 }
  | _ => return { c with badges }

/-- A call of FairLaunch or its tokens; the relayer makes none but those above. -/
def execFairLaunch (tx : FairLaunch.Tx) : Result Joint := do
  require (tx.sender ≠ c.badges.here) ""
  let fair ← FairLaunch.mine c.fair tx
  return { c with fair }

def exec : Call → Result Joint
  | .badges blockNumber tx => c.execBadges blockNumber tx
  | .fairLaunch tx => c.execFairLaunch tx

end Joint

/-- Both contracts, with what is locked for each badge. -/
def joint : TSys Joint Call where
  init c := machine.init c.badges ∧ FairLaunch.machine.init c.fair ∧ c.locked = fun _ => 0
  step := Joint.exec

/-- Badges are written through the relayer only. -/
def Relayed : Call → Prop
  | .badges _ tx => ViaRelayer tx
  | .fairLaunch _ => True

/-- Besides, the owner sets the lock of a grade to at most what is locked for each badge that has
the grade. -/
def NeverRaises (c : Joint) (call : Call) : Prop :=
  Relayed call ∧ match call with
    | .badges _ { op := .token (.nftSetGradeInfo ids _ huskys _), .. } =>
        ∀ tokenId ∈ c.badges.nft.tokens, ∀ husky,
          (c.badges.nft.tokensGrade tokenId, husky) ∈ ids.zip huskys → husky ≤ c.locked tokenId
    | _ => True

/-! ## What FairLaunch takes and gives -/

section FairLaunch

open Huski.FairLaunch

variable {n amount : Nat} {account : Address} {s s' : FairLaunch.State}

theorem safeHuskyTransfer_spends (h : safeHuskyTransfer n account amount s = .ok s') :
    s'.here = s.here ∧
      s.husky.balanceOf s.here ≤ s'.husky.balanceOf s.here + sent amount s := by
  have hspends : ∀ amount,
      FairLaunch.State.onHusky (·.transfer s.here n account amount) s = .ok s' →
      s'.here = s.here ∧ s.husky.balanceOf s.here ≤ s'.husky.balanceOf s.here + amount := by
    intro amount hcall
    obtain ⟨husky, hmove, rfl⟩ := onHusky_eq_ok hcall
    obtain ⟨_, _, _, _, hbalance⟩ := HuskyToken.transfer_eq_ok hmove
    have hhere := hbalance s.here
    rw [if_pos rfl] at hhere
    refine ⟨rfl, ?_⟩
    show s.husky.balanceOf s.here ≤ husky.balanceOf s.here + amount
    omega
  simp only [safeHuskyTransfer] at h
  unfold sent
  split at h
  · rw [min_eq_right (by omega)]
    exact hspends _ h
  · rw [min_eq_left (by omega)]
    exact hspends _ h

/-- No more is released than asked for. -/
theorem released_le (n amount : Nat) (s : FairLaunch.State) : released n amount s ≤ amount := by
  unfold released sent
  split <;> omega

/-- A release takes from FairLaunch what it moves at most. -/
theorem unlockFromOwner_spends {msg : Msg}
    (h : unlockFromOwner msg account amount s = .ok s') :
    s.husky.balanceOf s.here ≤
      s'.husky.balanceOf s.here + released msg.blockNumber amount s := by
  simp only [unlockFromOwner, bind_eq_ok, require_eq_ok, SafeMath.sub_eq_ok] at h
  obtain ⟨_, _, s₁, hdev, _, ⟨_, rfl⟩, hrest⟩ := h
  obtain ⟨hhere, hfirst⟩ := safeHuskyTransfer_spends hdev
  obtain ⟨_, hsecond⟩ := safeHuskyTransfer_spends hrest
  rw [hhere] at hsecond
  have hreleased : released msg.blockNumber amount s =
      sent (amount / 10) s + sent (amount - amount / 10) s₁ := by
    unfold released
    rw [hdev]
  omega

/-- FairLaunch receives what is locked. -/
theorem lockToOwner_receives {msg : Msg} (haccount : account ≠ s.here)
    (h : lockToOwner msg account amount s = .ok s') :
    s'.husky.balanceOf s.here = s.husky.balanceOf s.here + amount := by
  simp only [lockToOwner, bind_eq_ok] at h
  obtain ⟨_, _, hcall⟩ := h
  obtain ⟨husky, hlock, rfl⟩ := onHusky_eq_ok hcall
  obtain ⟨_, _, _, howner, hbalance⟩ := HuskyToken.lockToOwner_eq_ok hlock
  have hhere := hbalance s.here
  rw [if_neg (Ne.symm haccount), if_pos howner.symm] at hhere
  exact hhere

end FairLaunch

/-! ## What the calls do to locks -/

section Locks

open BadgeNFT

variable {sender dst : Address} {tokenId : Nat} {t t' : BadgeNFT} {c c' : Joint}

/-- `setGradeInfo` leaves the lock of a grade, or sets it to what it was given. -/
theorem lockHusky_setGrades {ids points huskys amounts : List Nat}
    (h : t.setGrades ids points huskys amounts = .ok t') (grade : Nat) :
    t'.lockHusky grade = t.lockHusky grade ∨ (grade, t'.lockHusky grade) ∈ ids.zip huskys := by
  induction ids generalizing t points huskys amounts with
  | nil =>
      cases h
      exact .inl rfl
  | cons id ids ih =>
      match points, huskys, amounts, h with
      | point :: points, husky :: huskys, amount :: amounts, h =>
          simp only [setGrades, setGrade, bind_eq_ok, pure_eq_ok] at h
          obtain ⟨_, ⟨_, _, rfl⟩, hrest⟩ := h
          rw [List.zip_cons_cons, List.mem_cons]
          rcases ih hrest with hsame | hset
          · by_cases hgrade : id = grade ∧ id < t.gradeLockHuskys.length
            · obtain ⟨rfl, hid⟩ := hgrade
              refine .inr (.inl ?_)
              rw [hsame]
              exact Prod.ext rfl ((congrFun (getD_set hid) id).trans (Function.update_self _ _ _))
            · refine .inl (hsame.trans ?_)
              show (t.gradeLockHuskys.set id husky).getD grade 0 = t.gradeLockHuskys.getD grade 0
              rw [List.getD_eq_getElem?_getD, List.getD_eq_getElem?_getD, List.getElem?_set]
              grind
          · exact .inr (.inr hset)

theorem lockHusky_setGradeInfo {ids points huskys amounts : List Nat}
    (h : t.setGradeInfo sender ids points huskys amounts = .ok t') (grade : Nat) :
    t'.lockHusky grade = t.lockHusky grade ∨ (grade, t'.lockHusky grade) ∈ ids.zip huskys := by
  simp only [setGradeInfo, bind_eq_ok] at h
  obtain ⟨_, _, hgrades⟩ := h
  exact lockHusky_setGrades hgrades grade

/-- The lock of its grade was taken for every badge. -/
def Covered (c : Joint) : Prop :=
  ∀ tokenId ∈ c.badges.nft.tokens,
    c.badges.nft.lockHusky (c.badges.nft.tokensGrade tokenId) ≤ c.locked tokenId

theorem Covered.same (h : Covered c) (hlocked : c'.locked = c.locked)
    (htokens : c'.badges.nft.tokens = c.badges.nft.tokens)
    (hgrades : c'.badges.nft.tokensGrade = c.badges.nft.tokensGrade)
    (hlocks : c'.badges.nft.gradeLockHuskys = c.badges.nft.gradeLockHuskys) : Covered c' := by
  intro tokenId htoken
  unfold lockHusky
  rw [hlocked, hgrades, hlocks]
  rw [htokens] at htoken
  exact h tokenId htoken

theorem callFairLaunch_receives {n amount : Nat} {fair : FairLaunch.Chain}
    (hsender : sender ≠ c.fair.state.here)
    (h : c.callFairLaunch n (.lockToOwner sender amount) = .ok fair) :
    c.received fair = amount := by
  obtain ⟨_, _, _, _, hexec⟩ := FairLaunch.mine_eq_ok h
  have hreceives := lockToOwner_receives hsender hexec
  unfold Joint.received
  omega

/-- A mint locks what its burn will pay. -/
theorem Covered.mints {n grade : Nat} {badges : State} {fair : FairLaunch.Chain} (h : Covered c)
    (hsender : sender ≠ c.fair.state.here)
    (hmints : c.badges.nft.mintTo dst sender tokenId grade = .ok badges.nft)
    (hlock : c.callFairLaunch n (.lockToOwner sender (c.badges.nft.lockHusky grade)) = .ok fair) :
    Covered { badges, fair, locked := Function.update c.locked tokenId (c.received fair) } := by
  obtain ⟨_, htokens⟩ := tokens_mint (mintTo_eq_ok hmints).2
  obtain ⟨_, _, hwrites⟩ := mintTo_writes hmints
  have hlocks : badges.nft.gradeLockHuskys = c.badges.nft.gradeLockHuskys := by rw [hwrites]
  have hgrades : badges.nft.tokensGrade =
      Function.update c.badges.nft.tokensGrade tokenId grade := by
    rw [hwrites]
  intro id hid
  show badges.nft.gradeLockHuskys.getD (badges.nft.tokensGrade id) 0 ≤
    Function.update c.locked tokenId (c.received fair) id
  rw [hlocks, hgrades]
  by_cases hself : id = tokenId
  · subst hself
    rw [Function.update_self, Function.update_self, callFairLaunch_receives hsender hlock]
    exact le_rfl
  · rw [Function.update_of_ne hself, Function.update_of_ne hself]
    have hold : id ∈ insert tokenId c.badges.nft.tokens := htokens ▸ hid
    exact h id (hold.resolve_left hself)

/-- An upgrade takes the difference of the two locks. -/
theorem Covered.upgrades {n newGrade : Nat} {badges : State} {fair : FairLaunch.Chain}
    (h : Covered c) (hsender : sender ≠ c.fair.state.here) (hsome : tokenId ∈ c.badges.nft.tokens)
    (hupgrades : c.badges.nft.upgrade dst tokenId newGrade = .ok badges.nft)
    (hlock : c.callFairLaunch n (.lockToOwner sender (c.badges.nft.lockHusky newGrade -
      c.badges.nft.lockHusky (c.badges.nft.tokensGrade tokenId))) = .ok fair) :
    Covered { badges, fair, locked :=
      Function.update c.locked tokenId (c.locked tokenId + c.received fair) } := by
  obtain ⟨_, _, _, hwrites⟩ := upgrade_writes hupgrades
  have hlocks : badges.nft.gradeLockHuskys = c.badges.nft.gradeLockHuskys := by rw [hwrites]
  have hgrades : badges.nft.tokensGrade =
      Function.update c.badges.nft.tokensGrade tokenId newGrade := by rw [hwrites]
  have htokens : badges.nft.tokens = c.badges.nft.tokens := by
    unfold tokens
    rw [upgrade_eq_ok hupgrades]
  intro id hid
  show badges.nft.gradeLockHuskys.getD (badges.nft.tokensGrade id) 0 ≤
    Function.update c.locked tokenId (c.locked tokenId + c.received fair) id
  rw [hlocks, hgrades]
  by_cases hself : id = tokenId
  · subst hself
    rw [Function.update_self, Function.update_self, callFairLaunch_receives hsender hlock]
    have hbefore := h id hsome
    show c.badges.nft.lockHusky newGrade ≤ _
    omega
  · rw [Function.update_of_ne hself, Function.update_of_ne hself]
    exact h id (htokens ▸ hid)

theorem Covered.burns {badges : State} {fair : FairLaunch.Chain} (h : Covered c)
    (hburns : c.badges.nft.burn dst sender tokenId = .ok badges.nft) :
    Covered { badges, fair, locked := Function.update c.locked tokenId 0 } := by
  obtain ⟨_, htokens⟩ := tokens_burn (BadgeNFT.burn_eq_ok hburns).2
  obtain ⟨_, hwrites⟩ := burn_writes hburns
  have hlocks : badges.nft.gradeLockHuskys = c.badges.nft.gradeLockHuskys := by rw [hwrites]
  have hgrades : badges.nft.tokensGrade = Function.update c.badges.nft.tokensGrade tokenId 0 := by
    rw [hwrites]
  intro id hid
  have hleft : id ∈ c.badges.nft.tokens \ {tokenId} := htokens ▸ hid
  obtain ⟨hold, hother⟩ := hleft
  show badges.nft.gradeLockHuskys.getD (badges.nft.tokensGrade id) 0 ≤
    Function.update c.locked tokenId 0 id
  rw [hlocks, hgrades, Function.update_of_ne hother, Function.update_of_ne hother]
  exact h id hold

theorem Covered.token {sender : Address} {op : TokenOp} {badges : State} (h : Covered c)
    (hvia : op.operates = false)
    (hsets : ∀ ids points huskys amounts, op = .nftSetGradeInfo ids points huskys amounts →
      ∀ tokenId ∈ c.badges.nft.tokens, ∀ husky,
        (c.badges.nft.tokensGrade tokenId, husky) ∈ ids.zip huskys → husky ≤ c.locked tokenId)
    (hexec : execToken sender op c.badges = .ok badges) : Covered { c with badges } := by
  have hidle := execToken_idle hvia hexec
  have htokens : badges.nft.tokens = c.badges.nft.tokens := by
    unfold tokens
    rw [hidle.tokenOwners]
  -- a call of the points leaves the badges
  have hpoints : ∀ {f : Points → Result Points}, onPoints f c.badges = .ok badges →
      Covered { c with badges } := by
    intro f hf
    have hnft := (onPoints_eq_ok hf).2
    exact h.same rfl htokens (congrArg BadgeNFT.tokensGrade hnft)
      (congrArg BadgeNFT.gradeLockHuskys hnft)
  unfold execToken at hexec
  cases op with
  | nftSetGradeInfo ids points huskys amounts =>
      obtain ⟨hcall, _⟩ := onNft_eq_ok hexec
      have hgrades : badges.nft.tokensGrade = c.badges.nft.tokensGrade := by
        rw [(setGradeInfo_writes hcall).1]
      intro id hid
      have hold : id ∈ c.badges.nft.tokens := htokens ▸ hid
      show badges.nft.lockHusky (badges.nft.tokensGrade id) ≤ c.locked id
      rw [hgrades]
      -- an entry that is set is no more than what was locked for these badges
      rcases lockHusky_setGradeInfo hcall (c.badges.nft.tokensGrade id) with hsame | hset
      · rw [hsame]
        exact h id hold
      · exact hsets ids points huskys amounts rfl id hold _ hset
  -- the rest sets no entry
  | nftApprove dst tokenId =>
      obtain ⟨hcall, _⟩ := onNft_eq_ok hexec
      simp only [bind_eq_ok, pure_eq_ok] at hcall
      obtain ⟨items, _, hitems⟩ := hcall
      exact h.same rfl htokens (by rw [← hitems]) (by rw [← hitems])
  | nftSetApprovalForAll operator approved =>
      obtain ⟨hcall, _⟩ := onNft_eq_ok hexec
      simp only [bind_eq_ok, pure_eq_ok] at hcall
      obtain ⟨items, _, hitems⟩ := hcall
      exact h.same rfl htokens (by rw [← hitems]) (by rw [← hitems])
  | nftSetOperatorsOk operators isOk =>
      obtain ⟨hcall, _⟩ := onNft_eq_ok hexec
      simp only [setOperatorsOk, bind_eq_ok, pure_eq_ok] at hcall
      obtain ⟨_, _, hnft⟩ := hcall
      exact h.same rfl htokens (by rw [← hnft]) (by rw [← hnft])
  | nftTransferOwnership newOwner =>
      obtain ⟨hcall, _⟩ := onNft_eq_ok hexec
      simp only [BadgeNFT.transferOwnership, bind_eq_ok, pure_eq_ok] at hcall
      obtain ⟨_, _, _, _, hnft⟩ := hcall
      exact h.same rfl htokens (by rw [← hnft]) (by rw [← hnft])
  | nftRenounceOwnership =>
      obtain ⟨hcall, _⟩ := onNft_eq_ok hexec
      simp only [BadgeNFT.renounceOwnership, bind_eq_ok, pure_eq_ok] at hcall
      obtain ⟨_, _, hnft⟩ := hcall
      exact h.same rfl htokens (by rw [← hnft]) (by rw [← hnft])
  | pointsMint | pointsApprove | setOperatorOk | setAllocPoint | pointsTransferOwnership
  | pointsRenounceOwnership =>
      exact hpoints hexec
  | _ => cases hvia

/-- A call that raises no entry leaves the locks covered. -/
theorem covered_badges {n : Nat} {tx : Tx} (h : Covered c) (hok : NeverRaises c (.badges n tx))
    (hstep : c.execBadges n tx = .ok c') : Covered c' := by
  obtain ⟨sender, value, o, op⟩ := tx
  simp only [Joint.execBadges, bind_eq_ok, require_eq_ok] at hstep
  obtain ⟨_, hsender, badges, hexec, hrest⟩ := hstep
  unfold exec Joint.withHusky at hexec
  cases op with
  -- three functions move HUSKY of FairLaunch
  | mintBadge tokenId grade userCode inviteCode =>
      simp only [bind_eq_ok, pure_eq_ok] at hrest
      obtain ⟨fair, hlock, rfl⟩ := hrest
      exact h.mints hsender (mintBadge_eq_ok hexec).2 hlock
  | upgradeBadge tokenId newGrade =>
      simp only [bind_eq_ok, pure_eq_ok] at hrest
      obtain ⟨fair, hlock, rfl⟩ := hrest
      obtain ⟨hsome, hupgrades⟩ := upgradeBadge_upgrades hexec
      exact h.upgrades hsender hsome hupgrades hlock
  | burn tokenId =>
      simp only [bind_eq_ok, pure_eq_ok] at hrest
      obtain ⟨fair, _, rfl⟩ := hrest
      exact h.burns (burn_eq_ok hexec).1
  -- a trade moves the badge, and what was locked stays
  | transferBadge token amount dst tokenId userCode =>
      cases hrest
      have hmoves := (transferBadge_trades hexec).moves
      have hwrites := transferFrom_writes hmoves
      exact h.same rfl (tokens_transfer (transferFrom_eq_ok hmoves)) (by rw [hwrites])
        (by rw [hwrites])
  | mintPoints account amount multiplier =>
      cases hrest
      have hnft := (mintPoints_eq_ok hexec).1
      exact h.same rfl (by rw [hnft]) (by rw [hnft]) (by rw [hnft])
  | transferOwnership newOwner =>
      cases hrest
      have hnft := (transferOwnership_eq_ok hexec).1
      exact h.same rfl (by rw [hnft]) (by rw [hnft]) (by rw [hnft])
  | renounceOwnership =>
      cases hrest
      have hnft := (renounceOwnership_eq_ok hexec).1
      exact h.same rfl (by rw [hnft]) (by rw [hnft]) (by rw [hnft])
  | token op =>
      cases hrest
      obtain ⟨hvia, hsets⟩ := hok
      refine h.token hvia ?_ hexec
      rintro ids points huskys amounts rfl
      exact hsets

/-- The locks are covered in every state of a run that raises no entry. -/
theorem covered_inductive : joint.Inductive NeverRaises Covered where
  init c hinit := by
    obtain ⟨⟨_, _, hnft, _⟩, _⟩ := hinit
    intro tokenId htoken
    rw [hnft] at htoken
    exact absurd rfl htoken
  step c call c' h hok hstep := by
    cases call with
    | badges n tx => exact covered_badges h hok hstep
    | fairLaunch tx =>
        simp only [joint, Joint.exec, Joint.execFairLaunch, bind_eq_ok, pure_eq_ok] at hstep
        obtain ⟨_, _, fair, _, rfl⟩ := hstep
        exact h

/-- As long as no lock is raised over what was taken for a badge, a burn releases at most what was
locked for the badge, and FairLaunch spends nothing else on it. -/
theorem released_le_locked (c : Joint) (hreach : joint.ReachableBy NeverRaises c) (n : Nat)
    (tx : Tx)
    (tokenId : Nat) (c' : Joint) (hop : tx.op = .burn tokenId)
    (hstep : joint.step c (.badges n tx) = .ok c') :
    released n (c.badges.nft.lockHusky (c.badges.nft.tokensGrade tokenId)) c.fair.state ≤
        c.locked tokenId ∧
      c.fair.state.husky.balanceOf c.fair.state.here ≤
        c'.fair.state.husky.balanceOf c.fair.state.here + c.locked tokenId := by
  have hcovered := covered_inductive.invariant hreach
  obtain ⟨sender, value, o, op⟩ := tx
  subst hop
  simp only [joint, Joint.exec, Joint.execBadges, bind_eq_ok, pure_eq_ok] at hstep
  obtain ⟨_, _, badges, hexec, fair, hunlock, rfl⟩ := hstep
  obtain ⟨hsome, _⟩ := tokens_burn (BadgeNFT.burn_eq_ok (burn_eq_ok hexec).1).2
  obtain ⟨_, _, _, _, hunlock⟩ := FairLaunch.mine_eq_ok hunlock
  have hspends := unlockFromOwner_spends hunlock
  have hreleased := released_le n
    (c.badges.nft.lockHusky (c.badges.nft.tokensGrade tokenId)) c.fair.state
  have hlocked := hcovered tokenId hsome
  refine ⟨hreleased.trans hlocked, hspends.trans ?_⟩
  exact Nat.add_le_add_left (hreleased.trans hlocked) _

/-- The relayer at 200 and FairLaunch at 100, with 1000 HUSKY for each of the accounts 1 and 2. -/
def deployedJoint : Joint where
  badges := deployed
  fair :=
    { block := 0
      state := FairLaunch.initState 100 50
        { FairLaunch.freshHusky with erc20 :=
            { balanceOf := fun account => if account = 1 ∨ account = 2 then 1000 else 0
              totalSupply := 2000 } }
        (fun _ => FairLaunch.heldToken) 51 0 0 0 0 }
  locked := fun _ => 0

theorem deployedJoint_init : joint.init deployedJoint :=
  ⟨deployed_init, ⟨100, 50, _, _, 51, 0, 0, 0, 0, rfl, rfl⟩, rfl⟩

/-- Account 50 sets the lock of the first grade. -/
def setLock (n husky : Nat) : Call :=
  .badges n { sender := 50, op := .token (.nftSetGradeInfo [0] [0] [husky] [10]) }

/-- Both tokens and FairLaunch are opened for the relayer, and account 1 mints a badge. -/
def firstBadge : List Call :=
  [.badges 0 { sender := 50, op := .token (.nftSetOperatorsOk [200] true) },
   .badges 0 { sender := 50, op := .token (.setOperatorOk [200] true) },
   .fairLaunch { sender := 50, blockNumber := 1, op := .setBadgeRelayer 200 },
   .badges 2 { sender := 1, op := .mintBadge 123 0 10001 0 }]

/-- The burn of account 1. -/
def firstBurn : Call := .badges 4 { sender := 1, op := .burn 123 }

theorem released_le_locked_hundred :
    ∃ c : Joint, joint.ReachableBy NeverRaises c ∧ c.locked 123 = 100 ∧
      released 4 (c.badges.nft.lockHusky (c.badges.nft.tokensGrade 123)) c.fair.state ≤ 100 := by
  have hrun : joint.lastStep deployedJoint (setLock 0 100 :: firstBadge) firstBurn
      (fun c _ => c.locked 123 = 100) = true := by
    decide +kernel
  obtain ⟨c₁, hsets, hrun⟩ := TSys.lastStep_cons hrun
  -- there is no badge yet whose lock could be raised
  have hfirst : NeverRaises deployedJoint (setLock 0 100) :=
    ⟨rfl, fun tokenId htoken _ _ => absurd rfl htoken⟩
  have hrest : ∀ τ, ∀ call ∈ firstBadge, NeverRaises τ call := by
    intro τ call hcall
    fin_cases hcall <;> exact ⟨by first | rfl | trivial, trivial⟩
  obtain ⟨c, c', hreach, hstep, htest⟩ :=
    TSys.lastStep_from (.step (.init deployedJoint_init) hfirst hsets) hrest hrun
  have hlocked : c.locked 123 = 100 := of_decide_eq_true htest
  refine ⟨c, hreach, hlocked, ?_⟩
  rw [← hlocked]
  exact (released_le_locked c hreach 4 _ 123 c' rfl hstep).1

/-- The lock of account 1's badge was 100 and is set to 1000: its burn releases 900 of the HUSKY
that was locked for another badge. -/
theorem raisedLock_releases :
    ¬ ∀ (c : Joint), joint.ReachableBy (fun _ call => Relayed call) c →
      ∀ (n : Nat) (tx : Tx) (tokenId : Nat) (c' : Joint), tx.op = .burn tokenId →
        joint.step c (.badges n tx) = .ok c' →
        released n (c.badges.nft.lockHusky (c.badges.nft.tokensGrade tokenId)) c.fair.state ≤
          c.locked tokenId := by
  intro hclaim
  have hrun : joint.lastStep deployedJoint
      (setLock 0 100 :: firstBadge ++ [setLock 2 1000,
        .badges 3 { sender := 2, op := .mintBadge 124 0 10002 0 }]) firstBurn
      (fun c _ => c.locked 123 <
        released 4 (c.badges.nft.lockHusky (c.badges.nft.tokensGrade 123)) c.fair.state) =
          true := by
    decide +kernel
  have hrelayed : ∀ τ : Joint, ∀ call ∈ setLock 0 100 :: firstBadge ++ [setLock 2 1000,
      .badges 3 { sender := 2, op := .mintBadge 124 0 10002 0 }], Relayed call := by
    intro τ call hcall
    fin_cases hcall <;> first | rfl | trivial
  obtain ⟨c, c', hreach, hstep, htest⟩ :=
    TSys.lastStep_reachableBy deployedJoint_init hrelayed hrun
  have hmore := of_decide_eq_true htest
  exact absurd (hclaim c hreach 4 _ 123 c' rfl hstep) (Nat.not_le.mpr hmore)

end Locks

end Huski.Badge
