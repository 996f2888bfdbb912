import Huski.Dao.Payments

/-!
# The goal that the offerings share

Every offering asks the config how much may still be raised, and the config tests the total again
when it books a deposit. The offering admits what reaches the goal exactly, the config does not: the
last deposit has to stay below the goal.
-/

open Solidity
open scoped BigOperators

namespace Huski.Dao

/-- The credits of an offering, in order. -/
def World.investorsOf (w : World) (here : Address) : List Investor :=
  match w.offerings here with
  | some offering => offering.investors
  | none => []

/-- What was credited in an offering. -/
def World.raisedBy (w : World) (here : Address) : Nat :=
  ((w.investorsOf here).map (·.amount)).sum

/-- How often an account was credited in an offering. -/
def World.creditsOf (w : World) (account here : Address) : Nat :=
  ((w.investorsOf here).map (·.investor)).count account

/-- Only offerings are allowed to write to the config. -/
def OnlyOfferings (w : World) (tx : Tx) : Prop :=
  match tx.op with
  | .setPublicOffering publicOffering true => w.offerings publicOffering ≠ none
  | _ => True

/-- The config and the credits of all offerings agree. -/
structure Funded (w : World) : Prop where
  nowhere : w.offerings 0 = none
  unapproved : Unapproved w
  fundingGoal : w.config.fundingGoal = 5000000 * 10 ^ 18
  allowed : ∀ here, w.config.allows here = true → w.offerings here ≠ none
  raised : w.config.raisedAmount = ∑ here, w.raisedBy here
  below : w.config.raisedAmount < w.config.fundingGoal
  once : ∀ account, (∑ here, w.creditsOf account here) =
    if w.config.invested account = true then 1 else 0

section Steps

variable {sender here : Address} {msgValue value roundID inviterCode amount : Nat}
  {feed : PriceFeed} {offering : PublicOffering} {w w' w₁ : World}

/-- A call that credits nobody. -/
structure SameFunding (w w' : World) : Prop where
  offerings : SameOfferings w w'
  investors : ∀ here, w'.investorsOf here = w.investorsOf here
  fundingGoal : w'.config.fundingGoal = w.config.fundingGoal
  raisedAmount : w'.config.raisedAmount = w.config.raisedAmount
  invested : w'.config.invested = w.config.invested
  allowed : ∀ here, w'.config.allows here = true →
    w.config.allows here = true ∨ w.offerings here ≠ none

theorem SameOfferings.eq_none (h : SameOfferings w w') (hnone : w'.offerings here = none) :
    w.offerings here = none := by
  have htoken := h here
  rw [hnone] at htoken
  exact Option.map_eq_none_iff.mp htoken

theorem SameFunding.funded (hsame : SameFunding w w') (h : Funded w) (hunapproved : Unapproved w') :
    Funded w' where
  nowhere := by
    have hzero := hsame.offerings 0
    rw [h.nowhere] at hzero
    exact Option.map_eq_none_iff.mp hzero.symm
  unapproved := hunapproved
  fundingGoal := hsame.fundingGoal.trans h.fundingGoal
  allowed here hallowed hnone := by
    have hnone := hsame.offerings.eq_none hnone
    rcases hsame.allowed here hallowed with hold | hsome
    · exact h.allowed here hold hnone
    · exact hsome hnone
  -- the sums are over the same investors
  raised := by
    rw [hsame.raisedAmount, h.raised]
    refine TotalMap.sum_congr fun here => ?_
    unfold World.raisedBy
    rw [hsame.investors]
  below := by
    rw [hsame.raisedAmount, hsame.fundingGoal]
    exact h.below
  once account := by
    rw [hsame.invested, ← h.once account]
    refine TotalMap.sum_congr fun here => ?_
    unfold World.creditsOf
    rw [hsame.investors]

/-- A call that leaves the offerings. -/
theorem sameFunding_of_same (hofferings : w'.offerings = w.offerings)
    (hgoal : w'.config.fundingGoal = w.config.fundingGoal)
    (hraised : w'.config.raisedAmount = w.config.raisedAmount)
    (hinvested : w'.config.invested = w.config.invested)
    (hallowed : ∀ here, w'.config.allows here = true →
      w.config.allows here = true ∨ w.offerings here ≠ none) :
    SameFunding w w' := by
  refine ⟨fun here => ?_, fun here => ?_, hgoal, hraised, hinvested, hallowed⟩
  · rw [hofferings]
  · unfold World.investorsOf
    rw [hofferings]

theorem sameFunding_setOffering {offering' : PublicOffering}
    (hsome : w.offerings here = some offering) (htoken : offering'.token = offering.token)
    (hinvestors : offering'.investors = offering.investors) :
    SameFunding w (w.setOffering here offering') := by
  refine ⟨sameOfferings_setOffering hsome htoken, fun k => ?_, rfl, rfl, rfl, fun _ h => .inl h⟩
  unfold World.investorsOf World.setOffering
  dsimp only
  by_cases hk : k = here
  · rw [hk, Function.update_self, hsome]
    exact hinvestors
  · rw [Function.update_of_ne hk]

theorem payAsset_same {message : String} {accepts : Bool}
    (h : payAsset sender here message accepts amount offering w = .ok w') :
    w'.config = w.config ∧ w'.offerings = w.offerings := by
  unfold payAsset at h
  split at h
  · simp only [bind_eq_ok, lowLevel_eq_ok] at h
    obtain ⟨_, _, hsends⟩ := h
    have hsame := (sendNative_eq_ok hsends).1
    rw [hsame]
    exact ⟨rfl, rfl⟩
  · simp only [bind_eq_ok, pure_eq_ok] at h
    obtain ⟨t, _, rfl⟩ := h
    exact ⟨rfl, rfl⟩

/-- What a call of the config writes: it credits only for a caller that it allows. -/
structure ConfigWrites (tx : Tx) (config config' : PublicOfferingConfig) : Prop where
  fundingGoal : config'.fundingGoal = config.fundingGoal
  invested : ∀ account, config.invested account = true → config'.invested account = true
  credits : config.allows tx.sender = true ∨
    config'.raisedAmount = config.raisedAmount ∧ config'.invested = config.invested
  allowed : ∀ here, config'.allows here = true →
    config.allows here = true ∨ tx.op = .setPublicOffering here true

/-- What a transaction that is no deposit writes to the config and the offerings. -/
inductive Writes (tx : Tx) (w w' : World) : Prop
  | nothing (hconfig : w'.config = w.config) (hofferings : w'.offerings = w.offerings)
  | switch (here : Address) (offering offering' : PublicOffering)
      (hsome : w.offerings here = some offering) (hw : w' = w.setOffering here offering')
      (htoken : offering'.token = offering.token)
      (hinvestors : offering'.investors = offering.investors)
      (hnumber : offering'.numberOfInvitations = offering.numberOfInvitations)
  | config (hofferings : w'.offerings = w.offerings)
      (hwrites : ConfigWrites tx w.config w'.config)

theorem allow_eq_ok {config : PublicOfferingConfig} (h : config.allow sender = .ok ()) :
    config.allows sender = true := by
  simpa only [PublicOfferingConfig.allow, require_eq_ok] using h

theorem onConfig_writes {f : PublicOfferingConfig → Result PublicOfferingConfig} {tx : Tx}
    (hf : ∀ config, f w.config = .ok config → ConfigWrites tx w.config config)
    (h : onConfig f w = .ok w') : Writes tx w w' := by
  simp only [onConfig, bind_eq_ok, pure_eq_ok] at h
  obtain ⟨config, hconfig, rfl⟩ := h
  exact .config rfl (hf config hconfig)

/-- What each transaction but a deposit writes. -/
theorem exec_writes {tx : Tx} (hexec : exec tx w = .ok w')
    (hother : ∀ here value roundID inviterCode, tx.op ≠ .deposit here value roundID inviterCode) :
    Writes tx w w' := by
  obtain ⟨sender, value, feed, accepts, op⟩ := tx
  unfold exec at hexec
  cases op with
  | deposit here value roundID inviterCode =>
      exact absurd rfl (hother here value roundID inviterCode)
  | withdraw here amount =>
      simp only [withdraw, bind_eq_ok, pure_eq_ok] at hexec
      obtain ⟨offering, _, _, _, w₁, hpays, rfl⟩ := hexec
      obtain ⟨hconfig, hofferings⟩ := payAsset_same hpays
      exact .nothing hconfig hofferings
  | emergencyWithdraw here =>
      simp only [emergencyWithdraw, bind_eq_ok, pure_eq_ok] at hexec
      obtain ⟨offering, _, _, _, w₁, hpays, rfl⟩ := hexec
      obtain ⟨hconfig, hofferings⟩ := payAsset_same hpays
      exact .nothing hconfig hofferings
  -- the switches of an offering leave its investors
  | setPublicOfferingState here set =>
      simp only [setPublicOfferingState, bind_eq_ok, pure_eq_ok] at hexec
      obtain ⟨offering, hoffering, _, _, rfl⟩ := hexec
      exact .switch here offering _ (offeringAt_eq_ok hoffering) rfl rfl rfl rfl
  | setOwner here newOwner =>
      simp only [setOwner, bind_eq_ok, pure_eq_ok] at hexec
      obtain ⟨offering, hoffering, _, _, rfl⟩ := hexec
      exact .switch here offering _ (offeringAt_eq_ok hoffering) rfl rfl rfl rfl
  -- only an offering that is allowed adds to the sum
  | addRaisedAmount sum =>
      refine onConfig_writes (fun config hconfig => ?_) hexec
      simp only [PublicOfferingConfig.addRaisedAmount, bind_eq_ok, pure_eq_ok] at hconfig
      obtain ⟨_, hallowed, _, _, _, _, rfl⟩ := hconfig
      exact ⟨rfl, fun _ h => h, .inl (allow_eq_ok hallowed), fun _ h => .inl h⟩
  | addInvestor investor =>
      refine onConfig_writes (fun config hconfig => ?_) hexec
      simp only [PublicOfferingConfig.addInvestor, bind_eq_ok, pure_eq_ok] at hconfig
      obtain ⟨_, hallowed, rfl⟩ := hconfig
      refine ⟨rfl, fun account h => ?_, .inl (allow_eq_ok hallowed), fun _ h => .inl h⟩
      dsimp only
      rw [Function.update_apply, h, ite_self]
  -- the owner allows offerings
  | setPublicOffering publicOffering set =>
      refine onConfig_writes (fun config hconfig => ?_) hexec
      simp only [PublicOfferingConfig.setPublicOffering, bind_eq_ok, pure_eq_ok] at hconfig
      obtain ⟨_, _, rfl⟩ := hconfig
      refine ⟨rfl, fun _ h => h, .inr ⟨rfl, rfl⟩, fun here hallowed => ?_⟩
      dsimp only at hallowed
      rw [Function.update_apply] at hallowed
      split at hallowed
      · rename_i hhere
        rw [hhere, hallowed]
        exact .inr rfl
      · exact .inl hallowed
  | setMinInvestment | setMaxInvestment | setConfigOwner =>
      refine onConfig_writes (fun config hconfig => ?_) hexec
      simp only [PublicOfferingConfig.setMinInvestment, PublicOfferingConfig.setMaxInvestment,
        PublicOfferingConfig.setOwner, bind_eq_ok, pure_eq_ok] at hconfig
      obtain ⟨_, _, rfl⟩ := hconfig
      exact ⟨rfl, fun _ h => h, .inr ⟨rfl, rfl⟩, fun _ h => .inl h⟩
  | sendNative dst amount =>
      have hsame := (sendNative_eq_ok hexec).1
      rw [hsame]
      exact .nothing rfl rfl
  | token token op =>
      simp only [bind_eq_ok, pure_eq_ok] at hexec
      obtain ⟨t, _, rfl⟩ := hexec
      exact .nothing rfl rfl
  | tokenMint token account amount =>
      simp only [bind_eq_ok, pure_eq_ok] at hexec
      obtain ⟨t, _, rfl⟩ := hexec
      exact .nothing rfl rfl

/-- Whoever is no offering credits nobody, unless it makes a deposit. -/
theorem Writes.sameFunding {tx : Tx} (h : Funded w) (honly : OnlyOfferings w tx)
    (hsender : w.offerings tx.sender = none) (hwrites : Writes tx w w') : SameFunding w w' := by
  have hdisallowed : w.config.allows tx.sender ≠ true := fun hallowed =>
    h.allowed tx.sender hallowed hsender
  cases hwrites with
  | nothing hconfig hofferings =>
      refine sameFunding_of_same hofferings ?_ ?_ ?_ fun here hallowed => .inl ?_
      · rw [hconfig]
      · rw [hconfig]
      · rw [hconfig]
      · rwa [hconfig] at hallowed
  | switch here offering offering' hsome hw htoken hinvestors hnumber =>
      rw [hw]
      exact sameFunding_setOffering hsome htoken hinvestors
  | config hofferings hwrites =>
      obtain ⟨hraised, hinvested⟩ := hwrites.credits.resolve_left hdisallowed
      refine sameFunding_of_same hofferings hwrites.fundingGoal hraised hinvested
        fun here hallowed => ?_
      refine (hwrites.allowed here hallowed).imp id fun hop => ?_
      -- an address that is newly allowed is an offering
      unfold OnlyOfferings at honly
      rwa [hop] at honly

/-- A deposit enters one investor. -/
theorem Deposits.investorsOf
    (hd : Deposits sender here msgValue feed value roundID inviterCode offering amount w w')
    (k : Address) : w'.investorsOf k = if k = here then
      w.investorsOf here ++ [{ investor := sender, inviterCode, amount }] else w.investorsOf k := by
  unfold World.investorsOf
  rw [hd.offerings]
  by_cases hk : k = here
  · rw [if_pos hk, hk, Function.update_self, hd.offering_eq]
    rfl
  · rw [if_neg hk, Function.update_of_ne hk]

/-- A deposit credits its sender once, for its amount. -/
theorem Deposits.funded (h : Funded w) (hsender : w.offerings sender = none)
    (hd : Deposits sender here msgValue feed value roundID inviterCode offering amount w w') :
    Funded w' := by
  have hkept := hd.quiet h.unapproved hsender
  have hinvestors := hd.investorsOf
  have hconfig := hd.config
  refine ⟨?_, hkept.unapproved, ?_, fun k hallowed hnone => ?_, ?_, ?_, fun account => ?_⟩
  · have hzero := hkept.offerings 0
    rw [h.nowhere] at hzero
    exact Option.map_eq_none_iff.mp hzero.symm
  · rw [hconfig]
    exact h.fundingGoal
  · rw [hconfig] at hallowed
    exact h.allowed k hallowed (hkept.offerings.eq_none hnone)
  -- the sum changes in one term
  · have hothers : ∀ k, k ≠ here → w'.raisedBy k = w.raisedBy k := by
      intro k hk
      unfold World.raisedBy
      rw [hinvestors k, if_neg hk]
    have hadded := TotalMap.sum_replace_univ here hothers
    have hhere : w'.raisedBy here = w.raisedBy here + amount := by
      unfold World.raisedBy
      rw [hinvestors here, if_pos rfl]
      simp only [List.map_append, List.map_cons, List.map_nil, List.sum_append, List.sum_cons,
        List.sum_nil, Nat.add_zero]
    have hraised := h.raised
    rw [hconfig]
    show w.config.raisedAmount + amount = _
    omega
  · rw [hconfig]
    exact hd.below
  -- so does the number of the account's deposits
  · have hothers : ∀ k, k ≠ here → w'.creditsOf account k = w.creditsOf account k := by
      intro k hk
      unfold World.creditsOf
      rw [hinvestors k, if_neg hk]
    have hadded := TotalMap.sum_replace_univ here hothers
    have hhere : w'.creditsOf account here =
        w.creditsOf account here + if account = sender then 1 else 0 := by
      unfold World.creditsOf
      rw [hinvestors here, if_pos rfl]
      simp only [List.map_append, List.map_cons, List.map_nil, List.count_append,
        List.count_singleton]
      by_cases haccount : account = sender
      · rw [if_pos haccount, haccount, beq_self_eq_true, if_pos rfl]
      · rw [if_neg haccount, if_neg (by simpa using Ne.symm haccount)]
    have honce := h.once account
    have hfresh := hd.fresh
    rw [hconfig]
    show _ = if Function.update w.config.invested sender true account = true then 1 else 0
    rw [Function.update_apply]
    by_cases haccount : account = sender
    · rw [if_pos haccount] at hhere ⊢
      rw [haccount, hfresh, if_neg Bool.false_ne_true] at honce
      rw [if_pos rfl]
      subst haccount
      omega
    · rw [if_neg haccount] at hhere ⊢
      omega

theorem Effect.unapproved {tx : Tx} (h : Unapproved w) (hsender : w.offerings tx.sender = none)
    (heffect : Effect tx w w') : Unapproved w' := by
  cases heffect with
  | deposits here value roundID inviterCode offering amount hop hd =>
      exact (hd.quiet h hsender).unapproved
  | pays here amount hp => exact hp.keeps.unapproved
  | idle hidle => exact hidle.quiet.unapproved

/-- Nobody has invested in a new offering. -/
theorem investorsOf_init (hinit : machine.init w) (here : Address) : w.investorsOf here = [] := by
  obtain ⟨_, _, hofferings, _⟩ := hinit
  unfold World.investorsOf
  split
  · rename_i offering hsome
    rw [(hofferings here offering hsome).1]
  · rfl

/-- The amount raised is the sum of the credits in every state of a run. -/
theorem funded_inductive : machine.Inductive OnlyOfferings Funded where
  init w hinit := by
    have hnobody := investorsOf_init hinit
    obtain ⟨⟨owner, hconfig⟩, hzero, hofferings, _⟩ := hinit
    refine ⟨hzero, fun here offering hsome => (hofferings here offering hsome).2, ?_,
      fun here hallowed => ?_, ?_, ?_, fun account => ?_⟩
    -- nothing was raised, and nobody is allowed
    · rw [hconfig]
    · rw [hconfig] at hallowed
      cases hallowed
    · rw [hconfig]
      refine (TotalMap.sum_eq_zero fun here => ?_).symm
      unfold World.raisedBy
      rw [hnobody here]
      rfl
    · rw [hconfig]
      show 0 < 5000000 * 10 ^ 18
      omega
    · rw [hconfig, if_neg Bool.false_ne_true]
      refine TotalMap.sum_eq_zero fun here => ?_
      unfold World.creditsOf
      rw [hnobody here]
      rfl
  step w tx w' h honly hstep := by
    obtain ⟨hsender, hexec⟩ := step_eq_ok hstep
    by_cases hdeposit : ∃ here value roundID inviterCode,
        tx.op = .deposit here value roundID inviterCode
    · obtain ⟨here, value, roundID, inviterCode, hop⟩ := hdeposit
      unfold exec at hexec
      rw [hop] at hexec
      obtain ⟨offering, amount, hd⟩ := deposit_eq_ok hexec
      exact hd.funded h hsender
    -- no other call touches an investor
    · push Not at hdeposit
      have hunapproved := (exec_effect h.unapproved hsender hexec).unapproved h.unapproved hsender
      exact ((exec_writes hexec hdeposit).sameFunding h honly hsender).funded h hunapproved

/-! ## Which deposits are accepted -/

/-- A deposit by a new investor, who has the asset of the open offering, at a price of the last
hour, within the bounds and within what may still be raised. -/
structure Eligible (here : Address) (value roundID : Nat) (offering : PublicOffering)
    (amount : Nat) (w : World) (tx : Tx) : Prop where
  call : ∃ inviterCode, tx.op = .deposit here value roundID inviterCode
  offering_eq : w.offerings here = some offering
  opened : offering.publicOfferingClosed = false
  allowed : w.config.allows here = true
  sender : tx.sender ≠ 0 ∧ w.offerings tx.sender = none
  fresh : w.config.invested tx.sender = false
  price : ∃ price timeStamp, tx.feed.roundData roundID = some (price, timeStamp) ∧ 0 < price ∧
    timeStamp ≤ tx.feed.latestTimeStamp ∧ tx.feed.latestTimeStamp - timeStamp < 3600 ∧
    price.toNat * value < wordSize ∧ amount = price.toNat * value / 10 ^ 8
  minInvestment : w.config.minInvestment ≤ amount
  maxInvestment : amount ≤ w.config.maxInvestment
  remaining : amount ≤ w.config.fundingGoal - w.config.raisedAmount
  funds : if offering.token = 0 then tx.value = value ∧ value ≤ w.native tx.sender
    else tx.value = 0 ∧ value ≤ (w.tokens offering.token).balanceOf tx.sender ∧
      value ≤ (w.tokens offering.token).allowance tx.sender here

theorem Eligible.tokenToUSD {tx : Tx} (he : Eligible here value roundID offering amount w tx) :
    _tokenToUSD tx.feed value roundID = .ok amount := by
  obtain ⟨price, timeStamp, hround, hpositive, hle, hage, hfits, rfl⟩ := he.price
  unfold _tokenToUSD getRoundData
  rw [hround]
  simp only [bind_eq_ok, require_eq_ok, SafeMath.sub_eq_ok, SafeMath.mul_eq_ok, pure_eq_ok]
  exact ⟨_, ⟨_, ⟨hle, rfl⟩, (), hage, (), hpositive, rfl⟩, _, ⟨hfits, rfl⟩, rfl⟩

/-- The asset of an eligible deposit is taken, unless it is nothing in native coins. -/
theorem Eligible.takeAsset_isOk {tx : Tx} (h : Funded w)
    (he : Eligible here value roundID offering amount w tx)
    (hvalue : offering.token = 0 → value ≠ 0) :
    ∃ w₁ w₂, w.sendNative tx.sender here tx.value = .ok w₁ ∧
      takeAsset tx.sender here tx.value value offering w₁ = .ok w₂ := by
  have hfunds := he.funds
  by_cases htoken : offering.token = 0
  -- native coins come with the call
  · rw [if_pos htoken] at hfunds
    obtain ⟨hpaid, hnative⟩ := hfunds
    have hsends : ∃ w₁, w.sendNative tx.sender here tx.value = .ok w₁ := by
      simp only [World.sendNative, bind_eq_ok, SafeMath.sub_eq_ok, pure_eq_ok]
      exact ⟨_, _, ⟨hpaid ▸ hnative, rfl⟩, rfl⟩
    obtain ⟨w₁, hsends⟩ := hsends
    refine ⟨w₁, w₁, hsends, ?_⟩
    unfold takeAsset
    rw [if_pos (hpaid ▸ hvalue htoken)]
    simp only [bind_eq_ok, require_eq_ok, pure_eq_ok]
    exact ⟨(), hpaid.symm, trivial⟩
  -- tokens are pulled; the call itself brings nothing
  · rw [if_neg htoken] at hfunds
    obtain ⟨hpaid, hbalance, hallowance⟩ := hfunds
    have hsends : ∃ w₁, w.sendNative tx.sender here tx.value = .ok w₁ := by
      rw [hpaid]
      simp only [World.sendNative, bind_eq_ok, SafeMath.sub_eq_ok, pure_eq_ok]
      exact ⟨_, _, ⟨Nat.zero_le _, rfl⟩, rfl⟩
    obtain ⟨w₁, hsends⟩ := hsends
    have hhere : here ≠ 0 := by
      rintro rfl
      cases h.nowhere.symm.trans he.offering_eq
    obtain ⟨t, hmoves⟩ := (h.unapproved here offering he.offering_eq offering.token)
      |>.transferFrom_isOk he.sender.1 hhere hhere hbalance hallowance
    have hw₁ : w₁.tokens = w.tokens := by rw [(sendNative_eq_ok hsends).1]
    refine ⟨w₁, w₁.setToken offering.token t, hsends, ?_⟩
    unfold takeAsset
    rw [if_neg (fun hne => hne hpaid)]
    simp only [bind_eq_ok, require_eq_ok, lowLevel_eq_ok, pure_eq_ok]
    refine ⟨(), htoken, t, ?_, rfl⟩
    rw [hw₁]
    exact hmoves

/-- The config, too, has to accept: its total stays below the goal. -/
theorem Eligible.step_isOk_iff {tx : Tx} (h : Funded w)
    (he : Eligible here value roundID offering amount w tx) :
    (∃ w', step w tx = .ok w') ↔ amount < w.config.fundingGoal - w.config.raisedAmount ∧
      (offering.token = 0 → value ≠ 0) := by
  obtain ⟨inviterCode, hop⟩ := he.call
  constructor
  · rintro ⟨w', hstep⟩
    obtain ⟨_, hexec⟩ := step_eq_ok hstep
    unfold exec at hexec
    rw [hop] at hexec
    obtain ⟨offering', amount', hd⟩ := deposit_eq_ok hexec
    have hoffering : offering' = offering :=
      Option.some.inj (hd.offering_eq.symm.trans he.offering_eq)
    have hamount : amount' = amount := Except.ok.inj (hd.usd.symm.trans he.tokenToUSD)
    subst hoffering hamount
    have hbelow := hd.below
    refine ⟨by omega, fun htoken => ?_⟩
    obtain ⟨w₁, w₂, _, htakes, _⟩ := hd.moves
    rcases takeAsset_eq_ok htakes with ⟨hvalue, hsame, _⟩ | ⟨_, hother, _⟩
    · rw [hsame]
      exact hvalue
    · exact absurd htoken hother
  · rintro ⟨hbelow, hvalue⟩
    obtain ⟨w₁, w₂, hsends, htakes⟩ := he.takeAsset_isOk h hvalue
    have hw₁ : w₁.config = w.config := by rw [(sendNative_eq_ok hsends).1]
    have hw₂ : w₂.config = w.config := by rw [takeAsset_same htakes, hw₁]
    have hat : w.offeringAt here = .ok offering := by
      unfold World.offeringAt
      rw [he.offering_eq]
    have hgoal := h.fundingGoal
    have hraised := h.below
    have hlimit : w.config.raisedAmount + amount < w.config.fundingGoal := by omega
    have hword : w.config.fundingGoal < wordSize := by
      rw [hgoal]
      decide
    have hadds : w₂.config.addInvestor here tx.sender =
        .ok { w.config with invested := Function.update w.config.invested tx.sender true } := by
      rw [hw₂]
      simp only [PublicOfferingConfig.addInvestor, PublicOfferingConfig.allow, bind_eq_ok,
        require_eq_ok, pure_eq_ok]
      exact ⟨(), he.allowed, trivial⟩
    simp only [step, exec, hop, deposit, PublicOfferingConfig.addRaisedAmount,
      PublicOfferingConfig.allow, bind_eq_ok, require_eq_ok, SafeMath.sub_eq_ok,
      SafeMath.add_eq_ok, pure_eq_ok]
    refine ⟨_, (), he.sender.2, offering, hat, w₁, hsends, amount, he.tokenToUSD, (), he.opened, (),
      ?_, _, ⟨?_, rfl⟩, (), ?_, (), ?_, (), ?_, w₂, htakes, _, hadds, _,
      ⟨(), he.allowed, _, ⟨?_, rfl⟩, (), hlimit, rfl⟩, rfl⟩
    · rw [hw₁]
      exact he.fresh
    · rw [hw₁]
      exact hraised.le
    · rw [hw₁]
      exact he.remaining
    · rw [hw₁]
      exact he.maxInvestment
    · rw [hw₁]
      exact he.minInvestment
    · exact hlimit.trans hword

/-- In every run of offerings that share a config: the raised amount is the sum of what was
credited, it never reaches the goal, and nobody is credited twice. An eligible deposit is accepted
exactly if it stays below what may still be raised, and is not a deposit of no native coins. -/
theorem raisedAmount_eq_credits (w : World) (hreach : machine.ReachableBy OnlyOfferings w) :
    w.config.raisedAmount = ∑ here, w.raisedBy here ∧
    w.config.raisedAmount ≤ w.config.fundingGoal ∧
    (∀ account, ∑ here, w.creditsOf account here ≤ 1) ∧
    ∀ here value roundID offering amount tx, Eligible here value roundID offering amount w tx →
      ((∃ w', step w tx = .ok w') ↔
        amount < w.config.fundingGoal - w.config.raisedAmount ∧
          (offering.token = 0 → value ≠ 0)) := by
  have h := funded_inductive.invariant hreach
  refine ⟨h.raised, h.below.le, fun account => ?_, ?_⟩
  · rw [h.once account]
    split
    · exact le_rfl
    · exact Nat.zero_le 1
  · intro here value roundID offering amount tx he
    exact he.step_isOk_iff h

end Steps

/-! ## The last deposit -/

instance (w : World) (tx : Tx) : Decidable (OnlyOfferings w tx) := by
  unfold OnlyOfferings
  split <;> exact inferInstance

theorem raisedAmount_eq_credits_thousand :
    ∃ w, machine.ReachableBy OnlyOfferings w ∧ w.config.raisedAmount = 1000 * 10 ^ 18 ∧
      w.config.raisedAmount = ∑ here, w.raisedBy here := by
  have hrun : (machine.guarded fun w tx => OnlyOfferings w tx).lastStep deployed allowBoth
      (depositThousand 0) (fun _ w => w.config.raisedAmount = 1000 * 10 ^ 18) = true := by
    decide +kernel
  obtain ⟨w₁, w, hreach, hstep, htest⟩ :=
    TSys.lastStep_reachable (M := machine.guarded _) deployed_init hrun
  have hreach : machine.ReachableBy OnlyOfferings w :=
    TSys.reachableBy_of_guarded (fun _ _ hcheck => of_decide_eq_true hcheck)
      (.step hreach trivial hstep)
  exact ⟨w, hreach, of_decide_eq_true htest, (raisedAmount_eq_credits w hreach).1⟩

/-- Account 1 deposits 10000 native coins at 500 dollars, which is the whole goal. -/
def depositGoal : Tx where
  sender := 1
  value := 10000 * 10 ^ 18
  feed := { roundData := fun _ => some (500 * 10 ^ 8, 0), latestTimeStamp := 0 }
  op := .deposit 202 (10000 * 10 ^ 18) 0 0

/-- With the bound of an investment at the goal, the deposit that reaches it is refused. -/
theorem lastDeposit_refused :
    ¬ ∀ w, machine.ReachableBy OnlyOfferings w → ∀ here value roundID offering amount tx,
      Eligible here value roundID offering amount w tx → ∃ w', step w tx = .ok w' := by
  intro hclaim
  have hrun : (machine.guarded fun w tx => OnlyOfferings w tx).lastStep deployed allowBoth
      { sender := 50, op := .setMaxInvestment (5000000 * 10 ^ 18) } (fun _ w =>
        ((w.offerings 202).map fun o => (o.token, o.publicOfferingClosed)) = some (0, false) ∧
        w.config.allows 202 = true ∧ w.offerings 1 = none ∧ w.config.invested 1 = false ∧
        w.config.minInvestment ≤ 5000000 * 10 ^ 18 ∧
        w.config.maxInvestment = 5000000 * 10 ^ 18 ∧
        w.config.fundingGoal - w.config.raisedAmount = 5000000 * 10 ^ 18 ∧
        10000 * 10 ^ 18 ≤ w.native 1) = true := by
    decide +kernel
  obtain ⟨w₁, w, hreach, hstep, htest⟩ :=
    TSys.lastStep_reachable (M := machine.guarded _) deployed_init hrun
  have hreach : machine.ReachableBy OnlyOfferings w :=
    TSys.reachableBy_of_guarded (fun _ _ hcheck => of_decide_eq_true hcheck)
      (.step hreach trivial hstep)
  obtain ⟨hsome, hallowed, hsender, hfresh, hmin, hmax, hremaining, hnative⟩ :=
    of_decide_eq_true htest
  obtain ⟨offering, hsome, hoffering⟩ := Option.map_eq_some_iff.mp hsome
  obtain ⟨htoken, hopened⟩ := Prod.mk.inj hoffering
  have he : Eligible 202 (10000 * 10 ^ 18) 0 offering (5000000 * 10 ^ 18) w depositGoal := by
    refine ⟨⟨0, rfl⟩, hsome, hopened, hallowed, ⟨by decide, hsender⟩, hfresh,
      ⟨500 * 10 ^ 8, 0, rfl, by decide, by decide, by decide, by decide, by decide⟩, hmin, hmax.ge,
      hremaining.ge, ?_⟩
    rw [if_pos htoken]
    exact ⟨rfl, hnative⟩
  have haccepted := hclaim w hreach 202 _ 0 offering _ depositGoal he
  have hbelow := ((he.step_isOk_iff (funded_inductive.invariant hreach)).mp haccepted).1
  rw [hremaining] at hbelow
  exact lt_irrefl _ hbelow

end Huski.Dao
