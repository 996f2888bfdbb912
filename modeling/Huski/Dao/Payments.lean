import Huski.Dao.Model

/-!
# What a deposit is paid in

An offering for a token takes the native coins of a deposit as well, as so many units of the token,
and has no way to pay them out again. Where every deposit of such an offering comes without native
coins, all that is credited is there in the asset of the offering, or was taken by its owner.
-/

open Solidity

namespace Huski.Dao

section Moves

variable {sender here src dst token : Address} {msgValue value amount inviterCode roundID : Nat}
  {feed : PriceFeed} {offering : PublicOffering} {w w' w₁ w₂ : World}

theorem offeringAt_eq_ok (h : w.offeringAt here = .ok offering) :
    w.offerings here = some offering := by
  unfold World.offeringAt at h
  split at h
  · rename_i hsome
    cases h
    exact hsome
  · cases h

theorem sendNative_eq_ok (h : w.sendNative src dst amount = .ok w') :
    w' = { w with native := w'.native } ∧
      ∀ k, w'.native k + (if k = src then amount else 0) =
        w.native k + if k = dst then amount else 0 := by
  simp only [World.sendNative, bind_eq_ok, SafeMath.sub_eq_ok, pure_eq_ok] at h
  obtain ⟨_, ⟨hle, rfl⟩, rfl⟩ := h
  refine ⟨rfl, fun k => ?_⟩
  simp only [Function.update_apply]
  by_cases hsrc : k = src <;> by_cases hdst : k = dst <;> grind

/-- The value comes as native coins or as tokens, never as both. -/
theorem takeAsset_eq_ok (h : takeAsset sender here msgValue value offering w = .ok w') :
    (msgValue ≠ 0 ∧ value = msgValue ∧ w' = w) ∨
      (msgValue = 0 ∧ offering.token ≠ 0 ∧ ∃ t, w' = w.setToken offering.token t ∧
        (w.tokens offering.token).transferFrom here sender here value = .ok t) := by
  unfold takeAsset at h
  split at h
  · rename_i hvalue
    simp only [bind_eq_ok, require_eq_ok, pure_eq_ok] at h
    obtain ⟨_, hsame, rfl⟩ := h
    exact .inl ⟨hvalue, hsame, rfl⟩
  · rename_i hvalue
    simp only [bind_eq_ok, require_eq_ok, lowLevel_eq_ok, pure_eq_ok] at h
    obtain ⟨_, htoken, t, hmoves, rfl⟩ := h
    exact .inr ⟨Decidable.of_not_not hvalue, htoken, t, rfl, hmoves⟩

/-- What a deposit checked and wrote. -/
structure Deposits (sender here : Address) (msgValue : Nat) (feed : PriceFeed)
    (value roundID inviterCode : Nat) (offering : PublicOffering) (amount : Nat) (w w' : World) :
    Prop where
  offering_eq : w.offerings here = some offering
  usd : _tokenToUSD feed value roundID = .ok amount
  opened : offering.publicOfferingClosed = false
  fresh : w.config.invested sender = false
  allowed : w.config.allows here = true
  remaining : amount ≤ w.config.fundingGoal - w.config.raisedAmount
  below : w.config.raisedAmount + amount < w.config.fundingGoal
  maxInvestment : amount ≤ w.config.maxInvestment
  minInvestment : w.config.minInvestment ≤ amount
  config : w'.config = { w.config with
    invested := Function.update w.config.invested sender true
    raisedAmount := w.config.raisedAmount + amount }
  offerings : w'.offerings =
    Function.update w.offerings here (some (credit sender amount inviterCode offering))
  brought : w'.brought =
    Function.update w.brought here (w.brought here + (w'.assetOf here - w.assetOf here))
  credited : w'.credited = Function.update w.credited here (w.credited here + value)
  withdrawn : w'.withdrawn = w.withdrawn
  moves : ∃ w₁ w₂, w.sendNative sender here msgValue = .ok w₁ ∧
    takeAsset sender here msgValue value offering w₁ = .ok w₂ ∧ w'.native = w₂.native ∧
      w'.tokens = w₂.tokens

theorem takeAsset_same (h : takeAsset sender here msgValue value offering w = .ok w') :
    w' = { w with tokens := w'.tokens } := by
  rcases takeAsset_eq_ok h with ⟨_, _, rfl⟩ | ⟨_, _, t, rfl, _⟩
  · rfl
  · rfl

/-- The steps of a deposit that goes through. -/
theorem deposit_eq_ok
    (h : deposit sender here msgValue feed value roundID inviterCode w = .ok w') :
    ∃ offering amount,
      Deposits sender here msgValue feed value roundID inviterCode offering amount w w' := by
  simp only [deposit, PublicOfferingConfig.addInvestor, PublicOfferingConfig.addRaisedAmount,
    PublicOfferingConfig.allow, bind_eq_ok, require_eq_ok, SafeMath.sub_eq_ok, SafeMath.add_eq_ok,
    pure_eq_ok] at h
  obtain ⟨offering, hoffering, w₁, hsends, amount, husd, _, hopen, _, hfresh, _, ⟨_, rfl⟩, _,
    hremaining, _, hmax, _, hmin, w₂, htakes, _, ⟨_, hallowed, rfl⟩, _, ⟨_, _, _, ⟨_, rfl⟩, _,
    hbelow, rfl⟩, rfl⟩ := h
  have hw₁ := (sendNative_eq_ok hsends).1
  have hw₂ := takeAsset_same htakes
  -- neither the coins nor the tokens change what the checks read
  have hconfig : w₂.config = w.config := by rw [hw₂, hw₁]
  rw [hconfig] at hallowed hbelow
  have hw₁config : w₁.config = w.config := by rw [hw₁]
  rw [hw₁config] at hfresh hremaining hmax hmin
  refine ⟨offering, amount, offeringAt_eq_ok hoffering, husd, hopen, hfresh, hallowed, hremaining,
    hbelow, hmax, hmin, ?_, ?_, ?_, ?_, ?_, w₁, w₂, hsends, htakes, rfl, rfl⟩
  · rw [hconfig]
  · show Function.update w₂.offerings here _ = _
    rw [hw₂, hw₁]
  · have hbrought : w₂.brought = w.brought := by rw [hw₂, hw₁]
    show Function.update w₂.brought here (w₂.brought here + _) = _
    rw [hbrought]
    rfl
  · have hcredited : w₂.credited = w.credited := by rw [hw₂, hw₁]
    show Function.update w₂.credited here (w₂.credited here + value) = _
    rw [hcredited]
  · show w₂.withdrawn = w.withdrawn
    rw [hw₂, hw₁]

/-! ## What is there -/

/-- Deposits of an offering for a token come without native coins. -/
def PaysAsset (w : World) (tx : Tx) : Prop :=
  match tx.op with
  | .deposit here _ _ _ => ∀ offering, w.offerings here = some offering →
      offering.token = 0 ∨ tx.value = 0
  | _ => True

/-- No offering has approved anybody. -/
def Unapproved (w : World) : Prop :=
  ∀ here offering, w.offerings here = some offering → ∀ token, (w.tokens token).Sound here

/-- What was credited was brought, and what was brought is there or was withdrawn. -/
structure Custody (w : World) : Prop where
  nowhere : w.offerings 0 = none
  sound : Unapproved w
  credited : w.brought = w.credited
  held : ∀ here offering, w.offerings here = some offering →
    w.brought here ≤ w.assetOf here + w.withdrawn here

/-- The offerings and their tokens are the same. -/
def SameOfferings (w w' : World) : Prop :=
  ∀ here, (w.offerings here).map (·.token) = (w'.offerings here).map (·.token)

/-- A call that takes nothing of the asset of an offering. -/
theorem assetOf_le (hsame : SameOfferings w w') (hnative : w.native here ≤ w'.native here)
    (htokens : ∀ token, (w.tokens token).balanceOf here ≤ (w'.tokens token).balanceOf here) :
    w.assetOf here ≤ w'.assetOf here := by
  unfold World.assetOf
  have htoken := hsame here
  cases hold : w.offerings here with
  | none => exact Nat.zero_le _
  | some offering =>
      rw [hold] at htoken
      obtain ⟨offering', hnew, hsameToken⟩ := Option.map_eq_some_iff.mp htoken.symm
      rw [hnew]
      dsimp only
      rw [hsameToken]
      split
      · exact hnative
      · exact htokens _

theorem SameOfferings.refl (w : World) : SameOfferings w w := fun _ => rfl

theorem SameOfferings.trans (h : SameOfferings w w₁) (h' : SameOfferings w₁ w') :
    SameOfferings w w' :=
  fun here => (h here).trans (h' here)

theorem SameOfferings.eq_some (h : SameOfferings w w') (hsome : w'.offerings here = some offering) :
    ∃ offering₀, w.offerings here = some offering₀ ∧ offering₀.token = offering.token := by
  have htoken := h here
  rw [hsome] at htoken
  exact Option.map_eq_some_iff.mp htoken

theorem sameOfferings_setOffering {offering' : PublicOffering}
    (hsome : w.offerings here = some offering) (htoken : offering'.token = offering.token) :
    SameOfferings w (w.setOffering here offering') := by
  intro k
  show _ = (Function.update w.offerings here (some offering') k).map (·.token)
  by_cases hk : k = here
  · rw [hk, hsome, Function.update_self]
    exact congrArg some htoken.symm
  · rw [Function.update_of_ne hk]

/-- The offerings keep what they have, except for one that may pay. -/
structure Keeps (payer : Address → Prop) (w w' : World) : Prop where
  offerings : SameOfferings w w'
  sound : ∀ here offering, w.offerings here = some offering → ∀ token, (w'.tokens token).Sound here
  keeps : ∀ here offering, w.offerings here = some offering → ¬ payer here →
    w.native here ≤ w'.native here ∧
      ∀ token, (w.tokens token).balanceOf here ≤ (w'.tokens token).balanceOf here

/-- Nobody pays. -/
abbrev Quiet (w w' : World) : Prop := Keeps (fun _ => False) w w'

theorem Keeps.trans {payer : Address → Prop} (h : Keeps payer w w₁) (h' : Keeps payer w₁ w') :
    Keeps payer w w' where
  offerings := h.offerings.trans h'.offerings
  sound here offering hsome token := by
    have htoken := h.offerings here
    rw [hsome] at htoken
    obtain ⟨offering₁, hsome₁, _⟩ := Option.map_eq_some_iff.mp htoken.symm
    exact h'.sound here offering₁ hsome₁ token
  keeps here offering hsome hpayer := by
    have htoken := h.offerings here
    rw [hsome] at htoken
    obtain ⟨offering₁, hsome₁, _⟩ := Option.map_eq_some_iff.mp htoken.symm
    obtain ⟨hnative, htokens⟩ := h.keeps here offering hsome hpayer
    obtain ⟨hnative', htokens'⟩ := h'.keeps here offering₁ hsome₁ hpayer
    exact ⟨hnative.trans hnative', fun token => (htokens token).trans (htokens' token)⟩

/-- A call that touches no ledger. -/
theorem Unapproved.quiet_of_same (h : Unapproved w) (hofferings : SameOfferings w w')
    (hnative : w'.native = w.native) (htokens : w'.tokens = w.tokens) : Quiet w w' where
  offerings := hofferings
  sound here offering hsome token := by
    rw [htokens]
    exact h here offering hsome token
  keeps here offering hsome _ := by
    rw [hnative, htokens]
    exact ⟨le_rfl, fun _ => le_rfl⟩

/-- Native coins leave only their sender. -/
theorem Unapproved.keeps_sendNative (h : Unapproved w)
    (hsends : w.sendNative src dst amount = .ok w') :
    Keeps (fun here => here = src) w w' := by
  obtain ⟨hsame, hnative⟩ := sendNative_eq_ok hsends
  rw [hsame]
  refine ⟨.refl w, h, fun here offering _ hpayer => ⟨?_, fun _ => le_rfl⟩⟩
  have hbalance := hnative here
  rw [if_neg hpayer] at hbalance
  show w.native here ≤ w'.native here
  omega

/-- Units of a token leave the offerings only by their own transfers. -/
theorem Unapproved.keeps_setToken {payer : Address → Prop} {t : ERC20} (h : Unapproved w)
    (hkeeps : ∀ here, (w.tokens token).Sound here → w.offerings here ≠ none → t.Sound here ∧
      (¬ payer here → (w.tokens token).balanceOf here ≤ t.balanceOf here)) :
    Keeps payer w (w.setToken token t) := by
  have hoffering : ∀ {here offering}, w.offerings here = some offering → t.Sound here ∧
      (¬ payer here → (w.tokens token).balanceOf here ≤ t.balanceOf here) := by
    intro here offering hsome
    refine hkeeps here (h here offering hsome token) ?_
    rw [hsome]
    exact Option.some_ne_none _
  refine ⟨.refl w, fun here offering hsome token' => ?_, fun here offering hsome hpayer =>
    ⟨le_rfl, fun token' => ?_⟩⟩
  · show (Function.update w.tokens token t token').Sound here
    rw [Function.update_apply]
    split
    · exact (hoffering hsome).1
    · exact h here offering hsome token'
  · show _ ≤ (Function.update w.tokens token t token').balanceOf here
    rw [Function.update_apply]
    split
    · rename_i htoken
      rw [htoken]
      exact (hoffering hsome).2 hpayer
    · exact le_rfl

theorem Keeps.assetOf_le {payer : Address → Prop} (h : Keeps payer w w') (hpayer : ¬ payer here)
    (hsome : w.offerings here = some offering) : w.assetOf here ≤ w'.assetOf here := by
  obtain ⟨hnative, htokens⟩ := h.keeps here offering hsome hpayer
  exact Dao.assetOf_le h.offerings hnative htokens

/-- The history of the offerings that do not pay. -/
theorem Custody.keeps {payer : Address → Prop} (h : Custody w) (hk : Keeps payer w w')
    (hcredited : w'.brought = w'.credited)
    (hheld : ∀ here offering, w.offerings here = some offering →
      w'.brought here ≤ w'.assetOf here + w'.withdrawn here) : Custody w' where
  nowhere := by
    have hzero := hk.offerings 0
    rw [h.nowhere] at hzero
    exact Option.map_eq_none_iff.mp hzero.symm
  sound here offering hsome token := by
    obtain ⟨offering₀, hsome₀, _⟩ := hk.offerings.eq_some hsome
    exact hk.sound here offering₀ hsome₀ token
  credited := hcredited
  held here offering hsome := by
    obtain ⟨offering₀, hsome₀, _⟩ := hk.offerings.eq_some hsome
    exact hheld here offering₀ hsome₀

theorem Custody.quiet (h : Custody w) (hquiet : Quiet w w') (hbrought : w'.brought = w.brought)
    (hcredited : w'.credited = w.credited) (hwithdrawn : w'.withdrawn = w.withdrawn) :
    Custody w' := by
  refine h.keeps hquiet ?_ fun here offering hsome => ?_
  · rw [hbrought, hcredited]
    exact h.credited
  · have hheld := h.held here offering hsome
    have hmore := hquiet.assetOf_le (fun hfalse => hfalse) hsome
    rw [hbrought, hwithdrawn]
    omega

theorem Keeps.unapproved {payer : Address → Prop} (h : Keeps payer w w') : Unapproved w' := by
  intro here offering hsome token
  obtain ⟨offering₀, hsome₀, _⟩ := h.offerings.eq_some hsome
  exact h.sound here offering₀ hsome₀ token

/-- What leaves an account that is no offering leaves no offering. -/
theorem Keeps.quiet (h : Keeps (fun here => here = src) w w') (hsrc : w.offerings src = none) :
    Quiet w w' where
  offerings := h.offerings
  sound := h.sound
  keeps here offering hsome _ := by
    refine h.keeps here offering hsome ?_
    rintro rfl
    rw [hsrc] at hsome
    cases hsome

/-! ## Deposits -/

/-- A deposit brought the asset of the offering and nothing else. -/
structure PaidIn (here : Address) (value : Nat) (offering : PublicOffering) (w w' : World) :
    Prop where
  asset : w'.assetOf here = w.assetOf here + value
  native : offering.token ≠ 0 → w'.native here = w.native here
  tokens : ∀ token, token ≠ offering.token → w'.tokens token = w.tokens token

theorem takeAsset_quiet (h : Unapproved w)
    (htakes : takeAsset sender here msgValue value offering w = .ok w') : Quiet w w' := by
  rcases takeAsset_eq_ok htakes with ⟨_, _, rfl⟩ | ⟨_, _, t, rfl, hmoves⟩
  · exact h.quiet_of_same (.refl w') rfl rfl
  · refine h.keeps_setToken fun k hsound _ => ?_
    obtain ⟨hsound', hmore⟩ := hsound.keeps_transferFrom hmoves
    exact ⟨hsound', fun _ => hmore⟩

theorem Deposits.quiet {amount : Nat} (h : Unapproved w) (hsender : w.offerings sender = none)
    (hd : Deposits sender here msgValue feed value roundID inviterCode offering amount w w') :
    Quiet w w' := by
  obtain ⟨w₁, w₂, hsends, htakes, hnative, htokens⟩ := hd.moves
  have hfirst := (h.keeps_sendNative hsends).quiet hsender
  have hsecond := takeAsset_quiet hfirst.unapproved htakes
  have hboth := hfirst.trans hsecond
  have hsame : w₂.offerings = w.offerings := by
    rw [takeAsset_same htakes, (sendNative_eq_ok hsends).1]
  refine hboth.trans (hboth.unapproved.quiet_of_same ?_ hnative htokens)
  intro k
  rw [hsame, hd.offerings]
  have htoken : (credit sender amount inviterCode offering).token = offering.token := rfl
  exact sameOfferings_setOffering hd.offering_eq htoken k

/-- An offering's asset is native coins or its token. -/
theorem assetOf_eq (hsome : w.offerings here = some offering) : w.assetOf here =
    if offering.token = 0 then w.native here else (w.tokens offering.token).balanceOf here := by
  unfold World.assetOf
  rw [hsome]

/-- Without native coins for a token, a deposit is paid in the asset of the offering. -/
theorem Deposits.paidIn {amount : Nat} (hother : sender ≠ here)
    (hpays : offering.token = 0 ∨ msgValue = 0)
    (hd : Deposits sender here msgValue feed value roundID inviterCode offering amount w w') :
    PaidIn here value offering w w' := by
  obtain ⟨w₁, w₂, hsends, htakes, hnative, htokens⟩ := hd.moves
  obtain ⟨hw₁, hcoins⟩ := sendNative_eq_ok hsends
  have hhere := hcoins here
  rw [if_neg (Ne.symm hother), if_pos rfl] at hhere
  have hsome' : w'.offerings here = some (credit sender amount inviterCode offering) := by
    rw [hd.offerings, Function.update_self]
  have hasset' := assetOf_eq hsome'
  have hasset := assetOf_eq hd.offering_eq
  change w'.assetOf here = if offering.token = 0 then _ else
    (w'.tokens offering.token).balanceOf here at hasset'
  have hw₁tokens : w₁.tokens = w.tokens := by rw [hw₁]
  rcases takeAsset_eq_ok htakes with ⟨hvalue, rfl, rfl⟩ | ⟨rfl, htoken, t, rfl, hmoves⟩
  -- native coins
  · have hzero : offering.token = 0 := hpays.resolve_right hvalue
    rw [if_pos hzero] at hasset hasset'
    refine ⟨?_, fun htoken => absurd hzero htoken, fun token _ => ?_⟩
    · rw [hasset', hasset, hnative]
      exact hhere
    · rw [htokens, hw₁tokens]
  -- tokens, pulled from the sender
  · rw [if_neg htoken] at hasset hasset'
    rw [hw₁tokens] at hmoves
    have hbalance := ERC20.balanceOf_transferFrom hmoves here
    rw [if_neg (Ne.symm hother), if_pos rfl] at hbalance
    refine ⟨?_, fun _ => ?_, fun token hne => ?_⟩
    · rw [hasset', hasset, htokens]
      show (Function.update w₁.tokens offering.token t offering.token).balanceOf here = _
      rw [Function.update_self]
      exact hbalance
    · rw [hnative]
      exact hhere
    · rw [htokens]
      show Function.update w₁.tokens offering.token t token = w.tokens token
      rw [Function.update_of_ne hne, hw₁tokens]

/-- A deposit brings in what it is credited with. -/
theorem Custody.deposits {amount : Nat} (h : Custody w) (hsender : w.offerings sender = none)
    (hpays : offering.token = 0 ∨ msgValue = 0)
    (hd : Deposits sender here msgValue feed value roundID inviterCode offering amount w w') :
    Custody w' := by
  have hother : sender ≠ here := by
    rintro rfl
    rw [hd.offering_eq] at hsender
    cases hsender
  have hquiet := hd.quiet h.sound hsender
  have hasset := (hd.paidIn hother hpays).asset
  have hbrought : w'.brought = Function.update w.brought here (w.brought here + value) := by
    rw [hd.brought, hasset, Nat.add_sub_cancel_left]
  refine h.keeps hquiet ?_ fun k offering' hsome => ?_
  · rw [hbrought, hd.credited, h.credited]
  · have hheld := h.held k offering' hsome
    rw [hbrought, hd.withdrawn]
    by_cases hk : k = here
    · subst hk
      rw [Function.update_self, hasset]
      omega
    · have hmore := hquiet.assetOf_le (fun hfalse => hfalse) hsome
      rw [Function.update_of_ne hk]
      omega

/-! ## Withdrawals -/

/-- What a withdrawal paid. -/
structure Pays (sender here : Address) (amount : Nat) (w w' : World) : Prop where
  owned : ∃ offering, w.offerings here = some offering ∧ offering.owner = sender
  keeps : Keeps (fun k => k = here) w w'
  asset : w'.assetOf here + amount = w.assetOf here
  brought : w'.brought = w.brought
  credited : w'.credited = w.credited
  withdrawn : w'.withdrawn = Function.update w.withdrawn here (w.withdrawn here + amount)

/-- The owner is paid from the offering's own balance. -/
theorem payAsset_pays {message : String} {accepts : Bool} (h : Unapproved w)
    (hother : sender ≠ here) (hsome : w.offerings here = some offering)
    (howner : offering.owner = sender)
    (hpays : payAsset sender here message accepts amount offering w = .ok w₁) :
    Pays sender here amount w (w₁.withdrew here amount) := by
  have hasset := assetOf_eq hsome
  unfold payAsset at hpays
  split at hpays
  -- native coins
  · rename_i hzero
    simp only [bind_eq_ok, lowLevel_eq_ok] at hpays
    obtain ⟨_, _, hsends⟩ := hpays
    obtain ⟨hw₁, hcoins⟩ := sendNative_eq_ok hsends
    have hkeeps := h.keeps_sendNative hsends
    have hhere := hcoins here
    rw [if_pos rfl, if_neg (Ne.symm hother)] at hhere
    have hsome₁ : w₁.offerings here = some offering := by
      rw [hw₁]
      exact hsome
    have hasset₁ := assetOf_eq hsome₁
    rw [if_pos hzero] at hasset hasset₁
    have hdone : Quiet w₁ (w₁.withdrew here amount) :=
      hkeeps.unapproved.quiet_of_same (.refl w₁) rfl rfl
    refine ⟨⟨offering, hsome, howner⟩, hkeeps.trans ⟨hdone.offerings, hdone.sound,
      fun k o hk _ => hdone.keeps k o hk id⟩, ?_, ?_, ?_, ?_⟩
    · show w₁.assetOf here + amount = w.assetOf here
      omega
    · show w₁.brought = w.brought
      rw [hw₁]
    · show w₁.credited = w.credited
      rw [hw₁]
    · show Function.update w₁.withdrawn here (w₁.withdrawn here + amount) = _
      have hwithdrawn : w₁.withdrawn = w.withdrawn := by rw [hw₁]
      rw [hwithdrawn]
  -- tokens
  · rename_i htoken
    simp only [bind_eq_ok, lowLevel_eq_ok, pure_eq_ok] at hpays
    obtain ⟨t, hmoves, rfl⟩ := hpays
    have hkeeps : Keeps (fun k => k = here) w (w.setToken offering.token t) :=
      h.keeps_setToken fun k hsound _ =>
        ⟨hsound.transfer hmoves, fun hpayer => (hsound.keeps_transfer hpayer hmoves).2⟩
    have hbalance := ERC20.balanceOf_transfer hmoves here
    rw [if_pos rfl, if_neg (Ne.symm hother)] at hbalance
    have hsome₁ : (w.setToken offering.token t).offerings here = some offering := hsome
    have hasset₁ := assetOf_eq hsome₁
    rw [if_neg htoken] at hasset hasset₁
    have ht : (w.setToken offering.token t).tokens offering.token = t := Function.update_self _ _ _
    rw [ht] at hasset₁
    refine ⟨⟨offering, hsome, howner⟩, ⟨hkeeps.offerings, hkeeps.sound, hkeeps.keeps⟩, ?_, rfl, rfl,
      rfl⟩
    show (w.setToken offering.token t).assetOf here + amount = w.assetOf here
    omega

theorem withdraw_pays {accepts : Bool} (h : Unapproved w) (hsender : w.offerings sender = none)
    (hwithdraws : withdraw sender here accepts amount w = .ok w') :
    Pays sender here amount w w' := by
  simp only [withdraw, PublicOffering.onlyOwner, bind_eq_ok, require_eq_ok, pure_eq_ok]
    at hwithdraws
  obtain ⟨offering, hoffering, _, howner, w₁, hpays, rfl⟩ := hwithdraws
  have hsome := offeringAt_eq_ok hoffering
  refine payAsset_pays h ?_ hsome howner hpays
  rintro rfl
  rw [hsome] at hsender
  cases hsender

theorem emergencyWithdraw_pays {accepts : Bool} (h : Unapproved w)
    (hsender : w.offerings sender = none)
    (hwithdraws : emergencyWithdraw sender here accepts w = .ok w') :
    Pays sender here (w.assetOf here) w w' := by
  simp only [emergencyWithdraw, PublicOffering.onlyOwner, bind_eq_ok, require_eq_ok,
    pure_eq_ok] at hwithdraws
  obtain ⟨offering, hoffering, _, howner, w₁, hpays, rfl⟩ := hwithdraws
  have hsome := offeringAt_eq_ok hoffering
  refine payAsset_pays h ?_ hsome howner hpays
  rintro rfl
  rw [hsome] at hsender
  cases hsender

/-- A withdrawal pays out what it books. -/
theorem Custody.pays (h : Custody w) (hp : Pays sender here amount w w') : Custody w' := by
  refine h.keeps hp.keeps ?_ fun k offering' hsome => ?_
  · rw [hp.brought, hp.credited]
    exact h.credited
  · have hheld := h.held k offering' hsome
    have hasset := hp.asset
    rw [hp.brought, hp.withdrawn]
    by_cases hk : k = here
    · subst hk
      rw [Function.update_self]
      omega
    · have hmore := hp.keeps.assetOf_le hk hsome
      rw [Function.update_of_ne hk]
      omega

/-- The owner can take any part of what is there. -/
theorem payAsset_isOk {message : String} {accepts : Bool} (h : Custody w)
    (hsome : w.offerings here = some offering) (hsender : sender ≠ 0)
    (haccepts : offering.token = 0 → accepts = true) (hamount : amount ≤ w.assetOf here) :
    ∃ w₁, payAsset sender here message accepts amount offering w = .ok w₁ := by
  have hasset := assetOf_eq hsome
  unfold payAsset
  split
  · rename_i hzero
    rw [if_pos hzero] at hasset
    simp only [World.sendNative, bind_eq_ok, require_eq_ok, lowLevel_eq_ok, SafeMath.sub_eq_ok,
      pure_eq_ok]
    exact ⟨_, (), haccepts hzero, _, ⟨hasset ▸ hamount, rfl⟩, rfl⟩
  · rename_i htoken
    rw [if_neg htoken] at hasset
    have hhere : here ≠ 0 := by
      rintro rfl
      rw [h.nowhere] at hsome
      cases hsome
    obtain ⟨t, hmoves⟩ := (h.sound here offering hsome offering.token).transfer_isOk hhere hsender
      (hasset ▸ hamount)
    simp only [bind_eq_ok, lowLevel_eq_ok, pure_eq_ok]
    exact ⟨_, t, hmoves, rfl⟩

/-! ## Runs -/

/-- A call that is neither a deposit nor a withdrawal. -/
structure Idle (w w' : World) : Prop where
  quiet : Quiet w w'
  brought : w'.brought = w.brought
  credited : w'.credited = w.credited
  withdrawn : w'.withdrawn = w.withdrawn

/-- The three things that a call can do. -/
inductive Effect (tx : Tx) (w w' : World) : Prop
  | deposits (here : Address) (value roundID inviterCode : Nat) (offering : PublicOffering)
      (amount : Nat) (hop : tx.op = .deposit here value roundID inviterCode)
      (hd : Deposits tx.sender here tx.value tx.feed value roundID inviterCode offering amount w w')
  | pays (here : Address) (amount : Nat) (hp : Pays tx.sender here amount w w')
  | idle (hidle : Idle w w')

theorem onConfig_idle {f : PublicOfferingConfig → Result PublicOfferingConfig} (h : Unapproved w)
    (hf : onConfig f w = .ok w') : Idle w w' := by
  simp only [onConfig, bind_eq_ok, pure_eq_ok] at hf
  obtain ⟨config, _, rfl⟩ := hf
  exact ⟨h.quiet_of_same (.refl w) rfl rfl, rfl, rfl, rfl⟩

theorem setOffering_idle {offering' : PublicOffering} (h : Unapproved w)
    (hsome : w.offerings here = some offering) (htoken : offering'.token = offering.token) :
    Idle w (w.setOffering here offering') :=
  ⟨h.quiet_of_same (sameOfferings_setOffering hsome htoken) rfl rfl, rfl, rfl, rfl⟩

/-- What a call does to the offerings' balances. -/
theorem exec_effect {tx : Tx} (h : Unapproved w) (hsender : w.offerings tx.sender = none)
    (hexec : exec tx w = .ok w') : Effect tx w w' := by
  obtain ⟨sender, value, feed, accepts, op⟩ := tx
  unfold exec at hexec
  cases op with
  | deposit here value roundID inviterCode =>
      obtain ⟨offering, amount, hd⟩ := deposit_eq_ok hexec
      exact .deposits here value roundID inviterCode offering amount rfl hd
  | withdraw here amount => exact .pays here amount (withdraw_pays h hsender hexec)
  | emergencyWithdraw here => exact .pays here _ (emergencyWithdraw_pays h hsender hexec)
  | setPublicOfferingState here set =>
      simp only [setPublicOfferingState, bind_eq_ok, pure_eq_ok] at hexec
      obtain ⟨offering, hoffering, _, _, rfl⟩ := hexec
      exact .idle (setOffering_idle h (offeringAt_eq_ok hoffering) rfl)
  | setOwner here newOwner =>
      simp only [setOwner, bind_eq_ok, pure_eq_ok] at hexec
      obtain ⟨offering, hoffering, _, _, rfl⟩ := hexec
      exact .idle (setOffering_idle h (offeringAt_eq_ok hoffering) rfl)
  | addRaisedAmount | addInvestor | setPublicOffering | setMinInvestment | setMaxInvestment
  | setConfigOwner => exact .idle (onConfig_idle h hexec)
  -- the calls of the tokens: nobody takes an offering's coins or tokens but itself
  | sendNative dst amount =>
      have hquiet := (h.keeps_sendNative hexec).quiet hsender
      have hsame := (sendNative_eq_ok hexec).1
      refine .idle ⟨hquiet, ?_, ?_, ?_⟩
      · rw [hsame]
      · rw [hsame]
      · rw [hsame]
  | token token op =>
      simp only [bind_eq_ok, pure_eq_ok] at hexec
      obtain ⟨t, hcall, rfl⟩ := hexec
      refine .idle ⟨h.keeps_setToken fun k hsound hk => ?_, rfl, rfl, rfl⟩
      have hother : k ≠ sender := by
        rintro rfl
        exact hk hsender
      obtain ⟨hsound', hmore⟩ := hsound.keeps_exec hother hcall
      exact ⟨hsound', fun _ => hmore⟩
  | tokenMint token account amount =>
      simp only [bind_eq_ok, pure_eq_ok] at hexec
      obtain ⟨t, hmints, rfl⟩ := hexec
      refine .idle ⟨h.keeps_setToken fun k hsound _ => ?_, rfl, rfl, rfl⟩
      obtain ⟨hsound', hmore⟩ := hsound.keeps_mint hmints
      exact ⟨hsound', fun _ => hmore⟩

theorem step_eq_ok {tx : Tx} (h : step w tx = .ok w') :
    w.offerings tx.sender = none ∧ exec tx w = .ok w' := by
  simp only [step, bind_eq_ok, require_eq_ok] at h
  obtain ⟨_, hsender, hexec⟩ := h
  exact ⟨hsender, hexec⟩

/-- Every credit was brought in, in every state of a run. -/
theorem custody_inductive : machine.Inductive PaysAsset Custody where
  init w hinit := by
    obtain ⟨_, hzero, hofferings, hbrought, hcredited, _⟩ := hinit
    refine ⟨hzero, fun here offering hsome => (hofferings here offering hsome).2, ?_,
      fun here offering _ => ?_⟩
    · rw [hbrought, hcredited]
    · rw [hbrought]
      exact Nat.zero_le _
  step w tx w' h hpays hstep := by
    obtain ⟨hsender, hexec⟩ := step_eq_ok hstep
    cases exec_effect h.sound hsender hexec with
    | deposits here value roundID inviterCode offering amount hop hd =>
        unfold PaysAsset at hpays
        rw [hop] at hpays
        exact h.deposits hsender (hpays offering hd.offering_eq) hd
    | pays here amount hp => exact h.pays hp
    | idle hidle => exact h.quiet hidle.quiet hidle.brought hidle.credited hidle.withdrawn

/-- In every run whose deposits for a token come without native coins: what was credited was
brought in the asset of the offering, a deposit brings nothing else, and what was brought is there
or was taken by the owner, who can take any part of what is there, and all of it. -/
theorem credited_eq_brought (w : World) (hreach : machine.ReachableBy PaysAsset w) (here : Address)
    (offering : PublicOffering) (hsome : w.offerings here = some offering) :
    w.brought here = w.credited here ∧
    w.brought here ≤ w.assetOf here + w.withdrawn here ∧
    (∀ tx value roundID inviterCode w', tx.op = .deposit here value roundID inviterCode →
      PaysAsset w tx → step w tx = .ok w' → PaidIn here value offering w w') ∧
    (∀ tx, tx.sender = offering.owner → offering.owner ≠ 0 → w.offerings offering.owner = none →
      (offering.token = 0 → tx.accepts = true) →
      (∀ amount, tx.op = .withdraw here amount → amount ≤ w.assetOf here →
        ∃ w', step w tx = .ok w' ∧ w'.assetOf here + amount = w.assetOf here) ∧
      (tx.op = .emergencyWithdraw here → ∃ w', step w tx = .ok w' ∧ w'.assetOf here = 0)) := by
  have h := custody_inductive.invariant hreach
  refine ⟨congrFun h.credited here, h.held here offering hsome, ?_, ?_⟩
  -- a deposit brings in what it credits
  · intro tx value roundID inviterCode w' hop hpays hstep
    obtain ⟨hsender, hexec⟩ := step_eq_ok hstep
    unfold PaysAsset at hpays
    unfold exec at hexec
    rw [hop] at hpays hexec
    obtain ⟨offering', amount, hd⟩ := deposit_eq_ok hexec
    have hsame : offering' = offering := Option.some.inj (hd.offering_eq.symm.trans hsome)
    subst hsame
    refine hd.paidIn ?_ (hpays offering' hsome)
    rintro rfl
    rw [hsome] at hsender
    cases hsender
  -- the owner can take any part of the balance, or all of it
  · intro tx howner hnonzero hsender haccepts
    obtain ⟨sender, value, feed, accepts, op⟩ := tx
    dsimp only at howner haccepts
    subst howner
    have hat : w.offeringAt here = .ok offering := by
      unfold World.offeringAt
      rw [hsome]
    refine ⟨fun amount hop hamount => ?_, fun hop => ?_⟩
    · dsimp only at hop
      subst hop
      obtain ⟨w₁, hpaid⟩ := payAsset_isOk h hsome hnonzero haccepts hamount
      have hwithdraws : withdraw offering.owner here accepts amount w =
          .ok (w₁.withdrew here amount) := by
        simp only [withdraw, PublicOffering.onlyOwner, bind_eq_ok, require_eq_ok, pure_eq_ok]
        exact ⟨offering, hat, (), rfl, w₁, hpaid, rfl⟩
      refine ⟨_, ?_, (withdraw_pays h.sound hsender hwithdraws).asset⟩
      simp only [step, exec, bind_eq_ok, require_eq_ok]
      exact ⟨(), hsender, hwithdraws⟩
    · dsimp only at hop
      subst hop
      obtain ⟨w₁, hpaid⟩ := payAsset_isOk h hsome hnonzero haccepts le_rfl
      have hwithdraws : emergencyWithdraw offering.owner here accepts w =
          .ok (w₁.withdrew here (w.assetOf here)) := by
        simp only [emergencyWithdraw, PublicOffering.onlyOwner, bind_eq_ok, require_eq_ok,
          pure_eq_ok]
        exact ⟨offering, hat, (), rfl, w₁, hpaid, rfl⟩
      have hasset := (emergencyWithdraw_pays h.sound hsender hwithdraws).asset
      refine ⟨w₁.withdrew here (w.assetOf here), ?_, by omega⟩
      simp only [step, exec, bind_eq_ok, require_eq_ok]
      exact ⟨(), hsender, hwithdraws⟩

end Moves

/-! ## A deployment -/

/-- Account 1 holds 10000 units of 18 decimals, which the offering at 200 may take. -/
def heldToken : ERC20 where
  balanceOf := Function.update (fun _ => 0) 1 (10000 * 10 ^ 18)
  allowance := fun holder spender => if holder = 1 ∧ spender = 200 then 10000 * 10 ^ 18 else 0
  totalSupply := 10000 * 10 ^ 18

/-- Account 50 has deployed the config and two offerings: at 200 for the token at 201, and at 202
for the native coin, of which accounts 1 and 2 have 10000 too. -/
def deployed : World where
  config := { owner := 50 }
  offerings here :=
    if here = 200 then some { owner := 50, token := 201 }
    else if here = 202 then some { owner := 50, token := 0 }
    else none
  tokens token := if token = 201 then heldToken else {}
  native account := if account = 1 ∨ account = 2 then 10000 * 10 ^ 18 else 0
  brought := fun _ => 0
  credited := fun _ => 0
  withdrawn := fun _ => 0

theorem deployed_init : machine.init deployed := by
  have hsound : ∀ here : Address, here ≠ 1 → ∀ token, (deployed.tokens token).Sound here := by
    intro here hother token
    show ERC20.Sound here (if token = 201 then heldToken else {})
    split
    · refine ⟨ERC20.backed_single 1 _ _, by decide, fun spender => ?_⟩
      exact if_neg fun hholder => hother hholder.1
    · exact ⟨ERC20.backed_empty, Nat.two_pow_pos 256, fun _ => rfl⟩
  refine ⟨⟨50, rfl⟩, by decide, fun here offering hsome => ?_, rfl, rfl, rfl⟩
  unfold deployed at hsome
  dsimp only at hsome
  split at hsome
  · rename_i hhere
    cases hsome
    exact ⟨rfl, hsound here (by rw [hhere]; decide)⟩
  · split at hsome
    · rename_i hhere
      cases hsome
      exact ⟨rfl, hsound here (by rw [hhere]; decide)⟩
    · cases hsome

/-- A round with the price of one dollar. -/
def dollar : PriceFeed where
  roundData := fun _ => some (10 ^ 8, 0)
  latestTimeStamp := 0

/-- Both offerings are allowed. -/
def allowBoth : List Tx :=
  [{ sender := 50, op := .setPublicOffering 200 true },
   { sender := 50, op := .setPublicOffering 202 true }]

/-- Account 1 deposits 1000 units at 200, with `value` native coins. -/
def depositThousand (value : Nat) : Tx :=
  { sender := 1, value, feed := dollar, op := .deposit 200 (1000 * 10 ^ 18) 0 0 }

theorem credited_eq_brought_thousand :
    ∃ w, machine.ReachableBy PaysAsset w ∧ w.credited 200 = 1000 * 10 ^ 18 ∧
      w.brought 200 = w.credited 200 := by
  have hrun : machine.lastStep deployed allowBoth (depositThousand 0)
      (fun _ w => w.credited 200 = 1000 * 10 ^ 18 ∧
        (w.offerings 200).map (·.token) = some 201) = true := by
    decide +kernel
  have hok : ∀ τ, ∀ tx ∈ allowBoth, PaysAsset τ tx := by
    intro τ tx htx
    fin_cases htx <;> trivial
  obtain ⟨w₁, w, hreach, hstep, htest⟩ := TSys.lastStep_reachableBy deployed_init hok hrun
  obtain ⟨hcredited, hsome⟩ := of_decide_eq_true htest
  obtain ⟨offering, hsome, _⟩ := Option.map_eq_some_iff.mp hsome
  have hreach : machine.ReachableBy PaysAsset w :=
    .step hreach (fun _ _ => .inr rfl) hstep
  exact ⟨w, hreach, hcredited, (credited_eq_brought w hreach 200 offering hsome).1⟩

/-- Native coins are credited as units of the token, of which none came. -/
theorem nativeCoins_credited :
    ¬ ∀ w, machine.Reachable w → ∀ here offering, w.offerings here = some offering →
      w.brought here = w.credited here := by
  intro hclaim
  have hrun : machine.lastStep deployed allowBoth (depositThousand (1000 * 10 ^ 18))
      (fun _ w => w.brought 200 ≠ w.credited 200 ∧
        (w.offerings 200).map (·.token) = some 201) = true := by
    decide +kernel
  obtain ⟨w₁, w, hreach, hstep, htest⟩ := TSys.lastStep_reachable deployed_init hrun
  obtain ⟨hdiffers, hsome⟩ := of_decide_eq_true htest
  obtain ⟨offering, hsome, _⟩ := Option.map_eq_some_iff.mp hsome
  exact hdiffers (hclaim w (.step hreach trivial hstep) 200 offering hsome)

end Huski.Dao
