import Huski.Stronk.Custody

/-!
# The principal of each position

The relayer holds what the open positions hodl, and the receipts add up to the same. Over a run
the amount that each position hodled and what was paid for it are kept: a position is open and was
paid nothing, or was paid its amount once, to its owner, and hodls nothing any more.
-/

open Solidity
open scoped BigOperators

namespace Huski.Stronk

/-- What the open positions hodl. -/
def State.hodled (s : State) : Nat :=
  ∑ id ∈ Finset.range s.nextPositionId, (s.positions id).hodlAmount

/-- The account is none of the contracts. -/
def Outsider (s : State) (a : Address) : Prop :=
  a ≠ s.here ∧ a ≠ s.relayer ∧ a ≠ s.fairLaunch

/-- The invariant in block `n`. -/
structure Kept (n : Nat) (s : State) : Prop extends Custody s where
  unopened : ∀ id, s.nextPositionId ≤ id → (s.positions id).hodlAmount = 0
  outsider : ∀ id, 0 < (s.positions id).hodlAmount →
    (s.positions id).owner ≠ 0 ∧ Outsider s (s.positions id).owner
  last_le : ∀ id, (s.positions id).lastRewardBlock ≤ n
  total : s.receipt.totalSupply = s.hodled
  held : s.receipt.totalSupply ≤ s.husky.balanceOf s.relayer

namespace Kept

variable {m n : Nat} {s s' : State}

theorem mono (h : Kept m s) (hmn : m ≤ n) : Kept n s :=
  { h with last_le := fun id => (h.last_le id).trans hmn }

theorem steady (h : Kept n s) (hs : Steady n s s') : Kept n s' where
  toCustody := hs.custody h.toCustody
  unopened id hid := by
    rw [hs.nextPositionId] at hid
    rw [hs.hodlAmount]
    exact h.unopened id hid
  outsider id hopen := by
    unfold Outsider
    rw [hs.hodlAmount] at hopen
    rw [hs.owner, hs.here, hs.relayer, hs.fairLaunch]
    exact h.outsider id hopen
  last_le id := (hs.last_le id).trans (max_le (h.last_le id) le_rfl)
  total := by
    rw [hs.supply, h.total]
    unfold State.hodled
    rw [hs.nextPositionId]
    exact Finset.sum_congr rfl fun id _ => (hs.hodlAmount id).symm
  held := by
    rw [hs.supply, hs.relayer]
    exact h.held.trans (hs.ledger h.toCustody).2

/-- One position is at most all. -/
theorem hodlAmount_le (h : Kept n s) (id : Nat) :
    (s.positions id).hodlAmount ≤ s.receipt.totalSupply := by
  rcases Nat.lt_or_ge id s.nextPositionId with hid | hid
  · rw [h.total]
    exact Finset.single_le_sum (f := fun id => (s.positions id).hodlAmount)
      (fun _ _ => Nat.zero_le _) (Finset.mem_range.mpr hid)
  · rw [h.unopened id hid]
    exact Nat.zero_le _

end Kept

/-! ## Opening and closing -/

section Calls

variable {n id amount : Nat} {sender dst : Address} {o : Outside} {s s' : State}

/-- Nothing is taken but from `StronkHusky` and FairLaunch. -/
def Credits (s s' : State) : Prop :=
  s'.here = s.here ∧ s'.fairLaunch = s.fairLaunch ∧
    ∀ a, a ≠ s.here → a ≠ s.fairLaunch → s.husky.balanceOf a ≤ s'.husky.balanceOf a

theorem Credits.refl (s : State) : Credits s s := ⟨rfl, rfl, fun _ _ _ => le_rfl⟩

theorem Credits.trans {s₁ : State} (h : Credits s s₁) (h' : Credits s₁ s') : Credits s s' := by
  obtain ⟨hhere, hfairLaunch, hcredits⟩ := h
  obtain ⟨hhere', hfairLaunch', hcredits'⟩ := h'
  refine ⟨hhere'.trans hhere, hfairLaunch'.trans hfairLaunch, fun a hne hne' => ?_⟩
  exact (hcredits a hne hne').trans (hcredits' a (hhere ▸ hne) (hfairLaunch ▸ hne'))

/-- What FairLaunch moves takes nothing from the contract. -/
theorem settle_credits (s : State) (moves : List Move) : Credits s (s.settle moves) := by
  refine ⟨rfl, rfl, fun a hne hne' => ?_⟩
  -- one move: a mint and a payment only add, and the lock takes from FairLaunch
  have hmove : ∀ (t : ERC20) (move : Move),
      t.balanceOf a ≤ (s.applyMove t move).balanceOf a := by
    intro t move
    unfold State.applyMove
    dsimp only
    split
    · rename_i t' hmoved
      cases move with
      | mint account amount =>
          rw [ERC20.balanceOf_mint hmoved]
          exact Nat.le_add_right _ _
      | pay recipient amount =>
          have hbalance := ERC20.balanceOf_transfer hmoved a
          rw [if_neg hne'] at hbalance
          omega
      | lock amount =>
          have hbalance := ERC20.balanceOf_transfer hmoved a
          rw [if_neg hne] at hbalance
          omega
    · exact le_rfl
  have hrun : ∀ (moves : List Move) (t : ERC20),
      t.balanceOf a ≤ (moves.foldl s.applyMove t).balanceOf a := by
    intro moves
    induction moves with
    | nil => exact fun t => le_rfl
    | cons move rest ih => exact fun t => (hmove t move).trans (ih _)
  exact hrun moves s.husky

theorem safeTransfer_credits (h : s.safeTransfer s.here dst amount = .ok s') : Credits s s' := by
  simp only [State.safeTransfer, bind_eq_ok, lowLevel_eq_ok, pure_eq_ok] at h
  obtain ⟨husky, hmoves, rfl⟩ := h
  refine ⟨rfl, rfl, fun a hne _ => ?_⟩
  have hbalance := ERC20.balanceOf_transfer hmoves a
  rw [if_neg hne] at hbalance
  show s.husky.balanceOf a ≤ husky.balanceOf a
  omega

/-- A payment takes nothing from the principal. -/
theorem payReward_credits {pos : Position} {multiplier : Nat}
    (h : s.payReward sender o pos multiplier = .ok s') : Credits s s' := by
  unfold State.payReward at h
  split at h
  · simp only [bind_eq_ok] at h
    obtain ⟨s₁, hfairLaunch, pending, _, hpays⟩ := h
    have hfirst : Credits s s₁ := by
      cases hmoves : o.harvest with
      | none =>
          rw [hmoves] at hfairLaunch
          cases hfairLaunch
      | some moves =>
          rw [hmoves] at hfairLaunch
          cases hfairLaunch
          exact settle_credits s moves
    unfold State._safeHuskyTransfer at hpays
    dsimp only at hpays
    split at hpays
    · exact hfirst.trans (safeTransfer_credits hpays)
    · exact hfirst.trans (safeTransfer_credits hpays)
  · cases h
    exact .refl s

theorem fairLaunchWithdraw_credits (h : s._fairLaunchWithdraw o amount = .ok s') :
    Credits s s' := by
  unfold State._fairLaunchWithdraw at h
  split at h
  · split at h
    · simp only [bind_eq_ok, pure_eq_ok] at h
      obtain ⟨_, _, rfl⟩ := h
      exact settle_credits s _
    · cases h
      exact .refl s
  · cases h
    exact .refl s

/-- What a withdrawal of position `id` did. -/
structure Releases (sender : Address) (n id : Nat) (s s' : State) : Prop where
  owner : (s.positions id).owner = sender
  open_pos : 0 < (s.positions id).hodlAmount
  nextPositionId : s'.nextPositionId = s.nextPositionId
  here : s'.here = s.here
  relayer : s'.relayer = s.relayer
  fairLaunch : s'.fairLaunch = s.fairLaunch
  supply : s'.receipt.totalSupply + (s.positions id).hodlAmount = s.receipt.totalSupply
  closed : (s'.positions id).hodlAmount = 0
  others : ∀ i, i ≠ id → (s'.positions i).hodlAmount = (s.positions i).hodlAmount
  owners : ∀ i, (s'.positions i).owner = (s.positions i).owner
  last_le : ∀ i, (s'.positions i).lastRewardBlock ≤ max (s.positions i).lastRewardBlock n
  custody : Custody s → Custody s' ∧
    s.husky.balanceOf s.relayer ≤ s'.husky.balanceOf s.relayer + (s.positions id).hodlAmount
  credited : sender ≠ s.here → sender ≠ s.relayer → sender ≠ s.fairLaunch →
    s.husky.balanceOf sender + (s.positions id).hodlAmount ≤ s'.husky.balanceOf sender

/-- A withdrawal returns the amount to its holder. -/
theorem withdraw_releases (h : s.withdraw sender n o id = .ok s') : Releases sender n id s s' := by
  simp only [State.withdraw, State.transferHusky, bind_eq_ok, require_eq_ok] at h
  obtain ⟨_, howner, _, hopen, multiplier, _, s₁, hreward, receipt, hburns, s₂, hfairLaunch, s₃,
    ⟨_, hrelayerOwner, hprincipal⟩, hpays⟩ := h
  have hfirst : Steady n s s₁ := payReward_steady hreward
  have hsecond : Steady n { s₁ with receipt } s₂ := fairLaunchWithdraw_steady hfairLaunch
  have hcredits : Credits { s₁ with receipt } s₂ := fairLaunchWithdraw_credits hfairLaunch
  have hcredits := (payReward_credits hreward).trans hcredits
  have hrelayer : s₂.relayer = s.relayer := hsecond.relayer.trans hfirst.relayer
  simp only [State.safeTransfer, State.setPosition, bind_eq_ok, lowLevel_eq_ok, pure_eq_ok]
    at hprincipal hpays
  obtain ⟨husky₃, hmoves₃, rfl⟩ := hprincipal
  obtain ⟨husky₄, hmoves₄, rfl⟩ := hpays
  change husky₃._transfer s₂.here sender (s.positions id).hodlAmount = .ok husky₄ at hmoves₄
  -- neither the reward nor FairLaunch touches the positions
  have hkeeps : ∀ i, (s₂.positions i).owner = (s.positions i).owner ∧
      (s₂.positions i).hodlAmount = (s.positions i).hodlAmount ∧
      (s₂.positions i).lastRewardBlock ≤ max (s.positions i).lastRewardBlock n := fun i =>
    ⟨(hsecond.owner i).trans (hfirst.owner i), (hsecond.hodlAmount i).trans (hfirst.hodlAmount i),
      (hsecond.last_le i).trans (max_le (hfirst.last_le i) (le_max_right _ _))⟩
  have hentry := TotalMap.forall_update (m := s₂.positions) (k := id)
    (v := { s₂.positions id with hodlAmount := 0 })
    (P := fun i pos => pos.owner = (s.positions i).owner ∧
      (i ≠ id → pos.hodlAmount = (s.positions i).hodlAmount) ∧
      pos.lastRewardBlock ≤ max (s.positions i).lastRewardBlock n)
    (fun i => ⟨(hkeeps i).1, fun _ => (hkeeps i).2.1, (hkeeps i).2.2⟩)
    ⟨(hkeeps id).1, fun hne => absurd rfl hne, (hkeeps id).2.2⟩
  have hclosed : (Function.update s₂.positions id { s₂.positions id with hodlAmount := 0 }
      id).hodlAmount = 0 := by
    rw [Function.update_self]
  have hsupply : receipt.totalSupply + (s.positions id).hodlAmount = s₁.receipt.totalSupply :=
    ERC20.totalSupply_burn hburns
  refine ⟨howner, hopen, hsecond.nextPositionId.trans hfirst.nextPositionId,
    hsecond.here.trans hfirst.here, hrelayer, hsecond.fairLaunch.trans hfirst.fairLaunch, ?_,
    hclosed,
    fun i => (hentry i).2.1, fun i => (hentry i).1, fun i => (hentry i).2.2, fun hs => ?_,
    fun hhere hne hfair => ?_⟩
  · show s₂.receipt.totalSupply + (s.positions id).hodlAmount = s.receipt.totalSupply
    rw [hsecond.supply, hsupply, hfirst.supply]
  · have hs₁ := hfirst.custody hs
    -- the two transfers of the principal: from the relayer to the contract, and on to the holder
    have hburned : Custody { s₁ with receipt } := { hs₁ with }
    have hs₂ := hsecond.custody hburned
    have hheld := (hfirst.ledger hs).2
    have hheld' := (hsecond.ledger hburned).2
    have hsound := (hs₂.sound.transfer hmoves₃).transfer hmoves₄
    have hbalance := ERC20.balanceOf_transfer hmoves₃ s₂.relayer
    have hbalance' := ERC20.balanceOf_transfer hmoves₄ s₂.relayer
    rw [if_pos rfl, if_neg hs₂.relayer_ne_here] at hbalance
    rw [if_neg hs₂.relayer_ne_here] at hbalance'
    refine ⟨{ hs₂ with sound := hsound }, ?_⟩
    show s.husky.balanceOf s.relayer ≤ husky₄.balanceOf s.relayer + (s.positions id).hodlAmount
    have hsame : s₁.relayer = s.relayer := hfirst.relayer
    rw [hrelayer] at hbalance hbalance'
    simp only [hsame] at hheld'
    omega
  · obtain ⟨hsame, hsame', hcredited⟩ := hcredits
    have hmore := hcredited sender hhere hfair
    have hbalance := ERC20.balanceOf_transfer hmoves₃ sender
    have hbalance' := ERC20.balanceOf_transfer hmoves₄ sender
    rw [hrelayer, if_neg hne] at hbalance
    rw [if_pos rfl, hsame, if_neg hhere] at hbalance'
    show s.husky.balanceOf sender + (s.positions id).hodlAmount ≤ husky₄.balanceOf sender
    omega

/-- What opening a position did. -/
structure Opens (sender : Address) (n amount : Nat) (s s' : State) : Prop where
  sender_ne : sender ≠ 0
  nextPositionId : s'.nextPositionId = s.nextPositionId + 1
  here : s'.here = s.here
  relayer : s'.relayer = s.relayer
  fairLaunch : s'.fairLaunch = s.fairLaunch
  supply : s'.receipt.totalSupply = s.receipt.totalSupply + amount
  opened : (s'.positions s.nextPositionId).hodlAmount = amount
  owner : (s'.positions s.nextPositionId).owner = sender
  others : ∀ i, i ≠ s.nextPositionId → (s'.positions i).hodlAmount = (s.positions i).hodlAmount ∧
    (s'.positions i).owner = (s.positions i).owner
  last_le : ∀ i, (s'.positions i).lastRewardBlock ≤ max (s.positions i).lastRewardBlock n
  custody : sender ≠ s.relayer → Custody s → Custody s' ∧
    s.husky.balanceOf s.relayer + amount ≤ s'.husky.balanceOf s.relayer

/-- A hodl locks the amount with the relayer. -/
theorem hodl_opens (h : s.hodl sender n o amount = .ok s') : Opens sender n amount s s' := by
  simp only [State.hodl, State.setPosition, bind_eq_ok, lowLevel_eq_ok] at h
  obtain ⟨husky, hmoves, _, _, _, _, receipt, hmints, hfairLaunch⟩ := h
  have hdeposit := fairLaunchDeposit_steady (n := n) hfairLaunch
  have hsender : sender ≠ 0 := by
    simp only [ERC20._mint, bind_eq_ok, require_eq_ok] at hmints
    obtain ⟨_, hsender, _⟩ := hmints
    exact hsender
  have hsupply : receipt.totalSupply = s.receipt.totalSupply + amount :=
    ERC20.totalSupply_mint hmints
  -- only the new position is written
  have hentry := TotalMap.forall_update (m := s.positions) (k := s.nextPositionId)
    (v := { owner := sender, hodlAmount := amount, blockNumber := n, lastRewardBlock := n })
    (P := fun i pos => (i ≠ s.nextPositionId → pos.hodlAmount = (s.positions i).hodlAmount ∧
      pos.owner = (s.positions i).owner) ∧
      pos.lastRewardBlock ≤ max (s.positions i).lastRewardBlock n)
    (fun i => ⟨fun _ => ⟨rfl, rfl⟩, le_max_left _ _⟩)
    ⟨fun hne => absurd rfl hne, le_max_right _ _⟩
  refine ⟨hsender, hdeposit.nextPositionId, hdeposit.here, hdeposit.relayer, hdeposit.fairLaunch,
    hdeposit.supply.trans hsupply, ?_, ?_, fun i hi => ?_, fun i => ?_, fun hne hs => ?_⟩
  · rw [hdeposit.hodlAmount]
    simp only [Function.update_self]
  · rw [hdeposit.owner]
    simp only [Function.update_self]
  · rw [hdeposit.hodlAmount, hdeposit.owner]
    exact (hentry i).1 hi
  · exact (hdeposit.last_le i).trans (max_le (hentry i).2 (le_max_right _ _))
  · obtain ⟨hsound, hheld⟩ := keepsRelayer_transferFrom hs.sound hmoves
    have hbalance := ERC20.balanceOf_transferFrom hmoves s.relayer
    rw [if_neg hne.symm, if_pos rfl] at hbalance
    -- the relayer holds the amount before the receipt is minted
    have htaken : Custody { s with
        positions := Function.update s.positions s.nextPositionId
          { owner := sender, hodlAmount := amount, blockNumber := n, lastRewardBlock := n }
        husky
        receipt
        nextPositionId := s.nextPositionId + 1
        holderPositions := Function.update s.holderPositions sender
          (s.holderPositions sender ++ [s.nextPositionId]) } := { hs with sound := hsound }
    refine ⟨hdeposit.custody htaken, ?_⟩
    have hmore := (hdeposit.ledger htaken).2
    simp only at hmore
    omega

end Calls

namespace Kept

variable {n id amount : Nat} {sender : Address} {s s' : State}

/-- A new position keeps the principal. -/
theorem opens (h : Kept n s) (hne : Outsider s sender) (ho : Opens sender n amount s s') :
    Kept n s' where
  toCustody := (ho.custody hne.2.1 h.toCustody).1
  unopened i hi := by
    rw [ho.nextPositionId] at hi
    rw [(ho.others i (by omega)).1]
    exact h.unopened i (by omega)
  outsider i hopen := by
    unfold Outsider
    rw [ho.here, ho.relayer, ho.fairLaunch]
    by_cases hi : i = s.nextPositionId
    · rw [hi, ho.owner]
      exact ⟨ho.sender_ne, hne⟩
    · rw [(ho.others i hi).1] at hopen
      rw [(ho.others i hi).2]
      exact h.outsider i hopen
  last_le i := (ho.last_le i).trans (max_le (h.last_le i) le_rfl)
  total := by
    -- the sum over the new range is the old one and the new position
    have hrest : ∑ i ∈ Finset.range s.nextPositionId, (s'.positions i).hodlAmount = s.hodled :=
      Finset.sum_congr rfl fun i hi => (ho.others i (Finset.mem_range.mp hi).ne).1
    rw [ho.supply, h.total]
    unfold State.hodled at hrest ⊢
    rw [ho.nextPositionId, Finset.sum_range_succ, hrest, ho.opened]
  held := by
    have hheld := h.held
    have hmore := (ho.custody hne.2.1 h.toCustody).2
    rw [ho.supply, ho.relayer]
    omega

/-- A withdrawal keeps the others' principal. -/
theorem releases (h : Kept n s) (hr : Releases sender n id s s') : Kept n s' where
  toCustody := (hr.custody h.toCustody).1
  unopened i hi := by
    rw [hr.nextPositionId] at hi
    by_cases hid : i = id
    · rw [hid]
      exact hr.closed
    · rw [hr.others i hid]
      exact h.unopened i hi
  outsider i hopen := by
    unfold Outsider
    rw [hr.owners, hr.here, hr.relayer, hr.fairLaunch]
    refine h.outsider i ?_
    by_cases hid : i = id
    · rw [hid]
      exact hr.open_pos
    · rw [hr.others i hid] at hopen
      exact hopen
  last_le i := (hr.last_le i).trans (max_le (h.last_le i) le_rfl)
  total := by
    have hmem : id ∈ Finset.range s.nextPositionId := by
      by_contra hnot
      have hnone := h.unopened id (Nat.not_lt.mp fun hlt => hnot (Finset.mem_range.mpr hlt))
      have hopen := hr.open_pos
      omega
    -- the sum falls by the closed position
    have hsum : (∑ i ∈ Finset.range s.nextPositionId, (s'.positions i).hodlAmount) +
          (s.positions id).hodlAmount =
        (∑ i ∈ Finset.range s.nextPositionId, (s.positions i).hodlAmount) +
          (s'.positions id).hodlAmount :=
      TotalMap.sum_replace hmem fun i _ hi => hr.others i hi
    have hsupply := hr.supply
    have htotal := h.total
    simp only [hr.closed] at hsum
    unfold State.hodled at htotal ⊢
    rw [hr.nextPositionId]
    omega
  held := by
    have hheld := h.held
    have hless := (hr.custody h.toCustody).2
    have hsupply := hr.supply
    rw [hr.relayer]
    omega

end Kept

/-! ## Runs -/

section Steps

variable {c c' : Chain} {tx : Tx}

theorem mine_eq_ok (h : mine c tx = .ok c') :
    c.block ≤ tx.blockNumber ∧ c'.block = tx.blockNumber ∧
      Outsider c.state tx.sender ∧ exec tx c.state = .ok c'.state := by
  simp only [mine, bind_eq_ok, require_eq_ok, pure_eq_ok] at h
  obtain ⟨_, hblock, _, hsender, state, hexec, rfl⟩ := h
  exact ⟨hblock, rfl, hsender, hexec⟩

theorem onReceipt_steady {n : Nat} {s s' : State} {f : ERC20 → Result ERC20}
    (hf : ∀ t t', f t = .ok t' → t'.totalSupply = t.totalSupply) (h : onReceipt f s = .ok s') :
    Steady n s s' := by
  simp only [onReceipt, bind_eq_ok, pure_eq_ok] at h
  obtain ⟨receipt, hreceipt, rfl⟩ := h
  exact ⟨rfl, rfl, rfl, rfl, rfl, hf _ _ hreceipt, fun _ => rfl, fun _ => rfl,
    fun _ => le_max_left _ _, fun hs => .refl hs.sound⟩

theorem onHusky_steady {n : Nat} {s s' : State} {f : ERC20 → Result ERC20}
    (hf : ∀ t', Sound s.relayer s.husky → f s.husky = .ok t' → KeepsRelayer s.relayer s.husky t')
    (h : onHusky f s = .ok s') : Steady n s s' := by
  simp only [onHusky, bind_eq_ok, pure_eq_ok] at h
  obtain ⟨husky, hhusky, rfl⟩ := h
  exact Steady.of_husky fun hs => hf husky hs.sound hhusky

/-- Every call except `hodl` and `withdraw`. -/
theorem exec_steady {s s' : State} (hhodl : ∀ amount, tx.op ≠ .hodl amount)
    (hwithdraw : ∀ id, tx.op ≠ .withdraw id) (hne : tx.sender ≠ s.relayer)
    (h : exec tx s = .ok s') : Steady tx.blockNumber s s' := by
  obtain ⟨sender, n, o, op⟩ := tx
  -- the owner's setters write nothing of the principal
  have hquiet : ∀ {s₁ : State}, s₁ = { s with
      minHoldSize := s₁.minHoldSize, acceptHold := s₁.acceptHold, owner := s₁.owner
      lockUpInterestBps := s₁.lockUpInterestBps, debtToken := s₁.debtToken
      fairLaunchPoolId := s₁.fairLaunchPoolId, stakeToken := s₁.stakeToken
      bonusMultiplier := s₁.bonusMultiplier, bonusPeriodBlock := s₁.bonusPeriodBlock } →
      Steady n s s₁ := by
    intro s₁ hsame
    rw [hsame]
    exact ⟨rfl, rfl, rfl, rfl, rfl, rfl, fun _ => rfl, fun _ => rfl, fun _ => le_max_left _ _,
      fun hs => .refl hs.sound⟩
  unfold exec at h
  cases op with
  | hodl amount => exact absurd rfl (hhodl amount)
  | withdraw id => exact absurd rfl (hwithdraw id)
  | harvest id => exact harvest_steady h
  | harvestAll => exact harvestAll_steady h
  | updateDebtToken debtToken newPid =>
      simp only [State.updateDebtToken, bind_eq_ok, pure_eq_ok] at h
      obtain ⟨_, _, _, _, _, _, rfl⟩ := h
      exact hquiet rfl
  | setFairLaunchPoolId poolId =>
      simp only [State.setFairLaunchPoolId, bind_eq_ok, pure_eq_ok] at h
      obtain ⟨_, _, _, _, rfl⟩ := h
      exact hquiet rfl
  | setConfigs minHoldSize acceptHold lockUpInterestBps =>
      simp only [State.setConfigs, bind_eq_ok, pure_eq_ok] at h
      obtain ⟨_, _, rfl⟩ := h
      exact hquiet rfl
  | setStronkInfo stakeToken bonusMultiplier bonusPeriodBlock =>
      simp only [State.setStronkInfo, bind_eq_ok, pure_eq_ok] at h
      obtain ⟨_, _, _, _, _, _, rfl⟩ := h
      exact hquiet rfl
  | transferOwnership newOwner =>
      simp only [State.transferOwnership, bind_eq_ok, pure_eq_ok] at h
      obtain ⟨_, _, _, _, rfl⟩ := h
      exact hquiet rfl
  | renounceOwnership =>
      simp only [State.renounceOwnership, bind_eq_ok, pure_eq_ok] at h
      obtain ⟨_, _, rfl⟩ := h
      exact hquiet rfl
  | receiptTransfer recipient amount =>
      exact onReceipt_steady (fun _ _ hmoves => ERC20.totalSupply_transfer hmoves) h
  | receiptTransferFrom holder recipient amount =>
      exact onReceipt_steady (fun _ _ hmoves => ERC20.totalSupply_transferFrom hmoves) h
  | receiptApprove spender amount =>
      exact onReceipt_steady (fun _ _ happroves => ERC20.totalSupply_approve happroves) h
  | huskyTransfer recipient amount =>
      exact onHusky_steady (fun _ ht hmoves => keepsRelayer_transfer ht hne.symm hmoves) h
  | huskyTransferFrom holder recipient amount =>
      exact onHusky_steady (fun _ ht hmoves => keepsRelayer_transferFrom ht hmoves) h
  | huskyApprove spender amount =>
      exact onHusky_steady (fun _ ht happroves => keepsRelayer_approve ht hne.symm happroves) h
  | settle moves =>
      cases h
      exact settle_steady n s moves

/-- The three kinds of a step. -/
inductive Kind (tx : Tx) (s s' : State) : Prop
  | opens (amount : Nat) (hop : tx.op = .hodl amount)
      (ho : Opens tx.sender tx.blockNumber amount s s')
  | releases (id : Nat) (hop : tx.op = .withdraw id)
      (hr : Releases tx.sender tx.blockNumber id s s')
  | steady (hhodl : ∀ amount, tx.op ≠ .hodl amount) (hwithdraw : ∀ id, tx.op ≠ .withdraw id)
      (hs : Steady tx.blockNumber s s')

/-- A call opens, releases or leaves the principal. -/
theorem exec_kind {s s' : State} (hne : tx.sender ≠ s.relayer) (h : exec tx s = .ok s') :
    Kind tx s s' := by
  by_cases hhodl : ∃ amount, tx.op = .hodl amount
  · obtain ⟨amount, hop⟩ := hhodl
    unfold exec at h
    rw [hop] at h
    exact .opens amount hop (hodl_opens h)
  · by_cases hwithdraw : ∃ id, tx.op = .withdraw id
    · obtain ⟨id, hop⟩ := hwithdraw
      unfold exec at h
      rw [hop] at h
      exact .releases id hop (withdraw_releases h)
    · have hhodl := not_exists.mp hhodl
      have hwithdraw := not_exists.mp hwithdraw
      exact .steady hhodl hwithdraw (exec_steady hhodl hwithdraw hne h)

/-- One transaction keeps the principal. -/
theorem kept_step (h : Kept c.block c.state) (hstep : mine c tx = .ok c') :
    Kept c'.block c'.state := by
  obtain ⟨hblock, hnow, hsender, hexec⟩ := mine_eq_ok hstep
  have h := h.mono hblock
  rw [hnow]
  cases exec_kind hsender.2.1 hexec with
  | opens amount _ ho => exact h.opens hsender ho
  | releases id _ hr => exact h.releases hr
  | steady _ _ hs => exact h.steady hs

theorem kept_init (hinit : machine.init c) : Kept c.block c.state := by
  obtain ⟨hhere, hfair, hzero, hzero', howner, hbacked, hsupply, hunapproved, hinitialized⟩ := hinit
  have hcustody : Custody c.state :=
    ⟨hhere, hfair, hzero, hzero', howner, hbacked, hsupply, hunapproved⟩
  have hpositions : c.state.positions = fun _ => {} := by rw [hinitialized]
  have hreceipt : c.state.receipt = {} := by rw [hinitialized]
  refine ⟨hcustody, fun id _ => ?_, fun id hopen => ?_, fun id => ?_, ?_, ?_⟩
  · rw [hpositions]
  · rw [hpositions] at hopen
    exact absurd hopen (lt_irrefl _)
  · rw [hpositions]
    exact Nat.zero_le _
  · unfold State.hodled
    rw [hreceipt, hpositions]
    exact (Finset.sum_const_zero).symm
  · rw [hreceipt]
    exact Nat.zero_le _

end Steps

/-- A state of a run with what each position hodled when it was opened, and the payments of
principal for it. -/
structure History where
  chain : Chain
  hodled : Nat → Nat := fun _ => 0
  payments : Nat → List (Address × Nat) := fun _ => []

/-- A transaction, with what it hodls or pays recorded. -/
def record (h : History) (tx : Tx) : Result History := do
  let chain ← mine h.chain tx
  let s := h.chain.state
  match tx.op with
  | .hodl amount =>
      return { h with chain, hodled := Function.update h.hodled s.nextPositionId amount }
  | .withdraw id =>
      return { h with
        chain
        payments := Function.update h.payments id
          (h.payments id ++ [(tx.sender, (s.positions id).hodlAmount)]) }
  | _ => return { h with chain }

def historyMachine : TSys History Tx where
  init h := machine.init h.chain ∧ h = { chain := h.chain }
  step := record

/-- A position is open and was paid nothing, or was paid once to its owner. -/
def PaidOnce (h : History) (id : Nat) : Prop :=
  (h.payments id = [] ∧ (h.chain.state.positions id).hodlAmount = h.hodled id) ∨
  (h.payments id = [((h.chain.state.positions id).owner, h.hodled id)] ∧
    (h.chain.state.positions id).hodlAmount = 0)

/-- The invariant of the histories. -/
structure Recorded (h : History) : Prop where
  kept : Kept h.chain.block h.chain.state
  unopened : ∀ id, h.chain.state.nextPositionId ≤ id → h.hodled id = 0 ∧ h.payments id = []
  paid : ∀ id, PaidOnce h id

section History

variable {h h' : History} {tx : Tx}

theorem record_mine (hstep : record h tx = .ok h') : mine h.chain tx = .ok h'.chain := by
  simp only [record, bind_eq_ok] at hstep
  obtain ⟨chain, hmine, hstep⟩ := hstep
  split at hstep
  all_goals
    cases hstep
    exact hmine

/-- One more transaction is recorded. -/
theorem recorded_step (hrec : Recorded h) (hstep : record h tx = .ok h') : Recorded h' := by
  have hmine := record_mine hstep
  obtain ⟨_, _, ⟨_, hne, _⟩, hexec⟩ := mine_eq_ok hmine
  have hkept := kept_step hrec.kept hmine
  simp only [record, bind_eq_ok] at hstep
  obtain ⟨chain, _, hstep⟩ := hstep
  cases exec_kind hne hexec with
  -- a new position has been paid nothing yet
  | opens amount hop ho =>
      rw [hop] at hstep
      cases hstep
      refine ⟨hkept, fun id hid => ?_, fun id => ?_⟩
      · rw [ho.nextPositionId] at hid
        have hnew : id ≠ h.chain.state.nextPositionId := by omega
        simp only [Function.update_of_ne hnew]
        exact hrec.unopened id (by omega)
      · by_cases hid : id = h.chain.state.nextPositionId
        · refine .inl ⟨(hrec.unopened id hid.ge).2, ?_⟩
          simp only [hid, Function.update_self]
          exact ho.opened
        · obtain ⟨hsame, howner⟩ := ho.others id hid
          unfold PaidOnce
          simp only [Function.update_of_ne hid]
          rw [hsame, howner]
          exact hrec.paid id
  -- the position is paid its amount, and closes
  | releases id hop hr =>
      rw [hop] at hstep
      cases hstep
      refine ⟨hkept, fun i hi => ?_, fun i => ?_⟩
      · rw [hr.nextPositionId] at hi
        have hother : i ≠ id := by
          rintro rfl
          have hnone := hrec.kept.unopened i hi
          have hopen := hr.open_pos
          omega
        simp only [Function.update_of_ne hother]
        exact hrec.unopened i hi
      · unfold PaidOnce
        rw [hr.owners]
        by_cases hi : i = id
        · subst hi
          have hopen := hr.open_pos
          -- it was open, so it had not been paid
          rcases hrec.paid i with ⟨hnone, hamount⟩ | ⟨_, hclosed⟩
          · refine .inr ⟨?_, hr.closed⟩
            simp only [Function.update_self]
            rw [hnone, hr.owner, hamount, List.nil_append]
          · omega
        · simp only [Function.update_of_ne hi]
          rw [hr.others i hi]
          exact hrec.paid i
  | steady hhodl hwithdraw hs =>
      have hsame : h'.hodled = h.hodled ∧ h'.payments = h.payments := by
        split at hstep
        · rename_i amount hop
          exact absurd hop (hhodl amount)
        · rename_i id hop
          exact absurd hop (hwithdraw id)
        · cases hstep
          exact ⟨rfl, rfl⟩
      refine ⟨hkept, fun id hid => ?_, fun id => ?_⟩
      · rw [hs.nextPositionId] at hid
        rw [hsame.1, hsame.2]
        exact hrec.unopened id hid
      · unfold PaidOnce
        rw [hsame.1, hsame.2, hs.hodlAmount, hs.owner]
        exact hrec.paid id

/-- The history is that of the positions in every state of a run. -/
theorem recorded_inductive : historyMachine.Inductive (fun _ _ => True) Recorded where
  init h hinit := by
    obtain ⟨hinit, hempty⟩ := hinit
    have hkept := kept_init hinit
    have hpositions : h.chain.state.positions = fun _ => {} := by rw [hinit.initialized]
    refine ⟨hkept, fun id _ => ?_, fun id => .inl ?_⟩
    · rw [hempty]
      exact ⟨rfl, rfl⟩
    · rw [hempty, hpositions]
      exact ⟨rfl, rfl⟩
  step _ _ _ hrec _ hstep := recorded_step hrec hstep

end History

/-- In every state of every run: the receipts add up to what the positions hodl, the relayer holds
as much, and each position is open and was paid nothing, or was paid its amount once, to its
owner. A withdrawal takes from the relayer no more than that amount, which its owner gets; no other
call takes anything. -/
theorem principal_of_reachable (h : History) (hreach : historyMachine.Reachable h) :
    (h.chain.state.receipt.totalSupply =
      ∑ id ∈ Finset.range h.chain.state.nextPositionId, (h.chain.state.positions id).hodlAmount) ∧
    (∀ id, h.chain.state.nextPositionId ≤ id → (h.chain.state.positions id).hodlAmount = 0) ∧
    h.chain.state.receipt.totalSupply ≤ h.chain.state.husky.balanceOf h.chain.state.relayer ∧
    (∀ id, PaidOnce h id) ∧
    ∀ tx h', historyMachine.step h tx = .ok h' →
      (∀ id, tx.op = .withdraw id →
        h.chain.state.husky.balanceOf h.chain.state.relayer ≤
          h'.chain.state.husky.balanceOf h.chain.state.relayer +
            (h.chain.state.positions id).hodlAmount ∧
        h.chain.state.husky.balanceOf tx.sender + (h.chain.state.positions id).hodlAmount ≤
          h'.chain.state.husky.balanceOf tx.sender) ∧
      ((∀ id, tx.op ≠ .withdraw id) → h.chain.state.husky.balanceOf h.chain.state.relayer ≤
        h'.chain.state.husky.balanceOf h.chain.state.relayer) := by
  have hrec := recorded_inductive.invariant hreach
  refine ⟨hrec.kept.total, hrec.kept.unopened, hrec.kept.held, hrec.paid, fun tx h' hstep => ?_⟩
  obtain ⟨_, _, ⟨hhere, hne, hfair⟩, hexec⟩ := mine_eq_ok (record_mine hstep)
  have hcustody := hrec.kept.toCustody
  cases exec_kind hne hexec with
  | opens amount hop ho =>
      refine ⟨fun id hid => ?_, fun _ => ?_⟩
      · rw [hop] at hid
        cases hid
      · exact (Nat.le_add_right _ _).trans (ho.custody hne hcustody).2
  | releases id hop hr =>
      refine ⟨fun i hi => ?_, fun hnot => absurd hop (hnot id)⟩
      rw [hop] at hi
      cases hi
      exact ⟨(hr.custody hcustody).2, hr.credited hhere hne hfair⟩
  | steady _ hwithdraw hs =>
      exact ⟨fun id hid => absurd hid (hwithdraw id), fun _ => (hs.ledger hcustody).2⟩

/-- HUSKY of which account 1 has 100. -/
def hodlerHusky : ERC20 := (({} : ERC20)._mint 1 100).toOption.getD {}

/-- `StronkHusky` at address 300 with its relayer at 301, FairLaunch at 302 and HUSKY at 303. -/
def freshChain : Chain where
  block := 1
  state := { here := 300, relayer := 301, relayerOwner := 300, fairLaunch := 302, token := 303,
             husky := hodlerHusky, owner := 50, debtToken := 304 }

theorem freshChain_init : machine.init freshChain := by
  have hminted : (({} : ERC20)._mint 1 100).toOption.isSome = true := by decide +kernel
  obtain ⟨t, ht⟩ := Option.isSome_iff_exists.mp hminted
  have hmints := toOption_eq_some.mp ht
  have hhusky : hodlerHusky = t := by
    unfold hodlerHusky
    rw [ht]
    rfl
  refine ⟨by decide, by decide, by decide, by decide, rfl, ?_, ?_, fun spender => ?_, rfl⟩
  · show hodlerHusky.Backed
    rw [hhusky]
    exact ERC20.backed_empty.mint hmints
  · decide +kernel
  · show hodlerHusky.allowance 301 spender = 0
    rw [hhusky, ERC20.allowance_mint hmints]

/-- Account 1 hodls 100 and withdraws it. -/
theorem principal_of_withdraw :
    ∃ h, historyMachine.Reachable h ∧ h.payments 1 = [(1, 100)] ∧
      h.chain.state.husky.balanceOf 1 = 100 ∧ PaidOnce h 1 := by
  have hrun : historyMachine.lastStep { chain := freshChain }
      [⟨50, 1, {}, .setStronkInfo 303 1 10⟩, ⟨1, 1, {}, .huskyApprove 300 100⟩,
       ⟨1, 2, {}, .hodl 100⟩] ⟨1, 5, { withdraw := none }, .withdraw 1⟩
      (fun _ h => h.payments 1 = [(1, 100)] ∧ h.chain.state.husky.balanceOf 1 = 100) = true := by
    decide +kernel
  obtain ⟨h₁, h, hreach, hstep, htest⟩ :=
    TSys.lastStep_reachable (M := historyMachine) ⟨freshChain_init, rfl⟩ hrun
  obtain ⟨hpaid, hbalance⟩ := of_decide_eq_true htest
  have hreach : historyMachine.Reachable h := .step hreach trivial hstep
  exact ⟨h, hreach, hpaid, hbalance, (principal_of_reachable h hreach).2.2.2.1 1⟩

end Huski.Stronk
