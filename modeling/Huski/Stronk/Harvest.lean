import Huski.Stronk.Principal

/-!
# What a position is due

A reward is due for each whole period since the last reward block of a position. `harvest`,
`harvestAll`, `withdraw` and the view `pendingHusky` compute it in their own loops; here is what
each of them does to the positions and the ledger. The positions of an owner are those that
`holderPositions` lists, each once.
-/

open Solidity

namespace Huski.Stronk

namespace State

variable (n : Nat) (s : State)

/-- `pendingHusky`, a view -/
def pendingHusky (blockNumber : Nat) (owner : Address) : Result Nat :=
  (s.holderPositions owner).foldlM (fun pending id => do
    let pos := s.positions id
    let multiplier ← s.getMultiplier pos.lastRewardBlock blockNumber
    let reward ← s.reward multiplier pos.hodlAmount
    return (pending + reward) % wordSize) 0

/-- The whole periods since the last reward block. -/
def periods (id : Nat) : Nat := (n - (s.positions id).lastRewardBlock) / s.bonusPeriodBlock

/-- The reward for them. -/
def dueFor (id : Nat) : Nat :=
  s.periods n id * (s.positions id).hodlAmount * s.lockUpInterestBps / 10000

/-- The rewards of all positions of an owner. -/
def due (owner : Address) : Nat := ((s.holderPositions owner).map (s.dueFor n)).sum

/-- The position with its periods settled. -/
def settled (id : Nat) : Position :=
  { s.positions id with lastRewardBlock :=
      (s.positions id).lastRewardBlock + s.periods n id * s.bonusPeriodBlock }

/-- The positions with the listed ones settled. -/
def settledAll (ids : List Nat) : Nat → Position :=
  fun id => if id ∈ ids then s.settled n id else s.positions id

/-- The reward is computed without a revert. -/
structure Payable (id : Nat) : Prop where
  last_le : (s.positions id).lastRewardBlock ≤ n
  period : s.bonusPeriodBlock ≠ 0
  product : s.periods n id * (s.positions id).hodlAmount < wordSize
  reward : s.periods n id * (s.positions id).hodlAmount * s.lockUpInterestBps < wordSize

end State

variable {n id amount multiplier : Nat} {sender : Address} {o : Outside} {s s' : State}
  {ids : List Nat}

/-! ## One position -/

/-- The periods of a span can be counted. -/
theorem getMultiplier_isOk (hle : (s.positions id).lastRewardBlock ≤ n)
    (hperiod : s.bonusPeriodBlock ≠ 0) :
    s.getMultiplier (s.positions id).lastRewardBlock n = .ok (s.periods n id) := by
  simp only [State.getMultiplier, bind_eq_ok, SafeMath.sub_eq_ok, SafeMath.div_eq_ok]
  exact ⟨_, ⟨hle, rfl⟩, hperiod, rfl⟩

/-- A reward is of the periods that have passed. -/
theorem reward_eq_ok {reward : Nat} : s.reward multiplier amount = .ok reward ↔
    multiplier * amount < wordSize ∧ multiplier * amount * s.lockUpInterestBps < wordSize ∧
      reward = multiplier * amount * s.lockUpInterestBps / 10000 := by
  simp only [State.reward, bind_eq_ok, SafeMath.mul_eq_ok, SafeMath.div_eq_ok]
  constructor
  · rintro ⟨_, ⟨hproduct, rfl⟩, _, ⟨hreward, rfl⟩, _, rfl⟩
    exact ⟨hproduct, hreward, rfl⟩
  · rintro ⟨hproduct, hreward, rfl⟩
    exact ⟨_, ⟨hproduct, rfl⟩, _, ⟨hreward, rfl⟩, by decide, rfl⟩

/-- Whole periods end by the block. -/
theorem periods_mul_le (n : Nat) (s : State) (id : Nat) :
    s.periods n id * s.bonusPeriodBlock ≤ n - (s.positions id).lastRewardBlock :=
  Nat.div_mul_le_self _ _

/-- A position can be advanced to this block. -/
theorem advance_isOk (hword : n < wordSize) (hle : (s.positions id).lastRewardBlock ≤ n) :
    s.advance id (s.periods n id) = .ok (s.setPosition id (s.settled n id)) := by
  have hblocks := periods_mul_le n s id
  have hfits : s.periods n id * s.bonusPeriodBlock < wordSize := by omega
  have hnext : (s.positions id).lastRewardBlock + s.periods n id * s.bonusPeriodBlock <
      wordSize := by omega
  simp only [State.advance, bind_eq_ok, SafeMath.mul_eq_ok, pure_eq_ok]
  refine ⟨_, ⟨hfits, rfl⟩, ?_⟩
  rw [Nat.mod_eq_of_lt hnext]
  rfl

/-! ## The loops -/

/-- What one round does. -/
theorem harvestOne_iff (hword : n < wordSize) {pending : Nat} {acc' : State × Nat} :
    State.harvestOne n (s, pending) id = .ok acc' ↔ s.Payable n id ∧
      acc' = (s.setPosition id (s.settled n id), (pending + s.dueFor n id) % wordSize) := by
  simp only [State.harvestOne, bind_eq_ok, pure_eq_ok]
  constructor
  · rintro ⟨multiplier, hmultiplier, reward, hreward, s', hadvance, rfl⟩
    obtain ⟨hle, hperiod, rfl⟩ := getMultiplier_eq_ok hmultiplier
    obtain ⟨hproduct, hfits, rfl⟩ := reward_eq_ok.mp hreward
    have hadvanced : s.advance id (s.periods n id) = .ok (s.setPosition id (s.settled n id)) :=
      advance_isOk hword hle
    obtain rfl := Except.ok.inj (hadvanced.symm.trans hadvance)
    exact ⟨⟨hle, hperiod, hproduct, hfits⟩, rfl⟩
  · rintro ⟨hpayable, rfl⟩
    exact ⟨_, getMultiplier_isOk hpayable.last_le hpayable.period, _,
      reward_eq_ok.mpr ⟨hpayable.product, hpayable.reward, rfl⟩, _,
      advance_isOk hword hpayable.last_le, rfl⟩

@[simp] theorem positions_setPosition_self (pos : Position) :
    (s.setPosition id pos).positions id = pos := Function.update_self ..

theorem positions_setPosition_of_ne {i : Nat} (hi : i ≠ id) (pos : Position) :
    (s.setPosition id pos).positions i = s.positions i := Function.update_of_ne hi ..

theorem periods_setPosition {i : Nat} (hi : i ≠ id) (pos : Position) :
    (s.setPosition id pos).periods n i = s.periods n i := by
  unfold State.periods
  rw [positions_setPosition_of_ne hi]
  rfl

theorem dueFor_setPosition {i : Nat} (hi : i ≠ id) (pos : Position) :
    (s.setPosition id pos).dueFor n i = s.dueFor n i := by
  unfold State.dueFor
  rw [periods_setPosition hi, positions_setPosition_of_ne hi]
  rfl

theorem settled_setPosition {i : Nat} (hi : i ≠ id) (pos : Position) :
    (s.setPosition id pos).settled n i = s.settled n i := by
  unfold State.settled
  rw [periods_setPosition hi, positions_setPosition_of_ne hi]
  rfl

theorem payable_setPosition {i : Nat} (hi : i ≠ id) (pos : Position) :
    (s.setPosition id pos).Payable n i ↔ s.Payable n i := by
  have hsame := positions_setPosition_of_ne (s := s) hi pos
  have hperiods := periods_setPosition (n := n) (s := s) hi pos
  constructor
  · rintro ⟨hle, hperiod, hproduct, hreward⟩
    rw [hsame] at hle
    rw [hsame, hperiods] at hproduct hreward
    exact ⟨hle, hperiod, hproduct, hreward⟩
  · rintro ⟨hle, hperiod, hproduct, hreward⟩
    refine ⟨?_, hperiod, ?_, ?_⟩
    · rwa [hsame]
    · rwa [hsame, hperiods]
    · rwa [hsame, hperiods]

theorem settledAll_of_mem (hid : id ∈ ids) : s.settledAll n ids id = s.settled n id := if_pos hid

theorem settledAll_of_notMem (hid : id ∉ ids) : s.settledAll n ids id = s.positions id :=
  if_neg hid

/-- A settled position concerns no other. -/
theorem settledAll_cons (hid : id ∉ ids) :
    (s.setPosition id (s.settled n id)).settledAll n ids = s.settledAll n (id :: ids) := by
  funext i
  by_cases hi : i = id
  · subst hi
    rw [settledAll_of_notMem hid, settledAll_of_mem List.mem_cons_self, positions_setPosition_self]
  · by_cases hmem : i ∈ ids
    · rw [settledAll_of_mem hmem, settledAll_of_mem (List.mem_cons_of_mem _ hmem),
        settled_setPosition hi]
    · have hnot : i ∉ id :: ids := fun h => (List.mem_cons.mp h).elim hi hmem
      rw [settledAll_of_notMem hmem, settledAll_of_notMem hnot, positions_setPosition_of_ne hi]

/-- The loop of `harvestAll` settles each position and adds up their rewards. -/
theorem harvestLoop_iff (hword : n < wordSize) (hnodup : ids.Nodup) {pending : Nat}
    (hpending : pending < wordSize) {acc' : State × Nat} :
    ids.foldlM (State.harvestOne n) (s, pending) = .ok acc' ↔ (∀ id ∈ ids, s.Payable n id) ∧
      acc' = ({ s with positions := s.settledAll n ids },
        (pending + (ids.map (s.dueFor n)).sum) % wordSize) := by
  induction ids generalizing s pending with
  | nil =>
      have hnone : s.settledAll n [] = s.positions := rfl
      rw [List.foldlM_nil, pure_eq_ok, hnone, List.map_nil, List.sum_nil, Nat.add_zero,
        Nat.mod_eq_of_lt hpending]
      constructor
      · rintro rfl
        exact ⟨fun id hid => absurd hid List.not_mem_nil, rfl⟩
      · rintro ⟨_, rfl⟩
        rfl
  | cons id rest ih =>
      obtain ⟨hid, hrest⟩ := List.nodup_cons.mp hnodup
      -- the positions of the list are distinct, so settling one leaves the dues of the rest
      have hother : ∀ i ∈ rest, i ≠ id := fun i hi heq => hid (heq ▸ hi)
      have hsum : (rest.map ((s.setPosition id (s.settled n id)).dueFor n)).sum =
          (rest.map (s.dueFor n)).sum := by
        rw [List.map_congr_left fun i hi => dueFor_setPosition (hother i hi) _]
      -- the sum is kept modulo a word, as the source adds without a check
      have htotal :
          ((pending + s.dueFor n id) % wordSize + (rest.map (s.dueFor n)).sum) % wordSize =
          (pending + ((id :: rest).map (s.dueFor n)).sum) % wordSize := by
        rw [Nat.mod_add_mod, List.map_cons, List.sum_cons, Nat.add_assoc]
      have hmod : (pending + s.dueFor n id) % wordSize < wordSize :=
        Nat.mod_lt _ (Nat.two_pow_pos 256)
      rw [List.foldlM_cons, bind_eq_ok]
      constructor
      · rintro ⟨acc₁, hfirst, hloop⟩
        obtain ⟨hpayable, rfl⟩ := (harvestOne_iff hword).mp hfirst
        obtain ⟨hrests, rfl⟩ := (ih hrest hmod).mp hloop
        rw [hsum, htotal, settledAll_cons hid]
        refine ⟨fun i hi => ?_, rfl⟩
        rcases List.mem_cons.mp hi with rfl | hi
        · exact hpayable
        · exact (payable_setPosition (hother i hi) _).mp (hrests i hi)
      · rintro ⟨hall, rfl⟩
        refine ⟨_, (harvestOne_iff hword).mpr ⟨hall id List.mem_cons_self, rfl⟩, ?_⟩
        refine (ih hrest hmod).mpr ⟨fun i hi => ?_, ?_⟩
        · exact (payable_setPosition (hother i hi) _).mpr (hall i (List.mem_cons_of_mem _ hi))
        · rw [hsum, htotal, settledAll_cons hid]
          rfl

/-- The view adds up the same rewards. -/
theorem pendingLoop_isOk {pending : Nat} (hpending : pending < wordSize)
    (hall : ∀ id ∈ ids, s.Payable n id) :
    ids.foldlM (fun pending id => do
      let pos := s.positions id
      let multiplier ← s.getMultiplier pos.lastRewardBlock n
      let reward ← s.reward multiplier pos.hodlAmount
      return (pending + reward) % wordSize) pending =
    (.ok ((pending + (ids.map (s.dueFor n)).sum) % wordSize) : Result Nat) := by
  induction ids generalizing pending with
  | nil =>
      rw [List.map_nil, List.sum_nil, Nat.add_zero, Nat.mod_eq_of_lt hpending]
      rfl
  | cons id rest ih =>
      have hpayable := hall id List.mem_cons_self
      rw [List.foldlM_cons, bind_eq_ok]
      refine ⟨(pending + s.dueFor n id) % wordSize, ?_, ?_⟩
      · dsimp only
        refine bind_eq_ok.mpr ⟨_, getMultiplier_isOk hpayable.last_le hpayable.period, ?_⟩
        refine bind_eq_ok.mpr ⟨_, reward_eq_ok.mpr ⟨hpayable.product, hpayable.reward, rfl⟩, ?_⟩
        rfl
      · rw [ih (Nat.mod_lt _ (Nat.two_pow_pos 256))
          fun i hi => hall i (List.mem_cons_of_mem _ hi), Nat.mod_add_mod, List.map_cons,
          List.sum_cons, Nat.add_assoc]

/-! ## The calls -/

/-- Only the HUSKY ledger is written. -/
def OnlyHusky (s s' : State) : Prop := ∃ t, s' = { s with husky := t }

theorem OnlyHusky.refl (s : State) : OnlyHusky s s := ⟨s.husky, rfl⟩

theorem callFairLaunch_eq_ok {moves : Option (List Move)} (h : s.callFairLaunch moves = .ok s') :
    ∃ list, moves = some list ∧ s' = s.settle list := by
  cases moves with
  | none => cases h
  | some list => exact ⟨list, rfl, (Except.ok.inj h).symm⟩

theorem safeTransfer_eq_ok {src dst : Address} (h : s.safeTransfer src dst amount = .ok s') :
    ∃ t, s.husky._transfer src dst amount = .ok t ∧ s' = { s with husky := t } := by
  simp only [State.safeTransfer, bind_eq_ok, lowLevel_eq_ok, pure_eq_ok] at h
  obtain ⟨t, hmoves, rfl⟩ := h
  exact ⟨t, hmoves, rfl⟩

/-- As much as there is. -/
theorem safeHuskyTransfer_eq_ok {dst : Address} (h : s._safeHuskyTransfer dst amount = .ok s') :
    ∃ t, s.husky._transfer s.here dst (min amount (s.husky.balanceOf s.here)) = .ok t ∧
      s' = { s with husky := t } := by
  unfold State._safeHuskyTransfer at h
  dsimp only at h
  split at h
  · rename_i hmore
    rw [min_eq_right hmore.le]
    exact safeTransfer_eq_ok h
  · rename_i hle
    rw [min_eq_left (Nat.not_lt.mp hle)]
    exact safeTransfer_eq_ok h

theorem payReward_eq_ok {pos : Position} (h : s.payReward sender o pos multiplier = .ok s') :
    OnlyHusky s s' := by
  unfold State.payReward at h
  split at h
  · simp only [bind_eq_ok] at h
    obtain ⟨s₁, hfairLaunch, pending, _, hpays⟩ := h
    obtain ⟨moves, _, rfl⟩ := callFairLaunch_eq_ok hfairLaunch
    obtain ⟨t, _, rfl⟩ := safeHuskyTransfer_eq_ok hpays
    exact ⟨t, rfl⟩
  · exact Except.ok.inj h ▸ .refl s

theorem fairLaunchDeposit_eq_ok (h : s._fairLaunchDeposit o amount = .ok s') :
    OnlyHusky s s' := by
  unfold State._fairLaunchDeposit at h
  split at h
  · simp only [bind_eq_ok] at h
    obtain ⟨_, _, hfairLaunch⟩ := h
    obtain ⟨moves, _, rfl⟩ := callFairLaunch_eq_ok hfairLaunch
    exact ⟨_, rfl⟩
  · exact Except.ok.inj h ▸ .refl s

/-- FairLaunch moves HUSKY, or its revert is tolerated and it moves none. -/
theorem fairLaunchWithdraw_eq_ok (hpos : 0 < amount)
    (h : s._fairLaunchWithdraw o amount = .ok s') : s' = s.settle (o.withdraw.getD []) := by
  unfold State._fairLaunchWithdraw at h
  rw [if_pos hpos] at h
  split at h
  · rename_i moves hmoves
    simp only [bind_eq_ok, pure_eq_ok] at h
    obtain ⟨_, _, rfl⟩ := h
    rw [hmoves]
    rfl
  · rename_i hnone
    rw [hnone]
    exact (Except.ok.inj h).symm

/-- `harvest` settles one position and pays what it is due, which is there after FairLaunch
has been asked. -/
theorem harvest_eq_ok (hword : n < wordSize) (h : s.harvest sender n o id = .ok s') :
    s.Payable n id ∧ (s.positions id).owner = sender ∧ 0 < (s.positions id).hodlAmount ∧
      0 < s.periods n id ∧ ∃ moves t, o.harvest = some moves ∧
      s.dueFor n id ≤ (s.settle moves).husky.balanceOf s.here ∧
      (s.settle moves).husky._transfer s.here sender (s.dueFor n id) = .ok t ∧
      s' = { s.setPosition id (s.settled n id) with husky := t } := by
  simp only [State.harvest, bind_eq_ok, require_eq_ok] at h
  obtain ⟨_, howner, multiplier, hmultiplier, _, ⟨hopen, hpos⟩, s₁, hfairLaunch, pending, hreward,
    _, hcovered, s₂, hadvance, hpays⟩ := h
  obtain ⟨hle, hperiod, rfl⟩ := getMultiplier_eq_ok hmultiplier
  obtain ⟨moves, hmoves, rfl⟩ := callFairLaunch_eq_ok hfairLaunch
  obtain ⟨hproduct, hfits, rfl⟩ := reward_eq_ok.mp hreward
  have hadvanced : (s.settle moves).advance id (s.periods n id) =
      .ok ((s.settle moves).setPosition id ((s.settle moves).settled n id)) :=
    advance_isOk (s := s.settle moves) hword hle
  obtain rfl := Except.ok.inj (hadvanced.symm.trans hadvance)
  obtain ⟨t, htransfer, rfl⟩ := safeHuskyTransfer_eq_ok hpays
  refine ⟨⟨hle, hperiod, hproduct, hfits⟩, howner, hopen, hpos, moves, t, hmoves, hcovered, ?_, rfl⟩
  have hmin : min (s.dueFor n id) ((s.settle moves).husky.balanceOf s.here) = s.dueFor n id :=
    min_eq_left hcovered
  have htransfer : (s.settle moves).husky._transfer s.here sender
      (min (s.dueFor n id) ((s.settle moves).husky.balanceOf s.here)) = .ok t := htransfer
  rwa [hmin] at htransfer

/-- `harvestAll` settles all positions and pays the sum of what they are due, as a word. -/
theorem harvestAll_iff_of_nodup (hword : n < wordSize)
    (hnodup : (s.holderPositions sender).Nodup) :
    s.harvestAll sender n = .ok s' ↔ (∀ id ∈ s.holderPositions sender, s.Payable n id) ∧
      s.due n sender % wordSize ≤ s.husky.balanceOf s.here ∧
      ∃ t, s.husky._transfer s.here sender (s.due n sender % wordSize) = .ok t ∧
        s' = { s with positions := s.settledAll n (s.holderPositions sender), husky := t } := by
  have hzero : 0 < wordSize := Nat.two_pow_pos 256
  simp only [State.harvestAll, bind_eq_ok, require_eq_ok]
  constructor
  · rintro ⟨⟨s₁, pending⟩, hloop, _, hcovered, hpays⟩
    obtain ⟨hall, hacc⟩ := (harvestLoop_iff hword hnodup hzero).mp hloop
    obtain ⟨rfl, rfl⟩ := Prod.mk.inj hacc
    rw [Nat.zero_add] at hcovered hpays
    obtain ⟨t, htransfer, rfl⟩ := safeHuskyTransfer_eq_ok hpays
    have htransfer : s.husky._transfer s.here sender
        (min (s.due n sender % wordSize) (s.husky.balanceOf s.here)) = .ok t := htransfer
    have hcovered : s.due n sender % wordSize ≤ s.husky.balanceOf s.here := hcovered
    -- the safe transfer would pay less, but the check before it forbids that
    rw [min_eq_left hcovered] at htransfer
    exact ⟨hall, hcovered, t, htransfer, rfl⟩
  · rintro ⟨hall, hcovered, t, htransfer, rfl⟩
    refine ⟨_, (harvestLoop_iff hword hnodup hzero).mpr ⟨hall, rfl⟩, (), ?_, ?_⟩
    · rw [Nat.zero_add]
      exact hcovered
    · dsimp only
      rw [Nat.zero_add]
      unfold State._safeHuskyTransfer
      dsimp only
      -- the check before the transfer makes its minimum the whole sum
      have hnot : ¬ s.due n sender % wordSize > s.husky.balanceOf s.here := Nat.not_lt.mpr hcovered
      have hpays : State.safeTransfer { s with
          positions := s.settledAll n (s.holderPositions sender) } s.here sender
            (s.due n sender % wordSize) =
          .ok { s with positions := s.settledAll n (s.holderPositions sender), husky := t } := by
        simp only [State.safeTransfer, bind_eq_ok, lowLevel_eq_ok, pure_eq_ok]
        exact ⟨t, htransfer, rfl⟩
      exact (if_neg hnot).trans hpays

/-- `withdraw` closes the position as it is: it pays the reward, and after FairLaunch has been
asked the principal, which comes from the relayer. -/
theorem withdraw_eq_ok (h : s.withdraw sender n o id = .ok s') :
    (s.positions id).owner = sender ∧ 0 < (s.positions id).hodlAmount ∧
      (s.positions id).lastRewardBlock ≤ n ∧ s.bonusPeriodBlock ≠ 0 ∧ ∃ s₁ receipt t t',
      s.payReward sender o (s.positions id) (s.periods n id) = .ok s₁ ∧
      (s₁.settle (o.withdraw.getD [])).husky._transfer s.relayer s.here
        (s.positions id).hodlAmount = .ok t ∧
      t._transfer s.here sender (s.positions id).hodlAmount = .ok t' ∧
      s' = { s.setPosition id { s.positions id with hodlAmount := 0 } with
        receipt, husky := t' } := by
  simp only [State.withdraw, State.transferHusky, bind_eq_ok, require_eq_ok] at h
  obtain ⟨_, howner, _, hopen, multiplier, hmultiplier, s₁, hreward, receipt, _, s₂, hfairLaunch,
    s₃, ⟨_, _, hprincipal⟩, hpays⟩ := h
  obtain ⟨hle, hperiod, rfl⟩ := getMultiplier_eq_ok hmultiplier
  obtain ⟨t₁, hs₁⟩ := payReward_eq_ok hreward
  obtain rfl := fairLaunchWithdraw_eq_ok hopen hfairLaunch
  obtain ⟨t, htakes, rfl⟩ := safeTransfer_eq_ok hprincipal
  obtain ⟨t', hgives, rfl⟩ := safeTransfer_eq_ok hpays
  subst hs₁
  exact ⟨howner, hopen, hle, hperiod, _, receipt, t, t', hreward, htakes, hgives, rfl⟩

/-- `hodl` opens the next position. -/
theorem hodl_eq_ok (h : s.hodl sender n o amount = .ok s') : sender ≠ 0 ∧ ∃ receipt t,
    s' = { s.setPosition s.nextPositionId { owner := sender, hodlAmount := amount,
                                            blockNumber := n, lastRewardBlock := n } with
      receipt
      husky := t
      nextPositionId := s.nextPositionId + 1
      holderPositions := Function.update s.holderPositions sender
        (s.holderPositions sender ++ [s.nextPositionId]) } := by
  simp only [State.hodl, bind_eq_ok, lowLevel_eq_ok] at h
  obtain ⟨husky, _, _, _, _, _, receipt, hmints, hfairLaunch⟩ := h
  have hsender : sender ≠ 0 := by
    simp only [ERC20._mint, bind_eq_ok, require_eq_ok] at hmints
    obtain ⟨_, hsender, _⟩ := hmints
    exact hsender
  obtain ⟨t, rfl⟩ := fairLaunchDeposit_eq_ok hfairLaunch
  exact ⟨hsender, receipt, t, rfl⟩

/-! ## The positions of an owner -/

/-- The positions of each owner are listed, each once, and nobody has the next ones. -/
structure Listed (s : State) : Prop where
  mem_iff : ∀ a, a ≠ 0 → ∀ id, id ∈ s.holderPositions a ↔ (s.positions id).owner = a
  zero : s.holderPositions 0 = []
  nodup : ∀ a, (s.holderPositions a).Nodup
  unopened : ∀ id, s.nextPositionId ≤ id → (s.positions id).owner = 0

theorem Listed.same (h : Listed s) (hlists : s'.holderPositions = s.holderPositions)
    (howners : ∀ id, (s'.positions id).owner = (s.positions id).owner)
    (hnext : s'.nextPositionId = s.nextPositionId) : Listed s' where
  mem_iff a ha id := by
    rw [hlists, howners]
    exact h.mem_iff a ha id
  zero := by
    rw [hlists]
    exact h.zero
  nodup a := by
    rw [hlists]
    exact h.nodup a
  unopened id hid := by
    rw [howners]
    exact h.unopened id (hnext ▸ hid)

/-- A new position is listed for its holder. -/
theorem Listed.opened (h : Listed s) (hopens : s.hodl sender n o amount = .ok s') : Listed s' := by
  obtain ⟨hsender, receipt, t, rfl⟩ := hodl_eq_ok hopens
  have hnew : s.nextPositionId ∉ s.holderPositions sender := fun hmem =>
    hsender (((h.mem_iff sender hsender _).mp hmem).symm.trans (h.unopened _ le_rfl))
  -- the next position is its sender's, the others are as they were
  have howner : ∀ i, ((s.setPosition s.nextPositionId
      ⟨sender, amount, n, n⟩).positions i).owner =
      if i = s.nextPositionId then sender else (s.positions i).owner := by
    intro i
    by_cases hi : i = s.nextPositionId
    · rw [hi, positions_setPosition_self, if_pos rfl]
    · rw [positions_setPosition_of_ne hi, if_neg hi]
  refine ⟨fun a ha i => ?_, (Function.update_of_ne hsender.symm ..).trans h.zero, fun a => ?_,
    fun i hi => ?_⟩
  · show i ∈ Function.update s.holderPositions sender _ a ↔ _ = a
    rw [howner]
    by_cases hi : i = s.nextPositionId
    · rw [if_pos hi, hi]
      by_cases hsame : a = sender
      · subst hsame
        rw [Function.update_self]
        exact ⟨fun _ => rfl, fun _ => List.mem_append_right _ List.mem_cons_self⟩
      · rw [Function.update_of_ne hsame]
        refine ⟨fun hmem => ?_, fun heq => absurd heq.symm hsame⟩
        exact absurd (((h.mem_iff a ha _).mp hmem).symm.trans (h.unopened _ le_rfl)) ha
    · rw [if_neg hi, ← h.mem_iff a ha i]
      by_cases hsame : a = sender
      · subst hsame
        rw [Function.update_self, List.mem_append, List.mem_singleton]
        exact or_iff_left hi
      · rw [Function.update_of_ne hsame]
  · show (Function.update s.holderPositions sender _ a).Nodup
    by_cases hsame : a = sender
    · subst hsame
      rw [Function.update_self]
      refine List.nodup_append.mpr ⟨h.nodup a, List.nodup_singleton _, fun i hi j hj => ?_⟩
      rw [List.mem_singleton.mp hj]
      exact fun heq => hnew (heq ▸ hi)
    · rw [Function.update_of_ne hsame]
      exact h.nodup a
  · have hpast : s.nextPositionId + 1 ≤ i := hi
    show ((s.setPosition s.nextPositionId _).positions i).owner = 0
    rw [howner, if_neg (by omega)]
    exact h.unopened i (by omega)

theorem harvestAll_holderPositions (h : s.harvestAll sender n = .ok s') :
    s'.holderPositions = s.holderPositions := by
  simp only [State.harvestAll, bind_eq_ok] at h
  obtain ⟨⟨s₁, pending⟩, hloop, _, _, hpays⟩ := h
  have hrounds : s₁.holderPositions = s.holderPositions := by
    refine foldlM_induct (P := fun acc : State × Nat => acc.1.holderPositions = s.holderPositions)
      (fun acc i acc' hacc hround => ?_) hloop rfl
    simp only [State.harvestOne, State.advance, bind_eq_ok, pure_eq_ok] at hround
    obtain ⟨_, _, _, _, _, ⟨_, _, rfl⟩, rfl⟩ := hround
    exact hacc
  obtain ⟨t, _, rfl⟩ := safeHuskyTransfer_eq_ok hpays
  exact hrounds

theorem harvest_holderPositions (h : s.harvest sender n o id = .ok s') :
    s'.holderPositions = s.holderPositions := by
  simp only [State.harvest, State.advance, bind_eq_ok, pure_eq_ok] at h
  obtain ⟨_, _, _, _, _, _, s₁, hfairLaunch, _, _, _, _, s₂, ⟨_, _, rfl⟩, hpays⟩ := h
  obtain ⟨moves, _, rfl⟩ := callFairLaunch_eq_ok hfairLaunch
  obtain ⟨t, _, rfl⟩ := safeHuskyTransfer_eq_ok hpays
  rfl

/-- Only `hodl` writes the lists. -/
theorem exec_holderPositions {tx : Tx} (hhodl : ∀ amount, tx.op ≠ .hodl amount)
    (h : exec tx s = .ok s') : s'.holderPositions = s.holderPositions := by
  rcases tx with ⟨sender, n, o, op⟩
  unfold exec at h
  cases op with
  | hodl amount => exact absurd rfl (hhodl amount)
  -- a closed position stays in the list
  | withdraw id =>
      obtain ⟨_, _, _, _, _, receipt, _, t, _, _, _, rfl⟩ := withdraw_eq_ok h
      rfl
  | harvest id => exact harvest_holderPositions h
  | harvestAll => exact harvestAll_holderPositions h
  | updateDebtToken debtToken newPid =>
      simp only [State.updateDebtToken, bind_eq_ok, pure_eq_ok] at h
      obtain ⟨_, _, _, _, _, _, rfl⟩ := h
      rfl
  | setFairLaunchPoolId poolId =>
      simp only [State.setFairLaunchPoolId, bind_eq_ok, pure_eq_ok] at h
      obtain ⟨_, _, _, _, rfl⟩ := h
      rfl
  | setConfigs minHoldSize acceptHold lockUpInterestBps =>
      simp only [State.setConfigs, bind_eq_ok, pure_eq_ok] at h
      obtain ⟨_, _, rfl⟩ := h
      rfl
  | setStronkInfo stakeToken bonusMultiplier bonusPeriodBlock =>
      simp only [State.setStronkInfo, bind_eq_ok, pure_eq_ok] at h
      obtain ⟨_, _, _, _, _, _, rfl⟩ := h
      rfl
  | transferOwnership newOwner =>
      simp only [State.transferOwnership, bind_eq_ok, pure_eq_ok] at h
      obtain ⟨_, _, _, _, rfl⟩ := h
      rfl
  | renounceOwnership =>
      simp only [State.renounceOwnership, bind_eq_ok, pure_eq_ok] at h
      obtain ⟨_, _, rfl⟩ := h
      rfl
  | receiptTransfer | receiptTransferFrom | receiptApprove =>
      simp only [onReceipt, bind_eq_ok, pure_eq_ok] at h
      obtain ⟨receipt, _, rfl⟩ := h
      rfl
  | huskyTransfer | huskyTransferFrom | huskyApprove =>
      simp only [onHusky, bind_eq_ok, pure_eq_ok] at h
      obtain ⟨husky, _, rfl⟩ := h
      rfl
  | settle moves =>
      cases h
      rfl

theorem listed_step {c c' : Chain} {tx : Tx} (h : Listed c.state) (hstep : mine c tx = .ok c') :
    Listed c'.state := by
  obtain ⟨_, _, hsender, hexec⟩ := mine_eq_ok hstep
  cases exec_kind hsender.2.1 hexec with
  | opens amount hop ho =>
      rcases tx with ⟨sender, n, o, op⟩
      obtain rfl : op = .hodl amount := hop
      exact h.opened hexec
  | releases id hop hr =>
      have hlists := exec_holderPositions (fun _ hhodl => nomatch hop.symm.trans hhodl) hexec
      exact h.same hlists hr.owners hr.nextPositionId
  | steady hhodl _ hs =>
      exact h.same (exec_holderPositions hhodl hexec) hs.owner hs.nextPositionId

/-- The lists name every position of a holder once, in every state of a run. -/
theorem listed_inductive : machine.Inductive (fun _ _ => True) fun c => Listed c.state where
  init c hinit := by
    have hinitialized := hinit.initialized
    have hpositions : c.state.positions = fun _ => {} := by rw [hinitialized]
    have hlists : c.state.holderPositions = fun _ => [] := by rw [hinitialized]
    refine ⟨fun a ha id => ?_, by rw [hlists], fun a => ?_, fun id _ => ?_⟩
    · rw [hlists, hpositions]
      exact ⟨fun hmem => absurd hmem List.not_mem_nil, fun howner => absurd howner.symm ha⟩
    · rw [hlists]
      exact List.nodup_nil
    · rw [hpositions]
  step _ _ _ h _ hstep := listed_step h hstep

end Huski.Stronk
