import Huski.Stronk.Harvest
import Huski.Lib.FloorSum

/-!
# Rewards over a schedule

A position is settled by `harvest`, `harvestAll` and `withdraw` in any order. Each settles the
whole periods since its last reward block and moves that by as many; `withdraw` does not move it,
but leaves nothing to hodl. So over any schedule every whole period is settled once, and what is
paid is short of the reward of them all by less than one unit a payment.
-/

open Solidity

namespace Huski.Stronk

variable {n id : Nat} {s s' : State} {tx : Tx}

/-- A successful transaction settles the position. -/
def Settles (id : Nat) (s : State) (tx : Tx) : Prop :=
  match tx.op with
  | .harvest i => i = id
  | .withdraw i => i = id
  | .harvestAll => (s.positions id).owner = tx.sender ∧ 0 < (s.positions id).hodlAmount
  | _ => False

instance : Decidable (Settles id s tx) := by
  unfold Settles
  split <;> infer_instance

/-- Periods that were settled, the reward for them and what was paid of it. -/
structure Payment where
  periods : Nat
  due : Nat
  paid : Nat

/-- What a settlement pays for the position. `harvestAll` pays for the positions in the order of
the list, as far as its sum goes; `withdraw` pays as far as there is HUSKY after FairLaunch has
been asked. -/
def paidFor (id : Nat) (s : State) (tx : Tx) : Nat :=
  match tx.op with
  | .harvestAll =>
      let before := (s.holderPositions tx.sender).takeWhile (· ≠ id)
      min (s.dueFor tx.blockNumber id) (s.due tx.blockNumber tx.sender % wordSize -
        (before.map (s.dueFor tx.blockNumber)).sum)
  | .withdraw _ => min (s.dueFor tx.blockNumber id)
      ((s.settle (tx.outside.harvest.getD [])).husky.balanceOf s.here)
  | _ => s.dueFor tx.blockNumber id

/-- The HUSKY of the transaction's settlement goes from the contract to the sender: what is paid
for the position, and with `harvestAll` what is paid for all positions of the sender together.
After it a withdrawal moves the principal only. -/
def PaysOut (id : Nat) (tx : Tx) (s s' : State) : Prop :=
  let asked := (s.settle (tx.outside.harvest.getD [])).husky
  match tx.op with
  | .harvest _ => asked._transfer s.here tx.sender (paidFor id s tx) = .ok s'.husky
  | .harvestAll => id ∈ s.holderPositions tx.sender ∧ s.husky._transfer s.here tx.sender
      ((s.holderPositions tx.sender).map fun i => paidFor i s tx).sum = .ok s'.husky
  | .withdraw _ => ∃ rewarded principal,
      asked._transfer s.here tx.sender (paidFor id s tx) = .ok rewarded ∧
      ({ s with husky := rewarded }.settle (tx.outside.withdraw.getD [])).husky._transfer
        s.relayer s.here (s.positions id).hodlAmount = .ok principal ∧
      principal._transfer s.here tx.sender (s.positions id).hodlAmount = .ok s'.husky
  | _ => False

/-- The terms stay as they are, and the block is a word. -/
def KeepsTerms (period bps : Nat) (tx : Tx) : Prop :=
  tx.blockNumber < wordSize ∧
    match tx.op with
    | .setConfigs _ _ lockUpInterestBps => lockUpInterestBps = bps
    | .setStronkInfo _ _ bonusPeriodBlock => bonusPeriodBlock = period
    | _ => True

/-! ## What is paid -/

theorem paidFor_le (id : Nat) (s : State) (tx : Tx) :
    paidFor id s tx ≤ s.dueFor tx.blockNumber id := by
  unfold paidFor
  split
  · exact min_le_left _ _
  · exact min_le_left _ _
  · exact le_rfl

/-- Parts that are paid in order, as far as a sum goes, use up the sum or are all paid. -/
theorem sum_in_order {ids : List Nat} {f : Nat → Nat} (hids : ids.Nodup) (total : Nat) :
    (ids.map fun id => min (f id) (total - ((ids.takeWhile (· ≠ id)).map f).sum)).sum =
      min (ids.map f).sum total := by
  induction ids generalizing total with
  | nil => rw [List.map_nil, List.map_nil, List.sum_nil, Nat.zero_min]
  | cons first rest ih =>
      obtain ⟨hfirst, hrest⟩ := List.nodup_cons.mp hids
      have hlater : ∀ id ∈ rest,
          min (f id) (total - (((first :: rest).takeWhile (· ≠ id)).map f).sum) =
            min (f id) (total - f first - ((rest.takeWhile (· ≠ id)).map f).sum) := by
        intro id hid
        have hne : first ≠ id := fun heq => hfirst (heq ▸ hid)
        rw [List.takeWhile_cons_of_pos (by simp [hne]), List.map_cons, List.sum_cons,
          Nat.sub_add_eq]
      rw [List.map_cons, List.sum_cons, List.map_congr_left hlater, ih hrest (total - f first),
        List.takeWhile_cons_of_neg (by simp), List.map_nil, List.sum_nil, List.map_cons,
        List.sum_cons]
      omega

/-- What `harvestAll` pays for the positions of its sender is together what it transfers. -/
theorem sum_paidFor_harvestAll (hop : tx.op = .harvestAll)
    (hids : (s.holderPositions tx.sender).Nodup) :
    ((s.holderPositions tx.sender).map fun i => paidFor i s tx).sum =
      s.due tx.blockNumber tx.sender % wordSize := by
  have hpaid : ∀ i ∈ s.holderPositions tx.sender, paidFor i s tx =
      min (s.dueFor tx.blockNumber i) (s.due tx.blockNumber tx.sender % wordSize -
        (((s.holderPositions tx.sender).takeWhile (· ≠ i)).map (s.dueFor tx.blockNumber)).sum) := by
    intro i _
    unfold paidFor
    rw [hop]
  rw [List.map_congr_left hpaid, sum_in_order hids]
  exact min_eq_right (Nat.mod_le _ _)

/-- The reward of a withdrawal is as much as there is. -/
theorem payReward_pays {sender : Address} {o : Outside} {pos : Position} {multiplier : Nat}
    (hpos : 0 < multiplier) (h : s.payReward sender o pos multiplier = .ok s') : ∃ t,
    (s.settle (o.harvest.getD [])).husky._transfer s.here sender
      (min (multiplier * pos.hodlAmount * s.lockUpInterestBps / 10000)
        ((s.settle (o.harvest.getD [])).husky.balanceOf s.here)) = .ok t ∧
    s' = { s with husky := t } := by
  unfold State.payReward at h
  rw [if_pos hpos] at h
  simp only [bind_eq_ok] at h
  obtain ⟨s₁, hfairLaunch, pending, hreward, hpays⟩ := h
  obtain ⟨moves, hmoves, rfl⟩ := callFairLaunch_eq_ok hfairLaunch
  obtain ⟨_, _, rfl⟩ := reward_eq_ok.mp hreward
  obtain ⟨t, htransfer, rfl⟩ := safeHuskyTransfer_eq_ok hpays
  rw [hmoves]
  exact ⟨t, htransfer, rfl⟩

/-- A settlement of whole periods transfers what is paid. -/
theorem exec_paysOut (hlisted : Listed s) (hsomebody : (s.positions id).owner ≠ 0)
    (hword : tx.blockNumber < wordSize) (hyes : Settles id s tx)
    (hpos : 0 < s.periods tx.blockNumber id) (h : exec tx s = .ok s') : PaysOut id tx s s' := by
  rcases tx with ⟨sender, n, o, op⟩
  unfold exec at h
  cases op with
  | harvest i =>
      obtain rfl : i = id := hyes
      obtain ⟨_, _, _, _, moves, t, hmoves, _, htransfer, rfl⟩ := harvest_eq_ok hword h
      dsimp only [PaysOut, paidFor]
      rw [hmoves]
      exact htransfer
  -- the transfer is of the sum, of which this position's due is one summand
  | harvestAll =>
      obtain ⟨howner, _⟩ := hyes
      have howner : (s.positions id).owner = sender := howner
      have hnodup := hlisted.nodup sender
      obtain ⟨_, _, t, htransfer, rfl⟩ := (harvestAll_iff_of_nodup hword hnodup).mp h
      refine ⟨(hlisted.mem_iff sender (howner ▸ hsomebody) id).mpr howner, ?_⟩
      rw [sum_paidFor_harvestAll rfl hnodup]
      exact htransfer
  | withdraw i =>
      obtain rfl : i = id := hyes
      obtain ⟨_, _, _, _, s₁, receipt, t, t', hreward, htakes, hgives, rfl⟩ := withdraw_eq_ok h
      -- the reward comes first, then the principal passes through the contract
      obtain ⟨rewarded, hrewarded, rfl⟩ := payReward_pays hpos hreward
      exact ⟨rewarded, t, hrewarded, htakes, hgives⟩
  | _ => exact hyes.elim

/-! ## What a transaction does to the position -/

/-- A transaction settles the position or leaves what it hodls alone. -/
structure Effect (id : Nat) (tx : Tx) (s s' : State) : Prop where
  terms : KeepsTerms s.bonusPeriodBlock s.lockUpInterestBps tx →
    s'.bonusPeriodBlock = s.bonusPeriodBlock ∧ s'.lockUpInterestBps = s.lockUpInterestBps
  owner : (s'.positions id).owner = (s.positions id).owner
  settles : Settles id s tx → 0 < (s.positions id).hodlAmount ∧
    (s.positions id).lastRewardBlock ≤ tx.blockNumber ∧
    (s'.positions id = s.settled tx.blockNumber id ∨
      s'.positions id = { s.positions id with hodlAmount := 0 })
  others : ¬Settles id s tx → s'.positions id = s.positions id ∨
    ((s.positions id).hodlAmount = 0 ∧ (s'.positions id).hodlAmount = 0)

/-- No position and no terms are written. -/
theorem Effect.quiet (hpositions : s'.positions = s.positions)
    (hperiod : s'.bonusPeriodBlock = s.bonusPeriodBlock)
    (hbps : s'.lockUpInterestBps = s.lockUpInterestBps) (hnot : ¬Settles id s tx) :
    Effect id tx s s' :=
  ⟨fun _ => ⟨hperiod, hbps⟩, by rw [hpositions], fun hyes => absurd hyes hnot,
    fun _ => .inl (by rw [hpositions])⟩

theorem setPosition_owner {i : Nat} {pos : Position} (hpos : pos.owner = (s.positions i).owner) :
    ((s.setPosition i pos).positions id).owner = (s.positions id).owner := by
  by_cases hi : id = i
  · subst hi
    rw [positions_setPosition_self, hpos]
  · rw [positions_setPosition_of_ne hi]

/-- `harvestAll` settles the positions of its sender. -/
theorem harvestAll_effect {sender : Address} {n : Nat} {o : Outside} (hlisted : Listed s)
    (hsomebody : (s.positions id).owner ≠ 0) (hword : n < wordSize)
    (h : s.harvestAll sender n = .ok s') :
    Effect id ⟨sender, n, o, .harvestAll⟩ s s' := by
  obtain ⟨hpayable, _, t, _, rfl⟩ :=
    (harvestAll_iff_of_nodup hword (hlisted.nodup sender)).mp h
  refine ⟨fun _ => ⟨rfl, rfl⟩, ?_, fun hyes => ?_, fun hnot => ?_⟩
  · show (s.settledAll n (s.holderPositions sender) id).owner = _
    by_cases hmem : id ∈ s.holderPositions sender
    · rw [settledAll_of_mem hmem]
      rfl
    · rw [settledAll_of_notMem hmem]
  · obtain ⟨howner, hopen⟩ := hyes
    have howner : (s.positions id).owner = sender := howner
    have hmem := (hlisted.mem_iff sender (howner ▸ hsomebody) id).mpr howner
    exact ⟨hopen, (hpayable id hmem).last_le, .inl (settledAll_of_mem hmem)⟩
  · by_cases hmem : id ∈ s.holderPositions sender
    · have hzero : sender ≠ 0 := by
        intro hzero
        rw [hzero, hlisted.zero] at hmem
        exact absurd hmem List.not_mem_nil
      have howner := (hlisted.mem_iff sender hzero id).mp hmem
      -- a position of the sender that is not settled is closed
      have hclosed : (s.positions id).hodlAmount = 0 :=
        Nat.eq_zero_of_not_pos fun hopen => hnot ⟨howner, hopen⟩
      refine .inr ⟨hclosed, ?_⟩
      show (s.settledAll n (s.holderPositions sender) id).hodlAmount = 0
      rw [settledAll_of_mem hmem]
      exact hclosed
    · exact .inl (settledAll_of_notMem hmem)

theorem exec_effect (hlisted : Listed s) (hsomebody : (s.positions id).owner ≠ 0)
    (hword : tx.blockNumber < wordSize) (h : exec tx s = .ok s') : Effect id tx s s' := by
  rcases tx with ⟨sender, n, o, op⟩
  unfold exec at h
  cases op with
  | hodl amount =>
      obtain ⟨_, receipt, t, rfl⟩ := hodl_eq_ok h
      -- the schedule's position is an old one
      have hold : id ≠ s.nextPositionId := by
        intro hnew
        exact hsomebody (hlisted.unopened id hnew.ge)
      have hsame := positions_setPosition_of_ne (s := s) hold ⟨sender, amount, n, n⟩
      exact ⟨fun _ => ⟨rfl, rfl⟩, congrArg Position.owner hsame, fun hyes => hyes.elim,
        fun _ => .inl hsame⟩
  | harvest i =>
      obtain ⟨hpayable, _, hopen, _, moves, t, _, _, _, rfl⟩ := harvest_eq_ok hword h
      refine ⟨fun _ => ⟨rfl, rfl⟩, setPosition_owner rfl, fun hyes => ?_, fun hnot => ?_⟩
      · obtain rfl : i = id := hyes
        exact ⟨hopen, hpayable.last_le, .inl (positions_setPosition_self _)⟩
      · exact .inl (positions_setPosition_of_ne (Ne.symm hnot) _)
  | harvestAll => exact harvestAll_effect hlisted hsomebody hword h
  | withdraw i =>
      obtain ⟨_, hopen, hle, _, _, receipt, _, t, _, _, _, rfl⟩ := withdraw_eq_ok h
      refine ⟨fun _ => ⟨rfl, rfl⟩, setPosition_owner rfl, fun hyes => ?_, fun hnot => ?_⟩
      · obtain rfl : i = id := hyes
        exact ⟨hopen, hle, .inr (positions_setPosition_self _)⟩
      · exact .inl (positions_setPosition_of_ne (Ne.symm hnot) _)
  | updateDebtToken debtToken newPid =>
      simp only [State.updateDebtToken, bind_eq_ok, pure_eq_ok] at h
      obtain ⟨_, _, _, _, _, _, rfl⟩ := h
      exact .quiet rfl rfl rfl not_false
  | setFairLaunchPoolId poolId =>
      simp only [State.setFairLaunchPoolId, bind_eq_ok, pure_eq_ok] at h
      obtain ⟨_, _, _, _, rfl⟩ := h
      exact .quiet rfl rfl rfl not_false
  | setConfigs minHoldSize acceptHold lockUpInterestBps =>
      simp only [State.setConfigs, bind_eq_ok, pure_eq_ok] at h
      obtain ⟨_, _, rfl⟩ := h
      -- the terms change only where the run does not keep them
      exact ⟨fun hkeeps => ⟨rfl, hkeeps.2⟩, rfl, fun hyes => hyes.elim, fun _ => .inl rfl⟩
  | setStronkInfo stakeToken bonusMultiplier bonusPeriodBlock =>
      simp only [State.setStronkInfo, bind_eq_ok, pure_eq_ok] at h
      obtain ⟨_, _, _, _, _, _, rfl⟩ := h
      exact ⟨fun hkeeps => ⟨hkeeps.2, rfl⟩, rfl, fun hyes => hyes.elim, fun _ => .inl rfl⟩
  | transferOwnership newOwner =>
      simp only [State.transferOwnership, bind_eq_ok, pure_eq_ok] at h
      obtain ⟨_, _, _, _, rfl⟩ := h
      exact .quiet rfl rfl rfl not_false
  | renounceOwnership =>
      simp only [State.renounceOwnership, bind_eq_ok, pure_eq_ok] at h
      obtain ⟨_, _, rfl⟩ := h
      exact .quiet rfl rfl rfl not_false
  | receiptTransfer | receiptTransferFrom | receiptApprove =>
      simp only [onReceipt, bind_eq_ok, pure_eq_ok] at h
      obtain ⟨receipt, _, rfl⟩ := h
      exact .quiet rfl rfl rfl not_false
  | huskyTransfer | huskyTransferFrom | huskyApprove =>
      simp only [onHusky, bind_eq_ok, pure_eq_ok] at h
      obtain ⟨husky, _, rfl⟩ := h
      exact .quiet rfl rfl rfl not_false
  | settle moves =>
      cases h
      exact .quiet rfl rfl rfl not_false

/-! ## Runs from the opening of a position -/

/-- A state with what was paid for the position since it was opened, and when it was settled
last. -/
structure Schedule where
  chain : Chain
  payments : List Payment := []
  settledAt : Nat

/-- A settlement of no whole period pays nothing and is no payment. -/
def Schedule.record (id : Nat) (h : Schedule) (tx : Tx) : Result Schedule := do
  let chain ← mine h.chain tx
  let s := h.chain.state
  if Settles id s tx then
    let periods := s.periods tx.blockNumber id
    let payment : Payment :=
      { periods, due := s.dueFor tx.blockNumber id, paid := paidFor id s tx }
    return { chain, settledAt := tx.blockNumber,
             payments := if periods > 0 then payment :: h.payments else h.payments }
  else
    return { h with chain }

/-- Some transaction of a run opened the position with `amount` in block `start`. -/
def scheduleMachine (id start amount : Nat) : TSys Schedule Tx where
  init h := ∃ c sender o, machine.Reachable c ∧ c.state.nextPositionId = id ∧
    mine c ⟨sender, start, o, .hodl amount⟩ = .ok h.chain ∧
    h.payments = [] ∧ h.settledAt = start
  step := Schedule.record id

/-- The periods that were settled. -/
def Schedule.periods (h : Schedule) : Nat := (h.payments.map Payment.periods).sum

/-- All whole periods up to the last settlement are settled, and the position stands where they
end, or hodls nothing any more. -/
structure Scheduled (id start amount period bps : Nat) (h : Schedule) : Prop where
  period_eq : h.chain.state.bonusPeriodBlock = period
  bps_eq : h.chain.state.lockUpInterestBps = bps
  listed : Listed h.chain.state
  owner : (h.chain.state.positions id).owner ≠ 0
  settledAt_le : h.settledAt ≤ h.chain.block
  settled_le : start + h.periods * period ≤ h.settledAt
  settled_lt : h.settledAt < start + h.periods * period + period
  position : (h.chain.state.positions id).hodlAmount = 0 ∨
    ((h.chain.state.positions id).hodlAmount = amount ∧
      (h.chain.state.positions id).lastRewardBlock = start + h.periods * period)
  floors : FloorSum 10000 h.payments.length (h.payments.map Payment.due).sum
    (h.periods * amount * bps)
  paid_le : ∀ p ∈ h.payments, p.paid ≤ p.due

section Runs

variable {start amount period bps : Nat} {h h' : Schedule}

theorem scheduled_init (hperiod : 0 < period) (hinit : (scheduleMachine id start amount).init h)
    (hterms : h.chain.state.bonusPeriodBlock = period)
    (hbps : h.chain.state.lockUpInterestBps = bps) :
    Scheduled id start amount period bps h := by
  obtain ⟨c, sender, o, hreach, rfl, hmine, hpayments, hsettled⟩ := hinit
  obtain ⟨_, hnow, _, hexec⟩ := mine_eq_ok hmine
  have hlisted := listed_inductive.invariant hreach
  obtain ⟨hsender, receipt, t, hstate⟩ := hodl_eq_ok hexec
  have hposition : h.chain.state.positions c.state.nextPositionId =
      ⟨sender, amount, start, start⟩ := by
    rw [hstate]
    exact positions_setPosition_self _
  have hnone : h.periods = 0 := by
    unfold Schedule.periods
    rw [hpayments]
    rfl
  refine ⟨hterms, hbps, hlisted.opened hexec, ?_, ?_, ?_, ?_, .inr ?_, ?_, fun p hp => ?_⟩
  · rw [hposition]
    exact hsender
  · rw [hsettled, hnow]
  · rw [hnone, hsettled, Nat.zero_mul, Nat.add_zero]
  · rw [hnone, hsettled, Nat.zero_mul, Nat.add_zero]
    exact Nat.lt_add_of_pos_right hperiod
  · rw [hposition, hnone, Nat.zero_mul, Nat.add_zero]
    exact ⟨rfl, rfl⟩
  · rw [hnone, hpayments, Nat.zero_mul, Nat.zero_mul]
    exact .zero _
  · rw [hpayments] at hp
    exact absurd hp List.not_mem_nil

/-- What a settlement adds to the schedule. -/
theorem settled_step (hs : Scheduled id start amount period bps h) (hperiod : 0 < period)
    (hkeeps : KeepsTerms period bps tx) (hyes : Settles id h.chain.state tx)
    (hstep : h.record id tx = .ok h') : Scheduled id start amount period bps h' := by
  simp only [Schedule.record, bind_eq_ok] at hstep
  obtain ⟨chain, hmine, hstep⟩ := hstep
  rw [if_pos hyes] at hstep
  obtain ⟨hblock, hnow, _, hexec⟩ := mine_eq_ok hmine
  have hlisted := listed_step hs.listed hmine
  have heffect := exec_effect hs.listed hs.owner hkeeps.1 hexec
  have hterms := heffect.terms (by rw [hs.period_eq, hs.bps_eq]; exact hkeeps)
  obtain ⟨hopen, hle, hafter⟩ := heffect.settles hyes
  obtain ⟨hamount, hlast⟩ := hs.position.resolve_left (by omega)
  -- the whole periods since then
  have hfloor := Nat.div_add_mod (tx.blockNumber - (start + h.periods * period)) period
  have hrest := Nat.mod_lt (tx.blockNumber - (start + h.periods * period)) hperiod
  have hperiods : h.chain.state.periods tx.blockNumber id =
      (tx.blockNumber - (start + h.periods * period)) / period := by
    unfold State.periods
    rw [hlast, hs.period_eq]
  generalize hm : h.chain.state.periods tx.blockNumber id = m at *
  have hdue : h.chain.state.dueFor tx.blockNumber id = m * amount * bps / 10000 := by
    unfold State.dueFor
    rw [hm, hamount, hs.bps_eq]
  have hpaid := paidFor_le id h.chain.state tx
  have hsum : h'.periods = m + h.periods ∧ h'.chain = chain ∧ h'.settledAt = tx.blockNumber := by
    obtain rfl := Except.ok.inj hstep
    unfold Schedule.periods
    refine ⟨?_, rfl, rfl⟩
    dsimp only
    split
    · rw [List.map_cons, List.sum_cons]
    · omega
  obtain ⟨hsum, hchain, hsettled⟩ := hsum
  have hmul : h'.periods * period = m * period + h.periods * period := by rw [hsum, Nat.add_mul]
  rw [← hperiods, Nat.mul_comm] at hfloor
  rw [hlast] at hle
  refine ⟨?_, ?_, ?_, ?_, ?_, ?_, ?_, ?_, ?_, ?_⟩
  · rw [hchain, hterms.1, hs.period_eq]
  · rw [hchain, hterms.2, hs.bps_eq]
  · rw [hchain]
    exact hlisted
  · rw [hchain, heffect.owner]
    exact hs.owner
  · rw [hsettled, hchain, hnow]
  · rw [hsettled, hmul]
    omega
  · rw [hsettled, hmul]
    omega
  · rw [hchain]
    rcases hafter with hafter | hafter
    · refine .inr ?_
      rw [hafter]
      refine ⟨hamount, ?_⟩
      show (h.chain.state.positions id).lastRewardBlock +
        h.chain.state.periods tx.blockNumber id * h.chain.state.bonusPeriodBlock = _
      rw [hlast, hm, hs.period_eq, hmul]
      omega
    · rw [hafter]
      exact .inl rfl
  · have hpart : h'.periods * amount * bps = m * amount * bps + h.periods * amount * bps := by
      rw [hsum, Nat.add_mul, Nat.add_mul]
    obtain rfl := Except.ok.inj hstep
    rw [hpart]
    dsimp only
    split
    · rw [List.length_cons, List.map_cons, List.sum_cons]
      dsimp only
      rw [hdue]
      exact hs.floors.cons (by norm_num) _
    · rename_i hnone
      obtain rfl : m = 0 := by omega
      rw [Nat.zero_mul, Nat.zero_mul, Nat.zero_add]
      exact hs.floors
  · obtain rfl := Except.ok.inj hstep
    intro p hp
    dsimp only at hp
    split at hp
    · rcases List.mem_cons.mp hp with rfl | hp
      · exact hpaid
      · exact hs.paid_le p hp
    · exact hs.paid_le p hp

theorem scheduled_step (hs : Scheduled id start amount period bps h) (hperiod : 0 < period)
    (hkeeps : KeepsTerms period bps tx) (hstep : h.record id tx = .ok h') :
    Scheduled id start amount period bps h' := by
  by_cases hyes : Settles id h.chain.state tx
  · exact settled_step hs hperiod hkeeps hyes hstep
  · simp only [Schedule.record, bind_eq_ok] at hstep
    obtain ⟨chain, hmine, hstep⟩ := hstep
    rw [if_neg hyes] at hstep
    obtain rfl := Except.ok.inj hstep
    obtain ⟨hblock, hnow, _, hexec⟩ := mine_eq_ok hmine
    have heffect := exec_effect hs.listed hs.owner hkeeps.1 hexec
    have hterms := heffect.terms (by rw [hs.period_eq, hs.bps_eq]; exact hkeeps)
    refine ⟨hterms.1.trans hs.period_eq, hterms.2.trans hs.bps_eq, listed_step hs.listed hmine, ?_,
      ?_, hs.settled_le, hs.settled_lt, ?_, hs.floors, hs.paid_le⟩
    · exact heffect.owner ▸ hs.owner
    · exact hs.settledAt_le.trans (hnow ▸ hblock)
    · rcases heffect.others hyes with hsame | ⟨_, hclosed⟩
      · show (chain.state.positions id).hodlAmount = 0 ∨ _
        rw [hsame]
        exact hs.position
      · exact .inl hclosed

/-- What a transaction adds to the payments it has transferred. -/
theorem record_paysOut (hlisted : Listed h.chain.state)
    (hsomebody : (h.chain.state.positions id).owner ≠ 0) (hword : tx.blockNumber < wordSize)
    (hstep : h.record id tx = .ok h') :
    h'.payments = h.payments ∨ PaysOut id tx h.chain.state h'.chain.state ∧
      h'.payments.map Payment.paid =
        paidFor id h.chain.state tx :: h.payments.map Payment.paid := by
  simp only [Schedule.record, bind_eq_ok] at hstep
  obtain ⟨chain, hmine, hstep⟩ := hstep
  obtain ⟨_, _, _, hexec⟩ := mine_eq_ok hmine
  by_cases hyes : Settles id h.chain.state tx
  · rw [if_pos hyes] at hstep
    obtain rfl := Except.ok.inj hstep
    dsimp only
    split
    · rename_i hpos
      exact .inr ⟨exec_paysOut hlisted hsomebody hword hyes hpos hexec, rfl⟩
    · exact .inl rfl
  · rw [if_neg hyes] at hstep
    obtain rfl := Except.ok.inj hstep
    exact .inl rfl

end Runs

/-! ## Any schedule -/

/-- The reward of the whole periods between two blocks. -/
def wholeReward (period bps amount start last : Nat) : Nat :=
  (last - start) / period * amount * bps / 10000

/-- For a position opened in block `start` with `amount`, over every run under the terms of then:
what is paid for it up to any block is at most the reward of the whole periods until then. If all
payments were made in full, it is at least the reward until the last settlement, less the number
of payments; and each whole period until then was settled once. The payments are those that the
next transaction adds when it settles whole periods of the position, and it transfers them. -/
theorem rewards_of_schedule (id start amount period bps : Nat) (hperiod : 0 < period)
    (h₀ h : Schedule) (hinit : (scheduleMachine id start amount).init h₀)
    (hterms : h₀.chain.state.bonusPeriodBlock = period)
    (hbps : h₀.chain.state.lockUpInterestBps = bps)
    (hrun : ((scheduleMachine id start amount).startAt h₀).ReachableBy
      (fun _ tx => KeepsTerms period bps tx) h) :
    h.periods = (h.settledAt - start) / period ∧
    (∀ last, h.chain.block ≤ last →
      (h.payments.map Payment.paid).sum ≤ wholeReward period bps amount start last) ∧
    ((∀ p ∈ h.payments, p.paid = p.due) → wholeReward period bps amount start h.settledAt ≤
      (h.payments.map Payment.paid).sum + h.payments.length) ∧
    ∀ tx h', (scheduleMachine id start amount).step h tx = .ok h' → tx.blockNumber < wordSize →
      h'.payments = h.payments ∨ PaysOut id tx h.chain.state h'.chain.state ∧
        h'.payments.map Payment.paid =
          paidFor id h.chain.state tx :: h.payments.map Payment.paid := by
  have hinductive : ((scheduleMachine id start amount).startAt h₀).Inductive
      (fun _ tx => KeepsTerms period bps tx) (Scheduled id start amount period bps) := by
    refine ⟨fun h heq => ?_, fun h tx h' hs hkeeps hstep =>
      scheduled_step hs hperiod hkeeps hstep⟩
    rw [show h = h₀ from heq]
    exact scheduled_init hperiod hinit hterms hbps
  have hs := hinductive.invariant hrun
  have hle := hs.settled_le
  have hlt := hs.settled_lt
  -- the settled block is the last whole period's end
  have hwhole : h.periods = (h.settledAt - start) / period := by
    refine ((Nat.div_eq_iff hperiod).mpr ⟨?_, ?_⟩).symm <;> omega
  -- each payment is at most its due, and the dues are floors
  have hpaid : (h.payments.map Payment.paid).sum ≤ (h.payments.map Payment.due).sum :=
    List.sum_le_sum fun p hp => hs.paid_le p hp
  refine ⟨hwhole, fun last hlast => hpaid.trans ?_, fun hfull => ?_, fun tx h' hstep hword =>
    record_paysOut hs.listed hs.owner hword hstep⟩
  · have hperiods : h.periods ≤ (last - start) / period := by
      rw [hwhole]
      refine Nat.div_le_div_right ?_
      have := hs.settledAt_le
      omega
    refine (Nat.le_div_iff_mul_le (by norm_num)).mpr (hs.floors.le.trans ?_)
    exact Nat.mul_le_mul_right _ (Nat.mul_le_mul_right _ hperiods)
  · rw [List.map_congr_left hfull]
    unfold wholeReward
    rw [← hwhole]
    refine Nat.div_le_of_le_mul ?_
    have hge := hs.floors.ge
    omega

/-- 100 hodled at a tenth for each 10 blocks from block 2 on, harvested in block 13 and withdrawn
in block 34. -/
def twoSettlements : List Tx :=
  [⟨1, 13, { harvest := some [.mint 302 10, .pay 300 10] }, .harvest 1⟩,
   ⟨1, 34, { harvest := some [.mint 302 20, .pay 300 20], withdraw := none }, .withdraw 1⟩]

theorem rewards_of_two_settlements : ∃ h : Schedule, h.settledAt = 34 ∧
    h.payments.map Payment.paid = [20, 10] ∧
    wholeReward 10 1000 100 2 34 ≤ (h.payments.map Payment.paid).sum + h.payments.length := by
  have hrun : machine.lastStep freshChain
      [⟨50, 1, {}, .setStronkInfo 303 1 10⟩, ⟨50, 1, {}, .setConfigs 5 true 1000⟩,
       ⟨1, 1, {}, .huskyApprove 300 100⟩] ⟨1, 2, {}, .hodl 100⟩
      (fun c₀ c => c₀.state.nextPositionId = 1 ∧ c.state.bonusPeriodBlock = 10 ∧
        c.state.lockUpInterestBps = 1000 ∧
        (((scheduleMachine 1 2 100).startAt { chain := c, settledAt := 2 }).run
          { chain := c, settledAt := 2 } twoSettlements).toOption.map (fun h =>
            (h.settledAt, h.payments.map Payment.paid, h.payments.map Payment.due)) =
          some (34, [20, 10], [20, 10])) = true := by
    decide +kernel
  obtain ⟨c₀, c, hreach, hstep, htest⟩ :=
    TSys.lastStep_reachable (M := machine) freshChain_init hrun
  obtain ⟨hnext, hperiod, hbps, hschedule⟩ := of_decide_eq_true htest
  obtain ⟨h, hrecord, hresult⟩ := Option.map_eq_some_iff.mp hschedule
  obtain ⟨hsettled, hresult⟩ := Prod.mk.inj hresult
  obtain ⟨hpaid, hdue⟩ := Prod.mk.inj hresult
  -- both payments were paid in full
  have hfull := List.map_inj_left.mp (hpaid.trans hdue.symm)
  have hkeeps : ∀ τ : Schedule, ∀ tx ∈ twoSettlements, KeepsTerms 10 1000 tx := by
    intro _ tx htx
    simp only [twoSettlements, List.mem_cons, List.not_mem_nil, or_false] at htx
    rcases htx with rfl | rfl
    · exact ⟨by norm_num [wordSize], trivial⟩
    · exact ⟨by norm_num [wordSize], trivial⟩
  have hreached := TSys.run_reachableBy
    (M := (scheduleMachine 1 2 100).startAt { chain := c, settledAt := 2 })
    (.init rfl) hkeeps (toOption_eq_some.mp hrecord)
  have hrewards := (rewards_of_schedule 1 2 100 10 1000 (by norm_num)
    { chain := c, settledAt := 2 } h ⟨c₀, 1, {}, hreach, hnext, hstep, rfl, rfl⟩ hperiod hbps
    hreached).2.2.1 hfull
  rw [hsettled] at hrewards
  exact ⟨h, hsettled, hpaid, hrewards⟩

end Huski.Stronk
