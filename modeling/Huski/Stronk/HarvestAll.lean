import Huski.Stronk.Harvest
import Huski.Stronk.Release

/-!
# `harvestAll` and single harvests

`harvest` has FairLaunch pay its rewards out before it pays; `harvestAll` pays from what
`StronkHusky` already holds. So single harvests of all positions go through where `harvestAll`
reverts. Where the balance covers the rewards, the two and the view agree, except that
`harvestAll` also moves the last reward block of closed positions.
-/

open Solidity

namespace Huski.Stronk

/-- Calls of `harvest` one after another in a block, each with the answers of the outside. The sum
is of what the sender has in HUSKY over what FairLaunch moves itself. -/
def harvestEach (sender : Address) (blockNumber : Nat) :
    List (Nat × Outside) → State → Result (State × Nat)
  | [], s => .ok (s, 0)
  | (id, o) :: rest, s => do
      let before := s.settle (o.harvest.getD [])
      let s ← s.harvest sender blockNumber o id
      let paid := s.husky.balanceOf sender - before.husky.balanceOf sender
      let (s, rest) ← harvestEach sender blockNumber rest s
      return (s, paid + rest)

/-- `harvest` does not call it nothing. -/
def Harvestable (s : State) (n id : Nat) : Prop :=
  0 < (s.positions id).hodlAmount ∧ 0 < s.periods n id

variable {n id : Nat} {sender : Address} {o : Outside} {s s' : State} {paid : Nat}
  {calls : List (Nat × Outside)}

/-- A harvest pays the sender what the position is due. -/
theorem harvest_pays (hword : n < wordSize) (hhere : sender ≠ s.here)
    (h : s.harvest sender n o id = .ok s') :
    s'.husky.balanceOf sender =
      (s.settle (o.harvest.getD [])).husky.balanceOf sender + s.dueFor n id := by
  obtain ⟨_, _, _, _, moves, t, hmoves, _, htransfer, rfl⟩ := harvest_eq_ok hword h
  have hbalance := ERC20.balanceOf_transfer htransfer sender
  rw [if_neg hhere, if_pos rfl] at hbalance
  rw [hmoves]
  exact hbalance

/-- What single harvests did: they settled their positions and paid what these were due, and the
sender has it. -/
structure HarvestedEach (sender : Address) (n : Nat) (ids : List Nat) (paid : Nat)
    (s s' : State) : Prop where
  positions : s'.positions = s.settledAll n ids
  payable : ∀ id ∈ ids, s.Payable n id ∧ (s.positions id).owner = sender ∧ Harvestable s n id
  total : paid = (ids.map (s.dueFor n)).sum
  received : s.husky.balanceOf sender + paid ≤ s'.husky.balanceOf sender
  custody : Custody s → Custody s'

theorem harvestEach_eq_ok (hword : n < wordSize) (hhere : sender ≠ s.here)
    (hfair : sender ≠ s.fairLaunch) (hnodup : (calls.map Prod.fst).Nodup)
    (h : harvestEach sender n calls s = .ok (s', paid)) :
    HarvestedEach sender n (calls.map Prod.fst) paid s s' := by
  induction calls generalizing s paid with
  | nil =>
      obtain ⟨rfl, rfl⟩ := Prod.mk.inj (Except.ok.inj h)
      exact ⟨rfl, fun id hid => absurd hid List.not_mem_nil, rfl, le_rfl, id⟩
  | cons call rest ih =>
      rcases call with ⟨id, o⟩
      obtain ⟨hid, hrest⟩ := List.nodup_cons.mp hnodup
      simp only [harvestEach, bind_eq_ok, pure_eq_ok] at h
      obtain ⟨s₁, hfirst, ⟨s₂, others⟩, hothers, hlast⟩ := h
      obtain ⟨rfl, rfl⟩ := Prod.mk.inj hlast
      have hpays := harvest_pays hword hhere hfirst
      have hsteady := harvest_steady hfirst
      -- what FairLaunch pays out in the harvest goes to the contract and not to the sender
      have hcredits := (settle_credits s (o.harvest.getD [])).2.2 sender hhere hfair
      obtain ⟨hpayable, howner, hopen, hpos, moves, t, hmoves, _, _, rfl⟩ :=
        harvest_eq_ok hword hfirst
      have hother : ∀ i ∈ rest.map Prod.fst, i ≠ id := fun i hi heq => hid (heq ▸ hi)
      have hrun := ih (s := { s.setPosition id (s.settled n id) with husky := t }) hhere hfair
        hrest hothers
      refine ⟨?_, fun i hi => ?_, ?_, ?_, fun hs => hrun.custody (hsteady.custody hs)⟩
      · rw [hrun.positions]
        exact settledAll_cons hid
      · rcases List.mem_cons.mp hi with rfl | hi
        · exact ⟨hpayable, howner, hopen, hpos⟩
        -- the first harvest left the later positions as they were
        · obtain ⟨hpayable', howner', hopen', hpos'⟩ := hrun.payable i hi
          have hne := hother i hi
          have hsame := positions_setPosition_of_ne (s := s) hne (s.settled n id)
          have hperiods := periods_setPosition (n := n) (s := s) hne (s.settled n id)
          refine ⟨(payable_setPosition hne _).mp ⟨hpayable'.last_le, hpayable'.period,
            hpayable'.product, hpayable'.reward⟩, ?_, ?_, ?_⟩
          · exact hsame ▸ howner'
          · exact hsame ▸ hopen'
          · exact hperiods ▸ hpos'
      · have hsum : ((rest.map Prod.fst).map
            ((s.setPosition id (s.settled n id)).dueFor n)).sum =
            ((rest.map Prod.fst).map (s.dueFor n)).sum := by
          rw [List.map_congr_left fun i hi => dueFor_setPosition (hother i hi) _]
        have htotal := hrun.total
        rw [hpays, Nat.add_sub_cancel_left, List.map_cons, List.map_cons, List.sum_cons, ← hsum]
        exact congrArg (s.dueFor n id + ·) htotal
      · have hreceived := hrun.received
        rw [hpays, Nat.add_sub_cancel_left]
        rw [hpays] at hreceived
        omega

/-! ## All at once -/

/-- What `StronkHusky` holds covers the rewards, and no whole period has passed over a closed
position of the owner. -/
structure Covered (n : Nat) (sender : Address) (s : State) : Prop where
  rewards : s.due n sender ≤ s.husky.balanceOf s.here
  closed : ∀ id, (s.positions id).owner = sender → (s.positions id).hodlAmount = 0 →
    s.periods n id = 0

/-- What `harvestAll` has in common with single harvests that paid `paid` and ended in `s'`. -/
structure SameHarvest (n : Nat) (sender : Address) (paid : Nat) (s s' s'' : State) : Prop where
  received : s''.husky.balanceOf sender = s.husky.balanceOf sender + paid
  pending : s.pendingHusky n sender = .ok paid
  last : ∀ id, (s''.positions id).lastRewardBlock = (s'.positions id).lastRewardBlock

theorem dueFor_eq_zero (h : ¬Harvestable s n id) : s.dueFor n id = 0 := by
  unfold State.dueFor
  rcases Nat.eq_zero_or_pos (s.positions id).hodlAmount with hclosed | hopen
  · rw [hclosed, Nat.mul_zero, Nat.zero_mul, Nat.zero_div]
  · have hnone : s.periods n id = 0 := Nat.eq_zero_of_not_pos fun hpos => h ⟨hopen, hpos⟩
    rw [hnone, Nat.zero_mul, Nat.zero_mul, Nat.zero_div]

theorem payable_of_not_harvestable (hle : (s.positions id).lastRewardBlock ≤ n)
    (hperiod : s.bonusPeriodBlock ≠ 0) (h : ¬Harvestable s n id) : s.Payable n id := by
  have hnone : s.periods n id * (s.positions id).hodlAmount = 0 := by
    rcases Nat.eq_zero_or_pos (s.positions id).hodlAmount with hclosed | hopen
    · rw [hclosed, Nat.mul_zero]
    · rw [Nat.eq_zero_of_not_pos fun hpos => h ⟨hopen, hpos⟩, Nat.zero_mul]
  refine ⟨hle, hperiod, ?_, ?_⟩
  · rw [hnone]
    exact Nat.two_pow_pos 256
  · rw [hnone, Nat.zero_mul]
    exact Nat.two_pow_pos 256

/-- The sum over a list is the sum over those that count. -/
theorem sum_of_counting {ids counting : List Nat} {f : Nat → Nat} (hids : ids.Nodup)
    (hcounting : counting.Nodup) (hsub : ∀ i ∈ counting, i ∈ ids)
    (hrest : ∀ i ∈ ids, i ∉ counting → f i = 0) : (ids.map f).sum = (counting.map f).sum := by
  rw [← List.sum_toFinset f hids, ← List.sum_toFinset f hcounting]
  refine (Finset.sum_subset (fun i hi => ?_) fun i hi hnot => ?_).symm
  · exact List.mem_toFinset.mpr (hsub i (List.mem_toFinset.mp hi))
  · exact hrest i (List.mem_toFinset.mp hi) fun hmem => hnot (List.mem_toFinset.mpr hmem)

/-- In every reachable state with a bonus period, for the owner of any positions: if single
harvests of all positions that have something to harvest go through, in any order and with any
answers of the outside, then `harvestAll` in the same block goes through, pays the same as they
do and as `pendingHusky` reports, and leaves the same last reward blocks, exactly when what
`StronkHusky` holds before covers the rewards and no period has passed over a closed position. -/
theorem harvestAll_iff (c : Chain) (hreach : machine.Reachable c) (sender : Address)
    (hsender : Outsider c.state sender ∧ sender ≠ 0) (n : Nat) (hblock : c.block ≤ n)
    (hword : n < wordSize) (hperiod : 0 < c.state.bonusPeriodBlock) (calls : List (Nat × Outside))
    (hnodup : (calls.map Prod.fst).Nodup)
    (hall : ∀ id, id ∈ calls.map Prod.fst ↔
      (c.state.positions id).owner = sender ∧ Harvestable c.state n id)
    (s' : State) (paid : Nat) (hruns : harvestEach sender n calls c.state = .ok (s', paid)) :
    (∃ c'', machine.step c ⟨sender, n, {}, .harvestAll⟩ = .ok c'' ∧
      SameHarvest n sender paid c.state s' c''.state) ↔ Covered n sender c.state := by
  obtain ⟨houtsider, hzero⟩ := hsender
  have hkept := (kept_inductive.invariant hreach).mono hblock
  have hlisted := listed_inductive.invariant hreach
  have hs := hkept.toCustody
  rcases c with ⟨block, s⟩
  dsimp only at *
  have hrun := harvestEach_eq_ok hword houtsider.1 houtsider.2.2 hnodup hruns
  have hids : (s.holderPositions sender).Nodup := hlisted.nodup sender
  have hmem : ∀ id ∈ s.holderPositions sender, id ∉ calls.map Prod.fst → ¬Harvestable s n id :=
    fun id hid hnot hharvestable =>
      hnot ((hall id).mpr ⟨(hlisted.mem_iff sender hzero id).mp hid, hharvestable⟩)
  have hdue : s.due n sender = paid := by
    rw [hrun.total]
    refine sum_of_counting hids hnodup (fun id hid => ?_) fun id hid hnot => ?_
    · exact (hlisted.mem_iff sender hzero id).mpr ((hall id).mp hid).1
    · exact dueFor_eq_zero (hmem id hid hnot)
  have hfits : paid < wordSize := by
    have hsound := (hrun.custody hs).sound
    have hheld := hsound.backed.balanceOf_le sender
    have hsupply := hsound.supply_lt
    have hreceived := hrun.received
    omega
  have hpayable : ∀ id ∈ s.holderPositions sender, s.Payable n id := by
    intro id hid
    by_cases hcall : id ∈ calls.map Prod.fst
    · exact (hrun.payable id hcall).1
    · exact payable_of_not_harvestable (hkept.last_le id) hperiod.ne' (hmem id hid hcall)
  have hdue' : s.due n sender % wordSize = paid := by rw [hdue, Nat.mod_eq_of_lt hfits]
  constructor
  · rintro ⟨c'', hstep, hsame⟩
    obtain ⟨_, _, _, hexec⟩ := mine_eq_ok hstep
    obtain ⟨_, hcovered, t, _, hstate⟩ := (harvestAll_iff_of_nodup hword hids).mp hexec
    refine ⟨by rwa [hdue', ← hdue] at hcovered, fun id howner hclosed => ?_⟩
    -- no single harvest moved its last reward block
    have hnot : id ∉ calls.map Prod.fst := fun hcall =>
      absurd (hrun.payable id hcall).2.2.1 (by omega)
    have hlist := (hlisted.mem_iff sender hzero id).mpr howner
    have hlast : (s.settledAll n (s.holderPositions sender) id).lastRewardBlock =
        (s'.positions id).lastRewardBlock := by
      have hlast := hsame.last id
      rw [hstate] at hlast
      exact hlast
    rw [hrun.positions, settledAll_of_mem hlist, settledAll_of_notMem hnot] at hlast
    have hmoved : (s.positions id).lastRewardBlock + s.periods n id * s.bonusPeriodBlock =
        (s.positions id).lastRewardBlock := hlast
    rcases Nat.mul_eq_zero.mp (Nat.add_eq_left.mp hmoved) with hnone | hnone
    · exact hnone
    · omega
  · intro hcovered
    have hbalance : paid ≤ s.husky.balanceOf s.here := hdue ▸ hcovered.rewards
    obtain ⟨t, htransfer⟩ := hs.sound.transfer_isOk hs.here_ne hzero hbalance
    have hpays : s.harvestAll sender n =
        .ok { s with positions := s.settledAll n (s.holderPositions sender), husky := t } :=
      (harvestAll_iff_of_nodup hword hids).mpr
        ⟨hpayable, hdue'.symm ▸ hbalance, t, hdue'.symm ▸ htransfer, rfl⟩
    refine ⟨{ block := n, state := { s with
      positions := s.settledAll n (s.holderPositions sender), husky := t } }, ?_, ?_, ?_,
      fun id => ?_⟩
    · show mine ⟨block, s⟩ ⟨sender, n, {}, .harvestAll⟩ = _
      simp only [mine, bind_eq_ok, require_eq_ok, pure_eq_ok]
      exact ⟨(), hblock, (), houtsider, _, hpays, rfl⟩
    · have hreceived := ERC20.balanceOf_transfer htransfer sender
      rw [if_neg houtsider.1, if_pos rfl] at hreceived
      exact hreceived
    · unfold State.pendingHusky
      rw [pendingLoop_isOk (Nat.two_pow_pos 256) hpayable, Nat.zero_add]
      exact congrArg Except.ok hdue'
    · rw [hrun.positions]
      show (s.settledAll n (s.holderPositions sender) id).lastRewardBlock = _
      by_cases hcall : id ∈ calls.map Prod.fst
      · have hlist := (hlisted.mem_iff sender hzero id).mpr ((hall id).mp hcall).1
        rw [settledAll_of_mem hcall, settledAll_of_mem hlist]
      · rw [settledAll_of_notMem hcall]
        by_cases hlist : id ∈ s.holderPositions sender
        · have hnone : s.periods n id = 0 := by
            rcases Nat.eq_zero_or_pos (s.positions id).hodlAmount with hclosed | hopen
            · exact hcovered.closed id ((hlisted.mem_iff sender hzero id).mp hlist) hclosed
            · exact Nat.eq_zero_of_not_pos fun hpos => hmem id hlist hcall ⟨hopen, hpos⟩
          rw [settledAll_of_mem hlist]
          unfold State.settled
          rw [hnone, Nat.zero_mul, Nat.add_zero]
        · rw [settledAll_of_notMem hlist]

/-- Account 1 hodls 100 at a tenth for 10 blocks, and `StronkHusky` holds nothing else. A harvest
has FairLaunch pay 10 first; `harvestAll` does not. -/
theorem harvestAll_reverts : ∃ c s', machine.Reachable c ∧ 0 < c.state.bonusPeriodBlock ∧
    (∀ id, id ∈ [1] ↔ (c.state.positions id).owner = 1 ∧ Harvestable c.state 12 id) ∧
    harvestEach 1 12 [(1, { harvest := some [.mint 302 10, .pay 300 10] })] c.state =
      .ok (s', 10) ∧
    ¬ ∃ c'', machine.step c ⟨1, 12, {}, .harvestAll⟩ = .ok c'' ∧
      SameHarvest 12 1 10 c.state s' c''.state := by
  -- ten are due: `harvest` first collects them from FairLaunch, `harvestAll` does not
  have hrun : machine.lastStep freshChain
      [⟨50, 1, {}, .setStronkInfo 303 1 10⟩, ⟨50, 1, {}, .setConfigs 5 true 1000⟩,
       ⟨1, 1, {}, .huskyApprove 300 100⟩] ⟨1, 2, {}, .hodl 100⟩
      (fun _ c => c.state.bonusPeriodBlock = 10 ∧ c.state.holderPositions 1 = [1] ∧
        (c.state.positions 1).hodlAmount = 100 ∧ (c.state.positions 1).lastRewardBlock = 2 ∧
        (harvestEach 1 12 [(1, { harvest := some [.mint 302 10, .pay 300 10] })]
          c.state).toOption.map Prod.snd = some 10 ∧
        (machine.step c ⟨1, 12, {}, .harvestAll⟩).toOption.isNone = true) = true := by
    decide +kernel
  obtain ⟨c₁, c, hreach, hstep, htest⟩ :=
    TSys.lastStep_reachable (M := machine) freshChain_init hrun
  obtain ⟨hperiod, hlist, hamount, hlast, hpaid, hreverts⟩ := of_decide_eq_true htest
  have hreach : machine.Reachable c := .step hreach trivial hstep
  obtain ⟨⟨s', paid⟩, hruns, hsum⟩ := Option.map_eq_some_iff.mp hpaid
  obtain rfl : paid = 10 := hsum
  refine ⟨c, s', hreach, by omega, fun id => ?_, toOption_eq_some.mp hruns, ?_⟩
  · rw [← (listed_inductive.invariant hreach).mem_iff 1 (by decide) id, hlist]
    refine ⟨fun hid => ⟨hid, ?_⟩, fun h => h.1⟩
    rw [List.mem_singleton.mp hid]
    refine ⟨by omega, ?_⟩
    unfold State.periods
    rw [hlast, hperiod]
    decide
  · rintro ⟨c'', hok, _⟩
    rw [hok] at hreverts
    cases hreverts

/-- The same with 50 of the 100 given to `StronkHusky`: 5 are due and covered. -/
theorem harvestAll_of_covered : ∃ c s' c'', machine.Reachable c ∧
    harvestEach 1 12 [(1, {})] c.state = .ok (s', 5) ∧
    machine.step c ⟨1, 12, {}, .harvestAll⟩ = .ok c'' ∧
    SameHarvest 12 1 5 c.state s' c''.state := by
  have hrun : machine.lastStep freshChain
      [⟨50, 1, {}, .setStronkInfo 303 1 10⟩, ⟨50, 1, {}, .setConfigs 5 true 1000⟩,
       ⟨1, 1, {}, .huskyApprove 300 100⟩, ⟨1, 2, {}, .hodl 50⟩] ⟨1, 3, {}, .huskyTransfer 300 50⟩
      (fun _ c => c.block = 3 ∧ c.state.here = 300 ∧ c.state.relayer = 301 ∧
        c.state.fairLaunch = 302 ∧ c.state.bonusPeriodBlock = 10 ∧
        c.state.holderPositions 1 = [1] ∧ (c.state.positions 1).hodlAmount = 50 ∧
        (c.state.positions 1).lastRewardBlock = 2 ∧ c.state.lockUpInterestBps = 1000 ∧
        c.state.husky.balanceOf 300 = 50 ∧
        (harvestEach 1 12 [(1, {})] c.state).toOption.map Prod.snd = some 5) = true := by
    decide +kernel
  obtain ⟨c₁, c, hreach, hstep, htest⟩ :=
    TSys.lastStep_reachable (M := machine) freshChain_init hrun
  obtain ⟨hblock, hhere, hrelayer, hfair, hperiod, hlist, hamount, hlast, hbps, hbalance, hpaid⟩ :=
    of_decide_eq_true htest
  have hreach : machine.Reachable c := .step hreach trivial hstep
  have hmem := (listed_inductive.invariant hreach).mem_iff 1 (by decide)
  have hperiods : c.state.periods 12 1 = 1 := by
    unfold State.periods
    rw [hlast, hperiod]
  obtain ⟨⟨s', paid⟩, hruns, hsum⟩ := Option.map_eq_some_iff.mp hpaid
  obtain rfl : paid = 5 := hsum
  have hruns := toOption_eq_some.mp hruns
  -- the sender sent the contract more than it owes
  have hcovered : Covered 12 1 c.state := by
    refine ⟨?_, fun id howner hclosed => ?_⟩
    · unfold State.due
      rw [hlist, hhere, hbalance, List.map_singleton, List.sum_singleton]
      unfold State.dueFor
      rw [hperiods, hamount, hbps]
      decide
    · have hid := (hmem id).mpr howner
      rw [hlist] at hid
      rw [List.mem_singleton.mp hid] at hclosed
      omega
  have houtsider : Outsider c.state 1 := by
    unfold Outsider
    rw [hhere, hrelayer, hfair]
    decide
  obtain ⟨c'', hok, hsame⟩ := (harvestAll_iff c hreach 1 ⟨houtsider, by decide⟩ 12 (by omega)
    (by norm_num [wordSize]) (by omega) [(1, {})] (List.nodup_singleton _) (fun id => by
      rw [← hmem id, hlist]
      refine ⟨fun hid => ⟨hid, ?_⟩, fun h => h.1⟩
      rw [show id = 1 from List.mem_singleton.mp hid]
      exact ⟨by omega, by omega⟩) s' 5 hruns).mpr hcovered
  exact ⟨c, s', c'', hreach, hruns, hok, hsame⟩

end Huski.Stronk
