import Huski.Lib.Custodian
import Huski.Stronk.Model

/-!
# What moves no principal

Rewards are paid from the balance of `StronkHusky`; FairLaunch pays and locks HUSKY there; the
principal lies at the relayer, which approves nobody and pays its owner only. So no call except
`withdraw` takes HUSKY from the relayer, and no call except `hodl` and `withdraw` touches the
amounts of the positions or the supply of the receipts.
-/

open Solidity

namespace Huski.Stronk

/-! ## The HUSKY ledger -/

/-- A standard ledger on which the relayer has approved nobody. -/
structure Sound (relayer : Address) (t : ERC20) : Prop where
  backed : t.Backed
  supply_lt : t.totalSupply < wordSize
  unapproved : ∀ spender, t.allowance relayer spender = 0

/-- The ledger stays sound and takes nothing from the relayer. -/
def KeepsRelayer (relayer : Address) (t t' : ERC20) : Prop :=
  Sound relayer t' ∧ t.balanceOf relayer ≤ t'.balanceOf relayer

section Ledger

variable {relayer sender src dst account : Address} {amount : Nat} {t t' t₁ : ERC20}

/-- It is what the library asks of a keeper. -/
theorem sound_iff : Sound relayer t ↔ ERC20.Sound relayer t :=
  ⟨fun h => ⟨h.backed, h.supply_lt, h.unapproved⟩, fun h => ⟨h.backed, h.supply_lt, h.unapproved⟩⟩

/-- The relayer is an account that approves nobody. -/
theorem keepsRelayer_iff : KeepsRelayer relayer t t' ↔ ERC20.Keeps relayer t t' :=
  and_congr_left fun _ => sound_iff

theorem KeepsRelayer.refl (h : Sound relayer t) : KeepsRelayer relayer t t := ⟨h, le_rfl⟩

theorem KeepsRelayer.trans (h : KeepsRelayer relayer t t₁)
    (h' : Sound relayer t₁ → KeepsRelayer relayer t₁ t') : KeepsRelayer relayer t t' := by
  obtain ⟨hsound, hheld⟩ := h
  obtain ⟨hsound', hheld'⟩ := h' hsound
  exact ⟨hsound', hheld.trans hheld'⟩

theorem keepsRelayer_transfer (h : Sound relayer t) (hsrc : relayer ≠ src)
    (hmoves : t._transfer src dst amount = .ok t') : KeepsRelayer relayer t t' :=
  keepsRelayer_iff.mpr ((sound_iff.mp h).keeps_transfer hsrc hmoves)

theorem keepsRelayer_mint (h : Sound relayer t) (hmints : t._mint account amount = .ok t') :
    KeepsRelayer relayer t t' :=
  keepsRelayer_iff.mpr ((sound_iff.mp h).keeps_mint hmints)

theorem keepsRelayer_transferFrom (h : Sound relayer t)
    (hmoves : t.transferFrom sender src dst amount = .ok t') : KeepsRelayer relayer t t' :=
  keepsRelayer_iff.mpr ((sound_iff.mp h).keeps_transferFrom hmoves)

theorem keepsRelayer_approve (h : Sound relayer t) (hsrc : relayer ≠ src)
    (happroves : t._approve src dst amount = .ok t') : KeepsRelayer relayer t t' :=
  keepsRelayer_iff.mpr ((sound_iff.mp h).keeps_approve hsrc happroves)

theorem Sound.transfer (h : Sound relayer t) (hmoves : t._transfer src dst amount = .ok t') :
    Sound relayer t' :=
  sound_iff.mpr ((sound_iff.mp h).transfer hmoves)

/-- On a sound ledger a transfer of what is there goes through. -/
theorem Sound.transfer_isOk (h : Sound relayer t) (hsrc : src ≠ 0) (hdst : dst ≠ 0)
    (hamount : amount ≤ t.balanceOf src) : ∃ t', t._transfer src dst amount = .ok t' :=
  (sound_iff.mp h).transfer_isOk hsrc hdst hamount

end Ledger

/-! ## Steady calls -/

/-- The relayer belongs to `StronkHusky`, and the ledger is sound. -/
structure Custody (s : State) : Prop where
  relayer_ne_here : s.relayer ≠ s.here
  relayer_ne_fairLaunch : s.relayer ≠ s.fairLaunch
  here_ne : s.here ≠ 0
  relayer_ne : s.relayer ≠ 0
  relayerOwner : s.relayerOwner = s.here
  sound : Sound s.relayer s.husky

/-- A call, in block `n`, that opens and closes no position and takes nothing from the relayer. -/
structure Steady (n : Nat) (s s' : State) : Prop where
  here : s'.here = s.here
  relayer : s'.relayer = s.relayer
  relayerOwner : s'.relayerOwner = s.relayerOwner
  fairLaunch : s'.fairLaunch = s.fairLaunch
  nextPositionId : s'.nextPositionId = s.nextPositionId
  supply : s'.receipt.totalSupply = s.receipt.totalSupply
  owner : ∀ id, (s'.positions id).owner = (s.positions id).owner
  hodlAmount : ∀ id, (s'.positions id).hodlAmount = (s.positions id).hodlAmount
  last_le : ∀ id, (s'.positions id).lastRewardBlock ≤ max (s.positions id).lastRewardBlock n
  ledger : Custody s → KeepsRelayer s.relayer s.husky s'.husky

namespace Steady

variable {n : Nat} {s s₁ s' : State}

/-- A steady step keeps the principal in custody. -/
theorem custody (h : Steady n s s') (hs : Custody s) : Custody s' where
  relayer_ne_here := by
    rw [h.relayer, h.here]
    exact hs.relayer_ne_here
  relayer_ne_fairLaunch := by
    rw [h.relayer, h.fairLaunch]
    exact hs.relayer_ne_fairLaunch
  here_ne := by
    rw [h.here]
    exact hs.here_ne
  relayer_ne := by
    rw [h.relayer]
    exact hs.relayer_ne
  relayerOwner := by
    rw [h.relayerOwner, h.here]
    exact hs.relayerOwner
  sound := by
    rw [h.relayer]
    exact (h.ledger hs).1

theorem refl (n : Nat) (s : State) : Steady n s s :=
  ⟨rfl, rfl, rfl, rfl, rfl, rfl, fun _ => rfl, fun _ => rfl, fun _ => le_max_left _ _,
    fun hs => .refl hs.sound⟩

/-- Steady steps compose. -/
theorem trans (h : Steady n s s₁) (h' : Steady n s₁ s') : Steady n s s' where
  here := h'.here.trans h.here
  relayer := h'.relayer.trans h.relayer
  relayerOwner := h'.relayerOwner.trans h.relayerOwner
  fairLaunch := h'.fairLaunch.trans h.fairLaunch
  nextPositionId := h'.nextPositionId.trans h.nextPositionId
  supply := h'.supply.trans h.supply
  owner id := (h'.owner id).trans (h.owner id)
  hodlAmount id := (h'.hodlAmount id).trans (h.hodlAmount id)
  last_le id := (h'.last_le id).trans (max_le (h.last_le id) (le_max_right _ _))
  ledger hs := by
    have hfirst := h.ledger hs
    have hsecond := h'.ledger (h.custody hs)
    rw [h.relayer] at hsecond
    exact hfirst.trans fun _ => hsecond

/-- A call that writes the HUSKY ledger only. -/
theorem of_husky {t : ERC20} (h : Custody s → KeepsRelayer s.relayer s.husky t) :
    Steady n s { s with husky := t } :=
  ⟨rfl, rfl, rfl, rfl, rfl, rfl, fun _ => rfl, fun _ => rfl, fun _ => le_max_left _ _, h⟩

end Steady

section Calls

variable {n id multiplier amount : Nat} {sender src dst : Address} {o : Outside} {s s' : State}

/-- No move outside is the relayer's. -/
theorem applyMove_keepsRelayer {t : ERC20} (hhere : s.relayer ≠ s.here)
    (hfairLaunch : s.relayer ≠ s.fairLaunch) (h : Sound s.relayer t) (move : Move) :
    KeepsRelayer s.relayer t (s.applyMove t move) := by
  unfold State.applyMove
  dsimp only
  split
  · rename_i t' hmoved
    cases move with
    | mint account amount => exact keepsRelayer_mint h hmoved
    | pay recipient amount => exact keepsRelayer_transfer h hfairLaunch hmoved
    | lock amount => exact keepsRelayer_transfer h hhere hmoved
  · exact .refl h

theorem settle_steady (n : Nat) (s : State) (moves : List Move) : Steady n s (s.settle moves) := by
  refine Steady.of_husky fun hs => ?_
  have hrun : ∀ (moves : List Move) (t : ERC20), Sound s.relayer t →
      KeepsRelayer s.relayer t (moves.foldl s.applyMove t) := by
    intro moves
    induction moves with
    | nil => exact fun t ht => .refl ht
    | cons move rest ih =>
        intro t ht
        have hmove := applyMove_keepsRelayer hs.relayer_ne_here hs.relayer_ne_fairLaunch ht move
        exact hmove.trans fun ht' => ih _ ht'
  exact hrun moves s.husky hs.sound

/-- Whatever FairLaunch moves, it is not the relayer's. -/
theorem callFairLaunch_steady {moves : Option (List Move)} (h : s.callFairLaunch moves = .ok s') :
    Steady n s s' := by
  cases moves with
  | none => cases h
  | some moves =>
      cases h
      exact settle_steady n s moves

/-- Pays from `StronkHusky` take nothing from the relayer. -/
theorem safeTransfer_steady (h : s.safeTransfer s.here dst amount = .ok s') : Steady n s s' := by
  simp only [State.safeTransfer, bind_eq_ok, lowLevel_eq_ok, pure_eq_ok] at h
  obtain ⟨husky, hmoves, rfl⟩ := h
  exact Steady.of_husky fun hs => keepsRelayer_transfer hs.sound hs.relayer_ne_here hmoves

theorem safeHuskyTransfer_steady (h : s._safeHuskyTransfer dst amount = .ok s') :
    Steady n s s' := by
  unfold State._safeHuskyTransfer at h
  dsimp only at h
  split at h
  · exact safeTransfer_steady h
  · exact safeTransfer_steady h

theorem getMultiplier_eq_ok {last : Nat} (h : s.getMultiplier last n = .ok multiplier) :
    last ≤ n ∧ s.bonusPeriodBlock ≠ 0 ∧ multiplier = (n - last) / s.bonusPeriodBlock := by
  simp only [State.getMultiplier, bind_eq_ok, SafeMath.sub_eq_ok, SafeMath.div_eq_ok] at h
  obtain ⟨_, ⟨hle, rfl⟩, hperiod, rfl⟩ := h
  exact ⟨hle, hperiod, rfl⟩

/-- A position advances by whole periods, and not past the block. -/
theorem advance_steady (hmultiplier : s.getMultiplier (s.positions id).lastRewardBlock n =
    .ok multiplier) (h : s.advance id multiplier = .ok s') : Steady n s s' := by
  obtain ⟨hle, _, rfl⟩ := getMultiplier_eq_ok hmultiplier
  simp only [State.advance, bind_eq_ok, SafeMath.mul_eq_ok, pure_eq_ok] at h
  obtain ⟨_, ⟨_, rfl⟩, rfl⟩ := h
  have hblocks := Nat.div_mul_le_self (n - (s.positions id).lastRewardBlock) s.bonusPeriodBlock
  have hentry := TotalMap.forall_update (m := s.positions) (k := id)
    (v := { s.positions id with lastRewardBlock := ((s.positions id).lastRewardBlock +
      (n - (s.positions id).lastRewardBlock) / s.bonusPeriodBlock * s.bonusPeriodBlock) %
        wordSize })
    (P := fun i pos => pos.owner = (s.positions i).owner ∧
      pos.hodlAmount = (s.positions i).hodlAmount ∧
      pos.lastRewardBlock ≤ max (s.positions i).lastRewardBlock n)
    (fun i => ⟨rfl, rfl, le_max_left _ _⟩)
    ⟨rfl, rfl, (Nat.mod_le _ _).trans (le_max_of_le_right (by omega))⟩
  exact ⟨rfl, rfl, rfl, rfl, rfl, rfl, fun i => (hentry i).1, fun i => (hentry i).2.1,
    fun i => (hentry i).2.2, fun hs => .refl hs.sound⟩

theorem harvestOne_steady {acc acc' : State × Nat} (h : State.harvestOne n acc id = .ok acc') :
    Steady n acc.1 acc'.1 := by
  simp only [State.harvestOne, bind_eq_ok, pure_eq_ok] at h
  obtain ⟨multiplier, hmultiplier, _, _, s', hadvance, rfl⟩ := h
  exact advance_steady hmultiplier hadvance

/-- A harvest of all positions touches no principal. -/
theorem harvestAll_steady (h : s.harvestAll sender n = .ok s') : Steady n s s' := by
  simp only [State.harvestAll, bind_eq_ok] at h
  obtain ⟨⟨s₁, pending⟩, hloop, _, _, hpays⟩ := h
  have hrounds : Steady n s s₁ :=
    foldlM_induct (P := fun acc : State × Nat => Steady n s acc.1)
      (fun _ _ _ hs hround => hs.trans (harvestOne_steady hround)) hloop (.refl n s)
  exact hrounds.trans (safeHuskyTransfer_steady hpays)

/-- A harvest touches no principal. -/
theorem harvest_steady (h : s.harvest sender n o id = .ok s') : Steady n s s' := by
  simp only [State.harvest, bind_eq_ok] at h
  obtain ⟨_, _, multiplier, hmultiplier, _, _, s₁, hfairLaunch, pending, _, _, _, s₂, hadvance,
    hpays⟩ := h
  have hfirst := callFairLaunch_steady (n := n) hfairLaunch
  have hsame : s₁.getMultiplier (s₁.positions id).lastRewardBlock n = .ok multiplier := by
    cases hmoves : o.harvest with
    | none =>
        rw [hmoves] at hfairLaunch
        cases hfairLaunch
    | some moves =>
        rw [hmoves] at hfairLaunch
        cases hfairLaunch
        exact hmultiplier
  exact (hfirst.trans (advance_steady hsame hadvance)).trans (safeHuskyTransfer_steady hpays)

/-- A payment touches no principal. -/
theorem payReward_steady {pos : Position} (h : s.payReward sender o pos multiplier = .ok s') :
    Steady n s s' := by
  unfold State.payReward at h
  split at h
  · simp only [bind_eq_ok] at h
    obtain ⟨s₁, hfairLaunch, pending, _, hpays⟩ := h
    exact (callFairLaunch_steady hfairLaunch).trans (safeHuskyTransfer_steady hpays)
  · cases h
    exact .refl n s

theorem fairLaunchDeposit_steady (h : s._fairLaunchDeposit o amount = .ok s') :
    Steady n s s' := by
  unfold State._fairLaunchDeposit at h
  split at h
  · simp only [bind_eq_ok] at h
    obtain ⟨_, _, hfairLaunch⟩ := h
    exact callFairLaunch_steady hfairLaunch
  · cases h
    exact .refl n s

theorem fairLaunchWithdraw_steady (h : s._fairLaunchWithdraw o amount = .ok s') :
    Steady n s s' := by
  unfold State._fairLaunchWithdraw at h
  split at h
  · split at h
    · simp only [bind_eq_ok, pure_eq_ok] at h
      obtain ⟨_, _, rfl⟩ := h
      exact settle_steady n s _
    · cases h
      exact .refl n s
  · cases h
    exact .refl n s

end Calls

end Huski.Stronk
