import Huski.Token.Votes
import Huski.Lib.Snapshots

/-!
# Prior votes

`getPriorVotes` searches the checkpoints of an account for the last one at or before a block.
They are written in the order of the blocks, at most one a block, so that what the search finds
is what `getCurrentVotes` was when the block ended.
-/

open Solidity Snapshots

namespace HuskyToken

section Source

-- the subtraction of two `uint32`, which wraps in the source
variable (minus : UInt32 → UInt32 → Result UInt32)

/-- The loop of `getPriorVotes`, of at most so many turns. -/
def searchCheckpoints (checkpoints : UInt32 → Checkpoint) (blockNumber : Nat) :
    Nat → UInt32 → UInt32 → Result Nat
  | 0, _, _ => .error "out of gas"
  | turns + 1, lower, upper =>
      if upper > lower then do
        let width ← minus upper lower
        -- ceil, avoiding overflow
        let center ← minus upper (width / 2)
        let cp := checkpoints center
        if cp.fromBlock = blockNumber then
          return cp.votes
        else if cp.fromBlock < blockNumber then
          searchCheckpoints checkpoints blockNumber turns center upper
        else do
          let upper ← minus center 1
          searchCheckpoints checkpoints blockNumber turns lower upper
      else
        return (checkpoints lower).votes

/-- `current` is `block.number`. -/
def getPriorVotes (turns current : Nat) (account : Address) (blockNumber : Nat)
    (t : HuskyToken) : Result Nat := do
  require (blockNumber < current) "HUSKY::getPriorVotes: not yet determined"
  let nCheckpoints := t.numCheckpoints account
  if nCheckpoints = 0 then
    return 0
  else do
    let last ← minus nCheckpoints 1
    if (t.checkpoints account last).fromBlock ≤ blockNumber then
      return (t.checkpoints account last).votes
    else if (t.checkpoints account 0).fromBlock > blockNumber then
      return 0
    else do
      let upper ← minus nCheckpoints 1
      searchCheckpoints minus (t.checkpoints account) blockNumber turns 0 upper

end Source

/-- The subtraction of the source. -/
def wrapping (a b : UInt32) : Result UInt32 := .ok (a - b)

/-- The same, which reports an underflow. -/
def checked (a b : UInt32) : Result UInt32 := if b ≤ a then .ok (a - b) else .error "underflow"

/-- Right as long as it does not underflow. -/
def Exact (minus : UInt32 → UInt32 → Result UInt32) : Prop :=
  ∀ a b, b ≤ a → minus a b = .ok (a - b)

/-- The arithmetic that wraps does so nowhere in the search. -/
theorem wrapping_exact : Exact wrapping := fun _ _ _ => rfl

/-- The arithmetic that reverts does so nowhere in the search. -/
theorem checked_exact : Exact checked := fun _ _ hle => if_pos hle

/-! ## Checkpoints as snapshots -/

variable {minus : UInt32 → UInt32 → Result UInt32} {n n' m : Nat} {t t₁ t' : HuskyToken}
  {d : Address} {lower upper : UInt32} {turns : Nat}

/-- The block of a checkpoint, by its number. -/
def stamp (checkpoints : UInt32 → Checkpoint) (i : Nat) : Nat :=
  (checkpoints (UInt32.ofNat i)).fromBlock

/-- The votes of a checkpoint, by its number. -/
def votesFrom (checkpoints : UInt32 → Checkpoint) (i : Nat) : Nat :=
  (checkpoints (UInt32.ofNat i)).votes

/-- The votes of a delegatee as of block `n`. -/
def votesAsOf (t : HuskyToken) (d : Address) (n : Nat) : Nat :=
  asOf (stamp (t.checkpoints d)) (votesFrom (t.checkpoints d)) 0 n (t.numCheckpoints d).toNat

@[simp] theorem stamp_toNat (checkpoints : UInt32 → Checkpoint) (i : UInt32) :
    stamp checkpoints i.toNat = (checkpoints i).fromBlock := by
  unfold stamp
  rw [UInt32.ofNat_toNat]

@[simp] theorem votesFrom_toNat (checkpoints : UInt32 → Checkpoint) (i : UInt32) :
    votesFrom checkpoints i.toNat = (checkpoints i).votes := by
  unfold votesFrom
  rw [UInt32.ofNat_toNat]

/-! ## The search -/

theorem toNat_center (h : lower < upper) :
    (upper - (upper - lower) / 2).toNat = upper.toNat - (upper.toNat - lower.toNat) / 2 := by
  have hlt := UInt32.lt_iff_toNat_lt.mp h
  have hwidth : (upper - lower).toNat = upper.toNat - lower.toNat :=
    UInt32.toNat_sub_of_le _ _ (UInt32.le_iff_toNat_le.mpr hlt.le)
  have hhalf : ((upper - lower) / 2).toNat = (upper.toNat - lower.toNat) / 2 := by
    rw [UInt32.toNat_div, hwidth]
    rfl
  rw [UInt32.toNat_sub_of_le _ _ (UInt32.le_iff_toNat_le.mpr (by omega)), hhalf]

/-- Nor is more subtracted than there is. -/
theorem half_le (h : lower < upper) : (upper - lower) / 2 ≤ upper := by
  have hlt := UInt32.lt_iff_toNat_lt.mp h
  refine UInt32.le_iff_toNat_le.mpr ?_
  rw [UInt32.toNat_div, UInt32.toNat_sub_of_le _ _ (UInt32.le_iff_toNat_le.mpr hlt.le)]
  exact (Nat.div_le_self _ _).trans (Nat.sub_le _ _)

/-- What the loop keeps: the snapshot at `lower` is not after the block, those past `upper` are. -/
theorem searchCheckpoints_eq {checkpoints : UInt32 → Checkpoint} {count k : Nat}
    (hminus : Exact minus) (hstamped : Stamped (stamp checkpoints) count)
    (hupper : upper.toNat < count) (hle : lower ≤ upper)
    (hlower : (checkpoints lower).fromBlock ≤ n)
    (hafter : ∀ j, upper.toNat < j → j < count → n < stamp checkpoints j)
    (hwidth : upper.toNat - lower.toNat < 2 ^ k) :
    searchCheckpoints minus checkpoints n (k + 1) lower upper =
      .ok (asOf (stamp checkpoints) (votesFrom checkpoints) 0 n count) := by
  have found : ∀ i : UInt32, i.toNat < count → (checkpoints i).fromBlock ≤ n →
      (∀ j, i.toNat < j → j < count → n < stamp checkpoints j) →
      asOf (stamp checkpoints) (votesFrom checkpoints) 0 n count = (checkpoints i).votes := by
    intro i hi hbefore hrest
    rw [asOf_eq_value hi (by rwa [stamp_toNat]) hrest, votesFrom_toNat]
  induction k generalizing lower upper with
  | zero =>
      have hsame : upper = lower := by
        have hle := UInt32.le_iff_toNat_le.mp hle
        exact UInt32.toNat_inj.mp (by omega)
      unfold searchCheckpoints
      rw [if_neg (hsame ▸ UInt32.lt_irrefl upper), found lower (hsame ▸ hupper) hlower
        (hsame ▸ hafter)]
      rfl
  | succ k ih =>
      unfold searchCheckpoints
      by_cases hlt : lower < upper
      · have hcenter := toNat_center hlt
        have hlt' := UInt32.lt_iff_toNat_lt.mp hlt
        rw [if_pos hlt]
        refine bind_eq_ok.mpr ⟨_, hminus _ _ hle, bind_eq_ok.mpr ⟨_, hminus _ _ (half_le hlt), ?_⟩⟩
        generalize upper - (upper - lower) / 2 = center at *
        dsimp only
        split
        · rename_i hexact
          refine pure_eq_ok.mpr (found center (by omega) hexact.le fun j hj hjcount => ?_).symm
          -- the stamps after that of the block itself are after the block
          have hstep := hstamped.lt center.toNat j hj hjcount
          rwa [stamp_toNat, hexact] at hstep
        · split
          · rename_i hbefore
            exact ih hupper (UInt32.le_iff_toNat_le.mpr (by omega)) hbefore.le hafter (by omega)
          · rename_i hne hnot
            have hone : (1 : UInt32) ≤ center := UInt32.le_iff_toNat_le.mpr (by
              show 1 ≤ center.toNat
              omega)
            have hpred : (center - 1).toNat = center.toNat - 1 :=
              UInt32.toNat_sub_of_le _ _ hone
            have hcut : n < stamp checkpoints center.toNat := by
              rw [stamp_toNat]
              omega
            refine bind_eq_ok.mpr ⟨_, hminus _ _ hone, ?_⟩
            refine ih (by omega) (UInt32.le_iff_toNat_le.mpr (by omega)) hlower
              (fun j hj hjcount => ?_) (by omega)
            exact hstamped.after hcut (by omega) hjcount
      · have hsame : upper = lower := UInt32.le_antisymm (UInt32.not_lt.mp hlt) hle
        rw [if_neg hlt, found lower (hsame ▸ hupper) hlower (hsame ▸ hafter)]
        rfl

/-! ## The writer -/

/-- The written checkpoints are of increasing blocks, none after `n`, and the others are blank. -/
structure Filed (n : Nat) (t : HuskyToken) : Prop where
  stamped : ∀ d, Stamped (stamp (t.checkpoints d)) (t.numCheckpoints d).toNat
  latest : ∀ d i, i < (t.numCheckpoints d).toNat → stamp (t.checkpoints d) i ≤ n
  blank : ∀ d i, t.numCheckpoints d ≤ i → t.checkpoints d i = {}

theorem Filed.mono (h : Filed n t) (hle : n ≤ n') : Filed n' t where
  stamped := h.stamped
  latest d i hi := (h.latest d i hi).trans hle
  blank := h.blank

/-- Nothing was written about the blocks before `n`, and the checkpoints stay in order. -/
structure Files (n : Nat) (t t' : HuskyToken) : Prop where
  filed : Filed n t'
  before : ∀ d m, m < n → t'.votesAsOf d m = t.votesAsOf d m

theorem Files.trans (hfirst : Files n t t₁) (hrest : Filed n t₁ → Files n t₁ t') :
    Files n t t' where
  filed := (hrest hfirst.filed).filed
  before d m hm := ((hrest hfirst.filed).before d m hm).trans (hfirst.before d m hm)

theorem SameVotes.files (hsame : SameVotes t t') (h : Filed n t) : Files n t t' := by
  constructor
  · constructor
    · intro d
      rw [hsame.checkpoints, hsame.numCheckpoints]
      exact h.stamped d
    · intro d
      rw [hsame.checkpoints, hsame.numCheckpoints]
      exact h.latest d
    · intro d
      rw [hsame.checkpoints, hsame.numCheckpoints]
      exact h.blank d
  · intro d m _
    unfold votesAsOf
    rw [hsame.checkpoints, hsame.numCheckpoints]

/-- The checkpoints of one delegatee after a write, those of the others as they were. -/
theorem Files.of_one (h : Filed n t) (d : Address) (hother : ∀ x, x ≠ d →
      t'.checkpoints x = t.checkpoints x ∧ t'.numCheckpoints x = t.numCheckpoints x)
    (hstamped : Stamped (stamp (t'.checkpoints d)) (t'.numCheckpoints d).toNat)
    (hlatest : ∀ i, i < (t'.numCheckpoints d).toNat → stamp (t'.checkpoints d) i ≤ n)
    (hblank : ∀ i, t'.numCheckpoints d ≤ i → t'.checkpoints d i = {})
    (hbefore : ∀ m, m < n → t'.votesAsOf d m = t.votesAsOf d m) : Files n t t' := by
  constructor
  · constructor
    · intro x
      by_cases hx : x = d
      · exact hx ▸ hstamped
      · rw [(hother x hx).1, (hother x hx).2]
        exact h.stamped x
    · intro x
      by_cases hx : x = d
      · exact hx ▸ hlatest
      · rw [(hother x hx).1, (hother x hx).2]
        exact h.latest x
    · intro x
      by_cases hx : x = d
      · exact hx ▸ hblank
      · rw [(hother x hx).1, (hother x hx).2]
        exact h.blank x
  · intro x m hm
    by_cases hx : x = d
    · exact hx ▸ hbefore m hm
    · unfold votesAsOf
      rw [(hother x hx).1, (hother x hx).2]

theorem stamp_update {checkpoints : UInt32 → Checkpoint} {index : UInt32} {c : Checkpoint} {i : Nat}
    (hi : i ≠ index.toNat) (hword : i < 2 ^ 32) :
    stamp (Function.update checkpoints index c) i = stamp checkpoints i := by
  have hne : UInt32.ofNat i ≠ index := by
    intro heq
    exact hi (by rw [← heq, UInt32.toNat_ofNat_of_lt' hword])
  unfold stamp
  rw [Function.update_of_ne hne]

theorem votesFrom_update {checkpoints : UInt32 → Checkpoint} {index : UInt32} {c : Checkpoint}
    {i : Nat} (hi : i ≠ index.toNat) (hword : i < 2 ^ 32) :
    votesFrom (Function.update checkpoints index c) i = votesFrom checkpoints i := by
  have hne : UInt32.ofNat i ≠ index := by
    intro heq
    exact hi (by rw [← heq, UInt32.toNat_ofNat_of_lt' hword])
  unfold votesFrom
  rw [Function.update_of_ne hne]

/-- The last checkpoint is of this block: its votes are written anew. -/
theorem overwrite_files {votes : Nat} (h : Filed n t) (hpos : 0 < t.numCheckpoints d)
    (hlast : (t.checkpoints d (t.numCheckpoints d - 1)).fromBlock = n) :
    Files n t (t.setCheckpoint d (t.numCheckpoints d - 1)
      { t.checkpoints d (t.numCheckpoints d - 1) with votes }) := by
  have hone : (1 : UInt32) ≤ t.numCheckpoints d :=
    UInt32.le_iff_toNat_le.mpr (UInt32.lt_iff_toNat_lt.mp hpos)
  have hcount : (t.numCheckpoints d - 1).toNat + 1 = (t.numCheckpoints d).toNat := by
    rw [UInt32.toNat_sub_of_le _ _ hone]
    exact Nat.sub_add_cancel (UInt32.le_iff_toNat_le.mp hone)
  have hword := (t.numCheckpoints d).toNat_lt
  generalize hindex : t.numCheckpoints d - 1 = index at *
  generalize hc : ({ t.checkpoints d index with votes } : Checkpoint) = c
  have hblock : c.fromBlock = (t.checkpoints d index).fromBlock := by rw [← hc]
  have hcheckpoints : (t.setCheckpoint d index c).checkpoints d =
      Function.update (t.checkpoints d) index c := Function.update_self ..
  have hnum : (t.setCheckpoint d index c).numCheckpoints d = t.numCheckpoints d := rfl
  have hstamp : ∀ i, i < 2 ^ 32 →
      stamp ((t.setCheckpoint d index c).checkpoints d) i = stamp (t.checkpoints d) i := by
    intro i hi
    rw [hcheckpoints]
    by_cases heq : i = index.toNat
    · rw [heq, stamp_toNat, stamp_toNat, Function.update_self, hblock]
    · exact stamp_update heq hi
  refine Files.of_one h d (fun x hx => ⟨?_, rfl⟩) ?_ ?_ ?_ ?_
  · exact Function.update_of_ne hx ..
  · rw [hnum]
    exact (h.stamped d).congr fun i hi => hstamp i (hi.trans hword)
  · rw [hnum]
    intro i hi
    rw [hstamp i (hi.trans hword)]
    exact h.latest d i hi
  · rw [hnum, hcheckpoints]
    intro i hi
    have hne : i ≠ index := by
      intro heq
      have hle := UInt32.le_iff_toNat_le.mp hi
      rw [heq] at hle
      omega
    rw [Function.update_of_ne hne]
    exact h.blank d i hi
  · intro m hm
    unfold votesAsOf
    rw [hnum, ← hcount]
    -- before this block the last checkpoint does not count
    rw [asOf_before (by rw [hstamp _ (by omega), stamp_toNat, hlast]; exact hm),
      asOf_before (by rw [stamp_toNat, hlast]; exact hm)]
    refine asOf_congr (fun i hi => hstamp i (by omega)) fun i hi => ?_
    rw [hcheckpoints]
    exact votesFrom_update hi.ne (by omega)

/-- The last checkpoint is of an earlier block: another one is written after it. -/
theorem append_files {votes : Nat} (hn : 0 < n) (hword : n < 2 ^ 32) (h : Filed n t)
    (hlast : ∀ i, i < (t.numCheckpoints d).toNat → stamp (t.checkpoints d) i < n) :
    Files n t { t.setCheckpoint d (t.numCheckpoints d) { fromBlock := n, votes } with
      numCheckpoints := Function.update t.numCheckpoints d (t.numCheckpoints d + 1) } := by
  have hcount : (t.numCheckpoints d).toNat < n := by
    rcases Nat.eq_zero_or_pos (t.numCheckpoints d).toNat with hzero | hpos
    · omega
    -- the new checkpoint stands behind the old ones
    · have hstamp := (h.stamped d).lt_stamp (Nat.pred_lt_of_lt hpos)
      have hbefore := hlast _ (Nat.pred_lt_of_lt hpos)
      have hpred := Nat.succ_pred_eq_of_pos hpos
      omega
  -- the count does not wrap, as blocks grow from one checkpoint to the next
  have hsucc : (t.numCheckpoints d + 1).toNat = (t.numCheckpoints d).toNat + 1 := by
    have hone : (1 : UInt32).toNat = 1 := rfl
    rw [UInt32.toNat_add, hone]
    exact Nat.mod_eq_of_lt (by omega)
  generalize hindex : t.numCheckpoints d = index at *
  generalize ht' : ({ t.setCheckpoint d index { fromBlock := n, votes } with
    numCheckpoints := Function.update t.numCheckpoints d (index + 1) } : HuskyToken) = t'
  have hcheckpoints : t'.checkpoints d =
      Function.update (t.checkpoints d) index { fromBlock := n, votes } := by
    rw [← ht']
    exact Function.update_self ..
  have hnum : (t'.numCheckpoints d).toNat = index.toNat + 1 := by
    rw [← hsucc, ← ht']
    exact congrArg UInt32.toNat (Function.update_self ..)
  have hnew : stamp (t'.checkpoints d) index.toNat = n := by
    rw [hcheckpoints, stamp_toNat, Function.update_self]
  have hstamp : ∀ i, i < index.toNat →
      stamp (t'.checkpoints d) i = stamp (t.checkpoints d) i := by
    intro i hi
    rw [hcheckpoints]
    exact stamp_update hi.ne (by omega)
  have hold : Stamped (stamp (t.checkpoints d)) index.toNat := hindex ▸ h.stamped d
  refine Files.of_one h d (fun x hx => ?_) ?_ ?_ ?_ ?_
  · rw [← ht']
    exact ⟨Function.update_of_ne hx .., Function.update_of_ne hx ..⟩
  · rw [hnum]
    refine (hold.congr hstamp).succ (hnew ▸ hn) fun i hi => ?_
    rw [hnew, hstamp i hi]
    exact hlast i hi
  · rw [hnum]
    intro i hi
    rcases Nat.lt_succ_iff_lt_or_eq.mp hi with hlt | rfl
    · rw [hstamp i hlt]
      exact (hlast i hlt).le
    · exact hnew.le
  · intro i hi
    have hle := UInt32.le_iff_toNat_le.mp hi
    rw [hnum] at hle
    have hne : i ≠ index := by
      intro heq
      rw [heq] at hle
      omega
    rw [hcheckpoints, Function.update_of_ne hne]
    exact h.blank d i (hindex ▸ UInt32.le_iff_toNat_le.mpr (by omega))
  -- what an earlier block asks for ends before it
  · intro m hm
    unfold votesAsOf
    rw [hnum, asOf_before (hnew ▸ hm), hindex]
    refine asOf_congr hstamp fun i hi => ?_
    rw [hcheckpoints]
    exact votesFrom_update hi.ne (by omega)

theorem writeCheckpoint_files {votes : Nat} (hn : 0 < n) (h : Filed n t)
    (hwrite : _writeCheckpoint n d (t.numCheckpoints d) votes t = .ok t') : Files n t t' := by
  simp only [_writeCheckpoint, safe32, bind_eq_ok, require_eq_ok, pure_eq_ok] at hwrite
  obtain ⟨_, ⟨_, hword, rfl⟩, hwrite⟩ := hwrite
  split at hwrite
  · rename_i hlast
    obtain rfl := Except.ok.inj hwrite
    exact overwrite_files h hlast.1 hlast.2
  · rename_i hnew
    obtain rfl := Except.ok.inj hwrite
    refine append_files hn hword h fun i hi => ?_
    have hpos : 0 < t.numCheckpoints d := UInt32.lt_iff_toNat_lt.mpr (Nat.zero_lt_of_lt hi)
    have hone : (1 : UInt32) ≤ t.numCheckpoints d :=
      UInt32.le_iff_toNat_le.mpr (UInt32.lt_iff_toNat_lt.mp hpos)
    have hpred : (t.numCheckpoints d - 1).toNat = (t.numCheckpoints d).toNat - 1 :=
      UInt32.toNat_sub_of_le _ _ hone
    -- the last stamp is not `n`, and the others are before it
    have hlatest := h.latest d (t.numCheckpoints d - 1).toNat (by omega)
    have hne : stamp (t.checkpoints d) (t.numCheckpoints d - 1).toNat ≠ n := by
      rw [stamp_toNat]
      exact fun heq => hnew ⟨hpos, heq⟩
    by_contra hcon
    have hbefore : stamp (t.checkpoints d) (t.numCheckpoints d - 1).toNat <
        stamp (t.checkpoints d) i := by omega
    exact absurd ((h.stamped d).after hbefore (by omega) (by omega)) (Nat.lt_irrefl _)

/-! ## The operations -/

section Operations

variable {src dst sender recipient holder delegator delegatee : Address} {amount : Nat}

theorem moveDelegates_files (hn : 0 < n) (h : Filed n t)
    (hmove : _moveDelegates n src dst amount t = .ok t') : Files n t t' := by
  have stay : ∀ {t : HuskyToken}, Filed n t → Files n t t := fun h => ⟨h, fun _ _ _ => rfl⟩
  unfold _moveDelegates at hmove
  split at hmove
  · simp only [bind_eq_ok] at hmove
    obtain ⟨t₁, htake, hgive⟩ := hmove
    have htaken : Files n t t₁ := by
      unfold takeVotes at htake
      split at htake
      · simp only [bind_eq_ok] at htake
        obtain ⟨_, _, hwrite⟩ := htake
        exact writeCheckpoint_files hn h hwrite
      · exact Except.ok.inj htake ▸ stay h
    refine htaken.trans fun h₁ => ?_
    unfold giveVotes at hgive
    split at hgive
    · simp only [bind_eq_ok] at hgive
      obtain ⟨_, _, hwrite⟩ := hgive
      exact writeCheckpoint_files hn h₁ hwrite
    · exact Except.ok.inj hgive ▸ stay h₁
  · exact Except.ok.inj hmove ▸ stay h

/-- The ledger moves, then the votes. -/
theorem Files.moved (hn : 0 < n) (h : Filed n t) (hsame : SameVotes t t₁)
    (hmove : _moveDelegates n src dst amount t₁ = .ok t') : Files n t t' :=
  (hsame.files h).trans fun h₁ => moveDelegates_files hn h₁ hmove

theorem mint_files (hn : 0 < n) (h : Filed n t)
    (hmint : t.mint sender n recipient amount = .ok t') : Files n t t' := by
  simp only [mint, bind_eq_ok] at hmint
  obtain ⟨_, _, _, _, _, _, erc20, _, hmove⟩ := hmint
  exact .moved hn h (sameVotes_setERC20 erc20) hmove

theorem manualMint_files (hn : 0 < n) (h : Filed n t)
    (hmint : t.manualMint sender n recipient amount = .ok t') : Files n t t' := by
  simp only [manualMint, bind_eq_ok] at hmint
  obtain ⟨_, _, manualMinted, _, _, _, hmint⟩ := hmint
  have hsame : SameVotes t { t with manualMinted } := ⟨rfl, rfl, rfl⟩
  exact (hsame.files h).trans fun h₁ => mint_files hn h₁ hmint

theorem transfer_files (hn : 0 < n) (h : Filed n t)
    (htransfer : t.transfer sender n recipient amount = .ok t') : Files n t t' := by
  simp only [transfer, bind_eq_ok] at htransfer
  obtain ⟨erc20, _, hmove⟩ := htransfer
  exact .moved hn h (sameVotes_setERC20 erc20) hmove

theorem transferFrom_files (hn : 0 < n) (h : Filed n t)
    (htransfer : t.transferFrom sender n holder recipient amount = .ok t') : Files n t t' := by
  simp only [transferFrom, bind_eq_ok] at htransfer
  obtain ⟨erc20, _, hmove⟩ := htransfer
  exact .moved hn h (sameVotes_setERC20 erc20) hmove

theorem delegate_files (hn : 0 < n) (h : Filed n t)
    (hdelegate : t._delegate n delegator delegatee = .ok t') : Files n t t' := by
  have hnamed : Filed n { t with
      delegates := Function.update t.delegates delegator delegatee } :=
    ⟨h.stamped, h.latest, h.blank⟩
  have hmoved := moveDelegates_files hn hnamed hdelegate
  exact ⟨hmoved.filed, hmoved.before⟩

end Operations

end HuskyToken

namespace Huski.Governance

open HuskyToken

variable {ecrecover : Address → Signed → Address} {c c' c₀ : Chain} {tx : Tx} {g g' : State}
  {txs : List Tx} {n : Nat}

/-! ## Runs -/

/-- What moves votes files them, and the rest leaves them alone. -/
theorem exec_files (hn : 0 < tx.blockNumber) (h : Filed tx.blockNumber g.token)
    (hexec : exec ecrecover tx g = .ok g') : Files tx.blockNumber g.token g'.token := by
  rcases tx with ⟨sender, n, timestamp, op⟩
  unfold exec at hexec
  cases op with
  | mint => exact mint_files hn h (onToken_eq_ok hexec)
  | manualMint => exact manualMint_files hn h (onToken_eq_ok hexec)
  | transfer => exact transfer_files hn h (onToken_eq_ok hexec)
  | transferFrom => exact transferFrom_files hn h (onToken_eq_ok hexec)
  | delegate => exact delegate_files hn h (onToken_eq_ok hexec)
  | delegateBySig => exact delegate_files hn h (delegateBySig_eq_ok hexec)
  -- these write no checkpoint
  | burn =>
      have hburn := onToken_eq_ok hexec
      simp only [HuskyToken.burn, bind_eq_ok, pure_eq_ok] at hburn
      obtain ⟨_, _, erc20, _, htoken⟩ := hburn
      exact htoken ▸ (sameVotes_setERC20 erc20).files h
  | approve =>
      have happrove := onToken_eq_ok hexec
      simp only [HuskyToken.approve, bind_eq_ok, pure_eq_ok] at happrove
      obtain ⟨erc20, _, htoken⟩ := happrove
      exact htoken ▸ (sameVotes_setERC20 erc20).files h
  | lock =>
      have hlock := onToken_eq_ok hexec
      simp only [HuskyToken.lock, bind_eq_ok, pure_eq_ok] at hlock
      obtain ⟨_, _, _, _, _, _, _, _, _, _, _, _, htoken⟩ := hlock
      exact htoken ▸ SameVotes.files ⟨rfl, rfl, rfl⟩ h
  | unlock =>
      have hunlock := onToken_eq_ok hexec
      simp only [HuskyToken.unlock, bind_eq_ok, pure_eq_ok] at hunlock
      obtain ⟨_, _, _, _, _, _, _, _, _, _, htoken⟩ := hunlock
      exact htoken ▸ SameVotes.files ⟨rfl, rfl, rfl⟩ h
  | lockToOwner =>
      have hlock := onToken_eq_ok hexec
      simp only [HuskyToken.lockToOwner, bind_eq_ok, pure_eq_ok] at hlock
      obtain ⟨_, _, _, _, _, _, erc20, _, htoken⟩ := hlock
      exact htoken ▸ (sameVotes_setERC20 erc20).files h
  | transferAll =>
      have htransfer := onToken_eq_ok hexec
      simp only [HuskyToken.transferAll, bind_eq_ok, pure_eq_ok] at htransfer
      obtain ⟨_, _, _, _, _, _, htoken⟩ := htransfer
      exact htoken ▸ SameVotes.files ⟨rfl, rfl, rfl⟩ h
  | transferOwnership =>
      have howner := onToken_eq_ok hexec
      simp only [HuskyToken.transferOwnership, bind_eq_ok, pure_eq_ok] at howner
      obtain ⟨_, _, _, _, htoken⟩ := howner
      exact htoken ▸ SameVotes.files ⟨rfl, rfl, rfl⟩ h
  | renounceOwnership =>
      have howner := onToken_eq_ok hexec
      simp only [HuskyToken.renounceOwnership, bind_eq_ok, pure_eq_ok] at howner
      obtain ⟨_, _, htoken⟩ := howner
      exact htoken ▸ SameVotes.files ⟨rfl, rfl, rfl⟩ h

/-- After the first block, the checkpoints are filed up to this one. -/
structure UpToDate (c : Chain) : Prop where
  block : 0 < c.block
  filed : Filed c.block c.state.token

/-- One transaction changes no votes of the blocks before it. -/
theorem UpToDate.step (h : UpToDate c) (hstep : mine ecrecover c tx = .ok c') :
    UpToDate c' ∧ c.block ≤ tx.blockNumber ∧ c'.block = tx.blockNumber ∧
      ∀ d m, m < tx.blockNumber → c'.state.token.votesAsOf d m = c.state.token.votesAsOf d m := by
  obtain ⟨hblock, hnow, hexec⟩ := mine_eq_ok hstep
  have hn : 0 < tx.blockNumber := h.block.trans_le hblock
  have hfiles := exec_files hn (h.filed.mono hblock) hexec
  exact ⟨⟨hnow ▸ hn, hnow ▸ hfiles.filed⟩, hblock, hnow, hfiles.before⟩

/-- The constructor writes no votes about the blocks before it. -/
theorem UpToDate.init (hinit : (machine ecrecover).init c) :
    UpToDate c ∧ ∀ d m, m < c.block → c.state.token.votesAsOf d m = 0 := by
  obtain ⟨hblock, here, deployer, first, last, token, hcreate, hstate⟩ := hinit
  simp only [create, bind_eq_ok] at hcreate
  obtain ⟨_, _, hmint⟩ := hcreate
  have hblank : Filed c.block (unminted here deployer first last) :=
    ⟨fun d => ⟨fun i hi => absurd hi (Nat.not_lt_zero i),
        fun i j _ hj => absurd hj (Nat.not_lt_zero j)⟩,
      fun d i hi => absurd hi (Nat.not_lt_zero i), fun d i _ => rfl⟩
  have hfiles := manualMint_files hblock hblank hmint
  rw [hstate]
  exact ⟨⟨hblock, hstate ▸ hfiles.filed⟩, hfiles.before⟩

theorem UpToDate.run (h : UpToDate c₀) (hrun : (machine ecrecover).run c₀ txs = .ok c) :
    UpToDate c := by
  induction txs generalizing c₀ with
  | nil => exact Except.ok.inj hrun ▸ h
  | cons tx rest ih =>
      simp only [TSys.run, bind_eq_ok] at hrun
      obtain ⟨c₁, hstep, hrest⟩ := hrun
      exact ih (h.step hstep).1 hrest

/-- What is written later does not change the votes of a block that has ended. -/
theorem votesAsOf_run (h : UpToDate c₀) (hrun : (machine ecrecover).run c₀ txs = .ok c)
    (hn : n < c₀.block) (d : Address) :
    c.state.token.votesAsOf d n = c₀.state.token.votesAsOf d n := by
  induction txs generalizing c₀ with
  | nil => rw [Except.ok.inj hrun]
  | cons tx rest ih =>
      simp only [TSys.run, bind_eq_ok] at hrun
      obtain ⟨c₁, hstep, hrest⟩ := hrun
      obtain ⟨h₁, hblock, hnow, hbefore⟩ := h.step hstep
      have hn₁ : n < tx.blockNumber := hn.trans_le hblock
      rw [ih h₁ hrest (hnow ▸ hn₁), hbefore d n hn₁]

/-- As of the current block, the votes are the current ones. -/
theorem UpToDate.votesAsOf_current (h : UpToDate c) (hn : c.block ≤ n) (d : Address) :
    c.state.token.votesAsOf d n = c.state.token.getCurrentVotes d := by
  unfold votesAsOf getCurrentVotes
  by_cases hpos : 0 < c.state.token.numCheckpoints d
  · have hone : (1 : UInt32) ≤ c.state.token.numCheckpoints d :=
      UInt32.le_iff_toNat_le.mpr (UInt32.lt_iff_toNat_lt.mp hpos)
    have hcount : (c.state.token.numCheckpoints d - 1).toNat =
        (c.state.token.numCheckpoints d).toNat - 1 := UInt32.toNat_sub_of_le _ _ hone
    have hlt : (c.state.token.numCheckpoints d - 1).toNat <
        (c.state.token.numCheckpoints d).toNat := by
      have := UInt32.lt_iff_toNat_lt.mp hpos
      rw [hcount]
      exact Nat.sub_lt this Nat.one_pos
    rw [asOf_eq_value hlt ((h.filed.latest d _ hlt).trans hn) (fun j hj hj' => by omega),
      votesFrom_toNat]
    exact (if_pos hpos).symm
  · have hzero : (c.state.token.numCheckpoints d).toNat = 0 := by
      have := fun h => hpos (UInt32.lt_iff_toNat_lt.mpr h)
      exact Nat.eq_zero_of_not_pos this
    rw [hzero]
    exact (if_neg hpos).symm

/-- The votes as of a block are those after the last transaction that is not past it. -/
theorem votesAsOf_history (h : UpToDate c₀) (hrun : (machine ecrecover).run c₀ txs = .ok c)
    (hn : c₀.block ≤ n) : ∃ c₁,
      (machine ecrecover).run c₀ (txs.takeWhile (·.blockNumber ≤ n)) = .ok c₁ ∧
      ∀ d, c.state.token.votesAsOf d n = c₁.state.token.getCurrentVotes d := by
  induction txs generalizing c₀ with
  | nil =>
      have hsame := Except.ok.inj hrun
      exact ⟨c₀, rfl, fun d => hsame ▸ h.votesAsOf_current hn d⟩
  | cons tx rest ih =>
      simp only [TSys.run, bind_eq_ok] at hrun
      obtain ⟨c₁, hstep, hrest⟩ := hrun
      obtain ⟨h₁, hblock, hnow, hbefore⟩ := h.step hstep
      by_cases hle : tx.blockNumber ≤ n
      · obtain ⟨c₂, hrun₂, hvotes⟩ := ih h₁ hrest (hnow ▸ hle)
        rw [List.takeWhile_cons_of_pos (by exact decide_eq_true hle)]
        exact ⟨c₂, bind_eq_ok.mpr ⟨c₁, hstep, hrun₂⟩, hvotes⟩
      · -- the rest is past the block
        have hlt : n < tx.blockNumber := Nat.not_le.mp hle
        rw [List.takeWhile_cons_of_neg (by exact fun hpass => hle (of_decide_eq_true hpass))]
        refine ⟨c₀, rfl, fun d => ?_⟩
        rw [votesAsOf_run h₁ hrest (hnow ▸ hlt), hbefore d n hlt, h.votesAsOf_current hn]

/-! ## Prior votes over every run -/

/-- With a subtraction that is right where it does not underflow, and for 33 turns of the loop. -/
theorem UpToDate.getPriorVotes_eq (h : UpToDate c) {minus : UInt32 → UInt32 → Result UInt32}
    (hminus : Exact minus) {turns current : Nat} (hturns : 33 ≤ turns) (hn : n < current)
    (d : Address) : c.state.token.getPriorVotes minus turns current d n =
      .ok (c.state.token.votesAsOf d n) := by
  obtain ⟨k, rfl⟩ : ∃ k, turns = k + 1 := ⟨turns - 1, by omega⟩
  have hstamped := h.filed.stamped d
  unfold getPriorVotes votesAsOf
  refine bind_eq_ok.mpr ⟨(), require_eq_ok.mpr hn, ?_⟩
  dsimp only
  generalize c.state.token.checkpoints d = checkpoints at *
  generalize c.state.token.numCheckpoints d = count at *
  by_cases hzero : count = 0
  · rw [if_pos hzero, hzero]
    rfl
  · have hpos : 0 < count.toNat := by
      rcases Nat.eq_zero_or_pos count.toNat with h0 | hpos
      · exact absurd (UInt32.toNat_inj.mp h0) hzero
      · exact hpos
    have hone : (1 : UInt32) ≤ count := UInt32.le_iff_toNat_le.mpr hpos
    have hlast : (count - 1).toNat = count.toNat - 1 := UInt32.toNat_sub_of_le _ _ hone
    have hword := count.toNat_lt
    rw [if_neg hzero]
    refine bind_eq_ok.mpr ⟨_, hminus _ _ hone, ?_⟩
    -- the last checkpoint is old enough
    by_cases hrecent : (checkpoints (count - 1)).fromBlock ≤ n
    · rw [if_pos hrecent, asOf_eq_value (i := (count - 1).toNat) (by omega)
        (by rwa [stamp_toNat]) (fun j hj hj' => by omega), votesFrom_toNat]
      rfl
    · rw [if_neg hrecent]
      -- the first one is too new, so there were no votes
      by_cases hfirst : (checkpoints 0).fromBlock > n
      · have hafter : ∀ i, i < count.toNat → n < stamp checkpoints i :=
          fun i hi => hstamped.after (i := (0 : UInt32).toNat) (by rwa [stamp_toNat])
            (Nat.zero_le i) hi
        rw [if_pos hfirst, asOf_eq_start hafter]
        rfl
      · rw [if_neg hfirst]
        refine bind_eq_ok.mpr ⟨_, hminus _ _ hone, ?_⟩
        -- one turn for each bit of the count suffices for the search
        have hwidth : 2 ^ 32 ≤ 2 ^ k := Nat.pow_le_pow_right (by norm_num) (by omega)
        exact searchCheckpoints_eq hminus hstamped (by omega)
          (UInt32.le_iff_toNat_le.mpr (Nat.zero_le _)) (Nat.not_lt.mp hfirst)
          (fun j hj hj' => by omega) (by omega)

/-- In every run: the written checkpoints of an account are of increasing blocks, and there are
`numCheckpoints` of them. For every block before the current one the search of `getPriorVotes`
ends within 33 turns, also if an underflow of its indices were an error, with the votes that
`getCurrentVotes` returned when the block ended. -/
theorem getPriorVotes_eq_history (ecrecover : Address → Signed → Address) {c₀ c : Chain}
    {txs : List Tx} (hinit : (machine ecrecover).init c₀)
    (hrun : (machine ecrecover).run c₀ txs = .ok c) (account : Address) :
    (∀ i j, i < j → j < c.state.token.numCheckpoints account →
      (c.state.token.checkpoints account i).fromBlock <
        (c.state.token.checkpoints account j).fromBlock) ∧
    (∀ i, i < c.state.token.numCheckpoints account ↔
      (c.state.token.checkpoints account i).fromBlock ≠ 0) ∧
    ∀ current n turns, c.block ≤ current → n < current → 33 ≤ turns →
      ∀ minus, minus = wrapping ∨ minus = checked →
        (n < c₀.block →
          c.state.token.getPriorVotes minus turns current account n = .ok 0) ∧
        (c₀.block ≤ n → ∃ c₁,
          (machine ecrecover).run c₀ (txs.takeWhile (·.blockNumber ≤ n)) = .ok c₁ ∧
          c.state.token.getPriorVotes minus turns current account n =
            .ok (c₁.state.token.getCurrentVotes account)) := by
  obtain ⟨h₀, hnone⟩ := UpToDate.init hinit
  have h := h₀.run hrun
  refine ⟨fun i j hij hj => ?_, fun i => ⟨fun hi => ?_, fun hne => ?_⟩,
    fun current n turns hcurrent hn hturns minus hminus => ?_⟩
  · have hlt := (h.filed.stamped account).lt i.toNat j.toNat (UInt32.lt_iff_toNat_lt.mp hij)
      (UInt32.lt_iff_toNat_lt.mp hj)
    rwa [stamp_toNat, stamp_toNat] at hlt
  · have hpos := (h.filed.stamped account).pos i.toNat (UInt32.lt_iff_toNat_lt.mp hi)
    rw [stamp_toNat] at hpos
    exact Nat.pos_iff_ne_zero.mp hpos
  · by_contra hcon
    exact hne (by rw [h.filed.blank account i (UInt32.not_lt.mp hcon)])
  · have hexact : Exact minus := by
      rcases hminus with rfl | rfl
      · exact wrapping_exact
      · exact checked_exact
    rw [h.getPriorVotes_eq hexact hturns hn]
    refine ⟨fun hbefore => ?_, fun hafter => ?_⟩
    · rw [votesAsOf_run h₀ hrun hbefore, hnone account n hbefore]
    · obtain ⟨c₁, hrun₁, hvotes⟩ := votesAsOf_history h₀ hrun hafter
      exact ⟨c₁, hrun₁, by rw [hvotes]⟩

/-- Account 1 names account 9 in block 2 and gives 4 of its 10 HUSKY away in block 3. -/
theorem prior_votes_of_transfer : ∃ c,
    (machine fun _ _ => 0).run freshChain [⟨50, 1, 0, .transfer 1 10⟩, ⟨1, 2, 0, .delegate 9⟩,
      ⟨1, 3, 0, .transfer 3 4⟩] = .ok c ∧ c.state.token.getCurrentVotes 9 = 6 ∧
    c.state.token.getPriorVotes wrapping 33 4 9 2 = .ok 10 := by
  have hrun : (((machine fun _ _ => 0).run freshChain [⟨50, 1, 0, .transfer 1 10⟩,
      ⟨1, 2, 0, .delegate 9⟩, ⟨1, 3, 0, .transfer 3 4⟩]).toOption.map
        fun c => (c.block, c.state.token.getCurrentVotes 9)) = some (3, 6) := by
    decide +kernel
  have hended : (((machine fun _ _ => 0).run freshChain [⟨50, 1, 0, .transfer 1 10⟩,
      ⟨1, 2, 0, .delegate 9⟩]).toOption.map fun c => c.state.token.getCurrentVotes 9) =
        some 10 := by
    decide +kernel
  obtain ⟨c, hc, hvotes⟩ := Option.map_eq_some_iff.mp hrun
  obtain ⟨hblock, hcurrent⟩ := Prod.mk.inj hvotes
  have hc := toOption_eq_some.mp hc
  obtain ⟨c₁, hrun₁, hprior⟩ := ((getPriorVotes_eq_history _ (freshChain_init fun _ _ => 0) hc
    9).2.2 4 2 33 (by omega) (by norm_num) (Nat.le_refl _) wrapping (.inl rfl)).2 (by decide)
  obtain ⟨c₂, hc₂, hvotes₂⟩ := Option.map_eq_some_iff.mp hended
  have hsame : c₂ = c₁ := Except.ok.inj ((toOption_eq_some.mp hc₂).symm.trans hrun₁)
  exact ⟨c, hc, hcurrent, by rw [hprior, ← hsame, hvotes₂]⟩

end Huski.Governance
