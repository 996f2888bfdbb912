import Huski.Farm.VaultCalls
import Huski.Lib.Mirror

/-!
# FairLaunch mirrors the debt of the vault

The debt shares of the positions and the stakes in FairLaunch are a register and its mirror: every
call of the vault that touches a position closes it in both and issues it anew in both, and
everything else, also what third parties do in FairLaunch, leaves both alone. So in every run the
stake of an owner is the debt of its positions, plus what was taken off a position while its
withdrawal failed: `_removeDebt` goes ahead then, and nothing brings these shares back.
-/

namespace Huski.Farm

open Solidity FairLaunch
open scoped BigOperators

/-- The debt shares by position and the stakes by owner. -/
def mirror (self : Address) (s : Sys) : Mirror Vault.PositionId Address where
  owner id := (s.world.vault.positions id).owner
  share id := (s.world.vault.positions id).debtShare
  stake := stake self s.world
  supply := supply s.world
  stuck := s.stuck

/-- Nobody has borrowed yet. -/
structure Idle (vault : Address) (s : Sys) : Prop where
  stakes : ∀ p u, stakeOf vault (chain s.world) p u = 0
  supply : ∀ token, (chain s.world).state.debtSupply token = 0
  shares : ∀ id, (s.world.vault.positions id).debtShare = 0
  stuck : ∀ u, s.stuck u = 0

/-- The mirror is faithful. A vault without a pool is idle, so that it can be given one. -/
structure Mirrored (vault : Address) (s : Sys) : Prop where
  sane : Sane vault (chain s.world)
  balanced : (Vault.debtBook s.world.vault).Balanced
  faithful : (mirror vault s).Faithful
  idle : s.world.vault.fairLaunchPoolId = maxWord → Idle vault s

theorem Idle.faithful {self : Address} {s : Sys} (h : Idle self s) : (mirror self s).Faithful :=
  .of_empty h.shares (h.stakes _) (h.supply _) h.stuck

/-! ## The positions a call leaves -/

section Positions

variable {F : Type} {ext : Vault.Externals F} {msg : Vault.Msg} {c : Vault.Call}
  {w w' : Vault.World F}

/-- A call changes the owner and the shares of the position it works on or kills, and of no
other. -/
theorem call_positions (hext : ext.Within Vault.SameVault) (h : Vault.call ext msg c w = .ok w')
    (i : Vault.PositionId)
    (hwork : ∀ id worker principalAmount loan maxReturn data,
      c = .work id worker principalAmount loan maxReturn data →
      i ≠ if id = 0 then w.vault.nextPositionId else id)
    (hkill : ∀ id, c = .kill id → i ≠ id) :
    (w'.vault.positions i).owner = (w.vault.positions i).owner ∧
      (w'.vault.positions i).debtShare = (w.vault.positions i).debtShare := by
  obtain ⟨interest, _, hstep⟩ := Vault.call_ledger hext h
  have hframe : (Vault.ledger w'.vault).owner i = (Vault.ledger w.vault).owner i ∧
      (Vault.ledger w'.vault).book.held i = (Vault.ledger w.vault).book.held i := by
    cases hstep with
    | keep hkeep =>
        rw [hkeep]
        exact ⟨rfl, rfl⟩
    | kill id hc hclosed =>
        rw [hclosed]
        exact ⟨rfl, Function.update_of_ne (hkill id hc) _ _⟩
    | work id worker principalAmount loan maxReturn data debt hc _ hworked =>
        have hother := hwork id worker principalAmount loan maxReturn data hc
        rw [hworked]
        refine ⟨Function.update_of_ne hother _ _, ?_⟩
        exact (Function.update_of_ne hother _ _).trans (Function.update_of_ne hother _ _)
  exact hframe

end Positions

/-! ## One transaction -/

section Step

variable {self : Address} {tx : VaultTx} {s s' : Sys}

theorem debtBook_step (hb : (Vault.debtBook s.world.vault).Balanced) {w : World}
    (h : Vault.call (tx.externals self) tx.msg tx.call s.world = .ok w) :
    (Vault.debtBook w.vault).Balanced := by
  obtain ⟨interest, hnone, hledger⟩ :=
    Vault.call_ledger (tx.sameVault self) h
  exact hledger.balanced (hb.gain hnone)

/-- What a transaction of the vault leaves of a position it does not close. -/
theorem vaultTx_positions {w : World}
    (h : Vault.call (tx.externals self) tx.msg tx.call s.world = .ok w) {i : Vault.PositionId}
    (hi : ∀ id withdrawn, closes self tx s.world = some (id, withdrawn) → i ≠ id) :
    (w.vault.positions i).owner = (s.world.vault.positions i).owner ∧
      (w.vault.positions i).debtShare = (s.world.vault.positions i).debtShare := by
  refine call_positions (tx.sameVault self) h i
    (fun id worker principalAmount loan maxReturn data hc => ?_) (fun id hc => ?_)
  · by_cases hnew : id = 0
    · rw [if_pos hnew]
      exact hi _ false (by simp only [closes, hc, if_pos hnew])
    · rw [if_neg hnew]
      exact hi _ (unstakes self tx id s.world) (by simp only [closes, hc, if_neg hnew])
  · exact hi _ (unstakes self tx id s.world) (by simp only [closes, hc])

/-- `work` and `kill` reissue their position in the debt and in its mirror. -/
theorem mirror_reissue {id : Vault.PositionId} {withdrawn : Bool} {w : World}
    (hs : Sane self (chain s.world))
    (h : Vault.call (tx.externals self) tx.msg tx.call s.world = .ok w)
    (hcloses : closes self tx s.world = some (id, withdrawn)) :
    (mirror self s).Reissue
      (mirror self ⟨w, fun owner => s.stuck owner + newlyStuck self tx s.world owner⟩) id
      (if withdrawn then (s.world.vault.positions id).debtShare else 0)
      (if withdrawn then 0 else (s.world.vault.positions id).debtShare) := by
  have hreissues := call_reissues hs h hcloses
  have hothers : ∀ i, i ≠ id → ∀ k b, closes self tx s.world = some (k, b) → i ≠ k := by
    intro i hi k b hk
    rw [hcloses] at hk
    cases hk
    exact hi
  constructor
  case owner => exact fun i hi => (vaultTx_positions h (hothers i hi)).1
  case share => exact fun i hi => (vaultTx_positions h (hothers i hi)).2
  case closed => cases withdrawn <;> simp [mirror]
  case stake => exact hreissues.flow.stake
  case supply => exact hreissues.flow.supply
  case stuck =>
    intro a
    show s.stuck a + newlyStuck self tx s.world a = _
    unfold newlyStuck
    rw [hcloses]
    cases withdrawn with
    | true => simp [mirror]
    | false => rfl

end Step

/-! ## Every run -/

section Runs

variable {self : Address} {s s' : Sys}

theorem mirrored_init (h : (machine self).init s) : Mirrored self s := by
  obtain ⟨⟨⟨msg, config, token, debtToken, hvault⟩, _, _⟩, hchain, hhere, hsupply, hstuck⟩ := h
  have hcustody := custody_inductive.init (chain s.world) hchain
  obtain ⟨_, _, _, _, _, _, _, _, _, _, hstate⟩ := hchain
  have hempty : ∀ p u, (chain s.world).state.userInfo p u = {} := by
    intro p u
    rw [hstate]
    rfl
  have hidle : Idle self s := by
    refine ⟨fun p u => ?_, hsupply, fun id => ?_, fun u => ?_⟩
    · unfold stakeOf
      rw [hempty, UserInfo.stakeOf]
      exact ite_self _
    · rw [hvault]
      rfl
    · rw [hstuck]
  refine ⟨⟨hhere, hcustody, fun p u _ => ?_⟩, ?_, hidle.faithful, fun _ => hidle⟩
  · rw [hempty]
  · rw [hvault]
    exact Vault.debtBook_init

theorem Mirrored.fairLaunch {tx : FairLaunch.Tx} (hs : Mirrored self s)
    (h : step self s (.fairLaunch tx) = .ok s') : Mirrored self s' := by
  simp only [step, bind_eq_ok, require_eq_ok, pure_eq_ok] at h
  obtain ⟨_, hsender, others, hmine, rfl⟩ := h
  obtain ⟨hsane, hstakes, hsupply⟩ := mine_aside hsender hmine hs.sane
  refine ⟨hsane, hs.balanced, ?_, fun hunset => ?_⟩
  · have hsame : mirror self { s with
        world := Vault.setBooks s.world { s.world.rest with others } } = mirror self s := by
      unfold mirror
      congr 1
      · exact funext fun u => hstakes _ u
      · exact hsupply _
    rw [hsame]
    exact hs.faithful
  · have hidle := hs.idle hunset
    exact ⟨fun p u => (hstakes p u).trans (hidle.stakes p u),
      fun token => (hsupply token).trans (hidle.supply token), hidle.shares, hidle.stuck⟩

theorem Mirrored.vault {tx : VaultTx} (hs : Mirrored self s) (hset : Settled s (.vault tx))
    (h : step self s (.vault tx) = .ok s') : Mirrored self s' := by
  simp only [step, bind_eq_ok, require_eq_ok, pure_eq_ok] at h
  obtain ⟨_, _, _, _, _, _, w, hcall, rfl⟩ := h
  have hbalanced := debtBook_step hs.balanced hcall
  cases hcloses : closes self tx s.world with
  | some closed =>
      obtain ⟨id, withdrawn⟩ := closed
      have hreissues := call_reissues hs.sane hcall hcloses
      refine ⟨hreissues.flow.sane, hbalanced,
        hs.faithful.reissue (mirror_reissue hs.sane hcall hcloses), fun hunset => ?_⟩
      exact absurd (hreissues.flow.pool.symm.trans hunset) hreissues.poolSet
  | none =>
      obtain ⟨haside, hsite⟩ := call_aside hset hcall hcloses
      obtain ⟨hsane, hstakes, hsupply⟩ := haside hs.sane
      have hpositions : ∀ i, _ := fun i => vaultTx_positions (i := i) hcall fun id b hk => by
        rw [hcloses] at hk
        cases hk
      have hnewly : ∀ owner, s.stuck owner + newlyStuck self tx s.world owner =
          s.stuck owner := by
        intro owner
        unfold newlyStuck
        rw [hcloses]
        rfl
      have hidle : Idle self s →
          Idle self ⟨w, fun owner => s.stuck owner + newlyStuck self tx s.world owner⟩ := by
        intro hidle
        refine ⟨fun p u => (hstakes p u).trans (hidle.stakes p u),
          fun token => (hsupply token).trans (hidle.supply token),
          fun id => (hpositions id).2.trans (hidle.shares id), fun u => ?_⟩
        show s.stuck u + newlyStuck self tx s.world u = 0
        rw [hnewly, hidle.stuck]
      by_cases hunset : s.world.vault.fairLaunchPoolId = maxWord
      · -- nothing was borrowed, whatever pool and token the vault has now
        have hstill := hidle (hs.idle hunset)
        exact ⟨hsane, hbalanced, hstill.faithful, fun _ => hstill⟩
      · obtain ⟨hpool, htoken⟩ := hsite.resolve_left hunset
        refine ⟨hsane, hbalanced, ?_, fun hunset' => absurd (hpool.symm.trans hunset') hunset⟩
        have hsame : mirror self
            ⟨w, fun owner => s.stuck owner + newlyStuck self tx s.world owner⟩ =
            mirror self s := by
          unfold mirror
          congr 1
          · exact funext fun i => (hpositions i).1
          · exact funext fun i => (hpositions i).2
          · funext u
            unfold stake
            rw [hpool, hstakes]
          · unfold supply
            rw [htoken, hsupply]
          · exact funext hnewly
        rw [hsame]
        exact hs.faithful

/-- The mirror is faithful in every state of every run. -/
theorem mirrored_inductive : (machine self).Inductive Settled (Mirrored self) where
  init s h := mirrored_init h
  step s tx s' hs hset hstep := by
    cases tx with
    | vault tx => exact hs.vault hset hstep
    | fairLaunch tx => exact hs.fairLaunch hstep

/-! ## Runs without a failed withdrawal -/

/-- The stake of what a transaction takes off is withdrawn. -/
def Withdraws (self : Address) (s : Sys) : Tx → Prop
  | .vault tx => ∀ owner, newlyStuck self tx s.world owner = 0
  | .fairLaunch _ => True

theorem stuck_inductive :
    (machine self).Inductive (Withdraws self) (fun s => ∀ owner, s.stuck owner = 0) where
  init s h := by
    obtain ⟨_, _, _, _, hstuck⟩ := h
    intro owner
    rw [hstuck]
  step s tx s' hs hwithdraws h := by
    intro owner
    cases tx with
    | vault tx =>
        simp only [machine, step, bind_eq_ok, pure_eq_ok] at h
        obtain ⟨_, _, _, _, _, _, w, _, rfl⟩ := h
        have hnewly := hwithdraws owner
        have hbefore := hs owner
        show s.stuck owner + newlyStuck self tx s.world owner = 0
        omega
    | fairLaunch tx =>
        simp only [machine, step, bind_eq_ok, pure_eq_ok] at h
        obtain ⟨_, _, others, _, rfl⟩ := h
        exact hs owner

/-- Where every withdrawal succeeds the stakes and the debt tokens are the debt. -/
theorem mirrored_of_withdraws
    (hreach : (machine self).ReachableBy (fun s tx => Settled s tx ∧ Withdraws self s tx) s) :
    (∀ owner, stakeOf self (chain s.world) s.world.vault.fairLaunchPoolId owner =
      ∑ id, if (s.world.vault.positions id).owner = owner then
        (s.world.vault.positions id).debtShare else 0) ∧
    (chain s.world).state.debtSupply s.world.vault.debtToken = s.world.vault.vaultDebtShare := by
  have hs := mirrored_inductive.invariant (hreach.mono fun _ _ h => h.1)
  have hstuck := stuck_inductive.invariant (hreach.mono fun _ _ h => h.2)
  have hnone : ∑ owner, (mirror self s).stuck owner = 0 := TotalMap.sum_eq_zero hstuck
  refine ⟨fun owner => ?_, ?_⟩
  · have hstakes := hs.faithful.stakes owner
    have hleft : (mirror self s).stuck owner = 0 := hstuck owner
    rw [hleft, Nat.add_zero] at hstakes
    exact hstakes
  · have hsupplied := hs.faithful.supplied
    rw [hnone, Nat.add_zero] at hsupplied
    exact hsupplied.trans hs.balanced.total

/-! ## Every run -/

/-- A vault at 200 with the debt token 203, next to FairLaunch at 100; account 50 owns both. -/
def freshFarm : Sys where
  world :=
    { vault := Vault.initStorage { sender := 50, origin := 50, now := 0, blockNumber := 0 }
        202 201 203
      rest :=
        { balance := 0, native := 0, sentToken := fun _ => 0, sentNative := fun _ => 0
          others :=
            { block := 0
              state := initState 100 50 freshHusky
                (fun a => if a = 203 then .debtToken { owner := 200 } else heldToken)
                51 1000 0 0 0 } }
      pulls := []
      execution := none }
  stuck _ := 0

theorem freshFarm_init : (machine 200).init freshFarm := by
  refine ⟨⟨⟨_, _, _, _, rfl⟩, rfl, rfl⟩,
    ⟨100, 50, freshHusky, _, 51, 1000, 0, 0, 0, rfl, rfl⟩, by decide, fun token => ?_, rfl⟩
  show StakeToken.debtSupply (if token = 203 then .debtToken { owner := 200 } else heldToken) = 0
  split <;> rfl

/-- A transaction of account 50. -/
def farmTx (blockNumber health : Nat) (call : Vault.Call) : Tx :=
  .vault
    { msg := { sender := 50, origin := 50, now := blockNumber, blockNumber }
      config := { Vault.Config.flat 0 with getFairLaunchAddr := 100 }
      returned := 0
      health := .ok health
      outOfGas := false
      calls := []
      call }

/-- Account 50 borrows, and the weight of the vault's pool becomes zero, so that `updatePool`
divides by zero in the next block. -/
def retiredPool : List Tx :=
  [.fairLaunch ⟨50, 0, .addPool 1 203 false⟩,
   farmTx 0 0 (.updateDebtToken 203 0),
   farmTx 0 0 (.deposit (10 ^ 18)),
   farmTx 0 (10 ^ 18) (.work 0 7 0 (5 * 10 ^ 17) 0 { strategy := 8, ext := [] }),
   .fairLaunch ⟨50, 1, .setPool 0 0⟩]

/-- The position is killed, and its stake is still there. -/
theorem killed_reachable : ∃ s, (machine 200).ReachableBy Settled s ∧
    s.world.vault.fairLaunchPoolId = 0 ∧ s.world.vault.debtToken = 203 ∧
    s.world.vault.vaultDebtShare = 0 ∧ stakeOf 200 (chain s.world) 0 50 = 5 * 10 ^ 17 ∧
    (chain s.world).state.debtSupply 203 = 5 * 10 ^ 17 ∧ s.stuck 50 = 5 * 10 ^ 17 := by
  have htest : ((machine 200).guarded fun s tx => decide (Settled s tx)).lastStep freshFarm
      retiredPool (farmTx 2 0 (.kill 1)) (fun _ s =>
        decide (s.world.vault.fairLaunchPoolId = 0 ∧ s.world.vault.debtToken = 203 ∧
          s.world.vault.vaultDebtShare = 0 ∧ stakeOf 200 (chain s.world) 0 50 = 5 * 10 ^ 17 ∧
          (chain s.world).state.debtSupply 203 = 5 * 10 ^ 17 ∧ s.stuck 50 = 5 * 10 ^ 17)) =
      true := by
    decide +kernel
  obtain ⟨s₁, s, hreach, hstep, hkilled⟩ :=
    TSys.lastStep_reachable (M := (machine 200).guarded _) freshFarm_init htest
  have hreach : (machine 200).ReachableBy Settled s :=
    TSys.reachableBy_of_guarded (fun _ _ hcheck => of_decide_eq_true hcheck)
      (.step hreach trivial hstep)
  exact ⟨s, hreach, of_decide_eq_true hkilled⟩

/-- In every state of every run the stake of an owner that the vault funds is the debt shares of
its positions and those taken off a position without its stake, and the debt tokens are the debt
shares of the vault and all those. In the runs in which every withdrawal succeeds the stakes and
the debt tokens are the debt. -/
theorem stakeMirrors_of_settled (hreach : (machine self).ReachableBy Settled s) :
    ((∀ owner, stakeOf self (chain s.world) s.world.vault.fairLaunchPoolId owner =
      (∑ id, if (s.world.vault.positions id).owner = owner then
        (s.world.vault.positions id).debtShare else 0) + s.stuck owner) ∧
    (chain s.world).state.debtSupply s.world.vault.debtToken =
      s.world.vault.vaultDebtShare + ∑ owner, s.stuck owner) ∧
    ((machine self).ReachableBy (fun s tx => Settled s tx ∧ Withdraws self s tx) s →
      (∀ owner, stakeOf self (chain s.world) s.world.vault.fairLaunchPoolId owner =
        ∑ id, if (s.world.vault.positions id).owner = owner then
          (s.world.vault.positions id).debtShare else 0) ∧
      (chain s.world).state.debtSupply s.world.vault.debtToken =
        s.world.vault.vaultDebtShare) := by
  have hs := mirrored_inductive.invariant hreach
  refine ⟨⟨hs.faithful.stakes, hs.faithful.supplied.trans ?_⟩, mirrored_of_withdraws⟩
  have htotal : ∑ id, (s.world.vault.positions id).debtShare = s.world.vault.vaultDebtShare :=
    hs.balanced.total
  exact congrArg (· + ∑ owner, s.stuck owner) htotal

theorem stakeMirrors_of_killed : ∃ s : Sys,
    stakeOf 200 (chain s.world) 0 50 = 5 * 10 ^ 17 ∧ s.stuck 50 = 5 * 10 ^ 17 ∧
    (∑ id, if (s.world.vault.positions id).owner = 50 then
      (s.world.vault.positions id).debtShare else 0) = 0 := by
  obtain ⟨s, hreach, hpool, _, _, hstake, _, hstuck⟩ := killed_reachable
  have hmirrors := (stakeMirrors_of_settled hreach).1.1 50
  rw [hpool, hstake, hstuck] at hmirrors
  exact ⟨s, hstake, hstuck, by omega⟩

/-- After the kill account 50 owes nothing and has its stake, and the debt tokens are not those of
the vault's debt. -/
theorem killed_stake_stays : ∃ s, (machine 200).ReachableBy Settled s ∧
    stakeOf 200 (chain s.world) s.world.vault.fairLaunchPoolId 50 ≠
      (∑ id, if (s.world.vault.positions id).owner = 50 then
        (s.world.vault.positions id).debtShare else 0) ∧
    (chain s.world).state.debtSupply s.world.vault.debtToken ≠ s.world.vault.vaultDebtShare := by
  obtain ⟨s, hreach, hpool, htoken, hshare, hstake, hsupply, hstuck⟩ := killed_reachable
  have hstakes := (mirrored_inductive.invariant hreach).faithful.stakes 50
  have howned : stake 200 s.world 50 = 5 * 10 ^ 17 := by
    unfold stake
    rw [hpool, hstake]
  refine ⟨s, hreach, ?_, ?_⟩
  · rw [hpool, hstake]
    intro howes
    have hnone : (mirror 200 s).owned 50 = 5 * 10 ^ 17 := howes.symm
    have hbehind : (mirror 200 s).stuck 50 = 5 * 10 ^ 17 := hstuck
    rw [hnone, hbehind] at hstakes
    have hboth := howned.symm.trans hstakes
    omega
  · rw [htoken, hsupply, hshare]
    decide

end Runs

end Huski.Farm
