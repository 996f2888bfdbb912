import Huski.Shield.Keeps

/-!
# The warchest

What is minted by hand, and by whom, over every run of the Shield, FairLaunch and HUSKY together. No
function of FairLaunch gives HUSKY away, and none of the Shield gives FairLaunch away, so all of it
is minted by `mintWarchest`, under the limit of the Shield. The pools are those of the hand-over:
the function `addPool` that the Shield calls is none of FairLaunch's.
-/

open Solidity

namespace Huski

open HuskyToken

/-! ## The owner of HUSKY before the hand-over -/

namespace FairLaunch

variable {msg : Msg} {s s' : State}

theorem exec_husky_owner {op : Op} (h : exec msg op s = .ok s') :
    s'.here = s.here ∧ s'.husky.owner = s.husky.owner := by
  cases hop : op.appoints with
  -- a call that appoints nobody keeps everything the Shield counts
  | false =>
      have hkept := exec_retains hop h
      exact ⟨hkept.here, hkept.husky.owner⟩
  -- FairLaunch itself owns HUSKY, whoever owns FairLaunch
  | true =>
      cases op with
      | addPool allocPoint stakeToken withUpdate =>
          rcases addPool_eq_ok h with ⟨_, _, s₁, hupdate, _, rfl⟩
          cases withUpdate with
          | false =>
              cases hupdate
              exact ⟨rfl, rfl⟩
          | true =>
              have hkept := massUpdatePools_retains hupdate
              exact ⟨hkept.here, hkept.husky.owner⟩
      | manualMint recipient amount =>
          simp only [exec, manualMint, bind_eq_ok] at h
          rcases h with ⟨_, _, h⟩
          rcases onHusky_eq_ok h with ⟨husky, hmint, rfl⟩
          exact ⟨rfl, (manualMint_counts hmint).2.1⟩
      | transferOwnership newOwner =>
          simp only [exec, transferOwnership, bind_eq_ok, pure_eq_ok] at h
          rcases h with ⟨_, _, _, _, rfl⟩
          exact ⟨rfl, rfl⟩
      | renounceOwnership =>
          simp only [exec, renounceOwnership, bind_eq_ok, pure_eq_ok] at h
          rcases h with ⟨_, _, rfl⟩
          exact ⟨rfl, rfl⟩
      | _ => cases hop

theorem husky_owner_of_reachable {c : Chain} (h : machine.Reachable c) :
    c.state.husky.owner = c.state.here := by
  have hinductive : machine.Inductive (fun _ _ => True)
      fun c => c.state.husky.owner = c.state.here := by
    constructor
    · intro c hinit
      rcases hinit with
        ⟨here, owner, husky, tokens, devaddr, perBlock, start, bps, bonusEnd, howner,
        hstate⟩
      rw [hstate]
      exact howner
    · intro c tx c' hc _ hstep
      rcases mine_eq_ok hstep with ⟨_, _, _, _, hexec⟩
      have hkept := exec_husky_owner hexec
      rw [hkept.1, hkept.2]
      exact hc
  exact hinductive.invariant h

end FairLaunch

/-! ## One transaction -/

namespace Shield

section Steps

variable {msg : FairLaunch.Msg} {sender : Address} {blockNumber : Nat} {c c' : Contracts}
  {op : Op}

theorem callFairLaunch_eq_ok {call : V1Call} {f f' : FairLaunch.State}
    (h : callFairLaunch msg call f = .ok f') :
    call.selector ∈ selectors ∧ FairLaunch.exec msg call.op f = .ok f' := by
  unfold callFairLaunch at h
  split at h
  · rename_i hselector
    exact ⟨hselector, h⟩
  · cases h

/-- What is forwarded is a call of the Shield's own. -/
theorem forward_eq_ok {call : V1Call} (h : forward blockNumber call c = .ok c') :
    call.selector ∈ selectors ∧ c'.1 = c.1 ∧
      FairLaunch.exec { sender := c.1.here, blockNumber } call.op c.2 = .ok c'.2 := by
  simp only [forward, bind_eq_ok, pure_eq_ok] at h
  rcases h with ⟨f, hcall, rfl⟩
  have hreached := callFairLaunch_eq_ok hcall
  exact ⟨hreached.1, rfl, hreached.2⟩

/-- `addPool(uint256,address,bool)` is no function of FairLaunch. -/
theorem addPool_ne_ok {allocPoint : Nat} {stakeToken : Address} {withUpdate : Bool} :
    addPool sender blockNumber allocPoint stakeToken withUpdate c ≠ .ok c' := by
  intro h
  simp only [addPool, bind_eq_ok] at h
  rcases h with ⟨_, _, c₁, hforward, _⟩
  have hnone : 0x7abceffd ∉ selectors := by decide
  exact hnone (forward_eq_ok hforward).1

/-- What a call of the Shield does: it counts what it mints, and names the owner that the log will
tell. -/
structure Spends (op : Op) (c c' : Contracts) : Prop where
  here : c'.1.here = c.1.here
  owner : c'.1.owner = op.newOwner.getD c.1.owner
  mintLimit : c'.1.mintLimit = c.1.mintLimit
  mintCount : c'.1.mintCount = c.1.mintCount + op.minted
  limit : c.1.mintCount ≤ c.1.mintLimit → c'.1.mintCount ≤ c'.1.mintLimit
  fairLaunch_here : c'.2.here = c.2.here
  fairLaunch_owner : c'.2.owner = c.2.owner
  husky_owner : c'.2.husky.owner = c.2.husky.owner
  manualMinted : c'.2.husky.manualMinted = c.2.husky.manualMinted + op.minted
  supply : c.2.husky.erc20.totalSupply ≤ cap → c'.2.husky.erc20.totalSupply ≤ cap
  poolLength : c'.2.poolLength = c.2.poolLength
  stakeToken : ∀ pid, (c'.2.poolInfo pid).stakeToken = (c.2.poolInfo pid).stakeToken

/-- The calls that only pass a setting on. -/
theorem spends_of_forward {call : V1Call} (hminted : op.minted = 0) (howner : op.newOwner = none)
    (hcall : call.op.appoints = false) (h : forward blockNumber call c = .ok c') :
    Spends op c c' := by
  rcases forward_eq_ok h with ⟨_, hshield, hexec⟩
  have hkept := FairLaunch.exec_retains hcall hexec
  constructor
  · rw [hshield]
  · rw [hshield, howner]
    rfl
  · rw [hshield]
  · rw [hshield, hminted]
    rfl
  · rw [hshield]
    exact id
  · exact hkept.here
  · exact hkept.owner
  · exact hkept.husky.owner
  · rw [hkept.husky.manualMinted, hminted]
    rfl
  · exact hkept.husky.supply
  · exact hkept.poolLength
  · exact hkept.stakeToken

/-- A mint counts against the limit. -/
theorem mintWarchest_spends {recipient : Address} {amount : Nat}
    (h : mintWarchest sender blockNumber recipient amount c = .ok c') :
    Spends (.mintWarchest recipient amount) c c' := by
  simp only [mintWarchest, bind_eq_ok, require_eq_ok, SafeMath.add_eq_ok, pure_eq_ok] at h
  rcases h with ⟨_, _, _, ⟨_, rfl⟩, _, hlimit, ⟨shield, f⟩, hforward, _, ⟨_, rfl⟩, rfl⟩
  rcases forward_eq_ok hforward with ⟨_, hshield, hexec⟩
  have hshield : shield = c.1 := hshield
  subst hshield
  have hexec : FairLaunch.manualMint { sender := c.1.here, blockNumber } recipient amount c.2 =
      .ok f := hexec
  simp only [FairLaunch.manualMint, bind_eq_ok] at hexec
  rcases hexec with ⟨_, _, hhusky⟩
  rcases FairLaunch.onHusky_eq_ok hhusky with ⟨husky, hmint, rfl⟩
  have hcounts := manualMint_counts hmint
  exact ⟨rfl, rfl, rfl, rfl, fun _ => hlimit, rfl, rfl, hcounts.2.1, hcounts.2.2.1,
    fun _ => hcounts.2.2.2, rfl, fun _ => rfl⟩

/-- Only the owner calls, and spends from the limit. -/
theorem exec_spends (h : exec sender blockNumber op c = .ok c') :
    c.1.owner = sender ∧ Spends op c c' := by
  cases op with
  | setHuskyPerBlock huskyPerBlock =>
      simp only [exec, setHuskyPerBlock, onlyOwner, bind_eq_ok, require_eq_ok] at h
      rcases h with ⟨_, howner, hforward⟩
      exact ⟨howner, spends_of_forward rfl rfl rfl hforward⟩
  | setBonus bonusMultiplier bonusEndBlock bonusLockUpBps =>
      simp only [exec, setBonus, onlyOwner, bind_eq_ok, require_eq_ok] at h
      rcases h with ⟨_, howner, hforward⟩
      exact ⟨howner, spends_of_forward rfl rfl rfl hforward⟩
  | setPool pid allocPoint withUpdate =>
      simp only [exec, setPool, onlyOwner, bind_eq_ok, require_eq_ok] at h
      rcases h with ⟨_, howner, hforward⟩
      exact ⟨howner, spends_of_forward rfl rfl rfl hforward⟩
  -- the only function that counts and mints
  | mintWarchest recipient amount =>
      have hspends := mintWarchest_spends h
      simp only [exec, mintWarchest, onlyOwner, bind_eq_ok, require_eq_ok] at h
      rcases h with ⟨_, howner, _⟩
      exact ⟨howner, hspends⟩
  -- its forwarded call has no function to reach
  | addPool allocPoint stakeToken withUpdate => exact absurd h addPool_ne_ok
  | transferOwnership newOwner =>
      simp only [exec, transferOwnership, onlyOwner, bind_eq_ok, require_eq_ok, pure_eq_ok] at h
      rcases h with ⟨_, howner, _, _, rfl⟩
      exact ⟨howner, rfl, rfl, rfl, rfl, id, rfl, rfl, rfl, rfl, id, rfl, fun _ => rfl⟩
  | renounceOwnership =>
      simp only [exec, renounceOwnership, onlyOwner, bind_eq_ok, require_eq_ok, pure_eq_ok] at h
      rcases h with ⟨_, howner, rfl⟩
      exact ⟨howner, rfl, rfl, rfl, rfl, id, rfl, rfl, rfl, rfl, id, rfl, fun _ => rfl⟩

end Steps

/-! ## Every run -/

/-- The state `w` of a run from the hand-over `w₀`. -/
structure Guarded (w₀ w : World) : Prop where
  here : w.shield.here = w₀.shield.here
  fairLaunch_here : w.fairLaunch.here = w₀.fairLaunch.here
  fairLaunch_owner : w.fairLaunch.owner = w.shield.here
  husky_owner : w.fairLaunch.husky.owner = w.fairLaunch.here
  shield_owner : w.shield.owner = ownerAt w₀.shield.owner w.log
  mintLimit : w.shield.mintLimit = 8000000 * 10 ^ 18
  limit : w.shield.mintCount ≤ w.shield.mintLimit
  mintCount : w.shield.mintCount = 250000 * 10 ^ 18 + minted w.log
  manualMinted : w.fairLaunch.husky.manualMinted = w.shield.mintCount
  supply : w.fairLaunch.husky.erc20.totalSupply ≤ cap
  lawful : EventLog.Lawful (fun log e => e.sender = ownerAt w₀.shield.owner log) w.log
  poolLength : w.fairLaunch.poolLength = w₀.fairLaunch.poolLength
  stakeToken : ∀ pid,
    (w.fairLaunch.poolInfo pid).stakeToken = (w₀.fairLaunch.poolInfo pid).stakeToken

section Runs

variable {ecrecover : Address → Governance.Signed → Address} {w₀ w w' : World} {tx : Tx}

theorem guarded_init (hinit : (machine ecrecover).init w₀) : Guarded w₀ w₀ := by
  rcases hinit with ⟨c, hreach, hminted, hsupply, hshield, hfairLaunch, hlog⟩
  -- the constants of the constructor
  have hlimit : w₀.shield.mintLimit = 8000000 * 10 ^ 18 := by rw [hshield]
  have hcount : w₀.shield.mintCount = 250000 * 10 ^ 18 := by rw [hshield]
  constructor
  · rfl
  · rfl
  · rw [hfairLaunch]
  · rw [hfairLaunch]
    exact FairLaunch.husky_owner_of_reachable hreach
  · rw [hlog]
    rfl
  · exact hlimit
  · rw [hlimit, hcount]
    decide
  · rw [hlog, hcount]
    rfl
  · rw [hfairLaunch, hcount]
    exact hminted
  · rw [hfairLaunch]
    exact hsupply
  · rw [hlog]
    trivial
  · rfl
  · exact fun _ => rfl

theorem Guarded.of_keepsMint {husky : HuskyToken} {nonces : Address → Nat} (hw : Guarded w₀ w)
    (h : KeepsMint w.fairLaunch.husky husky) :
    Guarded w₀ { w with fairLaunch := w.fairLaunch.setHusky husky, nonces } :=
  ⟨hw.here, hw.fairLaunch_here, hw.fairLaunch_owner, h.owner.trans hw.husky_owner, hw.shield_owner,
    hw.mintLimit, hw.limit, hw.mintCount, h.manualMinted.trans hw.manualMinted, h.supply hw.supply,
    hw.lawful, hw.poolLength, hw.stakeToken⟩

theorem Guarded.of_retains {f : FairLaunch.State} (hw : Guarded w₀ w)
    (h : FairLaunch.Retains w.fairLaunch f) : Guarded w₀ { w with fairLaunch := f } := by
  constructor
  · exact hw.here
  · exact h.here.trans hw.fairLaunch_here
  · exact h.owner.trans hw.fairLaunch_owner
  · show f.husky.owner = f.here
    rw [h.husky.owner, h.here]
    exact hw.husky_owner
  · exact hw.shield_owner
  · exact hw.mintLimit
  · exact hw.limit
  · exact hw.mintCount
  · exact h.husky.manualMinted.trans hw.manualMinted
  · exact h.husky.supply hw.supply
  · exact hw.lawful
  · exact h.poolLength.trans hw.poolLength
  · exact fun pid => (h.stakeToken pid).trans (hw.stakeToken pid)

theorem Guarded.of_spends {sender : Address} {op : Op} {shield : Shield} {f : FairLaunch.State}
    (hw : Guarded w₀ w) (hsender : w.shield.owner = sender)
    (h : Spends op (w.shield, w.fairLaunch) (shield, f)) :
    Guarded w₀ { w with shield, fairLaunch := f, log := { sender, op } :: w.log } := by
  constructor
  · exact h.here.trans hw.here
  · exact h.fairLaunch_here.trans hw.fairLaunch_here
  · show f.owner = shield.here
    rw [h.fairLaunch_owner, h.here]
    exact hw.fairLaunch_owner
  · show f.husky.owner = f.here
    rw [h.husky_owner, h.fairLaunch_here]
    exact hw.husky_owner
  · show shield.owner = op.newOwner.getD (ownerAt w₀.shield.owner w.log)
    rw [h.owner, ← hw.shield_owner]
  · exact h.mintLimit.trans hw.mintLimit
  · exact h.limit hw.limit
  -- what was minted so far is what the log says, and this call's mint
  · show shield.mintCount = 250000 * 10 ^ 18 + (op.minted + minted w.log)
    have hcount : w.shield.mintCount = _ := hw.mintCount
    have hspent : shield.mintCount = w.shield.mintCount + op.minted := h.mintCount
    omega
  · show f.husky.manualMinted = shield.mintCount
    have hminted : w.fairLaunch.husky.manualMinted = w.shield.mintCount := hw.manualMinted
    rw [h.manualMinted, h.mintCount, hminted]
  · exact h.supply hw.supply
  · refine ⟨?_, hw.lawful⟩
    show sender = ownerAt w₀.shield.owner w.log
    rw [← hw.shield_owner]
    exact hsender.symm
  · exact h.poolLength.trans hw.poolLength
  · exact fun pid => (h.stakeToken pid).trans (hw.stakeToken pid)

/-- No transaction mints by hand but through the Shield. -/
theorem step_guarded (hw : Guarded w₀ w) (hstep : (machine ecrecover).step w tx = .ok w') :
    Guarded w₀ w' := by
  simp only [machine, bind_eq_ok, require_eq_ok, pure_eq_ok] at hstep
  rcases hstep with ⟨_, ⟨hshield, hfairLaunch⟩, _, _, w₁, hanswer, rfl⟩
  suffices hw₁ : Guarded w₀ w₁ by
    exact ⟨hw₁.here, hw₁.fairLaunch_here, hw₁.fairLaunch_owner, hw₁.husky_owner, hw₁.shield_owner,
      hw₁.mintLimit, hw₁.limit, hw₁.mintCount, hw₁.manualMinted, hw₁.supply, hw₁.lawful,
      hw₁.poolLength, hw₁.stakeToken⟩
  unfold answer at hanswer
  split at hanswer
  · simp only [bind_eq_ok, pure_eq_ok] at hanswer
    rcases hanswer with ⟨⟨shield, f⟩, hexec, rfl⟩
    rcases exec_spends hexec with ⟨howner, hspends⟩
    exact hw.of_spends howner hspends
  · rename_i op _
    simp only [bind_eq_ok, pure_eq_ok] at hanswer
    rcases hanswer with ⟨f, hexec, rfl⟩
    cases hop : op.appoints with
    | false => exact hw.of_retains (FairLaunch.exec_retains hop hexec)
    | true =>
        -- only the Shield may, which sends no transactions
        have howner := FairLaunch.owner_of_appoints hop hexec
        rw [hw.fairLaunch_owner] at howner
        exact absurd howner.symm hshield
  · simp only [bind_eq_ok, pure_eq_ok] at hanswer
    rcases hanswer with ⟨g, hexec, rfl⟩
    refine hw.of_keepsMint (Governance.exec_keepsMint ?_ hexec)
    show tx.sender ≠ w.fairLaunch.husky.owner
    rw [hw.husky_owner]
    exact hfairLaunch

/-- The warchest is guarded in every state of a run. -/
theorem guarded_of_reachable (hinit : (machine ecrecover).init w₀)
    (h : ((machine ecrecover).startAt w₀).Reachable w) : Guarded w₀ w := by
  have hinductive : ((machine ecrecover).startAt w₀).Inductive (fun _ _ => True) (Guarded w₀) := by
    constructor
    · intro w hw
      cases hw
      exact guarded_init hinit
    · intro w tx w' hw _ hstep
      exact step_guarded hw hstep
  exact hinductive.invariant h

end Runs

/-- In every run from the hand-over on, whoever calls what: FairLaunch stays the owner of HUSKY and
the Shield that of FairLaunch; what was minted by hand is the 250000 of the constructor and what the
log says, together at most 8 million and under the cap; and each call in the log was the Shield's
owner's of its time. -/
theorem warchest_of_reachable (ecrecover : Address → Governance.Signed → Address) (w₀ w : World)
    (hinit : (machine ecrecover).init w₀) (h : ((machine ecrecover).startAt w₀).Reachable w) :
    w.fairLaunch.husky.owner = w.fairLaunch.here ∧ w.fairLaunch.owner = w.shield.here ∧
      w.fairLaunch.husky.manualMinted = 250000 * 10 ^ 18 + minted w.log ∧
      w.fairLaunch.husky.manualMinted ≤ 8000000 * 10 ^ 18 ∧
      w.fairLaunch.husky.erc20.totalSupply ≤ cap ∧
      ∀ later e earlier, w.log = later ++ e :: earlier →
        e.sender = ownerAt w₀.shield.owner earlier := by
  have hw := guarded_of_reachable hinit h
  refine ⟨hw.husky_owner, hw.fairLaunch_owner, hw.manualMinted.trans hw.mintCount, ?_,
    hw.supply, ?_⟩
  · rw [hw.manualMinted, ← hw.mintLimit]
    exact hw.limit
  · intro later e earlier hsplit
    have hlawful := hw.lawful
    rw [hsplit] at hlawful
    exact hlawful.admitted

/-- FairLaunch just deployed at 100, with what the constructor of HUSKY minted. -/
def deployed : FairLaunch.Chain where
  block := 0
  state := FairLaunch.initState 100 50
    { FairLaunch.freshHusky with manualMinted := 250000 * 10 ^ 18 }
    (fun _ => FairLaunch.heldToken) 51 3 0 0 0

/-- The Shield at 70, of account 71, takes it over. -/
def handOver : World where
  shield := { here := 70, owner := 71 }
  fairLaunch := { deployed.state with owner := 70 }
  nonces _ := 0
  block := 0
  log := []

theorem handOver_init (ecrecover : Address → Governance.Signed → Address) :
    (machine ecrecover).init handOver := by
  refine ⟨deployed, .init ⟨100, 50, { FairLaunch.freshHusky with manualMinted := 250000 * 10 ^ 18 },
    fun _ => FairLaunch.heldToken, 51, 3, 0, 0, 0, rfl, rfl⟩, rfl, ?_, rfl, rfl, rfl⟩
  show 0 ≤ cap
  exact Nat.zero_le _

/-- Account 71 mints 1000 to account 1. -/
def mintRun : Result World :=
  ((machine fun _ _ => 0).startAt handOver).run handOver
    [{ sender := 71, blockNumber := 1, timestamp := 1, call := .shield (.mintWarchest 1 1000) }]

theorem warchest_of_mintRun : ∃ w, mintRun = .ok w ∧
    w.fairLaunch.husky.manualMinted = 250000 * 10 ^ 18 + 1000 ∧
    w.fairLaunch.husky.owner = w.fairLaunch.here ∧ w.fairLaunch.owner = w.shield.here := by
  have htest : mintRun.map (fun w => minted w.log) = .ok 1000 := by decide +kernel
  cases hrun : mintRun with
  | error e =>
      rw [hrun] at htest
      cases htest
  | ok w =>
      rw [hrun] at htest
      have hminted : minted w.log = 1000 := Except.ok.inj htest
      have hreach : ((machine fun _ _ => 0).startAt handOver).Reachable w :=
        TSys.run_reachableBy (.init rfl) (fun _ _ _ => trivial) hrun
      have hw := warchest_of_reachable (fun _ _ => 0) handOver w (handOver_init _) hreach
      rw [hminted] at hw
      exact ⟨w, rfl, hw.2.2.1, hw.1, hw.2.1⟩

/-- In every run from the hand-over on, the pools are those of the hand-over, and no call of the
Shield adds one. -/
theorem pools_of_reachable (ecrecover : Address → Governance.Signed → Address) (w₀ w : World)
    (hinit : (machine ecrecover).init w₀) (h : ((machine ecrecover).startAt w₀).Reachable w) :
    w.fairLaunch.poolLength = w₀.fairLaunch.poolLength ∧
      (∀ pid, (w.fairLaunch.poolInfo pid).stakeToken = (w₀.fairLaunch.poolInfo pid).stakeToken) ∧
      ∀ tx w', (∃ allocPoint stakeToken withUpdate,
        tx.call = .shield (.addPool allocPoint stakeToken withUpdate)) →
        (machine ecrecover).step w tx ≠ .ok w' := by
  have hw := guarded_of_reachable hinit h
  refine ⟨hw.poolLength, hw.stakeToken, ?_⟩
  intro tx w' hcall hstep
  rcases hcall with ⟨allocPoint, stakeToken, withUpdate, hcall⟩
  simp only [machine, answer, hcall, bind_eq_ok] at hstep
  rcases hstep with ⟨_, _, _, _, _, ⟨_, hexec, _⟩, _⟩
  exact addPool_ne_ok hexec

theorem pools_of_mintRun : ∃ w, mintRun = .ok w ∧ w.fairLaunch.poolLength = 0 ∧
    (machine fun _ _ => 0).step w
      { sender := 71, blockNumber := 2, timestamp := 2, call := .shield (.addPool 10 102 false) } ≠
        .ok w := by
  have htest : mintRun.isOk = true := by decide +kernel
  cases hrun : mintRun with
  | error e =>
      rw [hrun] at htest
      cases htest
  | ok w =>
      have hreach : ((machine fun _ _ => 0).startAt handOver).Reachable w :=
        TSys.run_reachableBy (.init rfl) (fun _ _ _ => trivial) hrun
      have hw := pools_of_reachable (fun _ _ => 0) handOver w (handOver_init _) hreach
      exact ⟨w, rfl, hw.1, hw.2.2 _ w ⟨10, 102, false, rfl⟩⟩

end Shield

end Huski
