import Huski.MasterChef.Spec

/-!
# Custody of the stakes

For every token the farm holds at least the stakes of the pools that take it, also where two pools
take the same one. An update mints and takes nothing, and a settlement moves the farm's tokens by
the change of the stake (`Settles`). A migrator is code of its own, which has to leave the rest of
what the farm holds; that it brings as much as it takes is checked.
-/

open scoped BigOperators

namespace Huski.MasterChef

open Solidity State Ledgers

variable {n pid amount : Nat} {sender token : Address} {tx : Tx} {s s' : State}

/-- The stakes in a pool. -/
def State.stake (s : State) (pid : Nat) : Nat := ∑ user, (s.userInfo pid user).amount

/-- The stakes in all pools that take a token. -/
def State.staked (s : State) (token : Address) : Nat :=
  ∑ pid ∈ Finset.range s.poolLength, if (s.poolInfo pid).lpToken = token then s.stake pid else 0

/-- Where the contracts are. -/
structure Placed (s : State) : Prop where
  here_ne : s.here ≠ 0
  syrup_ne : s.syrup ≠ 0
  apart : s.here ≠ s.syrup
  cake_ne : s.cake ≠ s.syrup

/-- The farm holds the stakes, and nobody is in a pool that is not there. -/
structure Custody (s : State) : Prop where
  placed : Placed s
  kept : s.Kept
  unlisted : ∀ pid, s.poolLength ≤ pid → s.userInfo pid = fun _ => {}
  held : ∀ token, s.staked token ≤ s.bal token s.here

/-! ## What the stakes depend on -/

theorem staked_congr (hlength : s'.poolLength = s.poolLength)
    (hlp : ∀ pid, (s'.poolInfo pid).lpToken = (s.poolInfo pid).lpToken)
    (huser : s'.userInfo = s.userInfo) : s'.staked token = s.staked token := by
  unfold State.staked State.stake
  rw [hlength, huser]
  simp only [hlp]

/-- A pool that takes a token adds its stakes. -/
theorem stake_le_staked (hpid : pid < s.poolLength) :
    s.stake pid ≤ s.staked (s.poolInfo pid).lpToken := by
  have hone := Finset.single_le_sum
    (f := fun p => if (s.poolInfo p).lpToken = (s.poolInfo pid).lpToken then s.stake p else 0)
    (fun _ _ => Nat.zero_le _) (Finset.mem_range.mpr hpid)
  rw [if_pos rfl] at hone
  exact hone

theorem amount_le_stake (user : Address) : (s.userInfo pid user).amount ≤ s.stake pid :=
  TotalMap.le_sum (s.userInfo pid) UserInfo.amount user

namespace Changes

variable {info : UserInfo} {out into : Flow} (h : Changes sender pid info out into s s')

include h

theorem stake_self : s'.stake pid + (s.userInfo pid sender).amount = s.stake pid + info.amount := by
  unfold State.stake
  rw [h.userInfo]
  simp only [Function.update_self]
  exact TotalMap.sum_update (s.userInfo pid) UserInfo.amount sender info

theorem stake_of_ne {p : Nat} (hp : p ≠ pid) : s'.stake p = s.stake p := by
  unfold State.stake
  rw [h.userInfo, Function.update_of_ne hp]

/-- The stakes of the pool's token change with the entry, those of the others stay. -/
theorem staked (hpid : pid < s.poolLength) (token : Address) :
    s'.staked token +
        (if (s.poolInfo pid).lpToken = token then (s.userInfo pid sender).amount else 0) =
      s.staked token + if (s.poolInfo pid).lpToken = token then info.amount else 0 := by
  have hother : ∀ p ∈ Finset.range s.poolLength, p ≠ pid →
      (if (s.poolInfo p).lpToken = token then s'.stake p else 0) =
        if (s.poolInfo p).lpToken = token then s.stake p else 0 := by
    intro p _ hp
    rw [h.stake_of_ne hp]
  have hsum := TotalMap.sum_replace (Finset.mem_range.mpr hpid) hother
  have hself := h.stake_self
  unfold State.staked
  rw [h.poolLength, h.poolInfo]
  split
  · rename_i htoken
    rw [if_pos htoken, if_pos htoken] at hsum
    omega
  · rename_i htoken
    rw [if_neg htoken, if_neg htoken] at hsum
    omega

/-- A change that moves the farm's tokens as it changes the entry keeps custody. -/
theorem custody (hs : Custody s) (hpid : pid < s.poolLength)
    (hflow : ∀ token,
      (if (s.poolInfo pid).lpToken = token then info.amount else 0) + out token s.here =
        (if (s.poolInfo pid).lpToken = token then (s.userInfo pid sender).amount else 0) +
          into token s.here) : Custody s' where
  placed := by
    obtain ⟨hhere, hsyrup, hapart, hcake⟩ := hs.placed
    constructor
    · rwa [h.here]
    · rwa [h.syrup]
    · rwa [h.here, h.syrup]
    · rwa [h.cake, h.syrup]
  kept := h.kept hs.kept
  unlisted p hp := by
    rw [h.poolLength] at hp
    rw [h.userInfo, Function.update_of_ne (by omega)]
    exact hs.unlisted p hp
  held token := by
    have hstaked := h.staked hpid token
    have hmoved := h.moved token s.here
    have hheld := hs.held token
    have hentry := hflow token
    rw [h.here]
    unfold State.bal at hheld ⊢
    omega

end Changes

/-- What a settlement moves of the farm's tokens. -/
theorem Settles.custody (hs : Custody s) (hsender : sender ≠ s.here) (hpid : pid < s.poolLength)
    (h : Settles sender pid amount s s') : Custody s' := by
  refine Changes.custody h hs hpid ?_
  intro token
  have hapart := hs.placed.apart
  have hreceipt : ∀ v, s.receipt pid sender v token s.here = 0 := by
    intro v
    unfold State.receipt
    split
    · exact single_of_account_ne hsender.symm
    · rfl
  show _ + (single s.cake s.syrup _ token s.here + single _ sender _ token s.here +
      single _ s.here _ token s.here + s.receipt pid sender _ token s.here) =
    _ + (single s.cake sender _ token s.here + single _ sender _ token s.here +
      single _ s.here _ token s.here + s.receipt pid sender _ token s.here)
  rw [single_of_account_ne hapart, single_of_account_ne hsender.symm,
    single_of_account_ne hsender.symm, single_of_account_ne hsender.symm, hreceipt, hreceipt]
  unfold single State.settledInfo
  by_cases htoken : (s.poolInfo pid).lpToken = token
  · simp [htoken, Nat.add_comm]
  · simp [htoken, Ne.symm htoken]

theorem Custody.left (hs : Custody s) (hsender : sender ≠ s.here) (hpid : pid < s.poolLength)
    (h : Changes sender pid { amount := 0, rewardDebt := 0 }
      (single (s.poolInfo pid).lpToken s.here (s.userInfo pid sender).amount)
      (single (s.poolInfo pid).lpToken sender (s.userInfo pid sender).amount) s s') :
    Custody s' := by
  refine h.custody hs hpid ?_
  intro token
  rw [single_of_account_ne hsender.symm]
  unfold single
  by_cases htoken : (s.poolInfo pid).lpToken = token
  · simp [htoken]
  · simp [htoken, Ne.symm htoken]

/-- The same pools and entries, over ledgers that have not less for the farm. -/
theorem Custody.mono (hs : Custody s)
    (hplaces : s'.here = s.here ∧ s'.syrup = s.syrup ∧ s'.cake = s.cake)
    (hlength : s'.poolLength = s.poolLength)
    (hlp : ∀ pid, (s'.poolInfo pid).lpToken = (s.poolInfo pid).lpToken)
    (huser : s'.userInfo = s.userInfo) (hkept : s'.Kept)
    (hheld : ∀ token, s.bal token s.here ≤ s'.bal token s.here) : Custody s' where
  placed := by
    obtain ⟨hhere, hsyrup, hcake⟩ := hplaces
    obtain ⟨h₁, h₂, h₃, h₄⟩ := hs.placed
    constructor
    · rwa [hhere]
    · rwa [hsyrup]
    · rwa [hhere, hsyrup]
    · rwa [hcake, hsyrup]
  kept := hkept
  unlisted p hp := by
    rw [huser]
    exact hs.unlisted p (hlength ▸ hp)
  held token := by
    rw [staked_congr hlength hlp huser, hplaces.1]
    exact (hs.held token).trans (hheld token)

theorem Custody.updated (hs : Custody s) (h : Updated n pid s s') : Custody s' :=
  hs.mono h.places h.poolLength h.lpToken h.userInfo (h.kept hs.kept) fun _ => h.bal_le s.here

theorem Custody.added {allocPoint : Nat} {lpToken : Address} (hs : Custody s) :
    Custody (s.added n allocPoint lpToken) where
  placed := ⟨hs.placed.here_ne, hs.placed.syrup_ne, hs.placed.apart, hs.placed.cake_ne⟩
  kept := hs.kept
  unlisted p hp := hs.unlisted p (Nat.le_of_succ_le hp)
  held token := by
    have hold : ∀ p ∈ Finset.range s.poolLength,
        ((s.added n allocPoint lpToken).poolInfo p).lpToken = (s.poolInfo p).lpToken := by
      intro p hp
      simp [State.added, State.setPoolInfo, (Finset.mem_range.mp hp).ne]
    -- the new pool has no stakes
    have hnew : (s.added n allocPoint lpToken).stake s.poolLength = 0 := by
      refine TotalMap.sum_eq_zero ?_
      intro user
      show (s.userInfo s.poolLength user).amount = 0
      rw [hs.unlisted s.poolLength le_rfl]
    have hsame : (s.added n allocPoint lpToken).staked token = s.staked token := by
      show ∑ p ∈ Finset.range (s.poolLength + 1), _ = _
      rw [Finset.sum_range_succ, hnew, ite_self, Nat.add_zero]
      refine Finset.sum_congr rfl ?_
      intro p hp
      rw [hold p hp]
      rfl
    rw [hsame]
    exact hs.held token

theorem Effect.places (h : Effect tx s s') : s'.here = s.here ∧ s'.syrup = s.syrup := by
  cases h with
  | updated pid hpid h => exact ⟨h.places.1, h.places.2.1⟩
  | appointed => exact ⟨rfl, rfl⟩
  | added => exact ⟨rfl, rfl⟩
  | weighed => exact ⟨rfl, rfl⟩
  | settled pid amount _ hpid h => exact ⟨h.here, h.syrup⟩
  | left pid _ hpid h => exact ⟨h.here, h.syrup⟩
  | called => exact ⟨rfl, rfl⟩

/-- Every effect of a call keeps the stakes in custody. -/
theorem Effect.custody (hs : Custody s) (hsender : tx.sender ≠ s.here) (h : Effect tx s s') :
    Custody s' := by
  cases h with
  | updated pid hpid h => exact hs.updated h
  | appointed =>
      exact hs.mono ⟨rfl, rfl, rfl⟩ rfl (fun _ => rfl) rfl hs.kept fun _ => le_rfl
  | added => exact hs.added
  | weighed hweighs pid allocPoint hpid hle =>
      refine hs.mono ⟨rfl, rfl, rfl⟩ rfl ?_ rfl hs.kept fun _ => le_rfl
      intro p
      by_cases hp : p = pid
      · subst hp
        simp [State.weighed, State.setPoolInfo]
      · simp [State.weighed, State.setPoolInfo, hp]
  | settled pid amount _ hpid h => exact Settles.custody hs hsender hpid h
  | left pid _ hpid h => exact hs.left hsender hpid h
  -- a call of a token by an account that is no keeper: what the two keepers hold only grows
  | called token t h =>
      have hhere := h s.here (.inl rfl) (hs.kept.1 token)
      have hsyrup := h s.syrup (.inr rfl) (hs.kept.2 token)
      refine hs.mono ⟨rfl, rfl, rfl⟩ rfl (fun _ => rfl) rfl
        ⟨hs.kept.1.update hhere.1, hs.kept.2.update hsyrup.1⟩ ?_
      intro token'
      show _ ≤ (Function.update s.tokens token t token').balanceOf s.here
      by_cases htoken : token' = token
      · subst htoken
        rw [Function.update_self]
        exact hhere.2
      · rw [Function.update_of_ne htoken]
        exact le_rfl

theorem Effects.custody (hs : Custody s) (hsender : tx.sender ≠ s.here)
    (h : Effects tx s s') : Custody s' ∧ s'.here = s.here ∧ s'.syrup = s.syrup := by
  induction h with
  | refl => exact ⟨hs, rfl, rfl⟩
  | tail _ heffect ih =>
      obtain ⟨hcustody, hhere, hsyrup⟩ := ih
      obtain ⟨hhere', hsyrup'⟩ := heffect.places
      exact ⟨heffect.custody hcustody (hhere ▸ hsender), hhere'.trans hhere, hsyrup'.trans hsyrup⟩

/-! ## Migration -/

/-- What the farm has to trust a migrator with: no other pool takes the old token, none the new one,
the farm's other tokens and the rewards of SYRUP are not touched, and no approval is left. -/
structure Trusted (pid : Nat) (s s' : State) : Prop where
  alone : ∀ p < s.poolLength, p ≠ pid → (s.poolInfo p).lpToken ≠ (s.poolInfo pid).lpToken
  fresh : ∀ p < s.poolLength, (s.poolInfo p).lpToken ≠ (s'.poolInfo pid).lpToken
  kept : s'.Kept
  others : ∀ token, token ≠ (s.poolInfo pid).lpToken → s.bal token s.here ≤ s'.bal token s.here
  rewards : s.cakeBal ≤ s'.cakeBal

/-- The migrations of a transaction are to be trusted. -/
def MigratesWell (s : State) (tx : Tx) : Prop :=
  ∀ pid s', tx.op = .migrate pid → machine.step s tx = .ok s' → Trusted pid s s'

/-- A migration that keeps the balance keeps the stakes in custody. -/
theorem Custody.migrated {lpToken : Address} {tokens : Ledgers} (hs : Custody s)
    (hpid : pid < s.poolLength)
    (hbal : s.bal (s.poolInfo pid).lpToken s.here = (tokens lpToken).balanceOf s.here)
    (htrusted : Trusted pid s (s.migrated pid lpToken tokens)) :
    Custody (s.migrated pid lpToken tokens) where
  placed := ⟨hs.placed.here_ne, hs.placed.syrup_ne, hs.placed.apart, hs.placed.cake_ne⟩
  kept := htrusted.kept
  unlisted := hs.unlisted
  held token := by
    have hpool : ∀ p, ((s.migrated pid lpToken tokens).poolInfo p).lpToken =
        if p = pid then lpToken else (s.poolInfo p).lpToken := by
      intro p
      by_cases hp : p = pid
      · subst hp
        simp [State.migrated, State.setPoolInfo]
      · simp [State.migrated, State.setPoolInfo, hp]
    have hfresh : ∀ p < s.poolLength, (s.poolInfo p).lpToken ≠ lpToken := by
      intro p hp
      have hne := htrusted.fresh p hp
      rwa [hpool, if_pos rfl] at hne
    have hterms : ∀ p ∈ Finset.range s.poolLength, p ≠ pid →
        (if ((s.migrated pid lpToken tokens).poolInfo p).lpToken = token then
            (s.migrated pid lpToken tokens).stake p else 0) =
          if (s.poolInfo p).lpToken = token then s.stake p else 0 := by
      intro p _ hp
      rw [hpool, if_neg hp]
      rfl
    have hsum : (s.migrated pid lpToken tokens).staked token + _ = s.staked token + _ :=
      TotalMap.sum_replace (Finset.mem_range.mpr hpid) hterms
    rw [hpool, if_pos rfl] at hsum
    change _ = _ + (if lpToken = token then s.stake pid else 0) at hsum
    show _ ≤ (tokens token).balanceOf s.here
    by_cases hnew : lpToken = token
    · -- the stakes of the pool are all that is in the new token
      subst hnew
      have hnone : s.staked lpToken = 0 := by
        refine Finset.sum_eq_zero ?_
        intro p hp
        rw [if_neg (hfresh p (Finset.mem_range.mp hp))]
      have hheld := (stake_le_staked hpid).trans (hs.held _)
      rw [if_pos rfl] at hsum
      omega
    · rw [if_neg hnew] at hsum
      by_cases hold : (s.poolInfo pid).lpToken = token
      · -- nobody is left in the old one
        subst hold
        have honly : s.staked (s.poolInfo pid).lpToken = s.stake pid := by
          have hone := Finset.sum_eq_single_of_mem
            (f := fun p =>
              if (s.poolInfo p).lpToken = (s.poolInfo pid).lpToken then s.stake p else 0)
            pid (Finset.mem_range.mpr hpid)
            fun p hp hne => if_neg (htrusted.alone p (Finset.mem_range.mp hp) hne)
          rw [if_pos rfl] at hone
          exact hone
        rw [if_pos rfl] at hsum
        omega
      · rw [if_neg hold] at hsum
        have hheld := (hs.held token).trans (htrusted.others token (Ne.symm hold))
        change _ ≤ (tokens token).balanceOf s.here at hheld
        omega

/-- A migrator that takes all that the farm has of a token and gives it as much of another one. -/
def oneToOne (here migrator newToken : Address) : Migrator := fun lpToken tokens => do
  let bal := (tokens lpToken).balanceOf here
  let old ← BEP20.transferFrom (tokens lpToken) migrator here migrator bal
  let tokens := Function.update tokens lpToken old
  let new ← BEP20._mint (tokens newToken) here bal
  return (Function.update tokens newToken new, newToken)

/-- An approval that is used up leaves the ledger sound. -/
theorem sound_taken {here migrator dst : Address} {t t₁ t₂ : ERC20} {amount : Nat}
    (h : t.Sound here) (happrove : t._approve here migrator amount = .ok t₁)
    (htake : t₁.transferFrom migrator here dst amount = .ok t₂) : t₂.Sound here where
  backed := (h.backed.approve happrove).transferFrom htake
  supply_lt := by
    rw [ERC20.totalSupply_transferFrom htake, ERC20.totalSupply_approve happrove]
    exact h.supply_lt
  unapproved spender := by
    rw [(ERC20.allowance_transferFrom htake).2, ERC20.allowance_approve happrove,
      Function.update_self, Function.update_self]
    by_cases hspender : spender = migrator
    · rw [hspender, Function.update_self, Function.update_self, Nat.sub_self]
    · rw [Function.update_of_ne hspender, Function.update_of_ne hspender]
      exact h.unapproved spender

/-- It can be trusted where no other pool takes the old token and none the new one. -/
theorem oneToOne_trusted {newToken : Address} (hs : Custody s)
    (hcake : (s.poolInfo pid).lpToken ≠ s.cake)
    (halone : ∀ p < s.poolLength, p ≠ pid → (s.poolInfo p).lpToken ≠ (s.poolInfo pid).lpToken)
    (hfresh : ∀ p < s.poolLength, (s.poolInfo p).lpToken ≠ newToken)
    (h : migrate (oneToOne s.here s.migrator newToken) pid s = .ok s') : Trusted pid s s' := by
  simp only [migrate, safeApprove, oneToOne, bind_eq_ok, pure_eq_ok, BEP20.transferFrom_eq_ok,
    BEP20.mint_eq_ok] at h
  obtain ⟨_, _, pool, hpool, s₁, ⟨_, _, happrove⟩, _, ⟨old, htake, new, hmint, rfl⟩, _, _, rfl⟩ := h
  obtain ⟨hpid, rfl⟩ := poolAt_eq_ok hpool
  obtain ⟨t, hallowed, rfl⟩ := onToken_eq_ok happrove
  rw [BEP20.approve_eq_ok] at hallowed
  have hnew : newToken ≠ (s.poolInfo pid).lpToken := (hfresh pid hpid).symm
  simp only [State.setToken, Function.update_self, Function.update_idem] at htake hmint
  rw [ERC20.balanceOf_approve hallowed] at htake
  rw [Function.update_of_ne hnew] at hmint
  -- the new tokens are minted to the farm, and the old ones leave it
  have hhere := (hs.kept.1 newToken).keeps_mint hmint
  have hsyrup := (hs.kept.2 newToken).keeps_mint hmint
  have hold : old.Sound s.here := sound_taken (hs.kept.1 _) hallowed htake
  have hold' : old.Sound s.syrup :=
    (((hs.kept.2 _).keeps_approve hs.placed.apart.symm hallowed).1.keeps_transferFrom htake).1
  -- one token for one: the new balance is what the farm held of the old
  have htrusted : Trusted pid s (s.migrated pid newToken
      (Function.update (Function.update s.tokens (s.poolInfo pid).lpToken old) newToken new)) := by
    refine ⟨halone, ?_, ⟨(hs.kept.1.update hold).update hhere.1,
      (hs.kept.2.update hold').update hsyrup.1⟩, ?_, ?_⟩
    · intro p hp
      simpa [State.migrated, State.setPoolInfo] using hfresh p hp
    -- every other token stays
    · intro token htoken
      show _ ≤ (Function.update (Function.update s.tokens _ old) newToken new token).balanceOf
        s.here
      by_cases hgets : token = newToken
      · subst hgets
        rw [Function.update_self]
        exact hhere.2
      · rw [Function.update_of_ne hgets, Function.update_of_ne htoken]
        exact le_rfl
    · show _ ≤ (Function.update (Function.update s.tokens _ old) newToken new s.cake).balanceOf
        s.syrup
      by_cases hgets : s.cake = newToken
      · rw [hgets, Function.update_self, State.cakeBal, hgets]
        exact hsyrup.2
      · rw [Function.update_of_ne hgets, Function.update_of_ne hcake.symm]
        exact le_rfl
  simpa only [State.migrated, State.setToken, State.setPoolInfo, Function.update_idem]
    using htrusted

theorem migratesWell_oneToOne {newToken sender : Address} (hs : Custody s)
    (hcake : (s.poolInfo pid).lpToken ≠ s.cake)
    (halone : ∀ p < s.poolLength, p ≠ pid → (s.poolInfo p).lpToken ≠ (s.poolInfo pid).lpToken)
    (hfresh : ∀ p < s.poolLength, (s.poolInfo p).lpToken ≠ newToken) :
    MigratesWell s { sender, blockNumber := n, migrator := oneToOne s.here s.migrator newToken,
                     op := .migrate pid } := by
  intro p s' hop hstep
  obtain rfl : pid = p := Op.migrate.inj hop
  obtain ⟨_, _, hexec⟩ := step_eq_ok hstep
  exact oneToOne_trusted hs hcake halone hfresh hexec

/-- The stakes are in custody in every state of a run that migrates well. -/
theorem custody_inductive : machine.Inductive MigratesWell Custody where
  init s h := by
    obtain ⟨here, cake, syrup, owner, devaddr, cakePerBlock, startBlock, tokens, rfl, hhere, hapart,
      hsyrup, hcake, hsound⟩ := h
    refine ⟨⟨hhere, hsyrup, hapart, hcake⟩, ⟨fun t => (hsound t).1, fun t => (hsound t).2⟩,
      fun _ _ => rfl, ?_⟩
    intro token
    -- nothing is staked at the start
    have hnone : State.staked (initState here cake syrup owner devaddr cakePerBlock startBlock
        tokens) token = 0 := by
      refine Finset.sum_eq_zero ?_
      intro p _
      have hstake : State.stake (initState here cake syrup owner devaddr cakePerBlock startBlock
          tokens) p = 0 := TotalMap.sum_eq_zero fun _ => rfl
      rw [hstake, ite_self]
    rw [hnone]
    exact Nat.zero_le _
  step s tx s' hs hwell h := by
    obtain ⟨hhere, hsyrup, hexec⟩ := step_eq_ok h
    by_cases hop : ∀ pid, tx.op ≠ .migrate pid
    · exact (Effects.custody hs hhere (exec_effects hhere hsyrup hop hexec)).1
    -- a migration, which the hypothesis trusts
    · obtain ⟨pid, hop⟩ := not_forall_not.mp hop
      have htrusted := hwell pid s' hop h
      simp only [exec, hop] at hexec
      obtain ⟨_, hpid, lpToken, tokens, hbal, rfl⟩ := migrate_eq_ok hexec
      exact hs.migrated hpid hbal htrusted

/-! ## Leaving -/

/-- Who has a stake gets it, whatever became of the rewards. -/
theorem Custody.emergencyWithdraw_isOk (hs : Custody s) (hsender : sender ≠ 0)
    (hpid : pid < s.poolLength) : ∃ s', emergencyWithdraw sender pid s = .ok s' := by
  have hheld : (s.userInfo pid sender).amount ≤ s.bal (s.poolInfo pid).lpToken s.here :=
    ((amount_le_stake sender).trans (stake_le_staked hpid)).trans (hs.held _)
  obtain ⟨t, htransfer⟩ := (hs.kept.1 (s.poolInfo pid).lpToken).transfer_isOk hs.placed.here_ne
    hsender hheld
  have hpool : s.poolAt pid = .ok (s.poolInfo pid) := if_pos hpid
  simp only [emergencyWithdraw, State.onToken, bind_eq_ok, pure_eq_ok]
  exact ⟨_, _, hpool, _, ⟨t, BEP20.transfer_eq_ok.mpr htransfer, rfl⟩, rfl⟩

/-- In every run whose migrations are to be trusted the farm holds the stakes of every token, and
every account can leave with its stake, in any state and order. -/
theorem stakes_held (s : State) (hreach : machine.ReachableBy MigratesWell s) :
    (∀ token, s.staked token ≤ s.bal token s.here) ∧
      ∀ tx pid, tx.op = .emergencyWithdraw pid → pid < s.poolLength →
        tx.sender ≠ 0 → tx.sender ≠ s.here → tx.sender ≠ s.syrup →
        ∃ s', machine.step s tx = .ok s' ∧ (s'.userInfo pid tx.sender).amount = 0 ∧
          s'.bal (s.poolInfo pid).lpToken tx.sender =
            s.bal (s.poolInfo pid).lpToken tx.sender + (s.userInfo pid tx.sender).amount := by
  have hs := custody_inductive.invariant hreach
  refine ⟨hs.held, ?_⟩
  intro tx pid hop hpid hzero hhere hsyrup
  obtain ⟨s', hleaves⟩ := hs.emergencyWithdraw_isOk hzero hpid
  have hstep : machine.step s tx = .ok s' := by
    simp only [machine, step, exec, hop, bind_eq_ok, require_eq_ok]
    exact ⟨(), ⟨hhere, hsyrup⟩, hleaves⟩
  obtain ⟨_, hleft⟩ := emergencyWithdraw_eq_ok hleaves
  refine ⟨s', hstep, ?_, ?_⟩
  · rw [hleft.userInfo_self]
  · have hmoved := hleft.moved (s.poolInfo pid).lpToken tx.sender
    rw [single_self, single_of_account_ne hhere, Nat.add_zero] at hmoved
    exact hmoved

/-- A transaction that migrates nothing. -/
def keepsTokens (_ : State) (tx : Tx) : Bool :=
  match tx.op with
  | .migrate _ => false
  | _ => true

theorem migratesWell_of_keepsTokens (s : State) (tx : Tx) (h : keepsTokens s tx = true) :
    MigratesWell s tx := by
  intro pid s' hop
  unfold keepsTokens at h
  rw [hop] at h
  cases h

/-- The migration of the pool 1 to a new token, as anybody may ask for it. -/
def migrateTx (blockNumber : Nat) (newToken : Address) : Tx where
  sender := 4
  blockNumber
  migrator := oneToOne 100 105 newToken
  op := .migrate 1

/-- The farm at 100 with the migrator 105, whose only pools are those of CAKE and of the LP token
110. -/
def oneLp (s : State) : Bool :=
  s.here = 100 ∧ s.migrator = 105 ∧ s.poolLength = 2 ∧ (s.poolInfo 0).lpToken = s.cake ∧
    (s.poolInfo 1).lpToken = 110 ∧ s.cake = 101

theorem migratesWell_migrateTx {newToken : Address} (hs : Custody s) (h : oneLp s = true)
    (hnew : newToken ≠ 101 ∧ newToken ≠ 110) : MigratesWell s (migrateTx n newToken) := by
  obtain ⟨hhere, hmigrator, hlength, hstaking, hlp, hcake⟩ := of_decide_eq_true h
  have hpools : ∀ p < s.poolLength, p = 0 ∨ p = 1 := by
    intro p hp
    omega
  unfold migrateTx
  rw [← hhere, ← hmigrator]
  refine migratesWell_oneToOne hs (by rw [hlp, hcake]; decide) ?_ ?_
  · intro p hp hne
    obtain rfl : p = 0 := (hpools p hp).resolve_right hne
    rw [hstaking, hlp, hcake]
    decide
  · intro p hp
    rcases hpools p hp with rfl | rfl
    · rw [hstaking, hcake]
      exact hnew.1.symm
    · rw [hlp]
      exact hnew.2.symm

/-- Accounts 1 and 2 stake 20 and 10 of an LP token, the pool is migrated to another one, and
account 1 leaves with 20 of that. -/
theorem stakes_held_two : ∃ s, machine.ReachableBy MigratesWell s ∧ (s.poolInfo 1).lpToken = 111 ∧
    s.staked 111 ≤ s.bal 111 100 ∧ (s.userInfo 1 1).amount = 20 ∧ ∃ s', machine.step s
      { sender := 1, blockNumber := 9, op := .emergencyWithdraw 1 } = .ok s' ∧
        (s'.userInfo 1 1).amount = 0 ∧ s'.bal 111 1 = s.bal 111 1 + (s.userInfo 1 1).amount := by
  have hrun : (machine.guarded keepsTokens).lastStep (freshState 40)
      [{ sender := 103, blockNumber := 1, op := .add 600 110 false },
        { sender := 103, blockNumber := 1, op := .setMigrator 105 },
        { sender := 1, blockNumber := 2, op := .mintLp 110 1 20 },
        { sender := 1, blockNumber := 2, op := .approve 110 100 20 },
        { sender := 1, blockNumber := 3, op := .deposit 1 20 },
        { sender := 2, blockNumber := 4, op := .mintLp 110 2 10 },
        { sender := 2, blockNumber := 4, op := .approve 110 100 10 }]
      { sender := 2, blockNumber := 5, op := .deposit 1 10 }
      (fun _ s => oneLp s ∧ machine.lastStep s [] (migrateTx 6 111) fun _ s' => s'.here = 100 ∧
        s'.syrup = 102 ∧ 1 < s'.poolLength ∧ (s'.poolInfo 1).lpToken = 111 ∧
        (s'.userInfo 1 1).amount = 20) = true := by
    decide +kernel
  obtain ⟨s₁, s₀, hreach, hstep, htest⟩ := TSys.lastStep_reachable
    (M := machine.guarded keepsTokens) (freshState_init 40) hrun
  obtain ⟨hlp₀, hnext⟩ := of_decide_eq_true htest
  have hreach := TSys.reachableBy_of_guarded migratesWell_of_keepsTokens (hreach.step trivial hstep)
  obtain ⟨s, hmigrate, htest⟩ := TSys.lastStep_nil hnext
  obtain ⟨hhere, hsyrup, hpid, hlp, hamount⟩ := of_decide_eq_true htest
  -- the migration between the deposits and the emergency withdrawal
  have hwell : MigratesWell s₀ (migrateTx 6 111) :=
    migratesWell_migrateTx (custody_inductive.invariant hreach) hlp₀ (by decide)
  have hreach := hreach.step hwell hmigrate
  obtain ⟨hheld, hleave⟩ := stakes_held s hreach
  rw [← hhere, ← hlp]
  refine ⟨s, hreach, rfl, hheld _, hamount, hleave _ 1 rfl hpid ?_ ?_ ?_⟩
  · decide
  · rw [hhere]
    decide
  · rw [hsyrup]
    decide

end Huski.MasterChef
