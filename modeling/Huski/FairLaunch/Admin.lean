import Huski.FairLaunch.Payment

/-!
# Administrative changes

`setBonus`, `setHuskyPerBlock` and `addPool` change what the blocks since a pool's
`lastRewardBlock` are worth, because nothing settles the pools first. And `setBonus` changes the
part of a bonus that is locked, also of a bonus for blocks long past: a rate that is too high stops
the harvest. The changes are not retroactive exactly where no pool has such blocks to accrue and
nobody who could harvest has a bonus that can be stopped.
-/

namespace Huski.FairLaunch

open Solidity State

/-! ## The reward of the blocks so far -/

/-- `accHuskyPerShare` as an update at block `n` would leave it. -/
def currentAcc (n pid : Nat) (s : State) : Result Nat :=
  if n > (s.poolInfo pid).lastRewardBlock ∧ s.stakeBalance (s.poolInfo pid).stakeToken ≠ 0 then do
    let multiplier ← getMultiplier (s.poolInfo pid).lastRewardBlock n s
    let reward ← huskyReward (s.poolInfo pid) multiplier s
    addPerShare (s.poolInfo pid).accHuskyPerShare reward
      (s.stakeBalance (s.poolInfo pid).stakeToken)
  else .ok (s.acc pid)

/-- The harvest of `user` in block `n` succeeds and pays `v`. -/
def HarvestPays (n pid : Nat) (user : Address) (s : State) (v : Nat) : Prop :=
  ∃ s₁ s', updatePool n pid s = .ok s₁ ∧
    harvest { sender := user, blockNumber := n } pid s = .ok s' ∧ v = s₁.pending pid user

/-- No pool has blocks up to `n` to accrue. -/
def NothingOwed (n : Nat) (s : State) : Prop :=
  ∀ pid < s.poolLength, n ≤ (s.poolInfo pid).lastRewardBlock ∨
    s.stakeBalance (s.poolInfo pid).stakeToken = 0

/-- HUSKY locks the bonus of everyone whose harvest could go through, at whatever rate. -/
def LocksCovered (n : Nat) (s : State) : Prop :=
  ∀ pid < s.poolLength, ∀ user husky, Payable n pid user s husky → Locks pid user s husky 0 →
    ∀ bps < wordSize, Locks pid user s husky bps

section Pending

variable {n pid : Nat} {user : Address} {s s' : State}

theorem pendingHusky_eq (hpid : pid < s.poolLength) :
    pendingHusky n pid user s = currentAcc n pid s >>= fun acc =>
      earned (s.userInfo pid user).amount acc (s.userInfo pid user).rewardDebt := by
  have hpool : s.poolAt pid = .ok (s.poolInfo pid) := if_pos hpid
  unfold pendingHusky currentAcc
  rw [hpool]
  by_cases hbehind : n > (s.poolInfo pid).lastRewardBlock ∧
      s.stakeBalance (s.poolInfo pid).stakeToken ≠ 0
  · simp only [if_pos hbehind, bind_assoc]
    exact if_pos hbehind
  · simp only [if_neg hbehind]
    exact if_neg hbehind

theorem currentAcc_idle (h : n ≤ (s.poolInfo pid).lastRewardBlock ∨
    s.stakeBalance (s.poolInfo pid).stakeToken = 0) : currentAcc n pid s = .ok (s.acc pid) := by
  unfold currentAcc
  rw [if_neg]
  rintro ⟨hbehind, hstaked⟩
  rcases h with h | h
  · omega
  · exact hstaked h

/-- A harvest does not read when the pools were updated. -/
theorem sameClaim_updated (p : Nat) : SameClaim p user s
    (s.setPoolInfo pid { s.poolInfo pid with lastRewardBlock := n }) := by
  refine ⟨rfl, rfl, rfl, acc_empty p, til_empty p, ?_, rfl, rfl, rfl⟩
  by_cases hp : p = pid
  · subst hp
    simp [State.setPoolInfo]
  · simp [State.setPoolInfo, hp]

/-- Nor that there is a new pool. -/
theorem sameClaim_added {p allocPoint : Nat} {stakeToken : Address} (hp : p < s.poolLength) :
    SameClaim p user s (s.added n allocPoint stakeToken) := by
  have hold : (s.added n allocPoint stakeToken).poolInfo p = s.poolInfo p := by
    simp [State.added, State.setPoolInfo, hp.ne]
  refine ⟨rfl, rfl, rfl, ?_, ?_, ?_, rfl, rfl, rfl⟩
  · unfold State.acc
    rw [hold]
  · unfold State.til
    rw [hold]
  · rw [hold]

/-- An update of a pool without blocks to accrue changes nothing that a harvest reads. -/
theorem updatePool_idle (user : Address) (hpid : pid < s.poolLength)
    (hidle : n ≤ (s.poolInfo pid).lastRewardBlock ∨
      s.stakeBalance (s.poolInfo pid).stakeToken = 0) :
    ∃ s₁, updatePool n pid s = .ok s₁ ∧ SameClaim pid user s s₁ ∧
      s₁.bonusLockUpBps = s.bonusLockUpBps ∧ pid < s₁.poolLength := by
  have hpool : s.poolAt pid = .ok (s.poolInfo pid) := if_pos hpid
  by_cases hcurrent : n ≤ (s.poolInfo pid).lastRewardBlock
  · refine ⟨s, ?_, ⟨rfl, rfl, rfl, rfl, rfl, rfl, rfl, rfl, rfl⟩, rfl, hpid⟩
    exact bind_eq_ok.mpr ⟨_, hpool, if_pos hcurrent⟩
  · have hempty := hidle.resolve_left hcurrent
    refine ⟨s.setPoolInfo pid { s.poolInfo pid with lastRewardBlock := n }, ?_,
      sameClaim_updated pid, rfl, hpid⟩
    refine bind_eq_ok.mpr ⟨_, hpool, ?_⟩
    rw [if_neg hcurrent, if_pos hempty]
    rfl

/-- What a harvest from a pool without blocks to accrue pays, and exactly when it does. -/
theorem harvestPays_iff {v : Nat} (hpid : pid < s.poolLength)
    (hidle : n ≤ (s.poolInfo pid).lastRewardBlock ∨
      s.stakeBalance (s.poolInfo pid).stakeToken = 0) :
    HarvestPays n pid user s v ↔ v = s.pending pid user ∧
      ∃ husky, Payable n pid user s husky ∧ Locks pid user s husky s.bonusLockUpBps := by
  rcases updatePool_idle user hpid hidle with ⟨s₁, hupdate, hsame, hbps, hpid₁⟩
  have hsettled := settled_harvest_isOk_iff n user hpid₁
  rw [hbps] at hsettled
  constructor
  · rintro ⟨s₂, s', hupdated, hharvest, rfl⟩
    cases hupdate.symm.trans hupdated
    simp only [harvest, hupdate, bind_eq_ok] at hharvest
    rcases hharvest with ⟨_, hsettles, hrest⟩
    cases hsettles
    rcases hsettled.mp ⟨s', bind_eq_ok.mpr hrest⟩ with ⟨husky, hpays, hlocks⟩
    exact ⟨hsame.pending, husky, hpays.congr hsame.symm, hlocks.congr hsame.symm⟩
  · rintro ⟨rfl, husky, hpays, hlocks⟩
    rcases hsettled.mpr ⟨husky, hpays.congr hsame, hlocks.congr hsame⟩ with ⟨s', hharvest⟩
    exact ⟨s₁, s', hupdate, bind_eq_ok.mpr ⟨s₁, hupdate, hharvest⟩, hsame.pending.symm⟩

end Pending

/-! ## Administrative runs -/

/-- The three functions that change the emission; their arguments are words. -/
def Op.isAdmin : Op → Prop
  | .setBonus bonusMultiplier bonusEndBlock bonusLockUpBps =>
      bonusMultiplier < wordSize ∧ bonusEndBlock < wordSize ∧ bonusLockUpBps < wordSize
  | .setHuskyPerBlock huskyPerBlock => huskyPerBlock < wordSize
  | .addPool allocPoint _ _ => allocPoint < wordSize
  | _ => False

/-- Some account calls one of the three functions in block `n`. -/
structure Tx.Administers (n : Nat) (tx : Tx) : Prop where
  sender : tx.sender ≠ 0
  block : tx.blockNumber = n
  admin : tx.op.isAdmin

/-- In every run of administrative transactions at block `n`, every user's reward for the
blocks up to `n` stays the same: what is viewed, and what a harvest pays, if it pays at all. -/
def NotRetroactive (n : Nat) (c : Chain) : Prop :=
  ∀ txs c', (∀ tx ∈ txs, tx.Administers n) →
    machine.run c txs = .ok c' → ∀ pid < c.state.poolLength, ∀ user,
      (pendingHusky n pid user c'.state).toOption =
        (pendingHusky n pid user c.state).toOption ∧
      ∀ v, HarvestPays n pid user c'.state v ↔ HarvestPays n pid user c.state v

/-- Nothing that `s₀` owes has changed, and nothing is owed for blocks up to `n`. -/
structure Frozen (n : Nat) (s₀ s : State) : Prop where
  same : ∀ p < s₀.poolLength, ∀ user, SameClaim p user s₀ s
  poolLength : s₀.poolLength ≤ s.poolLength
  idle : NothingOwed n s
  word : s.bonusLockUpBps < wordSize

section Frozen

variable {n : Nat} {s₀ s s' : State} {msg : Msg}

theorem owner_of_admin {op : Op} (hadmin : op.isAdmin) (h : exec msg op s = .ok s') :
    s.owner = msg.sender := by
  cases op with
  | setBonus =>
      simp only [exec, setBonus, onlyOwner, bind_eq_ok, require_eq_ok] at h
      obtain ⟨_, howner, _⟩ := h
      exact howner
  | setHuskyPerBlock =>
      simp only [exec, setHuskyPerBlock, onlyOwner, bind_eq_ok, require_eq_ok] at h
      obtain ⟨_, howner, _⟩ := h
      exact howner
  | addPool => exact (addPool_eq_ok h).1
  | _ => cases hadmin

/-- With nothing owed an update at most moves `lastRewardBlock`. -/
theorem Frozen.updated {pid : Nat} (hs : Frozen n s₀ s) (hpid : pid < s.poolLength)
    (h : Updated n pid s s') : Frozen n s₀ s' := by
  cases h with
  | current _ => exact hs
  | empty hbehind hempty =>
      refine ⟨fun p hp user => (hs.same p hp user).trans (sameClaim_updated p), hs.poolLength,
        fun p hp => ?_, hs.word⟩
      by_cases heq : p = pid
      · subst heq
        exact .inl (by simp [State.setPoolInfo])
      · simpa [State.setPoolInfo, State.stakeBalance, heq] using hs.idle p hp
  | accrued haccrues =>
      rcases hs.idle pid hpid with hcurrent | hempty
      · exact absurd haccrues.behind (Nat.not_lt.mpr hcurrent)
      · exact absurd (haccrues.supply.trans hempty) haccrues.staked

theorem Frozen.added {allocPoint : Nat} {stakeToken : Address} (hs : Frozen n s₀ s) :
    Frozen n s₀ (s.added n allocPoint stakeToken) := by
  refine ⟨fun p hp user => ?_, hs.poolLength.trans (Nat.le_succ _), fun p hp => ?_, hs.word⟩
  · exact (hs.same p hp user).trans (sameClaim_added (hp.trans_le hs.poolLength))
  · by_cases heq : p = s.poolLength
    · subst heq
      exact .inl (by simp [State.added, State.setPoolInfo])
    · have hp : p < s.poolLength := Nat.lt_of_le_of_ne (Nat.lt_succ_iff.mp hp) heq
      simpa [State.added, State.setPoolInfo, State.stakeBalance, heq] using hs.idle p hp

theorem Frozen.exec {op : Op} (hs : Frozen n s₀ s) (hn : msg.blockNumber = n)
    (hadmin : op.isAdmin) (h : exec msg op s = .ok s') : Frozen n s₀ s' := by
  subst hn
  cases op with
  | setBonus multiplier endBlock bps =>
      simp only [FairLaunch.exec, setBonus, bind_eq_ok, pure_eq_ok] at h
      obtain ⟨_, _, _, _, _, _, rfl⟩ := h
      refine ⟨fun p hp user => (hs.same p hp user).trans ?_, hs.poolLength, hs.idle, hadmin.2.2⟩
      exact ⟨rfl, rfl, rfl, rfl, rfl, rfl, rfl, rfl, rfl⟩
  | setHuskyPerBlock =>
      simp only [FairLaunch.exec, setHuskyPerBlock, bind_eq_ok, pure_eq_ok] at h
      obtain ⟨_, _, rfl⟩ := h
      refine ⟨fun p hp user => (hs.same p hp user).trans ?_, hs.poolLength, hs.idle, hs.word⟩
      exact ⟨rfl, rfl, rfl, rfl, rfl, rfl, rfl, rfl, rfl⟩
  | addPool allocPoint stakeToken withUpdate =>
      obtain ⟨_, _, s₁, hupdate, _, rfl⟩ := addPool_eq_ok h
      refine Frozen.added ?_
      cases withUpdate with
      | true => exact massUpdatePools_induct hupdate hs fun _ _ _ ht hpid => ht.updated hpid
      | false =>
          cases hupdate
          exact hs
  | _ => exact hadmin.elim

theorem Frozen.run {c c' : Chain} {txs : List Tx} (hs : Frozen n s₀ c.state)
    (hadmin : ∀ tx ∈ txs, tx.Administers n) (hrun : machine.run c txs = .ok c') :
    Frozen n s₀ c'.state := by
  induction txs generalizing c with
  | nil =>
      cases hrun
      exact hs
  | cons tx rest ih =>
      simp only [TSys.run, bind_eq_ok] at hrun
      obtain ⟨c₁, hstep, hrest⟩ := hrun
      obtain ⟨_, _, _, _, hexec⟩ := mine_eq_ok hstep
      have htx := hadmin tx List.mem_cons_self
      exact ih (hs.exec htx.block htx.admin hexec)
        (fun tx htx => hadmin tx (List.mem_cons_of_mem _ htx)) hrest

theorem Frozen.pendingHusky {pid : Nat} {user : Address} (hs : Frozen n s₀ s)
    (hidle : NothingOwed n s₀) (hpid : pid < s₀.poolLength) :
    FairLaunch.pendingHusky n pid user s = FairLaunch.pendingHusky n pid user s₀ := by
  have hpid' := hpid.trans_le hs.poolLength
  have hsame := hs.same pid hpid user
  rw [pendingHusky_eq hpid, pendingHusky_eq hpid', currentAcc_idle (hs.idle pid hpid'),
    currentAcc_idle (hidle pid hpid), hsame.info, hsame.acc]

/-- Whoever has nothing to fear from the rate of the lock is paid the same. -/
theorem Frozen.harvestPays_iff {pid : Nat} {user : Address} {v : Nat} (hs : Frozen n s₀ s)
    (hidle : NothingOwed n s₀) (hword : s₀.bonusLockUpBps < wordSize)
    (hlocks : LocksCovered n s₀) (hpid : pid < s₀.poolLength) :
    HarvestPays n pid user s v ↔ HarvestPays n pid user s₀ v := by
  have hpid' := hpid.trans_le hs.poolLength
  have hsame := hs.same pid hpid user
  rw [FairLaunch.harvestPays_iff hpid (hidle pid hpid),
    FairLaunch.harvestPays_iff hpid' (hs.idle pid hpid'), hsame.pending]
  apply and_congr_right'
  constructor
  · rintro ⟨husky, hpays, hlock⟩
    have hpays := hpays.congr hsame.symm
    have hlock := hlock.congr hsame.symm
    exact ⟨husky, hpays, hlocks pid hpid user husky hpays (hlock.of_le (Nat.zero_le _)) _ hword⟩
  · rintro ⟨husky, hpays, hlock⟩
    have hcovered := hlocks pid hpid user husky hpays (hlock.of_le (Nat.zero_le _)) _ hs.word
    exact ⟨husky, hpays.congr hsame, hcovered.congr hsame⟩

end Frozen

theorem notRetroactive_of_nothingOwed {n : Nat} {c : Chain} (hidle : NothingOwed n c.state)
    (hword : c.state.bonusLockUpBps < wordSize) (hlocks : LocksCovered n c.state) :
    NotRetroactive n c := by
  intro txs c' hadmin hrun pid hpid user
  have hfrozen : Frozen n c.state c'.state := by
    refine Frozen.run ⟨fun p _ user => ?_, le_rfl, hidle, hword⟩ hadmin hrun
    exact ⟨rfl, rfl, rfl, rfl, rfl, rfl, rfl, rfl, rfl⟩
  refine ⟨congrArg Except.toOption (hfrozen.pendingHusky hidle hpid), fun v => ?_⟩
  exact hfrozen.harvestPays_iff hidle hword hlocks hpid

/-! ## What the owner can do with blocks that are owed -/

/-- The state after the owner set the reward of a block and the bonus. -/
def State.withRewards (s : State) (huskyPerBlock bonusMultiplier bonusEndBlock : Nat) : State :=
  { s with huskyPerBlock, bonusMultiplier, bonusEndBlock, bonusLockUpBps := 0 }

/-- The state after the owner set the least bonus there is, with a rate of its lock. -/
def State.withLockUp (s : State) (bonusEndBlock bonusLockUpBps : Nat) : State :=
  { s with bonusMultiplier := 2, bonusEndBlock, bonusLockUpBps }

section Owed

variable {n pid : Nat} {s : State} {c : Chain} {user : Address}

/-- A rate and a multiplier so large that the reward overflows. -/
theorem pendingHusky_overflow (hpid : pid < s.poolLength)
    (hbehind : (s.poolInfo pid).lastRewardBlock < n)
    (hstaked : s.stakeBalance (s.poolInfo pid).stakeToken ≠ 0) :
    (pendingHusky n pid user (s.withRewards maxWord (2 ^ 255) (n + 1))).toOption = none := by
  have hnone : ∀ v, pendingHusky n pid user (s.withRewards maxWord (2 ^ 255) (n + 1)) ≠ .ok v := by
    intro v hv
    have hlisted : pid < (s.withRewards maxWord (2 ^ 255) (n + 1)).poolLength := hpid
    have hwindow : n ≤ (s.withRewards maxWord (2 ^ 255) (n + 1)).bonusEndBlock := Nat.le_succ n
    rw [pendingHusky_eq hlisted] at hv
    unfold currentAcc at hv
    rw [if_pos ⟨hbehind, hstaked⟩] at hv
    simp only [huskyReward, bind_eq_ok, SafeMath.mul_eq_ok] at hv
    obtain ⟨_, ⟨m, hm, _, ⟨_, ⟨hword, _⟩, _⟩, _⟩, _⟩ := hv
    unfold getMultiplier at hm
    rw [if_pos hwindow] at hm
    simp only [bind_eq_ok, SafeMath.sub_eq_ok, SafeMath.mul_eq_ok] at hm
    obtain ⟨_, ⟨_, rfl⟩, _, rfl⟩ := hm
    have hone : 1 ≤ n - (s.poolInfo pid).lastRewardBlock := by omega
    -- already one block at this multiplier and rate exceeds a word
    have hlarge : 1 * 2 ^ 255 * maxWord ≤
        (n - (s.poolInfo pid).lastRewardBlock) * 2 ^ 255 * maxWord :=
      Nat.mul_le_mul_right _ (Nat.mul_le_mul_right _ hone)
    have hword : (n - (s.poolInfo pid).lastRewardBlock) * 2 ^ 255 * maxWord < wordSize := hword
    norm_num [maxWord, wordSize] at hlarge hword
    omega
  cases h : pendingHusky n pid user (s.withRewards maxWord (2 ^ 255) (n + 1)) with
  | error _ => rfl
  | ok v => exact absurd h (hnone v)

/-- Without a rate, what a user without stake has pending is nothing. -/
theorem pendingHusky_noRate (hs : Sound s) (hpid : pid < s.poolLength) (hn : n < 2 ^ 64)
    (hbehind : (s.poolInfo pid).lastRewardBlock < n)
    (hstaked : s.stakeBalance (s.poolInfo pid).stakeToken ≠ 0) (htotal : s.totalAllocPoint ≠ 0)
    (hnone : (s.userInfo pid user).amount = 0) :
    (pendingHusky n pid user (s.withRewards 0 2 (n + 1))).toOption = some 0 := by
  have hdebt : (s.userInfo pid user).rewardDebt = 0 := by
    have := hs.debts pid user
    rw [hnone, Nat.zero_mul] at this
    simpa [precision] using this
  -- at rate zero the update of the view adds nothing
  have hacc : currentAcc n pid (s.withRewards 0 2 (n + 1)) = .ok (s.acc pid) := by
    have hword := hs.acc_word pid
    have hblocks : (n - (s.poolInfo pid).lastRewardBlock) * 2 < wordSize := by
      unfold wordSize
      omega
    have hmult : getMultiplier (s.poolInfo pid).lastRewardBlock n (s.withRewards 0 2 (n + 1)) =
        .ok ((n - (s.poolInfo pid).lastRewardBlock) * 2) := by
      have hwindow : n ≤ (s.withRewards 0 2 (n + 1)).bonusEndBlock := Nat.le_succ n
      unfold getMultiplier
      rw [if_pos hwindow]
      simp only [bind_eq_ok, SafeMath.sub_eq_ok, SafeMath.mul_eq_ok]
      exact ⟨_, ⟨hbehind.le, rfl⟩, hblocks, rfl⟩
    unfold currentAcc
    rw [if_pos ⟨hbehind, hstaked⟩]
    simp only [huskyReward, addPerShare, bind_eq_ok, SafeMath.mul_eq_ok, SafeMath.div_eq_ok,
      SafeMath.add_eq_ok]
    have hzero : 0 < wordSize := by
      unfold wordSize
      omega
    refine ⟨_, hmult, 0, ⟨0, ⟨by simpa [State.withRewards] using hzero, rfl⟩, 0,
      ⟨by simpa using hzero, by simp⟩, htotal, by simp⟩, 0, ⟨by simpa using hzero, by simp⟩, 0,
      ⟨hstaked, by simp⟩, ?_, ?_⟩
    · exact hword
    · rfl
  have hpending : pendingHusky n pid user (s.withRewards 0 2 (n + 1)) = .ok 0 := by
    have hlisted : pid < (s.withRewards 0 2 (n + 1)).poolLength := hpid
    rw [pendingHusky_eq hlisted, hacc]
    simp only [bind_eq_ok]
    refine ⟨_, rfl, ?_⟩
    show earned (s.userInfo pid user).amount _ (s.userInfo pid user).rewardDebt = _
    rw [hnone, hdebt]
    simp [earned, SafeMath.mul, SafeMath.div, SafeMath.sub, SafeMath.subOr, precision, wordSize,
      bind, Except.bind]
  rw [hpending]
  rfl

/-- The owner sets the rate and the bonus in block `n`. -/
def setRewards (owner : Address) (n huskyPerBlock bonusMultiplier : Nat) : List Tx :=
  [⟨owner, n, .setHuskyPerBlock huskyPerBlock⟩, ⟨owner, n, .setBonus bonusMultiplier (n + 1) 0⟩]

theorem run_setRewards {huskyPerBlock bonusMultiplier : Nat}
    (howner : c.state.owner ≠ c.state.here) (hblock : c.block ≤ n) (hn : n < 2 ^ 64)
    (hmult : 1 < bonusMultiplier) :
    machine.run c (setRewards c.state.owner n huskyPerBlock bonusMultiplier) =
      .ok { block := n
            state := c.state.withRewards huskyPerBlock bonusMultiplier (n + 1) } := by
  have hrate : mine c ⟨c.state.owner, n, .setHuskyPerBlock huskyPerBlock⟩ =
      .ok { block := n, state := { c.state with huskyPerBlock } } := by
    refine mine_of_exec howner hblock hn ?_
    simp only [exec, setHuskyPerBlock, onlyOwner, bind_eq_ok, require_eq_ok, pure_eq_ok]
    exact ⟨(), rfl, trivial⟩
  have hbonus : mine { block := n, state := { c.state with huskyPerBlock } }
      ⟨c.state.owner, n, .setBonus bonusMultiplier (n + 1) 0⟩ =
      .ok { block := n
            state := c.state.withRewards huskyPerBlock bonusMultiplier (n + 1) } := by
    refine mine_of_exec howner le_rfl hn ?_
    simp only [exec, setBonus, onlyOwner, bind_eq_ok, require_eq_ok, pure_eq_ok]
    exact ⟨(), rfl, (), Nat.lt_succ_self n, (), hmult, rfl⟩
  simp only [setRewards, TSys.run, bind_eq_ok]
  exact ⟨_, hrate, _, hbonus, rfl⟩

theorem setRewards_admin {owner : Address} {huskyPerBlock bonusMultiplier : Nat}
    (howner : owner ≠ 0) (hn : n < 2 ^ 64) (hrate : huskyPerBlock < wordSize)
    (hmult : bonusMultiplier < wordSize) :
    ∀ tx ∈ setRewards owner n huskyPerBlock bonusMultiplier, tx.Administers n := by
  have hend : n + 1 < wordSize := by
    unfold wordSize
    omega
  intro tx htx
  simp only [setRewards, List.mem_cons, List.not_mem_nil, or_false] at htx
  rcases htx with rfl | rfl
  · exact ⟨howner, rfl, hrate⟩
  · exact ⟨howner, rfl, hmult, hend, by norm_num [wordSize]⟩

/-- The owner sets the least bonus in block `n`, with a rate of its lock. -/
theorem run_setLockUp {bps : Nat} (howner : c.state.owner ≠ c.state.here) (hblock : c.block ≤ n)
    (hn : n < 2 ^ 64) :
    machine.run c [⟨c.state.owner, n, .setBonus 2 (n + 1) bps⟩] =
      .ok { block := n, state := c.state.withLockUp (n + 1) bps } := by
  have hbonus : mine c ⟨c.state.owner, n, .setBonus 2 (n + 1) bps⟩ =
      .ok { block := n, state := c.state.withLockUp (n + 1) bps } := by
    refine mine_of_exec howner hblock hn ?_
    simp only [exec, setBonus, onlyOwner, bind_eq_ok, require_eq_ok, pure_eq_ok]
    exact ⟨(), rfl, (), Nat.lt_succ_self n, (), one_lt_two, rfl⟩
  simp only [TSys.run, bind_eq_ok]
  exact ⟨_, hbonus, rfl⟩

/-- What the owner makes of a harvest by setting the rate of the lock. -/
theorem harvestPays_of_lockUp {bps : Nat} {v : Nat} (hlaw : NotRetroactive n c)
    (hidle : NothingOwed n c.state) (howner : c.state.owner ≠ c.state.here)
    (hzero : c.state.owner ≠ 0) (hblock : c.block ≤ n) (hn : n < 2 ^ 64) (hbps : bps < wordSize)
    (hpid : pid < c.state.poolLength) :
    HarvestPays n pid user c.state v ↔ v = c.state.pending pid user ∧
      ∃ husky, Payable n pid user c.state husky ∧ Locks pid user c.state husky bps := by
  have hend : n + 1 < wordSize := by
    unfold wordSize
    omega
  have hadmin : ∀ tx ∈ [Tx.mk c.state.owner n (.setBonus 2 (n + 1) bps)], tx.Administers n := by
    intro tx htx
    obtain rfl := List.mem_singleton.mp htx
    exact ⟨hzero, rfl, by norm_num [wordSize], hend, hbps⟩
  have hsame : SameClaim pid user c.state (c.state.withLockUp (n + 1) bps) :=
    ⟨rfl, rfl, rfl, rfl, rfl, rfl, rfl, rfl, rfl⟩
  rw [← (hlaw _ _ hadmin (run_setLockUp howner hblock hn) pid hpid user).2 v,
    harvestPays_iff (s := c.state.withLockUp (n + 1) bps) hpid (hidle pid hpid), hsame.pending]
  apply and_congr_right'
  constructor
  · rintro ⟨husky, hpays, hlocks⟩
    exact ⟨husky, hpays.congr hsame.symm, hlocks.congr hsame.symm⟩
  · rintro ⟨husky, hpays, hlocks⟩
    exact ⟨husky, hpays.congr hsame, hlocks.congr hsame⟩

/-- Who can harvest at one rate of the lock can do so at every other. -/
theorem locksCovered_of_notRetroactive (hlaw : NotRetroactive n c) (hidle : NothingOwed n c.state)
    (howner : c.state.owner ≠ c.state.here) (hzero : c.state.owner ≠ 0) (hblock : c.block ≤ n)
    (hn : n < 2 ^ 64) : LocksCovered n c.state := by
  intro pid hpid user husky hpays hlocks bps hbps
  have hat : ∀ {bps}, bps < wordSize → (HarvestPays n pid user c.state (c.state.pending pid user) ↔
      c.state.pending pid user = c.state.pending pid user ∧
        ∃ husky, Payable n pid user c.state husky ∧ Locks pid user c.state husky bps) :=
    fun hbps => harvestPays_of_lockUp hlaw hidle howner hzero hblock hn hbps hpid
  have hfree := (hat (by norm_num [wordSize])).mpr ⟨rfl, husky, hpays, hlocks⟩
  rcases ((hat hbps).mp hfree).2 with ⟨husky', hpays', hlocks'⟩
  cases hpays.paid.symm.trans hpays'.paid
  exact hlocks'

/-- A new pool with one point of weight, where there was no weight. -/
theorem step_addPool {token : Address} (howner : c.state.owner ≠ c.state.here)
    (hblock : c.block ≤ n) (hn : n < 2 ^ 64) (htotal : c.state.totalAllocPoint = 0)
    (htoken : token ≠ 0) (hfresh : isDuplicatedPool token c.state = false) :
    mine c ⟨c.state.owner, n, .addPool 1 token false⟩ =
      .ok { block := n, state := c.state.added n 1 token } := by
  have hword : 0 + 1 < wordSize := by
    unfold wordSize
    omega
  refine mine_of_exec howner hblock hn ?_
  simp only [exec, addPool, onlyOwner, updateIf, bind_eq_ok, require_eq_ok, SafeMath.add_eq_ok,
    pure_eq_ok]
  exact ⟨(), rfl, c.state, rfl, (), htoken, (), hfresh, _, ⟨by rwa [htotal], rfl⟩, rfl⟩

/-- Some run of the owner leaves every user without stake with nothing pending. -/
theorem exists_noRate {token : Address} (hs : Sound c.state)
    (howner : c.state.owner ≠ c.state.here) (hzero : c.state.owner ≠ 0) (hblock : c.block ≤ n)
    (hn : n < 2 ^ 64) (htoken : token ≠ 0) (hfresh : isDuplicatedPool token c.state = false)
    (hpid : pid < c.state.poolLength) (hbehind : (c.state.poolInfo pid).lastRewardBlock < n)
    (hstaked : c.state.stakeBalance (c.state.poolInfo pid).stakeToken ≠ 0)
    (hnone : (c.state.userInfo pid user).amount = 0) :
    ∃ txs c', (∀ tx ∈ txs, tx.Administers n) ∧
      machine.run c txs = .ok c' ∧ (pendingHusky n pid user c'.state).toOption = some 0 := by
  have hnoRate : 0 < wordSize := by norm_num [wordSize]
  have hleast : 2 < wordSize := by norm_num [wordSize]
  by_cases htotal : c.state.totalAllocPoint = 0
  · let c₁ : Chain := { block := n, state := c.state.added n 1 token }
    have hfirst : mine c ⟨c.state.owner, n, .addPool 1 token false⟩ = .ok c₁ :=
      step_addPool howner hblock hn htotal htoken hfresh
    have hrest : machine.run c₁ (setRewards c.state.owner n 0 2) =
        .ok { block := n, state := c₁.state.withRewards 0 2 (n + 1) } :=
      run_setRewards howner le_rfl hn one_lt_two
    have hrun : machine.run c (⟨c.state.owner, n, .addPool 1 token false⟩ ::
        setRewards c.state.owner n 0 2) =
        .ok { block := n, state := c₁.state.withRewards 0 2 (n + 1) } := by
      simp only [TSys.run, bind_eq_ok]
      exact ⟨c₁, hfirst, hrest⟩
    -- the pools that were there are where they were
    have hother : c₁.state.poolInfo pid = c.state.poolInfo pid := by
      simp [c₁, State.added, State.setPoolInfo, hpid.ne]
    have hsound : Sound c₁.state :=
      (sound_rule n true).added _ _ _ hs (isDuplicatedPool_eq_false.mp hfresh)
    have hlisted : pid < c₁.state.poolLength := hpid.trans (Nat.lt_succ_self _)
    have htotal₁ : c₁.state.totalAllocPoint ≠ 0 := Nat.succ_ne_zero _
    refine ⟨_, _, fun tx htx => ?_, hrun, pendingHusky_noRate hsound hlisted hn
      (hother ▸ hbehind) (hother ▸ hstaked) htotal₁ hnone⟩
    rcases List.mem_cons.mp htx with rfl | htx
    · exact ⟨hzero, rfl, by norm_num [Op.isAdmin, wordSize]⟩
    · exact setRewards_admin hzero hn hnoRate hleast tx htx
  · have hrun : machine.run c (setRewards c.state.owner n 0 2) =
        .ok { block := n, state := c.state.withRewards 0 2 (n + 1) } :=
      run_setRewards howner hblock hn one_lt_two
    exact ⟨_, _, setRewards_admin hzero hn hnoRate hleast, hrun,
      pendingHusky_noRate hs hpid hn hbehind hstaked htotal hnone⟩

end Owed

/-! ## Exactly when changes are not retroactive -/

/-- An owner that sends no transaction changes nothing: the run is empty. -/
theorem notRetroactive_of_unsent {c : Chain} {n : Nat}
    (hunsent : c.state.owner = c.state.here ∨ c.state.owner = 0) : NotRetroactive n c := by
  intro txs c' hadmin hrun pid hpid user
  cases txs with
  | nil =>
      cases hrun
      exact ⟨rfl, fun _ => Iff.rfl⟩
  | cons tx rest =>
      have htx := hadmin tx List.mem_cons_self
      simp only [TSys.run, bind_eq_ok] at hrun
      obtain ⟨c₁, hstep, _⟩ := hrun
      obtain ⟨hsender, _, _, _, hexec⟩ := mine_eq_ok hstep
      have howner : c.state.owner = tx.sender := owner_of_admin htx.admin hexec
      rcases hunsent with hself | hnobody
      · exact absurd (howner.symm.trans hself) hsender
      · exact absurd (howner.symm.trans hnobody) htx.sender

/-- Administrative changes at block `n` leave every reward for blocks up to `n` as it was, in the
view and in a harvest, exactly when no pool has such blocks to accrue and everyone whose harvest
could go through has its bonus locked at whatever rate (or the owner is FairLaunch itself, which
calls none of its functions, or nobody). There is assumed to be an account without stake in each
pool, and a token that is not staked; the rate of the lock is a word. -/
theorem notRetroactive_iff {c : Chain} {n : Nat} (hreach : machine.Reachable c)
    (hblock : c.block ≤ n) (hn : n < 2 ^ 64) (hword : c.state.bonusLockUpBps < wordSize)
    (haccount : ∀ pid < c.state.poolLength, ∃ user, (c.state.userInfo pid user).amount = 0)
    (htoken : ∃ token, token ≠ 0 ∧ isDuplicatedPool token c.state = false) :
    NotRetroactive n c ↔ c.state.owner = c.state.here ∨ c.state.owner = 0 ∨
      (NothingOwed n c.state ∧ LocksCovered n c.state) := by
  constructor
  · intro hlaw
    by_contra hcond
    obtain ⟨howner, hcond⟩ := not_or.mp hcond
    obtain ⟨hzero, hcond⟩ := not_or.mp hcond
    have howed : ¬ NothingOwed n c.state := fun hidle =>
      hcond ⟨hidle, locksCovered_of_notRetroactive hlaw hidle howner hzero hblock hn⟩
    simp only [NothingOwed, not_forall, not_or, Nat.not_le] at howed
    obtain ⟨pid, hpid, hbehind, hstaked⟩ := howed
    obtain ⟨user, hnone⟩ := haccount pid hpid
    obtain ⟨token, htoken, hfresh⟩ := htoken
    have hrun : machine.run c (setRewards c.state.owner n maxWord (2 ^ 255)) =
        .ok { block := n, state := c.state.withRewards maxWord (2 ^ 255) (n + 1) } :=
      run_setRewards howner hblock hn (by norm_num)
    have hadmin : ∀ tx ∈ setRewards c.state.owner n maxWord (2 ^ 255), tx.Administers n :=
      setRewards_admin hzero hn (by norm_num [maxWord, wordSize]) (by norm_num [wordSize])
    have hlarge := (hlaw _ _ hadmin hrun pid hpid user).1
    rw [pendingHusky_overflow hpid hbehind hstaked] at hlarge
    obtain ⟨txs, c', hadmin, hrun, hnothing⟩ := exists_noRate (sound_inductive.invariant hreach)
      howner hzero hblock hn htoken hfresh hpid hbehind hstaked hnone
    have hsmall := (hlaw txs c' hadmin hrun pid hpid user).1
    rw [hnothing, ← hlarge] at hsmall
    cases hsmall
  · intro hcond
    rcases hcond with hself | hnobody | ⟨hidle, hlocks⟩
    · exact notRetroactive_of_unsent (.inl hself)
    · exact notRetroactive_of_unsent (.inr hnobody)
    · exact notRetroactive_of_nothingOwed hidle hword hlocks

/-- After a deposit the only pool is settled in that block, and changes in it are not
retroactive. -/
theorem notRetroactive_iff_afterDeposit :
    ∃ c, machine.Reachable c ∧ (c.state.userInfo 0 1).amount = 10 ∧ NotRetroactive 1 c := by
  have hrun : machine.lastStep (freshChain 1000) [⟨50, 0, .addPool 1 102 false⟩]
      ⟨1, 1, .deposit 1 0 10⟩ (fun _ c => c.block = 1 ∧ c.state.poolLength = 1 ∧
        (c.state.userInfo 0 1).amount = 10 ∧ (c.state.userInfo 0 2).amount = 0 ∧
        (c.state.poolInfo 0).lastRewardBlock = 1 ∧ isDuplicatedPool 103 c.state = false ∧
        c.state.bonusLockUpBps = 0 ∧ c.state.til 0 = 0) = true := by
    decide +kernel
  obtain ⟨c₁, c, hreach, hstep, htest⟩ := TSys.lastStep_reachable (freshChain_init 1000) hrun
  obtain ⟨hblock, hlength, hstake, hnone, hlast, hfresh, hbps, htil⟩ := of_decide_eq_true htest
  have hreach := TSys.ReachableBy.step hreach trivial hstep
  have honly : ∀ pid < c.state.poolLength, pid = 0 := fun pid hpid => by omega
  have hword : c.state.bonusLockUpBps < wordSize := by norm_num [hbps, wordSize]
  have hcond : NothingOwed 1 c.state ∧ LocksCovered 1 c.state := by
    constructor
    · intro pid hpid
      rw [honly pid hpid]
      exact .inl hlast.ge
    · -- nobody has a bonus
      intro pid hpid user husky _ hlocks bps _
      have hnobonus : c.state.bonus pid user = 0 := by
        rw [honly pid hpid, State.bonus, htil, Nat.mul_zero, Nat.zero_div, Nat.zero_sub]
      unfold Locks at hlocks ⊢
      rw [hnobonus, Nat.zero_mul] at hlocks ⊢
      exact hlocks
  refine ⟨c, hreach, hstake, (notRetroactive_iff hreach hblock.le (by norm_num) hword ?_
    ⟨103, by decide, hfresh⟩).mpr (.inr (.inr hcond))⟩
  intro pid hpid
  rw [honly pid hpid]
  exact ⟨2, hnone⟩

/-- A block after the deposit, doubling `huskyPerBlock` doubles what that block has
already earned. -/
theorem rate_retroactive :
    ∃ c, machine.Reachable c ∧ c.block ≤ 2 ∧
      (pendingHusky 2 0 1 c.state).toOption = some 1000 ∧ ¬ NotRetroactive 2 c := by
  have hrun : machine.lastStep (freshChain 1000)
      [⟨50, 0, .addPool 1 102 false⟩, ⟨1, 1, .deposit 1 0 10⟩]
      ⟨50, 2, .setHuskyPerBlock 2000⟩ (fun c c' => c.block = 1 ∧ c.state.poolLength = 1 ∧
        (pendingHusky 2 0 1 c.state).toOption = some 1000 ∧
        (pendingHusky 2 0 1 c'.state).toOption = some 2000) = true := by
    decide +kernel
  obtain ⟨c, c', hreach, hstep, htest⟩ := TSys.lastStep_reachable (freshChain_init 1000) hrun
  obtain ⟨hblock, hlength, hbefore, hafter⟩ := of_decide_eq_true htest
  refine ⟨c, hreach, by omega, hbefore, fun hlaw => ?_⟩
  have hone : machine.run c [⟨50, 2, .setHuskyPerBlock 2000⟩] = .ok c' := by
    simp only [TSys.run, bind_eq_ok]
    exact ⟨c', hstep, rfl⟩
  have hadmin : ∀ tx ∈ [Tx.mk 50 2 (.setHuskyPerBlock 2000)], tx.Administers 2 := by
    intro tx htx
    obtain rfl := List.mem_singleton.mp htx
    exact ⟨by decide, rfl, by norm_num [Op.isAdmin, wordSize]⟩
  have hsame := (hlaw _ c' hadmin hone 0 (by omega) 1).1
  rw [hbefore, hafter] at hsame
  cases hsame

end Huski.FairLaunch
