import Huski.Lib.Flows
import Huski.MasterChef.Model

/-!
# What a successful call of the farm did

One inversion lemma for each function of `Huski.MasterChef.Model`. What a call does to the tokens is
a flow (`Ledgers.Moved`); a change of stake is one entry of `userInfo` and a flow (`Changes`,
`Settles`). The calls but `migrate` are made of a few effects (`Effect`), on which every invariant
is proved.
-/

namespace Huski.MasterChef

open Solidity State Ledgers

variable {n pid amount : Nat} {sender user token : Address} {s s' s₁ : State}

theorem poolAt_eq_ok {pool : PoolInfo} (h : s.poolAt pid = .ok pool) :
    pid < s.poolLength ∧ pool = s.poolInfo pid := by
  unfold State.poolAt at h
  split at h
  · rename_i hpid
    cases h
    exact ⟨hpid, rfl⟩
  · cases h

theorem onToken_eq_ok {f : ERC20 → Result ERC20} (h : s.onToken token f = .ok s') :
    ∃ t, f (s.tokens token) = .ok t ∧ s' = s.setToken token t := by
  simp only [State.onToken, bind_eq_ok, pure_eq_ok] at h
  obtain ⟨t, hf, rfl⟩ := h
  exact ⟨t, hf, rfl⟩

@[simp] theorem setUserInfo_self (s : State) (pid : Nat) (user : Address) :
    s.setUserInfo pid user (s.userInfo pid user) = s := by
  simp [State.setUserInfo]

@[simp] theorem userInfo_setUserInfo {info : UserInfo} :
    (s.setUserInfo pid user info).userInfo pid user = info := by
  simp [State.setUserInfo]

/-- What an account has of a token. -/
def State.bal (s : State) (token account : Address) : Nat := (s.tokens token).balanceOf account

/-- The farm and SYRUP have approved nobody, on ledgers that add up. -/
def State.Kept (s : State) : Prop := Ledgers.Sound s.here s.tokens ∧ Ledgers.Sound s.syrup s.tokens

/-! ## Changes of one entry -/

/-- What a call changed is one entry and the tokens. -/
structure Changes (sender : Address) (pid : Nat) (info : UserInfo) (out into : Flow)
    (s s' : State) : Prop where
  same : s' = { s.setUserInfo pid sender info with tokens := s'.tokens }
  moved : Moved s.tokens s'.tokens out into
  kept : s.Kept → s'.Kept

namespace Changes

variable {info info' : UserInfo} {out into out' into' : Flow}

theorem refl : Changes sender pid (s.userInfo pid sender) 0 0 s s where
  same := by rw [setUserInfo_self]
  moved := Moved.refl _
  kept := id

theorem entry : Changes sender pid info 0 0 s (s.setUserInfo pid sender info) where
  same := rfl
  moved := Moved.refl _
  kept := id

/-- Changes of one position compose, and their flows add up. -/
theorem trans (h : Changes sender pid info out into s s₁)
    (h' : Changes sender pid info' out' into' s₁ s') :
    Changes sender pid info' (out + out') (into + into') s s' where
  same := by
    have hsecond := h'.same
    rw [h.same] at hsecond
    simp only [State.setUserInfo, Function.update_idem, Function.update_self] at hsecond ⊢
    exact hsecond
  moved := h.moved.trans h'.moved
  kept := fun hkept => h'.kept (h.kept hkept)

/-- A call of a token that keeps all ledgers sound. -/
theorem ofToken {t : ERC20} (hmoved : Moved s.tokens (Function.update s.tokens token t) out into)
    (hsound : ∀ keeper, (s.tokens token).Sound keeper → t.Sound keeper) :
    Changes sender pid (s.userInfo pid sender) out into s (s.setToken token t) where
  same := by
    rw [setUserInfo_self]
    rfl
  moved := hmoved
  kept := fun hkept => ⟨hkept.1.update (hsound _ (hkept.1 token)),
    hkept.2.update (hsound _ (hkept.2 token))⟩

/-- A change of a position leaves the pools. -/
theorem poolInfo (h : Changes sender pid info out into s s') : s'.poolInfo = s.poolInfo := by
  rw [h.same]
  rfl

theorem poolLength (h : Changes sender pid info out into s s') : s'.poolLength = s.poolLength := by
  rw [h.same]
  rfl

theorem here (h : Changes sender pid info out into s s') : s'.here = s.here := by
  rw [h.same]
  rfl

theorem cake (h : Changes sender pid info out into s s') : s'.cake = s.cake := by
  rw [h.same]
  rfl

theorem syrup (h : Changes sender pid info out into s s') : s'.syrup = s.syrup := by
  rw [h.same]
  rfl

theorem userInfo (h : Changes sender pid info out into s s') : s'.userInfo =
    Function.update s.userInfo pid (Function.update (s.userInfo pid) sender info) := by
  rw [h.same]
  rfl

theorem userInfo_self (h : Changes sender pid info out into s s') :
    s'.userInfo pid sender = info := by
  rw [h.userInfo, Function.update_self, Function.update_self]

end Changes

theorem transfer_eq_ok (sender : Address) (pid : Nat) {src dst : Address}
    (h : s.onToken token (BEP20._transfer · src dst amount) = .ok s') :
    Changes sender pid (s.userInfo pid sender) (single token src amount) (single token dst amount)
      s s' := by
  obtain ⟨t, htransfer, rfl⟩ := onToken_eq_ok h
  have htransfer := BEP20.transfer_eq_ok.mp htransfer
  exact .ofToken (moved_transfer htransfer) fun _ hsound => hsound.transfer htransfer

theorem transferFrom_eq_ok (sender : Address) (pid : Nat) {spender src dst : Address}
    (h : s.onToken token (BEP20.transferFrom · spender src dst amount) = .ok s') :
    Changes sender pid (s.userInfo pid sender) (single token src amount) (single token dst amount)
      s s' := by
  obtain ⟨t, htransfer, rfl⟩ := onToken_eq_ok h
  have htransfer := BEP20.transferFrom_eq_ok.mp htransfer
  exact .ofToken (moved_transferFrom htransfer) fun _ hsound =>
    (hsound.keeps_transferFrom htransfer).1

theorem mint_eq_ok (sender : Address) (pid : Nat) {dst : Address}
    (h : s.onToken token (BEP20._mint · dst amount) = .ok s') :
    Changes sender pid (s.userInfo pid sender) 0 (single token dst amount) s s' := by
  obtain ⟨t, hmint, rfl⟩ := onToken_eq_ok h
  have hmint := BEP20.mint_eq_ok.mp hmint
  exact .ofToken (moved_mint hmint) fun _ hsound => (hsound.keeps_mint hmint).1

theorem burn_eq_ok (sender : Address) (pid : Nat) {src : Address}
    (h : s.onToken token (BEP20._burn · src amount) = .ok s') :
    Changes sender pid (s.userInfo pid sender) (single token src amount) 0 s s' := by
  obtain ⟨t, hburn, rfl⟩ := onToken_eq_ok h
  have hburn := BEP20.burn_eq_ok.mp hburn
  exact .ofToken (moved_burn hburn) fun _ hsound => hsound.burn hburn

/-! ## Rewards -/

/-- The sum per share grows by the reward, rounded down. -/
theorem addPerShare_eq_ok {acc reward lpSupply acc' : Nat}
    (h : addPerShare acc reward lpSupply = .ok acc') :
    acc' = acc + reward * precision / lpSupply := by
  simp only [addPerShare, bind_eq_ok, SafeMath.mul_eq_ok, SafeMath.div_eq_ok,
    SafeMath.add_eq_ok] at h
  obtain ⟨_, ⟨_, rfl⟩, _, ⟨_, rfl⟩, _, rfl⟩ := h
  rfl

/-- What a position earned is what its stake is worth, less its debt. -/
theorem earned_eq_ok {info : UserInfo} {acc v : Nat} (h : earned info acc = .ok v) :
    info.rewardDebt ≤ info.amount * acc / precision ∧
      v = info.amount * acc / precision - info.rewardDebt := by
  simp only [earned, bind_eq_ok, SafeMath.mul_eq_ok, SafeMath.div_eq_ok, SafeMath.sub_eq_ok] at h
  obtain ⟨_, ⟨_, rfl⟩, _, ⟨_, rfl⟩, hle, rfl⟩ := h
  exact ⟨hle, rfl⟩

/-! ## Updating a pool -/

/-- The state after a pool got a reward; `tokens` is what the mints left. -/
def State.accrued (s : State) (n pid reward : Nat) (tokens : Ledgers) : State :=
  { s.setPoolInfo pid { s.poolInfo pid with
      accCakePerShare := (s.poolInfo pid).accCakePerShare +
        reward * precision / s.lpSupply (s.poolInfo pid)
      lastRewardBlock := n } with tokens }

/-- The outcomes of `updatePool`. -/
inductive Updated (n pid : Nat) (s : State) : State → Prop
  | current (h : n ≤ (s.poolInfo pid).lastRewardBlock) : Updated n pid s s
  | empty (behind : (s.poolInfo pid).lastRewardBlock < n)
      (hempty : s.lpSupply (s.poolInfo pid) = 0) :
      Updated n pid s (s.setPoolInfo pid { s.poolInfo pid with lastRewardBlock := n })
  | accrued {reward : Nat} {tokens : Ledgers} (behind : (s.poolInfo pid).lastRewardBlock < n)
      (staked : s.lpSupply (s.poolInfo pid) ≠ 0)
      (moved : Moved s.tokens tokens 0
        (single s.cake s.devaddr (reward / 10) + single s.cake s.syrup reward))
      (kept : s.Kept → Ledgers.Sound s.here tokens ∧ Ledgers.Sound s.syrup tokens) :
      Updated n pid s (s.accrued n pid reward tokens)

/-- An accrual mints the reward and adds it to the pool's sum. -/
theorem accruePool_eq_ok (hbehind : (s.poolInfo pid).lastRewardBlock < n)
    (hstaked : s.lpSupply (s.poolInfo pid) ≠ 0)
    (h : accruePool s n pid (s.poolInfo pid) (s.lpSupply (s.poolInfo pid)) = .ok s') :
    Updated n pid s s' := by
  simp only [accruePool, bind_eq_ok, pure_eq_ok] at h
  obtain ⟨_, _, reward, _, s₁, hdev, s₂, hpool, _, hacc, rfl⟩ := h
  have hmints := (mint_eq_ok 0 0 hdev).trans (mint_eq_ok 0 0 hpool)
  obtain ⟨t, _, rfl⟩ := onToken_eq_ok hdev
  obtain ⟨t', _, rfl⟩ := onToken_eq_ok hpool
  rw [addPerShare_eq_ok hacc]
  exact .accrued hbehind hstaked hmints.moved hmints.kept

/-- An update is no change, a new block for an empty pool, or an accrual. -/
theorem updatePool_eq_ok (h : updatePool n pid s = .ok s') :
    pid < s.poolLength ∧ Updated n pid s s' := by
  simp only [updatePool, bind_eq_ok] at h
  obtain ⟨pool, hpool, h⟩ := h
  obtain ⟨hpid, rfl⟩ := poolAt_eq_ok hpool
  refine ⟨hpid, ?_⟩
  split at h
  · rename_i hcurrent
    cases h
    exact .current hcurrent
  · rename_i hbehind
    split at h
    · rename_i hempty
      cases h
      exact .empty (by omega) hempty
    · rename_i hstaked
      exact accruePool_eq_ok (by omega) hstaked h

section Updated

variable (h : Updated n pid s s')

include h

theorem Updated.poolLength : s'.poolLength = s.poolLength := by
  cases h with
  | current => rfl
  | empty => rfl
  | accrued => rfl

theorem Updated.userInfo : s'.userInfo = s.userInfo := by
  cases h with
  | current => rfl
  | empty => rfl
  | accrued => rfl

theorem Updated.places : s'.here = s.here ∧ s'.syrup = s.syrup ∧ s'.cake = s.cake := by
  cases h with
  | current => exact ⟨rfl, rfl, rfl⟩
  | empty => exact ⟨rfl, rfl, rfl⟩
  | accrued => exact ⟨rfl, rfl, rfl⟩

theorem Updated.lpToken (p : Nat) : (s'.poolInfo p).lpToken = (s.poolInfo p).lpToken := by
  cases h with
  | current => rfl
  | empty =>
      by_cases hp : p = pid
      · subst hp
        simp [State.setPoolInfo]
      · simp [State.setPoolInfo, hp]
  | accrued =>
      by_cases hp : p = pid
      · subst hp
        simp [State.accrued, State.setPoolInfo]
      · simp [State.accrued, State.setPoolInfo, hp]

theorem Updated.kept (hkept : s.Kept) : s'.Kept := by
  cases h with
  | current => exact hkept
  | empty => exact hkept
  | accrued _ _ _ kept => exact kept hkept

/-- An update takes nothing from anybody. -/
theorem Updated.bal_le (account : Address) : s.bal token account ≤ s'.bal token account := by
  cases h with
  | current => exact le_rfl
  | empty => exact le_rfl
  | accrued _ _ moved _ => exact moved.balance_le rfl

end Updated

/-! ## Paying -/

/-- What an account may be paid. -/
def State.pending (s : State) (pid : Nat) (user : Address) : Nat :=
  (s.userInfo pid user).amount * (s.poolInfo pid).accCakePerShare / precision -
    (s.userInfo pid user).rewardDebt

/-- What a settlement pays. -/
def State.paid (s : State) (pid : Nat) (user : Address) : Nat := min (s.pending pid user) s.cakeBal

/-- A payment is the amount, or what SYRUP has left. -/
theorem safeCakeTransfer_eq_ok {recipient : Address}
    (h : safeCakeTransfer recipient amount s = .ok s') :
    Changes sender pid (s.userInfo pid sender) (single s.cake s.syrup (min amount s.cakeBal))
      (single s.cake recipient (min amount s.cakeBal)) s s' := by
  unfold safeCakeTransfer at h
  split at h
  · rename_i hmore
    rw [min_eq_right (by omega)]
    exact transfer_eq_ok sender pid h
  · rename_i hcovered
    rw [min_eq_left (by omega)]
    exact transfer_eq_ok sender pid h

/-- Nothing is paid to an account that has nothing pending. -/
theorem paid_eq_zero (h : s.pending pid user = 0) : s.paid pid user = 0 := by
  unfold State.paid
  rw [h, Nat.zero_min]

/-- The product of a stake and the accumulator of its pool is a word. -/
def State.Fits (s : State) (pid amount : Nat) : Prop :=
  amount * (s.poolInfo pid).accCakePerShare < wordSize

theorem payPending_fits (h : payPending sender pid s = .ok s') :
    s.Fits pid (s.userInfo pid sender).amount := by
  simp only [payPending, earned, bind_eq_ok, SafeMath.mul_eq_ok] at h
  obtain ⟨_, ⟨_, ⟨hlt, _⟩, _⟩, _⟩ := h
  exact hlt

theorem harvestStake_fits (h : harvestStake sender pid s = .ok s') :
    s.Fits pid (s.userInfo pid sender).amount := by
  unfold harvestStake at h
  split at h
  · exact payPending_fits h
  · rename_i hnone
    unfold State.Fits
    rw [Nat.eq_zero_of_not_pos hnone, Nat.zero_mul]
    exact Nat.two_pow_pos 256

/-- The position is paid what it has earned. -/
theorem payPending_eq_ok (h : payPending sender pid s = .ok s') :
    Changes sender pid (s.userInfo pid sender) (single s.cake s.syrup (s.paid pid sender))
      (single s.cake sender (s.paid pid sender)) s s' := by
  simp only [payPending, bind_eq_ok] at h
  obtain ⟨pending, hearned, h⟩ := h
  have hpending : pending = s.pending pid sender := (earned_eq_ok hearned).2
  subst hpending
  split at h
  · exact safeCakeTransfer_eq_ok h
  · rename_i hnone
    cases h
    rw [paid_eq_zero (by omega), single_zero, single_zero]
    exact .refl

theorem harvestStake_eq_ok (h : harvestStake sender pid s = .ok s') :
    Changes sender pid (s.userInfo pid sender) (single s.cake s.syrup (s.paid pid sender))
      (single s.cake sender (s.paid pid sender)) s s' := by
  unfold harvestStake at h
  split at h
  · exact payPending_eq_ok h
  · rename_i hnone
    cases h
    have hzero : s.pending pid sender = 0 := by
      unfold State.pending
      rw [Nat.eq_zero_of_not_pos hnone, Nat.zero_mul, Nat.zero_div, Nat.zero_sub]
    rw [paid_eq_zero hzero, single_zero, single_zero]
    exact .refl

/-! ## Changing a stake -/

/-- A stake flows from its owner into the farm. -/
theorem putStake_eq_ok (h : putStake sender pid amount s = .ok s') :
    Changes sender pid
      { s.userInfo pid sender with amount := (s.userInfo pid sender).amount + amount }
      (single (s.poolInfo pid).lpToken sender amount)
      (single (s.poolInfo pid).lpToken s.here amount) s s' := by
  unfold putStake at h
  split at h
  · simp only [bind_eq_ok, SafeMath.add_eq_ok, pure_eq_ok] at h
    obtain ⟨s₁, htransfer, _, ⟨_, rfl⟩, rfl⟩ := h
    have hmoves := transferFrom_eq_ok sender pid htransfer
    have hentry := hmoves.userInfo_self
    rw [hentry]
    exact hmoves.trans .entry
  · rename_i hnone
    cases h
    have hzero : amount = 0 := by omega
    subst hzero
    rw [single_zero, single_zero]
    exact .refl

/-- A stake flows from the farm to its owner. -/
theorem takeStake_eq_ok (h : takeStake sender pid amount s = .ok s') :
    amount ≤ (s.userInfo pid sender).amount ∧ Changes sender pid
      { s.userInfo pid sender with amount := (s.userInfo pid sender).amount - amount }
      (single (s.poolInfo pid).lpToken s.here amount)
      (single (s.poolInfo pid).lpToken sender amount) s s' := by
  unfold takeStake at h
  split at h
  · simp only [bind_eq_ok, SafeMath.sub_eq_ok] at h
    obtain ⟨_, ⟨hle, rfl⟩, htransfer⟩ := h
    have hmoves := transfer_eq_ok sender pid htransfer
    rw [userInfo_setUserInfo] at hmoves
    refine ⟨hle, ?_⟩
    have hboth := Changes.entry.trans hmoves
    rwa [zero_add, zero_add] at hboth
  · rename_i hnone
    cases h
    have hzero : amount = 0 := by omega
    subst hzero
    rw [single_zero, single_zero]
    exact ⟨Nat.zero_le _, .refl⟩

/-- The entry of an account that was settled with an amount. -/
def State.settledInfo (s : State) (pid amount : Nat) : UserInfo :=
  { amount, rewardDebt := amount * (s.poolInfo pid).accCakePerShare / precision }

/-- The debt becomes what the stake is worth. -/
theorem updateDebt_eq_ok (h : updateDebt sender pid s = .ok s') :
    s.Fits pid (s.userInfo pid sender).amount ∧
      Changes sender pid (s.settledInfo pid (s.userInfo pid sender).amount) 0 0 s s' := by
  simp only [updateDebt, bind_eq_ok, SafeMath.mul_eq_ok, pure_eq_ok] at h
  obtain ⟨_, ⟨hlt, rfl⟩, rfl⟩ := h
  exact ⟨hlt, .entry⟩

/-- The SYRUP of a stake: only the first pool has some. -/
def State.receipt (s : State) (pid : Nat) (user : Address) (amount : Nat) : Flow :=
  if pid = 0 then single s.syrup user amount else 0

/-- The reward is paid and the stake of `sender` becomes `amount`: the account gives the new stake
and gets the old one, the farm the other way round, and SYRUP follows the stake. -/
abbrev Settles (sender : Address) (pid amount : Nat) (s s' : State) : Prop :=
  Changes sender pid (s.settledInfo pid amount)
    (single s.cake s.syrup (s.paid pid sender) + single (s.poolInfo pid).lpToken sender amount +
      single (s.poolInfo pid).lpToken s.here (s.userInfo pid sender).amount +
      s.receipt pid sender (s.userInfo pid sender).amount)
    (single s.cake sender (s.paid pid sender) +
      single (s.poolInfo pid).lpToken sender (s.userInfo pid sender).amount +
      single (s.poolInfo pid).lpToken s.here amount + s.receipt pid sender amount) s s'

/-- The parts of a settlement that adds to a stake. -/
theorem settles_put {s₂ : State} (hpays : Changes sender pid (s.userInfo pid sender)
      (single s.cake s.syrup (s.paid pid sender)) (single s.cake sender (s.paid pid sender)) s s₁)
    (hput : putStake sender pid amount s₁ = .ok s₂) (hdebt : updateDebt sender pid s₂ = .ok s') :
    s.Fits pid ((s.userInfo pid sender).amount + amount) ∧
      Changes sender pid (s.settledInfo pid ((s.userInfo pid sender).amount + amount))
      (single s.cake s.syrup (s.paid pid sender) + single (s.poolInfo pid).lpToken sender amount)
      (single s.cake sender (s.paid pid sender) + single (s.poolInfo pid).lpToken s.here amount)
      s s' := by
  have hput := putStake_eq_ok hput
  obtain ⟨hfits, hdebt⟩ := updateDebt_eq_ok hdebt
  have hinfo : s₂.settledInfo pid (s₂.userInfo pid sender).amount =
      s.settledInfo pid ((s.userInfo pid sender).amount + amount) := by
    unfold State.settledInfo
    rw [hput.userInfo_self, hpays.userInfo_self, hput.poolInfo, hpays.poolInfo]
  have hchanges := (hpays.trans hput).trans (hinfo ▸ hdebt)
  unfold State.Fits at hfits
  rw [hput.userInfo_self, hpays.userInfo_self, hput.poolInfo, hpays.poolInfo] at hfits
  rw [hpays.poolInfo, hpays.here] at hchanges
  exact ⟨hfits, hchanges⟩

/-- The parts of a settlement that takes from a stake. -/
theorem settles_take {s₂ : State} (hpays : Changes sender pid (s.userInfo pid sender)
      (single s.cake s.syrup (s.paid pid sender)) (single s.cake sender (s.paid pid sender)) s s₁)
    (htake : takeStake sender pid amount s₁ = .ok s₂) (hdebt : updateDebt sender pid s₂ = .ok s') :
    amount ≤ (s.userInfo pid sender).amount ∧
      s.Fits pid ((s.userInfo pid sender).amount - amount) ∧
      Changes sender pid (s.settledInfo pid ((s.userInfo pid sender).amount - amount))
        (single s.cake s.syrup (s.paid pid sender) + single (s.poolInfo pid).lpToken s.here amount)
        (single s.cake sender (s.paid pid sender) + single (s.poolInfo pid).lpToken sender amount)
        s s' := by
  obtain ⟨hle, htake⟩ := takeStake_eq_ok htake
  obtain ⟨hfits, hdebt⟩ := updateDebt_eq_ok hdebt
  have hinfo : s₂.settledInfo pid (s₂.userInfo pid sender).amount =
      s.settledInfo pid ((s.userInfo pid sender).amount - amount) := by
    unfold State.settledInfo
    rw [htake.userInfo_self, hpays.userInfo_self, htake.poolInfo, hpays.poolInfo]
  have hchanges := (hpays.trans htake).trans (hinfo ▸ hdebt)
  unfold State.Fits at hfits
  rw [htake.userInfo_self, hpays.userInfo_self, htake.poolInfo, hpays.poolInfo] at hfits
  rw [hpays.userInfo_self] at hle
  rw [hpays.poolInfo, hpays.here] at hchanges
  exact ⟨hle, hfits, hchanges⟩

theorem receipt_of_ne (hpid : pid ≠ 0) : s.receipt pid user amount = 0 := if_neg hpid

/-- What the account puts in comes on top of the old stake, which is taken and given back. -/
theorem Changes.settles_put {old : Nat} (hold : (s.userInfo pid sender).amount = old)
    (h : Changes sender pid (s.settledInfo pid (old + amount))
      (single s.cake s.syrup (s.paid pid sender) + single (s.poolInfo pid).lpToken sender amount)
      (single s.cake sender (s.paid pid sender) + single (s.poolInfo pid).lpToken s.here amount +
        s.receipt pid sender amount) s s') : Settles sender pid (old + amount) s s' := by
  refine ⟨h.same, ?_, h.kept⟩
  have hback := h.moved.add_back (single (s.poolInfo pid).lpToken sender old +
    single (s.poolInfo pid).lpToken s.here old + s.receipt pid sender old)
  have hreceipt : s.receipt pid sender (old + amount) =
      s.receipt pid sender old + s.receipt pid sender amount := by
    unfold State.receipt
    split
    · exact single_add _ _
    · rfl
  rw [hold, hreceipt, single_add, single_add]
  convert hback using 1
  · abel
  · abel

/-- What the account takes out was part of the old stake; the rest is taken and given back. -/
theorem Changes.settles_take {rest : Nat} (hrest : (s.userInfo pid sender).amount = rest + amount)
    (h : Changes sender pid (s.settledInfo pid rest)
      (single s.cake s.syrup (s.paid pid sender) + single (s.poolInfo pid).lpToken s.here amount +
        s.receipt pid sender amount)
      (single s.cake sender (s.paid pid sender) + single (s.poolInfo pid).lpToken sender amount)
      s s') : Settles sender pid rest s s' := by
  refine ⟨h.same, ?_, h.kept⟩
  have hback := h.moved.add_back (single (s.poolInfo pid).lpToken sender rest +
    single (s.poolInfo pid).lpToken s.here rest + s.receipt pid sender rest)
  have hreceipt : s.receipt pid sender (rest + amount) =
      s.receipt pid sender rest + s.receipt pid sender amount := by
    unfold State.receipt
    split
    · exact single_add _ _
    · rfl
  rw [hrest, hreceipt, single_add, single_add]
  convert hback using 1
  · abel
  · abel

/-- A deposit updates, pays, takes the stake and settles. -/
theorem deposit_eq_ok (h : deposit sender n pid amount s = .ok s') :
    pid ≠ 0 ∧ ∃ s₁, updatePool n pid s = .ok s₁ ∧
      s₁.Fits pid (s₁.userInfo pid sender).amount ∧
      s₁.Fits pid ((s.userInfo pid sender).amount + amount) ∧
      Settles sender pid ((s.userInfo pid sender).amount + amount) s₁ s' := by
  simp only [deposit, bind_eq_ok, require_eq_ok] at h
  obtain ⟨_, hpid, _, _, s₁, hupdate, s₂, hharvest, s₃, hput, hdebt⟩ := h
  obtain ⟨hfits, hchanges⟩ := settles_put (harvestStake_eq_ok hharvest) hput hdebt
  rw [← (updatePool_eq_ok hupdate).2.userInfo]
  refine ⟨hpid, s₁, hupdate, harvestStake_fits hharvest, hfits, Changes.settles_put rfl ?_⟩
  rwa [receipt_of_ne hpid, add_zero]

/-- Entering also mints the receipt. -/
theorem enterStaking_eq_ok (h : enterStaking sender n amount s = .ok s') :
    ∃ s₁, updatePool n 0 s = .ok s₁ ∧
      s₁.Fits 0 (s₁.userInfo 0 sender).amount ∧
      s₁.Fits 0 ((s.userInfo 0 sender).amount + amount) ∧
      Settles sender 0 ((s.userInfo 0 sender).amount + amount) s₁ s' := by
  simp only [enterStaking, bind_eq_ok] at h
  obtain ⟨s₁, hupdate, s₂, hharvest, s₃, hput, s₄, hdebt, hmint⟩ := h
  obtain ⟨hfits, hchanges⟩ := settles_put (harvestStake_eq_ok hharvest) hput hdebt
  have hmint := mint_eq_ok sender 0 hmint
  rw [hchanges.userInfo_self, hchanges.syrup] at hmint
  rw [← (updatePool_eq_ok hupdate).2.userInfo]
  exact ⟨s₁, hupdate, harvestStake_fits hharvest, hfits,
    Changes.settles_put rfl (hchanges.trans hmint)⟩

/-- A withdrawal updates, pays, returns the stake and settles. -/
theorem withdraw_eq_ok (h : withdraw sender n pid amount s = .ok s') :
    pid ≠ 0 ∧ amount ≤ (s.userInfo pid sender).amount ∧ ∃ s₁, updatePool n pid s = .ok s₁ ∧
      s₁.Fits pid (s₁.userInfo pid sender).amount ∧
      s₁.Fits pid ((s.userInfo pid sender).amount - amount) ∧
      Settles sender pid ((s.userInfo pid sender).amount - amount) s₁ s' := by
  simp only [withdraw, bind_eq_ok, require_eq_ok] at h
  obtain ⟨_, hpid, _, _, _, hle, s₁, hupdate, s₂, hpays, s₃, htake, hdebt⟩ := h
  have huser := (updatePool_eq_ok hupdate).2.userInfo
  obtain ⟨_, hfits, hchanges⟩ := settles_take (payPending_eq_ok hpays) htake hdebt
  rw [huser] at hfits hchanges
  refine ⟨hpid, hle, s₁, hupdate, payPending_fits hpays, hfits, ?_⟩
  have hrest : (s₁.userInfo pid sender).amount =
      (s.userInfo pid sender).amount - amount + amount := by
    rw [huser, Nat.sub_add_cancel hle]
  refine Changes.settles_take hrest ?_
  rwa [receipt_of_ne hpid, add_zero]

theorem leaveStaking_eq_ok (h : leaveStaking sender n amount s = .ok s') :
    amount ≤ (s.userInfo 0 sender).amount ∧ ∃ s₁, updatePool n 0 s = .ok s₁ ∧
      s₁.Fits 0 (s₁.userInfo 0 sender).amount ∧
      s₁.Fits 0 ((s.userInfo 0 sender).amount - amount) ∧
      Settles sender 0 ((s.userInfo 0 sender).amount - amount) s₁ s' := by
  simp only [leaveStaking, bind_eq_ok, require_eq_ok] at h
  obtain ⟨_, hle, s₁, hupdate, s₂, hpays, s₃, htake, s₄, hdebt, hburn⟩ := h
  have huser := (updatePool_eq_ok hupdate).2.userInfo
  obtain ⟨_, hfits, hchanges⟩ := settles_take (payPending_eq_ok hpays) htake hdebt
  have hburn := burn_eq_ok sender 0 hburn
  rw [hchanges.userInfo_self, hchanges.syrup] at hburn
  have hboth := hchanges.trans hburn
  rw [huser] at hfits
  rw [huser, add_zero] at hboth
  refine ⟨hle, s₁, hupdate, payPending_fits hpays, hfits, Changes.settles_take ?_ hboth⟩
  rw [huser, Nat.sub_add_cancel hle]

/-- An emergency withdrawal returns the stake and pays nothing. -/
theorem emergencyWithdraw_eq_ok (h : emergencyWithdraw sender pid s = .ok s') :
    pid < s.poolLength ∧ Changes sender pid { amount := 0, rewardDebt := 0 }
      (single (s.poolInfo pid).lpToken s.here (s.userInfo pid sender).amount)
      (single (s.poolInfo pid).lpToken sender (s.userInfo pid sender).amount) s s' := by
  simp only [emergencyWithdraw, bind_eq_ok, pure_eq_ok] at h
  obtain ⟨_, hpool, s₁, htransfer, rfl⟩ := h
  obtain ⟨hpid, rfl⟩ := poolAt_eq_ok hpool
  have hmoves := transfer_eq_ok sender pid htransfer
  exact ⟨hpid, hmoves.trans .entry⟩

/-! ## Points -/

/-- The state after `set` wrote the points of a pool. -/
def State.weighed (s : State) (pid allocPoint : Nat) : State :=
  { s.setPoolInfo pid { s.poolInfo pid with allocPoint } with
    totalAllocPoint := s.totalAllocPoint - (s.poolInfo pid).allocPoint + allocPoint }

/-- The state after `add` pushed a pool. -/
def State.added (s : State) (n allocPoint : Nat) (lpToken : Address) : State :=
  { s.setPoolInfo s.poolLength
      { lpToken, allocPoint, lastRewardBlock := max n s.startBlock, accCakePerShare := 0 } with
    totalAllocPoint := s.totalAllocPoint + allocPoint
    poolLength := s.poolLength + 1 }

open scoped BigOperators in
/-- The points of the pools after the first one. -/
def State.others (s : State) : Nat := ∑ pid ∈ Finset.Ico 1 s.poolLength, (s.poolInfo pid).allocPoint

/-- A loop that adds. -/
theorem foldlM_add_eq_ok {f : Nat → Nat} {l : List Nat} {a b : Nat}
    (h : l.foldlM (fun points pid => SafeMath.add points (f pid)) a = .ok b) :
    b = a + (l.map f).sum := by
  induction l generalizing a with
  | nil =>
      simp only [List.foldlM_nil, pure_eq_ok] at h
      simp [h]
  | cons pid l ih =>
      simp only [List.foldlM_cons, bind_eq_ok, SafeMath.add_eq_ok] at h
      obtain ⟨_, ⟨_, rfl⟩, hrest⟩ := h
      rw [ih hrest, List.map_cons, List.sum_cons, Nat.add_assoc]

/-- The weights of the pools but the staking one. -/
theorem otherPoints_eq_ok {points : Nat} (h : otherPoints s = .ok points) : points = s.others := by
  rw [foldlM_add_eq_ok h, Nat.zero_add]
  have hpids : (List.range' 1 (s.poolLength - 1)).toFinset = Finset.Ico 1 s.poolLength := by
    ext pid
    simp only [List.mem_toFinset, List.mem_range'_1, Finset.mem_Ico]
    omega
  unfold State.others
  rw [← hpids, List.sum_toFinset _ List.nodup_range']

/-- The first pool gets a third of the points of the others, if they have some. -/
theorem updateStakingPool_eq_ok (h : updateStakingPool s = .ok s') :
    if s.others = 0 then s' = s
    else (s.poolInfo 0).allocPoint ≤ s.totalAllocPoint ∧ s' = s.weighed 0 (s.others / 3) := by
  simp only [updateStakingPool, bind_eq_ok] at h
  obtain ⟨points, hpoints, h⟩ := h
  rw [otherPoints_eq_ok hpoints] at h
  split at h
  · rename_i hsome
    simp only [bind_eq_ok, SafeMath.sub_eq_ok, SafeMath.add_eq_ok, pure_eq_ok] at h
    obtain ⟨_, ⟨hle, rfl⟩, _, ⟨_, rfl⟩, rfl⟩ := h
    rw [if_neg hsome]
    exact ⟨hle, rfl⟩
  · rename_i hnone
    cases h
    rw [if_pos (by omega)]

/-- A pool that is added is the next one. -/
theorem add_eq_ok {allocPoint : Nat} {lpToken : Address} {withUpdate : Bool}
    (h : add sender n allocPoint lpToken withUpdate s = .ok s') :
    s.owner = sender ∧ ∃ s₁, updateIf n withUpdate s = .ok s₁ ∧
      updateStakingPool (s₁.added n allocPoint lpToken) = .ok s' := by
  simp only [add, onlyOwner, bind_eq_ok, require_eq_ok, SafeMath.add_eq_ok] at h
  obtain ⟨_, howner, s₁, hupdate, _, ⟨_, rfl⟩, h⟩ := h
  exact ⟨howner, s₁, hupdate, h⟩

/-- A weight that is set is of a pool that exists. -/
theorem set_eq_ok {allocPoint : Nat} {withUpdate : Bool}
    (h : set sender n pid allocPoint withUpdate s = .ok s') :
    s.owner = sender ∧ ∃ s₁, updateIf n withUpdate s = .ok s₁ ∧ pid < s₁.poolLength ∧
      (s₁.poolInfo pid).allocPoint ≤ s₁.totalAllocPoint ∧
      if (s₁.poolInfo pid).allocPoint = allocPoint then s' = s₁.weighed pid allocPoint
      else updateStakingPool (s₁.weighed pid allocPoint) = .ok s' := by
  simp only [set, onlyOwner, bind_eq_ok, require_eq_ok, SafeMath.add_eq_ok,
    SafeMath.sub_eq_ok] at h
  obtain ⟨_, howner, s₁, hupdate, pool, hpool, _, ⟨hle, rfl⟩, _, ⟨_, rfl⟩, h⟩ := h
  obtain ⟨hpid, rfl⟩ := poolAt_eq_ok hpool
  refine ⟨howner, s₁, hupdate, hpid, hle, ?_⟩
  split at h
  · rename_i hchanged
    rw [if_neg hchanged]
    exact h
  · rename_i hkept
    cases h
    rw [if_pos (not_not.mp hkept)]
    rfl

/-! ## Migration -/

/-- The state after a migrator left `tokens` and the new token of a pool. -/
def State.migrated (s : State) (pid : Nat) (lpToken : Address) (tokens : Ledgers) : State :=
  { s.setPoolInfo pid { s.poolInfo pid with lpToken } with tokens }

/-- The farm has as much of the new token as it had of the old one. -/
theorem migrate_eq_ok {call : Migrator} (h : migrate call pid s = .ok s') :
    s.migrator ≠ 0 ∧ pid < s.poolLength ∧ ∃ lpToken tokens,
      s.bal (s.poolInfo pid).lpToken s.here = (tokens lpToken).balanceOf s.here ∧
        s' = s.migrated pid lpToken tokens := by
  simp only [migrate, safeApprove, bind_eq_ok, require_eq_ok, pure_eq_ok] at h
  obtain ⟨_, hmigrator, pool, hpool, s₁, ⟨_, _, happrove⟩, ⟨tokens, lpToken⟩, _, _, hbal, rfl⟩ := h
  obtain ⟨hpid, rfl⟩ := poolAt_eq_ok hpool
  obtain ⟨t, _, rfl⟩ := onToken_eq_ok happrove
  exact ⟨hmigrator, hpid, lpToken, tokens, hbal, rfl⟩

/-! ## Effects -/

/-- The calls that change points. -/
def Op.weighs : Op → Prop
  | .add .. | .set .. => True
  | _ => False

/-- The pool of a call that pays the reward of a stake. -/
def Op.pool : Op → Option Nat
  | .deposit pid _ | .withdraw pid _ => some pid
  | .enterStaking _ | .leaveStaking _ => some 0
  | _ => none

/-- The stake that such a call leaves. -/
def Op.newStake (old : Nat) : Op → Nat
  | .deposit _ amount | .enterStaking amount => old + amount
  | .withdraw _ amount | .leaveStaking amount => old - amount
  | _ => old

/-- The calls that change a stake. -/
def Op.changes : Op → Bool
  | .deposit _ amount | .withdraw _ amount | .enterStaking amount
  | .leaveStaking amount => amount ≠ 0
  | _ => false

/-- What the parts of a transaction do, a migration apart. -/
inductive Effect (tx : Tx) : State → State → Prop
  | updated {s s' : State} (pid : Nat) (hpid : pid < s.poolLength)
      (h : Updated tx.blockNumber pid s s') : Effect tx s s'
  /-- what only the owner and `devaddr` set, and no pool depends on -/
  | appointed {s : State} (owner devaddr migrator : Address) (bonusMultiplier : Nat) :
      Effect tx s { s with owner, devaddr, migrator, bonusMultiplier }
  | added {s : State} (hweighs : tx.op.weighs) (allocPoint : Nat) (lpToken : Address) :
      Effect tx s (s.added tx.blockNumber allocPoint lpToken)
  | weighed {s : State} (hweighs : tx.op.weighs) (pid allocPoint : Nat) (hpid : pid < s.poolLength)
      (hle : (s.poolInfo pid).allocPoint ≤ s.totalAllocPoint) :
      Effect tx s (s.weighed pid allocPoint)
  | settled {s s' : State} (pid amount : Nat) (hpool : tx.op.pool = some pid)
      (hpid : pid < s.poolLength) (h : Settles tx.sender pid amount s s') : Effect tx s s'
  /-- an account leaves without its reward -/
  | left {s s' : State} (pid : Nat) (hop : tx.op = .emergencyWithdraw pid)
      (hpid : pid < s.poolLength)
      (h : Changes tx.sender pid { amount := 0, rewardDebt := 0 }
        (single (s.poolInfo pid).lpToken s.here (s.userInfo pid tx.sender).amount)
        (single (s.poolInfo pid).lpToken tx.sender (s.userInfo pid tx.sender).amount) s s') :
      Effect tx s s'
  /-- a token is called by somebody else -/
  | called {s : State} (token : Address) (t : ERC20)
      (h : ∀ keeper, keeper = s.here ∨ keeper = s.syrup →
        (s.tokens token).Sound keeper → ERC20.Keeps keeper (s.tokens token) t) :
      Effect tx s (s.setToken token t)

abbrev Effects (tx : Tx) : State → State → Prop := Relation.ReflTransGen (Effect tx)

variable {tx : Tx}

/-- An update is one effect. -/
theorem updatePool_effect (h : updatePool tx.blockNumber pid s = .ok s') : Effect tx s s' := by
  obtain ⟨hpid, hupdated⟩ := updatePool_eq_ok h
  exact .updated pid hpid hupdated

/-- Updating every pool is a chain of effects. -/
theorem massUpdatePools_effects (h : massUpdatePools tx.blockNumber s = .ok s') :
    Effects tx s s' :=
  foldlM_induct (P := Effects tx s)
    (fun _ _ _ ht hstep => ht.tail (updatePool_effect hstep)) h .refl

theorem updateIf_effects {withUpdate : Bool} (h : updateIf tx.blockNumber withUpdate s = .ok s') :
    Effects tx s s' := by
  unfold updateIf at h
  split at h
  · exact massUpdatePools_effects h
  · cases h
    exact .refl

theorem updateStakingPool_effects (hweighs : tx.op.weighs) (hpool : 0 < s.poolLength)
    (h : updateStakingPool s = .ok s') : Effects tx s s' := by
  have hcases := updateStakingPool_eq_ok h
  split at hcases
  · rw [hcases]
  · obtain ⟨hle, rfl⟩ := hcases
    exact .single (.weighed hweighs 0 _ hpool hle)

/-- A call that pays a reward updates its pool and settles the entry; no product overflows. -/
theorem exec_settles (hpool : tx.op.pool = some pid) (h : exec tx s = .ok s') :
    ∃ s₁, updatePool tx.blockNumber pid s = .ok s₁ ∧
      s₁.Fits pid (s₁.userInfo pid tx.sender).amount ∧
      s₁.Fits pid (tx.op.newStake (s.userInfo pid tx.sender).amount) ∧
      Settles tx.sender pid (tx.op.newStake (s.userInfo pid tx.sender).amount) s₁ s' := by
  obtain ⟨sender, n, migrator, op⟩ := tx
  cases op with
  | deposit p amount =>
      cases hpool
      exact (deposit_eq_ok h).2
  | withdraw p amount =>
      cases hpool
      exact (withdraw_eq_ok h).2.2
  | enterStaking amount =>
      cases hpool
      exact enterStaking_eq_ok h
  | leaveStaking amount =>
      cases hpool
      exact (leaveStaking_eq_ok h).2
  | _ => cases hpool

/-- A stake that is not changed. -/
theorem newStake_of_changes {op : Op} (h : op.changes = false) (old : Nat) :
    op.newStake old = old := by
  have hzero : ∀ {v : Nat}, decide (v ≠ 0) = false → v = 0 := fun hv =>
    not_not.mp (of_decide_eq_false hv)
  cases op with
  | deposit p amount =>
      show old + amount = old
      rw [hzero h, Nat.add_zero]
  | withdraw p amount =>
      show old - amount = old
      rw [hzero h, Nat.sub_zero]
  | enterStaking amount =>
      show old + amount = old
      rw [hzero h, Nat.add_zero]
  | leaveStaking amount =>
      show old - amount = old
      rw [hzero h, Nat.sub_zero]
  | _ => rfl

theorem called_effects {f : ERC20 → Result ERC20} (h : s.onToken token f = .ok s')
    (hkeeps : ∀ t, f (s.tokens token) = .ok t → ∀ keeper, keeper = s.here ∨ keeper = s.syrup →
      (s.tokens token).Sound keeper → ERC20.Keeps keeper (s.tokens token) t) :
    Effects tx s s' := by
  obtain ⟨t, hcall, rfl⟩ := onToken_eq_ok h
  exact .single (.called token t (hkeeps t hcall))

/-- Every call but a migration is a chain of effects. -/
theorem exec_effects (hhere : tx.sender ≠ s.here) (hsyrup : tx.sender ≠ s.syrup)
    (hop : ∀ pid, tx.op ≠ .migrate pid) (h : exec tx s = .ok s') : Effects tx s s' := by
  have hother : ∀ keeper, keeper = s.here ∨ keeper = s.syrup → keeper ≠ tx.sender := by
    rintro keeper (rfl | rfl)
    · exact hhere.symm
    · exact hsyrup.symm
  -- the four operations of a position: an update, then the settlement
  have hsettling : ∀ pid, tx.op.pool = some pid → Effects tx s s' := by
    intro pid hpool
    obtain ⟨s₁, hupdate, _, _, hsettled⟩ := exec_settles hpool h
    obtain ⟨hpid, hupdated⟩ := updatePool_eq_ok hupdate
    refine (Relation.ReflTransGen.single (.updated pid hpid hupdated)).tail ?_
    exact .settled pid _ hpool (hupdated.poolLength ▸ hpid) hsettled
  obtain ⟨sender, n, migrator, op⟩ := tx
  cases op with
  | updateMultiplier multiplierNumber =>
      simp only [exec, updateMultiplier, bind_eq_ok, pure_eq_ok] at h
      obtain ⟨_, _, rfl⟩ := h
      exact .single (.appointed s.owner s.devaddr s.migrator multiplierNumber)
  | add allocPoint lpToken withUpdate =>
      obtain ⟨_, s₁, hupdate, hstaking⟩ := add_eq_ok h
      -- a new pool changes the weights, and with them the staking pool's
      have hadded : Effects ⟨sender, n, migrator, .add allocPoint lpToken withUpdate⟩ s
          (s₁.added n allocPoint lpToken) := by
        refine .tail (updateIf_effects hupdate) ?_
        refine .added ?_ allocPoint lpToken
        trivial
      exact hadded.trans (updateStakingPool_effects trivial (Nat.succ_pos _) hstaking)
  | set pid allocPoint withUpdate =>
      obtain ⟨_, s₁, hupdate, hpid, hle, hrest⟩ := set_eq_ok h
      have hweighed : Effects ⟨sender, n, migrator, .set pid allocPoint withUpdate⟩ s
          (s₁.weighed pid allocPoint) := by
        refine .tail (updateIf_effects hupdate) ?_
        refine .weighed ?_ pid allocPoint hpid hle
        trivial
      split at hrest
      · rw [hrest]
        exact hweighed
      · exact hweighed.trans (updateStakingPool_effects trivial (Nat.zero_lt_of_lt hpid) hrest)
  | setMigrator migrator =>
      simp only [exec, setMigrator, bind_eq_ok, pure_eq_ok] at h
      obtain ⟨_, _, rfl⟩ := h
      exact .single (.appointed s.owner s.devaddr migrator s.bonusMultiplier)
  | migrate pid => exact absurd rfl (hop pid)
  | dev devaddr =>
      simp only [exec, dev, bind_eq_ok, pure_eq_ok] at h
      obtain ⟨_, _, rfl⟩ := h
      exact .single (.appointed s.owner devaddr s.migrator s.bonusMultiplier)
  | transferOwnership newOwner =>
      simp only [exec, transferOwnership, bind_eq_ok, pure_eq_ok] at h
      obtain ⟨_, _, _, _, rfl⟩ := h
      exact .single (.appointed newOwner s.devaddr s.migrator s.bonusMultiplier)
  | renounceOwnership =>
      simp only [exec, renounceOwnership, bind_eq_ok, pure_eq_ok] at h
      obtain ⟨_, _, rfl⟩ := h
      exact .single (.appointed 0 s.devaddr s.migrator s.bonusMultiplier)
  -- everyone's operations
  | massUpdatePools => exact massUpdatePools_effects h
  | updatePool pid => exact .single (updatePool_effect h)
  | deposit pid amount => exact hsettling pid rfl
  | withdraw pid amount => exact hsettling pid rfl
  | enterStaking amount => exact hsettling 0 rfl
  | leaveStaking amount => exact hsettling 0 rfl
  | emergencyWithdraw pid =>
      obtain ⟨hpid, hleft⟩ := emergencyWithdraw_eq_ok h
      exact .single (.left pid rfl hpid hleft)
  -- calls of a token by its holders
  | transfer token recipient amount =>
      simp only [exec] at h
      refine called_effects h ?_
      intro t hcall keeper hkeeper hsound
      exact hsound.keeps_transfer (hother keeper hkeeper) (BEP20.transfer_eq_ok.mp hcall)
  | transferFrom token holder recipient amount =>
      simp only [exec] at h
      refine called_effects h ?_
      intro t hcall keeper _ hsound
      exact hsound.keeps_transferFrom (BEP20.transferFrom_eq_ok.mp hcall)
  | approve token spender amount =>
      simp only [exec] at h
      refine called_effects h ?_
      intro t hcall keeper hkeeper hsound
      exact hsound.keeps_approve (hother keeper hkeeper) (BEP20.approve_eq_ok.mp hcall)
  | mintLp token account amount =>
      simp only [exec, bind_eq_ok] at h
      obtain ⟨_, _, h⟩ := h
      refine called_effects h ?_
      intro t hcall keeper _ hsound
      exact hsound.keeps_mint (BEP20.mint_eq_ok.mp hcall)

/-- Neither the farm nor SYRUP sends transactions. -/
theorem step_eq_ok (h : machine.step s tx = .ok s') :
    tx.sender ≠ s.here ∧ tx.sender ≠ s.syrup ∧ exec tx s = .ok s' := by
  simp only [machine, step, bind_eq_ok, require_eq_ok] at h
  obtain ⟨_, ⟨hhere, hsyrup⟩, h⟩ := h
  exact ⟨hhere, hsyrup, h⟩

/-- A farm at 100 with CAKE at 101, SYRUP at 102 and owner 103. -/
def freshState (cakePerBlock : Nat) : State :=
  initState 100 101 102 103 104 cakePerBlock 0 fun _ => {}

theorem freshState_init (cakePerBlock : Nat) : machine.init (freshState cakePerBlock) := by
  refine ⟨100, 101, 102, 103, 104, cakePerBlock, 0, fun _ => {}, rfl, by decide, by decide,
    by decide,
    by decide, ?_⟩
  have hempty : ∀ keeper : Address, ERC20.Sound keeper {} := fun _ =>
    ⟨ERC20.backed_empty, by decide, fun _ => rfl⟩
  exact fun _ => ⟨hempty 100, hempty 102⟩

end Huski.MasterChef
