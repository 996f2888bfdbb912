import Huski.Badge.Grades
import Huski.Lib.Custodian

/-!
# The bonus of the badges

`BadgeBonus.sol` with the badges that it reads. A deposit is split among all badges above the first
grade: every grade has an equal part, and every badge of it the part of one of `gradeLimitAmount`.
The parts of all badges are at most the deposit only if `BadgeNFT` has no more badges of a grade,
and no more grades with badges, than these two numbers say. It does not see to either.

Its token is a standard one or, where it is the wrapped native token, wraps what comes with a
call. The config is an answer of another contract and comes with the transaction. `receive` is
left out: nothing reads native coins.
-/

open Solidity

namespace Huski.Badge.Bonus

/-- The badges, with the keys of `_tokenOwners` in the order of `tokenByIndex`. -/
structure Badges extends BadgeNFT where
  keys : List Nat := []

/-- `EnumerableMap.remove`: the last key takes the place of the one that goes. -/
def swapRemove (keys : List Nat) (key : Nat) : List Nat :=
  (keys.set (keys.idxOf key) (keys.getLastD key)).dropLast

/-- The calls of the badges. -/
inductive NftOp
  | transferFrom (src dst : Address) (tokenId : Nat)
  | burn (src : Address) (tokenId : Nat)
  | mintTo (dst : Address) (tokenId grade : Nat)
  | upgrade (tokenId newGrade : Nat)
  | setOperatorsOk (operators : List Address) (isOk : Bool)
  | setGradeInfo (ids points huskys amounts : List Nat)
  | transferOwnership (newOwner : Address)
  | renounceOwnership

/-- The call of one function of the badges. -/
def execNft (sender : Address) (t : BadgeNFT) : NftOp → Result BadgeNFT
  | .transferFrom src dst tokenId => t.transferFrom sender src dst tokenId
  | .burn src tokenId => t.burn sender src tokenId
  | .mintTo dst tokenId grade => t.mintTo sender dst tokenId grade
  | .upgrade tokenId newGrade => t.upgrade sender tokenId newGrade
  | .setOperatorsOk operators isOk => t.setOperatorsOk sender operators isOk
  | .setGradeInfo ids points huskys amounts => t.setGradeInfo sender ids points huskys amounts
  | .transferOwnership newOwner => t.transferOwnership sender newOwner
  | .renounceOwnership => t.renounceOwnership sender

/-- What a call does to the keys. -/
def keysAfter (keys : List Nat) : NftOp → List Nat
  | .mintTo _ tokenId _ => keys ++ [tokenId]
  | .burn _ tokenId => swapRemove keys tokenId
  | _ => keys

/-- The storage of the bonus, with the badges it pays and its own token. -/
structure State where
  here : Address
  owner : Address
  /-- the address of the token, and its ledger -/
  tokenHere : Address
  token : ERC20
  reservePool : Nat
  /-- the ledger of `BadgeBonus` itself -/
  erc20 : ERC20
  badges : Badges

/-- What other contracts answer in a transaction. -/
structure Outside where
  /-- `config.getWrappedNativeAddr()` -/
  wrappedNative : Address := 0
  /-- `config.getWNativeRelayer()` -/
  wNativeRelayer : Address := 0
  /-- the relayer pays native coins out, and the sender takes them -/
  unwraps : Bool := true

section Calls

variable (sender : Address) (o : Outside) (s : State)

def onlyOwner : Result Unit := require (sender = s.owner) "Ownable: caller is not the owner"

/-- `transferTokenToBonus` -/
def transferTokenToBonus (value amount : Nat) : Result State :=
  if value ≠ 0 then do
    require (s.tokenHere = o.wrappedNative) "Vault::transferTokenToBonus: baseToken is not wNative"
    require (amount = value) "Vault::transferTokenToBonus: value != msg.value"
    let token ← s.token._mint s.here value
    return { s with token }
  else do
    let token ← lowLevel "!safeTransferFrom" (s.token.transferFrom s.here sender s.here amount)
    return { s with token }

/-- One round of the loop of `_deposit`, with the part of a grade. -/
def mintPart (t : BadgeNFT) (amount : Nat) (erc20 : ERC20) (tokenId : Nat) : Result ERC20 :=
  if t.tokensGrade tokenId > 0 then do
    let user ← t.ownerOf tokenId
    let badgeAmount ← entry t.gradeLimitAmount (t.tokensGrade tokenId)
    let part ← SafeMath.div amount badgeAmount
    erc20._mint user part
  else .ok erc20

/-- `GRADE_LIMIT` starts at 5 and never falls, so that the subtraction does not wrap. -/
def _deposit (amountToken : Nat) : Result State := do
  let amount ← SafeMath.div amountToken (s.badges.gradeLimit - 1)
  let erc20 ← s.badges.keys.foldlM (mintPart s.badges.toBadgeNFT amount) s.erc20
  return { s with erc20 }

/-- The tokens come in first, and then every badge gets its part. -/
def deposit (value amountToken : Nat) : Result State := do
  let s ← transferTokenToBonus sender o s value amountToken
  _deposit s amountToken

/-- `SafeToken.safeTransfer` from here. -/
def safeTransfer (dst : Address) (amount : Nat) : Result State := do
  let token ← lowLevel "!safeTransfer" (s.token._transfer s.here dst amount)
  return { s with token }

/-- `WNativeRelayer.withdraw` and the payment of the native coins. -/
def unwrap (amount : Nat) : Result State := do
  require (o.unwraps = true ∧ o.wNativeRelayer ≠ s.here) "!safeTransferETH"
  let token ← s.token._burn o.wNativeRelayer amount
  return { s with token }

/-- The sender's parts are burned and paid. -/
def withdraw : Result State := do
  let amount := s.erc20.balanceOf sender
  let erc20 ← s.erc20._burn sender amount
  let s := { s with erc20 }
  if s.tokenHere = o.wrappedNative then do
    let s ← safeTransfer s o.wNativeRelayer amount
    unwrap o s amount
  else safeTransfer s sender amount

def withdrawReserve (dst : Address) (value : Nat) : Result State := do
  onlyOwner sender s
  let reservePool ← SafeMath.sub s.reservePool value
  safeTransfer { s with reservePool } dst value

/-- The owner gives up part of the reserve. -/
def reduceReserve (value : Nat) : Result State := do
  onlyOwner sender s
  let reservePool ← SafeMath.sub s.reservePool value
  return { s with reservePool }

def transferOwnership (newOwner : Address) : Result State := do
  onlyOwner sender s
  require (newOwner ≠ 0) "Ownable: new owner is the zero address"
  return { s with owner := newOwner }

def renounceOwnership : Result State := do
  onlyOwner sender s
  return { s with owner := 0 }

end Calls

inductive Op
  | deposit (amountToken : Nat)
  | withdraw
  | withdrawReserve (dst : Address) (value : Nat)
  | reduceReserve (value : Nat)
  | transferOwnership (newOwner : Address)
  | renounceOwnership
  | bonus (op : ERC20.Op)
  /-- calls of the token, and new units of it -/
  | token (op : ERC20.Op)
  | tokenMint (account : Address) (amount : Nat)
  | nft (op : NftOp)

structure Tx where
  sender : Address
  /-- `msg.value` -/
  value : Nat := 0
  outside : Outside := {}
  op : Op

/-- One transaction; `BadgeBonus` contains no call of itself. -/
def exec (s : State) (tx : Tx) : Result State := do
  require (tx.sender ≠ s.here) ""
  match tx.op with
  | .deposit amountToken => deposit tx.sender tx.outside s tx.value amountToken
  | .withdraw => withdraw tx.sender tx.outside s
  | .withdrawReserve dst value => withdrawReserve tx.sender s dst value
  | .reduceReserve value => reduceReserve tx.sender s value
  | .transferOwnership newOwner => transferOwnership tx.sender s newOwner
  | .renounceOwnership => renounceOwnership tx.sender s
  | .bonus op => do
      let erc20 ← ERC20.exec tx.sender s.erc20 op
      return { s with erc20 }
  | .token op => do
      let token ← ERC20.exec tx.sender s.token op
      return { s with token }
  | .tokenMint account amount => do
      let token ← s.token._mint account amount
      return { s with token }
  | .nft op => do
      let t ← execNft tx.sender s.badges.toBadgeNFT op
      return { s with badges := { toBadgeNFT := t, keys := keysAfter s.badges.keys op } }

/-- `BadgeBonus` and the badges just deployed, over a token on which it has approved nobody. -/
def machine : TSys State Tx where
  init s := s.here ≠ 0 ∧ s.token.Sound s.here ∧ s.reservePool = 0 ∧ s.erc20 = {} ∧
    ∃ nftOwner, s.badges = { owner := nftOwner }
  step := exec

/-! ## What a deposit mints -/

section Deposit

variable {sender : Address} {o : Outside} {t : BadgeNFT} {keys : List Nat} {s s' : State}
  {value amount amountToken : Nat} {erc20 erc20' : ERC20}

/-- The badges above the first grade, each counted as one of `gradeLimitAmount` of its grade. -/
def parts (t : BadgeNFT) (keys : List Nat) : ℚ :=
  ((keys.filter fun tokenId => 0 < t.tokensGrade tokenId).map fun tokenId =>
    (1 : ℚ) / t.limit (t.tokensGrade tokenId)).sum

theorem mintPart_keeps {tokenId : Nat} {keeper : Address} (h : erc20.Sound keeper)
    (hmints : mintPart t amount erc20 tokenId = .ok erc20') : erc20'.Sound keeper := by
  unfold mintPart at hmints
  split at hmints
  · simp only [bind_eq_ok] at hmints
    obtain ⟨_, _, _, _, part, _, hmints⟩ := hmints
    exact (h.keeps_mint hmints).1
  · cases hmints
    exact h

/-- The badges that get a part. -/
def above (t : BadgeNFT) (keys : List Nat) : List Nat :=
  keys.filter fun tokenId => 0 < t.tokensGrade tokenId

/-- What the loop mints. -/
def minted (t : BadgeNFT) (keys : List Nat) (amount : Nat) : Nat :=
  ((above t keys).map fun tokenId => amount / t.limit (t.tokensGrade tokenId)).sum

theorem mintParts_eq (hmints : keys.foldlM (mintPart t amount) erc20 = .ok erc20') :
    erc20'.totalSupply = erc20.totalSupply + minted t keys amount := by
  induction keys generalizing erc20 with
  | nil =>
      cases hmints
      rfl
  | cons tokenId keys ih =>
      simp only [List.foldlM_cons, bind_eq_ok] at hmints
      obtain ⟨erc20₁, hfirst, hrest⟩ := hmints
      have hsupply := ih hrest
      unfold mintPart at hfirst
      by_cases hgrade : t.tokensGrade tokenId > 0
      -- a badge of a positive grade gets its part of the amount
      · rw [if_pos hgrade] at hfirst
        simp only [bind_eq_ok, entry_eq_ok, SafeMath.div_eq_ok] at hfirst
        obtain ⟨user, _, _, ⟨_, rfl⟩, _, ⟨_, rfl⟩, hmint⟩ := hfirst
        have hminted : minted t (tokenId :: keys) amount =
            amount / t.limit (t.tokensGrade tokenId) + minted t keys amount := by
          unfold minted above
          rw [List.filter_cons_of_pos (by exact decide_eq_true hgrade), List.map_cons,
            List.sum_cons]
        rw [hsupply, ERC20.totalSupply_mint hmint, hminted]
        exact Nat.add_assoc _ _ _
      -- grade 0 gets nothing, and is not in the filtered list
      · rw [if_neg hgrade] at hfirst
        cases hfirst
        have hminted : minted t (tokenId :: keys) amount = minted t keys amount := by
          unfold minted above
          rw [List.filter_cons_of_neg (by simpa using hgrade)]
        rw [hminted]
        exact hsupply

/-- Every part is rounded down. -/
theorem minted_le (t : BadgeNFT) (keys : List Nat) (amount : Nat) :
    (minted t keys amount : ℚ) ≤ amount * parts t keys := by
  unfold minted parts above
  induction keys.filter fun tokenId => 0 < t.tokensGrade tokenId with
  | nil => simp
  | cons tokenId rest ih =>
      have hpart : ((amount / t.limit (t.tokensGrade tokenId) : Nat) : ℚ) ≤
          amount * (1 / t.limit (t.tokensGrade tokenId)) := by
        rw [mul_one_div]
        exact Nat.cast_div_le
      rw [List.map_cons, List.sum_cons, List.map_cons, List.sum_cons, Nat.cast_add, mul_add]
      exact add_le_add hpart ih

/-- Nothing is rounded in a deposit that all limits divide. -/
theorem minted_of_dvd (hpos : ∀ tokenId ∈ above t keys, 0 < t.limit (t.tokensGrade tokenId))
    (hdvd : ∀ tokenId ∈ above t keys, t.limit (t.tokensGrade tokenId) ∣ amount) :
    (minted t keys amount : ℚ) = amount * parts t keys := by
  unfold minted parts
  unfold above at hpos hdvd ⊢
  generalize keys.filter (fun tokenId => 0 < t.tokensGrade tokenId) = badges at hpos hdvd ⊢
  induction badges with
  | nil => simp
  | cons tokenId rest ih =>
      have hrest := ih (fun id hid => hpos id (List.mem_cons_of_mem _ hid))
        (fun id hid => hdvd id (List.mem_cons_of_mem _ hid))
      have hlimit := hpos tokenId List.mem_cons_self
      have hpart : ((amount / t.limit (t.tokensGrade tokenId) : Nat) : ℚ) =
          amount * (1 / t.limit (t.tokensGrade tokenId)) := by
        rw [mul_one_div]
        exact Nat.cast_div (hdvd tokenId List.mem_cons_self) (by positivity)
      rw [List.map_cons, List.sum_cons, List.map_cons, List.sum_cons, Nat.cast_add, mul_add,
        hpart, hrest]

/-- So the count of the badges is what decides whether every deposit covers its parts. -/
theorem minted_le_iff (n : Nat)
    (hpos : ∀ tokenId ∈ above t keys, 0 < t.limit (t.tokensGrade tokenId)) :
    (∀ amount, minted t keys amount ≤ amount * n) ↔ parts t keys ≤ n := by
  constructor
  · intro hcovers
    have hprod : 0 < ((above t keys).map fun tokenId => t.limit (t.tokensGrade tokenId)).prod := by
      apply List.prod_pos
      intro limit hlimit
      obtain ⟨tokenId, hmem, rfl⟩ := List.mem_map.mp hlimit
      exact hpos tokenId hmem
    have hexact := minted_of_dvd hpos fun tokenId hmem =>
      List.dvd_prod (List.mem_map_of_mem (f := fun tokenId => t.limit (t.tokensGrade tokenId)) hmem)
    have hle := Nat.cast_le (α := ℚ).mpr
      (hcovers ((above t keys).map fun tokenId => t.limit (t.tokensGrade tokenId)).prod)
    rw [hexact, Nat.cast_mul] at hle
    exact le_of_mul_le_mul_left hle (Nat.cast_pos.mpr hprod)
  · intro hfits amount
    have hle := minted_le t keys amount
    have hbound := mul_le_mul_of_nonneg_left hfits (Nat.cast_nonneg (α := ℚ) amount)
    have hcast : (minted t keys amount : ℚ) ≤ ((amount * n : Nat) : ℚ) := by
      rw [Nat.cast_mul]
      exact hle.trans hbound
    exact Nat.cast_le.mp hcast

/-- The count is in order if no grade has more badges than its limit and at most `n` grades above
the first have badges. -/
theorem parts_le_of_limits (n : Nat)
    (hlimits : ∀ grade, 0 < grade → (keys.map t.tokensGrade).count grade ≤ t.limit grade)
    (hgrades : (((above t keys).map t.tokensGrade).toFinset).card ≤ n) : parts t keys ≤ n := by
  have hsum : parts t keys = ∑ grade ∈ ((above t keys).map t.tokensGrade).toFinset,
      ((above t keys).map t.tokensGrade).count grade • ((1 : ℚ) / t.limit grade) := by
    rw [← Finset.sum_list_map_count, List.map_map]
    rfl
  have hone : ∀ grade ∈ ((above t keys).map t.tokensGrade).toFinset,
      ((above t keys).map t.tokensGrade).count grade • ((1 : ℚ) / t.limit grade) ≤ 1 := by
    intro grade hmem
    obtain ⟨tokenId, hid, rfl⟩ := List.mem_map.mp (List.mem_toFinset.mp hmem)
    have hpos : 0 < t.tokensGrade tokenId := of_decide_eq_true (List.mem_filter.mp hid).2
    have hfewer : ((above t keys).map t.tokensGrade).count (t.tokensGrade tokenId) ≤
        t.limit (t.tokensGrade tokenId) :=
      (List.Sublist.count_le _ (List.filter_sublist.map _)).trans (hlimits _ hpos)
    rw [nsmul_eq_mul, mul_one_div]
    exact div_le_one_of_le₀ (Nat.cast_le.mpr hfewer) (Nat.cast_nonneg _)
  rw [hsum]
  refine (Finset.sum_le_card_nsmul _ _ 1 hone).trans ?_
  rw [nsmul_eq_mul, mul_one]
  exact Nat.cast_le.mpr hgrades

/-- A deposit mints at most what it brings if the badges count to `GRADE_LIMIT - 1` at most. -/
theorem _deposit_mints_le
    (hfits : parts s.badges.toBadgeNFT s.badges.keys ≤ (s.badges.gradeLimit - 1 : Nat))
    (h : _deposit s amountToken = .ok s') :
    s'.erc20.totalSupply ≤ s.erc20.totalSupply + amountToken := by
  simp only [_deposit, bind_eq_ok, SafeMath.div_eq_ok, pure_eq_ok] at h
  obtain ⟨_, ⟨_, rfl⟩, erc20, hmints, rfl⟩ := h
  have hle := minted_le s.badges.toBadgeNFT s.badges.keys
    (amountToken / (s.badges.gradeLimit - 1))
  have hbound := mul_le_mul_of_nonneg_left hfits
    (Nat.cast_nonneg (α := ℚ) (amountToken / (s.badges.gradeLimit - 1)))
  have hcast : minted s.badges.toBadgeNFT s.badges.keys (amountToken / (s.badges.gradeLimit - 1)) ≤
      amountToken / (s.badges.gradeLimit - 1) * (s.badges.gradeLimit - 1) := by
    exact_mod_cast hle.trans hbound
  have hsplit := hcast.trans (Nat.div_mul_le_self _ _)
  have hsupply := mintParts_eq hmints
  show erc20.totalSupply ≤ s.erc20.totalSupply + amountToken
  omega

/-- If the badges count to more, some deposit mints more than it brings. -/
theorem _deposit_mints_more
    (hpos : ∀ tokenId ∈ above s.badges.toBadgeNFT s.badges.keys,
      0 < s.badges.limit (s.badges.tokensGrade tokenId))
    (hmany : ¬ parts s.badges.toBadgeNFT s.badges.keys ≤ (s.badges.gradeLimit - 1 : Nat)) :
    ∃ amountToken, ∀ s', _deposit s amountToken = .ok s' →
      s.erc20.totalSupply + amountToken < s'.erc20.totalSupply := by
  have hsome := mt (minted_le_iff (s.badges.gradeLimit - 1) hpos).mp hmany
  obtain ⟨amount, hmore⟩ := not_forall.mp hsome
  refine ⟨amount * (s.badges.gradeLimit - 1), fun s' h => ?_⟩
  simp only [_deposit, bind_eq_ok, SafeMath.div_eq_ok, pure_eq_ok] at h
  obtain ⟨_, ⟨hgrades, rfl⟩, erc20, hmints, rfl⟩ := h
  rw [Nat.mul_div_cancel _ (Nat.pos_of_ne_zero hgrades)] at hmints
  have hsupply := mintParts_eq hmints
  show s.erc20.totalSupply + amount * (s.badges.gradeLimit - 1) < erc20.totalSupply
  omega

theorem _deposit_writes (h : _deposit s amountToken = .ok s') :
    s' = { s with erc20 := s'.erc20 } ∧
      ∀ keeper, s.erc20.Sound keeper → s'.erc20.Sound keeper := by
  simp only [_deposit, bind_eq_ok, pure_eq_ok] at h
  obtain ⟨_, _, erc20, hmints, rfl⟩ := h
  refine ⟨rfl, fun keeper hsound => ?_⟩
  exact foldlM_induct (fun _ _ _ hs hmint => mintPart_keeps hs hmint) hmints hsound

/-- The deposit is here before its parts are minted. -/
theorem transferTokenToBonus_brings (hsender : sender ≠ s.here) (hs : s.token.Sound s.here)
    (h : transferTokenToBonus sender o s value amount = .ok s') :
    s' = { s with token := s'.token } ∧ s'.token.Sound s.here ∧
      s'.token.balanceOf s.here = s.token.balanceOf s.here + amount := by
  unfold transferTokenToBonus at h
  split at h
  · simp only [bind_eq_ok, require_eq_ok, pure_eq_ok] at h
    obtain ⟨_, _, _, rfl, token, hmints, rfl⟩ := h
    refine ⟨rfl, (hs.keeps_mint hmints).1, ?_⟩
    rw [ERC20.balanceOf_mint hmints, if_pos rfl]
  · simp only [bind_eq_ok, lowLevel_eq_ok, pure_eq_ok] at h
    obtain ⟨token, hmoves, rfl⟩ := h
    have hbalance := ERC20.balanceOf_transferFrom hmoves s.here
    rw [if_neg (Ne.symm hsender), if_pos rfl] at hbalance
    exact ⟨rfl, (hs.keeps_transferFrom hmoves).1, hbalance⟩

end Deposit

/-! ## What is owed is there -/

/-- The bonuses of all holders are here. -/
structure Solvent (s : State) : Prop where
  here_ne : s.here ≠ 0
  token : s.token.Sound s.here
  erc20 : s.erc20.Sound s.here
  noReserve : s.reservePool = 0
  gradeLimit : 5 ≤ s.badges.gradeLimit
  supply_le : s.erc20.totalSupply ≤ s.token.balanceOf s.here

/-- At a deposit the badges count to `GRADE_LIMIT - 1` at most. -/
def PartsFit (s : State) (tx : Tx) : Prop :=
  match tx.op with
  | .deposit _ => parts s.badges.toBadgeNFT s.badges.keys ≤ (s.badges.gradeLimit - 1 : Nat)
  | _ => True

/-- No grade above 0 has more badges than its limit, and at most `GRADE_LIMIT - 1` of them have
badges. -/
structure WithinLimits (s : State) : Prop where
  limits : ∀ grade, 0 < grade →
    (s.badges.keys.map s.badges.tokensGrade).count grade ≤ s.badges.limit grade
  grades : ((above s.badges.toBadgeNFT s.badges.keys).map s.badges.tokensGrade).toFinset.card ≤
    s.badges.gradeLimit - 1

section Solvency

variable {sender dst : Address} {o : Outside} {s s' : State} {value amount amountToken : Nat}
  {t t' : ERC20}

theorem Solvent.deposit (h : Solvent s) (hsender : sender ≠ s.here)
    (hfits : parts s.badges.toBadgeNFT s.badges.keys ≤ (s.badges.gradeLimit - 1 : Nat))
    (hdeposits : deposit sender o s value amountToken = .ok s') :
    Solvent s' ∧ s'.erc20.totalSupply ≤ s.erc20.totalSupply + amountToken := by
  simp only [Bonus.deposit, bind_eq_ok] at hdeposits
  obtain ⟨s₁, hbrings, hmints⟩ := hdeposits
  obtain ⟨hs₁, htoken, hbalance⟩ := transferTokenToBonus_brings hsender h.token hbrings
  obtain ⟨hs', hsound⟩ := _deposit_writes hmints
  have hbadges : s₁.badges = s.badges := by rw [hs₁]
  have herc20 : s₁.erc20 = s.erc20 := by rw [hs₁]
  -- what is minted is covered by what the deposit brought in
  have hle : s'.erc20.totalSupply ≤ s₁.erc20.totalSupply + amountToken := by
    refine _deposit_mints_le ?_ hmints
    rw [hbadges]
    exact hfits
  rw [herc20] at hle
  refine ⟨⟨?_, ?_, ?_, ?_, ?_, ?_⟩, hle⟩
  · rw [hs', hs₁]
    exact h.here_ne
  · rw [hs', hs₁]
    exact htoken
  · have hhere : s'.here = s.here := by rw [hs', hs₁]
    rw [hhere]
    refine hsound s.here ?_
    rw [herc20]
    exact h.erc20
  · rw [hs', hs₁]
    exact h.noReserve
  · rw [hs', hs₁]
    exact h.gradeLimit
  · have hhere : s'.here = s.here := by rw [hs', hs₁]
    have htoken' : s'.token = s₁.token := by rw [hs']
    have hsupply := h.supply_le
    rw [hhere, htoken']
    omega

/-- What a withdrawal burns is what leaves. -/
theorem Solvent.withdraw (h : Solvent s) (hwithdraws : withdraw sender o s = .ok s') :
    Solvent s' := by
  simp only [Bonus.withdraw, bind_eq_ok] at hwithdraws
  obtain ⟨erc20, hburns, hrest⟩ := hwithdraws
  have hsupply := ERC20.totalSupply_burn hburns
  -- the same payment in both branches, to the relayer or to the sender
  have hpays : ∀ {dst s₁}, safeTransfer { s with erc20 } dst (s.erc20.balanceOf sender) = .ok s₁ →
      Solvent s₁ ∧ s₁.here = s.here := by
    intro dst s₁ hpays
    simp only [safeTransfer, bind_eq_ok, lowLevel_eq_ok, pure_eq_ok] at hpays
    obtain ⟨token, hmoves, rfl⟩ := hpays
    have hbalance := ERC20.balanceOf_transfer hmoves s.here
    have hle := h.supply_le
    refine ⟨⟨h.here_ne, h.token.transfer hmoves, h.erc20.burn hburns, h.noReserve, h.gradeLimit,
      ?_⟩, rfl⟩
    show erc20.totalSupply ≤ token.balanceOf s.here
    rw [if_pos rfl] at hbalance
    omega
  split at hrest
  -- wrapped native coins: the relayer unwraps what it was sent
  · simp only [bind_eq_ok] at hrest
    obtain ⟨s₁, hmoves, hunwraps⟩ := hrest
    obtain ⟨hs₁, hhere⟩ := hpays hmoves
    simp only [unwrap, bind_eq_ok, require_eq_ok, pure_eq_ok] at hunwraps
    obtain ⟨_, ⟨_, hrelayer⟩, token, hburn, rfl⟩ := hunwraps
    obtain ⟨htoken, hkeeps⟩ := hs₁.token.keeps_burn (Ne.symm hrelayer) hburn
    exact { hs₁ with token := htoken, supply_le := hs₁.supply_le.trans hkeeps }
  · exact (hpays hrest).1

theorem gradeLimit_execNft {op : NftOp} {t t' : BadgeNFT} (h : execNft sender t op = .ok t') :
    t.gradeLimit ≤ t'.gradeLimit := by
  cases op with
  | transferFrom src dst tokenId =>
      have hwrites := BadgeNFT.transferFrom_writes h
      rw [hwrites]
  | burn src tokenId => rw [(BadgeNFT.burn_writes h).2]
  | mintTo dst tokenId grade => rw [(BadgeNFT.mintTo_writes h).2.2]
  | upgrade tokenId newGrade => rw [(BadgeNFT.upgrade_writes h).2.2.2]
  | setOperatorsOk operators isOk =>
      simp only [execNft, BadgeNFT.setOperatorsOk, bind_eq_ok, pure_eq_ok] at h
      obtain ⟨_, _, rfl⟩ := h
      exact le_rfl
  -- the only function that changes the limit takes a maximum
  | setGradeInfo ids points huskys amounts =>
      simp only [execNft, BadgeNFT.setGradeInfo, bind_eq_ok] at h
      obtain ⟨_, _, hgrades⟩ := h
      rw [(BadgeNFT.setGrades_writes hgrades).1]
      exact le_max_left _ _
  | transferOwnership newOwner =>
      simp only [execNft, BadgeNFT.transferOwnership, bind_eq_ok, pure_eq_ok] at h
      obtain ⟨_, _, _, _, rfl⟩ := h
      exact le_rfl
  | renounceOwnership =>
      simp only [execNft, BadgeNFT.renounceOwnership, bind_eq_ok, pure_eq_ok] at h
      obtain ⟨_, _, rfl⟩ := h
      exact le_rfl

theorem Solvent.step {tx : Tx} (h : Solvent s) (hfits : PartsFit s tx)
    (hstep : exec s tx = .ok s') : Solvent s' := by
  obtain ⟨sender, value, o, op⟩ := tx
  simp only [exec, bind_eq_ok, require_eq_ok] at hstep
  obtain ⟨_, hsender, hstep⟩ := hstep
  cases op with
  | deposit amountToken => exact (h.deposit hsender hfits hstep).1
  | withdraw => exact h.withdraw hstep
  -- the reserve is zero, so only zero can be withdrawn
  | withdrawReserve dst value =>
      simp only [withdrawReserve, safeTransfer, bind_eq_ok, lowLevel_eq_ok, SafeMath.sub_eq_ok,
        pure_eq_ok] at hstep
      obtain ⟨_, _, _, ⟨hle, rfl⟩, token, hmoves, rfl⟩ := hstep
      have hbalance := ERC20.balanceOf_transfer hmoves s.here
      have hnothing := h.noReserve
      have hsupply := h.supply_le
      refine ⟨h.here_ne, h.token.transfer hmoves, h.erc20, ?_, h.gradeLimit, ?_⟩
      · show s.reservePool - value = 0
        omega
      · show s.erc20.totalSupply ≤ token.balanceOf s.here
        rw [if_pos rfl] at hbalance
        omega
  | reduceReserve value =>
      simp only [reduceReserve, bind_eq_ok, SafeMath.sub_eq_ok, pure_eq_ok] at hstep
      obtain ⟨_, _, _, ⟨_, rfl⟩, rfl⟩ := hstep
      have hnothing := h.noReserve
      refine ⟨h.here_ne, h.token, h.erc20, ?_, h.gradeLimit, h.supply_le⟩
      show s.reservePool - value = 0
      omega
  | transferOwnership newOwner =>
      simp only [transferOwnership, bind_eq_ok, pure_eq_ok] at hstep
      obtain ⟨_, _, _, _, rfl⟩ := hstep
      exact ⟨h.here_ne, h.token, h.erc20, h.noReserve, h.gradeLimit, h.supply_le⟩
  | renounceOwnership =>
      simp only [renounceOwnership, bind_eq_ok, pure_eq_ok] at hstep
      obtain ⟨_, _, rfl⟩ := hstep
      exact ⟨h.here_ne, h.token, h.erc20, h.noReserve, h.gradeLimit, h.supply_le⟩
  -- the bonus's own token moves between accounts
  | bonus op =>
      simp only [bind_eq_ok, pure_eq_ok] at hstep
      obtain ⟨erc20, hexec, rfl⟩ := hstep
      obtain ⟨hsound, _⟩ := h.erc20.keeps_exec (Ne.symm hsender) hexec
      refine ⟨h.here_ne, h.token, hsound, h.noReserve, h.gradeLimit, ?_⟩
      show erc20.totalSupply ≤ s.token.balanceOf s.here
      rw [ERC20.totalSupply_exec hexec]
      exact h.supply_le
  -- nobody but the bonus itself can take its tokens
  | token op =>
      simp only [bind_eq_ok, pure_eq_ok] at hstep
      obtain ⟨token, hexec, rfl⟩ := hstep
      obtain ⟨hsound, hkeeps⟩ := h.token.keeps_exec (Ne.symm hsender) hexec
      exact ⟨h.here_ne, hsound, h.erc20, h.noReserve, h.gradeLimit, h.supply_le.trans hkeeps⟩
  | tokenMint account amount =>
      simp only [bind_eq_ok, pure_eq_ok] at hstep
      obtain ⟨token, hmints, rfl⟩ := hstep
      obtain ⟨hsound, hkeeps⟩ := h.token.keeps_mint hmints
      exact ⟨h.here_ne, hsound, h.erc20, h.noReserve, h.gradeLimit, h.supply_le.trans hkeeps⟩
  | nft op =>
      simp only [bind_eq_ok, pure_eq_ok] at hstep
      obtain ⟨t, hexec, rfl⟩ := hstep
      have hgrades := gradeLimit_execNft hexec
      exact ⟨h.here_ne, h.token, h.erc20, h.noReserve, h.gradeLimit.trans hgrades, h.supply_le⟩

theorem WithinLimits.partsFit {tx : Tx} (h : WithinLimits s) : PartsFit s tx := by
  unfold PartsFit
  split
  · exact parts_le_of_limits _ h.limits h.grades
  · trivial

theorem solvent_inductive : machine.Inductive PartsFit Solvent where
  init s hinit := by
    obtain ⟨hhere, htoken, hreserve, herc20, nftOwner, hbadges⟩ := hinit
    refine ⟨hhere, htoken, ?_, hreserve, ?_, ?_⟩
    · rw [herc20]
      exact ⟨ERC20.backed_empty, Nat.two_pow_pos 256, fun _ => rfl⟩
    · rw [hbadges]
    · rw [herc20]
      exact Nat.zero_le _
  step _ _ _ h hfits hstep := h.step hfits hstep

/-- The native coins of a withdrawal can be paid. -/
def Payable (o : Outside) (s : State) : Prop :=
  s.tokenHere = o.wrappedNative →
    o.unwraps = true ∧ o.wNativeRelayer ≠ s.here ∧ o.wNativeRelayer ≠ 0

theorem Solvent.withdraw_isOk (h : Solvent s) (hsender : sender ≠ 0) (hpays : Payable o s) :
    ∃ s', Bonus.withdraw sender o s = .ok s' := by
  obtain ⟨erc20, hburns⟩ := h.erc20.burn_isOk hsender le_rfl
  have hamount : s.erc20.balanceOf sender ≤ s.token.balanceOf s.here :=
    (h.erc20.backed.balanceOf_le sender).trans h.supply_le
  simp only [Bonus.withdraw, bind_eq_ok, hburns, Except.ok.injEq, exists_eq_left']
  split
  · rename_i hnative
    obtain ⟨hunwraps, hrelayer, hnonzero⟩ := hpays hnative
    obtain ⟨token, hmoves⟩ := h.token.transfer_isOk h.here_ne hnonzero hamount
    have hbalance := ERC20.balanceOf_transfer hmoves o.wNativeRelayer
    rw [if_neg hrelayer, if_pos rfl] at hbalance
    obtain ⟨token', hburn⟩ := (h.token.transfer hmoves).burn_isOk hnonzero
      (show s.erc20.balanceOf sender ≤ token.balanceOf o.wNativeRelayer by omega)
    simp only [safeTransfer, unwrap, bind_eq_ok, require_eq_ok, lowLevel_eq_ok, pure_eq_ok]
    exact ⟨_, _, ⟨token, hmoves, rfl⟩, (), ⟨hunwraps, hrelayer⟩, token', hburn, rfl⟩
  · obtain ⟨token, hmoves⟩ := h.token.transfer_isOk h.here_ne hsender hamount
    simp only [safeTransfer, bind_eq_ok, lowLevel_eq_ok, pure_eq_ok]
    exact ⟨_, token, hmoves, rfl⟩

/-- If the badges count to `GRADE_LIMIT - 1` at most at every deposit, the bonuses of all holders
are here, a deposit mints at most what it brings, and every holder can withdraw. The count is in
order while the limits are kept; where it is not, with positive limits, some deposit mints more
than it brings. -/
theorem totalSupply_le_of_reachable (s : State) (hreach : machine.ReachableBy PartsFit s) :
    s.erc20.totalSupply ≤ s.token.balanceOf s.here ∧
    (∀ sender value o amountToken s', PartsFit s { sender, op := .deposit amountToken } →
      sender ≠ s.here → deposit sender o s value amountToken = .ok s' →
        s'.erc20.totalSupply ≤ s.erc20.totalSupply + amountToken) ∧
    (∀ holder o, holder ≠ 0 → Payable o s → ∃ s', withdraw holder o s = .ok s') ∧
    (WithinLimits s → ∀ tx, PartsFit s tx) ∧
    ((∀ tokenId ∈ above s.badges.toBadgeNFT s.badges.keys,
        0 < s.badges.limit (s.badges.tokensGrade tokenId)) →
      (∃ tx, ¬ PartsFit s tx) → ∃ amountToken, ∀ s', _deposit s amountToken = .ok s' →
        s.erc20.totalSupply + amountToken < s'.erc20.totalSupply) := by
  have h := solvent_inductive.invariant hreach
  refine ⟨h.supply_le, fun sender value o amountToken s' hfits hsender hdeposits => ?_,
    fun holder o hholder hpays => h.withdraw_isOk hholder hpays, fun hlimits _ => hlimits.partsFit,
    fun hpos ⟨tx, hmany⟩ => ?_⟩
  swap
  · refine _deposit_mints_more hpos fun hfits => hmany ?_
    unfold PartsFit
    split
    · exact hfits
    · trivial
  exact (h.deposit hsender hfits hdeposits).2

end Solvency

/-- `BadgeBonus` at 200 over a token at 201, of which it may take 1000 from account 60. -/
def deployedBonus : State where
  here := 200
  owner := 50
  tokenHere := 201
  token :=
    { balanceOf := Function.update (fun _ => 0) 60 1000
      allowance := fun holder spender => if holder = 60 ∧ spender = 200 then 1000 else 0
      totalSupply := 1000 }
  reservePool := 0
  erc20 := {}
  badges := { owner := 50 }

theorem deployedBonus_init : machine.init deployedBonus :=
  ⟨by decide, ⟨ERC20.backed_single 60 1000 _, by decide, fun _ => rfl⟩, rfl, rfl, 50, rfl⟩

/-- Account 50 opens the badges for itself, and the grades 1 to 5 for one badge each. -/
def fiveGrades : List Tx :=
  [{ sender := 50, op := .nft (.setOperatorsOk [50] true) },
   { sender := 50, op := .nft (.setGradeInfo [1, 2, 3, 4, 5] [0, 0, 0, 0, 0] [0, 0, 0, 0, 0]
      [1, 1, 1, 1, 1]) }]

/-- Account `account` gets the badge of the grade of its number. -/
def giveBadge (account : Address) : Tx :=
  { sender := 50, op := .nft (.mintTo account account.val account.val) }

instance (s : State) (tx : Tx) : Decidable (PartsFit s tx) := by
  unfold PartsFit
  split <;> exact inferInstance

/-- With badges in four grades a deposit of 8 gives each of them 2. -/
theorem totalSupply_le_eight :
    ∃ s, machine.ReachableBy PartsFit s ∧ s.erc20.totalSupply = 8 ∧ s.token.balanceOf s.here = 8 ∧
      ∃ s', withdraw 4 {} s = .ok s' := by
  have hrun : (machine.guarded fun s tx => PartsFit s tx).lastStep deployedBonus
      (fiveGrades ++ [giveBadge 1, giveBadge 2, giveBadge 3, giveBadge 4])
      { sender := 60, op := .deposit 8 }
      (fun _ s => s.erc20.totalSupply = 8 ∧ s.token.balanceOf s.here = 8 ∧ s.tokenHere = 201) =
        true := by
    decide +kernel
  obtain ⟨s₁, s, hreach, hstep, htest⟩ :=
    TSys.lastStep_reachable (M := machine.guarded _) deployedBonus_init hrun
  obtain ⟨hsupply, hbalance, htoken⟩ := of_decide_eq_true htest
  have hreach : machine.ReachableBy PartsFit s :=
    TSys.reachableBy_of_guarded (fun _ _ hcheck => of_decide_eq_true hcheck)
      (.step hreach trivial hstep)
  refine ⟨s, hreach, hsupply, hbalance, ?_⟩
  refine (totalSupply_le_of_reachable s hreach).2.2.1 4 {} (by decide) fun hnative => ?_
  rw [htoken] at hnative
  cases hnative

/-- With a badge in each of five grades, all within their limits, a deposit of 4 mints 5. -/
theorem fiveGrades_mint_more :
    ¬ ∀ s, machine.Reachable s → s.erc20.totalSupply ≤ s.token.balanceOf s.here := by
  intro hclaim
  have hrun : machine.lastStep deployedBonus
      (fiveGrades ++ [giveBadge 1, giveBadge 2, giveBadge 3, giveBadge 4, giveBadge 5])
      { sender := 60, op := .deposit 4 }
      (fun _ s => s.token.balanceOf s.here < s.erc20.totalSupply) = true := by
    decide +kernel
  obtain ⟨s₁, s, hreach, hstep, htest⟩ := TSys.lastStep_reachable deployedBonus_init hrun
  exact absurd (hclaim s (.step hreach trivial hstep)) (Nat.not_le.mpr (of_decide_eq_true htest))

end Huski.Badge.Bonus
