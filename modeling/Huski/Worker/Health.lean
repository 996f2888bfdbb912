import Huski.Pancake.Router
import Huski.Worker.CakeRewards
import Huski.Worker.LpLedger

/-!
# Health and liquidation

`health` says in closed form what `liquidate` does step by step: the shares become LP tokens or
CAKE, the liquidate strategy takes the liquidity out of the pair and swaps what it got for base
token, each against the reserves the previous step left. `liquidateOn` is `liquidate` of a worker
with its strategy on a market; the two agree to the unit, except that a reward in base token that
the farm pays on the way comes on top.
-/

open Solidity

namespace Huski.Worker

open Pancake (Exchange Factory Market)

/-! ## The strategies -/

/-- `execute` of `PancakeswapV2Liquidate`, called by `worker`; `self` is the strategy. -/
def pancakeswapV2Liquidate (x : Exchange) (okWorkers : Address → Bool)
    (self worker baseToken farmingToken : Address) (minBaseToken : Nat) (m : Market) :
    Result (Nat × Market) := do
  require (okWorkers worker = true) "PancakeswapV2Liquidate::onlyWhitelistedWorkers: bad worker"
  let lpToken := x.getPair farmingToken baseToken
  let m ← x.removeLiquidity m self baseToken farmingToken ((m.pair lpToken).balanceOf self) 0 0 self
  let m ← x.swapExactTokensForTokens m self (m.balanceOf farmingToken self) 0
    [farmingToken, baseToken] self
  let balance := m.balanceOf baseToken self
  require (balance ≥ minBaseToken)
    "PancakeswapV2Liquidate::execute: insufficient baseToken received"
  return (balance, m.setBalance baseToken self 0)

/-- `_getPath` of `CakeMaxiWorker`; its liquidate strategy builds the same one. -/
def _getPath (wNative tokenIn tokenOut : Address) : List Address :=
  if tokenOut = wNative then [tokenIn, wNative]
  else if tokenIn = wNative then [wNative, tokenOut]
  else [tokenIn, wNative, tokenOut]

/-- `execute` of `PancakeswapV2CakeMaxiLiquidate` -/
def pancakeswapV2CakeMaxiLiquidate (x : Exchange) (okWorkers : Address → Bool)
    (self worker baseToken farmingToken : Address) (minBaseTokenAmount : Nat) (m : Market) :
    Result (Nat × Market) := do
  require (okWorkers worker = true)
    "PancakeswapV2CakeMaxiLiquidate::onlyWhitelistedWorkers: bad worker"
  let balance := m.balanceOf farmingToken self
  let m ← x.swapExactTokensForTokens m self balance 0 (_getPath x.WETH farmingToken baseToken) self
  require (m.balanceOf baseToken self ≥ minBaseTokenAmount)
    "PancakeswapV2CakeMaxiLiquidate::execute: insufficient baseToken amount received"
  return (m.balanceOf baseToken self, m.setBalance baseToken self 0)

/-! ## The views of the workers -/

/-- The same function in both workers, with `fee` and `feeDenom` as `initialize` sets them. -/
def getMktSellAmount (contract : String) (aIn rIn rOut : Nat) : Result Nat :=
  if aIn = 0 then .ok 0
  else do
    require (rIn > 0 ∧ rOut > 0) (contract ++ "::getMktSellAmount: bad reserve values")
    let aInWithFee ← SafeMath.mul aIn 9975
    let numerator ← SafeMath.mul aInWithFee rOut
    let product ← SafeMath.mul rIn 10000
    let denominator ← SafeMath.add product aInWithFee
    return numerator / denominator

namespace PancakeswapV2.State

variable (x : Exchange) (lpToken : Address) (s : State)

/-- As `initialize` sets it. -/
def farmingToken : Address :=
  if x.token0 lpToken = s.baseToken then x.token1 lpToken else x.token0 lpToken

/-- What selling the farming half of the position's LP tokens brings, with the base half. -/
def health (m : Market) (id : PositionId) : Result Nat := do
  let lpBalance ← s.stake.shareToBalance (s.stake.shares id)
  let p := m.pair lpToken
  let (totalBaseToken, totalFarmingToken) :=
    if x.token0 lpToken = s.baseToken then (p.reserve0, p.reserve1) else (p.reserve1, p.reserve0)
  let product ← SafeMath.mul lpBalance totalBaseToken
  let userBaseToken ← SafeMath.div product p.totalSupply
  let product ← SafeMath.mul lpBalance totalFarmingToken
  let userFarmingToken ← SafeMath.div product p.totalSupply
  let rIn ← SafeMath.sub totalFarmingToken userFarmingToken
  let rOut ← SafeMath.sub totalBaseToken userBaseToken
  let sold ← getMktSellAmount contractName userFarmingToken rIn rOut
  SafeMath.add sold userBaseToken

/-- `liquidate` with its strategy on the market: what the operator gets, and what is left. -/
def liquidateOn (okWorkers : Address → Bool) (self sender : Address) (id : PositionId)
    (m : Market) : Result (Nat × State × Market) := do
  s.config.onlyOperator contractName sender
  let s ← s.removeShare id
  let m := m.receiveLp lpToken s.config.liqStrat s.lpBalance
  let (back, m) ← pancakeswapV2Liquidate x okWorkers s.config.liqStrat self s.baseToken
    (s.farmingToken x lpToken) 0 m
  let s := s.sendLp.receive s.baseToken back
  return (s.balanceOf s.baseToken, s.sendAll s.baseToken, m)

end PancakeswapV2.State

namespace CakeMaxi.State

variable (x : Exchange) (s : State)

/-- The loop of `health`. -/
def sellAlong (m : Market) : Nat → List Address → Result Nat
  | amount, tokenIn :: tokenOut :: path => do
      let currentLP := x.getPair tokenIn tokenOut
      let p := m.pair currentLP
      let (rOut, rIn) :=
        if x.token0 currentLP = tokenOut then (p.reserve0, p.reserve1)
        else (p.reserve1, p.reserve0)
      let out ← getMktSellAmount contractName amount rIn rOut
      sellAlong m out (tokenOut :: path)
  | amount, _ => .ok amount

/-- What selling the position's CAKE along the path brings. -/
def health (farmingToken : Address) (m : Market) (id : PositionId) : Result Nat := do
  let amount ← s.stake.shareToBalance (s.stake.shares id)
  sellAlong x m amount (_getPath x.WETH farmingToken s.baseToken)

/-- `liquidate` with its strategy on the market: what the operator gets, and what is left. -/
def liquidateOn (farmingToken : Address) (okWorkers : Address → Bool) (self sender : Address)
    (id : PositionId) (m : Market) : Result (Nat × State × Market) := do
  s.config.onlyOperator contractName sender
  let s ← s.removeShare id
  let amount ← s.actualFarmingTokenBalance
  let s ← s.sendFarming s.config.liqStrat
  let m := m.setBalance farmingToken s.config.liqStrat
    (m.balanceOf farmingToken s.config.liqStrat + amount)
  let (back, m) ← pancakeswapV2CakeMaxiLiquidate x okWorkers s.config.liqStrat self s.baseToken
    farmingToken 0 m
  let s := s.receive s.baseToken back
  return (s.balanceOf s.baseToken, s.sendAll s.baseToken, m)

end CakeMaxi.State

/-! ## The sale -/

/-- The view says what the pair pays, unless a product of it overflows. -/
theorem getMktSellAmount_of_fits (contract : String) {aIn rIn rOut : Nat}
    (hnum : aIn * 9975 * rOut < wordSize) (hden : rIn * 10000 + aIn * 9975 < wordSize)
    (hpos : aIn ≠ 0 → 0 < rIn ∧ 0 < rOut) :
    getMktSellAmount contract aIn rIn rOut = .ok (Exchange.sale aIn rIn rOut) := by
  have hmul : aIn * 9975 < wordSize := Nat.lt_of_le_of_lt (Nat.le_add_left _ _) hden
  have hmul' : rIn * 10000 < wordSize := Nat.lt_of_le_of_lt (Nat.le_add_right _ _) hden
  unfold getMktSellAmount Exchange.sale
  split
  · rename_i hzero
    simp [hzero]
  · rename_i hne
    simp [require, hpos hne, SafeMath.mul, SafeMath.add, hmul, hmul', hnum, hden, bind,
      Except.bind, pure, Except.pure]

theorem getMktSellAmount_fits {contract : String} {aIn rIn rOut value : Nat}
    (hrIn : rIn < 2 ^ 112) (h : getMktSellAmount contract aIn rIn rOut = .ok value) :
    aIn * 9975 * rOut < wordSize ∧ rIn * 10000 + aIn * 9975 < wordSize := by
  unfold getMktSellAmount at h
  split at h
  · -- an amount of zero is not multiplied at all
    rename_i hzero
    have hscaled : rIn * 10000 < 2 ^ 112 * 10000 :=
      Nat.mul_lt_mul_of_pos_right hrIn (by norm_num)
    have hword : (2 : Nat) ^ 112 * 10000 ≤ wordSize := by norm_num [wordSize]
    rw [hzero, Nat.zero_mul, Nat.zero_mul, Nat.add_zero]
    exact ⟨by norm_num [wordSize], Nat.lt_of_lt_of_le hscaled hword⟩
  · simp only [bind_eq_ok, SafeMath.mul_eq_ok, SafeMath.add_eq_ok] at h
    obtain ⟨_, _, _, ⟨_, rfl⟩, _, ⟨hnum, rfl⟩, _, ⟨_, rfl⟩, _, ⟨hden, rfl⟩, _⟩ := h
    exact ⟨hnum, hden⟩

/-- The pair never pays its whole reserve. -/
theorem sale_lt (aIn rIn : Nat) {rOut : Nat} (hrOut : rOut < 2 ^ 112) :
    Exchange.sale aIn rIn rOut < 2 ^ 112 := by
  refine Nat.lt_of_le_of_lt (Nat.div_le_of_le_mul ?_) hrOut
  exact Nat.mul_le_mul_right _ (Nat.le_add_left _ _)

/-- With reserves of 112 bits the view does not revert, and says what the pair pays. -/
theorem getMktSellAmount_isOk (contract : String) {aIn rIn rOut : Nat} (hin : aIn < 2 ^ 128)
    (hrIn : rIn < 2 ^ 112) (hrOut : rOut < 2 ^ 112) (hpos : aIn ≠ 0 → 0 < rIn ∧ 0 < rOut) :
    getMktSellAmount contract aIn rIn rOut = .ok (Exchange.sale aIn rIn rOut) := by
  have hfee : aIn * 9975 < 2 ^ 142 :=
    Nat.lt_of_lt_of_le (Nat.mul_lt_mul_of_pos_right hin (by norm_num)) (by norm_num)
  have hscaled : rIn * 10000 < 2 ^ 142 :=
    Nat.lt_of_lt_of_le (Nat.mul_lt_mul_of_pos_right hrIn (by norm_num)) (by norm_num)
  have hnum : aIn * 9975 * rOut < wordSize := by
    have h := Nat.mul_lt_mul'' hfee hrOut
    have hword : (2 : Nat) ^ 142 * 2 ^ 112 ≤ wordSize := by norm_num [wordSize]
    exact Nat.lt_of_lt_of_le h hword
  have hword : (2 : Nat) ^ 142 + 2 ^ 142 ≤ wordSize := by norm_num [wordSize]
  have hden : rIn * 10000 + aIn * 9975 < wordSize :=
    Nat.lt_of_lt_of_le (Nat.add_lt_add hscaled hfee) hword
  exact getMktSellAmount_of_fits contract hnum hden hpos

/-- A position's shares convert exactly when their product with the stake fits a word. -/
theorem Stake.shareToBalance_isOk {s : Stake} (hs : s.Covered) (id : PositionId) :
    (∃ balance, s.shareToBalance (s.shares id) = .ok balance) ↔
      s.shares id * s.amount < wordSize := by
  constructor
  · rintro ⟨balance, h⟩
    unfold shareToBalance at h
    split at h
    · -- without shares at all, the position has none
      rename_i hnone
      have hzero : s.shares id = 0 := by
        have hle : s.shares id ≤ s.totalShare := hs.held_le id
        omega
      rw [hzero, Nat.zero_mul]
      norm_num [wordSize]
    · simp only [bind_eq_ok, SafeMath.mul_eq_ok] at h
      obtain ⟨_, ⟨hlt, _⟩, _⟩ := h
      exact hlt
  · intro hlt
    rcases Stake.shareToBalance_shares (s := s) id with hok | hlarge
    · exact ⟨_, hok⟩
    · exact absurd hlarge (Nat.not_le.mpr hlt)

/-- Below 128 bits of stake it does fit. -/
theorem Stake.product_lt {s : Stake} (hs : s.Covered) (hsmall : s.amount < 2 ^ 128)
    (id : PositionId) : s.shares id * s.amount < wordSize := by
  have hshares : s.shares id ≤ s.amount := Nat.le_trans (hs.held_le id) hs.backed
  have hlt : s.shares id * s.amount < 2 ^ 128 * 2 ^ 128 :=
    Nat.mul_lt_mul'' (Nat.lt_of_le_of_lt hshares hsmall) hsmall
  exact Nat.lt_of_lt_of_le hlt (by norm_num [wordSize])

theorem Stake.worth_le {s : Stake} (hs : s.Covered) (id : PositionId) :
    s.worth id ≤ s.amount :=
  Nat.le_trans (TotalMap.single_le_sum s.worth id) hs.sum_worth_le

/-! ## The LP worker -/

namespace PancakeswapV2.State

variable {x : Exchange} {m m' : Market} {s s' : State} {farming : Address} {id : PositionId}

/-- Nobody has left tokens with the worker, its strategy or the pair. -/
structure NoStray (x : Exchange) (m : Market) (farming : Address) (s : State) : Prop where
  lp : s.lpBalance = 0
  base : s.balanceOf s.baseToken = 0
  strategyLp : (m.pair (x.getPair farming s.baseToken)).balanceOf s.config.liqStrat = 0
  strategyBase : m.balanceOf s.baseToken s.config.liqStrat = 0
  strategyFarming : m.balanceOf farming s.config.liqStrat = 0
  pairLp : (m.pair (x.getPair farming s.baseToken)).balanceOf (x.getPair farming s.baseToken) = 0

theorem farmingToken_eq (h : x.Listed farming s.baseToken) :
    s.farmingToken x (x.getPair farming s.baseToken) = farming := by
  unfold farmingToken
  split
  · rename_i h0
    refine h.token1_eq (.inl rfl) ?_
    rw [h0]
    exact h.ne.symm
  · rename_i h0
    rcases h.token_cases with ⟨ha, _, _⟩ | ⟨hb, _, _⟩
    · exact ha
    · exact absurd hb h0

/-- What liquidity comes to: its part of the base token, and what its part of the farming token
sells for against the rest. -/
def valueOf (x : Exchange) (m : Market) (pair farming base : Address) (liquidity : Nat) : Nat :=
  Exchange.sale (x.part m pair liquidity farming)
    (x.reserveOf m pair farming - x.part m pair liquidity farming)
    (x.reserveOf m pair base - x.part m pair liquidity base) + x.part m pair liquidity base

/-- No product that `health` makes of a position overflows. -/
structure Fits (x : Exchange) (m : Market) (farming : Address) (s : State) (id : PositionId) :
    Prop where
  shares : s.stake.shares id * s.stake.amount < wordSize
  base : s.stake.worth id * x.reserveOf m (x.getPair farming s.baseToken) s.baseToken < wordSize
  farming : s.stake.worth id * x.reserveOf m (x.getPair farming s.baseToken) farming < wordSize

/-- With reserves of 112 bits they fit while the stake is below 128 bits. -/
theorem fits_of_small (hs : s.stake.Covered) (hsmall : s.stake.amount < 2 ^ 128)
    (hpool : x.Pool m farming s.baseToken) : Fits x m farming s id := by
  have hmul : ∀ t, s.stake.worth id * x.reserveOf m (x.getPair farming s.baseToken) t <
      wordSize := fun t => by
    have hle := Nat.lt_of_le_of_lt (Stake.worth_le hs id) hsmall
    have h := Nat.mul_lt_mul'' hle (hpool.reserveOf_lt t)
    exact Nat.lt_of_lt_of_le h (by norm_num [wordSize])
  exact ⟨Stake.product_lt hs hsmall id, hmul _, hmul _⟩

theorem health_eq_valueOf (hs : s.stake.Covered) (hpool : x.Pool m farming s.baseToken)
    (hsupply : s.stake.amount < (m.pair (x.getPair farming s.baseToken)).totalSupply)
    (hfits : Fits x m farming s id) :
    s.health x (x.getPair farming s.baseToken) m id =
      .ok (valueOf x m (x.getPair farming s.baseToken) farming s.baseToken (s.stake.worth id)) := by
  obtain ⟨balance, hconverted⟩ := (Stake.shareToBalance_isOk hs id).mpr hfits.shares
  have hbalance : s.stake.shareToBalance (s.stake.shares id) = .ok (s.stake.worth id) :=
    hconverted.trans (congrArg _ (Stake.shareToBalance_eq_ok hconverted))
  have hle := Stake.worth_le hs id
  have htotals := hpool.toListed.reserves_eq (m := m)
  have hreserve_pos := hpool.reserveOf_pos
  have hreserve_lt := hpool.reserveOf_lt
  have hmul_base := hfits.base
  have hmul_farming := hfits.farming
  unfold health valueOf
  generalize x.getPair farming s.baseToken = pair at *
  have hlp := Nat.lt_of_le_of_lt hle hsupply
  have hpos : (m.pair pair).totalSupply ≠ 0 := by omega
  -- the position's part of a reserve is less than the reserve
  have hpart : ∀ t, x.part m pair (s.stake.worth id) t < x.reserveOf m pair t := fun t =>
    Nat.div_lt_of_lt_mul (Nat.mul_lt_mul_of_pos_right hlp (hreserve_pos t))
  have hdiv : ∀ t, SafeMath.div (s.stake.worth id * x.reserveOf m pair t)
      (m.pair pair).totalSupply = .ok (x.part m pair (s.stake.worth id) t) := fun t =>
    SafeMath.div_eq_ok.mpr ⟨hpos, rfl⟩
  have hrest : ∀ t, x.reserveOf m pair t - x.part m pair (s.stake.worth id) t < 2 ^ 112 := fun t =>
    Nat.lt_of_le_of_lt (Nat.sub_le _ _) (hreserve_lt t)
  have hsold := getMktSellAmount_isOk contractName
    (Nat.lt_trans (Nat.lt_trans (hpart farming) (hreserve_lt farming)) (by norm_num))
    (hrest farming) (hrest s.baseToken)
    (fun _ => ⟨Nat.sub_pos_of_lt (hpart farming), Nat.sub_pos_of_lt (hpart s.baseToken)⟩)
  have hsum := Nat.lt_of_lt_of_le
    (Nat.add_lt_add (sale_lt (x.part m pair (s.stake.worth id) farming)
      (x.reserveOf m pair farming - x.part m pair (s.stake.worth id) farming)
      (hrest s.baseToken)) (Nat.lt_trans (hpart s.baseToken) (hreserve_lt s.baseToken)))
    (show (2 : Nat) ^ 112 + 2 ^ 112 ≤ wordSize by norm_num [wordSize])
  simp only [hbalance, htotals, bind, Except.bind]
  simp [SafeMath.mul, SafeMath.sub, SafeMath.subOr, SafeMath.add, hmul_base, hmul_farming, hdiv,
    (hpart _).le, hsold, hsum]

/-- The view reverts only where a product overflows. -/
theorem health_isOk_iff (hs : s.stake.Covered) (hpool : x.Pool m farming s.baseToken)
    (hsupply : s.stake.amount < (m.pair (x.getPair farming s.baseToken)).totalSupply) :
    (∃ value, s.health x (x.getPair farming s.baseToken) m id = .ok value) ↔
      Fits x m farming s id := by
  constructor
  · rintro ⟨value, h⟩
    simp only [health, hpool.toListed.reserves_eq, bind_eq_ok, SafeMath.mul_eq_ok] at h
    obtain ⟨balance, hconverted, _, ⟨hbase, _⟩, _, _, _, ⟨hfarming, _⟩, _⟩ := h
    have hworth : balance = s.stake.worth id := Stake.shareToBalance_eq_ok hconverted
    rw [hworth] at hbase hfarming
    exact ⟨(Stake.shareToBalance_isOk hs id).mp ⟨balance, hconverted⟩, hbase, hfarming⟩
  · intro hfits
    exact ⟨_, health_eq_valueOf hs hpool hsupply hfits⟩

/-- The strategy hands the worker the value of the liquidity it was sent. -/
theorem pancakeswapV2Liquidate_eq_ok (hx : x.Documented) {okWorkers : Address → Bool}
    {self worker base : Address} {back : Nat} (hpool : x.Pool m farming base)
    (hbase : m.balanceOf base self = 0) (hfarming : m.balanceOf farming self = 0)
    (hpair : (m.pair (x.getPair farming base)).balanceOf (x.getPair farming base) = 0)
    (h : pancakeswapV2Liquidate x okWorkers self worker base farming 0 m = .ok (back, m')) :
    back = valueOf x m (x.getPair farming base) farming base
      ((m.pair (x.getPair farming base)).balanceOf self) := by
  simp only [pancakeswapV2Liquidate, bind_eq_ok, pure_eq_ok, Prod.mk.injEq] at h
  obtain ⟨_, _, m₁, hremove, m₂, hswap, _, _, rfl, _⟩ := h
  have hlisted := hpool.toListed
  have hself := hpool.ne_of_empty (.inr rfl) hbase
  have hcomm := hlisted.comm
  have hremoved := fun t ht => Exchange.removeLiquidity_eq_ok hx hlisted.symm (hcomm ▸ hself)
    (hcomm ▸ hpair) hremove (t := t) ht
  rw [← hcomm] at hremoved
  obtain ⟨hbase₁, hrest_base⟩ := hremoved base (.inl rfl)
  obtain ⟨hfarming₁, hrest_farming⟩ := hremoved farming (.inr rfl)
  rw [hpool.balanceOf_eq (.inr rfl)] at hrest_base
  rw [hpool.balanceOf_eq (.inl rfl)] at hrest_farming
  -- the swap, against the reserves that are left
  have hroute : x.Route self [farming, base] := List.isChain_pair.mpr ⟨hlisted, hself⟩
  obtain ⟨amounts, hamounts, hback⟩ := Exchange.swapExactTokensForTokens_eq_ok hx hroute hswap
  simp only [Exchange.amountsAlong, bind_eq_ok, pure_eq_ok] at hamounts
  obtain ⟨⟨rIn, rOut⟩, hreserves, out, hout, _, htail, rfl⟩ := hamounts
  cases htail
  obtain ⟨rfl, rfl⟩ := Exchange.getReserves_eq_ok hlisted hreserves
  obtain ⟨_, rfl⟩ := Exchange.getAmountOut_eq_ok hout
  simp only [List.getLastD_nil, List.getLastD_cons] at hback
  rw [hback, Exchange.move_balanceOf_of_ne (.inl hlisted.ne.symm), hbase₁, hbase, hfarming₁,
    hfarming, hrest_base, hrest_farming]
  simp only [valueOf, Nat.zero_add]
  exact Nat.add_comm _ _

/-- A reward that the farm pays in base token while a position is taken out. -/
def rewardInBase (s : State) (id : PositionId) : Nat :=
  if s.baseToken = s.cake ∧ 0 < s.stake.shares id then s.stake.pendingCake else 0

theorem removeShare_eq_ok (h : s.removeShare id = .ok s') :
    s'.config = s.config ∧ s'.baseToken = s.baseToken ∧
    s'.lpBalance = s.lpBalance + s.stake.worth id ∧
    s'.balanceOf s.baseToken = s.balanceOf s.baseToken + s.rewardInBase id := by
  unfold removeShare at h
  dsimp only at h
  split at h
  · rename_i hpos
    simp only [withdraw, bind_eq_ok, pure_eq_ok] at h
    obtain ⟨balance, hbalance, _, ⟨stake, hleave, rfl⟩, _, _, rfl⟩ := h
    refine ⟨rfl, rfl, ?_, ?_⟩
    · rw [Stake.shareToBalance_eq_ok hbalance]
      rfl
    · simp only [receive, rewardInBase]
      by_cases hcake : s.baseToken = s.cake
      · simp [hcake, hpos]
      · simp [hcake]
  · rename_i hnone
    cases h
    have hzero : s.stake.shares id = 0 := Nat.eq_zero_of_not_pos hnone
    refine ⟨rfl, rfl, ?_, ?_⟩
    · simp [Stake.worth, SharePool.Book.worth, Stake.book, SharePool.toValue, hzero]
    · simp [rewardInBase, hzero]

/-- `liquidateOn` is the worker's `liquidate`, with what its strategy sends back. -/
theorem liquidate_of_liquidateOn {lpToken : Address} {okWorkers : Address → Bool}
    {self sender : Address} {wad : Nat}
    (h : s.liquidateOn x lpToken okWorkers self sender id m = .ok (wad, s', m')) :
    ∃ back, s.liquidate sender
      { execute := some { tokens := fun t => if t = s.baseToken then back else 0 } } id =
        .ok s' := by
  simp only [liquidateOn, bind_eq_ok, pure_eq_ok, Prod.mk.injEq] at h
  obtain ⟨_, hop, s₁, hremove, ⟨back, m₁⟩, _, rfl, rfl, rfl⟩ := h
  refine ⟨back, ?_⟩
  have hbase := (removeShare_eq_ok hremove).2.1
  simp only [liquidate, bind_eq_ok, pure_eq_ok]
  refine ⟨_, hop, s₁, hremove, _, rfl, ?_⟩
  have htokens : (fun t => s₁.balanceOf t + if t = s.baseToken then back else 0) =
      Function.update s₁.balanceOf s₁.baseToken (s₁.balanceOf s₁.baseToken + back) := by
    funext t
    by_cases ht : t = s₁.baseToken
    · simp [ht, hbase]
    · simp [Function.update_of_ne ht, hbase ▸ ht]
  simp only [sendLp, receive, htokens, Nat.add_zero]

/-- What a liquidation that completes pays: the health before, and a reward in base token. -/
theorem liquidateOn_eq_valueOf (hx : x.Documented) (hpool : x.Pool m farming s.baseToken)
    (hstray : NoStray x m farming s) {okWorkers : Address → Bool} {self sender : Address}
    {wad : Nat}
    (h : s.liquidateOn x (x.getPair farming s.baseToken) okWorkers self sender id m =
      .ok (wad, s', m')) :
    wad = valueOf x m (x.getPair farming s.baseToken) farming s.baseToken (s.stake.worth id) +
      s.rewardInBase id := by
  simp only [liquidateOn, bind_eq_ok, pure_eq_ok, Prod.mk.injEq] at h
  obtain ⟨_, _, s₁, hremove, ⟨back, m₁⟩, hexecute, rfl, _, _⟩ := h
  obtain ⟨hconfig, hbase, hlp, hbalance⟩ := removeShare_eq_ok hremove
  rw [hstray.lp, Nat.zero_add] at hlp
  rw [hstray.base, Nat.zero_add] at hbalance
  have htoken : s₁.farmingToken x (x.getPair farming s.baseToken) = farming := by
    unfold farmingToken
    rw [hbase]
    exact farmingToken_eq hpool.toListed
  rw [htoken, hconfig, hbase, hlp] at hexecute
  -- the strategy is not the pair, as it holds nothing
  have hself := hpool.ne_of_empty (.inr rfl) hstray.strategyBase
  have hback := pancakeswapV2Liquidate_eq_ok hx (hpool.receiveLp _ _ _) hstray.strategyBase
    hstray.strategyFarming (by simp [Market.receiveLp, Market.setPair, hstray.pairLp, hself.symm])
    hexecute
  -- the strategy burns the LP tokens it was sent, and no others
  have hsent : ((m.receiveLp (x.getPair farming s.baseToken) s.config.liqStrat
      (s.stake.worth id)).pair (x.getPair farming s.baseToken)).balanceOf s.config.liqStrat =
      s.stake.worth id := by
    simp [Market.receiveLp, Market.setPair, hstray.strategyLp]
  rw [hsent] at hback
  simp only [sendLp, receive, Function.update_self, hbase, hbalance, hback, valueOf,
    Exchange.reserveOf_receiveLp, Exchange.part_receiveLp]
  exact Nat.add_comm _ _

end PancakeswapV2.State

/-! ## The CAKE worker -/

namespace CakeMaxi.State

variable {x : Exchange} {m m' : Market} {s s' : State} {farming : Address} {id : PositionId}

/-- Nobody has left tokens with the worker or its strategy; it holds the rewards it counts. -/
structure NoStray (m : Market) (farming : Address) (s : State) : Prop where
  rewards : s.farmingBalance = s.rewardBalance
  base : s.balanceOf s.baseToken = 0
  strategyBase : m.balanceOf s.baseToken s.config.liqStrat = 0
  strategyFarming : m.balanceOf farming s.config.liqStrat = 0

/-- What an amount of the first token of a path sells for in the last one. -/
def soldAlong (x : Exchange) (m : Market) : Nat → List Address → Nat
  | amount, tokenIn :: tokenOut :: path =>
      let pair := x.getPair tokenIn tokenOut
      soldAlong x m
        (Exchange.sale amount (x.reserveOf m pair tokenIn) (x.reserveOf m pair tokenOut))
        (tokenOut :: path)
  | amount, _ => amount

theorem sellAlong_eq_soldAlong {path : List Address} {amount : Nat}
    (hpools : path.IsChain (x.Pool m)) (hsmall : amount < 2 ^ 128) :
    sellAlong x m amount path = .ok (soldAlong x m amount path) := by
  induction path generalizing amount with
  | nil => rfl
  | cons tokenIn path ih =>
      cases path with
      | nil => rfl
      | cons tokenOut path =>
          obtain ⟨hpool, hrest⟩ := List.isChain_cons_cons.mp hpools
          have hout := getMktSellAmount_isOk contractName hsmall
            (hpool.reserveOf_lt tokenIn) (hpool.reserveOf_lt tokenOut)
            (fun _ => ⟨hpool.reserveOf_pos tokenIn, hpool.reserveOf_pos tokenOut⟩)
          have hout_lt := sale_lt amount
            (x.reserveOf m (x.getPair tokenIn tokenOut) tokenIn) (hpool.reserveOf_lt tokenOut)
          have hrest := ih hrest (Nat.lt_trans hout_lt (by norm_num))
          rw [sellAlong, soldAlong]
          simp only [hpool.toListed.reserves_eq, hout]
          exact hrest

/-- The products of the first sale of a path; what it yields is below 112 bits, so no later one
can overflow. -/
def SaleFits (x : Exchange) (m : Market) (amount : Nat) : List Address → Prop
  | tokenIn :: tokenOut :: _ =>
      let pair := x.getPair tokenIn tokenOut
      amount * 9975 * x.reserveOf m pair tokenOut < wordSize ∧
        x.reserveOf m pair tokenIn * 10000 + amount * 9975 < wordSize
  | _ => True

/-- A path sells exactly when its first sale fits. -/
theorem sellAlong_isOk_iff {path : List Address} {amount : Nat}
    (hpools : path.IsChain (x.Pool m)) :
    (∃ value, sellAlong x m amount path = .ok value) ↔ SaleFits x m amount path := by
  match path, hpools with
  | [], _ => exact ⟨fun _ => trivial, fun _ => ⟨_, rfl⟩⟩
  | [_], _ => exact ⟨fun _ => trivial, fun _ => ⟨_, rfl⟩⟩
  | tokenIn :: tokenOut :: path, hpools =>
      obtain ⟨hpool, hrest⟩ := List.isChain_cons_cons.mp hpools
      constructor
      · rintro ⟨value, h⟩
        simp only [sellAlong, hpool.toListed.reserves_eq, bind_eq_ok] at h
        obtain ⟨out, hout, _⟩ := h
        exact getMktSellAmount_fits (hpool.reserveOf_lt tokenIn) hout
      · rintro ⟨hnum, hden⟩
        have hout := getMktSellAmount_of_fits contractName hnum hden
          (fun _ => ⟨hpool.reserveOf_pos tokenIn, hpool.reserveOf_pos tokenOut⟩)
        have hout_lt := sale_lt amount
          (x.reserveOf m (x.getPair tokenIn tokenOut) tokenIn) (hpool.reserveOf_lt tokenOut)
        have hlater := sellAlong_eq_soldAlong hrest (Nat.lt_trans hout_lt (by norm_num))
        rw [sellAlong]
        simp only [hpool.toListed.reserves_eq, hout]
        exact ⟨_, hlater⟩

/-- No product that `health` makes of a position overflows. -/
structure Fits (x : Exchange) (m : Market) (farming : Address) (s : State) (id : PositionId) :
    Prop where
  shares : s.stake.shares id * s.stake.amount < wordSize
  sale : SaleFits x m (s.stake.worth id) (_getPath x.WETH farming s.baseToken)

/-- The view reverts only where a product overflows. -/
theorem health_isOk_iff (hs : s.stake.Covered)
    (hpools : (_getPath x.WETH farming s.baseToken).IsChain (x.Pool m)) :
    (∃ value, s.health x farming m id = .ok value) ↔ Fits x m farming s id := by
  constructor
  · rintro ⟨value, h⟩
    simp only [health, bind_eq_ok] at h
    obtain ⟨balance, hconverted, hsold⟩ := h
    have hworth : balance = s.stake.worth id := Stake.shareToBalance_eq_ok hconverted
    rw [hworth] at hsold
    exact ⟨(Stake.shareToBalance_isOk hs id).mp ⟨balance, hconverted⟩,
      (sellAlong_isOk_iff hpools).mp ⟨value, hsold⟩⟩
  · intro hfits
    obtain ⟨balance, hconverted⟩ := (Stake.shareToBalance_isOk hs id).mpr hfits.shares
    obtain ⟨value, hsold⟩ := (sellAlong_isOk_iff hpools).mpr hfits.sale
    have hworth : balance = s.stake.worth id := Stake.shareToBalance_eq_ok hconverted
    rw [← hworth] at hsold
    exact ⟨value, by simp only [health, hconverted, bind, Except.bind, hsold]⟩

/-- With reserves of 112 bits they fit while the stake is below 128 bits. -/
theorem fits_of_small (hs : s.stake.Covered) (hsmall : s.stake.amount < 2 ^ 128)
    (hpools : (_getPath x.WETH farming s.baseToken).IsChain (x.Pool m)) :
    Fits x m farming s id := by
  have hlt := Nat.lt_of_le_of_lt (Stake.worth_le hs id) hsmall
  exact ⟨Stake.product_lt hs hsmall id,
    (sellAlong_isOk_iff hpools).mp ⟨_, sellAlong_eq_soldAlong hpools hlt⟩⟩

/-- A sale that the view computes is the one of the path. -/
theorem sellAlong_eq_ok {path : List Address} {amount value : Nat}
    (hpools : path.IsChain (x.Pool m)) (h : sellAlong x m amount path = .ok value) :
    value = soldAlong x m amount path := by
  induction path generalizing amount with
  | nil => exact (Except.ok.inj h).symm
  | cons tokenIn path ih =>
      cases path with
      | nil => exact (Except.ok.inj h).symm
      | cons tokenOut path =>
          obtain ⟨hpool, hrest⟩ := List.isChain_cons_cons.mp hpools
          simp only [sellAlong, hpool.toListed.reserves_eq, bind_eq_ok] at h
          obtain ⟨out, hout, hlater⟩ := h
          obtain ⟨hnum, hden⟩ := getMktSellAmount_fits (hpool.reserveOf_lt tokenIn) hout
          rw [getMktSellAmount_of_fits contractName hnum hden
            (fun _ => ⟨hpool.reserveOf_pos tokenIn, hpool.reserveOf_pos tokenOut⟩)] at hout
          rw [soldAlong, Except.ok.inj hout]
          exact ih hrest hlater

theorem health_eq_soldAlong {value : Nat}
    (hpools : (_getPath x.WETH farming s.baseToken).IsChain (x.Pool m))
    (h : s.health x farming m id = .ok value) :
    value = soldAlong x m (s.stake.worth id) (_getPath x.WETH farming s.baseToken) := by
  simp only [health, bind_eq_ok] at h
  obtain ⟨balance, hconverted, hsold⟩ := h
  have hworth : balance = s.stake.worth id := Stake.shareToBalance_eq_ok hconverted
  rw [hworth] at hsold
  exact sellAlong_eq_ok hpools hsold

/-- The amounts of the router end with what the path sells for. -/
theorem getLastD_amountsAlong {path : List Address} {amount : Nat} {amounts : List Nat}
    (hlisted : path.IsChain x.Listed) (h : x.amountsAlong m amount path = .ok amounts) :
    amounts.getLastD 0 = soldAlong x m amount path := by
  induction path generalizing amount amounts with
  | nil =>
      cases h
      rfl
  | cons tokenIn path ih =>
      cases path with
      | nil =>
          cases h
          rfl
      | cons tokenOut path =>
          obtain ⟨hhead, htail⟩ := List.isChain_cons_cons.mp hlisted
          simp only [Exchange.amountsAlong, bind_eq_ok, pure_eq_ok] at h
          obtain ⟨⟨rIn, rOut⟩, hreserves, out, hout, rest, hrest, rfl⟩ := h
          obtain ⟨rfl, rfl⟩ := Exchange.getReserves_eq_ok hhead hreserves
          obtain ⟨_, rfl⟩ := Exchange.getAmountOut_eq_ok hout
          obtain ⟨tail, rfl, _⟩ := Exchange.amountsAlong_eq_ok hrest
          have hlast := ih htail hrest
          rw [soldAlong]
          simp only [List.getLastD_cons] at hlast ⊢
          exact hlast

theorem soldAlong_congr {path : List Address} {amount : Nat} (hpair : m'.pair = m.pair) :
    soldAlong x m' amount path = soldAlong x m amount path := by
  induction path generalizing amount with
  | nil => rfl
  | cons tokenIn path ih =>
      cases path with
      | nil => rfl
      | cons tokenOut path =>
          rw [soldAlong, soldAlong]
          simp only [Exchange.reserveOf, hpair]
          exact ih

/-- The path to the base token, whose pairs are not the strategy. -/
theorem _getPath_route {wNative base self : Address}
    (hpools : (_getPath wNative farming base).IsChain (x.Pool m))
    (hbase : m.balanceOf base self = 0) (hfarming : m.balanceOf farming self = 0) :
    x.Route self (_getPath wNative farming base) := by
  unfold _getPath at *
  split
  · rename_i hnative
    rw [if_pos hnative] at hpools
    have hpool := List.isChain_pair.mp hpools
    exact List.isChain_pair.mpr ⟨hpool.toListed, hpool.ne_of_empty (.inl rfl) hfarming⟩
  · rename_i hnative
    rw [if_neg hnative] at hpools
    split
    · rename_i hfarm
      rw [if_pos hfarm] at hpools
      have hpool := List.isChain_pair.mp hpools
      exact List.isChain_pair.mpr ⟨hpool.toListed, hpool.ne_of_empty (.inr rfl) hbase⟩
    · rename_i hfarm
      rw [if_neg hfarm] at hpools
      obtain ⟨hfirst, hrest⟩ := List.isChain_cons_cons.mp hpools
      have hsecond := List.isChain_pair.mp hrest
      exact List.isChain_cons_cons.mpr
        ⟨⟨hfirst.toListed, hfirst.ne_of_empty (.inl rfl) hfarming⟩,
          List.isChain_pair.mpr ⟨hsecond.toListed, hsecond.ne_of_empty (.inr rfl) hbase⟩⟩

/-- It starts with the farming token and ends with the base token. -/
theorem _getPath_ends (wNative base : Address) : ∃ output path,
    _getPath wNative farming base = farming :: output :: path ∧ path.getLastD output = base := by
  unfold _getPath
  split
  · rename_i hnative
    exact ⟨wNative, [], rfl, hnative.symm⟩
  · split
    · rename_i hfarm
      exact ⟨base, [], by rw [hfarm], rfl⟩
    · exact ⟨wNative, [base], rfl, rfl⟩

/-- The strategy hands the worker what the farming token it was sent sells for. -/
theorem pancakeswapV2CakeMaxiLiquidate_eq_ok (hx : x.Documented) {okWorkers : Address → Bool}
    {self worker base : Address} {back : Nat} (hne : base ≠ farming)
    (hroute : x.Route self (_getPath x.WETH farming base)) (hbase : m.balanceOf base self = 0)
    (h : pancakeswapV2CakeMaxiLiquidate x okWorkers self worker base farming 0 m =
      .ok (back, m')) :
    back = soldAlong x m (m.balanceOf farming self) (_getPath x.WETH farming base) := by
  simp only [pancakeswapV2CakeMaxiLiquidate, bind_eq_ok, pure_eq_ok, Prod.mk.injEq] at h
  obtain ⟨_, _, m₁, hswap, _, _, rfl, _⟩ := h
  obtain ⟨output, path, hpath, hlast⟩ := @_getPath_ends farming x.WETH base
  rw [hpath] at hroute hswap ⊢
  obtain ⟨amounts, hamounts, hback⟩ := Exchange.swapExactTokensForTokens_eq_ok hx hroute hswap
  have hlisted : (farming :: output :: path).IsChain x.Listed := hroute.imp fun _ _ h => h.1
  rw [hlast, Exchange.move_balanceOf_of_ne (.inl hne), hbase, Nat.zero_add,
    getLastD_amountsAlong hlisted hamounts] at hback
  exact hback

theorem removeShare_principal (h : s.removeShare id = .ok s')
    (hrewards : s.farmingBalance = s.rewardBalance) :
    s'.config = s.config ∧ s'.baseToken = s.baseToken ∧ s'.balanceOf = s.balanceOf ∧
    s'.farmingBalance - s'.rewardBalance = s.stake.worth id := by
  unfold removeShare at h
  split at h
  · simp only [countPending, leaveStaking, bind_eq_ok, pure_eq_ok] at h
    obtain ⟨balance, hbalance, stake, hburn, _, ⟨rewardBalance, hreward, rfl⟩, _, _, rfl⟩ := h
    obtain ⟨_, rfl⟩ := SafeMath.add_eq_ok.mp hreward
    refine ⟨rfl, rfl, rfl, ?_⟩
    have hworth : balance = s.stake.worth id := Stake.shareToBalance_eq_ok hbalance
    show s.farmingBalance + stake.pendingCake + balance -
      (s.rewardBalance + stake.pendingCake) = s.stake.worth id
    omega
  · rename_i hnone
    cases h
    have hzero : s.stake.shares id = 0 := Nat.eq_zero_of_not_pos hnone
    refine ⟨rfl, rfl, rfl, ?_⟩
    rw [hrewards, Nat.sub_self]
    simp [Stake.worth, SharePool.Book.worth, Stake.book, SharePool.toValue, hzero]

/-- `liquidateOn` is the worker's `liquidate`, with what its strategy sends back. -/
theorem liquidate_of_liquidateOn {okWorkers : Address → Bool} {self sender : Address} {wad : Nat}
    (h : s.liquidateOn x farming okWorkers self sender id m = .ok (wad, s', m')) :
    ∃ o : Outside, s.liquidate sender o id = .ok s' := by
  simp only [liquidateOn, bind_eq_ok, pure_eq_ok, Prod.mk.injEq] at h
  obtain ⟨_, hop, s₁, hremove, amount, hamount, s₂, hsend, ⟨back, m₁⟩, _, rfl, rfl, rfl⟩ := h
  refine ⟨{ execute := some { tokens := fun t => if t = s₂.baseToken then back else 0 } }, ?_⟩
  simp only [liquidate, bind_eq_ok, pure_eq_ok]
  refine ⟨_, hop, s₁, hremove, s₂, hsend, _, rfl, ?_⟩
  have htokens : (fun t => s₂.balanceOf t + if t = s₂.baseToken then back else 0) =
      Function.update s₂.balanceOf s₂.baseToken (s₂.balanceOf s₂.baseToken + back) := by
    funext t
    by_cases ht : t = s₂.baseToken
    · simp [ht]
    · simp [ht]
  simp only [receive, htokens, Nat.add_zero]

/-- What a liquidation that completes pays is the health before. -/
theorem liquidateOn_eq_soldAlong (hx : x.Documented) (hne : s.baseToken ≠ farming)
    (hpools : (_getPath x.WETH farming s.baseToken).IsChain (x.Pool m))
    (hstray : NoStray m farming s) {okWorkers : Address → Bool} {self sender : Address} {wad : Nat}
    (h : s.liquidateOn x farming okWorkers self sender id m = .ok (wad, s', m')) :
    wad = soldAlong x m (s.stake.worth id) (_getPath x.WETH farming s.baseToken) := by
  simp only [liquidateOn, bind_eq_ok, pure_eq_ok, Prod.mk.injEq] at h
  obtain ⟨_, _, s₁, hremove, amount, hamount, s₂, hsend, ⟨back, m₁⟩, hexecute, rfl, _, _⟩ := h
  obtain ⟨hconfig, hbase, hbalance, hactual⟩ := removeShare_principal hremove hstray.rewards
  obtain ⟨_, hamount'⟩ := SafeMath.sub_eq_ok.mp hamount
  rw [hactual] at hamount'
  simp only [sendFarming, hamount, spend, safeTransfer, bind_eq_ok, pure_eq_ok] at hsend
  obtain ⟨_, _, farmingBalance, _, rfl⟩ := hsend
  have hroute := _getPath_route hpools hstray.strategyBase hstray.strategyFarming
  simp only [hconfig, hbase] at hexecute
  have hback := pancakeswapV2CakeMaxiLiquidate_eq_ok hx hne hroute
    (by simp [hne, hstray.strategyBase]) hexecute
  rw [soldAlong_congr (m := m) Exchange.setBalance_pair] at hback
  simp only [receive, Function.update_self, hbase, hbalance, hstray.base, Nat.zero_add, hback,
    Exchange.setBalance_balanceOf, hstray.strategyFarming, hamount', and_self, if_true]

end CakeMaxi.State

/-! ## Both workers -/

/-- In every reachable state, on pools with positive reserves: `health` does not revert exactly
when its products fit a word, as they do while the stake is below 128 bits. With nothing astray a
`liquidate` that completes pays what `health` said before, and where the LP worker's base token is
CAKE the reward that the farm pays on the way comes on top: there the two agree exactly when
nothing is pending. -/
theorem health_eq_liquidation (x : Exchange) (hx : x.Documented) (m : Market)
    (farming : Address) (accrued : Nat) (id : PositionId) :
    (∀ s₀ s, PancakeswapV2.machine.Reachable s₀ → s = s₀.accrue accrued →
      x.Pool m farming s.baseToken →
      s.stake.amount < (m.pair (x.getPair farming s.baseToken)).totalSupply →
      ((∃ value, s.health x (x.getPair farming s.baseToken) m id = .ok value) ↔
        PancakeswapV2.State.Fits x m farming s id) ∧
      (s.stake.amount < 2 ^ 128 → PancakeswapV2.State.Fits x m farming s id) ∧
      (PancakeswapV2.State.NoStray x m farming s →
        ∀ okWorkers self sender wad s' m',
          s.liquidateOn x (x.getPair farming s.baseToken) okWorkers self sender id m =
            .ok (wad, s', m') →
          (∃ o, s.liquidate sender o id = .ok s') ∧
          ∀ value, s.health x (x.getPair farming s.baseToken) m id = .ok value →
            wad = value + s.rewardInBase id ∧ (wad = value ↔ s.rewardInBase id = 0))) ∧
    (∀ s₀ s, CakeMaxi.machine.Reachable s₀ → s = s₀.accrue accrued → s.baseToken ≠ farming →
      (_getPath x.WETH farming s.baseToken).IsChain (x.Pool m) →
      ((∃ value, s.health x farming m id = .ok value) ↔ CakeMaxi.State.Fits x m farming s id) ∧
      (s.stake.amount < 2 ^ 128 → CakeMaxi.State.Fits x m farming s id) ∧
      (CakeMaxi.State.NoStray m farming s →
        ∀ okWorkers self sender wad s' m',
          s.liquidateOn x farming okWorkers self sender id m = .ok (wad, s', m') →
          (∃ o, s.liquidate sender o id = .ok s') ∧
          ∀ value, s.health x farming m id = .ok value → wad = value)) := by
  constructor
  -- the worker of the LP pool: what is liquidated exceeds the view by the reward in base tokens
  · intro s₀ s hreach haccrued hpool hsupply
    have hcovered₀ : s₀.stake.Covered := PancakeswapV2.covered_inductive.invariant hreach
    have hcovered : s.stake.Covered := haccrued ▸ hcovered₀
    refine ⟨PancakeswapV2.State.health_isOk_iff hcovered hpool hsupply,
      fun hsmall => PancakeswapV2.State.fits_of_small hcovered hsmall hpool, ?_⟩
    intro hstray okWorkers self sender wad s' m' h
    obtain ⟨back, hliquidate⟩ := PancakeswapV2.State.liquidate_of_liquidateOn h
    refine ⟨⟨_, hliquidate⟩, fun value hvalue => ?_⟩
    have hfits := (PancakeswapV2.State.health_isOk_iff hcovered hpool hsupply).mp ⟨value, hvalue⟩
    rw [PancakeswapV2.State.health_eq_valueOf hcovered hpool hsupply hfits] at hvalue
    have hwad := PancakeswapV2.State.liquidateOn_eq_valueOf hx hpool hstray h
    rw [Except.ok.inj hvalue] at hwad
    exact ⟨hwad, by omega⟩
  -- the CAKE worker, whose rewards are kept apart
  · intro s₀ s hreach haccrued hne hpools
    have hcovered₀ : s₀.stake.Covered := (CakeMaxi.inv_inductive.invariant hreach).covered
    have hcovered : s.stake.Covered := haccrued ▸ hcovered₀
    refine ⟨CakeMaxi.State.health_isOk_iff hcovered hpools,
      fun hsmall => CakeMaxi.State.fits_of_small hcovered hsmall hpools, ?_⟩
    intro hstray okWorkers self sender wad s' m' h
    refine ⟨CakeMaxi.State.liquidate_of_liquidateOn h, fun value hvalue => ?_⟩
    have hwad := CakeMaxi.State.liquidateOn_eq_soldAlong hx hne hpools hstray h
    exact hwad.trans (CakeMaxi.State.health_eq_soldAlong hpools hvalue).symm

/-! ## A market -/

/-- The pairs of the native token 1 and of the tokens 3, 4 and 9. -/
def factory : Factory where
  WETH := 1
  getPair a b := a + b + 100
  token0 pair := if pair = 113 then 4 else if pair = 112 then 3 else 1
  token1 pair := if pair = 104 then 3 else if pair = 105 then 4 else 9

/-- The router as its documentation has it. -/
def exchange : Exchange where
  toFactory := factory
  burn pair recipient m := do
    let amounts := Factory.burnAmounts m pair
    require (amounts.1 > 0 ∧ amounts.2 > 0) "Pancake: INSUFFICIENT_LIQUIDITY_BURNED"
    return (amounts, factory.burned m pair recipient)
  swap pair amount0Out amount1Out recipient m := do
    require (amount0Out > 0 ∨ amount1Out > 0) "Pancake: INSUFFICIENT_OUTPUT_AMOUNT"
    require (amount0Out < (m.pair pair).reserve0 ∧ amount1Out < (m.pair pair).reserve1)
      "Pancake: INSUFFICIENT_LIQUIDITY"
    return factory.pay m pair recipient amount0Out amount1Out

theorem exchange_documented : exchange.Documented where
  burn h := by
    simp only [exchange, bind_eq_ok, pure_eq_ok, Prod.mk.injEq] at h
    obtain ⟨_, _, rfl, rfl⟩ := h
    exact ⟨rfl, rfl⟩
  swap h := by
    simp only [exchange, bind_eq_ok, pure_eq_ok] at h
    obtain ⟨_, _, _, _, rfl⟩ := h
    rfl

/-- Every pair holds 10000 of each of its tokens. -/
def market : Market where
  pair _ := { reserve0 := 10000, reserve1 := 10000, totalSupply := 10000, balanceOf := fun _ => 0 }
  balanceOf _ holder :=
    if holder = 104 ∨ holder = 105 ∨ holder = 112 ∨ holder = 113 then 10000 else 0

theorem market_pool {a b : Address} (hlisted : exchange.Listed a b)
    (hbalance : ∀ t, market.balanceOf t (exchange.getPair a b) = 10000) :
    exchange.Pool market a b :=
  ⟨hlisted, by norm_num [market], by norm_num [market], by norm_num [market],
    by norm_num [market], hbalance _, hbalance _⟩

/-- The LP worker with CAKE as its base token. -/
def cakeWorker : PancakeswapV2.State := { PancakeswapV2.freshWorker with baseToken := 4 }

theorem cakeWorker_init : PancakeswapV2.machine.init cakeWorker :=
  ⟨1, 2, 4, 4, 5, 6, 100, 0, fun _ => 0, rfl⟩

/-- A first position of 1000 LP tokens. -/
def openLp : PancakeswapV2.Tx where
  sender := 2
  origin := 8
  outside := { execute := some { lp := 1000 } }
  op := .work 1 5

/-- A first position of so much CAKE. -/
def openCake (amount : Nat) : CakeMaxi.Tx where
  sender := 2
  origin := 8
  outside := { execute := some { farming := amount } }
  op := .work 1 5

/-- With CAKE as base token a liquidation pays the accrued reward of 5 on top of the health; and a
stake of 128 bits makes the health revert. -/
theorem health_ne_liquidation :
    (∃ s : PancakeswapV2.State, PancakeswapV2.machine.Reachable s ∧
      exchange.Pool market 9 (s.accrue 5).baseToken ∧
      (s.accrue 5).stake.amount < (market.pair (exchange.getPair 9 4)).totalSupply ∧
      PancakeswapV2.State.NoStray exchange market 9 (s.accrue 5) ∧
      (s.accrue 5).health exchange (exchange.getPair 9 4) market 1 = .ok 1897 ∧
      ((s.accrue 5).liquidateOn exchange (exchange.getPair 9 4) (fun _ => true) 7 2 1 market).map
        (·.1) = .ok 1902) ∧
    ∃ s : CakeMaxi.State, CakeMaxi.machine.Reachable s ∧
      (_getPath exchange.WETH 4 s.baseToken).IsChain (exchange.Pool market) ∧
      s.health exchange 4 market 1 = .error "SafeMath: multiplication overflow" := by
  constructor
  -- CAKE as the base token: five rewards come on top of what the view says
  · have hrun : PancakeswapV2.machine.lastStep cakeWorker [] openLp (fun _ s =>
        s.baseToken = 4 ∧ s.lpBalance = 0 ∧ s.balanceOf 4 = 0 ∧ s.config.liqStrat = 6 ∧
        s.stake.amount = 1000 ∧
        (s.accrue 5).health exchange (exchange.getPair 9 4) market 1 = .ok 1897 ∧
        ((s.accrue 5).liquidateOn exchange (exchange.getPair 9 4) (fun _ => true) 7 2 1 market).map
          (·.1) = .ok 1902) = true := by
      decide +kernel
    obtain ⟨_, s, hreach, hstep, htest⟩ := TSys.lastStep_reachable cakeWorker_init hrun
    obtain ⟨hbase, hlp, hbalance, hstrat, hamount, hhealth, hpaid⟩ := of_decide_eq_true htest
    have hpool : exchange.Pool market 9 4 :=
      market_pool ⟨by decide, by decide, by decide, by decide⟩ fun _ => rfl
    have hbase' : (s.accrue 5).baseToken = 4 := hbase
    refine ⟨s, hreach.step trivial hstep, hbase' ▸ hpool, ?_, ?_, hhealth, hpaid⟩
    · show s.stake.amount < 10000
      omega
    · refine ⟨hlp, hbase' ▸ hbalance, rfl, ?_, ?_, rfl⟩
      · show market.balanceOf s.baseToken s.config.liqStrat = 0
        rw [hstrat]
        rfl
      · show market.balanceOf 9 s.config.liqStrat = 0
        rw [hstrat]
        rfl
  -- a stake so large that a product of the view overflows
  · have hrun : CakeMaxi.machine.lastStep CakeMaxi.freshWorker [] (openCake (2 ^ 128)) (fun _ s =>
        s.baseToken = 3 ∧ s.health exchange 4 market 1 =
          .error "SafeMath: multiplication overflow") = true := by
      decide +kernel
    obtain ⟨_, s, hreach, hstep, htest⟩ :=
      TSys.lastStep_reachable CakeMaxi.freshWorker_init hrun
    obtain ⟨hbase, hhealth⟩ := of_decide_eq_true htest
    have hpath : (_getPath exchange.WETH 4 3).IsChain (exchange.Pool market) :=
      List.isChain_cons_cons.mpr
        ⟨market_pool ⟨by decide, by decide, by decide, by decide⟩ fun _ => rfl,
          List.isChain_pair.mpr
            (market_pool ⟨by decide, by decide, by decide, by decide⟩ fun _ => rfl)⟩
    exact ⟨s, hreach.step trivial hstep, hbase ▸ hpath, hhealth⟩

theorem health_eq_liquidation_market :
    (∃ s : PancakeswapV2.State, PancakeswapV2.machine.Reachable s ∧
      ∃ value s' m', s.health exchange (exchange.getPair 9 3) market 1 = .ok value ∧
        s.liquidateOn exchange (exchange.getPair 9 3) (fun _ => true) 7 2 1 market =
          .ok (value, s', m')) ∧
    ∃ s : CakeMaxi.State, CakeMaxi.machine.Reachable s ∧
      ∃ value s' m', s.health exchange 4 market 1 = .ok value ∧
        s.liquidateOn exchange 4 (fun _ => true) 7 2 1 market = .ok (value, s', m') := by
  obtain ⟨hlp, -⟩ := health_eq_liquidation exchange exchange_documented market 9 0 1
  obtain ⟨-, hcake⟩ := health_eq_liquidation exchange exchange_documented market 4 0 1
  constructor
  · have hrun : PancakeswapV2.machine.lastStep PancakeswapV2.freshWorker [] openLp (fun _ s =>
        s.baseToken = 3 ∧ s.cake = 4 ∧ s.lpBalance = 0 ∧ s.balanceOf 3 = 0 ∧
        s.config.liqStrat = 6 ∧ s.stake.amount = 1000 ∧
        (s.liquidateOn exchange (exchange.getPair 9 3) (fun _ => true) 7 2 1 market).isOk) =
        true := by
      decide +kernel
    obtain ⟨_, s, hreach, hstep, htest⟩ :=
      TSys.lastStep_reachable PancakeswapV2.freshWorker_init hrun
    obtain ⟨hbase, hreward, hlpBalance, hbalance, hstrat, hamount, hpaid⟩ :=
      of_decide_eq_true htest
    have hreach' := hreach.step trivial hstep
    have hpool : exchange.Pool market 9 s.baseToken :=
      hbase ▸ market_pool ⟨by decide, by decide, by decide, by decide⟩ fun _ => rfl
    obtain ⟨hhealthy, hfits, hpays⟩ := hlp s s hreach' rfl hpool
      (by show s.stake.amount < 10000; omega)
    obtain ⟨value, hhealth⟩ := hhealthy.mpr (hfits (by rw [hamount]; norm_num))
    have hstray : PancakeswapV2.State.NoStray exchange market 9 s := by
      refine ⟨hlpBalance, hbase ▸ hbalance, rfl, ?_, ?_, rfl⟩
      · rw [hstrat]
        rfl
      · rw [hstrat]
        rfl
    -- the base token is not CAKE, so no reward is paid in it
    have hnone : s.rewardInBase 1 = 0 := by simp [PancakeswapV2.State.rewardInBase, hbase, hreward]
    cases hliquidate : s.liquidateOn exchange (exchange.getPair 9 3) (fun _ => true) 7 2 1
        market with
    | error e =>
        rw [hliquidate] at hpaid
        cases hpaid
    | ok paid =>
        obtain ⟨wad, s', m'⟩ := paid
        have hwad := ((hpays hstray _ _ _ _ _ _ (hbase ▸ hliquidate)).2 value hhealth).2.mpr hnone
        rw [hbase] at hhealth
        exact ⟨s, hreach', value, s', m', hhealth, hwad ▸ hliquidate⟩
  -- the same for the CAKE worker, along its path
  · have hrun : CakeMaxi.machine.lastStep CakeMaxi.freshWorker [] (openCake 1000) (fun _ s =>
        s.baseToken = 3 ∧ s.farmingBalance = s.rewardBalance ∧ s.balanceOf 3 = 0 ∧
        s.config.liqStrat = 6 ∧ s.stake.amount = 1000 ∧
        (s.liquidateOn exchange 4 (fun _ => true) 7 2 1 market).isOk) = true := by
      decide +kernel
    obtain ⟨_, s, hreach, hstep, htest⟩ :=
      TSys.lastStep_reachable CakeMaxi.freshWorker_init hrun
    obtain ⟨hbase, hrewards, hbalance, hstrat, hamount, hpaid⟩ := of_decide_eq_true htest
    have hreach' := hreach.step trivial hstep
    have hpath : (_getPath exchange.WETH 4 3).IsChain (exchange.Pool market) :=
      List.isChain_cons_cons.mpr
        ⟨market_pool ⟨by decide, by decide, by decide, by decide⟩ fun _ => rfl,
          List.isChain_pair.mpr
            (market_pool ⟨by decide, by decide, by decide, by decide⟩ fun _ => rfl)⟩
    obtain ⟨hhealthy, hfits, hpays⟩ := hcake s s hreach' rfl (by rw [hbase]; decide)
      (hbase ▸ hpath)
    obtain ⟨value, hhealth⟩ := hhealthy.mpr (hfits (by rw [hamount]; norm_num))
    have hstray : CakeMaxi.State.NoStray market 4 s := by
      refine ⟨hrewards, hbase ▸ hbalance, ?_, ?_⟩
      · rw [hstrat]
        rfl
      · rw [hstrat]
        rfl
    cases hliquidate : s.liquidateOn exchange 4 (fun _ => true) 7 2 1 market with
    | error e =>
        rw [hliquidate] at hpaid
        cases hpaid
    | ok paid =>
        obtain ⟨wad, s', m'⟩ := paid
        have hwad := (hpays hstray _ _ _ _ _ _ hliquidate).2 value hhealth
        exact ⟨s, hreach', value, s', m', hhealth, hwad ▸ hliquidate⟩

end Huski.Worker
