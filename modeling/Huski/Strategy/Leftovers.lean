import Huski.Strategy.Rest

/-!
# What a strategy keeps

A strategy that closes a position sends on all it has: its LP tokens are burned or returned, its
farming tokens sold or sent to the user, its base token sent to the worker. A strategy that adds to
a position sends on its LP tokens only; of the two other tokens the router takes as much as fits the
pool's ratio, which is all there is of one of them. The rest of the other one stays, and is part of
what the next execution works on: an execution starts from all that the strategy holds.
-/

open Solidity

namespace Huski.Strategy

open Pancake (Market Router Exchange)

/-- The strategies for an LP worker. -/
inductive Kind
  | addBaseTokenOnly
  | addTwoSidesOptimal
  | liquidate
  | partialCloseLiquidate
  | partialCloseMinimizeTrading
  | withdrawMinimizeTrading
  deriving DecidableEq

namespace Kind

def execute : Kind → Site → Call → World → Result World
  | .addBaseTokenOnly => Site.addBaseTokenOnly
  | .addTwoSidesOptimal => Site.addTwoSidesOptimal
  | .liquidate => Site.liquidate
  | .partialCloseLiquidate => Site.partialCloseLiquidate
  | .partialCloseMinimizeTrading => Site.partialCloseMinimizeTrading
  | .withdrawMinimizeTrading => Site.withdrawMinimizeTrading

/-- Whether it adds liquidity. -/
def adds : Kind → Bool
  | .addBaseTokenOnly => true
  | .addTwoSidesOptimal => true
  | _ => false

/-- The farming tokens that it takes from the owner. -/
def brings : Kind → Call → Nat
  | .addTwoSidesOptimal, c => ((Abi.decodeWords 3 c.data).toOption.getD []).getD 0 0
  | _, _ => 0

/-- The amount that it sells before it adds, and whether it is of the farming token. -/
def sells : Kind → (amtA amtB resA resB : Nat) → Result (Nat × Bool)
  | .addBaseTokenOnly, amtA, _, resA, _ => do
      let swapAmt ← aIn amtA resA
      return (swapAmt, false)
  | .addTwoSidesOptimal, amtA, amtB, resA, resB => optimalDeposit amtA amtB resA resB
  | _, _, _, _, _ => .ok (0, false)

end Kind

namespace Site

/-- The two tokens have a pair, and the strategy is none of the accounts around it. -/
structure Apart (e : Site) (c : Call) : Prop where
  listed : e.router.Listed c.farmingToken c.baseToken
  pair : e.self ≠ e.lpToken c
  worker : e.self ≠ c.worker
  user : e.self ≠ c.user
  relayer : e.self ≠ e.wNativeRelayer

/-- What the strategy has of the LP token. -/
def lpBalance (e : Site) (c : Call) (m : Market) : Nat := (m.pair (e.lpToken c)).balanceOf e.self

variable {e : Site} {c : Call} {w w' : World} {m m' : Market} {token recipient : Address}

theorem Apart.ne (h : e.Apart c) : c.farmingToken ≠ c.baseToken := h.listed.ne

theorem Apart.comm (h : e.Apart c) : e.router.getPair c.baseToken c.farmingToken = e.lpToken c :=
  h.listed.comm.symm

theorem Apart.sell (h : e.Apart c) : e.router.Route e.self [c.farmingToken, c.baseToken] :=
  List.isChain_pair.mpr ⟨h.listed, h.pair⟩

/-! ## Sending on -/

theorem sendAll_self (hne : e.self ≠ recipient) :
    (e.sendAll token recipient m).balanceOf token e.self = 0 := by
  rw [sendAll, Pancake.Exchange.move_balanceOf_sender hne, Nat.sub_self]

theorem sendAll_of_ne {t holder : Address} (hne : t ≠ token) :
    (e.sendAll token recipient m).balanceOf t holder = m.balanceOf t holder :=
  Pancake.Exchange.move_balanceOf_of_ne (.inl hne)

@[simp] theorem sendAll_pair : (e.sendAll token recipient m).pair = m.pair := rfl

theorem sendLp_eq_ok (hself : e.self ≠ c.worker) (h : e.sendLp c m = .ok m') :
    m'.balanceOf = m.balanceOf ∧ e.lpBalance c m' = 0 := by
  simp only [sendLp, Market.transferLp, bind_eq_ok, SafeMath.subOr_eq_ok, pure_eq_ok] at h
  obtain ⟨_, ⟨_, rfl⟩, rfl⟩ := h
  refine ⟨rfl, ?_⟩
  simp [lpBalance, Market.receiveLp, Market.setPair, hself]

/-- Only the farming tokens go, and all of them. -/
theorem sendFarmingToUser_eq_ok (hapart : e.Apart c) (h : e.sendFarmingToUser c w = .ok w') :
    w'.market.balanceOf c.farmingToken e.self = 0 ∧
    w'.market.balanceOf c.baseToken e.self = w.market.balanceOf c.baseToken e.self ∧
    w'.market.pair = w.market.pair := by
  unfold sendFarmingToUser at h
  dsimp only at h
  split at h
  · split at h
    · rename_i hnative
      simp only [relayerWithdraw, safeTransferETH, bind_eq_ok, pure_eq_ok] at h
      obtain ⟨w₁, ⟨_, _, left, _, rfl⟩, _, _, rfl⟩ := h
      refine ⟨?_, ?_, rfl⟩
      · simp only [Pancake.Exchange.setBalance_balanceOf, hapart.relayer, and_false, if_false]
        exact sendAll_self hapart.relayer
      · simp only [Pancake.Exchange.setBalance_balanceOf, hapart.relayer, and_false, if_false]
        exact sendAll_of_ne hapart.ne.symm
    · cases h
      exact ⟨sendAll_self hapart.user, sendAll_of_ne hapart.ne.symm, rfl⟩
  · rename_i hnone
    cases h
    exact ⟨Nat.eq_zero_of_not_pos hnone, rfl, rfl⟩

/-! ## Closing -/

/-- A strategy that keeps nothing. -/
structure Empty (e : Site) (c : Call) (m : Market) : Prop where
  lp : e.lpBalance c m = 0
  base : m.balanceOf c.baseToken e.self = 0
  farming : m.balanceOf c.farmingToken e.self = 0

/-- The removal takes its LP tokens. -/
theorem removed_lp (hapart : e.Apart c) (hx : e.router.Documented) {liquidity : Nat}
    (h : e.router.removeLiquidity m e.self c.baseToken c.farmingToken liquidity 0 0 e.self =
      .ok m') : e.lpBalance c m' = e.lpBalance c m - liquidity := by
  have hremoved := Pancake.Exchange.removeLiquidity_removed hx.exchange
    (hapart.comm ▸ hapart.pair) h
  rw [hapart.comm] at hremoved
  exact hremoved.lp

/-- The sale takes all its farming tokens. -/
theorem sold_farming (hapart : e.Apart c) (hx : e.router.Documented) {amountOutMin : Nat}
    (h : e.router.swapExactTokensForTokens m e.self (m.balanceOf c.farmingToken e.self) amountOutMin
      [c.farmingToken, c.baseToken] e.self = .ok m') :
    m'.balanceOf c.farmingToken e.self = 0 ∧ e.lpBalance c m' = e.lpBalance c m := by
  obtain ⟨_, htraded⟩ := Pancake.Exchange.swapExactTokensForTokens_traded hx.exchange hapart.sell
    hapart.ne.symm h
  refine ⟨htraded.input.trans (Nat.sub_self _), ?_⟩
  unfold lpBalance
  rw [htraded.lp]

theorem buyRemainingDebt_lp (hx : e.router.Documented) {debt : Nat} {path : List Address}
    (h : e.buyRemainingDebt c debt path m = .ok m') : e.lpBalance c m' = e.lpBalance c m := by
  unfold buyRemainingDebt at h
  dsimp only at h
  split at h
  · simp only [bind_eq_ok] at h
    obtain ⟨_, _, hswap⟩ := h
    unfold lpBalance
    rw [Pancake.Exchange.swapTokensForExactTokens_lp hx.exchange hswap]
  · cases h
    rfl

theorem liquidate_empty (hapart : e.Apart c) (hx : e.router.Documented)
    (h : e.liquidate c w = .ok w') : e.Empty c w'.market := by
  simp only [liquidate, Worker.pancakeswapV2Liquidate, bind_eq_ok, pure_eq_ok] at h
  obtain ⟨_, _, words, _, ⟨balance, m⟩, ⟨_, _, m₁, hremove, m₂, hswap, _, _, hout⟩, rfl⟩ := h
  obtain ⟨-, rfl⟩ := Prod.mk.inj hout
  have hlp := removed_lp hapart hx hremove
  obtain ⟨hfarming, hlp'⟩ := sold_farming hapart hx hswap
  have hne := hapart.ne
  have hworker := hapart.worker
  refine ⟨?_, ?_, ?_⟩
  · calc e.lpBalance c m₂ = e.lpBalance c m₁ := hlp'
      _ = e.lpBalance c w.market - e.lpBalance c w.market := hlp
      _ = 0 := Nat.sub_self _
  · simp [hworker]
  · simp [hne, hfarming]

theorem partialCloseLiquidate_empty (hapart : e.Apart c) (hx : e.router.Documented)
    (h : e.partialCloseLiquidate c w = .ok w') : e.Empty c w'.market := by
  simp only [partialCloseLiquidate, bind_eq_ok, pure_eq_ok] at h
  obtain ⟨_, _, words, _, _, _, m₁, _, m₂, hswap, _, _, m₃, hsend, rfl⟩ := h
  obtain ⟨hfarming, _⟩ := sold_farming hapart hx hswap
  obtain ⟨hbalance, hlp⟩ := sendLp_eq_ok hapart.worker hsend
  refine ⟨hlp, ?_, ?_⟩
  · show m₃.balanceOf c.baseToken e.self = 0
    rw [hbalance, sendAll_self hapart.worker]
  · show m₃.balanceOf c.farmingToken e.self = 0
    rw [hbalance, sendAll_of_ne hapart.ne, hfarming]

theorem partialCloseMinimizeTrading_empty (hapart : e.Apart c)
    (h : e.partialCloseMinimizeTrading c w = .ok w') : e.Empty c w'.market := by
  simp only [partialCloseMinimizeTrading, bind_eq_ok] at h
  obtain ⟨_, _, words, _, m₁, _, m₂, _, m₃, hsend, _, _, hrest⟩ := h
  obtain ⟨hfarming, hbase, hpair⟩ := sendFarmingToUser_eq_ok hapart hrest
  refine ⟨?_, ?_, hfarming⟩
  · unfold lpBalance
    rw [hpair]
    exact (sendLp_eq_ok hapart.worker hsend).2
  · rw [hbase]
    exact sendAll_self hapart.worker

theorem withdrawMinimizeTrading_empty (hapart : e.Apart c) (hx : e.router.Documented)
    (h : e.withdrawMinimizeTrading c w = .ok w') : e.Empty c w'.market := by
  simp only [withdrawMinimizeTrading, bind_eq_ok] at h
  obtain ⟨_, _, words, _, m₁, hremove, m₂, hbuy, _, _, hrest⟩ := h
  obtain ⟨hfarming, hbase, hpair⟩ := sendFarmingToUser_eq_ok hapart hrest
  refine ⟨?_, ?_, hfarming⟩
  · unfold lpBalance
    rw [hpair]
    calc e.lpBalance c m₂ = e.lpBalance c m₁ := buyRemainingDebt_lp hx hbuy
      _ = e.lpBalance c w.market - e.lpBalance c w.market := removed_lp hapart hx hremove
      _ = 0 := Nat.sub_self _
  · rw [hbase]
    exact sendAll_self hapart.worker

/-! ## Adding -/

/-- A strategy that keeps one of the two tokens at most. -/
structure OneLeft (e : Site) (c : Call) (m : Market) : Prop where
  lp : e.lpBalance c m = 0
  one : m.balanceOf c.baseToken e.self = 0 ∨ m.balanceOf c.farmingToken e.self = 0

theorem Empty.oneLeft (h : e.Empty c m) : e.OneLeft c m := ⟨h.lp, .inl h.base⟩

/-- Adding all there is, and sending the LP tokens on. -/
theorem oneLeft_of_added (hapart : e.Apart c) (hx : e.router.Documented) {liquidity : Nat}
    {m₁ m₂ : Market} (hadd : e.router.addLiquidity m e.self c.baseToken c.farmingToken
      (m.balanceOf c.baseToken e.self) (m.balanceOf c.farmingToken e.self) 0 0 e.self =
        .ok (liquidity, m₁)) (hsend : e.sendLp c m₁ = .ok m₂) : e.OneLeft c m₂ := by
  obtain ⟨hbalance, hlp⟩ := sendLp_eq_ok hapart.worker hsend
  refine ⟨hlp, ?_⟩
  rw [hbalance]
  exact Router.addLiquidity_left hx hapart.ne.symm (hapart.comm ▸ hapart.pair) hadd

theorem addBaseTokenOnly_oneLeft (hapart : e.Apart c) (hx : e.router.Documented)
    (h : e.addBaseTokenOnly c w = .ok w') : e.OneLeft c w'.market := by
  simp only [addBaseTokenOnly, bind_eq_ok, pure_eq_ok] at h
  obtain ⟨_, _, words, _, _, _, m₁, _, ⟨liquidity, m₂⟩, hadd, _, _, m₃, hsend, rfl⟩ := h
  exact oneLeft_of_added hapart hx hadd hsend

theorem addTwoSidesOptimal_oneLeft (hapart : e.Apart c) (hx : e.router.Documented)
    (h : e.addTwoSidesOptimal c w = .ok w') : e.OneLeft c w'.market := by
  simp only [addTwoSidesOptimal, bind_eq_ok, pure_eq_ok] at h
  obtain ⟨_, _, words, _, m₀, _, ⟨swapAmt, isReversed⟩, _, m₁, _, ⟨liquidity, m₂⟩, hadd, _, _, m₃,
    hsend, rfl⟩ := h
  exact oneLeft_of_added hapart hx hadd hsend

/-! ### The rest -/

/-- The pool's reserve of the base token. -/
def resA (e : Site) (c : Call) (m : Market) : Nat :=
  e.router.reserveOf m (e.lpToken c) c.baseToken

/-- Its reserve of the farming token. -/
def resB (e : Site) (c : Call) (m : Market) : Nat :=
  e.router.reserveOf m (e.lpToken c) c.farmingToken

/-- An execution that starts with `amtA` base tokens and `amtB` farming tokens in the strategy sells
the amount that the code computes, offers the router all the rest, and keeps what the router leaves.
Unless there are farming tokens that the amount is not computed for, that is the rest of
rounding. -/
def KeepsRest (s : Kind) (amtA amtB resA resB leftA leftB : Nat) : Prop :=
  ∃ sold isReversed, s.sells amtA amtB resA resB = .ok (sold, isReversed) ∧
    (leftA, leftB) = keeps sold isReversed amtA amtB resA resB ∧
    (s = .addTwoSidesOptimal ∨ amtB = 0 →
      if isReversed then Rounding sold amtB amtA resB resA leftB leftA
      else Rounding sold amtA amtB resA resB leftA leftB)

/-- The pool pays the strategy for what it sells, and the router leaves some of what is offered. -/
theorem keeps_of_sold (hapart : e.Apart c) (hx : e.router.Documented)
    (hpool : e.router.Pool m c.farmingToken c.baseToken) {sold : Nat}
    (isReversed : Bool) {m₁ m₂ m₃ : Market}
    (hsold : if isReversed then e.router.Sold m m₁ e.self c.farmingToken c.baseToken sold
      else e.router.Sold m m₁ e.self c.baseToken c.farmingToken sold)
    {liquidity : Nat} (hadd : e.router.addLiquidity m₁ e.self c.baseToken c.farmingToken
      (m₁.balanceOf c.baseToken e.self) (m₁.balanceOf c.farmingToken e.self) 0 0 e.self =
        .ok (liquidity, m₂)) (hsend : e.sendLp c m₂ = .ok m₃) :
    (m₃.balanceOf c.baseToken e.self, m₃.balanceOf c.farmingToken e.self) =
      keeps sold isReversed (m.balanceOf c.baseToken e.self) (m.balanceOf c.farmingToken e.self)
        (e.resA c m) (e.resB c m) := by
  have hposA : 0 < e.resA c m := hpool.reserveOf_pos _
  have hposB : 0 < e.resB c m := hpool.reserveOf_pos _
  -- what the router leaves is decided by the reserves after the sale
  have hleft := fun hpos => Router.addLiquidity_leftOf hx hapart.listed.symm
    (hapart.comm ▸ hapart.pair) hpos hadd
  rw [hapart.comm] at hleft
  rw [(sendLp_eq_ok hapart.worker hsend).1]
  unfold keeps
  cases isReversed with
  -- farming tokens were sold: their reserve grew by them
  | true =>
      have hin : e.router.reserveOf m₁ (e.lpToken c) c.farmingToken = e.resB c m + sold :=
        hsold.reserveIn
      have hout : e.router.reserveOf m₁ (e.lpToken c) c.baseToken =
          e.resA c m - Exchange.sale sold (e.resB c m) (e.resA c m) := hsold.reserveOut
      have hlt : Exchange.sale sold (e.resB c m) (e.resA c m) < e.resA c m :=
        sale_lt_reserve hposB hposA
      have hbase : m₁.balanceOf c.baseToken e.self = m.balanceOf c.baseToken e.self +
          Exchange.sale sold (e.resB c m) (e.resA c m) := hsold.output
      rw [hin, hout, hsold.input, hbase] at hleft
      exact hleft (Nat.sub_ne_zero_of_lt hlt)
  -- base tokens were sold
  | false =>
      have hin := hsold.reserveIn
      have hout := hsold.reserveOut
      have hfarming := hsold.output
      rw [hapart.comm] at hin hout hfarming
      change e.router.reserveOf m₁ (e.lpToken c) c.baseToken = e.resA c m + sold at hin
      rw [hin, hout, hsold.input, hfarming] at hleft
      exact hleft (by omega)

/-- The side that is swapped. -/
theorem swapSide_sold (hapart : e.Apart c) (hx : e.router.Documented)
    (hpool : e.router.Pool m c.farmingToken c.baseToken) {sold : Nat} {isReversed : Bool}
    (h : e.swapSide c sold isReversed m = .ok m') :
    if isReversed then e.router.Sold m m' e.self c.farmingToken c.baseToken sold
    else e.router.Sold m m' e.self c.baseToken c.farmingToken sold := by
  unfold swapSide at h
  dsimp only at h
  by_cases hpos : sold > 0
  · rw [if_pos hpos] at h
    cases isReversed with
    | true => exact Exchange.swapExactTokensForTokens_sold hx.exchange hpool hapart.pair h
    | false =>
        exact Exchange.swapExactTokensForTokens_sold hx.exchange hpool.symm
          (hapart.comm ▸ hapart.pair) h
  · obtain rfl : sold = 0 := by omega
    cases h
    cases isReversed with
    | true => exact Exchange.Sold.nothing
    | false => exact Exchange.Sold.nothing

theorem addBaseTokenOnly_keepsRest (hapart : e.Apart c) (hx : e.router.Documented)
    (hpool : e.router.Pool w.market c.farmingToken c.baseToken)
    (h : e.addBaseTokenOnly c w = .ok w') :
    KeepsRest .addBaseTokenOnly (w.market.balanceOf c.baseToken e.self)
      (w.market.balanceOf c.farmingToken e.self) (e.resA c w.market) (e.resB c w.market)
      (w'.market.balanceOf c.baseToken e.self) (w'.market.balanceOf c.farmingToken e.self) := by
  have hposA : 0 < e.resA c w.market := hpool.reserveOf_pos _
  have hposB : 0 < e.resB c w.market := hpool.reserveOf_pos _
  simp only [addBaseTokenOnly, bind_eq_ok, pure_eq_ok] at h
  obtain ⟨_, _, words, _, sold, hsells, m₁, hswap, ⟨liquidity, m₂⟩, hadd, _, _, m₃, hsend, rfl⟩ := h
  have hsells' : aIn (w.market.balanceOf c.baseToken e.self) (e.resA c w.market) = .ok sold :=
    hsells
  have hsold := Exchange.swapExactTokensForTokens_sold hx.exchange hpool.symm
    (hapart.comm ▸ hapart.pair) hswap
  have hkeeps := keeps_of_sold hapart hx hpool false hsold hadd hsend
  refine ⟨sold, false, bind_eq_ok.mpr ⟨sold, hsells', rfl⟩, hkeeps, fun hnone => ?_⟩
  have hnone := hnone.resolve_left (by simp)
  rw [hnone] at hkeeps
  obtain ⟨hleftA, hleftB⟩ := Prod.mk.inj hkeeps
  obtain rfl := aIn_eq_ok hposB hsells'
  show Rounding _ _ _ _ _ _ _
  rw [hleftA, hleftB, hnone]
  exact keeps_rounding hposA hposB (by rw [Nat.zero_mul]; exact Nat.zero_le _)

theorem addTwoSidesOptimal_keepsRest (hapart : e.Apart c) (hx : e.router.Documented)
    (hpool : e.router.Pool w.market c.farmingToken c.baseToken) (hself : c.owner ≠ e.self)
    (hpair : c.owner ≠ e.lpToken c) (h : e.addTwoSidesOptimal c w = .ok w') :
    KeepsRest .addTwoSidesOptimal (w.market.balanceOf c.baseToken e.self)
      (w.market.balanceOf c.farmingToken e.self + Kind.addTwoSidesOptimal.brings c)
      (e.resA c w.market) (e.resB c w.market)
      (w'.market.balanceOf c.baseToken e.self) (w'.market.balanceOf c.farmingToken e.self) := by
  have hposA : 0 < e.resA c w.market := hpool.reserveOf_pos _
  have hposB : 0 < e.resB c w.market := hpool.reserveOf_pos _
  simp only [addTwoSidesOptimal, Market.safeTransferFrom, bind_eq_ok, pure_eq_ok] at h
  obtain ⟨_, _, words, hwords, _, ⟨_, _, rfl⟩, ⟨sold, isReversed⟩, hsells, m₁, hswap,
    ⟨liquidity, m₂⟩, hadd, _, _, m₃, hsend, rfl⟩ := h
  have hbrings : Kind.addTwoSidesOptimal.brings c = words.getD 0 0 := by
    simp only [Kind.brings, hwords]
    rfl
  -- the owner's farming tokens arrive, and the pool does not notice
  have hpool' := hpool.move c.farmingToken (words.getD 0 0) hpair hapart.pair
  have hfarming : (w.market.move c.farmingToken c.owner e.self (words.getD 0 0)).balanceOf
      c.farmingToken e.self = w.market.balanceOf c.farmingToken e.self + words.getD 0 0 :=
    Exchange.move_balanceOf_recipient hself.symm
  have hbase : (w.market.move c.farmingToken c.owner e.self (words.getD 0 0)).balanceOf
      c.baseToken e.self = w.market.balanceOf c.baseToken e.self :=
    Exchange.move_balanceOf_of_ne (.inl hapart.ne.symm)
  have hkeeps := keeps_of_sold hapart hx hpool' isReversed
    (swapSide_sold hapart hx hpool' hswap) hadd hsend
  rw [hfarming, hbase] at hkeeps
  have hreserves := hpool.toListed.reserves_eq (m := w.market)
  change (if e.router.token0 (e.lpToken c) = c.baseToken then
    ((w.market.pair (e.lpToken c)).reserve0, (w.market.pair (e.lpToken c)).reserve1)
    else ((w.market.pair (e.lpToken c)).reserve1, (w.market.pair (e.lpToken c)).reserve0)) =
      (e.resA c w.market, e.resB c w.market) at hreserves
  rw [hfarming, hbase, Exchange.move_pair, hreserves] at hsells
  rw [hbrings]
  refine ⟨sold, isReversed, hsells, hkeeps, fun _ => ?_⟩
  obtain ⟨hleftA, hleftB⟩ := Prod.mk.inj hkeeps
  rcases optimalDeposit_eq_ok hsells with ⟨rfl, hle, rfl⟩ | ⟨rfl, hle, rfl⟩
  · show Rounding _ _ _ _ _ _ _
    rw [hleftA, hleftB]
    exact keeps_rounding hposA hposB hle
  · show Rounding _ _ _ _ _ _ _
    rw [hleftA, hleftB]
    exact keeps_rounding_reversed hposA hposB hle

end Site

open Site

/-- After any execution the LP tokens are gone, and of the base token and the farming token one at
least; after a closing one both are. What an adding one keeps is what the router leaves of all that
the strategy held and was brought; of the token that it bought nothing, and of the one that it sold
what rounding makes. -/
theorem execute_leaves {e : Site} {c : Call} {w w' : World} {s : Kind} (hapart : e.Apart c)
    (hx : e.router.Documented) (h : s.execute e c w = .ok w') :
    e.OneLeft c w'.market ∧ (s.adds = false → e.Empty c w'.market) ∧
    (s.adds = true → e.router.Pool w.market c.farmingToken c.baseToken →
      (s = .addTwoSidesOptimal → c.owner ≠ e.self ∧ c.owner ≠ e.lpToken c) →
      KeepsRest s (w.market.balanceOf c.baseToken e.self)
        (w.market.balanceOf c.farmingToken e.self + s.brings c)
        (e.resA c w.market) (e.resB c w.market)
        (w'.market.balanceOf c.baseToken e.self) (w'.market.balanceOf c.farmingToken e.self)) := by
  cases s with
  | addBaseTokenOnly =>
      exact ⟨addBaseTokenOnly_oneLeft hapart hx h, by simp [Kind.adds],
        fun _ hpool _ => addBaseTokenOnly_keepsRest hapart hx hpool h⟩
  | addTwoSidesOptimal =>
      exact ⟨addTwoSidesOptimal_oneLeft hapart hx h, by simp [Kind.adds],
        fun _ hpool howner => addTwoSidesOptimal_keepsRest hapart hx hpool (howner rfl).1
          (howner rfl).2 h⟩
  | liquidate =>
      have hempty := liquidate_empty hapart hx h
      exact ⟨hempty.oneLeft, fun _ => hempty, by simp [Kind.adds]⟩
  | partialCloseLiquidate =>
      have hempty := partialCloseLiquidate_empty hapart hx h
      exact ⟨hempty.oneLeft, fun _ => hempty, by simp [Kind.adds]⟩
  | partialCloseMinimizeTrading =>
      have hempty := partialCloseMinimizeTrading_empty hapart h
      exact ⟨hempty.oneLeft, fun _ => hempty, by simp [Kind.adds]⟩
  | withdrawMinimizeTrading =>
      have hempty := withdrawMinimizeTrading_empty hapart hx h
      exact ⟨hempty.oneLeft, fun _ => hempty, by simp [Kind.adds]⟩

/-! ## A pool -/

/-- The pairs of `Worker.exchange`, which mint the smaller share of the two deposits. -/
def router : Router where
  toExchange := Worker.exchange
  mint pair recipient m := do
    let p := m.pair pair
    let balance0 := m.balanceOf (Worker.factory.token0 pair) pair
    let balance1 := m.balanceOf (Worker.factory.token1 pair) pair
    let liquidity := min ((balance0 - p.reserve0) * p.totalSupply / p.reserve0)
      ((balance1 - p.reserve1) * p.totalSupply / p.reserve1)
    require (liquidity > 0) "Pancake: INSUFFICIENT_LIQUIDITY_MINTED"
    let m := m.setPair pair { p with totalSupply := p.totalSupply + liquidity }
    return (liquidity, Worker.factory.sync (m.receiveLp pair recipient liquidity) pair)

theorem router_documented : router.Documented where
  exchange := Worker.exchange_documented
  mint h := by
    simp only [router, bind_eq_ok, pure_eq_ok, Prod.mk.injEq] at h
    obtain ⟨_, _, _, rfl⟩ := h
    rfl

/-- A strategy at account 6 for the worker 7 of the base token 3 and the farming token 9. -/
def site : Site where
  router := router
  okWorkers worker := worker = 7
  self := 6
  wNative := 1
  wNativeRelayer := 2
  okCallers caller := caller = 6
  accepts _ := true

/-- A call with these arguments, for a position with that debt. -/
def call (debt : Nat) (words : List Nat) : Call where
  worker := 7
  baseToken := 3
  farmingToken := 9
  owner := 8
  user := 8
  debt
  data := Abi.encodeTuple (words.map .word)

theorem site_apart (debt : Nat) (words : List Nat) : site.Apart (call debt words) where
  listed := (⟨by decide, by decide, by decide, by decide⟩ : Worker.exchange.Listed 9 3)
  pair := (by decide : (6 : Address) ≠ 112)
  worker := (by decide : (6 : Address) ≠ 7)
  user := (by decide : (6 : Address) ≠ 8)
  relayer := (by decide : (6 : Address) ≠ 2)

/-- The strategy has so many base tokens, and the owner 500 farming tokens. -/
def adding (held : Nat) : World where
  market := (Worker.market.setBalance 9 8 500).setBalance 3 6 held
  native _ := 0

/-- The strategy has 1000 LP tokens. -/
def closing : World where
  market := Worker.market.receiveLp 112 6 1000
  native _ := 0

/-- Of 1000 base tokens that the worker sends an empty strategy two stay behind. -/
theorem addBaseTokenOnly_keeps :
    site.Empty (call 0 [0]) (adding 0).market ∧
    ∃ w', Kind.addBaseTokenOnly.execute site (call 0 [0]) (adding 1000) = .ok w' ∧
      w'.market.balanceOf 3 6 = 2 ∧ w'.market.balanceOf 9 6 = 0 := by
  have hrun : ((Kind.addBaseTokenOnly.execute site (call 0 [0]) (adding 1000)).toOption.any
      fun w' => w'.market.balanceOf 3 6 = 2 ∧ w'.market.balanceOf 9 6 = 0) = true := by
    decide +kernel
  obtain ⟨w', hok, htest⟩ := (Option.any_eq_true _ _).mp hrun
  exact ⟨⟨rfl, rfl, rfl⟩, w', toOption_eq_some.mp hok, of_decide_eq_true htest⟩

theorem adding_pool (held : Nat) (debt : Nat) (words : List Nat) :
    site.router.Pool (adding held).market (call debt words).farmingToken
      (call debt words).baseToken :=
  ⟨(site_apart debt words).listed, (by decide : 0 < 10000), (by decide : 0 < 10000),
    (by decide : 10000 < 2 ^ 112), (by decide : 10000 < 2 ^ 112), rfl, rfl⟩

/-- Both adding strategies, the second one with the sides reversed, and the four closing ones. -/
theorem execute_leaves_pool :
    (∃ w', Kind.addBaseTokenOnly.execute site (call 0 [0]) (adding 1000) = .ok w' ∧
      KeepsRest .addBaseTokenOnly 1000 0 10000 10000 (w'.market.balanceOf 3 6)
        (w'.market.balanceOf 9 6)) ∧
    (∃ w', Kind.addTwoSidesOptimal.execute site (call 0 [500, 0, 0]) (adding 100) = .ok w' ∧
      KeepsRest .addTwoSidesOptimal 100 500 10000 10000 (w'.market.balanceOf 3 6)
        (w'.market.balanceOf 9 6)) ∧
    (∃ w', Kind.liquidate.execute site (call 0 [0]) closing = .ok w' ∧
      site.Empty (call 0 [0]) w'.market) ∧
    (∃ w', Kind.partialCloseLiquidate.execute site (call 0 [400, 0]) closing = .ok w' ∧
      site.Empty (call 0 [400, 0]) w'.market) ∧
    (∃ w', Kind.partialCloseMinimizeTrading.execute site (call 450 [400, 420, 0]) closing =
        .ok w' ∧ site.Empty (call 450 [400, 420, 0]) w'.market) ∧
    ∃ w', Kind.withdrawMinimizeTrading.execute site (call 1200 [0]) closing = .ok w' ∧
      site.Empty (call 1200 [0]) w'.market := by
  -- one run of each strategy, on the same site
  obtain ⟨w₁, h₁⟩ := exists_ok_of_isOk (x := Kind.addBaseTokenOnly.execute site (call 0 [0])
    (adding 1000)) (by decide +kernel)
  obtain ⟨w₂, h₂⟩ := exists_ok_of_isOk (x := Kind.addTwoSidesOptimal.execute site
    (call 0 [500, 0, 0]) (adding 100)) (by decide +kernel)
  obtain ⟨w₃, h₃⟩ := exists_ok_of_isOk (x := Kind.liquidate.execute site (call 0 [0]) closing)
    (by decide +kernel)
  obtain ⟨w₄, h₄⟩ := exists_ok_of_isOk (x := Kind.partialCloseLiquidate.execute site
    (call 0 [400, 0]) closing) (by decide +kernel)
  obtain ⟨w₅, h₅⟩ := exists_ok_of_isOk (x := Kind.partialCloseMinimizeTrading.execute site
    (call 450 [400, 420, 0]) closing) (by decide +kernel)
  obtain ⟨w₆, h₆⟩ := exists_ok_of_isOk (x := Kind.withdrawMinimizeTrading.execute site
    (call 1200 [0]) closing) (by decide +kernel)
  exact ⟨
    ⟨w₁, h₁, (execute_leaves (site_apart 0 [0]) router_documented h₁).2.2 rfl
      (adding_pool 1000 0 [0]) (by simp)⟩,
    ⟨w₂, h₂, (execute_leaves (site_apart 0 [500, 0, 0]) router_documented h₂).2.2 rfl
      (adding_pool 100 0 [500, 0, 0]) fun _ => ⟨(by decide : (8 : Address) ≠ 6),
        (by decide : (8 : Address) ≠ 112)⟩⟩,
    ⟨w₃, h₃, (execute_leaves (site_apart 0 [0]) router_documented h₃).2.1 rfl⟩,
    ⟨w₄, h₄, (execute_leaves (site_apart 0 [400, 0]) router_documented h₄).2.1 rfl⟩,
    ⟨w₅, h₅, (execute_leaves (site_apart 450 [400, 420, 0]) router_documented h₅).2.1 rfl⟩,
    ⟨w₆, h₆, (execute_leaves (site_apart 1200 [0]) router_documented h₆).2.1 rfl⟩⟩

end Huski.Strategy
