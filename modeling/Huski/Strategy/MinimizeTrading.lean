import Huski.Strategy.Leftovers

/-!
# Minimizing trading

The three strategies that repay a debt with as little trading as possible. The two for LP workers
first look at the base token they have; `PancakeswapV2CakeMaxiWithdrawMinimizeTrading` buys the
whole debt without looking, so it buys too much where it has some, and reverts where there is no
debt.
-/

open Solidity

namespace Huski.Strategy

open Pancake (Exchange Market)
open Pancake.Factory (burnAmounts)

/-- The strategies, with what the caller chooses besides the minimum of zero. -/
inductive Closing
  | withdraw
  | partialClose (maxLpTokenToLiquidate maxDebtRepayment : Nat)
  | cakeMaxi
  deriving DecidableEq

namespace Closing

variable (k : Closing) (e : Site) (c : Call) (w : World)

def execute : Result World :=
  match k with
  | .withdraw => e.withdrawMinimizeTrading c w
  | .partialClose _ _ => e.partialCloseMinimizeTrading c w
  | .cakeMaxi => e.cakeMaxiWithdrawMinimizeTrading c w

/-- The data of the call, with the minimum last. -/
def data : List Nat :=
  match k with
  | .withdraw => Abi.encodeTuple [.word 0]
  | .partialClose maxLp maxRepayment =>
      Abi.encodeTuple [.word maxLp, .word maxRepayment, .word 0]
  | .cakeMaxi => Abi.encodeTuple [.word 0]

/-- What is to be repaid. -/
def target (debt : Nat) : Nat :=
  match k with
  | .withdraw => debt
  | .partialClose _ maxRepayment => min debt maxRepayment
  | .cakeMaxi => debt

/-- Along which the farming token is sold. -/
def path : List Address :=
  match k with
  | .withdraw => [c.farmingToken, c.baseToken]
  | .partialClose _ _ => [c.farmingToken, c.baseToken]
  | .cakeMaxi => Worker._getPath e.wNative c.farmingToken c.baseToken

/-- How many LP tokens are burned, if any are. -/
def liquidity (m : Market) : Option Nat :=
  match k with
  | .withdraw => some (e.lpBalance c m)
  | .partialClose maxLp _ => some (min (e.lpBalance c m) maxLp)
  | .cakeMaxi => none

/-- The LP tokens are at the pair. -/
def offered (liquidity : Nat) (m : Market) : Market :=
  m.moveLp (e.lpToken c) e.self (e.lpToken c) liquidity

/-- The market in which the strategy trades: after the burn. -/
def opened (m : Market) : Market :=
  match k.liquidity e c m with
  | some liquidity => e.router.burned (offered e c liquidity m) (e.lpToken c) e.self
  | none => m

/-- The base token it has then. -/
def held : Nat := (k.opened e c w.market).balanceOf c.baseToken e.self

/-- What is missing. -/
def missing : Nat := k.target c.debt - k.held e c w

/-- What the missing amount costs in farming tokens. -/
def cost : Result Nat :=
  if k.missing e c w = 0 then .ok 0
  else do
    let amounts ← e.router.getAmountsIn (k.opened e c w.market) (k.missing e c w) (k.path e c)
    return amounts.headD 0

/-- The farming tokens suffice. -/
def Coverable (sold : Nat) : Prop :=
  k.cost e c w = .ok sold ∧
    sold ≤ (k.opened e c w.market).balanceOf c.farmingToken e.self

/-- What the user has of the farming token, in the form in which it is paid out. -/
def userHas (w : World) : Nat :=
  if c.farmingToken = e.wNative then w.native c.user else w.market.balanceOf c.farmingToken c.user

/-- It succeeds, buys what is missing and no more, returns what it then has of the base token to the
worker, which is at least the target, and the farming tokens it did not sell to the user. -/
def Closes (sold : Nat) : Prop :=
  ∃ w', k.execute e c w = .ok w' ∧
    w'.market.balanceOf c.baseToken c.worker =
      w.market.balanceOf c.baseToken c.worker + (k.held e c w + k.missing e c w) ∧
    k.target c.debt ≤ k.held e c w + k.missing e c w ∧
    userHas e c w' = userHas e c w +
      ((k.opened e c w.market).balanceOf c.farmingToken e.self - sold)

/-- A deployed strategy and a call with no minimum. -/
structure Ready : Prop where
  data : c.data = k.data
  whitelisted : e.okWorkers c.worker = true
  ne : c.farmingToken ≠ c.baseToken
  base_ne_zero : c.baseToken ≠ 0
  farming_ne_zero : c.farmingToken ≠ 0
  comm : e.router.getPair c.baseToken c.farmingToken = e.lpToken c
  /-- the pairs are listed, and the accounts are none of them -/
  self_route : e.router.Route e.self (k.path e c)
  worker_route : e.router.Route c.worker (k.path e c)
  user_route : e.router.Route c.user (k.path e c)
  self_ne_worker : e.self ≠ c.worker
  self_ne_user : e.self ≠ c.user
  self_ne_relayer : e.self ≠ e.wNativeRelayer
  /-- the relayer serves the strategy -/
  okCaller : c.farmingToken = e.wNative → e.okCallers e.self = true
  accepts : c.farmingToken = e.wNative → e.accepts c.user = true
  /-- The pairs do what they are documented to. -/
  documented : e.router.toExchange.Documented
  /-- A burn to positive amounts succeeds. -/
  burn : ∀ m, 0 < (burnAmounts m (e.lpToken c)).1 → 0 < (burnAmounts m (e.lpToken c)).2 →
    ∃ r, e.router.burn (e.lpToken c) e.self m = .ok r
  /-- The router sells what `getAmountsIn` says, if the sender has it and allows it. -/
  fills : ∀ m amountOut amountInMax amounts,
    e.router.getAmountsIn m amountOut (k.path e c) = .ok amounts →
    amounts.headD 0 ≤ amountInMax → amounts.headD 0 ≤ m.balanceOf c.farmingToken e.self →
    ∃ m', e.router.swapTokensForExactTokens m e.self amountOut amountInMax (k.path e c) e.self =
      .ok m'
  /-- The LP tokens burn to positive amounts. -/
  positive : ∀ liquidity, k.liquidity e c w.market = some liquidity →
    0 < (burnAmounts (offered e c liquidity w.market) (e.lpToken c)).1 ∧
    0 < (burnAmounts (offered e c liquidity w.market) (e.lpToken c)).2

end Closing

namespace Site

variable {e : Site} {c : Call} {w : World}

theorem userHas_native (h : c.farmingToken = e.wNative) : Closing.userHas e c w = w.native c.user :=
  if_pos h

theorem userHas_token (h : c.farmingToken ≠ e.wNative) :
    Closing.userHas e c w = w.market.balanceOf c.farmingToken c.user := if_neg h

/-- The farming tokens arrive, and nothing else changes hands. -/
theorem sendFarmingToUser_isOk (hne : c.farmingToken ≠ c.baseToken) (huser : e.self ≠ c.user)
    (hrelayer : e.self ≠ e.wNativeRelayer)
    (hcaller : c.farmingToken = e.wNative → e.okCallers e.self = true)
    (haccepts : c.farmingToken = e.wNative → e.accepts c.user = true) :
    ∃ w', e.sendFarmingToUser c w = .ok w' ∧
      (∀ holder, w'.market.balanceOf c.baseToken holder = w.market.balanceOf c.baseToken holder) ∧
      Closing.userHas e c w' =
        Closing.userHas e c w + w.market.balanceOf c.farmingToken e.self := by
  unfold sendFarmingToUser
  dsimp only
  -- nothing is sent when the strategy holds none
  by_cases hpos : 0 < w.market.balanceOf c.farmingToken e.self
  · rw [if_pos hpos]
    -- wrapped native coins are unwrapped by the relayer, and sent as coins
    by_cases hnative : c.farmingToken = e.wNative
    · rw [if_pos hnative]
      have hreceived : w.market.balanceOf c.farmingToken e.self ≤
          (e.sendAll c.farmingToken e.wNativeRelayer w.market).balanceOf e.wNative
            e.wNativeRelayer := by
        rw [← hnative, sendAll, Exchange.move_balanceOf_recipient hrelayer.symm]
        exact Nat.le_add_left _ _
      refine ⟨_, bind_eq_ok.mpr ⟨_, bind_eq_ok.mpr ⟨(), require_eq_ok.mpr (hcaller hnative),
        bind_eq_ok.mpr ⟨_, SafeMath.subOr_eq_ok.mpr ⟨hreceived, rfl⟩, rfl⟩⟩,
        bind_eq_ok.mpr ⟨(), require_eq_ok.mpr ⟨haccepts hnative, ?_⟩, rfl⟩⟩, ?_, ?_⟩
      · simp
      · intro holder
        simp only [Exchange.setBalance_balanceOf]
        rw [if_neg fun h => hne (hnative.trans h.1.symm)]
        exact sendAll_of_ne hne.symm
      · rw [userHas_native hnative, userHas_native hnative]
        simp [huser.symm]
    · rw [if_neg hnative]
      refine ⟨_, rfl, fun holder => sendAll_of_ne hne.symm, ?_⟩
      rw [userHas_token hnative, userHas_token hnative]
      exact Exchange.move_balanceOf_recipient huser.symm
  · rw [if_neg hpos, Nat.eq_zero_of_not_pos hpos]
    exact ⟨w, rfl, fun _ => rfl, rfl⟩

end Site

namespace Closing

variable {k : Closing} {e : Site} {c : Call} {w : World} {sold : Nat} {m₁ m₂ : Market}

/-- The path starts with the farming token and ends with the base token. -/
theorem path_cases (k : Closing) (e : Site) (c : Call) :
    ∃ output rest, k.path e c = c.farmingToken :: output :: rest ∧
      rest.getLastD output = c.baseToken := by
  cases k with
  | withdraw => exact ⟨c.baseToken, [], rfl, rfl⟩
  | partialClose _ _ => exact ⟨c.baseToken, [], rfl, rfl⟩
  | cakeMaxi =>
      unfold path Worker._getPath
      by_cases hbase : c.baseToken = e.wNative
      · exact ⟨e.wNative, [], if_pos hbase, hbase.symm⟩
      · by_cases hfarming : c.farmingToken = e.wNative
        · refine ⟨c.baseToken, [], ?_, rfl⟩
          dsimp only
          rw [if_neg hbase, if_pos hfarming, hfarming]
        · refine ⟨e.wNative, [c.baseToken], ?_, rfl⟩
          dsimp only
          rw [if_neg hbase, if_neg hfarming]

/-- What a purchase on the way leaves behind. -/
theorem bought (hready : k.Ready e c w) {amountOut amountInMax : Nat}
    (h : e.router.swapTokensForExactTokens m₁ e.self amountOut amountInMax (k.path e c) e.self =
      .ok m₂) :
    ∃ amounts, e.router.getAmountsIn m₁ amountOut (k.path e c) = .ok amounts ∧
      e.router.Traded m₁ m₂ e.self (k.path e c) c.farmingToken c.baseToken (amounts.headD 0)
        amountOut := by
  obtain ⟨output, rest, hpath, hlast⟩ := path_cases k e c
  have hroute := hready.self_route
  rw [hpath] at h hroute ⊢
  have hne : rest.getLastD output ≠ c.farmingToken := hlast ▸ hready.ne.symm
  exact hlast ▸ Exchange.swapTokensForExactTokens_traded hready.documented hroute hne h

/-- What is missing is bought, and nothing else happens. -/
structure Covered (e : Site) (c : Call) (m₁ m₂ : Market) (got sold : Nat) : Prop where
  base : m₂.balanceOf c.baseToken e.self = m₁.balanceOf c.baseToken e.self + got
  farming : m₂.balanceOf c.farmingToken e.self = m₁.balanceOf c.farmingToken e.self - sold
  worker : m₂.balanceOf c.baseToken c.worker = m₁.balanceOf c.baseToken c.worker
  user : m₂.balanceOf c.farmingToken c.user = m₁.balanceOf c.farmingToken c.user

theorem Covered.of_traded (hready : k.Ready e c w) {got : Nat}
    (h : e.router.Traded m₁ m₂ e.self (k.path e c) c.farmingToken c.baseToken sold got) :
    Covered e c m₁ m₂ got sold where
  base := h.last
  farming := h.input
  worker := h.frame hready.self_ne_worker.symm hready.worker_route _
  user := h.frame hready.self_ne_user.symm hready.user_route _

/-- A purchase that is affordable. -/
theorem buy_isOk (hready : k.Ready e c w) (hcover : k.Coverable e c w sold)
    (hmissing : k.missing e c w ≠ 0) :
    ∃ m₂, e.router.swapTokensForExactTokens (k.opened e c w.market) e.self (k.missing e c w)
        ((k.opened e c w.market).balanceOf c.farmingToken e.self) (k.path e c) e.self = .ok m₂ ∧
      Covered e c (k.opened e c w.market) m₂ (k.missing e c w) sold := by
  obtain ⟨hcost, hle⟩ := hcover
  unfold cost at hcost
  rw [if_neg hmissing] at hcost
  simp only [bind_eq_ok, pure_eq_ok] at hcost
  obtain ⟨amounts, hamounts, rfl⟩ := hcost
  obtain ⟨m₂, hswap⟩ := hready.fills _ _ _ _ hamounts hle hle
  obtain ⟨amounts', hamounts', htraded⟩ := bought hready hswap
  obtain rfl : amounts = amounts' := Except.ok.inj (hamounts.symm.trans hamounts')
  exact ⟨m₂, hswap, .of_traded hready htraded⟩

/-- What the two strategies for LP workers do about the debt. -/
theorem buyRemainingDebt_isOk (hready : k.Ready e c w) (hcover : k.Coverable e c w sold) :
    ∃ m₂, e.buyRemainingDebt c (k.target c.debt) (k.path e c) (k.opened e c w.market) = .ok m₂ ∧
      Covered e c (k.opened e c w.market) m₂ (k.missing e c w) sold := by
  unfold Site.buyRemainingDebt
  dsimp only
  by_cases hmissing : k.missing e c w = 0
  · have hle : ¬k.target c.debt > k.held e c w :=
      Nat.not_lt.mpr (Nat.sub_eq_zero_iff_le.mp hmissing)
    refine ⟨_, if_neg hle, ?_⟩
    obtain ⟨hcost, _⟩ := hcover
    unfold cost at hcost
    rw [if_pos hmissing] at hcost
    obtain rfl := Except.ok.inj hcost
    rw [hmissing]
    exact ⟨rfl, rfl, rfl, rfl⟩
  · have hlt : k.target c.debt > k.held e c w := Nat.lt_of_sub_ne_zero hmissing
    obtain ⟨m₂, hswap, hcovered⟩ := buy_isOk hready hcover hmissing
    refine ⟨m₂, (if_pos hlt).trans ?_, hcovered⟩
    exact bind_eq_ok.mpr ⟨_, SafeMath.sub_eq_ok.mpr ⟨hlt.le, rfl⟩, hswap⟩

/-- The two markets differ by the burn. -/
theorem opened_eq (hready : k.Ready e c w) {liquidity : Nat}
    (h : k.liquidity e c w.market = some liquidity) (hle : liquidity ≤ e.lpBalance c w.market) :
    e.router.removeLiquidity w.market e.self c.baseToken c.farmingToken liquidity 0 0 e.self =
      .ok (k.opened e c w.market) := by
  have hpositive := hready.positive liquidity h
  have hburn := hready.burn _ hpositive.1 hpositive.2
  unfold opened
  rw [h]
  unfold offered at hburn ⊢
  rw [← hready.comm] at hburn ⊢
  refine Exchange.removeLiquidity_isOk hready.documented hready.ne.symm hready.base_ne_zero
    hready.farming_ne_zero ?_ hburn
  unfold Site.lpBalance at hle
  rwa [hready.comm]

/-- Other accounts do not notice it. -/
theorem opened_frame (hready : k.Ready e c w) {holder : Address} (hholder : holder ≠ e.self)
    (hroute : e.router.Route holder (k.path e c)) (token : Address) :
    (k.opened e c w.market).balanceOf token holder = w.market.balanceOf token holder := by
  unfold opened
  cases k with
  | cakeMaxi => rfl
  | withdraw =>
      have hpair : holder ≠ e.lpToken c := (List.isChain_pair.mp hroute).2
      exact Exchange.pay_balanceOf_of_ne hpair hholder
  | partialClose _ _ =>
      have hpair : holder ≠ e.lpToken c := (List.isChain_pair.mp hroute).2
      exact Exchange.pay_balanceOf_of_ne hpair hholder

/-- The end of all three: the base token to the worker, the farming tokens to the user. -/
theorem pays (hready : k.Ready e c w) {m : Market} {got : Nat}
    (hcovered : Covered e c (k.opened e c w.market) m₂ got sold)
    (hm : m.balanceOf = m₂.balanceOf) :
    ∃ w', e.sendFarmingToUser c { w with market := e.sendAll c.baseToken c.worker m } = .ok w' ∧
      w'.market.balanceOf c.baseToken c.worker =
        w.market.balanceOf c.baseToken c.worker + (k.held e c w + got) ∧
      userHas e c w' = userHas e c w +
        ((k.opened e c w.market).balanceOf c.farmingToken e.self - sold) := by
  obtain ⟨w', hsend, hbase, huser⟩ := Site.sendFarmingToUser_isOk
    (w := { w with market := e.sendAll c.baseToken c.worker m }) hready.ne hready.self_ne_user
    hready.self_ne_relayer hready.okCaller hready.accepts
  refine ⟨w', hsend, ?_, ?_⟩
  · rw [hbase]
    show (m.move c.baseToken e.self c.worker (m.balanceOf c.baseToken e.self)).balanceOf
      c.baseToken c.worker = _
    rw [Exchange.move_balanceOf_recipient hready.self_ne_worker.symm, hm, hcovered.worker,
      hcovered.base, opened_frame hready hready.self_ne_worker.symm hready.worker_route]
    rfl
  · have hfarming : (e.sendAll c.baseToken c.worker m).balanceOf c.farmingToken e.self =
        (k.opened e c w.market).balanceOf c.farmingToken e.self - sold := by
      rw [Site.sendAll_of_ne hready.ne, hm, hcovered.farming]
    rw [huser, hfarming]
    congr 1
    unfold userHas
    split
    · rfl
    · rw [Site.sendAll_of_ne hready.ne, hm, hcovered.user,
        opened_frame hready hready.self_ne_user.symm hready.user_route]

/-- The decoded words. -/
theorem decode_data (hready : k.Ready e c w) {count : Nat} {members : List Abi.Value}
    (hdata : k.data = Abi.encodeTuple members) (hcount : count ≤ members.length) :
    Abi.decodeWords count c.data = .ok ((Abi.encodeTuple members).take count) := by
  rw [hready.data, hdata]
  exact Abi.decodeWords_encodeTuple hcount

theorem target_le (k : Closing) (e : Site) (c : Call) (w : World) :
    k.target c.debt ≤ k.held e c w + k.missing e c w := by
  unfold missing
  omega

theorem withdraw_closes (hready : withdraw.Ready e c w)
    (hcover : withdraw.Coverable e c w sold) : withdraw.Closes e c w sold := by
  obtain ⟨m₂, hbuy, hcovered⟩ := buyRemainingDebt_isOk hready hcover
  obtain ⟨w', hsend, hworker, huser⟩ := pays hready hcovered rfl
  refine ⟨w', ?_, hworker, target_le _ e c w, huser⟩
  refine bind_eq_ok.mpr ⟨(), require_eq_ok.mpr hready.whitelisted, ?_⟩
  refine bind_eq_ok.mpr ⟨_, decode_data hready rfl (Nat.le_refl 1), ?_⟩
  refine bind_eq_ok.mpr ⟨_, opened_eq hready rfl (Nat.le_refl _), ?_⟩
  refine bind_eq_ok.mpr ⟨_, hbuy, ?_⟩
  exact bind_eq_ok.mpr ⟨(), require_eq_ok.mpr (Nat.zero_le _), hsend⟩

theorem partialClose_closes {maxLp maxRepayment : Nat}
    (hready : (partialClose maxLp maxRepayment).Ready e c w)
    (hcover : (partialClose maxLp maxRepayment).Coverable e c w sold) :
    (partialClose maxLp maxRepayment).Closes e c w sold := by
  obtain ⟨m₂, hbuy, hcovered⟩ := buyRemainingDebt_isOk hready hcover
  obtain ⟨m₃, hlp, hbalance⟩ : ∃ m₃, e.sendLp c m₂ = .ok m₃ ∧ m₃.balanceOf = m₂.balanceOf :=
    ⟨_, bind_eq_ok.mpr ⟨_, SafeMath.subOr_eq_ok.mpr ⟨Nat.le_refl _, rfl⟩, rfl⟩, rfl⟩
  obtain ⟨w', hsend, hworker, huser⟩ := pays hready hcovered hbalance
  refine ⟨w', ?_, hworker, target_le _ e c w, huser⟩
  refine bind_eq_ok.mpr ⟨(), require_eq_ok.mpr hready.whitelisted, ?_⟩
  refine bind_eq_ok.mpr ⟨_, decode_data hready rfl (Nat.le_refl 3), ?_⟩
  refine bind_eq_ok.mpr ⟨_, opened_eq hready rfl (Nat.min_le_left _ _), ?_⟩
  refine bind_eq_ok.mpr ⟨_, hbuy, bind_eq_ok.mpr ⟨_, hlp, ?_⟩⟩
  exact bind_eq_ok.mpr ⟨(), require_eq_ok.mpr (Nat.zero_le _), hsend⟩

/-- With a debt and no base token what is missing is the debt. -/
theorem cakeMaxi_closes (hready : cakeMaxi.Ready e c w)
    (hcover : cakeMaxi.Coverable e c w sold) (hdebt : 0 < c.debt)
    (hheld : cakeMaxi.held e c w = 0) : cakeMaxi.Closes e c w sold := by
  have hmissing : cakeMaxi.missing e c w = c.debt := by
    unfold missing
    rw [hheld, Nat.sub_zero]
    rfl
  obtain ⟨m₂, hswap, hcovered⟩ := buy_isOk hready hcover (by omega)
  rw [hmissing] at hswap
  obtain ⟨w', hsend, hworker, huser⟩ := pays hready hcovered rfl
  refine ⟨w', ?_, hworker, target_le _ e c w, huser⟩
  refine bind_eq_ok.mpr ⟨(), require_eq_ok.mpr hready.whitelisted, ?_⟩
  refine bind_eq_ok.mpr ⟨_, decode_data hready rfl (Nat.le_refl 1), ?_⟩
  refine bind_eq_ok.mpr ⟨_, hswap, ?_⟩
  exact bind_eq_ok.mpr ⟨(), require_eq_ok.mpr (Nat.zero_le _), hsend⟩

/-! ## Where it goes wrong -/

/-- The router sells something, and less than the reserve. -/
theorem getAmountIn_eq_ok {amountOut reserveIn reserveOut amountIn : Nat}
    (h : Exchange.getAmountIn amountOut reserveIn reserveOut = .ok amountIn) :
    0 < amountOut ∧ 0 < reserveIn ∧ amountOut < reserveOut := by
  simp only [Exchange.getAmountIn, bind_eq_ok, require_eq_ok, SafeMath.mul_eq_ok,
    SafeMath.sub_eq_ok] at h
  obtain ⟨_, hpos, _, hreserves, _, _, _, _, left, ⟨_, rfl⟩, _, ⟨_, rfl⟩, _, hden, _⟩ := h
  exact ⟨hpos, hreserves.1, Nat.lt_of_sub_ne_zero (left_ne_zero_of_mul hden)⟩

theorem amountsBack_pos {x : Exchange} {m : Market} {input output : Address}
    {path : List Address} {amountOut : Nat} {amounts : List Nat}
    (h : x.amountsBack m amountOut (input :: output :: path) = .ok amounts) : 0 < amountOut := by
  induction path generalizing input output amounts with
  | nil =>
      simp only [Exchange.amountsBack, bind_eq_ok] at h
      obtain ⟨rest, hrest, _, _, _, hin, _⟩ := h
      cases hrest
      exact (getAmountIn_eq_ok hin).1
  | cons next path ih =>
      rw [Exchange.amountsBack] at h
      simp only [bind_eq_ok] at h
      obtain ⟨_, hrest, _⟩ := h
      exact ih hrest

/-- What it buys is the debt, and there has to be one. -/
theorem cakeMaxi_buys (hready : cakeMaxi.Ready e c w) {w' : World}
    (h : cakeMaxi.execute e c w = .ok w') :
    0 < c.debt ∧ w'.market.balanceOf c.baseToken c.worker =
      w.market.balanceOf c.baseToken c.worker + (cakeMaxi.held e c w + c.debt) := by
  simp only [execute, Site.cakeMaxiWithdrawMinimizeTrading, bind_eq_ok] at h
  obtain ⟨_, _, words, _, m₂, hswap, _, _, hsend⟩ := h
  obtain ⟨amounts, hamounts, htraded⟩ := bought hready hswap
  obtain ⟨w'', hsend', hworker, _⟩ := pays hready (.of_traded hready htraded) rfl
  obtain rfl : w' = w'' := Except.ok.inj (hsend.symm.trans hsend')
  refine ⟨?_, hworker⟩
  obtain ⟨output, rest, hpath, _⟩ := path_cases cakeMaxi e c
  rw [hpath] at hamounts
  simp only [Exchange.getAmountsIn, bind_eq_ok] at hamounts
  obtain ⟨_, _, hback⟩ := hamounts
  exact amountsBack_pos hback

end Closing

/-- The strategies for LP workers do what they are for whenever the target can be covered, the one
for CakeMaxi exactly with a debt and without any base token. -/
theorem closes_iff {k : Closing} {e : Site} {c : Call} {w : World} {sold : Nat}
    (hready : k.Ready e c w) (hcover : k.Coverable e c w sold) :
    k.Closes e c w sold ↔
      (k = .cakeMaxi → 0 < c.debt ∧ w.market.balanceOf c.baseToken e.self = 0) := by
  cases k with
  | withdraw => exact iff_of_true (Closing.withdraw_closes hready hcover) nofun
  | partialClose _ _ => exact iff_of_true (Closing.partialClose_closes hready hcover) nofun
  | cakeMaxi =>
      constructor
      · rintro ⟨w', hexecute, hworker, _, _⟩ _
        obtain ⟨hdebt, hworker'⟩ := Closing.cakeMaxi_buys hready hexecute
        refine ⟨hdebt, ?_⟩
        have hmissing : Closing.cakeMaxi.missing e c w = c.debt := by omega
        have hheld : Closing.cakeMaxi.missing e c w = c.debt - Closing.cakeMaxi.held e c w := rfl
        show Closing.cakeMaxi.held e c w = 0
        omega
      · intro h
        obtain ⟨hdebt, hheld⟩ := h rfl
        exact Closing.cakeMaxi_closes hready hcover hdebt hheld

/-! ## A pool -/

/-- A position in the token 4 against the native token 1. -/
def cakeCall (debt : Nat) : Call where
  worker := 7
  baseToken := 1
  farmingToken := 4
  owner := 8
  user := 8
  debt
  data := Abi.encodeTuple [.word 0]

/-- The strategy has so much of the base token, and 100 farming tokens. -/
def cakeWorld (held : Nat) : World where
  market := (Worker.market.setBalance 4 6 100).setBalance 1 6 held
  native _ := 0

/-- The pair fills every order below its reserve. -/
theorem exchange_fills {m : Market} {sender : Address} {amountOut amountInMax : Nat}
    {amounts : List Nat} (hamounts : Worker.exchange.getAmountsIn m amountOut [4, 1] = .ok amounts)
    (hmax : amounts.headD 0 ≤ amountInMax) (hle : amounts.headD 0 ≤ m.balanceOf 4 sender) :
    ∃ m', Worker.exchange.swapTokensForExactTokens m sender amountOut amountInMax [4, 1] sender =
      .ok m' := by
  have hsort : Exchange.sortTokens 4 1 = .ok (1, 4) := by decide +kernel
  have hreserves : Worker.exchange.getReserves m 4 1 =
      .ok ((m.pair 105).reserve1, (m.pair 105).reserve0) := by
    unfold Exchange.getReserves
    rw [hsort]
    rfl
  have hback := hamounts
  simp only [Exchange.getAmountsIn, Exchange.amountsBack, hreserves, bind_eq_ok, pure_eq_ok]
    at hback
  obtain ⟨_, _, rest, hrest, _, hpair, amountIn, hin, rfl⟩ := hback
  cases hrest
  cases hpair
  obtain ⟨hpos, hreserve, hlt⟩ := Closing.getAmountIn_eq_ok hin
  refine ⟨Worker.factory.pay (m.move 4 sender 105 amountIn) 105 sender amountOut 0, ?_⟩
  refine bind_eq_ok.mpr ⟨_, hamounts, bind_eq_ok.mpr ⟨(), require_eq_ok.mpr hmax, ?_⟩⟩
  refine bind_eq_ok.mpr ⟨_, bind_eq_ok.mpr ⟨(), require_eq_ok.mpr hle, rfl⟩, ?_⟩
  refine bind_eq_ok.mpr ⟨_, hsort, bind_eq_ok.mpr ⟨_, ?_, rfl⟩⟩
  refine bind_eq_ok.mpr ⟨(), require_eq_ok.mpr (.inl hpos), ?_⟩
  exact bind_eq_ok.mpr ⟨(), require_eq_ok.mpr ⟨hlt, hreserve⟩, rfl⟩

theorem exchange_burns (m : Market) (pair recipient : Address) (h0 : 0 < (burnAmounts m pair).1)
    (h1 : 0 < (burnAmounts m pair).2) : ∃ r, Worker.exchange.burn pair recipient m = .ok r :=
  ⟨_, bind_eq_ok.mpr ⟨(), require_eq_ok.mpr ⟨h0, h1⟩, rfl⟩⟩

/-- A call with the data of its kind. -/
def poolCall (k : Closing) (debt : Nat) : Call := { cakeCall debt with data := k.data }

/-- The strategy has 1000 LP tokens of the pair. -/
def poolWorld : World where
  market := Worker.market.receiveLp 105 6 1000
  native _ := 0

theorem poolCall_ready (k : Closing) (debt : Nat) (w : World)
    (hpositive : ∀ liquidity, k.liquidity site (poolCall k debt) w.market = some liquidity →
      0 < (burnAmounts (Closing.offered site (poolCall k debt) liquidity w.market) 105).1 ∧
      0 < (burnAmounts (Closing.offered site (poolCall k debt) liquidity w.market) 105).2) :
    k.Ready site (poolCall k debt) w := by
  have hlisted : Worker.exchange.Listed 4 1 := ⟨by decide, by decide, by decide, by decide⟩
  have hpath : k.path site (poolCall k debt) = [4, 1] := by
    cases k <;> rfl
  -- the path is the pair's two tokens, so a route avoids this pair only
  have hroute : ∀ holder : Address, holder ≠ 105 →
      site.router.Route holder (k.path site (poolCall k debt)) := fun holder hne => by
    rw [hpath]
    exact List.isChain_pair.mpr ⟨hlisted, hne⟩
  refine {
    data := rfl
    whitelisted := rfl
    ne := (by decide : (4 : Address) ≠ 1)
    base_ne_zero := (by decide : (1 : Address) ≠ 0)
    farming_ne_zero := (by decide : (4 : Address) ≠ 0)
    comm := rfl
    self_route := hroute _ (by decide : (6 : Address) ≠ 105)
    worker_route := hroute _ (by decide : (7 : Address) ≠ 105)
    user_route := hroute _ (by decide : (8 : Address) ≠ 105)
    self_ne_worker := (by decide : (6 : Address) ≠ 7)
    self_ne_user := (by decide : (6 : Address) ≠ 8)
    self_ne_relayer := (by decide : (6 : Address) ≠ 2)
    okCaller := fun _ => rfl
    accepts := fun _ => rfl
    documented := Worker.exchange_documented
    burn := fun m => exchange_burns m _ _
    fills := fun m amountOut amountInMax amounts hamounts hmax hle => ?_
    positive := hpositive }
  rw [hpath] at hamounts ⊢
  exact exchange_fills hamounts hmax hle

theorem cakeCall_ready (debt held : Nat) :
    Closing.cakeMaxi.Ready site (cakeCall debt) (cakeWorld held) :=
  poolCall_ready .cakeMaxi debt (cakeWorld held) fun _ hnone => by cases hnone

/-- Without a debt it reverts; and with 10 of a debt of 20 at hand it buys 20. -/
theorem cakeMaxi_ne_missing :
    (Closing.cakeMaxi.Ready site (cakeCall 0) (cakeWorld 0) ∧
      Closing.cakeMaxi.Coverable site (cakeCall 0) (cakeWorld 0) 0 ∧
      Closing.cakeMaxi.execute site (cakeCall 0) (cakeWorld 0) =
        .error "PancakeLibrary: INSUFFICIENT_OUTPUT_AMOUNT") ∧
    (Closing.cakeMaxi.Ready site (cakeCall 20) (cakeWorld 10) ∧
      Closing.cakeMaxi.Coverable site (cakeCall 20) (cakeWorld 10) 11 ∧
      Closing.cakeMaxi.missing site (cakeCall 20) (cakeWorld 10) = 10 ∧
      (Closing.cakeMaxi.execute site (cakeCall 20) (cakeWorld 10)).map
        (fun w' => w'.market.balanceOf 1 7) = .ok 30) := by
  refine ⟨⟨cakeCall_ready 0 0, ⟨by decide +kernel, by decide +kernel⟩,
    eq_error_of_failsWith (by decide +kernel)⟩,
    ⟨cakeCall_ready 20 10, ⟨by decide +kernel, by decide +kernel⟩, by decide +kernel,
      by decide +kernel⟩⟩

/-- All three kinds: 200 of a debt of 1200 are bought, 20 of the 420 of a debt of 450 that are to be
repaid, and the whole debt of 20; and without a debt the third one fails. -/
theorem closes_iff_cake :
    Closing.withdraw.Closes site (poolCall .withdraw 1200) poolWorld 206 ∧
    (Closing.partialClose 400 420).Closes site (poolCall (.partialClose 400 420) 450) poolWorld 21 ∧
    Closing.cakeMaxi.Closes site (cakeCall 20) (cakeWorld 0) 21 ∧
    ¬Closing.cakeMaxi.Closes site (cakeCall 0) (cakeWorld 0) 0 := by
  refine ⟨?_, ?_, ?_, ?_⟩
  · refine (closes_iff (poolCall_ready .withdraw 1200 poolWorld ?_)
      ⟨by decide +kernel, by decide +kernel⟩).mpr (by simp)
    intro liquidity hliquidity
    obtain rfl : 1000 = liquidity := Option.some.inj hliquidity
    decide +kernel
  · refine (closes_iff (poolCall_ready (.partialClose 400 420) 450 poolWorld ?_)
      ⟨by decide +kernel, by decide +kernel⟩).mpr (by simp)
    intro liquidity hliquidity
    obtain rfl : 400 = liquidity := Option.some.inj hliquidity
    decide +kernel
  · exact (closes_iff (cakeCall_ready 20 0) ⟨by decide +kernel, by decide +kernel⟩).mpr
      fun _ => ⟨by decide, by decide +kernel⟩
  · intro h
    have hdebt := (closes_iff (cakeCall_ready 0 0) ⟨by decide +kernel, by decide +kernel⟩).mp h rfl
    exact absurd hdebt.1 (Nat.lt_irrefl 0)

end Huski.Strategy
