import Huski.Pancake.Router

/-!
# Exact outputs and added liquidity

The rest of `PancakeLibraryV2.sol` and `PancakeRouterV2.sol` that the strategies use, and what a
trade leaves behind: of the accounts that are no pair only the recipient gets anything, of the last
token of the path, and only the sender pays, of the first one. `mint` of a pair is not part of the
repository, either; of it only this is relied upon, that the tokens stay where they are.
-/

open Solidity

namespace Huski.Pancake

/-- A transfer of LP tokens that succeeds. -/
def Market.moveLp (m : Market) (pair sender recipient : Address) (amount : Nat) : Market :=
  let p := m.pair pair
  let m := m.setPair pair
    { p with balanceOf := Function.update p.balanceOf sender (p.balanceOf sender - amount) }
  m.receiveLp pair recipient amount

/-- The pairs with their `mint`, which says how many LP tokens it gave out. -/
structure Router extends Exchange where
  mint : (pair recipient : Address) → Market → Result (Nat × Market)

namespace Exchange

open Factory

variable (x : Exchange) (m : Market)

/-! ## `PancakeLibraryV2` -/

/-- As much of the other token as the reserves say. -/
def quote (amountA reserveA reserveB : Nat) : Result Nat := do
  require (amountA > 0) "PancakeLibrary: INSUFFICIENT_AMOUNT"
  require (reserveA > 0 ∧ reserveB > 0) "PancakeLibrary: INSUFFICIENT_LIQUIDITY"
  let product ← SafeMath.mul amountA reserveB
  return product / reserveA

/-- A division by zero reverts without a message. -/
def getAmountIn (amountOut reserveIn reserveOut : Nat) : Result Nat := do
  require (amountOut > 0) "PancakeLibrary: INSUFFICIENT_OUTPUT_AMOUNT"
  require (reserveIn > 0 ∧ reserveOut > 0) "PancakeLibrary: INSUFFICIENT_LIQUIDITY"
  let product ← SafeMath.mul reserveIn amountOut
  let numerator ← SafeMath.mul product 10000
  let left ← SafeMath.sub reserveOut amountOut
  let denominator ← SafeMath.mul left 9975
  require (denominator ≠ 0) ""
  SafeMath.add (numerator / denominator) 1

/-- The loop of `getAmountsIn`, from the end of the path. -/
def amountsBack (amountOut : Nat) : List Address → Result (List Nat)
  | input :: output :: path => do
      let amounts ← amountsBack amountOut (output :: path)
      let (reserveIn, reserveOut) ← x.getReserves m input output
      let amountIn ← getAmountIn (amounts.headD 0) reserveIn reserveOut
      return amountIn :: amounts
  | _ => .ok [amountOut]

/-- What each pair of a path asks for, from the last one back. -/
def getAmountsIn (amountOut : Nat) (path : List Address) : Result (List Nat) := do
  require (path.length ≥ 2) "PancakeLibrary: INVALID_PATH"
  x.amountsBack m amountOut path

/-! ## `PancakeRouterV2` -/

/-- Ask for the input first, and swap along the path. -/
def swapTokensForExactTokens (sender : Address) (amountOut amountInMax : Nat)
    (path : List Address) (recipient : Address) : Result Market := do
  let amounts ← x.getAmountsIn m amountOut path
  require (amounts.headD 0 ≤ amountInMax) "PancakeRouter: EXCESSIVE_INPUT_AMOUNT"
  let m ← m.safeTransferFrom (path.headD 0) sender
    (x.getPair (path.headD 0) (path.tail.headD 0)) (amounts.headD 0)
  x._swap recipient amounts path m

end Exchange

namespace Router

open Exchange

variable (x : Router) (m : Market)

/-- Of a pair that exists. -/
def _addLiquidity (tokenA tokenB : Address)
    (amountADesired amountBDesired amountAMin amountBMin : Nat) : Result (Nat × Nat) := do
  let (reserveA, reserveB) ← x.getReserves m tokenA tokenB
  if reserveA = 0 ∧ reserveB = 0 then return (amountADesired, amountBDesired)
  else do
    let amountBOptimal ← quote amountADesired reserveA reserveB
    if amountBOptimal ≤ amountBDesired then do
      require (amountBOptimal ≥ amountBMin) "PancakeRouter: INSUFFICIENT_B_AMOUNT"
      return (amountADesired, amountBOptimal)
    else do
      let amountAOptimal ← quote amountBDesired reserveB reserveA
      require (amountAOptimal ≤ amountADesired) ""
      require (amountAOptimal ≥ amountAMin) "PancakeRouter: INSUFFICIENT_A_AMOUNT"
      return (amountAOptimal, amountBDesired)

/-- How many LP tokens there are for it, and the market after. -/
def addLiquidity (sender tokenA tokenB : Address)
    (amountADesired amountBDesired amountAMin amountBMin : Nat) (recipient : Address) :
    Result (Nat × Market) := do
  let (amountA, amountB) ←
    x._addLiquidity m tokenA tokenB amountADesired amountBDesired amountAMin amountBMin
  let pair := x.getPair tokenA tokenB
  let m ← m.safeTransferFrom tokenA sender pair amountA
  let m ← m.safeTransferFrom tokenB sender pair amountB
  x.mint pair recipient m

/-- What is relied upon of the pairs. -/
structure Documented : Prop where
  exchange : x.toExchange.Documented
  mint : ∀ {pair recipient m liquidity m'}, x.mint pair recipient m = .ok (liquidity, m') →
    m'.balanceOf = m.balanceOf

end Router

namespace Exchange

open Factory

variable {x : Exchange} {m m₁ m' : Market}

/-! ## The LP tokens stay where they are -/

section Lp

variable {pair recipient sender : Address}

/-- A pair that pays does not touch the ledgers of the LP tokens. -/
theorem pay_lp (amount0 amount1 : Nat) (p : Address) :
    ((x.pay m pair recipient amount0 amount1).pair p).balanceOf = (m.pair p).balanceOf := by
  simp only [pay, sync, Market.setPair]
  by_cases hp : p = pair
  · rw [hp, Function.update_self, move_pair, move_pair]
  · rw [Function.update_of_ne hp, move_pair, move_pair]

theorem _swap_lp (hx : x.Documented) {path : List Address} {amounts : List Nat}
    (h : x._swap recipient amounts path m = .ok m') (p : Address) :
    (m'.pair p).balanceOf = (m.pair p).balanceOf := by
  fun_induction x._swap recipient amounts path m with
  | case1 amountIn amountOut amounts input output path m ih =>
      simp only [bind_eq_ok] at h
      obtain ⟨_, _, m₁, hswap, hrest⟩ := h
      rw [ih m₁ hrest, hx.swap hswap, pay_lp]
  | case2 =>
      cases h
      rfl

theorem safeTransferFrom_lp {token : Address} {amount : Nat}
    (h : m.safeTransferFrom token sender recipient amount = .ok m') : m'.pair = m.pair := by
  simp only [Market.safeTransferFrom, bind_eq_ok, pure_eq_ok] at h
  obtain ⟨_, _, rfl⟩ := h
  rfl

theorem swapTokensForExactTokens_lp (hx : x.Documented) {amountOut amountInMax : Nat}
    {path : List Address}
    (h : x.swapTokensForExactTokens m sender amountOut amountInMax path recipient = .ok m')
    (p : Address) : (m'.pair p).balanceOf = (m.pair p).balanceOf := by
  simp only [swapTokensForExactTokens, bind_eq_ok] at h
  obtain ⟨_, _, _, _, m₁, hsend, hswap⟩ := h
  rw [_swap_lp hx hswap, safeTransferFrom_lp hsend]

end Lp

/-! ## Who pays and who is paid -/

section Trades

variable {sender recipient holder : Address}

/-- A pair that pays its output to an account gives it nothing else. -/
theorem pay_output_of_ne {a b token : Address} {amount0 amount1 : Nat} (hlisted : x.Listed a b)
    (hrecipient : recipient ≠ x.getPair a b) (htoken : token ≠ b)
    (hnone : x.side (x.getPair a b) a amount0 amount1 = 0) :
    (x.pay m (x.getPair a b) recipient amount0 amount1).balanceOf token recipient =
      m.balanceOf token recipient := by
  by_cases ha : token = a
  · rw [ha, pay_balanceOf_recipient hlisted hrecipient (.inl rfl), hnone, Nat.add_zero]
  · -- a third token
    have hthird : token ≠ x.token0 (x.getPair a b) ∧ token ≠ x.token1 (x.getPair a b) := by
      rcases hlisted.token_cases with ⟨h0, h1, _⟩ | ⟨h0, h1, _⟩
      · rw [h0, h1]
        exact ⟨ha, htoken⟩
      · rw [h0, h1]
        exact ⟨htoken, ha⟩
    simp only [pay, sync_balanceOf]
    rw [move_balanceOf_of_ne (.inl hthird.2), move_balanceOf_of_ne (.inl hthird.1)]

/-- The amounts with which the router calls a pair are on the side of the output. -/
theorem side_input {a b token0 token1 : Address} {out : Nat} (hlisted : x.Listed a b)
    (hsort : sortTokens a b = .ok (token0, token1)) :
    x.side (x.getPair a b) a (if a = token0 then ((0 : Nat), out) else (out, 0)).1
      (if a = token0 then ((0 : Nat), out) else (out, 0)).2 = 0 := by
  have hne := hlisted.ne
  rcases hlisted.token_cases with ⟨h0, _, hlt⟩ | ⟨h0, _, hlt⟩
  · rcases sortTokens_eq_ok hsort with ⟨_, rfl, _⟩ | ⟨hnot, _⟩
    · simp [side, h0]
    · exact absurd hlt hnot
  · rcases sortTokens_eq_ok hsort with ⟨hlt', _⟩ | ⟨_, rfl, _⟩
    · exact absurd hlt' hlt.not_gt
    · simp [side, h0, hne, hne.symm]

/-- An account that is none of the pairs on the path keeps what it has, except that the recipient
gets the last token. -/
theorem _swap_balanceOf_of_ne (hx : x.Documented) {path : List Address} {token : Address}
    {amounts : List Nat} (hroute : x.Route holder path)
    (hne : holder ≠ recipient ∨ path.getLast? ≠ some token)
    (h : x._swap recipient amounts path m = .ok m') :
    m'.balanceOf token holder = m.balanceOf token holder := by
  fun_induction x._swap recipient amounts path m with
  | case1 amountIn amountOut amounts input output path m ih =>
      obtain ⟨⟨hlisted, hpair⟩, htail⟩ := List.isChain_cons_cons.mp hroute
      simp only [bind_eq_ok] at h
      obtain ⟨⟨token0, token1⟩, hsort, m₁, hswap, hrest⟩ := h
      rw [ih m₁ htail (hne.imp_right fun hlast => by rwa [List.getLast?_cons_cons] at hlast) hrest,
        hx.swap hswap]
      cases path with
      | nil =>
          -- the last pair pays the recipient, in the last token only
          by_cases hholder : holder = recipient
          · have htoken := hne.resolve_left (not_not_intro hholder)
            rw [← hholder]
            refine pay_output_of_ne hlisted hpair (fun heq => htoken ?_) (side_input hlisted hsort)
            rw [heq]
            rfl
          · exact pay_balanceOf_of_ne hpair hholder
      | cons next path =>
          -- an inner pair pays the next pair, which is not the holder
          exact pay_balanceOf_of_ne hpair (List.isChain_cons_cons.mp htail).1.2
  | case2 =>
      cases h
      rfl

/-- What a trade of `sender` along a path leaves behind. -/
structure Traded (x : Exchange) (m m' : Market) (sender : Address) (path : List Address)
    (input last : Address) (paid got : Nat) : Prop where
  paid_le : paid ≤ m.balanceOf input sender
  input : m'.balanceOf input sender = m.balanceOf input sender - paid
  last : m'.balanceOf last sender = m.balanceOf last sender + got
  frame : ∀ {holder}, holder ≠ sender → x.Route holder path → ∀ token,
    m'.balanceOf token holder = m.balanceOf token holder
  lp : ∀ pair, (m'.pair pair).balanceOf = (m.pair pair).balanceOf

theorem amountsBack_eq_ok {path : List Address} {amountOut : Nat} {input : Address}
    {amounts : List Nat} (h : x.amountsBack m amountOut (input :: path) = .ok amounts) :
    amounts.length = path.length + 1 ∧ amounts.getLast? = some amountOut := by
  induction path generalizing input amounts with
  | nil =>
      cases h
      exact ⟨rfl, rfl⟩
  | cons output path ih =>
      simp only [amountsBack, bind_eq_ok, pure_eq_ok] at h
      obtain ⟨rest, hrest, _, _, amountIn, _, rfl⟩ := h
      obtain ⟨hlength, hlast⟩ := ih hrest
      refine ⟨by rw [List.length_cons, List.length_cons, hlength], ?_⟩
      cases rest with
      | nil => cases hlength
      | cons amount rest => rw [List.getLast?_cons_cons, hlast]

variable {input output : Address} {path : List Address} {amountIn : Nat} {amounts : List Nat}

/-- The payment to the first pair, and the swap along the path. -/
theorem traded_of_swap (hx : x.Documented) (hroute : x.Route sender (input :: output :: path))
    (hinput : path.getLastD output ≠ input) (hlength : amounts.length = path.length + 1)
    (hsend : m.safeTransferFrom input sender (x.getPair input output) amountIn = .ok m₁)
    (hswap : x._swap sender (amountIn :: amounts) (input :: output :: path) m₁ = .ok m') :
    x.Traded m m' sender (input :: output :: path) input (path.getLastD output) amountIn
      (amounts.getLastD 0) := by
  have hpair : sender ≠ x.getPair input output := (List.isChain_cons_cons.mp hroute).1.2
  simp only [Market.safeTransferFrom, bind_eq_ok, require_eq_ok, pure_eq_ok] at hsend
  obtain ⟨_, hle, rfl⟩ := hsend
  have hlast : (input :: output :: path).getLast? = some (path.getLastD output) := by
    rw [List.getLast?_cons_cons, List.getLast?_cons, List.getLastD_eq_getLast?]
  refine ⟨hle, ?_, ?_, ?_, ?_⟩
  · rw [_swap_balanceOf_of_ne hx hroute (.inr fun heq => hinput ?_) hswap,
      move_balanceOf_sender hpair]
    exact Option.some.inj (hlast.symm.trans heq)
  · cases amounts with
    | nil => cases hlength
    | cons amountOut rest =>
        rw [_swap_balanceOf hx hroute (Nat.succ.inj hlength) hswap,
          move_balanceOf_of_ne (.inl hinput), List.getLastD_cons]
  · intro holder hne hholder token
    rw [_swap_balanceOf_of_ne hx hholder (.inl hne) hswap]
    exact move_balanceOf_of_ne (.inr ⟨hne, (List.isChain_cons_cons.mp hholder).1.2⟩)
  · intro pair
    rw [_swap_lp hx hswap, move_pair]

theorem swapExactTokensForTokens_traded (hx : x.Documented)
    (hroute : x.Route sender (input :: output :: path)) (hinput : path.getLastD output ≠ input)
    {amountOutMin : Nat}
    (h : x.swapExactTokensForTokens m sender amountIn amountOutMin (input :: output :: path)
      sender = .ok m') :
    ∃ got, x.Traded m m' sender (input :: output :: path) input (path.getLastD output)
      amountIn got := by
  simp only [swapExactTokensForTokens, getAmountsOut, bind_eq_ok] at h
  obtain ⟨amounts, ⟨_, _, hamounts⟩, _, _, m₁, hsend, hswap⟩ := h
  obtain ⟨rest, rfl, hlength⟩ := amountsAlong_eq_ok hamounts
  exact ⟨_, traded_of_swap hx hroute hinput (by simpa using hlength) hsend hswap⟩

theorem swapTokensForExactTokens_traded (hx : x.Documented)
    (hroute : x.Route sender (input :: output :: path)) (hinput : path.getLastD output ≠ input)
    {amountOut amountInMax : Nat}
    (h : x.swapTokensForExactTokens m sender amountOut amountInMax (input :: output :: path)
      sender = .ok m') :
    ∃ amounts, x.getAmountsIn m amountOut (input :: output :: path) = .ok amounts ∧
      x.Traded m m' sender (input :: output :: path) input (path.getLastD output)
        (amounts.headD 0) amountOut := by
  simp only [swapTokensForExactTokens, bind_eq_ok] at h
  obtain ⟨amounts, hamounts, _, _, m₁, hsend, hswap⟩ := h
  refine ⟨amounts, hamounts, ?_⟩
  simp only [getAmountsIn, bind_eq_ok] at hamounts
  obtain ⟨_, _, hback⟩ := hamounts
  obtain ⟨hlength, hlast⟩ := amountsBack_eq_ok hback
  cases amounts with
  | nil => cases hlength
  | cons amountIn rest =>
      have htraded := traded_of_swap hx hroute hinput (by simpa using hlength) hsend hswap
      cases rest with
      | nil => simp at hlength
      | cons amount rest =>
          rw [List.getLast?_cons_cons, List.getLast?_cons, ← List.getLastD_eq_getLast?] at hlast
          have hgot : (amount :: rest).getLastD 0 = amountOut := by
            rw [List.getLastD_cons]
            exact Option.some.inj hlast
          exact hgot ▸ htraded

/-! ### One trade with a pool -/

section Sold

variable {a b : Address} {sold : Nat}

/-- What a sale of `sold` of token `a` to its pool with `b` leaves behind. -/
structure Sold (x : Exchange) (m m' : Market) (sender a b : Address) (sold : Nat) : Prop where
  paid_le : sold ≤ m.balanceOf a sender
  input : m'.balanceOf a sender = m.balanceOf a sender - sold
  output : m'.balanceOf b sender = m.balanceOf b sender +
    sale sold (x.reserveOf m (x.getPair a b) a) (x.reserveOf m (x.getPair a b) b)
  reserveIn : x.reserveOf m' (x.getPair a b) a = x.reserveOf m (x.getPair a b) a + sold
  reserveOut : x.reserveOf m' (x.getPair a b) b = x.reserveOf m (x.getPair a b) b -
    sale sold (x.reserveOf m (x.getPair a b) a) (x.reserveOf m (x.getPair a b) b)

/-- Nothing sold leaves everything as it is. -/
theorem Sold.nothing : x.Sold m m sender a b 0 := by
  have hnone : sale 0 (x.reserveOf m (x.getPair a b) a) (x.reserveOf m (x.getPair a b) b) = 0 := by
    simp [sale]
  refine ⟨Nat.zero_le _, rfl, ?_, rfl, ?_⟩
  · rw [hnone, Nat.add_zero]
  · rw [hnone, Nat.sub_zero]

/-- The amounts with which the router calls a pair, on the side of the output. -/
theorem side_output {token0 token1 : Address} {out : Nat} (hlisted : x.Listed a b)
    (hsort : sortTokens a b = .ok (token0, token1)) :
    x.side (x.getPair a b) b (if a = token0 then ((0 : Nat), out) else (out, 0)).1
      (if a = token0 then ((0 : Nat), out) else (out, 0)).2 = out := by
  have hne := hlisted.ne
  rcases hlisted.token_cases with ⟨h0, _, hlt⟩ | ⟨h0, _, hlt⟩
  · rcases sortTokens_eq_ok hsort with ⟨_, rfl, _⟩ | ⟨hnot, _⟩
    · simp [side, h0, hne]
    · exact absurd hlt hnot
  · rcases sortTokens_eq_ok hsort with ⟨hlt', _⟩ | ⟨_, rfl, _⟩
    · exact absurd hlt' hlt.not_gt
    · simp [side, h0, hne]

theorem swapExactTokensForTokens_sold (hx : x.Documented) (hpool : x.Pool m a b)
    (hsender : sender ≠ x.getPair a b) {amountOutMin : Nat}
    (h : x.swapExactTokensForTokens m sender sold amountOutMin [a, b] sender = .ok m') :
    x.Sold m m' sender a b sold := by
  have hlisted := hpool.toListed
  have hne := hlisted.ne
  simp only [swapExactTokensForTokens, getAmountsOut, amountsAlong, Market.safeTransferFrom,
    bind_eq_ok, require_eq_ok, pure_eq_ok] at h
  obtain ⟨_, ⟨_, _, ⟨rIn, rOut⟩, hreserves, out, hout, _, htail, rfl⟩, _, _, _, ⟨_, hle, rfl⟩,
    hswap⟩ := h
  cases htail
  obtain ⟨rfl, rfl⟩ := getReserves_eq_ok hlisted hreserves
  obtain ⟨_, rfl⟩ := getAmountOut_eq_ok hout
  simp only [_swap, bind_eq_ok] at hswap
  obtain ⟨⟨token0, token1⟩, hsort, m₁, hpaid, hdone⟩ := hswap
  cases hdone
  rw [hx.swap hpaid]
  have hin := hpool.balanceOf_eq (.inl rfl)
  have hkept : ∀ holder, (m.move a sender (x.getPair a b) sold).balanceOf b holder =
      m.balanceOf b holder := fun _ => move_balanceOf_of_ne (.inl hne.symm)
  have hrest := (hkept _).trans (hpool.balanceOf_eq (.inr rfl))
  -- the pair pays of the output only
  refine ⟨hle, ?_, ?_, ?_, ?_⟩
  · rw [pay_balanceOf_recipient hlisted hsender (.inl rfl), side_input hlisted hsort, Nat.add_zero]
    exact move_balanceOf_sender hsender
  · rw [pay_balanceOf_recipient hlisted hsender (.inr rfl), side_output hlisted hsort]
    exact congrArg (· + _) (hkept sender)
  · rw [pay_reserveOf hlisted hsender (.inl rfl), side_input hlisted hsort, Nat.sub_zero]
    exact (move_balanceOf_recipient hsender.symm).trans (congrArg (· + sold) hin)
  · rw [pay_reserveOf hlisted hsender (.inr rfl), side_output hlisted hsort]
    exact congrArg (· - _) hrest

end Sold

end Trades

/-! ## Liquidity -/

section Liquidity

variable {a b sender : Address}

/-- What a removal of liquidity leaves behind besides its payment. -/
structure Removed (x : Exchange) (m m' : Market) (sender pair : Address) (liquidity : Nat) :
    Prop where
  lp_le : liquidity ≤ (m.pair pair).balanceOf sender
  lp : (m'.pair pair).balanceOf sender = (m.pair pair).balanceOf sender - liquidity
  frame : ∀ {holder}, holder ≠ sender → holder ≠ pair → ∀ token,
    m'.balanceOf token holder = m.balanceOf token holder

theorem removeLiquidity_removed (hx : x.Documented) (hsender : sender ≠ x.getPair a b)
    {liquidity : Nat} (h : x.removeLiquidity m sender a b liquidity 0 0 sender = .ok m') :
    x.Removed m m' sender (x.getPair a b) liquidity := by
  simp only [removeLiquidity, bind_eq_ok, pure_eq_ok] at h
  obtain ⟨m₁, hsend, ⟨amounts, m₂⟩, hburn, _, _, _, _, _, _, rfl⟩ := h
  obtain ⟨_, rfl⟩ := hx.burn hburn
  simp only [Market.transferLp, bind_eq_ok, SafeMath.subOr_eq_ok, pure_eq_ok] at hsend
  obtain ⟨_, ⟨hle, rfl⟩, rfl⟩ := hsend
  refine ⟨hle, ?_, ?_⟩
  · simp only [burned]
    rw [pay_lp]
    simp [Market.receiveLp, Market.setPair, hsender]
  · intro holder hne hpair token
    simp only [burned]
    rw [pay_balanceOf_of_ne hpair hne]
    rfl

theorem sortTokens_isOk (hne : a ≠ b) (ha : a ≠ 0) (hb : b ≠ 0) :
    ∃ tokens, sortTokens a b = .ok tokens := by
  unfold sortTokens
  by_cases hlt : a < b
  · exact ⟨_, bind_eq_ok.mpr ⟨(), require_eq_ok.mpr hne, by
      rw [if_pos hlt]; exact bind_eq_ok.mpr ⟨(), require_eq_ok.mpr ha, rfl⟩⟩⟩
  · exact ⟨_, bind_eq_ok.mpr ⟨(), require_eq_ok.mpr hne, by
      rw [if_neg hlt]; exact bind_eq_ok.mpr ⟨(), require_eq_ok.mpr hb, rfl⟩⟩⟩

/-- A removal succeeds if the burn does. -/
theorem removeLiquidity_isOk (hx : x.Documented) (hne : a ≠ b) (ha : a ≠ 0) (hb : b ≠ 0)
    {liquidity : Nat} (hle : liquidity ≤ (m.pair (x.getPair a b)).balanceOf sender)
    (hburn : ∃ r, x.burn (x.getPair a b) sender
      (m.moveLp (x.getPair a b) sender (x.getPair a b) liquidity) = .ok r) :
    x.removeLiquidity m sender a b liquidity 0 0 sender = .ok
      (x.burned (m.moveLp (x.getPair a b) sender (x.getPair a b) liquidity) (x.getPair a b)
        sender) := by
  obtain ⟨⟨amounts, m₂⟩, hburn⟩ := hburn
  obtain ⟨⟨token0, token1⟩, hsort⟩ := sortTokens_isOk hne ha hb
  obtain ⟨rfl, rfl⟩ := hx.burn hburn
  refine bind_eq_ok.mpr ⟨_, bind_eq_ok.mpr ⟨_, SafeMath.subOr_eq_ok.mpr ⟨hle, rfl⟩, rfl⟩, ?_⟩
  refine bind_eq_ok.mpr ⟨_, hburn, bind_eq_ok.mpr ⟨_, hsort, ?_⟩⟩
  refine bind_eq_ok.mpr ⟨(), require_eq_ok.mpr (Nat.zero_le _), ?_⟩
  exact bind_eq_ok.mpr ⟨(), require_eq_ok.mpr (Nat.zero_le _), rfl⟩

end Liquidity

end Exchange

namespace Router

open Exchange

variable {x : Router} {m m' : Market} {a b sender recipient : Address}

/-- Of one of the two tokens the router takes all that is offered. -/
theorem _addLiquidity_eq_ok {offeredA offeredB amountA amountB : Nat}
    (h : x._addLiquidity m a b offeredA offeredB 0 0 = .ok (amountA, amountB)) :
    amountA = offeredA ∨ amountB = offeredB := by
  simp only [_addLiquidity, bind_eq_ok] at h
  obtain ⟨⟨reserveA, reserveB⟩, _, h⟩ := h
  dsimp only at h
  split at h
  · simp only [pure_eq_ok, Prod.mk.injEq] at h
    exact .inl h.1.symm
  · simp only [bind_eq_ok] at h
    obtain ⟨amountBOptimal, _, h⟩ := h
    split at h
    · simp only [bind_eq_ok, pure_eq_ok, Prod.mk.injEq] at h
      obtain ⟨_, _, rfl, _⟩ := h
      exact .inl rfl
    · simp only [bind_eq_ok, pure_eq_ok, Prod.mk.injEq] at h
      obtain ⟨_, _, _, _, _, _, _, rfl⟩ := h
      exact .inr rfl

/-- What the router leaves of two offers to a pool: it takes the one whole, and of the other what
the ratio of the reserves asks for. -/
def leftOf (offeredA offeredB reserveA reserveB : Nat) : Nat × Nat :=
  if offeredA * reserveB / reserveA ≤ offeredB then (0, offeredB - offeredA * reserveB / reserveA)
  else (offeredA - offeredB * reserveA / reserveB, 0)

theorem _addLiquidity_left {offeredA offeredB amountA amountB : Nat} (hlisted : x.Listed a b)
    (hpos : x.reserveOf m (x.getPair a b) a ≠ 0)
    (h : x._addLiquidity m a b offeredA offeredB 0 0 = .ok (amountA, amountB)) :
    (offeredA - amountA, offeredB - amountB) = leftOf offeredA offeredB
      (x.reserveOf m (x.getPair a b) a) (x.reserveOf m (x.getPair a b) b) := by
  simp only [_addLiquidity, bind_eq_ok] at h
  obtain ⟨⟨reserveA, reserveB⟩, hreserves, h⟩ := h
  obtain ⟨rfl, rfl⟩ := getReserves_eq_ok hlisted hreserves
  rw [if_neg (fun hzero => hpos hzero.1)] at h
  simp only [quote, bind_eq_ok, SafeMath.mul_eq_ok, pure_eq_ok] at h
  obtain ⟨_, ⟨_, _, _, _, _, ⟨_, rfl⟩, rfl⟩, h⟩ := h
  unfold leftOf
  split at h
  · rename_i hfits
    simp only [bind_eq_ok, pure_eq_ok, Prod.mk.injEq] at h
    obtain ⟨_, _, rfl, rfl⟩ := h
    rw [if_pos hfits, Nat.sub_self]
  · rename_i hexceeds
    simp only [bind_eq_ok, SafeMath.mul_eq_ok, pure_eq_ok, Prod.mk.injEq] at h
    obtain ⟨_, ⟨_, _, _, _, _, ⟨_, rfl⟩, rfl⟩, _, _, _, _, rfl, rfl⟩ := h
    rw [if_neg hexceeds, Nat.sub_self]

/-- What whoever offers all it has keeps. -/
theorem addLiquidity_leftOf (hx : x.Documented) (hlisted : x.Listed a b)
    (hsender : sender ≠ x.getPair a b) (hpos : x.reserveOf m (x.getPair a b) a ≠ 0)
    {liquidity : Nat} (h : x.addLiquidity m sender a b (m.balanceOf a sender)
      (m.balanceOf b sender) 0 0 recipient = .ok (liquidity, m')) :
    (m'.balanceOf a sender, m'.balanceOf b sender) =
      leftOf (m.balanceOf a sender) (m.balanceOf b sender)
        (x.reserveOf m (x.getPair a b) a) (x.reserveOf m (x.getPair a b) b) := by
  have hne := hlisted.ne
  simp only [addLiquidity, Market.safeTransferFrom, bind_eq_ok, pure_eq_ok] at h
  obtain ⟨⟨amountA, amountB⟩, hamounts, _, ⟨_, _, rfl⟩, _, ⟨_, _, rfl⟩, hmint⟩ := h
  rw [hx.mint hmint, ← _addLiquidity_left hlisted hpos hamounts]
  rw [move_balanceOf_of_ne (.inl hne), move_balanceOf_sender hsender, move_balanceOf_sender hsender,
    move_balanceOf_of_ne (.inl hne.symm)]

/-- Whoever offers all it has keeps none of one of the two tokens. -/
theorem addLiquidity_left (hx : x.Documented) (hne : a ≠ b) (hsender : sender ≠ x.getPair a b)
    {liquidity : Nat} (h : x.addLiquidity m sender a b (m.balanceOf a sender)
      (m.balanceOf b sender) 0 0 recipient = .ok (liquidity, m')) :
    m'.balanceOf a sender = 0 ∨ m'.balanceOf b sender = 0 := by
  simp only [addLiquidity, Market.safeTransferFrom, bind_eq_ok, pure_eq_ok] at h
  obtain ⟨⟨amountA, amountB⟩, hamounts, _, ⟨_, _, rfl⟩, _, ⟨_, _, rfl⟩, hmint⟩ := h
  rw [hx.mint hmint]
  dsimp only
  rcases _addLiquidity_eq_ok hamounts with rfl | rfl
  · refine .inl ?_
    rw [move_balanceOf_of_ne (.inl hne), move_balanceOf_sender hsender, Nat.sub_self]
  · refine .inr ?_
    rw [move_balanceOf_sender hsender, move_balanceOf_of_ne (.inl hne.symm), Nat.sub_self]

end Router

end Huski.Pancake
