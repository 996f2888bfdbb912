import Huski.Lib.Checked

/-!
# The exchange

`PancakeLibraryV2.sol` and `PancakeRouterV2.sol`, over the pairs and the factory that they call.
These are not part of the repository: which pairs there are, and when a burn or a swap succeeds, is
an `Exchange`, of which only this is relied upon (`Exchange.Documented`): a burn that succeeds pays
the liquidity's share of each reserve, a swap that succeeds pays what was asked for, and the
reserves are then the balances. The approvals around the calls are unlimited and decide nothing.
-/

open Solidity

namespace Huski.Pancake

/-- A pair: its reserves, and the ledger of its LP token. -/
structure Pair where
  reserve0 : Nat
  reserve1 : Nat
  totalSupply : Nat
  balanceOf : Address → Nat

/-- The pairs, and who holds what of the other tokens. -/
structure Market where
  pair : Address → Pair
  balanceOf : (token holder : Address) → Nat

namespace Market

variable (m : Market)

/-- One pair is written. -/
def setPair (pair : Address) (p : Pair) : Market :=
  { m with pair := Function.update m.pair pair p }

/-- One balance is written. -/
def setBalance (token holder : Address) (amount : Nat) : Market :=
  { m with
    balanceOf := fun t h => if t = token ∧ h = holder then amount else m.balanceOf t h }

/-- A transfer that succeeds. -/
def move (token sender recipient : Address) (amount : Nat) : Market :=
  let m := m.setBalance token sender (m.balanceOf token sender - amount)
  m.setBalance token recipient (m.balanceOf token recipient + amount)

def safeTransferFrom (token sender recipient : Address) (amount : Nat) : Result Market := do
  require (amount ≤ m.balanceOf token sender) "!safeTransferFrom"
  return m.move token sender recipient amount

/-- LP tokens arrive. -/
def receiveLp (pair holder : Address) (amount : Nat) : Market :=
  let p := m.pair pair
  m.setPair pair
    { p with balanceOf := Function.update p.balanceOf holder (p.balanceOf holder + amount) }

/-- `transferFrom` of the LP token -/
def transferLp (pair sender recipient : Address) (amount : Nat) : Result Market := do
  let left ← SafeMath.subOr ((m.pair pair).balanceOf sender) amount "ds-math-sub-underflow"
  let p := m.pair pair
  let m := m.setPair pair { p with balanceOf := Function.update p.balanceOf sender left }
  return m.receiveLp pair recipient amount

end Market

/-- The pairs there are. -/
structure Factory where
  WETH : Address
  getPair : Address → Address → Address
  token0 : Address → Address
  token1 : Address → Address

namespace Factory

variable (x : Factory) (m : Market)

/-- The reserves become the balances. -/
def sync (pair : Address) : Market :=
  m.setPair pair { m.pair pair with
    reserve0 := m.balanceOf (x.token0 pair) pair
    reserve1 := m.balanceOf (x.token1 pair) pair }

/-- Pay out of a pair. -/
def pay (pair recipient : Address) (amount0 amount1 : Nat) : Market :=
  x.sync ((m.move (x.token0 pair) pair recipient amount0).move (x.token1 pair) pair recipient
    amount1) pair

/-- What the pair's LP tokens at the pair itself are worth. -/
def burnAmounts (pair : Address) : Nat × Nat :=
  let p := m.pair pair
  (p.balanceOf pair * p.reserve0 / p.totalSupply, p.balanceOf pair * p.reserve1 / p.totalSupply)

/-- The market after a burn that succeeds. -/
def burned (pair recipient : Address) : Market :=
  let p := m.pair pair
  let amounts := burnAmounts m pair
  x.pay (m.setPair pair { p with
    totalSupply := p.totalSupply - p.balanceOf pair
    balanceOf := Function.update p.balanceOf pair 0 }) pair recipient amounts.1 amounts.2

end Factory

/-- The factory and the code of its pairs. -/
structure Exchange extends Factory where
  burn : (pair recipient : Address) → Market → Result ((Nat × Nat) × Market)
  swap : (pair : Address) → (amount0Out amount1Out : Nat) → (recipient : Address) → Market →
    Result Market

namespace Exchange

open Factory

variable (x : Exchange) (m : Market)

/-- What is relied upon of the pairs. -/
structure Documented : Prop where
  burn : ∀ {pair recipient m amounts m'}, x.burn pair recipient m = .ok (amounts, m') →
    amounts = burnAmounts m pair ∧ m' = x.burned m pair recipient
  swap : ∀ {pair amount0Out amount1Out recipient m m'},
    x.swap pair amount0Out amount1Out recipient m = .ok m' →
    m' = x.pay m pair recipient amount0Out amount1Out

/-! ## `PancakeLibraryV2` -/

/-- The pair's tokens in order. -/
def sortTokens (tokenA tokenB : Address) : Result (Address × Address) := do
  require (tokenA ≠ tokenB) "PancakeLibrary: IDENTICAL_ADDRESSES"
  let (token0, token1) := if tokenA < tokenB then (tokenA, tokenB) else (tokenB, tokenA)
  require (token0 ≠ 0) "PancakeLibrary: ZERO_ADDRESS"
  return (token0, token1)

/-- The reserves, in the order of the arguments. -/
def getReserves (tokenA tokenB : Address) : Result (Nat × Nat) := do
  let (token0, _) ← sortTokens tokenA tokenB
  let p := m.pair (x.getPair tokenA tokenB)
  return if tokenA = token0 then (p.reserve0, p.reserve1) else (p.reserve1, p.reserve0)

/-- What a pair pays for an input, after its fee. -/
def getAmountOut (amountIn reserveIn reserveOut : Nat) : Result Nat := do
  require (amountIn > 0) "PancakeLibrary: INSUFFICIENT_INPUT_AMOUNT"
  require (reserveIn > 0 ∧ reserveOut > 0) "PancakeLibrary: INSUFFICIENT_LIQUIDITY"
  let amountInWithFee ← SafeMath.mul amountIn 9975
  let numerator ← SafeMath.mul amountInWithFee reserveOut
  let product ← SafeMath.mul reserveIn 10000
  let denominator ← SafeMath.add product amountInWithFee
  return numerator / denominator

/-- What a pair pays for an input. -/
def sale (amountIn reserveIn reserveOut : Nat) : Nat :=
  amountIn * 9975 * reserveOut / (reserveIn * 10000 + amountIn * 9975)

/-- The loop of `getAmountsOut`. -/
def amountsAlong : Nat → List Address → Result (List Nat)
  | amount, input :: output :: path => do
      let (reserveIn, reserveOut) ← x.getReserves m input output
      let out ← getAmountOut amount reserveIn reserveOut
      let amounts ← amountsAlong out (output :: path)
      return amount :: amounts
  | amount, _ => .ok [amount]

/-- What the pairs of a path pay, one after the other. -/
def getAmountsOut (amountIn : Nat) (path : List Address) : Result (List Nat) := do
  require (path.length ≥ 2) "PancakeLibrary: INVALID_PATH"
  x.amountsAlong m amountIn path

/-! ## `PancakeRouterV2` -/

/-- Burn LP tokens for both reserves' parts. -/
def removeLiquidity (sender tokenA tokenB : Address) (liquidity amountAMin amountBMin : Nat)
    (recipient : Address) : Result Market := do
  let pair := x.getPair tokenA tokenB
  let m ← m.transferLp pair sender pair liquidity
  let ((amount0, amount1), m) ← x.burn pair recipient m
  let (token0, _) ← sortTokens tokenA tokenB
  let (amountA, amountB) := if tokenA = token0 then (amount0, amount1) else (amount1, amount0)
  require (amountA ≥ amountAMin) "PancakeRouter: INSUFFICIENT_A_AMOUNT"
  require (amountB ≥ amountBMin) "PancakeRouter: INSUFFICIENT_B_AMOUNT"
  return m

/-- Each pair pays the next one, and the last one `recipient`. -/
def _swap (recipient : Address) : List Nat → List Address → Market → Result Market
  | _ :: amountOut :: amounts, input :: output :: path, m => do
      let (token0, _) ← sortTokens input output
      let (amount0Out, amount1Out) := if input = token0 then (0, amountOut) else (amountOut, 0)
      let next := match path with
        | [] => recipient
        | token :: _ => x.getPair output token
      let m ← x.swap (x.getPair input output) amount0Out amount1Out next m
      _swap recipient (amountOut :: amounts) (output :: path) m
  | _, _, m => .ok m

/-- Send the input to the first pair, and swap along the path. -/
def swapExactTokensForTokens (sender : Address) (amountIn amountOutMin : Nat)
    (path : List Address) (recipient : Address) : Result Market := do
  let amounts ← x.getAmountsOut m amountIn path
  require (amounts.getLastD 0 ≥ amountOutMin) "PancakeRouter: INSUFFICIENT_OUTPUT_AMOUNT"
  let m ← m.safeTransferFrom (path.headD 0) sender
    (x.getPair (path.headD 0) (path.tail.headD 0)) (amounts.headD 0)
  x._swap recipient amounts path m

/-! ## What a call leaves behind -/

variable {x m}

section Balances

variable {m' : Market} {token holder sender recipient pair : Address} {amount : Nat}

@[simp] theorem setPair_balanceOf (p : Pair) : (m.setPair pair p).balanceOf = m.balanceOf := rfl

@[simp] theorem receiveLp_balanceOf : (m.receiveLp pair holder amount).balanceOf = m.balanceOf :=
  rfl

@[simp] theorem sync_balanceOf : (x.sync m pair).balanceOf = m.balanceOf := rfl

@[simp] theorem setBalance_balanceOf (t h : Address) :
    (m.setBalance token holder amount).balanceOf t h =
      if t = token ∧ h = holder then amount else m.balanceOf t h := rfl

@[simp] theorem setBalance_pair : (m.setBalance token holder amount).pair = m.pair := rfl

@[simp] theorem move_pair : (m.move token sender recipient amount).pair = m.pair := rfl

/-- A transfer moves one token between two holders. -/
theorem move_balanceOf_of_ne {t h : Address} (hne : t ≠ token ∨ (h ≠ sender ∧ h ≠ recipient)) :
    (m.move token sender recipient amount).balanceOf t h = m.balanceOf t h := by
  simp only [Market.move, setBalance_balanceOf]
  rcases hne with hne | ⟨hsender, hrecipient⟩
  · simp [hne]
  · simp [hsender, hrecipient]

theorem move_balanceOf_recipient (hne : recipient ≠ sender) :
    (m.move token sender recipient amount).balanceOf token recipient =
      m.balanceOf token recipient + amount := by
  simp [Market.move, hne]

theorem move_balanceOf_sender (hne : sender ≠ recipient) :
    (m.move token sender recipient amount).balanceOf token sender =
      m.balanceOf token sender - amount := by
  simp [Market.move, hne]

/-- Somebody else's balances stay as they are when a pair pays. -/
theorem pay_balanceOf_of_ne {amount0 amount1 : Nat} {t h : Address} (hpair : h ≠ pair)
    (hrecipient : h ≠ recipient) :
    (x.pay m pair recipient amount0 amount1).balanceOf t h = m.balanceOf t h := by
  simp only [pay, sync_balanceOf]
  rw [move_balanceOf_of_ne (.inr ⟨hpair, hrecipient⟩),
    move_balanceOf_of_ne (.inr ⟨hpair, hrecipient⟩)]

end Balances

/-- The pair of two tokens, with its tokens in order. -/
structure Listed (x : Exchange) (a b : Address) : Prop where
  ne : a ≠ b
  comm : x.getPair a b = x.getPair b a
  token0 : x.token0 (x.getPair a b) = min a b
  token1 : x.token1 (x.getPair a b) = max a b

/-- What is paid, respectively held, of one of the two tokens of a pair. -/
def side (x : Exchange) (pair token : Address) (amount0 amount1 : Nat) : Nat :=
  if x.token0 pair = token then amount0 else amount1

/-- The reserve of one of the pair's tokens. -/
def reserveOf (x : Exchange) (m : Market) (pair token : Address) : Nat :=
  x.side pair token (m.pair pair).reserve0 (m.pair pair).reserve1

/-- What `liquidity` is of the reserve of one of the tokens. -/
def part (x : Exchange) (m : Market) (pair : Address) (liquidity : Nat) (token : Address) : Nat :=
  liquidity * x.reserveOf m pair token / (m.pair pair).totalSupply

variable {a b : Address}

namespace Listed

/-- A pair is listed in both orders. -/
theorem symm (h : x.Listed a b) : x.Listed b a :=
  ⟨h.ne.symm, h.comm.symm, h.comm ▸ h.token0.trans (min_comm a b),
    h.comm ▸ h.token1.trans (max_comm a b)⟩

/-- A token of the pair is the one or the other. -/
theorem token_cases (h : x.Listed a b) :
    (x.token0 (x.getPair a b) = a ∧ x.token1 (x.getPair a b) = b ∧ a < b) ∨
    (x.token0 (x.getPair a b) = b ∧ x.token1 (x.getPair a b) = a ∧ b < a) := by
  rw [h.token0, h.token1]
  rcases lt_or_gt_of_ne h.ne with hlt | hlt
  · exact .inl ⟨min_eq_left hlt.le, max_eq_right hlt.le, hlt⟩
  · exact .inr ⟨min_eq_right hlt.le, max_eq_left hlt.le, hlt⟩

theorem token0_ne_token1 (h : x.Listed a b) :
    x.token0 (x.getPair a b) ≠ x.token1 (x.getPair a b) := by
  rcases h.token_cases with ⟨h0, h1, _⟩ | ⟨h0, h1, _⟩
  · rw [h0, h1]
    exact h.ne
  · rw [h0, h1]
    exact h.ne.symm

/-- What is not the first token of the pair is the second. -/
theorem token1_eq (h : x.Listed a b) {t : Address} (ht : t = a ∨ t = b)
    (hne : x.token0 (x.getPair a b) ≠ t) : x.token1 (x.getPair a b) = t := by
  rcases h.token_cases with ⟨h0, h1, _⟩ | ⟨h0, h1, _⟩ <;> rcases ht with rfl | rfl
  · exact absurd h0 hne
  · exact h1
  · exact h1
  · exact absurd h0 hne

/-- The reserves as a contract reads them that compares `token0` with the token it is after. -/
theorem reserves_eq (h : x.Listed a b) :
    (if x.token0 (x.getPair a b) = b then
      ((m.pair (x.getPair a b)).reserve0, (m.pair (x.getPair a b)).reserve1)
    else ((m.pair (x.getPair a b)).reserve1, (m.pair (x.getPair a b)).reserve0)) =
    (x.reserveOf m (x.getPair a b) b, x.reserveOf m (x.getPair a b) a) := by
  have hne := h.ne
  rcases h.token_cases with ⟨h0, _, _⟩ | ⟨h0, _, _⟩
  · simp [reserveOf, side, h0, hne]
  · simp [reserveOf, side, h0, hne.symm]

end Listed

theorem sortTokens_eq_ok {token0 token1 : Address} (h : sortTokens a b = .ok (token0, token1)) :
    (a < b ∧ token0 = a ∧ token1 = b) ∨ (¬a < b ∧ token0 = b ∧ token1 = a) := by
  simp only [sortTokens, bind_eq_ok, pure_eq_ok, Prod.mk.injEq] at h
  obtain ⟨_, _, _, _, rfl, rfl⟩ := h
  by_cases hlt : a < b
  · simp [hlt]
  · simp [hlt]

/-- The library reads the reserves in the order of its arguments. -/
theorem getReserves_eq_ok (hlisted : x.Listed a b) {reserveA reserveB : Nat}
    (h : x.getReserves m a b = .ok (reserveA, reserveB)) :
    reserveA = x.reserveOf m (x.getPair a b) a ∧ reserveB = x.reserveOf m (x.getPair a b) b := by
  simp only [getReserves, bind_eq_ok, pure_eq_ok] at h
  obtain ⟨⟨token0, token1⟩, hsort, h⟩ := h
  have hne := hlisted.ne
  rcases hlisted.token_cases with ⟨h0, _, hlt⟩ | ⟨h0, _, hlt⟩
  · rcases sortTokens_eq_ok hsort with ⟨_, rfl, _⟩ | ⟨hnot, _⟩
    · simp only [if_pos, Prod.mk.injEq] at h
      simp [reserveOf, side, h0, hne, h.1, h.2]
    · exact absurd hlt hnot
  · rcases sortTokens_eq_ok hsort with ⟨hlt', _⟩ | ⟨_, rfl, _⟩
    · exact absurd hlt' hlt.not_gt
    · simp only [if_neg hne, Prod.mk.injEq] at h
      simp [reserveOf, side, h0, hne.symm, h.1, h.2]

/-- What the recipient gets of one of the two tokens when the pair pays. -/
theorem pay_balanceOf_recipient (hlisted : x.Listed a b) {recipient t : Address}
    {amount0 amount1 : Nat} (hrecipient : recipient ≠ x.getPair a b) (ht : t = a ∨ t = b) :
    (x.pay m (x.getPair a b) recipient amount0 amount1).balanceOf t recipient =
      m.balanceOf t recipient + x.side (x.getPair a b) t amount0 amount1 := by
  have hne := hlisted.token0_ne_token1
  simp only [pay, sync_balanceOf, side]
  split
  · rename_i h0
    rw [move_balanceOf_of_ne (.inl (h0 ▸ hne)), h0, move_balanceOf_recipient hrecipient]
  · rename_i h0
    have h1 := hlisted.token1_eq ht h0
    rw [h1, move_balanceOf_recipient hrecipient, move_balanceOf_of_ne (.inl (Ne.symm h0))]

/-- What the pair keeps of it is its reserve. -/
theorem pay_reserveOf (hlisted : x.Listed a b) {recipient t : Address} {amount0 amount1 : Nat}
    (hrecipient : recipient ≠ x.getPair a b) (ht : t = a ∨ t = b) :
    x.reserveOf (x.pay m (x.getPair a b) recipient amount0 amount1) (x.getPair a b) t =
      m.balanceOf t (x.getPair a b) - x.side (x.getPair a b) t amount0 amount1 := by
  have hne := hlisted.token0_ne_token1
  simp only [reserveOf, pay, sync, Market.setPair, Function.update_self, side]
  split
  · rename_i h0
    rw [move_balanceOf_of_ne (.inl hne), h0, move_balanceOf_sender hrecipient.symm]
  · rename_i h0
    have h1 := hlisted.token1_eq ht h0
    rw [h1, move_balanceOf_sender hrecipient.symm, move_balanceOf_of_ne (.inl (Ne.symm h0))]

/-! ## What the router did -/

variable {m' : Market} {sender : Address}

/-- An output that is returned is the sale's. -/
theorem getAmountOut_eq_ok {amountIn reserveIn reserveOut out : Nat}
    (h : getAmountOut amountIn reserveIn reserveOut = .ok out) :
    0 < amountIn ∧ out = sale amountIn reserveIn reserveOut := by
  simp only [getAmountOut, bind_eq_ok, require_eq_ok, SafeMath.mul_eq_ok, SafeMath.add_eq_ok,
    pure_eq_ok] at h
  obtain ⟨_, hpos, _, _, _, ⟨_, rfl⟩, _, ⟨_, rfl⟩, _, ⟨_, rfl⟩, _, ⟨_, rfl⟩, rfl⟩ := h
  exact ⟨hpos, rfl⟩

theorem side_burnAmounts (pair t : Address) :
    x.side pair t (burnAmounts m pair).1 (burnAmounts m pair).2 =
      x.part m pair ((m.pair pair).balanceOf pair) t := by
  unfold side part reserveOf side burnAmounts
  split <;> rfl

/-- The liquidity's part of both reserves goes to its sender, the rest stays. -/
theorem removeLiquidity_eq_ok (hx : x.Documented) (hlisted : x.Listed a b)
    (hsender : sender ≠ x.getPair a b)
    (hnone : (m.pair (x.getPair a b)).balanceOf (x.getPair a b) = 0) {liquidity : Nat}
    (h : x.removeLiquidity m sender a b liquidity 0 0 sender = .ok m') {t : Address}
    (ht : t = a ∨ t = b) :
    m'.balanceOf t sender = m.balanceOf t sender + x.part m (x.getPair a b) liquidity t ∧
    x.reserveOf m' (x.getPair a b) t =
      m.balanceOf t (x.getPair a b) - x.part m (x.getPair a b) liquidity t := by
  simp only [removeLiquidity, bind_eq_ok, pure_eq_ok] at h
  obtain ⟨m₁, hsend, ⟨amounts, m₂⟩, hburn, _, _, _, _, _, _, rfl⟩ := h
  obtain ⟨_, rfl⟩ := hx.burn hburn
  simp only [Market.transferLp, bind_eq_ok, SafeMath.subOr_eq_ok, pure_eq_ok] at hsend
  obtain ⟨_, _, rfl⟩ := hsend
  simp only [burned]
  rw [pay_balanceOf_recipient hlisted hsender ht, pay_reserveOf hlisted hsender ht,
    side_burnAmounts]
  simp [part, reserveOf, Market.receiveLp, Market.setPair, hnone, hsender.symm]

@[simp] theorem reserveOf_receiveLp (pair holder t : Address) (amount : Nat) :
    x.reserveOf (m.receiveLp pair holder amount) pair t = x.reserveOf m pair t := by
  simp [reserveOf, Market.receiveLp, Market.setPair]

@[simp] theorem part_receiveLp (pair holder t : Address) (amount liquidity : Nat) :
    x.part (m.receiveLp pair holder amount) pair liquidity t = x.part m pair liquidity t := by
  simp [part, reserveOf, Market.receiveLp, Market.setPair]

/-- The route of a swap whose output goes to `holder`: listed pairs, none of them the holder. -/
def Route (x : Exchange) (holder : Address) (path : List Address) : Prop :=
  path.IsChain fun a b => x.Listed a b ∧ holder ≠ x.getPair a b

theorem amountsAlong_eq_ok {path : List Address} {amount : Nat} {amounts : List Nat}
    (h : x.amountsAlong m amount path = .ok amounts) :
    ∃ rest, amounts = amount :: rest ∧ rest.length = path.length - 1 := by
  induction path generalizing amount amounts with
  | nil =>
      cases h
      exact ⟨[], rfl, rfl⟩
  | cons input path ih =>
      cases path with
      | nil =>
          cases h
          exact ⟨[], rfl, rfl⟩
      | cons output path =>
          simp only [amountsAlong, bind_eq_ok, pure_eq_ok] at h
          obtain ⟨_, _, out, _, rest, hrest, rfl⟩ := h
          obtain ⟨tail, rfl, hlength⟩ := ih hrest
          exact ⟨out :: tail, rfl, by simp [hlength]⟩

/-- Of all the pairs along the way only the last one pays the holder. -/
theorem _swap_balanceOf (hx : x.Documented) {holder : Address} {path : List Address}
    {input output : Address} {amounts : List Nat} {amountIn amountOut : Nat}
    (hroute : x.Route holder (input :: output :: path)) (hlength : amounts.length = path.length)
    (h : x._swap holder (amountIn :: amountOut :: amounts) (input :: output :: path) m =
      .ok m') :
    m'.balanceOf (path.getLastD output) holder =
      m.balanceOf (path.getLastD output) holder + amounts.getLastD amountOut := by
  induction path generalizing input output amounts amountIn amountOut m with
  | nil =>
      obtain ⟨hlisted, hholder⟩ := List.isChain_pair.mp hroute
      obtain rfl := List.length_eq_zero_iff.mp hlength
      simp only [_swap, bind_eq_ok] at h
      obtain ⟨⟨token0, _⟩, hsort, m₁, hswap, hdone⟩ := h
      cases hdone
      rw [hx.swap hswap]
      simp only [List.getLastD_nil]
      rw [pay_balanceOf_recipient hlisted hholder (.inr rfl)]
      congr 1
      have hne := hlisted.ne
      -- the pair pays on the side of the output
      rcases hlisted.token_cases with ⟨h0, _, hlt⟩ | ⟨h0, _, hlt⟩
      · rcases sortTokens_eq_ok hsort with ⟨_, rfl, _⟩ | ⟨hnot, _⟩
        · simp [side, h0, hne]
        · exact absurd hlt hnot
      · rcases sortTokens_eq_ok hsort with ⟨hlt', _⟩ | ⟨_, rfl, _⟩
        · exact absurd hlt' hlt.not_gt
        · simp [side, h0, hne]
  | cons next path ih =>
      obtain ⟨⟨hlisted, hholder⟩, htail⟩ := List.isChain_cons_cons.mp hroute
      obtain ⟨_, hholder'⟩ := (List.isChain_cons_cons.mp htail).1
      cases amounts with
      | nil => cases hlength
      | cons amountNext amounts =>
          rw [_swap] at h
          simp only [bind_eq_ok] at h
          obtain ⟨_, _, m₁, hswap, hrest⟩ := h
          have hrest := ih htail (Nat.succ.inj hlength) hrest
          rw [hx.swap hswap, pay_balanceOf_of_ne hholder hholder'] at hrest
          rw [List.getLastD_cons, List.getLastD_cons]
          exact hrest

/-- What the holder gets of the last token of the path: the last of the amounts. -/
theorem swapExactTokensForTokens_eq_ok (hx : x.Documented) {input output : Address}
    {path : List Address} {amountIn amountOutMin : Nat}
    (hroute : x.Route sender (input :: output :: path))
    (h : x.swapExactTokensForTokens m sender amountIn amountOutMin (input :: output :: path)
      sender = .ok m') :
    ∃ amounts, x.amountsAlong m amountIn (input :: output :: path) = .ok amounts ∧
      m'.balanceOf (path.getLastD output) sender =
        (m.move input sender (x.getPair input output) amountIn).balanceOf (path.getLastD output)
          sender + amounts.getLastD 0 := by
  simp only [swapExactTokensForTokens, getAmountsOut, Market.safeTransferFrom, bind_eq_ok,
    pure_eq_ok] at h
  obtain ⟨amounts, ⟨_, _, hamounts⟩, _, _, m₁, ⟨_, _, hsend⟩, hswap⟩ := h
  refine ⟨amounts, hamounts, ?_⟩
  obtain ⟨rest, rfl, hlength⟩ := amountsAlong_eq_ok hamounts
  cases rest with
  | nil => cases hlength
  | cons amountOut rest =>
      have hlength : rest.length = path.length := by simpa using hlength
      rw [← hsend] at hswap
      rw [List.getLastD_cons, List.getLastD_cons]
      exact _swap_balanceOf hx hroute hlength hswap

/-! ## A pool that can be traded with -/

/-- A listed pair with positive reserves of 112 bits, which are its balances. -/
structure Pool (x : Exchange) (m : Market) (a b : Address) : Prop extends x.Listed a b where
  reserve0_pos : 0 < (m.pair (x.getPair a b)).reserve0
  reserve1_pos : 0 < (m.pair (x.getPair a b)).reserve1
  reserve0_lt : (m.pair (x.getPair a b)).reserve0 < 2 ^ 112
  reserve1_lt : (m.pair (x.getPair a b)).reserve1 < 2 ^ 112
  balance0 : m.balanceOf (x.token0 (x.getPair a b)) (x.getPair a b) =
    (m.pair (x.getPair a b)).reserve0
  balance1 : m.balanceOf (x.token1 (x.getPair a b)) (x.getPair a b) =
    (m.pair (x.getPair a b)).reserve1

namespace Pool

/-- A pool is one in both orders. -/
theorem symm (h : x.Pool m a b) : x.Pool m b a :=
  ⟨h.toListed.symm, h.comm ▸ h.reserve0_pos, h.comm ▸ h.reserve1_pos, h.comm ▸ h.reserve0_lt,
    h.comm ▸ h.reserve1_lt, h.comm ▸ h.balance0, h.comm ▸ h.balance1⟩

theorem reserveOf_pos (h : x.Pool m a b) (t : Address) : 0 < x.reserveOf m (x.getPair a b) t := by
  unfold reserveOf side
  split
  · exact h.reserve0_pos
  · exact h.reserve1_pos

theorem reserveOf_lt (h : x.Pool m a b) (t : Address) :
    x.reserveOf m (x.getPair a b) t < 2 ^ 112 := by
  unfold reserveOf side
  split
  · exact h.reserve0_lt
  · exact h.reserve1_lt

theorem balanceOf_eq (h : x.Pool m a b) {t : Address} (ht : t = a ∨ t = b) :
    m.balanceOf t (x.getPair a b) = x.reserveOf m (x.getPair a b) t := by
  unfold reserveOf side
  split
  · rename_i h0
    rw [← h0]
    exact h.balance0
  · rename_i h0
    rw [← h.token1_eq ht h0]
    exact h.balance1

/-- LP tokens that arrive somewhere change neither the reserves nor the balances. -/
theorem receiveLp (h : x.Pool m a b) (pair holder : Address) (amount : Nat) :
    x.Pool (m.receiveLp pair holder amount) a b := by
  have hsame : ∀ p, ((m.receiveLp pair holder amount).pair p).reserve0 = (m.pair p).reserve0 ∧
      ((m.receiveLp pair holder amount).pair p).reserve1 = (m.pair p).reserve1 := by
    intro p
    by_cases hp : p = pair
    · simp [Market.receiveLp, Market.setPair, hp]
    · simp [Market.receiveLp, Market.setPair, Function.update_of_ne hp]
  obtain ⟨h0, h1⟩ := hsame (x.getPair a b)
  exact ⟨h.toListed, h0 ▸ h.reserve0_pos, h1 ▸ h.reserve1_pos, h0 ▸ h.reserve0_lt,
    h1 ▸ h.reserve1_lt, h0 ▸ h.balance0, h1 ▸ h.balance1⟩

/-- A transfer between others leaves the pool as it is. -/
theorem move (h : x.Pool m a b) (token : Address) {sender recipient : Address} (amount : Nat)
    (hsender : sender ≠ x.getPair a b) (hrecipient : recipient ≠ x.getPair a b) :
    x.Pool (m.move token sender recipient amount) a b := by
  have hsame : ∀ t, (m.move token sender recipient amount).balanceOf t (x.getPair a b) =
      m.balanceOf t (x.getPair a b) := fun t =>
    move_balanceOf_of_ne (.inr ⟨hsender.symm, hrecipient.symm⟩)
  exact ⟨h.toListed, h.reserve0_pos, h.reserve1_pos, h.reserve0_lt, h.reserve1_lt,
    (hsame _).trans h.balance0, (hsame _).trans h.balance1⟩

/-- Who holds none of one of its tokens is not the pair. -/
theorem ne_of_empty (h : x.Pool m a b) {holder t : Address} (ht : t = a ∨ t = b)
    (hnone : m.balanceOf t holder = 0) : holder ≠ x.getPair a b := by
  intro heq
  have hpos := h.reserveOf_pos t
  rw [← h.balanceOf_eq ht, ← heq, hnone] at hpos
  exact Nat.lt_irrefl 0 hpos

end Pool

end Exchange

end Huski.Pancake
