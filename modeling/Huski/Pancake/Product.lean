import Huski.Lib.TSys
import Huski.Lib.ConstantProduct
import Huski.Pancake.FeeOnTransfer

/-!
# What trades leave in the pairs

Any accounts trade through the router in any of its three ways, and send tokens to whom they want,
the pairs included. The router asks the pairs for no more than they owe at a constant product. So
the product of the reserves of a pair never falls: no run of trades, along whatever paths, takes
something of both tokens out of a pair, and none empties it.
-/

open Solidity

namespace Huski.Pancake.Exchange

open Factory

variable {x : Exchange} {m m' : Market}

/-! ## The fee of the library -/

theorem sale_eq_output (amountIn reserveIn reserveOut : Nat) :
    sale amountIn reserveIn reserveOut =
      ConstantProduct.output 9975 10000 amountIn reserveIn reserveOut := rfl

theorem getAmountIn_eq_ok {amountOut reserveIn reserveOut amountIn : Nat}
    (h : getAmountIn amountOut reserveIn reserveOut = .ok amountIn) :
    0 < reserveIn ∧ amountOut < reserveOut ∧
      amountIn = ConstantProduct.input 9975 10000 amountOut reserveIn reserveOut := by
  simp only [getAmountIn, bind_eq_ok, require_eq_ok, SafeMath.mul_eq_ok, SafeMath.sub_eq_ok,
    SafeMath.add_eq_ok] at h
  rcases h with ⟨_, _, _, hreserves, _, ⟨_, rfl⟩, _, ⟨_, rfl⟩, _, ⟨hle, rfl⟩, _, ⟨_, rfl⟩, _,
    hsome, _, rfl⟩
  refine ⟨hreserves.1, ?_, rfl⟩
  apply lt_of_le_of_ne hle
  intro heq
  apply hsome
  rw [heq, Nat.sub_self, Nat.zero_mul]

/-! ## Quotes -/

/-- Amounts for a path, each of which its pair owes for the one before. -/
def Quoted (x : Exchange) (m : Market) : List Nat → List Address → Prop
  | amountIn :: amountOut :: amounts, input :: output :: path =>
      amountOut ≤ sale amountIn (x.reserveOf m (x.getPair input output) input)
        (x.reserveOf m (x.getPair input output) output) ∧
      Quoted x m (amountOut :: amounts) (output :: path)
  | _, _ => True

theorem amountsAlong_quoted {path : List Address} {amount : Nat} {amounts : List Nat}
    (hlisted : path.IsChain x.Listed) (h : x.amountsAlong m amount path = .ok amounts) :
    x.Quoted m amounts path := by
  induction path generalizing amount amounts with
  | nil =>
      cases h
      trivial
  | cons input path ih =>
      cases path with
      | nil =>
          cases h
          trivial
      | cons output path =>
          rcases List.isChain_cons_cons.mp hlisted with ⟨hpair, hrest⟩
          rcases amountsAlong_cons_eq_ok hpair h with ⟨out, rest, hout, hamounts, rfl⟩
          exact ⟨(getAmountOut_eq_ok hout).2.le, ih hrest hamounts⟩

theorem amountsBack_quoted {path : List Address} {amountOut : Nat} {amounts : List Nat}
    (hlisted : path.IsChain x.Listed) (h : x.amountsBack m amountOut path = .ok amounts) :
    x.Quoted m amounts path := by
  induction path generalizing amounts with
  | nil =>
      cases h
      trivial
  | cons input path ih =>
      cases path with
      | nil =>
          cases h
          trivial
      | cons output path =>
          rcases List.isChain_cons_cons.mp hlisted with ⟨hpair, hrest⟩
          simp only [amountsBack, bind_eq_ok, pure_eq_ok] at h
          rcases h with ⟨rest, hamounts, ⟨reserveIn, reserveOut⟩, hreserves, amountIn, hin, rfl⟩
          rcases getReserves_eq_ok hpair hreserves with ⟨rfl, rfl⟩
          have hquoted := ih hrest hamounts
          rcases getAmountIn_eq_ok hin with ⟨hpos, hlt, rfl⟩
          cases rest with
          | nil => trivial
          | cons out tail =>
              refine ⟨?_, hquoted⟩
              rw [sale_eq_output]
              -- the input rounds up, so it buys at least what was asked
              exact ConstantProduct.le_output_input (by decide) hlt

/-- The quotes are about the reserves of the pairs of the path only. -/
theorem Quoted.of_frame {path : List Address} {amounts : List Nat}
    (h : x.Quoted m amounts path)
    (hpairs : ∀ q ∈ x.pairsAlong path, m'.pair q = m.pair q) : x.Quoted m' amounts path := by
  induction path generalizing amounts with
  | nil => cases amounts with
    | nil => trivial
    | cons amountIn amounts => cases amounts <;> trivial
  | cons input path ih =>
      match amounts, path with
      | [], _ => trivial
      | [_], _ => trivial
      | _ :: _ :: _, [] => trivial
      | amountIn :: amountOut :: amounts, output :: path =>
          refine ⟨?_, ih h.2 fun q hq => hpairs q (List.mem_cons_of_mem _ hq)⟩
          have hfirst : m'.pair (x.getPair input output) = m.pair (x.getPair input output) :=
            hpairs _ List.mem_cons_self
          simp only [reserveOf, hfirst]
          exact h.1

/-! ## What a pair holds -/

/-- A pair of the factory. -/
def IsPair (x : Exchange) (pair : Address) : Prop :=
  ∃ a b, x.Listed a b ∧ x.getPair a b = pair

/-- The product of a pair's reserves. -/
def product (m : Market) (pair : Address) : Nat :=
  (m.pair pair).reserve0 * (m.pair pair).reserve1

/-- Every pair holds its reserves. -/
structure Covered (x : Exchange) (m : Market) : Prop where
  reserve0 : ∀ {pair}, x.IsPair pair → (m.pair pair).reserve0 ≤ m.balanceOf (x.token0 pair) pair
  reserve1 : ∀ {pair}, x.IsPair pair → (m.pair pair).reserve1 ≤ m.balanceOf (x.token1 pair) pair

/-- The pairs still hold their reserves, the products of which have not fallen. -/
structure Grows (x : Exchange) (m m' : Market) : Prop where
  covered : x.Covered m'
  product : ∀ {pair}, x.IsPair pair → product m pair ≤ product m' pair

theorem Grows.refl (h : x.Covered m) : x.Grows m m := ⟨h, fun _ => le_rfl⟩

theorem Grows.trans {m₁ : Market} (h : x.Grows m m₁) (h' : x.Grows m₁ m') : x.Grows m m' :=
  ⟨h'.covered, fun hpair => (h.product hpair).trans (h'.product hpair)⟩

section Moves

variable {token sender recipient h pair : Address} {amount amount0 amount1 : Nat}

theorem sub_le_move :
    m.balanceOf token h - amount ≤ (m.move token sender recipient amount).balanceOf token h := by
  simp only [Market.move, setBalance_balanceOf, true_and]
  by_cases hrecipient : h = recipient
  · subst hrecipient
    by_cases hsender : h = sender
    · subst hsender
      simp
    · simp [hsender]
      omega
  · by_cases hsender : h = sender
    · subst hsender
      simp [hrecipient]
    · simp [hrecipient, hsender]

theorem le_move (hsender : h ≠ sender) (t : Address) :
    m.balanceOf t h ≤ (m.move token sender recipient amount).balanceOf t h := by
  by_cases hrecipient : t = token ∧ h = recipient
  · rcases hrecipient with ⟨rfl, rfl⟩
    rw [move_balanceOf_recipient hsender]
    exact Nat.le_add_right _ _
  · rw [move_balanceOf_of_ne]
    by_cases htoken : t = token
    · exact .inr ⟨hsender, fun heq => hrecipient ⟨htoken, heq⟩⟩
    · exact .inl htoken

/-- Tokens that no pair sends. -/
theorem move_grows (hcovered : x.Covered m) (hsender : ¬x.IsPair sender) :
    x.Grows m (m.move token sender recipient amount) := by
  have hne : ∀ {pair}, x.IsPair pair → pair ≠ sender := fun hpair heq => hsender (heq ▸ hpair)
  refine ⟨⟨?_, ?_⟩, fun _ => le_rfl⟩
  · intro pair hpair
    exact (hcovered.reserve0 hpair).trans (le_move (hne hpair) _)
  · intro pair hpair
    exact (hcovered.reserve1 hpair).trans (le_move (hne hpair) _)

/-- A pair pays what keeps the product of what it then holds. -/
theorem pay_grows (hcovered : x.Covered m) (hne : x.token0 pair ≠ x.token1 pair)
    (hproduct : product m pair ≤ (m.balanceOf (x.token0 pair) pair - amount0) *
      (m.balanceOf (x.token1 pair) pair - amount1)) :
    x.Grows m (x.pay m pair recipient amount0 amount1) := by
  have h0 : m.balanceOf (x.token0 pair) pair - amount0 ≤
      (x.pay m pair recipient amount0 amount1).balanceOf (x.token0 pair) pair := by
    simp only [pay, sync_balanceOf]
    rw [move_balanceOf_of_ne (.inl hne)]
    exact sub_le_move
  have h1 : m.balanceOf (x.token1 pair) pair - amount1 ≤
      (x.pay m pair recipient amount0 amount1).balanceOf (x.token1 pair) pair := by
    simp only [pay, sync_balanceOf]
    refine le_trans ?_ sub_le_move
    rw [move_balanceOf_of_ne (.inl hne.symm)]
  have hkept : ∀ q, q ≠ pair → ∀ t, m.balanceOf t q ≤
      (x.pay m pair recipient amount0 amount1).balanceOf t q := by
    intro q hq t
    simp only [pay, sync_balanceOf]
    exact (le_move hq t).trans (le_move hq t)
  -- the pair's reserves are its balances after the payment
  have hself : (x.pay m pair recipient amount0 amount1).pair pair =
      { m.pair pair with
        reserve0 := (x.pay m pair recipient amount0 amount1).balanceOf (x.token0 pair) pair
        reserve1 := (x.pay m pair recipient amount0 amount1).balanceOf (x.token1 pair) pair } := by
    simp [pay, sync, Market.setPair]
  refine ⟨⟨?_, ?_⟩, ?_⟩
  · intro q hq
    by_cases hpair : q = pair
    · rw [hpair, hself]
    · rw [pay_pair_of_ne hpair]
      exact (hcovered.reserve0 hq).trans (hkept q hpair _)
  · intro q hq
    by_cases hpair : q = pair
    · rw [hpair, hself]
    · rw [pay_pair_of_ne hpair]
      exact (hcovered.reserve1 hq).trans (hkept q hpair _)
  · intro q hq
    by_cases hpair : q = pair
    · rw [hpair]
      -- of the pair itself the product grows by the hypothesis, of the others it stays
      unfold product at hproduct ⊢
      rw [hself]
      exact hproduct.trans (Nat.mul_le_mul h0 h1)
    · unfold product
      rw [pay_pair_of_ne hpair]

end Moves

/-! ## The loops -/

section Loops

variable {input output recipient sender : Address} {path : List Address} {amountIn out : Nat}

/-- A pair that has got `amountIn` pays no more than it owes for it. -/
theorem asked_grows (hcovered : x.Covered m) (hlisted : x.Listed input output)
    {tokens : Address × Address} (hsort : sortTokens input output = .ok tokens)
    (hin : x.reserveOf m (x.getPair input output) input + amountIn ≤
      m.balanceOf input (x.getPair input output))
    (hout : out ≤ sale amountIn (x.reserveOf m (x.getPair input output) input)
      (x.reserveOf m (x.getPair input output) output)) :
    x.Grows m (x.pay m (x.getPair input output) recipient (asked input tokens.1 out).1
      (asked input tokens.1 out).2) := by
  have hpair : x.IsPair (x.getPair input output) := ⟨input, output, hlisted, rfl⟩
  -- the fee of the sale keeps the product from falling
  have hfee : x.reserveOf m (x.getPair input output) input *
      x.reserveOf m (x.getPair input output) output ≤
      (x.reserveOf m (x.getPair input output) input + amountIn) *
        (x.reserveOf m (x.getPair input output) output - out) :=
    ConstantProduct.product_le (by decide) (by decide) (sale_eq_output _ _ _ ▸ hout)
  have hne := hlisted.ne
  apply pay_grows hcovered hlisted.token0_ne_token1
  rw [token0_eq hlisted hsort]
  rcases hlisted.token_cases with ⟨h0, h1, _⟩ | ⟨h0, h1, _⟩
  -- the input is the pair's first token
  · have hother := hcovered.reserve1 hpair
    simp only [reserveOf, side, h0, hne, if_true, if_false] at hin hfee
    simp only [asked, h0, if_true, Nat.sub_zero, h1] at hother ⊢
    apply hfee.trans
    apply Nat.mul_le_mul hin
    exact Nat.sub_le_sub_right hother _
  -- the input is its second token
  · have hother := hcovered.reserve0 hpair
    simp only [reserveOf, side, h0, hne.symm, if_true, if_false] at hin hfee
    simp only [asked, h0, hne, if_false, Nat.sub_zero, h1] at hother ⊢
    unfold product
    rw [Nat.mul_comm (m.pair _).reserve0, Nat.mul_comm (m.balanceOf _ _ - _)]
    apply hfee.trans
    apply Nat.mul_le_mul hin
    exact Nat.sub_le_sub_right hother _

theorem Covered.reserveOf_le (h : x.Covered m) {a b t : Address} (hlisted : x.Listed a b)
    (ht : t = a ∨ t = b) :
    x.reserveOf m (x.getPair a b) t ≤ m.balanceOf t (x.getPair a b) := by
  have hpair : x.IsPair (x.getPair a b) := ⟨a, b, hlisted, rfl⟩
  unfold reserveOf side
  split
  · rename_i h0
    rw [← h0]
    exact h.reserve0 hpair
  · rename_i h0
    rw [← hlisted.token1_eq ht h0]
    exact h.reserve1 hpair

/-- The first pair of a path has got the first of the amounts. -/
def Paid (x : Exchange) (m : Market) : List Nat → List Address → Prop
  | amountIn :: _, input :: output :: _ =>
      x.reserveOf m (x.getPair input output) input + amountIn ≤
        m.balanceOf input (x.getPair input output)
  | _, _ => True

/-- Along a path on which no pair comes twice the reserves are those of the quotes. -/
theorem _swap_grows (hx : x.Documented) {amounts : List Nat} (hlisted : path.IsChain x.Listed)
    (hnodup : (x.pairsAlong path).Nodup) (hcovered : x.Covered m)
    (hquoted : x.Quoted m amounts path)
    (hpaid : x.Paid m amounts path) (h : x._swap recipient amounts path m = .ok m') :
    x.Grows m m' := by
  fun_induction x._swap recipient amounts path m with
  | case1 amountIn amountOut amounts input output path m ih =>
      rcases List.isChain_cons_cons.mp hlisted with ⟨hpair, htail⟩
      rcases List.nodup_cons.mp hnodup with ⟨hfirst, hothers⟩
      simp only [bind_eq_ok] at h
      rcases h with ⟨tokens, hsort, m₁, hswap, hrest⟩
      have hpays := hx.swap hswap
      have hgrows : x.Grows m m₁ := by
        rw [hpays]
        exact asked_grows hcovered hpair hsort hpaid hquoted.1
      have hframe : ∀ q ∈ x.pairsAlong (output :: path), m₁.pair q = m.pair q := by
        rw [hpays]
        exact pay_pair_of_not_mem hfirst
      apply hgrows.trans
      apply ih m₁ htail hothers hgrows.covered (hquoted.2.of_frame hframe) _ hrest
      cases path with
      | nil => trivial
      | cons token path =>
          -- the next pair has got what this one pays
          have hnext : x.getPair output token ≠ x.getPair input output := fun heq =>
            hfirst (heq ▸ List.mem_cons_self)
          have hreserve := hcovered.reserveOf_le (List.isChain_cons_cons.mp htail).1 (.inl rfl)
          show x.reserveOf m₁ _ output + amountOut ≤ m₁.balanceOf output _
          rw [hpays, reserveOf_pay_of_ne hnext, pay_balanceOf_recipient hpair hnext (.inr rfl),
            side_output hpair hsort]
          exact Nat.add_le_add_right hreserve _
  | case2 =>
      cases h
      exact .refl hcovered

/-- The other loop reads the reserves when it comes to them. -/
theorem _swapSupporting_grows (hx : x.Documented) (hlisted : path.IsChain x.Listed)
    (hcovered : x.Covered m)
    (h : x._swapSupportingFeeOnTransferTokens recipient path m = .ok m') : x.Grows m m' := by
  induction path generalizing m with
  | nil =>
      cases h
      exact .refl hcovered
  | cons input path ih =>
      cases path with
      | nil =>
          cases h
          exact .refl hcovered
      | cons output path =>
          rcases List.isChain_cons_cons.mp hlisted with ⟨hpair, htail⟩
          have hreserve := hcovered.reserveOf_le hpair (.inl rfl)
          have hfirst := (Nat.add_sub_cancel' hreserve).symm
          rcases (supporting_cons_iff hpair hfirst).mp h with
            ⟨tokens, out, m₁, hsort, hout, hswap, hrest⟩
          have hgrows : x.Grows m m₁ := by
            rw [hx.swap hswap]
            exact asked_grows hcovered hpair hsort hfirst.ge (getAmountOut_eq_ok hout).2.le
          exact hgrows.trans (ih htail hgrows.covered hrest)

end Loops

/-! ## Runs -/

/-- The ways to trade through the router. -/
inductive Trade
  | swapExactTokensForTokens (amountIn amountOutMin : Nat)
  | swapTokensForExactTokens (amountOut amountInMax : Nat)
  | swapExactTokensForTokensSupportingFeeOnTransferTokens (amountIn amountOutMin : Nat)

inductive Op
  | trade (path : List Address) (recipient : Address) (trade : Trade)
  /-- somebody sends tokens, to a pair or to anybody else -/
  | transfer (token recipient : Address) (amount : Nat)

structure Tx where
  sender : Address
  op : Op

/-- One transaction. -/
def step (x : Exchange) (m : Market) (tx : Tx) : Result Market :=
  match tx.op with
  | .trade path recipient (.swapExactTokensForTokens amountIn amountOutMin) =>
      x.swapExactTokensForTokens m tx.sender amountIn amountOutMin path recipient
  | .trade path recipient (.swapTokensForExactTokens amountOut amountInMax) =>
      x.swapTokensForExactTokens m tx.sender amountOut amountInMax path recipient
  | .trade path recipient
      (.swapExactTokensForTokensSupportingFeeOnTransferTokens amountIn amountOutMin) =>
      x.swapExactTokensForTokensSupportingFeeOnTransferTokens m tx.sender amountIn amountOutMin path
        recipient
  | .transfer token recipient amount => m.safeTransferFrom token tx.sender recipient amount

/-- From any market whose pairs hold their reserves. -/
def trading (x : Exchange) : TSys Market Tx where
  init m := x.Covered m
  step := x.step

/-- Transactions of accounts that are no pairs, along pairs that exist; a path of which the router
computes the amounts in advance has no pair twice. -/
def Proper (x : Exchange) (tx : Tx) : Prop :=
  ¬x.IsPair tx.sender ∧
  match tx.op with
  | .trade path _ (.swapExactTokensForTokensSupportingFeeOnTransferTokens ..) =>
      path.IsChain x.Listed
  | .trade path _ _ => path.IsChain x.Listed ∧ (x.pairsAlong path).Nodup
  | .transfer .. => True

/-- The market in which the payment has arrived at the first pair. -/
theorem paid_of_transfer {input output sender : Address} {path : List Address} {amountIn : Nat}
    {amounts : List Nat} {m₁ : Market} (hcovered : x.Covered m) (hsender : ¬x.IsPair sender)
    (hpair : x.Listed input output)
    (h : m.safeTransferFrom input sender (x.getPair input output) amountIn = .ok m₁) :
    m₁.pair = m.pair ∧ x.Grows m m₁ ∧
      x.Paid m₁ (amountIn :: amounts) (input :: output :: path) := by
  simp only [Market.safeTransferFrom, bind_eq_ok, pure_eq_ok] at h
  rcases h with ⟨_, _, rfl⟩
  have hne : x.getPair input output ≠ sender := fun heq =>
    hsender ⟨input, output, hpair, heq⟩
  refine ⟨rfl, move_grows hcovered hsender, ?_⟩
  show x.reserveOf m (x.getPair input output) input + amountIn ≤ _
  rw [move_balanceOf_recipient hne]
  exact Nat.add_le_add_right (hcovered.reserveOf_le hpair (.inl rfl)) _

/-- The payment and the swap of amounts that are quoted. -/
theorem quoted_grows (hx : x.Documented) {path : List Address} {sender recipient : Address}
    {amounts : List Nat} {m₁ : Market} (hcovered : x.Covered m) (hsender : ¬x.IsPair sender)
    (hlisted : path.IsChain x.Listed) (hnodup : (x.pairsAlong path).Nodup)
    (hlength : 2 ≤ path.length) (hamounts : amounts ≠ []) (hquoted : x.Quoted m amounts path)
    (hsend : m.safeTransferFrom (path.headD 0) sender
      (x.getPair (path.headD 0) (path.tail.headD 0)) (amounts.headD 0) = .ok m₁)
    (hswap : x._swap recipient amounts path m₁ = .ok m') : x.Grows m m' := by
  match path, amounts with
  | [], _ => simp at hlength
  | [_], _ => simp at hlength
  | _ :: _ :: _, [] => exact absurd rfl hamounts
  | input :: output :: path, amountIn :: amounts =>
      have hpair := (List.isChain_cons_cons.mp hlisted).1
      rcases paid_of_transfer hcovered hsender hpair hsend with ⟨hpairs, hgrows, hpaid⟩
      have hquoted₁ : x.Quoted m₁ (amountIn :: amounts) (input :: output :: path) :=
        hquoted.of_frame fun q _ => congrFun hpairs q
      exact hgrows.trans (_swap_grows hx hlisted hnodup hgrows.covered hquoted₁ hpaid hswap)

/-- No transaction lowers a product. -/
theorem step_grows (hx : x.Documented) {tx : Tx} (hcovered : x.Covered m) (hproper : x.Proper tx)
    (h : x.step m tx = .ok m') : x.Grows m m' := by
  rcases tx with ⟨sender, op⟩
  rcases hproper with ⟨hsender, hproper⟩
  cases op with
  | trade path recipient trade =>
      cases trade with
      | swapExactTokensForTokens amountIn amountOutMin =>
          rcases hproper with ⟨hlisted, hnodup⟩
          simp only [step, swapExactTokensForTokens, getAmountsOut, bind_eq_ok, require_eq_ok] at h
          rcases h with ⟨amounts, ⟨_, hlength, hamounts⟩, _, _, m₁, hsend, hswap⟩
          have hquoted := amountsAlong_quoted hlisted hamounts
          obtain ⟨rest, rfl, _⟩ := amountsAlong_eq_ok hamounts
          exact quoted_grows hx hcovered hsender hlisted hnodup hlength (List.cons_ne_nil _ _)
            hquoted hsend hswap
      | swapTokensForExactTokens amountOut amountInMax =>
          rcases hproper with ⟨hlisted, hnodup⟩
          simp only [step, swapTokensForExactTokens, getAmountsIn, bind_eq_ok, require_eq_ok] at h
          rcases h with ⟨amounts, ⟨_, hlength, hamounts⟩, _, _, m₁, hsend, hswap⟩
          have hquoted := amountsBack_quoted hlisted hamounts
          -- the amounts are as many as the tokens of the path
          have hsome : amounts ≠ [] := by
            cases path with
            | nil => simp at hlength
            | cons input path =>
                rintro rfl
                have hcount := (amountsBack_eq_ok hamounts).1
                simp at hcount
          exact quoted_grows hx hcovered hsender hlisted hnodup hlength hsome hquoted hsend hswap
      | swapExactTokensForTokensSupportingFeeOnTransferTokens amountIn amountOutMin =>
          simp only [step, swapExactTokensForTokensSupportingFeeOnTransferTokens, bind_eq_ok,
            pure_eq_ok, Market.safeTransferFrom] at h
          rcases h with ⟨_, _, m₁, ⟨_, _, rfl⟩, m₂, hswap, _, _, _, _, rfl⟩
          -- no amounts are quoted: each pair measures what it was sent
          have hgrows : x.Grows m (m.move (path.headD 0) sender
              (x.getPair (path.headD 0) (path.tail.headD 0)) amountIn) :=
            move_grows hcovered hsender
          exact hgrows.trans (_swapSupporting_grows hx hproper hgrows.covered hswap)
  | transfer token recipient amount =>
      simp only [step, Market.safeTransferFrom, bind_eq_ok, pure_eq_ok] at h
      rcases h with ⟨_, _, rfl⟩
      exact move_grows hcovered hsender

theorem grows_of_reachable (hx : x.Documented) {m₀ : Market} (hcovered : x.Covered m₀)
    (h : ((trading x).startAt m₀).ReachableBy (fun _ tx => x.Proper tx) m) : x.Grows m₀ m := by
  have hinductive : ((trading x).startAt m₀).Inductive (fun _ tx => x.Proper tx) (x.Grows m₀) := by
    constructor
    · intro m hinit
      cases hinit
      exact .refl hcovered
    · intro m tx m' hgrows hproper hstep
      exact hgrows.trans (step_grows hx hgrows.covered hproper hstep)
  exact hinductive.invariant h

/-- Where a product has not fallen and one factor has, the other one has grown. -/
theorem lt_of_product_le {r0 r1 r0' r1' : Nat} (h : r0 * r1 ≤ r0' * r1') (hpos : 0 < r1)
    (hlt : r0' < r0) : r1 < r1' := by
  by_contra hnot
  have hless : r0' * r1' ≤ r0' * r1 := Nat.mul_le_mul_left _ (not_lt.mp hnot)
  have hmore : r0' * r1 < r0 * r1 := Nat.mul_lt_mul_of_pos_right hlt hpos
  omega

/-- Over every run of trades and transfers, in any order and of any accounts, the product of the
reserves of no pair falls: no pair is emptied of a token, and where there is less of one of its
tokens than at the start there is more of the other. -/
theorem trading_products (x : Exchange) (hx : x.Documented) (m₀ m : Market) (pair : Address)
    (hcovered : x.Covered m₀) (hpair : x.IsPair pair)
    (h : ((trading x).startAt m₀).ReachableBy (fun _ tx => x.Proper tx) m) :
    product m₀ pair ≤ product m pair ∧
      (0 < (m₀.pair pair).reserve0 → 0 < (m₀.pair pair).reserve1 →
        (0 < (m.pair pair).reserve0 ∧ 0 < (m.pair pair).reserve1) ∧
        ((m.pair pair).reserve0 < (m₀.pair pair).reserve0 →
          (m₀.pair pair).reserve1 < (m.pair pair).reserve1) ∧
        ((m.pair pair).reserve1 < (m₀.pair pair).reserve1 →
          (m₀.pair pair).reserve0 < (m.pair pair).reserve0)) := by
  have hproduct := (grows_of_reachable hx hcovered h).product hpair
  refine ⟨hproduct, fun h0 h1 => ⟨?_, ?_, ?_⟩⟩
  · have hpos : 0 < product m pair := (Nat.mul_pos h0 h1).trans_le hproduct
    exact ⟨Nat.pos_of_mul_pos_right hpos, Nat.pos_of_mul_pos_left hpos⟩
  · exact lt_of_product_le hproduct h1
  · unfold product at hproduct
    rw [Nat.mul_comm, Nat.mul_comm (m.pair pair).reserve0] at hproduct
    exact lt_of_product_le hproduct h0

/-- Everybody has 10000 of everything. -/
def openMarket : Market := { Worker.market with balanceOf := fun _ _ => 10000 }

/-- Account 50 sells along two pairs, then buys back an exact amount, and sells once more; in
between it sends tokens to a pair. -/
def tradeRun : List Tx :=
  [ { sender := 50, op := .trade [3, 1, 4] 50 (.swapExactTokensForTokens 500 400) },
    { sender := 50, op := .transfer 1 104 7 },
    { sender := 50, op := .trade [4, 1, 3] 50 (.swapTokensForExactTokens 100 200) },
    { sender := 50, op := .trade [3, 1, 4] 51
        (.swapExactTokensForTokensSupportingFeeOnTransferTokens 500 0) } ]

theorem not_isPair_trader : ¬Worker.exchange.IsPair 50 := by
  rintro ⟨a, b, hlisted, hpair⟩
  have hmin := hlisted.token0
  have hmax := hlisted.token1
  rw [hpair] at hmin hmax
  rcases le_total a b with hle | hle
  · rw [min_eq_left hle] at hmin
    rw [max_eq_right hle] at hmax
    subst hmin hmax
    exact absurd hpair (by decide)
  · rw [min_eq_right hle] at hmin
    rw [max_eq_left hle] at hmax
    subst hmin hmax
    exact absurd hpair (by decide)

theorem tradeRun_proper : ∀ tx ∈ tradeRun, Worker.exchange.Proper tx := by
  have hthere : Worker.exchange.Listed 3 1 := ⟨by decide, rfl, by decide, by decide⟩
  have hon : Worker.exchange.Listed 1 4 := ⟨by decide, rfl, by decide, by decide⟩
  intro tx htx
  simp only [tradeRun, List.mem_cons, List.not_mem_nil, or_false] at htx
  rcases htx with rfl | rfl | rfl | rfl
  · exact ⟨not_isPair_trader, List.isChain_cons_cons.mpr ⟨hthere, List.isChain_pair.mpr hon⟩,
      by decide⟩
  · exact ⟨not_isPair_trader, trivial⟩
  · exact ⟨not_isPair_trader,
      List.isChain_cons_cons.mpr ⟨hon.symm, List.isChain_pair.mpr hthere.symm⟩, by decide⟩
  · exact ⟨not_isPair_trader, List.isChain_cons_cons.mpr ⟨hthere, List.isChain_pair.mpr hon⟩⟩

theorem trading_products_tradeRun : ∃ m, ((trading Worker.exchange).startAt openMarket).run
      openMarket tradeRun = .ok m ∧
    product openMarket 104 ≤ product m 104 ∧
    0 < (m.pair 104).reserve0 ∧ 0 < (m.pair 104).reserve1 := by
  have htest : (((trading Worker.exchange).startAt openMarket).run openMarket
    tradeRun).isOk = true := by decide +kernel
  have hcovered : Worker.exchange.Covered openMarket := ⟨fun _ => le_rfl, fun _ => le_rfl⟩
  have hpair : Worker.exchange.IsPair 104 :=
    ⟨3, 1, ⟨by decide, rfl, by decide, by decide⟩, by decide⟩
  cases hrun : ((trading Worker.exchange).startAt openMarket).run openMarket tradeRun with
  | error e =>
      rw [hrun] at htest
      cases htest
  | ok m =>
      have hreach : ((trading Worker.exchange).startAt openMarket).ReachableBy
          (fun _ tx => Worker.exchange.Proper tx) m :=
        TSys.run_reachableBy (.init rfl) (fun _ => tradeRun_proper) hrun
      have hproducts := trading_products Worker.exchange Worker.exchange_documented openMarket m 104
        hcovered hpair hreach
      exact ⟨m, rfl, hproducts.1, (hproducts.2 (by decide) (by decide)).1⟩

end Huski.Pancake.Exchange
