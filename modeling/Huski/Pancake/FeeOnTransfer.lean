import Huski.Pancake.Trades
import Huski.Worker.Health

/-!
# Trades that look at what arrived

`_swapSupportingFeeOnTransferTokens` of `PancakeRouterV2.sol`. It computes nothing in advance: each
pair is asked for what it owes for what it has got above its reserve. With standard tokens, along a
path without a pair that comes twice, and with pairs that hold no more than their reserves, it does
to the unit what `_swap` does with the amounts of `getAmountsOut`.
-/

open Solidity

namespace Huski.Pancake.Exchange

open Factory

variable (x : Exchange) (m : Market)

def _swapSupportingFeeOnTransferTokens (recipient : Address) :
    List Address → Market → Result Market
  | input :: output :: path, m => do
      let (token0, _) ← sortTokens input output
      let pair := x.getPair input output
      let p := m.pair pair
      let (reserveInput, reserveOutput) :=
        if input = token0 then (p.reserve0, p.reserve1) else (p.reserve1, p.reserve0)
      let amountInput ← SafeMath.sub (m.balanceOf input pair) reserveInput
      let amountOutput ← getAmountOut amountInput reserveInput reserveOutput
      let (amount0Out, amount1Out) :=
        if input = token0 then (0, amountOutput) else (amountOutput, 0)
      let next := match path with
        | [] => recipient
        | token :: _ => x.getPair output token
      let m ← x.swap pair amount0Out amount1Out next m
      _swapSupportingFeeOnTransferTokens recipient (output :: path) m
  | _, m => .ok m

/-- A path without `path[1]` reverts without a message. -/
def swapExactTokensForTokensSupportingFeeOnTransferTokens (sender : Address)
    (amountIn amountOutMin : Nat) (path : List Address) (recipient : Address) :
    Result Market := do
  require (path.length ≥ 2) ""
  let m ← m.safeTransferFrom (path.headD 0) sender
    (x.getPair (path.headD 0) (path.tail.headD 0)) amountIn
  let balanceBefore := m.balanceOf (path.getLastD 0) recipient
  let m ← x._swapSupportingFeeOnTransferTokens recipient path m
  let got ← SafeMath.sub (m.balanceOf (path.getLastD 0) recipient) balanceBefore
  require (got ≥ amountOutMin) "PancakeRouter: INSUFFICIENT_OUTPUT_AMOUNT"
  return m

/-- The pairs of a path. -/
def pairsAlong : List Address → List Address
  | input :: output :: path => x.getPair input output :: pairsAlong (output :: path)
  | _ => []

/-- What the pairs of a path hold of their inputs is what they know of. -/
def SyncedAlong : List Address → Prop
  | input :: output :: path =>
      m.balanceOf input (x.getPair input output) =
        x.reserveOf m (x.getPair input output) input ∧
      SyncedAlong (output :: path)
  | _ => True

variable {x m}

/-! ## One pair -/

section Pay

variable {a b pair recipient token0 token1 t h : Address} {amount0 amount1 out : Nat}

theorem pay_pair_of_ne {q : Address} (hq : q ≠ pair) :
    (x.pay m pair recipient amount0 amount1).pair q = m.pair q := by
  simp only [pay, sync, Market.setPair]
  rw [Function.update_of_ne hq, move_pair, move_pair]

theorem reserveOf_pay_of_ne {q : Address} (hq : q ≠ pair) :
    x.reserveOf (x.pay m pair recipient amount0 amount1) q t = x.reserveOf m q t := by
  unfold reserveOf
  rw [pay_pair_of_ne hq]

/-- The pairs of a path on which the payer is not. -/
theorem pay_pair_of_not_mem {path : List Address} (hpair : pair ∉ x.pairsAlong path) :
    ∀ q ∈ x.pairsAlong path, (x.pay m pair recipient amount0 amount1).pair q = m.pair q := by
  intro q hq
  apply pay_pair_of_ne
  intro heq
  exact hpair (heq ▸ hq)

/-- The order in which the router sorts two tokens is that of their pair. -/
theorem token0_eq (hlisted : x.Listed a b) (hsort : sortTokens a b = .ok (token0, token1)) :
    token0 = x.token0 (x.getPair a b) := by
  rcases hlisted.token_cases with ⟨h0, _, hlt⟩ | ⟨h0, _, hlt⟩
  · rcases sortTokens_eq_ok hsort with ⟨_, htoken, _⟩ | ⟨hnot, _⟩
    · rw [htoken, h0]
    · exact absurd hlt hnot
  · rcases sortTokens_eq_ok hsort with ⟨hlt', _⟩ | ⟨_, htoken, _⟩
    · exact absurd hlt' hlt.not_gt
    · rw [htoken, h0]

/-- What the router reads off the pair itself. -/
theorem reserves_eq (hlisted : x.Listed a b) (hsort : sortTokens a b = .ok (token0, token1)) :
    (if a = token0 then ((m.pair (x.getPair a b)).reserve0, (m.pair (x.getPair a b)).reserve1)
      else ((m.pair (x.getPair a b)).reserve1, (m.pair (x.getPair a b)).reserve0)) =
      (x.reserveOf m (x.getPair a b) a, x.reserveOf m (x.getPair a b) b) := by
  have hne := hlisted.ne
  rw [token0_eq hlisted hsort]
  rcases hlisted.token_cases with ⟨h0, _, _⟩ | ⟨h0, _, _⟩
  · simp [reserveOf, side, h0, hne]
  · simp [reserveOf, side, h0, hne, hne.symm]

theorem getReserves_eq (hlisted : x.Listed a b) (hsort : sortTokens a b = .ok (token0, token1)) :
    x.getReserves m a b =
      .ok (x.reserveOf m (x.getPair a b) a, x.reserveOf m (x.getPair a b) b) := by
  rw [← reserves_eq hlisted hsort]
  exact bind_eq_ok.mpr ⟨_, hsort, rfl⟩

end Pay

/-! ## The agreement with `_swap` -/

section Agreement

variable {recipient sender input output : Address} {path : List Address}

theorem mem_pairsAlong_tail {q a : Address} (hq : q ∈ x.pairsAlong path) :
    q ∈ x.pairsAlong (a :: path) := by
  cases path with
  | nil => cases hq
  | cons b path => exact List.mem_cons_of_mem _ hq

/-- Changes elsewhere leave the pairs of the path synced, and what the library computes. -/
theorem SyncedAlong.of_frame {m' : Market} (hsynced : x.SyncedAlong m path)
    (hpairs : ∀ q ∈ x.pairsAlong path, m'.pair q = m.pair q)
    (hbalances : ∀ q ∈ x.pairsAlong path, ∀ t, m'.balanceOf t q = m.balanceOf t q) :
    x.SyncedAlong m' path := by
  induction path with
  | nil => trivial
  | cons input path ih =>
      cases path with
      | nil => trivial
      | cons output path =>
          refine ⟨?_, ih hsynced.2 (fun q hq => hpairs q (List.mem_cons_of_mem _ hq))
            fun q hq => hbalances q (List.mem_cons_of_mem _ hq)⟩
          have hfirst : x.getPair input output ∈ x.pairsAlong (input :: output :: path) :=
            List.mem_cons_self
          show m'.balanceOf input _ = x.side _ input (m'.pair _).reserve0 (m'.pair _).reserve1
          rw [hbalances _ hfirst, hpairs _ hfirst]
          exact hsynced.1

theorem amountsAlong_of_frame {m' : Market} {amount : Nat}
    (hpairs : ∀ q ∈ x.pairsAlong path, m'.pair q = m.pair q) :
    x.amountsAlong m' amount path = x.amountsAlong m amount path := by
  induction path generalizing amount with
  | nil => rfl
  | cons input path ih =>
      cases path with
      | nil => rfl
      | cons output path =>
          have hfirst : x.getReserves m' input output = x.getReserves m input output := by
            unfold getReserves
            rw [hpairs _ List.mem_cons_self]
          have hrest : ∀ out, x.amountsAlong m' out (output :: path) =
              x.amountsAlong m out (output :: path) := fun out =>
            ih fun q hq => hpairs q (List.mem_cons_of_mem _ hq)
          simp only [amountsAlong, hfirst, hrest]

/-- After a pair has paid the next one: that one has got its input, and nothing else on the way has
changed. -/
theorem frame_of_pay {token : Address} {amount0 amount1 out : Nat}
    (hnodup : (x.pairsAlong (input :: output :: token :: path)).Nodup)
    (hlisted : x.Listed input output)
    (hout : x.side (x.getPair input output) output amount0 amount1 = out)
    (hsynced : x.SyncedAlong m (output :: token :: path)) {m₁ : Market}
    (hpay : m₁ = x.pay m (x.getPair input output) (x.getPair output token) amount0 amount1) :
    m₁.balanceOf output (x.getPair output token) =
        x.reserveOf m₁ (x.getPair output token) output + out ∧
      x.SyncedAlong m₁ (token :: path) ∧
      ∀ amount, x.amountsAlong m₁ amount (output :: token :: path) =
        x.amountsAlong m amount (output :: token :: path) := by
  subst hpay
  simp only [pairsAlong, List.nodup_cons] at hnodup
  rcases hnodup with ⟨hfirst, hsecond, _⟩
  have hnext : x.getPair output token ≠ x.getPair input output := fun heq =>
    hfirst (heq ▸ List.mem_cons_self)
  have hpairs : ∀ q ∈ x.pairsAlong (output :: token :: path), (x.pay m (x.getPair input output)
      (x.getPair output token) amount0 amount1).pair q = m.pair q := pay_pair_of_not_mem hfirst
  refine ⟨?_, ?_, fun amount => amountsAlong_of_frame hpairs⟩
  · rw [pay_balanceOf_recipient hlisted hnext (.inr rfl), hout, hsynced.1,
      reserveOf_pay_of_ne hnext]
  · apply hsynced.2.of_frame
    · intro q hq
      exact hpairs q (mem_pairsAlong_tail hq)
    · intro q hq t
      apply pay_balanceOf_of_ne
      · intro heq
        exact hfirst (heq ▸ mem_pairsAlong_tail hq)
      · intro heq
        exact hsecond (heq ▸ hq)

/-- Where a pair pays. -/
def payee (x : Exchange) (recipient output : Address) : List Address → Address
  | [] => recipient
  | token :: _ => x.getPair output token

/-- What is asked of a pair. -/
def asked (input token0 : Address) (out : Nat) : Nat × Nat :=
  if input = token0 then (0, out) else (out, 0)

/-- One pair of the loop of `getAmountsOut`. -/
theorem amountsAlong_cons_iff {amount : Nat} {amounts : List Nat} :
    x.amountsAlong m amount (input :: output :: path) = .ok amounts ↔
    ∃ reserves out rest, x.getReserves m input output = .ok reserves ∧
      getAmountOut amount reserves.1 reserves.2 = .ok out ∧
      x.amountsAlong m out (output :: path) = .ok (out :: rest) ∧
      amounts = amount :: out :: rest := by
  constructor
  · intro h
    simp only [amountsAlong, bind_eq_ok, pure_eq_ok] at h
    rcases h with ⟨reserves, hreserves, out, hout, tail, hrest, rfl⟩
    obtain ⟨rest, rfl, _⟩ := amountsAlong_eq_ok hrest
    exact ⟨reserves, out, rest, hreserves, hout, hrest, rfl⟩
  · rintro ⟨reserves, out, rest, hreserves, hout, hrest, rfl⟩
    exact bind_eq_ok.mpr ⟨_, hreserves, bind_eq_ok.mpr ⟨_, hout, bind_eq_ok.mpr ⟨_, hrest, rfl⟩⟩⟩

theorem amountsAlong_cons_eq_ok {amount : Nat} {amounts : List Nat}
    (hpair : x.Listed input output)
    (h : x.amountsAlong m amount (input :: output :: path) = .ok amounts) :
    ∃ out rest, getAmountOut amount (x.reserveOf m (x.getPair input output) input)
        (x.reserveOf m (x.getPair input output) output) = .ok out ∧
      x.amountsAlong m out (output :: path) = .ok (out :: rest) ∧
      amounts = amount :: out :: rest := by
  rcases amountsAlong_cons_iff.mp h with
    ⟨⟨reserveIn, reserveOut⟩, out, rest, hreserves, hout, hrest, rfl⟩
  rcases getReserves_eq_ok hpair hreserves with ⟨rfl, rfl⟩
  exact ⟨out, rest, hout, hrest, rfl⟩

/-- The first pair of `_swap`. -/
theorem swapped_cons_iff (hlisted : x.Listed input output) {amount : Nat} {m' : Market} :
    (∃ amounts, x.amountsAlong m amount (input :: output :: path) = .ok amounts ∧
      x._swap recipient amounts (input :: output :: path) m = .ok m') ↔
    ∃ tokens out amounts m₁, sortTokens input output = .ok tokens ∧
      getAmountOut amount (x.reserveOf m (x.getPair input output) input)
        (x.reserveOf m (x.getPair input output) output) = .ok out ∧
      x.amountsAlong m out (output :: path) = .ok amounts ∧
      x.swap (x.getPair input output) (asked input tokens.1 out).1 (asked input tokens.1 out).2
        (x.payee recipient output path) m = .ok m₁ ∧
      x._swap recipient amounts (output :: path) m₁ = .ok m' := by
  constructor
  · rintro ⟨amounts, hamounts, hswap⟩
    rcases amountsAlong_cons_eq_ok hlisted hamounts with ⟨out, rest, hout, hrest, rfl⟩
    simp only [_swap, bind_eq_ok] at hswap
    rcases hswap with ⟨tokens, hsort, m₁, hpaid, hend⟩
    exact ⟨tokens, out, _, m₁, hsort, hout, hrest, hpaid, hend⟩
  · rintro ⟨tokens, out, amounts, m₁, hsort, hout, hrest, hpaid, hend⟩
    obtain ⟨tail, rfl, _⟩ := amountsAlong_eq_ok hrest
    refine ⟨amount :: out :: tail, ?_, ?_⟩
    · exact amountsAlong_cons_iff.mpr
        ⟨_, out, tail, getReserves_eq hlisted hsort, hout, hrest, rfl⟩
    · exact bind_eq_ok.mpr ⟨_, hsort, bind_eq_ok.mpr ⟨_, hpaid, hend⟩⟩

/-- The first pair of the other loop, which has got `amount`. -/
theorem supporting_cons_iff (hlisted : x.Listed input output) {amount : Nat} {m' : Market}
    (hfirst : m.balanceOf input (x.getPair input output) =
      x.reserveOf m (x.getPair input output) input + amount) :
    x._swapSupportingFeeOnTransferTokens recipient (input :: output :: path) m = .ok m' ↔
    ∃ tokens out m₁, sortTokens input output = .ok tokens ∧
      getAmountOut amount (x.reserveOf m (x.getPair input output) input)
        (x.reserveOf m (x.getPair input output) output) = .ok out ∧
      x.swap (x.getPair input output) (asked input tokens.1 out).1 (asked input tokens.1 out).2
        (x.payee recipient output path) m = .ok m₁ ∧
      x._swapSupportingFeeOnTransferTokens recipient (output :: path) m₁ = .ok m' := by
  have hgot : SafeMath.sub (m.balanceOf input (x.getPair input output))
      (x.reserveOf m (x.getPair input output) input) = .ok amount := by
    apply SafeMath.sub_eq_ok.mpr
    omega
  constructor
  · intro h
    simp only [_swapSupportingFeeOnTransferTokens, bind_eq_ok] at h
    rcases h with ⟨tokens, hsort, h⟩
    rw [reserves_eq hlisted hsort] at h
    rcases h with ⟨amountInput, hinput, out, hout, m₁, hpaid, hend⟩
    rw [hgot] at hinput
    cases hinput
    exact ⟨tokens, out, m₁, hsort, hout, hpaid, hend⟩
  · rintro ⟨tokens, out, m₁, hsort, hout, hpaid, hend⟩
    refine bind_eq_ok.mpr ⟨_, hsort, ?_⟩
    dsimp only
    rw [reserves_eq hlisted hsort]
    exact bind_eq_ok.mpr ⟨_, hgot, bind_eq_ok.mpr ⟨_, hout, bind_eq_ok.mpr ⟨_, hpaid, hend⟩⟩⟩

/-- The two loops do the same, where the first pair has got its input already. -/
theorem swapped_iff_supporting (hx : x.Documented) {amount : Nat} {m' : Market}
    (hlisted : (input :: output :: path).IsChain x.Listed)
    (hnodup : (x.pairsAlong (input :: output :: path)).Nodup)
    (hfirst : m.balanceOf input (x.getPair input output) =
      x.reserveOf m (x.getPair input output) input + amount)
    (htail : x.SyncedAlong m (output :: path)) :
    (∃ amounts, x.amountsAlong m amount (input :: output :: path) = .ok amounts ∧
      x._swap recipient amounts (input :: output :: path) m = .ok m') ↔
    x._swapSupportingFeeOnTransferTokens recipient (input :: output :: path) m = .ok m' := by
  induction path generalizing input output amount m with
  -- one pair: what it was sent is what the router asked for
  | nil =>
      have hpair : x.Listed input output := List.isChain_pair.mp hlisted
      rw [swapped_cons_iff hpair, supporting_cons_iff hpair hfirst]
      constructor
      · rintro ⟨tokens, out, amounts, m₁, hsort, hout, hrest, hpaid, hend⟩
        cases hrest
        exact ⟨tokens, out, m₁, hsort, hout, hpaid, hend⟩
      · rintro ⟨tokens, out, m₁, hsort, hout, hpaid, hend⟩
        exact ⟨tokens, out, [out], m₁, hsort, hout, rfl, hpaid, hend⟩
  | cons token path ih =>
      rcases List.isChain_cons_cons.mp hlisted with ⟨hpair, hrest⟩
      -- a trade leaves the later pairs as they were quoted, but for the input it brings to the next
      have hagree : ∀ {tokens out m₁}, sortTokens input output = .ok tokens →
          x.swap (x.getPair input output) (asked input tokens.1 out).1
            (asked input tokens.1 out).2 (x.payee recipient output (token :: path)) m = .ok m₁ →
          ((∃ amounts, x.amountsAlong m out (output :: token :: path) = .ok amounts ∧
            x._swap recipient amounts (output :: token :: path) m₁ = .ok m') ↔
          x._swapSupportingFeeOnTransferTokens recipient (output :: token :: path) m₁ =
            .ok m') := by
        intro tokens out m₁ hsort hpaid
        rcases frame_of_pay hnodup hpair (side_output hpair hsort) htail (hx.swap hpaid) with
          ⟨hnext, hsynced, hamounts⟩
        rw [← hamounts out]
        exact ih hrest (List.nodup_cons.mp hnodup).2 hnext hsynced
      rw [swapped_cons_iff hpair, supporting_cons_iff hpair hfirst]
      constructor
      · rintro ⟨tokens, out, amounts, m₁, hsort, hout, hquote, hpaid, hend⟩
        exact ⟨tokens, out, m₁, hsort, hout, hpaid,
          (hagree hsort hpaid).mp ⟨amounts, hquote, hend⟩⟩
      · rintro ⟨tokens, out, m₁, hsort, hout, hpaid, hend⟩
        rcases (hagree hsort hpaid).mpr hend with ⟨amounts, hquote, hend⟩
        exact ⟨tokens, out, amounts, m₁, hsort, hout, hquote, hpaid, hend⟩

/-- An account that is none of the pairs. -/
theorem route_of_not_mem {holder : Address} (hlisted : path.IsChain x.Listed)
    (hholder : holder ∉ x.pairsAlong path) : x.Route holder path := by
  induction path with
  | nil => exact .nil
  | cons input path ih =>
      cases path with
      | nil => exact .singleton _
      | cons output path =>
          rcases List.isChain_cons_cons.mp hlisted with ⟨hpair, hrest⟩
          rcases not_or.mp (mt List.mem_cons.mpr hholder) with ⟨hne, hothers⟩
          exact List.isChain_cons_cons.mpr ⟨⟨hpair, hne⟩, ih hrest hothers⟩

/-- The market in which the first pair has been paid. -/
theorem paid_first (hnodup : (x.pairsAlong (input :: output :: path)).Nodup)
    (hsynced : x.SyncedAlong m (input :: output :: path))
    (hsender : sender ∉ x.pairsAlong (input :: output :: path)) (amount : Nat) :
    (m.move input sender (x.getPair input output) amount).balanceOf input
        (x.getPair input output) =
      x.reserveOf (m.move input sender (x.getPair input output) amount)
        (x.getPair input output) input + amount ∧
      x.SyncedAlong (m.move input sender (x.getPair input output) amount) (output :: path) := by
  rcases not_or.mp (mt List.mem_cons.mpr hsender) with ⟨hne, hothers⟩
  constructor
  · rw [move_balanceOf_recipient (Ne.symm hne), hsynced.1]
    rfl
  · apply hsynced.2.of_frame
    · intro q _
      rfl
    · intro q hq t
      apply move_balanceOf_of_ne
      refine .inr ⟨?_, ?_⟩
      · intro heq
        exact hothers (heq ▸ hq)
      · intro heq
        exact (List.nodup_cons.mp hnodup).1 (heq ▸ hq)

/-- What the recipient has gained at the end is the last of the amounts. -/
theorem gained_eq (hx : x.Documented) {amount : Nat} {amounts : List Nat} {m' : Market}
    (hroute : x.Route recipient (input :: output :: path))
    (hamounts : x.amountsAlong m amount (input :: output :: path) = .ok amounts)
    {m₁ : Market} (hswap : x._swap recipient amounts (input :: output :: path) m₁ = .ok m') :
    m'.balanceOf ((input :: output :: path).getLastD 0) recipient =
      m₁.balanceOf ((input :: output :: path).getLastD 0) recipient + amounts.getLastD 0 := by
  obtain ⟨rest, rfl, hlength⟩ := amountsAlong_eq_ok hamounts
  cases rest with
  | nil => cases hlength
  | cons out rest =>
      rw [List.getLastD_cons, List.getLastD_cons, List.getLastD_cons, List.getLastD_cons]
      exact _swap_balanceOf hx hroute (by simpa using hlength) hswap

end Agreement

/-- With standard tokens, and along listed pairs that are all different and hold their reserves
only, the two ways to sell tokens succeed for the same calls and leave the same. -/
theorem supportingFeeOnTransferTokens_iff (x : Exchange) (hx : x.Documented) (m m' : Market)
    (sender recipient : Address) (amountIn amountOutMin : Nat) (path : List Address)
    (hlisted : path.IsChain x.Listed) (hnodup : (x.pairsAlong path).Nodup)
    (hsynced : x.SyncedAlong m path) (hsender : sender ∉ x.pairsAlong path)
    (hrecipient : recipient ∉ x.pairsAlong path) :
    x.swapExactTokensForTokensSupportingFeeOnTransferTokens m sender amountIn amountOutMin path
        recipient = .ok m' ↔
      x.swapExactTokensForTokens m sender amountIn amountOutMin path recipient = .ok m' := by
  match path with
  | [] => simp [swapExactTokensForTokensSupportingFeeOnTransferTokens, swapExactTokensForTokens,
      getAmountsOut, require]
  | [token] => simp [swapExactTokensForTokensSupportingFeeOnTransferTokens,
      swapExactTokensForTokens, getAmountsOut, require]
  | input :: output :: path =>
      have hroute := route_of_not_mem hlisted hrecipient
      rcases paid_first hnodup hsynced hsender amountIn with ⟨hfirst, htail⟩
      have hagree : (∃ amounts, x.amountsAlong m amountIn (input :: output :: path) = .ok amounts ∧
          x._swap recipient amounts (input :: output :: path)
            (m.move input sender (x.getPair input output) amountIn) = .ok m') ↔
          x._swapSupportingFeeOnTransferTokens recipient (input :: output :: path)
            (m.move input sender (x.getPair input output) amountIn) = .ok m' := by
        -- the transfer to the first pair changes no reserve, so the quote is the same after it
        have hquote : x.amountsAlong (m.move input sender (x.getPair input output) amountIn)
            amountIn (input :: output :: path) =
              x.amountsAlong m amountIn (input :: output :: path) :=
          amountsAlong_of_frame fun _ _ => rfl
        rw [← hquote]
        exact swapped_iff_supporting hx hlisted hnodup hfirst htail
      constructor
      · intro h
        simp only [swapExactTokensForTokensSupportingFeeOnTransferTokens,
          Market.safeTransferFrom, bind_eq_ok, require_eq_ok, pure_eq_ok, SafeMath.sub_eq_ok] at h
        rcases h with ⟨_, hlength, _, ⟨_, hle, rfl⟩, _, hswap, _, ⟨_, rfl⟩, _, hmin, rfl⟩
        rcases hagree.mpr hswap with ⟨amounts, hamounts, hswapped⟩
        -- the recipient gains the last amount quoted, so both test the same number
        have hgained := gained_eq hx hroute hamounts hswapped
        rw [hgained, List.headD_cons, List.tail_cons, List.headD_cons,
          Nat.add_sub_cancel_left] at hmin
        obtain ⟨rest, rfl, _⟩ := amountsAlong_eq_ok hamounts
        simp only [swapExactTokensForTokens, getAmountsOut, Market.safeTransferFrom, bind_eq_ok,
          require_eq_ok, pure_eq_ok]
        exact ⟨_, ⟨(), hlength, hamounts⟩, (), hmin, _, ⟨(), hle, rfl⟩, hswapped⟩
      · intro h
        simp only [swapExactTokensForTokens, getAmountsOut, Market.safeTransferFrom, bind_eq_ok,
          require_eq_ok, pure_eq_ok] at h
        rcases h with ⟨amounts, ⟨_, hlength, hamounts⟩, _, hmin, _, ⟨_, hle, rfl⟩, hswapped⟩
        obtain ⟨rest, rfl, _⟩ := amountsAlong_eq_ok hamounts
        have hgained := gained_eq hx hroute hamounts hswapped
        have hswap := hagree.mp ⟨_, hamounts, hswapped⟩
        simp only [swapExactTokensForTokensSupportingFeeOnTransferTokens,
          Market.safeTransferFrom, bind_eq_ok, require_eq_ok, pure_eq_ok, SafeMath.sub_eq_ok]
        refine ⟨(), hlength, _, ⟨(), hle, rfl⟩, m', hswap, _, ⟨?_, rfl⟩, (), ?_, rfl⟩
        · rw [hgained]
          exact Nat.le_add_right _ _
        · rw [hgained]
          rw [List.headD_cons, List.headD_cons, Nat.add_sub_cancel_left]
          exact hmin

/-- Account 50 sells 500 of the token 3 for the token 4, by way of the token 1. -/
def seller : Market := Worker.market.setBalance 3 50 1000

theorem seller_listed : List.IsChain Worker.exchange.Listed [3, 1, 4] := by
  refine List.isChain_cons_cons.mpr ⟨⟨by decide, rfl, by decide, by decide⟩, ?_⟩
  exact List.isChain_pair.mpr ⟨by decide, rfl, by decide, by decide⟩

theorem supportingFeeOnTransferTokens_iff_seller : ∃ m',
    Worker.exchange.swapExactTokensForTokensSupportingFeeOnTransferTokens seller 50 500 400
      [3, 1, 4] 50 = .ok m' ∧
    Worker.exchange.swapExactTokensForTokens seller 50 500 400 [3, 1, 4] 50 = .ok m' := by
  have htest : (Worker.exchange.swapExactTokensForTokens seller 50 500 400
    [3, 1, 4] 50).isOk = true := by decide +kernel
  cases hswap : Worker.exchange.swapExactTokensForTokens seller 50 500 400 [3, 1, 4] 50 with
  | error e =>
      rw [hswap] at htest
      cases htest
  | ok m' =>
      have hagree := supportingFeeOnTransferTokens_iff Worker.exchange Worker.exchange_documented
        seller m' 50 50 500 400 [3, 1, 4] seller_listed (by decide) ⟨rfl, rfl, trivial⟩ (by decide)
        (by decide)
      exact ⟨m', hagree.mpr hswap, rfl⟩

end Huski.Pancake.Exchange
