import Huski.Pancake.Product

/-!
# There and back

The two ways to compute amounts agree: what `getAmountsIn` asks for suffices at every pair of the
path, and at each of them it is the least that does, or one more. And a trade along a path and back
wins nothing: whoever sells what it got, or less of it, along the reverse path gets at most what it
paid.
-/

open Solidity

namespace Huski.Pancake.Exchange

open Factory

variable {x : Exchange} {m m' m₁ : Market} {path : List Address}

theorem getAmountOut_pos {amountIn reserveIn reserveOut out : Nat}
    (h : getAmountOut amountIn reserveIn reserveOut = .ok out) :
    0 < reserveIn ∧ 0 < reserveOut := by
  simp only [getAmountOut, bind_eq_ok, require_eq_ok] at h
  rcases h with ⟨_, _, _, hreserves, _⟩
  exact hreserves

/-! ## What is asked for suffices -/

/-- More along the way of what the pairs owe for more. -/
theorem amountsAlong_mono {amount : Nat} {amounts amounts' : List Nat}
    (hlisted : path.IsChain x.Listed) (hlength : amounts.length = path.length)
    (hquoted : x.Quoted m amounts path) (hle : amounts.headD 0 ≤ amount)
    (h : x.amountsAlong m amount path = .ok amounts') (hpath : path ≠ []) :
    List.Forall₂ (· ≤ ·) amounts amounts' := by
  induction path generalizing amount amounts amounts' with
  | nil => exact absurd rfl hpath
  | cons input path ih =>
      match path, amounts with
      | _, [] => simp at hlength
      | [], [a] =>
          cases h
          exact .cons hle .nil
      | [], _ :: _ :: _ => simp at hlength
      | _ :: _, [_] => simp at hlength
      | output :: path, amountIn :: amountOut :: amounts =>
          rcases List.isChain_cons_cons.mp hlisted with ⟨hpair, hrest⟩
          rcases amountsAlong_cons_eq_ok hpair h with ⟨out, rest, hout, hamounts, rfl⟩
          have hreserves := getAmountOut_pos hout
          refine .cons hle (ih hrest (Nat.succ.inj hlength) hquoted.2 ?_ hamounts (by simp))
          rw [(getAmountOut_eq_ok hout).2]
          apply hquoted.1.trans
          rw [sale_eq_output, sale_eq_output]
          exact ConstantProduct.output_mono (by decide) hreserves.1 hle

theorem getLastD_le {l l' : List Nat} {a a' : Nat} (h : List.Forall₂ (· ≤ ·) l l')
    (hle : a ≤ a') : l.getLastD a ≤ l'.getLastD a' := by
  induction h generalizing a a' with
  | nil => exact hle
  | cons hfirst _ ih =>
      rw [List.getLastD_cons, List.getLastD_cons]
      exact ih hfirst

/-- Of a list that has a last element the default does not matter. -/
theorem getLastD_cons_of_length {l : List Nat} {n : Nat} (a b : Nat) (h : l.length = n + 1) :
    (a :: l).getLastD b = l.getLastD b := by
  cases l with
  | nil => cases h
  | cons c l =>
      rw [List.getLastD_cons, List.getLastD_cons, List.getLastD_cons]

/-- At each pair no amount that is smaller by two suffices. -/
def Least (x : Exchange) (m : Market) : List Nat → List Address → Prop
  | amountIn :: amountOut :: amounts, input :: output :: path =>
      (∀ amount, amountOut ≤ sale amount (x.reserveOf m (x.getPair input output) input)
        (x.reserveOf m (x.getPair input output) output) → amountIn ≤ amount + 1) ∧
      Least x m (amountOut :: amounts) (output :: path)
  | _, _ => True

theorem amountsBack_least {amountOut : Nat} {amounts : List Nat}
    (hlisted : path.IsChain x.Listed) (h : x.amountsBack m amountOut path = .ok amounts) :
    x.Least m amounts path := by
  induction path generalizing amounts with
  | nil =>
      cases h
      trivial
  | cons input path ih =>
      cases path with
      | nil =>
          cases h
          trivial
      | cons output path =>
          rcases List.isChain_cons_cons.mp hlisted with ⟨hpair, hrest⟩
          simp only [amountsBack, bind_eq_ok, pure_eq_ok] at h
          rcases h with ⟨rest, hamounts, ⟨reserveIn, reserveOut⟩, hreserves, amountIn, hin, rfl⟩
          rcases getReserves_eq_ok hpair hreserves with ⟨rfl, rfl⟩
          rcases getAmountIn_eq_ok hin with ⟨_, _, rfl⟩
          have hleast := ih hrest hamounts
          cases rest with
          | nil => trivial
          | cons out tail =>
              refine ⟨?_, hleast⟩
              intro amount hsuffices
              -- an input that suffices is at least the rounded one
              exact ConstantProduct.input_le (sale_eq_output _ _ _ ▸ hsuffices)

/-- What `getAmountsIn` asks for an amount suffices: `getAmountsOut` of it gives at least as much at
every pair of the path, and so at least the amount in the end. At every pair it is the least that
suffices there, or one more. -/
theorem getAmountsOut_of_getAmountsIn (x : Exchange) (m : Market) (path : List Address)
    (amountOut : Nat) (amounts amounts' : List Nat) (hlisted : path.IsChain x.Listed)
    (hin : x.getAmountsIn m amountOut path = .ok amounts)
    (hout : x.getAmountsOut m (amounts.headD 0) path = .ok amounts') :
    List.Forall₂ (· ≤ ·) amounts amounts' ∧ amountOut ≤ amounts'.getLastD 0 ∧
      x.Least m amounts path := by
  simp only [getAmountsIn, getAmountsOut, bind_eq_ok, require_eq_ok] at hin hout
  rcases hin with ⟨_, hlength, hin⟩
  rcases hout with ⟨_, _, hout⟩
  cases path with
  | nil => simp at hlength
  | cons input path =>
      rcases amountsBack_eq_ok hin with ⟨hcount, hlast⟩
      have hmore := amountsAlong_mono hlisted (by simpa using hcount)
        (amountsBack_quoted hlisted hin) le_rfl hout (by simp)
      refine ⟨hmore, ?_, amountsBack_least hlisted hin⟩
      have hend := getLastD_le hmore (le_refl 0)
      rw [List.getLastD_eq_getLast?, hlast] at hend
      exact hend

theorem getAmountsOut_of_getAmountsIn_hundred :
    Worker.exchange.getAmountsIn Worker.market 100 [3, 1, 4] = .ok [104, 102, 100] ∧
    ∃ amounts', Worker.exchange.getAmountsOut Worker.market 104 [3, 1, 4] = .ok amounts' ∧
      100 ≤ amounts'.getLastD 0 := by
  have hin : Worker.exchange.getAmountsIn Worker.market 100 [3, 1, 4] = .ok [104, 102, 100] := by
    decide +kernel
  have htest : (Worker.exchange.getAmountsOut Worker.market 104 [3, 1, 4]).isOk = true := by
    decide +kernel
  cases hout : Worker.exchange.getAmountsOut Worker.market 104 [3, 1, 4] with
  | error e =>
      rw [hout] at htest
      cases htest
  | ok amounts' =>
      have hsuffices := getAmountsOut_of_getAmountsIn Worker.exchange Worker.market [3, 1, 4] 100
        [104, 102, 100] amounts' seller_listed hin hout
      exact ⟨hin, amounts', rfl, hsuffices.2.1⟩

/-! ## A trade and the reserves after it -/

/-- Every pair of the path holds its reserves and no more. -/
def Balanced (x : Exchange) (m : Market) (path : List Address) : Prop :=
  ∀ q ∈ x.pairsAlong path, m.balanceOf (x.token0 q) q = (m.pair q).reserve0 ∧
    m.balanceOf (x.token1 q) q = (m.pair q).reserve1

/-- Every pair of the path has taken the one amount and paid the next. -/
def Exchanged (x : Exchange) (m m' : Market) : List Nat → List Address → Prop
  | amountIn :: amountOut :: amounts, input :: output :: path =>
      (x.reserveOf m' (x.getPair input output) input =
          x.reserveOf m (x.getPair input output) input + amountIn ∧
        x.reserveOf m' (x.getPair input output) output =
          x.reserveOf m (x.getPair input output) output - amountOut) ∧
      Exchanged x m m' (amountOut :: amounts) (output :: path)
  | _, _ => True

theorem Balanced.balanceOf_eq {input output t : Address}
    (h : x.Balanced m (input :: output :: path)) (hpair : x.Listed input output)
    (ht : t = input ∨ t = output) :
    m.balanceOf t (x.getPair input output) = x.reserveOf m (x.getPair input output) t := by
  rcases h _ List.mem_cons_self with ⟨h0, h1⟩
  unfold reserveOf side
  split
  · rename_i htoken
    rw [← htoken]
    exact h0
  · rename_i htoken
    rw [← hpair.token1_eq ht htoken]
    exact h1

theorem Exchanged.of_frame {amounts : List Nat} (h : x.Exchanged m₁ m' amounts path)
    (hpairs : ∀ q ∈ x.pairsAlong path, m₁.pair q = m.pair q) : x.Exchanged m m' amounts path := by
  induction path generalizing amounts with
  | nil => cases amounts with
    | nil => trivial
    | cons amountIn amounts => cases amounts <;> trivial
  | cons input path ih =>
      match amounts, path with
      | [], _ => trivial
      | [_], _ => trivial
      | _ :: _ :: _, [] => trivial
      | amountIn :: amountOut :: amounts, output :: path =>
          refine ⟨?_, ih h.2 fun q hq => hpairs q (List.mem_cons_of_mem _ hq)⟩
          have hfirst : m₁.pair (x.getPair input output) = m.pair (x.getPair input output) :=
            hpairs _ List.mem_cons_self
          have hexchanged := h.1
          simp only [reserveOf, hfirst] at hexchanged ⊢
          exact hexchanged

/-- The pairs that are not on the path stay as they are. -/
theorem _swap_pair_of_not_mem (hx : x.Documented) {recipient q : Address} {amounts : List Nat}
    (hq : q ∉ x.pairsAlong path) (h : x._swap recipient amounts path m = .ok m') :
    m'.pair q = m.pair q := by
  fun_induction x._swap recipient amounts path m with
  | case1 amountIn amountOut amounts input output path m ih =>
      rcases not_or.mp (mt List.mem_cons.mpr hq) with ⟨hne, hothers⟩
      simp only [bind_eq_ok] at h
      rcases h with ⟨_, _, m₁, hswap, hrest⟩
      rw [ih m₁ hothers hrest, hx.swap hswap, pay_pair_of_ne hne]
  | case2 =>
      cases h
      rfl

/-- The first pair has got its input, and the other pairs of the path hold their reserves. -/
def Funded (x : Exchange) (m : Market) : List Nat → List Address → Prop
  | amountIn :: _, input :: output :: path =>
      m.balanceOf input (x.getPair input output) =
          x.reserveOf m (x.getPair input output) input + amountIn ∧
        m.balanceOf output (x.getPair input output) =
          x.reserveOf m (x.getPair input output) output ∧
        x.Balanced m (output :: path)
  | _, _ => True

theorem _swap_exchanged (hx : x.Documented) {recipient : Address} {amounts : List Nat}
    (hlisted : path.IsChain x.Listed) (hnodup : (x.pairsAlong path).Nodup)
    (hrecipient : recipient ∉ x.pairsAlong path) (hfunded : x.Funded m amounts path)
    (h : x._swap recipient amounts path m = .ok m') : x.Exchanged m m' amounts path := by
  fun_induction x._swap recipient amounts path m with
  | case1 amountIn amountOut amounts input output path m ih =>
      rcases List.isChain_cons_cons.mp hlisted with ⟨hpair, htail⟩
      rcases List.nodup_cons.mp hnodup with ⟨hfirst, hothers⟩
      rcases not_or.mp (mt List.mem_cons.mpr hrecipient) with ⟨hne, hnot⟩
      rcases hfunded with ⟨hinput, houtput, hbalanced⟩
      simp only [bind_eq_ok] at h
      rcases h with ⟨tokens, hsort, m₁, hswap, hrest⟩
      have hpays : m₁ = x.pay m (x.getPair input output) (x.payee recipient output path)
          (asked input tokens.1 amountOut).1 (asked input tokens.1 amountOut).2 := hx.swap hswap
      have hnext : x.payee recipient output path ≠ x.getPair input output := by
        cases path with
        | nil => exact hne
        | cons token path => exact fun heq => hfirst (heq ▸ List.mem_cons_self)
      have hnone : x.side (x.getPair input output) input (asked input tokens.1 amountOut).1
          (asked input tokens.1 amountOut).2 = 0 := side_input hpair hsort
      have hall : x.side (x.getPair input output) output (asked input tokens.1 amountOut).1
          (asked input tokens.1 amountOut).2 = amountOut := side_output hpair hsort
      have hframe : ∀ q ∈ x.pairsAlong (output :: path), m₁.pair q = m.pair q := by
        rw [hpays]
        exact pay_pair_of_not_mem hfirst
      -- the pairs that follow leave this one as it is
      have hstays : ∀ t, x.reserveOf m' (x.getPair input output) t =
          x.reserveOf m₁ (x.getPair input output) t := by
        intro t
        unfold reserveOf
        rw [_swap_pair_of_not_mem hx hfirst hrest]
      refine ⟨⟨?_, ?_⟩, (ih m₁ htail hothers hnot ?_ hrest).of_frame hframe⟩
      · rw [hstays, hpays, pay_reserveOf hpair hnext (.inl rfl), hnone, Nat.sub_zero, hinput]
      · rw [hstays, hpays, pay_reserveOf hpair hnext (.inr rfl), hall, houtput]
      · cases path with
        | nil => trivial
        | cons token path =>
            have hsecond := (List.isChain_cons_cons.mp htail).1
            simp only [payee] at hpays hnext
            have hreserve : ∀ t, x.reserveOf m₁ (x.getPair output token) t =
                x.reserveOf m (x.getPair output token) t := by
              intro t
              rw [hpays, reserveOf_pay_of_ne hnext]
            refine ⟨?_, ?_, ?_⟩
            · rw [hreserve, ← hbalanced.balanceOf_eq hsecond (.inl rfl), hpays]
              rw [pay_balanceOf_recipient hpair hnext (.inr rfl), hall]
            · rw [hreserve, ← hbalanced.balanceOf_eq hsecond (.inr rfl), hpays]
              exact pay_output_of_ne hpair hnext hsecond.ne.symm hnone
            · intro q hq
              have hother : q ≠ x.getPair output token := fun heq =>
                (List.nodup_cons.mp hothers).1 (heq ▸ hq)
              have hthis : q ≠ x.getPair input output := fun heq =>
                hfirst (heq ▸ List.mem_cons_of_mem _ hq)
              have hkept : ∀ t, m₁.balanceOf t q = m.balanceOf t q := by
                intro t
                rw [hpays]
                exact pay_balanceOf_of_ne hthis hother
              rw [hkept, hkept, hframe q (List.mem_cons_of_mem _ hq)]
              exact hbalanced q (List.mem_cons_of_mem _ hq)
  | case2 amounts path m hnone =>
      match amounts, path with
      | [], _ => trivial
      | [_], _ => trivial
      | _ :: _ :: _, [] => trivial
      | _ :: _ :: _, [_] => trivial
      | _ :: _ :: _, _ :: _ :: _ => exact absurd rfl (hnone _ _ _ _ _ _ rfl)

/-! ## Back along the path -/

/-- The last pair of a path. -/
theorem amountsAlong_append_eq_ok {a b : Address} {c : Nat} {bs : List Nat} (path : List Address)
    (hpair : x.Listed a b) (h : x.amountsAlong m c (path ++ [a, b]) = .ok bs) :
    ∃ bs', x.amountsAlong m c (path ++ [a]) = .ok bs' ∧
      getAmountOut (bs'.getLastD 0) (x.reserveOf m (x.getPair a b) a)
        (x.reserveOf m (x.getPair a b) b) = .ok (bs.getLastD 0) := by
  induction path generalizing c bs with
  | nil =>
      rcases amountsAlong_cons_eq_ok hpair h with ⟨out, rest, hout, hrest, rfl⟩
      cases hrest
      exact ⟨[c], rfl, hout⟩
  | cons token path ih =>
      obtain ⟨next, front, hsplit⟩ :
          ∃ next front, ∀ tail, path ++ a :: tail = next :: (front ++ tail) := by
        cases path with
        | nil => exact ⟨a, [], fun _ => rfl⟩
        | cons next path => exact ⟨next, path ++ [a], fun tail => by simp⟩
      rw [List.cons_append, hsplit] at h ⊢
      rcases amountsAlong_cons_iff.mp h with ⟨reserves, out, rest, hreserves, hout, hrest, rfl⟩
      rw [← hsplit] at hrest
      rcases ih hrest with ⟨bs', hbs', hend⟩
      obtain ⟨rest', rfl, _⟩ := amountsAlong_eq_ok hbs'
      rw [hsplit] at hbs'
      refine ⟨_, amountsAlong_cons_iff.mpr ⟨_, _, _, hreserves, hout, hbs', rfl⟩, ?_⟩
      simpa only [List.getLastD_cons] using hend

/-- Whoever goes back along the path with no more than it has given gets no more than it has
taken. -/
theorem amountsAlong_back_le {amounts bs : List Nat} {c : Nat} (hlisted : path.IsChain x.Listed)
    (hlength : amounts.length = path.length) (hquoted : x.Quoted m amounts path)
    (hexchanged : x.Exchanged m m₁ amounts path) (hc : c ≤ amounts.getLastD 0)
    (h : x.amountsAlong m₁ c path.reverse = .ok bs) : bs.getLastD 0 ≤ amounts.headD 0 := by
  induction path generalizing amounts bs with
  | nil =>
      cases h
      obtain rfl := List.length_eq_zero_iff.mp hlength
      exact hc
  | cons input path ih =>
      match path, amounts with
      -- as many amounts as tokens
      | _, [] => simp at hlength
      | [], [a] =>
          cases h
          exact hc
      | [], _ :: _ :: _ => simp at hlength
      | _ :: _, [_] => simp at hlength
      | output :: path, amountIn :: amountOut :: amounts =>
          rcases List.isChain_cons_cons.mp hlisted with ⟨hpair, hrest⟩
          rw [List.reverse_cons, List.reverse_cons, List.append_assoc] at h
          rcases amountsAlong_append_eq_ok _ hpair.symm h with ⟨bs', hbs', hlast⟩
          rw [getLastD_cons_of_length amountIn 0 (List.length_cons ..)] at hc
          rw [← List.reverse_cons] at hbs'
          -- the way back passes the rest first, and arrives here with no more than was paid out
          have hback := ih hrest (Nat.succ.inj hlength) hquoted.2 hexchanged.2 hc hbs'
          rcases hexchanged.1 with ⟨hin, hout⟩
          rw [hpair.symm.comm, hin, hout] at hlast
          have hreserves := getAmountOut_pos hlast
          rw [(getAmountOut_eq_ok hlast).2, sale_eq_output]
          apply (ConstantProduct.output_mono (by decide) hreserves.1 hback).trans
          have hpos : 0 < x.reserveOf m (x.getPair input output) output := by omega
          -- selling the output back yields at most the input, twice the fee apart
          exact ConstantProduct.output_back_le (by decide) (by decide) hpos
            (sale_eq_output _ _ _ ▸ hquoted.1)

theorem funded_of_transfer {sender input output : Address} {amount : Nat} {amounts : List Nat}
    (hlisted : (input :: output :: path).IsChain x.Listed)
    (hnodup : (x.pairsAlong (input :: output :: path)).Nodup)
    (hbalanced : x.Balanced m (input :: output :: path))
    (hsender : sender ∉ x.pairsAlong (input :: output :: path))
    (h : m.safeTransferFrom input sender (x.getPair input output) amount = .ok m₁) :
    x.Funded m₁ (amount :: amounts) (input :: output :: path) := by
  have hpair := (List.isChain_cons_cons.mp hlisted).1
  rcases not_or.mp (mt List.mem_cons.mpr hsender) with ⟨hne, hothers⟩
  simp only [Market.safeTransferFrom, bind_eq_ok, pure_eq_ok] at h
  rcases h with ⟨_, _, rfl⟩
  refine ⟨?_, ?_, ?_⟩
  · rw [move_balanceOf_recipient (Ne.symm hne), hbalanced.balanceOf_eq hpair (.inl rfl)]
    rfl
  · rw [move_balanceOf_of_ne (.inl hpair.ne.symm)]
    exact hbalanced.balanceOf_eq hpair (.inr rfl)
  · intro q hq
    have hthis : q ≠ x.getPair input output := fun heq =>
      (List.nodup_cons.mp hnodup).1 (heq ▸ hq)
    have hother : q ≠ sender := fun heq => hothers (heq ▸ hq)
    rw [move_balanceOf_of_ne (.inr ⟨hother, hthis⟩), move_balanceOf_of_ne (.inr ⟨hother, hthis⟩)]
    exact hbalanced q (List.mem_cons_of_mem _ hq)

/-- The ends of the way back. -/
theorem reverse_ends (input output : Address) (path : List Address) :
    ∃ l0 l1 back, (input :: output :: path).reverse = l0 :: l1 :: back ∧
      l0 = path.getLastD output ∧ back.getLastD l1 = input := by
  match hback : (input :: output :: path).reverse with
  | [] => simp at hback
  | [_] =>
      have hlength := congrArg List.length hback
      simp at hlength
  | l0 :: l1 :: back =>
      refine ⟨l0, l1, back, rfl, ?_, ?_⟩
      · have hhead := congrArg List.head? hback
        rw [List.head?_reverse, List.getLast?_cons_cons, List.getLast?_cons] at hhead
        exact (Option.some.inj hhead).symm.trans List.getLastD_eq_getLast?.symm
      · have hlast := congrArg List.getLast? hback
        rw [List.getLast?_reverse, List.getLast?_cons_cons, List.getLast?_cons] at hlast
        exact List.getLastD_eq_getLast?.trans (Option.some.inj hlast).symm

/-- Whoever sells along a path of different pairs that hold their reserves, and then sells the
proceeds, or less of them, along the path back, has in the end no more of the first token than at
the start, and no less of the last one. -/
theorem round_trip (x : Exchange) (hx : x.Documented) (m m₁ m₂ : Market)
    (sender input output : Address) (path : List Address)
    (amount amountOutMin back backOutMin : Nat)
    (hlisted : (input :: output :: path).IsChain x.Listed)
    (hnodup : (x.pairsAlong (input :: output :: path)).Nodup)
    (hbalanced : x.Balanced m (input :: output :: path))
    (hsender : sender ∉ x.pairsAlong (input :: output :: path))
    (hends : path.getLastD output ≠ input)
    (hthere : x.swapExactTokensForTokens m sender amount amountOutMin (input :: output :: path)
      sender = .ok m₁)
    (hproceeds : back ≤ m₁.balanceOf (path.getLastD output) sender -
      m.balanceOf (path.getLastD output) sender)
    (hback : x.swapExactTokensForTokens m₁ sender back backOutMin (input :: output :: path).reverse
      sender = .ok m₂) :
    m₂.balanceOf input sender ≤ m.balanceOf input sender ∧
      m.balanceOf (path.getLastD output) sender ≤ m₂.balanceOf (path.getLastD output) sender := by
  have hroute := route_of_not_mem hlisted hsender
  have hrouteBack : x.Route sender (input :: output :: path).reverse := by
    unfold Route
    rw [List.isChain_reverse]
    apply List.IsChain.imp _ hroute
    rintro a b ⟨hpair, hne⟩
    exact ⟨hpair.symm, hpair.comm ▸ hne⟩
  obtain ⟨l0, l1, way, hreverse, hl0, hway⟩ := reverse_ends input output path
  -- there
  simp only [swapExactTokensForTokens, getAmountsOut, bind_eq_ok, require_eq_ok] at hthere hback
  rcases hthere with ⟨amounts, ⟨_, _, hamounts⟩, _, _, mt, hsend, hswap⟩
  have hquoted := amountsAlong_quoted hlisted hamounts
  obtain ⟨rest, rfl, hlength⟩ := amountsAlong_eq_ok hamounts
  have hfunded : x.Funded mt (amount :: rest) (input :: output :: path) :=
    funded_of_transfer hlisted hnodup hbalanced hsender hsend
  have hexchanged := (_swap_exchanged hx hlisted hnodup hsender hfunded hswap).of_frame
    fun q _ => congrFun (safeTransferFrom_lp hsend) q
  have htraded : x.Traded m m₁ sender (input :: output :: path) input (path.getLastD output) amount
      (rest.getLastD 0) :=
    traded_of_swap hx hroute hends (by simpa using hlength) hsend hswap
  have hgot : back ≤ (amount :: rest).getLastD 0 := by
    rw [getLastD_cons_of_length amount 0 hlength]
    rw [htraded.last, Nat.add_sub_cancel_left] at hproceeds
    exact hproceeds
  -- and back
  rcases hback with ⟨bs, ⟨_, _, hbs⟩, _, _, mb, hsendBack, hswapBack⟩
  have hwon := amountsAlong_back_le hlisted (by simpa using hlength) hquoted hexchanged hgot hbs
  obtain ⟨restBack, rfl, hlengthBack⟩ := amountsAlong_eq_ok hbs
  rw [hreverse] at hsendBack hswapBack hrouteBack hlengthBack
  have hendsBack : way.getLastD l1 ≠ l0 := by
    rw [hway, hl0]
    exact hends.symm
  have htradedBack : x.Traded m₁ m₂ sender (l0 :: l1 :: way) l0 (way.getLastD l1) back
      (restBack.getLastD 0) :=
    traded_of_swap hx hrouteBack hendsBack (by simpa using hlengthBack) hsendBack hswapBack
  rw [hway, hl0] at htradedBack
  have hgain : restBack.getLastD 0 ≤ amount := by
    rw [getLastD_cons_of_length back 0 hlengthBack] at hwon
    exact hwon
  have hlast := htraded.last
  have hinput := htraded.input
  have hpaid := htraded.paid_le
  constructor
  · rw [htradedBack.last, hinput]
    omega
  · rw [htradedBack.input, hlast]
    omega

/-- The seller goes back with 450 of what it got. -/
theorem round_trip_seller : ∃ m₁ m₂,
    Worker.exchange.swapExactTokensForTokens seller 50 500 400 [3, 1, 4] 50 = .ok m₁ ∧
    Worker.exchange.swapExactTokensForTokens m₁ 50 450 0 [4, 1, 3] 50 = .ok m₂ ∧
    m₂.balanceOf 3 50 ≤ seller.balanceOf 3 50 := by
  have htest : (do
      let m₁ ← Worker.exchange.swapExactTokensForTokens seller 50 500 400 [3, 1, 4] 50
      require (450 ≤ m₁.balanceOf 4 50 - seller.balanceOf 4 50) ""
      Worker.exchange.swapExactTokensForTokens m₁ 50 450 0 [4, 1, 3] 50).isOk = true := by
    decide +kernel
  cases hrun : (do
      let m₁ ← Worker.exchange.swapExactTokensForTokens seller 50 500 400 [3, 1, 4] 50
      require (450 ≤ m₁.balanceOf 4 50 - seller.balanceOf 4 50) ""
      Worker.exchange.swapExactTokensForTokens m₁ 50 450 0 [4, 1, 3] 50) with
  | error e =>
      rw [hrun] at htest
      cases htest
  | ok m₂ =>
      simp only [bind_eq_ok, require_eq_ok] at hrun
      rcases hrun with ⟨m₁, hthere, _, hproceeds, hback⟩
      -- the two pairs of the path hold what their reserves say
      have hbalanced : Worker.exchange.Balanced seller [3, 1, 4] := by
        intro q hq
        have hpairs : Worker.exchange.pairsAlong [3, 1, 4] = [104, 105] := rfl
        rw [hpairs] at hq
        simp only [List.mem_cons, List.not_mem_nil, or_false] at hq
        rcases hq with rfl | rfl
        · exact ⟨rfl, rfl⟩
        · exact ⟨rfl, rfl⟩
      have htrip := round_trip Worker.exchange Worker.exchange_documented seller m₁ m₂ 50 3 1 [4]
        500 400 450 0 seller_listed (by decide) hbalanced (by decide) (by decide) hthere hproceeds
        hback
      exact ⟨m₁, m₂, hthere, hback, htrip.1⟩

end Huski.Pancake.Exchange
