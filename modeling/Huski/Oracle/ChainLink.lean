import Huski.Lib.TSys

/-!
# The Chainlink price oracle

`ChainLinkPriceOracle.sol`. A feed is set for one order of two tokens, and the price in the other
order is read from it as the inverse. The feeds are contracts outside of the repository: what they
answer is a parameter, with the answer as the signed word that it is.

Both orders round down, so that the product of the prices is one up to a unit of each. The answer is
taken as unsigned without a look at its sign: the direct branch then accepts the answer 0, and the
inverse one all negative answers.
-/

open Solidity

namespace Huski.Oracle

/-- What `getPrice` reads of `latestRoundData`. -/
structure RoundData where
  /-- an `int256` -/
  answer : BitVec 256
  updatedAt : Nat

/-- `AggregatorV3Interface`, as it answers in one call of `getPrice`. -/
structure Aggregator where
  latestRoundData : Result RoundData
  decimals : Result UInt8

/-- The storage of the oracle: the feeds of ordered pairs. -/
structure ChainLinkPriceOracle where
  initialized : Bool := false
  owner : Address := 0
  /-- from token0 and token1 to the source, or to 0 -/
  priceFeeds : Address → Address → Address := fun _ _ => 0

namespace ChainLinkPriceOracle

/-! ## The feeds -/

section Feeds

variable (sender : Address) (o : ChainLinkPriceOracle)

def onlyOwner : Result Unit := require (o.owner = sender) "Ownable: caller is not the owner"

/-- `initialize` -/
def initOracle : Result ChainLinkPriceOracle := do
  require (o.initialized = false) "Contract instance has already been initialized"
  return { o with initialized := true, owner := sender }

/-- A pair has one feed, in one of its orders. -/
def _setPriceFeed (token0 token1 source : Address) : Result ChainLinkPriceOracle := do
  require (o.priceFeeds token1 token0 = 0)
    "ChainLinkPriceOracle::setPriceFeed: source on existed pair"
  return { o with priceFeeds :=
    Function.update o.priceFeeds token0 (Function.update (o.priceFeeds token0) token1 source) }

def setPriceFeeds (token0s token1s allSources : List Address) : Result ChainLinkPriceOracle := do
  o.onlyOwner sender
  require (token0s.length = token1s.length ∧ token0s.length = allSources.length)
    "ChainLinkPriceOracle::setPriceFeeds: inconsistent length"
  (token0s.zip (token1s.zip allSources)).foldlM
    (fun o (token0, token1, source) => o._setPriceFeed token0 token1 source) o

/-- `transferOwnership`, or `renounceOwnership` for the owner 0. -/
def setOwner (newOwner : Address) : Result ChainLinkPriceOracle := do
  o.onlyOwner sender
  return { o with owner := newOwner }

end Feeds

/-! ## The prices -/

/-- `10**decimals`, which wraps. -/
def unit (decimals : UInt8) : Nat := 10 ^ decimals.toNat % wordSize

/-- `a / b`, which stops the call where `b` is zero. -/
def div (a b : Nat) : Result Nat := if b = 0 then .error "" else .ok (a / b)

/-- `uint256(price).mul(1e18) / (10**decimals)` -/
def directPrice (feed : Aggregator) : Result (Nat × Nat) := do
  let round ← feed.latestRoundData
  let decimals ← feed.decimals
  let scaled ← SafeMath.mul round.answer.toNat (10 ^ 18)
  let price ← div scaled (unit decimals)
  return (price, round.updatedAt)

/-- `(10**decimals).mul(1e18) / uint256(price)` -/
def inversePrice (feed : Aggregator) : Result (Nat × Nat) := do
  let round ← feed.latestRoundData
  let decimals ← feed.decimals
  let scaled ← SafeMath.mul (unit decimals) (10 ^ 18)
  let price ← div scaled round.answer.toNat
  return (price, round.updatedAt)

/-- The price of token0 in token1, scaled by `1e18`, and its time. -/
def getPrice (feeds : Address → Aggregator) (o : ChainLinkPriceOracle) (token0 token1 : Address) :
    Result (Nat × Nat) := do
  require (o.priceFeeds token0 token1 ≠ 0 ∨ o.priceFeeds token1 token0 ≠ 0)
    "ChainLinkPriceOracle::getPrice: no source"
  if o.priceFeeds token0 token1 ≠ 0 then directPrice (feeds (o.priceFeeds token0 token1))
  else inversePrice (feeds (o.priceFeeds token1 token0))

end ChainLinkPriceOracle

/-! ## Transactions -/

inductive Op
  | initOracle
  | setPriceFeeds (token0s token1s allSources : List Address)
  | setOwner (newOwner : Address)

structure Tx where
  sender : Address
  op : Op

/-- The oracle from its deployment. -/
def machine : TSys ChainLinkPriceOracle Tx where
  init o := o = {}
  step o tx :=
    match tx.op with
    | .initOracle => o.initOracle tx.sender
    | .setPriceFeeds token0s token1s allSources =>
        o.setPriceFeeds tx.sender token0s token1s allSources
    | .setOwner newOwner => o.setOwner tx.sender newOwner

/-! ## One feed for two tokens -/

/-- Of two tokens at most one order has a feed. -/
def OneWay (o : ChainLinkPriceOracle) : Prop :=
  ∀ a b, a ≠ b → o.priceFeeds a b = 0 ∨ o.priceFeeds b a = 0

section Steps

variable {o o' : ChainLinkPriceOracle} {sender token0 token1 source a b : Address}

/-- One ordered pair is set. -/
theorem setPriceFeed_priceFeeds (h : o._setPriceFeed token0 token1 source = .ok o') :
    o.priceFeeds token1 token0 = 0 ∧ ∀ a b, o'.priceFeeds a b =
      if a = token0 ∧ b = token1 then source else o.priceFeeds a b := by
  simp only [ChainLinkPriceOracle._setPriceFeed, bind_eq_ok, require_eq_ok, pure_eq_ok] at h
  obtain ⟨_, hunset, rfl⟩ := h
  refine ⟨hunset, fun a b => ?_⟩
  dsimp only
  by_cases ha : a = token0
  · rw [ha, Function.update_self, Function.update_apply]
    simp only [true_and]
  · rw [Function.update_of_ne ha, if_neg fun h => ha h.1]

theorem OneWay.setPriceFeed (h : OneWay o) (hset : o._setPriceFeed token0 token1 source = .ok o') :
    OneWay o' := by
  obtain ⟨hunset, hfeeds⟩ := setPriceFeed_priceFeeds hset
  intro a b hab
  rw [hfeeds, hfeeds]
  by_cases hfirst : a = token0 ∧ b = token1
  · -- the other order was found without a feed, and is not the one that is set
    obtain ⟨rfl, rfl⟩ := hfirst
    rw [if_neg (fun h : b = a ∧ a = b => hab h.2)]
    exact .inr hunset
  · rw [if_neg hfirst]
    by_cases hsecond : b = token0 ∧ a = token1
    · obtain ⟨rfl, rfl⟩ := hsecond
      exact .inl hunset
    · rw [if_neg hsecond]
      exact h a b hab

/-- No pair has a feed in both orders in any state of a run. -/
theorem oneWay_inductive : machine.Inductive (fun _ _ => True) OneWay where
  init o hinit := by
    rw [show o = {} from hinit]
    exact fun _ _ _ => .inl rfl
  step o tx o' h _ hstep := by
    obtain ⟨sender, op⟩ := tx
    unfold machine at hstep
    cases op with
    | initOracle =>
        simp only [ChainLinkPriceOracle.initOracle, bind_eq_ok, pure_eq_ok] at hstep
        obtain ⟨_, _, rfl⟩ := hstep
        exact h
    | setPriceFeeds token0s token1s allSources =>
        simp only [ChainLinkPriceOracle.setPriceFeeds, bind_eq_ok] at hstep
        obtain ⟨_, _, _, _, hloop⟩ := hstep
        exact foldlM_induct (fun _ _ _ h hset => OneWay.setPriceFeed h hset) hloop h
    | setOwner newOwner =>
        simp only [ChainLinkPriceOracle.setOwner, bind_eq_ok, pure_eq_ok] at hstep
        obtain ⟨_, _, rfl⟩ := hstep
        exact h

end Steps

/-! ## Floors of a ratio and of its inverse -/

section Floors

variable {a d s : Nat}

theorem floor_mul_floor_le (ha : 0 < a) (hd : 0 < d) : a * s / d * (d * s / a) ≤ s * s := by
  have hscale : a * s / d * (d * s / a) * (d * a) ≤ s * s * (d * a) := by
    calc a * s / d * (d * s / a) * (d * a) = (a * s / d * d) * (d * s / a * a) := by ring
      _ ≤ (a * s) * (d * s) :=
          Nat.mul_le_mul (Nat.div_mul_le_self _ d) (Nat.div_mul_le_self _ a)
      _ = s * s * (d * a) := by ring
  exact Nat.le_of_mul_le_mul_right hscale (Nat.mul_pos hd ha)

theorem lt_floor_succ_mul_floor_succ (ha : 0 < a) (hd : 0 < d) :
    s * s < (a * s / d + 1) * (d * s / a + 1) := by
  have hdirect : a * s < (a * s / d + 1) * d := Nat.lt_mul_of_div_lt (Nat.lt_succ_self _) hd
  have hinverse : d * s < (d * s / a + 1) * a := Nat.lt_mul_of_div_lt (Nat.lt_succ_self _) ha
  have hscale : s * s * (d * a) < (a * s / d + 1) * (d * s / a + 1) * (d * a) := by
    calc s * s * (d * a) = (a * s) * (d * s) := by ring
      _ < ((a * s / d + 1) * d) * ((d * s / a + 1) * a) := Nat.mul_lt_mul'' hdirect hinverse
      _ = (a * s / d + 1) * (d * s / a + 1) * (d * a) := by ring
  exact Nat.lt_of_mul_lt_mul_right hscale

end Floors

/-! ## The two orders -/

section Prices

variable {feeds : Address → Aggregator} {feed : Aggregator} {o : ChainLinkPriceOracle}
  {a b : Address} {answer : BitVec 256} {updatedAt : Nat} {decimals : UInt8}

/-- What a feed answers, small enough to be scaled. -/
structure Answers (feed : Aggregator) (answer : BitVec 256) (updatedAt : Nat) (decimals : UInt8) :
    Prop where
  round : feed.latestRoundData = .ok { answer, updatedAt }
  decimals_eq : feed.decimals = .ok decimals
  unit_fits : 10 ^ decimals.toNat * 10 ^ 18 < wordSize
  answer_fits : answer.toInt * 10 ^ 18 < wordSize

/-- Neither order has a price for an answer that is not positive; for any other one the product of
the two is one, up to a unit of each. -/
def PricesAgree (feeds : Address → Aggregator) (o : ChainLinkPriceOracle) (a b : Address)
    (answer : BitVec 256) : Prop :=
  (answer.toInt ≤ 0 →
    (¬ ∃ r, o.getPrice feeds a b = .ok r) ∧ ¬ ∃ r, o.getPrice feeds b a = .ok r) ∧
  (0 < answer.toInt → ∃ p q lastUpdate, o.getPrice feeds a b = .ok (p, lastUpdate) ∧
    o.getPrice feeds b a = .ok (q, lastUpdate) ∧ p * q ≤ 10 ^ 36 ∧ 10 ^ 36 < (p + 1) * (q + 1))

theorem PricesAgree.symm (h : PricesAgree feeds o a b answer) : PricesAgree feeds o b a answer := by
  refine ⟨fun hanswer => (h.1 hanswer).symm, fun hanswer => ?_⟩
  obtain ⟨p, q, lastUpdate, hp, hq, hle, hlt⟩ := h.2 hanswer
  refine ⟨q, p, lastUpdate, hq, hp, ?_, ?_⟩
  · rwa [Nat.mul_comm]
  · rwa [Nat.mul_comm]

/-- The source of two tokens, in the order in which it is set. -/
def ChainLinkPriceOracle.sourceOf (o : ChainLinkPriceOracle) (a b : Address) : Address :=
  if o.priceFeeds a b ≠ 0 then o.priceFeeds a b else o.priceFeeds b a

theorem toNat_of_nonneg (h : 0 ≤ answer.toInt) : (answer.toNat : Int) = answer.toInt := by
  have hcond := BitVec.toInt_eq_toNat_cond answer
  have hlt := answer.isLt
  split at hcond <;> omega

/-- A negative answer, taken as unsigned, is in the upper half of the words. -/
theorem le_toNat_of_neg (h : answer.toInt < 0) : 2 ^ 255 ≤ answer.toNat := by
  have hcond := BitVec.toInt_eq_toNat_cond answer
  split at hcond <;> omega

theorem Answers.unit_eq (h : Answers feed answer updatedAt decimals) :
    ChainLinkPriceOracle.unit decimals = 10 ^ decimals.toNat := by
  have hfits := h.unit_fits
  unfold ChainLinkPriceOracle.unit
  exact Nat.mod_eq_of_lt (by omega)

theorem Answers.directPrice (h : Answers feed answer updatedAt decimals)
    (hanswer : 0 ≤ answer.toInt) : ChainLinkPriceOracle.directPrice feed =
      .ok (answer.toNat * 10 ^ 18 / 10 ^ decimals.toNat, updatedAt) := by
  have hfits : answer.toNat * 10 ^ 18 < wordSize := by
    have hnat := toNat_of_nonneg hanswer
    have hsmall := h.answer_fits
    omega
  have hunit : ChainLinkPriceOracle.unit decimals ≠ 0 := by
    rw [h.unit_eq]
    exact (Nat.pow_pos (by decide)).ne'
  simp only [ChainLinkPriceOracle.directPrice, bind_eq_ok, SafeMath.mul_eq_ok, pure_eq_ok]
  refine ⟨_, h.round, _, h.decimals_eq, _, ⟨hfits, rfl⟩, _, if_neg hunit, ?_⟩
  rw [h.unit_eq]

theorem Answers.inversePrice (h : Answers feed answer updatedAt decimals)
    (hanswer : answer.toInt ≠ 0) : ChainLinkPriceOracle.inversePrice feed =
      .ok (10 ^ decimals.toNat * 10 ^ 18 / answer.toNat, updatedAt) := by
  have hne : answer.toNat ≠ 0 := by
    intro hzero
    obtain rfl : answer = 0 := BitVec.eq_of_toNat_eq hzero
    exact hanswer rfl
  simp only [ChainLinkPriceOracle.inversePrice, bind_eq_ok, SafeMath.mul_eq_ok, pure_eq_ok]
  refine ⟨_, h.round, _, h.decimals_eq, _, ⟨?_, rfl⟩, _, if_neg hne, ?_⟩
  · rw [h.unit_eq]
    exact h.unit_fits
  · rw [h.unit_eq]

/-- The direct branch reverts for the negative answers only, whose product does not fit. -/
theorem Answers.directPrice_isOk_iff (h : Answers feed answer updatedAt decimals) :
    (∃ r, ChainLinkPriceOracle.directPrice feed = .ok r) ↔ 0 ≤ answer.toInt := by
  constructor
  · rintro ⟨r, hok⟩
    by_contra hneg
    have hlarge := le_toNat_of_neg (Int.not_le.mp hneg)
    simp only [ChainLinkPriceOracle.directPrice, bind_eq_ok, SafeMath.mul_eq_ok] at hok
    obtain ⟨round, hround, _, _, _, ⟨hfits, _⟩, _⟩ := hok
    obtain rfl := Except.ok.inj (h.round.symm.trans hround)
    unfold wordSize at hfits
    dsimp only at hfits
    omega
  · exact fun hanswer => ⟨_, h.directPrice hanswer⟩

/-- The inverse branch reverts for the answer 0 only, by which it cannot divide. -/
theorem Answers.inversePrice_isOk_iff (h : Answers feed answer updatedAt decimals) :
    (∃ r, ChainLinkPriceOracle.inversePrice feed = .ok r) ↔ answer.toInt ≠ 0 := by
  constructor
  · rintro ⟨r, hok⟩ hzero
    have hnat := toNat_of_nonneg (Int.le_of_eq hzero.symm)
    simp only [ChainLinkPriceOracle.inversePrice, ChainLinkPriceOracle.div, bind_eq_ok] at hok
    obtain ⟨round, hround, _, _, _, _, _, hdiv, _⟩ := hok
    obtain rfl := Except.ok.inj (h.round.symm.trans hround)
    rw [if_pos (by dsimp only; omega)] at hdiv
    cases hdiv
  · exact fun hanswer => ⟨_, h.inversePrice hanswer⟩

/-- In the order of the feed the price is the direct one, in the other one the inverse. -/
theorem getPrice_of_feed (hset : o.priceFeeds a b ≠ 0) (hother : o.priceFeeds b a = 0) :
    o.getPrice feeds a b = ChainLinkPriceOracle.directPrice (feeds (o.priceFeeds a b)) ∧
      o.getPrice feeds b a = ChainLinkPriceOracle.inversePrice (feeds (o.priceFeeds a b)) := by
  unfold ChainLinkPriceOracle.getPrice
  rw [if_pos hset, if_neg (not_not.mpr hother), require, require, if_pos (.inl hset),
    if_pos (.inr hset)]
  exact ⟨rfl, rfl⟩

theorem pricesAgree_iff_of_feed (hset : o.priceFeeds a b ≠ 0) (hother : o.priceFeeds b a = 0)
    (h : Answers (feeds (o.priceFeeds a b)) answer updatedAt decimals) :
    PricesAgree feeds o a b answer ↔ 0 < answer.toInt := by
  obtain ⟨hdirect, hinverse⟩ := @getPrice_of_feed feeds o a b hset hother
  unfold PricesAgree
  rw [hdirect, hinverse, h.directPrice_isOk_iff, h.inversePrice_isOk_iff]
  constructor
  · rintro ⟨hrejects, _⟩
    by_contra hanswer
    obtain ⟨hnegative, hzero⟩ := hrejects (Int.not_lt.mp hanswer)
    omega
  · intro hanswer
    refine ⟨fun hle => absurd hanswer (Int.not_lt.mpr hle), fun _ => ?_⟩
    have hpos : 0 < answer.toNat := by
      have hnat := toNat_of_nonneg hanswer.le
      omega
    have hunit : 0 < 10 ^ decimals.toNat := Nat.pow_pos (by decide)
    have hscale : 10 ^ 36 = 10 ^ 18 * 10 ^ 18 := by decide
    rw [hscale]
    exact ⟨_, _, updatedAt, h.directPrice hanswer.le, h.inversePrice hanswer.ne',
      floor_mul_floor_le hpos hunit, lt_floor_succ_mul_floor_succ hpos hunit⟩

/-- In every run: of two tokens at most one order has a feed. For two tokens with a feed, and
answers of it that can be scaled, the prices of both orders agree, or are both refused, exactly if
the answer is positive. -/
theorem pricesAgree_iff (o : ChainLinkPriceOracle) (hreach : machine.Reachable o) :
    (∀ a b, a ≠ b → o.priceFeeds a b = 0 ∨ o.priceFeeds b a = 0) ∧
    ∀ feeds a b answer updatedAt decimals, a ≠ b → o.sourceOf a b ≠ 0 →
      Answers (feeds (o.sourceOf a b)) answer updatedAt decimals →
      (PricesAgree feeds o a b answer ↔ 0 < answer.toInt) := by
  have honeWay := oneWay_inductive.invariant hreach
  refine ⟨honeWay, fun feeds a b answer updatedAt decimals hab hsource h => ?_⟩
  unfold ChainLinkPriceOracle.sourceOf at hsource h
  by_cases hset : o.priceFeeds a b ≠ 0
  · rw [if_pos hset] at h
    exact pricesAgree_iff_of_feed hset ((honeWay a b hab).resolve_left hset) h
  · rw [if_neg hset] at hsource h
    have hreversed := pricesAgree_iff_of_feed hsource (not_not.mp hset) h
    exact ⟨fun hagree => hreversed.mp hagree.symm, fun hanswer => (hreversed.mpr hanswer).symm⟩

end Prices

/-! ## One feed -/

/-- Account 1 sets the feed at 4 for the tokens 2 and 3. -/
def oneFeed : List Tx :=
  [{ sender := 1, op := .initOracle }, { sender := 1, op := .setPriceFeeds [2] [3] [4] }]

/-- Feeds of eight decimals. -/
def answering (answer : BitVec 256) : Address → Aggregator := fun _ =>
  { latestRoundData := .ok { answer, updatedAt := 1600000000 }, decimals := .ok 8 }

theorem oneFeed_reachable : ∃ o, machine.Reachable o ∧ o.sourceOf 2 3 = 4 := by
  have hrun : ((machine.run {} oneFeed).toOption.any fun o => o.sourceOf 2 3 = 4) = true := by
    decide +kernel
  obtain ⟨o, hok, hsource⟩ := (Option.any_eq_true _ _).mp hrun
  have hreach : machine.Reachable o :=
    TSys.run_reachableBy (.init rfl) (fun _ _ _ => trivial) (toOption_eq_some.mp hok)
  exact ⟨o, hreach, of_decide_eq_true hsource⟩

/-- At a price of 300 the orders agree. -/
theorem pricesAgree_of_threeHundred : ∃ o, machine.Reachable o ∧ o.sourceOf 2 3 = 4 ∧
    PricesAgree (answering (300 * 10 ^ 8)) o 2 3 (300 * 10 ^ 8) := by
  obtain ⟨o, hreach, hsource⟩ := oneFeed_reachable
  have hiff := (pricesAgree_iff o hreach).2 (answering (300 * 10 ^ 8)) 2 3 (300 * 10 ^ 8)
    1600000000 8 (by decide) (by rw [hsource]; decide) ⟨rfl, rfl, by decide, by decide⟩
  exact ⟨o, hreach, hsource, hiff.mpr (by decide)⟩

/-- The direct branch gives the price 0 for the answer 0. -/
theorem zeroAnswer_accepted :
    ¬ ∀ o, machine.Reachable o →
      (∀ a b, a ≠ b → o.priceFeeds a b = 0 ∨ o.priceFeeds b a = 0) ∧
      ∀ feeds a b answer updatedAt decimals, a ≠ b → o.sourceOf a b ≠ 0 →
        Answers (feeds (o.sourceOf a b)) answer updatedAt decimals →
        PricesAgree feeds o a b answer := by
  intro hclaim
  have hrun : ((machine.run {} oneFeed).toOption.any fun o =>
      o.sourceOf 2 3 = 4 ∧ o.getPrice (answering 0) 2 3 = .ok (0, 1600000000)) = true := by
    decide +kernel
  obtain ⟨o, hok, htest⟩ := (Option.any_eq_true _ _).mp hrun
  obtain ⟨hsource, hprice⟩ := of_decide_eq_true htest
  have hreach : machine.Reachable o :=
    TSys.run_reachableBy (.init rfl) (fun _ _ _ => trivial) (toOption_eq_some.mp hok)
  have hagree := (hclaim o hreach).2 (answering 0) 2 3 0 1600000000 8 (by decide)
    (by rw [hsource]; decide) ⟨rfl, rfl, by decide, by decide⟩
  exact (hagree.1 (by decide)).1 ⟨_, hprice⟩

-- and the inverse branch for a negative answer
example : ChainLinkPriceOracle.inversePrice (answering (-1) 4) = .ok (0, 1600000000) := by
  decide +kernel

end Huski.Oracle
