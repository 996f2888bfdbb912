import Huski.Lib.TotalMap

/-!
# Pools of shares

A pool holds a value on behalf of the owners of its shares. Both directions of
the conversion round down: issuing shares against a value mints at most its
worth, redeeming shares pays at most their worth. The price `value / shares`
therefore never falls while shares stay outstanding, and the worth of all the
holdings together falls short of the value by less than one unit each.

Prices are compared cross-multiplied (`PriceLE`), so that nothing divides by an
empty pool.
-/

open scoped BigOperators

/-- The value of a pool and the number of its shares. -/
structure SharePool where
  value : Nat
  shares : Nat
  deriving DecidableEq, Repr

namespace SharePool

/-- The value of `s` shares, rounded down; in an empty pool one share is one unit. -/
def toValue (p : SharePool) (s : Nat) : Nat :=
  if p.shares = 0 then s else s * p.value / p.shares

/-- The shares that `v` units buy, rounded down; in an empty pool one unit buys
one share. -/
def toShares (p : SharePool) (v : Nat) : Nat :=
  if p.shares = 0 then v else v * p.shares / p.value

/-- Add `v` units and mint the shares they buy. -/
def issue (p : SharePool) (v : Nat) : SharePool :=
  { value := p.value + v, shares := p.shares + p.toShares v }

/-- Burn `s` shares and take out their value. -/
def redeem (p : SharePool) (s : Nat) : SharePool :=
  { value := p.value - p.toValue s, shares := p.shares - s }

/-- Add `v` units for all the shares. -/
def gain (p : SharePool) (v : Nat) : SharePool := { p with value := p.value + v }

/-- The price of `p` is at most the price of `q`. -/
def PriceLE (p q : SharePool) : Prop := p.value * q.shares ≤ q.value * p.shares

/-- Every share is backed by at least one unit, and an empty pool holds nothing. -/
structure Sound (p : SharePool) : Prop where
  backed : p.shares ≤ p.value
  empty : p.shares = 0 → p.value = 0

theorem Sound.shares_eq_zero_iff {p : SharePool} (h : p.Sound) :
    p.shares = 0 ↔ p.value = 0 := by
  constructor
  · exact h.empty
  · intro hv
    have := h.backed
    omega

/-! ## The price -/

/-- The two floors, cross-multiplied: minting against `v` units never lowers the
price, whatever the pool holds. -/
theorem price_mint_le (V S v : Nat) : V * (S + v * S / V) ≤ (V + v) * S := by
  have h := Nat.mul_div_le (v * S) V
  nlinarith

/-- Paying out the rounded worth of `s` shares never lowers the price. -/
theorem price_burn_le {V S s : Nat} (hs : s ≤ S) : V * (S - s) ≤ (V - s * V / S) * S := by
  have h : s * V / S * S ≤ s * V := Nat.div_mul_le_self _ _
  have hle : s * V / S ≤ V := by
    rcases Nat.eq_zero_or_pos S with rfl | hS
    · simp
    · exact Nat.div_le_of_le_mul (Nat.mul_le_mul_right V hs)
  zify [hs, hle] at h ⊢
  nlinarith

theorem PriceLE.refl (p : SharePool) : PriceLE p p := Nat.le_refl _

/-- Prices compose through a pool that is not empty. -/
theorem PriceLE.trans {p q r : SharePool} (hpq : PriceLE p q) (hqr : PriceLE q r)
    (hq : 0 < q.shares) : PriceLE p r := by
  unfold PriceLE at *
  have h1 : p.value * q.shares * r.shares ≤ q.value * p.shares * r.shares :=
    Nat.mul_le_mul_right _ hpq
  have h2 : q.value * r.shares * p.shares ≤ r.value * q.shares * p.shares :=
    Nat.mul_le_mul_right _ hqr
  refine Nat.le_of_mul_le_mul_right (c := q.shares) ?_ hq
  nlinarith

/-- A gain does not lower the price. -/
theorem priceLE_gain (p : SharePool) (v : Nat) : PriceLE p (p.gain v) :=
  Nat.mul_le_mul_right _ (Nat.le_add_right _ _)

/-- Issuing to others does not lower the price. -/
theorem priceLE_issue_of_pos {p : SharePool} (hs : 0 < p.shares) (v : Nat) :
    PriceLE p (p.issue v) := by
  unfold PriceLE issue toShares
  rw [if_neg (Nat.ne_of_gt hs)]
  exact price_mint_le p.value p.shares v

/-- Nor does issuing the first shares. -/
theorem priceLE_issue {p : SharePool} (h : p.Sound) (v : Nat) : PriceLE p (p.issue v) := by
  unfold PriceLE issue toShares
  split
  · rename_i hs
    simp [hs, h.empty hs]
  · exact price_mint_le p.value p.shares v

/-- Redeeming does not lower the price. -/
theorem priceLE_redeem {p : SharePool} {s : Nat} (hs : s ≤ p.shares) :
    PriceLE p (p.redeem s) := by
  unfold PriceLE redeem toValue
  split
  · rename_i hz
    simp [hz]
  · exact price_burn_le hs

/-- At a higher price the same shares are worth at least as much. -/
theorem toValue_le_of_price {p q : SharePool} (hprice : PriceLE p q) (hp : 0 < p.shares)
    (hq : 0 < q.shares) {s : Nat} : p.toValue s ≤ q.toValue s := by
  unfold toValue
  rw [if_neg (Nat.ne_of_gt hp), if_neg (Nat.ne_of_gt hq), Nat.le_div_iff_mul_le hq]
  have hfloor : s * p.value / p.shares * p.shares ≤ s * p.value := Nat.div_mul_le_self _ _
  refine Nat.le_of_mul_le_mul_right (c := p.shares) ?_ hp
  calc s * p.value / p.shares * q.shares * p.shares
      = s * p.value / p.shares * p.shares * q.shares := Nat.mul_right_comm _ _ _
    _ ≤ s * p.value * q.shares := Nat.mul_le_mul_right _ hfloor
    _ = s * (p.value * q.shares) := Nat.mul_assoc _ _ _
    _ ≤ s * (q.value * p.shares) := Nat.mul_le_mul_left _ hprice
    _ = s * q.value * p.shares := (Nat.mul_assoc _ _ _).symm

theorem toShares_le_of_backed {p : SharePool} (h : p.shares ≤ p.value) (v : Nat) :
    p.toShares v ≤ v := by
  unfold toShares
  split
  · exact Nat.le_refl v
  · exact Nat.div_le_of_le_mul (by rw [Nat.mul_comm p.value]; exact Nat.mul_le_mul_left v h)

/-- A redemption leaves at least one unit a share. -/
theorem backed_redeem {p : SharePool} (h : p.shares ≤ p.value) {s : Nat} (hs : s ≤ p.shares) :
    (p.redeem s).shares ≤ (p.redeem s).value := by
  rcases Nat.eq_zero_or_pos p.shares with hz | hpos
  · simp [SharePool.redeem, hz]
  · refine Nat.le_of_mul_le_mul_right (c := p.shares) ?_ hpos
    calc (p.redeem s).shares * p.shares
        ≤ (p.redeem s).shares * p.value := Nat.mul_le_mul_left _ h
      _ = p.value * (p.redeem s).shares := Nat.mul_comm _ _
      _ ≤ (p.redeem s).value * p.shares := priceLE_redeem hs

/-! ## Soundness -/

theorem sound_empty : Sound { value := 0, shares := 0 } := ⟨Nat.le_refl _, fun _ => rfl⟩

theorem Sound.gain {p : SharePool} (h : p.Sound) {v : Nat} (hv : p.value = 0 → v = 0) :
    (p.gain v).Sound := by
  refine ⟨Nat.le_trans h.backed (Nat.le_add_right _ _), fun hs => ?_⟩
  have h0 := h.empty hs
  simp [SharePool.gain, h0, hv h0]

theorem Sound.toShares_le {p : SharePool} (h : p.Sound) (v : Nat) : p.toShares v ≤ v :=
  toShares_le_of_backed h.backed v

theorem Sound.issue {p : SharePool} (h : p.Sound) (v : Nat) : (p.issue v).Sound := by
  refine ⟨Nat.add_le_add h.backed (h.toShares_le v), fun hs => ?_⟩
  simp only [SharePool.issue, Nat.add_eq_zero_iff] at hs ⊢
  refine ⟨h.empty hs.1, ?_⟩
  -- an empty pool mints one share a unit, so no shares means no value
  simpa [toShares, hs.1] using hs.2

theorem toValue_all {p : SharePool} (h : p.Sound) : p.toValue p.shares = p.value := by
  unfold toValue
  split
  · rename_i hs
    rw [h.empty hs, hs]
  · rename_i hs
    exact Nat.mul_div_cancel_left p.value (Nat.pos_of_ne_zero hs)

theorem Sound.redeem {p : SharePool} (h : p.Sound) {s : Nat} (hs : s ≤ p.shares) :
    (p.redeem s).Sound := by
  constructor
  · exact backed_redeem h.backed hs
  · intro hz
    have hall : s = p.shares := by
      simp only [SharePool.redeem] at hz
      omega
    simp [SharePool.redeem, hall, toValue_all h]

/-! ## There and back -/

/-- The shares that `v` units bought are worth at most `v` units in the pool they were added to. -/
theorem toValue_issue_le {p : SharePool} (hempty : p.shares = 0 → p.value = 0) (v : Nat) :
    (p.issue v).toValue (p.toShares v) ≤ v := by
  rcases Nat.eq_zero_or_pos p.shares with hz | hpos
  · -- the pool restarts at one unit a share
    have hvalue := hempty hz
    unfold toValue
    split
    · simp [toShares, hz]
    · simpa [issue, toShares, hz, hvalue] using Nat.div_le_of_le_mul (Nat.le_refl (v * v))
  · have hfloor : p.toShares v * p.value ≤ v * p.shares := by
      simpa [toShares, Nat.pos_iff_ne_zero.mp hpos] using Nat.div_mul_le_self (v * p.shares) p.value
    have hne : (p.issue v).shares ≠ 0 := by
      simp only [issue]
      omega
    unfold toValue
    rw [if_neg hne]
    refine Nat.div_le_of_le_mul ?_
    calc p.toShares v * (p.issue v).value
        = p.toShares v * p.value + p.toShares v * v := Nat.mul_add _ _ _
      _ ≤ v * p.shares + p.toShares v * v := Nat.add_le_add_right hfloor _
      _ = (p.issue v).shares * v := by
          simp only [issue]
          ring

/-- They fall short of it by less than the price of one share and one unit. -/
theorem lt_toValue_issue {p : SharePool} {v : Nat} (hv : 0 < v)
    (hempty : p.shares = 0 → p.value = 0) (hfull : p.shares ≠ 0 → 0 < p.value) :
    (v - (p.issue v).toValue (p.toShares v)) * (p.issue v).shares <
      (p.issue v).value + (p.issue v).shares := by
  rcases Nat.eq_zero_or_pos p.shares with hz | hpos
  · have hvalue := hempty hz
    have hall : (p.issue v).toValue (p.toShares v) = v := by
      have hne : v ≠ 0 := Nat.pos_iff_ne_zero.mp hv
      simp [toValue, issue, toShares, hz, hvalue, hne]
    rw [hall, Nat.sub_self, Nat.zero_mul]
    simp only [issue]
    omega
  · have hne : p.shares ≠ 0 := Nat.pos_iff_ne_zero.mp hpos
    have hpos' : 0 < (p.issue v).shares := Nat.lt_add_right _ hpos
    -- what the first conversion loses, and what the second one does
    have hmint : v * p.shares < (p.toShares v + 1) * p.value := by
      have h := Nat.lt_mul_div_succ (v * p.shares) (hfull hne)
      rw [Nat.mul_comm p.value] at h
      simpa [toShares, hne] using h
    have hback : p.toShares v * (p.issue v).value <
        ((p.issue v).toValue (p.toShares v) + 1) * (p.issue v).shares := by
      have h := Nat.lt_mul_div_succ (p.toShares v * (p.issue v).value) hpos'
      rw [Nat.mul_comm (p.issue v).shares] at h
      simpa [toValue, Nat.pos_iff_ne_zero.mp hpos'] using h
    have hle := toValue_issue_le hempty v
    generalize (p.issue v).toValue (p.toShares v) = back at *
    simp only [issue] at *
    generalize p.toShares v = s at *
    zify [hle] at *
    nlinarith

/-! ## The holdings -/

section Holdings

variable {K : Type} [Fintype K]

/-- The rounded worth of all the holdings is at most the value of the pool. -/
theorem sum_toValue_le {p : SharePool} {d : K → Nat}
    (hd : ∑ i, d i = p.shares) : ∑ i, p.toValue (d i) ≤ p.value := by
  rcases Nat.eq_zero_or_pos p.shares with hz | hpos
  · have : ∑ i, p.toValue (d i) = ∑ i, d i := by simp [toValue, hz]
    rw [this, hd, hz]
    exact Nat.zero_le _
  · refine Nat.le_of_mul_le_mul_right (c := p.shares) ?_ hpos
    calc (∑ i, p.toValue (d i)) * p.shares
        = ∑ i, p.toValue (d i) * p.shares := Finset.sum_mul _ _ _
      _ ≤ ∑ i, d i * p.value := by
          refine Finset.sum_le_sum fun i _ => ?_
          simpa [toValue, Nat.pos_iff_ne_zero.mp hpos] using
            Nat.div_mul_le_self (d i * p.value) p.shares
      _ = p.value * p.shares := by rw [← Finset.sum_mul, hd, Nat.mul_comm]

/-- It falls short of the value by less than one unit for each holding that is
not empty. -/
theorem value_le_sum_toValue {p : SharePool} (h : p.Sound) {d : K → Nat}
    (hd : ∑ i, d i = p.shares) :
    p.value ≤ (∑ i, p.toValue (d i)) + (Finset.univ.filter fun i => d i ≠ 0).card := by
  rcases Nat.eq_zero_or_pos p.shares with hz | hpos
  · simp [h.empty hz]
  · rw [Finset.card_filter, ← Finset.sum_add_distrib]
    refine Nat.le_of_mul_le_mul_right (c := p.shares) ?_ hpos
    calc p.value * p.shares
        = ∑ i, d i * p.value := by rw [← Finset.sum_mul, hd, Nat.mul_comm]
      _ ≤ ∑ i, (p.toValue (d i) + if d i ≠ 0 then 1 else 0) * p.shares := by
          refine Finset.sum_le_sum fun i _ => ?_
          by_cases hi : d i = 0
          · simp [hi]
          · have hlt := Nat.lt_mul_div_succ (d i * p.value) hpos
            simp only [toValue, Nat.pos_iff_ne_zero.mp hpos, if_false, ne_eq, hi,
              not_false_eq_true, if_true]
            rw [Nat.mul_comm _ p.shares]
            exact Nat.le_of_lt hlt
      _ = (∑ i, (p.toValue (d i) + if d i ≠ 0 then 1 else 0)) * p.shares :=
          (Finset.sum_mul _ _ _).symm

end Holdings

/-! ## Books: a pool and who holds its shares -/

/-- A pool together with the holding of every key. -/
structure Book (K : Type) where
  pool : SharePool
  held : K → Nat

namespace Book

variable {K : Type} [DecidableEq K]

/-- Mint the shares that `v` units buy to one key. -/
def issueTo (b : Book K) (k : K) (v : Nat) : Book K :=
  { pool := b.pool.issue v
    held := Function.update b.held k (b.held k + b.pool.toShares v) }

/-- Redeem everything one key holds. -/
def redeemAll (b : Book K) (k : K) : Book K :=
  { pool := b.pool.redeem (b.held k), held := Function.update b.held k 0 }

/-- Add `v` units for all the holders. -/
def gain (b : Book K) (v : Nat) : Book K := { b with pool := b.pool.gain v }

theorem issueTo_zero (b : Book K) (k : K) : b.issueTo k 0 = b := by
  have hnone : b.pool.toShares 0 = 0 := by simp [toShares]
  simp [issueTo, issue, hnone]

variable [Fintype K]

/-- The holdings are the shares, and the shares are backed. -/
structure Balanced (b : Book K) : Prop where
  total : ∑ k, b.held k = b.pool.shares
  sound : b.pool.Sound

variable {b : Book K}

omit [DecidableEq K] in
/-- Nobody holds more shares than there are. -/
theorem Balanced.held_le (h : b.Balanced) (k : K) : b.held k ≤ b.pool.shares := by
  rw [← h.total]
  exact TotalMap.le_sum b.held id k

omit [DecidableEq K] in
theorem Balanced.gain (h : b.Balanced) {v : Nat} (hv : b.pool.value = 0 → v = 0) :
    (b.gain v).Balanced :=
  ⟨h.total, h.sound.gain hv⟩

theorem Balanced.issueTo (h : b.Balanced) (k : K) (v : Nat) : (b.issueTo k v).Balanced := by
  refine ⟨?_, h.sound.issue v⟩
  have := TotalMap.sum_update b.held id k (b.held k + b.pool.toShares v)
  have := h.total
  simp only [Book.issueTo, SharePool.issue, id] at *
  omega

theorem Balanced.redeemAll (h : b.Balanced) (k : K) : (b.redeemAll k).Balanced := by
  refine ⟨?_, h.sound.redeem (h.held_le k)⟩
  have := TotalMap.sum_update b.held id k 0
  have := h.total
  simp only [Book.redeemAll, SharePool.redeem, id] at *
  omega

/-- Redeeming a holder does not lower the price. -/
theorem Balanced.price_redeemAll (h : b.Balanced) (k : K) :
    PriceLE b.pool (b.redeemAll k).pool :=
  priceLE_redeem (h.held_le k)

/-- Closing a holding and opening it again for another value keeps the price up,
unless it was the only one: then the pool restarts at one unit a share. -/
theorem Balanced.price_reissue (h : b.Balanced) {k : K} (hk : b.held k < b.pool.shares)
    (v : Nat) : PriceLE b.pool ((b.redeemAll k).issueTo k v).pool := by
  refine (h.price_redeemAll k).trans (priceLE_issue (h.redeemAll k).sound v) ?_
  simp only [Book.redeemAll, SharePool.redeem]
  omega

/-- The only holding, closed and opened again: the pool restarts at one unit a share. -/
theorem Balanced.restart (h : b.Balanced) {k : K} (hk : b.held k = b.pool.shares) (v : Nat) :
    ((b.redeemAll k).issueTo k v).pool.value = ((b.redeemAll k).issueTo k v).pool.shares := by
  have hvalue := toValue_all h.sound
  simp [Book.issueTo, issue, Book.redeemAll, redeem, toShares, hk, hvalue]

/-! ## Books that may hold something without holders

A gain may come while there are no shares: the pool then holds a value that the next holder takes
over at one unit a share. What survives is that every share is backed, and the worth of the
holdings that are there. -/

/-- The rounded worth of one holding. -/
def worth (b : Book K) (k : K) : Nat := b.pool.toValue (b.held k)

/-- The holdings are the shares, and every share is backed by a unit. -/
structure Covered (b : Book K) : Prop where
  total : ∑ k, b.held k = b.pool.shares
  backed : b.pool.shares ≤ b.pool.value

/-- What can happen to a book: one holding is closed, or closed and opened again for some value,
or there is something for all the holders. -/
inductive Step : Option K → Book K → Book K → Prop
  | keep (c : Book K) : Step none c c
  | gain (c : Book K) (v : Nat) : Step none c (c.gain v)
  | close (c : Book K) (k : K) : Step (some k) c (c.redeemAll k)
  | reopen (c : Book K) (k : K) (v : Nat) : Step (some k) c ((c.redeemAll k).issueTo k v)

omit [DecidableEq K] in
theorem Covered.held_le (h : b.Covered) (k : K) : b.held k ≤ b.pool.shares := by
  rw [← h.total]
  exact TotalMap.le_sum b.held id k

omit [DecidableEq K] in
/-- All holders together are worth no more than the value. -/
theorem Covered.sum_worth_le (h : b.Covered) : ∑ k, b.worth k ≤ b.pool.value :=
  sum_toValue_le h.total

omit [Fintype K] in
theorem redeemAll_of_none {k : K} (hk : b.held k = 0) : b.redeemAll k = b := by
  have hvalue : b.pool.toValue 0 = 0 := by simp [toValue]
  have hheld : Function.update b.held k 0 = b.held := by rw [← hk, Function.update_eq_self]
  simp [redeemAll, redeem, hk, hvalue, hheld]

omit [DecidableEq K] in
theorem Covered.gain (h : b.Covered) (v : Nat) : (b.gain v).Covered :=
  ⟨h.total, Nat.le_trans h.backed (Nat.le_add_right _ _)⟩

theorem Covered.redeemAll (h : b.Covered) (k : K) : (b.redeemAll k).Covered := by
  have hheld := h.held_le k
  constructor
  · have := TotalMap.sum_update b.held id k 0
    have := h.total
    simp only [Book.redeemAll, SharePool.redeem, id] at *
    omega
  · exact backed_redeem h.backed hheld

theorem Covered.issueTo (h : b.Covered) (k : K) (v : Nat) : (b.issueTo k v).Covered := by
  constructor
  · have := TotalMap.sum_update b.held id k (b.held k + b.pool.toShares v)
    have := h.total
    simp only [Book.issueTo, SharePool.issue, id] at *
    omega
  · exact Nat.add_le_add h.backed (toShares_le_of_backed h.backed v)

theorem Step.covered {k : Option K} {b' : Book K} (hstep : Step k b b') (h : b.Covered) :
    b'.Covered := by
  cases hstep with
  | keep => exact h
  | gain _ v => exact h.gain v
  | close _ k => exact h.redeemAll k
  | reopen _ k v => exact (h.redeemAll k).issueTo k v

/-! ### Nobody loses by what happens to another holding -/

omit [DecidableEq K] [Fintype K] in
/-- A gain makes nobody poorer. -/
theorem worth_le_gain (v : Nat) (j : K) : b.worth j ≤ (b.gain v).worth j := by
  unfold worth Book.gain SharePool.gain toValue
  split
  · exact Nat.le_refl _
  · exact Nat.div_le_div_right (Nat.mul_le_mul_left _ (Nat.le_add_right _ _))

/-- Another's redemption makes nobody poorer. -/
theorem Covered.worth_le_redeemAll (h : b.Covered) {j k : K} (hjk : j ≠ k) :
    b.worth j ≤ (b.redeemAll k).worth j := by
  have hsame : (b.redeemAll k).held j = b.held j := Function.update_of_ne hjk _ _
  rcases Nat.eq_zero_or_pos (b.held j) with hj | hj
  · simp [worth, toValue, hj]
  · -- the other holding keeps its shares, so the pool is not empty
    have hleft : b.held j ≤ (b.redeemAll k).pool.shares := by
      have := (h.redeemAll k).held_le j
      rwa [hsame] at this
    unfold worth
    rw [hsame]
    exact toValue_le_of_price (priceLE_redeem (h.held_le k)) (Nat.lt_of_lt_of_le hj (h.held_le j))
      (Nat.lt_of_lt_of_le hj hleft)

/-- Another's deposit makes nobody poorer. -/
theorem Covered.worth_le_issueTo (h : b.Covered) {j k : K} (hjk : j ≠ k) (v : Nat) :
    b.worth j ≤ (b.issueTo k v).worth j := by
  have hsame : (b.issueTo k v).held j = b.held j := Function.update_of_ne hjk _ _
  rcases Nat.eq_zero_or_pos (b.held j) with hj | hj
  · simp [worth, toValue, hj]
  · have hpos : 0 < b.pool.shares := Nat.lt_of_lt_of_le hj (h.held_le j)
    unfold worth
    rw [hsame]
    exact toValue_le_of_price (priceLE_issue_of_pos hpos v) hpos (Nat.lt_add_right _ hpos)

/-- No step of another makes anybody poorer. -/
theorem Step.worth_le {k : Option K} {b' : Book K} (hstep : Step k b b') (h : b.Covered) {j : K}
    (hj : k ≠ some j) : b.worth j ≤ b'.worth j := by
  have hne : ∀ i, k = some i → j ≠ i := fun i hi hji => hj (hji ▸ hi)
  cases hstep with
  | keep => exact Nat.le_refl _
  | gain _ v => exact worth_le_gain v j
  | close _ i => exact h.worth_le_redeemAll (hne i rfl)
  | reopen _ i v =>
      exact Nat.le_trans (h.worth_le_redeemAll (hne i rfl))
        ((h.redeemAll i).worth_le_issueTo (hne i rfl) v)

end Book

end SharePool
