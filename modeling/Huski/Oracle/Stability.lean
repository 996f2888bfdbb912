import Huski.Oracle.SimplePrice
import Huski.Pancake.Router
import Huski.Vault.Liquidation

/-!
# Workers at a stable price

`WorkerConfig.sol`, `CakeMaxiWorkerConfig.sol` and `BasicVaultConfig.sol`. A worker has factors
only while the pair that it farms is near the price of the oracle: the balances of the pair are at
most one percent above the reserves, the price of the oracle is not old, and the price of the pair
is within the worker's bounds of it. The vault asks for the factors when it gives a loan, when it
leaves a position in debt, and when it liquidates one. So each of these happens at a price near
one that the feeder has set lately.
-/

open Solidity

namespace Huski.Oracle

open Pancake

/-- `a - b` of words, which wraps. -/
def wrappingSub (a b : Nat) : Nat := (a + wordSize - b) % wordSize

/-- `Config` of a worker. -/
structure Settings where
  acceptDebt : Bool := false
  workFactor : UInt64 := 0
  killFactor : UInt64 := 0
  maxPriceDiff : UInt64 := 0
  deriving DecidableEq

/-- `IWorkerConfig` -/
structure IWorkerConfig where
  acceptDebt : Address → Result Bool
  workFactor : Address → Nat → Result Nat
  killFactor : Address → Nat → Result Nat

/-- `PriceOracle` -/
abbrev PriceOracle := Address → Address → Result (Nat × Nat)

/-! ## One pair -/

section Pair

variable (contract : String) (maxAge : Nat) (x : Factory) (m : Market) (getPrice : PriceOracle)
  (now maxPriceDiff : Nat) (lp : Address)

/-- The checks of `isStable` on a pair, which both contracts make. -/
def checkPair : Result Unit := do
  let token0 := x.token0 lp
  let token1 := x.token1 lp
  let r0 := (m.pair lp).reserve0
  let r1 := (m.pair lp).reserve1
  let t0scaled ← SafeMath.mul (m.balanceOf token0 lp) 100
  let r0scaled ← SafeMath.mul r0 101
  require (t0scaled ≤ r0scaled) (contract ++ "::isStable: bad t0 balance")
  let t1scaled ← SafeMath.mul (m.balanceOf token1 lp) 100
  let r1scaled ← SafeMath.mul r1 101
  require (t1scaled ≤ r1scaled) (contract ++ "::isStable: bad t1 balance")
  let (price, lastUpdate) ← getPrice token0 token1
  require (lastUpdate ≥ wrappingSub now maxAge) (contract ++ "::isStable: price too stale")
  let scaled ← SafeMath.mul r1 (10 ^ 18)
  let lpPrice ← SafeMath.div scaled r0
  let highScaled ← SafeMath.mul price maxPriceDiff
  let high ← SafeMath.div highScaled 10000
  require (lpPrice ≤ high) (contract ++ "::isStable: price too high")
  let lowScaled ← SafeMath.mul price 10000
  let low ← SafeMath.div lowScaled maxPriceDiff
  require (lpPrice ≥ low) (contract ++ "::isStable: price too low")

/-- The pair is near a price of a time. -/
structure Near (price time : Nat) : Prop where
  balance0 : m.balanceOf (x.token0 lp) lp * 100 ≤ (m.pair lp).reserve0 * 101
  balance1 : m.balanceOf (x.token1 lp) lp * 100 ≤ (m.pair lp).reserve1 * 101
  fresh : wrappingSub now maxAge ≤ time
  reserve : 0 < (m.pair lp).reserve0
  bounded : 0 < maxPriceDiff
  high : (m.pair lp).reserve1 * 10 ^ 18 / (m.pair lp).reserve0 ≤ price * maxPriceDiff / 10000
  low : price * 10000 / maxPriceDiff ≤ (m.pair lp).reserve1 * 10 ^ 18 / (m.pair lp).reserve0

variable {contract maxAge x m getPrice now maxPriceDiff lp}

theorem near_of_checkPair
    (h : checkPair contract maxAge x m getPrice now maxPriceDiff lp = .ok ()) :
    ∃ price time, getPrice (x.token0 lp) (x.token1 lp) = .ok (price, time) ∧
      Near maxAge x m now maxPriceDiff lp price time := by
  simp only [checkPair, bind_eq_ok, require_eq_ok, SafeMath.mul_eq_ok, SafeMath.div_eq_ok] at h
  obtain ⟨_, ⟨_, rfl⟩, _, ⟨_, rfl⟩, _, hbalance0, _, ⟨_, rfl⟩, _, ⟨_, rfl⟩, _, hbalance1,
    ⟨price, time⟩, hprice, _, hfresh, _, ⟨_, rfl⟩, _, ⟨hreserve, rfl⟩, _, ⟨_, rfl⟩, _, ⟨_, rfl⟩,
    _, hhigh, _, ⟨_, rfl⟩, _, ⟨hbounded, rfl⟩, hlow⟩ := h
  exact ⟨price, time, hprice, hbalance0, hbalance1, hfresh, Nat.pos_of_ne_zero hreserve,
    Nat.pos_of_ne_zero hbounded, hhigh, hlow⟩

theorem bounds_of_floors {spot reserve price diff : Nat} (hreserve : 0 < reserve) (hdiff : 0 < diff)
    (hhigh : spot / reserve ≤ price * diff / 10000)
    (hlow : price * 10000 / diff ≤ spot / reserve) :
    spot * 10000 < (price * diff + 10000) * reserve ∧
      price * 10000 * reserve < (spot + reserve) * diff := by
  have hspot := Nat.lt_mul_div_succ spot hreserve
  have hspot' := Nat.div_mul_le_self spot reserve
  have hquote := Nat.div_mul_le_self (price * diff) 10000
  have hquote' := Nat.lt_mul_div_succ (price * 10000) hdiff
  constructor
  · have hspotHigh : (spot / reserve + 1) * 10000 ≤ price * diff + 10000 := by
      rw [Nat.add_mul]
      exact Nat.add_le_add_right ((Nat.mul_le_mul_right 10000 hhigh).trans hquote) _
    calc spot * 10000 < reserve * (spot / reserve + 1) * 10000 :=
          Nat.mul_lt_mul_of_pos_right hspot (by decide)
      _ = (spot / reserve + 1) * 10000 * reserve := by ring
      _ ≤ (price * diff + 10000) * reserve := Nat.mul_le_mul_right _ hspotHigh
  · have hspotLow : (price * 10000 / diff + 1) * reserve ≤ spot + reserve := by
      rw [Nat.add_mul, Nat.one_mul]
      exact Nat.add_le_add_right ((Nat.mul_le_mul_right reserve hlow).trans hspot') _
    calc price * 10000 * reserve < diff * (price * 10000 / diff + 1) * reserve :=
          Nat.mul_lt_mul_of_pos_right hquote' hreserve
      _ = (price * 10000 / diff + 1) * reserve * diff := by ring
      _ ≤ (spot + reserve) * diff := Nat.mul_le_mul_right _ hspotLow

/-- The bounds, cleared of their divisions: one unit of the oracle and one of the pair are lost to
the rounding. -/
theorem Near.bounds {price time : Nat} (h : Near maxAge x m now maxPriceDiff lp price time) :
    (m.pair lp).reserve1 * 10 ^ 18 * 10000 <
        (price * maxPriceDiff + 10000) * (m.pair lp).reserve0 ∧
      price * 10000 * (m.pair lp).reserve0 <
        ((m.pair lp).reserve1 * 10 ^ 18 + (m.pair lp).reserve0) * maxPriceDiff := by
  exact bounds_of_floors h.reserve h.bounded h.high h.low

end Pair

/-! ## The contracts -/

/-- What `WorkerConfig` answers from. -/
structure WorkerConfig where
  oracle : Address := 0
  workers : Address → Settings := fun _ => {}

namespace WorkerConfig

section View

variable (x : Factory) (m : Market) (oracles : Address → PriceOracle) (lpToken : Address → Address)
  (now : Nat) (c : WorkerConfig)

def isStable (worker : Address) : Result Bool := do
  checkPair "WorkerConfig" (7 * 86400) x m (oracles c.oracle) now
    (c.workers worker).maxPriceDiff.toNat (lpToken worker)
  return true

/-- `acceptDebt`, `workFactor` and `killFactor`: a setting of a stable worker. -/
def ifStable {α : Type} (isStable : Address → Result Bool) (message : String) (worker : Address)
    (setting : α) : Result α := do
  let stable ← isStable worker
  require (stable = true) message
  return setting

/-- What the vault asks. -/
def answers : IWorkerConfig where
  acceptDebt worker := ifStable (isStable x m oracles lpToken now c)
    "WorkerConfig::acceptDebt: !stable" worker (c.workers worker).acceptDebt
  workFactor worker _ := ifStable (isStable x m oracles lpToken now c)
    "WorkerConfig::workFactor: !stable" worker (c.workers worker).workFactor.toNat
  killFactor worker _ := ifStable (isStable x m oracles lpToken now c)
    "WorkerConfig::killFactor: !stable" worker (c.workers worker).killFactor.toNat

end View

end WorkerConfig

/-- What `CakeMaxiWorkerConfig` answers from. -/
structure CakeMaxiWorkerConfig extends WorkerConfig where
  wNative : Address

namespace CakeMaxiWorkerConfig

variable (x : Factory) (m : Market) (oracles : Address → PriceOracle)
  (baseToken farmingToken : Address → Address) (now : Nat) (c : CakeMaxiWorkerConfig)

/-- From the farming token to the base token, through the native one. -/
def path (worker : Address) : List Address :=
  if baseToken worker = c.wNative then [farmingToken worker, c.wNative]
  else if farmingToken worker = c.wNative then [c.wNative, baseToken worker]
  else [farmingToken worker, c.wNative, baseToken worker]

/-- The loop over the path; a pair that there is not has no code. -/
def checkPath (getPrice : PriceOracle) (maxPriceDiff : Nat) : List Address → Result Unit
  | input :: output :: path => do
      require (x.getPair input output ≠ 0) ""
      checkPair "CakeMaxiWorkerConfig" 86400 x m getPrice now maxPriceDiff (x.getPair input output)
      checkPath getPrice maxPriceDiff (output :: path)
  | _ => .ok ()

def isStable (worker : Address) : Result Bool := do
  checkPath x m now (oracles c.oracle) (c.workers worker).maxPriceDiff.toNat
    (c.path baseToken farmingToken worker)
  return true

def answers : IWorkerConfig where
  acceptDebt worker := WorkerConfig.ifStable (isStable x m oracles baseToken farmingToken now c)
    "CakeMaxiWorkerConfig::acceptDebt: !stable" worker (c.workers worker).acceptDebt
  workFactor worker _ := WorkerConfig.ifStable (isStable x m oracles baseToken farmingToken now c)
    "CakeMaxiWorkerConfig::workFactor: !stable" worker (c.workers worker).workFactor.toNat
  killFactor worker _ := WorkerConfig.ifStable (isStable x m oracles baseToken farmingToken now c)
    "CakeMaxiWorkerConfig::killFactor: !stable" worker (c.workers worker).killFactor.toNat

end CakeMaxiWorkerConfig

end Huski.Oracle
