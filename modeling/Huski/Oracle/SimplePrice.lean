import Huski.Lib.EventLog
import Huski.Lib.TSys

/-!
# The price oracle that is fed

`SimplePriceOracle.sol`. A feeder, whom the owner appoints, sets the prices of pairs of tokens; a
price is kept with 192 bits and its time with 64. The log holds the transactions that succeeded, the
newest first, so that a price that is read goes back to the call of the feeder of that time.
-/

open Solidity EventLog

namespace Huski.Oracle

/-- `PriceData` -/
structure PriceData where
  price : BitVec 192 := 0
  lastUpdate : UInt64 := 0
  deriving DecidableEq

/-- The storage of the oracle: the prices its feeder stored. -/
structure SimplePriceOracle where
  initialized : Bool := false
  owner : Address := 0
  feeder : Address := 0
  store : Address → Address → PriceData := fun _ _ => {}

namespace SimplePriceOracle

/-- One price of a call of `setPrices`. -/
structure Feed where
  token0 : Address
  token1 : Address
  price : Nat
  deriving DecidableEq

/-- The prices of a call, in the order of its loop. -/
def feeds (token0s token1s : List Address) (prices : List Nat) : List Feed :=
  (token0s.zip (token1s.zip prices)).map fun (token0, token1, price) => { token0, token1, price }

/-- `PriceData({ price: uint192(price), lastUpdate: uint64(now) })` -/
def Feed.data (f : Feed) (now : Nat) : PriceData where
  price := BitVec.ofNat 192 f.price
  lastUpdate := UInt64.ofNat now

section Functions

variable (sender : Address) (now : Nat) (o : SimplePriceOracle)

def onlyOwner : Result Unit := require (o.owner = sender) "Ownable: caller is not the owner"

/-- `initialize` -/
def initOracle (_feeder : Address) : Result SimplePriceOracle := do
  require (o.initialized = false) "Contract instance has already been initialized"
  return { o with initialized := true, owner := sender, feeder := _feeder }

def setFeeder (_feeder : Address) : Result SimplePriceOracle := do
  o.onlyOwner sender
  return { o with feeder := _feeder }

/-- The price of one ordered pair, as of now. -/
def storePrice (f : Feed) : SimplePriceOracle :=
  { o with
    store := Function.update o.store f.token0
      (Function.update (o.store f.token0) f.token1 (f.data now)) }

/-- Only the feeder stores prices. -/
def setPrices (token0s token1s : List Address) (prices : List Nat) : Result SimplePriceOracle := do
  require (sender = o.feeder) "SimplePriceOracle::onlyFeeder: only feeder"
  require (token1s.length = token0s.length) "SimplePriceOracle::setPrices: bad token1s length"
  require (prices.length = token0s.length) "SimplePriceOracle::setPrices: bad prices length"
  return (feeds token0s token1s prices).foldl (storePrice now) o

def transferOwnership (newOwner : Address) : Result SimplePriceOracle := do
  o.onlyOwner sender
  require (newOwner ≠ 0) "Ownable: new owner is the zero address"
  return { o with owner := newOwner }

def renounceOwnership : Result SimplePriceOracle := do
  o.onlyOwner sender
  return { o with owner := 0 }

/-- The price of token0 in token1, scaled by `1e18`, and its time. -/
def getPrice (token0 token1 : Address) : Result (Nat × Nat) := do
  let data := o.store token0 token1
  require (data.price.toNat ≠ 0 ∧ data.lastUpdate.toNat ≠ 0)
    "SimplePriceOracle::getPrice: bad price data"
  return (data.price.toNat, data.lastUpdate.toNat)

end Functions

/-! ## Transactions -/

inductive Op
  | initOracle (_feeder : Address)
  | setFeeder (_feeder : Address)
  | setPrices (token0s token1s : List Address) (prices : List Nat)
  | transferOwnership (newOwner : Address)
  | renounceOwnership
  deriving DecidableEq

/-- A transaction, or one that succeeded, in the log. -/
structure Tx where
  sender : Address
  now : Nat
  op : Op
  deriving DecidableEq

/-- The oracle, the time and the log of its transactions. -/
structure World where
  oracle : SimplePriceOracle := {}
  timestamp : Nat := 0
  log : List Tx := []

def call (tx : Tx) (o : SimplePriceOracle) : Result SimplePriceOracle :=
  match tx.op with
  | .initOracle _feeder => o.initOracle tx.sender _feeder
  | .setFeeder _feeder => o.setFeeder tx.sender _feeder
  | .setPrices token0s token1s prices => o.setPrices tx.sender tx.now token0s token1s prices
  | .transferOwnership newOwner => o.transferOwnership tx.sender newOwner
  | .renounceOwnership => o.renounceOwnership tx.sender

/-- The oracle from its deployment; the time of the blocks does not go back. -/
def machine : TSys World Tx where
  init w := w = {}
  step w tx := do
    require (w.timestamp ≤ tx.now) ""
    let oracle ← call tx w.oracle
    return { oracle, timestamp := tx.now, log := tx :: w.log }

/-! ## What the log tells -/

/-- The owner a transaction names. -/
def writesOwner (tx : Tx) : Option Address :=
  match tx.op with
  | .initOracle _ => some tx.sender
  | .transferOwnership newOwner => some newOwner
  | .renounceOwnership => some 0
  | _ => none

/-- The feeder a transaction names. -/
def writesFeeder (tx : Tx) : Option Address :=
  match tx.op with
  | .initOracle _feeder => some _feeder
  | .setFeeder _feeder => some _feeder
  | _ => none

/-- The price of the pair that a call leaves: the last of its list. -/
def writesPrice (token0 token1 : Address) (tx : Tx) : Option PriceData :=
  match tx.op with
  | .setPrices token0s token1s prices =>
      ((feeds token0s token1s prices).reverse.find? fun f =>
        f.token0 = token0 ∧ f.token1 = token1).map fun f => f.data tx.now
  | _ => none

/-- The owner the log names last. -/
def ownerAt (log : List Tx) : Address := lastWrite writesOwner 0 log
/-- The feeder the log names last. -/
def feederAt (log : List Tx) : Address := lastWrite writesFeeder 0 log
/-- The price the log stores last. -/
def priceAt (token0 token1 : Address) (log : List Tx) : PriceData :=
  lastWrite (writesPrice token0 token1) {} log

/-- What is checked of a transaction, in terms of the log before it. -/
def Admits (log : List Tx) (tx : Tx) : Prop :=
  (∀ tx' ∈ log, tx'.now ≤ tx.now) ∧
    match tx.op with
    | .initOracle _ => True
    | .setPrices _ _ _ => tx.sender = feederAt log
    | _ => tx.sender = ownerAt log

/-- The oracle holds what the log gives, and every transaction was admitted. -/
structure Logged (w : World) : Prop where
  owner : w.oracle.owner = ownerAt w.log
  feeder : w.oracle.feeder = feederAt w.log
  store : ∀ token0 token1, w.oracle.store token0 token1 = priceAt token0 token1 w.log
  past : ∀ tx ∈ w.log, tx.now ≤ w.timestamp
  lawful : Lawful Admits w.log

section Prices

variable {now : Nat} {token0 token1 : Address} {o : SimplePriceOracle}

theorem storePrice_store (f : Feed) :
    (o.storePrice now f).store token0 token1 =
      if f.token0 = token0 ∧ f.token1 = token1 then f.data now else o.store token0 token1 := by
  show Function.update o.store f.token0 _ token0 token1 = _
  by_cases h0 : f.token0 = token0
  · subst h0
    rw [Function.update_self]
    by_cases h1 : f.token1 = token1
    · subst h1
      rw [Function.update_self, if_pos ⟨rfl, rfl⟩]
    · rw [Function.update_of_ne (Ne.symm h1), if_neg fun h => h1 h.2]
  · rw [Function.update_of_ne (Ne.symm h0), if_neg fun h => h0 h.1]

/-- The loop leaves the last price of each pair, and the other fields as they were. -/
theorem foldl_storePrice (list : List Feed) :
    (list.foldl (storePrice now) o).store token0 token1 =
      ((list.reverse.find? fun f => f.token0 = token0 ∧ f.token1 = token1).map
        fun f => f.data now).getD (o.store token0 token1) := by
  induction list generalizing o with
  | nil => rfl
  | cons f list ih =>
      rw [List.foldl_cons, ih, storePrice_store, List.reverse_cons, List.find?_append]
      cases hlater : list.reverse.find? fun f => f.token0 = token0 ∧ f.token1 = token1 with
      | some later => rfl
      | none =>
          by_cases hpair : f.token0 = token0 ∧ f.token1 = token1
          · simp [hpair]
          · simp [hpair]

theorem foldl_storePrice_frame (list : List Feed) :
    (list.foldl (storePrice now) o).owner = o.owner ∧
      (list.foldl (storePrice now) o).feeder = o.feeder := by
  induction list generalizing o with
  | nil => exact ⟨rfl, rfl⟩
  | cons f list ih => exact ih

end Prices

section Runs

variable {w w' : World} {tx : Tx}

/-- A transaction writes what the log says that it writes. -/
theorem call_writes {o o' : SimplePriceOracle} (h : call tx o = .ok o') :
    o'.owner = (writesOwner tx).getD o.owner ∧ o'.feeder = (writesFeeder tx).getD o.feeder ∧
      ∀ token0 token1, o'.store token0 token1 =
        (writesPrice token0 token1 tx).getD (o.store token0 token1) := by
  unfold call at h
  unfold writesOwner writesFeeder writesPrice
  cases hop : tx.op with
  | initOracle _feeder =>
      simp only [hop, initOracle, bind_eq_ok, pure_eq_ok] at h
      obtain ⟨_, _, rfl⟩ := h
      exact ⟨rfl, rfl, fun _ _ => rfl⟩
  | setFeeder _feeder =>
      simp only [hop, setFeeder, bind_eq_ok, pure_eq_ok] at h
      obtain ⟨_, _, rfl⟩ := h
      exact ⟨rfl, rfl, fun _ _ => rfl⟩
  -- of the pairs named twice the later one stands
  | setPrices token0s token1s prices =>
      simp only [hop, setPrices, bind_eq_ok, pure_eq_ok] at h
      obtain ⟨_, _, _, _, _, _, rfl⟩ := h
      have hframe := @foldl_storePrice_frame tx.now o (feeds token0s token1s prices)
      exact ⟨hframe.1, hframe.2, fun _ _ => foldl_storePrice _⟩
  | transferOwnership newOwner =>
      simp only [hop, transferOwnership, bind_eq_ok, pure_eq_ok] at h
      obtain ⟨_, _, _, _, rfl⟩ := h
      exact ⟨rfl, rfl, fun _ _ => rfl⟩
  | renounceOwnership =>
      simp only [hop, renounceOwnership, bind_eq_ok, pure_eq_ok] at h
      obtain ⟨_, _, rfl⟩ := h
      exact ⟨rfl, rfl, fun _ _ => rfl⟩

/-- Only the owner appoints, and only the feeder feeds. -/
theorem call_sender {o o' : SimplePriceOracle} (h : call tx o = .ok o') :
    match tx.op with
    | .initOracle _ => True
    | .setPrices _ _ _ => tx.sender = o.feeder
    | _ => tx.sender = o.owner := by
  unfold call at h
  cases hop : tx.op with
  | initOracle => trivial
  | setFeeder =>
      simp only [hop, setFeeder, onlyOwner, bind_eq_ok, require_eq_ok] at h
      obtain ⟨_, howner, _⟩ := h
      exact howner.symm
  | setPrices =>
      simp only [hop, setPrices, bind_eq_ok, require_eq_ok] at h
      obtain ⟨_, hfeeder, _⟩ := h
      exact hfeeder
  | transferOwnership =>
      simp only [hop, transferOwnership, onlyOwner, bind_eq_ok, require_eq_ok] at h
      obtain ⟨_, howner, _⟩ := h
      exact howner.symm
  | renounceOwnership =>
      simp only [hop, renounceOwnership, onlyOwner, bind_eq_ok, require_eq_ok] at h
      obtain ⟨_, howner, _⟩ := h
      exact howner.symm

/-- One more transaction is logged. -/
theorem step_logged (h : Logged w) (hstep : machine.step w tx = .ok w') : Logged w' := by
  simp only [machine, bind_eq_ok, require_eq_ok, pure_eq_ok] at hstep
  obtain ⟨_, htime, oracle, hcall, rfl⟩ := hstep
  obtain ⟨howner, hfeeder, hstore⟩ := call_writes hcall
  have hpast : ∀ tx' ∈ w.log, tx'.now ≤ tx.now :=
    fun tx' hmem => (h.past tx' hmem).trans htime
  refine ⟨?_, ?_, ?_, ?_, ⟨hpast, ?_⟩, h.lawful⟩
  · rw [howner, h.owner]
    rfl
  · rw [hfeeder, h.feeder]
    rfl
  · intro token0 token1
    rw [hstore, h.store]
    rfl
  -- the log's times do not decrease, as the chain's clock does not
  · intro tx' hmem
    rcases List.mem_cons.mp hmem with rfl | hmem
    · exact Nat.le_refl _
    · exact hpast tx' hmem
  · have hsender := call_sender hcall
    rw [h.owner, h.feeder] at hsender
    exact hsender

theorem logged_of_reachable (h : machine.Reachable w) : Logged w := by
  have hinductive : machine.Inductive (fun _ _ => True) Logged := by
    constructor
    · intro w hinit
      cases hinit
      refine ⟨rfl, rfl, fun _ _ => rfl, ?_, trivial⟩
      intro tx hmem
      cases hmem
    · intro w tx w' hw _ hstep
      exact step_logged hw hstep
  exact hinductive.invariant h

end Runs

/-! ## Where a price comes from -/

/-- A call of the feeder of its time has set the price, and no call since has set one for the
pair. -/
structure FedBy (log : List Tx) (token0 token1 : Address) (price time : Nat) (tx : Tx) : Prop where
  split : ∃ later earlier, log = later ++ tx :: earlier ∧ tx.sender = feederAt earlier ∧
    ∀ tx' ∈ later, writesPrice token0 token1 tx' = none
  feed : ∃ token0s token1s prices, tx.op = .setPrices token0s token1s prices ∧
    ∃ fed, { token0, token1, price := fed } ∈ feeds token0s token1s prices ∧ price = fed % 2 ^ 192
  time : tx.now % 2 ^ 64 = time

theorem writesPrice_eq_some {token0 token1 : Address} {tx : Tx} {data : PriceData}
    (h : writesPrice token0 token1 tx = some data) :
    ∃ token0s token1s prices fed, tx.op = .setPrices token0s token1s prices ∧
      { token0, token1, price := fed } ∈ feeds token0s token1s prices ∧
      data = Feed.data { token0, token1, price := fed } tx.now := by
  unfold writesPrice at h
  cases hop : tx.op with
  | setPrices token0s token1s prices =>
      simp only [hop, Option.map_eq_some_iff] at h
      obtain ⟨f, hfind, rfl⟩ := h
      have hpair := List.find?_some hfind
      have hmem := List.mem_reverse.mp (List.mem_of_find?_eq_some hfind)
      simp only [decide_eq_true_eq] at hpair
      obtain ⟨rfl, rfl⟩ := hpair
      exact ⟨token0s, token1s, prices, f.price, rfl, hmem, rfl⟩
  | _ =>
      simp only [hop] at h
      cases h

/-- A price that is read was fed. -/
theorem fedBy_of_getPrice {w : World} (hw : machine.Reachable w) {token0 token1 : Address}
    {price time : Nat} (h : w.oracle.getPrice token0 token1 = .ok (price, time)) :
    ∃ tx, FedBy w.log token0 token1 price time tx ∧ tx.now ≤ w.timestamp := by
  have hlogged := logged_of_reachable hw
  simp only [getPrice, bind_eq_ok, require_eq_ok, pure_eq_ok, Prod.mk.injEq] at h
  obtain ⟨_, ⟨hprice, _⟩, rfl, rfl⟩ := h
  -- a price that is no zero was written, and the log holds the last write
  have hne : w.oracle.store token0 token1 ≠ {} := by
    intro hempty
    rw [hempty] at hprice
    exact hprice rfl
  obtain ⟨later, tx, earlier, hsplit, hwrite, hlater⟩ :=
    exists_write (hlogged.store token0 token1).symm hne
  obtain ⟨token0s, token1s, prices, fed, hop, hmem, hdata⟩ := writesPrice_eq_some hwrite
  have hlawful := hlogged.lawful
  rw [hsplit] at hlawful
  -- only the feeder of that moment was admitted to write it
  have hadmitted := hlawful.admitted.2
  rw [hop] at hadmitted
  refine ⟨tx, ⟨⟨later, earlier, hsplit, hadmitted, hlater⟩, ?_, ?_⟩, ?_⟩
  · refine ⟨token0s, token1s, prices, hop, fed, hmem, ?_⟩
    rw [hdata]
    exact BitVec.toNat_ofNat _ _
  · rw [hdata]
    exact (UInt64.toNat_ofNat' (n := tx.now)).symm
  · apply hlogged.past
    rw [hsplit]
    exact List.mem_append_right _ List.mem_cons_self

end SimplePriceOracle

end Huski.Oracle
