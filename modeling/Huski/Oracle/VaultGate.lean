import Huski.Oracle.Stability

/-!
# What the vault does at which price

`BasicVaultConfig.sol` passes the questions of the vault on to the configuration of the worker. The
vault gives a loan, leaves a position in debt and liquidates one only if the answer is not a
revert. With the configurations of this repository and the oracle that is fed, all three happen at
a moment when the pairs of the worker are near a price of the feeder: the loan before the worker is
called, and the debt that is left after.
-/

open Solidity

namespace Huski.Oracle

open Pancake

/-! ## BasicVaultConfig -/

/-- What `BasicVaultConfig` answers from. -/
structure BasicVaultConfig where
  minDebtSize : Nat := 0
  getReservePoolBps : Nat := 0
  getCloseBps : Nat := 0
  getKillBps : Nat := 0
  /-- from the worker to its configuration -/
  workers : Address → Address := fun _ => 0
  interestModel : Address := 0
  wrappedNative : Address := 0
  wNativeRelayer : Address := 0
  fairLaunch : Address := 0

namespace BasicVaultConfig

variable (c : BasicVaultConfig)

/-- What the vault is answered. A worker without a configuration has no code to ask. -/
def answers (interestModels : Address → Nat → Nat → Result Nat)
    (configs : Address → IWorkerConfig) : Vault.Config where
  minDebtSize := c.minDebtSize
  getInterestRate := interestModels c.interestModel
  getWrappedNativeAddr := c.wrappedNative
  getWNativeRelayer := c.wNativeRelayer
  getFairLaunchAddr := c.fairLaunch
  getReservePoolBps := c.getReservePoolBps
  getCloseBps := c.getCloseBps
  getKillBps := c.getKillBps
  isWorker worker := c.workers worker ≠ 0
  acceptDebt worker := do
    require (c.workers worker ≠ 0) ""
    (configs (c.workers worker)).acceptDebt worker
  workFactor worker debt := do
    require (c.workers worker ≠ 0) ""
    (configs (c.workers worker)).workFactor worker debt
  killFactor worker debt := do
    require (c.workers worker ≠ 0) ""
    (configs (c.workers worker)).killFactor worker debt

end BasicVaultConfig

/-! ## The contracts behind the vault -/

/-- What there is on the chain when the vault asks. -/
structure Gate where
  vaultConfig : BasicVaultConfig
  interestModels : Address → Nat → Nat → Result Nat
  /-- the two configurations of workers, and the others -/
  workerConfigAddress : Address
  workerConfig : WorkerConfig
  cakeMaxiConfigAddress : Address
  cakeMaxiConfig : CakeMaxiWorkerConfig
  others : Address → IWorkerConfig
  /-- the oracle that is fed, and the others -/
  oracleAddress : Address
  fed : SimplePriceOracle.World
  oracles : Address → PriceOracle
  factory : Factory
  market : Market
  lpToken : Address → Address
  baseToken : Address → Address
  farmingToken : Address → Address
  distinct : workerConfigAddress ≠ cakeMaxiConfigAddress

namespace Gate

variable (g : Gate) (now : Nat)

/-- The oracles, with the fed one among them. -/
def oracle : Address → PriceOracle :=
  Function.update g.oracles g.oracleAddress g.fed.oracle.getPrice

/-- The configurations, by their addresses. -/
def configs (config : Address) : IWorkerConfig :=
  if config = g.workerConfigAddress then
    g.workerConfig.answers g.factory g.market g.oracle g.lpToken now
  else if config = g.cakeMaxiConfigAddress then
    g.cakeMaxiConfig.answers g.factory g.market g.oracle g.baseToken g.farmingToken now
  else g.others config

def answers : Vault.Config := g.vaultConfig.answers g.interestModels (g.configs now)

/-- The worker has one of the two configurations, and its configuration asks the oracle that is
fed. -/
structure Registers (worker : Address) : Prop where
  config : g.vaultConfig.workers worker = g.workerConfigAddress ∨
    g.vaultConfig.workers worker = g.cakeMaxiConfigAddress
  workerConfig : g.vaultConfig.workers worker = g.workerConfigAddress →
    g.workerConfig.oracle = g.oracleAddress
  cakeMaxiConfig : g.vaultConfig.workers worker = g.cakeMaxiConfigAddress →
    g.cakeMaxiConfig.oracle = g.oracleAddress

/-- The pair is near a price that the feeder of its time has set no longer ago than `maxAge`, and
that has not been replaced. -/
def PairFed (maxAge maxPriceDiff : Nat) (lp : Address) : Prop :=
  ∃ price time tx,
    SimplePriceOracle.FedBy g.fed.log (g.factory.token0 lp) (g.factory.token1 lp) price time tx ∧
    tx.now ≤ now ∧ now ≤ tx.now + maxAge ∧
    (g.market.pair lp).reserve1 * 10 ^ 18 * 10000 <
      (price * maxPriceDiff + 10000) * (g.market.pair lp).reserve0 ∧
    price * 10000 * (g.market.pair lp).reserve0 <
      ((g.market.pair lp).reserve1 * 10 ^ 18 + (g.market.pair lp).reserve0) * maxPriceDiff ∧
    g.market.balanceOf (g.factory.token0 lp) lp * 100 ≤ (g.market.pair lp).reserve0 * 101 ∧
    g.market.balanceOf (g.factory.token1 lp) lp * 100 ≤ (g.market.pair lp).reserve1 * 101

/-- All pairs that the configuration of the worker looks at are so. -/
structure WorkerFed (worker : Address) : Prop where
  lp : g.vaultConfig.workers worker = g.workerConfigAddress →
    g.PairFed now (7 * 86400) (g.workerConfig.workers worker).maxPriceDiff.toNat (g.lpToken worker)
  path : g.vaultConfig.workers worker = g.cakeMaxiConfigAddress →
    ∀ input output, [input, output] <:+:
      g.cakeMaxiConfig.path g.baseToken g.farmingToken worker →
      g.PairFed now 86400 (g.cakeMaxiConfig.workers worker).maxPriceDiff.toNat
        (g.factory.getPair input output)

variable {g now} {worker : Address}

theorem pairFed_of_checkPair {contract : String} {maxAge maxPriceDiff : Nat} {lp : Address}
    (hfed : SimplePriceOracle.machine.Reachable g.fed) (htime : g.fed.timestamp ≤ now)
    (hnow : now < wordSize)
    (h : checkPair contract maxAge g.factory g.market g.fed.oracle.getPrice now maxPriceDiff lp =
      .ok ()) : g.PairFed now maxAge maxPriceDiff lp := by
  obtain ⟨price, time, hprice, hnear⟩ := near_of_checkPair h
  obtain ⟨tx, hfedBy, hpast⟩ := SimplePriceOracle.fedBy_of_getPrice hfed hprice
  have hbounds := hnear.bounds
  refine ⟨price, time, tx, hfedBy, hpast.trans htime, ?_, hbounds.1, hbounds.2, hnear.balance0,
    hnear.balance1⟩
  -- the age is counted in words, and the time of a price has 64 bits
  have hkept : time ≤ tx.now := by
    rw [← hfedBy.time]
    exact Nat.mod_le _ _
  have hfresh := hnear.fresh
  by_cases hearly : now < maxAge
  · omega
  · have hage : wrappingSub now maxAge = now - maxAge := by
      unfold wrappingSub
      have hsplit : now + wordSize - maxAge = now - maxAge + wordSize := by omega
      rw [hsplit, Nat.add_mod_right, Nat.mod_eq_of_lt (by omega)]
    omega

theorem checkPath_pair {getPrice : PriceOracle} {maxPriceDiff : Nat} {path : List Address}
    (h : CakeMaxiWorkerConfig.checkPath g.factory g.market now getPrice maxPriceDiff path = .ok ())
    {input output : Address} (hpair : [input, output] <:+: path) :
    checkPair "CakeMaxiWorkerConfig" 86400 g.factory g.market getPrice now maxPriceDiff
      (g.factory.getPair input output) = .ok () := by
  induction path with
  | nil =>
      have hnil := List.infix_nil.mp hpair
      cases hnil
  | cons first rest ih =>
      cases rest with
      | nil =>
          have hlength := hpair.length_le
          simp at hlength
      | cons second rest =>
          simp only [CakeMaxiWorkerConfig.checkPath, bind_eq_ok, require_eq_ok] at h
          obtain ⟨_, _, _, hfirst, hrest⟩ := h
          rcases List.infix_cons_iff.mp hpair with hprefix | hlater
          · obtain ⟨tail, htail⟩ := hprefix
            cases htail
            exact hfirst
          · exact ih hrest hlater

/-- The stability that a configuration asks for. -/
def isStable (g : Gate) (now : Nat) (config worker : Address) : Result Bool :=
  if config = g.workerConfigAddress then
    g.workerConfig.isStable g.factory g.market g.oracle g.lpToken now worker
  else g.cakeMaxiConfig.isStable g.factory g.market g.oracle g.baseToken g.farmingToken now worker

theorem stable_of_ifStable {α : Type} {stable : Address → Result Bool} {message : String}
    {setting a : α} (h : WorkerConfig.ifStable stable message worker setting = .ok a) :
    stable worker = .ok true := by
  simp only [WorkerConfig.ifStable, bind_eq_ok, require_eq_ok] at h
  obtain ⟨b, hstable, _, hb, _⟩ := h
  rw [hstable, hb]

/-- The three questions of the vault have an answer for a stable worker only. -/
theorem stable_of_answer {config : Address} {α : Type} (ask : IWorkerConfig → Result α) {a : α}
    (hconfig : config = g.workerConfigAddress ∨ config = g.cakeMaxiConfigAddress)
    (hworker : ∀ {b}, ask (g.workerConfig.answers g.factory g.market g.oracle g.lpToken now) =
      .ok b → g.workerConfig.isStable g.factory g.market g.oracle g.lpToken now worker = .ok true)
    (hcakeMaxi : ∀ {b}, ask (g.cakeMaxiConfig.answers g.factory g.market g.oracle g.baseToken
      g.farmingToken now) = .ok b →
      g.cakeMaxiConfig.isStable g.factory g.market g.oracle g.baseToken g.farmingToken now worker =
        .ok true)
    (h : ask (g.configs now config) = .ok a) : g.isStable now config worker = .ok true := by
  unfold configs at h
  unfold isStable
  split
  · rename_i hfirst
    rw [if_pos hfirst] at h
    exact hworker h
  · rename_i hfirst
    rw [if_neg hfirst, if_pos (hconfig.resolve_left hfirst)] at h
    exact hcakeMaxi h

/-- A stable worker is at prices that were fed. -/
theorem workerFed_of_stable (hfed : SimplePriceOracle.machine.Reachable g.fed)
    (htime : g.fed.timestamp ≤ now) (hnow : now < wordSize) (hregisters : g.Registers worker)
    (h : g.isStable now (g.vaultConfig.workers worker) worker = .ok true) :
    g.WorkerFed now worker := by
  have horacle : ∀ {a}, a = g.oracleAddress → g.oracle a = g.fed.oracle.getPrice := by
    intro a ha
    rw [ha, oracle, Function.update_self]
  unfold isStable at h
  constructor
  · intro hconfig
    rw [if_pos hconfig] at h
    simp only [WorkerConfig.isStable, bind_eq_ok, horacle (hregisters.workerConfig hconfig)] at h
    obtain ⟨_, hcheck, _⟩ := h
    exact pairFed_of_checkPair hfed htime hnow hcheck
  · intro hconfig input output hpair
    have hother : g.vaultConfig.workers worker ≠ g.workerConfigAddress :=
      fun heq => g.distinct (heq.symm.trans hconfig)
    rw [if_neg hother] at h
    simp only [CakeMaxiWorkerConfig.isStable, bind_eq_ok,
      horacle (hregisters.cakeMaxiConfig hconfig)] at h
    obtain ⟨_, hcheck, _⟩ := h
    exact pairFed_of_checkPair hfed htime hnow (checkPath_pair hcheck hpair)

section Answers

variable (hfed : SimplePriceOracle.machine.Reachable g.fed) (htime : g.fed.timestamp ≤ now)
  (hnow : now < wordSize) (hregisters : g.Registers worker)

include hfed htime hnow hregisters

/-- A worker that accepts debt was checked against the fed price. -/
theorem workerFed_of_acceptDebt {accepted : Bool}
    (h : (g.answers now).acceptDebt worker = .ok accepted) : g.WorkerFed now worker := by
  simp only [answers, BasicVaultConfig.answers, bind_eq_ok] at h
  obtain ⟨_, _, h⟩ := h
  have hstable := stable_of_answer (fun config => config.acceptDebt worker) hregisters.config
    stable_of_ifStable stable_of_ifStable h
  exact workerFed_of_stable hfed htime hnow hregisters hstable

/-- A worker that answers its work factor was checked against the fed price. -/
theorem workerFed_of_workFactor {debt factor : Nat}
    (h : (g.answers now).workFactor worker debt = .ok factor) : g.WorkerFed now worker := by
  simp only [answers, BasicVaultConfig.answers, bind_eq_ok] at h
  obtain ⟨_, _, h⟩ := h
  have hstable := stable_of_answer (fun config => config.workFactor worker debt) hregisters.config
    stable_of_ifStable stable_of_ifStable h
  exact workerFed_of_stable hfed htime hnow hregisters hstable

theorem workerFed_of_killFactor {debt factor : Nat}
    (h : (g.answers now).killFactor worker debt = .ok factor) : g.WorkerFed now worker := by
  simp only [answers, BasicVaultConfig.answers, bind_eq_ok] at h
  obtain ⟨_, _, h⟩ := h
  have hstable := stable_of_answer (fun config => config.killFactor worker debt) hregisters.config
    stable_of_ifStable stable_of_ifStable h
  exact workerFed_of_stable hfed htime hnow hregisters hstable

end Answers

end Gate

/-! ## The vault at the gate -/

section Vault

open Vault

variable {F : Type} {ext : Externals F} {msg : Msg} {w w' : World F}

theorem checkLoan_eq_ok {worker : Address} {loan : Nat} {u : Unit}
    (h : checkLoan ext worker loan w = .ok u) (hloan : 0 < loan) :
    ∃ accepted, (ext.config w).acceptDebt worker = .ok accepted := by
  unfold checkLoan at h
  rw [if_neg (Nat.ne_of_gt hloan)] at h
  obtain ⟨accepted, haccepted, _⟩ := bind_eq_ok.mp h
  exact ⟨accepted, haccepted⟩

/-- The loan is checked where the position is in scope and the worker has not been called. -/
theorem work_accepted {id : PositionId} {worker : Address} {principalAmount loan maxReturn : Nat}
    {data : WorkData} (h : _work ext msg id worker principalAmount loan maxReturn data w = .ok w')
    (r : WorkRun ext msg id worker principalAmount loan maxReturn data w w') (hloan : 0 < loan) :
    ∃ accepted, (ext.config (enterScope msg r.id' data.strategy r.selected)).acceptDebt worker =
      .ok accepted := by
  simp only [_work, bind_eq_ok, r.select, Except.ok.injEq] at h
  obtain ⟨_, _, _, rfl, _, _, _, hcheck, _⟩ := h
  exact checkLoan_eq_ok hcheck hloan

variable {gate : World F → Gate}

/-- What holds of the gates during a call: they answer the vault, and the oracle that is fed has
come to where it is by its transactions, none of them later than the call. -/
structure Gated (ext : Externals F) (now : Nat) (gate : World F → Gate) : Prop where
  config : ∀ w, ext.config w = (gate w).answers now
  reachable : ∀ w, SimplePriceOracle.machine.Reachable (gate w).fed
  timestamp : ∀ w, (gate w).fed.timestamp ≤ now

/-- If the vault gives a loan, then the pairs of the worker are near fed prices before the worker
is called; and if it leaves a debt, then they are so after. -/
theorem loan_at_fed_price {id : PositionId} {worker : Address}
    {principalAmount loan maxReturn : Nat} {data : WorkData} (hgate : Gated ext msg.now gate)
    (hnow : msg.now < wordSize)
    (h : work ext msg id worker principalAmount loan maxReturn data w = .ok w') :
    ∃ (w₁ w₂ : World F) (r : WorkRun ext msg id worker principalAmount loan maxReturn data w₁ w₂),
      WorkEntered ext msg principalAmount w w₁ ∧
      w' = w₂.setVault (w₂.vault.setNotEntered true) ∧
      (0 < loan → (gate (enterScope msg r.id' data.strategy r.selected)).Registers worker →
        (gate (enterScope msg r.id' data.strategy r.selected)).WorkerFed msg.now worker) ∧
      (0 < r.left → (gate r.worked).Registers worker →
        (gate r.worked).WorkerFed msg.now worker) := by
  obtain ⟨_, pulled, settled, hpull, hacc, hlocked⟩ := work_eq_ok h
  obtain ⟨_, w₂, hwork, hexit⟩ := nonReentrant_eq_ok hlocked
  obtain ⟨r⟩ := work_run hwork
  refine ⟨_, w₂, r, ⟨pulled, settled, hpull, hacc, rfl⟩, hexit, ?_, ?_⟩
  · intro hloan hregisters
    obtain ⟨accepted, haccepted⟩ := work_accepted hwork r hloan
    rw [hgate.config] at haccepted
    exact Gate.workerFed_of_acceptDebt (hgate.reachable _) (hgate.timestamp _) hnow hregisters
      haccepted
  · intro hleft hregisters
    rcases updateDebt_eq_ok r.update with ⟨hnone, _⟩ | ⟨_, health, factor, v, hborrowed, _⟩
    · exact absurd hnone (Nat.ne_of_gt hleft)
    · have hfactor := hborrowed.factor_eq
      rw [hgate.config] at hfactor
      exact Gate.workerFed_of_workFactor (hgate.reachable _) (hgate.timestamp _) hnow hregisters
        hfactor

/-- The feeder 51 says that one of token 1 is two of token 2. -/
def Gate.feeding : List SimplePriceOracle.Tx :=
  [{ sender := 50, now := 999990, op := .initOracle 51 },
   { sender := 51, now := 999995, op := .setPrices [1] [2] [2 * 10 ^ 18] }]

def fedRun : Result SimplePriceOracle.World := SimplePriceOracle.machine.run {} Gate.feeding

/-- The workers farm pair 40, at the price of the feeder, up to ten percent. -/
def Gate.one (fed : SimplePriceOracle.World) : Gate where
  vaultConfig :=
    { getReservePoolBps := 1000, getCloseBps := 100, getKillBps := 100
      workers := fun _ => 20, wrappedNative := 1, wNativeRelayer := 2, fairLaunch := 3 }
  interestModels _ _ _ := .ok 0
  workerConfigAddress := 20
  workerConfig :=
    { oracle := 30
      workers := fun _ =>
        { acceptDebt := true, workFactor := 5000, killFactor := 7500, maxPriceDiff := 11000 } }
  cakeMaxiConfigAddress := 21
  cakeMaxiConfig := { oracle := 30, wNative := 1 }
  others _ := ⟨fun _ => .error "", fun _ _ => .error "", fun _ _ => .error ""⟩
  oracleAddress := 30
  fed
  oracles _ _ _ := .error ""
  factory :=
    { WETH := 1, getPair := fun _ _ => 40, token0 := fun _ => 1, token1 := fun _ => 2 }
  market :=
    { pair := fun _ =>
        { reserve0 := 1000, reserve1 := 2100, totalSupply := 1400, balanceOf := fun _ => 0 }
      balanceOf := fun token _ => if token = 1 then 1000 else 2100 }
  lpToken _ := 40
  baseToken _ := 1
  farmingToken _ := 2
  distinct := by decide

theorem Gate.one_registers (fed : SimplePriceOracle.World) (worker : Address) :
    (Gate.one fed).Registers worker := by
  exact ⟨.inl rfl, fun _ => rfl, fun _ => rfl⟩

/-- The calls of `Externals.lending`, at the gate. -/
def Externals.gated (fed : SimplePriceOracle.World) (health : Nat) : Vault.Externals Unit :=
  { Vault.Externals.lending with
    config := fun _ => (Gate.one fed).answers 1000000
    workerHealth := fun _ _ _ => .ok health }

def keeper : Msg := { sender := 50, origin := 50, now := 1000000, blockNumber := 1 }

/-- Account 50 takes a loan of 10. -/
def gatedWork (fed : SimplePriceOracle.World) : Result (World Unit) :=
  lendStart >>= work (Externals.gated fed 20) keeper 0 7 0 10 0 { strategy := 8, ext := [] }

theorem gated_feeding {fed : SimplePriceOracle.World}
    (h : fedRun = .ok fed) (health : Nat) :
    Gated (Externals.gated fed health) keeper.now fun _ => Gate.one fed := by
  have hreach : SimplePriceOracle.machine.Reachable fed :=
    TSys.run_reachableBy (.init rfl) (fun _ _ _ => trivial) h
  refine ⟨fun _ => rfl, fun _ => hreach, fun _ => ?_⟩
  have htime : fedRun.map SimplePriceOracle.World.timestamp = .ok 999995 := by rfl
  rw [h] at htime
  have htime : fed.timestamp = 999995 := Except.ok.inj htime
  show fed.timestamp ≤ 1000000
  omega

theorem loan_at_fed_price_one : ∃ fed w, fedRun = .ok fed ∧
    gatedWork fed = .ok w ∧ (Gate.one fed).PairFed 1000000 (7 * 86400) 11000 40 := by
  have htest : fedRun.map
      (fun fed => (gatedWork fed).map fun w => (w.vault.positions 1).debtShare) =
        .ok (.ok 10) := by decide +kernel
  cases hfed : fedRun with
  -- both runs end without an error, by evaluation
  | error e =>
      rw [hfed] at htest
      cases htest
  | ok fed =>
      rw [hfed] at htest
      have htest : (gatedWork fed).map (fun w => (w.vault.positions 1).debtShare) = .ok 10 :=
        Except.ok.inj htest
      cases hrun : gatedWork fed with
      | error e =>
          rw [hrun] at htest
          cases htest
      | ok w =>
          obtain ⟨w₁, _, hwork⟩ := bind_eq_ok.mp hrun
          obtain ⟨_, _, _, _, _, hloan, _⟩ := loan_at_fed_price (gated_feeding hfed 20)
            (by decide) hwork
          exact ⟨fed, w, rfl, hrun, (hloan (by decide) (Gate.one_registers fed 7)).lp rfl⟩

/-- If the vault liquidates a position, then the pairs of its worker are near fed prices. -/
theorem kill_at_fed_price {id : PositionId} (hgate : Gated ext msg.now gate)
    (hnow : msg.now < wordSize) (h : kill ext msg id w = .ok w') :
    ∃ (w₁ w₂ : World F) (r : KillRun ext msg id w₁ w₂), KillEntered ext msg w w₁ ∧
      w' = w₂.setVault (w₂.vault.setNotEntered true) ∧
      ((gate (r.withdrawn.setVault r.debtless)).Registers (r.debtless.positions id).worker →
        (gate (r.withdrawn.setVault r.debtless)).WorkerFed msg.now
          (r.debtless.positions id).worker) := by
  obtain ⟨_, settled, hacc, hlocked⟩ := kill_eq_ok h
  obtain ⟨_, w₂, hkill, hexit⟩ := nonReentrant_eq_ok hlocked
  obtain ⟨r⟩ := kill_run hkill
  refine ⟨_, w₂, r, ⟨settled, hacc, rfl⟩, hexit, ?_⟩
  intro hregisters
  have hfactor := r.killFactor_eq
  rw [hgate.config] at hfactor
  exact Gate.workerFed_of_killFactor (hgate.reachable _) (hgate.timestamp _) hnow hregisters
    hfactor

/-- What the position is worth has halved. -/
def gatedKill (fed : SimplePriceOracle.World) : Result (World Unit) :=
  gatedWork fed >>= kill (Externals.gated fed 10) keeper 1

theorem kill_at_fed_price_one : ∃ fed w, fedRun = .ok fed ∧
    gatedKill fed = .ok w ∧ (Gate.one fed).PairFed 1000000 (7 * 86400) 11000 40 := by
  have htest : fedRun.map
      (fun fed => (gatedKill fed).map fun w => (w.vault.positions 1).debtShare) =
        .ok (.ok 0) := by decide +kernel
  cases hfed : fedRun with
  | error e =>
      rw [hfed] at htest
      cases htest
  | ok fed =>
      rw [hfed] at htest
      have htest : (gatedKill fed).map (fun w => (w.vault.positions 1).debtShare) = .ok 0 :=
        Except.ok.inj htest
      cases hrun : gatedKill fed with
      | error e =>
          rw [hrun] at htest
          cases htest
      | ok w =>
          obtain ⟨w₁, _, hkill⟩ := bind_eq_ok.mp hrun
          obtain ⟨_, _, r, _, _, hnear⟩ :=
            kill_at_fed_price (gated_feeding hfed 10) (by decide) hkill
          exact ⟨fed, w, rfl, hrun, (hnear (Gate.one_registers fed _)).lp rfl⟩

end Vault

end Huski.Oracle
