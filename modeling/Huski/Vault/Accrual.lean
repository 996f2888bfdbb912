import Huski.Vault.CashFlow
import Huski.Lib.FloorSum

/-!
# Interest at a constant rate

Any operation that comes first accrues, so that a span of time is cut into accruals in any way.
Every accrual floors its interest and the reserve's part of it; the debt that it accrues on has
the earlier interest in it. So the interest of the span is above simple interest less one unit
for every accrual, and below the interest compounded over the same cuts.
-/

namespace Huski.Vault

open Solidity

/-- `SimpleVaultConfig`, which never sets `getCloseBps`. -/
structure SimpleVaultConfig where
  minDebtSize : Nat
  interestRate : Nat
  getReservePoolBps : Nat
  getCloseBps : Nat := 0
  getKillBps : Nat
  wrappedNativeAddr : Address
  wNativeRelayer : Address
  fairLaunch : Address
  isWorker : Address → Bool
  acceptDebt : Address → Bool
  workFactor : Address → Nat
  killFactor : Address → Nat

/-- What it answers, whatever the debt and the floating are. -/
def SimpleVaultConfig.answers (s : SimpleVaultConfig) : Config where
  minDebtSize := s.minDebtSize
  getInterestRate _ _ := .ok s.interestRate
  getWrappedNativeAddr := s.wrappedNativeAddr
  getWNativeRelayer := s.wNativeRelayer
  getFairLaunchAddr := s.fairLaunch
  getReservePoolBps := s.getReservePoolBps
  getCloseBps := s.getCloseBps
  getKillBps := s.getKillBps
  isWorker := s.isWorker
  acceptDebt worker := do
    require (s.isWorker worker = true) "SimpleVaultConfig::acceptDebt: !worker"
    return s.acceptDebt worker
  workFactor worker _ := do
    require (s.isWorker worker = true) "SimpleVaultConfig::workFactor: !worker"
    return s.workFactor worker
  killFactor worker _ := do
    require (s.isWorker worker = true) "SimpleVaultConfig::killFactor: !worker"
    return s.killFactor worker

variable {F : Type} {ext : Externals F} {s : SimpleVaultConfig} {msg : Msg} {value : Nat}
  {w w' : World F}

/-- Accruals one after another, each with its message and the value that came with it. -/
def accrueAll (ext : Externals F) : List (Msg × Nat) → Ext F
  | [], w => .ok w
  | (msg, value) :: rest, w => do
      let w ← accrue ext msg value w
      accrueAll ext rest w

/-- The spans that calls at these times accrue for: only a time after the last accrual counts. -/
def spans (last : Nat) : List Nat → List Nat
  | [] => []
  | now :: rest => if now > last then (now - last) :: spans now rest else spans last rest

/-! ## One accrual -/

/-- The interest of one accrual. -/
def simpleInterest (rate debt span : Nat) : Nat := rate * debt * span / 10 ^ 18

/-- What an accrual after `span` seconds adds. -/
structure Accrued (s : SimpleVaultConfig) (span : Nat) (w w' : World F) : Prop where
  debt : w'.vault.vaultDebtVal =
    w.vault.vaultDebtVal + simpleInterest s.interestRate w.vault.vaultDebtVal span
  reserve : w'.vault.reservePool = w.vault.reservePool +
    simpleInterest s.interestRate w.vault.vaultDebtVal span * s.getReservePoolBps / 10000
  time : w'.vault.lastAccrueTime = w.vault.lastAccrueTime + span

theorem accrue_late (hconfig : ext.config w = s.answers) (hlate : msg.now > w.vault.lastAccrueTime)
    (h : accrue ext msg value w = .ok w') :
    Accrued s (msg.now - w.vault.lastAccrueTime) w w' := by
  have hspan : w.vault.lastAccrueTime + (msg.now - w.vault.lastAccrueTime) = msg.now :=
    Nat.add_sub_cancel' hlate.le
  simp only [accrue, pendingInterest, hlate, if_true, hconfig, SimpleVaultConfig.answers,
    bind_eq_ok, SafeMath.sub_eq_ok, SafeMath.mul_eq_ok, SafeMath.div_eq_ok, SafeMath.add_eq_ok,
    pure_eq_ok, Except.ok.injEq] at h
  obtain ⟨interest, ⟨_, ⟨_, rfl⟩, _, _, _, _, _, rfl, _, ⟨_, rfl⟩, _, ⟨_, rfl⟩, _, hinterest⟩,
    _, ⟨_, rfl⟩, _, ⟨_, rfl⟩, _, ⟨_, rfl⟩, _, ⟨_, rfl⟩, rfl⟩ := h
  subst hinterest
  exact ⟨rfl, rfl, hspan.symm⟩

/-- A second one at the same time is none. -/
theorem accrue_early (hearly : ¬msg.now > w.vault.lastAccrueTime) :
    accrue ext msg value w = .ok w := if_neg hearly

/-! ## Any cut of a span -/

/-- What accruals over the spans `ts` add to a debt that was `V` or more. -/
structure AccruedOver (s : SimpleVaultConfig) (V : Nat) (ts : List Nat) (w w' : World F) :
    Prop where
  /-- the interest, the reserve's part, and what their floors are of -/
  parts : ∃ interest reserve simple,
    w'.vault.vaultDebtVal = w.vault.vaultDebtVal + interest ∧
    w'.vault.reservePool = w.vault.reservePool + reserve ∧
    s.interestRate * V * ts.sum ≤ simple ∧ FloorSum (10 ^ 18) ts.length interest simple ∧
    FloorSum 10000 ts.length reserve (interest * s.getReservePoolBps)
  compound : (w'.vault.vaultDebtVal : ℚ) ≤
    w.vault.vaultDebtVal * (ts.map fun t : Nat => 1 + (s.interestRate * t : ℚ) / 10 ^ 18).prod
  time : w'.vault.lastAccrueTime = w.vault.lastAccrueTime + ts.sum

theorem AccruedOver.nil (s : SimpleVaultConfig) (V : Nat) (w : World F) :
    AccruedOver s V [] w w where
  parts := by
    refine ⟨0, 0, 0, rfl, rfl, Nat.le_refl _, .zero _, ?_⟩
    rw [Nat.zero_mul]
    exact .zero _
  compound := by simp
  time := rfl

/-- The floor of one step is below its share of the compound. -/
theorem Accrued.compound_le {span : Nat} (h : Accrued s span w w') :
    (w'.vault.vaultDebtVal : ℚ) ≤
      w.vault.vaultDebtVal * (1 + (s.interestRate * span : ℚ) / 10 ^ 18) := by
  have hfloor : (simpleInterest s.interestRate w.vault.vaultDebtVal span : ℚ) ≤
      (s.interestRate * w.vault.vaultDebtVal * span : ℚ) / 10 ^ 18 := by
    unfold simpleInterest
    calc ((s.interestRate * w.vault.vaultDebtVal * span / 10 ^ 18 : Nat) : ℚ)
        ≤ ((s.interestRate * w.vault.vaultDebtVal * span : Nat) : ℚ) / ((10 ^ 18 : Nat) : ℚ) :=
          Nat.cast_div_le
      _ = (s.interestRate * w.vault.vaultDebtVal * span : ℚ) / 10 ^ 18 := by push_cast; rfl
  rw [h.debt, Nat.cast_add]
  calc (w.vault.vaultDebtVal : ℚ) + simpleInterest s.interestRate w.vault.vaultDebtVal span
      ≤ w.vault.vaultDebtVal + (s.interestRate * w.vault.vaultDebtVal * span : ℚ) / 10 ^ 18 := by
        linarith
    _ = w.vault.vaultDebtVal * (1 + (s.interestRate * span : ℚ) / 10 ^ 18) := by ring

theorem AccruedOver.cons {V span : Nat} {ts : List Nat} {w₁ : World F}
    (hV : V ≤ w.vault.vaultDebtVal) (hfirst : Accrued s span w w₁)
    (hrest : AccruedOver s V ts w₁ w') : AccruedOver s V (span :: ts) w w' where
  parts := by
    obtain ⟨interest, reserve, simple, hdebt, hreserve, hsimple, hinterest, hshare⟩ := hrest.parts
    -- the debt only grows, so the interest of the first span is at least that on `V`
    have hpart : s.interestRate * V * span ≤
        s.interestRate * w.vault.vaultDebtVal * span :=
      Nat.mul_le_mul_right _ (Nat.mul_le_mul_left _ hV)
    let first := simpleInterest s.interestRate w.vault.vaultDebtVal span
    refine ⟨first + interest, first * s.getReservePoolBps / 10000 + reserve,
      s.interestRate * w.vault.vaultDebtVal * span + simple, ?_, ?_, ?_,
      hinterest.cons (by norm_num) _, ?_⟩
    · rw [hdebt, hfirst.debt, Nat.add_assoc]
    · rw [hreserve, hfirst.reserve, Nat.add_assoc]
    · rw [List.sum_cons, Nat.mul_add]
      exact Nat.add_le_add hpart hsimple
    · rw [Nat.add_mul]
      exact hshare.cons (by norm_num) _
  compound := by
    have hfirst := hfirst.compound_le
    have hrest := hrest.compound
    -- compounding multiplies by factors of at least one
    have hpos : (0 : ℚ) ≤ (ts.map fun t : Nat => 1 + (s.interestRate * t : ℚ) / 10 ^ 18).prod := by
      refine List.prod_nonneg fun x hx => ?_
      obtain ⟨t, _, rfl⟩ := List.mem_map.mp hx
      positivity
    rw [List.map_cons, List.prod_cons, ← mul_assoc]
    exact hrest.trans (mul_le_mul_of_nonneg_right hfirst hpos)
  time := by rw [hrest.time, hfirst.time, List.sum_cons, Nat.add_assoc]

/-- The run of the accruals, by the first of them. -/
theorem accrueAll_over (hconfig : ∀ w, ext.config w = s.answers) {V : Nat}
    {ops : List (Msg × Nat)} (hV : V ≤ w.vault.vaultDebtVal)
    (h : accrueAll ext ops w = .ok w') :
    AccruedOver s V (spans w.vault.lastAccrueTime (ops.map (·.1.now))) w w' := by
  induction ops generalizing w with
  | nil => exact Except.ok.inj h ▸ .nil s V w
  | cons op rest ih =>
      rcases op with ⟨msg, value⟩
      simp only [accrueAll, bind_eq_ok] at h
      obtain ⟨w₁, hfirst, hrest⟩ := h
      rw [List.map_cons]
      unfold spans
      by_cases hlate : msg.now > w.vault.lastAccrueTime
      · have hstep := accrue_late (hconfig w) hlate hfirst
        have hnow : w₁.vault.lastAccrueTime = msg.now := by
          rw [hstep.time]
          exact Nat.add_sub_cancel' hlate.le
        have hV₁ : V ≤ w₁.vault.vaultDebtVal := by
          rw [hstep.debt]
          exact Nat.le_add_right_of_le hV
        rw [if_pos hlate]
        exact .cons hV hstep (hnow ▸ ih hV₁ hrest)
      -- a second call in one timestamp accrues nothing
      · rw [accrue_early hlate] at hfirst
        obtain rfl := Except.ok.inj hfirst
        rw [if_neg hlate]
        exact ih hV hrest

theorem spans_pos {last : Nat} {times : List Nat} : ∀ t ∈ spans last times, 0 < t := by
  induction times generalizing last with
  | nil => exact fun t ht => absurd ht List.not_mem_nil
  | cons now rest ih =>
      intro t ht
      unfold spans at ht
      split at ht
      · rename_i hlate
        rcases List.mem_cons.mp ht with rfl | ht
        · exact Nat.sub_pos_of_lt hlate
        · exact ih t ht
      · exact ih t ht

/-- Over any cut of a span of time into accruals and nothing else, at the constant rate of a
`SimpleVaultConfig`: the interest is at least the simple interest of the span less one unit for
each accrual, and at most the compound interest over the cuts; each accrual is at a time of its
own; and the reserve gets its part of the whole interest, less one unit for each accrual at most. -/
theorem accrueAll_bounds (ext : Externals F) (s : SimpleVaultConfig)
    (hconfig : ∀ w, ext.config w = s.answers) (ops : List (Msg × Nat)) {w w' : World F}
    (h : accrueAll ext ops w = .ok w') :
    let ts := spans w.vault.lastAccrueTime (ops.map (·.1.now))
    let V := w.vault.vaultDebtVal
    ∃ interest reserve,
      w'.vault.vaultDebtVal = V + interest ∧
      w'.vault.reservePool = w.vault.reservePool + reserve ∧
      w'.vault.lastAccrueTime = w.vault.lastAccrueTime + ts.sum ∧
      s.interestRate * V * ts.sum / 10 ^ 18 ≤ interest + ts.length ∧
      (interest : ℚ) ≤ V * (ts.map fun t : Nat => 1 + (s.interestRate * t : ℚ) / 10 ^ 18).prod - V ∧
      reserve ≤ interest * s.getReservePoolBps / 10000 ∧
      interest * s.getReservePoolBps / 10000 ≤ reserve + ts.length ∧
      (∀ t ∈ ts, 0 < t) ∧
      ∀ msg value, msg.now ≤ w'.vault.lastAccrueTime → accrue ext msg value w' = .ok w' := by
  intro ts V
  have hover : AccruedOver s V ts w w' := accrueAll_over hconfig (Nat.le_refl V) h
  obtain ⟨interest, reserve, simple, hdebt, hreserve, hsimple, hinterest, hshare⟩ := hover.parts
  have hge := hinterest.ge
  have hcompound := hover.compound
  rw [hdebt, Nat.cast_add] at hcompound
  refine ⟨interest, reserve, hdebt, hreserve, hover.time, ?_, by linarith, ?_, ?_, spans_pos,
    fun msg value hearly => accrue_early (Nat.not_lt.mpr hearly)⟩
  · refine Nat.div_le_of_le_mul ?_
    calc s.interestRate * V * ts.sum ≤ simple := hsimple
      _ ≤ interest * 10 ^ 18 + ts.length * 10 ^ 18 := Nat.le_of_add_right_le hge
      _ = 10 ^ 18 * (interest + ts.length) := by ring
  · exact (Nat.le_div_iff_mul_le (by norm_num)).mpr hshare.le
  · refine Nat.div_le_of_le_mul ?_
    calc interest * s.getReservePoolBps
        ≤ reserve * 10000 + ts.length * 10000 := Nat.le_of_add_right_le hshare.ge
      _ = 10000 * (reserve + ts.length) := by ring

/-- A tenth a second, a tenth of the interest to the reserve. -/
def steadyConfig : SimpleVaultConfig where
  minDebtSize := 0
  interestRate := 10 ^ 17
  getReservePoolBps := 1000
  getKillBps := 0
  wrappedNativeAddr := 1
  wNativeRelayer := 2
  fairLaunch := 3
  isWorker _ := true
  acceptDebt _ := true
  workFactor _ := 0
  killFactor _ := 0

def steadyExternals : Externals (Books Unit) :=
  ({ config := steadyConfig.answers, returned := 0, health := .ok 0,
     peers := .quiet } : Outcome Unit).externals 100

/-- A debt of 100 at time 0. -/
def indebtedWorld : World (Books Unit) :=
  (freshWorld ()).setVault { (freshWorld ()).vault with vaultDebtVal := 100 }

def callAt (now : Nat) : Msg × Nat :=
  ({ sender := 50, origin := 50, now, blockNumber := 0 }, 0)

/-- Three seconds in two cuts, with a third call that is too early for another accrual. -/
theorem accrueAll_bounds_three : ∃ interest : Nat,
    (accrueAll steadyExternals [callAt 1, callAt 1, callAt 3] indebtedWorld).toOption.map
      (·.vault.vaultDebtVal) = some 132 ∧ 132 = 100 + interest ∧
    10 ^ 17 * 100 * 3 / 10 ^ 18 ≤ interest + 2 := by
  have hrun : (accrueAll steadyExternals [callAt 1, callAt 1, callAt 3]
      indebtedWorld).toOption.map (·.vault.vaultDebtVal) = some 132 := by
    decide +kernel
  obtain ⟨w', hw', hdebt⟩ := Option.map_eq_some_iff.mp hrun
  obtain ⟨interest, _, hinterest, _, _, hlower, _⟩ :=
    accrueAll_bounds steadyExternals steadyConfig (fun _ => rfl) _ (toOption_eq_some.mp hw')
  exact ⟨interest, hrun, hdebt ▸ hinterest, hlower⟩

end Huski.Vault
