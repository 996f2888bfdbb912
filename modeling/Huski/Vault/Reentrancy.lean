import Huski.Vault.Spec
import Huski.Lib.TSys

/-!
# Re-entrant calls and the execution scope

Here a call the vault makes may do anything the callee can: change everything
outside the vault, and call the vault again, with any sender and at any depth
(`Reenter`). What protects `requestFunds` is the scope `work` opens around its
worker: while it is open the vault is locked against every call that would change
it, and while it is closed `requestFunds` reverts. `Kept` is the invariant of every
nesting: a call that returns leaves the locks and the scope as it found them, and
every transfer it made came from the account that opened the scope.
-/

namespace Huski.Vault

open Solidity

variable {F : Type}

/-! ## What an adversary can do -/

/-- Nothing but the outside changes. -/
def Outside (w w' : World F) : Prop :=
  w'.vault = w.vault ∧ w'.pulls = w.pulls ∧ w'.execution = w.execution

/-- One action in a transaction of `origin`, re-entrant calls nested at most `n` deep:
the outside changes, or the vault is called and everything it calls acts likewise. -/
def Reenter (origin : Address) : Nat → World F → World F → Prop
  | 0 => Outside
  | n + 1 => fun w w' => Outside w w' ∨
      ∃ (ext : Externals F) (msg : Msg) (c : Call), msg.origin = origin ∧
        ext.Within (Relation.ReflTransGen (Reenter origin n)) ∧ call ext msg c w = .ok w'

/-- A transaction: any number of actions, at any depth. -/
def Transaction (w w' : World F) : Prop :=
  ∃ origin n, Relation.ReflTransGen (Reenter origin n) w w'

/-- The vault as its initialization leaves it. -/
structure Fresh (w : World F) : Prop where
  vault : ∃ msg config token debtToken, w.vault = initStorage msg config token debtToken
  pulls : w.pulls = []
  execution : w.execution = none

/-! ## The scope -/

/-- The part of the storage that guards `requestFunds`. -/
structure Scope where
  notEntered : Bool
  inExecLock : ExecLock
  positionId : PositionId
  strategy : Address
  owner : PositionId → Address

/-- What is stored of the scope. -/
def scope (v : Storage) : Scope :=
  { notEntered := v.notEntered
    inExecLock := v.inExecLock
    positionId := v.positionId
    strategy := v.strategy
    owner := fun id => (v.positions id).owner }

/-- The scope is open exactly while a `work` of the transaction's origin is on the
stack, and then it names that caller's position and the strategy recorded for it. -/
structure ScopeWf (origin : Address) (s : Scope) (execution : Option Execution) : Prop where
  unlocked : s.notEntered = true → execution = none ∧ s.inExecLock = .notEntered
  closed : execution = none → s.positionId = noId ∧ s.strategy = noAddress
  opened : ∀ x, execution = some x →
    s.strategy = x.strategy ∧ s.owner s.positionId = x.caller ∧ x.caller = origin

/-- A transfer from the caller of the running `work`, who sent the transaction, to the
strategy it recorded. -/
def Authorized (origin : Address) (p : Pull) : Prop :=
  p.origin = origin ∧ ∃ x, p.during = some x ∧ p.sender = x.caller ∧
    p.recipient = x.strategy ∧ x.caller = origin

/-- What a call that returns leaves alone. -/
structure Guarded (origin : Address) (w w' : World F) : Prop where
  wf : ScopeWf origin (scope w'.vault) w'.execution
  notEntered : w'.vault.notEntered = w.vault.notEntered
  inExecLock : w'.vault.inExecLock = w.vault.inExecLock
  positionId : w'.vault.positionId = w.vault.positionId
  strategy : w'.vault.strategy = w.vault.strategy
  execution : w'.execution = w.execution
  pulls : ∃ new, w'.pulls = new ++ w.pulls ∧ ∀ p ∈ new, Authorized origin p

/-- While the vault is locked no position changes hands. -/
structure Kept (origin : Address) (w w' : World F) : Prop extends Guarded origin w w' where
  owner : w.vault.notEntered = false → ∀ id,
    (w'.vault.positions id).owner = (w.vault.positions id).owner

/-- `Kept`, from a well-formed scope. -/
def Keeps (origin : Address) (w w' : World F) : Prop :=
  ScopeWf origin (scope w.vault) w.execution → Kept origin w w'

variable {origin : Address} {ext : Externals F} {msg : Msg} {w w' : World F}

theorem Guarded.trans {a b c : World F} (hab : Guarded origin a b) (hbc : Guarded origin b c) :
    Guarded origin a c := by
  obtain ⟨new, hnew, hauth⟩ := hab.pulls
  obtain ⟨new', hnew', hauth'⟩ := hbc.pulls
  refine ⟨hbc.wf, hbc.notEntered.trans hab.notEntered, hbc.inExecLock.trans hab.inExecLock,
    hbc.positionId.trans hab.positionId, hbc.strategy.trans hab.strategy,
    hbc.execution.trans hab.execution, new' ++ new, ?_, fun p hp => ?_⟩
  · rw [hnew', hnew, List.append_assoc]
  · rcases List.mem_append.mp hp with hp | hp
    · exact hauth' p hp
    · exact hauth p hp

theorem Kept.trans {a b c : World F} (hab : Kept origin a b) (hbc : Kept origin b c) :
    Kept origin a c where
  toGuarded := hab.toGuarded.trans hbc.toGuarded
  owner hlocked id :=
    (hbc.owner (hab.notEntered.trans hlocked) id).trans (hab.owner hlocked id)

theorem Keeps.trans {a b c : World F} (hab : Keeps origin a b) (hbc : Keeps origin b c) :
    Keeps origin a c :=
  fun hwf => (hab hwf).trans (hbc (hab hwf).wf)

/-- Writing what the scope does not look at. -/
theorem Keeps.of_scope {v : Storage} (h : scope v = scope w.vault) :
    Keeps origin w (w.setVault v) := fun hwf =>
  { wf := h ▸ hwf
    notEntered := congrArg Scope.notEntered h
    inExecLock := congrArg Scope.inExecLock h
    positionId := congrArg Scope.positionId h
    strategy := congrArg Scope.strategy h
    execution := rfl
    pulls := ⟨[], rfl, by simp⟩
    owner := fun _ id => congrFun (congrArg Scope.owner h) id }

theorem Keeps.refl (w : World F) : Keeps origin w w := by
  have h : Keeps origin w (w.setVault w.vault) := .of_scope rfl
  exact h

/-- A step outside of the vault keeps the scope. -/
theorem Keeps.of_outside (h : Outside w w') : Keeps origin w w' := by
  obtain ⟨hv, hp, he⟩ := h
  obtain ⟨v, rest, pulls, execution⟩ := w'
  subst hv hp he
  exact fun hwf => ⟨⟨hwf, rfl, rfl, rfl, rfl, rfl, [], rfl, by simp⟩, fun _ _ => rfl⟩

@[simp] theorem scope_setIbToken (v : Storage) (t : ERC20) :
    scope (v.setIbToken t) = scope v := rfl
@[simp] theorem scope_setReservePool (v : Storage) (n : Nat) :
    scope (v.setReservePool n) = scope v := rfl

@[simp] theorem scope_setDebtToken (v : Storage) (debtToken : Address) (pid : Nat) :
    scope (v.setDebtToken debtToken pid) = scope v := rfl

/-- Writing a position for the same owner leaves the scope. -/
theorem scope_setPosition {v : Storage} {id : PositionId} {pos : Position}
    (howner : pos.owner = (v.positions id).owner) : scope (v.setPosition id pos) = scope v := by
  simp only [scope, Storage.setPosition]
  congr 1
  funext i
  by_cases hi : i = id <;> simp [hi, howner]

theorem removeDebt_scope {id : PositionId} {cleared : Nat} {v v' : Storage}
    (h : _removeDebt id v = .ok (cleared, v')) : scope v' = scope v := by
  rcases removeDebt_eq_ok h with ⟨_, _, rfl⟩ | ⟨_, _, _, _, rfl⟩
  · rfl
  · have hscope : scope (v.setDebtShare id 0) = scope v := scope_setPosition rfl
    exact hscope

theorem addDebt_scope {id : PositionId} {debt : Nat} {v v' : Storage}
    (h : _addDebt id debt v = .ok v') : scope v' = scope v := by
  obtain ⟨debtShare, _, rfl⟩ := addDebt_eq_ok h
  have hscope : scope (v.setDebtShare id ((v.positions id).debtShare + debtShare)) = scope v :=
    scope_setPosition rfl
  exact hscope

/-! ## The modifiers -/

theorem accrue_keeps {value : Nat} (h : accrue ext msg value w = .ok w') :
    Keeps origin w w' := by
  obtain ⟨_, _, _, hacc⟩ := accrue_eq_ok h
  rw [hacc.world]
  exact .of_scope rfl

/-- A body that is guarded under the lock is kept as a whole. -/
theorem nonReentrant_keeps {body : Ext F} (h : nonReentrant body w = .ok w')
    (hbody : ∀ w₁ w₂, ScopeWf origin (scope w₁.vault) w₁.execution →
      w₁.vault.notEntered = false → w₁.execution = none → body w₁ = .ok w₂ →
      Guarded origin w₁ w₂) : Keeps origin w w' := by
  intro hwf
  obtain ⟨hfree, w₁, hrun, rfl⟩ := nonReentrant_eq_ok h
  obtain ⟨hidle, hexec⟩ := hwf.unlocked hfree
  have hlocked : ScopeWf origin (scope (w.vault.setNotEntered false)) w.execution :=
    ⟨fun hlock => absurd hlock Bool.false_ne_true, hwf.closed, hwf.opened⟩
  have hguard := hbody (w.setVault (w.vault.setNotEntered false)) w₁ hlocked rfl hidle hrun
  refine ⟨⟨⟨fun _ => ⟨hguard.execution.trans hidle, hguard.inExecLock.trans hexec⟩,
    hguard.wf.closed, hguard.wf.opened⟩, hfree.symm, hguard.inExecLock, hguard.positionId,
    hguard.strategy, hguard.execution, hguard.pulls⟩, fun hlock => ?_⟩
  rw [hfree] at hlock
  cases hlock

/-- `requestFunds` and `injectSerialCode` run inside an open scope. -/
theorem inExec_eq_ok {body : Ext F} (h : inExec msg body w = .ok w') :
    w.vault.positionId ≠ noId ∧ w.vault.strategy = msg.sender ∧
    w.vault.inExecLock = .notEntered ∧
    ∃ w₁, body (w.setVault (w.vault.setInExecLock .entered)) = .ok w₁ ∧
      w' = w₁.setVault (w₁.vault.setInExecLock .notEntered) := by
  simp only [inExec, bind_eq_ok, require_eq_ok, pure_eq_ok] at h
  obtain ⟨_, hid, _, hstrategy, _, hlock, w₁, hbody, rfl⟩ := h
  exact ⟨hid, hstrategy, hlock, w₁, hbody, rfl⟩

/-- A call within the scope closes its own lock again. -/
theorem inExec_keeps {body : Ext F} (h : inExec msg body w = .ok w')
    (hbody : ∀ w₁ w₂ x, ScopeWf origin (scope w₁.vault) w₁.execution →
      w₁.execution = some x → msg.sender = x.strategy → body w₁ = .ok w₂ →
      Kept origin w₁ w₂) : Keeps origin w w' := by
  intro hwf
  obtain ⟨hid, hstrategy, hlock, w₁, hrun, rfl⟩ := inExec_eq_ok h
  obtain ⟨x, hx⟩ : ∃ x, w.execution = some x := by
    cases hexec : w.execution with
    | none => exact absurd (hwf.closed hexec).1 hid
    | some x => exact ⟨x, rfl⟩
  -- an open scope is a locked one
  have hentered : w.vault.notEntered ≠ true := by
    intro hfree
    rw [(hwf.unlocked hfree).1] at hx
    cases hx
  have hopen : ScopeWf origin (scope (w.vault.setInExecLock .entered)) w.execution :=
    ⟨fun hfree => absurd hfree hentered, hwf.closed, hwf.opened⟩
  have hkept := hbody (w.setVault (w.vault.setInExecLock .entered)) w₁ x hopen hx
    (hstrategy.symm.trans (hwf.opened x hx).1) hrun
  exact ⟨⟨⟨fun hfree => ⟨(hkept.wf.unlocked hfree).1, rfl⟩, hkept.wf.closed, hkept.wf.opened⟩,
    hkept.notEntered, hlock.symm, hkept.positionId, hkept.strategy, hkept.execution,
    hkept.pulls⟩, hkept.owner⟩

/-! ## Entry points -/

theorem injectSerialCode_keeps {serialCode : Nat}
    (h : injectSerialCode msg serialCode w = .ok w') : Keeps origin w w' := by
  refine inExec_keeps h fun w₁ w₂ x hwf _ _ hbody => ?_
  cases hbody
  exact Keeps.of_scope (scope_setPosition rfl) hwf

section Entry

variable (hext : ext.Within (Keeps origin)) (horigin : msg.origin = origin)
include hext

include horigin in
theorem requestFunds_keeps {targetedToken : Address} {amount : Nat}
    (h : requestFunds ext msg targetedToken amount w = .ok w') : Keeps origin w w' := by
  refine inExec_keeps h fun w₁ w₂ x hwf hx hsender hbody => ?_
  simp only [bind_eq_ok, pure_eq_ok] at hbody
  obtain ⟨w₃, hpull, rfl⟩ := hbody
  have hkept := hext.safeTransferFrom hpull hwf
  obtain ⟨new, hnew, hauth⟩ := hkept.pulls
  obtain ⟨_, howner, hcaller⟩ := hwf.opened x hx
  refine ⟨⟨hkept.wf, hkept.notEntered, hkept.inExecLock, hkept.positionId, hkept.strategy,
    hkept.execution, _ :: new, congrArg _ hnew, fun p hp => ?_⟩, hkept.owner⟩
  rcases List.mem_cons.mp hp with rfl | hp
  · exact ⟨horigin, x, hx, howner, hsender, hcaller⟩
  · exact hauth p hp

/-- A kill opens no scope. -/
theorem kill_keeps {id : PositionId} (h : _kill ext msg id w = .ok w') :
    Keeps origin w w' := by
  obtain ⟨r⟩ := kill_run h
  have hunstake : Keeps origin w r.withdrawn :=
    fairLaunchWithdraw_within Keeps.refl Keeps.trans hext r.unstake
  have hclear : Keeps origin r.withdrawn (r.withdrawn.setVault r.debtless) :=
    .of_scope (removeDebt_scope r.clear)
  have hliquidate : Keeps origin _ r.liquidated := hext.workerLiquidate r.liquidate
  have hpay : Keeps origin r.liquidated r.paid :=
    sendPositive_within Keeps.refl Keeps.trans hext r.pay
  have hgive : Keeps origin r.paid w' :=
    sendPositive_within Keeps.refl Keeps.trans hext r.give
  exact hunstake.trans (hclear.trans (hliquidate.trans (hpay.trans hgive)))

/-- Before the scope opens: the position to work belongs to the caller. -/
theorem selectPosition_guarded {id id' : PositionId} {worker : Address}
    (hwf : ScopeWf origin (scope w.vault) w.execution)
    (hlocked : w.vault.notEntered = false) (hidle : w.execution = none)
    (h : selectPosition ext msg id worker w = .ok (id', w')) :
    Guarded origin w w' ∧ (w'.vault.positions id').owner = msg.sender := by
  unfold selectPosition at h
  split at h
  · cases h
    refine ⟨⟨⟨hwf.unlocked, hwf.closed, fun x hx => ?_⟩, rfl, rfl, rfl, rfl, rfl,
      [], rfl, by simp⟩, by simp [newPosition]⟩
    simp only [setVault_execution, hidle] at hx
    cases hx
  · simp only [bind_eq_ok, require_eq_ok, pure_eq_ok, Prod.mk.injEq] at h
    obtain ⟨_, _, _, _, _, howner, w₁, hstake, rfl, rfl⟩ := h
    have hkeeps : Keeps origin w w₁ :=
      fairLaunchWithdraw_within Keeps.refl Keeps.trans hext hstake
    exact ⟨(hkeeps hwf).toGuarded, ((hkeeps hwf).owner hlocked id).trans howner⟩

theorem updateDebt_keeps {id : PositionId} {worker : Address} {debt : Nat}
    (h : updateDebt ext id worker debt w = .ok w') : Keeps origin w w' := by
  unfold updateDebt at h
  split at h
  · simp only [bind_eq_ok] at h
    obtain ⟨_, _, _, _, _, _, _, _, _, _, _, _, v, hadd, hstake⟩ := h
    have hborrow : Keeps origin w (w.setVault v) := .of_scope (addDebt_scope hadd)
    exact hborrow.trans (fairLaunchDeposit_within Keeps.refl Keeps.trans hext hstake)
  · cases h
    exact .refl w

include horigin in
/-- A work closes the scope it opens, and pulls happen within it only. -/
theorem work_guarded {id : PositionId} {worker : Address}
    {principalAmount loan maxReturn : Nat} {data : WorkData} (heoa : msg.sender = msg.origin)
    (hwf : ScopeWf origin (scope w.vault) w.execution)
    (hlocked : w.vault.notEntered = false) (hidle : w.execution = none)
    (h : _work ext msg id worker principalAmount loan maxReturn data w = .ok w') :
    Guarded origin w w' := by
  obtain ⟨r⟩ := work_run h
  obtain ⟨hselect, howner⟩ := selectPosition_guarded hext hwf hlocked hidle r.select
  -- the open scope names the caller and the strategy
  have hopen : ScopeWf origin (scope (enterScope msg r.id' data.strategy r.selected).vault)
      (enterScope msg r.id' data.strategy r.selected).execution := by
    refine ⟨fun hfree => ?_, fun hnone => (nomatch hnone), fun x hx => ?_⟩
    · have hfree : r.selected.vault.notEntered = true := hfree
      rw [hselect.notEntered, hlocked] at hfree
      cases hfree
    · cases hx
      exact ⟨rfl, howner, heoa.trans horigin⟩
  have hclear : Keeps origin (enterScope msg r.id' data.strategy r.selected) _ :=
    .of_scope (removeDebt_scope r.clear)
  have hperform : Keeps origin _ r.worked := performWork_within Keeps.trans hext r.perform
  have hupdate : Keeps origin r.worked r.owing := updateDebt_keeps hext r.update
  have hgive : Keeps origin r.owing r.returned :=
    returnExcess_within Keeps.refl Keeps.trans hext r.give
  have hin := hclear.trans (hperform.trans (hupdate.trans hgive)) hopen
  -- and closes again
  obtain ⟨new, hnew, hauth⟩ := hselect.pulls
  obtain ⟨new', hnew', hauth'⟩ := hin.pulls
  have hclosed := hwf.closed hidle
  rw [r.exit]
  refine ⟨⟨fun hfree => ?_, fun _ => ⟨rfl, rfl⟩, fun x hx => (nomatch hx)⟩,
    hin.notEntered.trans hselect.notEntered, hin.inExecLock.trans hselect.inExecLock,
    hclosed.1.symm, hclosed.2.symm, hidle.symm, new' ++ new, ?_, fun p hp => ?_⟩
  · have hfree : r.returned.vault.notEntered = true := hfree
    rw [hin.notEntered] at hfree
    have hfree : r.selected.vault.notEntered = true := hfree
    rw [hselect.notEntered, hlocked] at hfree
    cases hfree
  · rw [List.append_assoc, ← hnew]
    exact hnew'
  · rcases List.mem_append.mp hp with hp | hp
    · exact hauth' p hp
    · exact hauth p hp

include horigin in
/-- A call of the vault keeps the scope, provided that what it calls does. -/
theorem call_keeps {c : Call} (h : call ext msg c w = .ok w') : Keeps origin w w' := by
  cases c with
  | deposit amountToken =>
      obtain ⟨w₁, w₂, hpull, hacc, hbody⟩ := deposit_eq_ok h
      have hpull : Keeps origin w w₁ := transferTokenToVault_within hext hpull
      refine hpull.trans ((accrue_keeps hacc).trans
        (nonReentrant_keeps hbody fun w₃ w₄ hwf _ _ hdep => ?_))
      simp only [_deposit, bind_eq_ok, pure_eq_ok] at hdep
      obtain ⟨_, _, _, _, _, _, ibToken, _, _, _, rfl⟩ := hdep
      exact (Keeps.of_scope (scope_setIbToken w₃.vault ibToken) hwf).toGuarded
  | withdraw share =>
      obtain ⟨w₁, hacc, hbody⟩ := withdraw_eq_ok h
      refine (accrue_keeps hacc).trans
        (nonReentrant_keeps hbody fun w₂ w₃ hwf _ _ hwith => ?_)
      simp only [_withdraw, bind_eq_ok, pure_eq_ok] at hwith
      obtain ⟨_, _, _, _, _, _, ibToken, _, w₄, hsend, _, _, rfl⟩ := hwith
      have hburn : Keeps origin w₂ (w₂.setVault (w₂.vault.setIbToken ibToken)) :=
        .of_scope (scope_setIbToken w₂.vault ibToken)
      have hsend : Keeps origin _ w₄ := smartSafeTransfer_within Keeps.trans hext hsend
      exact (hburn.trans hsend hwf).toGuarded
  -- the two calls a strategy may make from inside `work`
  | requestFunds targetedToken amount => exact requestFunds_keeps hext horigin h
  | injectSerialCode serialCode => exact injectSerialCode_keeps h
  | work id worker principalAmount loan maxReturn data =>
      obtain ⟨heoa, w₁, w₂, hpull, hacc, hbody⟩ := work_eq_ok h
      have hpull : Keeps origin w w₁ := transferTokenToVault_within hext hpull
      refine hpull.trans ((accrue_keeps hacc).trans
        (nonReentrant_keeps hbody fun w₃ w₄ hwf hlocked hidle hwork => ?_))
      exact work_guarded hext horigin heoa hwf hlocked hidle hwork
  | kill id =>
      obtain ⟨_, w₁, hacc, hbody⟩ := kill_eq_ok h
      refine (accrue_keeps hacc).trans
        (nonReentrant_keeps hbody fun w₂ w₃ hwf _ _ hkill => ?_)
      exact (kill_keeps hext hkill hwf).toGuarded
  -- calls without the guard, which write nothing of the scope
  | updateConfig config =>
      simp only [call, updateConfig, bind_eq_ok, pure_eq_ok] at h
      obtain ⟨_, _, rfl⟩ := h
      exact .of_scope rfl
  | updateDebtToken debtToken newPid =>
      simp only [call, updateDebtToken, bind_eq_ok] at h
      obtain ⟨_, _, _, _, w₁, hholders, happrove⟩ := h
      have hholders : Keeps origin w w₁ := hext.debtTokenSetOkHolders hholders
      have hset : Keeps origin w₁ (w₁.setVault (w₁.vault.setDebtToken debtToken newPid)) :=
        .of_scope (scope_setDebtToken w₁.vault debtToken newPid)
      exact hholders.trans (hset.trans (hext.safeApprove happrove))
  | setFairLaunchPoolId poolId =>
      simp only [call, setFairLaunchPoolId, bind_eq_ok, pure_eq_ok] at h
      obtain ⟨_, _, w₁, happrove, rfl⟩ := h
      have happrove : Keeps origin w w₁ := hext.safeApprove happrove
      exact happrove.trans (.of_scope rfl)
  | withdrawReserve recipient value =>
      simp only [call, withdrawReserve, bind_eq_ok] at h
      obtain ⟨_, _, hbody⟩ := h
      refine nonReentrant_keeps hbody fun w₁ w₂ hwf _ _ hsend => ?_
      simp only [bind_eq_ok] at hsend
      obtain ⟨reservePool, _, hsend⟩ := hsend
      have hset : Keeps origin w₁ (w₁.setVault (w₁.vault.setReservePool reservePool)) :=
        .of_scope (scope_setReservePool w₁.vault reservePool)
      exact (hset.trans (hext.safeTransfer hsend) hwf).toGuarded
  | reduceReserve value =>
      simp only [call, reduceReserve, bind_eq_ok, pure_eq_ok] at h
      obtain ⟨_, _, _, _, rfl⟩ := h
      exact .of_scope rfl
  | transfer recipient amount | transferFrom sender recipient amount
  | approve spender amount =>
      simp only [call, ibTokenOp, bind_eq_ok, pure_eq_ok] at h
      obtain ⟨_, _, rfl⟩ := h
      exact .of_scope rfl
  | transferOwnership newOwner =>
      simp only [call, transferOwnership, bind_eq_ok, pure_eq_ok] at h
      obtain ⟨_, _, _, _, rfl⟩ := h
      exact .of_scope rfl
  | renounceOwnership =>
      simp only [call, renounceOwnership, bind_eq_ok, pure_eq_ok] at h
      obtain ⟨_, _, rfl⟩ := h
      exact .of_scope rfl

end Entry

/-! ## Every nesting, every run -/

/-- A chain of steps that keep the scope keeps it. -/
theorem Keeps.of_closure {R : World F → World F → Prop}
    (hR : ∀ w w', R w w' → Keeps origin w w') (h : Relation.ReflTransGen R w w') :
    Keeps origin w w' := by
  induction h with
  | refl => exact .refl w
  | tail _ hstep ih => exact ih.trans (hR _ _ hstep)

theorem Externals.Within.mono {R R' : World F → World F → Prop} (h : ext.Within R)
    (hR : ∀ w w', R w w' → R' w w') : ext.Within R' where
  safeTransferFrom hw := hR _ _ (h.safeTransferFrom hw)
  safeTransfer hw := hR _ _ (h.safeTransfer hw)
  safeApprove hw := hR _ _ (h.safeApprove hw)
  safeTransferETH hw := hR _ _ (h.safeTransferETH hw)
  wethDeposit hw := hR _ _ (h.wethDeposit hw)
  relayerWithdraw hw := hR _ _ (h.relayerWithdraw hw)
  debtTokenMint hw := hR _ _ (h.debtTokenMint hw)
  debtTokenBurn hw := hR _ _ (h.debtTokenBurn hw)
  debtTokenSetOkHolders hw := hR _ _ (h.debtTokenSetOkHolders hw)
  fairLaunchDeposit hw := hR _ _ (h.fairLaunchDeposit hw)
  fairLaunchWithdraw hw := hR _ _ (h.fairLaunchWithdraw hw)
  workerWork hw := hR _ _ (h.workerWork hw)
  workerLiquidate hw := hR _ _ (h.workerLiquidate hw)

/-- One action keeps the scope, however deep its calls are nested. -/
theorem reenter_keeps (n : Nat) (w w' : World F) (h : Reenter origin n w w') :
    Keeps origin w w' := by
  induction n generalizing w w' with
  | zero => exact .of_outside h
  | succ n ih =>
      rcases h with hout | ⟨ext, msg, c, horigin, hext, hcall⟩
      · exact .of_outside hout
      · have hkeeps : ext.Within (Keeps origin) := hext.mono fun _ _ h => .of_closure ih h
        exact call_keeps hkeeps horigin hcall

/-- Between transactions nothing is locked and no scope is open. -/
structure Idle (w : World F) : Prop where
  notEntered : w.vault.notEntered = true
  inExecLock : w.vault.inExecLock = .notEntered
  positionId : w.vault.positionId = noId
  strategy : w.vault.strategy = noAddress
  execution : w.execution = none

/-- A new vault is idle. -/
theorem Fresh.idle (h : Fresh w) : Idle w := by
  obtain ⟨⟨msg, config, token, debtToken, hv⟩, _, hexec⟩ := h
  obtain ⟨v, rest, pulls, execution⟩ := w
  subst hv hexec
  exact ⟨rfl, rfl, rfl, rfl, rfl⟩

/-- An idle vault has a well-formed scope. -/
theorem Idle.scopeWf (h : Idle w) (origin : Address) :
    ScopeWf origin (scope w.vault) w.execution := by
  refine ⟨fun _ => ⟨h.execution, h.inExecLock⟩, fun _ => ⟨h.positionId, h.strategy⟩,
    fun x hx => ?_⟩
  rw [h.execution] at hx
  cases hx

/-- A step that keeps the scope leaves an idle vault idle. -/
theorem Kept.idle (h : Kept origin w w') (hidle : Idle w) : Idle w' :=
  ⟨h.notEntered.trans hidle.notEntered, h.inExecLock.trans hidle.inExecLock,
    h.positionId.trans hidle.positionId, h.strategy.trans hidle.strategy,
    h.execution.trans hidle.execution⟩

/-- One transaction from an idle state ends in one, and only moves tokens of its own
sender. -/
theorem transaction_kept (hidle : Idle w) (h : Transaction w w') :
    ∃ origin, Kept origin w w' := by
  obtain ⟨origin, n, hactions⟩ := h
  exact ⟨origin, Keeps.of_closure (reenter_keeps n) hactions (hidle.scopeWf origin)⟩

/-- The vault is idle after every transaction, and every pull was authorized. -/
theorem idle_of_run (hfresh : Fresh w) (hrun : Relation.ReflTransGen Transaction w w') :
    Idle w' ∧ ∀ p ∈ w'.pulls, Authorized p.origin p := by
  induction hrun with
  | refl => exact ⟨hfresh.idle, by simp [hfresh.pulls]⟩
  | tail _ htx ih =>
      obtain ⟨hidle, hpulls⟩ := ih
      obtain ⟨origin, hkept⟩ := transaction_kept hidle htx
      refine ⟨hkept.idle hidle, fun p hp => ?_⟩
      obtain ⟨new, hnew, hauth⟩ := hkept.pulls
      rw [hnew] at hp
      rcases List.mem_append.mp hp with hp | hp
      · obtain ⟨horigin, hrest⟩ := hauth p hp
        rw [horigin]
        exact ⟨horigin, hrest⟩
      · exact hpulls p hp

/-- An idle vault pulls nothing for anyone. -/
theorem requestFunds_idle (hidle : Idle w) (targetedToken : Address) (amount : Nat) :
    requestFunds ext msg targetedToken amount w =
      .error "Vault::inExec: not within execution scope" := by
  simp [requestFunds, inExec, require, hidle.positionId, bind, Except.bind]

/-- After any run of transactions with arbitrarily nested re-entrant calls: no scope is
open and no lock is held, `requestFunds` reverts, and every transfer it ever made was
from the account that sent the transaction and called `work` in it, to the strategy
recorded for that `work`. -/
theorem requestFunds_scoped (hfresh : Fresh w) (hrun : Relation.ReflTransGen Transaction w w') :
    (w'.vault.positionId = noId ∧ w'.vault.strategy = noAddress ∧
      w'.vault.notEntered = true ∧ w'.vault.inExecLock = .notEntered) ∧
    (∀ (ext : Externals F) msg targetedToken amount,
      requestFunds ext msg targetedToken amount w' =
        .error "Vault::inExec: not within execution scope") ∧
    ∀ p ∈ w'.pulls, ∃ x, p.during = some x ∧ p.sender = x.caller ∧ x.caller = p.origin ∧
      p.recipient = x.strategy := by
  obtain ⟨hidle, hpulls⟩ := idle_of_run hfresh hrun
  refine ⟨⟨hidle.positionId, hidle.strategy, hidle.notEntered, hidle.inExecLock⟩,
    fun ext msg targetedToken amount => requestFunds_idle hidle targetedToken amount,
    fun p hp => ?_⟩
  obtain ⟨_, x, hduring, hsender, hrecipient, hcaller⟩ := hpulls p hp
  exact ⟨x, hduring, hsender, hcaller, hrecipient⟩

/-! ## A run with a strategy that draws funds -/

/-- Every call succeeds and does nothing; the worker is account 7 and runs `worker`. -/
def Externals.plain (worker : Ext Unit) : Externals Unit where
  self := 100
  config _ :=
    { minDebtSize := 0, getInterestRate := fun _ _ => .ok 0, getWrappedNativeAddr := 1
      getWNativeRelayer := 2, getFairLaunchAddr := 3, getReservePoolBps := 1000
      getCloseBps := 100, getKillBps := 100, isWorker := fun a => a = 7
      acceptDebt := fun _ => .ok true, workFactor := fun _ _ => .ok 0
      killFactor := fun _ _ => .ok 0 }
  myBalance _ := .ok 0
  safeTransferFrom _ _ _ _ := .ok
  safeTransfer _ _ _ := .ok
  safeApprove _ _ _ := .ok
  safeTransferETH _ _ := .ok
  wethDeposit _ := .ok
  relayerWithdraw _ := .ok
  debtTokenMint _ _ _ := .ok
  debtTokenBurn _ _ _ := .ok
  debtTokenSetOkHolders _ _ _ := .ok
  fairLaunchDeposit _ _ _ := .ok
  fairLaunchWithdraw _ _ _ := .ok
  workerWork _ _ _ _ _ := worker
  workerHealth _ _ _ := .ok 0
  workerLiquidate _ _ := .ok

/-- The plain externals do what their worker does. -/
theorem Externals.plain_within {worker : Ext Unit} {R : World Unit → World Unit → Prop}
    (hrefl : ∀ w, R w w) (hworker : ∀ w w', worker w = .ok w' → R w w') :
    (Externals.plain worker).Within R := by
  have hok : ∀ {w w' : World Unit}, (Except.ok w : Result (World Unit)) = .ok w' → R w w' := by
    rintro w w' h
    cases h
    exact hrefl w
  exact ⟨hok, hok, hok, hok, hok, hok, hok, hok, hok, hok, hok, hworker _ _, hok⟩

/-- Strategy 8 draws 5 of token 60 in the transaction of account 50. -/
def drawFunds : Ext Unit :=
  requestFunds (.plain .ok) { sender := 8, origin := 50, now := 0, blockNumber := 0 } 60 5

theorem Transaction.of_call {n : Nat} {c : Call}
    (hext : ext.Within (Relation.ReflTransGen (Reenter msg.origin n)))
    (h : call ext msg c w = .ok w') : Transaction w w' :=
  ⟨msg.origin, n + 1, .single (.inr ⟨ext, msg, c, rfl, hext, h⟩)⟩

/-- Account 50, the owner of the vault. -/
def eoa : Msg := { sender := 50, origin := 50, now := 0, blockNumber := 0 }

def drawStart : World Unit :=
  { vault := initStorage eoa 102 101 103, rest := (), pulls := [], execution := none }

/-- Account 50 sets the pool and works with strategy 8. -/
def drawRun : Result (World Unit) := do
  let w ← call (.plain .ok) eoa (.setFairLaunchPoolId 0) drawStart
  call (.plain drawFunds) eoa (.work 0 7 0 0 0 { strategy := 8, ext := [] }) w

theorem drawRun_transactions {w : World Unit} (h : drawRun = .ok w) :
    Relation.ReflTransGen Transaction drawStart w := by
  simp only [drawRun, bind_eq_ok] at h
  obtain ⟨w₁, hset, hwork⟩ := h
  have hquiet : ∀ n, (Externals.plain .ok).Within (Relation.ReflTransGen (Reenter 50 n)) :=
    fun n => Externals.plain_within (fun _ => .refl) fun _ _ hw => by
      cases hw
      exact .refl
  have hdraw : (Externals.plain drawFunds).Within (Relation.ReflTransGen (Reenter 50 1)) :=
    Externals.plain_within (fun _ => .refl) fun _ _ hw =>
      .single (.inr ⟨_, _, .requestFunds 60 5, rfl, hquiet 0, hw⟩)
  have hfirst : Transaction drawStart w₁ := .of_call (hquiet 0) hset
  have hsecond : Transaction w₁ w := .of_call hdraw hwork
  exact (Relation.ReflTransGen.single hfirst).tail hsecond

theorem requestFunds_scoped_drawRun : ∃ w : World Unit, drawRun = .ok w ∧
    w.pulls.length = 1 ∧ w.vault.positionId = noId ∧
    ∀ p ∈ w.pulls, ∃ x, p.during = some x ∧ p.sender = x.caller ∧ x.caller = p.origin ∧
      p.recipient = x.strategy := by
  have htest : drawRun.map (fun w => w.pulls.length) = .ok 1 := by decide +kernel
  cases hrun : drawRun with
  | error e =>
      rw [hrun] at htest
      cases htest
  | ok w =>
      rw [hrun] at htest
      have hfresh : Fresh drawStart := ⟨⟨_, _, _, _, rfl⟩, rfl, rfl⟩
      obtain ⟨⟨hid, _⟩, _, hpulls⟩ := requestFunds_scoped hfresh (drawRun_transactions hrun)
      exact ⟨w, rfl, Except.ok.inj htest, hid, hpulls⟩

end Huski.Vault
