import Huski.Timelock.Model

/-!
# What the log of the timelock tells

The storage holds what the events of the log have written, and every event was admitted by the
events before it. So each execution goes back to a queueing by the admin of that time, at least the
delay of that time ago, and what only the timelock may call was called by an execution.
-/

open Solidity EventLog

namespace Huski.Timelock

section History

variable {Hash : Type} (P : Platform Hash) (this : Address)

/-! ## The values that the log gives -/

/-- The admin an entry names. -/
def writesAdmin (entry : Entry) : Option Address :=
  match entry.event with
  | .deployed admin _ | .newAdmin admin => some admin
  | _ => none

/-- The pending admin an entry names. -/
def writesPendingAdmin (entry : Entry) : Option Address :=
  match entry.event with
  | .newPendingAdmin pendingAdmin => some pendingAdmin
  | .newAdmin _ => some 0
  | _ => none

/-- The delay an entry sets. -/
def writesDelay (entry : Entry) : Option Nat :=
  match entry.event with
  | .deployed _ delay | .newDelay delay => some delay
  | _ => none

def writesInitialized (entry : Entry) : Option Bool :=
  match entry.event with
  | .newPendingAdmin _ => some true
  | _ => none

/-- Whether an entry queues a transaction, or takes it off. -/
def writesQueued (tx : Transaction) (entry : Entry) : Option Bool :=
  match entry.event with
  | .queueTransaction tx' => if tx' = tx then some true else none
  | .cancelTransaction tx' | .executing tx' => if tx' = tx then some false else none
  | _ => none

/-- The execution an entry begins or ends. -/
def writesRunning (entry : Entry) : Option (Option Entry) :=
  match entry.event with
  | .executing _ => some (some entry)
  | .executeTransaction _ => some none
  | _ => none

/-- The admin the log names last. -/
def adminAt (log : List Entry) : Address := lastWrite writesAdmin 0 log
/-- The pending admin the log names last. -/
def pendingAdminAt (log : List Entry) : Address := lastWrite writesPendingAdmin 0 log
/-- The delay the log sets last. -/
def delayAt (log : List Entry) : Nat := lastWrite writesDelay 0 log
def initializedAt (log : List Entry) : Bool := lastWrite writesInitialized false log
/-- Whether the log leaves a transaction queued. -/
def queuedAt (tx : Transaction) (log : List Entry) : Bool := lastWrite (writesQueued tx) false log

/-- The execution that has begun and not ended. -/
def runningAt (log : List Entry) : Option Entry := lastWrite writesRunning none log

/-- A call that the running execution makes, with the timelock as its target. -/
def Inside (log : List Entry) (time : Nat) (c : Call) : Prop :=
  ∃ begun tx, runningAt log = some begun ∧ begun.event = .executing tx ∧ begun.time = time ∧
    tx.target = this ∧ P.dispatch (P.callData tx) = some c

/-- What is checked before an event, in terms of the log before it. -/
def Admits (log : List Entry) (entry : Entry) : Prop :=
  match entry.event with
  | .deployed _ _ => log = []
  | .newDelay delay => Inside P this log entry.time (.setDelay delay)
  | .newPendingAdmin pendingAdmin => Inside P this log entry.time (.setPendingAdmin pendingAdmin) ∨
      (initializedAt log = false ∧ entry.sender = adminAt log)
  | .newAdmin admin => admin = entry.sender ∧ admin = pendingAdminAt log ∧ admin ≠ 0
  | .queueTransaction tx => entry.sender = adminAt log ∧ entry.time + delayAt log ≤ tx.eta
  | .cancelTransaction _ => entry.sender = adminAt log
  | .executing tx => entry.sender = adminAt log ∧ runningAt log = none ∧
      queuedAt tx log = true ∧ tx.eta ≤ entry.time ∧ entry.time ≤ tx.eta + GRACE_PERIOD
  | .executeTransaction tx => ∃ begun, runningAt log = some begun ∧ begun.event = .executing tx ∧
      begun.time = entry.time ∧ begun.sender = entry.sender

/-- The storage holds what the log gives, and every event was admitted. -/
structure Logged (w : World Hash) : Prop where
  admin : w.timelock.admin = adminAt w.log
  pendingAdmin : w.timelock.pendingAdmin = pendingAdminAt w.log
  delay : w.timelock.delay = delayAt w.log
  initialized : w.timelock.admin_initialized = initializedAt w.log
  queued : ∀ tx, w.timelock.queuedTransactions (P.txHash tx) = queuedAt tx w.log
  entered : w.timelock.entered = (runningAt w.log).isSome
  lawful : Lawful (Admits P this) w.log

/-- What a call leaves as it was. -/
structure Kept (w w' : World Hash) : Prop where
  logged : Logged P this w'
  running : runningAt w'.log = runningAt w.log
  timestamp : w'.timestamp = w.timestamp

/-! ## One call -/

variable {P this} {sender : Address} {w w' : World Hash} {tx : Transaction}

/-- Transactions of one hash are one. -/
theorem txHash_injective (hkeccak : Function.Injective P.keccak256) :
    Function.Injective P.txHash := by
  intro tx tx' h
  have hmembers : tx.members = tx'.members := Abi.encodeTuple_inj rfl (hkeccak h)
  obtain ⟨target, value, signature, data, eta⟩ := tx
  obtain ⟨target', value', signature', data', eta'⟩ := tx'
  simp only [Transaction.members, List.cons.injEq, Abi.Value.word.injEq, Abi.Value.bytes.injEq,
    and_true] at hmembers
  obtain ⟨htarget, hvalue, hsignature, hdata, heta⟩ := hmembers
  rw [Transaction.mk.injEq]
  exact ⟨Fin.ext htarget, hvalue, hsignature, hdata, heta⟩

/-- A new delay is logged. -/
theorem setDelay_kept {delay_ : Nat} (h : Logged P this w)
    (hself : sender = this → Inside P this w.log w.timestamp (.setDelay delay_))
    (hcall : setDelay this sender delay_ w = .ok w') : Kept P this w w' := by
  simp only [setDelay, bind_eq_ok, require_eq_ok, pure_eq_ok] at hcall
  obtain ⟨_, hsender, _, _, _, _, rfl⟩ := hcall
  exact ⟨⟨h.admin, h.pendingAdmin, rfl, h.initialized, h.queued, h.entered, hself hsender,
    h.lawful⟩, rfl, rfl⟩

theorem acceptAdmin_kept (h : Logged P this w) (hsender : sender ≠ 0)
    (hcall : acceptAdmin sender w = .ok w') : Kept P this w w' := by
  simp only [acceptAdmin, bind_eq_ok, require_eq_ok, pure_eq_ok] at hcall
  obtain ⟨_, hpending, rfl⟩ := hcall
  exact ⟨⟨rfl, rfl, h.delay, h.initialized, h.queued, h.entered,
    ⟨rfl, hpending.trans h.pendingAdmin, hsender⟩, h.lawful⟩, rfl, rfl⟩

theorem setPendingAdmin_kept {pendingAdmin_ : Address} (h : Logged P this w)
    (hself : sender = this → Inside P this w.log w.timestamp (.setPendingAdmin pendingAdmin_))
    (hcall : setPendingAdmin this sender pendingAdmin_ w = .ok w') : Kept P this w w' := by
  have hadmits : Admits P this w.log
      { sender, time := w.timestamp, event := .newPendingAdmin pendingAdmin_ } := by
    unfold setPendingAdmin at hcall
    split at hcall
    · simp only [bind_eq_ok, require_eq_ok] at hcall
      obtain ⟨_, hsender, _⟩ := hcall
      -- once initialised, only the timelock itself may name an admin
      exact .inl (hself hsender)
    · rename_i hfirst
      simp only [bind_eq_ok, require_eq_ok] at hcall
      obtain ⟨_, hsender, _⟩ := hcall
      rw [h.initialized, Bool.not_eq_true] at hfirst
      exact .inr ⟨hfirst, hsender.trans h.admin⟩
  have hw' : w' = (w.setTimelock { w.timelock with
      admin_initialized := true
      pendingAdmin := pendingAdmin_ }).record sender (.newPendingAdmin pendingAdmin_) := by
    unfold setPendingAdmin at hcall
    split at hcall
    · simp only [bind_eq_ok, pure_eq_ok] at hcall
      obtain ⟨_, _, rfl⟩ := hcall
      rfl
    · simp only [bind_eq_ok, pure_eq_ok] at hcall
      obtain ⟨_, _, rfl⟩ := hcall
      rfl
  rw [hw']
  exact ⟨⟨h.admin, rfl, h.delay, rfl, h.queued, h.entered, hadmits, h.lawful⟩, rfl, rfl⟩

/-- What a target does keeps the log true, if the calls that it may make do. -/
theorem Behaves.kept {calls : Address → Call → World Hash → World Hash → Prop}
    {call : Target Hash} (hthis : this ≠ 0) (hbehaves : Behaves P this calls call)
    (hcalls : ∀ sender c w w', sender ≠ 0 →
      (sender = this → Inside P this w.log w.timestamp c) → Logged P this w →
      calls sender c w w' → Kept P this w w')
    {w₁ w₂ : World Hash} {returnData : List UInt8} (h : Logged P this w₁)
    (hrunning : runningAt w₁.log = some { sender, time := w₁.timestamp, event := .executing tx })
    (hcall : call tx.target tx.value (P.callData tx) w₁ = .ok (w₂, returnData)) :
    Kept P this w₁ w₂ := by
  have hacts := hbehaves _ _ _ _ _ _ hcall
  split at hacts
  · rename_i hself
    obtain ⟨c, hdispatch, hacts⟩ := hacts
    exact hcalls this c w₁ w₂ hthis (fun _ => ⟨_, tx, hrunning, rfl, rfl, hself, hdispatch⟩) h hacts
  · clear hcall
    induction hacts with
    | refl => exact ⟨h, rfl, rfl⟩
    | tail _ hlast ih =>
        obtain ⟨sender', c, ⟨hother, hsender⟩, hlast⟩ := hlast
        have hlater :=
          hcalls sender' c _ _ hsender (fun hself => absurd hself hother) ih.logged hlast
        exact ⟨hlater.logged, hlater.running.trans ih.running, hlater.timestamp.trans ih.timestamp⟩

variable [DecidableEq Hash]

/-- The flags, when an event writes the one of its transaction. -/
theorem Logged.setQueued {entry : Entry} {queued : Bool} (h : Logged P this w)
    (hkeccak : Function.Injective P.keccak256)
    (hwrite : ∀ tx', writesQueued tx' entry = if tx = tx' then some queued else none)
    (tx' : Transaction) :
    (w.timelock.setQueued (P.txHash tx) queued).queuedTransactions (P.txHash tx') =
      queuedAt tx' (entry :: w.log) := by
  show Function.update w.timelock.queuedTransactions (P.txHash tx) queued (P.txHash tx') = _
  by_cases hsame : tx = tx'
  · subst hsame
    rw [Function.update_self]
    have hsome := hwrite tx
    rw [if_pos rfl] at hsome
    exact (lastWrite_of_some hsome).symm
  · have hother : P.txHash tx' ≠ P.txHash tx :=
      fun heq => hsame (txHash_injective hkeccak heq).symm
    rw [Function.update_of_ne hother, h.queued tx']
    have hnone := hwrite tx'
    rw [if_neg hsame] at hnone
    exact (lastWrite_of_none hnone).symm

/-- A queued transaction is logged. -/
theorem queueTransaction_kept (hkeccak : Function.Injective P.keccak256) (h : Logged P this w)
    (hcall : queueTransaction P sender tx w = .ok w') : Kept P this w w' := by
  simp only [queueTransaction, bind_eq_ok, require_eq_ok, SafeMath.add_eq_ok, pure_eq_ok] at hcall
  obtain ⟨_, hsender, _, ⟨_, rfl⟩, _, heta, rfl⟩ := hcall
  have hadmits : w.timestamp + delayAt w.log ≤ tx.eta := by
    rw [← h.delay]
    exact heta
  exact ⟨⟨h.admin, h.pendingAdmin, h.delay, h.initialized, h.setQueued hkeccak fun _ => rfl,
    h.entered, ⟨hsender.trans h.admin, hadmits⟩, h.lawful⟩, rfl, rfl⟩

theorem cancelTransaction_kept (hkeccak : Function.Injective P.keccak256) (h : Logged P this w)
    (hcall : cancelTransaction P sender tx w = .ok w') : Kept P this w w' := by
  simp only [cancelTransaction, bind_eq_ok, require_eq_ok, pure_eq_ok] at hcall
  obtain ⟨_, hsender, rfl⟩ := hcall
  exact ⟨⟨h.admin, h.pendingAdmin, h.delay, h.initialized, h.setQueued hkeccak fun _ => rfl,
    h.entered, hsender.trans h.admin, h.lawful⟩, rfl, rfl⟩

/-- An execution, when its target keeps what it finds. -/
theorem executeTransaction_kept {call : Target Hash} (hkeccak : Function.Injective P.keccak256)
    (h : Logged P this w)
    (htarget : ∀ w₁ w₂ returnData, Logged P this w₁ →
      runningAt w₁.log = some { sender, time := w₁.timestamp, event := .executing tx } →
      call tx.target tx.value (P.callData tx) w₁ = .ok (w₂, returnData) → Kept P this w₁ w₂)
    (hcall : executeTransaction P sender call tx w = .ok w') : Kept P this w w' := by
  simp only [executeTransaction, bind_eq_ok, require_eq_ok, SafeMath.add_eq_ok] at hcall
  obtain ⟨_, hfree, _, hsender, _, hqueued, _, hage, _, ⟨_, rfl⟩, _, hstale, hcall⟩ := hcall
  have hidle : runningAt w.log = none := by
    rw [h.entered, Option.isSome_eq_false_iff, Option.isNone_iff_eq_none] at hfree
    exact hfree
  rw [h.queued] at hqueued
  split at hcall
  · simp only [bind_eq_ok] at hcall
    obtain ⟨_, _, hfalse⟩ := hcall
    cases hfalse
  · rename_i w₂ returnData hreturns
    simp only [bind_eq_ok, pure_eq_ok] at hcall
    obtain ⟨_, _, rfl⟩ := hcall
    -- the flag is cleared before the target runs
    have hbegun : Logged P this ((w.setTimelock
        { w.timelock.setQueued (P.txHash tx) false with entered := true }).record sender
        (.executing tx)) :=
      ⟨h.admin, h.pendingAdmin, h.delay, h.initialized, h.setQueued hkeccak fun _ => rfl, rfl,
        ⟨hsender.trans h.admin, hidle, hqueued, hage, hstale⟩, h.lawful⟩
    obtain ⟨hlogged, hrunning, htime⟩ := htarget _ w₂ returnData hbegun rfl hreturns
    have hended : Admits P this w₂.log
        { sender, time := w₂.timestamp, event := .executeTransaction tx } :=
      ⟨_, hrunning, rfl, htime.symm, rfl⟩
    exact ⟨⟨hlogged.admin, hlogged.pendingAdmin, hlogged.delay, hlogged.initialized, hlogged.queued,
      rfl, hended, hlogged.lawful⟩, hidle.symm, htime⟩

/-- A call keeps the log true. Calls by the timelock itself are those of an execution. -/
theorem exec_kept {call : Target Hash} {c : Call} (hkeccak : Function.Injective P.keccak256)
    (h : Logged P this w) (hsender : sender ≠ 0)
    (hself : sender = this → Inside P this w.log w.timestamp c)
    (htarget : ∀ tx w₁ w₂ returnData, Logged P this w₁ →
      runningAt w₁.log = some { sender, time := w₁.timestamp, event := .executing tx } →
      call tx.target tx.value (P.callData tx) w₁ = .ok (w₂, returnData) → Kept P this w₁ w₂)
    (hcall : exec P this sender call c w = .ok w') : Kept P this w w' := by
  cases c with
  | setDelay delay_ => exact setDelay_kept h hself hcall
  | acceptAdmin => exact acceptAdmin_kept h hsender hcall
  | setPendingAdmin pendingAdmin_ => exact setPendingAdmin_kept h hself hcall
  | queueTransaction tx => exact queueTransaction_kept hkeccak h hcall
  | cancelTransaction tx => exact cancelTransaction_kept hkeccak h hcall
  | executeTransaction tx => exact executeTransaction_kept hkeccak h (htarget tx) hcall
  | receive =>
      cases hcall
      exact ⟨h, rfl, rfl⟩

/-- Calls nested to any depth keep the log true. -/
theorem calls_kept (hkeccak : Function.Injective P.keccak256) (hthis : this ≠ 0) (n : Nat) :
    ∀ sender c (w w' : World Hash), sender ≠ 0 →
      (sender = this → Inside P this w.log w.timestamp c) → Logged P this w →
      Calls P this n sender c w w' → Kept P this w w' := by
  induction n with
  | zero =>
      intro sender c w w' _ _ _ hcalls
      exact hcalls.elim
  | succ n ih =>
      intro sender c w w' hsender hself h hcalls
      obtain ⟨call, hbehaves, hcall⟩ := hcalls
      exact exec_kept hkeccak h hsender hself
        (fun tx w₁ w₂ returnData hlogged hrunning hreturns =>
          hbehaves.kept hthis ih hlogged hrunning hreturns) hcall

/-! ## Runs -/

/-- Between the transactions of a run nothing is being executed. -/
structure Settled (P : Platform Hash) (this : Address) (w : World Hash) : Prop where
  this_ne : this ≠ 0
  logged : Logged P this w
  idle : runningAt w.log = none

/-- The log tells every state of a run between its transactions. -/
theorem settled_inductive (hkeccak : Function.Injective P.keccak256) :
    (machine P this).Inductive (Outside P this) (Settled P this) where
  init w hinit := by
    obtain ⟨hthis, deployer, timestamp, admin_, delay_, timelock, hconstructs, rfl⟩ := hinit
    simp only [constructor_, bind_eq_ok, require_eq_ok, pure_eq_ok] at hconstructs
    obtain ⟨_, _, _, _, rfl⟩ := hconstructs
    exact ⟨hthis, ⟨rfl, rfl, rfl, rfl, fun _ => rfl, rfl, rfl, trivial⟩, rfl⟩
  step w m w' h hout hstep := by
    obtain ⟨⟨hother, hsender⟩, n, hbehaves⟩ := hout
    simp only [machine, bind_eq_ok, require_eq_ok] at hstep
    obtain ⟨_, _, hexec⟩ := hstep
    have hlater : Logged P this { w with timestamp := m.timestamp } :=
      ⟨h.logged.admin, h.logged.pendingAdmin, h.logged.delay, h.logged.initialized, h.logged.queued,
        h.logged.entered, h.logged.lawful⟩
    have hkept := exec_kept hkeccak hlater hsender (fun hself => absurd hself hother)
      (fun tx w₁ w₂ returnData hlogged hrunning hreturns =>
        hbehaves.kept h.this_ne (calls_kept hkeccak h.this_ne n) hlogged hrunning hreturns) hexec
    exact ⟨h.this_ne, hkept.logged, hkept.running.trans h.idle⟩

/-! ## Executions, and what they may set -/

/-- The transaction was queued by the admin, at least the delay of that time ago, and neither
cancelled nor executed since. -/
def QueuedBefore (tx : Transaction) (time : Nat) (log : List Entry) : Prop :=
  ∃ between queued before, log = between ++ queued :: before ∧
    queued.event = .queueTransaction tx ∧ queued.sender = adminAt before ∧
    queued.time + delayAt before ≤ time ∧ time ≤ tx.eta + GRACE_PERIOD ∧
    ∀ e ∈ between, e.event ≠ .cancelTransaction tx ∧ e.event ≠ .executing tx

/-- The transaction began to be executed at that time, and no execution began or ended since. -/
def BegunBefore (tx : Transaction) (time : Nat) (log : List Entry) : Prop :=
  ∃ between begun before, log = between ++ begun :: before ∧ begun.event = .executing tx ∧
    begun.time = time ∧ ∀ e ∈ between, writesRunning e = none

/-- The call was made by the execution of a transaction that has it as its call data. -/
def MadeByExecution (P : Platform Hash) (this : Address) (log : List Entry) (time : Nat)
    (c : Call) : Prop :=
  ∃ tx, BegunBefore tx time log ∧ tx.target = this ∧ P.dispatch (P.callData tx) = some c

section Events

variable {log later earlier : List Entry} {entry : Entry}

omit [DecidableEq Hash]

theorem eq_queueTransaction (h : writesQueued tx entry = some true) :
    entry.event = .queueTransaction tx := by
  unfold writesQueued at h
  split at h
  · rename_i tx' hevent
    split at h
    · rename_i hsame
      rw [hevent, hsame]
    · cases h
  · split at h <;> cases h
  · split at h <;> cases h
  · cases h

theorem ne_of_writesQueued (h : writesQueued tx entry = none) :
    entry.event ≠ .cancelTransaction tx ∧ entry.event ≠ .executing tx := by
  unfold writesQueued at h
  constructor <;>
  · intro hevent
    rw [hevent] at h
    simp only [if_pos] at h
    cases h

theorem queuedBefore_of_lawful (hlawful : Lawful (Admits P this) (later ++ entry :: earlier))
    (hevent : entry.event = .executing tx) : QueuedBefore tx entry.time earlier := by
  have hadmitted := hlawful.admitted
  unfold Admits at hadmitted
  rw [hevent] at hadmitted
  obtain ⟨_, _, hqueued, hage, hstale⟩ := hadmitted
  obtain ⟨between, queued, before, rfl, hwrite, hbetween⟩ := exists_write hqueued
    Bool.false_ne_true.symm
  have hqueue := eq_queueTransaction hwrite
  have hadmitted : Admits P this before queued := Lawful.admitted hlawful.suffix.2
  unfold Admits at hadmitted
  rw [hqueue] at hadmitted
  obtain ⟨hsender, hdelay⟩ := hadmitted
  exact ⟨between, queued, before, rfl, hqueue, hsender, by omega, hstale,
    fun e he => ne_of_writesQueued (hbetween e he)⟩

theorem eq_begun {begun : Entry} (h : writesRunning entry = some (some begun)) : entry = begun := by
  unfold writesRunning at h
  split at h
  · cases h
    rfl
  · cases h
  · cases h

theorem begunBefore_of_running {begun : Entry} (hrunning : runningAt log = some begun)
    (hevent : begun.event = .executing tx) : BegunBefore tx begun.time log := by
  obtain ⟨between, e, before, rfl, hwrite, hbetween⟩ :=
    exists_write hrunning (Option.some_ne_none begun)
  have hsame := eq_begun hwrite
  subst hsame
  exact ⟨between, e, before, rfl, hevent, rfl, hbetween⟩

theorem madeByExecution_of_inside {time : Nat} {c : Call} (h : Inside P this log time c) :
    MadeByExecution P this log time c := by
  obtain ⟨begun, tx, hrunning, hevent, rfl, htarget, hdispatch⟩ := h
  exact ⟨tx, begunBefore_of_running hrunning hevent, htarget, hdispatch⟩

/-- An execution that has begun runs on or has ended, with no other in between. -/
theorem running_or_ended (hevent : entry.event = .executing tx)
    (hlawful : Lawful (Admits P this) (later ++ entry :: earlier)) :
    (runningAt (later ++ entry :: earlier) = some entry ∧ ∀ e ∈ later, writesRunning e = none) ∨
      ∃ after ended between, later = after ++ ended :: between ∧
        ended.event = .executeTransaction tx ∧ ended.time = entry.time ∧
        ∀ e ∈ between, writesRunning e = none := by
  induction later with
  | nil =>
      refine .inl ⟨lastWrite_of_some ?_, fun e he => nomatch he⟩
      unfold writesRunning
      rw [hevent]
  | cons e later ih =>
      rw [List.cons_append] at hlawful
      rcases ih hlawful.2 with ⟨hrunning, hlater⟩ | ⟨after, ended, between, rfl, hended⟩
      · have hadmits : Admits P this (later ++ entry :: earlier) e := hlawful.1
        cases hwrite : writesRunning e with
        | none =>
            refine .inl ⟨(lastWrite_of_none hwrite).trans hrunning, ?_⟩
            intro e' he'
            rcases List.mem_cons.mp he' with rfl | he'
            · exact hwrite
            · exact hlater e' he'
        -- no call begins while one runs, so the next write is this one's end
        | some running =>
            unfold writesRunning at hwrite
            unfold Admits at hadmits
            split at hwrite
            · rename_i tx' hexecuting
              rw [hexecuting] at hadmits
              obtain ⟨_, hidle, _⟩ := hadmits
              rw [hrunning] at hidle
              cases hidle
            · rename_i tx' hends
              rw [hends] at hadmits
              obtain ⟨begun, hbegun, hbegins, htime, _⟩ := hadmits
              rw [hrunning] at hbegun
              cases hbegun
              rw [hevent] at hbegins
              cases hbegins
              exact .inr ⟨[], e, later, rfl, hends, htime.symm, hlater⟩
            · cases hwrite
      · exact .inr ⟨e :: after, ended, between, rfl, hended⟩

/-- An account that became admin was named before. -/
theorem named_of_newAdmin {admin : Address}
    (hlawful : Lawful (Admits P this) (later ++ entry :: earlier))
    (hevent : entry.event = .newAdmin admin) :
    admin = entry.sender ∧ ∃ between named before, earlier = between ++ named :: before ∧
      named.event = .newPendingAdmin admin := by
  have hadmitted := hlawful.admitted
  unfold Admits at hadmitted
  rw [hevent] at hadmitted
  obtain ⟨hsender, hpending, hnonzero⟩ := hadmitted
  obtain ⟨between, named, before, hsplit, hwrite, _⟩ := exists_write hpending.symm hnonzero
  refine ⟨hsender, between, named, before, hsplit, ?_⟩
  unfold writesPendingAdmin at hwrite
  split at hwrite
  · rename_i pendingAdmin hnames
    cases hwrite
    exact hnames
  · cases hwrite
    exact absurd rfl hnonzero
  · cases hwrite

theorem first_of_uninitialized (h : initializedAt log = false) :
    ∀ e ∈ log, ∀ pendingAdmin, e.event ≠ .newPendingAdmin pendingAdmin := by
  intro e he pendingAdmin hevent
  have hnone := forall_write_eq_none (fun e hwrite => ?_) h e he
  · unfold writesInitialized at hnone
    rw [hevent] at hnone
    cases hnone
  · unfold writesInitialized at hwrite
    split at hwrite
    · cases hwrite
    · cases hwrite

end Events

/-- In every run, with targets that call the timelock as they like: an execution was queued by the
admin at least the delay before, and neither cancelled nor executed since, and ends before another
begins; so a transaction is executed at most as often as it was queued. The delay is set by
executions only, and so is the next admin, except for one first time; an admin was named so. What
the storage holds are these events. -/
theorem execution_of_queued (hkeccak : Function.Injective P.keccak256) (w : World Hash)
    (hreach : (machine P this).ReachableBy (Outside P this) w) :
    (∀ later entry earlier tx, w.log = later ++ entry :: earlier → entry.event = .executing tx →
      QueuedBefore tx entry.time earlier ∧ entry.sender = adminAt earlier ∧
      ∃ after ended between, later = after ++ ended :: between ∧
        ended.event = .executeTransaction tx ∧ ended.time = entry.time ∧
        ∀ e ∈ between, writesRunning e = none) ∧
    (∀ later entry earlier tx, w.log = later ++ entry :: earlier →
      entry.event = .executeTransaction tx → BegunBefore tx entry.time earlier) ∧
    (∀ tx, w.log.countP (·.event = .executing tx) ≤ w.log.countP (·.event = .queueTransaction tx)) ∧
    (∀ later entry earlier delay, w.log = later ++ entry :: earlier →
      entry.event = .newDelay delay →
      MadeByExecution P this earlier entry.time (.setDelay delay)) ∧
    (∀ later entry earlier pendingAdmin, w.log = later ++ entry :: earlier →
      entry.event = .newPendingAdmin pendingAdmin →
      MadeByExecution P this earlier entry.time (.setPendingAdmin pendingAdmin) ∨
        (entry.sender = adminAt earlier ∧
          ∀ e ∈ earlier, ∀ pendingAdmin', e.event ≠ .newPendingAdmin pendingAdmin')) ∧
    (∀ later entry earlier admin, w.log = later ++ entry :: earlier →
      entry.event = .newAdmin admin → admin = entry.sender ∧
        ∃ between named before, earlier = between ++ named :: before ∧
          named.event = .newPendingAdmin admin) ∧
    w.timelock.admin = adminAt w.log ∧ w.timelock.delay = delayAt w.log := by
  have h := (settled_inductive hkeccak).invariant hreach
  have hlawful := h.logged.lawful
  refine ⟨?_, ?_, ?_, ?_, ?_, ?_, h.logged.admin, h.logged.delay⟩
  · intro later entry earlier tx hsplit hevent
    rw [hsplit] at hlawful
    have hadmitted := hlawful.admitted
    unfold Admits at hadmitted
    rw [hevent] at hadmitted
    refine ⟨queuedBefore_of_lawful hlawful hevent, hadmitted.1, ?_⟩
    -- between transactions none is running, so this one has ended
    rcases running_or_ended hevent hlawful with ⟨hrunning, _⟩ | hended
    · have hidle := h.idle
      rw [hsplit, hrunning] at hidle
      cases hidle
    · exact hended
  · intro later entry earlier tx hsplit hevent
    rw [hsplit] at hlawful
    have hadmitted := hlawful.admitted
    unfold Admits at hadmitted
    rw [hevent] at hadmitted
    obtain ⟨begun, hrunning, hbegins, htime, _⟩ := hadmitted
    rw [← htime]
    exact begunBefore_of_running hrunning hbegins
  · intro tx
    -- each execution consumes a queueing, as it clears the flag that only queueing sets
    have hraise : ∀ e, writesQueued tx e = some true →
        decide (e.event = .queueTransaction tx) = true :=
      fun e hwrite => decide_eq_true (eq_queueTransaction hwrite)
    have hcount := hlawful.countP_le hraise fun log e hadmits
        (hused : decide (e.event = .executing tx) = true) => by
      have hevent := of_decide_eq_true hused
      unfold Admits at hadmits
      rw [hevent] at hadmits
      refine ⟨?_, hadmits.2.2.1⟩
      unfold writesQueued
      rw [hevent]
      exact if_pos rfl
    exact (Nat.le_add_right _ _).trans hcount
  · intro later entry earlier delay hsplit hevent
    rw [hsplit] at hlawful
    have hadmitted := hlawful.admitted
    unfold Admits at hadmitted
    rw [hevent] at hadmitted
    exact madeByExecution_of_inside hadmitted
  · intro later entry earlier pendingAdmin hsplit hevent
    rw [hsplit] at hlawful
    have hadmitted := hlawful.admitted
    unfold Admits at hadmitted
    rw [hevent] at hadmitted
    rcases hadmitted with hinside | ⟨hfirst, hsender⟩
    · exact .inl (madeByExecution_of_inside hinside)
    · exact .inr ⟨hsender, first_of_uninitialized hfirst⟩
  · intro later entry earlier admin hsplit hevent
    rw [hsplit] at hlawful
    exact named_of_newAdmin hlawful hevent

end History

/-! ## A longer delay -/

/-- The call data of `setDelay(172800)`. -/
def setDelayData : List UInt8 :=
  [0xe1, 0x77, 0x24, 0x6e] ++ List.replicate 29 0 ++ [0x02, 0xa3, 0x00]

/-- A hash without collisions, and as much of the compiler as these call data need. -/
def platform : Platform (List Nat) where
  keccak256 := id
  selector _ := [0xe1, 0x77, 0x24, 0x6e]
  dispatch data := if data = setDelayData then some (.setDelay 172800) else none
  decodeString _ := .ok ""

/-- Account 1 is the admin of a timelock at 100 with the delay of a day. -/
def deployed : World (List Nat) where
  timelock := { admin := 1, delay := 86400 }
  timestamp := 0
  log := [{ sender := 50, time := 0, event := .deployed 1 86400 }]

/-- The timelock sets its delay to two days. -/
def setTwoDays : Transaction where
  target := 100
  value := 0
  signature := "setDelay(uint256)".toUTF8.toList
  data := setDelayData.drop 4
  eta := 86400

/-- The timelock as its own target. -/
def ownTarget : Target (List Nat) := fun target _ callData w =>
  if target = 100 ∧ callData = setDelayData then
    match setDelay 100 100 172800 w with
    | .ok w' => .ok (w', [])
    | .error _ => .error []
  else .error []

theorem dispatch_setDelayData : platform.dispatch setDelayData = some (.setDelay 172800) := by
  show (if setDelayData = setDelayData then some (Call.setDelay 172800) else none) = _
  rw [if_pos rfl]

theorem ownTarget_behaves : Behaves platform 100 (Calls platform 100 1) ownTarget := by
  intro target value callData w w' returnData hcall
  unfold ownTarget at hcall
  split at hcall
  · rename_i hself
    obtain ⟨rfl, rfl⟩ := hself
    split at hcall
    · rename_i w₁ hsets
      cases hcall
      rw [if_pos rfl]
      refine ⟨.setDelay 172800, dispatch_setDelayData, fun _ _ _ _ => .error [], ?_, hsets⟩
      intro _ _ _ _ _ _ hfails
      cases hfails
    · cases hcall
  · cases hcall

theorem execution_of_queued_delay :
    ∃ w, (machine platform 100).ReachableBy (Outside platform 100) w ∧
      w.timelock.delay = 172800 ∧ delayAt w.log = 172800 := by
  have hrun : (machine platform 100).lastStep deployed
      [{ sender := 1, timestamp := 0, call := .queueTransaction setTwoDays }]
      { sender := 1, timestamp := 86400, call := .executeTransaction setTwoDays
        target := ownTarget }
      (fun _ w => w.timelock.delay = 172800) = true := by
    decide +kernel
  have hinit : (machine platform 100).init deployed := by
    refine ⟨by decide, 50, 0, 1, 86400, _, ?_, rfl⟩
    rfl
  have haccount : Account 100 1 := ⟨by decide, by decide⟩
  have hkeccak : Function.Injective platform.keccak256 := Function.injective_id
  -- nobody is called before the execution, and its target behaves
  have hok : ∀ τ, ∀ m ∈ [({ sender := 1, timestamp := 0, call := .queueTransaction setTwoDays } :
      Message (List Nat))], Outside platform 100 τ m := by
    intro τ m hm
    fin_cases hm
    refine ⟨haccount, 0, ?_⟩
    intro _ _ _ _ _ _ hfails
    cases hfails
  obtain ⟨w₁, w, hreach, hstep, htest⟩ := TSys.lastStep_reachableBy hinit hok hrun
  have hreach : (machine platform 100).ReachableBy (Outside platform 100) w :=
    .step hreach ⟨haccount, 1, ownTarget_behaves⟩ hstep
  have hdelay := of_decide_eq_true htest
  have htheorem := execution_of_queued hkeccak w hreach
  exact ⟨w, hreach, hdelay, htheorem.2.2.2.2.2.2.2.symm.trans hdelay⟩

end Huski.Timelock
