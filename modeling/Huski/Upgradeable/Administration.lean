import Huski.Lib.EventLog
import Huski.Upgradeable.Model

/-!
# Who administers a proxy

A proxy whose admin is a `ProxyAdmin`, among accounts with any code. The log of a run says what the
owner has had done: the implementation, the admin and the owner are what the newest call that
writes them has written, and behind every such call stands a call of the owner of that time. What
else is called, from where and how deeply nested, changes nothing of it.

The implementations are trusted with two things: they leave the two slots of the proxy alone, and
they run no other code than trusted code on its storage. That holds as long as the owner upgrades
to trusted code and does not hand the proxy over (`Steady`).
-/

open Solidity MessageCalls EventLog

namespace Huski.Upgradeable

/-- Only the owner may. -/
def AdminRequest.restricted : AdminRequest → Bool
  | .renounceOwnership | .transferOwnership _ | .changeProxyAdmin _ _ | .upgrade _ _
  | .upgradeAndCall _ _ _ => true
  | _ => false

/-- The call of a proxy that a request ends in. -/
def AdminRequest.forwarded : AdminRequest → Option (Address × ProxyRequest)
  | .changeProxyAdmin proxy newAdmin => some (proxy, .changeAdmin newAdmin)
  | .upgrade proxy implementation => some (proxy, .upgradeTo implementation)
  | .upgradeAndCall proxy implementation data =>
      some (proxy, .upgradeToAndCall implementation data)
  | _ => none

section Writes

variable (proxyAdmin proxy : Address)

/-- A call of the account, not of code that runs on it. -/
def Calls (account : Address) (m : Message) : Prop := m.delegated = false ∧ m.this = account

instance (account : Address) (m : Message) : Decidable (Calls account m) :=
  inferInstanceAs (Decidable (_ ∧ _))

/-- The implementation that the admin gives to the proxy. -/
def implementationWrite (m : Message) : Option Address :=
  if Calls proxy m ∧ m.sender = proxyAdmin then
    match proxyRequest m.toCall with
    | .upgradeTo implementation => some implementation
    | .upgradeToAndCall implementation _ => some implementation
    | _ => none
  else none

/-- The admin that the admin puts in its place. -/
def adminWrite (m : Message) : Option Address :=
  if Calls proxy m ∧ m.sender = proxyAdmin then
    match proxyRequest m.toCall with
    | .changeAdmin newAdmin => some newAdmin
    | _ => none
  else none

/-- The owner a call of `ProxyAdmin` names. -/
def ownerWrite (m : Message) : Option Address :=
  if Calls proxyAdmin m then
    match adminRequest m.toCall with
    | .renounceOwnership => some 0
    | .transferOwnership newOwner => some newOwner
    | _ => none
  else none

/-- The slots that an implementation may use. -/
def Unreserved (slot : Nat) : Prop := slot ≠ IMPLEMENTATION_SLOT ∧ slot ≠ ADMIN_SLOT

/-- A proxy and its admin among other accounts, and the code that is trusted on the proxy. -/
structure Deployed (code : Address → Option Contract) (logic : Address → Prop) : Prop where
  distinct : proxyAdmin ≠ proxy
  admin : code proxyAdmin = some ProxyAdmin
  proxy : code proxy = some AdminUpgradeabilityProxy
  confined : ∀ a contract, logic a → code a = some contract →
    ∀ c, (contract c).Confined Unreserved logic

/-- Upgrades are to trusted code, and the proxy keeps its admin. -/
def Steady (logic : Address → Prop) (log : List Message) : Prop :=
  ∀ m ∈ log, (∀ a ∈ implementationWrite proxyAdmin proxy m, logic a) ∧
    ∀ a ∈ adminWrite proxyAdmin proxy m, a = proxyAdmin

instance (logic : Address → Prop) [DecidablePred logic] (log : List Message) :
    Decidable (Steady proxyAdmin proxy logic log) :=
  -- the candidates are those written, not all addresses
  have : DecidablePred fun m => (∀ a ∈ implementationWrite proxyAdmin proxy m, logic a) ∧
      ∀ a ∈ adminWrite proxyAdmin proxy m, a = proxyAdmin := fun m =>
    @instDecidableAnd _ _ (Option.decidableForallMem (implementationWrite proxyAdmin proxy m))
      (Option.decidableForallMem (adminWrite proxyAdmin proxy m))
  List.decidableBAll _ log

/-- What stands behind a call: the owner of that time behind a restricted call of the admin, and
the call in progress of the admin behind a call from it, other than to ask. -/
structure Admitted (owner₀ : Address) (log : List Message) (m : Message) : Prop where
  owner : Calls proxyAdmin m → (adminRequest m.toCall).restricted = true →
    m.sender = lastWrite (ownerWrite proxyAdmin) owner₀ log
  forwarded : Calls proxy m → m.sender = proxyAdmin → m.static = false →
    ∃ request earlier, log = request :: earlier ∧ Calls proxyAdmin request ∧
      (adminRequest request.toCall).forwarded = some (proxy, proxyRequest m.toCall)

/-- The state of the administration is what the log says, beginning with an owner and an
implementation. -/
structure Administered (code : Address → Option Contract) (owner₀ implementation₀ : Address)
    (w : World) : Prop where
  owner : w.storage proxyAdmin OWNER_SLOT = (lastWrite (ownerWrite proxyAdmin) owner₀ w.log).val
  admin : w.storage proxy ADMIN_SLOT = proxyAdmin.val
  implementation : w.storage proxy IMPLEMENTATION_SLOT =
    (lastWrite (implementationWrite proxyAdmin proxy) implementation₀ w.log).val
  deployed : (code (lastWrite (implementationWrite proxyAdmin proxy) implementation₀ w.log)).isSome
  lawful : Lawful (Admitted proxyAdmin proxy owner₀) w.log

/-- The calls that are made in a run: with the code of the account itself, and from the admin only
to ask or as the request in progress has it; or on another account, where it is the proxy only with
trusted code. -/
def Admits (logic : Address → Prop) (w : World) (m : Message) : Prop :=
  if m.delegated then
    m.this ≠ proxyAdmin ∧ (m.this = proxy → Steady proxyAdmin proxy logic w.log → logic m.code)
  else
    m.code = m.this ∧ (m.sender = proxyAdmin → m.static = false →
      ∃ request earlier, w.log = request :: earlier ∧ Calls proxyAdmin request ∧
        (adminRequest request.toCall).forwarded = some (m.this, proxyRequest m.toCall))

end Writes

section Frames

variable {code : Address → Option Contract} {logic : Address → Prop}
  {proxyAdmin proxy owner₀ implementation₀ : Address} {w : World} {m : Message}

/-! ## Code on accounts -/

/-- What a frame may do on its account: everything, but on the proxy only what trusted code does. -/
abbrev Program.Trusted (proxy : Address) (logic : Address → Prop) (m : Message) (p : Program) :
    Prop :=
  p.Confined (fun s => m.this = proxy → Unreserved s) fun a => m.this = proxy → logic a

theorem trusted_elsewhere (h : m.this ≠ proxy) (p : Program) : Program.Trusted proxy logic m p :=
  p.confined_of_forall (fun _ hproxy => absurd hproxy h) (fun _ hproxy => absurd hproxy h)

theorem Deployed.trusted (h : Deployed proxyAdmin proxy code logic) {a : Address}
    {contract : Contract} (hlogic : logic a) (hcode : code a = some contract) (m : Message)
    (c : Call) : Program.Trusted proxy logic m (contract c) :=
  (h.confined a contract hlogic hcode c).mono (fun _ hslot _ => hslot) (fun _ ha _ => ha)

/-! ## The log -/

theorem Steady.tail {log : List Message} (h : Steady proxyAdmin proxy logic (m :: log)) :
    Steady proxyAdmin proxy logic log :=
  fun m' hmem => h m' (List.mem_cons_of_mem m hmem)

theorem Steady.implementation (hlogic : logic implementation₀) {log : List Message}
    (h : Steady proxyAdmin proxy logic log) :
    logic (lastWrite (implementationWrite proxyAdmin proxy) implementation₀ log) := by
  induction log with
  | nil => exact hlogic
  | cons m log ih =>
      cases hwrite : implementationWrite proxyAdmin proxy m with
      | none =>
          rw [lastWrite_of_none hwrite]
          exact ih h.tail
      | some a =>
          rw [lastWrite_of_some hwrite]
          exact (h m List.mem_cons_self).1 a hwrite

/-- A run that has left the steady ones stays outside. -/
theorem exec_unsteady (depth : Nat) (p : Program)
    (hw : ¬ Steady proxyAdmin proxy logic w.log) :
    Keeps (fun w => ¬ Steady proxyAdmin proxy logic w.log)
      (exec chain code (answer chain code depth) m p w) := by
  -- the log only grows, so what it already violates it goes on violating
  have hkeeping : Keeping chain (fun w => ¬ Steady proxyAdmin proxy logic w.log)
      fun _ _ => True := by
    refine ⟨?_, fun _ _ _ _ _ => trivial⟩
    intro w a b v w' htransfer hw
    rw [World.log_transfer htransfer]
    exact hw
  have hexec : ∀ depth, (∀ m w, True → ¬ Steady proxyAdmin proxy logic w.log →
      Keeps (fun w => ¬ Steady proxyAdmin proxy logic w.log) (answer chain code depth m w)) →
      ∀ m p w, ¬ Steady proxyAdmin proxy logic w.log →
        Keeps (fun w => ¬ Steady proxyAdmin proxy logic w.log)
          (exec chain code (answer chain code depth) m p w) := by
    intro depth hanswer m p w hw
    exact exec_keeps hkeeping hanswer (fun _ _ _ _ _ hw => hw) (fun _ _ _ _ _ => trivial)
      (fun _ _ _ _ => trivial) (fun _ _ _ _ _ => trivial)
      (p.confined_of_forall (fun _ => trivial) (fun _ => trivial)) hw
  have hrecord : ∀ m (w : World), ¬ Steady proxyAdmin proxy logic w.log →
      ¬ Steady proxyAdmin proxy logic (w.record m).log :=
    fun m w hw hsteady => hw hsteady.tail
  refine hexec depth ?_ m p w hw
  apply answer_keeps
  · intro depth hanswer m w contract _ hw _
    exact hexec depth hanswer m _ _ (hrecord m w hw)
  · intro m w _ hw _
    exact hrecord m w hw

/-! ## Steps of the administration -/

/-- A call that writes nothing of the administration. -/
def Quiet (proxyAdmin proxy : Address) (m : Message) : Prop :=
  ownerWrite proxyAdmin m = none ∧ implementationWrite proxyAdmin proxy m = none

theorem Administered.record (h : Administered proxyAdmin proxy code owner₀ implementation₀ w)
    (hquiet : Quiet proxyAdmin proxy m) (hadmitted : Admitted proxyAdmin proxy owner₀ w.log m) :
    Administered proxyAdmin proxy code owner₀ implementation₀ (w.record m) := by
  constructor
  · rw [World.storage_record, World.log_record, lastWrite_of_none hquiet.1]
    exact h.owner
  · exact h.admin
  · rw [World.storage_record, World.log_record, lastWrite_of_none hquiet.2]
    exact h.implementation
  · rw [World.log_record, lastWrite_of_none hquiet.2]
    exact h.deployed
  · exact ⟨hadmitted, h.lawful⟩

theorem Administered.transfer (h : Administered proxyAdmin proxy code owner₀ implementation₀ w)
    {a b : Address} {v : Nat} {w' : World} (htransfer : w.transfer a b v = some w') :
    Administered proxyAdmin proxy code owner₀ implementation₀ w' := by
  have hstorage := World.storage_transfer htransfer
  have hlog := World.log_transfer htransfer
  constructor
  · rw [hstorage, hlog]
    exact h.owner
  · rw [hstorage]
    exact h.admin
  · rw [hstorage, hlog]
    exact h.implementation
  · rw [hlog]
    exact h.deployed
  · rw [hlog]
    exact h.lawful

/-- Other accounts, and the other slots of the proxy, are not part of it. -/
theorem Administered.store (h : Administered proxyAdmin proxy code owner₀ implementation₀ w)
    {a : Address} {s v : Nat} (hadmin : a ≠ proxyAdmin) (hslot : a = proxy → Unreserved s) :
    Administered proxyAdmin proxy code owner₀ implementation₀ (w.store a s v) := by
  have hslots : ∀ s', s' = IMPLEMENTATION_SLOT ∨ s' = ADMIN_SLOT →
      (w.store a s v).storage proxy s' = w.storage proxy s' := by
    intro s' hs'
    by_cases hproxy : a = proxy
    · have hunreserved := hslot hproxy
      apply World.storage_store_of_slot
      rcases hs' with rfl | rfl
      · exact fun heq => hunreserved.1 heq.symm
      · exact fun heq => hunreserved.2 heq.symm
    · rw [World.storage_store_of_account]
      exact fun heq => hproxy heq.symm
  constructor
  · rw [World.storage_store_of_account _ _ _ _ _ hadmin.symm]
    exact h.owner
  · rw [hslots ADMIN_SLOT (.inr rfl)]
    exact h.admin
  · rw [hslots IMPLEMENTATION_SLOT (.inl rfl)]
    exact h.implementation
  · exact h.deployed
  · exact h.lawful

/-- The owner writes the owner. -/
theorem Administered.setOwner (h : Administered proxyAdmin proxy code owner₀ implementation₀ w)
    (hdistinct : proxyAdmin ≠ proxy) {a : Address} (hwrite : ownerWrite proxyAdmin m = some a)
    (hquiet : implementationWrite proxyAdmin proxy m = none)
    (hadmitted : Admitted proxyAdmin proxy owner₀ w.log m) :
    Administered proxyAdmin proxy code owner₀ implementation₀
      ((w.record m).store proxyAdmin OWNER_SLOT a.val) := by
  constructor
  · rw [World.storage_store_self, World.log_store, World.log_record, lastWrite_of_some hwrite]
  · rw [World.storage_store_of_account _ _ _ _ _ hdistinct.symm]
    exact h.admin
  · rw [World.storage_store_of_account _ _ _ _ _ hdistinct.symm, World.log_store,
      World.log_record, lastWrite_of_none hquiet]
    exact h.implementation
  · rw [World.log_store, World.log_record, lastWrite_of_none hquiet]
    exact h.deployed
  · exact ⟨hadmitted, h.lawful⟩

/-- The admin writes the implementation. -/
theorem Administered.setImplementation
    (h : Administered proxyAdmin proxy code owner₀ implementation₀ w)
    (hdistinct : proxyAdmin ≠ proxy) {a : Address}
    (hwrite : implementationWrite proxyAdmin proxy m = some a) (hcode : (code a).isSome)
    (hquiet : ownerWrite proxyAdmin m = none)
    (hadmitted : Admitted proxyAdmin proxy owner₀ w.log m) :
    Administered proxyAdmin proxy code owner₀ implementation₀
      ((w.record m).store proxy IMPLEMENTATION_SLOT a.val) := by
  constructor
  · rw [World.storage_store_of_account _ _ _ _ _ hdistinct, World.log_store, World.log_record,
      lastWrite_of_none hquiet]
    exact h.owner
  · rw [World.storage_store_of_slot _ _ _ _ _ (by decide)]
    exact h.admin
  · rw [World.storage_store_self, World.log_store, World.log_record, lastWrite_of_some hwrite]
  · rw [World.log_store, World.log_record, lastWrite_of_some hwrite]
    exact hcode
  · exact ⟨hadmitted, h.lawful⟩

/-- The admin writes itself. -/
theorem Administered.setAdmin (h : Administered proxyAdmin proxy code owner₀ implementation₀ w)
    (hdistinct : proxyAdmin ≠ proxy) (hquiet : Quiet proxyAdmin proxy m)
    (hadmitted : Admitted proxyAdmin proxy owner₀ w.log m) :
    Administered proxyAdmin proxy code owner₀ implementation₀
      ((w.record m).store proxy ADMIN_SLOT proxyAdmin.val) := by
  have hrecord := h.record hquiet hadmitted
  constructor
  · rw [World.storage_store_of_account _ _ _ _ _ hdistinct]
    exact hrecord.owner
  · exact World.storage_store_self _ _ _ _
  · rw [World.storage_store_of_slot _ _ _ _ _ (by decide)]
    exact hrecord.implementation
  · exact hrecord.deployed
  · exact hrecord.lawful

/-- A call elsewhere is no step of the administration. -/
theorem Administered.elsewhere (h : Administered proxyAdmin proxy code owner₀ implementation₀ w)
    (hadmin : ¬ Calls proxyAdmin m) (hproxy : ¬ Calls proxy m) :
    Administered proxyAdmin proxy code owner₀ implementation₀ (w.record m) := by
  have hquiet : Quiet proxyAdmin proxy m := ⟨if_neg hadmin, if_neg fun h => hproxy h.1⟩
  apply h.record hquiet
  constructor
  · exact fun h => absurd h hadmin
  · exact fun h => absurd h hproxy

/-! ## What runs keep -/

/-- In a steady run the administration is what the log says. -/
def Kept (proxyAdmin proxy : Address) (code : Address → Option Contract) (logic : Address → Prop)
    (owner₀ implementation₀ : Address) (w : World) : Prop :=
  Steady proxyAdmin proxy logic w.log →
    Administered proxyAdmin proxy code owner₀ implementation₀ w

/-- The calls down to a depth are answered so. -/
def Answers (proxyAdmin proxy : Address) (code : Address → Option Contract)
    (logic : Address → Prop) (owner₀ implementation₀ : Address) (depth : Nat) : Prop :=
  ∀ m w, Admits proxyAdmin proxy logic w m →
    Kept proxyAdmin proxy code logic owner₀ implementation₀ w →
      Keeps (Kept proxyAdmin proxy code logic owner₀ implementation₀)
        (answer chain code depth m w)

theorem keeping : Keeping chain (Kept proxyAdmin proxy code logic owner₀ implementation₀)
    (Admits proxyAdmin proxy logic) := by
  constructor
  · intro w a b v w' htransfer hw hsteady
    rw [World.log_transfer htransfer] at hsteady
    exact (hw hsteady).transfer htransfer
  · intro w m w' htransfer hadmits
    unfold Admits at hadmits ⊢
    rw [World.log_transfer htransfer]
    exact hadmits

theorem Kept.record (h : Kept proxyAdmin proxy code logic owner₀ implementation₀ w)
    (hquiet : Quiet proxyAdmin proxy m) (hadmitted : Admitted proxyAdmin proxy owner₀ w.log m) :
    Kept proxyAdmin proxy code logic owner₀ implementation₀ (w.record m) :=
  fun hsteady => (h hsteady.tail).record hquiet hadmitted

/-- A frame on another account than the admin's calls what it likes. -/
theorem admits_callTo (hthis : m.this ≠ proxyAdmin) (target : Address) (value : Nat)
    (data : Data) : Admits proxyAdmin proxy logic w (m.callTo target value data) := by
  show _ = _ ∧ _
  exact ⟨rfl, fun hsender => absurd hsender hthis⟩

theorem admits_staticcallTo (target : Address) (data : Data) :
    Admits proxyAdmin proxy logic w (m.staticcallTo target data) := by
  show _ = _ ∧ _
  refine ⟨rfl, ?_⟩
  intro _ hstatic
  cases hstatic

theorem admits_delegateTo (hthis : m.this ≠ proxyAdmin) {target : Address}
    (htarget : m.this = proxy → Steady proxyAdmin proxy logic w.log → logic target)
    (data : Data) : Admits proxyAdmin proxy logic w (m.delegateTo target data) := by
  show _ ≠ _ ∧ _
  exact ⟨hthis, htarget⟩

/-- A call that the owner of the time makes has what stands behind it. -/
theorem admitted_of_calls (hdistinct : proxyAdmin ≠ proxy) (hcalls : Calls proxyAdmin m)
    (howner : (adminRequest m.toCall).restricted = true →
      m.sender = lastWrite (ownerWrite proxyAdmin) owner₀ w.log) :
    Admitted proxyAdmin proxy owner₀ w.log m := by
  refine ⟨fun _ => howner, ?_⟩
  intro hproxy
  exact absurd (hcalls.2.symm.trans hproxy.2) hdistinct

section Answered

variable {depth : Nat}
  (hanswer : Answers proxyAdmin proxy code logic owner₀ implementation₀ depth)

include hanswer

/-- A frame of any code on another account, and of trusted code on the proxy. -/
theorem frame_other (hthis : m.this ≠ proxyAdmin) {p : Program}
    (hp : Program.Trusted proxy logic m p)
    (hw : Kept proxyAdmin proxy code logic owner₀ implementation₀ w) :
    Keeps (Kept proxyAdmin proxy code logic owner₀ implementation₀)
      (exec chain code (answer chain code depth) m p w) := by
  refine exec_keeps keeping hanswer ?_ ?_ ?_ ?_ hp hw
  · intro _ w s v hslot hw hsteady
    exact (hw hsteady).store hthis hslot
  · intro w target value data _
    exact admits_callTo hthis target value data
  · intro w target data _
    exact admits_staticcallTo target data
  · intro w target data htarget _
    exact admits_delegateTo hthis (fun hproxy _ => htarget hproxy) data

/-- A call of another contract as the end of a frame. -/
theorem callProxy_keeps {target : Address} {value : Nat} {request : ProxyRequest}
    (hadmits : Admits proxyAdmin proxy logic w (m.callTo target value request.callData))
    (hw : Kept proxyAdmin proxy code logic owner₀ implementation₀ w) :
    Keeps (Kept proxyAdmin proxy code logic owner₀ implementation₀)
      (exec chain code (answer chain code depth) m (callProxy target value request) w) := by
  unfold callProxy
  rw [exec]
  cases (code target).isSome with
  | false => exact keeps_of_failure
  | true =>
      rw [if_pos rfl, exec]
      split
      · exact keeps_of_failure
      · have hsent := keeping.send hanswer hadmits hw
        simp only
        split
        · exact keeps_of_state hsent
        · exact keeps_of_failure

theorem getFromProxy_keeps {target : Address} {request : ProxyRequest}
    (hw : Kept proxyAdmin proxy code logic owner₀ implementation₀ w) :
    Keeps (Kept proxyAdmin proxy code logic owner₀ implementation₀)
      (exec chain code (answer chain code depth) m (getFromProxy target request) w) := by
  have hsettled : Kept proxyAdmin proxy code logic owner₀ implementation₀
      (settle w (answer chain code depth (m.staticcallTo target request.callData) w)).1 :=
    (hanswer _ w (admits_staticcallTo target request.callData) hw).settle hw
  unfold getFromProxy
  rw [exec]
  split
  · split
    · exact keeps_of_state hsettled
    · exact keeps_of_failure
  · exact keeps_of_failure

/-! ### The admin contract -/

theorem frame_proxyAdmin (hdeployed : Deployed proxyAdmin proxy code logic)
    (hcalls : Calls proxyAdmin m)
    (hw : Kept proxyAdmin proxy code logic owner₀ implementation₀ w) :
    Keeps (Kept proxyAdmin proxy code logic owner₀ implementation₀)
      (exec chain code (answer chain code depth) m (ProxyAdmin m.toCall) (w.record m)) := by
  by_cases hsteady : Steady proxyAdmin proxy logic (m :: w.log)
  case neg =>
    intro returned hsuccess hlog
    exact absurd hlog (exec_unsteady (w := w.record m) depth _ hsteady returned hsuccess)
  have hadm := hw hsteady.tail
  have hdistinct := hdeployed.distinct
  have hthis : m.this = proxyAdmin := hcalls.2
  have himplementation : implementationWrite proxyAdmin proxy m = none := by
    refine if_neg ?_
    intro h
    exact hdistinct (hthis.symm.trans h.1.2)
  have hstored : toAddress ((w.record m).storage m.this OWNER_SLOT) =
      lastWrite (ownerWrite proxyAdmin) owner₀ w.log := by
    rw [World.storage_record, hthis, hadm.owner, toAddress_val]
  -- what the owner check lets through
  have honlyOwner : ∀ body,
      ((Admitted proxyAdmin proxy owner₀ w.log m) →
        Keeps (Kept proxyAdmin proxy code logic owner₀ implementation₀)
          (exec chain code (answer chain code depth) m body (w.record m))) →
      Keeps (Kept proxyAdmin proxy code logic owner₀ implementation₀)
        (exec chain code (answer chain code depth) m (onlyOwner m.toCall body) (w.record m)) := by
    intro body hbody
    rw [exec_onlyOwner hstored]
    split
    · rename_i howner
      exact hbody (admitted_of_calls hdistinct hcalls fun _ => howner.symm)
    · exact keeps_of_failure
  have hforward : ∀ target value request,
      ownerWrite proxyAdmin m = none →
      (adminRequest m.toCall).forwarded =
        some (target, proxyRequest (m.callTo target value request.callData).toCall) →
      Admitted proxyAdmin proxy owner₀ w.log m →
      Keeps (Kept proxyAdmin proxy code logic owner₀ implementation₀)
        (exec chain code (answer chain code depth) m (callProxy target value request)
          (w.record m)) := by
    intro target value request hwrite hforwarded hadmitted
    apply callProxy_keeps hanswer
    · show _ = _ ∧ _
      exact ⟨rfl, fun _ _ => ⟨m, w.log, rfl, hcalls, hforwarded⟩⟩
    · exact hw.record ⟨hwrite, himplementation⟩ hadmitted
  have hasks : ∀ {request}, adminRequest m.toCall = request → request.restricted = false →
      ownerWrite proxyAdmin m = none →
      Kept proxyAdmin proxy code logic owner₀ implementation₀ (w.record m) := by
    intro request hrequest hrestricted hwrite
    refine hw.record ⟨hwrite, himplementation⟩ (admitted_of_calls hdistinct hcalls ?_)
    rw [hrequest, hrestricted]
    exact fun h => absurd h Bool.false_ne_true
  have hwrites : ∀ a, ownerWrite proxyAdmin m = some a →
      Admitted proxyAdmin proxy owner₀ w.log m →
      Keeps (Kept proxyAdmin proxy code logic owner₀ implementation₀)
        (exec chain code (answer chain code depth) m (.sstore OWNER_SLOT a.val stop)
          (w.record m)) := by
    intro a hwrite hadmitted
    rw [exec]
    split
    · exact keeps_of_failure
    · refine keeps_of_state fun _ => ?_
      rw [hthis]
      exact hadm.setOwner hdistinct hwrite himplementation hadmitted
  have hwrite : ownerWrite proxyAdmin m = match adminRequest m.toCall with
      | .renounceOwnership => some 0
      | .transferOwnership newOwner => some newOwner
      | _ => none := if_pos hcalls
  unfold ProxyAdmin
  cases hrequest : adminRequest m.toCall with
  | owner =>
      rw [hrequest] at hwrite
      exact keeps_of_state (hasks hrequest rfl hwrite)
  | renounceOwnership =>
      rw [hrequest] at hwrite
      exact honlyOwner _ (hwrites 0 hwrite)
  | transferOwnership newOwner =>
      rw [hrequest] at hwrite
      refine honlyOwner _ fun hadmitted => ?_
      unfold transferOwnership
      split
      · exact hwrites newOwner hwrite hadmitted
      · exact keeps_of_failure
  | getProxyImplementation target =>
      rw [hrequest] at hwrite
      exact getFromProxy_keeps hanswer (hasks hrequest rfl hwrite)
  | getProxyAdmin target =>
      rw [hrequest] at hwrite
      exact getFromProxy_keeps hanswer (hasks hrequest rfl hwrite)
  | changeProxyAdmin target newAdmin =>
      rw [hrequest] at hwrite
      refine honlyOwner _ (hforward target 0 _ hwrite ?_)
      have hround : proxyRequest
          (m.callTo target 0 (ProxyRequest.changeAdmin newAdmin).callData).toCall =
            .changeAdmin newAdmin := proxyRequest_changeAdmin rfl rfl
      rw [hrequest, hround]
      rfl
  | upgrade target newImplementation =>
      rw [hrequest] at hwrite
      refine honlyOwner _ (hforward target 0 _ hwrite ?_)
      have hround : proxyRequest
          (m.callTo target 0 (ProxyRequest.upgradeTo newImplementation).callData).toCall =
            .upgradeTo newImplementation := proxyRequest_upgradeTo rfl rfl
      rw [hrequest, hround]
      rfl
  | upgradeAndCall target newImplementation data =>
      rw [hrequest] at hwrite
      refine honlyOwner _ (hforward target m.value _ hwrite ?_)
      have hround : proxyRequest (m.callTo target m.value
          (ProxyRequest.upgradeToAndCall newImplementation data).callData).toCall =
            .upgradeToAndCall newImplementation data :=
        proxyRequest_upgradeToAndCall rfl (length_le_of_adminRequest hrequest)
      rw [hrequest, hround]
      rfl
  | malformed => exact keeps_of_failure

/-! ### The proxy -/

theorem frame_proxy_user (hdeployed : Deployed proxyAdmin proxy code logic)
    (hlogic : logic implementation₀) (hcalls : Calls proxy m) (hsender : m.sender ≠ proxyAdmin)
    (hsteady : Steady proxyAdmin proxy logic (m :: w.log))
    (hw : Kept proxyAdmin proxy code logic owner₀ implementation₀ w) :
    Keeps (Kept proxyAdmin proxy code logic owner₀ implementation₀)
      (exec chain code (answer chain code depth) m (AdminUpgradeabilityProxy m.toCall)
        (w.record m)) := by
  have hadm := hw hsteady.tail
  have hthis : m.this = proxy := hcalls.2
  have hother : m.this ≠ proxyAdmin := fun h => hdeployed.distinct (h.symm.trans hthis)
  have hrecorded : Kept proxyAdmin proxy code logic owner₀ implementation₀ (w.record m) := by
    refine hw.record ⟨if_neg fun h => hother h.2, if_neg fun h => hsender h.2⟩ ⟨?_, ?_⟩
    · exact fun h => absurd h.2 hother
    · exact fun _ h => absurd h hsender
  have hadmin : toAddress ((w.record m).storage m.this ADMIN_SLOT) = proxyAdmin := by
    rw [World.storage_record, hthis, hadm.admin, toAddress_val]
  have himplementation : toAddress ((w.record m).storage m.this IMPLEMENTATION_SLOT) =
      lastWrite (implementationWrite proxyAdmin proxy) implementation₀ w.log := by
    rw [World.storage_record, hthis, hadm.implementation, toAddress_val]
  rw [exec_proxy_user hadmin himplementation hsender]
  split
  · exact keeps_of_failure
  · refine keeps_of_state ((hanswer _ _ ?_ hrecorded).settle hrecorded)
    exact admits_delegateTo hother (fun _ _ => hsteady.tail.implementation hlogic) _

/-- A call from the admin does what the request says, or only asks. -/
theorem frame_proxy_admin (hdeployed : Deployed proxyAdmin proxy code logic)
    (hcalls : Calls proxy m) (hsender : m.sender = proxyAdmin)
    (hadmits : Admits proxyAdmin proxy logic w m)
    (hsteady : Steady proxyAdmin proxy logic (m :: w.log))
    (hw : Kept proxyAdmin proxy code logic owner₀ implementation₀ w) :
    Keeps (Kept proxyAdmin proxy code logic owner₀ implementation₀)
      (exec chain code (answer chain code depth) m (AdminUpgradeabilityProxy m.toCall)
        (w.record m)) := by
  have hadm := hw hsteady.tail
  have hdistinct := hdeployed.distinct
  have hthis : m.this = proxy := hcalls.2
  have hother : m.this ≠ proxyAdmin := fun h => hdistinct (h.symm.trans hthis)
  have howner : ownerWrite proxyAdmin m = none := if_neg fun h => hother h.2
  have hadmitted : Admitted proxyAdmin proxy owner₀ w.log m := by
    refine ⟨fun h => absurd h.2 hother, ?_⟩
    intro _ _ hstatic
    unfold Admits at hadmits
    rw [hcalls.1, if_neg Bool.false_ne_true, hthis] at hadmits
    exact hadmits.2 hsender hstatic
  have hadmin : toAddress ((w.record m).storage m.this ADMIN_SLOT) = proxyAdmin := by
    rw [World.storage_record, hthis, hadm.admin, toAddress_val]
  -- the sender is the admin, so its requests are served
  have hifAdmin : ∀ body,
      Keeps (Kept proxyAdmin proxy code logic owner₀ implementation₀)
        (exec chain code (answer chain code depth) m body (w.record m)) →
      Keeps (Kept proxyAdmin proxy code logic owner₀ implementation₀)
        (exec chain code (answer chain code depth) m (ifAdmin m.toCall body) (w.record m)) := by
    intro body hbody
    rw [exec_ifAdmin hadmin, if_pos hsender]
    exact hbody
  have hfallback : Keeps (Kept proxyAdmin proxy code logic owner₀ implementation₀)
      (exec chain code (answer chain code depth) m (_fallback m.toCall) (w.record m)) := by
    rw [exec_fallback hadmin rfl, if_pos hsender]
    exact keeps_of_failure
  -- an upgrade writes one slot, and is noted in the log under the same request
  have hupgrades : ∀ a next, implementationWrite proxyAdmin proxy m = some a →
      (Kept proxyAdmin proxy code logic owner₀ implementation₀
          ((w.record m).store m.this IMPLEMENTATION_SLOT a.val) →
        Keeps (Kept proxyAdmin proxy code logic owner₀ implementation₀)
          (exec chain code (answer chain code depth) m next
            ((w.record m).store m.this IMPLEMENTATION_SLOT a.val))) →
      Keeps (Kept proxyAdmin proxy code logic owner₀ implementation₀)
        (exec chain code (answer chain code depth) m (_setImplementation a next)
          (w.record m)) := by
    intro a next hwrite hnext
    unfold _setImplementation
    rw [exec]
    cases hcode : (code a).isSome with
    | false => exact keeps_of_failure
    | true =>
        rw [if_pos rfl, exec]
        split
        · exact keeps_of_failure
        · refine hnext fun _ => ?_
          rw [hthis]
          exact hadm.setImplementation hdistinct hwrite hcode howner hadmitted
  have hwrite : implementationWrite proxyAdmin proxy m = match proxyRequest m.toCall with
      | .upgradeTo implementation => some implementation
      | .upgradeToAndCall implementation _ => some implementation
      | _ => none := if_pos ⟨hcalls, hsender⟩
  have hwriteAdmin : adminWrite proxyAdmin proxy m = match proxyRequest m.toCall with
      | .changeAdmin newAdmin => some newAdmin
      | _ => none := if_pos ⟨hcalls, hsender⟩
  have htrusted := hsteady m List.mem_cons_self
  unfold AdminUpgradeabilityProxy
  cases hrequest : proxyRequest m.toCall with
  | admin =>
      rw [hrequest] at hwrite
      exact hifAdmin _ (keeps_of_state (hw.record ⟨howner, hwrite⟩ hadmitted))
  | implementation =>
      rw [hrequest] at hwrite
      exact hifAdmin _ (keeps_of_state (hw.record ⟨howner, hwrite⟩ hadmitted))
  | changeAdmin newAdmin =>
      rw [hrequest] at hwrite hwriteAdmin
      -- a steady log hands the proxy to nobody else
      have hsame : newAdmin = proxyAdmin := htrusted.2 newAdmin hwriteAdmin
      refine hifAdmin _ ?_
      unfold changeAdmin
      split
      · rw [exec]
        split
        · exact keeps_of_failure
        · refine keeps_of_state fun _ => ?_
          rw [hthis, hsame]
          exact hadm.setAdmin hdistinct ⟨howner, hwrite⟩ hadmitted
      · exact keeps_of_failure
  | upgradeTo newImplementation =>
      rw [hrequest] at hwrite
      exact hifAdmin _ (hupgrades _ _ hwrite fun hstored => keeps_of_state hstored)
  | upgradeToAndCall newImplementation data =>
      rw [hrequest] at hwrite
      refine hifAdmin _ (hupgrades _ _ hwrite fun hstored => ?_)
      unfold callOnProxy
      rw [exec]
      -- the migration call runs the new implementation, which is trusted
      have hsettled := (hanswer (m.delegateTo newImplementation data) _
        (admits_delegateTo hother (fun _ _ => htrusted.1 _ hwrite) data) hstored).settle hstored
      split
      · exact keeps_of_state hsettled
      · exact keeps_of_failure
  | malformed => exact keeps_of_failure
  | fallback => exact hfallback

end Answered

/-- Every call is answered so that the administration stays what the log says. -/
theorem answers (hdeployed : Deployed proxyAdmin proxy code logic) (hlogic : logic implementation₀)
    (depth : Nat) : Answers proxyAdmin proxy code logic owner₀ implementation₀ depth := by
  apply answer_keeps
  · intro depth hanswer m w contract hadmits hw hcontract
    by_cases hsteady : Steady proxyAdmin proxy logic (m :: w.log)
    case neg =>
      intro returned hsuccess hlog
      exact absurd hlog (exec_unsteady (w := w.record m) depth _ hsteady returned hsuccess)
    have hframe := hadmits
    unfold Admits at hframe
    cases hdelegated : m.delegated with
    | true =>
        rw [hdelegated, if_pos rfl] at hframe
        have hnone : ∀ a, ¬ Calls a m :=
          fun a h => Bool.false_ne_true (h.1.symm.trans hdelegated)
        refine frame_other hanswer hframe.1 ?_
          fun _ => (hw hsteady.tail).elsewhere (hnone proxyAdmin) (hnone proxy)
        by_cases hproxy : m.this = proxy
        · exact hdeployed.trusted (hframe.2 hproxy hsteady.tail) hcontract m _
        · exact trusted_elsewhere hproxy _
    | false =>
        rw [hdelegated, if_neg Bool.false_ne_true] at hframe
        by_cases hadmin : m.this = proxyAdmin
        · have hcode : contract = ProxyAdmin := by
            rw [hframe.1, hadmin, hdeployed.admin] at hcontract
            exact (Option.some.inj hcontract).symm
          rw [hcode]
          exact frame_proxyAdmin hanswer hdeployed ⟨hdelegated, hadmin⟩ hw
        · by_cases hproxy : m.this = proxy
          · have hcode : contract = AdminUpgradeabilityProxy := by
              rw [hframe.1, hproxy, hdeployed.proxy] at hcontract
              exact (Option.some.inj hcontract).symm
            rw [hcode]
            by_cases hsender : m.sender = proxyAdmin
            · exact frame_proxy_admin hanswer hdeployed ⟨hdelegated, hproxy⟩ hsender hadmits hsteady
                hw
            · exact frame_proxy_user hanswer hdeployed hlogic ⟨hdelegated, hproxy⟩ hsender hsteady
                hw
          · exact frame_other hanswer hadmin (trusted_elsewhere hproxy _)
              fun _ => (hw hsteady.tail).elsewhere (fun h => hadmin h.2) (fun h => hproxy h.2)
  · intro m w hadmits hw hnone hsteady
    -- the admin and the proxy have code
    have hcalls : ∀ a contract, code a = some contract → ¬ Calls a m := by
      intro a contract hcode hcalls
      unfold Admits at hadmits
      rw [hcalls.1, if_neg Bool.false_ne_true] at hadmits
      rw [hadmits.1, hcalls.2, hcode] at hnone
      cases hnone
    exact (hw (Steady.tail hsteady)).elsewhere (hcalls _ _ hdeployed.admin)
      (hcalls _ _ hdeployed.proxy)

/-! ## The constructor -/

/-- While the proxy has no code, what calls it leaves its storage alone, and the implementation
that initializes it keeps to its own slots. -/
theorem answer_keeps_implementation (hdeployed : Deployed proxyAdmin proxy code logic)
    (word depth : Nat) : ∀ m w, (m.this = proxy → m.code = proxy ∨ logic m.code) →
      w.storage proxy IMPLEMENTATION_SLOT = word →
        Keeps (fun w => w.storage proxy IMPLEMENTATION_SLOT = word)
          (answer chain (Function.update code proxy none) depth m w) := by
  have hkeeping : Keeping chain (fun w => w.storage proxy IMPLEMENTATION_SLOT = word)
      fun _ m => m.this = proxy → m.code = proxy ∨ logic m.code := by
    constructor
    · intro w a b v w' htransfer hw
      rw [World.storage_transfer htransfer]
      exact hw
    · exact fun _ _ _ _ hadmits => hadmits
  apply answer_keeps
  · intro depth hanswer m w contract hadmits hw hcontract
    have hp : Program.Trusted proxy logic m (contract m.toCall) := by
      -- only code run in the proxy's storage could write the slot
      by_cases hproxy : m.this = proxy
      · have hcode : m.code ≠ proxy := by
          intro hcode
          rw [hcode, Function.update_self] at hcontract
          cases hcontract
        rw [Function.update_of_ne hcode] at hcontract
        exact hdeployed.trusted ((hadmits hproxy).resolve_left hcode) hcontract m _
      · exact trusted_elsewhere hproxy _
    refine exec_keeps hkeeping hanswer ?_ ?_ ?_ ?_ hp hw
    · intro _ w s v hslot hw
      show (w.store m.this s v).storage proxy IMPLEMENTATION_SLOT = word
      by_cases hproxy : m.this = proxy
      · rw [World.storage_store_of_slot _ _ _ _ _ (hslot hproxy).1.symm]
        exact hw
      · rw [World.storage_store_of_account _ _ _ _ _ (Ne.symm hproxy)]
        exact hw
    · exact fun _ _ _ _ _ => .inl
    · exact fun _ _ _ _ => .inl
    · exact fun _ _ _ htarget _ hproxy => .inr (htarget hproxy)
  · exact fun _ _ _ hw _ => hw

/-- The constructor stores admin and implementation. -/
theorem constructor_stores (hdeployed : Deployed proxyAdmin proxy code logic)
    (hlogic : logic implementation₀) {data returned : Data} {depth : Nat} {w' : World}
    (hthis : m.this = proxy)
    (h : exec chain (Function.update code proxy none)
      (answer chain (Function.update code proxy none) depth) m
      (constructor_ implementation₀ proxyAdmin data) w = (w', .success returned)) :
    w'.storage proxy ADMIN_SLOT = proxyAdmin.val ∧
      w'.storage proxy IMPLEMENTATION_SLOT = implementation₀.val ∧
      (code implementation₀).isSome := by
  unfold constructor_ _setImplementation at h
  rw [exec] at h
  cases hcode : (Function.update code proxy none implementation₀).isSome with
  | false =>
      rw [hcode] at h
      cases h
  | true =>
      have hne : implementation₀ ≠ proxy := by
        intro heq
        rw [heq, Function.update_self] at hcode
        cases hcode
      rw [Function.update_of_ne hne] at hcode
      rw [Function.update_of_ne hne, hcode, if_pos rfl, exec] at h
      split at h
      · cases h
      · have hstored : (w.store m.this IMPLEMENTATION_SLOT implementation₀.val).storage proxy
            IMPLEMENTATION_SLOT = implementation₀.val := by
          rw [hthis]
          exact World.storage_store_self _ _ _ _
        -- the admin's slot is written last, and is another slot
        have hstore : ∀ u : World, u.storage proxy IMPLEMENTATION_SLOT = implementation₀.val →
            exec chain (Function.update code proxy none)
              (answer chain (Function.update code proxy none) depth) m
              (.sstore ADMIN_SLOT proxyAdmin.val stop) u = (w', .success returned) →
            w'.storage proxy ADMIN_SLOT = proxyAdmin.val ∧
              w'.storage proxy IMPLEMENTATION_SLOT = implementation₀.val ∧
              (code implementation₀).isSome := by
          intro u hu hexec
          rw [exec] at hexec
          split at hexec
          · cases hexec
          · cases hexec
            refine ⟨?_, ?_, hcode⟩
            · rw [hthis]
              exact World.storage_store_self _ _ _ _
            · exact (World.storage_store_of_slot _ _ _ _ _ (by decide)).trans hu
        split at h
        · unfold callOnProxy at h
          rw [exec] at h
          -- the initialising call leaves the implementation's slot alone
          have hsettled := (answer_keeps_implementation hdeployed implementation₀.val depth
            (m.delegateTo implementation₀ data) _ (fun _ => .inr hlogic) hstored).settle hstored
          split at h
          · exact hstore _ hsettled h
          · cases h
        · exact hstore _ hstored h

/-- A transaction, which does not come from the admin contract. -/
def External (proxyAdmin : Address) (m : Message) : Prop :=
  m.delegated = false ∧ m.code = m.this ∧ m.sender ≠ proxyAdmin

instance (proxyAdmin : Address) (m : Message) : Decidable (External proxyAdmin m) :=
  inferInstanceAs (Decidable (_ ∧ _ ∧ _))

/-- From the constructor of the proxy on, through every steady run, the implementation, the admin
and the owner are what the calls in the log have written last, and each of these calls was the
owner's of its time. -/
theorem owner_administers (hdeployed : Deployed proxyAdmin proxy code logic)
    (hlogic : logic implementation₀) {m₀ : Message} {w₀ : World} {data : Data} {depth₀ : Nat}
    (hthis : m₀.this = proxy)
    (hconstructed : exec chain (Function.update code proxy none)
      (answer chain (Function.update code proxy none) depth₀) m₀
      (constructor_ implementation₀ proxyAdmin data) w₀ = (w, .success []))
    (howner : w.storage proxyAdmin OWNER_SLOT = owner₀.val) {transactions : List Message}
    (hexternal : ∀ m ∈ transactions, External proxyAdmin m) {depth : Nat}
    (hsteady : Steady proxyAdmin proxy logic
      (run chain (answer chain code depth) transactions w.forget).1.log) :
    Administered proxyAdmin proxy code owner₀ implementation₀
      (run chain (answer chain code depth) transactions w.forget).1 := by
  obtain ⟨hadmin, himplementation, hcode⟩ := constructor_stores hdeployed hlogic hthis hconstructed
  have hbegin : Kept proxyAdmin proxy code logic owner₀ implementation₀ w.forget :=
    fun _ => ⟨howner, hadmin, himplementation, hcode, trivial⟩
  refine run_keeps keeping (answers hdeployed hlogic depth) ?_ hbegin hsteady
  intro m hmem w _
  obtain ⟨hdelegated, hcode, hsender⟩ := hexternal m hmem
  unfold Admits
  rw [hdelegated, if_neg Bool.false_ne_true]
  exact ⟨hcode, fun h => absurd h hsender⟩

end Frames

/-! ## A run -/

/-- An implementation that notes the length of the data it is called with. -/
def noting (slot : Nat) : Contract := fun c => .sstore slot c.data.length stop

/-- The admin at 1, the proxy at 2, and two implementations at 3 and 4. -/
def twoVersions : Address → Option Contract :=
  fun a =>
    if a = 1 then some ProxyAdmin
    else if a = 2 then some AdminUpgradeabilityProxy
    else if a = 3 then some (noting 0)
    else if a = 4 then some (noting 1)
    else none

theorem twoVersions_deployed : Deployed 1 2 twoVersions fun a => a = 3 ∨ a = 4 := by
  refine ⟨by decide, rfl, rfl, ?_⟩
  intro a contract hlogic hcode c
  have hslots : Unreserved 0 ∧ Unreserved 1 := by
    unfold Unreserved
    decide
  rcases hlogic with rfl | rfl
  · cases hcode
    exact ⟨hslots.1, trivial⟩
  · cases hcode
    exact ⟨hslots.2, trivial⟩

def transaction (sender target : Address) (data : Data) : Message :=
  { this := target, sender, value := 0, data, code := target }

/-- The upgrade to an implementation, as a request of the admin contract. -/
def upgradeData (proxy implementation : Address) : Data :=
  CallData.encode upgradeSelector [.word proxy.val, .word implementation.val]

/-- The state before the proxy is deployed: the account 5 owns the admin. -/
def beforeProxy : World where
  storage a s := if a = 1 ∧ s = OWNER_SLOT then 5 else 0
  balance _ := 0
  log := []

/-- The account 6 calls the proxy, tries the functions of its admin and of the owner, and the
owner upgrades. -/
def upgradeRun : List Message :=
  [transaction 6 2 [1, 2, 3], transaction 6 2 (ProxyRequest.upgradeTo 4).callData,
    transaction 6 1 (upgradeData 2 4), transaction 5 1 (upgradeData 2 4), transaction 6 2 [1, 2]]

/-- The proxy as its constructor leaves it, with the account 3 as its implementation. -/
def afterConstructor : World :=
  (exec chain (Function.update twoVersions 2 none)
    (answer chain (Function.update twoVersions 2 none) 1) (transaction 5 2 [])
    (constructor_ 3 1 []) beforeProxy).1

theorem constructor_succeeds :
    exec chain (Function.update twoVersions 2 none)
      (answer chain (Function.update twoVersions 2 none) 1) (transaction 5 2 [])
      (constructor_ 3 1 []) beforeProxy = (afterConstructor, .success []) := rfl

/-- Only the owner's upgrade is one. -/
theorem owner_administers_upgradeRun :
    Administered 1 2 twoVersions 5 3
        (run chain (answer chain twoVersions 3) upgradeRun afterConstructor.forget).1 ∧
      (run chain (answer chain twoVersions 3) upgradeRun afterConstructor.forget).1.storage 2
        IMPLEMENTATION_SLOT = 4 :=
  ⟨owner_administers twoVersions_deployed (.inl rfl) rfl constructor_succeeds rfl (by decide)
      (by decide +kernel),
    by decide +kernel⟩

end Huski.Upgradeable
