import Huski.Upgradeable.Administration

/-!
# The proxy as the contract behind it

Between two upgrades a proxy is to be what its implementation would be at its address. The abstract
system has no proxy: the account of the proxy runs the code of the implementation itself, on its
own storage, and answers its admin (`answerDirect`). A run that the owner of the admin takes no
part in has the same outcomes in both, and leaves the same state but for the two slots, however
the contracts call each other.

A call of the proxy takes two levels of the call stack, and the abstract account takes them too.
-/

open Solidity MessageCalls

namespace Huski.Upgradeable

section Direct

variable (code : Address → Option Contract) (proxyAdmin proxy implementation : Address)

/-- What the admin is told. -/
def told : ProxyRequest → Outcome
  | .admin => .success (CallData.ofWords [proxyAdmin.val])
  | .implementation => .success (CallData.ofWords [implementation.val])
  | _ => .failure []

/-- Answer a call where the account of the proxy has the code of the implementation. The functions
of the proxy are still its admin's, and no call reaches the code with their selector that they
would not take. -/
def answerDirect : Nat → Handler World
  | 0, _, w => (w, .failure [])
  | depth + 1, m, w =>
      if Calls proxy m then
        if m.sender = proxyAdmin then (w, told proxyAdmin implementation (proxyRequest m.toCall))
        else if proxyRequest m.toCall = .malformed then (w, .failure [])
        else
          settle w
            (match depth with
            | 0 => (w, .failure [])
            | depth' + 1 =>
                match code implementation with
                | none => (w, .success [])
                | some contract => exec chain code (answerDirect depth') m (contract m.toCall) w)
      else
        match code m.code with
        | none => (w, .success [])
        | some contract => exec chain code (answerDirect depth) m (contract m.toCall) w

/-- What the code of the implementation does with a call of the account. -/
def runDirect (depth : Nat) (m : Message) (w : World) : World × Outcome :=
  match depth with
  | 0 => (w, .failure [])
  | depth' + 1 =>
      match code implementation with
      | none => (w, .success [])
      | some contract =>
          exec chain code (answerDirect code proxyAdmin proxy implementation depth') m
            (contract m.toCall) w

theorem answerDirect_succ (depth : Nat) (m : Message) (w : World) :
    answerDirect code proxyAdmin proxy implementation (depth + 1) m w =
      if Calls proxy m then
        if m.sender = proxyAdmin then (w, told proxyAdmin implementation (proxyRequest m.toCall))
        else if proxyRequest m.toCall = .malformed then (w, .failure [])
        else settle w (runDirect code proxyAdmin proxy implementation depth m w)
      else
        match code m.code with
        | none => (w, .success [])
        | some contract =>
            exec chain code (answerDirect code proxyAdmin proxy implementation depth) m
              (contract m.toCall) w := by
  cases depth with
  | zero => rfl
  | succ depth => rfl

/-- The calls of a run in which the owner takes no part: the admin only asks. -/
def Unowned (owner : Address) (logic : Address → Prop) (m : Message) : Prop :=
  m.sender ≠ owner ∧
    if m.delegated then
      m.this ≠ proxyAdmin ∧ m.this ≠ owner ∧ (m.this = proxy → logic m.code)
    else
      m.code = m.this ∧ (m.sender = proxyAdmin → m.static = true ∧
        (proxyRequest m.toCall = .admin ∨ proxyRequest m.toCall = .implementation))

/-- The state with the proxy and the state without it. -/
structure Alike (owner : Address) (w u : World) : Prop where
  storage : ∀ a s, (a = proxy → Unreserved s) → w.storage a s = u.storage a s
  balance : w.balance = u.balance
  owner : w.storage proxyAdmin OWNER_SLOT = owner.val
  admin : w.storage proxy ADMIN_SLOT = proxyAdmin.val
  implementation : w.storage proxy IMPLEMENTATION_SLOT = implementation.val

end Direct

section Simulation

variable {code : Address → Option Contract} {logic : Address → Prop}
  {proxyAdmin proxy implementation owner : Address} {w u : World} {m : Message}

theorem Alike.record (h : Alike proxyAdmin proxy implementation owner w u) (m : Message) :
    Alike proxyAdmin proxy implementation owner (w.record m) u :=
  ⟨h.storage, h.balance, h.owner, h.admin, h.implementation⟩

theorem Alike.store (h : Alike proxyAdmin proxy implementation owner w u) {a : Address} {s v : Nat}
    (hadmin : a ≠ proxyAdmin) (hslot : a = proxy → Unreserved s) :
    Alike proxyAdmin proxy implementation owner (w.store a s v) (u.store a s v) := by
  -- the reserved slots of the proxy are not written
  have hreserved : ∀ s', s' = IMPLEMENTATION_SLOT ∨ s' = ADMIN_SLOT →
      (w.store a s v).storage proxy s' = w.storage proxy s' := by
    intro s' hs'
    by_cases hproxy : a = proxy
    · apply World.storage_store_of_slot
      intro heq
      rcases hs' with rfl | rfl
      · exact (hslot hproxy).1 heq.symm
      · exact (hslot hproxy).2 heq.symm
    · rw [World.storage_store_of_account _ _ _ _ _ (Ne.symm hproxy)]
  constructor
  · intro b s' hs'
    rw [World.storage_store, World.storage_store]
    by_cases hb : b = a
    · rw [if_pos hb, if_pos hb]
      rw [Function.update_apply, Function.update_apply]
      split
      · rfl
      · exact h.storage a s' (hb ▸ hs')
    · rw [if_neg hb, if_neg hb]
      exact h.storage b s' hs'
  · exact h.balance
  · rw [World.storage_store_of_account _ _ _ _ _ hadmin.symm]
    exact h.owner
  · rw [hreserved ADMIN_SLOT (.inr rfl)]
    exact h.admin
  · rw [hreserved IMPLEMENTATION_SLOT (.inl rfl)]
    exact h.implementation

theorem alike_paying : Paying chain chain (Alike proxyAdmin proxy implementation owner) := by
  constructor
  · intro w u a h
    exact congrFun h.balance a
  · intro w u a b v h
    show Option.Rel _ (w.transfer a b v) (u.transfer a b v)
    unfold World.transfer
    rw [h.balance]
    split
    · exact .some ⟨h.storage, rfl, h.owner, h.admin, h.implementation⟩
    · exact .none

/-- How two systems answer a call alike. -/
def AnswersAlike (proxyAdmin proxy implementation owner : Address) (logic : Address → Prop)
    (answer answer' : Handler World) : Prop :=
  ∀ m w u, Unowned proxyAdmin proxy owner logic m →
    Alike proxyAdmin proxy implementation owner w u →
      Agree (Alike proxyAdmin proxy implementation owner) (answer m w) (answer' m u)

/-- The proxy tells its admin, and passes on what others call. -/
theorem proxy_alike {answer : Handler World} (hproxy : m.this = proxy)
    (hsender : m.sender = proxyAdmin → proxyRequest m.toCall = .admin ∨
      proxyRequest m.toCall = .implementation)
    (h : Alike proxyAdmin proxy implementation owner w u) {r : World × Outcome}
    (hdirect : m.sender ≠ proxyAdmin → proxyRequest m.toCall ≠ .malformed →
      Agree (Alike proxyAdmin proxy implementation owner)
        (answer (m.delegateTo implementation m.data) w) r) :
    Agree (Alike proxyAdmin proxy implementation owner)
      (exec chain code answer m (AdminUpgradeabilityProxy m.toCall) w)
      (if m.sender = proxyAdmin then (u, told proxyAdmin implementation (proxyRequest m.toCall))
        else if proxyRequest m.toCall = .malformed then (u, .failure []) else settle u r) := by
  have hadmin : toAddress (w.storage m.this ADMIN_SLOT) = proxyAdmin := by
    rw [hproxy, h.admin, toAddress_val]
  have himplementation : toAddress (w.storage m.this IMPLEMENTATION_SLOT) = implementation := by
    rw [hproxy, h.implementation, toAddress_val]
  -- the admin asks for an address; everyone else gets the implementation
  by_cases hasks : m.sender = proxyAdmin
  · rw [if_pos hasks]
    unfold AdminUpgradeabilityProxy
    rcases hsender hasks with hrequest | hrequest
    · rw [hrequest]
      simp only
      rw [exec_ifAdmin hadmin, if_pos hasks, exec]
      show Agree _ (exec chain code answer m
        (returnAddress (toAddress (w.storage m.this ADMIN_SLOT))) w) _
      rw [hadmin]
      exact ⟨h, rfl⟩
    · rw [hrequest]
      simp only
      rw [exec_ifAdmin hadmin, if_pos hasks, exec]
      show Agree _ (exec chain code answer m
        (returnAddress (toAddress (w.storage m.this IMPLEMENTATION_SLOT))) w) _
      rw [himplementation]
      exact ⟨h, rfl⟩
  · rw [if_neg hasks, exec_proxy_user hadmin himplementation hasks]
    split
    · exact ⟨h, rfl⟩
    · rename_i hformed
      exact settle_agree h (hdirect hasks hformed)

section Answered

variable {depth : Nat} {answer answer' : Handler World}
  (hanswer : AnswersAlike proxyAdmin proxy implementation owner logic answer answer')

include hanswer

/-- A frame of any code on another account, and of trusted code on the proxy. -/
theorem exec_alike (hadmin : m.this ≠ proxyAdmin) (howner : m.this ≠ owner)
    (hsender : m.sender ≠ owner) {p : Program}
    (hp : Program.Trusted proxy logic m p)
    (h : Alike proxyAdmin proxy implementation owner w u) :
    Agree (Alike proxyAdmin proxy implementation owner) (exec chain code answer m p w)
      (exec chain code answer' m p u) := by
  refine exec_simulates alike_paying (fun _ => rfl) hanswer ?_ ?_ ?_ ?_ ?_ hp h
  · intro w u s hslot h
    exact h.storage m.this s hslot
  · intro _ w u s v hslot h
    exact h.store hadmin hslot
  · intro target value data
    exact ⟨howner, rfl, fun h => absurd h hadmin⟩
  · intro target data
    exact ⟨howner, rfl, fun h => absurd h hadmin⟩
  · intro target data htarget
    exact ⟨hsender, hadmin, howner, htarget⟩

/-- The admin contract answers the owner only, and asks for everybody. -/
theorem proxyAdmin_alike (hthis : m.this = proxyAdmin) (hne : proxyAdmin ≠ owner)
    (hsender : m.sender ≠ owner) (h : Alike proxyAdmin proxy implementation owner w u)
    (hstored : w.storage proxyAdmin OWNER_SLOT = u.storage proxyAdmin OWNER_SLOT) :
    Agree (Alike proxyAdmin proxy implementation owner)
      (exec chain code answer m (ProxyAdmin m.toCall) w)
      (exec chain code answer' m (ProxyAdmin m.toCall) u) := by
  have hloaded : toAddress (w.storage m.this OWNER_SLOT) = owner := by
    rw [hthis, h.owner, toAddress_val]
  have hloaded' : toAddress (u.storage m.this OWNER_SLOT) = owner := by
    rw [hthis, ← hstored, h.owner, toAddress_val]
  -- nobody calls as the owner, so the guarded functions fail on both sides
  have honlyOwner : ∀ body, Agree (Alike proxyAdmin proxy implementation owner)
      (exec chain code answer m (onlyOwner m.toCall body) w)
      (exec chain code answer' m (onlyOwner m.toCall body) u) := by
    intro body
    rw [exec_onlyOwner hloaded, if_neg hsender.symm, exec_onlyOwner hloaded',
      if_neg hsender.symm]
    exact ⟨h, rfl⟩
  -- the two queries read through the proxy, which answers alike
  have hasks : ∀ target request,
      proxyRequest (m.staticcallTo target request.callData).toCall = request →
      request = .admin ∨ request = .implementation →
      Agree (Alike proxyAdmin proxy implementation owner)
        (exec chain code answer m (getFromProxy target request) w)
        (exec chain code answer' m (getFromProxy target request) u) := by
    intro target request hround hrequest
    have hadmits : Unowned proxyAdmin proxy owner logic
        (m.staticcallTo target request.callData) := by
      refine ⟨?_, rfl, fun _ => ⟨rfl, ?_⟩⟩
      · show m.this ≠ owner
        rw [hthis]
        exact hne
      · rw [hround]
        exact hrequest
    have hsettled := settle_agree h (hanswer _ w u hadmits h)
    unfold getFromProxy
    rw [exec, exec]
    simp only [hsettled.2]
    split
    · split
      · exact ⟨hsettled.1, rfl⟩
      · exact ⟨hsettled.1, rfl⟩
    · exact ⟨hsettled.1, rfl⟩
  unfold ProxyAdmin
  cases adminRequest m.toCall with
  | owner =>
      refine ⟨h, ?_⟩
      show Outcome.success _ = Outcome.success _
      rw [show chain.load w = w.storage from rfl, show chain.load u = u.storage from rfl, hloaded,
        hloaded']
  | renounceOwnership => exact honlyOwner _
  | transferOwnership => exact honlyOwner _
  | getProxyImplementation target => exact hasks target .implementation rfl (.inr rfl)
  | getProxyAdmin target => exact hasks target .admin rfl (.inl rfl)
  | changeProxyAdmin => exact honlyOwner _
  | upgrade => exact honlyOwner _
  | upgradeAndCall => exact honlyOwner _
  | malformed => exact ⟨h, rfl⟩

end Answered

/-- Every call is answered alike, to every depth. -/
theorem answers_alike (hdeployed : Deployed proxyAdmin proxy code logic)
    (hlogic : logic implementation) (howner : code owner = none) (depth : Nat) :
    AnswersAlike proxyAdmin proxy implementation owner logic (answer chain code depth)
      (answerDirect code proxyAdmin proxy implementation depth) := by
  induction depth using Nat.strong_induction_on with
  | h depth ih =>
      cases depth with
      | zero =>
          intro m w u _ h
          exact ⟨h, rfl⟩
      | succ depth =>
          intro m w u hunowned h
          obtain ⟨hsender, hframe⟩ := hunowned
          have hrecorded := h.record m
          rw [answer, answerDirect_succ]
          by_cases hcalls : Calls proxy m
          · rw [hcalls.1, if_neg Bool.false_ne_true] at hframe
            have hcode : code m.code = some AdminUpgradeabilityProxy := by
              rw [hframe.1, hcalls.2]
              exact hdeployed.proxy
            rw [if_pos hcalls, hcode]
            refine proxy_alike hcalls.2 (fun hasks => (hframe.2 hasks).2) hrecorded fun _ _ => ?_
            cases depth with
            | zero => exact ⟨hrecorded, rfl⟩
            | succ depth =>
                have hother : m.this ≠ proxyAdmin :=
                  fun heq => hdeployed.distinct (heq.symm.trans hcalls.2)
                have hnoOwner : m.this ≠ owner := by
                  intro heq
                  rw [hframe.1, heq, howner] at hcode
                  cases hcode
                rw [answer, runDirect]
                show Agree _ (match code implementation with | none => _ | some contract => _) _
                cases himplementation : code implementation with
                | none => exact ⟨hrecorded.record _, rfl⟩
                | some contract =>
                    -- the frame of the implementation is that of its code on the account
                    have hframes : exec chain code (answer chain code depth) m (contract m.toCall)
                          ((w.record m).record (m.delegateTo implementation m.data)) =
                        exec chain code (answer chain code depth)
                          (m.delegateTo implementation m.data) (contract m.toCall)
                          ((w.record m).record (m.delegateTo implementation m.data)) := by
                      apply exec_frame
                      · rfl
                      · rfl
                      · exact fun _ _ => rfl
                    show Agree _ (exec chain code (answer chain code depth)
                      (m.delegateTo implementation m.data) (contract m.toCall) _) _
                    refine hframes ▸ exec_alike (ih depth (by omega)) hother hnoOwner hsender ?_ ?_
                    · exact hdeployed.trusted hlogic himplementation m m.toCall
                    · exact hrecorded.record (m.delegateTo implementation m.data)
          · rw [if_neg hcalls]
            cases hcode : code m.code with
            | none => exact ⟨hrecorded, rfl⟩
            | some contract =>
                have hbelow := ih depth (Nat.lt_succ_self depth)
                cases hdelegated : m.delegated with
                | true =>
                    rw [hdelegated, if_pos rfl] at hframe
                    obtain ⟨hother, hnoOwner, htrusted⟩ := hframe
                    refine exec_alike hbelow hother hnoOwner hsender ?_ hrecorded
                    by_cases hproxy : m.this = proxy
                    · exact hdeployed.trusted (htrusted hproxy) hcode m _
                    · exact trusted_elsewhere hproxy _
                | false =>
                    rw [hdelegated, if_neg Bool.false_ne_true] at hframe
                    have hproxy : m.this ≠ proxy := fun heq => hcalls ⟨hdelegated, heq⟩
                    rw [hframe.1] at hcode
                    have hnoOwner : m.this ≠ owner := by
                      intro heq
                      rw [heq, howner] at hcode
                      cases hcode
                    by_cases hadmin : m.this = proxyAdmin
                    · rw [hadmin, hdeployed.admin] at hcode
                      cases hcode
                      refine proxyAdmin_alike hbelow hadmin (hadmin ▸ hnoOwner) hsender hrecorded ?_
                      exact h.storage proxyAdmin OWNER_SLOT
                        fun heq => absurd heq hdeployed.distinct
                    · exact exec_alike hbelow hadmin hnoOwner hsender (trusted_elsewhere hproxy _)
                        hrecorded

/-- Runs without the owner: the outcomes are those of the implementation at the address of the
proxy, and so is the state, but for the two slots, which stay. -/
theorem proxy_transparent (hdeployed : Deployed proxyAdmin proxy code logic)
    (hlogic : logic implementation) (howner : code owner = none)
    (hstored : w.storage proxyAdmin OWNER_SLOT = owner.val)
    (hadmin : w.storage proxy ADMIN_SLOT = proxyAdmin.val)
    (himplementation : w.storage proxy IMPLEMENTATION_SLOT = implementation.val)
    {transactions : List Message}
    (hexternal : ∀ m ∈ transactions, External proxyAdmin m ∧ m.sender ≠ owner) (depth : Nat) :
    (run chain (answer chain code depth) transactions w).2 =
        (run chain (answerDirect code proxyAdmin proxy implementation depth) transactions w).2 ∧
      Alike proxyAdmin proxy implementation owner
        (run chain (answer chain code depth) transactions w).1
        (run chain (answerDirect code proxyAdmin proxy implementation depth) transactions w).1 := by
  have hbegin : Alike proxyAdmin proxy implementation owner w w :=
    ⟨fun _ _ _ => rfl, rfl, hstored, hadmin, himplementation⟩
  have hadmits : ∀ m ∈ transactions, Unowned proxyAdmin proxy owner logic m := by
    intro m hmem
    obtain ⟨⟨hdelegated, hcode, hsender⟩, hnoOwner⟩ := hexternal m hmem
    unfold Unowned
    rw [hdelegated, if_neg Bool.false_ne_true]
    exact ⟨hnoOwner, hcode, fun h => absurd h hsender⟩
  have hrun := run_agree alike_paying (answers_alike hdeployed hlogic howner depth) hadmits hbegin
  exact ⟨hrun.2, hrun.1⟩

end Simulation

/-- The accounts that are not the owner, and the same run without the proxy. -/
theorem proxy_transparent_twoVersions :
    (run chain (answer chain twoVersions 3) (upgradeRun.take 3) afterConstructor).2 =
        (run chain (answerDirect twoVersions 1 2 3 3) (upgradeRun.take 3) afterConstructor).2 ∧
      Alike 1 2 3 5 (run chain (answer chain twoVersions 3) (upgradeRun.take 3) afterConstructor).1
        (run chain (answerDirect twoVersions 1 2 3 3) (upgradeRun.take 3) afterConstructor).1 :=
  proxy_transparent twoVersions_deployed (.inl rfl) rfl rfl rfl rfl (by decide) 3

end Huski.Upgradeable
