import Huski.Lib.CallData
import Huski.Lib.MessageCalls

/-!
# The upgradeable proxy and its admin

`ProxyAdmin.sol`. A proxy runs the code of its implementation on its own storage. Where the
implementation and the admin stand in that storage, and who is the admin, the proxy decides; the
admin of the proxies is a `ProxyAdmin`, which does what its owner tells it.

The dispatcher of each contract reads a request from the call: which function is called, with the
arguments decoded. A function that is not payable reverts where value is sent, and arguments that
do not decode revert. Everything else that the proxy is called with goes to the implementation, as
it is.
-/

open Solidity MessageCalls

namespace Huski.Upgradeable

def IMPLEMENTATION_SLOT : Nat :=
  0x360894a13ba1a3210667c828492db98dca3e2076cc3735a920a3ca505d382bbc

def ADMIN_SLOT : Nat := 0xb53127684a568b3173ae13b9f8a6016e243e63b6e8ee1178d6a717850b5d6103

/-- The slot of `_owner`, the only state variable of `ProxyAdmin`. -/
def OWNER_SLOT : Nat := 0

/-- An address from a word, which has higher bits too. -/
def toAddress (word : Nat) : Address := Fin.ofNat (2 ^ 160) word

theorem toAddress_val (a : Address) : toAddress a.val = a := by
  apply Fin.ext
  exact Nat.mod_eq_of_lt a.isLt

/-! ## Ends of a program -/

def stop : Program := .halt (.success [])

def revertSilently : Program := .halt (.failure [])

/-- Revert with the data of `Error(string)`. -/
def revertWith (message : String) : Program :=
  .halt (.failure (CallData.encode [0x08, 0xc3, 0x79, 0xa0] [.bytes message.toUTF8.toList]))

def returnAddress (a : Address) : Program := .halt (.success (CallData.ofWords [a.val]))

/-! ## AdminUpgradeabilityProxy -/

/-- A call of the proxy, as its dispatcher takes it. -/
inductive ProxyRequest
  | admin
  | implementation
  | changeAdmin (newAdmin : Address)
  | upgradeTo (newImplementation : Address)
  | upgradeToAndCall (newImplementation : Address) (data : Data)
  /-- one of these functions, with value that it does not take or without its arguments -/
  | malformed
  /-- no function of the proxy -/
  | fallback
  deriving DecidableEq

def adminSelector : Data := [0xf8, 0x51, 0xa4, 0x40]
def implementationSelector : Data := [0x5c, 0x60, 0xda, 0x1b]
def changeAdminSelector : Data := [0x8f, 0x28, 0x39, 0x70]
def upgradeToSelector : Data := [0x36, 0x59, 0xcf, 0xe6]
def upgradeToAndCallSelector : Data := [0x4f, 0x1e, 0xf2, 0x86]

/-- The address at the `i`-th place of the arguments. -/
def addressAt (data : Data) (i : Nat) : Address := toAddress (CallData.word data i)

/-- The function of the proxy a call is for. -/
def proxyRequest (c : Call) : ProxyRequest :=
  if c.data.take 4 = adminSelector then
    if c.value = 0 then .admin else .malformed
  else if c.data.take 4 = implementationSelector then
    if c.value = 0 then .implementation else .malformed
  else if c.data.take 4 = changeAdminSelector then
    if c.value = 0 ∧ CallData.hasHead c.data 1 then .changeAdmin (addressAt c.data 0)
    else .malformed
  else if c.data.take 4 = upgradeToSelector then
    if c.value = 0 ∧ CallData.hasHead c.data 1 then .upgradeTo (addressAt c.data 0)
    else .malformed
  else if c.data.take 4 = upgradeToAndCallSelector then
    match CallData.hasHead c.data 2, CallData.bytesAt c.data 1 with
    | true, some data => .upgradeToAndCall (addressAt c.data 0) data
    | _, _ => .malformed
  else .fallback

/-- The call data of a request. -/
def ProxyRequest.callData : ProxyRequest → Data
  | .admin => adminSelector
  | .implementation => implementationSelector
  | .changeAdmin newAdmin => CallData.encode changeAdminSelector [.word newAdmin.val]
  | .upgradeTo newImplementation =>
      CallData.encode upgradeToSelector [.word newImplementation.val]
  | .upgradeToAndCall newImplementation data =>
      CallData.encode upgradeToAndCallSelector [.word newImplementation.val, .bytes data]
  | .malformed => []
  | .fallback => []

/-- The outcome of the implementation is the outcome of the proxy. -/
def _delegate (implementation : Address) (c : Call) : Program :=
  .delegatecall implementation c.data .halt

/-- `_fallback`, with `_willFallback`. -/
def _fallback (c : Call) : Program :=
  .sload ADMIN_SLOT fun admin =>
    if c.sender ≠ toAddress admin then
      .sload IMPLEMENTATION_SLOT fun implementation => _delegate (toAddress implementation) c
    else revertWith "Cannot call fallback function from the proxy admin"

/-- The modifier: others are delegated. -/
def ifAdmin (c : Call) (body : Program) : Program :=
  .sload ADMIN_SLOT fun admin => if c.sender = toAddress admin then body else _fallback c

/-- An implementation is a contract. -/
def _setImplementation (newImplementation : Address) (next : Program) : Program :=
  .isContract newImplementation fun contract =>
    if contract then .sstore IMPLEMENTATION_SLOT newImplementation.val next
    else revertWith "Cannot set a proxy implementation to a non-contract address"

/-- `(bool success, ) = implementation.delegatecall(data); require(success)`. -/
def callOnProxy (implementation : Address) (data : Data) (next : Program) : Program :=
  .delegatecall implementation data fun outcome =>
    match outcome with
    | .success _ => next
    | .failure _ => revertSilently

def changeAdmin (newAdmin : Address) : Program :=
  if newAdmin ≠ 0 then .sstore ADMIN_SLOT newAdmin.val stop
  else revertWith "Cannot change the admin of a proxy to the zero address"

/-- The proxy: its own functions for the admin, the implementation for everybody else. -/
def AdminUpgradeabilityProxy : Contract := fun c =>
  match proxyRequest c with
  | .admin => ifAdmin c (.sload ADMIN_SLOT fun admin => returnAddress (toAddress admin))
  | .implementation =>
      ifAdmin c (.sload IMPLEMENTATION_SLOT fun implementation =>
        returnAddress (toAddress implementation))
  | .changeAdmin newAdmin => ifAdmin c (changeAdmin newAdmin)
  | .upgradeTo newImplementation => ifAdmin c (_setImplementation newImplementation stop)
  | .upgradeToAndCall newImplementation data =>
      ifAdmin c (_setImplementation newImplementation (callOnProxy newImplementation data stop))
  | .malformed => revertSilently
  | .fallback => _fallback c

/-- The constructor runs while the proxy has no code yet. -/
def constructor_ (_logic _admin : Address) (_data : Data) : Program :=
  _setImplementation _logic
    (if _data.length > 0 then
      callOnProxy _logic _data (.sstore ADMIN_SLOT _admin.val stop)
    else .sstore ADMIN_SLOT _admin.val stop)

/-! ## ProxyAdmin -/

/-- A call of the admin contract, as its dispatcher takes it. -/
inductive AdminRequest
  | owner
  | renounceOwnership
  | transferOwnership (newOwner : Address)
  | getProxyImplementation (proxy : Address)
  | getProxyAdmin (proxy : Address)
  | changeProxyAdmin (proxy newAdmin : Address)
  | upgrade (proxy implementation : Address)
  | upgradeAndCall (proxy implementation : Address) (data : Data)
  /-- no function of the contract, or one that reverts before it runs -/
  | malformed
  deriving DecidableEq

def ownerSelector : Data := [0x8d, 0xa5, 0xcb, 0x5b]
def renounceOwnershipSelector : Data := [0x71, 0x50, 0x18, 0xa6]
def transferOwnershipSelector : Data := [0xf2, 0xfd, 0xe3, 0x8b]
def getProxyImplementationSelector : Data := [0x20, 0x4e, 0x1c, 0x7a]
def getProxyAdminSelector : Data := [0xf3, 0xb7, 0xde, 0xad]
def changeProxyAdminSelector : Data := [0x7e, 0xff, 0x27, 0x5e]
def upgradeSelector : Data := [0x99, 0xa8, 0x8e, 0xc4]
def upgradeAndCallSelector : Data := [0x96, 0x23, 0x60, 0x9d]

/-- A function that takes no value and so many words. -/
def takes (c : Call) (words : Nat) (request : AdminRequest) : AdminRequest :=
  if c.value = 0 ∧ CallData.hasHead c.data words then request else .malformed

/-- The function of `ProxyAdmin` a call is for. -/
def adminRequest (c : Call) : AdminRequest :=
  if c.data.take 4 = ownerSelector then takes c 0 .owner
  else if c.data.take 4 = renounceOwnershipSelector then takes c 0 .renounceOwnership
  else if c.data.take 4 = transferOwnershipSelector then
    takes c 1 (.transferOwnership (addressAt c.data 0))
  else if c.data.take 4 = getProxyImplementationSelector then
    takes c 1 (.getProxyImplementation (addressAt c.data 0))
  else if c.data.take 4 = getProxyAdminSelector then
    takes c 1 (.getProxyAdmin (addressAt c.data 0))
  else if c.data.take 4 = changeProxyAdminSelector then
    takes c 2 (.changeProxyAdmin (addressAt c.data 0) (addressAt c.data 1))
  else if c.data.take 4 = upgradeSelector then
    takes c 2 (.upgrade (addressAt c.data 0) (addressAt c.data 1))
  else if c.data.take 4 = upgradeAndCallSelector then
    match CallData.hasHead c.data 3, CallData.bytesAt c.data 2 with
    | true, some data => .upgradeAndCall (addressAt c.data 0) (addressAt c.data 1) data
    | _, _ => .malformed
  else .malformed

def onlyOwner (c : Call) (body : Program) : Program :=
  .sload OWNER_SLOT fun owner =>
    if toAddress owner = c.sender then body else revertWith "Ownable: caller is not the owner"

def transferOwnership (newOwner : Address) : Program :=
  if newOwner ≠ 0 then .sstore OWNER_SLOT newOwner.val stop
  else revertWith "Ownable: new owner is the zero address"

/-- Ask a proxy by `staticcall` for an address, and decode the answer. -/
def getFromProxy (proxy : Address) (request : ProxyRequest) : Program :=
  .staticcall proxy request.callData fun outcome =>
    match outcome with
    | .success returndata =>
        if 32 ≤ returndata.length then returnAddress (toAddress (Abi.packWord returndata))
        else revertSilently
    | .failure _ => revertSilently

/-- Call a function of a proxy, which has to have code; its revert is passed on. -/
def callProxy (proxy : Address) (value : Nat) (request : ProxyRequest) : Program :=
  .isContract proxy fun contract =>
    if contract then
      .call proxy value request.callData fun outcome =>
        match outcome with
        | .success _ => stop
        | .failure reason => .halt (.failure reason)
    else revertSilently

/-- The administrator: its owner manages the proxies it is admin of. -/
def ProxyAdmin : Contract := fun c =>
  match adminRequest c with
  | .owner => .sload OWNER_SLOT fun owner => returnAddress (toAddress owner)
  | .renounceOwnership => onlyOwner c (.sstore OWNER_SLOT 0 stop)
  | .transferOwnership newOwner => onlyOwner c (transferOwnership newOwner)
  | .getProxyImplementation proxy => getFromProxy proxy .implementation
  | .getProxyAdmin proxy => getFromProxy proxy .admin
  | .changeProxyAdmin proxy newAdmin => onlyOwner c (callProxy proxy 0 (.changeAdmin newAdmin))
  | .upgrade proxy implementation => onlyOwner c (callProxy proxy 0 (.upgradeTo implementation))
  | .upgradeAndCall proxy implementation data =>
      onlyOwner c (callProxy proxy c.value (.upgradeToAndCall implementation data))
  | .malformed => revertSilently

/-! ## The chain -/

/-- The storage and the balances of all accounts, and the calls that were answered and not undone,
the newest first. -/
structure World where
  storage : Address → Nat → Nat
  balance : Address → Nat
  log : List Message

/-- One word is written. -/
def World.store (w : World) (account : Address) (slot word : Nat) : World :=
  { w with
    storage := Function.update w.storage account
      (Function.update (w.storage account) slot word) }

/-- Value is paid, where there is as much. -/
def World.transfer (w : World) (sender recipient : Address) (value : Nat) : Option World :=
  if value ≤ w.balance sender then
    let paid := Function.update w.balance sender (w.balance sender - value)
    some { w with balance := Function.update paid recipient (paid recipient + value) }
  else none

def World.record (w : World) (m : Message) : World := { w with log := m :: w.log }

/-- The same state at the beginning of a log. -/
def World.forget (w : World) : World := { w with log := [] }

/-- The accounts' storage and balances, as programs use them. -/
def chain : Chain World where
  load w := w.storage
  store := World.store
  balance w := w.balance
  transfer := World.transfer
  record := World.record

section World

variable (w : World) (a b : Address) (s v : Nat) (m : Message)

@[simp] theorem World.log_store : (w.store a s v).log = w.log := rfl
@[simp] theorem World.balance_store : (w.store a s v).balance = w.balance := rfl
@[simp] theorem World.log_record : (w.record m).log = m :: w.log := rfl
@[simp] theorem World.storage_record : (w.record m).storage = w.storage := rfl
@[simp] theorem World.balance_record : (w.record m).balance = w.balance := rfl

/-- One word of one account is written. -/
theorem World.storage_store :
    (w.store a s v).storage b =
      if b = a then Function.update (w.storage a) s v else w.storage b := by
  show Function.update w.storage a (Function.update (w.storage a) s v) b = _
  rw [Function.update_apply]

@[simp] theorem World.storage_store_self : (w.store a s v).storage a s = v := by
  rw [World.storage_store, if_pos rfl, Function.update_self]

theorem World.storage_store_of_slot {s' : Nat} (h : s' ≠ s) :
    (w.store a s v).storage b s' = w.storage b s' := by
  rw [World.storage_store]
  split
  · rename_i hb
    rw [Function.update_of_ne h, hb]
  · rfl

theorem World.storage_store_of_account (h : b ≠ a) :
    (w.store a s v).storage b = w.storage b := by
  rw [World.storage_store, if_neg h]

variable {w a b v} {w' : World}

/-- A payment writes no storage. -/
theorem World.storage_transfer (h : w.transfer a b v = some w') : w'.storage = w.storage := by
  unfold World.transfer at h
  split at h
  · cases h
    rfl
  · cases h

theorem World.log_transfer (h : w.transfer a b v = some w') : w'.log = w.log := by
  unfold World.transfer at h
  split at h
  · cases h
    rfl
  · cases h

end World

/-! ## How the contracts run -/

section Run

variable {code : Address → Option Contract} {answer : Handler World} {m : Message} {w : World}
  {owner proxyAdmin implementation : Address}

/-- The body runs for the owner only. -/
theorem exec_onlyOwner (howner : toAddress (w.storage m.this OWNER_SLOT) = owner) (body : Program) :
    exec chain code answer m (onlyOwner m.toCall body) w =
      if owner = m.sender then exec chain code answer m body w
      else exec chain code answer m (revertWith "Ownable: caller is not the owner") w := by
  unfold onlyOwner
  rw [exec]
  show exec chain code answer m
    (if toAddress (w.storage m.this OWNER_SLOT) = m.sender then body else _) w = _
  rw [howner]
  split <;> rfl

/-- The body runs for the admin only. -/
theorem exec_ifAdmin (hadmin : toAddress (w.storage m.this ADMIN_SLOT) = proxyAdmin)
    (body : Program) :
    exec chain code answer m (ifAdmin m.toCall body) w =
      if m.sender = proxyAdmin then exec chain code answer m body w
      else exec chain code answer m (_fallback m.toCall) w := by
  unfold ifAdmin
  rw [exec]
  show exec chain code answer m
    (if m.sender = toAddress (w.storage m.this ADMIN_SLOT) then body else _) w = _
  rw [hadmin]
  split <;> rfl

/-- Everybody else runs the implementation's code. -/
theorem exec_fallback (hadmin : toAddress (w.storage m.this ADMIN_SLOT) = proxyAdmin)
    (himplementation : toAddress (w.storage m.this IMPLEMENTATION_SLOT) = implementation) :
    exec chain code answer m (_fallback m.toCall) w =
      if m.sender = proxyAdmin then
        exec chain code answer m
          (revertWith "Cannot call fallback function from the proxy admin") w
      else settle w (answer (m.delegateTo implementation m.data) w) := by
  unfold _fallback
  rw [exec]
  show exec chain code answer m
    (if m.sender ≠ toAddress (w.storage m.this ADMIN_SLOT) then _ else _) w = _
  rw [hadmin]
  by_cases hsender : m.sender = proxyAdmin
  · rw [if_neg (not_not_intro hsender), if_pos hsender]
  · rw [if_pos hsender, if_neg hsender, exec]
    show exec chain code answer m (.delegatecall (toAddress (w.storage m.this IMPLEMENTATION_SLOT))
      m.data .halt) w = _
    rw [himplementation]
    rfl

/-- A call that is not from the admin goes to the implementation, whatever function it names. -/
theorem exec_proxy_user (hadmin : toAddress (w.storage m.this ADMIN_SLOT) = proxyAdmin)
    (himplementation : toAddress (w.storage m.this IMPLEMENTATION_SLOT) = implementation)
    (hsender : m.sender ≠ proxyAdmin) :
    exec chain code answer m (AdminUpgradeabilityProxy m.toCall) w =
      if proxyRequest m.toCall = .malformed then (w, .failure [])
      else settle w (answer (m.delegateTo implementation m.data) w) := by
  have hfallback : exec chain code answer m (_fallback m.toCall) w =
      settle w (answer (m.delegateTo implementation m.data) w) := by
    rw [exec_fallback hadmin himplementation, if_neg hsender]
  have hifAdmin : ∀ body, exec chain code answer m (ifAdmin m.toCall body) w =
      settle w (answer (m.delegateTo implementation m.data) w) := by
    intro body
    rw [exec_ifAdmin hadmin, if_neg hsender, hfallback]
  unfold AdminUpgradeabilityProxy
  cases proxyRequest m.toCall with
  | admin => exact hifAdmin _
  | implementation => exact hifAdmin _
  | changeAdmin => exact hifAdmin _
  | upgradeTo => exact hifAdmin _
  | upgradeToAndCall => exact hifAdmin _
  | malformed => rfl
  | fallback => exact hfallback

end Run

/-! ## Requests and their call data -/

section Requests

variable {c : Call}

/-- An address is read back from where it was encoded. -/
theorem addressAt_encode {selector : Data} {members : List Abi.Value} {i : Nat} {a : Address}
    (hselector : selector.length = 4) (h : (Abi.encodeTuple members)[i]? = some a.val) :
    addressAt (CallData.encode selector members) i = a := by
  have hword : a.val < 2 ^ 256 := Nat.lt_trans a.isLt (by decide)
  rw [addressAt, CallData.word_encode hselector h hword, toAddress_val]

/-- The arguments of type `bytes` that a contract is called with have a length of 32 bits. -/
theorem length_le_of_bytesAt {data argument : Data} {i : Nat}
    (h : CallData.bytesAt data i = some argument) : argument.length ≤ 2 ^ 32 := by
  unfold CallData.bytesAt at h
  split at h
  · simp only at h
    split at h
    · rename_i hlength
      cases h
      rw [List.length_take]
      omega
    · cases h
  · cases h

theorem proxyRequest_changeAdmin {newAdmin : Address}
    (hdata : c.data = (ProxyRequest.changeAdmin newAdmin).callData) (hvalue : c.value = 0) :
    proxyRequest c = .changeAdmin newAdmin := by
  have htake : c.data.take 4 = changeAdminSelector := by
    rw [hdata]
    exact CallData.take_encode rfl
  have hhead : CallData.hasHead c.data 1 = true := by
    rw [hdata]
    exact CallData.hasHead_encode rfl (by simp)
  have haddress : addressAt c.data 0 = newAdmin := by
    rw [hdata]
    exact addressAt_encode rfl rfl
  unfold proxyRequest
  rw [htake, if_neg (by decide), if_neg (by decide), if_pos rfl, if_pos ⟨hvalue, hhead⟩, haddress]

/-- An encoded upgrade is read as one. -/
theorem proxyRequest_upgradeTo {newImplementation : Address}
    (hdata : c.data = (ProxyRequest.upgradeTo newImplementation).callData) (hvalue : c.value = 0) :
    proxyRequest c = .upgradeTo newImplementation := by
  have htake : c.data.take 4 = upgradeToSelector := by
    rw [hdata]
    exact CallData.take_encode rfl
  have hhead : CallData.hasHead c.data 1 = true := by
    rw [hdata]
    exact CallData.hasHead_encode rfl (by simp)
  have haddress : addressAt c.data 0 = newImplementation := by
    rw [hdata]
    exact addressAt_encode rfl rfl
  unfold proxyRequest
  rw [htake, if_neg (by decide), if_neg (by decide), if_neg (by decide), if_pos rfl,
    if_pos ⟨hvalue, hhead⟩, haddress]

theorem proxyRequest_upgradeToAndCall {newImplementation : Address} {data : Data}
    (hdata : c.data = (ProxyRequest.upgradeToAndCall newImplementation data).callData)
    (hlength : data.length ≤ 2 ^ 32) :
    proxyRequest c = .upgradeToAndCall newImplementation data := by
  have htake : c.data.take 4 = upgradeToAndCallSelector := by
    rw [hdata]
    exact CallData.take_encode rfl
  have hhead : CallData.hasHead c.data 2 = true := by
    rw [hdata]
    exact CallData.hasHead_encode rfl (by simp)
  have haddress : addressAt c.data 0 = newImplementation := by
    rw [hdata]
    exact addressAt_encode rfl (Abi.encodeTuple_word rfl)
  have hbytes : CallData.bytesAt c.data 1 = some data := by
    have hselector : upgradeToAndCallSelector.length = 4 := rfl
    have hround := @CallData.bytesAt_encode _ hselector [newImplementation.val] data (by simp)
      hlength
    simp only [List.map_cons, List.map_nil, List.cons_append, List.nil_append, List.length_cons,
      List.length_nil, Nat.zero_add] at hround
    rw [hdata, ProxyRequest.callData, hround]
  unfold proxyRequest
  rw [htake, if_neg (by decide), if_neg (by decide), if_neg (by decide), if_neg (by decide),
    if_pos rfl, hhead, hbytes, haddress]

theorem length_le_of_adminRequest {target newImplementation : Address} {data : Data}
    (h : adminRequest c = .upgradeAndCall target newImplementation data) :
    data.length ≤ 2 ^ 32 := by
  -- a function of words yields its own request or none
  have htakes : ∀ words request,
      takes c words request = .upgradeAndCall target newImplementation data →
      request = .upgradeAndCall target newImplementation data := by
    intro words request htakes
    unfold takes at htakes
    split at htakes
    · exact htakes
    · cases htakes
  unfold adminRequest at h
  split at h
  · cases htakes _ _ h
  split at h
  · cases htakes _ _ h
  split at h
  · cases htakes _ _ h
  split at h
  · cases htakes _ _ h
  split at h
  · cases htakes _ _ h
  split at h
  · cases htakes _ _ h
  split at h
  · cases htakes _ _ h
  split at h
  · split at h
    · rename_i hbytes
      cases h
      exact length_le_of_bytesAt hbytes
    · cases h
  · cases h

end Requests

end Huski.Upgradeable
