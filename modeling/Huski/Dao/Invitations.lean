import Huski.Dao.Funding
import Huski.Lib.Scan
import Huski.Merkle.Model

/-!
# The invitees of an account

`deposit` counts the investors of every inviter code, and `getInvitees` scans the investors for the
code of an account, into an array of the size that was counted. In every run the count is that of
the investors, so that the scan fills the array. The counter does not wrap, because an account
invests once and there are fewer accounts than words.
-/

open Solidity

namespace Huski.Dao

open Merkle (Keccak256)

/-- `bytes4(keccak256(abi.encodePacked(account)))` -/
def getCode (keccak256 : Keccak256) (account : Address) : Nat :=
  Bytes.number ((keccak256 (Bytes.ofNumber 20 account)).val.take 4)

/-- A place of a new array in memory. -/
def noInvestor : Investor := { investor := 0, inviterCode := 0, amount := 0 }

/-- One round of the scan: `invitees[n] = investors[i]; n++` where the code is that of the investor;
an index out of bounds stops the call. -/
def addInvitee (code : Nat) (s : Nat × List Investor) (x : Investor) :
    Result (Nat × List Investor) :=
  let (n, invitees) := s
  if code = x.inviterCode then do
    require (n < invitees.length) ""
    return (n + 1, invitees.set n x)
  else return (n, invitees)

/-- The investors that used the account's code. -/
def PublicOffering.getInvitees (keccak256 : Keccak256) (offering : PublicOffering)
    (account : Address) : Result (List Investor) := do
  let code := getCode keccak256 account
  let invitees := List.replicate (offering.numberOfInvitations code) noInvestor
  let (_, invitees) ← offering.investors.foldlM (addInvitee code) (0, invitees)
  return invitees

/-- The investor that a transaction adds to an offering. -/
def invests (here : Address) (tx : Tx) : Option Investor :=
  match tx.op with
  | .deposit there value roundID inviterCode =>
      if there = here then
        (_tokenToUSD tx.feed value roundID).toOption.map fun amount =>
          { investor := tx.sender, inviterCode, amount }
      else none
  | _ => none

/-! ## The register of an offering -/

/-- The investors of an offering are known to the config, each once, and counted by their codes. -/
structure Registered (config : PublicOfferingConfig) (offering : PublicOffering) : Prop where
  invested : ∀ x ∈ offering.investors, config.invested x.investor = true
  nodup : (offering.investors.map (·.investor)).Nodup
  counted : ∀ code, offering.numberOfInvitations code =
    offering.investors.countP (·.inviterCode = code)

section Register

variable {sender : Address} {amount inviterCode : Nat} {config config' : PublicOfferingConfig}
  {offering offering' : PublicOffering}

theorem registered_empty (owner token : Address) : Registered config { owner, token } where
  invested x hx := by cases hx
  nodup := List.nodup_nil
  counted code := rfl

theorem Registered.congr (h : Registered config offering)
    (hinvested : ∀ account, config.invested account = true → config'.invested account = true)
    (hinvestors : offering'.investors = offering.investors)
    (hnumber : offering'.numberOfInvitations = offering.numberOfInvitations) :
    Registered config' offering' where
  invested x hx := hinvested _ (h.invested x (hinvestors ▸ hx))
  nodup := hinvestors ▸ h.nodup
  counted code := by
    rw [hnumber, hinvestors]
    exact h.counted code

/-- There are no more investors than accounts. -/
theorem Registered.length_lt (h : Registered config offering) :
    offering.investors.length + 1 < wordSize := by
  have hcard := h.nodup.length_le_card
  rw [List.length_map, Fintype.card_fin] at hcard
  have hword : 2 ^ 160 + 1 < wordSize := by decide
  omega

/-- An account that has not invested is added, and its code counted. -/
theorem Registered.credit (h : Registered config offering)
    (hfresh : config.invested sender = false)
    (hinvested : config'.invested = Function.update config.invested sender true) :
    Registered config' (credit sender amount inviterCode offering) where
  invested x hx := by
    rw [hinvested, Function.update_apply]
    split
    · rfl
    · rename_i hother
      rcases List.mem_append.mp hx with hx | hx
      · exact h.invested x hx
      · obtain rfl := List.mem_singleton.mp hx
        exact absurd rfl hother
  nodup := by
    -- the configuration knows every investor, and the sender it does not know
    have hnew : sender ∉ offering.investors.map (·.investor) := by
      intro hmem
      obtain ⟨x, hx, hsender⟩ := List.mem_map.mp hmem
      have hknown := h.invested x hx
      rw [hsender, hfresh] at hknown
      cases hknown
    show (List.map (·.investor) (offering.investors ++ [_])).Nodup
    rw [List.map_append]
    exact List.nodup_append_comm.mp (List.nodup_cons.mpr ⟨hnew, h.nodup⟩)
  counted code := by
    have hlength := h.length_lt
    have hcount := List.countP_le_length (p := fun x => x.inviterCode = inviterCode)
      (l := offering.investors)
    show Function.update offering.numberOfInvitations inviterCode
      ((offering.numberOfInvitations inviterCode + 1) % wordSize) code =
      (offering.investors ++ [_]).countP _
    rw [List.countP_append, List.countP_singleton, Function.update_apply]
    -- the counter of one code goes up, and does not wrap as the list is short
    by_cases hcode : code = inviterCode
    · rw [if_pos hcode, hcode, h.counted, Nat.mod_eq_of_lt (by omega), if_pos (by simp)]
    · rw [if_neg hcode, h.counted, if_neg (by simpa using Ne.symm hcode), Nat.add_zero]

end Register

/-! ## Runs -/

/-- Every offering has its register in order. -/
def Counted (w : World) : Prop :=
  ∀ here offering, w.offerings here = some offering → Registered w.config offering

/-- A transaction that adds no investor. -/
structure SameRegisters (w w' : World) : Prop where
  offerings : ∀ here offering', w'.offerings here = some offering' → ∃ offering,
    w.offerings here = some offering ∧ offering'.investors = offering.investors ∧
      offering'.numberOfInvitations = offering.numberOfInvitations
  investors : ∀ here, w'.investorsOf here = w.investorsOf here
  invested : ∀ account, w.config.invested account = true → w'.config.invested account = true

section Steps

variable {sender here : Address} {msgValue value roundID inviterCode amount : Nat}
  {feed : PriceFeed} {offering offering' : PublicOffering} {w w' : World} {tx : Tx}

theorem SameRegisters.counted (hsame : SameRegisters w w') (h : Counted w) : Counted w' := by
  intro here offering' hsome'
  obtain ⟨offering, hsome, hinvestors, hnumber⟩ := hsame.offerings here offering' hsome'
  exact (h here offering hsome).congr hsame.invested hinvestors hnumber

theorem sameRegisters_of_same (hofferings : w'.offerings = w.offerings)
    (hinvested : ∀ account, w.config.invested account = true → w'.config.invested account = true) :
    SameRegisters w w' := by
  refine ⟨fun here offering' hsome' => ?_, fun here => ?_, hinvested⟩
  · rw [hofferings] at hsome'
    exact ⟨offering', hsome', rfl, rfl⟩
  · unfold World.investorsOf
    rw [hofferings]

theorem sameRegisters_setOffering (hsome : w.offerings here = some offering)
    (hinvestors : offering'.investors = offering.investors)
    (hnumber : offering'.numberOfInvitations = offering.numberOfInvitations) :
    SameRegisters w (w.setOffering here offering') := by
  refine ⟨fun k o hk => ?_, fun k => ?_, fun _ h => h⟩
  · change Function.update w.offerings here (some offering') k = some o at hk
    rw [Function.update_apply] at hk
    split at hk
    · rename_i hhere
      obtain rfl := Option.some.inj hk
      exact ⟨offering, hhere ▸ hsome, hinvestors, hnumber⟩
    · exact ⟨o, hk, rfl, rfl⟩
  · unfold World.investorsOf World.setOffering
    dsimp only
    by_cases hk : k = here
    · rw [hk, Function.update_self, hsome]
      exact hinvestors
    · rw [Function.update_of_ne hk]

/-- What is no deposit adds no investor. -/
theorem Writes.sameRegisters (hwrites : Writes tx w w') : SameRegisters w w' := by
  cases hwrites with
  | nothing hconfig hofferings =>
      refine sameRegisters_of_same hofferings fun account h => ?_
      rw [hconfig]
      exact h
  | switch here offering offering' hsome hw htoken hinvestors hnumber =>
      rw [hw]
      exact sameRegisters_setOffering hsome hinvestors hnumber
  | config hofferings hwrites => exact sameRegisters_of_same hofferings hwrites.invested

/-- A deposit counts for its inviter once. -/
theorem Deposits.counted (h : Counted w)
    (hd : Deposits sender here msgValue feed value roundID inviterCode offering amount w w') :
    Counted w' := by
  have hinvested : w'.config.invested = Function.update w.config.invested sender true := by
    rw [hd.config]
  intro k o hsome
  rw [hd.offerings, Function.update_apply] at hsome
  split at hsome
  · obtain rfl := Option.some.inj hsome
    exact (h here offering hd.offering_eq).credit hd.fresh hinvested
  · refine (h k o hsome).congr (fun account haccount => ?_) rfl rfl
    rw [hinvested, Function.update_apply, haccount, ite_self]

theorem Deposits.invests (hop : tx.op = .deposit here value roundID inviterCode)
    (hd : Deposits tx.sender here msgValue tx.feed value roundID inviterCode offering amount w w')
    (k : Address) : w'.investorsOf k = w.investorsOf k ++ (invests k tx).toList := by
  rw [hd.investorsOf]
  unfold Dao.invests
  rw [hop]
  dsimp only
  rw [hd.usd]
  by_cases hk : k = here
  · rw [if_pos hk, if_pos hk.symm, hk]
    rfl
  · rw [if_neg hk, if_neg (Ne.symm hk), Option.toList_none, List.append_nil]

/-- One transaction keeps the registers in order, and adds the investor of a deposit. -/
theorem step_counted (h : Counted w) (hstep : step w tx = .ok w') :
    Counted w' ∧ ∀ k, w'.investorsOf k = w.investorsOf k ++ (invests k tx).toList := by
  obtain ⟨_, hexec⟩ := step_eq_ok hstep
  by_cases hdeposit : ∃ here value roundID inviterCode,
      tx.op = .deposit here value roundID inviterCode
  · obtain ⟨here, value, roundID, inviterCode, hop⟩ := hdeposit
    unfold exec at hexec
    rw [hop] at hexec
    obtain ⟨offering, amount, hd⟩ := deposit_eq_ok hexec
    exact ⟨hd.counted h, hd.invests hop⟩
  · push Not at hdeposit
    have hsame := (exec_writes hexec hdeposit).sameRegisters
    refine ⟨hsame.counted h, fun k => ?_⟩
    have hnobody : invests k tx = none := by
      unfold invests
      split
      · rename_i here value roundID inviterCode hop
        exact absurd hop (hdeposit here value roundID inviterCode)
      · rfl
    rw [hsame.investors, hnobody, Option.toList_none, List.append_nil]

theorem run_counted {txs : List Tx} (h : Counted w) (hrun : machine.run w txs = .ok w') :
    Counted w' ∧ ∀ k, w'.investorsOf k = w.investorsOf k ++ txs.filterMap (invests k) := by
  induction txs generalizing w with
  | nil =>
      obtain rfl := Except.ok.inj hrun
      exact ⟨h, fun k => by rw [List.filterMap_nil, List.append_nil]⟩
  | cons tx rest ih =>
      simp only [TSys.run, bind_eq_ok] at hrun
      obtain ⟨w₁, hstep, hrest⟩ := hrun
      obtain ⟨h₁, hfirst⟩ := step_counted h hstep
      obtain ⟨h', hall⟩ := ih h₁ hrest
      refine ⟨h', fun k => ?_⟩
      rw [hall k, hfirst k, List.append_assoc]
      cases hinvests : invests k tx with
      | none => rw [List.filterMap_cons_none hinvests]; rfl
      | some x => rw [List.filterMap_cons_some hinvests]; rfl

theorem counted_init (hinit : machine.init w) : Counted w := by
  intro here offering hsome
  obtain ⟨_, _, hofferings, _⟩ := hinit
  rw [(hofferings here offering hsome).1]
  exact registered_empty _ _

end Steps

/-! ## The scan -/

/-- The loop of `getInvitees` is a scan. -/
theorem addInvitee_eq (code : Nat) : addInvitee code = Scan.put (·.inviterCode = code) := by
  funext s x
  simp only [addInvitee, Scan.put, decide_eq_true_eq, eq_comm (a := code)]

/-- The scan fills the array that was counted. -/
theorem Registered.getInvitees {config : PublicOfferingConfig} {offering : PublicOffering}
    (h : Registered config offering) (keccak256 : Keccak256) (account : Address) :
    offering.getInvitees keccak256 account = .ok
      (offering.investors.filter (·.inviterCode = getCode keccak256 account)) := by
  unfold PublicOffering.getInvitees
  dsimp only
  rw [addInvitee_eq, h.counted, Scan.foldlM_put_replicate]
  rfl

/-- In every run: the investors of an offering are those of its deposits, in order; each code is
counted as often as it stands among them; and `getInvitees` returns, without an index out of bounds,
those with the code of the account, and nothing else. -/
theorem getInvitees_eq (keccak256 : Keccak256) (w₀ w : World) (txs : List Tx)
    (hinit : machine.init w₀) (hrun : machine.run w₀ txs = .ok w) (here : Address)
    (offering : PublicOffering) (hsome : w.offerings here = some offering) :
    offering.investors = txs.filterMap (invests here) ∧
    (∀ code, offering.numberOfInvitations code =
      offering.investors.countP (·.inviterCode = code)) ∧
    ∀ account, offering.getInvitees keccak256 account = .ok
      (offering.investors.filter (·.inviterCode = getCode keccak256 account)) := by
  obtain ⟨hcounted, hinvestors⟩ := run_counted (counted_init hinit) hrun
  have hregistered := hcounted here offering hsome
  refine ⟨?_, hregistered.counted, hregistered.getInvitees keccak256⟩
  have hhere := hinvestors here
  rw [investorsOf_init hinit, List.nil_append] at hhere
  rw [← hhere, World.investorsOf, hsome]

/-! ## Two deposits -/

/-- The hash of the address 2. -/
def hashOfTwo : Keccak256 := fun _ =>
  ⟨[213, 38, 136, 168, 249, 38, 200, 22, 202, 30, 7, 144, 103, 202, 186, 148, 79, 21, 142, 118, 72,
    23, 184, 63, 196, 53, 148, 55, 12, 169, 207, 98], rfl⟩

/-- A deposit of 1000 native coins at 202. -/
def depositWith (sender : Address) (inviterCode : Nat) : Tx :=
  { sender, value := 1000 * 10 ^ 18, feed := dollar
    op := .deposit 202 (1000 * 10 ^ 18) 0 inviterCode }

/-- Account 1 was invited by account 2, which itself deposits with another code. -/
theorem getInvitees_of_two : ∃ w offering,
    machine.run deployed (allowBoth ++ [depositWith 1 3576072360, depositWith 2 7]) = .ok w ∧
    w.offerings 202 = some offering ∧
    offering.getInvitees hashOfTwo 2 = .ok [⟨1, 3576072360, 1000 * 10 ^ 18⟩] := by
  have hrun : ((machine.run deployed
      (allowBoth ++ [depositWith 1 3576072360, depositWith 2 7])).toOption.any fun w =>
        (w.offerings 202).isSome) = true := by
    decide +kernel
  obtain ⟨w, hok, hsome⟩ := (Option.any_eq_true _ _).mp hrun
  obtain ⟨offering, hsome⟩ := Option.isSome_iff_exists.mp hsome
  rw [toOption_eq_some] at hok
  obtain ⟨hinvestors, _, hinvitees⟩ :=
    getInvitees_eq hashOfTwo deployed w _ deployed_init hok 202 offering hsome
  refine ⟨w, offering, hok, hsome, ?_⟩
  rw [hinvitees, hinvestors]
  decide +kernel

end Huski.Dao
