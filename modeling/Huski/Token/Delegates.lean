import Huski.Lib.EventLog
import Huski.Token.Votes

/-!
# Who names a delegatee

Every run of HUSKY with the log of its transactions. An account's votes are delegated by its own
calls and by its own signatures only. The signatures that were accepted carry the nonces 0, 1, 2, …
in this order, so that none is accepted twice, not with another `v`, `r` and `s` either.
-/

open Solidity EventLog

namespace HuskyToken

variable {n amount : Nat} {sender account recipient holder : Address} {t t' t₁ : HuskyToken}

/-- Delegatees and address are the same. -/
structure SameDelegates (t t' : HuskyToken) : Prop where
  delegates : t'.delegates = t.delegates
  here : t'.here = t.here

/-- Steps that change no delegatee compose. -/
theorem SameDelegates.trans (h : SameDelegates t t₁) (h' : SameDelegates t₁ t') :
    SameDelegates t t' :=
  ⟨h'.delegates.trans h.delegates, h'.here.trans h.here⟩

theorem sameDelegates_setERC20 (erc20 : ERC20) : SameDelegates t (t.setERC20 erc20) := ⟨rfl, rfl⟩

theorem writeCheckpoint_sameDelegates {delegatee : Address} {index : UInt32} {votes : Nat}
    (h : _writeCheckpoint n delegatee index votes t = .ok t') : SameDelegates t t' := by
  simp only [_writeCheckpoint, bind_eq_ok] at h
  rcases h with ⟨_, _, h⟩
  split at h
  · cases h
    exact ⟨rfl, rfl⟩
  · cases h
    exact ⟨rfl, rfl⟩

theorem takeVotes_sameDelegates {srcRep : Address}
    (h : takeVotes n srcRep amount t = .ok t') : SameDelegates t t' := by
  unfold takeVotes at h
  split at h
  · simp only [bind_eq_ok] at h
    rcases h with ⟨_, _, h⟩
    exact writeCheckpoint_sameDelegates h
  · cases h
    exact ⟨rfl, rfl⟩

theorem giveVotes_sameDelegates {dstRep : Address}
    (h : giveVotes n dstRep amount t = .ok t') : SameDelegates t t' := by
  unfold giveVotes at h
  split at h
  · simp only [bind_eq_ok] at h
    rcases h with ⟨_, _, h⟩
    exact writeCheckpoint_sameDelegates h
  · cases h
    exact ⟨rfl, rfl⟩

theorem moveDelegates_sameDelegates {srcRep dstRep : Address}
    (h : _moveDelegates n srcRep dstRep amount t = .ok t') : SameDelegates t t' := by
  unfold _moveDelegates at h
  split at h
  · simp only [bind_eq_ok] at h
    rcases h with ⟨t₁, htake, hgive⟩
    exact (takeVotes_sameDelegates htake).trans (giveVotes_sameDelegates hgive)
  · cases h
    exact ⟨rfl, rfl⟩

/-- A mint names no delegatee, though it moves votes. -/
theorem mint_sameDelegates (h : t.mint sender n recipient amount = .ok t') :
    SameDelegates t t' := by
  simp only [mint, bind_eq_ok] at h
  rcases h with ⟨_, _, _, _, _, _, erc20, _, hmove⟩
  exact (sameDelegates_setERC20 erc20).trans (moveDelegates_sameDelegates hmove)

theorem manualMint_sameDelegates (h : t.manualMint sender n recipient amount = .ok t') :
    SameDelegates t t' := by
  simp only [manualMint, bind_eq_ok] at h
  rcases h with ⟨_, _, manualMinted, _, _, _, hmint⟩
  have hcounted : SameDelegates t { t with manualMinted } := ⟨rfl, rfl⟩
  exact hcounted.trans (mint_sameDelegates hmint)

/-- A transfer names no delegatee, though it moves votes. -/
theorem transfer_sameDelegates (h : t.transfer sender n recipient amount = .ok t') :
    SameDelegates t t' := by
  simp only [transfer, bind_eq_ok] at h
  rcases h with ⟨erc20, _, hmove⟩
  exact (sameDelegates_setERC20 erc20).trans (moveDelegates_sameDelegates hmove)

/-- A pull names no delegatee, though it moves votes. -/
theorem transferFrom_sameDelegates
    (h : t.transferFrom sender n holder recipient amount = .ok t') : SameDelegates t t' := by
  simp only [transferFrom, bind_eq_ok] at h
  rcases h with ⟨erc20, _, hmove⟩
  exact (sameDelegates_setERC20 erc20).trans (moveDelegates_sameDelegates hmove)

theorem burn_sameDelegates (h : t.burn sender holder amount = .ok t') : SameDelegates t t' := by
  simp only [burn, bind_eq_ok, pure_eq_ok] at h
  rcases h with ⟨_, _, erc20, _, rfl⟩
  exact sameDelegates_setERC20 erc20

theorem approve_sameDelegates (h : t.approve sender recipient amount = .ok t') :
    SameDelegates t t' := by
  simp only [approve, bind_eq_ok, pure_eq_ok] at h
  rcases h with ⟨erc20, _, rfl⟩
  exact sameDelegates_setERC20 erc20

theorem lock_sameDelegates (h : t.lock sender holder amount = .ok t') : SameDelegates t t' := by
  simp only [lock, bind_eq_ok, pure_eq_ok] at h
  rcases h with ⟨_, _, _, _, _, _, _, _, _, _, _, _, rfl⟩
  exact ⟨rfl, rfl⟩

theorem unlock_sameDelegates (h : t.unlock sender n = .ok t') : SameDelegates t t' := by
  simp only [unlock, bind_eq_ok, pure_eq_ok] at h
  rcases h with ⟨_, _, _, _, _, _, _, _, _, _, rfl⟩
  exact ⟨rfl, rfl⟩

theorem lockToOwner_sameDelegates (h : t.lockToOwner sender holder amount = .ok t') :
    SameDelegates t t' := by
  simp only [lockToOwner, bind_eq_ok, pure_eq_ok] at h
  rcases h with ⟨_, _, _, _, _, _, _, _, rfl⟩
  exact ⟨rfl, rfl⟩

/-- Merging two accounts names no delegatee. -/
theorem transferAll_sameDelegates (h : t.transferAll sender recipient = .ok t') :
    SameDelegates t t' := by
  simp only [transferAll, bind_eq_ok, pure_eq_ok] at h
  rcases h with ⟨_, _, _, _, _, _, rfl⟩
  exact ⟨rfl, rfl⟩

theorem transferOwnership_sameDelegates (h : t.transferOwnership sender recipient = .ok t') :
    SameDelegates t t' := by
  simp only [transferOwnership, bind_eq_ok, pure_eq_ok] at h
  rcases h with ⟨_, _, _, _, rfl⟩
  exact ⟨rfl, rfl⟩

theorem renounceOwnership_sameDelegates (h : t.renounceOwnership sender = .ok t') :
    SameDelegates t t' := by
  simp only [renounceOwnership, bind_eq_ok, pure_eq_ok] at h
  rcases h with ⟨_, _, rfl⟩
  exact ⟨rfl, rfl⟩

/-- A delegation names one delegatee. -/
theorem delegate_delegates {delegator delegatee : Address}
    (h : t._delegate n delegator delegatee = .ok t') :
    t'.delegates = Function.update t.delegates delegator delegatee ∧ t'.here = t.here := by
  have hmoved := moveDelegates_sameDelegates h
  exact ⟨hmoved.delegates, hmoved.here⟩

end HuskyToken

namespace Huski.Governance

open HuskyToken

/-- The delegatee that a transaction names for an account. -/
def named (ecrecover : Address → Signed → Address) (here account : Address) (tx : Tx) :
    Option Address :=
  match tx.op with
  | .delegate delegatee => if tx.sender = account then some delegatee else none
  | .delegateBySig signed =>
      if ecrecover here signed = account then some signed.delegatee else none
  | _ => none

/-- The delegation of an account that a transaction brings, signed by the account. -/
def signatureOf (ecrecover : Address → Signed → Address) (here account : Address) (tx : Tx) :
    Option Signed :=
  match tx.op with
  | .delegateBySig signed => if ecrecover here signed = account then some signed else none
  | _ => none

/-- The token and the transactions that succeeded, the newest first. -/
structure Recorded where
  chain : Chain
  log : List Tx

/-- The token's transactions, with the log of them. -/
def recorded (ecrecover : Address → Signed → Address) : TSys Recorded Tx where
  init w := (machine ecrecover).init w.chain ∧ w.log = []
  step w tx := do
    let chain ← mine ecrecover w.chain tx
    return { chain, log := tx :: w.log }

/-- The token's address. -/
def Recorded.here (w : Recorded) : Address := w.chain.state.token.here

/-- The signed delegations of an account that were accepted, the newest first. -/
def Recorded.signatures (ecrecover : Address → Signed → Address) (w : Recorded)
    (account : Address) : List Signed :=
  w.log.filterMap (signatureOf ecrecover w.here account)

/-! ## One transaction -/

section Steps

variable {ecrecover : Address → Signed → Address} {tx : Tx} {g g' : State}

/-- What a transaction writes of delegations. -/
structure WritesDelegates (ecrecover : Address → Signed → Address) (tx : Tx) (g g' : State) :
    Prop where
  here : g'.token.here = g.token.here
  delegates : ∀ a, g'.token.delegates a =
    (named ecrecover g.token.here a tx).getD (g.token.delegates a)
  nonces : ∀ a, g'.nonces a = match signatureOf ecrecover g.token.here a tx with
    | some _ => (g.nonces a + 1) % wordSize
    | none => g.nonces a
  accepted : ∀ signed, tx.op = .delegateBySig signed →
    ecrecover g.token.here signed ≠ 0 ∧
      signed.nonce = g.nonces (ecrecover g.token.here signed) ∧ tx.timestamp ≤ signed.expiry

/-- Other calls name nobody. -/
theorem named_eq_none {here a : Address} (hdelegate : ∀ delegatee, tx.op ≠ .delegate delegatee)
    (hsig : ∀ signed, tx.op ≠ .delegateBySig signed) : named ecrecover here a tx = none := by
  rcases tx with ⟨sender, n, timestamp, op⟩
  cases op with
  | delegate delegatee => exact absurd rfl (hdelegate delegatee)
  | delegateBySig signed => exact absurd rfl (hsig signed)
  | _ => rfl

/-- Other calls use no signature. -/
theorem signatureOf_eq_none {here a : Address} (hsig : ∀ signed, tx.op ≠ .delegateBySig signed) :
    signatureOf ecrecover here a tx = none := by
  rcases tx with ⟨sender, n, timestamp, op⟩
  cases op with
  | delegateBySig signed => exact absurd rfl (hsig signed)
  | _ => rfl

/-- What names nobody changes nothing. -/
theorem writesDelegates_of_same {f : HuskyToken → Result HuskyToken}
    (hdelegate : ∀ delegatee, tx.op ≠ .delegate delegatee)
    (hsig : ∀ signed, tx.op ≠ .delegateBySig signed)
    (hsame : ∀ {t'}, f g.token = .ok t' → SameDelegates g.token t')
    (h : g.onToken f = .ok g') : WritesDelegates ecrecover tx g g' := by
  simp only [State.onToken, bind_eq_ok, pure_eq_ok] at h
  rcases h with ⟨token, htoken, rfl⟩
  have htokens := hsame htoken
  refine ⟨htokens.here, ?_, ?_, fun signed hop => absurd hop (hsig signed)⟩
  · intro a
    rw [named_eq_none hdelegate hsig, Option.getD_none]
    exact congrFun htokens.delegates a
  · intro a
    rw [signatureOf_eq_none hsig]

/-- One account names a delegatee. -/
theorem update_delegates (delegates : Address → Address) (delegator delegatee a : Address) :
    Function.update delegates delegator delegatee a =
      (if delegator = a then some delegatee else none).getD (delegates a) := by
  by_cases ha : delegator = a
  · subst ha
    simp
  · simp [ha, Function.update_of_ne (Ne.symm ha)]

/-- A signature names the signer's delegatee and uses its nonce up. -/
theorem delegateBySig_writesDelegates {n timestamp : Nat} {signed : Signed}
    (hop : tx.op = .delegateBySig signed) (htime : tx.timestamp = timestamp)
    (h : delegateBySig ecrecover n timestamp signed g = .ok g') :
    WritesDelegates ecrecover tx g g' := by
  simp only [delegateBySig, State.onToken, bind_eq_ok, require_eq_ok, pure_eq_ok] at h
  rcases h with ⟨_, hsigner, _, hnonce, _, hexpiry, token, htoken, rfl⟩
  rcases delegate_delegates htoken with ⟨hdelegates, hhere⟩
  refine ⟨hhere, ?_, ?_, ?_⟩
  · intro a
    show token.delegates a = _
    rw [hdelegates, update_delegates, named, hop]
  · intro a
    show Function.update g.nonces _ _ a = _
    rw [signatureOf, hop]
    by_cases ha : ecrecover g.token.here signed = a
    · subst ha
      simp
    · simp [ha, Function.update_of_ne (Ne.symm ha)]
  · intro signed' hop'
    cases hop.symm.trans hop'
    exact ⟨hsigner, hnonce, htime ▸ hexpiry⟩

/-- One transaction writes what it names. -/
theorem exec_writesDelegates (h : exec ecrecover tx g = .ok g') :
    WritesDelegates ecrecover tx g g' := by
  rcases tx with ⟨sender, n, timestamp, op⟩
  cases op with
  -- every function but the two that delegate
  | mint => exact writesDelegates_of_same (by simp) (by simp) mint_sameDelegates h
  | manualMint => exact writesDelegates_of_same (by simp) (by simp) manualMint_sameDelegates h
  | transfer => exact writesDelegates_of_same (by simp) (by simp) transfer_sameDelegates h
  | transferFrom => exact writesDelegates_of_same (by simp) (by simp) transferFrom_sameDelegates h
  | burn => exact writesDelegates_of_same (by simp) (by simp) burn_sameDelegates h
  | approve => exact writesDelegates_of_same (by simp) (by simp) approve_sameDelegates h
  | lock => exact writesDelegates_of_same (by simp) (by simp) lock_sameDelegates h
  | unlock => exact writesDelegates_of_same (by simp) (by simp) unlock_sameDelegates h
  | lockToOwner => exact writesDelegates_of_same (by simp) (by simp) lockToOwner_sameDelegates h
  | transferAll => exact writesDelegates_of_same (by simp) (by simp) transferAll_sameDelegates h
  | transferOwnership =>
      exact writesDelegates_of_same (by simp) (by simp) transferOwnership_sameDelegates h
  | renounceOwnership =>
      exact writesDelegates_of_same (by simp) (by simp) renounceOwnership_sameDelegates h
  -- the sender writes its own entry
  | delegate delegatee =>
      simp only [exec, State.onToken, bind_eq_ok, pure_eq_ok] at h
      rcases h with ⟨token, htoken, rfl⟩
      rcases delegate_delegates htoken with ⟨hdelegates, hhere⟩
      refine ⟨hhere, ?_, fun _ => rfl, ?_⟩
      · intro a
        show token.delegates a = _
        rw [hdelegates, update_delegates]
        rfl
      · intro signed hop
        cases hop
  | delegateBySig signed => exact delegateBySig_writesDelegates rfl rfl h

end Steps

/-! ## Runs -/

section Runs

variable {ecrecover : Address → Signed → Address} {w w' : Recorded} {tx : Tx}

/-- The log tells the delegatees and the nonces. -/
structure Tells (ecrecover : Address → Signed → Address) (w : Recorded) : Prop where
  delegates : ∀ a, w.chain.state.token.delegates a =
    lastWrite (named ecrecover w.here a) 0 w.log
  nonces : ∀ a, w.chain.state.nonces a = (w.signatures ecrecover a).length % wordSize
  inOrder : ∀ a, (w.signatures ecrecover a).reverse.map (·.nonce) =
    (List.range (w.signatures ecrecover a).length).map (· % wordSize)
  accepted : ∀ tx ∈ w.log, ∀ signed, tx.op = .delegateBySig signed →
    ecrecover w.here signed ≠ 0 ∧ tx.timestamp ≤ signed.expiry

/-- The empty log tells the initial state. -/
theorem tells_init (hinit : (recorded ecrecover).init w) : Tells ecrecover w := by
  rcases hinit with ⟨⟨_, here, deployer, first, last, token, hcreate, hstate⟩, hlog⟩
  simp only [create, bind_eq_ok] at hcreate
  rcases hcreate with ⟨_, _, hmint⟩
  have hsame := manualMint_sameDelegates hmint
  -- nothing is logged at the start
  have hnone : ∀ a, w.signatures ecrecover a = [] := by
    intro a
    unfold Recorded.signatures
    rw [hlog]
    rfl
  refine ⟨?_, ?_, ?_, ?_⟩
  · intro a
    rw [hstate, hlog]
    exact congrFun hsame.delegates a
  · intro a
    rw [hstate, hnone]
    rfl
  · intro a
    rw [hnone]
    rfl
  · intro tx hmem
    rw [hlog] at hmem
    cases hmem

theorem signatureOf_eq_some {here a : Address} {signed : Signed}
    (h : signatureOf ecrecover here a tx = some signed) :
    tx.op = .delegateBySig signed ∧ ecrecover here signed = a := by
  rcases tx with ⟨sender, n, timestamp, op⟩
  cases op with
  | delegateBySig signed' =>
      simp only [signatureOf, Option.ite_none_right_eq_some, Option.some.injEq] at h
      rcases h with ⟨hsigner, rfl⟩
      exact ⟨rfl, hsigner⟩
  | _ => cases h

/-- One more transaction is told by one more entry. -/
theorem Tells.step (h : Tells ecrecover w) (hstep : (recorded ecrecover).step w tx = .ok w') :
    Tells ecrecover w' := by
  simp only [recorded, bind_eq_ok, pure_eq_ok] at hstep
  rcases hstep with ⟨chain, hmine, rfl⟩
  rcases mine_eq_ok hmine with ⟨_, _, hexec⟩
  have hwrites := exec_writesDelegates hexec
  have hhere : Recorded.here { chain, log := tx :: w.log } = w.here := hwrites.here
  -- the log grows by the signature that this call brings, if it brings one
  have hsignatures : ∀ a, Recorded.signatures ecrecover { chain, log := tx :: w.log } a =
      match signatureOf ecrecover w.here a tx with
      | some signed => signed :: w.signatures ecrecover a
      | none => w.signatures ecrecover a := by
    intro a
    unfold Recorded.signatures
    rw [hhere]
    cases hsigned : signatureOf ecrecover w.here a tx with
    | none => rw [List.filterMap_cons_none hsigned]
    | some signed => rw [List.filterMap_cons_some hsigned]
  refine ⟨?_, ?_, ?_, ?_⟩
  · intro a
    rw [hhere]
    show chain.state.token.delegates a = _
    rw [hwrites.delegates, lastWrite, h.delegates]
    rfl
  · intro a
    show chain.state.nonces a = _
    rw [hwrites.nonces, hsignatures, h.nonces]
    show (match signatureOf ecrecover w.here a tx with | some _ => _ | none => _) = _
    cases signatureOf ecrecover w.here a tx with
    | none => rfl
    | some signed =>
        show _ = (_ + 1) % wordSize
        rw [Nat.mod_add_mod]
  · intro a
    rw [hsignatures]
    cases hsigned : signatureOf ecrecover w.here a tx with
    | none => exact h.inOrder a
    | some signed =>
        rcases signatureOf_eq_some hsigned with ⟨hop, hsigner⟩
        -- the nonce signed is the number of the signatures before
        have hnonce : signed.nonce = (w.signatures ecrecover a).length % wordSize := by
          rw [(hwrites.accepted signed hop).2.1]
          show w.chain.state.nonces (ecrecover w.here signed) = _
          rw [hsigner, h.nonces]
        show (signed :: w.signatures ecrecover a).reverse.map (·.nonce) = _
        rw [List.reverse_cons, List.map_append, h.inOrder, List.length_cons, List.range_succ,
          List.map_append]
        simp only [List.map_cons, List.map_nil, hnonce]
  · intro tx' hmem signed hop
    rw [hhere]
    rcases List.mem_cons.mp hmem with rfl | hmem
    · have haccepted := hwrites.accepted signed hop
      exact ⟨haccepted.1, haccepted.2.2⟩
    · exact h.accepted tx' hmem signed hop

/-- The log tells every state of a run. -/
theorem tells_of_reachable (h : (recorded ecrecover).Reachable w) : Tells ecrecover w := by
  have hinductive : (recorded ecrecover).Inductive (fun _ _ => True) (Tells ecrecover) := by
    constructor
    · intro w hinit
      exact tells_init hinit
    · intro w tx w' hw _ hstep
      exact hw.step hstep
  exact hinductive.invariant h

end Runs

/-- In every run of HUSKY an account's delegatee is the one that it has named last, by a call of its
own or by a signature. The signatures of an account that were accepted carry the nonces 0, 1, 2, …
in this order (as words), none was accepted after it expired, and as long as there are no more than
there are words no two of them have the same nonce: none was accepted twice. -/
theorem delegations_of_reachable (ecrecover : Address → Signed → Address) (w : Recorded)
    (h : (recorded ecrecover).Reachable w) (account : Address) :
    w.chain.state.token.delegates account = lastWrite (named ecrecover w.here account) 0 w.log ∧
      (w.signatures ecrecover account).reverse.map (·.nonce) =
        (List.range (w.signatures ecrecover account).length).map (· % wordSize) ∧
      ((w.signatures ecrecover account).length ≤ wordSize →
        ((w.signatures ecrecover account).map (·.nonce)).Nodup) ∧
      ∀ tx ∈ w.log, ∀ signed, tx.op = .delegateBySig signed →
        ecrecover w.here signed ≠ 0 ∧ tx.timestamp ≤ signed.expiry := by
  have htells := tells_of_reachable h
  refine ⟨htells.delegates account, htells.inOrder account, ?_, htells.accepted⟩
  intro hfew
  have hrange : (List.range (w.signatures ecrecover account).length).map (· % wordSize) =
      List.range (w.signatures ecrecover account).length := by
    have hword : ∀ i ∈ List.range (w.signatures ecrecover account).length, i % wordSize = id i := by
      intro i hi
      exact Nat.mod_eq_of_lt ((List.mem_range.mp hi).trans_le hfew)
    rw [List.map_congr_left hword, List.map_id]
  rw [← List.nodup_reverse, ← List.map_reverse, htells.inOrder account, hrange]
  exact List.nodup_range

/-- The signatures of account 1 are those with `v` 27. -/
def signer : Address → Signed → Address := fun _ signed => if signed.v = 27 then 1 else 0

/-- Account 60 brings two delegations that account 1 has signed, and names account 5 itself. -/
def delegationRun : Result Recorded :=
  (recorded signer).run { chain := freshChain, log := [] }
    [ ⟨60, 1, 5, .delegateBySig ⟨9, 0, 10, 27, 1, 2⟩⟩, ⟨60, 2, 6, .delegate 5⟩,
      ⟨60, 2, 6, .delegateBySig ⟨8, 1, 10, 27, 3, 4⟩⟩ ]

theorem delegations_of_delegationRun : ∃ w, delegationRun = .ok w ∧
    w.chain.state.token.delegates 1 = lastWrite (named signer w.here 1) 0 w.log ∧
    (w.signatures signer 1).length = 2 ∧ ((w.signatures signer 1).map (·.nonce)).Nodup := by
  have htest : (delegationRun.map fun w => (w.signatures signer 1).length) = .ok 2 := by
    decide +kernel
  cases hrun : delegationRun with
  | error e =>
      rw [hrun] at htest
      cases htest
  | ok w =>
      rw [hrun] at htest
      have htwo : (w.signatures signer 1).length = 2 := Except.ok.inj htest
      have hreach : (recorded signer).Reachable w :=
        TSys.run_reachableBy (.init ⟨freshChain_init signer, rfl⟩) (fun _ _ _ => trivial) hrun
      have hdelegations := delegations_of_reachable signer w hreach 1
      refine ⟨w, rfl, hdelegations.1, htwo, hdelegations.2.2.1 ?_⟩
      rw [htwo]
      decide

end Huski.Governance
