import Huski.Farm.Model

/-!
# FairLaunch mirrors the debt

The stake that the vault funds for an owner against the debt shares of the owner's positions, and
the debt tokens against the debt shares of the vault. A withdrawal and its burn take out what
`_removeDebt` takes off the position, a mint and its deposit put in what `_addDebt` puts on it.
Where the withdrawal fails `_removeDebt` goes ahead, and the shares stay behind in FairLaunch.
-/

namespace Huski.Farm

open Solidity FairLaunch
open scoped BigOperators

/-! ## What FairLaunch keeps for the vault -/

/-- FairLaunch, apart from the vault, backs the stakes, each of one funder. -/
structure Sane (vault : Address) (c : Chain) : Prop where
  here_ne : c.state.here ≠ vault
  custody : Custody c.state
  funded : c.state.Funded

/-- The stake in an entry that the vault funded. -/
def stakeOf (self : Address) (c : Chain) (p : Nat) (u : Address) : Nat :=
  (c.state.userInfo p u).stakeOf self

/-- What others do: the stakes of the vault and the debt tokens are as before. -/
def Aside (self : Address) (c c' : Chain) : Prop :=
  Sane self c → Sane self c' ∧ (∀ p u, stakeOf self c' p u = stakeOf self c p u) ∧
    ∀ token, c'.state.debtSupply token = c.state.debtSupply token

theorem Aside.refl (self : Address) (c : Chain) : Aside self c c :=
  fun hs => ⟨hs, fun _ _ => rfl, fun _ => rfl⟩

theorem Aside.trans {self : Address} {a b c : Chain} (hab : Aside self a b)
    (hbc : Aside self b c) : Aside self a c := by
  intro hs
  obtain ⟨hb, hstakes, hsupply⟩ := hab hs
  obtain ⟨hc, hstakes', hsupply'⟩ := hbc hb
  exact ⟨hc, fun p u => (hstakes' p u).trans (hstakes p u),
    fun token => (hsupply' token).trans (hsupply token)⟩

section Calls

variable {self token holder : Address} {n pid amount : Nat} {user : Address} {c c' : Chain}
  {tx : FairLaunch.Tx}

theorem mine_sane (hs : Sane self c) (h : mine c tx = .ok c') :
    Sane self c' ∧ ∀ token, c'.state.debtSupply token = c.state.debtSupply token := by
  obtain ⟨hsender, _, _, _, hexec⟩ := mine_eq_ok h
  obtain ⟨hcustody, hhere⟩ := hs.custody.exec hsender hexec
  have hflow := exec_flow hs.custody.listed hsender hexec
  exact ⟨⟨hhere.symm ▸ hs.here_ne, hcustody, hflow.funded hs.funded⟩, exec_debtSupply hexec⟩

/-- A call of another account than the vault. -/
theorem mine_aside (hsender : tx.sender ≠ self) (h : mine c tx = .ok c') : Aside self c c' := by
  intro hs
  obtain ⟨hsane, hsupply⟩ := mine_sane hs h
  obtain ⟨hhere, _, _, _, hexec⟩ := mine_eq_ok h
  have hflow := exec_flow hs.custody.listed hhere hexec
  exact ⟨hsane, hflow.stakeOf_of_ne hs.funded hsender.symm, hsupply⟩

theorem approve_aside {spender : Address} {value : Nat}
    (h : mine c ⟨self, n, .tokenApprove token spender value⟩ = .ok c') : Aside self c c' := by
  intro hs
  obtain ⟨hsane, hsupply⟩ := mine_sane hs h
  obtain ⟨_, _, _, _, hexec⟩ := mine_eq_ok h
  have hkept := (exec_quiet rfl hexec).1.userInfo
  refine ⟨hsane, fun p u => ?_, hsupply⟩
  unfold stakeOf
  rw [hkept]

/-- What the contracts outside call moves no stake of the vault. -/
theorem runCalls_aside {calls : List (Address × Op)} (h : runCalls self n calls c = .ok c') :
    Aside self c c' := by
  refine foldlM_induct (fun t call t' ht hstep => ?_) h (.refl self c)
  obtain ⟨sender, op⟩ := call
  simp only [bind_eq_ok, require_eq_ok] at hstep
  obtain ⟨_, hsender, hmine⟩ := hstep
  exact ht.trans (mine_aside hsender hmine)

/-- A deposit by the vault adds to its own stake. -/
theorem mine_deposit (hs : Sane self c)
    (h : mine c ⟨self, n, .deposit user pid amount⟩ = .ok c') :
    Sane self c' ∧ (∀ p u, stakeOf self c' p u =
      stakeOf self c p u + if p = pid ∧ u = user then amount else 0) ∧
    ∀ token, c'.state.debtSupply token = c.state.debtSupply token := by
  obtain ⟨hsane, hsupply⟩ := mine_sane hs h
  obtain ⟨_, _, _, _, hexec⟩ := mine_eq_ok h
  exact ⟨hsane, deposit_stakeOf hs.funded hexec, hsupply⟩

/-- A withdrawal by the vault takes from its own stake. -/
theorem mine_withdraw (hs : Sane self c)
    (h : mine c ⟨self, n, .withdraw user pid amount⟩ = .ok c') :
    Sane self c' ∧ (∀ p u, stakeOf self c' p u + (if p = pid ∧ u = user then amount else 0) =
      stakeOf self c p u) ∧
    ∀ token, c'.state.debtSupply token = c.state.debtSupply token := by
  obtain ⟨hsane, hsupply⟩ := mine_sane hs h
  obtain ⟨_, _, _, _, hexec⟩ := mine_eq_ok h
  exact ⟨hsane, withdraw_stakeOf hs.custody.listed hexec, hsupply⟩

/-! ## The debt token -/

theorem onDebtToken_eq_ok {f : DebtToken → Result DebtToken}
    (h : onDebtToken token f c = .ok c') :
    ∃ t t', c.state.tokens token = .debtToken t ∧ f t = .ok t' ∧
      c' = { c with state := c.state.setToken token (.debtToken t') } := by
  simp only [onDebtToken, bind_eq_ok] at h
  obtain ⟨_, _, h⟩ := h
  cases htoken : c.state.tokens token with
  | erc20 t =>
      rw [htoken] at h
      cases h
  | debtToken t =>
      rw [htoken] at h
      simp only [bind_eq_ok, pure_eq_ok] at h
      obtain ⟨t', hcall, rfl⟩ := h
      exact ⟨t, t', rfl, hcall, rfl⟩

/-- A call of the debt token that takes none of FairLaunch's. -/
theorem onDebtToken_sane {f : DebtToken → Result DebtToken} (hs : Sane self c)
    (hf : ∀ t t', f t = .ok t' →
      t.erc20.balanceOf c.state.here ≤ t'.erc20.balanceOf c.state.here)
    (h : onDebtToken token f c = .ok c') :
    Sane self c' ∧ ∀ p u, stakeOf self c' p u = stakeOf self c p u := by
  obtain ⟨t, t', htoken, hcall, rfl⟩ := onDebtToken_eq_ok h
  have hstakes : SameStakes c.state (c.state.setToken token (.debtToken t')) :=
    ⟨⟨rfl, rfl, rfl, rfl⟩, rfl, rfl, rfl⟩
  have hfunds : KeepsFunds false c.state (c.state.setToken token (.debtToken t')) := by
    refine ⟨rfl, rfl, fun _ => le_rfl, fun a => ?_⟩
    show _ ≤ (Function.update c.state.tokens token (.debtToken t') a).balanceOf c.state.here
    by_cases ha : a = token
    · rw [ha, Function.update_self, htoken]
      exact hf t t' hcall
    · rw [Function.update_of_ne ha]
  exact ⟨⟨hs.here_ne, hs.custody.quiet hstakes hfunds, hs.funded⟩, fun _ _ => rfl⟩

/-- A mint of debt tokens adds to their supply. -/
theorem mint_supply (h : onDebtToken token (·.mint self holder amount) c = .ok c') (a : Address) :
    c'.state.debtSupply a = c.state.debtSupply a + if a = token then amount else 0 := by
  obtain ⟨t, t', htoken, hcall, rfl⟩ := onDebtToken_eq_ok h
  simp only [DebtToken.mint, bind_eq_ok, pure_eq_ok] at hcall
  obtain ⟨_, _, _, _, erc20, hmint, rfl⟩ := hcall
  rw [debtSupply_setToken]
  by_cases ha : a = token
  · rw [if_pos ha, if_pos ha, ha, State.debtSupply, htoken]
    exact ERC20.totalSupply_mint hmint
  · rw [if_neg ha, if_neg ha, Nat.add_zero]

/-- A burn of debt tokens takes from their supply. -/
theorem burn_supply (h : onDebtToken token (·.burn self holder amount) c = .ok c') (a : Address) :
    c'.state.debtSupply a + (if a = token then amount else 0) = c.state.debtSupply a := by
  obtain ⟨t, t', htoken, hcall, rfl⟩ := onDebtToken_eq_ok h
  simp only [DebtToken.burn, bind_eq_ok, pure_eq_ok] at hcall
  obtain ⟨_, _, _, _, erc20, hburn, rfl⟩ := hcall
  rw [debtSupply_setToken]
  by_cases ha : a = token
  · rw [if_pos ha, if_pos ha, ha, State.debtSupply, htoken]
    exact ERC20.totalSupply_burn hburn
  · rw [if_neg ha, if_neg ha, Nat.add_zero]

theorem mint_sane (hs : Sane self c)
    (h : onDebtToken token (·.mint self holder amount) c = .ok c') :
    Sane self c' ∧ ∀ p u, stakeOf self c' p u = stakeOf self c p u := by
  refine onDebtToken_sane hs (fun t t' hcall => ?_) h
  simp only [DebtToken.mint, bind_eq_ok, pure_eq_ok] at hcall
  obtain ⟨_, _, _, _, erc20, hmint, rfl⟩ := hcall
  have hbalance := ERC20.balanceOf_mint hmint c.state.here
  exact hbalance ▸ Nat.le_add_right _ _

/-- The vault burns its own debt tokens. -/
theorem burn_sane (hs : Sane self c)
    (h : onDebtToken token (·.burn self self amount) c = .ok c') :
    Sane self c' ∧ ∀ p u, stakeOf self c' p u = stakeOf self c p u := by
  refine onDebtToken_sane hs (fun t t' hcall => ?_) h
  simp only [DebtToken.burn, bind_eq_ok, pure_eq_ok] at hcall
  obtain ⟨_, _, _, _, erc20, hburn, rfl⟩ := hcall
  have hbalance := ERC20.balanceOf_burn hburn c.state.here
  rw [if_neg hs.here_ne, Nat.add_zero] at hbalance
  exact hbalance.ge

theorem setOkHolders_aside {holders : List Address} {isOk : Bool}
    (h : onDebtToken token (·.setOkHolders self holders isOk) c = .ok c') : Aside self c c' := by
  have hsame : ∀ t t' : DebtToken, t.setOkHolders self holders isOk = .ok t' →
      t'.erc20 = t.erc20 := by
    intro t t' hcall
    simp only [DebtToken.setOkHolders, bind_eq_ok, pure_eq_ok] at hcall
    obtain ⟨_, _, rfl⟩ := hcall
    rfl
  intro hs
  obtain ⟨hsane, hstakes⟩ := onDebtToken_sane hs (fun t t' hcall => (hsame t t' hcall) ▸ le_rfl) h
  refine ⟨hsane, hstakes, fun a => ?_⟩
  obtain ⟨t, t', htoken, hcall, rfl⟩ := onDebtToken_eq_ok h
  refine debtSupply_setToken_same ?_ a
  rw [htoken]
  exact congrArg ERC20.totalSupply (hsame t t' hcall)

end Calls

end Huski.Farm
