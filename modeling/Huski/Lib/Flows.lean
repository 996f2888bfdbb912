import Huski.Lib.Custodian

/-!
# Flows between accounts

Several tokens in one picture: what a call took from each account of each token, and what it gave.
Flows of calls in a row add up, so that a call which moves several tokens is read off the balances
of one account at a time.
-/

open Solidity

/-- The ledgers of all tokens. -/
abbrev Ledgers : Type := Address → ERC20

namespace Ledgers

/-- An amount for each account of each token. -/
abbrev Flow : Type := Address → Address → Nat

/-- An amount of one token, for one account. -/
def single (token account : Address) (amount : Nat) : Flow :=
  fun t a => if t = token ∧ a = account then amount else 0

section Single

variable {token account t a : Address} {amount : Nat}

@[simp] theorem single_self : single token account amount token account = amount :=
  if_pos ⟨rfl, rfl⟩

theorem single_of_account_ne (h : a ≠ account) : single token account amount t a = 0 :=
  if_neg fun hboth => h hboth.2

@[simp] theorem single_zero : single token account 0 = 0 := by
  funext t a
  exact ite_self 0

/-- Flows of one account add up. -/
theorem single_add (m n : Nat) :
    single token account (m + n) = single token account m + single token account n := by
  funext t a
  show single token account (m + n) t a = single token account m t a + single token account n t a
  unfold single
  split
  · rfl
  · rfl

end Single

/-- What was taken from the accounts, and what was given to them. -/
def Moved (l l' : Ledgers) (out into : Flow) : Prop :=
  ∀ t a, (l' t).balanceOf a + out t a = (l t).balanceOf a + into t a

/-- All ledgers are sound for a keeper. -/
def Sound (keeper : Address) (l : Ledgers) : Prop := ∀ t, (l t).Sound keeper

variable {l l' l₁ : Ledgers} {out into out' into' : Flow} {keeper token src dst : Address}
  {amount : Nat} {t : ERC20}

theorem Moved.refl (l : Ledgers) : Moved l l 0 0 := fun _ _ => rfl

theorem Moved.trans (h : Moved l l₁ out into) (h' : Moved l₁ l' out' into') :
    Moved l l' (out + out') (into + into') := by
  intro t a
  have hfirst := h t a
  have hsecond := h' t a
  show _ + (out t a + out' t a) = _ + (into t a + into' t a)
  omega

/-- What is taken and given back does not move. -/
theorem Moved.add_back (h : Moved l l' out into) (back : Flow) :
    Moved l l' (out + back) (into + back) := by
  intro t a
  have hmoved := h t a
  show _ + (out t a + back t a) = _ + (into t a + back t a)
  omega

/-- A call of one token. -/
theorem moved_update {x y : Nat}
    (h : ∀ a, t.balanceOf a + (if a = src then x else 0) =
      (l token).balanceOf a + if a = dst then y else 0) :
    Moved l (Function.update l token t) (single token src x) (single token dst y) := by
  intro t' a
  by_cases ht : t' = token
  · subst ht
    have ha := h a
    simp only [Function.update_self, single, true_and]
    exact ha
  · simp [single, ht]

/-- A transfer is a flow from one account into another. -/
theorem moved_transfer (h : (l token)._transfer src dst amount = .ok t) :
    Moved l (Function.update l token t) (single token src amount) (single token dst amount) :=
  moved_update (ERC20.balanceOf_transfer h)

theorem moved_transferFrom {spender : Address}
    (h : (l token).transferFrom spender src dst amount = .ok t) :
    Moved l (Function.update l token t) (single token src amount) (single token dst amount) :=
  moved_update (ERC20.balanceOf_transferFrom h)

theorem moved_mint (h : (l token)._mint dst amount = .ok t) :
    Moved l (Function.update l token t) 0 (single token dst amount) := by
  have hmoved : Moved l (Function.update l token t) (single token dst 0)
      (single token dst amount) := by
    refine moved_update ?_
    intro a
    rw [ite_self]
    exact ERC20.balanceOf_mint h a
  rwa [single_zero] at hmoved

/-- A burn flows out only. -/
theorem moved_burn (h : (l token)._burn src amount = .ok t) :
    Moved l (Function.update l token t) (single token src amount) 0 := by
  have hmoved : Moved l (Function.update l token t) (single token src amount)
      (single token src 0) := by
    refine moved_update ?_
    intro a
    rw [ite_self]
    exact ERC20.balanceOf_burn h a
  rwa [single_zero] at hmoved

/-- Replacing one ledger by a sound one. -/
theorem Sound.update (h : Sound keeper l) (ht : t.Sound keeper) :
    Sound keeper (Function.update l token t) :=
  TotalMap.forall_update h ht

/-- What a call takes from nobody but others, the keeper still has. -/
theorem Moved.balance_le (h : Moved l l' out into) {a : Address} (hout : out token a = 0) :
    (l token).balanceOf a ≤ (l' token).balanceOf a := by
  have := h token a
  omega

end Ledgers
