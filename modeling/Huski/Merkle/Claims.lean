import Huski.Merkle.Model

/-!
# One payment for each index

Which indices were paid is kept in words of 256 bits: the quotient of an index selects the word and
the rest the bit. The bit of an index is set before the token is called, so that a token that calls
back finds it set. The payments of a run have different indices, and these are the bits that are
set.
-/

open Solidity

namespace Huski.Merkle

/-! ## Packed booleans -/

section Bits

variable {i j index : Word} {d : MerkleDistributor}

/-- Quotient and rest determine an index. -/
theorem eq_of_div_mod (hdiv : i / 256 = j / 256) (hmod : i % 256 = j % 256) : i = j := by
  have hquotient := congrArg BitVec.toNat hdiv
  have hrest := congrArg BitVec.toNat hmod
  rw [BitVec.toNat_udiv, BitVec.toNat_udiv] at hquotient
  rw [BitVec.toNat_umod, BitVec.toNat_umod] at hrest
  refine BitVec.eq_of_toNat_eq ?_
  rw [← Nat.div_add_mod i.toNat (256 : Word).toNat, ← Nat.div_add_mod j.toNat (256 : Word).toNat,
    hquotient, hrest]

theorem mod_lt (i : Word) : (i % 256).toNat < 256 := by
  rw [BitVec.toNat_umod]
  exact Nat.mod_lt _ (by decide)

theorem mask_eq (k : Word) : (1 : Word) <<< k = BitVec.twoPow 256 k.toNat :=
  (BitVec.twoPow_eq 256 k.toNat).symm

/-- `isClaimed` reads the bit of its index. -/
theorem isClaimed_eq (d : MerkleDistributor) (index : Word) :
    d.isClaimed index = (d.claimedBitMap (index / 256)).getLsbD (index % 256).toNat := by
  unfold MerkleDistributor.isClaimed
  dsimp only
  rw [mask_eq, BitVec.and_twoPow]
  by_cases hbit : (d.claimedBitMap (index / 256)).getLsbD (index % 256).toNat = true
  · rw [if_pos hbit, hbit]
    exact decide_eq_true rfl
  · rw [if_neg hbit]
    rw [Bool.not_eq_true] at hbit
    rw [hbit]
    refine decide_eq_false fun hzero => ?_
    -- the mask has a bit, so that it is not the empty word
    have hmask := congrArg BitVec.toNat hzero
    rw [BitVec.toNat_twoPow_of_lt (mod_lt index)] at hmask
    exact absurd hmask.symm (Nat.two_pow_pos _).ne'

/-- `_setClaimed` sets the bit of its index and no other. -/
theorem isClaimed_setClaimed (d : MerkleDistributor) (i j : Word) :
    (d._setClaimed i).isClaimed j = (decide (j = i) || d.isClaimed j) := by
  rw [isClaimed_eq, isClaimed_eq]
  unfold MerkleDistributor._setClaimed
  dsimp only
  by_cases hword : j / 256 = i / 256
  · rw [hword, Function.update_self, mask_eq, BitVec.getLsbD_or, BitVec.getLsbD_twoPow,
      Bool.or_comm]
    have hbound := mod_lt i
    by_cases hsame : j = i
    · rw [hsame, decide_eq_true hbound, decide_eq_true rfl, decide_eq_true rfl, Bool.true_and]
    · have hbit : (i % 256).toNat ≠ (j % 256).toNat := fun hbit =>
        hsame (eq_of_div_mod hword (BitVec.eq_of_toNat_eq hbit).symm)
      rw [decide_eq_false hbit, decide_eq_false hsame, Bool.and_false]
  · have hsame : j ≠ i := fun hsame => hword (congrArg (· / 256) hsame)
    rw [Function.update_of_ne hword, decide_eq_false hsame, Bool.false_or]

end Bits

/-! ## One call -/

/-- The bits that are set are the indices that were paid, each once. -/
structure Recorded (d : MerkleDistributor) : Prop where
  nodup : (d.payments.map (·.index)).Nodup
  claimed : ∀ i, d.isClaimed i = true ↔ i ∈ d.payments.map (·.index)

/-- The payments grew, and the bits are still right. -/
structure Grows (d d' : MerkleDistributor) : Prop where
  recorded : Recorded d'
  payments : ∃ nested, d'.payments = nested ++ d.payments

section Calls

variable {keccak256 : Keccak256} {this sender : Address} {call : Token}
  {d d' : MerkleDistributor} {index amount : Word} {account : Address} {merkleProof : List Bytes32}

theorem Grows.refl (h : Recorded d) : Grows d d := ⟨h, [], rfl⟩

theorem Grows.trans {d₁ : MerkleDistributor} (h : Grows d d₁) (h' : Grows d₁ d') : Grows d d' := by
  obtain ⟨nested, hnested⟩ := h.payments
  obtain ⟨later, hlater⟩ := h'.payments
  refine ⟨h'.recorded, later ++ nested, ?_⟩
  rw [hlater, hnested, List.append_assoc]

/-- The bit of an unpaid index is set, and its payment is made. -/
theorem Recorded.paid (h : Recorded d) (hfree : d.isClaimed index = false) (account : Address)
    (amount : Word) : Recorded ((d._setClaimed index).pay { index, account, amount }) where
  nodup := by
    refine List.nodup_cons.mpr ⟨fun hpaid => ?_, h.nodup⟩
    have hclaimed := (h.claimed index).mpr hpaid
    rw [hfree] at hclaimed
    cases hclaimed
  claimed i := by
    show (d._setClaimed index).isClaimed i = true ↔ i ∈ index :: d.payments.map (·.index)
    rw [isClaimed_setClaimed, Bool.or_eq_true, decide_eq_true_eq, h.claimed i, List.mem_cons]

/-- What a successful claim did before its transfer returned. -/
theorem claim_eq_ok (hclaim : claim keccak256 call index account amount merkleProof d = .ok d') :
    d.isClaimed index = false ∧
      verifyClaim keccak256 d.merkleRoot index account amount merkleProof = true ∧
      call d.token (.transfer account amount)
        ((d._setClaimed index).pay { index, account, amount }) = .ok (d', true) := by
  simp only [claim, bind_eq_ok, require_eq_ok, pure_eq_ok, Prod.exists] at hclaim
  obtain ⟨_, hfree, _, hproof, d₁, success, hcalls, _, rfl, rfl⟩ := hclaim
  exact ⟨hfree, hproof, hcalls⟩

theorem safeCall_eq_ok {token : Address} {c : TokenCall} (h : safeCall call token c d = .ok d') :
    ∃ success, call token c d = .ok (d', success) := by
  simp only [safeCall, bind_eq_ok, lowLevel_eq_ok, require_eq_ok, pure_eq_ok, Prod.exists] at h
  obtain ⟨d₁, success, hcalls, _, _, rfl⟩ := h
  exact ⟨success, hcalls⟩

/-- What a token does while it is called, if each of its calls grows the payments. -/
theorem Reenters.grows {calls : MerkleDistributor → MerkleDistributor → Prop}
    (hreenters : Reenters calls call)
    (hcalls : ∀ d d', Recorded d → calls d d' → Grows d d') {token : Address} {c : TokenCall}
    {success : Bool} (h : Recorded d) (hreturns : call token c d = .ok (d', success)) :
    Grows d d' := by
  have hacts := hreenters token c d d' success hreturns
  clear hreturns
  induction hacts with
  | refl => exact .refl h
  | tail _ hlast ih => exact ih.trans (hcalls _ _ ih.recorded hlast)

/-- A claim pays its index, and what the token claims meanwhile is paid too. -/
theorem claim_grows {calls : MerkleDistributor → MerkleDistributor → Prop}
    (hreenters : Reenters calls call)
    (hcalls : ∀ d d', Recorded d → calls d d' → Grows d d') (h : Recorded d)
    (hclaim : claim keccak256 call index account amount merkleProof d = .ok d') :
    Recorded d' ∧ ∃ nested, d'.payments = nested ++ { index, account, amount } :: d.payments := by
  obtain ⟨hfree, _, hreturns⟩ := claim_eq_ok hclaim
  have hgrows := hreenters.grows hcalls (h.paid hfree account amount) hreturns
  exact ⟨hgrows.recorded, hgrows.payments⟩

theorem exec_grows {calls : MerkleDistributor → MerkleDistributor → Prop}
    (hreenters : Reenters calls call)
    (hcalls : ∀ d d', Recorded d → calls d d' → Grows d d') {op : Op} (h : Recorded d)
    (hexec : exec keccak256 this call sender d op = .ok d') : Grows d d' := by
  cases op with
  | claim index account amount merkleProof =>
      obtain ⟨hrecorded, nested, hpayments⟩ := claim_grows hreenters hcalls h hexec
      -- what the token's call pays in its turn comes after this payment's record
      refine ⟨hrecorded, nested ++ [⟨index, account, amount⟩], ?_⟩
      rw [hpayments, List.append_assoc]
      rfl
  | deposit amount =>
      simp only [exec, deposit, bind_eq_ok] at hexec
      obtain ⟨_, _, hsafe⟩ := hexec
      obtain ⟨success, hreturns⟩ := safeCall_eq_ok hsafe
      exact hreenters.grows hcalls h hreturns
  | withdrawTokens token amount =>
      simp only [exec, withdrawTokens, bind_eq_ok] at hexec
      obtain ⟨_, _, hsafe⟩ := hexec
      obtain ⟨success, hreturns⟩ := safeCall_eq_ok hsafe
      exact hreenters.grows hcalls h hreturns
  | withdrawRewardTokens amount =>
      simp only [exec, withdrawRewardTokens, bind_eq_ok] at hexec
      obtain ⟨_, _, hsafe⟩ := hexec
      obtain ⟨success, hreturns⟩ := safeCall_eq_ok hsafe
      exact hreenters.grows hcalls h hreturns
  | withdrawAllRewardTokens balance =>
      simp only [exec, withdrawAllRewardTokens, bind_eq_ok] at hexec
      obtain ⟨_, _, hsafe⟩ := hexec
      obtain ⟨success, hreturns⟩ := safeCall_eq_ok hsafe
      exact hreenters.grows hcalls h hreturns
  | setOwner newOwner =>
      simp only [exec, setOwner, bind_eq_ok, pure_eq_ok] at hexec
      obtain ⟨_, _, rfl⟩ := hexec
      exact ⟨⟨h.nodup, h.claimed⟩, [], rfl⟩

/-- Calls nested to any depth. -/
theorem calls_grow (n : Nat) :
    ∀ d d', Recorded d → Calls keccak256 this n d d' → Grows d d' := by
  induction n with
  | zero =>
      intro d d' _ hcalls
      exact hcalls.elim
  | succ n ih =>
      intro d d' h hcalls
      obtain ⟨call, sender, op, hreenters, hexec⟩ := hcalls
      exact exec_grows hreenters ih h hexec

/-! ## Runs -/

theorem recorded_inductive :
    (machine keccak256 this).Inductive (Reentrant keccak256 this) Recorded where
  init d hinit := by
    obtain ⟨token, merkleRoot, owner, rfl⟩ := hinit
    refine ⟨List.nodup_nil, fun i => ?_⟩
    rw [isClaimed_eq]
    show (0#256).getLsbD _ = true ↔ i ∈ []
    rw [BitVec.getLsbD_zero]
    exact ⟨fun h => (Bool.false_ne_true h).elim, fun h => (List.not_mem_nil h).elim⟩
  step d tx d' h hreentrant hstep := by
    obtain ⟨n, hreenters⟩ := hreentrant
    exact (exec_grows hreenters (calls_grow n) h hstep).recorded

/-- In every run, with tokens that call back as they like: no index is paid twice, and `isClaimed`
holds for those that were paid. A claim adds its own index and those claimed while its token is
called; with a token that does not call back it leaves all others, as `_setClaimed` always does. -/
theorem paid_once (d : MerkleDistributor)
    (hreach : (machine keccak256 this).ReachableBy (Reentrant keccak256 this) d) :
    (d.payments.map (·.index)).Nodup ∧
    (∀ i, d.isClaimed i = true ↔ i ∈ d.payments.map (·.index)) ∧
    (∀ i j, (d._setClaimed i).isClaimed j = (decide (j = i) || d.isClaimed j)) ∧
    ∀ tx index account amount merkleProof d', tx.op = .claim index account amount merkleProof →
      Reentrant keccak256 this d tx → exec keccak256 this tx.token tx.sender d tx.op = .ok d' →
      d.isClaimed index = false ∧ d'.isClaimed index = true ∧
      (∃ nested, d'.payments = nested ++ { index, account, amount } :: d.payments ∧
        ∀ j, d'.isClaimed j = true ↔
          d.isClaimed j = true ∨ j = index ∨ j ∈ nested.map (·.index)) ∧
      ((∀ token c d₁ d₂ success, tx.token token c d₁ = .ok (d₂, success) → d₂ = d₁) →
        ∀ j, j ≠ index → d'.isClaimed j = d.isClaimed j) := by
  have h := recorded_inductive.invariant hreach
  refine ⟨h.nodup, h.claimed, isClaimed_setClaimed d, ?_⟩
  rintro ⟨sender, token, op⟩ index account amount merkleProof d' rfl ⟨n, hreenters⟩ hexec
  obtain ⟨hfree, _, hreturns⟩ := claim_eq_ok hexec
  obtain ⟨hrecorded, nested, hpayments⟩ := claim_grows hreenters (calls_grow n) h hexec
  have hiff : ∀ j, d'.isClaimed j = true ↔
      d.isClaimed j = true ∨ j = index ∨ j ∈ nested.map (·.index) := by
    intro j
    rw [hrecorded.claimed j, h.claimed j, hpayments, List.map_append, List.mem_append,
      List.map_cons, List.mem_cons]
    tauto
  refine ⟨hfree, (hiff index).mpr (.inr (.inl rfl)), ⟨nested, hpayments, hiff⟩, ?_⟩
  intro hquiet j hj
  have hd' := hquiet _ _ _ _ _ hreturns
  rw [hd']
  show (d._setClaimed index).isClaimed j = d.isClaimed j
  rw [isClaimed_setClaimed, decide_eq_false hj, Bool.false_or]

end Calls

/-! ## A token that calls back -/

/-- The hash of an entry of the index 257. -/
def leaf257 : Bytes32 :=
  ⟨Bytes.ofNumber 32 0xc77d845382469f9ada2001bcb67c2c6b52c601effccb28a0210696c467c51f66,
    Bytes.length_ofNumber 32 _⟩

/-- The value of the hash on the entry. -/
def keccakEntry : Keccak256 := fun s =>
  if s = encodePacked 257 1 100 then leaf257 else ⟨Bytes.ofNumber 32 0, Bytes.length_ofNumber 32 0⟩

/-- A distributor of this one entry, whose leaf is the root. -/
def deployed : MerkleDistributor where
  token := 201
  merkleRoot := leaf257
  owner := 50

/-- Called for a transfer, the token claims itself, and goes on when that reverts. -/
def claimingToken (keccak256 : Keccak256) (index : Word) (account : Address) (amount : Word)
    (merkleProof : List Bytes32) : Token := fun _ _ d =>
  match claim keccak256 (fun _ _ d => .ok (d, true)) index account amount merkleProof d with
  | .ok d' => .ok (d', true)
  | .error _ => .ok (d, true)

/-- A token that leaves the distributor alone reenters nothing. -/
theorem reenters_quiet {calls : MerkleDistributor → MerkleDistributor → Prop} :
    Reenters calls fun _ _ d => .ok (d, true) := by
  intro _ _ d d' _ hsame
  cases hsame
  exact .refl

/-- The token makes one call back. -/
theorem claimingToken_reenters {keccak256 : Keccak256} {index : Word} {account : Address}
    {amount : Word} {merkleProof : List Bytes32}
    {calls : MerkleDistributor → MerkleDistributor → Prop}
    (hcalls : ∀ d d',
      claim keccak256 (fun _ _ d => .ok (d, true)) index account amount merkleProof d =
      .ok d' → calls d d') :
    Reenters calls (claimingToken keccak256 index account amount merkleProof) := by
  intro token c d d' success hreturns
  unfold claimingToken at hreturns
  split at hreturns
  · rename_i d₁ hclaim
    cases hreturns
    exact .single (hcalls _ _ hclaim)
  · cases hreturns
    exact .refl

theorem paid_once_calling_back :
    ∃ d, (machine keccakEntry 200).ReachableBy (Reentrant keccakEntry 200) d ∧
      d.isClaimed 257 = true ∧ d.payments.length = 1 ∧ (d.payments.map (·.index)).Nodup := by
  have hrun : (machine keccakEntry 200).lastStep deployed []
      { sender := 2, token := claimingToken keccakEntry 257 1 100 [], op := .claim 257 1 100 [] }
      (fun _ d => d.isClaimed 257 = true ∧ d.payments.length = 1) = true := by
    decide +kernel
  obtain ⟨d, hstep, htest⟩ := TSys.lastStep_nil hrun
  obtain ⟨hclaimed, hlength⟩ := of_decide_eq_true htest
  have hreenters : Reenters (Calls keccakEntry 200 1) (claimingToken keccakEntry 257 1 100 []) :=
    claimingToken_reenters fun _ _ hclaim =>
      ⟨fun _ _ d => .ok (d, true), 1, .claim 257 1 100 [], reenters_quiet, hclaim⟩
  have hreach : (machine keccakEntry 200).ReachableBy (Reentrant keccakEntry 200) d :=
    .step (.init ⟨201, _, 50, rfl⟩) ⟨1, hreenters⟩ hstep
  exact ⟨d, hreach, hclaimed, hlength, (paid_once d hreach).1⟩

end Huski.Merkle
