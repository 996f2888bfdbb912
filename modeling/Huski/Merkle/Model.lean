import Huski.Lib.Bytes
import Huski.Lib.TSys

/-!
# The Merkle distributor

`MerkleDistributor.sol`. An entry (index, account, amount) of the distribution is paid to whoever
asks with a proof against the root; which indices were paid is kept in words of 256 bits. The hash
is a parameter, and so is what the token does when it is called: it may call the distributor again.

`payments` is a history variable: the transfers of claims, the newest first.
-/

open Solidity

namespace Huski.Merkle

/-- `uint256` -/
abbrev Word : Type := BitVec 256

/-- 32 bytes -/
abbrev Bytes32 : Type := { bytes : List UInt8 // bytes.length = 32 }

/-- The hash function of the chain. -/
abbrev Keccak256 : Type := List UInt8 → Bytes32

/-- `abi.encodePacked(index, account, amount)` -/
def encodePacked (index : Word) (account : Address) (amount : Word) : List UInt8 :=
  Bytes.ofNumber 32 index.toNat ++ Bytes.ofNumber 20 account ++ Bytes.ofNumber 32 amount.toNat

namespace MerkleProof

variable (keccak256 : Keccak256)

/-- `abi.encodePacked` of two words, the lower one first; words are compared as numbers. -/
def sortedPair (computedHash proofElement : Bytes32) : List UInt8 :=
  if Bytes.number computedHash ≤ Bytes.number proofElement then
    computedHash.val ++ proofElement.val
  else proofElement.val ++ computedHash.val

/-- OpenZeppelin's `MerkleProof.verify`. -/
def verify (proof : List Bytes32) (root leaf : Bytes32) : Bool :=
  proof.foldl (fun computedHash proofElement =>
    keccak256 (sortedPair computedHash proofElement)) leaf = root

end MerkleProof

/-- A payment of a claim. -/
structure Payment where
  index : Word
  account : Address
  amount : Word
  deriving DecidableEq

/-- The storage of the distributor, with the payments it made. -/
structure MerkleDistributor where
  token : Address
  merkleRoot : Bytes32
  owner : Address
  /-- a packed array of booleans -/
  claimedBitMap : Word → Word := fun _ => 0
  payments : List Payment := []

/-- A call of a token, by its call data in some form: what it leaves of the distributor, and the
boolean that it returns. -/
inductive TokenCall
  | transfer (recipient : Address) (amount : Word)
  | transferFrom (sender recipient : Address) (amount : Word)

/-- What a token does when it is called; it may call back. -/
abbrev Token : Type := Address → TokenCall → MerkleDistributor → Result (MerkleDistributor × Bool)

namespace MerkleDistributor

variable (d : MerkleDistributor)

/-- The bit of an index. -/
def isClaimed (index : Word) : Bool :=
  let claimedWordIndex := index / 256
  let claimedBitIndex := index % 256
  let claimedWord := d.claimedBitMap claimedWordIndex
  let mask := (1 : Word) <<< claimedBitIndex
  claimedWord &&& mask = mask

/-- The bit is set. -/
def _setClaimed (index : Word) : MerkleDistributor :=
  let claimedWordIndex := index / 256
  let claimedBitIndex := index % 256
  { d with
    claimedBitMap := Function.update d.claimedBitMap claimedWordIndex
      (d.claimedBitMap claimedWordIndex ||| (1 : Word) <<< claimedBitIndex) }

def pay (payment : Payment) : MerkleDistributor := { d with payments := payment :: d.payments }

def onlyOwner (sender : Address) : Result Unit :=
  require (d.owner = sender) "Ownable: caller is not the owner"

end MerkleDistributor

open MerkleDistributor

section Calls

variable (keccak256 : Keccak256) (call : Token) (sender : Address)

/-- What `claim` checks of its arguments. -/
def verifyClaim (merkleRoot : Bytes32) (index : Word) (account : Address) (amount : Word)
    (merkleProof : List Bytes32) : Bool :=
  let node := keccak256 (encodePacked index account amount)
  MerkleProof.verify keccak256 merkleProof merkleRoot node

/-- Check the bit and the proof, set the bit, and pay. -/
def claim (index : Word) (account : Address) (amount : Word) (merkleProof : List Bytes32)
    (d : MerkleDistributor) : Result MerkleDistributor := do
  require (d.isClaimed index = false) "MerkleDistributor::claim: drop already claimed"
  require (verifyClaim keccak256 d.merkleRoot index account amount merkleProof = true)
    "MerkleDistributor::claim: invalid proof"
  let d := (d._setClaimed index).pay { index, account, amount }
  let (d, success) ← call d.token (.transfer account amount) d
  require (success = true) "MerkleDistributor::claim: transfer failed"
  return d

/-- `safeTransfer` and `safeTransferFrom`. -/
def safeCall (token : Address) (c : TokenCall) (d : MerkleDistributor) :
    Result MerkleDistributor := do
  let (d, success) ← lowLevel "SafeERC20: low-level call failed" (call token c d)
  require (success = true) "SafeERC20: ERC20 operation did not succeed"
  return d

def deposit (this : Address) (amount : Word) (d : MerkleDistributor) :
    Result MerkleDistributor := do
  d.onlyOwner sender
  safeCall call d.token (.transferFrom sender this amount) d

def withdrawTokens (token : Address) (amount : Word) (d : MerkleDistributor) :
    Result MerkleDistributor := do
  d.onlyOwner sender
  safeCall call token (.transfer sender amount) d

def withdrawRewardTokens (amount : Word) (d : MerkleDistributor) : Result MerkleDistributor := do
  d.onlyOwner sender
  safeCall call d.token (.transfer sender amount) d

/-- The balance of the distributor comes with the call: `balanceOf` is a view. -/
def withdrawAllRewardTokens (balance : Word) (d : MerkleDistributor) :
    Result MerkleDistributor := do
  d.onlyOwner sender
  safeCall call d.token (.transfer sender balance) d

/-- `transferOwnership`, or `renounceOwnership` for the owner 0. -/
def setOwner (newOwner : Address) (d : MerkleDistributor) : Result MerkleDistributor := do
  d.onlyOwner sender
  return { d with owner := newOwner }

end Calls

/-! ## Runs -/

inductive Op
  | claim (index : Word) (account : Address) (amount : Word) (merkleProof : List Bytes32)
  | deposit (amount : Word)
  | withdrawTokens (token : Address) (amount : Word)
  | withdrawRewardTokens (amount : Word)
  | withdrawAllRewardTokens (balance : Word)
  | setOwner (newOwner : Address)

section Runs

variable (keccak256 : Keccak256) (this : Address)

def exec (call : Token) (sender : Address) (d : MerkleDistributor) : Op → Result MerkleDistributor
  | .claim index account amount merkleProof =>
      claim keccak256 call index account amount merkleProof d
  | .deposit amount => deposit call sender this amount d
  | .withdrawTokens token amount => withdrawTokens call sender token amount d
  | .withdrawRewardTokens amount => withdrawRewardTokens call sender amount d
  | .withdrawAllRewardTokens balance => withdrawAllRewardTokens call sender balance d
  | .setOwner newOwner => setOwner sender newOwner d

/-- A token that calls the distributor as often as it wants while it is called. -/
def Reenters (calls : MerkleDistributor → MerkleDistributor → Prop) (call : Token) : Prop :=
  ∀ token c d d' success, call token c d = .ok (d', success) → Relation.ReflTransGen calls d d'

/-- The calls of the distributor by anybody, with calls of tokens nested less than `n` deep. -/
def Calls : Nat → MerkleDistributor → MerkleDistributor → Prop
  | 0 => fun _ _ => False
  | n + 1 => fun d d' => ∃ call sender op, Reenters (Calls n) call ∧
      exec keccak256 this call sender d op = .ok d'

structure Tx where
  sender : Address
  token : Token
  op : Op

/-- The distributor as deployed. -/
def machine : TSys MerkleDistributor Tx where
  init d := ∃ token merkleRoot owner, d = { token, merkleRoot, owner }
  step d tx := exec keccak256 this tx.token tx.sender d tx.op

/-- The token does what tokens may do. -/
def Reentrant (_ : MerkleDistributor) (tx : Tx) : Prop :=
  ∃ n, Reenters (Calls keccak256 this n) tx.token

end Runs

end Huski.Merkle
