import Huski.Merkle.Claims
import Huski.Merkle.Tree

/-!
# From a list of balances to payments

`parse-balance-map.ts`, which makes the distribution: it reads addresses and amounts, refuses what
is no address, comes twice or is not positive, sorts by address, builds the tree and writes a claim
for each account. The order of the input does not matter. What `ethers` makes of strings is a
parameter; numbers are written as such and not as strings.
-/

open Solidity

namespace Huski.Merkle

/-! ## `parse-balance-map.ts` -/

/-- What `ethers` makes of strings. -/
structure Ethers where
  /-- the address that `isAddress` and `getAddress` read, if there is one -/
  address : String → Option Address
  /-- the string that `getAddress` writes -/
  checksum : Address → String
  /-- `BigNumber.from` -/
  bigNumber : String → Result Int

namespace Ethers

variable (e : Ethers)

def isAddress (account : String) : Bool := (e.address account).isSome

def readAddress (account : String) : Result Address :=
  match e.address account with
  | some a => .ok a
  | none => .error "invalid address"

def getAddress (account : String) : Result String := do
  let a ← e.readAddress account
  return e.checksum a

/-- The checksum of an address is a string for it. -/
def Lawful : Prop :=
  ∀ account a, e.address account = some a → e.address (e.checksum a) = some a

end Ethers

/-- An entry of the newer format. -/
structure NewFormat where
  address : String
  earnings : String
  reasons : String
  deriving DecidableEq

/-- `number | string`, for whole numbers -/
inductive Earnings
  | number (n : Int)
  | string (s : String)

/-- `toString(16)` -/
def Earnings.toString16 : Earnings → String
  | .number n => (if n < 0 then "-" else "") ++ String.ofList (Nat.toDigits 16 n.natAbs)
  | .string s => s

/-- `OldFormat | NewFormat[]` -/
inductive Balances
  | old (balances : List (String × Earnings))
  | new (balances : List NewFormat)

def Balances.inNewFormat : Balances → List NewFormat
  | .new balances => balances
  | .old balances => balances.map fun (account, earnings) =>
      { address := account, earnings := "0x" ++ earnings.toString16, reasons := "" }

/-- What the reasons of an entry say. -/
structure Flags where
  isSOCKS : Bool
  isLP : Bool
  isUser : Bool

structure Data where
  amount : Nat
  flags : Option Flags

/-- `String.prototype.includes` -/
def includes (s part : String) : Bool := part.toList <:+: s.toList

/-- The amount of an entry, and what its reasons say. -/
def dataOf (reasons : String) (amount : Nat) : Data :=
  let flags : Flags :=
    { isSOCKS := includes reasons "socks"
      isLP := includes reasons "lp"
      isUser := includes reasons "user" }
  { amount, flags := if reasons = "" then none else some flags }

/-- An object with addresses as keys, in the order in which they were written. -/
abbrev Memo : Type := List (String × Data)

/-- What an account has to show. -/
structure Claim where
  index : Nat
  amount : Nat
  proof : List Bytes32
  flags : Option Flags

/-- What the script writes. -/
structure MerkleDistributorInfo where
  merkleRoot : Bytes32
  tokenTotal : Nat
  claims : List (String × Claim)

section Parsing

variable (e : Ethers) (keccak256 : Keccak256)

/-- The first `reduce`. -/
def addBalance (memo : Memo) (entry : NewFormat) : Result Memo := do
  require (e.isAddress entry.address) ("Found invalid address: " ++ entry.address)
  let parsed ← e.getAddress entry.address
  require (memo.lookup parsed = none) ("Duplicate address: " ++ parsed)
  let parsedNum ← e.bigNumber entry.earnings
  require (¬ parsedNum ≤ 0) ("Invalid amount for account: " ++ entry.address)
  return memo ++ [(parsed, dataOf entry.reasons parsedNum.toNat)]

/-- `dataByAddress[address]` -/
def dataAt (memo : Memo) (address : String) : Result Data :=
  match memo.lookup address with
  | some data => .ok data
  | none => .error "undefined"

/-- The account is hashed as the address that its string stands for. -/
def balanceAt (data : String → Result Data) (address : String) : Result (Address × Nat) := do
  let d ← data address
  let account ← e.readAddress address
  return (account, d.amount)

/-- The second `reduce`. -/
def claimAt (data : String → Result Data) (tree : MerkleTree) :
    String × Nat → Result (String × Claim)
  | (address, index) => do
      let d ← data address
      let account ← e.readAddress address
      let proof ← BalanceTree.getProof keccak256 tree index account d.amount
      return (address, { index, amount := d.amount, proof, flags := d.flags })

/-- The third `reduce`. -/
def addAmount (data : String → Result Data) (total : Nat) (key : String) : Result Nat := do
  let d ← data key
  return total + d.amount

/-- The tree over the sorted accounts, and the claims with their proofs. -/
def infoOf (sortedAddresses : List String) (data : String → Result Data) :
    Result MerkleDistributorInfo := do
  let balances ← sortedAddresses.mapM (balanceAt e data)
  let tree ← BalanceTree.new keccak256 balances
  let claims ← sortedAddresses.zipIdx.mapM (claimAt e keccak256 data tree)
  let tokenTotal ← sortedAddresses.foldlM (addAmount data) 0
  match tree.getRoot with
  | some merkleRoot => return { merkleRoot, tokenTotal, claims }
  | none => .error "undefined"

/-- `Object.keys(dataByAddress).sort()` -/
def sortedAddresses (memo : Memo) : List String := (memo.map (·.1)).insertionSort (· ≤ ·)

/-- Read every entry, sort the accounts and write their claims. -/
def parseBalanceMap (balances : Balances) : Result MerkleDistributorInfo := do
  let dataByAddress ← balances.inNewFormat.foldlM (addBalance e) []
  infoOf e keccak256 (sortedAddresses dataByAddress) (dataAt dataByAddress)

end Parsing

/-! ## What is read -/

section Reading

variable {e : Ethers} {keccak256 : Keccak256} {memo memo' : Memo} {rows rows' : Memo}
  {entries entries' : List NewFormat} {key : String} {data : Data}

/-- An entry and what is written for it. -/
def Row (e : Ethers) (entry : NewFormat) (row : String × Data) : Prop :=
  ∃ a n, e.address entry.address = some a ∧ e.bigNumber entry.earnings = .ok n ∧ 0 < n ∧
    row = (e.checksum a, dataOf entry.reasons n.toNat)

theorem readAddress_eq_ok {account : String} {a : Address} :
    e.readAddress account = .ok a ↔ e.address account = some a := by
  unfold Ethers.readAddress
  cases e.address account with
  | none => simp
  | some b => simp

theorem lookup_eq_none_iff : memo.lookup key = none ↔ key ∉ memo.map (·.1) := by
  rw [List.lookup_eq_none_iff, List.mem_map]
  constructor
  · rintro h ⟨row, hrow, rfl⟩
    simpa using h row hrow
  · intro h row hrow
    have hne : key ≠ row.1 := fun hkey => h ⟨row, hrow, hkey.symm⟩
    simpa using hne

theorem addBalance_eq_ok {entry : NewFormat} : addBalance e memo entry = .ok memo' ↔
    ∃ row, Row e entry row ∧ row.1 ∉ memo.map (·.1) ∧ memo' = memo ++ [row] := by
  simp only [addBalance, Ethers.getAddress, bind_eq_ok, require_eq_ok, pure_eq_ok,
    readAddress_eq_ok]
  constructor
  · rintro ⟨_, _, _, ⟨a, ha, rfl⟩, _, hfresh, n, hn, _, hpositive, rfl⟩
    refine ⟨_, ⟨a, n, ha, hn, by omega, rfl⟩, lookup_eq_none_iff.mp hfresh, rfl⟩
  · rintro ⟨_, ⟨a, n, ha, hn, hpositive, rfl⟩, hfresh, rfl⟩
    refine ⟨(), ?_, _, ⟨a, ha, rfl⟩, (), lookup_eq_none_iff.mpr hfresh, n, hn, (), by omega, rfl⟩
    unfold Ethers.isAddress
    rw [ha]
    rfl

/-- The entries are read one by one, and no key is written twice. -/
theorem foldlM_addBalance : entries.foldlM (addBalance e) memo = .ok memo' ↔
    ∃ rows, List.Forall₂ (Row e) entries rows ∧ (rows.map (·.1)).Nodup ∧
      (∀ key ∈ rows.map (·.1), key ∉ memo.map (·.1)) ∧ memo' = memo ++ rows := by
  induction entries generalizing memo with
  | nil =>
      simp only [List.foldlM_nil, pure_eq_ok, List.forall₂_nil_left_iff]
      constructor
      · rintro rfl
        exact ⟨[], rfl, List.nodup_nil, by simp, by simp⟩
      -- no entry left
      · rintro ⟨rows, rfl, _, _, rfl⟩
        simp
  | cons entry entries ih =>
      simp only [List.foldlM_cons, bind_eq_ok, addBalance_eq_ok, ih]
      constructor
      -- the first key is new to the memo, and the others are apart from it
      · rintro ⟨_, ⟨row, hrow, hfresh, rfl⟩, rows, hrows, hnodup, hapart, rfl⟩
        simp only [List.map_append, List.map_cons, List.map_nil, List.mem_append,
          List.mem_singleton, not_or] at hapart
        refine ⟨row :: rows, .cons hrow hrows, ?_, ?_, by simp⟩
        · rw [List.map_cons, List.nodup_cons]
          exact ⟨fun hmem => (hapart _ hmem).2 rfl, hnodup⟩
        · intro key hkey
          rw [List.map_cons, List.mem_cons] at hkey
          rcases hkey with rfl | hkey
          · exact hfresh
          · exact (hapart key hkey).1
      · rintro ⟨_, hall, hnodup, hapart, rfl⟩
        obtain ⟨row, rows, hrow, hrows, rfl⟩ := List.forall₂_cons_left_iff.mp hall
        rw [List.map_cons, List.nodup_cons] at hnodup
        simp only [List.map_cons, List.mem_cons, forall_eq_or_imp] at hapart
        refine ⟨_, ⟨row, hrow, hapart.1, rfl⟩, rows, hrows, hnodup.2, ?_, by simp⟩
        intro key hkey
        simp only [List.map_append, List.map_cons, List.map_nil, List.mem_append,
          List.mem_singleton, not_or]
        refine ⟨hapart.2 key hkey, ?_⟩
        rintro rfl
        exact hnodup.1 hkey

theorem read_eq_ok : entries.foldlM (addBalance e) [] = .ok memo ↔
    List.Forall₂ (Row e) entries memo ∧ (memo.map (·.1)).Nodup := by
  rw [foldlM_addBalance]
  constructor
  · rintro ⟨rows, hrows, hnodup, _, rfl⟩
    exact ⟨hrows, hnodup⟩
  · rintro ⟨hrows, hnodup⟩
    exact ⟨memo, hrows, hnodup, by simp, rfl⟩

/-! ## The order of the entries -/

theorem lookup_eq_some_iff (hnodup : (memo.map (·.1)).Nodup) :
    memo.lookup key = some data ↔ (key, data) ∈ memo := by
  induction memo with
  | nil => simp
  | cons row memo ih =>
      rw [List.map_cons, List.nodup_cons] at hnodup
      rw [List.lookup_cons, List.mem_cons]
      by_cases hkey : key = row.1
      · subst hkey
        have hrest : (row.1, data) ∉ memo := fun hmem =>
          hnodup.1 (List.mem_map.mpr ⟨_, hmem, rfl⟩)
        simp [hrest, Prod.ext_iff, eq_comm]
      · have hbeq : (key == row.1) = false := by simpa using hkey
        have hne : ¬(key, data) = row := fun h => hkey (congrArg Prod.fst h)
        simp [hbeq, ih hnodup.2, hne]

end Reading

/-! ## What is written -/

section Writing

variable {e : Ethers} {keccak256 : Keccak256} {memo : Memo} {data : String → Result Data}
  {keys : List String} {balances : List (Address × Nat)} {tree : MerkleTree}

theorem mapM_eq_ok {α β : Type} {f : α → Result β} {l : List α} {l' : List β} :
    l.mapM f = .ok l' ↔ List.Forall₂ (fun a b => f a = .ok b) l l' := by
  induction l generalizing l' with
  | nil =>
      rw [List.mapM_nil, pure_eq_ok, List.forall₂_nil_left_iff]
      exact eq_comm
  | cons a l ih =>
      simp only [List.mapM_cons, bind_eq_ok, pure_eq_ok, List.forall₂_cons_left_iff, ih]
      constructor
      · rintro ⟨b, hb, rest, hrest, rfl⟩
        exact ⟨b, rest, hb, hrest, rfl⟩
      · rintro ⟨b, rest, hb, hrest, rfl⟩
        exact ⟨b, hb, rest, hrest, rfl⟩

theorem dataAt_eq_ok {key : String} {d : Data} (hnodup : (memo.map (·.1)).Nodup) :
    dataAt memo key = .ok d ↔ (key, d) ∈ memo := by
  rw [← lookup_eq_some_iff hnodup]
  unfold dataAt
  cases memo.lookup key with
  | none => simp
  | some d' => simp

theorem balanceAt_eq_ok {key : String} {balance : Address × Nat} :
    balanceAt e data key = .ok balance ↔
      ∃ d, data key = .ok d ∧ e.address key = some balance.1 ∧ balance.2 = d.amount := by
  simp only [balanceAt, bind_eq_ok, pure_eq_ok, readAddress_eq_ok]
  constructor
  · rintro ⟨d, hd, account, haccount, rfl⟩
    exact ⟨d, hd, haccount, rfl⟩
  · rintro ⟨d, hd, haccount, hamount⟩
    exact ⟨d, hd, balance.1, haccount, Prod.ext rfl hamount.symm⟩

/-- The total is that of the balances. -/
theorem foldlM_addAmount {total total' : Nat}
    (hbalances : List.Forall₂ (fun key balance => balanceAt e data key = .ok balance) keys balances)
    (h : keys.foldlM (addAmount data) total = .ok total') :
    total' = total + (balances.map (·.2)).sum := by
  induction hbalances generalizing total with
  | nil =>
      simp only [List.foldlM_nil, pure_eq_ok] at h
      simp [h]
  | cons hfirst _ ih =>
      obtain ⟨d, hd, _, hamount⟩ := balanceAt_eq_ok.mp hfirst
      simp only [List.foldlM_cons, addAmount, bind_eq_ok, pure_eq_ok] at h
      obtain ⟨_, ⟨d', hd', rfl⟩, hrest⟩ := h
      rw [hd, Except.ok.injEq] at hd'
      subst hd'
      rw [ih hrest, List.map_cons, List.sum_cons, hamount, Nat.add_assoc]

/-- What was written for the rows that were read. -/
structure Written (e : Ethers) (keccak256 : Keccak256) (memo : Memo)
    (balances : List (Address × Nat)) (tree : MerkleTree) (info : MerkleDistributorInfo) :
    Prop where
  built : BalanceTree.new keccak256 balances = .ok tree
  root : tree.getRoot = some info.merkleRoot
  total : info.tokenTotal = (balances.map (·.2)).sum
  balances : List.Forall₂ (fun key balance => balanceAt e (dataAt memo) key = .ok balance)
    (sortedAddresses memo) balances
  claims : List.Forall₂
    (fun entry claim => claimAt e keccak256 (dataAt memo) tree entry = .ok claim)
    (sortedAddresses memo).zipIdx info.claims

/-- What is written is the tree of the sorted accounts. -/
theorem written_of_infoOf {info : MerkleDistributorInfo}
    (h : infoOf e keccak256 (sortedAddresses memo) (dataAt memo) = .ok info) :
    ∃ balances tree, Written e keccak256 memo balances tree info := by
  simp only [infoOf, bind_eq_ok] at h
  obtain ⟨balances, hbalances, tree, htree, claims, hclaims, total, htotal, h⟩ := h
  have hbalances := mapM_eq_ok.mp hbalances
  have htotal := foldlM_addAmount hbalances htotal
  rw [Nat.zero_add] at htotal
  refine ⟨balances, tree, ?_⟩
  split at h
  · rename_i root hroot
    rw [pure_eq_ok] at h
    subst h
    exact ⟨htree, hroot, htotal, hbalances, mapM_eq_ok.mp hclaims⟩
  · cases h

theorem mem_sortedAddresses {key : String} : key ∈ sortedAddresses memo ↔ key ∈ memo.map (·.1) := by
  unfold sortedAddresses
  exact List.mem_insertionSort _

section Lists

variable {α β : Type} {R : α → β → Prop} {l : List α} {l' : List β}

theorem exists_right_of_forall₂ (h : List.Forall₂ R l l') {a : α} (ha : a ∈ l) :
    ∃ b ∈ l', R a b := by
  induction h with
  | nil => cases ha
  | cons hfirst _ ih =>
      rcases List.mem_cons.mp ha with rfl | ha
      · exact ⟨_, List.mem_cons_self, hfirst⟩
      · obtain ⟨b, hb, hrest⟩ := ih ha
        exact ⟨b, List.mem_cons_of_mem _ hb, hrest⟩

theorem exists_left_of_forall₂ (h : List.Forall₂ R l l') {b : β} (hb : b ∈ l') :
    ∃ a ∈ l, R a b :=
  exists_right_of_forall₂ h.flip hb

theorem exists_forall₂ (h : ∀ a ∈ l, ∃ b, R a b) : ∃ l', List.Forall₂ R l l' := by
  induction l with
  | nil => exact ⟨[], .nil⟩
  | cons a l ih =>
      obtain ⟨b, hb⟩ := h a List.mem_cons_self
      obtain ⟨l', hl'⟩ := ih fun a ha => h a (List.mem_cons_of_mem _ ha)
      exact ⟨b :: l', .cons hb hl'⟩

end Lists

/-- A row and the account that its key stands for. -/
theorem Row.account {entry : NewFormat} {row : String × Data} (hlawful : e.Lawful)
    (h : Row e entry row) {account : Address} (haccount : e.address row.1 = some account) :
    e.address entry.address = some account ∧ row.1 = e.checksum account := by
  obtain ⟨a, n, ha, _, _, rfl⟩ := h
  have hsame := hlawful _ _ ha
  rw [haccount, Option.some.injEq] at hsame
  subst hsame
  exact ⟨ha, rfl⟩

section Accounts

variable {entries : List NewFormat}
  (hbalances : List.Forall₂ (fun key balance => balanceAt e (dataAt memo) key = .ok balance)
    (sortedAddresses memo) balances)

include hbalances

/-- The keys are the checksums of the accounts, in the same order. -/
theorem checksums_accounts (hlawful : e.Lawful) (hrows : List.Forall₂ (Row e) entries memo) :
    balances.map (fun balance => e.checksum balance.1) = sortedAddresses memo := by
  have hkey : ∀ key ∈ sortedAddresses memo, ∀ account, e.address key = some account →
      key = e.checksum account := by
    intro key hkey account haccount
    obtain ⟨row, hrow, rfl⟩ := List.mem_map.mp (mem_sortedAddresses.mp hkey)
    obtain ⟨entry, _, hread⟩ := exists_left_of_forall₂ hrows hrow
    exact (hread.account hlawful haccount).2
  have hall := (List.forall₂_and_left _ _).mpr ⟨hkey, hbalances⟩
  have hsame : List.Forall₂ (· = ·) (sortedAddresses memo)
      (balances.map fun balance => e.checksum balance.1) := by
    refine List.forall₂_map_right_iff.mpr (hall.imp ?_)
    rintro key balance ⟨hkey, hbalance⟩
    obtain ⟨_, _, haccount, _⟩ := balanceAt_eq_ok.mp hbalance
    exact hkey balance.1 haccount
  rw [List.forall₂_eq_eq_eq] at hsame
  exact hsame.symm

theorem nodup_accounts (hlawful : e.Lawful) (hrows : List.Forall₂ (Row e) entries memo)
    (hnodup : (memo.map (·.1)).Nodup) : (balances.map (·.1)).Nodup := by
  have hsorted : (sortedAddresses memo).Nodup := (List.perm_insertionSort _ _).nodup_iff.mpr hnodup
  rw [← checksums_accounts hbalances hlawful hrows] at hsorted
  refine List.Nodup.of_map e.checksum ?_
  rw [List.map_map]
  exact hsorted

/-- The balance at the position of a key. -/
theorem balanceAt_of_get (hlawful : e.Lawful) (hrows : List.Forall₂ (Row e) entries memo)
    {index : Nat} {account : Address} {amount : Nat}
    (hget : balances[index]? = some (account, amount)) :
    (sortedAddresses memo)[index]? = some (e.checksum account) ∧
      balanceAt e (dataAt memo) (e.checksum account) = .ok (account, amount) := by
  have hkey : (sortedAddresses memo)[index]? = some (e.checksum account) := by
    rw [← checksums_accounts hbalances hlawful hrows, List.getElem?_map, hget]
    rfl
  refine ⟨hkey, ?_⟩
  obtain ⟨hlt, hkeyAt⟩ := List.getElem?_eq_some_iff.mp hkey
  obtain ⟨hlt', hbalanceAt⟩ := List.getElem?_eq_some_iff.mp hget
  have hat := (List.forall₂_iff_get.mp hbalances).2 index hlt hlt'
  simp only [List.get_eq_getElem, hkeyAt, hbalanceAt] at hat
  exact hat

end Accounts

namespace Written

variable {info : MerkleDistributorInfo} {entries : List NewFormat}
  (h : Written e keccak256 memo balances tree info)

include h

/-- The balances are the entries. -/
theorem mem_balances (hlawful : e.Lawful) (hrows : List.Forall₂ (Row e) entries memo)
    (hnodup : (memo.map (·.1)).Nodup) (account : Address) (amount : Nat) :
    (account, amount) ∈ balances ↔ ∃ entry ∈ entries, e.address entry.address = some account ∧
      e.bigNumber entry.earnings = .ok (amount : Int) ∧ 0 < amount := by
  constructor
  · intro hmem
    obtain ⟨key, _, hbalance⟩ := exists_left_of_forall₂ h.balances hmem
    obtain ⟨d, hdata, haccount, hamount⟩ := balanceAt_eq_ok.mp hbalance
    obtain ⟨entry, hentry, hread⟩ :=
      exists_left_of_forall₂ hrows ((dataAt_eq_ok hnodup).mp hdata)
    have hsame := (hread.account hlawful haccount).1
    obtain ⟨a, n, _, hn, hpositive, hrow⟩ := hread
    have hd : d = dataOf entry.reasons n.toNat := congrArg Prod.snd hrow
    have hvalue : n.toNat = amount := by
      rw [hd] at hamount
      exact hamount.symm
    -- a positive number is what its natural part says
    have hint : (amount : Int) = n := by omega
    rw [hint]
    exact ⟨entry, hentry, hsame, hn, by omega⟩
  · rintro ⟨entry, hentry, haddress, hearnings, hpositive⟩
    obtain ⟨row, hrow, a, n, ha, hn, _, rfl⟩ := exists_right_of_forall₂ hrows hentry
    rw [haddress, Option.some.injEq] at ha
    rw [hearnings, Except.ok.injEq] at hn
    subst ha
    subst hn
    -- the entry's row stands under the checksum of its account
    have hkey : e.checksum account ∈ sortedAddresses memo :=
      mem_sortedAddresses.mpr (List.mem_map.mpr ⟨_, hrow, rfl⟩)
    obtain ⟨⟨account', amount'⟩, hmem, hbalance⟩ := exists_right_of_forall₂ h.balances hkey
    obtain ⟨d, hdata, haccount', hamount'⟩ := balanceAt_eq_ok.mp hbalance
    rw [hlawful _ _ haddress, Option.some.injEq] at haccount'
    rw [(dataAt_eq_ok hnodup).mpr hrow, Except.ok.injEq] at hdata
    subst hdata
    have hsame : (account', amount') = (account, amount) :=
      Prod.ext haccount'.symm (hamount'.trans (Int.toNat_natCast amount))
    rwa [hsame] at hmem

end Written

/-- What a successful parse read and wrote. -/
theorem parse_eq_ok {b : Balances} {info : MerkleDistributorInfo}
    (h : parseBalanceMap e keccak256 b = .ok info) :
    ∃ memo balances tree, List.Forall₂ (Row e) b.inNewFormat memo ∧ (memo.map (·.1)).Nodup ∧
      Written e keccak256 memo balances tree info := by
  simp only [parseBalanceMap, bind_eq_ok] at h
  obtain ⟨memo, hread, hinfo⟩ := h
  obtain ⟨hrows, hnodup⟩ := read_eq_ok.mp hread
  obtain ⟨balances, tree, hwritten⟩ := written_of_infoOf hinfo
  exact ⟨memo, balances, tree, hrows, hnodup, hwritten⟩

/-! ## What is refused -/

/-- The keys are the checksums of what was read. -/
theorem keys_of_rows {entries : List NewFormat} (hrows : List.Forall₂ (Row e) entries memo) :
    (entries.map fun entry => e.address entry.address).map (Option.map e.checksum) =
      (memo.map (·.1)).map some := by
  induction hrows with
  | nil => rfl
  | cons hfirst _ ih =>
      obtain ⟨a, n, ha, _, _, rfl⟩ := hfirst
      simp only [List.map_cons, ih, ha, Option.map_some]

theorem nodup_keys (hlawful : e.Lawful) {entries : List NewFormat}
    (hrows : List.Forall₂ (Row e) entries memo)
    (hnodup : (entries.map fun entry => e.address entry.address).Nodup) :
    (memo.map (·.1)).Nodup := by
  refine List.Nodup.of_map some ?_
  rw [← keys_of_rows hrows]
  refine hnodup.map_on ?_
  intro x hx y hy hsame
  obtain ⟨entry, hentry, rfl⟩ := List.mem_map.mp hx
  obtain ⟨entry', hentry', rfl⟩ := List.mem_map.mp hy
  obtain ⟨_, _, a, _, ha, _⟩ := exists_right_of_forall₂ hrows hentry
  obtain ⟨_, _, a', _, ha', _⟩ := exists_right_of_forall₂ hrows hentry'
  rw [ha, ha', Option.map_some, Option.map_some, Option.some.injEq] at hsame
  rw [ha, ha', ← hlawful _ _ ha, ← hlawful _ _ ha', hsame]

/-- There are fewer accounts than words. -/
theorem length_lt_of_nodup (hnodup : (balances.map (·.1)).Nodup) : balances.length < wordSize := by
  have hcard := hnodup.length_le_card
  rw [List.length_map, Fintype.card_fin] at hcard
  exact hcard.trans_lt (by decide)

/-- Entries that were read can be written. -/
theorem infoOf_isOk (keccak256 : Keccak256) (hlawful : e.Lawful) {entries : List NewFormat}
    (hrows : List.Forall₂ (Row e) entries memo) (hnodup : (memo.map (·.1)).Nodup)
    (hnonempty : memo ≠ []) (hwords : ∀ row ∈ memo, row.2.amount < wordSize) :
    ∃ info, infoOf e keccak256 (sortedAddresses memo) (dataAt memo) = .ok info := by
  have hrow : ∀ key ∈ sortedAddresses memo, ∃ d account, dataAt memo key = .ok d ∧
      (key, d) ∈ memo ∧ e.address key = some account := by
    intro key hkey
    obtain ⟨row, hrow, rfl⟩ := List.mem_map.mp (mem_sortedAddresses.mp hkey)
    obtain ⟨entry, _, a, _, ha, _, _, rfl⟩ := exists_left_of_forall₂ hrows hrow
    exact ⟨_, a, (dataAt_eq_ok hnodup).mpr hrow, hrow, hlawful _ _ ha⟩
  obtain ⟨balances, hbalances⟩ : ∃ balances, List.Forall₂
      (fun key balance => balanceAt e (dataAt memo) key = .ok balance) (sortedAddresses memo)
        balances := by
    refine exists_forall₂ ?_
    intro key hkey
    obtain ⟨d, account, hd, _, haccount⟩ := hrow key hkey
    exact ⟨(account, d.amount), balanceAt_eq_ok.mpr ⟨d, hd, haccount, rfl⟩⟩
  have haccounts := nodup_accounts hbalances hlawful hrows hnodup
  have hlength := length_lt_of_nodup haccounts
  -- the tree is built
  have hrange : ∀ index account amount, balances[index]? = some (account, amount) →
      index < wordSize ∧ amount < wordSize := by
    intro index account amount hget
    obtain ⟨hkey, hbalance⟩ := balanceAt_of_get hbalances hlawful hrows hget
    obtain ⟨d, hdata, _, hamount⟩ := balanceAt_eq_ok.mp hbalance
    obtain ⟨hindex, _⟩ := List.getElem?_eq_some_iff.mp hget
    change amount = d.amount at hamount
    rw [hamount]
    exact ⟨hindex.trans hlength, hwords _ ((dataAt_eq_ok hnodup).mp hdata)⟩
  have hsome : balances ≠ [] := by
    rintro rfl
    have hnil := List.forall₂_nil_right_iff.mp hbalances
    obtain ⟨row, rest, rfl⟩ := List.exists_cons_of_ne_nil hnonempty
    have hmem : row.1 ∈ sortedAddresses (row :: rest) :=
      mem_sortedAddresses.mpr (List.mem_map.mpr ⟨row, List.mem_cons_self, rfl⟩)
    rw [hnil] at hmem
    cases hmem
  obtain ⟨tree, htree⟩ := new_isOk_iff.mpr ⟨hsome, hrange⟩
  have hbuilt : Builds keccak256 balances tree := builds_of_new htree
  obtain ⟨root, hroot⟩ := hbuilt.exists_root
  -- every claim has a proof
  obtain ⟨claims, hclaims⟩ : ∃ claims, List.Forall₂
      (fun entry claim => claimAt e keccak256 (dataAt memo) tree entry = .ok claim)
        (sortedAddresses memo).zipIdx claims := by
    refine exists_forall₂ ?_
    rintro ⟨key, index⟩ hmem
    have hkey := List.mem_zipIdx_iff_getElem?.mp hmem
    obtain ⟨hlt, _⟩ := List.getElem?_eq_some_iff.mp hkey
    have hlt' : index < balances.length := hbalances.length_eq ▸ hlt
    have hget : balances[index]? = some (balances[index].1, balances[index].2) :=
      List.getElem?_eq_getElem hlt'
    obtain ⟨hkey', hbalance⟩ := balanceAt_of_get hbalances hlawful hrows hget
    rw [hkey, Option.some.injEq] at hkey'
    change key = _ at hkey'
    rw [← hkey'] at hbalance
    obtain ⟨d, hdata, haccount, hamount⟩ := balanceAt_eq_ok.mp hbalance
    obtain ⟨proof, hproof, _⟩ := hbuilt.verifies hroot hget
    change balances[index].2 = d.amount at hamount
    rw [hamount] at hproof
    simp only [claimAt, bind_eq_ok, pure_eq_ok, readAddress_eq_ok]
    exact ⟨_, d, hdata, _, haccount, proof, hproof, rfl⟩
  have hadd : ∀ (keys : List String) total,
      (∀ key ∈ keys, ∃ d, dataAt memo key = .ok d) →
      ∃ total', keys.foldlM (addAmount (dataAt memo)) total = .ok total' := by
    intro keys
    induction keys with
    | nil => exact fun total _ => ⟨total, rfl⟩
    | cons key keys ih =>
        intro total hkeys
        obtain ⟨d, hd⟩ := hkeys key List.mem_cons_self
        obtain ⟨total', hrest⟩ := ih (total + d.amount) fun key hkey =>
          hkeys key (List.mem_cons_of_mem _ hkey)
        refine ⟨total', ?_⟩
        simp only [List.foldlM_cons, addAmount, bind_eq_ok, pure_eq_ok]
        exact ⟨_, ⟨d, hd, rfl⟩, hrest⟩
  obtain ⟨total, htotal⟩ := hadd (sortedAddresses memo) 0 fun key hkey => by
    obtain ⟨d, _, hd, _⟩ := hrow key hkey
    exact ⟨d, hd⟩
  simp only [infoOf, bind_eq_ok]
  refine ⟨{ merkleRoot := root, tokenTotal := total, claims }, balances, mapM_eq_ok.mpr hbalances,
    tree, htree, claims, mapM_eq_ok.mpr hclaims, total, htotal, ?_⟩
  rw [hroot]
  rfl

/-- Well-formed entries are parsed. -/
theorem parse_isOk (keccak256 : Keccak256) (hlawful : e.Lawful) {b : Balances}
    (hnonempty : b.inNewFormat ≠ [])
    (hentries : ∀ entry ∈ b.inNewFormat, ∃ a n, e.address entry.address = some a ∧
      e.bigNumber entry.earnings = .ok n ∧ 0 < n ∧ n < (wordSize : Int))
    (hnodup : (b.inNewFormat.map fun entry => e.address entry.address).Nodup) :
    ∃ info, parseBalanceMap e keccak256 b = .ok info := by
  obtain ⟨memo, hrows⟩ : ∃ memo, List.Forall₂ (Row e) b.inNewFormat memo := by
    refine exists_forall₂ ?_
    intro entry hentry
    obtain ⟨a, n, ha, hn, hpositive, _⟩ := hentries entry hentry
    exact ⟨_, a, n, ha, hn, hpositive, rfl⟩
  have hkeys := nodup_keys hlawful hrows hnodup
  have hsome : memo ≠ [] := by
    rintro rfl
    exact hnonempty (List.forall₂_nil_right_iff.mp hrows)
  have hwords : ∀ row ∈ memo, row.2.amount < wordSize := by
    intro row hrow
    obtain ⟨entry, hentry, _, n, _, hn, _, rfl⟩ := exists_left_of_forall₂ hrows hrow
    obtain ⟨_, n', _, hn', hpositive, hlt⟩ := hentries entry hentry
    rw [hn, Except.ok.injEq] at hn'
    subst hn'
    show n.toNat < wordSize
    omega
  obtain ⟨info, hinfo⟩ := infoOf_isOk keccak256 hlawful hrows hkeys hsome hwords
  refine ⟨info, ?_⟩
  simp only [parseBalanceMap, bind_eq_ok]
  exact ⟨memo, read_eq_ok.mpr ⟨hrows, hkeys⟩, hinfo⟩

/-- A list of balances is parsed if and only if it has entries, each with an address and a positive
word, and no two with the same address. -/
theorem parseBalanceMap_isOk_iff (e : Ethers) (hlawful : e.Lawful) (keccak256 : Keccak256)
    (b : Balances) : (∃ info, parseBalanceMap e keccak256 b = .ok info) ↔
      b.inNewFormat ≠ [] ∧
      (∀ entry ∈ b.inNewFormat, ∃ a n, e.address entry.address = some a ∧
        e.bigNumber entry.earnings = .ok n ∧ 0 < n ∧ n < (wordSize : Int)) ∧
      (b.inNewFormat.map fun entry => e.address entry.address).Nodup := by
  constructor
  · rintro ⟨info, hparse⟩
    obtain ⟨memo, balances, tree, hrows, hkeys, hwritten⟩ := parse_eq_ok hparse
    have hbuilt := builds_of_new hwritten.built
    -- a tree has an element, its numbers fit a word, and the memo repeats no key
    refine ⟨?_, ?_, ?_⟩
    · intro hnil
      obtain ⟨hsome, _⟩ := new_isOk_iff.mp ⟨tree, hwritten.built⟩
      obtain ⟨⟨account, amount⟩, rest, rfl⟩ := List.exists_cons_of_ne_nil hsome
      obtain ⟨entry, hentry, _⟩ :=
        (hwritten.mem_balances hlawful hrows hkeys account amount).mp List.mem_cons_self
      rw [hnil] at hentry
      cases hentry
    · intro entry hentry
      obtain ⟨_, _, a, n, ha, hn, hpositive, _⟩ := exists_right_of_forall₂ hrows hentry
      have hcast : ((n.toNat : Nat) : Int) = n := Int.toNat_of_nonneg hpositive.le
      have hmem := (hwritten.mem_balances hlawful hrows hkeys a n.toNat).mpr
        ⟨entry, hentry, ha, by rw [hcast, hn], by omega⟩
      obtain ⟨index, hget⟩ := List.getElem?_of_mem hmem
      have hword := (hbuilt.inRange index a n.toNat hget).2
      exact ⟨a, n, ha, hn, hpositive, by omega⟩
    · refine List.Nodup.of_map (Option.map e.checksum) ?_
      rw [keys_of_rows hrows]
      exact hkeys.map (Option.some_injective _)
  · rintro ⟨hnonempty, hentries, hnodup⟩
    exact parse_isOk keccak256 hlawful hnonempty hentries hnodup

end Writing

/-! ## Payments -/

section Payments

variable {keccak256 : Keccak256} {this sender : Address} {balances : List (Address × Nat)}
  {tree : MerkleTree} {root : Bytes32} {call : Token} {d d' : MerkleDistributor}

theorem Reenters.mono {calls calls' : MerkleDistributor → MerkleDistributor → Prop}
    (hsub : ∀ d d', calls d d' → calls' d d') (h : Reenters calls call) : Reenters calls' call :=
  fun token c d d' success hcall =>
    Relation.ReflTransGen.mono hsub d d' (h token c d d' success hcall)

/-- The payments are entries. -/
def Lists (balances : List (Address × Nat)) (d : MerkleDistributor) : Prop :=
  ∀ p ∈ d.payments, balances[p.index.toNat]? = some (p.account, p.amount.toNat)

/-- Under the root of the tree only entries are paid. -/
structure Stays (balances : List (Address × Nat)) (root : Bytes32) (d d' : MerkleDistributor) :
    Prop where
  same : d'.merkleRoot = d.merkleRoot
  lists : d.merkleRoot = root → Lists balances d → Lists balances d'

theorem Stays.refl : Stays balances root d d := ⟨rfl, fun _ h => h⟩

theorem Stays.trans {d₁ : MerkleDistributor} (h : Stays balances root d d₁)
    (h' : Stays balances root d₁ d') : Stays balances root d d' where
  same := h'.same.trans h.same
  lists hroot hlists := h'.lists (h.same.trans hroot) (h.lists hroot hlists)

end Payments

def accountOne : String := "0x0000000000000000000000000000000000000001"
def accountTwo : String := "0x0000000000000000000000000000000000000002"

/-- `ethers` on the strings of two accounts and two amounts. -/
def ethersTable : Ethers where
  address s := if s = accountOne then some 1 else if s = accountTwo then some 2 else none
  checksum a := if a = 1 then accountOne else accountTwo
  bigNumber s := if s = "0x64" then .ok 100 else if s = "0x65" then .ok 101 else .error "invalid"

theorem ethersTable_lawful : ethersTable.Lawful := by
  intro account a h
  simp only [ethersTable] at h
  split at h
  · cases h
    decide +kernel
  · split at h
    · cases h
      decide +kernel
    · cases h

def oldBalances : Balances :=
  .old [(accountTwo, .number 101), (accountOne, .number 100)]

theorem inNewFormat_oldBalances :
    oldBalances.inNewFormat = [⟨accountTwo, "0x65", ""⟩, ⟨accountOne, "0x64", ""⟩] := by
  decide +kernel

theorem oldBalances_entries : ∀ entry ∈ oldBalances.inNewFormat, ∃ a n,
    ethersTable.address entry.address = some a ∧ ethersTable.bigNumber entry.earnings = .ok n ∧
      0 < n ∧ n < (wordSize : Int) := by
  rw [inNewFormat_oldBalances]
  intro entry hentry
  rcases List.mem_cons.mp hentry with rfl | hentry
  · exact ⟨2, 101, by decide +kernel, by rfl, by decide, by decide⟩
  · rw [List.mem_singleton] at hentry
    subst hentry
    exact ⟨1, 100, by decide +kernel, by rfl, by decide, by decide⟩

theorem oldBalances_nodup :
    (oldBalances.inNewFormat.map fun entry => ethersTable.address entry.address).Nodup := by
  decide +kernel

/-- Both accounts of the old format are read. -/
theorem parseBalanceMap_isOk_iff_two :
    ∃ info, parseBalanceMap ethersTable keccakTable oldBalances = .ok info :=
  (parseBalanceMap_isOk_iff ethersTable ethersTable_lawful keccakTable oldBalances).mpr
    ⟨List.cons_ne_nil _ _, oldBalances_entries, oldBalances_nodup⟩

end Huski.Merkle
