import Huski.Lib.HashTree
import Huski.Merkle.Model

/-!
# The tree of a distribution

`merkle-tree.ts` and `balance-tree.ts`, which build the root that the distributor verifies against.
Buffers are compared byte by byte there, and as numbers in the contract; the last node of an odd
layer goes up as it is, and its proof has nothing for that layer.
-/

open Solidity

namespace Huski.Merkle

/-! ## `merkle-tree.ts` -/

/-- The sorted elements, their places, and the layers over them. -/
structure MerkleTree where
  elements : List Bytes32
  bufferElementPositionIndex : Bytes32 → Option Nat
  layers : List (List Bytes32)

namespace MerkleTree

variable (keccak256 : Keccak256)

/-- `Buffer.compare(a, b) <= 0` -/
def inOrder (a b : Bytes32) : Prop := ¬ b.val < a.val

instance : DecidableRel inOrder := fun a b => inferInstanceAs (Decidable (¬ b.val < a.val))

def sortAndConcat (first second : Bytes32) : List UInt8 :=
  if inOrder first second then first.val ++ second.val else second.val ++ first.val

/-- The second of a pair may be missing. -/
def combinedHash (first : Bytes32) : Option Bytes32 → Bytes32
  | none => first
  | some second => keccak256 (sortAndConcat first second)

/-- Equal neighbours are kept once. -/
def bufDedup (elements : List Bytes32) : List Bytes32 :=
  (elements.zipIdx.filter fun (el, idx) => idx = 0 || elements[idx - 1]? != some el).map (·.1)

/-- One step of the `reduce` in `getNextLayer`. -/
def pushPair (arr layer : List Bytes32) (entry : Bytes32 × Nat) : List Bytes32 :=
  let (el, idx) := entry
  if idx % 2 = 0 then layer ++ [combinedHash keccak256 el arr[idx + 1]?] else layer

/-- The layer above, from pairs of neighbours. -/
def getNextLayer (elements : List Bytes32) : List Bytes32 :=
  elements.zipIdx.foldl (pushPair keccak256 elements) []

/-- Two buffers hashed in order. -/
def join (a b : Bytes32) : Bytes32 := keccak256 (sortAndConcat a b)

theorem pushPair_even {arr layer : List Bytes32} {el : Bytes32} {idx : Nat} (h : idx % 2 = 0) :
    pushPair keccak256 arr layer (el, idx) =
      layer ++ [combinedHash keccak256 el arr[idx + 1]?] := if_pos h

theorem pushPair_odd {arr layer : List Bytes32} {el : Bytes32} {idx : Nat} (h : idx % 2 = 1) :
    pushPair keccak256 arr layer (el, idx) = layer := by
  refine if_neg ?_
  rw [h]
  exact Nat.one_ne_zero

/-- The loop over the rest of a layer, from an even position. -/
theorem foldl_pushPair (rest before layer : List Bytes32) (heven : before.length % 2 = 0) :
    (rest.zipIdx before.length).foldl (pushPair keccak256 (before ++ rest)) layer =
      layer ++ HashTree.nextLayer (join keccak256) rest := by
  induction hn : rest.length using Nat.strong_induction_on generalizing rest before layer with
  | _ n ih =>
      match rest, hn with
      | [], _ => exact (List.append_nil layer).symm
      | [a], _ =>
          -- the last node has no sibling and is passed on
          have hnone : (before ++ [a])[before.length + 1]? = none := by
            rw [List.getElem?_eq_none_iff, List.length_append, List.length_singleton]
          rw [List.zipIdx_cons, List.zipIdx_nil, List.foldl_cons, List.foldl_nil,
            pushPair_even keccak256 heven, hnone]
          rfl
      | a :: b :: rest, hn =>
          -- an even place hashes the pair, the odd one after it adds nothing
          have hsome : (before ++ a :: b :: rest)[before.length + 1]? = some b := by
            rw [List.getElem?_append_right (Nat.le_succ _), Nat.succ_sub (Nat.le_refl _),
              Nat.sub_self]
            rfl
          have hodd : (before.length + 1) % 2 = 1 := by omega
          have hbefore : (before ++ [a, b]).length = before.length + 1 + 1 := List.length_append
          have hsplit : before ++ a :: b :: rest = before ++ [a, b] ++ rest :=
            (List.append_assoc before [a, b] rest).symm
          have hshorter : rest.length < n := by
            rw [← hn, List.length_cons, List.length_cons]
            omega
          have hrest := ih rest.length hshorter rest (before ++ [a, b])
            (layer ++ [join keccak256 a b]) (by omega) rfl
          rw [hbefore] at hrest
          rw [List.zipIdx_cons, List.zipIdx_cons, List.foldl_cons, List.foldl_cons,
            pushPair_even keccak256 heven, pushPair_odd keccak256 hodd, hsome, hsplit]
          refine hrest.trans ?_
          rw [HashTree.nextLayer, List.append_assoc]
          rfl

theorem getNextLayer_eq (elements : List Bytes32) :
    getNextLayer keccak256 elements = HashTree.nextLayer (join keccak256) elements :=
  foldl_pushPair keccak256 elements [] [] rfl

/-- The loop of `getLayers`, after a layer was pushed. -/
def layersFrom (layer : List Bytes32) : List (List Bytes32) :=
  if layer.length > 1 then layer :: layersFrom (getNextLayer keccak256 layer) else [layer]
termination_by layer.length
decreasing_by
  rw [getNextLayer_eq, HashTree.length_nextLayer]
  omega

/-- All layers, up to the root. -/
def getLayers (elements : List Bytes32) : Result (List (List Bytes32)) := do
  require (elements.length ≠ 0) "empty tree"
  return layersFrom keccak256 elements

theorem layersFrom_eq (layer : List Bytes32) :
    layersFrom keccak256 layer = HashTree.layersOf (join keccak256) layer := by
  fun_induction layersFrom keccak256 layer with
  | case1 layer hlength ih => rw [HashTree.layersOf_of_gt hlength, ih, getNextLayer_eq]
  | case2 layer hlength => rw [HashTree.layersOf_of_le (Nat.not_lt.mp hlength)]

/-- The constructor. -/
def new (elements : List Bytes32) : Result MerkleTree := do
  let elements := bufDedup (elements.insertionSort inOrder)
  let layers ← getLayers keccak256 elements
  return {
    elements
    bufferElementPositionIndex := elements.zipIdx.foldl
      (fun memo (el, index) => Function.update memo el (some index)) fun _ => none
    layers }

/-- The last layer's element. -/
def getRoot (tree : MerkleTree) : Option Bytes32 := tree.layers.getLast?.bind (·.head?)

/-- The neighbour an element is joined with. -/
def getPairElement (idx : Nat) (layer : List Bytes32) : Option Bytes32 :=
  let pairIdx := if idx % 2 = 0 then idx + 1 else idx - 1
  layer[pairIdx]?

def getProof (tree : MerkleTree) (el : Bytes32) : Result (List Bytes32) :=
  match tree.bufferElementPositionIndex el with
  | none => .error "Element does not exist in Merkle tree"
  | some idx => .ok (tree.layers.foldl (fun (proof, idx) layer =>
      (proof ++ (getPairElement idx layer).toList, idx / 2)) (([] : List Bytes32), idx)).1

end MerkleTree

/-! ## `balance-tree.ts` -/

namespace BalanceTree

variable (keccak256 : Keccak256)

/-- `solidityPack` of a `uint256`, an `address` and a `uint256`. -/
def solidityPack (index : Nat) (account : Address) (amount : Nat) : List UInt8 :=
  Bytes.ofNumber 32 index ++ Bytes.ofNumber 20 account ++ Bytes.ofNumber 32 amount

/-- A number that is no word is not packed. -/
def toNode (index : Nat) (account : Address) (amount : Nat) : Result Bytes32 := do
  require (index < wordSize ∧ amount < wordSize) "value out of range"
  return keccak256 (solidityPack index account amount)

/-- The constructor. -/
def new (balances : List (Address × Nat)) : Result MerkleTree := do
  let nodes ← balances.zipIdx.mapM fun ((account, amount), index) =>
    toNode keccak256 index account amount
  MerkleTree.new keccak256 nodes

def getProof (tree : MerkleTree) (index : Nat) (account : Address) (amount : Nat) :
    Result (List Bytes32) := do
  let node ← toNode keccak256 index account amount
  tree.getProof node

end BalanceTree

/-! ## The strings that are hashed -/

section Strings

variable {a b c d : Bytes32} {index index' amount amount' : Nat} {account account' : Address}

/-- The builder and the contract order a pair in the same way. -/
theorem sortAndConcat_eq (a b : Bytes32) :
    MerkleTree.sortAndConcat a b = MerkleProof.sortedPair a b := by
  have hlength : b.val.length = a.val.length := by rw [b.property, a.property]
  have horder : MerkleTree.inOrder a b ↔ Bytes.number a ≤ Bytes.number b := by
    unfold MerkleTree.inOrder
    rw [Bytes.lt_iff_number_lt hlength, Nat.not_lt]
  unfold MerkleTree.sortAndConcat MerkleProof.sortedPair
  simp only [horder]

theorem sortedPair_comm (a b : Bytes32) :
    MerkleProof.sortedPair a b = MerkleProof.sortedPair b a := by
  unfold MerkleProof.sortedPair
  rcases Nat.lt_trichotomy (Bytes.number a) (Bytes.number b) with hlt | heq | hlt
  · rw [if_pos hlt.le, if_neg (Nat.not_le.mpr hlt)]
  · have hsame : a.val = b.val :=
      Bytes.number_inj (a.property.trans b.property.symm) heq
    rw [if_pos heq.le, if_pos heq.ge, hsame]
  · rw [if_neg (Nat.not_le.mpr hlt), if_pos hlt.le]

theorem length_sortedPair (a b : Bytes32) : (MerkleProof.sortedPair a b).length = 64 := by
  unfold MerkleProof.sortedPair
  split
  · rw [List.length_append, a.property, b.property]
  · rw [List.length_append, a.property, b.property]

theorem sortedPair_eq (a b : Bytes32) : ∃ x y : Bytes32, (x = a ∧ y = b ∨ x = b ∧ y = a) ∧
    MerkleProof.sortedPair a b = x.val ++ y.val := by
  unfold MerkleProof.sortedPair
  split
  · exact ⟨a, b, .inl ⟨rfl, rfl⟩, rfl⟩
  · exact ⟨b, a, .inr ⟨rfl, rfl⟩, rfl⟩

/-- A pair has only its own members. -/
theorem mem_of_sortedPair_eq (h : MerkleProof.sortedPair a b = MerkleProof.sortedPair c d) :
    a = c ∨ a = d := by
  obtain ⟨x, y, hab, hfirst⟩ := sortedPair_eq a b
  obtain ⟨z, w, hcd, hsecond⟩ := sortedPair_eq c d
  rw [hfirst, hsecond] at h
  obtain ⟨hxz, hyw⟩ := List.append_inj h (x.property.trans z.property.symm)
  have hx := Subtype.ext hxz
  have hy := Subtype.ext hyw
  rcases hab with ⟨rfl, _⟩ | ⟨_, rfl⟩ <;> rcases hcd with ⟨hz, hw⟩ | ⟨hz, hw⟩
  · exact .inl (hx.trans hz)
  · exact .inr (hx.trans hz)
  · exact .inr (hy.trans hw)
  · exact .inl (hy.trans hw)

theorem length_solidityPack (index : Nat) (account : Address) (amount : Nat) :
    (BalanceTree.solidityPack index account amount).length = 84 := by
  unfold BalanceTree.solidityPack
  rw [List.length_append, List.length_append, Bytes.length_ofNumber, Bytes.length_ofNumber,
    Bytes.length_ofNumber]

/-- No leaf string is a pair. -/
theorem solidityPack_ne_sortedPair (index : Nat) (account : Address) (amount : Nat)
    (a b : Bytes32) :
    BalanceTree.solidityPack index account amount ≠ MerkleProof.sortedPair a b := by
  intro h
  have hlength := congrArg List.length h
  rw [length_solidityPack, length_sortedPair] at hlength
  exact absurd hlength (by decide)

/-- An entry is determined by its leaf string. -/
theorem solidityPack_inj (hindex : index < wordSize) (hindex' : index' < wordSize)
    (hamount : amount < wordSize) (hamount' : amount' < wordSize)
    (h : BalanceTree.solidityPack index account amount =
      BalanceTree.solidityPack index' account' amount') :
    index = index' ∧ account = account' ∧ amount = amount' := by
  have hword : wordSize = 256 ^ 32 := by decide
  have haddress : ∀ a : Address, a.val < 256 ^ 20 := fun a => a.isLt
  rw [hword] at hindex hindex' hamount hamount'
  unfold BalanceTree.solidityPack at h
  obtain ⟨hfirst, hlast⟩ := List.append_inj h (by
    rw [List.length_append, List.length_append, Bytes.length_ofNumber, Bytes.length_ofNumber,
      Bytes.length_ofNumber, Bytes.length_ofNumber])
  obtain ⟨hfirst, hmiddle⟩ := List.append_inj hfirst (by
    rw [Bytes.length_ofNumber, Bytes.length_ofNumber])
  exact ⟨Bytes.ofNumber_inj hindex hindex' hfirst,
    Fin.ext (Bytes.ofNumber_inj (haddress account) (haddress account') hmiddle),
    Bytes.ofNumber_inj hamount hamount' hlast⟩

end Strings

/-! ## What is built -/

section Building

variable {keccak256 : Keccak256} {balances : List (Address × Nat)} {tree : MerkleTree}
  {el : Bytes32} {elements : List Bytes32}

/-- Removing repetitions keeps every element. -/
theorem mem_bufDedup : el ∈ MerkleTree.bufDedup elements ↔ el ∈ elements := by
  unfold MerkleTree.bufDedup
  constructor
  · intro h
    obtain ⟨⟨el', idx⟩, hmem, rfl⟩ := List.mem_map.mp h
    have hget := List.mem_zipIdx_iff_getElem?.mp (List.mem_filter.mp hmem).1
    exact List.mem_of_getElem? hget
  · intro h
    -- the first occurrence is kept
    have hsome : ∃ idx, elements[idx]? = some el := List.getElem?_of_mem h
    have hget := Nat.find_spec hsome
    refine List.mem_map.mpr ⟨(el, Nat.find hsome), List.mem_filter.mpr ⟨?_, ?_⟩, rfl⟩
    · exact List.mem_zipIdx_iff_getElem?.mpr hget
    · by_cases hzero : Nat.find hsome = 0
      · simp only [hzero, decide_true, Bool.true_or]
      · have hbefore : elements[Nat.find hsome - 1]? ≠ some el :=
          Nat.find_min hsome (Nat.sub_one_lt hzero)
        simp only [hzero, decide_false, Bool.false_or, bne_iff_ne, ne_eq]
        exact hbefore

/-- The index of positions, over the rest of the elements. -/
theorem foldl_position (rest : List Bytes32) (k : Nat) (memo : Bytes32 → Option Nat) :
    let position := (rest.zipIdx k).foldl
      (fun memo (el, index) => Function.update memo el (some index)) memo
    (el ∈ rest → ∃ i, position el = some (k + i) ∧ rest[i]? = some el) ∧
      (el ∉ rest → position el = memo el) := by
  induction rest generalizing k memo with
  | nil => exact ⟨fun h => (List.not_mem_nil h).elim, fun _ => rfl⟩
  | cons a rest ih =>
      obtain ⟨hfound, hother⟩ := ih (k + 1) (Function.update memo a (some k))
      rw [List.zipIdx_cons]
      refine ⟨fun h => ?_, fun h => ?_⟩
      · by_cases hrest : el ∈ rest
        · obtain ⟨i, hposition, hget⟩ := hfound hrest
          refine ⟨i + 1, ?_, hget⟩
          rw [Nat.add_right_comm, Nat.add_assoc] at hposition
          exact hposition
        · have hhead : el = a := (List.mem_cons.mp h).resolve_right hrest
          subst hhead
          refine ⟨0, ?_, rfl⟩
          exact (hother hrest).trans (Function.update_self _ _ _)
      · rw [List.mem_cons, not_or] at h
        exact (hother h.2).trans (Function.update_of_ne h.1 _ _)

/-- The proof of a position is its path. -/
theorem foldl_proof (layers : List (List Bytes32)) (proof : List Bytes32) (idx : Nat) :
    (layers.foldl (fun (proof, idx) layer =>
      (proof ++ (MerkleTree.getPairElement idx layer).toList, idx / 2)) (proof, idx)).1 =
        proof ++ HashTree.path idx layers := by
  induction layers generalizing proof idx with
  | nil => exact (List.append_nil proof).symm
  | cons layer layers ih =>
      rw [List.foldl_cons, ih, HashTree.path, List.append_assoc]
      rfl

theorem mapM_toNode {entries : List ((Address × Nat) × Nat)} {nodes : List Bytes32} :
    (entries.mapM fun ((account, amount), index) =>
      BalanceTree.toNode keccak256 index account amount) = .ok nodes ↔
    (∀ e ∈ entries, e.2 < wordSize ∧ e.1.2 < wordSize) ∧
      nodes = entries.map fun e =>
        keccak256 (BalanceTree.solidityPack e.2 e.1.1 e.1.2) := by
  induction entries generalizing nodes with
  | nil =>
      rw [List.mapM_nil, pure_eq_ok, List.map_nil]
      exact ⟨fun h => ⟨fun e he => (List.not_mem_nil he).elim, h.symm⟩, fun h => h.2.symm⟩
  | cons e entries ih =>
      simp only [List.mapM_cons, BalanceTree.toNode, bind_eq_ok, require_eq_ok, pure_eq_ok,
        List.mem_cons, forall_eq_or_imp, List.map_cons]
      constructor
      · rintro ⟨_, ⟨_, hrange, rfl⟩, rest, hrest, rfl⟩
        obtain ⟨hranges, rfl⟩ := ih.mp hrest
        exact ⟨⟨hrange, hranges⟩, rfl⟩
      · rintro ⟨⟨hrange, hranges⟩, rfl⟩
        exact ⟨_, ⟨(), hrange, rfl⟩, _, ih.mpr ⟨hranges, rfl⟩, rfl⟩

/-- The tree of a list of entries. -/
structure Builds (keccak256 : Keccak256) (balances : List (Address × Nat)) (tree : MerkleTree) :
    Prop where
  inRange : ∀ index account amount, balances[index]? = some (account, amount) →
    index < wordSize ∧ amount < wordSize
  nonempty : tree.elements ≠ []
  mem_elements : ∀ el, el ∈ tree.elements ↔ ∃ index account amount,
    balances[index]? = some (account, amount) ∧
      el = keccak256 (BalanceTree.solidityPack index account amount)
  layers : tree.layers = HashTree.layersOf (MerkleTree.join keccak256) tree.elements
  position : ∀ el ∈ tree.elements, ∃ idx, tree.bufferElementPositionIndex el = some idx ∧
    tree.elements[idx]? = some el

theorem elements_of_new (h : BalanceTree.new keccak256 balances = .ok tree) :
    tree.elements = MerkleTree.bufDedup ((balances.zipIdx.map fun e =>
      keccak256 (BalanceTree.solidityPack e.2 e.1.1 e.1.2)).insertionSort MerkleTree.inOrder) := by
  simp only [BalanceTree.new, MerkleTree.new, bind_eq_ok, pure_eq_ok] at h
  obtain ⟨nodes, hnodes, _, _, rfl⟩ := h
  rw [(mapM_toNode.mp hnodes).2]

/-- The constructor builds the tree of its balances. -/
theorem builds_of_new (h : BalanceTree.new keccak256 balances = .ok tree) :
    Builds keccak256 balances tree := by
  simp only [BalanceTree.new, MerkleTree.new, MerkleTree.getLayers, bind_eq_ok, require_eq_ok,
    pure_eq_ok] at h
  obtain ⟨nodes, hnodes, _, ⟨_, hlength, rfl⟩, rfl⟩ := h
  obtain ⟨hrange, rfl⟩ := mapM_toNode.mp hnodes
  refine ⟨fun index account amount hget => ?_, fun hnil => ?_, fun el => ?_, ?_, fun el hel => ?_⟩
  · exact hrange ((account, amount), index) (List.mem_zipIdx_iff_getElem?.mpr hget)
  · exact hlength (List.length_eq_zero_iff.mpr hnil)
  · dsimp only
    rw [mem_bufDedup, List.mem_insertionSort, List.mem_map]
    constructor
    · rintro ⟨⟨⟨account, amount⟩, index⟩, hmem, rfl⟩
      exact ⟨index, account, amount, List.mem_zipIdx_iff_getElem?.mp hmem, rfl⟩
    · rintro ⟨index, account, amount, hget, rfl⟩
      exact ⟨((account, amount), index), List.mem_zipIdx_iff_getElem?.mpr hget, rfl⟩
  · exact MerkleTree.layersFrom_eq keccak256 _
  · obtain ⟨i, hposition, hget⟩ := (foldl_position _ 0 fun _ => none).1 hel
    rw [Nat.zero_add] at hposition
    exact ⟨i, hposition, hget⟩

/-- A tree is built for every list that is not empty and whose numbers are words. -/
theorem new_isOk_iff : (∃ tree, BalanceTree.new keccak256 balances = .ok tree) ↔
    balances ≠ [] ∧ ∀ index account amount, balances[index]? = some (account, amount) →
      index < wordSize ∧ amount < wordSize := by
  constructor
  · rintro ⟨tree, h⟩
    have hbuilds := builds_of_new h
    refine ⟨?_, hbuilds.inRange⟩
    rintro rfl
    obtain ⟨el, rest, hcons⟩ := List.exists_cons_of_ne_nil hbuilds.nonempty
    have hel : el ∈ tree.elements := by
      rw [hcons]
      exact List.mem_cons_self
    obtain ⟨_, _, _, hget, _⟩ := (hbuilds.mem_elements el).mp hel
    cases hget
  · rintro ⟨hnonempty, hrange⟩
    simp only [BalanceTree.new, MerkleTree.new, MerkleTree.getLayers, bind_eq_ok, require_eq_ok,
      pure_eq_ok]
    refine ⟨_, _, mapM_toNode.mpr ⟨fun e he => ?_, rfl⟩, _, ⟨(), fun hlength => ?_, rfl⟩, rfl⟩
    · exact hrange e.2 e.1.1 e.1.2 (List.mem_zipIdx_iff_getElem?.mp he)
    · obtain ⟨entry, rest, rfl⟩ := List.exists_cons_of_ne_nil hnonempty
      have hnil := List.length_eq_zero_iff.mp hlength
      rw [List.zipIdx_cons, List.map_cons] at hnil
      -- the first balance's hash survives sorting and deduplication
      have hmem := mem_bufDedup.mpr ((List.mem_insertionSort MerkleTree.inOrder).mpr
        (List.mem_cons_self
        (a := keccak256 (BalanceTree.solidityPack 0 entry.1 entry.2))
        (l := (rest.zipIdx (0 + 1)).map fun e =>
          keccak256 (BalanceTree.solidityPack e.2 e.1.1 e.1.2))))
      rw [hnil] at hmem
      cases hmem

/-! ## Agreement -/

/-- The strings that are hashed to build the tree. -/
def builtStrings (balances : List (Address × Nat)) (tree : MerkleTree) : List (List UInt8) :=
  balances.zipIdx.map (fun e => BalanceTree.solidityPack e.2 e.1.1 e.1.2) ++
    tree.layers.flatMap (HashTree.pairs MerkleTree.sortAndConcat)

/-- The strings that are hashed to verify a proof. -/
def verifiedStrings (keccak256 : Keccak256) (index : Word) (account : Address) (amount : Word)
    (proof : List Bytes32) : List (List UInt8) :=
  encodePacked index account amount ::
    HashTree.climbed keccak256 MerkleProof.sortedPair
      (keccak256 (encodePacked index account amount)) proof

theorem join_eq (keccak256 : Keccak256) :
    MerkleTree.join keccak256 = fun a b => keccak256 (MerkleProof.sortedPair a b) := by
  funext a b
  exact congrArg keccak256 (sortAndConcat_eq a b)

theorem Builds.exists_root (h : Builds keccak256 balances tree) :
    ∃ root, tree.getRoot = some root := by
  obtain ⟨el, rest, hcons⟩ := List.exists_cons_of_ne_nil h.nonempty
  have hfirst : tree.elements[0]? = some el := by
    rw [hcons]
    rfl
  have hcomm : ∀ a b, MerkleTree.join keccak256 a b = MerkleTree.join keccak256 b a := by
    rw [join_eq]
    exact fun a b => congrArg keccak256 (sortedPair_comm a b)
  have hclimbs := HashTree.climb_path hcomm hfirst
  rw [← h.layers] at hclimbs
  exact ⟨_, hclimbs⟩

/-- The proof of an entry is accepted. -/
theorem Builds.verifies (h : Builds keccak256 balances tree) {root : Bytes32}
    (hroot : tree.getRoot = some root) {index : Nat} {account : Address} {amount : Nat}
    (hget : balances[index]? = some (account, amount)) :
    ∃ proof, BalanceTree.getProof keccak256 tree index account amount = .ok proof ∧
      verifyClaim keccak256 root (BitVec.ofNat 256 index) account (BitVec.ofNat 256 amount) proof =
        true := by
  obtain ⟨hindex, hamount⟩ := h.inRange index account amount hget
  have hel := (h.mem_elements _).mpr ⟨index, account, amount, hget, rfl⟩
  obtain ⟨idx, hposition, hidx⟩ := h.position _ hel
  have hcomm : ∀ a b, MerkleTree.join keccak256 a b = MerkleTree.join keccak256 b a := by
    rw [join_eq]
    exact fun a b => congrArg keccak256 (sortedPair_comm a b)
  have hclimbs := HashTree.climb_path hcomm hidx
  rw [← h.layers] at hclimbs
  refine ⟨HashTree.path idx tree.layers, ?_, ?_⟩
  · simp only [BalanceTree.getProof, BalanceTree.toNode, bind_eq_ok, require_eq_ok, pure_eq_ok]
    refine ⟨_, ⟨(), ⟨hindex, hamount⟩, rfl⟩, ?_⟩
    unfold MerkleTree.getProof
    rw [hposition]
    exact congrArg Except.ok (foldl_proof tree.layers [] idx)
  -- the contract packs words where the script packs numbers below 2^256
  · have hleaf : encodePacked (BitVec.ofNat 256 index) account (BitVec.ofNat 256 amount) =
        BalanceTree.solidityPack index account amount := by
      have hindexWord : index % 2 ^ 256 = index := Nat.mod_eq_of_lt hindex
      have hamountWord : amount % 2 ^ 256 = amount := Nat.mod_eq_of_lt hamount
      unfold encodePacked BalanceTree.solidityPack
      rw [BitVec.toNat_ofNat, BitVec.toNat_ofNat, hindexWord, hamountWord]
    have hsame : some root = some _ := hroot.symm.trans hclimbs
    rw [Option.some.injEq, join_eq] at hsame
    unfold verifyClaim MerkleProof.verify
    dsimp only
    rw [hleaf, hsame]
    exact decide_eq_true rfl

/-- What is accepted is an entry, where the hash has no collision on what was hashed. -/
theorem Builds.entry_of_verifies (h : Builds keccak256 balances tree) {root : Bytes32}
    (hroot : tree.getRoot = some root) {index : Word} {account : Address} {amount : Word}
    {proof : List Bytes32}
    (hinj : Set.InjOn keccak256 {s | s ∈ builtStrings balances tree ∨
      s ∈ verifiedStrings keccak256 index account amount proof})
    (hverifies : verifyClaim keccak256 root index account amount proof = true) :
    balances[index.toNat]? = some (account, amount.toNat) := by
  -- what the tree hashed: packed entries at its leaves, sorted pairs above
  let leaves : List UInt8 → Prop := fun s => ∃ index account amount,
    balances[index]? = some (account, amount) ∧ s = BalanceTree.solidityPack index account amount
  let inner : List UInt8 → Prop := fun s => ∃ l ∈ tree.layers,
    s ∈ HashTree.pairs MerkleProof.sortedPair l
  have hsorted : MerkleTree.sortAndConcat = MerkleProof.sortedPair := by
    funext a b
    exact sortAndConcat_eq a b
  have hnodes : ∀ node ∈ tree.elements,
      HashTree.Node keccak256 MerkleProof.sortedPair leaves inner node := by
    intro node hnode
    obtain ⟨i, a, m, hget, rfl⟩ := (h.mem_elements node).mp hnode
    exact .leaf ⟨i, a, m, hget, rfl⟩
  have hlayers := h.layers
  rw [join_eq] at hlayers
  have hrootNode : HashTree.Node keccak256 MerkleProof.sortedPair leaves inner root := by
    refine HashTree.node_root hnodes (fun l hl s hs => ⟨l, ?_, hs⟩) ?_
    · rw [hlayers]
      exact hl
    · rw [← hlayers]
      exact hroot
  have hclimbs : proof.foldl (fun a b => keccak256 (MerkleProof.sortedPair a b))
      (keccak256 (encodePacked index account amount)) = root := of_decide_eq_true hverifies
  rw [← hclimbs] at hrootNode
  have hleaf : leaves (encodePacked index account amount) := by
    -- a climb that ends in the root starts at a leaf, as lengths keep leaves and pairs apart
    refine HashTree.leaf_of_climb (fun a b c d => mem_of_sortedPair_eq) ?_
      (fun a b => solidityPack_ne_sortedPair _ _ _ a b) (hinj.mono fun s hs => ?_) hrootNode
    · rintro s ⟨i, a, m, _, rfl⟩ b c
      exact solidityPack_ne_sortedPair i a m b c
    · rcases hs with ⟨i, a, m, hget, rfl⟩ | ⟨l, hl, hs⟩ | rfl | hs
      · refine .inl (List.mem_append_left _ (List.mem_map.mpr ⟨((a, m), i), ?_, rfl⟩))
        exact List.mem_zipIdx_iff_getElem?.mpr hget
      · refine .inl (List.mem_append_right _ (List.mem_flatMap.mpr ⟨l, hl, ?_⟩))
        rw [hsorted]
        exact hs
      · exact .inr List.mem_cons_self
      · exact .inr (List.mem_cons_of_mem _ hs)
  obtain ⟨i, a, m, hget, hsame⟩ := hleaf
  obtain ⟨hi, hm⟩ := h.inRange i a m hget
  obtain ⟨rfl, rfl, rfl⟩ := solidityPack_inj index.isLt hi amount.isLt hm hsame
  exact hget

/-- The tree of a list of entries and the distributor agree: a tree is built for every list that is
not empty and whose numbers are words; the proof of each entry is accepted against its root; and
whatever is accepted against it, with a proof of any length, is an entry, unless the hash collides
on two strings that were hashed. -/
theorem accepted_iff_entry (keccak256 : Keccak256) (balances : List (Address × Nat)) :
    ((∃ tree, BalanceTree.new keccak256 balances = .ok tree) ↔ balances ≠ [] ∧
      ∀ index account amount, balances[index]? = some (account, amount) →
        index < wordSize ∧ amount < wordSize) ∧
    ∀ tree, BalanceTree.new keccak256 balances = .ok tree →
      ∃ root, tree.getRoot = some root ∧
        (∀ index account amount, balances[index]? = some (account, amount) →
          ∃ proof, BalanceTree.getProof keccak256 tree index account amount = .ok proof ∧
            verifyClaim keccak256 root (BitVec.ofNat 256 index) account (BitVec.ofNat 256 amount)
              proof = true) ∧
        ∀ index account amount proof,
          Set.InjOn keccak256 {s | s ∈ builtStrings balances tree ∨
            s ∈ verifiedStrings keccak256 index account amount proof} →
          verifyClaim keccak256 root index account amount proof = true →
            balances[index.toNat]? = some (account, amount.toNat) := by
  refine ⟨new_isOk_iff, fun tree hnew => ?_⟩
  have hbuilds := builds_of_new hnew
  obtain ⟨root, hroot⟩ := hbuilds.exists_root
  exact ⟨root, hroot, fun index account amount hget => hbuilds.verifies hroot hget,
    fun index account amount proof hinj => hbuilds.entry_of_verifies hroot hinj⟩

end Building

/-! ## Three entries -/

def threeBalances : List (Address × Nat) := [(1, 100), (2, 101), (3, 102)]

def word (n : Nat) : Bytes32 := ⟨Bytes.ofNumber 32 n, Bytes.length_ofNumber 32 n⟩

def leafOne : Bytes32 := word 0x77c4af02f395363011e95ba22ad6c668dd3f7e696302a6ebf0ef14c9dc6671b2
def leafTwo : Bytes32 := word 0xa24242ea1bbb44179ec4ffecf4ddf96df3ca0e0595e0d854bac3920831c05d9b
def leafThree : Bytes32 := word 0xdaf68544b082b7b18fff84d7757d7e0b0abaed283972e83a4edbaedda20d5f70
def innerNode : Bytes32 := word 0xeb1ab47e5a0fa0b1a08fbf5399b3ebcb4cf00daaee241cf0ecb8060142d5f1a7
def rootNode : Bytes32 := word 0x9b6f0fca198011bfd619bae59ca4eea484a22a8d7bd8fd6c712df54862cfc3ec

/-- The strings of the tree. -/
def fiveStrings : List (List UInt8) :=
  [BalanceTree.solidityPack 0 1 100, BalanceTree.solidityPack 1 2 101,
    BalanceTree.solidityPack 2 3 102, leafOne.val ++ leafTwo.val, leafThree.val ++ innerNode.val]

/-- The values of the hash on these strings. -/
def keccakTable : Keccak256 := fun s =>
  if s = BalanceTree.solidityPack 0 1 100 then leafOne
  else if s = BalanceTree.solidityPack 1 2 101 then leafTwo
  else if s = BalanceTree.solidityPack 2 3 102 then leafThree
  else if s = leafOne.val ++ leafTwo.val then innerNode
  else if s = leafThree.val ++ innerNode.val then rootNode
  else word 0

/-- The third leaf has no partner, and its proof has one element for three layers. -/
theorem layersOf_three : HashTree.layersOf (MerkleTree.join keccakTable)
    [leafOne, leafTwo, leafThree] =
      [[leafOne, leafTwo, leafThree], [innerNode, leafThree], [rootNode]] := by
  have hfirst : HashTree.nextLayer (MerkleTree.join keccakTable) [leafOne, leafTwo, leafThree] =
      [innerNode, leafThree] := by decide +kernel
  have hsecond : HashTree.nextLayer (MerkleTree.join keccakTable) [innerNode, leafThree] =
      [rootNode] := by decide +kernel
  rw [HashTree.layersOf_of_gt (by decide), hfirst, HashTree.layersOf_of_gt (by decide), hsecond,
    HashTree.layersOf_of_le (by decide)]

theorem accepted_iff_entry_three :
    ∃ tree root, BalanceTree.new keccakTable threeBalances = .ok tree ∧
      tree.getRoot = some root ∧ verifyClaim keccakTable root 2 3 102 [innerNode] = true ∧
      threeBalances[2]? = some (3, 102) := by
  obtain ⟨hbuilt, hagrees⟩ := accepted_iff_entry keccakTable threeBalances
  have hrange : ∀ index account amount, threeBalances[index]? = some (account, amount) →
      index < wordSize ∧ amount < wordSize := by
    intro index account amount hget
    match index, hget with
    | 0, hget | 1, hget | 2, hget =>
        cases hget
        decide
    | index + 3, hget => cases hget
  obtain ⟨tree, hnew⟩ := hbuilt.mpr ⟨List.cons_ne_nil _ _, hrange⟩
  obtain ⟨root, hroot, _, hentry⟩ := hagrees tree hnew
  have helements : tree.elements = [leafOne, leafTwo, leafThree] := by
    rw [elements_of_new hnew]
    decide +kernel
  have hlayers := (builds_of_new hnew).layers
  rw [helements, layersOf_three] at hlayers
  have hrootNode : root = rootNode := by
    unfold MerkleTree.getRoot at hroot
    rw [hlayers] at hroot
    exact (Option.some.inj hroot).symm
  subst hrootNode
  have haccepted : verifyClaim keccakTable rootNode 2 3 102 [innerNode] = true := by
    decide +kernel
  refine ⟨tree, rootNode, hnew, hroot, haccepted, hentry 2 3 102 [innerNode] ?_ haccepted⟩
  have hdistinct : ∀ s ∈ fiveStrings, ∀ t ∈ fiveStrings,
      keccakTable s = keccakTable t → s = t := by
    decide +kernel
  -- the hash table is injective on the few strings hashed here
  have hbuilds : ∀ s ∈ builtStrings threeBalances tree, s ∈ fiveStrings := by
    unfold builtStrings
    rw [hlayers]
    decide +kernel
  have hverifies : ∀ s ∈ verifiedStrings keccakTable 2 3 102 [innerNode], s ∈ fiveStrings := by
    decide +kernel
  have hstrings : ∀ s, s ∈ builtStrings threeBalances tree ∨
      s ∈ verifiedStrings keccakTable 2 3 102 [innerNode] → s ∈ fiveStrings :=
    fun s hs => hs.elim (hbuilds s) (hverifies s)
  intro s hs t ht hsame
  exact hdistinct s (hstrings s hs) t (hstrings t ht) hsame

end Huski.Merkle
