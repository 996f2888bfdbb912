import Mathlib

/-!
# Merkle trees with promoted nodes

The nodes of a layer are joined in pairs, and a node without a partner goes to the next layer as it
is. A path holds the sibling of each layer that has one. Joining does not depend on the order of
the two nodes, so that a path needs no directions: climbing the path of a node gives the root.

Conversely, what climbs to the root of a tree is a leaf of it, for any path, where the hash has no
collision on the strings that were hashed: the last join was one of the tree, and so on down to a
string that is no join.
-/

namespace HashTree

/-! ## Layers and paths -/

section Layers

variable {H : Type} (join : H → H → H)

/-- Neighbours are joined; a last node without one is kept. -/
def nextLayer : List H → List H
  | a :: b :: rest => join a b :: nextLayer rest
  | layer => layer

/-- A layer is half of the one below, rounded up. -/
theorem length_nextLayer (layer : List H) :
    (nextLayer join layer).length = (layer.length + 1) / 2 := by
  fun_induction nextLayer join layer with
  | case1 a b rest ih =>
      rw [List.length_cons, ih, List.length_cons, List.length_cons]
      omega
  | case2 layer hshort =>
      match layer, hshort with
      | [], _ => simp
      | [_], _ => simp
      | a :: b :: rest, hshort => exact absurd rfl (hshort a b rest)

/-- The layers over a layer, up to one with a single node. -/
def layersOf (layer : List H) : List (List H) :=
  if layer.length > 1 then layer :: layersOf (nextLayer join layer) else [layer]
termination_by layer.length
decreasing_by
  rw [length_nextLayer]
  omega

/-- The node of the last layer. -/
def root (layers : List (List H)) : Option H := layers.getLast?.bind List.head?

/-- The neighbour a node is joined with. -/
def sibling (idx : Nat) (layer : List H) : Option H :=
  layer[if idx % 2 = 0 then idx + 1 else idx - 1]?

/-- The siblings of a node, layer by layer. -/
def path : Nat → List (List H) → List H
  | _, [] => []
  | idx, layer :: layers => (sibling idx layer).toList ++ path (idx / 2) layers

variable {join} {layer : List H} {idx : Nat} {node r : H}

theorem layersOf_of_gt (h : layer.length > 1) :
    layersOf join layer = layer :: layersOf join (nextLayer join layer) := by
  rw [layersOf, if_pos h]

/-- A layer of one node is the last. -/
theorem layersOf_of_le (h : layer.length ≤ 1) : layersOf join layer = [layer] := by
  rw [layersOf, if_neg (Nat.not_lt.mpr h)]

theorem layersOf_ne_nil (layer : List H) : layersOf join layer ≠ [] := by
  rw [layersOf]
  split <;> exact List.cons_ne_nil _ _

theorem root_layersOf_of_gt (h : layer.length > 1) :
    root (layersOf join layer) = root (layersOf join (nextLayer join layer)) := by
  rw [layersOf_of_gt h]
  unfold root
  rw [List.getLast?_cons_of_ne_nil (layersOf_ne_nil _)]

/-- The parent of a node: joined with its sibling, or the node itself. -/
theorem getElem?_nextLayer (hcomm : ∀ a b, join a b = join b a) (h : layer[idx]? = some node) :
    (nextLayer join layer)[idx / 2]? = some ((sibling idx layer).toList.foldl join node) := by
  fun_induction nextLayer join layer generalizing idx with
  | case1 a b rest ih =>
      match idx, h with
      | 0, h =>
          cases h
          rfl
      | 1, h =>
          cases h
          -- a right child hashes with its sibling on the left, by the join's symmetry
          exact congrArg some (hcomm a node)
      -- past the first pair both layers are shifted, by two and by one
      | idx + 2, h =>
          have hhalf : (idx + 2) / 2 = idx / 2 + 1 := by omega
          have hsibling : sibling (idx + 2) (a :: b :: rest) = sibling idx rest := by
            unfold sibling
            rw [Nat.add_mod_right]
            split
            · rfl
            · rename_i hodd
              have hindex : idx + 2 - 1 = idx - 1 + 2 := by omega
              rw [hindex]
              rfl
          rw [hhalf, List.getElem?_cons_succ, hsibling]
          exact ih h
  -- a layer of at most one node is passed on
  | case2 layer hshort =>
      match layer, hshort, idx, h with
      | [], _, idx, h => cases h
      | [a], _, 0, h =>
          cases h
          rfl
      | [a], _, idx + 1, h => cases h
      | a :: b :: rest, hshort, _, _ => exact absurd rfl (hshort a b rest)

/-- Climbing the path of a node gives the root. -/
theorem climb_path (hcomm : ∀ a b, join a b = join b a) (h : layer[idx]? = some node) :
    root (layersOf join layer) = some ((path idx (layersOf join layer)).foldl join node) := by
  induction hn : layer.length using Nat.strong_induction_on generalizing layer idx node with
  | _ n ih =>
      subst hn
      by_cases hlength : layer.length > 1
      · have hshorter : (nextLayer join layer).length < layer.length := by
          rw [length_nextLayer]
          omega
        have hparent := ih _ hshorter (getElem?_nextLayer hcomm h) rfl
        rw [root_layersOf_of_gt hlength, hparent, layersOf_of_gt hlength, path, List.foldl_append]
      · have hle := Nat.not_lt.mp hlength
        obtain ⟨hidx, hget⟩ := List.getElem?_eq_some_iff.mp h
        have hzero : idx = 0 := by omega
        subst hzero
        have hsingle : layer = [node] := by
          have hone : layer.length = 1 := by omega
          obtain ⟨a, rfl⟩ := List.length_eq_one_iff.mp hone
          rw [List.getElem_cons_zero] at hget
          rw [hget]
        rw [layersOf_of_le hle, hsingle]
        rfl

end Layers

/-! ## What a root binds -/

section Binding

variable {S H : Type} (hash : S → H) (pair : H → H → S)

/-- The nodes of a tree: hashes of the leaf strings, and of the strings of two nodes that were
hashed for it. -/
inductive Node (leaves inner : S → Prop) : H → Prop
  | leaf {x} (hx : leaves x) : Node leaves inner (hash x)
  | inner {a b} (ha : Node leaves inner a) (hb : Node leaves inner b) (hpair : inner (pair a b)) :
      Node leaves inner (hash (pair a b))

/-- The strings that the next layer is hashed from. -/
def pairs : List H → List S
  | a :: b :: rest => pair a b :: pairs rest
  | _ => []

/-- The strings that climbing a path hashes. -/
def climbed : H → List H → List S
  | _, [] => []
  | node, sibling :: path => pair node sibling :: climbed (hash (pair node sibling)) path

variable {hash pair} {leaves inner : S → Prop} {layer : List H} {r node sibling : H} {x : S}

theorem climbed_concat (node : H) (path : List H) (sibling : H) :
    climbed hash pair node (path ++ [sibling]) = climbed hash pair node path ++
      [pair (path.foldl (fun a b => hash (pair a b)) node) sibling] := by
  induction path generalizing node with
  | nil => rfl
  | cons next path ih =>
      rw [List.cons_append, climbed, ih, climbed, List.foldl_cons, List.cons_append]

theorem node_nextLayer (hlayer : ∀ node ∈ layer, Node hash pair leaves inner node)
    (hpairs : ∀ s ∈ pairs pair layer, inner s) :
    ∀ node ∈ nextLayer (fun a b => hash (pair a b)) layer, Node hash pair leaves inner node := by
  fun_induction pairs pair layer with
  | case1 a b rest ih =>
      intro node hnode
      rw [nextLayer] at hnode
      rcases List.mem_cons.mp hnode with rfl | hnode
      · have ha := hlayer a List.mem_cons_self
        have hb := hlayer b (List.mem_cons_of_mem a List.mem_cons_self)
        exact .inner ha hb (hpairs _ List.mem_cons_self)
      · exact ih (fun n hn => hlayer n (List.mem_cons_of_mem a (List.mem_cons_of_mem b hn)))
          (fun s hs => hpairs s (List.mem_cons_of_mem _ hs)) node hnode
  | case2 layer hshort =>
      match layer, hshort with
      | [], _ => exact hlayer
      | [_], _ => exact hlayer
      | a :: b :: rest, hshort => exact absurd rfl (hshort a b rest)

/-- The root of the layers over nodes is a node. -/
theorem node_root (hlayer : ∀ node ∈ layer, Node hash pair leaves inner node)
    (hpairs : ∀ l ∈ layersOf (fun a b => hash (pair a b)) layer, ∀ s ∈ pairs pair l, inner s)
    (hroot : root (layersOf (fun a b => hash (pair a b)) layer) = some r) :
    Node hash pair leaves inner r := by
  induction hn : layer.length using Nat.strong_induction_on generalizing layer with
  | _ n ih =>
      subst hn
      by_cases hlength : layer.length > 1
      · have hshorter : (nextLayer (fun a b => hash (pair a b)) layer).length < layer.length := by
          rw [length_nextLayer]
          omega
        rw [layersOf_of_gt hlength] at hpairs
        rw [root_layersOf_of_gt hlength] at hroot
        exact ih _ hshorter (node_nextLayer hlayer (hpairs _ List.mem_cons_self))
          (fun l hl => hpairs l (List.mem_cons_of_mem _ hl)) hroot rfl
      · rw [layersOf_of_le (Nat.not_lt.mp hlength)] at hroot
        exact hlayer r (List.mem_of_mem_head? hroot)

/-- What climbs to a node of the tree from a string that is no pair is a leaf string, where the
hash is injective on the strings hashed. -/
theorem leaf_of_climb
    (hpair : ∀ a b c d, pair a b = pair c d → a = c ∨ a = d)
    (hleaves : ∀ y, leaves y → ∀ a b, y ≠ pair a b) (hx : ∀ a b, x ≠ pair a b) {path : List H}
    (hinj : Set.InjOn hash {s | leaves s ∨ inner s ∨ s = x ∨ s ∈ climbed hash pair (hash x) path})
    (hnode : Node hash pair leaves inner (path.foldl (fun a b => hash (pair a b)) (hash x))) :
    leaves x := by
  induction path using List.reverseRecOn with
  | nil =>
      -- a string that is hashed to an inner node would be a pair
      generalize hleaf : ([] : List H).foldl (fun a b => hash (pair a b)) (hash x) = node at hnode
      change hash x = node at hleaf
      cases hnode with
      | leaf hy =>
          have hsame := hinj (.inr (.inr (.inl rfl))) (.inl hy) hleaf
          rw [hsame]
          exact hy
      | inner _ _ hab =>
          have hsame := hinj (.inr (.inr (.inl rfl))) (.inr (.inl hab)) hleaf
          exact absurd hsame (hx _ _)
  | append_singleton path sibling ih =>
      have hconcat : climbed hash pair (hash x) (path ++ [sibling]) =
          climbed hash pair (hash x) path ++
            [pair (path.foldl (fun a b => hash (pair a b)) (hash x)) sibling] :=
        climbed_concat (hash x) path sibling
      have hbefore : Set.InjOn hash
          {s | leaves s ∨ inner s ∨ s = x ∨ s ∈ climbed hash pair (hash x) path} := by
        refine hinj.mono fun s hs => ?_
        rcases hs with hs | hs | hs | hs
        · exact .inl hs
        · exact .inr (.inl hs)
        · exact .inr (.inr (.inl hs))
        · refine .inr (.inr (.inr ?_))
          rw [hconcat]
          exact List.mem_append_left _ hs
      refine ih hbefore ?_
      rw [List.foldl_append] at hnode
      have hlast : pair (path.foldl (fun a b => hash (pair a b)) (hash x)) sibling ∈
          climbed hash pair (hash x) (path ++ [sibling]) := by
        rw [hconcat]
        exact List.mem_append_right _ List.mem_cons_self
      generalize hparent : [sibling].foldl (fun a b => hash (pair a b))
        (path.foldl (fun a b => hash (pair a b)) (hash x)) = node at hnode
      change hash (pair (path.foldl (fun a b => hash (pair a b)) (hash x)) sibling) = node
        at hparent
      cases hnode with
      | leaf hy =>
          have hsame := hinj (.inr (.inr (.inr hlast))) (.inl hy) hparent
          exact absurd hsame.symm (hleaves _ hy _ _)
      | inner ha hb hab =>
          have hsame := hinj (.inr (.inr (.inr hlast))) (.inr (.inl hab)) hparent
          rcases hpair _ _ _ _ hsame with heq | heq
          · rw [heq]
            exact ha
          · rw [heq]
            exact hb

end Binding

end HashTree
