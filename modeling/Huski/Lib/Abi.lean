import Huski.Lib.Checked

/-!
# ABI encoding of tuples

The data a call returns is a sequence of 32-byte words. A tuple is encoded head first: a
value type as its word, a dynamic member as the offset in bytes of its place in the tail.
A decoder reads the words at the positions that its own declaration gives, and nothing in
the data says by which declaration it was encoded.
-/

namespace Abi

open Solidity

/-- A member of a tuple: a value type as its word, or `bytes` or a `string`. -/
inductive Value
  | word (w : Nat)
  | bytes (data : List UInt8)

/-- The first 32 bytes as a big-endian word, filled up with zeros on the right. -/
def packWord (data : List UInt8) : Nat :=
  (List.range 32).foldl (fun w i => w * 256 + (data.getD i 0).toNat) 0

/-- Bytes are padded to whole words. -/
def packWords (data : List UInt8) : List Nat :=
  (List.range ((data.length + 31) / 32)).map fun i => packWord (data.drop (32 * i))

/-- What a member puts into the tail: nothing, or its length and its data. -/
def tail : Value → List Nat
  | .word _ => []
  | .bytes data => data.length :: packWords data

/-- The head of the members, when their tails begin at the word `offset`. -/
def heads : Nat → List Value → List Nat
  | _, [] => []
  | offset, .word w :: rest => w :: heads offset rest
  | offset, .bytes data :: rest => 32 * offset :: heads (offset + (tail (.bytes data)).length) rest

/-- The heads of all members, then the tails of the dynamic ones. -/
def encodeTuple (members : List Value) : List Nat :=
  heads members.length members ++ members.flatMap tail

/-- Decode a tuple of `count` value types: the first words of the data, of which there
must be enough. -/
def decodeWords (count : Nat) (data : List Nat) : Result (List Nat) := do
  require (count ≤ data.length) ""
  return data.take count

/-! ## What a decoder reads -/

variable {members : List Value} {offset i w : Nat}

theorem length_heads (offset : Nat) (members : List Value) :
    (heads offset members).length = members.length := by
  induction members generalizing offset with
  | nil => rfl
  | cons v rest ih =>
      cases v with
      | word w => rw [heads, List.length_cons, List.length_cons, ih]
      | bytes data => rw [heads, List.length_cons, List.length_cons, ih]

theorem length_le_encodeTuple : members.length ≤ (encodeTuple members).length := by
  rw [encodeTuple, List.length_append, length_heads]
  exact Nat.le_add_right _ _

/-- A value type stands in the head as it is. -/
theorem heads_word (h : members[i]? = some (.word w)) : (heads offset members)[i]? = some w := by
  induction members generalizing offset i with
  | nil => cases h
  | cons v rest ih =>
      cases i with
      | zero =>
          cases h
          rfl
      | succ i =>
          rw [List.getElem?_cons_succ] at h
          cases v <;> exact ih h

/-- The word of a value type is at the position of its member, whatever the other members
are. -/
theorem encodeTuple_word (h : members[i]? = some (.word w)) :
    (encodeTuple members)[i]? = some w := by
  obtain ⟨hi, _⟩ := List.getElem?_eq_some_iff.mp h
  rw [encodeTuple, List.getElem?_append_left (by rwa [length_heads])]
  exact heads_word h

/-- A dynamic first member leaves the size of the head in its place. -/
theorem encodeTuple_bytes {data : List UInt8} {rest : List Value} :
    (encodeTuple (.bytes data :: rest))[0]? = some (32 * (rest.length + 1)) := rfl

/-- What a decoder finds at the position of a value type. -/
theorem getD_take_encodeTuple {count : Nat} (hi : i < count)
    (h : (encodeTuple members)[i]? = some w) :
    ((encodeTuple members).take count).getD i 0 = w := by
  rw [List.getD_eq_getElem?_getD, List.getElem?_take_of_lt hi, h, Option.getD_some]

/-- A decoder of no more words than there are members gets the words at their positions. -/
theorem decodeWords_encodeTuple {count : Nat} (h : count ≤ members.length) :
    decodeWords count (encodeTuple members) = .ok ((encodeTuple members).take count) := by
  have hle : count ≤ (encodeTuple members).length := h.trans length_le_encodeTuple
  rw [decodeWords, require, if_pos hle]
  rfl

/-! ## What the encoding determines -/

section Injective

variable {f g : Nat → UInt8} {n : Nat} {data data' : List UInt8} {rest rest' : List Nat}

/-- The bytes of a big-endian word are determined by the word. -/
theorem bytes_eq_of_word_eq
    (h : (List.range n).foldl (fun w i => w * 256 + (f i).toNat) 0 =
      (List.range n).foldl (fun w i => w * 256 + (g i).toNat) 0) : ∀ i < n, f i = g i := by
  induction n with
  | zero =>
      intro i hi
      exact absurd hi (Nat.not_lt_zero i)
  | succ n ih =>
      rw [List.range_succ, List.foldl_append, List.foldl_append] at h
      simp only [List.foldl_cons, List.foldl_nil] at h
      have hf := (f n).toNat_lt
      have hg := (g n).toNat_lt
      have hlast : (f n).toNat = (g n).toNat := by omega
      intro i hi
      rcases Nat.lt_succ_iff_lt_or_eq.mp hi with hlt | rfl
      · exact ih (by omega) i hlt
      · exact UInt8.toNat_inj.mp hlast

theorem length_packWords (data : List UInt8) :
    (packWords data).length = (data.length + 31) / 32 := by
  rw [packWords, List.length_map, List.length_range]

/-- Data of a known length is determined by its words. -/
theorem eq_of_packWords_eq (hlength : data.length = data'.length)
    (h : packWords data = packWords data') : data = data' := by
  refine List.ext_getElem hlength fun i hi hi' => ?_
  have hword : packWord (data.drop (32 * (i / 32))) = packWord (data'.drop (32 * (i / 32))) := by
    have hget : (packWords data)[i / 32]? = (packWords data')[i / 32]? := by rw [h]
    have hlt : i / 32 < (data.length + 31) / 32 := by omega
    rw [packWords, packWords, List.getElem?_map, List.getElem?_map, ← hlength,
      List.getElem?_range hlt] at hget
    exact Option.some.inj hget
  have hbyte := bytes_eq_of_word_eq hword (i % 32) (Nat.mod_lt i (by decide))
  rw [List.getD_eq_getElem?_getD, List.getD_eq_getElem?_getD, List.getElem?_drop,
    List.getElem?_drop, Nat.div_add_mod, List.getElem?_eq_getElem hi,
    List.getElem?_eq_getElem hi'] at hbyte
  exact hbyte

/-- The tail of a dynamic member says where it ends. -/
theorem tail_bytes_inj (h : tail (.bytes data) ++ rest = tail (.bytes data') ++ rest') :
    data = data' ∧ rest = rest' := by
  rw [tail, tail, List.cons_append, List.cons_append, List.cons.injEq] at h
  obtain ⟨hlength, hwords⟩ := h
  have hcount : (packWords data).length = (packWords data').length := by
    rw [length_packWords, length_packWords, hlength]
  obtain ⟨hpacked, hrest⟩ := List.append_inj hwords hcount
  exact ⟨eq_of_packWords_eq hlength hpacked, hrest⟩

/-- Whether a member has its data in the tail. -/
def Value.dynamic : Value → Bool
  | .word _ => false
  | .bytes _ => true

theorem heads_tails_inj {members' : List Value}
    (htypes : members.map Value.dynamic = members'.map Value.dynamic)
    (hheads : heads offset members = heads offset members')
    (htails : members.flatMap tail = members'.flatMap tail) : members = members' := by
  induction members generalizing offset members' with
  | nil => exact (List.map_eq_nil_iff.mp htypes.symm).symm
  | cons v rest ih =>
      cases members' with
      | nil => cases htypes
      | cons v' rest' =>
          rw [List.map_cons, List.map_cons, List.cons.injEq] at htypes
          rw [List.flatMap_cons, List.flatMap_cons] at htails
          obtain ⟨htype, htypes⟩ := htypes
          cases v with
          | word w =>
              cases v' with
              | word w' =>
                  rw [heads, heads, List.cons.injEq] at hheads
                  rw [hheads.1, ih htypes hheads.2 htails]
              | bytes data' => cases htype
          | bytes data =>
              cases v' with
              | word w' => cases htype
              | bytes data' =>
                  obtain ⟨rfl, hrest⟩ := tail_bytes_inj htails
                  rw [heads, heads, List.cons.injEq] at hheads
                  rw [ih htypes hheads.2 hrest]

/-- Tuples of the same types with the same encoding are the same. -/
theorem encodeTuple_inj {members' : List Value}
    (htypes : members.map Value.dynamic = members'.map Value.dynamic)
    (h : encodeTuple members = encodeTuple members') : members = members' := by
  have hcount : members.length = members'.length := by
    have hlength := congrArg List.length htypes
    rw [List.length_map, List.length_map] at hlength
    exact hlength
  unfold encodeTuple at h
  rw [← hcount] at h
  have hlength : (heads members.length members).length =
      (heads members.length members').length := by
    rw [length_heads, length_heads, hcount]
  obtain ⟨hheads, htails⟩ := List.append_inj h hlength
  exact heads_tails_inj htypes hheads htails

end Injective

end Abi
