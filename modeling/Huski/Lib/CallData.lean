import Huski.Lib.Abi
import Huski.Lib.Bytes

/-!
# Call data

What a call sends to a contract: the four bytes that name a function, and the encoding of its
arguments. The function reads a value type at its place in the head, and `bytes` at the offset that
the head gives, within the data. What was encoded is read back.
-/

namespace CallData

abbrev Data := List UInt8

/-- The bytes of a sequence of words. -/
def ofWords (words : List Nat) : Data := words.flatMap (Bytes.ofNumber 32)

/-- `abi.encodeWithSelector`. -/
def encode (selector : Data) (members : List Abi.Value) : Data :=
  selector ++ ofWords (Abi.encodeTuple members)

/-- The `i`-th word of the head of the arguments, with zeros beyond the end of the data. -/
def word (data : Data) (i : Nat) : Nat := Abi.packWord (data.drop (4 + 32 * i))

/-- Whether the head of the arguments has so many words. -/
def hasHead (data : Data) (words : Nat) : Bool := 4 + 32 * words ≤ data.length

/-- The argument of type `bytes` at the `i`-th place. Offsets and lengths have 32 bits, and the
argument is within the data. -/
def bytesAt (data : Data) (i : Nat) : Option Data :=
  if word data i ≤ 2 ^ 32 ∧ 4 + word data i + 32 ≤ data.length then
    let length := Abi.packWord (data.drop (4 + word data i))
    if length ≤ 2 ^ 32 ∧ 4 + word data i + 32 + length ≤ data.length then
      some ((data.drop (4 + word data i + 32)).take length)
    else none
  else none

/-! ## Words and bytes -/

theorem number_append (a b : Data) :
    Bytes.number (a ++ b) = Bytes.number a * 256 ^ b.length + Bytes.number b := by
  induction a with
  | nil => simp [Bytes.number]
  | cons x a ih =>
      rw [List.cons_append, Bytes.number, Bytes.number, ih, List.length_append, Nat.pow_add]
      ring

theorem foldl_range_eq_number (f : Nat → UInt8) (n : Nat) :
    (List.range n).foldl (fun w i => w * 256 + (f i).toNat) 0 =
      Bytes.number ((List.range n).map f) := by
  induction n with
  | zero => rfl
  | succ n ih =>
      rw [List.range_succ, List.foldl_append, List.map_append, number_append, ih]
      simp [Bytes.number]

theorem ofNumber_number (a : Data) : Bytes.ofNumber a.length (Bytes.number a) = a := by
  apply Bytes.number_inj (Bytes.length_ofNumber _ _)
  rw [Bytes.number_ofNumber, Nat.mod_eq_of_lt (Bytes.number_lt a)]

/-- The data from the left, filled up with zeros. -/
theorem map_getD_range {data : Data} {n : Nat} (h : n ≤ data.length) :
    (List.range n).map (fun i => data.getD i 0) = data.take n := by
  apply List.ext_getElem
  · simp [h]
  · intro i hi hi'
    have hdata : i < data.length := by
      simp at hi
      omega
    simp [List.getD_eq_getElem?_getD, List.getElem?_eq_getElem hdata]

/-- A word written out are the bytes it was made of. -/
theorem ofNumber_packWord (data : Data) :
    Bytes.ofNumber 32 (Abi.packWord data) = (List.range 32).map fun i => data.getD i 0 := by
  have hnumber : Abi.packWord data = Bytes.number ((List.range 32).map fun i => data.getD i 0) :=
    foldl_range_eq_number (fun i => data.getD i 0) 32
  have hlength : ((List.range 32).map fun i => data.getD i 0).length = 32 := by simp
  rw [hnumber]
  conv_lhs => rw [← hlength]
  exact ofNumber_number _

/-- The first word of the data is what was written there. -/
theorem packWord_ofNumber {w : Nat} (h : w < 2 ^ 256) (rest : Data) :
    Abi.packWord (Bytes.ofNumber 32 w ++ rest) = w := by
  have hlength := Bytes.length_ofNumber 32 w
  have hbytes := ofNumber_packWord (Bytes.ofNumber 32 w ++ rest)
  rw [map_getD_range (by simp [hlength]), List.take_left' hlength] at hbytes
  have hnumber := congrArg Bytes.number hbytes
  have hbound : Abi.packWord (Bytes.ofNumber 32 w ++ rest) < 256 ^ 32 := by
    have hword : Abi.packWord (Bytes.ofNumber 32 w ++ rest) = _ :=
      foldl_range_eq_number (fun i => (Bytes.ofNumber 32 w ++ rest).getD i 0) 32
    have hlt := Bytes.number_lt
      ((List.range 32).map fun i => (Bytes.ofNumber 32 w ++ rest).getD i 0)
    rw [← hword] at hlt
    simpa using hlt
  rw [Bytes.number_ofNumber, Bytes.number_ofNumber, Nat.mod_eq_of_lt hbound,
    Nat.mod_eq_of_lt (by simpa using h)] at hnumber
  exact hnumber

theorem length_ofWords (words : List Nat) : (ofWords words).length = 32 * words.length := by
  induction words with
  | nil => rfl
  | cons w words ih =>
      have hsplit : ofWords (w :: words) = Bytes.ofNumber 32 w ++ ofWords words := rfl
      rw [hsplit, List.length_append, ih, Bytes.length_ofNumber, List.length_cons]
      ring

theorem drop_ofWords (words : List Nat) (i : Nat) :
    (ofWords words).drop (32 * i) = ofWords (words.drop i) := by
  induction i generalizing words with
  | zero => rfl
  | succ i ih =>
      cases words with
      | nil => simp [ofWords]
      | cons w words =>
          have hsplit : ofWords (w :: words) = Bytes.ofNumber 32 w ++ ofWords words := rfl
          rw [List.drop_succ_cons, ← ih, hsplit, Nat.mul_succ, Nat.add_comm, ← List.drop_drop,
            List.drop_left' (Bytes.length_ofNumber 32 w)]

/-- The words of data, written out, are the data. -/
theorem take_ofWords_packWords (data : Data) :
    (ofWords (Abi.packWords data)).take data.length = data := by
  have hbytes : ∀ k, ofWords ((List.range k).map fun i => Abi.packWord (data.drop (32 * i))) =
      (List.range (32 * k)).map fun i => data.getD i 0 := by
    intro k
    induction k with
    | zero => rfl
    | succ k ih =>
        have hlast : ofWords [Abi.packWord (data.drop (32 * k))] =
            (List.range 32).map fun i => data.getD (32 * k + i) 0 := by
          have hword := ofNumber_packWord (data.drop (32 * k))
          simp only [List.getD_eq_getElem?_getD, List.getElem?_drop] at hword ⊢
          rw [← hword]
          simp [ofWords]
        rw [List.range_succ, List.map_append, Nat.mul_succ, List.range_add, List.map_append, ← ih,
          List.map_map]
        show ofWords (_ ++ [Abi.packWord (data.drop (32 * k))]) = _
        unfold ofWords at hlast ⊢
        rw [List.flatMap_append, hlast]
        rfl
  have hround : data.length ≤ 32 * ((data.length + 31) / 32) := by omega
  rw [Abi.packWords, hbytes, ← List.map_take, List.take_range, Nat.min_eq_left hround,
    map_getD_range (Nat.le_refl _), List.take_length]

/-! ## Reading back -/

section RoundTrip

variable {selector : Data} {members : List Abi.Value} {i w : Nat}

theorem take_encode (hselector : selector.length = 4) :
    (encode selector members).take 4 = selector :=
  List.take_left' hselector

theorem length_encode (hselector : selector.length = 4) :
    (encode selector members).length = 4 + 32 * (Abi.encodeTuple members).length := by
  rw [encode, List.length_append, hselector, length_ofWords]

/-- An encoded call is long enough for its members. -/
theorem hasHead_encode (hselector : selector.length = 4) {words : Nat}
    (h : words ≤ members.length) : hasHead (encode selector members) words = true := by
  have hmembers : members.length ≤ (Abi.encodeTuple members).length := Abi.length_le_encodeTuple
  rw [hasHead, length_encode hselector]
  exact decide_eq_true (by omega)

theorem drop_encode (hselector : selector.length = 4) (i : Nat) :
    (encode selector members).drop (4 + 32 * i) = ofWords ((Abi.encodeTuple members).drop i) := by
  rw [encode, ← List.drop_drop, List.drop_left' hselector, drop_ofWords]

/-- A word is read at its place. -/
theorem word_encode (hselector : selector.length = 4) (h : (Abi.encodeTuple members)[i]? = some w)
    (hw : w < 2 ^ 256) : word (encode selector members) i = w := by
  obtain ⟨hi, hget⟩ := List.getElem?_eq_some_iff.mp h
  rw [word, drop_encode hselector, List.drop_eq_getElem_cons hi, hget]
  exact packWord_ofNumber hw _

/-- Words and then bytes: the offset, the length and the bytes come last. -/
theorem encodeTuple_words_bytes (words : List Nat) (data : Data) :
    Abi.encodeTuple (words.map .word ++ [.bytes data]) =
      words ++ 32 * (words.length + 1) :: data.length :: Abi.packWords data := by
  have hheads : ∀ offset, Abi.heads offset (words.map .word ++ [.bytes data]) =
      words ++ [32 * offset] := by
    intro offset
    induction words with
    | nil => rfl
    | cons w words ih => rw [List.map_cons, List.cons_append, Abi.heads, ih, List.cons_append]
  have htail : (words.map Abi.Value.word ++ [Abi.Value.bytes data]).flatMap Abi.tail =
      data.length :: Abi.packWords data := by
    rw [List.flatMap_append]
    have hnone : (words.map Abi.Value.word).flatMap Abi.tail = [] := by
      simp [List.flatMap_eq_nil_iff, Abi.tail]
    rw [hnone]
    simp [Abi.tail]
  rw [Abi.encodeTuple, hheads, htail]
  simp

/-- `bytes` after value types are read back, up to the size that the decoder takes. -/
theorem bytesAt_encode (hselector : selector.length = 4) {words : List Nat} {data : Data}
    (hwords : 32 * (words.length + 1) ≤ 2 ^ 32) (hdata : data.length ≤ 2 ^ 32) :
    bytesAt (encode selector (words.map .word ++ [.bytes data])) words.length = some data := by
  have htuple := encodeTuple_words_bytes words data
  -- the last word of the head is the offset of the dynamic argument
  have hoffset : word (encode selector (words.map .word ++ [.bytes data])) words.length =
      32 * (words.length + 1) := by
    apply word_encode hselector
    · rw [htuple]
      simp
    · exact Nat.lt_of_le_of_lt hwords (by decide)
  have hcount : (encode selector (words.map .word ++ [.bytes data])).length =
      4 + 32 * (words.length + 2 + (data.length + 31) / 32) := by
    rw [length_encode hselector, htuple, List.length_append, List.length_cons, List.length_cons,
      Abi.length_packWords]
    ring
  -- at the offset stands the length
  have hlength : Abi.packWord ((encode selector (words.map .word ++ [.bytes data])).drop
      (4 + 32 * (words.length + 1))) = data.length := by
    rw [drop_encode hselector, htuple]
    have hdrop : (words ++ 32 * (words.length + 1) :: data.length :: Abi.packWords data).drop
        (words.length + 1) = data.length :: Abi.packWords data := by
      rw [← List.drop_drop, List.drop_left]
      rfl
    rw [hdrop]
    exact packWord_ofNumber (Nat.lt_of_le_of_lt hdata (by decide)) _
  -- after it the bytes, padded to whole words
  have hrest : (encode selector (words.map .word ++ [.bytes data])).drop
      (4 + 32 * (words.length + 1) + 32) = ofWords (Abi.packWords data) := by
    have hplace : 4 + 32 * (words.length + 1) + 32 = 4 + 32 * (words.length + 2) := by ring
    rw [hplace, drop_encode hselector, htuple, ← List.drop_drop, List.drop_left]
    rfl
  unfold bytesAt
  rw [hoffset, hlength, hrest, if_pos ⟨hwords, by omega⟩, if_pos ⟨hdata, by omega⟩,
    take_ofWords_packWords]

end RoundTrip

end CallData
