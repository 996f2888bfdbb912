import Mathlib.Data.Set.Card
import Mathlib.Algebra.BigOperators.Group.Finset.Basic

/-!
# Counting the members of a set by a key

A counter for each key that goes up when a member with the key comes in and down when one goes
out counts exactly the members with the key. A counter of a member's key is never zero, so it
can be counted down without a test.
-/

/-- `count k` is the number of members with the key `k`. -/
def Tally {α κ : Type} (members : Set α) (key : α → κ) (count : κ → Nat) : Prop :=
  ∀ k, {a | a ∈ members ∧ key a = k}.encard = count k

namespace Tally

variable {α κ : Type} {members : Set α} {key : α → κ} {count : κ → Nat} {a : α} {k : κ}

theorem empty (key : α → κ) : Tally ∅ key (fun _ => 0) := by
  intro k
  have hnone : {a | a ∈ (∅ : Set α) ∧ key a = k} = ∅ :=
    Set.eq_empty_of_forall_notMem fun _ ha => ha.1
  rw [hnone, Set.encard_empty]
  rfl

/-- The keys of what is no member do not count. -/
theorem congr {key' : α → κ} (h : Tally members key count) (hsame : ∀ a ∈ members, key' a = key a) :
    Tally members key' count := by
  intro k
  have hset : {a | a ∈ members ∧ key' a = k} = {a | a ∈ members ∧ key a = k} := by
    ext a
    exact and_congr_right fun ha => by rw [hsame a ha]
  rw [hset]
  exact h k

/-- The counter of a member's key is not zero. -/
theorem pos (h : Tally members key count) (ha : a ∈ members) : 0 < count (key a) := by
  apply Nat.pos_of_ne_zero
  intro hzero
  have hnone := h (key a)
  rw [hzero] at hnone
  have hempty := Set.encard_eq_zero.mp hnone
  exact Set.eq_empty_iff_forall_notMem.mp hempty a ⟨ha, rfl⟩

variable [DecidableEq α] [DecidableEq κ]

theorem add (h : Tally members key count) (ha : a ∉ members) :
    Tally (insert a members) (Function.update key a k)
      (Function.update count k (count k + 1)) := by
  intro j
  by_cases hj : j = k
  · subst hj
    have hset : {b | b ∈ insert a members ∧ Function.update key a j b = j} =
        insert a {b | b ∈ members ∧ key b = j} := by
      ext b
      by_cases hb : b = a
      · subst hb
        simp
      · simp [hb]
    rw [hset, Set.encard_insert_of_notMem fun hmem => ha hmem.1, h j, Function.update_self]
    rfl
  · have hset : {b | b ∈ insert a members ∧ Function.update key a k b = j} =
        {b | b ∈ members ∧ key b = j} := by
      ext b
      by_cases hb : b = a
      · subst hb
        simp [ha, Ne.symm hj]
      · simp [hb]
    rw [hset, h j, Function.update_of_ne hj]

omit [DecidableEq α] in
theorem remove (h : Tally members key count) (ha : a ∈ members) :
    Tally (members \ {a}) key (Function.update count (key a) (count (key a) - 1)) := by
  intro j
  by_cases hj : j = key a
  · subst hj
    -- among the members of its own key the removed one was counted
    have hset : {b | b ∈ members \ {a} ∧ key b = key a} =
        {b | b ∈ members ∧ key b = key a} \ {a} := by
      ext b
      constructor
      · rintro ⟨⟨hb, hne⟩, hkey⟩
        exact ⟨⟨hb, hkey⟩, hne⟩
      · rintro ⟨⟨hb, hkey⟩, hne⟩
        exact ⟨⟨hb, hne⟩, hkey⟩
    have hmem : a ∈ {b | b ∈ members ∧ key b = key a} := ⟨ha, rfl⟩
    have hless := Set.encard_sdiff_singleton_of_mem hmem
    rw [hset, hless, h (key a), Function.update_self]
    rfl
  -- it was no member of another key
  · have hset : {b | b ∈ members \ {a} ∧ key b = j} = {b | b ∈ members ∧ key b = j} := by
      ext b
      constructor
      · rintro ⟨⟨hb, _⟩, hkey⟩
        exact ⟨hb, hkey⟩
      · rintro ⟨hb, hkey⟩
        refine ⟨⟨hb, ?_⟩, hkey⟩
        rintro rfl
        exact hj hkey.symm
    rw [hset, h j, Function.update_of_ne hj]

/-- A member that changes its key is counted down and up again, the same counter if it keeps
its key. -/
theorem move (h : Tally members key count) (ha : a ∈ members) :
    Tally members (Function.update key a k)
      (Function.update (Function.update count (key a) (count (key a) - 1)) k
        (Function.update count (key a) (count (key a) - 1) k + 1)) := by
  have hmoved := (h.remove ha).add (k := k) fun hmem => hmem.2 rfl
  have hset : insert a (members \ {a}) = members := by
    rw [Set.insert_sdiff_singleton, Set.insert_eq_of_mem ha]
  rw [hset] at hmoved
  exact hmoved

end Tally
