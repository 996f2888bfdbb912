import Mathlib

/-!
# Parent maps without cycles

A map from each key to its parent, or to `nobody`. A rank that falls along every link excludes
that a key is its own ancestor. Links are cut, and a key that is nobody's parent is hung below
another one; both keep a rank.
-/

namespace Forest

variable {A : Type} {nobody a p : A} {parent : A → A}

/-- No key returns to itself along the links. -/
def Acyclic (nobody : A) (parent : A → A) : Prop :=
  ∀ a k, a ≠ nobody → parent^[k + 1] a ≠ a

/-- Some rank falls along every link, and nobody has no parent. -/
def Ranked (nobody : A) (parent : A → A) : Prop :=
  parent nobody = nobody ∧
    ∃ rank : A → Nat, ∀ a, parent a ≠ nobody → rank (parent a) < rank a

theorem ranked_empty (nobody : A) : Ranked nobody fun _ => nobody :=
  ⟨rfl, fun _ => 0, fun _ h => absurd rfl h⟩

/-- A rank that falls along the edges leaves no cycle. -/
theorem Ranked.acyclic (h : Ranked nobody parent) : Acyclic nobody parent := by
  obtain ⟨hnobody, rank, hrank⟩ := h
  intro a k ha hreturns
  -- every ancestor is nobody, or of a lower rank
  have hlower : ∀ k, parent^[k + 1] a = nobody ∨ rank (parent^[k + 1] a) < rank a := by
    intro k
    induction k with
    | zero =>
        by_cases hroot : parent a = nobody
        · exact .inl hroot
        · exact .inr (hrank a hroot)
    | succ k ih =>
        rw [Function.iterate_succ_apply']
        by_cases hroot : parent (parent^[k + 1] a) = nobody
        · exact .inl hroot
        · rcases ih with hended | hless
          · rw [hended, hnobody] at hroot
            exact absurd rfl hroot
          · exact .inr ((hrank _ hroot).trans hless)
  rcases hlower k with hroot | hless
  · exact ha (hreturns.symm.trans hroot)
  · rw [hreturns] at hless
    exact lt_irrefl _ hless

theorem Acyclic.parent_ne (h : Acyclic nobody parent) (ha : a ≠ nobody) : parent a ≠ a :=
  h a 0 ha

variable [DecidableEq A]

/-- A link is cut. -/
theorem Ranked.cut (h : Ranked nobody parent) (a : A) :
    Ranked nobody (Function.update parent a nobody) := by
  obtain ⟨hnobody, rank, hrank⟩ := h
  refine ⟨?_, rank, fun b hb => ?_⟩
  · rw [Function.update_apply, hnobody, ite_self]
  · rw [Function.update_apply] at hb ⊢
    split at hb
    · exact absurd rfl hb
    · rename_i hba
      rw [if_neg hba]
      exact hrank b hb

/-- A key that is nobody's parent gets another one as its parent. -/
theorem Ranked.hang (h : Ranked nobody parent) (ha : a ≠ nobody) (hleaf : ∀ b, parent b ≠ a)
    (hp : p ≠ a) : Ranked nobody (Function.update parent a p) := by
  obtain ⟨hnobody, rank, hrank⟩ := h
  refine ⟨?_, Function.update rank a (rank p + 1), fun b hb => ?_⟩
  · rw [Function.update_of_ne ha.symm]
    exact hnobody
  · by_cases hba : b = a
    · subst hba
      rw [Function.update_self, Function.update_self, Function.update_of_ne hp]
      exact Nat.lt_succ_self _
    · rw [Function.update_of_ne hba] at hb ⊢
      rw [Function.update_of_ne hba, Function.update_of_ne (hleaf b)]
      exact hrank b hb

end Forest
