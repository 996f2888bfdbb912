import Huski.Lib.Checked

/-!
# Scans into a buffer

A loop goes over a list and writes what it selects to the next place of a buffer of a fixed size,
where a place that is not there stops it. From a buffer with one place for each selected element it
goes through, and the buffer holds these in order, with no place left over.
-/

open Solidity

namespace Scan

variable {α : Type} (select : α → Bool)

/-- One round, from the number of places written and the buffer. -/
def put (s : Nat × List α) (a : α) : Result (Nat × List α) :=
  if select a then do
    require (s.1 < s.2.length) ""
    return (s.1 + 1, s.2.set s.1 a)
  else return s

variable {select} {xs written blank : List α} {a b : α}

theorem put_of_not (h : ¬ select a) (s : Nat × List α) : put select s a = .ok s := if_neg h

theorem put_of_select (h : select a) : put select (written.length, written ++ b :: blank) a =
    .ok ((written ++ [a]).length, (written ++ [a]) ++ blank) := by
  have hplace : written.length < (written ++ b :: blank).length := by simp
  have hset : (written ++ b :: blank).set written.length a = (written ++ [a]) ++ blank := by simp
  rw [put, if_pos h]
  simp only [bind_eq_ok, require_eq_ok, pure_eq_ok]
  refine ⟨(), hplace, ?_⟩
  rw [hset, List.length_append, List.length_singleton]

/-- Counting first and writing then fills the array exactly. -/
theorem foldlM_put (h : blank.length = xs.countP select) :
    xs.foldlM (put select) (written.length, written ++ blank) =
      .ok ((written ++ xs.filter select).length, written ++ xs.filter select) := by
  induction xs generalizing written blank with
  | nil =>
      obtain rfl := List.eq_nil_of_length_eq_zero h
      rw [List.filter_nil, List.append_nil]
      rfl
  | cons a xs ih =>
      rw [List.foldlM_cons]
      by_cases ha : select a
      · rw [List.countP_cons_of_pos ha] at h
        obtain ⟨b, blank, rfl⟩ := List.exists_cons_of_length_eq_add_one h
        have hrest : blank.length = xs.countP select := Nat.succ.inj h
        have hsplit : written ++ a :: xs.filter select = (written ++ [a]) ++ xs.filter select := by
          rw [List.append_assoc, List.singleton_append]
        rw [put_of_select ha, List.filter_cons_of_pos ha, hsplit]
        exact ih hrest
      · rw [List.countP_cons_of_neg ha] at h
        rw [put_of_not ha, List.filter_cons_of_neg ha]
        exact ih h

/-- A scan into a blank buffer with one place for each selected element. -/
theorem foldlM_put_replicate (xs : List α) (blank : α) :
    xs.foldlM (put select) (0, List.replicate (xs.countP select) blank) =
      .ok ((xs.filter select).length, xs.filter select) := by
  have h := @foldlM_put α select xs [] _ (List.length_replicate (a := blank))
  exact h

end Scan
