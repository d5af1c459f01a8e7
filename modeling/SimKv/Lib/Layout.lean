import Mathlib.Algebra.BigOperators.Group.List.Basic
import Mathlib.Algebra.GroupWithZero.Nat
import Mathlib.Order.Nat

set_option autoImplicit false

/-!
# Records laid out in a file

Records of known lengths follow each other from some origin on. A table holds where each of them
starts, and an end mark where the last one stops.
-/

namespace Layout

def position (origin : Nat) (lengths : List Nat) (k : Nat) : Nat := origin + (lengths.take k).sum

structure Lays (origin : Nat) (lengths offsets : List Nat) (finish : Nat) : Prop where
  count : offsets.length = lengths.length
  place : ∀ k, offsets[k]?.getD finish = position origin lengths k

variable {origin finish : Nat} {lengths offsets : List Nat}

theorem position_of_length_le {k : Nat} (beyond : lengths.length ≤ k) :
    position origin lengths k = origin + lengths.sum := by
  rw [position, List.take_of_length_le beyond]

theorem position_append {more : List Nat} {k : Nat} (inside : k ≤ lengths.length) :
    position origin (lengths ++ more) k = position origin lengths k := by
  rw [position, List.take_append_of_le_length inside, position]

theorem position_take {i k : Nat} (before : k ≤ i) :
    position origin (lengths.take i) k = position origin lengths k := by
  rw [position, List.take_take, min_eq_left before, position]

theorem position_drop (i k : Nat) :
    position (position origin lengths i) (lengths.drop i) k = position origin lengths (i + k) := by
  rw [position, position, position, List.take_add, List.sum_append]
  omega

theorem position_succ {k n : Nat} (here : lengths[k]? = some n) :
    position origin lengths (k + 1) = position origin lengths k + n := by
  rw [position, List.take_add_one, here, Option.toList_some, List.sum_append, List.sum_singleton, position]
  omega

theorem Lays.finish_eq (lays : Lays origin lengths offsets finish) : finish = origin + lengths.sum := by
  have last := lays.place offsets.length
  rwa [List.getElem?_eq_none le_rfl, Option.getD_none, position_of_length_le lays.count.ge] at last

theorem Lays.append (lays : Lays origin lengths offsets finish) (n : Nat) :
    Lays origin (lengths ++ [n]) (offsets ++ [finish]) (finish + n) := by
  have count := lays.count
  refine ⟨by simp [count], fun k => ?_⟩
  by_cases inside : k < offsets.length
  · rw [List.getElem?_append_left inside, position_append (by omega), ← lays.place k,
      List.getElem?_eq_getElem inside]
    rfl
  · by_cases newest : k = offsets.length
    · rw [newest, List.getElem?_concat_length, Option.getD_some, position_append count.le,
        position_of_length_le count.ge, lays.finish_eq]
    · rw [List.getElem?_eq_none (by simp; omega), Option.getD_none,
        position_of_length_le (by simp; omega), lays.finish_eq, List.sum_append, List.sum_singleton, Nat.add_assoc]

theorem Lays.take (lays : Lays origin lengths offsets finish) (i : Nat) :
    Lays origin (lengths.take i) (offsets.take i) (offsets[i]?.getD finish) := by
  have count := lays.count
  refine ⟨by simp [count], fun k => ?_⟩
  by_cases before : k < i
  · rw [List.getElem?_take_of_lt before, position_take before.le, ← lays.place k]
    cases here : offsets[k]? with
    | some offset => rfl
    | none =>
      rw [List.getElem?_eq_none_iff] at here
      rw [List.getElem?_eq_none (by omega)]
      rfl
  · rw [List.getElem?_eq_none (by simp; omega), Option.getD_none, lays.place i, position, position,
      List.take_take, min_eq_right (not_lt.mp before)]

theorem Lays.drop (lays : Lays origin lengths offsets finish) (i : Nat) :
    Lays (position origin lengths i) (lengths.drop i) (offsets.drop i) finish := by
  refine ⟨by simp [lays.count], fun k => ?_⟩
  rw [List.getElem?_drop, lays.place, position_drop]

-- Whoever starts each record where the one before it stops lays them all out.
theorem lays_of_consecutive (count : offsets.length = lengths.length)
    (next : ∀ k offset n, offsets[k]? = some offset → lengths[k]? = some n →
      offsets[k + 1]?.getD finish = offset + n) :
    Lays (offsets[0]?.getD finish) lengths offsets finish := by
  refine ⟨count, fun k => ?_⟩
  induction k with
  | zero => simp [position]
  | succ k ih =>
    by_cases inside : k < offsets.length
    · have here := List.getElem?_eq_getElem inside
      have size := List.getElem?_eq_getElem (count ▸ inside)
      rw [next k _ _ here size, position_succ size, ← ih, here, Option.getD_some]
    · rw [List.getElem?_eq_none (by omega), Option.getD_none] at ih ⊢
      rw [position_of_length_le (by omega)] at ih ⊢
      exact ih

end Layout
