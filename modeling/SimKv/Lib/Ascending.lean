import Mathlib.Data.List.Basic
import Mathlib.Data.List.Sort
import Mathlib.Order.Lattice

set_option autoImplicit false

/-!
# Lists that never decrease, or never increase

Positions compare as their values do, and the values up to a limit are the beginning of the list. In the other order
a position says how many values there are from a limit on.
-/

namespace Ascending

variable {T : Type} [LinearOrder T] {l : List T}

theorem le_of_getElem? (sorted : l.Pairwise (· ≤ ·)) {i j : Nat} {a b : T} (order : i ≤ j) (left : l[i]? = some a)
    (right : l[j]? = some b) : a ≤ b := by
  obtain ⟨_, rfl⟩ := List.getElem?_eq_some_iff.mp left
  obtain ⟨_, rfl⟩ := List.getElem?_eq_some_iff.mp right
  obtain before | rfl := Nat.lt_or_eq_of_le order
  · exact List.pairwise_iff_getElem.mp sorted _ _ _ _ before
  · exact le_refl _

-- The partition point: the values up to `limit` are those before it.
theorem lt_length_takeWhile_iff (sorted : l.Pairwise (· ≤ ·)) {limit : T} {i : Nat} :
    i < (l.takeWhile (· ≤ limit)).length ↔ ∃ a, l[i]? = some a ∧ a ≤ limit := by
  induction l generalizing i with
  | nil => simp
  | cons head rest ih =>
    obtain ⟨least, sorted⟩ := List.pairwise_cons.mp sorted
    by_cases small : head ≤ limit
    · rw [List.takeWhile_cons_of_pos (by simpa using small)]
      cases i with
      | zero => simp [small]
      | succ i => simpa using ih sorted
    · rw [List.takeWhile_cons_of_neg (by simpa using small)]
      -- nothing behind a value above the limit is below it
      simp only [List.length_nil, Nat.not_lt_zero, false_iff, not_exists, not_and]
      intro a found below
      cases i with
      | zero =>
        rw [List.getElem?_cons_zero, Option.some.injEq] at found
        exact small (found ▸ below)
      | succ i =>
        rw [List.getElem?_cons_succ] at found
        exact small (le_trans (least a (List.mem_of_getElem? found)) below)

end Ascending

namespace Descending

variable {T : Type} [LinearOrder T] {l : List T} {i : Nat} {a limit : T}

theorem le_iff_lt_countP (sorted : l.Pairwise (· ≥ ·)) (found : l[i]? = some a) :
    limit ≤ a ↔ i < l.countP (limit ≤ ·) := by
  induction l generalizing i with
  | nil => simp at found
  | cons head rest ih =>
    obtain ⟨most, sorted⟩ := List.pairwise_cons.mp sorted
    by_cases large : limit ≤ head
    · rw [List.countP_cons_of_pos (by simpa using large)]
      cases i with
      | zero =>
        rw [List.getElem?_cons_zero, Option.some.injEq] at found
        simp [← found, large]
      | succ i =>
        rw [List.getElem?_cons_succ] at found
        rw [ih sorted found, Nat.succ_lt_succ_iff]
    · -- nothing behind a value below the limit reaches it
      have none : rest.countP (limit ≤ ·) = 0 := by
        rw [List.countP_eq_zero]
        intro b member above
        exact large (le_trans (by simpa using above) (most b member))
      rw [List.countP_cons_of_neg (by simpa using large), none]
      refine iff_of_false (fun above => ?_) (Nat.not_lt_zero i)
      cases i with
      | zero =>
        rw [List.getElem?_cons_zero, Option.some.injEq] at found
        exact large (found ▸ above)
      | succ i =>
        rw [List.getElem?_cons_succ] at found
        exact large (le_trans above (most a (List.mem_of_getElem? found)))

-- The value at a place in descending order is the largest that more than so many values reach.
theorem le_rank_iff (found : (l.insertionSort (· ≥ ·))[i]? = some a) : limit ≤ a ↔ i < l.countP (limit ≤ ·) := by
  rw [le_iff_lt_countP List.sortedGE_insertionSort.pairwise found, (List.perm_insertionSort _ l).countP_eq]

end Descending
