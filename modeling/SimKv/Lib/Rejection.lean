import Mathlib.Algebra.BigOperators.Group.Finset.Basic
import Mathlib.Algebra.Order.Floor.Div
import Mathlib.Data.Finset.Card
import Mathlib.Order.Interval.Finset.Nat

set_option autoImplicit false

/-!
# Multiply and reject

To draw below `n` from one of `width` equally likely numbers, multiply by `n`: the quotient by `width` is the
answer, unless the remainder is below `width % n`. What is left has the same number of draws for every answer.
-/

namespace Rejection

variable {width n : Nat}

def Answers (width n v x : Nat) : Prop := x * n / width = v ∧ width % n ≤ x * n % width

instance (width n v x : Nat) : Decidable (Answers width n v x) := by
  unfold Answers
  infer_instance

def first (width n v : Nat) : Nat := (v * width + width % n) ⌈/⌉ n

theorem first_le_iff (some_ : 0 < n) {v x : Nat} : first width n v ≤ x ↔ v * width + width % n ≤ x * n := by
  rw [first, ceilDiv_le_iff_le_mul some_, Nat.mul_comm x]

theorem answers_iff_between (wide : 0 < width) {v x : Nat} :
    Answers width n v x ↔ v * width + width % n ≤ x * n ∧ x * n < v * width + width := by
  have split := Nat.div_add_mod (x * n) width
  have low := Nat.mod_lt (x * n) wide
  constructor
  · rintro ⟨rfl, kept⟩
    rw [Nat.mul_comm] at split
    omega
  · rintro ⟨above, below⟩
    have quotient : x * n / width = v := by
      apply Nat.div_eq_of_lt_le
      · omega
      · rw [Nat.succ_mul]
        omega
    rw [quotient, Nat.mul_comm] at split
    exact ⟨quotient, by omega⟩

-- The draws that answer `v` are `width / n` numbers in a row.
theorem answers_iff (wide : 0 < width) (some_ : 0 < n) {v x : Nat} :
    Answers width n v x ↔ first width n v ≤ x ∧ x < first width n v + width / n := by
  rw [answers_iff_between wide, first_le_iff some_]
  have whole : width / n * n + width % n = width := Nat.div_add_mod' width n
  -- a draw is past the row when the one `width / n` before it is past the first
  have past : first width n v + width / n ≤ x ↔ v * width + width ≤ x * n := by
    constructor
    · intro later
      have before := (first_le_iff some_).mp (Nat.le_sub_of_add_le later)
      rw [Nat.sub_mul] at before
      have room : width / n * n ≤ x * n := Nat.mul_le_mul_right n (by omega)
      omega
    · intro later
      have room : width / n ≤ x := by
        apply Nat.le_of_mul_le_mul_right _ some_
        omega
      apply Nat.add_le_of_le_sub room
      rw [first_le_iff some_, Nat.sub_mul]
      omega
  rw [← Nat.not_le, ← Nat.not_le, past]

theorem filter_answers (wide : 0 < width) (some_ : 0 < n) {v : Nat} (inside : v < n) :
    ((Finset.range width).filter (Answers width n v)) =
      Finset.Ico (first width n v) (first width n v + width / n) := by
  ext x
  simp only [Finset.mem_filter, Finset.mem_range, Finset.mem_Ico, ← answers_iff wide some_]
  constructor
  · exact fun both => both.2
  · intro answers
    have below := (answers_iff_between wide |>.mp answers).2
    have most : (v + 1) * width ≤ n * width := Nat.mul_le_mul_right width inside
    rw [Nat.succ_mul] at most
    have early : x * n < width * n := by
      rw [Nat.mul_comm width]
      omega
    exact ⟨Nat.lt_of_mul_lt_mul_right early, answers⟩

theorem card_answers (wide : 0 < width) (some_ : 0 < n) {v : Nat} (inside : v < n) :
    ((Finset.range width).filter (Answers width n v)).card = width / n := by
  rw [filter_answers wide some_ inside, Nat.card_Ico, Nat.add_sub_cancel_left]

theorem answer_lt (some_ : 0 < n) {v x : Nat} (draw : x < width) (answers : Answers width n v x) : v < n := by
  rw [← answers.1]
  exact Nat.div_lt_of_lt_mul (Nat.mul_lt_mul_of_pos_right draw some_)

theorem card_rejected (wide : 0 < width) (some_ : 0 < n) :
    ((Finset.range width).filter fun x => x * n % width < width % n).card = width % n := by
  have kept : ((Finset.range width).filter fun x => ¬ x * n % width < width % n).card = n * (width / n) := by
    have answered : ∀ x ∈ (Finset.range width).filter (fun x => ¬ x * n % width < width % n),
        x * n / width ∈ Finset.range n := by
      intro x member
      rw [Finset.mem_filter, Finset.mem_range, Nat.not_lt] at member
      exact Finset.mem_range.mpr (answer_lt some_ member.1 ⟨rfl, member.2⟩)
    rw [Finset.card_eq_sum_card_fiberwise answered]
    have each : ∀ v ∈ Finset.range n, (((Finset.range width).filter fun x => ¬ x * n % width < width % n).filter
        fun x => x * n / width = v).card = width / n := by
      intro v inside
      rw [← card_answers wide some_ (Finset.mem_range.mp inside), Finset.filter_filter]
      congr 1
      ext x
      simp [Answers, and_comm]
    rw [Finset.sum_congr rfl each, Finset.sum_const, Finset.card_range, smul_eq_mul]
  have all : ((Finset.range width).filter fun x => x * n % width < width % n).card +
      ((Finset.range width).filter fun x => ¬ x * n % width < width % n).card = (Finset.range width).card :=
    Finset.card_filter_add_card_filter_not _
  rw [kept, Finset.card_range] at all
  have whole := Nat.div_add_mod width n
  omega

end Rejection
