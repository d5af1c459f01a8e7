import Mathlib.Data.List.Basic
import Mathlib.Data.List.TakeDrop
import Mathlib.Order.MinMax
import Mathlib.Order.Nat

set_option autoImplicit false

/-!
# How far two lists agree

Items carry tags. Two lists match if they are the same up to wherever they have the same tag. A list that takes over
the beginning of another one, and drops its own items only where the two part, agrees with it further and further.
-/

namespace Agreement

variable {T : Type} [DecidableEq T] {l m l' : List T} {i k : Nat}

def agreed : List T → List T → Nat
  | a :: l, b :: m => if a = b then agreed l m + 1 else 0
  | _, _ => 0

theorem le_agreed_iff : k ≤ agreed l m ↔ k ≤ l.length ∧ k ≤ m.length ∧ l.take k = m.take k := by
  induction l generalizing m k with
  | nil =>
    rw [agreed, List.length_nil]
    constructor
    · intro none
      rw [Nat.le_zero.mp none]
      exact ⟨le_refl _, Nat.zero_le _, rfl⟩
    · exact fun bound => bound.1
    · simp
  | cons a l ih =>
    cases m with
    | nil =>
      rw [agreed, List.length_nil]
      · constructor
        · intro none
          rw [Nat.le_zero.mp none]
          exact ⟨Nat.zero_le _, le_refl _, rfl⟩
        · exact fun bound => bound.2.1
      · simp
    | cons b m =>
      cases k with
      | zero => simp
      | succ k =>
        rw [agreed]
        split
        · next same => simp [same, ih]
        · next other => simp [other]

theorem agreed_le_left : agreed l m ≤ l.length := (le_agreed_iff.mp le_rfl).1

theorem agreed_le_right : agreed l m ≤ m.length := (le_agreed_iff.mp le_rfl).2.1

theorem take_eq (within : k ≤ agreed l m) : l.take k = m.take k := (le_agreed_iff.mp within).2.2

theorem getElem?_eq (within : i < agreed l m) : l[i]? = m[i]? := by
  have same := take_eq (Nat.succ_le_of_lt within)
  have left : (l.take (i + 1))[i]? = l[i]? := by rw [List.getElem?_take, if_pos (Nat.lt_succ_self i)]
  have right : (m.take (i + 1))[i]? = m[i]? := by rw [List.getElem?_take, if_pos (Nat.lt_succ_self i)]
  rw [← left, ← right, same]

theorem agreed_take (bound : k ≤ m.length) : agreed (m.take k) m = k := by
  apply le_antisymm
  · exact agreed_le_left.trans (List.length_take_le k m)
  · apply le_agreed_iff.mpr
    exact ⟨by rw [List.length_take]; omega, bound, by rw [List.take_take, Nat.min_self]⟩

theorem agreed_take_right (l m : List T) (k : Nat) : agreed l (m.take k) = min (agreed l m) k := by
  apply eq_of_forall_le_iff
  intro j
  rw [le_min_iff, le_agreed_iff, le_agreed_iff, List.length_take, le_min_iff]
  constructor
  · rintro ⟨left, ⟨cut, right⟩, same⟩
    rw [List.take_take, Nat.min_eq_left cut] at same
    exact ⟨⟨left, right, same⟩, cut⟩
  · rintro ⟨⟨left, right, same⟩, cut⟩
    rw [List.take_take, Nat.min_eq_left cut]
    exact ⟨left, ⟨cut, right⟩, same⟩

variable {Tag : Type} {tag : T → Tag}

def Matching (tag : T → Tag) (l m : List T) : Prop :=
  ∀ i a b, l[i]? = some a → m[i]? = some b → tag a = tag b → l.take (i + 1) = m.take (i + 1)

theorem Matching.lt_agreed (matching : Matching tag l m) {a b : T} (left : l[i]? = some a) (right : m[i]? = some b)
    (same : tag a = tag b) : i < agreed l m := by
  apply le_agreed_iff.mpr
  obtain ⟨inside, _⟩ := List.getElem?_eq_some_iff.mp left
  obtain ⟨within, _⟩ := List.getElem?_eq_some_iff.mp right
  exact ⟨inside, within, matching i a b left right same⟩

omit [DecidableEq T] in
theorem matching_take (k : Nat) : Matching tag (m.take k) m := by
  intro i a b left right same
  obtain ⟨inside, _⟩ := List.getElem?_eq_some_iff.mp left
  rw [List.length_take] at inside
  rw [List.take_take, Nat.min_eq_left (by omega)]

omit [DecidableEq T] in
theorem Matching.take_right (matching : Matching tag l m) (k : Nat) : Matching tag l (m.take k) := by
  intro i a b left right same
  obtain ⟨inside, _⟩ := List.getElem?_eq_some_iff.mp right
  rw [List.length_take] at inside
  rw [List.getElem?_take, if_pos (by omega)] at right
  rw [List.take_take, Nat.min_eq_left (by omega), matching i a b left right same]

/-- What a list that has been told the first `k` items of `m` becomes. It drops items of its own only if it lacks some
of these. -/
inductive TakesOver (m : List T) (k : Nat) (l : List T) : List T → Prop where
  | held (reached : k ≤ agreed l m) : TakesOver m k l l
  | taken (short : agreed l m < k) (within : k ≤ m.length) : TakesOver m k l (m.take k)

theorem TakesOver.reaches (takes : TakesOver m k l l') : k ≤ agreed l' m := by
  cases takes with
  | held reached => exact reached
  | taken short within => exact (agreed_take within).ge

theorem TakesOver.mono (takes : TakesOver m k l l') : agreed l m ≤ agreed l' m := by
  cases takes with
  | held => exact le_rfl
  | taken short within => exact short.le.trans (agreed_take within).ge

-- What a list was told by a beginning of another, it was told by the other.
theorem TakesOver.of_take {n : Nat} (takes : TakesOver (m.take n) k l l') : TakesOver m k l l' := by
  cases takes with
  | held reached =>
    rw [agreed_take_right] at reached
    exact .held (by omega)
  | taken short within =>
    rw [agreed_take_right, List.length_take] at *
    rw [List.take_take, Nat.min_eq_left (by omega)]
    exact .taken (by omega) (by omega)

-- Nothing changes as far as the lists agree.
theorem TakesOver.take_eq (takes : TakesOver m k l l') (within : i ≤ agreed l m) : l'.take i = l.take i := by
  rw [Agreement.take_eq within, Agreement.take_eq (within.trans takes.mono)]

theorem TakesOver.matching (takes : TakesOver m k l l') (matching : Matching tag l m) : Matching tag l' m := by
  cases takes with
  | held => exact matching
  | taken => exact matching_take k

-- An item the two lists have in common stays.
theorem Matching.kept (matching : Matching tag l m) (grows : agreed l m ≤ agreed l' m) {a : T}
    (left : l[i]? = some a) (right : m[i]? = some a) : l'[i]? = some a := by
  have within := matching.lt_agreed left right rfl
  rw [getElem?_eq (within.trans_le grows), right]

end Agreement
