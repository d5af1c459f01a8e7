import Mathlib.Data.List.Basic
import Mathlib.Logic.Function.Basic

set_option autoImplicit false

/-!
# Cyclic redundancy checks

A register is shifted one bit at a time and the polynomial is added where a bit falls out. With the top bit of
the polynomial set a shift can be undone, and a check made of such shifts notices any one changed item and any
short burst of them.
-/

namespace Crc

section Register

variable {w : Nat} (poly : BitVec w)

def shift (c : BitVec w) : BitVec w := (c >>> 1) ^^^ (if c.getLsbD 0 then poly else 0)

variable {poly}

theorem shift_top (top : poly.getLsbD (w - 1) = true) (c : BitVec w) :
    (shift poly c).getLsbD (w - 1) = c.getLsbD 0 := by
  have some_ : 0 < w := by
    by_contra none
    obtain rfl : w = 0 := by omega
    simp at top
  have out : c.getLsbD (1 + (w - 1)) = false := BitVec.getLsbD_of_ge _ _ (by omega)
  rw [shift, BitVec.getLsbD_xor, BitVec.getLsbD_ushiftRight, out, Bool.false_xor]
  cases low : c.getLsbD 0 with
  | false => simp
  | true => simpa using top

theorem shift_injective (top : poly.getLsbD (w - 1) = true) : Function.Injective (shift poly) := by
  intro a b same
  have low : a.getLsbD 0 = b.getLsbD 0 := by rw [← shift_top top, same, shift_top top]
  have high : a >>> 1 = b >>> 1 := by
    unfold shift at same
    rw [low] at same
    exact (BitVec.xor_left_inj _).mp same
  refine BitVec.eq_of_getLsbD_eq fun i _ => ?_
  cases i with
  | zero => exact low
  | succ i =>
    have here := congrArg (fun c => c.getLsbD i) high
    simp only [BitVec.getLsbD_ushiftRight] at here
    rwa [Nat.add_comm] at here

theorem shift_xor (a b : BitVec w) : shift poly (a ^^^ b) = shift poly a ^^^ shift poly b := by
  unfold shift
  rw [BitVec.ushiftRight_xor_distrib, BitVec.getLsbD_xor]
  cases a.getLsbD 0 with
  | false => cases b.getLsbD 0 <;> simp [BitVec.xor_assoc]
  | true =>
    cases b.getLsbD 0 with
    | false => simp [BitVec.xor_assoc, BitVec.xor_comm poly]
    | true =>
      -- the polynomial is added on both sides and cancels
      have cancel : (a >>> 1 ^^^ poly) ^^^ (b >>> 1 ^^^ poly) = a >>> 1 ^^^ b >>> 1 := by
        rw [BitVec.xor_comm (b >>> 1), BitVec.xor_assoc, ← BitVec.xor_assoc poly, BitVec.xor_self, BitVec.zero_xor]
      simpa using cancel.symm

def shifts (poly : BitVec w) (count : Nat) (c : BitVec w) : BitVec w := Nat.repeat (shift poly) count c

theorem shifts_xor (count : Nat) (a b : BitVec w) :
    shifts poly count (a ^^^ b) = shifts poly count a ^^^ shifts poly count b := by
  induction count with
  | zero => rfl
  | succ count ih => exact (congrArg (shift poly) ih).trans (shift_xor _ _)

def Within (m : Nat) (c : BitVec w) : Prop := ∀ i, m ≤ i → c.getLsbD i = false

def Above (m : Nat) (c : BitVec w) : Prop := ∀ i, i < m → c.getLsbD i = false

theorem shifts_above {count : Nat} {c : BitVec w} (clear : Above count c) :
    shifts poly count c = c >>> count := by
  induction count with
  | zero => exact (BitVec.ushiftRight_zero c).symm
  | succ count ih =>
    -- only zeros have fallen out so far, and the bit that falls out next is a zero too
    have moved := ih fun i low => clear i (Nat.lt_succ_of_lt low)
    have out : (c >>> count).getLsbD 0 = false := by
      rw [BitVec.getLsbD_ushiftRight]
      exact clear (count + 0) (Nat.lt_succ_self count)
    have next : shifts poly (count + 1) c = shift poly (c >>> count) := congrArg (shift poly) moved
    rw [next, shift, out, BitVec.shiftRight_add]
    simp

theorem Within.of_shift (top : poly.getLsbD (w - 1) = true) {m : Nat} (room : m < w) {c : BitVec w}
    (low : Within m (shift poly c)) : Within (m + 1) c ∧ c.getLsbD 0 = false := by
  have clear : c.getLsbD 0 = false := by
    rw [← shift_top top]
    exact low (w - 1) (by omega)
  constructor
  · intro i above
    have down := low (i - 1) (by omega)
    rw [shift, clear] at down
    have back : 1 + (i - 1) = i := by omega
    simpa [BitVec.getLsbD_ushiftRight, back] using down
  · exact clear

theorem Within.of_shifts (top : poly.getLsbD (w - 1) = true) {m count : Nat} (room : m + count ≤ w) {c : BitVec w}
    (low : Within m (shifts poly count c)) : Within (m + count) c ∧ Above count c := by
  induction count generalizing m with
  | zero => exact ⟨low, fun i none => absurd none (Nat.not_lt_zero i)⟩
  | succ count ih =>
    obtain ⟨wider, clear⟩ := Within.of_shift top (by omega : m < w) low
    obtain ⟨widest, above⟩ := ih (by omega : m + 1 + count ≤ w) wider
    rw [show m + (count + 1) = m + 1 + count by omega]
    constructor
    · exact widest
    · intro i below
      rcases Nat.lt_succ_iff_lt_or_eq.mp below with lower | rfl
      · exact above i lower
      · have here : shifts poly i c = c >>> i := shifts_above above
        have out : (c >>> i).getLsbD 0 = false := here ▸ clear
        simpa using out

theorem Within.xor {m : Nat} {a b : BitVec w} (low : Within m a) (also : Within m b) : Within m (a ^^^ b) := by
  intro i above
  rw [BitVec.getLsbD_xor, low i above, also i above]
  rfl

-- Two runs over different items part in their registers. When they meet again, the difference before the last
-- item lay within one item's bits, before the last two within two items' bits, and so on back: as long as the
-- register is wide enough, nothing of a difference can have fallen out.

def feed (poly : BitVec w) {k : Nat} (c : BitVec w) (item : BitVec k) : BitVec w :=
  shifts poly k (c ^^^ item.setWidth w)

section Burst

variable {k : Nat}

theorem within_item (item : BitVec k) : Within k (item.setWidth w) := by
  intro i above
  rw [BitVec.getLsbD_setWidth, BitVec.getLsbD_of_ge item i above, Bool.and_false]

theorem feed_xor (s t : BitVec w) (x y : BitVec k) :
    feed poly s x ^^^ feed poly t y = shifts poly k ((s ^^^ x.setWidth w) ^^^ (t ^^^ y.setWidth w)) :=
  (shifts_xor k _ _).symm

theorem within_of_meet (top : poly.getLsbD (w - 1) = true) {xs ys : List (BitVec k)} (alike : xs.length = ys.length)
    (room : xs.length * k ≤ w) {s t : BitVec w} (meet : xs.foldl (feed poly) s = ys.foldl (feed poly) t) :
    Within (xs.length * k) (s ^^^ t) := by
  induction xs generalizing ys s t with
  | nil =>
    obtain rfl := List.length_eq_zero_iff.mp alike.symm
    intro i _
    rw [show s = t from meet, BitVec.xor_self]
    exact BitVec.getLsbD_zero
  | cons x xs ih =>
    obtain ⟨y, ys, rfl⟩ := List.exists_cons_of_length_eq_add_one alike.symm
    rw [List.length_cons, Nat.succ_mul] at room ⊢
    have after := ih (Nat.succ.inj alike) (by omega) meet
    rw [feed_xor] at after
    obtain ⟨before, -⟩ := Within.of_shifts top room after
    -- what the two items added lies in the lowest bits
    have apart : s ^^^ t = ((s ^^^ x.setWidth w) ^^^ (t ^^^ y.setWidth w)) ^^^ (x.setWidth w ^^^ y.setWidth w) := by
      refine BitVec.eq_of_getLsbD_eq fun i _ => ?_
      simp only [BitVec.getLsbD_xor]
      cases s.getLsbD i <;> cases t.getLsbD i <;> cases (x.setWidth w).getLsbD i <;>
        cases (y.setWidth w).getLsbD i <;> rfl
    have items : Within (xs.length * k + k) (x.setWidth w ^^^ y.setWidth w) := by
      intro i above
      exact (within_item x).xor (within_item y) i (by omega)
    exact apart ▸ before.xor items

-- A register notices every change of as many bits in a row as it has itself.
theorem eq_of_meet (top : poly.getLsbD (w - 1) = true) {xs ys : List (BitVec k)} (alike : xs.length = ys.length)
    (room : xs.length * k ≤ w) {s : BitVec w} (meet : xs.foldl (feed poly) s = ys.foldl (feed poly) s) : xs = ys := by
  induction xs generalizing ys s with
  | nil => exact (List.length_eq_zero_iff.mp alike.symm).symm
  | cons x xs ih =>
    obtain ⟨y, ys, rfl⟩ := List.exists_cons_of_length_eq_add_one alike.symm
    rw [List.length_cons, Nat.succ_mul] at room
    have after := within_of_meet top (Nat.succ.inj alike) (by omega) meet
    rw [feed_xor] at after
    obtain ⟨-, clear⟩ := Within.of_shifts top room after
    have same : x = y := by
      refine BitVec.eq_of_getLsbD_eq fun i inside => ?_
      have bit := clear i inside
      have fits : i < w := by omega
      simp only [BitVec.getLsbD_xor, BitVec.getLsbD_setWidth, fits, decide_true, Bool.true_and] at bit
      revert bit
      cases s.getLsbD i <;> cases x.getLsbD i <;> cases y.getLsbD i <;> simp
    subst same
    rw [ih (Nat.succ.inj alike) (by omega) meet]

end Burst

end Register

section Fold

variable {S A : Type} {step : S → A → S}

theorem foldl_injective (each : ∀ a, Function.Injective fun s => step s a) (data : List A) :
    Function.Injective fun s => data.foldl step s := by
  induction data with
  | nil => exact fun _ _ same => same
  | cons a rest ih => exact fun s t same => each a (ih same)

-- A fold that loses nothing of its state and of its items notices any one changed item.
theorem foldl_set_ne (each : ∀ a, Function.Injective fun s => step s a) (items : ∀ s, Function.Injective (step s))
    {data : List A} {i : Nat} (inside : i < data.length) {a : A} (changed : data[i] ≠ a) (s : S) :
    (data.set i a).foldl step s ≠ data.foldl step s := by
  induction data generalizing s i with
  | nil => exact absurd inside (Nat.not_lt_zero i)
  | cons head rest ih =>
    cases i with
    | zero =>
      intro same
      exact changed (items s (foldl_injective each rest same)).symm
    | succ i => exact ih (Nat.lt_of_succ_lt_succ inside) changed (step s head)

end Fold

end Crc
