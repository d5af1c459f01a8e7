import Mathlib.Data.Set.Card
import SimKv.Lib.Rejection

set_option autoImplicit false

/-!
# Random numbers

`simcore::rng`. Every choice of the simulator is drawn from xoshiro256++, seeded through SplitMix64. A bounded
draw multiplies and rejects, so that no answer is more likely than another.
-/

namespace SimKv

structure SplitMix64 where
  state : UInt64
  deriving DecidableEq, Repr

def SplitMix64.next (sm : SplitMix64) : UInt64 × SplitMix64 :=
  let state := sm.state + 0x9E3779B97F4A7C15
  let z := (state ^^^ (state >>> 30)) * 0xBF58476D1CE4E5B9
  let z := (z ^^^ (z >>> 27)) * 0x94D049BB133111EB
  (z ^^^ (z >>> 31), { state })

def rotateLeft (x : UInt64) (count : UInt64) : UInt64 := (x <<< count) ||| (x >>> (64 - count))

structure Rng where
  s0 : UInt64
  s1 : UInt64
  s2 : UInt64
  s3 : UInt64
  deriving DecidableEq, Repr

namespace Rng

def new (seed : UInt64) : Rng :=
  let (s0, sm) := SplitMix64.next { state := seed }
  let (s1, sm) := sm.next
  let (s2, sm) := sm.next
  let (s3, _) := sm.next
  { s0, s1, s2, s3 }

def nextU64 (r : Rng) : UInt64 × Rng :=
  let result := rotateLeft (r.s0 + r.s3) 23 + r.s0
  let t := r.s1 <<< 17
  let s2 := r.s2 ^^^ r.s0
  let s3 := r.s3 ^^^ r.s1
  let s1 := r.s1 ^^^ s2
  let s0 := r.s0 ^^^ s3
  let s2 := s2 ^^^ t
  let s3 := rotateLeft s3 45
  (result, { s0, s1, s2, s3 })

def threshold (n : UInt64) : UInt64 := (0 - n) % n

/-- One turn of the loop of `below`: the product has 128 bits, and none are lost. -/
def accept (n x : UInt64) : Option UInt64 :=
  let m := x.toNat * n.toNat
  let low := UInt64.ofNat m
  if low ≥ threshold n then some (UInt64.ofNat (m >>> 64)) else none

def belowLoop (n : UInt64) : Nat → Rng → Option (UInt64 × Rng)
  | 0, _ => none
  | fuel + 1, r =>
      let (x, r) := r.nextU64
      match accept n x with
      | some v => some (v, r)
      | none => belowLoop n fuel r

def below (fuel : Nat) (r : Rng) (n : UInt64) : Option (UInt64 × Rng) :=
  if n ≤ 1 then some (0, r) else belowLoop n fuel r

theorem threshold_toNat {n : UInt64} (some_ : 0 < n.toNat) : (threshold n).toNat = 2 ^ 64 % n.toNat := by
  have small := n.toNat_lt
  have wrapped : (2 ^ 64 - n.toNat) % 2 ^ 64 = 2 ^ 64 - n.toNat := Nat.mod_eq_of_lt (by omega)
  calc (threshold n).toNat
    _ = (2 ^ 64 - n.toNat + 0) % 2 ^ 64 % n.toNat := by rw [threshold, UInt64.toNat_mod, UInt64.toNat_sub]; rfl
    _ = (2 ^ 64 - n.toNat) % n.toNat := by rw [Nat.add_zero, wrapped]
    _ = 2 ^ 64 % n.toNat := (Nat.mod_eq_sub_mod small.le).symm

theorem high_toNat (n x : UInt64) :
    (UInt64.ofNat ((x.toNat * n.toNat) >>> 64)).toNat = x.toNat * n.toNat / 2 ^ 64 := by
  have fits : x.toNat * n.toNat / 2 ^ 64 < 2 ^ 64 :=
    Nat.div_lt_of_lt_mul (Nat.mul_lt_mul_of_lt_of_lt x.toNat_lt n.toNat_lt)
  rw [UInt64.toNat_ofNat', Nat.shiftRight_eq_div_pow, Nat.mod_eq_of_lt fits]

theorem low_le_iff {n : UInt64} (some_ : 0 < n.toNat) (x : UInt64) :
    UInt64.ofNat (x.toNat * n.toNat) ≥ threshold n ↔ 2 ^ 64 % n.toNat ≤ x.toNat * n.toNat % 2 ^ 64 := by
  rw [ge_iff_le, UInt64.le_iff_toNat_le, threshold_toNat some_, UInt64.toNat_ofNat']

theorem accept_eq_some_iff {n : UInt64} (some_ : 0 < n.toNat) (x v : UInt64) :
    accept n x = some v ↔ Rejection.Answers (2 ^ 64) n.toNat v.toNat x.toNat := by
  have answer : UInt64.ofNat ((x.toNat * n.toNat) >>> 64) = v ↔ x.toNat * n.toNat / 2 ^ 64 = v.toNat := by
    rw [← UInt64.toNat_inj, high_toNat]
  simp only [accept, low_le_iff some_, Rejection.Answers, ← answer]
  split
  · next kept =>
    rw [Option.some_inj]
    exact (and_iff_left kept).symm
  · next rejected => exact iff_of_false (Option.some_ne_none v).symm fun both => rejected both.2

theorem accept_eq_none_iff {n : UInt64} (some_ : 0 < n.toNat) (x : UInt64) :
    accept n x = none ↔ x.toNat * n.toNat % 2 ^ 64 < 2 ^ 64 % n.toNat := by
  simp only [accept, low_le_iff some_, ← Nat.not_le]
  split
  · next kept => exact iff_of_false (Option.some_ne_none _) fun rejected => rejected kept
  · next rejected => exact iff_of_true rfl rejected

theorem ncard_words (p : Nat → Prop) [DecidablePred p] :
    {x : UInt64 | p x.toNat}.ncard = ((Finset.range (2 ^ 64)).filter p).card := by
  have image : UInt64.toNat '' {x : UInt64 | p x.toNat} = ((Finset.range (2 ^ 64)).filter p : Finset Nat) := by
    ext k
    simp only [Set.mem_image, Set.mem_ofPred_eq, Finset.coe_filter, Finset.mem_range]
    constructor
    · rintro ⟨x, holds, rfl⟩
      exact ⟨x.toNat_lt, holds⟩
    · rintro ⟨small, holds⟩
      have same : (UInt64.ofNat k).toNat = k := UInt64.toNat_ofNat_of_lt' small
      exact ⟨UInt64.ofNat k, by rwa [same], same⟩
  rw [← Set.ncard_image_of_injective _ (fun _ _ => UInt64.toNat_inj.mp), image, Set.ncard_coe_finset]

theorem below_lt {n x v : UInt64} (some_ : 0 < n.toNat) (accepted : accept n x = some v) : v < n := by
  rw [UInt64.lt_iff_toNat_lt]
  exact Rejection.answer_lt some_ x.toNat_lt ((accept_eq_some_iff some_ x v).mp accepted)

/-- Of the `2 ^ 64` numbers that may be drawn, equally many answer each `v` below `n`, none answers anything
else, and fewer than `n` are drawn again. -/
theorem below_uniform (n : UInt64) (two : 2 ≤ n) :
    (∀ v < n, {x : UInt64 | accept n x = some v}.ncard = 2 ^ 64 / n.toNat) ∧
    (∀ x v : UInt64, accept n x = some v → v < n) ∧
    {x : UInt64 | accept n x = none}.ncard < n.toNat := by
  have some_ : 0 < n.toNat := by
    have two' := UInt64.le_iff_toNat_le.mp two
    simp at two'
    omega
  refine ⟨?_, ?_, ?_⟩
  · intro v inside
    simp only [accept_eq_some_iff some_]
    rw [ncard_words]
    exact Rejection.card_answers (by decide) some_ (UInt64.lt_iff_toNat_lt.mp inside)
  · intro x v accepted
    exact below_lt some_ accepted
  · simp only [accept_eq_none_iff some_]
    rw [ncard_words fun x => x * n.toNat % 2 ^ 64 < 2 ^ 64 % n.toNat, Rejection.card_rejected (by decide) some_]
    exact Nat.mod_lt _ some_

theorem below_uniform_five :
    {x : UInt64 | accept 5 x = some 3}.ncard = 3689348814741910323 ∧ {x : UInt64 | accept 5 x = none}.ncard < 5 := by
  obtain ⟨each, -, rejected⟩ := below_uniform 5 (by decide)
  exact ⟨each 3 (by decide), rejected⟩

def draws : Rng → Nat → UInt64
  | r, 0 => r.nextU64.1
  | r, k + 1 => draws r.nextU64.2 k

-- The loop answers with what the first accepted draw comes to.
theorem belowLoop_first {n v : UInt64} {fuel : Nat} {r r' : Rng} (done : belowLoop n fuel r = some (v, r')) :
    ∃ k < fuel, accept n (r.draws k) = some v ∧ ∀ j < k, accept n (r.draws j) = none := by
  induction fuel generalizing r with
  | zero => simp [belowLoop] at done
  | succ fuel ih =>
    rw [belowLoop] at done
    cases turn : accept n r.nextU64.1 with
    | some w =>
      simp only [turn, Option.some.injEq, Prod.mk.injEq] at done
      obtain ⟨rfl, -⟩ := done
      exact ⟨0, Nat.succ_pos fuel, turn, fun j none => absurd none (Nat.not_lt_zero j)⟩
    | none =>
      simp only [turn] at done
      obtain ⟨k, inside, answer, before⟩ := ih done
      refine ⟨k + 1, Nat.succ_lt_succ inside, answer, ?_⟩
      intro j earlier
      cases j with
      | zero => exact turn
      | succ j => exact before j (Nat.lt_of_succ_lt_succ earlier)

theorem below_in_range {n v : UInt64} {fuel : Nat} {r r' : Rng} (some_ : 0 < n)
    (done : below fuel r n = some (v, r')) : v < n := by
  rw [below] at done
  split at done
  · cases done
    exact some_
  · obtain ⟨k, -, answer, -⟩ := belowLoop_first done
    exact below_lt (UInt64.lt_iff_toNat_lt.mp some_) answer

end Rng

end SimKv
