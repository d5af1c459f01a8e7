import Mathlib.Data.List.Basic
import Mathlib.Order.Bounds.Basic
import Mathlib.Order.Nat

set_option autoImplicit false

/-!
# A claim over ranges that arrive in any order

Ranges of consecutive numbers arrive one after another. A claim grows from where it began, as far as
the ranges so far cover every number on the way, and never beyond a cap. Ranges it cannot use yet wait.
-/

namespace Coverage

def Covered (ranges : List (Nat × Nat)) (low high : Nat) : Prop :=
  ∀ i, low < i → i ≤ high → ∃ range ∈ ranges, range.1 ≤ i ∧ i ≤ range.2

def Stuck (cap claim : Nat) (ranges : List (Nat × Nat)) : Prop :=
  ∀ range ∈ ranges, range.1 ≤ claim + 1 → claim < range.2 → cap ≤ claim

variable {cap cap' low claim claim' : Nat} {ranges ranges' waiting waiting' : List (Nat × Nat)}

theorem Covered.refl (low : Nat) : Covered ranges low low := fun _ above below => absurd above (by omega)

theorem Covered.mono (covered : Covered ranges low claim) (more : ranges ⊆ ranges') : Covered ranges' low claim := by
  intro i above below
  obtain ⟨range, member, inside⟩ := covered i above below
  exact ⟨range, more member, inside⟩

theorem Covered.trans (first : Covered ranges low claim) (second : Covered ranges claim claim') :
    Covered ranges low claim' := by
  intro i above below
  by_cases reached : i ≤ claim
  · exact first i above reached
  · exact second i (by omega) below

structure Claims (cap claim : Nat) (waiting : List (Nat × Nat)) (claim' : Nat) (waiting' : List (Nat × Nat)) :
    Prop where
  grows : claim ≤ claim'
  capped : claim' ≤ max claim cap
  covered : Covered waiting claim claim'
  within : claim' = claim ∨ ∃ range ∈ waiting, claim' ≤ range.2
  fewer : waiting'.length ≤ waiting.length
  subset : waiting' ⊆ waiting
  kept : ∀ range ∈ waiting, range.2 ≤ claim' ∨ range ∈ waiting'
  stuck : Stuck cap claim' waiting'

-- A lower cap is as good, if no range reaches above it.
theorem Claims.narrow (claims : Claims cap' claim waiting claim' waiting') (lower : cap ≤ cap')
    (short : ∀ range ∈ waiting, range.2 ≤ cap) : Claims cap claim waiting claim' waiting' where
  grows := claims.grows
  capped := by
    obtain same | ⟨range, member, reaches⟩ := claims.within
    · exact same.trans_le (le_max_left _ _)
    · exact (reaches.trans (short range member)).trans (le_max_right _ _)
  covered := claims.covered
  within := claims.within
  fewer := claims.fewer
  subset := claims.subset
  kept := claims.kept
  stuck := fun range member before behind => lower.trans (claims.stuck range member before behind)

/-- The claim that began at `low`, after `ranges` have arrived: what it used is covered, what it has not used
waits. -/
structure Tracks (cap : Nat) (ranges : List (Nat × Nat)) (low claim : Nat) (waiting : List (Nat × Nat)) : Prop where
  started : low ≤ claim
  capped : claim ≤ max low cap
  covered : Covered ranges low claim
  subset : waiting ⊆ ranges
  kept : ∀ range ∈ ranges, range.2 ≤ claim ∨ range ∈ waiting

theorem Tracks.start (cap low : Nat) (waiting : List (Nat × Nat)) : Tracks cap waiting low low waiting where
  started := le_rfl
  capped := le_max_left _ _
  covered := .refl low
  subset := List.Subset.refl _
  kept := fun _ member => .inr member

-- A range arrives and waits.
theorem Tracks.arrive (tracks : Tracks cap ranges low claim waiting) (range : Nat × Nat) :
    Tracks cap (ranges ++ [range]) low claim (waiting ++ [range]) where
  started := tracks.started
  capped := tracks.capped
  covered := tracks.covered.mono (List.subset_append_left _ _)
  subset := List.append_subset.mpr ⟨List.Subset.trans tracks.subset (List.subset_append_left _ _), List.subset_append_right _ _⟩
  kept := by
    intro other member
    obtain old | new := List.mem_append.mp member
    · exact (tracks.kept other old).imp_right (List.mem_append_left _)
    · exact .inr (List.mem_append_right _ new)

-- A range arrives that the claim is already past.
theorem Tracks.pass (tracks : Tracks cap ranges low claim waiting) {range : Nat × Nat} (past : range.2 ≤ claim) :
    Tracks cap (ranges ++ [range]) low claim waiting where
  started := tracks.started
  capped := tracks.capped
  covered := tracks.covered.mono (List.subset_append_left _ _)
  subset := List.Subset.trans tracks.subset (List.subset_append_left _ _)
  kept := by
    intro other member
    obtain old | new := List.mem_append.mp member
    · exact tracks.kept other old
    · exact .inl (List.mem_singleton.mp new ▸ past)

theorem Tracks.raise (tracks : Tracks cap ranges low claim waiting) (higher : cap ≤ cap') :
    Tracks cap' ranges low claim waiting where
  started := tracks.started
  capped := tracks.capped.trans (max_le (le_max_left _ _) (higher.trans (le_max_right _ _)))
  covered := tracks.covered
  subset := tracks.subset
  kept := tracks.kept

theorem Tracks.grow (tracks : Tracks cap ranges low claim waiting)
    (claims : Claims cap claim waiting claim' waiting') : Tracks cap ranges low claim' waiting' where
  started := tracks.started.trans claims.grows
  capped := claims.capped.trans (max_le tracks.capped (le_max_right _ _))
  covered := tracks.covered.trans (claims.covered.mono tracks.subset)
  subset := List.Subset.trans claims.subset tracks.subset
  kept := by
    intro range member
    obtain used | waits := tracks.kept range member
    · exact .inl (used.trans claims.grows)
    · exact claims.kept range waits

-- A claim that is stuck is as large as the ranges allow, whatever their order was.
theorem Tracks.isGreatest (tracks : Tracks cap ranges low claim waiting) (below : low ≤ cap)
    (stuck : Stuck cap claim waiting) :
    IsGreatest {d | low ≤ d ∧ d ≤ cap ∧ Covered ranges low d} claim := by
  have capped := tracks.capped
  rw [max_eq_right below] at capped
  refine ⟨⟨tracks.started, capped, tracks.covered⟩, ?_⟩
  rintro d ⟨-, room, covered⟩
  by_contra more
  rw [not_le] at more
  -- the number right above the claim lies in a range that waits, and could be claimed
  obtain ⟨range, member, before, behind⟩ := covered (claim + 1) (by have := tracks.started; omega) more
  obtain used | waits := tracks.kept range member
  · omega
  · have := stuck range waits before behind
    omega

end Coverage
