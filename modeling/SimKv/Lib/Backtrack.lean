import Mathlib.Algebra.Order.BigOperators.Group.List
import Mathlib.Algebra.Order.Ring.Nat
import Mathlib.Logic.Relation

set_option autoImplicit false

/-!
# Depth-first search that remembers where it has been

At every configuration the search has a list of choices. A choice is refused (`none`) or leads to
another configuration, which is entered unless it was entered before. A configuration whose choices
are used up is left again. Each configuration ranks above the one it was entered from, so one that
was entered before is not being explored any more.
-/

namespace Backtrack

open Relation

variable {S : Type} (options : S → List (Option S)) (goal : S → Prop)

structure Frame (S : Type) where
  config : S
  rest : List (Option S)

structure State (S : Type) where
  frames : List (Frame S)
  cache : List S

inductive Turn : State S → State S → Prop where
  | refuse (c : S) (rest : List (Option S)) (below : List (Frame S)) (cache : List S) :
      Turn ⟨⟨c, none :: rest⟩ :: below, cache⟩ ⟨⟨c, rest⟩ :: below, cache⟩
  | known (c d : S) (rest : List (Option S)) (below : List (Frame S)) (cache : List S) (seen : d ∈ cache) :
      Turn ⟨⟨c, some d :: rest⟩ :: below, cache⟩ ⟨⟨c, rest⟩ :: below, cache⟩
  | enter (c d : S) (rest : List (Option S)) (below : List (Frame S)) (cache : List S) (unseen : d ∉ cache) :
      Turn ⟨⟨c, some d :: rest⟩ :: below, cache⟩ ⟨⟨d, options d⟩ :: ⟨c, rest⟩ :: below, d :: cache⟩
  | leave (c : S) (below : List (Frame S)) (cache : List S) (short : ¬ goal c) :
      Turn ⟨⟨c, []⟩ :: below, cache⟩ ⟨below, cache⟩

def start (root : S) : State S := { frames := [⟨root, options root⟩], cache := [] }

def Choice (c d : S) : Prop := some d ∈ options c

def Barren (c : S) : Prop := ∀ d, ReflTransGen (Choice options) c d → ¬ goal d

/-- The frames below one that explores `c`: `c` is the only choice they still wait for. -/
def Waits (root : S) : S → List (Frame S) → Prop
  | c, [] => c = root
  | c, f :: below =>
    (∀ d, Choice options f.config d → some d ∈ f.rest ∨ Barren options goal d ∨ d = c) ∧
      Waits root f.config below

def Passed (root : S) : List (Frame S) → Prop
  | [] => Barren options goal root
  | f :: below =>
    (∀ d, Choice options f.config d → some d ∈ f.rest ∨ Barren options goal d) ∧
      Waits options goal root f.config below

structure Inv (rank : S → Nat) (root : S) (s : State S) : Prop where
  leads : ∀ f ∈ s.frames, ReflTransGen (Choice options) root f.config
  descends : s.frames.Pairwise fun f g => rank g.config < rank f.config
  within : ∀ f ∈ s.frames, ∀ d, some d ∈ f.rest → Choice options f.config d
  passed : Passed options goal root s.frames
  cached : ∀ d ∈ s.cache, Barren options goal d ∨ ∃ f ∈ s.frames, f.config = d

variable {options goal}

theorem barren_of_choices {c : S} (short : ¬ goal c) (spent : ∀ d, Choice options c d → Barren options goal d) :
    Barren options goal c := by
  intro d leads
  obtain rfl | ⟨e, choice, onward⟩ := leads.cases_head
  · exact short
  · exact spent e choice d onward

section Search

variable {rank : S → Nat} {root : S} {s t : State S}

theorem inv_start : Inv options goal rank root (start options root) where
  leads := by
    rintro f (_ | ⟨_, ⟨⟩⟩)
    exact .refl
  descends := List.pairwise_singleton _ _
  within := by
    rintro f (_ | ⟨_, ⟨⟩⟩) d here
    exact here
  passed := ⟨fun _ choice => .inl choice, rfl⟩
  cached := nofun

-- The newest frame moves on past a choice that is refused or barren.
theorem Inv.skip {c : S} {choice : Option S} {rest : List (Option S)} {below : List (Frame S)} {cache : List S}
    (inv : Inv options goal rank root ⟨⟨c, choice :: rest⟩ :: below, cache⟩)
    (fruitless : ∀ d, choice = some d → Barren options goal d) :
    Inv options goal rank root ⟨⟨c, rest⟩ :: below, cache⟩ where
  leads := List.forall_mem_cons.mpr (List.forall_mem_cons.mp inv.leads)
  descends := List.pairwise_cons.mpr (List.pairwise_cons.mp inv.descends)
  within := by
    rintro f (_ | ⟨_, member⟩) d here
    · exact inv.within ⟨c, _⟩ List.mem_cons_self d (List.mem_cons_of_mem _ here)
    · exact inv.within f (List.mem_cons_of_mem _ member) d here
  passed := by
    refine ⟨fun d chosen => ?_, inv.passed.2⟩
    obtain here | barren := inv.passed.1 d chosen
    · obtain same | later := List.mem_cons.mp here
      · exact .inr (fruitless d same.symm)
      · exact .inl later
    · exact .inr barren
  cached := by
    intro d member
    obtain barren | ⟨f, here, same⟩ := inv.cached d member
    · exact .inl barren
    · obtain rfl | below := List.mem_cons.mp here
      · exact .inr ⟨_, List.mem_cons_self, same⟩
      · exact .inr ⟨f, List.mem_cons_of_mem _ below, same⟩

-- What was entered before and ranks above the newest frame has been left again.
theorem Inv.barren_of_seen {c d : S} {rest : List (Option S)} {below : List (Frame S)} {cache : List S}
    (inv : Inv options goal rank root ⟨⟨c, some d :: rest⟩ :: below, cache⟩)
    (climbs : ∀ c d, Choice options c d → rank c < rank d) (seen : d ∈ cache) : Barren options goal d := by
  have above : rank c < rank d := climbs c d (inv.within ⟨c, _⟩ List.mem_cons_self d List.mem_cons_self)
  obtain barren | ⟨f, here, same⟩ := inv.cached d seen
  · exact barren
  · obtain rfl | member := List.mem_cons.mp here
    · exact absurd above (same ▸ lt_irrefl _)
    · have lower := (List.pairwise_cons.mp inv.descends).1 f member
      rw [same] at lower
      exact absurd lower (lt_asymm above)

theorem Inv.enter {c d : S} {rest : List (Option S)} {below : List (Frame S)} {cache : List S}
    (inv : Inv options goal rank root ⟨⟨c, some d :: rest⟩ :: below, cache⟩)
    (climbs : ∀ c d, Choice options c d → rank c < rank d) :
    Inv options goal rank root ⟨⟨d, options d⟩ :: ⟨c, rest⟩ :: below, d :: cache⟩ := by
  have choice : Choice options c d := inv.within ⟨c, _⟩ List.mem_cons_self d List.mem_cons_self
  obtain ⟨highest, ordered⟩ := List.pairwise_cons.mp inv.descends
  exact {
    leads := by
      obtain ⟨here, lower⟩ := List.forall_mem_cons.mp inv.leads
      exact List.forall_mem_cons.mpr ⟨here.tail choice, List.forall_mem_cons.mpr ⟨here, lower⟩⟩
    descends := by
      refine List.pairwise_cons.mpr ⟨?_, List.pairwise_cons.mpr ⟨highest, ordered⟩⟩
      rintro f (_ | ⟨_, member⟩)
      · exact climbs c d choice
      · exact (highest f member).trans (climbs c d choice)
    within := by
      rintro f (_ | ⟨_, _ | ⟨_, member⟩⟩) e here
      · exact here
      · exact inv.within ⟨c, _⟩ List.mem_cons_self e (List.mem_cons_of_mem _ here)
      · exact inv.within f (List.mem_cons_of_mem _ member) e here
    passed := by
      refine ⟨fun _ chosen => .inl chosen, fun e chosen => ?_, inv.passed.2⟩
      obtain here | barren := inv.passed.1 e chosen
      · obtain same | later := List.mem_cons.mp here
        · exact .inr (.inr (Option.some.inj same))
        · exact .inl later
      · exact .inr (.inl barren)
    cached := by
      rintro e (_ | ⟨_, member⟩)
      · exact .inr ⟨_, List.mem_cons_self, rfl⟩
      · obtain barren | ⟨f, here, same⟩ := inv.cached e member
        · exact .inl barren
        · obtain rfl | lower := List.mem_cons.mp here
          · exact .inr ⟨⟨c, rest⟩, List.mem_cons_of_mem _ List.mem_cons_self, same⟩
          · exact .inr ⟨f, List.mem_cons_of_mem _ (List.mem_cons_of_mem _ lower), same⟩ }

theorem Inv.barren_of_spent {c : S} {below : List (Frame S)} {cache : List S}
    (inv : Inv options goal rank root ⟨⟨c, []⟩ :: below, cache⟩) (short : ¬ goal c) : Barren options goal c := by
  refine barren_of_choices short fun d chosen => ?_
  obtain here | barren := inv.passed.1 d chosen
  · cases here
  · exact barren

theorem Inv.leave {c : S} {below : List (Frame S)} {cache : List S}
    (inv : Inv options goal rank root ⟨⟨c, []⟩ :: below, cache⟩) (short : ¬ goal c) :
    Inv options goal rank root ⟨below, cache⟩ where
  leads f member := inv.leads f (List.mem_cons_of_mem _ member)
  descends := (List.pairwise_cons.mp inv.descends).2
  within f member := inv.within f (List.mem_cons_of_mem _ member)
  passed := by
    have spent := inv.barren_of_spent short
    obtain ⟨-, waits⟩ := inv.passed
    cases below with
    | nil => exact waits ▸ spent
    | cons f lower =>
      refine ⟨fun d chosen => ?_, waits.2⟩
      obtain here | barren | rfl := waits.1 d chosen
      · exact .inl here
      · exact .inr barren
      · exact .inr spent
  cached := by
    intro d member
    obtain barren | ⟨f, here, rfl⟩ := inv.cached d member
    · exact .inl barren
    · obtain rfl | lower := List.mem_cons.mp here
      · exact .inl (inv.barren_of_spent short)
      · exact .inr ⟨f, lower, rfl⟩

theorem Turn.inv (climbs : ∀ c d, Choice options c d → rank c < rank d) (turn : Turn options goal s t)
    (inv : Inv options goal rank root s) : Inv options goal rank root t := by
  cases turn with
  | refuse c rest below cache => exact inv.skip nofun
  | known c d rest below cache seen =>
    refine inv.skip fun e same => ?_
    exact Option.some.inj same ▸ inv.barren_of_seen climbs seen
  | enter c d rest below cache unseen => exact inv.enter climbs
  | leave c below cache short => exact inv.leave short

/-- A bound on the moves that are left, when no configuration ranks above `height` or has more than
`width` choices. -/
def cost (rank : S → Nat) (height width : Nat) (s : State S) : Nat :=
  (s.frames.map fun f => (f.rest.length + 1) * (width + 2) ^ (height - rank f.config)).sum

theorem cost_pos {height width : Nat} {f : Frame S} {below : List (Frame S)} (frames : s.frames = f :: below) :
    0 < cost rank height width s := by
  rw [cost, frames, List.map_cons, List.sum_cons]
  exact Nat.add_pos_left (Nat.mul_pos (Nat.succ_pos _) (Nat.pow_pos (Nat.succ_pos _))) _

theorem Turn.cost_lt {height width : Nat} (climbs : ∀ c d, Choice options c d → rank c < rank d)
    (bounded : ∀ c, rank c ≤ height) (narrow : ∀ c, (options c).length ≤ width)
    (inv : Inv options goal rank root s) (turn : Turn options goal s t) :
    cost rank height width t < cost rank height width s := by
  have weight : ∀ c, 0 < (width + 2) ^ (height - rank c) := fun c => Nat.pow_pos (Nat.succ_pos _)
  cases turn with
  | refuse c rest below cache | known c d rest below cache seen =>
    simp only [cost, List.map_cons, List.sum_cons, List.length_cons]
    have := weight c
    rw [Nat.add_mul (rest.length + 1)]
    omega
  | enter c d rest below cache unseen =>
    have choice : Choice options c d := inv.within ⟨c, _⟩ List.mem_cons_self d List.mem_cons_self
    -- a whole level below weighs less than one choice here
    have lighter : ((options d).length + 1) * (width + 2) ^ (height - rank d) < (width + 2) ^ (height - rank c) :=
      calc ((options d).length + 1) * (width + 2) ^ (height - rank d)
          < (width + 2) * (width + 2) ^ (height - rank d) :=
            Nat.mul_lt_mul_of_pos_right (by have := narrow d; omega) (weight d)
        _ = (width + 2) ^ (height - rank d + 1) := (Nat.pow_succ' ..).symm
        _ ≤ (width + 2) ^ (height - rank c) :=
            Nat.pow_le_pow_right (Nat.succ_pos _) (by have := climbs c d choice; have := bounded d; omega)
    simp only [cost, List.map_cons, List.sum_cons, List.length_cons]
    rw [Nat.add_mul (rest.length + 1)]
    omega
  | leave c below cache short =>
    simp only [cost, List.map_cons, List.sum_cons, List.length_nil, Nat.zero_add, Nat.one_mul]
    have := weight c
    omega

end Search

end Backtrack
