import Mathlib.Data.String.Basic
import Mathlib.Logic.Equiv.Basic
import Mathlib.Data.Set.Finite.Lattice
import SimKv.Checker.Verdict

set_option autoImplicit false

/-!
# Renaming keys

A key is only a name to the search: the partition of a renamed key is searched step by step as the
original is. The check as a whole walks the keys in the order of their names and stops at the first
one that is not linearizable, decided or not.
-/

namespace SimKv

open Std

variable {f : String → String}

def Op.rename (f : String → String) : Op → Op
  | .noop => .noop
  | .get key => .get (f key)
  | .put key value => .put (f key) value
  | .delete key => .delete (f key)
  | .cas key expect value => .cas (f key) expect value
  | .setMembers members => .setMembers members

def Operation.rename (f : String → String) (o : Operation) : Operation := { o with op := o.op.rename f }

def History.rename (f : String → String) (h : History) : History := ⟨h.ops.map (Operation.rename f)⟩

@[simp] theorem Operation.rename_key (o : Operation) : (o.rename f).key = o.key.map f := by
  simp only [key, rename]
  cases o.op <;> rfl

theorem History.on_rename (injective : Function.Injective f) (h : History) (key : String) :
    (h.rename f).on (f key) = (h.on key).map (Operation.rename f) := by
  rw [on, on, rename, List.filter_map]
  congr 1
  apply List.filter_congr
  intro o _
  simp [Option.map_eq_some_iff, injective.eq_iff]

-- A name that no key was given has nothing on it.
theorem History.exists_of_on_rename {h : History} {name : String} (used : (h.rename f).on name ≠ []) :
    ∃ key, f key = name := by
  obtain ⟨renamed, member⟩ := List.exists_mem_of_ne_nil _ used
  obtain ⟨member, named⟩ := mem_on.mp member
  obtain ⟨o, _, rfl⟩ := List.mem_map.mp member
  rw [Operation.rename_key, Option.map_eq_some_iff] at named
  obtain ⟨key, _, same⟩ := named
  exact ⟨key, same⟩

namespace Checker

variable (f) (ops : List Operation)

theorem step_rename (state : Reg) (o : Operation) : step state (o.rename f) = step state o := by
  simp only [step, Operation.rename]
  cases o.op <;> rfl

theorem marks_rename : marks (ops.map (Operation.rename f)) = marks ops := by
  rw [marks, List.zipIdx_map, List.flatMap_map]
  rfl

theorem order_rename : order (ops.map (Operation.rename f)) = order ops := by
  rw [order, marks_rename, order]

theorem sentinel_rename : sentinel (ops.map (Operation.rename f)) = sentinel ops := by
  rw [sentinel, List.length_map, sentinel]

theorem threaded_rename : threaded (ops.map (Operation.rename f)) = threaded ops := by
  simp only [threaded, retOf, callOf, order_rename, sentinel_rename]

theorem init_rename : Search.init (ops.map (Operation.rename f)) = Search.init ops := by
  simp only [Search.init, threaded_rename, sentinel_rename, List.length_map]

theorem lift_rename (s : Search) (next : Reg) :
    s.lift (ops.map (Operation.rename f)) next = s.lift ops next := by
  simp only [Search.lift, sentinel_rename]

theorem getElem!_rename (i : Nat) :
    (ops.map (Operation.rename f))[i]! = (ops[i]!).rename f := by
  by_cases within : i < ops.length
  · rw [getElem!_pos _ i (by rwa [List.length_map]), getElem!_pos ops i within, List.getElem_map]
  · rw [getElem!_neg _ i (by rwa [List.length_map]), getElem!_neg ops i within]
    rfl

theorem turn_rename (s : Search) : s.turn (ops.map (Operation.rename f)) = s.turn ops := by
  simp only [Search.turn, getElem!_rename, step_rename, lift_rename]

inductive Verdict.Alike : Verdict → Verdict → Prop where
  | linearizable : Alike .linearizable .linearizable
  | violation (key key' detail detail' : String) : Alike (.violation key detail) (.violation key' detail')
  | unknown (key key' reason reason' : String) : Alike (.unknown key reason) (.unknown key' reason')

theorem search_rename (debug : String → String) (key key' : String) (budget left : Nat) (s : Search) :
    Verdict.Alike (search (ops.map (Operation.rename f)) debug key' budget left s).1
      (search ops debug key budget left s).1 := by
  induction left generalizing s with
  | zero =>
    rw [search, search, sentinel_rename]
    split
    · exact .linearizable
    · exact .unknown ..
  | succ left ih =>
    rw [search, search, sentinel_rename, turn_rename]
    split
    · exact .linearizable
    · cases s.turn ops with
      | some s' => exact ih s'
      | none => exact .violation ..

theorem checkPartition_rename (debug : String → String) (c : Checker) (key key' : String) :
    Verdict.Alike (checkPartition (ops.map (Operation.rename f)) debug c key').1
      (checkPartition ops debug c key).1 := by
  rw [checkPartition, checkPartition, List.length_map, init_rename]
  split
  · exact .linearizable
  · exact search_rename ..

def Verdict.IsViolation (v : Verdict) : Prop := ∃ key detail, v = .violation key detail

def Verdict.IsUnknown (v : Verdict) : Prop := ∃ key reason, v = .unknown key reason

theorem Verdict.Alike.isViolation_iff {v w : Verdict} (alike : Alike v w) : IsViolation v ↔ IsViolation w := by
  cases alike <;> simp [IsViolation]

theorem Verdict.Alike.isUnknown_iff {v w : Verdict} (alike : Alike v w) : IsUnknown v ↔ IsUnknown w := by
  cases alike <;> simp [IsUnknown]

def Search.Ends : Nat → Search → Prop
  | 0, s => s.entry = sentinel ops
  | left + 1, s => s.entry = sentinel ops ∨ ∀ s', s.turn ops = some s' → Search.Ends left s'

def Covered (budget : Nat) : Prop := Search.Ends ops budget (.init ops)

variable {f ops}

theorem search_unknown_iff {debug : String → String} {key : String} {budget left : Nat} {s : Search} :
    Verdict.IsUnknown (search ops debug key budget left s).1 ↔ ¬ Search.Ends ops left s := by
  induction left generalizing s with
  | zero =>
    rw [search, Search.Ends]
    split <;> simp [Verdict.IsUnknown, *]
  | succ left ih =>
    rw [search, Search.Ends]
    split
    · simp [Verdict.IsUnknown, *]
    · cases moved : s.turn ops with
      | some s' => simp [*]
      | none => simp [Verdict.IsUnknown]

theorem covered_nil (budget : Nat) : Covered [] budget := by
  cases budget with
  | zero => rfl
  | succ left => exact .inl rfl

theorem checkPartition_unknown_iff {debug : String → String} {c : Checker} {key : String} :
    Verdict.IsUnknown (checkPartition ops debug c key).1 ↔ ¬ Covered ops c.budget := by
  rw [checkPartition]
  split
  · next empty =>
    rw [List.eq_nil_of_length_eq_zero empty]
    simp [Verdict.IsUnknown, covered_nil]
  · exact search_unknown_iff

theorem checkPartition_violation_iff {debug : String → String} {c : Checker} {key : String} :
    Verdict.IsViolation (checkPartition ops debug c key).1 ↔ Covered ops c.budget ∧ ¬ Explored ops := by
  have unknown := @checkPartition_unknown_iff ops debug c key
  have means := @checkPartition_means ops debug c key
  revert unknown means
  cases (checkPartition ops debug c key).1 with
  | linearizable =>
    intro _ explored
    simp [Verdict.IsViolation, show Explored ops from explored]
  | violation found detail =>
    rintro unknown ⟨_, stuck⟩
    have covered : Covered ops c.budget := by
      simpa [Verdict.IsUnknown] using unknown
    simp [Verdict.IsViolation, covered, stuck]
  | unknown found reason =>
    intro unknown _
    have short : ¬ Covered ops c.budget := unknown.mp ⟨_, _, rfl⟩
    simp [Verdict.IsViolation, short]

theorem checkPartition_congr {debug : String → String} {c c' : Checker} {key : String}
    (same : c.budget = c'.budget) : (checkPartition ops debug c key).1 = (checkPartition ops debug c' key).1 := by
  rw [checkPartition, checkPartition, same]
  split <;> rfl

def alone (debug : String → String) (c : Checker) (h : History) (key : String) : Verdict :=
  (checkPartition (h.on key) debug c key).1

theorem alone_rename (injective : Function.Injective f) (debug : String → String) (c : Checker) (h : History)
    (key : String) : Verdict.Alike (alone debug c (h.rename f) (f key)) (alone debug c h key) := by
  rw [alone, alone, History.on_rename injective]
  exact checkPartition_rename ..

theorem checkAll_violation_iff {debug : String → String} {c : Checker} {groups : List (String × List Operation)} :
    Verdict.IsViolation (checkAll debug groups c).1 ↔ ∃ before group after, groups = before ++ group :: after ∧
      (∀ earlier ∈ before, (checkPartition earlier.2 debug c earlier.1).1 = .linearizable) ∧
      Verdict.IsViolation (checkPartition group.2 debug c group.1).1 := by
  induction groups generalizing c with
  | nil => simp [checkAll, Verdict.IsViolation]
  | cons first rest ih =>
    obtain ⟨key, ops⟩ := first
    rw [checkAll]
    split
    · next c' found =>
      have verdict : (checkPartition ops debug c key).1 = .linearizable := by rw [found]
      have budget : c'.budget = c.budget := by
        rw [← checkPartition_budget debug c key, found]
      rw [ih]
      constructor
      · rintro ⟨before, group, after, rfl, linear, violates⟩
        refine ⟨(key, ops) :: before, group, after, rfl, ?_, ?_⟩
        · refine List.forall_mem_cons.mpr ⟨verdict, fun earlier member => ?_⟩
          rw [← linear earlier member]
          exact checkPartition_congr budget.symm
        · rwa [checkPartition_congr budget.symm]
      · rintro ⟨before, group, after, split, linear, violates⟩
        cases before with
        | nil =>
          obtain ⟨rfl, -⟩ := List.cons.inj split
          obtain ⟨_, _, violates⟩ := violates
          rw [verdict] at violates
          cases violates
        | cons _ before =>
          obtain ⟨rfl, tail⟩ := List.cons.inj split
          refine ⟨before, group, after, tail, fun earlier member => ?_, ?_⟩
          · rw [← linear earlier (List.mem_cons_of_mem _ member)]
            exact checkPartition_congr budget
          · rwa [checkPartition_congr budget]
    · next refused =>
      constructor
      · intro violates
        exact ⟨[], (key, ops), rest, rfl, by simp, violates⟩
      · rintro ⟨before, group, after, split, linear, violates⟩
        cases before with
        | nil =>
          obtain ⟨rfl, -⟩ := List.cons.inj split
          exact violates
        | cons _ before =>
          obtain ⟨rfl, -⟩ := List.cons.inj split
          exact (refused _ (Prod.ext (linear _ List.mem_cons_self) rfl)).elim

theorem alone_unused {debug : String → String} {c : Checker} {h : History} {key : String} (unused : h.on key = []) :
    alone debug c h key = .linearizable := by
  rw [alone, unused]
  rfl

-- A history is reported exactly if some key violates on its own and every smaller one is linearizable.
theorem check_violation_iff {debug : String → String} {c : Checker} {h : History} :
    Verdict.IsViolation (c.check debug h).1 ↔ ∃ key, Verdict.IsViolation (alone debug c h key) ∧
      ∀ smaller < key, alone debug c h smaller = .linearizable := by
  obtain ⟨stats, unfolded⟩ := check_eq debug c h
  have same : ∀ key, (checkPartition (h.on key) debug { c with stats } key).1 = alone debug c h key :=
    fun key => checkPartition_congr rfl
  rw [unfolded, checkAll_violation_iff]
  constructor
  · rintro ⟨before, ⟨key, ops⟩, after, split, linear, violates⟩
    obtain ⟨rfl, -⟩ : ops = h.on key ∧ ops ≠ [] :=
      mem_byKey.mp (split ▸ List.mem_append_right _ List.mem_cons_self)
    refine ⟨key, same key ▸ violates, fun smaller below => ?_⟩
    by_cases unused : h.on smaller = []
    · exact alone_unused unused
    · exact same smaller ▸ linear _ ((mem_before_iff split unused).mpr below)
  · rintro ⟨key, violates, linear⟩
    have used : h.on key ≠ [] := by
      intro unused
      obtain ⟨_, _, violates⟩ := violates
      rw [alone_unused unused] at violates
      cases violates
    obtain ⟨before, after, split⟩ := List.append_of_mem (mem_byKey.mpr ⟨rfl, used⟩)
    refine ⟨before, (key, h.on key), after, split, ?_, (same key).symm ▸ violates⟩
    rintro ⟨smaller, ops⟩ earlier
    obtain ⟨rfl, filled⟩ : ops = h.on smaller ∧ ops ≠ [] :=
      mem_byKey.mp (split ▸ List.mem_append_left _ earlier)
    exact (same smaller).trans (linear smaller ((mem_before_iff split filled).mp earlier))

-- Unless one key violates while another is undecided, a violating key is enough for a report.
theorem check_violation_of_alone {debug : String → String} {c : Checker} {h : History}
    (apart : ¬ ((∃ key, Verdict.IsUnknown (alone debug c h key)) ∧
      ∃ key, Verdict.IsViolation (alone debug c h key))) :
    Verdict.IsViolation (c.check debug h).1 ↔ ∃ key, Verdict.IsViolation (alone debug c h key) := by
  rw [check_violation_iff]
  constructor
  · rintro ⟨key, violates, -⟩
    exact ⟨key, violates⟩
  · rintro ⟨known, violates⟩
    have refused : ∃ key, alone debug c h key ≠ .linearizable := by
      obtain ⟨_, _, found⟩ := violates
      exact ⟨known, by simp [found]⟩
    -- the first key in the order of names that is not linearizable decides
    have finite : {key | alone debug c h key ≠ .linearizable}.Finite := by
      refine (h.ops.filterMap Operation.key).toFinset.finite_toSet.subset fun key other => ?_
      obtain ⟨o, member⟩ := List.exists_mem_of_ne_nil _ fun unused => other (alone_unused (c := c) unused)
      rw [List.coe_toFinset]
      exact List.mem_filterMap.mpr ⟨o, (History.mem_on.mp member)⟩
    obtain ⟨key, least⟩ := finite.exists_minimal refused
    refine ⟨key, ?_, fun smaller below => ?_⟩
    · cases verdict : alone debug c h key with
      | linearizable => exact absurd verdict least.prop
      | violation found detail => exact ⟨found, detail, rfl⟩
      | unknown found reason => exact absurd ⟨⟨key, found, reason, verdict⟩, known, violates⟩ apart
    · by_contra other
      exact least.not_lt (y := smaller) other below

def promote (first key : String) : String := if key = first then "" else "a" ++ key

theorem promote_injective (first : String) : Function.Injective (promote first) := by
  intro a b same
  simp only [promote] at same
  split at same <;> split at same
  · next left right => rw [left, right]
  · simp at same
  · simp at same
  · simpa using same

theorem promote_lt {first key : String} (other : key ≠ first) : promote first first < promote first key := by
  rw [promote, promote, if_pos rfl, if_neg other, String.lt_iff]
  simp

-- Under new names the same kinds of verdicts are found.
theorem exists_alone_rename (injective : Function.Injective f) (debug : String → String) (c : Checker) (h : History)
    {kind : Verdict → Prop} (congr : ∀ {v w}, Verdict.Alike v w → (kind v ↔ kind w)) (linear : ¬ kind .linearizable) :
    (∃ name, kind (alone debug c (h.rename f) name)) ↔ ∃ key, kind (alone debug c h key) := by
  have alike := fun key => alone_rename injective debug c h key
  constructor
  · rintro ⟨name, found⟩
    by_cases unused : (h.rename f).on name = []
    · exact absurd (alone_unused unused ▸ found) linear
    · obtain ⟨key, rfl⟩ := History.exists_of_on_rename unused
      exact ⟨key, (congr (alike key)).mp found⟩
  · rintro ⟨key, found⟩
    exact ⟨f key, (congr (alike key)).mpr found⟩

/-- The report of a history depends on the names of its keys exactly if the budget covers the search of a key
that violates and not the search of another one. -/
theorem violation_names_iff (debug : String → String) (c : Checker) (h : History) :
    ((∀ f, Function.Injective f →
        (Verdict.IsViolation (c.check debug (h.rename f)).1 ↔ Verdict.IsViolation (c.check debug h).1)) ∧
      ((∃ key, Verdict.IsViolation (alone debug c h key)) → Verdict.IsViolation (c.check debug h).1)) ↔
    ¬ ((∃ key, ¬ Covered (h.on key) c.budget) ∧ ∃ key, Covered (h.on key) c.budget ∧ ¬ Explored (h.on key)) := by
  have unknown : ∀ key, Verdict.IsUnknown (alone debug c h key) ↔ ¬ Covered (h.on key) c.budget := fun key =>
    checkPartition_unknown_iff
  have violates : ∀ key, Verdict.IsViolation (alone debug c h key) ↔
      Covered (h.on key) c.budget ∧ ¬ Explored (h.on key) := fun key => checkPartition_violation_iff
  simp only [← unknown, ← violates]
  constructor
  · rintro ⟨renamed, reported⟩ ⟨⟨u, undecided⟩, v, violating⟩
    have alike := fun key => alone_rename (promote_injective u) debug c h key
    obtain ⟨name, found, smaller⟩ := check_violation_iff.mp
      ((renamed _ (promote_injective u)).mpr (reported ⟨v, violating⟩))
    have used : (h.rename (promote u)).on name ≠ [] := by
      intro unused
      obtain ⟨_, _, found⟩ := found
      rw [alone_unused unused] at found
      cases found
    obtain ⟨key, rfl⟩ := History.exists_of_on_rename used
    obtain ⟨_, _, undecided⟩ := (alike u).isUnknown_iff.mpr undecided
    by_cases same : key = u
    · obtain ⟨_, _, found⟩ := found
      rw [same, undecided] at found
      cases found
    · rw [smaller _ (promote_lt same)] at undecided
      cases undecided
  · intro apart
    refine ⟨fun f injective => ?_, (check_violation_of_alone apart).mpr⟩
    have unknowns := exists_alone_rename injective debug c h
      (fun alike => alike.isUnknown_iff) (by simp [Verdict.IsUnknown])
    have violations := exists_alone_rename injective debug c h
      (fun alike => alike.isViolation_iff) (by simp [Verdict.IsViolation])
    rw [check_violation_of_alone apart, check_violation_of_alone (by rwa [unknowns, violations]), violations]

/-- Three writes that a budget of two does not cover, and a read of what nobody wrote on another key. -/
def overworked : History where
  ops := [
    { id := 1, client := 0, op := .put "a" "x", invoked := 0, completed := some 10, outcome := some .written },
    { id := 2, client := 0, op := .put "a" "y", invoked := 20, completed := some 30, outcome := some .written },
    { id := 3, client := 0, op := .put "a" "z", invoked := 40, completed := some 50, outcome := some .written },
    { id := 4, client := 1, op := .get "b", invoked := 0, completed := some 10, outcome := some (.value (some "w")) }]

theorem overworked_hides :
    overworked.wellFormed = .ok () ∧
      Verdict.IsViolation (alone quoted { budget := 2 } overworked "b") ∧
      ¬ Verdict.IsViolation (check quoted { budget := 2 } overworked).1 ∧
      Function.Injective (Equiv.swap "a" "b") ∧
      Verdict.IsViolation (check quoted { budget := 2 } (overworked.rename (Equiv.swap "a" "b"))).1 := by
  have silent : Verdict.violated (check quoted { budget := 2 } overworked).1 = none := by decide +kernel
  refine ⟨rfl, ⟨"b", violation_of_violated (by decide +kernel)⟩, ?_, Equiv.injective _,
    ⟨"a", violation_of_violated (by decide +kernel)⟩⟩
  rintro ⟨key, detail, reported⟩
  rw [reported] at silent
  cases silent

end Checker

end SimKv
