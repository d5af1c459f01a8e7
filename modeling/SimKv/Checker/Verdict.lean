import Mathlib.Data.List.Dedup
import SimKv.Checker.Search
import SimKv.Lib.Linearization

set_option autoImplicit false

/-!
# What the verdicts of the checker are worth

A history is linearizable if its operations have an order that keeps real time and that the map of
the store explains. A `Linearizable` verdict is always right. A `Violation` is right as long as no
operation on the key returns at the instant of its invocation: such an operation has its return in
front of its call, and the search gets stuck there.
-/

namespace SimKv

open Std Linearization Backtrack

namespace Operation

def start (o : Operation) : Nat := o.invoked.toNat

def finish (o : Operation) : Option Nat := o.completed.map UInt64.toNat

def onMap (map : ExtTreeMap String String) (o : Operation) : Outcome × ExtTreeMap String String :=
  StateMachine.perform map o.op

def onRegister (held : Option String) (o : Operation) : Outcome × Option String :=
  match o.op with
  | .noop | .setMembers _ => (.written, held)
  | .get _ => (.value held, held)
  | .put _ value => (.written, some value)
  | .delete _ => (.written, none)
  | .cas _ expect value => if held = expect then (.cas true, some value) else (.cas false, held)

/-- The operation returns at the instant of its invocation. A pending operation returns at the end of
time. -/
def Instant (o : Operation) : Prop := o.completed.getD Nanos.max = o.invoked

end Operation

namespace History

variable (h : History)

def keyed : List Operation := h.ops.filter fun o => o.key.isSome

def on (key : String) : List Operation := h.ops.filter fun o => o.key = some key

/-- One order of the answered operations and some of the pending ones, on one map for all keys. -/
def Linearizes (order : List Operation) : Prop :=
  IsLinearization Operation.start Operation.finish Operation.onMap Operation.outcome ∅ h.keyed order

def LinearizesOn (key : String) (order : List Operation) : Prop :=
  IsLinearization Operation.start Operation.finish Operation.onRegister Operation.outcome none (h.on key) order

structure Sane : Prop where
  distinct : (h.ops.map Operation.id).Nodup
  ordered : ∀ o ∈ h.ops, ∀ t ∈ o.completed, o.invoked ≤ t
  agree : ∀ o ∈ h.ops, o.completed.isSome = o.outcome.isSome

variable {h}

theorem wellFormedFrom_ok {seen : List Nat} {ops : List Operation} (accepted : wellFormedFrom seen ops = .ok ()) :
    (∀ o ∈ ops, o.id ∉ seen) ∧ Sane ⟨ops⟩ := by
  induction ops generalizing seen with
  | nil => exact ⟨nofun, .nil, nofun, nofun⟩
  | cons o rest ih =>
    rw [wellFormedFrom] at accepted
    split at accepted
    · cases accepted
    · next fresh =>
      split at accepted
      · cases accepted
      · next ordered =>
        split at accepted
        · cases accepted
        · next agree =>
          obtain ⟨unseen, sane⟩ := ih accepted
          refine ⟨List.forall_mem_cons.mpr ⟨fresh, fun p here => ?_⟩, ?_, ?_, ?_⟩
          · exact fun member => unseen p here (List.mem_cons_of_mem _ member)
          · refine List.nodup_cons.mpr ⟨fun member => ?_, sane.distinct⟩
            obtain ⟨p, here, same⟩ := List.mem_map.mp member
            exact unseen p here (same ▸ List.mem_cons_self)
          · refine List.forall_mem_cons.mpr ⟨fun t found => ?_, sane.ordered⟩
            rw [Option.mem_def] at found
            rw [found] at ordered
            exact UInt64.not_lt.mp (by simpa using ordered)
          · exact List.forall_mem_cons.mpr ⟨not_not.mp agree, sane.agree⟩

theorem sane_of_wellFormed (accepted : h.wellFormed = .ok ()) : h.Sane := (wellFormedFrom_ok accepted).2

theorem Sane.nodup (sane : h.Sane) : h.ops.Nodup := List.Nodup.of_map _ sane.distinct

end History

namespace Checker

variable {ops : List Operation}

variable (ops) in
def runs (state : Reg) (order : List Nat) : Option Reg :=
  order.foldlM (fun state i => if (step state ops[i]!).1 then some (step state ops[i]!).2 else none) state

variable (ops) in
def InTime (order : List Nat) : Prop :=
  order.Pairwise (fun i j => ¬ retOf ops j < callOf ops i) ∧ ∀ i ∈ order, ¬ retOf ops i < callOf ops i

-- Choices from the root linearize operations in time.
theorem order_of_leads {c : Config} (leads : Relation.ReflTransGen (Choice (choices ops)) (root ops) c) :
    ∃ order : List Nat, order.Nodup ∧ (∀ i < ops.length, c.1.test i = true ↔ i ∈ order) ∧
      (∀ i ∈ order, i < ops.length) ∧ InTime ops order ∧
      (∀ i ∈ order, ∀ j < ops.length, j ∉ order → ¬ retOf ops j < callOf ops i) ∧
      runs ops .absent order = some c.2 := by
  induction leads with
  | refl =>
    refine ⟨[], .nil, fun i _ => ?_, nofun, ⟨.nil, nofun⟩, nofun, rfl⟩
    have none : (root ops).1.test i = false := by
      rw [root, Words.test, List.getD_eq_getElem?_getD, List.getElem?_replicate]
      split <;> simp
    simp [none]
  | tail _ chosen ih =>
    obtain ⟨order, nodup, holds, within, ⟨inTime, timely⟩, open', run⟩ := ih
    obtain ⟨wide, i, short, absent, before, fits, rfl⟩ := choice_iff.mp chosen
    have fresh : i ∉ order := fun member => by
      rw [(holds i short).mpr member] at absent
      cases absent
    have unset : ∀ j < ops.length, j ∉ order → ¬ retOf ops j < callOf ops i := by
      intro j shortJ missing
      refine before j shortJ ?_
      rw [← holds j shortJ] at missing
      simpa using missing
    refine ⟨order ++ [i], ?_, ?_, ?_, ⟨?_, ?_⟩, ?_, ?_⟩
    · exact List.nodup_append.mpr ⟨nodup, List.nodup_singleton i, by
        rintro a here b there rfl
        exact fresh (List.mem_singleton.mp there ▸ here)⟩
    · intro j shortJ
      rw [Words.test_mark (wide.within short), Bool.or_eq_true, holds j shortJ, decide_eq_true_eq, List.mem_append,
        List.mem_singleton, eq_comm]
    · intro j member
      obtain here | same := List.mem_append.mp member
      · exact within j here
      · exact List.mem_singleton.mp same ▸ short
    · refine List.pairwise_append.mpr ⟨inTime, List.pairwise_singleton _ _, fun a here b there => ?_⟩
      exact List.mem_singleton.mp there ▸ open' a here i short fresh
    · intro j member
      obtain here | same := List.mem_append.mp member
      · exact timely j here
      · exact List.mem_singleton.mp same ▸ unset i short fresh
    · intro j member k shortK missing
      have missing' : k ∉ order := fun here => missing (List.mem_append_left _ here)
      obtain here | same := List.mem_append.mp member
      · exact open' j here k shortK missing'
      · exact List.mem_singleton.mp same ▸ unset k shortK missing'
    · rw [runs, List.foldlM_append, ← runs, run]
      simp [short, fits]

-- An order in time that the outcomes allow is a way through the choices.
theorem leads_of_order {c : Config} {order : List Nat} {final : Reg} (wide : Wide ops c.1) (nodup : order.Nodup)
    (left : ∀ i < ops.length, c.1.test i = false ↔ i ∈ order) (within : ∀ i ∈ order, i < ops.length)
    (inTime : InTime ops order) (run : runs ops c.2 order = some final) :
    ∃ d, Relation.ReflTransGen (Choice (choices ops)) c d ∧ Complete ops d := by
  induction order generalizing c with
  | nil =>
    refine ⟨c, .refl, List.eq_nil_iff_forall_not_mem.mpr fun p here => ?_⟩
    obtain ⟨short, absent⟩ := mem_live.mp here
    exact List.not_mem_nil ((left _ (opAt_lt short)).mp absent)
  | cons i rest ih =>
    obtain ⟨fresh, nodup⟩ := List.nodup_cons.mp nodup
    obtain ⟨⟨first, later⟩, timely⟩ := And.imp_left List.pairwise_cons.mp inTime
    have short := within i List.mem_cons_self
    have absent := (left i short).mpr List.mem_cons_self
    rw [runs, List.foldlM_cons, getElem!_pos ops i short] at run
    split at run
    · next fits =>
      have choice : Choice (choices ops) c (c.1.mark i, (step c.2 ops[i]).2) := by
        refine choice_iff.mpr ⟨wide, i, short, absent, fun j shortJ missing => ?_, fits, rfl⟩
        obtain rfl | here := List.mem_cons.mp ((left j shortJ).mp missing)
        · exact timely j List.mem_cons_self
        · exact first j here
      have left' : ∀ j < ops.length, (c.1.mark i).test j = false ↔ j ∈ rest := by
        intro j shortJ
        rw [Words.test_mark (wide.within short), Bool.or_eq_false_iff, left j shortJ, decide_eq_false_iff_not,
          List.mem_cons]
        constructor
        · rintro ⟨rfl | here, apart⟩
          · exact absurd rfl apart
          · exact here
        · exact fun here => ⟨.inr here, fun same => fresh (same ▸ here)⟩
      obtain ⟨d, leads, complete⟩ := @ih (c.1.mark i, (step c.2 ops[i]).2) (wide.mark i) nodup left'
        (fun j here => within j (List.mem_cons_of_mem _ here))
        ⟨later, fun j here => timely j (List.mem_cons_of_mem _ here)⟩ run
      exact ⟨d, .head choice leads, complete⟩
    · cases run

theorem step_fits (state : Reg) {o : Operation} (keyed : o.key.isSome) :
    ((step state o).1 = true ↔ ∀ a ∈ o.outcome, (o.onRegister state.asOpt).1 = a) ∧
      (step state o).2.asOpt = (o.onRegister state.asOpt).2 := by
  have recorded : ∀ answer : Outcome, (o.outcome.isNone || decide (o.outcome = some answer)) = true ↔
      ∀ a ∈ o.outcome, answer = a := by
    intro answer
    cases o.outcome with
    | none => simp
    | some a => simp [eq_comm]
  rw [step, Operation.onRegister]
  cases op : o.op with
  | noop | setMembers members => simp [Operation.key, Op.key, op] at keyed
  | get key => exact ⟨recorded _, rfl⟩
  | put key value => exact ⟨recorded _, rfl⟩
  | delete key => exact ⟨recorded _, rfl⟩
  | cas key expect value =>
    by_cases same : state.asOpt = expect
    · simp only [same, decide_true, if_true]
      exact ⟨recorded _, rfl⟩
    · simp only [same, decide_false, if_false, Bool.false_eq_true]
      exact ⟨recorded _, trivial⟩

theorem runs_isSome_iff {state : Reg} {order : List Nat} (within : ∀ i ∈ order, i < ops.length)
    (keyed : ∀ o ∈ ops, o.key.isSome) :
    (runs ops state order).isSome ↔
      Explains Operation.onRegister Operation.outcome state.asOpt (order.map fun i => ops[i]!) := by
  induction order generalizing state with
  | nil => simp [runs, Explains]
  | cons i rest ih =>
    have short := within i List.mem_cons_self
    obtain ⟨accepts, moves⟩ := step_fits state (keyed ops[i] (List.getElem_mem short))
    rw [runs, List.foldlM_cons, List.map_cons, Explains, getElem!_pos ops i short]
    by_cases fits : (step state ops[i]).1 = true
    · rw [if_pos fits, ← moves, ← ih fun j here => within j (List.mem_cons_of_mem _ here)]
      exact ⟨fun run => ⟨accepts.mp fits, run⟩, fun both => both.2⟩
    · rw [if_neg fits]
      exact iff_of_false (by simp) fun both => fits (accepts.mpr both.1)

theorem returnTime_le_of_precedes {a b : Operation} (precedes : Precedes Operation.start Operation.finish a b) :
    returnTime a ≤ b.invoked := by
  obtain ⟨t, returns, early⟩ := precedes
  obtain ⟨time, completed, rfl⟩ := Option.map_eq_some_iff.mp returns
  rw [returnTime, completed]
  exact UInt64.le_iff_toNat_le.mpr early

theorem Nanos.le_max (t : Nanos) : t ≤ Nanos.max := by
  rw [UInt64.le_iff_toNat_le]
  have := t.toNat_lt
  change t.toNat ≤ 18446744073709551615
  omega

-- What is invoked at the end of time returns at once.
theorem precedes_of_returnTime_le {a b : Operation} (early : returnTime a ≤ b.invoked)
    (lasting : ¬ returnTime b ≤ b.invoked) : Precedes Operation.start Operation.finish a b := by
  cases completed : a.completed with
  | some t =>
    rw [returnTime, completed] at early
    exact ⟨t.toNat, by simp [Operation.finish, completed], UInt64.le_iff_toNat_le.mp early⟩
  | none =>
    rw [returnTime, completed] at early
    exact absurd (UInt64.le_trans (Nanos.le_max _) early) lasting

theorem map_range_getElem (ops : List Operation) : (List.range ops.length).map (fun i => ops[i]!) = ops := by
  refine List.ext_getElem (by simp) fun i here there => ?_
  simp [there]

-- A way through all the choices is an order of the operations, and none of them is instant.
theorem order_of_explored (explored : Explored ops) (keyed : ∀ o ∈ ops, o.key.isSome) :
    ∃ order : List Operation, order.Perm ops ∧ Respects Operation.start Operation.finish order ∧
      Explains Operation.onRegister Operation.outcome none order ∧ ∀ o ∈ ops, ¬ returnTime o ≤ o.invoked := by
  obtain ⟨c, leads, complete⟩ := explored
  obtain ⟨order, nodup, holds, within, ⟨inTime, timely⟩, -, run⟩ := order_of_leads leads
  have all : ∀ i, i ∈ order ↔ i < ops.length := by
    intro i
    refine ⟨within i, fun short => ?_⟩
    rw [← holds i short]
    by_contra absent
    have here : callOf ops i ∈ live ops c.1 :=
      mem_live.mpr ⟨(callOf_spec short).1, by simpa [opAt_callOf short] using absent⟩
    rw [complete] at here
    cases here
  have perm : order.Perm (List.range ops.length) :=
    (List.perm_ext_iff_of_nodup nodup List.nodup_range).mpr fun i => by rw [all, List.mem_range]
  refine ⟨order.map fun i => ops[i]!, ?_, ?_, ?_, ?_⟩
  · have listed := perm.map fun i => ops[i]!
    rwa [map_range_getElem] at listed
  · refine List.pairwise_map.mpr (inTime.imp_of_mem fun {i j} here there ahead precedes => ahead ?_)
    have left := (all i).mp here
    have right := (all j).mp there
    rw [getElem!_pos ops i left, getElem!_pos ops j right] at precedes
    exact (retOf_lt_callOf right left).mpr (returnTime_le_of_precedes precedes)
  · exact (runs_isSome_iff within keyed).mp (Option.isSome_of_eq_some run)
  · intro o member early
    obtain ⟨i, short, rfl⟩ := List.getElem_of_mem member
    exact timely i ((all i).mpr short) ((retOf_lt_callOf short short).mpr early)

-- An order of operations none of which is instant is a way through the choices.
theorem explored_of_order {order : List Operation} (perm : order.Perm ops) (nodup : ops.Nodup)
    (respects : Respects Operation.start Operation.finish order)
    (explained : Explains Operation.onRegister Operation.outcome none order)
    (lasting : ∀ o ∈ ops, ¬ returnTime o ≤ o.invoked) (keyed : ∀ o ∈ ops, o.key.isSome) : Explored ops := by
  have indexed : (order.map ops.idxOf).Perm (List.range ops.length) := by
    have self : ops.map ops.idxOf = List.range ops.length := by
      refine List.ext_getElem (by simp) fun i here there => ?_
      simp [nodup.idxOf_getElem]
    exact self ▸ perm.map _
  have back : (order.map ops.idxOf).map (fun i => ops[i]!) = order := by
    rw [List.map_map]
    refine (List.map_congr_left fun o here => ?_).trans (List.map_id _)
    have short := List.idxOf_lt_length_of_mem (perm.subset here)
    rw [Function.comp, getElem!_pos ops _ short, List.getElem_idxOf short, id]
  have within : ∀ i ∈ order.map ops.idxOf, i < ops.length := fun i here =>
    List.mem_range.mp (indexed.subset here)
  have run : (runs ops .absent (order.map ops.idxOf)).isSome := by
    rw [runs_isSome_iff within keyed, back]
    exact explained
  obtain ⟨final, run⟩ := Option.isSome_iff_exists.mp run
  refine @leads_of_order ops (root ops) _ final (List.length_replicate ..)
    (indexed.nodup_iff.mpr List.nodup_range) ?_ within ⟨?_, ?_⟩ run
  · intro i short
    have absent : (root ops).1.test i = false := by
      rw [root, Words.test, List.getD_eq_getElem?_getD, List.getElem?_replicate]
      split <;> simp
    exact ⟨fun _ => indexed.mem_iff.mpr (List.mem_range.mpr short), fun _ => absent⟩
  · have ahead := respects
    rw [← back, Respects, List.pairwise_map] at ahead
    refine ahead.imp_of_mem fun {i j} here there apart early => apart ?_
    have left := within i here
    have right := within j there
    rw [getElem!_pos ops i left, getElem!_pos ops j right]
    exact precedes_of_returnTime_le ((retOf_lt_callOf right left).mp early) (lasting _ (List.getElem_mem left))
  · intro i here early
    have short := within i here
    exact lasting _ (List.getElem_mem short) ((retOf_lt_callOf short short).mp early)

theorem getElem?_byKey (ops : List Operation) (key : String) :
    (byKey ops)[key]? =
      if ops.filter (fun o => o.key = some key) = [] then none else some (ops.filter fun o => o.key = some key) := by
  induction ops using List.reverseRecOn with
  | nil => rfl
  | append_singleton ops o ih =>
    rw [List.filter_append]
    cases named : o.key with
    | none =>
      have unfolded : byKey (ops ++ [o]) = byKey ops := by
        simp only [byKey, List.foldl_append, List.foldl_cons, List.foldl_nil, named]
      rw [unfolded]
      simpa [named] using ih
    | some other =>
      have unfolded : byKey (ops ++ [o]) =
          (byKey ops).alter other fun found => some (found.getD [] ++ [o]) := by
        simp only [byKey, List.foldl_append, List.foldl_cons, List.foldl_nil, named]
      rw [unfolded, ExtTreeMap.getElem?_alter]
      by_cases same : other = key
      · subst same
        rw [if_pos ReflCmp.compare_self, ih]
        by_cases empty : ops.filter (fun p => p.key = some other) = []
        · simp [named, empty]
        · simp [named, empty]
      · have apart : compare other key ≠ .eq := fun eq => same (LawfulEqCmp.eq_of_compare eq)
        rw [if_neg apart, ih]
        simp [named, same]

theorem mem_byKey {h : History} {key : String} {group : List Operation} :
    (key, group) ∈ (byKey h.ops).toList ↔ group = h.on key ∧ group ≠ [] := by
  rw [ExtTreeMap.mem_toList_iff_getElem?_eq_some, getElem?_byKey, History.on]
  split
  · next empty =>
    rw [empty]
    exact ⟨nofun, fun ⟨same, filled⟩ => absurd same filled⟩
  · next filled =>
    rw [Option.some.injEq]
    exact ⟨fun same => ⟨same.symm, same ▸ filled⟩, fun ⟨same, _⟩ => same.symm⟩

-- The walk visits the keys that are in use in the order of their names.
theorem mem_before_iff {h : History} {before after : List (String × List Operation)} {key smaller : String}
    (split : (byKey h.ops).toList = before ++ (key, h.on key) :: after) (used : h.on smaller ≠ []) :
    (smaller, h.on smaller) ∈ before ↔ smaller < key := by
  have ordered : (byKey h.ops).toList.Pairwise fun a b => compare a.1 b.1 = .lt := ExtTreeMap.ordered_keys_toList
  rw [split] at ordered
  have parts := List.pairwise_append.mp ordered
  constructor
  · intro earlier
    exact compareOfLessAndEq_eq_lt.mp (parts.2.2 _ earlier _ List.mem_cons_self)
  · intro below
    have listed : (smaller, h.on smaller) ∈ (byKey h.ops).toList := mem_byKey.mpr ⟨rfl, used⟩
    rw [split] at listed
    obtain earlier | later := List.mem_append.mp listed
    · exact earlier
    · exfalso
      obtain same | behind := List.mem_cons.mp later
      · obtain rfl : smaller = key := (Prod.ext_iff.mp same).1
        exact String.lt_irrefl _ below
      · have above := compareOfLessAndEq_eq_lt.mp ((List.pairwise_cons.mp parts.2.1).1 _ behind)
        exact String.lt_irrefl _ (String.lt_trans below above)

variable {debug : String → String} {c : Checker} {groups : List (String × List Operation)}

theorem checkAll_linearizable (verdict : (checkAll debug groups c).1 = .linearizable) :
    ∀ group ∈ groups, Explored group.2 := by
  induction groups generalizing c with
  | nil => nofun
  | cons group rest ih =>
    obtain ⟨key, ops⟩ := group
    have means := @checkPartition_means ops debug c key
    rw [checkAll] at verdict
    split at verdict
    · next found =>
      rw [found] at means
      exact List.forall_mem_cons.mpr ⟨means, ih verdict⟩
    · next refused =>
      refine absurd ?_ (refused (checkPartition ops debug c key).2)
      exact Prod.ext verdict rfl

theorem checkAll_violation {key detail : String} (verdict : (checkAll debug groups c).1 = .violation key detail) :
    ∃ before ops after, groups = before ++ (key, ops) :: after ∧ (∀ group ∈ before, Explored group.2) ∧
      ¬ Explored ops := by
  induction groups generalizing c with
  | nil => cases verdict
  | cons group rest ih =>
    obtain ⟨first, ops⟩ := group
    have means := @checkPartition_means ops debug c first
    rw [checkAll] at verdict
    split at verdict
    · next found =>
      rw [found] at means
      obtain ⟨before, ops', after, rfl, explored, stuck⟩ := ih verdict
      exact ⟨(first, ops) :: before, ops', after, rfl, List.forall_mem_cons.mpr ⟨means, explored⟩, stuck⟩
    · next refused =>
      rw [verdict] at means
      exact ⟨[], ops, rest, by rw [means.1]; rfl, nofun, means.2⟩

theorem checkAll_stops {before after : List (String × List Operation)} {key : String} {ops : List Operation}
    (explored : ∀ group ∈ before, Explored group.2) (stuck : ¬ Explored ops)
    (afford : ∀ group ∈ before ++ (key, ops) :: after, enough group.2 ≤ c.budget) :
    ∃ detail, (checkAll debug (before ++ (key, ops) :: after) c).1 = .violation key detail := by
  induction before generalizing c with
  | nil =>
    have means := @checkPartition_means ops debug c key
    have afforded : enough ops ≤ c.budget := afford (key, ops) List.mem_cons_self
    rw [List.nil_append, checkAll]
    cases found : (checkPartition ops debug c key).1 with
    | linearizable =>
      rw [found] at means
      exact absurd means stuck
    | violation other detail =>
      rw [found] at means
      obtain ⟨rfl, -⟩ := means
      refine ⟨detail, ?_⟩
      split
      · next same =>
        rw [same] at found
        cases found
      · exact found
    | unknown other reason =>
      rw [found] at means
      exact absurd means (Nat.not_lt.mpr afforded)
  | cons group rest ih =>
    obtain ⟨first, partition⟩ := group
    have means := @checkPartition_means partition debug c first
    have afforded : enough partition ≤ c.budget := afford (first, partition) List.mem_cons_self
    have same := @checkPartition_budget partition debug c first
    rw [List.cons_append, checkAll]
    cases found : checkPartition partition debug c first with
    | mk verdict next =>
      rw [found] at means same
      obtain rfl : verdict = .linearizable := by
        cases verdict with
        | linearizable => rfl
        | violation other detail => exact absurd (explored _ List.mem_cons_self) means.2
        | unknown other reason => exact absurd means (Nat.not_lt.mpr afforded)
      refine ih (List.forall_mem_cons.mp explored).2 fun group here => ?_
      exact same.symm ▸ afford group (List.mem_cons_of_mem _ here)

end Checker

namespace Operation

theorem onMap_register (map : ExtTreeMap String String) {o : Operation} {key : String} (named : o.key = some key) :
    (o.onMap map).1 = (o.onRegister map[key]?).1 ∧ (o.onMap map).2[key]? = (o.onRegister map[key]?).2 ∧
      ∀ other ≠ key, (o.onMap map).2[other]? = map[other]? := by
  have apart : ∀ other ≠ key, compare key other ≠ .eq := fun other distinct same =>
    distinct (LawfulEqCmp.eq_of_compare same).symm
  rw [onMap, onRegister]
  cases op : o.op with
  | noop | setMembers members => simp [Operation.key, Op.key, op] at named
  | get name =>
    obtain rfl : name = key := by simpa [Operation.key, Op.key, op] using named
    exact ⟨rfl, rfl, fun _ _ => rfl⟩
  | put name value =>
    obtain rfl : name = key := by simpa [Operation.key, Op.key, op] using named
    refine ⟨rfl, ExtTreeMap.getElem?_insert_self, fun other distinct => ?_⟩
    exact ExtTreeMap.getElem?_insert.trans (if_neg (apart other distinct))
  | delete name =>
    obtain rfl : name = key := by simpa [Operation.key, Op.key, op] using named
    refine ⟨rfl, ExtTreeMap.getElem?_erase_self, fun other distinct => ?_⟩
    exact ExtTreeMap.getElem?_erase.trans (if_neg (apart other distinct))
  | cas name expect value =>
    obtain rfl : name = key := by simpa [Operation.key, Op.key, op] using named
    simp only [StateMachine.perform]
    by_cases matched : map[name]? = expect
    · rw [if_pos matched, if_pos matched]
      refine ⟨rfl, ExtTreeMap.getElem?_insert_self, fun other distinct => ?_⟩
      exact ExtTreeMap.getElem?_insert.trans (if_neg (apart other distinct))
    · rw [if_neg matched, if_neg matched]
      exact ⟨rfl, rfl, fun _ _ => rfl⟩

-- A map explains an order if a register explains it key by key.
theorem explains_onMap {map : ExtTreeMap String String} {order : List Operation}
    (keyed : ∀ o ∈ order, o.key.isSome)
    (each : ∀ key, Explains onRegister outcome map[key]? (order.filter fun o => o.key = some key)) :
    Explains onMap outcome map order := by
  induction order generalizing map with
  | nil => trivial
  | cons o rest ih =>
    obtain ⟨key, named⟩ := Option.isSome_iff_exists.mp (keyed o List.mem_cons_self)
    obtain ⟨answer, here, elsewhere⟩ := onMap_register map named
    have own := each key
    rw [List.filter_cons_of_pos (by simp [named])] at own
    refine ⟨answer ▸ own.1, ih (fun p later => keyed p (List.mem_cons_of_mem _ later)) fun other => ?_⟩
    by_cases same : other = key
    · subst same
      rw [here]
      exact own.2
    · rw [elsewhere other same]
      have others := each other
      rwa [List.filter_cons_of_neg (by simpa [named] using Ne.symm same)] at others

end Operation

namespace History

variable {h : History}

theorem mem_on {key : String} {o : Operation} : o ∈ h.on key ↔ o ∈ h.ops ∧ o.key = some key := by
  simp [on]

theorem on_keyed (key : String) : ∀ o ∈ h.on key, o.key.isSome := by
  intro o here
  rw [(mem_on.mp here).2]
  rfl

theorem Sane.nodup_on (sane : h.Sane) (key : String) : (h.on key).Nodup := sane.nodup.filter _

theorem Sane.silent (sane : h.Sane) : ∀ o ∈ h.ops, o.outcome = none → o.finish = none := by
  intro o here pending
  have agree := sane.agree o here
  rw [pending] at agree
  rw [Operation.finish, Option.map_eq_none_iff]
  simpa using agree

theorem Sane.instant_iff (sane : h.Sane) {o : Operation} (here : o ∈ h.ops) :
    o.Instant ↔ Checker.returnTime o ≤ o.invoked := by
  refine ⟨fun instant => ?_, fun early => UInt64.le_antisymm early ?_⟩
  · exact instant ▸ UInt64.le_refl _
  · cases completed : o.completed with
    | none => exact Checker.Nanos.le_max _
    | some t => exact sane.ordered o here t completed

-- The search of a key can succeed exactly if the key is linearizable and nothing on it is instant.
theorem Sane.explored_iff (sane : h.Sane) (key : String) :
    Checker.Explored (h.on key) ↔ (∃ order, h.LinearizesOn key order) ∧ ∀ o ∈ h.on key, ¬ o.Instant := by
  constructor
  · intro explored
    obtain ⟨order, perm, respects, explained, lasting⟩ := Checker.order_of_explored explored (on_keyed key)
    refine ⟨⟨order, isLinearization_of_perm perm (sane.nodup_on key) respects explained⟩, fun o here instant => ?_⟩
    exact lasting o here ((sane.instant_iff (mem_on.mp here).1).mp instant)
  · rintro ⟨⟨order, linear⟩, lasting⟩
    obtain ⟨full, perm, respects, explained⟩ := linear.all (sane.nodup_on key)
      fun o here => sane.silent o (mem_on.mp here).1
    refine Checker.explored_of_order perm (sane.nodup_on key) respects explained (fun o here early => ?_)
      (on_keyed key)
    exact lasting o here ((sane.instant_iff (mem_on.mp here).1).mpr early)

structure OrdersOn (h : History) (key : String) (order : List Operation) : Prop where
  perm : order.Perm (h.on key)
  respects : Respects Operation.start Operation.finish order
  explained : Explains Operation.onRegister Operation.outcome none order
  lasting : ∀ o ∈ order, ∀ t ∈ o.finish, o.start < t

theorem ordersOn_of_explored {key : String} (explored : Checker.Explored (h.on key)) :
    ∃ order, h.OrdersOn key order := by
  obtain ⟨order, perm, respects, explained, lasting⟩ := Checker.order_of_explored explored (on_keyed key)
  refine ⟨order, perm, respects, explained, fun o here t returns => ?_⟩
  refine Nat.lt_of_not_le fun early => lasting o (perm.subset here) ?_
  exact Checker.returnTime_le_of_precedes ⟨t, returns, early⟩

-- Orders of the single keys make one order of the whole history.
theorem Sane.linearizes (sane : h.Sane) (each : ∀ key, ∃ order, h.OrdersOn key order) : ∃ order, h.Linearizes order := by
  choose orderOf orders using each
  let keys := (h.ops.filterMap Operation.key).dedup
  have nodup : ∀ key, (orderOf key).Nodup := fun key => (orders key).perm.nodup_iff.mpr (sane.nodup_on key)
  have mem : ∀ {key o}, o ∈ orderOf key ↔ o ∈ h.ops ∧ o.key = some key := fun {key o} =>
    (orders key).perm.mem_iff.trans mem_on
  obtain ⟨order, perm, respects, parts⟩ := merge (keys.map orderOf)
    (List.forall_mem_map.mpr fun key _ => (orders key).respects)
    (List.forall_mem_map.mpr fun key _ => (orders key).lasting)
  have known : ∀ {key o}, o ∈ h.ops → o.key = some key → key ∈ keys := fun here named =>
    List.mem_dedup.mpr (List.mem_filterMap.mpr ⟨_, here, named⟩)
  have listed : ∀ {o}, o ∈ order ↔ o ∈ h.keyed := by
    intro o
    rw [perm.mem_iff, List.mem_flatten, keyed, List.mem_filter]
    constructor
    · rintro ⟨l, part, here⟩
      obtain ⟨key, -, rfl⟩ := List.mem_map.mp part
      obtain ⟨member, named⟩ := mem.mp here
      exact ⟨member, by rw [named]; rfl⟩
    · rintro ⟨here, named⟩
      obtain ⟨key, named⟩ := Option.isSome_iff_exists.mp named
      exact ⟨orderOf key, List.mem_map_of_mem (known here named), mem.mpr ⟨here, named⟩⟩
  have distinct : order.Nodup := by
    rw [perm.nodup_iff, List.nodup_flatten]
    refine ⟨List.forall_mem_map.mpr fun key _ => nodup key, List.pairwise_map.mpr ?_⟩
    refine (List.nodup_dedup _).imp fun apart o here there => apart ?_
    exact Option.some.inj ((mem.mp here).2.symm.trans (mem.mp there).2)
  have byKey : ∀ key, order.filter (fun o => o.key = some key) = orderOf key := by
    intro key
    have same : (orderOf key).Perm (order.filter fun o => o.key = some key) := by
      refine (List.perm_ext_iff_of_nodup (nodup key) (distinct.filter _)).mpr fun o => ?_
      rw [List.mem_filter, listed, keyed, List.mem_filter, decide_eq_true_eq, mem]
      exact ⟨fun ⟨here, named⟩ => ⟨⟨here, by rw [named]; rfl⟩, named⟩, fun ⟨⟨here, _⟩, named⟩ => ⟨here, named⟩⟩
    by_cases used : key ∈ keys
    · have own : (orderOf key).filter (fun o => o.key = some key) = orderOf key :=
        List.filter_eq_self.mpr fun o here => decide_eq_true (mem.mp here).2
      have part := (parts _ (List.mem_map_of_mem used)).filter fun o => decide (o.key = some key)
      rw [own] at part
      exact (part.eq_of_length same.length_eq).symm
    · have empty : orderOf key = [] := List.eq_nil_iff_forall_not_mem.mpr fun o here =>
        used (known (mem.mp here).1 (mem.mp here).2)
      rw [empty] at same ⊢
      exact same.symm.eq_nil
  refine ⟨order, isLinearization_of_perm ?_ ?_ respects (Operation.explains_onMap ?_ fun key => ?_)⟩
  · exact (List.perm_ext_iff_of_nodup distinct (sane.nodup.filter _)).mpr fun o => listed
  · exact sane.nodup.filter _
  · intro o here
    exact (List.mem_filter.mp (listed.mp here)).2
  · rw [byKey key]
    exact (orders key).explained

end History

namespace Checker

variable {h : History}

theorem check_eq (debug : String → String) (c : Checker) (h : History) :
    ∃ stats, c.check debug h = checkAll debug (byKey h.ops).toList { c with stats } := ⟨_, rfl⟩

/-- A `Linearizable` verdict is right for the whole store. -/
theorem linearizable_sound (accepted : h.wellFormed = .ok ()) {debug : String → String} {c : Checker}
    (verdict : (c.check debug h).1 = .linearizable) : ∃ order, h.Linearizes order := by
  have sane := History.sane_of_wellFormed accepted
  refine sane.linearizes fun key => ?_
  by_cases empty : h.on key = []
  · exact ⟨[], by rw [empty], .nil, trivial, nofun⟩
  · have member : (key, h.on key) ∈ (byKey h.ops).toList := mem_byKey.mpr ⟨rfl, empty⟩
    exact History.ordersOn_of_explored (checkAll_linearizable verdict _ member)

def quoted (text : String) : String := "\"" ++ text ++ "\""

def overlapping : History where
  ops := [
    { id := 1, client := 0, op := .put "k" "a", invoked := 0, completed := some 100, outcome := some .written },
    { id := 2, client := 1, op := .get "k", invoked := 10, completed := some 90, outcome := some (.value none) },
    { id := 3, client := 2, op := .cas "j" none "b", invoked := 20, completed := none, outcome := none },
    { id := 4, client := 1, op := .get "j", invoked := 95, completed := some 99, outcome := some (.value (some "b")) }]

theorem linearizable_sound_overlapping :
    (check quoted {} overlapping).1 = .linearizable ∧ ∃ order, overlapping.Linearizes order := by
  have verdict : (check quoted {} overlapping).1 = .linearizable := by decide +kernel
  exact ⟨verdict, linearizable_sound rfl verdict⟩

/-- A `Violation` of a key is right, whatever the budget, unless the key is linearizable after all, some
operation on it is instant, and no smaller key ends the check first. -/
theorem violation_right_iff (accepted : h.wellFormed = .ok ()) (key : String) (debug : String → String) :
    (∀ (c : Checker) (detail : String), (c.check debug h).1 = .violation key detail →
        ¬ ∃ order, h.LinearizesOn key order) ↔
      ¬ ((∃ o ∈ h.on key, o.Instant) ∧ (∃ order, h.LinearizesOn key order) ∧
        ∀ smaller < key, (∃ order, h.LinearizesOn smaller order) ∧ ∀ o ∈ h.on smaller, ¬ o.Instant) := by
  have sane := History.sane_of_wellFormed accepted
  constructor
  · rintro right ⟨⟨o, here, instant⟩, linear, smaller⟩
    obtain ⟨before, after, split⟩ := List.append_of_mem (mem_byKey.mpr ⟨rfl, List.ne_nil_of_mem here⟩)
    -- with enough budget for every key the search gets to this one and is stuck
    let rich : Checker := { budget := ((before ++ (key, h.on key) :: after).map fun group => enough group.2).sum }
    have explored : ∀ group ∈ before, Explored group.2 := by
      rintro ⟨name, group⟩ earlier
      have listed : (name, group) ∈ (byKey h.ops).toList := split ▸ List.mem_append_left _ earlier
      obtain ⟨rfl, filled⟩ := mem_byKey.mp listed
      exact (sane.explored_iff name).mpr (smaller name ((mem_before_iff split filled).mp earlier))
    have stuck : ¬ Explored (h.on key) := fun explored => ((sane.explored_iff key).mp explored).2 o here instant
    have afford : ∀ group ∈ before ++ (key, h.on key) :: after, enough group.2 ≤ rich.budget :=
      fun group member => List.le_sum_of_mem (List.mem_map_of_mem member)
    obtain ⟨stats, unfolded⟩ := check_eq debug rich h
    obtain ⟨detail, verdict⟩ := @checkAll_stops debug { rich with stats } before after key _ explored stuck afford
    rw [← split, ← unfolded] at verdict
    exact right rich detail verdict linear
  · rintro exact' c detail verdict linear
    obtain ⟨before, ops, after, split, explored, stuck⟩ := checkAll_violation verdict
    obtain ⟨rfl, -⟩ : ops = h.on key ∧ ops ≠ [] :=
      mem_byKey.mp (split ▸ List.mem_append_right _ List.mem_cons_self)
    refine exact' ⟨?_, linear, fun smaller below => ?_⟩
    · by_contra lasting
      push Not at lasting
      exact stuck ((sane.explored_iff key).mpr ⟨linear, lasting⟩)
    · by_cases empty : h.on smaller = []
      · refine ⟨⟨[], isLinearization_of_perm (empty ▸ .nil) (sane.nodup_on smaller) .nil trivial⟩, ?_⟩
        rw [empty]
        exact nofun
      · exact (sane.explored_iff smaller).mp (explored _ ((mem_before_iff split empty).mpr below))

def Verdict.violated : Verdict → Option String
  | .violation key _ => some key
  | _ => none

theorem violation_of_violated {verdict : Verdict} {key : String} (violated : Verdict.violated verdict = some key) :
    ∃ detail, verdict = .violation key detail := by
  cases verdict with
  | violation other detail => exact ⟨detail, by rw [Option.some.inj violated]⟩
  | linearizable => cases violated
  | unknown other reason => cases violated

def staleRead : History where
  ops := [
    { id := 1, client := 0, op := .put "k" "a", invoked := 0, completed := some 10, outcome := some .written },
    { id := 2, client := 1, op := .get "k", invoked := 20, completed := some 30, outcome := some (.value none) }]

theorem violation_right_iff_staleRead :
    (∃ detail, (check quoted {} staleRead).1 = .violation "k" detail) ∧ ¬ ∃ order, staleRead.LinearizesOn "k" order := by
  have violated : ∃ detail, (check quoted {} staleRead).1 = .violation "k" detail :=
    violation_of_violated (by decide +kernel)
  have lasting : ∀ o ∈ staleRead.on "k", ¬ o.Instant := by
    unfold Operation.Instant
    decide +kernel
  have right := (violation_right_iff (h := staleRead) rfl "k" quoted).mpr fun ⟨⟨o, here, instant⟩, _⟩ =>
    lasting o here instant
  obtain ⟨detail, verdict⟩ := violated
  exact ⟨⟨detail, verdict⟩, right {} detail verdict⟩

def instantWrite : History where
  ops := [{ id := 1, client := 0, op := .put "k" "a", invoked := 5, completed := some 5, outcome := some .written }]

theorem instantWrite_false_alarm :
    instantWrite.wellFormed = .ok () ∧ (∃ detail, (check quoted {} instantWrite).1 = .violation "k" detail) ∧
      ∃ order, instantWrite.LinearizesOn "k" order := by
  refine ⟨rfl, violation_of_violated (by decide +kernel), instantWrite.ops, ?_⟩
  have all : instantWrite.on "k" = instantWrite.ops := by decide +kernel
  refine isLinearization_of_perm (all ▸ .refl _) (all ▸ List.nodup_singleton _) (List.pairwise_singleton _ _) ?_
  exact ⟨fun a answer => Option.some.inj answer, trivial⟩

end Checker

end SimKv
