import Mathlib.Data.Finset.Card
import Mathlib.Data.Finset.Range
import Mathlib.Order.Interval.Finset.Nat
import SimKv.Checker.Linearizability
import SimKv.Lib.Backtrack

set_option autoImplicit false

/-!
# What the checker can choose

The search of one key as a graph: a configuration is the set of linearized operations together with
the value of the register, and its choices are the calls in front of the first return, in the order
of the timestamps.
-/

namespace SimKv.Checker

open Std Backtrack

instance : TransCmp Mark.cmp := by
  unfold Mark.cmp
  infer_instance

instance : Std.Total fun a b : Mark => (a.cmp b).isLE = true :=
  ⟨fun a b => by
    have swap : b.cmp a = (a.cmp b).swap := OrientedCmp.eq_swap
    rw [swap]
    cases a.cmp b <;> decide⟩

instance : IsTrans Mark fun a b => (a.cmp b).isLE = true := ⟨fun _ _ _ => TransCmp.isLE_trans⟩

instance : Inhabited Mark := ⟨{ time := 0, rank := 0, id := 0, op := 0, isCall := false }⟩

variable {ops : List Operation}

theorem order_perm : (order ops).Perm (marks ops) := List.perm_insertionSort _ _

theorem mem_marks {m : Mark} :
    m ∈ marks ops ↔ ∃ (i : Nat) (short : i < ops.length), m = .call ops[i] i ∨ m = .ret ops[i] i := by
  constructor
  · intro member
    obtain ⟨⟨o, i⟩, here, member⟩ := List.mem_flatMap.mp member
    obtain ⟨short, same⟩ := List.mem_zipIdx' here
    exact ⟨i, short, by simpa [← same] using member⟩
  · rintro ⟨i, short, which⟩
    refine List.mem_flatMap.mpr ⟨(ops[i], i), ?_, by simpa using which⟩
    exact List.mk_mem_zipIdx_iff_getElem?.mpr (by simp [short])

theorem length_order : (order ops).length = sentinel ops := by
  rw [order_perm.length_eq, marks, List.length_flatMap, sentinel]
  simp [Nat.mul_comm]

def Mark.tag (m : Mark) : Nat × Bool := (m.op, m.isCall)

theorem nodup_tags : ((order ops).map Mark.tag).Nodup := by
  rw [(order_perm.map Mark.tag).nodup_iff]
  have tags : (marks ops).map Mark.tag = (List.range ops.length).flatMap fun i => [(i, true), (i, false)] := by
    rw [marks, List.map_flatMap, List.range_eq_range', ← List.zipIdx_map_snd 0 ops, List.flatMap_map]
    rfl
  rw [tags, List.nodup_flatMap]
  refine ⟨fun i _ => by simp, List.nodup_range.imp fun distinct => ?_⟩
  simp [Function.onFun, distinct.symm]

def markAt (ops : List Operation) (p : Nat) : Mark := (order ops).getD p default

def opAt (ops : List Operation) (p : Nat) : Nat := (markAt ops p).op

def callAt (ops : List Operation) (p : Nat) : Bool := (markAt ops p).isCall

theorem markAt_eq {p : Nat} (short : p < (order ops).length) : markAt ops p = (order ops)[p] := by
  simp [markAt, short]

theorem markAt_inj {p q : Nat} (left : p < sentinel ops) (right : q < sentinel ops)
    (sameOp : opAt ops p = opAt ops q) (sameKind : callAt ops p = callAt ops q) : p = q := by
  rw [← length_order] at left right
  have tags : ((order ops).map Mark.tag)[p]? = ((order ops).map Mark.tag)[q]? := by
    simp only [List.getElem?_map, List.getElem?_eq_getElem left, List.getElem?_eq_getElem right, Option.map_some,
      ← markAt_eq left, ← markAt_eq right]
    exact congrArg some (Prod.ext sameOp sameKind)
  exact (List.getElem?_inj (by simpa using left) nodup_tags).mp tags

theorem markAt_mem {p : Nat} (short : p < sentinel ops) : markAt ops p ∈ marks ops := by
  rw [← length_order] at short
  exact order_perm.mem_iff.mp (markAt_eq short ▸ List.getElem_mem short)

theorem opAt_lt {p : Nat} (short : p < sentinel ops) : opAt ops p < ops.length := by
  obtain ⟨i, within, same | same⟩ := mem_marks.mp (markAt_mem short)
  · rwa [opAt, same, Mark.call]
  · rwa [opAt, same, Mark.ret]

-- A test that only one mark meets finds that mark.
theorem markAt_findIdx {m : Mark} {test : Mark → Bool} (member : m ∈ marks ops) (meets : test m = true)
    (only : ∀ m' ∈ marks ops, test m' = true → m' = m) :
    (order ops).findIdx test < sentinel ops ∧ markAt ops ((order ops).findIdx test) = m := by
  have within : (order ops).findIdx test < (order ops).length :=
    List.findIdx_lt_length_of_exists ⟨m, order_perm.mem_iff.mpr member, meets⟩
  have found : test (markAt ops ((order ops).findIdx test)) = true := by
    rw [markAt_eq within]
    exact List.findIdx_getElem
  rw [length_order] at within
  exact ⟨within, only _ (markAt_mem within) found⟩

theorem callOf_spec {i : Nat} (short : i < ops.length) :
    callOf ops i < sentinel ops ∧ markAt ops (callOf ops i) = .call ops[i] i := by
  refine markAt_findIdx (mem_marks.mpr ⟨i, short, .inl rfl⟩) (by simp [Mark.call]) ?_
  intro m member meets
  obtain ⟨j, _, rfl | rfl⟩ := mem_marks.mp member
  · obtain rfl : j = i := of_decide_eq_true (Bool.and_eq_true_iff.mp meets).1
    rfl
  · simp [Mark.ret] at meets

theorem retOf_spec {i : Nat} (short : i < ops.length) :
    retOf ops i < sentinel ops ∧ markAt ops (retOf ops i) = .ret ops[i] i := by
  refine markAt_findIdx (mem_marks.mpr ⟨i, short, .inr rfl⟩) (by simp [Mark.ret]) ?_
  intro m member meets
  obtain ⟨j, _, rfl | rfl⟩ := mem_marks.mp member
  · simp [Mark.call] at meets
  · obtain rfl : j = i := of_decide_eq_true (Bool.and_eq_true_iff.mp meets).1
    rfl

theorem opAt_callOf {i : Nat} (short : i < ops.length) : opAt ops (callOf ops i) = i := by
  rw [opAt, (callOf_spec short).2, Mark.call]

theorem opAt_retOf {i : Nat} (short : i < ops.length) : opAt ops (retOf ops i) = i := by
  rw [opAt, (retOf_spec short).2, Mark.ret]

theorem callAt_callOf {i : Nat} (short : i < ops.length) : callAt ops (callOf ops i) = true := by
  rw [callAt, (callOf_spec short).2, Mark.call]

theorem callAt_retOf {i : Nat} (short : i < ops.length) : callAt ops (retOf ops i) = false := by
  rw [callAt, (retOf_spec short).2, Mark.ret]

def returnTime (o : Operation) : Nanos := o.completed.getD Nanos.max

theorem ret_cmp_call (a b : Operation) (i j : Nat) :
    (Mark.ret a i).cmp (.call b j) = (compare (returnTime a) b.invoked).then .lt := rfl

-- A return stands in front of a call exactly if it is not later than the call.
theorem retOf_lt_callOf {i j : Nat} (left : i < ops.length) (right : j < ops.length) :
    retOf ops i < callOf ops j ↔ returnTime ops[i] ≤ ops[j].invoked := by
  have sorted : (order ops).Pairwise fun a b => (a.cmp b).isLE = true := List.pairwise_insertionSort _ _
  have cmpOf : ∀ {p q : Nat}, p < q → q < sentinel ops → ((markAt ops p).cmp (markAt ops q)).isLE = true := by
    intro p q ahead short
    rw [← length_order] at short
    rw [markAt_eq (ahead.trans short), markAt_eq short]
    exact List.pairwise_iff_getElem.mp sorted p q _ _ ahead
  have retAt := retOf_spec left
  have callHere := callOf_spec right
  have compared := ret_cmp_call ops[i] ops[j] i j
  have swapped : (Mark.call ops[j] j).cmp (.ret ops[i] i) = ((Mark.ret ops[i] i).cmp (.call ops[j] j)).swap :=
    OrientedCmp.eq_swap
  rw [compared] at swapped
  rw [← Std.isLE_compare]
  constructor
  · intro ahead
    have le := cmpOf ahead callHere.1
    rw [retAt.2, callHere.2, compared] at le
    revert le
    cases compare (returnTime ops[i]) ops[j].invoked <;> decide
  · intro le
    by_contra behind
    have apart : callOf ops j ≠ retOf ops i := by
      intro same
      have kinds := callAt_callOf right
      rw [same, callAt_retOf left] at kinds
      cases kinds
    have back := cmpOf (by omega : callOf ops j < retOf ops i) retAt.1
    rw [retAt.2, callHere.2, swapped] at back
    revert le back
    cases compare (returnTime ops[i]) ops[j].invoked <;> decide

def Words.test (bits : Words) (i : Nat) : Bool := (bits.getD (i / 64) 0#64).getLsbD (i % 64)

theorem bit_getLsbD (k j : Nat) (short : j < 64) : (1#64 <<< k).getLsbD j = decide (k = j) := by
  rw [BitVec.getLsbD_shiftLeft, BitVec.getLsbD_one]
  by_cases same : k = j
  · subst same
    simp [short]
  · simp only [same, decide_false, Bool.and_eq_false_iff, decide_eq_false_iff_not, Bool.not_eq_false']
    simp only [decide_eq_true_eq]
    omega

theorem Words.getD_modify (bits : Words) (f : BitVec 64 → BitVec 64) {i : Nat} (within : i < bits.length) (j : Nat) :
    (bits.modify i f).getD j 0#64 = if i = j then f (bits.getD j 0#64) else bits.getD j 0#64 := by
  rw [List.getD_eq_getElem?_getD, List.getD_eq_getElem?_getD, List.getElem?_modify]
  by_cases same : i = j
  · subst same
    simp [within]
  · simp [same]

theorem Words.test_mark {bits : Words} {i : Nat} (within : i / 64 < bits.length) (j : Nat) :
    (bits.mark i).test j = (bits.test j || decide (i = j)) := by
  have short : j % 64 < 64 := Nat.mod_lt _ (by decide)
  rw [test, mark, getD_modify bits _ within]
  by_cases word : i / 64 = j / 64
  · rw [if_pos word, BitVec.getLsbD_or, bit_getLsbD _ _ short, test]
    congr 1
    exact decide_eq_decide.mpr ⟨fun same => by omega, fun same => by rw [same]⟩
  · have apart : i ≠ j := fun same => word (by rw [same])
    rw [if_neg word, decide_eq_false apart, Bool.or_false, test]

theorem Words.unmark_mark {bits : Words} {i : Nat} (absent : bits.test i = false) :
    (bits.mark i).unmark i = bits := by
  rw [mark, unmark, List.modify_modify_eq]
  refine List.ext_getElem? fun j => ?_
  rw [List.getElem?_modify]
  by_cases same : i / 64 = j
  · subst same
    cases found : bits[i / 64]? with
    | none => rfl
    | some word =>
      rw [test, List.getD_eq_getElem?_getD, found, Option.getD_some] at absent
      simp only [Option.map_eq_map, Option.map_some, Function.comp, if_true]
      refine congrArg some (BitVec.eq_of_getLsbD_eq fun k short => ?_)
      rw [BitVec.getLsbD_and, BitVec.getLsbD_or, BitVec.getLsbD_not, bit_getLsbD _ _ short]
      by_cases here : i % 64 = k
      · subst here
        simp [absent]
      · simp [here, short]
  · simp [same]

theorem Words.length_mark (bits : Words) (i : Nat) : (bits.mark i).length = bits.length := List.length_modify ..

variable (ops) in
def live (bits : Words) : List Nat := (List.range (sentinel ops)).filter fun p => !bits.test (opAt ops p)

theorem mem_live {bits : Words} {p : Nat} : p ∈ live ops bits ↔ p < sentinel ops ∧ bits.test (opAt ops p) = false := by
  simp [live]

theorem live_sorted (bits : Words) : (live ops bits).Pairwise (· < ·) := List.pairwise_lt_range.filter _

def Wide (ops : List Operation) (bits : Words) : Prop := bits.length = (ops.length + 63) / 64

instance (bits : Words) : Decidable (Wide ops bits) := inferInstanceAs (Decidable (_ = _))

theorem Wide.within {bits : Words} (wide : Wide ops bits) {i : Nat} (short : i < ops.length) :
    i / 64 < bits.length := by
  rw [wide]
  omega

theorem Wide.mark {bits : Words} (wide : Wide ops bits) (i : Nat) : Wide ops (bits.mark i) :=
  (Words.length_mark bits i).trans wide

theorem live_mark {bits : Words} (wide : Wide ops bits) {i : Nat} (short : i < ops.length) :
    live ops (bits.mark i) = (live ops bits).filter fun p => opAt ops p ≠ i := by
  rw [live, live, List.filter_filter]
  refine List.filter_congr fun p _ => ?_
  rw [Words.test_mark (wide.within short), Bool.not_or, Bool.and_comm]
  congr 1
  rw [← decide_not]
  exact decide_eq_decide.mpr ne_comm

abbrev Config := Words × Reg

variable (ops) in
def child (c : Config) (p : Nat) : Option Config :=
  let (ok, next) := step c.2 ops[opAt ops p]!
  if ok then some (c.1.mark (opAt ops p), next) else none

variable (ops) in
def choices (c : Config) : List (Option Config) :=
  if Wide ops c.1 then ((live ops c.1).takeWhile (callAt ops)).map (child ops c) else []

variable (ops) in
def Complete (c : Config) : Prop := live ops c.1 = []

variable (ops) in
def depth (c : Config) : Nat := ((Finset.range ops.length).filter fun i => c.1.test i).card

theorem depth_le (c : Config) : depth ops c ≤ ops.length := by
  refine (Finset.card_filter_le ..).trans ?_
  rw [Finset.card_range]

theorem length_choices_le (c : Config) : (choices ops c).length ≤ sentinel ops := by
  rw [choices]
  split
  · rw [List.length_map]
    refine ((List.takeWhile_sublist _).length_le).trans ?_
    refine (List.length_filter_le ..).trans ?_
    rw [List.length_range]
  · exact Nat.zero_le _

theorem mem_takeWhile_of_sorted {l : List Nat} {f : Nat → Bool} (sorted : l.Pairwise (· < ·)) {p : Nat} :
    p ∈ l.takeWhile f ↔ p ∈ l ∧ ∀ q ∈ l, q ≤ p → f q = true := by
  induction l with
  | nil => simp
  | cons first rest ih =>
    obtain ⟨least, sorted⟩ := List.pairwise_cons.mp sorted
    rw [List.takeWhile_cons]
    by_cases passes : f first = true
    · rw [if_pos passes, List.mem_cons, ih sorted]
      constructor
      · rintro (rfl | ⟨here, before⟩)
        · refine ⟨List.mem_cons_self, fun q member le => ?_⟩
          obtain rfl | later := List.mem_cons.mp member
          · exact passes
          · exact absurd (least q later) (Nat.not_lt.mpr le)
        · exact ⟨List.mem_cons_of_mem _ here, List.forall_mem_cons.mpr ⟨fun _ => passes, before⟩⟩
      · rintro ⟨here, before⟩
        exact (List.mem_cons.mp here).imp_right fun later => ⟨later, (List.forall_mem_cons.mp before).2⟩
    · rw [if_neg passes]
      refine ⟨nofun, fun ⟨here, before⟩ => absurd (before first List.mem_cons_self ?_) passes⟩
      obtain rfl | later := List.mem_cons.mp here
      · exact le_rfl
      · exact (least p later).le

theorem callOf_opAt {p : Nat} (short : p < sentinel ops) (call : callAt ops p = true) :
    callOf ops (opAt ops p) = p := by
  have within := opAt_lt short
  exact markAt_inj (callOf_spec within).1 short (opAt_callOf within) ((callAt_callOf within).trans call.symm)

theorem retOf_opAt {p : Nat} (short : p < sentinel ops) (ret : callAt ops p = false) :
    retOf ops (opAt ops p) = p := by
  have within := opAt_lt short
  exact markAt_inj (retOf_spec within).1 short (opAt_retOf within) ((callAt_retOf within).trans ret.symm)

theorem child_eq (c : Config) {p : Nat} (within : opAt ops p < ops.length) :
    child ops c p = if (step c.2 ops[opAt ops p]).1 then some (c.1.mark (opAt ops p), (step c.2 ops[opAt ops p]).2)
      else none := by
  rw [child, getElem!_pos ops (opAt ops p) within]

-- A choice is the call of an operation that no return of another one that is left stands in front of.
theorem choice_iff {c d : Config} : Choice (choices ops) c d ↔
    Wide ops c.1 ∧ ∃ i, ∃ short : i < ops.length, c.1.test i = false ∧
      (∀ j < ops.length, c.1.test j = false → ¬ retOf ops j < callOf ops i) ∧
      (step c.2 ops[i]).1 = true ∧ d = (c.1.mark i, (step c.2 ops[i]).2) := by
  constructor
  · intro chosen
    rw [Choice, choices] at chosen
    split at chosen
    · next wide =>
      obtain ⟨p, member, same⟩ := List.mem_map.mp chosen
      obtain ⟨here, before⟩ := (mem_takeWhile_of_sorted (live_sorted _)).mp member
      obtain ⟨short, absent⟩ := mem_live.mp here
      have within := opAt_lt short
      have call := before p here le_rfl
      rw [child_eq c within] at same
      split at same
      · next fits =>
        refine ⟨wide, opAt ops p, within, absent, ?_, fits, (Option.some.inj same).symm⟩
        intro j shortJ absentJ ahead
        rw [callOf_opAt short call] at ahead
        have left : retOf ops j ∈ live ops c.1 :=
          mem_live.mpr ⟨(retOf_spec shortJ).1, by rwa [opAt_retOf shortJ]⟩
        have kind := before _ left ahead.le
        rw [callAt_retOf shortJ] at kind
        cases kind
      · cases same
    · cases chosen
  · rintro ⟨wide, i, short, absent, before, fits, rfl⟩
    rw [Choice, choices, if_pos wide]
    refine List.mem_map.mpr ⟨callOf ops i, (mem_takeWhile_of_sorted (live_sorted _)).mpr ⟨?_, ?_⟩, ?_⟩
    · exact mem_live.mpr ⟨(callOf_spec short).1, by rwa [opAt_callOf short]⟩
    · intro q here le
      obtain ⟨shortQ, absentQ⟩ := mem_live.mp here
      by_contra ret
      have ret : callAt ops q = false := by simpa using ret
      have apart : q ≠ callOf ops i := by
        rintro rfl
        rw [callAt_callOf short] at ret
        cases ret
      refine before (opAt ops q) (opAt_lt shortQ) absentQ ?_
      rw [retOf_opAt shortQ ret]
      omega
    · simp only [child, opAt_callOf short, getElem!_pos ops i short, fits, if_true]

theorem choice_climbs (c d : Config) (chosen : Choice (choices ops) c d) : depth ops c < depth ops d := by
  obtain ⟨wide, i, short, absent, -, -, rfl⟩ := choice_iff.mp chosen
  refine Finset.card_lt_card (Finset.ssubset_iff.mpr ⟨i, by simp [absent], ?_⟩)
  intro j member
  rw [Finset.mem_filter, Words.test_mark (wide.within short)]
  obtain rfl | member := Finset.mem_insert.mp member
  · exact ⟨Finset.mem_range.mpr short, by simp⟩
  · obtain ⟨here, set⟩ := Finset.mem_filter.mp member
    exact ⟨here, by simp [set]⟩

end SimKv.Checker
