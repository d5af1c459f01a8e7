import SimKv.Checker.Verdict

set_option autoImplicit false

/-!
# Recording a history

How `checker::linearizability` records what clients do: an operation is added when it starts and is found again
by its id when its answer comes.
-/

namespace SimKv

open Std

def Operation.answered (o : Operation) (time : Nanos) (outcome : Outcome) : Operation :=
  { o with completed := some time, outcome := some outcome }

structure Recording extends History where
  index : ExtTreeMap Nat Nat

namespace Recording

def new : Recording := { ops := [], index := ∅ }

def push (r : Recording) (op : Operation) : Recording :=
  { ops := r.ops ++ [op], index := r.index.insert op.id r.ops.length }

def complete (r : Recording) (id : Nat) (time : Nanos) (outcome : Outcome) : Bool × Recording :=
  match r.index[id]? with
  | none => (false, r)
  | some i => (true, { r with ops := r.ops.modify i fun o => o.answered time outcome })

def Indexed (r : Recording) : Prop := ∀ id k, r.index[id]? = some k ↔ r.ops[k]?.map Operation.id = some id

variable {r : Recording} {o : Operation} {id k : Nat}

theorem indexed_new : new.Indexed := by
  intro id k
  simp [new]

theorem Indexed.find (indexed : r.Indexed) (here : r.ops[k]? = some o) : r.index[o.id]? = some k :=
  (indexed o.id k).mpr (by rw [here]; rfl)

-- The id of an operation tells it apart.
theorem Indexed.same_position (indexed : r.Indexed) {o' : Operation} {k' : Nat} (here : r.ops[k]? = some o)
    (there : r.ops[k']? = some o') (same : o.id = o'.id) : k = k' := by
  have left := indexed.find here
  rw [same, indexed.find there] at left
  exact (Option.some.inj left).symm

theorem Indexed.distinct (indexed : r.Indexed) : (r.ops.map Operation.id).Nodup := by
  refine List.nodup_iff_getElem?_ne_getElem?.mpr fun i j before within => ?_
  rw [List.length_map] at within
  rw [List.getElem?_map, List.getElem?_map, List.getElem?_eq_getElem within,
    List.getElem?_eq_getElem (before.trans within), Option.map_some, Option.map_some]
  intro same
  have position := indexed.same_position (List.getElem?_eq_getElem (before.trans within))
    (List.getElem?_eq_getElem within) (Option.some.inj same)
  omega

theorem push_ops? (here : r.ops[k]? = some o) (op : Operation) : (r.push op).ops[k]? = some o := by
  obtain ⟨within, -⟩ := List.getElem?_eq_some_iff.mp here
  exact (List.getElem?_append_left within).trans here

theorem mem_push {op : Operation} : o ∈ (r.push op).ops ↔ o ∈ r.ops ∨ o = op := by
  rw [push, List.mem_append, List.mem_singleton]

theorem Indexed.push {op : Operation} (indexed : r.Indexed) (fresh : ∀ o ∈ r.ops, o.id ≠ op.id) :
    (r.push op).Indexed := by
  intro id k
  have unknown : ∀ j : Nat, r.ops[j]?.map Operation.id ≠ some op.id := by
    intro j found
    obtain ⟨o, here, same⟩ := Option.map_eq_some_iff.mp found
    exact fresh o (List.mem_of_getElem? here) same
  simp only [Recording.push, ExtTreeMap.getElem?_insert, Std.compare_eq_iff_eq]
  split
  · next same =>
    subst same
    obtain inside | rfl | outside := Nat.lt_trichotomy k r.ops.length
    · rw [List.getElem?_append_left inside]
      exact iff_of_false (fun found => inside.ne (Option.some.inj found).symm) (unknown k)
    · simp
    · rw [List.getElem?_eq_none (by rw [List.length_append, List.length_singleton]; omega)]
      exact iff_of_false (fun found => outside.ne (Option.some.inj found)) (Option.some_ne_none _).symm
  · next other =>
    obtain inside | rfl | outside := Nat.lt_trichotomy k r.ops.length
    · rw [List.getElem?_append_left inside]
      exact indexed id k
    · rw [indexed id, List.getElem?_append_right (Nat.le_refl _), List.getElem?_eq_none (Nat.le_refl _)]
      simpa using other
    · rw [indexed id, List.getElem?_eq_none outside.le,
        List.getElem?_eq_none (by rw [List.length_append, List.length_singleton]; omega)]

section Complete

variable {time : Nanos} {outcome : Outcome}

theorem Indexed.complete_eq (indexed : r.Indexed) (here : r.ops[k]? = some o) :
    r.complete o.id time outcome = (true, { r with ops := r.ops.modify k fun o => o.answered time outcome }) := by
  rw [complete, indexed.find here]

-- Only the operation with this id changes.
theorem Indexed.complete_ops? (indexed : r.Indexed) (time : Nanos) (outcome : Outcome) (here : r.ops[k]? = some o)
    (j : Nat) :
    (r.complete o.id time outcome).2.ops[j]? = if k = j then some (o.answered time outcome) else r.ops[j]? := by
  rw [indexed.complete_eq here, List.getElem?_modify]
  split
  · next same => rw [← same, here]; rfl
  · exact Option.map_id_apply ..

theorem Indexed.complete (indexed : r.Indexed) (here : r.ops[k]? = some o) :
    (r.complete o.id time outcome).2.Indexed := by
  intro id j
  have sameIndex : (r.complete o.id time outcome).2.index = r.index := by rw [indexed.complete_eq here]
  rw [sameIndex, indexed id j, indexed.complete_ops? time outcome here]
  split
  · next same => rw [← same, here]; rfl
  · rfl

theorem Indexed.mem_complete (indexed : r.Indexed) (here : r.ops[k]? = some o) {o' : Operation}
    (member : o' ∈ (r.complete o.id time outcome).2.ops) : o' ∈ r.ops ∨ o' = o.answered time outcome := by
  obtain ⟨j, found⟩ := List.getElem?_of_mem member
  rw [indexed.complete_ops? time outcome here] at found
  split at found
  · exact .inr (Option.some.inj found).symm
  · exact .inl (List.mem_of_getElem? found)

end Complete

end Recording

theorem History.wellFormedFrom_of {seen : List Nat} {ops : List Operation} (fresh : ∀ o ∈ ops, o.id ∉ seen)
    (sane : Sane ⟨ops⟩) : wellFormedFrom seen ops = .ok () := by
  induction ops generalizing seen with
  | nil => rfl
  | cons o rest ih =>
    obtain ⟨distinct, ordered, agree⟩ := sane
    obtain ⟨absent, distinct⟩ := List.nodup_cons.mp distinct
    obtain ⟨orderedHere, ordered⟩ := List.forall_mem_cons.mp ordered
    obtain ⟨agreeHere, agree⟩ := List.forall_mem_cons.mp agree
    obtain ⟨unseen, fresh⟩ := List.forall_mem_cons.mp fresh
    have timely : ¬ o.completed.any (· < o.invoked) = true := by
      intro early
      obtain ⟨t, found, early⟩ := (Option.any_eq_true ..).mp early
      exact UInt64.not_lt.mpr (orderedHere t found) (of_decide_eq_true early)
    rw [wellFormedFrom, if_neg unseen, if_neg timely, if_neg (not_not.mpr agreeHere)]
    refine ih (fun p here => ?_) ⟨distinct, ordered, agree⟩
    refine fun member => (List.mem_cons.mp member).elim (fun same => ?_) (fresh p here)
    exact absent (same ▸ List.mem_map_of_mem here)

theorem History.wellFormed_of_sane {h : History} (sane : h.Sane) : h.wellFormed = .ok () :=
  wellFormedFrom_of (fun _ _ => List.not_mem_nil) sane

end SimKv
