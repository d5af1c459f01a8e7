import Mathlib.Logic.Function.Basic
import Mathlib.Data.List.Chain
import Mathlib.Tactic.SimpIntro

set_option autoImplicit false

/-!
# Doubly linked lists that forget and remember

A node is taken out by joining its two neighbours. Its own links are left alone, so it can be put
back by pointing its neighbours at it again.
-/

namespace Links

variable {A : Type} [DecidableEq A]

structure Loop (A : Type) where
  prev : A → A
  next : A → A

namespace Loop

variable (r : Loop A)

def unlink (i : A) : Loop A :=
  { prev := Function.update r.prev (r.next i) (r.prev i)
    next := Function.update r.next (r.prev i) (r.next i) }

def relink (i : A) : Loop A :=
  { prev := Function.update r.prev (r.next i) i
    next := Function.update r.next (r.prev i) i }

def Linked (i : A) : Prop := r.next (r.prev i) = i ∧ r.prev (r.next i) = i

def Threads (nodes : List A) : Prop := nodes.IsChain fun a b => r.next a = b ∧ r.prev b = a

def Around (guard : A) (nodes : List A) : Prop := r.Threads (guard :: nodes ++ [guard])

end Loop

variable {r : Loop A} {guard i : A} {front back nodes : List A}

-- A node that is taken out keeps its own links.
theorem Loop.unlink_own (r : Loop A) (i : A) :
    (r.unlink i).prev i = r.prev i ∧ (r.unlink i).next i = r.next i := by
  constructor
  · by_cases same : i = r.next i
    · simp only [unlink]
      rw [← same, Function.update_self]
    · exact Function.update_of_ne same _ _
  · by_cases same : i = r.prev i
    · simp only [unlink]
      rw [← same, Function.update_self]
    · exact Function.update_of_ne same _ _

theorem Loop.relink_unlink (linked : r.Linked i) : (r.unlink i).relink i = r := by
  obtain ⟨prevSame, nextSame⟩ := r.unlink_own i
  have prevBack : Function.update r.prev (r.next i) i = r.prev := by
    rw [Function.update_eq_self_iff, linked.2]
  have nextBack : Function.update r.next (r.prev i) i = r.next := by
    rw [Function.update_eq_self_iff, linked.1]
  cases r
  simp only [unlink, relink] at *
  rw [prevSame, nextSame, Function.update_idem, Function.update_idem, prevBack, nextBack]

omit [DecidableEq A] in
theorem Loop.Around.next_guard (around : r.Around guard nodes) : r.next guard = nodes.headD guard := by
  cases nodes with
  | nil => exact (List.isChain_cons_cons.mp around).1.1
  | cons first rest => exact (List.isChain_cons_cons.mp around).1.1

omit [DecidableEq A] in
theorem Loop.Around.split (around : r.Around guard (front ++ i :: back)) :
    r.Threads (guard :: front ++ [i]) ∧ r.Threads (i :: (back ++ [guard])) := by
  unfold Around at around
  rw [← List.cons_append, List.append_assoc, List.cons_append] at around
  exact List.isChain_split.mp around

omit [DecidableEq A] in
theorem Loop.Around.next_eq (around : r.Around guard (front ++ i :: back)) : r.next i = back.headD guard := by
  have tail := around.split.2
  cases back with
  | nil => exact (List.isChain_cons_cons.mp tail).1.1
  | cons first rest => exact (List.isChain_cons_cons.mp tail).1.1

-- Only the pairs that hold `i` lose a link.
theorem Loop.Threads.unlink (linked : r.Linked i) (threads : r.Threads nodes) (absent : i ∉ nodes) :
    (r.unlink i).Threads nodes := by
  refine List.IsChain.imp_of_mem_imp ?_ threads
  rintro a b here there ⟨nextEq, prevEq⟩
  have notPrev : a ≠ r.prev i := by
    rintro rfl
    exact absent (linked.1 ▸ nextEq ▸ there)
  have notNext : b ≠ r.next i := by
    rintro rfl
    exact absent (linked.2 ▸ prevEq ▸ here)
  exact ⟨(Function.update_of_ne notPrev _ _).trans nextEq, (Function.update_of_ne notNext _ _).trans prevEq⟩

omit [DecidableEq A] in
theorem Loop.Around.neighbours (around : r.Around guard (front ++ i :: back)) :
    ∃ lead trail : List A, guard :: front = lead ++ [r.prev i] ∧ back ++ [guard] = r.next i :: trail := by
  obtain ⟨before, after⟩ := around.split
  have prevEq : r.prev i = (guard :: front).getLast (List.cons_ne_nil _ _) := by
    rw [← List.dropLast_append_getLast (List.cons_ne_nil guard front), Threads, List.append_assoc] at before
    exact (List.isChain_append_cons_cons.mp before).2.1.2
  refine ⟨(guard :: front).dropLast, (back ++ [guard]).tail, ?_, ?_⟩
  · rw [prevEq, List.dropLast_append_getLast]
  · cases back with
    | nil => rw [(List.isChain_cons_cons.mp after).1.1]; rfl
    | cons first rest => rw [(List.isChain_cons_cons.mp after).1.1]; rfl

omit [DecidableEq A] in
theorem Loop.Around.linked (around : r.Around guard (front ++ i :: back)) : r.Linked i := by
  obtain ⟨lead, trail, leadEq, trailEq⟩ := around.neighbours
  obtain ⟨before, after⟩ := around.split
  rw [leadEq, Threads, List.append_assoc] at before
  rw [trailEq] at after
  exact ⟨(List.isChain_append_cons_cons.mp before).2.1.1, (List.isChain_cons_cons.mp after).1.2⟩

theorem Loop.Around.unlink (around : r.Around guard (front ++ i :: back)) (fresh : i ≠ guard)
    (notFront : i ∉ front) (notBack : i ∉ back) : (r.unlink i).Around guard (front ++ back) := by
  obtain ⟨lead, trail, leadEq, trailEq⟩ := around.neighbours
  obtain ⟨before, after⟩ := around.split
  have first : (r.unlink i).Threads (guard :: front) := by
    refine Threads.unlink around.linked (List.IsChain.left_of_append before) ?_
    simp [fresh, notFront]
  have second : (r.unlink i).Threads (back ++ [guard]) := by
    refine Threads.unlink around.linked (List.IsChain.of_cons after) ?_
    simp [fresh, notBack]
  unfold Around
  rw [← List.cons_append, List.append_assoc, trailEq, leadEq, List.append_assoc]
  rw [leadEq] at first
  rw [trailEq] at second
  exact List.isChain_append_cons_cons.mpr
    ⟨first, ⟨Function.update_self .., Function.update_self ..⟩, second⟩

end Links
