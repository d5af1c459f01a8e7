import Mathlib.Init

set_option autoImplicit false

/-!
# Runs of a partial step function

A system is a step function that may refuse an event, and a condition `ok` on the events of a run.
-/

namespace Execution

variable {S E : Type} (step : S → E → Option S) (ok : S → E → Prop)

/-- The states reached from `s` by events that all satisfy `ok`. -/
inductive Run (s : S) : S → Prop where
  | refl : Run s s
  | step {t t' : S} {event : E} (run : Run s t) (allowed : ok t event) (next : step t event = some t') :
      Run s t'

def play [∀ s e, Decidable (ok s e)] (s : S) : List E → Option S
  | [] => some s
  | event :: rest => if ok s event then (step s event).bind fun t => play t rest else none

variable {step ok} {s t u : S}

theorem Run.trans (first : Run step ok s t) (second : Run step ok t u) : Run step ok s u := by
  induction second with
  | refl => exact first
  | step _ allowed next ih => exact ih.step allowed next

theorem Run.mono {ok' : S → E → Prop} (weaker : ∀ s e, ok s e → ok' s e) (run : Run step ok s t) :
    Run step ok' s t := by
  induction run with
  | refl => exact .refl
  | step _ allowed next ih => exact ih.step (weaker _ _ allowed) next

-- What holds at the start and is kept by every allowed event holds throughout.
theorem Run.invariant {holds : S → Prop} (start : holds s)
    (keeps : ∀ t e t', holds t → ok t e → step t e = some t' → holds t') (run : Run step ok s t) :
    holds t := by
  induction run with
  | refl => exact start
  | step _ allowed next ih => exact keeps _ _ _ ih allowed next

theorem run_of_play [∀ s e, Decidable (ok s e)] {events : List E}
    (played : play step ok s events = some t) : Run step ok s t := by
  induction events generalizing s with
  | nil =>
    cases played
    exact .refl
  | cons event rest ih =>
    simp only [play] at played
    split at played
    · next allowed =>
      obtain ⟨mid, next, tail⟩ := Option.bind_eq_some_iff.mp played
      exact (Run.refl.step allowed next).trans (ih tail)
    · cases played

section Descent

variable {next : S → Option S} {holds : S → Prop} {measure : S → Nat} {a b : S}

def repeated (next : S → Option S) : Nat → S → Option S
  | 0, s => some s
  | k + 1, s => (next s).bind (repeated next k)

theorem repeated_invariant (keeps : ∀ s t, holds s → next s = some t → holds t) (start : holds a) {k : Nat}
    (reached : repeated next k a = some b) : holds b := by
  induction k generalizing a with
  | zero =>
    cases reached
    exact start
  | succ k ih =>
    obtain ⟨mid, first, rest⟩ := Option.bind_eq_some_iff.mp reached
    exact ih (keeps a mid start first) rest

-- A step that makes something smaller cannot be taken for ever.
theorem exists_last (keeps : ∀ s t, holds s → next s = some t → holds t)
    (decreases : ∀ s t, holds s → next s = some t → measure t < measure s) (start : holds a) :
    ∃ k ≤ measure a, ∃ t, repeated next k a = some t ∧ next t = none := by
  generalize bound : measure a = m
  induction m using Nat.strongRecOn generalizing a with
  | ind m ih =>
    cases first : next a with
    | none => exact ⟨0, Nat.zero_le _, a, rfl, first⟩
    | some mid =>
      have smaller := decreases a mid start first
      obtain ⟨k, few, t, rest, last⟩ := ih (measure mid) (bound ▸ smaller) (keeps a mid start first) rfl
      refine ⟨k + 1, by omega, t, ?_, last⟩
      rw [repeated, first]
      exact rest

end Descent

end Execution
