import Mathlib.Data.List.Induction
import Mathlib.Order.Nat
import Mathlib.Logic.Function.Basic

set_option autoImplicit false

/-!
# Requests that take effect at most once

Clients number their requests and repeat them, and an object serves all of them in one order. It remembers
one answer for each client, of the request with the highest number so far, and answers every request that
does not exceed it from memory. What the object comes to is what the fresh requests alone make of it.
-/

namespace AtMostOnce

variable {R C S A : Type}

section Numbers

variable (client : R → C) (seq : R → Nat)

def Fresh (earlier : List R) (r : R) : Prop := ∀ e ∈ earlier, client e = client r → seq e < seq r

instance [DecidableEq C] (earlier : List R) (r : R) : Decidable (Fresh client seq earlier r) :=
  inferInstanceAs (Decidable (∀ e ∈ earlier, client e = client r → seq e < seq r))

def freshOf [DecidableEq C] : (earlier requests : List R) → List R
  | _, [] => []
  | earlier, r :: rest =>
    if Fresh client seq earlier r then r :: freshOf (earlier ++ [r]) rest else freshOf (earlier ++ [r]) rest

/-- `r`, with `before` ahead of it, has the highest number of its client, and is the first with this number. -/
def Latest (requests before : List R) (r : R) : Prop :=
  ∃ after, requests = before ++ r :: after ∧ Fresh client seq before r ∧
    ∀ e ∈ after, client e = client r → seq e ≤ seq r

end Numbers

section Serving

variable (client : R → C) (seq : R → Nat) (perform : S → R → A × S)

structure Server (C S A : Type) where
  state : S
  remembered : C → Option (Nat × A)

def performAll (start : S) (requests : List R) : S := requests.foldl (fun s r => (perform s r).2) start

variable [DecidableEq C]

def Server.first (server : Server C S A) (r : R) : A × Server C S A :=
  let result := perform server.state r
  (result.1,
    { state := result.2, remembered := Function.update server.remembered (client r) (some (seq r, result.1)) })

def Server.serve (server : Server C S A) (r : R) : A × Server C S A :=
  match server.remembered (client r) with
  | some (n, answer) => if seq r ≤ n then (answer, server) else server.first client seq perform r
  | none => server.first client seq perform r

def Server.serveAll (server : Server C S A) (requests : List R) : Server C S A :=
  requests.foldl (fun server r => (server.serve client seq perform r).2) server

def Server.fresh (start : S) : Server C S A := { state := start, remembered := fun _ => none }

end Serving

variable {client : R → C} {seq : R → Nat} {perform : S → R → A × S}

section Numbers

variable {earlier requests before : List R} {r : R}

theorem freshOf_append [DecidableEq C] (earlier front back : List R) :
    freshOf client seq earlier (front ++ back) =
      freshOf client seq earlier front ++ freshOf client seq (earlier ++ front) back := by
  induction front generalizing earlier with
  | nil => rw [List.nil_append, List.append_nil]; rfl
  | cons r rest ih =>
    simp only [List.cons_append, freshOf, ih (earlier ++ [r]), List.append_assoc, List.nil_append]
    split <;> rfl

theorem freshOf_append_singleton [DecidableEq C] (requests : List R) (r : R) :
    freshOf client seq [] (requests ++ [r]) =
      freshOf client seq [] requests ++ if Fresh client seq requests r then [r] else [] := by
  rw [freshOf_append, List.nil_append]
  rfl

-- While no request of the client is fresh, none exceeds the number the client has reached.
theorem le_of_none_fresh [DecidableEq C] (fresh : Fresh client seq before r) {after : List R}
    (none_fresh : ∀ e ∈ freshOf client seq (before ++ [r]) after, client e ≠ client r) :
    ∀ e ∈ after, client e = client r → seq e ≤ seq r := by
  induction after using List.reverseRecOn with
  | nil => exact nofun
  | append_singleton after last ih =>
    rw [freshOf_append] at none_fresh
    have bounded := ih fun e here => none_fresh e (List.mem_append_left _ here)
    intro e here same
    obtain here | here := List.mem_append.mp here
    · exact bounded e here same
    · obtain rfl := List.mem_singleton.mp here
      have stale : ¬ Fresh client seq (before ++ [r] ++ after) e := by
        intro fresh
        refine none_fresh e (List.mem_append_right _ ?_) same
        rw [freshOf, if_pos fresh]
        exact List.mem_cons_self
      simp only [Fresh, not_forall, not_lt] at stale
      obtain ⟨old, ahead, ofClient, reaches⟩ := stale
      refine reaches.trans ?_
      simp only [List.mem_append, List.mem_singleton] at ahead
      obtain (ahead | rfl) | ahead := ahead
      · exact (fresh old ahead (ofClient.trans same)).le
      · exact le_rfl
      · exact bounded old ahead (ofClient.trans same)

theorem Latest.mem (latest : Latest client seq requests before r) : r ∈ requests := by
  obtain ⟨after, rfl, -⟩ := latest
  exact List.mem_append_right _ List.mem_cons_self

-- The latest request of a client has the highest number.
theorem Latest.seq_le (latest : Latest client seq requests before r) {e : R} (here : e ∈ requests)
    (same : client e = client r) : seq e ≤ seq r := by
  obtain ⟨after, rfl, fresh, rest⟩ := latest
  obtain here | here := List.mem_append.mp here
  · exact (fresh e here same).le
  · obtain rfl | here := List.mem_cons.mp here
    · exact le_rfl
    · exact rest e here same

-- A client has one latest request.
theorem Latest.unique (latest : Latest client seq requests before r) {other : List R} {o : R}
    (also : Latest client seq requests other o) (same : client o = client r) : before = other ∧ r = o := by
  have equal : seq r = seq o := le_antisymm (also.seq_le latest.mem same.symm) (latest.seq_le also.mem same)
  obtain ⟨after, rfl, fresh, -⟩ := latest
  obtain ⟨rest, split, fresh', -⟩ := also
  -- whichever of the two came first would keep the other from being fresh
  obtain ⟨gap, front, back⟩ | ⟨gap, front, back⟩ := List.append_eq_append_iff.mp split
  · cases gap with
    | nil =>
      rw [List.nil_append, List.cons.injEq] at back
      exact ⟨by rw [front, List.append_nil], back.1⟩
    | cons head gap =>
      obtain ⟨rfl, -⟩ := List.cons.inj back
      refine absurd (fresh' r ?_ same.symm) (by omega)
      rw [front]
      exact List.mem_append_right _ List.mem_cons_self
  · cases gap with
    | nil =>
      rw [List.nil_append, List.cons.injEq] at back
      exact ⟨by rw [front, List.append_nil], back.1.symm⟩
    | cons head gap =>
      obtain ⟨rfl, -⟩ := List.cons.inj back
      refine absurd (fresh o ?_ same) (by omega)
      rw [front]
      exact List.mem_append_right _ List.mem_cons_self

theorem Latest.append (latest : Latest client seq requests before r) {e : R}
    (stale : client e = client r → seq e ≤ seq r) : Latest client seq (requests ++ [e]) before r := by
  obtain ⟨after, rfl, fresh, rest⟩ := latest
  refine ⟨after ++ [e], by simp, fresh, fun o here same => ?_⟩
  obtain here | here := List.mem_append.mp here
  · exact rest o here same
  · obtain rfl := List.mem_singleton.mp here
    exact stale same

theorem Fresh.latest (fresh : Fresh client seq requests r) : Latest client seq (requests ++ [r]) requests r :=
  ⟨[], rfl, fresh, nofun⟩

end Numbers

section Serving

variable [DecidableEq C] {start : S}

variable (client seq perform start) in
def stateAfter (requests : List R) : S := performAll perform start (freshOf client seq [] requests)

variable (client seq perform start) in
def Answered (requests : List R) (c : C) (n : Nat) (answer : A) : Prop :=
  ∃ before r, Latest client seq requests before r ∧ client r = c ∧ n = seq r ∧
    answer = (perform (stateAfter client seq perform start before) r).1

variable (client seq perform start) in
structure Kept (requests : List R) (server : Server C S A) : Prop where
  state : server.state = stateAfter client seq perform start requests
  known : ∀ c n answer, server.remembered c = some (n, answer) →
    Answered client seq perform start requests c n answer
  unknown : ∀ c, server.remembered c = none → ∀ r ∈ requests, client r ≠ c

theorem stateAfter_append (requests : List R) (r : R) :
    stateAfter client seq perform start (requests ++ [r]) =
      if Fresh client seq requests r then (perform (stateAfter client seq perform start requests) r).2
      else stateAfter client seq perform start requests := by
  rw [stateAfter, freshOf_append_singleton, performAll, List.foldl_append]
  split <;> rfl

namespace Kept

variable {requests : List R} {server : Server C S A}

-- The remembered number tells whether a request is fresh.
theorem fresh_iff (kept : Kept client seq perform start requests server) (r : R) :
    Fresh client seq requests r ↔ ∀ n answer, server.remembered (client r) = some (n, answer) → n < seq r := by
  constructor
  · intro fresh n answer known
    obtain ⟨before, last, latest, same, rfl, -⟩ := kept.known _ n answer known
    exact fresh last latest.mem same
  · intro exceeds e here same
    cases known : server.remembered (client r) with
    | none => exact absurd same (kept.unknown _ known e here)
    | some pair =>
      obtain ⟨before, last, latest, ofClient, reached, -⟩ := kept.known _ pair.1 pair.2 known
      calc seq e ≤ seq last := latest.seq_le here (same.trans ofClient.symm)
        _ = pair.1 := reached.symm
        _ < seq r := exceeds pair.1 pair.2 known

theorem serve_fresh (kept : Kept client seq perform start requests server) {r : R}
    (fresh : Fresh client seq requests r) :
    server.serve client seq perform r = server.first client seq perform r := by
  have exceeds := (kept.fresh_iff r).mp fresh
  unfold Server.serve
  split
  · next n answer known => exact if_neg (exceeds n answer known).not_ge
  · rfl

-- A request that is not fresh is answered from memory, and nothing changes.
theorem serve_stale (kept : Kept client seq perform start requests server) {r : R}
    (stale : ¬ Fresh client seq requests r) :
    ∃ n answer, server.remembered (client r) = some (n, answer) ∧ seq r ≤ n ∧
      server.serve client seq perform r = (answer, server) := by
  rw [kept.fresh_iff] at stale
  push Not at stale
  obtain ⟨n, answer, known, reached⟩ := stale
  refine ⟨n, answer, known, reached, ?_⟩
  unfold Server.serve
  rw [known]
  exact if_pos reached

theorem step (kept : Kept client seq perform start requests server) (r : R) :
    Kept client seq perform start (requests ++ [r]) (server.serve client seq perform r).2 := by
  by_cases fresh : Fresh client seq requests r
  · rw [kept.serve_fresh fresh]
    refine ⟨?_, ?_, ?_⟩
    · rw [stateAfter_append, if_pos fresh, ← kept.state]
      rfl
    · intro c n answer known
      simp only [Server.first] at known
      by_cases same : c = client r
      · subst same
        rw [Function.update_self] at known
        cases known
        exact ⟨requests, r, fresh.latest, rfl, rfl, by rw [kept.state]⟩
      · rw [Function.update_of_ne same] at known
        obtain ⟨before, last, latest, ofClient, facts⟩ := kept.known c n answer known
        exact ⟨before, last, latest.append fun other => absurd (ofClient.symm.trans other.symm) same, ofClient,
          facts⟩
    · intro c known e here
      simp only [Server.first] at known
      by_cases same : c = client r
      · subst same
        rw [Function.update_self] at known
        cases known
      · rw [Function.update_of_ne same] at known
        obtain here | here := List.mem_append.mp here
        · exact kept.unknown c known e here
        · obtain rfl := List.mem_singleton.mp here
          exact Ne.symm same
  · obtain ⟨n, answer, known, reached, served⟩ := kept.serve_stale fresh
    rw [served]
    refine ⟨?_, ?_, ?_⟩
    · rw [stateAfter_append, if_neg fresh, kept.state]
    · intro c m result known'
      obtain ⟨before, last, latest, ofClient, number, facts⟩ := kept.known c m result known'
      refine ⟨before, last, latest.append fun other => ?_, ofClient, number, facts⟩
      rw [other, ofClient, known'] at known
      cases known
      exact number ▸ reached
    · intro c known' e here
      obtain here | here := List.mem_append.mp here
      · exact kept.unknown c known' e here
      · obtain rfl := List.mem_singleton.mp here
        rintro rfl
        rw [known] at known'
        cases known'

end Kept

-- What one request preserves, a whole list preserves.
theorem kept_serveAll (requests : List R) :
    Kept client seq perform start requests ((Server.fresh start).serveAll client seq perform requests) := by
  induction requests using List.reverseRecOn with
  | nil => exact ⟨rfl, nofun, fun _ _ => nofun⟩
  | append_singleton requests r ih =>
    rw [Server.serveAll, List.foldl_append]
    exact ih.step r

end Serving

end AtMostOnce
