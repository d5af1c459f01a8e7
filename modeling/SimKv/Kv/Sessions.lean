import SimKv.Kv.StateMachine
import SimKv.Lib.AtMostOnce

set_option autoImplicit false

/-!
# Each client command takes effect at most once

The state machine serves commands as `AtMostOnce` does, with the sessions as its memory. Raft's own entries
pass it by.
-/

namespace SimKv

open AtMostOnce Std

def Command.FromClient (cmd : Command) : Prop := ¬ (cmd.op = .noop ∨ cmd.members.isSome)

instance (cmd : Command) : Decidable cmd.FromClient := inferInstanceAs (Decidable (¬ _))

def clientCommands (cmds : List Command) : List Command := cmds.filter fun cmd => cmd.FromClient

theorem clientCommands_append (front back : List Command) :
    clientCommands (front ++ back) = clientCommands front ++ clientCommands back := List.filter_append _ _

theorem clientCommands_cons {cmd : Command} (fromClient : cmd.FromClient) (cmds : List Command) :
    clientCommands (cmd :: cmds) = cmd :: clientCommands cmds :=
  List.filter_cons_of_pos (by simpa using fromClient)

def effectiveOf (earlier cmds : List Command) : List Command := freshOf Command.client Command.seq earlier cmds

namespace StateMachine

def performCommand (state : ExtTreeMap String String) (cmd : Command) : Outcome × ExtTreeMap String String :=
  perform state cmd.op

def mapAfter (cmds : List Command) : ExtTreeMap String String := performAll performCommand ∅ cmds

def toServer (sm : StateMachine) : Server Nat (ExtTreeMap String String) Outcome where
  state := sm.state
  remembered client := (sm.sessions[client]?).map fun s => (s.seq, s.outcome)

theorem apply_of_not_fromClient (sm : StateMachine) {cmd : Command} (own : ¬ cmd.FromClient) :
    sm.apply cmd = (.written, sm) := if_pos (not_not.mp own)

theorem execute_toServer (sm : StateMachine) (cmd : Command) :
    (sm.execute cmd).1 = (sm.toServer.first Command.client Command.seq performCommand cmd).1 ∧
      (sm.execute cmd).2.toServer = (sm.toServer.first Command.client Command.seq performCommand cmd).2 := by
  refine ⟨rfl, ?_⟩
  simp only [execute, toServer, Server.first, performCommand, Server.mk.injEq, true_and]
  funext client
  rw [ExtTreeMap.getElem?_insert]
  by_cases same : client = cmd.client
  · subst same
    simp
  · rw [Function.update_of_ne same, if_neg (by simpa using Ne.symm same)]

-- A client's command is served as the general server serves it.
theorem apply_toServer (sm : StateMachine) {cmd : Command} (fromClient : cmd.FromClient) :
    (sm.apply cmd).1 = (sm.toServer.serve Command.client Command.seq performCommand cmd).1 ∧
      (sm.apply cmd).2.toServer = (sm.toServer.serve Command.client Command.seq performCommand cmd).2 := by
  rw [apply, if_neg fromClient, Server.serve]
  cases known : sm.sessions[cmd.client]? with
  | none =>
    simp only [toServer, known]
    exact sm.execute_toServer cmd
  | some s =>
    simp only [toServer, known, Option.map_some]
    split
    · exact ⟨rfl, rfl⟩
    · exact sm.execute_toServer cmd

theorem applyAll_append (sm : StateMachine) (front back : List Command) :
    sm.applyAll (front ++ back) = (sm.applyAll front).applyAll back := List.foldl_append ..

theorem applyAll_toServer (sm : StateMachine) (cmds : List Command) :
    (sm.applyAll cmds).toServer =
      sm.toServer.serveAll Command.client Command.seq performCommand (clientCommands cmds) := by
  induction cmds generalizing sm with
  | nil => rfl
  | cons cmd rest ih =>
    have tail := ih (sm.apply cmd).2
    by_cases fromClient : cmd.FromClient
    · rw [clientCommands_cons fromClient]
      simp only [Server.serveAll, List.foldl_cons, ← (sm.apply_toServer fromClient).2]
      exact tail
    · rw [clientCommands, List.filter_cons_of_neg (by simpa using fromClient)]
      rw [sm.apply_of_not_fromClient fromClient] at tail
      rw [applyAll, List.foldl_cons, sm.apply_of_not_fromClient fromClient]
      exact tail

theorem toServer_empty : ({} : StateMachine).toServer = Server.fresh ∅ := by
  simp [toServer, Server.fresh]

theorem kept_applyAll (cmds : List Command) :
    Kept Command.client Command.seq performCommand ∅ (clientCommands cmds)
      (({} : StateMachine).applyAll cmds).toServer := by
  rw [applyAll_toServer, toServer_empty]
  exact kept_serveAll _

-- A fresh command is answered by what it does to the map.
theorem apply_of_fresh {cmds : List Command} {cmd : Command} (fromClient : cmd.FromClient)
    (fresh : Fresh Command.client Command.seq (clientCommands cmds) cmd) :
    ((({} : StateMachine).applyAll cmds).apply cmd).1 = (perform (({} : StateMachine).applyAll cmds).state cmd.op).1 ∧
      ((({} : StateMachine).applyAll cmds).apply cmd).2.state =
        (perform (({} : StateMachine).applyAll cmds).state cmd.op).2 := by
  obtain ⟨answer, moved⟩ := apply_toServer (({} : StateMachine).applyAll cmds) fromClient
  rw [(kept_applyAll cmds).serve_fresh fresh] at answer moved
  exact ⟨answer, congrArg Server.state moved⟩

-- The session of a client holds the outcome that its latest command had when it took effect.
theorem sessions_applyAll (cmds : List Command) (client : Nat) (s : Session) :
    (({} : StateMachine).applyAll cmds).sessions[client]? = some s ↔
      ∃ before cmd, Latest Command.client Command.seq (clientCommands cmds) before cmd ∧ cmd.client = client ∧
        s = { seq := cmd.seq, outcome := (perform (mapAfter (effectiveOf [] before)) cmd.op).1 } := by
  have kept := kept_applyAll cmds
  constructor
  · intro known
    obtain ⟨before, cmd, latest, same, number, outcome⟩ :=
      kept.known client s.seq s.outcome (by simp only [toServer, known, Option.map_some])
    exact ⟨before, cmd, latest, same, by rw [← number, mapAfter, effectiveOf, ← performCommand]; cases s; congr⟩
  · rintro ⟨before, cmd, latest, rfl, rfl⟩
    cases known : (({} : StateMachine).applyAll cmds).sessions[cmd.client]? with
    | none => exact absurd rfl (kept.unknown cmd.client (by simp only [toServer, known, Option.map_none]) cmd latest.mem)
    | some held =>
      obtain ⟨other, last, also, same, number, outcome⟩ :=
        kept.known cmd.client held.seq held.outcome (by simp only [toServer, known, Option.map_some])
      obtain ⟨rfl, rfl⟩ := latest.unique also same
      cases held
      simp only at number outcome
      rw [number, outcome]
      rfl

/-- For any commands in any order, from an empty machine: the map is what the fresh commands alone make of it;
each session holds the highest number of its client, with the outcome of its one effective application;
and the latest command of a client, applied once more, has its original outcome and changes nothing. -/
theorem at_most_once (cmds : List Command) :
    (({} : StateMachine).applyAll cmds).state = mapAfter (effectiveOf [] (clientCommands cmds)) ∧
    (∀ client s, (({} : StateMachine).applyAll cmds).sessions[client]? = some s ↔
      ∃ before cmd, Latest Command.client Command.seq (clientCommands cmds) before cmd ∧ cmd.client = client ∧
        s = { seq := cmd.seq, outcome := (perform (mapAfter (effectiveOf [] before)) cmd.op).1 }) ∧
    (∀ client, (({} : StateMachine).applyAll cmds).sessions[client]? = none ↔
      ∀ cmd ∈ clientCommands cmds, cmd.client ≠ client) ∧
    ∀ before cmd after, cmds = before ++ cmd :: after → cmd.FromClient →
      Fresh Command.client Command.seq (clientCommands before) cmd →
      (∀ later ∈ effectiveOf (clientCommands before ++ [cmd]) (clientCommands after), later.client ≠ cmd.client) →
      (({} : StateMachine).applyAll cmds).apply cmd =
        (((({} : StateMachine).applyAll before).apply cmd).1, ({} : StateMachine).applyAll cmds) := by
  have kept := kept_applyAll cmds
  refine ⟨kept.state, sessions_applyAll cmds, ?_, ?_⟩
  · intro client
    constructor
    · intro unknown
      exact kept.unknown client (by simp only [toServer, unknown, Option.map_none])
    · intro absent
      by_contra known
      obtain ⟨s, known⟩ := Option.ne_none_iff_exists'.mp known
      obtain ⟨before, cmd, latest, same, -⟩ := (sessions_applyAll cmds client s).mp known
      exact absent cmd latest.mem same
  · rintro before cmd after rfl fromClient fresh quiet
    have split : clientCommands (before ++ cmd :: after) = clientCommands before ++ cmd :: clientCommands after := by
      rw [clientCommands_append, clientCommands_cons fromClient]
    have known := (sessions_applyAll (before ++ cmd :: after) cmd.client _).mpr
      ⟨clientCommands before, cmd, ⟨clientCommands after, split, fresh, le_of_none_fresh fresh quiet⟩, rfl, rfl⟩
    -- its first application, and what a retry finds in the session
    have first : ((({} : StateMachine).applyAll before).apply cmd).1 =
        (perform (mapAfter (effectiveOf [] (clientCommands before))) cmd.op).1 := by
      rw [(apply_of_fresh fromClient fresh).1]
      exact congrArg (fun map => (perform map cmd.op).1) (kept_applyAll before).state
    rw [first, apply, if_neg fromClient, known]
    exact if_pos le_rfl

theorem at_most_once_retry :
    let put : Command := { client := 7, seq := 1, op := .put "k" "v" }
    let other : Command := { client := 8, seq := 1, op := .put "k" "w" }
    (({} : StateMachine).applyAll [put, other]).apply put =
      (((({} : StateMachine).applyAll []).apply put).1, ({} : StateMachine).applyAll [put, other]) :=
  (at_most_once [{ client := 7, seq := 1, op := .put "k" "v" }, { client := 8, seq := 1, op := .put "k" "w" }]).2.2.2
    [] _ [{ client := 8, seq := 1, op := .put "k" "w" }] rfl (by decide) (by decide) (by decide)

end StateMachine

end SimKv
