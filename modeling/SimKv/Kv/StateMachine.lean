import Mathlib.Data.List.Sort
import SimKv.Log

set_option autoImplicit false

/-!
# The replicated state machine

`kvstore::server::StateMachine`: a key-value map and one remembered result per client. The maps of
the source are ordered, and so are these.
-/

namespace SimKv

open Codec Std

inductive Outcome where
  | value (seen : Option String)
  | written
  | cas (matched : Bool)
  | notLeader (hint : Option NodeId)
  | dropped
  deriving DecidableEq, Repr

namespace Outcome

def noHint : Nat := 2 ^ 32 - 1

def encode : Outcome → Bytes
  | .value seen => Enc.u8 0 ++ Enc.optStr seen
  | .written => Enc.u8 1
  | .cas matched => Enc.u8 2 ++ Enc.u8 matched.toNat
  | .notLeader hint => Enc.u8 3 ++ Enc.u32 ((hint.map UInt32.toNat).getD noHint)
  | .dropped => Enc.u8 4

def decode : Dec Outcome := do
  match ← Dec.u8 with
  | 0 => return .value (← Dec.optString)
  | 1 => return .written
  | 2 => return .cas ((← Dec.u8) ≠ 0)
  | 3 => do
    let node ← Dec.u32
    return .notLeader (if node = noHint then none else some (UInt32.ofNat node))
  | 4 => return .dropped
  | tag => throw (.badTag tag)

end Outcome

def Outcome.Definite : Outcome → Prop
  | .value _ | .written | .cas _ => True
  | .notLeader _ | .dropped => False

instance : (outcome : Outcome) → Decidable outcome.Definite
  | .value _ | .written | .cas _ => inferInstanceAs (Decidable True)
  | .notLeader _ | .dropped => inferInstanceAs (Decidable False)

structure Session where
  seq : Nat
  outcome : Outcome
  deriving DecidableEq, Repr

structure StateMachine where
  state : ExtTreeMap String String := ∅
  sessions : ExtTreeMap Nat Session := ∅
  deriving DecidableEq

namespace StateMachine

variable (sm : StateMachine)

def cached (client seq : Nat) : Option Outcome :=
  (sm.sessions[client]?.filter fun s => s.seq = seq).map Session.outcome

def perform (state : ExtTreeMap String String) : Op → Outcome × ExtTreeMap String String
  | .noop | .setMembers _ => (.written, state)
  | .get key => (.value state[key]?, state)
  | .put key value => (.written, state.insert key value)
  | .delete key => (.written, state.erase key)
  | .cas key expect value =>
    if state[key]? = expect then (.cas true, state.insert key value) else (.cas false, state)

def execute (cmd : Command) : Outcome × StateMachine :=
  let result := perform sm.state cmd.op
  (result.1,
    { state := result.2, sessions := sm.sessions.insert cmd.client { seq := cmd.seq, outcome := result.1 } })

/-- Run one committed command. A request that was applied before is answered from its session. -/
def apply (cmd : Command) : Outcome × StateMachine :=
  if cmd.op = .noop ∨ cmd.members.isSome then (.written, sm)
  else
    match sm.sessions[cmd.client]? with
    | some s => if cmd.seq ≤ s.seq then (s.outcome, sm) else sm.execute cmd
    | none => sm.execute cmd

def applyAll (cmds : List Command) : StateMachine := cmds.foldl (fun sm cmd => (sm.apply cmd).2) sm

def encodePair (pair : String × String) : Bytes := Enc.str pair.1 ++ Enc.str pair.2

def encodeSession (entry : Nat × Session) : Bytes :=
  Enc.u32 entry.1 ++ (Enc.u64 entry.2.seq ++ entry.2.outcome.encode)

def encode : Bytes :=
  Enc.u32 sm.state.size ++ (sm.state.toList.flatMap encodePair ++
    (Enc.u32 sm.sessions.size ++ sm.sessions.toList.flatMap encodeSession))

def decodePair : Dec (String × String) := do return (← Dec.string, ← Dec.string)

def decodeSession : Dec (Nat × Session) := do
  return (← Dec.u32, { seq := ← Dec.u64, outcome := ← Outcome.decode })

def maxEntries : Nat := 1 <<< 20

def filled {K V : Type} [Ord K] [TransOrd K] (pairs : List (K × V)) : ExtTreeMap K V :=
  pairs.foldl (fun map pair => map.insert pair.1 pair.2) ∅

def decode : Dec StateMachine := do
  let keys ← Dec.u32
  if maxEntries < keys then throw .tooLong
  let state ← Dec.many decodePair keys
  let count ← Dec.u32
  if maxEntries < count then throw .tooLong
  let sessions ← Dec.many decodeSession count
  return { state := filled state, sessions := filled sessions }

/-- Restore from a snapshot blob, replacing everything. Bytes behind the sessions are not looked at. -/
def restore (blob : Bytes) : Except DecodeError StateMachine := (decode blob).map Prod.fst

end StateMachine

end SimKv
