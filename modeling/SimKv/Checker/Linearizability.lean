import Mathlib.Data.List.Sort
import SimKv.Kv.StateMachine

set_option autoImplicit false

/-!
# The linearizability checker

`checker::linearizability`: a history of client operations, one key at a time, searched for an order
that a single register explains. The search walks a doubly linked list of calls and returns, lifts
an operation out when it is linearized, and puts it back to try another one.
-/

namespace SimKv

open Std

abbrev Nanos := UInt64

def Nanos.max : Nanos := 18446744073709551615

/-- One client operation as observed from outside. -/
structure Operation where
  id : Nat
  client : Nat
  op : Op
  -- When the client sent the first attempt.
  invoked : Nanos
  -- When the client learned the answer, if it ever did.
  completed : Option Nanos
  outcome : Option Outcome
  deriving DecidableEq, Repr

instance : Inhabited Operation :=
  ⟨{ id := 0, client := 0, op := .noop, invoked := 0, completed := none, outcome := none }⟩

namespace Operation

def isPending (o : Operation) : Bool := o.outcome.isNone

def key (o : Operation) : Option String := o.op.key

section Text

/-! How the standard library prints a string with `{:?}` is a parameter of the texts. -/

variable (debug : String → String)

def debugOption : Option String → String
  | none => "None"
  | some text => "Some(" ++ debug text ++ ")"

def debugOutcome : Outcome → String
  | .value seen => "Value(" ++ debugOption debug seen ++ ")"
  | .written => "Written"
  | .cas matched => "Cas(" ++ toString matched ++ ")"
  | .notLeader none => "NotLeader(None)"
  | .notLeader (some hint) => "NotLeader(Some(NodeId(" ++ toString hint ++ ")))"
  | .dropped => "Dropped"

def renderOp : Op → String
  | .noop => "noop"
  | .setMembers members => "set-members(" ++ toString members.length ++ ")"
  | .get key => "get(" ++ key ++ ")"
  | .put key value => "put(" ++ key ++ ", " ++ value ++ ")"
  | .delete key => "del(" ++ key ++ ")"
  | .cas key expect value => "cas(" ++ key ++ ", " ++ debugOption debug expect ++ " -> " ++ value ++ ")"

def renderAnswer (o : Operation) : String :=
  match o.outcome, o.completed with
  | some outcome, some time => "=> " ++ debugOutcome debug outcome ++ " at " ++ toString time
  | _, _ => "=> <no answer>"

def render (o : Operation) : String :=
  "c" ++ toString o.client ++ " #" ++ toString o.id ++ " " ++ renderOp debug o.op ++ " [" ++
    toString o.invoked ++ "..] " ++ o.renderAnswer debug

end Text

end Operation

/-- The full observed history. -/
structure History where
  ops : List Operation

def History.wellFormedFrom (seen : List Nat) : List Operation → Except String Unit
  | [] => .ok ()
  | o :: rest =>
    if o.id ∈ seen then .error ("duplicate operation id " ++ toString o.id)
    else if o.completed.any (· < o.invoked) then
      .error ("operation " ++ toString o.id ++ " completed before it started")
    else if o.completed.isSome ≠ o.outcome.isSome then
      .error ("operation " ++ toString o.id ++ " has a completion time and outcome that disagree")
    else wellFormedFrom (o.id :: seen) rest

def History.wellFormed (h : History) : Except String Unit := wellFormedFrom [] h.ops

inductive Verdict where
  | linearizable
  | violation (key detail : String)
  | unknown (key reason : String)
  deriving DecidableEq, Repr

inductive Reg where
  | absent
  | value (v : String)
  deriving DecidableEq, Repr

def Reg.asOpt : Reg → Option String
  | .absent => none
  | .value v => some v

structure CheckStats where
  partitions : Nat := 0
  operations : Nat := 0
  steps : Nat := 0
  maxPartition : Nat := 0
  deriving DecidableEq, Repr

def defaultBudget : Nat := 5000000

structure Checker where
  -- How much work the search may do per key before giving up.
  budget : Nat := defaultBudget
  stats : CheckStats := {}
  deriving DecidableEq, Repr

namespace Checker

/-- Apply one operation to the model: whether the recorded outcome fits here, and the state after
it. A pending operation accepts any result. -/
def step (state : Reg) (o : Operation) : Bool × Reg :=
  let wildcard := o.outcome.isNone
  match o.op with
  | .noop | .setMembers _ => (true, state)
  | .get _ => (wildcard || o.outcome = some (.value state.asOpt), state)
  | .put _ value => (wildcard || o.outcome = some .written, .value value)
  | .delete _ => (wildcard || o.outcome = some .written, .absent)
  | .cas _ expect value =>
    let matched : Bool := state.asOpt = expect
    (wildcard || o.outcome = some (.cas matched), if matched then .value value else state)

structure Node where
  isCall : Bool
  op : Nat
  matching : Nat
  prev : Nat
  next : Nat
  deriving DecidableEq, Repr, Inhabited

abbrev Nodes := List Node

def Nodes.node (nodes : Nodes) (i : Nat) : Node := nodes.getD i default

def Nodes.setPrev (nodes : Nodes) (i target : Nat) : Nodes := nodes.modify i fun node => { node with prev := target }

def Nodes.setNext (nodes : Nodes) (i target : Nat) : Nodes := nodes.modify i fun node => { node with next := target }

def unlink (nodes : Nodes) (i : Nat) : Nodes :=
  let node := nodes.node i
  (nodes.setNext node.prev node.next).setPrev node.next node.prev

def relink (nodes : Nodes) (i : Nat) : Nodes :=
  let node := nodes.node i
  (nodes.setNext node.prev i).setPrev node.next i

structure Mark where
  time : Nanos
  rank : Nat
  id : Nat
  op : Nat
  isCall : Bool
  deriving DecidableEq, Repr

def Mark.cmp : Mark → Mark → Ordering :=
  compareLex (compareOn time) (compareLex (compareOn rank) (compareLex (compareOn id) (compareOn isCall)))

def Mark.call (o : Operation) (i : Nat) : Mark := { time := o.invoked, rank := 1, id := o.id, op := i, isCall := true }

def Mark.ret (o : Operation) (i : Nat) : Mark :=
  { time := o.completed.getD Nanos.max, rank := 0, id := o.id, op := i, isCall := false }

variable (ops : List Operation)

def marks : List Mark := ops.zipIdx.flatMap fun (o, i) => [.call o i, .ret o i]

def order : List Mark := (marks ops).insertionSort fun a b => (a.cmp b).isLE

def sentinel : Nat := 2 * ops.length

def callOf (i : Nat) : Nat := (order ops).findIdx fun m => m.op = i && m.isCall

def retOf (i : Nat) : Nat := (order ops).findIdx fun m => m.op = i && !m.isCall

def unset : Nat := 2 ^ 64 - 1

def threaded : Nodes :=
  (order ops).zipIdx.map (fun (m, pos) =>
    { isCall := m.isCall
      op := m.op
      matching := if m.isCall then retOf ops m.op else callOf ops m.op
      prev := if pos = 0 then sentinel ops else pos - 1
      next := pos + 1 }) ++
    [{ isCall := false, op := unset, matching := unset, prev := sentinel ops - 1, next := 0 }]

abbrev Words := List (BitVec 64)

def Words.mark (bits : Words) (i : Nat) : Words := bits.modify (i / 64) (· ||| 1#64 <<< (i % 64))

def Words.unmark (bits : Words) (i : Nat) : Words := bits.modify (i / 64) (· &&& ~~~(1#64 <<< (i % 64)))

structure Search where
  nodes : Nodes
  linearized : Words
  cache : List (Words × Reg) := []
  calls : List (Nat × Reg) := []
  state : Reg := .absent
  entry : Nat

def Search.init : Search :=
  { nodes := threaded ops
    linearized := List.replicate ((ops.length + 63) / 64) 0#64
    entry := ((threaded ops).node (sentinel ops)).next }

def Search.lift (s : Search) (next : Reg) : Search :=
  let node := s.nodes.node s.entry
  let bits := s.linearized.mark node.op
  let nodes := unlink (unlink s.nodes s.entry) node.matching
  { nodes
    linearized := bits
    cache := (bits, next) :: s.cache
    calls := (s.entry, s.state) :: s.calls
    state := next
    entry := (nodes.node (sentinel ops)).next }

def Search.undo (s : Search) (call : Nat) (prior : Reg) (calls : List (Nat × Reg)) : Search :=
  let node := s.nodes.node call
  let nodes := relink (relink s.nodes node.matching) call
  { s with
    nodes
    linearized := s.linearized.unmark node.op
    calls
    state := prior
    entry := (nodes.node call).next }

def Search.turn (s : Search) : Option Search :=
  let node := s.nodes.node s.entry
  if node.isCall then
    let (ok, next) := step s.state ops[node.op]!
    if ok ∧ (s.linearized.mark node.op, next) ∉ s.cache then some (s.lift ops next)
    else some { s with entry := node.next }
  else
    match s.calls with
    | [] => none
    | (call, prior) :: calls => some (s.undo call prior calls)

section Text

variable (debug : String → String)

def describe (key : String) (stuck : Nat) : String :=
  let sorted := ops.insertionSort fun a b =>
    (compareLex (compareOn Operation.invoked) (compareOn Operation.id) a b).isLE
  "no ordering of the " ++ toString ops.length ++ " operations on key " ++ debug key ++ " satisfies the model\n" ++
    "the search got stuck at: " ++ (ops[stuck]!).render debug ++ "\n" ++
    "history for this key, in invocation order:\n" ++
    String.join (sorted.map fun o => "  " ++ o.render debug ++ "\n")

def exhausted (budget : Nat) : String :=
  "search budget of " ++ toString budget ++ " steps exhausted over " ++ toString ops.length ++ " operations"

def search (key : String) (budget : Nat) : Nat → Search → Verdict × Nat
  | 0, s =>
    if s.entry = sentinel ops then (.linearizable, budget)
    else (.unknown key (exhausted ops budget), budget + 1)
  | left + 1, s =>
    if s.entry = sentinel ops then (.linearizable, budget - (left + 1))
    else
      match s.turn ops with
      | some s => search key budget left s
      | none => (.violation key (describe ops debug key (s.nodes.node s.entry).op), budget - left)

def checkPartition (c : Checker) (key : String) : Verdict × Checker :=
  if ops.length = 0 then (.linearizable, c)
  else
    let (verdict, steps) := search ops debug key c.budget c.budget (.init ops)
    (verdict, { c with stats := { c.stats with steps := c.stats.steps + steps } })

def byKey : ExtTreeMap String (List Operation) :=
  ops.foldl (fun map o =>
    match o.key with
    | some key => map.alter key fun found => some (found.getD [] ++ [o])
    | none => map) ∅

def checkAll : List (String × List Operation) → Checker → Verdict × Checker
  | [], c => (.linearizable, c)
  | (key, ops) :: rest, c =>
    match checkPartition ops debug c key with
    | (.linearizable, c) => checkAll rest c
    | other => other

def check (c : Checker) (h : History) : Verdict × Checker :=
  let partitions := byKey h.ops
  let stats := { c.stats with
    partitions := partitions.size
    operations := h.ops.length
    maxPartition := (partitions.values.map List.length).max?.getD 0 }
  checkAll debug partitions.toList { c with stats }

end Text

end Checker

end SimKv
