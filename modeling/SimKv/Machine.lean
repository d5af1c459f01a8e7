import SimKv.Lib.Execution
import SimKv.Raft.Asks
import SimKv.Server

set_option autoImplicit false

/-!
# A server on its disk

One server, the disk it writes to and the completions on their way back. Which operations the device
takes is decided when they are issued: `accept` tells, for every operation there will ever be.
-/

namespace SimKv

namespace Disk

def perform (accept : OpId → Bool) (d : Disk) : Effect → Disk
  | .send .. => d
  | .writeAt op file offset bytes =>
      d.setFile file ((d.file file).issue (.data offset bytes) (accept op))
  | .setLen op file len => d.setFile file ((d.file file).issue (.setLen len) (accept op))
  | .sync op file => d.setFile file ((d.file file).sync (accept op))

def performAll (accept : OpId → Bool) (d : Disk) (effects : List Effect) : Disk :=
  effects.foldl (perform accept) d

variable {accept : OpId → Bool} {d : Disk}

theorem performAll_append (effects more : List Effect) :
    d.performAll accept (effects ++ more) = (d.performAll accept effects).performAll accept more :=
  List.foldl_append

theorem perform_other {e : Effect} {file : FileId} (other : e.file ≠ some file) :
    (d.perform accept e).file file = d.file file := by
  cases e with
  | send => rfl
  | writeAt op f => exact d.file_setFile_ne _ fun same => other (congrArg some same.symm)
  | setLen op f => exact d.file_setFile_ne _ fun same => other (congrArg some same.symm)
  | sync op f => exact d.file_setFile_ne _ fun same => other (congrArg some same.symm)

-- What is asked of other files leaves this one alone.
theorem performAll_other {effects : List Effect} {file : FileId}
    (others : ∀ e ∈ effects, e.file ≠ some file) : (d.performAll accept effects).file file = d.file file := by
  induction effects generalizing d with
  | nil => rfl
  | cons e rest ih =>
    have later := ih (d := d.perform accept e) fun e' member => others e' (List.mem_cons_of_mem _ member)
    exact later.trans (perform_other (others e List.mem_cons_self))

-- Messages leave the disk alone.
theorem performAll_sends {effects : List Effect} (sends : ∀ e ∈ effects, e.op = none) :
    d.performAll accept effects = d := by
  induction effects with
  | nil => rfl
  | cons e rest ih =>
    rw [List.forall_mem_cons] at sends
    cases e with
    | send => exact ih sends.2
    | writeAt | setLen | sync => cases sends.1

end Disk

/-- For each file, what power loss makes of its pending writes, in the order they reach the platter. -/
abbrev PowerLoss := FileId → List (WriteKind × Fate)

def PowerLoss.Possible (d : Disk) (loss : PowerLoss) : Prop :=
  ∀ file, ((loss file).map Prod.fst).Perm (d.file file).pending

instance PowerLoss.decidable (d : Disk) (loss : PowerLoss) : Decidable (loss.Possible d) :=
  decidable_of_iff
    (((loss .wal).map Prod.fst).Perm (d.file .wal).pending ∧
      ((loss .snapshotA).map Prod.fst).Perm (d.file .snapshotA).pending ∧
      ((loss .snapshotB).map Prod.fst).Perm (d.file .snapshotB).pending)
    ⟨fun each file => by
      cases file with
      | wal => exact each.1
      | snapshotA => exact each.2.1
      | snapshotB => exact each.2.2,
    fun all => ⟨all _, all _, all _⟩⟩

def Disk.image (d : Disk) (loss : PowerLoss) (file : FileId) : Bytes :=
  crashImage (d.file file).durable (loss file)

def Disk.crash (d : Disk) (loss : PowerLoss) : Disk where
  wal := .ofImage (d.image loss .wal)
  snapshotA := .ofImage (d.image loss .snapshotA)
  snapshotB := .ofImage (d.image loss .snapshotB)

structure Machine extends Server where
  disk : Disk := {}
  -- The operations whose completions are still to come.
  owed : List OpId := []
  -- Every message sent so far, in this life and before.
  sent : List (NodeId × RaftMsg) := []

/-- Who a node is: what it is started with, apart from its disk. -/
structure Identity where
  id : NodeId
  members : List NodeId
  cfg : RaftConfig

/-- The counters of the source are `u64`s, and an index is always followed by another one (`first_index`,
`last_index + 1`). -/
structure Raft.InRange (r : Raft) : Prop where
  term : r.term < 2 ^ 64
  stateSeq : r.stateSeq < 2 ^ 64
  snapshotSeq : r.snapshotSeq < 2 ^ 64
  highestSnapshot : r.highestSnapshot + 1 < 2 ^ 64
  lastIndex : r.log.lastIndex + 1 < 2 ^ 64

instance (r : Raft) : Decidable r.InRange :=
  decidable_of_iff (r.term < 2 ^ 64 ∧ r.stateSeq < 2 ^ 64 ∧ r.snapshotSeq < 2 ^ 64 ∧
      r.highestSnapshot + 1 < 2 ^ 64 ∧ r.log.lastIndex + 1 < 2 ^ 64)
    ⟨fun ⟨a, b, c, d, e⟩ => ⟨a, b, c, d, e⟩, fun ⟨a, b, c, d, e⟩ => ⟨a, b, c, d, e⟩⟩

inductive MachineEvent where
  | input (now : Nat) (input : Input)
  | crash (now : Nat) (loss : PowerLoss)

namespace Machine

variable (who : Identity) (accept : OpId → Bool) (m : Machine)

def start (now : Nat) (disk : Disk) : Machine :=
  let n := Raft.recover disk.wal.cache disk.snapshotA.cache disk.snapshotB.cache who.id who.members who.cfg
    { now, nextOp := m.nextOp, nextTimer := m.nextTimer }
  { raft := n.toRaft, nextOp := n.nextOp, nextTimer := n.nextTimer, disk, sent := m.sent }

def init : Machine :=
  let n := Raft.recover [] [] [] who.id who.members who.cfg {}
  { raft := n.toRaft, nextOp := n.nextOp, nextTimer := n.nextTimer }

/-- Only completions that are owed arrive, and they say what became of the operation. -/
def Possible : Input → Prop
  | .storage op ok => op ∈ m.owed ∧ ok = accept op
  | _ => True

instance decidablePossible : (input : Input) → Decidable (m.Possible accept input)
  | .storage .. => inferInstanceAs (Decidable (_ ∧ _))
  | .deliver _ | .timer _ | .propose _ | .reconfigure _ | .read | .drain _ =>
    inferInstanceAs (Decidable True)

def react (now : Nat) (input : Input) : Node := (m.toServer.handle now input).1

def settle (input : Input) (n : Node) : Machine where
  toServer := m.toServer.settle input n
  disk := m.disk.performAll accept n.effects
  owed := (match input with
    | .storage op _ => m.owed.erase op
    | _ => m.owed) ++ n.effects.filterMap Effect.op
  sent := m.sent ++ n.sent

/-- One event. There is no step where an assertion of the source fails or a counter overflows. -/
def step : MachineEvent → Option Machine
  | .input now input =>
    let n := m.react now input
    if m.Possible accept input ∧ n.panicked = false ∧ n.toRaft.InRange then some (m.settle accept input n)
    else none
  | .crash now loss =>
    if loss.Possible m.disk then some (m.start who now (m.disk.crash loss)) else none

variable {who accept m} in
theorem step_input {m' : Machine} {now : Nat} {input : Input}
    (next : m.step who accept (.input now input) = some m') : m' = m.settle accept input (m.react now input) := by
  simp only [step] at next
  split at next
  · exact (Option.some.inj next).symm
  · cases next

abbrev Run (ok : Machine → MachineEvent → Prop) : Machine → Machine → Prop :=
  Execution.Run (step who accept) ok

def Reachable (ok : Machine → MachineEvent → Prop) (m : Machine) : Prop := Run who accept ok (init who) m

end Machine

end SimKv
